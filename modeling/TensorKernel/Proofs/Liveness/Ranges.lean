import TensorKernel.Proofs.Outcome
import TensorKernel.Proofs.Program.Wiring

/-!
# What live ranges are

Every register that the computation of live ranges hands out goes to the values of one origin: a
pointer of the kernel boundary with its aliases, or one alias group. The origin fixes the interval.
The values of a group and their uses hold one register, and registers of different origins differ.
-/

namespace TensorKernel

open Outcome

variable {bank : Bank} {id : ExprId} {range : Interval} {done rest : List ExprId} {values : List ValueRef}
  {k : Nat} {p q : Program} {s s₀ u : RangeState} {r : Reg} {α : Type} {m v : ValueRef}
  {w w₀ : Workspace}

namespace Program

/-- The expressions have the numbers of their positions. -/
def Enumerated (p : Program) : Prop := ∀ (i : Nat) id, p.order[i]? = some id → (p.expr id).exec = i

/-- The check of the numbering goes through the list from any first number on. -/
theorem forM_exec_eq_ok {name : Label} (l : List Expr) (n : Nat) :
    ((l.zipIdx n).forM (fun (e, i) => if e.exec = i then Except.ok () else
      .error (Fault.notEnumerated name e.name e.exec i)) = .ok ()) ↔
    ∀ (i : Nat) e, l[i]? = some e → e.exec = ((n + i : Nat) : Int) := by
  induction l generalizing n with
  | nil => simp [pure, Except.pure]
  | cons e l ih =>
    rw [List.zipIdx_cons, List.forM, except_bind_eq_ok]
    constructor
    · rintro ⟨_, he, hl⟩ i e' hi
      have he : e.exec = n := by
        by_cases h : e.exec = n
        · exact h
        · simp [h] at he
      cases i with
      | zero =>
        cases hi
        exact he
      | succ i =>
        have := (ih (n + 1)).mp hl i e' (by simpa using hi)
        omega
    · intro h
      refine ⟨(), if_pos (h 0 e rfl), (ih (n + 1)).mpr fun i e' hi => ?_⟩
      have := h (i + 1) e' (by simpa using hi)
      omega

theorem checkEnumerated_eq_ok : p.checkEnumerated = .ok () ↔ p.Enumerated := by
  unfold checkEnumerated
  rw [forM_exec_eq_ok p.list 0]
  simp only [list, List.getElem?_map, Option.map_eq_some_iff, Nat.zero_add]
  constructor
  · intro h i id hi
    exact h i _ ⟨id, hi, rfl⟩
  · rintro h i e ⟨id, hi, rfl⟩
    exact h i id hi

/-- The numbers of a numbered program ascend. -/
theorem Enumerated.pairwise (h : p.Enumerated) :
    p.order.Pairwise fun x y => (p.expr x).exec < (p.expr y).exec := by
  rw [List.pairwise_iff_getElem]
  intro i j hi hj hij
  have h₁ := h i _ (List.getElem?_eq_getElem hi)
  have h₂ := h j _ (List.getElem?_eq_getElem hj)
  omega

/-- A numbered program lists an expression once. -/
theorem Enumerated.nodup (h : p.Enumerated) : p.order.Nodup := by
  refine h.pairwise.imp fun hlt he => ?_
  rw [he] at hlt
  exact Int.lt_irrefl _ hlt

/-- A number in a numbered program lies between the first and the last position. -/
theorem Enumerated.exec_mem (h : p.Enumerated) (hid : id ∈ p.order) :
    0 ≤ (p.expr id).exec ∧ (p.expr id).exec ≤ p.length - 1 := by
  obtain ⟨i, hi, rfl⟩ := List.mem_iff_getElem.mp hid
  have := h i _ (List.getElem?_eq_getElem hi)
  unfold length
  omega

/-- Numbered expressions exist. -/
theorem Enumerated.lt_size (h : p.Enumerated) (hid : id ∈ p.order) : id < p.exprs.size := by
  refine Decidable.byContradiction fun hout => ?_
  have hexec := (h.exec_mem hid).1
  rw [expr_of_size_le (Nat.not_lt.mp hout)] at hexec
  exact absurd hexec (by decide)

theorem Enumerated.of_bare (h : p.Enumerated) (hb : q.bare = p.bare) : q.Enumerated := by
  intro i id hi
  rw [exec_congr hb]
  exact h i id (order_congr hb ▸ hi)

/-- An expression with a smaller number stands before. -/
theorem Enumerated.mem_of_lt (h : p.Enumerated) {j : ExprId} (hi : p.order = done ++ id :: rest)
    (hj : j ∈ p.order) (hlt : (p.expr j).exec < (p.expr id).exec) : j ∈ done := by
  obtain ⟨k, hk⟩ := List.mem_iff_getElem?.mp hj
  have hid := h done.length id (by simp [hi])
  have hk' := h k j hk
  rw [hi, List.getElem?_append_left (by omega)] at hk
  exact List.mem_of_getElem? hk

/-- The pointers of the kernel boundary. -/
inductive IsPointer (p : Program) : List ValueRef → Prop
  | parameter {id : ExprId} {values : List ValueRef} :
    id ∈ p.parameters → RangeStep.parameterPointer id p = .ok values → IsPointer p values
  | result {id : ExprId} {values : List ValueRef} :
    id ∈ p.results → RangeStep.resultPointer id p = .ok values → IsPointer p values

theorem IsPointer.congr (h : p.bare = q.bare) (hp : p.IsPointer values) : q.IsPointer values := by
  cases hp with
  | parameter hid hq =>
    refine .parameter (parameters_congr h ▸ hid) ?_
    rw [← bare_parameterPointer, ← h, bare_parameterPointer, hq]
  | result hid hq =>
    refine .result (results_congr h ▸ hid) ?_
    rw [← bare_resultPointer, ← h, bare_resultPointer, hq]

/-- A pointer has a first value. -/
theorem IsPointer.exists_first (h : p.IsPointer values) : ∃ first views, values = first :: views := by
  cases h with
  | parameter _ hvalues | result _ hvalues =>
    obtain ⟨first, _, hvalues⟩ := except_bind_eq_ok.mp hvalues
    obtain ⟨views, _, hvalues⟩ := except_bind_eq_ok.mp hvalues
    exact ⟨first, views, (except_pure_eq_ok.mp hvalues).symm⟩

/-- It is the first output of a parameter, or what the first input of a result reads. -/
theorem IsPointer.first_cases {first : ValueRef} {views : List ValueRef} (h : p.IsPointer (first :: views)) :
    (∃ id ∈ p.order, first = ⟨id, 0⟩ ∧ p.HasValue first) ∨
      ∃ id ∈ p.order, ∃ i ∈ (p.expr id).inputs, first = i.source := by
  cases h with
  | parameter hid hvalues =>
    obtain ⟨v, hv, hvalues⟩ := except_bind_eq_ok.mp hvalues
    obtain ⟨_, _, hvalues⟩ := except_bind_eq_ok.mp hvalues
    cases except_pure_eq_ok.mp hvalues
    obtain ⟨hvalue, rfl⟩ := output_zero_eq_ok.mp hv
    exact .inl ⟨_, (List.mem_filter.mp hid).1, rfl, hvalue⟩
  | result hid hvalues =>
    obtain ⟨v, hv, hvalues⟩ := except_bind_eq_ok.mp hvalues
    obtain ⟨_, _, hvalues⟩ := except_bind_eq_ok.mp hvalues
    cases except_pure_eq_ok.mp hvalues
    obtain ⟨i, hi, rfl⟩ := Option.map_eq_some_iff.mp (input_zero_eq_ok.mp hv)
    exact .inr ⟨_, (List.mem_filter.mp hid).1, i, List.mem_of_getElem? hi, rfl⟩

/-- The interval of the alias group of a value that is the first of the group to be met. -/
def groupRange (p : Program) (v : ValueRef) : Interval :=
  let start := (p.expr v.producer).exec
  ⟨start, (p.aliasGroup v).foldl (fun stop m => max stop (p.lastUse m)) start⟩

/-- Expressions whose outputs get no register of their own. -/
def IsSilent (p : Program) (id : ExprId) : Prop :=
  (p.expr id).role = .loopEnd ∨ (p.expr id).role = .result

instance (p : Program) (id : ExprId) : Decidable (p.IsSilent id) :=
  inferInstanceAs (Decidable (_ ∨ _))

/-- Results and ends of loops produce nothing. -/
def SilentEmpty (p : Program) : Prop :=
  ∀ id ∈ p.order, p.IsSilent id → (p.expr id).outputs = []

instance (p : Program) : Decidable p.SilentEmpty := inferInstanceAs (Decidable (∀ id ∈ p.order, _))

/-- A value of the program has a producer that is not silent. -/
theorem Owns.not_isSilent (hs : p.SilentEmpty) (hv : p.Owns v) : ¬ p.IsSilent v.producer := by
  intro hsilent
  have hlt := hv.2
  rw [HasValue, hs _ hv.1 hsilent] at hlt
  exact Nat.not_lt_zero _ hlt

/-- The values that share one register, and its interval. -/
inductive Origin (p : Program) : List ValueRef → Interval → Prop
  /-- A pointer of the boundary lives throughout. -/
  | pointer {values : List ValueRef} :
    p.IsPointer values → Origin p (values.flatMap p.aliasGroup) ⟨0, p.length - 1⟩
  /-- A group lives from the first of its members to its last use. -/
  | group {v : ValueRef} :
    p.Owns v →
    (∀ m ∈ p.aliasGroup v, p.Owns m → ¬ p.IsSilent m.producer →
      (p.expr v.producer).exec ≤ (p.expr m.producer).exec) →
    Origin p (p.aliasGroup v) (p.groupRange v)

theorem groupRange_congr (h : q.bare = p.bare) (v : ValueRef) : q.groupRange v = p.groupRange v := by
  have he : (q.expr v.producer).exec = (p.expr v.producer).exec :=
    exec_congr h v.producer
  have hu : q.lastUse = p.lastUse := by
    funext m
    rw [← bare_lastUse q, h, bare_lastUse]
  simp only [groupRange, aliasGroup_congr h, he, hu]

/-- An origin holds whole groups. -/
theorem Origin.closed (hg : p.Grouped) {vs : List ValueRef} (h : p.Origin vs range) {w : ValueRef}
    (hw : w ∈ vs) (hm : m ∈ p.aliasGroup w) : m ∈ vs := by
  cases h with
  | pointer =>
    obtain ⟨x, hx, hw⟩ := List.mem_flatMap.mp hw
    exact List.mem_flatMap.mpr ⟨x, hx, hg.aliasGroup_eq hw ▸ hm⟩
  | group => exact hg.aliasGroup_eq hw ▸ hm

end Program

open Program

/-- The values whose registers matter for the expressions of `p`, when the registers are those of
`q`: values of `p`, and values read in `p` that got a register. -/
def Program.Sees (p q : Program) (v : ValueRef) : Prop :=
  v.producer ∈ p.order ∨
    ∃ u ∈ p.uses v, u.consumer ∈ p.order ∧ (q.inputReg u).isDefined = true

/-- What the registers and live ranges mean that were handed out for `p`. -/
structure Workspace.Ranged (p : Program) (w : Workspace) : Prop where
  /-- Only registers are written. -/
  bare : w.program.bare = p.bare
  /-- No port has another register than its abstract one. -/
  synced : w.program.Synced p.order
  /-- The uses of a value hold its register. -/
  agree : ∀ v u, u ∈ p.uses v → u.consumer ∈ p.order →
    v.producer ∈ p.order ∨ (w.program.inputReg u).isDefined = true →
    w.program.inputReg u = w.program.abstractReg v
  /-- The values of a group hold one register. -/
  uniform : ∀ v m, m ∈ p.aliasGroup v → v.producer ∈ p.order → m.producer ∈ p.order →
    w.program.abstractReg m = w.program.abstractReg v
  /-- A register goes to one origin. -/
  origin : ∀ v, p.Sees w.program v → (w.program.abstractReg v).isDefined = true →
    ∃ vs range, p.Origin vs range ∧ w.live.ranges.get? (w.program.abstractReg v) = some range ∧
      ∀ x, p.Sees w.program x → w.program.abstractReg x = w.program.abstractReg v → x ∈ vs

/-- What holds at every moment of the computation of live ranges for `p`. -/
structure RangeState.Inv (p : Program) (s : RangeState) : Prop extends
    Workspace.Ranged p s.toWorkspace where
  /-- Registers that were handed out are below the counts. -/
  counted : ∀ v, p.Sees s.program v → (s.program.abstractReg v).isDefined = true →
    (s.program.abstractReg v).index < s.counts (s.program.abstractReg v).bank

namespace RangeState

/-- The state after the next register of a bank went to values, with its interval. -/
def handOut (s : RangeState) (bank : Bank) (values : List ValueRef) (range : Interval) :
    RangeState where
  program := s.program.giveAll ⟨bank, s.counts bank⟩ values
  live := { s.live with ranges := s.live.ranges.insert ⟨bank, s.counts bank⟩ range }
  counts b := if b = bank then s.counts bank + 1 else s.counts b
  expiring := s.expiring.insert ⟨bank, s.counts bank⟩ range.stop

/-- The next register of a bank can be recorded with an interval. -/
def Takes (s : RangeState) (bank : Bank) (range : Interval) : Prop :=
  s.live.ranges.contains ⟨bank, s.counts bank⟩ = false ∧ range.start ≤ range.stop

/-- The registers that are still live at a position. -/
def liveAt (s : RangeState) (position : Int) : RegTable Int :=
  s.expiring.filter fun _ stop => position ≤ stop

/-- The state after what is still live at an expression was recorded. -/
def enter (s : RangeState) (id : ExprId) (position : Int) : RangeState :=
  { s with
    live := s.live.putSet id (s.liveAt position).keySet
    expiring := s.liveAt position }

/-- The states that the computation for `p` goes through from `s₀` on. The first state is the one in
which the visits begin: as long as pointers are assigned, it is the state that was reached itself. Then
come the expressions that were visited and, during a visit, the expression and the number of its outputs
that were looked at. -/
inductive Reached (p : Program) (s₀ : RangeState) :
    RangeState → List ExprId → Option (ExprId × Nat) → RangeState → Prop
  | start : Reached p s₀ s₀ [] none s₀
  /-- A boundary pointer whose first value has no register gets one. -/
  | pointer {values : List ValueRef} {u : RangeState} :
    Reached p s₀ u [] none u → p.IsPointer values →
    (∀ first ∈ values.head?, (u.program.abstractReg first).isDefined = false) →
    u.Takes .gpr ⟨0, p.length - 1⟩ →
    Reached p s₀ (u.handOut .gpr (values.flatMap p.aliasGroup) ⟨0, p.length - 1⟩) [] none
      (u.handOut .gpr (values.flatMap p.aliasGroup) ⟨0, p.length - 1⟩)
  /-- Nothing is live at a silent expression. -/
  | silent {done rest : List ExprId} {id : ExprId} {u s : RangeState} :
    Reached p s₀ u done none s → p.order = done ++ id :: rest → p.IsSilent id →
    Reached p s₀ u (done ++ [id]) none { s with live := s.live.putSet id ∅ }
  /-- The visit of any other expression begins with its live set. -/
  | enter {done rest : List ExprId} {id : ExprId} {u s : RangeState} :
    Reached p s₀ u done none s → p.order = done ++ id :: rest → ¬ p.IsSilent id →
    Reached p s₀ u done (some (id, 0)) (s.enter id (p.expr id).exec)
  /-- An output that has a register is left alone. -/
  | keep {done : List ExprId} {id : ExprId} {k : Nat} {u s : RangeState} :
    Reached p s₀ u done (some (id, k)) s → p.HasValue ⟨id, k⟩ →
    (s.program.abstractReg ⟨id, k⟩).isDefined = true →
    Reached p s₀ u done (some (id, k + 1)) s
  /-- The group of an output without a register gets one. -/
  | give {done : List ExprId} {id : ExprId} {k : Nat} {u s : RangeState} :
    Reached p s₀ u done (some (id, k)) s → p.HasValue ⟨id, k⟩ →
    (s.program.abstractReg ⟨id, k⟩).isDefined = false →
    (p.expr id).role.bank ≠ .undefined →
    s.Takes (p.expr id).role.bank (p.groupRange ⟨id, k⟩) →
    Reached p s₀ u done (some (id, k + 1))
      (s.handOut (p.expr id).role.bank (p.aliasGroup ⟨id, k⟩) (p.groupRange ⟨id, k⟩))
  /-- The visit ends behind the last output. -/
  | leave {done : List ExprId} {id : ExprId} {u s : RangeState} :
    Reached p s₀ u done (some (id, (p.expr id).outputs.length)) s →
    Reached p s₀ u (done ++ [id]) none s

/-- The computation has looked at a value. -/
def Passed (done : List ExprId) (current : Option (ExprId × Nat)) (v : ValueRef) : Prop :=
  v.producer ∈ done ∨ ∃ k, current = some (v.producer, k) ∧ v.output < k

/-- The values that were looked at have registers, unless their producers are silent. -/
def Visited (p : Program) (s : RangeState) (done : List ExprId)
    (current : Option (ExprId × Nat)) : Prop :=
  ∀ v, p.Owns v → Passed done current v → ¬ p.IsSilent v.producer →
    (s.program.abstractReg v).isDefined = true

/-- The expression that is visited is the next one of the program and not silent. -/
theorem Reached.current (h : Reached p s₀ u done (some (id, k)) s) :
    ¬ p.IsSilent id ∧ ∃ rest, p.order = done ++ id :: rest := by
  generalize hc : some (id, k) = current at h
  induction h generalizing k with
  | start | pointer | silent | leave => cases hc
  | enter _ horder hsilent =>
    cases hc
    exact ⟨hsilent, _, horder⟩
  | keep _ _ _ ih | give _ _ _ _ _ ih =>
    cases hc
    exact ih rfl

variable {current : Option (ExprId × Nat)}

/-- The visits begin in a state that was reached. -/
theorem Reached.boundary (h : Reached p s₀ u done current s) : Reached p s₀ u [] none u := by
  induction h with
  | start => exact .start
  | pointer hreached hvalues hnone htakes => exact .pointer hreached hvalues hnone htakes
  | silent _ _ _ ih | enter _ _ _ ih | keep _ _ _ ih | give _ _ _ _ _ ih | leave _ ih => exact ih

/-- What is reached is reached from where the visits began. -/
theorem Reached.visits (h : Reached p s₀ u done current s) : Reached p u u done current s := by
  induction h with
  | start | pointer => exact .start
  | silent _ hi hsilent ih => exact .silent ih hi hsilent
  | enter _ hi hsilent ih => exact .enter ih hi hsilent
  | keep _ hvalue hd ih => exact .keep ih hvalue hd
  | give _ hvalue hd hbank htakes ih => exact .give ih hvalue hd hbank htakes
  | leave _ ih => exact .leave ih

/-- What is reached from a state before the first visit is reached from where that state was. -/
theorem Reached.trans {s₁ : RangeState} (h₁ : Reached p s₀ s₁ [] none s₁)
    (h : Reached p s₁ u done current s) : Reached p s₀ u done current s := by
  induction h with
  | start => exact h₁
  | pointer _ hvalues hnone htakes ih => exact .pointer ih hvalues hnone htakes
  | silent _ hi hsilent ih => exact .silent ih hi hsilent
  | enter _ hi hsilent ih => exact .enter ih hi hsilent
  | keep _ hvalue hd ih => exact .keep ih hvalue hd
  | give _ hvalue hd hbank htakes ih => exact .give ih hvalue hd hbank htakes
  | leave _ ih => exact .leave ih

/-- The computation writes nothing but registers. -/
theorem Reached.bare (h : Reached p s₀ u done current s)
    (hs : s₀.program.bare = p.bare) : s.program.bare = p.bare := by
  induction h with
  | start => exact hs
  | pointer _ _ _ _ ih | give _ _ _ _ _ ih => exact (bare_giveAll ..).trans ih
  | silent _ _ _ ih | enter _ _ _ ih | keep _ _ _ ih | leave _ ih => exact ih

theorem get?_handOut : (s.handOut bank values range).live.ranges.get? r =
    if ⟨bank, s.counts bank⟩ = r then some range else s.live.ranges.get? r :=
  RegTable.get?_insert

theorem contains_handOut : (s.handOut bank values range).live.ranges.contains r = true ↔
    ⟨bank, s.counts bank⟩ = r ∨ s.live.ranges.contains r = true := by
  rw [RegTable.contains, get?_handOut]
  split <;> simp_all [RegTable.contains]

theorem expiring_handOut : (s.handOut bank values range).expiring.get? r =
    if ⟨bank, s.counts bank⟩ = r then some range.stop else s.expiring.get? r :=
  RegTable.get?_insert

/-- The next register of a bank has no interval yet. -/
theorem Takes.get?_eq_none (h : s.Takes bank range) :
    s.live.ranges.get? ⟨bank, s.counts bank⟩ = none := by
  have hfree := h.1
  rw [RegTable.contains] at hfree
  exact Option.not_isSome_iff_eq_none.mp (by simp [hfree])

/-- A register that has an interval is not the next one. -/
theorem Takes.ne (h : s.Takes bank range) {i : Interval} (hr : s.live.ranges.get? r = some i) :
    (⟨bank, s.counts bank⟩ : Reg) ≠ r := by
  intro he
  rw [← he, h.get?_eq_none] at hr
  cases hr

/-- An interval that was recorded stays. -/
theorem Takes.get?_handOut (h : s.Takes bank range) {i : Interval} (hr : s.live.ranges.get? r = some i) :
    (s.handOut bank values range).live.ranges.get? r = some i := by
  rw [RangeState.get?_handOut, if_neg (h.ne hr), hr]

/-- Intervals stay. -/
theorem Reached.get?_ranges (h : Reached p s₀ u done current s) {i : Interval}
    (hr : s₀.live.ranges.get? r = some i) : s.live.ranges.get? r = some i := by
  induction h with
  | start => exact hr
  | pointer _ _ _ htakes ih | give _ _ _ _ htakes ih => exact htakes.get?_handOut ih
  | silent _ _ _ ih | enter _ _ _ ih | keep _ _ _ ih | leave _ ih => exact ih

/-- A register that has no interval now had none at the start. -/
theorem Reached.get?_eq_none (h : Reached p s₀ u done current s) (hr : s.live.ranges.get? r = none) :
    s₀.live.ranges.get? r = none := by
  refine Option.eq_none_iff_forall_ne_some.mpr fun i hi => ?_
  rw [h.get?_ranges hi] at hr
  cases hr

end RangeState

namespace RangeStep

open RangeState

variable {t : RangeState}

theorem setRange_eq_ok {l l' : Liveness} :
    l.setRange r range false = .ok l' ↔
      l.ranges.contains r = false ∧ range.start ≤ range.stop ∧
        l' = { l with ranges := l.ranges.insert r range } := by
  unfold Liveness.setRange
  cases l.ranges.contains r with
  | true => simp
  | false =>
    by_cases h : range.stop < range.start
    · simp [h, Int.not_le.mpr h]
    · simp [h, Int.not_lt.mp h, eq_comm]

/-- What handing out a fresh register to values does. -/
theorem assign_eq_ok :
    (do let r ← nextReg bank; give r values; record r range) s = .ok () t ↔
      s.Takes bank range ∧ t = s.handOut bank values range := by
  have hrecord : ∀ u : RangeState, record ⟨bank, s.counts bank⟩ range u = .ok () t ↔
      (u.live.ranges.contains ⟨bank, s.counts bank⟩ = false ∧ range.start ≤ range.stop) ∧
        t = { u with
          live := { u.live with ranges := u.live.ranges.insert ⟨bank, s.counts bank⟩ range }
          expiring := u.expiring.insert ⟨bank, s.counts bank⟩ range.stop } := by
    intro u
    simp only [record, bind_eq_ok, get_eq_ok]
    constructor
    · rintro ⟨_, _, ⟨rfl, rfl⟩, h⟩
      cases hr : u.live.setRange ⟨bank, s.counts bank⟩ range false with
      | error fault =>
        rw [hr] at h
        exact absurd h throw_ne_ok
      | ok live =>
        rw [hr] at h
        obtain ⟨hc, hle, rfl⟩ := setRange_eq_ok.mp hr
        exact ⟨⟨hc, hle⟩, (set_eq_ok.mp h).symm⟩
    · rintro ⟨⟨hc, hle⟩, rfl⟩
      refine ⟨u, u, ⟨rfl, rfl⟩, ?_⟩
      rw [setRange_eq_ok.mpr ⟨hc, hle, rfl⟩]
      rfl
  constructor
  · intro h
    exact (hrecord _).mp h
  · intro h
    exact (hrecord _).mpr h

/-- A value outside the given ones is seen after a register was handed out if it was seen before. -/
theorem sees_of_not_mem (hl : p.Linked) (h : s.Inv p) (ht : t.program = s.program.giveAll r values)
    (hv : v ∉ values) (hs : p.Sees t.program v) : p.Sees s.program v := by
  rcases hs with hs | ⟨u, hu, hc, hd⟩
  · exact .inl hs
  · refine .inr ⟨u, hu, hc, ?_⟩
    rwa [ht, inputReg_giveAll_of_forall] at hd
    intro w hw hm
    rw [uses_congr h.bare] at hm
    exact hv (hl.eq_of_mem_uses hc hm hu ▸ hw)

/-- Handing out a register to an origin keeps the invariant. -/
theorem inv_handOut (hl : p.Linked) (hg : p.Grouped) (h : s.Inv p) (ho : p.Origin values range) :
    (s.handOut bank values range).Inv p := by
  generalize ht : s.handOut bank values range = t
  have hp : t.program = s.program.giveAll ⟨bank, s.counts bank⟩ values := ht ▸ rfl
  have hranges : t.live.ranges = s.live.ranges.insert ⟨bank, s.counts bank⟩ range := ht ▸ rfl
  have hcounts : ∀ b, t.counts b = if b = bank then s.counts bank + 1 else s.counts b :=
    ht ▸ fun _ => rfl
  clear ht
  have hreg : ∀ v, t.program.abstractReg v =
      if v ∈ values ∧ p.HasValue v then ⟨bank, s.counts bank⟩ else s.program.abstractReg v := by
    intro v
    simp only [hp, abstractReg_giveAll, hasValue_congr h.bare]
  -- A value that is seen and defined holds either the new register or a register from before.
  have hcases : ∀ v, p.Sees t.program v → (t.program.abstractReg v).isDefined = true →
      (v ∈ values ∧ t.program.abstractReg v = ⟨bank, s.counts bank⟩) ∨
      (p.Sees s.program v ∧ t.program.abstractReg v = s.program.abstractReg v ∧
        (s.program.abstractReg v).index < s.counts (s.program.abstractReg v).bank) := by
    intro v hv hd
    have hvalue := (hasValue_congr (hp ▸ (bare_giveAll ..).trans h.bare) v).mp
      (HasValue.of_isDefined hd)
    by_cases hm : v ∈ values
    · exact .inl ⟨hm, by rw [hreg, if_pos ⟨hm, hvalue⟩]⟩
    · have he : t.program.abstractReg v = s.program.abstractReg v := by
        rw [hreg, if_neg fun hm' => hm hm'.1]
      have hs := sees_of_not_mem hl h hp hm hv
      exact .inr ⟨hs, he, h.counted v hs (he ▸ hd)⟩
  refine ⟨⟨hp ▸ (bare_giveAll ..).trans h.bare, hp ▸ h.synced.giveAll _ values, ?_, ?_, ?_⟩, ?_⟩
  · -- agree
    intro v u hu hc hd
    by_cases hm : v ∈ values
    · have hu' : u ∈ s.program.uses v := uses_congr h.bare v ▸ hu
      rw [hreg, if_pos ⟨hm, HasValue.of_mem_uses hu⟩, hp]
      exact inputReg_giveAll_of_mem hm hu' ((hasUse_congr h.bare u).mpr (hl.hasUse hu hc))
    · have hi : t.program.inputReg u = s.program.inputReg u := by
        rw [hp, inputReg_giveAll_of_forall]
        intro w hw hm'
        rw [uses_congr h.bare] at hm'
        exact hm (hl.eq_of_mem_uses hc hm' hu ▸ hw)
      rw [hi] at hd ⊢
      rw [hreg, if_neg fun hm' => hm hm'.1]
      exact h.agree v u hu hc hd
  · -- uniform
    intro v m hm hv hmo
    have hmem : m ∈ values ↔ v ∈ values :=
      ⟨fun hw => ho.closed hg hw (hg.mem_symm hm), fun hw => ho.closed hg hw hm⟩
    by_cases hvalue : p.HasValue v
    · have hmvalue := ((hg v hvalue).2 m hm).1
      simp only [hreg, hmem, hvalue, hmvalue, h.uniform v m hm hv hmo]
    · rw [aliasGroup_of_not_hasValue hvalue, List.mem_singleton] at hm
      rw [hm]
  · -- origin
    intro v hv hd
    rcases hcases v hv hd with ⟨_, he⟩ | ⟨hs, he, hlt⟩
    · refine ⟨values, range, ho, by rw [hranges, he, RegTable.get?_insert, if_pos rfl], ?_⟩
      intro w hw hwr
      rcases hcases w hw (hwr ▸ hd) with ⟨hm, _⟩ | ⟨_, hwe, hlt⟩
      · exact hm
      · rw [← hwe, hwr, he] at hlt
        exact absurd hlt (Int.lt_irrefl _)
    · obtain ⟨vs, range', ho', hr, hholders⟩ := h.origin v hs (he ▸ hd)
      have hne : (⟨bank, s.counts bank⟩ : Reg) ≠ s.program.abstractReg v := by
        intro hne
        rw [← hne] at hlt
        exact Int.lt_irrefl _ hlt
      refine ⟨vs, range', ho', by rw [hranges, he, RegTable.get?_insert, if_neg hne, hr], ?_⟩
      intro w hw hwr
      rcases hcases w hw (hwr ▸ hd) with ⟨_, hwe⟩ | ⟨hws, hwe, _⟩
      · exact absurd (hwe.symm.trans (hwr.trans he)) hne
      · exact hholders w hws (hwe.symm.trans (hwr.trans he))
  · -- counted
    intro v hv hd
    rcases hcases v hv hd with ⟨_, he⟩ | ⟨_, he, hlt⟩
    · rw [he, hcounts, if_pos rfl]
      exact Int.ofNat_lt.mpr (Nat.lt_succ_self _)
    · rw [he, hcounts]
      split
      · simp_all
        omega
      · exact hlt

/-- Handing out a register of a bank takes no register away, and the given values have one. -/
theorem isDefined_handOut (hb : bank ≠ .undefined)
    (hv : v ∈ values ∧ s.program.HasValue v ∨ (s.program.abstractReg v).isDefined = true) :
    ((s.handOut bank values range).program.abstractReg v).isDefined = true := by
  show ((s.program.giveAll _ values).abstractReg v).isDefined = true
  rw [abstractReg_giveAll]
  split
  · simpa [Reg.isDefined] using hb
  · exact hv.resolve_left ‹_›

/-- A boundary pointer that has a register is left alone, otherwise its values get one. -/
theorem assignGlobal_cases (h : assignGlobal values s = .ok () t) :
    (∀ first ∈ values.head?, (s.program.abstractReg first).isDefined = true) ∧ s = t ∨
      (∀ first ∈ values.head?, (s.program.abstractReg first).isDefined = false) ∧
        s.Takes .gpr ⟨0, s.program.length - 1⟩ ∧
        t = s.handOut .gpr (values.flatMap s.program.aliasGroup) ⟨0, s.program.length - 1⟩ := by
  simp only [assignGlobal, bind_eq_ok (x := get), get_eq_ok] at h
  obtain ⟨_, _, ⟨rfl, rfl⟩, h⟩ := h
  cases values with
  | nil => exact .inl ⟨by simp, (pure_eq_ok.mp h).2⟩
  | cons first values =>
    cases hd : (s.program.abstractReg first).isDefined with
    | true =>
      simp only [hd] at h
      exact .inl ⟨by simp [hd], (pure_eq_ok.mp h).2⟩
    | false =>
      simp only [hd] at h
      exact .inr ⟨by simp [hd], assign_eq_ok.mp h⟩

/-- An output that has a register is left alone, otherwise its group gets one. -/
theorem visitOutput_cases (h : visitOutput id k s = .ok () t) :
    ((s.program.abstractReg ⟨id, k⟩).isDefined = true ∧ s = t) ∨
    ((s.program.abstractReg ⟨id, k⟩).isDefined = false ∧
      (s.program.expr id).role.bank ≠ .undefined ∧
      s.Takes (s.program.expr id).role.bank (s.program.groupRange ⟨id, k⟩) ∧
      t = s.handOut (s.program.expr id).role.bank (s.program.aliasGroup ⟨id, k⟩)
        (s.program.groupRange ⟨id, k⟩)) := by
  simp only [visitOutput, bind_eq_ok (x := get), get_eq_ok] at h
  obtain ⟨_, _, ⟨rfl, rfl⟩, h⟩ := h
  cases hd : (s.program.abstractReg ⟨id, k⟩).isDefined with
  | true =>
    simp only [hd] at h
    exact .inl ⟨rfl, (pure_eq_ok.mp h).2⟩
  | false =>
    simp only [hd] at h
    by_cases hb : (s.program.expr id).role.bank = .undefined
    · simp only [hb] at h
      exact absurd h (by simp [bind_eq_ok])
    · simp only [hb] at h
      exact .inr ⟨rfl, hb, assign_eq_ok.mp h⟩

/-- A change of live sets and of what expires keeps the invariant. -/
theorem inv_congr (h : s.Inv p) (hp : t.program = s.program)
    (hr : t.live.ranges = s.live.ranges) (hc : t.counts = s.counts) : t.Inv p := by
  refine ⟨⟨hp ▸ h.bare, hp ▸ h.synced, hp ▸ h.agree, hp ▸ h.uniform, ?_⟩, ?_⟩
  · simp only [hp, hr]
    exact h.origin
  · simp only [hp, hc]
    exact h.counted

/-- A live set is recorded once. -/
theorem recordLive_eq_ok {regs : RegSet} :
    recordLive id regs s = .ok () t ↔
      s.live.set? id = none ∧ t = { s with live := s.live.putSet id regs } := by
  simp only [recordLive, bind_eq_ok, get_eq_ok, Liveness.setLiveSet]
  constructor
  · rintro ⟨_, _, ⟨rfl, rfl⟩, h⟩
    cases hset : s.live.set? id with
    | some set =>
      simp only [hset] at h
      exact absurd h throw_ne_ok
    | none =>
      simp only [hset] at h
      exact ⟨rfl, (set_eq_ok.mp h).symm⟩
  · rintro ⟨hset, rfl⟩
    refine ⟨s, s, ⟨rfl, rfl⟩, ?_⟩
    rw [hset]
    rfl

/-- A visit records a live set: none for silent expressions, and otherwise what is still live. Then
the outputs get registers unless the expression is silent. -/
theorem visit_cases (h : visit id s = .ok () t) :
    s.program.IsSilent id ∧ t = { s with live := s.live.putSet id ∅ } ∨
      ¬ s.program.IsSilent id ∧
        (List.range (s.program.expr id).outputs.length).forM (visitOutput id)
          (s.enter id (s.program.expr id).exec) = .ok () t := by
  simp only [visit, bind_eq_ok (x := get), get_eq_ok] at h
  obtain ⟨_, _, ⟨rfl, rfl⟩, h⟩ := h
  by_cases hs : (s.program.expr id).role = .loopEnd ∨ (s.program.expr id).role = .result
  · rw [if_pos hs] at h
    exact .inl ⟨hs, (recordLive_eq_ok.mp h).2⟩
  · rw [if_neg hs] at h
    simp only [bind_eq_ok, modify_eq_ok, get_eq_ok] at h
    obtain ⟨_, _, rfl, _, _, ⟨rfl, rfl⟩, _, u, hu, h⟩ := h
    obtain ⟨_, rfl⟩ := recordLive_eq_ok.mp hu
    exact .inr ⟨hs, h⟩

/-- Before the first register is handed out the invariant holds. -/
theorem inv_start (hf : p.Fresh) (hs : s.program = p) : s.Inv p := by
  have hinput : ∀ u : UseRef, u.consumer ∈ p.order → (s.program.inputReg u).isDefined ≠ true := by
    intro u hu
    rw [hs, hf.inputReg hu]
    decide
  have hsees : ∀ v, p.Sees s.program v → (s.program.abstractReg v).isDefined ≠ true := by
    rintro v (hv | ⟨u, _, hu, hd⟩)
    · rw [hs, hf.abstractReg hv]
      decide
    · exact absurd hd (hinput u hu)
  refine ⟨⟨by rw [hs], hs ▸ hf.synced, ?_, ?_, fun v hv hd => absurd hd (hsees v hv)⟩,
    fun v hv hd => absurd hd (hsees v hv)⟩
  · intro v u _ hc hv
    rw [hs, hf.abstractReg (hv.resolve_right (hinput u hc)), hf.inputReg hc]
  · intro v m _ hv hm
    rw [hs, hf.abstractReg hv, hf.abstractReg hm]

/-- A question that was answered changes nothing. -/
theorem ask_eq_ok {question : Program → Except Fault α} {a : α} :
    ask question s = .ok a t ↔ question s.program = .ok a ∧ s = t := by
  simp only [ask, bind_eq_ok, get_eq_ok]
  constructor
  · rintro ⟨_, _, ⟨rfl, rfl⟩, h⟩
    cases hq : question s.program with
    | ok b =>
      rw [hq] at h
      obtain ⟨rfl, rfl⟩ := pure_eq_ok.mp h
      exact ⟨rfl, rfl⟩
    | error fault =>
      rw [hq] at h
      exact absurd h throw_ne_ok
  · rintro ⟨hq, rfl⟩
    refine ⟨s, s, ⟨rfl, rfl⟩, ?_⟩
    rw [hq]
    rfl

theorem ask_bind_eq_ok {β : Type} {question : Program → Except Fault α} {f : α → RangeStep β} {b : β} :
    (ask question >>= f) s = .ok b t ↔ ∃ a, question s.program = .ok a ∧ f a s = .ok b t := by
  simp only [bind_eq_ok, ask_eq_ok]
  constructor
  · rintro ⟨a, _, ⟨ha, rfl⟩, h⟩
    exact ⟨a, ha, h⟩
  · rintro ⟨a, ha, h⟩
    exact ⟨a, s, ⟨ha, rfl⟩, h⟩

/-- Assigning a boundary pointer hands out a register, or nothing happens. -/
theorem reached_assignGlobal (hs : s.program.bare = p.bare) (hvalues : p.IsPointer values)
    (ht : assignGlobal values s = .ok () t) : Reached p s t [] none t := by
  rcases assignGlobal_cases ht with ⟨_, rfl⟩ | ⟨hnone, htakes, rfl⟩
  · exact .start
  · rw [length_congr hs] at htakes
    rw [funext (aliasGroup_congr hs), length_congr hs]
    exact .pointer .start hvalues hnone htakes

/-- Boundary pointers are assigned one after the other. -/
theorem reached_assignGlobals (hs : s.program.bare = p.bare) (ht : assignGlobals s = .ok () t) :
    Reached p s t [] none t := by
  simp only [assignGlobals, bind_eq_ok (x := get), get_eq_ok] at ht
  obtain ⟨_, _, ⟨rfl, rfl⟩, ht⟩ := ht
  obtain ⟨_, u, hu, ht⟩ := bind_eq_ok.mp ht
  have hureached : Reached p s u [] none u := by
    refine forM_invariant (P := fun x => Reached p s x [] none x) .start ?_ hu
    intro id hid x y hx hy
    obtain ⟨values, hq, hy⟩ := ask_bind_eq_ok.mp hy
    rw [← bare_parameterPointer, hx.bare hs, bare_parameterPointer] at hq
    have hvalues : p.IsPointer values := .parameter (parameters_congr hs ▸ hid) hq
    exact hx.trans (reached_assignGlobal (hx.bare hs) hvalues hy)
  refine forM_invariant (P := fun x => Reached p s x [] none x) hureached ?_ ht
  intro id hid x y hx hy
  obtain ⟨values, hq, hy⟩ := ask_bind_eq_ok.mp hy
  rw [← bare_resultPointer, hx.bare hs, bare_resultPointer] at hq
  have hvalues : p.IsPointer values := .result (results_congr hs ▸ hid) hq
  exact hx.trans (reached_assignGlobal (hx.bare hs) hvalues hy)

/-- The outputs of an expression are looked at one after the other. -/
theorem reached_outputs (hs : s₀.program.bare = p.bare) {n : Nat} (hn : n ≤ (p.expr id).outputs.length)
    (h : Reached p s₀ u done (some (id, 0)) s)
    (ht : (List.range n).forM (visitOutput id) s = .ok () t) :
    Reached p s₀ u done (some (id, n)) t := by
  have hrun := forM_induction
    (P := fun ks x => Reached p s₀ u done (some (id, ks.length)) x) h ?_ ht
  · rwa [List.length_range] at hrun
  · intro ks k rest x y hks hx hy
    have hk : (List.range n)[ks.length]? = some k := by simp [hks]
    obtain ⟨hlt, rfl⟩ := List.getElem?_eq_some_iff.mp hk
    rw [List.length_range] at hlt
    rw [List.getElem_range] at hy ⊢
    have hvalue : p.HasValue ⟨id, ks.length⟩ := Nat.lt_of_lt_of_le hlt hn
    have hbare := hx.bare hs
    rw [List.length_append, List.length_singleton]
    rcases visitOutput_cases hy with ⟨hd, rfl⟩ | ⟨hd, hbank, htakes, rfl⟩
    · exact .keep hx hvalue hd
    · rw [role_congr hbare] at hbank
      rw [role_congr hbare, groupRange_congr hbare] at htakes
      rw [role_congr hbare, groupRange_congr hbare, aliasGroup_congr hbare]
      exact .give hx hvalue hd hbank htakes

/-- A visit reaches the state behind its expression. -/
theorem reached_visit (hs : s₀.program.bare = p.bare) (hi : p.order = done ++ id :: rest)
    (h : Reached p s₀ u done none s) (ht : visit id s = .ok () t) :
    Reached p s₀ u (done ++ [id]) none t := by
  have hbare := h.bare hs
  have hsilent : s.program.IsSilent id ↔ p.IsSilent id := by
    rw [IsSilent, role_congr hbare, IsSilent]
  have hlength : (s.program.expr id).outputs.length = (p.expr id).outputs.length := by
    rw [← Expr.length_bare_outputs, ← bare_expr, hbare, bare_expr, Expr.length_bare_outputs]
  rcases visit_cases ht with ⟨hsil, rfl⟩ | ⟨hsil, hrun⟩
  · exact .silent h hi (hsilent.mp hsil)
  · rw [exec_congr hbare, hlength] at hrun
    exact .leave (reached_outputs hs (Nat.le_refl _)
      (.enter h hi (fun hp => hsil (hsilent.mpr hp))) hrun)

/-- The whole computation assigns the boundary pointers of a numbered program and visits it. -/
theorem reached_computeRanges (hs : s.program = p) (ht : computeRanges s = .ok () t) :
    p.Enumerated ∧ ∃ u, assignGlobals s = .ok () u ∧ Reached p s u p.order none t := by
  obtain ⟨_, hq, ht⟩ := ask_bind_eq_ok.mp ht
  have he : p.Enumerated := hs ▸ checkEnumerated_eq_ok.mp hq
  rw [get_bind] at ht
  have hbare : s.program.bare = p.bare := by rw [hs]
  rw [hs] at ht
  cases horder : p.order with
  | nil =>
    rw [horder] at ht
    obtain ⟨_, rfl⟩ := pure_eq_ok.mp ht
    refine ⟨he, s, ?_, .start⟩
    -- An empty program has no boundary.
    rw [assignGlobals, get_bind, hs, parameters, results, ofRole, ofRole, horder]
    rfl
  | cons first rest =>
    rw [horder] at ht
    obtain ⟨_, u, hu, ht⟩ := bind_eq_ok.mp ht
    refine ⟨he, u, hu, ?_⟩
    refine forM_induction (P := fun done x => Reached p s u done none x)
      (reached_assignGlobals hbare hu) ?_ ht
    intro done id behind x y hi hx hy
    exact reached_visit hbare (horder.trans hi) hx hy

end RangeStep

namespace RangeState

variable {current : Option (ExprId × Nat)}

/-- The values that are looked at before the next output of an expression. -/
theorem passed_succ (h : Passed done (some (id, k + 1)) v) : v = ⟨id, k⟩ ∨ Passed done (some (id, k)) v := by
  obtain ⟨producer, output⟩ := v
  rcases h with h | ⟨j, hj, hlt⟩
  · exact .inr (.inl h)
  · cases hj
    rcases Nat.lt_succ_iff_lt_or_eq.mp hlt with hlt | rfl
    · exact .inr (.inr ⟨k, rfl, hlt⟩)
    · exact .inl rfl

/-- A value that was looked at stays so when the next output is. -/
theorem passed_mono (h : Passed done (some (id, k)) v) : Passed done (some (id, k + 1)) v := by
  refine h.imp_right ?_
  rintro ⟨j, hj, hlt⟩
  cases hj
  exact ⟨k + 1, rfl, Nat.lt_succ_of_lt hlt⟩

/-- An output without a register is the first of its group that is looked at. -/
theorem Visited.first (he : p.Enumerated) (hinv : s.Inv p) (hv : s.Visited p done current)
    (hi : p.order = done ++ id :: rest) (hd : (s.program.abstractReg ⟨id, k⟩).isDefined = false)
    (hm : m ∈ p.aliasGroup ⟨id, k⟩) (hmo : p.Owns m) (hns : ¬ p.IsSilent m.producer) :
    (p.expr id).exec ≤ (p.expr m.producer).exec := by
  refine Int.not_lt.mp fun hlt => ?_
  have hmd := hv m hmo (.inl (he.mem_of_lt hi hmo.1 hlt)) hns
  have hid : id ∈ p.order := by simp [hi]
  rw [hinv.uniform _ m hm hid hmo.1, hd] at hmd
  cases hmd

/-- What holds in every state of the computation. -/
theorem Reached.inv (hl : p.Linked) (hg : p.Grouped) (he : p.Enumerated) (hs : s₀.Inv p)
    (h : Reached p s₀ u done current s) : s.Inv p ∧ s.Visited p done current := by
  induction h with
  | start => exact ⟨hs, fun v _ hp => by simp [Passed] at hp⟩
  | pointer _ hvalues _ _ ih =>
    refine ⟨RangeStep.inv_handOut hl hg ih.1 (.pointer hvalues), fun v _ hp => ?_⟩
    simp [Passed] at hp
  | silent _ _ hsilent ih =>
    refine ⟨RangeStep.inv_congr ih.1 rfl rfl rfl, fun v hv hp hns => ih.2 v hv ?_ hns⟩
    rcases hp with hp | ⟨_, hc, _⟩
    · rcases List.mem_append.mp hp with hp | hp
      · exact .inl hp
      · rw [List.mem_singleton.mp hp] at hns
        exact absurd hsilent hns
    · cases hc
  | enter _ _ _ ih =>
    refine ⟨RangeStep.inv_congr ih.1 rfl rfl rfl, fun v hv hp hns => ih.2 v hv ?_ hns⟩
    refine hp.imp_right ?_
    rintro ⟨k, hk, hlt⟩
    cases hk
    exact absurd hlt (Nat.not_lt_zero _)
  | keep _ _ hd ih =>
    refine ⟨ih.1, fun v hv hp hns => ?_⟩
    rcases passed_succ hp with rfl | hp
    · exact hd
    · exact ih.2 v hv hp hns
  | @give done id k _ s hreached hvalue hd hbank _ ih =>
    obtain ⟨_, rest, horder⟩ := hreached.current
    have hid : id ∈ p.order := by simp [horder]
    have hfirst := fun m hm hmo hns =>
      ih.2.first he ih.1 horder hd (m := m) hm hmo hns
    refine ⟨RangeStep.inv_handOut hl hg ih.1 (.group ⟨hid, hvalue⟩ hfirst), fun v hv hp hns => ?_⟩
    refine RangeStep.isDefined_handOut hbank ?_
    rcases passed_succ hp with rfl | hp
    · exact .inl ⟨(hg _ hvalue).1, (hasValue_congr ih.1.bare _).mpr hvalue⟩
    · exact .inr (ih.2 v hv hp hns)
  | @leave done id _ s hreached ih =>
    refine ⟨ih.1, fun v hv hp hns => ih.2 v hv ?_ hns⟩
    rcases hp with hp | ⟨_, hc, _⟩
    · rcases List.mem_append.mp hp with hp | hp
      · exact .inl hp
      · obtain ⟨producer, output⟩ := v
        obtain rfl := List.mem_singleton.mp hp
        exact .inr ⟨_, rfl, hv.2⟩
    · cases hc

end RangeState

/-- A successful computation of live ranges assigns the boundary pointers and visits the program. -/
theorem Workspace.reached_of_computeRanges (h : computeRanges w₀ = .ok () w) :
    w₀.program.Enumerated ∧ ∃ s u : RangeState, s.toWorkspace = w ∧
      RangeStep.assignGlobals { toWorkspace := w₀ } = .ok () u ∧
      RangeState.Reached w₀.program { toWorkspace := w₀ } u w₀.program.order none s := by
  unfold computeRanges at h
  cases hs : RangeStep.computeRanges { toWorkspace := w₀ } with
  | error fault s =>
    rw [hs] at h
    cases h
  | ok _ s =>
    rw [hs] at h
    cases h
    obtain ⟨he, u, hu, hreached⟩ := RangeStep.reached_computeRanges rfl hs
    exact ⟨he, s, u, rfl, hu, hreached⟩

/-- What a successful computation of live ranges leaves behind. -/
theorem Workspace.ranged_of_computeRanges (hf : w₀.program.Fresh) (hl : w₀.program.Linked)
    (hg : w₀.program.Grouped) (h : computeRanges w₀ = .ok () w) :
    w₀.program.Enumerated ∧ w.Ranged w₀.program ∧
      ∀ v, w₀.program.Owns v → ¬ w₀.program.IsSilent v.producer →
        (w.program.abstractReg v).isDefined = true := by
  obtain ⟨he, s, u, rfl, _, hreached⟩ := reached_of_computeRanges h
  obtain ⟨hinv, hv⟩ := hreached.inv hl hg he (RangeStep.inv_start hf rfl)
  exact ⟨he, hinv.toRanged, fun v ho => hv v ho (.inl ho.1)⟩

/-- The workspace after live ranges were computed. -/
def Workspace.ranged? (w₀ : Workspace) : Option Workspace :=
  match computeRanges w₀ with
  | .ok _ w => some w
  | .error _ _ => none

theorem Workspace.ranged?_eq_some (h : w₀.ranged? = some w) : computeRanges w₀ = .ok () w := by
  unfold ranged? at h
  cases hrun : computeRanges w₀ with
  | ok _ x =>
    rw [hrun] at h
    cases h
    rfl
  | error fault x =>
    rw [hrun] at h
    cases h

end TensorKernel
