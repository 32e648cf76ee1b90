import TensorKernel.Allocation.Pins
import TensorKernel.Proofs.Liveness.Ranges

/-!
# What conventions fix

Conventions fix a list of values, each to its register, and pinning them pins this list. So a register is
pinned exactly if a convention demands it: the convention speaks of a port, and the value at the port has the
register. Parameters and results are pinned in their order, and buffers behind them by their groups.
-/

namespace TensorKernel

open Outcome

namespace Program

/-- The registers that conventions fix values to. -/
inductive IsTarget (p : Program) : Reg → Prop
  /-- A data pointer. -/
  | pointer (n : Nat) : IsTarget p (.gpr n)
  /-- The pointer of a buffer group. -/
  | buffer {id : ExprId} : id ∈ p.buffers →
    IsTarget p (Pins.groupReg (p.parameters.length + p.results.length) (p.expr id).group)
  /-- The accumulator of a reduction. -/
  | accumulator (n : Nat) : IsTarget p (.vec n)

/-- The horizontal reductions in program order. -/
def reductions (p : Program) : List ExprId :=
  p.order.filter fun id => (p.expr id).role.isHorizontal

/-- A reduction reads what is computed from `filled`, which a fill makes from the `seed` in a vector
buffer. -/
structure SeededBy (p : Program) (reduction : ExprId) (filled seed : ValueRef) : Prop where
  operand : ∃ v, p.input reduction 0 = .ok v ∧ filled ∈ (p.expr v.producer).inputs.map (·.source)
  fill : (p.expr filled.producer).role = .fill
  read : p.input filled.producer 0 = .ok seed
  vectorBuffer : (p.expr seed.producer).role = .vectorBuffer

/-- The register of a buffer. -/
def bufferReg (p : Program) (id : ExprId) : Reg :=
  Pins.groupReg (p.parameters.length + p.results.length) (p.expr id).group

/-- The ports that conventions speak of, with their registers. -/
inductive Fixes (p : Program) : Side → ExprId → Nat → Reg → Prop
  /-- Parameters are numbered. The views behind a parameter show the same pointer. -/
  | parameter {n : Nat} {id x : ExprId} : p.parameters[n]? = some id → x ∈ id :: p.viewsAfter id →
    Fixes p .output x 0 (.gpr n)
  /-- Results are numbered behind the parameters. The views before a result read the same pointer. -/
  | result {n : Nat} {id x : ExprId} : p.results[n]? = some id → x ∈ id :: p.viewsBefore id →
    Fixes p .input x 0 (.gpr (p.parameters.length + n : Nat))
  /-- A buffer reads the pointer of its group at all inputs. -/
  | buffer {id : ExprId} {k : Nat} : id ∈ p.buffers → k < (p.expr id).inputs.length →
    Fixes p .input id k (p.bufferReg id)
  /-- The views behind a buffer read the pointer of its group. -/
  | view {id x : ExprId} : id ∈ p.buffers → x ∈ p.viewsAfter id → Fixes p .input x 0 (p.bufferReg id)
  /-- A buffer and the views behind it show the pointer of its group. -/
  | memory {id x : ExprId} : id ∈ p.buffers → x ∈ id :: p.viewsAfter id →
    Fixes p .output x 0 (p.bufferReg id)
  /-- Reductions are numbered. -/
  | reduction {n : Nat} {id : ExprId} : p.reductions[n]? = some id → Fixes p .input id 0 (.vec n)
  /-- A fill that seeds a reduction makes its accumulator. -/
  | filled {n : Nat} {id : ExprId} {filled seed : ValueRef} : p.reductions[n]? = some id →
    p.SeededBy id filled seed → Fixes p .output filled.producer filled.output (.vec n)
  /-- The fill reads it from the same register. -/
  | seed {n : Nat} {id : ExprId} {filled seed : ValueRef} : p.reductions[n]? = some id →
    p.SeededBy id filled seed → Fixes p .input filled.producer 0 (.vec n)

/-- The value at a port. -/
def valueAt? (p : Program) (side : Side) (id : ExprId) (k : Nat) : Option ValueRef :=
  match side with
  | .input => (p.expr id).inputs[k]?.map (·.source)
  | .output => some ⟨id, k⟩

/-- What the first input of an expression reads, if it has one. -/
def firstSources (p : Program) (x : ExprId) : List ValueRef := ((p.expr x).inputs.take 1).map (·.source)

/-- What a parameter fixes: its data pointer and the views of it. -/
def fixedByParameter (p : Program) (entry : ExprId × Nat) : List (ValueRef × Reg) :=
  (entry.1 :: p.viewsAfter entry.1).flatMap fun x => [(⟨x, 0⟩, .gpr entry.2)]

/-- What a result fixes: its data pointer and what the views before it read. -/
def fixedByResult (p : Program) (entry : ExprId × Nat) : List (ValueRef × Reg) :=
  (entry.1 :: p.viewsBefore entry.1).flatMap fun x => (p.firstSources x).map (·, .gpr entry.2)

/-- What a buffer fixes: its inputs, its views and its output. -/
def fixedByBuffer (p : Program) (boundary : Nat) (id : ExprId) : List (ValueRef × Reg) :=
  let phys := Pins.groupReg boundary (p.expr id).group
  ((p.expr id).inputs.map (·.source)).map (·, phys) ++
    (p.viewsAfter id).flatMap (fun x => (p.firstSources x).map (·, phys) ++ [(⟨x, 0⟩, phys)]) ++
      [(⟨id, 0⟩, phys)]

/-- What a reduction fixes: its input and what seeds its accumulator. -/
def fixedByReduction (p : Program) (accumulator : Nat) (id : ExprId) : List (ValueRef × Reg) :=
  ((p.firstSources id).flatMap fun v => Pins.seeds p v ++ [v]).map (·, .vec accumulator)

/-- What the buffers and reductions of a list fix, from a number of reductions on. -/
def fixedFrom (p : Program) (boundary : Nat) : Nat → List ExprId → List (ValueRef × Reg)
  | _, [] => []
  | n, id :: rest =>
    if (p.expr id).role = .buffer then p.fixedByBuffer boundary id ++ p.fixedFrom boundary n rest
    else if (p.expr id).role.isHorizontal then
      p.fixedByReduction n id ++ p.fixedFrom boundary (n + 1) rest
    else p.fixedFrom boundary n rest

/-- The values that conventions fix, with their registers. -/
def fixed (p : Program) : List (ValueRef × Reg) :=
  p.parameters.zipIdx.flatMap p.fixedByParameter ++
    (p.results.zipIdx p.parameters.length).flatMap p.fixedByResult ++
      p.fixedFrom (p.parameters.length + p.results.length) 0 p.order

/-- A buffer has an output, the views behind it have ports, and a reduction reads something. -/
def Asks (p : Program) (id : ExprId) : Prop :=
  ((p.expr id).role = .buffer →
    (∀ x ∈ p.viewsAfter id, (p.expr x).inputs ≠ [] ∧ p.HasValue ⟨x, 0⟩) ∧ p.HasValue ⟨id, 0⟩) ∧
  ((p.expr id).role.isHorizontal = true → (p.expr id).inputs ≠ [])

/-- The ports that conventions ask for are there. -/
structure Asked (p : Program) : Prop where
  parameters : ∀ id ∈ p.parameters, ∀ x ∈ id :: p.viewsAfter id, p.HasValue ⟨x, 0⟩
  results : ∀ id ∈ p.results, ∀ x ∈ id :: p.viewsBefore id, (p.expr x).inputs ≠ []
  exprs : ∀ id ∈ p.order, p.Asks id

variable {p : Program} {x : ExprId} {v : ValueRef}

/-- An expression with inputs reads something through the first one. -/
theorem exists_input_zero (h : (p.expr x).inputs ≠ []) :
    ∃ i ∈ (p.expr x).inputs, p.input x 0 = .ok i.source := by
  obtain ⟨i, rest, hi⟩ := List.exists_cons_of_ne_nil h
  exact ⟨i, by simp [hi], input_zero_eq_ok.mpr (by rw [hi]; rfl)⟩

theorem inputs_ne_nil_of_input (h : p.input x 0 = .ok v) : (p.expr x).inputs ≠ [] := by
  intro hnil
  rw [input_zero_eq_ok, hnil] at h
  cases h

theorem mem_firstSources : v ∈ p.firstSources x ↔ (p.expr x).inputs[0]?.map (·.source) = some v := by
  unfold firstSources
  cases (p.expr x).inputs with
  | nil => simp
  | cons i rest => simp [eq_comm]

theorem firstSources_eq (h : p.input x 0 = .ok v) : p.firstSources x = [v] := by
  rw [input_zero_eq_ok] at h
  unfold firstSources
  cases hinputs : (p.expr x).inputs with
  | nil => simp [hinputs] at h
  | cons i rest => simpa [hinputs] using h

/-- What seeds an accumulator, by what is read. -/
theorem seeds_eq (v : ValueRef) :
    Pins.seeds p v = ((p.expr v.producer).inputs.map (·.source)).flatMap fun filled =>
      (p.firstSources filled.producer).flatMap fun seed =>
        if (p.expr filled.producer).role = .fill ∧ (p.expr seed.producer).role = .vectorBuffer then
          [filled, seed]
        else [] := by
  rw [Pins.seeds, List.flatMap_map]
  refine congrArg (List.flatMap · _) (funext fun i => ?_)
  unfold firstSources
  dsimp only
  cases (p.expr i.source.producer).inputs with
  | nil => rfl
  | cons seed rest => exact (List.append_nil _).symm

/-- The seeds of what a reduction reads are filled and read by fills. -/
theorem mem_seeds_iff {id : ExprId} (hv : p.input id 0 = .ok v) {y : ValueRef} :
    y ∈ Pins.seeds p v ↔ ∃ filled seed, p.SeededBy id filled seed ∧ (y = filled ∨ y = seed) := by
  simp only [seeds_eq, List.mem_flatMap, mem_firstSources, ← input_zero_eq_ok]
  constructor
  · rintro ⟨filled, hfilled, seed, hseed, hy⟩
    split at hy
    · rename_i hroles
      exact ⟨filled, seed, ⟨⟨v, hv, hfilled⟩, hroles.1, hseed, hroles.2⟩, by simpa using hy⟩
    · cases hy
  · rintro ⟨filled, seed, ⟨⟨v', hv', hfilled⟩, hfill, hread, hbuffer⟩, hy⟩
    cases hv.symm.trans hv'
    refine ⟨filled, hfilled, seed, hread, ?_⟩
    rw [if_pos ⟨hfill, hbuffer⟩]
    simpa using hy

end Program

/-! ### Lists of pins -/

namespace Pins

open Program

variable {p : Program} {pins pins' : RegMap} {phys : Reg} {l l' : List (ValueRef × Reg)}

/-- Pin values, each to its register, in order. -/
def pinEach (p : Program) (pins : RegMap) (l : List (ValueRef × Reg)) : Except Fault RegMap :=
  l.foldlM (fun pins entry => pin p pins entry.1 entry.2) pins

/-- Pinning a value adds at most the pin of its register. -/
theorem pin_eq_ok {v : ValueRef} (h : pin p pins v phys = .ok pins') :
    ((p.abstractReg v).bank = phys.bank ∧ (p.abstractReg v).isDefined = true) ∧
      ∀ r other, pins'.get? r = some other ↔
        pins.get? r = some other ∨ p.abstractReg v = r ∧ phys = other := by
  simp only [pin] at h
  split at h
  · cases h
  · rename_i hd
    split at h
    · cases h
    · rename_i hb
      refine ⟨⟨Decidable.not_not.mp hb, by simpa using hd⟩, fun r other => ?_⟩
      split at h
      · rename_i earlier hget
        split at h
        · cases h
          rename_i he
          refine ⟨.inl, ?_⟩
          rintro (hr | ⟨rfl, rfl⟩)
          · exact hr
          · rw [hget, he]
        · cases h
      · rename_i hnone
        cases h
        rw [RegTable.get?_insert]
        split
        · rename_i he
          rw [← he, hnone]
          simp
        · rename_i hne
          simp [hne]

/-- A list that was pinned is pinned, and nothing else is. -/
theorem pinEach_eq_ok (h : pinEach p pins l = .ok pins') :
    (∀ entry ∈ l, (p.abstractReg entry.1).bank = entry.2.bank ∧ (p.abstractReg entry.1).isDefined = true) ∧
      ∀ r phys, pins'.get? r = some phys ↔
        pins.get? r = some phys ∨ ∃ entry ∈ l, p.abstractReg entry.1 = r ∧ entry.2 = phys := by
  induction l generalizing pins with
  | nil =>
    cases h
    simp
  | cons entry l ih =>
    rw [pinEach, List.foldlM_cons] at h
    obtain ⟨next, hpin, hrest⟩ := except_bind_eq_ok.mp h
    obtain ⟨hentry, hstep⟩ := pin_eq_ok hpin
    obtain ⟨hall, hget⟩ := ih hrest
    refine ⟨List.forall_mem_cons.mpr ⟨hentry, hall⟩, fun r phys => ?_⟩
    rw [hget, hstep]
    simp [or_assoc]

theorem pinEach_append (l l' : List (ValueRef × Reg)) :
    pinEach p pins (l ++ l') = pinEach p pins l >>= fun pins => pinEach p pins l' :=
  List.foldlM_append ..

theorem pinEach_singleton (v : ValueRef) (phys : Reg) :
    pinEach p pins [(v, phys)] = pin p pins v phys := by
  rw [pinEach, List.foldlM_cons]
  exact bind_pure _

/-- A step pins a list if what it asks for is there. -/
structure Lists (p : Program) (asked : Prop) (f : RegMap → Except Fault RegMap)
    (l : List (ValueRef × Reg)) : Prop where
  /-- A step that succeeds was answered. -/
  answered : ∀ {pins pins'}, f pins = .ok pins' → asked
  /-- A step that is answered pins the list. -/
  eq : asked → ∀ pins, f pins = pinEach p pins l

namespace Lists

variable {a b : Prop} {f g : RegMap → Except Fault RegMap}

theorem of_iff (h : Lists p a f l) (hab : a ↔ b) : Lists p b f l :=
  ⟨fun hf => hab.mp (h.answered hf), fun hb => h.eq (hab.mpr hb)⟩

theorem bind (hf : Lists p a f l) (hg : Lists p b g l') :
    Lists p (a ∧ b) (fun pins => f pins >>= g) (l ++ l') where
  answered h := by
    obtain ⟨_, hfirst, hrest⟩ := except_bind_eq_ok.mp h
    exact ⟨hf.answered hfirst, hg.answered hrest⟩
  eq h pins := by
    rw [pinEach_append, hf.eq h.1]
    exact bind_congr fun pins => hg.eq h.2 pins

/-- Steps that pin lists pin one list. -/
theorem foldlM {α : Type} {f : RegMap → α → Except Fault RegMap} {asked : α → Prop}
    {g : α → List (ValueRef × Reg)} {items : List α}
    (h : ∀ item ∈ items, Lists p (asked item) (f · item) (g item)) :
    Lists p (∀ item ∈ items, asked item) (items.foldlM f) (items.flatMap g) := by
  induction items with
  | nil => exact ⟨by simp, fun _ _ => rfl⟩
  | cons item items ih =>
    obtain ⟨hitem, hrest⟩ := List.forall_mem_cons.mp h
    exact (hitem.bind (ih hrest)).of_iff List.forall_mem_cons.symm

end Lists

theorem lists_pinOutput (p : Program) (phys : Reg) (x : ExprId) :
    Lists p (p.HasValue ⟨x, 0⟩) (pinOutput p phys · x) [(⟨x, 0⟩, phys)] where
  answered h := by
    obtain ⟨_, hv, _⟩ := except_bind_eq_ok.mp h
    exact (output_zero_eq_ok.mp hv).1
  eq h pins := by
    rw [pinOutput, output_zero_eq_ok.mpr ⟨h, rfl⟩, pinEach_singleton]
    rfl

theorem lists_pinInput (p : Program) (phys : Reg) (x : ExprId) :
    Lists p ((p.expr x).inputs ≠ []) (pinInput p phys · x) ((p.firstSources x).map (·, phys)) where
  answered h := by
    obtain ⟨_, hv, _⟩ := except_bind_eq_ok.mp h
    exact inputs_ne_nil_of_input hv
  eq h pins := by
    obtain ⟨i, _, hinput⟩ := exists_input_zero h
    rw [pinInput, hinput, firstSources_eq hinput, List.map_singleton, pinEach_singleton]
    rfl

theorem lists_pinAll (p : Program) (phys : Reg) (values : List ValueRef) :
    Lists p True (pinAll p phys · values) (values.map (·, phys)) := by
  refine ⟨fun _ => trivial, fun _ pins => ?_⟩
  rw [pinEach, List.foldlM_map]
  rfl

theorem lists_pinBuffer (boundary : Nat) (id : ExprId) :
    Lists p ((∀ x ∈ p.viewsAfter id, (p.expr x).inputs ≠ [] ∧ p.HasValue ⟨x, 0⟩) ∧ p.HasValue ⟨id, 0⟩)
      (pinBuffer p boundary · id) (p.fixedByBuffer boundary id) := by
  let phys := groupReg boundary (p.expr id).group
  have hviews : Lists p _ ((p.viewsAfter id).foldlM _) _ :=
    .foldlM fun x _ => (lists_pinInput p phys x).bind (lists_pinOutput p phys x)
  have h := (lists_pinAll p phys ((p.expr id).inputs.map (·.source))).bind
    (hviews.bind (lists_pinOutput p phys id))
  rw [← List.append_assoc] at h
  exact h.of_iff (iff_of_eq (true_and _))

theorem lists_pinReduction (n : Nat) (id : ExprId) :
    Lists p ((p.expr id).inputs ≠ []) (pinReduction p n · id) (p.fixedByReduction n id) where
  answered h := by
    obtain ⟨_, hv, _⟩ := except_bind_eq_ok.mp h
    exact inputs_ne_nil_of_input hv
  eq h pins := by
    obtain ⟨i, _, hinput⟩ := exists_input_zero h
    rw [pinReduction, hinput, fixedByReduction, firstSources_eq hinput, List.flatMap_singleton,
      ← (lists_pinAll p _ _).eq trivial]
    rfl

/-- Buffers and reductions, from a number of reductions on. -/
theorem lists_pinExprs (boundary n : Nat) (ids : List ExprId) :
    Lists p (∀ id ∈ ids, p.Asks id) (fun pins => Prod.snd <$> ids.foldlM (pinExpr p boundary) (n, pins))
      (p.fixedFrom boundary n ids) := by
  induction ids generalizing n with
  | nil => exact ⟨by simp, fun _ _ => rfl⟩
  | cons id ids ih =>
    simp only [List.foldlM_cons, map_bind, fixedFrom, pinExpr, List.forall_mem_cons]
    split
    · rename_i hrole
      refine Lists.of_iff
        (by simpa only [bind_assoc, pure_bind] using (lists_pinBuffer boundary id).bind (ih n))
        (and_congr_left' ⟨fun h => ⟨fun _ => h, fun he => ?_⟩, fun h => h.1 hrole⟩)
      rw [hrole] at he
      cases he
    · rename_i hbuffer
      split
      · rename_i hrole
        have hasks : p.Asks id ↔ (p.expr id).inputs ≠ [] :=
          ⟨fun h => h.2 hrole, fun h => ⟨fun he => absurd he hbuffer, fun _ => h⟩⟩
        simpa only [bind_assoc, pure_bind, hasks] using (lists_pinReduction n id).bind (ih (n + 1))
      · rename_i hrole
        have hasks : p.Asks id := ⟨fun he => absurd he hbuffer, fun he => absurd he hrole⟩
        simpa only [pure_bind, hasks, true_and] using ih n

end Pins

namespace Program

open Pins

variable {p q : Program} {pins : RegMap} {id x : ExprId} {v : ValueRef} {r phys : Reg} {n k : Nat}
  {side : Side} {values : List ValueRef}

/-- Conventions pin the list of what they fix, if what they ask for is there. -/
theorem lists_pins (p : Program) :
    (∀ pins, p.pins = .ok pins → p.Asked) ∧ (p.Asked → p.pins = pinEach p ∅ p.fixed) := by
  have hparameters : Lists p _ (p.parameters.zipIdx.foldlM (pinParameter p)) _ :=
    .foldlM fun entry _ => .foldlM fun x _ => lists_pinOutput p (.gpr entry.2) x
  have hresults : Lists p _ ((p.results.zipIdx p.parameters.length).foldlM (pinResult p)) _ :=
    .foldlM fun entry _ => .foldlM fun x _ => lists_pinInput p (.gpr entry.2) x
  have h := (hparameters.bind hresults).bind
    (lists_pinExprs (p.parameters.length + p.results.length) 0 p.order)
  have hrun : p.pins = (p.parameters.zipIdx.foldlM (pinParameter p) ∅ >>=
      (p.results.zipIdx p.parameters.length).foldlM (pinResult p)) >>= fun pins =>
        Prod.snd <$> p.order.foldlM (pinExpr p (p.parameters.length + p.results.length)) (0, pins) := by
    simp only [bind_assoc, map_eq_pure_bind]
    rfl
  have hall : ∀ {P : ExprId → Prop} (l : List ExprId) (n : Nat),
      (∀ entry ∈ l.zipIdx n, P entry.1) ↔ ∀ id ∈ l, P id := fun l n => by
    rw [← List.forall_mem_map, List.zipIdx_map_fst]
  constructor
  · intro pins hpins
    obtain ⟨⟨ha, hb⟩, hc⟩ := h.answered (hrun ▸ hpins)
    exact ⟨(hall _ _).mp ha, (hall _ _).mp hb, hc⟩
  · intro hp
    rw [hrun]
    exact h.eq ⟨⟨(hall _ _).mpr hp.parameters, (hall _ _).mpr hp.results⟩, hp.exprs⟩ ∅

theorem asked_of_pins (h : p.pins = .ok pins) : p.Asked := p.lists_pins.1 pins h

theorem pinEach_fixed (h : p.pins = .ok pins) : pinEach p ∅ p.fixed = .ok pins := by
  rw [← p.lists_pins.2 (asked_of_pins h), h]

theorem exists_getElem?_cons {α : Type} {a : α} {l : List α} {P : Nat → α → Prop} :
    (∃ k b, (a :: l)[k]? = some b ∧ P k b) ↔ P 0 a ∨ ∃ k b, l[k]? = some b ∧ P (k + 1) b := by
  rw [← Nat.or_exists_add_one]
  simp

/-- What the buffers of a list fix, and what its reductions fix with their numbers. -/
theorem mem_fixedFrom_iff {boundary : Nat} {ids : List ExprId} {entry : ValueRef × Reg} :
    entry ∈ p.fixedFrom boundary n ids ↔
      (∃ id ∈ ids, (p.expr id).role = .buffer ∧ entry ∈ p.fixedByBuffer boundary id) ∨
        ∃ k id, (ids.filter fun id => (p.expr id).role.isHorizontal)[k]? = some id ∧
          entry ∈ p.fixedByReduction (n + k) id := by
  induction ids generalizing n with
  | nil => simp [fixedFrom]
  | cons id ids ih =>
    rw [fixedFrom]
    by_cases hbuffer : (p.expr id).role = .buffer
    · have hrole : ¬ (p.expr id).role.isHorizontal = true := by
        rw [hbuffer]
        decide
      rw [if_pos hbuffer, List.mem_append, ih, List.filter_cons, if_neg hrole]
      simp [hbuffer, or_assoc]
    · rw [if_neg hbuffer]
      by_cases hrole : (p.expr id).role.isHorizontal = true
      · rw [if_pos hrole, List.mem_append, ih, List.filter_cons, if_pos hrole, exists_getElem?_cons]
        simp [hbuffer, or_left_comm, Nat.add_assoc, Nat.add_comm 1]
      · rw [if_neg hrole, ih, List.filter_cons, if_neg hrole]
        simp [hbuffer]

/-- A convention that speaks of a port fixes the value there. -/
theorem Fixes.mem_fixed (h : p.Fixes side x k phys) (asked : p.Asked) :
    ∃ v, p.valueAt? side x k = some v ∧ (v, phys) ∈ p.fixed := by
  have hbuffer : ∀ {id entry}, id ∈ p.buffers →
      entry ∈ p.fixedByBuffer (p.parameters.length + p.results.length) id → entry ∈ p.fixed := by
    intro id entry hid hentry
    obtain ⟨hmem, hrole⟩ := List.mem_filter.mp hid
    exact List.mem_append_right _ (mem_fixedFrom_iff.mpr (.inl ⟨id, hmem, of_decide_eq_true hrole, hentry⟩))
  have hreduction : ∀ {n : Nat} {id v}, p.reductions[n]? = some id →
      (∀ w, p.input id 0 = .ok w → v ∈ seeds p w ++ [w]) → (v, .vec n) ∈ p.fixed := by
    intro n id v hid hv
    obtain ⟨hmem, hrole⟩ := List.mem_filter.mp (List.mem_of_getElem? hid)
    obtain ⟨i, _, hinput⟩ := exists_input_zero ((asked.exprs id hmem).2 hrole)
    refine List.mem_append_right _ (mem_fixedFrom_iff.mpr (.inr ⟨n, id, hid, ?_⟩))
    rw [fixedByReduction, firstSources_eq hinput, List.flatMap_singleton, Nat.zero_add]
    exact List.mem_map_of_mem (hv _ hinput)
  have hinput : ∀ {x}, (p.expr x).inputs ≠ [] →
      ∃ v, p.valueAt? .input x 0 = some v ∧ v ∈ p.firstSources x := by
    intro x hx
    obtain ⟨i, _, hi⟩ := exists_input_zero hx
    exact ⟨_, input_zero_eq_ok.mp hi, mem_firstSources.mpr (input_zero_eq_ok.mp hi)⟩
  cases h with
  | @parameter n id _ hn hx =>
    refine ⟨_, rfl, List.mem_append_left _ (List.mem_append_left _ (List.mem_flatMap.mpr
      ⟨(id, n), List.mem_zipIdx_iff_getElem?.mpr hn, List.mem_flatMap.mpr ⟨_, hx, ?_⟩⟩))⟩
    exact List.mem_singleton_self _
  | result hn hx =>
    obtain ⟨v, hv, hmem⟩ := hinput (asked.results _ (List.mem_of_getElem? hn) _ hx)
    refine ⟨v, hv, List.mem_append_left _ (List.mem_append_right _ (List.mem_flatMap.mpr
      ⟨_, List.mk_add_mem_zipIdx_iff_getElem?.mpr hn, List.mem_flatMap.mpr ⟨_, hx, ?_⟩⟩))⟩
    exact List.mem_map_of_mem hmem
  | buffer hid hk =>
    have hi := List.getElem?_eq_getElem hk
    refine ⟨_, by rw [valueAt?, hi]; rfl, hbuffer hid (List.mem_append_left _ (List.mem_append_left _ ?_))⟩
    exact List.mem_map_of_mem (List.mem_map_of_mem (List.mem_of_getElem? hi))
  | @view id x hid hx =>
    obtain ⟨hmem, hrole⟩ := List.mem_filter.mp hid
    obtain ⟨v, hv, hfirst⟩ := hinput (((asked.exprs id hmem).1 (of_decide_eq_true hrole)).1 x hx).1
    refine ⟨v, hv, hbuffer hid (List.mem_append_left _ (List.mem_append_right _ ?_))⟩
    exact List.mem_flatMap.mpr ⟨x, hx, List.mem_append_left _ (List.mem_map_of_mem hfirst)⟩
  | memory hid hx =>
    refine ⟨_, rfl, hbuffer hid ?_⟩
    rcases List.mem_cons.mp hx with rfl | hx
    · exact List.mem_append_right _ (List.mem_singleton_self _)
    · exact List.mem_append_left _ (List.mem_append_right _
        (List.mem_flatMap.mpr ⟨_, hx, List.mem_append_right _ (List.mem_singleton_self _)⟩))
  | reduction hn =>
    obtain ⟨hmem, hrole⟩ := List.mem_filter.mp (List.mem_of_getElem? hn)
    obtain ⟨v, hv, _⟩ := hinput ((asked.exprs x hmem).2 hrole)
    refine ⟨v, hv, hreduction hn fun w hw => ?_⟩
    cases hv.symm.trans (input_zero_eq_ok.mp hw)
    exact List.mem_append_right _ (List.mem_singleton_self _)
  | filled hn hseeded =>
    exact ⟨_, rfl, hreduction hn fun w hw =>
      List.mem_append_left _ ((mem_seeds_iff hw).mpr ⟨_, _, hseeded, .inl rfl⟩)⟩
  | seed hn hseeded =>
    exact ⟨_, input_zero_eq_ok.mp hseeded.read, hreduction hn fun w hw =>
      List.mem_append_left _ ((mem_seeds_iff hw).mpr ⟨_, _, hseeded, .inr rfl⟩)⟩

/-- What is fixed is at a port that a convention speaks of. -/
theorem exists_fixes (h : (v, phys) ∈ p.fixed) :
    ∃ side x k, p.Fixes side x k phys ∧ p.valueAt? side x k = some v := by
  rcases List.mem_append.mp h with h | h
  · rcases List.mem_append.mp h with h | h
    · obtain ⟨⟨id, n⟩, hentry, h⟩ := List.mem_flatMap.mp h
      obtain ⟨x, hx, h⟩ := List.mem_flatMap.mp h
      cases List.mem_singleton.mp h
      exact ⟨_, _, _, .parameter (List.mem_zipIdx_iff_getElem?.mp hentry) hx, rfl⟩
    · obtain ⟨⟨id, n⟩, hentry, h⟩ := List.mem_flatMap.mp h
      obtain ⟨x, hx, h⟩ := List.mem_flatMap.mp h
      obtain ⟨w, hw, h⟩ := List.mem_map.mp h
      cases h
      obtain ⟨hle, hid⟩ := List.mem_zipIdx_iff_le_and_getElem?_sub.mp hentry
      have hfixes := Fixes.result hid hx
      rw [Nat.add_sub_cancel' hle] at hfixes
      exact ⟨_, _, _, hfixes, mem_firstSources.mp hw⟩
  · rcases mem_fixedFrom_iff.mp h with ⟨id, hid, hrole, h⟩ | ⟨n, id, hid, h⟩
    · have hbuffer : id ∈ p.buffers := List.mem_filter.mpr ⟨hid, decide_eq_true hrole⟩
      simp only [fixedByBuffer, List.mem_append, List.mem_map, List.mem_flatMap, List.mem_singleton] at h
      rcases h with (⟨_, ⟨i, hi, rfl⟩, h⟩ | ⟨x, hx, ⟨_, hv, h⟩ | h⟩) | h <;> cases h
      · obtain ⟨k, hk⟩ := List.mem_iff_getElem?.mp hi
        exact ⟨.input, id, k, .buffer hbuffer (List.getElem?_eq_some_iff.mp hk).1, by rw [valueAt?, hk]; rfl⟩
      · exact ⟨_, _, _, .view hbuffer hx, mem_firstSources.mp hv⟩
      · exact ⟨_, _, _, .memory hbuffer (List.mem_cons_of_mem _ hx), rfl⟩
      · exact ⟨_, _, _, .memory hbuffer List.mem_cons_self, rfl⟩
    · rw [Nat.zero_add] at h
      obtain ⟨y, hy, h⟩ := List.mem_map.mp h
      cases h
      obtain ⟨w, hw, hy⟩ := List.mem_flatMap.mp hy
      rcases List.mem_append.mp hy with hy | hy
      · have hinput := input_zero_eq_ok.mpr (mem_firstSources.mp hw)
        obtain ⟨filled, seed, hseeded, rfl | rfl⟩ := (mem_seeds_iff hinput).mp hy
        · exact ⟨_, _, _, .filled hid hseeded, rfl⟩
        · exact ⟨_, _, _, .seed hid hseeded, input_zero_eq_ok.mp hseeded.read⟩
      · cases List.mem_singleton.mp hy
        exact ⟨_, _, _, .reduction hid, mem_firstSources.mp hw⟩

theorem reductions_congr (h : p.bare = q.bare) : p.reductions = q.reductions := by
  rw [reductions, reductions, order_congr h]
  exact List.filter_congr fun id _ => by rw [role_congr h]

theorem SeededBy.congr (h : p.bare = q.bare) {filled seed : ValueRef} (hs : p.SeededBy id filled seed) :
    q.SeededBy id filled seed where
  operand := by
    obtain ⟨v, hv, hoperand⟩ := hs.operand
    exact ⟨v, by rw [← bare_input, ← h, bare_input, hv], sources_congr h v.producer ▸ hoperand⟩
  fill := role_congr h _ ▸ hs.fill
  read := by rw [← bare_input, ← h, bare_input, hs.read]
  vectorBuffer := role_congr h _ ▸ hs.vectorBuffer

/-- Registers do not matter for what conventions fix. -/
theorem Fixes.congr (h : p.bare = q.bare) (hf : p.Fixes side x k phys) : q.Fixes side x k phys := by
  have hafter : ∀ id, p.viewsAfter id = q.viewsAfter id := fun id => by
    rw [← bare_viewsAfter, h, bare_viewsAfter]
  have hbefore : ∀ id, p.viewsBefore id = q.viewsBefore id := fun id => by
    rw [← bare_viewsBefore, h, bare_viewsBefore]
  have hreg : ∀ id, p.bufferReg id = q.bufferReg id := fun id => by
    rw [bufferReg, parameters_congr h, results_congr h, group_congr h, bufferReg]
  cases hf with
  | parameter hn hx => exact .parameter (parameters_congr h ▸ hn) (hafter _ ▸ hx)
  | result hn hx =>
    rw [parameters_congr h]
    exact .result (results_congr h ▸ hn) (hbefore _ ▸ hx)
  | buffer hid hk =>
    rw [hreg]
    refine .buffer (buffers_congr h ▸ hid) ?_
    have hlength := congrArg List.length (sources_congr h x)
    rw [List.length_map, List.length_map] at hlength
    exact hlength ▸ hk
  | view hid hx =>
    rw [hreg]
    exact .view (buffers_congr h ▸ hid) (hafter _ ▸ hx)
  | memory hid hx =>
    rw [hreg]
    exact .memory (buffers_congr h ▸ hid) (hafter _ ▸ hx)
  | reduction hn => exact .reduction (reductions_congr h ▸ hn)
  | filled hn hseeded => exact .filled (reductions_congr h ▸ hn) (hseeded.congr h)
  | seed hn hseeded => exact .seed (reductions_congr h ▸ hn) (hseeded.congr h)

theorem valueAt?_congr (h : p.bare = q.bare) : p.valueAt? side x k = q.valueAt? side x k := by
  cases side with
  | input => exact source_congr h x k
  | output => rfl

/-- **A register is pinned exactly if a convention demands it.** The convention fixes a port, and the value
there has the register. -/
theorem get?_pins_iff (h : p.pins = .ok pins) : pins.get? r = some phys ↔
    ∃ side x k v, p.Fixes side x k phys ∧ p.valueAt? side x k = some v ∧ p.abstractReg v = r := by
  rw [(pinEach_eq_ok (pinEach_fixed h)).2]
  constructor
  · rintro (hempty | ⟨⟨v, _⟩, hmem, rfl, rfl⟩)
    · cases hempty
    · obtain ⟨side, x, k, hfixes, hv⟩ := exists_fixes hmem
      exact ⟨side, x, k, v, hfixes, hv, rfl⟩
  · rintro ⟨side, x, k, v, hfixes, hv, rfl⟩
    obtain ⟨w, hw, hmem⟩ := hfixes.mem_fixed (asked_of_pins h)
    cases hv.symm.trans hw
    exact .inr ⟨_, hmem, rfl, rfl⟩

/-- The value at a port that conventions speak of is pinned to the register of the convention. -/
theorem Fixes.get?_pins (hf : p.Fixes side x k phys) (h : p.pins = .ok pins) :
    ∃ v, p.valueAt? side x k = some v ∧ pins.get? (p.abstractReg v) = some phys := by
  obtain ⟨v, hv, _⟩ := hf.mem_fixed (asked_of_pins h)
  exact ⟨v, hv, (get?_pins_iff h).mpr ⟨_, _, _, v, hf, hv, rfl⟩⟩

/-- Only registers of values are pinned. -/
theorem exists_of_contains_pins (h : p.pins = .ok pins) (hr : pins.contains r = true) :
    r.isDefined = true ∧ ∃ v, p.abstractReg v = r := by
  obtain ⟨phys, hr⟩ := Option.isSome_iff_exists.mp hr
  obtain ⟨hfixed, hget⟩ := pinEach_eq_ok (pinEach_fixed h)
  rcases (hget r phys).mp hr with hempty | ⟨entry, hmem, rfl, _⟩
  · cases hempty
  · exact ⟨(hfixed entry hmem).2, entry.1, rfl⟩

/-- Every pin keeps the bank and goes to the register of a convention. -/
theorem regular_pins (h : p.pins = .ok pins) (hr : pins.get? r = some phys) :
    r.bank = phys.bank ∧ p.IsTarget phys := by
  obtain ⟨hfixed, hget⟩ := pinEach_eq_ok (pinEach_fixed h)
  rcases (hget r phys).mp hr with hempty | ⟨entry, hmem, rfl, rfl⟩
  · cases hempty
  · refine ⟨(hfixed entry hmem).1, ?_⟩
    obtain ⟨_, _, _, hfixes, _⟩ := exists_fixes hmem
    generalize entry.2 = phys at hfixes
    cases hfixes with
    | parameter _ _ | result _ _ => exact .pointer _
    | buffer hid _ | view hid _ | memory hid _ => exact .buffer hid
    | reduction _ | filled _ _ | seed _ _ => exact .accumulator _

theorem Fixes.output_pinned (hf : p.Fixes .output x 0 phys) (h : p.pins = .ok pins) :
    ∃ v, p.output x 0 = .ok v ∧ pins.get? (p.abstractReg v) = some phys := by
  obtain ⟨v, hv, hpin⟩ := hf.get?_pins h
  cases hv
  have hdefined := (exists_of_contains_pins h (Option.isSome_of_eq_some hpin)).1
  exact ⟨_, output_zero_eq_ok.mpr ⟨.of_isDefined hdefined, rfl⟩, hpin⟩

theorem Fixes.input_pinned (hf : p.Fixes .input x 0 phys) (h : p.pins = .ok pins) :
    ∃ v, p.input x 0 = .ok v ∧ pins.get? (p.abstractReg v) = some phys := by
  obtain ⟨v, hv, hpin⟩ := hf.get?_pins h
  exact ⟨v, input_zero_eq_ok.mpr hv, hpin⟩

/-- The values of a pointer are found at an expression and its views. -/
theorem exists_of_mem_pointer {f : ExprId → Except Fault ValueRef} {views : List ExprId}
    (h : (do let first ← f id; return first :: (← views.mapM f)) = .ok values) (hv : v ∈ values) :
    ∃ x ∈ id :: views, f x = .ok v := by
  simp only [except_bind_eq_ok, except_pure_eq_ok] at h
  obtain ⟨first, hfirst, rest, hrest, rfl⟩ := h
  rcases List.mem_cons.mp hv with rfl | hv
  · exact ⟨id, by simp, hfirst⟩
  · obtain ⟨x, hx, hq⟩ := exists_of_mem_mapM hrest hv
    exact ⟨x, by simp [hx], hq⟩

/-- The pointers of the kernel boundary, those of the parameters first. -/
def pointers (p : Program) : List (Except Fault (List ValueRef)) :=
  p.parameters.map (RangeStep.parameterPointer · p) ++ p.results.map (RangeStep.resultPointer · p)

/-- The pointers that are found. -/
theorem isPointer_of_pointers (h : p.pointers[n]? = some (.ok values)) : p.IsPointer values := by
  have hmem := List.mem_of_getElem? h
  rw [pointers, List.mem_append, List.mem_map, List.mem_map] at hmem
  rcases hmem with ⟨id, hid, hq⟩ | ⟨id, hid, hq⟩
  · exact .parameter hid hq
  · exact .result hid hq

theorem IsPointer.exists_place (hp : p.IsPointer values) :
    ∃ n : Nat, p.pointers[n]? = some (.ok values) := by
  refine List.mem_iff_getElem?.mp (List.mem_append.mpr ?_)
  cases hp with
  | parameter hid hq => exact .inl (List.mem_map.mpr ⟨_, hid, hq⟩)
  | result hid hq => exact .inr (List.mem_map.mpr ⟨_, hid, hq⟩)

/-- The values of a pointer are in the register of its place. -/
theorem get?_pins_pointer (h : p.pins = .ok pins) (hn : p.pointers[n]? = some (.ok values))
    (hv : v ∈ values) : pins.get? (p.abstractReg v) = some (.gpr n) := by
  rcases Nat.lt_or_ge n p.parameters.length with hlt | hge
  · rw [pointers, List.getElem?_append_left (by rwa [List.length_map]), List.getElem?_map] at hn
    obtain ⟨id, hid, hq⟩ := Option.map_eq_some_iff.mp hn
    obtain ⟨x, hx, hvalue⟩ := exists_of_mem_pointer (f := (p.output · 0)) hq hv
    obtain ⟨v', hv', hpin⟩ := (Fixes.parameter hid hx).output_pinned h
    cases hvalue.symm.trans hv'
    exact hpin
  · rw [pointers, List.getElem?_append_right (by rwa [List.length_map]), List.getElem?_map,
      List.length_map] at hn
    obtain ⟨id, hid, hq⟩ := Option.map_eq_some_iff.mp hn
    obtain ⟨x, hx, hvalue⟩ := exists_of_mem_pointer (f := (p.input · 0)) hq hv
    obtain ⟨v', hv', hpin⟩ := (Fixes.result hid hx).input_pinned h
    cases hvalue.symm.trans hv'
    rwa [Nat.add_sub_cancel' hge] at hpin

/-- The pointers of the kernel boundary are pinned. -/
theorem IsPointer.contains_pins (hp : p.IsPointer values) (h : p.pins = .ok pins) (hv : v ∈ values) :
    pins.contains (p.abstractReg v) = true := by
  obtain ⟨n, hn⟩ := hp.exists_place
  exact Option.isSome_of_eq_some (get?_pins_pointer h hn hv)

/-- Different pointers have different registers. -/
theorem IsPointer.eq_of_abstractReg {xs ys : List ValueRef} (hx : p.IsPointer xs)
    (hy : p.IsPointer ys) (h : p.pins = .ok pins) {x y : ValueRef} (hxs : x ∈ xs) (hys : y ∈ ys)
    (he : p.abstractReg x = p.abstractReg y) : xs = ys := by
  obtain ⟨n, hn⟩ := hx.exists_place
  obtain ⟨m, hm⟩ := hy.exists_place
  have hnx := get?_pins_pointer h hn hxs
  have hmy := get?_pins_pointer h hm hys
  rw [he, hmy] at hnx
  have hplace : (m : Int) = n := congrArg Reg.index (Option.some.inj hnx)
  obtain rfl : m = n := by omega
  simpa using hn.symm.trans hm

end Program

end TensorKernel
