import TensorKernel.Proofs.Allocation.Assign
import TensorKernel.Proofs.Liveness.LoopCarried

/-!
# Registers along execution traces

A trace of a nest walks through its expressions and runs the body of each loop once or more often,
anew at every entry. Registers that no other value takes while a value is needed still hold the value
at each of its uses, in every trace. Linear scan hands out such registers.
-/

namespace TensorKernel

variable {id stop : ExprId} {before t : List ExprId} {c position : Nat} {m n : Nest} {p : Program} {r : Reg}
  {s : Span} {v : ValueRef}

/-- The expressions that an execution of a nest passes: a loop body, with the end marker, is run at
least once. -/
inductive Nest.Trace : Nest → List ExprId → Prop
  | nil : Trace .nil []
  | expr {id : ExprId} {rest : Nest} {t : List ExprId} : Trace rest t → Trace (.expr id rest) (id :: t)
  | loop {begin stop : ExprId} {body rest : Nest} {rounds : List (List ExprId)} {t : List ExprId} :
    rounds ≠ [] → (∀ round ∈ rounds, Trace body round) → Trace rest t →
    Trace (.loop begin stop body rest) (begin :: (rounds.flatMap (· ++ [stop]) ++ t))

namespace Program

/-- The current register of a value at its source. -/
def physReg (p : Program) (v : ValueRef) : Reg :=
  match p.output? v with
  | some o => o.port.reg
  | none => .unassigned

/-- The values that an expression writes, in order. -/
def writes (p : Program) (id : ExprId) : List ValueRef :=
  (List.range (p.expr id).outputs.length).map fun k => ⟨id, k⟩

/-- The value that was written to a register last, after a sequence of expressions. -/
def lastWriter (p : Program) (r : Reg) (before : List ExprId) : Option ValueRef :=
  ((before.flatMap p.writes).filter fun v => p.physReg v = r).getLast?

theorem mem_writes : v ∈ p.writes id ↔ v.producer = id ∧ p.HasValue v := by
  simp only [writes, List.mem_map, List.mem_range]
  constructor
  · rintro ⟨k, hk, rfl⟩
    exact ⟨rfl, hk⟩
  · rintro ⟨rfl, hv⟩
    exact ⟨v.output, hv, rfl⟩

/-- What an expression does not write stays. -/
theorem lastWriter_append_of_ne (h : ∀ x ∈ p.writes id, p.physReg x ≠ r) :
    p.lastWriter r (before ++ [id]) = p.lastWriter r before := by
  have hnil : (p.writes id).filter (fun v => p.physReg v = r) = [] :=
    List.filter_eq_nil_iff.mpr fun x hx => by simpa using h x hx
  simp [lastWriter, List.flatMap_append, hnil]

/-- An expression that writes a register once leaves its value there. -/
theorem lastWriter_append_of_mem (hv : v ∈ p.writes id)
    (h : ∀ x ∈ p.writes id, p.physReg x = p.physReg v → x = v) :
    p.lastWriter (p.physReg v) (before ++ [id]) = some v := by
  have hmem : v ∈ (p.writes id).filter (fun x => p.physReg x = p.physReg v) :=
    List.mem_filter.mpr ⟨hv, by simp⟩
  have hne := List.ne_nil_of_mem hmem
  have hlast := List.mem_filter.mp (List.getLast_mem hne)
  rw [lastWriter, List.flatMap_append, List.flatMap_singleton, List.filter_append,
    List.getLast?_append, List.getLast?_eq_some_getLast hne, Option.some_or,
    h _ hlast.1 (by simpa using hlast.2)]

/-- Whether a use in the program needs a value at a position or behind it. -/
def Needed (p : Program) (v : ValueRef) (c : Int) : Prop :=
  ∃ u ∈ p.uses v, u.consumer ∈ p.order ∧ c ≤ p.useEnd (p.expr v.producer) u

theorem Needed.mono {c d : Int} (h : p.Needed v d) (hc : c ≤ d) : p.Needed v c := by
  obtain ⟨u, hu, hin, hd⟩ := h
  exact ⟨u, hu, hin, Int.le_trans hc hd⟩

theorem Needed.le_lastUse {c : Int} (h : p.Needed v c) : c ≤ p.lastUse v := by
  obtain ⟨u, hu, _, hc⟩ := h
  exact Int.le_trans hc (useEnd_le_lastUse hu)

/-- The expression with the number of a position stands there. -/
theorem Enumerated.eq_of_exec (he : p.Enumerated) {x : ExprId} (hid : p.order[c]? = some id)
    (hx : x ∈ p.order) (hc : (p.expr x).exec = c) : x = id := by
  obtain ⟨j, hj⟩ := List.mem_iff_getElem?.mp hx
  have hjexec := he j x hj
  have hjc : j = c := by omega
  rw [hjc, hid] at hj
  exact (Option.some.inj hj).symm

/-! ### What a run carries from the production of a value to its uses -/

section Carry

variable (p : Program) (A : ValueRef → Prop) (G : ValueRef → List ExprId → Prop)

/-- When position `c` of `p` is reached behind the expressions `before`, the fact `G` holds of the
values of `A` that are needed from there on. -/
def Carries (before : List ExprId) (c : Int) : Prop :=
  ∀ v, A v → (p.expr v.producer).exec < c → p.Needed v c → G v before

/-- The expression at a position makes the fact true or keeps it, for what was produced up to there
and is needed there. -/
def CarriesOver : Prop :=
  ∀ (before : List ExprId) (c : Nat) id v, p.order[c]? = some id → A v →
    (p.expr v.producer).exec ≤ c → p.Needed v c →
    ((p.expr v.producer).exec < c → G v before) → G v (before ++ [id])

/-- The fact is carried up to every expression of a run. -/
def CarriesAlong (before t : List ExprId) : Prop :=
  ∀ done id rest, t = done ++ id :: rest →
    ∃ c : Nat, p.order[c]? = some id ∧ p.Carries A G (before ++ done) c

variable {p A G}

theorem carriesAlong_nil : p.CarriesAlong A G before [] := by
  intro done id rest h
  simp at h

theorem carriesAlong_cons (hid : p.order[c]? = some id) (h : p.Carries A G before c)
    (ht : p.CarriesAlong A G (before ++ [id]) t) : p.CarriesAlong A G before (id :: t) := by
  intro done e rest he
  cases done with
  | nil =>
    cases he
    exact ⟨c, hid, by simpa using h⟩
  | cons d done =>
    cases he
    have := ht done e rest rfl
    simpa using this

theorem carriesAlong_append {s : List ExprId} (hs : p.CarriesAlong A G before s)
    (ht : p.CarriesAlong A G (before ++ s) t) : p.CarriesAlong A G before (s ++ t) := by
  induction s generalizing before with
  | nil => simpa using ht
  | cons e s ih =>
    obtain ⟨c, hid, h⟩ := hs [] e s rfl
    refine carriesAlong_cons hid (by simpa using h) (ih ?_ (by simpa using ht))
    intro done id rest he
    have := hs (e :: done) id rest (by rw [he]; rfl)
    simpa using this

/-- Past the expression at the position that is reached, the next position is reached. -/
theorem Carries.next (hstep : p.CarriesOver A G) (h : p.Carries A G before c) (hid : p.order[c]? = some id) :
    p.Carries A G (before ++ [id]) (c + 1 : Nat) := fun v hA hv hn =>
  hstep before c id v hid hA (by omega) (hn.mono (by omega)) fun hlt =>
    h v hA hlt (hn.mono (by omega))

/-- Past the end of a loop, the begin of its body is reached again. -/
theorem Carries.again (hw : p.WellNested n) (he : p.Enumerated) (hA : ∀ v, A v → v.producer ∈ p.order)
    (hstep : p.CarriesOver A G) (hs : s ∈ n.spans p 0) (h : p.Carries A G before s.last)
    (hid : p.order[s.last]? = some stop) : p.Carries A G (before ++ [stop]) (s.first + 1 : Nat) := by
  intro v hv hlt hn
  have hspan := Nest.span_mem hs
  obtain ⟨u, hu, hc, hle⟩ := hn
  have hneeded : p.Needed v s.last :=
    ⟨u, hu, hc, last_le_useEnd hw he hs (hA v hv) hc (by omega) (by omega)⟩
  exact hstep before s.last stop v hid hv (by omega) hneeded fun hbefore => h v hv hbefore hneeded

/-- The rounds of a loop: each round starts and ends with everything carried. -/
theorem Carries.rounds (hw : p.WellNested n) (he : p.Enumerated) (hA : ∀ v, A v → v.producer ∈ p.order)
    (hstep : p.CarriesOver A G) (hs : s ∈ n.spans p 0) (hstop : p.order[s.last]? = some stop)
    {rounds : List (List ExprId)}
    (hround : ∀ round ∈ rounds, ∀ before, p.Carries A G before (s.first + 1 : Nat) →
      p.CarriesAlong A G before round ∧ p.Carries A G (before ++ round) s.last) (hne : rounds ≠ [])
    (h : p.Carries A G before (s.first + 1 : Nat)) :
    p.CarriesAlong A G before (rounds.flatMap (· ++ [stop])) ∧
      p.Carries A G (before ++ rounds.flatMap (· ++ [stop])) (s.last + 1 : Nat) := by
  induction rounds generalizing before with
  | nil => exact absurd rfl hne
  | cons round rounds ih =>
    obtain ⟨halong, hend⟩ := hround round (by simp) before h
    have hfirst : p.CarriesAlong A G before (round ++ [stop]) :=
      carriesAlong_append halong (carriesAlong_cons hstop hend carriesAlong_nil)
    rw [List.flatMap_cons]
    cases rounds with
    | nil =>
      rw [List.flatMap_nil, List.append_nil, ← List.append_assoc]
      exact ⟨hfirst, hend.next hstep hstop⟩
    | cons round' rounds =>
      have hagain : p.Carries A G (before ++ (round ++ [stop])) (s.first + 1 : Nat) := by
        rw [← List.append_assoc]
        exact hend.again hw he hA hstep hs hstop
      obtain ⟨hmore, hafter⟩ := ih (fun r hr => hround r (by simp [hr])) (by simp) hagain
      rw [← List.append_assoc]
      exact ⟨carriesAlong_append hfirst hmore, hafter⟩

/-- The step lemma over a whole trace: a part of the nest that is entered with everything carried
carries it along and is left with everything carried. -/
theorem Carries.trace (hw : p.WellNested n) (he : p.Enumerated) (hA : ∀ v, A v → v.producer ∈ p.order)
    (hstep : p.CarriesOver A G) (ht : m.Trace t) (hplace : m.StandsAt p position)
    (hspans : ∀ s ∈ m.spans p position, s ∈ n.spans p 0) (h : p.Carries A G before position) :
    p.CarriesAlong A G before t ∧
      p.Carries A G (before ++ t) ((position + m.flatten.length : Nat) : Int) := by
  induction ht generalizing position before with
  | nil => exact ⟨carriesAlong_nil, by simpa [Nest.flatten] using h⟩
  | @expr id rest t _ ih =>
    obtain ⟨hid, hrest⟩ := hplace.expr
    obtain ⟨halong, hafter⟩ := ih hrest hspans (h.next hstep hid)
    refine ⟨carriesAlong_cons hid h halong, ?_⟩
    rw [List.append_cons, Nest.flatten, List.length_cons,
      show position + (rest.flatten.length + 1) = position + 1 + rest.flatten.length by omega]
    exact hafter
  | @loop begin stop body rest rounds t hne _ _ ihb ihr =>
    obtain ⟨hbegin, hbody, hstop, hrest⟩ := hplace.loop
    simp only [Nest.spans, List.forall_mem_cons, List.forall_mem_append] at hspans
    obtain ⟨hs, hsb, hsr⟩ := hspans
    obtain ⟨halong, hend⟩ := Carries.rounds hw he hA hstep hs hstop
      (fun round hr before' hbefore => ihb round hr hbody hsb hbefore) hne (h.next hstep hbegin)
    obtain ⟨halong', hafter⟩ := ihr hrest hsr hend
    refine ⟨carriesAlong_cons hbegin h (carriesAlong_append halong halong'), ?_⟩
    rw [List.append_cons, ← List.append_assoc, Nest.flatten, List.length_cons, List.length_append,
      List.length_cons, show position + (body.flatten.length + (rest.flatten.length + 1) + 1) =
        position + 1 + body.flatten.length + 1 + rest.flatten.length by omega]
    exact hafter

/-- A whole trace of a program carries everything along: at its start nothing was produced. -/
theorem carriesAlong_trace (hw : p.WellNested n) (he : p.Enumerated) (hA : ∀ v, A v → v.producer ∈ p.order)
    (hstep : p.CarriesOver A G) (ht : n.Trace t) : p.CarriesAlong A G [] t := by
  have hstart : p.Carries A G [] (0 : Nat) := by
    intro v hv hlt _
    have := he.exec_mem (hA v hv)
    omega
  have hplace : n.StandsAt p 0 := by
    intro j e hj
    rwa [Nat.zero_add, ← hw.flatten]
  exact (hstart.trace hw he hA hstep ht hplace fun _ hs => hs).1

end Carry

/-! ### Registers along a run -/

/-- The registers of the values in `A` are their own: no other value is written to the register of
such a value from its production to its last use. -/
def KeepsApart (p : Program) (reg : ValueRef → Reg) (A : ValueRef → Prop) : Prop :=
  ∀ v, A v → p.Owns v ∧ ∀ x, p.Owns x → x ≠ v → reg x = reg v →
    (p.expr x.producer).exec < (p.expr v.producer).exec ∨ p.lastUse v < (p.expr x.producer).exec

section Run

variable (p q : Program) (A : ValueRef → Prop)

/-- When position `c` of `p` is reached, the values of `A` that are needed from there on are where
they belong. -/
def Holds (before : List ExprId) (c : Int) : Prop :=
  ∀ v, A v → (p.expr v.producer).exec < c → p.Needed v c →
    q.lastWriter (q.physReg v) before = some v

/-- The values of `A` that an expression reads are where they belong. -/
def Reads (before : List ExprId) (id : ExprId) : Prop :=
  ∀ i ∈ (q.expr id).inputs, A i.source → q.lastWriter (q.physReg i.source) before = some i.source

/-- Every expression of a run reads the values of `A` where they belong. -/
def ReadsAll (before t : List ExprId) : Prop :=
  ∀ done id rest, t = done ++ id :: rest → q.Reads A (before ++ done) id

variable {p q A}

/-- An expression at the position that is reached reads the right values. -/
theorem Holds.reads (hb : q.bare = p.bare) (he : p.Enumerated) (hl : p.Linked) (hf : p.Forward)
    (h : p.Holds q A before c) (hid : p.order[c]? = some id) : q.Reads A before id := by
  intro i hi hA
  obtain ⟨k, hk⟩ := List.mem_iff_getElem?.mp hi
  have hin := List.mem_of_getElem? hid
  have hsource : ((p.expr id).inputs[k]?).map (·.source) = some i.source := by
    rw [← source_congr hb, hk]
    rfl
  have hu := (hl id hin k i.source).mp hsource
  have hexec := he c id hid
  have hlt := hf.lt hl hu hin
  have hend := p.exec_le_useEnd (p.expr i.source.producer) ⟨id, k⟩
  dsimp only at hlt hend
  exact h i.source hA (by omega) ⟨⟨id, k⟩, hu, hin, by omega⟩

/-- Registers that are kept apart carry their values. -/
theorem KeepsApart.carriesOver (hb : q.bare = p.bare) (he : p.Enumerated)
    (hk : p.KeepsApart q.physReg A) :
    p.CarriesOver A fun v before => q.lastWriter (q.physReg v) before = some v := by
  intro before c id v hid hA hv hn h
  obtain ⟨howns, hothers⟩ := hk v hA
  have hexec := he c id hid
  have hlast := hn.le_lastUse
  -- Another value written now to the same register would be written while `v` is needed.
  have honly : ∀ x ∈ q.writes id, q.physReg x = q.physReg v → x = v := by
    intro x hx hreg
    obtain ⟨hxid, hxvalue⟩ := mem_writes.mp hx
    refine Decidable.byContradiction fun hne => ?_
    have hxo : p.Owns x :=
      ⟨hxid ▸ List.mem_of_getElem? hid, (hasValue_congr hb x).mp hxvalue⟩
    have := hothers x hxo hne hreg
    rw [hxid] at this
    omega
  by_cases hmem : v ∈ q.writes id
  · exact lastWriter_append_of_mem hmem honly
  · have hne : ∀ x ∈ q.writes id, q.physReg x ≠ q.physReg v :=
      fun x hx hreg => hmem (honly x hx hreg ▸ hx)
    rw [lastWriter_append_of_ne hne]
    refine h (Int.lt_iff_le_and_ne.mpr ⟨hv, fun hc => hmem ?_⟩)
    exact mem_writes.mpr ⟨he.eq_of_exec hid howns.1 hc, (hasValue_congr hb v).mpr howns.2⟩

/-- A part of the nest that is entered with everything in place reads the right values and is left
with everything in place. -/
theorem Holds.trace (hb : q.bare = p.bare) (hw : p.WellNested n) (he : p.Enumerated) (hl : p.Linked)
    (hf : p.Forward) (hk : p.KeepsApart q.physReg A) (ht : m.Trace t) (hplace : m.StandsAt p position)
    (hspans : ∀ s ∈ m.spans p position, s ∈ n.spans p 0) (h : p.Holds q A before position) :
    q.ReadsAll A before t ∧ p.Holds q A (before ++ t) ((position + m.flatten.length : Nat) : Int) := by
  obtain ⟨halong, hend⟩ := Carries.trace hw he (fun v hv => (hk v hv).1.1)
    (hk.carriesOver hb he) ht hplace hspans h
  refine ⟨fun done id rest hstep => ?_, hend⟩
  obtain ⟨c, hid, hcarries⟩ := halong done id rest hstep
  exact Holds.reads hb he hl hf hcarries hid

end Run

theorem physReg_eq_portAt (p : Program) (v : ValueRef) :
    p.physReg v = ((p.portAt .output v.producer v.output).map (·.reg)).getD .unassigned := by
  simp only [physReg, output?, portAt]
  cases (p.expr v.producer).outputs[v.output]? <;> rfl

end Program

/-- A trace passes expressions of its nest only. -/
theorem Nest.Trace.mem (h : n.Trace t) (hid : id ∈ t) : id ∈ n.flatten := by
  induction h with
  | nil => cases hid
  | expr _ ih =>
    rcases List.mem_cons.mp hid with rfl | hid
    · exact List.mem_cons_self ..
    · exact List.mem_cons_of_mem _ (ih hid)
  | loop _ _ _ ihb ihr =>
    simp only [List.mem_cons, List.mem_append, List.mem_flatMap, List.not_mem_nil, or_false] at hid
    simp only [flatten, List.mem_cons, List.mem_append]
    rcases hid with rfl | ⟨round, hround, hid | rfl⟩ | hid
    · exact .inl rfl
    · exact .inr (.inl (ihb round hround hid))
    · exact .inr (.inr (.inl rfl))
    · exact .inr (.inr (.inr (ihr hid)))

open Program

namespace Workspace

/-- The values whose registers linear scan chose. -/
def ByScan (p : Program) (w : Workspace) (a : Allocation) (v : ValueRef) : Prop :=
  p.Sees w.program v ∧ a.auto.contains (w.program.abstractReg v) = true

variable {m : Machine} {w w' : Workspace} {a : Allocation}

theorem isDefined_of_auto (hch : Allocation.Chosen m w a) (hr : a.auto.contains r = true) :
    r.isDefined = true := by
  rcases hch.banks r ((hch.auto r).mp hr).1 with hb | hb <;> simp [Reg.isDefined, hb]

/-- Without aliases, a register that linear scan serves belongs to one value, and its range goes from
the producer to the last use. -/
theorem Ranged.of_byScan (hr : w.Ranged p) (hu : p.Unaliased) (hch : Allocation.Chosen m w a)
    (hv : ByScan p w a v) :
    p.Owns v ∧
      w.live.ranges.get? (w.program.abstractReg v) =
        some ⟨(p.expr v.producer).exec, p.lastUse v⟩ ∧
      ∀ x, p.Sees w.program x → w.program.abstractReg x = w.program.abstractReg v → x = v := by
  obtain ⟨vs, range, ho, hrange, hholders⟩ := hr.origin v hv.1 (isDefined_of_auto hch hv.2)
  have hvs := hholders v hv.1 rfl
  cases ho with
  | @pointer values hp =>
    -- Pointers are pinned, and linear scan serves what is not pinned.
    rw [show p.aliasGroup = fun v => [v] from funext hu.aliasGroup] at hvs
    have hpinned := (hp.congr hr.bare.symm).contains_pins hch.pins (by simpa using hvs)
    rw [((hch.auto _).mp hv.2).2] at hpinned
    cases hpinned
  | @group v₀ howns _ =>
    rw [hu.aliasGroup, List.mem_singleton] at hvs
    subst hvs
    refine ⟨howns, ?_, fun x hx he => ?_⟩
    · rw [hrange, groupRange_eq_of_aliasGroup (hu.aliasGroup v)]
    · have := hholders x hx he
      rwa [hu.aliasGroup, List.mem_singleton] at this

/-- The port of a value of the program, with its registers. -/
theorem Ranged.exists_port (hr : w.Ranged p) {done : Side → ExprId → Nat → Prop}
    (happ : a.regMap.AppliedOn w.program done w'.program) (hv : p.Owns v) :
    ∃ port, w'.program.portAt .output v.producer v.output = some port ∧
      port.abstract = w.program.abstractReg v ∧ port.reg = w'.program.physReg v := by
  obtain ⟨o, ho⟩ := hasValue_iff.mp ((hasValue_congr (happ.bare.trans hr.bare) v).mpr hv.2)
  have hp : w'.program.portAt .output v.producer v.output = some o.port := by
    rw [portAt]
    exact congrArg (Option.map (·.port)) ho
  refine ⟨o.port, hp, ?_, ?_⟩
  · rw [← happ.abstractReg_eq, abstractReg_eq_portAt, hp]
    rfl
  · rw [physReg_eq_portAt, hp]
    rfl

/-- Linear scan hands out registers that no other value takes while the value is needed. -/
theorem Ranged.keepsApart (hr : w.Ranged p) (hu : p.Unaliased) (hch : Allocation.Chosen m w a)
    (happ : a.regMap.AppliedOn w.program (fun _ id _ => id ∈ w.program.order) w'.program) :
    p.KeepsApart w'.program.physReg (ByScan p w a) := by
  intro v hv
  obtain ⟨howns, hvrange, hvonly⟩ := hr.of_byScan hu hch hv
  refine ⟨howns, fun x hx hne hreg => ?_⟩
  have horder : w.program.order = p.order := order_congr hr.bare
  obtain ⟨phys, hphys⟩ := Option.isSome_iff_exists.mp hv.2
  have hfree := Allocation.mem_freePool.mp (hch.free _ _ hphys)
  have hvphys : w'.program.physReg v = phys := by
    obtain ⟨port, hp, habs, hreg⟩ := hr.exists_port happ howns
    have hget := happ.get?_eq (horder ▸ howns.1) hp (habs ▸ isDefined_of_auto hch hv.2)
    rw [habs, Allocation.get?_regMap_of_auto hphys] at hget
    rw [← hreg, ← Option.some.inj hget]
  obtain ⟨port, hp, habs, hxreg⟩ := hr.exists_port happ hx
  have hin : x.producer ∈ w.program.order := horder ▸ hx.1
  rw [hvphys] at hreg
  by_cases hd : port.abstract.isDefined = true
  · have hget := happ.get?_eq hin hp hd
    rw [habs, hxreg, hreg] at hget
    cases hauto : a.auto.contains (w.program.abstractReg x) with
    | false =>
      rw [Allocation.get?_regMap_of_not_auto hauto] at hget
      exact absurd hget (hfree.2.2 _)
    | true =>
      obtain ⟨_, hxrange, _⟩ := hr.of_byScan hu hch ⟨.inl hx.1, hauto⟩
      have hregs : w.program.abstractReg x ≠ w.program.abstractReg v :=
        fun he => hne (hvonly x (.inl hx.1) he)
      obtain ⟨phys', hphys'⟩ := Option.isSome_iff_exists.mp hauto
      rw [Allocation.get?_regMap_of_auto hphys'] at hget
      rw [Option.some.inj hget] at hphys'
      have hover := mt (fun ho => hch.apart _ _ _ _ _ _ hregs hxrange hvrange ho hphys' hphys)
        (Decidable.not_not.mpr rfl)
      simp only [Interval.overlaps, Bool.and_eq_true, decide_eq_true_eq] at hover
      have := p.exec_le_lastUse x
      omega
  · -- A port without an abstract register has no register at all.
    have hsync := hr.synced _ _ _ port hx.1 (happ.portAt_eq hin hp hd)
    rw [hxreg, hreg] at hsync
    rw [← hsync, Reg.isDefined, hfree.1] at hd
    rcases hch.banks _ ((hch.auto _).mp hv.2).1 with hb | hb <;> simp [hb] at hd

/-- **Allocation never clobbers a live value, loops included.** In every trace of a program without
aliases, an input whose register linear scan chose reads what its own producer wrote there last. -/
theorem lastWriter_eq_source {w₀ : Workspace} {n : Nest} (fresh : w₀.program.Fresh)
    (unaliased : w₀.program.Unaliased) (linked : w₀.program.Linked) (forward : w₀.program.Forward)
    (nested : w₀.program.WellNested n) (ranged : computeRanges w₀ = .ok () w)
    (assigned : assign m w = .ok a w') {t : List ExprId} (trace : n.Trace t)
    {before after : List ExprId} {id : ExprId} (step : t = before ++ id :: after) {i : Input}
    (input : i ∈ (w'.program.expr id).inputs) (auto : a.auto.contains i.port.abstract = true) :
    w'.program.lastWriter i.port.reg before = some i.source := by
  obtain ⟨he, hr, _⟩ := ranged_of_computeRanges fresh linked unaliased.grouped ranged
  obtain ⟨hch, happ, _⟩ := assign_ok assigned
  have hbare : w'.program.bare = w₀.program.bare := happ.bare.trans hr.bare
  have horder : w.program.order = w₀.program.order := order_congr hr.bare
  have hid : id ∈ w₀.program.order := nested.flatten ▸ trace.mem (by simp [step])
  -- The input is a use of its source, so it holds the register of its source.
  obtain ⟨k, hk⟩ := List.mem_iff_getElem?.mp input
  have huse : (⟨id, k⟩ : UseRef) ∈ w₀.program.uses i.source := by
    refine (linked id hid k i.source).mp ?_
    rw [← source_congr hbare, hk]
    rfl
  have hp : w'.program.portAt .input id k = some i.port := by rw [portAt, hk]; rfl
  have habs : i.port.abstract = w.program.inputReg ⟨id, k⟩ := by
    rw [← happ.inputReg_eq, inputReg_eq_portAt, hp]
    rfl
  have hdefined := isDefined_of_auto hch auto
  have hsource : w.program.inputReg ⟨id, k⟩ = w.program.abstractReg i.source :=
    hr.agree i.source ⟨id, k⟩ huse hid (.inr (habs ▸ hdefined))
  have hscan : ByScan w₀.program w a i.source :=
    ⟨.inr ⟨⟨id, k⟩, huse, hid, habs ▸ hdefined⟩, by rw [← hsource, ← habs, auto]⟩
  have hkeeps := hr.keepsApart unaliased hch happ
  have hreg : i.port.reg = w'.program.physReg i.source := by
    have howns := (hkeeps i.source hscan).1
    obtain ⟨port, hport, hpabs, hpreg⟩ := hr.exists_port happ howns
    have heq : port.abstract = i.port.abstract := by rw [hpabs, habs, hsource]
    have hget := happ.get?_eq (horder ▸ hid) hp hdefined
    rw [← heq, happ.get?_eq (horder ▸ howns.1) hport (heq ▸ hdefined)] at hget
    rw [← Option.some.inj hget, hpreg]
  -- At the start nothing was produced, so nothing has to be in place.
  have hstart : w₀.program.Holds w'.program (ByScan w₀.program w a) [] (0 : Nat) := by
    intro v hv hlt _
    have := he.exec_mem (hkeeps v hv).1.1
    omega
  have hplace : n.StandsAt w₀.program 0 := by
    intro j e hj
    rwa [Nat.zero_add, ← nested.flatten]
  have hrun := (hstart.trace hbare nested he linked forward hkeeps trace hplace
    (fun _ hs => hs)).1 before id after step
  rw [hreg]
  exact hrun i input hscan

end Workspace

/-- Add a constant to five elements, four at once. -/
def biasedCopy : Subgraph where
  name := "bias"
  ops := [
    { name := "source", kind := "Parameter", shape := some [5] },
    { name := "bias", kind := "Scalar", shape := some [1] },
    { name := "load", kind := "Load", inputs := ["source"] },
    { name := "sum", kind := "Add", inputs := ["load", "bias"] },
    { name := "store", kind := "Store", inputs := ["sum"] },
    { name := "target", kind := "Result", inputs := ["store"] }]
  loops := [
    { first := "load", last := "store", work := 5, increment := 4
      entries := [{ port := "load.in0" }], exits := [{ port := "store.out0" }] }]

/-- The constant, made before the loop, is still there in the second round of its body. -/
theorem lastWriter_eq_source_biasedCopy : ∃ w a w', ∃ i ∈ (w'.program.expr 3).inputs,
    Workspace.computeRanges { program := biasedCopy.lowered { noIterations := true } } = .ok () w ∧
      Workspace.assign (.x64 .avx2) w = .ok a w' ∧ a.auto.contains i.port.abstract = true ∧
      i.source = ⟨1, 0⟩ ∧
      w'.program.lastWriter i.port.reg [0, 1, 6, 2, 3, 4, 7, 2] = some i.source := by
  have hsome : ((Workspace.allocated? (.x64 .avx2)
      { program := biasedCopy.lowered { noIterations := true } }).any fun (_, a, w') =>
        ((w'.program.expr 3).inputs[1]?).any fun i =>
          a.auto.contains i.port.abstract && i.source = ⟨1, 0⟩) = true := by
    decide +kernel
  obtain ⟨⟨w, a, w'⟩, h, hi⟩ := (Option.any_eq_true _ _).mp hsome
  obtain ⟨i, hi, hauto⟩ := (Option.any_eq_true _ _).mp hi
  simp only [Bool.and_eq_true, decide_eq_true_eq] at hauto
  obtain ⟨hr, ha⟩ := Workspace.allocated?_eq_some h
  have hmem := List.mem_of_getElem? hi
  have hrounds : ∀ round ∈ [[2, 3, 4], [2, 3, 4]],
      Nest.Trace (.expr 2 (.expr 3 (.expr 4 .nil))) round := by
    simp only [List.mem_cons, List.not_mem_nil, or_false, or_self, forall_eq]
    exact .expr (.expr (.expr .nil))
  have htrace : Nest.Trace (.expr 0 (.expr 1 (.loop 6 7 (.expr 2 (.expr 3 (.expr 4 .nil)))
      (.expr 5 .nil)))) [0, 1, 6, 2, 3, 4, 7, 2, 3, 4, 7, 5] :=
    .expr (.expr (.loop (by simp) hrounds (.expr .nil)))
  refine ⟨w, a, w', i, hmem, hr, ha, hauto.1, hauto.2,
    Workspace.lastWriter_eq_source ?_ ?_ ?_ ?_ ⟨?_, ?_, ?_⟩ hr ha htrace rfl hmem hauto.1⟩
  all_goals decide +kernel

end TensorKernel
