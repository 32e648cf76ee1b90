import TensorKernel.Proofs.Allocation.Shortage

/-!
# Conventions are kept

Pins are made on abstract registers; what counts are the ports. Every port of the program that a
convention speaks of ends in the register of the convention: the pointers of parameters and results with
their views, the ports of buffers and of the views behind them, and the accumulators of reductions with
what seeds them. No register that was given to the kernel boundary is left to linear scan, and linear
scan takes no register that a convention uses.
-/

namespace TensorKernel

open Outcome Program

variable {bank : Bank} {id : ExprId} {range : Interval} {values : List ValueRef} {k n : Nat} {p : Program}
  {phys : Reg} {pins : RegMap} {side : Side} {v : ValueRef} {w w₀ : Workspace}

namespace Program

/-- No port of the program has a register, and neither has a value that the program reads. -/
structure Untouched (p : Program) : Prop where
  /-- The ports of the program. -/
  fresh : p.Fresh
  /-- The values that it reads, wherever they are made. -/
  sources : ∀ id ∈ p.order, ∀ i ∈ (p.expr id).inputs, p.abstractReg i.source = .unassigned

instance (p : Program) : Decidable p.Untouched :=
  decidable_of_iff (p.Fresh ∧ ∀ id ∈ p.order, ∀ i ∈ (p.expr id).inputs,
    p.abstractReg i.source = .unassigned) ⟨fun h => ⟨h.1, h.2⟩, fun h => ⟨h.fresh, h.sources⟩⟩

/-- No port of any expression has a register, whether the expression is listed or not. -/
def Blank (p : Program) : Prop := ∀ id, (p.expr id).bare = p.expr id

theorem blank_iff : p.Blank ↔ ∀ e ∈ p.exprs, e.bare = e := by
  constructor
  · intro h e he
    obtain ⟨id, hid, rfl⟩ := Array.mem_iff_getElem.mp he
    have hblank := h id
    rwa [expr, Array.getD_eq_getD_getElem?, Array.getElem?_eq_getElem hid] at hblank
  · intro h id
    rw [expr, Array.getD_eq_getD_getElem?]
    cases hid : p.exprs[id]? with
    | none => rfl
    | some e => exact h e (Array.mem_of_getElem? hid)

instance (p : Program) : Decidable p.Blank := decidable_of_iff' _ blank_iff

/-- The register at a port. -/
def regAt? (p : Program) (side : Side) (id : ExprId) (k : Nat) : Option Reg :=
  (p.portAt side id k).map (·.reg)

end Program

/-! ### Inputs hold what they read -/

/-- The inputs of `p` hold the registers of the values that they read. The registers are those of
`q`. -/
def Program.InputsAgree (p q : Program) : Prop :=
  ∀ v u, u ∈ p.uses v → u.consumer ∈ p.order → q.inputReg u = q.abstractReg v

/-- A register goes to values together with their uses. -/
theorem Program.InputsAgree.giveAll {q : Program} (linked : p.Linked) (hbare : q.bare = p.bare)
    (h : p.InputsAgree q) (r : Reg) (values : List ValueRef) : p.InputsAgree (q.giveAll r values) := by
  intro v u hu hc
  rw [abstractReg_giveAll]
  by_cases hv : v ∈ values
  · have hvalue : q.HasValue v := (hasValue_congr hbare v).mpr (.of_mem_uses hu)
    rw [if_pos ⟨hv, hvalue⟩]
    exact inputReg_giveAll_of_mem hv (uses_congr hbare v ▸ hu)
      ((hasUse_congr hbare u).mpr (linked.hasUse hu hc))
  · rw [if_neg fun hm => hv hm.1, inputReg_giveAll_of_forall]
    · exact h v u hu hc
    · intro x hx hm
      rw [uses_congr hbare] at hm
      exact hv (linked.eq_of_mem_uses hc hm hu ▸ hx)

/-- The inputs of an untouched program agree with what they read. -/
theorem Program.Untouched.inputsAgree (untouched : p.Untouched) (linked : p.Linked) : p.InputsAgree p := by
  intro v u hu hc
  have hread := (linked u.consumer hc u.input v).mpr hu
  obtain ⟨i, hi, rfl⟩ := Option.map_eq_some_iff.mp hread
  rw [untouched.fresh.inputReg hc, untouched.sources u.consumer hc i (List.mem_of_getElem? hi)]

/-- What is reached keeps the agreement of inputs. -/
theorem RangeState.Reached.inputsAgree {s₀ u s : RangeState} {done : List ExprId}
    {current : Option (ExprId × Nat)} (linked : p.Linked) (hs : s₀.program.bare = p.bare)
    (h : Reached p s₀ u done current s) (h₀ : p.InputsAgree s₀.program) : p.InputsAgree s.program := by
  induction h with
  | start => exact h₀
  | pointer hreached _ _ _ ih => exact ih.giveAll linked (hreached.bare hs) _ _
  | give hreached _ _ _ _ ih => exact ih.giveAll linked (hreached.bare hs) _ _
  | silent _ _ _ ih | enter _ _ _ ih | keep _ _ _ ih | leave _ ih => exact ih

/-! ### Registers of the boundary stay where they are -/

namespace Program

/-- A boundary pointer begins with a value that exists. -/
theorem IsPointer.hasValue_first (linked : p.Linked) {first : ValueRef} {views : List ValueRef}
    (h : p.IsPointer (first :: views)) : p.HasValue first := by
  rcases h.first_cases with ⟨_, _, _, hvalue⟩ | ⟨id, hid, i, hi, rfl⟩
  · exact hvalue
  · exact linked.hasValue_source hid hi

end Program

namespace RangeState

variable {s₀ u s : RangeState} {done : List ExprId} {current : Option (ExprId × Nat)} {first : ValueRef}
  {views : List ValueRef} {r : Reg}

/-- The group of `first` holds one register. It is still `r`, or another boundary pointer than
`first :: views` reaches into the group. -/
structure Stays (p : Program) (first : ValueRef) (views : List ValueRef) (r : Reg)
    (s : RangeState) : Prop where
  uniform : ∀ m ∈ p.aliasGroup first, s.program.abstractReg m = s.program.abstractReg first
  isDefined : (s.program.abstractReg first).isDefined = true
  same : s.program.abstractReg first = r ∨
    ∃ values, p.IsPointer values ∧ values ≠ first :: views ∧ first ∈ values.flatMap p.aliasGroup

/-- Values that hold whole groups hold the group of a value or nothing of it. -/
theorem mem_iff_of_closed (grouped : p.Grouped) (hclosed : ∀ x ∈ values, ∀ m ∈ p.aliasGroup x, m ∈ values)
    {m : ValueRef} (hm : m ∈ p.aliasGroup first) : m ∈ values ↔ first ∈ values :=
  ⟨fun h => hclosed m h first (grouped.mem_symm hm), fun h => hclosed first h m hm⟩

/-- Handing out a register to other groups changes nothing. -/
theorem Stays.of_not_mem (grouped : p.Grouped) (h : s.Stays p first views r)
    (hclosed : ∀ x ∈ values, ∀ m ∈ p.aliasGroup x, m ∈ values) (hout : first ∉ values)
    (hself : first ∈ p.aliasGroup first) : (s.handOut bank values range).Stays p first views r := by
  have hreg : ∀ m ∈ p.aliasGroup first,
      (s.handOut bank values range).program.abstractReg m = s.program.abstractReg m := by
    intro m hm
    have hnot : m ∉ values := fun h => hout ((mem_iff_of_closed grouped hclosed hm).mp h)
    exact (s.program.abstractReg_giveAll ..).trans (if_neg fun h => hnot h.1)
  have hfirst := hreg first hself
  refine ⟨fun m hm => ?_, hfirst ▸ h.isDefined, hfirst ▸ h.same⟩
  rw [hreg m hm, hfirst]
  exact h.uniform m hm

/-- Handing out a register to a pointer that reaches into the group gives it to the whole group. -/
theorem Stays.of_mem (grouped : p.Grouped) (hbare : s.program.bare = p.bare) (hbank : bank ≠ .undefined)
    (hclosed : ∀ x ∈ values, ∀ m ∈ p.aliasGroup x, m ∈ values) (hin : first ∈ values)
    (hvalue : p.HasValue first)
    (hsame : (⟨bank, s.counts bank⟩ : Reg) = r ∨ ∃ pointer, p.IsPointer pointer ∧
      pointer ≠ first :: views ∧ first ∈ pointer.flatMap p.aliasGroup) :
    (s.handOut bank values range).Stays p first views r := by
  have hreg : ∀ m ∈ p.aliasGroup first,
      (s.handOut bank values range).program.abstractReg m = ⟨bank, s.counts bank⟩ := by
    intro m hm
    have hmvalue : s.program.HasValue m :=
      (hasValue_congr hbare m).mpr ((grouped first hvalue).2 m hm).1
    exact (s.program.abstractReg_giveAll ..).trans
      (if_pos ⟨(mem_iff_of_closed grouped hclosed hm).mpr hin, hmvalue⟩)
  have hfirst := hreg first (grouped first hvalue).1
  refine ⟨fun m hm => by rw [hreg m hm, hfirst], ?_, hfirst ▸ hsame⟩
  rw [hfirst]
  simpa [Reg.isDefined] using hbank

/-- The values of whole groups contain whole groups. -/
theorem closed_flatMap (grouped : p.Grouped) (values : List ValueRef) :
    ∀ x ∈ values.flatMap p.aliasGroup, ∀ m ∈ p.aliasGroup x, m ∈ values.flatMap p.aliasGroup := by
  intro x hx m hm
  obtain ⟨c, hc, hx⟩ := List.mem_flatMap.mp hx
  exact List.mem_flatMap.mpr ⟨c, hc, grouped.aliasGroup_eq hx ▸ hm⟩

/-- Another boundary pointer without a register gets one. -/
theorem Stays.pointer (grouped : p.Grouped) (hvalue : p.HasValue first) (hbare : s.program.bare = p.bare)
    (h : s.Stays p first views r) (hpointer : p.IsPointer values)
    (hnone : ∀ x ∈ values.head?, (s.program.abstractReg x).isDefined = false) :
    (s.handOut .gpr (values.flatMap p.aliasGroup) range).Stays p first views r := by
  have hclosed := closed_flatMap grouped values
  by_cases hin : first ∈ values.flatMap p.aliasGroup
  · refine .of_mem grouped hbare (by decide) hclosed hin hvalue (.inr ?_)
    refine ⟨values, hpointer, fun he => ?_, hin⟩
    have hundefined := hnone first (by rw [he]; rfl)
    rw [h.isDefined] at hundefined
    cases hundefined
  · exact h.of_not_mem grouped hclosed hin (grouped first hvalue).1

/-- The group of a value without a register gets one. It is another group. -/
theorem Stays.give (grouped : p.Grouped) (hvalue : p.HasValue first) (h : s.Stays p first views r)
    (hnone : (s.program.abstractReg v).isDefined = false) :
    (s.handOut bank (p.aliasGroup v) range).Stays p first views r := by
  have hclosed : ∀ x ∈ p.aliasGroup v, ∀ m ∈ p.aliasGroup x, m ∈ p.aliasGroup v :=
    fun x hx m hm => grouped.aliasGroup_eq hx ▸ hm
  refine h.of_not_mem grouped hclosed (fun hin => ?_) (grouped first hvalue).1
  have hdefined := h.isDefined
  rw [← h.uniform _ (grouped.mem_symm hin), hnone] at hdefined
  cases hdefined

/-- What is reached keeps the register of a boundary pointer, unless another pointer takes it. -/
theorem Reached.stays (grouped : p.Grouped) (hvalue : p.HasValue first)
    (hs : s₀.program.bare = p.bare) (h : Reached p s₀ u done current s)
    (h₀ : s₀.Stays p first views r) : s.Stays p first views r := by
  induction h with
  | start => exact h₀
  | pointer hreached hpointer hnone _ ih =>
    exact ih.pointer grouped hvalue (hreached.bare hs) hpointer hnone
  | silent _ _ _ ih | enter _ _ _ ih | keep _ _ _ ih | leave _ ih =>
    exact ⟨ih.uniform, ih.isDefined, ih.same⟩
  | give _ _ hnone _ _ ih => exact ih.give grouped hvalue hnone

/-- If conventions can be kept then no other pointer took the register: it would be pinned to another
physical one, and the group holds one register. -/
theorem Stays.abstractReg_eq (grouped : p.Grouped) (hbare : s.program.bare = p.bare)
    (h : s.Stays p first views r) (hpointer : p.IsPointer (first :: views))
    (hpins : s.program.pins = .ok pins) : s.program.abstractReg first = r := by
  rcases h.same with hsame | ⟨values, hvalues, hne, hin⟩
  · exact hsame
  · obtain ⟨c, hc, hfirst⟩ := List.mem_flatMap.mp hin
    have hreg := h.uniform c (grouped.mem_symm hfirst)
    exact absurd ((hvalues.congr hbare.symm).eq_of_abstractReg (hpointer.congr hbare.symm) hpins hc
      List.mem_cons_self hreg) hne

/-- A boundary pointer that was given a register has it when all pointers have been assigned, unless
another pointer took it. -/
theorem stays_of_givesPointer (linked : w₀.program.Linked) (grouped : w₀.program.Grouped)
    (h : w₀.GivesPointer n r)
    (hrun : w₀.program.pointers.forM RangeStep.assignPointer { toWorkspace := w₀ } = .ok () s) :
    ∃ first views, w₀.program.IsPointer (first :: views) ∧ w₀.program.HasValue first ∧
      s.Stays w₀.program first views r := by
  obtain ⟨first, views, x, hn, hx, hnone, rfl⟩ := h
  have hpointer := isPointer_of_pointers hn
  have hvalue := hpointer.hasValue_first linked
  refine ⟨first, views, hpointer, hvalue, ?_⟩
  obtain ⟨x', y, hx', hreached, hturn, hbehind⟩ := RangeStep.exists_turn hn rfl hrun
  cases hx.symm.trans hx'
  have hxbare : x.program.bare = w₀.program.bare := hreached.bare rfl
  refine hbehind.stays grouped hvalue ((RangeStep.bare_assignGlobal hturn).trans hxbare) ?_
  rcases RangeStep.assignGlobal_cases hturn with ⟨hd, _⟩ | ⟨_, _, rfl⟩
  · rw [hd first rfl] at hnone
    cases hnone
  · rw [funext (aliasGroup_congr hxbare)]
    refine .of_mem grouped hxbare (by decide) (closed_flatMap grouped _) ?_ hvalue (.inl rfl)
    exact List.mem_flatMap.mpr ⟨first, List.mem_cons_self, (grouped first hvalue).1⟩

end RangeState

/-- A register that was given to a boundary pointer is pinned, if conventions can be kept. -/
theorem Workspace.contains_pins_of_givesPointer (linked : w₀.program.Linked)
    (grouped : w₀.program.Grouped) (ranged : computeRanges w₀ = .ok () w)
    (hpins : w.program.pins = .ok pins) {r : Reg} (h : w₀.GivesPointer n r) : pins.contains r = true := by
  obtain ⟨_, t, u, rfl, hglobals, hreached⟩ := reached_of_computeRanges ranged
  obtain ⟨hrun, hubare⟩ := RangeStep.forM_pointers (p := w₀.program) rfl hglobals
  obtain ⟨first, views, hpointer, hvalue, hu⟩ :=
    RangeState.stays_of_givesPointer linked grouped h hrun
  have htbare := hreached.bare rfl
  rw [← (hreached.visits.stays grouped hvalue hubare hu).abstractReg_eq grouped htbare hpointer hpins]
  exact (hpointer.congr htbare.symm).contains_pins hpins List.mem_cons_self

/-! ### Ports -/

namespace Program

variable {q : Program}

/-- The abstract register at a port is that of the value there. -/
theorem InputsAgree.abstract_portAt (linked : p.Linked) (hagree : p.InputsAgree q) (hid : id ∈ p.order)
    (hv : p.valueAt? side id k = some v) (hdefined : (q.abstractReg v).isDefined = true) :
    ∃ port, q.portAt side id k = some port ∧ port.abstract = q.abstractReg v := by
  have hreg : ((q.portAt side id k).map (·.abstract)).getD .unassigned = q.abstractReg v := by
    cases side with
    | input =>
      have huse := (linked id hid k v).mp hv
      rw [← inputReg_eq_portAt q ⟨id, k⟩, hagree v ⟨id, k⟩ huse hid]
    | output =>
      cases hv
      rw [abstractReg_eq_portAt]
  cases hport : q.portAt side id k with
  | none =>
    rw [hport] at hreg
    rw [← hreg] at hdefined
    cases hdefined
  | some port =>
    rw [hport] at hreg
    exact ⟨port, rfl, hreg⟩

end Program

/-- A port whose abstract register is pinned ends in the register of the pin. -/
theorem Allocation.Chosen.regAt?_of_pin {m : Machine} {w' : Workspace} {a : Allocation} (h : Chosen m w a)
    (happlied : a.regMap.AppliedOn w.program (fun _ id _ => id ∈ w.program.order) w'.program) {port : Port}
    (hid : id ∈ w.program.order) (hport : w.program.portAt side id k = some port)
    (hpin : a.manual.get? port.abstract = some phys) : w'.program.regAt? side id k = some phys := by
  have hdefined := (exists_of_contains_pins h.pins (Option.isSome_of_eq_some hpin)).1
  rw [regAt?, happlied.mapped side id k hid, hport, Option.map_some, Option.map_some,
    RegMap.reg_onPort hdefined (h.get?_regMap_of_pin hpin)]

/-- **Conventions are kept.** Live ranges were computed and registers assigned for an untouched program
whose wiring is in order. Every port of the program that a convention speaks of is in the register of
the convention; every register that was given to a pointer of the kernel boundary is pinned; and no
other register shares with a pinned one. -/
theorem Workspace.conventions_kept {m : Machine} {w₀ w w' : Workspace} {a : Allocation}
    (untouched : w₀.program.Untouched) (linked : w₀.program.Linked) (grouped : w₀.program.Grouped)
    (ranged : computeRanges w₀ = .ok () w) (assigned : assign m w = .ok a w') :
    (∀ side id k phys, w₀.program.Fixes side id k phys → id ∈ w₀.program.order →
      w'.program.regAt? side id k = some phys) ∧
    (∀ n r, w₀.GivesPointer n r → a.manual.contains r = true) ∧
    ∀ r other phys, a.manual.contains r = false → a.regMap.get? r = some phys →
      a.manual.get? other ≠ some phys := by
  obtain ⟨hchosen, happlied, _⟩ := assign_ok assigned
  refine ⟨fun side id k phys hfixes hid => ?_, fun n r hgives => ?_, fun r other phys hr hphys => ?_⟩
  · obtain ⟨_, t, u, rfl, _, hreached⟩ := reached_of_computeRanges ranged
    have hbare : t.program.bare = w₀.program.bare := hreached.bare rfl
    have hagree := hreached.inputsAgree linked rfl (untouched.inputsAgree linked)
    obtain ⟨v, hv, hpin⟩ := (hfixes.congr hbare.symm).get?_pins hchosen.pins
    have hdefined := (exists_of_contains_pins hchosen.pins (Option.isSome_of_eq_some hpin)).1
    have hvalue : w₀.program.valueAt? side id k = some v := valueAt?_congr hbare ▸ hv
    obtain ⟨port, hport, habstract⟩ := hagree.abstract_portAt linked hid hvalue hdefined
    exact hchosen.regAt?_of_pin happlied (order_congr hbare ▸ hid) hport (habstract ▸ hpin)
  · exact contains_pins_of_givesPointer linked grouped ranged hchosen.pins hgives
  · have hnone : a.manual.get? r = none := by simpa [RegTable.contains] using hr
    rw [Allocation.get?_regMap, hnone, Option.or_none] at hphys
    exact hchosen.manual_ne_of_auto hphys

/-- The maximum of eight elements, by way of a buffer. The parameter, the result and the buffer are all
seen through other views. -/
def viewedMaximum : Subgraph where
  name := "viewed"
  ops := [
    { name := "source", kind := "Parameter", shape := some [8] },
    { name := "flat", kind := "Reshape", inputs := ["source"] },
    { name := "load", kind := "Load", inputs := ["flat"] },
    { name := "start", kind := "VectorBuffer", shape := some [8] },
    { name := "fill", kind := "Fill", inputs := ["start"] },
    { name := "max", kind := "Maximum", inputs := ["load", "fill"] },
    { name := "reduce", kind := "HorizonMax", inputs := ["max"] },
    { name := "save", kind := "Store", inputs := ["reduce"] },
    { name := "scratch", kind := "Buffer", inputs := ["save"], group := 1 },
    { name := "row", kind := "Reshape", inputs := ["scratch"] },
    { name := "again", kind := "Load", inputs := ["row"] },
    { name := "store", kind := "Store", inputs := ["again"] },
    { name := "column", kind := "Reshape", inputs := ["store"] },
    { name := "target", kind := "Result", inputs := ["column"] }]

/-- The views of the maximum are in the registers of the pointers that they show, and the fill is in the
register of the accumulator. -/
theorem conventions_kept_viewedMaximum : ∃ w a w',
    Workspace.computeRanges { program := viewedMaximum.lowered {} } = .ok () w ∧
    Workspace.assign (.x64 .avx2) w = .ok a w' ∧
    w'.program.regAt? .output 1 0 = some (.gpr 0) ∧ w'.program.regAt? .input 12 0 = some (.gpr 1) ∧
    w'.program.regAt? .input 9 0 = some (.gpr 3) ∧ w'.program.regAt? .output 4 0 = some (.vec 0) ∧
    ∀ n r, (viewedMaximum.lowered {}).GivesPointer n r → a.manual.contains r = true := by
  have hsome : (Workspace.allocated? (.x64 .avx2) { program := viewedMaximum.lowered {} }).isSome =
      true := by
    decide +kernel
  obtain ⟨⟨w, a, w'⟩, h⟩ := Option.isSome_iff_exists.mp hsome
  obtain ⟨hranged, hassigned⟩ := Workspace.allocated?_eq_some h
  generalize hp : viewedMaximum.lowered {} = p at *
  have hwiring : p.Untouched ∧ p.Linked ∧ p.Grouped := by
    rw [← hp]
    decide +kernel
  have hpointers : (p.parameters[0]? = some 0 ∧ 1 ∈ 0 :: p.viewsAfter 0) ∧
      (p.results[0]? = some 13 ∧ 12 ∈ 13 :: p.viewsBefore 13) ∧ p.parameters.length = 1 ∧
      ∀ x ∈ [1, 12, 9, 4], x ∈ p.order := by
    rw [← hp]
    decide +kernel
  have hbuffer : 8 ∈ p.buffers ∧ 9 ∈ p.viewsAfter 8 ∧ p.bufferReg 8 = .gpr 3 := by
    rw [← hp]
    decide +kernel
  have hreduction : p.reductions[0]? = some 6 ∧
      (p.expr 6).inputs[0]?.map (·.source) = some ⟨5, 0⟩ ∧
      (⟨4, 0⟩ : ValueRef) ∈ (p.expr 5).inputs.map (·.source) ∧ (p.expr 4).role = .fill ∧
      (p.expr 4).inputs[0]?.map (·.source) = some ⟨3, 0⟩ ∧ (p.expr 3).role = .vectorBuffer := by
    rw [← hp]
    decide +kernel
  obtain ⟨hports, hgiven, _⟩ :=
    Workspace.conventions_kept hwiring.1 hwiring.2.1 hwiring.2.2 hranged hassigned
  obtain ⟨hparameter, hresult, hone, horder⟩ := hpointers
  obtain ⟨hid, hoperand, hfilled, hfill, hread, hvector⟩ := hreduction
  have hview : p.Fixes .input 9 0 (.gpr 3) := hbuffer.2.2 ▸ .view hbuffer.1 hbuffer.2.1
  have hcolumn := Fixes.result hresult.1 hresult.2
  rw [hone] at hcolumn
  have hseeded : p.SeededBy 6 ⟨4, 0⟩ ⟨3, 0⟩ :=
    ⟨⟨⟨5, 0⟩, input_zero_eq_ok.mpr hoperand, hfilled⟩, hfill, input_zero_eq_ok.mpr hread, hvector⟩
  refine ⟨w, a, w', hranged, hassigned, ?_, ?_, ?_, ?_, hgiven⟩
  · exact hports _ _ _ _ (.parameter hparameter.1 hparameter.2) (horder 1 (by simp))
  · exact hports _ _ _ _ hcolumn (horder 12 (by simp))
  · exact hports _ _ _ _ hview (horder 9 (by simp))
  · exact hports _ _ _ _ (.filled hid hseeded) (horder 4 (by simp))

/-- A buffer, and a view of it that is an alias of it but not listed in the program. -/
def detachedView : Program :=
  let edit : Edit Unit := do
    let buffer ← Edit.add "b" { kind := "Buffer", outputs := 1, group := 3 } []
    let view ← Edit.makeOp "v" { kind := "Reshape", outputs := 1 } [some ⟨buffer, 0⟩]
    Edit.join ⟨view, 0⟩ ⟨buffer, 0⟩
  match edit { name := "detached_view" } with
  | .ok _ p => p.enumerate
  | .error _ p => p

/-- Conventions need not be kept at ports outside of the program, nor where the program reads a value
that had a register from the start. -/
theorem not_conventions_kept :
    (∃ w a w', (detachedView.Blank ∧ detachedView.Linked ∧ detachedView.Grouped) ∧
      Workspace.computeRanges { program := detachedView } = .ok () w ∧
      Workspace.assign (.x64 .avx2) w = .ok a w' ∧
      detachedView.Fixes .output 1 0 (.gpr 3) ∧ w'.program.regAt? .output 1 0 = some (.gpr 0)) ∧
    ∃ w a w', (presetSource.Fresh ∧ presetSource.Linked ∧ presetSource.Grouped) ∧
      Workspace.computeRanges { program := presetSource } = .ok () w ∧
      Workspace.assign (.x64 .avx2) w = .ok a w' ∧
      presetSource.Fixes .input 1 0 (.gpr 0) ∧
      w'.program.regAt? .input 1 0 = some .unassigned := by
  constructor
  · have hreg : ((Workspace.allocated? (.x64 .avx2) { program := detachedView }).map fun r =>
        r.2.2.program.regAt? .output 1 0) = some (some (.gpr 0)) := by
      decide +kernel
    obtain ⟨⟨w, a, w'⟩, h, hreg⟩ := Option.map_eq_some_iff.mp hreg
    obtain ⟨hranged, hassigned⟩ := Workspace.allocated?_eq_some h
    have hgroup : detachedView.bufferReg 0 = .gpr 3 := by decide +kernel
    have hfixes : detachedView.Fixes .output 1 0 (.gpr 3) :=
      hgroup ▸ .memory (by decide +kernel) (by decide +kernel)
    exact ⟨w, a, w', by decide +kernel, hranged, hassigned, hfixes, hreg⟩
  · have hreg : ((Workspace.allocated? (.x64 .avx2) { program := presetSource }).map fun r =>
        r.2.2.program.regAt? .input 1 0) = some (some .unassigned) := by
      decide +kernel
    obtain ⟨⟨w, a, w'⟩, h, hreg⟩ := Option.map_eq_some_iff.mp hreg
    obtain ⟨hranged, hassigned⟩ := Workspace.allocated?_eq_some h
    have hfirst : presetSource.results[0]? = some 1 ∧ presetSource.parameters.length = 0 := by
      decide +kernel
    have hfixes := Fixes.result (x := 1) hfirst.1 (by decide +kernel)
    rw [hfirst.2] at hfixes
    exact ⟨w, a, w', by decide +kernel, hranged, hassigned, hfixes, hreg⟩

end TensorKernel
