import TensorKernel.Proofs.Allocation.Assign
import TensorKernel.Proofs.Liveness.Coverage

/-!
# Assigned registers pass the check

The check looks at the finished program only: at its ports, at the positions of producers and
consumers, and at the physical registers of overlapping live ranges. Nothing is wrong with what the
computation of live ranges and the assignment of registers leave behind.
-/

namespace TensorKernel

variable {a : Allocation} {id : ExprId} {k : Nat} {port : Port} {p : Program} {phys r : Reg}
  {x y : Reg × Interval} {side : Side}

/-- Every buffer has a register at or behind the first one. -/
def Program.BuffersInRange (p : Program) : Prop :=
  ∀ id ∈ p.buffers, 0 ≤ (Pins.groupReg (p.parameters.length + p.results.length) (p.expr id).group).index

namespace Program

instance (p : Program) : Decidable p.BuffersInRange :=
  inferInstanceAs (Decidable (∀ id ∈ p.buffers, _))

theorem IsTarget.bank (h : p.IsTarget phys) : phys.bank = .gpr ∨ phys.bank = .vec := by
  cases h with
  | pointer => exact .inl rfl
  | buffer => exact .inl rfl
  | accumulator => exact .inr rfl

theorem IsTarget.nonneg (hb : p.BuffersInRange) (h : p.IsTarget phys) : 0 ≤ phys.index := by
  cases h with
  | pointer n => exact Int.natCast_nonneg n
  | buffer hid => exact hb _ hid
  | accumulator n => exact Int.natCast_nonneg n

/-- Registers do not matter for the place of buffers. -/
theorem BuffersInRange.congr {q : Program} (h : p.bare = q.bare) (hp : p.BuffersInRange) :
    q.BuffersInRange := by
  intro id hid
  rw [← group_congr h, ← parameters_congr h, ← results_congr h]
  exact hp id (buffers_congr h ▸ hid)

end Program

open Program

namespace Allocation.Chosen

variable {m : Machine} {w : Workspace}

/-- Every register with a live range is mapped. -/
theorem contains_regMap (h : Chosen m w a) (hr : w.live.ranges.contains r = true) :
    a.regMap.contains r = true := by
  rw [RegTable.contains, get?_regMap, Option.isSome_or]
  cases hm : a.manual.contains r with
  | true => simp [show (a.manual.get? r).isSome = true from hm]
  | false => simp [show (a.auto.get? r).isSome = true from (h.auto r).mpr ⟨hr, hm⟩]

/-- Every register is mapped into its pool. -/
theorem in_pool (h : Chosen m w a) (hb : w.program.BuffersInRange) (hr : a.regMap.get? r = some phys) :
    0 ≤ phys.index ∧ phys.index < m.poolSize phys.bank := by
  rw [get?_regMap, Option.or_eq_some_iff] at hr
  rcases hr with hr | ⟨_, hr⟩
  · obtain ⟨hbank, hrange, _⟩ := mem_freePool.mp (h.free r phys hr)
    exact hbank ▸ hrange
  · have ht := (regular_pins h.pins hr).2
    exact ⟨ht.nonneg hb, h.pinned r phys hr ht.bank⟩

/-- Registers that share a physical one have disjoint live ranges, unless both are pinned. -/
theorem clash_eq_none (h : Chosen m w a) (hne : x.1 ≠ y.1) (hx : w.live.ranges.get? x.1 = some x.2)
    (hy : w.live.ranges.get? y.1 = some y.2) (hxp : a.regMap.get? x.1 = some phys)
    (hyp : a.regMap.get? y.1 = some phys) : Workspace.clash a phys x y = none := by
  have hauto : ∀ z : Reg × Interval, w.live.ranges.get? z.1 = some z.2 →
      a.regMap.get? z.1 = some phys → a.manual.contains z.1 = false →
      a.auto.get? z.1 = some phys := by
    intro z hz hzp hm
    have hc := (h.auto z.1).mpr ⟨by simp [RegTable.contains, hz], hm⟩
    obtain ⟨phys', hp⟩ := Option.isSome_iff_exists.mp hc
    rw [get?_regMap_of_auto hp] at hzp
    exact hzp ▸ hp
  have hpinned : ∀ z : Reg × Interval, w.live.ranges.get? z.1 = some z.2 →
      a.regMap.get? z.1 = some phys → a.manual.contains z.1 = true →
      a.manual.get? z.1 = some phys := by
    intro z hz hzp hm
    obtain ⟨phys', hp⟩ := Option.isSome_iff_exists.mp hm
    rw [h.get?_regMap_of_pin hp] at hzp
    exact hzp ▸ hp
  unfold Workspace.clash isManual
  cases hxm : a.manual.contains x.1 with
  | true =>
    cases hym : a.manual.contains y.1 with
    | true => simp
    | false => exact absurd (hpinned x hx hxp hxm) (h.manual_ne_of_auto (hauto y hy hyp hym))
  | false =>
    cases hym : a.manual.contains y.1 with
    | true => exact absurd (hpinned y hy hyp hym) (h.manual_ne_of_auto (hauto x hx hxp hxm))
    | false =>
      have hover : x.2.overlaps y.2 = false := by
        rw [Bool.eq_false_iff]
        intro ho
        exact h.apart x.1 y.1 phys phys x.2 y.2 hne hx hy ho (hauto x hx hxp hxm)
          (hauto y hy hyp hym) rfl
      simp [hover]

end Allocation.Chosen

namespace Workspace

/-- Entries have no clashes when no two of them clash. -/
theorem clashes_eq_nil_iff {l : List (Reg × Interval)} :
    clashes a phys l = [] ↔ l.Pairwise fun x y => clash a phys x y = none := by
  induction l with
  | nil => exact ⟨fun _ => .nil, fun _ => rfl⟩
  | cons x l ih => rw [clashes, List.append_eq_nil_iff, List.filterMap_eq_nil_iff, ih, List.pairwise_cons]

/-- Two entries do not clash when both registers are fixed by conventions, or their intervals do not
overlap. -/
theorem clash_eq_none_iff :
    clash a phys x y = none ↔ (a.isManual x.1 ∧ a.isManual y.1) ∨ x.2.overlaps y.2 = false := by
  unfold clash
  split
  · rename_i hboth
    simp [hboth]
  · rename_i hboth
    cases x.2.overlaps y.2 <;> simp [hboth]

instance (a : Allocation) (phys : Reg) : Std.Symm fun x y => clash a phys x y = none where
  symm x y h := by
    rw [clash_eq_none_iff, Interval.overlaps_comm, And.comm] at h
    exact clash_eq_none_iff.mpr h

variable {m : Machine} {w w' : Workspace}

/-- Every input of the program has a register when all values have one. -/
theorem Ranged.isDefined_inputReg (hr : w.Ranged p) (hl : p.Linked) (hc : p.Closed)
    (hd : ∀ v, p.Owns v → (w.program.abstractReg v).isDefined = true) (hid : id ∈ p.order)
    (hk : p.HasUse ⟨id, k⟩) : (w.program.inputReg ⟨id, k⟩).isDefined = true := by
  have hi := List.getElem?_eq_getElem hk
  generalize (p.expr id).inputs[k] = i at hi
  have hu : (⟨id, k⟩ : UseRef) ∈ p.uses i.source := (hl id hid k i.source).mp (by rw [hi]; rfl)
  have hv : p.Owns i.source :=
    ⟨hc.sources id hid i (List.mem_of_getElem? hi), HasValue.of_mem_uses hu⟩
  rw [hr.agree i.source ⟨id, k⟩ hu hid (.inl hv.1)]
  exact hd i.source hv

/-- A port with an abstract register holds its physical register, which is in the pool. -/
theorem portViolations_eq_nil (hch : Allocation.Chosen m w a) (hb : w.program.BuffersInRange)
    (happ : a.regMap.AppliedOn w.program (fun _ id _ => id ∈ w.program.order) w'.program)
    (hid : id ∈ w.program.order) (hport : w'.program.portAt side id k = some port)
    (hd : port.abstract.isDefined = true) (name : Label) :
    portViolations m a.regMap name side k port = [] := by
  have hphys := happ.get?_eq hid hport hd
  have hpool := hch.in_pool hb hphys
  simp [portViolations, hd, hphys, hpool]

/-- Values are produced and consumed within their live ranges. -/
theorem positionViolations_eq_nil (hr : w.Ranged p) (he : p.Enumerated) (hl : p.Linked) (hf : p.Forward)
    (hc : p.Closed) (hs : p.SilentEmpty) (hbare : w'.program.bare = p.bare)
    (hregs : ∀ v, w'.program.abstractReg v = w.program.abstractReg v)
    (hranges : w'.live.ranges = w.live.ranges) {o : Output} (hid : id ∈ p.order)
    (ho : w'.program.output? ⟨id, k⟩ = some o) : w'.positionViolations (w'.program.expr id) k o = [] := by
  have hv : p.Owns ⟨id, k⟩ := ⟨hid, (hasValue_congr hbare _).mp (hasValue_iff.mpr ⟨o, ho⟩)⟩
  have hreg : o.port.abstract = w.program.abstractReg ⟨id, k⟩ := by
    rw [← hregs, abstractReg, ho]
  have huses : o.uses = p.uses ⟨id, k⟩ := by
    rw [← uses_congr hbare, uses, ho]
  unfold positionViolations
  by_cases hd : o.port.abstract.isDefined = true
  · obtain ⟨vs, range, horigin, hrange, hholders⟩ := hr.origin _ (.inl hid) (hreg ▸ hd)
    obtain ⟨hproduced, hconsumed⟩ :=
      horigin.contains he hl hf hc hs (hholders _ (.inl hid) rfl) hv
    simp only [hranges, hreg, hrange, exec_congr hbare, huses]
    rw [if_pos hproduced, List.nil_append]
    split
    · rfl
    · refine List.filterMap_eq_nil_iff.mpr fun u hu => ?_
      rw [if_pos (hconsumed u hu)]
  · split
    · rfl
    · simp [hd]

/-- Nothing is wrong with the ports and the positions of an expression. -/
theorem Ranged.exprViolations_eq_nil (hr : w.Ranged p) (he : p.Enumerated) (hl : p.Linked) (hf : p.Forward)
    (hc : p.Closed) (hs : p.SilentEmpty) (hb : p.BuffersInRange)
    (hdefined : ∀ v, p.Owns v → (w.program.abstractReg v).isDefined = true) (hch : Allocation.Chosen m w a)
    (happ : a.regMap.AppliedOn w.program (fun _ id _ => id ∈ w.program.order) w'.program)
    (hranges : w'.live.ranges = w.live.ranges) (hid : id ∈ p.order) :
    w'.exprViolations m a.regMap (w'.program.expr id) = [] := by
  have hbare : w'.program.bare = p.bare := happ.bare.trans hr.bare
  have hport : ∀ {side k port}, w'.program.portAt side id k = some port →
      port.abstract.isDefined = true → ∀ name, portViolations m a.regMap name side k port = [] :=
    fun hp hd =>
      portViolations_eq_nil hch (hb.congr hr.bare.symm) happ (order_congr hr.bare ▸ hid) hp hd
  rw [exprViolations, List.append_eq_nil_iff, List.flatMap_eq_nil_iff, List.flatMap_eq_nil_iff]
  constructor
  · rintro ⟨i, k⟩ hi
    rw [List.mem_zipIdx_iff_getElem?] at hi
    have hp : w'.program.portAt .input id k = some i.port := by rw [portAt, hi]; rfl
    refine hport hp ?_ _
    have huse : p.HasUse ⟨id, k⟩ := (hasUse_congr hbare _).mp (List.getElem?_eq_some_iff.mp hi).1
    have hd := hr.isDefined_inputReg hl hc hdefined hid huse
    rwa [← happ.inputReg_eq, inputReg_eq_portAt, hp] at hd
  · rintro ⟨o, k⟩ ho
    rw [List.mem_zipIdx_iff_getElem?] at ho
    have hp : w'.program.portAt .output id k = some o.port := by rw [portAt, ho]; rfl
    rw [List.append_eq_nil_iff]
    refine ⟨hport hp ?_ _, positionViolations_eq_nil hr he hl hf hc hs hbare
      happ.abstractReg_eq hranges hid ho⟩
    have hd := hdefined ⟨id, k⟩ ⟨hid, (hasValue_congr hbare _).mp (List.getElem?_eq_some_iff.mp ho).1⟩
    rwa [← happ.abstractReg_eq, abstractReg_eq_portAt, hp] at hd

/-- Nothing is wrong with an assignment to a program whose values have registers. -/
theorem Ranged.passes_check (hr : w.Ranged p) (he : p.Enumerated) (hl : p.Linked) (hf : p.Forward)
    (hc : p.Closed) (hs : p.SilentEmpty) (hb : p.BuffersInRange)
    (hdefined : ∀ v, p.Owns v → (w.program.abstractReg v).isDefined = true)
    (assigned : assign m w = .ok a w') : w'.violations m a = [] := by
  obtain ⟨hch, happ, hranges⟩ := assign_ok assigned
  have hbare : w'.program.bare = p.bare := happ.bare.trans hr.bare
  unfold violations
  rw [List.append_eq_nil_iff, List.append_eq_nil_iff]
  refine ⟨⟨?_, ?_⟩, ?_⟩
  · refine List.flatMap_eq_nil_iff.mpr fun e hmem => ?_
    obtain ⟨id, hid, rfl⟩ := List.mem_map.mp hmem
    exact hr.exprViolations_eq_nil he hl hf hc hs hb hdefined hch happ hranges
      (order_congr hbare ▸ hid)
  · rw [List.map_eq_nil_iff, List.filter_eq_nil_iff]
    intro r hr
    rw [RegTable.mem_keys_iff, hranges] at hr
    simp [hch.contains_regMap hr]
  · refine List.flatMap_eq_nil_iff.mpr fun phys _ => clashes_eq_nil_iff.mpr ?_
    refine List.Pairwise.imp_of_mem ?_ (w'.live.ranges.ascending.filter _)
    rintro x y hx hy hlt
    obtain ⟨hx, hxp⟩ := List.mem_filter.mp hx
    obtain ⟨hy, hyp⟩ := List.mem_filter.mp hy
    refine hch.clash_eq_none (fun he => Reg.lt_irrefl x.1 (he ▸ hlt)) ?_ ?_ (by simpa using hxp)
      (by simpa using hyp)
    · exact hranges ▸ RegTable.mem_entries_iff.mp hx
    · exact hranges ▸ RegTable.mem_entries_iff.mp hy

/-- A port with which nothing is wrong holds the register that it is mapped to, and no negative one. -/
theorem of_portViolations_eq_nil {map : RegMap} {name : Label}
    (h : portViolations m map name side k port = []) :
    map.get? port.abstract = some port.reg ∧ 0 ≤ port.reg.index := by
  unfold portViolations at h
  split at h
  · cases h
  · obtain ⟨hmapped, hpool⟩ := List.append_eq_nil_iff.mp h
    constructor
    · by_contra hne
      simp [hne] at hmapped
    · by_contra hne
      simp [hne] at hpool

/-- The check finds buffers that are not in range. -/
theorem buffersInRange_of_violations_eq_nil (hch : Allocation.Chosen m w a)
    (happ : a.regMap.AppliedOn w.program (fun _ id _ => id ∈ w.program.order) w'.program)
    (clean : w'.violations m a = []) : w.program.BuffersInRange := by
  intro id hid
  obtain ⟨v, houtput, hpin⟩ := (Fixes.memory hid List.mem_cons_self).output_pinned hch.pins
  obtain ⟨hvalue, rfl⟩ := output_zero_eq_ok.mp houtput
  obtain ⟨o, ho⟩ := hasValue_iff.mp ((hasValue_congr happ.bare _).mpr hvalue)
  have hmem : w'.program.expr id ∈ w'.program.list :=
    List.mem_map_of_mem (order_congr happ.bare ▸ List.mem_of_mem_filter hid)
  unfold violations at clean
  simp only [List.append_eq_nil_iff, List.flatMap_eq_nil_iff] at clean
  have hexpr := clean.1.1 _ hmem
  simp only [exprViolations, List.append_eq_nil_iff, List.flatMap_eq_nil_iff] at hexpr
  have hport := (hexpr.2 (o, 0) (List.mem_zipIdx_iff_getElem?.mpr ho)).1
  obtain ⟨hmapped, hnonneg⟩ := of_portViolations_eq_nil hport
  have habstract : o.port.abstract = w.program.abstractReg ⟨id, 0⟩ := by
    rw [← happ.abstractReg_eq, abstractReg, ho]
  rw [habstract, hch.get?_regMap_of_pin hpin] at hmapped
  exact (congrArg Reg.index (Option.some.inj hmapped)).symm ▸ hnonneg

/-- **Nothing is wrong with an assigned program.** Live ranges were computed for a program without
registers whose wiring is in order, and registers were assigned. -/
theorem violations_eq_nil {w₀ : Workspace} (fresh : w₀.program.Fresh) (linked : w₀.program.Linked)
    (forward : w₀.program.Forward) (grouped : w₀.program.Grouped) (closed : w₀.program.Closed)
    (silent : w₀.program.SilentEmpty) (buffers : w₀.program.BuffersInRange)
    (ranged : computeRanges w₀ = .ok () w) (assigned : assign m w = .ok a w') :
    w'.violations m a = [] := by
  obtain ⟨he, hr, hvisited⟩ := ranged_of_computeRanges fresh linked grouped ranged
  exact hr.passes_check he linked forward closed silent buffers
    (fun v hv => hvisited v hv (hv.not_isSilent silent)) assigned

end Workspace

/-- Copy five elements, four at once and then what is left. -/
def tiledCopy : Subgraph where
  name := "copy"
  ops := [
    { name := "source", kind := "Parameter", shape := some [5] },
    { name := "load", kind := "Load", inputs := ["source"] },
    { name := "store", kind := "Store", inputs := ["load"] },
    { name := "target", kind := "Result", inputs := ["store"] }]
  loops := [
    { first := "load", last := "store", work := 5, increment := 4
      entries := [{ port := "load.in0" }], exits := [{ port := "store.out0" }] }]

/-- The tiled copy, whose two stores form an alias group. -/
theorem violations_eq_nil_tiledCopy : ∃ w a w',
    Workspace.computeRanges { program := tiledCopy.lowered {} } = .ok () w ∧
      Workspace.assign (.x64 .avx2) w = .ok a w' ∧ w'.violations (.x64 .avx2) a = [] := by
  have hsome : (Workspace.allocated? (.x64 .avx2) { program := tiledCopy.lowered {} }).isSome = true := by
    decide +kernel
  obtain ⟨⟨w, a, w'⟩, h⟩ := Option.isSome_iff_exists.mp hsome
  obtain ⟨hr, ha⟩ := Workspace.allocated?_eq_some h
  refine ⟨w, a, w', hr, ha, Workspace.violations_eq_nil ?_ ?_ ?_ ?_ ?_ ?_ ?_ hr ha⟩
  all_goals decide +kernel

end TensorKernel
