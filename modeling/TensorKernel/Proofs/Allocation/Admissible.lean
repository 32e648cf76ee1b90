import Mathlib.Data.List.Pairwise
import TensorKernel.Proofs.Allocation.Check

/-!
# What the check decides

The check walks over the ports, the live ranges and the physical registers that several registers
share, and collects what is wrong. It collects nothing exactly when the allocation is admissible, and
what this means is said here without the walk. Nothing is asked of the program, of the live ranges or of
the allocation.
-/

namespace TensorKernel

open Program

variable {id : ExprId} {k : Nat} {port : Port} {side : Side}

/-- One of the two intervals lies before the other. -/
def Interval.Apart (i j : Interval) : Prop := i.stop < j.start ∨ j.stop < i.start

theorem Interval.overlaps_eq_false_iff {i j : Interval} : i.overlaps j = false ↔ i.Apart j := by
  simp only [overlaps, Apart, Bool.and_eq_false_iff, decide_eq_false_iff_not]
  omega

/-- A port has an abstract register and holds the physical one that it is mapped to, which is in its
pool. -/
structure Port.Placed (m : Machine) (map : RegMap) (port : Port) : Prop where
  isDefined : port.abstract.isDefined = true
  mapped : map.get? port.abstract = some port.reg
  nonneg : 0 ≤ port.reg.index
  lt_poolSize : port.reg.index < m.poolSize port.reg.bank

namespace Workspace

/-- What an allocation has to be for the program and its live ranges. -/
structure Admissible (w : Workspace) (m : Machine) (a : Allocation) : Prop where
  /-- Every port holds its register. -/
  placed : ∀ id ∈ w.program.order, ∀ side k port, w.program.portAt side id k = some port →
    port.Placed m a.regMap
  /-- A value whose register has a live range is produced and consumed within it. -/
  within : ∀ id ∈ w.program.order, ∀ k o range, w.program.output? ⟨id, k⟩ = some o →
    w.live.ranges.get? o.port.abstract = some range →
    range.contains (w.program.expr id).exec = true ∧
      ∀ u ∈ o.uses, range.contains (w.program.expr u.consumer).exec = true
  /-- Every register with a live range is mapped. -/
  mapped : ∀ r, w.live.ranges.contains r = true → a.regMap.contains r = true
  /-- Two registers share a physical one only while one of them is not live, or when both are fixed by
  conventions. -/
  apart : ∀ r s i j phys, r ≠ s → w.live.ranges.get? r = some i → w.live.ranges.get? s = some j →
    a.regMap.get? r = some phys → a.regMap.get? s = some phys →
    (a.isManual r ∧ a.isManual s) ∨ i.Apart j

variable {w : Workspace} {m : Machine} {a : Allocation}

theorem portViolations_eq_nil_iff {map : RegMap} {name : Label} :
    portViolations m map name side k port = [] ↔ port.Placed m map := by
  unfold portViolations
  constructor
  · intro h
    split at h
    · cases h
    · rename_i hdefined
      obtain ⟨hmapped, hpool⟩ := List.append_eq_nil_iff.mp h
      rw [ite_eq_left_iff] at hmapped hpool
      have hmapped : map.get? port.abstract = some port.reg := by simpa using hmapped
      have hpool : 0 ≤ port.reg.index ∧ port.reg.index < m.poolSize port.reg.bank := by
        simpa using hpool
      exact ⟨by simpa using hdefined, hmapped, hpool.1, hpool.2⟩
  · rintro ⟨hdefined, hmapped, hnonneg, hlt⟩
    simp [hdefined, hmapped, hnonneg, hlt]

/-- Nothing is wrong with the positions of an output that has a register when they lie within the live
range, if there is one. -/
theorem positionViolations_eq_nil_iff {e : Expr} {o : Output} (hdefined : o.port.abstract.isDefined = true) :
    w.positionViolations e k o = [] ↔ ∀ range, w.live.ranges.get? o.port.abstract = some range →
      range.contains e.exec = true ∧
        ∀ u ∈ o.uses, range.contains (w.program.expr u.consumer).exec = true := by
  unfold positionViolations
  cases w.live.ranges.get? o.port.abstract with
  | none => simp
  | some range => simp [hdefined, List.filterMap_eq_nil_iff]

/-- Nothing is wrong with an expression when its ports hold their registers and its values are produced
and consumed within their live ranges. -/
theorem exprViolations_eq_nil_iff :
    w.exprViolations m a.regMap (w.program.expr id) = [] ↔
      (∀ side k port, w.program.portAt side id k = some port → port.Placed m a.regMap) ∧
      ∀ k o range, w.program.output? ⟨id, k⟩ = some o →
        w.live.ranges.get? o.port.abstract = some range →
        range.contains (w.program.expr id).exec = true ∧
          ∀ u ∈ o.uses, range.contains (w.program.expr u.consumer).exec = true := by
  have hinput : ∀ k i, (w.program.expr id).inputs[k]? = some i →
      w.program.portAt .input id k = some i.port := fun k i hi => by rw [portAt, hi, Option.map_some]
  have houtput : ∀ k o, (w.program.expr id).outputs[k]? = some o →
      w.program.portAt .output id k = some o.port := fun k o ho => by rw [portAt, ho, Option.map_some]
  rw [exprViolations, List.append_eq_nil_iff, List.flatMap_eq_nil_iff, List.flatMap_eq_nil_iff]
  simp only [Prod.forall, List.mem_zipIdx_iff_getElem?, List.append_eq_nil_iff,
    portViolations_eq_nil_iff]
  constructor
  · rintro ⟨hinputs, houtputs⟩
    refine ⟨fun side k port hport => ?_, fun k o range ho => ?_⟩
    · cases side with
      | input =>
        obtain ⟨i, hi, rfl⟩ := Option.map_eq_some_iff.mp hport
        exact hinputs i k hi
      | output =>
        obtain ⟨o, ho, rfl⟩ := Option.map_eq_some_iff.mp hport
        exact (houtputs o k ho).1
    · obtain ⟨hplaced, hpositions⟩ := houtputs o k ho
      exact (positionViolations_eq_nil_iff hplaced.isDefined).mp hpositions range
  · rintro ⟨hplaced, hwithin⟩
    refine ⟨fun i k hi => hplaced _ _ _ (hinput k i hi), fun o k ho => ?_⟩
    have hport := hplaced _ _ _ (houtput k o ho)
    exact ⟨hport, (positionViolations_eq_nil_iff hport.isDefined).mpr fun range => hwithin k o range ho⟩

/-- If nothing is wrong then every port holds its register. -/
theorem placed_of_violations_eq_nil (h : w.violations m a = []) (hid : id ∈ w.program.order)
    (hport : w.program.portAt side id k = some port) : port.Placed m a.regMap := by
  rw [violations, List.append_eq_nil_iff, List.append_eq_nil_iff] at h
  have hexpr := List.flatMap_eq_nil_iff.mp h.1.1 _ (List.mem_map_of_mem hid)
  exact (exprViolations_eq_nil_iff.mp hexpr).1 side k port hport

/-- The registers that share a physical register do not clash when any two of them have intervals
apart, or are both fixed by conventions. -/
theorem sharedRegs_clashes_eq_nil_iff :
    ((w.sharedRegs a.regMap).toList.flatMap fun phys => clashes a phys
      (w.live.ranges.entries.filter fun (r, _) => a.regMap.get? r = some phys)) = [] ↔
    ∀ r s i j phys, r ≠ s → w.live.ranges.get? r = some i → w.live.ranges.get? s = some j →
      a.regMap.get? r = some phys → a.regMap.get? s = some phys →
      (a.isManual r ∧ a.isManual s) ∨ i.Apart j := by
  rw [List.flatMap_eq_nil_iff]
  have hmem : ∀ {x : Reg × Interval} {phys : Reg}, x ∈ w.live.ranges.entries.filter
      (fun (r, _) => a.regMap.get? r = some phys) ↔
        w.live.ranges.get? x.1 = some x.2 ∧ a.regMap.get? x.1 = some phys := by
    intro x phys
    rw [List.mem_filter, decide_eq_true_eq, RegTable.mem_entries_iff]
  constructor
  · intro h r s i j phys hne hr hs hrp hsp
    have hphys : phys ∈ (w.sharedRegs a.regMap).toList := by
      rw [← RegSet.mem_def, sharedRegs, RegSet.mem_ofList, List.mem_filterMap]
      exact ⟨r, RegTable.mem_keys_iff.mpr (by rw [RegTable.contains, hr]; rfl), hrp⟩
    have hpairs := clashes_eq_nil_iff.mp (h phys hphys)
    have hpair : (r, i) ≠ (s, j) := fun he => hne (Prod.mk.inj he).1
    have hclash := hpairs.forall (hmem.mpr ⟨hr, hrp⟩) (hmem.mpr ⟨hs, hsp⟩) hpair
    rwa [clash_eq_none_iff, Interval.overlaps_eq_false_iff] at hclash
  · intro h phys _
    refine clashes_eq_nil_iff.mpr (List.Pairwise.imp_of_mem ?_ (w.live.ranges.ascending.filter _))
    intro x y hx hy hlt
    obtain ⟨hxr, hxp⟩ := hmem.mp hx
    obtain ⟨hyr, hyp⟩ := hmem.mp hy
    rw [clash_eq_none_iff, Interval.overlaps_eq_false_iff]
    exact h _ _ _ _ phys (fun he => Reg.lt_irrefl x.1 (he ▸ hlt)) hxr hyr hxp hyp

/-- **The check finds nothing wrong exactly with the admissible allocations.** -/
theorem violations_eq_nil_iff_admissible (w : Workspace) (m : Machine) (a : Allocation) :
    w.violations m a = [] ↔ w.Admissible m a := by
  have hexprs : w.program.list.flatMap (w.exprViolations m a.regMap) = [] ↔
      ∀ id ∈ w.program.order, w.exprViolations m a.regMap (w.program.expr id) = [] := by
    rw [List.flatMap_eq_nil_iff, Program.list, List.forall_mem_map]
  have hkeys : (w.live.ranges.keys.filter fun r => !a.regMap.contains r).map Violation.unmapped = [] ↔
      ∀ r, w.live.ranges.contains r = true → a.regMap.contains r = true := by
    simp only [List.map_eq_nil_iff, List.filter_eq_nil_iff, RegTable.mem_keys_iff, Bool.not_eq_true',
      Bool.not_eq_false]
  rw [violations, List.append_eq_nil_iff, List.append_eq_nil_iff, hexprs, hkeys,
    sharedRegs_clashes_eq_nil_iff]
  simp only [exprViolations_eq_nil_iff]
  constructor
  · rintro ⟨⟨hports, hmapped⟩, hapart⟩
    exact ⟨fun id hid => (hports id hid).1, fun id hid => (hports id hid).2, hmapped, hapart⟩
  · rintro ⟨hplaced, hwithin, hmapped, hapart⟩
    exact ⟨⟨fun id hid => ⟨hplaced id hid, hwithin id hid⟩, hmapped⟩, hapart⟩

end Workspace

end TensorKernel
