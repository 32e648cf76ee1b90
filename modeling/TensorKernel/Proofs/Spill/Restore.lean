import TensorKernel.Proofs.Kernel.Finished
import TensorKernel.Proofs.Spill.Sufficient

/-!
# Brackets that undo their calls

The bracket of a call restores what is live at the call. That takes the place of a result of the call
exactly if the register of the result was live before: if another value of its alias group is produced
earlier. A result without aliases is never lost.
-/

namespace TensorKernel

open Program

namespace Workspace

variable {p : Program} {m : Machine} {w w' : Workspace} {a : Allocation} {v : ValueRef}

/-- A value whose register linear scan chose is on no boundary pointer: those are pinned. -/
theorem Ranged.not_mem_pointer (hr : w.Ranged p) (hg : p.Grouped) (hc : p.Closed)
    (hch : Allocation.Chosen m w a) (hv : p.Owns v)
    (hauto : a.auto.contains (w.program.abstractReg v) = true) {values : List ValueRef}
    (hp : p.IsPointer values) : v ∉ values.flatMap p.aliasGroup := by
  intro hmem
  obtain ⟨x, hx, hvx⟩ := List.mem_flatMap.mp hmem
  have hxv := hg.mem_symm hvx
  have hpinned := (hp.congr hr.bare.symm).contains_pins hch.pins hx
  rw [hr.uniform v x hxv hv.1 (hc.aliases v hv x hxv), ((hch.auto _).mp hauto).2] at hpinned
  cases hpinned

/-- A register that linear scan serves is live over the range of the alias group that holds it, from the
first producer of the group on. -/
theorem exists_first_of_auto (fresh : w₀.program.Fresh) (linked : w₀.program.Linked)
    (grouped : w₀.program.Grouped) (closed : w₀.program.Closed) (ranged : computeRanges w₀ = .ok () w)
    (hch : Allocation.Chosen m w a) (hv : w₀.program.Owns v)
    (hauto : a.auto.contains (w.program.abstractReg v) = true) :
    ∃ first ∈ w₀.program.aliasGroup v, w₀.program.Owns first ∧
      ¬ w₀.program.IsSilent first.producer ∧
      (∀ x ∈ w₀.program.aliasGroup v, w₀.program.Owns x → ¬ w₀.program.IsSilent x.producer →
        (w₀.program.expr first.producer).exec ≤ (w₀.program.expr x.producer).exec) ∧
      w.live.ranges.get? (w.program.abstractReg v) = some (w₀.program.groupRange first) := by
  obtain ⟨he, hr, _⟩ := ranged_of_computeRanges fresh linked grouped ranged
  have hd := isDefined_of_auto hch hauto
  obtain ⟨vs, range, horigin, hrange, hholders⟩ := hr.origin v (.inl hv.1) hd
  have hvmem := hholders v (.inl hv.1) rfl
  rcases range_cases fresh linked grouped ranged (unrecorded_of_computeRanges fresh ranged hv hd) hrange with
    ⟨_, _, values, hp, hpointer⟩ | ⟨_, first, hmet⟩
  · exact absurd (hpointer v (.inl hv.1) rfl) (hr.not_mem_pointer grouped closed hch hv hauto hp)
  · have hmem : first ∈ w₀.program.aliasGroup v := by
      have hfirst := hholders first (.inl hmet.owns.1) hmet.holds
      cases horigin with
      | pointer hp => exact absurd hvmem (hr.not_mem_pointer grouped closed hch hv hauto hp)
      | group _ _ => rwa [grouped.aliasGroup_eq hvmem]
    refine ⟨first, hmem, hmet.owns, hmet.not_isSilent, fun x hx => hmet.first x ?_, hmet.range ▸ hrange⟩
    rwa [grouped.aliasGroup_eq hmem]

/-- The physical register of a result of a call is live at the call exactly if another value of its
group was produced before. -/
theorem mem_live_iff_of_auto (fresh : w₀.program.Fresh) (linked : w₀.program.Linked)
    (grouped : w₀.program.Grouped) (closed : w₀.program.Closed) (ranged : computeRanges w₀ = .ok () w)
    (assigned : assign m w = .ok a w') (hv : w₀.program.Owns v)
    (hns : ¬ w₀.program.IsSilent v.producer) {phys : Reg}
    (hauto : a.auto.get? (w.program.abstractReg v) = some phys) :
    ∃ regs, w'.live.set? v.producer = some regs ∧
      (phys ∈ regs ↔ ∃ x ∈ w₀.program.aliasGroup v, w₀.program.Owns x ∧
        ¬ w₀.program.IsSilent x.producer ∧
        (w₀.program.expr x.producer).exec < (w₀.program.expr v.producer).exec) := by
  obtain ⟨he, hr, _⟩ := ranged_of_computeRanges fresh linked grouped ranged
  obtain ⟨hch, happ, _⟩ := assign_ok assigned
  have horder : w.program.order = w₀.program.order := order_congr hr.bare
  have hcontains : a.auto.contains (w.program.abstractReg v) = true := by
    rw [RegTable.contains, hauto]
    rfl
  obtain ⟨first, hmem, howns, hfns, hfirst, hrange⟩ :=
    exists_first_of_auto fresh linked grouped closed ranged hch hv hcontains
  obtain ⟨set, hset, hlive⟩ := live_of_computeRanges ranged hv.1
  have hlive := hlive.mem_iff hns
  obtain ⟨regs, hregs, htranslate⟩ := assign_live assigned (horder ▸ he.nodup) (horder ▸ hv.1) hset
  have hself := (grouped v hv.2).1
  have hstart := hfirst v hself hv hns
  have hstop : (w₀.program.expr v.producer).exec ≤ (w₀.program.groupRange first).stop := by
    have hin : v ∈ w₀.program.aliasGroup first := grouped.mem_symm hmem
    exact Int.le_trans (w₀.program.exec_le_lastUse v) (lastUse_le_groupRange hin)
  refine ⟨regs, hregs, (RegMap.mem_translate htranslate).trans ⟨?_, ?_⟩⟩
  · rintro ⟨r, hmember, hphys⟩
    obtain ⟨hnew, i, hi, hige, hbegin⟩ := (hlive r).mp hmember
    by_cases hsame : r = w.program.abstractReg v
    · subst hsame
      obtain rfl : i = w₀.program.groupRange first := Option.some.inj (hi.symm.trans hrange)
      refine ⟨first, hmem, howns, hfns, hbegin.resolve_right fun hgives => ?_⟩
      rcases range_cases fresh linked grouped ranged hnew hi with ⟨_, _, values, hp, hholders⟩ | ⟨hno, _⟩
      · exact hr.not_mem_pointer grouped closed hch hv hcontains hp (hholders v (.inl hv.1) rfl)
      · exact hno hgives
    · -- Another register that is live here was kept apart, by linear scan or as a pin.
      exfalso
      cases hother : a.auto.get? r with
      | none =>
        rw [Allocation.get?_regMap, hother, Option.none_or] at hphys
        exact hch.manual_ne_of_auto hauto hphys
      | some y =>
        obtain rfl : y = phys :=
          Option.some.inj ((Allocation.get?_regMap_of_auto hother).symm.trans hphys)
        refine hch.apart _ _ _ _ _ _ hsame hi hrange ?_ hother hauto rfl
        have hile : i.start ≤ (w₀.program.expr v.producer).exec := by
          rcases hbegin with hlt | ⟨n, hgives⟩
          · exact Int.le_of_lt hlt
          · cases (get?_of_givesPointer ranged hgives).2.symm.trans hi
            exact (he.exec_mem hv.1).1
        simp only [Interval.overlaps, Bool.and_eq_true, decide_eq_true_eq]
        exact ⟨Int.le_trans hile hstop, Int.le_trans hstart hige⟩
  · rintro ⟨x, hx, hxo, hxs, hlt⟩
    have hnew := unrecorded_of_computeRanges fresh ranged hv (isDefined_of_auto hch hcontains)
    have hbegin := Int.lt_of_le_of_lt (hfirst x hx hxo hxs) hlt
    exact ⟨_, (hlive _).mpr ⟨hnew, _, hrange, hstop, .inl hbegin⟩, Allocation.get?_regMap_of_auto hauto⟩

end Workspace

namespace Subgraph

/-- **What a bracket undoes.** The bracket of a call restores the register of a result of the call, if
linear scan chose it, exactly when another value of the alias group of the result is produced before the
call. -/
theorem mem_restored_iff {sg : Subgraph} {p q : Program} {m : Machine} {options : CompileOptions}
    {kernel : Kernel} (built : sg.build = .ok p) (compiled : Kernel.compile m options p = .ok kernel q)
    (spills : options.noSpills = false) {v : ValueRef} (hv : kernel.program.Owns v)
    (hcall : (kernel.program.expr v.producer).role = .externalCall)
    (hauto : kernel.allocation.auto.contains (kernel.program.abstractReg v) = true) :
    ∃ closing regs, [v.producer, closing] <:+: kernel.program.order ∧
      (kernel.program.expr closing).role = .regSpillEnd ∧
      (kernel.program.expr closing).spilled = some regs ∧
      (kernel.program.physReg v ∈ regs ↔ ∃ x ∈ kernel.program.aliasGroup v,
        ¬ kernel.program.IsSilent x.producer ∧
        (kernel.program.expr x.producer).exec < (kernel.program.expr v.producer).exec) := by
  obtain ⟨u, r, w, stages⟩ := Kernel.compile_eq_ok compiled
  have hf := stages.finished (settled_of_lowerLoops built stages.lowered)
  have hs := hf.settled
  have hv₀ := hf.owns hv
  have hin := hv₀.1
  have hns : ¬ u.program.enumerate.IsSilent v.producer := by
    rw [IsSilent, ← hf.role hin, hcall]
    decide
  rw [hf.abstractReg] at hauto
  obtain ⟨phys, hphys⟩ := Option.isSome_iff_exists.mp hauto
  have hreg : kernel.program.physReg v = phys :=
    Option.some.inj ((hf.get?_physReg hv₀ (Workspace.isDefined_of_auto hf.chosen hauto)).symm.trans
      (Allocation.get?_regMap_of_auto hphys))
  obtain ⟨regs, hregs, hiff⟩ := Workspace.mem_live_iff_of_auto hs.wired.fresh hs.wired.toLinked
    hs.wired.grouped hs.closed stages.ranged stages.assigned hv₀ hns hphys
  have hrole : (w.program.expr v.producer).role = .externalCall := by
    rw [role_congr hf.bare, ← hf.role hin, hcall]
  obtain ⟨b, hb, hbcall⟩ := (stages.bracketed hf.enumerated_bare).2 spills _ (hf.order ▸ hin) hrole
  obtain ⟨regs', hsaves⟩ := hf.bracketed.saves b hb
  have hlive := hsaves.live
  rw [hbcall, hregs] at hlive
  cases hlive
  have hinfix := hf.bracketed.around_infix hb
  rw [hbcall] at hinfix
  refine ⟨b.closing, regs, (List.suffix_cons _ _).isInfix.trans hinfix, hsaves.closing.role,
    hsaves.closing.spilled, ?_⟩
  rw [hreg, hiff, hf.aliasGroup]
  refine exists_congr fun x => and_congr_right fun hx => ?_
  have hxo : u.program.enumerate.Owns x :=
    ⟨hs.closed.aliases v hv₀ x hx, ((hs.wired.grouped v hv₀.2).2 x hx).1⟩
  rw [hf.exec_lt_iff hxo.1 hin, IsSilent, IsSilent, hf.role hxo.1]
  exact ⟨fun hx => hx.2, fun hx => ⟨hxo, hx⟩⟩

end Subgraph

/-- A call in every round of a loop, whose result is stored behind the loop. -/
def loopedCall : Subgraph where
  name := "looped"
  ops := [
    { name := "source", kind := "Parameter", shape := some [9] },
    { name := "call", kind := "ExternalCall", inputs := ["source"] },
    { name := "store", kind := "Store", inputs := ["call"] },
    { name := "target", kind := "Result", inputs := ["store"] }]
  loops := [
    { first := "call", last := "call", work := 9, increment := 4
      entries := [{ port := "call.in0" }], exits := [{ port := "call.out0" }] }]

/-- The call in the last rounds shares a register with its copy in the earlier rounds, so its result is
lost. -/
theorem mem_restored_iff_loopedCall : ∃ p kernel q closing regs, loopedCall.build = .ok p ∧
    Kernel.compile (.x64 .avx2) {} p = .ok kernel q ∧ [1, closing] <:+: kernel.program.order ∧
      (kernel.program.expr closing).role = .regSpillEnd ∧
      (kernel.program.expr closing).spilled = some regs ∧ kernel.program.physReg ⟨1, 0⟩ ∈ regs := by
  have hsome : ((Kernel.ofSubgraph? (.x64 .avx2) {} loopedCall).any fun kernel =>
      kernel.program.Owns ⟨1, 0⟩ ∧ (kernel.program.expr 1).role = .externalCall ∧
        kernel.allocation.auto.contains (kernel.program.abstractReg ⟨1, 0⟩) = true ∧
        ⟨7, 0⟩ ∈ kernel.program.aliasGroup ⟨1, 0⟩ ∧ ¬ kernel.program.IsSilent 7 ∧
        (kernel.program.expr 7).exec < (kernel.program.expr 1).exec) = true := by
    decide +kernel
  obtain ⟨p, kernel, q, hbuild, hcompile, howns, hrole, hauto, halias, hsilent, hlt⟩ :=
    Kernel.exists_of_any hsome
  obtain ⟨closing, regs, hinfix, hclosing, hspilled, hiff⟩ :=
    Subgraph.mem_restored_iff hbuild hcompile rfl howns hrole hauto
  exact ⟨p, kernel, q, closing, regs, hbuild, hcompile, hinfix, hclosing, hspilled,
    hiff.mpr ⟨_, halias, hsilent, hlt⟩⟩

end TensorKernel
