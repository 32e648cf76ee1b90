import TensorKernel.Proofs.Allocation.Admissible
import TensorKernel.Proofs.Allocation.Atomic
import TensorKernel.Proofs.Allocation.Optimal
import TensorKernel.Proofs.Allocation.Pinned
import TensorKernel.Proofs.Kernel.Edited
import TensorKernel.Proofs.Kernel.Finished
import TensorKernel.Proofs.Spill.Checked

/-!
# No phantom registers

A register with a live range is held by an output of the program, a physical register that the register
map names is held by a port, and a kernel preserves exactly those of them that its caller relies on. A
register might lose its holder when another boundary pointer or another group takes the value over. But
a group takes a register only when it has none, and pointers that share a value cannot both be pinned.
-/

namespace TensorKernel

open Program

variable {range : Interval} {views : List ValueRef} {port : Port} {p : Program} {phys r : Reg} {pins : RegMap}
  {first : ValueRef} {w : Workspace}

namespace Program

variable {q : Program}

/-- The values that the program reads are its own. -/
def SelfContained (p : Program) : Prop :=
  ∀ id ∈ p.order, ∀ i ∈ (p.expr id).inputs, p.HasValue i.source → i.source.producer ∈ p.order

/-- Registers do not matter for what is read. -/
theorem SelfContained.congr (h : p.bare = q.bare) (hp : p.SelfContained) : q.SelfContained := by
  intro id hid i hi hvalue
  have hsource : i.source ∈ (p.expr id).inputs.map (·.source) := by
    rw [sources_congr h]
    exact List.mem_map_of_mem hi
  obtain ⟨j, hj, hsame⟩ := List.mem_map.mp hsource
  have hmem := hp id (order_congr h ▸ hid) j hj (hsame ▸ (hasValue_congr h i.source).mpr hvalue)
  rw [hsame, order_congr h] at hmem
  exact hmem

/-- What a boundary pointer of a self-contained program begins with is produced by the program. -/
theorem IsPointer.mem_order_first (contained : p.SelfContained) (h : p.IsPointer (first :: views))
    (hvalue : p.HasValue first) : first.producer ∈ p.order := by
  rcases h.first_cases with ⟨id, hid, rfl, _⟩ | ⟨id, hid, i, hi, rfl⟩
  · exact hid
  · exact contained id hid i hi hvalue

/-- If conventions can be kept then boundary pointers begin with values that exist. -/
theorem IsPointer.hasValue_of_pins (hpins : p.pins = .ok pins) (h : p.IsPointer (first :: views)) :
    p.HasValue first :=
  .of_isDefined (exists_of_contains_pins hpins (h.contains_pins hpins List.mem_cons_self)).1

end Program

/-! ### Registers with live ranges -/

namespace RangeState

variable {s s₀ u : RangeState} {done done' : List ExprId} {current current' : Option (ExprId × Nat)}

/-- Every register with a live range belongs to a boundary pointer, from which another pointer may have
taken it, or to the whole group of an output that was looked at. -/
def Kept (p : Program) (done : List ExprId) (current : Option (ExprId × Nat)) (s : RangeState) : Prop :=
  ∀ r, s.live.ranges.contains r = true →
    (∃ first views, p.IsPointer (first :: views) ∧ s.Stays p first views r) ∨
    ∃ v, p.Owns v ∧ Passed done current v ∧ ∀ x ∈ p.aliasGroup v, s.program.abstractReg x = r

/-- Registers stay where they are when live sets are recorded and more is looked at. -/
theorem Kept.mono {t : RangeState} (h : s.Kept p done current) (hprogram : t.program = s.program)
    (hranges : t.live.ranges = s.live.ranges)
    (hpassed : ∀ v, Passed done current v → Passed done' current' v) : t.Kept p done' current' := by
  intro r hr
  rw [hranges] at hr
  rcases h r hr with ⟨first, views, hpointer, hstays⟩ | ⟨v, hv, hp, hgroup⟩
  · refine .inl ⟨first, views, hpointer, ?_, ?_, ?_⟩ <;> rw [hprogram]
    exacts [hstays.uniform, hstays.isDefined, hstays.same]
  · rw [← hprogram] at hgroup
    exact .inr ⟨v, hv, hpassed v hp, hgroup⟩

/-- A boundary pointer gets a register before any output was looked at. -/
theorem Kept.pointer (grouped : p.Grouped)
    (hvalue : ∀ first views, p.IsPointer (first :: views) → p.HasValue first)
    (hbare : s.program.bare = p.bare) (h : s.Kept p [] none) {values : List ValueRef}
    (hpointer : p.IsPointer values)
    (hnone : ∀ x ∈ values.head?, (s.program.abstractReg x).isDefined = false) :
    (s.handOut .gpr (values.flatMap p.aliasGroup) range).Kept p [] none := by
  intro r hr
  rcases contains_handOut.mp hr with rfl | hr
  · obtain ⟨first, views, rfl⟩ := hpointer.exists_first
    have hfirst := hvalue first views hpointer
    refine .inl ⟨first, views, hpointer, .of_mem grouped hbare (by decide) (closed_flatMap grouped _) ?_
      hfirst (.inl rfl)⟩
    exact List.mem_flatMap.mpr ⟨first, List.mem_cons_self, (grouped first hfirst).1⟩
  · rcases h r hr with ⟨first, views, hfirst, hstays⟩ | ⟨v, _, hpassed, _⟩
    · exact .inl ⟨first, views, hfirst,
        hstays.pointer grouped (hvalue first views hfirst) hbare hpointer hnone⟩
    · simp [Passed] at hpassed

/-- A group without a register gets one when an output of it is looked at. -/
theorem Kept.give (grouped : p.Grouped)
    (hvalue : ∀ first views, p.IsPointer (first :: views) → p.HasValue first)
    (hbare : s.program.bare = p.bare) (hdefined : ∀ r, s.live.ranges.contains r = true → r.isDefined = true)
    (h : s.Kept p done current) {v : ValueRef} (hv : p.Owns v) (hpassed : Passed done current v)
    (hnone : (s.program.abstractReg v).isDefined = false) {bank : Bank} :
    (s.handOut bank (p.aliasGroup v) range).Kept p done current := by
  have hreg : ∀ x, (s.handOut bank (p.aliasGroup v) range).program.abstractReg x =
      if x ∈ p.aliasGroup v ∧ s.program.HasValue x then ⟨bank, s.counts bank⟩
      else s.program.abstractReg x := fun x => s.program.abstractReg_giveAll ..
  intro r hr
  rcases contains_handOut.mp hr with rfl | hr
  · refine .inr ⟨v, hv, hpassed, fun x hx => ?_⟩
    rw [hreg, if_pos ⟨hx, (hasValue_congr hbare x).mpr ((grouped v hv.2).2 x hx).1⟩]
  · rcases h r hr with ⟨first, views, hfirst, hstays⟩ | ⟨y, hy, hypassed, hgroup⟩
    · exact .inl ⟨first, views, hfirst, hstays.give grouped (hvalue first views hfirst) hnone⟩
    · refine .inr ⟨y, hy, hypassed, fun x hx => ?_⟩
      rw [hreg, if_neg fun hboth => ?_, hgroup x hx]
      -- The group of `v` would be that of `y`, which has a register.
      have hsame := (grouped.aliasGroup_eq hboth.1).symm.trans (grouped.aliasGroup_eq hx)
      rw [hgroup v (hsame ▸ (grouped v hv.2).1), hdefined r hr] at hnone
      cases hnone

/-- In every state of the computation the registers with live ranges have their values. -/
theorem Reached.kept (grouped : p.Grouped)
    (hvalue : ∀ first views, p.IsPointer (first :: views) → p.HasValue first)
    (hs : s₀.program.bare = p.bare) (hnew : s₀.live.ranges = ∅) (h : Reached p s₀ u done current s) :
    s.Kept p done current := by
  have hdefined : ∀ {u s : RangeState} {done current}, Reached p s₀ u done current s →
      ∀ r, s.live.ranges.contains r = true → r.isDefined = true := by
    intro u s done current hreached r hr
    obtain ⟨i, hi⟩ := Option.isSome_iff_exists.mp hr
    rcases hreached.banked hnew hi with hbank | hbank <;> simp [Reg.isDefined, hbank]
  induction h with
  | start =>
    intro r hr
    rw [hnew] at hr
    cases hr
  | pointer hreached hpointer hnone _ ih =>
    exact ih.pointer grouped hvalue (hreached.bare hs) hpointer hnone
  | silent _ _ _ ih =>
    refine ih.mono rfl rfl fun v hp => ?_
    rcases hp with hp | ⟨_, hcurrent, _⟩
    · exact .inl (List.mem_append_left _ hp)
    · cases hcurrent
  | enter _ _ _ ih =>
    refine ih.mono rfl rfl fun v hp => ?_
    rcases hp with hp | ⟨_, hcurrent, _⟩
    · exact .inl hp
    · cases hcurrent
  | keep _ _ _ ih => exact ih.mono rfl rfl fun _ => passed_mono
  | @give done id k _ s hreached hvalue' hnone _ _ ih =>
    obtain ⟨_, rest, horder⟩ := hreached.current
    exact (ih.mono rfl rfl fun _ => passed_mono).give grouped hvalue (hreached.bare hs) (hdefined hreached)
      ⟨by simp [horder], hvalue'⟩ (.inr ⟨k + 1, rfl, Nat.lt_succ_self k⟩) hnone
  | @leave done id _ s hreached ih =>
    refine ih.mono rfl rfl fun v hp => .inl ?_
    rcases hp with hp | ⟨k, hcurrent, _⟩
    · exact List.mem_append_left _ hp
    · cases hcurrent
      exact List.mem_append_right _ (List.mem_singleton.mpr rfl)

end RangeState

/-- Every register with a live range is held by a value of the program, if the program is self-contained
and conventions can be kept. -/
theorem Workspace.exists_holder (grouped : p.Grouped) (ranged : computeRanges { program := p } = .ok () w)
    (contained : w.program.SelfContained) (hpins : w.program.pins = .ok pins)
    (hr : w.live.ranges.contains r = true) : ∃ x, w.program.Owns x ∧ w.program.abstractReg x = r := by
  obtain ⟨_, s, u, rfl, _, hreached⟩ := reached_of_computeRanges ranged
  have hbare : s.program.bare = p.bare := hreached.bare rfl
  have hvalue : ∀ first views, p.IsPointer (first :: views) → s.program.HasValue first :=
    fun first views hpointer => (hpointer.congr hbare.symm).hasValue_of_pins hpins
  have hkept := hreached.kept grouped
    (fun first views hpointer => (hasValue_congr hbare first).mp (hvalue first views hpointer)) rfl rfl
  rcases hkept r hr with ⟨first, views, hpointer, hstays⟩ | ⟨v, hv, _, hgroup⟩
  · have hfirst := hvalue first views hpointer
    exact ⟨first, ⟨(hpointer.congr hbare.symm).mem_order_first contained hfirst, hfirst⟩,
      hstays.abstractReg_eq grouped hbare hpointer hpins⟩
  · refine ⟨v, ⟨?_, (hasValue_congr hbare v).mpr hv.2⟩, hgroup v (grouped v hv.2).1⟩
    rw [order_congr hbare]
    exact hv.1

/-! ### Pinned registers -/

/-- Every physical register that a convention fixes gets a value of the program: a parameter and a buffer show
theirs, and a result and a reduction read theirs. -/
theorem Program.exists_owns_of_pins (contained : p.SelfContained) (h : p.pins = .ok pins)
    (hr : pins.get? r = some phys) : ∃ x, p.Owns x ∧ pins.get? (p.abstractReg x) = some phys := by
  have houtput : ∀ {x}, x ∈ p.order → p.Fixes .output x 0 phys →
      ∃ x, p.Owns x ∧ pins.get? (p.abstractReg x) = some phys := by
    intro x hx hfixes
    obtain ⟨v, hv, hpin⟩ := hfixes.output_pinned h
    obtain ⟨hvalue, rfl⟩ := output_zero_eq_ok.mp hv
    exact ⟨_, ⟨hx, hvalue⟩, hpin⟩
  have hinput : ∀ {x}, x ∈ p.order → p.Fixes .input x 0 phys →
      ∃ x, p.Owns x ∧ pins.get? (p.abstractReg x) = some phys := by
    intro x hx hfixes
    obtain ⟨v, hv, hpin⟩ := hfixes.get?_pins h
    obtain ⟨i, hi, rfl⟩ := Option.map_eq_some_iff.mp hv
    have hvalue := HasValue.of_isDefined (exists_of_contains_pins h (Option.isSome_of_eq_some hpin)).1
    exact ⟨_, ⟨contained x hx i (List.mem_of_getElem? hi) hvalue, hvalue⟩, hpin⟩
  obtain ⟨_, _, _, _, hfixes, _⟩ := (get?_pins_iff h).mp hr
  cases hfixes with
  | parameter hn _ =>
    exact houtput (List.mem_of_mem_filter (List.mem_of_getElem? hn)) (.parameter hn List.mem_cons_self)
  | result hn _ =>
    exact hinput (List.mem_of_mem_filter (List.mem_of_getElem? hn)) (.result hn List.mem_cons_self)
  | buffer hid _ | view hid _ | memory hid _ =>
    exact houtput (List.mem_of_mem_filter hid) (.memory hid List.mem_cons_self)
  | reduction hn | filled hn _ | seed hn _ =>
    exact hinput (List.mem_of_mem_filter (List.mem_of_getElem? hn)) (.reduction hn)

/-! ### Kernels -/

/-- A pool of registers belongs to a bank that there is. -/
theorem Port.Placed.isDefined_reg {m : Machine} {map : RegMap} (h : port.Placed m map) :
    port.reg.isDefined = true := by
  refine Decidable.byContradiction fun hn => ?_
  have hbank : port.reg.bank = .undefined := by simpa [Reg.isDefined] using hn
  have hlt := h.lt_poolSize
  rw [hbank] at hlt
  exact Int.not_lt.mpr h.nonneg hlt

/-- The registers that the ports of a program hold. -/
theorem Program.mem_usedRegs_iff : r ∈ p.usedRegs ↔
    ∃ id ∈ p.order, ∃ side k port, p.portAt side id k = some port ∧ port.reg = r ∧
      r.isDefined = true := by
  rw [mem_usedRegs]
  refine exists_congr fun id => and_congr_right fun _ => ?_
  simp only [Expr.portRegs, List.mem_filter, List.mem_append, List.mem_map]
  constructor
  · rintro ⟨⟨i, hi, rfl⟩ | ⟨o, ho, rfl⟩, hdefined⟩
    · obtain ⟨k, hk⟩ := List.mem_iff_getElem?.mp hi
      exact ⟨.input, k, i.port, by rw [portAt, hk, Option.map_some], rfl, hdefined⟩
    · obtain ⟨k, hk⟩ := List.mem_iff_getElem?.mp ho
      exact ⟨.output, k, o.port, by rw [portAt, hk, Option.map_some], rfl, hdefined⟩
  · rintro ⟨side, k, port, hport, rfl, hdefined⟩
    refine ⟨?_, hdefined⟩
    cases side with
    | input =>
      obtain ⟨i, hi, rfl⟩ := Option.map_eq_some_iff.mp hport
      exact .inl ⟨i, List.mem_of_getElem? hi, rfl⟩
    | output =>
      obtain ⟨o, ho, rfl⟩ := Option.map_eq_some_iff.mp hport
      exact .inr ⟨o, List.mem_of_getElem? ho, rfl⟩

theorem RegTable.mem_values_iff {α : Type} {t : RegTable α} {a : α} :
    a ∈ t.values ↔ ∃ r, t.get? r = some a := by
  simp only [values, List.mem_map, Prod.exists, exists_eq_right, mem_entries_iff]

/-- Bracketing calls adds nothing that reads or is read. -/
theorem Workspace.Spilled.selfContained_iff {w' : Workspace} {bs : List Bracket} (h : w.Spilled bs w') :
    w'.program.SelfContained ↔ w.program.SelfContained := by
  have hvalue : ∀ v, w'.program.HasValue v ↔ w.program.HasValue v := hasValue_of_output? h.ports.output?
  constructor
  · intro hw id hid i hi hv
    have hi' : i ∈ (w'.program.expr id).inputs := (h.ports.inputs id).symm ▸ hi
    exact h.of_lt_size (hw id (h.sublist_order.subset hid) i hi' ((hvalue _).mpr hv)) hv.lt_size
  · intro hw id hid i hi hv
    obtain ⟨hid, hi⟩ := h.of_input hid hi
    exact h.sublist_order.subset (hw id hid i hi ((hvalue _).mp hv))

namespace Kernel

variable {m : Machine} {options : CompileOptions} {q : Program} {u v : Workspace} {kernel : Kernel}

/-- What a kernel preserves for its caller is read off its program. -/
theorem calleeSaved_of_compile (h : compile m options p = .ok kernel q) :
    kernel.calleeSaved = kernel.program.calleeSaved m := by
  unfold compile at h
  split at h
  · rename_i hpasses
    cases h
    obtain ⟨_, _, _, _, _, _, _, _, rfl⟩ := passes_eq_ok.mp hpasses
    rfl
  · cases h

namespace Stages

variable (h : Stages m options p u v w kernel)

include h

/-- Nothing but registers was written to the numbered program before calls were bracketed. -/
theorem bare_eq : w.program.bare = v.program.bare ∧ v.program.bare = u.program.enumerate.bare := by
  obtain ⟨_, s, x, rfl, _, hreached⟩ := Workspace.reached_of_computeRanges h.ranged
  obtain ⟨_, happlied, _⟩ := Workspace.assign_ok h.assigned
  exact ⟨happlied.bare, hreached.bare rfl⟩

/-- Calls were bracketed or left alone. -/
theorem isSpilled : w.Spilled kernel.spills kernel.toWorkspace := by
  obtain ⟨he, _⟩ := Workspace.reached_of_computeRanges h.ranged
  exact (h.bracketed (he.of_bare (h.bare_eq.1.trans h.bare_eq.2))).1

/-- Every port of the kernel holds the register that it is mapped to. -/
theorem placed {id : ExprId} (hid : id ∈ kernel.program.order) {side : Side} {k : Nat}
    (hport : kernel.program.portAt side id k = some port) : port.Placed m kernel.allocation.regMap := by
  obtain ⟨hid, hport⟩ := h.isSpilled.of_portAt hid hport
  exact Workspace.placed_of_violations_eq_nil h.clean hid hport

/-- The kernel has the values of the program with live ranges, in the same abstract registers. -/
theorem owns {x : ValueRef} (hx : v.program.Owns x) :
    kernel.program.Owns x ∧ kernel.program.abstractReg x = v.program.abstractReg x := by
  have hports := h.isSpilled.ports
  obtain ⟨_, happlied, _⟩ := Workspace.assign_ok h.assigned
  refine ⟨⟨h.isSpilled.sublist_order.subset ?_, ?_⟩, ?_⟩
  · rw [order_congr h.bare_eq.1]
    exact hx.1
  · rw [hasValue_of_output? hports.output?, hasValue_congr h.bare_eq.1]
    exact hx.2
  · rw [abstractReg, hports.output?]
    exact happlied.abstractReg_eq x

variable (grouped : p.Grouped) (contained : kernel.program.SelfContained)

include grouped contained

/-- Every register with a live range is held by a value. -/
theorem exists_holder (hr : v.live.ranges.contains r = true) :
    ∃ x, v.program.Owns x ∧ v.program.abstractReg x = r := by
  obtain ⟨_, _, _, _, _, hlive⟩ := lowerLoops_eq_ok h.lowered
  have hranged := h.ranged
  rw [hlive] at hranged
  have hedited := (edited_lowerLoops h.lowered).trans (.of_outputs fun x => by
    obtain ⟨_, hx⟩ := (repositioned_enumerate u.program).expr x
    rw [hx])
  have hcontained := (h.isSpilled.selfContained_iff.mp contained).congr h.bare_eq.1
  obtain ⟨hchosen, _⟩ := Workspace.assign_ok h.assigned
  exact Workspace.exists_holder (hedited.grouped grouped) hranged hcontained hchosen.pins hr

/-- Every physical register of the register map is that of a value. -/
theorem exists_value (hr : kernel.allocation.regMap.get? r = some phys) :
    ∃ x, v.program.Owns x ∧ kernel.allocation.regMap.get? (v.program.abstractReg x) = some phys := by
  have hcontained := (h.isSpilled.selfContained_iff.mp contained).congr h.bare_eq.1
  obtain ⟨hchosen, _⟩ := Workspace.assign_ok h.assigned
  have hcases := hr
  rw [Allocation.get?_regMap, Option.or_eq_some_iff] at hcases
  rcases hcases with hauto | ⟨_, hmanual⟩
  · have hrange := ((hchosen.auto r).mp (Option.isSome_of_eq_some hauto)).1
    obtain ⟨x, hx, rfl⟩ := h.exists_holder grouped contained hrange
    exact ⟨x, hx, hr⟩
  · obtain ⟨x, hx, hpin⟩ := exists_owns_of_pins hcontained hchosen.pins hmanual
    exact ⟨x, hx, hchosen.get?_regMap_of_pin hpin⟩

/-- The ports hold exactly the physical registers of the register map. -/
theorem usedRegs_eq :
    kernel.program.usedRegs = RegSet.ofList kernel.allocation.regMap.values := by
  refine RegSet.eq_of_mem_iff fun phys => ?_
  rw [RegSet.mem_ofList, RegTable.mem_values_iff, mem_usedRegs_iff]
  constructor
  · rintro ⟨id, hid, side, k, port, hport, rfl, _⟩
    exact ⟨port.abstract, (h.placed hid hport).mapped⟩
  · rintro ⟨r, hr⟩
    obtain ⟨x, hx, hphys⟩ := h.exists_value grouped contained hr
    obtain ⟨howns, hreg⟩ := h.owns hx
    obtain ⟨o, ho⟩ := hasValue_iff.mp howns.2
    have hport : kernel.program.portAt .output x.producer x.output = some o.port :=
      congrArg (Option.map Output.port) ho
    have hplaced := h.placed howns.1 hport
    have hsame : o.port.reg = phys := by
      rw [← hreg, abstractReg, ho, hplaced.mapped] at hphys
      exact Option.some.inj hphys
    exact ⟨x.producer, howns.1, .output, x.output, o.port, hport, hsame, hsame ▸ hplaced.isDefined_reg⟩

end Stages

/-- The kernel of a subgraph reads no value from outside. -/
theorem selfContained_of_build {sg : Subgraph} (built : sg.build = .ok p)
    (compiled : compile m options p = .ok kernel q) : kernel.program.SelfContained := by
  obtain ⟨u, v, w, stages⟩ := compile_eq_ok compiled
  have hclosed := (Subgraph.settled_of_lowerLoops built stages.lowered).enumerate.closed
  have hcontained : u.program.enumerate.SelfContained :=
    fun id hid i hi _ => hclosed.sources id hid i hi
  exact stages.isSpilled.selfContained_iff.mpr
    (hcontained.congr (stages.bare_eq.1.trans stages.bare_eq.2).symm)

/-- **No phantom registers.** Every abstract register with a live range is held by an output of the
kernel, if the kernel reads no value from outside. Its ports hold exactly the physical registers that its
register map names, and it preserves exactly those of them for its caller that the machine wants
preserved, in ascending order. -/
theorem registers_held (grouped : p.Grouped) (compiled : compile m options p = .ok kernel q)
    (contained : kernel.program.SelfContained) :
    (∀ r, kernel.live.ranges.contains r = true →
      ∃ x, kernel.program.Owns x ∧ kernel.program.abstractReg x = r) ∧
    kernel.program.usedRegs = RegSet.ofList kernel.allocation.regMap.values ∧
    kernel.calleeSaved.Pairwise (· < ·) ∧
    ∀ phys, phys ∈ kernel.calleeSaved ↔
      phys ∈ kernel.allocation.regMap.values ∧ m.isCalleeSaved phys = true := by
  obtain ⟨u, v, w, stages⟩ := compile_eq_ok compiled
  have hused := stages.usedRegs_eq grouped contained
  refine ⟨fun r hr => ?_, hused, ?_, fun phys => ?_⟩
  · rw [stages.isSpilled.contains_eq, (Workspace.assign_ok stages.assigned).2.2] at hr
    obtain ⟨x, hx, rfl⟩ := stages.exists_holder grouped contained hr
    exact ⟨x, stages.owns hx⟩
  · rw [calleeSaved_of_compile compiled]
    exact kernel.program.usedRegs.ascending.filter _
  · rw [calleeSaved_of_compile compiled, Program.calleeSaved, List.mem_filter, hused, ← RegSet.mem_def,
      RegSet.mem_ofList]

/-- The maximum by way of a buffer has a register to preserve. -/
theorem registers_held_viewedMaximum : ∃ p q kernel,
    viewedMaximum.build = .ok p ∧ compile (.x64 .avx2) {} p = .ok kernel q ∧
      (∀ r, kernel.live.ranges.contains r = true →
        ∃ x, kernel.program.Owns x ∧ kernel.program.abstractReg x = r) ∧
      kernel.program.usedRegs = RegSet.ofList kernel.allocation.regMap.values ∧
      kernel.calleeSaved = [.gpr 3] ∧ .gpr 3 ∈ kernel.allocation.regMap.values := by
  have hsome : ((ofSubgraph? (.x64 .avx2) {} viewedMaximum).any fun kernel =>
      kernel.calleeSaved = [.gpr 3]) = true := by
    decide +kernel
  obtain ⟨p, kernel, q, built, compiled, hsaved⟩ := exists_of_any hsome
  obtain ⟨_, described, _⟩ := Subgraph.build_described built
  obtain ⟨hheld, hused, _, hmem⟩ := registers_held described.listed.pristine.wired.grouped compiled
    (selfContained_of_build built compiled)
  refine ⟨p, q, kernel, built, compiled, hheld, hused, hsaved, ((hmem _).mp ?_).1⟩
  rw [hsaved]
  exact List.mem_singleton.mpr rfl

end Kernel

/-- A result that reads a value from outside of the program. -/
def outsideSource : Program :=
  let edit : Edit Unit := do
    let scalar ← Edit.makeOp "x" { kind := "Scalar", outputs := 1 } []
    let _ ← Edit.add "r" { kind := "Result" } [some ⟨scalar, 0⟩]
  match edit { name := "outside_source" } with
  | .ok _ p => p
  | .error _ p => p

/-- The register of a value from outside has a live range, but no output of the program holds it. -/
theorem Kernel.not_registers_held :
    (outsideSource.Fresh ∧ outsideSource.Linked ∧ outsideSource.Grouped) ∧
    ∃ kernel q, compile (.x64 .avx2) {} outsideSource = .ok kernel q ∧
      kernel.live.ranges.contains (.gpr 0) = true ∧ ∀ x, ¬ kernel.program.Owns x := by
  have hcompile : (match compile (.x64 .avx2) {} outsideSource with
      | .ok kernel _ => decide (kernel.live.ranges.contains (.gpr 0) = true ∧
          ∀ id ∈ kernel.program.order, (kernel.program.expr id).outputs = [])
      | .error _ _ => false) = true := by
    decide +kernel
  refine ⟨by decide +kernel, ?_⟩
  split at hcompile
  · rename_i kernel q hrun
    obtain ⟨hrange, hnone⟩ := of_decide_eq_true hcompile
    refine ⟨kernel, q, hrun, hrange, fun x hx => ?_⟩
    have hvalue := hx.2
    rw [HasValue, hnone _ hx.1] at hvalue
    exact Nat.not_lt_zero _ hvalue
  · cases hcompile

end TensorKernel
