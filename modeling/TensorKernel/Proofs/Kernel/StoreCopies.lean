import TensorKernel.Proofs.Kernel.Convention
import TensorKernel.Proofs.Kernel.Nested
import TensorKernel.Proofs.Kernel.Progress
import TensorKernel.Proofs.Loop.CopyGroups

/-!
# Copies of stores

A result outside all loops may read a store that is inside. The store is then in the register of the
result, and so are its direct copies, since they join its alias group. A copy of a copy is alone in its
group. It is pinned only if a buffer keeps it. Otherwise linear scan gives it a register in which nothing
is pinned, and it does not write to the result.
-/

namespace TensorKernel

open Program

variable {b r s x : ExprId} {p : Program} {pins : RegMap} {v value : ValueRef} {w : Workspace}

namespace Program

/-- An expression is another one, a copy of it, or a copy of such a copy. -/
def CopiedFrom (p : Program) : ExprId → ExprId → Prop :=
  Relation.ReflTransGen fun y x => (p.expr x).origin = some y

/-- A value is kept in the register of a buffer: the buffer reads it, or the first input of a view behind
the buffer does. -/
def KeptFor (p : Program) (b : ExprId) (v : ValueRef) : Prop :=
  v ∈ (p.expr b).inputs.map (·.source) ∨
    ∃ x ∈ p.viewsAfter b, (p.expr x).inputs[0]?.map (·.source) = some v

variable {q : Program}

/-- Numbering the program changes no group and no origin. -/
theorem CopyGroups.enumerate (h : p.CopyGroups q) : p.CopyGroups q.enumerate := by
  have hr := q.repositioned_enumerate
  have horigin : ∀ x, (q.enumerate.expr x).origin = (q.expr x).origin := fun x => by
    obtain ⟨position, hx⟩ := hr.expr x
    rw [hx]
  have hgroup := aliasGroup_of_output? fun v : ValueRef =>
    (congrArg (·[v.output]?) (hr.outputs v.producer) : q.enumerate.output? v = q.output? v)
  refine ⟨fun x y hxy => ?_, fun x y k hxy => ?_, fun x y k hxy => ?_⟩
  · rw [hr.role, hr.role]
    exact h.origins x y (horigin x ▸ hxy)
  · rw [hgroup]
    exact h.joins x y k (horigin x ▸ hxy)
  · rw [hgroup]
    exact h.alone x y k (horigin x ▸ hxy)

/-- Copies have the role of what they are copied from. -/
theorem CopyGroups.role_of_copiedFrom (h : p.CopyGroups q) {y : ExprId} (hxy : q.CopiedFrom x y) :
    (q.expr y).role = (q.expr x).role := by
  induction hxy with
  | refl => rfl
  | tail _ horigin ih => exact ((h.origins _ _ horigin).2).trans ih

theorem KeptFor.get?_pins (h : p.KeptFor b v) (hpins : p.pins = .ok pins) (hb : b ∈ p.buffers) :
    pins.get? (p.abstractReg v) = some (p.bufferReg b) := by
  refine (get?_pins_iff hpins).mpr ?_
  rcases h with hread | ⟨x, hx, hread⟩
  · obtain ⟨i, hi, rfl⟩ := List.mem_map.mp hread
    obtain ⟨k, hk⟩ := List.mem_iff_getElem?.mp hi
    exact ⟨.input, b, k, _, .buffer hb (List.getElem?_eq_some_iff.mp hk).1, by rw [valueAt?, hk]; rfl, rfl⟩
  · exact ⟨_, _, _, _, .view hb hx, hread, rfl⟩

/-- There are no views before a result that reads something else. -/
theorem viewsBefore_eq_nil (reads : (p.expr x).inputs[0]?.map (·.source) = some v)
    (hv : (p.expr v.producer).role ≠ .shapeInfer) : p.viewsBefore x = [] := by
  have hnone : p.prevView? x = none := by
    unfold prevView?
    cases hinputs : (p.expr x).inputs with
    | nil => rfl
    | cons i rest =>
      rw [hinputs] at reads
      cases reads
      exact if_neg hv
  unfold viewsBefore
  cases p.exprs.size with
  | zero => rfl
  | succ bound => rw [follow, hnone]

section Result

variable {k : Nat} {id : ExprId} (hk : p.results[k]? = some id)
  (reads : (p.expr id).inputs[0]?.map (·.source) = some value)
  (hvalue : (p.expr value.producer).role ≠ .shapeInfer)

include hk reads hvalue

/-- The pointer of a result that reads no view is what the result reads. -/
theorem IsPointer.eq_of_result (hpins : p.pins = .ok pins) {values : List ValueRef} (h : p.IsPointer values)
    {x : ValueRef} (hx : x ∈ values)
    (hpin : pins.get? (p.abstractReg x) = some (.gpr (p.parameters.length + k : Nat))) : x = value := by
  obtain ⟨n, hn⟩ := h.exists_place
  have hplace := get?_pins_pointer hpins hn hx
  rw [hpin] at hplace
  have hindex : ((p.parameters.length + k : Nat) : Int) = n := congrArg Reg.index (Option.some.inj hplace)
  obtain rfl : p.parameters.length + k = n := by omega
  rw [pointers, List.getElem?_append_right (by simp), List.getElem?_map, List.length_map,
    Nat.add_sub_cancel_left, hk] at hn
  obtain ⟨y, hy, hread⟩ := exists_of_mem_pointer (f := (p.input · 0)) (Option.some.inj hn) hx
  rw [viewsBefore_eq_nil reads hvalue, List.mem_singleton] at hy
  rw [hy, input_zero_eq_ok, reads] at hread
  exact (Option.some.inj hread).symm

/-- A store in the register of a result is what the result reads, or a buffer in the register keeps it. -/
theorem Fixes.keptFor_of_result (closed : p.Closed) (linked : p.Linked) {side : Side} {j : Nat}
    (h : p.Fixes side x j (.gpr (p.parameters.length + k : Nat))) {y : ValueRef}
    (hy : p.valueAt? side x j = some y) (hrole : (p.expr y.producer).role = .store) (hne : y ≠ value) :
    ∃ b ∈ p.buffers, p.bufferReg b = .gpr (p.parameters.length + k : Nat) ∧ p.KeptFor b y := by
  generalize hphys : Reg.gpr (p.parameters.length + k : Nat) = phys at h ⊢
  cases h with
  | @parameter n _ _ hn _ =>
    have hlt := (List.getElem?_eq_some_iff.mp hn).1
    have hindex : ((p.parameters.length + k : Nat) : Int) = n := congrArg Reg.index hphys
    omega
  | @result n _ _ hn hx =>
    have hindex : ((p.parameters.length + k : Nat) : Int) = (p.parameters.length + n : Nat) :=
      congrArg Reg.index hphys
    obtain rfl : k = n := by omega
    cases hk.symm.trans hn
    rw [viewsBefore_eq_nil reads hvalue, List.mem_singleton] at hx
    rw [hx, valueAt?, reads] at hy
    exact absurd (Option.some.inj hy).symm hne
  | buffer hb _ =>
    obtain ⟨i, hi, rfl⟩ := Option.map_eq_some_iff.mp hy
    exact ⟨_, hb, rfl, .inl (List.mem_map_of_mem (List.mem_of_getElem? hi))⟩
  | view hb hx => exact ⟨_, hb, rfl, .inr ⟨_, hx, hy⟩⟩
  | @memory b _ hb hx =>
    cases hy
    obtain ⟨hmem, hbuffer⟩ := List.mem_filter.mp hb
    rcases List.mem_cons.mp hx with rfl | hx
    · rw [of_decide_eq_true hbuffer] at hrole
      cases hrole
    · rw [(closed.mem_viewsAfter linked hmem hx).2.1] at hrole
      cases hrole
  | reduction _ | filled _ _ | seed _ _ => cases congrArg Reg.bank hphys

end Result

end Program

/-- What shares a physical register with a pin is pinned. -/
theorem Allocation.Chosen.get?_manual_of_pin {m : Machine} {a : Allocation} (h : Chosen m w a)
    {r r' phys : Reg} (hr : a.regMap.get? r = some phys) (hpin : a.manual.get? r' = some phys) :
    a.manual.get? r = some phys := by
  cases hauto : a.auto.get? r with
  | none => rwa [get?_regMap, hauto, Option.none_or] at hr
  | some y =>
    rw [get?_regMap_of_auto hauto] at hr
    cases hr
    exact absurd hpin (h.manual_ne_of_auto hauto)

/-- A value that is alone in its group has its register to itself, unless it is a pointer of the
boundary. -/
theorem Workspace.Ranged.eq_of_alone (hr : w.Ranged p) (hg : p.Grouped) {x : ValueRef}
    (hx : x.producer ∈ p.order) (hdefined : (w.program.abstractReg x).isDefined = true)
    (halone : p.aliasGroup x = [x]) : (∃ values, p.IsPointer values ∧ x ∈ values) ∨
      ∀ y : ValueRef, y.producer ∈ p.order → w.program.abstractReg y = w.program.abstractReg x → y = x := by
  obtain ⟨vs, range, horigin, _, hshares⟩ := hr.origin x (.inl hx) hdefined
  have hself := hshares x (.inl hx) rfl
  cases horigin with
  | @pointer values hpointer =>
    obtain ⟨y, hy, hxy⟩ := List.mem_flatMap.mp hself
    have hback := hg.mem_symm hxy
    rw [halone, List.mem_singleton] at hback
    exact .inl ⟨values, hpointer, hback ▸ hy⟩
  | group _ _ =>
    refine .inr fun y hy hreg => ?_
    have hmem := hshares y (.inl hy) hreg
    rwa [← hg.aliasGroup_eq hself, halone, List.mem_singleton] at hmem

namespace Kernel.Finished

variable {m : Machine} {v : Workspace} {kernel : Kernel} (h : Finished m p v w kernel)

include h

theorem origin (x : ExprId) : (kernel.program.expr x).origin = (p.expr x).origin := by
  rw [h.bracketed.ports.origin]
  have hexpr : (w.program.expr x).bare = (p.expr x).bare := by rw [← bare_expr, h.bare, bare_expr]
  have horigin : (w.program.expr x).bare.origin = (p.expr x).bare.origin := by rw [hexpr]
  exact horigin

theorem copiedFrom : kernel.program.CopiedFrom = p.CopiedFrom := by
  unfold CopiedFrom
  simp only [h.origin]

/-- Brackets are no views, so views are followed as before. -/
theorem viewsAfter (forward : p.Forward) (hx : x ∈ p.order) :
    kernel.program.viewsAfter x = v.program.viewsAfter x := by
  have hwired := h.settled.wired
  have hsize : p.order.length ≤ p.exprs.size := by
    have hsub := List.subperm_of_subset h.settled.tidy.nodup
      fun y hy => List.mem_range.mpr (h.settled.tidy.valid y hy)
    simpa only [List.length_range] using hsub.length_le
  have hgrown : p.exprs.size ≤ kernel.program.exprs.size := by
    refine Nat.le_of_not_lt fun hlt => ?_
    have hmem := h.settled.full _ hlt
    rw [← h.order] at hmem
    exact Nat.lt_irrefl _ (h.bracketed.numbered.lt_size (h.bracketed.sublist_order.subset hmem))
  have hnext : ∀ a ∈ p.order, kernel.program.nextView? a = p.nextView? a := by
    intro a _
    rw [nextView?_eq, nextView?_eq, h.uses, ← List.head?_filter, ← List.head?_filter]
    refine congrArg (fun l : List UseRef => l.head?.map (·.consumer)) (List.filter_congr fun u hu => ?_)
    rw [h.role (h.settled.full _ (hwired.consumer_lt_size hu))]
  have hrank : ((p.order.length : Int) - (p.expr x).exec).toNat ≤ p.order.length := by
    have hexec := (h.enumerated.exec_mem hx).1
    omega
  rw [← bare_viewsAfter v.program, h.ranged.bare, bare_viewsAfter]
  refine follow_congr (· ∈ p.order) (fun a => ((p.order.length : Int) - (p.expr a).exec).toNat) hnext
    (fun a b ha hab => ?_) hx (hrank.trans hsize) (hrank.trans (hsize.trans hgrown))
  rw [nextView?_eq] at hab
  obtain ⟨u, hu, rfl⟩ := Option.map_eq_some_iff.mp hab
  have huse := List.mem_of_find?_eq_some hu
  have hb := h.settled.full _ (hwired.consumer_lt_size huse)
  obtain ⟨i, hi, hsource⟩ := Option.map_eq_some_iff.mp ((hwired.linked _ _ _).mpr huse)
  have hlt := forward _ hb i (List.mem_of_getElem? hi)
  rw [hsource] at hlt
  have hexec := h.enumerated.exec_mem hb
  unfold length at hexec
  exact ⟨hb, by dsimp only at hlt ⊢; omega⟩

theorem keptFor_iff (forward : p.Forward) (hb : b ∈ p.order) :
    kernel.program.KeptFor b value ↔ v.program.KeptFor b value := by
  unfold KeptFor
  rw [h.viewsAfter forward hb, h.bracketed.ports.inputs, sources_congr h.applied.bare]
  simp only [h.source]

/-- The value that a result reads is pinned to the register of the result. -/
theorem exists_pin_of_result (hx : x ∈ p.results) :
    ∃ (k : Nat) (value : ValueRef), v.program.results[k]? = some x ∧
      (p.expr x).inputs[0]?.map (·.source) = some value ∧
      kernel.program.firstInputReg? x = some (.gpr (v.program.parameters.length + k : Nat)) ∧
      kernel.allocation.manual.get? (v.program.abstractReg value) =
        some (.gpr (v.program.parameters.length + k : Nat)) := by
  rw [← results_congr h.ranged.bare] at hx
  obtain ⟨k, hk⟩ := List.mem_iff_getElem?.mp hx
  obtain ⟨value, hvalue, hpin⟩ := (Fixes.result hk List.mem_cons_self).input_pinned h.chosen.pins
  refine ⟨k, value, hk, ?_, ?_, hpin⟩
  · rw [← source_congr h.ranged.bare]
    exact input_zero_eq_ok.mp hvalue
  · rw [← h.parameters]
    exact h.calledWith.result k x (h.results.symm ▸ hk)

/-- A value that a buffer keeps is in the register of the buffer. -/
theorem firstOutputReg?_of_keptFor (forward : p.Forward) (hb : b ∈ kernel.program.buffers)
    (hkept : kernel.program.KeptFor b ⟨x, 0⟩) :
    kernel.program.firstOutputReg? x = kernel.program.firstOutputReg? b := by
  rw [h.buffers] at hb
  have hmem : b ∈ p.order := order_congr h.ranged.bare ▸ List.mem_of_mem_filter hb
  have hpin := ((h.keptFor_iff forward hmem).mp hkept).get?_pins h.chosen.pins hb
  obtain ⟨value, hvalue, hbpin⟩ := (Fixes.memory hb List.mem_cons_self).output_pinned h.chosen.pins
  have hx := HasValue.of_isDefined (h.isDefined_of_pin hpin)
  rw [h.firstOutputReg?_of_pin hmem hvalue hbpin]
  exact h.firstOutputReg?_of_pin (h.settled.full _ ((hasValue_congr h.ranged.bare _).mp hx).lt_size)
    (output_zero_eq_ok.mpr ⟨hx, rfl⟩) hpin

/-- A store that is alone is in the register of a result only if a buffer in the register keeps it. -/
theorem exists_keptFor_of_alone (forward : p.Forward) (hr : r ∈ p.results)
    (reads : (p.expr r).inputs[0]?.map (·.source) = some ⟨s, 0⟩) (hs : (p.expr s).role = .store)
    (hx : x ∈ p.order) (hrole : (p.expr x).role = .store) (hne : x ≠ s)
    (halone : p.aliasGroup ⟨x, 0⟩ = [⟨x, 0⟩])
    (hreg : kernel.program.firstOutputReg? x = kernel.program.firstInputReg? r) :
    ∃ b ∈ kernel.program.buffers, kernel.program.firstOutputReg? b = kernel.program.firstInputReg? r ∧
      kernel.program.KeptFor b ⟨x, 0⟩ := by
  obtain ⟨k, value, hk, hvalue, hphys, hpin⟩ := h.exists_pin_of_result hr
  rw [reads] at hvalue
  cases hvalue
  rw [hphys] at hreg ⊢
  generalize hP : v.program.parameters.length = P at *
  -- The register of the store is pinned, since the register of the result is.
  obtain ⟨o, ho, hoReg⟩ := Option.map_eq_some_iff.mp hreg
  have howns : p.Owns ⟨x, 0⟩ := ⟨hx, (h.hasValue _).mp (hasValue_iff.mpr ⟨o, ho⟩)⟩
  have hdefined := h.defined ⟨x, 0⟩ howns (by rintro (hl | hl) <;> rw [hrole] at hl <;> cases hl)
  have hmap := h.get?_physReg howns hdefined
  have hown : kernel.program.physReg ⟨x, 0⟩ = .gpr (P + k : Nat) := by
    have houtput : kernel.program.output? ⟨x, 0⟩ = some o := ho
    rw [physReg, houtput]
    exact hoReg
  rw [hown] at hmap
  have hxpin := h.chosen.get?_manual_of_pin hmap hpin
  have hbare := h.ranged.bare
  rw [← source_congr hbare] at reads
  have hview : (v.program.expr s).role ≠ .shapeInfer := by
    rw [role_congr hbare, hs]
    decide
  have hother : (⟨x, 0⟩ : ValueRef) ≠ ⟨s, 0⟩ := fun he => hne (congrArg ValueRef.producer he)
  subst hP
  obtain ⟨side, y, j, z, hfixes, hz, hzreg⟩ := (get?_pins_iff h.chosen.pins).mp hxpin
  have hzx : z = ⟨x, 0⟩ := by
    rcases h.ranged.eq_of_alone h.settled.wired.grouped hx hdefined halone with
      ⟨values, hpointer, hmem⟩ | honly
    · exact absurd ((hpointer.congr hbare.symm).eq_of_result hk reads hview h.chosen.pins hmem hxpin) hother
    · have hzvalue := HasValue.of_isDefined (hzreg ▸ hdefined)
      exact honly z (h.settled.full _ ((hasValue_congr hbare z).mp hzvalue).lt_size) hzreg
  obtain ⟨b, hb, hbreg, hkept⟩ := hfixes.keptFor_of_result hk reads hview (h.settled.closed.of_bare hbare)
    (h.settled.wired.toLinked.of_bare hbare) (hzx ▸ hz) (role_congr hbare x ▸ hrole) hother
  have hmem : b ∈ p.order := order_congr hbare ▸ List.mem_of_mem_filter hb
  obtain ⟨w', hw', hbpin⟩ := (Fixes.memory hb List.mem_cons_self).output_pinned h.chosen.pins
  exact ⟨b, h.buffers.symm ▸ hb, hbreg ▸ h.firstOutputReg?_of_pin hmem hw' hbpin,
    (h.keptFor_iff forward hmem).mpr hkept⟩

/-- What shares the group of the value that a result reads is in the register of the result. -/
theorem firstOutputReg?_of_mem_aliasGroup (hr : r ∈ p.results)
    (reads : (p.expr r).inputs[0]?.map (·.source) = some value) (hx : ⟨x, 0⟩ ∈ p.aliasGroup value) :
    kernel.program.firstOutputReg? x = kernel.program.firstInputReg? r := by
  obtain ⟨_, _, _, hvalue, hphys, hpin⟩ := h.exists_pin_of_result hr
  cases reads.symm.trans hvalue
  obtain ⟨i, hi, hsource⟩ := Option.map_eq_some_iff.mp reads
  have hhas := hsource ▸ h.settled.wired.hasValue_source (List.mem_of_getElem? hi)
  have hxhas := ((h.settled.wired.grouped _ hhas).2 _ hx).1
  have hmem := h.settled.full _ hxhas.lt_size
  rw [← h.ranged.uniform _ _ hx (h.settled.full _ hhas.lt_size) hmem] at hpin
  rw [hphys]
  exact h.firstOutputReg?_of_pin hmem
    (output_zero_eq_ok.mpr ⟨(hasValue_congr h.ranged.bare _).mpr hxhas, rfl⟩) hpin

/-- Of the copies of a store that a result reads, those are in the register of the result that are direct or
that a buffer keeps there. -/
theorem firstOutputReg?_copy_iff (forward : p.Forward) {start : Program} (hgroups : start.CopyGroups p)
    (original : ∀ x : Nat, x < start.exprs.size → (p.expr x).origin = none) (hr : r ∈ p.results)
    (reads : (p.expr r).inputs[0]?.map (·.source) = some ⟨s, 0⟩) (hs : (p.expr s).role = .store)
    (hlt : s < start.exprs.size) (hused : start.UsedOutside ⟨s, 0⟩) (hx : kernel.program.CopiedFrom s x) :
    kernel.program.firstOutputReg? x = kernel.program.firstInputReg? r ↔
      x = s ∨ (kernel.program.expr x).origin = some s ∨
        ∃ b ∈ kernel.program.buffers,
          kernel.program.firstOutputReg? b = kernel.program.firstInputReg? r ∧
            kernel.program.KeptFor b ⟨x, 0⟩ := by
  have hhas : p.HasValue ⟨s, 0⟩ := by
    obtain ⟨i, hi, hsource⟩ := Option.map_eq_some_iff.mp reads
    exact hsource ▸ h.settled.wired.hasValue_source (List.mem_of_getElem? hi)
  rw [h.copiedFrom] at hx
  rw [h.origin]
  constructor
  · intro hreg
    rw [or_iff_not_imp_left, or_iff_not_imp_left]
    intro hne hindirect
    have hrole := (hgroups.role_of_copiedFrom hx).trans hs
    have hmem : x ∈ p.order := by
      refine h.settled.full x (Nat.lt_of_not_le fun hle => ?_)
      rw [expr_of_size_le hle] at hrole
      cases hrole
    refine h.exists_keptFor_of_alone forward hr reads hs hmem hrole hne ?_ hreg
    obtain rfl | ⟨y, hy, hxy⟩ := hx.cases_tail
    · exact absurd rfl hne
    · refine hgroups.alone x y 0 hxy ?_
      -- What it is a copy of is a copy itself, and no original is.
      obtain rfl | ⟨z, _, hyz⟩ := hy.cases_tail
      · exact absurd hxy hindirect
      · refine Nat.le_of_not_lt fun hlt => ?_
        rw [original y hlt] at hyz
        cases hyz
  · rintro (rfl | hdirect | ⟨b, hb, hbreg, hkept⟩)
    · exact h.firstOutputReg?_of_mem_aliasGroup hr reads (h.settled.wired.grouped _ hhas).1
    · exact h.firstOutputReg?_of_mem_aliasGroup hr reads (hgroups.joins x s 0 hdirect hlt hused)
    · exact (h.firstOutputReg?_of_keptFor forward hb hkept).trans hbreg

end Kernel.Finished

/-- Lowering the loops of a subgraph groups the copies that it makes, if none of its operations is a marker
and every loop is entered at its first operation and left at its last one. -/
theorem Subgraph.exists_copyGroups {sg : Subgraph} (built : sg.build = .ok p)
    (kinds : ∀ op ∈ sg.ops, op.kind ≠ "LoopBegin" ∧ op.kind ≠ "LoopEnd")
    (snug : ∀ loop ∈ sg.loops, loop.isSnug = true) {options : CompileOptions} {events : List HandlerEvent}
    (lowered : Kernel.lowerLoops options { program := p } = .ok events w) :
    ∃ start : Program, p.Extends start ∧ start.Pristine ∧ start.Extends w.program ∧
      start.CopyGroups w.program ∧ w.program.ReadsBehind := by
  obtain ⟨r, start, _, _, hpointers, hmarked, hsteps, _⟩ := exists_nest built kinds snug lowered
  have hpristine := hmarked.pristine
  have hkept := hmarked.unsplit.undivided.structureKept
    ⟨hpristine.wired.toLinked, fun _ _ => hpristine.wired.consumer_lt_size⟩
    fun x hx i hi _ => hmarked.earlier x hx i hi
  have hretains := hpristine.tidy.retains_of_steps hpristine.wired hsteps
  refine ⟨start, ?_, hpristine, ⟨hretains.size, hretains.header, hretains.inputs⟩,
    .of_steps hpristine.original hpristine.tidy hpristine.wired hkept hsteps,
    (hkept.of_steps hsteps).behind⟩
  have hkeeps := hmarked.keeps
  rw [hpointers.1] at hkeeps
  exact ⟨hkeeps.size, hkeeps.header, hkeeps.inputs⟩

/-- **Which copies of a store write to the result.** A result outside all loops reads a store. The store and
its direct copies are in the register of the result. A copy of a copy is in this register only if a buffer
keeps it there. -/
theorem Subgraph.storeCopy_sharesResult_iff {sg : Subgraph} {p q : Program} {m : Machine}
    {options : CompileOptions} {kernel : Kernel} (built : sg.build = .ok p)
    (kinds : ∀ op ∈ sg.ops, op.kind ≠ "LoopBegin" ∧ op.kind ≠ "LoopEnd")
    (snug : ∀ loop ∈ sg.loops, loop.isSnug = true)
    (compiled : Kernel.compile m options p = .ok kernel q) {r s : Nat}
    (result : sg.ops[r]?.map (·.kind) = some "Result") (outside : (p.expr r).loops = [])
    (store : sg.ops[s]?.map (·.kind) = some "Store")
    (reads : (p.expr r).inputs[0]?.map (·.source) = some ⟨s, 0⟩) :
    ∃ phys, kernel.program.firstInputReg? r = some phys ∧
      ∀ x, kernel.program.CopiedFrom s x → (kernel.program.firstOutputReg? x = some phys ↔
        x = s ∨ (kernel.program.expr x).origin = some s ∨
          ∃ b ∈ kernel.program.buffers, kernel.program.firstOutputReg? b = some phys ∧
            kernel.program.KeptFor b ⟨x, 0⟩) := by
  obtain ⟨u, v, w, stages⟩ := Kernel.compile_eq_ok compiled
  obtain ⟨_, transcribes⟩ := build_eq_ok built
  obtain ⟨start, hstart, hpristine, hlowered, hgroups, hbehind⟩ :=
    exists_copyGroups built kinds snug stages.lowered
  have hf := stages.finished (settled_of_lowerLoops built stages.lowered)
  have hnumbered := u.program.repositioned_enumerate
  obtain ⟨rspec, hrspec, hresult⟩ := Option.map_eq_some_iff.mp result
  obtain ⟨sspec, hsspec, hstore⟩ := Option.map_eq_some_iff.mp store
  have hr : r < p.exprs.size := transcribes.size ▸ (List.getElem?_eq_some_iff.mp hrspec).1
  have hs : s < p.exprs.size := transcribes.size ▸ (List.getElem?_eq_some_iff.mp hsspec).1
  have hrrole : (p.expr r).role = .result := by
    rw [(transcribes.op r _ hrspec).1, Role.ofKind_eq_result, hresult]
  have hsrole : (p.expr s).role = .store := by
    rw [(transcribes.op s _ hsspec).1, hstore]
    rfl
  have hextends := hstart.trans hlowered
  have hrole : ∀ x < p.exprs.size, (u.program.enumerate.expr x).role = (p.expr x).role :=
    fun x hx => (hnumbered.role x).trans (Expr.role_of_header (hextends.header x hx))
  have hmem : r ∈ u.program.enumerate.results := by
    refine List.mem_filter.mpr ⟨hf.settled.full r ?_, by rw [hrole r hr, hrrole]; rfl⟩
    exact hnumbered.size ▸ Nat.lt_of_lt_of_le hr hextends.size
  -- The result is outside every range that is copied.
  have hused : start.UsedOutside ⟨s, 0⟩ := by
    refine ⟨⟨r, 0⟩, (hpristine.wired.linked r 0 _).mp ?_, ?_, ?_⟩
    · rw [hstart.inputs r hr, reads]
    · rw [Expr.role_of_header (hstart.header r hr), hrrole]
      rfl
    · rw [Expr.loops_of_header (hstart.header r hr), outside]
  have horiginal : ∀ x : Nat, x < start.exprs.size → (u.program.enumerate.expr x).origin = none := by
    intro x hx
    obtain ⟨position, he⟩ := hnumbered.expr x
    rw [he]
    exact (Expr.origin_of_header (hlowered.header x hx)).trans (hpristine.original x)
  obtain ⟨_, _, _, _, hphys, _⟩ := hf.exists_pin_of_result hmem
  refine ⟨_, hphys, fun x hx => ?_⟩
  rw [← hphys]
  refine hf.firstOutputReg?_copy_iff (hbehind.enumerate.forward hf.settled.closed hf.enumerated)
    hgroups.enumerate horiginal hmem ?_ ((hrole s hs).trans hsrole) (Nat.lt_of_lt_of_le hs hstart.size)
    hused hx
  rw [hnumbered.inputs, hextends.inputs r hr, reads]

/-- The store of the grid copy is copied with the inner loop. The copy is in the register of the result, and
its own copy, which was made with the outer loop, is in another one. -/
theorem Subgraph.storeCopy_sharesResult_gridCopy : ∃ p kernel q phys, gridCopy.build = .ok p ∧
    Kernel.compile (.x64 .avx2) {} p = .ok kernel q ∧
    kernel.program.firstInputReg? 3 = some phys ∧
    (kernel.program.CopiedFrom 2 10 ∧ kernel.program.firstOutputReg? 10 = some phys) ∧
    kernel.program.CopiedFrom 2 15 ∧ kernel.program.firstOutputReg? 15 ≠ some phys := by
  have hsome : ((Kernel.ofSubgraph? (.x64 .avx2) {} gridCopy).any fun kernel =>
      (kernel.program.expr 10).origin = some 2 ∧ (kernel.program.expr 15).origin = some 10 ∧
        kernel.program.buffers = []) = true := by
    decide +kernel
  have hbuilt : (gridCopy.build.toOption.any fun p =>
      (p.expr 3).loops = [] ∧ (p.expr 3).inputs[0]?.map (·.source) = some ⟨2, 0⟩) = true := by
    decide +kernel
  obtain ⟨p, kernel, q, hbuild, hcompile, hdirect, hindirect, hbuffers⟩ := Kernel.exists_of_any hsome
  rw [hbuild] at hbuilt
  obtain ⟨houtside, hreads⟩ := of_decide_eq_true hbuilt
  obtain ⟨phys, hphys, hcopies⟩ := storeCopy_sharesResult_iff hbuild (by decide +kernel)
    (by decide +kernel) hcompile (r := 3) (s := 2) (by decide +kernel) houtside (by decide +kernel) hreads
  have hten : kernel.program.CopiedFrom 2 10 := .single hdirect
  have hfifteen : kernel.program.CopiedFrom 2 15 := .tail hten hindirect
  refine ⟨p, kernel, q, phys, hbuild, hcompile, hphys, ⟨hten, (hcopies 10 hten).mpr (.inr (.inl hdirect))⟩,
    hfifteen, fun hreg => ?_⟩
  rcases (hcopies 15 hfifteen).mp hreg with he | he | ⟨b, hb, _⟩
  · cases he
  · rw [hindirect] at he
    cases he
  · rw [hbuffers] at hb
    cases hb

end TensorKernel
