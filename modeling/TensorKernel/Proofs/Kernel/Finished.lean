import TensorKernel.Proofs.Kernel.Settled
import TensorKernel.Proofs.Liveness.LiveSets

/-!
# Finished kernels

Behind the lowering of loops, compilation numbers the program, writes registers and puts brackets around
calls. Everything else about an expression stays as it was in the lowered program, and so does the order
in which expressions stand.
-/

namespace TensorKernel.Kernel

open Program

variable {x : ExprId}

/-- A kernel that was made from a numbered program `p`: `v` has its live ranges and `w` its physical
registers. -/
structure Finished (m : Machine) (p : Program) (v w : Workspace) (kernel : Kernel) : Prop where
  /-- The program was settled. -/
  settled : p.Settled
  /-- It was numbered. -/
  enumerated : p.Enumerated
  /-- Live ranges were computed. -/
  ranged : v.Ranged p
  /-- The values that need a register got one. -/
  defined : ∀ x, p.Owns x → ¬ p.IsSilent x.producer → (v.program.abstractReg x).isDefined = true
  /-- Physical registers were chosen. -/
  chosen : Allocation.Chosen m v kernel.allocation
  /-- They were written to the ports. -/
  applied : kernel.allocation.regMap.AppliedOn v.program (fun _ id _ => id ∈ v.program.order) w.program
  /-- Live ranges were not touched. -/
  ranges : w.live.ranges = v.live.ranges
  /-- Calls were bracketed or left alone. -/
  bracketed : w.Spilled kernel.spills kernel.toWorkspace

variable {m : Machine} {options : CompileOptions} {p : Program} {u v w : Workspace} {kernel : Kernel}

/-- A program whose loops were lowered makes a finished kernel. -/
theorem Stages.finished (h : Stages m options p u v w kernel) (settled : u.program.Settled) :
    Finished m u.program.enumerate v w kernel := by
  have hs := settled.enumerate
  obtain ⟨he, hr, hdefined⟩ :=
    Workspace.ranged_of_computeRanges hs.wired.fresh hs.wired.toLinked hs.wired.grouped h.ranged
  obtain ⟨hchosen, happlied, hranges⟩ := Workspace.assign_ok h.assigned
  have hbare : w.program.bare = u.program.enumerate.bare := happlied.bare.trans hr.bare
  exact ⟨hs, he, hr, hdefined, hchosen, happlied, hranges, (h.bracketed (he.of_bare hbare)).1⟩

namespace Finished

variable (h : Finished m p v w kernel)

include h

/-- Only registers were written before the brackets. -/
theorem bare : w.program.bare = p.bare := h.applied.bare.trans h.ranged.bare

theorem order : w.program.order = p.order := order_congr h.bare

theorem enumerated_bare : w.program.Enumerated := h.enumerated.of_bare h.bare

/-- Of an expression only registers and the position changed. -/
theorem exists_position (hx : x ∈ p.order) :
    ∃ position, (kernel.program.expr x).bare = { (p.expr x).bare with position } := by
  obtain ⟨position, he⟩ := h.bracketed.expr x (h.enumerated_bare.lt_size (h.order.symm ▸ hx))
  refine ⟨position, ?_⟩
  rw [← bare_expr p, ← h.bare, bare_expr, he]
  rfl

theorem role (hx : x ∈ p.order) : (kernel.program.expr x).role = (p.expr x).role := by
  obtain ⟨position, he⟩ := h.exists_position hx
  rw [← Expr.bare_role, he]
  rfl

theorem loop (hx : x ∈ p.order) : (kernel.program.expr x).loop = (p.expr x).loop := by
  obtain ⟨position, he⟩ := h.exists_position hx
  rw [← Expr.bare_loop, he]
  rfl

theorem group (hx : x ∈ p.order) : (kernel.program.expr x).group = (p.expr x).group := by
  obtain ⟨position, he⟩ := h.exists_position hx
  rw [← Expr.bare_group, he]
  rfl

theorem hasValue (x : ValueRef) : kernel.program.HasValue x ↔ p.HasValue x :=
  (hasValue_of_output? h.bracketed.ports.output? x).trans (hasValue_congr h.bare x)

/-- An expression that is no bracket was there before. -/
theorem of_role (hx : x ∈ kernel.program.order) {role : Role} (hrole : (kernel.program.expr x).role = role)
    (hne : role ≠ .regSpillBegin ∧ role ≠ .regSpillEnd) : x ∈ p.order := by
  rw [← h.order]
  exact (h.bracketed.of_role (fun _ => h.enumerated_bare.lt_size) hx hrole hne).1

/-- So there are as many expressions of the role. -/
theorem ofRole {role : Role} (hne : role ≠ .regSpillBegin ∧ role ≠ .regSpillEnd) :
    kernel.program.ofRole role = p.ofRole role :=
  (h.bracketed.ofRole (fun _ => h.enumerated_bare.lt_size) hne).trans (ofRole_congr h.bare role)

/-- So was every value. -/
theorem owns {x : ValueRef} (hx : kernel.program.Owns x) : p.Owns x := by
  have hvalue := (h.hasValue x).mp hx.2
  refine ⟨h.order ▸ h.bracketed.of_lt_size hx.1 ?_, hvalue⟩
  exact ((hasValue_congr h.bare x).mpr hvalue).lt_size

/-- The registered loops stayed. -/
theorem loops : kernel.program.loops = p.loops := by
  have hbare : w.program.bare.loops = p.bare.loops := by rw [h.bare]
  exact h.bracketed.loops.trans hbare

/-- Abstract registers stayed. -/
theorem abstractReg (x : ValueRef) : kernel.program.abstractReg x = v.program.abstractReg x := by
  rw [Program.abstractReg, h.bracketed.ports.output?, ← Program.abstractReg, h.applied.abstractReg_eq]

/-- Uses stayed. -/
theorem uses (x : ValueRef) : kernel.program.uses x = p.uses x := by
  rw [uses_of_output? h.bracketed.ports.output?, uses_congr h.bare]

/-- Alias groups stayed. -/
theorem aliasGroup (x : ValueRef) : kernel.program.aliasGroup x = p.aliasGroup x := by
  rw [aliasGroup_of_output? h.bracketed.ports.output?, aliasGroup_congr h.bare]

/-- Expressions that stood before each other do so. -/
theorem exec_lt_iff {y : ExprId} (hx : x ∈ p.order) (hy : y ∈ p.order) :
    (kernel.program.expr x).exec < (kernel.program.expr y).exec ↔ (p.expr x).exec < (p.expr y).exec := by
  rw [h.bracketed.exec_lt_iff h.enumerated_bare (h.order.symm ▸ hx) (h.order.symm ▸ hy),
    exec_congr h.bare, exec_congr h.bare]

/-- The live range of a register covers the expressions that it covered. -/
theorem contains_range {r : Reg} {range : Interval} (hrange : v.live.ranges.get? r = some range) :
    ∃ range', kernel.live.ranges.get? r = some range' ∧ ∀ x ∈ p.order,
      range'.contains (kernel.program.expr x).exec = range.contains (p.expr x).exec := by
  obtain ⟨range', hrange', hcontains⟩ :=
    h.bracketed.contains_range h.enumerated_bare (h.ranges.symm ▸ hrange)
  refine ⟨range', hrange', fun x hx => ?_⟩
  rw [hcontains x (h.order.symm ▸ hx), exec_congr h.bare]

/-- The physical register of a value belongs to its abstract register. -/
theorem get?_physReg {x : ValueRef} (hx : p.Owns x)
    (hd : (v.program.abstractReg x).isDefined = true) :
    kernel.allocation.regMap.get? (v.program.abstractReg x) = some (kernel.program.physReg x) := by
  obtain ⟨o, ho⟩ := hasValue_iff.mp ((hasValue_congr h.bare x).mpr hx.2)
  have hport : w.program.portAt .output x.producer x.output = some o.port :=
    congrArg (Option.map Output.port) ho
  have habs : o.port.abstract = v.program.abstractReg x := by
    rw [← h.applied.abstractReg_eq x, Program.abstractReg, ho]
  have hreg : kernel.program.physReg x = o.port.reg := by
    rw [physReg, h.bracketed.ports.output?, ho]
  rw [hreg, ← habs]
  exact h.applied.get?_eq (order_congr h.ranged.bare ▸ hx.1) hport (habs ▸ hd)

end Finished

end TensorKernel.Kernel
