import TensorKernel.Machine.Basic
import TensorKernel.Program.Basic

/-!
# Registers that a kernel uses

The registers held by the ports of a program, and those among them that the kernel has to preserve
for its caller. Spill markers have no ports, so what they save does not count as used.
-/

namespace TensorKernel

namespace Expr

/-- The registers held by the ports of an expression. -/
def portRegs (e : Expr) : List Reg :=
  (e.inputs.map (·.port.reg) ++ e.outputs.map (·.port.reg)).filter (·.isDefined)

end Expr

namespace Program

/-- The registers held by ports. -/
def usedRegs (p : Program) : RegSet := RegSet.ofList (p.list.flatMap Expr.portRegs)

/-- A register is used exactly if a port of an expression of the program holds it. -/
theorem mem_usedRegs {p : Program} {r : Reg} :
    r ∈ p.usedRegs ↔ ∃ id ∈ p.order, r ∈ (p.expr id).portRegs := by
  simp only [usedRegs, list, RegSet.mem_ofList, List.mem_flatMap, List.mem_map]
  constructor
  · rintro ⟨_, ⟨id, hid, rfl⟩, hr⟩
    exact ⟨id, hid, hr⟩
  · rintro ⟨id, hid, hr⟩
    exact ⟨_, ⟨id, hid, rfl⟩, hr⟩

/-- The used registers that the kernel preserves for its caller, ascending. -/
def calleeSaved (p : Program) (m : Machine) : List Reg := p.usedRegs.toList.filter m.isCalleeSaved

end Program

end TensorKernel
