import TensorKernel.Kernel.Compile
import TensorKernel.Program.Listing
import TensorKernel.Spill.SaveArea

/-!
# Reports on compiled kernels

The texts that show live ranges, register assignment and spills of a compiled kernel.
-/

namespace TensorKernel.Kernel

/-- The listing with the machine's names for registers. -/
def listing (k : Kernel) : List String := k.program.lines k.machine.regName

/-- The live ranges of the abstract registers. -/
def rangeLines (k : Kernel) : List String :=
  s!"live ranges of {k.program.name}:" ::
    k.live.ranges.entries.map fun (r, range) => "  " ++ padRight 6 r.text ++ " " ++ range.text

/-- The physical register of each abstract register, and how it was found. -/
def registerLines (k : Kernel) : List String :=
  let map := k.allocation.regMap
  s!"registers of {k.program.name}:" ::
    k.live.ranges.keys.map fun r =>
      "  " ++ padRight 6 r.text ++ " -> " ++
        padRight 4 (k.machine.regName ((map.get? r).getD .unassigned)) ++
        (if k.allocation.isManual r then " (pinned)" else " (scan)")

/-- The save area of a bracket. -/
def saveArea (k : Kernel) (b : Bracket) : SaveArea :=
  SaveArea.ofRegs k.machine ((k.program.expr b.opening).spilled.getD ∅)

/-- The save area of a bracket, introduced by the call that it is for. -/
def spillLines (k : Kernel) (b : Bracket) : List String :=
  let call := k.program.expr b.call
  match (k.saveArea b).lines k.machine with
  | [] => []
  | first :: rest => (s!"{call.name} at {call.exec}: " ++ first) :: rest

/-- All save areas, and the registers preserved for the caller. -/
def saveLines (k : Kernel) : List String :=
  s!"spills of {k.program.name}:" ::
    (k.spills.flatMap k.spillLines ++
      ["callee-saved: [" ++ String.intercalate " " (k.calleeSaved.map k.machine.regName) ++ "]"])

end TensorKernel.Kernel
