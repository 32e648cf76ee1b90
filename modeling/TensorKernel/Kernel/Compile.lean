import TensorKernel.Allocation.Check
import TensorKernel.Liveness.Ranges
import TensorKernel.Loop.Markers
import TensorKernel.Loop.Pointers
import TensorKernel.Loop.Split
import TensorKernel.Spill.Bracket
import TensorKernel.Spill.CalleeSaved

/-!
# Compiling kernels

Compilation sets up the pointer arithmetic of the loops, inserts their markers, splits them, numbers
the program, computes live ranges, assigns registers, checks the assignment, and brackets calls.
-/

namespace TensorKernel

/-- Which parts of compilation are left out. -/
structure CompileOptions where
  /-- Leave loops unified. -/
  noIterations : Bool := false
  /-- Do not save live registers around calls. -/
  noSpills : Bool := false
deriving DecidableEq, Repr, Inhabited

/-- A compiled kernel. -/
structure Kernel extends Workspace where
  /-- The machine it is for. -/
  machine : Machine
  /-- Its physical registers. -/
  allocation : Allocation
  /-- The brackets around its calls, in program order. -/
  spills : List Bracket := []
  /-- The registers that it preserves for its caller. -/
  calleeSaved : List Reg := []
  /-- What the handlers of its loops saw. -/
  events : List HandlerEvent := []
deriving DecidableEq, Inhabited

/-- Why a program could not be compiled. -/
inductive CompileCause where
  /-- A pass refused it. -/
  | refused (refusal : Refusal)
  /-- The check of the assignment found something. -/
  | rejected (violations : List Violation)
deriving DecidableEq, Repr

/-- The wording of a cause. Violations are listed in the order in which they were found. -/
def CompileCause.message : CompileCause → String
  | refused refusal => refusal.message
  | rejected violations =>
    "register assignment check failed: " ++
      String.intercalate "; " (violations.map Violation.message)

/-- A program that could not be compiled for a machine. -/
structure CompileError where
  /-- The name of the program. -/
  program : Label
  /-- The name of the machine. -/
  machine : String
  /-- The cause. -/
  cause : CompileCause
deriving DecidableEq, Repr

/-- The wording of a failed compilation. -/
def CompileError.message (e : CompileError) : String :=
  s!"compiling {e.program} for {e.machine}: " ++ e.cause.message

namespace Kernel

/-- A pass of compilation. -/
abbrev Pass (α : Type) := EStateM CompileCause Workspace α

/-- A change to the workspace as a pass. -/
def pass {α : Type} (step : EStateM Fault Workspace α) : Pass α :=
  EStateM.adaptExcept (fun fault => .refused (.fault fault)) step

/-- A change to the program as a pass. -/
def edit {α : Type} (change : Edit α) : Pass α := pass (Workspace.edit change)

/-- The loops of the program: pointer arithmetic, markers, and splitting unless it is left out. -/
def lowerLoops (options : CompileOptions) : Pass (List HandlerEvent) := do
  edit Edit.initLoops
  edit Edit.insertAllMarkers
  if options.noIterations then return [] else edit Edit.splitLoops

/-- The registers of the program: live ranges, assignment and check. -/
def allocate (m : Machine) : Pass Allocation := do
  modify fun w => { w with program := w.program.enumerate }
  pass Workspace.computeRanges
  let allocation ← EStateM.adaptExcept CompileCause.refused (Workspace.assign m)
  let violations := (← get).violations m allocation
  if !violations.isEmpty then throw (.rejected violations)
  return allocation

/-- All passes. -/
def passes (m : Machine) (options : CompileOptions) : Pass Kernel := do
  let events ← lowerLoops options
  let allocation ← allocate m
  let spills ← if options.noSpills then pure [] else pass Workspace.insertSpills
  let w ← get
  return { w with
    machine := m, allocation, spills, calleeSaved := w.program.calleeSaved m, events }

/-- Compile a program for a machine. The program is changed; a failure keeps the changes made before
it. -/
def compile (m : Machine) (options : CompileOptions) : EStateM CompileError Program Kernel :=
  fun p =>
    match passes m options { program := p } with
    | .ok kernel w => .ok kernel w.program
    | .error cause w => .error ⟨w.program.name, m.name, cause⟩ w.program

end Kernel

end TensorKernel
