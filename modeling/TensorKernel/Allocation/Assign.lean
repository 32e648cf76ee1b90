import TensorKernel.Allocation.LinearScan
import TensorKernel.Allocation.Pins
import TensorKernel.Liveness.Basic
import TensorKernel.Machine.Basic

/-!
# Assigning registers

Registers fixed by conventions are taken out of the pools; linear scan then allocates the rest, one
bank after the other. Nothing is written before both banks are allocated. Then every port gets its
physical register, and so does every member of a live set.
-/

namespace TensorKernel

/-- The physical registers of a program. -/
structure Allocation where
  /-- Registers fixed by conventions. -/
  manual : RegMap := ∅
  /-- Registers chosen by linear scan. -/
  auto : RegMap := ∅
deriving DecidableEq, Inhabited

namespace Allocation

/-- The complete map from abstract to physical registers. -/
def regMap (a : Allocation) : RegMap := a.manual.merge a.auto

/-- Whether a register was fixed by a convention. -/
def isManual (a : Allocation) (r : Reg) : Bool := a.manual.contains r

/-- The registers of a bank that linear scan may hand out. -/
def freePool (m : Machine) (pins : RegMap) (bank : Bank) : List Reg :=
  ((List.range (m.poolSize bank).toNat).map fun (i : Nat) => (⟨bank, i⟩ : Reg)).filter
    (!pins.values.contains ·)

/-- Allocate the registers of one bank that are not pinned. -/
def allocateBank (program : Label) (m : Machine) (ranges : RegTable Interval) (pins : RegMap)
    (bank : Bank) : Except Refusal RegMap := do
  let size := m.poolSize bank
  if let some phys := pins.values.find? fun phys => phys.bank = bank ∧ size ≤ phys.index then
    throw (.shortage (.pinnedOutside bank size phys))
  let scan ← (LinearScan.start bank (freePool m pins bank)).mapError .fault
  match LinearScan.allocate (ranges.filter fun r _ => r.bank = bank ∧ !pins.contains r) scan with
  | .ok assigned _ => .ok assigned
  | .error (.shortage s) _ => .error (.shortage (.during program s))
  | .error refusal _ => .error refusal

/-- Choose the physical registers of a program without changing it. -/
def choose (m : Machine) (w : Workspace) : Except Refusal Allocation := do
  if let some r := w.live.ranges.keys.find? fun r => r.bank ≠ .gpr ∧ r.bank ≠ .vec then
    throw (.fault (.unsupportedBank w.program.name r))
  let manual ← w.program.pins.mapError .fault
  let gprs ← allocateBank w.program.name m w.live.ranges manual .gpr
  let vecs ← allocateBank w.program.name m w.live.ranges manual .vec
  return { manual, auto := gprs.merge vecs }

end Allocation

namespace Workspace

/-- Write the physical registers of all ports. -/
def writePorts (m : RegMap) : EStateM Refusal Workspace Unit := fun w =>
  match m.apply w.program with
  | .ok () program => .ok () { w with program }
  | .error u program =>
    .error (.fault (.portUnassigned program.name u.expr u.side.name u.index u.abstract))
      { w with program }

/-- Translate the live set of an expression. -/
def translateLive (m : RegMap) (id : ExprId) : EStateM Refusal Workspace Unit := do
  let w ← get
  let name := (w.program.expr id).name
  match w.live.liveSet id name with
  | .error fault => throw (.fault fault)
  | .ok live =>
    match m.translate live with
    | .error r => throw (.fault (.liveUnassigned w.program.name name r))
    | .ok live => set { w with live := w.live.putSet id live }

/-- Assign a physical register to every abstract register with a live range, and enter them in ports
and live sets. -/
def assign (m : Machine) : EStateM Refusal Workspace Allocation := do
  match Allocation.choose m (← get) with
  | .error refusal => throw refusal
  | .ok allocation =>
    writePorts allocation.regMap
    (← get).program.order.forM (translateLive allocation.regMap)
    return allocation

end Workspace

end TensorKernel
