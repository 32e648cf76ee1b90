import TensorKernel.Allocation.Assign

/-!
# Checking an allocation

An allocation is checked without looking at how it was made: every port holds the physical register
of its abstract register, within its pool; every value is produced and consumed within its live
range; and registers whose live ranges overlap do not share a physical register, unless both are
fixed by conventions, which share on purpose.
-/

namespace TensorKernel

/-- What is wrong with an allocation. -/
inductive Violation where
  /-- A port has no register. -/
  | unassigned (expr : Label) (side : Side) (index : Nat)
  /-- A port holds another register than its abstract register is mapped to. -/
  | mismatch (expr : Label) (side : Side) (index : Nat) (abstract phys expected : Reg)
  /-- A port holds a register that is not in its pool. -/
  | outsidePool (expr : Label) (side : Side) (index : Nat) (phys : Reg) (size : Int)
  /-- A value is produced outside its live range. -/
  | producedOutside (expr : Label) (output : Nat) (exec : Int) (range : Interval) (abstract : Reg)
  /-- A value is consumed outside its live range. -/
  | consumedOutside (expr : Label) (abstract : Reg) (exec : Int) (range : Interval)
  /-- A register with a live range is not mapped. -/
  | unmapped (reg : Reg)
  /-- Two registers with overlapping live ranges share a physical register. -/
  | overlap (a : Reg) (aRange : Interval) (b : Reg) (bRange : Interval) (phys : Reg)
deriving DecidableEq, Repr

namespace Violation

/-- The wording of a violation. -/
def message : Violation → String
  | unassigned expr side index => s!"{expr} {side.name}{index}: no register assigned"
  | mismatch expr side index abstract phys expected =>
    s!"{expr} {side.name}{index}: " ++ abstract.text ++ " holds " ++ phys.text ++ ", expected " ++
      expected.text
  | outsidePool expr side index phys size =>
    s!"{expr} {side.name}{index}: " ++ phys.text ++ " outside the " ++ phys.bank.name ++
      s!" pool of {size} registers"
  | producedOutside expr output exec range abstract =>
    s!"{expr} out{output}: produced at {exec} outside " ++ range.text ++ " of " ++ abstract.text
  | consumedOutside expr abstract exec range =>
    s!"{expr}: consumes " ++ abstract.text ++ s!" at {exec} outside " ++ range.text
  | unmapped reg => reg.text ++ ": no physical register"
  | overlap a aRange b bRange phys =>
    a.text ++ " " ++ aRange.text ++ " and " ++ b.text ++ " " ++ bRange.text ++
      " overlap but both use " ++ phys.text

end Violation

namespace Workspace

/-- What is wrong with the registers of a port. -/
def portViolations (m : Machine) (map : RegMap) (expr : Label) (side : Side) (k : Nat)
    (port : Port) : List Violation :=
  if !port.abstract.isDefined then [.unassigned expr side k]
  else
    let expected := map.get? port.abstract
    let size := m.poolSize port.reg.bank
    (if expected = some port.reg then []
      else [.mismatch expr side k port.abstract port.reg (expected.getD .unassigned)]) ++
    (if 0 ≤ port.reg.index ∧ port.reg.index < size then []
      else [.outsidePool expr side k port.reg size])

/-- What is wrong with the positions at which an output is produced and consumed. -/
def positionViolations (w : Workspace) (e : Expr) (k : Nat) (o : Output) : List Violation :=
  match w.live.ranges.get? o.port.abstract with
  | none => []
  | some range =>
    if !o.port.abstract.isDefined then []
    else
      (if range.contains e.exec then []
        else [.producedOutside e.name k e.exec range o.port.abstract]) ++
      o.uses.filterMap fun u =>
        let consumer := w.program.expr u.consumer
        if range.contains consumer.exec then none
        else some (.consumedOutside consumer.name o.port.abstract consumer.exec range)

/-- What is wrong with an expression: its inputs, then output by output. -/
def exprViolations (w : Workspace) (m : Machine) (map : RegMap) (e : Expr) : List Violation :=
  (e.inputs.zipIdx.flatMap fun (i, k) => portViolations m map e.name .input k i.port) ++
  (e.outputs.zipIdx.flatMap fun (o, k) =>
    portViolations m map e.name .output k o.port ++ w.positionViolations e k o)

/-- Whether two live registers share the physical register `phys` although their ranges overlap and
not both are fixed by conventions. -/
def clash (a : Allocation) (phys : Reg) (x y : Reg × Interval) : Option Violation :=
  if a.isManual x.1 ∧ a.isManual y.1 then none
  else if x.2.overlaps y.2 then some (.overlap x.1 x.2 y.1 y.2 phys)
  else none

/-- The clashes between each entry and the entries behind it. -/
def clashes (a : Allocation) (phys : Reg) : List (Reg × Interval) → List Violation
  | [] => []
  | x :: rest => rest.filterMap (clash a phys x) ++ clashes a phys rest

/-- The physical registers that live registers are mapped to, each once. -/
def sharedRegs (w : Workspace) (map : RegMap) : RegSet :=
  RegSet.ofList (w.live.ranges.keys.filterMap map.get?)

/-- Everything that is wrong with an allocation, in the order in which it is found. -/
def violations (w : Workspace) (m : Machine) (a : Allocation) : List Violation :=
  let map := a.regMap
  w.program.list.flatMap (w.exprViolations m map) ++
  (w.live.ranges.keys.filter fun r => !map.contains r).map .unmapped ++
  (w.sharedRegs map).toList.flatMap fun phys =>
    clashes a phys (w.live.ranges.entries.filter fun (r, _) => map.get? r = some phys)

end Workspace

end TensorKernel
