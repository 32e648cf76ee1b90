import TensorKernel.Program.Chain
import TensorKernel.Register.Map

/-!
# Pinned registers

Some values live in registers that a convention fixes. Parameters and results, with their views, get
one data pointer each, in order. Buffers of one register group share a pointer behind those. A
horizontal reduction shares a vector register with its input and with the fill that seeds it, so that
they act as an accumulator.
-/

namespace TensorKernel

namespace Pins

/-- Pin a value to a physical register. The value must have an abstract register of the same bank
that is not pinned elsewhere. -/
def pin (p : Program) (pins : RegMap) (v : ValueRef) (phys : Reg) : Except Fault RegMap :=
  let abstract := p.abstractReg v
  let owner := (p.expr v.producer).name
  if !abstract.isDefined then .error (.pinUndefined p.name owner)
  else if abstract.bank ≠ phys.bank then .error (.pinBank p.name abstract owner phys)
  else match pins.get? abstract with
    | some earlier =>
      if earlier = phys then .ok pins
      else .error (.pinConflict p.name abstract owner earlier phys)
    | none => .ok (pins.insert abstract phys)

/-- Pin values to one physical register, in order. -/
def pinAll (p : Program) (phys : Reg) (pins : RegMap) (values : List ValueRef) :
    Except Fault RegMap :=
  values.foldlM (fun pins v => pin p pins v phys) pins

/-- Pin output 0 of an expression. -/
def pinOutput (p : Program) (phys : Reg) (pins : RegMap) (id : ExprId) : Except Fault RegMap := do
  pin p pins (← p.output id 0) phys

/-- Pin what input 0 of an expression reads. -/
def pinInput (p : Program) (phys : Reg) (pins : RegMap) (id : ExprId) : Except Fault RegMap := do
  pin p pins (← p.input id 0) phys

/-- Pin the data pointer of a parameter. -/
def pinParameter (p : Program) (pins : RegMap) (entry : ExprId × Nat) : Except Fault RegMap :=
  (entry.1 :: p.viewsAfter entry.1).foldlM (pinOutput p (.gpr entry.2)) pins

/-- Pin the data pointer of a result. -/
def pinResult (p : Program) (pins : RegMap) (entry : ExprId × Nat) : Except Fault RegMap :=
  (entry.1 :: p.viewsBefore entry.1).foldlM (pinInput p (.gpr entry.2)) pins

/-- The register of a buffer group: groups follow the `boundary` data pointers. Indices are 64-bit. -/
def groupReg (boundary : Nat) (group : Int64) : Reg :=
  .gpr (Int64.ofNat boundary + group).toInt

/-- Pin a buffer: its inputs, its views and its output. -/
def pinBuffer (p : Program) (boundary : Nat) (pins : RegMap) (id : ExprId) : Except Fault RegMap := do
  let e := p.expr id
  let phys := groupReg boundary e.group
  let pins ← pinAll p phys pins (e.inputs.map (·.source))
  let pins ← (p.viewsAfter id).foldlM (fun pins view => do
    pinOutput p phys (← pinInput p phys pins view) view) pins
  pinOutput p phys pins id

/-- The values that seed the accumulator of a reduction whose input is `v`: for each operand of the
producer of `v` that a fill of a vector buffer makes, that operand and what the fill reads. -/
def seeds (p : Program) (v : ValueRef) : List ValueRef :=
  (p.expr v.producer).inputs.flatMap fun i =>
    let fill := p.expr i.source.producer
    match fill.inputs with
    | [] => []
    | seed :: _ =>
      if fill.role = .fill ∧ (p.expr seed.source.producer).role = .vectorBuffer then
        [i.source, seed.source]
      else []

/-- Pin a horizontal reduction to its accumulator. -/
def pinReduction (p : Program) (accumulator : Nat) (pins : RegMap) (id : ExprId) :
    Except Fault RegMap := do
  let v ← p.input id 0
  pinAll p (.vec accumulator) pins (seeds p v ++ [v])

/-- Pin an expression of the program; the state is the number of reductions met so far and the pins. -/
def pinExpr (p : Program) (boundary : Nat) (state : Nat × RegMap) (id : ExprId) :
    Except Fault (Nat × RegMap) := do
  let (accumulator, pins) := state
  let role := (p.expr id).role
  if role = .buffer then return (accumulator, ← pinBuffer p boundary pins id)
  else if role.isHorizontal then return (accumulator + 1, ← pinReduction p accumulator pins id)
  else return state

end Pins

/-- The registers that conventions fix. -/
def Program.pins (p : Program) : Except Fault RegMap := do
  let pins ← p.parameters.zipIdx.foldlM (Pins.pinParameter p) ∅
  let pins ← (p.results.zipIdx p.parameters.length).foldlM (Pins.pinResult p) pins
  let boundary := p.parameters.length + p.results.length
  let (_, pins) ← p.order.foldlM (Pins.pinExpr p boundary) (0, pins)
  return pins

end TensorKernel
