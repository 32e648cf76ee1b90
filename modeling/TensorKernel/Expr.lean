import TensorKernel.ElementType
import TensorKernel.Register.Set
import TensorKernel.Role

/-!
# Expressions

An expression is one operation of a kernel. Its outputs are the values that it produces; each of its
inputs reads one value. Every input and every output is a port, and a port carries the shape of the
value seen there and the register that holds it.

Expressions refer to each other by number, so a value is the number of its producer with the place
among the producer's outputs, and a use is the number of its consumer with the place among the
consumer's inputs.
-/

namespace TensorKernel

/-- The number of an expression. -/
abbrev ExprId := Nat

/-- The number of a loop. -/
abbrev LoopId := Int

/-- A value: an output of an expression. -/
structure ValueRef where
  /-- The expression that produces the value. -/
  producer : ExprId
  /-- Which of its outputs the value is. -/
  output : Nat
deriving DecidableEq, Repr, Inhabited

/-- A use of a value: an input of an expression. -/
structure UseRef where
  /-- The expression that consumes the value. -/
  consumer : ExprId
  /-- Which of its inputs reads the value. -/
  input : Nat
deriving DecidableEq, Repr, Inhabited

/-- The two kinds of ports. -/
inductive Side where
  | input
  | output
deriving DecidableEq, Repr, Inhabited

/-- The word for a side in port names. -/
def Side.name : Side → String
  | .input => "in"
  | .output => "out"

/-- A reference to a port, which need not exist. -/
structure PortRef where
  /-- The expression that is referred to. -/
  expr : ExprId
  /-- Whether an input or an output is meant. -/
  side : Side
  /-- The place among the inputs or outputs. -/
  index : Int
deriving DecidableEq, Repr, Inhabited

/-- What is known at a port about the value seen through it. -/
structure Port where
  /-- The shape of the value. -/
  shape : List Int
  /-- The register that holds the value: none, abstract or physical. -/
  reg : Reg := .unassigned
  /-- The abstract register, which stays when a physical one is written. -/
  abstract : Reg := .unassigned
deriving DecidableEq, Repr, Inhabited

namespace Port

/-- Give the port an abstract register, which is then also the current one. -/
def setAbstract (r : Reg) (port : Port) : Port := { port with reg := r, abstract := r }

/-- Overwrite the current register only. -/
def setReg (r : Reg) (port : Port) : Port := { port with reg := r }

/-- A port of the same shape without registers. -/
def fresh (port : Port) : Port := { shape := port.shape }

end Port

/-- An input: the value it reads and its own port. -/
structure Input where
  /-- The value read. -/
  source : ValueRef
  /-- Shape and registers at this end. -/
  port : Port
deriving DecidableEq, Repr, Inhabited

/-- An output: its port, its uses, and the alias group of the value.

Copies of a loop body write the same value as the body they were copied from. Such values form an
alias group with one root; all values of a group get the same register. -/
structure Output where
  /-- Shape and registers at this end. -/
  port : Port
  /-- The inputs that read the value, in the order in which they came. -/
  uses : List UseRef := []
  /-- The root of the alias group, unless this value is the root itself. -/
  root : Option ValueRef := none
  /-- The values that this value is the root of. -/
  aliases : List ValueRef := []
deriving DecidableEq, Repr, Inhabited

/-- One operation of a kernel. -/
structure Expr where
  /-- The name, unique among the expressions of a program. -/
  name : Label
  /-- The operation kind, e.g. `Add`. -/
  kind : Label
  /-- The role that the passes look at. -/
  role : Role
  /-- The element type of the outputs. -/
  type : ElementType
  /-- The values read. -/
  inputs : List Input
  /-- The values produced. -/
  outputs : List Output
  /-- The position when the program was last numbered. -/
  position : Option Nat := none
  /-- The loops around the expression, outermost first; a marker does not list its own loop. -/
  loops : List LoopId := []
  /-- The register group of a buffer. -/
  group : Int64 := 0
  /-- The loop a marker belongs to. -/
  loop : LoopId := 0
  /-- The registers that a spill marker saves or restores. -/
  spilled : Option RegSet := none
  /-- The expression that this one was copied from, if it is a copy. -/
  origin : Option ExprId := none
deriving DecidableEq, Inhabited

namespace Expr

/-- The execution number: the position, or -1 before the program is numbered. -/
def exec (e : Expr) : Int :=
  match e.position with
  | some n => n
  | none => -1

/-- Change one input port. -/
def mapInputPort (e : Expr) (k : Nat) (f : Port → Port) : Expr :=
  { e with inputs := e.inputs.modify k fun input => { input with port := f input.port } }

/-- Change one output. -/
def mapOutput (e : Expr) (k : Nat) (f : Output → Output) : Expr :=
  { e with outputs := e.outputs.modify k f }

/-- Change one output port. -/
def mapOutputPort (e : Expr) (k : Nat) (f : Port → Port) : Expr :=
  e.mapOutput k fun output => { output with port := f output.port }

/-- Change every port. -/
def mapPorts (e : Expr) (f : Port → Port) : Expr :=
  { e with
    inputs := e.inputs.map fun input => { input with port := f input.port }
    outputs := e.outputs.map fun output => { output with port := f output.port } }

end Expr

/-- What an expression is to be made of, apart from its name and inputs. -/
structure Op where
  /-- The operation kind. -/
  kind : Label
  /-- The role; a plain role is replaced by the role of the kind. -/
  role : Role := .op
  /-- The element type of the outputs. -/
  type : ElementType := .invalid
  /-- The shape of the outputs. -/
  shape : List Int := []
  /-- The number of outputs; a negative number counts as none. -/
  outputs : Int := 0
  /-- The register group of a buffer. -/
  group : Int64 := 0
  /-- The loop of a marker. -/
  loop : LoopId := 0
  /-- The registers of a spill marker. -/
  spilled : Option RegSet := none

/-- An expression that does `op` on the given inputs. -/
def Op.expr (op : Op) (name : Label) (inputs : List Input) : Expr where
  name := name
  kind := op.kind
  role := op.role.orOfKind op.kind
  type := op.type
  inputs := inputs
  outputs := List.replicate op.outputs.toNat { port := { shape := op.shape } }
  group := op.group
  loop := op.loop
  spilled := op.spilled

end TensorKernel
