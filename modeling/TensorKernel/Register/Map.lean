import TensorKernel.Program.Basic
import TensorKernel.Register.Table

/-!
# Register maps

A map from abstract to physical registers can be merged with another one, used to translate sets, and
applied to the ports of a program.
-/

namespace TensorKernel

/-- A map from abstract to physical registers. -/
abbrev RegMap := RegTable Reg

namespace RegMap

/-- The physical registers of a set; the first register without one is refused. -/
def translate (m : RegMap) (s : RegSet) : Except Reg RegSet :=
  s.toList.foldlM (fun out r =>
    match m.get? r with
    | some phys => .ok (out.insert phys)
    | none => .error r) ∅

/-- A port whose abstract register has no physical one. -/
structure Unmapped where
  /-- The name of the expression. -/
  expr : Label
  /-- Whether it is an input or an output. -/
  side : Side
  /-- Which one. -/
  index : Nat
  /-- The abstract register. -/
  abstract : Reg
deriving DecidableEq, Repr

/-- The wording for a port without a physical register. -/
def Unmapped.message (u : Unmapped) : String :=
  s!"{u.expr} {u.side.name}{u.index}: no physical register for " ++ u.abstract.text

/-- Write the physical register of one port; a port without an abstract register is left alone. -/
def applyPort (m : RegMap) (id : ExprId) (side : Side) (k : Nat) (abstract : Reg) :
    EStateM Unmapped Program Unit := do
  if abstract.isDefined then
    match m.get? abstract with
    | some phys => modify fun p => p.modifyPort ⟨id, side, k⟩ (.setReg phys)
    | none => throw ⟨((← get).expr id).name, side, k, abstract⟩

/-- Write the physical registers of an expression, inputs first. -/
def applyExpr (m : RegMap) (id : ExprId) : EStateM Unmapped Program Unit := do
  let e := (← get).expr id
  e.inputs.zipIdx.forM fun (i, k) => m.applyPort id .input k i.port.abstract
  e.outputs.zipIdx.forM fun (o, k) => m.applyPort id .output k o.port.abstract

/-- Write the physical registers of all ports of a program, looked up by the abstract registers that
the ports keep. Ports before the first one that has none are written. -/
def apply (m : RegMap) : EStateM Unmapped Program Unit := do
  (← get).order.forM m.applyExpr

end RegMap

end TensorKernel
