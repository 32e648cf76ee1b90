import TensorKernel.Program.Basic

/-!
# Copying expressions

A copy of an expression has the same operation and the same port shapes, but no registers and its
own outputs. Copying a range of a program rewires what is produced inside the range to the copies;
a value that is also used outside the range shares its alias group with its copy, so that both
copies write the same register.
-/

namespace TensorKernel

namespace Expr

/-- The copy of an expression with number `id` under another name, reading the given values. -/
def copy (e : Expr) (id : ExprId) (name : Label) (sources : List ValueRef) : Expr :=
  { e with
    name := name
    origin := some id
    inputs := List.zipWith (fun source (i : Input) => ⟨source, i.port.fresh⟩) sources e.inputs
    outputs := e.outputs.map fun o => { port := o.port.fresh }
    position := none }

end Expr

namespace Program

/-- Make a copy of an expression. -/
def makeCopy (p : Program) (id : ExprId) (name : Label) (sources : List ValueRef) :
    ExprId × Program :=
  p.make ((p.expr id).copy id name sources)

/-- The copy of an expression, or the expression itself if it was not copied. -/
def copyOf (copies : List (ExprId × ExprId)) (id : ExprId) : ExprId := (copies.lookup id).getD id

/-- Whether a value is used by an expression that `inside` does not list. -/
def usedOutside (p : Program) (inside : List ExprId) (v : ValueRef) : Bool :=
  (p.uses v).any fun u => !inside.contains u.consumer

/-- Put the outputs of a copy into the alias groups of those outputs of `id` that are used outside. -/
def joinUsedOutside (p : Program) (inside : List ExprId) (id copy : ExprId) : Program :=
  (List.range (p.expr id).outputs.length).foldl
    (fun p k => if p.usedOutside inside ⟨id, k⟩ then p.join ⟨copy, k⟩ ⟨id, k⟩ else p) p

/-- Copy one more expression of a range, given the copies of the earlier ones. -/
def copyNext (inside : List ExprId) (state : List (ExprId × ExprId) × Program) (id : ExprId) :
    List (ExprId × ExprId) × Program :=
  let (copies, p) := state
  let e := p.expr id
  let sources := e.inputs.map fun i => { i.source with producer := copyOf copies i.source.producer }
  let (name, p) := p.uniqueName e.name
  let (copy, p) := p.makeCopy id name sources
  (copies ++ [(id, copy)], p.joinUsedOutside inside id copy)

/-- Copy the expressions `inside`, in order, and pair each with its copy. The copies are not put into
the program. -/
def copyAll (p : Program) (inside : List ExprId) : List (ExprId × ExprId) × Program :=
  inside.foldl (copyNext inside) ([], p)

end Program

namespace Edit

/-- Make a copy of an expression that reads the given values, one for each of its inputs. At the
first missing one the copy is abandoned, but the uses before it stay. -/
def makeCopy (id : ExprId) (name : Label) (sources : List (Option ValueRef)) : Edit ExprId := do
  let e := (← get).expr id
  if sources.length ≠ e.inputs.length then
    throw (.cloneArity e.name sources.length e.inputs.length)
  let present := (sources.takeWhile Option.isSome).filterMap fun source => source
  if present.length = sources.length then
    change fun p => p.makeCopy id name present
  else
    let _ ← change fun p => p.make { e.copy id name present with outputs := [] }
    throw (.missingInput name present.length)

/-- Copy the expressions in the slots from `begin` up to `stop`, the latter not included, and pair
each with its copy. The range may reach into the free slots: the expressions before them are copied,
but a free slot has nothing to copy. -/
def copyRange (begin stop : Int) : Edit (List (ExprId × ExprId)) := do
  let p ← get
  if begin < 0 ∨ stop < begin ∨ (p.slots : Int) < stop then throw .outOfBounds
  let inside := (p.order.take stop.toNat).drop begin.toNat
  let copies ← change fun p => p.copyAll inside
  if (inside.length : Int) < stop - begin then throw .outOfBounds
  return copies

end Edit

end TensorKernel
