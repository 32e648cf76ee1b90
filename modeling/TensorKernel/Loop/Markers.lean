import TensorKernel.Program.Basic
import TensorKernel.Sorting

/-!
# Loop markers

A loop is delimited in the program by two markers. The begin marker goes right before the first entry
expression and produces the loop counter; the end marker goes right behind the last exit expression
and consumes the data pointers of all loop ports and the counter. Markers of loops nested inside stay
inside.
-/

namespace TensorKernel

namespace Program

/-- The loops around loop `id`, given the loops of an expression in it. -/
def outerOf (loops : List LoopId) (id : LoopId) : List LoopId := loops.takeWhile (· ≠ id)

/-- A marker of another loop that lies inside loop `id`. -/
def isInnerMarker (p : Program) (role : Role) (id : LoopId) (e : ExprId) : Bool :=
  let e := p.expr e
  e.role = role ∧ e.loop ≠ id ∧ id ∈ e.loops

/-- The positions of the expressions that loop ports refer to; `outside` is the fault for an
expression that is not in the program. -/
def portPositions (p : Program) (outside : Label → Fault) (ports : List LoopPort) :
    Except Fault (List Nat) :=
  ports.mapM fun port =>
    match p.indexOf? port.port.expr with
    | some i => .ok i
    | none => .error (outside (p.expr port.port.expr).name)

/-- The positions of the first and the last expression of loop `id`: from the first entry to the last
exit, widened over the markers of inner loops next to them. -/
def loopSpan (p : Program) (id : LoopId) (frame : LoopFrame) : Except Fault (Nat × Nat) := do
  if frame.entries.isEmpty ∨ frame.exits.isEmpty then throw (.markersNeedPorts id)
  let entries ← p.portPositions (.entryOutside id) frame.entries
  let first := entries.min?.getD 0
  let exits ← p.portPositions (.exitOutside id) frame.exits
  let last := exits.max?.getD 0
  if last < first then throw (.exitBeforeEntry id)
  let before := (p.order.take first).reverse.takeWhile (p.isInnerMarker .loopBegin id)
  let behind := (p.order.drop (last + 1)).takeWhile (p.isInnerMarker .loopEnd id)
  return (first - before.length, last + behind.length)

/-- Give an expression the loops around it. -/
def setLoops (p : Program) (id : ExprId) (loops : List LoopId) : Program :=
  p.modifyExpr id fun e => { e with loops }

/-- How deep a loop lies: the deepest place at which an expression lists it. -/
def listedDepth (p : Program) (id : LoopId) : Nat :=
  p.list.foldl (fun d e => e.loops.zipIdx.foldl (fun d (l, k) => if l = id then max d k else d) d) 0

end Program

namespace Edit

/-- Make a marker of loop `id`, named after it, inside the loops `outer`. -/
def makeMarker (kind : String) (role : Role) (base : String) (outputs : Int) (id : LoopId)
    (outer : List LoopId) (inputs : List ValueRef) : Edit ExprId :=
  change fun p =>
    let (name, p) := p.uniqueName (base ++ toString id)
    let (marker, p) := p.makeOp name { kind, role, outputs, loop := id } inputs
    (marker, p.setLoops marker outer)

/-- Insert the markers of loop `id` and give their numbers. -/
def insertMarkers (id : LoopId) : Edit (ExprId × ExprId) := do
  let frame := (← ask fun p => p.loops.loop id).frame
  let (first, last) ← ask fun p => p.loopSpan id frame
  let p ← get
  let outer := Program.outerOf (match p.order[first]? with
    | some e => (p.expr e).loops
    | none => []) id
  let begin ← makeMarker "LoopBegin" .loopBegin "loop_begin_" 1 id outer []
  let pointers ← frame.ports.mapM fun port => ask fun p => p.value port.port
  let end_ ← makeMarker "LoopEnd" .loopEnd "loop_end_" 0 id outer (pointers ++ [⟨begin, 0⟩])
  insertAt (last + 1) [end_]
  insertAt first [begin]
  return (begin, end_)

/-- Insert the markers of all loops, innermost loops first so that outer markers enclose inner ones. -/
def insertAllMarkers : Edit Unit := do
  let p ← get
  let ids := sortBy (fun a b => p.listedDepth b ≤ p.listedDepth a) p.loops.ids
  ids.forM fun id => discard (insertMarkers id)

end Edit

end TensorKernel
