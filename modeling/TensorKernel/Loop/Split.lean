import TensorKernel.Loop.Variant
import TensorKernel.Program.Clone
import TensorKernel.Sorting

/-!
# Splitting loops

A marked unified loop is replaced by its parts. The body that is in the program becomes the last
part; every other part is a copy of the body, with the loops nested in it, that is inserted before
it. Only the last part takes the data pointers back, so it alone keeps the finalization offsets.
Inner loops are split before the loops around them.
-/

namespace TensorKernel

/-- What a handler saw when a part of a loop was made. -/
structure HandlerEvent where
  /-- The tag of the handler. -/
  tag : String
  /-- The id of the part. -/
  loop : LoopId
  /-- Which part it is. -/
  iteration : Iteration
  /-- Its work. -/
  work : Int
  /-- Its step. -/
  increment : Int
  /-- The length of the program. -/
  length : Nat
deriving DecidableEq, Repr, Inhabited

namespace Handler

/-- The changes that a handler makes to a part. -/
def adjust (h : Handler) (l : ExpandedLoop) : ExpandedLoop :=
  { l with work := h.setWork.getD l.work, increment := h.setIncrement.getD l.increment }

end Handler

namespace UnifiedLoop

/-- The part `v` of the loop at `origin`, with its own ports and finalization offsets. -/
def part (whole : UnifiedLoop) (origin : Nat) (v : Variant) (ports : LoopFrame)
    (finalizationOffsets : List Int64) : ExpandedLoop where
  work := v.work
  increment := v.increment
  entries := ports.entries
  exits := ports.exits
  ptrIncrements := whole.ports.map (·.ptrIncrement)
  finalizationOffsets := finalizationOffsets
  dataSizes := whole.ports.map (·.dataSize)
  iteration := v.iteration
  origin := origin

/-- The last part, which ends with the pointers of the whole loop taken back. -/
def lastPart (whole : UnifiedLoop) (origin : Nat) (v : Variant) : ExpandedLoop :=
  whole.part origin v whole.toLoopFrame (whole.ports.map (·.finalizationOffset))

/-- A part before the last one, on copies of the ports; its pointers move on into the next part. -/
def earlierPart (whole : UnifiedLoop) (origin : Nat) (v : Variant)
    (copies : List (ExprId × ExprId)) : ExpandedLoop :=
  whole.part origin v (whole.toLoopFrame.retarget (Program.copyOf copies))
    (whole.ports.map fun _ => 0)

end UnifiedLoop

namespace Edit

/-- Run one handler on the part with this id. -/
def runHandler (id : LoopId) (h : Handler) : Edit HandlerEvent := do
  let l ← ask fun p => p.loops.expandedLoop id
  let event := ⟨h.tag, id, l.iteration, l.work, l.increment, (← get).length⟩
  modify fun p => { p with loops := p.loops.rebind id (.expanded (h.adjust l)) }
  if h.append ≠ "" then
    let name ← change fun p => p.uniqueName h.append
    let op : Op := { kind := "Scalar", type := .float32, shape := [1], outputs := 1 }
    discard (add name op [])
  return event

/-- Run the handlers that the unified loop at `origin` has for an iteration on the part `id`. -/
def runHandlers (id : LoopId) (origin : Nat) (iteration : Iteration) : Edit (List HandlerEvent) := do
  (((← get).loops.unifiedAt origin).handlers.get iteration).mapM (runHandler id)

/-- If a copied expression begins a loop other than `id`, register a copy of that loop, whose ports
refer to what `target` gives for their expressions, and extend the renumbering by it. -/
def copyInnerLoop (id : LoopId) (target : ExprId → ExprId) (renumber : List (LoopId × LoopId))
    (copy : ExprId) : Edit (List (LoopId × LoopId)) := do
  let e := (← get).expr copy
  if e.role = .loopBegin ∧ e.loop ≠ id then
    let inner ← ask fun p => p.loops.loop e.loop
    let new ← change fun p =>
      let (new, loops) := p.loops.addCopy inner target
      (new, { p with loops })
    return (e.loop, new) :: renumber
  else return renumber

/-- Register copies of the loops that are nested in loop `id`, one for each copied begin marker, and
extend the renumbering by them. -/
def copyInnerLoops (id : LoopId) (copies : List (ExprId × ExprId))
    (renumber : List (LoopId × LoopId)) : Edit (List (LoopId × LoopId)) :=
  (copies.map Prod.snd).foldlM (copyInnerLoop id (Program.copyOf copies)) renumber

/-- An expression with its loops renumbered. A marker of a loop that was not copied falls to loop 0. -/
def renumberLoops (renumber : List (LoopId × LoopId)) (e : Expr) : Expr :=
  { e with
    loop := if e.role.isLoopMarker then (renumber.lookup e.loop).getD 0 else e.loop
    loops := e.loops.map fun l => (renumber.lookup l).getD l }

/-- Put a copy of the body of loop `id` before position `place`, as the part `v`, and give the length
of the copy. -/
def insertPart (id : LoopId) (origin : Nat) (whole : UnifiedLoop) (v : Variant) (place : Nat) :
    Edit (Nat × List HandlerEvent) := do
  let (begin, stop) ← ask fun p => p.loopBounds id
  let copies ← copyRange begin (stop + 1)
  let new ← change fun p =>
    let (new, loops) := p.loops.bindNext (.expanded (whole.earlierPart origin v copies))
    (new, { p with loops })
  let renumber ← copyInnerLoops id copies [(id, new)]
  modify fun p => copies.foldl (fun p (_, copy) => p.modifyExpr copy (renumberLoops renumber)) p
  insertAt place (copies.map Prod.snd)
  return (copies.length, ← runHandlers new origin v.iteration)

/-- Put the parts before the last one into the program, one behind the other from `place` on, and
make the body the last part. -/
def insertParts (id : LoopId) (origin : Nat) (whole : UnifiedLoop) (place : Nat) :
    List Variant → Edit (List HandlerEvent)
  | [] => return []
  | [v] => do
    let loops ← ask fun p => p.loops.replace id (.expanded (whole.lastPart origin v))
    modify fun p => { p with loops }
    runHandlers id origin v.iteration
  | v :: rest => do
    let (count, events) ← insertPart id origin whole v place
    return events ++ (← insertParts id origin whole (place + count) rest)

/-- Replace a unified loop by its parts. -/
def splitLoop (id : LoopId) : Edit (List HandlerEvent) := do
  let origin ← ask fun p => p.loops.unifiedPlace id
  let whole := (← get).loops.unifiedAt origin
  let parts ← ask fun _ => Variant.split whole.work whole.increment !whole.handlers.first.isEmpty
  let (begin, _) ← ask fun p => p.loopBounds id
  insertParts id origin whole begin parts

/-- The ids of the unified loops with their depths, in the order of the ids. -/
def unifiedDepths : Edit (List (LoopId × Nat)) := do
  let unified := (← get).loops.bindings.filter fun (_, b) => b matches .unified _
  unified.mapM fun (id, _) => do return (id, ← ask fun p => p.depth id)

/-- Replace all unified loops by their parts, innermost loops first. -/
def splitLoops : Edit (List HandlerEvent) := do
  let pending ← unifiedDepths
  let events ← (sortBy (fun a b => b.2 ≤ a.2) pending).mapM fun (id, _) => splitLoop id
  return events.flatten

end Edit

end TensorKernel
