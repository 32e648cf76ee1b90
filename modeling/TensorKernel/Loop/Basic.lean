import TensorKernel.Expr
import TensorKernel.Fault

/-!
# Loops

A loop has a work amount, a step, and the ports through which data enters and leaves its body. A
unified loop still covers all of its work; an expanded loop is one part of a unified loop and keeps a
reference to it. Several loop ids may be bound to one unified loop, which is then shared.
-/

namespace TensorKernel

/-- The parts that a loop is split into. -/
inductive Iteration where
  /-- The first step, split off for special treatment. -/
  | first
  /-- The body that covers whole steps. -/
  | main
  /-- The remainder that is smaller than a step. -/
  | last
  /-- A number without a meaning. -/
  | unknown
deriving DecidableEq, Repr, Inhabited

namespace Iteration

/-- The text of an iteration. -/
def name : Iteration → String
  | first => "first"
  | main => "main"
  | last => "last"
  | unknown => "unknown"

/-- The iteration with a given number. -/
def ofCode : Int → Iteration
  | 0 => first
  | 1 => main
  | 2 => last
  | _ => unknown

end Iteration

/-- A port through which data enters or leaves a loop, with the pointer arithmetic done there. -/
structure LoopPort where
  /-- The port. -/
  port : PortRef
  /-- Whether the data pointer moves between iterations. -/
  incremented : Bool := true
  /-- The dimension that the loop runs over, counted from the innermost one; -1 for none. -/
  dim : Int
  /-- Elements by which the pointer moves per unit of work. -/
  ptrIncrement : Int64 := 0
  /-- Elements by which the pointer is moved after the loop. -/
  finalizationOffset : Int64 := 0
  /-- Bytes of one element. -/
  dataSize : Int64 := 0
deriving DecidableEq, Repr, Inhabited

/-- What a unified loop asks to be done with each part that is split off: the part is recorded under
a tag, its work amount and step may be changed, and a scalar may be appended to the program. -/
structure Handler where
  /-- The tag of the records. -/
  tag : String
  /-- The work amount to set, if any. -/
  setWork : Option Int := none
  /-- The step to set, if any. -/
  setIncrement : Option Int := none
  /-- The name of a scalar to append; none if empty. -/
  append : String := ""
deriving DecidableEq, Repr, Inhabited

/-- The handlers of a loop, by the iteration that they are for. -/
structure Handlers where
  /-- Handlers of the first step. -/
  first : List Handler := []
  /-- Handlers of the body. -/
  main : List Handler := []
  /-- Handlers of the remainder. -/
  last : List Handler := []
deriving DecidableEq, Repr, Inhabited

namespace Handlers

/-- The handlers for an iteration, in the order in which they were registered. -/
def get (h : Handlers) : Iteration → List Handler
  | .first => h.first
  | .main => h.main
  | .last => h.last
  | .unknown => []

/-- Register a handler behind the earlier ones; there is no place for an unknown iteration. -/
def register? (h : Handlers) (handler : Handler) : Iteration → Option Handlers
  | .first => some { h with first := h.first ++ [handler] }
  | .main => some { h with main := h.main ++ [handler] }
  | .last => some { h with last := h.last ++ [handler] }
  | .unknown => none

end Handlers

/-- What unified and expanded loops have in common. -/
structure LoopFrame where
  /-- The amount of work. -/
  work : Int
  /-- The work done by one iteration. -/
  increment : Int
  /-- Ports through which data enters. -/
  entries : List LoopPort
  /-- Ports through which data leaves. -/
  exits : List LoopPort
deriving DecidableEq, Repr, Inhabited

namespace LoopFrame

/-- Entry ports followed by exit ports. -/
def ports (l : LoopFrame) : List LoopPort := l.entries ++ l.exits

/-- The dimension that the ports from here on agree with `dim` on; -1 stands for none. -/
def commonDim (dim : Int) : List LoopPort → Int
  | [] => dim
  | p :: rest =>
    if !p.incremented then commonDim dim rest
    else if dim = -1 then commonDim p.dim rest
    else if dim ≠ p.dim then -1
    else commonDim dim rest

/-- The dimension that all incremented ports agree on, or -1. -/
def dim (l : LoopFrame) : Int := commonDim (-1) l.ports

/-- Change every port. -/
def mapPorts (l : LoopFrame) (f : LoopPort → LoopPort) : LoopFrame :=
  { l with entries := l.entries.map f, exits := l.exits.map f }

/-- Make every port refer to the expression that `target` gives for its own. -/
def retarget (l : LoopFrame) (target : ExprId → ExprId) : LoopFrame :=
  l.mapPorts fun p => { p with port := { p.port with expr := target p.port.expr } }

end LoopFrame

/-- A loop that covers all of its work. -/
structure UnifiedLoop extends LoopFrame where
  /-- What is asked for when the loop is split. -/
  handlers : Handlers := {}
deriving DecidableEq, Repr, Inhabited

/-- One part of a split loop. The three lists have one value per port, entries first. -/
structure ExpandedLoop extends LoopFrame where
  /-- Pointer increments. -/
  ptrIncrements : List Int64
  /-- Finalization offsets. -/
  finalizationOffsets : List Int64
  /-- Element sizes. -/
  dataSizes : List Int64
  /-- Which part of the loop this is. -/
  iteration : Iteration
  /-- The place of the unified loop that this is a part of. -/
  origin : Nat
deriving DecidableEq, Repr, Inhabited

/-- What a loop id is bound to: a place among the unified loops, or an expanded loop. -/
inductive LoopBinding where
  | unified (place : Nat)
  | expanded (loop : ExpandedLoop)
deriving DecidableEq, Repr, Inhabited

/-- A loop as it is found under an id. -/
inductive LoopInfo where
  | unified (loop : UnifiedLoop)
  | expanded (loop : ExpandedLoop)
deriving DecidableEq, Repr, Inhabited

namespace LoopInfo

/-- Work, step and ports of either kind. -/
def frame : LoopInfo → LoopFrame
  | unified l => l.toLoopFrame
  | expanded l => l.toLoopFrame

/-- The pointer increments, one per port. -/
def ptrIncrements : LoopInfo → List Int64
  | unified l => l.ports.map (·.ptrIncrement)
  | expanded l => l.ptrIncrements

/-- The finalization offsets, one per port. -/
def finalizationOffsets : LoopInfo → List Int64
  | unified l => l.ports.map (·.finalizationOffset)
  | expanded l => l.finalizationOffsets

/-- The element sizes, one per port. -/
def dataSizes : LoopInfo → List Int64
  | unified l => l.ports.map (·.dataSize)
  | expanded l => l.dataSizes

end LoopInfo

/-- The loops of a program. -/
structure LoopTable where
  /-- The unified loops, by place. -/
  unified : Array UnifiedLoop := #[]
  /-- What each id is bound to, ids ascending. -/
  bindings : List (LoopId × LoopBinding) := []
  /-- The next id. -/
  next : Nat := 0
deriving DecidableEq, Inhabited

namespace LoopTable

/-- The registered ids, ascending. -/
def ids (t : LoopTable) : List LoopId := t.bindings.map Prod.fst

/-- The number of registered ids. -/
def size (t : LoopTable) : Nat := t.bindings.length

/-- What an id is bound to. -/
def binding? (t : LoopTable) (id : LoopId) : Option LoopBinding := t.bindings.lookup id

/-- The unified loop at a place. -/
def unifiedAt (t : LoopTable) (place : Nat) : UnifiedLoop := t.unified.getD place default

/-- The loop behind a binding. -/
def resolve (t : LoopTable) : LoopBinding → LoopInfo
  | .unified place => .unified (t.unifiedAt place)
  | .expanded l => .expanded l

/-- The loop with an id, which must be registered. -/
def loop (t : LoopTable) (id : LoopId) : Except Fault LoopInfo :=
  match t.binding? id with
  | some b => .ok (t.resolve b)
  | none => .error (.unknownLoop id)

/-- The place of the unified loop with an id, which must not have been expanded. -/
def unifiedPlace (t : LoopTable) (id : LoopId) : Except Fault Nat :=
  match t.binding? id with
  | some (.unified place) => .ok place
  | some (.expanded _) => .error (.notUnified id)
  | none => .error (.unknownLoop id)

/-- The expanded loop with an id. -/
def expandedLoop (t : LoopTable) (id : LoopId) : Except Fault ExpandedLoop :=
  match t.binding? id with
  | some (.expanded l) => .ok l
  | some (.unified _) => .error (.notExpanded id)
  | none => .error (.unknownLoop id)

/-- Bind the next id. -/
def bindNext (t : LoopTable) (b : LoopBinding) : LoopId × LoopTable :=
  (t.next, { t with bindings := t.bindings ++ [((t.next : LoopId), b)], next := t.next + 1 })

/-- Register a new unified loop under the next id. -/
def addUnified (t : LoopTable) (l : UnifiedLoop) : LoopId × LoopTable :=
  { t with unified := t.unified.push l }.bindNext (.unified t.unified.size)

/-- Bind a registered id anew. -/
def rebind (t : LoopTable) (id : LoopId) (b : LoopBinding) : LoopTable :=
  { t with bindings := t.bindings.map fun e => if e.1 = id then (id, b) else e }

/-- Bind a registered id anew; an id that is not registered is a fault. -/
def replace (t : LoopTable) (id : LoopId) (b : LoopBinding) : Except Fault LoopTable :=
  if (t.binding? id).isSome then .ok (t.rebind id b) else .error (.replaceUnknownLoop id)

/-- Change the unified loop at a place, for all ids bound to it. -/
def modifyUnified (t : LoopTable) (place : Nat) (f : UnifiedLoop → UnifiedLoop) : LoopTable :=
  { t with unified := t.unified.modify place f }

/-- Register a copy of a loop whose ports refer to what `target` gives for their expressions. -/
def addCopy (t : LoopTable) (info : LoopInfo) (target : ExprId → ExprId) : LoopId × LoopTable :=
  match info with
  | .unified l => t.addUnified { l with toLoopFrame := l.toLoopFrame.retarget target }
  | .expanded l => t.bindNext (.expanded { l with toLoopFrame := l.toLoopFrame.retarget target })

end LoopTable

namespace UnifiedLoop

/-- A unified loop; its step must be positive. -/
def make (work increment : Int) (entries exits : List LoopPort) : Except Fault UnifiedLoop :=
  if increment ≤ 0 then .error (.loopIncrement increment)
  else .ok { work, increment, entries, exits }

end UnifiedLoop

namespace ExpandedLoop

/-- An expanded loop; the lists must have one value per port, and there must be a unified loop that
it is a part of. -/
def make (frame : LoopFrame) (ptrIncrements finalizationOffsets dataSizes : List Int64)
    (iteration : Iteration) (origin : Option Nat) : Except Fault ExpandedLoop :=
  let n := frame.ports.length
  if ptrIncrements.length ≠ n ∨ finalizationOffsets.length ≠ n ∨ dataSizes.length ≠ n then
    .error (.denseArrays iteration.name ptrIncrements.length finalizationOffsets.length
      dataSizes.length n)
  else match origin with
    | none => .error (.missingUnified iteration.name)
    | some origin =>
      .ok { frame with ptrIncrements, finalizationOffsets, dataSizes, iteration, origin }

end ExpandedLoop

end TensorKernel
