import TensorKernel.Program.Basic

/-!
# Pointer arithmetic of loops

Every port of a unified loop gets the size of its elements, the number of elements by which its data
pointer moves per unit of work, and the offset that takes the pointer back when the loop is done.
Distances are 64-bit and wrap around.
-/

namespace TensorKernel

/-- The distance in elements between two neighbours along dimension `dim`, counted from the innermost
one, in a row-major tensor of this shape. It is zero if there is no such dimension, and if the
dimension has one element that all iterations of the loop share. -/
def stride (shape : List Int) (dim : Int) (work : Int) : Int64 :=
  if dim < 0 ∨ (shape.length : Int) ≤ dim then 0
  else
    match shape.drop (shape.length - 1 - dim.toNat) with
    | [] => 0
    | size :: inner =>
      if size = 1 ∧ 1 < work then 0
      else inner.foldl (fun s d => s * Int64.ofInt d) 1

namespace Program

/-- A loop port with its pointer arithmetic, for a loop with this amount of work. -/
def pointerPort (p : Program) (work : Int) (port : LoopPort) : Except Fault LoopPort := do
  let v ← p.value port.port
  let type := (p.expr v.producer).type
  match type.byteSize? with
  | none => throw (.elementSize type)
  | some dataSize =>
    let ptrIncrement ←
      if port.incremented then (p.port port.port).map fun seen => stride seen.shape port.dim work
      else pure 0
    return { port with
      dataSize, ptrIncrement, finalizationOffset := -ptrIncrement * Int64.ofInt work }

end Program

namespace UnifiedLoop

/-- Replace port `k`, entries counting before exits. -/
def setPort (l : UnifiedLoop) (k : Nat) (port : LoopPort) : UnifiedLoop :=
  if k < l.entries.length then { l with entries := l.entries.set k port }
  else { l with exits := l.exits.set (k - l.entries.length) port }

end UnifiedLoop

namespace Edit

/-- Set up port `k` of the unified loop at `place`. -/
def initPort (place k : Nat) : Edit Unit := do
  let l := (← get).loops.unifiedAt place
  if let some port := l.ports[k]? then
    let port ← ask fun p => p.pointerPort l.work port
    modify fun p => { p with loops := p.loops.modifyUnified place (·.setPort k port) }

/-- Set up the ports of the unified loop at `place`, entries first. -/
def initLoop (place : Nat) : Edit Unit := do
  let l := (← get).loops.unifiedAt place
  (List.range l.ports.length).forM (initPort place)

/-- Set up the ports of all unified loops, in the order of their ids. -/
def initLoops : Edit Unit := do
  (← get).loops.bindings.forM fun (_, binding) =>
    match binding with
    | .unified place => initLoop place
    | .expanded _ => pure ()

end Edit

end TensorKernel
