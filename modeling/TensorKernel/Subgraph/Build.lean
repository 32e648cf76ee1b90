import TensorKernel.Program.Basic
import TensorKernel.Subgraph.Basic
import TensorKernel.Subgraph.Reference

/-!
# Building programs

A subgraph is turned into a program with its loops registered. The first thing that is wrong with the
description is reported with its place. Loop markers are not inserted and the program is not
numbered.
-/

namespace TensorKernel

/-- Why an input of an operation names no value. -/
inductive InputError where
  /-- The text is no reference. -/
  | reference (cause : Reference.Error)
  /-- The reference is to an input. -/
  | notOutput (text : Label)
  /-- No earlier operation has this name. -/
  | unknownOp (text : Label)
  /-- The operation does not have this output. -/
  | noSuchOutput (text : Label) (count : Nat)
deriving DecidableEq, Repr

/-- The wording for an input that names no value. -/
def InputError.message : InputError → String
  | reference cause => cause.message
  | notOutput text => text.quoted ++ ": inputs must reference outputs"
  | unknownOp text => text.quoted ++ ": unknown op, inputs must be defined before use"
  | noSuchOutput text count => text.quoted ++ s!": op has {count} outputs"

/-- What is wrong with the description of an operation. -/
inductive OpError where
  | noName
  | noKind (name : Label)
  | duplicate (name : Label)
  | input (name : Label) (place : Nat) (cause : InputError)
  | negativeOutputs (name : Label)
  | noShape (name : Label)
  | unknownType (name : Label) (type : Label)
deriving DecidableEq, Repr

/-- The wording for a wrong description of an operation. -/
def OpError.message : OpError → String
  | noName => "op has no name"
  | noKind name => "op " ++ name.quoted ++ " has no kind"
  | duplicate name => "duplicate op name " ++ name.quoted
  | input name place cause => "op " ++ name.quoted ++ s!" input #{place}: " ++ cause.message
  | negativeOutputs name => "op " ++ name.quoted ++ " has a negative number of outputs"
  | noShape name => "op " ++ name.quoted ++ " needs a shape"
  | unknownType name type =>
    "op " ++ name.quoted ++ ": " ++ type.shown ++ " does not belong to DType values"

/-- What is wrong with the description of a loop. -/
inductive LoopError where
  | unknownFirst (name : Label)
  | unknownLast (name : Label)
  | reversed (first last : Label)
  | increment (increment : Int)
  | negativeWork (work : Int)
  | noPorts
  | crosses (first last earlierFirst earlierLast : Label)
  | reference (cause : Reference.Error)
  | entryNotInput (port : Label)
  | exitNotOutput (port : Label)
  | portOutside (port first last : Label)
  | noSuchOutput (port : Label) (count : Nat)
  | noSuchInput (port : Label) (count : Nat)
deriving DecidableEq, Repr

/-- The wording for a wrong description of a loop. -/
def LoopError.message : LoopError → String
  | unknownFirst name => "unknown begin op " ++ name.quoted
  | unknownLast name => "unknown end op " ++ name.quoted
  | reversed first last =>
    "begin op " ++ first.quoted ++ " comes after end op " ++ last.quoted
  | increment n => s!"increment must be positive, got {n}"
  | negativeWork n => s!"work amount must not be negative, got {n}"
  | noPorts => "loop needs entry and exit ports"
  | crosses first last earlierFirst earlierLast =>
    s!"loop [{first}, {last}] encloses or overlaps loop [{earlierFirst}, {earlierLast}] " ++
      "listed before it, enclosing loops come first"
  | reference cause => cause.message
  | entryNotInput port => "entry port " ++ port.quoted ++ " must be an input"
  | exitNotOutput port => "exit port " ++ port.quoted ++ " must be an output"
  | portOutside port first last =>
    "port " ++ port.quoted ++ s!" is not inside the loop [{first}, {last}]"
  | noSuchOutput port count => "port " ++ port.quoted ++ s!": op has {count} outputs"
  | noSuchInput port count => "port " ++ port.quoted ++ s!": op has {count} inputs"

/-- What is wrong with a subgraph, and where. -/
inductive BuildError where
  | op (subgraph : Label) (place : Nat) (cause : OpError)
  | loop (subgraph : Label) (place : Nat) (cause : LoopError)
deriving DecidableEq, Repr

/-- The wording for a wrong subgraph. -/
def BuildError.message : BuildError → String
  | op subgraph place cause =>
    "subgraph " ++ subgraph.quoted ++ s!", op #{place}: " ++ cause.message
  | loop subgraph place cause =>
    "subgraph " ++ subgraph.quoted ++ s!", loop #{place}: " ++ cause.message

namespace Program

/-- The value that an input of a described operation names. -/
def resolveInput (p : Program) (text : Label) : Except InputError ValueRef :=
  match Reference.parse text with
  | .error cause => .error (.reference cause)
  | .ok ref =>
    if ref.side = .input then .error (.notOutput text)
    else match p.find? ref.name with
      | none => .error (.unknownOp text)
      | some id =>
        let count := (p.expr id).outputs.length
        if count ≤ ref.index then .error (.noSuchOutput text count) else .ok ⟨id, ref.index⟩

/-- The values that the inputs of a described operation name. -/
def resolveInputs (p : Program) (spec : OpSpec) : Except OpError (List ValueRef) :=
  spec.inputs.zipIdx.mapM fun (text, k) => (p.resolveInput text).mapError (.input spec.name k)

/-- The number of outputs of a described operation: none for results and one otherwise, unless it is
given. -/
def outputCount (spec : OpSpec) : Except OpError Int :=
  match spec.outputs with
  | some n => if n < 0 then .error (.negativeOutputs spec.name) else .ok n
  | none => .ok (if Role.ofKind spec.kind = .result then 0 else 1)

/-- The shape of a described operation: its own, or that of its first input. -/
def outputShape (p : Program) (spec : OpSpec) (inputs : List ValueRef) : Option (List Int) :=
  match spec.shape with
  | some shape => some shape
  | none => inputs.head?.map p.shape

/-- The element type of a described operation: its own, or that of its first input, or float32. -/
def outputType (p : Program) (spec : OpSpec) (inputs : List ValueRef) :
    Except OpError ElementType :=
  if spec.type ≠ "" then
    match spec.type.string?.bind ElementType.ofName? with
    | some type => .ok type
    | none => .error (.unknownType spec.name spec.type)
  else match inputs with
    | v :: _ => .ok (p.expr v.producer).type
    | [] => .ok .float32

/-- Put a described operation at the end of the program. -/
def addOp (p : Program) (spec : OpSpec) : Except OpError Program := do
  if spec.name = "" then throw .noName
  if spec.kind = "" then throw (.noKind spec.name)
  if p.isUsed spec.name then throw (.duplicate spec.name)
  let inputs ← p.resolveInputs spec
  let outputs ← outputCount spec
  let shape := p.outputShape spec inputs
  if shape.isNone ∧ 0 < outputs then throw (.noShape spec.name)
  let type ← p.outputType spec inputs
  let op : Op :=
    { kind := spec.kind, type, shape := shape.getD [], outputs, group := spec.group }
  let (id, p) := p.makeOp spec.name op inputs
  return ({ p with names := (spec.name, id) :: p.names } : Program).extend (p.order ++ [id])

/-- The position of a named operation. -/
def positionOf? (p : Program) (name : Label) : Option Nat := (p.find? name).bind p.indexOf?

/-- The port that a loop port of the given side names, in a body from position `first` to `last`. -/
def resolvePort (p : Program) (spec : LoopSpec) (first last : Nat) (side : Side) (port : PortSpec) :
    Except LoopError LoopPort := do
  let ref ← (Reference.parse port.port).mapError .reference
  if ref.side ≠ side then
    throw (match side with
      | .output => .exitNotOutput port.port
      | .input => .entryNotInput port.port)
  let inside := match p.positionOf? ref.name with
    | some i => if first ≤ i ∧ i ≤ last then p.order[i]? else none
    | none => none
  match inside with
  | none => throw (.portOutside port.port spec.first spec.last)
  | some id =>
    let e := p.expr id
    match side with
    | .output =>
      if e.outputs.length ≤ ref.index then throw (.noSuchOutput port.port e.outputs.length)
    | .input =>
      if e.inputs.length ≤ ref.index then throw (.noSuchInput port.port e.inputs.length)
    return {
      port := ⟨id, side, ref.index⟩
      incremented := port.incremented.getD true
      dim := port.dim.getD spec.dim }

/-- The positions of the first and the last operation of a described loop, if the description is
sound so far. -/
def loopRange (p : Program) (spec : LoopSpec) : Except LoopError (Nat × Nat) :=
  match p.positionOf? spec.first, p.positionOf? spec.last with
  | none, _ => .error (.unknownFirst spec.first)
  | some _, none => .error (.unknownLast spec.last)
  | some first, some last =>
    if last < first then .error (.reversed spec.first spec.last)
    else if spec.increment ≤ 0 then .error (.increment spec.increment)
    else if spec.work < 0 then .error (.negativeWork spec.work)
    else if spec.entries.isEmpty ∨ spec.exits.isEmpty then .error .noPorts
    else .ok (first, last)

/-- Whether the range from `first` to `last` is apart from an earlier loop or lies inside it. -/
def fitsBehind (p : Program) (first last : Nat) (earlier : LoopSpec) : Bool :=
  match p.positionOf? earlier.first, p.positionOf? earlier.last with
  | some b, some e => last < b ∨ e < first ∨ (b ≤ first ∧ last ≤ e)
  | _, _ => true

/-- Register a described loop, given those registered before it. -/
def addLoop (p : Program) (earlier : List LoopSpec) (spec : LoopSpec) :
    Except LoopError Program := do
  let (first, last) ← p.loopRange spec
  if let some other := earlier.find? fun other => !p.fitsBehind first last other then
    throw (.crosses spec.first spec.last other.first other.last)
  let entries ← spec.entries.mapM (p.resolvePort spec first last .input)
  let exits ← spec.exits.mapM (p.resolvePort spec first last .output)
  let loop : UnifiedLoop := { work := spec.work, increment := spec.increment, entries, exits }
  return (p.enclose first (last + 1) loop).2

end Program

namespace Subgraph

/-- Add the described operations, the first of which has place `place`. -/
def addOps (subgraph : Label) (p : Program) (place : Nat) : List OpSpec → Except BuildError Program
  | [] => .ok p
  | spec :: rest =>
    match p.addOp spec with
    | .error cause => .error (.op subgraph place cause)
    | .ok p => addOps subgraph p (place + 1) rest

/-- Register the described loops behind the earlier ones. -/
def addLoops (subgraph : Label) (p : Program) (earlier : List LoopSpec) :
    List LoopSpec → Except BuildError Program
  | [] => .ok p
  | spec :: rest =>
    match p.addLoop earlier spec with
    | .error cause => .error (.loop subgraph earlier.length cause)
    | .ok p => addLoops subgraph p (earlier ++ [spec]) rest

/-- Build the program of a subgraph, numbering its expressions behind those in `exprs`. -/
def buildAfter (exprs : Array Expr) (sg : Subgraph) : Except BuildError Program := do
  let p ← addOps sg.name { name := sg.name, exprs } 0 sg.ops
  addLoops sg.name p [] sg.loops

/-- Build the program of a subgraph. -/
def build (sg : Subgraph) : Except BuildError Program := sg.buildAfter #[]

end Subgraph

end TensorKernel
