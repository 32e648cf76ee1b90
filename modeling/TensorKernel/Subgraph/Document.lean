import TensorKernel.Subgraph.Basic
import TensorKernel.Yaml.Record
import TensorKernel.Yaml.Render

/-!
# Subgraph files

Subgraphs are written as YAML documents. Fields with their default value are left out where a reader
supplies the same value. A loop port may be given by its reference alone.
-/

namespace TensorKernel

open Yaml

namespace PortSpec

/-- The fields of a loop port. -/
def fields : Fields PortSpec
  | "port" => some (Node.field Node.text fun port p => { p with port })
  | "incremented" =>
    some (Node.field (Node.optional Node.bool) fun incremented p => { p with incremented })
  | "dim" => some (Node.field (Node.optional Node.int) fun dim p => { p with dim })
  | _ => none

/-- Change a loop port by the fields of a mapping, read apart from the rest of the document. -/
def update (p : PortSpec) (n : Node) : Reading (Option PortSpec) := do
  let (q, faulty) ← Reading.apart (Reading.visit n (Node.record fields p))
  if faulty then Reading.misfit else return some (q.getD p)

/-- The fields of a loop port that is tagged as nothing. It takes over mappings that are not tagged so
like a change to it, whatever it has itself. -/
def taggedSink : Sink (PortSpec × List String) :=
  { Node.fieldSink fields with
    special := fun
      | .mapping (some .null) _ => none
      | n => some fun (p, given) => do return ((← p.update n).getD p, given) }

/-- Read a loop port: its reference alone, as it is spelled, or a record. -/
def ofNode (n : Node) : Reading (Option PortSpec) := do
  match ← n.isNull, n with
  | false, .scalar s => return some { port := s.text }
  | false, n => update {} n
  | true, .mapping _ entries => return (← Node.entriesInto taggedSink entries ({}, [])).map Prod.fst
  | true, n => Node.ofScalar (fun _ _ => none) n

/-- Write a loop port as a record. -/
def toNode (p : PortSpec) : Node :=
  .mapping none <| [(Node.ofText "port", Node.ofLabel p.port)] ++
    (p.incremented.map fun b => (Node.ofText "incremented", Node.ofBool b)).toList ++
    (p.dim.map fun n => (Node.ofText "dim", Node.ofInt n)).toList

end PortSpec

namespace OpSpec

/-- The fields of an operation. -/
def fields : Fields OpSpec
  | "name" => some (Node.field Node.text fun name op => { op with name })
  | "kind" => some (Node.field Node.text fun kind op => { op with kind })
  | "dtype" => some (Node.field Node.text fun type op => { op with type })
  | "shape" => some (Node.field (Node.list Node.int) fun shape op => { op with shape := some shape })
  | "inputs" => some (Node.field (Node.list Node.text) fun inputs op => { op with inputs })
  | "outputs" => some (Node.field Node.int fun n op => { op with outputs := some n })
  | "group" => some (Node.field Node.int fun n op => { op with group := Int64.ofInt n })
  | _ => none

/-- Read an operation. -/
def ofNode : Node → Reading (Option OpSpec) := Node.record fields {}

/-- Write an operation. -/
def toNode (op : OpSpec) : Node :=
  .mapping none <| [(Node.ofText "name", Node.ofLabel op.name), (Node.ofText "kind", Node.ofLabel op.kind)] ++
    (if op.type = "" then [] else [(Node.ofText "dtype", Node.ofLabel op.type)]) ++
    (match op.shape with
      | none | some [] => []
      | some shape => [(Node.ofText "shape", .sequence none (shape.map Node.ofInt))]) ++
    (if op.inputs.isEmpty then []
      else [(Node.ofText "inputs", .sequence none (op.inputs.map Node.ofLabel))]) ++
    (op.outputs.map fun n => (Node.ofText "outputs", Node.ofInt n)).toList ++
    (if op.group = 0 then [] else [(Node.ofText "group", Node.ofInt op.group.toInt)])

end OpSpec

namespace LoopSpec

/-- The fields of a loop. -/
def fields : Fields LoopSpec
  | "begin" => some (Node.field Node.text fun first l => { l with first })
  | "end" => some (Node.field Node.text fun last l => { l with last })
  | "work_amount" => some (Node.field Node.int fun work l => { l with work })
  | "increment" => some (Node.field Node.int fun increment l => { l with increment })
  | "dim" => some (Node.field Node.int fun dim l => { l with dim })
  | "entries" => some (Node.field (Node.list PortSpec.ofNode) fun entries l => { l with entries })
  | "exits" => some (Node.field (Node.list PortSpec.ofNode) fun exits l => { l with exits })
  | _ => none

/-- Read a loop. -/
def ofNode : Node → Reading (Option LoopSpec) := Node.record fields {}

/-- Write a loop. -/
def toNode (l : LoopSpec) : Node :=
  .mapping none [
    (Node.ofText "begin", Node.ofLabel l.first),
    (Node.ofText "end", Node.ofLabel l.last),
    (Node.ofText "work_amount", Node.ofInt l.work),
    (Node.ofText "increment", Node.ofInt l.increment),
    (Node.ofText "dim", Node.ofInt l.dim),
    (Node.ofText "entries", .sequence none (l.entries.map PortSpec.toNode)),
    (Node.ofText "exits", .sequence none (l.exits.map PortSpec.toNode))]

end LoopSpec

namespace Subgraph

/-- The fields of a subgraph. -/
def fields : Fields Subgraph
  | "name" => some (Node.field Node.text fun name sg => { sg with name })
  | "ops" => some (Node.field (Node.list OpSpec.ofNode) fun ops sg => { sg with ops })
  | "loops" => some (Node.field (Node.list LoopSpec.ofNode) fun loops sg => { sg with loops })
  | _ => none

/-- Read a subgraph. -/
def ofNode : Node → Reading (Option Subgraph) := Node.record fields {}

/-- Write a subgraph. -/
def toNode (sg : Subgraph) : Node :=
  .mapping none <| [
    (Node.ofText "name", Node.ofLabel sg.name),
    (Node.ofText "ops", .sequence none (sg.ops.map OpSpec.toNode))] ++
    (if sg.loops.isEmpty then []
      else [(Node.ofText "loops", .sequence none (sg.loops.map LoopSpec.toNode))])

/-- Why a text is no subgraph. -/
inductive ParseError where
  /-- The text is no document of the right form. -/
  | malformed
  /-- A collection is a key where keys have to be compared. -/
  | collectionKey
  /-- The subgraph has no operations. -/
  | noOps (name : Label)
deriving DecidableEq, Repr

/-- The wording for a text that is no subgraph. -/
def ParseError.message : ParseError → String
  | malformed => "failed to decode subgraph"
  | collectionKey => "a collection cannot be compared with other keys"
  | noOps name => "subgraph " ++ name.quoted ++ " has no ops"

/-- Why a document that could not be read is no subgraph. -/
def ParseError.ofStop : Stop → ParseError
  | .refused => malformed
  | .collectionKey => collectionKey

/-- The subgraph that a document describes: it has a name and operations. An empty document is the
subgraph without anything. -/
def ofDocument (d : Document) : Except ParseError Subgraph := do
  let sg := (← (d.readRoot ofNode).mapError .ofStop).getD {}
  let sg := if sg.name = "" then { sg with name := "subgraph" } else sg
  if sg.ops.isEmpty then throw (.noOps sg.name) else return sg

/-- Read the text of a subgraph file. -/
def parse (text : String) : Except ParseError Subgraph :=
  match Document.parse? text with
  | none => .error .malformed
  | some d => ofDocument d

/-- The lines of a subgraph file. -/
def lines (sg : Subgraph) : List String := sg.toNode.lines

end Subgraph

end TensorKernel
