import TensorKernel.Register.Map
import TensorKernel.Yaml.Record
import TensorKernel.Yaml.Render

/-!
# Register map files

A register map is written as a YAML mapping from the texts of abstract registers to the texts of
physical ones. The entries are in natural order: numbers inside texts are compared as numbers, of 64
bits. Registers with the same text share one entry. A mapping that is tagged as nothing may give
registers by their numbers instead of their texts.
-/

namespace TensorKernel

open Yaml

namespace NaturalOrder

/-- The number that the digits at the start of a text continue, and how many they are. -/
def run (start : Int64) (cs : List Char) : Int64 × Nat :=
  let digits := cs.takeWhile Char.isDigit
  (digits.foldl (fun n c => 10 * n + Int64.ofNat (c.toNat - '0'.toNat)) start, digits.length)

/-- Whether the first text comes before the second, given whether the character before them is a
digit, and whether the digits right before them are a number that is not zero. Letters are compared
as such; a letter comes before anything else behind a digit, and after it otherwise. -/
def before (digit nonzero : Bool) : List Char → List Char → Bool
  | [], [] => false
  | [], _ :: _ => true
  | _ :: _, [] => false
  | a :: as, b :: bs =>
    if a = b then before a.isDigit (a.isDigit && (nonzero || a ≠ '0')) as bs
    else if a.isAlpha && b.isAlpha then a < b
    else if a.isAlpha || b.isAlpha then if digit then a.isAlpha else b.isAlpha
    else
      let start : Int64 := if (a = '0' ∨ b = '0') ∧ nonzero then 1 else 0
      let (m, i) := run start (a :: as)
      let (n, j) := run start (b :: bs)
      if m ≠ n then m < n else if i ≠ j then i < j else a < b

/-- Whether a text does not come after another one. -/
def le (a b : String) : Bool := !before false false b.toList a.toList

end NaturalOrder

namespace RegMap

/-- Why a text is no register map. -/
inductive FileError where
  /-- The text is no document, or one that gives registers by numbers and is of the wrong form. -/
  | unreadable
  /-- The document is no mapping from texts to texts. -/
  | malformed
  /-- A collection is a key where keys have to be compared. -/
  | collectionKey
  /-- A key is no register. -/
  | key (cause : Reg.ParseError)
  /-- A value is no register. -/
  | value (text : Label) (cause : Reg.ParseError)
  /-- A register is mapped to another bank. -/
  | banks (abstract phys : Reg)
deriving DecidableEq, Repr

/-- The wording for a text that is no register map. -/
def FileError.message : FileError → String
  | unreadable => ""
  | malformed => "register map"
  | collectionKey => "a collection cannot be compared with other keys"
  | key cause => "register map key: " ++ cause.message
  | value text cause => s!"register map value for {text}: " ++ cause.message
  | banks abstract phys =>
    "register map: " ++ abstract.text ++ " mapped to " ++ phys.text ++ " across banks"

/-- Read one entry. -/
def ofEntry (entry : Label × Label) : Except FileError (Reg × Reg) := do
  let abstract ← (Reg.parse entry.1).mapError .key
  let phys ← (Reg.parse entry.2).mapError (.value entry.1)
  if abstract.bank ≠ phys.bank then throw (.banks abstract phys)
  return (abstract, phys)

/-- A key that is a text. -/
def textKey (n : Node) : Reading (Option Key) := return (← n.text).map Key.text

/-- Read the texts of the entries; a value that stands for nothing is the empty text. Of two entries
with the same key the later one counts. -/
def texts : Node → Reading (Option (List (Label × Label)))
  | .mapping _ entries => do
    let table ← Node.entriesInto (Node.tableSink textKey Node.text "") entries []
    return table.map (·.filterMap fun
      | (.text l, v) => some (l, v)
      | _ => none)
  | n => Node.ofScalar (fun _ _ => none) n

/-- Read a register map from texts, apart from the rest of the document. -/
def ofTexts (n : Node) : Reading (Except FileError RegMap) := do
  match Reading.start (Reading.visit n texts) (← read) with
  | .error .collectionKey => throw .collectionKey
  | .error .refused => return .error .malformed
  | .ok (entries, t) =>
    if t.faulty then return .error .malformed
    return (entries.getD []).mapM ofEntry |>.map RegTable.ofList

/-- The fields of a register that is given by numbers. -/
def regFields : Fields Reg
  | "type" => some (Node.field Node.int fun n r => { r with bank := .ofCode n })
  | "idx" => some (Node.field Node.int fun index r => { r with index })
  | _ => none

/-- Read a register that is given by numbers. -/
def reg : Node → Reading (Option Reg) := Node.record regFields .unassigned

/-- A key that is a register given by numbers. -/
def regKey (n : Node) : Reading (Option Key) :=
  return (← reg n).map fun r => .record [r.bank.code, r.index]

/-- The entries of a register map that is tagged as nothing. Mappings that are taken over and are not
tagged so are read from texts, and take the place of all that was read. -/
def regSink : Sink (Except FileError (List (Key × Reg))) :=
  let table := Node.tableSink regKey reg .unassigned
  { key := table.key
    value := fun taken key n entries => do
      match entries with
      | .error e => return .error e
      | .ok entries => return .ok (← table.value taken key n entries)
    special := fun
      | .mapping (some .null) _ => none
      | n => some fun entries => do
        match entries with
        | .error e => return .error e
        | .ok _ => return (← ofTexts n).map fun m =>
          m.entries.map fun (a, p) => (.record [a.bank.code, a.index], p) }

/-- Read a register map. One that is tagged as nothing gives its registers by numbers. -/
def ofNode (n : Node) : Reading (Except FileError RegMap) := do
  match ← n.isNull, n with
  | true, .mapping _ entries =>
    let table := (← Node.entriesInto regSink entries (.ok [])).getD (.ok [])
    return table.map fun entries => RegTable.ofList (entries.filterMap fun
      | (.record [code, index], p) => some (⟨.ofCode code, index⟩, p)
      | _ => none)
  | true, n => do
    let _ : Option Unit ← Node.ofScalar (fun _ _ => none) n
    return .ok (RegTable.ofList [])
  | false, n => ofTexts n

/-- The register map that a document describes. -/
def ofDocument (d : Document) : Except FileError RegMap :=
  match d.readRoot ofNode with
  | .error .collectionKey => .error .collectionKey
  | .error .refused => .error .unreadable
  | .ok m => m

/-- The texts of the entries, the last one for every key. -/
def lastTexts : List (Reg × Reg) → List (String × String)
  | [] => []
  | (a, p) :: rest =>
    let texts := lastTexts rest
    if (texts.lookup a.text).isSome then texts else (a.text, p.text) :: texts

/-- Write a register map. -/
def toNode (m : RegMap) : Node :=
  let entries := (lastTexts m.entries).mergeSort fun a b => NaturalOrder.le a.1 b.1
  .mapping none (entries.map fun (a, p) => (Node.ofText a, Node.ofText p))

/-- Read the text of a register map file. -/
def parse (text : String) : Except FileError RegMap :=
  match Document.parse? text with
  | none => .error .unreadable
  | some d => ofDocument d

/-- The lines of a register map file. -/
def lines (m : RegMap) : List String := m.toNode.lines

end RegMap

end TensorKernel
