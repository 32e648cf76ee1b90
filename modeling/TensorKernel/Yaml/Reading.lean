import TensorKernel.Yaml.Node

/-!
# Reading values from documents

A reader turns a node into a value. A node that stands for nothing has no value, which leaves a field as
it is and drops an item of a list. A node of the wrong form has no value either, and is remembered: the
document is refused in the end, but it is read on, since a later node may stop the reading at once.

A node given by its name is read like the node itself, unless that happens inside of it. Such nodes
would let a short document stand for a very long one. So the nodes that are visited are counted, and a
document is refused if too many of them are visited by way of a name.
-/

namespace TensorKernel.Yaml

/-- Why the reading of a document stops. -/
inductive Stop where
  /-- The document does not have the right form. -/
  | refused
  /-- A collection, which cannot be compared with others, is a key where keys have to be compared. -/
  | collectionKey
deriving DecidableEq, Repr

/-- What a key of a mapping stands for. -/
inductive Key where
  | text (l : Label)
  /-- A scalar that is no text. -/
  | plain (m : Meaning)
  /-- A record of numbers. -/
  | record (numbers : List Int)
deriving DecidableEq, Repr

namespace Key

/-- Whether two keys are known to be the same. Of numbers with a fraction and of points in time this is
not known. -/
def same : Key → Key → Bool
  | text a, text b => a = b
  | record a, record b => a = b
  | plain .null, plain .null => true
  | plain (.bool a), plain (.bool b) => a = b
  | plain (.int a), plain (.int b) => a = b
  | _, _ => false

end Key

/-- What is kept while a document is read. -/
structure Tally where
  /-- How many nodes were visited. -/
  visits : Nat := 0
  /-- How many of them were visited by way of a name. -/
  borrowed : Nat := 0
  /-- The names that led here, by their places, innermost first. -/
  path : List Nat := []
  /-- The keys that do not count any more, where the entries of a mapping are taken over. -/
  hidden : Option (List Key) := none
  /-- Whether a node had the wrong form. -/
  faulty : Bool := false
deriving DecidableEq, Repr, Inhabited

/-- Whether too many nodes were visited by way of a name: more than 99 of a hundred, and in long
documents fewer and fewer, down to one of ten. -/
def Tally.excessive (t : Tally) : Bool :=
  100 < t.borrowed && 1000 < t.visits &&
    if t.visits ≤ 400000 then 99 * t.visits < 100 * t.borrowed
    else if t.visits < 4000000 then
      (99 * 3600000 - 89 * (t.visits - 400000)) * t.visits < 360000000 * t.borrowed
    else t.visits < 10 * t.borrowed

/-- A document with few nodes given by their names is never refused for them. -/
theorem Tally.excessive_eq_false {t : Tally} (h : t.borrowed ≤ 100) : t.excessive = false := by
  simp [Tally.excessive, Nat.not_lt.mpr h]

/-- A value read from a document. -/
abbrev Reading := ReaderT Document (StateT Tally (Except Stop))

namespace Reading

variable {α : Type}

/-- Refuse the document at once. -/
def refuse : Reading α := throw .refused

/-- Remember that a node has the wrong form. -/
def misfit : Reading (Option α) := do
  modify fun t => { t with faulty := true }
  return none

/-- Count a visit. -/
def count : Reading Unit := do
  let t ← get
  let t := { t with
    visits := t.visits + 1, borrowed := if t.path.isEmpty then t.borrowed else t.borrowed + 1 }
  if t.excessive then refuse
  set t

/-- The node with a number. -/
def namedNode (target : Nat) : Reading Node := return (← read).named.getD target Node.absent

/-- Visit a node: read it, or the node that it stands for. -/
def visit (n : Node) (reader : Node → Reading α) : Reading α := do
  count
  match n with
  | .reference place _ target =>
    if (← get).path.contains place then refuse
    modify fun t => { t with path := place :: t.path }
    count
    let a ← reader (← namedNode target)
    modify fun t => { t with path := t.path.tail }
    return a
  | n => reader n

/-- Read from a document with nothing counted yet. -/
def start (reading : Reading α) (d : Document) : Except Stop (α × Tally) :=
  StateT.run (ReaderT.run reading d) {}

/-- Read on with counts of its own, and say whether a node had the wrong form. -/
def apart (reading : Reading α) : Reading (α × Bool) := do
  let (a, t) ← reading.start (← read)
  return (a, t.faulty)

end Reading

/-- Read a document by its root. The document counts as a node itself, and it is refused if a node had
the wrong form. -/
def Document.readRoot {α : Type} (d : Document) (reader : Node → Reading α) : Except Stop α := do
  let (a, t) ← Reading.start (do Reading.count; Reading.visit d.root reader) d
  if t.faulty then throw .refused else return a

namespace Node

open Reading

variable {α : Type}

/-- Read a scalar by what it stands for. -/
def ofScalar (pick : Scalar → Meaning → Option α) : Node → Reading (Option α)
  | .scalar s =>
    match s.meaning? with
    | none => refuse
    | some .null => return none
    | some m =>
      match pick s m with
      | some a => return some a
      | none => misfit
  | _ => misfit

/-- Read a text: any scalar, as it is spelled. -/
def text : Node → Reading (Option Label) := ofScalar fun s _ => some s.content

/-- Read an integer: a plain number, cut down if it has a fraction, that fits 64 bits. -/
def int : Node → Reading (Option Int) :=
  ofScalar fun _ m =>
    match m with
    | .int n => if Text.fitsInt64 n then some n else none
    | .float n => n
    | _ => none

/-- Read a truth value, in the spellings of either schema. -/
def bool : Node → Reading (Option Bool) :=
  ofScalar fun s m =>
    match m with
    | .bool b => some b
    | .text => s.content.string?.bind Plain.oldBool?
    | _ => none

/-- Read a list. Items without a value are dropped. -/
def list (item : Node → Reading (Option α)) : Node → Reading (Option (List α))
  | .sequence _ items => do return some ((← items.mapM (visit · item)).filterMap id)
  | n => ofScalar (fun _ _ => none) n

/-- Read a value that may be missing: a node that stands for nothing has the value `none`. -/
def optional (reader : Node → Reading (Option α)) (n : Node) : Reading (Option (Option α)) := do
  match n with
  | .scalar s => if s.isNull then return some none else return (← reader n).map some
  | _ => return (← reader n).map some

/-- Whether a node stands for nothing or is tagged so; a node given by its name is like the node that it
stands for. -/
def isNull (n : Node) : Reading Bool := do
  let n ← match n with
    | .reference _ _ target => namedNode target
    | n => pure n
  match n with
  | .scalar s => return s.tag = some .null ∨ s.isNull
  | .sequence tag _ | .mapping tag _ => return tag = some .null
  | .reference _ _ _ => return false

end Node

end TensorKernel.Yaml
