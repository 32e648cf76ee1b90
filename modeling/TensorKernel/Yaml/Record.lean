import TensorKernel.Yaml.Reading

/-!
# Reading mappings

The entries of a mapping are read one by one, in the order in which they are written, into a record or
a table. A mapping whose keys are written alike is of the wrong form. Keys of records that nobody asks
for are ignored together with their values; a field that is given twice, by keys that are written
differently, is of the wrong form.

A mapping may take over entries of other mappings, as far as it has none with the same key, and the
earlier ones of them have none. Its own keys are read once more for that, whatever they are; they have
to be compared, and collections cannot be.
-/

namespace TensorKernel.Yaml

/-- What a node of any form stands for, as far as it matters for keys. -/
inductive Content where
  | key (k : Key)
  | collection
deriving DecidableEq, Repr

/-- How the entries of a mapping are put into something. -/
structure Sink (β : Type) where
  /-- Get ready for the entries of another mapping. -/
  start : β → β := id
  /-- Read a key, given whether the mapping is taken over by another one. -/
  key : Bool → Node → Reading (Option Key)
  /-- Put the value for a key in, given whether the mapping is taken over by another one. -/
  value : Bool → Key → Node → β → Reading β
  /-- How a mapping is taken over, if that is done in a way of its own. -/
  special : Node → Option (β → Reading β) := fun _ => none

/-- The fields of a record, and how a node changes the record. -/
abbrev Fields (α : Type) := String → Option (Node → α → Reading α)

namespace Node

open Reading

variable {α β ν : Type}

/-- Whether two keys of a mapping are written alike: two scalars with the same text, two uses of one
name, or two collections of one kind. -/
def sameKey : Node → Node → Bool
  | .scalar a, .scalar b => a.text = b.text
  | .sequence _ _, .sequence _ _ => true
  | .mapping _ _, .mapping _ _ => true
  | .reference _ a _, .reference _ b _ => a = b
  | _, _ => false

/-- Whether no two keys are written alike. -/
def distinctKeys : List Node → Bool
  | [] => true
  | key :: rest => !rest.any (sameKey key) && distinctKeys rest

/-- Whether a key is the one for entries to be taken over. -/
def isMerge : Node → Bool
  | .scalar s => s.isMerge
  | _ => false

/-- Whether a node is a mapping, or stands for one. -/
def isMapping : Node → Reading Bool
  | .mapping _ _ => return true
  | .reference _ _ target => do
    match ← namedNode target with
    | .mapping _ _ => return true
    | _ => return false
  | _ => return false

/-- Read the entries that a mapping has itself. Where the mapping is taken over, hidden keys are passed
over, and those that are read become hidden. -/
def ownEntries (sink : Sink β) (hidden : Option (List Key)) (b : β) :
    List (Node × Node) → Reading (Option (List Key) × β)
  | [] => return (hidden, b)
  | (k, v) :: rest => do
    if isMerge k then ownEntries sink hidden b rest
    else match ← sink.key hidden.isSome k with
      | none => ownEntries sink hidden b rest
      | some key =>
        if hidden.any (·.any (Key.same key)) then ownEntries sink hidden b rest
        else ownEntries sink (hidden.map (key :: ·)) (← sink.value hidden.isSome key v b) rest

/-- Hide the keys of a mapping that takes over entries. -/
def hideKeys (anything : Node → Reading (Option Content)) : List (Node × Node) → Reading Unit
  | [] => return ()
  | (k, _) :: rest => do
    match ← visit k anything with
    | none => pure ()
    | some .collection => throw .collectionKey
    | some (.key key) => modify fun t => { t with hidden := t.hidden.map (key :: ·) }
    hideKeys anything rest

/-- Take over a mapping; nothing else can be taken over. -/
def takeOverMapping (sink : Sink β) (again : List (Node × Node) → β → Reading (Option β)) (b : β)
    (source : Node) : Reading β := do
  if !(← isMapping source) then refuse
  visit source fun n =>
    match sink.special n, n with
    | some reader, _ => reader b
    | none, .mapping _ entries => return (← again entries b).getD b
    | none, _ => return b

/-- Take over a mapping, or several in a sequence. -/
def takeOver (sink : Sink β) (again : List (Node × Node) → β → Reading (Option β)) (b : β) :
    Node → Reading β
  | .sequence _ sources => sources.foldlM (takeOverMapping sink again) b
  | source => takeOverMapping sink again b source

/-- Read the entries of a mapping, its own and then those that it takes over, for which `again` reads a
mapping like this one. There is no value if keys are written alike. -/
def mappingWith (anything : Node → Reading (Option Content)) (sink : Sink β)
    (again : List (Node × Node) → β → Reading (Option β)) (entries : List (Node × Node)) (b : β) :
    Reading (Option β) := do
  if !distinctKeys (entries.map Prod.fst) then misfit
  else
    let hidden := (← get).hidden
    modify fun t => { t with hidden := none }
    let (hidden, b) ← ownEntries sink hidden (sink.start b) entries
    modify fun t => { t with hidden }
    match entries.find? (isMerge ·.1) with
    | none => return some b
    | some (_, source) =>
      if hidden.isSome then return some (← takeOver sink again b source)
      modify fun t => { t with hidden := some [] }
      hideKeys anything entries
      let b ← takeOver sink again b source
      modify fun t => { t with hidden := none }
      return some b

/-- Read the entries of a mapping, where fewer than `bound` mappings are taken over one by another. -/
def mappingFrom (anything : Node → Reading (Option Content)) (sink : Sink β) :
    Nat → List (Node × Node) → β → Reading (Option β)
  | 0 => mappingWith anything sink fun _ _ => refuse
  | bound + 1 => mappingWith anything sink (mappingFrom anything sink bound)

/-- Whether a key is a text by its tag, or the key for entries to be taken over. -/
def isTextKey (n : Node) : Reading Bool := do
  let n ← match n with
    | .reference _ _ target => namedNode target
    | n => pure n
  match n with
  | .scalar s =>
    return s.tag = some .text ∨ s.tag = some .merge ∨ (s.tag = none ∧ s.meaning? = some .text)
  | .sequence tag _ | .mapping tag _ => return tag = some .text ∨ tag = some .merge
  | .reference _ _ _ => return false

/-- Read the entries of a mapping of any form, whose keys may all be texts, and drop them. -/
def anySink (texts : Bool) (anything : Node → Reading (Option Content)) : Sink Unit where
  key taken n := do
    if texts then return (← visit n text).map Key.text
    else match ← visit n anything with
      | none => return none
      | some .collection => throw (if taken then .collectionKey else .refused)
      | some (.key key) => return some key
  value _ _ n _ := do let _ ← visit n anything

/-- Read a node of any form, in which fewer than `bound` nodes are nested. -/
def anythingFrom : Nat → Node → Reading (Option Content)
  | 0, _ => refuse
  | bound + 1, n => do
    match n with
    | .scalar s =>
      match s.meaning? with
      | none => refuse
      | some .text => return some (.key (.text s.content))
      | some m => return some (.key (.plain m))
    | .sequence _ items =>
      items.forM fun item => do let _ ← visit item (anythingFrom bound)
      return some .collection
    | .mapping _ entries =>
      let texts ← entries.allM (isTextKey ·.1)
      let sink := anySink texts (anythingFrom bound)
      return (← mappingFrom (anythingFrom bound) sink bound entries ()).map fun _ => .collection
    | .reference _ _ _ => return none

/-- Read the entries of a mapping. -/
def entriesInto (sink : Sink β) (entries : List (Node × Node)) (b : β) : Reading (Option β) := do
  let bound := (← read).bound
  mappingFrom (anythingFrom bound) sink bound entries b

/-- Read the fields of a record, with the names of those that the mapping has given so far. -/
def fieldSink (fields : Fields α) : Sink (α × List String) where
  start := fun (a, _) => (a, [])
  key _ n := do return (← visit n text).map Key.text
  value := fun _ key n (a, given) => do
    let name := match key with
      | .text l => l.string?
      | _ => none
    match name, name.bind fields with
    | some name, some field =>
      if given.contains name then
        let _ : Option Unit ← misfit
        return (a, given)
      return (← visit n (field · a), name :: given)
    | _, _ => return (a, given)

/-- Change a record by the fields of a mapping. -/
def record (fields : Fields α) (a : α) : Node → Reading (Option α)
  | .mapping _ entries => do return (← entriesInto (fieldSink fields) entries (a, [])).map Prod.fst
  | n => ofScalar (fun _ _ => none) n

/-- Put a value into a table, in place of another one with the same key. -/
def put (table : List (Key × ν)) (key : Key) (v : ν) : List (Key × ν) :=
  table.filter (fun entry => entry.1 ≠ key) ++ [(key, v)]

/-- Read the entries of a table. A value that stands for nothing is the `empty` one, but does not take
the place of another one if it comes from a mapping that is taken over. -/
def tableSink (key : Node → Reading (Option Key)) (value : Node → Reading (Option ν)) (empty : ν) :
    Sink (List (Key × ν)) where
  key _ n := visit n key
  value taken k n table := do
    match ← visit n value with
    | some v => return put table k v
    | none =>
      if (← isNull n) ∧ (!taken ∨ !table.any (·.1 = k)) then return put table k empty
      else return table

/-- A field that a node gives a new value, unless it has none. -/
def field (reader : Node → Reading (Option ν)) (set : ν → α → α) (n : Node) (a : α) : Reading α := do
  match ← reader n with
  | some v => return set v a
  | none => return a

end Node

end TensorKernel.Yaml
