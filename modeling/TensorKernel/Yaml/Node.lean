import TensorKernel.Yaml.Token

/-!
# Documents

A document is a tree of scalars, sequences and mappings. A node may be given a name and stand in other
places by it, even inside itself. So a document is its root together with the named nodes, and a place
where a node stands by its name has the number of that node.

A document is read from tokens by descent; an absent node is the plain empty scalar. Every call takes a
token or passes on to a smaller part of the grammar, and a character makes four tokens at most, so the
number of nested calls is bounded by the length of the text. What cannot be read before the tokens end
is refused.
-/

namespace TensorKernel.Yaml

/-- A node of a document. -/
inductive Node where
  | scalar (s : Scalar)
  | sequence (tag : Option Tag) (items : List Node)
  /-- Keys with their values, in the order in which they are written. -/
  | mapping (tag : Option Tag) (entries : List (Node × Node))
  /-- A node given by its name. Every such place has a number of its own, besides that of the node. -/
  | reference (place : Nat) (name : String) (target : Nat)
deriving Repr, Inhabited

/-- A document: its root, and the nodes that have a name, in the order in which they start. -/
structure Document where
  /-- The root. -/
  root : Node
  /-- The named nodes. -/
  named : Array Node := #[]
  /-- A number that grows with the document. -/
  bound : Nat := 0
deriving Repr, Inhabited

/-- The names of the core schema for tags with one or two exclamation marks. -/
def defaultHandles : List (String × String) := [("!", "!"), ("!!", Tag.coreNamespace)]

/-- What a reader of documents has before it. -/
structure Feed where
  /-- The tokens to come. -/
  tokens : Tokenizer
  /-- The names given to nodes with the numbers of those, latest first. -/
  names : List (String × Nat) := []
  /-- The named nodes; one that is still being read is absent. -/
  named : Array Node := #[]
  /-- The number of places where a node stands by its name. -/
  references : Nat := 0
  /-- What the handles of tags stand for. -/
  handles : List (String × String) := defaultHandles
deriving Repr, Inhabited

/-- A part of a document read from tokens. -/
abbrev Descent := StateT Feed Option

namespace Descent

/-- The next token. -/
def peek : Descent Token := do
  let feed ← get
  let tokens ← feed.tokens.fill
  set { feed with tokens }
  match tokens.queue with
  | [] => failure
  | token :: _ => return token

/-- Pass the next token. -/
def pass : Descent Unit := modify fun feed => { feed with tokens := feed.tokens.take }

/-- The full name of a tag; the mark alone is no tag. -/
def fullTag (handle name : String) : Descent (Option Tag) := do
  if handle = "" then return if name = "!" then none else some (Tag.ofName name)
  match (← get).handles.lookup handle with
  | none => failure
  | some expansion => return some (Tag.ofName (expansion ++ name))

/-- The anchor and the tag in front of a node, in either order. -/
def properties : Descent (Option String × Option (String × String)) := do
  match ← peek with
  | .anchor anchor =>
    pass
    match ← peek with
    | .tag handle name => pass; return (some anchor, some (handle, name))
    | _ => return (some anchor, none)
  | .tag handle name =>
    pass
    match ← peek with
    | .anchor anchor => pass; return (some anchor, some (handle, name))
    | _ => return (none, some (handle, name))
  | _ => return (none, none)

/-- The node with a name, which is the latest one that was given it. -/
def byName (name : String) : Descent Node := do
  let feed ← get
  match feed.names.lookup name with
  | none => failure
  | some target =>
    set { feed with references := feed.references + 1 }
    return .reference feed.references name target

/-- Give the node that is read a name, which it has from its start on. -/
def naming (anchor : Option String) (read : Descent Node) : Descent Node := do
  match anchor with
  | none => read
  | some name =>
    let number := (← get).named.size
    modify fun feed =>
      { feed with names := (name, number) :: feed.names, named := feed.named.push default }
    let n ← read
    modify fun feed => { feed with named := feed.named.setIfInBounds number n }
    return n

end Descent

namespace Node

open Descent

/-- The node that is not there. -/
def absent : Node := .scalar { text := "" }

/-- A text as a node. -/
def ofText (text : String) : Node := .scalar (.ofText text)

/-- A label as a node. -/
def ofLabel (l : Label) : Node := .scalar (.ofLabel l)

/-- An integer as a node. -/
def ofInt (n : Int) : Node := .scalar (.ofInt n)

/-- A truth value as a node. -/
def ofBool (b : Bool) : Node := .scalar (.ofBool b)

mutual

/-- Read a node, which may have an anchor and a tag, or be given by its name. -/
def node (block flat : Bool) : Nat → Descent Node
  | 0 => failure
  | n + 1 => do
    match ← peek with
    | .reference name => pass; byName name
    | _ =>
      let (anchor, tagged) ← properties
      let tag ← match tagged with
        | none => pure none
        | some (handle, name) => fullTag handle name
      naming anchor (content block flat (anchor.isSome || tagged.isSome) tag n)

/-- Read what is behind the anchor and the tag of a node. Block collections are read only where `block`
allows them, and a sequence that is not indented only where `flat` does. The content may be absent if
there is anything in front of it. -/
def content (block flat marked : Bool) (tag : Option Tag) : Nat → Descent Node
  | 0 => failure
  | n + 1 => do
    match ← peek, block, flat with
    | .scalar s, _, _ => pass; return .scalar { s with tag }
    | .openSequence, _, _ => pass; return .sequence tag (← bracketItems true n)
    | .openMapping, _, _ => pass; return .mapping tag (← bracketEntries true n)
    | .blockSequence, true, _ => pass; return .sequence tag (← blockItems n)
    | .blockMapping, true, _ => pass; return .mapping tag (← blockEntries n)
    | .item, _, true => return .sequence tag (← flatItems n)
    | _, _, _ => if marked then return .scalar { text := "", tag } else failure

/-- Read a node unless one of the tokens comes that can follow an absent one. -/
def nodeOr (block flat : Bool) (follow : List Token) : Nat → Descent Node
  | 0 => failure
  | n + 1 => do if follow.contains (← peek) then return absent else node block flat n

/-- Read the items of an indented block sequence and its end. -/
def blockItems : Nat → Descent (List Node)
  | 0 => failure
  | n + 1 => do
    match ← peek with
    | .item =>
      pass
      let item ← nodeOr true false [.item, .blockEnd] n
      return item :: (← blockItems n)
    | .blockEnd => pass; return []
    | _ => failure

/-- Read the items of a block sequence that is indented like the key it belongs to. -/
def flatItems : Nat → Descent (List Node)
  | 0 => failure
  | n + 1 => do
    match ← peek with
    | .item =>
      pass
      let item ← nodeOr true false [.item, .key, .value, .blockEnd] n
      return item :: (← flatItems n)
    | _ => return []

/-- Read the entries of a block mapping and its end. -/
def blockEntries : Nat → Descent (List (Node × Node))
  | 0 => failure
  | n + 1 => do
    match ← peek with
    | .key =>
      pass
      let key ← nodeOr true true [.key, .value, .blockEnd] n
      let value ← blockValue n
      return (key, value) :: (← blockEntries n)
    | .blockEnd => pass; return []
    | _ => failure

/-- Read the value of an entry of a block mapping. -/
def blockValue : Nat → Descent Node
  | 0 => failure
  | n + 1 => do
    match ← peek with
    | .value => pass; nodeOr true true [.key, .value, .blockEnd] n
    | _ => return absent

/-- Read the items of a sequence in brackets and the closing bracket. -/
def bracketItems (first : Bool) : Nat → Descent (List Node)
  | 0 => failure
  | n + 1 => do
    match ← peek, first with
    | .closeSequence, _ => pass; return []
    | .comma, false => pass; nextItem n
    | _, true => nextItem n
    | _, false => failure

/-- Read one more item of a sequence in brackets, if there is one, and the rest of the sequence. An
item behind a question mark is a mapping; if its key is absent, the token behind it is passed. -/
def nextItem : Nat → Descent (List Node)
  | 0 => failure
  | n + 1 => do
    match ← peek with
    | .closeSequence => pass; return []
    | .key =>
      pass
      let key ← if [Token.value, .comma, .closeSequence].contains (← peek) then do pass; pure absent
        else node false false n
      let value ← bracketValue .closeSequence n
      return .mapping none [(key, value)] :: (← bracketItems false n)
    | _ =>
      let item ← node false false n
      return item :: (← bracketItems false n)

/-- Read the entries of a mapping in brackets and the closing bracket. -/
def bracketEntries (first : Bool) : Nat → Descent (List (Node × Node))
  | 0 => failure
  | n + 1 => do
    match ← peek, first with
    | .closeMapping, _ => pass; return []
    | .comma, false => pass; nextEntry n
    | _, true => nextEntry n
    | _, false => failure

/-- Read one more entry of a mapping in brackets, if there is one, and the rest of the mapping. -/
def nextEntry : Nat → Descent (List (Node × Node))
  | 0 => failure
  | n + 1 => do
    match ← peek with
    | .closeMapping => pass; return []
    | .key =>
      pass
      let key ← nodeOr false false [.value, .comma, .closeMapping] n
      let value ← bracketValue .closeMapping n
      return (key, value) :: (← bracketEntries false n)
    | _ =>
      let key ← node false false n
      return (key, absent) :: (← bracketEntries false n)

/-- Read the value of an entry in brackets that end with `close`. -/
def bracketValue (close : Token) : Nat → Descent Node
  | 0 => failure
  | n + 1 => do
    match ← peek with
    | .value => pass; nodeOr false false [.comma, close] n
    | _ => return absent

end

/-- Read the directives before a document. There is one version, and each handle is given once. -/
def directives (versioned : Bool) (handles : List (String × String)) : Nat → Descent Unit
  | 0 => failure
  | n + 1 => do
    match ← peek with
    | .directive (.version major minor) =>
      if versioned ∨ (major, minor) ≠ (1, 1) then failure
      pass
      directives true handles n
    | .directive (.handle name expansion) =>
      if (handles.lookup name).isSome then failure
      pass
      directives versioned ((name, expansion) :: handles) n
    | _ => modify fun feed => { feed with handles := handles ++ defaultHandles }

/-- Whether a token ends a document, or stands before the next one. -/
def endsDocument : Token → Bool
  | .textEnd | .documentStart | .documentEnd | .directive _ => true
  | _ => false

/-- Whether a document starts with a token other than one of its own. -/
def startsDocument : Token → Bool
  | .documentStart | .directive _ => true
  | _ => false

/-- Read a document. Of what follows its root node only the first token is looked at. A text without
anything is a document without a root. -/
def document : Descent Document := do
  let bound := 32 * ((← get).tokens.cursor.bound + 2)
  let first ← peek
  if first = .textEnd then return { root := absent }
  let root ←
    if startsDocument first then do
      directives false [] bound
      if (← peek) ≠ .documentStart then failure
      pass
      if endsDocument (← peek) then pure absent else node true false bound
    else node true false bound
  let _ ← peek
  return { root, named := (← get).named, bound }

end Node

/-- Read the text of a document. -/
def Document.parse? (text : String) : Option Document :=
  (Node.document.run { tokens := .ofText text }).map Prod.fst

end TensorKernel.Yaml
