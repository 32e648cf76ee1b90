import TensorKernel.Toml.Value

/-!
# TOML documents

A document is a list of statements, one a line: a key with its value, or the header of a table. The
statements are followed one after the other, so that the first thing that is wrong counts. No key may
be given twice, and no table may be opened twice or take the place of a value.
-/

namespace TensorKernel.Toml

/-- A line of a document. -/
inductive Statement where
  /-- The header of a table. -/
  | table (path : List String)
  /-- The header of an element of an array of tables. -/
  | element (path : List String)
  /-- A value in the current table. -/
  | assign (key : List String) (value : Value)
deriving Repr, Inhabited

namespace Statement

/-- Read a header or a value. -/
def parse? (cs : List Char) : Option (Statement × List Char) :=
  match cs with
  | '[' :: '[' :: rest => do
    let (path, rest) ← key? (rest.length + 1) (skipBlanks rest)
    match rest with
    | ']' :: ']' :: rest => return (.element path, rest)
    | _ => none
  | '[' :: rest => do
    let (path, rest) ← key? (rest.length + 1) (skipBlanks rest)
    match rest with
    | ']' :: rest => return (.table path, rest)
    | _ => none
  | _ => do
    let (key, rest) ← key? (cs.length + 1) cs
    match rest with
    | '=' :: rest =>
      let (value, rest) ← value? (2 * rest.length + 2) (skipBlanks rest)
      return (.assign key value, rest)
    | _ => none

end Statement

/-- Skip a comment, if one follows. -/
def afterComment? (cs : List Char) : Option (List Char) :=
  match skipBlanks cs with
  | '#' :: rest => skipComment rest
  | rest => some rest

/-- Read a line up to its end: a statement or none, and perhaps a comment. -/
def line? (cs : List Char) : Option (Option Statement × List Char) :=
  match skipBlanks cs with
  | [] => some (none, [])
  | c :: rest =>
    if c = '#' ∨ c = '\n' ∨ c = '\r' then (afterComment? (c :: rest)).map fun rest => (none, rest)
    else do
      let (statement, rest) ← Statement.parse? (c :: rest)
      return (some statement, ← afterComment? rest)

/-- Follow the statements of a text; every line takes a character, of which there are fewer than
`bound`. What cannot be read is `malformed`. -/
def followLines {σ ε : Type} (malformed : ε) (step : σ → Statement → Except ε σ) :
    Nat → σ → List Char → Except ε σ
  | 0, _, _ => .error malformed
  | bound + 1, state, cs =>
    match line? cs with
    | none => .error malformed
    | some (statement, rest) => do
      let state ← match statement with
        | none => .ok state
        | some statement => step state statement
      match rest with
      | [] => return state
      | c :: rest =>
        match newline? (c :: rest) with
        | none => .error malformed
        | some rest => followLines malformed step bound state rest

/-- Follow the statements of a document. -/
def follow {σ ε : Type} (malformed : ε) (step : σ → Statement → Except ε σ) (state : σ)
    (text : String) : Except ε σ :=
  followLines malformed step (text.toList.length + 1) state text.toList

/-- What a path stands for. -/
inductive UseKind where
  | value
  | table
  /-- An array of tables. -/
  | elements
deriving DecidableEq, Repr

/-- How a path was used. -/
structure Use where
  /-- What it stands for. -/
  kind : UseKind
  /-- Whether it cannot be opened again. -/
  closed : Bool := false
  /-- Whether it was used in a key with dots, and not by a header. -/
  dotted : Bool := false
deriving DecidableEq, Repr

/-- The paths used so far, and the table that is open. -/
structure Uses where
  /-- The paths with their uses, latest first. -/
  paths : List (List String × Use) := []
  /-- The open table. -/
  current : List String := []
deriving DecidableEq, Repr, Inhabited

namespace Uses

/-- The use of a path. -/
def use? (uses : Uses) (path : List String) : Option Use := uses.paths.lookup path

/-- Use a path. -/
def put (uses : Uses) (path : List String) (use : Use) : Uses :=
  { uses with paths := (path, use) :: uses.paths.filter fun (p, _) => p ≠ path }

/-- Whether a path lies inside a table. -/
def inside (table path : List String) : Bool := table.isPrefixOf path && path ≠ table

/-- Leave the open table: what its keys with dots have opened is closed. -/
def leave (uses : Uses) : Uses :=
  { uses with paths := uses.paths.map fun (path, use) =>
      if inside uses.current path && use.dotted then (path, { use with closed := true, dotted := false })
      else (path, use) }

/-- The paths that lead to a path, without the path itself and the one that it starts from. -/
def through (table key : List String) : List (List String) :=
  (List.range key.length).tail.map fun n => table ++ key.take n

/-- Go through the tables above a header. -/
def enterHeader (uses : Uses) (path : List String) : Option Uses :=
  (through [] path).foldlM (fun uses above =>
    match uses.use? above with
    | none => some (uses.put above { kind := .table })
    | some use => if use.kind = .value then none else some uses) uses

/-- Open a table by its header. -/
def openTable (uses : Uses) (path : List String) : Option Uses := do
  let uses ← uses.leave.enterHeader path
  match uses.use? path with
  | none => return { uses.put path { kind := .table, closed := true } with current := path }
  | some use =>
    if use.kind ≠ .table ∨ use.closed then none
    else return { uses.put path { use with closed := true } with current := path }

/-- Add an element to an array of tables, and say whether it is the first. What was used inside the
last element is free again. -/
def addElement (uses : Uses) (path : List String) : Option (Uses × Bool) := do
  let uses ← uses.leave.enterHeader path
  match uses.use? path with
  | none => return ({ uses.put path { kind := .elements, closed := true } with current := path }, true)
  | some use =>
    if use.kind ≠ .elements then none
    else return ({ paths := uses.paths.filter fun (p, _) => !inside path p, current := path }, false)

/-- Go through the tables that the dots of a key imply. -/
def enterKey (uses : Uses) (key : List String) : Option Uses :=
  (through uses.current key).foldlM (fun uses above =>
    match uses.use? above with
    | none => some (uses.put above { kind := .table, dotted := true })
    | some use => if use.kind ≠ .table ∨ use.closed then none else some uses) uses

/-- Use a key of the open table for a value. -/
def assignKey (uses : Uses) (key : List String) : Option Uses := do
  let uses ← uses.enterKey key
  let path := uses.current ++ key
  if (uses.use? path).isSome then none else return uses.put path { kind := .value, dotted := true }

end Uses

mutual

/-- Whether no key is given twice in a table inside a value. -/
def Value.consistent : Value → Bool
  | .array items => itemsConsistent items
  | .table entries => entriesConsistent {} entries
  | _ => true

/-- The same for the items of an array. -/
def itemsConsistent : List Value → Bool
  | [] => true
  | item :: rest => item.consistent && itemsConsistent rest

/-- The same for the entries of an inline table, behind those that were used before. -/
def entriesConsistent (uses : Uses) : List (List String × Value) → Bool
  | [] => true
  | (key, value) :: rest =>
    match uses.assignKey key with
    | none => false
    | some uses => value.consistent && entriesConsistent uses rest

end

/-- Use a key of the open table for a value in which no key is given twice. -/
def Uses.assign (uses : Uses) (key : List String) (value : Value) : Option Uses := do
  let uses ← uses.assignKey key
  if value.consistent then some uses else none

namespace Value

/-- Underscores stand only between other characters, never two in a row. -/
def underscoresApart : List Char → Bool
  | '_' :: rest => rest.head?.any (· ≠ '_') && underscoresApart rest
  | _ :: rest => underscoresApart rest
  | [] => true

/-- Digits without the underscores between them. -/
def withoutUnderscores? (cs : List Char) : Option (List Char) :=
  if (Text.splitSign cs).2.head? = some '_' ∨ !underscoresApart cs then none
  else some (cs.filter (· ≠ '_'))

/-- The integer of digits in a radix. -/
def radixInt? (radix : Nat) (digits : List Char) : Option Int := do
  let n ← (Text.natOfDigits radix (← withoutUnderscores? digits)).toOption
  if Text.fitsInt64 n then some n else none

/-- The integer of an optional sign with digits that do not start with a spare zero. -/
def decimalInt? (spelling : List Char) : Option Int := do
  let digits ← withoutUnderscores? spelling
  match (Text.splitSign digits).2 with
  | '0' :: _ :: _ => none
  | _ => Text.decimalInt? (String.ofList digits)

/-- The integer of a spelling. -/
def integerOf? (spelling : List Char) : Option Int :=
  match spelling with
  | '0' :: 'x' :: d :: rest => radixInt? 16 (d :: rest)
  | '0' :: 'o' :: d :: rest => radixInt? 8 (d :: rest)
  | '0' :: 'b' :: d :: rest => radixInt? 2 (d :: rest)
  | _ => decimalInt? spelling

/-- The integer that a value is. -/
def integer? : Value → Option Int
  | .integer spelling => integerOf? spelling
  | _ => none

/-- The text that a value is. -/
def text? : Value → Option String
  | .text s => some s
  | _ => none

end Value

end TensorKernel.Toml
