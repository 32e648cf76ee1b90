import TensorKernel.Yaml.Name

/-!
# Tokens

The text of a document is cut into tokens. Indentation becomes a pair of tokens around each block. A
key is recognised only by the colon behind it, so the places where a key may have started are kept,
one for each level of brackets, and its token is put in later.

Tokens are cut only when they are asked for. There are always three of them in the queue, and as many
as it takes to know whether the first one starts a key. A key that is recognised when its first token
is gone already comes too late: its token goes to the end of the queue.
-/

namespace TensorKernel.Yaml

/-- A token of a document. -/
inductive Token where
  /-- The end of the text. -/
  | textEnd
  /-- A directive before a document. -/
  | directive (d : Directive)
  /-- The mark before a document. -/
  | documentStart
  /-- The mark behind a document. -/
  | documentEnd
  | blockSequence
  | blockMapping
  | blockEnd
  | openSequence
  | closeSequence
  | openMapping
  | closeMapping
  /-- The dash of an item of a block sequence. -/
  | item
  | comma
  | key
  | value
  /-- The name given to the node that follows. -/
  | anchor (name : String)
  /-- A node given by its name. -/
  | reference (name : String)
  /-- The handle and the name of the tag of the node that follows. -/
  | tag (handle name : String)
  | scalar (s : Scalar)
deriving DecidableEq, Repr, Inhabited

namespace Token

/-- Whether a comment behind the token on its line belongs to it. Tokens that end a line or start an
item have none. -/
def hasComment : Token → Bool
  | .textEnd | .directive _ | .documentStart | .documentEnd | .item => false
  | _ => true

end Token

/-- A place where a key may have started. -/
structure KeySpot where
  /-- The number of tokens before it. -/
  number : Nat
  /-- The place. -/
  place : Place
  /-- Whether nothing but a key can stand there. -/
  required : Bool
  /-- Whether the token there is held back until it is known whether it starts a key. -/
  awaited : Bool := true
deriving DecidableEq, Repr

/-- A key and its colon stand on one line, not too far apart. -/
def KeySpot.reaches (k : KeySpot) (p : Place) : Bool :=
  k.place.line = p.line ∧ p.index ≤ k.place.index + 1024

/-- A level of brackets. -/
structure Level where
  /-- Where a key may have started. -/
  spot : Option KeySpot := none
  /-- The number of tokens before the last such place, or before the opening bracket. -/
  last : Nat := 0
deriving DecidableEq, Repr, Inhabited

/-- Nobody waits any more for the key whose first token has a given number. -/
def Level.release (l : Level) (number : Nat) : Level :=
  { l with spot := l.spot.map fun k => if k.number = number then { k with awaited := false } else k }

/-- The state of cutting a text into tokens. -/
structure Tokenizer where
  /-- What is left of the text. -/
  cursor : Cursor
  /-- The tokens that were cut and not taken yet. -/
  queue : List Token := []
  /-- The number of tokens that were taken. -/
  taken : Nat := 0
  /-- The indentations of the open blocks, innermost first. -/
  indents : List Nat := []
  /-- The innermost level of brackets. -/
  level : Level := {}
  /-- The levels around it, innermost first. -/
  outer : List Level := []
  /-- Whether a key may start here. -/
  keyAllowed : Bool := true
deriving DecidableEq, Repr, Inhabited

namespace Tokenizer

open Scalar (isBreak isBlank)
open Cursor (blankOrEnd)

/-- The tokenizer at the start of a text. -/
def ofText (text : String) : Tokenizer := { cursor := .ofText text }

/-- How deep blocks and brackets may be nested. -/
def maxDepth : Nat := 10000

/-- The indentation of the innermost block, or -1 outside all blocks. -/
def indent (t : Tokenizer) : Int :=
  match t.indents with
  | [] => -1
  | n :: _ => n

/-- Whether brackets are open. -/
def inBrackets (t : Tokenizer) : Bool := !t.outer.isEmpty

/-- The number of tokens that were cut. -/
def count (t : Tokenizer) : Nat := t.taken + t.queue.length

/-- Read a part of the text. -/
def scan {α : Type} (t : Tokenizer) (part : Scan α) : Option (α × Tokenizer) := do
  let (a, cursor) ← part.run t.cursor
  return (a, { t with cursor })

/-- Put a token at the end of the queue. -/
def emit (t : Tokenizer) (token : Token) : Tokenizer := { t with queue := t.queue ++ [token] }

/-- Put a token behind the first `number` tokens, or at the end if those were taken already. -/
def emitAt (t : Tokenizer) (number : Nat) (token : Token) : Tokenizer :=
  if number < t.taken then t.emit token
  else
    let n := number - t.taken
    { t with queue := t.queue.take n ++ token :: t.queue.drop n }

/-- Emit a token of one character. -/
def emitSkip (t : Tokenizer) (token : Token) : Tokenizer :=
  { t.emit token with cursor := t.cursor.skip }

/-- Give up the place of a possible key; a required one cannot be given up. -/
def dropKey (t : Tokenizer) : Option Tokenizer :=
  if t.level.spot.any (·.required) then none
  else some { t with level := { t.level with spot := none } }

/-- Remember that a key may start here. -/
def noteKey (t : Tokenizer) : Option Tokenizer :=
  if t.keyAllowed then do
    let required := !t.inBrackets ∧ t.indent = t.cursor.place.column
    let spot : KeySpot := { number := t.count, place := t.cursor.place, required }
    return { ← t.dropKey with level := { spot := some spot, last := t.count } }
  else some t

/-- Open a block at a column if it lies deeper than the innermost one; its token goes behind the first
`number` tokens. -/
def openBlock (t : Tokenizer) (column : Nat) (token : Token) (number : Nat) : Option Tokenizer :=
  if t.inBrackets ∨ (column : Int) ≤ t.indent then some t
  else if maxDepth ≤ t.indents.length then none
  else some { t.emitAt number token with indents := column :: t.indents }

/-- Close the blocks that lie deeper than a column. -/
def closeBlocks (t : Tokenizer) (column : Int) : Tokenizer :=
  if t.inBrackets then t
  else
    let deeper := t.indents.takeWhile fun (n : Nat) => column < n
    { t with
      indents := t.indents.drop deeper.length
      queue := t.queue ++ deeper.map fun _ => Token.blockEnd }

/-- An opening bracket. -/
def openBracket (t : Tokenizer) (token : Token) : Option Tokenizer := do
  let t ← t.noteKey
  if maxDepth ≤ t.outer.length then none
  return { t.emitSkip token with
    level := { last := t.count }, outer := t.level :: t.outer, keyAllowed := true }

/-- A closing bracket. Brackets in which no key could have started are not waited for as a key. -/
def closeBracket (t : Tokenizer) (token : Token) : Option Tokenizer := do
  let t ← t.dropKey
  let number := t.level.last
  let t := { t.emitSkip token with keyAllowed := false }
  match t.outer with
  | [] => return t
  | level :: outer => return { t with level := level.release number, outer }

/-- The dash of an item of a block sequence. -/
def blockItem (t : Tokenizer) : Option Tokenizer := do
  if !t.inBrackets ∧ !t.keyAllowed then none
  let t ← (← t.openBlock t.cursor.place.column .blockSequence t.count).dropKey
  return { t.emitSkip .item with keyAllowed := true }

/-- The question mark before a key. -/
def markedKey (t : Tokenizer) : Option Tokenizer := do
  if !t.inBrackets ∧ !t.keyAllowed then none
  let t ← (← t.openBlock t.cursor.place.column .blockMapping t.count).dropKey
  return { t.emitSkip .key with keyAllowed := !t.inBrackets }

/-- The colon before a value. What stands before it is a key if one could start there; a key that had
to be one and ended too early is refused. -/
def colon (t : Tokenizer) : Option Tokenizer :=
  match t.level.spot.filter (·.reaches t.cursor.place) with
  | some k => do
    let t ← (t.emitAt k.number .key).openBlock k.place.column .blockMapping k.number
    return { t.emitSkip .value with level := { t.level with spot := none }, keyAllowed := false }
  | none => do
    let t ← t.dropKey
    if !t.inBrackets ∧ !t.keyAllowed then none
    let t ← t.openBlock t.cursor.place.column .blockMapping t.count
    return { t.emitSkip .value with keyAllowed := !t.inBrackets }

/-- A token that a key may start with, and behind which none may start. -/
def word (t : Tokenizer) (part : Scan Token) : Option Tokenizer := do
  let (token, t) ← (← t.noteKey).scan part
  return { t.emit token with keyAllowed := false }

/-- A plain scalar. A key may start behind it only if it ended with a line break. -/
def plain (t : Tokenizer) : Option Tokenizer := do
  let t ← t.noteKey
  let ((s, broken), t) ← t.scan (Scalar.plain t.inBrackets (t.indent + 1))
  return { t.emit (.scalar s) with keyAllowed := broken }

/-- A block scalar. -/
def block (t : Tokenizer) (folded : Bool) : Option Tokenizer := do
  let t ← t.dropKey
  let (s, t) ← t.scan (Scalar.block folded t.indent)
  return { t.emit (.scalar s) with keyAllowed := true }

/-- A mark between documents. -/
def marker (t : Tokenizer) (token : Token) : Option Tokenizer := do
  let t ← (t.closeBlocks (-1)).dropKey
  let ((), t) ← t.scan (Scan.skips 3)
  return { t.emit token with keyAllowed := false }

/-- A directive, which takes its whole line. -/
def directive (t : Tokenizer) : Option Tokenizer := do
  let t ← (t.closeBlocks (-1)).dropKey
  let (d, t) ← t.scan Name.directive
  return { t.emit (.directive d) with keyAllowed := false }

/-- Cut a token whose first character is known. -/
def cutToken (t : Tokenizer) (c : Char) (rest : List Char) : Option Tokenizer :=
  if c = '%' ∧ t.cursor.place.column = 0 then t.directive
  else if t.cursor.atMarker then t.marker (if c = '-' then .documentStart else .documentEnd)
  else if c = '[' then t.openBracket .openSequence
  else if c = '\x7b' then t.openBracket .openMapping
  else if c = ']' then t.closeBracket .closeSequence
  else if c = '\x7d' then t.closeBracket .closeMapping
  else if c = ',' then do
    let t ← t.dropKey
    return { t.emitSkip .comma with keyAllowed := true }
  else if c = '-' ∧ blankOrEnd rest then t.blockItem
  else if c = '?' ∧ (t.inBrackets ∨ blankOrEnd rest) then t.markedKey
  else if c = ':' ∧ (t.inBrackets ∨ blankOrEnd rest) then t.colon
  else if c = '*' then t.word do return .reference (← Name.anchor)
  else if c = '&' then t.word do return .anchor (← Name.anchor)
  else if c = '!' then t.word do
    let (handle, name) ← Name.tag
    return .tag handle name
  else if c = '|' ∧ !t.inBrackets then t.block false
  else if c = '>' ∧ !t.inBrackets then t.block true
  else if c = '\'' then t.word do return .scalar (← Scalar.quoted false)
  else if c = '"' then t.word do return .scalar (← Scalar.quoted true)
  else if Scalar.isIndicator c ∨ isBlank c then none
  else t.plain

/-- The end of the text, which is the end of a line as well. -/
def finish (t : Tokenizer) : Option Tokenizer := do
  let place := t.cursor.place
  let place := if place.column = 0 then place else { place with line := place.line + 1, column := 0 }
  let t ← ({ t with cursor := { t.cursor with place } }.closeBlocks (-1)).dropKey
  return { t.emit .textEnd with keyAllowed := false }

/-- Cut the next token and the comment that belongs to it, closing the blocks that end before it. -/
def step (t : Tokenizer) : Option Tokenizer := do
  let (keyAllowed, t) ← t.scan do
    Scan.need 1
    Scan.nextToken t.inBrackets t.keyAllowed
  let t := { t with keyAllowed }.closeBlocks t.cursor.place.column
  let ((), t) ← t.scan (Scan.need 4)
  let t ← match t.cursor.rest with
    | [] => t.finish
    | c :: rest => t.cutToken c rest
  if t.queue.getLast?.any Token.hasComment then
    let ((), t) ← t.scan Scan.lineComment
    return t
  return t

/-- The place of a possible key that starts with the next token, if that is held back. The levels are
searched from the innermost one, as far as there are tokens to come. -/
def awaitedIn (taken : Nat) : List Level → Option KeySpot
  | [] => none
  | level :: outer =>
    if level.last < taken then none
    else (level.spot.filter fun k => k.awaited ∧ k.number = taken).or (awaitedIn taken outer)

/-- Whether another token has to be cut before the next one can be taken; none if the next one had to
be a key and is not. -/
def lacksTokens (t : Tokenizer) : Option Bool :=
  if t.queue.length < 3 then some true
  else match awaitedIn t.taken (t.level :: t.outer) with
    | none => some false
    | some k =>
      if k.reaches t.cursor.place then some true else if k.required then none else some false

/-- Cut tokens until the next one can be taken. Every one of them takes a character at least, of which
there are fewer than `bound`, or ends the text. -/
def fillFrom : Nat → Tokenizer → Option Tokenizer
  | 0, _ => none
  | bound + 1, t => do if ← t.lacksTokens then fillFrom bound (← t.step) else return t

/-- Cut tokens until the next one can be taken. -/
def fill (t : Tokenizer) : Option Tokenizer := t.fillFrom (t.cursor.bound + 3)

/-- Take the next token. -/
def take (t : Tokenizer) : Tokenizer := { t with queue := t.queue.tail, taken := t.taken + 1 }

end Tokenizer

end TensorKernel.Yaml
