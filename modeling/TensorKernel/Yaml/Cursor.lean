import TensorKernel.Yaml.Scalar

/-!
# Texts that are loaded in portions

A document is read from a cursor: what is left of its text, and the place where that starts. The text
is loaded in portions, and only as far as somebody asks for it, so a character that no document may
hold is found only once its portion is loaded. Behind the end of the text there is as much of nothing
as is asked for.

The mark of the byte order counts as such where a portion was asked for right before it. Until the
next portion is asked for, it makes a margin: the first character of every line is passed over.
-/

namespace TensorKernel.Yaml

open Scalar (isBreak isBlank)

/-- A place in a text. -/
structure Place where
  /-- The number of line breaks before it. -/
  line : Nat := 0
  /-- The number of characters before it on its line. -/
  column : Nat := 0
  /-- The number of characters before it. -/
  index : Nat := 0
deriving DecidableEq, Repr, Inhabited

namespace Place

/-- The place behind a character of the same line. -/
def skip (p : Place) : Place := { p with column := p.column + 1, index := p.index + 1 }

/-- The place behind a line break of `n` characters. -/
def newline (p : Place) (n : Nat) : Place := { line := p.line + 1, column := 0, index := p.index + n }

end Place

/-- What is left of a text, and where it starts. -/
structure Cursor where
  /-- The place. -/
  place : Place := {}
  /-- The characters to come. -/
  rest : List Char
  /-- How many of them are loaded; what is behind the end counts too. -/
  loaded : Nat := 0
  /-- The number of bytes of the next portion. -/
  room : Nat := 512
  /-- Whether there is a margin. -/
  margin : Bool := false
  /-- The number of line breaks since the last character that is no blank. -/
  breaks : Nat := 0
  /-- A number that the number of characters to come never reaches. -/
  bound : Nat
deriving DecidableEq, Repr, Inhabited

namespace Cursor

/-- The characters that a document may hold. -/
def isAllowed (c : Char) : Bool :=
  let n := c.toNat
  n = 0x09 ∨ n = 0x0a ∨ n = 0x0d ∨ (0x20 ≤ n ∧ n ≤ 0x7e) ∨ n = 0x85 ∨ (0xa0 ≤ n ∧ n ≤ 0xfffd) ∨
    0x10000 ≤ n

/-- How many characters come in a portion of `room` bytes, and whether the next one is allowed. -/
def portion (room : Nat) : List Char → Nat × Bool
  | [] => (0, true)
  | c :: rest =>
    if room < c.utf8Size then (0, true)
    else if isAllowed c then
      let (n, allowed) := portion (room - c.utf8Size) rest
      (n + 1, allowed)
    else (0, false)

/-- Load portions until `count` characters are loaded, and say whether that went well. Every portion
has a character at least, so `count` of them are enough. -/
def loadFrom (count : Nat) : Nat → Cursor → Bool × Cursor
  | 0, c => (true, c)
  | bound + 1, c =>
    if count ≤ c.loaded then (true, c)
    else match c.rest.drop c.loaded with
      | [] => (true, { c with loaded := c.loaded + 1 })
      | pending =>
        let (n, allowed) := portion c.room pending
        let c := { c with loaded := c.loaded + n, room := 512 }
        if allowed then loadFrom count bound c else (false, c)

/-- Load the next `count` characters, and say whether that went well. -/
def load (count : Nat) (c : Cursor) : Bool × Cursor :=
  if count ≤ c.loaded then (true, c)
  else loadFrom count count { c with margin := c.rest.head? = some Scalar.byteOrderMark }

/-- The cursor behind the next character. -/
def skip (c : Cursor) : Cursor :=
  { c with
    place := c.place.skip
    rest := c.rest.tail
    loaded := c.loaded - 1
    breaks := if c.rest.head?.any isBlank then c.breaks else 0 }

/-- The line break that comes next, as it is read, with the cursor behind it. The line and the paragraph
separator are read as themselves, and any other line break, of one character or two, as a line feed. -/
def lineBreak (c : Cursor) : List Char × Cursor :=
  let behind (n : Nat) : Cursor :=
    { c with
      place := c.place.newline n
      rest := c.rest.drop n
      loaded := c.loaded - n
      breaks := c.breaks + 1 }
  match c.rest with
  | '\r' :: '\n' :: _ => (['\n'], behind 2)
  | x :: _ =>
    if x = '\r' ∨ x = '\n' ∨ x = '\u0085' then (['\n'], behind 1)
    else if isBreak x then ([x], behind 1)
    else ([], c)
  | [] => ([], c)

/-- Whether the text ends, or a blank or a line break comes next. -/
def blankOrEnd : List Char → Bool
  | [] => true
  | c :: _ => isBlank c || isBreak c

/-- Whether a mark between documents starts here. -/
def atMarker (c : Cursor) : Bool :=
  c.place.column = 0 && Scalar.startsLikeMarker c.rest && blankOrEnd (c.rest.drop 3)

/-- The cursor at the start of a text. One mark of the byte order in front of it does not count. A text
without any character is read as an empty line. -/
def ofText (text : String) : Cursor :=
  match text.toList with
  | [] => { rest := ['\n'], bound := 3 }
  | c :: rest =>
    if c = Scalar.byteOrderMark then { rest, room := 509, bound := rest.length + 2 }
    else { rest := c :: rest, bound := rest.length + 3 }

end Cursor

/-- A part of a text that is read from a cursor, if it can be read. -/
abbrev Scan := StateT Cursor Option

namespace Scan

/-- Try to load characters, and say whether that went well. -/
def reaches (count : Nat) : Scan Bool := modifyGet (·.load count)

/-- Load characters. -/
def need (count : Nat) : Scan Unit := do if !(← reaches count) then failure

/-- The characters to come. -/
def ahead : Scan (List Char) := return (← get).rest

/-- The next character, if there is one. -/
def next? : Scan (Option Char) := return (← get).rest.head?

/-- Pass the next character. -/
def skip : Scan Unit := modify Cursor.skip

/-- Pass the next `n` characters. -/
def skips : Nat → Scan Unit
  | 0 => return ()
  | n + 1 => do skip; skips n

/-- Read the line break that comes next, if one does. -/
def lineBreak : Scan (List Char) := modifyGet Cursor.lineBreak

/-- Read characters as long as they are of a kind. Fewer than `bound` characters are read. -/
def charsFrom (kind : Char → Bool) : Nat → Scan (List Char)
  | 0 => failure
  | bound + 1 => do
    need 1
    match ← next? with
    | some c => if kind c then do skip; return c :: (← charsFrom kind bound) else return []
    | none => return []

/-- Read characters as long as they are of a kind. -/
def chars (kind : Char → Bool) : Scan (List Char) := do charsFrom kind (← get).bound

/-- Pass characters as long as they are of a kind. -/
def pass (kind : Char → Bool) : Scan Unit := do let _ ← chars kind

/-- Pass the rest of the line. -/
def passLine : Scan Unit := pass (!isBreak ·)

/-- Pass the line break that comes next. Nothing else may come but the end of the text. -/
def endLine : Scan Unit := do
  match ← next? with
  | none => return ()
  | some c =>
    if !isBreak c then failure
    need 2
    let _ ← lineBreak

/-- Go on to the comment that starts at a given number of characters from the start of the text, over
blanks and line breaks, and pass it. Fewer than `bound` characters are passed. -/
def passComment (start : Nat) : Nat → Scan Unit
  | 0 => failure
  | bound + 1 => do
    need 1
    if ((← next?).all isBreak) then
      if start ≤ (← get).place.index then return ()
      need 2
      let _ ← lineBreak
    else skip
    passComment start bound

/-- Where a comment starts that nothing but blanks stand before, looking at `bound` characters. -/
def findLineComment (offset : Nat) : Nat → Scan (Option Nat)
  | 0 => return none
  | bound + 1 => do
    if !(← reaches (offset + 1)) then return none
    match (← get).rest[offset]? with
    | none => return none
    | some c =>
      if isBlank c then findLineComment (offset + 1) bound
      else return if c = '#' then some offset else none

/-- Pass the comment behind a token on its line. -/
def lineComment : Scan Unit := do
  let c ← get
  if c.breaks = 0 then
    match ← findLineComment 0 512 with
    | none => return ()
    | some offset => passComment (c.place.index + offset) c.bound

/-- Where the next comment starts that nothing but blanks and line breaks stand before, looking at
`bound` characters. A line break of several bytes is not looked behind. -/
def findComment (offset : Nat) : Nat → Scan (Option Nat)
  | 0 => return none
  | bound + 1 => do
    if !(← reaches (offset + 1)) then return none
    match (← get).rest[offset]? with
    | none => return none
    | some c =>
      if isBlank c ∨ c = '\n' ∨ c = '\r' then findComment (offset + 1) bound
      else if c = '#' then return some offset
      else if isBreak c ∧ 0 < bound then do
        let _ ← reaches (offset + 2)
        return none
      else return none

/-- Where the comment behind the one that was passed starts. -/
def findNextComment : Scan (Option Nat) := do
  if (← next?).any fun c => isBreak c ∧ c ≠ '\n' ∧ c ≠ '\r' then
    let _ ← reaches 2
    return none
  else findComment 1 511

/-- Pass the comment that starts `offset` characters from here and those behind it. Fewer than `bound`
comments are passed. -/
def commentsFrom (offset : Nat) : Nat → Scan Unit
  | 0 => failure
  | bound + 1 => do
    let c ← get
    passComment (c.place.index + offset) c.bound
    match ← findNextComment with
    | none => return ()
    | some offset => commentsFrom offset bound

/-- Go on to the next token, over blanks, comments and fewer than `bound` line breaks, and say whether
a key may start there: it may behind a line break outside brackets. Where a key may start, tabs are no
blanks unless in brackets or between comments. -/
def nextTokenFrom (brackets keyAllowed : Bool) : Nat → Scan Bool
  | 0 => failure
  | bound + 1 => do
    need 1
    let c ← get
    if c.margin ∧ c.place.column = 0 then skip
    pass fun c => c = ' ' ∨ (c = '\t' ∧ (brackets ∨ !keyAllowed))
    if (← next?) = some '#' then commentsFrom 0 (← get).bound
    if (← next?).any isBreak then
      need 2
      let _ ← lineBreak
      nextTokenFrom brackets (keyAllowed || !brackets) bound
    else return keyAllowed

/-- Go on to the next token, and say whether a key may start there. -/
def nextToken (brackets keyAllowed : Bool) : Scan Bool := do
  nextTokenFrom brackets keyAllowed (← get).bound

end Scan

end TensorKernel.Yaml
