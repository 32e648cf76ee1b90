import TensorKernel.Yaml.Cursor

/-!
# Scalars over several lines

Reading the text of a scalar. Between two pieces of a scalar on different lines, a single line break
is read as a blank, and more of them as one less. In a literal block every line break counts.
-/

namespace TensorKernel.Yaml

open Scan

/-- Blanks and line breaks between two pieces of a scalar. -/
structure Gap where
  /-- Whether the gap starts with a line break that was escaped. -/
  joined : Bool := false
  /-- The blanks, if there are no line breaks. -/
  blanks : List Char := []
  /-- The line breaks. -/
  breaks : List Char := []
deriving DecidableEq, Repr, Inhabited

namespace Gap

open Scalar (isBreak isBlank)

/-- What the gap is read as. -/
def fold (g : Gap) : List Char :=
  if g.joined then g.breaks
  else match g.breaks with
    | [] => g.blanks
    | ['\n'] => [' ']
    | '\n' :: more => more
    | breaks => breaks

/-- Extend a gap as far as it goes. A tab that stands where a line has to be indented by `indent`
columns is refused. Fewer than `bound` characters are read. -/
def extendFrom (indent : Int) (g : Gap) : Nat → Scan Gap
  | 0 => failure
  | bound + 1 => do
    need 1
    match ← next? with
    | none => return g
    | some c =>
      if isBreak c then
        need 2
        let lineBreak ← lineBreak
        extendFrom indent { g with blanks := [], breaks := g.breaks ++ lineBreak } bound
      else if isBlank c then
        if g.joined || !g.breaks.isEmpty then
          if c = '\t' ∧ (← get).place.column < indent then failure
          skip
          extendFrom indent g bound
        else
          skip
          extendFrom indent { g with blanks := g.blanks ++ [c] } bound
      else return g

/-- Extend a gap as far as it goes. -/
def extend (indent : Int) (g : Gap) : Scan Gap := do extendFrom indent g (← get).bound

end Gap

namespace Scalar

open Cursor (blankOrEnd)

/-- Whether a plain scalar ends before these characters. -/
def endsPlain (brackets : Bool) : List Char → Bool
  | [] => true
  | c :: rest =>
    isBlank c || isBreak c || (c = ':' && blankOrEnd rest) ||
      (brackets && c ∈ [',', '?', '[', ']', '\x7b', '\x7d'])

/-- The characters of a plain scalar up to the next blank, line break or indicator. -/
def plainPiece (brackets : Bool) : Nat → Scan (List Char)
  | 0 => failure
  | bound + 1 => do
    match ← ahead with
    | [] => return []
    | c :: rest =>
      if endsPlain brackets (c :: rest) then return []
      skip
      need 2
      return c :: (← plainPiece brackets bound)

/-- Read the rest of a plain scalar, behind a gap. The scalar has to be indented by `indent` columns. At
most `bound` pieces are read. The answer also says whether the scalar ends with a line break. -/
def plainFrom (brackets : Bool) (indent : Int) (gap : Gap) : Nat → Scan (List Char × Bool)
  | 0 => failure
  | bound + 1 => do
    need 4
    let c ← get
    if c.atMarker ∨ c.rest.head? = some '#' ∨ endsPlain brackets c.rest then
      return ([], !gap.breaks.isEmpty)
    let text := gap.fold ++ (← plainPiece brackets c.bound)
    if !(← next?).any fun c => isBlank c ∨ isBreak c then return (text, false)
    let gap ← Gap.extend indent {}
    if !brackets ∧ (← get).place.column < indent then return (text, !gap.breaks.isEmpty)
    let (more, broken) ← plainFrom brackets indent gap bound
    return (text ++ more, broken)

/-- Read a plain scalar, and say whether it ends with a line break. -/
def plain (brackets : Bool) (indent : Int) : Scan (Scalar × Bool) := do
  let (text, broken) ← plainFrom brackets indent {} (← get).bound
  return ({ text := String.ofList text }, broken)

/-- The character that a letter behind a backslash stands for. -/
def escaped? (c : Char) : Option Char :=
  match c with
  | '0' => some '\x00'
  | 'a' => some '\x07'
  | 'b' => some '\x08'
  | 't' => some '\t'
  | '\t' => some '\t'
  | 'n' => some '\n'
  | 'v' => some '\x0b'
  | 'f' => some '\x0c'
  | 'r' => some '\r'
  | 'e' => some '\x1b'
  | ' ' => some ' '
  | '"' => some '"'
  | '\'' => some '\''
  | '\\' => some '\\'
  | 'N' => some '\u0085'
  | '_' => some '\u00a0'
  | 'L' => some '\u2028'
  | 'P' => some '\u2029'
  | _ => none

/-- The number of digits behind a letter that announces a code point. -/
def escapeWidth? (c : Char) : Option Nat :=
  match c with
  | 'x' => some 2
  | 'u' => some 4
  | 'U' => some 8
  | _ => none

/-- The character with a code point in hexadecimal digits. -/
def hexChar? (digits : List Char) : Option Char :=
  match Text.natOfDigits 16 digits with
  | .ok n => if n.isValidChar then some (Char.ofNat n) else none
  | .error _ => none

/-- Read an escape from its backslash on, given the letter behind it. -/
def escapeSequence (letter : Char) : Scan Char := do
  match escapeWidth? letter with
  | none =>
    skips 2
    escaped? letter
  | some width =>
    skips 2
    need width
    let digits := (← ahead).take width
    if digits.length < width then failure
    skips width
    hexChar? digits

/-- Read the characters of a quoted scalar up to the next blank or the closing quote, and say whether
they end with an escaped line break. Between single quotes a quote is written twice; between double
quotes a backslash starts an escape. -/
def quotedPiece (double : Bool) : Nat → Scan (List Char × Bool)
  | 0 => failure
  | bound + 1 => do
    let more (c : Char) : Scan (List Char × Bool) := do
      need 2
      let (cs, joined) ← quotedPiece double bound
      return (c :: cs, joined)
    match double, ← ahead with
    | _, [] => return ([], false)
    | false, '\'' :: '\'' :: _ => skips 2; more '\''
    | false, '\'' :: _ => return ([], false)
    | true, '"' :: _ => return ([], false)
    | true, ['\\'] => failure
    | true, '\\' :: letter :: _ =>
      if isBreak letter then
        need 3
        skip
        let _ ← lineBreak
        return ([], true)
      more (← escapeSequence letter)
    | _, c :: _ =>
      if isBlank c || isBreak c then return ([], false)
      skip
      more c

/-- Read the rest of a quoted scalar up to its closing quote. At most `bound` pieces are read. -/
def quotedFrom (double : Bool) : Nat → Scan (List Char)
  | 0 => failure
  | bound + 1 => do
    need 4
    let c ← get
    if c.atMarker ∨ c.rest.isEmpty then failure
    let (piece, joined) ← quotedPiece double c.bound
    need 1
    if (← next?) = some (if double then '"' else '\'') then return piece
    let gap ← Gap.extend 0 { joined }
    return piece ++ gap.fold ++ (← quotedFrom double bound)

/-- Read a quoted scalar from its opening quote on. -/
def quoted (double : Bool) : Scan Scalar := do
  skip
  let text ← quotedFrom double (← get).bound
  skip
  return { style := if double then .doubleQuoted else .singleQuoted, text := String.ofList text }

/-- What becomes of the line breaks at the end of a block. -/
inductive Chomping where
  /-- All are dropped. -/
  | strip
  /-- One is kept. -/
  | clip
  /-- All are kept. -/
  | keep
deriving DecidableEq, Repr

/-- Read the sign behind the bar of a block, if there is one. -/
def chomping? : Scan (Option Chomping) := do
  need 1
  match ← next? with
  | some '-' => skip; return some .strip
  | some '+' => skip; return some .keep
  | _ => return none

/-- Read the digit behind the bar of a block, if there is one. It is not zero. -/
def indentHint? : Scan (Option Nat) := do
  need 1
  match ← next? with
  | some c =>
    if !c.isDigit then return none
    if c = '0' then failure
    skip
    return some (c.toNat - '0'.toNat)
  | none => return none

/-- Read the hints behind the bar of a block: a sign and a digit, in either order. -/
def blockHints : Scan (Chomping × Option Nat) := do
  match ← chomping? with
  | some chomping => return (chomping, ← indentHint?)
  | none =>
    match ← indentHint? with
    | some n => return ((← chomping?).getD .clip, some n)
    | none => return (.clip, none)

/-- Read the line breaks before the next line of a block, up to where its text starts, behind at most
`indent` blanks; the number is the widest indentation seen. A tab may not stand for indentation. At most
`bound` lines are read. -/
def blockBreaksFrom (indent : Option Nat) (breaks : List Char) (widest : Nat) :
    Nat → Scan (List Char × Nat)
  | 0 => failure
  | bound + 1 => do
    need 1
    let c ← get
    match c.rest with
    | ' ' :: _ =>
      if indent.all (c.place.column < ·) then
        skip
        blockBreaksFrom indent breaks widest bound
      else return (breaks, max widest c.place.column)
    | x :: _ =>
      if x = '\t' ∧ indent.all (c.place.column < ·) then failure
      if isBreak x then
        need 2
        let lineBreak ← lineBreak
        blockBreaksFrom indent (breaks ++ lineBreak) (max widest c.place.column) bound
      else return (breaks, max widest c.place.column)
    | [] => return (breaks, max widest c.place.column)

/-- Read the line breaks before the next line of a block, with the widest indentation seen. -/
def blockBreaks (indent : Option Nat) : Scan (List Char × Nat) := do
  blockBreaksFrom indent [] 0 (← get).bound

/-- What stands between two lines of a block. -/
structure Seam where
  /-- The line break behind the first line, if there is one. -/
  lead : List Char := []
  /-- The breaks of the empty lines behind it. -/
  trail : List Char := []
  /-- Whether the first line starts with a blank. -/
  blank : Bool := false
deriving DecidableEq, Repr

/-- What a seam is read as: a single line break is read as a blank if the block is folded and neither
line starts with a blank. -/
def Seam.fold (folded nextBlank : Bool) (s : Seam) : List Char :=
  if folded ∧ s.lead = ['\n'] ∧ !s.blank ∧ !nextBlank then
    (if s.trail.isEmpty then [' '] else []) ++ s.trail
  else s.lead ++ s.trail

/-- Read the rest of a block whose lines are indented by `indent`, behind a seam, and give the seam
behind its last line. At most `bound` lines are read. -/
def blockFrom (folded : Bool) (indent : Nat) (seam : Seam) : Nat → Scan (List Char × Seam)
  | 0 => failure
  | bound + 1 => do
    let c ← get
    if c.place.column ≠ indent ∨ c.rest.isEmpty then return ([], seam)
    let blank := c.rest.head?.any isBlank
    let line ← chars (!isBreak ·)
    need 2
    let lead ← lineBreak
    let (trail, _) ← blockBreaks (some indent)
    let (more, last) ← blockFrom folded indent { lead, trail, blank } bound
    return (seam.fold folded blank ++ line ++ more, last)

/-- Read a block scalar from its bar on, inside a block indented by `outer`. -/
def block (folded : Bool) (outer : Int) : Scan Scalar := do
  skip
  let (chomping, hint) ← blockHints
  pass isBlank
  if (← next?) = some '#' then
    lineComment
    passLine
  endLine
  let known := hint.map fun n => (if 0 ≤ outer then outer.toNat + n else n)
  let (breaks, widest) ← blockBreaks known
  let indent := known.getD (max widest (max (outer + 1).toNat 1))
  need 1
  let (text, last) ← blockFrom folded indent { trail := breaks } (← get).bound
  let ending := match chomping with
    | .strip => []
    | .clip => last.lead
    | .keep => last.lead ++ last.trail
  let style := if folded then Style.folded else .literal
  return { style, text := String.ofList (text ++ ending) }

end Scalar

end TensorKernel.Yaml
