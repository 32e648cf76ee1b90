import TensorKernel.Text.Label
import TensorKernel.Yaml.Tag

/-!
# Scalars

A scalar is a text with the style in which it is written and perhaps a tag. Without a tag only a plain
scalar can stand for anything but its text. A text is written plainly if it then reads as itself; else
it is written between quotes, or, if it has several lines, as a literal block.
-/

namespace TensorKernel.Yaml

/-- How a scalar is written. -/
inductive Style where
  | plain
  | singleQuoted
  | doubleQuoted
  /-- Line by line, below a bar. -/
  | literal
  /-- Line by line, with line breaks read as blanks, below an angle bracket. -/
  | folded
deriving DecidableEq, Repr, Inhabited

/-- A text, the style in which it is written and its tag. -/
structure Scalar where
  /-- The style. -/
  style : Style := .plain
  /-- The text. -/
  text : String
  /-- The tag, if there is one. -/
  tag : Option Tag := none
deriving DecidableEq, Repr, Inhabited

namespace Scalar

/-- What the scalar stands for; none if its tag contradicts its text. -/
def meaning? (s : Scalar) : Option Meaning :=
  match s.tag with
  | none => some (if s.style = .plain then Plain.meaning s.text else .text)
  | some tag => tag.meaning? s.text

/-- Whether the scalar stands for nothing. -/
def isNull (s : Scalar) : Bool := s.meaning? = some .null

/-- The text that the scalar gives to who asks for one. -/
def content (s : Scalar) : Label :=
  if s.tag = some .binary then
    match Text.bytesOfBase64? s.text with
    | some bytes => ⟨bytes⟩
    | none => s.text
  else s.text

/-- Whether the scalar is the key for entries to be taken over. -/
def isMerge (s : Scalar) : Bool :=
  s.text = "<<" ∧ (s.tag = some .merge ∨ (s.tag = none ∧ s.style = .plain))

/-- The characters that end a line: the line feed, the carriage return and three others of their kind. -/
def isBreak (c : Char) : Bool :=
  c = '\n' ∨ c = '\r' ∨ c.toNat = 0x85 ∨ c.toNat = 0x2028 ∨ c.toNat = 0x2029

/-- The space and the tab. -/
def isBlank (c : Char) : Bool := c = ' ' ∨ c = '\t'

/-- The mark of the byte order, which a text may start with. -/
def byteOrderMark : Char := '\ufeff'

/-- The characters that can be written as they are, in every style. -/
def isClear (c : Char) : Bool :=
  let n := c.toNat
  n = 0x0a ∨ (0x20 ≤ n ∧ n ≤ 0x7e) ∨ (0xa0 ≤ n ∧ n < 0xfffe ∧ n ≠ 0xfeff)

/-- The characters that mean something at the start of a plain scalar. -/
def isIndicator (c : Char) : Bool :=
  c ∈ ['#', ',', '[', ']', '\x7b', '\x7d', '&', '*', '!', '|', '>', '\'', '"', '%', '@', '\x60']

/-- Whether a blank or the end comes next. -/
def blankNext : List Char → Bool
  | [] => true
  | c :: _ => isBlank c

/-- Whether the rest of a plain scalar holds something that would end it: a colon before a blank, or
a hash behind one. -/
def endsEarly (behindBlank : Bool) : List Char → Bool
  | [] => false
  | c :: rest =>
    (c = ':' && blankNext rest) || (c = '#' && behindBlank) || endsEarly (isBlank c) rest

/-- Whether a text starts with one of the marks between documents. -/
def startsLikeMarker (cs : List Char) : Bool :=
  ['-', '-', '-'].isPrefixOf cs || ['.', '.', '.'].isPrefixOf cs

/-- Whether a text on one line can stand in a block without quotes. -/
def fitsPlain (cs : List Char) : Bool :=
  match cs with
  | [] => true
  | c :: rest =>
    !(startsLikeMarker cs || isIndicator c ||
      ((c = '?' ∨ c = ':' ∨ c = '-') && blankNext rest) || endsEarly (isBlank c) rest ||
      c = ' ' || cs.getLast? = some ' ')

/-- Whether a space stands right before a line break. -/
def spaceBeforeBreak : List Char → Bool
  | a :: b :: rest => (a = ' ' && isBreak b) || spaceBeforeBreak (b :: rest)
  | _ => false

/-- Whether a space stands right behind a line break. -/
def spaceAfterBreak : List Char → Bool
  | a :: b :: rest => (isBreak a && b = ' ') || spaceAfterBreak (b :: rest)
  | _ => false

/-- Whether a text can stand between single quotes. -/
def fitsSingleQuotes (cs : List Char) : Bool :=
  !(cs.contains '\t' || spaceBeforeBreak cs || spaceAfterBreak cs)

/-- Whether a text can stand in a literal block. -/
def fitsBlock (cs : List Char) : Bool := !(spaceBeforeBreak cs || cs.getLast? = some ' ')

/-- The style in which a text is written. -/
def styleOf (text : String) : Style :=
  let cs := text.toList
  if !cs.all (fun c => isClear c ∨ c = '\t') then .doubleQuoted
  else if cs.contains '\n' then if fitsBlock cs then .literal else .doubleQuoted
  else if !Plain.readsAsText text then .doubleQuoted
  else if !fitsSingleQuotes cs then .doubleQuoted
  else if fitsPlain cs && !cs.any isBreak then .plain
  else .singleQuoted

/-- The scalar that a text is written as. -/
def ofText (text : String) : Scalar := { style := styleOf text, text }

/-- The scalar that an integer is written as. -/
def ofInt (n : Int) : Scalar := { text := toString n }

/-- The scalar that a truth value is written as. -/
def ofBool (b : Bool) : Scalar := { text := toString b }

/-- Only texts that read as themselves are written plainly. -/
theorem readsAsText_of_styleOf {text : String} (h : styleOf text = .plain) :
    Plain.readsAsText text = true := by
  simp only [styleOf] at h
  repeat' split at h
  all_goals simp_all

/-- What is written for a text stands for a text. -/
theorem meaning?_ofText (text : String) : (ofText text).meaning? = some .text := by
  unfold ofText meaning?
  by_cases h : styleOf text = .plain
  · simp only [h, if_true]
    exact congrArg some (Plain.meaning_of_readsAsText (readsAsText_of_styleOf h))
  · simp [h]

/-- What is written for a text gives the text. -/
@[simp] theorem content_ofText (text : String) : (ofText text).content = text := rfl

/-- How many digits stand on a line of bytes. -/
def lineWidth : Nat := 70

/-- Digits in lines, from a column on. Every line ends with a line break. -/
def inLines (column : Nat) : List Char → List Char
  | [] => if column = 0 then [] else ['\n']
  | c :: rest =>
    if column + 1 = lineWidth then c :: '\n' :: inLines 0 rest else c :: inLines (column + 1) rest

/-- The scalar that bytes are written as: on one line, if they are few, and in a literal block
otherwise. -/
def ofBytes (bytes : List UInt8) : Scalar :=
  let digits := Text.sextetsOfBytes bytes
  if digits.length < lineWidth then { text := String.ofList digits, tag := some .binary }
  else { style := .literal, text := String.ofList (inLines 0 digits), tag := some .binary }

/-- The scalar that a label is written as: a text if it stands for one, and its bytes otherwise. -/
def ofLabel (l : Label) : Scalar :=
  match l.string? with
  | some text => ofText text
  | none => ofBytes l.bytes

/-- Without the line breaks, digits in lines are the digits. -/
theorem filter_inLines (column : Nat) (cs : List Char) :
    (inLines column cs).filter (fun c => c ≠ '\n' ∧ c ≠ '\r') =
      cs.filter fun c => c ≠ '\n' ∧ c ≠ '\r' := by
  induction cs generalizing column with
  | nil => by_cases h : column = 0 <;> simp [inLines, h]
  | cons c rest ih =>
    by_cases h : column + 1 = lineWidth <;> simp_all [inLines, List.filter_cons]

/-- What bytes are written as gives the bytes. -/
theorem bytesOfBase64?_ofBytes (bytes : List UInt8) :
    Text.bytesOfBase64? (ofBytes bytes).text = some bytes := by
  have digits : (Text.sextetsOfBytes bytes).filter (fun c => c ≠ '\n' ∧ c ≠ '\r') =
      Text.sextetsOfBytes bytes := by
    rw [List.filter_eq_self]
    intro c hc
    simpa using Text.ne_break_of_mem_sextetsOfBytes hc
  simp only [ofBytes]
  split
  · simp only [Text.bytesOfBase64?, String.toList_ofList, digits]
    exact Text.bytesOfSextets?_sextetsOfBytes bytes
  · simp only [Text.bytesOfBase64?, String.toList_ofList, filter_inLines, digits]
    exact Text.bytesOfSextets?_sextetsOfBytes bytes

/-- Bytes are tagged as such. -/
theorem tag_ofBytes (bytes : List UInt8) : (ofBytes bytes).tag = some .binary := by
  simp only [ofBytes]
  split <;> rfl

/-- What is written for a label stands for a text. -/
theorem meaning?_ofLabel (l : Label) : (ofLabel l).meaning? = some .text := by
  unfold ofLabel
  split
  · exact meaning?_ofText _
  · simp [meaning?, tag_ofBytes, Tag.meaning?, bytesOfBase64?_ofBytes]

/-- What is written for a label gives the label. -/
@[simp] theorem content_ofLabel (l : Label) : (ofLabel l).content = l := by
  unfold ofLabel
  split
  · next text h => exact (content_ofText text).trans (Label.ofString_of_string? h)
  · simp [content, tag_ofBytes, bytesOfBase64?_ofBytes]

/-- A hexadecimal escape in capital letters. -/
def hexEscape (letter : Char) (width n : Nat) : List Char :=
  '\\' :: letter :: (Text.hexPadded width n).map Char.toUpper

/-- The escape of a character between double quotes. -/
def escape (c : Char) : List Char :=
  match c.toNat with
  | 0x00 => ['\\', '0']
  | 0x07 => ['\\', 'a']
  | 0x08 => ['\\', 'b']
  | 0x09 => ['\\', 't']
  | 0x0a => ['\\', 'n']
  | 0x0b => ['\\', 'v']
  | 0x0c => ['\\', 'f']
  | 0x0d => ['\\', 'r']
  | 0x1b => ['\\', 'e']
  | 0x22 => ['\\', '"']
  | 0x5c => ['\\', '\\']
  | 0x85 => ['\\', 'N']
  | 0xa0 => ['\\', '_']
  | 0x2028 => ['\\', 'L']
  | 0x2029 => ['\\', 'P']
  | n =>
    if n ≤ 0xff then hexEscape 'x' 2 n
    else if n ≤ 0xffff then hexEscape 'u' 4 n
    else hexEscape 'U' 8 n

/-- Whether a character between double quotes has to be escaped. -/
def needsEscape (c : Char) : Bool := !isClear c || isBreak c || c = '"' || c = '\\'

/-- A text between double quotes. A text that starts with the mark of the byte order is escaped
throughout. -/
def doubleQuoted (text : String) : List Char :=
  let cs := text.toList
  let throughout := cs.head? = some byteOrderMark
  cs.flatMap fun c => if throughout || needsEscape c then escape c else [c]

/-- What follows the bar of a literal block: the indentation, if the first line does not show it,
and what becomes of the last line breaks. -/
def literalHints (indentation : Nat) (text : String) : String :=
  let cs := text.toList
  (if cs.head?.any (fun c => c = ' ' ∨ isBreak c) then toString indentation else "") ++
    match cs.reverse with
    | [] => "-"
    | last :: before =>
      if !isBreak last then "-"
      else if before.head?.all isBreak then "+"
      else ""

end Scalar

end TensorKernel.Yaml
