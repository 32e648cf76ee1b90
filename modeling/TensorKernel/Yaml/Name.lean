import TensorKernel.Yaml.Lines

/-!
# Names

Anchors, tags and directives are spelled with names of their own.
-/

namespace TensorKernel.Yaml

/-- A directive before a document. -/
inductive Directive where
  /-- The version of the language. -/
  | version (major minor : Nat)
  /-- What a handle in front of tags stands for. -/
  | handle (name expansion : String)
deriving DecidableEq, Repr, Inhabited

namespace Name

open Scan
open Cursor (blankOrEnd)

/-- The characters of names. -/
def isNameChar (c : Char) : Bool :=
  ('0' ≤ c ∧ c ≤ '9') ∨ ('A' ≤ c ∧ c ≤ 'Z') ∨ ('a' ≤ c ∧ c ≤ 'z') ∨ c = '_' ∨ c = '-'

/-- Read an anchor from its mark on. A blank, an end or one of a few indicators comes next. -/
def anchor : Scan String := do
  skip
  let name ← chars isNameChar
  let rest ← ahead
  if name.isEmpty then failure
  if blankOrEnd rest ∨ rest.head?.any (· ∈ ['?', ':', ',', ']', '\x7d', '%', '@', '\x60']) then
    return String.ofList name
  else failure

/-- The characters of tags besides those of names. -/
def isUriChar (c : Char) : Bool :=
  isNameChar c ∨ c ∈ [';', '/', '?', ':', '@', '&', '=', '+', '$', ',', '.', '!', '~', '*', '\'', '(',
    ')', '[', ']']

/-- Read the byte of two hexadecimal digits behind a percent sign. -/
def escapedByte : Scan Nat := do
  need 3
  match ← ahead with
  | '%' :: a :: b :: _ =>
    skips 3
    (Text.natOfDigits 16 [a, b]).toOption
  | _ => failure

/-- The number of bytes of a character with a given first byte. -/
def byteCount? (byte : Nat) : Option Nat :=
  if byte < 0x80 then some 1
  else if byte < 0xc0 then none
  else if byte < 0xe0 then some 2
  else if byte < 0xf0 then some 3
  else if byte < 0xf8 then some 4
  else none

/-- Read `n` further bytes of a character. -/
def moreBytes : Nat → Scan (List Nat)
  | 0 => return []
  | n + 1 => do
    let byte ← escapedByte
    if byte < 0x80 ∨ 0xc0 ≤ byte then failure
    return byte :: (← moreBytes n)

/-- Read a character given by its bytes. -/
def escapedChar : Scan (List Char) := do
  let byte ← escapedByte
  let bytes ← moreBytes ((← byteCount? byte) - 1)
  return Text.charsOfBytes ((byte :: bytes).map .ofNat)

/-- Read the characters of a tag, of which there are fewer than `bound`. -/
def uriFrom : Nat → Scan (List Char)
  | 0 => failure
  | bound + 1 => do
    need 1
    match ← next? with
    | none => return []
    | some c =>
      if c = '%' then return (← escapedChar) ++ (← uriFrom bound)
      else if isUriChar c then do skip; return c :: (← uriFrom bound)
      else return []

/-- Read the characters of a tag. -/
def uri : Scan (List Char) := do uriFrom (← get).bound

/-- Read the characters of a tag, at least one. -/
def nonemptyUri : Scan (List Char) := do
  let start := (← get).place
  let chars ← uri
  if (← get).place = start then failure
  return chars

/-- Read a handle from its first mark on: letters, and a second mark if there is one. -/
def handle : Scan (List Char) := do
  skip
  let letters ← chars isNameChar
  if (← next?) = some '!' then
    skip
    return '!' :: letters ++ ['!']
  else return '!' :: letters

/-- Read the handle of a tag and the rest of its name. The handle is empty for a full name, and for the
mark alone. -/
def handleAndName : Scan (List Char × List Char) := do
  need 2
  match ← ahead with
  | _ :: '<' :: _ =>
    skips 2
    let name ← nonemptyUri
    if (← next?) ≠ some '>' then failure
    skip
    return ([], name)
  | _ =>
    let start ← handle
    if 1 < start.length ∧ start.getLast? = some '!' then return (start, ← nonemptyUri)
    let name := start.tail ++ (← uri)
    return if name.isEmpty then ([], ['!']) else (['!'], name)

/-- Read a tag from its first mark on: its handle and the rest of its name. -/
def tag : Scan (String × String) := do
  let (start, name) ← handleAndName
  need 1
  if blankOrEnd (← ahead) then return (String.ofList start, String.ofList name) else failure

/-- Read a number of a version. -/
def versionNumber : Scan Nat := do
  let digits ← chars Char.isDigit
  if digits.isEmpty ∨ 2 < digits.length then failure
  return Plain.decimalValue digits

/-- Read a version behind the name of its directive. -/
def version : Scan Directive := do
  pass Scalar.isBlank
  let major ← versionNumber
  if (← next?) ≠ some '.' then failure
  skip
  return .version major (← versionNumber)

/-- Read what a handle stands for behind the name of the directive. -/
def handleMeaning : Scan Directive := do
  pass Scalar.isBlank
  if (← next?) ≠ some '!' then failure
  let start ← handle
  if 1 < start.length ∧ start.getLast? ≠ some '!' then failure
  need 1
  if !(← next?).any Scalar.isBlank then failure
  pass Scalar.isBlank
  let expansion ← nonemptyUri
  if blankOrEnd (← ahead) then
    return .handle (String.ofList start) (String.ofList expansion)
  else failure

/-- Read a directive from its mark on, with its whole line. -/
def directive : Scan Directive := do
  skip
  let name ← chars isNameChar
  if !blankOrEnd (← ahead) then failure
  let directive ←
    if name = "YAML".toList then version
    else if name = "TAG".toList then handleMeaning
    else failure
  pass Scalar.isBlank
  if (← next?) = some '#' then passLine
  endLine
  return directive

end Name

end TensorKernel.Yaml
