import TensorKernel.Text.Calendar
import TensorKernel.Text.Decimal

/-!
# The meaning of plain scalars

A scalar without quotes stands for nothing, a truth value, a number, a point in time, or a text,
depending on its spelling. The spellings are those of the YAML 1.2 core schema, with underscores in
numbers and a few forms of the older schema that are still told apart from texts when writing.
-/

namespace TensorKernel.Yaml

/-- What a plain scalar stands for. -/
inductive Meaning where
  | null
  | bool (value : Bool)
  | int (value : Int)
  /-- A number with a fraction or an exponent, or out of the range of integers. It is kept as the
  integer that it is cut down to, if that can be represented. -/
  | float (truncated : Option Int)
  | timestamp
  | text
deriving DecidableEq, Repr, Inhabited

namespace Plain

/-- A decimal number: its digits as one integer, and the power of ten to scale it by. -/
structure Scientific where
  /-- Whether the number is negative. -/
  negative : Bool
  /-- The digits. -/
  mantissa : Nat
  /-- The number of digits. -/
  digits : Nat
  /-- The exponent. -/
  exponent : Int
deriving DecidableEq, Repr

/-- The value of decimal digits. -/
def decimalValue (cs : List Char) : Nat :=
  cs.foldl (fun n c => 10 * n + (c.toNat - '0'.toNat)) 0

/-- Read an exponent: nothing, or a letter, an optional sign and digits. -/
def exponent? : List Char → Option Int
  | [] => some 0
  | c :: rest =>
    let (negative, digits) := Text.splitSign rest
    if (c = 'e' ∨ c = 'E') ∧ !digits.isEmpty ∧ digits.all Char.isDigit then
      some (if negative then -(decimalValue digits : Int) else decimalValue digits)
    else none

/-- Read a decimal number: digits with an optional fraction, or a fraction alone, and an optional
exponent. -/
def scientific? (cs : List Char) : Option Scientific :=
  let (negative, body) := Text.splitSign cs
  let whole := body.takeWhile Char.isDigit
  let (fraction, rest) := match body.dropWhile Char.isDigit with
    | '.' :: rest => (rest.takeWhile Char.isDigit, rest.dropWhile Char.isDigit)
    | rest => ([], rest)
  if whole.isEmpty ∧ fraction.isEmpty then none
  else (exponent? rest).map fun e =>
    { negative
      mantissa := decimalValue (whole ++ fraction)
      digits := whole.length + fraction.length
      exponent := e - fraction.length }

/-- The quotient rounded to the nearest integer, halves to the even one. -/
def roundedQuotient (num den : Nat) : Nat :=
  let q := num / den
  let twice := 2 * (num % den)
  if den < twice ∨ (twice = den ∧ q % 2 = 1) then q + 1 else q

/-- The integer part of the number with 53 significant bits that is nearest to a quotient. -/
def truncatedQuotient (num den : Nat) : Nat :=
  if num < den then roundedQuotient (num <<< 53) den >>> 53
  else
    let bits := Nat.log2 (num / den)
    if 52 < bits then roundedQuotient num (den <<< (bits - 52)) <<< (bits - 52)
    else roundedQuotient (num <<< (52 - bits)) den >>> (52 - bits)

/-- The integer part of a decimal number as a double-precision number holds it; none if it is too
large for one. -/
def Scientific.magnitude? (s : Scientific) : Option Nat :=
  if s.mantissa = 0 ∨ s.exponent < -(s.digits + 400 : Int) then some 0
  else if 400 < s.exponent then none
  else
    let n := truncatedQuotient (s.mantissa * Nat.pow 10 s.exponent.toNat)
      (Nat.pow 10 (-s.exponent).toNat)
    if 1024 ≤ n.log2 then none else some n

/-- Cut a number down to a 64-bit integer. What lies too far below is the least integer, and so is
the first number above the greatest. -/
def cutToInt64 (negative : Bool) (magnitude : Nat) : Option Int :=
  if negative then some (max (-(magnitude : Int)) Text.minInt64)
  else if magnitude ≤ Text.maxInt64 then some magnitude
  else if magnitude = Text.maxInt64 + 1 then some Text.minInt64
  else none

/-- The meaning of a text as a decimal number. -/
def float? (cs : List Char) : Option Meaning := do
  let s ← scientific? cs
  let magnitude ← s.magnitude?
  return .float (cutToInt64 s.negative magnitude)

/-- The meaning of a text as an integer literal, once its underscores are gone. Literals without a
sign may have 64 bits. -/
def int? (cs : List Char) : Option Meaning :=
  match Text.literalInt (String.ofList cs) with
  | .ok n => some (.int n)
  | .error _ =>
    let (radix, _, digits) := Text.splitRadix cs
    (Text.natOfDigits radix digits).toOption.map fun n => .int n

/-- The meaning of digits in a given radix: with a sign, if they fit then, or else without one. -/
def digits? (radix : Nat) (cs : List Char) : Option Meaning :=
  let (negative, body) := Text.splitSign cs
  let signed := (Text.natOfDigits radix body).bind (Text.signedInt64 negative)
  (signed.toOption.or ((Text.natOfDigits radix cs).toOption.map Int.ofNat)).map .int

/-- The meaning of a text that starts with a binary or octal mark. Here a sign may stand before the
mark or behind it. -/
def marked? : List Char → Option Meaning
  | '0' :: 'b' :: rest => digits? 2 rest
  | '-' :: '0' :: 'b' :: rest => digits? 2 ('-' :: rest)
  | '0' :: 'o' :: rest => digits? 8 rest
  | '-' :: '0' :: 'o' :: rest => digits? 8 ('-' :: rest)
  | _ => none

/-- One or two digits and what follows them. -/
def shortNumber? : List Char → Option (Nat × List Char)
  | a :: b :: rest =>
    if a.isDigit ∧ b.isDigit then some (decimalValue [a, b], rest)
    else if a.isDigit then some (decimalValue [a], b :: rest)
    else none
  | [a] => if a.isDigit then some (decimalValue [a], []) else none
  | [] => none

/-- The text behind a mark, if the text starts with it. -/
def after? (mark : Char) : List Char → Option (List Char)
  | c :: rest => if c = mark then some rest else none
  | [] => none

/-- A date, and what follows it. -/
def date? (cs : List Char) : Option (List Char) := do
  let year := cs.takeWhile Char.isDigit
  if year.length ≠ 4 then none
  let rest ← after? '-' (cs.drop 4)
  let (month, rest) ← shortNumber? rest
  let rest ← after? '-' rest
  let (day, rest) ← shortNumber? rest
  if Text.isDay (decimalValue year) month day then some rest else none

/-- A time of day with an optional fraction of a second, and what follows it. -/
def clock? (cs : List Char) : Option (List Char) := do
  let (hour, rest) ← shortNumber? cs
  let rest ← after? ':' rest
  let (minute, rest) ← shortNumber? rest
  let rest ← after? ':' rest
  let (second, rest) ← shortNumber? rest
  if 24 ≤ hour ∨ 60 ≤ minute ∨ 60 ≤ second then none
  match rest with
  | mark :: c :: more =>
    if (mark = '.' ∨ mark = ',') ∧ c.isDigit then some (more.dropWhile Char.isDigit) else some rest
  | _ => some rest

/-- A time zone: `Z`, or a sign, two digits, a colon and two digits. A whole day and a whole hour are
still accepted as offsets. -/
def isZone : List Char → Bool
  | ['Z'] => true
  | [sign, a, b, ':', c, d] =>
    (sign = '+' ∨ sign = '-') && [a, b, c, d].all Char.isDigit &&
      decimalValue [a, b] ≤ 24 && decimalValue [c, d] ≤ 60
  | _ => false

/-- Whether a text is a date, alone, with a time of day behind spaces, or with a time of day and a zone
behind a letter. -/
def isTimestamp (cs : List Char) : Bool :=
  match date? cs with
  | none => false
  | some [] => true
  | some (' ' :: rest) => clock? (rest.dropWhile (· = ' ')) = some []
  | some (mark :: rest) => (mark = 'T' ∨ mark = 't') && (clock? rest).any isZone

/-- Whether a text is a number in base sixty, with colons between its digits. -/
def isSexagesimal (cs : List Char) : Bool :=
  let body := (Text.splitSign cs).2
  let whole := body.takeWhile fun c => c.isDigit ∨ c = '_'
  let rest := body.drop whole.length
  let groups := rest.takeWhile (· ≠ '.')
  let fraction := rest.drop groups.length
  (whole.head?.any Char.isDigit) &&
    (match (String.ofList groups).splitOn ":" with
      | "" :: parts => !parts.isEmpty && parts.all fun part =>
          match part.toList with
          | [a] => a.isDigit
          | [a, b] => '0' ≤ a && a ≤ '5' && b.isDigit
          | _ => false
      | _ => false) &&
    fraction.tail.all fun c => c.isDigit ∨ c = '_'

/-- The spellings of truth values that only the older schema knows. -/
def oldBool? (text : String) : Option Bool :=
  if text ∈ ["y", "Y", "yes", "Yes", "YES", "on", "On", "ON"] then some true
  else if text ∈ ["n", "N", "no", "No", "NO", "off", "Off", "OFF"] then some false
  else none

/-- The meanings of fixed spellings. -/
def fixed? (text : String) : Option Meaning :=
  if text ∈ ["", "~", "null", "Null", "NULL"] then some .null
  else if text ∈ ["true", "True", "TRUE"] then some (.bool true)
  else if text ∈ ["false", "False", "FALSE"] then some (.bool false)
  else if text ∈ ["-.inf", "-.Inf", "-.INF"] then some (.float (some Text.minInt64))
  else if text ∈ [".inf", ".Inf", ".INF", "+.inf", "+.Inf", "+.INF", ".nan", ".NaN", ".NAN"] then
    some (.float none)
  else none

/-- The meaning of a text that starts like a number. It is tried as a point in time only with
`times`. -/
def numeric (times : Bool) (cs : List Char) : Meaning :=
  if times && isTimestamp cs then .timestamp
  else
    let digits := cs.filter (· ≠ '_')
    ((int? digits).or ((float? digits).or (marked? digits))).getD .text

/-- Underscores stand only between two digits. -/
def separatesDigits (afterDigit : Bool) : List Char → Bool
  | [] => true
  | '_' :: rest => afterDigit && rest.head?.any Char.isDigit && separatesDigits false rest
  | c :: rest => separatesDigits c.isDigit rest

/-- The meaning of a text that starts with a point. -/
def fraction (cs : List Char) : Meaning :=
  if separatesDigits false cs then (float? (cs.filter (· ≠ '_'))).getD .text else .text

/-- The meaning of a plain scalar. Points in time are recognised only with `times`. -/
def meaning (text : String) (times : Bool := true) : Meaning :=
  match fixed? text with
  | some m => m
  | none =>
    match text.toList with
    | [] => .null
    | '.' :: rest => fraction ('.' :: rest)
    | c :: rest =>
      if c.isDigit ∨ c = '+' ∨ c = '-' then numeric times (c :: rest) else .text

/-- Whether a text may be written without quotes and still be read as a text, by readers of either
schema. -/
def readsAsText (text : String) : Bool :=
  meaning text = .text ∧ (oldBool? text).isNone ∧ !isSexagesimal text.toList

/-- A text that needs no quotes is not read as nothing. -/
theorem meaning_of_readsAsText {text : String} (h : readsAsText text = true) :
    meaning text = .text := by
  simp only [readsAsText, Bool.decide_and, Bool.and_eq_true, decide_eq_true_eq] at h
  exact h.1

end Plain

end TensorKernel.Yaml
