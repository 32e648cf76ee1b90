/-!
# Integer texts

Two spellings of 64-bit integers. The plain one is an optional sign and decimal digits. The literal
one also takes the radix marks `0x`, `0o`, `0b` and a leading `0` for octal, with underscores between
digits. A text that is no integer and a text whose value does not fit are told apart.
-/

namespace TensorKernel.Text

/-- Why a text is not a 64-bit integer. -/
inductive IntegerError where
  /-- The text is not spelled like an integer. -/
  | malformed
  /-- The text is an integer outside the signed 64-bit range. -/
  | outOfRange
deriving DecidableEq, Repr

/-- The value of a digit or letter, `a` being ten in either case. -/
def digitValue? (c : Char) : Option Nat :=
  if '0' ≤ c ∧ c ≤ '9' then some (c.toNat - '0'.toNat)
  else if 'a' ≤ c ∧ c ≤ 'z' then some (c.toNat - 'a'.toNat + 10)
  else if 'A' ≤ c ∧ c ≤ 'Z' then some (c.toNat - 'A'.toNat + 10)
  else none

/-- Extend `acc` by the digits of `cs`, most significant first. Reading stops at the first character
that is no digit of the radix and at the first digit that takes the number past 64 bits, whichever
comes earlier. -/
def accumulateDigits (radix : Nat) (acc : Nat) : List Char → Except IntegerError Nat
  | [] => .ok acc
  | c :: rest =>
    match digitValue? c with
    | none => .error .malformed
    | some d =>
      if radix ≤ d then .error .malformed
      else if 0x10000000000000000 ≤ acc * radix + d then .error .outOfRange
      else accumulateDigits radix (acc * radix + d) rest

/-- The number spelled by `cs` in `radix`; no digit at all is no number. -/
def natOfDigits (radix : Nat) (cs : List Char) : Except IntegerError Nat :=
  if cs.isEmpty then .error .malformed else accumulateDigits radix 0 cs

/-- The least signed 64-bit integer. -/
def minInt64 : Int := -0x8000000000000000

/-- The greatest signed 64-bit integer. -/
def maxInt64 : Int := 0x7fffffffffffffff

/-- Whether `n` is a signed 64-bit integer. -/
def fitsInt64 (n : Int) : Bool := minInt64 ≤ n && n ≤ maxInt64

/-- A sign, if there is one, and what follows it. -/
def splitSign : List Char → Bool × List Char
  | '-' :: rest => (true, rest)
  | '+' :: rest => (false, rest)
  | cs => (false, cs)

/-- Give a magnitude its sign and check the range. -/
def signedInt64 (negative : Bool) (magnitude : Nat) : Except IntegerError Int :=
  let n : Int := if negative then -(magnitude : Int) else magnitude
  if fitsInt64 n then .ok n else .error .outOfRange

/-- Read an optional sign followed by decimal digits. -/
def decimalInt (text : String) : Except IntegerError Int := do
  let magnitude ← natOfDigits 10 (splitSign text.toList).2
  signedInt64 (splitSign text.toList).1 magnitude

/-- The integer spelled by `text`, if it is one and fits. -/
def decimalInt? (text : String) : Option Int := (decimalInt text).toOption

/-- The natural number spelled by `text`, which may carry a sign: `-0` is zero. -/
def decimalNat? (text : String) : Option Nat :=
  match decimalInt? text with
  | some (.ofNat n) => some n
  | _ => none

/-- Underscores stand only between two digits, or between a radix mark and a digit. -/
def underscoresBetweenDigits (afterDigit : Bool) : List Char → Bool
  | [] => true
  | '_' :: rest =>
    match rest with
    | c :: _ => afterDigit && c ≠ '_' && underscoresBetweenDigits false rest
    | [] => false
  | _ :: rest => underscoresBetweenDigits true rest

/-- The radix announced by the first characters of a magnitude, whether a mark announced it, and the
digits after the mark. -/
def splitRadix : List Char → Nat × Bool × List Char
  | '0' :: 'x' :: rest => (16, true, rest)
  | '0' :: 'X' :: rest => (16, true, rest)
  | '0' :: 'o' :: rest => (8, true, rest)
  | '0' :: 'O' :: rest => (8, true, rest)
  | '0' :: 'b' :: rest => (2, true, rest)
  | '0' :: 'B' :: rest => (2, true, rest)
  | '0' :: c :: rest => (8, true, c :: rest)
  | cs => (10, false, cs)

/-- Read an optional sign followed by an integer literal in any radix. -/
def literalInt (text : String) : Except IntegerError Int :=
  let (negative, body) := splitSign text.toList
  let (radix, marked, digits) := splitRadix body
  match natOfDigits radix (digits.filter (· ≠ '_')) with
  | .error cause => .error cause
  | .ok magnitude =>
    if underscoresBetweenDigits marked digits then signedInt64 negative magnitude
    else .error .malformed

end TensorKernel.Text
