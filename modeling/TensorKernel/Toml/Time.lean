import TensorKernel.Text.Calendar
import TensorKernel.Toml.Value

/-!
# Points in time in TOML

The spelling of a point in time is checked where its value is asked for: dates are dates of the
calendar, and times of day have two digits for each part.
-/

namespace TensorKernel.Toml

/-- The number that two or more digits spell. -/
def digits? (cs : List Char) : Option Nat :=
  if cs.all Char.isDigit then (Text.natOfDigits 10 cs).toOption else none

/-- Whether a text is a date. -/
def isDate : List Char → Bool
  | [y1, y2, y3, y4, '-', m1, m2, '-', d1, d2] =>
    match digits? [y1, y2, y3, y4], digits? [m1, m2], digits? [d1, d2] with
    | some year, some month, some day => Text.isDay year month day
    | _, _, _ => false
  | _ => false

/-- What follows a time of day, if there is one. A minute may have one second more, and a fraction of a
second has at least one digit. -/
def afterClock? : List Char → Option (List Char)
  | h1 :: h2 :: ':' :: m1 :: m2 :: ':' :: s1 :: s2 :: rest => do
    let hour ← digits? [h1, h2]
    let minute ← digits? [m1, m2]
    let second ← digits? [s1, s2]
    if 23 < hour ∨ 59 < minute ∨ 60 < second then none
    match rest with
    | '.' :: fraction =>
      if fraction.head?.any Char.isDigit then some (fraction.dropWhile Char.isDigit) else none
    | _ => some rest
  | _ => none

/-- What follows a date and a time of day. -/
def afterDateClock? (cs : List Char) : Option (List Char) :=
  if isDate (cs.take 10) then
    match cs.drop 10 with
    | mark :: rest => if mark ∈ ['T', 't', ' '] then afterClock? rest else none
    | [] => none
  else none

/-- Whether a text is a zone: a letter, or a signed offset of hours and minutes. -/
def isZone : List Char → Bool
  | ['Z'] | ['z'] => true
  | [sign, h1, h2, ':', m1, m2] =>
    match digits? [h1, h2], digits? [m1, m2] with
    | some hour, some minute => (sign = '+' || sign = '-') && hour ≤ 23 && minute ≤ 59
    | _, _ => false
  | _ => false

/-- Whether a spelling is one of a point in time of its kind. -/
def TimeKind.accepts (spelling : List Char) : TimeKind → Bool
  | date => isDate spelling
  | clock => afterClock? spelling = some []
  | dateClock => afterDateClock? spelling = some []
  | instant => (afterDateClock? spelling).any isZone

end TensorKernel.Toml
