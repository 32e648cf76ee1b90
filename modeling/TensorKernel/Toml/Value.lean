import TensorKernel.Text.Decimal

/-!
# Values in TOML

Reading strings, numbers, truth values, times, arrays and inline tables. A number or a time is kept as
it is spelled: its spelling matters only to a reader that asks for it.
-/

namespace TensorKernel.Toml

/-- What a point in time consists of. -/
inductive TimeKind where
  | date
  | clock
  | dateClock
  /-- A date, a time of day and a zone. -/
  | instant
deriving DecidableEq, Repr, Inhabited

/-- A value. -/
inductive Value where
  | text (s : String)
  | bool (b : Bool)
  | integer (spelling : List Char)
  | float (spelling : List Char)
  | time (kind : TimeKind) (spelling : List Char)
  | array (items : List Value)
  | table (entries : List (List String × Value))
deriving Repr, Inhabited

/-- Control characters other than the tab cannot stand in comments and strings. -/
def isControl (c : Char) : Bool := (c.toNat < 0x20 ∧ c ≠ '\t') ∨ c.toNat = 0x7f

/-- Skip spaces and tabs. -/
def skipBlanks (cs : List Char) : List Char := cs.dropWhile fun c => c = ' ' ∨ c = '\t'

/-- Skip a line break. -/
def newline? : List Char → Option (List Char)
  | '\n' :: rest => some rest
  | '\r' :: '\n' :: rest => some rest
  | _ => none

/-- Skip the rest of a comment; it ends before a line break. -/
def skipComment : List Char → Option (List Char)
  | [] => some []
  | '\n' :: rest => some ('\n' :: rest)
  | '\r' :: '\n' :: rest => some ('\r' :: '\n' :: rest)
  | c :: rest => if isControl c then none else skipComment rest

/-- Skip blanks, comments and line breaks; every one of them takes a character, of which there are
fewer than `bound`. -/
def skipLines : Nat → List Char → Option (List Char)
  | 0, _ => none
  | bound + 1, cs =>
    match skipBlanks cs with
    | '#' :: rest => (skipComment rest).bind (skipLines bound)
    | rest =>
      match newline? rest with
      | some rest => skipLines bound rest
      | none => some rest

/-- The character with a code point in hexadecimal digits. -/
def hexChar? (digits : List Char) : Option Char :=
  match Text.natOfDigits 16 digits with
  | .ok n => if n.isValidChar then some (Char.ofNat n) else none
  | .error _ => none

/-- The character that a letter behind a backslash stands for. -/
def escaped? (c : Char) : Option Char :=
  match c with
  | '"' => some '"'
  | '\\' => some '\\'
  | 'b' => some '\x08'
  | 'f' => some '\x0c'
  | 'n' => some '\n'
  | 'r' => some '\r'
  | 't' => some '\t'
  | 'e' => some '\x1b'
  | _ => none

/-- Put a character in front of a text that was read. -/
def prepend (c : Char) (r : List Char × List Char) : List Char × List Char := (c :: r.1, r.2)

/-- The characters between double quotes, where a backslash starts an escape. -/
def basicChars : List Char → Option (List Char × List Char)
  | [] => none
  | '"' :: rest => some ([], rest)
  | '\\' :: 'u' :: a :: b :: c :: d :: rest => do
    return prepend (← hexChar? [a, b, c, d]) (← basicChars rest)
  | '\\' :: 'U' :: a :: b :: c :: d :: e :: f :: g :: h :: rest => do
    return prepend (← hexChar? [a, b, c, d, e, f, g, h]) (← basicChars rest)
  | '\\' :: c :: rest => do return prepend (← escaped? c) (← basicChars rest)
  | c :: rest => if isControl c then none else (basicChars rest).map (prepend c)

/-- The characters between single quotes. -/
def literalChars : List Char → Option (List Char × List Char)
  | [] => none
  | '\'' :: rest => some ([], rest)
  | c :: rest => if isControl c then none else (literalChars rest).map (prepend c)

/-- Up to two quotes can stand right before the closing three. -/
def extraQuotes (mark : Char) : List Char → List Char × List Char
  | a :: b :: rest =>
    if a = mark ∧ b = mark then ([mark, mark], rest)
    else if a = mark then ([mark], b :: rest)
    else ([], a :: b :: rest)
  | [a] => if a = mark then ([mark], []) else ([], [a])
  | [] => ([], [])

/-- The characters between three double quotes. With `skipping`, blanks and line breaks are skipped,
as they are behind a backslash at the end of a line. -/
def longBasicChars (skipping : Bool) : List Char → Option (List Char × List Char)
  | [] => none
  | '"' :: '"' :: '"' :: rest => some (extraQuotes '"' rest)
  | '\\' :: 'u' :: a :: b :: c :: d :: rest => do
    return prepend (← hexChar? [a, b, c, d]) (← longBasicChars false rest)
  | '\\' :: 'U' :: a :: b :: c :: d :: e :: f :: g :: h :: rest => do
    return prepend (← hexChar? [a, b, c, d, e, f, g, h]) (← longBasicChars false rest)
  | '\\' :: c :: rest =>
    if c = '\n' ∨ c = ' ' ∨ c = '\t' ∨ c = '\r' then
      if (newline? (skipBlanks (c :: rest))).isSome then longBasicChars true rest else none
    else do return prepend (← escaped? c) (← longBasicChars false rest)
  | '\r' :: '\n' :: rest =>
    if skipping then longBasicChars true rest
    else (longBasicChars false rest).map (prepend '\r' ∘ prepend '\n')
  | c :: rest =>
    if skipping ∧ (c = ' ' ∨ c = '\t' ∨ c = '\n') then longBasicChars true rest
    else if isControl c ∧ c ≠ '\n' then none
    else (longBasicChars false rest).map (prepend c)

/-- The characters between three single quotes. -/
def longLiteralChars : List Char → Option (List Char × List Char)
  | [] => none
  | '\'' :: '\'' :: '\'' :: rest => some (extraQuotes '\'' rest)
  | '\r' :: '\n' :: rest => (longLiteralChars rest).map (prepend '\r' ∘ prepend '\n')
  | c :: rest =>
    if isControl c ∧ c ≠ '\n' then none else (longLiteralChars rest).map (prepend c)

/-- A line break right behind opening quotes does not count. -/
def afterOpening (cs : List Char) : List Char := (newline? cs).getD cs

/-- Read a string of any of the four kinds. -/
def string? : List Char → Option (String × List Char)
  | '"' :: '"' :: '"' :: rest =>
    (longBasicChars false (afterOpening rest)).map fun (s, rest) => (String.ofList s, rest)
  | '\'' :: '\'' :: '\'' :: rest =>
    (longLiteralChars (afterOpening rest)).map fun (s, rest) => (String.ofList s, rest)
  | '"' :: rest => (basicChars rest).map fun (s, rest) => (String.ofList s, rest)
  | '\'' :: rest => (literalChars rest).map fun (s, rest) => (String.ofList s, rest)
  | _ => none

/-- The characters of keys that need no quotes. -/
def isBareKeyChar (c : Char) : Bool :=
  ('a' ≤ c ∧ c ≤ 'z') ∨ ('A' ≤ c ∧ c ≤ 'Z') ∨ ('0' ≤ c ∧ c ≤ '9') ∨ c = '_' ∨ c = '-'

/-- Read one part of a key. -/
def keyPart? (cs : List Char) : Option (String × List Char) :=
  match cs with
  | '"' :: rest => (basicChars rest).map fun (s, rest) => (String.ofList s, rest)
  | '\'' :: rest => (literalChars rest).map fun (s, rest) => (String.ofList s, rest)
  | _ =>
    let bare := cs.takeWhile isBareKeyChar
    if bare.isEmpty then none else some (String.ofList bare, cs.drop bare.length)

/-- Read a key, whose parts are divided by dots; there are fewer parts than `bound`. -/
def key? : Nat → List Char → Option (List String × List Char)
  | 0, _ => none
  | bound + 1, cs => do
    let (part, rest) ← keyPart? cs
    match skipBlanks rest with
    | '.' :: rest =>
      let (parts, rest) ← key? bound (skipBlanks rest)
      return (part :: parts, rest)
    | rest => return ([part], rest)

/-- The parts of a point in time that its characters show. -/
structure TimeParts where
  /-- A date, shown by a dash. -/
  date : Bool := false
  /-- A time of day, shown by its marks or by a space before it. -/
  clock : Bool := false
  /-- A zone, shown by its letter, a plus, or a dash behind the date. -/
  zone : Bool := false
deriving DecidableEq, Repr

namespace TimeParts

/-- The kind of a point in time with these parts. -/
def kind (p : TimeParts) : TimeKind :=
  if !p.clock then .date else if !p.date then .clock else if p.zone then .instant else .dateClock

/-- What a character at an index shows, if it can stand in a time. -/
def show? (p : TimeParts) (index : Nat) (c : Char) : Option TimeParts :=
  if c.isDigit then some p
  else if c = '-' then some { p with date := true, zone := p.zone || 8 ≤ index }
  else if c ∈ ['T', 't', ':', '.'] then some { p with clock := true }
  else if c ∈ ['+', 'Z', 'z'] then some { p with zone := true }
  else none

end TimeParts

/-- The characters of a time from an index on. One space may stand in it if a digit follows; the
character behind that digit is then taken as it is. -/
def timeChars (parts : TimeParts) (spaced : Bool) (index : Nat) :
    List Char → TimeParts × List Char × List Char
  | [] => (parts, [], [])
  | [' ', d] =>
    if !spaced && d.isDigit then ({ parts with clock := true }, [' ', d], []) else (parts, [], [' ', d])
  | ' ' :: d :: c :: rest =>
    if !spaced && d.isDigit then
      if c.toNat < 0x80 then
        let (parts, more, rest) := timeChars { parts with clock := true } true (index + 3) rest
        (parts, ' ' :: d :: c :: more, rest)
      else ({ parts with clock := true }, [' ', d], c :: rest)
    else (parts, [], ' ' :: d :: c :: rest)
  | c :: rest =>
    match parts.show? index c with
    | none => (parts, [], c :: rest)
    | some parts =>
      let (parts, more, rest) := timeChars parts spaced (index + 1) rest
      (parts, c :: more, rest)

/-- Read a time. -/
def time (cs : List Char) : Value × List Char :=
  let (parts, spelling, rest) := timeChars {} false 0 cs
  (.time parts.kind spelling, rest)

/-- Whether a text starts like a date or a time of day. -/
def startsLikeTime : List Char → Bool
  | a :: b :: ':' :: _ => a.isDigit && b.isDigit
  | a :: b :: c :: d :: '-' :: _ => [a, b, c, d].all Char.isDigit
  | _ => false

/-- The digits of a radix mark, and underscores. -/
def radixDigit? : Char → Option (Char → Bool)
  | 'x' => some fun c => c.isDigit ∨ ('a' ≤ c ∧ c ≤ 'f') ∨ ('A' ≤ c ∧ c ≤ 'F') ∨ c = '_'
  | 'o' => some fun c => ('0' ≤ c ∧ c ≤ '7') ∨ c = '_'
  | 'b' => some fun c => c = '0' ∨ c = '1' ∨ c = '_'
  | _ => none

/-- The spelling of a decimal number up to a character that cannot be in one; the words for infinity
and for no number end it. -/
def numberChars : List Char → Option (List Char × List Char)
  | [] => some ([], [])
  | 'i' :: 'n' :: 'f' :: rest => some (['i', 'n', 'f'], rest)
  | 'n' :: 'a' :: 'n' :: rest => some (['n', 'a', 'n'], rest)
  | c :: rest =>
    if c = 'i' ∨ c = 'n' then none
    else if c.isDigit ∨ c ∈ ['+', '-', '_', '.', 'e', 'E'] then (numberChars rest).map (prepend c)
    else some ([], c :: rest)

/-- Read a decimal number. -/
def decimal? (cs : List Char) : Option (Value × List Char) := do
  let (spelling, rest) ← numberChars cs
  if spelling.isEmpty then none
  else if spelling.any fun c => c ∈ ['.', 'e', 'E', 'n'] then return (.float spelling, rest)
  else return (.integer spelling, rest)

/-- Read a number or a time. -/
def number? (cs : List Char) : Option (Value × List Char) :=
  if startsLikeTime cs then some (time cs)
  else match cs with
    | '0' :: mark :: next :: rest =>
      if mark ∈ ['.', 'e', 'E'] then decimal? cs
      else match radixDigit? mark with
        | some isDigit =>
          let digits := (next :: rest).takeWhile isDigit
          some (.integer ('0' :: mark :: digits), (next :: rest).drop digits.length)
        | none => some (.integer ['0'], mark :: next :: rest)
    | _ => decimal? cs

mutual

/-- Read a value; values are nested less than `bound` deep. -/
def value? : Nat → List Char → Option (Value × List Char)
  | 0, _ => none
  | bound + 1, cs =>
    match cs with
    | '"' :: _ => (string? cs).map fun (s, rest) => (.text s, rest)
    | '\'' :: _ => (string? cs).map fun (s, rest) => (.text s, rest)
    | 't' :: 'r' :: 'u' :: 'e' :: rest => some (.bool true, rest)
    | 'f' :: 'a' :: 'l' :: 's' :: 'e' :: rest => some (.bool false, rest)
    | '[' :: rest => (items? true bound rest).map fun (items, rest) => (.array items, rest)
    | '\x7b' :: rest => (entries? true bound rest).map fun (entries, rest) => (.table entries, rest)
    | _ => number? cs

/-- Read the items of an array and its closing bracket. -/
def items? (first : Bool) : Nat → List Char → Option (List Value × List Char)
  | 0, _ => none
  | bound + 1, cs => do
    match ← skipLines (cs.length + 1) cs with
    | ']' :: rest => return ([], rest)
    | ',' :: rest =>
      if first then none
      else match ← skipLines (rest.length + 1) rest with
        | ']' :: rest => return ([], rest)
        | rest =>
          let (item, rest) ← value? bound rest
          let (items, rest) ← items? false bound rest
          return (item :: items, rest)
    | rest =>
      if !first then none
      else
        let (item, rest) ← value? bound rest
        let (items, rest) ← items? false bound rest
        return (item :: items, rest)

/-- Read the entries of an inline table and its closing brace. -/
def entries? (first : Bool) : Nat → List Char → Option (List (List String × Value) × List Char)
  | 0, _ => none
  | bound + 1, cs => do
    let entry (cs : List Char) : Option (List (List String × Value) × List Char) := do
      let (key, rest) ← key? (cs.length + 1) (skipBlanks cs)
      match rest with
      | '=' :: rest =>
        let (value, rest) ← value? bound (skipBlanks rest)
        let (entries, rest) ← entries? false bound rest
        return ((key, value) :: entries, rest)
      | _ => none
    match skipBlanks cs with
    | '\x7d' :: rest => return ([], rest)
    | ',' :: rest => if first then none else entry rest
    | rest => if first then entry rest else none

end

end TensorKernel.Toml
