/-!
# Texts from bytes

A text may be given by its UTF-8 bytes, and bytes by digits in base sixty-four. A byte that belongs to
no character stands for itself, and is shown as the replacement character.

Main statement: the digits that bytes are written with give back the bytes.
-/

namespace TensorKernel.Text

/-- A piece of a text given by its bytes: a character, or a byte that belongs to none. -/
inductive Glyph where
  | char (c : Char)
  | byte (b : UInt8)
deriving DecidableEq, Repr, Inhabited

/-- A piece as it is shown. -/
def Glyph.shown : Glyph → Char
  | char c => c
  | byte _ => '\ufffd'

/-- The character with a code point, if that is neither a surrogate nor too large, and at least
`least`: every character has one encoding only. -/
def charFrom? (least n : Nat) : Option Char :=
  if least ≤ n ∧ n.isValidChar then some (Char.ofNat n) else none

/-- Continue a code point by the six bits of a byte that is not the first of a character. -/
def continue? (acc : Nat) (byte : UInt8) : Option Nat :=
  if 0x80 ≤ byte ∧ byte < 0xc0 then some (acc * 64 + byte.toNat % 64) else none

/-- The character of two bytes. -/
def char2? (a b : UInt8) : Option Char := do
  if 0xc0 ≤ a ∧ a < 0xe0 then charFrom? 0x80 (← continue? (a.toNat % 32) b) else none

/-- The character of three bytes. -/
def char3? (a b c : UInt8) : Option Char := do
  if 0xe0 ≤ a ∧ a < 0xf0 then
    charFrom? 0x800 (← continue? (← continue? (a.toNat % 16) b) c)
  else none

/-- The character of four bytes. -/
def char4? (a b c d : UInt8) : Option Char := do
  if 0xf0 ≤ a ∧ a < 0xf8 then
    charFrom? 0x10000 (← continue? (← continue? (← continue? (a.toNat % 8) b) c) d)
  else none

/-- The piece of a single byte. -/
def glyph1 (a : UInt8) : Glyph := if a < 0x80 then .char (Char.ofNat a.toNat) else .byte a

/-- The pieces that bytes encode. -/
def glyphs : List UInt8 → List Glyph
  | [] => []
  | [a] => [glyph1 a]
  | [a, b] =>
    match char2? a b with
    | some x => [.char x]
    | none => glyph1 a :: glyphs [b]
  | [a, b, c] =>
    match char2? a b, char3? a b c with
    | some x, _ => .char x :: glyphs [c]
    | none, some x => [.char x]
    | none, none => glyph1 a :: glyphs [b, c]
  | a :: b :: c :: d :: rest =>
    match char2? a b, char3? a b c, char4? a b c d with
    | some x, _, _ => .char x :: glyphs (c :: d :: rest)
    | none, some x, _ => .char x :: glyphs (d :: rest)
    | none, none, some x => .char x :: glyphs rest
    | none, none, none => glyph1 a :: glyphs (b :: c :: d :: rest)

/-- The characters that bytes are shown as. -/
def charsOfBytes (bytes : List UInt8) : List Char := (glyphs bytes).map Glyph.shown

/-- The digits in base sixty-four. -/
def sextets : List Char :=
  "ABCDEFGHIJKLMNOPQRSTUVWXYZabcdefghijklmnopqrstuvwxyz0123456789+/".toList

/-- The value of a digit in base sixty-four. -/
def sextet? (c : Char) : Option Nat :=
  if 'A' ≤ c ∧ c ≤ 'Z' then some (c.toNat - 'A'.toNat)
  else if 'a' ≤ c ∧ c ≤ 'z' then some (c.toNat - 'a'.toNat + 26)
  else if '0' ≤ c ∧ c ≤ '9' then some (c.toNat - '0'.toNat + 52)
  else if c = '+' then some 62
  else if c = '/' then some 63
  else none

/-- The digit with a value, of which the last six bits count. -/
def sextetOf (n : Nat) : Char := sextets.getD (n % 64) 'A'

/-- The bytes of digits in base sixty-four, four for three bytes. The last four may be padded. -/
def bytesOfSextets? : List Char → Option (List UInt8)
  | [] => some []
  | [a, b, '=', '='] => do
    let n := (← sextet? a) * 64 + (← sextet? b)
    return [.ofNat (n / 16)]
  | [a, b, c, '='] => do
    let n := ((← sextet? a) * 64 + (← sextet? b)) * 64 + (← sextet? c)
    return [.ofNat (n / 1024), .ofNat (n / 4 % 256)]
  | a :: b :: c :: d :: rest => do
    let n := (((← sextet? a) * 64 + (← sextet? b)) * 64 + (← sextet? c)) * 64 + (← sextet? d)
    return .ofNat (n / 65536) :: .ofNat (n / 256 % 256) :: .ofNat (n % 256) ::
      (← bytesOfSextets? rest)
  | _ => none

/-- The digits of bytes in base sixty-four, padded to a multiple of four. -/
def sextetsOfBytes : List UInt8 → List Char
  | [] => []
  | [a] =>
    let n := a.toNat * 16
    [sextetOf (n / 64), sextetOf n, '=', '=']
  | [a, b] =>
    let n := (a.toNat * 256 + b.toNat) * 4
    [sextetOf (n / 4096), sextetOf (n / 64), sextetOf n, '=']
  | a :: b :: c :: rest =>
    let n := (a.toNat * 256 + b.toNat) * 256 + c.toNat
    sextetOf (n / 262144) :: sextetOf (n / 4096) :: sextetOf (n / 64) :: sextetOf n ::
      sextetsOfBytes rest

/-- The bytes given by a text in base sixty-four; line breaks between the digits do not count. -/
def bytesOfBase64? (text : String) : Option (List UInt8) :=
  bytesOfSextets? (text.toList.filter fun c => c ≠ '\n' ∧ c ≠ '\r')

/-- A digit has the value that it is written for. -/
theorem sextet?_sextetOf (n : Nat) : sextet? (sextetOf n) = some (n % 64) := by
  have all : ∀ k, k < 64 → sextet? (sextets.getD k 'A') = some k := by decide +kernel
  exact all _ (Nat.mod_lt _ (by decide))

/-- Digits are no line breaks. -/
theorem sextetOf_ne_break (n : Nat) : sextetOf n ≠ '\n' ∧ sextetOf n ≠ '\r' := by
  have all : ∀ k, k < 64 → sextets.getD k 'A' ≠ '\n' ∧ sextets.getD k 'A' ≠ '\r' := by
    decide +kernel
  exact all _ (Nat.mod_lt _ (by decide))

/-- Bytes are written without line breaks. -/
theorem ne_break_of_mem_sextetsOfBytes {bytes : List UInt8} {c : Char}
    (h : c ∈ sextetsOfBytes bytes) : c ≠ '\n' ∧ c ≠ '\r' := by
  induction bytes using sextetsOfBytes.induct with
  | case1 => simp [sextetsOfBytes] at h
  | case2 a =>
    simp only [sextetsOfBytes, List.mem_cons, List.not_mem_nil, or_false] at h
    rcases h with rfl | rfl | rfl | rfl <;> simp [sextetOf_ne_break]
  | case3 a b =>
    simp only [sextetsOfBytes, List.mem_cons, List.not_mem_nil, or_false] at h
    rcases h with rfl | rfl | rfl | rfl <;> simp [sextetOf_ne_break]
  | case4 a b c' rest ih =>
    simp only [sextetsOfBytes, List.mem_cons] at h
    rcases h with rfl | rfl | rfl | rfl | h
    · exact sextetOf_ne_break _
    · exact sextetOf_ne_break _
    · exact sextetOf_ne_break _
    · exact sextetOf_ne_break _
    · exact ih h

/-- Digits are no padding. -/
theorem sextetOf_ne_pad (n : Nat) : sextetOf n ≠ '=' := by
  have all : ∀ k, k < 64 → sextets.getD k 'A' ≠ '=' := by decide +kernel
  exact all _ (Nat.mod_lt _ (by decide))

/-- The digits that bytes are written with give back the bytes. -/
theorem bytesOfSextets?_sextetsOfBytes (bytes : List UInt8) :
    bytesOfSextets? (sextetsOfBytes bytes) = some bytes := by
  induction bytes using sextetsOfBytes.induct with
  | case1 => rfl
  | case2 a =>
    have ha := a.toNat_lt
    simp only [sextetsOfBytes, bytesOfSextets?, sextet?_sextetOf]
    simp only [Option.pure_def, Option.bind_eq_bind, Option.bind_some, Option.some.injEq,
      List.cons.injEq, and_true]
    apply UInt8.toNat_inj.1
    simp only [UInt8.toNat_ofNat']
    omega
  | case3 a b =>
    have ha := a.toNat_lt
    have hb := b.toNat_lt
    simp only [sextetsOfBytes]
    rw [bytesOfSextets?]
    · simp only [sextet?_sextetOf, Option.pure_def, Option.bind_eq_bind, Option.bind_some,
        Option.some.injEq, List.cons.injEq, and_true]
      constructor <;>
      · apply UInt8.toNat_inj.1
        simp only [UInt8.toNat_ofNat']
        omega
    · intro h
      exact sextetOf_ne_pad _ h
  | case4 a b c rest ih =>
    have ha := a.toNat_lt
    have hb := b.toNat_lt
    have hc := c.toNat_lt
    simp only [sextetsOfBytes]
    rw [bytesOfSextets?]
    · simp only [sextet?_sextetOf, ih, Option.pure_def, Option.bind_eq_bind, Option.bind_some,
        Option.some.injEq, List.cons.injEq, and_true]
      refine ⟨?_, ?_, ?_⟩ <;>
      · apply UInt8.toNat_inj.1
        simp only [UInt8.toNat_ofNat']
        omega
    · intro _ h
      exact absurd h (sextetOf_ne_pad _)
    · intro h
      exact absurd h (sextetOf_ne_pad _)

end TensorKernel.Text
