import Mathlib.Data.List.TakeWhile
import TensorKernel.Proofs.Register.Spelling
import TensorKernel.Yaml.Plain

/-!
# Spellings of integers

An integer that fits 64 bits is written by its sign and its decimal digits. This spelling is none of the
fixed ones, announces no other radix and is no date, so as a plain scalar it means the integer.
-/

namespace TensorKernel

namespace Text

variable {n : Nat} {cs : List Char}

theorem isDigit_of_mem_toDigits {c : Char} (h : c ∈ Nat.toDigits 10 n) : c.isDigit = true :=
  Nat.isDigit_of_mem_toDigits (by decide) (by decide) h

/-- The first digit of a positive number is not zero. -/
theorem head?_toDigits_ne_zero (h : 0 < n) : (Nat.toDigits 10 n).head? ≠ some '0' := by
  induction n using Nat.strongRecOn with
  | ind n ih =>
    by_cases hlt : n < 10
    · have hdigit : ∀ m < 10, 0 < m → [Nat.digitChar m].head? ≠ some '0' := by decide
      rw [Nat.toDigits_of_lt_base hlt]
      exact hdigit n hlt h
    · have hne := ih (n / 10) (by omega) (by omega)
      rw [Nat.toDigits_of_base_le (by decide) (by omega), List.head?_append]
      cases hhead : (Nat.toDigits 10 (n / 10)).head? with
      | none => exact absurd (List.head?_eq_none_iff.mp hhead) Nat.toDigits_ne_nil
      | some c =>
        rw [hhead] at hne
        simpa using hne

/-- The decimal digits of a number announce no radix but ten. -/
theorem splitRadix_toDigits : splitRadix (Nat.toDigits 10 n) = (10, false, Nat.toDigits 10 n) := by
  rcases Nat.eq_zero_or_pos n with rfl | hpos
  · decide
  · have hhead := head?_toDigits_ne_zero hpos
    unfold splitRadix
    split <;> simp_all

/-- Digits have no underscores between them. -/
theorem underscoresBetweenDigits_of_isDigit {afterDigit : Bool} (digits : ∀ c ∈ cs, c.isDigit = true) :
    underscoresBetweenDigits afterDigit cs = true := by
  induction cs generalizing afterDigit with
  | nil => rfl
  | cons c cs ih =>
    have hne : c ≠ '_' := fun h => absurd (digits c List.mem_cons_self) (by rw [h]; decide)
    rw [underscoresBetweenDigits]
    · exact ih fun x hx => digits x (List.mem_cons_of_mem _ hx)
    · exact hne

theorem filter_ne_underscore (digits : ∀ c ∈ cs, c.isDigit = true) : cs.filter (· ≠ '_') = cs := by
  rw [List.filter_eq_self]
  intro c hc
  have hne : c ≠ '_' := fun h => absurd (digits c hc) (by rw [h]; decide)
  simpa using hne

/-- A sign and the digits of a number are a literal for it. -/
theorem literalInt_eq_ok {text : String} {negative : Bool}
    (sign : splitSign text.toList = (negative, Nat.toDigits 10 n))
    (fits : fitsInt64 (if negative then -(n : Int) else n) = true) :
    literalInt text = .ok (if negative then -(n : Int) else n) := by
  have hlt : n < 0x10000000000000000 := by
    unfold fitsInt64 minInt64 maxInt64 at fits
    cases negative
    all_goals
      simp only [Bool.and_eq_true, decide_eq_true_eq, if_true, if_neg Bool.false_ne_true] at fits
      omega
  have hdigits : ∀ c ∈ Nat.toDigits 10 n, c.isDigit = true := fun c => isDigit_of_mem_toDigits
  unfold literalInt
  simp only [sign, splitRadix_toDigits, filter_ne_underscore hdigits, natOfDigits_toDigits hlt,
    underscoresBetweenDigits_of_isDigit hdigits, if_true]
  rw [signedInt64]
  simp only [fits, if_true]

end Text

namespace Yaml.Plain

variable {n : Nat} {text : String}

/-- The characters of decimal spellings. -/
def isDecimalChar (c : Char) : Bool := c.isDigit || c = '-'

/-- A decimal spelling is no fixed one. -/
theorem fixed?_eq_none (decimal : text.toList.all isDecimalChar = true) (given : text ≠ "") :
    fixed? text = none := by
  have hnot : ∀ l : List String, (∀ s ∈ l, s = "" ∨ s.toList.all isDecimalChar = false) → text ∉ l := by
    intro l hl hmem
    rcases hl text hmem with h | h
    · exact given h
    · rw [decimal] at h
      cases h
  unfold fixed?
  rw [if_neg (hnot _ (by decide)), if_neg (hnot _ (by decide)), if_neg (hnot _ (by decide)),
    if_neg (hnot _ (by decide)), if_neg (hnot _ (by decide))]

/-- Digits alone are no date. -/
theorem isTimestamp_toDigits : isTimestamp (Nat.toDigits 10 n) = false := by
  have hyear : (Nat.toDigits 10 n).takeWhile Char.isDigit = Nat.toDigits 10 n :=
    List.takeWhile_eq_self_iff.mpr fun c hc => Text.isDigit_of_mem_toDigits hc
  have hdate : date? (Nat.toDigits 10 n) = none := by
    unfold date?
    rw [hyear]
    by_cases hlength : (Nat.toDigits 10 n).length = 4
    · have hrest : (Nat.toDigits 10 n).drop 4 = [] := List.drop_eq_nil_of_le (by omega)
      simp [hlength, hrest, after?]
    · simp [hlength]
  rw [isTimestamp, hdate]

/-- Neither is what starts with a sign. -/
theorem isTimestamp_minus {cs : List Char} : isTimestamp ('-' :: cs) = false := by
  have hdate : date? ('-' :: cs) = none := by simp [date?]
  rw [isTimestamp, hdate]

/-- What is spelled like a literal and is no date means the value of the literal. -/
theorem meaning_of_literalInt {i : Int} (decimal : text.toList.all isDecimalChar = true) (given : text ≠ "")
    (date : isTimestamp text.toList = false) (literal : Text.literalInt text = .ok i) :
    meaning text = .int i := by
  have hfilter : text.toList.filter (· ≠ '_') = text.toList := by
    rw [List.filter_eq_self]
    intro c hc
    have hc := List.all_eq_true.mp decimal c hc
    have hne : c ≠ '_' := fun h => absurd hc (by rw [h]; decide)
    simpa using hne
  have hnumeric : numeric true text.toList = .int i := by
    simp only [numeric, date, hfilter, int?, String.ofList_toList, literal]
    rfl
  unfold meaning
  rw [fixed?_eq_none decimal given]
  dsimp only
  cases hcs : text.toList with
  | nil => exact absurd (String.toList_eq_nil_iff.mp hcs) given
  | cons c rest =>
    rw [hcs] at decimal hnumeric
    have hc : isDecimalChar c = true := (List.all_eq_true.mp decimal) c List.mem_cons_self
    have hfirst : c.isDigit = true ∨ c = '+' ∨ c = '-' := by
      simp only [isDecimalChar, Bool.or_eq_true, decide_eq_true_eq] at hc
      exact hc.imp_right Or.inr
    have hne : c ≠ '.' := fun h => absurd hc (by rw [h]; decide)
    split
    · next heq => cases heq
    · next heq => exact absurd (List.cons.inj heq).1 hne
    · next heq =>
      obtain ⟨rfl, rfl⟩ := List.cons.inj heq
      rw [if_pos hfirst]
      exact hnumeric

/-- The decimal spelling of an integer that fits 64 bits means the integer. -/
theorem meaning_toString {i : Int} (fits : Text.fitsInt64 i = true) : meaning (toString i) = .int i := by
  have hdigits : ∀ n, (Nat.toDigits 10 n).all isDecimalChar = true := fun n => by
    rw [List.all_eq_true]
    intro c hc
    simp [isDecimalChar, Text.isDigit_of_mem_toDigits hc]
  cases i with
  | ofNat n =>
    have htext : (toString (Int.ofNat n)).toList = Nat.toDigits 10 n := Nat.toList_repr
    have hsign : Text.splitSign (toString (Int.ofNat n)).toList = (false, Nat.toDigits 10 n) := by
      rw [htext]
      exact Text.splitSign_of_isDigit fun c => Text.isDigit_of_mem_toDigits
    refine meaning_of_literalInt (htext ▸ hdigits n) (fun h => ?_) (htext ▸ isTimestamp_toDigits) ?_
    · rw [h] at htext
      exact Nat.toDigits_ne_nil htext.symm
    · exact Text.literalInt_eq_ok hsign fits
  | negSucc n =>
    have htext : (toString (Int.negSucc n)).toList = '-' :: Nat.toDigits 10 (n + 1) := by
      show ("-" ++ (n + 1).repr).toList = _
      rw [String.toList_append, Nat.toList_repr]
      rfl
    have hsign : Text.splitSign (toString (Int.negSucc n)).toList = (true, Nat.toDigits 10 (n + 1)) := by
      rw [htext]
      rfl
    refine meaning_of_literalInt ?_ (fun h => ?_) (htext ▸ isTimestamp_minus) ?_
    · rw [htext, List.all_cons, hdigits]
      rfl
    · rw [h] at htext
      cases htext
    · exact Text.literalInt_eq_ok hsign fits

end Yaml.Plain

end TensorKernel
