import TensorKernel.Register.Basic

/-!
# Spellings of registers

The decimal spelling of a number that fits 64 bits reads as that number. So the text of a register of a
bank with a word of its own, whose index is such a number, reads as the register, and different
registers of this kind have different texts.
-/

namespace TensorKernel

variable {cs : List Char} {n : Nat}

namespace Text

/-- What a digit stands for. -/
theorem digitValue?_of_isDigit {c : Char} (h : c.isDigit = true) :
    digitValue? c = some (c.toNat - '0'.toNat) ∧ c.toNat - '0'.toNat < 10 := by
  simp only [Char.isDigit, Bool.and_eq_true, decide_eq_true_eq] at h
  obtain ⟨hlow, hhigh⟩ := h
  have hhigh' : c.toNat ≤ 57 := hhigh
  refine ⟨if_pos ⟨hlow, hhigh⟩, ?_⟩
  show c.toNat - 48 < 10
  omega

/-- More digits make no number smaller. -/
theorem le_ofDigitChars (cs : List Char) (acc : Nat) : acc ≤ Nat.ofDigitChars 10 cs acc := by
  induction cs generalizing acc with
  | nil => exact Nat.le_refl _
  | cons c cs ih =>
    rw [Nat.ofDigitChars_cons]
    exact Nat.le_trans (by omega) (ih _)

/-- Digits are read as the number that they spell, as long as it fits. -/
theorem accumulateDigits_eq_ok {acc : Nat} (digits : ∀ c ∈ cs, c.isDigit = true)
    (fits : Nat.ofDigitChars 10 cs acc < 0x10000000000000000) :
    accumulateDigits 10 acc cs = .ok (Nat.ofDigitChars 10 cs acc) := by
  induction cs generalizing acc with
  | nil => rfl
  | cons c cs ih =>
    obtain ⟨hvalue, hlt⟩ := digitValue?_of_isDigit (digits c List.mem_cons_self)
    rw [Nat.ofDigitChars_cons, Nat.mul_comm] at fits ⊢
    have hle := le_ofDigitChars cs (acc * 10 + (c.toNat - '0'.toNat))
    unfold accumulateDigits
    simp only [hvalue]
    rw [if_neg (Nat.not_le.mpr hlt), if_neg (Nat.not_le.mpr (Nat.lt_of_le_of_lt hle fits))]
    exact ih (fun x hx => digits x (List.mem_cons_of_mem _ hx)) fits

/-- The decimal spelling of a number is that number. -/
theorem natOfDigits_toDigits (h : n < 0x10000000000000000) : natOfDigits 10 (Nat.toDigits 10 n) = .ok n := by
  rw [natOfDigits, if_neg (by simp [Nat.toDigits_ne_nil]), accumulateDigits_eq_ok,
    Nat.ofDigitChars_ten_toDigits]
  · exact fun c hc => Nat.isDigit_of_mem_toDigits (by decide) (by decide) hc
  · rwa [Nat.ofDigitChars_ten_toDigits]

/-- Digits have no sign in front of them. -/
theorem splitSign_of_isDigit (digits : ∀ c ∈ cs, c.isDigit = true) : splitSign cs = (false, cs) := by
  unfold splitSign
  split
  · exact absurd (digits _ List.mem_cons_self) (by decide)
  · exact absurd (digits _ List.mem_cons_self) (by decide)
  · rfl

/-- The decimal spelling of a number that fits 64 bits is read as that number. -/
theorem decimalNat?_repr (h : (n : Int) ≤ maxInt64) : decimalNat? n.repr = some n := by
  have hlt : n < 0x10000000000000000 := by
    unfold maxInt64 at h
    omega
  have hfits : fitsInt64 n = true := by
    simp only [fitsInt64, Bool.and_eq_true, decide_eq_true_eq]
    exact ⟨by unfold minInt64; omega, h⟩
  have hsign : splitSign n.repr.toList = (false, Nat.toDigits 10 n) := by
    rw [Nat.toList_repr]
    exact splitSign_of_isDigit fun c hc => Nat.isDigit_of_mem_toDigits (by decide) (by decide) hc
  have hint : decimalInt n.repr = .ok n := by
    rw [decimalInt, hsign, natOfDigits_toDigits hlt]
    simp [signedInt64, hfits, bind, Except.bind]
  rw [decimalNat?, decimalInt?, hint]
  rfl

end Text

namespace Reg

/-- A register whose text can be read: its bank has a word of its own, and its index is a natural number
that fits 64 bits. -/
structure Legible (r : Reg) : Prop where
  /-- The bank has a word of its own. -/
  bank : r.bank = .gpr ∨ r.bank = .vec ∨ r.bank = .mask
  /-- The index is not negative. -/
  nonneg : 0 ≤ r.index
  /-- It fits. -/
  fits : r.index ≤ Text.maxInt64

/-- The word of a bank in front of a text, and what follows it. -/
theorem findSome?_after? {bank : Bank} (h : bank = .gpr ∨ bank = .vec ∨ bank = .mask) (rest : Label) :
    ([Bank.gpr, Bank.vec, Bank.mask].findSome? fun b =>
      ((Label.ofString bank.name ++ rest).after? b.name).map fun rest => (b, rest)) =
      some (bank, rest) := by
  have hgpr : (Label.ofString "gpr").bytes = [103, 112, 114] := by decide
  have hvec : (Label.ofString "vec").bytes = [118, 101, 99] := by decide
  have hmask : (Label.ofString "mask").bytes = [109, 97, 115, 107] := by decide
  rcases h with rfl | rfl | rfl <;> simp [Bank.name, Label.after?, hgpr, hvec, hmask]

/-- The text of a register reads as the register. -/
theorem parse_text {r : Reg} (h : r.Legible) : Reg.parse r.text = .ok r := by
  obtain ⟨bank, index⟩ := r
  obtain ⟨n, rfl⟩ := Int.eq_ofNat_of_zero_le h.nonneg
  have hdefined : (⟨bank, n⟩ : Reg).isDefined = true := by
    rcases h.bank with rfl | rfl | rfl <;> rfl
  have htext : (⟨bank, n⟩ : Reg).text = bank.name ++ n.repr := by
    rw [text, if_pos hdefined]
    rfl
  rw [parse, htext, Label.ofString_append, findSome?_after? h.bank]
  simp [Text.decimalNat?_repr h.fits]

/-- Different registers have different texts. -/
theorem eq_of_text_eq {a b : Reg} (ha : a.Legible) (hb : b.Legible) (h : a.text = b.text) : a = b := by
  have hparse := parse_text ha
  rw [h, parse_text hb] at hparse
  exact (Except.ok.inj hparse).symm

end Reg

end TensorKernel
