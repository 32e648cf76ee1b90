import TensorKernel.Text.Decimal
import TensorKernel.Text.Label

/-!
# Registers

A register is a bank and an index in it. Before allocation the index is abstract and unbounded;
afterwards it is the physical index in the machine's register file. Registers are ordered by bank
and then by index, and every listing of registers follows this order.
-/

namespace TensorKernel

/-- The register bank a value lives in. -/
inductive Bank where
  /-- No bank was chosen yet. -/
  | undefined
  /-- General-purpose registers: data pointers and loop counters. -/
  | gpr
  /-- Vector registers: loaded and computed values. -/
  | vec
  /-- Vector mask registers. -/
  | mask
  /-- A bank number without a meaning. -/
  | unnamed (code : Int) (outside : code < 0 ∨ 3 < code)
deriving DecidableEq, Repr

namespace Bank

/-- The number of a bank, by which banks are ordered. -/
def code : Bank → Int
  | undefined => 0
  | gpr => 1
  | vec => 2
  | mask => 3
  | unnamed code _ => code

/-- The bank with a given number. -/
def ofCode (n : Int) : Bank :=
  if h : n < 0 ∨ 3 < n then unnamed n h
  else if n = 0 then undefined
  else if n = 1 then gpr
  else if n = 2 then vec
  else mask

/-- The word a register of the bank starts with. -/
def name : Bank → String
  | gpr => "gpr"
  | vec => "vec"
  | mask => "mask"
  | undefined | unnamed _ _ => "undefined"

@[simp] theorem code_ofCode (n : Int) : (ofCode n).code = n := by
  unfold ofCode
  split
  · rfl
  · split
    · simp_all [code]
    · split
      · simp_all [code]
      · split
        · simp_all [code]
        · simp only [code]
          omega

/-- Different banks have different numbers. -/
theorem code_injective {a b : Bank} (h : a.code = b.code) : a = b := by
  cases a <;> cases b <;> simp_all [code] <;> omega

end Bank

/-- A register: a bank and an index inside it. -/
structure Reg where
  /-- The bank of the register. -/
  bank : Bank
  /-- The place in the bank. -/
  index : Int
deriving DecidableEq, Repr

namespace Reg

/-- The register that stands for "none assigned". -/
def unassigned : Reg := ⟨.undefined, 0⟩

/-- The general-purpose register number `index`. -/
def gpr (index : Int) : Reg := ⟨.gpr, index⟩

/-- The vector register number `index`. -/
def vec (index : Int) : Reg := ⟨.vec, index⟩

instance : Inhabited Reg := ⟨unassigned⟩

/-- Whether the register was given a bank. -/
def isDefined (r : Reg) : Bool := r.bank ≠ .undefined

/-- The text of a register: the bank's word and the index, or `undef` without a bank. -/
def text (r : Reg) : String :=
  if r.isDefined then r.bank.name ++ toString r.index else "undef"

/-- Registers are ordered by bank, then by index. -/
protected def lt (a b : Reg) : Prop :=
  a.bank.code < b.bank.code ∨ (a.bank.code = b.bank.code ∧ a.index < b.index)

instance : LT Reg := ⟨Reg.lt⟩

instance (a b : Reg) : Decidable (a < b) :=
  inferInstanceAs (Decidable (_ ∨ _))

theorem lt_iff {a b : Reg} :
    a < b ↔ a.bank.code < b.bank.code ∨ (a.bank.code = b.bank.code ∧ a.index < b.index) :=
  Iff.rfl

theorem lt_irrefl (a : Reg) : ¬ a < a := by
  simp [lt_iff]

theorem lt_trans {a b c : Reg} (hab : a < b) (hbc : b < c) : a < c := by
  simp only [lt_iff] at *
  omega

/-- Two registers that neither precede the other are equal. -/
theorem eq_of_not_lt {a b : Reg} (hab : ¬ a < b) (hba : ¬ b < a) : a = b := by
  simp only [lt_iff] at *
  have hb : a.bank = b.bank := Bank.code_injective (by omega)
  have hi : a.index = b.index := by omega
  cases a
  cases b
  simp_all

theorem lt_of_not_lt_of_ne {a b : Reg} (hab : ¬ a < b) (hne : a ≠ b) : b < a :=
  Decidable.byContradiction fun h => hne (eq_of_not_lt hab h)

/-- Three-way comparison in register order. -/
def order (a b : Reg) : Ordering :=
  if a < b then .lt else if b < a then .gt else .eq

/-- Why a text is not a register. -/
inductive ParseError where
  /-- The text starts with no bank's word. -/
  | noBank (text : Label)
  /-- The bank's word is not followed by an index. -/
  | badIndex (text : Label)
deriving DecidableEq, Repr

/-- The wording of a parse failure. -/
def ParseError.message : ParseError → String
  | noBank text => "invalid register " ++ text.quoted
  | badIndex text => "invalid register index in " ++ text.quoted

/-- Read the text of a register: a bank's word followed by a non-negative index. -/
def parse (text : Label) : Except ParseError Reg :=
  match [Bank.gpr, Bank.vec, Bank.mask].findSome? fun bank =>
      (text.after? bank.name).map fun rest => (bank, rest) with
  | none => .error (.noBank text)
  | some (bank, rest) =>
    match rest.string?.bind Text.decimalNat? with
    | some index => .ok ⟨bank, index⟩
    | none => .error (.badIndex text)

end Reg

end TensorKernel
