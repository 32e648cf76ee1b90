import TensorKernel.Register.Basic

/-!
# Sets of registers

A set of registers is kept as its strictly ascending list, so that equal sets are equal values and
listing a set needs no sorting. Each operation is described by the members of its result.
-/

namespace TensorKernel

/-- A finite set of registers. -/
structure RegSet where
  /-- The members in register order. -/
  toList : List Reg
  /-- The members ascend strictly. -/
  ascending : toList.Pairwise (· < ·)
deriving DecidableEq

namespace RegSet

instance : Membership Reg RegSet := ⟨fun s r => r ∈ s.toList⟩

theorem mem_def {r : Reg} {s : RegSet} : r ∈ s ↔ r ∈ s.toList := Iff.rfl

instance (r : Reg) (s : RegSet) : Decidable (r ∈ s) :=
  inferInstanceAs (Decidable (r ∈ s.toList))

/-- The set without members. -/
def empty : RegSet := ⟨[], .nil⟩

instance : EmptyCollection RegSet := ⟨empty⟩
instance : Inhabited RegSet := ⟨empty⟩

@[simp] theorem not_mem_empty (r : Reg) : r ∉ (∅ : RegSet) := List.not_mem_nil

/-- Put `r` at its place in an ascending list. -/
def insertInto (r : Reg) : List Reg → List Reg
  | [] => [r]
  | a :: rest =>
    if r < a then r :: a :: rest
    else if r = a then a :: rest
    else a :: insertInto r rest

theorem mem_insertInto {x r : Reg} {l : List Reg} : x ∈ insertInto r l ↔ x = r ∨ x ∈ l := by
  induction l with
  | nil => simp [insertInto]
  | cons a rest ih =>
    unfold insertInto
    split
    · simp
    · split
      · subst r
        simp
      · simp only [List.mem_cons, ih]
        grind

theorem pairwise_insertInto {r : Reg} {l : List Reg} (h : l.Pairwise (· < ·)) :
    (insertInto r l).Pairwise (· < ·) := by
  induction l with
  | nil => simp [insertInto]
  | cons a rest ih =>
    obtain ⟨ha, hrest⟩ := List.pairwise_cons.mp h
    unfold insertInto
    split
    · rename_i hlt
      refine List.pairwise_cons.mpr ⟨fun x hx => ?_, h⟩
      rcases List.mem_cons.mp hx with rfl | hx
      · exact hlt
      · exact Reg.lt_trans hlt (ha x hx)
    · rename_i hlt
      split
      · exact h
      · rename_i hne
        refine List.pairwise_cons.mpr ⟨fun x hx => ?_, ih hrest⟩
        rcases mem_insertInto.mp hx with rfl | hx
        · exact Reg.lt_of_not_lt_of_ne hlt hne
        · exact ha x hx

/-- Add a register. -/
def insert (s : RegSet) (r : Reg) : RegSet :=
  ⟨insertInto r s.toList, pairwise_insertInto s.ascending⟩

@[simp] theorem mem_insert {x r : Reg} {s : RegSet} : x ∈ s.insert r ↔ x = r ∨ x ∈ s :=
  mem_insertInto

/-- Keep the registers that satisfy `p`. -/
def filter (s : RegSet) (p : Reg → Bool) : RegSet :=
  ⟨s.toList.filter p, s.ascending.filter p⟩

@[simp] theorem mem_filter {x : Reg} {s : RegSet} {p : Reg → Bool} :
    x ∈ s.filter p ↔ x ∈ s ∧ p x = true :=
  List.mem_filter

/-- Take a register out. -/
def erase (s : RegSet) (r : Reg) : RegSet := s.filter (· ≠ r)

@[simp] theorem mem_erase {x r : Reg} {s : RegSet} : x ∈ s.erase r ↔ x ∈ s ∧ x ≠ r := by
  simp [erase]

/-- The set of the registers of a list. -/
def ofList (regs : List Reg) : RegSet := regs.foldl insert ∅

theorem mem_foldl_insert {x : Reg} {regs : List Reg} {s : RegSet} :
    x ∈ regs.foldl insert s ↔ x ∈ s ∨ x ∈ regs := by
  induction regs generalizing s with
  | nil => simp
  | cons r rest ih =>
    simp only [List.foldl_cons, ih, mem_insert, List.mem_cons]
    grind

@[simp] theorem mem_ofList {x : Reg} {regs : List Reg} : x ∈ ofList regs ↔ x ∈ regs := by
  simp [ofList, mem_foldl_insert]

/-- The registers of either set. -/
def union (s t : RegSet) : RegSet := t.toList.foldl insert s

instance : Union RegSet := ⟨union⟩

@[simp] theorem mem_union {x : Reg} {s t : RegSet} : x ∈ s ∪ t ↔ x ∈ s ∨ x ∈ t :=
  mem_foldl_insert

/-- The registers of `s` that are not in `t`. -/
def minus (s t : RegSet) : RegSet := s.filter (· ∉ t)

instance : SDiff RegSet := ⟨minus⟩

@[simp] theorem mem_sdiff {x : Reg} {s t : RegSet} : x ∈ s \ t ↔ x ∈ s ∧ x ∉ t := by
  show x ∈ s.filter _ ↔ _
  simp

/-- The registers of one bank. -/
def ofBank (s : RegSet) (bank : Bank) : RegSet := s.filter (·.bank = bank)

@[simp] theorem mem_ofBank {x : Reg} {s : RegSet} {bank : Bank} :
    x ∈ s.ofBank bank ↔ x ∈ s ∧ x.bank = bank := by
  simp [ofBank]

/-- The members in order, between braces, each written by `name`. -/
def textWith (name : Reg → String) (s : RegSet) : String :=
  "\x7b" ++ String.intercalate ", " (s.toList.map name) ++ "\x7d"

/-- The text of a set, e.g. `gpr0, vec2` between braces. -/
def text (s : RegSet) : String := s.textWith Reg.text

end RegSet

end TensorKernel
