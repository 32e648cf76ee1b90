/-!
# Sorting

A list is sorted by inserting its items one after the other. Items that are equal in the order keep
their places relative to each other.
-/

namespace TensorKernel

variable {α : Type}

/-- Put an item before the first one that it may precede. -/
def insertBy (le : α → α → Bool) (a : α) : List α → List α
  | [] => [a]
  | b :: rest => if le a b then a :: b :: rest else b :: insertBy le a rest

/-- Sort a list by an order. -/
def sortBy (le : α → α → Bool) : List α → List α
  | [] => []
  | a :: rest => insertBy le a (sortBy le rest)

theorem insertBy_perm (le : α → α → Bool) (a : α) (l : List α) : (insertBy le a l).Perm (a :: l) := by
  induction l with
  | nil => exact .refl _
  | cons b rest ih =>
    unfold insertBy
    split
    · exact .refl _
    · exact (ih.cons b).trans (.swap a b rest)

/-- Sorting only changes the order. -/
theorem sortBy_perm (le : α → α → Bool) (l : List α) : (sortBy le l).Perm l := by
  induction l with
  | nil => exact .refl _
  | cons a rest ih => exact (insertBy_perm le a _).trans (ih.cons a)

/-- The sorted list follows the order, if the order is transitive and total. -/
theorem pairwise_sortBy {le : α → α → Bool} (trans : ∀ a b c, le a b → le b c → le a c)
    (total : ∀ a b, le a b || le b a) (l : List α) : (sortBy le l).Pairwise (le · ·) := by
  induction l with
  | nil => exact .nil
  | cons a rest ih =>
    show (insertBy le a (sortBy le rest)).Pairwise _
    generalize sortBy le rest = l at ih
    induction l with
    | nil => exact List.pairwise_singleton ..
    | cons b l ihl =>
      obtain ⟨hb, hl⟩ := List.pairwise_cons.mp ih
      unfold insertBy
      split
      · rename_i hab
        refine List.pairwise_cons.mpr ⟨fun c hc => ?_, ih⟩
        rcases List.mem_cons.mp hc with rfl | hc
        · exact hab
        · exact trans a b c hab (hb c hc)
      · rename_i hab
        refine List.pairwise_cons.mpr ⟨fun c hc => ?_, ihl hl⟩
        rcases List.mem_cons.mp ((insertBy_perm le a l).mem_iff.mp hc) with rfl | hc
        · simpa [hab] using total c b
        · exact hb c hc

end TensorKernel
