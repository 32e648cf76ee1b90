/-!
# Live intervals

The closed span of execution positions over which a register holds a value that is still needed.
-/

namespace TensorKernel

/-- A span of execution positions, both ends included. -/
structure Interval where
  /-- First position. -/
  start : Int
  /-- Last position. -/
  stop : Int
deriving DecidableEq, Repr, Inhabited

namespace Interval

/-- Whether two intervals share a position; touching in one position counts. -/
def overlaps (a b : Interval) : Bool := a.start ≤ b.stop && b.start ≤ a.stop

/-- Whether a position lies in the interval. -/
def contains (a : Interval) (position : Int) : Bool := a.start ≤ position && position ≤ a.stop

/-- Order by start, then by stop. -/
protected def lt (a b : Interval) : Prop :=
  a.start < b.start ∨ (a.start = b.start ∧ a.stop < b.stop)

instance : LT Interval := ⟨Interval.lt⟩

instance (a b : Interval) : Decidable (a < b) := inferInstanceAs (Decidable (_ ∨ _))

theorem lt_iff {a b : Interval} :
    a < b ↔ a.start < b.start ∨ (a.start = b.start ∧ a.stop < b.stop) := Iff.rfl

/-- Three-way comparison by start, then by stop. -/
def order (a b : Interval) : Ordering :=
  if a < b then .lt else if b < a then .gt else .eq

/-- The text of an interval, e.g. `[3, 7]`. -/
def text (a : Interval) : String := s!"[{a.start}, {a.stop}]"

theorem overlaps_comm (a b : Interval) : a.overlaps b = b.overlaps a := by
  simp [overlaps, Bool.and_comm]

/-- Two intervals with ends in order overlap exactly when they have a common position. -/
theorem overlaps_iff_exists {a b : Interval} (ha : a.start ≤ a.stop) (hb : b.start ≤ b.stop) :
    a.overlaps b = true ↔ ∃ p, a.contains p = true ∧ b.contains p = true := by
  simp only [overlaps, contains, Bool.and_eq_true, decide_eq_true_eq]
  constructor
  · rintro ⟨h₁, h₂⟩
    exact ⟨max a.start b.start, by omega, by omega⟩
  · rintro ⟨p, h₁, h₂⟩
    omega

end Interval

end TensorKernel
