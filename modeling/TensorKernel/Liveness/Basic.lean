import TensorKernel.Program.Basic
import TensorKernel.Register.Table

/-!
# Liveness

What is known about the lifetimes of the registers of a program: the interval over which each
register is live, and the set of registers that are live at each expression.
-/

namespace TensorKernel

/-- Live ranges of registers and live sets of expressions. -/
structure Liveness where
  /-- The interval of each register. -/
  ranges : RegTable Interval := ∅
  /-- The live set of each expression. -/
  sets : List (ExprId × RegSet) := []
deriving DecidableEq, Inhabited

namespace Liveness

/-- The live range of a register, which must have been set. -/
def range (l : Liveness) (r : Reg) : Except Fault Interval :=
  match l.ranges.get? r with
  | some range => .ok range
  | none => .error (.liveRangeMissing r)

/-- Record a live range. A second one for a register is taken only by force. -/
def setRange (l : Liveness) (r : Reg) (range : Interval) (force : Bool) : Except Fault Liveness :=
  if l.ranges.contains r ∧ !force then .error (.liveRangeSet r)
  else if range.stop < range.start then .error (.invalidRange r range)
  else .ok { l with ranges := l.ranges.insert r range }

/-- The live set of an expression, if it was recorded. -/
def set? (l : Liveness) (id : ExprId) : Option RegSet := l.sets.lookup id

/-- The live set of an expression, which must have been recorded; `name` is its name. -/
def liveSet (l : Liveness) (id : ExprId) (name : Label) : Except Fault RegSet :=
  match l.set? id with
  | some s => .ok s
  | none => .error (.liveSetMissing name)

/-- Replace the live set of an expression. -/
def putSet (l : Liveness) (id : ExprId) (s : RegSet) : Liveness :=
  { l with sets := (id, s) :: l.sets.filter (·.1 ≠ id) }

/-- Record a live set. A second one for an expression is taken only by force. -/
def setLiveSet (l : Liveness) (id : ExprId) (name : Label) (s : RegSet) (force : Bool) :
    Except Fault Liveness :=
  if (l.set? id).isSome ∧ !force then .error (.liveSetSet name) else .ok (l.putSet id s)

/-- A recorded live set is found again, and the others are as before. -/
theorem set?_putSet (l : Liveness) (id j : ExprId) (s : RegSet) :
    (l.putSet id s).set? j = if id = j then some s else l.set? j := by
  simp only [putSet, set?, List.lookup_cons]
  by_cases h : id = j
  · subst h
    simp
  · have hb : (j == id) = false := by simpa using fun h' => h h'.symm
    simp only [hb, h, if_false]
    induction l.sets with
    | nil => rfl
    | cons e rest ih =>
      obtain ⟨a, t⟩ := e
      by_cases ha : a = id
      · subst ha
        simp only [List.filter_cons, List.lookup_cons, hb]
        simpa using ih
      · simp only [List.filter_cons, List.lookup_cons]
        simp only [ne_eq, ha, not_false_eq_true, decide_true, if_true, List.lookup_cons, ih]

end Liveness

/-- A program with what is known about its liveness, the state that allocation works on. -/
structure Workspace where
  /-- The program. -/
  program : Program
  /-- Its live ranges and live sets. -/
  live : Liveness := {}
deriving DecidableEq, Inhabited

end TensorKernel
