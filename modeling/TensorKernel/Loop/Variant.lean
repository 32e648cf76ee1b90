import TensorKernel.Loop.Basic

/-!
# Parts of a loop

A loop of some work and some step falls into a first step (if it is wanted and there is one), a body
of whole steps, and a tail for the remainder, whose step is the remainder itself.
-/

namespace TensorKernel

/-- A part of a loop: its kind, its work and its step. -/
structure Variant where
  /-- Which part of the loop this is. -/
  iteration : Iteration
  /-- The work it does. -/
  work : Int
  /-- The work of one of its iterations. -/
  increment : Int
deriving DecidableEq, Repr, Inhabited

namespace Variant

/-- The work of all whole steps in `work`. -/
def wholeSteps (work increment : Int) : Int := work / increment * increment

/-- The body and the tail of the work that is left behind the first step. -/
def bodyAndTail (work increment : Int) : List Variant :=
  let body := if increment ≤ work then [⟨.main, wholeSteps work increment, increment⟩] else []
  let rest := if increment ≤ work then work - wholeSteps work increment else work
  body ++ if 0 < rest then [⟨.last, rest, rest⟩] else []

/-- The parts of a loop in execution order. A loop without work keeps an empty body. -/
def parts (work increment : Int) (withFirst : Bool) : List Variant :=
  let first := withFirst ∧ increment ≤ work
  let parts :=
    (if first then [⟨.first, increment, increment⟩] else []) ++
      bodyAndTail (if first then work - increment else work) increment
  if parts.isEmpty then [⟨.main, 0, increment⟩] else parts

/-- The parts of a loop; its step must be positive. -/
def split (work increment : Int) (withFirst : Bool) : Except Fault (List Variant) :=
  if increment ≤ 0 then .error (.variantIncrement increment)
  else .ok (parts work increment withFirst)

end Variant

end TensorKernel
