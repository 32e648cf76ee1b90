import TensorKernel.Program.Basic

/-!
# Shape chains

Expressions that only change the view of memory share the data pointer of their producer. From an
expression such a chain is followed forwards through first outputs, or backwards through first
inputs. An expression reads only values that were made before it, so a chain is never longer than
the number of expressions.
-/

namespace TensorKernel.Program

/-- The first consumer of the first output that only changes the view. -/
def nextView? (p : Program) (id : ExprId) : Option ExprId :=
  match (p.expr id).outputs with
  | [] => none
  | o :: _ => (o.uses.find? fun u => (p.expr u.consumer).role = .shapeInfer).map (·.consumer)

/-- The producer of the first input, if it only changes the view. -/
def prevView? (p : Program) (id : ExprId) : Option ExprId :=
  match (p.expr id).inputs with
  | [] => none
  | i :: _ => if (p.expr i.source.producer).role = .shapeInfer then some i.source.producer else none

/-- Follow `next` from `id` for at most `bound` steps. -/
def follow (next : ExprId → Option ExprId) : Nat → ExprId → List ExprId
  | 0, _ => []
  | bound + 1, id =>
    match next id with
    | none => []
    | some n => n :: follow next bound n

/-- The expressions that only change the view of the first output of `id`, nearest first. -/
def viewsAfter (p : Program) (id : ExprId) : List ExprId := follow p.nextView? p.exprs.size id

/-- The expressions through whose views the first input of `id` is seen, nearest first. -/
def viewsBefore (p : Program) (id : ExprId) : List ExprId := follow p.prevView? p.exprs.size id

end TensorKernel.Program
