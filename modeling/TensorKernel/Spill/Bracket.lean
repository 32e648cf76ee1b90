import TensorKernel.Liveness.Basic

/-!
# Spill brackets

A call that leaves the kernel is bracketed by two markers that save and restore the registers live at
the call. Inserting them moves the expressions behind them; the program is numbered again, and the
live ranges move with the expressions that they start and stop at.
-/

namespace TensorKernel

/-- The bracket around a call. -/
structure Bracket where
  /-- The marker that saves. -/
  opening : ExprId
  /-- The call. -/
  call : ExprId
  /-- The marker that restores. -/
  closing : ExprId
deriving DecidableEq, Repr, Inhabited

namespace Workspace

/-- Do a change to the program of the workspace. -/
def edit {α : Type} (change : Edit α) : EStateM Fault Workspace α := fun w =>
  match change w.program with
  | .ok a program => .ok a { w with program }
  | .error fault program => .error fault { w with program }

/-- Make a spill marker, inside the loops of the call. -/
def makeSpillMarker (kind base : String) (n : Nat) (regs : RegSet) (loops : List LoopId) :
    Edit ExprId :=
  Edit.change fun p =>
    let (name, p) := p.uniqueName (base ++ toString n)
    let (id, p) := p.makeOp name { kind, spilled := some regs } []
    (id, p.modifyExpr id fun e => { e with loops })

/-- Bracket the call that stands at `position`, as the `n`-th one. -/
def bracketCall (n position : Nat) (call : ExprId) : EStateM Fault Workspace Bracket := do
  let w ← get
  let e := w.program.expr call
  match w.live.set? call with
  | none => throw (.spillWithoutLiveSet w.program.name e.name)
  | some regs =>
    let opening ← edit (makeSpillMarker "RegSpillBegin" "reg_spill_begin_" n regs e.loops)
    let closing ← edit (makeSpillMarker "RegSpillEnd" "reg_spill_end_" n regs e.loops)
    edit (Edit.insertAt (position + 1) [closing])
    edit (Edit.insertAt position [opening])
    modify fun w => { w with live := (w.live.putSet opening regs).putSet closing regs }
    return ⟨opening, call, closing⟩

/-- Bracket the calls among expressions that are to come from position `position` on, as the `n`-th
and following ones. -/
def bracketCalls (n position : Nat) : List ExprId → EStateM Fault Workspace (List Bracket)
  | [] => return []
  | id :: rest => do
    if ((← get).program.expr id).role = .externalCall then
      let bracket ← bracketCall n position id
      return bracket :: (← bracketCalls (n + 1) (position + 3) rest)
    else bracketCalls n (position + 1) rest

/-- The number now given to the expression that stood at a position. -/
def movedTo (p : Program) (before : List ExprId) (position : Int) : Except Fault Int :=
  if position < 0 then .error .outOfBounds
  else match before[position.toNat]? with
    | some id => .ok (p.expr id).exec
    | none => .error .outOfBounds

/-- Make the live range of a register start and stop at the expressions that it did before. -/
def shiftRange (before : List ExprId) (entry : Reg × Interval) : EStateM Fault Workspace Unit := do
  let w ← get
  let moved : Except Fault Liveness := do
    let start ← movedTo w.program before entry.2.start
    let stop ← movedTo w.program before entry.2.stop
    w.live.setRange entry.1 ⟨start, stop⟩ true
  match moved with
  | .ok live => set { w with live }
  | .error fault => throw fault

/-- Bracket every call of the program and give the brackets in program order. -/
def insertSpills : EStateM Fault Workspace (List Bracket) := do
  let before := (← get).program.order
  let brackets ← bracketCalls 0 0 before
  modify fun w => { w with program := w.program.enumerate }
  if !brackets.isEmpty then
    (← get).live.ranges.entries.forM (shiftRange before)
  return brackets

end Workspace

end TensorKernel
