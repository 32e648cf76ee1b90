import TensorKernel.Liveness.Basic
import TensorKernel.Program.Chain

/-!
# Computing live ranges

Every output gets an abstract register that its uses share, and the interval from its producer to its
last use. Data pointers of the kernel boundary are live throughout. A value that is used in a loop
which its producer is not in stays live to the end of the outermost such loop, since the body runs
again. The live set of an expression holds the registers that are live when it is reached.
-/

namespace TensorKernel

/-- The state of the computation. -/
structure RangeState extends Workspace where
  /-- How many registers of each bank were handed out. -/
  counts : Bank → Nat := fun _ => 0
  /-- The registers that are live at the current position, with their last positions. -/
  expiring : RegTable Int := ∅

/-- A step of the computation. -/
abbrev RangeStep (α : Type) := EStateM Fault RangeState α

namespace Program

/-- Check that the expressions are numbered in execution order. -/
def checkEnumerated (p : Program) : Except Fault Unit :=
  p.list.zipIdx.forM fun (e, i) =>
    if e.exec = i then .ok () else .error (.notEnumerated p.name e.name e.exec i)

/-- The position of the end marker of a loop; the last one if there are several. -/
def loopEnd? (p : Program) (id : LoopId) : Option Nat :=
  (p.list.zipIdx.filter fun (e, _) => e.role = .loopEnd ∧ e.loop = id).getLast?.map Prod.snd

/-- The end of the outermost loop that contains the consumer but not the producer. -/
def loopCarriedEnd? (p : Program) (producer consumer : Expr) : Option Nat :=
  (consumer.loops.find? fun id => !producer.loops.contains id).bind p.loopEnd?

/-- The last position up to which a use needs its value. -/
def useEnd (p : Program) (producer : Expr) (u : UseRef) : Int :=
  let consumer := p.expr u.consumer
  match p.loopCarriedEnd? producer consumer with
  | some stop => max consumer.exec stop
  | none => consumer.exec

/-- The last position up to which a value is needed. -/
def lastUse (p : Program) (v : ValueRef) : Int :=
  let producer := p.expr v.producer
  (p.uses v).foldl (fun stop u => max stop (p.useEnd producer u)) producer.exec

end Program

namespace RangeStep

/-- Hand out the next register of a bank. -/
def nextReg (bank : Bank) : RangeStep Reg := do
  let s ← get
  let n := s.counts bank
  set { s with counts := fun b => if b = bank then n + 1 else s.counts b }
  return ⟨bank, n⟩

/-- Give a register to values at their sources and uses. -/
def give (r : Reg) (values : List ValueRef) : RangeStep Unit :=
  modify fun s => { s with program := values.foldl (fun p v => p.setAbstract v r) s.program }

/-- Record the live range of a fresh register and keep it live to its end. -/
def record (r : Reg) (range : Interval) : RangeStep Unit := do
  let s ← get
  match s.live.setRange r range false with
  | .error fault => throw fault
  | .ok live => set { s with live, expiring := s.expiring.insert r range.stop }

/-- Record the registers that are live at an expression. -/
def recordLive (id : ExprId) (regs : RegSet) : RangeStep Unit := do
  let s ← get
  match s.live.setLiveSet id (s.program.expr id).name regs false with
  | .error fault => throw fault
  | .ok live => set { s with live }

/-- A question about the program that may be refused. -/
def ask {α : Type} (question : Program → Except Fault α) : RangeStep α := do
  match question (← get).program with
  | .ok a => pure a
  | .error fault => throw fault

/-- Give the values of a boundary pointer one register that is live throughout, unless the pointer
already has one. -/
def assignGlobal (values : List ValueRef) : RangeStep Unit := do
  let p := (← get).program
  match values with
  | [] => pure ()
  | first :: _ =>
    if !(p.abstractReg first).isDefined then
      let r ← nextReg .gpr
      give r (values.flatMap p.aliasGroup)
      record r ⟨0, p.length - 1⟩

/-- The pointer of a parameter: its first output, and the views of it. -/
def parameterPointer (id : ExprId) (p : Program) : Except Fault (List ValueRef) := do
  let first ← p.output id 0
  return first :: (← (p.viewsAfter id).mapM fun view => p.output view 0)

/-- The pointer of a result: what its first input reads, and what the views before it read. -/
def resultPointer (id : ExprId) (p : Program) : Except Fault (List ValueRef) := do
  let first ← p.input id 0
  return first :: (← (p.viewsBefore id).mapM fun view => p.input view 0)

/-- Assign the pointers of the kernel boundary. -/
def assignGlobals : RangeStep Unit := do
  let p := (← get).program
  p.parameters.forM fun id => do assignGlobal (← ask (parameterPointer id))
  p.results.forM fun id => do assignGlobal (← ask (resultPointer id))

/-- Give output `k` of an expression a register, unless it has one: it may be a boundary pointer, or
belong to an alias group that was met before. -/
def visitOutput (id : ExprId) (k : Nat) : RangeStep Unit := do
  let p := (← get).program
  let e := p.expr id
  if !(p.abstractReg ⟨id, k⟩).isDefined then
    if e.role.bank = .undefined then throw (.noRegisterType p.name k e.name)
    let r ← nextReg e.role.bank
    let group := p.aliasGroup ⟨id, k⟩
    give r group
    record r ⟨e.exec, group.foldl (fun stop v => max stop (p.lastUse v)) e.exec⟩

/-- Visit an expression in execution order. -/
def visit (id : ExprId) : RangeStep Unit := do
  let e := (← get).program.expr id
  if e.role = .loopEnd ∨ e.role = .result then recordLive id ∅
  else
    modify fun s => { s with expiring := s.expiring.filter fun _ stop => e.exec ≤ stop }
    recordLive id (← get).expiring.keySet
    (List.range e.outputs.length).forM (visitOutput id)

/-- The whole computation on a numbered program. -/
def computeRanges : RangeStep Unit := do
  ask (·.checkEnumerated)
  let p := (← get).program
  if p.order.isEmpty then return
  assignGlobals
  p.order.forM visit

end RangeStep

namespace Workspace

/-- Compute the live ranges and live sets of a numbered program and give its values abstract
registers. -/
def computeRanges : EStateM Fault Workspace Unit := fun w =>
  match RangeStep.computeRanges { w with } with
  | .ok () s => .ok () s.toWorkspace
  | .error fault s => .error fault s.toWorkspace

end Workspace

end TensorKernel
