import TensorKernel.Loop.Basic
import TensorKernel.Program.Slots

/-!
# Programs

A program is a list of expressions in execution order, with its loops. It owns every expression that
was ever made for it, also those that are not, or not yet, in the list: a number given to an
expression stays valid, and expressions outside the list may use values of those inside.

Changes that can fail keep what was done before the failure, so they are written in the monad
`Edit`, whose failures carry the program as it is at that moment.
-/

namespace TensorKernel

/-- A kernel as a list of expressions with loops. -/
structure Program where
  /-- The name of the kernel. -/
  name : Label
  /-- Every expression made so far, by number. -/
  exprs : Array Expr := #[]
  /-- The expressions of the program, in execution order. -/
  order : List ExprId := []
  /-- The names in use. -/
  names : List (Label × ExprId) := []
  /-- The loops. -/
  loops : LoopTable := {}
  /-- The last number that was attached to a generated name. -/
  serial : Nat := 0
  /-- The number of slots for expressions in execution order, filled or free. -/
  slots : Nat := 0
deriving DecidableEq, Inhabited

/-- A change to a program that may be refused. A refusal keeps the changes made before it. -/
abbrev Edit (α : Type) := EStateM Fault Program α

namespace Program

/-- The number of expressions in the program. -/
def length (p : Program) : Nat := p.order.length

/-- The expression with a number. -/
def expr (p : Program) (id : ExprId) : Expr := p.exprs.getD id default

/-- The expressions of the program, in execution order. -/
def list (p : Program) : List Expr := p.order.map p.expr

/-- Change one expression. -/
def modifyExpr (p : Program) (id : ExprId) (f : Expr → Expr) : Program :=
  { p with exprs := p.exprs.modify id f }

/-- Changing one expression changes no other. -/
theorem expr_modifyExpr (p : Program) (id j : ExprId) (f : Expr → Expr) :
    (p.modifyExpr id f).expr j =
      if id = j ∧ j < p.exprs.size then f (p.expr j) else p.expr j := by
  simp only [modifyExpr, expr, Array.getD_eq_getD_getElem?, Array.getElem?_modify]
  by_cases h : id = j
  · subst h
    by_cases hs : id < p.exprs.size
    · simp [hs]
    · simp [hs]
  · simp [h]

/-- The output that a value is. -/
def output? (p : Program) (v : ValueRef) : Option Output := (p.expr v.producer).outputs[v.output]?

/-- Change the output that a value is. -/
def modifyOutput (p : Program) (v : ValueRef) (f : Output → Output) : Program :=
  p.modifyExpr v.producer (·.mapOutput v.output f)

/-- The uses of a value, oldest first. -/
def uses (p : Program) (v : ValueRef) : List UseRef :=
  match p.output? v with
  | some o => o.uses
  | none => []

/-- The shape of a value at its source. -/
def shape (p : Program) (v : ValueRef) : List Int :=
  match p.output? v with
  | some o => o.port.shape
  | none => []

/-- The abstract register of a value at its source. -/
def abstractReg (p : Program) (v : ValueRef) : Reg :=
  match p.output? v with
  | some o => o.port.abstract
  | none => .unassigned

/-- The root of the alias group of a value. -/
def root (p : Program) (v : ValueRef) : ValueRef :=
  match p.output? v with
  | some o => o.root.getD v
  | none => v

/-- The alias group of a value, root first. -/
def aliasGroup (p : Program) (v : ValueRef) : List ValueRef :=
  let root := p.root v
  root :: match p.output? root with
    | some o => o.aliases
    | none => []

/-- The number of the expression with a name. -/
def find? (p : Program) (name : Label) : Option ExprId := p.names.lookup name

/-- The position of an expression in the program. -/
def indexOf? (p : Program) (id : ExprId) : Option Nat := p.order.idxOf? id

/-- The expressions of a role, in execution order. -/
def ofRole (p : Program) (role : Role) : List ExprId := p.order.filter fun id => (p.expr id).role = role

/-- The parameters of the kernel. -/
def parameters (p : Program) : List ExprId := p.ofRole .parameter

/-- The results of the kernel. -/
def results (p : Program) : List ExprId := p.ofRole .result

/-- The buffers of the kernel. -/
def buffers (p : Program) : List ExprId := p.ofRole .buffer

/-- Output `k` of an expression as a value. -/
def output (p : Program) (id : ExprId) (k : Int) : Except Fault ValueRef :=
  let e := p.expr id
  if 0 ≤ k ∧ k < e.outputs.length then .ok ⟨id, k.toNat⟩
  else .error (.noOutput e.name k e.outputs.length)

/-- The value read by input `k` of an expression. -/
def input (p : Program) (id : ExprId) (k : Int) : Except Fault ValueRef :=
  let e := p.expr id
  let missing := Fault.noInput e.name k e.inputs.length
  if 0 ≤ k then
    match e.inputs[k.toNat]? with
    | some i => .ok i.source
    | none => .error missing
  else .error missing

/-- The value at a port. -/
def value (p : Program) (r : PortRef) : Except Fault ValueRef :=
  match r.side with
  | .output => p.output r.expr r.index
  | .input => p.input r.expr r.index

/-- The state of a port. -/
def port (p : Program) (r : PortRef) : Except Fault Port :=
  let e := p.expr r.expr
  let (found, missing) := match r.side with
    | .output => ((e.outputs[r.index.toNat]?).map (·.port),
        Fault.noOutputPort e.name r.index e.outputs.length)
    | .input => ((e.inputs[r.index.toNat]?).map (·.port),
        Fault.noInputPort e.name r.index e.inputs.length)
  if 0 ≤ r.index then
    match found with
    | some port => .ok port
    | none => .error missing
  else .error missing

/-- Change the state of a port. -/
def modifyPort (p : Program) (r : PortRef) (f : Port → Port) : Program :=
  p.modifyExpr r.expr fun e =>
    match r.side with
    | .output => e.mapOutputPort r.index.toNat f
    | .input => e.mapInputPort r.index.toNat f

/-- Give a value an abstract register at its source and at all its uses. -/
def setAbstract (p : Program) (v : ValueRef) (r : Reg) : Program :=
  (p.uses v).foldl (fun p u => p.modifyExpr u.consumer (·.mapInputPort u.input (.setAbstract r)))
    (p.modifyExpr v.producer (·.mapOutputPort v.output (.setAbstract r)))

/-- Make a list that has grown the list of expressions. -/
def extend (p : Program) (order : List ExprId) : Program :=
  { p with order, slots := Slots.grow p.slots order.length }

/-- There is a slot for every expression of a list that has grown. -/
theorem length_le_slots_extend (p : Program) (order : List ExprId) :
    (p.extend order).length ≤ (p.extend order).slots :=
  Slots.le_grow ..

/-- Enter a use behind the earlier uses of a value. -/
def addUse (p : Program) (v : ValueRef) (u : UseRef) : Program :=
  p.modifyOutput v fun o => { o with uses := o.uses ++ [u] }

/-- Drop a use of a value. -/
def removeUse (p : Program) (v : ValueRef) (u : UseRef) : Program :=
  p.modifyOutput v fun o => { o with uses := o.uses.filter (· ≠ u) }

/-- Give an expression the next number and enter it among the uses of its inputs. It is not put into
the program. -/
def make (p : Program) (e : Expr) : ExprId × Program :=
  let id := p.exprs.size
  (id, e.inputs.zipIdx.foldl (fun p (input, k) => p.addUse input.source ⟨id, k⟩)
    { p with exprs := p.exprs.push e })

/-- An input that reads a value, seeing it in the shape it has at its source. -/
def inputOf (p : Program) (v : ValueRef) : Input := { source := v, port := { shape := p.shape v } }

/-- Make an expression that does `op` on the given values. -/
def makeOp (p : Program) (name : Label) (op : Op) (inputs : List ValueRef) : ExprId × Program :=
  p.make (op.expr name (inputs.map p.inputOf))

/-- Make `v` an alias of the value that `w` is an alias of, or of `w` itself. A value that heads an
alias group is not made an alias of itself. -/
def join (p : Program) (v w : ValueRef) : Program :=
  let root := p.root w
  if root = v then p
  else (p.modifyOutput v fun o => { o with root := some root }).modifyOutput root
    fun o => { o with aliases := o.aliases ++ [v] }

/-- Whether a name is in use. -/
def isUsed (p : Program) (name : Label) : Bool := (p.find? name).isSome

/-- A name derived from `base` by a number. -/
def numbered (base : Label) (n : Nat) : Label := base ++ Label.ofString ("_" ++ toString n)

/-- The first number above the last one whose derived name is free. Among one more numbers than there
are names in use, one is free. -/
def nextSerial (p : Program) (base : Label) : Nat :=
  ((List.range' (p.serial + 1) (p.names.length + 1)).find?
    fun n => !p.isUsed (numbered base n)).getD (p.serial + p.names.length + 1)

/-- A name that no expression uses: `base` itself if it is free, otherwise `base` with the next
number that gives a free name. -/
def uniqueName (p : Program) (base : Label) : Label × Program :=
  if p.isUsed base then
    let n := p.nextSerial base
    (numbered base n, { p with serial := n })
  else (base, p)

/-- Number the expressions in execution order. -/
def enumerate (p : Program) : Program :=
  p.order.zipIdx.foldl (fun p (id, i) => p.modifyExpr id fun e => { e with position := some i }) p

/-- Register a loop around the expressions at positions from `begin` up to `stop`, the latter not
included: its id is appended to the loops of each of them. -/
def enclose (p : Program) (begin stop : Nat) (loop : UnifiedLoop) : LoopId × Program :=
  let (id, loops) := p.loops.addUnified loop
  (id, ((p.order.take stop).drop begin).foldl
    (fun p e => p.modifyExpr e fun e => { e with loops := e.loops ++ [id] }) { p with loops })

/-- The positions of the markers of a loop: the last expression of each kind that belongs to it, the
begin not behind the end. -/
def loopBounds (p : Program) (id : LoopId) : Except Fault (Nat × Nat) :=
  let marker (role : Role) := (p.list.zipIdx.filter
    fun (e, _) => e.loop = id ∧ e.role = role).getLast?.map Prod.snd
  match marker .loopBegin, marker .loopEnd with
  | some b, some e => if b ≤ e then .ok (b, e) else .error (.markersNotFound id)
  | _, _ => .error (.markersNotFound id)

/-- The loops around a loop, outermost first. -/
def outerLoops (p : Program) (id : LoopId) : Except Fault (List LoopId) := do
  let (b, _) ← p.loopBounds id
  match p.list[b]? with
  | some e => .ok e.loops
  | none => .error .outOfBounds

/-- The number of loops around a loop. -/
def depth (p : Program) (id : LoopId) : Except Fault Nat := do
  return (← p.outerLoops id).length

end Program

namespace Edit

open Program

/-- A question about the program that may be refused. -/
def ask {α : Type} (question : Program → Except Fault α) : Edit α := do
  match question (← get) with
  | .ok a => pure a
  | .error fault => throw fault

/-- A change that also gives an answer and cannot be refused. -/
def change {α : Type} (f : Program → α × Program) : Edit α := modifyGet f

/-- Make an expression that does `op` on the given values, of which some may be missing. At the first
missing one the expression is abandoned, but the uses before it stay. -/
def makeOp (name : Label) (op : Op) (inputs : List (Option ValueRef)) : Edit ExprId := do
  let present := (inputs.takeWhile Option.isSome).filterMap id
  if present.length = inputs.length then
    change fun p => p.makeOp name op present
  else
    let _ ← change fun p => p.makeOp name { op with outputs := 0 } present
    throw (.missingInput name present.length)

/-- Enter the name of an expression; it must be free. -/
def register (id : ExprId) : Edit Unit := do
  let p ← get
  let name := (p.expr id).name
  if p.isUsed name then throw (.duplicateName p.name name)
  set { p with names := (name, id) :: p.names }

/-- Put expressions at the end of the program. -/
def append (ids : List ExprId) : Edit Unit := do
  ids.forM register
  modify fun p => p.extend (p.order ++ ids)

/-- Put expressions into the program so that the first of them comes to stand at `position`. -/
def insertAt (position : Int) (ids : List ExprId) : Edit Unit := do
  let p ← get
  if position < 0 ∨ (p.length : Int) < position then
    throw (.insertPosition p.name position p.length)
  ids.forM register
  modify fun p => p.extend (p.order.take position.toNat ++ ids ++ p.order.drop position.toNat)

/-- Make an expression and put it at the end of the program. -/
def add (name : Label) (op : Op) (inputs : List (Option ValueRef)) : Edit ExprId := do
  let id ← makeOp name op inputs
  append [id]
  return id

/-- Make `v` an alias of `w`. A value that already belongs to an alias group cannot be made one. -/
def join (v w : ValueRef) : Edit Unit := do
  let p ← get
  if let some o := p.output? v then
    if o.root.isSome ∨ !o.aliases.isEmpty then
      throw (.alreadyAliased (p.expr v.producer).name (p.expr w.producer).name)
  set (p.join v w)

/-- Register a loop around the expressions of a range, which must not be empty, and give its id. -/
def markLoop (begin stop : Int) (loop : UnifiedLoop) : Edit LoopId := do
  let p ← get
  if begin < 0 ∨ (p.length : Int) < stop ∨ stop ≤ begin then
    throw (.loopRange begin stop p.length)
  change fun p => p.enclose begin.toNat stop.toNat loop

end Edit

end TensorKernel
