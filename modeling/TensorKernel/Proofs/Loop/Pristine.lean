import TensorKernel.Proofs.Loop.SplitRun
import TensorKernel.Proofs.Program.Links

/-!
# Programs before their loops are split

Until loops are split, no expression is a copy of another one, ids are given to loops one after the
other, and all loops are whole. Making expressions, putting them into the program and registering
loops keep this; the expressions that were there keep their headers and what they read.
-/

namespace TensorKernel

/-- The usual number of outputs: none for results and ends of loops, and one otherwise. -/
def Role.usualOutputs (role : Role) : Nat := if role = .result ∨ role = .loopEnd then 0 else 1

namespace Program

/-- A program in which nothing was copied and no loop was split. -/
structure Pristine (p : Program) : Prop where
  /-- The program is tidy. -/
  tidy : p.Tidy
  /-- It is wired. -/
  wired : p.Wired
  /-- No expression is a copy. -/
  original : ∀ x, (p.expr x).origin = none
  /-- No value shares its register. -/
  alone : ∀ v, p.aliasGroup v = [v]
  /-- The loops are numbered through. -/
  ids : p.loops.ids = (List.range p.loops.next).map fun k : Nat => (k : Int)
  /-- They are whole. -/
  whole : ∀ id b, p.loops.binding? id = some b →
    ∃ place, b = .unified place ∧ (p.loops.unifiedAt place).Splittable
  /-- Only registered loops are referred to, and the first one by default. -/
  known : ∀ x, (p.expr x).loop = 0 ∨ (p.expr x).loop ∈ p.loops.ids

/-- The expressions of a program go on to have the same headers and to read the same values. -/
structure Extends (p q : Program) : Prop where
  /-- No expression goes away. -/
  size : p.exprs.size ≤ q.exprs.size
  /-- Headers stay. -/
  header : ∀ x : Nat, x < p.exprs.size → (q.expr x).header = (p.expr x).header
  /-- What is read stays. -/
  inputs : ∀ x : Nat, x < p.exprs.size → (q.expr x).inputs = (p.expr x).inputs

variable {p q r : Program}

theorem Extends.refl (p : Program) : p.Extends p := ⟨Nat.le_refl _, fun _ _ => rfl, fun _ _ => rfl⟩

theorem Extends.trans (h : p.Extends q) (h' : q.Extends r) : p.Extends r where
  size := Nat.le_trans h.size h'.size
  header x hx := (h'.header x (Nat.lt_of_lt_of_le hx h.size)).trans (h.header x hx)
  inputs x hx := (h'.inputs x (Nat.lt_of_lt_of_le hx h.size)).trans (h.inputs x hx)

namespace Pristine

/-- The loops of a pristine program are tidy. -/
theorem table (h : p.Pristine) : p.loops.Tidy where
  nodup := by
    rw [h.ids]
    exact List.nodup_range.map fun _ _ he => Int.ofNat.inj he
  below id hid := by
    rw [h.ids, List.mem_map] at hid
    obtain ⟨k, hk, rfl⟩ := hid
    exact Int.ofNat_lt.mpr (List.mem_range.mp hk)

/-- Any two states with the same expressions, list and loops are pristine together. -/
theorem congr (h : p.Pristine) (htidy : q.Tidy) (hexprs : q.exprs = p.exprs)
    (hloops : q.loops = p.loops) : q.Pristine := by
  have hexpr : ∀ x, q.expr x = p.expr x := fun x => by rw [expr, hexprs, expr]
  have houtput : ∀ v, q.output? v = p.output? v := fun v => by rw [output?, hexpr, output?]
  refine ⟨htidy, h.wired.of_ports houtput fun x => by rw [hexpr], fun x => by rw [hexpr, h.original],
    fun v => (aliasGroup_of_output? houtput v).trans (h.alone v), by rw [hloops, h.ids],
    by rw [hloops]; exact h.whole, fun x => ?_⟩
  rw [hexpr, hloops]
  exact h.known x

end Pristine

/-- The program with one more expression is tidy; the expression is not in it yet. -/
theorem Tidy.make (h : p.Tidy) (e : Expr) : (p.make e).2.Tidy := by
  have hr := p.rewired_make e
  have horder : (p.make e).2.order = p.order := by rw [hr.rest]
  have hnames : (p.make e).2.names = p.names := by rw [hr.rest]
  have hslots : (p.make e).2.slots = p.slots := by rw [hr.rest]
  refine ⟨fun id hid => ?_, horder ▸ h.nodup, fun id hid => ?_, ?_⟩
  · rw [horder] at hid
    rw [hr.size, Array.size_push]
    exact Nat.lt_succ_of_lt (h.valid id hid)
  · rw [horder] at hid
    have hname := Expr.name_of_header (hr.header id)
    rw [expr_push, if_neg (Nat.ne_of_lt (h.valid id hid))] at hname
    rw [hname, isUsed, find?, hnames]
    exact h.named id hid
  · rw [length, horder, hslots]
    exact h.room

/-- Every expression has a role with a meaning and the usual number of outputs. -/
def UsualOutputs (p : Program) : Prop :=
  ∀ x : Nat, x < p.exprs.size → (p.expr x).role ≠ .unnamed ∧
    ∀ k, p.HasValue ⟨x, k⟩ ↔ k < (p.expr x).role.usualOutputs

/-- One more expression with the usual number of outputs. -/
theorem UsualOutputs.add (h : p.UsualOutputs) (size : q.exprs.size = p.exprs.size + 1)
    (header : ∀ x : Nat, x < p.exprs.size → (q.expr x).header = (p.expr x).header) {n : Nat}
    (values : ∀ v, q.HasValue v ↔ if v.producer = p.exprs.size then v.output < n else p.HasValue v)
    (known : (q.expr p.exprs.size).role ≠ .unnamed)
    (usual : n = (q.expr p.exprs.size).role.usualOutputs) : q.UsualOutputs := by
  intro x hx
  rcases Nat.lt_or_eq_of_le (Nat.le_of_lt_succ (size ▸ hx)) with hlt | rfl
  · obtain ⟨hrole, hvalues⟩ := h x hlt
    rw [Expr.role_of_header (header x hlt)]
    refine ⟨hrole, fun k => ?_⟩
    rw [values, if_neg (Nat.ne_of_lt hlt), hvalues]
  · refine ⟨known, fun k => ?_⟩
    rw [values, if_pos rfl, usual]

/-- Making an expression leaves the earlier ones as they are. -/
theorem extends_make (p : Program) (e : Expr) : p.Extends (p.make e).2 := by
  have hr := p.rewired_make e
  refine ⟨?_, fun x hx => ?_, fun x hx => ?_⟩
  · rw [hr.size, Array.size_push]
    exact Nat.le_succ _
  · rw [hr.header, expr_push, if_neg (Nat.ne_of_lt hx)]
  · rw [inputs_make, if_neg (Nat.ne_of_lt hx)]

/-- Making an expression that is no copy and belongs to a registered loop, if any. -/
theorem Pristine.make (h : p.Pristine) {e : Expr} (he : e.Unused)
    (hsrc : ∀ i ∈ e.inputs, p.HasValue i.source) (horigin : e.origin = none)
    (hloop : e.loop = 0 ∨ e.loop ∈ p.loops.ids) : (p.make e).2.Pristine := by
  have hr := p.rewired_make e
  have hloops : (p.make e).2.loops = p.loops := by rw [hr.rest]
  have hmade := h.wired.make he hsrc
  refine ⟨h.tidy.make e, hmade.wired, fun x => ?_, fun v => (hmade.groups v).trans (h.alone v),
    hloops ▸ h.ids, hloops ▸ h.whole, fun x => ?_⟩
  · rw [Expr.origin_of_header (hr.header x), expr_push]
    split
    · exact horigin
    · exact h.original x
  · rw [Expr.loop_of_header (hr.header x), expr_push, hloops]
    split
    · exact hloop
    · exact h.known x

/-- An operation on values has no registers and no uses. -/
theorem unused_makeOp (p : Program) (name : Label) (op : Op) (inputs : List ValueRef) :
    (op.expr name (inputs.map p.inputOf)).Unused where
  inputs i hi := by
    obtain ⟨v, _, rfl⟩ := List.mem_map.mp hi
    rfl
  outputs o ho := by
    rw [(List.mem_replicate.mp ho).2]
    rfl

/-- Making an operation on values of the program. -/
theorem Pristine.makeOp (h : p.Pristine) (name : Label) {op : Op} {inputs : List ValueRef}
    (hin : ∀ v ∈ inputs, p.HasValue v) (hloop : op.loop = 0 ∨ op.loop ∈ p.loops.ids) :
    (p.makeOp name op inputs).2.Pristine := by
  refine h.make (p.unused_makeOp name op inputs) (fun i hi => ?_) rfl hloop
  obtain ⟨v, hv, rfl⟩ := List.mem_map.mp hi
  exact hin v hv

/-- Putting new expressions into the program. -/
theorem Pristine.insert (h : p.Pristine) {left right ids : List ExprId}
    (order : p.order = left ++ right) (valid : ∀ id ∈ ids, id < p.exprs.size) (nodup : ids.Nodup)
    (new : ∀ id ∈ ids, id ∉ p.order) :
    ((p.enterNames ids).extend (left ++ ids ++ right)).Pristine :=
  h.congr (h.tidy.insertAt order valid nodup new) rfl rfl

end Program

end TensorKernel
