import TensorKernel.Program.Clone
import TensorKernel.Proofs.Outcome
import TensorKernel.Proofs.Program.Names

/-!
# Expressions without their ports

The header of an expression is all of it but its ports: name, role, loops and origin. Entering uses
and joining alias groups changes ports only. A program is tidy when its expressions exist, are
different and have entered their names, and when there is a slot for each of them.
-/

namespace TensorKernel

open Outcome

variable {name : Label} {ids left right : List ExprId} {p q : Program} {α : Type}

namespace Expr

/-- An expression without its ports. -/
def header (e : Expr) : Expr := { e with inputs := [], outputs := [] }

@[simp] theorem header_name (e : Expr) : e.header.name = e.name := rfl

@[simp] theorem header_role (e : Expr) : e.header.role = e.role := rfl

@[simp] theorem header_loop (e : Expr) : e.header.loop = e.loop := rfl

@[simp] theorem header_loops (e : Expr) : e.header.loops = e.loops := rfl

@[simp] theorem header_group (e : Expr) : e.header.group = e.group := rfl

@[simp] theorem header_origin (e : Expr) : e.header.origin = e.origin := rfl

section OfHeader

variable {a b : Expr} (h : a.header = b.header)

include h

theorem name_of_header : a.name = b.name := by rw [← header_name, h, header_name]

theorem role_of_header : a.role = b.role := by rw [← header_role, h, header_role]

theorem loop_of_header : a.loop = b.loop := by rw [← header_loop, h, header_loop]

theorem loops_of_header : a.loops = b.loops := by rw [← header_loops, h, header_loops]

theorem group_of_header : a.group = b.group := by rw [← header_group, h, header_group]

theorem origin_of_header : a.origin = b.origin := by rw [← header_origin, h, header_origin]

end OfHeader

end Expr

namespace Program

/-- Only ports differ between two programs. -/
structure Rewired (p q : Program) : Prop where
  /-- Nothing but expressions changed. -/
  rest : q = { p with exprs := q.exprs }
  /-- No expression came or went. -/
  size : q.exprs.size = p.exprs.size
  /-- Of the expressions nothing but ports changed. -/
  header : ∀ id, (q.expr id).header = (p.expr id).header

namespace Rewired

variable {r : Program}

theorem refl (p : Program) : p.Rewired p := ⟨rfl, rfl, fun _ => rfl⟩

theorem trans (h : p.Rewired q) (h' : q.Rewired r) : p.Rewired r where
  rest := by rw [h'.rest, h.rest]
  size := h'.size.trans h.size
  header id := (h'.header id).trans (h.header id)

/-- Steps that change ports only change ports only together. -/
theorem foldl {f : Program → α → Program} (hf : ∀ (p : Program) a, p.Rewired (f p a)) (p : Program)
    (l : List α) : p.Rewired (l.foldl f p) := by
  induction l generalizing p with
  | nil => exact refl p
  | cons a l ih => exact (hf p a).trans (ih _)

end Rewired

/-- Changing the ports of one expression. -/
theorem rewired_modifyExpr (p : Program) (id : ExprId) {f : Expr → Expr}
    (hf : ∀ e, (f e).header = e.header) : p.Rewired (p.modifyExpr id f) where
  rest := rfl
  size := by simp [modifyExpr]
  header j := by
    rw [expr_modifyExpr]
    split
    · exact hf _
    · rfl

theorem rewired_modifyOutput (p : Program) (v : ValueRef) (f : Output → Output) :
    p.Rewired (p.modifyOutput v f) :=
  p.rewired_modifyExpr v.producer fun _ => rfl

theorem rewired_join (p : Program) (v w : ValueRef) : p.Rewired (p.join v w) := by
  unfold join
  dsimp only
  split
  · exact .refl p
  · exact (p.rewired_modifyOutput v _).trans (rewired_modifyOutput _ _ _)

theorem rewired_joinUsedOutside (p : Program) (inside : List ExprId) (id copy : ExprId) :
    p.Rewired (p.joinUsedOutside inside id copy) := by
  unfold joinUsedOutside
  refine Rewired.foldl (fun p k => ?_) p _
  split
  · exact p.rewired_join _ _
  · exact .refl p

/-- A new expression comes last; the others keep their headers. -/
theorem rewired_make (p : Program) (e : Expr) :
    { p with exprs := p.exprs.push e }.Rewired (p.make e).2 :=
  Rewired.foldl (fun p _ => p.rewired_modifyOutput _ _) _ _

theorem expr_push (p : Program) (e : Expr) (id : ExprId) :
    ({ p with exprs := p.exprs.push e } : Program).expr id =
      if id = p.exprs.size then e else p.expr id := by
  simp only [expr, Array.getD_eq_getD_getElem?, Array.getElem?_push]
  split <;> rfl

/-- A program is tidy when its list of expressions, the names in use and the slots fit together. -/
structure Tidy (p : Program) : Prop where
  /-- The expressions of the program exist. -/
  valid : ∀ id : Nat, id ∈ p.order → id < p.exprs.size
  /-- They are different. -/
  nodup : p.order.Nodup
  /-- Their names are in use. -/
  named : ∀ id ∈ p.order, p.isUsed (p.expr id).name = true
  /-- There are slots for them. -/
  room : p.length ≤ p.slots

/-- A question that is answered leaves the program as it is. -/
theorem ask_eq_ok {question : Program → Except Fault α} {a : α} :
    Edit.ask question p = .ok a q ↔ question p = .ok a ∧ p = q := by
  unfold Edit.ask
  rw [bind_eq_ok]
  constructor
  · rintro ⟨_, _, hget, h⟩
    obtain ⟨rfl, rfl⟩ := get_eq_ok.mp hget
    cases hq : question p with
    | ok b =>
      rw [hq] at h
      obtain ⟨rfl, rfl⟩ := pure_eq_ok.mp h
      exact ⟨rfl, rfl⟩
    | error fault =>
      rw [hq] at h
      exact absurd h throw_ne_ok
  · rintro ⟨h, rfl⟩
    exact ⟨p, p, rfl, by rw [h]; rfl⟩

/-- A change gives its answer and its program. -/
theorem change_eq_ok {f : Program → α × Program} {a : α} :
    Edit.change f p = .ok a q ↔ (f p).1 = a ∧ (f p).2 = q :=
  modifyGet_eq_ok.trans Prod.ext_iff

/-- An answer is given, and the next step goes on with it. -/
theorem ask_bind_eq_ok {β : Type} {question : Program → Except Fault α} {f : α → Edit β} {b : β} :
    (Edit.ask question >>= f) p = .ok b q ↔ ∃ a, question p = .ok a ∧ f a p = .ok b q := by
  simp only [bind_eq_ok, ask_eq_ok]
  constructor
  · rintro ⟨a, _, ⟨ha, rfl⟩, h⟩
    exact ⟨a, ha, h⟩
  · rintro ⟨a, ha, h⟩
    exact ⟨a, p, ⟨ha, rfl⟩, h⟩

/-- A program with the names of some expressions entered. -/
def enterNames (p : Program) (ids : List ExprId) : Program :=
  { p with names := (ids.map fun id => ((p.expr id).name, id)).reverse ++ p.names }

@[simp] theorem expr_enterNames (p : Program) (ids : List ExprId) (id : ExprId) :
    (p.enterNames ids).expr id = p.expr id := rfl

theorem isUsed_enterNames :
    (p.enterNames ids).isUsed name = true ↔
      name ∈ ids.map (fun id => (p.expr id).name) ∨ p.isUsed name = true := by
  rw [isUsed_iff, isUsed_iff, enterNames, List.map_append, List.mem_append, List.map_reverse,
    List.mem_reverse, List.map_map]
  rfl

/-- Names that are free and different can be entered. -/
theorem forM_register (free : ∀ id ∈ ids, p.isUsed (p.expr id).name = false)
    (nodup : (ids.map fun id => (p.expr id).name).Nodup) :
    ids.forM Edit.register p = .ok ⟨⟩ (p.enterNames ids) := by
  induction ids generalizing p with
  | nil => rfl
  | cons id ids ih =>
    obtain ⟨hid, hids⟩ := List.nodup_cons.mp nodup
    have hfirst : Edit.register id p = .ok ⟨⟩ (p.enterNames [id]) := by
      unfold Edit.register
      refine bind_eq_ok.mpr ⟨p, p, rfl, ?_⟩
      dsimp only
      rw [free id (by simp)]
      rfl
    have hrest : ids.forM Edit.register (p.enterNames [id]) =
        .ok ⟨⟩ ((p.enterNames [id]).enterNames ids) := by
      refine ih (fun e he => Bool.eq_false_iff.mpr fun hu => ?_) hids
      rw [expr_enterNames, isUsed_enterNames, free e (List.mem_cons_of_mem _ he)] at hu
      rcases hu with hmem | hold
      · refine hid (List.mem_map.mpr ⟨e, he, ?_⟩)
        simpa using hmem
      · cases hold
    refine bind_eq_ok.mpr ⟨⟨⟩, _, hfirst, hrest.trans ?_⟩
    simp only [enterNames, List.map_cons, List.map_nil, List.reverse_cons, List.append_assoc]
    rfl

/-- Expressions with free and different names can be put into the program. -/
theorem insertAt_eq (order : p.order = left ++ right) (free : ∀ id ∈ ids, p.isUsed (p.expr id).name = false)
    (nodup : (ids.map fun id => (p.expr id).name).Nodup) :
    Edit.insertAt left.length ids p = .ok ⟨⟩ ((p.enterNames ids).extend (left ++ ids ++ right)) := by
  have hbound : ¬((left.length : Int) < 0 ∨ (p.length : Int) < left.length) := by
    rw [length, order, List.length_append]
    omega
  have htake : (p.enterNames ids).order.take left.length = left := by
    rw [enterNames, order, List.take_left]
  have hdrop : (p.enterNames ids).order.drop left.length = right := by
    rw [enterNames, order, List.drop_left]
  unfold Edit.insertAt
  refine bind_eq_ok.mpr ⟨p, p, rfl, ?_⟩
  dsimp only
  rw [if_neg hbound]
  refine bind_eq_ok.mpr ⟨⟨⟩, _, forM_register free nodup, modify_eq_ok.mpr ?_⟩
  rw [Int.toNat_natCast, htake, hdrop]

/-- Names that were entered. -/
theorem forM_register_eq_ok (h : ids.forM Edit.register p = .ok ⟨⟩ q) : q = p.enterNames ids := by
  induction ids generalizing p with
  | nil => exact (pure_eq_ok.mp h).2.symm
  | cons id ids ih =>
    obtain ⟨_, r, hid, h⟩ := bind_eq_ok.mp h
    unfold Edit.register at hid
    rw [get_bind] at hid
    dsimp only at hid
    split at hid
    · exact absurd hid (by simp)
    · obtain rfl := set_eq_ok.mp hid
      rw [ih h]
      simp only [enterNames, List.map_cons, List.reverse_cons, List.append_assoc]
      rfl

/-- Expressions that were put into the program stand at their position. -/
theorem insertAt_eq_ok {position : Int} (h : Edit.insertAt position ids p = .ok () q) :
    (0 ≤ position ∧ position ≤ p.length) ∧ q = (p.enterNames ids).extend
      (p.order.take position.toNat ++ ids ++ p.order.drop position.toNat) := by
  unfold Edit.insertAt at h
  rw [get_bind] at h
  dsimp only at h
  split at h
  · exact absurd h (by simp)
  · obtain ⟨_, r, hregister, h⟩ := bind_eq_ok.mp h
    rw [forM_register_eq_ok hregister] at h
    exact ⟨by omega, (modify_eq_ok.mp h).symm⟩

/-- An operation without inputs that was added stands at the end. -/
theorem add_eq_ok {op : Op} {id : ExprId} (h : Edit.add name op [] p = .ok id q) :
    id = p.exprs.size ∧ q = ((p.makeOp name op []).2.enterNames [id]).extend
      ((p.makeOp name op []).2.order ++ [id]) := by
  obtain ⟨made, r, hmake, h⟩ := bind_eq_ok.mp h
  obtain ⟨_, s, happend, h⟩ := bind_eq_ok.mp h
  obtain ⟨rfl, rfl⟩ := pure_eq_ok.mp h
  obtain ⟨rfl, rfl⟩ := change_eq_ok.mp hmake
  obtain ⟨_, t, hregister, happend⟩ := bind_eq_ok.mp happend
  rw [forM_register_eq_ok hregister] at happend
  exact ⟨rfl, (modify_eq_ok.mp happend).symm⟩

theorem Tidy.nodup_inside (h : p.Tidy) {inside : List ExprId} (order : p.order = left ++ (inside ++ right)) :
    inside.Nodup := by
  have := h.nodup
  rw [order, List.nodup_append, List.nodup_append] at this
  exact this.2.1.1

/-- Putting new expressions into a tidy program keeps it tidy. -/
theorem Tidy.insertAt (h : p.Tidy) (order : p.order = left ++ right) (valid : ∀ id ∈ ids, id < p.exprs.size)
    (nodup : ids.Nodup) (new : ∀ id ∈ ids, id ∉ p.order) :
    ((p.enterNames ids).extend (left ++ ids ++ right)).Tidy := by
  have hperm : (left ++ ids ++ right).Perm (ids ++ p.order) := by
    rw [order, ← List.append_assoc]
    exact List.perm_append_comm.append_right _
  have hmem : ∀ {id}, id ∈ left ++ ids ++ right → id ∈ ids ∨ id ∈ p.order := fun hid =>
    List.mem_append.mp (hperm.mem_iff.mp hid)
  refine ⟨fun id hid => ?_, ?_, fun id hid => ?_, length_le_slots_extend _ _⟩
  · rcases hmem hid with hid | hid
    · exact valid id hid
    · exact h.valid id hid
  · refine hperm.nodup_iff.mpr (List.nodup_append.mpr ⟨nodup, h.nodup, ?_⟩)
    rintro a ha b hb rfl
    exact new a ha hb
  · refine isUsed_enterNames.mpr ?_
    rcases hmem hid with hid | hid
    · exact .inl (List.mem_map_of_mem hid)
    · exact .inr (h.named id hid)

end Program

end TensorKernel
