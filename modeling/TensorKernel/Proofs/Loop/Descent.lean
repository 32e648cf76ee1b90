import TensorKernel.Proofs.Loop.SplitStructure
import TensorKernel.Proofs.Program.CopyLinks

/-!
# Where copies come from

Splitting copies expressions, and copies of copies. Every expression of the program that comes out
descends from one of the program that went in: it has the same role and as many outputs, and what it reads
descends from what the other one reads. The expressions that were there read what they read, and copies come
last among their readers. A copy shares an alias group with values that it descends from, and with no others.
-/

namespace TensorKernel.Program

variable {p q r : Program}

/-- Every expression of `q` descends from one of `p`. -/
structure Descends (p q : Program) : Prop where
  /-- The ancestor is in the program. -/
  mem : ∀ x ∈ q.order, q.ancestor p.exprs.size x ∈ p.order
  /-- It has the same role. -/
  role : ∀ x ∈ q.order, (q.expr x).role = (p.expr (q.ancestor p.exprs.size x)).role
  /-- It has as many outputs. -/
  values : ∀ x ∈ q.order, ∀ k, q.HasValue ⟨x, k⟩ ↔ p.HasValue ⟨q.ancestor p.exprs.size x, k⟩
  /-- It reads from the ancestors of what is read. -/
  producers : ∀ x ∈ q.order,
    (q.expr x).inputs.map (fun i => q.ancestor p.exprs.size i.source.producer) =
      (p.expr (q.ancestor p.exprs.size x)).inputs.map (·.source.producer)
  /-- What was not there before is a copy. -/
  copied : ∀ x ∈ q.order, p.exprs.size ≤ x → (q.expr x).origin.isSome = true

/-- Every expression descends from itself. -/
theorem Tidy.descends (tidy : p.Tidy) (linked : p.Linked) : p.Descends p := by
  have hself : ∀ x ∈ p.order, p.ancestor p.exprs.size x = x :=
    fun x hx => p.ancestor_of_lt (tidy.valid x hx)
  refine ⟨fun x hx => ?_, fun x hx => ?_, fun x hx k => ?_, fun x hx => ?_,
    fun x hx hle => absurd (tidy.valid x hx) (Nat.not_lt.mpr hle)⟩
  · rwa [hself x hx]
  · rw [hself x hx]
  · rw [hself x hx]
  · rw [hself x hx]
    exact List.map_congr_left fun i hi => p.ancestor_of_lt (linked.hasValue_source hx hi).lt_size

namespace Descends

/-- A loop that becomes its last part changes no expression. -/
theorem bind (h : p.Descends r) (id : LoopId) (part : ExpandedLoop) :
    p.Descends (r.bindPart id part) := by
  have hanc : (r.bindPart id part).ancestor p.exprs.size = r.ancestor p.exprs.size :=
    ancestor_of_expr (r.expr_bindPart id part)
  refine ⟨fun x hx => ?_, fun x hx => ?_, fun x hx k => ?_, fun x hx => ?_, h.copied⟩
  · rw [hanc]
    exact h.mem x hx
  · rw [hanc]
    exact h.role x hx
  · rw [hanc]
    exact h.values x hx k
  · rw [hanc]
    exact h.producers x hx

variable {c : List Frame} {b e : ExprId} {body rest : Nest} {part : LoopBinding}
  {renumber : List (LoopId × LoopId)}

/-- The copies of a part descend from what its expressions descend from. -/
theorem insertPart (h : p.Descends r) (hsize : p.exprs.size ≤ r.exprs.size) (tidy : r.Tidy)
    (linked : r.Linked) (w : r.WellNested ((Nest.loop b e body rest).plug c))
    (hpart : r.PartInserted (r.expr b).loop (Context.left c) (Nest.loop b e body .nil).flatten
      (rest.flatten ++ Context.right c) part renumber q) : p.Descends q := by
  have order := w.order_plug
  have hread := hpart.copyRead order tidy linked
  have hnodup := w.nodup_inside tidy
  have hin : ∀ x ∈ (Nest.loop b e body .nil).flatten, x ∈ r.order := fun x => w.mem_order_of_inside
  have hold : ∀ x : Nat, x < r.exprs.size → q.ancestor p.exprs.size x = r.ancestor p.exprs.size x :=
    fun x hx => hpart.ancestor_old hx
  have hcopy : ∀ (k : Nat) a, (Nest.loop b e body .nil).flatten[k]? = some a →
      q.ancestor p.exprs.size (r.exprs.size + k) = r.ancestor p.exprs.size a := by
    intro k a hk
    have hmem := List.mem_of_getElem? hk
    rw [← hpart.ancestor_copy hsize hnodup hmem (tidy.valid a (hin a hmem))]
    exact congrArg _ (copyOf_zipIdx hnodup hk _).symm
  have hrole : ∀ (k : Nat) a, (Nest.loop b e body .nil).flatten[k]? = some a →
      (q.expr (r.exprs.size + k)).role = (r.expr a).role ∧
        (q.expr (r.exprs.size + k)).origin = some a := by
    intro k a hk
    obtain ⟨x, hx, _, hrole, horigin, _⟩ := hpart.header_copy hnodup (List.mem_of_getElem? hk)
    obtain rfl : x = r.exprs.size + k := hx.symm.trans (copyOf_zipIdx hnodup hk _)
    exact ⟨hrole, horigin⟩
  -- A copy reads from the copies before it, which descend from what they were copied from.
  have hproducer : ∀ (k : Nat) a, (Nest.loop b e body .nil).flatten[k]? = some a →
      ∀ i ∈ (r.expr a).inputs, q.ancestor p.exprs.size (retargeted
        (((Nest.loop b e body .nil).flatten.take k).zipIdx r.exprs.size) i).source.producer =
          r.ancestor p.exprs.size i.source.producer := by
    intro k a hk i hi
    by_cases hmem : i.source.producer ∈ (Nest.loop b e body .nil).flatten.take k
    · obtain ⟨m, hm⟩ := List.mem_iff_getElem?.mp hmem
      have hlt := (List.getElem?_eq_some_iff.mp hm).1
      rw [retargeted, copyOf_zipIdx (hnodup.sublist (List.take_sublist ..)) hm]
      rw [List.getElem?_take_of_lt (Nat.lt_of_lt_of_le hlt (List.length_take_le ..))] at hm
      exact hcopy m _ hm
    · rw [retargeted, copyOf_of_not_mem hmem]
      exact hold _ (linked.hasValue_source (hin a (List.mem_of_getElem? hk)) hi).lt_size
  refine ⟨fun x hx => ?_, fun x hx => ?_, fun x hx n => ?_, fun x hx => ?_, fun x hx hle => ?_⟩
  all_goals rcases (hpart.mem_order_iff order).mp hx with hx | ⟨k, a, hk, rfl⟩
  · rw [hold x (tidy.valid x hx)]
    exact h.mem x hx
  · rw [hcopy k a hk]
    exact h.mem a (hin a (List.mem_of_getElem? hk))
  · rw [hold x (tidy.valid x hx), Expr.role_of_header (hpart.header_old (tidy.valid x hx))]
    exact h.role x hx
  · rw [hcopy k a hk, (hrole k a hk).1]
    exact h.role a (hin a (List.mem_of_getElem? hk))
  · rw [hold x (tidy.valid x hx), hread.oldValues ⟨x, n⟩ (tidy.valid x hx)]
    exact h.values x hx n
  · rw [hcopy k a hk, hread.newValues k a n hk]
    exact h.values a (hin a (List.mem_of_getElem? hk)) n
  · rw [hold x (tidy.valid x hx), hread.oldInputs x (tidy.valid x hx), ← h.producers x hx]
    exact List.map_congr_left fun i hi => hold _ (linked.hasValue_source hx hi).lt_size
  · rw [hcopy k a hk, hread.newInputs k a hk, List.map_map,
      ← h.producers a (hin a (List.mem_of_getElem? hk))]
    exact List.map_congr_left (hproducer k a hk)
  · rw [Expr.origin_of_header (hpart.header_old (tidy.valid x hx))]
    exact h.copied x hx hle
  · rw [(hrole k a hk).2]
    rfl

end Descends

/-- What splitting makes of a program descends from it. -/
theorem StructureKept.descends (h : p.StructureKept p) (tidy : p.Tidy)
    (steps : Relation.ReflTransGen SplitStep p q) : p.Descends q := by
  induction steps with
  | refl => exact tidy.descends h.connected.linked
  | tail before step ih =>
    have hkept := h.of_steps before
    cases step with
    | part tidy' _ nested _ hpart =>
      exact ih.insertPart (size_le_of_steps before) tidy' hkept.connected.linked nested hpart
    | bind v _ => exact ih.bind ..

/-! ### What the other expressions keep -/

/-- What the expressions of `p` keep in `q`. -/
structure Retains (p q : Program) : Prop where
  /-- The program is wired. -/
  wired : q.Wired
  /-- No expression goes away. -/
  size : p.exprs.size ≤ q.exprs.size
  /-- Without the copies the program is as it was. -/
  kept : q.order.filter (· < p.exprs.size) = p.order
  /-- Headers stay. -/
  header : ∀ x : Nat, x < p.exprs.size → (q.expr x).header = (p.expr x).header
  /-- What is read stays. -/
  inputs : ∀ x : Nat, x < p.exprs.size → (q.expr x).inputs = (p.expr x).inputs
  /-- Uses by copies come on top. -/
  uses : ∀ v, p.uses v <+: q.uses v
  /-- What comes into an alias group descends from one of its values. -/
  groups : ∀ v w : ValueRef, v.producer < p.exprs.size → w ∈ q.aliasGroup v →
    ⟨q.ancestor p.exprs.size w.producer, w.output⟩ ∈ p.aliasGroup v

/-- At first all is kept. -/
theorem Tidy.retains (tidy : p.Tidy) (wired : p.Wired) : p.Retains p where
  wired := wired
  size := Nat.le_refl _
  kept := List.filter_eq_self.mpr fun x hx => decide_eq_true (tidy.valid x hx)
  header _ _ := rfl
  inputs _ _ := rfl
  uses _ := List.prefix_refl _
  groups v w hv hw := by
    have hlt : w.producer < p.exprs.size := by
      by_cases hvalue : p.HasValue v
      · exact ((wired.grouped v hvalue).2 w hw).1.lt_size
      · rw [aliasGroup_of_not_hasValue hvalue, List.mem_singleton] at hw
        rwa [hw]
    rwa [p.ancestor_of_lt hlt]

namespace Retains

/-- A loop that becomes its last part changes no expression. -/
theorem bind (h : p.Retains r) (id : LoopId) (part : ExpandedLoop) :
    p.Retains (r.bindPart id part) := by
  have hanc : (r.bindPart id part).ancestor p.exprs.size = r.ancestor p.exprs.size :=
    ancestor_of_expr (r.expr_bindPart id part)
  refine ⟨h.wired.of_ports (fun _ => rfl) fun _ => rfl, h.size, h.kept, h.header, h.inputs, h.uses,
    fun v w hv hw => ?_⟩
  rw [hanc]
  exact h.groups v w hv hw

variable {c : List Frame} {b e : ExprId} {body rest : Nest} {part : LoopBinding}
  {renumber : List (LoopId × LoopId)}

/-- Copies of a part are read last and share groups with their originals only. -/
theorem insertPart (h : p.Retains r) (tidy : r.Tidy)
    (w : r.WellNested ((Nest.loop b e body rest).plug c))
    (hpart : r.PartInserted (r.expr b).loop (Context.left c) (Nest.loop b e body .nil).flatten
      (rest.flatten ++ Context.right c) part renumber q) : p.Retains q := by
  have hnodup := w.nodup_inside tidy
  have hin : ∀ x ∈ (Nest.loop b e body .nil).flatten, x ∈ r.order := fun x => w.mem_order_of_inside
  have hwired : r.CopyWired (Nest.loop b e body .nil).flatten q := by
    refine (h.wired.copyAll hnodup (fun x hx => tidy.valid x (hin x hx))
      fun x hx => tidy.named x (hin x hx)).of_ports (fun x => ?_) fun x => ?_
    · rw [hpart.expr]
      split <;> rfl
    · rw [hpart.expr]
      split <;> rfl
  have hsize := h.size
  have hlt : ∀ {x : Nat}, x < p.exprs.size → x < r.exprs.size := fun hx => Nat.lt_of_lt_of_le hx hsize
  refine ⟨hwired.wired, hsize.trans (hpart.size ▸ Nat.le_add_right ..),
    (hpart.filter_order w.order_plug hsize).trans h.kept,
    fun x hx => (hpart.header_old (hlt hx)).trans (h.header x hx),
    fun x hx => (hwired.oldInputs x (hlt hx)).trans (h.inputs x hx),
    fun v => (h.uses v).trans (hwired.uses v ▸ List.prefix_append ..), fun v z hv hz => ?_⟩
  rcases Nat.lt_or_ge z.producer r.exprs.size with hold | hnew
  · rw [hpart.ancestor_old hold]
    exact h.groups v z hv ((hwired.oldGroups v z (hlt hv) hold).mp hz)
  · -- A copy is in the group only if its original is.
    have hvalue : q.HasValue z := by
      by_cases hvalue : q.HasValue v
      · exact ((hwired.wired.grouped v hvalue).2 z hz).1
      · rw [aliasGroup_of_not_hasValue hvalue, List.mem_singleton] at hz
        rw [hz] at hnew
        exact absurd (hlt hv) (Nat.not_lt.mpr hnew)
    obtain ⟨k, hk⟩ := Nat.exists_eq_add_of_le hnew
    have hklt : k < (Nest.loop b e body .nil).flatten.length := by
      have := hvalue.lt_size
      rw [hpart.size, hk] at this
      exact Nat.lt_of_add_lt_add_left this
    have ha := List.getElem?_eq_getElem hklt
    have hmem := List.getElem_mem hklt
    have hcopy : q.ancestor p.exprs.size z.producer =
        r.ancestor p.exprs.size (Nest.loop b e body .nil).flatten[k] := by
      rw [hk, ← hpart.ancestor_copy hsize hnodup hmem (tidy.valid _ (hin _ hmem))]
      exact congrArg _ (copyOf_zipIdx hnodup ha _).symm
    rw [hcopy]
    refine h.groups v ⟨_, z.output⟩ hv (h.wired.grouped.mem_symm ?_)
    have hback := hwired.wired.grouped.mem_symm hz
    rw [show z = ⟨r.exprs.size + k, z.output⟩ by rw [← hk]] at hback
    exact hwired.within k _ z.output v ha (hlt hv) hback

end Retains

/-- What splitting makes of a program keeps its expressions. -/
theorem Tidy.retains_of_steps (tidy : p.Tidy) (wired : p.Wired)
    (steps : Relation.ReflTransGen SplitStep p q) : p.Retains q := by
  induction steps with
  | refl => exact tidy.retains wired
  | tail before step ih =>
    cases step with
    | part tidy' _ nested _ hpart => exact ih.insertPart tidy' nested hpart
    | bind v _ => exact ih.bind ..

end TensorKernel.Program
