import TensorKernel.Proofs.Loop.Descent

/-!
# Chains of views

Views of memory are followed forwards through first outputs or backwards through first inputs. When loops
are split, a chain that is followed backwards from a copy runs along the chain of the expression that the
copy descends from. The chains of the expressions that were there do not change: the first view of a value
stays its first one.
-/

namespace TensorKernel.Program

variable {y : ExprId} {x : Nat}

variable {p q r : Program}

/-- The first input of `x` reads the view `y`. -/
def SeenThrough (p : Program) (x y : ExprId) : Prop := p.prevView? x = some y

/-- What is met when views are followed backwards from an expression, itself included. -/
def Behind (p : Program) : ExprId → ExprId → Prop := Relation.ReflTransGen p.SeenThrough

/-- What an expression is seen through is a view that its first input reads. -/
theorem seenThrough_iff {x : ExprId} : p.SeenThrough x y ↔
    (p.expr y).role = .shapeInfer ∧ ∃ i rest, (p.expr x).inputs = i :: rest ∧ i.source.producer = y := by
  unfold SeenThrough prevView?
  cases (p.expr x).inputs with
  | nil => simp
  | cons i rest =>
    dsimp only
    constructor
    · intro h
      split at h
      · rename_i hrole
        cases h
        exact ⟨hrole, i, rest, rfl, rfl⟩
      · cases h
    · rintro ⟨hrole, i', rest', heq, rfl⟩
      cases heq
      rw [if_pos hrole]

theorem behind_of_mem_viewsBefore {x : ExprId} (h : y ∈ x :: p.viewsBefore x) : p.Behind x y := by
  unfold viewsBefore at h
  generalize p.exprs.size = bound at h
  induction bound generalizing x with
  | zero =>
    obtain rfl := List.mem_singleton.mp h
    exact .refl
  | succ bound ih =>
    rcases List.mem_cons.mp h with rfl | h
    · exact .refl
    · rw [follow] at h
      cases hnext : p.prevView? x with
      | none => simp [hnext] at h
      | some z =>
        rw [hnext] at h
        exact .head hnext (ih h)

/-- A chain of views that goes down ends before the number of expressions is used up. -/
theorem mem_viewsBefore_of_behind {x : ExprId} (hx : x < p.exprs.size)
    (down : ∀ a b, p.Behind x a → p.SeenThrough a b → b < a) (h : p.Behind x y) :
    y ∈ x :: p.viewsBefore x := by
  unfold viewsBefore
  have hle := Nat.le_of_lt hx
  clear hx
  generalize p.exprs.size = bound at hle
  induction h using Relation.ReflTransGen.head_induction_on generalizing bound with
  | refl => exact List.mem_cons_self
  | @head a b hab _ ih =>
    have hlt := down a b .refl hab
    cases bound with
    | zero => exact absurd (Nat.lt_of_lt_of_le hlt hle) (Nat.not_lt_zero b)
    | succ bound =>
      have hnext : p.prevView? a = some b := hab
      rw [follow, hnext]
      refine List.mem_cons_of_mem _ (ih (fun c d hc => down c d (.head hab hc)) bound ?_)
      exact Nat.le_of_lt_succ (Nat.lt_of_lt_of_le hlt hle)

namespace Descends

variable {x : ExprId}

/-- The ancestor of a view is a view of the ancestor. -/
theorem seenThrough (h : p.Descends q) (closed : q.Closed) (hx : x ∈ q.order)
    (hxy : q.SeenThrough x y) :
    y ∈ q.order ∧ p.SeenThrough (q.ancestor p.exprs.size x) (q.ancestor p.exprs.size y) := by
  obtain ⟨hrole, i, rest, hinputs, rfl⟩ := seenThrough_iff.mp hxy
  have hmem := closed.sources x hx i (by simp [hinputs])
  have hproducers := h.producers x hx
  rw [hinputs, List.map_cons, eq_comm, List.map_eq_cons_iff] at hproducers
  obtain ⟨j, others, hp, hj, _⟩ := hproducers
  exact ⟨hmem, seenThrough_iff.mpr ⟨(h.role _ hmem).symm.trans hrole, j, others, hp, hj⟩⟩

/-- The ancestors of a chain of views are a chain of views. -/
theorem behind (h : p.Descends q) (closed : q.Closed) (hx : x ∈ q.order) (hxy : q.Behind x y) :
    y ∈ q.order ∧ p.Behind (q.ancestor p.exprs.size x) (q.ancestor p.exprs.size y) := by
  induction hxy with
  | refl => exact ⟨hx, .refl⟩
  | tail _ hstep ih =>
    obtain ⟨hy, hstep⟩ := h.seenThrough closed ih.1 hstep
    exact ⟨hy, ih.2.tail hstep⟩

/-- An expression reads something if its ancestor does. -/
theorem inputs_ne_nil (h : p.Descends q) (hx : x ∈ q.order)
    (hne : (p.expr (q.ancestor p.exprs.size x)).inputs ≠ []) : (q.expr x).inputs ≠ [] := by
  intro hnil
  have hproducers := h.producers x hx
  rw [hnil] at hproducers
  exact hne (List.map_eq_nil_iff.mp hproducers.symm)

end Descends

/-! ### Chains that stay -/

/-- A chain that comes to an end does not depend on how far it may be followed. -/
theorem follow_congr {next next' : ExprId → Option ExprId} (good : ExprId → Prop) (rank : ExprId → Nat)
    (same : ∀ a, good a → next' a = next a)
    (onward : ∀ a b, good a → next a = some b → good b ∧ rank b < rank a) {bound bound' : Nat}
    {x : ExprId} (hx : good x) (hbound : rank x ≤ bound) (hbound' : rank x ≤ bound') :
    follow next' bound' x = follow next bound x := by
  have hend : ∀ a, good a → rank a ≤ 0 → next a = none := by
    intro a ha hrank
    cases hnext : next a with
    | none => rfl
    | some b =>
      have := (onward a b ha hnext).2
      omega
  induction bound generalizing bound' x with
  | zero =>
    cases bound' with
    | zero => rfl
    | succ bound' =>
      rw [follow, follow, same x hx, hend x hx hbound]
  | succ bound ih =>
    cases bound' with
    | zero =>
      rw [follow, follow, hend x hx hbound']
    | succ bound' =>
      rw [follow, follow, same x hx]
      cases hnext : next x with
      | none => rfl
      | some b =>
        obtain ⟨hb, hlt⟩ := onward x b hx hnext
        exact congrArg (b :: ·) (ih hb (by omega) (by omega))

/-- The next view is the first one among the uses of the first output. -/
theorem nextView?_eq (x : ExprId) : p.nextView? x =
    ((p.uses ⟨x, 0⟩).find? fun u => (p.expr u.consumer).role = .shapeInfer).map (·.consumer) := by
  unfold nextView? uses output?
  cases (p.expr x).outputs <;> rfl

namespace Retains

variable (h : p.Retains q)

include h

theorem role (hx : x < p.exprs.size) : (q.expr x).role = (p.expr x).role :=
  Expr.role_of_header (h.header x hx)

/-- The previous view stays. -/
theorem prevView? (wired : p.Wired) (hx : x < p.exprs.size) : q.prevView? x = p.prevView? x := by
  unfold Program.prevView?
  rw [h.inputs x hx]
  cases hinputs : (p.expr x).inputs with
  | nil => rfl
  | cons i rest =>
    dsimp only
    have hi : i ∈ (p.expr x).inputs := by simp [hinputs]
    rw [h.role (wired.hasValue_source hi).lt_size]

/-- The next view stays: a copy that reads the first output is a view only if there was one before. -/
theorem nextView? (hd : p.Descends q) (full : ∀ x : Nat, x < q.exprs.size → x ∈ q.order) (wired : p.Wired)
    (single : ∀ v, p.HasValue v → v.output = 0) (hx : x < p.exprs.size) : q.nextView? x = p.nextView? x := by
  rw [nextView?_eq, nextView?_eq]
  obtain ⟨extra, hextra⟩ := h.uses ⟨x, 0⟩
  have hold : (p.uses ⟨x, 0⟩).find? (fun u => (q.expr u.consumer).role = .shapeInfer) =
      (p.uses ⟨x, 0⟩).find? fun u => (p.expr u.consumer).role = .shapeInfer := by
    rw [← List.head?_filter, ← List.head?_filter]
    refine congrArg _ (List.filter_congr fun u hu => ?_)
    rw [h.role (wired.consumer_lt_size hu)]
  rw [← hextra, List.find?_append, hold]
  cases hfind : (p.uses ⟨x, 0⟩).find? fun u => (p.expr u.consumer).role = .shapeInfer with
  | some u => rfl
  | none =>
    suffices hnone : extra.find? (fun u => (q.expr u.consumer).role = .shapeInfer) = none by
      rw [hnone]
      rfl
    refine List.find?_eq_none.mpr fun u hu hview => ?_
    have huse : u ∈ q.uses ⟨x, 0⟩ := hextra ▸ List.mem_append_right _ hu
    have hmem := full _ (h.wired.consumer_lt_size huse)
    obtain ⟨i, hi, hsource⟩ := Option.map_eq_some_iff.mp ((h.wired.linked _ _ _).mpr huse)
    have hread : x ∈ (p.expr (q.ancestor p.exprs.size u.consumer)).inputs.map (·.source.producer) := by
      rw [← hd.producers _ hmem]
      refine List.mem_map.mpr ⟨i, List.mem_of_getElem? hi, ?_⟩
      rw [hsource]
      exact q.ancestor_of_lt hx
    obtain ⟨j, hj, hjx⟩ := List.mem_map.mp hread
    obtain ⟨n, hn⟩ := List.mem_iff_getElem?.mp hj
    have hjsource : j.source = ⟨x, 0⟩ := by
      rw [← hjx, ← single _ (wired.hasValue_source hj)]
    have hused : (⟨q.ancestor p.exprs.size u.consumer, n⟩ : UseRef) ∈ p.uses ⟨x, 0⟩ :=
      (wired.linked _ _ _).mp (by rw [hn, Option.map_some, hjsource])
    refine List.find?_eq_none.mp hfind _ hused ?_
    rw [← hd.role _ hmem]
    exact hview

/-- Followed backwards, views stay. -/
theorem viewsBefore (wired : p.Wired) (down : ∀ a b, p.prevView? a = some b → b < a) (hx : x < p.exprs.size) :
    q.viewsBefore x = p.viewsBefore x := by
  refine follow_congr (· < p.exprs.size) (fun x => x)
    (fun a ha => h.prevView? wired ha) (fun a b ha hab => ?_) hx (Nat.le_of_lt hx)
    (Nat.le_trans (Nat.le_of_lt hx) h.size)
  have hlt := down a b hab
  exact ⟨Nat.lt_trans hlt ha, hlt⟩

/-- Followed forwards, views stay. -/
theorem viewsAfter (hd : p.Descends q) (full : ∀ x : Nat, x < q.exprs.size → x ∈ q.order) (wired : p.Wired)
    (single : ∀ v, p.HasValue v → v.output = 0) (up : ∀ a b, p.nextView? a = some b → a < b)
    (hx : x < p.exprs.size) : q.viewsAfter x = p.viewsAfter x := by
  refine follow_congr (· < p.exprs.size) (fun x => p.exprs.size - x)
    (fun a ha => h.nextView? hd full wired single ha) (fun a b ha hab => ?_) hx (Nat.sub_le ..)
    (Nat.le_trans (Nat.sub_le ..) h.size)
  have hlt := up a b hab
  rw [nextView?_eq] at hab
  obtain ⟨u, hu, rfl⟩ := Option.map_eq_some_iff.mp hab
  exact ⟨wired.consumer_lt_size (List.mem_of_find?_eq_some hu), Nat.sub_lt_sub_left ha hlt⟩

end Retains

end TensorKernel.Program
