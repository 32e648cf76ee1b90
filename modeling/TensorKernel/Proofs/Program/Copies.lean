import TensorKernel.Proofs.Program.Headers

/-!
# Copies of a range

Copying a range makes one expression after the other, so the copies have consecutive numbers. They
have the headers of the expressions they were copied from, under free names that all differ; of the
other expressions nothing but ports changes.
-/

namespace TensorKernel.Program

variable {id : ExprId} {copies : List (ExprId × ExprId)} {inside : List ExprId} {k : Nat} {p q : Program}

/-- The items of a list with one more. -/
theorem getElem?_concat_cases {α : Type} {l : List α} {x a : α} (h : (l ++ [x])[k]? = some a) :
    k < l.length ∧ l[k]? = some a ∨ k = l.length ∧ x = a := by
  rcases Nat.lt_or_ge k l.length with hlt | hge
  · rw [List.getElem?_append_left hlt] at h
    exact .inl ⟨hlt, h⟩
  · have hlt := (List.getElem?_eq_some_iff.mp h).1
    rw [List.length_append, List.length_singleton] at hlt
    obtain rfl : k = l.length := by omega
    rw [List.getElem?_concat_length] at h
    exact .inr ⟨rfl, Option.some.inj h⟩

/-- What copying the expressions `inside` of `p` makes of the headers. -/
structure Copied (p : Program) (inside : List ExprId) (q : Program) : Prop where
  /-- Nothing but expressions and the last number of a name changed. -/
  rest : q = { p with exprs := q.exprs, serial := q.serial }
  /-- Names are numbered upwards. -/
  serial : p.serial ≤ q.serial
  /-- The copies have the numbers behind the earlier ones. -/
  size : q.exprs.size = p.exprs.size + inside.length
  /-- The earlier expressions keep their headers. -/
  old : ∀ id < p.exprs.size, (q.expr id).header = (p.expr id).header
  /-- A copy has the header of its origin, under a name with a number of its own. -/
  new : ∀ (k : Nat) id, inside[k]? = some id → ∃ n, p.serial < n ∧ n ≤ q.serial ∧
    p.isUsed (numbered (p.expr id).name n) = false ∧
    (q.expr (p.exprs.size + k)).header =
      { (p.expr id).header with
        name := numbered (p.expr id).name n, origin := some id, position := none }
  /-- The copies have different names. -/
  apart : ∀ j k : Nat, j < k → k < inside.length →
    (q.expr (p.exprs.size + j)).name ≠ (q.expr (p.exprs.size + k)).name

/-- The values that the copy of an expression reads, given the copies of earlier ones. -/
def copySources (q : Program) (copies : List (ExprId × ExprId)) (id : ExprId) : List ValueRef :=
  (q.expr id).inputs.map fun i => { i.source with producer := copyOf copies i.source.producer }

/-- Copying one expression whose name is in use. -/
theorem copyNext_eq (hused : q.isUsed (q.expr id).name = true) :
    copyNext inside (copies, q) id =
      let n := q.nextSerial (q.expr id).name
      (copies ++ [(id, q.exprs.size)],
        (({ q with serial := n }.makeCopy id (numbered (q.expr id).name n)
          (q.copySources copies id)).2).joinUsedOutside inside id q.exprs.size) := by
  rw [copyNext, uniqueName, if_pos hused]
  rfl

theorem copied_nil (p : Program) : p.Copied [] p where
  rest := rfl
  serial := Nat.le_refl _
  size := rfl
  old _ _ := rfl
  new k id h := by simp at h
  apart j k _ hk := by simp at hk

/-- Copying one more expression. -/
theorem Copied.next {done : List ExprId} (h : p.Copied done q) (hid : id < p.exprs.size)
    (hused : p.isUsed (p.expr id).name = true) (inside : List ExprId) (copies : List (ExprId × ExprId)) :
    ∃ q', copyNext inside (copies, q) id = (copies ++ [(id, p.exprs.size + done.length)], q') ∧
      p.Copied (done ++ [id]) q' := by
  have hnames : q.names = p.names := by rw [h.rest]
  have hisUsed : ∀ name, q.isUsed name = p.isUsed name := by
    intro name
    rw [isUsed, find?, hnames]
    rfl
  have hhead := h.old id hid
  have hname : (q.expr id).name = (p.expr id).name := by
    rw [← Expr.header_name, hhead, Expr.header_name]
  obtain ⟨hn, hfree⟩ := q.nextSerial_free (q.expr id).name
  rw [copyNext_eq (by rw [hname, hisUsed, hused])]
  generalize q.nextSerial (q.expr id).name = n at hn hfree
  rw [hname] at hfree
  dsimp only
  have hr := (rewired_make { q with serial := n } ((q.expr id).copy id (numbered (q.expr id).name n)
    (q.copySources copies id))).trans (rewired_joinUsedOutside _ inside id q.exprs.size)
  rw [hname] at hr ⊢
  change Rewired _ (joinUsedOutside (makeCopy _ _ _ _).2 _ _ _) at hr
  generalize joinUsedOutside (makeCopy { q with serial := n } id (numbered (p.expr id).name n)
    (q.copySources copies id)).2 inside id q.exprs.size = q' at hr
  have hqserial : q'.serial = n := by rw [hr.rest]
  -- The header of every expression, the new one included.
  have hexpr : ∀ j : Nat, (q'.expr j).header = if j = q.exprs.size then
      { (p.expr id).header with
        name := numbered (p.expr id).name n, origin := some id, position := none }
      else (q.expr j).header := by
    intro j
    rw [hr.header, ← hhead]
    refine (congrArg Expr.header (expr_push _ _ j)).trans ?_
    split <;> rfl
  have hserial := h.serial
  refine ⟨q', by rw [h.size], ?_, by omega, ?_, ?_, ?_, ?_⟩
  · rw [hr.rest, h.rest]
  · rw [hr.size, Array.size_push, h.size, List.length_append, List.length_singleton, Nat.add_assoc]
  · intro j hj
    rw [hexpr, if_neg (by rw [h.size]; omega), h.old j hj]
  · intro k e hk
    rcases getElem?_concat_cases hk with ⟨hlt, hk⟩ | ⟨rfl, rfl⟩
    · obtain ⟨m, hm, hmq, hmfree, hhead⟩ := h.new k e hk
      refine ⟨m, hm, by omega, hmfree, ?_⟩
      rw [hexpr, if_neg (by rw [h.size]; omega), hhead]
    · refine ⟨n, by omega, by omega, by rw [← hisUsed, hfree], ?_⟩
      rw [hexpr, if_pos h.size.symm]
  · intro j k hjk hk
    have hold : ∀ j < done.length, (q'.expr (p.exprs.size + j)).name =
        (q.expr (p.exprs.size + j)).name := by
      intro j hj
      rw [← Expr.header_name, hexpr, if_neg (by rw [h.size]; omega), Expr.header_name]
    rw [List.length_append, List.length_singleton] at hk
    rcases Nat.lt_or_ge k done.length with hlt | hge
    · rw [hold j (by omega), hold k hlt]
      exact h.apart j k hjk hlt
    · -- The number of the new name is above those of the earlier copies.
      have hjlt : j < done.length := by omega
      obtain ⟨m, _, hmq, _, hhead⟩ := h.new j _ (List.getElem?_eq_getElem hjlt)
      rw [hold j hjlt, ← Expr.header_name, hhead, ← Expr.header_name (q'.expr _), hexpr,
        if_pos (by rw [h.size]; omega)]
      intro he
      have := numbered_inj he
      omega

/-- What holds at the start and is kept by each copy holds when the range is copied. -/
theorem copyAll_induction (valid : ∀ id ∈ inside, id < p.exprs.size)
    (named : ∀ id ∈ inside, p.isUsed (p.expr id).name = true) {I : List ExprId → Program → Prop}
    (start : I [] p) (step : ∀ {done id rest q q'}, inside = done ++ id :: rest → p.Copied done q →
      q.isUsed (q.expr id).name = true →
      copyNext inside (done.zipIdx p.exprs.size, q) id = ((done ++ [id]).zipIdx p.exprs.size, q') →
      p.Copied (done ++ [id]) q' → I done q → I (done ++ [id]) q') :
    ∃ q, p.copyAll inside = (inside.zipIdx p.exprs.size, q) ∧ p.Copied inside q ∧ I inside q := by
  suffices H : ∀ rest done q, inside = done ++ rest → p.Copied done q → I done q →
      ∃ q', rest.foldl (copyNext inside) (done.zipIdx p.exprs.size, q) =
        (inside.zipIdx p.exprs.size, q') ∧ p.Copied inside q' ∧ I inside q' from
    H inside [] p rfl p.copied_nil start
  intro rest
  induction rest with
  | nil =>
    intro done q hl hq hI
    rw [List.append_nil] at hl
    exact ⟨q, by rw [hl]; rfl, hl ▸ hq, hl ▸ hI⟩
  | cons id rest ih =>
    intro done q hl hq hI
    have hid : id ∈ inside := by simp [hl]
    obtain ⟨q', hnext, hq'⟩ := hq.next (valid id hid) (named id hid) inside (done.zipIdx _)
    have hzip : done.zipIdx p.exprs.size ++ [(id, p.exprs.size + done.length)] =
        (done ++ [id]).zipIdx p.exprs.size := by
      rw [List.zipIdx_append]
      rfl
    rw [hzip] at hnext
    have hused : q.isUsed (q.expr id).name = true := by
      have hnames : q.names = p.names := by rw [hq.rest]
      rw [Expr.name_of_header (hq.old id (valid id hid)), isUsed, find?, hnames]
      exact named id hid
    rw [List.foldl_cons, hnext]
    exact ih (done ++ [id]) q' (by simp [hl]) hq' (step hl hq hused hnext hq' hI)

/-- Copying expressions whose names are in use. -/
theorem copyAll_copied (inside : List ExprId) (valid : ∀ id ∈ inside, id < p.exprs.size)
    (named : ∀ id ∈ inside, p.isUsed (p.expr id).name = true) :
    ∃ q, p.copyAll inside = (inside.zipIdx p.exprs.size, q) ∧ p.Copied inside q := by
  obtain ⟨q, hcopy, hcopied, _⟩ := copyAll_induction (I := fun _ _ => True) valid named trivial
    fun _ _ _ _ _ _ => trivial
  exact ⟨q, hcopy, hcopied⟩

/-- The copies of a range have consecutive numbers. -/
theorem copyOf_zipIdx (nodup : inside.Nodup) (h : inside[k]? = some id) (n : Nat) :
    copyOf (inside.zipIdx n) id = n + k := by
  induction inside generalizing n k with
  | nil => simp at h
  | cons e inside ih =>
    obtain ⟨he, hnodup⟩ := List.nodup_cons.mp nodup
    cases k with
    | zero =>
      cases h
      simp [copyOf]
    | succ k =>
      rw [List.getElem?_cons_succ] at h
      have hne : (id == e) = false :=
        beq_eq_false_iff_ne.mpr fun hie => he (hie ▸ List.mem_of_getElem? h)
      have := ih hnodup h (n + 1)
      rw [copyOf] at this ⊢
      rw [List.zipIdx_cons, List.lookup_cons, hne, this]
      exact Nat.add_right_comm n 1 k

theorem map_copyOf_zipIdx (nodup : inside.Nodup) (n : Nat) :
    inside.map (copyOf (inside.zipIdx n)) = List.range' n inside.length := by
  refine List.ext_getElem? fun k => ?_
  rw [List.getElem?_map]
  rcases Nat.lt_or_ge k inside.length with hk | hk
  · have hid := List.getElem?_eq_getElem hk
    rw [hid, Option.map_some, copyOf_zipIdx nodup hid, List.getElem?_range' hk, Nat.one_mul]
  · rw [List.getElem?_eq_none hk, List.getElem?_eq_none (by simpa using hk)]
    rfl

/-- The copy of an expression of the range. -/
theorem Copied.header_copyOf (h : p.Copied inside q) (nodup : inside.Nodup) {x : ExprId} (hx : x ∈ inside) :
    ∃ c : Nat, copyOf (inside.zipIdx p.exprs.size) x = c ∧
      (p.exprs.size ≤ c ∧ c < p.exprs.size + inside.length) ∧
      ∃ name, p.isUsed name = false ∧ (q.expr c).header =
        { (p.expr x).header with name, origin := some x, position := none } := by
  obtain ⟨k, hk⟩ := List.mem_iff_getElem?.mp hx
  obtain ⟨n, _, _, hfree, hhead⟩ := h.new k x hk
  have hlt := (List.getElem?_eq_some_iff.mp hk).1
  exact ⟨p.exprs.size + k, copyOf_zipIdx nodup hk _, by omega, _, hfree, hhead⟩

/-- The copies have different names. -/
theorem Copied.nodup_names (h : p.Copied inside q) :
    ((List.range' p.exprs.size inside.length).map fun c => (q.expr c).name).Nodup := by
  refine List.pairwise_map.mpr (List.pairwise_iff_getElem.mpr fun i j hi hj hij => ?_)
  rw [List.length_range'] at hj
  simp only [List.getElem_range', Nat.one_mul]
  exact h.apart i j hij hj

/-- A range that was copied is a part of the program. -/
theorem copyRange_eq_ok {begin stop : Int} (h : Edit.copyRange begin stop p = .ok copies q) :
    ∃ inside, inside.Sublist p.order ∧ p.copyAll inside = (copies, q) := by
  unfold Edit.copyRange at h
  rw [Outcome.get_bind] at h
  dsimp only at h
  split at h
  · exact absurd h (by simp)
  · obtain ⟨copies', r, hchange, h⟩ := Outcome.bind_eq_ok.mp h
    refine ⟨(p.order.take stop.toNat).drop begin.toNat,
      (List.drop_sublist _ _).trans (List.take_sublist _ _), ?_⟩
    split at h
    · exact absurd h (by simp)
    · obtain ⟨rfl, rfl⟩ := Outcome.pure_eq_ok.mp h
      exact Outcome.modifyGet_eq_ok.mp hchange

end TensorKernel.Program
