import TensorKernel.Proofs.Kernel.Settled

/-!
# What lowering loops is made of

Whatever a program is like, lowering its loops comes down to a few elementary changes: expressions
without registers are made, with at most one output or as many as another expression has; uses are
entered; values that are alone are joined to others; and anything but outputs may change. A fact that
these changes keep is kept by the lowering. One such fact is that alias groups divide the values.
-/

namespace TensorKernel

open Outcome

variable {events : List HandlerEvent} {id : LoopId} {origin place : Nat} {whole : UnifiedLoop}

namespace Program

variable {p q r : Program}

/-- A program that was made from `p` by elementary changes. -/
inductive Edited (p : Program) : Program → Prop
  | refl : Edited p p
  /-- All outputs are as they were. -/
  | same {q r : Program} : Edited p q → (∀ x, (r.expr x).outputs = (q.expr x).outputs) → Edited p r
  /-- A use is entered. -/
  | use {q : Program} {v : ValueRef} {u : UseRef} : Edited p q → Edited p (q.addUse v u)
  /-- A value is joined to another one. If groups divide the values then it was alone. -/
  | join {q : Program} {v w : ValueRef} :
    Edited p q → q.HasValue v → q.HasValue w → (q.Grouped → ∀ y ∈ q.aliasGroup v, y = v) →
    Edited p (q.join v w)
  /-- An expression without registers is made. -/
  | push {q : Program} {e : Expr} :
    Edited p q → e.Unused →
    (e.outputs.length ≤ 1 ∨ ∃ x, e.outputs.length = (q.expr x).outputs.length) →
    Edited p { q with exprs := q.exprs.push e }

namespace Edited

theorem trans (h : p.Edited q) (h' : q.Edited r) : p.Edited r := by
  induction h' with
  | refl => exact h
  | same _ hsame ih => exact ih.same hsame
  | use _ ih => exact ih.use
  | join _ hv hw halone ih => exact ih.join hv hw halone
  | push _ he hcount ih => exact ih.push he hcount

/-- Changes that are edits one by one are edits together. -/
theorem foldl {α : Type} {f : Program → α → Program} (hf : ∀ (p : Program) a, p.Edited (f p a))
    (p : Program) (l : List α) : p.Edited (l.foldl f p) := by
  induction l generalizing p with
  | nil => exact refl
  | cons a l ih => exact (hf p a).trans (ih _)

theorem of_outputs (h : ∀ x, (q.expr x).outputs = (p.expr x).outputs) : p.Edited q := refl.same h

/-- Elementary changes leave the values divided into groups. -/
theorem grouped (h : p.Edited q) (hp : p.Grouped) : q.Grouped := by
  induction h with
  | refl => exact hp
  | same _ hsame ih =>
    have houtput : ∀ v, _ = _ := fun v : ValueRef => congrArg (·[v.output]?) (hsame v.producer)
    exact ih.of_aliasGroup (fun v => (hasValue_of_output? houtput v).mpr) (aliasGroup_of_output? houtput)
  | use _ ih => exact ih.of_aliasGroup (fun _ => hasValue_modifyOutput.mpr) (aliasGroup_addUse _ _)
  | @join q v w _ hv hw halone ih =>
    by_cases hne : v = w
    · -- A value that is alone heads its group.
      have hroot : q.root w = v := hne ▸ halone ih _ (List.mem_cons_self ..)
      rw [Program.join, if_pos hroot]
      exact ih
    · exact ih.join hv hw (halone ih) hne
  | push _ he _ ih =>
    refine ih.of_aliasGroup (fun v hv => ?_) (aliasGroup_push he)
    rw [hasValue_iff, output?_push, if_neg (Nat.ne_of_lt hv.lt_size)]
    exact hasValue_iff.mp hv

end Edited

/-- Making an expression without registers. -/
theorem edited_make (p : Program) {e : Expr} (he : e.Unused)
    (hcount : e.outputs.length ≤ 1 ∨ ∃ x, e.outputs.length = (p.expr x).outputs.length) :
    p.Edited (p.make e).2 :=
  (Edited.refl.push he hcount).trans (.foldl (fun _ (_, _) => Edited.refl.use) _ _)

theorem edited_makeOp (p : Program) (name : Label) (op : Op) (inputs : List ValueRef)
    (hop : op.outputs ≤ 1) : p.Edited (p.makeOp name op inputs).2 := by
  refine p.edited_make (p.unused_makeOp name op inputs) (.inl ?_)
  simp only [Op.expr, List.length_replicate]
  omega

theorem edited_uniqueName (p : Program) (base : Label) : p.Edited (p.uniqueName base).2 := by
  unfold uniqueName
  split
  · exact .of_outputs fun _ => rfl
  · exact .refl

/-- What joining the first `n` outputs of a new copy to those of its original makes of the groups: an
output of the copy that is behind them heads its own group, and whatever was joined to an output of the
copy is an output of the copy whose original has the same root. -/
structure JoinedFirst (p : Program) (id copy : ExprId) (n : Nat) (q : Program) : Prop where
  values : ∀ v, q.HasValue v ↔ p.HasValue v
  roots : ∀ k, n ≤ k → q.root ⟨copy, k⟩ = ⟨copy, k⟩
  aliases : ∀ k, p.HasValue ⟨copy, k⟩ → ∀ y ∈ q.aliases ⟨copy, k⟩,
    y.producer = copy ∧ q.root ⟨id, y.output⟩ = ⟨copy, k⟩

namespace JoinedFirst

variable {id copy : ExprId} {n : Nat}

/-- The next output of the copy is alone. -/
theorem alone (h : p.JoinedFirst id copy n q) (hne : copy ≠ id)
    (hsame : ∀ k, p.HasValue ⟨id, k⟩ ↔ p.HasValue ⟨copy, k⟩) (hn : p.HasValue ⟨copy, n⟩)
    (grouped : q.Grouped) : ∀ y ∈ q.aliasGroup ⟨copy, n⟩, y = ⟨copy, n⟩ := by
  intro y hy
  have hvalue := (h.values y).mp ((grouped _ ((h.values _).mpr hn)).2 y hy).1
  rw [aliasGroup_eq_cons, h.roots n (Nat.le_refl n)] at hy
  refine (List.mem_cons.mp hy).resolve_right fun hy => ?_
  obtain ⟨rfl, hroot⟩ := h.aliases n hn y hy
  -- The group would hold an output of the original.
  have hself := (grouped _ ((h.values _).mpr ((hsame y.output).mpr hvalue))).1
  rw [aliasGroup_eq_cons, hroot] at hself
  rcases List.mem_cons.mp hself with heq | hmem
  · exact hne (congrArg ValueRef.producer heq).symm
  · exact hne (h.aliases n hn _ hmem).1.symm

/-- Leaving out an output. -/
theorem succ (h : p.JoinedFirst id copy n q) : p.JoinedFirst id copy (n + 1) q :=
  ⟨h.values, fun k hk => h.roots k (Nat.le_of_succ_le hk), h.aliases⟩

/-- Joining the next output. -/
theorem join (h : p.JoinedFirst id copy n q) (hne : copy ≠ id) (hn : p.HasValue ⟨copy, n⟩) :
    p.JoinedFirst id copy (n + 1) (q.join ⟨copy, n⟩ ⟨id, n⟩) := by
  by_cases hhead : q.root ⟨id, n⟩ = ⟨copy, n⟩
  · rw [Program.join, if_pos hhead]
    exact h.succ
  have hroot := root_join hhead ((h.values _).mpr hn)
  refine ⟨fun v => hasValue_join.trans (h.values v), fun k hk => ?_, fun k hk y hy => ?_⟩
  · rw [hroot, if_neg fun he => by cases he; omega]
    exact h.roots k (Nat.le_of_succ_le hk)
  · rw [hroot, if_neg fun he => hne (congrArg ValueRef.producer he).symm]
    rw [aliases_join hhead fun _ => (h.values _).mpr hk] at hy
    split at hy
    · rename_i heq
      rcases List.mem_append.mp hy with hy | hy
      · exact h.aliases k hk y hy
      · rw [List.mem_singleton.mp hy]
        exact ⟨rfl, heq.symm⟩
    · exact h.aliases k hk y hy

end JoinedFirst

/-- Joining outputs of a new copy to those of its original. -/
theorem edited_joinUsedOutside (p : Program) (inside : List ExprId) {id copy : ExprId} (hne : copy ≠ id)
    (hsame : ∀ k, p.HasValue ⟨id, k⟩ ↔ p.HasValue ⟨copy, k⟩)
    (hnew : ∀ k, p.aliasGroup ⟨copy, k⟩ = [⟨copy, k⟩]) :
    p.Edited (p.joinUsedOutside inside id copy) := by
  suffices H : ∀ n ≤ (p.expr id).outputs.length, ∃ q, (List.range n).foldl (fun p k =>
      if p.usedOutside inside ⟨id, k⟩ then p.join ⟨copy, k⟩ ⟨id, k⟩ else p) p = q ∧ p.Edited q ∧
      p.JoinedFirst id copy n q by
    obtain ⟨q, hq, hedited, _⟩ := H _ (Nat.le_refl _)
    rw [joinUsedOutside, hq]
    exact hedited
  intro n hn
  induction n with
  | zero =>
    have hroots : ∀ k, p.root ⟨copy, k⟩ = ⟨copy, k⟩ := fun k => (List.cons.inj (hnew k)).1
    refine ⟨p, rfl, .refl, fun _ => .rfl, fun k _ => hroots k, fun k _ y hy => ?_⟩
    have hnone : p.aliases (p.root ⟨copy, k⟩) = [] := (List.cons.inj (hnew k)).2
    rw [hroots] at hnone
    exact absurd (hnone ▸ hy) List.not_mem_nil
  | succ n ih =>
    obtain ⟨q, hq, hedited, hjoined⟩ := ih (Nat.le_of_succ_le hn)
    rw [List.range_succ, List.foldl_append, hq, List.foldl_cons, List.foldl_nil]
    have hid : p.HasValue ⟨id, n⟩ := hn
    have hcopy := (hsame n).mp hid
    split
    · exact ⟨_, rfl, hedited.join ((hjoined.values _).mpr hcopy) ((hjoined.values _).mpr hid)
        (hjoined.alone hne hsame hcopy), hjoined.join hne hcopy⟩
    · exact ⟨q, rfl, hedited, hjoined.succ⟩

/-- Making a copy of an expression and joining its outputs. An expression that does not exist has no
outputs. -/
theorem edited_makeCopy (p : Program) (inside : List ExprId) (id : ExprId) (name : Label)
    (sources : List ValueRef) : p.Edited ((p.makeCopy id name sources).2.joinUsedOutside inside id
      (p.makeCopy id name sources).1) := by
  have hunused := unused_copy (p.expr id) id name sources
  have hlength : ((p.expr id).copy id name sources).outputs.length = (p.expr id).outputs.length :=
    List.length_map _
  have hmade := p.edited_make hunused (.inr ⟨id, hlength⟩)
  have hvalues := fun v => hasValue_make (p := p) (e := (p.expr id).copy id name sources) (v := v)
  refine hmade.trans ?_
  show (p.make ((p.expr id).copy id name sources)).2.Edited
    ((p.make ((p.expr id).copy id name sources)).2.joinUsedOutside inside id p.exprs.size)
  rcases Nat.lt_or_ge id p.exprs.size with hid | hid
  · refine edited_joinUsedOutside _ inside (Nat.ne_of_gt hid) (fun k => ?_) fun k => ?_
    · rw [hvalues, hvalues, if_neg (Nat.ne_of_lt hid), if_pos rfl, hlength]
      rfl
    · rw [aliasGroup_make hunused]
      exact aliasGroup_of_not_hasValue fun hv => Nat.lt_irrefl _ hv.lt_size
  · have hnone : ¬ (p.make ((p.expr id).copy id name sources)).2.HasValue ⟨id, 0⟩ := by
      rw [hvalues, hlength, expr_of_size_le hid]
      split
      · exact Nat.not_lt_zero _
      · exact fun hv => Nat.not_lt.mpr hid hv.lt_size
    rw [joinUsedOutside, Nat.eq_zero_of_not_pos hnone]
    exact .refl

/-- Copying an expression. -/
theorem edited_copyNext (inside : List ExprId) (state : List (ExprId × ExprId) × Program)
    (id : ExprId) : state.2.Edited (copyNext inside state id).2 :=
  (state.2.edited_uniqueName (state.2.expr id).name).trans (edited_makeCopy _ inside id _ _)

/-- Copying several expressions. -/
theorem edited_copyAll (p : Program) (inside : List ExprId) : p.Edited (p.copyAll inside).2 := by
  suffices H : ∀ (ids : List ExprId) (state : List (ExprId × ExprId) × Program),
      state.2.Edited (ids.foldl (copyNext inside) state).2 from H inside ([], p)
  intro ids
  induction ids with
  | nil => exact fun state => .refl
  | cons id ids ih => exact fun state => (edited_copyNext inside state id).trans (ih _)

/-- Putting expressions into the program. -/
theorem edited_insertAt {position : Int} {ids : List ExprId}
    (h : Edit.insertAt position ids p = .ok () q) : p.Edited q := by
  rw [(insertAt_eq_ok h).2]
  exact .of_outputs fun _ => rfl

/-- Making the marker of a loop. -/
theorem edited_makeMarker {kind base : String} {role : Role} {outputs : Int} {outer : List LoopId}
    {inputs : List ValueRef} {marker : ExprId} (houtputs : outputs ≤ 1)
    (h : Edit.makeMarker kind role base outputs id outer inputs p = .ok marker q) : p.Edited q := by
  have hname := p.edited_uniqueName (base ++ toString id)
  have hq := modifyGet_eq_ok.mp h
  dsimp only at hq
  generalize p.uniqueName (base ++ toString id) = named at hname hq
  obtain ⟨name, u⟩ := named
  have hmade := u.edited_makeOp name { kind, role, outputs, loop := id } inputs houtputs
  dsimp only at hname hq
  generalize u.makeOp name { kind, role, outputs, loop := id } inputs = made at hmade hq
  rw [← (Prod.mk.inj hq).2]
  refine (hname.trans hmade).trans (.of_outputs fun x => ?_)
  rw [setLoops, expr_modifyExpr]
  split <;> rfl

/-- Inserting the markers of a loop. -/
theorem edited_insertMarkers {markers : ExprId × ExprId} (h : Edit.insertMarkers id p = .ok markers q) :
    p.Edited q := by
  unfold Edit.insertMarkers at h
  obtain ⟨_, _, h⟩ := ask_bind_eq_ok.mp h
  obtain ⟨⟨first, last⟩, _, h⟩ := ask_bind_eq_ok.mp h
  dsimp only at h
  rw [get_bind] at h
  obtain ⟨_, u, hbegin, h⟩ := bind_eq_ok.mp h
  obtain ⟨_, u', hpointers, h⟩ := bind_eq_ok.mp h
  obtain ⟨_, v, hend, h⟩ := bind_eq_ok.mp h
  obtain ⟨_, w, hafter, h⟩ := bind_eq_ok.mp h
  obtain ⟨_, x, hbefore, h⟩ := bind_eq_ok.mp h
  obtain ⟨_, rfl⟩ := pure_eq_ok.mp h
  have hsame : u = u' := (mapM_eq_ok_of_same (fun _ _ _ _ hask => (ask_eq_ok.mp hask).2) hpointers).1
  subst hsame
  exact (((edited_makeMarker (by decide) hbegin).trans (edited_makeMarker (by decide) hend)).trans
    (edited_insertAt hafter)).trans (edited_insertAt hbefore)

/-- Inserting the markers of all loops. -/
theorem edited_insertAllMarkers (h : Edit.insertAllMarkers p = .ok () q) : p.Edited q := by
  unfold Edit.insertAllMarkers at h
  rw [get_bind] at h
  refine forM_invariant (P := p.Edited) .refl (fun id _ u v hu hv => ?_) h
  obtain ⟨_, hv, _⟩ := map_eq_ok.mp hv
  exact hu.trans (edited_insertMarkers hv)

/-- Making an expression without inputs and putting it at the end. -/
theorem edited_add {name : Label} {op : Op} {id : ExprId} (hop : op.outputs ≤ 1)
    (h : Edit.add name op [] p = .ok id q) : p.Edited q := by
  rw [(add_eq_ok h).2]
  exact (p.edited_makeOp name op [] hop).trans (.of_outputs fun _ => rfl)

/-- A handler may add an expression. -/
theorem edited_runHandler {handler : Handler} {event : HandlerEvent}
    (h : Edit.runHandler id handler p = .ok event q) : p.Edited q := by
  obtain ⟨l, _, hq⟩ := Edit.runHandler_eq_ok h
  have hu : p.Edited { p with loops := p.loops.rebind id (.expanded (handler.adjust l)) } :=
    .of_outputs fun _ => rfl
  rcases hq with rfl | ⟨op, made, hop, hadd⟩
  · exact hu
  · exact (hu.trans (edited_uniqueName _ _)).trans (edited_add hop hadd)

/-- Handlers may add expressions. -/
theorem edited_runHandlers {iteration : Iteration}
    (h : Edit.runHandlers id origin iteration p = .ok events q) : p.Edited q := by
  unfold Edit.runHandlers at h
  rw [get_bind] at h
  exact mapM_invariant .refl (fun _ _ _ _ _ hu hv => hu.trans (edited_runHandler hv)) h

/-- Putting a copy of a loop into the program. -/
theorem edited_insertPart {v : Variant} {outcome : Nat × List HandlerEvent}
    (h : Edit.insertPart id origin whole v place p = .ok outcome q) : p.Edited q := by
  unfold Edit.insertPart at h
  obtain ⟨_, _, h⟩ := ask_bind_eq_ok.mp h
  dsimp only at h
  obtain ⟨copies, r, hcopy, h⟩ := bind_eq_ok.mp h
  obtain ⟨new, s, hbind, h⟩ := bind_eq_ok.mp h
  obtain ⟨renumber, u, hinner, h⟩ := bind_eq_ok.mp h
  obtain ⟨_, w, hmodify, h⟩ := bind_eq_ok.mp h
  obtain ⟨_, x, hinsert, h⟩ := bind_eq_ok.mp h
  obtain ⟨_, y, hhandlers, h⟩ := bind_eq_ok.mp h
  obtain ⟨_, rfl⟩ := pure_eq_ok.mp h
  obtain ⟨inside, _, hcopied⟩ := copyRange_eq_ok hcopy
  have hr : p.Edited r := by
    have := p.edited_copyAll inside
    rwa [hcopied] at this
  have hs : r.Edited s := by
    rw [← (change_eq_ok.mp hbind).2]
    exact .of_outputs fun _ => rfl
  have hu : s.Edited u := by
    obtain ⟨t, rfl⟩ := copyInnerLoops_eq_ok hinner
    exact .of_outputs fun _ => rfl
  have hw : u.Edited w := by
    rw [← modify_eq_ok.mp hmodify]
    refine .foldl (fun p (_, copy) => .of_outputs fun x => ?_) _ _
    rw [expr_modifyExpr]
    split <;> rfl
  exact ((((hr.trans hs).trans hu).trans hw).trans (edited_insertAt hinsert)).trans
    (edited_runHandlers hhandlers)

/-- Replacing a loop by its parts. -/
theorem edited_insertParts {vs : List Variant}
    (h : Edit.insertParts id origin whole place vs p = .ok events q) : p.Edited q := by
  induction vs generalizing p place events with
  | nil =>
    obtain ⟨_, rfl⟩ := pure_eq_ok.mp h
    exact .refl
  | cons v vs ih =>
    cases vs with
    | nil =>
      obtain ⟨loops, _, h⟩ := ask_bind_eq_ok.mp h
      obtain ⟨_, r, hmodify, h⟩ := bind_eq_ok.mp h
      have hr : p.Edited r := by
        rw [← modify_eq_ok.mp hmodify]
        exact .of_outputs fun _ => rfl
      exact hr.trans (edited_runHandlers h)
    | cons v' vs =>
      obtain ⟨⟨count, first⟩, r, hpart, h⟩ := bind_eq_ok.mp h
      obtain ⟨rest, s, hrest, h⟩ := bind_eq_ok.mp h
      obtain ⟨_, rfl⟩ := pure_eq_ok.mp h
      exact (edited_insertPart hpart).trans (ih hrest)

/-- Splitting all loops. -/
theorem edited_splitLoops (h : Edit.splitLoops p = .ok events q) : p.Edited q := by
  obtain ⟨_, _, hsplit⟩ := splitLoops_eq_ok h
  refine mapM_invariant .refl (fun _ _ _ _ _ hu hv => ?_) hsplit
  obtain ⟨_, _, _, _, hparts⟩ := splitLoop_eq_ok hv
  exact hu.trans (edited_insertParts hparts)

end Program

/-- Lowering the loops of a program comes down to elementary changes. -/
theorem Kernel.edited_lowerLoops {options : CompileOptions} {u w : Workspace}
    (h : lowerLoops options u = .ok events w) : u.program.Edited w.program := by
  obtain ⟨q, r, hinit, hmark, hsplit, _⟩ := lowerLoops_eq_ok h
  have hq : u.program.Edited q := by
    rw [(Program.repointed_initLoops hinit).1]
    exact .of_outputs fun _ => rfl
  refine (hq.trans (Program.edited_insertAllMarkers hmark)).trans ?_
  split at hsplit
  · rw [hsplit]
    exact .refl
  · exact Program.edited_splitLoops hsplit

end TensorKernel
