import TensorKernel.Proofs.Liveness.Coverage

/-!
# Live ranges can be computed

The computation of live ranges stops only where a pointer of the kernel boundary leads to a port that does
not exist, or at an output that belongs to no bank. It never records a range or a live set twice, since
registers are handed out by counting and every expression is visited once.
-/

namespace TensorKernel

open Outcome Program

namespace RangeState

/-- The next registers have no live ranges yet, and the expressions that are not done no live sets. -/
structure Ready (p : Program) (done : List ExprId) (s : RangeState) : Prop where
  bare : s.program.bare = p.bare
  free : ∀ bank (n : Nat), s.counts bank ≤ n → s.live.ranges.contains ⟨bank, n⟩ = false
  unrecorded : ∀ x ∉ done, s.live.set? x = none

variable {p : Program} {s : RangeState} {done : List ExprId}

theorem Ready.takes (h : s.Ready p done) (bank : Bank) {range : Interval}
    (hle : range.start ≤ range.stop) : s.Takes bank range :=
  ⟨h.free bank _ (Nat.le_refl _), hle⟩

theorem Ready.handOut (h : s.Ready p done) (bank : Bank) (values : List ValueRef) (range : Interval) :
    (s.handOut bank values range).Ready p done where
  bare := (bare_giveAll ..).trans h.bare
  free other n hn := by
    have hn : (if other = bank then s.counts bank + 1 else s.counts other) ≤ n := hn
    show (s.live.ranges.insert ⟨bank, s.counts bank⟩ range).contains ⟨other, n⟩ = false
    rw [RegTable.contains, RegTable.get?_insert, if_neg]
    · refine h.free other n ?_
      split at hn
      · rename_i heq
        rw [heq]
        omega
      · exact hn
    · intro heq
      simp only [Reg.mk.injEq, Int.natCast_inj] at heq
      rw [if_pos heq.1.symm] at hn
      omega
  unrecorded := h.unrecorded

/-- Recording the live set of an expression. -/
theorem Ready.putSet (h : s.Ready p done) (id : ExprId) (regs : RegSet) (expiring : RegTable Int) :
    { s with live := s.live.putSet id regs, expiring }.Ready p (done ++ [id]) where
  bare := h.bare
  free := h.free
  unrecorded x hx := by
    rw [List.mem_append, List.mem_singleton, not_or] at hx
    rw [Liveness.set?_putSet, if_neg (Ne.symm hx.2)]
    exact h.unrecorded x hx.1

end RangeState

namespace RangeStep

open RangeState

variable {p : Program} {s : RangeState} {done : List ExprId}

/-- A pointer of the kernel boundary gets its register. -/
theorem assignGlobal_ok (h : s.Ready p done) (hne : p.order ≠ []) (values : List ValueRef) :
    ∃ t, assignGlobal values s = .ok () t ∧ t.Ready p done := by
  unfold assignGlobal
  rw [get_bind]
  cases values with
  | nil => exact ⟨s, rfl, h⟩
  | cons first values =>
    dsimp only
    split
    · refine ⟨_, assign_eq_ok.mpr ⟨h.takes _ ?_, rfl⟩, h.handOut ..⟩
      have hpos := List.length_pos_iff.mpr hne
      show (0 : Int) ≤ s.program.length - 1
      rw [length_congr h.bare, Program.length]
      omega
    · exact ⟨s, rfl, h⟩

/-- An output of a bank gets its register. -/
theorem visitOutput_ok (h : s.Ready p done) {id : ExprId} (hbank : (p.expr id).role.bank ≠ .undefined)
    (k : Nat) : ∃ t, visitOutput id k s = .ok () t ∧ t.Ready p done := by
  rw [← role_congr h.bare] at hbank
  unfold visitOutput
  rw [get_bind]
  dsimp only
  split
  · refine ⟨_, assign_eq_ok.mpr ⟨h.takes _ ?_, rfl⟩, h.handOut ..⟩
    exact (foldl_max_le.mp (Int.le_refl _)).1
  · exact ⟨s, rfl, h⟩

/-- An expression is visited. -/
theorem visit_ok (h : s.Ready p done) {id : ExprId} (hnew : id ∉ done)
    (hbank : ¬ p.IsSilent id → (p.expr id).role.bank ≠ .undefined) :
    ∃ t, visit id s = .ok () t ∧ t.Ready p (done ++ [id]) := by
  have hnone := h.unrecorded id hnew
  have hsilent : s.program.IsSilent id ↔ p.IsSilent id := by
    rw [IsSilent, role_congr h.bare, IsSilent]
  unfold visit
  rw [get_bind]
  by_cases hs : (s.program.expr id).role = .loopEnd ∨ (s.program.expr id).role = .result
  · rw [if_pos hs]
    exact ⟨_, recordLive_eq_ok.mpr ⟨hnone, rfl⟩, h.putSet id ∅ s.expiring⟩
  · rw [if_neg hs]
    let u := s.enter id (s.program.expr id).exec
    have hu : u.Ready p (done ++ [id]) := h.putSet id _ _
    have hrecord : recordLive id (s.liveAt (s.program.expr id).exec).keySet
        { s with expiring := s.liveAt (s.program.expr id).exec } = .ok () u :=
      recordLive_eq_ok.mpr ⟨hnone, rfl⟩
    rw [bind_of_ok (a := ⟨⟩) (modify_eq_ok.mpr rfl),
      get_bind]
    obtain ⟨t, ht, hready⟩ := forM_of_step (f := visitOutput id) (s := u)
      (l := List.range (s.program.expr id).outputs.length) (P := fun _ t => t.Ready p (done ++ [id])) hu
      fun _ k _ t _ ht => visitOutput_ok ht (hbank (fun hp => hs (hsilent.mpr hp))) k
    exact ⟨t, (bind_of_ok hrecord).trans ht, hready⟩

/-- The pointers of expressions are assigned one after the other. -/
theorem forM_assignGlobal_ok (h : s.Ready p []) (hne : p.order ≠ []) (ids : List ExprId)
    (question : ExprId → Program → Except Fault (List ValueRef))
    (hquestion : ∀ id ∈ ids, ∀ q : Program, q.bare = p.bare → ∃ values, question id q = .ok values) :
    ∃ t, (ids.forM fun id => do assignGlobal (← ask (question id))) s = .ok () t ∧ t.Ready p [] := by
  refine forM_of_step (P := fun _ => RangeState.Ready p []) h fun _ id _ u hl hu => ?_
  obtain ⟨values, hvalues⟩ := hquestion id (by simp [hl]) u.program hu.bare
  rw [bind_of_ok (ask_eq_ok.mpr ⟨hvalues, rfl⟩)]
  exact assignGlobal_ok hu hne values

end RangeStep

/-- Live ranges of a numbered program can be computed if the pointers of its boundary lead to ports that
exist and its outputs belong to banks. -/
theorem Workspace.computeRanges_ok {p : Program} (numbered : p.Enumerated)
    (parameters : ∀ id ∈ p.parameters, ∃ values, RangeStep.parameterPointer id p = .ok values)
    (results : ∀ id ∈ p.results, ∃ values, RangeStep.resultPointer id p = .ok values)
    (banks : ∀ id ∈ p.order, ¬ p.IsSilent id → (p.expr id).role.bank ≠ .undefined) :
    ∃ w, computeRanges { program := p } = .ok () w := by
  have hstart : RangeState.Ready p [] { program := p } :=
    ⟨rfl, fun _ _ _ => rfl, fun _ _ => rfl⟩
  suffices h : ∃ t, RangeStep.computeRanges { program := p } = .ok () t by
    obtain ⟨t, ht⟩ := h
    refine ⟨t.toWorkspace, ?_⟩
    unfold computeRanges
    rw [ht]
  unfold RangeStep.computeRanges
  rw [bind_of_ok (RangeStep.ask_eq_ok.mpr ⟨checkEnumerated_eq_ok.mpr numbered, rfl⟩),
    get_bind]
  dsimp only
  split
  · exact ⟨_, rfl⟩
  · rename_i hne
    have hne : p.order ≠ [] := by simpa using hne
    obtain ⟨t, ht, htready⟩ := RangeStep.forM_assignGlobal_ok hstart hne p.parameters
      RangeStep.parameterPointer fun id hid q hq => by
        obtain ⟨values, hvalues⟩ := parameters id hid
        exact ⟨values, by rw [← bare_parameterPointer, hq, bare_parameterPointer, hvalues]⟩
    obtain ⟨u, hu, huready⟩ := RangeStep.forM_assignGlobal_ok htready hne p.results
      RangeStep.resultPointer fun id hid q hq => by
        obtain ⟨values, hvalues⟩ := results id hid
        exact ⟨values, by rw [← bare_resultPointer, hq, bare_resultPointer, hvalues]⟩
    have hglobals : RangeStep.assignGlobals { program := p } = .ok () u := by
      unfold RangeStep.assignGlobals
      rw [get_bind, bind_of_ok ht]
      exact hu
    rw [bind_of_ok hglobals]
    obtain ⟨x, hx, _⟩ := forM_of_step (f := RangeStep.visit) (s := u) (l := p.order)
      (P := fun done t => t.Ready p done) huready fun done id rest t horder ht => by
        refine RangeStep.visit_ok ht (fun hmem => ?_) (banks id (by simp [horder]))
        have hnodup := numbered.nodup
        rw [horder, List.nodup_append] at hnodup
        exact hnodup.2.2 id hmem id List.mem_cons_self rfl
    exact ⟨x, hx⟩

end TensorKernel
