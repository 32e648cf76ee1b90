import TensorKernel.Proofs.Allocation.Pins

/-!
# Registers of the kernel boundary

The pointers of the kernel boundary are assigned before the first visit, those of the parameters
first. A pointer whose first value has no register when its turn comes takes the next general-purpose
one. When the visits begin, these registers are all that was recorded, each with the interval of the
whole program.
-/

namespace TensorKernel

open Outcome Program RangeState

variable {values : List ValueRef} {p : Program} {s t : RangeState} {r : Reg} {n : Nat} {w w₀ : Workspace}

namespace RangeStep

/-- Assign a boundary pointer if its values were found. -/
def assignPointer : Except Fault (List ValueRef) → RangeStep Unit
  | .ok values => assignGlobal values
  | .error fault => throw fault

/-- Assigning a pointer writes nothing but registers. -/
theorem bare_assignGlobal (h : assignGlobal values s = .ok () t) : t.program.bare = s.program.bare := by
  rcases assignGlobal_cases h with ⟨_, rfl⟩ | ⟨_, _, rfl⟩
  · rfl
  · exact bare_giveAll ..

/-- Registers do not matter for the pointers that are found, so they can all be looked up first. -/
theorem forM_assignPointer {pointer : ExprId → Program → Except Fault (List ValueRef)}
    (hpointer : ∀ id (q : Program), q.bare = p.bare → pointer id q = pointer id p) {ids : List ExprId}
    (hs : s.program.bare = p.bare)
    (h : (ids.forM fun id => do assignGlobal (← ask (pointer id))) s = .ok () t) :
    (ids.map (pointer · p)).forM assignPointer s = .ok () t ∧ t.program.bare = p.bare := by
  induction ids generalizing s with
  | nil =>
    obtain rfl := (pure_eq_ok.mp h).2
    exact ⟨rfl, hs⟩
  | cons id ids ih =>
    obtain ⟨_, u, hstep, h⟩ := bind_eq_ok.mp h
    obtain ⟨values, hq, hu⟩ := ask_bind_eq_ok.mp hstep
    rw [hpointer id _ hs] at hq
    obtain ⟨hrest, ht⟩ := ih ((bare_assignGlobal hu).trans hs) h
    have hfirst : assignPointer (pointer id p) s = .ok () u := by
      rw [hq]
      exact hu
    exact ⟨bind_eq_ok.mpr ⟨(), u, hfirst, hrest⟩, ht⟩

/-- The boundary is assigned pointer by pointer. -/
theorem forM_pointers (hs : s.program.bare = p.bare) (h : assignGlobals s = .ok () t) :
    p.pointers.forM assignPointer s = .ok () t ∧ t.program.bare = p.bare := by
  rw [assignGlobals, get_bind] at h
  obtain ⟨_, u, hu, h⟩ := bind_eq_ok.mp h
  rw [parameters_congr hs] at hu
  rw [results_congr hs] at h
  obtain ⟨hparameters, hbare⟩ := forM_assignPointer
    (fun id q hq => by rw [← bare_parameterPointer, hq, bare_parameterPointer]) hs hu
  obtain ⟨hresults, ht⟩ := forM_assignPointer
    (fun id q hq => by rw [← bare_resultPointer, hq, bare_resultPointer]) hbare h
  exact ⟨forM_append_eq_ok.mpr ⟨u, hparameters, hresults⟩, ht⟩

/-- Assigning pointers reaches what comes behind them. -/
theorem reached_forM_pointers {l : List (Except Fault (List ValueRef))}
    (h : l.forM assignPointer s = .ok () t) (hs : s.program.bare = p.bare)
    (hl : ∀ pointer ∈ l, pointer ∈ p.pointers) : Reached p s t [] none t := by
  refine forM_invariant (P := fun x => Reached p s x [] none x) .start ?_ h
  intro pointer hpointer x y hx hy
  cases pointer with
  | error fault => exact absurd hy throw_ne_ok
  | ok values =>
    obtain ⟨n, hn⟩ := List.mem_iff_getElem?.mp (hl _ hpointer)
    exact hx.trans (reached_assignGlobal (hx.bare hs) (isPointer_of_pointers hn) hy)

/-- A pointer has its turn between the pointers before it and those behind it. -/
theorem exists_turn (hn : p.pointers[n]? = some (.ok values)) (hs : s.program.bare = p.bare)
    (h : p.pointers.forM assignPointer s = .ok () t) :
    ∃ x y, (p.pointers.take n).forM assignPointer s = .ok () x ∧ Reached p s x [] none x ∧
      assignGlobal values x = .ok () y ∧ Reached p y t [] none t := by
  have hsplit : p.pointers = p.pointers.take n ++ .ok values :: p.pointers.drop (n + 1) := by
    obtain ⟨hlt, hget⟩ := List.getElem?_eq_some_iff.mp hn
    rw [← hget, ← List.drop_eq_getElem_cons hlt, List.take_append_drop]
  rw [hsplit, forM_append_eq_ok] at h
  obtain ⟨x, hx, h⟩ := h
  obtain ⟨_, y, hturn, hrest⟩ := bind_eq_ok.mp h
  have hturn : assignGlobal values x = .ok () y := hturn
  have hreached := reached_forM_pointers hx hs fun _ h => List.mem_of_mem_take h
  have hbare := (bare_assignGlobal hturn).trans (hreached.bare hs)
  exact ⟨x, y, hx, hreached, hturn,
    reached_forM_pointers hrest hbare fun _ h => List.mem_of_mem_drop h⟩

end RangeStep

/-- The boundary pointer at place `n` is given the register `r` when live ranges are computed in `w₀`:
the pointers before it have been assigned, its first value has no register then, and `r` is the next
one. -/
def Workspace.GivesPointer (w₀ : Workspace) (n : Nat) (r : Reg) : Prop :=
  ∃ first views s, w₀.program.pointers[n]? = some (.ok (first :: views)) ∧
    (w₀.program.pointers.take n).forM RangeStep.assignPointer { toWorkspace := w₀ } = .ok () s ∧
    (s.program.abstractReg first).isDefined = false ∧ r = ⟨.gpr, s.counts .gpr⟩

/-- The boundary pointer at place `n` is given the register `r` when live ranges are computed from
scratch. -/
def Program.GivesPointer (p : Program) (n : Nat) (r : Reg) : Prop :=
  Workspace.GivesPointer { program := p } n r

/-- Only the pointers of the boundary are given registers. -/
theorem Workspace.GivesPointer.lt (h : w₀.GivesPointer n r) : n < w₀.program.pointers.length := by
  obtain ⟨_, _, _, hplace, _⟩ := h
  exact (List.getElem?_eq_some_iff.mp hplace).1

/-- The register that the pointer at a place is given is settled when its turn comes. -/
theorem Workspace.givesPointer_iff {first : ValueRef} {views : List ValueRef}
    (hn : w₀.program.pointers[n]? = some (.ok (first :: views)))
    (hs : (w₀.program.pointers.take n).forM RangeStep.assignPointer { toWorkspace := w₀ } = .ok () s) :
    w₀.GivesPointer n r ↔ (s.program.abstractReg first).isDefined = false ∧ r = ⟨.gpr, s.counts .gpr⟩ := by
  constructor
  · rintro ⟨first', views', s', hn', hs', hd, hr⟩
    cases hn.symm.trans hn'
    cases hs.symm.trans hs'
    exact ⟨hd, hr⟩
  · rintro ⟨hd, hr⟩
    exact ⟨first, views, s, hn, hs, hd, hr⟩

namespace RangeState

/-- What is recorded after the first `n` boundary pointers were assigned: what was recorded in `w₀`, and
the registers that were given to the pointers. -/
structure Bounded (w₀ : Workspace) (n : Nat) (s : RangeState) : Prop where
  new : ∀ k < n, ∀ r, w₀.GivesPointer k r → w₀.live.ranges.get? r = none
  ranges : ∀ r i, s.live.ranges.get? r = some i ↔ w₀.live.ranges.get? r = some i ∨
    i = ⟨0, w₀.program.length - 1⟩ ∧ ∃ k < n, w₀.GivesPointer k r

/-- A register that a pointer is not given is recorded up to it as before it. -/
theorem Bounded.ranges_succ (h : s.Bounded w₀ n) (hn : ¬ w₀.GivesPointer n r) (i : Interval) :
    s.live.ranges.get? r = some i ↔ w₀.live.ranges.get? r = some i ∨
      i = ⟨0, w₀.program.length - 1⟩ ∧ ∃ k < n + 1, w₀.GivesPointer k r := by
  rw [h.ranges r i, Nat.exists_lt_succ_right, or_iff_left hn]

/-- A pointer that has a register takes no other one. -/
theorem Bounded.keep (h : s.Bounded w₀ n) (hn : ∀ r, ¬ w₀.GivesPointer n r) : s.Bounded w₀ (n + 1) where
  new k hk r hgives := by
    rcases Nat.lt_succ_iff_lt_or_eq.mp hk with hk | rfl
    · exact h.new k hk r hgives
    · exact absurd hgives (hn r)
  ranges r := h.ranges_succ (hn r)

/-- A pointer without a register takes the next one. -/
theorem Bounded.give (h : s.Bounded w₀ n) (htakes : s.Takes .gpr ⟨0, w₀.program.length - 1⟩)
    (hn : ∀ r, w₀.GivesPointer n r ↔ r = ⟨.gpr, s.counts .gpr⟩) :
    (s.handOut .gpr values ⟨0, w₀.program.length - 1⟩).Bounded w₀ (n + 1) where
  new k hk r hgives := by
    rcases Nat.lt_succ_iff_lt_or_eq.mp hk with hk | rfl
    · exact h.new k hk r hgives
    · refine Option.eq_none_iff_forall_ne_some.mpr fun i hi => ?_
      exact htakes.ne ((h.ranges r i).mpr (.inl hi)) ((hn r).mp hgives).symm
  ranges r i := by
    rw [get?_handOut]
    split
    · rename_i he
      constructor
      · intro hi
        cases hi
        exact .inr ⟨rfl, n, Nat.lt_succ_self n, (hn r).mpr he.symm⟩
      · rintro (hi | ⟨rfl, _⟩)
        · exact absurd he (htakes.ne ((h.ranges r i).mpr (.inl hi)))
        · rfl
    · rename_i hne
      exact h.ranges_succ (fun hgives => hne ((hn r).mp hgives).symm) i

/-- One pointer is assigned. -/
theorem Bounded.step (h : s.Bounded w₀ n) (hbare : s.program.bare = w₀.program.bare)
    {pointer : Except Fault (List ValueRef)} (hn : w₀.program.pointers[n]? = some pointer)
    (hs : (w₀.program.pointers.take n).forM RangeStep.assignPointer { toWorkspace := w₀ } = .ok () s)
    (ht : RangeStep.assignPointer pointer s = .ok () t) : t.Bounded w₀ (n + 1) := by
  cases pointer with
  | error fault => exact absurd ht throw_ne_ok
  | ok values =>
    obtain ⟨first, views, rfl⟩ := (isPointer_of_pointers hn).exists_first
    have hgives := fun r => Workspace.givesPointer_iff (r := r) hn hs
    have ht : RangeStep.assignGlobal (first :: views) s = .ok () t := ht
    rcases RangeStep.assignGlobal_cases ht with ⟨hd, rfl⟩ | ⟨hd, htakes, rfl⟩
    · refine h.keep fun r hr => ?_
      have hnone := ((hgives r).mp hr).1
      rw [hd first rfl] at hnone
      cases hnone
    · rw [length_congr hbare] at htakes ⊢
      refine h.give htakes fun r => ?_
      rw [hgives r]
      exact and_iff_right (hd first rfl)

/-- All pointers are assigned. -/
theorem bounded_assignGlobals (h : RangeStep.assignGlobals { toWorkspace := w₀ } = .ok () t) :
    t.Bounded w₀ w₀.program.pointers.length := by
  obtain ⟨hrun, _⟩ := RangeStep.forM_pointers rfl h
  have hall := forM_induction (P := fun done x =>
    done.forM RangeStep.assignPointer { toWorkspace := w₀ } = .ok () x ∧
      x.program.bare = w₀.program.bare ∧ x.Bounded w₀ done.length) ?_ ?_ hrun
  · exact hall.2.2
  · exact ⟨rfl, rfl, by simp, by simp⟩
  · intro done pointer rest x y hsplit ⟨hdone, hbare, hx⟩ hy
    have htake : w₀.program.pointers.take done.length = done := by
      rw [hsplit, List.take_left]
    refine ⟨forM_concat hdone hy, ?_, ?_⟩
    · cases pointer with
      | error fault => exact absurd hy throw_ne_ok
      | ok values => exact (RangeStep.bare_assignGlobal hy).trans hbare
    · rw [List.length_append, List.length_singleton]
      exact hx.step hbare (by simp [hsplit]) (htake.symm ▸ hdone) hy

/-- When all pointers have been assigned, the registers that they were given are recorded as live
throughout. -/
theorem Bounded.get?_of_givesPointer (h : s.Bounded w₀ w₀.program.pointers.length)
    (hr : w₀.GivesPointer n r) : w₀.live.ranges.get? r = none ∧
      s.live.ranges.get? r = some ⟨0, w₀.program.length - 1⟩ :=
  ⟨h.new n hr.lt r hr, (h.ranges r _).mpr (.inr ⟨rfl, n, hr.lt, hr⟩)⟩

/-- Nothing else was recorded by then. -/
theorem Bounded.contains_iff (h : s.Bounded w₀ w₀.program.pointers.length)
    (hr : w₀.live.ranges.get? r = none) :
    s.live.ranges.contains r = true ↔ ∃ n, w₀.GivesPointer n r := by
  constructor
  · intro hcontains
    obtain ⟨i, hi⟩ := Option.isSome_iff_exists.mp hcontains
    rcases (h.ranges r i).mp hi with hold | ⟨_, n, _, hn⟩
    · rw [hr] at hold
      cases hold
    · exact ⟨n, hn⟩
  · rintro ⟨n, hn⟩
    exact Option.isSome_of_eq_some (h.get?_of_givesPointer hn).2

end RangeState

/-- A register that a boundary pointer was given had no interval before and is live throughout. -/
theorem Workspace.get?_of_givesPointer (h : computeRanges w₀ = .ok () w) (hr : w₀.GivesPointer n r) :
    w₀.live.ranges.get? r = none ∧ w.live.ranges.get? r = some ⟨0, w₀.program.length - 1⟩ := by
  obtain ⟨_, s, u, rfl, hglobals, hreached⟩ := reached_of_computeRanges h
  obtain ⟨hnew, hget⟩ := (RangeState.bounded_assignGlobals hglobals).get?_of_givesPointer hr
  exact ⟨hnew, hreached.visits.get?_ranges hget⟩

end TensorKernel
