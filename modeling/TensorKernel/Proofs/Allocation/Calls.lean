import TensorKernel.Proofs.Allocation.LinearScan

/-!
# Linear scan over many calls

A scan keeps its state from one call to the next, also when a call is refused. A call that breaks the
contract is refused before anything happens. Any other call hands out registers to the intervals of its
queue one after the other, perhaps only to some of them, and the next call may start before intervals that
the scan has already taken registers back from. What holds of the state at all times is that the active
intervals are in order and that, with the free registers, there are as many of them as the pool has
registers. As long as no abstract register comes back in a later call, the registers of the active
intervals and the free ones are the pool.
-/

namespace TensorKernel

variable {calls : List (RegTable Interval)}

namespace LinearScan

open Outcome

/-- The scan that a call leaves behind, whether it succeeds or is refused. -/
def leave (s : LinearScan) (ranges : RegTable Interval) : LinearScan :=
  match allocate ranges s with
  | .ok _ t | .error _ t => t

/-- The scan that a sequence of calls leaves behind. -/
def leaveAll (s : LinearScan) (calls : List (RegTable Interval)) : LinearScan := calls.foldl leave s

/-- The states of a scan that serves a sequence of calls: between the calls, and within a call behind each
interval that was given a register and once registers were taken back for the next one. -/
inductive Visits : LinearScan → List (RegTable Interval) → LinearScan → Prop
  | start (s : LinearScan) (calls : List (RegTable Interval)) : Visits s calls s
  | placed {s u : LinearScan} {ranges : RegTable Interval} {calls : List (RegTable Interval)}
    {done rest : List LiveReg} : s.Accepts ranges → queue ranges = done ++ rest →
    done.forM place s = .ok () u → Visits s (ranges :: calls) u
  | expired {s u : LinearScan} {ranges : RegTable Interval} {calls : List (RegTable Interval)}
    {done rest : List LiveReg} {l : LiveReg} : s.Accepts ranges → queue ranges = done ++ l :: rest →
    done.forM place s = .ok () u → Visits s (ranges :: calls) (u.expire l.range.start)
  | next {s u : LinearScan} {ranges : RegTable Interval} {calls : List (RegTable Interval)} :
    Visits (s.leave ranges) calls u → Visits s (ranges :: calls) u

variable {s t u : LinearScan} {l : LiveReg} {ranges : RegTable Interval}

/-! ### Order and number -/

/-- What a call leaves behind: nothing new, or the state behind a part of its queue. -/
theorem Intact.leave_cases (h : s.Intact) (ranges : RegTable Interval) :
    ¬ s.Accepts ranges ∧ s.leave ranges = s ∨
      s.Accepts ranges ∧ ∃ done rest u, queue ranges = done ++ rest ∧
        done.forM LinearScan.place s = .ok () u ∧
        (s.leave ranges = u ∨
          ∃ l behind, rest = l :: behind ∧ s.leave ranges = u.expire l.range.start) := by
  by_cases haccepts : s.Accepts ranges
  · refine .inr ⟨haccepts, ?_⟩
    have hcall := haccepts.allocate_eq
    cases hrun : (queue ranges).forM LinearScan.place s with
    | ok a t =>
      rw [hrun] at hcall
      refine ⟨queue ranges, [], t, (List.append_nil _).symm, hrun, .inl ?_⟩
      rw [leave, hcall]
    | error e t =>
      rw [hrun] at hcall
      obtain ⟨done, l, rest, u, hsplit, hdone, _, _, rfl⟩ := h.forM_place_eq_error hrun
      refine ⟨done, l :: rest, u, hsplit, hdone, .inr ⟨l, rest, rfl, ?_⟩⟩
      rw [leave, hcall]
  · obtain ⟨f, _, hcall⟩ := allocate_of_not_accepts haccepts
    exact .inl ⟨haccepts, by rw [leave, hcall]⟩

/-- A call keeps the order and the number. -/
theorem Intact.leave (h : s.Intact) (ranges : RegTable Interval) :
    (s.leave ranges).Intact ∧ (s.leave ranges).pool = s.pool := by
  rcases h.leave_cases ranges with ⟨_, heq⟩ | ⟨_, done, rest, u, _, hdone, heq⟩
  · rw [heq]
    exact ⟨h, rfl⟩
  · obtain ⟨hu, hpool⟩ := h.forM_place hdone
    rcases heq with heq | ⟨l, _, _, heq⟩
    · rw [heq]
      exact ⟨hu, hpool⟩
    · rw [heq]
      exact ⟨hu.expire _, hpool⟩

theorem Intact.leaveAll (h : s.Intact) (calls : List (RegTable Interval)) : (s.leaveAll calls).Intact := by
  induction calls generalizing s with
  | nil => exact h
  | cons ranges calls ih => exact ih (h.leave ranges).1

/-- At all times the order and the number are kept. -/
theorem Visits.intact (hv : Visits s calls u) (h : s.Intact) : u.Intact ∧ u.pool = s.pool := by
  induction hv with
  | start => exact ⟨h, rfl⟩
  | placed _ _ hdone => exact h.forM_place hdone
  | expired _ _ hdone =>
    obtain ⟨hu, hpool⟩ := h.forM_place hdone
    exact ⟨hu.expire _, hpool⟩
  | next _ ih =>
    obtain ⟨hleave, hsame⟩ := h.leave _
    obtain ⟨hu, hpool⟩ := ih hleave
    exact ⟨hu, hpool.trans hsame⟩

/-! ### The pool -/

/-- The pool is split between the active intervals and the free registers, and the registers of active
intervals were met. -/
structure Shares (s : LinearScan) (met : Reg → Prop) : Prop where
  split : (s.active.map s.physOf ++ s.free).Perm s.pool
  active_met : ∀ l ∈ s.active, met l.reg

theorem shares_start {bank : Bank} {pool : List Reg} (h : start bank pool = .ok s) :
    s.Shares fun _ => False := by
  obtain rfl := start_eq_ok h
  exact ⟨.refl _, fun l hl => absurd hl List.not_mem_nil⟩

variable {met : Reg → Prop}

theorem Shares.mono {more : Reg → Prop} (h : s.Shares met) (hm : ∀ r, met r → more r) : s.Shares more :=
  ⟨h.split, fun l hl => hm _ (h.active_met l hl)⟩

/-- No register is lost or doubled when some are taken back. -/
theorem Shares.expire (h : s.Shares met) (position : Int) : (s.expire position).Shares met := by
  refine ⟨expire_split position h.split, fun l hl => h.active_met l ?_⟩
  rw [expire_active] at hl
  exact (List.dropWhile_sublist _).mem hl

/-- Handing out a register to an interval whose register was not met before. -/
theorem Shares.place (h : s.Shares met) (new : ¬ met l.reg) (hp : LinearScan.place l s = .ok () t) :
    t.Shares fun r => met r ∨ l.reg = r := by
  obtain ⟨phys, hp⟩ := place_eq_ok.mp hp
  have hexpired := h.expire l.range.start
  refine ⟨hp.split_active h.split fun d hd he => new (he ▸ hexpired.active_met d hd), fun d hd => ?_⟩
  rcases List.mem_cons.mp (hp.perm.mem_iff.mp hd) with rfl | hd
  · exact .inr rfl
  · exact .inl (hexpired.active_met d hd)

/-- Handing out registers to a part of the queue. -/
theorem Shares.forM_place (h : s.Shares met) (new : ∀ r, ranges.contains r = true → ¬ met r)
    {done rest : List LiveReg} (hq : queue ranges = done ++ rest)
    (hrun : done.forM LinearScan.place s = .ok () t) :
    t.Shares fun r => met r ∨ ranges.contains r = true := by
  have hmem : ∀ l ∈ done, ranges.contains l.reg = true := fun l hl => by
    have hl : l ∈ queue ranges := hq ▸ List.mem_append_left _ hl
    rw [RegTable.contains, mem_queue.mp hl]
    rfl
  have hregs := queue_nodup ranges
  rw [hq, List.map_append] at hregs
  have hdone : t.Shares fun r => met r ∨ ∃ l ∈ done, l.reg = r := by
    refine forM_induction (P := fun before u => u.Shares fun r => met r ∨ ∃ l ∈ before, l.reg = r)
      (h.mono fun _ => .inl) ?_ hrun
    rintro before l behind u v rfl hu hp
    have hnew : ¬ (met l.reg ∨ ∃ d ∈ before, d.reg = l.reg) := by
      rintro (hmet | ⟨d, hd, he⟩)
      · exact new _ (hmem l (by simp)) hmet
      · have hnodup := (List.nodup_append.mp hregs).1
        rw [List.map_append, List.map_cons] at hnodup
        exact (List.nodup_append.mp hnodup).2.2 _ (List.mem_map_of_mem hd) _ List.mem_cons_self he
    refine (hu.place hnew hp).mono fun r => ?_
    rintro ((hmet | ⟨d, hd, rfl⟩) | rfl)
    · exact .inl hmet
    · exact .inr ⟨d, by simp [hd], rfl⟩
    · exact .inr ⟨l, by simp, rfl⟩
  refine hdone.mono fun r => ?_
  rintro (hmet | ⟨l, hl, rfl⟩)
  · exact .inl hmet
  · exact .inr (hmem l hl)

/-- A call whose registers were not met before. -/
theorem Shares.leave (h : s.Shares met) (intact : s.Intact)
    (new : ∀ r, ranges.contains r = true → ¬ met r) :
    (s.leave ranges).Shares fun r => met r ∨ ranges.contains r = true := by
  rcases intact.leave_cases ranges with ⟨_, heq⟩ | ⟨_, done, rest, u, hq, hdone, heq⟩
  · rw [heq]
    exact h.mono fun _ => .inl
  · have hu := h.forM_place new hq hdone
    rcases heq with heq | ⟨l, _, _, heq⟩
    · rw [heq]
      exact hu
    · rw [heq]
      exact hu.expire _

/-- No register is in two of the calls. -/
def Apart (calls : List (RegTable Interval)) : Prop :=
  calls.Pairwise fun a b => ∀ r ∈ a.keys, b.contains r = false

/-- At all times the pool is split between the active intervals and the free registers, if no register
comes back in a later call. -/
theorem Visits.split (hv : Visits s calls u) (h : s.Shares met) (intact : s.Intact)
    (new : ∀ ranges ∈ calls, ∀ r, ranges.contains r = true → ¬ met r) (apart : Apart calls) :
    (u.active.map u.physOf ++ u.free).Perm u.pool := by
  induction hv generalizing met with
  | start => exact h.split
  | placed _ hq hdone => exact (h.forM_place (new _ List.mem_cons_self) hq hdone).split
  | expired _ hq hdone =>
    exact ((h.forM_place (new _ List.mem_cons_self) hq hdone).expire _).split
  | next _ ih =>
    obtain ⟨hfirst, hrest⟩ := List.pairwise_cons.mp apart
    refine ih (h.leave intact (new _ List.mem_cons_self)) (intact.leave _).1 ?_ hrest
    rintro ranges hranges r hr (hmet | hother)
    · exact new ranges (List.mem_cons_of_mem _ hranges) r hr hmet
    · rw [hfirst ranges hranges r (RegTable.mem_keys_iff.mpr hother)] at hr
      cases hr

/-- The state that all calls leave behind is one of the states that the scan goes through. -/
theorem visits_leaveAll (s : LinearScan) (calls : List (RegTable Interval)) :
    Visits s calls (s.leaveAll calls) := by
  induction calls generalizing s with
  | nil => exact .start s []
  | cons ranges calls ih => exact .next (ih (s.leave ranges))

/-- **The state of a scan survives any sequence of calls.** At all times the active intervals and the free
registers are together as many as the registers of the pool, and the active intervals are in the order in
which they stop. A call that breaks the contract changes nothing, and none asks for a free register where
there is none. If no register comes back in a later call, the registers of the active intervals and the
free ones are at all times those of the pool: none is lost, and none is held twice. -/
theorem calls_keep_state {bank : Bank} {pool : List Reg} (hs : start bank pool = .ok s)
    (calls : List (RegTable Interval)) :
    (∀ u, Visits s calls u →
      u.active.length + u.free.length = pool.length ∧ u.active.Pairwise LiveReg.StopsFirst) ∧
    (∀ before ranges behind f t, calls = before ++ ranges :: behind →
      allocate ranges (s.leaveAll before) = .error (.fault f) t →
      t = s.leaveAll before ∧ f ≠ .outOfBounds) ∧
    (Apart calls → ∀ u, Visits s calls u → (u.active.map u.physOf ++ u.free).Perm pool ∧
      (pool.Nodup → (u.active.map u.physOf ++ u.free).Nodup)) := by
  have hintact := intact_start hs
  have hpool := start_pool hs
  refine ⟨fun u hu => ?_, fun before ranges behind f t _ hcall => ?_, fun hapart u hu => ?_⟩
  · obtain ⟨h, hsame⟩ := hu.intact hintact
    exact ⟨by rw [h.count, hsame, hpool.length_eq], h.ordered⟩
  · exact ((hintact.leaveAll before).allocate_eq_fault hcall).2
  · have hsplit := hu.split (shares_start hs) hintact (fun _ _ _ _ => not_false) hapart
    have hperm := hsplit.trans ((hu.intact hintact).2 ▸ hpool)
    exact ⟨hperm, hperm.nodup_iff.mpr⟩

/-- Four calls: the first one runs out of registers, the second one breaks the contract, and the last one
starts before intervals that are over already. -/
def mixedCalls : List (RegTable Interval) :=
  [.ofList [(.vec 10, ⟨5, 9⟩), (.vec 11, ⟨6, 8⟩), (.vec 12, ⟨7, 7⟩), (.vec 13, ⟨7, 10⟩)],
    .ofList [(.vec 14, ⟨0, 1⟩), (.vec 15, ⟨0, 1⟩)],
    .ofList [(.vec 16, ⟨9, 12⟩)],
    .ofList [(.vec 17, ⟨1, 2⟩)]]

theorem calls_keep_state_mixedCalls : ∃ s,
    start .vec [.vec 7, .vec 3, .vec 5] = .ok s ∧ [Reg.vec 7, .vec 3, .vec 5].Nodup ∧ Apart mixedCalls ∧
      (s.leaveAll mixedCalls).active =
        [⟨⟨1, 2⟩, .vec 17⟩, ⟨⟨5, 9⟩, .vec 10⟩, ⟨⟨9, 12⟩, .vec 16⟩] ∧
      ((s.leaveAll mixedCalls).active.map (s.leaveAll mixedCalls).physOf ++
        (s.leaveAll mixedCalls).free).Perm [.vec 7, .vec 3, .vec 5] := by
  have hapart : Apart mixedCalls := by
    unfold Apart
    decide
  obtain ⟨s, hs, hactive⟩ : ∃ s, start .vec [.vec 7, .vec 3, .vec 5] = .ok s ∧
      (s.leaveAll mixedCalls).active =
        [⟨⟨1, 2⟩, .vec 17⟩, ⟨⟨5, 9⟩, .vec 10⟩, ⟨⟨9, 12⟩, .vec 16⟩] := ⟨_, rfl, by decide +kernel⟩
  exact ⟨s, hs, by decide, hapart, hactive,
    ((calls_keep_state hs mixedCalls).2.2 hapart _ (visits_leaveAll s mixedCalls)).1⟩

end LinearScan

end TensorKernel
