import Mathlib.Order.Lattice.Nat
import TensorKernel.Proofs.Allocation.Progress

/-!
# Linear scan takes the lowest registers, and no more than it needs

The free registers of a scan form a stack. Those that were taken back lie on top, and below them lie
those that were never handed out, lowest first. So a register is handed out for the first time only
where all the registers that were handed out before are held by intervals that are still live. Hence a
scan uses the lowest registers of its pool, as many as intervals are live together at one position at
most; and it runs out of registers only if there are not as many.
-/

namespace TensorKernel

variable {now : Int} {done : List LiveReg} {used : Nat}

namespace RegSet

/-- Two sets with the same members are the same list. -/
theorem eq_of_mem_iff {s t : RegSet} (h : ∀ r, r ∈ s ↔ r ∈ t) : s = t := by
  have hnodup : ∀ u : RegSet, u.toList.Nodup := fun u =>
    u.ascending.imp fun {a b} (hlt : a < b) (he : a = b) => Reg.lt_irrefl b (he ▸ hlt)
  have hperm := (List.perm_ext_iff_of_nodup (hnodup s) (hnodup t)).mpr h
  have hlist := hperm.eq_of_pairwise
    (fun a b _ _ hab hba => absurd (Reg.lt_trans hab hba) (Reg.lt_irrefl a)) s.ascending t.ascending
  cases s
  cases t
  simp_all

end RegSet

namespace LinearScan

open Outcome

variable {ranges : RegTable Interval} {s t : LinearScan} {bank : Bank} {pool : List Reg}

/-- How many intervals of a table contain a position. -/
def depthAt (ranges : RegTable Interval) (position : Int) : Nat :=
  ranges.values.countP (·.contains position)

theorem length_liveAt_eq (ranges : RegTable Interval) (position : Int) :
    (liveAt ranges position).length = depthAt ranges position := by
  rw [liveAt, queue, ((sortBy_perm ..).filter _).length_eq, depthAt, RegTable.values, List.countP_map,
    List.countP_eq_length_filter, List.filter_map, List.length_map]
  rfl

/-- Some number of intervals is the greatest that contain one position. -/
theorem exists_isGreatest_depthAt (ranges : RegTable Interval) :
    ∃ k, IsGreatest (Set.range (depthAt ranges)) k := by
  have hbound : BddAbove (Set.range (depthAt ranges)) := by
    refine ⟨ranges.values.length, ?_⟩
    rintro _ ⟨position, rfl⟩
    exact List.countP_le_length
  exact ⟨_, Nat.sSup_mem (Set.range_nonempty _) hbound, fun _ hk => le_csSup hbound hk⟩

/-- The pool of a fresh scan lists the registers that it was given in ascending order. -/
theorem start_pool_eq (hs : start bank pool = .ok s) (nodup : pool.Nodup) :
    s.pool = (RegSet.ofList pool).toList := by
  have hperm := start_pool hs
  have hsorted : s.pool.Pairwise fun a b => (!decide (b < a)) = true := by
    obtain rfl := start_eq_ok hs
    refine pairwise_sortBy (fun a b c hab hbc => ?_) (fun a b => ?_) pool
    · simp only [Bool.not_eq_true', decide_eq_false_iff_not] at hab hbc ⊢
      intro hca
      by_cases hcb : c = b
      · exact hab (hcb ▸ hca)
      · exact hab (Reg.lt_trans (Reg.lt_of_not_lt_of_ne hbc hcb) hca)
    · simp only [Bool.or_eq_true, Bool.not_eq_true', decide_eq_false_iff_not]
      by_cases hab : b < a
      · exact .inr fun hba => Reg.lt_irrefl _ (Reg.lt_trans hab hba)
      · exact .inl hab
  have hstrict : s.pool.Pairwise (· < ·) := by
    refine (hsorted.and (hperm.nodup_iff.mpr nodup)).imp ?_
    rintro a b ⟨hle, hne⟩
    simp only [Bool.not_eq_true', decide_eq_false_iff_not] at hle
    exact Reg.lt_of_not_lt_of_ne hle (Ne.symm hne)
  have hset : (⟨s.pool, hstrict⟩ : RegSet) = RegSet.ofList pool :=
    RegSet.eq_of_mem_iff fun r => by rw [RegSet.mem_ofList, RegSet.mem_def, hperm.mem_iff]
  exact congrArg RegSet.toList hset

/-- Registers were handed out to `done`: the lowest ones of the pool, `used` of them. -/
structure Stacked (s : LinearScan) (done : List LiveReg) (used : Nat) : Prop where
  /-- What was taken back lies on top of what was never handed out. -/
  stack : ∃ returned, s.free = returned ++ s.pool.drop used
  /-- The lowest registers are those that were handed out. -/
  handed : ∀ phys, phys ∈ s.pool.take used ↔ ∃ l ∈ done, s.physOf l = phys
  /-- As many intervals were live where one of them started. -/
  needed : used = 0 ∨
    ∃ l ∈ done, used ≤ (done.filter (·.range.contains l.range.start)).length

/-- A fresh scan has handed out nothing. -/
theorem stacked_start (hs : start bank pool = .ok s) : s.Stacked [] 0 := by
  obtain rfl := start_eq_ok hs
  exact ⟨⟨[], rfl⟩, by simp, .inl rfl⟩

/-- What is held and what was taken back are the registers that were handed out. -/
theorem Sound.perm_take (h : s.Sound done now) {returned : List Reg}
    (hfree : s.free = returned ++ s.pool.drop used) :
    (s.active.map s.physOf ++ returned).Perm (s.pool.take used) := by
  have hsplit := h.split
  rw [hfree, ← List.append_assoc] at hsplit
  conv at hsplit => rhs; rw [← List.take_append_drop used s.pool]
  exact (List.perm_append_right_iff _).mp hsplit

/-- Handing out one more register takes the lowest one that was never handed out only if all the others
are held by live intervals. -/
theorem Stacked.place {l : LiveReg} (h : s.Stacked done used) (hsound : s.Sound done now)
    (intact : s.Intact) (nodup : s.pool.Nodup) (new : ∀ d ∈ done, d.reg ≠ l.reg)
    (earlier : ∀ d ∈ done, d.range.start ≤ l.range.start) (proper : l.range.start ≤ l.range.stop)
    (hp : LinearScan.place l s = .ok () t) : ∃ used', t.Stacked (done ++ [l]) used' := by
  obtain ⟨phys, hp⟩ := place_eq_ok.mp hp
  obtain ⟨returned, hstack⟩ := h.stack
  have hperm := hsound.perm_take hstack
  have hholders : ∀ r, (∃ d ∈ done ++ [l], t.physOf d = r) ↔ (∃ d ∈ done, s.physOf d = r) ∨ phys = r := by
    intro r
    simp only [List.mem_append, List.mem_singleton, or_and_right, exists_or, exists_eq_left,
      hp.physOf_self]
    refine or_congr_left (exists_congr fun d => and_congr_right fun hd => ?_)
    rw [hp.physOf_of_ne (new d hd)]
  -- the stack after expiry, of which the top is taken
  have hfree := hp.free
  rw [expire_free, hstack, ← List.append_assoc] at hfree
  cases hback : ((s.active.takeWhile (·.range.stop < l.range.start)).map s.physOf).reverse ++ returned with
  | cons top rest =>
    rw [hback, List.cons_append, List.cons.injEq] at hfree
    obtain ⟨rfl, hrest⟩ := hfree
    have htop : top ∈ s.pool.take used := by
      have hmem : top ∈ ((s.active.takeWhile (·.range.stop < l.range.start)).map s.physOf).reverse ++
          returned := by simp [hback]
      refine hperm.subset ?_
      rw [List.mem_append, List.mem_reverse] at hmem
      rw [List.mem_append]
      refine hmem.imp_left fun hmem => ?_
      exact List.map_subset _ (List.takeWhile_sublist _).subset hmem
    refine ⟨used, ⟨rest, by rw [hp.pool, hrest]⟩, fun r => ?_, ?_⟩
    · rw [hp.pool, hholders, h.handed]
      refine ⟨.inl, ?_⟩
      rintro (hr | rfl)
      · exact hr
      · exact (h.handed _).mp htop
    · refine h.needed.imp_right ?_
      rintro ⟨d, hd, hle⟩
      refine ⟨d, List.mem_append_left _ hd, Nat.le_trans hle ?_⟩
      rw [List.filter_append, List.length_append]
      exact Nat.le_add_right ..
  | nil =>
    -- nothing was taken back, so all the registers that were handed out are still held
    rw [hback, List.nil_append] at hfree
    obtain ⟨hexpired, rfl⟩ := List.append_eq_nil_iff.mp hback
    rw [List.reverse_eq_nil_iff, List.map_eq_nil_iff] at hexpired
    have hkept : (s.expire l.range.start).active = s.active := by
      have hparts := List.takeWhile_append_dropWhile
        (p := fun d : LiveReg => decide (d.range.stop < l.range.start)) (l := s.active)
      rwa [hexpired, List.nil_append, ← expire_active] at hparts
    have hlt : used < s.pool.length := by
      have hlength := congrArg List.length hfree
      rw [List.length_drop, List.length_cons] at hlength
      omega
    have hheld : s.active.length = used := by
      have hlength := hperm.length_eq
      rw [List.append_nil, List.length_map, List.length_take] at hlength
      omega
    have hlive := hsound.length_active_lt intact nodup (fun hmem => new l hmem rfl) earlier proper
    rw [hkept, hheld] at hlive
    refine ⟨used + 1, ⟨[], ?_⟩, fun r => ?_, .inr ⟨l, by simp, hlive⟩⟩
    · rw [hp.pool, ← List.tail_drop, hfree]
      rfl
    · have htake : s.pool.take (used + 1) = s.pool.take used ++ [phys] := by
        rw [List.take_add, hfree]
        rfl
      rw [hp.pool, htake, hholders, List.mem_append, List.mem_singleton, h.handed, eq_comm (a := r)]

/-- A whole pass over the queue hands out the lowest registers of the pool. -/
theorem stacked_forM (hs : start bank pool = .ok s) (nodup : pool.Nodup)
    (ordered : ∀ r i, ranges.get? r = some i → i.start ≤ i.stop)
    (h : (queue ranges).forM place s = .ok () t) : ∃ used, t.Stacked (queue ranges) used := by
  have hstarts := queue_starts ranges
  have hregs := List.pairwise_map.mp (queue_nodup ranges)
  have hpool := (start_pool hs).nodup_iff.mpr nodup
  refine (forM_induction (P := fun done u => done.forM place s = .ok () u ∧
    ∃ used, u.Stacked done used) ⟨rfl, 0, stacked_start hs⟩ ?_ h).2
  rintro done l rest u v hq ⟨hdone, used, hstacked⟩ hplace
  obtain ⟨now, hsound, hup, _⟩ := sound_prefix hs nodup hq hdone
  have hproper := ordered _ _ (mem_queue.mp (hq ▸ List.mem_append_right done List.mem_cons_self))
  rw [hq] at hstarts hregs
  refine ⟨forM_concat hdone hplace, hstacked.place hsound ((intact_start hs).forM_place hdone).1
    (hup ▸ hpool) (fun d hd => ?_) (fun d hd => ?_) hproper hplace⟩
  · exact (List.pairwise_append.mp hregs).2.2 d hd l List.mem_cons_self
  · exact (List.pairwise_append.mp hstarts).2.2 d hd l List.mem_cons_self

/-- What is live at one position holds different registers among those that were handed out. -/
theorem depthAt_le_used (hsound : t.Sound (queue ranges) now) (hstacked : t.Stacked (queue ranges) used)
    (position : Int) : depthAt ranges position ≤ used := by
  have hsubset : (liveAt ranges position).map t.physOf ⊆ t.pool.take used := by
    intro phys hphys
    obtain ⟨l, hl, rfl⟩ := List.mem_map.mp hphys
    exact (hstacked.handed _).mpr ⟨l, (List.mem_filter.mp hl).1, rfl⟩
  have hle := ((hsound.nodup_liveAt position).subperm hsubset).length_le
  rw [List.length_map, length_liveAt_eq, List.length_take] at hle
  omega

/-- As many registers were handed out as intervals are live together at most. -/
theorem Stacked.isGreatest (hsound : t.Sound (queue ranges) now) (hstacked : t.Stacked (queue ranges) used) :
    IsGreatest (Set.range (depthAt ranges)) used := by
  have hupper := depthAt_le_used hsound hstacked
  refine ⟨?_, ?_⟩
  · rcases hstacked.needed with rfl | ⟨l, _, hle⟩
    · exact ⟨0, Nat.le_zero.mp (hupper 0)⟩
    · have hlive := length_liveAt_eq ranges l.range.start
      exact ⟨l.range.start, Nat.le_antisymm (hupper _) (hlive ▸ hle)⟩
  · rintro _ ⟨position, rfl⟩
    exact hupper position

/-- The registers that a scan gives are those that it handed out. -/
theorem mem_values_iff (hsound : t.Sound (queue ranges) now) {phys : Reg} :
    phys ∈ t.assigned.values ↔ ∃ l ∈ queue ranges, t.physOf l = phys := by
  rw [RegTable.values, List.mem_map]
  constructor
  · rintro ⟨⟨r, phys⟩, hentry, rfl⟩
    have hr := RegTable.mem_entries_iff.mp hentry
    obtain ⟨l, hl, rfl⟩ := (hsound.assigned_iff r).mp (by rw [RegTable.contains, hr]; rfl)
    exact ⟨l, hl, by rw [physOf, hr]; rfl⟩
  · rintro ⟨l, hl, rfl⟩
    have hcontains := (hsound.assigned_iff l.reg).mpr ⟨l, hl, rfl⟩
    obtain ⟨phys, hphys⟩ := Option.isSome_iff_exists.mp hcontains
    exact ⟨(l.reg, phys), RegTable.mem_entries_iff.mpr hphys, by rw [physOf, hphys]; rfl⟩

/-- **Linear scan is optimal.** Let the registers of a table be in the bank of a pool without
repetitions, with different intervals that start before they stop. A fresh scan over the pool gives them
registers exactly if no more intervals contain one position than the pool has registers, and then it
hands out the lowest registers of the pool, as many as intervals contain one position at most. -/
theorem allocate_optimal (banked : ∀ r ∈ pool, r.bank = bank) (nodup : pool.Nodup)
    (banks : ∀ r, ranges.contains r = true → r.bank = bank)
    (different : ∀ a b i, ranges.get? a = some i → ranges.get? b = some i → a = b)
    (ordered : ∀ r i, ranges.get? r = some i → i.start ≤ i.stop) :
    ∃ s k, start bank pool = .ok s ∧ IsGreatest (Set.range (depthAt ranges)) k ∧
      ((∃ assigned t, allocate ranges s = .ok assigned t) ↔ k ≤ pool.length) ∧
      ∀ assigned t, allocate ranges s = .ok assigned t →
        RegSet.ofList assigned.values = RegSet.ofList ((RegSet.ofList pool).toList.take k) := by
  obtain ⟨s, hs, hbank⟩ := start_ok banked
  obtain ⟨k, hk⟩ := exists_isGreatest_depthAt ranges
  refine ⟨s, k, hs, hk, ⟨?_, fun hle => ?_⟩, fun assigned t h => ?_⟩
  · rintro ⟨assigned, t, h⟩
    obtain ⟨position, rfl⟩ := hk.1
    rw [← length_liveAt_eq]
    exact length_liveAt_le hs nodup (allocate_eq_ok.mp h).2.1 position
  · cases h : allocate ranges s with
    | ok assigned t => exact ⟨assigned, t, rfl⟩
    | error refusal t =>
      cases refusal with
      | fault fault => exact absurd h (allocate_ne_fault hs (hbank ▸ banks) different fault)
      | shortage lack =>
        obtain ⟨l, _, hlt⟩ := length_lt_liveAt hs nodup ordered (allocate_eq_shortage h)
        have hdepth := hk.2 ⟨l.range.start, rfl⟩
        rw [length_liveAt_eq] at hlt
        omega
  · obtain ⟨_, hrun, rfl⟩ := allocate_eq_ok.mp h
    obtain ⟨now, hsound, hpool⟩ := sound_forM hs nodup hrun
    obtain ⟨used, hstacked⟩ := stacked_forM hs nodup ordered hrun
    obtain rfl := (hstacked.isGreatest hsound).unique hk
    refine RegSet.eq_of_mem_iff fun phys => ?_
    rw [RegSet.mem_ofList, RegSet.mem_ofList, mem_values_iff hsound, ← hstacked.handed, hpool,
      start_pool_eq hs nodup]

theorem allocate_optimal_touching : ∃ s assigned t,
    start .vec [.vec 7, .vec 3, .vec 5] = .ok s ∧ IsGreatest (Set.range (depthAt touching)) 2 ∧
      allocate touching s = .ok assigned t ∧
      RegSet.ofList assigned.values = RegSet.ofList [.vec 3, .vec 5] := by
  have hlist : touching.entries = [(.vec 10, ⟨0, 2⟩), (.vec 11, ⟨2, 4⟩), (.vec 12, ⟨3, 5⟩)] := by
    decide
  have hmem : ∀ {r i}, touching.get? r = some i → (r, i) ∈ touching.entries :=
    RegTable.mem_entries_iff.mpr
  have hbanks : ∀ r, touching.contains r = true → r.bank = .vec := by
    intro r hr
    have hall : ∀ e ∈ touching.entries, e.1.bank = .vec := by decide
    obtain ⟨i, hi⟩ := Option.isSome_iff_exists.mp hr
    exact hall _ (hmem hi)
  have hdifferent : ∀ a b i, touching.get? a = some i → touching.get? b = some i → a = b := by
    intro a b i ha hb
    have hall : ∀ e ∈ touching.entries, ∀ f ∈ touching.entries, e.2 = f.2 → e.1 = f.1 := by decide
    exact hall _ (hmem ha) _ (hmem hb) rfl
  have hordered : ∀ r i, touching.get? r = some i → i.start ≤ i.stop := by
    intro r i hi
    have hall : ∀ e ∈ touching.entries, e.2.start ≤ e.2.stop := by decide
    exact hall _ (hmem hi)
  have hbanked : ∀ r ∈ [Reg.vec 7, .vec 3, .vec 5], r.bank = .vec := by decide
  obtain ⟨s, k, hs, hk, hiff, hset⟩ :=
    allocate_optimal hbanked (by decide) hbanks hdifferent hordered
  have hgreatest : IsGreatest (Set.range (depthAt touching)) 2 := by
    refine ⟨⟨2, by decide⟩, ?_⟩
    rintro _ ⟨position, rfl⟩
    simp only [depthAt, RegTable.values, hlist, Interval.contains, List.map_cons, List.map_nil,
      List.countP_cons, List.countP_nil, Bool.and_eq_true, decide_eq_true_eq]
    grind
  obtain rfl := hk.unique hgreatest
  obtain ⟨assigned, t, ha⟩ := hiff.mpr (by decide)
  exact ⟨s, assigned, t, hs, hk, ha, hset assigned t ha⟩

end LinearScan

end TensorKernel
