import Mathlib.Data.List.TakeWhile
import TensorKernel.Allocation.LinearScan
import TensorKernel.Proofs.Outcome

/-!
# Soundness of linear scan

While a scan hands out registers, the registers held by active intervals and the free ones together
are the pool, and the active intervals are in the order in which they stop. An interval that is no
longer active stopped before the current position, so whatever starts from here on does not meet it.
Hence two registers whose intervals overlap never share a physical register.
-/

namespace TensorKernel

variable {a b : LiveReg} {e : Refusal}

/-- Whether `a` stops before `b`, or at the same position without starting behind it. -/
def LiveReg.StopsFirst (a b : LiveReg) : Prop :=
  a.range.stop < b.range.stop ∨ a.range.stop = b.range.stop ∧ a.range.start ≤ b.range.start

namespace LiveReg

theorem StopsFirst.trans {c : LiveReg} (hab : a.StopsFirst b) (hbc : b.StopsFirst c) : a.StopsFirst c := by
  unfold StopsFirst at *
  omega

theorem StopsFirst.stop_le (h : a.StopsFirst b) : a.range.stop ≤ b.range.stop := by
  unfold StopsFirst at h
  omega

theorem stopsFirst_of_expiresBefore (h : a.expiresBefore b = true) : a.StopsFirst b := by
  simp only [expiresBefore, decide_eq_true_eq] at h
  unfold StopsFirst
  omega

theorem stopsFirst_of_not_expiresBefore (h : ¬ a.expiresBefore b = true) : b.StopsFirst a := by
  simp only [expiresBefore, decide_eq_true_eq] at h
  unfold StopsFirst
  omega

end LiveReg

namespace LinearScan

open Outcome

variable {s t : LinearScan} {l : LiveReg} {bank : Bank} {pool : List Reg} {ranges : RegTable Interval}
  {done : List LiveReg} {now : Int}

/-- The physical register that was handed out to an interval. -/
def physOf (s : LinearScan) (l : LiveReg) : Reg := (s.assigned.get? l.reg).getD .unassigned

/-- What is known once registers were handed out to `done`, the last of which starts at `now`. -/
structure Sound (s : LinearScan) (done : List LiveReg) (now : Int) : Prop where
  /-- Exactly the registers met so far have a physical register. -/
  assigned_iff : ∀ r, s.assigned.contains r = true ↔ ∃ l ∈ done, l.reg = r
  /-- The pool is split between the active intervals and the free registers. -/
  split : (s.active.map s.physOf ++ s.free).Perm s.pool
  /-- Only intervals met so far are active. -/
  active_done : ∀ l ∈ s.active, l ∈ done
  /-- An interval that lost its register stopped before the current position. -/
  expired : ∀ l ∈ done, l ∉ s.active → l.range.stop < now
  /-- What was handed out comes from the pool. -/
  in_pool : ∀ l ∈ done, s.physOf l ∈ s.pool
  /-- Overlapping intervals have different physical registers. -/
  apart : ∀ a ∈ done, ∀ b ∈ done, a.reg ≠ b.reg → a.range.overlaps b.range = true →
    s.physOf a ≠ s.physOf b

@[simp] theorem expire_pool (s : LinearScan) (t : Int) : (s.expire t).pool = s.pool := rfl

@[simp] theorem physOf_expire (s : LinearScan) (t : Int) : (s.expire t).physOf = s.physOf := rfl

theorem expire_active (s : LinearScan) (t : Int) :
    (s.expire t).active = s.active.dropWhile (·.range.stop < t) := by
  have h := List.takeWhile_append_dropWhile (p := fun l : LiveReg => decide (l.range.stop < t))
    (l := s.active)
  simp only [expire]
  conv => lhs; arg 2; rw [← h]
  exact List.drop_left

theorem expire_free (s : LinearScan) (t : Int) :
    (s.expire t).free =
      ((s.active.takeWhile (·.range.stop < t)).map s.physOf).reverse ++ s.free := by
  simp only [expire]
  generalize s.active.takeWhile (·.range.stop < t) = expired
  generalize s.free = free
  induction expired generalizing free with
  | nil => rfl
  | cons l expired ih =>
    rw [List.foldl_cons, ih]
    simp [physOf]

/-- Taking registers back keeps the pool together. -/
theorem expire_split (t : Int) (h : (s.active.map s.physOf ++ s.free).Perm s.pool) :
    ((s.expire t).active.map s.physOf ++ (s.expire t).free).Perm s.pool := by
  refine List.Perm.trans ?_ h
  rw [expire_active, expire_free]
  have hs := List.takeWhile_append_dropWhile (p := fun l : LiveReg => decide (l.range.stop < t))
    (l := s.active)
  generalize s.active.takeWhile (·.range.stop < t) = expired at *
  generalize s.active.dropWhile (·.range.stop < t) = kept at *
  rw [← hs, List.map_append, List.append_assoc]
  calc kept.map s.physOf ++ ((expired.map s.physOf).reverse ++ s.free)
      |>.Perm ((expired.map s.physOf).reverse ++ s.free ++ kept.map s.physOf) := List.perm_append_comm
    _ |>.Perm (expired.map s.physOf ++ (s.free ++ kept.map s.physOf)) := by
      rw [List.append_assoc]
      exact (List.reverse_perm _).append_right _
    _ |>.Perm (expired.map s.physOf ++ (kept.map s.physOf ++ s.free)) :=
      List.Perm.append_left _ List.perm_append_comm

/-- What handing out a register does: an expired state has room, and its next free register goes to
the interval. -/
theorem place_eq (l : LiveReg) (s : LinearScan) :
    place l s =
      if (s.expire l.range.start).active.length = s.pool.length then
        .error (.shortage (.exhausted s.bank s.pool.length l.reg l.range)) (s.expire l.range.start)
      else match (s.expire l.range.start).free with
        | [] => .error (.fault .outOfBounds) (s.expire l.range.start)
        | phys :: free => .ok () ⟨s.bank, s.pool, insertActive l (s.expire l.range.start).active,
            free, s.assigned.insert l.reg phys⟩ := by
  show (if (s.expire l.range.start).active.length = s.pool.length then _ else _ :
    EStateM Refusal LinearScan Unit) (s.expire l.range.start) = _
  by_cases hroom : (s.expire l.range.start).active.length = s.pool.length
  · rw [if_pos hroom, if_pos hroom]
    rfl
  · rw [if_neg hroom, if_neg hroom]
    show (match (s.expire l.range.start).free with | [] => _ | phys :: free => _ :
      EStateM Refusal LinearScan Unit) (s.expire l.range.start) = _
    cases (s.expire l.range.start).free <;> rfl

/-- An interval was given a register. -/
structure Placed (s : LinearScan) (l : LiveReg) (phys : Reg) (t : LinearScan) : Prop where
  /-- There was room. -/
  room : (s.expire l.range.start).active.length ≠ s.pool.length
  /-- The next free register was taken. -/
  free : (s.expire l.range.start).free = phys :: t.free
  /-- The interval is active. -/
  active : t.active = insertActive l (s.expire l.range.start).active
  /-- It has the register. -/
  assigned : t.assigned = s.assigned.insert l.reg phys
  /-- The pool stays. -/
  pool : t.pool = s.pool
  /-- So does the bank. -/
  bank : t.bank = s.bank

theorem place_eq_ok : place l s = .ok () t ↔ ∃ phys, s.Placed l phys t := by
  rw [place_eq]
  split
  · rename_i hfull
    exact ⟨fun h => (by cases h), fun ⟨_, hp⟩ => absurd hfull hp.room⟩
  · rename_i hroom
    cases hfree : (s.expire l.range.start).free with
    | nil => exact ⟨fun h => (by cases h), fun ⟨_, hp⟩ => absurd (hfree.symm.trans hp.free) (by simp)⟩
    | cons phys free =>
      constructor
      · intro h
        cases h
        exact ⟨phys, hroom, hfree, rfl, rfl, rfl, rfl⟩
      · rintro ⟨_, _, hf, hactive, hassigned, hpool, hbank⟩
        obtain ⟨⟩ := hfree.symm.trans hf
        cases t
        simp_all

theorem insertActive_perm (l : LiveReg) (active : List LiveReg) :
    (insertActive l active).Perm (l :: active) := by
  unfold insertActive
  refine List.perm_middle.trans ?_
  rw [List.takeWhile_append_dropWhile]

namespace Placed

variable {phys : Reg} (h : s.Placed l phys t)

include h

theorem perm : t.active.Perm (l :: (s.expire l.range.start).active) :=
  h.active ▸ insertActive_perm ..

theorem physOf_self : t.physOf l = phys := by
  rw [physOf, h.assigned, RegTable.get?_insert, if_pos rfl, Option.getD_some]

/-- No other interval changes its register. -/
theorem physOf_of_ne {d : LiveReg} (hd : d.reg ≠ l.reg) : t.physOf d = s.physOf d := by
  rw [physOf, h.assigned, RegTable.get?_insert, if_neg hd.symm, physOf]

/-- The register moves from the free ones to the active intervals. -/
theorem split (hsplit : (s.active.map s.physOf ++ s.free).Perm s.pool) :
    (phys :: ((s.expire l.range.start).active.map s.physOf ++ t.free)).Perm s.pool := by
  have hs := expire_split l.range.start hsplit
  rw [h.free] at hs
  exact List.perm_middle.symm.trans hs

/-- So the pool stays together, if the interval is met for the first time. -/
theorem split_active (hsplit : (s.active.map s.physOf ++ s.free).Perm s.pool)
    (new : ∀ d ∈ (s.expire l.range.start).active, d.reg ≠ l.reg) :
    (t.active.map t.physOf ++ t.free).Perm t.pool := by
  have hmap := h.perm.map t.physOf
  rw [List.map_cons, h.physOf_self, List.map_congr_left fun d hd => h.physOf_of_ne (new d hd)] at hmap
  rw [h.pool]
  exact (hmap.append_right t.free).trans (h.split hsplit)

end Placed

theorem start_eq_ok (h : start bank pool = .ok s) :
    s = { bank, pool := sortBy (fun a b => !(b < a)) pool, free := sortBy (fun a b => !(b < a)) pool } := by
  simp only [start] at h
  split at h
  · cases h
  · cases h
    rfl

/-- A pool of one bank can be scanned. -/
theorem start_ok (hpool : ∀ r ∈ pool, r.bank = bank) : ∃ s, start bank pool = .ok s ∧ s.bank = bank := by
  unfold start
  dsimp only
  split
  · rename_i r hr
    have hmem := List.mem_of_find?_eq_some hr
    rw [List.mem_reverse, (sortBy_perm ..).mem_iff] at hmem
    have hbank := List.find?_some hr
    simp [hpool r hmem] at hbank
  · exact ⟨_, rfl, rfl⟩

/-- A scan that has handed out nothing is sound. -/
theorem sound_start (h : start bank pool = .ok s) (now : Int) : s.Sound [] now := by
  obtain rfl := start_eq_ok h
  refine ⟨?_, ?_, ?_, ?_, ?_, ?_⟩ <;> simp [RegTable.contains]

theorem start_pool (h : start bank pool = .ok s) : s.pool.Perm pool := by
  obtain rfl := start_eq_ok h
  exact sortBy_perm ..

/-- Handing out one more register keeps a scan sound. The interval must be new and must not start
before those that were met. -/
theorem Sound.place (h : s.Sound done now) (nodup : s.pool.Nodup) (new : ∀ d ∈ done, d.reg ≠ l.reg)
    (later : now ≤ l.range.start) (hp : LinearScan.place l s = .ok () t) :
    t.Sound (done ++ [l]) l.range.start ∧ t.pool = s.pool ∧ t.bank = s.bank := by
  obtain ⟨phys, hp⟩ := place_eq_ok.mp hp
  have hold : ∀ d ∈ done, t.physOf d = s.physOf d := fun d hd => hp.physOf_of_ne (new d hd)
  have hkept : ∀ d ∈ (s.expire l.range.start).active, d ∈ done := by
    intro d hd
    rw [expire_active] at hd
    exact h.active_done d ((List.dropWhile_sublist _).mem hd)
  -- an interval of `done` that is not active any more stops before the new one starts
  have hgone : ∀ d ∈ done, d ∉ (s.expire l.range.start).active → d.range.stop < l.range.start := by
    intro d hd hn
    by_cases hs : d ∈ s.active
    · rw [← List.takeWhile_append_dropWhile (p := fun d : LiveReg => d.range.stop < l.range.start)
        (l := s.active), ← expire_active] at hs
      rcases List.mem_append.mp hs with hs | hs
      · simpa using List.mem_takeWhile_imp hs
      · exact absurd hs hn
    · have := h.expired d hd hs
      omega
  have hsplit := hp.split h.split
  have hmem : ∀ d ∈ done, d ∈ (s.expire l.range.start).active → s.physOf d ≠ phys := by
    intro d _ hd he
    have hn := (hsplit.nodup_iff.mpr nodup)
    rw [List.nodup_cons, List.mem_append, ← he] at hn
    exact hn.1 (.inl (List.mem_map_of_mem hd))
  have hmeet : ∀ d ∈ done, d.range.overlaps l.range = true → t.physOf d ≠ t.physOf l := by
    intro d hd ho
    rw [hold d hd, hp.physOf_self]
    refine hmem d hd (Decidable.byContradiction fun hn => ?_)
    have := hgone d hd hn
    simp only [Interval.overlaps, Bool.and_eq_true, decide_eq_true_eq] at ho
    omega
  refine ⟨⟨?_, hp.split_active h.split fun d hd => new d (hkept d hd), ?_, ?_, ?_, ?_⟩, hp.pool, hp.bank⟩
  · intro r
    rw [hp.assigned, RegTable.contains, RegTable.get?_insert]
    have hr := h.assigned_iff r
    by_cases he : l.reg = r
    · simp [he]
    · simpa [he, RegTable.contains] using hr
  · intro d hd
    rw [hp.perm.mem_iff, List.mem_cons] at hd
    rcases hd with rfl | hd
    · simp
    · simp [hkept d hd]
  · intro d hd hn
    rw [hp.perm.mem_iff, List.mem_cons, not_or] at hn
    rcases List.mem_append.mp hd with hd | hd
    · exact hgone d hd hn.2
    · exact absurd (List.mem_singleton.mp hd) hn.1
  · intro d hd
    rcases List.mem_append.mp hd with hd | hd
    · rw [hold d hd, hp.pool]
      exact h.in_pool d hd
    · rw [List.mem_singleton.mp hd, hp.physOf_self, hp.pool]
      exact hsplit.subset (by simp)
  · intro a ha b hb hne ho
    rcases List.mem_append.mp ha with ha | ha <;> rcases List.mem_append.mp hb with hb | hb
    · rw [hold a ha, hold b hb]
      exact h.apart a ha b hb hne ho
    · rw [List.mem_singleton.mp hb] at ho ⊢
      exact hmeet a ha ho
    · rw [List.mem_singleton.mp ha] at ho ⊢
      exact fun he => hmeet b hb (Interval.overlaps_comm .. ▸ ho) he.symm
    · rw [List.mem_singleton.mp ha, List.mem_singleton.mp hb] at hne
      exact absurd rfl hne

/-- The order of processing is total. -/
theorem precedes_total (a b : LiveReg) : (a.precedes b || b.precedes a) = true := by
  simp only [LiveReg.precedes, Interval.lt_iff, Bool.or_eq_true, decide_eq_true_eq]
  by_cases hr : a.range = b.range
  · by_cases hb : b.reg < a.reg
    · exact .inr (.inr ⟨hr.symm, fun h => Reg.lt_irrefl _ (Reg.lt_trans h hb)⟩)
    · exact .inl (.inr ⟨hr, hb⟩)
  · have : a.range.start ≠ b.range.start ∨ a.range.stop ≠ b.range.stop := by
      by_cases hs : a.range.start = b.range.start
      · exact .inr fun he => hr (by cases ha : a.range; cases hb : b.range; simp_all)
      · exact .inl hs
    omega

theorem precedes_trans (a b c : LiveReg) (hab : a.precedes b = true) (hbc : b.precedes c = true) :
    a.precedes c = true := by
  simp only [LiveReg.precedes, Interval.lt_iff, decide_eq_true_eq] at *
  rcases hab with hab | ⟨hab, hr⟩
  · rcases hbc with hbc | ⟨hbc, _⟩
    · exact .inl (by omega)
    · exact .inl (hbc ▸ hab)
  · rcases hbc with hbc | ⟨hbc, hr'⟩
    · exact .inl (hab ▸ hbc)
    · refine .inr ⟨hab.trans hbc, fun hlt => ?_⟩
      by_cases he : c.reg = b.reg
      · exact hr (he ▸ hlt)
      · exact hr (Reg.lt_trans (Reg.lt_of_not_lt_of_ne hr' he) hlt)

/-- Intervals are processed in the order of their starts. -/
theorem queue_starts (ranges : RegTable Interval) :
    (queue ranges).Pairwise fun a b => a.range.start ≤ b.range.start := by
  refine (pairwise_sortBy precedes_trans precedes_total _).imp ?_
  intro a b h
  simp only [LiveReg.precedes, Interval.lt_iff, decide_eq_true_eq] at h
  rcases h with h | ⟨h, _⟩
  · omega
  · exact Int.le_of_eq (congrArg Interval.start h)

/-- Every register of the table is processed once. -/
theorem mem_queue : l ∈ queue ranges ↔ ranges.get? l.reg = some l.range := by
  rw [queue, (sortBy_perm ..).mem_iff, List.mem_map, ← RegTable.mem_entries_iff]
  constructor
  · rintro ⟨⟨r, i⟩, hmem, rfl⟩
    exact hmem
  · intro h
    exact ⟨_, h, rfl⟩

theorem queue_nodup (ranges : RegTable Interval) : ((queue ranges).map (·.reg)).Nodup := by
  rw [queue, ((sortBy_perm ..).map _).nodup_iff, List.map_map]
  refine List.Pairwise.map _ (fun a b h => ?_) ranges.ascending
  intro he
  have he : a.1 = b.1 := he
  rw [he] at h
  exact Reg.lt_irrefl _ h

/-! ### What a call does -/

/-- A call keeps the contract: its registers are in the bank, and no two of them have the same
interval. -/
def Accepts (s : LinearScan) (ranges : RegTable Interval) : Prop :=
  (∀ r, ranges.contains r = true → r.bank = s.bank) ∧ sameNeighbours? (queue ranges) = none

/-- A call that keeps the contract passes over its queue. -/
theorem Accepts.allocate_eq (h : s.Accepts ranges) :
    allocate ranges s = match (queue ranges).forM place s with
      | .ok _ t => .ok t.assigned t
      | .error e t => .error e t := by
  have hkeys : ranges.keys.find? (·.bank ≠ s.bank) = none := by
    simpa only [List.find?_eq_none, RegTable.mem_keys_iff, decide_eq_true_eq, not_not] using h.1
  unfold allocate
  rw [get_bind, hkeys, h.2]
  show (((queue ranges).forM place >>= fun _ => (do return (← get).assigned)) : EStateM _ _ _) s = _
  cases hrun : (queue ranges).forM place s with
  | ok a t => rw [bind_of_ok hrun]; rfl
  | error e t => exact bind_eq_error.mpr (.inl hrun)

/-- A call that breaks the contract is refused before anything happens. -/
theorem allocate_of_not_accepts (h : ¬ s.Accepts ranges) :
    ∃ f, f ≠ .outOfBounds ∧ allocate ranges s = .error (.fault f) s := by
  unfold allocate
  rw [get_bind]
  cases hk : ranges.keys.find? (·.bank ≠ s.bank) with
  | some r => exact ⟨.scanBank s.bank r, Fault.noConfusion, rfl⟩
  | none =>
    cases hn : sameNeighbours? (queue ranges) with
    | some ab => exact ⟨.sameInterval s.bank ab.1.reg ab.2.reg ab.2.range, Fault.noConfusion, rfl⟩
    | none =>
      refine absurd ⟨fun r hr => ?_, hn⟩ h
      simpa using List.find?_eq_none.mp hk r (RegTable.mem_keys_iff.mpr hr)

/-- What a successful allocation went through. -/
theorem allocate_eq_ok {assigned : RegTable Reg} : allocate ranges s = .ok assigned t ↔
    s.Accepts ranges ∧ (queue ranges).forM place s = .ok () t ∧ assigned = t.assigned := by
  by_cases h : s.Accepts ranges
  · rw [h.allocate_eq]
    cases (queue ranges).forM place s with
    | ok a u =>
      constructor
      · intro he
        cases he
        exact ⟨h, rfl, rfl⟩
      · rintro ⟨_, he, rfl⟩
        cases he
        rfl
    | error e u => exact ⟨fun he => (by cases he), fun he => (by cases he.2.1)⟩
  · obtain ⟨f, _, hf⟩ := allocate_of_not_accepts h
    rw [hf]
    exact ⟨fun he => (by cases he), fun he => absurd he.1 h⟩

/-- An allocation that was refused for lack of registers was refused during the pass over the queue. -/
theorem allocate_eq_shortage {lack : Shortage} (h : allocate ranges s = .error (.shortage lack) t) :
    (queue ranges).forM place s = .error (.shortage lack) t := by
  by_cases haccepts : s.Accepts ranges
  · rw [haccepts.allocate_eq] at h
    split at h
    · cases h
    · rename_i hrun
      cases h
      exact hrun
  · obtain ⟨f, _, hf⟩ := allocate_of_not_accepts haccepts
    rw [hf] at h
    cases h

/-- The invariant holds after a pass over the first intervals of the queue. The next one does not
start before the current position. -/
theorem sound_prefix (hs : start bank pool = .ok s) (nodup : pool.Nodup) {rest : List LiveReg}
    (hq : queue ranges = done ++ rest) (h : done.forM place s = .ok () t) :
    ∃ now, t.Sound done now ∧ t.pool = s.pool ∧ ∀ l ∈ rest.head?, now ≤ l.range.start := by
  have hpool := (start_pool hs).nodup_iff.mpr nodup
  have hstarts := queue_starts ranges
  have hregs := queue_nodup ranges
  rw [hq] at hstarts hregs
  have hrun := forM_induction (P := fun before u => ∃ now, (u.Sound before now ∧ u.pool = s.pool) ∧
    ∀ l behind, done ++ rest = before ++ l :: behind → now ≤ l.range.start) ?_ ?_ h
  · obtain ⟨now, ⟨hsound, hp⟩, hnext⟩ := hrun
    refine ⟨now, hsound, hp, fun l hl => ?_⟩
    cases rest with
    | nil => cases hl
    | cons a rest =>
      cases hl
      exact hnext _ rest rfl
  · cases hl : done ++ rest with
    | nil => exact ⟨0, ⟨sound_start hs 0, rfl⟩, by simp⟩
    | cons l behind =>
      refine ⟨l.range.start, ⟨sound_start hs _, rfl⟩, ?_⟩
      rintro l' behind' h'
      cases h'
      exact Int.le_refl _
  · rintro before l behind u v rfl ⟨now, ⟨hsound, hup⟩, hnext⟩ hplace
    rw [List.append_assoc, List.cons_append] at hstarts hregs hnext
    have hnew : ∀ d ∈ before, d.reg ≠ l.reg := by
      intro d hd he
      rw [List.map_append, List.map_cons, List.nodup_append] at hregs
      exact hregs.2.2 _ (List.mem_map_of_mem hd) _ (by simp) he
    obtain ⟨hv, hvp, _⟩ := hsound.place (hup ▸ hpool) hnew (hnext l _ rfl) hplace
    refine ⟨l.range.start, ⟨hv, hvp.trans hup⟩, ?_⟩
    intro l' behind' hq'
    have hbehind : behind ++ rest = l' :: behind' := by simpa using hq'
    rw [hbehind] at hstarts
    exact (List.pairwise_cons.mp (List.pairwise_append.mp hstarts).2.1).1 l' (by simp)

/-- The invariant holds after a whole pass over the queue. -/
theorem sound_forM (hs : start bank pool = .ok s) (nodup : pool.Nodup)
    (h : (queue ranges).forM place s = .ok () t) :
    ∃ now, t.Sound (queue ranges) now ∧ t.pool = s.pool := by
  obtain ⟨now, hsound, hpool, _⟩ := sound_prefix hs nodup (List.append_nil _).symm h
  exact ⟨now, hsound, hpool⟩

/-! ### Order and number -/

/-- The active intervals are in order, and with the free registers there are as many of them as there are
registers in the pool. -/
structure Intact (s : LinearScan) : Prop where
  count : s.active.length + s.free.length = s.pool.length
  ordered : s.active.Pairwise LiveReg.StopsFirst

theorem intact_start (h : start bank pool = .ok s) : s.Intact := by
  obtain rfl := start_eq_ok h
  exact ⟨Nat.zero_add _, .nil⟩

/-- A register that is taken back moves from the active intervals to the free registers. -/
theorem Intact.expire (h : s.Intact) (position : Int) : (s.expire position).Intact := by
  refine ⟨?_, ?_⟩
  · have hsplit := congrArg List.length (List.takeWhile_append_dropWhile
      (p := fun l : LiveReg => decide (l.range.stop < position)) (l := s.active))
    have hcount := h.count
    rw [List.length_append] at hsplit
    rw [expire_active, expire_free, expire_pool, List.length_append, List.length_reverse, List.length_map]
    omega
  · rw [expire_active]
    exact h.ordered.sublist (List.dropWhile_sublist _)

/-- An interval is put at its place in the order. -/
theorem pairwise_stopsFirst_insertActive {active : List LiveReg} (h : active.Pairwise LiveReg.StopsFirst) :
    (insertActive l active).Pairwise LiveReg.StopsFirst := by
  unfold insertActive
  have hsplit := List.takeWhile_append_dropWhile (p := (·.expiresBefore l)) (l := active)
  have hbefore : ∀ a ∈ active.takeWhile (·.expiresBefore l), a.StopsFirst l := fun a ha => by
    have hexpires := List.mem_takeWhile_imp ha
    exact LiveReg.stopsFirst_of_expiresBefore hexpires
  have hhead : ∀ b ∈ (active.dropWhile (·.expiresBefore l)).head?, l.StopsFirst b := fun b hb => by
    have hnot := List.head?_dropWhile_not (·.expiresBefore l) active
    rw [Option.mem_def.mp hb] at hnot
    exact LiveReg.stopsFirst_of_not_expiresBefore (by simpa using hnot)
  generalize active.takeWhile (·.expiresBefore l) = before at *
  generalize active.dropWhile (·.expiresBefore l) = behind at *
  rw [← hsplit, List.pairwise_append] at h
  obtain ⟨hfirst, hlast, hacross⟩ := h
  -- What stands behind the first interval that does not expire earlier stops behind it as well.
  have hbehind : ∀ b ∈ behind, l.StopsFirst b := by
    cases behind with
    | nil => simp
    | cons c behind =>
      have hc := hhead c rfl
      intro b hb
      rcases List.mem_cons.mp hb with rfl | hb
      · exact hc
      · exact hc.trans ((List.pairwise_cons.mp hlast).1 b hb)
  refine List.pairwise_append.mpr ⟨hfirst, List.pairwise_cons.mpr ⟨hbehind, hlast⟩, fun a ha b hb => ?_⟩
  rcases List.mem_cons.mp hb with rfl | hb
  · exact hbefore a ha
  · exact hacross a ha b hb

/-- Handing out a register. -/
theorem Intact.place (h : s.Intact) (hp : LinearScan.place l s = .ok () t) :
    t.Intact ∧ t.pool = s.pool := by
  obtain ⟨phys, hp⟩ := place_eq_ok.mp hp
  have hexpired := h.expire l.range.start
  refine ⟨⟨?_, hp.active ▸ pairwise_stopsFirst_insertActive hexpired.ordered⟩, hp.pool⟩
  have hcount := hexpired.count
  rw [hp.free, List.length_cons, expire_pool] at hcount
  rw [hp.perm.length_eq, hp.pool, List.length_cons]
  omega

/-- A register is refused for lack of registers only: where one is popped, the free ones are not used
up. -/
theorem Intact.place_eq_error (h : s.Intact) (hp : LinearScan.place l s = .error e t) :
    (s.expire l.range.start).active.length = s.pool.length ∧
      e = .shortage (.exhausted s.bank s.pool.length l.reg l.range) ∧ t = s.expire l.range.start := by
  have hcount := (h.expire l.range.start).count
  rw [place_eq] at hp
  split at hp
  · cases hp
    exact ⟨‹_›, rfl, rfl⟩
  · rename_i hroom
    split at hp
    · rename_i hfree
      rw [hfree, List.length_nil, expire_pool] at hcount
      exact absurd hcount hroom
    · cases hp

/-- Handing out registers to several intervals. -/
theorem Intact.forM_place (h : s.Intact) (hrun : done.forM LinearScan.place s = .ok () t) :
    t.Intact ∧ t.pool = s.pool := by
  refine forM_invariant (P := fun u => u.Intact ∧ u.pool = s.pool) ⟨h, rfl⟩ ?_ hrun
  rintro l _ u v ⟨hu, hpool⟩ hp
  obtain ⟨hv, hsame⟩ := hu.place hp
  exact ⟨hv, hsame.trans hpool⟩

/-- A pass over intervals that is refused stops at one of them, for lack of registers. -/
theorem Intact.forM_place_eq_error (h : s.Intact) {intervals : List LiveReg}
    (hrun : intervals.forM LinearScan.place s = .error e t) :
    ∃ done l rest u, intervals = done ++ l :: rest ∧ done.forM LinearScan.place s = .ok () u ∧
      (u.expire l.range.start).active.length = u.pool.length ∧
      e = .shortage (.exhausted u.bank u.pool.length l.reg l.range) ∧ t = u.expire l.range.start := by
  obtain ⟨done, l, rest, u, hsplit, hdone, hp⟩ := forM_eq_error hrun
  exact ⟨done, l, rest, u, hsplit, hdone, (h.forM_place hdone).1.place_eq_error hp⟩

/-- A call that is refused as a broken contract broke it. Nothing has changed, and no position outside of a
list was asked for. -/
theorem Intact.allocate_eq_fault (h : s.Intact) {f : Fault}
    (hcall : allocate ranges s = .error (.fault f) t) :
    ¬ s.Accepts ranges ∧ t = s ∧ f ≠ .outOfBounds := by
  by_cases haccepts : s.Accepts ranges
  · rw [haccepts.allocate_eq] at hcall
    split at hcall
    · cases hcall
    · rename_i hrun
      cases hcall
      obtain ⟨_, _, _, _, _, _, _, he, _⟩ := h.forM_place_eq_error hrun
      cases he
  · obtain ⟨g, hg, heq⟩ := allocate_of_not_accepts haccepts
    rw [heq] at hcall
    cases hcall
    exact ⟨haccepts, rfl, hg⟩

section Fresh

variable {assigned : RegTable Reg}

/-- A fresh scan hands out registers to exactly the intervals that it was given. -/
theorem contains_allocate (hs : start bank pool = .ok s) (nodup : pool.Nodup)
    (ha : allocate ranges s = .ok assigned t) (r : Reg) :
    assigned.contains r = ranges.contains r := by
  obtain ⟨_, hf, rfl⟩ := allocate_eq_ok.mp ha
  obtain ⟨now, h, _⟩ := sound_forM hs nodup hf
  rw [Bool.eq_iff_iff, h.assigned_iff, RegTable.contains, Option.isSome_iff_exists]
  constructor
  · rintro ⟨l, hl, rfl⟩
    exact ⟨_, mem_queue.mp hl⟩
  · rintro ⟨i, hi⟩
    exact ⟨⟨i, r⟩, mem_queue.mpr hi, rfl⟩

/-- A fresh scan hands out registers of its pool only. -/
theorem mem_pool_of_allocate (hs : start bank pool = .ok s) (nodup : pool.Nodup)
    (ha : allocate ranges s = .ok assigned t) {r phys : Reg} (hr : assigned.get? r = some phys) :
    phys ∈ pool := by
  have hc : ranges.contains r = true := by
    rw [← contains_allocate hs nodup ha, RegTable.contains, hr]
    rfl
  obtain ⟨_, hf, rfl⟩ := allocate_eq_ok.mp ha
  obtain ⟨now, h, hp⟩ := sound_forM hs nodup hf
  obtain ⟨i, hi⟩ := Option.isSome_iff_exists.mp hc
  have hm := h.in_pool ⟨i, r⟩ (mem_queue.mpr hi)
  rw [physOf, hr, Option.getD_some, hp] at hm
  exact (start_pool hs).subset hm

/-- A fresh scan gives registers with overlapping intervals different physical registers. -/
theorem ne_of_overlaps (hs : start bank pool = .ok s) (nodup : pool.Nodup)
    (ha : allocate ranges s = .ok assigned t) {a b x y : Reg} {i j : Interval} (hab : a ≠ b)
    (hi : ranges.get? a = some i) (hj : ranges.get? b = some j) (ho : i.overlaps j = true)
    (hx : assigned.get? a = some x) (hy : assigned.get? b = some y) : x ≠ y := by
  obtain ⟨_, hf, rfl⟩ := allocate_eq_ok.mp ha
  obtain ⟨now, h, _⟩ := sound_forM hs nodup hf
  have hne := h.apart ⟨i, a⟩ (mem_queue.mpr hi) ⟨j, b⟩ (mem_queue.mpr hj) hab ho
  rwa [physOf, physOf, hx, hy] at hne

/-- **Linear scan is sound.** What a fresh scan over a pool without repetitions gives is given to exactly
the registers of the table and taken from the pool, and registers whose intervals overlap, if only in one
position, get different ones. -/
theorem allocate_sound (hs : start bank pool = .ok s) (nodup : pool.Nodup)
    (ha : allocate ranges s = .ok assigned t) :
    (∀ r, assigned.contains r = ranges.contains r) ∧
      (∀ r phys, assigned.get? r = some phys → phys ∈ pool) ∧
      ∀ a b i j, a ≠ b → ranges.get? a = some i → ranges.get? b = some j → i.start ≤ j.stop →
        j.start ≤ i.stop → assigned.get? a ≠ assigned.get? b := by
  have hcontains := contains_allocate hs nodup ha
  refine ⟨hcontains, fun r phys => mem_pool_of_allocate hs nodup ha, ?_⟩
  intro a b i j hab hi hj hij hji heq
  obtain ⟨x, hx⟩ : ∃ x, assigned.get? a = some x := by
    rw [← Option.isSome_iff_exists, ← RegTable.contains, hcontains, RegTable.contains, hi]
    rfl
  have ho : i.overlaps j = true := by simp [Interval.overlaps, hij, hji]
  exact ne_of_overlaps hs nodup ha hab hi hj ho hx (heq ▸ hx) rfl

/-- Three vector registers: the second one is live with the first one at position 2 only, and with the
third one at two positions. -/
def touching : RegTable Interval :=
  .ofList [(.vec 10, ⟨0, 2⟩), (.vec 11, ⟨2, 4⟩), (.vec 12, ⟨3, 5⟩)]

theorem allocate_sound_touching : ∃ s assigned t,
    start .vec [.vec 7, .vec 3, .vec 5] = .ok s ∧ [Reg.vec 7, .vec 3, .vec 5].Nodup ∧
      allocate touching s = .ok assigned t ∧ assigned.get? (.vec 10) = some (.vec 3) ∧
      assigned.get? (.vec 12) = some (.vec 3) ∧ assigned.get? (.vec 10) ≠ assigned.get? (.vec 11) := by
  have hnodup : [Reg.vec 7, .vec 3, .vec 5].Nodup := by decide
  obtain ⟨s, assigned, t, hs, ha, h10, h12⟩ : ∃ s assigned t,
      start .vec [.vec 7, .vec 3, .vec 5] = .ok s ∧ allocate touching s = .ok assigned t ∧
        assigned.get? (.vec 10) = some (.vec 3) ∧ assigned.get? (.vec 12) = some (.vec 3) :=
    ⟨_, _, _, rfl, rfl, by decide, by decide⟩
  exact ⟨s, assigned, t, hs, hnodup, ha, h10, h12, (allocate_sound hs hnodup ha).2.2 _ _ ⟨0, 2⟩ ⟨2, 4⟩
    (by decide) (by decide) (by decide) (by decide) (by decide)⟩

end Fresh

end LinearScan

end TensorKernel
