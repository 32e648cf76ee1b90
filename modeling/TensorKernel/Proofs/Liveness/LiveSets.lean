import TensorKernel.Proofs.Allocation.Check
import TensorKernel.Proofs.Liveness.BoundaryRegs

/-!
# What is live at an expression

The registers that are live are kept with the positions where they expire, and cut only where a live
set is recorded. Nevertheless every live set is read off the intervals: it holds the registers whose
intervals begin before the expression and reach up to it. At the first expression it holds the
registers of the kernel boundary, and at silent expressions nothing.
-/

namespace TensorKernel

open Program

variable {id j : ExprId} {position : Int} {i : Interval} {r : Reg} {set : RegSet} {w w₀ : Workspace}

/-- The registers that are live at a position, without those that have an interval in `before`: their
intervals reach up to the position, and began before it or are those of the kernel boundary. -/
def IsLive (before : RegTable Interval) (boundary : Reg → Prop) (ranges : RegTable Interval)
    (position : Int) (r : Reg) : Prop :=
  before.get? r = none ∧ ∃ i, ranges.get? r = some i ∧ position ≤ i.stop ∧
    (i.start < position ∨ boundary r)

/-- A set holds what is live at an expression. Nothing is live at a silent one. -/
structure Program.IsLiveSet (p : Program) (before : RegTable Interval) (boundary : Reg → Prop)
    (ranges : RegTable Interval) (id : ExprId) (set : RegSet) : Prop where
  silent : p.IsSilent id → set = ∅
  mem_iff : ¬ p.IsSilent id → ∀ r, r ∈ set ↔ IsLive before boundary ranges (p.expr id).exec r

theorem Program.IsLiveSet.congr {p : Program} {before ranges ranges' : RegTable Interval}
    {boundary boundary' : Reg → Prop} (h : p.IsLiveSet before boundary ranges id set)
    (hsame : ∀ r, IsLive before boundary' ranges' (p.expr id).exec r ↔
      IsLive before boundary ranges (p.expr id).exec r) :
    p.IsLiveSet before boundary' ranges' id set where
  silent := h.silent
  mem_iff hns r := (h.mem_iff hns r).trans (hsame r).symm

namespace RangeState

/-- The expressions whose visits have begun. -/
def seen (done : List ExprId) : Option (ExprId × Nat) → List ExprId
  | none => done
  | some (id, _) => done ++ [id]

variable {p : Program} {s₀ u s : RangeState} {done rest : List ExprId}
  {current : Option (ExprId × Nat)} {bank : Bank} {values : List ValueRef} {range : Interval}

/-! ### What expires -/

/-- What was handed out since `s₀` expires where its interval ends, unless that is before a position. -/
structure Expires (s s₀ : RangeState) (position : Int) : Prop where
  sound : ∀ r stop, s.expiring.get? r = some stop →
    s₀.live.ranges.get? r = none ∧ ∃ i, s.live.ranges.get? r = some i ∧ i.stop = stop
  complete : ∀ r i, s₀.live.ranges.get? r = none → s.live.ranges.get? r = some i →
    position ≤ i.stop → s.expiring.get? r = some i.stop

theorem Expires.mono (h : s.Expires s₀ position) {later : Int} (hle : position ≤ later) :
    s.Expires s₀ later where
  sound := h.sound
  complete r i hold hi hstop := h.complete r i hold hi (Int.le_trans hle hstop)

theorem Expires.handOut (h : s.Expires s₀ position)
    (hnew : s₀.live.ranges.get? ⟨bank, s.counts bank⟩ = none) :
    (s.handOut bank values range).Expires s₀ position where
  sound r stop hr := by
    rw [expiring_handOut] at hr
    rw [get?_handOut]
    split at hr
    · rename_i he
      cases hr
      exact ⟨he ▸ hnew, range, if_pos he, rfl⟩
    · rename_i hne
      rw [if_neg hne]
      exact h.sound r stop hr
  complete r i hold hi hle := by
    rw [get?_handOut] at hi
    rw [expiring_handOut]
    split at hi
    · rename_i he
      cases hi
      rw [if_pos he]
    · rename_i hne
      rw [if_neg hne]
      exact h.complete r i hold hi hle

/-- What is cut at a position has expired there. -/
theorem Expires.enter (h : s.Expires s₀ position) : (s.enter id position).Expires s₀ position where
  sound r stop hr := by
    have hr : (s.liveAt position).get? r = some stop := hr
    rw [liveAt, RegTable.get?_filter, Option.filter_eq_some_iff] at hr
    exact h.sound r stop hr.1
  complete r i hold hi hle := by
    show (s.liveAt position).get? r = some i.stop
    rw [liveAt, RegTable.get?_filter, Option.filter_eq_some_iff]
    exact ⟨h.complete r i hold hi hle, decide_eq_true hle⟩

/-- Nothing expires that is needed behind the expressions that were visited. -/
theorem Reached.expires (he : p.Enumerated) (hnone : s₀.expiring = ∅)
    (h : Reached p s₀ u done current s) : s.Expires s₀ done.length := by
  induction h with
  | start =>
    refine ⟨fun r stop hr => ?_, fun r i hold hi => ?_⟩
    · rw [hnone] at hr
      cases hr
    · rw [hold] at hi
      cases hi
  | pointer hreached _ _ htakes ih | give hreached _ _ _ htakes ih =>
    exact ih.handOut (hreached.get?_eq_none htakes.get?_eq_none)
  | silent _ _ _ ih =>
    have hlater := ih.mono (Int.ofNat_le.mpr (Nat.le_succ _))
    rw [List.length_append]
    exact ⟨hlater.sound, hlater.complete⟩
  | @enter done rest id _ s _ hi _ ih =>
    have hexec := he done.length id (by simp [hi])
    rw [hexec]
    exact ih.enter
  | keep _ _ _ ih => exact ih
  | leave _ ih =>
    rw [List.length_append]
    exact ih.mono (Int.ofNat_le.mpr (Nat.le_succ _))

/-! ### What live sets hold -/

/-- An expression that was visited stands before the next one. -/
theorem exec_lt_of_mem (he : p.Enumerated) (hi : p.order = done ++ id :: rest) (hj : j ∈ done) :
    (p.expr j).exec < (p.expr id).exec := by
  have hpairwise := he.pairwise
  rw [hi, List.pairwise_append] at hpairwise
  exact hpairwise.2.2 j hj id List.mem_cons_self

/-- An interval that is not of the boundary begins at an expression whose visit has begun. -/
theorem Reached.begins (h : Reached p s₀ u done current s) (hb : u.live.ranges.get? r = none)
    (hi : s.live.ranges.get? r = some i) : ∃ id ∈ seen done current, i.start = (p.expr id).exec := by
  induction h with
  | start | pointer =>
    rw [hb] at hi
    cases hi
  | silent _ _ _ ih | enter _ _ _ ih =>
    obtain ⟨j, hj, hstart⟩ := ih hb hi
    exact ⟨j, List.mem_append_left _ hj, hstart⟩
  | @give done id k _ s _ _ _ _ _ ih =>
    rw [get?_handOut] at hi
    split at hi
    · cases hi
      exact ⟨id, List.mem_append_right _ List.mem_cons_self, rfl⟩
    · exact ih hb hi
  | keep _ _ _ ih | leave _ ih => exact ih hb hi

/-- Every new interval begins at an expression of the program and does not end before. -/
theorem Reached.timed (he : p.Enumerated) (h : Reached p s₀ u done current s)
    (hnew : s₀.live.ranges.get? r = none) (hi : s.live.ranges.get? r = some i) :
    i.start ≤ i.stop ∧ ∃ id ∈ p.order, i.start = (p.expr id).exec := by
  induction h with
  | start =>
    rw [hnew] at hi
    cases hi
  | pointer _ _ _ htakes ih =>
    rw [get?_handOut] at hi
    split at hi
    · cases hi
      have hpos : 0 < p.order.length := by
        have hle := htakes.2
        simp only [Program.length] at hle
        omega
      exact ⟨htakes.2, _, List.getElem_mem hpos, (he 0 _ (List.getElem?_eq_getElem hpos)).symm⟩
    · exact ih hi
  | @give done id k _ s hreached _ _ _ htakes ih =>
    rw [get?_handOut] at hi
    split at hi
    · cases hi
      obtain ⟨_, rest, horder⟩ := hreached.current
      exact ⟨htakes.2, id, by simp [horder], rfl⟩
    · exact ih hi
  | silent _ _ _ ih | enter _ _ _ ih | keep _ _ _ ih | leave _ ih => exact ih hi

/-- What has not expired at the next expression is what is live there. -/
theorem Reached.mem_liveAt (he : p.Enumerated) (hnone : s₀.expiring = ∅)
    (h : Reached p s₀ u done none s) (hi : p.order = done ++ id :: rest) (r : Reg) :
    r ∈ (s.liveAt (p.expr id).exec).keySet ↔
      IsLive s₀.live.ranges (u.live.ranges.contains · = true) s.live.ranges (p.expr id).exec r := by
  have hexec : (p.expr id).exec = done.length := he done.length id (by simp [hi])
  have hexpires := h.expires he hnone
  rw [← hexec] at hexpires
  rw [RegTable.mem_keySet, RegTable.contains, liveAt, RegTable.get?_filter, Option.isSome_iff_exists]
  simp only [Option.filter_eq_some_iff, decide_eq_true_eq]
  constructor
  · rintro ⟨stop, hstop, hle⟩
    obtain ⟨hold, i, hget, rfl⟩ := hexpires.sound r stop hstop
    refine ⟨hold, i, hget, hle, ?_⟩
    cases hb : u.live.ranges.get? r with
    | some j => exact .inr (Option.isSome_of_eq_some hb)
    | none =>
      obtain ⟨j, hj, hstart⟩ := h.begins hb hget
      exact .inl (hstart ▸ exec_lt_of_mem he hi hj)
  · rintro ⟨hold, i, hget, hle, _⟩
    exact ⟨i.stop, hexpires.complete r i hold hget hle, hle⟩

/-- A register that is handed out is live at no position up to the beginning of its interval. -/
theorem isLive_handOut {before : RegTable Interval} {boundary : Reg → Prop} (htakes : s.Takes bank range)
    (hnew : ¬ boundary ⟨bank, s.counts bank⟩) (hle : position ≤ range.start) (r : Reg) :
    IsLive before boundary (s.handOut bank values range).live.ranges position r ↔
      IsLive before boundary s.live.ranges position r := by
  unfold IsLive
  rw [get?_handOut]
  split
  · rename_i hr
    subst hr
    constructor
    · rintro ⟨_, i, hget, _, hbegin⟩
      cases hget
      rcases hbegin with hlt | hb
      · exact absurd hle (Int.not_le.mpr hlt)
      · exact absurd hb hnew
    · rintro ⟨_, i, hget, _⟩
      exact absurd rfl (htakes.ne hget)
  · rfl

/-- The live sets of a state, for expressions whose visits have begun. -/
def LiveSets (p : Program) (s s₀ u : RangeState) (ids : List ExprId) : Prop :=
  ∀ id ∈ ids, ∃ set, s.live.set? id = some set ∧
    p.IsLiveSet s₀.live.ranges (u.live.ranges.contains · = true) s.live.ranges id set

/-- The live set of the next expression is recorded. -/
theorem LiveSets.putSet (he : p.Enumerated) (hi : p.order = done ++ id :: rest)
    (h : s.LiveSets p s₀ u done) {expiring : RegTable Int}
    (hset : p.IsLiveSet s₀.live.ranges (u.live.ranges.contains · = true) s.live.ranges id set) :
    LiveSets p { s with live := s.live.putSet id set, expiring } s₀ u (done ++ [id]) := by
  intro j hj
  rcases List.mem_append.mp hj with hj | hj
  · obtain ⟨before, hbefore, hlive⟩ := h j hj
    refine ⟨before, ?_, hlive⟩
    rw [← hbefore, Liveness.set?_putSet, if_neg]
    rintro rfl
    exact Int.lt_irrefl _ (exec_lt_of_mem he hi hj)
  · obtain rfl := List.mem_singleton.mp hj
    refine ⟨set, ?_, hset⟩
    rw [Liveness.set?_putSet, if_pos rfl]

/-- A register that is handed out where all these expressions have been entered changes no live set. -/
theorem LiveSets.handOut {ids : List ExprId} (h : s.LiveSets p s₀ u ids) (htakes : s.Takes bank range)
    (hnew : ¬ u.live.ranges.contains ⟨bank, s.counts bank⟩ = true)
    (hle : ∀ j ∈ ids, (p.expr j).exec ≤ range.start) :
    (s.handOut bank values range).LiveSets p s₀ u ids := by
  intro j hj
  obtain ⟨set, hset, hlive⟩ := h j hj
  exact ⟨set, hset, hlive.congr (isLive_handOut htakes hnew (hle j hj))⟩

/-- In every state, live sets hold what is live. -/
theorem Reached.liveSets (he : p.Enumerated) (hnone : s₀.expiring = ∅)
    (h : Reached p s₀ u done current s) : s.LiveSets p s₀ u (seen done current) := by
  induction h with
  | start | pointer => exact fun id hid => absurd hid List.not_mem_nil
  | silent _ hi hsilent ih => exact ih.putSet he hi ⟨fun _ => rfl, fun hns => absurd hsilent hns⟩
  | enter hreached hi hsilent ih =>
    exact ih.putSet he hi ⟨fun hs => absurd hs hsilent, fun _ => hreached.mem_liveAt he hnone hi⟩
  | @give done id k u s hreached _ _ _ htakes ih =>
    obtain ⟨_, rest, hi⟩ := hreached.current
    refine ih.handOut htakes (fun hcontains => ?_) fun j hj => ?_
    · rw [RegTable.contains, hreached.visits.get?_eq_none htakes.get?_eq_none] at hcontains
      cases hcontains
    · show (p.expr j).exec ≤ (p.expr id).exec
      rcases List.mem_append.mp hj with hj | hj
      · exact Int.le_of_lt (exec_lt_of_mem he hi hj)
      · exact Int.le_of_eq (by rw [List.mem_singleton.mp hj])
  | keep _ _ _ ih | leave _ ih => exact ih

end RangeState

namespace Workspace

/-- Every new interval begins at an expression of the program and does not end before. -/
theorem timed_of_computeRanges (h : computeRanges w₀ = .ok () w) (hnew : w₀.live.ranges.get? r = none)
    (hi : w.live.ranges.get? r = some i) :
    i.start ≤ i.stop ∧ ∃ id ∈ w₀.program.order, i.start = (w₀.program.expr id).exec := by
  obtain ⟨he, s, u, rfl, _, hreached⟩ := reached_of_computeRanges h
  exact hreached.timed he hnew hi

/-- Every expression has a live set, which holds what is live there. -/
theorem live_of_computeRanges (h : computeRanges w₀ = .ok () w) (hid : id ∈ w₀.program.order) :
    ∃ set, w.live.set? id = some set ∧ w₀.program.IsLiveSet w₀.live.ranges
      (fun r => ∃ n, w₀.GivesPointer n r) w.live.ranges id set := by
  obtain ⟨he, s, u, rfl, hglobals, hreached⟩ := reached_of_computeRanges h
  obtain ⟨set, hset, hlive⟩ := hreached.liveSets he rfl id hid
  refine ⟨set, hset, hlive.congr fun r => and_congr_right fun hnew => ?_⟩
  simp only [(RangeState.bounded_assignGlobals hglobals).contains_iff hnew]

/-- So it holds registers with live ranges. -/
theorem contains_live_of_computeRanges (h : computeRanges w₀ = .ok () w) (hid : id ∈ w₀.program.order) :
    ∃ set, w.live.set? id = some set ∧ ∀ r ∈ set, w.live.ranges.contains r = true := by
  obtain ⟨set, hset, hlive⟩ := live_of_computeRanges h hid
  refine ⟨set, hset, fun r hr => ?_⟩
  by_cases hsilent : w₀.program.IsSilent id
  · rw [hlive.silent hsilent] at hr
    exact absurd hr (RegSet.not_mem_empty r)
  · obtain ⟨_, i, hi, _⟩ := (hlive.mem_iff hsilent r).mp hr
    exact Option.isSome_of_eq_some hi

/-- **Live sets are exact.** After live ranges were computed for a program from scratch, nothing is
live at a result or the end of a loop. Any other expression has the registers in its live set whose
intervals begin before it and reach up to it, and no others; at the first position these are the
registers that were given to the pointers of the kernel boundary. -/
theorem mem_liveSet_iff {p : Program} {w : Workspace}
    (ranged : computeRanges { program := p } = .ok () w) (id : ExprId) (listed : id ∈ p.order) :
    (p.IsSilent id → w.live.set? id = some ∅) ∧
    (¬ p.IsSilent id → (p.expr id).exec = 0 →
      ∃ set, w.live.set? id = some set ∧ ∀ r, r ∈ set ↔ ∃ n, p.GivesPointer n r) ∧
    (¬ p.IsSilent id → 1 ≤ (p.expr id).exec →
      ∃ set, w.live.set? id = some set ∧ ∀ r, r ∈ set ↔
        ∃ i, w.live.ranges.get? r = some i ∧ i.start < (p.expr id).exec ∧
          (p.expr id).exec ≤ i.stop) := by
  obtain ⟨he, _⟩ := reached_of_computeRanges ranged
  obtain ⟨set, hset, hlive⟩ := live_of_computeRanges ranged listed
  have hboundary : ∀ r n i, p.GivesPointer n r → w.live.ranges.get? r = some i →
      i = ⟨0, p.length - 1⟩ := by
    intro r n i hn hi
    exact Option.some.inj (hi.symm.trans (get?_of_givesPointer ranged hn).2)
  refine ⟨fun hs => ?_, fun hns hzero => ⟨set, hset, fun r => ?_⟩, fun hns hpos => ⟨set, hset, fun r => ?_⟩⟩
  · rw [hset, hlive.silent hs]
  · rw [hlive.mem_iff hns r, hzero]
    constructor
    · rintro ⟨hnew, i, hi, _, hlt | hgives⟩
      · obtain ⟨_, j, hj, hstart⟩ := timed_of_computeRanges ranged hnew hi
        have hnonneg := (he.exec_mem hj).1
        omega
      · exact hgives
    · rintro ⟨n, hn⟩
      have hget := get?_of_givesPointer ranged hn
      have hlast := (he.exec_mem listed).2
      exact ⟨hget.1, _, hget.2, hzero ▸ hlast, .inr ⟨n, hn⟩⟩
  · rw [hlive.mem_iff hns r]
    constructor
    · rintro ⟨_, i, hi, hle, hlt | ⟨n, hn⟩⟩
      · exact ⟨i, hi, hlt, hle⟩
      · refine ⟨i, hi, ?_, hle⟩
        rw [hboundary r n i hn hi]
        exact hpos
    · rintro ⟨i, hi, hlt, hle⟩
      exact ⟨rfl, i, hi, hle, .inl hlt⟩

end Workspace

/-- The tiled copy: its result, its parameter and the store of its second loop. -/
theorem mem_liveSet_iff_tiledCopy : ∃ w,
    Workspace.computeRanges { program := tiledCopy.lowered {} } = .ok () w ∧
      w.live.set? 3 = some ∅ ∧
      (∃ set, w.live.set? 0 = some set ∧
        ∀ r, r ∈ set ↔ ∃ n, (tiledCopy.lowered {}).GivesPointer n r) ∧
      ∃ set, w.live.set? 2 = some set ∧ ∀ r, r ∈ set ↔
        ∃ i, w.live.ranges.get? r = some i ∧ i.start < 7 ∧ 7 ≤ i.stop := by
  have hsome : (Workspace.ranged? { program := tiledCopy.lowered {} }).isSome = true := by
    decide +kernel
  obtain ⟨w, h⟩ := Option.isSome_iff_exists.mp hsome
  have hranged := Workspace.ranged?_eq_some h
  generalize hp : tiledCopy.lowered {} = p at *
  have hplaces : (3 ∈ p.order ∧ p.IsSilent 3) ∧
      (0 ∈ p.order ∧ ¬ p.IsSilent 0 ∧ (p.expr 0).exec = 0) ∧
      2 ∈ p.order ∧ ¬ p.IsSilent 2 ∧ (p.expr 2).exec = 7 := by
    rw [← hp]
    decide +kernel
  obtain ⟨hresult, hparameter, hstore, hloud, hexec⟩ := hplaces
  have hset := (Workspace.mem_liveSet_iff hranged 2 hstore).2.2 hloud (by omega)
  rw [hexec] at hset
  refine ⟨w, hranged, ?_, ?_, hset⟩
  · exact (Workspace.mem_liveSet_iff hranged 3 hresult.1).1 hresult.2
  · exact (Workspace.mem_liveSet_iff hranged 0 hparameter.1).2.1 hparameter.2.1 hparameter.2.2

end TensorKernel
