import Mathlib.Data.List.Perm.Subperm
import TensorKernel.Proofs.Allocation.Traces
import TensorKernel.Proofs.Liveness.LiveSets
import TensorKernel.Proofs.Liveness.Origins

/-!
# When registers run out

A linear scan keeps a register busy no longer than its interval lasts, since active intervals expire
in the order of their ends. So it gives up only at an interval that starts while as many others are
live as the pool has registers. And it never overcommits: intervals that are live at one position hold
different registers of the pool. Hence the assignment of registers fails exactly when a pin lies
outside its bank, or more registers that are not pinned are live at some position than are left.
Otherwise the registers with live ranges are assigned, and with them the registers that values fixed by
conventions had from the start.
-/

namespace TensorKernel

open Outcome

variable {now : Int} {positions : List Int} {l : LiveReg} {p : Program} {refusal : Refusal} {regs : RegMap}

namespace LinearScan

/-- What is still active at a position reaches up to it. -/
theorem Intact.le_stop_of_mem_expire {s : LinearScan} (h : s.Intact) {position : Int}
    (hl : l ∈ (s.expire position).active) : position ≤ l.range.stop := by
  have hordered := h.ordered.imp LiveReg.StopsFirst.stop_le
  rw [expire_active] at hl
  generalize s.active = active at hordered hl
  induction active with
  | nil => cases hl
  | cons a active ih =>
    obtain ⟨ha, hrest⟩ := List.pairwise_cons.mp hordered
    rw [List.dropWhile_cons] at hl
    split at hl
    · exact ih hrest hl
    · rename_i hstop
      simp only [decide_eq_true_eq, Int.not_lt] at hstop
      rcases List.mem_cons.mp hl with rfl | hl
      · exact hstop
      · exact Int.le_trans hstop (ha l hl)

variable {ranges : RegTable Interval} {s t : LinearScan} {bank : Bank} {pool : List Reg}

/-- The intervals of a table that contain a position. -/
def liveAt (ranges : RegTable Interval) (position : Int) : List LiveReg :=
  (queue ranges).filter (·.range.contains position)

/-- What is live at one position holds different registers. -/
theorem Sound.nodup_liveAt (h : t.Sound (queue ranges) now) (position : Int) :
    ((liveAt ranges position).map t.physOf).Nodup := by
  have hregs : (queue ranges).Pairwise fun a b => a.reg ≠ b.reg :=
    List.pairwise_map.mp (queue_nodup ranges)
  refine List.pairwise_map.mpr ((hregs.filter _).imp_of_mem fun {a b} ha hb hne => ?_)
  obtain ⟨ha, hacontains⟩ := List.mem_filter.mp ha
  obtain ⟨hb, hbcontains⟩ := List.mem_filter.mp hb
  refine h.apart a ha b hb hne ?_
  simp only [Interval.overlaps, Interval.contains, Bool.and_eq_true, decide_eq_true_eq] at *
  omega

/-- A scan that went through did not overcommit: what is live at one position has different registers
of the pool. -/
theorem length_liveAt_le (hs : start bank pool = .ok s) (nodup : pool.Nodup)
    (h : (queue ranges).forM place s = .ok () t) (position : Int) :
    (liveAt ranges position).length ≤ pool.length := by
  obtain ⟨now, hsound, hpool⟩ := sound_forM hs nodup h
  have hsubset : (liveAt ranges position).map t.physOf ⊆ pool := by
    intro phys hphys
    obtain ⟨l, hl, rfl⟩ := List.mem_map.mp hphys
    have hin := hsound.in_pool l (List.mem_filter.mp hl).1
    rw [hpool] at hin
    exact (start_pool hs).subset hin
  have hle := ((hsound.nodup_liveAt position).subperm hsubset).length_le
  rwa [List.length_map] at hle

/-- Where an interval starts, it is live together with the intervals that are still active. -/
theorem Sound.length_active_lt {done : List LiveReg} (h : s.Sound done now) (intact : s.Intact)
    (nodup : s.pool.Nodup) (new : l ∉ done) (earlier : ∀ d ∈ done, d.range.start ≤ l.range.start)
    (proper : l.range.start ≤ l.range.stop) :
    (s.expire l.range.start).active.length <
      ((done ++ [l]).filter (·.range.contains l.range.start)).length := by
  have hmet : ∀ d ∈ (s.expire l.range.start).active, d ∈ done := by
    intro d hd
    rw [expire_active] at hd
    exact h.active_done d ((List.dropWhile_sublist _).mem hd)
  have hactive : ((s.expire l.range.start).active).Nodup := by
    have hpool := (expire_split l.range.start h.split).nodup_iff.mpr nodup
    exact (List.nodup_append.mp hpool).1.of_map _
  have hlive : l :: (s.expire l.range.start).active ⊆
      (done ++ [l]).filter (·.range.contains l.range.start) := by
    intro d hd
    rw [List.mem_filter, List.mem_append, List.mem_singleton]
    simp only [Interval.contains, Bool.and_eq_true, decide_eq_true_eq]
    rcases List.mem_cons.mp hd with rfl | hd
    · exact ⟨.inr rfl, Int.le_refl _, proper⟩
    · exact ⟨.inl (hmet d hd), earlier d (hmet d hd), intact.le_stop_of_mem_expire hd⟩
  have hnew : l ∉ (s.expire l.range.start).active := fun hmem => new (hmet l hmem)
  have hle := ((List.nodup_cons.mpr ⟨hnew, hactive⟩).subperm hlive).length_le
  rwa [List.length_cons] at hle

/-- A scan that was refused had too few registers: where an interval starts, more intervals are live
than the pool has registers. -/
theorem length_lt_liveAt (hs : start bank pool = .ok s) (nodup : pool.Nodup)
    (ordered : ∀ r i, ranges.get? r = some i → i.start ≤ i.stop)
    (h : (queue ranges).forM place s = .error refusal t) :
    ∃ l ∈ queue ranges, pool.length < (liveAt ranges l.range.start).length := by
  have hstart := intact_start hs
  obtain ⟨done, l, rest, u, hq, hdone, hfull, _⟩ := hstart.forM_place_eq_error h
  obtain ⟨now, hsound, hpool, _⟩ := sound_prefix hs nodup hq hdone
  have hpoolLength : u.pool.length = pool.length := by rw [hpool, (start_pool hs).length_eq]
  have hmem : l ∈ queue ranges := by simp [hq]
  have hstarts := queue_starts ranges
  have hregs := List.pairwise_map.mp (queue_nodup ranges)
  rw [hq] at hstarts hregs
  have hnew : l ∉ done := fun hd =>
    (List.pairwise_append.mp hregs).2.2 l hd l List.mem_cons_self rfl
  have hlive := hsound.length_active_lt (hstart.forM_place hdone).1
    (hpool ▸ (start_pool hs).nodup_iff.mpr nodup) hnew
    (fun d hd => (List.pairwise_append.mp hstarts).2.2 d hd l List.mem_cons_self)
    (ordered _ _ (mem_queue.mp hmem))
  have hpart : (done ++ [l]).Sublist (queue ranges) := by
    rw [hq]
    exact (List.cons_sublist_cons.mpr (List.nil_sublist rest)).append_left done
  have hle := (hpart.filter (·.range.contains l.range.start)).length_le
  refine ⟨l, hmem, ?_⟩
  rw [liveAt]
  omega

end LinearScan

namespace Allocation

variable {m : Machine} {ranges : RegTable Interval} {pins : RegMap} {bank : Bank}

/-- The registers of a bank that are not pinned and are live at a position. -/
def waitingAt (ranges : RegTable Interval) (pins : RegMap) (bank : Bank) (position : Int) :
    List (Reg × Interval) :=
  ranges.entries.filter fun (r, i) =>
    (r.bank = bank ∧ pins.contains r = false) ∧ i.contains position = true

/-- The physical registers of a pool that are pinned. -/
def pinnedIn (m : Machine) (pins : RegMap) (bank : Bank) : RegSet :=
  (RegSet.ofList pins.values).filter fun phys =>
    phys.bank = bank ∧ 0 ≤ phys.index ∧ phys.index < m.poolSize bank

/-- A bank has too few registers: a pin lies behind its pool, or at some of the positions more
registers that are not pinned are live than the pins leave. -/
def TooSmall (m : Machine) (ranges : RegTable Interval) (pins : RegMap) (positions : List Int)
    (bank : Bank) : Prop :=
  (∃ phys ∈ pins.values, phys.bank = bank ∧ m.poolSize bank ≤ phys.index) ∨
    ∃ position ∈ positions, m.poolSize bank - (pinnedIn m pins bank).toList.length <
      (waitingAt ranges pins bank position).length

instance (m : Machine) (ranges : RegTable Interval) (pins : RegMap) (positions : List Int)
    (bank : Bank) : Decidable (TooSmall m ranges pins positions bank) :=
  inferInstanceAs (Decidable (_ ∨ _))

/-- The pool is what is free and what is pinned. -/
theorem length_freePool (pins : RegMap) (size : 0 ≤ m.poolSize bank) :
    (freePool m pins bank).length + (pinnedIn m pins bank).toList.length = m.poolSize bank := by
  generalize hpool : (List.range (m.poolSize bank).toNat).map
    (fun (i : Nat) => (⟨bank, i⟩ : Reg)) = pool
  have hnodup : pool.Nodup := by
    rw [← hpool]
    refine List.nodup_range.map fun i j hij => ?_
    simpa only [Reg.mk.injEq, true_and, Int.natCast_inj] using hij
  have hpinned : (pinnedIn m pins bank).toList.Perm (pool.filter (pins.values.contains ·)) := by
    refine (List.perm_ext_iff_of_nodup ?_ (hnodup.filter _)).mpr fun phys => ?_
    · refine (pinnedIn m pins bank).ascending.imp fun hlt he => ?_
      exact Reg.lt_irrefl _ (he ▸ hlt)
    · rw [← RegSet.mem_def, pinnedIn, RegSet.mem_filter, RegSet.mem_ofList, List.mem_filter, ← hpool]
      simp only [List.mem_map, List.mem_range, decide_eq_true_eq, List.contains_eq_mem]
      constructor
      · rintro ⟨hmem, rfl, hle, hlt⟩
        refine ⟨⟨phys.index.toNat, by omega, ?_⟩, hmem⟩
        rw [Int.toNat_of_nonneg hle]
      · rintro ⟨⟨i, hi, rfl⟩, hmem⟩
        exact ⟨hmem, rfl, Int.natCast_nonneg i, by show (i : Int) < _; omega⟩
  have hlength : pool.length = (m.poolSize bank).toNat := by
    rw [← hpool, List.length_map, List.length_range]
  have hfree : freePool m pins bank = pool.filter (!pins.values.contains ·) := by
    rw [freePool, hpool]
  have hparts := pool.length_eq_length_filter_add (pins.values.contains ·)
  rw [hpinned.length_eq, hfree]
  omega

/-- Linear scan is given what is live and not pinned. -/
theorem length_liveAt (position : Int) :
    (LinearScan.liveAt (waiting ranges pins bank) position).length =
      (waitingAt ranges pins bank position).length := by
  rw [LinearScan.liveAt, LinearScan.queue, ((sortBy_perm ..).filter _).length_eq, List.filter_map,
    List.length_map, waiting, RegTable.filter, List.filter_filter, waitingAt]
  congr 1
  refine List.filter_congr fun entry _ => ?_
  rw [Bool.eq_iff_iff]
  simp [and_comm, and_left_comm]

/-- The allocation of one bank breaks a contract, or it fails and the bank is too small, or it
succeeds and the bank is large enough. -/
theorem allocateBank_cases (name : Label) (pins : RegMap) (size : 0 ≤ m.poolSize bank)
    (timed : ∀ r i, ranges.get? r = some i → i.start ≤ i.stop ∧ i.start ∈ positions) :
    (∃ fault, allocateBank name m ranges pins bank = .error (.fault fault)) ∨
      TooSmall m ranges pins positions bank ∧
        (∃ lack, allocateBank name m ranges pins bank = .error (.shortage lack)) ∨
      ¬ TooSmall m ranges pins positions bank ∧
        ∃ assigned, allocateBank name m ranges pins bank = .ok assigned := by
  have hsize := length_freePool pins size
  cases h : allocateBank name m ranges pins bank with
  | ok assigned =>
    obtain ⟨hinside, s, t, hs, ha⟩ := allocateBank_eq_ok.mp h
    refine .inr (.inr ⟨?_, assigned, rfl⟩)
    rintro (⟨phys, hphys, hb, hle⟩ | ⟨position, _, hlt⟩)
    · exact absurd (hinside phys hphys hb) (Int.not_lt.mpr hle)
    · have hle := LinearScan.length_liveAt_le hs nodup_freePool (LinearScan.allocate_eq_ok.mp ha).2.1 position
      rw [length_liveAt] at hle
      omega
  | error e =>
    rcases allocateBank_eq_error h with
      ⟨phys, hphys, hout, rfl⟩ | ⟨s, t, hs, _, ⟨lack, rfl, ha⟩ | ⟨fault, rfl, _⟩⟩
    · exact .inr (.inl ⟨.inl ⟨phys, hphys, hout⟩, _, rfl⟩)
    · have htimed := fun r i (hi : (waiting ranges pins bank).get? r = some i) =>
        timed r i (get?_waiting.mp hi).1
      obtain ⟨l, hl, hlt⟩ := LinearScan.length_lt_liveAt hs nodup_freePool
        (fun r i hi => (htimed r i hi).1) (LinearScan.allocate_eq_shortage ha)
      rw [length_liveAt] at hlt
      exact .inr (.inl ⟨.inr ⟨_, (htimed _ _ (LinearScan.mem_queue.mp hl)).2, by omega⟩, _, rfl⟩)
    · exact .inl ⟨fault, rfl⟩

/-- The choice of registers breaks a contract, or it fails and one of the banks is too small, or it
succeeds and both are large enough. -/
theorem choose_cases {w : Workspace} (gprs : 0 ≤ m.poolSize .gpr) (vecs : 0 ≤ m.poolSize .vec)
    (timed : ∀ r i, w.live.ranges.get? r = some i → i.start ≤ i.stop ∧ i.start ∈ positions) :
    (∃ fault, choose m w = .error (.fault fault)) ∨
      ∃ manual, w.program.pins = .ok manual ∧
        ((TooSmall m w.live.ranges manual positions .gpr ∨
            TooSmall m w.live.ranges manual positions .vec) ∧
          (∃ lack, choose m w = .error (.shortage lack)) ∨
        ¬ (TooSmall m w.live.ranges manual positions .gpr ∨
            TooSmall m w.live.ranges manual positions .vec) ∧
          ∃ a, choose m w = .ok a) := by
  simp only [choose]
  cases hfind : w.live.ranges.keys.find? fun r => r.bank ≠ .gpr ∧ r.bank ≠ .vec with
  | some r => exact .inl ⟨_, rfl⟩
  | none =>
    cases hpins : w.program.pins with
    | error fault => exact .inl ⟨fault, rfl⟩
    | ok manual =>
      simp only [mapError_ok, bind, Except.bind]
      rcases allocateBank_cases w.program.name manual gprs timed with
        ⟨fault, hg⟩ | ⟨hsmall, lack, hg⟩ | ⟨hgprs, assigned, hg⟩
      · exact .inl ⟨fault, by rw [hg]⟩
      · exact .inr ⟨manual, rfl, .inl ⟨.inl hsmall, lack, by rw [hg]⟩⟩
      rw [hg]
      rcases allocateBank_cases w.program.name manual vecs timed with
        ⟨fault, hv⟩ | ⟨hsmall, lack, hv⟩ | ⟨hvecs, assigned', hv⟩
      · exact .inl ⟨fault, by rw [hv]⟩
      · exact .inr ⟨manual, rfl, .inl ⟨.inr hsmall, lack, by rw [hv]⟩⟩
      · refine .inr ⟨manual, rfl, .inr ⟨?_, ⟨manual, assigned.merge assigned'⟩, by rw [hv]; rfl⟩⟩
        rintro (hsmall | hsmall)
        · exact hgprs hsmall
        · exact hvecs hsmall

end Allocation

namespace Program

variable {q : Program} {r : Reg}

/-- A value that a convention fixes has the register `r` in `p`, and has it still in `q`. -/
def Preset (p q : Program) (r : Reg) : Prop :=
  ∃ side id k phys v, p.Fixes side id k phys ∧ p.valueAt? side id k = some v ∧
    p.abstractReg v = r ∧ q.abstractReg v = r

/-- No value that a convention fixes has a register. -/
def FixedUnset (p : Program) : Prop :=
  ∀ side id k phys v, p.Fixes side id k phys → p.valueAt? side id k = some v →
    (p.abstractReg v).isDefined = false

/-- Conventions fix only values of a program whose wiring is in order, and these have no registers as
long as the program has none. -/
theorem Fresh.fixedUnset (fresh : p.Fresh) (linked : p.Linked) (closed : p.Closed) : p.FixedUnset := by
  have hafter : ∀ {id x}, id ∈ p.order → x ∈ id :: p.viewsAfter id → x ∈ p.order := by
    intro id x hid hx
    rcases List.mem_cons.mp hx with rfl | hx
    · exact hid
    · exact (closed.mem_viewsAfter linked hid hx).1
  have hsource : ∀ {x k v}, x ∈ p.order → p.valueAt? .input x k = some v → v.producer ∈ p.order := by
    intro x k v hx hv
    obtain ⟨i, hi, rfl⟩ := Option.map_eq_some_iff.mp hv
    exact closed.sources x hx i (List.mem_of_getElem? hi)
  have hseeded : ∀ {n : Nat} {id filled seed}, p.reductions[n]? = some id → p.SeededBy id filled seed →
      filled.producer ∈ p.order := by
    intro n id filled seed hn hseeded
    obtain ⟨v, hv, hfilled⟩ := hseeded.operand
    obtain ⟨i, hi, rfl⟩ := List.mem_map.mp hfilled
    have hid := List.mem_of_mem_filter (List.mem_of_getElem? hn)
    exact closed.sources _ (hsource hid (input_zero_eq_ok.mp hv)) i hi
  intro side id k phys v hfixes hv
  suffices hlisted : v.producer ∈ p.order from congrArg Reg.isDefined (fresh.abstractReg hlisted)
  cases hfixes with
  | parameter hn hx =>
    cases hv
    exact hafter (List.mem_of_mem_filter (List.mem_of_getElem? hn)) hx
  | result hn hx =>
    exact hsource (closed.mem_viewsBefore (List.mem_of_mem_filter (List.mem_of_getElem? hn)) hx) hv
  | buffer hid _ => exact hsource (List.mem_of_mem_filter hid) hv
  | view hid hx => exact hsource (hafter (List.mem_of_mem_filter hid) (List.mem_cons_of_mem _ hx)) hv
  | memory hid hx =>
    cases hv
    exact hafter (List.mem_of_mem_filter hid) hx
  | reduction hn => exact hsource (List.mem_of_mem_filter (List.mem_of_getElem? hn)) hv
  | filled hn hs =>
    cases hv
    exact hseeded hn hs
  | seed hn hs => exact hsource (hseeded hn hs) hv

/-- What is pinned of a register from the start, when registers were given out. -/
theorem contains_pins_of_preset (hbare : q.bare = p.bare) {pins : RegMap} (hpins : q.pins = .ok pins)
    (h : p.Preset q r) : pins.contains r = true := by
  obtain ⟨side, id, k, phys, v, hfixes, hv, _, hreg⟩ := h
  exact Option.isSome_of_eq_some ((get?_pins_iff hpins).mpr
    ⟨side, id, k, v, hfixes.congr hbare.symm, valueAt?_congr hbare ▸ hv, hreg⟩)

end Program

namespace Workspace

variable {m : Machine} {w w' : Workspace}

/-- A refused choice of registers stops the assignment before it writes anything. -/
theorem assign_of_choose_eq_error (h : Allocation.choose m w = .error refusal) :
    assign m w = .error refusal w := by
  unfold assign
  rw [get_bind, h]
  rfl

theorem writePorts_eq_error (h : writePorts regs w = .error refusal w') :
    ∃ fault, refusal = .fault fault := by
  unfold writePorts at h
  split at h
  · cases h
  · cases h
    exact ⟨_, rfl⟩

theorem translateLive_eq_error {id : ExprId} (h : translateLive regs id w = .error refusal w') :
    ∃ fault, refusal = .fault fault := by
  unfold translateLive at h
  rw [get_bind] at h
  cases hset : w.live.liveSet id (w.program.expr id).name with
  | error fault =>
    simp only [hset] at h
    cases h
    exact ⟨_, rfl⟩
  | ok live =>
    simp only [hset] at h
    cases ht : regs.translate live with
    | error r =>
      simp only [ht] at h
      cases h
      exact ⟨_, rfl⟩
    | ok phys =>
      simp only [ht] at h
      cases h

/-- Once the registers are chosen, only a broken contract stops the assignment. -/
theorem fault_of_choose_eq_ok {a : Allocation} (h : Allocation.choose m w = .ok a)
    (ha : assign m w = .error refusal w') : ∃ fault, refusal = .fault fault := by
  unfold assign at ha
  rw [get_bind, h] at ha
  rcases bind_eq_error.mp ha with hwrite | ⟨_, u, _, ha⟩
  · exact writePorts_eq_error hwrite
  rw [get_bind] at ha
  rcases bind_eq_error.mp ha with htranslate | ⟨_, _, _, hpure⟩
  · obtain ⟨_, _, _, _, _, _, hstep⟩ := forM_eq_error htranslate
    exact translateLive_eq_error hstep
  · cases hpure

/-- What is assigned has a live range or was there from the start. -/
theorem contains_iff_of_chosen {w₀ : Workspace} {manual auto : RegMap}
    (ranged : computeRanges w₀ = .ok () w) (h : Allocation.Chosen m w ⟨manual, auto⟩) (r : Reg) :
    manual.contains r = true ∨ auto.contains r = true ↔
      w.live.ranges.contains r = true ∨ w₀.program.Preset w.program r := by
  obtain ⟨_, s, u, rfl, _, hreached⟩ := reached_of_computeRanges ranged
  have hbare : s.program.bare = w₀.program.bare := hreached.bare rfl
  have hauto := h.auto r
  have hpinned : manual.contains r = true →
      s.live.ranges.contains r = true ∨ w₀.program.Preset s.program r := by
    intro hr
    obtain ⟨phys, hr⟩ := Option.isSome_iff_exists.mp hr
    obtain ⟨side, id, k, v, hfixes, hv, rfl⟩ := (Program.get?_pins_iff h.pins).mp hr
    rcases hreached.recorded (Program.readsReg_abstractReg v) with hsame | ⟨_, hcontains⟩
    · exact .inr ⟨side, id, k, phys, v, hfixes.congr hbare, Program.valueAt?_congr hbare ▸ hv,
        hsame.symm, rfl⟩
    · exact .inl hcontains
  constructor
  · rintro (hr | hr)
    · exact hpinned hr
    · exact .inl (hauto.mp hr).1
  · rintro (hr | hr)
    · cases hmanual : manual.contains r with
      | true => exact .inl rfl
      | false => exact .inr (hauto.mpr ⟨hr, hmanual⟩)
    · exact .inl (Program.contains_pins_of_preset hbare h.pins hr)

/-- **Registers run out exactly when a bank is too small.** Live ranges were computed for a program from
scratch, and the assignment of registers breaks no contract. It runs out of registers exactly when in one
of the banks a pin lies behind its pool, or at some position more registers that are not pinned are live
than the pins leave. Otherwise it assigns exactly the registers that have a live range or that a value
fixed by a convention had from the start, by a pin or by linear scan; if conventions fix no value with a
register, it assigns exactly the registers that have a live range. -/
theorem assign_shortage_iff {p : Program} (ranged : computeRanges { program := p } = .ok () w)
    (gprs : 0 ≤ m.poolSize .gpr) (vecs : 0 ≤ m.poolSize .vec)
    (sound : ∀ fault w', assign m w ≠ .error (.fault fault) w') :
    ∃ manual, w.program.pins = .ok manual ∧
      ((∃ lack w', assign m w = .error (.shortage lack) w') ↔
        Allocation.TooSmall m w.live.ranges manual (p.list.map (·.exec)) .gpr ∨
          Allocation.TooSmall m w.live.ranges manual (p.list.map (·.exec)) .vec) ∧
      ((∀ lack w', assign m w ≠ .error (.shortage lack) w') →
        ∃ auto w', assign m w = .ok ⟨manual, auto⟩ w' ∧
          (∀ r, manual.contains r = true ∨ auto.contains r = true ↔
            w.live.ranges.contains r = true ∨ p.Preset w.program r) ∧
          (p.FixedUnset → ∀ r, manual.contains r = true ∨ auto.contains r = true ↔
            w.live.ranges.contains r = true)) := by
  have htimed : ∀ r i, w.live.ranges.get? r = some i →
      i.start ≤ i.stop ∧ i.start ∈ p.list.map (·.exec) := by
    intro r i hi
    obtain ⟨hle, id, hid, hstart⟩ := timed_of_computeRanges ranged rfl hi
    exact ⟨hle, List.mem_map.mpr ⟨_, List.mem_map_of_mem hid, hstart.symm⟩⟩
  rcases Allocation.choose_cases (m := m) gprs vecs htimed with
    ⟨fault, hchoose⟩ | ⟨manual, hpins, ⟨hsmall, lack, hchoose⟩ | ⟨hlarge, a, hchoose⟩⟩
  · exact absurd (assign_of_choose_eq_error hchoose) (sound fault _)
  · have hassign := assign_of_choose_eq_error hchoose
    exact ⟨manual, hpins, ⟨fun _ => hsmall, fun _ => ⟨lack, _, hassign⟩⟩,
      fun hno => absurd hassign (hno lack _)⟩
  · have hno : ∀ refusal w', assign m w ≠ .error refusal w' := by
      intro refusal w' hassign
      obtain ⟨fault, rfl⟩ := fault_of_choose_eq_ok hchoose hassign
      exact sound fault w' hassign
    refine ⟨manual, hpins, ⟨fun ⟨lack, w', hassign⟩ => absurd hassign (hno _ w'),
      fun hsmall => absurd hsmall hlarge⟩, fun _ => ?_⟩
    cases hassign : assign m w with
    | error refusal w' => exact absurd hassign (hno refusal w')
    | ok b w' =>
      obtain ⟨bmanual, auto⟩ := b
      have hchosen := (assign_ok hassign).1
      obtain rfl : bmanual = manual := Except.ok.inj (hchosen.pins.symm.trans hpins)
      have hcontains := contains_iff_of_chosen ranged hchosen
      refine ⟨auto, w', rfl, hcontains, fun hunset r => ?_⟩
      rw [hcontains, or_iff_left]
      -- What is preset is pinned, so it is defined.
      intro hpreset
      obtain ⟨_, s, u, rfl, _, hreached⟩ := reached_of_computeRanges ranged
      have hdefined := (Program.exists_of_contains_pins hpins
        (Program.contains_pins_of_preset (hreached.bare rfl) hpins hpreset)).1
      obtain ⟨side, id, k, phys, v, hfixes, hv, rfl, _⟩ := hpreset
      rw [hunset side id k phys v hfixes hv] at hdefined
      cases hdefined

end Workspace

/-- The biased copy holds its constant, what it loads and the sum where it adds, so two vector
registers are too few. With all of them, what has a live range is assigned. -/
theorem assign_shortage_iff_biasedCopy : ∃ w manual,
    Workspace.computeRanges { program := biasedCopy.lowered {} } = .ok () w ∧
      w.program.pins = .ok manual ∧
      Allocation.TooSmall (.limited (.x64 .avx2) 3 2) w.live.ranges manual
        ((biasedCopy.lowered {}).list.map (·.exec)) .vec ∧
      (∃ lack w', Workspace.assign (.limited (.x64 .avx2) 3 2) w = .error (.shortage lack) w') ∧
      ∃ auto w', Workspace.assign (.x64 .avx2) w = .ok ⟨manual, auto⟩ w' ∧
        ∀ r, manual.contains r = true ∨ auto.contains r = true ↔
          w.live.ranges.contains r = true := by
  have hrun : (Workspace.ranged? { program := biasedCopy.lowered {} }).any (fun w =>
      (match Workspace.assign (.limited (.x64 .avx2) 3 2) w with
        | .error (.fault _) _ => false
        | _ => true) &&
      (match w.program.pins with
        | .ok manual => decide (Allocation.TooSmall (.limited (.x64 .avx2) 3 2) w.live.ranges manual
            ((biasedCopy.lowered {}).list.map (·.exec)) .vec)
        | .error _ => false)) = true := by
    decide +kernel
  have hall : (Workspace.allocated? (.x64 .avx2) { program := biasedCopy.lowered {} }).isSome =
      true := by
    decide +kernel
  obtain ⟨w, hw, hrun⟩ := (Option.any_eq_true _ _).mp hrun
  obtain ⟨hsound, hsmall⟩ := Bool.and_eq_true_iff.mp hrun
  have hranged := Workspace.ranged?_eq_some hw
  obtain ⟨manual, hpins, hiff, _⟩ := Workspace.assign_shortage_iff hranged
    (m := .limited (.x64 .avx2) 3 2) (by decide) (by decide) (fun fault w' h => by
      rw [h] at hsound
      cases hsound)
  rw [hpins] at hsmall
  have hvec := of_decide_eq_true hsmall
  obtain ⟨⟨_, a, w'⟩, h⟩ := Option.isSome_iff_exists.mp hall
  obtain ⟨hranged', hassigned⟩ := Workspace.allocated?_eq_some h
  cases hranged.symm.trans hranged'
  have hnone : ∀ refusal w', Workspace.assign (.x64 .avx2) w ≠ .error refusal w' := by
    intro refusal w' h
    rw [hassigned] at h
    cases h
  obtain ⟨manual', hpins', _, hsuccess⟩ := Workspace.assign_shortage_iff hranged
    (m := .x64 .avx2) (by decide) (by decide) fun fault => hnone _
  cases hpins.symm.trans hpins'
  obtain ⟨auto, w', hassign, _, hexact⟩ := hsuccess fun lack => hnone _
  have hwiring : (biasedCopy.lowered {}).Fresh ∧ (biasedCopy.lowered {}).Linked ∧
      (biasedCopy.lowered {}).Closed := by
    decide +kernel
  exact ⟨w, manual, hranged, hpins, hvec, hiff.mpr (.inr hvec), auto, w', hassign,
    hexact (hwiring.1.fixedUnset hwiring.2.1 hwiring.2.2)⟩

/-- A result that reads a value from outside of the program, which already had a register. -/
def presetSource : Program :=
  let edit : Edit Unit := do
    let scalar ← Edit.makeOp "x" { kind := "Scalar", outputs := 1 } []
    modify fun p => p.setAbstract ⟨scalar, 0⟩ (.gpr 7)
    let _ ← Edit.add "r" { kind := "Result" } [some ⟨scalar, 0⟩]
  match edit { name := "preset_source" } with
  | .ok _ p => p.enumerate
  | .error _ p => p

/-- What is assigned need not have a live range: the result is pinned with the register that its value
had from the start. -/
theorem assign_presetSource : ∃ w a w',
    (presetSource.Fresh ∧ presetSource.Linked ∧ presetSource.Grouped) ∧
      Workspace.computeRanges { program := presetSource } = .ok () w ∧
      Workspace.assign (.x64 .avx2) w = .ok a w' ∧
      a.manual.contains (.gpr 7) = true ∧ w.live.ranges.contains (.gpr 7) = false := by
  have hrun : (Workspace.allocated? (.x64 .avx2) { program := presetSource }).map (fun r =>
      (r.2.1.manual.contains (.gpr 7), r.1.live.ranges.contains (.gpr 7))) = some (true, false) := by
    decide +kernel
  obtain ⟨⟨w, a, w'⟩, h, hrun⟩ := Option.map_eq_some_iff.mp hrun
  obtain ⟨hranged, hassigned⟩ := Workspace.allocated?_eq_some h
  obtain ⟨hmanual, hranges⟩ := Prod.mk.inj hrun
  exact ⟨w, a, w', by decide +kernel, hranged, hassigned, hmanual, hranges⟩

end TensorKernel
