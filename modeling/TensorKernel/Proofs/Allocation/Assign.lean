import Mathlib.Data.List.Nodup
import TensorKernel.Kernel.Compile
import TensorKernel.Proofs.Allocation.LinearScan
import TensorKernel.Proofs.Allocation.Pins
import TensorKernel.Proofs.Allocation.Ports
import TensorKernel.Subgraph.Build

/-!
# What assigned registers are

Every register with a live range is pinned or goes to a linear scan over the unpinned rest of its
pool. So registers chosen by linear scan share with no pinned one, and with each other only when
their live ranges are disjoint. The choice is then written at every port.
-/

namespace TensorKernel

open Outcome

variable {a : Allocation} {id : ExprId} {m : Machine} {phys r : Reg} {w w' : Workspace}

namespace Allocation

variable {pins : RegMap} {bank : Bank}

theorem mem_freePool :
    phys ∈ freePool m pins bank ↔
      phys.bank = bank ∧ (0 ≤ phys.index ∧ phys.index < m.poolSize bank) ∧
        ∀ r, pins.get? r ≠ some phys := by
  obtain ⟨b, i⟩ := phys
  have hvalues : ((⟨b, i⟩ : Reg) ∈ pins.values) ↔ ∃ r, pins.get? r = some ⟨b, i⟩ := by
    simp only [RegTable.values, List.mem_map, Prod.exists, exists_eq_right, RegTable.mem_entries_iff]
  simp only [freePool, List.mem_filter, List.mem_map, List.mem_range, Bool.not_eq_true',
    List.contains_eq_mem, decide_eq_false_iff_not, hvalues, not_exists, Reg.mk.injEq]
  constructor
  · rintro ⟨⟨n, hn, rfl, rfl⟩, hfree⟩
    exact ⟨rfl, by omega, hfree⟩
  · rintro ⟨rfl, hi, hfree⟩
    exact ⟨⟨i.toNat, by omega, rfl, by omega⟩, hfree⟩

theorem nodup_freePool : (freePool m pins bank).Nodup := by
  refine List.Nodup.filter _ (List.nodup_range.map fun i j hij => ?_)
  simpa only [Reg.mk.injEq, true_and, Int.natCast_inj] using hij

/-- What linear scan has to serve: the registers of a bank that are not pinned. -/
def waiting (ranges : RegTable Interval) (pins : RegMap) (bank : Bank) : RegTable Interval :=
  ranges.filter fun r _ => r.bank = bank ∧ !pins.contains r

variable {name : Label} {ranges : RegTable Interval} {assigned : RegMap}

theorem get?_waiting {i : Interval} : (waiting ranges pins bank).get? r = some i ↔
    ranges.get? r = some i ∧ r.bank = bank ∧ pins.contains r = false := by
  simp [waiting, RegTable.get?_filter, Option.filter_eq_some_iff]

/-- The free registers of a bank can be scanned. -/
theorem exists_start (m : Machine) (pins : RegMap) (bank : Bank) :
    ∃ s, LinearScan.start bank (freePool m pins bank) = .ok s ∧ s.bank = bank :=
  LinearScan.start_ok fun _ hr => (mem_freePool.mp hr).1

/-- Where no pin lies outside the pool, it is linear scan that answers. -/
theorem allocateBank_eq {s : LinearScan} (hs : LinearScan.start bank (freePool m pins bank) = .ok s)
    (hinside : ∀ phys ∈ pins.values, phys.bank = bank → phys.index < m.poolSize bank) :
    allocateBank name m ranges pins bank = match LinearScan.allocate (waiting ranges pins bank) s with
      | .ok assigned _ => .ok assigned
      | .error (.shortage s) _ => .error (.shortage (.during name s))
      | .error refusal _ => .error refusal := by
  have hfind : (pins.values.find? fun phys => phys.bank = bank ∧ m.poolSize bank ≤ phys.index) = none := by
    simpa only [List.find?_eq_none, decide_eq_true_eq, not_and, Int.not_le] using hinside
  simp only [allocateBank, hfind, hs]
  rfl

/-- A pin outside the pool is reported first. -/
theorem allocateBank_of_outside (name : Label) (ranges : RegTable Interval)
    (h : ¬ ∀ phys ∈ pins.values, phys.bank = bank → phys.index < m.poolSize bank) :
    ∃ phys ∈ pins.values, (phys.bank = bank ∧ m.poolSize bank ≤ phys.index) ∧
      allocateBank name m ranges pins bank =
        .error (.shortage (.pinnedOutside bank (m.poolSize bank) phys)) := by
  simp only [allocateBank]
  cases hfind : pins.values.find? fun phys => phys.bank = bank ∧ m.poolSize bank ≤ phys.index with
  | some phys =>
    exact ⟨phys, List.mem_of_find?_eq_some hfind, by simpa using List.find?_some hfind, rfl⟩
  | none =>
    refine absurd ?_ h
    simpa only [List.find?_eq_none, decide_eq_true_eq, not_and, Int.not_le] using hfind

/-- A bank is allocated if the pins are inside its pool and linear scan over the rest succeeds. -/
theorem allocateBank_eq_ok : allocateBank name m ranges pins bank = .ok assigned ↔
    (∀ phys ∈ pins.values, phys.bank = bank → phys.index < m.poolSize bank) ∧
      ∃ s t, LinearScan.start bank (freePool m pins bank) = .ok s ∧
        LinearScan.allocate (waiting ranges pins bank) s = .ok assigned t := by
  constructor
  · intro h
    by_cases hinside : ∀ phys ∈ pins.values, phys.bank = bank → phys.index < m.poolSize bank
    · obtain ⟨s, hs, _⟩ := exists_start m pins bank
      rw [allocateBank_eq hs hinside] at h
      split at h <;> cases h
      exact ⟨hinside, s, _, hs, ‹_›⟩
    · obtain ⟨_, _, _, he⟩ := allocateBank_of_outside name ranges hinside
      rw [he] at h
      cases h
  · rintro ⟨hinside, s, t, hs, ha⟩
    rw [allocateBank_eq hs hinside, ha]

/-- A bank is refused because of a pin outside its pool or by linear scan. -/
theorem allocateBank_eq_error {e : Refusal} (h : allocateBank name m ranges pins bank = .error e) :
    (∃ phys ∈ pins.values, (phys.bank = bank ∧ m.poolSize bank ≤ phys.index) ∧
        e = .shortage (.pinnedOutside bank (m.poolSize bank) phys)) ∨
      ∃ s t, LinearScan.start bank (freePool m pins bank) = .ok s ∧ s.bank = bank ∧
        ((∃ lack, e = .shortage (.during name lack) ∧
            LinearScan.allocate (waiting ranges pins bank) s = .error (.shortage lack) t) ∨
          ∃ fault, e = .fault fault ∧
            LinearScan.allocate (waiting ranges pins bank) s = .error (.fault fault) t) := by
  by_cases hinside : ∀ phys ∈ pins.values, phys.bank = bank → phys.index < m.poolSize bank
  · obtain ⟨s, hs, hbank⟩ := exists_start m pins bank
    rw [allocateBank_eq hs hinside] at h
    cases ha : LinearScan.allocate (waiting ranges pins bank) s with
    | ok assigned t =>
      rw [ha] at h
      cases h
    | error refusal t =>
      rw [ha] at h
      refine .inr ⟨s, t, hs, hbank, ?_⟩
      cases refusal with
      | shortage lack =>
        cases h
        exact .inl ⟨lack, rfl, ha⟩
      | fault fault =>
        cases h
        exact .inr ⟨fault, rfl, ha⟩
  · obtain ⟨phys, hphys, hout, he⟩ := allocateBank_of_outside name ranges hinside
    rw [he] at h
    cases h
    exact .inl ⟨phys, hphys, hout, rfl⟩

/-- What a successful allocation of one bank gives. -/
structure Banked (m : Machine) (ranges : RegTable Interval) (pins : RegMap) (bank : Bank)
    (assigned : RegMap) : Prop where
  /-- The pins of the bank are in its pool. -/
  pinned : ∀ r phys, pins.get? r = some phys → phys.bank = bank → phys.index < m.poolSize bank
  /-- Exactly the unpinned registers of the bank get a physical one. -/
  contains : ∀ r, assigned.contains r = true ↔
    ranges.contains r = true ∧ r.bank = bank ∧ pins.contains r = false
  /-- The physical registers come from the free part of the pool. -/
  free : ∀ r phys, assigned.get? r = some phys → phys ∈ freePool m pins bank
  /-- Overlapping registers are kept apart. -/
  apart : ∀ a b x y i j, a ≠ b → ranges.get? a = some i → ranges.get? b = some j →
    i.overlaps j = true → assigned.get? a = some x → assigned.get? b = some y → x ≠ y

theorem banked_of_allocateBank (h : allocateBank name m ranges pins bank = .ok assigned) :
    Banked m ranges pins bank assigned := by
  obtain ⟨hinside, s, t, hs, ha⟩ := allocateBank_eq_ok.mp h
  have hcontains : ∀ r, assigned.contains r = true ↔
      ranges.contains r = true ∧ r.bank = bank ∧ pins.contains r = false := by
    intro r
    rw [LinearScan.contains_allocate hs nodup_freePool ha]
    simp only [RegTable.contains, Option.isSome_iff_exists, get?_waiting, exists_and_right]
  refine ⟨fun r phys hp hb => hinside phys ?_ hb, hcontains,
    fun r phys hp => LinearScan.mem_pool_of_allocate hs nodup_freePool ha hp, ?_⟩
  · exact List.mem_map.mpr ⟨(r, phys), RegTable.mem_entries_iff.mpr hp, rfl⟩
  · intro a b x y i j hab hi hj ho hx hy
    have hin : ∀ r z, assigned.get? r = some z → r.bank = bank ∧ pins.contains r = false := by
      intro r z hz
      exact ((hcontains r).mp (by rw [RegTable.contains, hz]; rfl)).2
    exact LinearScan.ne_of_overlaps hs nodup_freePool ha hab (get?_waiting.mpr ⟨hi, hin a x hx⟩)
      (get?_waiting.mpr ⟨hj, hin b y hy⟩) ho hx hy

/-- What is known about the registers chosen for a program. -/
structure Chosen (m : Machine) (w : Workspace) (a : Allocation) : Prop where
  /-- The pins are those of the conventions. -/
  pins : w.program.pins = .ok a.manual
  /-- Only the two banks that can be allocated are used. -/
  banks : ∀ r, w.live.ranges.contains r = true → r.bank = .gpr ∨ r.bank = .vec
  /-- Pins are below the size of their pool. -/
  pinned : ∀ r phys, a.manual.get? r = some phys → phys.bank = .gpr ∨ phys.bank = .vec →
    phys.index < m.poolSize phys.bank
  /-- Linear scan serves the registers that are not pinned. -/
  auto : ∀ r, a.auto.contains r = true ↔
    w.live.ranges.contains r = true ∧ a.manual.contains r = false
  /-- What linear scan hands out is free in the bank of the register. -/
  free : ∀ r phys, a.auto.get? r = some phys → phys ∈ freePool m a.manual r.bank
  /-- Overlapping registers are kept apart. -/
  apart : ∀ r r' x y i j, r ≠ r' → w.live.ranges.get? r = some i → w.live.ranges.get? r' = some j →
    i.overlaps j = true → a.auto.get? r = some x → a.auto.get? r' = some y → x ≠ y

theorem chosen_of_choose (h : choose m w = .ok a) : Chosen m w a := by
  simp only [choose] at h
  cases hfind : w.live.ranges.keys.find? fun r => r.bank ≠ .gpr ∧ r.bank ≠ .vec with
  | some r =>
    rw [hfind] at h
    exact absurd h (by simp)
  | none =>
    rw [hfind] at h
    obtain ⟨manual, hmanual, h⟩ := except_bind_eq_ok.mp h
    rw [mapError_eq_ok] at hmanual
    obtain ⟨gprs, hgprs, h⟩ := except_bind_eq_ok.mp h
    obtain ⟨vecs, hvecs, h⟩ := except_bind_eq_ok.mp h
    obtain rfl := except_pure_eq_ok.mp h
    have hg := banked_of_allocateBank hgprs
    have hv := banked_of_allocateBank hvecs
    have hbanks : ∀ r, w.live.ranges.contains r = true → r.bank = .gpr ∨ r.bank = .vec := by
      intro r hr
      have := List.find?_eq_none.mp hfind r (RegTable.mem_keys_iff.mpr hr)
      simp only [decide_eq_true_eq, not_and_or, Decidable.not_not] at this
      exact this
    -- An entry of the merged table comes from the bank of its register.
    have hcases : ∀ r phys, (gprs.merge vecs).get? r = some phys ↔
        (r.bank = .gpr ∧ gprs.get? r = some phys) ∨ (r.bank = .vec ∧ vecs.get? r = some phys) := by
      intro r phys
      rw [RegTable.get?_merge]
      have hgb : gprs.contains r = true → r.bank = .gpr := fun hr => ((hg.contains r).mp hr).2.1
      have hvb : vecs.contains r = true → r.bank = .vec := fun hr => ((hv.contains r).mp hr).2.1
      cases hgr : gprs.get? r with
      | none =>
        cases hvr : vecs.get? r with
        | none => simp
        | some y => simp [hvb (by simp [RegTable.contains, hvr])]
      | some x =>
        have hb := hgb (by simp [RegTable.contains, hgr])
        cases hvr : vecs.get? r with
        | none => simp [hb]
        | some y =>
          rw [hvb (by simp [RegTable.contains, hvr])] at hb
          cases hb
    refine ⟨hmanual, hbanks, ?_, ?_, ?_, ?_⟩
    · rintro r phys hp (hb | hb)
      · rw [hb]
        exact hg.pinned r phys hp hb
      · rw [hb]
        exact hv.pinned r phys hp hb
    · intro r
      have hgr := hg.contains r
      have hvr := hv.contains r
      have hbr := hbanks r
      simp only [RegTable.contains, RegTable.get?_merge, Option.isSome_or, Bool.or_eq_true] at *
      grind
    · intro r phys hp
      rcases (hcases r phys).mp hp with ⟨hb, hp⟩ | ⟨hb, hp⟩
      · exact hb ▸ hg.free r phys hp
      · exact hb ▸ hv.free r phys hp
    · intro r r' x y i j hne hi hj ho hx hy
      rcases (hcases r x).mp hx with ⟨hb, hx⟩ | ⟨hb, hx⟩ <;>
        rcases (hcases r' y).mp hy with ⟨hb', hy⟩ | ⟨hb', hy⟩
      · exact hg.apart r r' x y i j hne hi hj ho hx hy
      · intro he
        have hxb := (mem_freePool.mp (hg.free r x hx)).1
        have hyb := (mem_freePool.mp (hv.free r' y hy)).1
        rw [he, hyb] at hxb
        cases hxb
      · intro he
        have hxb := (mem_freePool.mp (hv.free r x hx)).1
        have hyb := (mem_freePool.mp (hg.free r' y hy)).1
        rw [he, hyb] at hxb
        cases hxb
      · exact hv.apart r r' x y i j hne hi hj ho hx hy

/-- Linear scan takes no register that a convention fixes. -/
theorem Chosen.manual_ne_of_auto (h : Chosen m w a) {r' : Reg} (hr : a.auto.get? r = some phys) :
    a.manual.get? r' ≠ some phys :=
  (mem_freePool.mp (h.free r phys hr)).2.2 r'

theorem get?_regMap (a : Allocation) (r : Reg) :
    a.regMap.get? r = (a.auto.get? r).or (a.manual.get? r) :=
  RegTable.get?_merge

/-- A register that linear scan served is mapped to what linear scan chose. -/
theorem get?_regMap_of_auto (h : a.auto.get? r = some phys) : a.regMap.get? r = some phys := by
  rw [get?_regMap, h, Option.some_or]

/-- A register that linear scan did not serve is mapped to its pin. -/
theorem get?_regMap_of_not_auto (h : a.auto.contains r = false) : a.regMap.get? r = a.manual.get? r := by
  have hn : a.auto.get? r = none := by simpa [RegTable.contains] using h
  rw [get?_regMap, hn, Option.none_or]

/-- A pinned register is mapped to its pin. -/
theorem Chosen.get?_regMap_of_pin (h : Chosen m w a) (hpin : a.manual.get? r = some phys) :
    a.regMap.get? r = some phys := by
  have hauto : a.auto.contains r = false := by
    rw [← Bool.not_eq_true, h.auto, not_and, Bool.not_eq_false]
    exact fun _ => Option.isSome_of_eq_some hpin
  rw [get?_regMap_of_not_auto hauto, hpin]

end Allocation

/-- A register that was translated is mapped. -/
theorem RegMap.eq_insert_of_translated {m : RegMap} {u v : RegSet} (h : (match m.get? r with
      | some phys => Except.ok (u.insert phys)
      | none => .error r) = .ok v) : ∃ x, m.get? r = some x ∧ v = u.insert x := by
  split at h <;> cases h
  exact ⟨_, ‹_›, rfl⟩

/-- A translated set holds what its members are mapped to. -/
theorem RegMap.mem_translate {m : RegMap} {s out : RegSet} (h : m.translate s = .ok out) :
    phys ∈ out ↔ ∃ r ∈ s, m.get? r = some phys := by
  constructor
  · intro hphys
    refine foldlM_invariant (P := fun out => phys ∈ out → ∃ r ∈ s, m.get? r = some phys)
      (fun hempty => absurd hempty (RegSet.not_mem_empty phys)) (fun r hr u v hu hv hmem => ?_) h hphys
    obtain ⟨x, hx, rfl⟩ := eq_insert_of_translated hv
    rcases RegSet.mem_insert.mp hmem with rfl | hmem
    · exact ⟨r, RegSet.mem_def.mpr hr, hx⟩
    · exact hu hmem
  · rintro ⟨r, hr, hphys⟩
    -- The register is put in at the turn of `r`, and members stay.
    obtain ⟨_, u, v, rest, _, _, hturn, hrest⟩ := foldlM_step (RegSet.mem_def.mp hr) h
    obtain ⟨x, hx, rfl⟩ := eq_insert_of_translated hturn
    obtain rfl : x = phys := Option.some.inj (hx.symm.trans hphys)
    refine foldlM_invariant (P := fun out => x ∈ out) (RegSet.mem_insert.mpr (.inl rfl))
      (fun a _ u v hu hv => ?_) hrest
    obtain ⟨y, _, rfl⟩ := eq_insert_of_translated hv
    exact RegSet.mem_insert.mpr (.inr hu)

namespace Workspace

/-- Translating a live set changes nothing else. -/
theorem translateLive_eq_ok {m : RegMap} (h : translateLive m id w = .ok () w') :
    ∃ set phys, w.live.set? id = some set ∧ m.translate set = .ok phys ∧
      w' = { w with live := w.live.putSet id phys } := by
  rw [translateLive, get_bind] at h
  cases hset : w.live.liveSet id (w.program.expr id).name with
  | error fault =>
    simp only [hset] at h
    exact absurd h throw_ne_ok
  | ok live =>
    simp only [hset] at h
    cases ht : m.translate live with
    | error r =>
      simp only [ht] at h
      exact absurd h throw_ne_ok
    | ok phys =>
      simp only [ht] at h
      refine ⟨live, phys, ?_, ht, (set_eq_ok.mp h).symm⟩
      unfold Liveness.liveSet at hset
      split at hset <;> cases hset
      assumption

/-- A successful assignment chooses registers, writes them at the ports and translates the live sets. -/
theorem assign_eq_ok (h : assign m w = .ok a w') :
    ∃ program, Allocation.choose m w = .ok a ∧ a.regMap.apply w.program = .ok () program ∧
      program.order.forM (translateLive a.regMap) { w with program } = .ok () w' := by
  rw [assign, get_bind] at h
  cases hchoose : Allocation.choose m w with
  | error refusal =>
    simp only [hchoose] at h
    exact absurd h throw_ne_ok
  | ok a' =>
    simp only [hchoose] at h
    obtain ⟨_, x, hwrite, h⟩ := bind_eq_ok.mp h
    rw [get_bind] at h
    obtain ⟨_, y, htranslate, h⟩ := bind_eq_ok.mp h
    obtain ⟨rfl, rfl⟩ := pure_eq_ok.mp h
    unfold writePorts at hwrite
    cases happly : a'.regMap.apply w.program with
    | error unmapped program =>
      rw [happly] at hwrite
      cases hwrite
    | ok _ program =>
      rw [happly] at hwrite
      cases hwrite
      exact ⟨program, rfl, rfl, htranslate⟩

/-- What a successful assignment did: it chose registers and wrote them at the ports. -/
theorem assign_ok (h : assign m w = .ok a w') :
    Allocation.Chosen m w a ∧
      a.regMap.AppliedOn w.program (fun _ id _ => id ∈ w.program.order) w'.program ∧
      w'.live.ranges = w.live.ranges := by
  obtain ⟨program, hchoose, happly, htranslate⟩ := assign_eq_ok h
  have hsame : w'.program = program ∧ w'.live.ranges = w.live.ranges := by
    refine forM_invariant
      (P := fun z => z.program = program ∧ z.live.ranges = w.live.ranges) ⟨rfl, rfl⟩
      (fun id _ u v hu hv => ?_) htranslate
    obtain ⟨_, _, _, _, rfl⟩ := translateLive_eq_ok hv
    exact hu
  refine ⟨Allocation.chosen_of_choose hchoose, ?_, hsame.2⟩
  rw [hsame.1]
  exact .apply happly

/-- A successful assignment translates every live set. -/
theorem assign_live (h : assign m w = .ok a w') (hnodup : w.program.order.Nodup)
    (hid : id ∈ w.program.order) {set : RegSet} (hset : w.live.set? id = some set) :
    ∃ phys, w'.live.set? id = some phys ∧ a.regMap.translate set = .ok phys := by
  obtain ⟨program, _, happly, htranslate⟩ := assign_eq_ok h
  have horder : program.order = w.program.order := Program.order_congr (RegMap.AppliedOn.apply happly).bare
  rw [horder] at htranslate
  -- The sets of the expressions in front are translated, and the other ones are as before.
  have hall := forM_induction (P := fun done x =>
    (∀ j ∈ done, ∀ set, w.live.set? j = some set →
      ∃ phys, x.live.set? j = some phys ∧ a.regMap.translate set = .ok phys) ∧
    ∀ j, j ∉ done → x.live.set? j = w.live.set? j) ⟨by simp, fun _ _ => rfl⟩ ?_ htranslate
  · exact hall.1 id hid set hset
  intro done j rest x y hsplit ⟨hdone, hrest⟩ hstep
  obtain ⟨before, phys, hbefore, hphys, rfl⟩ := translateLive_eq_ok hstep
  have hj : j ∉ done := by
    rw [hsplit] at hnodup
    exact fun hm => (List.nodup_append.mp hnodup).2.2 j hm j List.mem_cons_self rfl
  refine ⟨fun k hk set hset => ?_, fun k hk => ?_⟩
  · dsimp only
    rw [Liveness.set?_putSet]
    rcases List.mem_append.mp hk with hk | hk
    · rw [if_neg fun he : j = k => hj (he ▸ hk)]
      exact hdone k hk set hset
    · obtain rfl := List.mem_singleton.mp hk
      rw [hrest k hj, hset] at hbefore
      cases hbefore
      exact ⟨phys, if_pos rfl, hphys⟩
  · dsimp only
    rw [List.mem_append, List.mem_singleton, not_or] at hk
    rw [Liveness.set?_putSet, if_neg (Ne.symm hk.2), hrest k hk.1]

/-- Compute live ranges, then assign registers: the workspace in between, the registers, and the
workspace in the end. -/
def allocated? (m : Machine) (w₀ : Workspace) : Option (Workspace × Allocation × Workspace) :=
  match computeRanges w₀ with
  | .error _ _ => none
  | .ok _ w =>
    match assign m w with
    | .error _ _ => none
    | .ok a w' => some (w, a, w')

theorem allocated?_eq_some {w₀ : Workspace} (h : allocated? m w₀ = some (w, a, w')) :
    computeRanges w₀ = .ok () w ∧ assign m w = .ok a w' := by
  unfold allocated? at h
  cases hr : computeRanges w₀ with
  | error fault x =>
    rw [hr] at h
    cases h
  | ok _ x =>
    rw [hr] at h
    cases ha : assign m x with
    | error refusal y =>
      simp only [ha] at h
      cases h
    | ok b y =>
      simp only [ha] at h
      cases h
      exact ⟨rfl, ha⟩

end Workspace

/-- The numbered program of a subgraph with its loops lowered. -/
def Subgraph.lowered (options : CompileOptions) (sg : Subgraph) : Program :=
  match sg.build with
  | .error _ => default
  | .ok p =>
    match Kernel.lowerLoops options { program := p } with
    | .error _ _ => default
    | .ok _ w => w.program.enumerate

end TensorKernel
