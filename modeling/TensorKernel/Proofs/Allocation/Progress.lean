import TensorKernel.Proofs.Allocation.Shortage
import TensorKernel.Proofs.Liveness.Holders

/-!
# Registers can be assigned

Where conventions do not collide, the assignment of registers stops only for lack of registers. Linear
scan gives up at two registers with the same interval, but intervals of registers that are not pinned
start at different expressions if no expression has two outputs: what is live throughout is pinned.
-/

namespace TensorKernel

open Outcome Program

variable {id : ExprId} {side : Side} {w : Workspace}

namespace LinearScan

variable {ranges : RegTable Interval} {s t : LinearScan} {bank : Bank} {pool : List Reg}

/-- Neighbours with different intervals. -/
theorem sameNeighbours?_eq_none {l : List LiveReg} (h : l.Pairwise fun a b => a.range ≠ b.range) :
    sameNeighbours? l = none := by
  fun_induction sameNeighbours? l with
  | case1 a b rest heq => exact absurd heq ((List.pairwise_cons.mp h).1 b List.mem_cons_self)
  | case2 a b rest _ ih => exact ih (List.pairwise_cons.mp h).2
  | case3 => rfl

/-- Different registers stand in the queue with different intervals. -/
theorem pairwise_queue (h : ∀ a b i, ranges.get? a = some i → ranges.get? b = some i → a = b) :
    (queue ranges).Pairwise fun a b => a.range ≠ b.range := by
  have hnodup := List.pairwise_map.mp (queue_nodup ranges)
  refine hnodup.imp_of_mem fun {a b} ha hb hne heq => hne ?_
  exact h a.reg b.reg a.range (mem_queue.mp ha) (heq ▸ mem_queue.mp hb)

/-- Linear scan breaks no contract if the registers are in its bank and have different intervals. -/
theorem allocate_ne_fault (hs : start bank pool = .ok s)
    (hbank : ∀ r, ranges.contains r = true → r.bank = s.bank)
    (hne : ∀ a b i, ranges.get? a = some i → ranges.get? b = some i → a = b) (fault : Fault) :
    allocate ranges s ≠ .error (.fault fault) t := fun h =>
  ((intact_start hs).allocate_eq_fault h).1 ⟨hbank, sameNeighbours?_eq_none (pairwise_queue hne)⟩

end LinearScan

namespace Allocation

variable {m : Machine} {ranges : RegTable Interval} {pins : RegMap} {bank : Bank}

theorem find?_bank_eq_none (hbanks : ∀ r, ranges.contains r = true → r.bank = .gpr ∨ r.bank = .vec) :
    ranges.keys.find? (fun r => r.bank ≠ .gpr ∧ r.bank ≠ .vec) = none := by
  rw [List.find?_eq_none]
  intro r hr
  rcases hbanks r (RegTable.mem_keys_iff.mp hr) with hb | hb <;> simp [hb]

/-- The allocation of one bank breaks no contract if the registers that are not pinned have different
intervals. -/
theorem allocateBank_ne_fault (name : Label)
    (hne : ∀ a b i, pins.contains a = false → pins.contains b = false → ranges.get? a = some i →
      ranges.get? b = some i → a = b) (fault : Fault) :
    allocateBank name m ranges pins bank ≠ .error (.fault fault) := by
  intro h
  rcases allocateBank_eq_error h with ⟨_, _, _, he⟩ | ⟨s, t, hs, hbank, ⟨_, he, _⟩ | ⟨other, _, ha⟩⟩
  · cases he
  · cases he
  · refine LinearScan.allocate_ne_fault hs (fun r hr => ?_) (fun a b i ha hb => ?_) other ha
    · obtain ⟨i, hi⟩ := Option.isSome_iff_exists.mp hr
      rw [hbank, (get?_waiting.mp hi).2.1]
    · obtain ⟨ha, _, hna⟩ := get?_waiting.mp ha
      obtain ⟨hb, _, hnb⟩ := get?_waiting.mp hb
      exact hne a b i hna hnb ha hb

/-- The conventions come first in the choice of registers, if all registers are in the two banks. -/
theorem choose_of_pins_eq_error {fault : Fault}
    (hbanks : ∀ r, w.live.ranges.contains r = true → r.bank = .gpr ∨ r.bank = .vec)
    (hpins : w.program.pins = .error fault) : choose m w = .error (.fault fault) := by
  simp only [choose, find?_bank_eq_none hbanks, hpins, mapError_error, bind, Except.bind]

/-- The choice of registers succeeds or fails for lack of registers, if pins do not collide, all
registers are in the two banks and those that are not pinned have different intervals. -/
theorem choose_ok_or_shortage (hpins : w.program.pins = .ok pins)
    (hbanks : ∀ r, w.live.ranges.contains r = true → r.bank = .gpr ∨ r.bank = .vec)
    (hne : ∀ a b i, pins.contains a = false → pins.contains b = false → w.live.ranges.get? a = some i →
      w.live.ranges.get? b = some i → a = b) :
    (∃ a, choose m w = .ok a) ∨ ∃ lack, choose m w = .error (.shortage lack) := by
  simp only [choose, find?_bank_eq_none hbanks, hpins, mapError_ok, bind, Except.bind]
  cases hg : allocateBank w.program.name m w.live.ranges pins .gpr with
  | error refusal =>
    cases refusal with
    | fault fault => exact absurd hg (allocateBank_ne_fault _ hne fault)
    | shortage lack => exact .inr ⟨lack, rfl⟩
  | ok gprs =>
    cases hv : allocateBank w.program.name m w.live.ranges pins .vec with
    | error refusal =>
      cases refusal with
      | fault fault => exact absurd hv (allocateBank_ne_fault _ hne fault)
      | shortage lack => exact .inr ⟨lack, rfl⟩
    | ok vecs => exact .inl ⟨_, rfl⟩

end Allocation

namespace RegMap

variable {m : RegMap} {p : Program}

/-- A port can be written if its abstract register is mapped. -/
theorem applyPort_ok {abstract : Reg} (h : abstract.isDefined = true → m.contains abstract = true)
    (id : ExprId) (side : Side) (k : Nat) : ∃ q', m.applyPort id side k abstract q = .ok () q' := by
  unfold applyPort
  split
  · rename_i hd
    obtain ⟨phys, hphys⟩ := Option.isSome_iff_exists.mp (h hd)
    rw [hphys]
    exact ⟨_, rfl⟩
  · exact ⟨q, rfl⟩

/-- The ports of one side of an expression can be written. -/
theorem applySide_ok {α : Type} {port : α → Port} {l : List α}
    (h : ∀ a ∈ l, (port a).abstract.isDefined = true → m.contains (port a).abstract = true) :
    ∃ q', (l.zipIdx.forM fun (a, k) => m.applyPort id side k (port a).abstract) q = .ok () q' := by
  obtain ⟨q', hq', _⟩ := forM_of_step (s := q) (l := l.zipIdx)
    (f := fun entry : α × Nat => m.applyPort id side entry.2 (port entry.1).abstract)
    (P := fun _ _ => True) trivial fun done entry rest u hl _ => by
      have hmem : entry ∈ l.zipIdx := by simp [hl]
      have hport := h entry.1 (List.fst_mem_of_mem_zipIdx hmem)
      obtain ⟨v, hv⟩ := applyPort_ok (q := u) hport id side entry.2
      exact ⟨v, hv, trivial⟩
  exact ⟨q', hq'⟩

/-- The ports of an expression can be written if their abstract registers are mapped. -/
theorem applyExpr_ok (h : ∀ side k port, q.portAt side id k = some port →
      port.abstract.isDefined = true → m.contains port.abstract = true) :
    ∃ q', m.applyExpr id q = .ok () q' := by
  obtain ⟨r, hr⟩ := applySide_ok (q := q) (m := m) (l := (q.expr id).inputs) fun i hi hd => by
    obtain ⟨k, hk⟩ := List.mem_iff_getElem?.mp hi
    exact h .input k i.port (by rw [portAt, hk]; rfl) hd
  obtain ⟨t, ht⟩ := applySide_ok (q := r) (m := m) (l := (q.expr id).outputs) fun o ho hd => by
    obtain ⟨k, hk⟩ := List.mem_iff_getElem?.mp ho
    exact h .output k o.port (by rw [portAt, hk]; rfl) hd
  unfold applyExpr
  rw [get_bind, bind_of_ok hr]
  exact ⟨t, ht⟩

/-- A map can be applied to a program if it maps the abstract registers of all ports. -/
theorem apply_ok (h : ∀ side id k port, id ∈ p.order → p.portAt side id k = some port →
      port.abstract.isDefined = true → m.contains port.abstract = true) :
    ∃ q, m.apply p = .ok () q := by
  unfold apply
  rw [get_bind]
  obtain ⟨q, hq, _⟩ := forM_of_step (s := p) (l := p.order) (f := m.applyExpr)
    (P := fun ids x => m.AppliedOn p (fun _ id _ => id ∈ ids) x)
    ((AppliedOn.start m p).weaken fun _ _ _ hmem => absurd hmem List.not_mem_nil)
    fun ids id rest x horder hx => by
      have hmapped : ∀ side k port, x.portAt side id k = some port →
          port.abstract.isDefined = true → m.contains port.abstract = true := by
        intro side k port hport hd
        have habs := hx.abstract_eq side id k
        rw [hport, Option.map_some] at habs
        obtain ⟨before, hbefore, habs⟩ := Option.map_eq_some_iff.mp habs.symm
        rw [← habs] at hd ⊢
        exact h side id k before (by simp [horder]) hbefore hd
      obtain ⟨y, hy⟩ := applyExpr_ok hmapped
      refine ⟨y, hy, (hx.applyExpr hy).weaken fun _ i _ hi => .inl ?_⟩
      rcases List.mem_append.mp hi with hi | hi
      · exact .inl hi
      · exact .inr (List.mem_singleton.mp hi).symm
  exact ⟨q, hq⟩

/-- A set can be translated if its members are mapped. -/
theorem translate_ok {set : RegSet} (h : ∀ r ∈ set, m.contains r = true) :
    ∃ out, m.translate set = .ok out := by
  unfold translate
  have hlist : ∀ r ∈ set.toList, m.contains r = true := fun r hr => h r (RegSet.mem_def.mpr hr)
  generalize set.toList = l at hlist
  generalize (∅ : RegSet) = out
  induction l generalizing out with
  | nil => exact ⟨out, rfl⟩
  | cons r rest ih =>
    obtain ⟨phys, hphys⟩ := Option.isSome_iff_exists.mp (hlist r List.mem_cons_self)
    rw [List.foldlM_cons, hphys]
    exact ih (fun r hr => hlist r (List.mem_cons_of_mem _ hr)) _

end RegMap

namespace Workspace

variable {m : Machine} {a : Allocation}

/-- Registers that were chosen can be written, if all ports and all live sets hold registers with live
ranges. -/
theorem assign_ok_of_choose (hchoose : Allocation.choose m w = .ok a) (hnodup : w.program.order.Nodup)
    (hports : ∀ side id k port, id ∈ w.program.order → w.program.portAt side id k = some port →
      port.abstract.isDefined = true → w.live.ranges.contains port.abstract = true)
    (hlive : ∀ id ∈ w.program.order, ∃ set, w.live.set? id = some set ∧
      ∀ r ∈ set, w.live.ranges.contains r = true) : ∃ w', assign m w = .ok a w' := by
  have hchosen := Allocation.chosen_of_choose hchoose
  obtain ⟨q, hq⟩ := RegMap.apply_ok (m := a.regMap) fun side id k port hid hport hd =>
    hchosen.contains_regMap (hports side id k port hid hport hd)
  have horder : q.order = w.program.order := order_congr (RegMap.AppliedOn.apply hq).bare
  let u : Workspace := { w with program := q }
  have hwrite : writePorts a.regMap w = .ok () u := by
    unfold writePorts
    rw [hq]
  have htranslate : ∃ w', q.order.forM (translateLive a.regMap) u = .ok () w' := by
    obtain ⟨w', hw', _⟩ := forM_of_step (s := u) (l := q.order) (f := translateLive a.regMap)
      (P := fun done x => x.program = q ∧ ∀ id ∉ done, x.live.set? id = w.live.set? id)
      ⟨rfl, fun _ _ => rfl⟩ fun done id rest x hsplit hx => by
        have hmem : id ∈ w.program.order := by simp [← horder, hsplit]
        obtain ⟨set, hset, hmapped⟩ := hlive id hmem
        have hnew : id ∉ done := by
          rw [← horder, hsplit, List.nodup_append] at hnodup
          exact fun hdone => hnodup.2.2 id hdone id List.mem_cons_self rfl
        obtain ⟨out, hout⟩ := RegMap.translate_ok (m := a.regMap) fun r hr =>
          hchosen.contains_regMap (hmapped r hr)
        refine ⟨{ x with live := x.live.putSet id out }, ?_, hx.1, fun j hj => ?_⟩
        · unfold translateLive
          rw [get_bind]
          simp only [Liveness.liveSet, hx.2 id hnew, hset, hout]
          rfl
        · rw [List.mem_append, List.mem_singleton, not_or] at hj
          rw [Liveness.set?_putSet, if_neg (Ne.symm hj.2)]
          exact hx.2 j hj.1
    exact ⟨w', hw'⟩
  obtain ⟨w', hw'⟩ := htranslate
  refine ⟨w', ?_⟩
  unfold assign
  rw [get_bind, hchoose]
  dsimp only
  rw [bind_of_ok hwrite, get_bind,
    bind_of_ok hw']
  rfl

variable {p : Program}

/-- Every port with a register holds one that has a live range. -/
theorem Ranged.contains_port (hr : w.Ranged p) (hl : p.Linked) {k : Nat} {port : Port} (hid : id ∈ p.order)
    (hport : w.program.portAt side id k = some port) (hd : port.abstract.isDefined = true) :
    w.live.ranges.contains port.abstract = true := by
  have hvalue : ∀ v, p.Sees w.program v → w.program.abstractReg v = port.abstract →
      w.live.ranges.contains port.abstract = true := by
    intro v hsees hreg
    obtain ⟨_, _, _, hrange, _⟩ := hr.origin v hsees (hreg ▸ hd)
    exact hreg ▸ Option.isSome_of_eq_some hrange
  cases side with
  | output => exact hvalue ⟨id, k⟩ (.inl hid) (by rw [abstractReg_eq_portAt, hport]; rfl)
  | input =>
    have hreg : w.program.inputReg ⟨id, k⟩ = port.abstract := by
      rw [inputReg_eq_portAt, hport]
      rfl
    have huse : p.HasUse ⟨id, k⟩ := by
      refine (hasUse_congr hr.bare _).mp ?_
      rw [portAt, Option.map_eq_some_iff] at hport
      obtain ⟨i, hi, _⟩ := hport
      exact (List.getElem?_eq_some_iff.mp hi).1
    have hi := List.getElem?_eq_getElem huse
    generalize (p.expr id).inputs[k] = i at hi
    have hu : (⟨id, k⟩ : UseRef) ∈ p.uses i.source := (hl id hid k i.source).mp (by rw [hi]; rfl)
    have hdefined : (w.program.inputReg ⟨id, k⟩).isDefined = true := hreg ▸ hd
    refine hvalue i.source (.inr ⟨⟨id, k⟩, hu, hid, hdefined⟩) ?_
    rw [← hr.agree i.source ⟨id, k⟩ hu hid (.inr hdefined), hreg]

/-- Pointers stay apart if the conventions do not collide: each pointer has its own register. -/
theorem Ranged.pointersApart (hr : w.Ranged p) (hl : p.Linked) (hg : p.Grouped) (hc : p.Closed)
    {pins : RegMap} (hpins : w.program.pins = .ok pins) : p.PointersApart := by
  intro values others hp hq v hv hm
  obtain ⟨x, hx, hvx⟩ := List.mem_flatMap.mp hm
  have howns := hp.owns_mem hl hc hv
  have hxgroup := hg.mem_symm hvx
  have hsame := hr.uniform v x hxgroup howns.1 (hc.aliases v howns x hxgroup)
  exact (hp.congr hr.bare.symm).eq_of_abstractReg (hq.congr hr.bare.symm) hpins hv hx hsame.symm

/-- **Registers are assigned unless they run out or conventions collide.** Live ranges were computed for a
program without registers whose wiring is in order and in which no expression has two outputs. -/
theorem assign_cases (fresh : p.Fresh) (linked : p.Linked) (grouped : p.Grouped) (closed : p.Closed)
    (single : p.SingleOutputs) (ranged : computeRanges { program := p } = .ok () w) (m : Machine) :
    (∃ a w', assign m w = .ok a w') ∨ (∃ lack, assign m w = .error (.shortage lack) w) ∨
      ∃ fault, w.program.pins = .error fault ∧ assign m w = .error (.fault fault) w := by
  obtain ⟨he, hr, _⟩ := ranged_of_computeRanges fresh linked grouped ranged
  have hbanks := fun r => bank_of_computeRanges (r := r) ranged
  cases hpins : w.program.pins with
  | error fault =>
    have hchoose := Allocation.choose_of_pins_eq_error (m := m) hbanks hpins
    exact .inr (.inr ⟨fault, rfl, assign_of_choose_eq_error hchoose⟩)
  | ok pins =>
    have hunpinned : ∀ r, pins.contains r = false → ∀ v values, p.IsPointer (v :: values) →
        w.program.abstractReg v ≠ r := by
      rintro _ hnot v values hp rfl
      rw [(hp.congr hr.bare.symm).contains_pins hpins List.mem_cons_self] at hnot
      cases hnot
    have hne : ∀ a b i, pins.contains a = false → pins.contains b = false →
        w.live.ranges.get? a = some i → w.live.ranges.get? b = some i → a = b :=
      fun a b i ha hb hia hib => eq_of_range_eq fresh linked grouped closed
        (hr.pointersApart linked grouped closed hpins) single ranged hia hib
        fun v values hp => ⟨hunpinned a ha v values hp, hunpinned b hb v values hp⟩
    rcases Allocation.choose_ok_or_shortage hpins hbanks hne with ⟨a, ha⟩ | ⟨lack, hlack⟩
    · have horder := order_congr hr.bare
      obtain ⟨w', hw'⟩ := assign_ok_of_choose ha (horder ▸ he.nodup)
        (fun side id k port hid hport hd => hr.contains_port linked (horder ▸ hid) hport hd)
        (fun id hid => contains_live_of_computeRanges ranged (horder ▸ hid))
      exact .inl ⟨a, w', hw'⟩
    · exact .inr (.inl ⟨lack, assign_of_choose_eq_error hlack⟩)

end Workspace

end TensorKernel
