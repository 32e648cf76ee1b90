import Mathlib.Order.Bounds.Basic
import TensorKernel.Proofs.Allocation.Check
import TensorKernel.Proofs.Liveness.Origins

/-!
# Live ranges are exact

The values of an alias group and their uses hold one register. Values of different groups share one
only on a boundary pointer, and pointers are live throughout. Any other interval begins at the first
producer of its group that gets a register and ends at the last producer, the last use, or the end of
the outermost loop that a use is in and its producer is not, whichever comes last.
-/

namespace TensorKernel

variable {producer : ExprId} {x : Int} {values : List ValueRef} {loop : LoopId} {v : ValueRef}

namespace Program

/-- The execution numbers of the end markers of a loop. -/
def loopEnds (p : Program) (loop : LoopId) : Set Int :=
  {x | ∃ stop ∈ p.order, (p.expr stop).role = .loopEnd ∧ (p.expr stop).loop = loop ∧
    (p.expr stop).exec = x}

/-- The outermost loop that is around the consumer and not around the producer ends at a position. If
it has several end markers, the last one counts. -/
def CarriedTo (p : Program) (producer consumer : ExprId) (position : Int) : Prop :=
  ∃ outer loop inner, (p.expr consumer).loops = outer ++ loop :: inner ∧
    (∀ l ∈ outer, l ∈ (p.expr producer).loops) ∧ loop ∉ (p.expr producer).loops ∧
    IsGreatest (p.loopEnds loop) position

/-- The positions that the interval of an alias group has to reach. -/
def Reaches (p : Program) (v : ValueRef) (position : Int) : Prop :=
  ∃ m ∈ p.aliasGroup v, position = (p.expr m.producer).exec ∨
    ∃ u ∈ p.uses m, position = (p.expr u.consumer).exec ∨
      p.CarriedTo m.producer u.consumer position

/-- The interval of the alias group of a value. Producers that are results or ends of loops get no
register, so the interval does not begin with them. -/
structure IsGroupRange (p : Program) (v : ValueRef) (range : Interval) : Prop where
  /-- It begins with the first producer. -/
  start : IsLeast {x | ∃ m ∈ p.aliasGroup v, ¬ p.IsSilent m.producer ∧ x = (p.expr m.producer).exec}
    range.start
  /-- It ends with the last position that it has to reach. -/
  stop : IsGreatest {x | p.Reaches v x} range.stop

variable {p : Program}

/-- A position is among the ends of a loop exactly when an end marker of it is listed there. -/
theorem mem_loopEnds (he : p.Enumerated) :
    x ∈ p.loopEnds loop ↔ ∃ marker ∈ p.list.zipIdx.filter fun (e, _) =>
      e.role = .loopEnd ∧ e.loop = loop, x = marker.2 := by
  simp only [loopEnds, Set.mem_ofPred_eq, List.mem_filter, List.mem_zipIdx_iff_getElem?, list,
    List.getElem?_map, Option.map_eq_some_iff, decide_eq_true_eq, Prod.exists]
  constructor
  · rintro ⟨stop, hstop, hrole, hloop, rfl⟩
    obtain ⟨i, hi⟩ := List.mem_iff_getElem?.mp hstop
    exact ⟨_, i, ⟨⟨stop, hi, rfl⟩, hrole, hloop⟩, he i stop hi⟩
  · rintro ⟨_, i, ⟨⟨stop, hi, rfl⟩, hrole, hloop⟩, rfl⟩
    exact ⟨stop, List.mem_of_getElem? hi, hrole, hloop, he i stop hi⟩

/-- The end of a loop is the last of its end markers. -/
theorem isGreatest_of_loopEnd? (he : p.Enumerated) {position : Nat} (h : p.loopEnd? loop = some position) :
    IsGreatest (p.loopEnds loop) position := by
  obtain ⟨last, hlast, rfl⟩ := Option.map_eq_some_iff.mp h
  obtain ⟨before, hmarkers⟩ := List.getLast?_eq_some_iff.mp hlast
  have hsorted : p.list.zipIdx.Pairwise fun a b => a.2 < b.2 := by
    rw [← List.pairwise_map (f := Prod.snd) (R := (· < ·)), List.zipIdx_map_snd]
    exact List.pairwise_lt_range'
  have hbefore := hsorted.filter fun (e, _) => e.role = .loopEnd ∧ e.loop = loop
  rw [hmarkers, List.pairwise_append] at hbefore
  refine ⟨(mem_loopEnds he).mpr ⟨last, by rw [hmarkers]; simp, rfl⟩, fun x hx => ?_⟩
  obtain ⟨marker, hmarker, rfl⟩ := (mem_loopEnds he).mp hx
  rw [hmarkers, List.mem_append, List.mem_singleton] at hmarker
  rcases hmarker with hmarker | rfl
  · have hlt := hbefore.2.2 marker hmarker last (by simp)
    omega
  · exact Int.le_refl _

/-- A loop that has an end marker has a last one. -/
theorem loopEnd?_of_isGreatest (he : p.Enumerated) (h : IsGreatest (p.loopEnds loop) x) :
    ∃ position : Nat, p.loopEnd? loop = some position ∧ x = position := by
  obtain ⟨marker, hmarker, _⟩ := (mem_loopEnds he).mp h.1
  have hlast := List.getLast?_eq_some_getLast (List.ne_nil_of_mem hmarker)
  have hend : p.loopEnd? loop = some (List.getLast _ (List.ne_nil_of_mem hmarker)).2 := by
    rw [loopEnd?, hlast, Option.map_some]
  exact ⟨_, hend, h.unique (isGreatest_of_loopEnd? he hend)⟩

/-- What keeps a value to the end of a loop is the end that it is carried to. -/
theorem carriedTo_iff (he : p.Enumerated) {consumer : ExprId} :
    p.CarriedTo producer consumer x ↔
      ∃ position : Nat, p.loopCarriedEnd? (p.expr producer) (p.expr consumer) = some position ∧
        x = position := by
  simp only [CarriedTo, loopCarriedEnd?, Option.bind_eq_some_iff, List.find?_eq_some_iff_append,
    Bool.not_eq_true', List.contains_eq_mem, decide_eq_false_iff_not, Bool.not_not,
    decide_eq_true_eq]
  constructor
  · rintro ⟨outer, loop, inner, hloops, houter, hloop, hlast⟩
    obtain ⟨position, hposition, hx⟩ := loopEnd?_of_isGreatest he hlast
    exact ⟨position, ⟨loop, ⟨hloop, outer, inner, hloops, houter⟩, hposition⟩, hx⟩
  · rintro ⟨position, ⟨loop, ⟨hloop, outer, inner, hloops, houter⟩, hposition⟩, rfl⟩
    exact ⟨outer, loop, inner, hloops, houter, hloop, isGreatest_of_loopEnd? he hposition⟩

/-- A use needs its value up to its own position, or to the end that the value is carried to. -/
theorem useEnd_cases (he : p.Enumerated) (producer : ExprId) (u : UseRef) :
    p.useEnd (p.expr producer) u = (p.expr u.consumer).exec ∨
      p.CarriedTo producer u.consumer (p.useEnd (p.expr producer) u) := by
  dsimp only [useEnd]
  cases hend : p.loopCarriedEnd? (p.expr producer) (p.expr u.consumer) with
  | none => exact .inl rfl
  | some position =>
    dsimp only
    rcases Int.le_total (p.expr u.consumer).exec position with hle | hle
    · exact .inr ((carriedTo_iff he).mpr ⟨position, hend, Int.max_eq_right hle⟩)
    · exact .inl (Int.max_eq_left hle)

/-- A value is needed up to the end that it is carried to. -/
theorem CarriedTo.le_useEnd (he : p.Enumerated) {u : UseRef} (h : p.CarriedTo producer u.consumer x) :
    x ≤ p.useEnd (p.expr producer) u := by
  obtain ⟨position, hend, rfl⟩ := (carriedTo_iff he).mp h
  dsimp only [useEnd]
  rw [hend]
  exact Int.le_max_right ..

/-- A running maximum is its start or what one of the items brought in. -/
theorem foldl_max_eq {α : Type} {f : α → Int} (l : List α) (a : Int) :
    l.foldl (fun m x => max m (f x)) a = a ∨ ∃ x ∈ l, l.foldl (fun m x => max m (f x)) a = f x := by
  induction l generalizing a with
  | nil => exact .inl rfl
  | cons x l ih =>
    rw [List.foldl_cons]
    rcases ih (max a (f x)) with h | ⟨y, hy, h⟩
    · rcases Int.le_total a (f x) with hle | hle
      · exact .inr ⟨x, by simp, h.trans (Int.max_eq_right hle)⟩
      · exact .inl (h.trans (Int.max_eq_left hle))
    · exact .inr ⟨y, by simp [hy], h⟩

/-- The last position up to which a value is needed is one that its group has to reach. -/
theorem reaches_lastUse (he : p.Enumerated) {m : ValueRef} (hm : m ∈ p.aliasGroup v) :
    p.Reaches v (p.lastUse m) := by
  rcases foldl_max_eq (f := p.useEnd (p.expr m.producer)) (p.uses m) (p.expr m.producer).exec with
    h | ⟨u, hu, h⟩
  · exact ⟨m, hm, .inl h⟩
  · have hlast : p.lastUse m = p.useEnd (p.expr m.producer) u := h
    rw [hlast]
    exact ⟨m, hm, .inr ⟨u, hu, useEnd_cases he m.producer u⟩⟩

/-- The recorded interval of a group reaches what it has to reach. -/
theorem isGreatest_groupRange (he : p.Enumerated) (hv : v ∈ p.aliasGroup v) :
    IsGreatest {x | p.Reaches v x} (p.groupRange v).stop := by
  constructor
  · rcases foldl_max_eq (f := p.lastUse) (p.aliasGroup v) (p.expr v.producer).exec with
      h | ⟨m, hm, h⟩
    · exact ⟨v, hv, .inl h⟩
    · have hstop : (p.groupRange v).stop = p.lastUse m := h
      rw [hstop]
      exact reaches_lastUse he hm
  · rintro x ⟨m, hm, hx⟩
    have hgroup := lastUse_le_groupRange hm
    rcases hx with rfl | ⟨u, hu, hx⟩
    · exact Int.le_trans (p.exec_le_lastUse m) hgroup
    · have huse := Int.le_trans (useEnd_le_lastUse hu) hgroup
      rcases hx with rfl | hx
      · exact Int.le_trans (p.exec_le_useEnd _ u) huse
      · exact Int.le_trans (hx.le_useEnd he) huse

/-- The interval that is recorded at the first member of a group is the interval of the group. -/
theorem isGroupRange_groupRange (he : p.Enumerated) (hg : p.Grouped) (hc : p.Closed) (hv : p.Owns v)
    (hns : ¬ p.IsSilent v.producer) (hfirst : ∀ m ∈ p.aliasGroup v, p.Owns m → ¬ p.IsSilent m.producer →
      (p.expr v.producer).exec ≤ (p.expr m.producer).exec) : p.IsGroupRange v (p.groupRange v) := by
  have hself := (hg v hv.2).1
  refine ⟨⟨⟨v, hself, hns, rfl⟩, ?_⟩, isGreatest_groupRange he hself⟩
  rintro x ⟨m, hm, hmns, rfl⟩
  exact hfirst m hm ⟨hc.aliases v hv m hm, ((hg v hv.2).2 m hm).1⟩ hmns

/-- A boundary pointer begins with a value of the program. -/
theorem IsPointer.owns (hl : p.Linked) (hc : p.Closed) {first : ValueRef}
    (h : p.IsPointer (first :: values)) : p.Owns first := by
  rcases h.first_cases with ⟨id, hid, rfl, hvalue⟩ | ⟨id, hid, i, hi, rfl⟩
  · exact ⟨hid, hvalue⟩
  · exact ⟨hc.sources id hid i hi, hl.hasValue_source hid hi⟩

end Program

open Program

namespace RangeState

variable {p : Program} {s₀ u s t : RangeState}

/-- A value holds a register that is live throughout. -/
def Throughout (p : Program) (s : RangeState) (v : ValueRef) : Prop :=
  (s.program.abstractReg v).isDefined = true ∧
    s.live.ranges.get? (s.program.abstractReg v) = some ⟨0, p.length - 1⟩

/-- A value that is not given another register stays as it is. -/
theorem Throughout.handOut {bank : Bank} {range : Interval} (h : s.Throughout p v)
    (htakes : s.Takes bank range) (hv : v ∉ values) : (s.handOut bank values range).Throughout p v := by
  have hreg : (s.handOut bank values range).program.abstractReg v = s.program.abstractReg v :=
    (s.program.abstractReg_giveAll ..).trans (if_neg fun hm => hv hm.1)
  refine ⟨hreg ▸ h.1, ?_⟩
  rw [hreg, get?_handOut, if_neg (htakes.ne h.2), h.2]

/-- The values of a pointer that is handed out hold a register that is live throughout. -/
theorem throughout_handOut (hv : v ∈ values) (hvalue : s.program.HasValue v) :
    (s.handOut .gpr values ⟨0, p.length - 1⟩).Throughout p v := by
  have hreg : (s.handOut .gpr values ⟨0, p.length - 1⟩).program.abstractReg v =
      ⟨.gpr, s.counts .gpr⟩ :=
    (s.program.abstractReg_giveAll ..).trans (if_pos ⟨hv, hvalue⟩)
  refine ⟨by rw [hreg]; rfl, ?_⟩
  rw [hreg, get?_handOut, if_pos rfl]

/-- What is live throughout stays so: pointers are replaced by pointers, and groups with a register
are left alone. -/
theorem Reached.throughout (hl : p.Linked) (hg : p.Grouped) (he : p.Enumerated) (hs : s₀.Inv p)
    {done : List ExprId} {current : Option (ExprId × Nat)} (h : Reached p s₀ u done current s)
    (hv : p.Owns v) (h₀ : s₀.Throughout p v) : s.Throughout p v := by
  induction h with
  | start => exact h₀
  | @pointer values s hreached _ _ htakes ih =>
    by_cases hm : v ∈ values.flatMap p.aliasGroup
    · exact throughout_handOut hm ((hasValue_congr (hreached.bare hs.bare) v).mpr hv.2)
    · exact ih.handOut htakes hm
  | silent _ _ _ ih | enter _ _ _ ih | keep _ _ _ ih | leave _ ih => exact ih
  | @give done id k _ s hreached _ hd _ htakes ih =>
    refine ih.handOut htakes fun hm => ?_
    obtain ⟨_, rest, hi⟩ := hreached.current
    have hinv := (hreached.inv hl hg he hs).1
    have hdefined := ih.1
    rw [hinv.uniform _ v hm (by simp [hi]) hv.1, hd] at hdefined
    cases hdefined

/-- Before the first visit, a value with a register holds one that is live throughout. -/
theorem Reached.throughout_of_isDefined (hl : p.Linked) (hg : p.Grouped) (he : p.Enumerated)
    (hs : s₀.Inv p) (hnew : s₀.live.ranges = ∅) (h : Reached p s₀ u [] none u) (hv : p.Owns v)
    (hd : (u.program.abstractReg v).isDefined = true) : u.Throughout p v := by
  obtain ⟨_, range, _, hrange, _⟩ := (h.inv hl hg he hs).1.origin v (.inl hv.1) hd
  refine ⟨hd, ?_⟩
  rw [← h.range_eq (by rw [hnew]; rfl) hrange]
  exact hrange

/-- Assigning a pointer leaves its first value with a register that is live throughout. -/
theorem throughout_assignGlobal (hl : p.Linked) (hg : p.Grouped) (he : p.Enumerated) (hs : s₀.Inv p)
    (hnew : s₀.live.ranges = ∅) (h : Reached p s₀ s [] none s) (hv : p.Owns v)
    (ht : RangeStep.assignGlobal (v :: values) s = .ok () t) : t.Throughout p v := by
  have hbare := h.bare hs.bare
  rcases RangeStep.assignGlobal_cases ht with ⟨hd, rfl⟩ | ⟨_, _, rfl⟩
  · exact h.throughout_of_isDefined hl hg he hs hnew hv (hd v rfl)
  · rw [length_congr hbare]
    refine throughout_handOut (List.mem_flatMap.mpr ⟨v, List.mem_cons_self, ?_⟩)
      ((hasValue_congr hbare v).mpr hv.2)
    rw [aliasGroup_congr hbare]
    exact (hg v hv.2).1

/-- After the boundary pointers were assigned, the first value of each holds a register that is live
throughout. -/
theorem throughout_assignGlobals (hl : p.Linked) (hg : p.Grouped) (hc : p.Closed) (he : p.Enumerated)
    (hs : s₀.Inv p) (hnew : s₀.live.ranges = ∅) (ht : RangeStep.assignGlobals s₀ = .ok () t)
    (hv : p.IsPointer (v :: values)) : t.Throughout p v := by
  have howns := hv.owns hl hc
  obtain ⟨hrun, _⟩ := RangeStep.forM_pointers hs.bare ht
  obtain ⟨n, hn⟩ := hv.exists_place
  obtain ⟨x, y, _, hx, hturn, hbehind⟩ := RangeStep.exists_turn hn hs.bare hrun
  have hy := hx.trans (RangeStep.reached_assignGlobal (hx.bare hs.bare) hv hturn)
  exact hbehind.throughout hl hg he (hy.inv hl hg he hs).1 howns
    (throughout_assignGlobal hl hg he hs hnew hx howns hturn)

end RangeState

/-- **Live ranges are exact.** A program without registers whose wiring is in order went through the
computation of live ranges. The values of an alias group and their uses hold one register; values of
different groups share one only on a boundary pointer. What gets a register has an interval: a register
that was given to a boundary pointer is live throughout, even if the pointer has another register by now,
and any other register is live over the range of a group that holds it. -/
theorem Workspace.computeRanges_exact {p : Program} {w : Workspace} (fresh : p.Fresh)
    (linked : p.Linked) (grouped : p.Grouped) (closed : p.Closed)
    (ranged : computeRanges { program := p } = .ok () w) :
    (∀ v m, p.Owns v → m ∈ p.aliasGroup v →
      w.program.abstractReg m = w.program.abstractReg v ∧
      ∀ u ∈ p.uses m, w.program.inputReg u = w.program.abstractReg v) ∧
    (∀ v x, p.Owns v → p.Owns x → x ∉ p.aliasGroup v →
      (w.program.abstractReg v).isDefined = true →
      w.program.abstractReg x = w.program.abstractReg v →
      ∃ values, p.IsPointer values ∧ v ∈ values.flatMap p.aliasGroup ∧
        x ∈ values.flatMap p.aliasGroup) ∧
    (∀ first values, p.IsPointer (first :: values) →
      (w.program.abstractReg first).isDefined = true ∧
      w.live.ranges.get? (w.program.abstractReg first) = some ⟨0, p.length - 1⟩) ∧
    (∀ v, p.Owns v → ¬ p.IsSilent v.producer → (w.program.abstractReg v).isDefined = true ∧
      w.live.ranges.contains (w.program.abstractReg v) = true) ∧
    (∀ n r, p.GivesPointer n r → w.live.ranges.get? r = some ⟨0, p.length - 1⟩) ∧
    ∀ r range, w.live.ranges.get? r = some range →
      (∃ n, p.GivesPointer n r) ∧ range = ⟨0, p.length - 1⟩ ∧ p.PointerReg w.program r ∨
      (¬ ∃ n, p.GivesPointer n r) ∧ ∃ v, p.Owns v ∧ ¬ p.IsSilent v.producer ∧
        w.program.abstractReg v = r ∧ p.IsGroupRange v range := by
  obtain ⟨he, s, u, rfl, hglobals, hreached⟩ := reached_of_computeRanges ranged
  have hstart : RangeState.Inv p { program := p } := RangeStep.inv_start fresh rfl
  obtain ⟨hinv, hvisited⟩ := hreached.inv linked grouped he hstart
  refine ⟨?_, ?_, ?_, ?_, ?_, ?_⟩
  · intro v m hv hm
    have hmo : p.Owns m := ⟨closed.aliases v hv m hm, ((grouped v hv.2).2 m hm).1⟩
    have hreg := hinv.uniform v m hm hv.1 hmo.1
    refine ⟨hreg, fun use huse => ?_⟩
    rw [← hreg]
    exact hinv.agree m use huse (uses_of_owns closed hmo huse) (.inl hmo.1)
  · intro v x hv hx hother hd hreg
    obtain ⟨vs, range, horigin, _, hholders⟩ := hinv.origin v (.inl hv.1) hd
    have hvmem := hholders v (.inl hv.1) rfl
    have hxmem := hholders x (.inl hx.1) hreg
    cases horigin with
    | pointer hpointer => exact ⟨_, hpointer, hvmem, hxmem⟩
    | group _ _ =>
      rw [← grouped.aliasGroup_eq hvmem] at hxmem
      exact absurd hxmem hother
  · intro first values hpointer
    exact hreached.visits.throughout linked grouped he (hreached.boundary.inv linked grouped he hstart).1
      (hpointer.owns linked closed)
      (RangeState.throughout_assignGlobals linked grouped closed he hstart rfl hglobals hpointer)
  · intro v hv hns
    have hd := hvisited v hv (.inl hv.1) hns
    obtain ⟨_, range, _, hrange, _⟩ := hinv.origin v (.inl hv.1) hd
    exact ⟨hd, by rw [RegTable.contains, hrange]; rfl⟩
  · exact fun n r hgives => (get?_of_givesPointer ranged hgives).2
  · intro r range hrange
    refine (range_cases fresh linked grouped ranged rfl hrange).imp_right (And.imp_right ?_)
    rintro ⟨v, hmet⟩
    refine ⟨v, hmet.owns, hmet.not_isSilent, hmet.holds, ?_⟩
    rw [hmet.range]
    exact isGroupRange_groupRange he grouped closed hmet.owns hmet.not_isSilent hmet.first

/-- The tiled copy, whose two stores form an alias group and whose loops carry the source pointer. -/
theorem computeRanges_exact_tiledCopy : ∃ w,
    Workspace.computeRanges { program := tiledCopy.lowered {} } = .ok () w ∧
      ∀ r range, w.live.ranges.get? r = some range →
        (∃ n, (tiledCopy.lowered {}).GivesPointer n r) ∧
            range = ⟨0, (tiledCopy.lowered {}).length - 1⟩ ∧
            (tiledCopy.lowered {}).PointerReg w.program r ∨
          (¬ ∃ n, (tiledCopy.lowered {}).GivesPointer n r) ∧
            ∃ v, (tiledCopy.lowered {}).Owns v ∧ ¬ (tiledCopy.lowered {}).IsSilent v.producer ∧
              w.program.abstractReg v = r ∧ (tiledCopy.lowered {}).IsGroupRange v range := by
  have hsome : (Workspace.ranged? { program := tiledCopy.lowered {} }).isSome = true := by
    decide +kernel
  obtain ⟨w, h⟩ := Option.isSome_iff_exists.mp hsome
  have hranged := Workspace.ranged?_eq_some h
  refine ⟨w, hranged, (Workspace.computeRanges_exact ?_ ?_ ?_ ?_ hranged).2.2.2.2.2⟩
  all_goals decide +kernel

/-- The end of a loop that produces a value, and a scalar that the value is an alias of. -/
def lateGroup : Program :=
  let edit : Edit Unit := do
    let stop ← Edit.add "end" { kind := "LoopEnd", outputs := 1 } []
    let scalar ← Edit.add "a" { kind := "Scalar", outputs := 1 } []
    Edit.join ⟨stop, 0⟩ ⟨scalar, 0⟩
  match edit { name := "late_group" } with
  | .ok _ p => p.enumerate
  | .error _ p => p

/-- The interval of a group need not begin with its first producer: the end of a loop gets no
register, so the group of the scalar begins with the scalar behind it. -/
theorem computeRanges_start_lateGroup : ∃ w v m range,
    (lateGroup.Fresh ∧ lateGroup.Linked ∧ lateGroup.Grouped ∧ lateGroup.Closed ∧
      lateGroup.Forward) ∧
    Workspace.computeRanges { program := lateGroup } = .ok () w ∧
    (lateGroup.parameters = [] ∧ lateGroup.results = []) ∧
    m ∈ lateGroup.aliasGroup v ∧ w.live.ranges.get? (w.program.abstractReg v) = some range ∧
    (lateGroup.expr m.producer).exec < range.start := by
  have hrange : (Workspace.ranged? { program := lateGroup }).map (fun w =>
      w.live.ranges.get? (w.program.abstractReg ⟨1, 0⟩)) = some (some ⟨1, 1⟩) := by
    decide +kernel
  obtain ⟨w, hw, hrange⟩ := Option.map_eq_some_iff.mp hrange
  refine ⟨w, ⟨1, 0⟩, ⟨0, 0⟩, ⟨1, 1⟩, ?_, Workspace.ranged?_eq_some hw, ?_, ?_, hrange, ?_⟩
  all_goals decide +kernel

end TensorKernel
