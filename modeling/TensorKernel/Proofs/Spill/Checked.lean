import Mathlib.Data.List.Pairwise
import TensorKernel.Proofs.Liveness.Exact
import TensorKernel.Proofs.Spill.Sufficient

/-!
# Spilling keeps a checked allocation

Live ranges that were computed for a program start and stop at expressions of it, and all its
expressions have live sets. So every call can be bracketed, and the live ranges move with the
expressions that they start and stop at. Ranges that overlapped overlap and no others do, so nothing is
wrong with an allocation afterwards if nothing was wrong with it before.
-/

namespace TensorKernel

open Outcome

variable {a : Allocation} {x : ExprId} {range range' : Interval} {before : List ExprId} {m : Machine}
  {r : Reg} {v : ValueRef}

namespace Program

variable {p q : Program}

/-- What produces or reads a value of an alias group of the program has an execution number only if it
is in the program. -/
structure NumberedWithin (p : Program) : Prop where
  producers : ∀ v, p.Owns v → ∀ m ∈ p.aliasGroup v, 0 ≤ (p.expr m.producer).exec → m.producer ∈ p.order
  consumers : ∀ v, p.Owns v → ∀ m, m = v ∨ m ∈ p.aliasGroup v → ∀ u ∈ p.uses m,
    0 ≤ (p.expr u.consumer).exec → u.consumer ∈ p.order

/-- It is enough that all expressions outside of the program are without numbers. -/
theorem NumberedWithin.of_forall (h : ∀ x < p.exprs.size, 0 ≤ (p.expr x).exec → x ∈ p.order) :
    p.NumberedWithin := by
  have hall : ∀ x, 0 ≤ (p.expr x).exec → x ∈ p.order := by
    intro x hx
    by_cases hlt : x < p.exprs.size
    · exact h x hlt hx
    · rw [expr_of_size_le (Nat.le_of_not_lt hlt)] at hx
      exact absurd hx (by decide)
  exact ⟨fun _ _ _ _ => hall _, fun _ _ _ _ _ _ => hall _⟩

theorem Owns.of_bare (h : q.Owns v) (hb : q.bare = p.bare) : p.Owns v :=
  ⟨order_congr hb ▸ h.1, (hasValue_congr hb v).mp h.2⟩

theorem NumberedWithin.of_bare (h : p.NumberedWithin) (hb : q.bare = p.bare) : q.NumberedWithin where
  producers v hv m hm hexec := by
    rw [order_congr hb]
    exact h.producers v (Owns.of_bare hv hb) m (aliasGroup_congr hb v ▸ hm) (exec_congr hb _ ▸ hexec)
  consumers v hv m hm u hu hexec := by
    rw [order_congr hb]
    exact h.consumers v (Owns.of_bare hv hb) m (aliasGroup_congr hb v ▸ hm) u (uses_congr hb m ▸ hu)
      (exec_congr hb _ ▸ hexec)

/-- The numbers do not go behind the last position. -/
theorem Enumerated.exec_le (h : p.Enumerated) (hx : 0 ≤ (p.expr x).exec → x ∈ p.order) :
    (p.expr x).exec ≤ p.length - 1 := by
  by_cases hnumber : 0 ≤ (p.expr x).exec
  · exact (h.exec_mem (hx hnumber)).2
  · unfold length
    omega

/-- A use does not need its value behind the last position. -/
theorem Enumerated.useEnd_le (h : p.Enumerated) (producer : Expr) {u : UseRef}
    (hu : 0 ≤ (p.expr u.consumer).exec → u.consumer ∈ p.order) : p.useEnd producer u ≤ p.length - 1 := by
  have hconsumer := h.exec_le hu
  unfold useEnd
  dsimp only
  split
  · rename_i stop hstop
    obtain ⟨loop, _, hend⟩ := Option.bind_eq_some_iff.mp hstop
    obtain ⟨id, hid, hexec⟩ := (isGreatest_of_loopEnd? h hend).1
    have hlast := (h.exec_mem hid).2
    omega
  · exact hconsumer

/-- The alias group of a value is not needed behind the last position. -/
theorem NumberedWithin.stop_le (hw : p.NumberedWithin) (h : p.Enumerated) (hv : p.Owns v) :
    (p.groupRange v).stop ≤ p.length - 1 := by
  refine foldl_max_le.mpr ⟨(h.exec_mem hv.1).2, fun m hm => foldl_max_le.mpr ⟨?_, fun u hu => ?_⟩⟩
  · exact h.exec_le (hw.producers v hv m hm)
  · exact h.useEnd_le _ (hw.consumers v hv m (.inr hm) u hu)

/-- An interval reaches from one expression of the program to another. -/
structure Spans (p : Program) (range : Interval) (first last : ExprId) : Prop where
  mem : first ∈ p.order ∧ last ∈ p.order
  start : (p.expr first).exec = range.start
  stop : (p.expr last).exec = range.stop

end Program

/-- The markers of brackets. -/
def Bracket.markers (bs : List Bracket) : List ExprId := bs.flatMap fun b => [b.opening, b.closing]

open Program

/-- The live ranges lie within the program. -/
def Liveness.Within (l : Liveness) (p : Program) : Prop :=
  ∀ r i, l.ranges.get? r = some i → 0 ≤ i.start ∧ i.start ≤ i.stop ∧ i.stop ≤ p.length - 1

/-- At first there are none. -/
theorem Liveness.within_empty (p : Program) : Within {} p := fun _ _ hi => nomatch hi

namespace RangeState

variable {p : Program} {s s₀ u : RangeState}

theorem within_handOut (h : s.live.Within p) {bank : Bank} {values : List ValueRef}
    (takes : s.Takes bank range) (start : 0 ≤ range.start) (stop : range.stop ≤ p.length - 1) :
    (s.handOut bank values range).live.Within p := by
  intro r i hi
  have hi : (s.live.ranges.insert ⟨bank, s.counts bank⟩ range).get? r = some i := hi
  rw [RegTable.get?_insert] at hi
  split at hi
  · cases hi
    exact ⟨start, takes.2, stop⟩
  · exact h r i hi

/-- Every step of the computation of live ranges keeps the intervals within the program. -/
theorem Reached.within (he : p.Enumerated) (hw : p.NumberedWithin) (hs : s₀.live.Within p)
    {done : List ExprId} {current : Option (ExprId × Nat)} (h : Reached p s₀ u done current s) :
    s.live.Within p := by
  induction h with
  | start => exact hs
  | pointer _ _ _ htakes ih => exact within_handOut ih htakes (Int.le_refl 0) (Int.le_refl _)
  | @give done id k _ s hreached hvalue _ _ htakes ih =>
    obtain ⟨_, rest, horder⟩ := hreached.current
    have hid : id ∈ p.order := by simp [horder]
    exact within_handOut ih htakes (he.exec_mem hid).1 (hw.stop_le he ⟨hid, hvalue⟩)
  | silent _ _ _ ih | enter _ _ _ ih | keep _ _ _ ih | leave _ ih => exact ih

end RangeState

namespace Workspace

variable {w w' : Workspace} {bs : List Bracket}

/-- Everything that spilling needs: the expressions are numbered and have live sets, and the live
ranges lie within the program. -/
structure Spillable (w : Workspace) : Prop where
  numbered : w.program.Enumerated
  live : ∀ x ∈ w.program.order, (w.live.set? x).isSome = true
  within : w.live.Within w.program

/-- After a successful assignment every expression has a live set. -/
theorem isSome_live_of_assign (h : assign m w = .ok a w') :
    ∀ x ∈ w'.program.order, (w'.live.set? x).isSome = true := by
  obtain ⟨program, _, _, htranslate⟩ := assign_eq_ok h
  have hrun := forM_induction (P := fun done y =>
    y.program = program ∧ ∀ x ∈ done, (y.live.set? x).isSome = true) ⟨rfl, by simp⟩ ?_ htranslate
  · rw [hrun.1]
    exact hrun.2
  intro done x _ y z _ ⟨hprogram, hdone⟩ hstep
  obtain ⟨_, phys, _, _, rfl⟩ := translateLive_eq_ok hstep
  refine ⟨hprogram, fun j hj => ?_⟩
  dsimp only
  rw [Liveness.set?_putSet]
  split
  · rfl
  · rename_i hne
    refine hdone j ((List.mem_append.mp hj).resolve_right fun hlast => ?_)
    exact hne (List.mem_singleton.mp hlast).symm

/-- A program can be spilled after live ranges were computed for it and registers were assigned. -/
theorem spillable_of_assign {w₀ : Workspace} (hearlier : w₀.live.Within w₀.program)
    (hw : w₀.program.NumberedWithin) (ranged : computeRanges w₀ = .ok () w)
    (assigned : assign m w = .ok a w') : w'.Spillable ∧ w'.program.bare = w₀.program.bare := by
  obtain ⟨he, s, u, rfl, _, hreached⟩ := reached_of_computeRanges ranged
  obtain ⟨_, happ, hranges⟩ := assign_ok assigned
  have hbare : w'.program.bare = w₀.program.bare := happ.bare.trans (hreached.bare rfl)
  refine ⟨⟨he.of_bare hbare, isSome_live_of_assign assigned, fun r i hi => ?_⟩, hbare⟩
  rw [hranges] at hi
  rw [length_congr hbare]
  exact hreached.within he hw hearlier r i hi

/-- Calls with live sets can be bracketed one after the other. -/
theorem bracketCalls_ok {left rest : List ExprId} (horder : w.program.order = left ++ rest)
    (hvalid : ∀ x ∈ rest, x < w.program.exprs.size)
    (hlive : ∀ x ∈ rest, (w.live.set? x).isSome = true) (n : Nat) :
    ∃ bs w', bracketCalls n left.length rest w = .ok bs w' := by
  induction rest generalizing n left w with
  | nil => exact ⟨[], w, rfl⟩
  | cons x rest ih =>
    have hrest : ∀ y ∈ rest, y < w.program.exprs.size := fun y hy => hvalid y (List.mem_cons_of_mem _ hy)
    by_cases hrole : (w.program.expr x).role = .externalCall
    · obtain ⟨regs, hregs⟩ := Option.isSome_iff_exists.mp (hlive x List.mem_cons_self)
      obtain ⟨b, u, hcall, hkeeps, rfl, _, _, huorder, _, _⟩ := bracketCall_ok horder hregs n
      obtain ⟨bs, w', hcalls⟩ := ih (n := n + 1) huorder
        (fun y hy => Nat.lt_of_lt_of_le (hrest y hy) hkeeps.size) fun y hy => by
          rw [hkeeps.live y (hrest y hy)]
          exact hlive y (List.mem_cons_of_mem _ hy)
      refine ⟨b :: bs, w', ?_⟩
      rw [bracketCalls]
      refine bind_eq_ok.mpr ⟨w, w, rfl, ?_⟩
      rw [if_pos hrole]
      refine bind_eq_ok.mpr ⟨b, u, hcall, bind_eq_ok.mpr ⟨bs, w', ?_, rfl⟩⟩
      simpa using hcalls
    · have hleft : w.program.order = (left ++ [x]) ++ rest := by rw [horder, List.append_cons]
      obtain ⟨bs, w', hcalls⟩ := ih (n := n) hleft hrest fun y hy => hlive y (List.mem_cons_of_mem _ hy)
      refine ⟨bs, w', ?_⟩
      rw [bracketCalls]
      refine bind_eq_ok.mpr ⟨w, w, rfl, ?_⟩
      rw [if_neg hrole]
      simpa using hcalls

/-- A live range can be moved with the expressions that it starts and stops at, if they kept their
order. -/
theorem shiftRange_ok {entry : Reg × Interval} (hmoved : Moved before w.program entry.2 range')
    (hle : range'.start ≤ range'.stop) :
    shiftRange before entry w =
      .ok () { w with live := { w.live with ranges := w.live.ranges.insert entry.1 range' } } := by
  have hset : w.live.setRange entry.1 range' true =
      .ok { w.live with ranges := w.live.ranges.insert entry.1 range' } := by
    unfold Liveness.setRange
    rw [if_neg (by simp), if_neg (Int.not_lt.mpr hle)]
  unfold shiftRange
  refine bind_eq_ok.mpr ⟨w, w, rfl, ?_⟩
  simp only [hmoved.1, hmoved.2, bind, Except.bind, hset]
  rfl

/-- The positions of a numbered program, and where their expressions stand after expressions were
inserted. -/
theorem exists_moved (he : w.program.Enumerated) (hsub : before.Sublist w.program.order)
    (hstart : 0 ≤ range.start) (hle : range.start ≤ range.stop) (hstop : range.stop < before.length) :
    ∃ range', Moved before w.program range range' ∧ range'.start ≤ range'.stop := by
  have hi : range.start.toNat < before.length := by omega
  have hj : range.stop.toNat < before.length := by omega
  refine ⟨⟨(w.program.expr before[range.start.toNat]).exec, (w.program.expr before[range.stop.toNat]).exec⟩,
    ⟨movedTo_eq_ok.mpr ⟨_, hstart, List.getElem?_eq_getElem hi, rfl⟩,
      movedTo_eq_ok.mpr ⟨_, by omega, List.getElem?_eq_getElem hj, rfl⟩⟩, ?_⟩
  rcases Int.lt_or_eq_of_le hle with hlt | heq
  · exact Int.le_of_lt (List.pairwise_iff_getElem.mp (he.pairwise.sublist hsub) _ _ hi hj (by omega))
  · simp only [heq, Int.le_refl]

/-- The calls of a program that has everything that is needed can be bracketed. -/
theorem Spillable.insertSpills_ok (h : w.Spillable) : ∃ bs w', insertSpills w = .ok bs w' := by
  have hvalid : ∀ x ∈ w.program.order, x < w.program.exprs.size := fun x => h.numbered.lt_size
  have hnil : w.program.order = [] ++ w.program.order := (List.nil_append _).symm
  obtain ⟨bs, u, hcalls⟩ := bracketCalls_ok hnil hvalid h.live 0
  obtain ⟨hbracketed, horder⟩ := bracketCalls_eq_ok hnil hvalid h.numbered.nodup hcalls
  let v : Workspace := { u with program := u.program.enumerate }
  have hv : v.program.Enumerated := enumerated_enumerate hbracketed.valid hbracketed.nodup
  have hsub : w.program.order.Sublist v.program.order := by
    rw [(repositioned_enumerate u.program).order, horder, List.nil_append]
    exact Bracket.sublist_flatMap_around bs _
  -- the program stays while the live ranges move
  obtain ⟨w', hshift, _⟩ := forM_of_step (s := v) (l := v.live.ranges.entries)
    (f := shiftRange w.program.order) (P := fun _ x => x.program = v.program) rfl
    fun done entry rest x hentries hx => by
      have hmem : entry ∈ v.live.ranges.entries := by simp [hentries]
      have hrange : v.live.ranges.get? entry.1 = some entry.2 := RegTable.mem_entries_iff.mp hmem
      rw [show v.live.ranges = w.live.ranges from hbracketed.keeps.ranges] at hrange
      obtain ⟨hstart, hle, hstop⟩ := h.within _ _ hrange
      obtain ⟨range', hmoved, hle'⟩ := exists_moved (w := x) (hx ▸ hv) (hx ▸ hsub) hstart hle
        (by unfold Program.length at hstop; omega)
      exact ⟨_, shiftRange_ok hmoved hle', hx⟩
  by_cases hempty : bs = []
  · refine ⟨bs, v, ?_⟩
    unfold insertSpills
    refine bind_eq_ok.mpr ⟨w, w, rfl, bind_eq_ok.mpr ⟨bs, u, hcalls, ?_⟩⟩
    refine bind_eq_ok.mpr ⟨⟨⟩, v, rfl, ?_⟩
    rw [hempty]
    rfl
  · refine ⟨bs, w', ?_⟩
    unfold insertSpills
    refine bind_eq_ok.mpr ⟨w, w, rfl, bind_eq_ok.mpr ⟨bs, u, hcalls, ?_⟩⟩
    refine bind_eq_ok.mpr ⟨⟨⟩, v, rfl, ?_⟩
    rw [if_pos (by simpa using hempty)]
    exact bind_eq_ok.mpr ⟨v, v, rfl, bind_eq_ok.mpr ⟨⟨⟩, w', hshift, rfl⟩⟩

/-! ### What spilling keeps -/

/-- The expressions keep their order. -/
theorem Spilled.exec_le_iff (h : w.Spilled bs w') (he : w.program.Enumerated) {y : ExprId}
    (hx : x ∈ w.program.order) (hy : y ∈ w.program.order) :
    (w'.program.expr x).exec ≤ (w'.program.expr y).exec ↔
      (w.program.expr x).exec ≤ (w.program.expr y).exec := by
  rw [← Int.not_lt, h.exec_lt_iff he hy hx, Int.not_lt]

/-- A live range starts and stops at the same expressions after spilling as before. -/
theorem Spilled.spans (h : w.Spilled bs w') (hw : w.Spillable) (hrange : w.live.ranges.get? r = some range)
    (hrange' : w'.live.ranges.get? r = some range') :
    ∃ first last, w.program.Spans range first last ∧ w'.program.Spans range' first last := by
  obtain ⟨hstart, hle, hstop⟩ := hw.within r range hrange
  obtain ⟨x, hx, hmoved⟩ := h.ranges r range hrange
  obtain rfl : range' = x := Option.some.inj (hrange'.symm.trans hx)
  have hsub : w.program.order.Sublist w'.program.order := by
    rw [h.order]
    exact Bracket.sublist_flatMap_around bs _
  -- the expression at a position of the old program, and its number in the new one
  have hat : ∀ i j : Int, 0 ≤ i → i ≤ w.program.length - 1 →
      (bs = [] ∧ j = i ∨ movedTo w'.program w.program.order i = .ok j) →
      ∃ y ∈ w.program.order, (w.program.expr y).exec = i ∧ (w'.program.expr y).exec = j := by
    intro i j hi hlast hj
    have hlt : i.toNat < w.program.order.length := by
      unfold Program.length at hlast
      omega
    have hy := List.getElem?_eq_getElem hlt
    have hexec := hw.numbered _ _ hy
    rw [Int.toNat_of_nonneg hi] at hexec
    rcases hj with ⟨rfl, rfl⟩ | hj
    · have horder : w'.program.order = w.program.order := h.order.trans (List.flatMap_singleton' _)
      have hexec' := h.numbered _ _ ((congrArg (·[j.toNat]?) horder).trans hy)
      rw [Int.toNat_of_nonneg hi] at hexec'
      exact ⟨_, List.getElem_mem hlt, hexec, hexec'⟩
    · obtain ⟨y, _, hy', hmoved⟩ := movedTo_eq_ok.mp hj
      obtain rfl := Option.some.inj (hy.symm.trans hy')
      exact ⟨_, List.getElem_mem hlt, hexec, hmoved⟩
  obtain ⟨first, hfirst, hfexec, hfexec'⟩ := hat range.start range'.start hstart (by omega)
    (hmoved.imp (fun hsame => ⟨hsame.1, by rw [hsame.2]⟩) (·.1))
  obtain ⟨last, hlast, hlexec, hlexec'⟩ := hat range.stop range'.stop (by omega) hstop
    (hmoved.imp (fun hsame => ⟨hsame.1, by rw [hsame.2]⟩) (·.2))
  exact ⟨first, last, ⟨⟨hfirst, hlast⟩, hfexec, hlexec⟩,
    ⟨hsub.subset hfirst, hsub.subset hlast⟩, hfexec', hlexec'⟩

/-- Live ranges overlap after spilling when they did before. -/
theorem Spilled.overlaps_eq (h : w.Spilled bs w') (hw : w.Spillable) {s : Reg} {i j i' j' : Interval}
    (hi : w.live.ranges.get? r = some i) (hj : w.live.ranges.get? s = some j)
    (hi' : w'.live.ranges.get? r = some i') (hj' : w'.live.ranges.get? s = some j') :
    i'.overlaps j' = i.overlaps j := by
  obtain ⟨f, l, hold, hnew⟩ := h.spans hw hi hi'
  obtain ⟨f₂, l₂, hold₂, hnew₂⟩ := h.spans hw hj hj'
  have hone := h.exec_le_iff hw.numbered hold.mem.1 hold₂.mem.2
  have htwo := h.exec_le_iff hw.numbered hold₂.mem.1 hold.mem.2
  rw [hold.start, hold₂.stop, hnew.start, hnew₂.stop] at hone
  rw [hold₂.start, hold.stop, hnew₂.start, hnew.stop] at htwo
  simp only [Interval.overlaps, hone, htwo]

/-- Exactly the registers that had a live range have one. -/
theorem Spilled.contains_eq (h : w.Spilled bs w') (r : Reg) :
    w'.live.ranges.contains r = w.live.ranges.contains r := by
  unfold RegTable.contains
  cases hr : w.live.ranges.get? r with
  | none => rw [h.unranged r hr]
  | some range =>
    obtain ⟨range', hrange', _⟩ := h.ranges r range hr
    rw [hrange']
    rfl

/-- Without the markers the program is as it was. -/
theorem Spilled.filter_order (h : w.Spilled bs w') (he : w.program.Enumerated) :
    w'.program.order.filter (· ∉ Bracket.markers bs) = w.program.order := by
  have hmarker : ∀ x ∈ w.program.order, x ∉ Bracket.markers bs := by
    intro x hx hmem
    obtain ⟨b, hb, hxb⟩ := List.mem_flatMap.mp hmem
    obtain ⟨regs, hsaves⟩ := h.saves b hb
    have hlt := he.lt_size hx
    rcases List.mem_cons.mp hxb with rfl | hxb
    · exact Nat.not_lt.mpr hsaves.new.1 hlt
    · rw [List.mem_singleton.mp hxb] at hlt
      exact Nat.not_lt.mpr hsaves.new.2 hlt
  have hone : ∀ x ∈ w.program.order, (Bracket.around bs x).filter (· ∉ Bracket.markers bs) = [x] := by
    intro x hx
    have hx := hmarker x hx
    unfold Bracket.around
    split
    · rename_i b hb
      have hb := List.mem_of_find?_eq_some hb
      have hopening : b.opening ∈ Bracket.markers bs := List.mem_flatMap.mpr ⟨b, hb, by simp⟩
      have hclosing : b.closing ∈ Bracket.markers bs := List.mem_flatMap.mpr ⟨b, hb, by simp⟩
      simp [hopening, hclosing, hx]
    · simp [hx]
  rw [h.order, List.filter_flatMap, List.flatMap_congr hone]
  exact List.flatMap_singleton' _

/-- Every expression has a live set after spilling if every expression had one before. -/
theorem Spilled.isSome_live (h : w.Spilled bs w') (hw : w.Spillable) :
    ∀ x ∈ w'.program.order, (w'.live.set? x).isSome = true := by
  intro x hx
  rcases h.of_mem_order hx with hx | ⟨b, hb, hx⟩
  · rw [h.live x (hw.numbered.lt_size hx)]
    exact hw.live x hx
  · have hlive := hw.live _ (h.call_mem b hb).1
    rcases hx with rfl | rfl
    · rw [(h.recorded b hb).1]
      exact hlive
    · rw [(h.recorded b hb).2]
      exact hlive

/-- Values that were produced and consumed within their live ranges still are. -/
theorem Spilled.positionViolations_eq_nil (h : w.Spilled bs w') (hw : w.Spillable)
    (hwithin : w.program.NumberedWithin) {id : ExprId} {k : Nat} {o : Output}
    (hid : id ∈ w.program.order) (ho : (w.program.expr id).outputs[k]? = some o)
    (hclean : w.positionViolations (w.program.expr id) k o = []) :
    w'.positionViolations (w'.program.expr id) k o = [] := by
  unfold positionViolations at hclean ⊢
  cases hrange : w.live.ranges.get? o.port.abstract with
  | none => rw [h.unranged _ hrange]
  | some range =>
    obtain ⟨range', hrange', hcontains⟩ := h.contains_range hw.numbered hrange
    have hstart := (hw.within _ _ hrange).1
    rw [hrange'] at ⊢
    rw [hrange] at hclean
    dsimp only at hclean ⊢
    split at hclean
    · rename_i hundefined
      rw [if_pos hundefined]
    · rename_i hdefined
      obtain ⟨hproduced, hconsumed⟩ := List.append_eq_nil_iff.mp hclean
      have hproducer : range.contains (w.program.expr id).exec = true := by
        split at hproduced
        · assumption
        · cases hproduced
      rw [if_neg hdefined, hcontains id hid, if_pos hproducer, List.nil_append]
      refine List.filterMap_eq_nil_iff.mpr fun u hu => ?_
      have hin : range.contains (w.program.expr u.consumer).exec = true := by
        have hnone := List.filterMap_eq_nil_iff.mp hconsumed u hu
        split at hnone
        · assumption
        · cases hnone
      -- a consumer in the range has a number, so it is in the program
      have hconsumer : u.consumer ∈ w.program.order := by
        refine hwithin.consumers ⟨id, k⟩ ⟨hid, (List.getElem?_eq_some_iff.mp ho).1⟩ _ (.inl rfl) u ?_ ?_
        · rwa [uses, output?, ho]
        · simp only [Interval.contains, Bool.and_eq_true, decide_eq_true_eq] at hin
          omega
      rw [hcontains _ hconsumer, if_pos hin]

/-- Nothing is wrong with an expression of the program if nothing was wrong before. -/
theorem Spilled.exprViolations_eq_nil (h : w.Spilled bs w') (hw : w.Spillable)
    (hwithin : w.program.NumberedWithin) {map : RegMap}
    (hclean : ∀ x ∈ w.program.order, w.exprViolations m map (w.program.expr x) = [])
    (hx : x ∈ w'.program.order) : w'.exprViolations m map (w'.program.expr x) = [] := by
  rcases h.of_mem_order hx with hx | ⟨b, hb, hmarker⟩
  · obtain ⟨position, hexpr⟩ := h.expr x (hw.numbered.lt_size hx)
    have hold := hclean x hx
    rw [exprViolations, List.append_eq_nil_iff, List.flatMap_eq_nil_iff, List.flatMap_eq_nil_iff] at hold ⊢
    have hinputs : (w'.program.expr x).inputs = (w.program.expr x).inputs := h.ports.inputs x
    have houtputs : (w'.program.expr x).outputs = (w.program.expr x).outputs := h.ports.outputs x
    have hname : (w'.program.expr x).name = (w.program.expr x).name := by rw [hexpr]
    rw [hinputs, houtputs, hname]
    refine ⟨hold.1, fun entry ho => ?_⟩
    obtain ⟨o, k⟩ := entry
    obtain ⟨hport, hposition⟩ := List.append_eq_nil_iff.mp (hold.2 (o, k) ho)
    rw [List.mem_zipIdx_iff_getElem?] at ho
    exact List.append_eq_nil_iff.mpr ⟨hport, h.positionViolations_eq_nil hw hwithin hx ho hposition⟩
  · obtain ⟨regs, hsaves⟩ := h.saves b hb
    have hblank : w.program.expr x = default := by
      refine expr_of_size_le ?_
      rcases hmarker with rfl | rfl
      · exact hsaves.new.1
      · exact hsaves.new.2
    rw [exprViolations, h.ports.inputs, h.ports.outputs, hblank]
    rfl

/-- **Spilling finds nothing new.** Nothing is wrong with an allocation after spilling if nothing was
wrong before. -/
theorem Spilled.keeps_clean (h : w.Spilled bs w') (hw : w.Spillable) (hwithin : w.program.NumberedWithin)
    (hclean : w.violations m a = []) : w'.violations m a = [] := by
  unfold violations at hclean ⊢
  rw [List.append_eq_nil_iff, List.append_eq_nil_iff] at hclean ⊢
  obtain ⟨⟨hexprs, hkeys⟩, hshared⟩ := hclean
  refine ⟨⟨?_, ?_⟩, ?_⟩
  · have hold : ∀ x ∈ w.program.order, w.exprViolations m a.regMap (w.program.expr x) = [] :=
      fun x hx => List.flatMap_eq_nil_iff.mp hexprs _ (List.mem_map_of_mem hx)
    refine List.flatMap_eq_nil_iff.mpr fun e hmem => ?_
    obtain ⟨x, hx, rfl⟩ := List.mem_map.mp hmem
    exact h.exprViolations_eq_nil hw hwithin hold hx
  · rw [List.map_eq_nil_iff, List.filter_eq_nil_iff] at hkeys ⊢
    intro r hr
    rw [RegTable.mem_keys_iff, h.contains_eq] at hr
    exact hkeys r (RegTable.mem_keys_iff.mpr hr)
  · refine List.flatMap_eq_nil_iff.mpr fun phys _ => clashes_eq_nil_iff.mpr ?_
    refine List.Pairwise.imp_of_mem ?_ (w'.live.ranges.ascending.filter _)
    intro x y hx hy hlt
    -- the two registers had live ranges before, which did not clash
    have hbefore : ∀ z : Reg × Interval, z ∈ w'.live.ranges.entries →
        ∃ range, w.live.ranges.get? z.1 = some range ∧ w'.live.ranges.get? z.1 = some z.2 := by
      intro z hz
      have hz := RegTable.mem_entries_iff.mp hz
      have hcontains : w.live.ranges.contains z.1 = true := by
        rw [← h.contains_eq, RegTable.contains, hz]
        rfl
      obtain ⟨range, hrange⟩ := Option.isSome_iff_exists.mp hcontains
      exact ⟨range, hrange, hz⟩
    obtain ⟨hx, hxphys⟩ := List.mem_filter.mp hx
    obtain ⟨hy, hyphys⟩ := List.mem_filter.mp hy
    obtain ⟨i, hi, hi'⟩ := hbefore x hx
    obtain ⟨j, hj, hj'⟩ := hbefore y hy
    have hphys : phys ∈ (w.sharedRegs a.regMap).toList := by
      rw [← RegSet.mem_def, sharedRegs, RegSet.mem_ofList, List.mem_filterMap]
      exact ⟨x.1, RegTable.mem_keys_iff.mpr (by rw [RegTable.contains, hi]; rfl), of_decide_eq_true hxphys⟩
    have hapart := clashes_eq_nil_iff.mp (List.flatMap_eq_nil_iff.mp hshared phys hphys)
    have hne : (x.1, i) ≠ (y.1, j) := by
      intro heq
      have hreg : x.1 = y.1 := (Prod.mk.inj heq).1
      rw [hreg] at hlt
      exact Reg.lt_irrefl _ hlt
    have hold := hapart.forall (List.mem_filter.mpr ⟨RegTable.mem_entries_iff.mpr hi, hxphys⟩)
      (List.mem_filter.mpr ⟨RegTable.mem_entries_iff.mpr hj, hyphys⟩) hne
    rw [clash_eq_none_iff] at hold ⊢
    rwa [h.overlaps_eq hw hi hj hi' hj']

/-- Everything that spilling keeps of an allocation in which nothing is wrong. -/
structure SpilledSoundly (m : Machine) (a : Allocation) (w : Workspace) (bs : List Bracket)
    (w' : Workspace) : Prop where
  /-- The calls are bracketed in program order. -/
  calls : bs.map (·.call) = w.program.order.filter fun x => (w.program.expr x).role = .externalCall
  /-- A bracket stands right around its call. -/
  around : ∀ b ∈ bs, [b.opening, b.call, b.closing] <:+: w'.program.order
  /-- It saves and restores the live set of the call. -/
  saves : ∀ b ∈ bs, ∃ regs, w.Saves b regs w'.program
  /-- Without the markers the program is as it was. -/
  order : w'.program.order.filter (· ∉ Bracket.markers bs) = w.program.order
  /-- Its expressions have other positions, and the same ports with the same registers. -/
  exprs : ∀ x ∈ w.program.order, ∃ position, w'.program.expr x = { w.program.expr x with position }
  /-- The expressions have the numbers of their positions. -/
  numbered : w'.program.Enumerated
  /-- The same registers have live ranges. -/
  ranged : ∀ r, w'.live.ranges.contains r = w.live.ranges.contains r
  /-- These start and stop at the same expressions. -/
  spans : ∀ r range range', w.live.ranges.get? r = some range → w'.live.ranges.get? r = some range' →
    ∃ first last, w.program.Spans range first last ∧ w'.program.Spans range' first last
  /-- They overlap when they overlapped. -/
  overlaps : ∀ r s i j i' j', w.live.ranges.get? r = some i → w.live.ranges.get? s = some j →
    w'.live.ranges.get? r = some i' → w'.live.ranges.get? s = some j' →
    i'.overlaps j' = i.overlaps j
  /-- Every expression has a live set. -/
  live : ∀ x ∈ w'.program.order, (w'.live.set? x).isSome = true
  /-- Nothing is wrong. -/
  clean : w'.violations m a = []

/-- **Spilling keeps a checked allocation.** Live ranges were computed and registers were assigned, and
nothing is wrong with them. Live ranges that were known before lie within the program, and what shares
values with the program but is not in it has no execution number. Then the calls can be bracketed, and
the brackets are all that is new. -/
theorem insertSpills_soundly {m : Machine} {a : Allocation} {w₀ : Workspace}
    (ranged : computeRanges w₀ = .ok () w) (assigned : assign m w = .ok a w')
    (clean : w'.violations m a = []) (earlier : w₀.live.Within w₀.program)
    (within : w₀.program.NumberedWithin) :
    ∃ bs w'', insertSpills w' = .ok bs w'' ∧ SpilledSoundly m a w' bs w'' := by
  obtain ⟨hw, hbare⟩ := spillable_of_assign earlier within ranged assigned
  obtain ⟨bs, w'', hrun⟩ := hw.insertSpills_ok
  obtain ⟨hspilled, hcalls⟩ := insertSpills_eq_ok hw.numbered hrun
  exact ⟨bs, w'', hrun, {
    calls := hcalls
    around := fun _ => hspilled.around_infix
    saves := hspilled.saves
    order := hspilled.filter_order hw.numbered
    exprs := fun x hx => hspilled.expr x (hw.numbered.lt_size hx)
    numbered := hspilled.numbered
    ranged := hspilled.contains_eq
    spans := fun _ _ _ => hspilled.spans hw
    overlaps := fun _ _ _ _ _ _ => hspilled.overlaps_eq hw
    live := hspilled.isSome_live hw
    clean := hspilled.keeps_clean hw (within.of_bare hbare) clean }⟩

end Workspace

/-- The copy with a call in every round. -/
theorem insertSpills_soundly_calledCopy : ∃ w a w' bs w'',
    (calledCopy.lowered {}).NumberedWithin ∧
      Workspace.computeRanges { program := calledCopy.lowered {} } = .ok () w ∧
      Workspace.assign (.x64 .avx2) w = .ok a w' ∧ w'.violations (.x64 .avx2) a = [] ∧
      Workspace.insertSpills w' = .ok bs w'' ∧ Workspace.SpilledSoundly (.x64 .avx2) a w' bs w'' := by
  have hclean : (Workspace.allocated? (.x64 .avx2) { program := calledCopy.lowered {} }).map
      (fun (_, a, w') => w'.violations (.x64 .avx2) a) = some [] := by
    decide +kernel
  obtain ⟨⟨w, a, w'⟩, h, hclean⟩ := Option.map_eq_some_iff.mp hclean
  obtain ⟨hr, ha⟩ := Workspace.allocated?_eq_some h
  have hwithin : (calledCopy.lowered {}).NumberedWithin := .of_forall (by decide +kernel)
  clear h
  generalize calledCopy.lowered {} = p at hr hwithin ⊢
  obtain ⟨bs, w'', hspilled⟩ := Workspace.insertSpills_soundly hr ha hclean (Liveness.within_empty _) hwithin
  exact ⟨w, a, w', bs, w'', hwithin, hr, ha, hclean, hspilled⟩

/-- Three values, each made from the one before. -/
def threeVectors : Program :=
  let edit : Edit Unit := do
    let a ← Edit.add "a" { kind := "Scalar", outputs := 1 } []
    let b ← Edit.add "b" { kind := "Relu", outputs := 1 } [some ⟨a, 0⟩]
    let _ ← Edit.add "c" { kind := "Relu", outputs := 1 } [some ⟨b, 0⟩]
  match edit { name := "vectors" } with
  | .ok _ p => p.enumerate
  | .error _ p => p

/-- A shorter program, made after the first one, which calls with a pointer. -/
def pointerCall : Program :=
  let edit : Edit Unit := do
    let p ← Edit.add "p" { kind := "Parameter", outputs := 1 } []
    let _ ← Edit.add "call" { kind := "ExternalCall" } [some ⟨p, 0⟩]
  match edit { name := "call", exprs := threeVectors.exprs } with
  | .ok _ p => p.enumerate
  | .error _ p => p

/-- A value that an expression of another program reads, where it has the number 1. -/
def readElsewhere : Program :=
  let first : Edit ExprId := do
    let d ← Edit.makeOp "d" { kind := "Scalar", outputs := 1 } []
    let e ← Edit.makeOp "e" { kind := "Relu", outputs := 1 } [some ⟨d, 0⟩]
    let _ ← Edit.add "s" { kind := "Scalar", outputs := 1 } []
    Edit.append [e]
    return d
  let second (d : ExprId) : Edit Unit := do
    let _ ← Edit.add "call" { kind := "ExternalCall" } []
    Edit.append [d]
  match first { name := "first" } with
  | .ok d p =>
    match second d { name := "second", exprs := p.enumerate.exprs } with
    | .ok _ q => q.enumerate
    | .error _ q => q
  | .error _ p => p

/-- One workspace cannot serve two programs: the live ranges of the other one stop behind the end of
the program and cannot be moved. And where an expression of another program reads a value, its number
stays while the live range moves. -/
theorem not_insertSpills_soundly :
    (∃ u w a w', Workspace.computeRanges { program := threeVectors } = .ok () u ∧
      Workspace.computeRanges { program := pointerCall, live := u.live } = .ok () w ∧
      Workspace.assign (.x64 .avx2) w = .ok a w' ∧ w'.violations (.x64 .avx2) a = [] ∧
      ∀ bs w'', Workspace.insertSpills w' ≠ .ok bs w'') ∧
    ∃ w a w' bs w'', Workspace.computeRanges { program := readElsewhere } = .ok () w ∧
      Workspace.assign (.x64 .avx2) w = .ok a w' ∧ w'.violations (.x64 .avx2) a = [] ∧
      Workspace.insertSpills w' = .ok bs w'' ∧
      w''.violations (.x64 .avx2) a = [.consumedOutside "e" ⟨.vec, 0⟩ 1 ⟨3, 3⟩] := by
  constructor
  · have hrun : (Workspace.ranged? { program := threeVectors }).bind (fun u =>
        (Workspace.allocated? (.x64 .avx2) { program := pointerCall, live := u.live }).map
          fun (_, a, w') => (w'.violations (.x64 .avx2) a,
            match Workspace.insertSpills w' with
            | .ok _ _ => true
            | .error _ _ => false)) = some ([], false) := by
      decide +kernel
    obtain ⟨u, hu, hrun⟩ := Option.bind_eq_some_iff.mp hrun
    obtain ⟨⟨w, a, w'⟩, h, hrun⟩ := Option.map_eq_some_iff.mp hrun
    obtain ⟨hr, ha⟩ := Workspace.allocated?_eq_some h
    obtain ⟨hclean, hspills⟩ := Prod.mk.inj hrun
    refine ⟨u, w, a, w', Workspace.ranged?_eq_some hu, hr, ha, hclean, fun bs w'' hok => ?_⟩
    rw [hok] at hspills
    cases hspills
  · have hrun : (Workspace.allocated? (.x64 .avx2) { program := readElsewhere }).map (fun (_, a, w') =>
        (w'.violations (.x64 .avx2) a,
          match Workspace.insertSpills w' with
          | .ok _ w'' => some (w''.violations (.x64 .avx2) a)
          | .error _ _ => none)) = some ([], some [.consumedOutside "e" ⟨.vec, 0⟩ 1 ⟨3, 3⟩]) := by
      decide +kernel
    obtain ⟨⟨w, a, w'⟩, h, hrun⟩ := Option.map_eq_some_iff.mp hrun
    obtain ⟨hr, ha⟩ := Workspace.allocated?_eq_some h
    obtain ⟨hclean, hspills⟩ := Prod.mk.inj hrun
    cases hok : Workspace.insertSpills w' with
    | error fault w'' =>
      rw [hok] at hspills
      cases hspills
    | ok bs w'' =>
      rw [hok] at hspills
      exact ⟨w, a, w', bs, w'', hr, ha, hclean, hok, Option.some.inj hspills⟩

end TensorKernel
