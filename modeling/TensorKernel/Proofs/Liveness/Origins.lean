import TensorKernel.Proofs.Liveness.BoundaryRegs

/-!
# Where intervals come from

Every interval that is recorded belongs to a boundary pointer, if its register was given to one, and
otherwise to an alias group that was met at one of its members. No value outside a pointer holds the
register of the pointer, and the member at which a group was met holds the register of the group. Every
port has the register that it had from the start, or one that was recorded.
-/

namespace TensorKernel

open Program

variable {i : Interval} {r : Reg} {v : ValueRef} {w w₀ : Workspace}

namespace Program

/-- The register of a boundary pointer: no value outside the pointer and its aliases holds it. The
registers are those of `q`. -/
def PointerReg (p q : Program) (r : Reg) : Prop :=
  ∃ values, p.IsPointer values ∧
    ∀ x, p.Sees q x → q.abstractReg x = r → x ∈ values.flatMap p.aliasGroup

/-- The alias group of a value was met at the value, before any other member that gets a register. It
was given the register `r` with an interval, and the value still holds it. The registers are those of
`q`. -/
structure MetAt (p q : Program) (r : Reg) (i : Interval) (v : ValueRef) : Prop where
  owns : p.Owns v
  not_isSilent : ¬ p.IsSilent v.producer
  first : ∀ m ∈ p.aliasGroup v, p.Owns m → ¬ p.IsSilent m.producer →
    (p.expr v.producer).exec ≤ (p.expr m.producer).exec
  holds : q.abstractReg v = r
  isDefined : r.isDefined = true
  range : i = p.groupRange v

/-- A register of a program, which stays as it is or becomes the register that is given to values. -/
def ReadsReg (read : Program → Reg) : Prop :=
  ∀ q r values, read (giveAll q r values) = r ∨ read (giveAll q r values) = read q

theorem readsReg_abstractReg (v : ValueRef) : ReadsReg (·.abstractReg v) := by
  intro q r values
  dsimp only
  rw [abstractReg_giveAll]
  split
  · exact .inl rfl
  · exact .inr rfl

theorem readsReg_inputReg (u : UseRef) : ReadsReg (·.inputReg u) := by
  intro q r values
  dsimp only
  by_cases hu : q.HasUse u
  · by_cases hgiven : ∃ v ∈ values, u ∈ q.uses v
    · obtain ⟨v, hv, huse⟩ := hgiven
      exact .inl (inputReg_giveAll_of_mem hv huse hu)
    · exact .inr (inputReg_giveAll_of_forall fun v hv huse => hgiven ⟨v, hv, huse⟩)
  · right
    rw [inputReg_of_not_hasUse hu, inputReg_of_not_hasUse]
    rwa [hasUse_congr (bare_giveAll ..)]

end Program

namespace RangeState

variable {p : Program} {s₀ u s : RangeState} {done : List ExprId} {current : Option (ExprId × Nat)}
  {bank : Bank} {values : List ValueRef} {range : Interval}

/-- Handing out another register leaves the register of a pointer to it. -/
theorem pointerReg_handOut (hl : p.Linked) (hinv : s.Inv p) (h : p.PointerReg s.program r)
    (hne : (⟨bank, s.counts bank⟩ : Reg) ≠ r) :
    p.PointerReg (s.handOut bank values range).program r := by
  obtain ⟨pointer, hpointer, hholders⟩ := h
  refine ⟨pointer, hpointer, fun x hsees hx => ?_⟩
  have hreg := s.program.abstractReg_giveAll ⟨bank, s.counts bank⟩ values x
  by_cases hgiven : x ∈ values ∧ s.program.HasValue x
  · rw [if_pos hgiven] at hreg
    exact absurd (hreg.symm.trans hx) hne
  · rw [if_neg hgiven] at hreg
    refine hholders x ?_ (hreg.symm.trans hx)
    by_cases hvalue : s.program.HasValue x
    · exact RangeStep.sees_of_not_mem hl hinv rfl (fun hm => hgiven ⟨hm, hvalue⟩) hsees
    · rcases hsees with hsees | ⟨u, hu, _⟩
      · exact .inl hsees
      · exact absurd ((hasValue_congr hinv.bare x).mpr (.of_mem_uses hu)) hvalue

/-- Only values that it was given to hold the register that was handed out. -/
theorem mem_of_abstractReg_handOut (hl : p.Linked) (hinv : s.Inv p) (hbank : bank ≠ .undefined)
    {x : ValueRef} (hsees : p.Sees (s.handOut bank values range).program x)
    (hx : (s.handOut bank values range).program.abstractReg x = ⟨bank, s.counts bank⟩) :
    x ∈ values := by
  refine Decidable.byContradiction fun hout => ?_
  have hreg := s.program.abstractReg_giveAll ⟨bank, s.counts bank⟩ values x
  rw [if_neg fun hm => hout hm.1] at hreg
  have hs := RangeStep.sees_of_not_mem hl hinv rfl hout hsees
  have hcounted := hinv.counted x hs
  rw [hreg.symm.trans hx] at hcounted
  exact Int.lt_irrefl _ (hcounted (by simpa [Reg.isDefined] using hbank))

/-- The registers that were recorded before the visits are live throughout. -/
theorem Reached.range_eq (h : Reached p s₀ u done current s) (hnew : s₀.live.ranges.get? r = none)
    (hi : u.live.ranges.get? r = some i) : i = ⟨0, p.length - 1⟩ := by
  induction h with
  | start =>
    rw [hnew] at hi
    cases hi
  | pointer _ _ _ _ ih =>
    rw [get?_handOut] at hi
    split at hi
    · cases hi
      rfl
    · exact ih hi
  | silent _ _ _ ih | enter _ _ _ ih | keep _ _ _ ih | give _ _ _ _ _ ih | leave _ ih => exact ih hi

/-- They are those of pointers, and stay so. -/
theorem Reached.pointerReg (hl : p.Linked) (hg : p.Grouped) (he : p.Enumerated) (hs : s₀.Inv p)
    (h : Reached p s₀ u done current s) (hnew : s₀.live.ranges.get? r = none)
    (hi : u.live.ranges.get? r = some i) : p.PointerReg s.program r := by
  induction h with
  | start =>
    rw [hnew] at hi
    cases hi
  | @pointer values u hreached hvalues _ _ ih =>
    have hinv := (hreached.inv hl hg he hs).1
    rw [get?_handOut] at hi
    split at hi
    · rename_i hr
      subst hr
      exact ⟨values, hvalues, fun x hsees hx =>
        mem_of_abstractReg_handOut hl hinv (by decide) hsees hx⟩
    · rename_i hne
      exact pointerReg_handOut hl hinv (ih hi) hne
  | give hreached _ _ _ htakes ih =>
    exact pointerReg_handOut hl (hreached.inv hl hg he hs).1 (ih hi)
      (htakes.ne (hreached.visits.get?_ranges hi))
  | silent _ _ _ ih | enter _ _ _ ih | keep _ _ _ ih | leave _ ih => exact ih hi

/-- The registers that were recorded by the visits are those of groups, and stay with them. -/
theorem Reached.metAt (hl : p.Linked) (hg : p.Grouped) (he : p.Enumerated) (hs : s₀.Inv p)
    (h : Reached p s₀ u done current s) (hb : u.live.ranges.get? r = none)
    (hi : s.live.ranges.get? r = some i) : ∃ v, p.MetAt s.program r i v := by
  induction h with
  | start | pointer =>
    rw [hb] at hi
    cases hi
  | @give done id k u s hreached hvalue hd hbank _ ih =>
    obtain ⟨hinv, hvisited⟩ := hreached.inv hl hg he hs
    obtain ⟨hsilent, rest, horder⟩ := hreached.current
    have hid : id ∈ p.order := by simp [horder]
    have hreg : ∀ x, (s.handOut (p.expr id).role.bank (p.aliasGroup ⟨id, k⟩)
        (p.groupRange ⟨id, k⟩)).program.abstractReg x = _ := fun x => s.program.abstractReg_giveAll ..
    rw [get?_handOut] at hi
    split at hi
    · rename_i hr
      cases hi
      refine ⟨⟨id, k⟩, ⟨hid, hvalue⟩, hsilent,
        fun m hm hmo hns => hvisited.first he hinv horder hd hm hmo hns, ?_, ?_, rfl⟩
      · rw [hreg, if_pos ⟨(hg _ hvalue).1, (hasValue_congr hinv.bare _).mpr hvalue⟩, hr]
      · rw [← hr]
        simpa [Reg.isDefined] using hbank
    · obtain ⟨v, hv⟩ := ih hb hi
      refine ⟨v, hv.owns, hv.not_isSilent, hv.first, ?_, hv.isDefined, hv.range⟩
      rw [hreg, if_neg, hv.holds]
      -- The group of the output would have a register.
      rintro ⟨hm, _⟩
      have hdefined := hv.isDefined
      rw [← hv.holds, hinv.uniform _ v hm hid hv.owns.1, hd] at hdefined
      cases hdefined
  | silent _ _ _ ih | enter _ _ _ ih | keep _ _ _ ih | leave _ ih => exact ih hb hi

/-- A register `r` is the register `r₀` that was there before, or was recorded since `s₀`. -/
def Recorded (s s₀ : RangeState) (r₀ r : Reg) : Prop :=
  r = r₀ ∨ s₀.live.ranges.get? r = none ∧ s.live.ranges.contains r = true

theorem Recorded.handOut {r₀ r' : Reg} (h : s.Recorded s₀ r₀ r)
    (hnew : s₀.live.ranges.get? ⟨bank, s.counts bank⟩ = none)
    (hr : r' = ⟨bank, s.counts bank⟩ ∨ r' = r) : (s.handOut bank values range).Recorded s₀ r₀ r' := by
  unfold Recorded
  rw [contains_handOut]
  rcases hr with rfl | rfl
  · exact .inr ⟨hnew, .inl rfl⟩
  · exact h.imp_right (And.imp_right .inr)

/-- A register of the program is as it was from the start, or was recorded since. -/
theorem Reached.recorded {read : Program → Reg} (hread : ReadsReg read)
    (h : Reached p s₀ u done current s) : s.Recorded s₀ (read s₀.program) (read s.program) := by
  induction h with
  | start => exact .inl rfl
  | pointer hreached _ _ htakes ih | give hreached _ _ _ htakes ih =>
    exact ih.handOut (hreached.get?_eq_none htakes.get?_eq_none) (hread ..)
  | silent _ _ _ ih | enter _ _ _ ih | keep _ _ _ ih | leave _ ih => exact ih

end RangeState

namespace Workspace

/-- The register that a value of the program got had no interval before. -/
theorem unrecorded_of_computeRanges (hf : w₀.program.Fresh) (h : computeRanges w₀ = .ok () w)
    (hv : w₀.program.Owns v) (hd : (w.program.abstractReg v).isDefined = true) :
    w₀.live.ranges.get? (w.program.abstractReg v) = none := by
  obtain ⟨_, s, u, rfl, _, hreached⟩ := reached_of_computeRanges h
  rcases hreached.recorded (readsReg_abstractReg v) with hsame | ⟨hnew, _⟩
  · rw [hsame, hf.abstractReg hv.1] at hd
    cases hd
  · exact hnew

/-- A new interval belongs to a boundary pointer if its register was given to one, and otherwise to an
alias group. -/
theorem range_cases (hf : w₀.program.Fresh) (hl : w₀.program.Linked) (hg : w₀.program.Grouped)
    (h : computeRanges w₀ = .ok () w) (hnew : w₀.live.ranges.get? r = none)
    (hi : w.live.ranges.get? r = some i) :
    (∃ n, w₀.GivesPointer n r) ∧ i = ⟨0, w₀.program.length - 1⟩ ∧
        w₀.program.PointerReg w.program r ∨
      (¬ ∃ n, w₀.GivesPointer n r) ∧ ∃ v, w₀.program.MetAt w.program r i v := by
  obtain ⟨he, s, u, rfl, hglobals, hreached⟩ := reached_of_computeRanges h
  have hstart : RangeState.Inv w₀.program { toWorkspace := w₀ } := RangeStep.inv_start hf rfl
  rw [← (RangeState.bounded_assignGlobals hglobals).contains_iff hnew, RegTable.contains]
  cases hu : u.live.ranges.get? r with
  | some j =>
    cases (hreached.visits.get?_ranges hu).symm.trans hi
    exact .inl ⟨rfl, hreached.range_eq hnew hu, hreached.pointerReg hl hg he hstart hnew hu⟩
  | none => exact .inr ⟨by simp, hreached.metAt hl hg he hstart hu hi⟩

end Workspace

end TensorKernel
