import TensorKernel.Proofs.Liveness.Exact

/-!
# Registers and their holders

A register that was handed out is held by a value: by the first value of a boundary pointer, or by the
output at which its alias group was met. Registers of the second kind begin where that output is produced.
So they have different intervals if no expression has two outputs. The values of a pointer are in general
purpose registers if pointers stay apart, and any other value is in the bank of its group.
-/

namespace TensorKernel

variable {i : Interval} {values : List ValueRef} {r : Reg} {v : ValueRef}

theorem Role.bank_cases (role : Role) (h : role.bank ≠ .undefined) :
    role.bank = .gpr ∨ role.bank = .vec := by
  cases role <;> simp_all [Role.bank]

namespace Program

/-- Boundary pointers that share a value are the same. -/
def PointersApart (p : Program) : Prop :=
  ∀ values others, p.IsPointer values → p.IsPointer others →
    ∀ v ∈ values, v ∈ others.flatMap p.aliasGroup → values = others

/-- No expression has two outputs. -/
def SingleOutputs (p : Program) : Prop := ∀ x ∈ p.order, (p.expr x).outputs.length ≤ 1

variable {p : Program}

/-- The values of a pointer are values of the program. -/
theorem IsPointer.owns_mem (hl : p.Linked) (hc : p.Closed) (h : p.IsPointer values) (hv : v ∈ values) :
    p.Owns v := by
  cases h with
  | @parameter id _ hid hvalues =>
    have hid := List.mem_of_mem_filter hid
    obtain ⟨x, hx, houtput⟩ := exists_of_mem_pointer (f := (p.output · 0)) hvalues hv
    obtain ⟨hvalue, rfl⟩ := output_zero_eq_ok.mp houtput
    rcases List.mem_cons.mp hx with rfl | hx
    · exact ⟨hid, hvalue⟩
    · exact ⟨(hc.mem_viewsAfter hl hid hx).1, hvalue⟩
  | @result id _ hid hvalues =>
    have hid := List.mem_of_mem_filter hid
    obtain ⟨x, hx, hinput⟩ := exists_of_mem_pointer (f := (p.input · 0)) hvalues hv
    have hmem := hc.mem_viewsBefore hid hx
    obtain ⟨i, hi, rfl⟩ := Option.map_eq_some_iff.mp (input_zero_eq_ok.mp hinput)
    have hi := List.mem_of_getElem? hi
    exact ⟨hc.sources x hmem i hi, hl.hasValue_source hmem hi⟩

end Program

open Program

namespace RangeState

/-- How a value holds a register from a position on: it is the first value of a boundary pointer, or it
is produced there and was looked at. -/
def HoldsFrom (p : Program) (done : List ExprId) (current : Option (ExprId × Nat)) (v : ValueRef)
    (position : Int) : Prop :=
  (∃ values, p.IsPointer (v :: values)) ∨
    Passed done current v ∧ (p.expr v.producer).exec = position

/-- Every register with an interval is held by a value. -/
def Held (p : Program) (done : List ExprId) (current : Option (ExprId × Nat)) (s : RangeState) : Prop :=
  ∀ r i, s.live.ranges.get? r = some i →
    ∃ v, s.program.abstractReg v = r ∧ p.Owns v ∧ HoldsFrom p done current v i.start

variable {p : Program} {s s₀ u : RangeState} {done done' : List ExprId}
  {current current' : Option (ExprId × Nat)} {bank : Bank} {range : Interval}

/-- Registers are handed out of two banks. -/
theorem Reached.banked (hnew : s₀.live.ranges = ∅) (h : Reached p s₀ u done current s)
    (hi : s.live.ranges.get? r = some i) : r.bank = .gpr ∨ r.bank = .vec := by
  induction h with
  | start =>
    rw [hnew] at hi
    cases hi
  | pointer _ _ _ _ ih =>
    rw [get?_handOut] at hi
    split at hi
    · rename_i heq
      exact .inl (heq ▸ rfl)
    · exact ih hi
  | give _ _ _ hbank _ ih =>
    rw [get?_handOut] at hi
    split at hi
    · rename_i heq
      exact heq ▸ Role.bank_cases _ hbank
    · exact ih hi
  | silent _ _ _ ih | enter _ _ _ ih | keep _ _ _ ih | leave _ ih => exact ih hi

/-- Holders stay when more is looked at. -/
theorem Held.mono (h : s.Held p done current)
    (hpassed : ∀ v, Passed done current v → Passed done' current' v) : s.Held p done' current' := by
  intro r i hi
  obtain ⟨v, hreg, hv, hholds⟩ := h r i hi
  exact ⟨v, hreg, hv, hholds.imp_right fun hp => ⟨hpassed v hp.1, hp.2⟩⟩

/-- A register is handed out to values that held none, one of which holds it from its start on. -/
theorem Held.handOut (h : s.Held p done current)
    (hdefined : ∀ r i, s.live.ranges.get? r = some i → r.isDefined = true)
    (hbare : s.program.bare = p.bare)
    (hfree : ∀ v position, p.Owns v → HoldsFrom p done current v position →
      (s.program.abstractReg v).isDefined = true → v ∉ values)
    {holder : ValueRef} (hmem : holder ∈ values) (howns : p.Owns holder)
    (hholds : HoldsFrom p done current holder range.start) :
    (s.handOut bank values range).Held p done current := by
  intro r i hi
  have hreg : ∀ v, (s.handOut bank values range).program.abstractReg v =
      if v ∈ values ∧ s.program.HasValue v then ⟨bank, s.counts bank⟩ else s.program.abstractReg v :=
    fun v => s.program.abstractReg_giveAll ..
  rw [get?_handOut] at hi
  split at hi
  · rename_i heq
    cases hi
    subst heq
    refine ⟨holder, ?_, howns, hholds⟩
    rw [hreg, if_pos ⟨hmem, (hasValue_congr hbare holder).mpr howns.2⟩]
  · obtain ⟨v, hv, hvowns, hvholds⟩ := h r i hi
    have hvd : (s.program.abstractReg v).isDefined = true := hv ▸ hdefined r i hi
    exact ⟨v, by rw [hreg, if_neg fun hm => hfree v _ hvowns hvholds hvd hm.1, hv], hvowns, hvholds⟩

/-- In every state of the computation each register has its holder, if pointers stay apart. -/
theorem Reached.held (hl : p.Linked) (hg : p.Grouped) (hc : p.Closed) (he : p.Enumerated)
    (apart : p.PointersApart) (hs : s₀.Inv p) (hnew : s₀.live.ranges = ∅)
    (h : Reached p s₀ u done current s) : s.Held p done current := by
  have hdefined : ∀ {u s : RangeState} {done current}, Reached p s₀ u done current s →
      ∀ r i, s.live.ranges.get? r = some i → r.isDefined = true := by
    intro u s done current hreached r i hi
    rcases hreached.banked hnew hi with hr | hr <;> simp [Reg.isDefined, hr]
  induction h with
  | start =>
    intro r i hi
    rw [hnew] at hi
    cases hi
  | @pointer values s hreached hvalues hnone _ ih =>
    have hbare := hreached.bare hs.bare
    obtain ⟨first, rest, rfl⟩ := hvalues.exists_first
    have howns := hvalues.owns hl hc
    refine ih.handOut (hdefined hreached) hbare (fun v position hv hholds hd hm => ?_)
      (List.mem_flatMap.mpr ⟨first, List.mem_cons_self, (hg first howns.2).1⟩) howns
      (.inl ⟨rest, hvalues⟩)
    rcases hholds with ⟨others, hpointer⟩ | ⟨hpassed, _⟩
    · have heq := apart _ _ hpointer hvalues v List.mem_cons_self hm
      rw [hnone v (by rw [← heq]; rfl)] at hd
      cases hd
    · simp [Passed] at hpassed
  | silent _ _ _ ih =>
    refine Held.mono (fun r i hi => ih r i hi) fun v hp => ?_
    rcases hp with hp | ⟨_, hcurrent, _⟩
    · exact .inl (List.mem_append_left _ hp)
    · cases hcurrent
  | enter _ _ _ ih =>
    refine Held.mono (fun r i hi => ih r i hi) fun v hp => ?_
    rcases hp with hp | ⟨_, hcurrent, _⟩
    · exact .inl hp
    · cases hcurrent
  | keep _ _ _ ih => exact ih.mono fun _ => passed_mono
  | @give done id k _ s hreached hvalue hd _ _ ih =>
    obtain ⟨_, rest, horder⟩ := hreached.current
    have hid : id ∈ p.order := by simp [horder]
    have hinv := (hreached.inv hl hg he hs).1
    refine (ih.mono fun _ => passed_mono).handOut (hdefined hreached)
      (hreached.bare hs.bare) (fun v position hv _ hvd hm => ?_) (hg _ hvalue).1 ⟨hid, hvalue⟩
      (.inr ⟨.inr ⟨k + 1, rfl, Nat.lt_succ_self k⟩, rfl⟩)
    -- The group would have a register then.
    rw [hinv.uniform _ v hm hid hv.1, hd] at hvd
    cases hvd
  | @leave done id _ s hreached ih =>
    refine ih.mono fun v hp => .inl ?_
    rcases hp with hp | ⟨k, hcurrent, _⟩
    · exact List.mem_append_left _ hp
    · cases hcurrent
      exact List.mem_append_right _ (List.mem_singleton.mpr rfl)

/-! ### Banks -/

/-- Every value of a boundary pointer is in a general purpose register. -/
def PointersHeld (p : Program) (s : RangeState) : Prop :=
  ∀ values, p.IsPointer values → ∀ v ∈ values, (s.program.abstractReg v).bank = .gpr

/-- While pointers are assigned, those whose first value has a register are in general purpose
registers. -/
theorem Reached.bank_of_first (hg : p.Grouped) (apart : p.PointersApart) (hs : s₀.program.bare = p.bare)
    (hfree : ∀ v, p.Owns v → (s₀.program.abstractReg v).isDefined = false) (hl : p.Linked) (hc : p.Closed)
    (h : Reached p s₀ u done current s) {first : ValueRef} {rest : List ValueRef}
    (hp : p.IsPointer (first :: rest)) (hd : (u.program.abstractReg first).isDefined = true)
    (hv : v ∈ first :: rest) : (u.program.abstractReg v).bank = .gpr := by
  have hvalue := (hp.owns_mem hl hc hv).2
  induction h with
  | start =>
    rw [hfree first (hp.owns hl hc)] at hd
    cases hd
  | @pointer values s hreached hvalues _ _ ih =>
    have hreg : ∀ x, (s.handOut .gpr (values.flatMap p.aliasGroup) ⟨0, p.length - 1⟩).program.abstractReg x =
        if x ∈ values.flatMap p.aliasGroup ∧ s.program.HasValue x then ⟨.gpr, s.counts .gpr⟩
        else s.program.abstractReg x := fun x => s.program.abstractReg_giveAll ..
    have hhas := (hasValue_congr (hreached.bare hs) v).mpr hvalue
    by_cases hsame : first :: rest = values
    · rw [hreg, if_pos ⟨List.mem_flatMap.mpr ⟨v, hsame ▸ hv, (hg v hvalue).1⟩, hhas⟩]
    · have hout : ∀ x ∈ first :: rest, x ∉ values.flatMap p.aliasGroup := fun x hx hm =>
        hsame (apart _ _ hp hvalues x hx hm)
      rw [hreg, if_neg fun hm => hout first List.mem_cons_self hm.1] at hd
      rw [hreg, if_neg fun hm => hout v hv hm.1]
      exact ih hd
  | silent _ _ _ ih | enter _ _ _ ih | keep _ _ _ ih | give _ _ _ _ _ ih | leave _ ih => exact ih hd

/-- Once all pointers are in general purpose registers, they stay there. -/
theorem Reached.pointersHeld (hl : p.Linked) (hg : p.Grouped) (hc : p.Closed) (he : p.Enumerated)
    (hs : s₀.Inv p) (h : Reached p s₀ u done current s) (hheld : u.PointersHeld p) : s.PointersHeld p := by
  induction h with
  | start | pointer => exact hheld
  | @give done id k _ s hreached _ hd _ _ ih =>
    intro values hvalues v hv
    obtain ⟨_, rest, horder⟩ := hreached.current
    have hgpr := ih hheld values hvalues v hv
    refine (congrArg Reg.bank (s.program.abstractReg_giveAll ..)).trans ?_
    rw [if_neg, hgpr]
    -- The group would have a register then.
    rintro ⟨hm, _⟩
    have hsame := (hreached.inv hl hg he hs).1.uniform _ v hm (by simp [horder])
      (hvalues.owns_mem hl hc hv).1
    rw [← hsame, Reg.isDefined, hgpr] at hd
    cases hd
  | silent _ _ _ ih | enter _ _ _ ih | keep _ _ _ ih | leave _ ih => exact ih hheld

/-- A value with a register belongs to a pointer, or its register is of the bank of a value of its group. -/
theorem Reached.bank_cases (hg : p.Grouped)
    (hfree : ∀ v, p.Owns v → (s₀.program.abstractReg v).isDefined = false) (h : Reached p s₀ u done current s)
    (hv : p.Owns v) (hd : (s.program.abstractReg v).isDefined = true) :
    (∃ values, p.IsPointer values ∧ v ∈ values.flatMap p.aliasGroup) ∨
      ∃ x ∈ p.aliasGroup v, (s.program.abstractReg v).bank = (p.expr x.producer).role.bank := by
  induction h with
  | start =>
    rw [hfree v hv] at hd
    cases hd
  | @pointer values s _ hvalues _ _ ih =>
    by_cases hm : v ∈ values.flatMap p.aliasGroup
    · exact .inl ⟨values, hvalues, hm⟩
    · have hreg : (s.handOut .gpr (values.flatMap p.aliasGroup) ⟨0, p.length - 1⟩).program.abstractReg v =
          s.program.abstractReg v := (s.program.abstractReg_giveAll ..).trans (if_neg fun h => hm h.1)
      rw [hreg] at hd ⊢
      exact ih hd
  | @give done id k _ s _ _ _ _ _ ih =>
    have hreg : (s.handOut (p.expr id).role.bank (p.aliasGroup ⟨id, k⟩)
        (p.groupRange ⟨id, k⟩)).program.abstractReg v = _ := s.program.abstractReg_giveAll ..
    rw [hreg] at hd ⊢
    split
    · rename_i hm
      exact .inr ⟨⟨id, k⟩, hg.mem_symm hm.1, rfl⟩
    · rename_i hm
      rw [if_neg hm] at hd
      exact ih hd
  | silent _ _ _ ih | enter _ _ _ ih | keep _ _ _ ih | leave _ ih => exact ih hd

end RangeState

namespace Workspace

variable {p : Program} {w : Workspace}

/-- Registers with live ranges are of two banks. -/
theorem bank_of_computeRanges (ranged : computeRanges { program := p } = .ok () w)
    (hr : w.live.ranges.contains r = true) : r.bank = .gpr ∨ r.bank = .vec := by
  obtain ⟨i, hi⟩ := Option.isSome_iff_exists.mp hr
  obtain ⟨_, s, u, rfl, _, hreached⟩ := reached_of_computeRanges ranged
  exact hreached.banked rfl hi

/-- Every register with a live range has its holder, if pointers stay apart. -/
theorem held_of_computeRanges (fresh : p.Fresh) (linked : p.Linked) (grouped : p.Grouped)
    (closed : p.Closed) (apart : p.PointersApart) (ranged : computeRanges { program := p } = .ok () w)
    (hi : w.live.ranges.get? r = some i) : ∃ v, w.program.abstractReg v = r ∧ p.Owns v ∧
      ((∃ values, p.IsPointer (v :: values)) ∨ (p.expr v.producer).exec = i.start) := by
  obtain ⟨he, s, u, rfl, _, hreached⟩ := reached_of_computeRanges ranged
  obtain ⟨v, hreg, hv, hholds⟩ := hreached.held linked grouped closed he apart
    (RangeStep.inv_start fresh rfl) rfl r i hi
  exact ⟨v, hreg, hv, hholds.imp_right And.right⟩

/-- The values of pointers are in general purpose registers, if pointers stay apart. -/
theorem bank_of_isPointer (fresh : p.Fresh) (linked : p.Linked) (grouped : p.Grouped) (closed : p.Closed)
    (apart : p.PointersApart) (ranged : computeRanges { program := p } = .ok () w) (hp : p.IsPointer values)
    (hv : v ∈ values) : (w.program.abstractReg v).bank = .gpr := by
  obtain ⟨he, s, u, rfl, hglobals, hreached⟩ := reached_of_computeRanges ranged
  have hinv := RangeStep.inv_start (s := { program := p }) fresh rfl
  refine hreached.pointersHeld linked grouped closed he hinv (fun others hothers x hx => ?_) values hp v hv
  obtain ⟨first, rest, rfl⟩ := hothers.exists_first
  have hfirst := RangeState.throughout_assignGlobals linked grouped closed he hinv rfl hglobals hothers
  refine hreached.bank_of_first grouped apart ?_ (fun y hy => ?_) linked closed hothers hfirst.1 hx
  · rfl
  · exact congrArg Reg.isDefined (fresh.abstractReg hy.1)

/-- A value that belongs to no pointer is in the bank of a value of its group. -/
theorem bank_of_computeRanges_of_group (fresh : p.Fresh) (grouped : p.Grouped)
    (ranged : computeRanges { program := p } = .ok () w) (hv : p.Owns v)
    (hd : (w.program.abstractReg v).isDefined = true) :
    (∃ values, p.IsPointer values ∧ v ∈ values.flatMap p.aliasGroup) ∨
      ∃ x ∈ p.aliasGroup v, (w.program.abstractReg v).bank = (p.expr x.producer).role.bank := by
  obtain ⟨_, s, u, rfl, _, hreached⟩ := reached_of_computeRanges ranged
  refine hreached.bank_cases grouped (fun y hy => ?_) hv hd
  exact congrArg Reg.isDefined (fresh.abstractReg hy.1)

/-- Registers with the same interval that hold no pointer are the same. -/
theorem eq_of_range_eq (fresh : p.Fresh) (linked : p.Linked) (grouped : p.Grouped) (closed : p.Closed)
    (apart : p.PointersApart) (single : p.SingleOutputs)
    (ranged : computeRanges { program := p } = .ok () w) {a b : Reg} (ha : w.live.ranges.get? a = some i)
    (hb : w.live.ranges.get? b = some i) (hpointer : ∀ v values, p.IsPointer (v :: values) →
      w.program.abstractReg v ≠ a ∧ w.program.abstractReg v ≠ b) : a = b := by
  obtain ⟨v, hv, hvowns, hvstart⟩ := held_of_computeRanges fresh linked grouped closed apart ranged ha
  obtain ⟨x, hx, hxowns, hxstart⟩ := held_of_computeRanges fresh linked grouped closed apart ranged hb
  have hvstart := hvstart.resolve_left fun ⟨values, hp⟩ => (hpointer v values hp).1 hv
  have hxstart := hxstart.resolve_left fun ⟨values, hp⟩ => (hpointer x values hp).2 hx
  obtain ⟨he, _⟩ := reached_of_computeRanges ranged
  have hproducer : v.producer = x.producer := by
    obtain ⟨j, hj⟩ := List.mem_iff_getElem?.mp hvowns.1
    obtain ⟨k, hk⟩ := List.mem_iff_getElem?.mp hxowns.1
    have hjk : (j : Int) = k :=
      ((he j _ hj).symm.trans (hvstart.trans hxstart.symm)).trans (he k _ hk)
    obtain rfl : j = k := by omega
    exact Option.some.inj (hj.symm.trans hk)
  have hvzero : v.output = 0 :=
    Nat.lt_one_iff.mp (Nat.lt_of_lt_of_le hvowns.2 (single _ hvowns.1))
  have hxzero : x.output = 0 :=
    Nat.lt_one_iff.mp (Nat.lt_of_lt_of_le hxowns.2 (single _ hxowns.1))
  have hvalue : v = x := by
    cases v
    cases x
    simp_all
  rw [← hv, ← hx, hvalue]

end Workspace

end TensorKernel
