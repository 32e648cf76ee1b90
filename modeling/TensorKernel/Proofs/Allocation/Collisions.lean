import TensorKernel.Proofs.Allocation.Pins

/-!
# How conventions fail

Pins ask for ports of parameters, results, buffers, reductions and views, and for the registers of the
values there. Where all of these exist, conventions fix a list of values, each to its register, and they fail
only by colliding: one register is fixed to two others, or to one of another bank.
-/

namespace TensorKernel

variable {fault : Fault} {v : ValueRef}

/-- Conventions do not agree about a register. -/
def Fault.isCollision : Fault → Bool
  | .pinConflict .. | .pinBank .. => true
  | _ => false

namespace Program

/-- What conventions fix is there. -/
structure Pinnable (p : Program) : Prop where
  /-- Inputs and uses refer to each other. -/
  linked : p.Linked
  /-- Nothing outside the program refers to it. -/
  closed : p.Closed
  /-- Every value has a register. -/
  registers : ∀ v, p.HasValue v → (p.abstractReg v).isDefined = true
  /-- Everything has an output, results and ends of loops apart. -/
  outputs : ∀ x ∈ p.order, ¬ p.IsSilent x → p.HasValue ⟨x, 0⟩
  /-- Results read something, and so do the views before them. -/
  results : ∀ id ∈ p.results, ∀ x ∈ id :: p.viewsBefore id, ∃ v, p.input x 0 = .ok v ∧ p.HasValue v
  /-- Reductions read something. -/
  reductions : ∀ x ∈ p.order, (p.expr x).role.isHorizontal = true → (p.expr x).inputs ≠ []

end Program

namespace Pins

open Program

variable {p : Program} {pins pins' : RegMap} {phys : Reg} {l : List (ValueRef × Reg)}

/-- A value with a register is pinned, or it is so elsewhere, or the banks differ. -/
theorem pin_cases (hv : (p.abstractReg v).isDefined = true) :
    ((p.abstractReg v).bank = phys.bank → (∀ earlier, pins.get? (p.abstractReg v) = some earlier →
      earlier = phys) → ∃ pins', pin p pins v phys = .ok pins') ∧
      ∀ fault, pin p pins v phys = .error fault → fault.isCollision = true := by
  simp only [pin, hv, Bool.not_true, Bool.false_eq_true, if_false]
  by_cases hbank : (p.abstractReg v).bank = phys.bank
  · rw [if_neg (Decidable.not_not.mpr hbank)]
    cases hget : pins.get? (p.abstractReg v) with
    | none => exact ⟨fun _ _ => ⟨_, rfl⟩, fun _ h => by cases h⟩
    | some earlier =>
      dsimp only
      split
      · exact ⟨fun _ _ => ⟨_, rfl⟩, fun _ h => by cases h⟩
      · rename_i hne
        refine ⟨fun _ hsame => absurd (hsame earlier rfl) hne, fun fault h => ?_⟩
        cases h
        rfl
  · rw [if_pos hbank]
    refine ⟨fun h => absurd h hbank, fun fault h => ?_⟩
    cases h
    rfl

/-- Values with registers fail to be pinned only by colliding. -/
theorem isCollision_of_pinEach (h : pinEach p pins l = .error fault)
    (hdefined : ∀ entry ∈ l, (p.abstractReg entry.1).isDefined = true) : fault.isCollision = true := by
  induction l generalizing pins with
  | nil => cases h
  | cons entry l ih =>
    rw [pinEach, List.foldlM_cons] at h
    cases hpin : pin p pins entry.1 entry.2 with
    | error fault' =>
      rw [hpin] at h
      cases h
      exact (pin_cases (hdefined entry List.mem_cons_self)).2 _ hpin
    | ok pins' =>
      rw [hpin] at h
      exact ih h fun other hother => hdefined other (List.mem_cons_of_mem _ hother)

/-- Values with registers can be pinned if the registers agree with each other and with their banks. -/
theorem pinEach_ok
    (hports : ∀ entry ∈ l, (p.abstractReg entry.1).isDefined = true ∧
      (p.abstractReg entry.1).bank = entry.2.bank)
    (hagree : ∀ entry ∈ l, ∀ other ∈ l, p.abstractReg entry.1 = p.abstractReg other.1 →
      entry.2 = other.2) : ∃ pins, pinEach p ∅ l = .ok pins := by
  -- What is pinned so far belongs to the list.
  suffices H : ∀ rest (pins : RegMap), (∀ entry ∈ rest, entry ∈ l) →
      (∀ r phys, pins.get? r = some phys → ∃ entry ∈ l, p.abstractReg entry.1 = r ∧ entry.2 = phys) →
      ∃ pins', pinEach p pins rest = .ok pins' from
    H l ∅ (fun _ h => h) fun _ _ h => nomatch h
  intro rest
  induction rest with
  | nil => exact fun pins _ _ => ⟨pins, rfl⟩
  | cons entry rest ih =>
    intro pins hrest hpinned
    have hentry := hrest entry List.mem_cons_self
    obtain ⟨hdefined, hbank⟩ := hports entry hentry
    obtain ⟨next, hpin⟩ : ∃ next, pin p pins entry.1 entry.2 = .ok next :=
      (pin_cases hdefined).1 hbank fun earlier hearlier => by
        obtain ⟨other, hother, hreg, rfl⟩ := hpinned _ _ hearlier
        exact hagree other hother entry hentry hreg
    obtain ⟨pins', hpins'⟩ := ih next (fun other hother => hrest other (List.mem_cons_of_mem _ hother))
      fun r phys hr => by
        rcases ((pin_eq_ok hpin).2 r phys).mp hr with hr | ⟨hreg, hphys⟩
        · exact hpinned r phys hr
        · exact ⟨entry, hentry, hreg, hphys⟩
    exact ⟨pins', by rw [pinEach, List.foldlM_cons, hpin]; exact hpins'⟩

end Pins

open Pins

namespace Program.Pinnable

variable {p : Program} (hp : p.Pinnable)

include hp

/-- What conventions ask for is there. -/
theorem asked : p.Asked := by
  have hviews : ∀ {id x}, id ∈ p.order → x ∈ p.viewsAfter id →
      (p.expr x).inputs ≠ [] ∧ p.HasValue ⟨x, 0⟩ := fun hid hx => by
    obtain ⟨hmem, hrole, hinputs⟩ := hp.closed.mem_viewsAfter hp.linked hid hx
    exact ⟨hinputs, hp.outputs _ hmem (by simp [IsSilent, hrole])⟩
  refine ⟨fun id hid x hx => ?_, fun id hid x hx => ?_, fun id hid => ⟨fun hrole => ?_, hp.reductions id hid⟩⟩
  · obtain ⟨hmem, hrole⟩ := List.mem_filter.mp hid
    have hrole : (p.expr id).role = .parameter := of_decide_eq_true hrole
    rcases List.mem_cons.mp hx with rfl | hx
    · exact hp.outputs _ hmem (by simp [IsSilent, hrole])
    · exact (hviews hmem hx).2
  · obtain ⟨_, hinput, _⟩ := hp.results id hid x hx
    exact inputs_ne_nil_of_input hinput
  · exact ⟨fun x hx => hviews hid hx, hp.outputs id hid (by simp [IsSilent, hrole])⟩

/-- So they pin the list of what is fixed. -/
theorem pins_eq : p.pins = pinEach p ∅ p.fixed := p.lists_pins.2 hp.asked

/-- What an expression reads exists. -/
theorem hasValue_source {x : ExprId} (hx : x ∈ p.order) {k : Nat}
    (h : (p.expr x).inputs[k]?.map (·.source) = some v) : p.HasValue v := by
  obtain ⟨i, hi, rfl⟩ := Option.map_eq_some_iff.mp h
  exact hp.linked.hasValue_source hx (List.mem_of_getElem? hi)

/-- What is fixed exists. -/
theorem hasValue_of_mem_fixed {entry : ValueRef × Reg} (h : entry ∈ p.fixed) : p.HasValue entry.1 := by
  obtain ⟨v, phys⟩ := entry
  obtain ⟨side, x, k, hfixes, hv⟩ := exists_fixes h
  -- A fill stands where the operand of a reduction stands.
  have hseeded : ∀ {n : Nat} {id filled seed}, p.reductions[n]? = some id → p.SeededBy id filled seed →
      p.HasValue filled ∧ p.HasValue seed := by
    intro n id filled seed hid hseeded
    obtain ⟨w, hw, hfilled⟩ := hseeded.operand
    obtain ⟨i, hi, rfl⟩ := List.mem_map.mp hfilled
    obtain ⟨j, hj, rfl⟩ := Option.map_eq_some_iff.mp (input_zero_eq_ok.mp hw)
    have hmem := hp.closed.sources _ (List.mem_filter.mp (List.mem_of_getElem? hid)).1 j
      (List.mem_of_getElem? hj)
    exact ⟨hp.linked.hasValue_source hmem hi,
      hp.hasValue_source (hp.closed.sources _ hmem i hi) (input_zero_eq_ok.mp hseeded.read)⟩
  cases hfixes with
  | parameter hn hx =>
    cases hv
    exact hp.asked.parameters _ (List.mem_of_getElem? hn) _ hx
  | result hn hx =>
    obtain ⟨w, hw, hvalue⟩ := hp.results _ (List.mem_of_getElem? hn) _ hx
    cases hv.symm.trans (input_zero_eq_ok.mp hw)
    exact hvalue
  | buffer hid _ => exact hp.hasValue_source (List.mem_filter.mp hid).1 hv
  | view hid hx =>
    exact hp.hasValue_source (hp.closed.mem_viewsAfter hp.linked (List.mem_filter.mp hid).1 hx).1 hv
  | @memory id _ hid hx =>
    cases hv
    obtain ⟨hmem, hrole⟩ := List.mem_filter.mp hid
    obtain ⟨hviews, hself⟩ := (hp.asked.exprs id hmem).1 (of_decide_eq_true hrole)
    rcases List.mem_cons.mp hx with rfl | hx
    · exact hself
    · exact (hviews _ hx).2
  | reduction hn => exact hp.hasValue_source (List.mem_filter.mp (List.mem_of_getElem? hn)).1 hv
  | filled hn hs =>
    cases hv
    exact (hseeded hn hs).1
  | seed hn hs =>
    cases hv.symm.trans (input_zero_eq_ok.mp hs.read)
    exact (hseeded hn hs).2

/-- So conventions fail only by colliding. -/
theorem isCollision_of_pins (h : p.pins = .error fault) : fault.isCollision = true := by
  rw [hp.pins_eq] at h
  exact isCollision_of_pinEach h fun entry hentry => hp.registers _ (hp.hasValue_of_mem_fixed hentry)

end Program.Pinnable

end TensorKernel
