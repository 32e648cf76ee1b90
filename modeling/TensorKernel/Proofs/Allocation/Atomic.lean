import TensorKernel.Proofs.Allocation.Progress
import TensorKernel.Proofs.Faults

/-!
# Assignment is all or nothing

Registers are chosen without a change to the program, and written afterwards. When live ranges have been
computed for a program without registers, every register at a port or in a live set has a live range, so
what was chosen can be written everywhere: the assignment is refused before its first change or not at
all. Inputs and uses need not refer to each other for this, and alias groups may be anything.
-/

namespace TensorKernel

open Program

/-- Whether a refusal is for a port or a live set with a register that is not mapped. -/
def Refusal.ofWriting : Refusal → Bool
  | .fault f => f.ofWriting
  | .shortage _ => false

/-- Whether a refusal is for a name that is in use already. -/
def Refusal.ofNames : Refusal → Bool
  | .fault f => f.ofNames
  | .shortage _ => false

/-- The refusals that come from choosing registers. -/
def Refusal.IsOfChoice (refusal : Refusal) : Prop :=
  refusal.ofNames = false ∧ refusal.ofWriting = false

section

open Outcome

theorem LinearScan.doneUnless_allocate (ranges : RegTable Interval) :
    DoneUnless Refusal.IsOfChoice (allocate ranges) := by
  have hplace : ∀ l, DoneUnless Refusal.IsOfChoice (place l) := by
    intro l s refusal t h
    rw [place_eq] at h
    split at h
    · cases h
      exact ⟨rfl, rfl⟩
    · split at h
      · cases h
        exact ⟨rfl, rfl⟩
      · cases h
  refine .bind .get fun s => ?_
  dsimp only
  split
  · exact .throw ⟨rfl, rfl⟩
  · split
    · exact .throw ⟨rfl, rfl⟩
    · exact .bind (.forM hplace _) fun _ => .bind .get fun _ => .pure _

namespace Allocation

variable (m : Machine)

theorem answeredUnless_allocateBank (name : Label) (ranges : RegTable Interval) (pins : RegMap)
    (bank : Bank) : AnsweredUnless Refusal.IsOfChoice (allocateBank name m ranges pins bank) := by
  unfold allocateBank
  dsimp only
  split
  · exact .error ⟨rfl, rfl⟩
  · refine .bind (.mapError ?_) fun scan => ?_
    · unfold LinearScan.start
      dsimp only
      split
      · exact .error ⟨rfl, rfl⟩
      · exact .ok _
    · split
      · exact .ok _
      · exact .error ⟨rfl, rfl⟩
      · rename_i refusal t _ hrefused
        exact .error (LinearScan.doneUnless_allocate _ _ _ _ hrefused)

/-- Choosing registers is refused neither for names nor for writing them. -/
theorem isOfChoice_of_choose (w : Workspace) : AnsweredUnless Refusal.IsOfChoice (choose m w) := by
  unfold choose
  split
  · exact .error ⟨rfl, rfl⟩
  · refine .bind (.mapError (w.program.answeredUnless_pins.mono fun _ h => ⟨h.1, h.2.2⟩)) fun manual => ?_
    refine .bind (answeredUnless_allocateBank m _ _ _ _) fun gprs => ?_
    exact .bind (answeredUnless_allocateBank m _ _ _ _) fun vecs => .ok _

/-- Choosing registers is never refused for writing them. -/
theorem answeredUnless_choose (w : Workspace) :
    AnsweredUnless (fun refusal : Refusal => refusal.ofWriting = false) (choose m w) :=
  (isOfChoice_of_choose m w).mono fun _ => And.right

end Allocation

end

namespace Workspace

variable {w₀ w : Workspace}

/-- **Assignment is all or nothing.** Live ranges were computed for a program without registers. If the
assignment is refused then everything is as it was, and the registers could not be chosen. If they can be
chosen then they are written at all ports and in all live sets. -/
theorem assign_all_or_nothing (fresh : w₀.program.Fresh) (ranged : computeRanges w₀ = .ok () w)
    (m : Machine) :
    (∀ refusal w', assign m w = .error refusal w' → w' = w ∧ Allocation.choose m w = .error refusal ∧
      refusal.ofWriting = false) ∧
    ∀ a, Allocation.choose m w = .ok a → ∃ w', assign m w = .ok a w' ∧
      (∀ id ∈ w.program.order, ∀ side k,
        w'.program.portAt side id k = (w.program.portAt side id k).map a.regMap.onPort) ∧
      ∀ id ∈ w.program.order, ∃ set phys, w.live.set? id = some set ∧ w'.live.set? id = some phys ∧
        ∀ r, r ∈ phys ↔ ∃ x ∈ set, a.regMap.get? x = some r := by
  obtain ⟨he, s, u, rfl, _, hreached⟩ := reached_of_computeRanges ranged
  have hbare := hreached.bare rfl
  have horder := order_congr hbare
  have hnodup : s.program.order.Nodup := horder ▸ he.nodup
  have hports : ∀ side id k port, id ∈ s.program.order → s.program.portAt side id k = some port →
      port.abstract.isDefined = true → s.live.ranges.contains port.abstract = true := by
    intro side id k port hid hport hd
    rw [horder] at hid
    cases side with
    | output =>
      have hreg : s.program.abstractReg ⟨id, k⟩ = port.abstract := by
        rw [abstractReg_eq_portAt, hport]
        rfl
      rcases hreached.recorded (readsReg_abstractReg ⟨id, k⟩) with hsame | ⟨_, hcontains⟩
      · rw [← hreg, hsame, fresh.abstractReg hid] at hd
        cases hd
      · exact hreg ▸ hcontains
    | input =>
      have hreg : s.program.inputReg ⟨id, k⟩ = port.abstract := by
        rw [inputReg_eq_portAt, hport]
        rfl
      rcases hreached.recorded (readsReg_inputReg ⟨id, k⟩) with hsame | ⟨_, hcontains⟩
      · rw [← hreg, hsame, fresh.inputReg hid] at hd
        cases hd
      · exact hreg ▸ hcontains
  have hlive : ∀ id ∈ s.program.order, ∃ set, s.live.set? id = some set ∧
      ∀ r ∈ set, s.live.ranges.contains r = true :=
    fun id hid => contains_live_of_computeRanges ranged (horder ▸ hid)
  have hcomplete : ∀ a, Allocation.choose m s.toWorkspace = .ok a →
      ∃ w', assign m s.toWorkspace = .ok a w' :=
    fun a ha => assign_ok_of_choose ha hnodup hports hlive
  refine ⟨fun refusal w' hrefused => ?_, fun a ha => ?_⟩
  · cases hchoose : Allocation.choose m s.toWorkspace with
    | ok a =>
      obtain ⟨w'', hok⟩ := hcomplete a hchoose
      rw [hok] at hrefused
      cases hrefused
    | error refusal' =>
      rw [assign_of_choose_eq_error hchoose] at hrefused
      cases hrefused
      exact ⟨rfl, rfl, Allocation.answeredUnless_choose m _ refusal hchoose⟩
  · obtain ⟨w', hok⟩ := hcomplete a ha
    refine ⟨w', hok, fun id hid side k => (assign_ok hok).2.1.mapped side id k hid, fun id hid => ?_⟩
    obtain ⟨set, hset, _⟩ := hlive id hid
    obtain ⟨phys, hphys, htranslate⟩ := assign_live hok hnodup hid hset
    exact ⟨set, phys, hset, hphys, fun r => RegMap.mem_translate htranslate⟩

end Workspace

/-- The biased copy gets its registers on a large machine, and is left alone on a machine with two vector
registers. -/
theorem assign_all_or_nothing_biasedCopy : ∃ w a w' refusal w'',
    Workspace.computeRanges { program := biasedCopy.lowered {} } = .ok () w ∧
      Workspace.assign (.x64 .avx2) w = .ok a w' ∧
      Workspace.assign (.limited (.x64 .avx2) 3 2) w = .error refusal w'' ∧ w'' = w ∧
      refusal.ofWriting = false := by
  have hrun : (Workspace.ranged? { program := biasedCopy.lowered {} }).any (fun w =>
      (Allocation.choose (.x64 .avx2) w).toOption.isSome &&
        (Allocation.choose (.limited (.x64 .avx2) 3 2) w).toOption.isNone) = true := by
    decide +kernel
  obtain ⟨w, hw, hchoices⟩ := (Option.any_eq_true _ _).mp hrun
  have hranged := Workspace.ranged?_eq_some hw
  have hfresh : ({ program := biasedCopy.lowered {} } : Workspace).program.Fresh := by decide +kernel
  rw [Bool.and_eq_true] at hchoices
  cases hlarge : Allocation.choose (.x64 .avx2) w with
  | error refusal => simp [hlarge, Except.toOption] at hchoices
  | ok a =>
    cases hsmall : Allocation.choose (.limited (.x64 .avx2) 3 2) w with
    | ok b => simp [hsmall, Except.toOption] at hchoices
    | error refusal =>
      obtain ⟨w', hassigned, _⟩ := (Workspace.assign_all_or_nothing hfresh hranged _).2 a hlarge
      have hrefused := Workspace.assign_of_choose_eq_error hsmall
      obtain ⟨hsame, _, hreason⟩ := (Workspace.assign_all_or_nothing hfresh hranged _).1 refusal w hrefused
      exact ⟨w, a, w', refusal, w, hranged, hassigned, hrefused, hsame, hreason⟩

end TensorKernel
