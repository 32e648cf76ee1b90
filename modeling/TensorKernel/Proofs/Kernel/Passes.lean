import TensorKernel.Proofs.Spill.Bracket

/-!
# The passes of a compilation

A program that was compiled went through all passes: its loops were set up, marked and split, its
expressions were numbered, live ranges were computed, registers were assigned and checked, and calls were
bracketed. A successful compilation is taken apart here, once for all that is said about kernels.
-/

namespace TensorKernel.Kernel

open Outcome

variable {kernel : Kernel} {p q : Program} {sg : Subgraph} {α : Type}

variable {m : Machine} {options : CompileOptions} {w w' : Workspace}

/-- A pass that changes the program changes nothing else. -/
theorem edit_eq_ok {change : Edit α} {a : α} (h : edit change w = .ok a w') :
    change w.program = .ok a w'.program ∧ w'.live = w.live :=
  Workspace.edit_eq_ok (adaptExcept_eq_ok.mp h)

/-- A change to the program can be made as a pass. -/
theorem edit_of_ok {change : Edit α} {a : α} (h : change w.program = .ok a q) :
    edit change w = .ok a { w with program := q } := by
  unfold edit pass EStateM.adaptExcept Workspace.edit
  rw [h]

/-- How the loops of a program were lowered. -/
theorem lowerLoops_eq_ok {events : List HandlerEvent} (h : lowerLoops options w = .ok events w') :
    ∃ p q, Edit.initLoops w.program = .ok () p ∧ Edit.insertAllMarkers p = .ok () q ∧
      (if options.noIterations then w'.program = q
        else Edit.splitLoops q = .ok events w'.program) ∧ w'.live = w.live := by
  unfold lowerLoops at h
  obtain ⟨_, u, hinit, h⟩ := bind_eq_ok.mp h
  obtain ⟨_, v, hmark, h⟩ := bind_eq_ok.mp h
  obtain ⟨hinit, hlive⟩ := edit_eq_ok hinit
  obtain ⟨hmark, hlive'⟩ := edit_eq_ok hmark
  refine ⟨u.program, v.program, hinit, hmark, ?_⟩
  split at h
  · rename_i hno
    obtain ⟨_, rfl⟩ := pure_eq_ok.mp h
    exact ⟨by rw [if_pos hno], hlive'.trans hlive⟩
  · rename_i hno
    obtain ⟨hsplit, hlive''⟩ := edit_eq_ok h
    exact ⟨by rwa [if_neg hno], hlive''.trans (hlive'.trans hlive)⟩

/-- How the registers of a program were found. -/
theorem allocate_eq_ok {a : Allocation} :
    allocate m w = .ok a w' ↔ ∃ v, Workspace.computeRanges { w with program := w.program.enumerate } =
      .ok () v ∧ Workspace.assign m v = .ok a w' ∧ w'.violations m a = [] := by
  simp only [allocate, pass, bind_eq_ok, adaptExcept_eq_ok, get_eq_ok,
    modify_eq_ok]
  constructor
  · rintro ⟨_, _, rfl, _, v, hv, b, x, hx, _, _, ⟨rfl, rfl⟩, h⟩
    cases hviolations : x.violations m b with
    | nil =>
      rw [hviolations] at h
      obtain ⟨rfl, rfl⟩ := pure_eq_ok.mp h
      exact ⟨v, hv, hx, hviolations⟩
    | cons violation rest =>
      rw [hviolations] at h
      cases h
  · rintro ⟨v, hv, ha, hviolations⟩
    refine ⟨⟨⟩, _, rfl, ⟨⟩, v, hv, a, w', ha, w', w', ⟨rfl, rfl⟩, ?_⟩
    rw [hviolations]
    rfl

/-- What successful passes did, one after the other. -/
theorem passes_eq_ok :
    passes m options w = .ok kernel w' ↔
      ∃ events u a v spills, lowerLoops options w = .ok events u ∧ allocate m u = .ok a v ∧
        (if options.noSpills then pure [] else pass Workspace.insertSpills : Pass (List Bracket)) v =
          .ok spills w' ∧
        kernel = { w' with
          machine := m, allocation := a, spills, calleeSaved := w'.program.calleeSaved m, events } := by
  simp only [passes, bind_eq_ok]
  cases options.noSpills <;>
    simp only [Bool.false_eq_true, if_true, if_false, bind_eq_ok, get_eq_ok,
      pure_eq_ok] <;>
    grind

/-- The states between the passes of a compilation. -/
structure Stages (m : Machine) (options : CompileOptions) (p : Program) (u v w : Workspace)
    (kernel : Kernel) : Prop where
  /-- The loops were lowered. -/
  lowered : lowerLoops options { program := p } = .ok kernel.events u
  /-- The program was numbered and its live ranges were computed. -/
  ranged : Workspace.computeRanges { u with program := u.program.enumerate } = .ok () v
  /-- Registers were assigned. -/
  assigned : Workspace.assign m v = .ok kernel.allocation w
  /-- Nothing was wrong with them. -/
  clean : w.violations m kernel.allocation = []
  /-- Calls were bracketed, unless this was left out. -/
  spilled : if options.noSpills then kernel.spills = [] ∧ kernel.toWorkspace = w
    else Workspace.insertSpills w = .ok kernel.spills kernel.toWorkspace

/-- Calls were bracketed, or there are no brackets. -/
theorem Stages.bracketed {u v : Workspace} (h : Stages m options p u v w kernel) (he : w.program.Enumerated) :
    w.Spilled kernel.spills kernel.toWorkspace ∧ (options.noSpills = false →
      ∀ call ∈ w.program.order, (w.program.expr call).role = .externalCall →
        ∃ b ∈ kernel.spills, b.call = call) := by
  have hspilled := h.spilled
  split at hspilled
  · rename_i hno
    rw [hspilled.1, hspilled.2]
    exact ⟨.refl he, fun hyes => absurd hno (by simp [hyes])⟩
  · obtain ⟨hsp, hcalls⟩ := Workspace.insertSpills_eq_ok he hspilled
    exact ⟨hsp, fun _ _ => Workspace.exists_bracket hcalls⟩

/-- A compiled program went through all stages. -/
theorem compile_eq_ok (h : compile m options p = .ok kernel q) :
    ∃ u v w, Stages m options p u v w kernel := by
  unfold compile at h
  split at h
  · rename_i kernel' w' hpasses
    cases h
    obtain ⟨events, u, a, v, spills, hlower, hallocate, hspill, rfl⟩ := passes_eq_ok.mp hpasses
    obtain ⟨r, hranged, hassigned, hclean⟩ := allocate_eq_ok.mp hallocate
    refine ⟨u, r, v, hlower, hranged, hassigned, hclean, ?_⟩
    split at hspill
    · rename_i hno
      obtain ⟨rfl, rfl⟩ := pure_eq_ok.mp hspill
      rw [if_pos hno]
      exact ⟨rfl, rfl⟩
    · rename_i hno
      rw [if_neg hno]
      simpa only [pass, adaptExcept_eq_ok] using hspill
  · cases h

/-- The kernel of a subgraph, if it can be built and compiled. -/
def ofSubgraph? (m : Machine) (options : CompileOptions) (sg : Subgraph) : Option Kernel :=
  match sg.build with
  | .error _ => none
  | .ok p => match compile m options p with
    | .error _ _ => none
    | .ok kernel _ => some kernel

theorem ofSubgraph?_eq_some (h : ofSubgraph? m options sg = some kernel) :
    ∃ p q, sg.build = .ok p ∧ compile m options p = .ok kernel q := by
  unfold ofSubgraph? at h
  split at h
  · cases h
  · rename_i p hbuild
    split at h
    · cases h
    · rename_i q hcompile
      cases h
      exact ⟨p, q, hbuild, hcompile⟩

theorem exists_of_any {P : Kernel → Prop} [DecidablePred P]
    (h : ((ofSubgraph? m options sg).any fun kernel => P kernel) = true) :
    ∃ p kernel q, sg.build = .ok p ∧ compile m options p = .ok kernel q ∧ P kernel := by
  obtain ⟨kernel, hk, hkernel⟩ := (Option.any_eq_true _ _).mp h
  obtain ⟨p, q, hbuild, hcompile⟩ := ofSubgraph?_eq_some hk
  exact ⟨p, kernel, q, hbuild, hcompile, of_decide_eq_true hkernel⟩

end TensorKernel.Kernel
