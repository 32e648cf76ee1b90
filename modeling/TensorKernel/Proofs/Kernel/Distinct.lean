import TensorKernel.Proofs.Allocation.Progress
import TensorKernel.Proofs.Kernel.Edited
import TensorKernel.Proofs.Kernel.Refused

/-!
# Linear scan meets no two equal intervals

Linear scan gives up at two registers with the same interval. If no operation of a subgraph has two
outputs then no expression of its program has, also when loops are marked and split and handlers append
expressions. So this never happens, on any machine and whether or not the compilation succeeds: other
passes do not have this fault, and registers that are not pinned have intervals that start at different
expressions.
-/

namespace TensorKernel

variable {cause : CompileCause} {m : Machine} {p : Program} {w : Workspace}

namespace Program

variable {q : Program}

/-- No expression that was made has two outputs. -/
def Narrow (p : Program) : Prop := ∀ x, (p.expr x).outputs.length ≤ 1

/-- A program without more values is as narrow. -/
theorem Narrow.of_hasValue (h : p.Narrow) (hvalues : ∀ v, q.HasValue v → p.HasValue v) : q.Narrow :=
  fun x => Nat.le_of_not_lt fun hx => Nat.not_lt.mpr (h x) (hvalues ⟨x, 1⟩ hx)

/-- Elementary changes make no expression with two outputs. -/
theorem Edited.narrow (h : p.Edited q) (hp : p.Narrow) : q.Narrow := by
  induction h with
  | refl => exact hp
  | same _ hsame ih =>
    intro x
    rw [hsame]
    exact ih x
  | use _ ih => exact ih.of_hasValue fun _ => hasValue_modifyOutput.mp
  | join _ _ _ _ ih => exact ih.of_hasValue fun _ => hasValue_join.mp
  | push _ _ hcount ih =>
    intro x
    rw [expr_push]
    split
    · rcases hcount with hle | ⟨y, hy⟩
      · exact hle
      · exact hy ▸ ih y
    · exact ih x

/-- A program is narrow when its operations have no two outputs. -/
theorem Transcribes.narrow {specs : List OpSpec} (h : p.Transcribes specs)
    (single : ∀ spec ∈ specs, ∀ n ∈ spec.outputs, n ≤ 1) : p.Narrow := by
  intro x
  rcases Nat.lt_or_ge x specs.length with hlt | hge
  · obtain ⟨count, hcount, hvalues⟩ := h.outputs x _ (List.getElem?_eq_getElem hlt)
    have hone : count ≤ 1 := by
      unfold outputCount at hcount
      split at hcount
      · rename_i hn
        split at hcount
        · cases hcount
        · cases hcount
          exact single _ (List.getElem_mem hlt) _ hn
      · cases hcount
        split <;> omega
    by_contra htwo
    have hvalue := (hvalues 1).mp (Nat.lt_of_not_le htwo)
    omega
  · rw [expr_of_size_le (h.size ▸ hge)]
    exact Nat.zero_le 1

end Program

open Program

/-- Whether a compilation failed in linear scan. -/
def CompileCause.ofScan : CompileCause → Bool
  | .refused (.fault f) => f.ofScan
  | _ => false

theorem CompileCause.IsPlain.ofScan (h : cause.IsPlain) : cause.ofScan = false := by
  rcases cause with ((fault | lack) | violations)
  · exact h.2.1
  · rfl
  · rfl

open Outcome

namespace Kernel

/-- A narrow program does not fail in linear scan. -/
theorem ofScan_of_allocate (settled : p.Settled) (narrow : p.Narrow)
    (h : allocate m { program := p } = .error cause w) : cause.ofScan = false := by
  unfold allocate at h
  rw [bind_of_ok (a := ⟨⟩) (modify_eq_ok.mpr rfl)] at h
  rcases bind_eq_error.mp h with h | ⟨_, v, hranged, h⟩
  · exact (doneUnlessAt_pass (Workspace.doneUnless_computeRanges _) _ _ h).ofScan
  have hranged := adaptExcept_eq_ok.mp hranged
  have hp := settled.enumerate
  have hnarrow : p.enumerate.Narrow :=
    (Edited.of_outputs p.repositioned_enumerate.outputs).narrow narrow
  rcases bind_eq_error.mp h with h | ⟨a, w', _, h⟩
  · rcases Workspace.assign_cases hp.wired.fresh hp.wired.toLinked hp.wired.grouped hp.closed
      (fun x _ => hnarrow x) hranged m with ⟨a, w', hok⟩ | ⟨lack, hlack⟩ | ⟨fault, hpins, hfault⟩
    · rw [EStateM.adaptExcept, hok] at h
      cases h
    · rw [EStateM.adaptExcept, hlack] at h
      cases h
      rfl
    · rw [EStateM.adaptExcept, hfault] at h
      cases h
      exact (Program.answeredUnless_pins _ fault hpins).2.1
  · rw [get_bind] at h
    dsimp only at h
    split at h
    · cases h
      rfl
    · cases h

/-- The compilation of a subgraph whose lowered program is narrow does not fail in linear scan. -/
theorem ofScan_of_passes {sg : Subgraph} (built : sg.build = .ok p) {options : CompileOptions}
    (lowered : ∀ events u, lowerLoops options { program := p } = .ok events u →
      u.program.Settled ∧ u.program.Narrow) (h : passes m options { program := p } = .error cause w) :
    cause.ofScan = false := by
  refine doneUnlessAt_passes (fun _ => CompileCause.IsPlain.ofScan) built
    (fun events u hlower => ?_) cause w h
  obtain ⟨settled, narrow⟩ := lowered events u hlower
  obtain ⟨q, live⟩ := u
  obtain ⟨_, _, _, _, _, rfl⟩ := lowerLoops_eq_ok hlower
  exact fun _ _ => ofScan_of_allocate settled narrow

end Kernel

namespace Subgraph

/-- **No two registers with the same interval.** A subgraph whose operations have at most one output each is
never refused for two registers that live over the same interval. -/
theorem compile_ne_sameInterval {sg : Subgraph} {p : Program} (built : sg.build = .ok p)
    (single : ∀ spec ∈ sg.ops, ∀ n ∈ spec.outputs, n ≤ 1) (m : Machine)
    (options : CompileOptions) (program : Label) (machine : String) (bank : Bank) (first second : Reg)
    (range : Interval) (q : Program) :
    Kernel.compile m options p ≠
      .error ⟨program, machine, .refused (.fault (.sameInterval bank first second range))⟩ q := by
  intro h
  have hlowered : ∀ events u, Kernel.lowerLoops options { program := p } = .ok events u →
      u.program.Settled ∧ u.program.Narrow := by
    intro events u hlower
    exact ⟨settled_of_lowerLoops built hlower,
      (Kernel.edited_lowerLoops hlower).narrow ((build_eq_ok built).2.narrow single)⟩
  unfold Kernel.compile at h
  split at h
  · cases h
  · rename_i cause w hpasses
    have hscan := Kernel.ofScan_of_passes built hlowered hpasses
    cases h
    cases hscan

end Subgraph

/-- The biased copy, on a machine that has too few registers for it. -/
theorem compile_ne_sameInterval_biasedCopy : ∃ p, biasedCopy.build = .ok p ∧
    (∃ error q, Kernel.compile (.limited (.x64 .avx2) 3 2) {} p = .error error q) ∧
    ∀ program machine bank first second range q,
      Kernel.compile (.limited (.x64 .avx2) 3 2) {} p ≠
        .error ⟨program, machine, .refused (.fault (.sameInterval bank first second range))⟩ q := by
  have hbuilds : biasedCopy.build.toOption.isSome = true := by decide +kernel
  have hnone : (Kernel.ofSubgraph? (.limited (.x64 .avx2) 3 2) {} biasedCopy).isNone = true := by
    decide +kernel
  cases hbuild : biasedCopy.build with
  | error cause =>
    rw [hbuild] at hbuilds
    cases hbuilds
  | ok p =>
    rw [Kernel.ofSubgraph?, hbuild] at hnone
    refine ⟨p, rfl, ?_, Subgraph.compile_ne_sameInterval hbuild (by decide) _ _⟩
    cases hcompile : Kernel.compile (.limited (.x64 .avx2) 3 2) {} p with
    | error error q => exact ⟨error, q, rfl⟩
    | ok kernel q =>
      simp only [hcompile] at hnone
      cases hnone

/-- Two outputs of one operation may live over the same interval. -/
example : (match Subgraph.build {
        name := "pair"
        ops := [
          { name := "source", kind := "Parameter", shape := some [4] },
          { name := "pair", kind := "Load", inputs := ["source"], outputs := some 2 },
          { name := "sum", kind := "Add", inputs := ["pair.out0", "pair.out1"] },
          { name := "target", kind := "Result", inputs := ["sum"] }] } with
      | .error _ => false
      | .ok p => match Kernel.compile (.x64 .avx2) {} p with
        | .error error _ => error.cause.ofScan
        | .ok _ _ => false) = true := by
  decide +kernel

end TensorKernel
