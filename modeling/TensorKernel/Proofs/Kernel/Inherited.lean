import TensorKernel.Proofs.Kernel.Edited

/-!
# Registers that were there before

A program may come with abstract registers. Lowering its loops makes expressions without registers and
leaves those of the others alone, whatever the program is like; so a register of a lowered program was
there before. The computation of live ranges then adds registers that count up from zero.
-/

namespace TensorKernel

variable {options : CompileOptions} {p : Program} {s : RangeState} {u w : Workspace}

namespace Program

variable {q r : Program}

/-- Every value has the register that it had before, or none. -/
def Inherits (p q : Program) : Prop :=
  ∀ v, q.abstractReg v = p.abstractReg v ∨ q.abstractReg v = .unassigned

theorem Inherits.trans (h : p.Inherits q) (h' : q.Inherits r) : p.Inherits r := fun v => by
  rcases h' v with hv | hv
  · rw [hv]
    exact h v
  · exact .inr hv

/-- Changing an output but for its port. -/
theorem inherits_modifyOutput (p : Program) (v : ValueRef) (f : Output → Output)
    (hf : ∀ o, (f o).port = o.port) : p.Inherits (p.modifyOutput v f) := fun w => by
  left
  simp only [abstractReg_eq_portAt, portAt, modifyOutput, expr_modifyExpr]
  split
  · rw [Expr.mapOutput, List.getElem?_modify]
    cases (p.expr w.producer).outputs[w.output]? with
    | none => rfl
    | some o =>
      simp only [Option.map_some]
      split <;> simp [hf]
  · rfl

/-- Joining a value to another one. -/
theorem inherits_join (p : Program) (v w : ValueRef) : p.Inherits (p.join v w) := by
  unfold join
  dsimp only
  split
  · exact fun _ => .inl rfl
  · exact (p.inherits_modifyOutput v (fun o => { o with root := some (p.root w) }) fun _ => rfl).trans
      (inherits_modifyOutput _ _ (fun o => { o with aliases := o.aliases ++ [v] }) fun _ => rfl)

/-- Making an expression without registers. -/
theorem inherits_push (p : Program) {e : Expr} (he : ∀ o ∈ e.outputs, o.port.abstract = .unassigned) :
    p.Inherits { p with exprs := p.exprs.push e } := fun v => by
  rw [abstractReg, output?, expr_push]
  by_cases hv : v.producer = p.exprs.size
  · right
    rw [if_pos hv]
    cases ho : e.outputs[v.output]? with
    | none => rfl
    | some o => exact he o (List.mem_of_getElem? ho)
  · left
    rw [if_neg hv]
    rfl

/-- Elementary changes give no value a register. -/
theorem Edited.inherits (h : p.Edited q) : p.Inherits q := by
  induction h with
  | refl => exact fun _ => .inl rfl
  | same _ hsame ih =>
    refine ih.trans fun v => .inl ?_
    rw [abstractReg, output?, hsame, abstractReg, output?]
  | use _ ih => exact ih.trans (inherits_modifyOutput _ _ _ fun _ => rfl)
  | join _ _ _ _ ih => exact ih.trans (inherits_join _ _ _)
  | push _ he _ ih =>
    refine ih.trans (inherits_push _ fun o ho => ?_)
    rw [he.outputs o ho]
    rfl

end Program

/-- Lowering the loops of a program gives no value a register. -/
theorem Kernel.inherits_lowerLoops {events : List HandlerEvent} (h : lowerLoops options u = .ok events w) :
    u.program.Inherits w.program :=
  (edited_lowerLoops h).inherits

/-- No value has a register with a negative index. -/
def Program.Natural (p : Program) : Prop := ∀ v, 0 ≤ (p.abstractReg v).index

theorem Program.Inherits.natural {q : Program} (h : p.Inherits q) (hp : p.Natural) : q.Natural := by
  intro v
  rcases h v with hv | hv
  · rw [hv]
    exact hp v
  · rw [hv]
    exact Int.le_refl 0

/-- No register of a value or of a live range has a negative index. -/
structure Workspace.Natural (w : Workspace) : Prop where
  values : w.program.Natural
  ranges : ∀ r, w.live.ranges.contains r = true → 0 ≤ r.index

namespace RangeState

/-- The next register of a bank has no negative index. -/
theorem natural_handOut (h : s.Natural) (bank : Bank) (values : List ValueRef) (range : Interval) :
    (s.handOut bank values range).Natural where
  values v := by
    simp only [handOut, Program.abstractReg_giveAll]
    split
    · exact Int.natCast_nonneg _
    · exact h.values v
  ranges r hr := by
    simp only [handOut, RegTable.contains, RegTable.get?_insert] at hr
    split at hr
    · rename_i heq
      rw [← heq]
      exact Int.natCast_nonneg _
    · exact h.ranges r hr

/-- Registers that are handed out have no negative index. -/
theorem Reached.natural {s₀ u : RangeState} {done : List ExprId} {current : Option (ExprId × Nat)}
    (h : Reached p s₀ u done current s) (hs : s₀.Natural) : s.Natural := by
  induction h with
  | start => exact hs
  | pointer _ _ _ _ ih | give _ _ _ _ _ ih => exact natural_handOut ih ..
  | silent _ _ _ ih | enter _ _ _ ih => exact ⟨ih.values, ih.ranges⟩
  | keep _ _ _ ih | leave _ ih => exact ih

end RangeState

/-- So no register of a program gets a negative index while it is compiled. -/
theorem Kernel.Stages.natural {m : Machine} {v : Workspace} {kernel : Kernel}
    (h : Stages m options p u v w kernel) (hp : p.Natural) : v.Natural := by
  have hu : u.program.Natural := (inherits_lowerLoops h.lowered).natural hp
  have hlive : u.live = {} := by
    obtain ⟨_, _, _, _, _, hlive⟩ := lowerLoops_eq_ok h.lowered
    exact hlive
  obtain ⟨_, s, x, rfl, _, hreached⟩ := Workspace.reached_of_computeRanges h.ranged
  refine hreached.natural ⟨fun y => ?_, fun r hr => ?_⟩
  · have hsame := Program.Edited.of_outputs u.program.repositioned_enumerate.outputs
    exact hsame.inherits.natural hu y
  · rw [hlive] at hr
    cases hr

end TensorKernel
