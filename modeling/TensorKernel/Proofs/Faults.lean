import TensorKernel.Kernel.Compile
import TensorKernel.Proofs.Refusals

/-!
# Faults of the passes

Most passes have no faults of linear scan, none of writing the registers that were chosen, and none of names
that are in use already. Nothing is assumed about the program.
-/

namespace TensorKernel

open Outcome

/-! ### Questions -/

namespace Program

variable (p : Program)

theorem answeredUnless_output (id : ExprId) (k : Int) : AnsweredUnless Fault.IsPlain (p.output id k) := by
  unfold output
  dsimp only
  split
  · exact .ok _
  · exact .error ⟨rfl, rfl, rfl⟩

theorem answeredUnless_input (id : ExprId) (k : Int) : AnsweredUnless Fault.IsPlain (p.input id k) := by
  unfold input
  dsimp only
  split
  · split
    · exact .ok _
    · exact .error ⟨rfl, rfl, rfl⟩
  · exact .error ⟨rfl, rfl, rfl⟩

theorem answeredUnless_value (r : PortRef) : AnsweredUnless Fault.IsPlain (p.value r) := by
  unfold value
  split
  · exact p.answeredUnless_output _ _
  · exact p.answeredUnless_input _ _

theorem answeredUnless_port (r : PortRef) : AnsweredUnless Fault.IsPlain (p.port r) := by
  unfold port
  dsimp only
  split
  · split
    · exact .ok _
    · split <;> exact .error ⟨rfl, rfl, rfl⟩
  · split <;> exact .error ⟨rfl, rfl, rfl⟩

theorem answeredUnless_loopBounds (id : LoopId) : AnsweredUnless Fault.IsPlain (p.loopBounds id) := by
  unfold loopBounds
  dsimp only
  split
  · split
    · exact .ok _
    · exact .error ⟨rfl, rfl, rfl⟩
  · exact .error ⟨rfl, rfl, rfl⟩

theorem answeredUnless_depth (id : LoopId) : AnsweredUnless Fault.IsPlain (p.depth id) := by
  refine .bind (.bind (p.answeredUnless_loopBounds id) fun ⟨b, _⟩ => ?_) fun _ => .ok _
  dsimp only
  split
  · exact .ok _
  · exact .error ⟨rfl, rfl, rfl⟩

theorem answeredUnless_loopSpan (id : LoopId) (frame : LoopFrame) :
    AnsweredUnless Fault.IsPlain (p.loopSpan id frame) := by
  have hpositions : ∀ outside ports, (∀ name, (outside name).IsPlain) →
      AnsweredUnless Fault.IsPlain (p.portPositions outside ports) := by
    intro outside ports h
    refine .mapM (fun port => ?_) _
    split
    · exact .ok _
    · exact .error (h _)
  unfold loopSpan
  split
  · exact .error ⟨rfl, rfl, rfl⟩
  · refine .bind (hpositions _ _ fun _ => ⟨rfl, rfl, rfl⟩) fun entries => ?_
    refine .bind (hpositions _ _ fun _ => ⟨rfl, rfl, rfl⟩) fun exits => ?_
    dsimp only
    split
    · exact .error ⟨rfl, rfl, rfl⟩
    · exact .ok _

theorem answeredUnless_pointerPort (work : Int) (port : LoopPort) :
    AnsweredUnless Fault.IsPlain (p.pointerPort work port) := by
  refine .bind (p.answeredUnless_value _) fun v => ?_
  dsimp only
  split
  · exact .error ⟨rfl, rfl, rfl⟩
  · split
    · exact .bind (.map (p.answeredUnless_port _)) fun _ => .ok _
    · exact .ok _

theorem answeredUnless_checkEnumerated : AnsweredUnless Fault.IsPlain p.checkEnumerated := by
  refine .forM (fun ⟨e, i⟩ => ?_) _
  dsimp only
  split
  · exact .ok _
  · exact .error ⟨rfl, rfl, rfl⟩

end Program

namespace LoopTable

variable (t : LoopTable) (id : LoopId)

theorem answeredUnless_loop : AnsweredUnless Fault.IsPlain (t.loop id) := by
  unfold loop
  split
  · exact .ok _
  · exact .error ⟨rfl, rfl, rfl⟩

theorem answeredUnless_unifiedPlace : AnsweredUnless Fault.IsPlain (t.unifiedPlace id) := by
  unfold unifiedPlace
  split
  · exact .ok _
  · exact .error ⟨rfl, rfl, rfl⟩
  · exact .error ⟨rfl, rfl, rfl⟩

theorem answeredUnless_expandedLoop : AnsweredUnless Fault.IsPlain (t.expandedLoop id) := by
  unfold expandedLoop
  split
  · exact .ok _
  · exact .error ⟨rfl, rfl, rfl⟩
  · exact .error ⟨rfl, rfl, rfl⟩

theorem answeredUnless_replace (b : LoopBinding) : AnsweredUnless Fault.IsPlain (t.replace id b) := by
  unfold replace
  split
  · exact .ok _
  · exact .error ⟨rfl, rfl, rfl⟩

end LoopTable

theorem Variant.answeredUnless_split (work increment : Int) (withFirst : Bool) :
    AnsweredUnless Fault.IsPlain (split work increment withFirst) := by
  unfold Variant.split
  split
  · exact .error ⟨rfl, rfl, rfl⟩
  · exact .ok _

theorem Liveness.answeredUnless_setRange (l : Liveness) (r : Reg) (range : Interval) (force : Bool) :
    AnsweredUnless Fault.IsPlain (l.setRange r range force) := by
  unfold setRange
  split
  · exact .error ⟨rfl, rfl, rfl⟩
  · split
    · exact .error ⟨rfl, rfl, rfl⟩
    · exact .ok _

/-! ### Lowering loops -/

namespace Edit

theorem doneUnless_ask {α : Type} {question : Program → Except Fault α}
    (h : ∀ p, AnsweredUnless Fault.IsPlain (question p)) : DoneUnless Fault.IsPlain (ask question) := by
  refine .bind .get fun p => ?_
  split
  · exact .pure _
  · rename_i fault hfault
    exact .throw (h p fault hfault)

theorem doneUnless_initLoops : DoneUnless Fault.IsPlain initLoops := by
  refine .bind .get fun p => .forM (fun ⟨_, binding⟩ => ?_) _
  cases binding with
  | expanded => exact .pure _
  | unified place =>
    refine .bind .get fun p => .forM (fun k => .bind .get fun q => ?_) _
    dsimp only
    split
    · exact .bind (doneUnless_ask fun p => p.answeredUnless_pointerPort _ _) fun _ => .modify _
    · exact .pure _

theorem doneUnless_copyRange (begin stop : Int) : DoneUnless Fault.IsPlain (copyRange begin stop) := by
  refine .bind .get fun p => ?_
  split
  · exact .throw ⟨rfl, rfl, rfl⟩
  · refine .bind (.modifyGet _) fun copies => ?_
    split
    · exact .throw ⟨rfl, rfl, rfl⟩
    · exact .pure _

theorem doneUnless_copyInnerLoops (id : LoopId) (copies : List (ExprId × ExprId))
    (renumber : List (LoopId × LoopId)) :
    DoneUnless Fault.IsPlain (copyInnerLoops id copies renumber) := by
  refine .foldlM (fun renumber copy => .bind .get fun p => ?_) _ _
  dsimp only
  split
  · exact .bind (doneUnless_ask fun p => p.loops.answeredUnless_loop _) fun inner =>
      .bind (.modifyGet _) fun new => .pure _
  · exact .pure _

theorem doneUnless_unifiedDepths : DoneUnless Fault.IsPlain unifiedDepths :=
  .bind .get fun _ => .mapM (fun ⟨id, _⟩ =>
    .bind (doneUnless_ask fun p => p.answeredUnless_depth id) fun _ => .pure _) _

end Edit

/-! ### Live ranges -/

namespace RangeStep

theorem doneUnless_ask {α : Type} {question : Program → Except Fault α}
    (h : ∀ p, AnsweredUnless Fault.IsPlain (question p)) : DoneUnless Fault.IsPlain (ask question) := by
  refine .bind .get fun s => ?_
  split
  · exact .pure _
  · rename_i fault hfault
    exact .throw (h s.program fault hfault)

theorem doneUnless_nextReg (bank : Bank) : DoneUnless Fault.IsPlain (nextReg bank) :=
  .bind .get fun _ => .bind (.set _) fun _ => .pure _

theorem doneUnless_record (r : Reg) (range : Interval) : DoneUnless Fault.IsPlain (record r range) := by
  refine .bind .get fun s => ?_
  split
  · rename_i fault hfault
    exact .throw (s.live.answeredUnless_setRange r range false fault hfault)
  · exact .set _

theorem doneUnless_recordLive (id : ExprId) (regs : RegSet) :
    DoneUnless Fault.IsPlain (recordLive id regs) := by
  refine .bind .get fun s => ?_
  unfold Liveness.setLiveSet
  split
  · rename_i fault hfault
    split at hfault
    · cases hfault
      exact .throw ⟨rfl, rfl, rfl⟩
    · cases hfault
  · exact .set _

theorem doneUnless_assignGlobal (values : List ValueRef) :
    DoneUnless Fault.IsPlain (assignGlobal values) := by
  refine .bind .get fun s => ?_
  dsimp only
  split
  · exact .pure _
  · split
    · exact .bind (doneUnless_nextReg _) fun r => .bind (.modify _) fun _ => doneUnless_record _ _
    · exact .pure _

theorem answeredUnless_parameterPointer (id : ExprId) (p : Program) :
    AnsweredUnless Fault.IsPlain (parameterPointer id p) :=
  .bind (p.answeredUnless_output _ _) fun _ =>
    .bind (.mapM (fun _ => p.answeredUnless_output _ _) _) fun _ => .ok _

theorem answeredUnless_resultPointer (id : ExprId) (p : Program) :
    AnsweredUnless Fault.IsPlain (resultPointer id p) :=
  .bind (p.answeredUnless_input _ _) fun _ =>
    .bind (.mapM (fun _ => p.answeredUnless_input _ _) _) fun _ => .ok _

theorem doneUnless_assignGlobals : DoneUnless Fault.IsPlain assignGlobals := by
  refine .bind .get fun s => .bind (.forM (fun id => ?_) _) fun _ => .forM (fun id => ?_) _
  · exact .bind (doneUnless_ask (answeredUnless_parameterPointer id)) doneUnless_assignGlobal
  · exact .bind (doneUnless_ask (answeredUnless_resultPointer id)) doneUnless_assignGlobal

theorem doneUnless_visitOutput (id : ExprId) (k : Nat) : DoneUnless Fault.IsPlain (visitOutput id k) := by
  refine .bind .get fun s => ?_
  dsimp only
  split
  · split
    · exact .throw ⟨rfl, rfl, rfl⟩
    · exact .bind (doneUnless_nextReg _) fun r => .bind (.modify _) fun _ => doneUnless_record _ _
  · exact .pure _

theorem doneUnless_visit (id : ExprId) : DoneUnless Fault.IsPlain (visit id) := by
  refine .bind .get fun s => ?_
  dsimp only
  split
  · exact doneUnless_recordLive _ _
  · exact .bind (.modify _) fun _ => .bind .get fun _ =>
      .bind (doneUnless_recordLive _ _) fun _ => .forM (doneUnless_visitOutput id) _

end RangeStep

theorem Workspace.doneUnless_computeRanges : DoneUnless Fault.IsPlain computeRanges := by
  have hsteps : DoneUnless Fault.IsPlain RangeStep.computeRanges := by
    refine .bind (RangeStep.doneUnless_ask Program.answeredUnless_checkEnumerated) fun _ => ?_
    refine .bind .get fun s => ?_
    dsimp only
    split
    · exact .pure _
    · exact .bind RangeStep.doneUnless_assignGlobals fun _ => .forM RangeStep.doneUnless_visit _
  intro w fault w' h
  unfold computeRanges at h
  split at h
  · cases h
  · rename_i s hs
    cases h
    exact hsteps _ fault s hs

/-! ### Conventions -/

namespace Pins

variable (p : Program)

theorem answeredUnless_pin (pins : RegMap) (v : ValueRef) (phys : Reg) :
    AnsweredUnless Fault.IsPlain (pin p pins v phys) := by
  unfold pin
  dsimp only
  split
  · exact .error ⟨rfl, rfl, rfl⟩
  · split
    · exact .error ⟨rfl, rfl, rfl⟩
    · split
      · split
        · exact .ok _
        · exact .error ⟨rfl, rfl, rfl⟩
      · exact .ok _

theorem answeredUnless_pinAll (phys : Reg) (pins : RegMap) (values : List ValueRef) :
    AnsweredUnless Fault.IsPlain (pinAll p phys pins values) :=
  .foldlM (fun pins v => answeredUnless_pin p pins v phys) _ _

theorem answeredUnless_pinOutput (phys : Reg) (pins : RegMap) (id : ExprId) :
    AnsweredUnless Fault.IsPlain (pinOutput p phys pins id) :=
  .bind (p.answeredUnless_output _ _) fun _ => answeredUnless_pin p _ _ _

theorem answeredUnless_pinInput (phys : Reg) (pins : RegMap) (id : ExprId) :
    AnsweredUnless Fault.IsPlain (pinInput p phys pins id) :=
  .bind (p.answeredUnless_input _ _) fun _ => answeredUnless_pin p _ _ _

theorem answeredUnless_pinBuffer (boundary : Nat) (pins : RegMap) (id : ExprId) :
    AnsweredUnless Fault.IsPlain (pinBuffer p boundary pins id) := by
  refine .bind (answeredUnless_pinAll p _ _ _) fun pins => ?_
  refine .bind (.foldlM (fun pins view => ?_) _ _) fun pins => answeredUnless_pinOutput p _ _ _
  exact .bind (answeredUnless_pinInput p _ _ _) fun _ => answeredUnless_pinOutput p _ _ _

theorem answeredUnless_pinExpr (boundary : Nat) (state : Nat × RegMap) (id : ExprId) :
    AnsweredUnless Fault.IsPlain (pinExpr p boundary state id) := by
  unfold pinExpr
  dsimp only
  split
  · exact .bind (answeredUnless_pinBuffer p _ _ _) fun _ => .ok _
  · split
    · refine .bind (.bind (p.answeredUnless_input _ _) fun v => ?_) fun _ => .ok _
      exact answeredUnless_pinAll p _ _ _
    · exact .ok _

end Pins

theorem Program.answeredUnless_pins (p : Program) : AnsweredUnless Fault.IsPlain p.pins := by
  refine .bind (.foldlM (fun pins entry => ?_) _ _) fun pins => ?_
  · exact .foldlM (Pins.answeredUnless_pinOutput p _) _ _
  refine .bind (.foldlM (fun pins entry => ?_) _ _) fun pins => ?_
  · exact .foldlM (Pins.answeredUnless_pinInput p _) _ _
  exact .bind (.foldlM (Pins.answeredUnless_pinExpr p _) _ _) fun _ => .ok _

end TensorKernel
