import TensorKernel.Proofs.Faults
import TensorKernel.Proofs.Kernel.Settled
import TensorKernel.Proofs.Spill.Checked

/-!
# Compilations that are refused

The passes put expressions into the program of a subgraph only under names that they drew, so they are
not refused for a name that is in use already. Calls can be bracketed whenever registers were found. So
apart from plain faults a compilation is refused only where registers are assigned.
-/

namespace TensorKernel

open Outcome

variable {ids : List ExprId} {p : Program} {sg : Subgraph} {α : Type} {w : Workspace}

namespace Program

variable {q : Program}

/-- A question comes first. -/
theorem doneUnlessAt_ask_bind {β : Type} {question : Program → Except Fault α} {f : α → Edit β}
    (h : AnsweredUnless Fault.IsPlain (question p))
    (hf : ∀ a, question p = .ok a → DoneUnlessAt Fault.IsPlain (f a) p) :
    DoneUnlessAt Fault.IsPlain (Edit.ask question >>= f) p := by
  refine .bind (.bind_get ?_) fun a q hask => ?_
  · split
    · exact .pure _
    · rename_i fault hfault
      exact .throw (h fault hfault)
  · obtain ⟨ha, rfl⟩ := ask_eq_ok.mp hask
    exact hf a ha

/-! ### Putting expressions into the program -/

/-- Expressions with free and different names are not refused for their names. -/
theorem doneUnlessAt_insertAt (free : ∀ id ∈ ids, p.isUsed (p.expr id).name = false)
    (nodup : (ids.map fun id => (p.expr id).name).Nodup) (position : Int) :
    DoneUnlessAt Fault.IsPlain (Edit.insertAt position ids) p := by
  refine .bind_get ?_
  split
  · exact .throw ⟨rfl, rfl, rfl⟩
  · refine .bind (fun fault q hfault => ?_) fun _ _ _ => .modifyGet _
    rw [forM_register free nodup] at hfault
    cases hfault

/-- Neither is one expression with a free name. -/
theorem doneUnlessAt_insertAt_single {x : ExprId} (free : p.isUsed (p.expr x).name = false)
    (position : Int) : DoneUnlessAt Fault.IsPlain (Edit.insertAt position [x]) p := by
  refine doneUnlessAt_insertAt (by simpa using free) ?_ position
  exact List.nodup_singleton (p.expr x).name

/-- The names in use when expressions have been put into the program. -/
theorem isUsed_of_insertAt {position : Int} (h : Edit.insertAt position ids p = .ok () q) :
    (∀ x, q.expr x = p.expr x) ∧ ∀ {name}, q.isUsed name = true ↔
      name ∈ ids.map (fun id => (p.expr id).name) ∨ p.isUsed name = true := by
  rw [(insertAt_eq_ok h).2]
  exact ⟨fun _ => rfl, isUsed_enterNames⟩

/-- Nor is an operation under a free name that goes to the end. -/
theorem doneUnlessAt_add {name : Label} (free : p.isUsed name = false) (op : Op) :
    DoneUnlessAt Fault.IsPlain (Edit.add name op []) p := by
  have hmade : Edit.makeOp name op [] p = .ok p.exprs.size (p.makeOp name op []).2 := rfl
  have hr := p.rewired_make (op.expr name ([].map p.inputOf))
  change Rewired _ (p.makeOp name op []).2 at hr
  refine .bind (fun fault q hfault => ?_) fun id q hok => ?_
  · rw [hmade] at hfault
    cases hfault
  · rw [hmade] at hok
    cases hok
    have hname : ((p.makeOp name op []).2.expr p.exprs.size).name = name := by
      rw [Expr.name_of_header (hr.header p.exprs.size), expr_push, if_pos rfl]
      rfl
    have hregister : [p.exprs.size].forM Edit.register (p.makeOp name op []).2 =
        .ok ⟨⟩ ((p.makeOp name op []).2.enterNames [p.exprs.size]) := by
      refine forM_register (fun id hid => ?_) (List.nodup_singleton _)
      rw [List.mem_singleton.mp hid, hname, isUsed, find?, hr.rest]
      exact free
    refine .bind (.bind (fun fault q hfault => ?_) fun _ _ _ => .modifyGet _) fun _ _ _ => .pure _
    rw [hregister] at hfault
    cases hfault

/-! ### Lowering loops -/

/-- The markers of a loop are not refused for their names: the two are made from bases of which neither
starts with the other. -/
theorem Pristine.doneUnlessAt_insertMarkers (h : p.Pristine) (id : LoopId) :
    DoneUnlessAt Fault.IsPlain (Edit.insertMarkers id) p := by
  refine doneUnlessAt_ask_bind (p.loops.answeredUnless_loop id) fun info hinfo => ?_
  refine doneUnlessAt_ask_bind (p.answeredUnless_loopSpan id _) fun ⟨first, last⟩ _ => .bind_get ?_
  dsimp only
  generalize outerOf _ id = outer
  have hid : id ∈ p.loops.ids := LoopTable.mem_ids_of_loop hinfo
  obtain ⟨u, hbegin, hu⟩ := h.makeMarker "LoopBegin" (by decide : Role.loopBegin ≠ .op)
    "loop_begin_" 1 hid outer (List.forall_mem_nil _)
  refine .bind (.modifyGet _) fun begin u' hbegin' => ?_
  cases hbegin.symm.trans hbegin'
  refine .bind (DoneUnless.mapM (fun port => Edit.doneUnless_ask fun p => p.answeredUnless_value _) _ u)
    fun pointers _ hpointers => ?_
  obtain ⟨rfl, hread⟩ := hu.hasValue_read hpointers
  obtain ⟨v, hend, hv⟩ := hu.pristine.makeMarker "LoopEnd" (by decide : Role.loopEnd ≠ .op)
    "loop_end_" 0 (hu.loops ▸ hid) outer hread
  refine .bind (.modifyGet _) fun stop v' hend' => ?_
  cases hend.symm.trans hend'
  have hmade := hu.and_end hv
  rw [hu.size]
  refine .bind (doneUnlessAt_insertAt_single (hmade.free (p.exprs.size + 1) (by simp)) _)
    fun _ r hinsert => ?_
  obtain ⟨hexpr, hused⟩ := isUsed_of_insertAt hinsert
  refine .bind (doneUnlessAt_insertAt_single ?_ _) fun _ _ _ => .pure _
  rw [hexpr]
  refine Bool.eq_false_iff.mpr fun hin => ?_
  rcases hused.mp hin with hmem | hold
  · rw [List.map_singleton, List.mem_singleton] at hmem
    exact hmade.apart hmem
  · rw [hmade.free p.exprs.size (by simp)] at hold
    cases hold

theorem Pristine.doneUnlessAt_insertAllMarkers (h : p.Pristine) :
    DoneUnlessAt Fault.IsPlain Edit.insertAllMarkers p := by
  refine .bind_get (.forM (I := Pristine) (fun id q hq => ?_) (fun id q r hq hok => ?_) _ h)
  · exact .map (hq.doneUnlessAt_insertMarkers id)
  · obtain ⟨pair, hok, _⟩ := map_eq_ok.mp hok
    obtain ⟨_, _, _, _, _, _, hb⟩ := hq.bracketed_of_insertMarkers hok
    exact hb.pristine

/-- Handlers append expressions under names that they drew. -/
theorem doneUnless_runHandlers (id : LoopId) (origin : Nat) (iteration : Iteration) :
    DoneUnless Fault.IsPlain (Edit.runHandlers id origin iteration) := by
  refine .bind .get fun p => .mapM (fun handler => ?_) _
  refine .bind (Edit.doneUnless_ask fun p => p.loops.answeredUnless_expandedLoop id) fun l => ?_
  refine .bind .get fun q => .bind (.modify _) fun _ => ?_
  split
  · intro r
    refine .bind (.modifyGet _) fun name s hname => ?_
    have hs : r.uniqueName handler.append = (name, s) := modifyGet_eq_ok.mp hname
    obtain ⟨hsame, hfree, _⟩ := r.uniqueName_spec handler.append
    rw [hs] at hsame hfree
    refine .bind (.map (doneUnlessAt_add ?_ _)) fun _ _ _ => .pure _
    rw [show s = { r with serial := s.serial } from hsame]
    exact hfree
  · exact .pure _

/-- The copies of a loop are not refused for their names, which were all drawn before any is entered. -/
theorem Tidy.doneUnlessAt_insertPart (h : p.Tidy) (id : LoopId) (origin : Nat) (whole : UnifiedLoop)
    (v : Variant) (place : Nat) :
    DoneUnlessAt Fault.IsPlain (Edit.insertPart id origin whole v place) p := by
  refine doneUnlessAt_ask_bind (p.answeredUnless_loopBounds id) fun ⟨begin, stop⟩ _ => ?_
  refine .bind (Edit.doneUnless_copyRange _ _ p) fun copies r hcopy => ?_
  refine .bind (.modifyGet _) fun new s hbind => ?_
  refine .bind (Edit.doneUnless_copyInnerLoops _ _ _ s) fun renumber u hinner => ?_
  refine .bind (.modifyGet _) fun _ w hmodify => ?_
  obtain ⟨inside, t, _, _, hsnd, hcopied, hren⟩ := h.copiesRenumbered hcopy hbind hinner hmodify
  obtain ⟨hfree, hnodup⟩ := hren.free_names hcopied
  rw [hsnd]
  refine .bind (doneUnlessAt_insertAt hfree hnodup _) fun _ x _ => ?_
  exact .bind (doneUnless_runHandlers _ _ _ x) fun _ _ _ => .pure _

theorem Settled.doneUnlessAt_insertParts (h : p.Settled) (id : LoopId) (origin : Nat)
    (whole : UnifiedLoop) (place : Nat) (vs : List Variant) :
    DoneUnlessAt Fault.IsPlain (Edit.insertParts id origin whole place vs) p := by
  fun_induction Edit.insertParts id origin whole place vs generalizing p with
  | case1 => exact .pure _
  | case2 place v =>
    exact doneUnlessAt_ask_bind (p.loops.answeredUnless_replace _ _) fun _ _ =>
      .bind (.modifyGet _) fun _ q _ => doneUnless_runHandlers _ _ _ q
  | case3 place v rest _ ih =>
    refine .bind (h.tidy.doneUnlessAt_insertPart _ _ _ _ _) fun ⟨count, events⟩ q hpart => ?_
    exact .bind (ih count (h.insertPart hpart).settled) fun _ _ _ => .pure _

theorem Settled.doneUnlessAt_splitLoop (h : p.Settled) (id : LoopId) :
    DoneUnlessAt Fault.IsPlain (Edit.splitLoop id) p := by
  refine doneUnlessAt_ask_bind (p.loops.answeredUnless_unifiedPlace id) fun origin _ => .bind_get ?_
  refine doneUnlessAt_ask_bind (Variant.answeredUnless_split _ _ _) fun parts _ => ?_
  refine doneUnlessAt_ask_bind (p.answeredUnless_loopBounds id) fun ⟨begin, _⟩ _ => ?_
  exact h.doneUnlessAt_insertParts id _ _ _ _

theorem Settled.doneUnlessAt_splitLoops (h : p.Settled) : DoneUnlessAt Fault.IsPlain Edit.splitLoops p := by
  refine .bind (Edit.doneUnless_unifiedDepths p) fun pending q hdepths => ?_
  obtain rfl := unifiedDepths_eq_ok hdepths
  refine .bind (.mapM (I := Settled) (fun (id, _) q hq => hq.doneUnlessAt_splitLoop id)
    (fun _ _ q r hq hok => (hq.splitLoop hok).settled) _ h) fun _ _ _ => .pure _

end Program

open Program

/-- The causes other than those of names, of linear scan and of writing registers. -/
def CompileCause.IsPlain : CompileCause → Prop
  | .refused (.fault fault) => fault.IsPlain
  | _ => True

namespace Kernel

/-- A pass whose faults are plain. -/
theorem doneUnlessAt_pass {step : EStateM Fault Workspace α} (h : DoneUnlessAt Fault.IsPlain step w) :
    DoneUnlessAt CompileCause.IsPlain (pass step) w :=
  .adaptExcept h

theorem doneUnlessAt_edit {change : Edit α} (h : DoneUnlessAt Fault.IsPlain change w.program) :
    DoneUnlessAt CompileCause.IsPlain (edit change) w := by
  refine doneUnlessAt_pass fun fault w' hfault => ?_
  unfold Workspace.edit at hfault
  split at hfault
  · cases hfault
  · rename_i program hchange
    cases hfault
    exact h fault program hchange

/-- Lowering the loops of a subgraph has only plain faults. -/
theorem doneUnlessAt_lowerLoops (built : sg.build = .ok p) (options : CompileOptions) :
    DoneUnlessAt CompileCause.IsPlain (lowerLoops options) { program := p } := by
  obtain ⟨ls, described, _⟩ := Subgraph.build_described built
  have hlisted := described.listed
  refine .bind (doneUnlessAt_edit (Edit.doneUnless_initLoops p)) fun _ u hinit => ?_
  have hpointers := repointed_initLoops (edit_eq_ok hinit).1
  refine .bind (doneUnlessAt_edit (hpointers.pristine hlisted.pristine).doneUnlessAt_insertAllMarkers)
    fun _ v hmark => ?_
  split
  · exact .pure _
  · have hmarked : lowerLoops { options with noIterations := true } { program := p } = .ok [] v :=
      bind_eq_ok.mpr ⟨_, u, hinit, bind_eq_ok.mpr ⟨_, v, hmark, rfl⟩⟩
    exact doneUnlessAt_edit (Subgraph.settled_of_lowerLoops built hmarked).doneUnlessAt_splitLoops

/-- A compilation is refused for what the assignment of registers is refused for, or for a plain fault. -/
theorem doneUnlessAt_passes {P : CompileCause → Prop} (plain : ∀ cause, cause.IsPlain → P cause)
    (built : sg.build = .ok p) {m : Machine} {options : CompileOptions}
    (allocated : ∀ events u, lowerLoops options { program := p } = .ok events u →
      DoneUnlessAt P (allocate m) u) : DoneUnlessAt P (passes m options) { program := p } := by
  refine .bind (fun cause w h => plain cause (doneUnlessAt_lowerLoops built options cause w h))
    fun events u hlower => ?_
  refine .bind (allocated events u hlower) fun a v hallocate => ?_
  dsimp only
  split
  · exact .bind (.pure _) fun _ _ _ => .bind_get (.pure _)
  · -- Calls can be bracketed.
    have hsettled := (Subgraph.settled_of_lowerLoops built hlower).enumerate
    obtain ⟨w, hranged, hassigned, _⟩ := allocate_eq_ok.mp hallocate
    obtain ⟨_, _, _, _, _, hlive⟩ := lowerLoops_eq_ok hlower
    have hspillable := (Workspace.spillable_of_assign (hlive ▸ Liveness.within_empty _)
      (.of_forall fun x hx _ => hsettled.full x hx) hranged hassigned).1
    obtain ⟨bs, x, hspills⟩ := hspillable.insertSpills_ok
    refine .bind (.adaptExcept fun fault y hfault => ?_) fun _ _ _ => .bind_get (.pure _)
    rw [hspills] at hfault
    cases hfault

end Kernel

end TensorKernel
