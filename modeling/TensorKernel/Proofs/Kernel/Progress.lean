import TensorKernel.Proofs.Allocation.Collisions
import TensorKernel.Proofs.Allocation.Progress
import TensorKernel.Proofs.Kernel.Settled
import TensorKernel.Proofs.Liveness.Progress
import TensorKernel.Proofs.Loop.ViewChains
import TensorKernel.Proofs.Spill.Checked

/-!
# Compilation goes on behind the loops

A program is well made if it is settled, reads what stands before, has the usual numbers of outputs, and
lets results and reductions read something. Behind the lowering of loops nothing can stop the compilation of
such a program but a lack of registers or conventions that collide: live ranges can be computed, the check
finds nothing, and calls can be bracketed.
-/

namespace TensorKernel

open Outcome

variable {options : CompileOptions} {x : ExprId} {m : Machine} {p : Program}

namespace Program

variable {q : Program}

/-- Results, the views before them and reductions read something. -/
structure Supplied (p : Program) : Prop where
  /-- Following views backwards from a result, every expression reads something. -/
  results : ∀ id ∈ p.results, ∀ x, p.Behind id x → (p.expr x).inputs ≠ []
  /-- So do reductions. -/
  reductions : ∀ x ∈ p.order, (p.expr x).role.isHorizontal = true → (p.expr x).inputs ≠ []

/-- Conventions can be kept only where results and reductions read something. -/
theorem Supplied.of_pins {pins : RegMap} (h : p.pins = .ok pins)
    (valid : ∀ x ∈ p.order, x < p.exprs.size) (down : ∀ a b, p.SeenThrough a b → b < a) :
    p.Supplied := by
  have hasked := asked_of_pins h
  refine ⟨fun id hid x hx => hasked.results id hid x ?_, fun x hx => (hasked.exprs x hx).2⟩
  exact mem_viewsBefore_of_behind (valid id (List.mem_of_mem_filter hid)) (fun a b _ => down a b) hx

/-- Copies read something where their ancestors do. -/
theorem Descends.supplied (h : p.Descends q) (closed : q.Closed) (hp : p.Supplied) : q.Supplied where
  results id hid x hx := by
    obtain ⟨hid, hrole⟩ := List.mem_filter.mp hid
    obtain ⟨hxmem, hbehind⟩ := h.behind closed hid hx
    refine h.inputs_ne_nil hxmem (hp.results _ (List.mem_filter.mpr ⟨h.mem id hid, ?_⟩) _ hbehind)
    rw [← h.role id hid]
    exact hrole
  reductions x hx hrole := by
    refine h.inputs_ne_nil hx (hp.reductions _ (h.mem x hx) ?_)
    rwa [← h.role x hx]

/-- Only roles and sources matter for views. -/
theorem SeenThrough.congr {a b : ExprId} (h : q.SeenThrough a b)
    (role : ∀ x, (q.expr x).role = (p.expr x).role)
    (sources : ∀ x, (q.expr x).inputs.map (·.source) = (p.expr x).inputs.map (·.source)) :
    p.SeenThrough a b := by
  obtain ⟨hrole, i, rest, hinputs, rfl⟩ := seenThrough_iff.mp h
  have ha := sources a
  rw [hinputs, List.map_cons, eq_comm, List.map_eq_cons_iff] at ha
  obtain ⟨j, others, hp, hj, _⟩ := ha
  exact seenThrough_iff.mpr ⟨role _ ▸ hrole, j, others, hp, by rw [hj]⟩

/-- Only roles and sources matter for what is supplied. -/
theorem Supplied.congr (h : p.Supplied) (order : q.order = p.order)
    (role : ∀ x, (q.expr x).role = (p.expr x).role)
    (sources : ∀ x, (q.expr x).inputs.map (·.source) = (p.expr x).inputs.map (·.source)) :
    q.Supplied := by
  have hne : ∀ x, (p.expr x).inputs ≠ [] → (q.expr x).inputs ≠ [] := by
    intro x hne hnil
    have hx := sources x
    rw [hnil] at hx
    exact hne (List.map_eq_nil_iff.mp hx.symm)
  have hview : ∀ a b, q.SeenThrough a b → p.SeenThrough a b := fun _ _ hab => hab.congr role sources
  have hresults : q.results = p.results := by
    rw [Program.results, ofRole, order, Program.results, ofRole]
    exact List.filter_congr fun x _ => by rw [role]
  refine ⟨fun id hid x hx => hne x ?_, fun x hx hrole =>
    hne x (h.reductions x (order ▸ hx) (role x ▸ hrole))⟩
  exact h.results id (hresults ▸ hid) x (Relation.ReflTransGen.mono hview _ _ hx)

/-- Numbering the program moves no expression. -/
theorem ReadsBehind.enumerate (h : p.ReadsBehind) : p.enumerate.ReadsBehind := by
  have hr := p.repositioned_enumerate
  intro x hx i hi
  rw [hr.order] at hx ⊢
  exact h x hx i (hr.inputs x ▸ hi)

/-- In a numbered program consumers have larger numbers. -/
theorem ReadsBehind.forward (h : p.ReadsBehind) (closed : p.Closed) (he : p.Enumerated) : p.Forward := by
  intro x hx i hi
  have hpair := he.pairwise.sublist (h x hx i hi (closed.sources x hx i hi))
  exact List.rel_of_pairwise_cons hpair List.mem_cons_self

/-- A program that waits for registers. -/
structure WellMade (p : Program) : Prop where
  /-- What was made stands in the program and is wired. -/
  settled : p.Settled
  /-- What is read stands before. -/
  behind : p.ReadsBehind
  /-- Every expression has the usual number of outputs. -/
  usual : p.UsualOutputs
  /-- Results and reductions read something. -/
  supplied : p.Supplied

namespace WellMade

/-- Numbering keeps a program well made. -/
theorem enumerate (h : p.WellMade) : p.enumerate.WellMade := by
  have hr := p.repositioned_enumerate
  refine ⟨h.settled.enumerate, h.behind.enumerate, fun x hx => ?_,
    h.supplied.congr hr.order hr.role fun x => by rw [hr.inputs]⟩
  simp only [HasValue, hr.role, hr.outputs]
  exact h.usual x (hr.size ▸ hx)

theorem mem_size (h : p.WellMade) (hx : x ∈ p.order) : x < p.exprs.size :=
  h.settled.tidy.valid x hx

theorem forward (h : p.WellMade) (he : p.Enumerated) : p.Forward := h.behind.forward h.settled.closed he

theorem silentEmpty (h : p.WellMade) : p.SilentEmpty := by
  intro x hx hsilent
  have hnone : ¬ p.HasValue ⟨x, 0⟩ := by
    rw [(h.usual x (h.mem_size hx)).2]
    rcases hsilent with hrole | hrole <;> simp [Role.usualOutputs, hrole]
  exact List.eq_nil_of_length_eq_zero (Nat.eq_zero_of_not_pos hnone)

theorem hasValue_zero (h : p.WellMade) (hx : x ∈ p.order) (hs : ¬ p.IsSilent x) : p.HasValue ⟨x, 0⟩ := by
  rw [(h.usual x (h.mem_size hx)).2, Role.usualOutputs, if_neg fun hrole => hs hrole.symm]
  exact Nat.one_pos

theorem singleOutputs (h : p.WellMade) : p.SingleOutputs := by
  intro x hx
  by_contra hmany
  have hlt := ((h.usual x (h.mem_size hx)).2 1).mp (Nat.lt_of_not_le hmany)
  unfold Role.usualOutputs at hlt
  split at hlt <;> omega

/-- Live ranges can be computed. -/
theorem exists_ranges (h : p.WellMade) (he : p.Enumerated) :
    ∃ w, Workspace.computeRanges { program := p } = .ok () w := by
  have hlinked := h.settled.wired.toLinked
  have hclosed := h.settled.closed
  refine Workspace.computeRanges_ok he (fun id hid => ?_) (fun id hid => ?_) fun id hid hs => ?_
  · obtain ⟨hmem, hrole⟩ := List.mem_filter.mp hid
    have hrole : (p.expr id).role = .parameter := of_decide_eq_true hrole
    have hfirst := output_zero_eq_ok.mpr ⟨h.hasValue_zero hmem (by simp [IsSilent, hrole]), rfl⟩
    obtain ⟨views, hviews⟩ := exists_mapM (f := fun view => p.output view 0)
      (l := p.viewsAfter id) fun x hx => by
        obtain ⟨hxmem, hxrole, _⟩ := hclosed.mem_viewsAfter hlinked hmem hx
        exact ⟨_, output_zero_eq_ok.mpr ⟨h.hasValue_zero hxmem (by simp [IsSilent, hxrole]), rfl⟩⟩
    exact ⟨_, except_bind_eq_ok.mpr ⟨_, hfirst, except_bind_eq_ok.mpr ⟨_, hviews, rfl⟩⟩⟩
  · have hinput : ∀ x ∈ id :: p.viewsBefore id, ∃ v, p.input x 0 = .ok v := fun x hx => by
      obtain ⟨i, _, hi⟩ := exists_input_zero (h.supplied.results id hid x (behind_of_mem_viewsBefore hx))
      exact ⟨_, hi⟩
    obtain ⟨first, hfirst⟩ := hinput id List.mem_cons_self
    obtain ⟨views, hviews⟩ := exists_mapM fun x hx => hinput x (List.mem_cons_of_mem _ hx)
    exact ⟨_, except_bind_eq_ok.mpr ⟨_, hfirst, except_bind_eq_ok.mpr ⟨_, hviews, rfl⟩⟩⟩
  · have hrole := (h.usual id (h.mem_size hid)).1
    cases hr : (p.expr id).role <;> simp_all [Role.bank]

/-- What conventions fix is there when live ranges have been computed. -/
theorem pinnable (h : p.WellMade) {w : Workspace}
    (ranged : Workspace.computeRanges { program := p } = .ok () w) : w.program.Pinnable := by
  have hwired := h.settled.wired
  obtain ⟨_, hr, hdefined⟩ :=
    Workspace.ranged_of_computeRanges hwired.fresh hwired.toLinked hwired.grouped ranged
  have hlinked := hwired.toLinked.of_bare hr.bare
  have hclosed := h.settled.closed.of_bare hr.bare
  have hsupplied : w.program.Supplied :=
    h.supplied.congr (order_congr hr.bare) (role_congr hr.bare) (sources_congr hr.bare)
  refine ⟨hlinked, hclosed, fun v hv => ?_, fun x hx hs => ?_,
    fun id hid x hx => ?_, fun x hx hrole => ?_⟩
  · have hv := (hasValue_congr hr.bare v).mp hv
    have howns : p.Owns v := ⟨h.settled.full _ hv.lt_size, hv⟩
    exact hdefined v howns (howns.not_isSilent h.silentEmpty)
  · rw [hasValue_congr hr.bare]
    refine h.hasValue_zero (order_congr hr.bare ▸ hx) fun hsilent => hs ?_
    rwa [IsSilent, role_congr hr.bare]
  · have hmem := hclosed.mem_viewsBefore (List.mem_of_mem_filter hid) hx
    obtain ⟨i, hi, hinput⟩ :=
      exists_input_zero (hsupplied.results id hid x (behind_of_mem_viewsBefore hx))
    exact ⟨_, hinput, hlinked.hasValue_source hmem hi⟩
  · exact hsupplied.reductions x hx hrole

end WellMade

/-- What descends from a well made program and is settled is well made. -/
theorem Descends.wellMade (h : p.Descends q) (hp : p.WellMade) (settled : q.Settled)
    (behind : q.ReadsBehind) : q.WellMade where
  settled := settled
  behind := behind
  usual x hx := by
    have hmem := settled.full x hx
    obtain ⟨hrole, hvalues⟩ := hp.usual _ (hp.mem_size (h.mem x hmem))
    rw [h.role x hmem]
    exact ⟨hrole, fun k => (h.values x hmem k).trans (hvalues k)⟩
  supplied := h.supplied settled.closed hp.supplied

end Program

open Program

/-- Registers are found for a well made program and pass the check, unless they run out or the conventions
collide. -/
theorem Kernel.allocate_cases (h : p.WellMade) (buffers : p.enumerate.BuffersInRange) (m : Machine) :
    (∃ a w, allocate m { program := p } = .ok a w ∧ w.Spillable) ∨
      (∃ w lack, allocate m { program := p } = .error (.refused (.shortage lack)) w) ∨
      ∃ w fault, Workspace.computeRanges { program := p.enumerate } = .ok () w ∧
        w.program.pins = .error fault ∧
        allocate m { program := p } = .error (.refused (.fault fault)) w := by
  have hs := h.enumerate
  have hwired := hs.settled.wired
  have he : p.enumerate.Enumerated :=
    enumerated_enumerate h.settled.tidy.valid h.settled.tidy.nodup
  obtain ⟨v, hranged⟩ := hs.exists_ranges he
  obtain ⟨_, hr, hdefined⟩ :=
    Workspace.ranged_of_computeRanges hwired.fresh hwired.toLinked hwired.grouped hranged
  have hassign : allocate m { program := p } = (do
      let allocation ← EStateM.adaptExcept CompileCause.refused (Workspace.assign m)
      let violations := (← get).violations m allocation
      if !violations.isEmpty then throw (.rejected violations)
      return allocation : Pass Allocation) v := by
    unfold allocate
    rw [bind_of_ok (a := ⟨⟩) (modify_eq_ok.mpr rfl), bind_of_ok]
    exact adaptExcept_eq_ok.mpr hranged
  have hrefused : ∀ refusal, Workspace.assign m v = .error refusal v →
      allocate m { program := p } = .error (.refused refusal) v := by
    intro refusal herror
    rw [hassign]
    refine bind_eq_error.mpr (.inl ?_)
    unfold EStateM.adaptExcept
    rw [herror]
  rcases Workspace.assign_cases hwired.fresh hwired.toLinked hwired.grouped hs.settled.closed
    hs.singleOutputs hranged m with ⟨a, w, hassigned⟩ | ⟨lack, hlack⟩ | ⟨fault, hpins, hfault⟩
  · have hclean := hr.passes_check he hwired.toLinked (hs.forward he) hs.settled.closed hs.silentEmpty
      buffers (fun x hx => hdefined x hx (hx.not_isSilent hs.silentEmpty)) hassigned
    refine .inl ⟨a, w, allocate_eq_ok.mpr ⟨v, hranged, hassigned, hclean⟩, ?_⟩
    exact (Workspace.spillable_of_assign (Liveness.within_empty _)
      (.of_forall fun x hx _ => hs.settled.full x hx) hranged hassigned).1
  · exact .inr (.inl ⟨v, lack, hrefused _ hlack⟩)
  · exact .inr (.inr ⟨v, fault, hranged, hpins, hrefused _ hfault⟩)

/-- Whether registers ran out. -/
def Refusal.isShortage : Refusal → Bool
  | .shortage _ => true
  | .fault _ => false

/-- A program is compiled, or the compilation is refused for one of the given reasons. -/
def Kernel.CompiledUnless (m : Machine) (options : CompileOptions) (p : Program)
    (reason : Refusal → Prop) : Prop :=
  (∃ kernel q, compile m options p = .ok kernel q) ∨
    ∃ error q refusal, compile m options p = .error error q ∧ error.cause = .refused refusal ∧
      reason refusal

theorem Kernel.CompiledUnless.mono {reason other : Refusal → Prop} (h : CompiledUnless m options p reason)
    (hreason : ∀ refusal, reason refusal → other refusal) : CompiledUnless m options p other :=
  h.imp_right fun ⟨error, q, refusal, hcompile, hcause, hrefusal⟩ =>
    ⟨error, q, refusal, hcompile, hcause, hreason refusal hrefusal⟩

/-- A well made program is compiled, unless registers run out or the conventions collide. -/
theorem Kernel.compiledUnless {q : Program} {events : List HandlerEvent}
    (lowered : lowerLoops options { program := p } = .ok events { program := q }) (h : q.WellMade)
    (buffers : q.enumerate.BuffersInRange) :
    CompiledUnless m options p fun refusal => refusal.isShortage = true ∨
      ∃ fault w, refusal = .fault fault ∧
        Workspace.computeRanges { program := q.enumerate } = .ok () w ∧
        w.program.pins = .error fault := by
  have hrefused : ∀ cause w, allocate m { program := q } = .error cause w →
      compile m options p = .error ⟨w.program.name, m.name, cause⟩ w.program := by
    intro cause w hallocate
    have hpasses : passes m options { program := p } = .error cause w :=
      bind_eq_error.mpr (.inr ⟨events, _, lowered, bind_eq_error.mpr (.inl hallocate)⟩)
    unfold compile
    rw [hpasses]
  rcases allocate_cases h buffers m with ⟨a, w, hallocate, hspillable⟩ | ⟨w, lack, hlack⟩ |
    ⟨w, fault, hranged, hpins, hfault⟩
  · have hspills : ∃ spills w', (if options.noSpills then pure [] else pass Workspace.insertSpills :
        Pass (List Bracket)) w = .ok spills w' := by
      cases options.noSpills with
      | true => exact ⟨[], w, rfl⟩
      | false =>
        obtain ⟨bs, w', hbs⟩ := hspillable.insertSpills_ok
        exact ⟨bs, w', adaptExcept_eq_ok.mpr hbs⟩
    obtain ⟨spills, w', hspills⟩ := hspills
    have hpasses := passes_eq_ok.mpr ⟨events, _, a, w, spills, lowered, hallocate, hspills, rfl⟩
    have hcompile : ∃ kernel, compile m options p = .ok kernel w'.program := by
      unfold compile
      rw [hpasses]
      exact ⟨_, rfl⟩
    obtain ⟨kernel, hcompile⟩ := hcompile
    exact .inl ⟨kernel, _, hcompile⟩
  · exact .inr ⟨_, _, _, hrefused _ w hlack, rfl, .inl rfl⟩
  · exact .inr ⟨_, _, _, hrefused _ w hfault, rfl, .inr ⟨fault, w, rfl, hranged, hpins⟩⟩

end TensorKernel
