import TensorKernel.Proofs.Allocation.Conform
import TensorKernel.Proofs.Kernel.Convention
import TensorKernel.Proofs.Kernel.Nested
import TensorKernel.Proofs.Kernel.Progress

/-!
# The cost of splitting loops

A subgraph whose program compiles with whole loops is split into a program that is well made: copies have
the roles, the outputs and the inputs of what they are copies of. If none of them has a register that
conventions fix, the conventions ask for what they asked for with whole loops, and splitting costs nothing
but registers. Otherwise conventions may collide, and nothing else goes wrong.
-/

namespace TensorKernel

open Program

variable {a b : ExprId} {events : List HandlerEvent} {q : Program} {u v w : Workspace}

variable {p r s : Program}

namespace Program

section

variable {n : Nest} (h : r.Marked s n) (full : ∀ x : Nat, x < s.exprs.size → x ∈ s.order)
  (order : r.order = List.range r.exprs.size)
  (earlier : ∀ x, ∀ i ∈ (r.expr x).inputs, i.source.producer < x)

include h full order

/-- A view is no marker, so it was there before markers were inserted. -/
theorem Marked.view_lt_size {x : Nat} (hx : x < s.exprs.size) (hrole : (s.expr x).role = .shapeInfer) :
    x < r.exprs.size := by
  have hmem : x ∈ r.order := by
    rw [← h.erased]
    refine List.mem_filter.mpr ⟨full x hx, ?_⟩
    rw [hrole]
    rfl
  rw [order] at hmem
  exact List.mem_range.mp hmem

include earlier

/-- In a marked program, views are followed backwards to smaller numbers. -/
theorem Marked.down (hab : s.SeenThrough a b) : b < a := by
  obtain ⟨hrole, i, rest, hinputs, rfl⟩ := seenThrough_iff.mp hab
  have hi : i ∈ (s.expr a).inputs := by simp [hinputs]
  have hlt := h.view_lt_size full order (h.pristine.wired.hasValue_source hi).lt_size hrole
  rcases Nat.lt_or_ge a r.exprs.size with ha | ha
  · rw [h.keeps.inputs a ha] at hi
    exact earlier a i hi
  · exact Nat.lt_of_lt_of_le hlt ha

/-- They are followed forwards to larger numbers. -/
theorem Marked.up (hab : s.nextView? a = some b) : a < b := by
  rw [nextView?_eq] at hab
  obtain ⟨u, hu, rfl⟩ := Option.map_eq_some_iff.mp hab
  have huse := List.mem_of_find?_eq_some hu
  have hrole : (s.expr u.consumer).role = .shapeInfer := by simpa using List.find?_some hu
  have hlt := h.view_lt_size full order (h.pristine.wired.consumer_lt_size huse) hrole
  obtain ⟨i, hi, hsource⟩ := Option.map_eq_some_iff.mp ((h.pristine.wired.linked _ _ _).mpr huse)
  have hi := List.mem_of_getElem? hi
  rw [h.keeps.inputs _ hlt] at hi
  have := earlier _ i hi
  rwa [hsource] at this

end

/-! ### Conventions of split programs -/

/-- The values of `p` are alone there. In `q` they share registers with values of the same roles, but not with
each other. -/
structure Unshared (p q : Program) : Prop where
  alone : ∀ v, p.aliasGroup v = [v]
  role : ∀ v w : ValueRef, v.producer ∈ p.order → w ∈ q.aliasGroup v →
    (q.expr w.producer).role = (p.expr v.producer).role
  apart : ∀ v w : ValueRef, v.producer ∈ p.order → w.producer ∈ p.order → w ∈ q.aliasGroup v → w = v

/-- Numbering the programs changes no groups. -/
theorem Unshared.enumerate (h : p.Unshared q) : p.enumerate.Unshared q.enumerate := by
  have hp := p.repositioned_enumerate
  have hq := q.repositioned_enumerate
  have hgroup : ∀ v, p.enumerate.aliasGroup v = p.aliasGroup v :=
    aliasGroup_of_output? fun v => by rw [output?, hp.outputs, output?]
  have hgroup' : ∀ v, q.enumerate.aliasGroup v = q.aliasGroup v :=
    aliasGroup_of_output? fun v => by rw [output?, hq.outputs, output?]
  refine ⟨fun v => (hgroup v).trans (h.alone v), fun v w hv hw => ?_, fun v w hv hw hm => ?_⟩
  · rw [hq.role, hp.role]
    exact h.role v w (hp.order ▸ hv) (hgroup' v ▸ hw)
  · exact h.apart v w (hp.order ▸ hv) (hp.order ▸ hw) (hgroup' v ▸ hm)

section

variable (h : p.Conforms q) (unshared : p.Unshared q) (linked : p.Linked) (closed : p.Closed)

include h unshared linked closed

/-- A pointer shares registers with no other value of the program. -/
theorem Conforms.mem_of_mem_flatMap {values : List ValueRef} (hp : q.IsPointer values) {v : ValueRef}
    (hv : v.producer ∈ p.order) (hm : v ∈ values.flatMap q.aliasGroup) : v ∈ values := by
  obtain ⟨x, hx, hm⟩ := List.mem_flatMap.mp hm
  have howns := ((h.isPointer_iff linked closed).mp hp).owns_mem linked closed hx
  rwa [unshared.apart x v howns.1 hv hm]

/-- Pointers stay apart. -/
theorem Conforms.pointersApart (apart : p.PointersApart) : q.PointersApart := by
  intro values others hvalues hothers v hv hm
  have hpvalues := (h.isPointer_iff linked closed).mp hvalues
  have howns := hpvalues.owns_mem linked closed hv
  have hmem := h.mem_of_mem_flatMap unshared linked closed hothers howns.1 hm
  refine apart values others hpvalues ((h.isPointer_iff linked closed).mp hothers) v hv ?_
  refine List.mem_flatMap.mpr ⟨v, hmem, ?_⟩
  rw [unshared.alone]
  exact List.mem_singleton.mpr rfl

end

/-- Conventions that can be kept in a well made program can be kept in one that conforms to it and shares no
registers between its values. -/
theorem Conforms.pins_of_ranges (h : p.Conforms q) (unshared : p.Unshared q) (hp : p.WellMade)
    (hq : q.WellMade) (ranged : Workspace.computeRanges { program := p } = .ok () v)
    (ranged' : Workspace.computeRanges { program := q } = .ok () w) {pins : RegMap}
    (hpins : v.program.pins = .ok pins) : ∃ pins, w.program.pins = .ok pins := by
  have hlinked := hp.settled.wired.toLinked
  have hclosed := hp.settled.closed
  obtain ⟨_, hv, hdefined⟩ :=
    Workspace.ranged_of_computeRanges hp.settled.wired.fresh hlinked hp.settled.wired.grouped ranged
  obtain ⟨_, hw, hdefined'⟩ := Workspace.ranged_of_computeRanges hq.settled.wired.fresh
    hq.settled.wired.toLinked hq.settled.wired.grouped ranged'
  have hapart := hv.pointersApart hlinked hp.settled.wired.grouped hclosed hpins
  have hapart' := h.pointersApart unshared hlinked hclosed hapart
  have howns : ∀ x, v.program.Owns x → p.Owns x := fun x hx =>
    ⟨order_congr hv.bare ▸ hx.1, (hasValue_congr hv.bare x).mp hx.2⟩
  have howns' : ∀ x, p.Owns x → q.Owns x := fun x hx => ⟨h.mem _ hx.1, (h.values x hx.1).mpr hx.2⟩
  -- The values of pointers are in general purpose registers on both sides.
  have hpointer : ∀ values x, q.IsPointer values → x ∈ values →
      (w.program.abstractReg x).bank = (v.program.abstractReg x).bank := by
    intro values x hvalues hx
    rw [Workspace.bank_of_isPointer hq.settled.wired.fresh hq.settled.wired.toLinked
        hq.settled.wired.grouped hq.settled.closed hapart' ranged' hvalues hx,
      Workspace.bank_of_isPointer hp.settled.wired.fresh hlinked hp.settled.wired.grouped hclosed
        hapart ranged ((h.isPointer_iff hlinked hclosed).mp hvalues) hx]
  have hconforms : v.program.Conforms w.program :=
    (Conforms.of_bare hv.bare.symm).trans (h.trans (.of_bare hw.bare))
  refine hconforms.pins_ok (hp.pinnable ranged) (hq.pinnable ranged') (fun x hx => ?_) hpins
    (fun x y hx hy hreg => ?_) fun x hx => ?_
  · rw [order_congr hv.bare]
    refine hp.settled.full x ?_
    rwa [← bare_exprs_size, ← hv.bare, bare_exprs_size]
  · have hx := howns x hx
    have hy := howns y hy
    have hdx := hdefined' x (howns' x hx) ((howns' x hx).not_isSilent hq.silentEmpty)
    obtain ⟨vs, _, horigin, _, hall⟩ := hw.origin x (.inl (howns' x hx).1) hdx
    have hxs := hall x (.inl (howns' x hx).1) rfl
    have hys := hall y (.inl (howns' y hy).1) hreg.symm
    cases horigin with
    | pointer hvalues =>
      refine .inr ⟨_, hvalues.congr hw.bare.symm, ?_, ?_⟩
      · exact h.mem_of_mem_flatMap unshared hlinked hclosed hvalues hx.1 hxs
      · exact h.mem_of_mem_flatMap unshared hlinked hclosed hvalues hy.1 hys
    | group =>
      refine .inl (unshared.apart y x hy.1 hx.1 ?_)
      rw [hq.settled.wired.grouped.aliasGroup_eq hys]
      exact hxs
  · have hx := howns x hx
    have hd := hdefined x hx (hx.not_isSilent hp.silentEmpty)
    have hdx := hdefined' x (howns' x hx) ((howns' x hx).not_isSilent hq.silentEmpty)
    rcases Workspace.bank_of_computeRanges_of_group hq.settled.wired.fresh hq.settled.wired.grouped ranged'
      (howns' x hx) hdx with ⟨values, hvalues, hm⟩ | ⟨y, hy, hbank⟩
    · exact hpointer values x hvalues (h.mem_of_mem_flatMap unshared hlinked hclosed hvalues hx.1 hm)
    · rcases Workspace.bank_of_computeRanges_of_group hp.settled.wired.fresh hp.settled.wired.grouped ranged
        hx hd with ⟨values, hvalues, hm⟩ | ⟨z, hz, hbank'⟩
      · have hvalues := (h.isPointer_iff hlinked hclosed).mpr hvalues
        refine hpointer values x hvalues ?_
        obtain ⟨z, hz, hm⟩ := List.mem_flatMap.mp hm
        rw [unshared.alone, List.mem_singleton] at hm
        rwa [hm]
      · rw [unshared.alone, List.mem_singleton] at hz
        rw [hbank, hbank', hz, unshared.role x y hx.1 hy]

/-! ### Whole programs and split ones -/

/-- Every expression with a fixed role is an original. -/
def FixedOriginal (p : Program) : Prop :=
  ∀ x ∈ p.order, (p.expr x).origin.isSome = true → (p.expr x).role.isFixed = false

instance (p : Program) : Decidable p.FixedOriginal := inferInstanceAs (Decidable (∀ x ∈ p.order, _))

/-- What splitting the loops of `p` keeps in `q`. -/
structure Divides (p q : Program) : Prop where
  /-- The program was well made. -/
  whole : p.WellMade
  /-- It is so after loops were split. -/
  divided : q.WellMade
  /-- Copies descend from its expressions. -/
  descends : p.Descends q
  /-- These stay. -/
  retains : p.Retains q
  /-- No value shared its register. -/
  alone : ∀ v, p.aliasGroup v = [v]
  /-- Views were followed backwards to smaller numbers. -/
  down : ∀ a b, p.SeenThrough a b → b < a
  /-- They were followed forwards to larger ones. -/
  up : ∀ a b, p.nextView? a = some b → a < b

namespace Divides

variable (h : p.Divides q)

include h

theorem ancestor_of_mem {x : ExprId} (hx : x ∈ p.order) : q.ancestor p.exprs.size x = x :=
  q.ancestor_of_lt (h.whole.mem_size hx)

/-- Copies share registers with what they are copies of, and with nothing else that was there. -/
theorem unshared : p.Unshared q where
  alone := h.alone
  role v w hv hw := by
    have hgroup := h.retains.groups v w (h.whole.mem_size hv) hw
    rw [h.alone, List.mem_singleton] at hgroup
    have hmem : w.producer ∈ q.order := by
      by_cases hvalue : q.HasValue v
      · exact h.divided.settled.full _ ((h.divided.settled.wired.grouped v hvalue).2 w hw).1.lt_size
      · rw [aliasGroup_of_not_hasValue hvalue, List.mem_singleton] at hw
        rw [hw]
        exact h.divided.settled.full _ (Nat.lt_of_lt_of_le (h.whole.mem_size hv) h.retains.size)
    rw [h.descends.role _ hmem]
    exact congrArg (fun v : ValueRef => (p.expr v.producer).role) hgroup
  apart v w hv hw hm := by
    have hgroup := h.retains.groups v w (h.whole.mem_size hv) hm
    rw [h.alone, List.mem_singleton, h.ancestor_of_mem hw] at hgroup
    exact hgroup

/-- Conventions see nothing new if no copy has a fixed role. -/
theorem conforms (original : q.FixedOriginal) : p.Conforms q := by
  have hmem : ∀ x, x ∈ p.order ↔ x ∈ q.order ∧ x < p.exprs.size := fun x => by
    rw [← h.retains.kept, List.mem_filter, decide_eq_true_eq]
  have hsingle : ∀ v, p.HasValue v → v.output = 0 := by
    intro v hv
    have hlt := ((h.whole.usual _ hv.lt_size).2 v.output).mp hv
    unfold Role.usualOutputs at hlt
    split at hlt <;> omega
  have hwired := h.whole.settled.wired
  refine ⟨fun x hx => ((hmem x).mp hx).1, ?_, fun x hx => h.retains.role (h.whole.mem_size hx),
    fun x hx => Expr.group_of_header (h.retains.header x (h.whole.mem_size hx)),
    fun x hx => by rw [h.retains.inputs x (h.whole.mem_size hx)], fun v hv => ?_,
    fun x hx => h.retains.viewsBefore hwired h.down (h.whole.mem_size hx),
    fun x hx => h.retains.viewsAfter h.descends h.divided.settled.full hwired hsingle h.up
      (h.whole.mem_size hx)⟩
  · rw [← h.retains.kept, List.filter_filter]
    refine List.filter_congr fun x hx => ?_
    rcases Nat.lt_or_ge x p.exprs.size with hlt | hge
    · simp [hlt, h.retains.role hlt]
    · simp [Nat.not_lt.mpr hge, original x hx (h.descends.copied x hx hge)]
  · rw [h.descends.values _ ((hmem _).mp hv).1, h.ancestor_of_mem hv]

end Divides

end Program

namespace Subgraph

variable {sg : Subgraph} {m : Machine} {options : CompileOptions}

section

variable (built : sg.build = .ok p)
  (kinds : ∀ op ∈ sg.ops, op.kind ≠ "LoopBegin" ∧ op.kind ≠ "LoopEnd")
  (snug : ∀ loop ∈ sg.loops, loop.isSnug = true)

include built kinds snug

/-- A program with whole loops is a listed program with markers. -/
theorem marked_of_lowerLoops (hno : options.noIterations = true)
    (lowered : Kernel.lowerLoops options { program := p } = .ok events u) :
    ∃ r ls n, Edit.initLoops p = .ok () r ∧ Edit.insertAllMarkers r = .ok () u.program ∧
      p.Repointed r ∧ r.Listed ls ∧ r.Marked u.program n := by
  obtain ⟨⟨ls, described⟩, _⟩ := build_eq_ok built
  obtain ⟨r, s, hinit, hmark, hsplit, _⟩ := Kernel.lowerLoops_eq_ok lowered
  rw [if_pos hno] at hsplit
  subst hsplit
  obtain ⟨n, hmarked⟩ := marked_of_insertAllMarkers built kinds snug hinit hmark
  have hpointers := repointed_initLoops hinit
  exact ⟨r, ls, n, hinit, hmark, hpointers, hpointers.listed described.listed, hmarked⟩

/-- A program that was compiled with whole loops is well made. -/
theorem wellMade_of_stages (usual : ∀ op ∈ sg.ops, outputCount op = .ok (Role.ofKind op.kind).usualOutputs)
    (hno : options.noIterations = true) {kernel : Kernel} (stages : Kernel.Stages m options p u v w kernel) :
    u.program.WellMade := by
  obtain ⟨_, transcribes⟩ := build_eq_ok built
  obtain ⟨r, ls, n, _, hmark, hpointers, hlisted, hmarked⟩ :=
    marked_of_lowerLoops built kinds snug hno stages.lowered
  have hsettled := settled_of_lowerLoops built stages.lowered
  have hr : r.Settled := ⟨hlisted.pristine.tidy, hlisted.pristine.wired, fun x hx => by
    rw [hlisted.order]
    exact List.mem_range.mpr hx⟩
  have husual : r.UsualOutputs := by
    rw [hpointers.1]
    exact transcribes.usualOutputs usual
  obtain ⟨_, _, hoffspring⟩ := hr.insertAllMarkers hlisted.pristine hmark
  refine ⟨hsettled, fun x hx i hi _ => hmarked.earlier x hx i hi, hoffspring husual, ?_⟩
  -- The conventions could be kept, so they found what they asked for.
  have hs := hsettled.enumerate
  obtain ⟨he, hranged, _⟩ :=
    Workspace.ranged_of_computeRanges hs.wired.fresh hs.wired.toLinked hs.wired.grouped stages.ranged
  have hnumbered := u.program.repositioned_enumerate
  have hrole : ∀ x, (v.program.expr x).role = (u.program.expr x).role := fun x =>
    (role_congr hranged.bare x).trans (hnumbered.role x)
  have hsources : ∀ x, (v.program.expr x).inputs.map (·.source) =
      (u.program.expr x).inputs.map (·.source) := by
    intro x
    rw [← hnumbered.inputs]
    exact sources_congr hranged.bare x
  have hdown : ∀ a b, v.program.SeenThrough a b → b < a := fun a b hab =>
    hmarked.down hsettled.full hlisted.order hlisted.earlier (hab.congr hrole hsources)
  have hsupplied := Supplied.of_pins (Workspace.assign_ok stages.assigned).1.pins
    (fun x => (he.of_bare hranged.bare).lt_size) hdown
  refine hsupplied.congr ?_ (fun x => (hrole x).symm) fun x => (hsources x).symm
  rw [order_congr hranged.bare, hnumbered.order]

/-- The loops of a well made program can be split. -/
theorem exists_divided
    (lowered : Kernel.lowerLoops { options with noIterations := true } { program := p } = .ok events u)
    (h : u.program.WellMade) :
    ∃ events q, Kernel.lowerLoops { options with noIterations := false } { program := p } =
      .ok events { program := q } ∧ u.program.Divides q := by
  obtain ⟨r, ls, n, hinit, hmark, _, hlisted, hmarked⟩ :=
    marked_of_lowerLoops built kinds snug rfl lowered
  obtain ⟨events', q, _, hsplit, _, hsteps, _⟩ := hmarked.unsplit.splitLoops_ok
  have hlower : Kernel.lowerLoops { options with noIterations := false } { program := p } =
      .ok events' { program := q } := by
    unfold Kernel.lowerLoops
    rw [Outcome.bind_of_ok (Kernel.edit_of_ok hinit), Outcome.bind_of_ok (Kernel.edit_of_ok hmark)]
    exact Kernel.edit_of_ok hsplit
  have hstart := hmarked.unsplit.undivided.structureKept
    ⟨h.settled.wired.toLinked, fun _ _ => h.settled.wired.consumer_lt_size⟩ h.behind
  have hdescends := hstart.descends h.settled.tidy hsteps
  refine ⟨events', q, hlower, h, ?_, hdescends, h.settled.tidy.retains_of_steps h.settled.wired hsteps,
    hmarked.pristine.alone, fun a b => hmarked.down h.settled.full hlisted.order hlisted.earlier,
    fun a b => hmarked.up h.settled.full hlisted.order hlisted.earlier⟩
  exact hdescends.wellMade h (settled_of_lowerLoops built hlower) (hstart.of_steps hsteps).behind

/-- **Splitting costs registers.** If a program is compiled with whole loops, so it is with split ones unless
registers run out, as long as no copy is a parameter, a result, a buffer or a reduction. If there are such
copies, the conventions may collide as well, and nothing else goes wrong. -/
theorem compiledUnless_split (options : CompileOptions) {kernel : Kernel} {r : Program}
    (usual : ∀ op ∈ sg.ops, outputCount op = .ok (Role.ofKind op.kind).usualOutputs)
    (compiled : Kernel.compile m { options with noIterations := true } p = .ok kernel r) :
    ((sg.lowered { options with noIterations := false }).FixedOriginal →
        Kernel.CompiledUnless m { options with noIterations := false } p (·.isShortage)) ∧
      ((sg.lowered { options with noIterations := false }).BuffersInRange →
        Kernel.CompiledUnless m { options with noIterations := false } p fun refusal =>
          refusal.isShortage = true ∨ ∃ fault, refusal = .fault fault ∧ fault.isCollision = true) := by
  obtain ⟨u, v, w, stages⟩ := Kernel.compile_eq_ok compiled
  have hmade := wellMade_of_stages built kinds snug usual rfl stages
  obtain ⟨events, q, hlower, hdivides⟩ := exists_divided built kinds snug stages.lowered hmade
  have hlowered : sg.lowered { options with noIterations := false } = q.enumerate := by
    simp only [lowered, built, hlower]
  rw [hlowered]
  constructor
  · intro original
    have hnumbered := q.repositioned_enumerate
    have horiginal : q.FixedOriginal := by
      intro x hx hcopy
      obtain ⟨position, hexpr⟩ := hnumbered.expr x
      have hfixed := original x (hnumbered.order ▸ hx)
      rw [hexpr] at hfixed
      exact hfixed hcopy
    have hconforms : u.program.enumerate.Conforms q.enumerate :=
      u.program.repositioned_enumerate.symm.conforms.trans
        ((hdivides.conforms horiginal).trans hnumbered.conforms)
    have hu : u = { program := u.program } := by
      obtain ⟨_, _, _, _, _, hlive⟩ := Kernel.lowerLoops_eq_ok stages.lowered
      cases u
      exact congrArg (Workspace.mk _) hlive
    have hranged := stages.ranged
    rw [hu] at hranged
    obtain ⟨hchosen, happlied, _⟩ := Workspace.assign_ok stages.assigned
    have hs := hmade.enumerate.settled
    obtain ⟨_, hr, _⟩ :=
      Workspace.ranged_of_computeRanges hs.wired.fresh hs.wired.toLinked hs.wired.grouped hranged
    have hbuffers : u.program.enumerate.BuffersInRange :=
      (Workspace.buffersInRange_of_violations_eq_nil hchosen happlied stages.clean).congr hr.bare
    refine (Kernel.compiledUnless hlower hdivides.divided (hconforms.buffersInRange hbuffers)).mono ?_
    rintro refusal (hshort | ⟨fault, x, _, hranged', hcollide⟩)
    · exact hshort
    · obtain ⟨pins, hpins⟩ := hconforms.pins_of_ranges hdivides.unshared.enumerate hmade.enumerate
        hdivides.divided.enumerate hranged hranged' hchosen.pins
      rw [hcollide] at hpins
      cases hpins
  · intro hbuffers
    refine (Kernel.compiledUnless hlower hdivides.divided hbuffers).mono ?_
    rintro refusal (hshort | ⟨fault, x, hfault, hranged', hcollide⟩)
    · exact .inl hshort
    · exact .inr ⟨fault, hfault, (hdivides.divided.enumerate.pinnable hranged').isCollision_of_pins hcollide⟩

end

/-- The loop of the sum is split in two, and neither the buffer nor the pointers are copied. -/
theorem compiledUnless_split_bufferedSum : ∃ p, bufferedSum.build = .ok p ∧
    (∃ kernel q, Kernel.compile (.x64 .avx2) { noIterations := true } p = .ok kernel q) ∧
      (∃ x ∈ (bufferedSum.lowered {}).order, ((bufferedSum.lowered {}).expr x).origin.isSome) ∧
        (bufferedSum.lowered {}).FixedOriginal ∧
          Kernel.CompiledUnless (.x64 .avx2) {} p (·.isShortage) := by
  have hsome : (Kernel.ofSubgraph? (.x64 .avx2) { noIterations := true } bufferedSum).isSome = true := by
    decide +kernel
  obtain ⟨kernel, hk⟩ := Option.isSome_iff_exists.mp hsome
  obtain ⟨p, q, hbuild, hcompile⟩ := Kernel.ofSubgraph?_eq_some hk
  have hcopies : ∃ x ∈ (bufferedSum.lowered {}).order,
      ((bufferedSum.lowered {}).expr x).origin.isSome := by
    decide +kernel
  have horiginal : (bufferedSum.lowered {}).FixedOriginal := by decide +kernel
  refine ⟨p, hbuild, ⟨kernel, q, hcompile⟩, hcopies, horiginal, ?_⟩
  exact (compiledUnless_split hbuild (by decide +kernel) (by decide +kernel) {} (by decide +kernel)
    hcompile).1 horiginal

end Subgraph

end TensorKernel
