import TensorKernel.Loop.Markers
import TensorKernel.Proofs.Loop.Pristine

/-!
# Putting markers around a loop

The markers of a loop are new expressions with names of their own. They come to stand around the part
of the program that the loop covers; what was there before keeps its header and what it reads, and
nothing else changes.
-/

namespace TensorKernel.Program

open Outcome

variable {x : ExprId} {inside left right : List ExprId} {outer : List LoopId}
  {inputs pointers : List ValueRef} {id : LoopId} {r : PortRef} {u : Program} {v : ValueRef}

variable {p q : Program}

/-- Which loops are listed where does not matter to a pristine program. -/
theorem Pristine.of_loops (h : p.Pristine) (hrest : q = { p with exprs := q.exprs })
    (hsize : q.exprs.size = p.exprs.size)
    (hexpr : ∀ x, ∃ loops, q.expr x = { p.expr x with loops }) : q.Pristine := by
  have horder : q.order = p.order := by rw [hrest]
  have hnames : q.names = p.names := by rw [hrest]
  have hslots : q.slots = p.slots := by rw [hrest]
  have hloops : q.loops = p.loops := by rw [hrest]
  have hname : ∀ x, (q.expr x).name = (p.expr x).name := by
    intro x
    obtain ⟨loops, hx⟩ := hexpr x
    rw [hx]
  have hinputs : ∀ x, (q.expr x).inputs = (p.expr x).inputs := by
    intro x
    obtain ⟨loops, hx⟩ := hexpr x
    rw [hx]
  have houtputs : ∀ v, q.output? v = p.output? v := by
    intro v
    obtain ⟨loops, hx⟩ := hexpr v.producer
    rw [output?, hx, output?]
  refine ⟨⟨fun id hid => ?_, horder ▸ h.tidy.nodup, fun id hid => ?_, ?_⟩,
    h.wired.of_ports houtputs hinputs, fun x => ?_,
    fun v => (aliasGroup_of_output? houtputs v).trans (h.alone v), hloops ▸ h.ids, hloops ▸ h.whole,
    fun x => ?_⟩
  · rw [hsize]
    exact h.tidy.valid id (horder ▸ hid)
  · rw [hname, isUsed, find?, hnames]
    exact h.tidy.named id (horder ▸ hid)
  · rw [length, horder, hslots]
    exact h.tidy.room
  · obtain ⟨loops, hx⟩ := hexpr x
    rw [hx]
    exact h.original x
  · obtain ⟨loops, hx⟩ := hexpr x
    rw [hx, hloops]
    exact h.known x

/-- A name made from a base is free and starts with the base. -/
theorem uniqueName_spec (p : Program) (base : Label) :
    (p.uniqueName base).2 = { p with serial := (p.uniqueName base).2.serial } ∧
      p.isUsed (p.uniqueName base).1 = false ∧
      base.bytes <+: (p.uniqueName base).1.bytes := by
  unfold uniqueName
  cases hused : p.isUsed base with
  | false => exact ⟨rfl, hused, List.prefix_rfl⟩
  | true =>
    refine ⟨rfl, (p.nextSerial_free base).2, ?_⟩
    show base.bytes <+: (numbered base (p.nextSerial base)).bytes
    rw [numbered, Label.bytes_append]
    exact List.prefix_append ..

/-- An operation that was made but does not stand in the program yet. -/
structure OpMade (p : Program) (name : Label) (op : Op) (inputs : List ValueRef) (q : Program) :
    Prop where
  /-- The program stays pristine. -/
  pristine : q.Pristine
  /-- What was there stays. -/
  keeps : p.Extends q
  /-- Nothing but expressions changed. -/
  rest : q = { p with exprs := q.exprs }
  /-- There is one more expression. -/
  size : q.exprs.size = p.exprs.size + 1
  /-- Its values are new, the others stay. -/
  values : ∀ v, q.HasValue v ↔
    if v.producer = p.exprs.size then v.output < op.outputs.toNat else p.HasValue v
  /-- It is as it was described. -/
  header : (q.expr p.exprs.size).header = (op.expr name []).header
  /-- It reads what it was given. -/
  sources : (q.expr p.exprs.size).inputs.map (·.source) = inputs

/-- Making an operation on values of the program. -/
theorem Pristine.opMade (h : p.Pristine) (name : Label) (op : Op) (hin : ∀ v ∈ inputs, p.HasValue v)
    (hloop : op.loop = 0 ∨ op.loop ∈ p.loops.ids) : p.OpMade name op inputs (p.makeOp name op inputs).2 := by
  have hr := p.rewired_make (op.expr name (inputs.map p.inputOf))
  have hmade : p.Made (op.expr name (inputs.map p.inputOf)) (p.makeOp name op inputs).2 := by
    refine h.wired.make (p.unused_makeOp name op inputs) fun i hi => ?_
    obtain ⟨v, hv, rfl⟩ := List.mem_map.mp hi
    exact hin v hv
  refine ⟨h.makeOp name hin hloop, p.extends_make _, hr.rest.trans rfl,
    hr.size.trans (Array.size_push _), fun v => (hmade.values v).trans ?_, ?_, ?_⟩
  · rw [Op.expr, List.length_replicate]
  · refine (hr.header _).trans ?_
    rw [expr_push, if_pos rfl]
    rfl
  · rw [hmade.inputs, if_pos rfl]
    show (inputs.map p.inputOf).map (·.source) = inputs
    rw [List.map_map]
    exact List.map_id _

/-- A marker that was made but does not stand in the program yet. -/
structure MarkerMade (p : Program) (role : Role) (base : String) (outputs : Nat) (id : LoopId)
    (outer : List LoopId) (inputs : List ValueRef) (q : Program) : Prop where
  /-- The program stays pristine. -/
  pristine : q.Pristine
  /-- What was there stays. -/
  keeps : p.Extends q
  /-- There is one more expression. -/
  size : q.exprs.size = p.exprs.size + 1
  /-- Its values are new, the others stay. -/
  values : ∀ v, q.HasValue v ↔
    if v.producer = p.exprs.size then v.output < outputs else p.HasValue v
  /-- The list stays. -/
  order : q.order = p.order
  /-- The names in use stay. -/
  names : q.names = p.names
  /-- The loops stay. -/
  loops : q.loops = p.loops
  /-- The name of the marker is free. -/
  free : p.isUsed (q.expr p.exprs.size).name = false
  /-- It starts with the base. -/
  name : (Label.ofString base).bytes <+: (q.expr p.exprs.size).name.bytes
  /-- The marker has its role, its loop and the loops around it. -/
  marker : (q.expr p.exprs.size).role = role ∧ (q.expr p.exprs.size).loop = id ∧
    (q.expr p.exprs.size).loops = outer
  /-- It reads what it was given. -/
  sources : (q.expr p.exprs.size).inputs.map (·.source) = inputs

theorem expr_setLoops (p : Program) (id x : ExprId) (loops : List LoopId) (hid : id < p.exprs.size) :
    (p.setLoops id loops).expr x = if x = id then { p.expr x with loops } else p.expr x := by
  rw [setLoops, expr_modifyExpr]
  by_cases hx : x = id
  · rw [if_pos ⟨hx.symm, hx ▸ hid⟩, if_pos hx]
  · rw [if_neg fun h => hx h.1.symm, if_neg hx]

/-- Making a marker of a registered loop that reads values of the program. -/
theorem Pristine.makeMarker (h : p.Pristine) (kind : String) {role : Role} (hrole : role ≠ .op)
    (base : String) (outputs : Nat) (hid : id ∈ p.loops.ids) (outer : List LoopId)
    (hin : ∀ v ∈ inputs, p.HasValue v) :
    ∃ q, Edit.makeMarker kind role base outputs id outer inputs p = .ok p.exprs.size q ∧
      p.MarkerMade role base outputs id outer inputs q := by
  obtain ⟨hsame, hfree, hname⟩ := p.uniqueName_spec (base ++ toString id)
  generalize hunique : p.uniqueName (base ++ toString id) = unique at hsame hfree hname
  obtain ⟨name, u⟩ := unique
  dsimp only at hsame hfree hname
  generalize u.serial = serial at hsame
  subst hsame
  have hu : ({ p with serial } : Program).Pristine :=
    h.congr ⟨h.tidy.valid, h.tidy.nodup, h.tidy.named, h.tidy.room⟩ rfl rfl
  have hmade := hu.opMade name { kind, role, outputs, loop := id } hin (.inr hid)
  have hmake : Edit.makeMarker kind role base outputs id outer inputs p =
      .ok p.exprs.size ((({ p with serial } : Program).makeOp name
        { kind, role, outputs, loop := id } inputs).2.setLoops p.exprs.size outer) := by
    refine modifyGet_eq_ok.mpr ?_
    dsimp only
    rw [hunique]
    rfl
  generalize (({ p with serial } : Program).makeOp name
    { kind, role, outputs, loop := id } inputs).2 = v at hmade hmake
  have hsize : v.exprs.size = p.exprs.size + 1 := hmade.size
  have hlt : p.exprs.size < v.exprs.size := by omega
  have hexpr := fun x => v.expr_setLoops p.exprs.size x outer hlt
  have hqsize : (v.setLoops p.exprs.size outer).exprs.size = v.exprs.size := by
    simp [setLoops, modifyExpr]
  have hold : ∀ x : Nat, x < p.exprs.size → (v.setLoops p.exprs.size outer).expr x = v.expr x := by
    intro x hx
    rw [hexpr, if_neg (Nat.ne_of_lt hx)]
  have hnew : (v.setLoops p.exprs.size outer).expr p.exprs.size =
      { v.expr p.exprs.size with loops := outer } := by rw [hexpr, if_pos rfl]
  have hname' : (v.expr p.exprs.size).name = name := Expr.name_of_header hmade.header
  refine ⟨_, hmake, hmade.pristine.of_loops rfl hqsize fun x => ?_, ⟨?_, fun x hx => ?_, fun x hx => ?_⟩,
    hqsize.trans hsize, fun w => ?_, ?_, ?_, ?_, ?_, ?_, ⟨?_, ?_, ?_⟩, ?_⟩
  · rw [hexpr]
    split
    · exact ⟨_, rfl⟩
    · exact ⟨(v.expr x).loops, rfl⟩
  · rw [hqsize, hsize]
    exact Nat.le_succ _
  · rw [hold x hx]
    exact hmade.keeps.header x hx
  · rw [hold x hx]
    exact hmade.keeps.inputs x hx
  · refine Iff.trans ?_ (hmade.values w)
    rw [HasValue, hexpr, HasValue]
    split <;> rfl
  · show v.order = p.order
    rw [hmade.rest]
  · show v.names = p.names
    rw [hmade.rest]
  · show v.loops = p.loops
    rw [hmade.rest]
  · rw [hnew]
    show p.isUsed (v.expr p.exprs.size).name = false
    rw [hname', hfree]
  · rw [hnew]
    show _ <+: (v.expr p.exprs.size).name.bytes
    rw [hname']
    refine List.IsPrefix.trans ?_ hname
    exact List.prefix_append ..
  · rw [hnew]
    refine (Expr.role_of_header hmade.header).trans ?_
    exact if_neg hrole
  · rw [hnew]
    exact Expr.loop_of_header hmade.header
  · rw [hnew]
  · rw [hnew]
    exact hmade.sources

/-- The value at a port: an output, or what an input reads. -/
theorem value_eq_ok :
    p.value r = .ok v ↔ 0 ≤ r.index ∧
      (r.side = .output ∧ p.HasValue ⟨r.expr, r.index.toNat⟩ ∧ v = ⟨r.expr, r.index.toNat⟩ ∨
        r.side = .input ∧ ∃ i, (p.expr r.expr).inputs[r.index.toNat]? = some i ∧ v = i.source) := by
  have hvalue : p.HasValue ⟨r.expr, r.index.toNat⟩ ↔
      r.index.toNat < (p.expr r.expr).outputs.length := .rfl
  rw [hvalue, value]
  cases r.side with
  | output =>
    unfold output
    dsimp only
    split
    · rename_i hk
      have hlt : r.index.toNat < (p.expr r.expr).outputs.length := by omega
      simp [hk.1, hlt, eq_comm]
    · rename_i hk
      have hno : ¬ (0 ≤ r.index ∧ r.index.toNat < (p.expr r.expr).outputs.length) := by omega
      simp only [reduceCtorEq, false_iff]
      rintro ⟨hle, ⟨_, hlt, _⟩ | ⟨hside, _⟩⟩
      · exact hno ⟨hle, hlt⟩
      · cases hside
  | input =>
    unfold input
    dsimp only
    split
    · rename_i hk
      cases (p.expr r.expr).inputs[r.index.toNat]? <;> simp [hk, eq_comm]
    · rename_i hk
      simp [hk]

/-- The value at a port exists. -/
theorem Wired.hasValue_of_value (h : p.Wired) (hv : p.value r = .ok v) : p.HasValue v := by
  obtain ⟨_, ⟨_, hvalue, rfl⟩ | ⟨_, i, hi, rfl⟩⟩ := value_eq_ok.mp hv
  · exact hvalue
  · exact h.hasValue_source (List.mem_of_getElem? hi)

/-- The value at a port stays when expressions are added. -/
theorem Extends.value (h : p.Extends q) (hvalues : ∀ v, p.HasValue v → q.HasValue v)
    (hv : p.value r = .ok v) : q.value r = .ok v := by
  obtain ⟨hle, ⟨hside, hvalue, rfl⟩ | ⟨hside, i, hi, rfl⟩⟩ := value_eq_ok.mp hv
  · exact value_eq_ok.mpr ⟨hle, .inl ⟨hside, hvalues _ hvalue, rfl⟩⟩
  · refine value_eq_ok.mpr ⟨hle, .inr ⟨hside, i, ?_, rfl⟩⟩
    have hlt : r.expr < p.exprs.size := by
      refine Decidable.byContradiction fun hge => ?_
      rw [expr_of_size_le (Nat.le_of_not_lt hge)] at hi
      cases hi
    rw [h.inputs _ hlt, hi]

/-- Names differ that start with texts of which neither starts with the other. -/
theorem ne_of_prefix {a b s t : Label} (ha : s.bytes <+: a.bytes) (hb : t.bytes <+: b.bytes)
    (hs : ¬ s.bytes <+: t.bytes) (ht : ¬ t.bytes <+: s.bytes) : a ≠ b := by
  rintro rfl
  rcases List.prefix_or_prefix_of_prefix ha hb with h | h
  · exact hs h
  · exact ht h

/-- The markers of a loop: the first one begins it, the second one ends it and reads the pointers and
the counter. -/
structure IsMarkers (q : Program) (begin stop : ExprId) (id : LoopId) (outer : List LoopId)
    (pointers : List ValueRef) : Prop where
  begins : (q.expr begin).role = .loopBegin ∧ (q.expr begin).loop = id ∧ (q.expr begin).loops = outer
  stops : (q.expr stop).role = .loopEnd ∧ (q.expr stop).loop = id ∧ (q.expr stop).loops = outer
  beginSources : (q.expr begin).inputs.map (·.source) = []
  stopSources : (q.expr stop).inputs.map (·.source) = pointers ++ [⟨begin, 0⟩]

theorem IsMarkers.congr {r : Program} {begin stop : ExprId} (h : q.IsMarkers begin stop id outer pointers)
    (hexpr : ∀ x, r.expr x = q.expr x) : r.IsMarkers begin stop id outer pointers := by
  obtain ⟨hbegins, hstops, hbegin, hstop⟩ := h
  refine ⟨?_, ?_, ?_, ?_⟩ <;> rw [hexpr]
  · exact hbegins
  · exact hstops
  · exact hbegin
  · exact hstop

/-- The markers of a loop that were made but do not stand in the program yet. -/
structure MarkersMade (p : Program) (id : LoopId) (outer : List LoopId) (pointers : List ValueRef)
    (q : Program) : Prop where
  /-- The program stays pristine. -/
  pristine : q.Pristine
  /-- What was there stays. -/
  keeps : p.Extends q
  /-- So do the values. -/
  values : ∀ v, p.HasValue v → q.HasValue v
  /-- There are two more expressions. -/
  size : q.exprs.size = p.exprs.size + 2
  /-- The list stays. -/
  order : q.order = p.order
  /-- The loops stay. -/
  loops : q.loops = p.loops
  /-- The names of the markers are free. -/
  free : ∀ x ∈ [p.exprs.size, p.exprs.size + 1], q.isUsed (q.expr x).name = false
  /-- They are different. -/
  apart : (q.expr p.exprs.size).name ≠ (q.expr (p.exprs.size + 1)).name
  /-- They are the markers of the loop. -/
  markers : q.IsMarkers p.exprs.size (p.exprs.size + 1) id outer pointers
  /-- They have the usual numbers of outputs. -/
  usual : p.UsualOutputs → q.UsualOutputs

/-- A begin marker and then an end marker are the markers of a loop. -/
theorem MarkerMade.and_end {v : Program} (hu : p.MarkerMade .loopBegin "loop_begin_" 1 id outer [] u)
    (hv : u.MarkerMade .loopEnd "loop_end_" 0 id outer (pointers ++ [⟨p.exprs.size, 0⟩]) v) :
    p.MarkersMade id outer pointers v := by
  have husual : p.UsualOutputs → v.UsualOutputs := fun h =>
    (h.add hu.size hu.keeps.header hu.values (by simp [hu.marker.1])
      (by simp [hu.marker.1, Role.usualOutputs])).add hv.size hv.keeps.header hv.values
        (by simp [hv.marker.1]) (by simp [hv.marker.1, Role.usualOutputs])
  obtain ⟨hpristine, hkeeps, hsize, hvalues, horder, hnames, hloops, hfree, hname, hmarker, hsources⟩ := hv
  rw [hu.size] at hsize hvalues hfree hname hmarker hsources
  have hlt : p.exprs.size < u.exprs.size := by
    rw [hu.size]
    exact Nat.lt_succ_self _
  have hheader := hkeeps.header _ hlt
  have hbname := Expr.name_of_header hheader
  have hused : ∀ name, v.isUsed name = p.isUsed name := by
    intro name
    rw [isUsed, find?, hnames, hu.names, isUsed, find?]
  have hused' : ∀ name, u.isUsed name = p.isUsed name := by
    intro name
    rw [isUsed, find?, hu.names, isUsed, find?]
  refine ⟨hpristine, hu.keeps.trans hkeeps, fun w hw => ?_, hsize, horder.trans hu.order,
    hloops.trans hu.loops, fun x hx => ?_, ?_, ⟨⟨?_, ?_, ?_⟩, hmarker, ?_, hsources⟩, husual⟩
  · rw [hvalues, if_neg (Nat.ne_of_lt (Nat.lt_succ_of_lt hw.lt_size)), hu.values,
      if_neg (Nat.ne_of_lt hw.lt_size)]
    exact hw
  · rw [hused]
    rcases List.mem_cons.mp hx with rfl | hx
    · rw [hbname]
      exact hu.free
    · rw [List.mem_singleton.mp hx, ← hused']
      exact hfree
  · rw [hbname]
    exact ne_of_prefix hu.name hname (by decide) (by decide)
  · rw [Expr.role_of_header hheader, hu.marker.1]
  · rw [Expr.loop_of_header hheader, hu.marker.2.1]
  · rw [Expr.loops_of_header hheader, hu.marker.2.2]
  · rw [hkeeps.inputs _ hlt]
    exact hu.sources

/-- What putting the markers of a loop around a part of the program does. -/
structure Bracketed (p : Program) (id : LoopId) (left inside right : List ExprId)
    (outer : List LoopId) (pointers : List ValueRef) (q : Program) : Prop where
  /-- The program stays pristine. -/
  pristine : q.Pristine
  /-- What was there stays. -/
  keeps : p.Extends q
  /-- So do the values. -/
  values : ∀ v, p.HasValue v → q.HasValue v
  /-- There are two more expressions. -/
  size : q.exprs.size = p.exprs.size + 2
  /-- The loops stay. -/
  loops : q.loops = p.loops
  /-- The new expressions stand around the part. -/
  order : q.order = left ++ p.exprs.size :: (inside ++ (p.exprs.size + 1) :: right)
  /-- They are the markers of the loop. -/
  markers : q.IsMarkers p.exprs.size (p.exprs.size + 1) id outer pointers
  /-- They have the usual numbers of outputs. -/
  usual : p.UsualOutputs → q.UsualOutputs

/-- One expression with a free name can be put into the program. -/
theorem insertAt_single (horder : p.order = left ++ right) (hfree : p.isUsed (p.expr x).name = false) :
    Edit.insertAt left.length [x] p = .ok () ((p.enterNames [x]).extend (left ++ [x] ++ right)) :=
  insertAt_eq horder (by simpa using hfree) (List.nodup_singleton (p.expr x).name)

/-- Markers that were made can be put around a part of the program, the end before the begin. -/
theorem MarkersMade.insert (h : p.MarkersMade id outer pointers q) (hp : p.Pristine)
    (horder : p.order = left ++ inside ++ right) :
    ∃ r, (do
        Edit.insertAt ((left ++ inside).length : Nat) [p.exprs.size + 1]
        Edit.insertAt left.length [p.exprs.size] : Edit Unit) q = .ok () r ∧
      p.Bracketed id left inside right outer pointers r := by
  have hqorder : q.order = (left ++ inside) ++ right := by rw [h.order, horder]
  have hlt : ∀ x ∈ [p.exprs.size, p.exprs.size + 1], x < q.exprs.size := by
    intro x hx
    rw [h.size]
    simp only [List.mem_cons, List.not_mem_nil, or_false] at hx
    omega
  have hnew : ∀ x ∈ [p.exprs.size, p.exprs.size + 1], x ∉ q.order := by
    intro x hx hmem
    have hvalid := hp.tidy.valid x (h.order ▸ hmem)
    simp only [List.mem_cons, List.not_mem_nil, or_false] at hx
    omega
  have hend := insertAt_single hqorder (h.free (p.exprs.size + 1) (by simp))
  have hmid := h.pristine.insert hqorder (by simpa using hlt _ (by simp))
    (List.nodup_singleton (p.exprs.size + 1)) (by simpa using hnew (p.exprs.size + 1) (by simp))
  generalize hs : (q.enterNames [p.exprs.size + 1]).extend
    (left ++ inside ++ [p.exprs.size + 1] ++ right) = s at hend hmid
  have hsexpr : ∀ x, s.expr x = q.expr x := fun x => by rw [← hs]; rfl
  have hsorder : s.order = left ++ (inside ++ [p.exprs.size + 1] ++ right) := by
    rw [← hs]
    simp only [extend, List.append_assoc]
  have hsfree : s.isUsed (q.expr p.exprs.size).name = false := by
    refine Bool.eq_false_iff.mpr fun hused => ?_
    have hused : (q.enterNames [p.exprs.size + 1]).isUsed (q.expr p.exprs.size).name = true := by
      rw [← hs] at hused
      exact hused
    rcases isUsed_enterNames.mp hused with hmem | hold
    · rw [List.map_singleton, List.mem_singleton] at hmem
      exact h.apart hmem
    · rw [h.free p.exprs.size (by simp)] at hold
      cases hold
  have hbegin := insertAt_single hsorder (hsexpr p.exprs.size ▸ hsfree)
  have hssize : s.exprs.size = q.exprs.size := by rw [← hs]; rfl
  have hsmem : p.exprs.size ∉ s.order := by
    rw [hsorder, ← List.append_assoc, List.mem_append, not_or, ← List.append_assoc, List.mem_append,
      not_or, List.mem_singleton]
    have hno := hnew p.exprs.size (by simp)
    rw [hqorder, List.mem_append, not_or] at hno
    exact ⟨⟨hno.1, by omega⟩, hno.2⟩
  have hlast := hmid.insert hsorder
    (by simpa [hssize] using hlt p.exprs.size (by simp)) (List.nodup_singleton p.exprs.size)
    (by simpa using hsmem)
  have hrexpr : ∀ x, ((s.enterNames [p.exprs.size]).extend
      (left ++ [p.exprs.size] ++ (inside ++ [p.exprs.size + 1] ++ right))).expr x = q.expr x := hsexpr
  refine ⟨_, bind_eq_ok.mpr ⟨_, _, hend, hbegin⟩, hlast, ⟨?_, fun x hx => ?_, fun x hx => ?_⟩,
    fun v hv => ?_, hssize.trans h.size, ?_, by simp [extend], h.markers.congr hrexpr,
    fun hp x hx => ?_⟩
  · show p.exprs.size ≤ s.exprs.size
    rw [hssize]
    exact h.keeps.size
  · rw [hrexpr]
    exact h.keeps.header x hx
  · rw [hrexpr]
    exact h.keeps.inputs x hx
  · rw [HasValue, hrexpr]
    exact h.values v hv
  · show s.loops = p.loops
    rw [← hs]
    exact h.loops
  · obtain ⟨hrole, hvalues⟩ := h.usual hp x (hssize ▸ hx)
    rw [hrexpr]
    exact ⟨hrole, fun k => by rw [HasValue, hrexpr]; exact hvalues k⟩

/-- The markers of a loop can be put around the part of the program that it covers. -/
theorem Pristine.insertMarkers (h : p.Pristine) {info : LoopInfo} (hinfo : p.loops.loop id = .ok info)
    (horder : p.order = left ++ inside ++ right) (hfirst : inside.head? = some x)
    (hspan : p.loopSpan id info.frame = .ok (left.length, left.length + inside.length - 1))
    {value : LoopPort → ValueRef} (hvalue : ∀ port ∈ info.frame.ports, p.value port.port = .ok (value port)) :
    ∃ q, Edit.insertMarkers id p = .ok (p.exprs.size, p.exprs.size + 1) q ∧
      p.Bracketed id left inside right (outerOf (p.expr x).loops id) (info.frame.ports.map value) q := by
  have hid : id ∈ p.loops.ids := LoopTable.mem_ids_of_loop hinfo
  obtain ⟨u, hbegin, hu⟩ := h.makeMarker "LoopBegin" (by decide : Role.loopBegin ≠ .op)
    "loop_begin_" 1 hid (outerOf (p.expr x).loops id) (List.forall_mem_nil _)
  have huvalues : ∀ v, p.HasValue v → u.HasValue v := by
    intro v hv
    rw [hu.values, if_neg (Nat.ne_of_lt hv.lt_size)]
    exact hv
  have hpointers : info.frame.ports.mapM (fun port => Edit.ask fun p => p.value port.port) u =
      .ok (info.frame.ports.map value) u := by
    refine mapM_eq_map fun port hport => ?_
    exact ask_eq_ok.mpr ⟨hu.keeps.value huvalues (hvalue port hport), rfl⟩
  have hread : ∀ v ∈ info.frame.ports.map value ++ [⟨p.exprs.size, 0⟩], u.HasValue v := by
    intro v hv
    rcases List.mem_append.mp hv with hv | hv
    · obtain ⟨port, hport, rfl⟩ := List.mem_map.mp hv
      exact huvalues _ (h.wired.hasValue_of_value (hvalue port hport))
    · rw [List.mem_singleton.mp hv, hu.values, if_pos rfl]
      exact Nat.one_pos
  obtain ⟨v, hend, hv⟩ := hu.pristine.makeMarker "LoopEnd" (by decide : Role.loopEnd ≠ .op)
    "loop_end_" 0 (hu.loops ▸ hid) (outerOf (p.expr x).loops id) hread
  rw [hu.size] at hend
  obtain ⟨r, hinsert, hr⟩ := (hu.and_end hv).insert h horder
  refine ⟨r, ?_, hr⟩
  have hat : p.order[left.length]? = some x := by
    rw [horder, List.append_assoc, List.getElem?_append_right (Nat.le_refl _), Nat.sub_self,
      ← List.head?_eq_getElem?, List.head?_append, hfirst, Option.some_or]
  have hpos : 0 < inside.length := by
    cases inside with
    | nil => cases hfirst
    | cons _ _ => exact Nat.succ_pos _
  have hbehind : ((left.length + inside.length - 1 : Nat) : Int) + 1 = (left ++ inside).length := by
    rw [List.length_append]
    omega
  obtain ⟨_, s, hstop, hbegins⟩ := bind_eq_ok.mp hinsert
  unfold Edit.insertMarkers
  rw [bind_of_ok (ask_eq_ok.mpr ⟨hinfo, rfl⟩), bind_of_ok (ask_eq_ok.mpr ⟨hspan, rfl⟩)]
  dsimp only
  rw [get_bind, hat, hbehind]
  refine bind_eq_ok.mpr ⟨_, u, hbegin, bind_eq_ok.mpr ⟨_, u, hpointers, ?_⟩⟩
  refine bind_eq_ok.mpr ⟨_, v, hend, bind_eq_ok.mpr ⟨_, s, hstop, ?_⟩⟩
  exact bind_eq_ok.mpr ⟨_, r, hbegins, rfl⟩

/-- The first expression of a loop stands before the last one. -/
theorem le_of_loopSpan {frame : LoopFrame} {first last : Nat} (h : p.loopSpan id frame = .ok (first, last)) :
    first ≤ last := by
  unfold loopSpan at h
  obtain ⟨_, h⟩ := guard_eq_ok.mp h
  obtain ⟨entries, _, h⟩ := except_bind_eq_ok.mp h
  obtain ⟨exits, _, h⟩ := except_bind_eq_ok.mp h
  obtain ⟨hle, h⟩ := guard_eq_ok.mp h
  rw [except_pure_eq_ok, Prod.mk.injEq] at h
  omega

/-- What the end marker of a loop reads exists: the values at the ports and the output of the begin. -/
theorem MarkerMade.hasValue_read {base : String} {v : Program}
    (hu : p.MarkerMade .loopBegin base 1 id outer [] u) {ports : List LoopPort}
    (h : (ports.mapM fun port => Edit.ask fun p => p.value port.port) u = .ok pointers v) :
    u = v ∧ ∀ w ∈ pointers ++ [⟨p.exprs.size, 0⟩], u.HasValue w := by
  obtain ⟨hsame, hvalues, _⟩ :=
    mapM_eq_ok_of_same (fun _ _ _ _ hask => (ask_eq_ok.mp hask).2) h
  refine ⟨hsame, fun w hw => ?_⟩
  rcases List.mem_append.mp hw with hw | hw
  · obtain ⟨port, _, hask⟩ := hvalues w hw
    exact hu.pristine.wired.hasValue_of_value (ask_eq_ok.mp hask).1
  · rw [List.mem_singleton.mp hw, hu.values, if_pos rfl]
    exact Nat.one_pos

/-- Markers of a loop that were inserted stand around a part of the program. -/
theorem Pristine.bracketed_of_insertMarkers (h : p.Pristine) {pair : ExprId × ExprId}
    (hok : Edit.insertMarkers id p = .ok pair q) :
    ∃ left inside right outer pointers, p.order = left ++ inside ++ right ∧
      p.Bracketed id left inside right outer pointers q := by
  unfold Edit.insertMarkers at hok
  obtain ⟨info, hinfo, hok⟩ := ask_bind_eq_ok.mp hok
  obtain ⟨⟨first, last⟩, hspan, hok⟩ := ask_bind_eq_ok.mp hok
  dsimp only at hok
  rw [get_bind] at hok
  generalize outerOf _ id = outer at hok
  obtain ⟨begin, u, hbegin, hok⟩ := bind_eq_ok.mp hok
  obtain ⟨pointers, _, hpointers, hok⟩ := bind_eq_ok.mp hok
  obtain ⟨stop, v, hend, hok⟩ := bind_eq_ok.mp hok
  obtain ⟨_, s, hstops, hok⟩ := bind_eq_ok.mp hok
  obtain ⟨_, r, hbegins, hok⟩ := bind_eq_ok.mp hok
  obtain ⟨_, rfl⟩ := pure_eq_ok.mp hok
  have hid : id ∈ p.loops.ids := LoopTable.mem_ids_of_loop hinfo
  obtain ⟨u', hbegin', hu⟩ := h.makeMarker "LoopBegin" (by decide : Role.loopBegin ≠ .op)
    "loop_begin_" 1 hid outer (List.forall_mem_nil _)
  cases hbegin'.symm.trans hbegin
  obtain ⟨rfl, hread⟩ := hu.hasValue_read hpointers
  obtain ⟨v', hend', hv⟩ := hu.pristine.makeMarker "LoopEnd" (by decide : Role.loopEnd ≠ .op)
    "loop_end_" 0 (hu.loops ▸ hid) outer hread
  cases hend'.symm.trans hend
  rw [hu.size] at hstops
  have hle := le_of_loopSpan hspan
  have hroom := (insertAt_eq_ok hstops).1.2
  rw [length, hv.order, hu.order] at hroom
  have hleft : (p.order.take first).length = first := List.length_take_of_le (by omega)
  have hinside : (p.order.take first ++ (p.order.take (last + 1)).drop first).length = last + 1 := by
    rw [List.length_append, hleft, List.length_drop, List.length_take]
    omega
  have horder : p.order = p.order.take first ++ (p.order.take (last + 1)).drop first ++
      p.order.drop (last + 1) := by
    have hfirst : p.order.take first = (p.order.take (last + 1)).take first := by
      rw [List.take_take, Nat.min_eq_left (by omega)]
    rw [hfirst, List.take_append_drop, List.take_append_drop]
  obtain ⟨r', hinsert, hr⟩ := (hu.and_end hv).insert h horder
  rw [hinside, hleft] at hinsert
  cases hinsert.symm.trans (bind_eq_ok.mpr ⟨_, s, hstops, hbegins⟩)
  exact ⟨_, _, _, _, _, horder, hr⟩

end TensorKernel.Program
