import TensorKernel.Proofs.Subgraph.Build

/-!
# The shapes of described operations

An operation may be given the empty shape, or none at all. Without a shape it has that of its first
input, so the two make a difference to the program that is built exactly if the operation has outputs
and its first input, if it has any, does not see the empty shape. Whether a subgraph can be built at all
depends on shapes only in that an operation without inputs needs one for its outputs.
-/

namespace TensorKernel

open Outcome

variable {x : ExprId} {earlier loops : List LoopSpec} {ops : List OpSpec} {loop : LoopSpec} {place : Nat}
  {q' : Program}

/-- The description without the shape, if that is the empty one. -/
def OpSpec.withoutEmptyShape (op : OpSpec) : OpSpec := { op with shape := op.shape.filter (!·.isEmpty) }

theorem OpSpec.withoutEmptyShape_eq_self {op : OpSpec} (h : op.shape ≠ some []) :
    op.withoutEmptyShape = op := by
  obtain ⟨name, kind, type, shape, inputs, outputs, group⟩ := op
  cases shape with
  | none => rfl
  | some shape =>
    cases shape with
    | nil => exact absurd rfl h
    | cons n shape => rfl

namespace Program

variable {p q r : Program} {spec : OpSpec} {inputs : List ValueRef} {outputs : Int} {type : ElementType}

/-- The shape that was given goes before that of the first input. -/
theorem outputShape_eq_or : p.outputShape spec inputs = spec.shape.or (inputs.head?.map p.shape) := by
  unfold outputShape
  cases spec.shape <;> rfl

/-- The first input sees the shape of the value that it reads. -/
theorem head?_map_inputOf : (inputs.map p.inputOf).head?.map (·.port.shape) = inputs.head?.map p.shape := by
  cases inputs <;> rfl

/-- Names, order and ports of the expressions stay the same. -/
structure KeepsPorts (p q : Program) : Prop where
  names : q.names = p.names
  order : q.order = p.order
  size : q.exprs.size = p.exprs.size
  inputs : ∀ x, (q.expr x).inputs = (p.expr x).inputs
  outputs : ∀ x, (q.expr x).outputs.map (·.port) = (p.expr x).outputs.map (·.port)

theorem KeepsPorts.refl (p : Program) : p.KeepsPorts p := ⟨rfl, rfl, rfl, fun _ => rfl, fun _ => rfl⟩

theorem KeepsPorts.trans (h : p.KeepsPorts q) (h' : q.KeepsPorts r) : p.KeepsPorts r where
  names := h'.names.trans h.names
  order := h'.order.trans h.order
  size := h'.size.trans h.size
  inputs x := (h'.inputs x).trans (h.inputs x)
  outputs x := (h'.outputs x).trans (h.outputs x)

theorem KeepsPorts.length_outputs (h : p.KeepsPorts q) (x : ExprId) :
    (q.expr x).outputs.length = (p.expr x).outputs.length := by
  simpa using congrArg List.length (h.outputs x)

theorem KeepsPorts.foldl {α : Type} {f : Program → α → Program} (hf : ∀ (p : Program) a, p.KeepsPorts (f p a))
    (p : Program) (l : List α) : p.KeepsPorts (l.foldl f p) := by
  induction l generalizing p with
  | nil => exact .refl p
  | cons a l ih => exact (hf p a).trans (ih _)

/-- A change of one expression that leaves its ports alone. -/
theorem keepsPorts_modifyExpr (p : Program) (id : ExprId) {f : Expr → Expr}
    (hf : ∀ e, (f e).inputs = e.inputs ∧ (f e).outputs.map (·.port) = e.outputs.map (·.port)) :
    p.KeepsPorts (p.modifyExpr id f) := by
  have hports : ∀ x, ((p.modifyExpr id f).expr x).inputs = (p.expr x).inputs ∧
      ((p.modifyExpr id f).expr x).outputs.map (·.port) = (p.expr x).outputs.map (·.port) := by
    intro x
    rw [expr_modifyExpr]
    split
    · exact hf _
    · exact ⟨rfl, rfl⟩
  exact ⟨rfl, rfl, Array.size_modify, fun x => (hports x).1, fun x => (hports x).2⟩

theorem keepsPorts_addUse (p : Program) (v : ValueRef) (u : UseRef) : p.KeepsPorts (p.addUse v u) := by
  refine p.keepsPorts_modifyExpr _ fun e => ⟨rfl, List.ext_getElem? fun k => ?_⟩
  rw [Expr.mapOutput, List.getElem?_map, List.getElem?_map, List.getElem?_modify]
  cases e.outputs[k]? with
  | none => rfl
  | some o => by_cases h : v.output = k <;> simp [h]

theorem keepsPorts_enclose (p : Program) (first last : Nat) (l : UnifiedLoop) :
    p.KeepsPorts (p.enclose first last l).2 := by
  obtain ⟨hnames, horder, hsize, hinputs, houtputs⟩ := KeepsPorts.foldl (fun r e => r.keepsPorts_modifyExpr e
    (f := fun e => { e with loops := e.loops ++ [(p.loops.addUnified l).1] }) fun _ => ⟨rfl, rfl⟩)
    { p with loops := (p.loops.addUnified l).2 } ((p.order.take last).drop first)
  exact ⟨hnames, horder, hsize, hinputs, houtputs⟩

/-- What the program is with an operation at its end: the others keep their ports. -/
structure OpAdded (p : Program) (name : Label) (op : Op) (inputs : List ValueRef) (q : Program) : Prop where
  size : q.exprs.size = p.exprs.size + 1
  names : q.names = (name, p.exprs.size) :: p.names
  order : q.order = p.order ++ [p.exprs.size]
  inputs : ∀ x, (q.expr x).inputs = if x = p.exprs.size then inputs.map p.inputOf else (p.expr x).inputs
  outputs : ∀ x, (q.expr x).outputs.map (·.port) = if x = p.exprs.size then
    List.replicate op.outputs.toNat { shape := op.shape } else (p.expr x).outputs.map (·.port)

namespace OpAdded

variable {name : Label} {op : Op} (h : p.OpAdded name op inputs q)

include h

theorem length_inputs (x : ExprId) : (q.expr x).inputs.length =
    if x = p.exprs.size then inputs.length else (p.expr x).inputs.length := by
  rw [h.inputs]
  split
  · rw [List.length_map]
  · rfl

theorem length_outputs (x : ExprId) : (q.expr x).outputs.length =
    if x = p.exprs.size then op.outputs.toNat else (p.expr x).outputs.length := by
  have hlength := congrArg List.length (h.outputs x)
  rw [List.length_map] at hlength
  rw [hlength]
  split
  · rw [List.length_replicate]
  · rw [List.length_map]

end OpAdded

theorem opAdded_withOp (p : Program) (name : Label) (op : Op) (inputs : List ValueRef) :
    p.OpAdded name op inputs (p.withOp name op inputs) := by
  have hports : ({ p with exprs := p.exprs.push (op.expr name (inputs.map p.inputOf)) } : Program).KeepsPorts
      (p.makeOp name op inputs).2 := KeepsPorts.foldl (fun r u => r.keepsPorts_addUse _ _) _ _
  refine ⟨hports.size.trans (Array.size_push _), ?_, ?_, fun x => ?_, fun x => ?_⟩
  · exact congrArg ((name, p.exprs.size) :: ·) hports.names
  · exact congrArg (· ++ [p.exprs.size]) hports.order
  · refine (hports.inputs x).trans ?_
    rw [expr_push]
    split <;> rfl
  · refine (hports.outputs x).trans ?_
    rw [expr_push]
    split
    · rw [Op.expr, List.map_replicate]
    · rfl

/-- What adding a described operation does. -/
theorem opAdded_of_addOp (h : p.addOp spec = .ok q) : ∃ inputs outputs type,
    p.resolveInputs spec = .ok inputs ∧ outputCount spec = .ok outputs ∧
      ¬ ((p.outputShape spec inputs).isNone = true ∧ 0 < outputs) ∧
      p.OpAdded spec.name (p.describedOp spec inputs outputs type) inputs q := by
  obtain ⟨_, inputs, outputs, type, hinputs, houtputs, hshape, _, rfl⟩ := addOp_eq_ok_iff.mp h
  exact ⟨inputs, outputs, type, hinputs, houtputs, hshape, p.opAdded_withOp _ _ _⟩

theorem keepsPorts_of_addLoop (h : p.addLoop earlier loop = .ok q) : p.KeepsPorts q := by
  obtain ⟨first, last, entries, exits, _, _, _, _, rfl⟩ := addLoop_eq_ok h
  exact p.keepsPorts_enclose _ _ _

/-- Every output has the shape of its operation: the one that was given, or that of the first input. -/
def Shaped (p : Program) (specs : List OpSpec) : Prop :=
  p.exprs.size = specs.length ∧ ∀ (i : Nat) spec, specs[i]? = some spec →
    ∀ port ∈ (p.expr i).outputs.map (·.port),
      some port.shape = spec.shape.or ((p.expr i).inputs.head?.map (·.port.shape))

theorem Shaped.addOp {specs : List OpSpec} (h : p.Shaped specs) (hadd : p.addOp spec = .ok q) :
    q.Shaped (specs ++ [spec]) := by
  obtain ⟨inputs, outputs, type, _, _, hshape, added⟩ := opAdded_of_addOp hadd
  refine ⟨by rw [added.size, h.1, List.length_append, List.length_singleton], fun i other hi port hport => ?_⟩
  rw [added.outputs] at hport
  rw [added.inputs]
  rcases getElem?_concat_cases hi with ⟨hlt, hi⟩ | ⟨rfl, rfl⟩
  · have hne : i ≠ p.exprs.size := by rw [h.1]; omega
    rw [if_neg hne] at hport ⊢
    exact h.2 i other hi port hport
  · rw [if_pos h.1.symm] at hport ⊢
    obtain ⟨hcount, rfl⟩ := List.mem_replicate.mp hport
    have hcount : outputs.toNat ≠ 0 := hcount
    have houtputs : 0 < outputs := by omega
    rw [head?_map_inputOf, ← outputShape_eq_or]
    cases hfound : p.outputShape spec inputs with
    | some shape => simp only [describedOp, hfound, Option.getD_some]
    | none => exact absurd ⟨by rw [hfound, Option.isNone_none], houtputs⟩ hshape

/-- The empty shape need not be given if there is no output to have it, or if the first input sees it. -/
def ImpliesShape (p : Program) (x : ExprId) (spec : OpSpec) : Prop :=
  spec.shape = some [] → (p.expr x).outputs = [] ∨ (p.expr x).inputs.head?.map (·.port.shape) = some []

/-- Only ports matter for that. -/
theorem ImpliesShape.of_ports (h : q.ImpliesShape x spec) (hinputs : (q.expr x).inputs = (p.expr x).inputs)
    (houtputs : (q.expr x).outputs.map (·.port) = (p.expr x).outputs.map (·.port)) :
    p.ImpliesShape x spec := by
  intro hempty
  refine (h hempty).imp (fun hnone => ?_) fun hhead => hinputs ▸ hhead
  rw [hnone, List.map_nil] at houtputs
  exact List.map_eq_nil_iff.mp houtputs.symm

/-- A shape that is implied makes no difference. -/
theorem addOp_withoutEmptyShape (h : p.addOp spec = .ok q) (implied : q.ImpliesShape p.exprs.size spec) :
    p.addOp spec.withoutEmptyShape = .ok q := by
  by_cases hempty : spec.shape = some []
  swap
  · rwa [OpSpec.withoutEmptyShape_eq_self hempty]
  obtain ⟨hguards, inputs, outputs, type, hinputs, houtputs, _, htype, rfl⟩ := addOp_eq_ok_iff.mp h
  have added := p.opAdded_withOp spec.name (p.describedOp spec inputs outputs type) inputs
  have hnone : spec.withoutEmptyShape.shape = none := by
    rw [OpSpec.withoutEmptyShape, hempty]
    rfl
  have hshape : p.outputShape spec.withoutEmptyShape inputs = inputs.head?.map p.shape := by
    rw [outputShape_eq_or, hnone, Option.none_or]
  have hgiven : p.outputShape spec inputs = some [] := by rw [outputShape_eq_or, hempty, Option.some_or]
  have himplied : outputs.toNat = 0 ∨ inputs.head?.map p.shape = some [] := by
    refine (implied hempty).imp (fun hnone => ?_) fun hhead => ?_
    · have hports := added.outputs p.exprs.size
      rw [hnone, if_pos rfl] at hports
      have hlength := congrArg List.length hports
      rw [List.length_replicate] at hlength
      exact hlength.symm
    · rwa [added.inputs, if_pos rfl, head?_map_inputOf] at hhead
  refine addOp_eq_ok_iff.mpr ⟨hguards, inputs, outputs, type, hinputs, houtputs, ?_, htype, ?_⟩
  · rintro ⟨hnone, hpos⟩
    rcases himplied with hcount | hhead
    · omega
    · rw [hshape, hhead] at hnone
      cases hnone
  · have hexpr : ∀ read, (p.describedOp spec.withoutEmptyShape inputs outputs type).expr spec.name read =
        (p.describedOp spec inputs outputs type).expr spec.name read := by
      intro read
      unfold describedOp Op.expr
      rw [hshape, hgiven]
      rcases himplied with hcount | hhead
      · simp only [hcount, List.replicate_zero]
        rfl
      · rw [hhead]
        rfl
    unfold withOp makeOp
    rw [← hexpr]
    rfl

/-- Two programs with the same names, in the same order, for operations with as many inputs and outputs. -/
structure SameCounts (p q : Program) : Prop where
  size : p.exprs.size = q.exprs.size
  names : p.names = q.names
  order : p.order = q.order
  inputs : ∀ x, (p.expr x).inputs.length = (q.expr x).inputs.length
  outputs : ∀ x, (p.expr x).outputs.length = (q.expr x).outputs.length

namespace SameCounts

variable (h : p.SameCounts q)

include h

theorem find? (name : Label) : p.find? name = q.find? name := by rw [Program.find?, Program.find?, h.names]

theorem resolveInput (text : Label) : p.resolveInput text = q.resolveInput text := by
  unfold Program.resolveInput
  simp only [h.find?, h.outputs]

theorem positionOf? (name : Label) : p.positionOf? name = q.positionOf? name := by
  unfold Program.positionOf? indexOf?
  rw [h.find?, h.order]

theorem loopRange (loop : LoopSpec) : p.loopRange loop = q.loopRange loop := by
  unfold Program.loopRange
  simp only [h.positionOf?]

theorem fitsBehind (first last : Nat) (loop : LoopSpec) :
    p.fitsBehind first last loop = q.fitsBehind first last loop := by
  unfold Program.fitsBehind
  simp only [h.positionOf?]

theorem resolvePort (loop : LoopSpec) (first last : Nat) (side : Side) (port : PortSpec) :
    p.resolvePort loop first last side port = q.resolvePort loop first last side port := by
  unfold Program.resolvePort
  simp only [h.positionOf?, h.order, h.inputs, h.outputs]

/-- The same is added to both, but for shapes and types. -/
theorem withOp (name : Label) {op op' : Op} (inputs : List ValueRef) (count : op.outputs = op'.outputs) :
    (p.withOp name op inputs).SameCounts (q.withOp name op' inputs) := by
  have addedp := p.opAdded_withOp name op inputs
  have addedq := q.opAdded_withOp name op' inputs
  refine ⟨?_, ?_, ?_, fun x => ?_, fun x => ?_⟩
  · rw [addedp.size, addedq.size, h.size]
  · rw [addedp.names, addedq.names, h.names, h.size]
  · rw [addedp.order, addedq.order, h.order, h.size]
  · rw [addedp.length_inputs, addedq.length_inputs, h.size, h.inputs]
  · rw [addedp.length_outputs, addedq.length_outputs, h.size, h.outputs, count]

/-- What can be added without the empty shape can be added with it. -/
theorem addOp (hadd : q.addOp spec.withoutEmptyShape = .ok q') :
    ∃ p', p.addOp spec = .ok p' ∧ p'.SameCounts q' := by
  obtain ⟨⟨hname, hkind, hused⟩, inputs, outputs, type, hinputs, houtputs, hshape, htype, rfl⟩ :=
    addOp_eq_ok_iff.mp hadd
  have hinputs' : p.resolveInputs spec = .ok inputs := by
    unfold resolveInputs at hinputs ⊢
    simp only [h.resolveInput]
    exact hinputs
  have hused' : p.isUsed spec.name = false := by
    rw [isUsed, h.find?]
    exact hused
  have hshape' : ¬ ((p.outputShape spec inputs).isNone = true ∧ 0 < outputs) := by
    rintro ⟨hnone, hpos⟩
    refine hshape ⟨?_, hpos⟩
    rw [outputShape_eq_or, Option.isNone_iff_eq_none, Option.or_eq_none_iff] at hnone ⊢
    refine ⟨by rw [OpSpec.withoutEmptyShape, hnone.1, Option.filter_none], ?_⟩
    rw [Option.map_eq_none_iff] at hnone ⊢
    exact hnone.2
  obtain ⟨type', htype'⟩ : ∃ type', p.outputType spec inputs = .ok type' := by
    unfold outputType at htype ⊢
    split
    · next hgiven =>
      rw [if_pos (show spec.withoutEmptyShape.type ≠ "" from hgiven)] at htype
      exact ⟨type, htype⟩
    · split
      · exact ⟨_, rfl⟩
      · exact ⟨_, rfl⟩
  refine ⟨_, addOp_eq_ok_iff.mpr ⟨⟨hname, hkind, hused'⟩, inputs, outputs, type', hinputs', houtputs, hshape',
    htype', rfl⟩, h.withOp _ _ rfl⟩

/-- What can be registered in one of the programs can be registered in the other one. -/
theorem addLoop (hadd : q.addLoop earlier loop = .ok q') :
    ∃ p', p.addLoop earlier loop = .ok p' ∧ p'.SameCounts q' := by
  obtain ⟨first, last, entries, exits, hrange, hfits, hentries, hexits, rfl⟩ := addLoop_eq_ok hadd
  have hfind : earlier.find? (fun other => !p.fitsBehind first last other) = none := by
    rw [List.find?_eq_none]
    intro other hother
    rw [h.fitsBehind, hfits other hother]
    exact Bool.false_ne_true
  have hports : ∀ side, p.resolvePort loop first last side = q.resolvePort loop first last side := fun side =>
    funext (h.resolvePort loop first last side)
  have keptp := p.keepsPorts_enclose first (last + 1)
    { work := loop.work, increment := loop.increment, entries, exits }
  have keptq := q.keepsPorts_enclose first (last + 1)
    { work := loop.work, increment := loop.increment, entries, exits }
  refine ⟨(p.enclose first (last + 1) { work := loop.work, increment := loop.increment, entries, exits }).2,
    ?_, ?_⟩
  · refine except_bind_eq_ok.mpr ⟨(first, last), (h.loopRange loop).trans hrange, ?_⟩
    dsimp only
    rw [hfind, hports, hports]
    exact except_bind_eq_ok.mpr ⟨entries, hentries, except_bind_eq_ok.mpr ⟨exits, hexits, rfl⟩⟩
  · refine ⟨?_, ?_, ?_, fun x => ?_, fun x => ?_⟩
    · rw [keptp.size, keptq.size, h.size]
    · rw [keptp.names, keptq.names, h.names]
    · rw [keptp.order, keptq.order, h.order]
    · rw [keptp.inputs, keptq.inputs, h.inputs]
    · rw [keptp.length_outputs, keptq.length_outputs, h.outputs]

end SameCounts

end Program

namespace Subgraph

open Program

variable {p q : Program} {sg : Subgraph} {subgraph : Label}

/-- Operations keep their ports when others are added. -/
theorem addOps_older (h : addOps subgraph p place ops = .ok q) (hx : x < p.exprs.size) :
    (q.expr x).inputs = (p.expr x).inputs ∧
      (q.expr x).outputs.map (·.port) = (p.expr x).outputs.map (·.port) := by
  induction ops generalizing p place with
  | nil =>
    cases h
    exact ⟨rfl, rfl⟩
  | cons op ops ih =>
    rw [addOps] at h
    split at h
    · cases h
    · next r hadd =>
      obtain ⟨_, _, _, _, _, _, added⟩ := opAdded_of_addOp hadd
      have hrest := ih h (added.size ▸ Nat.lt_succ_of_lt hx)
      rwa [added.inputs, added.outputs, if_neg (Nat.ne_of_lt hx), if_neg (Nat.ne_of_lt hx)] at hrest

/-- Ports stay when loops are registered. -/
theorem keepsPorts_addLoops (h : addLoops subgraph p earlier loops = .ok q) : p.KeepsPorts q :=
  addLoops_induction (P := fun _ q => p.KeepsPorts q) (.refl p)
    (fun _ _ _ _ hp hadd => hp.trans (keepsPorts_of_addLoop hadd)) h

/-- The outputs of a built program have the shapes of their operations. -/
theorem build_shaped (built : sg.build = .ok p) : p.Shaped sg.ops := by
  obtain ⟨r, hops, hloops⟩ := except_bind_eq_ok.mp built
  have hempty : ({ name := sg.name } : Program).Shaped [] := ⟨rfl, fun _ _ hi => by simp at hi⟩
  obtain ⟨hsize, hshapes⟩ : r.Shaped sg.ops := addOps_induction (P := fun done p => p.Shaped done) hempty
    (fun _ _ _ _ hp hadd => hp.addOp hadd) hops
  have hports := keepsPorts_addLoops hloops
  refine ⟨hports.size.trans hsize, fun i op hi port hport => ?_⟩
  rw [hports.outputs] at hport
  rw [hports.inputs]
  exact hshapes i op hi port hport

/-- Shapes that are implied make no difference. -/
theorem addOps_withoutEmptyShape (h : addOps subgraph p place ops = .ok q)
    (implied : ∀ (i : Nat) op, ops[i]? = some op → q.ImpliesShape (p.exprs.size + i) op) :
    addOps subgraph p place (ops.map (·.withoutEmptyShape)) = .ok q := by
  induction ops generalizing p place with
  | nil => exact h
  | cons op ops ih =>
    rw [addOps] at h
    split at h
    · cases h
    · next r hadd =>
      obtain ⟨_, _, _, _, _, _, added⟩ := opAdded_of_addOp hadd
      obtain ⟨hinputs, houtputs⟩ := addOps_older h (show p.exprs.size < r.exprs.size by rw [added.size]; omega)
      have hsame := addOp_withoutEmptyShape hadd ((implied 0 op rfl).of_ports hinputs houtputs)
      rw [List.map_cons, addOps, hsame]
      refine ih h fun i other hi => ?_
      rw [added.size, Nat.add_assoc, Nat.add_comm 1]
      exact implied (i + 1) other hi

/-- What can be built without empty shapes can be built with them. -/
theorem exists_addOps (same : p.SameCounts q)
    (h : addOps subgraph q place (ops.map (·.withoutEmptyShape)) = .ok q') :
    ∃ p', addOps subgraph p place ops = .ok p' ∧ p'.SameCounts q' := by
  induction ops generalizing p q place with
  | nil =>
    cases h
    exact ⟨p, rfl, same⟩
  | cons op ops ih =>
    rw [List.map_cons, addOps] at h
    split at h
    · cases h
    · next r hadd =>
      obtain ⟨r', hadd', hsame⟩ := same.addOp hadd
      obtain ⟨p', hp', hsame'⟩ := ih hsame h
      refine ⟨p', ?_, hsame'⟩
      rw [addOps, hadd']
      exact hp'

theorem exists_addLoops (same : p.SameCounts q) (h : addLoops subgraph q earlier loops = .ok q') :
    ∃ p', addLoops subgraph p earlier loops = .ok p' := by
  induction loops generalizing p q earlier with
  | nil => exact ⟨p, rfl⟩
  | cons loop loops ih =>
    rw [addLoops] at h
    split at h
    · cases h
    · next r hadd =>
      obtain ⟨r', hadd', hsame⟩ := same.addLoop hadd
      obtain ⟨p', hp'⟩ := ih hsame h
      refine ⟨p', ?_⟩
      rw [addLoops, hadd']
      exact hp'

/-- The subgraph without the shapes that are empty. -/
def withoutEmptyShapes (sg : Subgraph) : Subgraph := { sg with ops := sg.ops.map (·.withoutEmptyShape) }

/-- A subgraph is built alike without its empty shapes exactly if these are implied. -/
theorem build_withoutEmptyShapes_iff (built : sg.build = .ok p) : sg.withoutEmptyShapes.build = .ok p ↔
    ∀ (i : Nat) op, sg.ops[i]? = some op → p.ImpliesShape i op := by
  constructor
  · intro again i op hi hempty
    have hgiven := (build_shaped built).2 i op hi
    have hspec : sg.withoutEmptyShapes.ops[i]? = some op.withoutEmptyShape := by
      rw [withoutEmptyShapes, List.getElem?_map, hi, Option.map_some]
    have hseen := (build_shaped again).2 i _ hspec
    have hnone : op.withoutEmptyShape.shape = none := by
      rw [OpSpec.withoutEmptyShape, hempty]
      rfl
    cases houtputs : (p.expr i).outputs with
    | nil => exact .inl rfl
    | cons o rest =>
      have hport : o.port ∈ (p.expr i).outputs.map (·.port) := by
        rw [houtputs]
        exact List.mem_cons_self
      have hshape := hgiven o.port hport
      rw [hempty, Option.some_or] at hshape
      have hfirst := hseen o.port hport
      rw [hnone, Option.none_or, hshape] at hfirst
      exact .inr hfirst.symm
  · intro implied
    obtain ⟨r, hops, hloops⟩ := except_bind_eq_ok.mp built
    have hports := keepsPorts_addLoops hloops
    refine except_bind_eq_ok.mpr ⟨r, addOps_withoutEmptyShape hops fun i op hi => ?_, hloops⟩
    have hstart : ({ name := sg.name } : Program).exprs.size + i = i := Nat.zero_add i
    rw [hstart]
    exact (implied i op hi).of_ports (hports.inputs i) (hports.outputs i)

/-- A subgraph that cannot be built cannot be built without its empty shapes. -/
theorem build_of_withoutEmptyShapes (again : sg.withoutEmptyShapes.build = .ok q) : ∃ p, sg.build = .ok p := by
  obtain ⟨r, hops, hloops⟩ := except_bind_eq_ok.mp again
  have hstart : ({ name := sg.name } : Program).SameCounts { name := sg.name } :=
    ⟨rfl, rfl, rfl, fun _ => rfl, fun _ => rfl⟩
  obtain ⟨r', hops', hsame⟩ := exists_addOps hstart hops
  obtain ⟨p, hp⟩ := exists_addLoops hsame hloops
  exact ⟨p, except_bind_eq_ok.mpr ⟨r', hops', hp⟩⟩

end Subgraph

end TensorKernel
