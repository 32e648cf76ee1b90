import TensorKernel.Proofs.Subgraph.Shapes
import TensorKernel.Proofs.Yaml.Written
import TensorKernel.Proofs.Yaml.Yields
import TensorKernel.Subgraph.Document

/-!
# Subgraph files are read as what was written

The integers of a subgraph that was read from a file fit 64 bits. So each of its fields, written and read
again, has the value that it had, but for one: an empty shape is left out, and then there is none. What
this means to the program that is built is said in terms of the program.
-/

namespace TensorKernel

open Outcome Yaml Reading Node

variable {d : Document} {p : PortSpec} {sg : Subgraph}

/-- The integers of a loop port fit 64 bits. -/
def PortSpec.Fits (p : PortSpec) : Prop := ∀ n ∈ p.dim, Text.fitsInt64 n = true

/-- The integers of an operation fit 64 bits. -/
structure OpSpec.Fits (op : OpSpec) : Prop where
  shape : ∀ l ∈ op.shape, ∀ n ∈ l, Text.fitsInt64 n = true
  outputs : ∀ n ∈ op.outputs, Text.fitsInt64 n = true

/-- The integers of a loop fit 64 bits. -/
structure LoopSpec.Fits (l : LoopSpec) : Prop where
  work : Text.fitsInt64 l.work = true
  increment : Text.fitsInt64 l.increment = true
  dim : Text.fitsInt64 l.dim = true
  entries : ∀ p ∈ l.entries, p.Fits
  exits : ∀ p ∈ l.exits, p.Fits

/-- The integers of a subgraph fit 64 bits. -/
structure Subgraph.Fits (sg : Subgraph) : Prop where
  ops : ∀ op ∈ sg.ops, op.Fits
  loops : ∀ l ∈ sg.loops, l.Fits

namespace PortSpec

theorem yields_fields (name : String) (change : Node → PortSpec → Reading PortSpec)
    (h : fields name = some change) (n : Node) (p : PortSpec) (hp : p.Fits) : Yields Fits (change n p) := by
  unfold fields at h
  split at h
  · cases h
    exact yields_field .any (fun _ _ => hp) hp
  · cases h
    exact yields_field .any (fun _ _ => hp) hp
  · cases h
    exact yields_field (yields_optional (yields_int n)) (fun _ hdim => hdim) hp
  · cases h

/-- An update of a port that fits gives one that fits. -/
theorem yields_update (hp : p.Fits) (n : Node) : Yields (fun o => ∀ q ∈ o, q.Fits) (p.update n) := by
  have hrecord : Yields (fun o => ∀ q ∈ o, q.Fits) (visit n (record fields p)) :=
    .visit fun n => yields_record hp yields_fields n
  refine hrecord.apart.bind fun x hx => ?_
  obtain ⟨o, faulty⟩ := x
  dsimp only
  split
  · exact .misfit fun _ hq => by cases hq
  · refine .pure fun q hq => ?_
    cases hq
    cases o with
    | none => exact hp
    | some q => exact hx q rfl

-- Only the special entries differ from those of a plain record: their value updates the whole port.
theorem keeps_taggedSink : taggedSink.Keeps fun r => r.1.Fits where
  start := (keeps_fieldSink yields_fields).start
  value := (keeps_fieldSink yields_fields).value
  special n reader b h hb := by
    unfold taggedSink at h
    dsimp only at h
    split at h
    · cases h
    · cases h
      refine (yields_update hb n).bind fun o ho => .pure ?_
      cases o with
      | none => exact hb
      | some q => exact ho q rfl

theorem yields_ofNode (n : Node) : Yields (fun o => ∀ p ∈ o, p.Fits) (ofNode n) := by
  have hempty : ({} : PortSpec).Fits := fun _ hn => by cases hn
  refine .after fun null => ?_
  split
  · refine .pure fun p hp m hm => ?_
    cases hp
    cases hm
  · exact yields_update hempty n
  · refine (yields_entriesInto keeps_taggedSink _ hempty).bind fun o ho => .pure fun p hp => ?_
    obtain ⟨r, hr, rfl⟩ := Option.map_eq_some_iff.mp hp
    exact ho r hr
  · exact yields_ofScalar fun _ _ _ _ hpick => by cases hpick

/-- A loop port is read as it was written. -/
theorem gives_ofNode (fits : p.Fits) : Gives (visit p.toNode ofNode) (some p) := by
  obtain ⟨port, incremented, dim⟩ := p
  have hport : Fills fields {} [(ofText "port", ofLabel port)] ["port"] { port } :=
    .single rfl (gives_text port) rfl
  have hincremented : Fills fields { port } (incremented.map fun b => (ofText "incremented", ofBool b)).toList
      ["incremented"] { port, incremented } := by
    cases incremented with
    | none => exact .nil _ _
    | some b =>
      exact .single rfl (gives_optional (gives_bool b) (Scalar.meaning?_ofBool b) Meaning.noConfusion) rfl
  have hdim : Fills fields { port, incremented } (dim.map fun n => (ofText "dim", ofInt n)).toList
      ["dim"] { port, incremented, dim } := by
    cases dim with
    | none => exact .nil _ _
    | some n =>
      exact .single rfl (gives_optional (gives_int (fits n rfl)) (Scalar.meaning?_ofInt (fits n rfl))
        Meaning.noConfusion) rfl
  have hrecord := ((hport.append hincremented).append hdim).gives_record (by decide) (by decide)
  have hupdate : Gives (update {} (toNode { port, incremented, dim })) (some { port, incremented, dim }) :=
    (Gives.apart (Gives.visit hrecord)).bind (.pure _)
  exact Gives.visit (Gives.bind (a := false) (.pure _) hupdate)

end PortSpec

theorem fitsInt64_toInt (n : Int64) : Text.fitsInt64 n.toInt = true := by
  rw [Text.fitsInt64, Bool.and_eq_true, decide_eq_true_eq, decide_eq_true_eq]
  exact ⟨n.le_toInt, Int.le_of_lt_add_one n.toInt_lt⟩

namespace OpSpec

theorem yields_fields (name : String) (change : Node → OpSpec → Reading OpSpec)
    (h : fields name = some change) (n : Node) (op : OpSpec) (hop : op.Fits) : Yields Fits (change n op) := by
  unfold fields at h
  split at h
  · cases h
    exact yields_field .any (fun _ _ => ⟨hop.shape, hop.outputs⟩) hop
  · cases h
    exact yields_field .any (fun _ _ => ⟨hop.shape, hop.outputs⟩) hop
  · cases h
    exact yields_field .any (fun _ _ => ⟨hop.shape, hop.outputs⟩) hop
  · cases h
    exact yields_field (yields_list yields_int n)
      (fun shape hshape => ⟨fun _ hl => Option.some.inj hl ▸ hshape, hop.outputs⟩) hop
  · cases h
    exact yields_field .any (fun _ _ => ⟨hop.shape, hop.outputs⟩) hop
  · cases h
    exact yields_field (yields_int n) (fun m hm => ⟨hop.shape, fun _ he => Option.some.inj he ▸ hm⟩) hop
  · cases h
    exact yields_field .any (fun _ _ => ⟨hop.shape, hop.outputs⟩) hop
  · cases h

theorem yields_ofNode (n : Node) : Yields (fun o => ∀ op ∈ o, op.Fits) (ofNode n) :=
  yields_record ⟨fun _ hl => (by cases hl), fun _ hn => (by cases hn)⟩ yields_fields n

/-- A shape is read as it was written, unless it is empty. -/
theorem fills_shape (name kind type : Label) {shape : Option (List Int)}
    (fits : ∀ l ∈ shape, ∀ n ∈ l, Text.fitsInt64 n = true) : Fills fields { name, kind, type }
      (match (motive := Option (List Int) → List (Node × Node)) shape with
        | none | some [] => []
        | some shape => [(ofText "shape", .sequence none (shape.map ofInt))]) ["shape"]
      { name, kind, type, shape := shape.filter (!·.isEmpty) } := by
  cases shape with
  | none => exact .nil _ _
  | some shape =>
    cases shape with
    -- No entry is written here, and none is read: this is where the shape gets lost.
    | nil => exact .nil _ _
    | cons n rest =>
      exact .single rfl (gives_list_self fun m hm => (gives_int (fits (n :: rest) rfl m hm)).visit) rfl

/-- An operation is read as it was written, without an empty shape. -/
theorem gives_ofNode {op : OpSpec} (fits : op.Fits) :
    Gives (visit op.toNode ofNode) (some op.withoutEmptyShape) := by
  obtain ⟨name, kind, type, shape, inputs, outputs, group⟩ := op
  have hnames : Fills fields {} [(ofText "name", ofLabel name), (ofText "kind", ofLabel kind)]
      ["name", "kind"] { name, kind } :=
    .append (.single rfl (gives_text name) rfl) (.single rfl (gives_text kind) rfl)
  have htype : Fills fields { name, kind } (if type = "" then [] else [(ofText "dtype", ofLabel type)])
      ["dtype"] { name, kind, type } := by
    split
    · next h => exact h ▸ .nil _ _
    · exact .single rfl (gives_text type) rfl
  have hshape := fills_shape name kind type fits.shape
  have hinputs : Fills fields { name, kind, type, shape := shape.filter (!·.isEmpty) }
      (if inputs.isEmpty then [] else [(ofText "inputs", .sequence none (inputs.map ofLabel))]) ["inputs"]
      { name, kind, type, shape := shape.filter (!·.isEmpty), inputs } := by
    split
    · next h => exact List.isEmpty_iff.mp h ▸ .nil _ _
    · exact .single rfl (gives_list_self fun l _ => (gives_text l).visit) rfl
  have houtputs : Fills fields { name, kind, type, shape := shape.filter (!·.isEmpty), inputs }
      (outputs.map fun n => (ofText "outputs", ofInt n)).toList ["outputs"]
      { name, kind, type, shape := shape.filter (!·.isEmpty), inputs, outputs } := by
    cases outputs with
    | none => exact .nil _ _
    | some n => exact .single rfl (gives_int (fits.outputs n rfl)) rfl
  have hgroup : Fills fields { name, kind, type, shape := shape.filter (!·.isEmpty), inputs, outputs }
      (if group = 0 then [] else [(ofText "group", ofInt group.toInt)]) ["group"]
      { name, kind, type, shape := shape.filter (!·.isEmpty), inputs, outputs, group } := by
    split
    · next h => exact h ▸ .nil _ _
    -- A group is read as a wide integer and cut to a word, to no effect on a word that was written.
    · exact .single rfl (gives_int (fitsInt64_toInt group)) (by rw [Int64.ofInt_toInt])
  have hfills := ((((hnames.append htype).append hshape).append hinputs).append houtputs).append hgroup
  exact Gives.visit (hfills.gives_record (by decide) (by decide))

end OpSpec

namespace LoopSpec

theorem yields_fields (name : String) (change : Node → LoopSpec → Reading LoopSpec)
    (h : fields name = some change) (n : Node) (l : LoopSpec) (hl : l.Fits) : Yields Fits (change n l) := by
  unfold fields at h
  split at h
  · cases h
    exact yields_field .any (fun _ _ => { hl with }) hl
  · cases h
    exact yields_field .any (fun _ _ => { hl with }) hl
  · cases h
    exact yields_field (yields_int n) (fun _ hwork => { hl with work := hwork }) hl
  · cases h
    exact yields_field (yields_int n) (fun _ hincrement => { hl with increment := hincrement }) hl
  · cases h
    exact yields_field (yields_int n) (fun _ hdim => { hl with dim := hdim }) hl
  · cases h
    exact yields_field (yields_list PortSpec.yields_ofNode n) (fun _ hports => { hl with entries := hports }) hl
  · cases h
    exact yields_field (yields_list PortSpec.yields_ofNode n) (fun _ hports => { hl with exits := hports }) hl
  · cases h

theorem yields_ofNode (n : Node) : Yields (fun o => ∀ l ∈ o, l.Fits) (ofNode n) := by
  have hzero : Text.fitsInt64 0 = true := by decide
  exact yields_record ⟨hzero, hzero, hzero, by simp, by simp⟩ yields_fields n

/-- A loop is read as it was written. -/
theorem gives_ofNode {l : LoopSpec} (fits : l.Fits) : Gives (visit l.toNode ofNode) (some l) := by
  obtain ⟨first, last, work, increment, dim, entries, exits⟩ := l
  have hfirst : Fills fields {} [(ofText "begin", ofLabel first)] ["begin"] { first } :=
    .single rfl (gives_text first) rfl
  have hlast : Fills fields { first } [(ofText "end", ofLabel last)] ["end"] { first, last } :=
    .single rfl (gives_text last) rfl
  have hwork : Fills fields { first, last } [(ofText "work_amount", ofInt work)] ["work_amount"]
      { first, last, work } := .single rfl (gives_int fits.work) rfl
  have hincrement : Fills fields { first, last, work } [(ofText "increment", ofInt increment)] ["increment"]
      { first, last, work, increment } := .single rfl (gives_int fits.increment) rfl
  have hdim : Fills fields { first, last, work, increment } [(ofText "dim", ofInt dim)] ["dim"]
      { first, last, work, increment, dim } := .single rfl (gives_int fits.dim) rfl
  have hentries : Fills fields { first, last, work, increment, dim }
      [(ofText "entries", .sequence none (entries.map PortSpec.toNode))] ["entries"]
      { first, last, work, increment, dim, entries } :=
    .single rfl (gives_list_self fun p hp => PortSpec.gives_ofNode (fits.entries p hp)) rfl
  have hexits : Fills fields { first, last, work, increment, dim, entries }
      [(ofText "exits", .sequence none (exits.map PortSpec.toNode))] ["exits"]
      { first, last, work, increment, dim, entries, exits } :=
    .single rfl (gives_list_self fun p hp => PortSpec.gives_ofNode (fits.exits p hp)) rfl
  have hfills := (((((hfirst.append hlast).append hwork).append hincrement).append hdim).append hentries).append
    hexits
  exact Gives.visit (hfills.gives_record (by decide) (by decide))

end LoopSpec

namespace Subgraph

theorem yields_fields (name : String) (change : Node → Subgraph → Reading Subgraph)
    (h : fields name = some change) (n : Node) (sg : Subgraph) (hsg : sg.Fits) : Yields Fits (change n sg) := by
  unfold fields at h
  split at h
  · cases h
    exact yields_field .any (fun _ _ => { hsg with }) hsg
  · cases h
    exact yields_field (yields_list OpSpec.yields_ofNode n) (fun _ hops => { hsg with ops := hops }) hsg
  · cases h
    exact yields_field (yields_list LoopSpec.yields_ofNode n) (fun _ hloops => { hsg with loops := hloops }) hsg
  · cases h

theorem yields_ofNode (n : Node) : Yields (fun o => ∀ sg ∈ o, sg.Fits) (ofNode n) :=
  yields_record ⟨by simp, by simp⟩ yields_fields n

/-- A subgraph is read as it was written, without empty shapes. -/
theorem gives_ofNode (fits : sg.Fits) : Gives (visit sg.toNode ofNode) (some sg.withoutEmptyShapes) := by
  obtain ⟨name, ops, loops⟩ := sg
  have hname : Fills fields {} [(ofText "name", ofLabel name)] ["name"] { name } :=
    .single rfl (gives_text name) rfl
  have hops : Fills fields { name } [(ofText "ops", .sequence none (ops.map OpSpec.toNode))] ["ops"]
      { name, ops := ops.map (·.withoutEmptyShape) } :=
    .single rfl (gives_list fun op hop => OpSpec.gives_ofNode (fits.ops op hop)) rfl
  have hloops : Fills fields { name, ops := ops.map (·.withoutEmptyShape) }
      (if loops.isEmpty then [] else [(ofText "loops", .sequence none (loops.map LoopSpec.toNode))]) ["loops"]
      { name, ops := ops.map (·.withoutEmptyShape), loops } := by
    split
    · next h => exact List.isEmpty_iff.mp h ▸ .nil _ _
    · exact .single rfl (gives_list_self fun l hl => LoopSpec.gives_ofNode (fits.loops l hl)) rfl
  exact Gives.visit (((hname.append hops).append hloops).gives_record (by decide) (by decide))

/-- What is known of a subgraph that was read from a file. -/
theorem fits_of_ofDocument (h : ofDocument d = .ok sg) : sg.Fits ∧ sg.name ≠ "" ∧ sg.ops.isEmpty = false := by
  have hdefault : Label.ofString "subgraph" ≠ "" := by decide
  obtain ⟨o, ho, h⟩ := except_bind_eq_ok.mp h
  have hfits : (o.getD {}).Fits := by
    cases o with
    | none => exact ⟨by simp, by simp⟩
    | some sg => exact Document.of_readRoot yields_ofNode (mapError_eq_ok.mp ho) sg rfl
  generalize o.getD {} = read at hfits h
  dsimp only at h
  split at h
  · split at h
    · cases h
    · next hops =>
      cases h
      exact ⟨⟨hfits.ops, hfits.loops⟩, hdefault, by simpa using hops⟩
  · next hname =>
    split at h
    · cases h
    · next hops =>
      cases h
      exact ⟨hfits, hname, by simpa using hops⟩

/-- A document that was written for such a subgraph describes it, without empty shapes. -/
theorem ofDocument_eq_ok (root : d.root = sg.toNode) (fits : sg.Fits) (named : sg.name ≠ "")
    (ops : sg.ops.isEmpty = false) : ofDocument d = .ok sg.withoutEmptyShapes := by
  have hread : d.readRoot ofNode = .ok (some sg.withoutEmptyShapes) :=
    Document.readRoot_eq_ok (root ▸ gives_ofNode fits)
  have hname : sg.withoutEmptyShapes.name ≠ "" := named
  have hops : sg.withoutEmptyShapes.ops.isEmpty = false := by
    rw [withoutEmptyShapes, List.isEmpty_map, ops]
  refine except_bind_eq_ok.mpr ⟨_, mapError_eq_ok.mpr hread, ?_⟩
  simp only [Option.getD_some, if_neg hname, hops]
  rfl

/-- **A subgraph file that was written for a subgraph describes the same program, as far as empty shapes
are implied.** Reading it again gives the subgraph without its empty shapes. If the subgraph cannot be
built, this one cannot be built either. If a program is built, the same one is built again exactly if
every operation that was given the empty shape has no outputs or sees it at its first input. -/
theorem parse_written {text : String} {sg : Subgraph} (read : parse text = .ok sg)
    (back : sg.toNode.ReadsBack) :
    parse sg.toNode.page.text = .ok sg.withoutEmptyShapes ∧
      (∀ p, sg.build = .ok p → (sg.withoutEmptyShapes.build = .ok p ↔
        ∀ (i : Nat) op, sg.ops[i]? = some op → p.ImpliesShape i op)) ∧
      (∀ e, sg.build = .error e → ∃ e', sg.withoutEmptyShapes.build = .error e') := by
  obtain ⟨d, hd, root⟩ := Option.map_eq_some_iff.mp back
  obtain ⟨d', hread⟩ : ∃ d', ofDocument d' = .ok sg := by
    unfold parse at read
    split at read
    · cases read
    · exact ⟨_, read⟩
  obtain ⟨fits, named, ops⟩ := fits_of_ofDocument hread
  have hagain : parse sg.toNode.page.text = .ok sg.withoutEmptyShapes := by
    unfold parse
    rw [hd]
    exact ofDocument_eq_ok root fits named ops
  have hrefused : ∀ e, sg.build = .error e → ∃ e', sg.withoutEmptyShapes.build = .error e' := by
    intro e refused
    cases again : sg.withoutEmptyShapes.build with
    | error e' => exact ⟨e', rfl⟩
    | ok q =>
      obtain ⟨p, built⟩ := build_of_withoutEmptyShapes again
      rw [refused] at built
      cases built
  exact ⟨hagain, fun p built => build_withoutEmptyShapes_iff built, hrefused⟩

/-- A parameter and a result, which is given the empty shape. -/
def shapedResult : Subgraph where
  name := "k"
  ops := [
    { name := "p", kind := "Parameter", shape := some [4] },
    { name := "r", kind := "Result", inputs := ["p"], shape := some [] }]

/-- The text of a file for it. -/
def shapedResultText : String :=
  "name: k\nops: [\x7bname: p, kind: Parameter, shape: [4]\x7d, " ++
    "\x7bname: r, kind: Result, inputs: [p], shape: []\x7d]"

/-- The result has no output, so the shape that gets lost is of no account. -/
theorem parse_written_shapedResult : parse shapedResultText = .ok shapedResult ∧
    shapedResult.toNode.ReadsBack ∧
    parse shapedResult.toNode.page.text = .ok shapedResult.withoutEmptyShapes ∧
    shapedResult.withoutEmptyShapes ≠ shapedResult ∧
    ∃ p, shapedResult.build = .ok p ∧ shapedResult.withoutEmptyShapes.build = .ok p := by
  have hread : parse shapedResultText = .ok shapedResult := by decide +kernel
  have hsame : ((Document.parse? shapedResult.toNode.page.text).any
      fun d => same d.root shapedResult.toNode) = true := by decide +kernel
  have hlost : shapedResult.withoutEmptyShapes ≠ shapedResult := by decide +kernel
  have hresult : (shapedResult.build.toOption.any fun p => (p.expr 1).outputs.isEmpty) = true := by
    decide +kernel
  have hback := readsBack_of_same hsame
  have hwritten := parse_written hread hback
  have hbuild : ∃ p, shapedResult.build = .ok p ∧ shapedResult.withoutEmptyShapes.build = .ok p := by
    cases hp : shapedResult.build with
    | error e =>
      rw [hp] at hresult
      cases hresult
    | ok p =>
      rw [hp] at hresult
      refine ⟨p, rfl, (hwritten.2.1 p hp).mpr fun i op hi hempty => ?_⟩
      match i with
      | 0 =>
        cases hi
        cases hempty
      | 1 => exact .inl (List.isEmpty_iff.mp hresult)
      | i + 2 => cases hi
  exact ⟨hread, hback, hwritten.1, hlost, hbuild⟩

/-- A parameter with the empty shape. -/
def scalarSource : Subgraph where
  name := "scalar"
  ops := [{ name := "p", kind := "Parameter", shape := some [] }]

-- The parameter has an output but no input, so it cannot be built without its shape.
example : scalarSource.build.toOption.isSome = true ∧
    scalarSource.withoutEmptyShapes.build = .error (.op "scalar" 0 (.noShape "p")) := by decide +kernel

end Subgraph

end TensorKernel
