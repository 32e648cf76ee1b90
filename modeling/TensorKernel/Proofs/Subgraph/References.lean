import TensorKernel.Proofs.Subgraph.Contract

/-!
# What references name

The name in a reference ends at the first dot. So an operation whose name holds no dot is meant by its
name, and an input that is written so reads its output 0. An operation whose name holds a dot cannot be
named at all: what is written like its name means a port of the operation with the name before the dot,
if there is one.
-/

namespace TensorKernel

variable {text : Label} {specs : List OpSpec} {spec : OpSpec} {p : Program} {sg : Subgraph}

namespace Reference

/-- The byte that ends the name in a reference. -/
def dot : UInt8 := '.'.toUInt8

/-- A name without a dot means output 0. -/
theorem parse_of_not_mem_dot {name : Label} (nonempty : name ≠ "") (bare : dot ∉ name.bytes) :
    parse name = .ok ⟨name, .output, 0⟩ := by
  have htake : name.bytes.takeWhile (· ≠ '.'.toUInt8) = name.bytes :=
    List.takeWhile_eq_self_iff.mpr fun b hb => by
      have hne : b ≠ dot := fun he => bare (he ▸ hb)
      exact decide_eq_true hne
  have hnonempty : name.bytes.isEmpty = false := by
    rw [List.isEmpty_eq_false_iff]
    exact fun hnil => nonempty (congrArg Label.mk hnil)
  unfold parse
  dsimp only
  rw [htake, hnonempty, List.drop_length]
  rfl

/-- The name in a reference holds no dot. -/
theorem dot_not_mem_name {ref : Reference} (h : parse text = .ok ref) : dot ∉ ref.name.bytes := by
  have hname : ref.name = ⟨text.bytes.takeWhile (· ≠ '.'.toUInt8)⟩ := by
    unfold parse at h
    dsimp only at h
    split at h
    · cases h
    · split at h
      · cases h
        rfl
      · split at h
        · cases h
        · split at h
          · cases h
            rfl
          · cases h
  intro hmem
  rw [hname] at hmem
  simpa [dot] using List.mem_takeWhile_imp hmem

end Reference

namespace Program

variable {q : Program}

/-- What an input names is found under the name before the dot. -/
theorem resolveInput_eq_ok {v : ValueRef} (h : p.resolveInput text = .ok v) :
    ∃ ref, Reference.parse text = .ok ref ∧ ref.side = .output ∧ p.find? ref.name = some v.producer ∧
      v.output = ref.index := by
  unfold resolveInput at h
  split at h
  · cases h
  · rename_i ref href
    split at h
    · cases h
    · rename_i hside
      split at h
      · cases h
      · rename_i id hid
        dsimp only at h
        split at h
        · cases h
        · cases h
          refine ⟨ref, href, ?_, hid, rfl⟩
          cases hs : ref.side with
          | input => exact absurd hs hside
          | output => rfl

/-- The values that the inputs of an operation name are read by them, in their order. -/
theorem resolveInputs_of_addOp (pristine : p.Pristine) (h : p.addOp spec = .ok q) :
    p.Extends q ∧ ∃ inputs, p.resolveInputs spec = .ok inputs ∧
      (q.expr p.exprs.size).inputs.map (·.source) = inputs := by
  obtain ⟨_, inputs, outputs, type, hinputs, _, _, _, rfl⟩ := addOp_eq_ok_iff.mp h
  have hmade := pristine.opMade spec.name (p.describedOp spec inputs outputs type)
    (fun v hv => hasValue_of_resolveInputs hinputs hv) (.inl rfl)
  exact ⟨⟨hmade.keeps.size, hmade.keeps.header, hmade.keeps.inputs⟩, inputs, hinputs, hmade.sources⟩

/-- Every input reads an output of the operation whose name stands before the dot. -/
def InputsNamed (p : Program) (specs : List OpSpec) : Prop :=
  ∀ (j : Nat) spec, specs[j]? = some spec → ∀ (k : Nat) text, spec.inputs[k]? = some text →
    ∃ ref, ∃ i : Nat, Reference.parse text = .ok ref ∧ (specs.map (·.name))[i]? = some ref.name ∧
      ((p.expr j).inputs[k]?).map (·.source) = some ⟨i, ref.index⟩

/-- An operation that is added reads what its inputs name. -/
theorem InputsNamed.addOp (h : p.InputsNamed specs) (pristine : p.Pristine)
    (named : p.Named (specs.map (·.name))) (hadd : p.addOp spec = .ok q) :
    q.InputsNamed (specs ++ [spec]) := by
  obtain ⟨hextends, inputs, hinputs, hsources⟩ := resolveInputs_of_addOp pristine hadd
  have hsize : p.exprs.size = specs.length := by rw [named.size, List.length_map]
  have hname : ∀ {i : Nat} {name}, (specs.map (·.name))[i]? = some name →
      ((specs ++ [spec]).map (·.name))[i]? = some name := fun {i name} hi => by
    rw [List.map_append, List.getElem?_append_left (List.getElem?_eq_some_iff.mp hi).1, hi]
  intro j other hj k text hk
  rcases getElem?_concat_cases hj with ⟨hlt, hj⟩ | ⟨rfl, rfl⟩
  · obtain ⟨ref, i, href, hi, hsource⟩ := h j other hj k text hk
    refine ⟨ref, i, href, hname hi, ?_⟩
    rw [hextends.inputs j (hsize ▸ hlt), hsource]
  · have hplace : spec.inputs.zipIdx[k]? = some (text, k) := by
      rw [List.getElem?_zipIdx, hk, Option.map_some, Nat.zero_add]
    obtain ⟨v, hv, hresolve⟩ := Outcome.getElem?_of_mapM hinputs hplace
    obtain ⟨ref, href, _, hfind, hindex⟩ := resolveInput_eq_ok (Outcome.mapError_eq_ok.mp hresolve)
    refine ⟨ref, v.producer, href, hname (named.find?_eq_some hfind), ?_⟩
    rw [← List.getElem?_map, ← hsize, hsources, hv, ← hindex]

/-- Registering a loop disconnects nothing. -/
theorem InputsNamed.addLoop (h : p.InputsNamed specs) (horder : p.order = List.range p.exprs.size)
    {earlier : List LoopSpec} {loop : LoopSpec} (hadd : p.addLoop earlier loop = .ok q) :
    q.InputsNamed specs := by
  obtain ⟨first, last, entries, exits, hrange, _, _, _, rfl⟩ := addLoop_eq_ok hadd
  have hlt := (positionOf?_eq_some horder (loopRange_eq_ok hrange).1.2).1
  have henclosed := enclosed horder first hlt
    { work := loop.work, increment := loop.increment, entries, exits }
  intro j spec hj k text hk
  rw [henclosed.inputs]
  exact h j spec hj k text hk

end Program

namespace Subgraph

open Program

/-- The operations of a built program read what their inputs name. -/
theorem build_inputsNamed (built : sg.build = .ok p) : p.InputsNamed sg.ops := by
  obtain ⟨r, hops, hloops⟩ := Outcome.except_bind_eq_ok.mp built
  obtain ⟨hlisted, _, hinputs⟩ : r.Listed [] ∧ r.Named (sg.ops.map (·.name)) ∧ r.InputsNamed sg.ops := by
    refine addOps_induction (P := fun done p => p.Listed [] ∧ p.Named (done.map (·.name)) ∧
      p.InputsNamed done) ⟨listed_empty sg.name, named_empty sg.name, fun _ _ hj => (by simp at hj)⟩ ?_ hops
    rintro done spec p q ⟨hlisted, hnamed, hinputs⟩ hadd
    refine ⟨(hlisted.addOp hadd).1, ?_, hinputs.addOp hlisted.pristine hnamed hadd⟩
    rw [List.map_append]
    exact hnamed.addOp hlisted.pristine hadd
  refine (addLoops_induction (P := fun earlier p => (∃ ls, p.Described earlier ls) ∧ p.InputsNamed sg.ops)
    ⟨⟨[], hlisted, .nil, fun _ l hl => absurd hl List.not_mem_nil⟩, hinputs⟩ ?_ hloops).2
  rintro earlier spec p q ⟨⟨ls, hdescribed⟩, hinputs⟩ hadd
  obtain ⟨l, hq, _⟩ := hdescribed.addLoop hadd
  exact ⟨⟨ls ++ [l], hq⟩, hinputs.addLoop hdescribed.listed.order hadd⟩

/-- Operations of a subgraph that can be built have names. -/
theorem name_ne_empty (built : sg.build = .ok p) {op : OpSpec} (hop : op ∈ sg.ops) : op.name ≠ "" := by
  obtain ⟨r, hops, _⟩ := Outcome.except_bind_eq_ok.mp built
  refine addOps_induction (P := fun done _ => ∀ op ∈ done, op.name ≠ "")
    (fun _ hnil => absurd hnil List.not_mem_nil) ?_ hops op hop
  intro done spec p q hdone hadd op hop
  rcases List.mem_append.mp hop with hop | hop
  · exact hdone op hop
  · rw [List.mem_singleton.mp hop]
    exact (addOp_eq_ok_iff.mp hadd).1.1

/-- **References name the operation that they spell, if its name holds no dot.** An input that is written
like the name of an operation reads output 0 of the operation and nothing else, unless the name holds a
dot; then it reads something else. -/
theorem reads_named_iff {sg : Subgraph} {p : Program} (built : sg.build = .ok p) {i j k : Nat}
    {named reader : OpSpec} (hnamed : sg.ops[i]? = some named) (hreader : sg.ops[j]? = some reader)
    (hinput : reader.inputs[k]? = some named.name) :
    p.order[i]? = some i ∧ p.order[j]? = some j ∧ (p.expr i).name = named.name ∧
      (((p.expr j).inputs[k]?).map (·.source) = some ⟨i, 0⟩ ↔ Reference.dot ∉ named.name.bytes) ∧
      (Reference.dot ∉ named.name.bytes →
        ∀ v, (p.uses v).count ⟨j, k⟩ = if v = ⟨i, 0⟩ then 1 else 0) := by
  obtain ⟨ls, described, hnames, _⟩ := build_named built
  obtain ⟨ref, x, hparse, hx, hsource⟩ := build_inputsNamed built j reader hreader k _ hinput
  have hname : sg.names[i]? = some named.name := by rw [names, List.getElem?_map, hnamed, Option.map_some]
  have hplace : ∀ {i op}, sg.ops[i]? = some op → p.order[i]? = some i := fun {i op} hi => by
    have hlt := (List.getElem?_eq_some_iff.mp hi).1
    rw [described.listed.order, hnames.size, names, List.length_map, List.getElem?_range hlt]
  have hbare : Reference.dot ∉ named.name.bytes → ((p.expr j).inputs[k]?).map (·.source) = some ⟨i, 0⟩ := by
    intro hdot
    rw [Reference.parse_of_not_mem_dot (name_ne_empty built (List.mem_of_getElem? hnamed)) hdot] at hparse
    cases hparse
    rw [hsource, ← hnames.idxOf_eq hx, ← hnames.idxOf_eq hname]
  refine ⟨hplace hnamed, hplace hreader, hnames.name i _ hname, ⟨fun hread hdot => ?_, hbare⟩,
    fun hdot v => ?_⟩
  · -- The input reads the operation whose name is before the dot, which is not this one.
    rw [hsource, Option.some.injEq, ValueRef.mk.injEq] at hread
    rw [hread.1] at hx
    have hsame : ref.name = named.name := Option.some.inj (hx.symm.trans hname)
    exact Reference.dot_not_mem_name hparse (hsame ▸ hdot)
  · rw [(build_contract built).uses, hbare hdot]
    simp only [Option.some.injEq, eq_comm]

/-- Both inputs of the square are written like the name of the load, and read its output. -/
theorem reads_named_iff_tiledSquare : ∃ p, tiledSquare.build = .ok p ∧
    (p.expr 1).name = "load" ∧ ((p.expr 2).inputs[1]?).map (·.source) = some ⟨1, 0⟩ ∧
      (p.uses ⟨1, 0⟩).count ⟨2, 1⟩ = 1 ∧ (p.uses ⟨0, 0⟩).count ⟨2, 1⟩ = 0 := by
  have hbuilt : (tiledSquare.build.toOption).isSome = true := by decide +kernel
  cases hp : tiledSquare.build with
  | error e =>
    rw [hp] at hbuilt
    cases hbuilt
  | ok p =>
    have hdot : Reference.dot ∉ (Label.ofString "load").bytes := by decide
    obtain ⟨_, _, hname, hread, huses⟩ := reads_named_iff hp (i := 1) (j := 2) (k := 1) rfl rfl rfl
    exact ⟨p, rfl, hname, hread.mpr hdot, huses hdot ⟨1, 0⟩, huses hdot ⟨0, 0⟩⟩

/-- Two parameters, one of which is named like an output of the other one. -/
def dottedName : Subgraph where
  name := "dotted"
  ops := [
    { name := "a", kind := "Parameter", shape := some [4], outputs := some 2 },
    { name := "a.out1", kind := "Parameter", shape := some [4] },
    { name := "load", kind := "Load", inputs := ["a.out1"] }]

example : (dottedName.build.toOption.map fun p => (p.expr 2).inputs.map (·.source)) =
    some [⟨0, 1⟩] := by decide +kernel

end Subgraph

end TensorKernel
