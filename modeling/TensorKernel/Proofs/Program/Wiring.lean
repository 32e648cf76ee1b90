import TensorKernel.Proofs.Program.Abstract

/-!
# The wiring of a program

What the passes from live ranges on may take for granted about a program: its ports have no registers
yet, inputs and uses refer to each other, values are made before they are read, and alias groups
divide the values. Only the expressions of the program are looked at; a program may own others.
-/

namespace TensorKernel.Program

variable {id x : ExprId} {p q : Program} {u : UseRef} {m v : ValueRef}

/-- A value that an expression of the program produces. -/
def Owns (p : Program) (v : ValueRef) : Prop := v.producer ∈ p.order ∧ p.HasValue v

instance (p : Program) (v : ValueRef) : Decidable (p.Owns v) := inferInstanceAs (Decidable (_ ∧ _))

/-- No port of the program has a register. -/
def Fresh (p : Program) : Prop := ∀ id ∈ p.order, (p.expr id).bare = p.expr id

/-- Input `k` of an expression reads a value exactly when it is among the uses of the value. -/
def Linked (p : Program) : Prop :=
  ∀ id ∈ p.order, ∀ k v, ((p.expr id).inputs[k]?).map (·.source) = some v ↔ ⟨id, k⟩ ∈ p.uses v

/-- Every consumer has a larger execution number than its producer. -/
def Forward (p : Program) : Prop :=
  ∀ id ∈ p.order, ∀ i ∈ (p.expr id).inputs, (p.expr i.source.producer).exec < (p.expr id).exec

/-- No value has aliases. -/
def Unaliased (p : Program) : Prop := ∀ e ∈ p.exprs, ∀ o ∈ e.outputs, o.root = none ∧ o.aliases = []

/-- Alias groups divide the values: a value is in its own group, and every member of it has the same
group. Joining values keeps this. -/
def Grouped (p : Program) : Prop :=
  ∀ v, p.HasValue v → v ∈ p.aliasGroup v ∧
    ∀ m ∈ p.aliasGroup v, p.HasValue m ∧ p.aliasGroup m = p.aliasGroup v

/-- The producers, consumers and aliases of the program's values are in the program. -/
structure Closed (p : Program) : Prop where
  /-- Inputs read values of the program. -/
  sources : ∀ id ∈ p.order, ∀ i ∈ (p.expr id).inputs, i.source.producer ∈ p.order
  /-- Values are used in the program. -/
  consumers : ∀ id ∈ p.order, ∀ o ∈ (p.expr id).outputs, ∀ u ∈ o.uses, u.consumer ∈ p.order
  /-- Alias groups do not leave the program. -/
  aliases : ∀ v, p.Owns v → ∀ m ∈ p.aliasGroup v, m.producer ∈ p.order

/-- The values of all expressions. -/
def values (p : Program) : List ValueRef :=
  (List.range p.exprs.size).flatMap fun id =>
    (List.range (p.expr id).outputs.length).map fun k => ⟨id, k⟩

theorem mem_values : v ∈ p.values ↔ p.HasValue v := by
  simp only [values, List.mem_flatMap, List.mem_range, List.mem_map]
  constructor
  · rintro ⟨id, _, k, hk, rfl⟩
    exact hk
  · intro h
    exact ⟨v.producer, h.lt_size, v.output, h, rfl⟩

/-- Links are checked from both ends: at every input, and at every use. -/
theorem linked_iff :
    p.Linked ↔ ∀ id ∈ p.order,
      (∀ e ∈ (p.expr id).inputs.zipIdx, ⟨id, e.2⟩ ∈ p.uses e.1.source) ∧
      ∀ v ∈ p.values, ∀ u ∈ p.uses v, u.consumer = id →
        ((p.expr id).inputs[u.input]?).map (·.source) = some v := by
  constructor
  · intro h id hid
    refine ⟨fun e he => ?_, fun v _ u hu hc => ?_⟩
    · exact (h id hid e.2 e.1.source).mp (by rw [List.mem_zipIdx_iff_getElem?.mp he]; rfl)
    · exact (h id hid u.input v).mpr (hc ▸ hu)
  · intro h id hid k v
    obtain ⟨hin, hout⟩ := h id hid
    constructor
    · intro hk
      obtain ⟨i, hi, rfl⟩ := Option.map_eq_some_iff.mp hk
      exact hin (i, k) (List.mem_zipIdx_iff_getElem?.mpr hi)
    · intro hu
      exact hout v (mem_values.mpr (.of_mem_uses hu)) ⟨id, k⟩ hu rfl

theorem closed_iff :
    p.Closed ↔ (∀ id ∈ p.order, ∀ i ∈ (p.expr id).inputs, i.source.producer ∈ p.order) ∧
      (∀ id ∈ p.order, ∀ o ∈ (p.expr id).outputs, ∀ u ∈ o.uses, u.consumer ∈ p.order) ∧
      ∀ v ∈ p.values, v.producer ∈ p.order → ∀ m ∈ p.aliasGroup v, m.producer ∈ p.order := by
  simp only [mem_values]
  constructor
  · intro h
    exact ⟨h.sources, h.consumers, fun v hv ho => h.aliases v ⟨ho, hv⟩⟩
  · rintro ⟨hs, hc, ha⟩
    exact ⟨hs, hc, fun v hv => ha v hv.2 hv.1⟩

instance (p : Program) : Decidable p.Fresh := inferInstanceAs (Decidable (∀ id ∈ p.order, _))

instance (p : Program) : Decidable p.Forward := inferInstanceAs (Decidable (∀ id ∈ p.order, _))

instance (p : Program) : Decidable p.Linked := decidable_of_iff' _ linked_iff

instance (p : Program) : Decidable p.Closed := decidable_of_iff' _ closed_iff

instance (p : Program) : Decidable p.Grouped :=
  decidable_of_iff (∀ v ∈ p.values, v ∈ p.aliasGroup v ∧
    ∀ m ∈ p.aliasGroup v, p.HasValue m ∧ p.aliasGroup m = p.aliasGroup v)
    (by simp only [mem_values]; exact Iff.rfl)

instance (p : Program) : Decidable p.Unaliased :=
  decidable_of_iff (∀ e ∈ p.exprs.toList, ∀ o ∈ e.outputs, o.root = none ∧ o.aliases = [])
    (by simp only [Array.mem_toList_iff]; exact Iff.rfl)

theorem expr_mem_exprs (h : id < p.exprs.size) : p.expr id ∈ p.exprs := by
  simp [expr, Array.getD_eq_getD_getElem?, h]

/-- A value that does not exist is alone in its group. -/
theorem aliasGroup_of_not_hasValue (h : ¬ p.HasValue v) : p.aliasGroup v = [v] := by
  have hn : p.output? v = none := by
    rw [hasValue_iff, not_exists] at h
    exact Option.eq_none_iff_forall_ne_some.mpr h
  simp only [aliasGroup, root, hn]

theorem Unaliased.aliasGroup (h : p.Unaliased) (v : ValueRef) : p.aliasGroup v = [v] := by
  by_cases hv : p.HasValue v
  · obtain ⟨o, ho⟩ := hasValue_iff.mp hv
    have := h _ (expr_mem_exprs hv.lt_size) o (List.mem_of_getElem? ho)
    simp only [Program.aliasGroup, root, ho, this.1, Option.getD_none, this.2]
  · exact aliasGroup_of_not_hasValue hv

/-- Without aliases every value is a group of its own. -/
theorem Unaliased.grouped (h : p.Unaliased) : p.Grouped := by
  intro v hv
  rw [h.aliasGroup]
  refine ⟨by simp, fun m hm => ?_⟩
  rw [List.mem_singleton.mp hm, h.aliasGroup]
  exact ⟨hv, rfl⟩

/-- Whether or not a value exists, its group is the group of every member. -/
theorem Grouped.aliasGroup_eq (h : p.Grouped) (hm : m ∈ p.aliasGroup v) :
    p.aliasGroup m = p.aliasGroup v := by
  by_cases hv : p.HasValue v
  · exact ((h v hv).2 m hm).2
  · rw [aliasGroup_of_not_hasValue hv, List.mem_singleton] at hm
    rw [hm]

/-- Membership in a group is symmetric. -/
theorem Grouped.mem_symm (h : p.Grouped) (hm : m ∈ p.aliasGroup v) : v ∈ p.aliasGroup m := by
  rw [h.aliasGroup_eq hm]
  by_cases hv : p.HasValue v
  · exact (h v hv).1
  · rw [aliasGroup_of_not_hasValue hv]
    exact List.mem_singleton.mpr rfl

/-- Output 0 of an expression as a value. -/
theorem output_zero_eq_ok : p.output x 0 = .ok v ↔ p.HasValue ⟨x, 0⟩ ∧ v = ⟨x, 0⟩ := by
  have hvalue : p.HasValue ⟨x, 0⟩ ↔ 0 < (p.expr x).outputs.length := .rfl
  simp only [output, hvalue, Int.le_refl, true_and, Int.natCast_pos]
  split <;> simp_all [eq_comm]

/-- The value that input 0 of an expression reads. -/
theorem input_zero_eq_ok : p.input x 0 = .ok v ↔ (p.expr x).inputs[0]?.map (·.source) = some v := by
  simp only [input, Int.le_refl, if_true, Int.toNat_zero]
  cases (p.expr x).inputs[0]? <;> simp

/-- What an expression of a linked program reads exists. -/
theorem Linked.hasValue_source (h : p.Linked) (hx : x ∈ p.order) {i : Input} (hi : i ∈ (p.expr x).inputs) :
    p.HasValue i.source := by
  obtain ⟨k, hk⟩ := List.mem_iff_getElem?.mp hi
  exact .of_mem_uses ((h x hx k i.source).mp (by rw [hk]; rfl))

/-- Registers do not matter for links. -/
theorem Linked.of_bare (h : p.Linked) (hb : q.bare = p.bare) : q.Linked := by
  intro id hid k v
  rw [source_congr hb, uses_congr hb]
  exact h id (order_congr hb ▸ hid) k v

/-- Registers do not matter for what belongs to the program. -/
theorem Closed.of_bare (h : p.Closed) (hb : q.bare = p.bare) : q.Closed where
  sources id hid i hi := by
    obtain ⟨k, hk⟩ := List.mem_iff_getElem?.mp hi
    have hsource := source_congr hb id k
    rw [hk, Option.map_some] at hsource
    obtain ⟨i', hi', heq⟩ := Option.map_eq_some_iff.mp hsource.symm
    rw [order_congr hb, ← heq]
    exact h.sources id (order_congr hb ▸ hid) i' (List.mem_of_getElem? hi')
  consumers id hid o ho u hu := by
    obtain ⟨k, hk⟩ := List.mem_iff_getElem?.mp ho
    have huses : u ∈ p.uses ⟨id, k⟩ := by
      have hout : q.output? ⟨id, k⟩ = some o := hk
      rw [← uses_congr hb, uses, hout]
      exact hu
    obtain ⟨o', ho'⟩ := hasValue_iff.mp (.of_mem_uses huses)
    rw [uses, ho'] at huses
    rw [order_congr hb]
    exact h.consumers id (order_congr hb ▸ hid) o' (List.mem_of_getElem? ho') u huses
  aliases v hv m hm := by
    rw [order_congr hb]
    exact h.aliases v ⟨order_congr hb ▸ hv.1, (hasValue_congr hb v).mp hv.2⟩ m (aliasGroup_congr hb v ▸ hm)

/-- A linked use exists. -/
theorem Linked.hasUse (h : p.Linked) (hu : u ∈ p.uses v) (hc : u.consumer ∈ p.order) : p.HasUse u := by
  have hs := (h u.consumer hc u.input v).mpr hu
  obtain ⟨i, hi, _⟩ := Option.map_eq_some_iff.mp hs
  exact (List.getElem?_eq_some_iff.mp hi).1

/-- A use in the program belongs to one value. -/
theorem Linked.eq_of_mem_uses (h : p.Linked) {w : ValueRef} (hc : u.consumer ∈ p.order) (hv : u ∈ p.uses v)
    (hw : u ∈ p.uses w) : v = w := by
  have hsv := (h u.consumer hc u.input v).mpr hv
  have hsw := (h u.consumer hc u.input w).mpr hw
  exact Option.some.inj (hsv.symm.trans hsw)

/-- A use in the program comes after the producer of its value. -/
theorem Forward.lt (h : p.Forward) (hl : p.Linked) (hu : u ∈ p.uses v) (hc : u.consumer ∈ p.order) :
    (p.expr v.producer).exec < (p.expr u.consumer).exec := by
  have hs := (hl u.consumer hc u.input v).mpr hu
  obtain ⟨i, hi, rfl⟩ := Option.map_eq_some_iff.mp hs
  exact h u.consumer hc i (List.mem_of_getElem? hi)

/-- A fresh value has no abstract register. -/
theorem Fresh.abstractReg (h : p.Fresh) (hv : v.producer ∈ p.order) : p.abstractReg v = .unassigned := by
  have ho : p.output? v = p.bare.output? v := by
    rw [output?, output?, bare_expr, h _ hv]
  rw [Program.abstractReg, ho, bare_output?]
  cases p.output? v <;> rfl

/-- Without registers, current and abstract registers agree. -/
theorem Fresh.synced (h : p.Fresh) : p.Synced p.order := by
  intro side id k port hid hp
  have he := h id hid
  cases side with
  | input =>
    rw [portAt, ← he, Expr.bare_inputs, List.getElem?_map, Option.map_map] at hp
    obtain ⟨i, _, rfl⟩ := Option.map_eq_some_iff.mp hp
    rfl
  | output =>
    rw [portAt, ← he, Expr.bare_outputs, List.getElem?_map, Option.map_map] at hp
    obtain ⟨o, _, rfl⟩ := Option.map_eq_some_iff.mp hp
    rfl

/-- A fresh use has no abstract register. -/
theorem Fresh.inputReg (h : p.Fresh) (hu : u.consumer ∈ p.order) : p.inputReg u = .unassigned := by
  rw [Program.inputReg, ← h _ hu, Expr.bare_inputs, List.getElem?_map]
  cases (p.expr u.consumer).inputs[u.input]? <;> rfl

/-! ### Views -/

/-- A chain keeps what its steps keep. -/
theorem of_mem_follow {next : ExprId → Option ExprId} {P : ExprId → Prop}
    (step : ∀ a b, P a → next a = some b → P b) {bound : Nat} {y : ExprId} (hx : P x)
    (hy : y ∈ follow next bound x) : P y := by
  induction bound generalizing x with
  | zero => cases hy
  | succ bound ih =>
    rw [follow] at hy
    cases hnext : next x with
    | none => simp [hnext] at hy
    | some z =>
      rw [hnext] at hy
      have hz := step x z hx hnext
      rcases List.mem_cons.mp hy with rfl | hy
      · exact hz
      · exact ih hz hy

/-- Views before an expression stand in the program. -/
theorem Closed.mem_viewsBefore (h : p.Closed) (hid : id ∈ p.order) (hx : x ∈ id :: p.viewsBefore id) :
    x ∈ p.order := by
  rcases List.mem_cons.mp hx with rfl | hx
  · exact hid
  refine of_mem_follow (P := (· ∈ p.order)) (fun a b ha hab => ?_) hid hx
  unfold prevView? at hab
  split at hab
  · cases hab
  · rename_i i rest hinputs
    split at hab
    · cases hab
      exact h.sources a ha i (by simp [hinputs])
    · cases hab

/-- Views after an expression stand in the program and read something. -/
theorem Closed.mem_viewsAfter (h : p.Closed) (linked : p.Linked) (hid : id ∈ p.order)
    (hx : x ∈ p.viewsAfter id) : x ∈ p.order ∧ (p.expr x).role = .shapeInfer ∧ (p.expr x).inputs ≠ [] := by
  have hstep : ∀ a b, a ∈ p.order → p.nextView? a = some b →
      b ∈ p.order ∧ (p.expr b).role = .shapeInfer ∧ (p.expr b).inputs ≠ [] := by
    intro a b ha hab
    unfold nextView? at hab
    split at hab
    · cases hab
    · rename_i o rest houtputs
      obtain ⟨u, hu, rfl⟩ := Option.map_eq_some_iff.mp hab
      have hmem : u ∈ p.uses ⟨a, 0⟩ := by
        have houtput : p.output? ⟨a, 0⟩ = some o := by rw [output?, houtputs]; rfl
        rw [uses, houtput]
        exact List.mem_of_find?_eq_some hu
      have hin : u.consumer ∈ p.order :=
        h.consumers a ha o (by simp [houtputs]) u (List.mem_of_find?_eq_some hu)
      refine ⟨hin, by simpa using List.find?_some hu, fun hnil => ?_⟩
      have huse := linked.hasUse hmem hin
      rw [HasUse, hnil] at huse
      exact Nat.not_lt_zero _ huse
  -- The first view is reached from the expression itself, the others from views.
  unfold viewsAfter at hx
  cases hbound : p.exprs.size with
  | zero =>
    rw [hbound] at hx
    cases hx
  | succ bound =>
    rw [hbound, follow] at hx
    cases hnext : p.nextView? id with
    | none => simp [hnext] at hx
    | some y =>
      rw [hnext] at hx
      have hy := hstep id y hid hnext
      rcases List.mem_cons.mp hx with rfl | hx
      · exact hy
      · exact of_mem_follow (P := fun x => x ∈ p.order ∧ (p.expr x).role = .shapeInfer ∧
          (p.expr x).inputs ≠ []) (fun a b ha => hstep a b ha.1) hy hx

end TensorKernel.Program
