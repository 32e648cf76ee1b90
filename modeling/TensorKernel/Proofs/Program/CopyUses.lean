import TensorKernel.Proofs.Program.Copies
import TensorKernel.Proofs.Program.Links

/-!
# What copies read

The copy of a range reads what the range reads, except that what an earlier expression of the range
produces is read from the copy of that expression. Each copy enters itself among the uses of what it
reads, and nobody else's reading changes. Registers and alias groups play no part in this.
-/

namespace TensorKernel.Program

variable {x : ExprId} {inside : List ExprId}

variable {p q : Program}

/-- An input as it is read by a copy. -/
def retargeted (copies : List (ExprId × ExprId)) (i : Input) : Input :=
  ⟨{ i.source with producer := copyOf copies i.source.producer }, i.port.fresh⟩

/-- The inputs of a copy are those of its original, retargeted. -/
theorem inputs_copy (p : Program) (copies : List (ExprId × ExprId)) (id : ExprId) (name : Label) :
    ((p.expr id).copy id name (p.copySources copies id)).inputs =
      (p.expr id).inputs.map (retargeted copies) := by
  rw [Expr.copy, copySources, List.zipWith_map_left, List.zipWith_self]
  rfl

/-- A copy has no registers, and nobody reads it yet. -/
theorem unused_copy (e : Expr) (id : ExprId) (name : Label) (sources : List ValueRef) :
    (e.copy id name sources).Unused := by
  constructor
  · intro i hi
    rw [Expr.copy, ← List.map_uncurry_zip_eq_zipWith] at hi
    obtain ⟨_, _, rfl⟩ := List.mem_map.mp hi
    rfl
  · intro o ho
    obtain ⟨o', _, rfl⟩ := List.mem_map.mp ho
    rfl

/-- The output ports when a copy has been made: those of the copy have the same shapes and no registers. -/
theorem outputPorts_makeCopy (p : Program) (id : ExprId) (name : Label) (sources : List ValueRef)
    (j : ExprId) : (p.makeCopy id name sources).2.outputPorts j =
      if j = p.exprs.size then (p.outputPorts id).map Port.fresh else p.outputPorts j := by
  rw [makeCopy, outputPorts_make, Expr.copy, List.map_map]
  refine if_congr .rfl ?_ rfl
  rw [outputPorts, List.map_map]
  rfl

/-- Joining the outputs of a copy to others changes nothing that is read. -/
theorem reads_joinUsedOutside (p : Program) (inside : List ExprId) (id copy : ExprId) :
    (∀ j, ((p.joinUsedOutside inside id copy).expr j).inputs = (p.expr j).inputs) ∧
      (∀ j, (p.joinUsedOutside inside id copy).outputPorts j = p.outputPorts j) ∧
      ∀ v, (p.joinUsedOutside inside id copy).uses v = p.uses v := by
  unfold joinUsedOutside
  generalize List.range (p.expr id).outputs.length = ks
  induction ks generalizing p with
  | nil => exact ⟨fun _ => rfl, fun _ => rfl, fun _ => rfl⟩
  | cons k ks ih =>
    rw [List.foldl_cons]
    split
    · obtain ⟨hinputs, hports, huses⟩ := ih (p.join ⟨copy, k⟩ ⟨id, k⟩)
      exact ⟨fun j => (hinputs j).trans (inputs_join j), fun j => (hports j).trans (outputPorts_join j),
        fun v => (huses v).trans (uses_join v)⟩
    · exact ih p

/-- What copying one expression of a range changes in what is read. -/
structure NextRead (p : Program) (copies : List (ExprId × ExprId)) (id : ExprId) (q : Program) :
    Prop where
  /-- The copy reads from the earlier copies. -/
  inputs : ∀ j, (q.expr j).inputs =
    if j = p.exprs.size then (p.expr id).inputs.map (retargeted copies) else (p.expr j).inputs
  /-- Its output ports have the same shapes and no registers. -/
  ports : ∀ j, q.outputPorts j =
    if j = p.exprs.size then (p.outputPorts id).map Port.fresh else p.outputPorts j
  /-- It is entered behind the uses of what it reads. -/
  uses : ∀ v, q.uses v =
    p.uses v ++ usesBy p.exprs.size ((p.expr id).inputs.map (retargeted copies)) v

/-- Copying one expression. -/
theorem copyNext_reads (inside : List ExprId) (copies : List (ExprId × ExprId)) {id : ExprId}
    (hused : p.isUsed (p.expr id).name = true)
    (hsrc : ∀ i ∈ (p.expr id).inputs, p.HasValue (retargeted copies i).source) :
    p.NextRead copies id (copyNext inside (copies, p) id).2 := by
  rw [copyNext_eq hused]
  dsimp only
  generalize p.nextSerial (p.expr id).name = n
  generalize numbered (p.expr id).name n = name
  obtain ⟨hinputs, hports, huses⟩ := reads_joinUsedOutside
    ({ p with serial := n }.makeCopy id name (p.copySources copies id)).2 inside id p.exprs.size
  refine ⟨fun j => (hinputs j).trans ?_, fun j => (hports j).trans ?_, fun v => (huses v).trans ?_⟩
  · rw [← p.inputs_copy copies id name]
    exact inputs_make { p with serial := n } _ j
  · exact outputPorts_makeCopy { p with serial := n } id name _ j
  · rw [← p.inputs_copy copies id name]
    refine uses_make (p := { p with serial := n }) (unused_copy ..) (fun i hi => ?_) v
    have hi : i ∈ (p.expr id).inputs.map (retargeted copies) := p.inputs_copy copies id name ▸ hi
    obtain ⟨i', hi', rfl⟩ := List.mem_map.mp hi
    exact hsrc i' hi'

/-- An expression that was not copied is its own copy. -/
theorem copyOf_of_not_mem (hx : x ∉ inside) (n : Nat) : copyOf (inside.zipIdx n) x = x := by
  have hnone : (inside.zipIdx n).lookup x = none := by
    rw [List.lookup_eq_none_iff]
    intro e he
    exact bne_iff_ne.mpr fun hxe => hx (hxe ▸ (List.mem_zipIdx he).2.2 ▸ List.getElem_mem _)
  rw [copyOf, hnone]
  rfl

/-- What copying the expressions `done` makes of what is read. -/
structure CopyRead (p : Program) (done : List ExprId) (q : Program) : Prop where
  /-- The earlier expressions read what they read. -/
  oldInputs : ∀ j : Nat, j < p.exprs.size → (q.expr j).inputs = (p.expr j).inputs
  /-- A copy reads from the copies before it. -/
  newInputs : ∀ (k : Nat) a, done[k]? = some a → (q.expr (p.exprs.size + k)).inputs =
    (p.expr a).inputs.map (retargeted ((done.take k).zipIdx p.exprs.size))
  /-- The earlier output ports stay. -/
  oldPorts : ∀ j : Nat, j < p.exprs.size → q.outputPorts j = p.outputPorts j
  /-- Those of a copy have the same shapes and no registers. -/
  newPorts : ∀ (k : Nat) a, done[k]? = some a →
    q.outputPorts (p.exprs.size + k) = (p.outputPorts a).map Port.fresh
  /-- The copies are entered behind the earlier uses, in their order. -/
  uses : ∀ v, q.uses v = p.uses v ++ (List.range' p.exprs.size done.length).flatMap fun c =>
    usesBy c (q.expr c).inputs v

theorem copyRead_nil (p : Program) : p.CopyRead [] p where
  oldInputs _ _ := rfl
  newInputs k a hk := by simp at hk
  oldPorts _ _ := rfl
  newPorts k a hk := by simp at hk
  uses v := (List.append_nil _).symm

namespace CopyRead

variable {done : List ExprId} {id : ExprId}

/-- What copies read depends on the ports only. -/
theorem of_ports {r : Program} (h : p.CopyRead done q) (ho : ∀ id, (r.expr id).outputs = (q.expr id).outputs)
    (hi : ∀ id, (r.expr id).inputs = (q.expr id).inputs) : p.CopyRead done r where
  oldInputs j hj := (hi j).trans (h.oldInputs j hj)
  newInputs k a hk := (hi _).trans (h.newInputs k a hk)
  oldPorts j hj := by
    rw [outputPorts, ho]
    exact h.oldPorts j hj
  newPorts k a hk := by
    rw [outputPorts, ho]
    exact h.newPorts k a hk
  uses v := by
    have huses : r.uses v = q.uses v :=
      uses_of_output? (fun v => congrArg (·[v.output]?) (ho v.producer)) v
    rw [huses]
    simp only [hi]
    exact h.uses v

/-- The earlier values stay. -/
theorem oldValues (h : p.CopyRead done q) (v : ValueRef) (hv : v.producer < p.exprs.size) :
    q.HasValue v ↔ p.HasValue v := by
  rw [hasValue_iff_outputPorts, h.oldPorts _ hv, hasValue_iff_outputPorts]

/-- A copy has as many values. -/
theorem newValues (h : p.CopyRead done q) (k : Nat) (a : ExprId) (m : Nat) (hk : done[k]? = some a) :
    q.HasValue ⟨p.exprs.size + k, m⟩ ↔ p.HasValue ⟨a, m⟩ := by
  rw [hasValue_iff_outputPorts, h.newPorts k a hk, List.length_map, hasValue_iff_outputPorts]

/-- The uses by copies come on top. -/
theorem mem_uses (h : p.CopyRead done q) {v : ValueRef} {u : UseRef} :
    u ∈ q.uses v ↔ u ∈ p.uses v ∨ ∃ k < done.length, u.consumer = p.exprs.size + k ∧
      ((q.expr u.consumer).inputs[u.input]?).map (·.source) = some v := by
  rw [h.uses, List.mem_append, List.mem_flatMap]
  refine or_congr_right ⟨?_, ?_⟩
  · rintro ⟨c, hc, hu⟩
    obtain ⟨rfl, hread⟩ := mem_usesBy.mp hu
    obtain ⟨k, hk, hc⟩ := List.mem_range'.mp hc
    exact ⟨k, hk, by rw [hc, Nat.one_mul], hread⟩
  · rintro ⟨k, hk, hu, hread⟩
    refine ⟨u.consumer, List.mem_range'.mpr ⟨k, hk, by rw [hu, Nat.one_mul]⟩, mem_usesBy.mpr ⟨rfl, hread⟩⟩

/-- Inputs and uses refer to each other if they did before. -/
theorem linked (h : p.CopyRead done q) (real : ∀ v, ∀ u ∈ p.uses v, u.consumer < p.exprs.size)
    (hx : x < p.exprs.size → ∀ k v, ((p.expr x).inputs[k]?).map (·.source) = some v ↔ ⟨x, k⟩ ∈ p.uses v)
    (hlt : x < p.exprs.size + done.length) (k : Nat) (v : ValueRef) :
    ((q.expr x).inputs[k]?).map (·.source) = some v ↔ ⟨x, k⟩ ∈ q.uses v := by
  rw [h.mem_uses]
  rcases Nat.lt_or_ge x p.exprs.size with hold | hnew
  · rw [h.oldInputs x hold, hx hold]
    refine ⟨.inl, fun hu => hu.resolve_right ?_⟩
    rintro ⟨j, _, rfl, _⟩
    exact Nat.not_lt.mpr (Nat.le_add_right ..) hold
  · -- Nobody read through the number of a copy before there was the copy.
    rw [or_iff_right fun hu => Nat.not_lt.mpr hnew (real v _ hu)]
    obtain ⟨j, rfl⟩ := Nat.exists_eq_add_of_le hnew
    exact ⟨fun hk => ⟨j, Nat.lt_of_add_lt_add_left hlt, rfl, hk⟩, fun ⟨_, _, _, hk⟩ => hk⟩

/-- What a copy reads exists. -/
theorem hasValue_retargeted (h : p.CopyRead done q) (nodup : done.Nodup) {i : Input}
    (hval : p.HasValue i.source) :
    q.HasValue (retargeted (done.zipIdx p.exprs.size) i).source := by
  by_cases hmem : i.source.producer ∈ done
  · obtain ⟨k, hk⟩ := List.mem_iff_getElem?.mp hmem
    rw [retargeted, copyOf_zipIdx nodup hk]
    exact (h.newValues k _ _ hk).mpr hval
  · rw [retargeted, copyOf_of_not_mem hmem]
    exact (h.oldValues _ hval.lt_size).mpr hval

/-- What the next copy reads exists. -/
theorem hasValue_sources (h : p.CopyRead done q) (nodup : done.Nodup) (hid : id < p.exprs.size)
    (hsrc : ∀ i ∈ (p.expr id).inputs, p.HasValue i.source) :
    ∀ i ∈ (q.expr id).inputs, q.HasValue (retargeted (done.zipIdx p.exprs.size) i).source := by
  intro i hi
  rw [h.oldInputs id hid] at hi
  exact h.hasValue_retargeted nodup (hsrc i hi)

/-- Copying one more expression. -/
theorem next (h : p.CopyRead done q) {q' : Program} (hsize : q.exprs.size = p.exprs.size + done.length)
    (hid : id < p.exprs.size) (hnext : q.NextRead (done.zipIdx p.exprs.size) id q') :
    p.CopyRead (done ++ [id]) q' := by
  have hold : ∀ j : Nat, j < p.exprs.size → j ≠ q.exprs.size := by omega
  have hcopy : ∀ k : Nat, k < done.length → p.exprs.size + k ≠ q.exprs.size := by omega
  refine ⟨fun j hj => ?_, fun k a hk => ?_, fun j hj => ?_, fun k a hk => ?_, fun v => ?_⟩
  · rw [hnext.inputs, if_neg (hold j hj), h.oldInputs j hj]
  · rw [hnext.inputs]
    rcases getElem?_concat_cases hk with ⟨hlt, hk⟩ | ⟨rfl, rfl⟩
    · rw [if_neg (hcopy k hlt), h.newInputs k a hk, List.take_append_of_le_length (by omega)]
    · rw [if_pos hsize.symm, h.oldInputs id hid, List.take_left]
  · rw [hnext.ports, if_neg (hold j hj), h.oldPorts j hj]
  · rw [hnext.ports]
    rcases getElem?_concat_cases hk with ⟨hlt, hk⟩ | ⟨rfl, rfl⟩
    · rw [if_neg (hcopy k hlt), h.newPorts k a hk]
    · rw [if_pos hsize.symm, h.oldPorts id hid]
  · have hinputs : ∀ c ∈ List.range' p.exprs.size done.length,
        usesBy c (q'.expr c).inputs v = usesBy c (q.expr c).inputs v := by
      intro c hc
      obtain ⟨k, hk, rfl⟩ := List.mem_range'.mp hc
      rw [hnext.inputs, if_neg (by rw [Nat.one_mul]; exact hcopy k hk)]
    rw [hnext.uses, h.uses, List.length_append, List.length_singleton, List.range'_1_concat,
      List.flatMap_append, List.flatMap_congr hinputs, List.flatMap_singleton, hnext.inputs, ← hsize,
      if_pos rfl, List.append_assoc]

end CopyRead

/-- Copying a range whose inputs read values that exist. -/
theorem copyAll_reads (nodup : inside.Nodup) (valid : ∀ a : Nat, a ∈ inside → a < p.exprs.size)
    (named : ∀ id ∈ inside, p.isUsed (p.expr id).name = true)
    (hsrc : ∀ id ∈ inside, ∀ i ∈ (p.expr id).inputs, p.HasValue i.source) :
    p.CopyRead inside (p.copyAll inside).2 := by
  obtain ⟨q, hcopy, _, hread⟩ := copyAll_induction (I := p.CopyRead) valid named p.copyRead_nil
    fun {done id rest q q'} hl hc hused hnext _ hq => by
      have hid : id ∈ inside := by simp [hl]
      have hdone : done.Nodup := (List.nodup_append.mp (hl ▸ nodup)).1
      have hread := q.copyNext_reads inside (done.zipIdx p.exprs.size) hused
        (hq.hasValue_sources hdone (valid id hid) (hsrc id hid))
      rw [hnext] at hread
      exact hq.next hc.size (valid id hid) hread
  rw [hcopy]
  exact hread

end TensorKernel.Program
