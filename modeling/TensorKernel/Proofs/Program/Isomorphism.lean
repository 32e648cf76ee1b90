import TensorKernel.Proofs.Kernel.Passes
import TensorKernel.Proofs.Loop.SplitStructure
import TensorKernel.Proofs.Program.CopyLinks
import TensorKernel.Proofs.Subgraph.Contract

/-!
# Isomorphic copies

The copies of a range are wired among each other as the expressions of the range are, and to the outside
by the very values that the range reads. A value from outside gains the copies of its uses in the range,
and no use of a value of the range is touched. A copy shares the alias group of its original where the
original is used outside the range, and only there.
-/

namespace TensorKernel.Program

variable {c x : ExprId} {done inside rest : List ExprId} {k n : Nat} {v : ValueRef}

variable {p q : Program}

/-- The value that a copy has or reads in the place of a value. -/
def copiedValue (copies : List (ExprId × ExprId)) (v : ValueRef) : ValueRef :=
  { v with producer := copyOf copies v.producer }

/-- The use by a copy in the place of a use. -/
def copiedUse (copies : List (ExprId × ExprId)) (u : UseRef) : UseRef :=
  { u with consumer := copyOf copies u.consumer }

/-- The copies `copies` of the expressions `inside` of `p` are isomorphic to them in `q`. -/
structure IsomorphicCopy (p : Program) (inside : List ExprId) (copies : List (ExprId × ExprId))
    (q : Program) : Prop where
  /-- There is one copy for each expression, in order. -/
  originals : copies.map Prod.fst = inside
  /-- The copies are new. -/
  numbers : copies.map Prod.snd = List.range' p.exprs.size inside.length
  /-- Nothing but expressions and the last number of a name changed. -/
  rest : q = { p with exprs := q.exprs, serial := q.serial }
  /-- Of the earlier expressions nothing but the uses and the aliases of outputs changed. -/
  old : ∀ x < p.exprs.size, (q.expr x).header = (p.expr x).header ∧
    (q.expr x).inputs = (p.expr x).inputs ∧ q.outputPorts x = p.outputPorts x
  /-- A copy has the kind, the role, the type, the group and the loops of its original. -/
  header : ∀ x c, (x, c) ∈ copies → (q.expr c).header =
    { (p.expr x).header with name := (q.expr c).name, origin := some x, position := none }
  /-- Its name is free. -/
  free : ∀ x c, (x, c) ∈ copies → p.isUsed (q.expr c).name = false
  /-- The copies have different names. -/
  apart : (copies.map fun e => (q.expr e.2).name).Nodup
  /-- What a copy has in the place of an output of its original. -/
  counterpart : ∀ x c, (x, c) ∈ copies → ∀ k, copiedValue copies ⟨x, k⟩ = ⟨c, k⟩
  /-- Values from outside stand for themselves. -/
  outside : ∀ v : ValueRef, v.producer ∉ inside → copiedValue copies v = v
  /-- A copy reads these, through ports with the same shapes and no registers. -/
  inputs : ∀ x c, (x, c) ∈ copies → (q.expr c).inputs =
    (p.expr x).inputs.map fun i => ⟨copiedValue copies i.source, i.port.fresh⟩
  /-- It has outputs with the same shapes and no registers. -/
  outputs : ∀ x c, (x, c) ∈ copies → q.outputPorts c = (p.outputPorts x).map Port.fresh
  /-- A value from outside gains the copies of its uses in the range, each of them once. -/
  gained : ∀ v, p.HasValue v → v.producer ∉ inside → ∃ within : List UseRef, within.Nodup ∧
    (∀ u, u ∈ within ↔ u ∈ p.uses v ∧ u.consumer ∈ inside) ∧
    q.uses v = p.uses v ++ within.map (copiedUse copies)
  /-- A value of the range keeps its uses. -/
  kept : ∀ v : ValueRef, v.producer ∈ inside → q.uses v = p.uses v
  /-- Its copy has the copies of its uses in the range, each of them once. -/
  copied : ∀ v, p.HasValue v → v.producer ∈ inside → ∃ within : List UseRef, within.Nodup ∧
    (∀ u, u ∈ within ↔ u ∈ p.uses v ∧ u.consumer ∈ inside) ∧
    q.uses (copiedValue copies v) = within.map (copiedUse copies)
  /-- The copy of an output joins the group of the original exactly if this is used outside. -/
  joined : ∀ x c, (x, c) ∈ copies → ∀ k, p.HasValue ⟨x, k⟩ →
    (⟨c, k⟩ ∈ q.aliasGroup ⟨x, k⟩ ↔ ∃ u ∈ p.uses ⟨x, k⟩, u.consumer ∉ inside)
  /-- Then both have the same group, otherwise the copy is alone. -/
  group : ∀ x c, (x, c) ∈ copies → ∀ k, p.HasValue ⟨x, k⟩ →
    (∃ u ∈ p.uses ⟨x, k⟩, u.consumer ∉ inside) ∧ q.aliasGroup ⟨c, k⟩ = q.aliasGroup ⟨x, k⟩ ∨
    (∀ u ∈ p.uses ⟨x, k⟩, u.consumer ∈ inside) ∧ q.aliasGroup ⟨c, k⟩ = [⟨c, k⟩]
  /-- The earlier groups gain these copies and nothing else. -/
  oldGroup : ∀ v, p.HasValue v → ∃ new : List ValueRef, q.aliasGroup v = p.aliasGroup v ++ new ∧
    ∀ y, y ∈ new ↔ ∃ x c k, (x, c) ∈ copies ∧ y = ⟨c, k⟩ ∧ p.HasValue ⟨x, k⟩ ∧
      (∃ u ∈ p.uses ⟨x, k⟩, u.consumer ∉ inside) ∧ p.root ⟨x, k⟩ = p.root v

/-! ### What copies read -/

/-- Producers of the range stand before their consumers of the range. -/
def ProducersFirst (p : Program) (inside : List ExprId) : Prop :=
  ∀ ⦃done id rest⦄, inside = done ++ id :: rest → ∀ i ∈ (p.expr id).inputs,
    i.source.producer ∈ inside → i.source.producer ∈ done

/-- The copy of an expression is known once it is made. -/
theorem copyOf_zipIdx_append (nodup : (done ++ rest).Nodup) (hx : x ∈ done) (n : Nat) :
    copyOf ((done ++ rest).zipIdx n) x = copyOf (done.zipIdx n) x := by
  obtain ⟨k, hk⟩ := List.mem_iff_getElem?.mp hx
  have hlt := (List.getElem?_eq_some_iff.mp hk).1
  have happend : (done ++ rest)[k]? = some x := (List.getElem?_append_left hlt).trans hk
  rw [copyOf_zipIdx nodup happend, copyOf_zipIdx (List.nodup_append.mp nodup).1 hk]

/-- The copies made so far are all that a copy needs. -/
theorem ProducersFirst.retargeted_eq {id : ExprId} (h : p.ProducersFirst inside) (nodup : inside.Nodup)
    (hl : inside = done ++ id :: rest) {i : Input} (hi : i ∈ (p.expr id).inputs) (n : Nat) :
    retargeted (done.zipIdx n) i = retargeted (inside.zipIdx n) i := by
  rw [retargeted, retargeted]
  by_cases hin : i.source.producer ∈ inside
  · have hdone := h hl i hi hin
    rw [hl] at nodup ⊢
    rw [copyOf_zipIdx_append nodup hdone]
  · have hout : i.source.producer ∉ done := fun hd => hin (hl ▸ List.mem_append_left _ hd)
    rw [copyOf_of_not_mem hin, copyOf_of_not_mem hout]

theorem ReadsBehind.producersFirst (h : p.ReadsBehind) (nodup : p.order.Nodup) {left right : List ExprId}
    (order : p.order = left ++ (inside ++ right)) : p.ProducersFirst inside := by
  intro done id rest hl i hi hin
  have horder : p.order = (left ++ done) ++ id :: (rest ++ right) := by
    rw [order, hl]
    simp only [List.append_assoc, List.cons_append]
  have hid : id ∈ p.order := by simp [horder]
  have hpair := h id hid i hi (by simp [order, hin])
  rcases List.mem_append.mp (mem_left_of_pair horder nodup hpair) with hleft | hdone
  · rw [order] at nodup
    exact absurd rfl ((List.nodup_append.mp nodup).2.2 _ hleft _ (List.mem_append_left _ hin))
  · exact hdone

theorem copyOf_of_mem_zipIdx (nodup : inside.Nodup) (h : (x, c) ∈ inside.zipIdx n) :
    copyOf (inside.zipIdx n) x = c := by
  obtain ⟨k, hk, rfl⟩ := mem_zipIdx_iff.mp h
  exact copyOf_zipIdx nodup hk n

/-- Different expressions have different copies, and no copy is one of the earlier expressions. -/
theorem copyOf_zipIdx_inj (nodup : inside.Nodup) {x y : Nat} (hx : x < n) (hy : y < n)
    (h : copyOf (inside.zipIdx n) x = copyOf (inside.zipIdx n) y) : x = y := by
  have hcopy : ∀ {z : Nat}, z ∈ inside → ∃ k, inside[k]? = some z ∧ copyOf (inside.zipIdx n) z = n + k := by
    intro z hz
    obtain ⟨k, hk⟩ := List.mem_iff_getElem?.mp hz
    exact ⟨k, hk, copyOf_zipIdx nodup hk n⟩
  by_cases hxin : x ∈ inside <;> by_cases hyin : y ∈ inside
  · obtain ⟨j, hj, hxj⟩ := hcopy hxin
    obtain ⟨k, hk, hyk⟩ := hcopy hyin
    rw [hxj, hyk] at h
    obtain rfl := Nat.add_left_cancel h
    exact Option.some.inj (hj.symm.trans hk)
  · obtain ⟨j, _, hxj⟩ := hcopy hxin
    rw [hxj, copyOf_of_not_mem hyin] at h
    exact absurd hy (Nat.not_lt.mpr (h ▸ Nat.le_add_right n j))
  · obtain ⟨k, _, hyk⟩ := hcopy hyin
    rw [hyk, copyOf_of_not_mem hxin] at h
    exact absurd hx (Nat.not_lt.mpr (h ▸ Nat.le_add_right n k))
  · rwa [copyOf_of_not_mem hxin, copyOf_of_not_mem hyin] at h

/-- The uses of a value in a range, in the order of the range. -/
def usesWithin (p : Program) (inside : List ExprId) (v : ValueRef) : List UseRef :=
  inside.flatMap fun x => usesBy x (p.expr x).inputs v

theorem nodup_usesWithin (nodup : inside.Nodup) (v : ValueRef) : (p.usesWithin inside v).Nodup := by
  refine List.nodup_flatMap.mpr ⟨fun x _ => nodup_usesBy .., nodup.imp fun {x y} hxy u hx hy => ?_⟩
  exact hxy ((mem_usesBy.mp hx).1.symm.trans (mem_usesBy.mp hy).1)

/-- With consistent links, these are the uses whose consumers are in the range. -/
theorem Linked.mem_usesWithin (h : p.Linked) (hin : ∀ x ∈ inside, x ∈ p.order) {u : UseRef} :
    u ∈ p.usesWithin inside v ↔ u ∈ p.uses v ∧ u.consumer ∈ inside := by
  rw [usesWithin, List.mem_flatMap]
  constructor
  · rintro ⟨x, hx, hu⟩
    obtain ⟨rfl, hread⟩ := mem_usesBy.mp hu
    exact ⟨(h u.consumer (hin _ hx) u.input v).mp hread, hx⟩
  · rintro ⟨hu, hx⟩
    exact ⟨u.consumer, hx, mem_usesBy.mpr ⟨rfl, (h u.consumer (hin _ hx) u.input v).mpr hu⟩⟩

/-- Inputs that read another value exactly where those of an expression read a value. -/
theorem usesBy_map {f : Input → Input} {inputs : List Input} {w : ValueRef}
    (h : ∀ i ∈ inputs, (f i).source = w ↔ i.source = v) (id c : ExprId) :
    usesBy c (inputs.map f) w = (usesBy id inputs v).map fun u => { u with consumer := c } := by
  rw [usesBy, usesBy, List.zipIdx_map, List.filter_map, List.map_map, List.map_map]
  have hfilter : (inputs.zipIdx.filter fun e => decide ((f e.1).source = w)) =
      inputs.zipIdx.filter fun e => decide (e.1.source = v) :=
    List.filter_congr fun e he => decide_eq_decide.mpr (h e.1 (List.fst_mem_of_mem_zipIdx he))
  exact congrArg (List.map fun e => (⟨c, e.2⟩ : UseRef)) hfilter

/-- The copies read the copy of a value where their originals read the value. -/
theorem flatMap_usesBy_copiedValue (nodup : inside.Nodup)
    (hsrc : ∀ id ∈ inside, ∀ i ∈ (p.expr id).inputs, p.HasValue i.source) (hv : p.HasValue v) :
    ((inside.zipIdx p.exprs.size).flatMap fun e =>
      usesBy e.2 ((p.expr e.1).inputs.map (retargeted (inside.zipIdx p.exprs.size)))
        (copiedValue (inside.zipIdx p.exprs.size) v)) =
      (p.usesWithin inside v).map (copiedUse (inside.zipIdx p.exprs.size)) := by
  have hinj : ∀ x ∈ inside, ∀ i ∈ (p.expr x).inputs,
      ((retargeted (inside.zipIdx p.exprs.size) i).source = copiedValue (inside.zipIdx p.exprs.size) v ↔
        i.source = v) := by
    intro x hx i hi
    refine ⟨fun h => ?_, fun h => by rw [← h]; rfl⟩
    have hproducer := copyOf_zipIdx_inj nodup (hsrc x hx i hi).lt_size hv.lt_size
      (congrArg ValueRef.producer h)
    have houtput : i.source.output = v.output := congrArg (·.output) h
    cases hi : i.source
    cases v
    simp_all
  have hpairs : ∀ e ∈ inside.zipIdx p.exprs.size,
      usesBy e.2 ((p.expr e.1).inputs.map (retargeted (inside.zipIdx p.exprs.size)))
        (copiedValue (inside.zipIdx p.exprs.size) v) =
      (usesBy e.1 (p.expr e.1).inputs v).map (copiedUse (inside.zipIdx p.exprs.size)) := by
    rintro ⟨x, c⟩ he
    have hx : x ∈ inside := List.fst_mem_of_mem_zipIdx he
    rw [usesBy_map (hinj x hx) x c]
    refine List.map_congr_left fun u hu => ?_
    rw [copiedUse, (mem_usesBy.mp hu).1, copyOf_of_mem_zipIdx nodup he]
  rw [List.flatMap_congr hpairs, usesWithin, List.map_flatMap]
  have hfst := List.flatMap_map Prod.fst (fun x => (usesBy x (p.expr x).inputs v).map
    (copiedUse (inside.zipIdx p.exprs.size))) (inside.zipIdx p.exprs.size)
  rw [List.zipIdx_map_fst] at hfst
  exact hfst.symm

namespace CopyRead

variable (h : p.CopyRead inside q) (nodup : inside.Nodup) (earlier : p.ProducersFirst inside)

include h nodup earlier

/-- A copy reads from the copies of the range. -/
theorem inputs_copied (he : (x, c) ∈ inside.zipIdx p.exprs.size) :
    (q.expr c).inputs = (p.expr x).inputs.map (retargeted (inside.zipIdx p.exprs.size)) := by
  obtain ⟨k, hk, rfl⟩ := mem_zipIdx_iff.mp he
  obtain ⟨hlt, rfl⟩ := List.getElem?_eq_some_iff.mp hk
  have hsplit : inside = inside.take k ++ inside[k] :: inside.drop (k + 1) := by
    rw [← List.drop_eq_getElem_cons hlt, List.take_append_drop]
  rw [h.newInputs k _ hk]
  exact List.map_congr_left fun i hi => earlier.retargeted_eq nodup hsplit hi _

/-- The copies are entered behind the earlier uses. -/
theorem uses_copied (v : ValueRef) :
    q.uses v = p.uses v ++ (inside.zipIdx p.exprs.size).flatMap fun e =>
      usesBy e.2 ((p.expr e.1).inputs.map (retargeted (inside.zipIdx p.exprs.size))) v := by
  rw [h.uses, ← List.zipIdx_map_snd, List.flatMap_map]
  exact congrArg _ (List.flatMap_congr fun e he => by rw [h.inputs_copied nodup earlier he])

/-- The values of the range keep their uses, since no copy reads them. -/
theorem uses_kept (valid : ∀ a : Nat, a ∈ inside → a < p.exprs.size) (hv : v.producer ∈ inside) :
    q.uses v = p.uses v := by
  rw [h.uses_copied nodup earlier, List.flatMap_eq_nil_iff.mpr, List.append_nil]
  exact fun e _ => usesBy_retargeted_of_mem valid hv e.2 _

/-- The uses of the value that copies read in the place of a value. -/
theorem uses_copiedValue (hsrc : ∀ id ∈ inside, ∀ i ∈ (p.expr id).inputs, p.HasValue i.source)
    (hv : p.HasValue v) :
    q.uses (copiedValue (inside.zipIdx p.exprs.size) v) =
      p.uses (copiedValue (inside.zipIdx p.exprs.size) v) ++
        (p.usesWithin inside v).map (copiedUse (inside.zipIdx p.exprs.size)) := by
  rw [h.uses_copied nodup earlier, flatMap_usesBy_copiedValue nodup hsrc hv]

/-- So the outputs that are used outside are those that were. -/
theorem mem_sharedOutputs_iff (valid : ∀ a : Nat, a ∈ inside → a < p.exprs.size) (hx : x ∈ inside) :
    k ∈ q.sharedOutputs inside x ↔ p.HasValue ⟨x, k⟩ ∧ ∃ u ∈ p.uses ⟨x, k⟩, u.consumer ∉ inside := by
  rw [mem_sharedOutputs, h.oldValues ⟨x, k⟩ (valid x hx), h.uses_kept nodup earlier valid (v := ⟨x, k⟩) hx]

end CopyRead

/-- A copy is in the group of its original exactly if this is used outside. -/
theorem CopyJoined.mem_aliasGroup_iff (h : p.CopyJoined inside inside q) (existing : p.AliasesExist)
    (he : (x, c) ∈ inside.zipIdx p.exprs.size) (hk : p.HasValue ⟨x, k⟩) :
    ⟨c, k⟩ ∈ q.aliasGroup ⟨x, k⟩ ↔ k ∈ q.sharedOutputs inside x := by
  rw [h.aliasGroup_old hk.lt_size, List.mem_append, mem_joined]
  constructor
  · rintro (hold | ⟨y, d, m, hd, hm, _, heq⟩)
    · exact absurd (List.mem_zipIdx he).1 (Nat.not_le.mpr (existing _ hk _ hold).lt_size)
    · obtain ⟨rfl, rfl⟩ := ValueRef.mk.inj heq
      obtain ⟨i, hi, hci⟩ := mem_zipIdx_iff.mp he
      obtain ⟨j, hj, hcj⟩ := mem_zipIdx_iff.mp hd
      obtain rfl := Nat.add_left_cancel (hci.symm.trans hcj)
      exact Option.some.inj (hi.symm.trans hj) ▸ hm
  · exact fun hshared => .inr ⟨x, c, k, he, hshared, rfl, rfl⟩

/-- What was copied is isomorphic to the range. -/
theorem CopyJoined.isomorphicCopy (h : p.CopyJoined inside inside q) (hc : p.Copied inside q)
    (hread : p.CopyRead inside q) (tidy : p.Tidy) (linked : p.Linked) (earlier : p.ProducersFirst inside)
    (existing : p.AliasesExist) (hsub : inside.Sublist p.order) :
    p.IsomorphicCopy inside (inside.zipIdx p.exprs.size) q := by
  have hin : ∀ x ∈ inside, x ∈ p.order := fun x hx => hsub.subset hx
  have nodup : inside.Nodup := tidy.nodup.sublist hsub
  have valid : ∀ a : Nat, a ∈ inside → a < p.exprs.size := fun a ha => tidy.valid a (hin a ha)
  have hsrc : ∀ id ∈ inside, ∀ i ∈ (p.expr id).inputs, p.HasValue i.source :=
    fun id hid i hi => linked.hasValue_source (hin id hid) hi
  have huses := fun {v} => hread.uses_copiedValue nodup earlier hsrc (v := v)
  have hself : ∀ v : ValueRef, v.producer ∉ inside → copiedValue (inside.zipIdx p.exprs.size) v = v := by
    intro v hv
    rw [copiedValue, copyOf_of_not_mem hv]
  have hshared : ∀ {x c k}, (x, c) ∈ inside.zipIdx p.exprs.size → (k ∈ q.sharedOutputs inside x ↔
      p.HasValue ⟨x, k⟩ ∧ ∃ u ∈ p.uses ⟨x, k⟩, u.consumer ∉ inside) :=
    fun he => hread.mem_sharedOutputs_iff nodup earlier valid (List.fst_mem_of_mem_zipIdx he)
  exact {
    originals := List.zipIdx_map_fst ..
    numbers := List.zipIdx_map_snd ..
    rest := hc.rest
    old := fun x hx => ⟨hc.old x hx, hread.oldInputs x hx, hread.oldPorts x hx⟩
    header := fun x c he => by
      obtain ⟨k, hk, rfl⟩ := mem_zipIdx_iff.mp he
      obtain ⟨n, _, _, _, hhead⟩ := hc.new k x hk
      have hname : (q.expr (p.exprs.size + k)).name = numbered (p.expr x).name n := by
        rw [← Expr.header_name, hhead]
      rw [hhead, hname]
    free := fun x c he => by
      obtain ⟨k, hk, rfl⟩ := mem_zipIdx_iff.mp he
      obtain ⟨n, _, _, hfree, hhead⟩ := hc.new k x hk
      rw [← Expr.header_name, hhead]
      exact hfree
    apart := by
      have hnames := hc.nodup_names
      rwa [← List.zipIdx_map_snd, List.map_map] at hnames
    counterpart := fun x c he k => by rw [copiedValue, copyOf_of_mem_zipIdx nodup he]
    outside := hself
    inputs := fun x c he => hread.inputs_copied nodup earlier he
    outputs := fun x c he => by
      obtain ⟨k, hk, rfl⟩ := mem_zipIdx_iff.mp he
      exact hread.newPorts k x hk
    gained := fun v hv hout => by
      refine ⟨_, nodup_usesWithin nodup v, fun u => linked.mem_usesWithin hin, ?_⟩
      have hgained := huses hv
      rwa [hself v hout] at hgained
    kept := fun v hv => hread.uses_kept nodup earlier valid hv
    copied := fun v hv hmem => by
      refine ⟨_, nodup_usesWithin nodup v, fun u => linked.mem_usesWithin hin, ?_⟩
      obtain ⟨k, hk⟩ := List.mem_iff_getElem?.mp hmem
      -- The copy is new, so nobody used it before.
      have hnone : p.uses (copiedValue (inside.zipIdx p.exprs.size) v) = [] := by
        refine List.eq_nil_iff_forall_not_mem.mpr fun u hu => ?_
        have hlt := (HasValue.of_mem_uses hu).lt_size
        rw [copiedValue, copyOf_zipIdx nodup hk] at hlt
        exact Nat.not_lt.mpr (Nat.le_add_right ..) hlt
      rw [huses hv, hnone, List.nil_append]
    joined := fun x c he k hk =>
      (h.mem_aliasGroup_iff existing he hk).trans ((hshared he).trans (and_iff_right hk))
    group := fun x c he k hk => by
      rw [h.aliasGroup_new hread existing valid he]
      by_cases hout : k ∈ q.sharedOutputs inside x
      · exact .inl ⟨((hshared he).mp hout).2, if_pos hout⟩
      · refine .inr ⟨fun u hu => ?_, if_neg hout⟩
        exact Decidable.not_not.mp fun hu' => hout ((hshared he).mpr ⟨hk, u, hu, hu'⟩)
    oldGroup := fun v hv => by
      refine ⟨_, h.aliasGroup_old hv.lt_size, fun y => mem_joined.trans ⟨?_, ?_⟩⟩
      · rintro ⟨x, c, k, he, hk, hroot, rfl⟩
        obtain ⟨hval, hout⟩ := (hshared he).mp hk
        exact ⟨x, c, k, he, rfl, hval, hout, hroot⟩
      · rintro ⟨x, c, k, he, rfl, hval, hout, hroot⟩
        exact ⟨x, c, k, he, (hshared he).mpr ⟨hval, hout⟩, hroot, rfl⟩ }

/-- **Copying a range makes an isomorphic copy.** In a program with consistent links whose producers stand
before their consumers, every range can be copied, and its copy is wired like the range itself. -/
theorem isomorphicCopy_of_copyRange (tidy : p.Tidy) (linked : p.Linked) (behind : p.ReadsBehind)
    (existing : p.AliasesExist) {begin stop : Nat} (hrange : begin ≤ stop) (hstop : stop ≤ p.length) :
    ∃ copies q, Edit.copyRange begin stop p = .ok copies q ∧
      p.IsomorphicCopy ((p.order.take stop).drop begin) copies q := by
  have hsub : ((p.order.take stop).drop begin).Sublist p.order :=
    (List.drop_sublist ..).trans (List.take_sublist ..)
  have hlength : ((p.order.take stop).drop begin).length = stop - begin := by
    rw [List.length_drop, List.length_take_of_le hstop]
  have hleft : ((p.order.take stop).take begin).length = begin := by
    rw [List.length_take_of_le (by rwa [List.length_take_of_le hstop])]
  have horder : p.order = (p.order.take stop).take begin ++
      ((p.order.take stop).drop begin ++ p.order.drop stop) := by
    rw [← List.append_assoc, List.take_append_drop, List.take_append_drop]
  generalize (p.order.take stop).drop begin = inside at hsub hlength horder ⊢
  obtain ⟨q, hcopied, hc, hread, hjoined⟩ := copyAll_joined (tidy.nodup.sublist hsub)
    (fun x hx => tidy.valid x (hsub.subset hx)) (fun x hx => tidy.named x (hsub.subset hx))
    (fun x hx i hi => linked.hasValue_source (hsub.subset hx) hi) existing
  have hok := (copyRange_ok tidy horder).1
  rw [hleft, hlength, Nat.add_sub_of_le hrange, hcopied] at hok
  exact ⟨_, q, hok, hjoined.isomorphicCopy hc hread tidy linked (behind.producersFirst tidy.nodup horder)
    existing hsub⟩

/-- In the kernel of the tiled squares, the last loop that squares runs over the rest of its row. Two loops
behind it read its square, an alias of the square of the elements before. The copy of the loop reads the
parameter too, and only the copy of the square joins a group. -/
theorem isomorphicCopy_of_copyRange_tiledSquare : ∃ kernel copies q,
    Kernel.ofSubgraph? (.x64 .avx2) {} Subgraph.tiledSquare = some kernel ∧
    Edit.copyRange 22 26 kernel.program = .ok copies q ∧
    kernel.program.IsomorphicCopy [5, 1, 2, 6] copies q ∧
    copies = [(5, 34), (1, 35), (2, 36), (6, 37)] ∧
    ⟨36, 0⟩ ∈ q.aliasGroup ⟨2, 0⟩ ∧ ⟨35, 0⟩ ∉ q.aliasGroup ⟨1, 0⟩ := by
  have hsome : ((Kernel.ofSubgraph? (.x64 .avx2) {} Subgraph.tiledSquare).any fun kernel =>
      (∀ id ∈ kernel.program.order, id < kernel.program.exprs.size) ∧ kernel.program.order.Nodup ∧
      (∀ id ∈ kernel.program.order, kernel.program.isUsed (kernel.program.expr id).name = true) ∧
      kernel.program.length ≤ kernel.program.slots ∧ kernel.program.Linked ∧ kernel.program.ReadsBehind ∧
      kernel.program.Grouped ∧ kernel.program.exprs.size = 34 ∧ 26 ≤ kernel.program.length ∧
      (kernel.program.order.take 26).drop 22 = [5, 1, 2, 6] ∧
      kernel.program.uses ⟨2, 0⟩ = [⟨3, 0⟩, ⟨6, 1⟩, ⟨8, 0⟩, ⟨16, 0⟩, ⟨17, 0⟩] ∧
      kernel.program.uses ⟨1, 0⟩ = [⟨2, 0⟩, ⟨2, 1⟩] ∧
      kernel.program.HasValue ⟨2, 0⟩ ∧ kernel.program.HasValue ⟨1, 0⟩) = true := by
    decide +kernel
  obtain ⟨kernel, hk, hfacts⟩ := (Option.any_eq_true _ _).mp hsome
  obtain ⟨hvalid, hnodup, hnamed, hroom, hlinked, hbehind, hgrouped, hsize, hstop, hinside, husesSquare,
    husesLoad, hsquare, hload⟩ := of_decide_eq_true hfacts
  obtain ⟨copies, q, hcopy, hiso⟩ := isomorphicCopy_of_copyRange ⟨hvalid, hnodup, hnamed, hroom⟩ hlinked
    hbehind hgrouped.aliasesExist (by decide : 22 ≤ 26) hstop
  rw [hinside] at hiso
  have hcopies : copies = [(5, 34), (1, 35), (2, 36), (6, 37)] := by
    have hzip := List.zip_of_prod hiso.originals hiso.numbers
    rw [hsize] at hzip
    exact hzip
  refine ⟨kernel, copies, q, hk, hcopy, hiso, hcopies, ?_, ?_⟩
  · rw [hiso.joined 2 36 (by simp [hcopies]) 0 hsquare, husesSquare]
    decide
  · rw [hiso.joined 1 35 (by simp [hcopies]) 0 hload, husesLoad]
    decide

end TensorKernel.Program
