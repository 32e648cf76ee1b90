import TensorKernel.Proofs.Program.CopyUses

/-!
# The wiring of copies

When a range is copied, a value that is used outside the range comes into one alias group with its
copy, which stands behind the earlier aliases. A value that is used inside only has a copy that is alone,
and the groups of the values that were there before do not grow together.
-/

namespace TensorKernel.Program

variable {c copy id x : ExprId} {inside : List ExprId} {k n : Nat} {v y : ValueRef}

variable {p q : Program}

/-! ### Joining outputs -/

theorem root_of_not_hasValue (h : ¬ p.HasValue v) : p.root v = v :=
  (List.cons.inj (aliasGroup_of_not_hasValue h)).1

theorem aliases_of_not_hasValue (h : ¬ p.HasValue v) : p.aliases v = [] := by
  have htail : p.aliases (p.root v) = [] := (List.cons.inj (aliasGroup_of_not_hasValue h)).2
  rwa [root_of_not_hasValue h] at htail

/-- What joining the outputs `ks` of `copy` to those of `id` changes. -/
structure OutputsJoined (p : Program) (id copy : ExprId) (ks : List Nat) (q : Program) : Prop where
  /-- Values stay. -/
  values : ∀ v, q.HasValue v ↔ p.HasValue v
  /-- Uses stay. -/
  uses : ∀ v, q.uses v = p.uses v
  /-- A joined output has the root of the output that it was joined to. -/
  roots : ∀ v, q.root v =
    if v.producer = copy ∧ v.output ∈ ks then p.root ⟨id, v.output⟩ else p.root v
  /-- It stands behind the earlier aliases of that root. -/
  aliases : ∀ v, q.aliases v =
    p.aliases v ++ (ks.filter fun k => p.root ⟨id, k⟩ = v).map (⟨copy, ·⟩)

/-- Joining one more output. -/
theorem OutputsJoined.join {ks : List Nat} (h : p.OutputsJoined id copy ks q) (hne : copy ≠ id)
    (hcopy : p.HasValue ⟨copy, k⟩) (hval : p.HasValue (p.root ⟨id, k⟩))
    (hother : (p.root ⟨id, k⟩).producer ≠ copy) :
    p.OutputsJoined id copy (ks ++ [k]) (q.join ⟨copy, k⟩ ⟨id, k⟩) := by
  have hroot : q.root ⟨id, k⟩ = p.root ⟨id, k⟩ := by
    rw [h.roots, if_neg fun hc => hne hc.1.symm]
  have hapart : q.root ⟨id, k⟩ ≠ ⟨copy, k⟩ := fun he =>
    hother (congrArg ValueRef.producer (hroot ▸ he))
  refine ⟨fun v => hasValue_join.trans (h.values v), fun v => (uses_join v).trans (h.uses v), fun v => ?_,
    fun v => ?_⟩
  · rw [root_join hapart ((h.values _).mpr hcopy), hroot, h.roots]
    by_cases hv : v = ⟨copy, k⟩
    · rw [if_pos hv, if_pos (by simp [hv]), hv]
    · have hk : ¬ (v.producer = copy ∧ v.output = k) := fun hc => hv (by cases v; simp_all)
      rw [if_neg hv]
      refine if_congr ?_ rfl rfl
      rw [List.mem_append, List.mem_singleton]
      tauto
  · have hqval : v = q.root ⟨id, k⟩ → q.HasValue v := fun he => (h.values v).mpr (he ▸ hroot ▸ hval)
    rw [aliases_join hapart hqval, hroot, h.aliases, List.filter_append, List.map_append,
      ← List.append_assoc]
    by_cases hv : v = p.root ⟨id, k⟩
    · rw [if_pos hv, List.filter_cons_of_pos (by simpa using hv.symm)]
      rfl
    · rw [if_neg hv, List.filter_cons_of_neg (by simpa using Ne.symm hv)]
      exact (List.append_nil _).symm

/-- The outputs of an expression that are used outside. -/
def sharedOutputs (p : Program) (inside : List ExprId) (id : ExprId) : List Nat :=
  (List.range (p.expr id).outputs.length).filter fun k => p.usedOutside inside ⟨id, k⟩

theorem mem_sharedOutputs :
    k ∈ p.sharedOutputs inside id ↔ p.HasValue ⟨id, k⟩ ∧ ∃ u ∈ p.uses ⟨id, k⟩, u.consumer ∉ inside := by
  simp [sharedOutputs, usedOutside, HasValue]

/-- Which outputs are used outside depends on the outputs and their uses only. -/
theorem sharedOutputs_congr (hports : q.outputPorts id = p.outputPorts id)
    (huses : ∀ k, q.uses ⟨id, k⟩ = p.uses ⟨id, k⟩) (inside : List ExprId) :
    q.sharedOutputs inside id = p.sharedOutputs inside id := by
  have hlength : (q.expr id).outputs.length = (p.expr id).outputs.length := by
    have := congrArg List.length hports
    rwa [outputPorts, List.length_map, outputPorts, List.length_map] at this
  rw [sharedOutputs, sharedOutputs, hlength]
  refine List.filter_congr fun k _ => ?_
  rw [usedOutside, huses, usedOutside]

/-- Joining the outputs of a copy that are used outside. -/
theorem outputsJoined_joinUsedOutside (inside : List ExprId) (hne : copy ≠ id)
    (same : ∀ k, p.HasValue ⟨id, k⟩ → p.HasValue ⟨copy, k⟩)
    (roots : ∀ k, p.HasValue ⟨id, k⟩ → p.HasValue (p.root ⟨id, k⟩) ∧ (p.root ⟨id, k⟩).producer ≠ copy) :
    p.OutputsJoined id copy (p.sharedOutputs inside id) (p.joinUsedOutside inside id copy) := by
  unfold joinUsedOutside sharedOutputs
  -- After the first `n` outputs, those of them that are used outside have been joined.
  suffices H : ∀ n ≤ (p.expr id).outputs.length,
      p.OutputsJoined id copy ((List.range n).filter fun k => p.usedOutside inside ⟨id, k⟩)
        ((List.range n).foldl (fun p k =>
          if p.usedOutside inside ⟨id, k⟩ then p.join ⟨copy, k⟩ ⟨id, k⟩ else p) p) from H _ (Nat.le_refl _)
  intro n hn
  induction n with
  | zero => exact ⟨fun _ => .rfl, fun _ => rfl, fun v => by simp, fun v => by simp⟩
  | succ n ih =>
    have hq := ih (Nat.le_of_succ_le hn)
    rw [List.range_succ, List.foldl_append, List.foldl_cons, List.foldl_nil, List.filter_append,
      List.filter_cons, List.filter_nil]
    generalize (List.range n).foldl _ p = q at hq
    have hused : q.usedOutside inside ⟨id, n⟩ = p.usedOutside inside ⟨id, n⟩ := by
      rw [usedOutside, hq.uses, usedOutside]
    rw [hused]
    by_cases hc : p.usedOutside inside ⟨id, n⟩ = true
    · obtain ⟨hval, hother⟩ := roots n hn
      rw [if_pos hc, if_pos hc]
      exact hq.join hne (same n hn) hval hother
    · rw [if_neg hc, if_neg hc, List.append_nil]
      exact hq

/-- What copying one expression of a range changes in alias groups. -/
structure NextJoined (p : Program) (inside : List ExprId) (id : ExprId) (q : Program) : Prop where
  /-- The outputs of the copy that are used outside have the roots of the originals. -/
  roots : ∀ v, q.root v = if v.producer = p.exprs.size ∧ v.output ∈ q.sharedOutputs inside id then
    p.root ⟨id, v.output⟩ else p.root v
  /-- They are aliases of these roots. -/
  aliases : ∀ v, q.aliases v = p.aliases v ++
    ((q.sharedOutputs inside id).filter fun k => p.root ⟨id, k⟩ = v).map (⟨p.exprs.size, ·⟩)

/-- Copying one expression. -/
theorem copyNext_joined (inside : List ExprId) (copies : List (ExprId × ExprId)) (hid : id < p.exprs.size)
    (hused : p.isUsed (p.expr id).name = true)
    (hroots : ∀ k, p.HasValue ⟨id, k⟩ → p.HasValue (p.root ⟨id, k⟩)) :
    p.NextJoined inside id (copyNext inside (copies, p) id).2 := by
  rw [copyNext_eq hused]
  dsimp only
  generalize p.nextSerial (p.expr id).name = n
  generalize numbered (p.expr id).name n = name
  have hunused := unused_copy (p.expr id) id name (p.copySources copies id)
  have hroot : ∀ v, _ = p.root v := root_make (p := { p with serial := n }) hunused
  have haliases : ∀ v, _ = p.aliases v := aliases_make (p := { p with serial := n }) hunused
  have hports := outputPorts_makeCopy { p with serial := n } id name (p.copySources copies id)
  change ∀ v, (makeCopy { p with serial := n } id name (p.copySources copies id)).2.root v = _ at hroot
  change ∀ v, (makeCopy { p with serial := n } id name (p.copySources copies id)).2.aliases v = _
    at haliases
  change ∀ j, _ = if j = p.exprs.size then (p.outputPorts id).map Port.fresh else p.outputPorts j at hports
  generalize (makeCopy { p with serial := n } id name (p.copySources copies id)).2 = r
    at hroot haliases hports ⊢
  have hold : ∀ {v : ValueRef}, v.producer < p.exprs.size → (r.HasValue v ↔ p.HasValue v) := by
    intro v hv
    rw [hasValue_iff_outputPorts, hports, if_neg (Nat.ne_of_lt hv), hasValue_iff_outputPorts]
  have hnew : ∀ k, r.HasValue ⟨id, k⟩ → r.HasValue ⟨p.exprs.size, k⟩ := by
    intro k hk
    rw [hasValue_iff_outputPorts, hports, if_pos rfl, List.length_map]
    exact hasValue_iff_outputPorts.mp ((hold hid).mp hk)
  have hj := r.outputsJoined_joinUsedOutside inside (Nat.ne_of_gt hid) hnew fun k hk => by
    have hval := hroots k ((hold hid).mp hk)
    rw [hroot]
    exact ⟨(hold hval.lt_size).mpr hval, Nat.ne_of_lt hval.lt_size⟩
  have hshared := sharedOutputs_congr ((reads_joinUsedOutside r inside id p.exprs.size).2.1 id)
    (fun k => hj.uses ⟨id, k⟩) inside
  refine ⟨fun v => ?_, fun v => ?_⟩
  · rw [hj.roots, hshared, hroot, hroot]
  · rw [hj.aliases, hshared, haliases]
    simp only [hroot]

/-! ### Copying a range -/

/-- A copy has a number behind those that were there. -/
theorem copyOf_zipIdx_cases (inside : List ExprId) (n : Nat) (x : ExprId) :
    copyOf (inside.zipIdx n) x = x ∧ x ∉ inside ∨ n ≤ copyOf (inside.zipIdx n) x := by
  cases hl : (inside.zipIdx n).lookup x with
  | none =>
    refine .inl ⟨by rw [copyOf, hl]; rfl, fun hx => ?_⟩
    obtain ⟨k, hk⟩ := List.mem_iff_getElem?.mp hx
    have hmem : (x, n + k) ∈ inside.zipIdx n := by
      refine List.mem_zipIdx_iff_le_and_getElem?_sub.mpr ⟨Nat.le_add_right .., ?_⟩
      rw [Nat.add_sub_cancel_left]
      exact hk
    exact bne_iff_ne.mp (List.lookup_eq_none_iff.mp hl _ hmem) rfl
  | some c =>
    obtain ⟨before, after, hmem, _⟩ := List.lookup_eq_some_iff.mp hl
    have hle := (List.mem_zipIdx (show (x, c) ∈ inside.zipIdx n by simp [hmem])).1
    rw [copyOf, hl]
    exact .inr hle

/-- The pairs of a range and its copies. -/
theorem mem_zipIdx_iff : (x, c) ∈ inside.zipIdx n ↔ ∃ k, inside[k]? = some x ∧ c = n + k := by
  rw [List.mem_zipIdx_iff_le_and_getElem?_sub]
  constructor
  · rintro ⟨hle, hk⟩
    exact ⟨c - n, hk, (Nat.add_sub_of_le hle).symm⟩
  · rintro ⟨k, hk, rfl⟩
    exact ⟨Nat.le_add_right .., by rwa [Nat.add_sub_cancel_left]⟩

/-- No copy reads a value of the range. -/
theorem usesBy_retargeted_of_mem (valid : ∀ a : Nat, a ∈ inside → a < n) (hv : v.producer ∈ inside)
    (c : ExprId) (inputs : List Input) : usesBy c (inputs.map (retargeted (inside.zipIdx n))) v = [] := by
  refine List.eq_nil_iff_forall_not_mem.mpr fun u hu => ?_
  have hread := (mem_usesBy.mp hu).2
  rw [List.getElem?_map, Option.map_map] at hread
  obtain ⟨i, _, hsource⟩ := Option.map_eq_some_iff.mp hread
  have hproducer : copyOf (inside.zipIdx n) i.source.producer = v.producer :=
    congrArg ValueRef.producer hsource
  rcases copyOf_zipIdx_cases inside n i.source.producer with ⟨hself, hout⟩ | hge
  · exact hout (hself ▸ hproducer ▸ hv)
  · exact Nat.not_le.mpr (valid _ hv) (hproducer ▸ hge)

/-- What copying the expressions `done`, the first ones of the range `inside`, makes of alias groups. -/
structure CopyJoined (p : Program) (inside done : List ExprId) (q : Program) : Prop where
  /-- The earlier roots stay. -/
  oldRoots : ∀ v : ValueRef, v.producer < p.exprs.size → q.root v = p.root v
  /-- The outputs of copies that are used outside have the roots of the originals. -/
  newRoots : ∀ x c, (x, c) ∈ done.zipIdx p.exprs.size → ∀ k, q.root ⟨c, k⟩ =
    if k ∈ q.sharedOutputs inside x then p.root ⟨x, k⟩ else ⟨c, k⟩
  /-- They are aliases of these roots. -/
  aliases : ∀ v, q.aliases v = p.aliases v ++ (done.zipIdx p.exprs.size).flatMap fun e =>
    ((q.sharedOutputs inside e.1).filter fun k => p.root ⟨e.1, k⟩ = v).map (⟨e.2, ·⟩)

/-- Copying one more expression of the range. -/
theorem CopyJoined.next {done : List ExprId} {q' : Program} (h : p.CopyJoined inside done q)
    (valid : ∀ a : Nat, a ∈ done → a < p.exprs.size) (hid : id < p.exprs.size)
    (hsize : q.exprs.size = p.exprs.size + done.length)
    (hread : q.NextRead (done.zipIdx p.exprs.size) id q') (hnext : q.NextJoined inside id q') :
    p.CopyJoined inside (done ++ [id]) q' := by
  have hzip : (done ++ [id]).zipIdx p.exprs.size = done.zipIdx p.exprs.size ++ [(id, q.exprs.size)] := by
    rw [List.zipIdx_append, hsize]
    rfl
  have hold : ∀ j : Nat, j < p.exprs.size → j ≠ q.exprs.size := by omega
  have hroot : ∀ k, q.root ⟨id, k⟩ = p.root ⟨id, k⟩ := fun k => h.oldRoots ⟨id, k⟩ hid
  -- The uses of what was copied before stay.
  have hshared : ∀ e ∈ done.zipIdx p.exprs.size,
      q'.sharedOutputs inside e.1 = q.sharedOutputs inside e.1 := by
    intro e he
    have hmem := List.fst_mem_of_mem_zipIdx he
    refine sharedOutputs_congr ?_ (fun k => ?_) inside
    · rw [hread.ports, if_neg (hold _ (valid _ hmem))]
    · rw [hread.uses, usesBy_retargeted_of_mem valid hmem, List.append_nil]
  refine ⟨fun v hv => ?_, fun x c he k => ?_, fun v => ?_⟩
  · rw [hnext.roots, if_neg fun hc => hold _ hv hc.1, h.oldRoots v hv]
  · rw [hnext.roots]
    rcases List.mem_append.mp (hzip ▸ he) with he | he
    · have hlt : c < p.exprs.size + done.length := Nat.add_comm .. ▸ (List.mem_zipIdx he).2.1
      rw [if_neg fun hc => Nat.ne_of_lt (hsize ▸ hlt) hc.1, h.newRoots x c he, hshared _ he]
    · have hself : q.root ⟨q.exprs.size, k⟩ = ⟨q.exprs.size, k⟩ :=
        root_of_not_hasValue fun hv => Nat.lt_irrefl _ hv.lt_size
      obtain ⟨rfl, rfl⟩ := Prod.mk.inj (List.mem_singleton.mp he)
      rw [hroot, hself]
      exact if_congr (and_iff_right rfl) rfl rfl
  · rw [hnext.aliases, h.aliases, hzip, List.flatMap_append, List.append_assoc, List.flatMap_singleton,
      List.flatMap_congr fun e he => by rw [← hshared e he]]
    simp only [hroot]

/-- The values that alias groups list exist. -/
def AliasesExist (p : Program) : Prop := ∀ v, p.HasValue v → ∀ m ∈ p.aliasGroup v, p.HasValue m

theorem Grouped.aliasesExist (h : p.Grouped) : p.AliasesExist := fun v hv m hm => ((h v hv).2 m hm).1

/-- Copying a range that reads values of the program. -/
theorem copyAll_joined (nodup : inside.Nodup) (valid : ∀ a : Nat, a ∈ inside → a < p.exprs.size)
    (named : ∀ id ∈ inside, p.isUsed (p.expr id).name = true)
    (hsrc : ∀ id ∈ inside, ∀ i ∈ (p.expr id).inputs, p.HasValue i.source) (existing : p.AliasesExist) :
    ∃ q, p.copyAll inside = (inside.zipIdx p.exprs.size, q) ∧ p.Copied inside q ∧ p.CopyRead inside q ∧
      p.CopyJoined inside inside q := by
  refine copyAll_induction (I := fun done q => p.CopyRead done q ∧ p.CopyJoined inside done q) valid named
    ⟨p.copyRead_nil, fun _ _ => rfl, fun _ _ he => by simp at he, fun _ => (List.append_nil _).symm⟩ ?_
  rintro done id rest q q' hl hc hused hnext - ⟨hread, hjoined⟩
  have hid : id ∈ inside := by simp [hl]
  have hlt := valid id hid
  have hroots : ∀ k, q.HasValue ⟨id, k⟩ → q.HasValue (q.root ⟨id, k⟩) := by
    intro k hk
    have hval := existing _ ((hread.oldValues ⟨id, k⟩ hlt).mp hk) _ List.mem_cons_self
    rw [hjoined.oldRoots ⟨id, k⟩ hlt]
    exact (hread.oldValues _ hval.lt_size).mpr hval
  have hidq : id < q.exprs.size := by
    rw [hc.size]
    exact Nat.lt_add_right _ hlt
  have hreads := q.copyNext_reads inside (done.zipIdx p.exprs.size) hused
    (hread.hasValue_sources (List.nodup_append.mp (hl ▸ nodup)).1 hlt (hsrc id hid))
  have hjoins := q.copyNext_joined inside (done.zipIdx p.exprs.size) hidq hused hroots
  rw [hnext] at hreads hjoins
  exact ⟨hread.next hc.size hlt hreads,
    hjoined.next (fun a ha => valid a (by simp [hl, ha])) hlt hc.size hreads hjoins⟩

namespace CopyJoined

/-- The values that came into the group with a given root. -/
theorem mem_joined {copies : List (ExprId × ExprId)} {root : ValueRef} :
    (y ∈ copies.flatMap fun e =>
      ((q.sharedOutputs inside e.1).filter fun k => p.root ⟨e.1, k⟩ = root).map (⟨e.2, ·⟩)) ↔
    ∃ x c k, (x, c) ∈ copies ∧ k ∈ q.sharedOutputs inside x ∧ p.root ⟨x, k⟩ = root ∧ y = ⟨c, k⟩ := by
  simp only [List.mem_flatMap, List.mem_map, List.mem_filter, decide_eq_true_eq]
  constructor
  · rintro ⟨⟨x, c⟩, he, k, ⟨hk, hroot⟩, rfl⟩
    exact ⟨x, c, k, he, hk, hroot, rfl⟩
  · rintro ⟨x, c, k, he, hk, hroot, rfl⟩
    exact ⟨(x, c), he, k, ⟨hk, hroot⟩, rfl⟩

variable (h : p.CopyJoined inside inside q)

include h

/-- The group of an earlier value. -/
theorem aliasGroup_old (hv : v.producer < p.exprs.size) :
    q.aliasGroup v = p.aliasGroup v ++ (inside.zipIdx p.exprs.size).flatMap fun e =>
      ((q.sharedOutputs inside e.1).filter fun k => p.root ⟨e.1, k⟩ = p.root v).map (⟨e.2, ·⟩) := by
  rw [aliasGroup_eq_cons, h.oldRoots v hv, h.aliases]
  rfl

/-- The earlier groups do not grow together. -/
theorem mem_aliasGroup_old {x : ValueRef} (hx : x.producer < p.exprs.size) (hy : y.producer < p.exprs.size) :
    y ∈ q.aliasGroup x ↔ y ∈ p.aliasGroup x := by
  rw [h.aliasGroup_old hx, List.mem_append, or_iff_left]
  intro hmem
  obtain ⟨_, c, k, he, _, _, rfl⟩ := mem_joined.mp hmem
  exact Nat.not_le.mpr hy (List.mem_zipIdx he).1

variable (hread : p.CopyRead inside q) (existing : p.AliasesExist)
  (valid : ∀ a : Nat, a ∈ inside → a < p.exprs.size)

include hread existing valid

/-- The group of a copy: that of the original if this is used outside, and none else. -/
theorem aliasGroup_new (he : (x, c) ∈ inside.zipIdx p.exprs.size) (k : Nat) :
    q.aliasGroup ⟨c, k⟩ = if k ∈ q.sharedOutputs inside x then q.aliasGroup ⟨x, k⟩ else [⟨c, k⟩] := by
  by_cases hk : k ∈ q.sharedOutputs inside x
  · rw [if_pos hk, aliasGroup_eq_iff, h.newRoots x c he, if_pos hk,
      h.oldRoots ⟨x, k⟩ (valid x (List.fst_mem_of_mem_zipIdx he))]
  · have hnot : ¬ p.HasValue ⟨c, k⟩ := fun hv => Nat.not_le.mpr hv.lt_size (List.mem_zipIdx he).1
    rw [if_neg hk, aliasGroup_eq_cons, h.newRoots x c he, if_neg hk, h.aliases,
      aliases_of_not_hasValue hnot, List.nil_append]
    -- Roots of earlier values are earlier values.
    refine congrArg _ (List.eq_nil_iff_forall_not_mem.mpr fun y hy => ?_)
    obtain ⟨z, d, m, hd, hm, hroot, _⟩ := mem_joined.mp hy
    have hval := (hread.oldValues ⟨z, m⟩ (valid z (List.fst_mem_of_mem_zipIdx hd))).mp
      (mem_sharedOutputs.mp hm).1
    exact hnot (hroot ▸ existing _ hval _ List.mem_cons_self)

omit existing in
/-- Groups divide the values if they did before. -/
theorem grouped (hp : p.Grouped) (hsize : q.exprs.size = p.exprs.size + inside.length) : q.Grouped := by
  have hnew := fun {x c} => h.aliasGroup_new hread hp.aliasesExist valid (x := x) (c := c)
  have hvalue : ∀ {x c k}, (x, c) ∈ inside.zipIdx p.exprs.size →
      (q.HasValue ⟨c, k⟩ ↔ p.HasValue ⟨x, k⟩) := by
    intro x c k he
    obtain ⟨j, hj, rfl⟩ := mem_zipIdx_iff.mp he
    exact hread.newValues j x k hj
  have hold : ∀ v, p.HasValue v → v ∈ q.aliasGroup v ∧
      ∀ m ∈ q.aliasGroup v, q.HasValue m ∧ q.aliasGroup m = q.aliasGroup v := by
    intro v hv
    refine ⟨(h.mem_aliasGroup_old hv.lt_size hv.lt_size).mpr (hp v hv).1, fun m hm => ?_⟩
    rw [h.aliasGroup_old hv.lt_size] at hm
    rcases List.mem_append.mp hm with hm | hm
    · obtain ⟨hval, hsame⟩ := (hp v hv).2 m hm
      refine ⟨(hread.oldValues m hval.lt_size).mpr hval, aliasGroup_eq_iff.mpr ?_⟩
      rw [h.oldRoots m hval.lt_size, h.oldRoots v hv.lt_size, aliasGroup_eq_iff.mp hsame]
    · obtain ⟨x, c, k, he, hk, hroot, rfl⟩ := mem_joined.mp hm
      have hx := valid x (List.fst_mem_of_mem_zipIdx he)
      refine ⟨(hvalue he).mpr ((hread.oldValues ⟨x, k⟩ hx).mp (mem_sharedOutputs.mp hk).1), ?_⟩
      rw [aliasGroup_eq_iff, h.newRoots x c he, if_pos hk, hroot, h.oldRoots v hv.lt_size]
  intro v hv
  rcases Nat.lt_or_ge v.producer p.exprs.size with hlt | hge
  · exact hold v ((hread.oldValues v hlt).mp hv)
  · obtain ⟨j, hj⟩ := Nat.exists_eq_add_of_le hge
    have hjlt : j < inside.length := Nat.lt_of_add_lt_add_left (hsize ▸ hj ▸ hv.lt_size)
    have he := mem_zipIdx_iff.mpr ⟨j, List.getElem?_eq_getElem hjlt, hj⟩
    have hgroup := hnew he v.output
    by_cases hk : v.output ∈ q.sharedOutputs inside inside[j]
    · rw [if_pos hk] at hgroup
      have hx := (hvalue he).mp hv
      rw [show v = ⟨v.producer, v.output⟩ from rfl, hgroup]
      refine ⟨?_, (hold _ hx).2⟩
      rw [h.aliasGroup_old hx.lt_size]
      exact List.mem_append_right _ (mem_joined.mpr ⟨_, _, _, he, hk, rfl, rfl⟩)
    · rw [if_neg hk] at hgroup
      rw [show v = ⟨v.producer, v.output⟩ from rfl, hgroup]
      refine ⟨List.mem_singleton_self _, fun m hm => ?_⟩
      rw [List.mem_singleton.mp hm]
      exact ⟨hv, hgroup⟩

end CopyJoined

/-- What copying the expressions `inside` makes of the wiring. -/
structure CopyWired (p : Program) (inside : List ExprId) (q : Program) : Prop
    extends CopyRead p inside q where
  /-- The program stays wired. -/
  wired : q.Wired
  /-- The groups of the earlier values do not grow together. -/
  oldGroups : ∀ x y : ValueRef, x.producer < p.exprs.size → y.producer < p.exprs.size →
    (y ∈ q.aliasGroup x ↔ y ∈ p.aliasGroup x)
  /-- A copy shares no group that its original is not in. -/
  within : ∀ (k : Nat) a m (x : ValueRef), inside[k]? = some a → x.producer < p.exprs.size →
    x ∈ q.aliasGroup ⟨p.exprs.size + k, m⟩ → x ∈ p.aliasGroup ⟨a, m⟩

/-- What copying does to the wiring depends on the ports only. -/
theorem CopyWired.of_ports {r : Program} (h : p.CopyWired inside q)
    (ho : ∀ id, (r.expr id).outputs = (q.expr id).outputs)
    (hi : ∀ id, (r.expr id).inputs = (q.expr id).inputs) : p.CopyWired inside r := by
  have houtput : ∀ v, r.output? v = q.output? v := fun v => congrArg (·[v.output]?) (ho v.producer)
  refine ⟨h.toCopyRead.of_ports ho hi, h.wired.of_ports houtput hi, fun x y hx hy => ?_,
    fun k a m x hk hx => ?_⟩
  · rw [aliasGroup_of_output? houtput]
    exact h.oldGroups x y hx hy
  · rw [aliasGroup_of_output? houtput]
    exact h.within k a m x hk hx

/-- Copying a range of a wired program. -/
theorem Wired.copyAll (h : p.Wired) (nodup : inside.Nodup)
    (valid : ∀ a : Nat, a ∈ inside → a < p.exprs.size)
    (named : ∀ id ∈ inside, p.isUsed (p.expr id).name = true) : p.CopyWired inside (p.copyAll inside).2 := by
  obtain ⟨q, hcopy, hc, hread, hjoined⟩ := copyAll_joined nodup valid named
    (fun _ _ i hi => h.hasValue_source hi) h.grouped.aliasesExist
  rw [hcopy]
  dsimp only
  have hcases : ∀ x : Nat, x < p.exprs.size ∨ (∃ k a, inside[k]? = some a ∧ x = p.exprs.size + k) ∨
      q.exprs.size ≤ x := by
    intro x
    rcases Nat.lt_or_ge x p.exprs.size with hlt | hge
    · exact .inl hlt
    · obtain ⟨k, rfl⟩ := Nat.exists_eq_add_of_le hge
      rcases Nat.lt_or_ge k inside.length with hk | hk
      · exact .inr (.inl ⟨k, _, List.getElem?_eq_getElem hk, rfl⟩)
      · exact .inr (.inr (hc.size ▸ Nat.add_le_add_left hk _))
  refine ⟨hread, ⟨fun x i hi => ?_, fun v o ho => ?_, fun x k v => ?_,
    hjoined.grouped hread valid h.grouped hc.size⟩, fun x y hx hy => hjoined.mem_aliasGroup_old hx hy,
    fun k a m x hk hx hmem => ?_⟩
  · rcases hcases x with hlt | ⟨k, a, hk, rfl⟩ | hge
    · exact h.freshInput x i (hread.oldInputs x hlt ▸ hi)
    · rw [hread.newInputs k a hk] at hi
      obtain ⟨_, _, rfl⟩ := List.mem_map.mp hi
      rfl
    · rw [expr_of_size_le hge] at hi
      cases hi
  · have hport : o.port ∈ q.outputPorts v.producer := List.mem_map_of_mem (List.mem_of_getElem? ho)
    rcases hcases v.producer with hlt | ⟨k, a, hk, hv⟩ | hge
    · rw [hread.oldPorts _ hlt] at hport
      obtain ⟨o', ho', heq⟩ := List.mem_map.mp hport
      obtain ⟨k, hk⟩ := List.mem_iff_getElem?.mp ho'
      exact heq ▸ h.freshOutput ⟨v.producer, k⟩ o' hk
    · rw [hv, hread.newPorts k a hk] at hport
      obtain ⟨_, _, heq⟩ := List.mem_map.mp hport
      rw [← heq]
      rfl
    · exact absurd (hasValue_iff.mpr ⟨o, ho⟩).lt_size (Nat.not_lt.mpr hge)
  · rcases Nat.lt_or_ge x q.exprs.size with hlt | hge
    · exact hread.linked (fun _ _ => h.consumer_lt_size) (fun _ => h.linked x) (hc.size ▸ hlt) k v
    · rw [expr_of_size_le hge]
      refine ⟨fun hk => (by cases hk), fun hu => absurd hge (Nat.not_le.mpr ?_)⟩
      rw [hc.size]
      rcases hread.mem_uses.mp hu with hu | ⟨k, hk, hx, _⟩
      · exact Nat.lt_add_right _ (h.consumer_lt_size hu)
      · exact Nat.lt_of_le_of_lt (Nat.le_of_eq hx) (Nat.add_lt_add_left hk _)
  · have he : (a, p.exprs.size + k) ∈ inside.zipIdx p.exprs.size := mem_zipIdx_iff.mpr ⟨k, hk, rfl⟩
    rw [hjoined.aliasGroup_new hread h.grouped.aliasesExist valid he] at hmem
    split at hmem
    · exact (hjoined.mem_aliasGroup_old (valid a (List.mem_of_getElem? hk)) hx).mp hmem
    · rw [List.mem_singleton.mp hmem] at hx
      exact absurd hx (Nat.not_lt.mpr (Nat.le_add_right ..))

end TensorKernel.Program
