import TensorKernel.Proofs.Loop.InsertMarkers

/-!
# Listed loops

Before markers are inserted, every expression lists the loops that cover it. The loops cover ranges of
expressions, and of two loops the later one lies inside the earlier one or apart from it. So the loops
that cover an expression form a chain, a loop is listed at the same depth by all the expressions that
it covers, and a loop inside another one lies deeper.
-/

namespace TensorKernel

variable {before behind : List ListedLoop} {done : List LoopId} {a b l : ListedLoop} {id : LoopId} {x : Nat}

/-- A loop with the first and the last expression that it covers. -/
structure ListedLoop where
  /-- The id of the loop. -/
  id : LoopId
  /-- The first expression. -/
  first : Nat
  /-- The last expression. -/
  last : Nat
deriving DecidableEq, Repr

namespace ListedLoop

/-- Whether the loop covers an expression. -/
def covers (l : ListedLoop) (x : Nat) : Bool := l.first ≤ x && x ≤ l.last

theorem covers_iff : l.covers x = true ↔ l.first ≤ x ∧ x ≤ l.last := by
  simp [covers]

/-- Whether the loop is around another one. -/
def isAround (a b : ListedLoop) : Bool := a.first ≤ b.first && b.last ≤ a.last

theorem isAround_iff : a.isAround b = true ↔ a.first ≤ b.first ∧ b.last ≤ a.last := by
  simp [isAround]

/-- The later loop `b` lies inside the earlier loop `a` or apart from it. -/
def Admits (a b : ListedLoop) : Prop := a.isAround b = true ∨ b.last < a.first ∨ a.last < b.first

/-- If both loops cover an expression, the earlier one is around the later one. -/
theorem Admits.isAround (h : a.Admits b) (ha : a.covers x = true) (hb : b.covers x = true) :
    a.isAround b = true := by
  rw [covers_iff] at ha hb
  rcases h with h | h | h
  · exact h
  · omega
  · omega

/-- A loop around another one covers what that one covers. -/
theorem covers_of_isAround (h : a.isAround b = true) (hx : b.covers x = true) : a.covers x = true := by
  rw [covers_iff] at *
  rw [isAround_iff] at h
  omega

end ListedLoop

namespace Program

/-- The program lists the given loops, enclosing ones first. -/
structure Listed (p : Program) (ls : List ListedLoop) : Prop where
  /-- Nothing was copied and no loop was split. -/
  pristine : p.Pristine
  /-- The expressions stand in the order in which they were made. -/
  order : p.order = List.range p.exprs.size
  /-- They read earlier ones. -/
  earlier : ∀ x, ∀ i ∈ (p.expr x).inputs, i.source.producer < x
  /-- The loops are the registered ones. -/
  ids : ls.map (·.id) = p.loops.ids
  /-- They cover expressions of the program. -/
  inside : ∀ l ∈ ls, l.first ≤ l.last ∧ l.last < p.exprs.size
  /-- They lie inside each other or apart. -/
  nested : ls.Pairwise ListedLoop.Admits
  /-- An expression lists those that cover it. -/
  loops : ∀ x : Nat, x < p.exprs.size →
    (p.expr x).loops = (ls.filter (·.covers x)).map (·.id)
  /-- The ports of a loop are covered by it and have values. -/
  ports : ∀ l ∈ ls, ∃ info, p.loops.loop l.id = .ok info ∧ ∀ port ∈ info.frame.ports,
    l.covers port.port.expr = true ∧ ∃ v, p.value port.port = .ok v

/-- A pass that raises a number to the values it meets. -/
theorem foldl_le_iff {α : Type} {f : Nat → α → Nat} {P : α → Nat → Prop}
    (hf : ∀ d a b, f d a ≤ b ↔ d ≤ b ∧ ∀ k, P a k → k ≤ b) (l : List α) (d b : Nat) :
    l.foldl f d ≤ b ↔ d ≤ b ∧ ∀ a ∈ l, ∀ k, P a k → k ≤ b := by
  induction l generalizing d with
  | nil => simp
  | cons a l ih =>
    rw [List.foldl_cons, ih, hf]
    simp only [List.mem_cons, forall_eq_or_imp, and_assoc]

/-- The depth of a loop is the greatest place at which it is listed. -/
theorem listedDepth_le_iff {p : Program} {b : Nat} :
    p.listedDepth id ≤ b ↔ ∀ e ∈ p.list, ∀ k : Nat, e.loops[k]? = some id → k ≤ b := by
  unfold listedDepth
  rw [foldl_le_iff (P := fun e k => e.loops[k]? = some id)]
  · simp
  · intro d e b
    rw [foldl_le_iff (P := fun entry k => entry = (id, k))]
    · refine and_congr_right fun _ => ?_
      constructor
      · intro h k hk
        exact h (id, k) (List.mem_zipIdx_iff_getElem?.mpr hk) k rfl
      · rintro h _ hentry k rfl
        exact h k (List.mem_zipIdx_iff_getElem?.mp hentry)
    · rintro d ⟨l, k⟩ b
      dsimp only
      split
      · rename_i hl
        rw [Nat.max_le]
        simp [hl]
      · rename_i hl
        simp [hl]

namespace Listed

variable {p : Program} {ls : List ListedLoop}

/-- The ids of the loops are different. -/
theorem nodup (h : p.Listed ls) : (ls.map (·.id)).Nodup := h.ids ▸ h.pristine.table.nodup

/-- What a loop that covers an expression has before it in the list of the expression: the loops
around it. -/
theorem loops_eq (h : p.Listed ls) (hls : ls = before ++ l :: behind) (hx : l.covers x = true) :
    (p.expr x).loops = (before.filter (·.isAround l)).map (·.id) ++
      l.id :: (behind.filter (·.covers x)).map (·.id) := by
  have hnested := h.nested
  have hlt : x < p.exprs.size := by
    have hin := (h.inside l (by simp [hls])).2
    have hle := (ListedLoop.covers_iff.mp hx).2
    omega
  rw [hls] at hnested
  have haround : before.filter (·.covers x) = before.filter (·.isAround l) := by
    refine List.filter_congr fun a ha => ?_
    have hadmits := (List.pairwise_append.mp hnested).2.2 a ha l List.mem_cons_self
    rw [Bool.eq_iff_iff]
    exact ⟨fun hcovers => hadmits.isAround hcovers hx,
      fun hisAround => ListedLoop.covers_of_isAround hisAround hx⟩
  rw [h.loops x hlt, hls, List.filter_append, List.filter_cons, if_pos hx, List.map_append,
    List.map_cons, haround]

/-- A loop lies as deep as there are loops around it. -/
theorem listedDepth_eq (h : p.Listed ls) (hls : ls = before ++ l :: behind) :
    p.listedDepth l.id = (before.filter (·.isAround l)).length := by
  obtain ⟨hle, hlt⟩ := h.inside l (by simp [hls])
  have hfirst : l.covers l.first = true := ListedLoop.covers_iff.mpr ⟨Nat.le_refl _, hle⟩
  refine Nat.le_antisymm (listedDepth_le_iff.mpr ?_) ?_
  · intro e he k hk
    obtain ⟨x, hx, rfl⟩ := List.mem_map.mp he
    rw [h.order, List.mem_range] at hx
    have hnodup := h.nodup
    have hcovers : l.covers x = true := by
      rw [h.loops x hx] at hk
      obtain ⟨a, ha, hid⟩ := List.mem_map.mp (List.mem_of_getElem? hk)
      obtain ⟨ha, hcovers⟩ := List.mem_filter.mp ha
      rwa [List.inj_on_of_nodup_map hnodup (by simp [hls]) ha hid.symm]
    have hplace : (p.expr x).loops[(before.filter (·.isAround l)).length]? = some l.id := by
      rw [h.loops_eq hls hcovers, List.getElem?_append_right (by simp)]
      simp
    have hdifferent : (p.expr x).loops.Nodup := by
      rw [h.loops x hx]
      exact hnodup.sublist ((List.filter_sublist ..).map _)
    have hlength := (List.getElem?_eq_some_iff.mp hk).1
    exact Nat.le_of_eq ((List.getElem?_inj hlength hdifferent).mp (hk.trans hplace.symm))
  · have hmeets := listedDepth_le_iff.mp (Nat.le_refl (p.listedDepth l.id)) (p.expr l.first)
      (List.mem_map_of_mem (by rw [h.order, List.mem_range]; omega))
    refine hmeets _ ?_
    rw [h.loops_eq hls hfirst, List.getElem?_append_right (by simp)]
    simp

/-- Of two loops that cover an expression the later one lies deeper. -/
theorem listedDepth_lt (h : p.Listed ls) {between : List ListedLoop}
    (hls : ls = before ++ a :: (between ++ b :: behind)) (ha : a.covers x = true) (hb : b.covers x = true) :
    p.listedDepth a.id < p.listedDepth b.id := by
  have hnested := h.nested
  have hls' : ls = (before ++ a :: between) ++ b :: behind := by rw [hls]; simp
  have haround : a.isAround b = true := by
    rw [hls] at hnested
    have hadmits := (List.pairwise_cons.mp (List.pairwise_append.mp hnested).2.1).1 b (by simp)
    exact hadmits.isAround ha hb
  have hsublist : (before.filter (·.isAround a)).length ≤ (before.filter (·.isAround b)).length := by
    refine (List.monotone_filter_right before fun l hl => ?_).length_le
    rw [ListedLoop.isAround_iff] at *
    omega
  rw [h.listedDepth_eq hls, h.listedDepth_eq hls', List.filter_append, List.filter_cons,
    if_pos haround, List.length_append, List.length_cons]
  omega

/-- The loops that cover an expression and wait for their markers. -/
def waiting (ls : List ListedLoop) (done : List LoopId) (x : Nat) : List LoopId :=
  (ls.filter fun l => l.covers x && !done.contains l.id).map (·.id)

theorem mem_waiting : id ∈ waiting ls done x ↔ ∃ l ∈ ls, l.id = id ∧ l.covers x = true ∧ l.id ∉ done := by
  simp only [waiting, List.mem_map, List.mem_filter, Bool.and_eq_true, Bool.not_eq_true',
    List.contains_eq_mem, decide_eq_false_iff_not]
  constructor
  · rintro ⟨l, ⟨hl, hx, hd⟩, rfl⟩
    exact ⟨l, hl, rfl, hx, hd⟩
  · rintro ⟨l, hl, rfl, hx, hd⟩
    exact ⟨l, ⟨hl, hx, hd⟩, rfl⟩

/-- A loop has its turn when the loops inside it have their markers and those around it wait. -/
structure Turn (p : Program) (ls : List ListedLoop) (done : List LoopId) (l : ListedLoop) : Prop where
  new : l.id ∉ done
  deeper : ∀ a ∈ ls, p.listedDepth l.id < p.listedDepth a.id → a.id ∈ done
  outer : ∀ a ∈ ls, p.listedDepth a.id < p.listedDepth l.id → a.id ∉ done

/-- When a loop has its turn, it waits with the loops around it, and it is the innermost of them. -/
theorem waiting_of_turn (h : p.Listed ls) (hls : ls = before ++ l :: behind) (turn : Turn p ls done l)
    (hx : l.covers x = true) :
    waiting ls done x = (before.filter (·.isAround l)).map (·.id) ++ [l.id] ∧
      waiting ls (l.id :: done) x = (before.filter (·.isAround l)).map (·.id) := by
  have hnested := h.nested
  have hnodup := h.nodup
  rw [hls] at hnested hnodup
  have hadmits : ∀ a ∈ before, a.Admits l := fun a ha =>
    (List.pairwise_append.mp hnested).2.2 a ha l List.mem_cons_self
  have hne : ∀ a ∈ before, a.id ≠ l.id := by
    rw [List.map_append, List.map_cons, List.nodup_append] at hnodup
    exact fun a ha he => hnodup.2.2 _ (List.mem_map_of_mem ha) _ List.mem_cons_self he
  -- the loops before it that cover the expression are around it and wait
  have hbefore : ∀ a ∈ before, a.covers x = true → a.id ∉ done := by
    intro a ha hcovers
    obtain ⟨s, t, hst⟩ := List.append_of_mem ha
    have hsplit : ls = s ++ a :: (t ++ l :: behind) := by
      rw [hls, hst]
      simp
    exact turn.outer a (by simp [hsplit]) (h.listedDepth_lt hsplit hcovers hx)
  -- those behind it that do are inside it and have their markers
  have hbehind : ∀ a ∈ behind, a.covers x = true → a.id ∈ done := by
    intro a ha hcovers
    obtain ⟨s, t, hst⟩ := List.append_of_mem ha
    have hsplit : ls = before ++ l :: (s ++ a :: t) := by rw [hls, hst]
    exact turn.deeper a (by simp [hsplit]) (h.listedDepth_lt hsplit hx hcovers)
  have hfilter : ∀ marked : List LoopId, (∀ a ∈ before, a.covers x = true → a.id ∉ marked) →
      (∀ id ∈ done, id ∈ marked) → waiting ls marked x =
        (before.filter (·.isAround l)).map (·.id) ++ if l.id ∈ marked then [] else [l.id] := by
    intro marked hfree hmore
    have houter : before.filter (fun a => a.covers x && !marked.contains a.id) =
        before.filter (·.isAround l) := by
      refine List.filter_congr fun a ha => ?_
      rw [Bool.eq_iff_iff, Bool.and_eq_true]
      constructor
      · rintro ⟨hcovers, _⟩
        exact (hadmits a ha).isAround hcovers hx
      · intro haround
        have hcovers := ListedLoop.covers_of_isAround haround hx
        exact ⟨hcovers, by simpa using hfree a ha hcovers⟩
    have hinner : behind.filter (fun a => a.covers x && !marked.contains a.id) = [] := by
      refine List.filter_eq_nil_iff.mpr fun a ha => ?_
      simp only [Bool.and_eq_true, Bool.not_eq_true', List.contains_eq_mem, decide_eq_false_iff_not,
        not_and, Decidable.not_not]
      exact fun hcovers => hmore _ (hbehind a ha hcovers)
    rw [waiting, hls, List.filter_append, List.filter_cons, houter, hinner, hx]
    by_cases hmarked : l.id ∈ marked <;> simp [hmarked]
  constructor
  · rw [hfilter done hbefore fun _ hd => hd, if_neg turn.new]
  · rw [hfilter (l.id :: done) (fun a ha hcovers => ?_) fun _ hd => List.mem_cons_of_mem _ hd,
      if_pos List.mem_cons_self, List.append_nil]
    rw [List.mem_cons, not_or]
    exact ⟨hne a ha, hbefore a ha hcovers⟩

/-- A loop that does not cover an expression makes no difference there. -/
theorem waiting_cons (ls : List ListedLoop) (done : List LoopId)
    (h : ∀ l ∈ ls, l.id = id → l.covers x = false) : waiting ls (id :: done) x = waiting ls done x := by
  unfold waiting
  congr 1
  refine List.filter_congr fun l hl => ?_
  by_cases hid : l.id = id
  · rw [h l hl hid, Bool.false_and, Bool.false_and]
  · simp [List.contains_eq_mem, hid]

end Listed

end Program

end TensorKernel
