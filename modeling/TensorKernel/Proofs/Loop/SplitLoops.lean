import TensorKernel.Proofs.Allocation.Assign
import TensorKernel.Proofs.Loop.SplitRun

/-!
# Splitting all loops

The loops of a marked program are split from the innermost ones outwards, so a loop that is copied
along with a part around it has been split before. In the end all loops are split, and the program
executes what it executed: the same expressions, with the data pointers at the same places, and the
pointers end where they ended.
-/

namespace TensorKernel

open Outcome

variable {x : ExprId}

/-- There is at least one part. -/
theorem Variant.parts_ne_nil (work increment : Int) (withFirst : Bool) :
    parts work increment withFirst ≠ [] := by
  have hempty : ∀ l : List Variant, (if l.isEmpty then [⟨.main, 0, increment⟩] else l) ≠ [] := by
    intro l
    cases l <;> simp
  exact hempty _

namespace Program

variable {p : Program} {n : Nest}

/-- The depth of a loop is the number of loops around its begin marker. -/
theorem WellNested.depth_eq (w : p.WellNested n) (hx : x ∈ n.begins) :
    p.depth (p.expr x).loop = .ok (p.expr x).loops.length := by
  obtain ⟨stop, body, rest, c, hn⟩ := Nest.exists_plug hx []
  change n = _ at hn
  subst hn
  have hlist : p.list[(Context.left c).length]? = some (p.expr x) := by
    rw [list, w.order_plug]
    simp [Nest.flatten]
  have houter : p.outerLoops (p.expr x).loop = .ok (p.expr x).loops := by
    refine except_bind_eq_ok.mpr ⟨_, w.loopBounds_plug, ?_⟩
    dsimp only
    rw [hlist]
  exact except_bind_eq_ok.mpr ⟨_, houter, rfl⟩

/-- A marked program all of whose loops are whole and have a property. -/
structure AllUnified (p : Program) (n : Nest) (P : UnifiedLoop → Prop) : Prop where
  /-- The program is tidy. -/
  tidy : p.Tidy
  /-- Its loops are. -/
  table : p.loops.Tidy
  /-- Its markers are well nested. -/
  nested : p.WellNested n
  /-- Every loop has its markers. -/
  marked : ∀ id ∈ p.loops.ids, ∃ x ∈ n.begins, (p.expr x).loop = id
  /-- Every loop is whole and has the property. -/
  whole : ∀ x ∈ n.begins, ∃ place, p.loops.binding? (p.expr x).loop = some (.unified place) ∧
    P (p.loops.unifiedAt place)

/-- A marked program none of whose loops has been split. -/
abbrev Unsplit (p : Program) (n : Nest) : Prop := p.AllUnified n UnifiedLoop.Splittable

/-- A marked program none of whose loops has been divided; the work of a loop may be anything. -/
abbrev Undivided (p : Program) (n : Nest) : Prop := p.AllUnified n UnifiedLoop.Divisible

theorem Unsplit.undivided (h : p.Unsplit n) : p.Undivided n :=
  { h with whole := fun x hx => (h.whole x hx).imp fun _ => And.imp_right (·.divisible) }

/-- No unified loop has negative work. -/
def WorkNonneg (p : Program) : Prop :=
  ∀ id place, p.loops.binding? id = some (.unified place) → 0 ≤ (p.loops.unifiedAt place).work

/-- Steps leave the work of unified loops as it is. -/
theorem WorkNonneg.of_steps {q : Program} (h : p.WorkNonneg)
    (steps : Relation.ReflTransGen SplitStep p q) : q.WorkNonneg := by
  obtain ⟨hunified, hids⟩ := unified_of_steps steps
  intro id place hid
  rw [LoopTable.unifiedAt, hunified]
  exact h id place (hids id place hid)

namespace Splitting

variable {pending : List (LoopId × Nat)} {size : Nat}

/-- The first of the loops that wait is split. -/
theorem splitLoop_ok {id : LoopId} {depth : Nat} (s : p.Splitting n ((id, depth) :: pending))
    (hdeep : ∀ l ∈ pending, l.2 ≤ depth) (hnodup : (((id, depth) :: pending).map Prod.fst).Nodup)
    (hsize : size ≤ p.exprs.size) :
    ∃ events q m, Edit.splitLoop id p = .ok events q ∧ q.Splitting m pending ∧
      Relation.ReflTransGen SplitStep p q ∧
      (p.WorkNonneg → m.run q.course (q.ancestor size) = n.run p.course (p.ancestor size)) := by
  obtain ⟨b, hb, hid, origin, hplace, ready⟩ := s.ready _ (List.mem_cons_self ..)
  cases hid
  obtain ⟨stop, body, rest, c, hn⟩ := Nest.exists_plug hb []
  change n = _ at hn
  subst hn
  have hsplit : Variant.split (p.loops.unifiedAt origin).work (p.loops.unifiedAt origin).increment
      (!(p.loops.unifiedAt origin).handlers.first.isEmpty) = .ok _ :=
    if_neg (Int.not_le.mpr ready.increment)
  obtain ⟨events, q, m, hq, hs, hsteps, hrun⟩ := s.insertParts_ok
    (Variant.parts_ne_nil _ _ _) rfl hdeep hnodup hplace ready.passive hsize
  refine ⟨events, q, m, ?_, hs, hsteps, fun hwork => ?_⟩
  · refine bind_eq_ok.mpr ⟨origin, p, ask_eq_ok.mpr ⟨?_, rfl⟩,
      bind_eq_ok.mpr ⟨p, p, rfl, bind_eq_ok.mpr ⟨_, p, ask_eq_ok.mpr ⟨hsplit, rfl⟩,
        bind_eq_ok.mpr ⟨_, p, ask_eq_ok.mpr ⟨s.nested.loopBounds_plug, rfl⟩, hq⟩⟩⟩⟩
    rw [LoopTable.unifiedPlace, hplace]
  · have hcourse : p.course b = ⟨origin, (Variant.parts (p.loops.unifiedAt origin).work
        (p.loops.unifiedAt origin).increment
        (!(p.loops.unifiedAt origin).handlers.first.isEmpty)).flatMap Variant.chunks,
        (p.loops.unifiedAt origin).ports.map (·.ptrIncrement),
        (p.loops.unifiedAt origin).ports.map (·.finalizationOffset)⟩ := by
      rw [course, LoopTable.course, hplace,
        Variant.flatMap_chunks_parts (hwork _ _ hplace) ready.increment]
    rw [hrun, ← hcourse, Function.update_eq_self]

/-- All loops that wait are split, the deepest ones first. -/
theorem splitAll_ok (s : p.Splitting n pending) (hdeep : pending.Pairwise fun a b => b.2 ≤ a.2)
    (hnodup : (pending.map Prod.fst).Nodup) (hsize : size ≤ p.exprs.size) :
    ∃ events q m, pending.mapM (fun l => Edit.splitLoop l.1) p = .ok events q ∧ q.Splitting m [] ∧
      Relation.ReflTransGen SplitStep p q ∧
      (p.WorkNonneg → m.run q.course (q.ancestor size) = n.run p.course (p.ancestor size)) := by
  induction pending generalizing p n with
  | nil =>
    refine ⟨[], p, n, ?_, s, .refl, fun _ => rfl⟩
    rw [List.mapM_nil]
    rfl
  | cons l pending ih =>
    obtain ⟨hl, hpending⟩ := List.pairwise_cons.mp hdeep
    obtain ⟨events, q, m, hq, hs, hsteps, hrun⟩ := s.splitLoop_ok hl hnodup hsize
    obtain ⟨events', q', m', hq', hs', hsteps', hrun'⟩ := ih hs hpending
      (List.nodup_cons.mp hnodup).2 (Nat.le_trans hsize (size_le_of_steps hsteps))
    refine ⟨events :: events', q', m', ?_, hs', hsteps.trans hsteps', fun hwork => ?_⟩
    · rw [List.mapM_cons]
      exact bind_eq_ok.mpr ⟨events, q, hq, bind_eq_ok.mpr ⟨events', q', hq', rfl⟩⟩
    · exact (hrun' (hwork.of_steps hsteps)).trans (hrun hwork)

end Splitting

namespace Undivided

/-- The unified loops with their depths. -/
def depths (p : Program) : List (LoopId × Nat) :=
  (p.loops.bindings.filter fun l => l.2 matches .unified _).map fun l =>
    (l.1, (p.depth l.1).toOption.getD 0)

/-- The depths are found. -/
theorem unifiedDepths_eq (h : p.Undivided n) : Edit.unifiedDepths p = .ok (depths p) p := by
  refine bind_eq_ok.mpr ⟨p, p, rfl, mapM_eq_map fun l hl => ?_⟩
  obtain ⟨x, hx, hid⟩ := h.marked l.1 (List.mem_map_of_mem (List.mem_of_mem_filter hl))
  refine bind_eq_ok.mpr ⟨_, p, ask_eq_ok.mpr ⟨hid ▸ h.nested.depth_eq hx, rfl⟩, ?_⟩
  rw [← hid, h.nested.depth_eq hx]
  rfl

/-- Exactly the loops of the nest wait to be split. -/
theorem mem_depths_iff (h : p.Undivided n) {l : LoopId × Nat} :
    l ∈ depths p ↔ ∃ x ∈ n.begins, l = ((p.expr x).loop, (p.expr x).loops.length) := by
  have hdepth : ∀ x ∈ n.begins,
      (p.depth (p.expr x).loop).toOption.getD 0 = (p.expr x).loops.length := by
    intro x hx
    rw [h.nested.depth_eq hx]
    rfl
  rw [depths, List.mem_map]
  constructor
  · rintro ⟨b, hb, rfl⟩
    obtain ⟨x, hx, hid⟩ := h.marked b.1 (List.mem_map_of_mem (List.mem_of_mem_filter hb))
    exact ⟨x, hx, by rw [← hid, hdepth x hx]⟩
  · rintro ⟨x, hx, rfl⟩
    obtain ⟨place, hplace, _⟩ := h.whole x hx
    obtain ⟨before, after, hbindings, _⟩ := List.lookup_eq_some_iff.mp hplace
    refine ⟨((p.expr x).loop, .unified place), List.mem_filter.mpr ⟨?_, rfl⟩, ?_⟩
    · simp [hbindings]
    · rw [hdepth x hx]

/-- Before the first step all loops wait. -/
theorem splitting (h : p.Undivided n) {pending : List (LoopId × Nat)}
    (hp : pending.Perm (depths p)) : p.Splitting n pending := by
  refine ⟨h.tidy, h.table, h.nested, fun x hx => ?_, h.marked, fun x hx _ _ => ?_, fun l hl => ?_⟩
  · obtain ⟨place, hplace, _⟩ := h.whole x hx
    exact ⟨_, hplace⟩
  · exact hp.mem_iff.mpr (h.mem_depths_iff.mpr ⟨x, hx, rfl⟩)
  · obtain ⟨x, hx, hl⟩ := h.mem_depths_iff.mp (hp.mem_iff.mp hl)
    exact ⟨x, hx, hl, h.whole x hx⟩

/-- Each loop waits once. -/
theorem nodup_depths (h : p.Undivided n) : ((depths p).map Prod.fst).Nodup := by
  have hsub : ((p.loops.bindings.filter fun l => l.2 matches .unified _).map Prod.fst).Sublist
      p.loops.ids := List.filter_sublist.map _
  rw [depths, List.map_map]
  exact h.table.nodup.sublist hsub

/-- All loops are split, in steps, and without negative work the nest runs as before. -/
theorem splitLoops_ok (h : p.Undivided n) :
    ∃ events q m, Edit.splitLoops p = .ok events q ∧ q.Splitting m [] ∧
      Relation.ReflTransGen SplitStep p q ∧ (p.WorkNonneg →
        m.run q.course (q.ancestor p.exprs.size) = n.run p.course (p.ancestor p.exprs.size)) := by
  have hperm := sortBy_perm (fun a b : LoopId × Nat => b.2 ≤ a.2) (depths p)
  have hsorted : (sortBy (fun a b : LoopId × Nat => b.2 ≤ a.2) (depths p)).Pairwise _ :=
    pairwise_sortBy (fun a b c hab hbc => by simp only [decide_eq_true_eq] at *; omega)
      (fun a b => by simp only [Bool.or_eq_true, decide_eq_true_eq]; omega) (depths p)
  obtain ⟨events, q, m, hq, hs, hsteps, hrun⟩ := (h.splitting hperm).splitAll_ok
    (hsorted.imp fun hab => by simpa using hab) ((hperm.map _).nodup_iff.mpr h.nodup_depths)
    (Nat.le_refl _)
  refine ⟨events.flatten, q, m, ?_, hs, hsteps, hrun⟩
  exact bind_eq_ok.mpr ⟨_, p, h.unifiedDepths_eq,
    bind_eq_ok.mpr ⟨events, q, hq, rfl⟩⟩

end Undivided

/-- All loops are split, in steps, and the nest runs as before. -/
theorem Unsplit.splitLoops_ok (h : p.Unsplit n) :
    ∃ events q m, Edit.splitLoops p = .ok events q ∧ q.Splitting m [] ∧
      Relation.ReflTransGen SplitStep p q ∧
      m.run q.course (q.ancestor p.exprs.size) = n.run p.course (p.ancestor p.exprs.size) := by
  obtain ⟨events, q, m, hq, hs, hsteps, hrun⟩ := h.undivided.splitLoops_ok
  refine ⟨events, q, m, hq, hs, hsteps, hrun fun id place hid => ?_⟩
  obtain ⟨x, hx, rfl⟩ := h.marked id (LoopTable.mem_ids_iff.mpr ⟨_, hid⟩)
  obtain ⟨place', hplace, hsplit⟩ := h.whole x hx
  rw [hid] at hplace
  cases hplace
  exact hsplit.work

/-- When all loops have been split, every begin marker is the one of a part. -/
theorem Splitting.split_all (s : p.Splitting n []) (hx : x ∈ p.order) (hr : (p.expr x).role = .loopBegin) :
    ∃ l, p.loops.binding? (p.expr x).loop = some (.expanded l) := by
  rw [← s.nested.flatten] at hx
  obtain ⟨y, hy, _, hyx⟩ := s.nested.fits.exists_begin hx (by rw [hr]; rfl)
  rw [hyx hr] at hy
  obtain ⟨z, hz⟩ := s.bound x hy
  cases z with
  | expanded l => exact ⟨l, hz⟩
  | unified place => cases s.unsplit x hy place hz

/-- Splitting the loops of a marked program succeeds and leaves only parts of loops. The program
records what it recorded, with each copy standing for the expression that it is a copy of, and its
data pointers end at the same places. -/
theorem splitLoops_preserves_run {p : Program} {n : Nest} (h : p.Unsplit n) :
    ∃ events q, Edit.splitLoops p = .ok events q ∧
      (∀ x ∈ q.order, (q.expr x).role = .loopBegin →
        ∃ l, q.loops.binding? (q.expr x).loop = some (.expanded l)) ∧
      ∀ d, ∃ outcome, p.run (fun x => x) d = some outcome ∧
        q.run (q.ancestor p.exprs.size) d = some outcome := by
  obtain ⟨events, q, m, hq, hs, _, hrun⟩ := h.splitLoops_ok
  refine ⟨events, q, hq, fun x hx hr => hs.split_all hx hr, fun d => ?_⟩
  have hself : n.run p.course (p.ancestor p.exprs.size) = n.run p.course fun x => x := by
    refine Nest.run_congr (fun _ _ => rfl) fun x hx => p.ancestor_of_lt ?_
    exact h.tidy.valid x (h.nested.flatten ▸ hx)
  refine ⟨n.run p.course (fun x => x) d, ?_, ?_⟩
  · rw [run, h.nested.nest?_eq]
    rfl
  · rw [run, hs.nested.nest?_eq, ← hself, ← hrun]
    rfl

end Program

/-- Copy a square of elements, four at once in both directions. -/
def gridCopy : Subgraph where
  name := "grid"
  ops := [
    { name := "source", kind := "Parameter", shape := some [5, 5] },
    { name := "load", kind := "Load", inputs := ["source"] },
    { name := "store", kind := "Store", inputs := ["load"] },
    { name := "target", kind := "Result", inputs := ["store"] }]
  loops := [
    { first := "load", last := "store", work := 5, increment := 4, dim := 0
      entries := [{ port := "load.in0" }], exits := [{ port := "store.out0" }] },
    { first := "load", last := "store", work := 5, increment := 4, dim := 1
      entries := [{ port := "load.in0" }], exits := [{ port := "store.out0" }] }]

/-- The marked copy of a square, with a handler for the first steps of the inner loop. -/
def watchedGrid : Program :=
  let p := gridCopy.lowered { noIterations := true }
  { p with loops := p.loops.modifyUnified 1 fun l => { l with handlers := { first := [{ tag := "first" }] } } }

/-- The loads and stores of the square are executed as before the split. -/
theorem splitLoops_preserves_run_watchedGrid : ∃ events q,
    Edit.splitLoops watchedGrid = .ok events q ∧
      (∀ x ∈ q.order, (q.expr x).role = .loopBegin →
        ∃ l, q.loops.binding? (q.expr x).loop = some (.expanded l)) ∧
      ∀ d, ∃ outcome, watchedGrid.run (fun x => x) d = some outcome ∧
        q.run (q.ancestor watchedGrid.exprs.size) d = some outcome := by
  refine Program.splitLoops_preserves_run (n := .expr 0 (.loop 6 7
    (.loop 4 5 (.expr 1 (.expr 2 .nil)) .nil) (.expr 3 .nil)))
    ⟨⟨?_, ?_, ?_, ?_⟩, ⟨?_, ?_⟩, ⟨?_, ?_, ?_⟩, ?_, ?_⟩
  case refine_11 =>
    intro x hx
    have hx : x = 6 ∨ x = 4 := by simpa [Nest.begins] using hx
    rcases hx with rfl | rfl
    · exact ⟨0, by decide +kernel, by decide +kernel⟩
    · exact ⟨1, by decide +kernel, by decide +kernel⟩
  all_goals decide +kernel

end TensorKernel
