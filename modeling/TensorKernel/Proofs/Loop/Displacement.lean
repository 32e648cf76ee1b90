import Mathlib.Algebra.Order.Ring.Int
import TensorKernel.Proofs.Loop.Distances
import TensorKernel.Proofs.Loop.PartTable

/-!
# Where the pointers of a split loop are

The parts of a loop, run one after the other, cover the stretches of work that the plain loop covers. At
each stretch the pointer of a port has moved by the offset of the stretch times the distance of the
port, and behind the last part it is back where it started. Distances wrap around at 64 bits.
-/

namespace TensorKernel

variable {increment work : Int} {offsets : List Int64} {ports : LoopFrame} {m : Nat} {v : Variant}

/-- The stretches of work of some rounds, each with its offset and its size. -/
def stretches (start : Int) : List Int → List (Int × Int)
  | [] => []
  | chunk :: rest => (start, chunk) :: stretches (start + chunk) rest

/-- The stretches of a plain loop: at every multiple of the step below the work, a whole step or what is
left of the work. -/
def plainStretches (work increment : Int) : List (Int × Int) :=
  (((List.range work.toNat).map fun k : Nat => k * increment).filter (· < work)).map fun offset =>
    (offset, min increment (work - offset))

theorem stretches_append (start : Int) (xs ys : List Int) :
    stretches start (xs ++ ys) = stretches start xs ++ stretches (start + xs.sum) ys := by
  induction xs generalizing start with
  | nil => simp [stretches]
  | cons x xs ih =>
    rw [List.cons_append, stretches, stretches, ih, List.sum_cons, add_assoc, List.cons_append]

theorem stretches_replicate (n : Nat) (increment : Int) :
    stretches 0 (List.replicate n increment) =
      (List.range n).map fun k : Nat => (k * increment, increment) := by
  induction n with
  | zero => rfl
  | succ n ih =>
    rw [List.replicate_succ', stretches_append, ih, List.range_succ, List.map_append,
      List.sum_replicate]
    simp [stretches]

theorem filter_range_lt {n : Nat} (h : m ≤ n) : (List.range n).filter (fun k => k < m) = List.range m := by
  induction n, h using Nat.le_induction with
  | base => exact List.filter_eq_self.mpr fun k hk => by simpa using hk
  | succ n h ih =>
    rw [List.range_succ, List.filter_append, ih, List.filter_singleton]
    simp [Nat.not_lt.mpr h]

/-- The rounds of some whole steps and a remainder. -/
theorem wholeChunks_eq (n : Nat) {rest : Int} (hrest : 0 ≤ rest) (hsmall : rest < increment) :
    wholeChunks (n * increment + rest) increment =
      List.replicate n increment ++ if rest = 0 then [] else [rest] := by
  have hquot : ((n : Int) * increment + rest) / increment = n := by
    rw [add_comm, Int.add_mul_ediv_right _ _ (by omega), Int.ediv_eq_zero_of_lt hrest hsmall, zero_add]
  have hrem : ((n : Int) * increment + rest) % increment = rest := by
    rw [add_comm, Int.add_mul_emod_self_right, Int.emod_eq_of_lt hrest hsmall]
  rw [wholeChunks, hquot, hrem, Int.toNat_natCast]

/-- Work falls into whole steps and a remainder. -/
theorem exists_steps (hw : 0 ≤ work) (hs : 0 < increment) :
    ∃ (n : Nat) (rest : Int), 0 ≤ rest ∧ rest < increment ∧ work = n * increment + rest := by
  have hquot := Int.ediv_nonneg hw hs.le
  refine ⟨(work / increment).toNat, work % increment, Int.emod_nonneg work hs.ne',
    Int.emod_lt_of_pos work hs, ?_⟩
  rw [Int.toNat_of_nonneg hquot, Int.ediv_mul_add_emod]

/-- The work of all rounds is the whole work. -/
theorem sum_wholeChunks (hw : 0 ≤ work) (hs : 0 < increment) : (wholeChunks work increment).sum = work := by
  obtain ⟨n, rest, hrest, hsmall, rfl⟩ := exists_steps hw hs
  rw [wholeChunks_eq n hrest hsmall, List.sum_append, List.sum_replicate, nsmul_eq_mul]
  split
  · rename_i hzero
    rw [List.sum_nil, hzero]
  · rw [List.sum_singleton]

section
variable {n : Nat} {rest : Int}

/-- A whole step leaves at least its own size of the whole steps. -/
theorem mul_add_le_mul (hs : 0 < increment) {k : Nat} (hk : k < m) :
    (k : Int) * increment + increment ≤ m * increment := by
  have hle : ((k : Int) + 1) * increment ≤ m * increment :=
    Int.mul_le_mul_of_nonneg_right (by omega) hs.le
  rwa [add_mul, one_mul] at hle

/-- The multiples of the step below the work: one for each whole step, and one more if there is a
remainder. -/
theorem mul_lt_iff_lt_rounds (hrest : 0 ≤ rest) (hsmall : rest < increment) (k : Nat) :
    (k : Int) * increment < n * increment + rest ↔ k < n + if rest = 0 then 0 else 1 := by
  have hs : 0 < increment := by omega
  rcases Nat.lt_trichotomy k n with hk | rfl | hk
  · have hle := mul_add_le_mul hs hk
    exact ⟨fun _ => by omega, fun _ => by omega⟩
  · split <;> omega
  · have hle := mul_add_le_mul hs hk
    split <;> omega

theorem filter_multiples (hrest : 0 ≤ rest) (hsmall : rest < increment) :
    (List.range ((n : Int) * increment + rest).toNat).filter
      (fun k : Nat => decide ((k : Int) * increment < n * increment + rest)) =
      List.range (n + if rest = 0 then 0 else 1) := by
  have hcount : (n + if rest = 0 then 0 else 1) ≤ ((n : Int) * increment + rest).toNat := by
    have hle : (n : Int) * 1 ≤ n * increment := Int.mul_le_mul_of_nonneg_left (by omega) (by omega)
    split <;> omega
  rw [← filter_range_lt hcount]
  exact List.filter_congr fun k _ => by simp [mul_lt_iff_lt_rounds hrest hsmall k]

end

/-- The rounds of a whole loop are the stretches of the plain loop. -/
theorem stretches_wholeChunks (hw : 0 ≤ work) (hs : 0 < increment) :
    stretches 0 (wholeChunks work increment) = plainStretches work increment := by
  obtain ⟨n, rest, hrest, hsmall, rfl⟩ := exists_steps hw hs
  have hwhole : ((List.range n).map fun k : Nat => ((k : Int) * increment, increment)) =
      (List.range n).map fun k : Nat =>
        ((k : Int) * increment, min increment ((n : Int) * increment + rest - k * increment)) := by
    refine List.map_congr_left fun k hk => ?_
    have hle := mul_add_le_mul hs (List.mem_range.mp hk)
    rw [min_eq_left (by omega)]
  have hmultiples : (List.range ((n : Int) * increment + rest).toNat).filter
      ((fun offset => decide (offset < (n : Int) * increment + rest)) ∘ fun k : Nat => k * increment) =
      List.range (n + if rest = 0 then 0 else 1) := filter_multiples hrest hsmall
  rw [wholeChunks_eq n hrest hsmall, stretches_append, stretches_replicate, hwhole, plainStretches,
    List.filter_map, List.map_map, hmultiples]
  split
  · rw [stretches, List.append_nil]
    rfl
  · rw [List.range_succ, List.map_append, List.sum_replicate, nsmul_eq_mul, zero_add]
    congr 1
    simp [stretches, hsmall.le]

/-- However the work is divided into parts, they cover the stretches of the plain loop. -/
theorem Variant.stretches_parts (hw : 0 ≤ work) (hs : 0 < increment) (withFirst : Bool) :
    stretches 0 ((parts work increment withFirst).flatMap chunks) = plainStretches work increment := by
  rw [flatMap_chunks_parts hw hs, stretches_wholeChunks hw hs]

namespace Displacements

/-- Moving in two goes. -/
theorem move_mul_move (d : Displacements) (place : Nat) (distances : List Int64) (a b : Int64) :
    (d.move place (distances.map (a * ·))).move place (distances.map (b * ·)) =
      d.move place (distances.map ((a + b) * ·)) := by
  have hget : ∀ (c : Int64) i, (distances.map (c * ·)).getD i 0 = c * distances.getD i 0 := by
    intro c i
    rw [List.getD_eq_getElem?_getD, List.getElem?_map, List.getD_eq_getElem?_getD]
    cases distances[i]? with
    | none => exact (Int64.mul_zero).symm
    | some => rfl
  funext q i
  simp only [move, hget]
  split
  · rw [Int64.add_mul, Int64.add_assoc]
  · rfl

theorem move_zero_mul (d : Displacements) (place : Nat) (distances : List Int64) :
    d.move place (distances.map ((0 : Int64) * ·)) = d := by
  simp only [Int64.zero_mul]
  exact d.move_zero place distances

end Displacements

/-- The rounds of a loop with a single expression in it, from some way into the work on. -/
theorem Walk.rounds_record (x : ExprId) (place : Nat) (distances : List Int64) (d : Displacements)
    (start : Int) (chunks : List Int) :
    rounds (record x) place distances chunks (d.move place (distances.map (Int64.ofInt start * ·))) =
      ((stretches start chunks).map fun stretch =>
        (x, d.move place (distances.map (Int64.ofInt stretch.1 * ·))),
        d.move place (distances.map (Int64.ofInt (start + chunks.sum) * ·))) := by
  induction chunks generalizing start with
  | nil =>
    rw [List.sum_nil, add_zero]
    rfl
  | cons chunk chunks ih =>
    have hstep := d.move_mul_move place distances (Int64.ofInt start) (Int64.ofInt chunk)
    rw [← Int64.ofInt_add] at hstep
    have hrest := ih (start + chunk)
    rw [add_assoc] at hrest
    simp only [rounds, andThen, record, shift, hstep, hrest, stretches, List.map_cons, List.sum_cons]
    rfl

/-- A loop that takes its pointers back over all of its work has each of them, at every stretch, as far
along as the offset of the stretch says, and leaves them where they were. -/
theorem Walk.around_record (x : ExprId) (place : Nat) (distances : List Int) (d : Displacements)
    (chunks : List Int) :
    around ⟨place, chunks, distances.map Int64.ofInt,
        distances.map fun n => -Int64.ofInt n * Int64.ofInt chunks.sum⟩ (record x) d =
      ((stretches 0 chunks).map fun stretch =>
        (x, d.move place (distances.map fun n => Int64.ofInt (stretch.1 * n))), d) := by
  have hoffsets : (distances.map fun n => -Int64.ofInt n * Int64.ofInt chunks.sum) =
      (distances.map Int64.ofInt).map (-Int64.ofInt chunks.sum * ·) := by
    rw [List.map_map]
    refine List.map_congr_left fun n _ => ?_
    rw [Function.comp_apply, Int64.neg_mul, Int64.neg_mul, Int64.mul_comm]
  have hback := d.move_mul_move place (distances.map Int64.ofInt) (Int64.ofInt chunks.sum)
    (-Int64.ofInt chunks.sum)
  rw [Int64.add_right_neg, d.move_zero_mul] at hback
  have hrounds := rounds_record x place (distances.map Int64.ofInt) d 0 chunks
  have hzero : Int64.ofInt 0 = 0 := rfl
  rw [hzero, d.move_zero_mul, zero_add] at hrounds
  rw [around, andThen, hrounds, shift, hoffsets, hback, List.append_nil]
  simp only [List.map_map, Int64.ofInt_mul]
  rfl

namespace LoopTable

/-- The parts with these ids, run one after the other; each does the rounds of its variant. -/
def runParts (t : LoopTable) (body : Walk) : List (LoopId × Variant) → Walk
  | [] => .skip
  | (id, v) :: rest =>
    (Walk.around { t.course id with chunks := v.chunks } body).andThen (t.runParts body rest)

/-- An id is bound to a part of the unified loop at a place: its work and step are those of the variant,
unless a handler sets them. -/
def HasPart (t : LoopTable) (whole : UnifiedLoop) (place : Nat) (id : LoopId) (v : Variant) : Prop :=
  ∃ l, t.binding? id = some (.expanded l) ∧ l.origin = place ∧ l.iteration = v.iteration ∧
    ((∀ h ∈ whole.handlers.get v.iteration, h.setWork = none ∧ h.setIncrement = none) →
      l.work = v.work ∧ l.increment = v.increment)

variable {t : LoopTable} {whole : UnifiedLoop} {place : Nat} {id : LoopId}

theorem hasPart_of_bound
    (bound : t.binding? id = some (.expanded (Handler.adjustAll (whole.handlers.get v.iteration)
      (whole.part place v ports offsets)))) : t.HasPart whole place id v := by
  obtain ⟨work, increment, hl⟩ := Handler.adjustAll_eq (whole.handlers.get v.iteration)
    (whole.part place v ports offsets)
  refine ⟨_, bound, by rw [hl]; rfl, by rw [hl]; rfl, fun hset => ?_⟩
  rw [Handler.adjustAll_of_none hset]
  exact ⟨rfl, rfl⟩

/-- How a part runs, whatever its handlers set. -/
theorem course_of_bound
    (bound : t.binding? id = some (.expanded (Handler.adjustAll (whole.handlers.get v.iteration)
      (whole.part place v ports offsets)))) (chunks : List Int) :
    { t.course id with chunks } = ⟨place, chunks, whole.ports.map (·.ptrIncrement), offsets⟩ := by
  obtain ⟨work, increment, hl⟩ := Handler.adjustAll_eq (whole.handlers.get v.iteration)
    (whole.part place v ports offsets)
  rw [course, bound, hl]
  rfl

namespace Parted

variable {ids : List LoopId} {vs : List Variant}

theorem hasPart (h : t.Parted whole place id ids vs) :
    List.Forall₂ (t.HasPart whole place) ids vs ∧ ids.getLast? = some id := by
  induction h with
  | last bound => exact ⟨.cons (hasPart_of_bound bound) .nil, rfl⟩
  | earlier bound rest ih =>
    obtain ⟨hall, hlast⟩ := ih
    refine ⟨.cons (hasPart_of_bound bound) hall, ?_⟩
    rw [List.getLast?_cons, hlast]
    rfl

/-- The parts of a loop run like a whole loop with all of their rounds. -/
theorem runParts_eq (h : t.Parted whole place id ids vs) (body : Walk) :
    t.runParts body (ids.zip vs) = Walk.around ⟨place, vs.flatMap Variant.chunks,
      whole.ports.map (·.ptrIncrement), whole.ports.map (·.finalizationOffset)⟩ body := by
  induction h with
  | last bound =>
    rw [List.zip_cons_cons, runParts, course_of_bound bound, List.flatMap_cons, List.flatMap_nil,
      List.append_nil]
    exact Walk.andThen_skip _
  | earlier bound rest ih =>
    rw [List.zip_cons_cons, runParts, ih, course_of_bound bound, List.flatMap_cons,
      Walk.around_append place _ _ _ _ whole.ports]

end Parted

end LoopTable

namespace Program

variable {p : Program}

/-- The distances of the ports of a loop that is set up. -/
theorem exists_distances {ports : List LoopPort}
    (h : ∀ port ∈ ports, ∃ distance, p.Pointed work port distance) :
    ∃ distances, List.Forall₂ (p.PortDistance work) (ports.map LoopPort.bare) distances ∧
      ports.map (·.ptrIncrement) = distances.map Int64.ofInt ∧
      ports.map (·.finalizationOffset) =
        distances.map fun n => -Int64.ofInt n * Int64.ofInt work := by
  induction ports with
  | nil => exact ⟨[], .nil, rfl, rfl⟩
  | cons port ports ih =>
    obtain ⟨distance, hport⟩ := h port List.mem_cons_self
    obtain ⟨distances, hright, hincrements, hoffsets⟩ :=
      ih fun port' hport' => h port' (List.mem_cons_of_mem _ hport')
    refine ⟨distance :: distances, .cons hport.right hright, ?_, ?_⟩
    · rw [List.map_cons, List.map_cons, hport.increment, hincrements]
    · rw [List.map_cons, List.map_cons, hport.offset, hoffsets]

/-- Splitting a loop keeps its pointers right. Its work, with or without a first step of its own, falls
into the stretches of the plain loop. When the loops have been set up and all have been split, the parts
of a loop, run in order, have the pointer of each port at every stretch as far along as the offset of
the stretch times the distance of the port, and take it back behind the last part. -/
theorem splitLoops_displacements {p p' r q : Program} {events : List HandlerEvent} {id : LoopId}
    {place : Nat} (init : Edit.initLoops p = .ok () p') (marked : r.loops = p'.loops)
    (split : Edit.splitLoops r = .ok events q) (table : p.loops.Tidy)
    (bound : p.loops.binding? id = some (.unified place))
    (work : 0 ≤ (p.loops.unifiedAt place).work) (step : 0 < (p.loops.unifiedAt place).increment) :
    let whole := p.loops.unifiedAt place
    (∀ withFirst, ∃ vs, Variant.split whole.work whole.increment withFirst = .ok vs ∧
        stretches 0 (vs.flatMap Variant.chunks) = plainStretches whole.work whole.increment) ∧
      ∃ vs ids distances,
        Variant.split whole.work whole.increment (!whole.handlers.first.isEmpty) = .ok vs ∧
        List.Forall₂ (q.loops.HasPart whole place) ids vs ∧ ids.getLast? = some id ∧
        List.Forall₂ (p.PortDistance whole.work) whole.ports distances ∧
        ∀ x d, q.loops.runParts (Walk.record x) (ids.zip vs) d =
          ((plainStretches whole.work whole.increment).map fun stretch =>
            (x, d.move place (distances.map fun n => Int64.ofInt (stretch.1 * n))), d) := by
  intro whole
  have hsplit : ∀ withFirst, Variant.split whole.work whole.increment withFirst =
      .ok (Variant.parts whole.work whole.increment withFirst) :=
    fun _ => if_neg (Int.not_le.mpr step)
  refine ⟨fun withFirst => ⟨_, hsplit withFirst, Variant.stretches_parts work step withFirst⟩, ?_⟩
  have htable := (repointed_initLoops init).2
  obtain ⟨hbare, hpointed⟩ := pointed_initLoops init bound
  obtain ⟨distances, hright, hincrements, hoffsets⟩ := exists_distances hpointed
  rw [hbare, List.forall₂_map_left_iff] at hright
  rw [← marked] at htable hincrements hoffsets
  have hwhole : whole.Repointed (r.loops.unifiedAt place) := htable.unified place
  obtain ⟨ids, hparts⟩ := Edit.splitLoops_eq_ok (htable.tidy table) ((htable.binding? id).trans bound)
    (hwhole.increment ▸ step) split
  rw [Edit.partsOf, hwhole.work, hwhole.increment, hwhole.handlers] at hparts
  obtain ⟨hall, hlast⟩ := hparts.hasPart
  refine ⟨_, ids, distances, hsplit _, hall.imp fun j v hpart => ?_, hlast, hright, fun x d => ?_⟩
  · rwa [LoopTable.HasPart, hwhole.handlers] at hpart
  · generalize (!whole.handlers.first.isEmpty) = withFirst at hparts ⊢
    have hsum : ((Variant.parts whole.work whole.increment withFirst).flatMap Variant.chunks).sum =
        whole.work := by
      rw [Variant.flatMap_chunks_parts work step, sum_wholeChunks work step]
    have hrun := Walk.around_record x place distances d
      ((Variant.parts whole.work whole.increment withFirst).flatMap Variant.chunks)
    rw [hsum, Variant.stretches_parts work step] at hrun
    rw [hparts.runParts_eq, hincrements, hoffsets]
    exact hrun

end Program

/-- Copy rows of three elements, four rows at once. -/
def rowsCopy : Subgraph where
  name := "rows"
  ops := [
    { name := "source", kind := "Parameter", shape := some [10, 3] },
    { name := "load", kind := "Load", inputs := ["source"] },
    { name := "store", kind := "Store", inputs := ["load"] },
    { name := "target", kind := "Result", inputs := ["store"] }]
  loops := [
    { first := "load", last := "store", work := 10, increment := 4, dim := 1
      entries := [{ port := "load.in0" }], exits := [{ port := "store.out0" }] }]

/-- The copy of rows, with a handler for the first step of its loop. -/
def watchedRows : Program :=
  let p := rowsCopy.build.toOption.getD default
  { p with loops := p.loops.modifyUnified 0 fun l =>
      { l with handlers := { first := [{ tag := "first" }] } } }

/-- The ten rows are copied in three parts: a first step, a step, and the two rows that are left. -/
theorem splitLoops_displacements_watchedRows : ∃ p r events q,
    Edit.initLoops watchedRows = .ok () p ∧ Edit.insertAllMarkers p = .ok () r ∧
    Edit.splitLoops r = .ok events q ∧ ∃ ids distances,
      List.Forall₂ (q.loops.HasPart (watchedRows.loops.unifiedAt 0) 0) ids
        [⟨.first, 4, 4⟩, ⟨.main, 4, 4⟩, ⟨.last, 2, 2⟩] ∧
      List.Forall₂ (watchedRows.PortDistance 10) (watchedRows.loops.unifiedAt 0).ports distances ∧
      ∀ x d, q.loops.runParts (Walk.record x)
          (ids.zip [⟨.first, 4, 4⟩, ⟨.main, 4, 4⟩, ⟨.last, 2, 2⟩]) d =
        ([(0, 4), (4, 4), (8, 2)].map fun stretch : Int × Int =>
          (x, d.move 0 (distances.map fun n => Int64.ofInt (stretch.1 * n))), d) := by
  have hpasses : (match Edit.initLoops watchedRows with
      | .error _ _ => false
      | .ok _ p => match Edit.insertAllMarkers p with
        | .error _ _ => false
        | .ok _ r => decide (r.loops = p.loops) && match Edit.splitLoops r with
          | .error _ _ => false
          | .ok _ _ => true) = true := by decide +kernel
  have hloop : watchedRows.loops.Tidy ∧ watchedRows.loops.binding? 0 = some (.unified 0) ∧
      (watchedRows.loops.unifiedAt 0).work = 10 ∧ (watchedRows.loops.unifiedAt 0).increment = 4 ∧
      (watchedRows.loops.unifiedAt 0).handlers.first.isEmpty = false := by
    refine ⟨⟨?_, ?_⟩, ?_⟩
    all_goals decide +kernel
  obtain ⟨table, bound, hwork, hstep, hfirst⟩ := hloop
  split at hpasses
  · cases hpasses
  · rename_i p hinit
    split at hpasses
    · cases hpasses
    · rename_i r hmarkers
      rw [Bool.and_eq_true, decide_eq_true_eq] at hpasses
      obtain ⟨hloops, hsplits⟩ := hpasses
      split at hsplits
      · cases hsplits
      · rename_i events q hsplit
        refine ⟨p, r, events, q, hinit, hmarkers, hsplit, ?_⟩
        obtain ⟨_, vs, ids, distances, hvs, hparts, _, hright, hrun⟩ :=
          Program.splitLoops_displacements hinit hloops hsplit table bound (by rw [hwork]; decide)
            (by rw [hstep]; decide)
        rw [hwork, hstep, hfirst] at hvs
        cases hvs
        rw [hwork] at hright
        rw [hwork, hstep] at hrun
        exact ⟨ids, distances, hparts, hright, hrun⟩

end TensorKernel
