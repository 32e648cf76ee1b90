import TensorKernel.Loop.Split
import TensorKernel.Proofs.Loop.Context

/-!
# Runs of marked programs

A run of a marked program walks through its nest. A loop runs its body once for each chunk of its
work, moves its data pointers by the chunk after each round, and moves them once more at its exit.
What is observed is the sequence of expressions that are executed, each with the displacements of all
pointers at that moment, and the displacements at the end.

A loop that is cut into parts, of which only the last one takes the pointers back, runs as before.
-/

namespace TensorKernel

variable {id : ExprId} {increment work : Int} {c : List Frame} {size : Nat} {n : Nest} {p : Program}
  {α : Type}

/-- How far the data pointers have moved, by the place of the unified loop and by its port. -/
abbrev Displacements := Nat → Nat → Int64

namespace Displacements

/-- Move the pointers of the loop at a place, each port by its own distance. -/
def move (d : Displacements) (place : Nat) (distances : List Int64) : Displacements :=
  fun q i => if q = place then d q i + distances.getD i 0 else d q i

/-- Pointers that are moved by nothing stay. -/
theorem move_zero (d : Displacements) (place : Nat) (l : List α) : d.move place (l.map fun _ => 0) = d := by
  funext q i
  have hzero : (l.map fun _ => (0 : Int64)).getD i 0 = 0 := by
    rw [List.getD_eq_getElem?_getD, List.getElem?_map]
    cases l[i]? <;> rfl
  rw [move, hzero, Int64.add_zero]
  exact ite_self _

end Displacements

/-- How a loop runs: which pointers it moves, and the chunks of its work, one for each round. -/
structure Course where
  /-- The place of the unified loop. -/
  place : Nat
  /-- The work of the rounds. -/
  chunks : List Int
  /-- Distances per unit of work, by port. -/
  increments : List Int64
  /-- Distances at the exit, by port. -/
  offsets : List Int64

/-- The chunks of some work: whole steps, and the remainder if there is one. -/
def wholeChunks (work increment : Int) : List Int :=
  List.replicate (work / increment).toNat increment ++
    if work % increment = 0 then [] else [work % increment]

/-- The chunks of a part of a loop: whole steps only. -/
def partChunks (work increment : Int) : List Int :=
  List.replicate (work / increment).toNat increment

/-- How the loop with an id runs. -/
def LoopTable.course (t : LoopTable) (id : LoopId) : Course :=
  match t.binding? id with
  | some (.unified place) =>
    let l := t.unifiedAt place
    ⟨place, wholeChunks l.work l.increment, l.ports.map (·.ptrIncrement),
      l.ports.map (·.finalizationOffset)⟩
  | some (.expanded l) =>
    ⟨l.origin, partChunks l.work l.increment, l.ptrIncrements, l.finalizationOffsets⟩
  | none => ⟨0, [], [], []⟩

/-- A piece of a run: what it records and where it leaves the pointers. -/
abbrev Walk := Displacements → List (ExprId × Displacements) × Displacements

namespace Walk

/-- Do nothing. -/
def skip : Walk := fun d => ([], d)

/-- Execute an expression. -/
def record (id : ExprId) : Walk := fun d => ([(id, d)], d)

/-- Move the pointers of a loop. -/
def shift (place : Nat) (distances : List Int64) : Walk := fun d => ([], d.move place distances)

/-- One piece behind the other. -/
def andThen (a b : Walk) : Walk := fun d => ((a d).1 ++ (b (a d).2).1, (b (a d).2).2)

/-- The rounds of a loop, one for each chunk of work. -/
def rounds (body : Walk) (place : Nat) (increments : List Int64) : List Int → Walk
  | [] => skip
  | chunk :: rest =>
    (body.andThen (shift place (increments.map (Int64.ofInt chunk * ·)))).andThen
      (rounds body place increments rest)

/-- A loop: its rounds and its exit. -/
def around (c : Course) (body : Walk) : Walk :=
  (rounds body c.place c.increments c.chunks).andThen (shift c.place c.offsets)

@[simp] theorem andThen_skip (a : Walk) : a.andThen skip = a := by
  funext d
  simp [andThen, skip]

theorem andThen_assoc (a b c : Walk) : (a.andThen b).andThen c = a.andThen (b.andThen c) := by
  funext d
  simp [andThen]

theorem shift_zero (place : Nat) (l : List α) : shift place (l.map fun _ => 0) = skip := by
  funext d
  rw [shift, d.move_zero, skip]

theorem rounds_append (body : Walk) (place : Nat) (increments : List Int64) (xs ys : List Int) :
    rounds body place increments (xs ++ ys) =
      (rounds body place increments xs).andThen (rounds body place increments ys) := by
  induction xs with
  | nil => rfl
  | cons x xs ih => rw [List.cons_append, rounds, ih, rounds, ← andThen_assoc]

/-- A loop falls into an earlier part that does not take the pointers back, and the rest. -/
theorem around_append (place : Nat) (xs ys : List Int) (increments offsets : List Int64) (l : List α)
    (body : Walk) :
    around ⟨place, xs ++ ys, increments, offsets⟩ body =
      (around ⟨place, xs, increments, l.map fun _ => 0⟩ body).andThen
        (around ⟨place, ys, increments, offsets⟩ body) := by
  simp only [around, shift_zero, andThen_skip, rounds_append, andThen_assoc]

end Walk

namespace Nest

/-- The run of a nest, given how its loops run and what is recorded for its expressions. -/
def run (course : ExprId → Course) (label : ExprId → ExprId) : Nest → Walk
  | nil => .skip
  | expr id rest => (Walk.record (label id)).andThen (rest.run course label)
  | loop begin _ body rest =>
    (Walk.around (course begin) (body.run course label)).andThen (rest.run course label)

variable {course course' : ExprId → Course} {label label' : ExprId → ExprId}

theorem run_map (f : ExprId → ExprId) (n : Nest) :
    (n.map f).run course label = n.run (course ∘ f) (label ∘ f) := by
  induction n with
  | nil => rfl
  | expr id rest ih => simp only [map, run, ih, Function.comp_apply]
  | loop begin stop body rest ihb ihr => simp only [map, run, ihb, ihr, Function.comp_apply]

/-- A run depends on the loops and labels of its nest only. -/
theorem run_congr (hc : ∀ b ∈ n.begins, course b = course' b) (hl : ∀ id ∈ n.flatten, label id = label' id) :
    n.run course label = n.run course' label' := by
  induction n with
  | nil => rfl
  | expr id rest ih =>
    rw [run, run, hl id (List.mem_cons_self ..),
      ih hc fun e he => hl e (List.mem_cons_of_mem _ he)]
  | loop begin stop body rest ihb ihr =>
    have hbody := ihb (fun b hb => hc b (by simp [begins, hb]))
      fun e he => hl e (by simp [flatten, he])
    have hrest := ihr (fun b hb => hc b (by simp [begins, hb]))
      fun e he => hl e (by simp [flatten, he])
    rw [run, run, hbody, hrest, hc begin (by simp [begins])]

/-- Nests that run alike may stand for each other at any place. -/
theorem run_plug {n' : Nest} (hn : n.run course label = n'.run course' label')
    (hc : ∀ b ∈ Context.leftBegins c ++ Context.rightBegins c, course b = course' b)
    (hl : ∀ id ∈ Context.left c ++ Context.right c, label id = label' id) :
    (n.plug c).run course label = (n'.plug c).run course' label' := by
  induction c generalizing n n' with
  | nil => exact hn
  | cons f c ih =>
    refine ih ?_ ?_ ?_
    · cases f with
      | expr id =>
        rw [Frame.wrap, Frame.wrap, run, run, hn, hl id (by simp [Context.left, Frame.left])]
      | after begin stop body =>
        have hbody : body.run course label = body.run course' label' :=
          run_congr (fun b hb => hc b (by simp [Context.leftBegins, hb]))
            fun e he => hl e (by simp [Context.left, Frame.left, he])
        rw [Frame.wrap, Frame.wrap, run, run, hn, hbody, hc begin (by simp [Context.leftBegins])]
      | inside begin stop rest =>
        have hrest : rest.run course label = rest.run course' label' :=
          run_congr (fun b hb => hc b (by simp [Context.rightBegins, hb]))
            fun e he => hl e (by simp [Context.right, Frame.right, he])
        rw [Frame.wrap, Frame.wrap, run, run, hn, hrest, hc begin (by simp [Context.leftBegins])]
    · intro b hb
      refine hc b ?_
      rw [List.mem_append] at hb ⊢
      cases f <;> simp only [Context.leftBegins, Context.rightBegins, List.mem_append] <;> tauto
    · intro e he
      refine hl e ?_
      rw [List.mem_append] at he ⊢
      simp only [Context.left, Context.right, List.mem_append]
      tauto

/-- A part before a loop that takes over the first chunks of the work of the loop, on copies of the
body, leaves the run as it is. -/
theorem run_plug_after {b e b' e' : ExprId} {body rest : Nest} {f : ExprId → ExprId} {place : Nat}
    {xs ys : List Int} {increments offsets : List Int64} {ports : List α}
    (hwhole : course b = ⟨place, xs ++ ys, increments, offsets⟩)
    (hpart : course' b' = ⟨place, xs, increments, ports.map fun _ => 0⟩)
    (hlast : course' b = ⟨place, ys, increments, offsets⟩)
    (hc : ∀ x ∈ Context.leftBegins c ++ Context.rightBegins c ++ (body.begins ++ rest.begins),
      course' x = course x) (hcopy : ∀ x ∈ body.begins, course' (f x) = course x)
    (hl : ∀ x ∈ ((loop b e body rest).plug c).flatten, label' x = label x)
    (hlcopy : ∀ x ∈ body.flatten, label' (f x) = label x) :
    ((loop b e body rest).plug (.after b' e' (body.map f) :: c)).run course' label' =
      ((loop b e body rest).plug c).run course label := by
  simp only [List.mem_append] at hc
  simp only [Context.flatten_plug, flatten, List.mem_append, List.mem_cons] at hl
  refine run_plug (c := c) ?_ (fun x hx => hc x (.inl (List.mem_append.mp hx))) fun x hx => hl x ?_
  · have hbody : body.run course' label' = body.run course label :=
      run_congr (fun x hx => hc x (.inr (.inl hx))) fun x hx => hl x (by simp [hx])
    have hrest : rest.run course' label' = rest.run course label :=
      run_congr (fun x hx => hc x (.inr (.inr hx))) fun x hx => hl x (by simp [hx])
    have hcopies : (body.map f).run course' label' = body.run course label := by
      rw [run_map]
      exact run_congr hcopy hlcopy
    rw [Frame.wrap, run, run, run, hcopies, hbody, hrest, hpart, hlast, hwhole,
      Walk.around_append place xs ys increments offsets ports, Walk.andThen_assoc]
  · rcases List.mem_append.mp hx with hx | hx
    · exact .inl (.inl hx)
    · exact .inr hx

/-- One nest behind the other. -/
def append : Nest → Nest → Nest
  | nil, m => m
  | expr id rest, m => expr id (rest.append m)
  | loop begin stop body rest, m => loop begin stop body (rest.append m)

theorem append_nil (n : Nest) : n.append nil = n := by
  induction n with
  | nil => rfl
  | expr id rest ih => rw [append, ih]
  | loop begin stop body rest _ ihr => rw [append, ihr]

end Nest

namespace Program

/-- Read one more expression of a program from behind: what follows on its level, and for each loop
that is open its end marker with what follows the loop. -/
def readNest (p : Program) (id : ExprId) :
    Option (Nest × List (ExprId × Nest)) → Option (Nest × List (ExprId × Nest))
  | none => none
  | some (n, opened) =>
    match (p.expr id).role, opened with
    | .loopEnd, opened => some (.nil, (id, n) :: opened)
    | .loopBegin, (stop, rest) :: opened => some (.loop id stop n rest, opened)
    | .loopBegin, [] => none
    | _, opened => some (.expr id n, opened)

/-- The nest of a program, if its markers are well nested. -/
def nest? (p : Program) : Option Nest :=
  match p.order.foldr p.readNest (some (.nil, [])) with
  | some (n, []) => some n
  | _ => none

theorem foldr_readNest {outer : List LoopId} (h : n.Fits p outer) (m : Nest) (opened : List (ExprId × Nest)) :
    n.flatten.foldr p.readNest (some (m, opened)) = some (n.append m, opened) := by
  induction n generalizing outer m opened with
  | nil => rfl
  | expr id rest ih =>
    obtain ⟨hmarker, _, hrest⟩ := h
    simp only [Nest.flatten, List.foldr_cons, ih hrest, readNest, Nest.append]
    cases hr : (p.expr id).role <;> simp_all [Role.isLoopMarker]
  | loop begin stop body rest ihb ihr =>
    obtain ⟨⟨hbegin, _⟩, ⟨hstop, _⟩, hbody, hrest⟩ := h
    have hopen : p.readNest stop (some (rest.append m, opened)) =
        some (.nil, (stop, rest.append m) :: opened) := by simp [readNest, hstop]
    have hclose : p.readNest begin (some (body, (stop, rest.append m) :: opened)) =
        some (.loop begin stop body (rest.append m), opened) := by simp [readNest, hbegin]
    simp only [Nest.flatten, List.foldr_cons, List.foldr_append, ihr hrest, hopen, ihb hbody,
      Nest.append_nil, hclose, Nest.append]

/-- The nest of a program is found by reading it. -/
theorem WellNested.nest?_eq (h : p.WellNested n) : p.nest? = some n := by
  rw [nest?, ← h.flatten, foldr_readNest h.fits, Nest.append_nil]

/-- How the loop with a begin marker runs. -/
def course (p : Program) (begin : ExprId) : Course := p.loops.course (p.expr begin).loop

/-- The run of a program from given displacements: what is recorded and where the pointers end. -/
def run (p : Program) (label : ExprId → ExprId) (d : Displacements) :
    Option (List (ExprId × Displacements) × Displacements) :=
  p.nest?.map fun n => n.run p.course label d

/-- The expression with a number below `size` that an expression was copied from, directly or through
other copies. A copy has a larger number than what it was copied from. -/
def ancestor (p : Program) (size : Nat) (id : ExprId) : ExprId :=
  if id < size then id
  else
    match (p.expr id).origin with
    | none => id
    | some source => if source < id then p.ancestor size source else id
termination_by id

theorem ancestor_of_lt (p : Program) (h : id < size) : p.ancestor size id = id := by
  rw [ancestor, if_pos h]

theorem ancestor_of_origin {source : ExprId} (hid : ¬ id < size) (ho : (p.expr id).origin = some source)
    (hlt : source < id) : p.ancestor size id = p.ancestor size source := by
  rw [ancestor, if_neg hid, ho]
  exact if_pos hlt

/-- Ancestors depend on the origins of earlier expressions only. -/
theorem ancestor_congr {q : Program} {bound : Nat}
    (h : ∀ id < bound, (q.expr id).origin = (p.expr id).origin) (hid : id < bound) :
    q.ancestor size id = p.ancestor size id := by
  induction id using Nat.strongRecOn with
  | ind id ih =>
    rw [ancestor, ancestor, h id hid]
    split
    · rfl
    · split
      · rfl
      · split
        · exact ih _ ‹_› (Nat.lt_trans ‹_› hid)
        · rfl

end Program

namespace Variant

/-- The work of the rounds of a part. -/
def chunks (v : Variant) : List Int := partChunks v.work v.increment

theorem chunks_body (hs : 0 < increment) (iteration : Iteration) :
    chunks ⟨iteration, wholeSteps work increment, increment⟩ =
      List.replicate (work / increment).toNat increment := by
  rw [chunks, partChunks, wholeSteps, Int.mul_ediv_cancel _ (by omega)]

/-- A part with one step. -/
theorem chunks_step (hw : 0 < work) (iteration : Iteration) : chunks ⟨iteration, work, work⟩ = [work] := by
  rw [chunks, partChunks, Int.ediv_self (by omega : work ≠ 0)]
  rfl

/-- Body and tail do the whole work. -/
theorem flatMap_chunks_bodyAndTail (hw : 0 ≤ work) (hs : 0 < increment) :
    (bodyAndTail work increment).flatMap chunks = wholeChunks work increment := by
  have hdiv := Int.emod_add_mul_ediv work increment
  have hnonneg := Int.emod_nonneg work (by omega : increment ≠ 0)
  have hrest : work - wholeSteps work increment = work % increment := by
    rw [wholeSteps, Int.mul_comm]
    omega
  unfold bodyAndTail wholeChunks
  by_cases hle : increment ≤ work
  · simp only [if_pos hle, hrest, List.flatMap_append, List.flatMap_cons, List.flatMap_nil,
      List.append_nil, chunks_body hs]
    by_cases hzero : work % increment = 0
    · simp [hzero]
    · have hpos : 0 < work % increment := by omega
      simp [hzero, hpos, chunks_step hpos]
  · have hsmall : work % increment = work := Int.emod_eq_of_lt hw (by omega)
    have hnone : work / increment = 0 := Int.ediv_eq_zero_of_lt hw (by omega)
    simp only [if_neg hle, hsmall, hnone, Int.toNat_zero, List.replicate_zero, List.nil_append]
    by_cases hzero : work = 0
    · simp [hzero]
    · have hpos : 0 < work := by omega
      simp [hzero, hpos, chunks_step hpos]

/-- The parts of a loop do the chunks of the whole loop, with or without a first step. -/
theorem flatMap_chunks_parts (hw : 0 ≤ work) (hs : 0 < increment) (withFirst : Bool) :
    (parts work increment withFirst).flatMap chunks = wholeChunks work increment := by
  have hempty : ∀ l : List Variant, l.flatMap chunks = wholeChunks work increment →
      (if l.isEmpty then [⟨.main, 0, increment⟩] else l).flatMap chunks =
        wholeChunks work increment := by
    intro l hl
    cases l with
    | nil => simpa [chunks, partChunks] using hl
    | cons v l => exact hl
  unfold parts
  refine hempty _ ?_
  by_cases hfirst : withFirst = true ∧ increment ≤ work
  · simp only [if_pos hfirst, List.flatMap_append, List.flatMap_cons, List.flatMap_nil,
      List.append_nil, chunks_step hs, flatMap_chunks_bodyAndTail (by omega : 0 ≤ work - increment) hs]
    have hrest : (work - increment) % increment = work % increment := Int.sub_emod_right ..
    have hcount : (work / increment).toNat = ((work - increment) / increment).toNat + 1 := by
      rw [Int.sub_ediv_of_dvd _ (Int.dvd_refl _), Int.ediv_self (by omega)]
      have hone : 1 ≤ work / increment := (Int.le_ediv_iff_mul_le hs).mpr (by omega)
      omega
    rw [wholeChunks, wholeChunks, hrest, hcount, List.replicate_succ, List.cons_append,
      List.cons_append, List.nil_append]
  · simp only [if_neg hfirst, List.nil_append, flatMap_chunks_bodyAndTail hw hs]

end Variant

end TensorKernel
