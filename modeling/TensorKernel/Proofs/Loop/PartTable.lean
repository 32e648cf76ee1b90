import TensorKernel.Proofs.Loop.Enclose
import TensorKernel.Proofs.Loop.Pointers

/-!
# The loops of a program while a loop is split

The parts of a loop are bound one after the other: the earlier ones to new ids, the last one to the id
of the loop. Whatever the handlers of the loop ask for, the distances of the pointers at its parts are
those of the loop, and no other id is bound anew. So when all loops have been split, the parts of each
of them are still bound as they were made.
-/

namespace TensorKernel

variable {l : ExpandedLoop} {copies : List (ExprId × ExprId)} {pending : List (LoopId × Nat)}
  {handlers : List Handler} {events : List HandlerEvent} {vs : List Variant} {place : Nat}

namespace LoopTable

/-- The second table has what the first one has, but for what the ids in `changed` are bound to. -/
structure Kept (t u : LoopTable) (changed : List LoopId) : Prop where
  /-- The second table is tidy. -/
  tidy : u.Tidy
  /-- Ids are given out upwards. -/
  next : t.next ≤ u.next
  /-- No unified loop is taken away. -/
  size : t.unified.size ≤ u.unified.size
  /-- The unified loops stay. -/
  unified : ∀ place < t.unified.size, u.unifiedAt place = t.unifiedAt place
  /-- The other ids stay bound as they were. -/
  old : ∀ id : Int, id < t.next → id ∉ changed → u.binding? id = t.binding? id

variable {t u w : LoopTable} {changed : List LoopId}

theorem Tidy.kept (h : t.Tidy) (changed : List LoopId) : t.Kept t changed :=
  ⟨h, Nat.le_refl _, Nat.le_refl _, fun _ _ => rfl, fun _ _ _ => rfl⟩

theorem Kept.trans (h : t.Kept u changed) (h' : u.Kept w changed) : t.Kept w changed where
  tidy := h'.tidy
  next := Nat.le_trans h.next h'.next
  size := Nat.le_trans h.size h'.size
  unified place hplace := by
    rw [h'.unified place (Nat.lt_of_lt_of_le hplace h.size), h.unified place hplace]
  old id hid hchanged := by
    have hnext := h.next
    rw [h'.old id (by omega) hchanged, h.old id hid hchanged]

/-- Ids that are not given out yet need not be named. -/
theorem Kept.of_new {changed' : List LoopId} (h : t.Kept u changed)
    (new : ∀ id : Int, id ∈ changed → id < t.next → id ∈ changed') : t.Kept u changed' where
  tidy := h.tidy
  next := h.next
  size := h.size
  unified := h.unified
  old id hid hchanged := h.old id hid fun hmem => hchanged (new id hmem hid)

theorem Tidy.kept_bindNext (h : t.Tidy) (b : LoopBinding) : t.Kept (t.bindNext b).2 [] where
  tidy := h.bindNext b
  next := Nat.le_succ _
  size := Nat.le_refl _
  unified _ _ := rfl
  old id hid _ := by rw [binding?_bindNext h, if_neg (Int.ne_of_lt hid)]

/-- Copying a loop keeps the table. -/
theorem Tidy.kept_addCopy (h : t.Tidy) (info : LoopInfo) (target : ExprId → ExprId) :
    t.Kept (t.addCopy info target).2 [] := by
  cases info with
  | expanded l => exact h.kept_bindNext _
  | unified l =>
    generalize hl : ({ l with toLoopFrame := l.toLoopFrame.retarget target } : UnifiedLoop) = l'
    have hcopy : t.addCopy (.unified l) target = t.addUnified l' := by rw [← hl]; rfl
    rw [hcopy]
    refine ⟨Tidy.bindNext (t := { t with unified := t.unified.push l' }) ⟨h.nodup, h.below⟩ _,
      Nat.le_succ _, ?_, fun place hplace => ?_, fun id hid _ => ?_⟩
    · show t.unified.size ≤ (t.unified.push l').size
      rw [Array.size_push]
      exact Nat.le_succ _
    · rw [unifiedAt_addUnified, if_neg (Nat.ne_of_lt hplace)]
    · rw [binding?_addUnified h, if_neg (Int.ne_of_lt hid)]

theorem Tidy.kept_rebind (h : t.Tidy) (id : LoopId) (b : LoopBinding) :
    t.Kept (t.rebind id b) [id] where
  tidy := h.rebind id b
  next := Nat.le_refl _
  size := Nat.le_refl _
  unified _ _ := rfl
  old j _ hj := by
    rw [List.mem_singleton] at hj
    rw [binding?_rebind, if_neg hj]

/-- A place at which there is a loop with a step. -/
theorem lt_size_of_increment (h : 0 < (t.unifiedAt place).increment) : place < t.unified.size := by
  refine Nat.lt_of_not_le fun hle => ?_
  rw [unifiedAt, Array.getD_eq_getD_getElem?, Array.getElem?_eq_none hle] at h
  exact absurd h (by decide)

end LoopTable

namespace Program

theorem loops_uniqueName (p : Program) (base : Label) : (p.uniqueName base).2.loops = p.loops := by
  unfold uniqueName
  split
  · rfl
  · rfl

theorem Rewired.loops {p q : Program} (h : p.Rewired q) : q.loops = p.loops := by rw [h.rest]

theorem loops_make (p : Program) (e : Expr) : (p.make e).2.loops = p.loops :=
  (p.rewired_make e).loops

theorem loops_copyNext (inside : List ExprId) (state : List (ExprId × ExprId) × Program)
    (id : ExprId) : (copyNext inside state id).2.loops = state.2.loops := by
  obtain ⟨copies, p⟩ := state
  have hname := p.loops_uniqueName (p.expr id).name
  exact (rewired_joinUsedOutside _ inside id _).loops.trans ((loops_make _ _).trans hname)

/-- Copying expressions does not touch the loops. -/
theorem loops_copyAll (p : Program) (inside : List ExprId) : (p.copyAll inside).2.loops = p.loops := by
  have hfold : ∀ (l : List ExprId) (state : List (ExprId × ExprId) × Program),
      (l.foldl (copyNext inside) state).2.loops = state.2.loops := by
    intro l
    induction l with
    | nil => exact fun _ => rfl
    | cons id l ih => exact fun state => (ih _).trans (loops_copyNext inside state id)
  exact hfold inside ([], p)

variable {p q : Program}

theorem loops_copyRange {begin stop : Int} (h : Edit.copyRange begin stop p = .ok copies q) :
    q.loops = p.loops := by
  obtain ⟨inside, _, hcopied⟩ := copyRange_eq_ok h
  rw [← loops_copyAll p inside, hcopied]

theorem loops_insertAt {position : Int} {ids : List ExprId}
    (h : Edit.insertAt position ids p = .ok () q) : q.loops = p.loops := by
  rw [(insertAt_eq_ok h).2]
  rfl

theorem loops_add {name : Label} {op : Op} {id : ExprId} (h : Edit.add name op [] p = .ok id q) :
    q.loops = p.loops := by
  rw [(add_eq_ok h).2]
  exact loops_make _ _

theorem loops_foldl_modifyExpr {α : Type} (l : List α) (id : α → ExprId) (f : Expr → Expr)
    (p : Program) : (l.foldl (fun p a => p.modifyExpr (id a) f) p).loops = p.loops := by
  induction l generalizing p with
  | nil => rfl
  | cons a l ih => exact ih _

end Program

/-- What handlers make of a part, one after the other. -/
def Handler.adjustAll (handlers : List Handler) (l : ExpandedLoop) : ExpandedLoop :=
  handlers.foldl (fun l h => h.adjust l) l

namespace Handler

/-- Handlers change the work and the step of a part at most. -/
theorem adjustAll_eq (handlers : List Handler) (l : ExpandedLoop) :
    ∃ work increment, adjustAll handlers l = { l with work := work, increment := increment } := by
  unfold adjustAll
  induction handlers generalizing l with
  | nil => exact ⟨l.work, l.increment, rfl⟩
  | cons h handlers ih =>
    obtain ⟨work, increment, hl⟩ := ih (h.adjust l)
    exact ⟨work, increment, hl⟩

/-- Handlers that set neither leave the part as it is. -/
theorem adjustAll_of_none (h : ∀ x ∈ handlers, x.setWork = none ∧ x.setIncrement = none) (l : ExpandedLoop) :
    adjustAll handlers l = l := by
  unfold adjustAll
  induction handlers with
  | nil => rfl
  | cons x handlers ih =>
    obtain ⟨hwork, hincrement⟩ := h x List.mem_cons_self
    have hx : x.adjust l = l := by
      rw [adjust, hwork, hincrement]
      rfl
    rw [List.foldl_cons, hx]
    exact ih fun y hy => h y (List.mem_cons_of_mem _ hy)

end Handler

/-- The parts of a loop as they are bound in a table, the last one to the id of the loop. -/
inductive LoopTable.Parted (t : LoopTable) (whole : UnifiedLoop) (place : Nat) (id : LoopId) :
    List LoopId → List Variant → Prop
  /-- The last part takes the pointers back. -/
  | last {v : Variant} (bound : t.binding? id = some (.expanded
      (Handler.adjustAll (whole.handlers.get v.iteration) (whole.lastPart place v)))) :
      Parted t whole place id [id] [v]
  /-- A part before it leaves them where they are. -/
  | earlier {j : LoopId} {v : Variant} {copies : List (ExprId × ExprId)} {ids : List LoopId}
      {vs : List Variant} (bound : t.binding? j = some (.expanded
        (Handler.adjustAll (whole.handlers.get v.iteration) (whole.earlierPart place v copies))))
      (rest : Parted t whole place id ids vs) : Parted t whole place id (j :: ids) (v :: vs)

/-- Parts stay where parts of loops stay bound as they were. -/
theorem LoopTable.Parted.of_old {t u : LoopTable} {whole : UnifiedLoop} {id : LoopId} {ids : List LoopId}
    (h : t.Parted whole place id ids vs)
    (old : ∀ j l, t.binding? j = some (.expanded l) → u.binding? j = some (.expanded l)) :
    u.Parted whole place id ids vs := by
  induction h with
  | last bound => exact .last (old _ _ bound)
  | earlier bound _ ih => exact .earlier (old _ _ bound) ih

namespace Edit

open Outcome

variable {p q : Program} {id : LoopId}

/-- A handler changes what the part is bound to, and no other loop. -/
theorem loops_runHandler {h : Handler} {event : HandlerEvent}
    (bound : p.loops.binding? id = some (.expanded l)) (run : runHandler id h p = .ok event q) :
    q.loops = p.loops.rebind id (.expanded (h.adjust l)) := by
  obtain ⟨l', hl, rfl | ⟨_, _, _, hadd⟩⟩ := runHandler_eq_ok run
  all_goals
    rw [LoopTable.expandedLoop, bound] at hl
    cases hl
  · rfl
  · rw [Program.loops_add hadd]
    exact Program.loops_uniqueName _ _

/-- Handlers make of a part what they ask for, and no other loop changes. -/
theorem mapM_runHandler (table : p.loops.Tidy) (bound : p.loops.binding? id = some (.expanded l))
    (run : handlers.mapM (runHandler id) p = .ok events q) :
    p.loops.Kept q.loops [id] ∧ q.loops.binding? id = some (.expanded (Handler.adjustAll handlers l)) := by
  induction handlers generalizing p l events with
  | nil =>
    rw [List.mapM_nil] at run
    obtain ⟨_, rfl⟩ := pure_eq_ok.mp run
    exact ⟨table.kept _, bound⟩
  | cons h handlers ih =>
    rw [List.mapM_cons] at run
    obtain ⟨event, r, hfirst, run⟩ := bind_eq_ok.mp run
    obtain ⟨rest, s, hrest, run⟩ := bind_eq_ok.mp run
    obtain ⟨_, rfl⟩ := pure_eq_ok.mp run
    have hloops := loops_runHandler bound hfirst
    have hkept : p.loops.Kept r.loops [id] := hloops ▸ table.kept_rebind _ _
    have hbound : r.loops.binding? id = some (.expanded (h.adjust l)) := by
      rw [hloops, LoopTable.binding?_rebind, if_pos rfl, bound]
      rfl
    obtain ⟨hkept', hbound'⟩ := ih hkept.tidy hbound hrest
    exact ⟨hkept.trans hkept', hbound'⟩

/-- The handlers that the unified loop at `origin` has for an iteration are run on a part. -/
theorem runHandlers_eq_ok {origin : Nat} {iteration : Iteration} (table : p.loops.Tidy)
    (bound : p.loops.binding? id = some (.expanded l))
    (run : runHandlers id origin iteration p = .ok events q) :
    p.loops.Kept q.loops [id] ∧ q.loops.binding? id = some (.expanded
      (Handler.adjustAll ((p.loops.unifiedAt origin).handlers.get iteration) l)) := by
  rw [runHandlers, get_bind] at run
  exact mapM_runHandler table bound run

/-- Copying the loops in a loop keeps the loops that there are. -/
theorem kept_copyInnerLoops {renumber renumber' : List (LoopId × LoopId)} (table : p.loops.Tidy)
    (run : copyInnerLoops id copies renumber p = .ok renumber' q) : p.loops.Kept q.loops [] := by
  refine foldlM_keeps (P := fun r => p.loops.Kept r.loops []) (table.kept _) ?_ run
  intro copy _ renumber renumber' r s hr hstep
  rw [copyInnerLoop, get_bind] at hstep
  dsimp only at hstep
  split at hstep
  · obtain ⟨inner, _, hstep⟩ := Program.ask_bind_eq_ok.mp hstep
    obtain ⟨new, v, hadd, hstep⟩ := bind_eq_ok.mp hstep
    obtain ⟨_, rfl⟩ := pure_eq_ok.mp hstep
    rw [← (Program.change_eq_ok.mp hadd).2]
    exact hr.trans (hr.tidy.kept_addCopy _ _)
  · obtain ⟨_, rfl⟩ := pure_eq_ok.mp hstep
    exact hr

variable {origin : Nat} {whole : UnifiedLoop}

/-- An earlier part is bound to a new id. -/
theorem insertPart_eq_ok {v : Variant} {count : Nat} (table : p.loops.Tidy)
    (there : origin < p.loops.unified.size) (found : p.loops.unifiedAt origin = whole)
    (run : insertPart id origin whole v place p = .ok (count, events) q) :
    p.loops.Kept q.loops [] ∧ ∃ copies, q.loops.binding? (p.loops.next : Int) = some (.expanded
      (Handler.adjustAll (whole.handlers.get v.iteration) (whole.earlierPart origin v copies))) := by
  obtain ⟨⟨begin, stop⟩, _, run⟩ := Program.ask_bind_eq_ok.mp run
  obtain ⟨copies, r, hcopy, run⟩ := bind_eq_ok.mp run
  have hr := Program.loops_copyRange hcopy
  obtain ⟨new, s, hbind, run⟩ := bind_eq_ok.mp run
  obtain ⟨renumber, u, hinner, run⟩ := bind_eq_ok.mp run
  obtain ⟨_, x, hmodify, run⟩ := bind_eq_ok.mp run
  obtain ⟨_, y, hinsert, run⟩ := bind_eq_ok.mp run
  obtain ⟨_, z, hhandlers, run⟩ := bind_eq_ok.mp run
  obtain ⟨_, rfl⟩ := pure_eq_ok.mp run
  generalize hpart : whole.earlierPart origin v copies = part at hbind
  have hs : s.loops = (p.loops.bindNext (.expanded part)).2 := by
    rw [← (Program.change_eq_ok.mp hbind).2, ← hr]
  have hnew : (p.loops.next : Int) = new := by
    rw [← (Program.change_eq_ok.mp hbind).1, ← hr]
    rfl
  have hy : y.loops = u.loops := by
    rw [Program.loops_insertAt hinsert, ← modify_eq_ok.mp hmodify]
    exact Program.loops_foldl_modifyExpr copies Prod.snd _ _
  have hbound : s.loops.binding? (p.loops.next : Int) = some (.expanded part) := by
    rw [hs, LoopTable.binding?_bindNext table, if_pos rfl]
  have hbinds : p.loops.Kept s.loops [] := hs ▸ table.kept_bindNext _
  have hinners : s.loops.Kept y.loops [] := hy ▸ kept_copyInnerLoops hbinds.tidy hinner
  have hkept := hbinds.trans hinners
  have hbound' : y.loops.binding? (p.loops.next : Int) = some (.expanded part) := by
    rw [hinners.old _ (hbinds.tidy.lt_next hbound) (by simp), hbound]
  obtain ⟨hadjusts, hadjusted⟩ := runHandlers_eq_ok hkept.tidy hbound' (hnew ▸ hhandlers)
  rw [hkept.unified _ there, found, ← hpart] at hadjusted
  refine ⟨?_, copies, hadjusted⟩
  have hweak : p.loops.Kept z.loops [(p.loops.next : Int)] :=
    (hkept.of_new fun _ h => absurd h (by simp)).trans hadjusts
  refine hweak.of_new fun j hj hlt => ?_
  rw [List.mem_singleton] at hj
  omega

/-- The parts of a loop are bound, the last one to the id of the loop. -/
theorem insertParts_eq_ok (table : p.loops.Tidy) (bound : p.loops.binding? id = some (.unified origin))
    (there : origin < p.loops.unified.size) (found : p.loops.unifiedAt origin = whole) (some_part : vs ≠ [])
    (run : insertParts id origin whole place vs p = .ok events q) :
    p.loops.Kept q.loops [id] ∧ ∃ ids, q.loops.Parted whole origin id ids vs := by
  induction vs generalizing p place events with
  | nil => exact absurd rfl some_part
  | cons v rest ih =>
    cases rest with
    | nil =>
      obtain ⟨loops, hreplace, run⟩ := Program.ask_bind_eq_ok.mp run
      obtain ⟨_, r, hset, run⟩ := bind_eq_ok.mp run
      have hr : r.loops = p.loops.rebind id (.expanded (whole.lastPart origin v)) := by
        rw [LoopTable.replace, bound, Option.isSome_some, if_pos rfl] at hreplace
        cases hreplace
        rw [← modify_eq_ok.mp hset]
      have hkept : p.loops.Kept r.loops [id] := hr ▸ table.kept_rebind _ _
      have hbound : r.loops.binding? id = some (.expanded (whole.lastPart origin v)) := by
        rw [hr, LoopTable.binding?_rebind, if_pos rfl, bound]
        rfl
      obtain ⟨hadjusts, hadjusted⟩ := runHandlers_eq_ok hkept.tidy hbound run
      rw [hkept.unified _ there, found] at hadjusted
      exact ⟨hkept.trans hadjusts, [id], .last hadjusted⟩
    | cons w rest =>
      obtain ⟨⟨count, first⟩, r, hpart, run⟩ := bind_eq_ok.mp run
      obtain ⟨others, s, hrest, run⟩ := bind_eq_ok.mp run
      obtain ⟨_, rfl⟩ := pure_eq_ok.mp run
      obtain ⟨hkept, copies, hnew⟩ := insertPart_eq_ok table there found hpart
      have hid := table.lt_next bound
      obtain ⟨hkept', ids, hparts⟩ := ih hkept.tidy
        (by rw [hkept.old id hid (by simp), bound]) (Nat.lt_of_lt_of_le there hkept.size)
        (by rw [hkept.unified _ there, found]) (by simp) hrest
      have hnew' := hkept'.old _ (hkept.tidy.lt_next hnew) (by rw [List.mem_singleton]; omega)
      exact ⟨(hkept.of_new fun _ h => absurd h (by simp)).trans hkept', _,
        .earlier (hnew'.trans hnew) hparts⟩

/-- The parts that a loop is split into. -/
def partsOf (whole : UnifiedLoop) : List Variant :=
  Variant.parts whole.work whole.increment !whole.handlers.first.isEmpty

/-- A loop that is split was whole, and its parts are bound. -/
theorem splitLoop_eq_ok (table : p.loops.Tidy) (run : splitLoop id p = .ok events q) :
    ∃ place, p.loops.binding? id = some (.unified place) ∧ p.loops.Kept q.loops [id] ∧
      ∃ ids, q.loops.Parted (p.loops.unifiedAt place) place id ids
        (partsOf (p.loops.unifiedAt place)) := by
  obtain ⟨place, hplace, run⟩ := Program.ask_bind_eq_ok.mp run
  rw [get_bind] at run
  obtain ⟨parts, hsplit, run⟩ := Program.ask_bind_eq_ok.mp run
  obtain ⟨⟨begin, _⟩, _, run⟩ := Program.ask_bind_eq_ok.mp run
  have hbound : p.loops.binding? id = some (.unified place) := by
    unfold LoopTable.unifiedPlace at hplace
    split at hplace
    · cases hplace
      assumption
    · cases hplace
    · cases hplace
  unfold Variant.split at hsplit
  split at hsplit
  · cases hsplit
  · rename_i hstep
    cases hsplit
    have hthere := LoopTable.lt_size_of_increment (Int.not_le.mp hstep)
    exact ⟨place, hbound, insertParts_eq_ok table hbound hthere rfl (Variant.parts_ne_nil _ _ _) run⟩

/-- Splitting a loop keeps the parts of other loops. -/
theorem old_of_splitLoop (table : p.loops.Tidy) (run : splitLoop id p = .ok events q) {j : LoopId}
    (bound : p.loops.binding? j = some (.expanded l)) : q.loops.binding? j = some (.expanded l) := by
  obtain ⟨place, hplace, hkept, _⟩ := splitLoop_eq_ok table run
  rw [hkept.old j (table.lt_next bound), bound]
  rintro hmem
  rw [List.mem_singleton.mp hmem, hplace] at bound
  cases bound

/-- While loops are split one after the other, each that waits gets its parts and keeps them. -/
theorem mapM_splitLoop {events : List (List HandlerEvent)} (table : p.loops.Tidy)
    (bound : p.loops.binding? id = some (.unified place)) (there : place < p.loops.unified.size)
    (found : p.loops.unifiedAt place = whole) (waits : id ∈ pending.map Prod.fst)
    (run : pending.mapM (fun l => splitLoop l.1) p = .ok events q) :
    ∃ ids, q.loops.Parted whole place id ids (partsOf whole) := by
  induction pending generalizing p events with
  | nil => cases waits
  | cons l pending ih =>
    rw [List.mapM_cons] at run
    obtain ⟨first, r, hfirst, run⟩ := bind_eq_ok.mp run
    obtain ⟨others, s, hrest, run⟩ := bind_eq_ok.mp run
    obtain ⟨_, rfl⟩ := pure_eq_ok.mp run
    obtain ⟨place', hplace, hkept, ids, hparts⟩ := splitLoop_eq_ok table hfirst
    by_cases hl : l.1 = id
    · rw [hl, bound] at hplace
      cases hplace
      rw [found, hl] at hparts
      refine ⟨ids, hparts.of_old fun j m hj => ?_⟩
      have hlater : s.loops.Tidy ∧ s.loops.binding? j = some (.expanded m) := by
        refine mapM_invariant (P := fun u : Program => u.loops.Tidy ∧
          u.loops.binding? j = some (.expanded m)) ⟨hkept.tidy, hj⟩ ?_ hrest
        rintro a _ _ u v ⟨htidy, hold⟩ hsplit
        obtain ⟨_, _, hnext, _⟩ := splitLoop_eq_ok htidy hsplit
        exact ⟨hnext.tidy, old_of_splitLoop htidy hsplit hold⟩
      exact hlater.2
    · have hne : id ≠ l.1 := fun h => hl h.symm
      rw [List.map_cons, List.mem_cons] at waits
      refine ih hkept.tidy ?_ (Nat.lt_of_lt_of_le there hkept.size) ?_ (waits.resolve_left hne) hrest
      · rw [hkept.old id (table.lt_next bound) (by rwa [List.mem_singleton]), bound]
      · rw [hkept.unified _ there, found]

/-- Every unified loop waits to be split. -/
theorem mem_unifiedDepths (bound : p.loops.binding? id = some (.unified place))
    (run : unifiedDepths p = .ok pending q) : p = q ∧ id ∈ pending.map Prod.fst := by
  rw [unifiedDepths, get_bind] at run
  have hsame : ∀ (l : LoopId × LoopBinding) s b t,
      (do return (l.1, ← ask fun p => p.depth l.1) : Edit (LoopId × Nat)) s = .ok b t →
        s = t ∧ b.1 = l.1 := by
    intro l s b t h
    obtain ⟨depth, _, h⟩ := Program.ask_bind_eq_ok.mp h
    obtain ⟨rfl, rfl⟩ := pure_eq_ok.mp h
    exact ⟨rfl, rfl⟩
  obtain ⟨before, after, hbindings, _⟩ := List.lookup_eq_some_iff.mp bound
  obtain ⟨hpq, _, hsteps⟩ := mapM_eq_ok_of_same (fun l s b t h => (hsame l s b t h).1) run
  obtain ⟨b, hb, hdepth⟩ := hsteps (id, .unified place) (List.mem_filter.mpr ⟨by simp [hbindings], rfl⟩)
  exact ⟨hpq, List.mem_map.mpr ⟨b, hb, (hsame _ _ _ _ hdepth).2⟩⟩

/-- When all loops have been split, each has its parts. -/
theorem splitLoops_eq_ok (table : p.loops.Tidy) (bound : p.loops.binding? id = some (.unified place))
    (step : 0 < (p.loops.unifiedAt place).increment) (run : splitLoops p = .ok events q) :
    ∃ ids, q.loops.Parted (p.loops.unifiedAt place) place id ids (partsOf (p.loops.unifiedAt place)) := by
  obtain ⟨pending, _, hdepths, run⟩ := bind_eq_ok.mp run
  obtain ⟨rfl, hwaits⟩ := mem_unifiedDepths bound hdepths
  obtain ⟨all, r, hsplit, run⟩ := bind_eq_ok.mp run
  obtain ⟨_, rfl⟩ := pure_eq_ok.mp run
  have hperm := sortBy_perm (fun a b : LoopId × Nat => b.2 ≤ a.2) pending
  exact mapM_splitLoop table bound (LoopTable.lt_size_of_increment step) rfl
    ((hperm.map Prod.fst).mem_iff.mpr hwaits) hsplit

end Edit

end TensorKernel
