import Mathlib.Logic.Relation
import TensorKernel.Proofs.Loop.Splitting

/-!
# Splitting keeps what is executed

While loops are split, the program stays well nested, and the loops that wait to be split are unified
and everything that is split is not. One part more, or a loop that becomes its own last part, is one
step. Behind all steps every loop is split, and the run of the program is what it was.
-/

namespace TensorKernel

open Outcome

variable {x : ExprId} {p q : Program} {l : UnifiedLoop} {v : Variant}

/-- A unified loop that can be split without further effects. -/
structure UnifiedLoop.Splittable (l : UnifiedLoop) : Prop where
  /-- There is no negative work. -/
  work : 0 ≤ l.work
  /-- The step is positive. -/
  increment : 0 < l.increment
  /-- No handler changes anything. -/
  passive : ∀ iteration, ∀ h ∈ l.handlers.get iteration, h.Passive

theorem UnifiedLoop.splittable_iff :
    l.Splittable ↔ 0 ≤ l.work ∧ 0 < l.increment ∧
      ∀ h ∈ l.handlers.first ++ l.handlers.main ++ l.handlers.last, h.Passive := by
  refine ⟨fun h => ⟨h.work, h.increment, fun x hx => ?_⟩, fun h => ⟨h.1, h.2.1, fun i x hx => ?_⟩⟩
  · simp only [List.mem_append] at hx
    rcases hx with (hx | hx) | hx
    · exact h.passive .first x hx
    · exact h.passive .main x hx
    · exact h.passive .last x hx
  · refine h.2.2 x ?_
    cases i <;> simp_all [Handlers.get]

instance (l : UnifiedLoop) : Decidable l.Splittable := decidable_of_iff' _ l.splittable_iff

/-- A unified loop that can be divided into parts, whatever its work. -/
structure UnifiedLoop.Divisible (l : UnifiedLoop) : Prop where
  /-- The step is positive. -/
  increment : 0 < l.increment
  /-- No handler changes anything. -/
  passive : ∀ iteration, ∀ h ∈ l.handlers.get iteration, h.Passive

theorem UnifiedLoop.Splittable.divisible (h : l.Splittable) : l.Divisible :=
  ⟨h.increment, h.passive⟩

namespace Program

/-- A program in which a loop has become a part. -/
def bindPart (p : Program) (id : LoopId) (l : ExpandedLoop) : Program :=
  { p with loops := p.loops.rebind id (.expanded l) }

@[simp] theorem expr_bindPart (p : Program) (id : LoopId) (l : ExpandedLoop) (x : ExprId) :
    (p.bindPart id l).expr x = p.expr x := rfl

theorem binding?_bindPart (p : Program) (id : LoopId) (l : ExpandedLoop) (j : LoopId) :
    (p.bindPart id l).loops.binding? j =
      if j = id then (p.loops.binding? id).map fun _ => .expanded l else p.loops.binding? j :=
  p.loops.binding?_rebind id (.expanded l) j

/-- A program in which the loops in `pending` wait to be split, each given with its depth. -/
structure Splitting (p : Program) (n : Nest) (pending : List (LoopId × Nat)) : Prop where
  /-- The program is tidy. -/
  tidy : p.Tidy
  /-- Its loops are. -/
  table : p.loops.Tidy
  /-- Its markers are well nested. -/
  nested : p.WellNested n
  /-- Every loop is registered. -/
  bound : ∀ x ∈ n.begins, ∃ y, p.loops.binding? (p.expr x).loop = some y
  /-- Every registered loop has its markers. -/
  marked : ∀ id ∈ p.loops.ids, ∃ x ∈ n.begins, (p.expr x).loop = id
  /-- A loop that is not split waits. -/
  unsplit : ∀ x ∈ n.begins, ∀ place, p.loops.binding? (p.expr x).loop = some (.unified place) →
    ((p.expr x).loop, (p.expr x).loops.length) ∈ pending
  /-- A loop that waits can be split. -/
  ready : ∀ l ∈ pending, ∃ x ∈ n.begins, l = ((p.expr x).loop, (p.expr x).loops.length) ∧
    ∃ place, p.loops.binding? (p.expr x).loop = some (.unified place) ∧
      (p.loops.unifiedAt place).Divisible

namespace Splitting

variable {n : Nest} {pending : List (LoopId × Nat)}

/-- Loops have one begin marker. -/
theorem eq_of_loop_eq (s : p.Splitting n pending) {y : ExprId} (hx : x ∈ n.begins) (hy : y ∈ n.begins)
    (h : (p.expr x).loop = (p.expr y).loop) : x = y :=
  List.inj_on_of_nodup_map s.nested.nodup_begins hx hy h

variable {c : List Frame} {b e : ExprId} {body rest : Nest}

/-- The expressions between the markers of a loop are different. -/
theorem nodup_inside (s : p.Splitting ((Nest.loop b e body rest).plug c) pending) :
    (Nest.loop b e body .nil).flatten.Nodup :=
  s.nested.nodup_inside s.tidy

/-- If no loop that waits is deeper than this one, the loops in it have been split. -/
theorem expanded (s : p.Splitting ((Nest.loop b e body rest).plug c) pending)
    (hdeep : ∀ l ∈ pending, l.2 ≤ (p.expr b).loops.length) (hx : x ∈ body.begins) :
    ∃ l, p.loops.binding? (p.expr x).loop = some (.expanded l) := by
  have hmem : x ∈ ((Nest.loop b e body rest).plug c).begins := by
    rw [WellNested.begins_plug]
    simp [hx]
  have hfits := (Context.fits_plug.mp s.nested.fits).1
  have hlen := (hfits.2.2.1.prefix_loops (Nest.begins_subset_flatten hx)).length_le
  rw [List.length_append, List.length_singleton, ← hfits.1.2] at hlen
  obtain ⟨y, hy⟩ := s.bound x hmem
  cases y with
  | expanded l => exact ⟨l, hy⟩
  | unified place =>
    have := hdeep _ (s.unsplit x hmem place hy)
    dsimp only at this
    omega

/-- The expressions of a nest have numbers. -/
theorem lt_size (s : p.Splitting n pending) {x : Nat} (hx : x ∈ n.flatten) : x < p.exprs.size :=
  s.tidy.valid x (s.nested.flatten ▸ hx)

/-- The other begin markers are not the one of this loop. -/
theorem ne_begin (s : p.Splitting ((Nest.loop b e body rest).plug c) pending)
    (hx : x ∈ Context.leftBegins c ++ Context.rightBegins c ++ (body.begins ++ rest.begins)) : x ≠ b := by
  have hnodup := List.Nodup.of_map _ s.nested.nodup_begins
  rw [WellNested.begins_plug] at hnodup
  simp only [List.nodup_append, List.mem_append, List.mem_cons, List.nodup_cons] at hnodup hx
  rintro rfl
  grind

variable {l : ExpandedLoop} {renumber : List (LoopId × LoopId)}

/-- The loops that were there keep their markers and what they are bound to. -/
theorem old (s : p.Splitting ((Nest.loop b e body rest).plug c) pending)
    (h : p.PartInserted (p.expr b).loop (Context.left c) (Nest.loop b e body .nil).flatten
      (rest.flatten ++ Context.right c) (.expanded l) renumber q)
    (hx : x ∈ ((Nest.loop b e body rest).plug c).begins) :
    (q.expr x).header = (p.expr x).header ∧
      q.loops.binding? (q.expr x).loop = p.loops.binding? (p.expr x).loop := by
  have hhead := h.header_old (s.lt_size (Nest.begins_subset_flatten hx))
  obtain ⟨y, hy⟩ := s.bound x hx
  refine ⟨hhead, ?_⟩
  rw [Expr.loop_of_header hhead, h.loops.old _ (s.table.lt_next hy)]

/-- They run as before. -/
theorem course_old (s : p.Splitting ((Nest.loop b e body rest).plug c) pending)
    (h : p.PartInserted (p.expr b).loop (Context.left c) (Nest.loop b e body .nil).flatten
      (rest.flatten ++ Context.right c) (.expanded l) renumber q)
    (hx : x ∈ ((Nest.loop b e body rest).plug c).begins) : q.course x = p.course x := by
  obtain ⟨hhead, hbinding⟩ := s.old h hx
  rw [Expr.loop_of_header hhead] at hbinding
  rw [course, Expr.loop_of_header hhead, LoopTable.course_congr hbinding h.loops.unified, course]

/-- Putting a part before a loop keeps the loops that wait. -/
theorem insert (s : p.Splitting ((Nest.loop b e body rest).plug c) pending)
    (h : p.PartInserted (p.expr b).loop (Context.left c) (Nest.loop b e body .nil).flatten
      (rest.flatten ++ Context.right c) (.expanded l) renumber q) :
    q.Splitting ((Nest.loop b e body rest).plug (.after (PartInserted.copy p b e body b)
      (PartInserted.copy p b e body e) (body.map (PartInserted.copy p b e body)) :: c)) pending := by
  have hnodup := s.nodup_inside
  have hbegins : ∀ x, x ∈ ((Nest.loop b e body rest).plug (.after (PartInserted.copy p b e body b)
      (PartInserted.copy p b e body e) (body.map (PartInserted.copy p b e body)) :: c)).begins ↔
      (∃ y ∈ b :: body.begins, PartInserted.copy p b e body y = x) ∨
        x ∈ ((Nest.loop b e body rest).plug c).begins := by
    intro x
    rw [(Context.begins_plug_after ..).mem_iff, List.mem_append, Nest.begins_map, ← List.map_cons,
      List.mem_map]
  refine ⟨h.tidy, h.loops.tidy, h.wellNested s.nested s.tidy s.table s.bound, ?_, ?_, ?_, ?_⟩
  · intro x hx
    rcases (hbegins x).mp hx with ⟨y, hy, rfl⟩ | hx
    · obtain ⟨l, hl⟩ := h.binding_copy s.nested hnodup rfl hy
      exact ⟨_, hl⟩
    · rw [(s.old h hx).2]
      exact s.bound x hx
  · intro id hid
    rcases h.loops.ids id hid with hid | rfl | ⟨x, hx, hin, hid⟩
    · obtain ⟨x, hx, hloop⟩ := s.marked id hid
      exact ⟨x, (hbegins x).mpr (.inr hx), (Expr.loop_of_header (s.old h hx).1).trans hloop⟩
    · refine ⟨_, (hbegins _).mpr (.inl ⟨b, List.mem_cons_self .., rfl⟩), ?_⟩
      exact Option.some.inj ((h.loop_copy s.nested hnodup (List.mem_cons_self ..)).symm.trans h.loops.self)
    · have hbegin := List.mem_cons_of_mem b ((s.nested.beginsInner_iff hx).mp hin)
      refine ⟨_, (hbegins _).mpr (.inl ⟨x, hbegin, rfl⟩), ?_⟩
      exact Option.some.inj ((h.loop_copy s.nested hnodup hbegin).symm.trans hid)
  · intro x hx place hplace
    rcases (hbegins x).mp hx with ⟨y, hy, rfl⟩ | hx
    · obtain ⟨l, hl⟩ := h.binding_copy s.nested hnodup rfl hy
      rw [hl] at hplace
      cases hplace
    · obtain ⟨hhead, hbinding⟩ := s.old h hx
      rw [Expr.loop_of_header hhead, Expr.loops_of_header hhead]
      exact s.unsplit x hx place (hbinding ▸ hplace)
  · intro l hl
    obtain ⟨x, hx, hlx, place, hplace, hsplit⟩ := s.ready l hl
    obtain ⟨hhead, hbinding⟩ := s.old h hx
    refine ⟨x, (hbegins x).mpr (.inr hx), ?_, place, hbinding.trans hplace, ?_⟩
    · rw [Expr.loop_of_header hhead, Expr.loops_of_header hhead]
      exact hlx
    · rw [LoopTable.unifiedAt, h.loops.unified]
      exact hsplit

/-- Binding a loop anew does not change the nest. -/
theorem wellNested_bindPart (w : p.WellNested n) (id : LoopId) (l : ExpandedLoop) :
    (p.bindPart id l).WellNested n :=
  w.congr rfl fun _ _ => ⟨rfl, rfl, rfl⟩

/-- The last part of a loop takes its place. -/
theorem rebind {d : Nat} (s : p.Splitting n (((p.expr x).loop, d) :: pending)) (hx : x ∈ n.begins)
    (hnodup : (((p.expr x).loop, d) :: pending).map Prod.fst |>.Nodup) (l : ExpandedLoop) :
    (p.bindPart (p.expr x).loop l).Splitting n pending := by
  have hbinding := p.binding?_bindPart (p.expr x).loop l
  refine ⟨⟨s.tidy.valid, s.tidy.nodup, s.tidy.named, s.tidy.room⟩, s.table.rebind _ _,
    wellNested_bindPart s.nested _ _, ?_, fun id hid => ?_, ?_, ?_⟩
  · intro y hy
    obtain ⟨z, hz⟩ := s.bound y hy
    obtain ⟨z', hz'⟩ := s.bound x hx
    rw [expr_bindPart, hbinding]
    split
    · exact ⟨_, by rw [hz']; rfl⟩
    · exact ⟨z, hz⟩
  · exact s.marked id (p.loops.ids_rebind _ _ ▸ hid)
  · intro y hy place hplace
    rw [expr_bindPart, hbinding] at hplace
    obtain ⟨z, hz⟩ := s.bound x hx
    split at hplace
    · rw [hz] at hplace
      cases hplace
    · rcases List.mem_cons.mp (s.unsplit y hy place hplace) with he | hmem
      · exact absurd (congrArg Prod.fst he) ‹_›
      · exact hmem
  · intro k hk
    obtain ⟨y, hy, hky, place, hplace, hsplit⟩ := s.ready k (List.mem_cons_of_mem _ hk)
    refine ⟨y, hy, hky, place, ?_, hsplit⟩
    rw [expr_bindPart, hbinding, if_neg, hplace]
    intro he
    rw [List.map_cons, List.nodup_cons] at hnodup
    refine hnodup.1 (List.mem_map.mpr ⟨k, hk, ?_⟩)
    rw [hky]
    exact he

end Splitting

/-- One step of splitting loops: another part is put before a loop, or a loop becomes its last part. -/
inductive SplitStep : Program → Program → Prop
  /-- A copy of an unsplit loop, with the loops in it, is put before the loop. -/
  | part {p q : Program} {c : List Frame} {b e : ExprId} {body rest : Nest} {place : Nat} {v : Variant}
      {renumber : List (LoopId × LoopId)} (tidy : p.Tidy) (table : p.loops.Tidy)
      (nested : p.WellNested ((Nest.loop b e body rest).plug c))
      (unsplit : p.loops.binding? (p.expr b).loop = some (.unified place))
      (h : p.PartInserted (p.expr b).loop (Context.left c) (Nest.loop b e body .nil).flatten
        (rest.flatten ++ Context.right c) (.expanded ((p.loops.unifiedAt place).earlierPart place v
          ((Nest.loop b e body .nil).flatten.zipIdx p.exprs.size))) renumber q) : SplitStep p q
  /-- An unsplit loop is bound to its last part. -/
  | bind {p : Program} {id : LoopId} {place : Nat} (v : Variant)
      (unsplit : p.loops.binding? id = some (.unified place)) :
      SplitStep p (p.bindPart id ((p.loops.unifiedAt place).lastPart place v))

/-- Steps take no expression away. -/
theorem size_le_of_steps (h : Relation.ReflTransGen SplitStep p q) : p.exprs.size ≤ q.exprs.size := by
  induction h with
  | refl => exact Nat.le_refl _
  | tail _ step ih =>
    refine Nat.le_trans ih ?_
    cases step with
    | part _ _ _ _ h =>
      rw [h.size]
      exact Nat.le_add_right ..
    | bind => exact Nat.le_refl _

/-- Steps make no unified loop. -/
theorem unified_of_steps (h : Relation.ReflTransGen SplitStep p q) :
    q.loops.unified = p.loops.unified ∧
      ∀ id place, q.loops.binding? id = some (.unified place) →
        p.loops.binding? id = some (.unified place) := by
  induction h with
  | refl => exact ⟨rfl, fun _ _ hid => hid⟩
  | tail _ step ih =>
    obtain ⟨hunified, hids⟩ := ih
    cases step with
    | part _ table _ _ h =>
      refine ⟨h.loops.unified.trans hunified, fun id place hid => hids id place ?_⟩
      rcases h.loops.ids id (LoopTable.mem_ids_iff.mpr ⟨_, hid⟩) with hold | rfl | ⟨x, hx, hin, hl⟩
      · obtain ⟨y, hy⟩ := LoopTable.mem_ids_iff.mp hold
        rw [← hid, h.loops.old id (table.lt_next hy)]
      · rw [h.loops.part] at hid
        cases hid
      · obtain ⟨m, hm, _, l, _, hcopy⟩ := h.loops.inner x hx hin
        rw [hl, Option.some.injEq] at hm
        rw [hm, hcopy] at hid
        cases hid
    | bind v unsplit =>
      refine ⟨hunified, fun id place hid => hids id place ?_⟩
      rw [binding?_bindPart] at hid
      split at hid
      · rw [unsplit] at hid
        cases hid
      · exact hid

/-- Ancestors depend on the expressions only. -/
theorem ancestor_of_expr {size : Nat} (h : ∀ x, q.expr x = p.expr x) : q.ancestor size = p.ancestor size := by
  funext x
  exact ancestor_congr (fun id (_ : id < x + 1) => by rw [h]) (Nat.lt_succ_self x)

namespace Splitting

variable {c : List Frame} {b e : ExprId} {body rest : Nest} {pending : List (LoopId × Nat)} {l : ExpandedLoop}
  {renumber : List (LoopId × LoopId)} {size : Nat}

/-- A part takes over its share of the work. -/
theorem run_insert (s : p.Splitting ((Nest.loop b e body rest).plug c) pending) {whole : UnifiedLoop}
    {origin : Nat} {copies : List (ExprId × ExprId)}
    (h : p.PartInserted (p.expr b).loop (Context.left c) (Nest.loop b e body .nil).flatten
      (rest.flatten ++ Context.right c) (.expanded (whole.earlierPart origin v copies)) renumber q)
    (hsize : size ≤ p.exprs.size) (chunks : List Int) :
    ((Nest.loop b e body rest).plug (.after (PartInserted.copy p b e body b)
      (PartInserted.copy p b e body e) (body.map (PartInserted.copy p b e body)) :: c)).run
        (Function.update q.course b ⟨origin, chunks, whole.ports.map (·.ptrIncrement),
          whole.ports.map (·.finalizationOffset)⟩) (q.ancestor size) =
      ((Nest.loop b e body rest).plug c).run
        (Function.update p.course b ⟨origin, v.chunks ++ chunks, whole.ports.map (·.ptrIncrement),
          whole.ports.map (·.finalizationOffset)⟩) (p.ancestor size) := by
  have hnodup := s.nodup_inside
  have hne : ∀ x ∈ (Nest.loop b e body .nil).flatten, PartInserted.copy p b e body x ≠ b := by
    intro x hx hb
    obtain ⟨k, hk, hbound, _⟩ := h.header_copy hnodup hx
    have hlt := s.lt_size (x := b) (by
      rw [s.nested.flatten, s.nested.order_plug]
      simp [Nest.flatten])
    exact absurd hlt (by rw [← hb, hk]; exact Nat.not_lt.mpr hbound)
  have hbody : ∀ x ∈ body.flatten, x ∈ (Nest.loop b e body .nil).flatten := by
    intro x hx
    simp [Nest.flatten, hx]
  have hpart := (h.course_part s.nested hnodup).trans (LoopTable.course_earlierPart h.loops.part)
  refine Nest.run_plug_after (Function.update_self ..)
    ((Function.update_of_ne (hne b (by simp [Nest.flatten])) ..).trans hpart)
    (Function.update_self ..) ?_ ?_ (fun x hx => h.ancestor_old (s.lt_size hx)) fun x hx =>
      h.ancestor_copy hsize hnodup (hbody x hx)
        (s.tidy.valid x (s.nested.mem_order_of_inside (hbody x hx)))
  · intro x hx
    rw [Function.update_of_ne (s.ne_begin hx), Function.update_of_ne (s.ne_begin hx)]
    refine s.course_old h ?_
    rw [WellNested.begins_plug]
    simp only [List.mem_append, List.mem_cons] at hx ⊢
    tauto
  · intro x hx
    rw [Function.update_of_ne (hne x (hbody x (Nest.begins_subset_flatten hx))),
      Function.update_of_ne (s.ne_begin (by simp [hx])), h.course_copy s.nested hnodup hx]

variable {n : Nest} {whole : UnifiedLoop} {origin : Nat}

/-- The last part takes over what is left of the work. -/
theorem run_bindPart (s : p.Splitting n pending) (hb : b ∈ n.begins) (v : Variant) :
    n.run (p.bindPart (p.expr b).loop (whole.lastPart origin v)).course
        ((p.bindPart (p.expr b).loop (whole.lastPart origin v)).ancestor size) =
      n.run (Function.update p.course b ⟨origin, v.chunks, whole.ports.map (·.ptrIncrement),
        whole.ports.map (·.finalizationOffset)⟩) (p.ancestor size) := by
  have hbinding := p.binding?_bindPart (p.expr b).loop (whole.lastPart origin v)
  obtain ⟨y, hy⟩ := s.bound b hb
  refine Nest.run_congr (fun x hx => ?_) fun _ _ => by rw [ancestor_of_expr (p.expr_bindPart _ _)]
  by_cases hxb : x = b
  · rw [hxb, Function.update_self]
    refine LoopTable.course_lastPart ?_
    rw [expr_bindPart, hbinding, if_pos rfl, hy]
    rfl
  · rw [Function.update_of_ne hxb]
    refine LoopTable.course_congr ?_ rfl
    rw [expr_bindPart, hbinding, if_neg fun he => hxb (s.eq_of_loop_eq hx hb he)]

/-- One part more is put into the program. -/
theorem insertPart_ok (s : p.Splitting ((Nest.loop b e body rest).plug c) pending)
    (hdeep : ∀ l ∈ pending, l.2 ≤ (p.expr b).loops.length) (whole : UnifiedLoop)
    (passive : ∀ h ∈ (p.loops.unifiedAt origin).handlers.get v.iteration, h.Passive) :
    ∃ events renumber q,
      Edit.insertPart (p.expr b).loop origin whole v (Context.left c).length p =
        .ok ((Nest.loop b e body .nil).flatten.length, events) q ∧
      p.PartInserted (p.expr b).loop (Context.left c) (Nest.loop b e body .nil).flatten
        (rest.flatten ++ Context.right c) (.expanded (whole.earlierPart origin v
          ((Nest.loop b e body .nil).flatten.zipIdx p.exprs.size))) renumber q := by
  have hinner : ∀ x ∈ (Nest.loop b e body .nil).flatten, p.BeginsInner (p.expr b).loop x →
      x ∈ body.begins := fun x hx hin => (s.nested.beginsInner_iff hx).mp hin
  have hmem : ∀ x ∈ body.begins, x ∈ ((Nest.loop b e body rest).plug c).begins := by
    intro x hx
    rw [WellNested.begins_plug]
    simp [hx]
  have hdistinct : (Nest.loop b e body .nil).flatten.Pairwise fun x y =>
      p.BeginsInner (p.expr b).loop x → p.BeginsInner (p.expr b).loop y →
      (p.expr x).loop ≠ (p.expr y).loop := by
    refine s.nodup_inside.imp_of_mem fun {x y} hx hy hne hinx hiny he => hne ?_
    exact s.eq_of_loop_eq (hmem x (hinner x hx hinx)) (hmem y (hinner y hy hiny)) he
  have hstop : (Context.left c).length + 1 + body.flatten.length + 1 =
      (Context.left c).length + (Nest.loop b e body .nil).flatten.length := by
    simp only [Nest.flatten, List.length_cons, List.length_append, List.length_nil]
    omega
  obtain ⟨events, renumber, q, hq, h⟩ := Program.insertPart_ok s.tidy s.table whole
    s.nested.order_plug s.nested.loopBounds_plug hstop
    (fun x hx hin => s.expanded hdeep (hinner x hx hin)) hdistinct passive
  exact ⟨events, renumber, q, hq, h⟩

/-- The parts of a loop are put into the program one by one. Together they run like a loop with all
their work. -/
theorem insertParts_ok {vs : List Variant} (hvs : vs ≠ []) (hwhole : p.loops.unifiedAt origin = whole)
    (s : p.Splitting ((Nest.loop b e body rest).plug c)
      (((p.expr b).loop, (p.expr b).loops.length) :: pending))
    (hdeep : ∀ l ∈ pending, l.2 ≤ (p.expr b).loops.length)
    (hnodup : ((((p.expr b).loop, (p.expr b).loops.length) :: pending).map Prod.fst).Nodup)
    (unsplit : p.loops.binding? (p.expr b).loop = some (.unified origin))
    (passive : ∀ iteration, ∀ h ∈ whole.handlers.get iteration, h.Passive)
    (hsize : size ≤ p.exprs.size) :
    ∃ events q m, Edit.insertParts (p.expr b).loop origin whole (Context.left c).length vs p =
        .ok events q ∧ q.Splitting m pending ∧ Relation.ReflTransGen SplitStep p q ∧
      m.run q.course (q.ancestor size) = ((Nest.loop b e body rest).plug c).run
        (Function.update p.course b ⟨origin, vs.flatMap Variant.chunks,
          whole.ports.map (·.ptrIncrement), whole.ports.map (·.finalizationOffset)⟩)
        (p.ancestor size) := by
  induction vs generalizing p c with
  | nil => exact absurd rfl hvs
  | cons v vs ih =>
    have hb : b ∈ ((Nest.loop b e body rest).plug c).begins := by
      rw [WellNested.begins_plug]
      simp
    cases vs with
    | nil =>
      have hs := s.rebind hb hnodup (whole.lastPart origin v)
      have hbound : (p.bindPart (p.expr b).loop (whole.lastPart origin v)).loops.binding?
          (p.expr b).loop = some (.expanded (whole.lastPart origin v)) := by
        rw [binding?_bindPart, if_pos rfl, unsplit]
        rfl
      have hpassive : ∀ h ∈ (p.loops.unifiedAt origin).handlers.get v.iteration, h.Passive :=
        hwhole.symm ▸ passive v.iteration
      obtain ⟨events, hevents⟩ := Edit.runHandlers_ok hs.table hbound hpassive
      refine ⟨events, _, _, ?_, hs, .single (hwhole ▸ .bind v unsplit), ?_⟩
      · refine bind_eq_ok.mpr ⟨_, p, ask_eq_ok.mpr ⟨?_, rfl⟩,
          bind_eq_ok.mpr ⟨⟨⟩, _, modify_eq_ok.mpr rfl, hevents⟩⟩
        rw [LoopTable.replace, unsplit]
        rfl
      · rw [s.run_bindPart hb v, List.flatMap_cons, List.flatMap_nil, List.append_nil]
    | cons v' vs =>
      obtain ⟨events, renumber, q, hq, h⟩ := s.insertPart_ok
        (by simpa using hdeep) whole (hwhole.symm ▸ passive v.iteration)
      have hwhole' : q.loops.unifiedAt origin = whole := by
        rw [← hwhole, LoopTable.unifiedAt, h.loops.unified, LoopTable.unifiedAt]
      have hhead := (s.old h hb).1
      have hs := s.insert h
      have hloop := Expr.loop_of_header hhead
      have hloops := Expr.loops_of_header hhead
      rw [← hloop, ← hloops] at hs hnodup
      obtain ⟨events', q', m, hq', hs', hsteps, hrun⟩ := ih (by simp) hwhole' hs
        (by rw [hloops]; exact hdeep) hnodup ((s.old h hb).2.trans unsplit) (by rw [h.size]; omega)
      refine ⟨events ++ events', q', m, ?_, hs',
        .head (.part (v := v) s.tidy s.table s.nested unsplit (hwhole.symm ▸ h)) hsteps, ?_⟩
      · have hplace : (Context.left c).length + (Nest.loop b e body .nil).flatten.length =
            (Context.left (.after (PartInserted.copy p b e body b) (PartInserted.copy p b e body e)
              (body.map (PartInserted.copy p b e body)) :: c)).length := by
          simp [Context.left, Frame.left, Nest.flatten, Nest.flatten_map]
        rw [← hplace, hloop] at hq'
        exact bind_eq_ok.mpr ⟨_, q, hq, bind_eq_ok.mpr ⟨events', q', hq', rfl⟩⟩
      · rw [hrun, s.run_insert h hsize]
        rfl

end Splitting

end Program

end TensorKernel
