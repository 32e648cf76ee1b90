import TensorKernel.Proofs.Loop.Parts

/-!
# Splitting the loops of a nest

A part that is put before a loop is a copy of the loop with other expressions and other loops, so the
program stays well nested, and it runs as before if the part takes over some of the work of the loop.
Splitting the innermost loops first, every loop that is copied along has been split already.
-/

namespace TensorKernel.Program

variable {x y : ExprId} {inside left right : List ExprId} {id : LoopId} {size : Nat}

namespace WellNested

variable {p : Program} {c : List Frame} {b e : ExprId} {body rest : Nest}

/-- The list of a program around a loop. -/
theorem order_plug (w : p.WellNested ((Nest.loop b e body rest).plug c)) :
    p.order = Context.left c ++ ((Nest.loop b e body .nil).flatten ++
      (rest.flatten ++ Context.right c)) := by
  rw [← w.flatten, Context.flatten_plug]
  simp [Nest.flatten]

/-- The expressions between the markers of a loop are different. -/
theorem nodup_inside (w : p.WellNested ((Nest.loop b e body rest).plug c)) (tidy : p.Tidy) :
    (Nest.loop b e body .nil).flatten.Nodup := by
  have := tidy.nodup
  rw [w.order_plug, List.nodup_append, List.nodup_append] at this
  exact this.2.1.1

/-- What stands between the markers of a loop is in the program. -/
theorem mem_order_of_inside (w : p.WellNested ((Nest.loop b e body rest).plug c))
    (hx : x ∈ (Nest.loop b e body .nil).flatten) : x ∈ p.order := by
  rw [w.order_plug]
  simp [hx]

/-- The loops of the begin markers are different. -/
theorem nodup_begins {n : Nest} (w : p.WellNested n) :
    (n.begins.map fun x => (p.expr x).loop).Nodup := by
  rw [← n.map_loop_spans p 0]
  exact w.nodup

theorem begins_plug (c : List Frame) (b e : ExprId) (body rest : Nest) :
    ((Nest.loop b e body rest).plug c).begins =
      Context.leftBegins c ++ (b :: body.begins) ++ (rest.begins ++ Context.rightBegins c) := by
  rw [Context.begins_plug]
  simp [Nest.begins]

/-- A loop is nested well by itself. -/
theorem fits_block (w : p.WellNested ((Nest.loop b e body rest).plug c)) :
    (Nest.loop b e body .nil).Fits p (Context.path p c) := by
  obtain ⟨hbegin, hend, hbody, _⟩ := (Context.fits_plug.mp w.fits).1
  exact ⟨hbegin, hend, hbody, trivial⟩

/-- The begin markers in a loop are those of the loop and of the loops in it. -/
theorem mem_begins_of_inside (w : p.WellNested ((Nest.loop b e body rest).plug c))
    (hx : x ∈ (Nest.loop b e body .nil).flatten) (hr : (p.expr x).role = .loopBegin) :
    x ∈ b :: body.begins := by
  obtain ⟨y, hy, _, hyx⟩ := w.fits_block.exists_begin hx (by rw [hr]; rfl)
  rw [hyx hr, Nest.begins, Nest.begins, List.append_nil] at hy
  exact hy

/-- The loops that begin in a loop. -/
theorem beginsInner_iff (w : p.WellNested ((Nest.loop b e body rest).plug c))
    (hx : x ∈ (Nest.loop b e body .nil).flatten) : p.BeginsInner (p.expr b).loop x ↔ x ∈ body.begins := by
  have hfits := (Context.fits_plug.mp w.fits).1
  constructor
  · rintro ⟨hr, hl⟩
    rcases List.mem_cons.mp (w.mem_begins_of_inside hx hr) with rfl | hy
    · exact absurd rfl hl
    · exact hy
  · intro hb
    refine ⟨hfits.2.2.1.role_begin hb, fun hl => ?_⟩
    have hnodup := w.nodup_begins
    rw [begins_plug, List.map_append, List.map_append, List.nodup_append, List.nodup_append,
      List.map_cons, List.nodup_cons] at hnodup
    exact hnodup.1.2.1.1 (List.mem_map.mpr ⟨x, hb, hl⟩)

/-- An expression that lists a loop, or a loop in it, stands between its markers. -/
theorem mem_inside_of_lists (w : p.WellNested ((Nest.loop b e body rest).plug c))
    (hy : y ∈ b :: body.begins) (hx : x ∈ p.order) (hl : (p.expr y).loop ∈ (p.expr x).loops) :
    x ∈ (Nest.loop b e body .nil).flatten := by
  obtain ⟨i, hi⟩ := List.mem_iff_getElem?.mp hx
  rw [w.loops_eq hi] at hl
  obtain ⟨s, hs, hsy⟩ := List.mem_map.mp hl
  obtain ⟨hs, henc⟩ := List.mem_filter.mp hs
  obtain ⟨t, ht, hty⟩ : ∃ t ∈ (Nest.loop b e body .nil).spans p (0 + (Context.left c).length),
      t.loop = (p.expr y).loop := by
    rw [← List.mem_map, Nest.map_loop_spans, Nest.begins, Nest.begins, List.append_nil]
    exact List.mem_map_of_mem hy
  have htw : t ∈ ((Nest.loop b e body rest).plug c).spans p 0 := by
    refine Context.mem_spans_plug ?_
    simp only [Nest.spans, List.append_nil, List.mem_cons, List.mem_append] at ht ⊢
    tauto
  obtain rfl := w.span_unique hs htw (hsy.trans hty.symm)
  obtain ⟨hfirst, _, hlast⟩ := Nest.span_mem ht
  obtain ⟨hlt, hgt⟩ := Span.encloses_iff.mp henc
  rw [w.order_plug, List.getElem?_append_right (by omega), List.getElem?_append_left (by omega)] at hi
  exact List.mem_of_getElem? hi

/-- The markers of a loop are found around its body. -/
theorem loopBounds_plug (w : p.WellNested ((Nest.loop b e body rest).plug c)) :
    p.loopBounds (p.expr b).loop =
      .ok ((Context.left c).length, (Context.left c).length + 1 + body.flatten.length) := by
  have hspan : (⟨(p.expr b).loop, (Context.left c).length,
      (Context.left c).length + 1 + body.flatten.length⟩ : Span) ∈
      ((Nest.loop b e body rest).plug c).spans p 0 :=
    Context.mem_spans_plug (by rw [Nat.zero_add]; exact List.mem_cons_self ..)
  exact w.loopBounds_eq hspan

end WellNested

namespace PartInserted

variable {p q : Program} {c : List Frame} {b e : ExprId} {body rest : Nest} {part : LoopBinding}
  {renumber : List (LoopId × LoopId)}

/-- The earlier expressions keep their headers. -/
theorem header_old (h : p.PartInserted id left inside right part renumber q) {x : Nat}
    (hx : x < p.exprs.size) : (q.expr x).header = (p.expr x).header := by
  rw [h.expr, if_neg (by omega), h.copied.old x hx]

/-- The earlier expressions have the ancestors they had. -/
theorem ancestor_old (h : p.PartInserted id left inside right part renumber q) {x : Nat}
    (hx : x < p.exprs.size) : q.ancestor size x = p.ancestor size x :=
  ancestor_congr (fun _ hid => Expr.origin_of_header (h.header_old hid)) hx

/-- The copy of an expression. -/
def copy (p : Program) (b e : ExprId) (body : Nest) : ExprId → ExprId :=
  copyOf ((Nest.loop b e body .nil).flatten.zipIdx p.exprs.size)

variable (h : p.PartInserted (p.expr b).loop (Context.left c) (Nest.loop b e body .nil).flatten
    (rest.flatten ++ Context.right c) part renumber q)
  (w : p.WellNested ((Nest.loop b e body rest).plug c))

include h

/-- The header of the copy of an expression. -/
theorem header_copy (nodup : (Nest.loop b e body .nil).flatten.Nodup)
    (hx : x ∈ (Nest.loop b e body .nil).flatten) :
    ∃ k : Nat, copy p b e body x = k ∧ p.exprs.size ≤ k ∧ (q.expr k).role = (p.expr x).role ∧
      (q.expr k).origin = some x ∧
      (q.expr k).loops = (p.expr x).loops.map (fun l => (renumber.lookup l).getD l) ∧
      ((p.expr x).role.isLoopMarker = true →
        (q.expr k).loop = (renumber.lookup (p.expr x).loop).getD 0) := by
  obtain ⟨k, hk, hbound, name, _, hhead⟩ := h.copied.header_copyOf nodup hx
  have hexpr : (q.expr k).header = Edit.renumberLoops renumber
      { (p.expr x).header with name, origin := some x, position := none } := by
    rw [h.expr, if_pos hbound, ← hhead]
    rfl
  refine ⟨k, hk, hbound.1, ?_, ?_, ?_, fun hm => ?_⟩
  · rw [← Expr.header_role, hexpr]
    rfl
  · rw [← Expr.header_origin, hexpr]
    rfl
  · rw [← Expr.header_loops, hexpr]
    rfl
  · rw [← Expr.header_loop, hexpr]
    exact if_pos hm

/-- The copies have the ancestors of what they are copies of. -/
theorem ancestor_copy (hsize : size ≤ p.exprs.size) (nodup : (Nest.loop b e body .nil).flatten.Nodup)
    (hx : x ∈ (Nest.loop b e body .nil).flatten) (hlt : x < p.exprs.size) :
    q.ancestor size (copy p b e body x) = p.ancestor size x := by
  obtain ⟨k, hk, hbound, _, horigin, _⟩ := h.header_copy nodup hx
  rw [hk, ancestor_of_origin (Nat.not_lt.mpr (Nat.le_trans hsize hbound)) horigin
    (Nat.lt_of_lt_of_le hlt hbound), h.ancestor_old hlt]

include w

/-- What a loop around the place, or one of its markers, is renumbered to. -/
theorem lookup_path {l : LoopId} (hl : l ∈ Context.path p c) : renumber.lookup l = none := by
  obtain ⟨y, hy, rfl⟩ := Context.mem_path hl
  have hnodup := w.nodup_begins
  rw [WellNested.begins_plug, List.map_append, List.map_append, List.nodup_append,
    List.nodup_append] at hnodup
  have hne : ∀ x ∈ b :: body.begins, (p.expr y).loop ≠ (p.expr x).loop := fun x hx =>
    hnodup.1.2.2 _ (List.mem_map_of_mem hy) _ (List.mem_map_of_mem hx)
  refine h.loops.kept _ (hne b (List.mem_cons_self ..)) fun x hx hin he => ?_
  exact hne x (List.mem_cons_of_mem _ ((w.beginsInner_iff hx).mp hin)) he.symm

/-- The loop of a begin marker in the copied range is renumbered to a new one. -/
theorem lookup_begin (hx : x ∈ b :: body.begins) :
    ∃ m : Nat, renumber.lookup (p.expr x).loop = some (m : Int) ∧ p.loops.next ≤ m := by
  rcases List.mem_cons.mp hx with rfl | hx
  · exact ⟨_, h.loops.self, Nat.le_refl _⟩
  · have hmem : x ∈ (Nest.loop b e body .nil).flatten := by
      simp [Nest.flatten, Nest.begins_subset_flatten hx]
    obtain ⟨m, hm, ⟨hlt, _⟩, _⟩ := h.loops.inner x hmem ((w.beginsInner_iff hmem).mpr hx)
    exact ⟨m, hm, Nat.le_of_lt hlt⟩

/-- Different loops are renumbered to different ones. -/
theorem lookup_inj (hx : x ∈ b :: body.begins) (hy : y ∈ b :: body.begins)
    (he : renumber.lookup (p.expr x).loop = renumber.lookup (p.expr y).loop) :
    (p.expr x).loop = (p.expr y).loop := by
  have hmem : ∀ {x}, x ∈ body.begins → x ∈ (Nest.loop b e body .nil).flatten := fun hx => by
    simp [Nest.flatten, Nest.begins_subset_flatten hx]
  -- The loop itself got an id before the loops in it.
  have hfirst : ∀ {x}, x ∈ body.begins →
      renumber.lookup (p.expr x).loop ≠ renumber.lookup (p.expr b).loop := by
    intro x hx he
    obtain ⟨m, hm, ⟨hlt, _⟩, _⟩ :=
      h.loops.inner x (hmem hx) ((w.beginsInner_iff (hmem hx)).mpr hx)
    rw [hm, h.loops.self, Option.some.injEq] at he
    omega
  rcases List.mem_cons.mp hx with rfl | hx' <;> rcases List.mem_cons.mp hy with rfl | hy'
  · rfl
  · exact absurd he.symm (hfirst hy')
  · exact absurd he (hfirst hx')
  · exact h.loops.apart x (hmem hx') y (hmem hy') ((w.beginsInner_iff (hmem hx')).mpr hx')
      ((w.beginsInner_iff (hmem hy')).mpr hy') he

/-- The loop of a begin marker in the copies. -/
theorem loop_copy (nodup : (Nest.loop b e body .nil).flatten.Nodup) (hx : x ∈ b :: body.begins) :
    renumber.lookup (p.expr x).loop = some (q.expr (copy p b e body x)).loop := by
  have hfits := (Context.fits_plug.mp w.fits).1
  have hmem : x ∈ (Nest.loop b e body .nil).flatten := by
    refine Nest.begins_subset_flatten ?_
    simpa [Nest.begins] using hx
  have hrole : (p.expr x).role = .loopBegin := by
    rcases List.mem_cons.mp hx with rfl | hx
    · exact hfits.1.1
    · exact hfits.2.2.1.role_begin hx
  obtain ⟨k, hk, _, _, _, _, hloop⟩ := h.header_copy nodup hmem
  obtain ⟨m, hm, _⟩ := h.lookup_begin w hx
  rw [hk, hloop (by rw [hrole]; rfl), hm]
  rfl

/-- The nest with the part before its loop. -/
theorem wellNested (tidy : p.Tidy) (table : p.loops.Tidy)
    (bound : ∀ x ∈ ((Nest.loop b e body rest).plug c).begins,
      ∃ y, p.loops.binding? (p.expr x).loop = some y) :
    q.WellNested ((Nest.loop b e body rest).plug (.after (copy p b e body b) (copy p b e body e)
      (body.map (copy p b e body)) :: c)) := by
  have horder := w.order_plug
  have hnodup := w.nodup_inside tidy
  have hold : ∀ x ∈ p.order, (q.expr x).header = (p.expr x).header :=
    fun x hx => h.header_old (tidy.valid x hx)
  obtain ⟨hfits, hctx⟩ := Context.fits_plug.mp w.fits
  -- The nest as it was fits the new program, with the same loops around the place.
  have hfits' : ((Nest.loop b e body rest).plug c).Fits q [] := by
    refine w.fits.congr fun x hx => ?_
    have := hold x (w.flatten ▸ hx)
    exact ⟨Expr.role_of_header this, Expr.loops_of_header this, Expr.loop_of_header this⟩
  obtain ⟨hloop', hctx'⟩ := Context.fits_plug.mp hfits'
  have hpath : Context.path q c = Context.path p c := by
    rw [← hloop'.1.2, ← hfits.1.2]
    exact Expr.loops_of_header (hold b (by simp [horder, Nest.flatten]))
  have hcopy : ((Nest.loop b e body .nil).map (copy p b e body)).Fits q (Context.path q c) := by
    have hmap := w.fits_block.map (q := q) (f := copy p b e body)
      (g := fun l => (renumber.lookup l).getD l) ?_
    · rwa [hpath, ← show (Context.path p c).map (fun l => (renumber.lookup l).getD l) =
        Context.path p c from ?_]
      refine (List.map_congr_left fun l hl => ?_).trans (List.map_id _)
      rw [h.lookup_path w hl]
      rfl
    · intro x hx
      obtain ⟨k, hk, _, hrole, _, hloops, hloop⟩ := h.header_copy hnodup hx
      rw [hk]
      refine ⟨hrole, hloops, fun hm => ?_⟩
      obtain ⟨y, hy, hyl, _⟩ := w.fits_block.exists_begin hx hm
      rw [Nest.begins, Nest.begins, List.append_nil] at hy
      obtain ⟨m, hm', _⟩ := h.lookup_begin w hy
      rw [hyl] at hm'
      rw [hloop hm, hm']
      rfl
  refine ⟨?_, Context.fits_plug.mpr ⟨hloop', hcopy, hctx'⟩, ?_⟩
  · have hcopies : (copy p b e body b :: ((body.map (copy p b e body)).flatten ++
        [copy p b e body e])) =
        List.range' p.exprs.size (Nest.loop b e body .nil).flatten.length := by
      rw [← map_copyOf_zipIdx hnodup, Nest.flatten_map]
      simp [Nest.flatten, copy]
    rw [h.order, Context.flatten_plug, Context.left, Frame.left, hcopies]
    simp [Nest.flatten, Context.right, Frame.right]
  · rw [Nest.map_loop_spans]
    -- The new begin markers come on top of those that were there, with new loops.
    refine ((Context.begins_plug_after ..).map _).nodup_iff.mpr ?_
    rw [Nest.begins_map, ← List.map_cons, List.map_append, List.map_map]
    have hnew : ∀ x ∈ b :: body.begins, ∃ m : Nat,
        (q.expr (copy p b e body x)).loop = (m : Int) ∧ p.loops.next ≤ m := by
      intro x hx
      obtain ⟨m, hm, hle⟩ := h.lookup_begin w hx
      exact ⟨m, Option.some.inj ((h.loop_copy w hnodup hx).symm.trans hm), hle⟩
    have hsame : ∀ x ∈ ((Nest.loop b e body rest).plug c).begins,
        (q.expr x).loop = (p.expr x).loop := fun x hx =>
      Expr.loop_of_header (hold x (w.flatten ▸ Nest.begins_subset_flatten hx))
    rw [List.map_congr_left hsame]
    refine List.nodup_append.mpr ⟨?_, w.nodup_begins, ?_⟩
    · have hold' := w.nodup_begins
      rw [WellNested.begins_plug, List.map_append, List.map_append, List.nodup_append,
        List.nodup_append] at hold'
      refine List.pairwise_map.mpr ((List.pairwise_map.mp hold'.1.2.1).imp_of_mem ?_)
      intro x y hx hy hne he
      refine hne (h.lookup_inj w hx hy ?_)
      rw [h.loop_copy w hnodup hx, h.loop_copy w hnodup hy]
      exact congrArg some he
    · intro l hl l' hl' he
      obtain ⟨x, hx, rfl⟩ := List.mem_map.mp hl
      obtain ⟨y, hy, rfl⟩ := List.mem_map.mp hl'
      obtain ⟨m, hm, hle⟩ := hnew x hx
      obtain ⟨z, hz⟩ := bound y hy
      have hlt := table.lt_next hz
      have : (m : Int) = (p.expr y).loop := hm.symm.trans he
      omega

/-- The loops of the copies are parts. -/
theorem binding_copy (nodup : (Nest.loop b e body .nil).flatten.Nodup) {l : ExpandedLoop}
    (hpart : part = .expanded l) (hx : x ∈ b :: body.begins) :
    ∃ l, q.loops.binding? (q.expr (copy p b e body x)).loop = some (.expanded l) := by
  have hloop := h.loop_copy w nodup hx
  rcases List.mem_cons.mp hx with rfl | hx'
  · rw [h.loops.self, Option.some.injEq] at hloop
    exact ⟨l, by rw [← hloop, h.loops.part, hpart]⟩
  · have hmem : x ∈ (Nest.loop b e body .nil).flatten := by
      simp [Nest.flatten, Nest.begins_subset_flatten hx']
    obtain ⟨m, hm, _, l', _, hl'⟩ := h.loops.inner x hmem ((w.beginsInner_iff hmem).mpr hx')
    rw [hm, Option.some.injEq] at hloop
    exact ⟨_, by rw [← hloop, hl']⟩

/-- The copy of an inner loop runs like it. -/
theorem course_copy (nodup : (Nest.loop b e body .nil).flatten.Nodup) (hx : x ∈ body.begins) :
    q.course (copy p b e body x) = p.course x := by
  have hloop := h.loop_copy w nodup (List.mem_cons_of_mem _ hx)
  have hmem : x ∈ (Nest.loop b e body .nil).flatten := by
    simp [Nest.flatten, Nest.begins_subset_flatten hx]
  obtain ⟨m, hm, _, l, hl, hcopy⟩ := h.loops.inner x hmem ((w.beginsInner_iff hmem).mpr hx)
  rw [hm, Option.some.injEq] at hloop
  rw [course, ← hloop, LoopTable.course_of_retarget hl hcopy, course]

/-- The part runs over its share of the work. -/
theorem course_part (nodup : (Nest.loop b e body .nil).flatten.Nodup) :
    q.course (copy p b e body b) = q.loops.course (p.loops.next : Int) := by
  have hloop := h.loop_copy w nodup (List.mem_cons_self ..)
  rw [h.loops.self, Option.some.injEq] at hloop
  rw [course, ← hloop]

end PartInserted

end TensorKernel.Program
