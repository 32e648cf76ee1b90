import TensorKernel.Proofs.Loop.Marking
import TensorKernel.Proofs.Loop.SplitLoops

/-!
# Inserting all markers

One insertion of markers turns the pieces that a loop covers into one piece. Loops are taken innermost
first, so when a loop has its turn, the pieces that it covers are exactly between its first and its
last expression. In the end no loop waits, and the pieces together are the nest of the program.
-/

namespace TensorKernel

variable {left right : List ExprId} {done : List LoopId} {l : ListedLoop} {x y : Nat} {c : Piece}
  {p : Program}

namespace Program

/-- What an expression reads is produced before it. -/
def ReadsEarlier (p : Program) : Prop :=
  ∀ x ∈ p.order, ∀ i ∈ (p.expr x).inputs, [i.source.producer, x].Sublist p.order

/-- No expression is a marker of a loop. -/
def Unmarked (p : Program) : Prop := ∀ x, (p.expr x).role.isLoopMarker = false

/-- Every listed loop is entered at the first expression that it covers and left at the last one. -/
def Snug (p : Program) (ls : List ListedLoop) : Prop :=
  ∀ l ∈ ls, ∀ info, p.loops.loop l.id = .ok info →
    (∃ port ∈ info.frame.entries, port.port.expr = l.first) ∧
      ∃ port ∈ info.frame.exits, port.port.expr = l.last

open Listed Piece

/-- The program while the markers of its loops are inserted: those of the loops in `done` are there, and
the program consists of pieces. -/
structure Marking (p₀ : Program) (ls : List ListedLoop) (done : List LoopId) (cs : List Piece)
    (p : Program) : Prop where
  /-- Nothing is copied or split. -/
  pristine : p.Pristine
  /-- The listed expressions stay. -/
  keeps : p₀.Extends p
  /-- So do their values. -/
  values : ∀ v, p₀.HasValue v → p.HasValue v
  /-- The loops stay. -/
  loops : p.loops = p₀.loops
  /-- The program consists of the pieces. -/
  order : p.order = flat cs
  /-- The pieces cover the listed expressions. -/
  tile : Tile 0 p₀.exprs.size cs
  /-- They begin and end with listed expressions and markers next to them. -/
  edged : ∀ c ∈ cs, p.Edged c.nest.flatten c.first c.last
  /-- Around a piece there are the loops that wait for their markers. -/
  fits : ∀ c ∈ cs, ∀ x, c.first ≤ x → x ≤ c.last → c.nest.Fits p (waiting ls done x)
  /-- The other loops have one pair of markers each. -/
  marked : ((begins cs).map fun b => (p.expr b).loop).Perm done
  /-- Without the markers the listed expressions stand in their order. -/
  erased : p.order.filter (· < p₀.exprs.size) = List.range p₀.exprs.size
  /-- Everything else is a marker. -/
  added : ∀ x ∈ p.order, p₀.exprs.size ≤ x → (p.expr x).role.isLoopMarker = true
  /-- What is read is produced before. -/
  earlier : p.ReadsEarlier

/-- The pieces before a loop, those that it covers, and those behind it. -/
structure Cut (size : Nat) (cs : List Piece) (l : ListedLoop) (before inside behind : List Piece) :
    Prop where
  eq : cs = before ++ inside ++ behind
  before : Tile 0 l.first before
  inside : Tile l.first (l.last + 1) inside
  behind : Tile (l.last + 1) size behind

namespace Marking

variable {p₀ : Program} {ls : List ListedLoop} {cs : List Piece}

/-- The same loops wait all over a piece. -/
theorem waiting_eq (h : p₀.Marking ls done cs p) (hc : c ∈ cs) (hx : c.first ≤ x ∧ x ≤ c.last)
    (hy : c.first ≤ y ∧ y ≤ c.last) : waiting ls done x = waiting ls done y := by
  obtain ⟨z, hz⟩ := (h.edged c hc).exists_head
  rw [← (h.fits c hc x hx.1 hx.2).loops_head hz, (h.fits c hc y hy.1 hy.2).loops_head hz]

/-- A loop that waits covers all of a piece or nothing of it. -/
theorem covers_eq (h : p₀.Marking ls done cs p) (hl : l ∈ ls) (nodup : (ls.map (·.id)).Nodup)
    (hnew : l.id ∉ done) (hc : c ∈ cs) (hx : c.first ≤ x ∧ x ≤ c.last) (hy : c.first ≤ y ∧ y ≤ c.last) :
    l.covers x = true ↔ l.covers y = true := by
  have hmem : ∀ z, l.id ∈ waiting ls done z ↔ l.covers z = true := by
    intro z
    rw [mem_waiting]
    constructor
    · rintro ⟨a, ha, hid, hcovers, _⟩
      rwa [List.inj_on_of_nodup_map nodup hl ha hid.symm]
    · intro hcovers
      exact ⟨l, hl, rfl, hcovers, hnew⟩
  rw [← hmem, ← hmem, h.waiting_eq hc hx hy]

/-- When a loop waits, the pieces fall into those before it, those that it covers and those behind
it. -/
theorem split (h : p₀.Marking ls done cs p) (hin : ∀ l ∈ ls, l.first ≤ l.last ∧ l.last < p₀.exprs.size)
    (nodup : (ls.map (·.id)).Nodup) (hl : l ∈ ls) (hnew : l.id ∉ done) :
    ∃ before inside behind, Cut p₀.exprs.size cs l before inside behind := by
  obtain ⟨hle, hlt⟩ := hin l hl
  have hcut : ∀ c ∈ cs, (c.first < l.first → c.last < l.first) ∧
      (c.first < l.last + 1 → c.last < l.last + 1) := by
    intro c hc
    have hpiece := (h.tile.mem hc).2.1
    constructor
    · intro hfirst
      refine Nat.lt_of_not_le fun hlast => ?_
      have hsame := h.covers_eq hl nodup hnew hc (x := c.first) (y := l.first)
        ⟨Nat.le_refl _, hpiece⟩ ⟨Nat.le_of_lt hfirst, hlast⟩
      simp only [ListedLoop.covers_iff] at hsame
      omega
    · intro hfirst
      refine Nat.lt_of_not_le fun hlast => ?_
      have hsame := h.covers_eq hl nodup hnew hc (x := l.last) (y := c.last)
        ⟨Nat.le_of_lt_succ hfirst, Nat.le_of_succ_le hlast⟩ ⟨hpiece, Nat.le_refl _⟩
      simp only [ListedLoop.covers_iff] at hsame
      omega
  obtain ⟨before, rest, rfl, hbefore, hrest⟩ := h.tile.split l.first (Nat.zero_le _)
    (by omega) fun c hc => (hcut c hc).1
  obtain ⟨inside, behind, rfl, hinside, hbehind⟩ := hrest.split (l.last + 1) (by omega)
    (by omega) fun c hc => (hcut c (List.mem_append_right _ hc)).2
  exact ⟨before, inside, behind, ⟨(List.append_assoc ..).symm, hbefore, hinside, hbehind⟩⟩

/-- Listed expressions stand in the order of their numbers. -/
theorem lt_of_sublist (h : p₀.Marking ls done cs p) (hx : x < p₀.exprs.size) (hy : y < p₀.exprs.size)
    (hxy : [x, y].Sublist p.order) : x < y := by
  have hfilter := hxy.filter (· < p₀.exprs.size)
  rw [h.erased, List.filter_eq_self.mpr (by simp [hx, hy])] at hfilter
  exact List.pairwise_iff_forall_sublist.mp List.pairwise_lt_range hfilter

/-- The listed expressions stand in the program. -/
theorem mem_order (h : p₀.Marking ls done cs p) (hx : x < p₀.exprs.size) : x ∈ p.order := by
  have hmem : x ∈ p.order.filter (· < p₀.exprs.size) := by
    rw [h.erased, List.mem_range]
    exact hx
  exact (List.mem_filter.mp hmem).1

/-- A marker in a piece belongs to a loop that has its markers. -/
theorem loop_mem_done (h : p₀.Marking ls done cs p) {x : ExprId} (hx : x ∈ p.order)
    (hr : (p.expr x).role.isLoopMarker = true) : (p.expr x).loop ∈ done := by
  rw [h.order] at hx
  obtain ⟨c, hc, hx⟩ := List.mem_flatMap.mp hx
  have hfits := h.fits c hc c.first (Nat.le_refl _) (h.tile.mem hc).2.1
  obtain ⟨b, hb, hloop, _⟩ := hfits.exists_begin hx hr
  refine h.marked.mem_iff.mp (List.mem_map.mpr ⟨b, List.mem_flatMap.mpr ⟨c, hc, hb⟩, hloop⟩)

/-- A listed expression from another one on stands at it or behind it. -/
theorem mem_of_le (h : p₀.Marking ls done cs p) (horder : p.order = left ++ x :: right)
    (hy : y < p₀.exprs.size) (hxy : x ≤ y) : y ∈ x :: right := by
  have hmem := h.mem_order hy
  rw [horder, List.mem_append] at hmem
  rcases hmem with hleft | hright
  · have hsub : [y, x].Sublist p.order := by
      rw [horder]
      exact (List.singleton_sublist.mpr hleft).append (List.singleton_sublist.mpr List.mem_cons_self)
    have := h.lt_of_sublist hy (Nat.lt_of_le_of_lt hxy hy) hsub
    omega
  · exact hright

/-- A listed expression up to another one stands before it or at it. -/
theorem mem_of_ge (h : p₀.Marking ls done cs p) (horder : p.order = left ++ x :: right)
    (hx : x < p₀.exprs.size) (hyx : y ≤ x) : y ∈ left ++ [x] := by
  have hy := Nat.lt_of_le_of_lt hyx hx
  have hmem := h.mem_order hy
  rw [horder, List.append_cons, List.mem_append] at hmem
  rcases hmem with hleft | hright
  · exact hleft
  · have hsub : [x, y].Sublist p.order := by
      rw [horder, List.append_cons]
      exact (List.singleton_sublist.mpr (by simp)).append (List.singleton_sublist.mpr hright)
    have := h.lt_of_sublist hx hy hsub
    omega

section Turn

variable (h : p₀.Marking ls done cs p) (listed : p₀.Listed ls) (unmarked : p₀.Unmarked) (hl : l ∈ ls)
  (hnew : l.id ∉ done) {before inside behind : List Piece} (cut : Cut p₀.exprs.size cs l before inside behind)

include h unmarked in
/-- A listed expression is no marker. -/
theorem role_of_lt (hx : x < p₀.exprs.size) : (p.expr x).role.isLoopMarker = false := by
  rw [Expr.role_of_header (h.keeps.header x hx)]
  exact unmarked x

include h hl hnew cut in
/-- A marker in the pieces that the loop covers lies inside the loop. -/
theorem isInnerMarker_inside {x : ExprId} (hx : x ∈ flat inside) {role : Role}
    (hr : (p.expr x).role = role) (hmarker : role.isLoopMarker = true) :
    p.isInnerMarker role l.id x = true := by
  obtain ⟨c, hc, hxc⟩ := List.mem_flatMap.mp hx
  have hmem : c ∈ cs := by simp [cut.eq, hc]
  have hrange := cut.inside.mem hc
  have hfits := h.fits c hmem c.first (Nat.le_refl _) hrange.2.1
  have hlisted : l.id ∈ (p.expr x).loops := by
    refine (hfits.prefix_loops hxc).subset (mem_waiting.mpr ⟨l, hl, rfl, ?_, hnew⟩)
    rw [ListedLoop.covers_iff]
    omega
  have hloop : (p.expr x).loop ≠ l.id := by
    intro he
    refine hnew (he ▸ h.loop_mem_done ?_ (hr ▸ hmarker))
    rw [h.order]
    exact List.mem_flatMap.mpr ⟨c, hmem, hxc⟩
  simp [isInnerMarker, hr, hloop, hlisted]

include h unmarked cut listed hl in
/-- What stands before the pieces is no begin marker. -/
theorem isInnerMarker_before {x : ExprId} (hx : (flat before).getLast? = some x) :
    p.isInnerMarker .loopBegin l.id x = false := by
  have hne : before ≠ [] := by
    rintro rfl
    cases hx
  have hedged := edged_flat cut.before hne fun c hc => h.edged c (by simp [cut.eq, hc])
  have hrole : (p.expr x).role ≠ .loopBegin := by
    rcases hedged.getLast hx with hend | rfl
    · rw [hend]
      decide
    · have hin := listed.inside l hl
      have hplain := h.role_of_lt unmarked (x := l.first - 1) (by omega)
      intro he
      rw [he] at hplain
      cases hplain
  simp [isInnerMarker, hrole]

include h unmarked cut in
/-- What stands behind the pieces is no end marker. -/
theorem isInnerMarker_behind {x : ExprId} (hx : (flat behind).head? = some x) :
    p.isInnerMarker .loopEnd l.id x = false := by
  have hne : behind ≠ [] := by
    rintro rfl
    cases hx
  have hedged := edged_flat cut.behind hne fun c hc => h.edged c (by simp [cut.eq, hc])
  have hrole : (p.expr x).role ≠ .loopEnd := by
    rcases hedged.head hx with hbegin | rfl
    · rw [hbegin]
      decide
    · have hlt : l.last + 1 < p₀.exprs.size := by
        obtain ⟨c, hc⟩ := List.exists_mem_of_ne_nil _ hne
        have := cut.behind.mem hc
        omega
      have hplain := h.role_of_lt unmarked hlt
      intro he
      rw [he] at hplain
      cases hplain
  simp [isInnerMarker, hrole]

include cut in
/-- The loop covers at least one piece. -/
theorem inside_ne_nil (hle : l.first ≤ l.last) : inside ≠ [] := by
  rintro rfl
  have hsame : l.first = l.last + 1 := cut.inside
  omega

include h cut in
/-- The program is what stands before the loop, in it and behind it. -/
theorem order_eq : p.order = flat before ++ flat inside ++ flat behind := by
  rw [h.order, cut.eq, flat_append, flat_append]

include h listed unmarked hl hnew cut in
/-- The markers of a loop go around the pieces that it covers. -/
theorem loopSpan_turn {frame : LoopFrame}
    (hports : ∀ port ∈ frame.ports, l.covers port.port.expr = true)
    (hentry : ∃ port ∈ frame.entries, port.port.expr = l.first)
    (hexit : ∃ port ∈ frame.exits, port.port.expr = l.last) :
    p.loopSpan l.id frame =
      .ok ((flat before).length, (flat before).length + (flat inside).length - 1) := by
  obtain ⟨hle, hlt⟩ := listed.inside l hl
  have horder := h.order_eq cut
  obtain ⟨opening, core, closing, hinside, hopening, hclosing, hhead, hlast⟩ :=
    edged_flat cut.inside (inside_ne_nil cut hle) fun c hc => h.edged c (by simp [cut.eq, hc])
  rw [Nat.add_sub_cancel] at hlast
  have hmem : ∀ x, x ∈ opening ∨ x ∈ closing → x ∈ flat inside := by
    rw [hinside]
    simp only [List.mem_append]
    tauto
  obtain ⟨core', hcore⟩ := List.head?_eq_some_iff.mp hhead
  obtain ⟨init, hinit⟩ := List.getLast?_eq_some_iff.mp hlast
  have hfirst : p.order = (flat before ++ opening) ++ l.first :: (core' ++ closing ++ flat behind) := by
    rw [horder, hinside, hcore]
    simp
  have hstop : p.order = (flat before ++ opening ++ init) ++ l.last :: (closing ++ flat behind) := by
    rw [horder, hinside, hinit]
    simp
  rw [hinside] at horder ⊢
  refine loopSpan_eq h.pristine.tidy.nodup horder hhead hlast
    (fun x hx => h.isInnerMarker_inside hl hnew cut (hmem x (.inl hx)) (hopening x hx) rfl)
    (fun x hx => h.isInnerMarker_inside hl hnew cut (hmem x (.inr hx)) (hclosing x hx) rfl)
    (fun x hx => h.isInnerMarker_before listed unmarked hl cut hx)
    (fun x hx => h.isInnerMarker_behind unmarked cut hx) hentry (fun port hport => ?_) hexit
    fun port hport => ?_
  · have hcovers := ListedLoop.covers_iff.mp (hports port (List.mem_append_left _ hport))
    have := h.mem_of_le hfirst (by omega) hcovers.1
    rw [hcore]
    simpa using this
  · have hcovers := ListedLoop.covers_iff.mp (hports port (List.mem_append_right _ hport))
    have := h.mem_of_ge hstop hlt hcovers.2
    rw [hinit]
    simpa using this

include h cut in
/-- A listed expression up to the last one of the loop stands in the loop or before it. -/
theorem mem_before_or_inside (hlt : l.last < p₀.exprs.size) (hle : l.first ≤ l.last) (hx : x ≤ l.last) :
    x ∈ flat before ++ flat inside := by
  obtain ⟨opening, core, closing, hinside, _, _, _, hlast⟩ :=
    edged_flat cut.inside (inside_ne_nil cut hle) fun c hc => h.edged c (by simp [cut.eq, hc])
  rw [Nat.add_sub_cancel] at hlast
  obtain ⟨init, hinit⟩ := List.getLast?_eq_some_iff.mp hlast
  have hstop : p.order = (flat before ++ opening ++ init) ++ l.last :: (closing ++ flat behind) := by
    rw [h.order_eq cut, hinside, hinit]
    simp
  have hmem := h.mem_of_ge hstop hlt hx
  rw [hinside, hinit]
  simp only [List.mem_append] at hmem ⊢
  tauto

end Turn

end Marking

/-- The value at a port was produced by the expression of the port or before it. -/
theorem producer_le_of_value (h : ∀ x, ∀ i ∈ (p.expr x).inputs, i.source.producer < x) {r : PortRef}
    {v : ValueRef} (hv : p.value r = .ok v) : v.producer ≤ r.expr := by
  obtain ⟨_, ⟨_, _, rfl⟩ | ⟨_, i, hi, rfl⟩⟩ := value_eq_ok.mp hv
  · exact Nat.le_refl _
  · exact Nat.le_of_lt (h _ i (List.mem_of_getElem? hi))

/-- The piece of a loop with its markers. -/
def Marking.loopPiece (l : ListedLoop) (begin stop : ExprId) (inside : List Piece) : Piece :=
  ⟨l.first, l.last, .loop begin stop (concat inside) .nil⟩

namespace Marking

variable {p₀ q : Program} {ls : List ListedLoop} {cs : List Piece} {before inside behind : List Piece}
  {outer : List LoopId} {pointers : List ValueRef}

theorem flatten_loopPiece (l : ListedLoop) (begin stop : ExprId) (inside : List Piece) :
    (loopPiece l begin stop inside).nest.flatten = begin :: (flat inside ++ [stop]) := by
  rw [loopPiece, Nest.flatten, flatten_concat, Nest.flatten]

section Bracket

variable (h : p₀.Marking ls done cs p) (cut : Cut p₀.exprs.size cs l before inside behind)
  (hq : p.Bracketed l.id (flat before) (flat inside) (flat behind) outer pointers q)

include h hq in
/-- The expressions of a piece keep their headers. -/
theorem header_bracket (hc : c ∈ cs) {x : ExprId} (hx : x ∈ c.nest.flatten) :
    (q.expr x).header = (p.expr x).header := by
  refine hq.keeps.header x (h.pristine.tidy.valid x ?_)
  rw [h.order]
  exact List.mem_flatMap.mpr ⟨c, hc, hx⟩

include h hq in
/-- Pieces stay well nested. -/
theorem fits_bracket (hc : c ∈ cs) {loops : List LoopId} (hfits : c.nest.Fits p loops) :
    c.nest.Fits q loops := by
  refine hfits.congr fun x hx => ?_
  have hheader := h.header_bracket hq hc hx
  exact ⟨Expr.role_of_header hheader, Expr.loops_of_header hheader, Expr.loop_of_header hheader⟩

include h cut in
/-- The pieces that the loop covers are well nested together. -/
theorem fits_inside (hwaits : ∀ x, l.covers x = true → waiting ls done x = outer ++ [l.id]) :
    (concat inside).Fits p (outer ++ [l.id]) := by
  refine fits_concat fun c hc => ?_
  have hrange := cut.inside.mem hc
  rw [← hwaits c.first (ListedLoop.covers_iff.mpr (by omega))]
  exact h.fits c (by simp [cut.eq, hc]) c.first (Nat.le_refl _) hrange.2.1

include h hq cut in
/-- The piece of the loop is well nested. -/
theorem fits_loopPiece
    (hwaits : ∀ x, l.covers x = true → waiting ls done x = outer ++ [l.id]) :
    (loopPiece l p.exprs.size (p.exprs.size + 1) inside).nest.Fits q outer := by
  obtain ⟨⟨hrole, hloop, hloops⟩, ⟨hrole', hloop', hloops'⟩, _⟩ := hq.markers
  refine ⟨⟨hrole, hloops⟩, ⟨hrole', hloops', hloop'.trans hloop.symm⟩, ?_, trivial⟩
  rw [hloop]
  refine (h.fits_inside cut hwaits).congr fun x hx => ?_
  rw [flatten_concat] at hx
  obtain ⟨c, hc, hx⟩ := List.mem_flatMap.mp hx
  have hheader := h.header_bracket hq (by simp [cut.eq, hc]) hx
  exact ⟨Expr.role_of_header hheader, Expr.loops_of_header hheader, Expr.loop_of_header hheader⟩

include h hq cut in
/-- There is one more begin marker, that of the loop. -/
theorem marked_bracket :
    ((begins (before ++ loopPiece l p.exprs.size (p.exprs.size + 1) inside :: behind)).map
      fun b => (q.expr b).loop).Perm (l.id :: done) := by
  have hsame : (begins cs).map (fun b => (q.expr b).loop) = (begins cs).map fun b => (p.expr b).loop := by
    refine List.map_congr_left fun b hb => ?_
    obtain ⟨c, hc, hb⟩ := List.mem_flatMap.mp hb
    exact Expr.loop_of_header (h.header_bracket hq hc (Nest.begins_subset_flatten hb))
  have hbegins : (begins (before ++ loopPiece l p.exprs.size (p.exprs.size + 1) inside :: behind)).Perm
      (p.exprs.size :: begins cs) := by
    have hpiece : begins (before ++ loopPiece l p.exprs.size (p.exprs.size + 1) inside :: behind) =
        begins before ++ p.exprs.size :: (begins inside ++ begins behind) := by
      rw [begins_append, ← begins_concat inside]
      simp [begins, loopPiece, Nest.begins]
    rw [hpiece, cut.eq, begins_append, begins_append, List.append_assoc]
    exact List.perm_middle
  refine (hbegins.map _).trans ?_
  rw [List.map_cons, hsame, hq.markers.begins.2.1]
  exact h.marked.cons _

include h hq cut in
/-- What stands in the program stood there before or is one of the markers. -/
theorem mem_bracket {x : ExprId} (hx : x ∈ q.order) :
    x ∈ p.order ∨ x = p.exprs.size ∨ x = p.exprs.size + 1 := by
  rw [hq.order] at hx
  rw [h.order_eq cut]
  simp only [List.mem_append, List.mem_cons] at hx ⊢
  tauto

include h hq cut in
/-- What is read is still produced before. -/
theorem earlier_bracket (hlt : l.last < p₀.exprs.size) (hle : l.first ≤ l.last)
    (hpointers : ∀ v ∈ pointers, v.producer ≤ l.last) : q.ReadsEarlier := by
  have horder := h.order_eq cut
  have hold : p.order.Sublist q.order := by
    rw [horder, hq.order, List.append_assoc]
    exact (List.Sublist.refl _).append
      (((List.Sublist.refl _).append (List.sublist_cons_self ..)).cons _)
  intro x hx i hi
  rcases h.mem_bracket cut hq hx with hx | rfl | rfl
  · rw [hq.keeps.inputs x (h.pristine.tidy.valid x hx)] at hi
    exact (h.earlier x hx i hi).trans hold
  · have hsource := List.mem_map_of_mem (f := (·.source)) hi
    rw [hq.markers.beginSources] at hsource
    cases hsource
  · have hsource := List.mem_map_of_mem (f := (·.source)) hi
    rw [hq.markers.stopSources, List.mem_append, List.mem_singleton] at hsource
    have hstop : [p.exprs.size + 1].Sublist ((p.exprs.size + 1) :: flat behind) :=
      List.singleton_sublist.mpr List.mem_cons_self
    rw [hq.order]
    rcases hsource with hpointer | hcounter
    · have hmem := h.mem_before_or_inside cut hlt hle (hpointers _ hpointer)
      have hproducer : i.source.producer ∈ flat before ++ p.exprs.size :: flat inside := by
        simp only [List.mem_append, List.mem_cons] at hmem ⊢
        tauto
      have hsub := (List.singleton_sublist.mpr hproducer).append hstop
      simpa using hsub
    · rw [hcounter]
      refine List.Sublist.trans ?_ (List.sublist_append_right ..)
      exact (List.singleton_sublist.mpr (by simp)).cons_cons _

include h hq cut in
/-- Putting the markers of a loop around the pieces that it covers makes them one piece. -/
theorem bracket (hlt : l.last < p₀.exprs.size) (hle : l.first ≤ l.last)
    (hids : ∀ a ∈ ls, a.id = l.id → a = l)
    (hwaits : ∀ x, l.covers x = true → waiting ls done x = outer ++ [l.id] ∧
      waiting ls (l.id :: done) x = outer)
    (hpointers : ∀ v ∈ pointers, v.producer ≤ l.last) :
    p₀.Marking ls (l.id :: done)
      (before ++ loopPiece l p.exprs.size (p.exprs.size + 1) inside :: behind) q := by
  have hsizes : p₀.exprs.size ≤ p.exprs.size := h.keeps.size
  have hapart : ∀ c ∈ before ++ behind, c ∈ cs ∧ ∀ x, c.first ≤ x → x ≤ c.last → l.covers x = false := by
    intro c hc
    refine ⟨by rw [cut.eq]; simp only [List.mem_append] at hc ⊢; tauto, fun x hfirst hlast => ?_⟩
    rw [← Bool.not_eq_true, ListedLoop.covers_iff]
    rcases List.mem_append.mp hc with hc | hc
    · have := cut.before.mem hc
      omega
    · have := cut.behind.mem hc
      omega
  have hpieces : ∀ c ∈ before ++ loopPiece l p.exprs.size (p.exprs.size + 1) inside :: behind,
      c = loopPiece l p.exprs.size (p.exprs.size + 1) inside ∨ c ∈ before ++ behind := by
    intro c hc
    simp only [List.mem_append, List.mem_cons] at hc ⊢
    tauto
  refine ⟨hq.pristine, h.keeps.trans hq.keeps, fun v hv => hq.values v (h.values v hv),
    hq.loops.trans h.loops, ?_, ?_, fun c hc => ?_, fun c hc x hfirst hlast => ?_, ?_, ?_,
    fun x hx hsize => ?_, h.earlier_bracket cut hq hlt hle hpointers⟩
  · rw [hq.order, flat_append, flat_cons, flatten_loopPiece]
    simp
  · exact cut.before.append ⟨rfl, hle, cut.behind⟩
  · rcases hpieces c hc with rfl | hc
    · have hedged := edged_flat cut.inside (inside_ne_nil cut hle)
        fun c hc => h.edged c (by simp [cut.eq, hc])
      rw [flatten_loopPiece]
      refine Edged.wrap (hedged.congr fun x hx => ?_) hq.markers.begins.1 hq.markers.stops.1
      obtain ⟨c, hc, hx⟩ := List.mem_flatMap.mp hx
      exact Expr.role_of_header (h.header_bracket hq (by simp [cut.eq, hc]) hx)
    · exact (h.edged c (hapart c hc).1).congr fun x hx =>
        Expr.role_of_header (h.header_bracket hq (hapart c hc).1 hx)
  · rcases hpieces c hc with rfl | hc
    · rw [(hwaits x (ListedLoop.covers_iff.mpr ⟨hfirst, hlast⟩)).2]
      exact h.fits_loopPiece cut hq fun y hy => (hwaits y hy).1
    · obtain ⟨hmem, hfree⟩ := hapart c hc
      rw [waiting_cons ls done fun a ha hid => hids a ha hid ▸ hfree x hfirst hlast]
      exact h.fits_bracket hq hmem (h.fits c hmem x hfirst hlast)
  · exact h.marked_bracket cut hq
  · rw [← h.erased, hq.order, h.order_eq cut]
    have hbegin : decide (p.exprs.size < p₀.exprs.size) = false := by simpa using hsizes
    have hstop : decide (p.exprs.size + 1 < p₀.exprs.size) = false := by
      rw [decide_eq_false_iff_not]
      omega
    simp [hbegin, hstop]
  · rcases h.mem_bracket cut hq hx with hx | rfl | rfl
    · rw [Expr.role_of_header (hq.keeps.header x (h.pristine.tidy.valid x hx))]
      exact h.added x hx hsize
    · rw [hq.markers.begins.1]
      rfl
    · rw [hq.markers.stops.1]
      rfl

end Bracket

/-- A loop that has its turn gets its markers. -/
theorem step (h : p₀.Marking ls done cs p) (listed : p₀.Listed ls) (unmarked : p₀.Unmarked)
    (snug : p₀.Snug ls) (hl : l ∈ ls) (turn : Turn p₀ ls done l) :
    ∃ markers cs' q, Edit.insertMarkers l.id p = .ok markers q ∧ p₀.Marking ls (l.id :: done) cs' q := by
  obtain ⟨hle, hlt⟩ := listed.inside l hl
  obtain ⟨before, inside, behind, cut⟩ := h.split listed.inside listed.nodup hl turn.new
  obtain ⟨info, hinfo, hports⟩ := listed.ports l hl
  obtain ⟨hentry, hexit⟩ := snug l hl info hinfo
  obtain ⟨earlier, later, hls⟩ := List.append_of_mem hl
  let outer := (earlier.filter (·.isAround l)).map (·.id)
  have hwaits : ∀ x, l.covers x = true →
      waiting ls done x = outer ++ [l.id] ∧ waiting ls (l.id :: done) x = outer :=
    fun x hx => listed.waiting_of_turn hls turn hx
  have hspan := h.loopSpan_turn listed unmarked hl turn.new cut (fun port hport => (hports port hport).1)
    hentry hexit
  -- what stands first in the loop lists the loops around it and then the loop itself
  obtain ⟨x, hx⟩ := (edged_flat cut.inside (inside_ne_nil cut hle) fun c hc =>
    h.edged c (by simp [cut.eq, hc])).exists_head
  have hloops : (p.expr x).loops = outer ++ [l.id] :=
    (h.fits_inside cut fun y hy => (hwaits y hy).1).loops_head (flatten_concat inside ▸ hx)
  have hnot : ∀ a ∈ outer, (decide (a ≠ l.id)) = true := by
    intro a ha
    obtain ⟨b, hb, rfl⟩ := List.mem_map.mp ha
    have hnodup := listed.nodup
    rw [hls, List.map_append, List.map_cons, List.nodup_append] at hnodup
    exact decide_eq_true (hnodup.2.2 _ (List.mem_map_of_mem (List.mem_filter.mp hb).1) _
      List.mem_cons_self)
  have houter : outerOf (p.expr x).loops l.id = outer := by
    rw [hloops, outerOf, List.takeWhile_append_of_pos hnot]
    simp
  let value := fun port : LoopPort => match p₀.value port.port with
    | .ok v => v
    | .error _ => default
  have hvalue : ∀ port ∈ info.frame.ports, p₀.value port.port = .ok (value port) := by
    intro port hport
    obtain ⟨v, hv⟩ := (hports port hport).2
    show _ = Except.ok (match p₀.value port.port with | .ok v => v | .error _ => default)
    rw [hv]
  obtain ⟨q, hinsert, hq⟩ := h.pristine.insertMarkers (h.loops ▸ hinfo) (h.order_eq cut) hx hspan
    fun port hport => h.keeps.value h.values (hvalue port hport)
  rw [houter] at hq
  refine ⟨_, _, q, hinsert, h.bracket cut hq hlt hle
    (fun a ha => List.inj_on_of_nodup_map listed.nodup ha hl) hwaits fun v hv => ?_⟩
  obtain ⟨port, hport, rfl⟩ := List.mem_map.mp hv
  have hcovers := ListedLoop.covers_iff.mp (hports port hport).1
  exact Nat.le_trans (producer_le_of_value listed.earlier (hvalue port hport)) hcovers.2

/-- The piece that a single expression is. -/
def single (x : Nat) : Piece := ⟨x, x, .expr x .nil⟩

theorem flat_single (xs : List Nat) : flat (xs.map single) = xs := by
  induction xs with
  | nil => rfl
  | cons x xs ih => rw [List.map_cons, flat_cons, ih]; rfl

theorem begins_single (xs : List Nat) : begins (xs.map single) = [] := by
  induction xs with
  | nil => rfl
  | cons x xs ih => exact ih

theorem tile_single (start count : Nat) :
    Tile start (start + count) ((List.range' start count).map single) := by
  induction count generalizing start with
  | zero => rfl
  | succ count ih =>
    refine ⟨rfl, Nat.le_refl _, ?_⟩
    rw [Nat.add_comm count, ← Nat.add_assoc]
    exact ih (start + 1)

/-- Of two numbers below a bound the smaller one comes first. -/
theorem sublist_range {a b n : Nat} (hab : a < b) (hb : b < n) : [a, b].Sublist (List.range n) := by
  rw [← List.take_append_drop b (List.range n), List.take_range]
  refine (List.singleton_sublist.mpr ?_).append (List.singleton_sublist.mpr ?_)
  · rw [List.mem_range]
    omega
  · rw [List.mem_drop_iff_getElem]
    exact ⟨0, by simpa using hb, by simp⟩

/-- Before any markers are inserted, every expression is a piece. -/
theorem init (listed : p₀.Listed ls) (unmarked : p₀.Unmarked) :
    p₀.Marking ls [] ((List.range p₀.exprs.size).map single) p₀ where
  pristine := listed.pristine
  keeps := .refl p₀
  values _ hv := hv
  loops := rfl
  order := by rw [flat_single, listed.order]
  tile := by
    have htile := tile_single 0 p₀.exprs.size
    rwa [Nat.zero_add, ← List.range_eq_range'] at htile
  edged c hc := by
    obtain ⟨x, _, rfl⟩ := List.mem_map.mp hc
    exact ⟨[], [x], [], rfl, by simp, by simp, rfl, rfl⟩
  fits c hc x hfirst hlast := by
    obtain ⟨y, hy, rfl⟩ := List.mem_map.mp hc
    obtain rfl : y = x := Nat.le_antisymm hfirst hlast
    refine ⟨unmarked y, ?_, trivial⟩
    rw [listed.loops y (List.mem_range.mp hy), waiting]
    simp
  marked := by rw [begins_single, List.map_nil]
  erased := by
    rw [listed.order, List.filter_eq_self]
    simp
  added x hx hsize := by
    rw [listed.order, List.mem_range] at hx
    omega
  earlier x hx i hi := by
    rw [listed.order] at hx ⊢
    exact sublist_range (listed.earlier x i hi) (List.mem_range.mp hx)

/-- When the loops are taken by depth, the next one has its turn. -/
theorem turn_of_sorted {rest : List LoopId} (nodup : (done ++ l.id :: rest).Nodup)
    (sorted : (done ++ l.id :: rest).Pairwise fun a b => p₀.listedDepth b ≤ p₀.listedDepth a)
    (hall : ∀ a ∈ ls, a.id ∈ done ++ l.id :: rest) : Turn p₀ ls done.reverse l := by
  obtain ⟨_, hrest, hbetween⟩ := List.pairwise_append.mp sorted
  refine ⟨fun hmem => ?_, fun a ha hdeeper => ?_, fun a ha houter hmem => ?_⟩
  · exact (List.nodup_append.mp nodup).2.2 _ (List.mem_reverse.mp hmem) _ List.mem_cons_self rfl
  · have hmem := hall a ha
    rw [List.mem_append, List.mem_cons] at hmem
    rcases hmem with hdone | heq | hmem
    · exact List.mem_reverse.mpr hdone
    · rw [heq] at hdeeper
      omega
    · have := (List.pairwise_cons.mp hrest).1 a.id hmem
      omega
  · have := hbetween a.id (List.mem_reverse.mp hmem) l.id List.mem_cons_self
    omega

/-- All loops get their markers, the innermost ones first. -/
theorem run (listed : p₀.Listed ls) (unmarked : p₀.Unmarked) (snug : p₀.Snug ls) :
    ∃ done cs q, Edit.insertAllMarkers p₀ = .ok () q ∧ done.Perm p₀.loops.ids ∧
      p₀.Marking ls done cs q := by
  have hperm := sortBy_perm (fun a b => decide (p₀.listedDepth b ≤ p₀.listedDepth a)) p₀.loops.ids
  have hsorted := @pairwise_sortBy _ (fun a b => decide (p₀.listedDepth b ≤ p₀.listedDepth a))
    (by simp only [decide_eq_true_eq]; omega)
    (by simp only [Bool.or_eq_true, decide_eq_true_eq]; omega) p₀.loops.ids
  simp only [decide_eq_true_eq] at hsorted
  generalize hids : sortBy (fun a b => decide (p₀.listedDepth b ≤ p₀.listedDepth a)) p₀.loops.ids = ids
    at hperm hsorted
  have hnodup : ids.Nodup := hperm.nodup_iff.mpr listed.pristine.table.nodup
  have hall : ∀ id, id ∈ ids ↔ ∃ l ∈ ls, l.id = id := by
    intro id
    rw [hperm.mem_iff, ← listed.ids, List.mem_map]
  obtain ⟨q, hrun, cs, hq⟩ := Outcome.forM_of_step
    (f := fun id => (discard (Edit.insertMarkers id) : Edit PUnit)) (l := ids) (s := p₀)
    (P := fun done p => ∃ cs, p₀.Marking ls done.reverse cs p) ⟨_, init listed unmarked⟩ (by
      rintro done id rest p rfl ⟨cs, h⟩
      obtain ⟨l, hl, rfl⟩ := (hall id).mp (by simp)
      have turn := turn_of_sorted hnodup hsorted fun a ha => (hall a.id).mpr ⟨a, ha, rfl⟩
      obtain ⟨markers, cs', q, hinsert, hq⟩ := h.step listed unmarked snug hl turn
      refine ⟨q, Outcome.map_eq_ok.mpr ⟨markers, hinsert, rfl⟩, cs', ?_⟩
      rwa [List.reverse_append])
  refine ⟨ids.reverse, cs, q, ?_, (List.reverse_perm ids).trans hperm, hq⟩
  unfold Edit.insertAllMarkers
  rw [Outcome.get_bind, hids]
  exact hrun

end Marking

/-- A program with the markers of all its loops. -/
structure Marked (p q : Program) (n : Nest) : Prop where
  /-- Nothing was copied and no loop was split. -/
  pristine : q.Pristine
  /-- The markers are well nested, and every expression lists the loops around it. -/
  nested : q.WellNested n
  /-- Every loop has one pair of markers. -/
  marked : ((n.spans q 0).map (·.loop)).Perm q.loops.ids
  /-- What is read is produced before. -/
  earlier : q.ReadsEarlier
  /-- The expressions keep their headers and what they read. -/
  keeps : p.Extends q
  /-- The loops stay. -/
  loops : q.loops = p.loops
  /-- Without the markers the program is as it was. -/
  erased : q.order.filter (fun x => !(q.expr x).role.isLoopMarker) = p.order

/-- The pieces of a program in which no loop waits are its nest. -/
theorem Marking.finish {p₀ : Program} {ls : List ListedLoop} {cs : List Piece} (h : p₀.Marking ls done cs p)
    (listed : p₀.Listed ls) (unmarked : p₀.Unmarked) (hdone : done.Perm p₀.loops.ids) :
    p₀.Marked p (concat cs) := by
  have hnone : ∀ x, waiting ls done x = [] := by
    intro x
    refine List.eq_nil_iff_forall_not_mem.mpr fun id hid => ?_
    obtain ⟨l, hl, _, _, hnot⟩ := mem_waiting.mp hid
    exact hnot (hdone.mem_iff.mpr (listed.ids ▸ List.mem_map_of_mem hl))
  have hfits : (concat cs).Fits p [] := fits_concat fun c hc => by
    have hfits := h.fits c hc c.first (Nat.le_refl _) (h.tile.mem hc).2.1
    rwa [hnone] at hfits
  have hspans : (((concat cs).spans p 0).map (·.loop)).Perm p.loops.ids := by
    rw [Nest.map_loop_spans, begins_concat, h.loops]
    exact h.marked.trans hdone
  refine ⟨h.pristine, ⟨(flatten_concat cs).trans h.order.symm, hfits, ?_⟩, hspans, h.earlier, h.keeps,
    h.loops, ?_⟩
  · exact hspans.nodup_iff.mpr h.pristine.table.nodup
  · rw [listed.order, ← h.erased]
    refine List.filter_congr fun x hx => ?_
    rcases Nat.lt_or_ge x p₀.exprs.size with hlt | hge
    · simp [h.role_of_lt unmarked hlt, hlt]
    · simp [h.added x hx hge, hge]

end Program

end TensorKernel
