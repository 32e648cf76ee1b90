import Mathlib.Data.List.Nodup
import TensorKernel.Program.Basic

/-!
# Nests of loops

The markers of a program delimit its loops. When they are well nested, the program is a forest: a
sequence of expressions and loops, each of which has a forest as its body. The spans of the loops are
then nested or apart, and the loops that an expression lists are those whose spans it lies in.
-/

namespace TensorKernel

variable {begin id stop : ExprId} {i k : Nat} {body rest : Nest} {s t : Span}

/-- A sequence of expressions and of loops with their markers. -/
inductive Nest where
  | nil
  | expr (id : ExprId) (rest : Nest)
  | loop (begin stop : ExprId) (body rest : Nest)
deriving DecidableEq, Repr

/-- The positions of the markers of a loop. -/
structure Span where
  /-- The loop. -/
  loop : LoopId
  /-- The position of its begin marker. -/
  first : Nat
  /-- The position of its end marker. -/
  last : Nat
deriving DecidableEq, Repr

namespace Span

/-- Whether a position lies between the markers. -/
def encloses (s : Span) (position : Nat) : Bool := s.first < position && position < s.last

theorem encloses_iff : s.encloses i = true ↔ s.first < i ∧ i < s.last := by
  simp [encloses]

/-- The span `t` starts behind `s` and lies inside it or behind it. -/
def Precedes (s t : Span) : Prop := (s.first < t.first ∧ t.last < s.last) ∨ s.last < t.first

end Span

namespace Nest

/-- The expressions in execution order. -/
def flatten : Nest → List ExprId
  | nil => []
  | expr id rest => id :: rest.flatten
  | loop begin stop body rest => begin :: (body.flatten ++ stop :: rest.flatten)

/-- Whether a nest has the right expressions: markers delimit its loops, nothing else is a marker,
and every expression lists the loops around it, the outermost first. -/
def Fits (p : Program) (outer : List LoopId) : Nest → Prop
  | nil => True
  | expr id rest =>
    (p.expr id).role.isLoopMarker = false ∧ (p.expr id).loops = outer ∧ rest.Fits p outer
  | loop begin stop body rest =>
    ((p.expr begin).role = .loopBegin ∧ (p.expr begin).loops = outer) ∧
    ((p.expr stop).role = .loopEnd ∧ (p.expr stop).loops = outer ∧
      (p.expr stop).loop = (p.expr begin).loop) ∧
    body.Fits p (outer ++ [(p.expr begin).loop]) ∧ rest.Fits p outer

/-- The spans of the loops when the nest starts at a position, a loop before the loops in it. -/
def spans (p : Program) (position : Nat) : Nest → List Span
  | nil => []
  | expr _ rest => rest.spans p (position + 1)
  | loop begin _ body rest =>
    let stop := position + 1 + body.flatten.length
    ⟨(p.expr begin).loop, position, stop⟩ ::
      (body.spans p (position + 1) ++ rest.spans p (stop + 1))

instance decidableFits (p : Program) (outer : List LoopId) (n : Nest) :
    Decidable (n.Fits p outer) :=
  match n with
  | nil => isTrue trivial
  | expr _ rest =>
    have := decidableFits p outer rest
    inferInstanceAs (Decidable (_ ∧ _ ∧ _))
  | loop begin _ body rest =>
    have := decidableFits p (outer ++ [(p.expr begin).loop]) body
    have := decidableFits p outer rest
    inferInstanceAs (Decidable ((_ ∧ _) ∧ (_ ∧ _ ∧ _) ∧ _ ∧ _))

end Nest

/-- The nest of a program: the markers delimit it, and every loop has one pair of them. -/
structure Program.WellNested (p : Program) (n : Nest) : Prop where
  /-- The nest lists the program. -/
  flatten : n.flatten = p.order
  /-- Markers and listed loops agree with the nest. -/
  fits : n.Fits p []
  /-- Every loop has one pair of markers. -/
  nodup : ((n.spans p 0).map (·.loop)).Nodup

namespace Nest

variable {p : Program} {n : Nest} {position : Nat} {outer : List LoopId}

/-- The markers of a loop stand in its nest, the end behind the begin. -/
theorem span_mem (h : s ∈ n.spans p position) :
    position ≤ s.first ∧ s.first < s.last ∧ s.last < position + n.flatten.length := by
  induction n generalizing position with
  | nil => cases h
  | expr id rest ih =>
    have := ih h
    simp only [flatten, List.length_cons]
    omega
  | loop begin stop body rest ihb ihr =>
    simp only [flatten, List.length_cons, List.length_append]
    simp only [spans, List.mem_cons, List.mem_append] at h
    rcases h with rfl | h | h
    · dsimp only
      omega
    · have := ihb h
      omega
    · have := ihr h
      omega

/-- Spans are nested or apart, in the order in which their loops begin. -/
theorem pairwise_spans (n : Nest) (p : Program) (position : Nat) :
    (n.spans p position).Pairwise Span.Precedes := by
  induction n generalizing position with
  | nil => exact .nil
  | expr id rest ih => exact ih _
  | loop begin stop body rest ihb ihr =>
    refine List.pairwise_cons.mpr ⟨fun s hs => ?_, List.pairwise_append.mpr ⟨ihb _, ihr _, ?_⟩⟩
    · rcases List.mem_append.mp hs with hs | hs
      · have := span_mem hs
        exact .inl ⟨by dsimp only; omega, by dsimp only; omega⟩
      · have := span_mem hs
        exact .inr (by dsimp only; omega)
    · intro s hs t ht
      have hs := span_mem hs
      have ht := span_mem ht
      exact .inr (by omega)

/-- Of two different spans one precedes the other. -/
theorem precedes_or (hs : s ∈ n.spans p position) (ht : t ∈ n.spans p position) (hne : s ≠ t) :
    s.Precedes t ∨ t.Precedes s := by
  have hp := List.pairwise_iff_getElem.mp (n.pairwise_spans p position)
  obtain ⟨i, hi, rfl⟩ := List.mem_iff_getElem.mp hs
  obtain ⟨j, hj, rfl⟩ := List.mem_iff_getElem.mp ht
  rcases Nat.lt_trichotomy i j with hij | rfl | hij
  · exact .inl (hp i j hi hj hij)
  · exact absurd rfl hne
  · exact .inr (hp j i hj hi hij)

/-- No loop of a nest encloses a position outside the nest, or its first one. -/
theorem filter_encloses_of_outside (hi : i ≤ position ∨ position + n.flatten.length ≤ i) :
    (n.spans p position).filter (·.encloses i) = [] := by
  refine List.filter_eq_nil_iff.mpr fun s hs => ?_
  have := span_mem hs
  rw [Span.encloses_iff]
  omega

/-- The expression at a place of a loop and what follows it is a marker, in the body, or behind. -/
theorem getElem?_flatten_loop (h : (loop begin stop body rest).flatten[k]? = some id) :
    (k = 0 ∧ begin = id) ∨ (∃ j, k = j + 1 ∧ body.flatten[j]? = some id) ∨
    (k = body.flatten.length + 1 ∧ stop = id) ∨
    (∃ j, k = body.flatten.length + 2 + j ∧ rest.flatten[j]? = some id) := by
  rw [flatten] at h
  cases k with
  | zero => exact .inl ⟨rfl, Option.some.inj h⟩
  | succ k =>
    rw [List.getElem?_cons_succ] at h
    rcases Nat.lt_or_ge k body.flatten.length with hk | hk
    · rw [List.getElem?_append_left hk] at h
      exact .inr (.inl ⟨k, rfl, h⟩)
    · rw [List.getElem?_append_right hk] at h
      obtain ⟨j, rfl⟩ := Nat.exists_eq_add_of_le hk
      rw [Nat.add_sub_cancel_left] at h
      cases j with
      | zero => exact .inr (.inr (.inl ⟨rfl, Option.some.inj h⟩))
      | succ j => exact .inr (.inr (.inr ⟨j, by omega, by simpa using h⟩))

/-- Whether the expressions of a nest stand in a program from a position on. -/
def StandsAt (p : Program) (n : Nest) (position : Nat) : Prop :=
  ∀ k id, n.flatten[k]? = some id → p.order[position + k]? = some id

theorem StandsAt.expr (h : (expr id rest).StandsAt p position) :
    p.order[position]? = some id ∧ rest.StandsAt p (position + 1) := by
  refine ⟨h 0 id rfl, fun k e hk => ?_⟩
  rw [Nat.add_assoc, Nat.add_comm 1 k]
  exact h (k + 1) e (by simpa [flatten] using hk)

theorem StandsAt.loop (h : (loop begin stop body rest).StandsAt p position) :
    p.order[position]? = some begin ∧ body.StandsAt p (position + 1) ∧
      p.order[position + 1 + body.flatten.length]? = some stop ∧
      rest.StandsAt p (position + 1 + body.flatten.length + 1) := by
  refine ⟨h 0 begin rfl, fun k e hk => ?_, ?_, fun k e hk => ?_⟩
  · have hlt := (List.getElem?_eq_some_iff.mp hk).1
    have := h (k + 1) e (by
      rw [flatten, List.getElem?_cons_succ, List.getElem?_append_left hlt, hk])
    rwa [Nat.add_assoc, Nat.add_comm 1 k]
  · have := h (body.flatten.length + 1) stop (by simp [flatten])
    rwa [Nat.add_assoc, Nat.add_comm 1]
  · have := h (body.flatten.length + (k + 1) + 1) e (by
      rw [flatten, List.getElem?_cons_succ, List.getElem?_append_right (by omega),
        Nat.add_sub_cancel_left]
      exact hk)
    rwa [show position + (body.flatten.length + (k + 1) + 1) =
      position + 1 + body.flatten.length + 1 + k by omega] at this

/-- An expression lists the loops around the nest and then those whose spans it lies in. -/
theorem Fits.loops_eq (h : n.Fits p outer) (hk : n.flatten[k]? = some id) (hi : i = position + k) :
    (p.expr id).loops = outer ++ ((n.spans p position).filter (·.encloses i)).map (·.loop) := by
  induction n generalizing position outer k with
  | nil => cases hk
  | expr e rest ih =>
    obtain ⟨_, hloops, hrest⟩ := h
    cases k with
    | zero =>
      cases hk
      rw [spans, filter_encloses_of_outside (by omega), hloops, List.map_nil, List.append_nil]
    | succ k => exact ih hrest (by simpa [flatten] using hk) (by omega)
  | loop begin stop body rest ihb ihr =>
    obtain ⟨⟨_, hbegin⟩, ⟨_, hstop, _⟩, hbody, hrest⟩ := h
    simp only [spans, List.filter_cons, List.filter_append]
    rcases getElem?_flatten_loop hk with ⟨rfl, rfl⟩ | ⟨j, rfl, hj⟩ | ⟨rfl, rfl⟩ | ⟨j, rfl, hj⟩
    · rw [filter_encloses_of_outside (by omega), filter_encloses_of_outside (by omega),
        if_neg (by rw [Span.encloses_iff]; dsimp only; omega), hbegin, List.append_nil, List.map_nil,
        List.append_nil]
    · have hlt := (List.getElem?_eq_some_iff.mp hj).1
      have hplace : i = position + 1 + j := by omega
      rw [filter_encloses_of_outside (n := rest) (by omega), List.append_nil,
        if_pos (by rw [Span.encloses_iff]; dsimp only; omega), ihb hbody hj hplace,
        List.map_cons, List.append_assoc]
      rfl
    · rw [filter_encloses_of_outside (by omega), filter_encloses_of_outside (by omega),
        if_neg (by rw [Span.encloses_iff]; dsimp only; omega), hstop, List.append_nil, List.map_nil,
        List.append_nil]
    · have hplace : i = position + 1 + body.flatten.length + 1 + j := by omega
      rw [filter_encloses_of_outside (n := body) (by omega),
        if_neg (by rw [Span.encloses_iff]; dsimp only; omega), List.nil_append,
        ihr hrest hj hplace]

/-- A marker opens or closes a span. -/
theorem Fits.exists_span (h : n.Fits p outer) (hk : n.flatten[k]? = some id) (hi : i = position + k)
    (hr : (p.expr id).role.isLoopMarker = true) :
    ∃ s ∈ n.spans p position, s.loop = (p.expr id).loop ∧
      (((p.expr id).role = .loopBegin ∧ s.first = i) ∨
        ((p.expr id).role = .loopEnd ∧ s.last = i)) := by
  induction n generalizing position outer k with
  | nil => cases hk
  | expr e rest ih =>
    obtain ⟨hmarker, _, hrest⟩ := h
    cases k with
    | zero =>
      cases hk
      rw [hr] at hmarker
      cases hmarker
    | succ k => exact ih hrest (by simpa [flatten] using hk) (by omega)
  | loop begin stop body rest ihb ihr =>
    obtain ⟨⟨hbegin, _⟩, ⟨hstop, _, hloop⟩, hbody, hrest⟩ := h
    simp only [spans, List.mem_cons, List.mem_append]
    rcases getElem?_flatten_loop hk with ⟨rfl, rfl⟩ | ⟨j, rfl, hj⟩ | ⟨rfl, rfl⟩ | ⟨j, rfl, hj⟩
    · exact ⟨_, .inl rfl, rfl, .inl ⟨hbegin, by dsimp only; omega⟩⟩
    · have hplace : i = position + 1 + j := by omega
      obtain ⟨s, hs, hsl⟩ := ihb hbody hj hplace
      exact ⟨s, .inr (.inl hs), hsl⟩
    · exact ⟨_, .inl rfl, hloop.symm, .inr ⟨hstop, by dsimp only; omega⟩⟩
    · have hplace : i = position + 1 + body.flatten.length + 1 + j := by omega
      obtain ⟨s, hs, hsl⟩ := ihr hrest hj hplace
      exact ⟨s, .inr (.inr hs), hsl⟩

/-- A span has its markers at its ends. -/
theorem Fits.getElem?_markers (h : n.Fits p outer) (hs : s ∈ n.spans p position) :
    ∃ j k begin stop, (s.first = position + j ∧ s.last = position + k) ∧
      (n.flatten[j]? = some begin ∧ (p.expr begin).role = .loopBegin ∧
        (p.expr begin).loop = s.loop) ∧
      n.flatten[k]? = some stop ∧ (p.expr stop).role = .loopEnd ∧ (p.expr stop).loop = s.loop := by
  induction n generalizing position outer with
  | nil => cases hs
  | expr e rest ih =>
    obtain ⟨j, k, begin, stop, ⟨hj, hk⟩, hbegin, hstop⟩ := ih h.2.2 hs
    exact ⟨j + 1, k + 1, begin, stop, ⟨by omega, by omega⟩, hbegin, hstop⟩
  | loop b e body rest ihb ihr =>
    obtain ⟨⟨hb, _⟩, ⟨he, _, hloop⟩, hbody, hrest⟩ := h
    simp only [spans, List.mem_cons, List.mem_append] at hs
    rcases hs with rfl | hs | hs
    · exact ⟨0, body.flatten.length + 1, b, e, ⟨rfl, by dsimp only; omega⟩, ⟨rfl, hb, rfl⟩,
        by simp [flatten], he, hloop⟩
    · obtain ⟨j, k, begin, stop, ⟨hj, hk⟩, ⟨hbegin, hb'⟩, hstop, he'⟩ := ihb hbody hs
      have hin : ∀ {i x}, body.flatten[i]? = some x → (loop b e body rest).flatten[i + 1]? = some x := by
        intro i x hx
        rw [flatten, List.getElem?_cons_succ,
          List.getElem?_append_left (List.getElem?_eq_some_iff.mp hx).1, hx]
      exact ⟨j + 1, k + 1, begin, stop, ⟨by omega, by omega⟩, ⟨hin hbegin, hb'⟩, hin hstop, he'⟩
    · obtain ⟨j, k, begin, stop, ⟨hj, hk⟩, ⟨hbegin, hb'⟩, hstop, he'⟩ := ihr hrest hs
      have hin : ∀ {i x}, rest.flatten[i]? = some x →
          (loop b e body rest).flatten[body.flatten.length + 1 + 1 + i]? = some x := by
        intro i x hx
        rw [flatten, show body.flatten.length + 1 + 1 + i = (body.flatten.length + (i + 1)) + 1 by omega,
          List.getElem?_cons_succ, List.getElem?_append_right (by omega), Nat.add_sub_cancel_left]
        exact hx
      exact ⟨body.flatten.length + 1 + 1 + j, body.flatten.length + 1 + 1 + k, begin, stop,
        ⟨by omega, by omega⟩, ⟨hin hbegin, hb'⟩, hin hstop, he'⟩

end Nest

namespace Program

variable {p : Program} {n : Nest}

/-- The position of the only expression that a test accepts. -/
theorem getLast?_filter_zipIdx {f : Expr × Nat → Bool} (hi : p.order[i]? = some id)
    (hf : f (p.expr id, i) = true)
    (hunique : ∀ (j : Nat) e, p.order[j]? = some e → f (p.expr e, j) = true → j = i) :
    (p.list.zipIdx.filter f).getLast?.map Prod.snd = some i := by
  have hmem : ∀ e j, (e, j) ∈ p.list.zipIdx.filter f ↔
      (∃ id, p.order[j]? = some id ∧ p.expr id = e) ∧ f (e, j) = true := by
    intro e j
    rw [List.mem_filter, List.mem_zipIdx_iff_getElem?, list, List.getElem?_map,
      Option.map_eq_some_iff]
  have hne := List.ne_nil_of_mem ((hmem (p.expr id) i).mpr ⟨⟨id, hi, rfl⟩, hf⟩)
  obtain ⟨⟨e, he, hexpr⟩, hlast⟩ := (hmem _ _).mp (List.getLast_mem hne)
  rw [List.getLast?_eq_some_getLast hne, Option.map_some, hunique _ e he (hexpr ▸ hlast)]

namespace WellNested

/-- An expression lists the loops whose spans it lies in, the outermost first. -/
theorem loops_eq (h : p.WellNested n) (hi : p.order[i]? = some id) :
    (p.expr id).loops = ((n.spans p 0).filter (·.encloses i)).map (·.loop) :=
  h.fits.loops_eq (h.flatten.symm ▸ hi) (Nat.zero_add i).symm

/-- A loop has one span. -/
theorem span_unique (h : p.WellNested n) (hs : s ∈ n.spans p 0) (ht : t ∈ n.spans p 0)
    (he : s.loop = t.loop) : s = t :=
  List.inj_on_of_nodup_map h.nodup hs ht he

/-- The markers of a loop stand at the ends of its span, and nowhere else. -/
theorem markers (h : p.WellNested n) (hs : s ∈ n.spans p 0) :
    (∃ begin, p.order[s.first]? = some begin ∧ (p.expr begin).role = .loopBegin ∧
      (p.expr begin).loop = s.loop) ∧
    (∃ stop, p.order[s.last]? = some stop ∧ (p.expr stop).role = .loopEnd ∧
      (p.expr stop).loop = s.loop) ∧
    ∀ (i : Nat) id, p.order[i]? = some id → (p.expr id).loop = s.loop →
      ((p.expr id).role = .loopBegin → i = s.first) ∧ ((p.expr id).role = .loopEnd → i = s.last) := by
  obtain ⟨j, k, begin, stop, ⟨hj, hk⟩, ⟨hbegin, hb⟩, hstop, he⟩ := h.fits.getElem?_markers hs
  rw [Nat.zero_add] at hj hk
  rw [h.flatten, ← hj] at hbegin
  rw [h.flatten, ← hk] at hstop
  refine ⟨⟨begin, hbegin, hb⟩, ⟨stop, hstop, he⟩, fun i id hi hloop => ?_⟩
  have hspan : (p.expr id).role.isLoopMarker = true →
      ((p.expr id).role = .loopBegin ∧ s.first = i) ∨
        ((p.expr id).role = .loopEnd ∧ s.last = i) := by
    intro hr
    obtain ⟨t, ht, htl, hti⟩ :=
      h.fits.exists_span (h.flatten.symm ▸ hi) (Nat.zero_add i).symm hr
    rwa [h.span_unique ht hs (htl.trans hloop)] at hti
  refine ⟨fun hr => ?_, fun hr => ?_⟩
  · rcases hspan (by simp [Role.isLoopMarker, hr]) with ⟨_, hfirst⟩ | ⟨hr', _⟩
    · exact hfirst.symm
    · rw [hr] at hr'
      cases hr'
  · rcases hspan (by simp [Role.isLoopMarker, hr]) with ⟨hr', _⟩ | ⟨_, hlast⟩
    · rw [hr] at hr'
      cases hr'
    · exact hlast.symm

/-- The markers of a loop are found at the ends of its span. -/
theorem loopBounds_eq (h : p.WellNested n) (hs : s ∈ n.spans p 0) :
    p.loopBounds s.loop = .ok (s.first, s.last) := by
  obtain ⟨⟨begin, hbegin, hbr, hbl⟩, ⟨stop, hstop, her, hel⟩, hunique⟩ := h.markers hs
  have hle := (Nest.span_mem hs).2.1
  unfold loopBounds
  dsimp only
  rw [getLast?_filter_zipIdx hbegin, getLast?_filter_zipIdx hstop]
  · dsimp only
    rw [if_pos (by omega)]
  all_goals simp only [Bool.decide_and, Bool.and_eq_true, decide_eq_true_eq]
  · exact ⟨hel, her⟩
  · rintro j e hj ⟨hl, hr⟩
    exact (hunique j e hj hl).2 hr
  · exact ⟨hbl, hbr⟩
  · rintro j e hj ⟨hl, hr⟩
    exact (hunique j e hj hl).1 hr

end WellNested

end Program

end TensorKernel
