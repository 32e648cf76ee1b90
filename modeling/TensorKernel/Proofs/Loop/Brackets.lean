import TensorKernel.Proofs.Loop.Context

/-!
# Pairs of markers

The markers of a loop delimit a span of positions. In a well nested program the spans of the nest are
exactly those that markers delimit: every loop has one begin and one end, two pairs are nested or apart,
and an expression lists the loops whose markers it stands between.
-/

namespace TensorKernel

namespace Program

variable {p : Program} {n : Nest}

/-- A marker of a loop stands at a position. -/
def MarkerAt (p : Program) (role : Role) (loop : LoopId) (i : Nat) : Prop :=
  ∃ x, p.order[i]? = some x ∧ (p.expr x).role = role ∧ (p.expr x).loop = loop

/-- The markers of a loop stand at the ends of a span and nowhere else. -/
structure Delimits (p : Program) (s : Span) : Prop where
  /-- The begin comes first. -/
  lt : s.first < s.last
  /-- There is one begin marker. -/
  begins : ∀ i, p.MarkerAt .loopBegin s.loop i ↔ i = s.first
  /-- There is one end marker. -/
  ends : ∀ i, p.MarkerAt .loopEnd s.loop i ↔ i = s.last

/-- Every registered loop has one pair of markers, and two pairs are nested or apart. -/
structure WellBracketed (p : Program) : Prop where
  /-- Every loop has its pair. -/
  pair : ∀ id ∈ p.loops.ids, ∃ s : Span, s.loop = id ∧ p.Delimits s
  /-- No two pairs cross. -/
  apart : ∀ s t, p.Delimits s → p.Delimits t → s.loop ≠ t.loop → s.Precedes t ∨ t.Precedes s

namespace WellNested

/-- The spans of a nest are delimited by markers. -/
theorem delimits (h : p.WellNested n) {s : Span} (hs : s ∈ n.spans p 0) : p.Delimits s := by
  obtain ⟨⟨begin, hbegin, hbegins⟩, ⟨stop, hstop, hstops⟩, hunique⟩ := h.markers hs
  refine ⟨(Nest.span_mem hs).2.1, fun i => ⟨?_, ?_⟩, fun i => ⟨?_, ?_⟩⟩
  · rintro ⟨x, hx, hrole, hloop⟩
    exact (hunique i x hx hloop).1 hrole
  · rintro rfl
    exact ⟨begin, hbegin, hbegins⟩
  · rintro ⟨x, hx, hrole, hloop⟩
    exact (hunique i x hx hloop).2 hrole
  · rintro rfl
    exact ⟨stop, hstop, hstops⟩

/-- Markers delimit the spans of a nest only. -/
theorem mem_spans (h : p.WellNested n) {s : Span} (hs : p.Delimits s) : s ∈ n.spans p 0 := by
  obtain ⟨begin, hbegin, hrole, hloop⟩ := (hs.begins s.first).mpr rfl
  obtain ⟨t, ht, htloop, _⟩ := h.fits.exists_span (h.flatten.symm ▸ hbegin) (Nat.zero_add _).symm
    (by rw [hrole]; rfl)
  have hsame : t.loop = s.loop := htloop.trans hloop
  have hd := h.delimits ht
  have hfirst : t.first = s.first := (hs.begins _).mp (hsame ▸ (hd.begins _).mpr rfl)
  have hlast : t.last = s.last := (hs.ends _).mp (hsame ▸ (hd.ends _).mpr rfl)
  obtain ⟨loop, first, last⟩ := s
  obtain rfl : t = ⟨loop, first, last⟩ := by
    rw [← show t.loop = loop from hsame, ← show t.first = first from hfirst,
      ← show t.last = last from hlast]
  exact ht

end WellNested

/-- The nest of a program that has the markers of all its registered loops. -/
structure FullyNested (p : Program) (n : Nest) : Prop where
  /-- The markers are well nested. -/
  nested : p.WellNested n
  /-- Every registered loop has its markers. -/
  marked : ∀ id ∈ p.loops.ids, ∃ x ∈ n.begins, (p.expr x).loop = id

namespace FullyNested

/-- Every registered loop is well bracketed. -/
theorem wellBracketed (h : p.FullyNested n) : p.WellBracketed where
  pair id hid := by
    obtain ⟨x, hx, hloop⟩ := h.marked id hid
    obtain ⟨s, hs, hsloop⟩ : ∃ s ∈ n.spans p 0, s.loop = (p.expr x).loop := by
      rw [← List.mem_map, Nest.map_loop_spans]
      exact List.mem_map_of_mem hx
    exact ⟨s, hsloop.trans hloop, h.nested.delimits hs⟩
  apart s t hs ht hne := Nest.precedes_or (h.nested.mem_spans hs) (h.nested.mem_spans ht)
    fun he => hne (congrArg Span.loop he)

end FullyNested

/-- An expression stands between the markers of a loop. -/
def Encloses (p : Program) (id : LoopId) (x : ExprId) : Prop :=
  ∃ s i, p.Delimits s ∧ s.loop = id ∧ p.order[i]? = some x ∧ s.encloses i = true

/-- In a well nested program the loops around an expression are those that it lists. -/
theorem WellNested.encloses_iff (h : p.WellNested n) {id : LoopId} {x : ExprId} :
    p.Encloses id x ↔ x ∈ p.order ∧ id ∈ (p.expr x).loops := by
  constructor
  · rintro ⟨s, i, hs, rfl, hx, hi⟩
    refine ⟨List.mem_of_getElem? hx, ?_⟩
    rw [h.loops_eq hx]
    exact List.mem_map.mpr ⟨s, List.mem_filter.mpr ⟨h.mem_spans hs, hi⟩, rfl⟩
  · rintro ⟨hx, hid⟩
    obtain ⟨i, hi⟩ := List.mem_iff_getElem?.mp hx
    rw [h.loops_eq hi] at hid
    obtain ⟨s, hs, rfl⟩ := List.mem_map.mp hid
    obtain ⟨hmem, henc⟩ := List.mem_filter.mp hs
    exact ⟨s, i, h.delimits hmem, rfl, hi, henc⟩

end Program

end TensorKernel
