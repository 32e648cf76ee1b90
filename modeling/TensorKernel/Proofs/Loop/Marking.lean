import Mathlib.Data.List.Basic
import TensorKernel.Proofs.Loop.Listed

/-!
# Marking the listed loops

A program lists its loops at the expressions that they cover, enclosing loops first. Markers are
inserted for the innermost loops first. At every moment the program falls into pieces, each of which
is well nested, and the loops that wait for their markers cover a piece altogether or not at all. The
markers of the next loop go around the pieces that it covers, which become one piece. In the end the
whole program is well nested.
-/

namespace TensorKernel

variable {first last x : ExprId} {before behind : List ExprId} {ports : List LoopPort} {cs : List Piece}
  {start stop : Nat} {n : Nest} {p : Program}

namespace Outcome

/-- A pass that answers every item answers the list. -/
theorem except_mapM_eq_map {ε α β : Type} {f : α → Except ε β} {g : α → β} {l : List α}
    (h : ∀ a ∈ l, f a = .ok (g a)) : l.mapM f = .ok (l.map g) := by
  induction l with
  | nil => rfl
  | cons a l ih =>
    rw [List.mapM_cons, h a List.mem_cons_self, ih fun b hb => h b (List.mem_cons_of_mem _ hb)]
    rfl

end Outcome

namespace Program

/-! ### Where the markers go -/

/-- The positions of ports whose expressions stand in the program. -/
theorem portPositions_eq (h : ∀ port ∈ ports, port.port.expr ∈ p.order) (outside : Label → Fault) :
    p.portPositions outside ports = .ok (ports.map fun port => p.order.idxOf port.port.expr) := by
  refine Outcome.except_mapM_eq_map fun port hport => ?_
  have hfound : p.indexOf? port.port.expr = some (p.order.idxOf port.port.expr) := by
    have hlt := List.idxOf_lt_length_of_mem (h port hport)
    refine List.idxOf?_eq_some_iff.mpr ⟨hlt, List.getElem_idxOf hlt, fun j hj => ?_⟩
    simpa using List.not_of_lt_findIdx hj
  rw [hfound]

/-- The ports of a loop stand in the program, the first of them at a given place. -/
theorem portPositions_first (nodup : p.order.Nodup) (horder : p.order = before ++ first :: behind)
    (hfirst : ∃ port ∈ ports, port.port.expr = first)
    (hports : ∀ port ∈ ports, port.port.expr ∈ first :: behind) (outside : Label → Fault) :
    ∃ positions, p.portPositions outside ports = .ok positions ∧ positions.min? = some before.length := by
  have hindex : ∀ x ∈ first :: behind, p.order.idxOf x = before.length + (first :: behind).idxOf x := by
    intro x hx
    rw [horder] at nodup ⊢
    exact List.idxOf_append_of_notMem fun hb => (List.nodup_append.mp nodup).2.2 x hb x hx rfl
  refine ⟨_, portPositions_eq (fun port hport => ?_) outside, List.min?_eq_some_iff.mpr ⟨?_, ?_⟩⟩
  · rw [horder]
    exact List.mem_append_right _ (hports port hport)
  · obtain ⟨port, hport, rfl⟩ := hfirst
    refine List.mem_map.mpr ⟨port, hport, ?_⟩
    rw [hindex _ List.mem_cons_self, List.idxOf_cons_self, Nat.add_zero]
  · intro i hi
    obtain ⟨port, hport, rfl⟩ := List.mem_map.mp hi
    rw [hindex _ (hports port hport)]
    exact Nat.le_add_right ..

/-- The ports of a loop stand in the program, the last of them at a given place. -/
theorem portPositions_last (nodup : p.order.Nodup) (horder : p.order = before ++ last :: behind)
    (hlast : ∃ port ∈ ports, port.port.expr = last)
    (hports : ∀ port ∈ ports, port.port.expr ∈ before ++ [last]) (outside : Label → Fault) :
    ∃ positions, p.portPositions outside ports = .ok positions ∧ positions.max? = some before.length := by
  have hsplit : p.order = (before ++ [last]) ++ behind := by
    rw [horder, List.append_assoc, List.singleton_append]
  have hindex : ∀ x ∈ before ++ [last], p.order.idxOf x ≤ before.length := by
    intro x hx
    have hlt := List.idxOf_lt_length_of_mem hx
    rw [hsplit, List.idxOf_append_of_mem hx]
    rw [List.length_append, List.length_singleton] at hlt
    omega
  have hnot : last ∉ before := by
    intro hmem
    rw [horder] at nodup
    exact (List.nodup_append.mp nodup).2.2 last hmem last List.mem_cons_self rfl
  refine ⟨_, portPositions_eq (fun port hport => ?_) outside, List.max?_eq_some_iff.mpr ⟨?_, ?_⟩⟩
  · rw [hsplit]
    exact List.mem_append_left _ (hports port hport)
  · obtain ⟨port, hport, rfl⟩ := hlast
    refine List.mem_map.mpr ⟨port, hport, ?_⟩
    rw [horder, List.idxOf_append_of_notMem hnot, List.idxOf_cons_self, Nat.add_zero]
  · intro i hi
    obtain ⟨port, hport, rfl⟩ := List.mem_map.mp hi
    exact hindex _ (hports port hport)

/-- The markers of a loop go around the part of the program from the first entry to the last exit, with
the markers of inner loops next to them. -/
theorem loopSpan_eq (nodup : p.order.Nodup) {id : LoopId} {frame : LoopFrame}
    {left opening core closing right : List ExprId}
    (horder : p.order = left ++ (opening ++ core ++ closing) ++ right) (hhead : core.head? = some first)
    (hlast : core.getLast? = some last) (hopening : ∀ x ∈ opening, p.isInnerMarker .loopBegin id x = true)
    (hclosing : ∀ x ∈ closing, p.isInnerMarker .loopEnd id x = true)
    (hleft : ∀ x ∈ left.getLast?, p.isInnerMarker .loopBegin id x = false)
    (hright : ∀ x ∈ right.head?, p.isInnerMarker .loopEnd id x = false)
    (hentry : ∃ port ∈ frame.entries, port.port.expr = first)
    (hentries : ∀ port ∈ frame.entries, port.port.expr ∈ core ++ closing ++ right)
    (hexit : ∃ port ∈ frame.exits, port.port.expr = last)
    (hexits : ∀ port ∈ frame.exits, port.port.expr ∈ left ++ opening ++ core) :
    p.loopSpan id frame = .ok (left.length, left.length + (opening ++ core ++ closing).length - 1) := by
  obtain ⟨core', hcore⟩ : ∃ core', core = first :: core' := by
    cases core with
    | nil => cases hhead
    | cons x core' =>
      cases hhead
      exact ⟨core', rfl⟩
  obtain ⟨init, hinit⟩ : ∃ init, core = init ++ [last] := List.getLast?_eq_some_iff.mp hlast
  have hfirst : p.order = (left ++ opening) ++ first :: (core' ++ closing ++ right) := by
    rw [horder, hcore]
    simp
  have hlast : p.order = (left ++ opening ++ init) ++ last :: (closing ++ right) := by
    rw [horder, hinit]
    simp
  obtain ⟨entries, hentries, hmin⟩ := portPositions_first nodup hfirst hentry (by
    rw [hcore] at hentries
    simpa using hentries) (.entryOutside id)
  obtain ⟨exits, hexits, hmax⟩ := portPositions_last nodup hlast hexit (by
    rw [hinit] at hexits
    simpa using hexits) (.exitOutside id)
  have hnonempty : ¬ (frame.entries.isEmpty = true ∨ frame.exits.isEmpty = true) := by
    obtain ⟨entry, hentry, _⟩ := hentry
    obtain ⟨exit, hexit, _⟩ := hexit
    simp [List.ne_nil_of_mem hentry, List.ne_nil_of_mem hexit]
  have hle : ¬ (left ++ opening ++ init).length < (left ++ opening).length := by
    simp only [List.length_append]
    omega
  -- the scan steps over the markers of inner loops and stops right behind them
  have hbefore : (p.order.take (left ++ opening).length).reverse.takeWhile
      (p.isInnerMarker .loopBegin id) = opening.reverse := by
    rw [hfirst, List.take_left, List.reverse_append,
      List.takeWhile_append_of_pos fun x hx => hopening x (List.mem_reverse.mp hx)]
    cases hl : left.reverse with
    | nil => simp
    | cons x rest =>
      have hx := hleft x (by rw [List.getLast?_eq_head?_reverse, hl]; rfl)
      simp [hx]
  have hbehind : (p.order.drop ((left ++ opening ++ init).length + 1)).takeWhile
      (p.isInnerMarker .loopEnd id) = closing := by
    have hdrop : p.order.drop ((left ++ opening ++ init).length + 1) = closing ++ right := by
      rw [hlast, ← List.drop_drop, List.drop_left]
      rfl
    rw [hdrop, List.takeWhile_append_of_pos hclosing]
    cases hr : right with
    | nil => simp
    | cons x rest =>
      have hx := hright x (by rw [hr]; rfl)
      simp [hx]
  have hlengths : (opening ++ core ++ closing).length =
      opening.length + init.length + 1 + closing.length := by
    rw [hinit]
    simp only [List.length_append, List.length_singleton]
    omega
  unfold loopSpan
  rw [if_neg hnonempty, hentries, hexits]
  simp only [bind, Except.bind, pure, Except.pure, hmin, hmax, Option.getD_some]
  rw [if_neg hle, hbefore, hbehind]
  simp only [List.length_append, List.length_reverse] at hlengths ⊢
  congr 2 <;> omega

end Program

/-! ### Pieces of a program -/

namespace Nest

variable {outer : List LoopId}

theorem flatten_append (n m : Nest) : (n.append m).flatten = n.flatten ++ m.flatten := by
  induction n with
  | nil => rfl
  | expr id rest ih => simp [append, flatten, ih]
  | loop begin stop body rest _ ih => simp [append, flatten, ih]

theorem begins_append (n m : Nest) : (n.append m).begins = n.begins ++ m.begins := by
  induction n with
  | nil => rfl
  | expr id rest ih => exact ih
  | loop begin stop body rest _ ih => simp [append, begins, ih]

theorem Fits.append {m : Nest} (hn : n.Fits p outer) (hm : m.Fits p outer) : (n.append m).Fits p outer := by
  induction n with
  | nil => exact hm
  | expr id rest ih => exact ⟨hn.1, hn.2.1, ih hn.2.2⟩
  | loop begin stop body rest _ ih => exact ⟨hn.1, hn.2.1, hn.2.2.1, ih hn.2.2.2⟩

/-- The first expression of a nest lists the loops around the nest. -/
theorem Fits.loops_head (h : n.Fits p outer) (hx : n.flatten.head? = some x) : (p.expr x).loops = outer := by
  cases n with
  | nil => cases hx
  | expr id rest =>
    cases hx
    exact h.2.1
  | loop begin stop body rest =>
    cases hx
    exact h.1.2

end Nest

/-- A part of the program that covers a range of the listed expressions. -/
structure Piece where
  /-- The first of these expressions. -/
  first : Nat
  /-- The last one. -/
  last : Nat
  /-- The part with its markers. -/
  nest : Nest

namespace Piece

/-- The expressions of pieces in execution order. -/
def flat (cs : List Piece) : List ExprId := cs.flatMap (·.nest.flatten)

/-- The begin markers in pieces. -/
def begins (cs : List Piece) : List ExprId := cs.flatMap (·.nest.begins)

/-- Pieces one behind the other as one nest. -/
def concat (cs : List Piece) : Nest := cs.foldr (fun c n => c.nest.append n) .nil

@[simp] theorem flat_nil : flat [] = [] := rfl

@[simp] theorem flat_cons (c : Piece) (cs : List Piece) : flat (c :: cs) = c.nest.flatten ++ flat cs := rfl

@[simp] theorem flat_append (cs ds : List Piece) : flat (cs ++ ds) = flat cs ++ flat ds :=
  List.flatMap_append

@[simp] theorem begins_append (cs ds : List Piece) : begins (cs ++ ds) = begins cs ++ begins ds :=
  List.flatMap_append

theorem flatten_concat (cs : List Piece) : (concat cs).flatten = flat cs := by
  induction cs with
  | nil => rfl
  | cons c cs ih => rw [concat, List.foldr_cons, Nest.flatten_append, ← concat, ih, flat_cons]

theorem begins_concat (cs : List Piece) : (concat cs).begins = begins cs := by
  induction cs with
  | nil => rfl
  | cons c cs ih =>
    rw [concat, List.foldr_cons, Nest.begins_append, ← concat, ih]
    rfl

theorem fits_concat {outer : List LoopId} (h : ∀ c ∈ cs, c.nest.Fits p outer) : (concat cs).Fits p outer := by
  induction cs with
  | nil => trivial
  | cons c cs ih =>
    exact (h c List.mem_cons_self).append (ih fun d hd => h d (List.mem_cons_of_mem _ hd))

/-- The pieces cover the expressions from `start` up to `stop`, the latter not included. -/
def Tile (start stop : Nat) : List Piece → Prop
  | [] => start = stop
  | c :: cs => c.first = start ∧ c.first ≤ c.last ∧ Tile (c.last + 1) stop cs

theorem Tile.le (h : Tile start stop cs) : start ≤ stop := by
  induction cs generalizing start with
  | nil => exact Nat.le_of_eq h
  | cons c cs ih =>
    obtain ⟨hfirst, hle, hrest⟩ := h
    have := ih hrest
    omega

theorem Tile.append {middle : Nat} {ds : List Piece} (h : Tile start middle cs) (h' : Tile middle stop ds) :
    Tile start stop (cs ++ ds) := by
  induction cs generalizing start with
  | nil =>
    cases h
    exact h'
  | cons c cs ih => exact ⟨h.1, h.2.1, ih h.2.2⟩

/-- Where no piece stretches over a place, the pieces fall into those before and those behind it. -/
theorem Tile.split (h : Tile start stop cs) (middle : Nat) (hstart : start ≤ middle) (hstop : middle ≤ stop)
    (hcut : ∀ c ∈ cs, c.first < middle → c.last < middle) :
    ∃ before behind, cs = before ++ behind ∧ Tile start middle before ∧ Tile middle stop behind := by
  induction cs generalizing start with
  | nil =>
    have hsame : start = stop := h
    exact ⟨[], [], rfl, by show start = middle; omega, by show middle = stop; omega⟩
  | cons c cs ih =>
    obtain ⟨hfirst, hle, hrest⟩ := h
    rcases Nat.lt_or_ge start middle with hlt | hge
    · have hlast := hcut c List.mem_cons_self (by omega)
      obtain ⟨before, behind, rfl, hbefore, hbehind⟩ := ih hrest hlast
        fun d hd => hcut d (List.mem_cons_of_mem _ hd)
      exact ⟨c :: before, behind, rfl, ⟨hfirst, hle, hbefore⟩, hbehind⟩
    · have hsame : start = middle := Nat.le_antisymm hstart hge
      exact ⟨[], c :: cs, rfl, hsame, by rw [← hsame]; exact ⟨hfirst, hle, hrest⟩⟩

/-- A piece lies in the range that the pieces cover. -/
theorem Tile.mem (h : Tile start stop cs) {c : Piece} (hc : c ∈ cs) :
    start ≤ c.first ∧ c.first ≤ c.last ∧ c.last < stop := by
  induction cs generalizing start with
  | nil => cases hc
  | cons d cs ih =>
    obtain ⟨hfirst, hle, hrest⟩ := h
    rcases List.mem_cons.mp hc with rfl | hc
    · have := hrest.le
      omega
    · have := ih hrest hc
      omega

end Piece

/-- A part of the program begins with begin markers and then the expression `first`, and it ends with
the expression `last` and then end markers. -/
def Program.Edged (p : Program) (part : List ExprId) (first last : ExprId) : Prop :=
  ∃ opening core closing, part = opening ++ core ++ closing ∧
    (∀ x ∈ opening, (p.expr x).role = .loopBegin) ∧ (∀ x ∈ closing, (p.expr x).role = .loopEnd) ∧
    core.head? = some first ∧ core.getLast? = some last

namespace Program.Edged

variable {q : Program} {part part' : List ExprId} {first' last' : ExprId}

theorem append (h : p.Edged part first last) (h' : p.Edged part' first' last') :
    p.Edged (part ++ part') first last' := by
  obtain ⟨opening, core, closing, rfl, hopening, _, hhead, _⟩ := h
  obtain ⟨opening', core', closing', rfl, _, hclosing', _, hlast'⟩ := h'
  refine ⟨opening, core ++ (closing ++ opening') ++ core', closing', by simp, hopening, hclosing', ?_, ?_⟩
  · rw [List.append_assoc, List.head?_append, hhead, Option.some_or]
  · rw [List.getLast?_append, hlast', Option.some_or]

/-- Markers around a part with edges. -/
theorem wrap (h : p.Edged part first last) {begin stop : ExprId}
    (hbegin : (p.expr begin).role = .loopBegin) (hstop : (p.expr stop).role = .loopEnd) :
    p.Edged (begin :: (part ++ [stop])) first last := by
  obtain ⟨opening, core, closing, rfl, hopening, hclosing, hhead, hlast⟩ := h
  refine ⟨begin :: opening, core, closing ++ [stop], by simp, ?_, ?_, hhead, hlast⟩
  · rintro x hx
    rcases List.mem_cons.mp hx with rfl | hx
    · exact hbegin
    · exact hopening x hx
  · rintro x hx
    rcases List.mem_append.mp hx with hx | hx
    · exact hclosing x hx
    · rw [List.mem_singleton.mp hx]
      exact hstop

theorem congr (h : p.Edged part first last) (hrole : ∀ x ∈ part, (q.expr x).role = (p.expr x).role) :
    q.Edged part first last := by
  obtain ⟨opening, core, closing, rfl, hopening, hclosing, hedges⟩ := h
  refine ⟨opening, core, closing, rfl, fun x hx => ?_, fun x hx => ?_, hedges⟩
  · rw [hrole x (by simp [hx]), hopening x hx]
  · rw [hrole x (by simp [hx]), hclosing x hx]

/-- The part is not empty. -/
theorem exists_head (h : p.Edged part first last) : ∃ x, part.head? = some x := by
  obtain ⟨opening, core, closing, rfl, _, _, hhead, _⟩ := h
  cases opening with
  | nil => exact ⟨first, by rw [List.nil_append, List.head?_append, hhead, Option.some_or]⟩
  | cons x opening => exact ⟨x, rfl⟩

/-- The part begins with a begin marker or with its first expression. -/
theorem head (h : p.Edged part first last) (hx : part.head? = some x) :
    (p.expr x).role = .loopBegin ∨ x = first := by
  obtain ⟨opening, core, closing, rfl, hopening, _, hhead, _⟩ := h
  cases opening with
  | nil =>
    rw [List.nil_append, List.head?_append, hhead, Option.some_or] at hx
    exact .inr (Option.some.inj hx).symm
  | cons y opening =>
    cases hx
    exact .inl (hopening _ List.mem_cons_self)

/-- The part ends with an end marker or with its last expression. -/
theorem getLast (h : p.Edged part first last) (hx : part.getLast? = some x) :
    (p.expr x).role = .loopEnd ∨ x = last := by
  obtain ⟨opening, core, closing, rfl, _, hclosing, _, hlast⟩ := h
  rw [List.getLast?_append] at hx
  cases hclose : closing.getLast? with
  | none =>
    rw [hclose, Option.none_or, List.getLast?_append, hlast, Option.some_or] at hx
    exact .inr (Option.some.inj hx).symm
  | some y =>
    rw [hclose, Option.some_or] at hx
    cases hx
    exact .inl (hclosing x (List.mem_of_getLast? hclose))

end Program.Edged

/-- Pieces with edges one behind the other have edges. -/
theorem Piece.edged_flat (h : Tile start stop cs) (hne : cs ≠ [])
    (hedged : ∀ c ∈ cs, p.Edged c.nest.flatten c.first c.last) : p.Edged (flat cs) start (stop - 1) := by
  induction cs generalizing start with
  | nil => exact absurd rfl hne
  | cons c cs ih =>
    obtain ⟨rfl, hle, hrest⟩ := h
    have hfirst := hedged c List.mem_cons_self
    cases cs with
    | nil =>
      have hstop : c.last + 1 = stop := hrest
      rw [flat_cons, flat_nil, List.append_nil, ← hstop]
      exact hfirst
    | cons d cs =>
      exact hfirst.append (ih hrest (by simp) fun e he => hedged e (List.mem_cons_of_mem _ he))

end TensorKernel
