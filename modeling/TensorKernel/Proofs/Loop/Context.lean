import TensorKernel.Proofs.Loop.Nest

/-!
# Places in a nest

A loop of a nest is looked at together with what stands around it: a list of frames, the innermost
first, each of which holds what comes before the place on its level, or a loop that the place is in.
Filling the place with another nest changes the program there and nowhere else.
-/

namespace TensorKernel

variable {b x : ExprId} {c : List Frame} {n : Nest} {p : Program}

/-- One step from a place in a nest towards the whole nest. -/
inductive Frame where
  /-- Behind an expression. -/
  | expr (id : ExprId)
  /-- Behind a loop. -/
  | after (begin stop : ExprId) (body : Nest)
  /-- In a loop, with what follows the loop. -/
  | inside (begin stop : ExprId) (rest : Nest)

namespace Frame

/-- The nest that a nest becomes part of. -/
def wrap : Frame → Nest → Nest
  | expr id, n => .expr id n
  | after begin stop body, n => .loop begin stop body n
  | inside begin stop rest, n => .loop begin stop n rest

/-- The expressions before the place. -/
def left : Frame → List ExprId
  | expr id => [id]
  | after begin stop body => begin :: (body.flatten ++ [stop])
  | inside begin _ _ => [begin]

/-- The expressions behind the place. -/
def right : Frame → List ExprId
  | inside _ stop rest => stop :: rest.flatten
  | _ => []

theorem flatten_wrap (f : Frame) (n : Nest) : (f.wrap n).flatten = f.left ++ n.flatten ++ f.right := by
  cases f with
  | expr id => simp [wrap, left, right, Nest.flatten]
  | after begin stop body => simp [wrap, left, right, Nest.flatten]
  | inside begin stop rest => simp [wrap, left, right, Nest.flatten]

end Frame

namespace Nest

/-- The begin markers of the loops, a loop before the loops in it. -/
def begins : Nest → List ExprId
  | nil => []
  | expr _ rest => rest.begins
  | loop begin _ body rest => begin :: (body.begins ++ rest.begins)

/-- The loops of the spans are those of the begin markers. -/
theorem map_loop_spans (n : Nest) (p : Program) (position : Nat) :
    (n.spans p position).map (·.loop) = n.begins.map fun b => (p.expr b).loop := by
  induction n generalizing position with
  | nil => rfl
  | expr id rest ih => exact ih _
  | loop begin stop body rest ihb ihr =>
    simp only [spans, begins, List.map_cons, List.map_append, ihb, ihr]

theorem begins_subset_flatten (h : b ∈ n.begins) : b ∈ n.flatten := by
  induction n with
  | nil => cases h
  | expr id rest ih => exact List.mem_cons_of_mem _ (ih h)
  | loop begin stop body rest ihb ihr =>
    simp only [begins, List.mem_cons, List.mem_append] at h
    simp only [flatten, List.mem_cons, List.mem_append]
    rcases h with rfl | h | h
    · exact .inl rfl
    · exact .inr (.inl (ihb h))
    · exact .inr (.inr (.inr (ihr h)))

/-- Change the expressions of a nest. -/
def map (f : ExprId → ExprId) : Nest → Nest
  | nil => nil
  | expr id rest => expr (f id) (rest.map f)
  | loop begin stop body rest => loop (f begin) (f stop) (body.map f) (rest.map f)

theorem flatten_map (f : ExprId → ExprId) (n : Nest) : (n.map f).flatten = n.flatten.map f := by
  induction n with
  | nil => rfl
  | expr id rest ih => simp [map, flatten, ih]
  | loop begin stop body rest ihb ihr => simp [map, flatten, ihb, ihr]

theorem begins_map (f : ExprId → ExprId) (n : Nest) : (n.map f).begins = n.begins.map f := by
  induction n with
  | nil => rfl
  | expr id rest ih => exact ih
  | loop begin stop body rest ihb ihr => simp [map, begins, ihb, ihr]

theorem map_id (n : Nest) : n.map id = n := by
  induction n with
  | nil => rfl
  | expr _ rest ih => rw [map, ih, id]
  | loop _ _ body rest ihb ihr => rw [map, ihb, ihr, id, id]

variable {q : Program} {outer : List LoopId}

theorem Fits.role_begin (h : n.Fits p outer) (hx : x ∈ n.begins) : (p.expr x).role = .loopBegin := by
  induction n generalizing outer with
  | nil => cases hx
  | expr id rest ih => exact ih h.2.2 hx
  | loop begin stop body rest ihb ihr =>
    obtain ⟨⟨hbegin, _⟩, _, hbody, hrest⟩ := h
    simp only [begins, List.mem_cons, List.mem_append] at hx
    rcases hx with rfl | hx | hx
    · exact hbegin
    · exact ihb hbody hx
    · exact ihr hrest hx

/-- Every begin marker begins a loop of the nest, and every other marker ends one. -/
theorem Fits.exists_begin (h : n.Fits p outer) (hx : x ∈ n.flatten)
    (hr : (p.expr x).role.isLoopMarker = true) :
    ∃ b ∈ n.begins, (p.expr b).loop = (p.expr x).loop ∧ ((p.expr x).role = .loopBegin → b = x) := by
  induction n generalizing outer with
  | nil => cases hx
  | expr id rest ih =>
    obtain ⟨hmarker, _, hrest⟩ := h
    rcases List.mem_cons.mp hx with rfl | hx
    · rw [hr] at hmarker
      cases hmarker
    · exact ih hrest hx
  | loop begin stop body rest ihb ihr =>
    obtain ⟨_, ⟨hstop, _, hloop⟩, hbody, hrest⟩ := h
    simp only [flatten, List.mem_cons, List.mem_append] at hx
    simp only [begins, List.mem_cons, List.mem_append]
    rcases hx with rfl | hx | rfl | hx
    · exact ⟨x, .inl rfl, rfl, fun _ => rfl⟩
    · obtain ⟨b, hb, hbx⟩ := ihb hbody hx
      exact ⟨b, .inr (.inl hb), hbx⟩
    · refine ⟨begin, .inl rfl, hloop.symm, fun hbegin => ?_⟩
      rw [hstop] at hbegin
      cases hbegin
    · obtain ⟨b, hb, hbx⟩ := ihr hrest hx
      exact ⟨b, .inr (.inr hb), hbx⟩

/-- Every expression of a nest lists the loops around the nest first. -/
theorem Fits.prefix_loops (h : n.Fits p outer) (hx : x ∈ n.flatten) : outer <+: (p.expr x).loops := by
  induction n generalizing outer with
  | nil => cases hx
  | expr id rest ih =>
    obtain ⟨_, hloops, hrest⟩ := h
    rcases List.mem_cons.mp hx with rfl | hx
    · exact hloops.symm ▸ List.prefix_rfl
    · exact ih hrest hx
  | loop begin stop body rest ihb ihr =>
    obtain ⟨⟨_, hbegin⟩, ⟨_, hstop, _⟩, hbody, hrest⟩ := h
    simp only [flatten, List.mem_cons, List.mem_append] at hx
    rcases hx with rfl | hx | rfl | hx
    · exact hbegin.symm ▸ List.prefix_rfl
    · exact (List.prefix_append ..).trans (ihb hbody hx)
    · exact hstop.symm ▸ List.prefix_rfl
    · exact ihr hrest hx

/-- Renaming the expressions and the loops of a nest. -/
theorem Fits.map (h : n.Fits p outer) {f : ExprId → ExprId} {g : LoopId → LoopId}
    (hexpr : ∀ x ∈ n.flatten, (q.expr (f x)).role = (p.expr x).role ∧
      (q.expr (f x)).loops = (p.expr x).loops.map g ∧
      ((p.expr x).role.isLoopMarker = true → (q.expr (f x)).loop = g (p.expr x).loop)) :
    (n.map f).Fits q (outer.map g) := by
  induction n generalizing outer with
  | nil => trivial
  | expr id rest ih =>
    obtain ⟨hmarker, hloops, hrest⟩ := h
    obtain ⟨hrole, hlist, _⟩ := hexpr id (List.mem_cons_self ..)
    refine ⟨hrole ▸ hmarker, by rw [hlist, hloops], ih hrest fun x hx => ?_⟩
    exact hexpr x (List.mem_cons_of_mem _ hx)
  | loop begin stop body rest ihb ihr =>
    obtain ⟨⟨hbegin, hbl⟩, ⟨hstop, hsl, hloop⟩, hbody, hrest⟩ := h
    simp only [flatten, List.mem_cons, List.mem_append] at hexpr
    obtain ⟨hbr, hblist, hbloop⟩ := hexpr begin (.inl rfl)
    obtain ⟨hsr, hslist, hsloop⟩ := hexpr stop (.inr (.inr (.inl rfl)))
    have hbm := hbloop (by rw [hbegin]; rfl)
    have hsm := hsloop (by rw [hstop]; rfl)
    refine ⟨⟨hbr.trans hbegin, by rw [hblist, hbl]⟩,
      ⟨hsr.trans hstop, by rw [hslist, hsl], by rw [hsm, hbm, hloop]⟩, ?_, ?_⟩
    · have := ihb hbody fun x hx => hexpr x (.inr (.inl hx))
      rwa [List.map_append, List.map_singleton, ← hbm] at this
    · exact ihr hrest fun x hx => hexpr x (.inr (.inr (.inr hx)))

/-- Whether a nest has the right expressions depends on their headers only. -/
theorem Fits.congr (h : n.Fits p outer)
    (hexpr : ∀ x ∈ n.flatten, (q.expr x).role = (p.expr x).role ∧
      (q.expr x).loops = (p.expr x).loops ∧ (q.expr x).loop = (p.expr x).loop) :
    n.Fits q outer := by
  have hmap := h.map (f := id) (g := id) fun x hx => by
    obtain ⟨hrole, hloops, hloop⟩ := hexpr x hx
    exact ⟨hrole, by rw [List.map_id, id, hloops], fun _ => hloop⟩
  rwa [map_id, List.map_id] at hmap

/-- The whole nest with `n` at a place. -/
def plug (n : Nest) : List Frame → Nest
  | [] => n
  | f :: c => (f.wrap n).plug c

/-- A loop of a nest stands at some place. -/
theorem exists_plug (h : b ∈ n.begins) (c : List Frame) :
    ∃ stop body rest c', n.plug c = (loop b stop body rest).plug c' := by
  induction n generalizing c with
  | nil => cases h
  | expr id rest ih => exact ih h (.expr id :: c)
  | loop begin stop body rest ihb ihr =>
    simp only [begins, List.mem_cons, List.mem_append] at h
    rcases h with rfl | h | h
    · exact ⟨stop, body, rest, c, rfl⟩
    · exact ihb h (.inside begin stop rest :: c)
    · exact ihr h (.after begin stop body :: c)

end Nest

namespace Context

/-- The expressions before the place. -/
def left : List Frame → List ExprId
  | [] => []
  | f :: c => left c ++ f.left

/-- The expressions behind the place. -/
def right : List Frame → List ExprId
  | [] => []
  | f :: c => f.right ++ right c

/-- The begin markers before the place. -/
def leftBegins : List Frame → List ExprId
  | [] => []
  | .expr _ :: c => leftBegins c
  | .after begin _ body :: c => leftBegins c ++ begin :: body.begins
  | .inside begin _ _ :: c => leftBegins c ++ [begin]

/-- The begin markers behind the place. -/
def rightBegins : List Frame → List ExprId
  | [] => []
  | .inside _ _ rest :: c => rest.begins ++ rightBegins c
  | _ :: c => rightBegins c

/-- The loops that the place is in, the outermost first. -/
def path (p : Program) : List Frame → List LoopId
  | [] => []
  | .inside begin _ _ :: c => path p c ++ [(p.expr begin).loop]
  | _ :: c => path p c

/-- Whether a context has the right expressions. -/
def Fits (p : Program) : List Frame → Prop
  | [] => True
  | .expr id :: c =>
    ((p.expr id).role.isLoopMarker = false ∧ (p.expr id).loops = path p c) ∧ Fits p c
  | .after begin stop body :: c => (Nest.loop begin stop body .nil).Fits p (path p c) ∧ Fits p c
  | .inside begin stop rest :: c =>
    ((Nest.loop begin stop .nil .nil).Fits p (path p c) ∧ rest.Fits p (path p c)) ∧ Fits p c

theorem flatten_plug (n : Nest) (c : List Frame) :
    (n.plug c).flatten = left c ++ n.flatten ++ right c := by
  induction c generalizing n with
  | nil => simp [Nest.plug, left, right]
  | cons f c ih => simp only [Nest.plug, ih, f.flatten_wrap, left, right, List.append_assoc]

theorem begins_plug (n : Nest) (c : List Frame) :
    (n.plug c).begins = leftBegins c ++ n.begins ++ rightBegins c := by
  induction c generalizing n with
  | nil => simp [Nest.plug, leftBegins, rightBegins]
  | cons f c ih =>
    rw [Nest.plug, ih]
    cases f with
    | expr id => rfl
    | after begin stop body => simp [Frame.wrap, Nest.begins, leftBegins, rightBegins]
    | inside begin stop rest => simp [Frame.wrap, Nest.begins, leftBegins, rightBegins]

/-- A loop before the place adds its begin markers. -/
theorem begins_plug_after (n : Nest) (b e : ExprId) (body : Nest) (c : List Frame) :
    (n.plug (.after b e body :: c)).begins.Perm (b :: body.begins ++ (n.plug c).begins) := by
  have hleft : (n.plug (.after b e body :: c)).begins =
      leftBegins c ++ (b :: body.begins ++ (n.begins ++ rightBegins c)) := by
    rw [begins_plug, leftBegins, List.append_assoc, List.append_assoc]
    rfl
  rw [hleft, begins_plug, List.append_assoc]
  exact List.perm_append_comm_assoc ..

/-- A nest is right when the context of a place is and what stands there is. -/
theorem fits_plug : (n.plug c).Fits p [] ↔ n.Fits p (path p c) ∧ Fits p c := by
  induction c generalizing n with
  | nil => simp [Nest.plug, path, Fits]
  | cons f c ih =>
    rw [Nest.plug, ih]
    cases f with
    | expr id => simp only [Frame.wrap, Nest.Fits, path, Fits]; tauto
    | after begin stop body => simp only [Frame.wrap, Nest.Fits, path, Fits]; tauto
    | inside begin stop rest => simp only [Frame.wrap, Nest.Fits, path, Fits]; tauto

/-- The loops that a place is in begin before it. -/
theorem mem_path {l : LoopId} (h : l ∈ path p c) : ∃ b ∈ leftBegins c, (p.expr b).loop = l := by
  induction c with
  | nil => cases h
  | cons f c ih =>
    cases f with
    | expr id => exact ih h
    | after begin stop body =>
      obtain ⟨b, hb, hl⟩ := ih h
      exact ⟨b, List.mem_append_left _ hb, hl⟩
    | inside begin stop rest =>
      rcases List.mem_append.mp h with h | h
      · obtain ⟨b, hb, hl⟩ := ih h
        exact ⟨b, List.mem_append_left _ hb, hl⟩
      · exact ⟨begin, by simp [leftBegins], (List.mem_singleton.mp h).symm⟩

/-- The spans at a place are spans of the whole nest. -/
theorem mem_spans_plug {s : Span} {position : Nat} (h : s ∈ n.spans p (position + (left c).length)) :
    s ∈ (n.plug c).spans p position := by
  induction c generalizing n with
  | nil => exact h
  | cons f c ih =>
    refine ih ?_
    rw [left, List.length_append, ← Nat.add_assoc] at h
    cases f with
    | expr id => exact h
    | after begin stop body =>
      refine List.mem_cons_of_mem _ (List.mem_append_right _ ?_)
      simpa [Frame.left, Nat.add_assoc, Nat.add_comm, Nat.add_left_comm] using h
    | inside begin stop rest => exact List.mem_cons_of_mem _ (List.mem_append_left _ h)

end Context

/-- The nest of a program depends on the order and the headers of its expressions only. -/
theorem Program.WellNested.congr {q : Program} (h : p.WellNested n) (horder : q.order = p.order)
    (hexpr : ∀ x ∈ p.order, (q.expr x).role = (p.expr x).role ∧
      (q.expr x).loops = (p.expr x).loops ∧ (q.expr x).loop = (p.expr x).loop) : q.WellNested n := by
  refine ⟨h.flatten.trans horder.symm, h.fits.congr fun x hx => hexpr x (h.flatten ▸ hx), ?_⟩
  have hloops : (n.spans q 0).map (·.loop) = (n.spans p 0).map (·.loop) := by
    rw [Nest.map_loop_spans, Nest.map_loop_spans]
    exact List.map_congr_left fun x hx =>
      (hexpr x (h.flatten ▸ Nest.begins_subset_flatten hx)).2.2
  rw [hloops]
  exact h.nodup

end TensorKernel
