import TensorKernel.Proofs.Loop.Listed

/-!
# Registering loops

A new loop gets the next id, and the expressions that it covers list it behind the loops that they list
already. If it lies inside the earlier loops or apart from them, the program goes on to list its loops.
-/

namespace TensorKernel

namespace LoopTable

variable {t : LoopTable} {l : UnifiedLoop}

theorem ids_addUnified (t : LoopTable) (l : UnifiedLoop) :
    (t.addUnified l).2.ids = t.ids ++ [(t.next : LoopId)] := by
  rw [ids, addUnified, bindNext, List.map_append]
  rfl

theorem binding?_addUnified (h : t.Tidy) (l : UnifiedLoop) (id : LoopId) :
    (t.addUnified l).2.binding? id =
      if id = t.next then some (.unified t.unified.size) else t.binding? id :=
  binding?_bindNext (t := { t with unified := t.unified.push l }) ⟨h.nodup, h.below⟩ _ _

theorem unifiedAt_addUnified (t : LoopTable) (l : UnifiedLoop) (place : Nat) :
    (t.addUnified l).2.unifiedAt place = if place = t.unified.size then l else t.unifiedAt place := by
  show (t.unified.push l).getD place default = _
  rw [unifiedAt, Array.getD_eq_getD_getElem?, Array.getD_eq_getD_getElem?, Array.getElem?_push]
  split <;> rfl

/-- A loop that can be split is there. -/
theorem ne_size_of_splittable {place : Nat} (h : (t.unifiedAt place).Splittable) :
    place ≠ t.unified.size := by
  rintro rfl
  have hpositive := h.increment
  rw [unifiedAt, Array.getD_eq_getD_getElem?, Array.getElem?_size] at hpositive
  exact absurd hpositive (by decide)

end LoopTable

namespace Program

variable {p q : Program}

/-- A loop that can be split may be registered. -/
theorem Pristine.addUnified (h : p.Pristine) {l : UnifiedLoop} (hl : l.Splittable) :
    ({ p with loops := (p.loops.addUnified l).2 } : Program).Pristine := by
  have hbinding := LoopTable.binding?_addUnified h.table l
  have hunified := p.loops.unifiedAt_addUnified l
  refine ⟨⟨h.tidy.valid, h.tidy.nodup, h.tidy.named, h.tidy.room⟩,
    h.wired.of_ports (fun _ => rfl) fun _ => rfl, h.original, h.alone, ?_, fun id b hb => ?_,
    fun x => ?_⟩
  · show (p.loops.addUnified l).2.ids = _
    rw [LoopTable.ids_addUnified, h.ids]
    show _ = (List.range (p.loops.next + 1)).map _
    rw [List.range_succ, List.map_append, List.map_singleton]
  · change (p.loops.addUnified l).2.binding? id = some b at hb
    rw [hbinding] at hb
    split at hb
    · cases hb
      exact ⟨_, rfl, by rw [hunified, if_pos rfl]; exact hl⟩
    · obtain ⟨place, rfl, hsplittable⟩ := h.whole id b hb
      refine ⟨place, rfl, ?_⟩
      rw [hunified, if_neg (LoopTable.ne_size_of_splittable hsplittable)]
      exact hsplittable
  · refine (h.known x).imp_right fun hx => ?_
    show _ ∈ (p.loops.addUnified l).2.ids
    rw [LoopTable.ids_addUnified]
    exact List.mem_append_left _ hx

/-- The loops that were registered before stay. -/
theorem Pristine.loop_addUnified (h : p.Pristine) (l : UnifiedLoop) {id : LoopId} {info : LoopInfo}
    (hinfo : p.loops.loop id = .ok info) : (p.loops.addUnified l).2.loop id = .ok info := by
  unfold LoopTable.loop at hinfo ⊢
  cases hb : p.loops.binding? id with
  | none =>
    rw [hb] at hinfo
    cases hinfo
  | some b =>
    rw [hb] at hinfo
    obtain ⟨place, rfl, hsplittable⟩ := h.whole id b hb
    have hne : id ≠ (p.loops.next : LoopId) := Int.ne_of_lt (h.table.lt_next hb)
    rw [LoopTable.binding?_addUnified h.table, if_neg hne, hb]
    simp only [LoopTable.resolve, LoopTable.unifiedAt_addUnified,
      if_neg (LoopTable.ne_size_of_splittable hsplittable)] at hinfo ⊢
    exact hinfo

/-- The new loop is found under its id. -/
theorem Pristine.loop_addUnified_next (h : p.Pristine) (l : UnifiedLoop) :
    (p.loops.addUnified l).2.loop p.loops.next = .ok (.unified l) := by
  rw [LoopTable.loop, LoopTable.binding?_addUnified h.table, if_pos rfl]
  simp only [LoopTable.resolve, LoopTable.unifiedAt_addUnified, if_pos]

/-- The value at a port depends on the ports of the expression only. -/
theorem value_congr {r : PortRef} (houtputs : (q.expr r.expr).outputs = (p.expr r.expr).outputs)
    (hinputs : (q.expr r.expr).inputs = (p.expr r.expr).inputs) {v : ValueRef}
    (hv : p.value r = .ok v) : q.value r = .ok v := by
  rw [value_eq_ok, HasValue] at hv ⊢
  rwa [houtputs, hinputs]

/-- What registering a loop around the expressions from `first` to `last` does. -/
structure Enclosed (p : Program) (first last : Nat) (l : UnifiedLoop) (q : Program) : Prop where
  /-- Nothing but loops and expressions changes. -/
  rest : q = { p with exprs := q.exprs, loops := (p.loops.addUnified l).2 }
  /-- There are as many expressions. -/
  size : q.exprs.size = p.exprs.size
  /-- The expressions in the range list the loop. -/
  expr : ∀ x, q.expr x = if first ≤ x ∧ x ≤ last then
    { p.expr x with loops := (p.expr x).loops ++ [(p.loops.next : LoopId)] } else p.expr x

theorem enclosed (horder : p.order = List.range p.exprs.size) (first : Nat) {last : Nat}
    (hlast : last < p.exprs.size) (l : UnifiedLoop) :
    p.Enclosed first last l (p.enclose first (last + 1) l).2 := by
  have hpart : (p.order.take (last + 1)).drop first = List.range' first (last + 1 - first) := by
    rw [horder, List.take_range, Nat.min_eq_left hlast, List.range_eq_range', List.drop_range']
    simp
  have hmem : ∀ x, x ∈ List.range' first (last + 1 - first) ↔ first ≤ x ∧ x ≤ last := by
    intro x
    rw [List.mem_range'_1]
    omega
  obtain ⟨hrest, hsize, hexpr⟩ := foldl_modifyExpr
    (List.nodup_range' (s := first) (n := last + 1 - first))
    (fun e => { e with loops := e.loops ++ [(p.loops.next : LoopId)] })
    { p with loops := (p.loops.addUnified l).2 } fun x hx =>
      Nat.lt_of_le_of_lt ((hmem x).mp hx).2 hlast
  rw [← hpart] at hrest hsize hexpr
  refine ⟨hrest, hsize, fun x => (hexpr x).trans ?_⟩
  simp only [hpart, hmem]
  rfl

namespace Enclosed

variable {first last : Nat} {l : UnifiedLoop} (h : p.Enclosed first last l q)

include h

/-- An expression changes in the loops that it lists at most. -/
theorem expr_loops (x : ExprId) : ∃ loops, q.expr x = { p.expr x with loops } := by
  rw [h.expr]
  split
  · exact ⟨_, rfl⟩
  · exact ⟨(p.expr x).loops, rfl⟩

theorem inputs (x : ExprId) : (q.expr x).inputs = (p.expr x).inputs := by
  obtain ⟨loops, hx⟩ := h.expr_loops x
  rw [hx]

theorem outputs (x : ExprId) : (q.expr x).outputs = (p.expr x).outputs := by
  obtain ⟨loops, hx⟩ := h.expr_loops x
  rw [hx]

theorem hasValue (v : ValueRef) : q.HasValue v ↔ p.HasValue v := by
  rw [HasValue, h.outputs, HasValue]

theorem role (x : ExprId) : (q.expr x).role = (p.expr x).role := by
  obtain ⟨loops, hx⟩ := h.expr_loops x
  rw [hx]

theorem group (x : ExprId) : (q.expr x).group = (p.expr x).group := by
  obtain ⟨loops, hx⟩ := h.expr_loops x
  rw [hx]

theorem loops : q.loops = (p.loops.addUnified l).2 := by rw [h.rest]

theorem order : q.order = p.order := by rw [h.rest]

theorem names : q.names = p.names := by rw [h.rest]

/-- The program goes on to list its loops, the new one behind the others. -/
theorem listed {ls : List ListedLoop} (listed : p.Listed ls) (hl : l.Splittable) (hle : first ≤ last)
    (hlast : last < p.exprs.size)
    (hadmits : ∀ a ∈ ls, a.Admits ⟨p.loops.next, first, last⟩)
    (hports : ∀ port ∈ l.ports, (first ≤ port.port.expr ∧ port.port.expr ≤ last) ∧
      ∃ v, p.value port.port = .ok v) :
    q.Listed (ls ++ [⟨p.loops.next, first, last⟩]) := by
  have hpristine : q.Pristine := (listed.pristine.addUnified hl).of_loops
    (by rw [← h.loops]; exact h.rest.trans (by rw [h.loops])) h.size h.expr_loops
  refine ⟨hpristine, ?_, fun x i hi => ?_, ?_, fun a ha => ?_, ?_, fun x hx => ?_, fun a ha => ?_⟩
  · rw [h.order, h.size, listed.order]
  · rw [h.inputs] at hi
    exact listed.earlier x i hi
  · rw [List.map_append, listed.ids, h.loops, LoopTable.ids_addUnified]
    rfl
  · rw [h.size]
    rcases List.mem_append.mp ha with ha | ha
    · exact listed.inside a ha
    · rw [List.mem_singleton.mp ha]
      exact ⟨hle, hlast⟩
  · refine List.pairwise_append.mpr ⟨listed.nested, List.pairwise_singleton .., fun a ha b hb => ?_⟩
    rw [List.mem_singleton.mp hb]
    exact hadmits a ha
  · rw [h.size] at hx
    rw [h.expr, List.filter_append, List.map_append, ← listed.loops x hx]
    by_cases hcovers : first ≤ x ∧ x ≤ last
    · simp [hcovers, ListedLoop.covers]
    · rw [if_neg hcovers]
      simp [ListedLoop.covers, hcovers]
  · rcases List.mem_append.mp ha with ha | ha
    · obtain ⟨info, hinfo, hold⟩ := listed.ports a ha
      refine ⟨info, h.loops ▸ listed.pristine.loop_addUnified l hinfo, fun port hport => ?_⟩
      obtain ⟨hcovers, v, hv⟩ := hold port hport
      exact ⟨hcovers, v, value_congr (h.outputs _) (h.inputs _) hv⟩
    · rw [List.mem_singleton.mp ha]
      refine ⟨.unified l, h.loops ▸ listed.pristine.loop_addUnified_next l, fun port hport => ?_⟩
      obtain ⟨hcovers, v, hv⟩ := hports port hport
      exact ⟨ListedLoop.covers_iff.mpr hcovers, v, value_congr (h.outputs _) (h.inputs _) hv⟩

end Enclosed

end Program

end TensorKernel
