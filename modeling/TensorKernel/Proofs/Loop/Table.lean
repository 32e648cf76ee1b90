import TensorKernel.Proofs.Loop.Run

/-!
# Tables of loops

In a tidy table the ids are different and below the next id. Binding the next id changes what no
other id is bound to, and so does binding an id anew. A part of a loop runs over its own share of the
work, and a copy of a part runs like the part.
-/

namespace TensorKernel.LoopTable

variable {b : LoopBinding} {id : LoopId} {origin : Nat} {whole : UnifiedLoop} {v : Variant}

/-- The ids of a table are different and have been given out. -/
structure Tidy (t : LoopTable) : Prop where
  /-- No id is bound twice. -/
  nodup : t.ids.Nodup
  /-- All ids are below the next one. -/
  below : ∀ id : Int, id ∈ t.ids → id < t.next

variable {t : LoopTable}

theorem mem_ids_iff : id ∈ t.ids ↔ ∃ b, t.binding? id = some b := by
  rw [ids, binding?, ← Option.isSome_iff_exists, List.lookup_isSome_iff, List.mem_map]
  constructor
  · rintro ⟨e, he, rfl⟩
    exact ⟨e, he, beq_self_eq_true _⟩
  · rintro ⟨e, he, hid⟩
    exact ⟨e, he, (beq_iff_eq.mp hid).symm⟩

/-- A loop that is found is registered. -/
theorem mem_ids_of_loop {info : LoopInfo} (h : t.loop id = .ok info) : id ∈ t.ids := by
  unfold loop at h
  split at h
  · exact mem_ids_iff.mpr ⟨_, ‹_›⟩
  · cases h

theorem Tidy.lt_next (h : t.Tidy) {id : Int} (hb : t.binding? id = some b) : id < t.next :=
  h.below id (mem_ids_iff.mpr ⟨b, hb⟩)

/-- The next id is bound, and nothing else changes. -/
theorem binding?_bindNext (h : t.Tidy) (b : LoopBinding) (id : LoopId) :
    (t.bindNext b).2.binding? id = if id = t.next then some b else t.binding? id := by
  have hnext : t.binding? t.next = none := by
    refine Option.eq_none_iff_forall_ne_some.mpr fun b hb => ?_
    exact Int.lt_irrefl _ (h.lt_next hb)
  simp only [binding?, bindNext, List.lookup_append] at hnext ⊢
  by_cases hid : id = t.next
  · rw [if_pos hid, hid, hnext, Option.none_or, List.lookup_cons_self]
  · have hne : (id == (t.next : LoopId)) = false := beq_eq_false_iff_ne.mpr hid
    rw [if_neg hid, List.lookup_cons, hne]
    simp

theorem mem_ids_bindNext : id ∈ (t.bindNext b).2.ids ↔ id ∈ t.ids ∨ id = t.next := by
  rw [ids, bindNext, List.map_append, List.mem_append, ids, List.map_cons, List.map_nil,
    List.mem_singleton]

theorem Tidy.bindNext (h : t.Tidy) (b : LoopBinding) : (t.bindNext b).2.Tidy where
  nodup := by
    rw [ids, LoopTable.bindNext, List.map_append, List.nodup_append]
    refine ⟨h.nodup, List.nodup_singleton _, ?_⟩
    intro x hx y hy he
    rw [List.map_cons, List.map_nil, List.mem_singleton] at hy
    exact Int.ne_of_lt (h.below x hx) (he.trans hy)
  below id hid := by
    change id < ((t.next + 1 : Nat) : Int)
    rcases mem_ids_bindNext.mp hid with hid | hid
    · have := h.below id hid
      omega
    · have hnext : id = (t.next : Int) := hid
      omega

/-- An id that is bound anew; nothing else changes. -/
theorem binding?_rebind (t : LoopTable) (id : LoopId) (b : LoopBinding) (j : LoopId) :
    (t.rebind id b).binding? j =
      if j = id then (t.binding? id).map fun _ => b else t.binding? j := by
  simp only [binding?, rebind]
  induction t.bindings with
  | nil => simp
  | cons e bindings ih =>
    rw [List.map_cons, List.lookup_cons, List.lookup_cons, List.lookup_cons, ih]
    by_cases he : e.1 = id
    · by_cases hj : j = id
      · simp [he, hj]
      · have hne : (j == id) = false := beq_eq_false_iff_ne.mpr hj
        simp [he, hj, hne]
    · by_cases hj : j = id
      · have hne : (id == e.1) = false := beq_eq_false_iff_ne.mpr fun h => he h.symm
        simp [he, hj, hne]
      · simp [he, hj]

theorem ids_rebind (t : LoopTable) (id : LoopId) (b : LoopBinding) : (t.rebind id b).ids = t.ids := by
  rw [ids, rebind, List.map_map, ids]
  refine List.map_congr_left fun e _ => ?_
  by_cases he : e.1 = id
  · simp [he]
  · simp [he]

theorem Tidy.rebind (h : t.Tidy) (id : LoopId) (b : LoopBinding) : (t.rebind id b).Tidy where
  nodup := ids_rebind t id b ▸ h.nodup
  below j hj := h.below j (ids_rebind t id b ▸ hj)

/-- Binding an id to what it is bound to changes nothing. -/
theorem rebind_self (h : t.Tidy) (hb : t.binding? id = some b) : t.rebind id b = t := by
  have hbindings : ∀ l : List (LoopId × LoopBinding), (l.map Prod.fst).Nodup →
      (∀ x, l.lookup id = some x → x = b) →
      (l.map fun e => if e.1 = id then (id, b) else e) = l := by
    intro l hnodup hl
    induction l with
    | nil => rfl
    | cons e l ih =>
      obtain ⟨he, hnodup⟩ := List.nodup_cons.mp hnodup
      rw [List.map_cons]
      by_cases hid : e.1 = id
      · have hb : e.2 = b := hl e.2 (by rw [List.lookup_cons, hid, beq_self_eq_true])
        have hnone : l.lookup id = none := by
          rw [List.lookup_eq_none_iff]
          intro x hx
          exact bne_iff_ne.mpr fun h => he (hid ▸ h ▸ List.mem_map_of_mem hx)
        rw [if_pos hid, ih hnodup (by simp [hnone]), ← hid, ← hb]
      · have hne : (id == e.1) = false := beq_eq_false_iff_ne.mpr fun h => hid h.symm
        rw [if_neg hid, ih hnodup fun x hx => hl x (by rw [List.lookup_cons, hne]; exact hx)]
  rw [rebind, hbindings t.bindings h.nodup fun x hx => Option.some.inj (hx.symm.trans hb)]

/-- How a loop runs depends on what its id is bound to. -/
theorem course_congr {t' : LoopTable} (hb : t'.binding? id = t.binding? id) (hu : t'.unified = t.unified) :
    t'.course id = t.course id := by
  simp only [course, hb, unifiedAt, hu]

/-- How an earlier part of a loop runs. -/
theorem course_earlierPart {copies : List (ExprId × ExprId)}
    (h : t.binding? id = some (.expanded (whole.earlierPart origin v copies))) :
    t.course id = ⟨origin, v.chunks, whole.ports.map (·.ptrIncrement), whole.ports.map fun _ => 0⟩ := by
  simp only [course, h]
  rfl

/-- How the last part of a loop runs. -/
theorem course_lastPart (h : t.binding? id = some (.expanded (whole.lastPart origin v))) :
    t.course id = ⟨origin, v.chunks, whole.ports.map (·.ptrIncrement),
      whole.ports.map (·.finalizationOffset)⟩ := by
  simp only [course, h]
  rfl

end TensorKernel.LoopTable
