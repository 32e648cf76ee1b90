import TensorKernel.Proofs.Loop.MarkLoops

/-!
# Setting up pointers keeps the loops

Setting up the pointer arithmetic of the loops touches nothing but the sizes and distances at their ports.
The ports themselves stay, and so do the work, the steps and the handlers, so a program lists the same
loops as before.
-/

namespace TensorKernel

open Outcome

variable {ls : List ListedLoop} {port port' : LoopPort} {k place : Nat}

/-- Two loops that differ in their pointer arithmetic only. -/
structure UnifiedLoop.Repointed (l l' : UnifiedLoop) : Prop where
  /-- The work stays. -/
  work : l'.work = l.work
  /-- The step stays. -/
  increment : l'.increment = l.increment
  /-- The handlers stay. -/
  handlers : l'.handlers = l.handlers
  /-- The loop is entered where it was. -/
  entries : l'.entries.map (·.port) = l.entries.map (·.port)
  /-- It is left where it was. -/
  exits : l'.exits.map (·.port) = l.exits.map (·.port)

namespace UnifiedLoop

variable {l l' l'' : UnifiedLoop}

theorem Repointed.refl (l : UnifiedLoop) : l.Repointed l := ⟨rfl, rfl, rfl, rfl, rfl⟩

theorem Repointed.trans (h : l.Repointed l') (h' : l'.Repointed l'') : l.Repointed l'' where
  work := h'.work.trans h.work
  increment := h'.increment.trans h.increment
  handlers := h'.handlers.trans h.handlers
  entries := h'.entries.trans h.entries
  exits := h'.exits.trans h.exits

/-- Replacing an item by one that looks the same. -/
theorem map_set_of_eq {α β : Type} {f : α → β} {l : List α} {a b : α} (ha : l[k]? = some a) (hb : f b = f a) :
    (l.set k b).map f = l.map f := by
  refine List.ext_getElem? fun i => ?_
  rw [List.map_set, List.getElem?_set, List.getElem?_map]
  split
  · rename_i hk
    obtain ⟨hlt, _⟩ := List.getElem?_eq_some_iff.mp ha
    rw [← hk, ha, if_pos (by rwa [List.length_map]), Option.map_some, hb]
  · rfl

/-- Replacing a port by one at the same place. -/
theorem repointed_setPort (hk : l.ports[k]? = some port) (hport : port'.port = port.port) :
    l.Repointed (l.setPort k port') := by
  rw [LoopFrame.ports] at hk
  unfold setPort
  split
  · rename_i hlt
    rw [List.getElem?_append_left hlt] at hk
    exact ⟨rfl, rfl, rfl, map_set_of_eq hk hport, rfl⟩
  · rename_i hge
    rw [List.getElem?_append_right (Nat.le_of_not_lt hge)] at hk
    exact ⟨rfl, rfl, rfl, rfl, map_set_of_eq hk hport⟩

/-- Pointer arithmetic does not matter for splitting. -/
theorem Repointed.splittable (h : l.Repointed l') (hl : l.Splittable) : l'.Splittable where
  work := h.work ▸ hl.work
  increment := h.increment ▸ hl.increment
  passive := h.handlers ▸ hl.passive

/-- A port of the one loop is at the place of a port of the other. -/
theorem Repointed.exists_port (h : l.Repointed l') (hport : port ∈ l'.ports) :
    ∃ port' ∈ l.ports, port'.port = port.port := by
  have hports : l'.ports.map (·.port) = l.ports.map (·.port) := by
    rw [LoopFrame.ports, List.map_append, h.entries, h.exits, ← List.map_append]
    rfl
  exact List.mem_map.mp (hports ▸ List.mem_map_of_mem hport)

end UnifiedLoop

/-- Two tables of loops that differ in the pointer arithmetic of the loops only. -/
structure LoopTable.Repointed (t t' : LoopTable) : Prop where
  /-- Ids are bound as they were. -/
  bindings : t'.bindings = t.bindings
  /-- The next id stays. -/
  next : t'.next = t.next
  /-- The unified loops differ in their pointer arithmetic only. -/
  unified : ∀ place, (t.unifiedAt place).Repointed (t'.unifiedAt place)

namespace LoopTable

variable {t t' t'' : LoopTable}

theorem Repointed.refl (t : LoopTable) : t.Repointed t := ⟨rfl, rfl, fun _ => .refl _⟩

theorem Repointed.trans (h : t.Repointed t') (h' : t'.Repointed t'') : t.Repointed t'' where
  bindings := h'.bindings.trans h.bindings
  next := h'.next.trans h.next
  unified place := (h.unified place).trans (h'.unified place)

theorem unifiedAt_modifyUnified (t : LoopTable) (place j : Nat) (f : UnifiedLoop → UnifiedLoop) :
    (t.modifyUnified place f).unifiedAt j =
      if place = j ∧ j < t.unified.size then f (t.unifiedAt j) else t.unifiedAt j := by
  simp only [unifiedAt, modifyUnified, Array.getD_eq_getD_getElem?, Array.getElem?_modify]
  by_cases hj : place = j
  · subst hj
    by_cases hlt : place < t.unified.size
    · simp [hlt]
    · simp [hlt]
  · simp [hj]

/-- Changing the pointer arithmetic of one loop. -/
theorem repointed_modifyUnified {f : UnifiedLoop → UnifiedLoop}
    (hf : (t.unifiedAt place).Repointed (f (t.unifiedAt place))) : t.Repointed (t.modifyUnified place f) := by
  refine ⟨rfl, rfl, fun j => ?_⟩
  rw [unifiedAt_modifyUnified]
  split
  · rename_i hj
    rw [← hj.1]
    exact hf
  · exact .refl _

theorem Repointed.binding? (h : t.Repointed t') (id : LoopId) : t'.binding? id = t.binding? id := by
  rw [LoopTable.binding?, h.bindings, LoopTable.binding?]

theorem Repointed.ids (h : t.Repointed t') : t'.ids = t.ids := by
  rw [LoopTable.ids, h.bindings, LoopTable.ids]

theorem Repointed.tidy (h : t.Repointed t') (ht : t.Tidy) : t'.Tidy where
  nodup := h.ids ▸ ht.nodup
  below id hid := by
    rw [h.next]
    exact ht.below id (h.ids ▸ hid)

end LoopTable

namespace Program

variable {p q : Program}

/-- The pointer arithmetic of a port does not move the port. -/
theorem port_pointerPort {work : Int} (h : p.pointerPort work port = .ok port') : port'.port = port.port := by
  unfold pointerPort at h
  obtain ⟨v, _, h⟩ := except_bind_eq_ok.mp h
  dsimp only at h
  split at h
  · cases h
  · split at h
    · obtain ⟨_, _, h⟩ := except_bind_eq_ok.mp h
      rw [← except_pure_eq_ok.mp h]
    · obtain ⟨_, _, h⟩ := except_bind_eq_ok.mp h
      rw [← except_pure_eq_ok.mp h]

/-- Nothing but the pointer arithmetic of loops differs between two programs. -/
def Repointed (p q : Program) : Prop := q = { p with loops := q.loops } ∧ p.loops.Repointed q.loops

theorem Repointed.refl (p : Program) : p.Repointed p := ⟨rfl, .refl _⟩

theorem Repointed.trans {r : Program} (h : p.Repointed q) (h' : q.Repointed r) : p.Repointed r :=
  ⟨by rw [h'.1, h.1], h.2.trans h'.2⟩

/-- Setting up one port. -/
theorem repointed_initPort (h : Edit.initPort place k p = .ok () q) : p.Repointed q := by
  unfold Edit.initPort at h
  rw [get_bind] at h
  cases hport : (p.loops.unifiedAt place).ports[k]? with
  | some port =>
    rw [hport] at h
    obtain ⟨port', hpointer, h⟩ := ask_bind_eq_ok.mp h
    rw [← modify_eq_ok.mp h]
    exact ⟨rfl, LoopTable.repointed_modifyUnified
      (UnifiedLoop.repointed_setPort hport (port_pointerPort hpointer))⟩
  | none =>
    rw [hport] at h
    obtain ⟨_, rfl⟩ := pure_eq_ok.mp h
    exact .refl p

/-- Setting up all ports of all loops. -/
theorem repointed_initLoops (h : Edit.initLoops p = .ok () q) : p.Repointed q := by
  unfold Edit.initLoops at h
  rw [get_bind] at h
  refine forM_invariant (.refl p) (fun (_, binding) _ u v hu hv => ?_) h
  cases binding with
  | unified place =>
    unfold Edit.initLoop at hv
    obtain ⟨_, _, hget, hv⟩ := bind_eq_ok.mp hv
    obtain ⟨rfl, rfl⟩ := get_eq_ok.mp hget
    refine forM_invariant hu (fun k _ x y hx hy => ?_) hv
    exact hx.trans (repointed_initPort hy)
  | expanded =>
    obtain ⟨_, rfl⟩ := pure_eq_ok.mp hv
    exact hu

/-- A pristine program stays pristine. -/
theorem Repointed.pristine (h : p.Repointed q) (hp : p.Pristine) : q.Pristine := by
  obtain ⟨hq, hloops⟩ := h
  have hexpr : ∀ x, q.expr x = p.expr x := fun x => by rw [hq]; rfl
  have houtput : ∀ v, q.output? v = p.output? v := fun v => by rw [output?, hexpr, output?]
  refine ⟨?_, hp.wired.of_ports houtput fun x => by rw [hexpr], fun x => by rw [hexpr, hp.original],
    fun v => (aliasGroup_of_output? houtput v).trans (hp.alone v), ?_, fun id b hb => ?_, fun x => ?_⟩
  · rw [hq]
    exact ⟨hp.tidy.valid, hp.tidy.nodup, hp.tidy.named, hp.tidy.room⟩
  · rw [hloops.ids, hloops.next, hp.ids]
  · rw [hloops.binding?] at hb
    obtain ⟨place, rfl, hsplittable⟩ := hp.whole id b hb
    exact ⟨place, rfl, (hloops.unified place).splittable hsplittable⟩
  · rw [hexpr, hloops.ids]
    exact hp.known x

/-- A registered loop of a pristine program differs in its pointer arithmetic only. -/
theorem Repointed.exists_loop (h : p.Repointed q) (hp : p.Pristine) {id : LoopId} {info : LoopInfo}
    (hinfo : p.loops.loop id = .ok info) :
    ∃ l l', info = .unified l ∧ q.loops.loop id = .ok (.unified l') ∧ l.Repointed l' := by
  unfold LoopTable.loop at hinfo
  split at hinfo
  · rename_i b hb
    cases hinfo
    obtain ⟨place, rfl, _⟩ := hp.whole id b hb
    refine ⟨p.loops.unifiedAt place, q.loops.unifiedAt place, rfl, ?_, h.2.unified place⟩
    rw [LoopTable.loop, h.2.binding?, hb]
    rfl
  · cases hinfo

/-- A program lists the loops that it listed. -/
theorem Repointed.listed (h : p.Repointed q) (hp : p.Listed ls) : q.Listed ls := by
  have hexpr : ∀ x, q.expr x = p.expr x := fun x => by rw [h.1]; rfl
  have hsize : q.exprs.size = p.exprs.size := by rw [h.1]
  have hvalue : ∀ r, q.value r = p.value r := fun r => by rw [h.1]; rfl
  refine ⟨h.pristine hp.pristine, ?_, fun x => by rw [hexpr]; exact hp.earlier x, ?_, ?_, hp.nested,
    fun x hx => by rw [hexpr]; exact hp.loops x (hsize ▸ hx), fun l hl => ?_⟩
  · rw [hsize, h.1, ← hp.order]
  · rw [h.2.ids, hp.ids]
  · rw [hsize]
    exact hp.inside
  · obtain ⟨info, hinfo, hports⟩ := hp.ports l hl
    obtain ⟨loop, loop', rfl, hloop', hrepointed⟩ := h.exists_loop hp.pristine hinfo
    refine ⟨_, hloop', fun port hport => ?_⟩
    obtain ⟨port', hport', hsame⟩ := hrepointed.exists_port hport
    rw [hvalue, ← hsame]
    exact hports port' hport'

/-- Loops that are entered at their first expressions and left at their last ones stay so. -/
theorem Repointed.snug (h : p.Repointed q) (hp : p.Listed ls) (hsnug : p.Snug ls) : q.Snug ls := by
  intro l hl info hinfo
  obtain ⟨info₀, hinfo₀, _⟩ := hp.ports l hl
  obtain ⟨loop, loop', rfl, hloop', hrepointed⟩ := h.exists_loop hp.pristine hinfo₀
  obtain rfl : LoopInfo.unified loop' = info := Except.ok.inj (hloop'.symm.trans hinfo)
  obtain ⟨⟨entry, hentry, hfirst⟩, exit, hexit, hlast⟩ := hsnug l hl _ hinfo₀
  obtain ⟨entry', hentry', he⟩ := List.mem_map.mp (hrepointed.entries ▸ List.mem_map_of_mem hentry)
  obtain ⟨exit', hexit', hx⟩ := List.mem_map.mp (hrepointed.exits ▸ List.mem_map_of_mem hexit)
  exact ⟨⟨entry', hentry', by rw [he, hfirst]⟩, exit', hexit', by rw [hx, hlast]⟩

end Program

end TensorKernel
