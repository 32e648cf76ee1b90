import Mathlib.Algebra.BigOperators.Group.List.Basic
import Mathlib.Tactic.Ring
import TensorKernel.Proofs.Loop.Pointers

/-!
# Distances of the data pointers

The elements of a tensor are stored in row-major order. By how much the pointer of a port moves per unit
of work follows from where the elements are stored: it is the difference of the positions of two
elements that are neighbours along the dimension of the port. When the loops have been set up, every
port of a unified loop has that distance and the way back over all of the work.
-/

namespace TensorKernel

open Outcome

variable {work : Int} {index shape : List Int} {port : LoopPort} {j k place : Nat}

/-- The position of an element, given by its index in each dimension, in a row-major tensor. -/
def rowMajor (shape index : List Int) : Int :=
  (shape.zip index).foldl (fun position e => position * e.1 + e.2) 0

/-- Positions behind `start` whole tensors of the shape. -/
theorem foldl_rowMajor (hlength : index.length = shape.length) (start : Int) :
    (shape.zip index).foldl (fun position e => position * e.1 + e.2) start =
      start * shape.prod + rowMajor shape index := by
  induction shape generalizing index start with
  | nil => simp [rowMajor]
  | cons size shape ih =>
    cases index with
    | nil => cases hlength
    | cons i index =>
      have hrest := Nat.succ.inj hlength
      rw [rowMajor, List.zip_cons_cons, List.foldl_cons, List.foldl_cons, ih hrest, ih hrest,
        List.prod_cons]
      ring

theorem rowMajor_cons {size i : Int} (hlength : index.length = shape.length) :
    rowMajor (size :: shape) (i :: index) = i * shape.prod + rowMajor shape index := by
  rw [rowMajor, List.zip_cons_cons, List.foldl_cons, foldl_rowMajor hlength]
  ring

/-- One step along a dimension passes over the dimensions inside it. -/
theorem rowMajor_modify (hlength : index.length = shape.length) (hk : k < shape.length) :
    rowMajor shape (index.modify k (· + 1)) = rowMajor shape index + (shape.drop (k + 1)).prod := by
  induction shape generalizing index k with
  | nil => cases hk
  | cons size shape ih =>
    cases index with
    | nil => cases hlength
    | cons i index =>
      have hrest : index.length = shape.length := Nat.succ.inj hlength
      cases k with
      | zero =>
        rw [List.modify_zero_cons, rowMajor_cons hrest, rowMajor_cons hrest, List.drop_succ_cons,
          List.drop_zero]
        ring
      | succ k =>
        rw [List.modify_succ_cons, rowMajor_cons (by rw [List.length_modify, hrest]),
          rowMajor_cons hrest, ih hrest (Nat.lt_of_succ_lt_succ hk), List.drop_succ_cons]
        ring

/-- The distance that a loop with some work passes per unit along dimension `dim` of a tensor, counted
from the innermost one. It is zero without such a dimension, and if there is one element in it that more
than one unit of work shares. Otherwise it is the distance of any two neighbours. -/
def IsDistance (shape : List Int) (dim work distance : Int) : Prop :=
  if dim < 0 ∨ (shape.length : Int) ≤ dim then distance = 0
  else if shape[shape.length - 1 - dim.toNat]? = some 1 ∧ 1 < work then distance = 0
  else ∀ index : List Int, index.length = shape.length →
    rowMajor shape (index.modify (shape.length - 1 - dim.toNat) (· + 1)) - rowMajor shape index =
      distance

/-- A wrapping product is the product, wrapped. -/
theorem foldl_mul_ofInt (l : List Int) (a : Int) :
    l.foldl (fun s d => s * Int64.ofInt d) (Int64.ofInt a) = Int64.ofInt (a * l.prod) := by
  induction l generalizing a with
  | nil => simp
  | cons d l ih => rw [List.foldl_cons, ← Int64.ofInt_mul, ih, List.prod_cons, mul_assoc]

/-- The stride is the distance, up to wrapping. -/
theorem exists_isDistance (shape : List Int) (dim work : Int) :
    ∃ distance, IsDistance shape dim work distance ∧ stride shape dim work = Int64.ofInt distance := by
  unfold IsDistance stride
  split
  · exact ⟨0, rfl, rfl⟩
  · generalize hk : shape.length - 1 - dim.toNat = k
    have hlt : k < shape.length := by omega
    have hdrop := List.drop_eq_getElem_cons hlt
    have hget := List.getElem?_eq_getElem hlt
    generalize shape[k] = size at hdrop hget
    rw [hdrop, hget]
    dsimp only
    by_cases hshared : size = 1 ∧ 1 < work
    · rw [if_pos hshared]
      refine ⟨0, ?_, rfl⟩
      rw [if_pos ⟨congrArg some hshared.1, hshared.2⟩]
    · have hshared' : ¬(some size = some 1 ∧ 1 < work) :=
        fun h => hshared ⟨Option.some.inj h.1, h.2⟩
      rw [if_neg hshared]
      simp only [if_neg hshared']
      refine ⟨(shape.drop (k + 1)).prod, fun index hlength => ?_, ?_⟩
      · rw [rowMajor_modify hlength hlt]
        ring
      · exact (foldl_mul_ofInt _ 1).trans (by rw [one_mul])

/-- What a loop port is about, without its pointer arithmetic. -/
def LoopPort.bare (port : LoopPort) : LoopPort :=
  { port := port.port, incremented := port.incremented, dim := port.dim }

namespace Program

variable {p q r : Program}

/-- The distance that the pointer of a port moves per unit of work: none if it is not incremented, and
otherwise that of its dimension in the shape that is seen at the port. -/
def PortDistance (p : Program) (work : Int) (port : LoopPort) (distance : Int) : Prop :=
  if port.incremented then ∃ seen, p.port port.port = .ok seen ∧
    IsDistance seen.shape port.dim work distance
  else distance = 0

/-- The pointer arithmetic of a port is that of its distance. -/
structure Pointed (p : Program) (work : Int) (port : LoopPort) (distance : Int) : Prop where
  /-- It is the distance of the port. -/
  right : p.PortDistance work port distance
  /-- The pointer moves by it. -/
  increment : port.ptrIncrement = Int64.ofInt distance
  /-- It goes back over all of the work. -/
  offset : port.finalizationOffset = -Int64.ofInt distance * Int64.ofInt work

/-- A port that is set up. -/
theorem pointed_pointerPort {port' : LoopPort} (h : p.pointerPort work port = .ok port') :
    port'.bare = port.bare ∧ ∃ distance, p.Pointed work port' distance := by
  unfold pointerPort at h
  obtain ⟨v, _, h⟩ := except_bind_eq_ok.mp h
  dsimp only at h
  split at h
  · cases h
  · split at h
    · rename_i hmoves
      obtain ⟨increment, hseen, h⟩ := except_bind_eq_ok.mp h
      obtain rfl := except_pure_eq_ok.mp h
      cases hport : p.port port.port with
      | error =>
        rw [hport] at hseen
        cases hseen
      | ok seen =>
        rw [hport] at hseen
        cases hseen
        obtain ⟨distance, hdistance, hstride⟩ := exists_isDistance seen.shape port.dim work
        refine ⟨rfl, distance, ?_, hstride, by rw [← hstride]⟩
        rw [PortDistance, if_pos hmoves]
        exact ⟨seen, hport, hdistance⟩
    · rename_i hrests
      obtain ⟨increment, hzero, h⟩ := except_bind_eq_ok.mp h
      obtain rfl := except_pure_eq_ok.mp hzero
      obtain rfl := except_pure_eq_ok.mp h
      refine ⟨rfl, 0, ?_, rfl, rfl⟩
      rw [PortDistance, if_neg hrests]

end Program

/-- Replacing a port, entries and exits taken together. -/
theorem UnifiedLoop.ports_setPort (l : UnifiedLoop) (k : Nat) (port : LoopPort) :
    (l.setPort k port).ports = l.ports.set k port := by
  unfold setPort LoopFrame.ports
  split
  · exact (List.set_append_left _ _ ‹_›).symm
  · exact (List.set_append_right _ _ (Nat.le_of_not_lt ‹_›)).symm

namespace Program

variable {p q r : Program}

/-- Whether port `k` of the unified loop at `place` is set up, if there is one. -/
def PointedAt (p : Program) (place k : Nat) : Prop :=
  ∀ port, (p.loops.unifiedAt place).ports[k]? = some port →
    ∃ distance, p.Pointed (p.loops.unifiedAt place).work port distance

/-- Programs that differ in their loops only see the same at their ports. -/
theorem Repointed.pointed_iff (h : p.Repointed q) {distance : Int} :
    q.Pointed work port distance ↔ p.Pointed work port distance := by
  have hport : q.port port.port = p.port port.port := by
    rw [h.1]
    rfl
  have hright : q.PortDistance work port distance = p.PortDistance work port distance := by
    rw [PortDistance, hport, PortDistance]
  constructor
  · intro hq
    exact ⟨hright ▸ hq.right, hq.increment, hq.offset⟩
  · intro hp
    exact ⟨hright ▸ hp.right, hp.increment, hp.offset⟩

/-- Setting up a port: it is replaced by itself with its pointer arithmetic. -/
theorem ports_initPort (h : Edit.initPort place k p = .ok () q) (j : Nat) :
    (q.loops.unifiedAt j).ports = (p.loops.unifiedAt j).ports ∧
        (j = place → (p.loops.unifiedAt j).ports[k]? = none) ∨
      j = place ∧ ∃ port port', (p.loops.unifiedAt j).ports[k]? = some port ∧
        p.pointerPort (p.loops.unifiedAt j).work port = .ok port' ∧
        (q.loops.unifiedAt j).ports = (p.loops.unifiedAt j).ports.set k port' := by
  unfold Edit.initPort at h
  rw [get_bind] at h
  cases hport : (p.loops.unifiedAt place).ports[k]? with
  | none =>
    rw [hport] at h
    obtain ⟨_, rfl⟩ := pure_eq_ok.mp h
    exact .inl ⟨rfl, fun hj => hj ▸ hport⟩
  | some port =>
    rw [hport] at h
    obtain ⟨port', hpointer, h⟩ := ask_bind_eq_ok.mp h
    rw [← modify_eq_ok.mp h]
    by_cases hj : place = j
    · subst hj
      have hsize : place < p.loops.unified.size := by
        refine Nat.lt_of_not_le fun hle => ?_
        rw [LoopTable.unifiedAt, Array.getD_eq_getD_getElem?, Array.getElem?_eq_none hle] at hport
        cases hport
      refine .inr ⟨rfl, port, port', hport, hpointer, ?_⟩
      show ((p.loops.modifyUnified place (·.setPort k port')).unifiedAt place).ports = _
      rw [LoopTable.unifiedAt_modifyUnified, if_pos ⟨rfl, hsize⟩, UnifiedLoop.ports_setPort]
    · refine .inl ⟨?_, fun he => absurd he.symm hj⟩
      show ((p.loops.modifyUnified place (·.setPort k port')).unifiedAt j).ports = _
      rw [LoopTable.unifiedAt_modifyUnified, if_neg fun he => hj he.1]

/-- The ports stay the same but for their pointer arithmetic. -/
theorem bare_initPort (h : Edit.initPort place k p = .ok () q) (j : Nat) :
    (q.loops.unifiedAt j).ports.map LoopPort.bare = (p.loops.unifiedAt j).ports.map LoopPort.bare := by
  rcases ports_initPort h j with ⟨hports, _⟩ | ⟨_, port, port', hport, hpointer, hports⟩
  · rw [hports]
  · rw [hports, UnifiedLoop.map_set_of_eq hport (pointed_pointerPort hpointer).1]

/-- A port that is set up stays so, and the port that the step is about gets set up. -/
theorem pointedAt_initPort {i : Nat} (h : Edit.initPort place k p = .ok () q)
    (done : p.PointedAt j i ∨ j = place ∧ i = k) : q.PointedAt j i := by
  have hr := repointed_initPort h
  intro port' hport'
  rw [(hr.2.unified j).work]
  rcases ports_initPort h j with ⟨hports, hnone⟩ | ⟨hj, port, new, _, hpointer, hports⟩
  · rw [hports] at hport'
    rcases done with done | ⟨hj, rfl⟩
    · obtain ⟨distance, hdistance⟩ := done port' hport'
      exact ⟨distance, hr.pointed_iff.mpr hdistance⟩
    · rw [hnone hj] at hport'
      cases hport'
  · rw [hports, List.getElem?_set] at hport'
    split at hport'
    · split at hport'
      · cases hport'
        obtain ⟨_, distance, hdistance⟩ := pointed_pointerPort hpointer
        exact ⟨distance, hr.pointed_iff.mpr hdistance⟩
      · cases hport'
    · rename_i hi
      rcases done with done | ⟨_, rfl⟩
      · obtain ⟨distance, hdistance⟩ := done port' hport'
        exact ⟨distance, hr.pointed_iff.mpr hdistance⟩
      · exact absurd rfl hi

/-- Setting up a loop sets up all of its ports, and keeps those of other loops. -/
theorem pointed_initLoop (h : Edit.initLoop place p = .ok () q) :
    (q.loops.unifiedAt j).ports.map LoopPort.bare = (p.loops.unifiedAt j).ports.map LoopPort.bare ∧
      ∀ i, p.PointedAt j i ∨ j = place → q.PointedAt j i := by
  rw [Edit.initLoop, get_bind] at h
  obtain ⟨hbare, hpointed⟩ := forM_induction (P := fun done u =>
    (u.loops.unifiedAt j).ports.map LoopPort.bare = (p.loops.unifiedAt j).ports.map LoopPort.bare ∧
      ∀ i, p.PointedAt j i ∨ j = place ∧ i ∈ done → u.PointedAt j i)
    ⟨rfl, fun i hi => hi.resolve_right fun h => absurd h.2 (by simp)⟩ (by
      rintro done k rest u v - ⟨hbare, hpointed⟩ hk
      refine ⟨(bare_initPort hk j).trans hbare, fun i hi => pointedAt_initPort hk ?_⟩
      rw [List.mem_append, List.mem_singleton] at hi
      rcases hi with hi | ⟨hj, hi | hi⟩
      · exact .inl (hpointed i (.inl hi))
      · exact .inl (hpointed i (.inr ⟨hj, hi⟩))
      · exact .inr ⟨hj, hi⟩) h
  refine ⟨hbare, fun i hi => ?_⟩
  by_cases hlt : i < (p.loops.unifiedAt place).ports.length
  · exact hpointed i (hi.imp_right fun hj => ⟨hj, List.mem_range.mpr hlt⟩)
  · rcases hi with hi | rfl
    · exact hpointed i (.inl hi)
    · intro port hport
      have hlength := congrArg List.length hbare
      rw [List.length_map, List.length_map] at hlength
      rw [List.getElem?_eq_none (by omega)] at hport
      cases hport

/-- When the loops have been set up, the ports of every unified loop have their pointer arithmetic. -/
theorem pointed_initLoops {id : LoopId} (h : Edit.initLoops p = .ok () q)
    (bound : p.loops.binding? id = some (.unified place)) :
    (q.loops.unifiedAt place).ports.map LoopPort.bare =
        (p.loops.unifiedAt place).ports.map LoopPort.bare ∧
      ∀ port ∈ (q.loops.unifiedAt place).ports,
        ∃ distance, p.Pointed (p.loops.unifiedAt place).work port distance := by
  have hr := repointed_initLoops h
  rw [Edit.initLoops, get_bind] at h
  obtain ⟨hbare, hpointed⟩ := forM_induction (P := fun done u =>
    (u.loops.unifiedAt place).ports.map LoopPort.bare =
        (p.loops.unifiedAt place).ports.map LoopPort.bare ∧
      ((id, .unified place) ∈ done → ∀ i, u.PointedAt place i))
    ⟨rfl, fun h => absurd h (by simp)⟩ (by
      rintro done ⟨id', binding⟩ rest u v - ⟨hbare, hpointed⟩ hstep
      cases binding with
      | expanded l =>
        obtain ⟨_, rfl⟩ := pure_eq_ok.mp hstep
        refine ⟨hbare, fun hmem => hpointed ?_⟩
        simpa using hmem
      | unified place' =>
        obtain ⟨hbare', hpointed'⟩ := pointed_initLoop (j := place) hstep
        refine ⟨hbare'.trans hbare, fun hmem i => hpointed' i ?_⟩
        rw [List.mem_append, List.mem_singleton] at hmem
        rcases hmem with hmem | hmem
        · exact .inl (hpointed hmem i)
        · cases hmem
          exact .inr rfl) h
  obtain ⟨before, after, hbindings, _⟩ := List.lookup_eq_some_iff.mp bound
  refine ⟨hbare, fun port hport => ?_⟩
  obtain ⟨i, hi⟩ := List.mem_iff_getElem?.mp hport
  obtain ⟨distance, hdistance⟩ := hpointed (by simp [hbindings]) i port hi
  rw [(hr.2.unified place).work] at hdistance
  exact ⟨distance, hr.pointed_iff.mp hdistance⟩

end Program

end TensorKernel
