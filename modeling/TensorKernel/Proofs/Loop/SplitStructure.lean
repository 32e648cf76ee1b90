import TensorKernel.Proofs.Loop.Brackets
import TensorKernel.Proofs.Loop.SplitLoops
import TensorKernel.Proofs.Program.CopyUses

/-!
# Splitting keeps the structure of a program

Splitting copies ranges that hold loops which were split before. What a step makes of one program holds
for all steps together: inputs and uses refer to each other, what is read stands before, the expressions
of the program keep their order, and the ports of every part stand between the markers of that part if
those of the whole loop stood between its markers.
-/

namespace TensorKernel

variable {x y : ExprId} {i : Input} {l : List ExprId} {n : Nest} {start : Program}

/-! ### Parts and their ports -/

/-- The place of the unified loop that an id is bound to, or that it is bound to a part of. -/
def LoopBinding.place : LoopBinding → Nat
  | .unified place => place
  | .expanded l => l.origin

/-- The three lists of a part have one value per port. -/
structure ExpandedLoop.Dense (l : ExpandedLoop) : Prop where
  /-- One pointer increment per port. -/
  ptrIncrements : l.ptrIncrements.length = l.ports.length
  /-- One finalization offset per port. -/
  finalizationOffsets : l.finalizationOffsets.length = l.ports.length
  /-- One element size per port. -/
  dataSizes : l.dataSizes.length = l.ports.length

/-- A port on another expression. -/
def LoopPort.move (port : LoopPort) (target : ExprId → ExprId) : LoopPort :=
  { port with port := { port.port with expr := target port.port.expr } }

theorem LoopFrame.ports_retarget (l : LoopFrame) (target : ExprId → ExprId) :
    (l.retarget target).ports = l.ports.map (·.move target) :=
  List.map_append.symm

theorem ExpandedLoop.Dense.retarget {l : ExpandedLoop} (h : l.Dense) (target : ExprId → ExprId) :
    (l.retarget target).Dense := by
  have hlength : (l.retarget target).ports.length = l.ports.length := by
    rw [ExpandedLoop.retarget, LoopFrame.ports_retarget, List.length_map]
  exact ⟨h.ptrIncrements.trans hlength.symm, h.finalizationOffsets.trans hlength.symm,
    h.dataSizes.trans hlength.symm⟩

namespace UnifiedLoop

variable (whole : UnifiedLoop) (origin : Nat) (v : Variant)

theorem dense_lastPart : (whole.lastPart origin v).Dense :=
  ⟨List.length_map .., List.length_map .., List.length_map ..⟩

theorem dense_earlierPart (copies : List (ExprId × ExprId)) :
    (whole.earlierPart origin v copies).Dense := by
  have hlength : (whole.earlierPart origin v copies).ports.length = whole.ports.length := by
    refine (congrArg List.length (whole.toLoopFrame.ports_retarget _)).trans ?_
    rw [List.length_map]
  exact ⟨(List.length_map ..).trans hlength.symm, (List.length_map ..).trans hlength.symm,
    (List.length_map ..).trans hlength.symm⟩

end UnifiedLoop

namespace Program

variable {p q r : Program}

/-! ### Inputs and uses -/

/-- The inputs of the program and the uses of values refer to each other, and uses are those of
expressions that exist. -/
structure Connected (p : Program) : Prop where
  /-- An input reads a value exactly when it is among the uses of the value. -/
  linked : p.Linked
  /-- What uses a value exists. -/
  real : ∀ v, ∀ u ∈ p.uses v, u.consumer < p.exprs.size

theorem connected_iff :
    p.Connected ↔ p.Linked ∧ ∀ v ∈ p.values, ∀ u ∈ p.uses v, u.consumer < p.exprs.size :=
  ⟨fun h => ⟨h.linked, fun v _ => h.real v⟩,
    fun h => ⟨h.1, fun v u hu => h.2 v (mem_values.mpr (.of_mem_uses hu)) u hu⟩⟩

instance (p : Program) : Decidable p.Connected := decidable_of_iff' _ connected_iff

/-- An expression stands behind those of the program that it reads from. -/
def ReadsBehind (p : Program) : Prop :=
  ∀ x ∈ p.order, ∀ i ∈ (p.expr x).inputs,
    i.source.producer ∈ p.order → [i.source.producer, x].Sublist p.order

instance (p : Program) : Decidable p.ReadsBehind := inferInstanceAs (Decidable (∀ x ∈ p.order, _))

/-- What stands before an item of a list without repetitions. -/
theorem mem_left_of_pair {left right : List ExprId} (hl : l = left ++ x :: right) (nodup : l.Nodup)
    (h : [y, x].Sublist l) : y ∈ left := by
  obtain ⟨before, behind, horder, hbefore, hbehind⟩ := List.cons_sublist_iff.mp h
  have hx := List.singleton_sublist.mp hbehind
  rw [hl] at nodup horder
  rcases List.append_eq_append_iff.mp horder with ⟨mid, rfl, hmid⟩ | ⟨mid, rfl, _⟩
  · cases mid with
    | nil => rwa [List.append_nil] at hbefore
    | cons z mid =>
      obtain ⟨rfl, rfl⟩ := List.cons.inj hmid
      rw [List.nodup_append, List.nodup_cons] at nodup
      exact absurd (List.mem_append_right _ hx) nodup.2.1.1
  · exact List.mem_append_left _ hbefore

/-- Two items of a list, in their order. -/
theorem pair_sublist {i j : Nat} (hij : i < j) (hi : l[i]? = some x) (hj : l[j]? = some y) :
    [x, y].Sublist l := by
  have hx : x ∈ l.take j := List.mem_of_getElem? ((List.getElem?_take_of_lt hij).trans hi)
  have hy : y ∈ l.drop j := by
    refine List.mem_of_getElem? (i := 0) ?_
    rw [List.getElem?_drop]
    exact hj
  rw [← List.take_append_drop j l]
  exact (List.singleton_sublist.mpr hx).append (List.singleton_sublist.mpr hy)

namespace PartInserted

variable {id : LoopId} {left inside right : List ExprId} {part : LoopBinding}
  {renumber : List (LoopId × LoopId)}

variable (h : p.PartInserted id left inside right part renumber q)
  (order : p.order = left ++ (inside ++ right))

include h in
/-- An expression of the program is an earlier one or a copy. -/
theorem mem_order_iff (order : p.order = left ++ (inside ++ right)) {x : Nat} :
    x ∈ q.order ↔ x ∈ p.order ∨ ∃ (k : Nat) (a : ExprId), inside[k]? = some a ∧ x = p.exprs.size + k := by
  have hcopies : x ∈ List.range' p.exprs.size inside.length ↔
      ∃ (k : Nat) (a : ExprId), inside[k]? = some a ∧ x = p.exprs.size + k := by
    rw [List.mem_range'_1]
    constructor
    · rintro ⟨hle, hlt⟩
      exact ⟨x - p.exprs.size, _, List.getElem?_eq_getElem (by omega), by omega⟩
    · rintro ⟨k, a, hk, rfl⟩
      have := (List.getElem?_eq_some_iff.mp hk).1
      omega
  rw [h.order, order, ← hcopies]
  simp only [List.mem_append]
  tauto

include h order

/-- The earlier program is left when the copies are taken out. -/
theorem sublist_order : p.order.Sublist q.order := by
  rw [h.order, order]
  exact (List.sublist_append_left ..).append (.refl _)

/-- The expressions that were there at the start keep their order. -/
theorem filter_order {size : Nat} (hsize : size ≤ p.exprs.size) :
    q.order.filter (· < size) = p.order.filter (· < size) := by
  have hnone : (List.range' p.exprs.size inside.length).filter (· < size) = [] := by
    refine List.filter_eq_nil_iff.mpr fun x hx => ?_
    have := (List.mem_range'_1.mp hx).1
    simp only [decide_eq_true_eq]
    omega
  rw [h.order, order, List.filter_append, List.filter_append, hnone, List.append_nil,
    ← List.filter_append]

/-- What is read when a part has been inserted. -/
theorem copyRead (tidy : p.Tidy) (linked : p.Linked) : p.CopyRead inside q := by
  have hmem : ∀ x ∈ inside, x ∈ p.order := by
    intro x hx
    simp [order, hx]
  have hnodup := tidy.nodup_inside order
  refine (copyAll_reads hnodup (fun x hx => tidy.valid x (hmem x hx))
    (fun x hx => tidy.named x (hmem x hx)) fun x hx i hi =>
      linked.hasValue_source (hmem x hx) hi).of_ports (fun x => ?_) fun x => ?_
  · rw [h.expr]
    split <;> rfl
  · rw [h.expr]
    split <;> rfl

/-- Inputs and uses refer to each other when a part has been inserted. -/
theorem connected (tidy : p.Tidy) (hc : p.Connected) : q.Connected := by
  have hread := h.copyRead order tidy hc.linked
  refine ⟨fun x hx => ?_, fun v u hu => ?_⟩
  · have hlt : x < p.exprs.size + inside.length := by
      rcases (h.mem_order_iff order).mp hx with hx | ⟨j, a, hj, rfl⟩
      · exact Nat.lt_add_right _ (tidy.valid x hx)
      · exact Nat.add_lt_add_left (List.getElem?_eq_some_iff.mp hj).1 _
    refine hread.linked hc.real (fun hold => ?_) hlt
    rcases (h.mem_order_iff order).mp hx with hx | ⟨j, a, hj, rfl⟩
    · exact hc.linked x hx
    · exact absurd hold (Nat.not_lt.mpr (Nat.le_add_right ..))
  · rw [h.size]
    rcases hread.mem_uses.mp hu with hu | ⟨k, hk, hu, _⟩
    · exact Nat.lt_add_right _ (hc.real v u hu)
    · rw [hu]
      exact Nat.add_lt_add_left hk _

/-- What an expression reads when a part has been inserted: an earlier one reads what it read, and a
copy reads from the copies before it and from outside the range. -/
theorem producer_cases (tidy : p.Tidy) (linked : p.Linked) {x : Nat} (hx : x ∈ q.order)
    (hi : i ∈ (q.expr x).inputs) :
    (x ∈ p.order ∧ i ∈ (p.expr x).inputs) ∨
    ∃ (k : Nat) (a : ExprId), inside[k]? = some a ∧ x = p.exprs.size + k ∧ ∃ j ∈ (p.expr a).inputs,
      (∃ m < k, inside[m]? = some j.source.producer ∧ i.source.producer = p.exprs.size + m) ∨
      (j.source.producer ∉ inside.take k ∧ i.source.producer = j.source.producer) := by
  have hread := h.copyRead order tidy linked
  have hnodup := tidy.nodup_inside order
  rcases (h.mem_order_iff order).mp hx with hx | ⟨k, a, hk, rfl⟩
  · rw [hread.oldInputs x (tidy.valid x hx)] at hi
    exact .inl ⟨hx, hi⟩
  · rw [hread.newInputs k a hk] at hi
    obtain ⟨j, hj, rfl⟩ := List.mem_map.mp hi
    refine .inr ⟨k, a, hk, rfl, j, hj, ?_⟩
    by_cases hmem : j.source.producer ∈ inside.take k
    · obtain ⟨m, hm⟩ := List.mem_iff_getElem?.mp hmem
      have hlt : m < k := Nat.lt_of_lt_of_le (List.getElem?_eq_some_iff.mp hm).1 (List.length_take_le ..)
      refine .inl ⟨m, hlt, ?_, copyOf_zipIdx (hnodup.sublist (List.take_sublist ..)) hm _⟩
      rw [← hm, List.getElem?_take_of_lt hlt]
    · exact .inr ⟨hmem, copyOf_of_not_mem hmem _⟩

/-- What is read stands before when a part has been inserted. -/
theorem readsBehind (tidy : p.Tidy) (linked : p.Linked) (hb : p.ReadsBehind) : q.ReadsBehind := by
  intro x hx i hi hin
  -- An earlier producer is in the program only if it was.
  have hold : ∀ y : Nat, y < p.exprs.size → y ∈ q.order → y ∈ p.order := by
    intro y hlt hy
    rcases (h.mem_order_iff order).mp hy with hy | ⟨k, _, _, rfl⟩
    · exact hy
    · omega
  rcases h.producer_cases order tidy linked hx hi with
    ⟨hx, hi⟩ | ⟨k, a, hk, rfl, j, hj, ⟨m, hm, _, he⟩ | ⟨hout, he⟩⟩
  · have hlt := (linked.hasValue_source hx hi).lt_size
    exact (hb x hx i hi (hold _ hlt hin)).trans (h.sublist_order order)
  · have hlt := (List.getElem?_eq_some_iff.mp hk).1
    have hpair : [p.exprs.size + m, p.exprs.size + k].Sublist
        (List.range' p.exprs.size inside.length) := by
      refine pair_sublist hm ?_ ?_
      · rw [List.getElem?_range' (Nat.lt_trans hm hlt), Nat.one_mul]
      · rw [List.getElem?_range' hlt, Nat.one_mul]
    rw [he, h.order]
    exact hpair.trans ((List.sublist_append_right ..).trans (List.sublist_append_left ..))
  · have ha : a ∈ p.order := by
      rw [order]
      simp [List.mem_of_getElem? hk]
    have hlt := (linked.hasValue_source ha hj).lt_size
    rw [he] at hin ⊢
    have hpair := hb a ha j hj (hold _ hlt hin)
    have hsplit : p.order = (left ++ inside.take k) ++ a :: (inside.drop (k + 1) ++ right) := by
      obtain ⟨hlt, rfl⟩ := List.getElem?_eq_some_iff.mp hk
      rw [List.append_assoc, ← List.cons_append, ← List.drop_eq_getElem_cons hlt, ← List.append_assoc,
        ← List.append_assoc, List.append_assoc left, List.take_append_drop, order, List.append_assoc]
    have hleft := (List.mem_append.mp (mem_left_of_pair hsplit tidy.nodup hpair)).resolve_right hout
    have hcopy : p.exprs.size + k ∈ List.range' p.exprs.size inside.length :=
      List.mem_range'_1.mpr
        ⟨Nat.le_add_right .., Nat.add_lt_add_left (List.getElem?_eq_some_iff.mp hk).1 _⟩
    rw [h.order]
    exact ((List.singleton_sublist.mpr hleft).append (List.singleton_sublist.mpr hcopy)).trans
      (List.sublist_append_left ..)

/-- What is read is in the program, or was outside of it at the start. -/
theorem producer_mem (tidy : p.Tidy) (linked : p.Linked)
    (hw : ∀ x ∈ p.order, ∀ i ∈ (p.expr x).inputs, i.source.producer ∈ p.order ∨
      i.source.producer < start.exprs.size ∧ i.source.producer ∉ start.order) (hx : x ∈ q.order)
    (hi : i ∈ (q.expr x).inputs) :
    i.source.producer ∈ q.order ∨ i.source.producer < start.exprs.size ∧ i.source.producer ∉ start.order := by
  have hold : ∀ y ∈ p.order, y ∈ q.order := fun y hy => (h.mem_order_iff order).mpr (.inl hy)
  rcases h.producer_cases order tidy linked hx hi with
    ⟨hx, hi⟩ | ⟨k, a, hk, rfl, j, hj, ⟨m, _, hm, he⟩ | ⟨_, he⟩⟩
  · exact (hw x hx i hi).imp_left (hold _)
  · exact .inl ((h.mem_order_iff order).mpr (.inr ⟨m, _, hm, he⟩))
  · have ha : a ∈ p.order := by
      rw [order]
      simp [List.mem_of_getElem? hk]
    rw [he]
    exact (hw a ha j hj).imp_left (hold _)

end PartInserted

/-! ### The ports of parts -/

/-- An expression of the program lists a loop. -/
def Lists (p : Program) (id : LoopId) (x : ExprId) : Prop := x ∈ p.order ∧ id ∈ (p.expr x).loops

end Program

/-- A port follows another one if it differs in the expression only, and if it stands inside its loop, on
a copy of that expression, whenever the other one stands inside its own loop. -/
structure LoopPort.Follows (inside inside' : ExprId → Prop) (ancestor : ExprId → ExprId)
    (port port' : LoopPort) : Prop where
  /-- The ports differ in their expressions only. -/
  same : port' = port.move fun _ => port'.port.expr
  /-- The port stands inside its loop if the other one does. -/
  inside : inside port.port.expr → inside' port'.port.expr ∧ ancestor port'.port.expr = port.port.expr

/-- A port that is moved on with the expressions inside a loop still follows. -/
theorem LoopPort.Follows.move {inside middle inside' : ExprId → Prop}
    {ancestor ancestor' target : ExprId → ExprId} {port port' : LoopPort}
    (h : Follows inside middle ancestor port port')
    (hmove : ∀ x, middle x → inside' (target x) ∧ ancestor' (target x) = ancestor x) :
    Follows inside inside' ancestor' port (port'.move target) where
  same := by
    rw [h.same]
    rfl
  inside hin := by
    obtain ⟨hmid, hanc⟩ := h.inside hin
    obtain ⟨hin', hanc'⟩ := hmove _ hmid
    exact ⟨hin', hanc'.trans hanc⟩

namespace Program

variable {p q r : Program}

/-- The ports of every loop of `q` follow those of the loop of `p` that it is, or is a part of. -/
def PortsKept (p q : Program) : Prop :=
  ∀ x ∈ q.order, (q.expr x).role = .loopBegin →
    ∃ b, q.loops.binding? (q.expr x).loop = some b ∧
      p.loops.binding? (p.expr (q.ancestor p.exprs.size x)).loop = some (.unified b.place) ∧
      List.Forall₂ (LoopPort.Follows (p.Lists (p.expr (q.ancestor p.exprs.size x)).loop)
        (q.Lists (q.expr x).loop) (q.ancestor p.exprs.size))
        (p.loops.unifiedAt b.place).ports (q.loops.resolve b).frame.ports

/-- The loops of a program follow themselves. -/
theorem Undivided.portsKept (h : p.Undivided n) : p.PortsKept p := by
  intro x hx hr
  have hself : ∀ y ∈ p.order, p.ancestor p.exprs.size y = y :=
    fun y hy => p.ancestor_of_lt (h.tidy.valid y hy)
  have hbegin : x ∈ n.begins := by
    obtain ⟨y, hy, _, hyx⟩ := h.nested.fits.exists_begin (h.nested.flatten ▸ hx) (by rw [hr]; rfl)
    rwa [hyx hr] at hy
  obtain ⟨place, hplace, _⟩ := h.whole x hbegin
  refine ⟨.unified place, hplace, by rw [hself x hx]; exact hplace, ?_⟩
  rw [hself x hx]
  exact List.forall₂_same.mpr fun port _ => ⟨rfl, fun hin => ⟨hin, hself _ hin.1⟩⟩

/-- A loop that becomes its last part keeps its ports. -/
theorem PortsKept.bind (h : p.PortsKept r) {id : LoopId} {place : Nat} (v : Variant)
    (unsplit : r.loops.binding? id = some (.unified place)) :
    p.PortsKept (r.bindPart id ((r.loops.unifiedAt place).lastPart place v)) := by
  intro x hx hr
  obtain ⟨b, hb, hplace, hports⟩ := h x hx hr
  rw [ancestor_of_expr (r.expr_bindPart _ _)]
  by_cases hid : (r.expr x).loop = id
  · obtain rfl : b = .unified place := Option.some.inj (hb.symm.trans (hid ▸ unsplit))
    refine ⟨.expanded ((r.loops.unifiedAt place).lastPart place v), ?_, hplace, hports⟩
    rw [expr_bindPart, binding?_bindPart, if_pos hid, unsplit]
    rfl
  · refine ⟨b, ?_, hplace, ?_⟩
    · rw [expr_bindPart, binding?_bindPart, if_neg hid, hb]
    · cases b <;> exact hports

namespace PartInserted

variable {c : List Frame} {b e : ExprId} {body rest : Nest} {place : Nat} {v : Variant}
  {renumber : List (LoopId × LoopId)}

variable (h : p.PartInserted (p.expr b).loop (Context.left c) (Nest.loop b e body .nil).flatten
    (rest.flatten ++ Context.right c) (.expanded ((p.loops.unifiedAt place).earlierPart place v
      ((Nest.loop b e body .nil).flatten.zipIdx p.exprs.size))) renumber q)
  (w : p.WellNested ((Nest.loop b e body rest).plug c)) (tidy : p.Tidy)

include h w tidy

/-- The loop of a copied begin marker is on the copies of its ports. -/
theorem ports_copy (unsplit : p.loops.binding? (p.expr b).loop = some (.unified place))
    (hx : x ∈ b :: body.begins) {bound : LoopBinding}
    (hbound : p.loops.binding? (p.expr x).loop = some bound) :
    ∃ bound', q.loops.binding? (q.expr (copy p b e body x)).loop = some bound' ∧
      bound'.place = bound.place ∧ (q.loops.resolve bound').frame.ports =
        (p.loops.resolve bound).frame.ports.map (·.move (copy p b e body)) := by
  have hloop := h.loop_copy w (w.nodup_inside tidy) hx
  rcases List.mem_cons.mp hx with rfl | hx
  · rw [h.loops.self, Option.some.injEq] at hloop
    obtain rfl : bound = .unified place := Option.some.inj (hbound.symm.trans unsplit)
    rw [← hloop]
    exact ⟨_, h.loops.part, rfl, LoopFrame.ports_retarget ..⟩
  · have hmem : x ∈ (Nest.loop b e body .nil).flatten := by
      simp [Nest.flatten, Nest.begins_subset_flatten hx]
    obtain ⟨m, hm, _, l, hl, hcopy⟩ := h.loops.inner x hmem ((w.beginsInner_iff hmem).mpr hx)
    rw [hm, Option.some.injEq] at hloop
    obtain rfl : bound = .expanded l := Option.some.inj (hbound.symm.trans hl)
    rw [← hloop]
    exact ⟨_, hcopy, rfl, LoopFrame.ports_retarget ..⟩

/-- The copy of an expression that lists a copied loop lists the copy of the loop. -/
theorem lists_copy (hx : x ∈ b :: body.begins) (hy : p.Lists (p.expr x).loop y) :
    q.Lists (q.expr (copy p b e body x)).loop (copy p b e body y) := by
  have hmem := w.mem_inside_of_lists hx hy.1 hy.2
  have hnodup := w.nodup_inside tidy
  obtain ⟨k, hk⟩ := List.mem_iff_getElem?.mp hmem
  obtain ⟨z, hz, _, _, _, hloops, _⟩ := h.header_copy hnodup hmem
  refine ⟨(h.mem_order_iff w.order_plug).mpr (.inr ⟨k, y, hk, copyOf_zipIdx hnodup hk _⟩), ?_⟩
  rw [hz, hloops]
  refine List.mem_map.mpr ⟨_, hy.2, ?_⟩
  rw [h.loop_copy w hnodup hx]
  rfl

/-- The ports of all loops follow those of the whole loops when a part has been inserted. -/
theorem portsKept (table : p.loops.Tidy)
    (unsplit : p.loops.binding? (p.expr b).loop = some (.unified place))
    (hsize : start.exprs.size ≤ p.exprs.size) (hp : start.PortsKept p) : start.PortsKept q := by
  intro x hx hr
  have hnodup := w.nodup_inside tidy
  rcases (h.mem_order_iff w.order_plug).mp hx with hx | ⟨k, a, hk, rfl⟩
  · have hlt := tidy.valid x hx
    have hhead := h.header_old hlt
    rw [Expr.role_of_header hhead] at hr
    rw [Expr.loop_of_header hhead, h.ancestor_old hlt]
    obtain ⟨bound, hbound, hplace, hports⟩ := hp x hx hr
    refine ⟨bound, (h.loops.old _ (table.lt_next hbound)).trans hbound, hplace, ?_⟩
    have hresolve : q.loops.resolve bound = p.loops.resolve bound := by
      cases bound with
      | unified place => simp only [LoopTable.resolve, LoopTable.unifiedAt, h.loops.unified]
      | expanded l => rfl
    rw [hresolve]
    refine hports.imp fun port port' hport => ⟨hport.same, fun hin => ?_⟩
    obtain ⟨⟨hmem, hlists⟩, hanc⟩ := hport.inside hin
    have hlt := tidy.valid _ hmem
    exact ⟨⟨(h.mem_order_iff w.order_plug).mpr (.inl hmem),
      (Expr.loops_of_header (h.header_old hlt)).symm ▸ hlists⟩, (h.ancestor_old hlt).trans hanc⟩
  · have hmem := List.mem_of_getElem? hk
    have hcopy : copy p b e body a = p.exprs.size + k := copyOf_zipIdx hnodup hk _
    have hlt : ∀ y ∈ (Nest.loop b e body .nil).flatten, y < p.exprs.size :=
      fun y hy => tidy.valid y (w.mem_order_of_inside hy)
    have hanc : ∀ y ∈ (Nest.loop b e body .nil).flatten,
        q.ancestor start.exprs.size (copy p b e body y) = p.ancestor start.exprs.size y :=
      fun y hy => h.ancestor_copy hsize hnodup hy (hlt y hy)
    obtain ⟨_, hz, _, hrole, _⟩ := h.header_copy hnodup hmem
    rw [← hcopy] at hr ⊢
    rw [hz, hrole] at hr
    have hbegin := w.mem_begins_of_inside hmem hr
    obtain ⟨bound, hbound, hplace, hports⟩ := hp a (w.mem_order_of_inside hmem) hr
    obtain ⟨bound', hbound', hplace', hports'⟩ := h.ports_copy w tidy unsplit hbegin hbound
    refine ⟨bound', hbound', ?_, ?_⟩
    · rw [hanc a hmem, hplace', hplace]
    · rw [hports', hplace', List.forall₂_map_right_iff, hanc a hmem]
      refine hports.imp fun port port' hport => hport.move fun y hy => ?_
      exact ⟨h.lists_copy w tidy hbegin hy, hanc y (w.mem_inside_of_lists hbegin hy.1 hy.2)⟩

end PartInserted

/-! ### All steps together -/

/-- What splitting keeps of the structure of `p`. -/
structure StructureKept (p q : Program) : Prop where
  /-- Inputs and uses refer to each other. -/
  connected : q.Connected
  /-- What is read stands before. -/
  behind : q.ReadsBehind
  /-- What is read from outside the program was outside before. -/
  within : ∀ x ∈ q.order, ∀ i ∈ (q.expr x).inputs, i.source.producer ∈ q.order ∨
    i.source.producer < p.exprs.size ∧ i.source.producer ∉ p.order
  /-- Without the copies the program is as it was. -/
  kept : q.order.filter (· < p.exprs.size) = p.order
  /-- Parts have one value per port in each of their lists. -/
  dense : ∀ id l, q.loops.binding? id = some (.expanded l) → l.Dense
  /-- The ports of parts follow those of the loops. -/
  ports : p.PortsKept q

/-- A program has the structure it has. -/
theorem Undivided.structureKept (h : p.Undivided n) (connected : p.Connected) (behind : p.ReadsBehind) :
    p.StructureKept p where
  connected := connected
  behind := behind
  within x hx i hi := by
    by_cases hin : i.source.producer ∈ p.order
    · exact .inl hin
    · exact .inr ⟨(connected.linked.hasValue_source hx hi).lt_size, hin⟩
  kept := List.filter_eq_self.mpr fun x hx => decide_eq_true (h.tidy.valid x hx)
  dense id l hl := by
    obtain ⟨x, hx, rfl⟩ := h.marked id (LoopTable.mem_ids_iff.mpr ⟨_, hl⟩)
    obtain ⟨place, hplace, _⟩ := h.whole x hx
    rw [hl] at hplace
    cases hplace
  ports := h.portsKept

/-- One step keeps the structure. -/
theorem StructureKept.step (h : p.StructureKept r) (hsize : p.exprs.size ≤ r.exprs.size)
    (step : SplitStep r q) : p.StructureKept q := by
  cases step with
  | part tidy table nested unsplit hpart =>
    have order := nested.order_plug
    refine ⟨hpart.connected order tidy h.connected,
      hpart.readsBehind order tidy h.connected.linked h.behind,
      fun x hx i hi => hpart.producer_mem order tidy h.connected.linked h.within hx hi,
      (hpart.filter_order order hsize).trans h.kept, fun id l hl => ?_,
      hpart.portsKept nested tidy table unsplit hsize h.ports⟩
    rcases hpart.loops.ids id (LoopTable.mem_ids_iff.mpr ⟨_, hl⟩) with hid | rfl | ⟨x, hx, hin, hid⟩
    · obtain ⟨b, hb⟩ := LoopTable.mem_ids_iff.mp hid
      rw [hpart.loops.old id (table.lt_next hb)] at hl
      exact h.dense id l hl
    · rw [hpart.loops.part] at hl
      cases hl
      exact UnifiedLoop.dense_earlierPart ..
    · obtain ⟨m, hm, _, l', hl', hcopy⟩ := hpart.loops.inner x hx hin
      rw [hid, Option.some.injEq] at hm
      rw [hm, hcopy] at hl
      cases hl
      exact (h.dense _ l' hl').retarget _
  | bind v unsplit =>
    refine ⟨⟨h.connected.linked, h.connected.real⟩, h.behind, h.within, h.kept, fun id l hl => ?_,
      h.ports.bind v unsplit⟩
    rw [binding?_bindPart] at hl
    split at hl
    · rw [unsplit] at hl
      cases hl
      exact UnifiedLoop.dense_lastPart ..
    · exact h.dense id l hl

/-- All steps keep the structure. -/
theorem StructureKept.of_steps (h : p.StructureKept p) (steps : Relation.ReflTransGen SplitStep p q) :
    p.StructureKept q := by
  induction steps with
  | refl => exact h
  | tail before step ih => exact ih.step (size_le_of_steps before) step

/-- A program `q` with the nest `m` into which `p` is split, with all loops in place. -/
structure SplitSoundly (p q : Program) (m : Nest) : Prop where
  /-- Every registered loop is a part, with one value per port in each of its lists. -/
  parts : ∀ id ∈ q.loops.ids, ∃ l, q.loops.binding? id = some (.expanded l) ∧ l.Dense
  /-- Every registered loop has one pair of markers, and the pairs are nested or apart. -/
  bracketed : q.WellBracketed
  /-- The pairs form a nest. -/
  nested : q.WellNested m
  /-- An expression lists the loops whose markers it stands between, the outermost first. -/
  enclosed : ∀ (i : Nat) x, q.order[i]? = some x →
    (q.expr x).loops = ((m.spans q 0).filter (·.encloses i)).map (·.loop)
  /-- The ports of a part follow those of its whole loop: they stand between the markers of the part
  whenever those of the whole loop stood between its markers. -/
  ports : ∀ x ∈ q.order, (q.expr x).role = .loopBegin →
    ∃ l, q.loops.binding? (q.expr x).loop = some (.expanded l) ∧
      p.loops.binding? (p.expr (q.ancestor p.exprs.size x)).loop = some (.unified l.origin) ∧
      List.Forall₂ (LoopPort.Follows (p.Encloses (p.expr (q.ancestor p.exprs.size x)).loop)
        (q.Encloses (q.expr x).loop) (q.ancestor p.exprs.size))
        (p.loops.unifiedAt l.origin).ports l.ports
  /-- Inputs and uses refer to each other. -/
  connected : q.Connected
  /-- Every consumer stands behind its producer. -/
  behind : q.ReadsBehind
  /-- What is read from outside the program was outside before. -/
  within : ∀ x ∈ q.order, ∀ i ∈ (q.expr x).inputs, i.source.producer ∈ q.order ∨
    i.source.producer < p.exprs.size ∧ i.source.producer ∉ p.order
  /-- Without the copies the program is as it was. -/
  kept : q.order.filter (· < p.exprs.size) = p.order

/-- Splitting the loops of a marked program succeeds and leaves a sound program of parts, if inputs and
uses refer to each other and every consumer stands behind its producer. -/
theorem splitLoops_soundly {p : Program} {n : Nest} (h : p.Undivided n) (connected : p.Connected)
    (behind : p.ReadsBehind) :
    ∃ events q m, Edit.splitLoops p = .ok events q ∧ p.SplitSoundly q m := by
  obtain ⟨events, q, m, hq, hs, hsteps, _⟩ := h.splitLoops_ok
  have hkept := (h.structureKept connected behind).of_steps hsteps
  have hfull : q.FullyNested m := ⟨hs.nested, hs.marked⟩
  refine ⟨events, q, m, hq, fun id hid => ?_, hfull.wellBracketed, hs.nested,
    fun i x hx => hs.nested.loops_eq hx, fun x hx hr => ?_, hkept.connected, hkept.behind,
    hkept.within, hkept.kept⟩
  · obtain ⟨x, hx, rfl⟩ := hs.marked id hid
    obtain ⟨l, hl⟩ := hs.split_all (hs.nested.flatten ▸ Nest.begins_subset_flatten hx)
      (hs.nested.fits.role_begin hx)
    exact ⟨l, hl, hkept.dense _ l hl⟩
  · obtain ⟨l, hl⟩ := hs.split_all hx hr
    obtain ⟨b, hb, hplace, hports⟩ := hkept.ports x hx hr
    obtain rfl : b = .expanded l := Option.some.inj (hb.symm.trans hl)
    refine ⟨l, hl, hplace, hports.imp fun port port' hport => ⟨hport.same, fun hin => ?_⟩⟩
    obtain ⟨hlists, hanc⟩ := hport.inside (h.nested.encloses_iff.mp hin)
    exact ⟨hs.nested.encloses_iff.mpr hlists, hanc⟩

end Program

/-- The grid copy is split soundly, with a handler for the first steps of its inner loop. -/
theorem splitLoops_soundly_watchedGrid :
    ∃ events q m, Edit.splitLoops watchedGrid = .ok events q ∧ watchedGrid.SplitSoundly q m := by
  refine Program.splitLoops_soundly (n := .expr 0 (.loop 6 7
    (.loop 4 5 (.expr 1 (.expr 2 .nil)) .nil) (.expr 3 .nil)))
    ⟨⟨?_, ?_, ?_, ?_⟩, ⟨?_, ?_⟩, ⟨?_, ?_, ?_⟩, ?_, ?_⟩ ?_ ?_
  case refine_11 =>
    intro x hx
    have hx : x = 6 ∨ x = 4 := by simpa [Nest.begins] using hx
    have hsplit : ∀ place, (watchedGrid.loops.unifiedAt place).Splittable →
        (watchedGrid.loops.unifiedAt place).Divisible := fun _ h => h.divisible
    rcases hx with rfl | rfl
    · exact ⟨0, by decide +kernel, hsplit 0 (by decide +kernel)⟩
    · exact ⟨1, by decide +kernel, hsplit 1 (by decide +kernel)⟩
  all_goals decide +kernel

end TensorKernel
