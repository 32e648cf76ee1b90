import TensorKernel.Proofs.Allocation.Check
import TensorKernel.Proofs.Allocation.Collisions
import TensorKernel.Proofs.Spill.Bracket

/-!
# Programs with the same conventions

Conventions look at parameters, results, buffers and reductions, at the views of them and at what these
read. A program conforms to another one if all of this looks alike in both, whatever else is in it. The same
values are fixed then, and if conventions can be kept in the one program, they can be kept in the other one:
values must not come to share registers there, nor change their banks.
-/

namespace TensorKernel

/-- Whether conventions fix registers of expressions with the role. -/
def Role.isFixed (role : Role) : Bool :=
  role = .parameter ∨ role = .result ∨ role = .buffer ∨ role.isHorizontal

namespace Program

/-- What conventions look at in `p` looks alike in `q`, and they look at nothing else there. -/
structure Conforms (p q : Program) : Prop where
  /-- The expressions are there. -/
  mem : ∀ x ∈ p.order, x ∈ q.order
  /-- There are no others whose registers are fixed. -/
  fixed : q.order.filter (fun x => (q.expr x).role.isFixed) =
    p.order.filter fun x => (p.expr x).role.isFixed
  /-- The roles are the same. -/
  role : ∀ x ∈ p.order, (q.expr x).role = (p.expr x).role
  /-- So are the register groups. -/
  group : ∀ x ∈ p.order, (q.expr x).group = (p.expr x).group
  /-- The same values are read. -/
  sources : ∀ x ∈ p.order, (q.expr x).inputs.map (·.source) = (p.expr x).inputs.map (·.source)
  /-- The same values are there. -/
  values : ∀ v, v.producer ∈ p.order → (q.HasValue v ↔ p.HasValue v)
  /-- The same views lead to an expression. -/
  before : ∀ x ∈ p.order, q.viewsBefore x = p.viewsBefore x
  /-- The same views follow it. -/
  after : ∀ x ∈ p.order, q.viewsAfter x = p.viewsAfter x

variable {p q r : Program}

theorem Conforms.trans (h : p.Conforms q) (h' : q.Conforms r) : p.Conforms r where
  mem x hx := h'.mem x (h.mem x hx)
  fixed := h'.fixed.trans h.fixed
  role x hx := (h'.role x (h.mem x hx)).trans (h.role x hx)
  group x hx := (h'.group x (h.mem x hx)).trans (h.group x hx)
  sources x hx := (h'.sources x (h.mem x hx)).trans (h.sources x hx)
  values v hv := (h'.values v (h.mem _ hv)).trans (h.values v hv)
  before x hx := (h'.before x (h.mem x hx)).trans (h.before x hx)
  after x hx := (h'.after x (h.mem x hx)).trans (h.after x hx)

/-- Conventions do not look at registers. -/
theorem Conforms.of_bare (h : q.bare = p.bare) : p.Conforms q where
  mem x hx := order_congr h ▸ hx
  fixed := by
    rw [order_congr h]
    exact List.filter_congr fun x _ => by rw [role_congr h]
  role x _ := role_congr h x
  group x _ := group_congr h x
  sources x _ := sources_congr h x
  values v _ := hasValue_congr h v
  before x _ := by rw [← bare_viewsBefore, h, bare_viewsBefore]
  after x _ := by rw [← bare_viewsAfter, h, bare_viewsAfter]

/-- Nor do they look at positions. -/
theorem Repositioned.conforms (h : p.Repositioned q) : p.Conforms q where
  mem x hx := h.order ▸ hx
  fixed := by
    rw [h.order]
    exact List.filter_congr fun x _ => by rw [h.role]
  role x _ := h.role x
  group x _ := by
    obtain ⟨position, hx⟩ := h.expr x
    rw [hx]
  sources x _ := by rw [h.inputs]
  values v _ := by rw [HasValue, h.outputs, HasValue]
  before x _ := by
    have hprev : q.prevView? = p.prevView? := funext fun y => by
      unfold prevView?
      simp only [h.inputs, h.role]
    rw [viewsBefore, hprev, h.size, viewsBefore]
  after x _ := by
    have hnext : q.nextView? = p.nextView? := funext fun y => by
      unfold nextView?
      simp only [h.outputs, h.role]
    rw [viewsAfter, hnext, h.size, viewsAfter]

/-! ### What is fixed -/

/-- Only what has a fixed role fixes something. -/
theorem fixedFrom_filter (boundary n : Nat) (ids : List ExprId) :
    p.fixedFrom boundary n (ids.filter fun x => (p.expr x).role.isFixed) =
      p.fixedFrom boundary n ids := by
  induction ids generalizing n with
  | nil => rfl
  | cons id ids ih =>
    rw [fixedFrom]
    by_cases hfixed : (p.expr id).role.isFixed = true
    · rw [List.filter_cons, if_pos hfixed, fixedFrom, ih, ih]
    · rw [List.filter_cons, if_neg hfixed, ih]
      simp only [Role.isFixed, decide_eq_true_eq, not_or] at hfixed
      rw [if_neg hfixed.2.2.1, if_neg hfixed.2.2.2]

namespace Conforms

variable (h : p.Conforms q)

include h

theorem ofRole {role : Role} (hrole : role.isFixed = true) : q.ofRole role = p.ofRole role := by
  have hall : ∀ r : Program, r.ofRole role =
      (r.order.filter fun x => (r.expr x).role.isFixed).filter fun x => (r.expr x).role = role := by
    intro r
    rw [List.filter_filter, Program.ofRole]
    refine List.filter_congr fun x _ => ?_
    by_cases hx : (r.expr x).role = role
    · simp [hx, hrole]
    · simp [hx]
  rw [hall, hall, h.fixed]
  refine List.filter_congr fun x hx => ?_
  rw [h.role x (List.mem_of_mem_filter hx)]

theorem parameters : q.parameters = p.parameters := h.ofRole rfl

theorem results : q.results = p.results := h.ofRole rfl

theorem buffers : q.buffers = p.buffers := h.ofRole rfl

theorem firstSources {x : ExprId} (hx : x ∈ p.order) : q.firstSources x = p.firstSources x := by
  rw [Program.firstSources, List.map_take, h.sources x hx, ← List.map_take, Program.firstSources]

theorem seeds (closed : p.Closed) {v : ValueRef} (hv : v.producer ∈ p.order) :
    Pins.seeds q v = Pins.seeds p v := by
  rw [seeds_eq, seeds_eq, h.sources _ hv]
  refine List.flatMap_congr fun filled hfilled => ?_
  obtain ⟨i, hi, rfl⟩ := List.mem_map.mp hfilled
  have hmem := closed.sources _ hv i hi
  rw [h.firstSources hmem, h.role _ hmem]
  refine List.flatMap_congr fun seed hseed => ?_
  obtain ⟨j, hj, rfl⟩ := List.mem_map.mp hseed
  rw [h.role _ (closed.sources _ hmem j (List.mem_of_mem_take hj))]

theorem fixedFrom (linked : p.Linked) (closed : p.Closed) {boundary : Nat} {ids : List ExprId}
    (hids : ∀ id ∈ ids, id ∈ p.order) (n : Nat) :
    q.fixedFrom boundary n ids = p.fixedFrom boundary n ids := by
  induction ids generalizing n with
  | nil => rfl
  | cons id ids ih =>
    have hid := hids id List.mem_cons_self
    have ih := ih fun other hother => hids other (List.mem_cons_of_mem _ hother)
    have hbuffer : q.fixedByBuffer boundary id = p.fixedByBuffer boundary id := by
      simp only [fixedByBuffer, h.group id hid, h.sources id hid, h.after id hid]
      congr 2
      refine List.flatMap_congr fun x hx => ?_
      rw [h.firstSources (closed.mem_viewsAfter linked hid hx).1]
    have hreduction : q.fixedByReduction n id = p.fixedByReduction n id := by
      rw [fixedByReduction, h.firstSources hid, fixedByReduction]
      refine congrArg _ (List.flatMap_congr fun v hv => ?_)
      obtain ⟨i, hi, rfl⟩ := List.mem_map.mp hv
      rw [h.seeds closed (closed.sources id hid i (List.mem_of_mem_take hi))]
    rw [Program.fixedFrom, Program.fixedFrom, h.role id hid, hbuffer, hreduction, ih, ih]

/-- The same values are fixed to the same registers. -/
theorem fixed_eq (linked : p.Linked) (closed : p.Closed) : q.fixed = p.fixed := by
  rw [Program.fixed, Program.fixed, h.parameters, h.results, ← fixedFrom_filter, h.fixed,
    h.fixedFrom linked closed fun x hx => List.mem_of_mem_filter hx, fixedFrom_filter]
  congr 2
  · refine List.flatMap_congr fun entry hentry => ?_
    have hid := List.mem_of_mem_filter (List.fst_mem_of_mem_zipIdx hentry)
    rw [fixedByParameter, h.after _ hid, fixedByParameter]
  · refine List.flatMap_congr fun entry hentry => ?_
    have hid := List.mem_of_mem_filter (List.fst_mem_of_mem_zipIdx hentry)
    rw [fixedByResult, h.before _ hid, fixedByResult]
    exact List.flatMap_congr fun x hx => by rw [h.firstSources (closed.mem_viewsBefore hid hx)]

/-- Buffers have the same registers. -/
theorem buffersInRange (hp : p.BuffersInRange) : q.BuffersInRange := by
  intro id hid
  rw [h.buffers] at hid
  rw [h.parameters, h.results, h.group id (List.mem_of_mem_filter hid)]
  exact hp id hid

/-- The pointers of the boundary are the same. -/
theorem isPointer_iff (linked : p.Linked) (closed : p.Closed) {values : List ValueRef} :
    q.IsPointer values ↔ p.IsPointer values := by
  have houtput : ∀ x ∈ p.order, ∀ v, q.output x 0 = .ok v ↔ p.output x 0 = .ok v := fun x hx v => by
    rw [output_zero_eq_ok, output_zero_eq_ok, h.values ⟨x, 0⟩ hx]
  have hinput : ∀ x ∈ p.order, ∀ v, q.input x 0 = .ok v ↔ p.input x 0 = .ok v := fun x hx v => by
    rw [input_zero_eq_ok, input_zero_eq_ok, ← List.getElem?_map, h.sources x hx, List.getElem?_map]
  have hparameter : ∀ id ∈ p.parameters,
      (RangeStep.parameterPointer id q = .ok values ↔ RangeStep.parameterPointer id p = .ok values) := by
    intro id hid
    have hid := List.mem_of_mem_filter hid
    simp only [RangeStep.parameterPointer, Outcome.except_bind_eq_ok, houtput id hid, h.after id hid,
      Outcome.mapM_eq_ok_congr fun x hx => houtput x (closed.mem_viewsAfter linked hid hx).1]
  have hresult : ∀ id ∈ p.results,
      (RangeStep.resultPointer id q = .ok values ↔ RangeStep.resultPointer id p = .ok values) := by
    intro id hid
    have hid := List.mem_of_mem_filter hid
    simp only [RangeStep.resultPointer, Outcome.except_bind_eq_ok, hinput id hid, h.before id hid,
      Outcome.mapM_eq_ok_congr fun x hx => hinput x (closed.mem_viewsBefore hid (List.mem_cons_of_mem _ hx))]
  constructor
  · intro hp
    cases hp with
    | @parameter id _ hid hvalues =>
      rw [h.parameters] at hid
      exact .parameter hid ((hparameter id hid).mp hvalues)
    | @result id _ hid hvalues =>
      rw [h.results] at hid
      exact .result hid ((hresult id hid).mp hvalues)
  · intro hp
    cases hp with
    | @parameter id _ hid hvalues =>
      exact .parameter (h.parameters ▸ hid) ((hparameter id hid).mpr hvalues)
    | @result id _ hid hvalues => exact .result (h.results ▸ hid) ((hresult id hid).mpr hvalues)

/-- Conventions can be kept if they can be kept in the other program: what shares a register is the same value
or belongs to one pointer, and banks are those of the other program. -/
theorem pins_ok (hp : p.Pinnable) (hq : q.Pinnable) (full : ∀ x : Nat, x < p.exprs.size → x ∈ p.order)
    {pins : RegMap} (hpins : p.pins = .ok pins)
    (together : ∀ v w, p.Owns v → p.Owns w → q.abstractReg v = q.abstractReg w →
      v = w ∨ ∃ values, q.IsPointer values ∧ v ∈ values ∧ w ∈ values)
    (banks : ∀ v, p.Owns v → (q.abstractReg v).bank = (p.abstractReg v).bank) :
    ∃ pins, q.pins = .ok pins := by
  have hsame := h.fixed_eq hp.linked hp.closed
  have howns : ∀ entry ∈ p.fixed, p.Owns entry.1 := fun entry hentry => by
    have hvalue := hp.hasValue_of_mem_fixed hentry
    exact ⟨full _ hvalue.lt_size, hvalue⟩
  have hfixed := hpins
  rw [hp.pins_eq] at hfixed
  obtain ⟨hbanks, hget⟩ := Pins.pinEach_eq_ok hfixed
  have hpinned : ∀ entry ∈ p.fixed, pins.get? (p.abstractReg entry.1) = some entry.2 :=
    fun entry hentry => (hget _ _).mpr (.inr ⟨entry, hentry, rfl, rfl⟩)
  rw [hq.pins_eq]
  refine Pins.pinEach_ok (fun entry hentry => ⟨hq.registers _ (hq.hasValue_of_mem_fixed hentry), ?_⟩)
    fun entry hentry other hother hreg => ?_
  · rw [hsame] at hentry
    rw [banks _ (howns entry hentry), (hbanks entry hentry).1]
  · rw [hsame] at hentry hother
    have hget := hpinned entry hentry
    have hget' := hpinned other hother
    rcases together _ _ (howns entry hentry) (howns other hother) hreg with heq | ⟨values, hpointer, hv, hw⟩
    · rw [heq, hget'] at hget
      exact (Option.some.inj hget).symm
    · -- Both are in the register of the pointer.
      obtain ⟨n, hn⟩ := ((h.isPointer_iff hp.linked hp.closed).mp hpointer).exists_place
      rw [get?_pins_pointer hpins hn hv] at hget
      rw [get?_pins_pointer hpins hn hw] at hget'
      exact (Option.some.inj hget).symm.trans (Option.some.inj hget')

end Conforms

end Program

end TensorKernel
