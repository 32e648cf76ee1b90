import TensorKernel.Proofs.Program.Bare

/-!
# Abstract registers of values and uses

A value has its abstract register at its source, and every use of it has one at its own port. Giving
a register to values writes exactly their sources and their uses, so a value and its uses agree as
long as every use belongs to one value.
-/

namespace TensorKernel.Program

variable {id : ExprId} {ids : List ExprId} {values : List ValueRef} {p q : Program} {r : Reg} {u x : UseRef}
  {v : ValueRef}

/-- Whether a value exists: its producer has this output. -/
def HasValue (p : Program) (v : ValueRef) : Prop := v.output < (p.expr v.producer).outputs.length

/-- Whether a use exists: its consumer has this input. -/
def HasUse (p : Program) (u : UseRef) : Prop := u.input < (p.expr u.consumer).inputs.length

instance (p : Program) (v : ValueRef) : Decidable (p.HasValue v) := inferInstanceAs (Decidable (_ < _))

instance (p : Program) (u : UseRef) : Decidable (p.HasUse u) := inferInstanceAs (Decidable (_ < _))

/-- The abstract register at a use. -/
def inputReg (p : Program) (u : UseRef) : Reg :=
  match (p.expr u.consumer).inputs[u.input]? with
  | some i => i.port.abstract
  | none => .unassigned

/-- A number without an expression has the expression without ports. -/
theorem expr_of_size_le (h : p.exprs.size ≤ id) : p.expr id = default := by
  simp [expr, Array.getD_eq_getD_getElem?, h]

theorem HasValue.lt_size (h : p.HasValue v) : v.producer < p.exprs.size := by
  refine Nat.lt_of_not_le fun hle => ?_
  rw [HasValue, expr_of_size_le hle] at h
  exact Nat.not_lt_zero _ h

theorem HasUse.lt_size (h : p.HasUse u) : u.consumer < p.exprs.size := by
  refine Nat.lt_of_not_le fun hle => ?_
  rw [HasUse, expr_of_size_le hle] at h
  exact Nat.not_lt_zero _ h

theorem hasValue_iff : p.HasValue v ↔ ∃ o, p.output? v = some o := by
  rw [HasValue, output?]
  constructor
  · intro h
    exact ⟨_, List.getElem?_eq_getElem h⟩
  · rintro ⟨o, h⟩
    exact (List.getElem?_eq_some_iff.mp h).1

/-- A value that does not exist has no register. -/
theorem abstractReg_of_not_hasValue (h : ¬ p.HasValue v) : p.abstractReg v = .unassigned := by
  have hn : p.output? v = none := by
    rw [hasValue_iff, not_exists] at h
    exact Option.eq_none_iff_forall_ne_some.mpr h
  rw [abstractReg, hn]

theorem inputReg_of_not_hasUse (h : ¬ p.HasUse u) : p.inputReg u = .unassigned := by
  rw [inputReg, List.getElem?_eq_none (Nat.le_of_not_lt h)]

theorem HasValue.of_mem_uses (h : u ∈ p.uses v) : p.HasValue v := by
  rw [hasValue_iff]
  unfold uses at h
  split at h
  · exact ⟨_, ‹_›⟩
  · exact absurd h List.not_mem_nil

theorem HasValue.of_isDefined (h : (p.abstractReg v).isDefined = true) : p.HasValue v := by
  refine Decidable.byContradiction fun hn => ?_
  rw [abstractReg_of_not_hasValue hn] at h
  exact absurd h (by decide)

@[simp] theorem bare_hasValue : p.bare.HasValue v ↔ p.HasValue v := by
  rw [HasValue, bare_expr, Expr.length_bare_outputs, HasValue]

@[simp] theorem bare_hasUse : p.bare.HasUse u ↔ p.HasUse u := by
  rw [HasUse, bare_expr, Expr.length_bare_inputs, HasUse]

section Congr

variable (h : p.bare = q.bare)

include h

/-- Writing registers keeps the values that exist. -/
theorem hasValue_congr (v : ValueRef) : p.HasValue v ↔ q.HasValue v := by
  rw [← bare_hasValue, h, bare_hasValue]

theorem hasUse_congr (u : UseRef) : p.HasUse u ↔ q.HasUse u := by
  rw [← bare_hasUse, h, bare_hasUse]

theorem uses_congr (v : ValueRef) : p.uses v = q.uses v := by
  rw [← bare_uses, h, bare_uses]

theorem order_congr : p.order = q.order := by
  rw [← bare_order, h, bare_order]

theorem length_congr : p.length = q.length := by
  rw [← bare_length, h, bare_length]

theorem aliasGroup_congr (v : ValueRef) : p.aliasGroup v = q.aliasGroup v := by
  rw [← bare_aliasGroup, h, bare_aliasGroup]

theorem ofRole_congr (role : Role) : p.ofRole role = q.ofRole role := by
  rw [← bare_ofRole, h, bare_ofRole]

theorem parameters_congr : p.parameters = q.parameters :=
  ofRole_congr h .parameter

theorem results_congr : p.results = q.results :=
  ofRole_congr h .result

theorem buffers_congr : p.buffers = q.buffers :=
  ofRole_congr h .buffer

theorem role_congr (id : ExprId) : (p.expr id).role = (q.expr id).role := by
  rw [← Expr.bare_role, ← bare_expr, h, bare_expr, Expr.bare_role]

theorem source_congr (id : ExprId) (k : Nat) :
    ((p.expr id).inputs[k]?).map (·.source) = ((q.expr id).inputs[k]?).map (·.source) := by
  have hbare : (p.expr id).bare = (q.expr id).bare := by rw [← bare_expr, h, bare_expr]
  have hinputs := congrArg (fun e : Expr => (e.inputs[k]?).map (·.source)) hbare
  simp only [Expr.bare_inputs, List.getElem?_map, Option.map_map] at hinputs
  exact hinputs

theorem sources_congr (id : ExprId) :
    (p.expr id).inputs.map (·.source) = (q.expr id).inputs.map (·.source) :=
  List.ext_getElem? fun k => by rw [List.getElem?_map, List.getElem?_map, source_congr h]

theorem group_congr (id : ExprId) : (p.expr id).group = (q.expr id).group := by
  rw [← Expr.bare_group, ← bare_expr, h, bare_expr, Expr.bare_group]

theorem exec_congr (id : ExprId) : (p.expr id).exec = (q.expr id).exec := by
  rw [← Expr.bare_exec, ← bare_expr, h, bare_expr, Expr.bare_exec]

end Congr

/-- Writing at inputs leaves the sources alone. -/
theorem abstractReg_mapInputPort (p : Program) (id : ExprId) (k : Nat) (f : Port → Port)
    (v : ValueRef) : (p.modifyExpr id (·.mapInputPort k f)).abstractReg v = p.abstractReg v := by
  have ho : (p.modifyExpr id (·.mapInputPort k f)).output? v = p.output? v := by
    simp only [output?, expr_modifyExpr]
    split <;> rfl
  rw [abstractReg, ho, abstractReg]

/-- Writing at an output leaves the inputs alone. -/
theorem inputReg_mapOutputPort (p : Program) (id : ExprId) (k : Nat) (f : Port → Port)
    (u : UseRef) : (p.modifyExpr id (·.mapOutputPort k f)).inputReg u = p.inputReg u := by
  have hi : ((p.modifyExpr id (·.mapOutputPort k f)).expr u.consumer).inputs =
      (p.expr u.consumer).inputs := by
    rw [expr_modifyExpr]
    split <;> rfl
  rw [inputReg, hi, inputReg]

theorem abstractReg_mapOutputPort (p : Program) (v w : ValueRef) (r : Reg) :
    (p.modifyExpr v.producer (·.mapOutputPort v.output (.setAbstract r))).abstractReg w =
      if v = w ∧ p.HasValue w then r else p.abstractReg w := by
  by_cases hw : p.HasValue w
  · have hsize := hw.lt_size
    obtain ⟨o, ho⟩ := hasValue_iff.mp hw
    simp only [abstractReg, output?, expr_modifyExpr, Expr.mapOutputPort, Expr.mapOutput] at ho ⊢
    by_cases hp : v.producer = w.producer
    · by_cases hk : v.output = w.output
      · have he : v = w := by cases v; cases w; simp_all
        simp [hsize, ho, he, hw, Port.setAbstract]
      · have he : v ≠ w := fun he => hk (congrArg _ he)
        simp [hp, hk, hsize, ho, he]
    · have he : v ≠ w := fun he => hp (congrArg _ he)
      simp [hp, ho, he]
  · have hb : (p.modifyExpr v.producer (·.mapOutputPort v.output (.setAbstract r))).bare = p.bare :=
      bare_modifyExpr p _ fun e => Expr.bare_mapOutputPort (Port.fresh_setAbstract r) e _
    rw [if_neg fun h => hw h.2, abstractReg_of_not_hasValue hw,
      abstractReg_of_not_hasValue fun h => hw ((hasValue_congr hb w).mp h)]

theorem inputReg_mapInputPort (p : Program) (u x : UseRef) (r : Reg) :
    (p.modifyExpr u.consumer (·.mapInputPort u.input (.setAbstract r))).inputReg x =
      if u = x ∧ p.HasUse x then r else p.inputReg x := by
  by_cases hx : p.HasUse x
  · have hsize := hx.lt_size
    have hi := List.getElem?_eq_getElem hx
    simp only [inputReg, expr_modifyExpr, Expr.mapInputPort] at hi ⊢
    by_cases hp : u.consumer = x.consumer
    · by_cases hk : u.input = x.input
      · have he : u = x := by cases u; cases x; simp_all
        simp [hsize, hi, he, hx, Port.setAbstract]
      · have he : u ≠ x := fun he => hk (congrArg _ he)
        simp [hp, hk, hsize, hi, he]
    · have he : u ≠ x := fun he => hp (congrArg _ he)
      simp [hp, hi, he]
  · have hb : (p.modifyExpr u.consumer (·.mapInputPort u.input (.setAbstract r))).bare = p.bare :=
      bare_modifyExpr p _ fun e => Expr.bare_mapInputPort (Port.fresh_setAbstract r) e _
    rw [if_neg fun h => hx h.2, inputReg_of_not_hasUse hx,
      inputReg_of_not_hasUse fun h => hx ((hasUse_congr hb x).mp h)]

/-- A value has the register that it was given; no other value changes its register. -/
theorem abstractReg_setAbstract (p : Program) (v w : ValueRef) (r : Reg) :
    (p.setAbstract v r).abstractReg w = if v = w ∧ p.HasValue w then r else p.abstractReg w := by
  rw [← abstractReg_mapOutputPort, setAbstract]
  generalize p.modifyExpr v.producer (·.mapOutputPort v.output (.setAbstract r)) = q
  induction p.uses v generalizing q with
  | nil => rfl
  | cons u uses ih => rw [List.foldl_cons, ih, abstractReg_mapInputPort]

/-- The uses of a value have the register that it was given; no other use changes its register. -/
theorem inputReg_setAbstract (p : Program) (v : ValueRef) (x : UseRef) (r : Reg) :
    (p.setAbstract v r).inputReg x = if x ∈ p.uses v ∧ p.HasUse x then r else p.inputReg x := by
  have hb : (p.modifyExpr v.producer (·.mapOutputPort v.output (.setAbstract r))).bare = p.bare :=
    bare_modifyExpr p _ fun e => Expr.bare_mapOutputPort (Port.fresh_setAbstract r) e _
  rw [← inputReg_mapOutputPort p v.producer v.output (.setAbstract r), setAbstract]
  revert hb
  generalize p.modifyExpr v.producer (·.mapOutputPort v.output (.setAbstract r)) = q
  induction p.uses v generalizing q with
  | nil => simp
  | cons u uses ih =>
    intro hb
    rw [List.foldl_cons, ih, inputReg_mapInputPort]
    · simp only [hasUse_congr hb]
      by_cases hx : p.HasUse x
      · by_cases hm : x ∈ uses
        · simp [hx, hm]
        · simp [hx, hm, eq_comm]
      · simp [hx]
    · rw [bare_modifyExpr q _ fun e => Expr.bare_mapInputPort (Port.fresh_setAbstract r) e _, hb]

/-- Give one register to several values. -/
def giveAll (p : Program) (r : Reg) (values : List ValueRef) : Program :=
  values.foldl (fun p v => p.setAbstract v r) p

@[simp] theorem bare_giveAll (p : Program) (r : Reg) (values : List ValueRef) :
    (p.giveAll r values).bare = p.bare := by
  induction values generalizing p with
  | nil => rfl
  | cons v values ih => exact (ih _).trans (bare_setAbstract p v r)

theorem abstractReg_giveAll (p : Program) (r : Reg) (values : List ValueRef) (w : ValueRef) :
    (p.giveAll r values).abstractReg w =
      if w ∈ values ∧ p.HasValue w then r else p.abstractReg w := by
  induction values generalizing p with
  | nil => simp [giveAll]
  | cons v values ih =>
    have hstep := ih (p.setAbstract v r)
    simp only [abstractReg_setAbstract, hasValue_congr (bare_setAbstract p v r)] at hstep
    refine hstep.trans ?_
    by_cases hw : p.HasValue w
    · by_cases hm : w ∈ values
      · simp [hw, hm]
      · simp [hw, hm, eq_comm]
    · simp [hw]

/-- The uses of the values that a register is given to have that register. -/
theorem inputReg_giveAll_of_mem (hv : v ∈ values) (hx : x ∈ p.uses v) (hu : p.HasUse x) :
    (p.giveAll r values).inputReg x = r := by
  suffices H : ∀ (values : List ValueRef) (q : Program), q.bare = p.bare →
      (v ∈ values ∨ q.inputReg x = r) → (q.giveAll r values).inputReg x = r from
    H values p rfl (.inl hv)
  intro values
  induction values with
  | nil =>
    intro q _ h
    exact h.resolve_left List.not_mem_nil
  | cons w values ih =>
    intro q hq h
    refine ih (q.setAbstract w r) ((bare_setAbstract q w r).trans hq) ?_
    simp only [inputReg_setAbstract, hasUse_congr hq, uses_congr hq]
    rcases h with h | h
    · rcases List.mem_cons.mp h with rfl | h
      · exact .inr (if_pos ⟨hx, hu⟩)
      · exact .inl h
    · right
      split
      · rfl
      · exact h

/-- The uses of other values keep their register. -/
theorem inputReg_giveAll_of_forall (hx : ∀ v ∈ values, x ∉ p.uses v) :
    (p.giveAll r values).inputReg x = p.inputReg x := by
  induction values generalizing p with
  | nil => rfl
  | cons w values ih =>
    have hw : (p.setAbstract w r).inputReg x = p.inputReg x := by
      rw [inputReg_setAbstract, if_neg fun h => hx w (by simp) h.1]
    refine (ih ?_).trans hw
    intro v hv
    rw [uses_congr (bare_setAbstract p w r)]
    exact hx v (by simp [hv])

/-- The state of a port, if the expression has it. -/
def portAt (p : Program) (side : Side) (id : ExprId) (k : Nat) : Option Port :=
  match side with
  | .input => ((p.expr id).inputs[k]?).map (·.port)
  | .output => ((p.expr id).outputs[k]?).map (·.port)

theorem abstractReg_eq_portAt (p : Program) (v : ValueRef) :
    p.abstractReg v = ((p.portAt .output v.producer v.output).map (·.abstract)).getD .unassigned := by
  simp only [abstractReg, output?, portAt]
  cases (p.expr v.producer).outputs[v.output]? <;> rfl

theorem inputReg_eq_portAt (p : Program) (u : UseRef) :
    p.inputReg u = ((p.portAt .input u.consumer u.input).map (·.abstract)).getD .unassigned := by
  simp only [inputReg, portAt]
  cases (p.expr u.consumer).inputs[u.input]? <;> rfl

/-- A number without an expression has no ports. -/
theorem portAt_of_size_le (h : p.exprs.size ≤ id) (side : Side) (k : Nat) : p.portAt side id k = none := by
  cases side <;> simp only [portAt, expr_of_size_le h] <;> rfl

/-- Changing the state of a port changes no other port. -/
theorem portAt_modifyPort (p : Program) (side side' : Side) (id id' : ExprId) (k k' : Nat)
    (f : Port → Port) :
    (p.modifyPort ⟨id, side, k⟩ f).portAt side' id' k' =
      if side = side' ∧ id = id' ∧ k = k' then (p.portAt side' id' k').map f
      else p.portAt side' id' k' := by
  by_cases hs : id' < p.exprs.size
  · by_cases hid : id = id'
    · subst hid
      cases side <;> cases side' <;>
        simp only [portAt, modifyPort, expr_modifyExpr, hs, Expr.mapInputPort, Expr.mapOutputPort,
          Expr.mapOutput, List.getElem?_modify, Int.toNat_natCast, reduceCtorEq, and_self, false_and,
          true_and, if_true, if_false]
      · cases (p.expr id).inputs[k']? <;> by_cases hk : k = k' <;> simp [hk]
      · cases (p.expr id).outputs[k']? <;> by_cases hk : k = k' <;> simp [hk]
    · simp [portAt, modifyPort, expr_modifyExpr, hid]
  · have hs' : (p.modifyPort ⟨id, side, k⟩ f).exprs.size ≤ id' := by
      simpa [modifyPort, modifyExpr] using Nat.le_of_not_lt hs
    simp [portAt_of_size_le hs', portAt_of_size_le (Nat.le_of_not_lt hs)]

/-- The current register of every port of the listed expressions is its abstract one. -/
def Synced (p : Program) (ids : List ExprId) : Prop :=
  ∀ side id k port, id ∈ ids → p.portAt side id k = some port → port.reg = port.abstract

theorem Synced.modifyPort (h : p.Synced ids) (r : Reg) (side : Side) (id : ExprId) (k : Nat) :
    (p.modifyPort ⟨id, side, k⟩ (.setAbstract r)).Synced ids := by
  intro side' id' k' port hid hp
  rw [portAt_modifyPort] at hp
  split at hp
  · obtain ⟨_, _, rfl⟩ := Option.map_eq_some_iff.mp hp
    rfl
  · exact h side' id' k' port hid hp

theorem Synced.setAbstract (h : p.Synced ids) (v : ValueRef) (r : Reg) : (p.setAbstract v r).Synced ids := by
  have hstart : (p.modifyExpr v.producer (·.mapOutputPort v.output (.setAbstract r))).Synced ids :=
    h.modifyPort r .output v.producer v.output
  unfold Program.setAbstract
  revert hstart
  generalize p.modifyExpr v.producer (·.mapOutputPort v.output (.setAbstract r)) = q
  induction p.uses v generalizing q with
  | nil =>
    intro hq
    exact hq
  | cons u uses ih =>
    intro hq
    exact ih _ (hq.modifyPort r .input u.consumer u.input)

/-- Giving registers to values keeps current and abstract registers together. -/
theorem Synced.giveAll (h : p.Synced ids) (r : Reg) (values : List ValueRef) :
    (p.giveAll r values).Synced ids := by
  induction values generalizing p with
  | nil => exact h
  | cons v values ih => exact ih (h.setAbstract v r)

end TensorKernel.Program
