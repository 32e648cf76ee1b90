import TensorKernel.Liveness.Ranges

/-!
# Programs without their registers

The passes from live ranges on write registers into ports and change nothing else of a program. The
bare program is what is left if all registers are taken out. Two programs with the same bare program
agree on everything that does not look at registers: uses, alias groups, views, positions and last
uses.
-/

namespace TensorKernel

variable {f : Port → Port}

/-- A change of one item that a view does not see is not seen in the list either. -/
theorem map_modify_of_forall {α β : Type} {f : α → α} {g : α → β} (h : ∀ a, g (f a) = g a)
    (l : List α) (k : Nat) : (l.modify k f).map g = l.map g := by
  refine List.ext_getElem? fun i => ?_
  rw [List.getElem?_map, List.getElem?_map, List.getElem?_modify]
  cases l[i]? with
  | none => rfl
  | some a =>
    by_cases hk : k = i
    · simp [hk, h]
    · simp [hk]

theorem Port.fresh_setAbstract (r : Reg) (port : Port) : (port.setAbstract r).fresh = port.fresh := rfl

theorem Port.fresh_setReg (r : Reg) (port : Port) : (port.setReg r).fresh = port.fresh := rfl

namespace Expr

/-- An expression without registers. -/
def bare (e : Expr) : Expr := e.mapPorts Port.fresh

@[simp] theorem bare_name (e : Expr) : e.bare.name = e.name := rfl

@[simp] theorem bare_role (e : Expr) : e.bare.role = e.role := rfl

@[simp] theorem bare_loops (e : Expr) : e.bare.loops = e.loops := rfl

@[simp] theorem bare_loop (e : Expr) : e.bare.loop = e.loop := rfl

@[simp] theorem bare_group (e : Expr) : e.bare.group = e.group := rfl

@[simp] theorem bare_exec (e : Expr) : e.bare.exec = e.exec := rfl

theorem bare_inputs (e : Expr) :
    e.bare.inputs = e.inputs.map fun i => { i with port := i.port.fresh } := rfl

theorem bare_outputs (e : Expr) :
    e.bare.outputs = e.outputs.map fun o => { o with port := o.port.fresh } := rfl

@[simp] theorem length_bare_outputs (e : Expr) : e.bare.outputs.length = e.outputs.length := by
  rw [bare_outputs, List.length_map]

@[simp] theorem length_bare_inputs (e : Expr) : e.bare.inputs.length = e.inputs.length := by
  rw [bare_inputs, List.length_map]

/-- Writing a register at an input leaves the bare expression as it is. -/
theorem bare_mapInputPort (hf : ∀ port, (f port).fresh = port.fresh) (e : Expr) (k : Nat) :
    (e.mapInputPort k f).bare = e.bare := by
  unfold bare mapPorts mapInputPort
  dsimp only
  rw [map_modify_of_forall]
  intro i
  rw [hf]

/-- Writing a register at an output leaves the bare expression as it is. -/
theorem bare_mapOutputPort (hf : ∀ port, (f port).fresh = port.fresh) (e : Expr) (k : Nat) :
    (e.mapOutputPort k f).bare = e.bare := by
  unfold bare mapPorts mapOutputPort mapOutput
  dsimp only
  rw [map_modify_of_forall]
  intro o
  dsimp only
  rw [hf]

end Expr

namespace Program

/-- A program without registers. -/
def bare (p : Program) : Program := { p with exprs := p.exprs.map Expr.bare }

@[simp] theorem bare_order (p : Program) : p.bare.order = p.order := rfl

@[simp] theorem bare_length (p : Program) : p.bare.length = p.length := rfl

@[simp] theorem bare_exprs_size (p : Program) : p.bare.exprs.size = p.exprs.size := by
  simp [bare]

@[simp] theorem bare_expr (p : Program) (id : ExprId) : p.bare.expr id = (p.expr id).bare := by
  simp only [expr, bare, Array.getD_eq_getD_getElem?, Array.getElem?_map]
  cases p.exprs[id]? <;> rfl

/-- Programs whose expressions are equal without registers. -/
theorem bare_modifyExpr (p : Program) (id : ExprId) {f : Expr → Expr}
    (hf : ∀ e, (f e).bare = e.bare) : (p.modifyExpr id f).bare = p.bare := by
  unfold bare modifyExpr
  dsimp only
  congr 1
  refine Array.ext_getElem? fun i => ?_
  rw [Array.getElem?_map, Array.getElem?_map, Array.getElem?_modify]
  by_cases hi : id = i
  · cases p.exprs[i]? <;> simp [hi, hf]
  · simp [hi]

/-- The registers at one port do not show in the bare program. -/
theorem bare_modifyPort (p : Program) (r : PortRef) (hf : ∀ port, (f port).fresh = port.fresh) :
    (p.modifyPort r f).bare = p.bare := by
  refine bare_modifyExpr p r.expr fun e => ?_
  cases r.side with
  | input => exact Expr.bare_mapInputPort hf e _
  | output => exact Expr.bare_mapOutputPort hf e _

/-- Giving a value an abstract register does not show in the bare program. -/
@[simp] theorem bare_setAbstract (p : Program) (v : ValueRef) (r : Reg) :
    (p.setAbstract v r).bare = p.bare := by
  unfold setAbstract
  have hp : (p.modifyExpr v.producer (·.mapOutputPort v.output (.setAbstract r))).bare = p.bare :=
    bare_modifyExpr p _ fun e => Expr.bare_mapOutputPort (Port.fresh_setAbstract r) e _
  revert hp
  generalize p.modifyExpr v.producer (·.mapOutputPort v.output (.setAbstract r)) = q
  induction p.uses v generalizing q with
  | nil => exact id
  | cons u uses ih =>
    intro hq
    rw [List.foldl_cons]
    refine ih _ ?_
    rw [bare_modifyExpr q _ fun e => Expr.bare_mapInputPort (Port.fresh_setAbstract r) e _, hq]

theorem bare_output? (p : Program) (v : ValueRef) :
    p.bare.output? v = (p.output? v).map fun o => { o with port := o.port.fresh } := by
  simp only [output?, bare_expr, Expr.bare_outputs, List.getElem?_map]

@[simp] theorem bare_uses (p : Program) (v : ValueRef) : p.bare.uses v = p.uses v := by
  simp only [uses, bare_output?]
  cases p.output? v <;> rfl

@[simp] theorem bare_root (p : Program) (v : ValueRef) : p.bare.root v = p.root v := by
  simp only [root, bare_output?]
  cases p.output? v <;> rfl

@[simp] theorem bare_aliasGroup (p : Program) (v : ValueRef) :
    p.bare.aliasGroup v = p.aliasGroup v := by
  simp only [aliasGroup, bare_output?, bare_root]
  cases p.output? (p.root v) <;> rfl

@[simp] theorem bare_ofRole (p : Program) (role : Role) : p.bare.ofRole role = p.ofRole role := by
  simp only [ofRole, bare_order, bare_expr, Expr.bare_role]

@[simp] theorem bare_nextView? (p : Program) (id : ExprId) : p.bare.nextView? id = p.nextView? id := by
  simp only [nextView?, bare_expr, Expr.bare_outputs]
  cases (p.expr id).outputs with
  | nil => rfl
  | cons o outputs =>
    simp only [List.map_cons, Expr.bare_role]
    rfl

@[simp] theorem bare_prevView? (p : Program) (id : ExprId) : p.bare.prevView? id = p.prevView? id := by
  simp only [prevView?, bare_expr, Expr.bare_inputs]
  cases (p.expr id).inputs with
  | nil => rfl
  | cons i inputs =>
    simp only [List.map_cons, Expr.bare_role]
    rfl

@[simp] theorem bare_viewsAfter (p : Program) (id : ExprId) : p.bare.viewsAfter id = p.viewsAfter id := by
  rw [viewsAfter, viewsAfter, bare_exprs_size, funext p.bare_nextView?]

@[simp] theorem bare_viewsBefore (p : Program) (id : ExprId) :
    p.bare.viewsBefore id = p.viewsBefore id := by
  rw [viewsBefore, viewsBefore, bare_exprs_size, funext p.bare_prevView?]

@[simp] theorem bare_output (p : Program) (id : ExprId) (k : Int) :
    p.bare.output id k = p.output id k := by
  simp only [output, bare_expr, Expr.length_bare_outputs, Expr.bare_name]

@[simp] theorem bare_input (p : Program) (id : ExprId) (k : Int) : p.bare.input id k = p.input id k := by
  simp only [input, bare_expr, Expr.bare_inputs, List.length_map, Expr.bare_name, List.getElem?_map]
  cases (p.expr id).inputs[k.toNat]? <;> rfl

theorem bare_list (p : Program) : p.bare.list = p.list.map Expr.bare := by
  simp only [list, bare_order, List.map_map]
  exact List.map_congr_left fun id _ => p.bare_expr id

@[simp] theorem bare_loopEnd? (p : Program) (id : LoopId) : p.bare.loopEnd? id = p.loopEnd? id := by
  simp only [loopEnd?, bare_list, List.zipIdx_map, List.filter_map, List.getLast?_map,
    Option.map_map]
  rfl

@[simp] theorem bare_loopCarriedEnd? (p : Program) (producer consumer : Expr) :
    p.bare.loopCarriedEnd? producer.bare consumer.bare = p.loopCarriedEnd? producer consumer := by
  simp only [loopCarriedEnd?, Expr.bare_loops, funext p.bare_loopEnd?]

@[simp] theorem bare_useEnd (p : Program) (producer : Expr) (u : UseRef) :
    p.bare.useEnd producer.bare u = p.useEnd producer u := by
  simp only [useEnd, bare_expr, bare_loopCarriedEnd?, Expr.bare_exec]

@[simp] theorem bare_lastUse (p : Program) (v : ValueRef) : p.bare.lastUse v = p.lastUse v := by
  simp only [lastUse, bare_expr, bare_uses, bare_useEnd, Expr.bare_exec]

@[simp] theorem bare_parameterPointer (p : Program) (id : ExprId) :
    RangeStep.parameterPointer id p.bare = RangeStep.parameterPointer id p := by
  simp only [RangeStep.parameterPointer, bare_output, bare_viewsAfter]

@[simp] theorem bare_resultPointer (p : Program) (id : ExprId) :
    RangeStep.resultPointer id p.bare = RangeStep.resultPointer id p := by
  simp only [RangeStep.resultPointer, bare_input, bare_viewsBefore]

end Program

end TensorKernel
