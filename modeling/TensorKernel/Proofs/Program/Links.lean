import TensorKernel.Proofs.Program.Headers
import TensorKernel.Proofs.Program.Wiring

/-!
# Making expressions and joining values

While a program is built and changed, its ports have no registers, inputs and uses refer to each
other and alias groups divide the values. A new expression enters itself among the uses of what it
reads, and nothing else changes. A value that is alone may be joined to another one; it then belongs
to the group of that value, and no other group changes.
-/

namespace TensorKernel

variable {id : ExprId} {f : Output → Output} {α : Type} {u : UseRef} {v w x : ValueRef}

/-- An expression without registers whose outputs nobody reads yet. -/
structure Expr.Unused (e : Expr) : Prop where
  /-- No input has a register. -/
  inputs : ∀ i ∈ e.inputs, i.port.fresh = i.port
  /-- No output has a register, a use or an alias. -/
  outputs : ∀ o ∈ e.outputs, o = { port := o.port.fresh }

namespace Program

/-- The wiring of all expressions that were ever made, whether or not they are in the program. -/
structure Wired (p : Program) : Prop where
  /-- No input has a register. -/
  freshInput : ∀ id, ∀ i ∈ (p.expr id).inputs, i.port.fresh = i.port
  /-- No output has a register. -/
  freshOutput : ∀ v o, p.output? v = some o → o.port.fresh = o.port
  /-- An input reads a value exactly when it is among the uses of the value. -/
  linked : ∀ id k v, ((p.expr id).inputs[k]?).map (·.source) = some v ↔ ⟨id, k⟩ ∈ p.uses v
  /-- Alias groups divide the values. -/
  grouped : p.Grouped

variable {p q : Program}

section OfOutputs

variable (ho : ∀ v, q.output? v = p.output? v)

include ho

theorem uses_of_output? (v : ValueRef) : q.uses v = p.uses v := by
  rw [uses, ho, uses]

theorem aliasGroup_of_output? (v : ValueRef) : q.aliasGroup v = p.aliasGroup v := by
  simp only [aliasGroup, root, ho]

theorem hasValue_of_output? (v : ValueRef) : q.HasValue v ↔ p.HasValue v := by
  rw [hasValue_iff, ho, hasValue_iff]

end OfOutputs

/-- Alias groups that stay divide the values also when values are added. -/
theorem Grouped.of_aliasGroup (h : p.Grouped) (hvalues : ∀ v, p.HasValue v → q.HasValue v)
    (hgroups : ∀ v, q.aliasGroup v = p.aliasGroup v) : q.Grouped := by
  intro v hv
  rw [hgroups]
  by_cases hp : p.HasValue v
  · obtain ⟨hself, hall⟩ := h v hp
    refine ⟨hself, fun m hm => ⟨hvalues m (hall m hm).1, ?_⟩⟩
    rw [hgroups, (hall m hm).2]
  · rw [aliasGroup_of_not_hasValue hp]
    refine ⟨List.mem_singleton.mpr rfl, fun m hm => ?_⟩
    rw [List.mem_singleton.mp hm, hgroups, aliasGroup_of_not_hasValue hp]
    exact ⟨hv, rfl⟩

/-- The wiring depends on the ports only. -/
theorem Wired.of_ports (h : p.Wired) (ho : ∀ v, q.output? v = p.output? v)
    (hi : ∀ id, (q.expr id).inputs = (p.expr id).inputs) : q.Wired where
  freshInput id := by
    rw [hi]
    exact h.freshInput id
  freshOutput v := by
    rw [ho]
    exact h.freshOutput v
  linked id k v := by
    rw [hi, uses_of_output? ho]
    exact h.linked id k v
  grouped := h.grouped.of_aliasGroup (fun v => (hasValue_of_output? ho v).mpr) (aliasGroup_of_output? ho)

/-- Ports without registers are as they are without them. -/
theorem Wired.fresh (h : p.Wired) : p.Fresh := by
  intro id _
  have hin : (p.expr id).inputs.map (fun i => { i with port := i.port.fresh }) =
      (p.expr id).inputs := by
    refine (List.map_congr_left fun i hi => ?_).trans (List.map_id _)
    rw [h.freshInput id i hi]
    rfl
  have hout : (p.expr id).outputs.map (fun o => { o with port := o.port.fresh }) =
      (p.expr id).outputs := by
    refine (List.map_congr_left fun o ho => ?_).trans (List.map_id _)
    obtain ⟨k, hk⟩ := List.mem_iff_getElem?.mp ho
    rw [h.freshOutput ⟨id, k⟩ o hk]
    rfl
  show ({ p.expr id with inputs := _, outputs := _ } : Expr) = _
  rw [hin, hout]

/-- A wired program is linked. -/
theorem Wired.toLinked (h : p.Wired) : p.Linked := fun id _ => h.linked id

/-- What uses a value exists. -/
theorem Wired.consumer_lt_size (h : p.Wired) (hu : u ∈ p.uses v) : u.consumer < p.exprs.size := by
  obtain ⟨i, hi, _⟩ := Option.map_eq_some_iff.mp ((h.linked u.consumer u.input v).mpr hu)
  exact HasUse.lt_size (List.getElem?_eq_some_iff.mp hi).1

/-- What an input reads exists. -/
theorem Wired.hasValue_source (h : p.Wired) {i : Input} (hi : i ∈ (p.expr id).inputs) :
    p.HasValue i.source := by
  obtain ⟨k, hk⟩ := List.mem_iff_getElem?.mp hi
  exact .of_mem_uses ((h.linked id k i.source).mp (by rw [hk]; rfl))

theorem output?_modifyOutput (p : Program) (v w : ValueRef) (f : Output → Output) :
    (p.modifyOutput v f).output? w = if v = w then (p.output? w).map f else p.output? w := by
  simp only [output?, modifyOutput, expr_modifyExpr]
  by_cases hp : v.producer = w.producer
  · by_cases hs : w.producer < p.exprs.size
    · have hvw : v = w ↔ v.output = w.output := by
        cases v
        cases w
        simp_all
      simp only [hp, hs, and_self, if_true, Expr.mapOutput, List.getElem?_modify, hvw]
      split <;> simp
    · have hnone : (p.expr w.producer).outputs = [] := by
        rw [expr_of_size_le (Nat.le_of_not_lt hs)]
        rfl
      simp [hs, hnone]
  · have hvw : v ≠ w := fun he => hp (congrArg _ he)
    rw [if_neg fun h => hp h.1, if_neg hvw]

theorem inputs_modifyOutput (p : Program) (v : ValueRef) (f : Output → Output) (id : ExprId) :
    ((p.modifyOutput v f).expr id).inputs = (p.expr id).inputs := by
  rw [modifyOutput, expr_modifyExpr]
  split <;> rfl

theorem hasValue_modifyOutput : (p.modifyOutput v f).HasValue w ↔ p.HasValue w := by
  rw [hasValue_iff, output?_modifyOutput, hasValue_iff]
  split
  · simp
  · rfl

/-- The values that a value is the root of. -/
def aliases (p : Program) (v : ValueRef) : List ValueRef :=
  match p.output? v with
  | some o => o.aliases
  | none => []

theorem aliasGroup_eq_cons (p : Program) (v : ValueRef) :
    p.aliasGroup v = p.root v :: p.aliases (p.root v) := rfl

section ModifyOutput

/-- What a change of an output leaves as it was. -/
theorem view_modifyOutput {g : Option Output → α} (hg : ∀ o, g (some (f o)) = g (some o)) (w : ValueRef) :
    g ((p.modifyOutput v f).output? w) = g (p.output? w) := by
  rw [output?_modifyOutput]
  split
  · cases p.output? w with
    | none => rfl
    | some o => exact hg o
  · rfl

theorem uses_modifyOutput (hf : ∀ o, (f o).uses = o.uses) (w : ValueRef) :
    (p.modifyOutput v f).uses w = p.uses w :=
  view_modifyOutput (g := fun o? => match o? with | some o => o.uses | none => []) hf w

theorem root_modifyOutput (hf : ∀ o, (f o).root = o.root) (w : ValueRef) :
    (p.modifyOutput v f).root w = p.root w :=
  view_modifyOutput (g := fun o? => match o? with | some o => o.root.getD w | none => w)
    (fun o => congrArg (·.getD w) (hf o)) w

theorem aliases_modifyOutput (hf : ∀ o, (f o).aliases = o.aliases) (w : ValueRef) :
    (p.modifyOutput v f).aliases w = p.aliases w :=
  view_modifyOutput (g := fun o? => match o? with | some o => o.aliases | none => []) hf w

end ModifyOutput

/-- The output ports of an expression. -/
def outputPorts (p : Program) (id : ExprId) : List Port := (p.expr id).outputs.map (·.port)

theorem hasValue_iff_outputPorts : p.HasValue v ↔ v.output < (p.outputPorts v.producer).length := by
  rw [HasValue, outputPorts, List.length_map]

theorem outputPorts_modifyOutput (hf : ∀ o, (f o).port = o.port) (v : ValueRef) (id : ExprId) :
    (p.modifyOutput v f).outputPorts id = p.outputPorts id := by
  rw [outputPorts, modifyOutput, expr_modifyExpr]
  split
  · exact map_modify_of_forall hf ..
  · rfl

/-! ### Entering uses -/

/-- The uses of a value by an expression with the given inputs. -/
def usesBy (id : ExprId) (inputs : List Input) (v : ValueRef) : List UseRef :=
  (inputs.zipIdx.filter fun e => e.1.source = v).map fun e => ⟨id, e.2⟩

theorem mem_usesBy {inputs : List Input} :
    u ∈ usesBy id inputs v ↔ u.consumer = id ∧ (inputs[u.input]?).map (·.source) = some v := by
  simp only [usesBy, List.mem_map, List.mem_filter, decide_eq_true_eq]
  constructor
  · rintro ⟨e, ⟨he, hsource⟩, rfl⟩
    refine ⟨rfl, ?_⟩
    rw [List.mem_zipIdx_iff_getElem?.mp he, Option.map_some, hsource]
  · rintro ⟨rfl, hread⟩
    obtain ⟨i, hi, rfl⟩ := Option.map_eq_some_iff.mp hread
    exact ⟨(i, u.input), ⟨List.mem_zipIdx_iff_getElem?.mpr hi, rfl⟩, rfl⟩

theorem nodup_usesBy (id : ExprId) (inputs : List Input) (v : ValueRef) : (usesBy id inputs v).Nodup := by
  have hplaces : ((inputs.zipIdx.map Prod.snd).map fun k => (⟨id, k⟩ : UseRef)).Nodup := by
    rw [List.zipIdx_map_snd]
    exact (List.nodup_range' 1).map fun j k h => congrArg UseRef.input h
  rw [List.map_map] at hplaces
  exact hplaces.sublist (List.filter_sublist.map _)

/-- A use that is entered comes last. -/
theorem uses_addUse (hv : p.HasValue v) (u : UseRef) (w : ValueRef) :
    (p.addUse v u).uses w = if v = w then p.uses w ++ [u] else p.uses w := by
  rw [addUse, uses, output?_modifyOutput]
  by_cases hvw : v = w
  · obtain ⟨o, ho⟩ := hasValue_iff.mp (hvw ▸ hv)
    rw [if_pos hvw, if_pos hvw, uses, ho]
    rfl
  · rw [if_neg hvw, if_neg hvw, uses]

/-- Uses that are entered come last, in their order. -/
theorem uses_foldl_addUse (id : ExprId) {l : List (Input × Nat)} (h : ∀ e ∈ l, p.HasValue e.1.source)
    (v : ValueRef) : (l.foldl (fun p (input, k) => p.addUse input.source ⟨id, k⟩) p).uses v =
      p.uses v ++ (l.filter fun e => e.1.source = v).map fun e => ⟨id, e.2⟩ := by
  induction l generalizing p with
  | nil => exact (List.append_nil _).symm
  | cons e l ih =>
    obtain ⟨he, hl⟩ := List.forall_mem_cons.mp h
    have hrest := ih (p := p.addUse e.1.source ⟨id, e.2⟩) fun e' he' =>
      hasValue_modifyOutput.mpr (hl e' he')
    refine hrest.trans ?_
    rw [uses_addUse he]
    by_cases hv : e.1.source = v
    · rw [if_pos hv, List.filter_cons_of_pos (by simpa using hv), List.map_cons, List.append_assoc]
      rfl
    · rw [if_neg hv, List.filter_cons_of_neg (by simpa using hv)]

theorem aliasGroup_addUse (v : ValueRef) (u : UseRef) (w : ValueRef) :
    (p.addUse v u).aliasGroup w = p.aliasGroup w := by
  have hroot : (p.addUse v u).root w = p.root w := root_modifyOutput (fun _ => by rfl) w
  have haliases : (p.addUse v u).aliases (p.root w) = p.aliases (p.root w) :=
    aliases_modifyOutput (fun _ => by rfl) (p.root w)
  rw [aliasGroup_eq_cons, hroot, haliases, aliasGroup_eq_cons]

/-! ### New expressions -/

theorem output?_push (e : Expr) (v : ValueRef) :
    ({ p with exprs := p.exprs.push e } : Program).output? v =
      if v.producer = p.exprs.size then e.outputs[v.output]? else p.output? v := by
  rw [output?, expr_push]
  split <;> rfl

/-- The root of a group exists if one of its values does. -/
theorem Grouped.hasValue_root (h : p.Grouped) (hv : p.HasValue v) : p.HasValue (p.root v) :=
  ((h v hv).2 (p.root v) (List.mem_cons_self ..)).1

variable {e : Expr}

section Push

variable (he : e.Unused)

include he

/-- What tells no new output from none is as it was. -/
theorem view_push {g : Option Output → α} (hg : ∀ port, g (some { port }) = g none) (v : ValueRef) :
    g (({ p with exprs := p.exprs.push e } : Program).output? v) = g (p.output? v) := by
  rw [output?_push]
  by_cases hv : v.producer = p.exprs.size
  · have hold : p.output? v = none := by
      rw [output?, expr_of_size_le (Nat.le_of_eq hv.symm)]
      rfl
    rw [if_pos hv, hold]
    cases ho : e.outputs[v.output]? with
    | none => rfl
    | some o =>
      rw [he.outputs o (List.mem_of_getElem? ho)]
      exact hg _
  · rw [if_neg hv]

/-- The values of a new expression have no uses, and the uses of the others stay. -/
theorem uses_push (v : ValueRef) :
    ({ p with exprs := p.exprs.push e } : Program).uses v = p.uses v :=
  view_push he (g := fun o? => match o? with | some o => o.uses | none => []) (fun _ => rfl) v

/-- They are their own roots. -/
theorem root_push (v : ValueRef) :
    ({ p with exprs := p.exprs.push e } : Program).root v = p.root v :=
  view_push he (g := fun o? => match o? with | some o => o.root.getD v | none => v) (fun _ => rfl) v

theorem aliases_push (v : ValueRef) :
    ({ p with exprs := p.exprs.push e } : Program).aliases v = p.aliases v :=
  view_push he (g := fun o? => match o? with | some o => o.aliases | none => []) (fun _ => rfl) v

theorem aliasGroup_push (v : ValueRef) :
    ({ p with exprs := p.exprs.push e } : Program).aliasGroup v = p.aliasGroup v := by
  rw [aliasGroup_eq_cons, root_push he, aliases_push he, aliasGroup_eq_cons]

end Push

/-- What no use changes is the same when an expression has been made as when it was put behind the
others. -/
theorem make_eq_push {f : Program → α} (h : ∀ p v u, f (addUse p v u) = f p) (p : Program) (e : Expr) :
    f (p.make e).2 = f { p with exprs := p.exprs.push e } := by
  unfold make
  dsimp only
  generalize ({ p with exprs := p.exprs.push e } : Program) = q
  induction e.inputs.zipIdx generalizing q with
  | nil => rfl
  | cons i l ih => exact (ih (q.addUse i.1.source ⟨p.exprs.size, i.2⟩)).trans (h ..)

/-- The inputs when an expression has been made. -/
theorem inputs_make (p : Program) (e : Expr) (id : ExprId) : ((p.make e).2.expr id).inputs =
    if id = p.exprs.size then e.inputs else (p.expr id).inputs := by
  rw [make_eq_push (f := fun q => (q.expr id).inputs) fun p v u => inputs_modifyOutput .., expr_push]
  split <;> rfl

/-- The output ports when an expression has been made. -/
theorem outputPorts_make (p : Program) (e : Expr) (id : ExprId) : (p.make e).2.outputPorts id =
    if id = p.exprs.size then e.outputs.map (·.port) else p.outputPorts id := by
  rw [make_eq_push (f := fun q => q.outputPorts id) fun p v u =>
      outputPorts_modifyOutput (fun _ => by rfl) v id,
    outputPorts, expr_push]
  split <;> rfl

/-- The values when an expression has been made. -/
theorem hasValue_make : (p.make e).2.HasValue v ↔
    if v.producer = p.exprs.size then v.output < e.outputs.length else p.HasValue v := by
  rw [hasValue_iff_outputPorts, outputPorts_make]
  split
  · rw [List.length_map]
  · exact hasValue_iff_outputPorts.symm

section Make

variable (he : e.Unused)

include he

/-- A new expression is entered last among the uses of the values that it reads. -/
theorem uses_make (hsrc : ∀ i ∈ e.inputs, p.HasValue i.source) (v : ValueRef) :
    (p.make e).2.uses v = p.uses v ++ usesBy p.exprs.size e.inputs v := by
  refine (uses_foldl_addUse p.exprs.size (p := { p with exprs := p.exprs.push e })
    (fun i hi => ?_) v).trans ?_
  · have hval := hsrc i.1 (List.fst_mem_of_mem_zipIdx hi)
    rw [HasValue, expr_push, if_neg (Nat.ne_of_lt hval.lt_size)]
    exact hval
  · rw [uses_push he]
    rfl

theorem root_make (v : ValueRef) : (p.make e).2.root v = p.root v :=
  (make_eq_push (f := fun q => q.root v) (fun _ _ _ => root_modifyOutput (fun _ => by rfl) v) p e).trans
    (root_push he v)

theorem aliases_make (v : ValueRef) : (p.make e).2.aliases v = p.aliases v :=
  (make_eq_push (f := fun q => q.aliases v) (fun _ _ _ => aliases_modifyOutput (fun _ => by rfl) v)
    p e).trans (aliases_push he v)

theorem aliasGroup_make (v : ValueRef) : (p.make e).2.aliasGroup v = p.aliasGroup v := by
  rw [aliasGroup_eq_cons, root_make he, aliases_make he, aliasGroup_eq_cons]

end Make

/-- What making an expression changes. -/
structure Made (p : Program) (e : Expr) (q : Program) : Prop where
  /-- The expression comes last. -/
  inputs : ∀ id, (q.expr id).inputs = if id = p.exprs.size then e.inputs else (p.expr id).inputs
  /-- Its values are new. -/
  values : ∀ v, q.HasValue v ↔
    if v.producer = p.exprs.size then v.output < e.outputs.length else p.HasValue v
  /-- Alias groups stay. -/
  groups : ∀ v, q.aliasGroup v = p.aliasGroup v
  /-- The program stays wired. -/
  wired : q.Wired

/-- Making an expression that reads values of the program. -/
theorem Wired.make (h : p.Wired) (he : e.Unused) (hsrc : ∀ i ∈ e.inputs, p.HasValue i.source) :
    p.Made e (p.make e).2 := by
  have hsame : ∀ v, p.HasValue v → (p.make e).2.HasValue v := by
    intro v hv
    rw [hasValue_make, if_neg (Nat.ne_of_lt hv.lt_size)]
    exact hv
  refine ⟨p.inputs_make e, fun _ => hasValue_make, aliasGroup_make he, fun id i hi => ?_, fun v o ho => ?_,
    fun id k v => ?_, h.grouped.of_aliasGroup hsame (aliasGroup_make he)⟩
  · rw [inputs_make] at hi
    split at hi
    · exact he.inputs i hi
    · exact h.freshInput id i hi
  · have hport := make_eq_push (f := fun q => (q.output? v).map (·.port))
      (fun p w u => view_modifyOutput (g := Option.map (·.port)) (fun _ => by rfl) v) p e
    rw [ho, Option.map_some, output?_push] at hport
    split at hport
    · obtain ⟨o', ho', hport⟩ := Option.map_eq_some_iff.mp hport.symm
      have heq := congrArg Output.port (he.outputs o' (List.mem_of_getElem? ho'))
      rw [← hport]
      exact heq.symm
    · obtain ⟨o', ho', hport⟩ := Option.map_eq_some_iff.mp hport.symm
      rw [← hport]
      exact h.freshOutput v o' ho'
  · rw [uses_make he hsrc, List.mem_append, mem_usesBy, inputs_make]
    split
    · rename_i hid
      -- Nobody reads through an expression that was not there.
      have hnone : ⟨p.exprs.size, k⟩ ∉ p.uses v := by
        rw [← h.linked, expr_of_size_le (Nat.le_refl _)]
        exact fun hk => by cases hk
      rw [hid]
      simp [hnone]
    · rename_i hid
      simp [hid, h.linked]

/-! ### Joining values -/

/-- Groups are told apart by their roots. -/
theorem aliasGroup_eq_iff : p.aliasGroup v = p.aliasGroup w ↔ p.root v = p.root w := by
  constructor
  · intro h
    exact (List.cons.inj h).1
  · intro h
    simp only [aliasGroup, h]

section Join

theorem inputs_join (id : ExprId) : ((p.join v w).expr id).inputs = (p.expr id).inputs := by
  rw [join]
  split
  · rfl
  · exact (inputs_modifyOutput ..).trans (inputs_modifyOutput ..)

theorem hasValue_join : (p.join v w).HasValue x ↔ p.HasValue x := by
  rw [join]
  split
  · rfl
  · exact hasValue_modifyOutput.trans hasValue_modifyOutput

theorem uses_join (x : ValueRef) : (p.join v w).uses x = p.uses x := by
  rw [join]
  split
  · rfl
  · exact (uses_modifyOutput (fun _ => by rfl) x).trans (uses_modifyOutput (fun _ => by rfl) x)

theorem outputPorts_join (id : ExprId) : (p.join v w).outputPorts id = p.outputPorts id := by
  rw [join]
  split
  · rfl
  · refine (outputPorts_modifyOutput (fun _ => ?_) _ id).trans (outputPorts_modifyOutput (fun _ => ?_) v id)
    · rfl
    · rfl

variable (hroot : p.root w ≠ v)

include hroot

/-- A joined value has the root of the value that it was joined to. -/
theorem root_join (hv : p.HasValue v) (x : ValueRef) :
    (p.join v w).root x = if x = v then p.root w else p.root x := by
  rw [join, if_neg hroot]
  refine (root_modifyOutput (fun _ => by rfl) x).trans ?_
  by_cases hx : x = v
  · obtain ⟨o, ho⟩ := hasValue_iff.mp hv
    rw [if_pos hx, root, output?_modifyOutput, if_pos hx.symm, hx, ho]
    rfl
  · rw [if_neg hx, root, output?_modifyOutput, if_neg fun he => hx he.symm, root]

/-- A joined value is an alias of that root. -/
theorem aliases_join (hx : x = p.root w → p.HasValue x) :
    (p.join v w).aliases x = if x = p.root w then p.aliases x ++ [v] else p.aliases x := by
  have hsame : (p.modifyOutput v fun o => { o with root := some (p.root w) }).aliases x =
      p.aliases x := aliases_modifyOutput (fun _ => by rfl) x
  rw [join, if_neg hroot, ← hsame, aliases, output?_modifyOutput]
  by_cases hr : x = p.root w
  · obtain ⟨o, ho⟩ := hasValue_iff.mp (hasValue_modifyOutput.mpr (hx hr) :
      (p.modifyOutput v fun o => { o with root := some (p.root w) }).HasValue x)
    rw [if_pos hr, if_pos hr.symm, aliases, ho]
    rfl
  · rw [if_neg hr, if_neg fun he => hr he.symm, aliases]

end Join

/-- A value that is alone is not in the group of another one, so it does not head it. -/
theorem Grouped.root_ne (h : p.Grouped) (alone : ∀ y ∈ p.aliasGroup v, y = v) (hne : v ≠ w) :
    p.root w ≠ v := by
  rintro rfl
  exact hne (alone w (h.mem_symm (List.mem_cons_self ..))).symm

/-- The alias groups when a value that is alone was joined to another value. -/
theorem Grouped.aliasGroup_join (h : p.Grouped) (hv : p.HasValue v) (hw : p.HasValue w)
    (hroot : p.root w ≠ v) (x : ValueRef) : (p.join v w).aliasGroup x =
      if x = v ∨ p.aliasGroup x = p.aliasGroup w then p.aliasGroup w ++ [v] else p.aliasGroup x := by
  by_cases hval : p.HasValue x
  case neg =>
    have hxv : x ≠ v := fun he => hval (he ▸ hv)
    have hxw : p.aliasGroup x ≠ p.aliasGroup w := fun he =>
      hval ((h w hw).2 x (he ▸ by simp [aliasGroup_of_not_hasValue hval])).1
    rw [if_neg fun hc => hc.elim hxv hxw, aliasGroup_of_not_hasValue hval,
      aliasGroup_of_not_hasValue fun hc => hval (hasValue_join.mp hc)]
  rw [aliasGroup_eq_cons, root_join hroot hv]
  by_cases hx : x = v
  · rw [if_pos hx, if_pos (.inl hx), aliases_join hroot fun _ => h.hasValue_root hw, if_pos rfl]
    rfl
  · rw [if_neg hx]
    by_cases hxw : p.aliasGroup x = p.aliasGroup w
    · rw [if_pos (.inr hxw), aliasGroup_eq_iff.mp hxw, aliases_join hroot fun _ => h.hasValue_root hw,
        if_pos rfl]
      rfl
    · rw [if_neg fun hc => hc.elim hx hxw, aliases_join hroot fun _ => h.hasValue_root hval,
        if_neg fun hr => hxw (aliasGroup_eq_iff.mpr hr), aliasGroup_eq_cons]

/-- Joining a value that is alone leaves the values divided. -/
theorem Grouped.join (h : p.Grouped) (hv : p.HasValue v) (hw : p.HasValue w)
    (alone : ∀ y ∈ p.aliasGroup v, y = v) (hne : v ≠ w) : (p.join v w).Grouped := by
  have hgroups := h.aliasGroup_join hv hw (h.root_ne alone hne)
  intro x hx
  rw [hasValue_join] at hx
  rw [hgroups]
  by_cases hc : x = v ∨ p.aliasGroup x = p.aliasGroup w
  · rw [if_pos hc]
    constructor
    · rcases hc with rfl | hxw
      · exact List.mem_append_right _ (List.mem_singleton.mpr rfl)
      · exact List.mem_append_left _ (hxw ▸ (h x hx).1)
    · intro m hm
      rw [hasValue_join, hgroups]
      rcases List.mem_append.mp hm with hm | hm
      · exact ⟨((h w hw).2 m hm).1, if_pos (.inr ((h w hw).2 m hm).2)⟩
      · rw [List.mem_singleton.mp hm]
        exact ⟨hv, if_pos (.inl rfl)⟩
  · rw [if_neg hc]
    obtain ⟨hself, hall⟩ := h x hx
    refine ⟨hself, fun m hm => ?_⟩
    obtain ⟨hmv, hmx⟩ := hall m hm
    rw [hasValue_join, hgroups, if_neg, hmx]
    · exact ⟨hmv, rfl⟩
    · rintro (rfl | hmw)
      · rw [← hmx] at hself
        exact hc (.inl (alone x hself))
      · exact hc (.inr (hmx ▸ hmw))

end Program

end TensorKernel
