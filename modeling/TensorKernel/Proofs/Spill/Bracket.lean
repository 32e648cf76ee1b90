import TensorKernel.Proofs.Allocation.Traces
import TensorKernel.Proofs.Loop.InsertMarkers

/-!
# Brackets around calls

Every call of a program gets a bracket of two new expressions that save and restore the registers of its
live set. The other expressions stay as they are, in the same order, and so do their live sets.
-/

namespace TensorKernel

open Outcome

variable {b : Bracket} {call id x : ExprId} {bs : List Bracket} {before left rest right t : List ExprId}
  {n : Nest} {p q : Program} {regs : RegSet} {α : Type}

namespace Program

/-- A marker that saves or restores registers. -/
structure IsSpillMarker (q : Program) (x : ExprId) (role : Role) (regs : RegSet)
    (loops : List LoopId) : Prop where
  role : (q.expr x).role = role
  spilled : (q.expr x).spilled = some regs
  loops : (q.expr x).loops = loops

theorem IsSpillMarker.congr {role : Role} {loops : List LoopId} (h : p.IsSpillMarker x role regs loops)
    (hexpr : ∃ position, q.expr x = { p.expr x with position }) : q.IsSpillMarker x role regs loops := by
  obtain ⟨position, hx⟩ := hexpr
  refine ⟨?_, ?_, ?_⟩ <;> rw [hx]
  · exact h.role
  · exact h.spilled
  · exact h.loops

/-- Expressions read and produce the same, and copies stay copies of the same. -/
structure SamePorts (p q : Program) : Prop where
  inputs : ∀ x, (q.expr x).inputs = (p.expr x).inputs
  outputs : ∀ x, (q.expr x).outputs = (p.expr x).outputs
  origin : ∀ x, (q.expr x).origin = (p.expr x).origin

namespace SamePorts

theorem refl (p : Program) : p.SamePorts p := ⟨fun _ => rfl, fun _ => rfl, fun _ => rfl⟩

theorem trans {r : Program} (h : p.SamePorts q) (h' : q.SamePorts r) : p.SamePorts r where
  inputs x := (h'.inputs x).trans (h.inputs x)
  outputs x := (h'.outputs x).trans (h.outputs x)
  origin x := (h'.origin x).trans (h.origin x)

theorem of_expr (h : ∀ x, ∃ position, q.expr x = { p.expr x with position }) : p.SamePorts q := by
  refine ⟨fun x => ?_, fun x => ?_, fun x => ?_⟩ <;>
  · obtain ⟨position, hx⟩ := h x
    rw [hx]

theorem output? (h : p.SamePorts q) (v : ValueRef) : q.output? v = p.output? v := by
  rw [Program.output?, h.outputs, Program.output?]

theorem portAt (h : p.SamePorts q) (side : Side) (id : ExprId) (k : Nat) :
    q.portAt side id k = p.portAt side id k := by
  cases side with
  | input => rw [Program.portAt, h.inputs, Program.portAt]
  | output => rw [Program.portAt, h.outputs, Program.portAt]

end SamePorts

/-- A spill marker that was made but does not stand in the program yet. -/
structure SpillMade (p : Program) (role : Role) (base : String) (regs : RegSet) (loops : List LoopId)
    (q : Program) : Prop where
  /-- There is one more expression. -/
  size : q.exprs.size = p.exprs.size + 1
  /-- The list stays. -/
  order : q.order = p.order
  /-- So do the registered loops. -/
  table : q.loops = p.loops
  /-- So do the names in use. -/
  names : q.names = p.names
  /-- The name of the marker is free. -/
  free : p.isUsed (q.expr p.exprs.size).name = false
  /-- It starts with the base. -/
  name : (Label.ofString base).bytes <+: (q.expr p.exprs.size).name.bytes
  /-- The marker has no ports. -/
  ports : p.SamePorts q
  /-- The other expressions stay. -/
  keeps : ∀ x : Nat, x < p.exprs.size → q.expr x = p.expr x
  /-- The new one is the marker. -/
  marker : q.IsSpillMarker p.exprs.size role regs loops

/-- Making a spill marker. -/
theorem makeSpillMarker_eq (p : Program) (kind base : String) (n : Nat) (regs : RegSet)
    (loops : List LoopId) :
    ∃ q, Workspace.makeSpillMarker kind base n regs loops p = .ok p.exprs.size q ∧
      p.SpillMade (Role.ofKind kind) base regs loops q := by
  obtain ⟨hsame, hfree, hname⟩ := p.uniqueName_spec (base ++ toString n)
  generalize hunique : p.uniqueName (base ++ toString n) = unique at hsame hfree hname
  obtain ⟨name, u⟩ := unique
  dsimp only at hsame hfree hname
  generalize u.serial = serial at hsame
  subst hsame
  let op : Op := { kind, spilled := some regs }
  let made : Program := { p with serial, exprs := p.exprs.push (op.expr name []) }
  have hmake : Workspace.makeSpillMarker kind base n regs loops p =
      .ok p.exprs.size (made.modifyExpr p.exprs.size fun e => { e with loops }) := by
    refine modifyGet_eq_ok.mpr ?_
    dsimp only
    rw [hunique]
    rfl
  have hsize : made.exprs.size = p.exprs.size + 1 := Array.size_push _
  have hexpr : ∀ x : Nat, (made.modifyExpr p.exprs.size fun e => { e with loops }).expr x =
      if x = p.exprs.size then { op.expr name [] with loops } else p.expr x := by
    intro x
    have hpush : made.expr x = if x = p.exprs.size then op.expr name [] else p.expr x :=
      expr_push { p with serial } (op.expr name []) x
    rw [expr_modifyExpr, hpush]
    by_cases hx : x = p.exprs.size
    · rw [if_pos ⟨hx.symm, by rw [hx, hsize]; exact Nat.lt_succ_self _⟩, if_pos hx, if_pos hx]
    · rw [if_neg fun h => hx h.1.symm, if_neg hx, if_neg hx]
  have hmarker := (hexpr p.exprs.size).trans (if_pos rfl)
  have hblank : ∀ {α : Type} (f : Expr → α), f { op.expr name [] with loops } = f default →
      ∀ x : Nat, f ((made.modifyExpr p.exprs.size fun e => { e with loops }).expr x) = f (p.expr x) := by
    intro α f hf x
    rw [hexpr]
    split
    · rename_i hx
      rw [hf, expr_of_size_le hx.ge]
    · rfl
  refine ⟨_, hmake, ?_, rfl, rfl, rfl, ?_, ?_, ⟨hblank Expr.inputs rfl, hblank Expr.outputs rfl,
    hblank Expr.origin rfl⟩, fun x hx => ?_, congrArg Expr.role hmarker, congrArg Expr.spilled hmarker,
    congrArg Expr.loops hmarker⟩
  · rw [← hsize]
    simp [modifyExpr]
  · rw [hmarker]
    exact hfree
  · rw [hmarker]
    exact (List.prefix_append ..).trans hname
  · rw [hexpr, if_neg (Nat.ne_of_lt hx)]

/-- The other program differs in positions only. -/
structure Repositioned (p q : Program) : Prop where
  rest : q = { p with exprs := q.exprs }
  size : q.exprs.size = p.exprs.size
  expr : ∀ x, ∃ position, q.expr x = { p.expr x with position }

theorem Repositioned.order (h : p.Repositioned q) : q.order = p.order := by rw [h.rest]

theorem Repositioned.role (h : p.Repositioned q) (x : ExprId) : (q.expr x).role = (p.expr x).role := by
  obtain ⟨position, hx⟩ := h.expr x
  rw [hx]

theorem Repositioned.inputs (h : p.Repositioned q) (x : ExprId) :
    (q.expr x).inputs = (p.expr x).inputs := by
  obtain ⟨position, hx⟩ := h.expr x
  rw [hx]

theorem Repositioned.outputs (h : p.Repositioned q) (x : ExprId) :
    (q.expr x).outputs = (p.expr x).outputs := by
  obtain ⟨position, hx⟩ := h.expr x
  rw [hx]

theorem Repositioned.symm (h : p.Repositioned q) : q.Repositioned p where
  rest := by rw [h.rest]
  size := h.size.symm
  expr x := by
    obtain ⟨position, hx⟩ := h.expr x
    exact ⟨(p.expr x).position, by rw [hx]⟩

/-- Numbering the program changes positions only. -/
theorem repositioned_enumerate (p : Program) : p.Repositioned p.enumerate := by
  unfold enumerate
  generalize p.order.zipIdx = l
  induction l generalizing p with
  | nil => exact ⟨rfl, rfl, fun x => ⟨(p.expr x).position, rfl⟩⟩
  | cons entry l ih =>
    have h := ih (p.modifyExpr entry.1 fun e => { e with position := some entry.2 })
    refine ⟨h.rest, h.size.trans (by simp [modifyExpr]), fun x => ?_⟩
    obtain ⟨position, hx⟩ := h.expr x
    refine ⟨position, hx.trans ?_⟩
    rw [expr_modifyExpr]
    split <;> rfl

/-- Numbering a list of expressions from any first number on: each gets the number of its place. -/
theorem position_foldl_zipIdx {l : List ExprId} (hvalid : ∀ x ∈ l, x < p.exprs.size) (hnodup : l.Nodup)
    (n : Nat) (x : Nat) :
    let q := (l.zipIdx n).foldl (fun p (id, i) => p.modifyExpr id fun e => { e with position := some i }) p
    (x ∉ l → (q.expr x).position = (p.expr x).position) ∧
      ∀ i, l[i]? = some x → (q.expr x).position = some (n + i) := by
  induction l generalizing p n with
  | nil => simp
  | cons id l ih =>
    obtain ⟨hid, hnodup⟩ := List.nodup_cons.mp hnodup
    have hlt : id < p.exprs.size := hvalid id List.mem_cons_self
    let r := p.modifyExpr id fun e => { e with position := some n }
    have hsize : r.exprs.size = p.exprs.size := by simp [r, modifyExpr]
    obtain ⟨hother, hat⟩ := ih (p := r) (fun x hx => hsize ▸ hvalid x (List.mem_cons_of_mem _ hx)) hnodup
      (n + 1)
    refine ⟨fun hx => ?_, fun i hi => ?_⟩
    · obtain ⟨hne, hx⟩ := not_or.mp (List.mem_cons.not.mp hx)
      refine (hother hx).trans ?_
      rw [expr_modifyExpr, if_neg fun h => hne h.1.symm]
    · cases i with
      | zero =>
        obtain rfl : id = x := Option.some.inj hi
        refine (hother hid).trans ?_
        rw [expr_modifyExpr, if_pos ⟨rfl, hlt⟩]
        rfl
      | succ i =>
        refine (hat i (by simpa using hi)).trans ?_
        rw [Nat.add_assoc, Nat.add_comm 1 i]

/-- Numbering a program whose expressions exist and are different. -/
theorem enumerated_enumerate (hvalid : ∀ x ∈ p.order, x < p.exprs.size) (hnodup : p.order.Nodup) :
    p.enumerate.Enumerated := by
  intro i x hi
  rw [p.repositioned_enumerate.order] at hi
  have hposition : (p.enumerate.expr x).position = some (0 + i) :=
    (position_foldl_zipIdx hvalid hnodup 0 x).2 i hi
  rw [Expr.exec, hposition, Nat.zero_add]

end Program

open Program

namespace Workspace

variable {w w' : Workspace}

theorem edit_eq_ok {change : Edit α} {a : α} (h : edit change w = .ok a w') :
    change w.program = .ok a w'.program ∧ w'.live = w.live := by
  unfold edit at h
  split at h
  · cases h
    exact ⟨‹_›, rfl⟩
  · cases h

theorem edit_ok {change : Edit α} {a : α} {program : Program} (h : change w.program = .ok a program) :
    edit change w = .ok a { w with program } := by
  unfold edit
  rw [h]

/-- A bracket of new expressions saves the live set of its call. -/
structure Saves (w : Workspace) (b : Bracket) (regs : RegSet) (q : Program) : Prop where
  /-- The registers are those live at the call. -/
  live : w.live.set? b.call = some regs
  /-- The markers are new. -/
  new : w.program.exprs.size ≤ b.opening ∧ w.program.exprs.size ≤ b.closing
  /-- They were made. -/
  made : b.opening < q.exprs.size ∧ b.closing < q.exprs.size
  /-- The first one saves the registers. -/
  opening : q.IsSpillMarker b.opening .regSpillBegin regs (w.program.expr b.call).loops
  /-- The second one restores them. -/
  closing : q.IsSpillMarker b.closing .regSpillEnd regs (w.program.expr b.call).loops

/-- What bracketing calls keeps. -/
structure Keeps (w w' : Workspace) : Prop where
  /-- No expression goes away. -/
  size : w.program.exprs.size ≤ w'.program.exprs.size
  /-- The expressions stay. -/
  expr : ∀ x : Nat, x < w.program.exprs.size → w'.program.expr x = w.program.expr x
  /-- So do their live sets. -/
  live : ∀ x : Nat, x < w.program.exprs.size → w'.live.set? x = w.live.set? x
  /-- Live ranges are not touched yet. -/
  ranges : w'.live.ranges = w.live.ranges
  /-- The registered loops stay. -/
  loops : w'.program.loops = w.program.loops
  /-- No ports are added. -/
  ports : w.program.SamePorts w'.program

theorem Keeps.refl (w : Workspace) : w.Keeps w :=
  ⟨Nat.le_refl _, fun _ _ => rfl, fun _ _ => rfl, rfl, rfl, .refl _⟩

theorem Keeps.trans {u : Workspace} (h : w.Keeps w') (h' : w'.Keeps u) : w.Keeps u where
  size := Nat.le_trans h.size h'.size
  expr x hx := (h'.expr x (Nat.lt_of_lt_of_le hx h.size)).trans (h.expr x hx)
  live x hx := (h'.live x (Nat.lt_of_lt_of_le hx h.size)).trans (h.live x hx)
  ranges := h'.ranges.trans h.ranges
  loops := h'.loops.trans h.loops
  ports := h.ports.trans h'.ports

/-- A call with a live set can be bracketed. -/
theorem bracketCall_ok (horder : w.program.order = left ++ call :: right)
    (hlive : w.live.set? call = some regs) (n : Nat) :
    ∃ b w', bracketCall n left.length call w = .ok b w' ∧ w.Keeps w' ∧ b.call = call ∧
      b.opening < b.closing ∧ w.Saves b regs w'.program ∧
      w'.program.order = left ++ [b.opening, call, b.closing] ++ right ∧
      w'.live.set? b.opening = some regs ∧ w'.live.set? b.closing = some regs := by
  let loops := (w.program.expr call).loops
  obtain ⟨q₁, hmake₁, made₁⟩ :=
    w.program.makeSpillMarker_eq "RegSpillBegin" "reg_spill_begin_" n regs loops
  obtain ⟨q₂, hmake₂, made₂⟩ := q₁.makeSpillMarker_eq "RegSpillEnd" "reg_spill_end_" n regs loops
  have hlt : w.program.exprs.size < q₁.exprs.size := by
    rw [made₁.size]
    exact Nat.lt_succ_self _
  have hopening := made₂.keeps _ hlt
  have horder₂ : q₂.order = (left ++ [call]) ++ right := by
    rw [made₂.order, made₁.order, horder, List.append_cons]
  have hused : ∀ name, q₁.isUsed name = w.program.isUsed name ∧ q₂.isUsed name = w.program.isUsed name :=
    fun name => by simp only [isUsed, find?, made₂.names, made₁.names, and_self]
  -- The closing marker goes in first: its name is free, and it is not that of the opening one.
  have hclose := insertAt_single horder₂ (x := q₁.exprs.size) (by
    rw [(hused _).2, ← (hused _).1, made₂.free])
  generalize hq₃ : (q₂.enterNames [q₁.exprs.size]).extend (left ++ [call] ++ [q₁.exprs.size] ++ right) =
    q₃ at hclose
  have hexpr₃ : ∀ x, q₃.expr x = q₂.expr x := fun x => by rw [← hq₃]; rfl
  have horder₃ : q₃.order = left ++ (call :: q₁.exprs.size :: right) := by
    rw [← hq₃]
    simp [extend]
  have hfree : q₃.isUsed (q₃.expr w.program.exprs.size).name = false := by
    rw [hexpr₃, hopening]
    refine Bool.eq_false_iff.mpr fun hin => ?_
    have hin : (q₂.enterNames [q₁.exprs.size]).isUsed (q₁.expr w.program.exprs.size).name = true := by
      rw [← hq₃] at hin
      exact hin
    rcases isUsed_enterNames.mp hin with hmem | hold
    · rw [List.map_singleton, List.mem_singleton] at hmem
      exact ne_of_prefix made₁.name made₂.name (by decide) (by decide) hmem
    · rw [(hused _).2, made₁.free] at hold
      cases hold
  have hopen := insertAt_single horder₃ hfree
  generalize hq₄ : (q₃.enterNames [w.program.exprs.size]).extend
    (left ++ [w.program.exprs.size] ++ call :: q₁.exprs.size :: right) = q₄ at hopen
  have hexpr : ∀ x, q₄.expr x = q₂.expr x := fun x => by rw [← hq₄, ← hexpr₃]; rfl
  have hsize : q₄.exprs.size = w.program.exprs.size + 2 := by
    rw [← hq₄, ← hq₃]
    exact made₂.size.trans (congrArg (· + 1) made₁.size)
  have hloops : q₄.loops = w.program.loops := by
    rw [← hq₄, ← hq₃]
    exact made₂.table.trans made₁.table
  have horder₄ : q₄.order = left ++ [w.program.exprs.size, call, q₁.exprs.size] ++ right := by
    rw [← hq₄]
    simp [extend]
  have hrun : bracketCall n left.length call w = .ok ⟨w.program.exprs.size, call, q₁.exprs.size⟩
      { program := q₄, live := (w.live.putSet w.program.exprs.size regs).putSet q₁.exprs.size regs } := by
    have hlength : (left.length : Int) + 1 = ((left ++ [call]).length : Nat) := by simp
    unfold bracketCall
    refine bind_eq_ok.mpr ⟨w, w, rfl, ?_⟩
    rw [hlive]
    refine bind_eq_ok.mpr ⟨_, { w with program := q₁ }, edit_ok hmake₁, ?_⟩
    refine bind_eq_ok.mpr ⟨_, { w with program := q₂ }, edit_ok hmake₂, ?_⟩
    refine bind_eq_ok.mpr ⟨_, { w with program := q₃ }, edit_ok (hlength ▸ hclose), ?_⟩
    exact bind_eq_ok.mpr ⟨_, { w with program := q₄ }, edit_ok hopen, rfl⟩
  refine ⟨_, _, hrun, ⟨?_, fun x hx => ?_, fun x hx => ?_, rfl, hloops, ?_⟩, rfl, hlt,
    ⟨hlive, ⟨Nat.le_refl _, Nat.le_of_lt hlt⟩, ?_, ?_, ?_⟩, horder₄, ?_, ?_⟩
  · rw [hsize]
    exact Nat.le_add_right _ 2
  · rw [hexpr, made₂.keeps x (Nat.lt_trans hx hlt), made₁.keeps x hx]
  · rw [Liveness.set?_putSet, if_neg (Nat.ne_of_gt (Nat.lt_trans hx hlt)), Liveness.set?_putSet,
      if_neg (Nat.ne_of_gt hx)]
  · exact (made₁.ports.trans made₂.ports).trans (.of_expr fun x => ⟨_, hexpr x⟩)
  · rw [hsize, made₁.size]
    exact ⟨Nat.lt_add_of_pos_right (by decide), Nat.lt_succ_self _⟩
  · exact made₁.marker.congr ⟨_, (hexpr _).trans hopening⟩
  · exact made₂.marker.congr ⟨_, hexpr _⟩
  · rw [Liveness.set?_putSet, if_neg (Nat.ne_of_gt hlt), Liveness.set?_putSet, if_pos rfl]
  · rw [Liveness.set?_putSet, if_pos rfl]

/-- A call that was bracketed has a live set. -/
theorem isSome_of_bracketCall {n position : Nat} (h : bracketCall n position call w = .ok b w') :
    (w.live.set? call).isSome = true := by
  unfold bracketCall at h
  rw [get_bind] at h
  cases hlive : w.live.set? call with
  | none =>
    rw [hlive] at h
    exact absurd h throw_ne_ok
  | some regs => rfl

end Workspace

namespace Bracket

/-- What comes to stand where an expression stood. -/
def around (bs : List Bracket) (id : ExprId) : List ExprId :=
  match bs.find? (·.call = id) with
  | some b => [b.opening, id, b.closing]
  | none => [id]

theorem around_of_forall (h : ∀ b ∈ bs, b.call ≠ id) : around bs id = [id] := by
  have hnone : bs.find? (·.call = id) = none := List.find?_eq_none.mpr fun b hb => by simpa using h b hb
  rw [around, hnone]

theorem around_cons_self (b : Bracket) (bs : List Bracket) :
    around (b :: bs) b.call = [b.opening, b.call, b.closing] := by
  rw [around, List.find?_cons_of_pos (by simp)]

/-- The expressions stand in a list with brackets as they stood. -/
theorem sublist_flatMap_around (bs : List Bracket) (l : List ExprId) :
    l.Sublist (l.flatMap (around bs)) := by
  induction l with
  | nil => exact .slnil
  | cons id l ih =>
    have hid : [id].Sublist (around bs id) := by
      rw [List.singleton_sublist, around]
      split <;> simp
    exact hid.append ih

theorem around_cons_of_ne (h : b.call ≠ id) (bs : List Bracket) : around (b :: bs) id = around bs id := by
  rw [around, List.find?_cons_of_neg (by simpa using h), around]

end Bracket

namespace Workspace

variable {w w' : Workspace}

/-- What bracketing the calls among the expressions `rest` does. -/
structure Bracketed (w : Workspace) (rest : List ExprId) (bs : List Bracket) (w' : Workspace) : Prop where
  /-- The expressions and their live sets stay. -/
  keeps : w.Keeps w'
  /-- Every call gets a bracket, in program order. -/
  calls : bs.map (·.call) = rest.filter fun x => (w.program.expr x).role = .externalCall
  /-- The brackets save what is live at their calls. -/
  saves : ∀ b ∈ bs, ∃ regs, w.Saves b regs w'.program
  /-- The same is live at the brackets. -/
  recorded : ∀ b ∈ bs, w'.live.set? b.opening = w.live.set? b.call ∧
    w'.live.set? b.closing = w.live.set? b.call
  /-- The expressions of the program exist. -/
  valid : ∀ x ∈ w'.program.order, x < w'.program.exprs.size
  /-- They are different. -/
  nodup : w'.program.order.Nodup

theorem Bracketed.call_mem (h : w.Bracketed rest bs w') (hb : b ∈ bs) : b.call ∈ rest := by
  have hmem := List.mem_map_of_mem (f := (·.call)) hb
  rw [h.calls] at hmem
  exact (List.mem_filter.mp hmem).1

theorem Saves.mono (h : w.Saves b regs p) (hsize : p.exprs.size ≤ q.exprs.size)
    (hexpr : ∀ x : Nat, x < p.exprs.size → ∃ position, q.expr x = { p.expr x with position }) :
    w.Saves b regs q where
  live := h.live
  new := h.new
  made := ⟨Nat.lt_of_lt_of_le h.made.1 hsize, Nat.lt_of_lt_of_le h.made.2 hsize⟩
  opening := h.opening.congr (hexpr _ h.made.1)
  closing := h.closing.congr (hexpr _ h.made.2)

theorem Saves.of_keeps (h : w'.Saves b regs q) (hk : w.Keeps w') (hb : b.call < w.program.exprs.size) :
    w.Saves b regs q where
  live := (hk.live _ hb).symm.trans h.live
  new := ⟨Nat.le_trans hk.size h.new.1, Nat.le_trans hk.size h.new.2⟩
  made := h.made
  opening := hk.expr _ hb ▸ h.opening
  closing := hk.expr _ hb ▸ h.closing

/-- A bracket of new expressions keeps the expressions of the program different. -/
theorem Saves.valid_and_nodup (h : w.Saves b regs w'.program) (hk : w.Keeps w')
    (hlt : b.opening < b.closing) (horder : w.program.order = left ++ b.call :: right)
    (horder' : w'.program.order = left ++ [b.opening, b.call, b.closing] ++ right)
    (hvalid : ∀ x ∈ w.program.order, x < w.program.exprs.size) (hnodup : w.program.order.Nodup) :
    (∀ x ∈ w'.program.order, x < w'.program.exprs.size) ∧ w'.program.order.Nodup := by
  have hperm : w'.program.order.Perm (b.opening :: b.closing :: w.program.order) := by
    rw [horder', horder]
    simp only [List.append_assoc, List.cons_append, List.nil_append]
    refine List.perm_middle.trans (.cons _ ?_)
    rw [List.append_cons]
    refine List.perm_middle.trans (.cons _ ?_)
    rw [List.append_assoc]
    exact .refl _
  have hold : ∀ {x : Nat}, w.program.exprs.size ≤ x → x ∉ w.program.order := fun hx hmem =>
    Nat.not_lt.mpr hx (hvalid _ hmem)
  refine ⟨fun x hx => ?_, hperm.nodup_iff.mpr ?_⟩
  · rcases List.mem_cons.mp (hperm.mem_iff.mp hx) with rfl | hx
    · exact h.made.1
    · rcases List.mem_cons.mp hx with rfl | hx
      · exact h.made.2
      · exact Nat.lt_of_lt_of_le (hvalid x hx) hk.size
  · refine List.nodup_cons.mpr ⟨fun hmem => ?_, List.nodup_cons.mpr ⟨hold h.new.2, hnodup⟩⟩
    rcases List.mem_cons.mp hmem with heq | hmem
    · exact Nat.ne_of_lt hlt heq
    · exact hold h.new.1 hmem

/-- Bracketing the calls among the last expressions of the program. -/
theorem bracketCalls_eq_ok {n : Nat} (horder : w.program.order = left ++ rest)
    (hvalid : ∀ x ∈ w.program.order, x < w.program.exprs.size) (hnodup : w.program.order.Nodup)
    (h : bracketCalls n left.length rest w = .ok bs w') :
    w.Bracketed rest bs w' ∧ w'.program.order = left ++ rest.flatMap (Bracket.around bs) := by
  induction rest generalizing n left w bs with
  | nil =>
    obtain ⟨rfl, rfl⟩ := pure_eq_ok.mp h
    exact ⟨⟨.refl w, rfl, by simp, by simp, hvalid, hnodup⟩, horder⟩
  | cons id rest ih =>
    have hid : id ∉ rest :=
      (List.nodup_cons.mp (hnodup.sublist (horder ▸ List.sublist_append_right _ _))).1
    have hrest : ∀ x ∈ rest, x < w.program.exprs.size := fun x hx => hvalid x (by simp [horder, hx])
    rw [bracketCalls] at h
    rw [get_bind] at h
    by_cases hrole : (w.program.expr id).role = .externalCall
    · rw [if_pos hrole] at h
      obtain ⟨b, u, hcall, h⟩ := bind_eq_ok.mp h
      obtain ⟨bs, v, hcalls, h⟩ := bind_eq_ok.mp h
      obtain ⟨rfl, rfl⟩ := pure_eq_ok.mp h
      obtain ⟨regs, hlive⟩ := Option.isSome_iff_exists.mp (isSome_of_bracketCall hcall)
      obtain ⟨_, _, hrun, hkeeps, rfl, hlt, hsaves, huorder, hopening, hclosing⟩ :=
        bracketCall_ok horder hlive n
      rw [hrun] at hcall
      cases hcall
      obtain ⟨huvalid, hunodup⟩ := hsaves.valid_and_nodup hkeeps hlt horder huorder hvalid hnodup
      obtain ⟨hbracketed, hvorder⟩ := ih huorder huvalid hunodup (by simpa using hcalls)
      have hcalled : ∀ c ∈ bs, c.call ∈ rest := fun c hc => hbracketed.call_mem hc
      refine ⟨⟨hkeeps.trans hbracketed.keeps, ?_, fun c hc => ?_, fun c hc => ?_, hbracketed.valid,
        hbracketed.nodup⟩, ?_⟩
      · rw [List.map_cons, hbracketed.calls, List.filter_cons_of_pos (by simpa using hrole)]
        refine congrArg _ (List.filter_congr fun x hx => ?_)
        rw [hkeeps.expr x (hrest x hx)]
      · rcases List.mem_cons.mp hc with rfl | hc
        · exact ⟨regs, hsaves.mono hbracketed.keeps.size fun x hx => ⟨_, hbracketed.keeps.expr x hx⟩⟩
        · obtain ⟨regs, hregs⟩ := hbracketed.saves c hc
          exact ⟨regs, hregs.of_keeps hkeeps (hrest _ (hcalled c hc))⟩
      · rcases List.mem_cons.mp hc with rfl | hc
        · rw [hbracketed.keeps.live _ hsaves.made.1, hbracketed.keeps.live _ hsaves.made.2, hopening,
            hclosing, hlive]
          exact ⟨rfl, rfl⟩
        · rw [← hkeeps.live _ (hrest _ (hcalled c hc))]
          exact hbracketed.recorded c hc
      · have hothers : rest.flatMap (Bracket.around (b :: bs)) = rest.flatMap (Bracket.around bs) :=
          List.flatMap_congr fun x hx => Bracket.around_cons_of_ne (fun he => hid (he ▸ hx)) bs
        rw [hvorder, List.flatMap_cons, Bracket.around_cons_self, hothers, List.append_assoc]
    · rw [if_neg hrole] at h
      have hleft : w.program.order = (left ++ [id]) ++ rest := by rw [horder, List.append_cons]
      obtain ⟨hbracketed, hvorder⟩ := ih hleft hvalid hnodup (by simpa using h)
      refine ⟨⟨hbracketed.keeps, ?_, hbracketed.saves, hbracketed.recorded, hbracketed.valid,
        hbracketed.nodup⟩, ?_⟩
      · rw [hbracketed.calls, List.filter_cons_of_neg (by simpa using hrole)]
      · have hself : Bracket.around bs id = [id] :=
          Bracket.around_of_forall fun b hb he => hid (he ▸ hbracketed.call_mem hb)
        rw [hvorder, List.flatMap_cons, hself, List.append_assoc]

theorem movedTo_eq_ok {position n : Int} :
    movedTo p before position = .ok n ↔
      ∃ x, 0 ≤ position ∧ before[position.toNat]? = some x ∧ (p.expr x).exec = n := by
  unfold movedTo
  split
  · rename_i hneg
    refine ⟨fun h => absurd h (by simp), ?_⟩
    rintro ⟨_, h, _⟩
    exact absurd hneg (Int.not_lt.mpr h)
  · rename_i hneg
    cases before[position.toNat]? with
    | none =>
      refine ⟨fun h => absurd h (by simp), ?_⟩
      rintro ⟨_, _, h, _⟩
      cases h
    | some y =>
      refine ⟨fun h => ⟨y, Int.not_lt.mp hneg, rfl, Except.ok.inj h⟩, ?_⟩
      rintro ⟨x, _, hx, rfl⟩
      cases hx
      rfl

/-- The interval between two expressions of a list, once their positions in the list, once their
numbers. -/
def Moved (before : List ExprId) (p : Program) (range range' : Interval) : Prop :=
  movedTo p before range.start = .ok range'.start ∧ movedTo p before range.stop = .ok range'.stop

/-- Moving one live range. -/
theorem shiftRange_eq_ok {entry : Reg × Interval} (h : shiftRange before entry w = .ok () w') :
    ∃ range', Moved before w.program entry.2 range' ∧
      w' = { w with live := { w.live with ranges := w.live.ranges.insert entry.1 range' } } := by
  unfold shiftRange at h
  rw [get_bind] at h
  generalize hmoved : (movedTo w.program before entry.2.start >>= fun start =>
    movedTo w.program before entry.2.stop >>= fun stop =>
    w.live.setRange entry.1 ⟨start, stop⟩ true) = moved at h
  cases moved with
  | error fault => exact absurd h throw_ne_ok
  | ok live =>
    obtain ⟨start, hstart, hmoved⟩ := except_bind_eq_ok.mp hmoved
    obtain ⟨stop, hstop, hmoved⟩ := except_bind_eq_ok.mp hmoved
    refine ⟨⟨start, stop⟩, ⟨hstart, hstop⟩, ?_⟩
    unfold Liveness.setRange at hmoved
    rw [if_neg (by simp)] at hmoved
    split at hmoved
    · cases hmoved
    · cases hmoved
      exact (set_eq_ok.mp h).symm

/-- Moving the live ranges of different registers. -/
theorem forM_shiftRange {entries : List (Reg × Interval)} (ascending : entries.Pairwise (·.1 < ·.1))
    (h : entries.forM (shiftRange before) w = .ok () w') :
    w'.program = w.program ∧ w'.live.sets = w.live.sets ∧
      (∀ r, (∀ e ∈ entries, e.1 ≠ r) → w'.live.ranges.get? r = w.live.ranges.get? r) ∧
      ∀ e ∈ entries, ∃ range', Moved before w.program e.2 range' ∧
        w'.live.ranges.get? e.1 = some range' := by
  induction entries generalizing w with
  | nil =>
    obtain ⟨_, rfl⟩ := pure_eq_ok.mp h
    exact ⟨rfl, rfl, fun _ _ => rfl, by simp⟩
  | cons entry entries ih =>
    obtain ⟨hfirst, hrest⟩ := List.pairwise_cons.mp ascending
    obtain ⟨_, u, hshift, h⟩ := bind_eq_ok.mp h
    obtain ⟨range', hmoved, rfl⟩ := shiftRange_eq_ok hshift
    obtain ⟨hprogram, hsets, hother, hentries⟩ := ih hrest h
    refine ⟨hprogram, hsets, fun r hr => ?_, fun e he => ?_⟩
    · rw [hother r fun e he => hr e (List.mem_cons_of_mem _ he)]
      exact RegTable.get?_insert.trans (if_neg (hr entry List.mem_cons_self))
    · rcases List.mem_cons.mp he with rfl | he
      · refine ⟨range', hmoved, ?_⟩
        rw [hother e.1 fun x hx heq => Reg.lt_irrefl e.1 (heq ▸ hfirst x hx)]
        exact RegTable.get?_insert.trans (if_pos rfl)
      · exact hentries e he

/-- What bracketing calls of a program does. -/
structure Spilled (w : Workspace) (bs : List Bracket) (w' : Workspace) : Prop where
  /-- The brackets stand around their calls. -/
  order : w'.program.order = w.program.order.flatMap (Bracket.around bs)
  /-- The expressions are numbered anew. -/
  expr : ∀ x : Nat, x < w.program.exprs.size →
    ∃ position, w'.program.expr x = { w.program.expr x with position }
  /-- Only calls are bracketed. -/
  call_mem : ∀ b ∈ bs, b.call ∈ w.program.order ∧ (w.program.expr b.call).role = .externalCall
  /-- No call is bracketed twice. -/
  once : (bs.map (·.call)).Nodup
  /-- The brackets save what is live at their calls. -/
  saves : ∀ b ∈ bs, ∃ regs, w.Saves b regs w'.program
  /-- The expressions have the numbers of their new positions. -/
  numbered : w'.program.Enumerated
  /-- The registered loops stay. -/
  loops : w'.program.loops = w.program.loops
  /-- No ports are added. -/
  ports : w.program.SamePorts w'.program
  /-- The live ranges move with the expressions that they start and stop at. -/
  ranges : ∀ r range, w.live.ranges.get? r = some range →
    ∃ range', w'.live.ranges.get? r = some range' ∧
      (bs = [] ∧ range' = range ∨ Moved w.program.order w'.program range range')
  /-- No register gets a live range. -/
  unranged : ∀ r, w.live.ranges.get? r = none → w'.live.ranges.get? r = none
  /-- Live sets stay. -/
  live : ∀ x : Nat, x < w.program.exprs.size → w'.live.set? x = w.live.set? x
  /-- At the brackets the same is live as at their calls. -/
  recorded : ∀ b ∈ bs, w'.live.set? b.opening = w.live.set? b.call ∧
    w'.live.set? b.closing = w.live.set? b.call

/-- Leaving the calls without brackets. -/
theorem Spilled.refl (he : w.program.Enumerated) : w.Spilled [] w where
  order := (List.flatMap_singleton' _).symm
  expr x _ := ⟨(w.program.expr x).position, rfl⟩
  call_mem _ hb := absurd hb List.not_mem_nil
  once := .nil
  saves _ hb := absurd hb List.not_mem_nil
  numbered := he
  loops := rfl
  ports := .refl _
  ranges _ range hrange := ⟨range, hrange, .inl ⟨rfl, rfl⟩⟩
  unranged _ hr := hr
  live _ _ := rfl
  recorded _ hb := absurd hb List.not_mem_nil

/-- Bracketing all calls of a numbered program. -/
theorem insertSpills_eq_ok (he : w.program.Enumerated) (h : insertSpills w = .ok bs w') :
    w.Spilled bs w' ∧ bs.map (·.call) =
      w.program.order.filter fun x => (w.program.expr x).role = .externalCall := by
  unfold insertSpills at h
  rw [get_bind] at h
  dsimp only at h
  obtain ⟨bs', u, hcalls, h⟩ := bind_eq_ok.mp h
  obtain ⟨_, v, hnumber, h⟩ := bind_eq_ok.mp h
  have hv : v.program = u.program.enumerate ∧ v.live = u.live := by
    rw [← modify_eq_ok.mp hnumber]
    exact ⟨rfl, rfl⟩
  obtain ⟨hbracketed, horder⟩ :=
    bracketCalls_eq_ok (List.nil_append _).symm (fun x => he.lt_size) he.nodup hcalls
  have hlive : v.live.ranges = w.live.ranges := by rw [hv.2, hbracketed.keeps.ranges]
  have hend : bs' = bs ∧ w'.program = v.program ∧ w'.live.sets = v.live.sets ∧
      (∀ r range, w.live.ranges.get? r = some range → ∃ range', w'.live.ranges.get? r = some range' ∧
        (bs = [] ∧ range' = range ∨ Moved w.program.order v.program range range')) ∧
      ∀ r, w.live.ranges.get? r = none → w'.live.ranges.get? r = none := by
    split at h
    · rw [get_bind] at h
      obtain ⟨_, x, hshift, h⟩ := bind_eq_ok.mp h
      obtain ⟨rfl, rfl⟩ := pure_eq_ok.mp h
      obtain ⟨hprogram, hsets, hother, hentries⟩ := forM_shiftRange v.live.ranges.ascending hshift
      refine ⟨rfl, hprogram, hsets, fun r range hrange => ?_, fun r hr => ?_⟩
      · obtain ⟨range', hmoved, hrange'⟩ :=
          hentries (r, range) (RegTable.mem_entries_iff.mpr (hlive ▸ hrange))
        exact ⟨range', hrange', .inr hmoved⟩
      · rw [hother r, hlive, hr]
        rintro ⟨_, range⟩ he rfl
        rw [RegTable.mem_entries_iff, hlive, hr] at he
        cases he
    · rename_i hnone
      obtain ⟨rfl, rfl⟩ := pure_eq_ok.mp h
      have hnil : bs' = [] := by simpa using hnone
      exact ⟨rfl, rfl, rfl, fun r range hrange => ⟨range, hlive ▸ hrange, .inl ⟨hnil, rfl⟩⟩,
        fun r hr => hlive ▸ hr⟩
  obtain ⟨rfl, hprogram, hsets, hranges, hunranged⟩ := hend
  have hset : ∀ x, w'.live.set? x = u.live.set? x := fun x => by
    rw [Liveness.set?, hsets, hv.2, Liveness.set?]
  have hnumbered : u.program.Repositioned w'.program := by
    rw [hprogram, hv.1]
    exact repositioned_enumerate _
  have hcalled : ∀ b ∈ bs', b.call ∈ w.program.order ∧ (w.program.expr b.call).role = .externalCall := by
    intro b hb
    have hmem := List.mem_map_of_mem (f := (·.call)) hb
    rw [hbracketed.calls] at hmem
    exact ⟨List.mem_of_mem_filter hmem, by simpa using List.of_mem_filter hmem⟩
  refine ⟨⟨hnumbered.order.trans horder, fun x hx => ?_, hcalled, ?_, fun b hb => ?_, ?_, ?_,
    hbracketed.keeps.ports.trans (.of_expr hnumbered.expr), ?_, hunranged, fun x hx => ?_,
    fun b hb => ?_⟩, hbracketed.calls⟩
  · rw [← hbracketed.keeps.expr x hx]
    exact hnumbered.expr x
  · rw [hbracketed.calls]
    exact he.nodup.filter _
  · obtain ⟨regs, hregs⟩ := hbracketed.saves b hb
    exact ⟨regs, hregs.mono hnumbered.size.ge fun x _ => hnumbered.expr x⟩
  · rw [hprogram, hv.1]
    exact enumerated_enumerate hbracketed.valid hbracketed.nodup
  · rw [hnumbered.rest]
    exact hbracketed.keeps.loops
  · rw [hprogram]
    exact hranges
  · rw [hset, hbracketed.keeps.live x hx]
  · rw [hset, hset]
    exact hbracketed.recorded b hb

/-- Every call has its bracket. -/
theorem exists_bracket
    (h : bs.map (·.call) = w.program.order.filter fun x => (w.program.expr x).role = .externalCall)
    (hcall : call ∈ w.program.order) (hrole : (w.program.expr call).role = .externalCall) :
    ∃ b ∈ bs, b.call = call := by
  refine List.mem_map.mp ?_
  rw [h]
  exact List.mem_filter.mpr ⟨hcall, by simpa using hrole⟩

namespace Spilled

/-- A bracket stands around its call. -/
theorem around_infix (h : w.Spilled bs w') (hb : b ∈ bs) :
    [b.opening, b.call, b.closing] <:+: w'.program.order := by
  have hfind : bs.find? (·.call = b.call) = some b := by
    cases hb' : bs.find? (·.call = b.call) with
    | none => exact absurd (decide_eq_true rfl) (List.find?_eq_none.mp hb' b hb)
    | some b' =>
      have hcall : b'.call = b.call := by simpa using List.find?_some hb'
      rw [List.inj_on_of_nodup_map h.once (List.mem_of_find?_eq_some hb') hb hcall]
  have haround : Bracket.around bs b.call = [b.opening, b.call, b.closing] := by
    rw [Bracket.around, hfind]
  obtain ⟨left, right, horder⟩ := List.append_of_mem (h.call_mem b hb).1
  rw [h.order, horder, List.flatMap_append, List.flatMap_cons, haround, ← List.append_assoc]
  exact List.infix_append _ _ _

/-- Nothing leaves the program. -/
theorem sublist_order (h : w.Spilled bs w') : w.program.order.Sublist w'.program.order := by
  rw [h.order]
  exact Bracket.sublist_flatMap_around bs _

/-- The expressions keep their order. -/
theorem exec_lt_iff (h : w.Spilled bs w') (he : w.program.Enumerated) {y : ExprId}
    (hx : x ∈ w.program.order) (hy : y ∈ w.program.order) :
    (w'.program.expr x).exec < (w'.program.expr y).exec ↔
      (w.program.expr x).exec < (w.program.expr y).exec := by
  have hlt : ∀ {x y : ExprId}, x ∈ w.program.order → y ∈ w.program.order →
      (w.program.expr x).exec < (w.program.expr y).exec →
      (w'.program.expr x).exec < (w'.program.expr y).exec := by
    intro x y hx hy hxy
    obtain ⟨i, hi, rfl⟩ := List.mem_iff_getElem.mp hx
    obtain ⟨j, hj, rfl⟩ := List.mem_iff_getElem.mp hy
    have hiexec := he i _ (List.getElem?_eq_getElem hi)
    have hjexec := he j _ (List.getElem?_eq_getElem hj)
    exact List.pairwise_iff_getElem.mp (h.numbered.pairwise.sublist h.sublist_order) i j hi hj
      (by omega)
  refine ⟨fun hxy => ?_, hlt hx hy⟩
  rcases Int.lt_trichotomy (w.program.expr x).exec (w.program.expr y).exec with hlt' | heq | hgt
  · exact hlt'
  · obtain ⟨j, hj⟩ := List.mem_iff_getElem?.mp hy
    rw [he.eq_of_exec hj hx (heq.trans (he j y hj))] at hxy
    exact absurd hxy (Int.lt_irrefl _)
  · exact absurd hxy (Int.not_lt.mpr (Int.le_of_lt (hlt hy hx hgt)))

/-- The live range of a register goes on to cover the expressions that it covered. -/
theorem contains_range (h : w.Spilled bs w') (he : w.program.Enumerated) {r : Reg} {range : Interval}
    (hrange : w.live.ranges.get? r = some range) :
    ∃ range', w'.live.ranges.get? r = some range' ∧ ∀ x ∈ w.program.order,
      range'.contains (w'.program.expr x).exec = range.contains (w.program.expr x).exec := by
  obtain ⟨range', hrange', hmoved⟩ := h.ranges r range hrange
  refine ⟨range', hrange', fun x hx => ?_⟩
  rcases hmoved with ⟨rfl, rfl⟩ | ⟨hstart, hstop⟩
  · have horder : w'.program.order = w.program.order := h.order.trans (List.flatMap_singleton' _)
    obtain ⟨i, hi⟩ := List.mem_iff_getElem?.mp hx
    rw [he i x hi, h.numbered i x (horder ▸ hi)]
  · obtain ⟨a, ha, hastart, hmoved⟩ := movedTo_eq_ok.mp hstart
    obtain ⟨b, hb, hbstop, hmoved'⟩ := movedTo_eq_ok.mp hstop
    have hlt := h.exec_lt_iff he hx (List.mem_of_getElem? hastart)
    have hlt' := h.exec_lt_iff he (List.mem_of_getElem? hbstop) hx
    rw [hmoved, he _ a hastart, Int.toNat_of_nonneg ha] at hlt
    rw [hmoved', he _ b hbstop, Int.toNat_of_nonneg hb] at hlt'
    rw [Bool.eq_iff_iff]
    simp only [Interval.contains, Bool.and_eq_true, decide_eq_true_eq, ← Int.not_lt, hlt, hlt']

/-- The program holds its old expressions and the brackets. -/
theorem of_mem_order (h : w.Spilled bs w') (hx : x ∈ w'.program.order) :
    x ∈ w.program.order ∨ ∃ b ∈ bs, x = b.opening ∨ x = b.closing := by
  rw [h.order] at hx
  obtain ⟨id, hid, hx⟩ := List.mem_flatMap.mp hx
  unfold Bracket.around at hx
  split at hx
  · rename_i b hb
    simp only [List.mem_cons, List.not_mem_nil, or_false] at hx
    rcases hx with rfl | rfl | rfl
    · exact .inr ⟨b, List.mem_of_find?_eq_some hb, .inl rfl⟩
    · exact .inl hid
    · exact .inr ⟨b, List.mem_of_find?_eq_some hb, .inr rfl⟩
  · rw [List.mem_singleton.mp hx]
    exact .inl hid

/-- What is no new expression was there before. -/
theorem of_lt_size (h : w.Spilled bs w') (hx : x ∈ w'.program.order) (hlt : x < w.program.exprs.size) :
    x ∈ w.program.order := by
  rcases h.of_mem_order hx with hx | ⟨b, hb, hx⟩
  · exact hx
  · obtain ⟨regs, hsaves⟩ := h.saves b hb
    rcases hx with rfl | rfl
    · exact absurd hlt (Nat.not_lt.mpr hsaves.new.1)
    · exact absurd hlt (Nat.not_lt.mpr hsaves.new.2)

/-- The brackets read nothing. -/
theorem of_input (h : w.Spilled bs w') (hid : id ∈ w'.program.order) {i : Input}
    (hi : i ∈ (w'.program.expr id).inputs) : id ∈ w.program.order ∧ i ∈ (w.program.expr id).inputs := by
  rw [h.ports.inputs] at hi
  refine ⟨h.of_lt_size hid (Nat.lt_of_not_le fun hge => ?_), hi⟩
  rw [expr_of_size_le hge] at hi
  cases hi

/-- The brackets have no ports. -/
theorem of_portAt (h : w.Spilled bs w') (hid : id ∈ w'.program.order) {side : Side} {k : Nat} {port : Port}
    (hport : w'.program.portAt side id k = some port) :
    id ∈ w.program.order ∧ w.program.portAt side id k = some port := by
  rw [h.ports.portAt] at hport
  refine ⟨h.of_lt_size hid (Nat.lt_of_not_le fun hge => ?_), hport⟩
  rw [portAt_of_size_le hge] at hport
  cases hport

/-- An expression that is no bracket was there before. -/
theorem of_role (h : w.Spilled bs w') (hvalid : ∀ x ∈ w.program.order, x < w.program.exprs.size)
    (hx : x ∈ w'.program.order) {role : Role} (hrole : (w'.program.expr x).role = role)
    (hne : role ≠ .regSpillBegin ∧ role ≠ .regSpillEnd) :
    x ∈ w.program.order ∧ (w.program.expr x).role = role := by
  rcases h.of_mem_order hx with hx | ⟨b, hb, hx⟩
  · obtain ⟨position, he⟩ := h.expr x (hvalid x hx)
    rw [he] at hrole
    exact ⟨hx, hrole⟩
  · obtain ⟨regs, hsaves⟩ := h.saves b hb
    rcases hx with rfl | rfl
    · exact absurd (hrole.symm.trans hsaves.opening.role) hne.1
    · exact absurd (hrole.symm.trans hsaves.closing.role) hne.2

/-- Without the brackets the program is as it was. -/
theorem ofRole (h : w.Spilled bs w') (hvalid : ∀ x ∈ w.program.order, x < w.program.exprs.size)
    {role : Role} (hne : role ≠ .regSpillBegin ∧ role ≠ .regSpillEnd) :
    w'.program.ofRole role = w.program.ofRole role := by
  have hone : ∀ x ∈ w.program.order, (Bracket.around bs x).filter
      (fun y => (w'.program.expr y).role = role) = [x].filter fun y => (w.program.expr y).role = role := by
    intro x hx
    obtain ⟨position, he⟩ := h.expr x (hvalid x hx)
    have hrole : (w'.program.expr x).role = (w.program.expr x).role := by rw [he]
    unfold Bracket.around
    split
    · rename_i b hb
      obtain ⟨regs, hsaves⟩ := h.saves b (List.mem_of_find?_eq_some hb)
      simp [List.filter_cons, hsaves.opening.role, hsaves.closing.role, hne.1.symm, hne.2.symm, hrole]
    · simp [List.filter_cons, hrole]
  rw [Program.ofRole, h.order, List.filter_flatMap, List.flatMap_congr hone, ← List.filter_flatMap,
    List.flatMap_singleton', Program.ofRole]

end Spilled

end Workspace

/-! ### Nests with brackets -/

namespace Nest

/-- The nest with brackets around the calls in it. -/
def bracketed (bs : List Bracket) : Nest → Nest
  | nil => nil
  | expr id rest =>
    match bs.find? (·.call = id) with
    | some b => expr b.opening (expr id (expr b.closing (rest.bracketed bs)))
    | none => expr id (rest.bracketed bs)
  | loop begin stop body rest => loop begin stop (body.bracketed bs) (rest.bracketed bs)

variable {outer : List LoopId}

/-- The begin markers stay. -/
theorem begins_bracketed (bs : List Bracket) (n : Nest) : (n.bracketed bs).begins = n.begins := by
  induction n with
  | nil => rfl
  | expr id rest ih =>
    rw [bracketed]
    split
    · exact ih
    · exact ih
  | loop begin stop body rest ihb ihr => rw [bracketed, begins, ihb, ihr, begins]

/-- The expressions of the nest with brackets, if no marker of a loop is bracketed. -/
theorem Fits.flatten_bracketed (h : n.Fits p outer)
    (hcalls : ∀ b ∈ bs, (p.expr b.call).role.isLoopMarker = false) :
    (n.bracketed bs).flatten = n.flatten.flatMap (Bracket.around bs) := by
  have hmarker : ∀ {x}, (p.expr x).role.isLoopMarker = true → Bracket.around bs x = [x] := by
    intro x hx
    refine Bracket.around_of_forall fun b hb he => ?_
    rw [← he, hcalls b hb] at hx
    cases hx
  induction n generalizing outer with
  | nil => rfl
  | expr id rest ih =>
    have hrest := ih h.2.2
    rw [bracketed, flatten, List.flatMap_cons, Bracket.around]
    split
    · simp [flatten, hrest]
    · simp [flatten, hrest]
  | loop begin stop body rest ihb ihr =>
    obtain ⟨⟨hbegin, _⟩, ⟨hstop, _⟩, hbody, hrest⟩ := h
    have hb := hmarker (x := begin) (by rw [hbegin]; rfl)
    have he := hmarker (x := stop) (by rw [hstop]; rfl)
    simp [bracketed, flatten, hb, he, ihb hbody, ihr hrest]

/-- Brackets that list the loops of their calls keep the nest well formed. -/
theorem Fits.bracketed (h : n.Fits p outer) (hexpr : ∀ x ∈ n.flatten, (q.expr x).role = (p.expr x).role ∧
      (q.expr x).loops = (p.expr x).loops ∧ (q.expr x).loop = (p.expr x).loop)
    (hbrackets : ∀ b ∈ bs, ((q.expr b.opening).role.isLoopMarker = false ∧
      (q.expr b.opening).loops = (p.expr b.call).loops) ∧
      (q.expr b.closing).role.isLoopMarker = false ∧ (q.expr b.closing).loops = (p.expr b.call).loops) :
    (n.bracketed bs).Fits q outer := by
  induction n generalizing outer with
  | nil => trivial
  | expr id rest ih =>
    obtain ⟨hrole, hloops, hrest⟩ := h
    obtain ⟨hrole', hloops', _⟩ := hexpr id List.mem_cons_self
    have hrest := ih hrest fun x hx => hexpr x (List.mem_cons_of_mem _ hx)
    have hid : (q.expr id).role.isLoopMarker = false ∧ (q.expr id).loops = outer := by
      rw [hrole', hloops']
      exact ⟨hrole, hloops⟩
    rw [Nest.bracketed]
    split
    · rename_i b hb
      obtain rfl : b.call = id := by simpa using List.find?_some hb
      obtain ⟨⟨hopen, hopens⟩, hclose, hcloses⟩ := hbrackets b (List.mem_of_find?_eq_some hb)
      rw [hloops] at hopens hcloses
      exact ⟨hopen, hopens, hid.1, hid.2, hclose, hcloses, hrest⟩
    · exact ⟨hid.1, hid.2, hrest⟩
  | loop begin stop body rest ihb ihr =>
    obtain ⟨⟨hbegin, hbegins⟩, ⟨hstop, hstops, hloop⟩, hbody, hrest⟩ := h
    obtain ⟨hb, hbl, hbloop⟩ := hexpr begin (by simp [flatten])
    obtain ⟨he, hel, heloop⟩ := hexpr stop (by simp [flatten])
    refine ⟨⟨hb.trans hbegin, hbl.trans hbegins⟩, ⟨he.trans hstop, hel.trans hstops, ?_⟩, ?_, ?_⟩
    · rw [heloop, hbloop, hloop]
    · rw [hbloop]
      exact ihb hbody fun x hx => hexpr x (by simp [flatten, hx])
    · exact ihr hrest fun x hx => hexpr x (by simp [flatten, hx])

/-- Without its new expressions, a run of the nest with brackets is a run of the nest. -/
theorem Trace.of_bracketed {size : Nat} (h : (n.bracketed bs).Trace t) (hold : ∀ x ∈ n.flatten, x < size)
    (hnew : ∀ b ∈ bs, size ≤ b.opening ∧ size ≤ b.closing) : n.Trace (t.filter (· < size)) := by
  induction n generalizing t with
  | nil =>
    cases h
    exact .nil
  | expr id rest ih =>
    have hid : decide (id < size) = true := decide_eq_true (hold id List.mem_cons_self)
    have hrest : ∀ x ∈ rest.flatten, x < size := fun x hx => hold x (List.mem_cons_of_mem _ hx)
    rw [bracketed] at h
    split at h
    · rename_i b hb
      obtain ⟨hopen, hclose⟩ := hnew b (List.mem_of_find?_eq_some hb)
      obtain _ | h := h
      obtain _ | h := h
      obtain _ | h := h
      have hopen : decide (b.opening < size) = false := decide_eq_false (Nat.not_lt.mpr hopen)
      have hclose : decide (b.closing < size) = false := decide_eq_false (Nat.not_lt.mpr hclose)
      simp only [List.filter_cons, hopen, hclose, hid, if_true]
      exact .expr (ih h hrest)
    · obtain _ | h := h
      simp only [List.filter_cons, hid, if_true]
      exact .expr (ih h hrest)
  | loop begin stop body rest ihb ihr =>
    obtain _ | _ | ⟨hne, hrounds, hrest⟩ := h
    rename_i rounds t
    have hbegin : decide (begin < size) = true := decide_eq_true (hold begin (by simp [flatten]))
    have hstop : decide (stop < size) = true := decide_eq_true (hold stop (by simp [flatten]))
    have herased : ((rounds.flatMap (· ++ [stop])).filter (· < size)) =
        (rounds.map (·.filter (· < size))).flatMap (· ++ [stop]) := by
      rw [List.filter_flatMap, List.flatMap_map]
      refine List.flatMap_congr fun round _ => ?_
      simp [hstop]
    simp only [List.filter_cons, hbegin, if_true, List.filter_append, herased]
    refine .loop (by simpa using hne) ?_ (ihr hrest fun x hx => hold x (by simp [flatten, hx]))
    intro round hround
    obtain ⟨round, hmem, rfl⟩ := List.mem_map.mp hround
    exact ihb (hrounds round hmem) fun x hx => hold x (by simp [flatten, hx])

end Nest

namespace Workspace.Spilled

variable {w w' : Workspace}

/-- The brackets do not disturb the nest. -/
theorem wellNested (h : w.Spilled bs w') (hvalid : ∀ x ∈ w.program.order, x < w.program.exprs.size)
    (hw : w.program.WellNested n) : w'.program.WellNested (n.bracketed bs) := by
  have hcalls : ∀ b ∈ bs, (w.program.expr b.call).role.isLoopMarker = false := by
    intro b hb
    rw [(h.call_mem b hb).2]
    rfl
  have hexpr : ∀ x ∈ n.flatten, (w'.program.expr x).role = (w.program.expr x).role ∧
      (w'.program.expr x).loops = (w.program.expr x).loops ∧
      (w'.program.expr x).loop = (w.program.expr x).loop := by
    intro x hx
    rw [hw.flatten] at hx
    obtain ⟨position, he⟩ := h.expr x (hvalid x hx)
    rw [he]
    exact ⟨rfl, rfl, rfl⟩
  refine ⟨?_, hw.fits.bracketed hexpr fun b hb => ?_, ?_⟩
  · rw [hw.fits.flatten_bracketed hcalls, hw.flatten, h.order]
  · obtain ⟨regs, hsaves⟩ := h.saves b hb
    refine ⟨⟨?_, hsaves.opening.loops⟩, ?_, hsaves.closing.loops⟩
    · rw [hsaves.opening.role]
      rfl
    · rw [hsaves.closing.role]
      rfl
  · have hsame : ((n.bracketed bs).spans w'.program 0).map (·.loop) =
        (n.spans w.program 0).map (·.loop) := by
      rw [Nest.map_loop_spans, Nest.map_loop_spans, Nest.begins_bracketed]
      exact List.map_congr_left fun x hx => (hexpr x (Nest.begins_subset_flatten hx)).2.2
    rw [hsame]
    exact hw.nodup

/-- Without the brackets, a run is a run of the program from before. -/
theorem trace (h : w.Spilled bs w') (hvalid : ∀ x ∈ w.program.order, x < w.program.exprs.size)
    (hw : w.program.WellNested n) (ht : (n.bracketed bs).Trace t) :
    n.Trace (t.filter (· < w.program.exprs.size)) := by
  refine ht.of_bracketed (fun x hx => hvalid x (hw.flatten ▸ hx)) fun b hb => ?_
  obtain ⟨regs, hsaves⟩ := h.saves b hb
  exact hsaves.new

end Workspace.Spilled

end TensorKernel
