import TensorKernel.Proofs.Kernel.Passes
import TensorKernel.Proofs.Loop.Pointers
import TensorKernel.Proofs.Program.CopyLinks
import TensorKernel.Proofs.Subgraph.Build

/-!
# Lowered programs are settled

Between the passes that lower its loops, a program is settled: every expression that was made stands in
it, inputs and uses refer to each other, alias groups divide the values, and no port has a register.
Building, setting up pointers, inserting markers and splitting loops all keep this, also where markers
cross each other or handlers append expressions. So live ranges are computed on what they may take for
granted. The passes only add expressions: those of the subgraph keep their order and their roles.
-/

namespace TensorKernel

open Outcome

variable {options : CompileOptions} {copies : List (ExprId × ExprId)} {base renumber : List (LoopId × LoopId)}
  {inside left right : List ExprId} {events : List HandlerEvent} {outer : List LoopId}
  {pointers : List ValueRef} {id : LoopId} {origin place : Nat} {p : Program} {sg : Subgraph}
  {whole : UnifiedLoop} {w : Workspace}

namespace Program

/-- A program all of whose expressions stand in it and are wired. -/
structure Settled (p : Program) : Prop where
  /-- The program is tidy. -/
  tidy : p.Tidy
  /-- It is wired. -/
  wired : p.Wired
  /-- What was made stands in it. -/
  full : ∀ x : Nat, x < p.exprs.size → x ∈ p.order

namespace Settled

variable {q r : Program}

/-- Nothing outside a settled program refers to it. -/
theorem closed (h : p.Settled) : p.Closed where
  sources _ _ i hi := h.full _ (h.wired.hasValue_source hi).lt_size
  consumers id _ o ho u hu := by
    obtain ⟨k, hk⟩ := List.mem_iff_getElem?.mp ho
    have huse : u ∈ p.uses ⟨id, k⟩ := by
      have hout : p.output? ⟨id, k⟩ = some o := hk
      rw [uses, hout]
      exact hu
    obtain ⟨i, hi, _⟩ := Option.map_eq_some_iff.mp ((h.wired.linked u.consumer u.input _).mpr huse)
    exact h.full _ (HasUse.lt_size (List.getElem?_eq_some_iff.mp hi).1)
  aliases v hv m hm := h.full _ ((h.wired.grouped v hv.2).2 m hm).1.lt_size

/-- Numbering the expressions keeps a program settled. -/
theorem enumerate (h : p.Settled) : p.enumerate.Settled := by
  have hr := p.repositioned_enumerate
  have hnames : p.enumerate.names = p.names := by rw [hr.rest]
  have hslots : p.enumerate.slots = p.slots := by rw [hr.rest]
  have hname : ∀ x, (p.enumerate.expr x).name = (p.expr x).name := by
    intro x
    obtain ⟨position, hx⟩ := hr.expr x
    rw [hx]
  refine ⟨⟨fun x hx => ?_, hr.order ▸ h.tidy.nodup, fun x hx => ?_, ?_⟩,
    h.wired.of_ports (fun v => ?_) fun x => ?_, fun x hx => ?_⟩
  · rw [hr.size]
    exact h.tidy.valid x (hr.order ▸ hx)
  · rw [hname, isUsed, find?, hnames]
    exact h.tidy.named x (hr.order ▸ hx)
  · rw [length, hr.order, hslots]
    exact h.tidy.room
  · rw [output?, hr.outputs, output?]
  · rw [hr.inputs]
  · rw [hr.order]
    exact h.full x (hr.size ▸ hx)

end Settled

/-- A settled program that was made from another one: expressions were added, and the earlier ones are
as they were but for their ports. -/
structure Enlarged (p q : Program) : Prop where
  /-- The program is settled. -/
  settled : q.Settled
  /-- No expression goes away. -/
  size : p.exprs.size ≤ q.exprs.size
  /-- Expressions stay in order. -/
  order : p.order.Sublist q.order
  /-- They keep their headers. -/
  header : ∀ x : Nat, x < p.exprs.size → (q.expr x).header = (p.expr x).header

variable {q r : Program}

theorem Enlarged.trans (h : p.Enlarged q) (h' : q.Enlarged r) : p.Enlarged r where
  settled := h'.settled
  size := Nat.le_trans h.size h'.size
  order := h.order.trans h'.order
  header x hx := (h'.header x (Nat.lt_of_lt_of_le hx h.size)).trans (h.header x hx)

namespace Settled

theorem refl (h : p.Settled) : p.Enlarged p := ⟨h, Nat.le_refl _, .refl _, fun _ _ => rfl⟩

/-- Loops can be changed. -/
theorem of_loops (h : p.Settled) (t : LoopTable) : p.Enlarged { p with loops := t } where
  settled := ⟨⟨h.tidy.valid, h.tidy.nodup, h.tidy.named, h.tidy.room⟩,
    h.wired.of_ports (fun _ => rfl) fun _ => rfl, h.full⟩
  size := Nat.le_refl _
  order := .refl _
  header _ _ := rfl

/-- Expressions that were made and are put into the program. -/
theorem enter (h : p.Settled) (tidy : r.Tidy) (wired : r.Wired) (order : r.order = p.order) {n : Nat}
    (size : r.exprs.size = p.exprs.size + n)
    (header : ∀ x : Nat, x < p.exprs.size → (r.expr x).header = (p.expr x).header)
    (split : r.order = left ++ right) :
    p.Enlarged ((r.enterNames (List.range' p.exprs.size n)).extend
      (left ++ List.range' p.exprs.size n ++ right)) := by
  refine ⟨⟨tidy.insertAt split (fun x hx => ?_) List.nodup_range' (fun x hx hmem => ?_),
    wired.of_ports (fun _ => rfl) fun _ => rfl, fun x hx => ?_⟩, ?_, ?_, header⟩
  · rw [size]
    exact (List.mem_range'_1.mp hx).2
  · exact Nat.not_lt.mpr (List.mem_range'_1.mp hx).1 (h.tidy.valid x (order ▸ hmem))
  · have hx : x < p.exprs.size + n := size ▸ hx
    show x ∈ left ++ List.range' p.exprs.size n ++ right
    rcases Nat.lt_or_ge x p.exprs.size with hlt | hge
    · have hmem := h.full x hlt
      rw [← order, split] at hmem
      simp only [List.mem_append] at hmem ⊢
      tauto
    · simp only [List.mem_append]
      exact .inl (.inr (List.mem_range'_1.mpr ⟨hge, hx⟩))
  · show p.exprs.size ≤ r.exprs.size
    omega
  · show p.order.Sublist (left ++ List.range' p.exprs.size n ++ right)
    rw [← order, split]
    exact (List.sublist_append_left _ _).append (.refl _)

/-- Making an operation without inputs and putting it at the end. -/
theorem add (h : p.Settled) {name : Label} {op : Op} {id : ExprId}
    (hok : Edit.add name op [] p = .ok id q) : p.Enlarged q := by
  obtain ⟨rfl, rfl⟩ := add_eq_ok hok
  have hr := p.rewired_make (op.expr name ([].map p.inputOf))
  have hwired := (h.wired.make (p.unused_makeOp name op []) (List.forall_mem_nil _)).wired
  have horder : (p.makeOp name op []).2.order = p.order := (congrArg Program.order hr.rest).trans rfl
  have hsize : (p.makeOp name op []).2.exprs.size = p.exprs.size + 1 := hr.size.trans (Array.size_push _)
  have := h.enter (h.tidy.make _) hwired horder hsize (p.extends_make _).header (List.append_nil _).symm
  rwa [List.append_nil] at this

/-- Drawing a name changes the counter of names only. -/
theorem of_uniqueName (h : p.Settled) (base : Label) : p.Enlarged (p.uniqueName base).2 := by
  obtain ⟨tidy, wired, full⟩ := h
  rw [(p.uniqueName_spec base).1]
  exact ⟨⟨⟨tidy.valid, tidy.nodup, tidy.named, tidy.room⟩,
    wired.of_ports (fun _ => rfl) fun _ => rfl, full⟩, Nat.le_refl _, .refl _, fun _ _ => rfl⟩

/-- A handler may add an expression. -/
theorem runHandler (h : p.Settled) {handler : Handler} {event : HandlerEvent}
    (hok : Edit.runHandler id handler p = .ok event q) : p.Enlarged q := by
  obtain ⟨l, _, hq⟩ := Edit.runHandler_eq_ok hok
  have hr : p.Enlarged { p with loops := p.loops.rebind id (.expanded (handler.adjust l)) } :=
    h.of_loops _
  rcases hq with rfl | ⟨op, made, _, hadd⟩
  · exact hr
  · have hs := hr.settled.of_uniqueName handler.append
    exact (hr.trans hs).trans (hs.settled.add hadd)

/-- Handlers may add expressions. -/
theorem runHandlers (h : p.Settled) {iteration : Iteration}
    (hok : Edit.runHandlers id origin iteration p = .ok events q) : p.Enlarged q := by
  unfold Edit.runHandlers at hok
  rw [get_bind] at hok
  exact mapM_invariant h.refl (fun _ _ _ _ _ hu hv => hu.trans (hu.settled.runHandler hv)) hok

end Settled

/-- Copying inner loops changes the loops only. -/
theorem copyInnerLoops_eq_ok (h : Edit.copyInnerLoops id copies base p = .ok renumber q) :
    ∃ t, q = { p with loops := t } := by
  refine foldlM_keeps (P := fun r => ∃ t, r = { p with loops := t }) ⟨p.loops, rfl⟩ ?_ h
  rintro copy _ b c _ v ⟨t, rfl⟩ hv
  unfold Edit.copyInnerLoop at hv
  rw [get_bind] at hv
  dsimp only at hv
  split at hv
  · obtain ⟨inner, _, hv⟩ := ask_bind_eq_ok.mp hv
    obtain ⟨new, r, hchange, hv⟩ := bind_eq_ok.mp hv
    obtain ⟨_, rfl⟩ := pure_eq_ok.mp hv
    rw [← (change_eq_ok.mp hchange).2]
    exact ⟨_, rfl⟩
  · obtain ⟨_, rfl⟩ := pure_eq_ok.mp hv
    exact ⟨t, rfl⟩

/-- A range of a tidy program that was copied, with a part registered, the inner loops copied and the
loops of the copies renumbered. -/
theorem Tidy.copiesRenumbered {s u w : Program} (tidy : p.Tidy) {begin stop : Int} {new : LoopId}
    {part : LoopBinding} (hcopy : Edit.copyRange begin stop p = .ok copies r) (hbind : Edit.change (fun p =>
      let (new, loops) := p.loops.bindNext part
      (new, { p with loops })) r = .ok new s)
    (hinner : Edit.copyInnerLoops id copies base s = .ok renumber u)
    (hmodify : (modify fun p => copies.foldl
      (fun p (_, copy) => p.modifyExpr copy (Edit.renumberLoops renumber)) p : Edit Unit) u = .ok () w) :
    ∃ inside t, inside.Sublist p.order ∧ p.copyAll inside = (copies, r) ∧
      copies.map Prod.snd = List.range' p.exprs.size inside.length ∧ p.Copied inside r ∧
      p.CopiesRenumbered r inside t renumber w := by
  obtain ⟨inside, hsub, hcopied⟩ := copyRange_eq_ok hcopy
  obtain ⟨r', hcopies, hheaders⟩ := copyAll_copied inside (fun a ha => tidy.valid a (hsub.mem ha))
    fun a ha => tidy.named a (hsub.mem ha)
  obtain ⟨rfl, rfl⟩ := Prod.mk.inj (hcopies.symm.trans hcopied)
  obtain ⟨t, rfl⟩ := copyInnerLoops_eq_ok hinner
  have hs : s = { r' with loops := s.loops } := by
    rw [← (change_eq_ok.mp hbind).2]
  rw [hs] at hmodify
  have hsnd : (inside.zipIdx p.exprs.size).map Prod.snd = List.range' p.exprs.size inside.length :=
    List.zipIdx_map_snd ..
  have hren := hheaders.renumber tidy t renumber
  have hw : (List.range' p.exprs.size inside.length).foldl
      (fun p c => p.modifyExpr c (Edit.renumberLoops renumber)) { r' with loops := t } = w := by
    rw [← hsnd, List.foldl_map]
    exact modify_eq_ok.mp hmodify
  exact ⟨inside, t, hsub, hcopies, hsnd, hheaders, hw ▸ hren⟩

/-- A loop that was split was replaced by parts. -/
theorem splitLoop_eq_ok (h : Edit.splitLoop id p = .ok events q) :
    ∃ origin whole place parts, Edit.insertParts id origin whole place parts p = .ok events q := by
  unfold Edit.splitLoop at h
  obtain ⟨origin, _, h⟩ := ask_bind_eq_ok.mp h
  rw [get_bind] at h
  obtain ⟨parts, _, h⟩ := ask_bind_eq_ok.mp h
  obtain ⟨⟨begin, stop⟩, _, h⟩ := ask_bind_eq_ok.mp h
  exact ⟨origin, _, begin, parts, h⟩

/-- Asking for the depths of loops leaves the program as it is. -/
theorem unifiedDepths_eq_ok {depths : List (LoopId × Nat)} (h : Edit.unifiedDepths p = .ok depths q) :
    p = q := by
  unfold Edit.unifiedDepths at h
  rw [get_bind] at h
  refine (mapM_eq_ok_of_same (fun l u d v hl => ?_) h).1
  obtain ⟨depth, _, hl⟩ := ask_bind_eq_ok.mp hl
  exact (pure_eq_ok.mp hl).2

/-- Loops that were split were split one after the other. -/
theorem splitLoops_eq_ok (h : Edit.splitLoops p = .ok events q) :
    ∃ (loops : List (LoopId × Nat)) (parts : List (List HandlerEvent)),
      (loops.mapM fun (id, _) => Edit.splitLoop id : Edit _) p = .ok parts q := by
  unfold Edit.splitLoops at h
  obtain ⟨pending, r, hdepths, h⟩ := bind_eq_ok.mp h
  obtain ⟨parts, s, hsplit, h⟩ := bind_eq_ok.mp h
  obtain ⟨_, rfl⟩ := pure_eq_ok.mp h
  obtain rfl := unifiedDepths_eq_ok hdepths
  exact ⟨_, parts, hsplit⟩

namespace Settled

/-- Putting a copy of a loop into the program. -/
theorem insertPart (h : p.Settled) {v : Variant} {outcome : Nat × List HandlerEvent}
    (hok : Edit.insertPart id origin whole v place p = .ok outcome q) : p.Enlarged q := by
  unfold Edit.insertPart at hok
  obtain ⟨⟨begin, stop⟩, _, hok⟩ := ask_bind_eq_ok.mp hok
  dsimp only at hok
  obtain ⟨copies, r, hcopy, hok⟩ := bind_eq_ok.mp hok
  obtain ⟨new, s, hbind, hok⟩ := bind_eq_ok.mp hok
  obtain ⟨renumber, u, hinner, hok⟩ := bind_eq_ok.mp hok
  obtain ⟨_, w, hmodify, hok⟩ := bind_eq_ok.mp hok
  obtain ⟨_, x, hinsert, hok⟩ := bind_eq_ok.mp hok
  obtain ⟨events, y, hhandlers, hok⟩ := bind_eq_ok.mp hok
  obtain ⟨_, rfl⟩ := pure_eq_ok.mp hok
  suffices hx : p.Enlarged x from hx.trans (hx.settled.runHandlers hhandlers)
  obtain ⟨inside, t, hsub, hcopied, hsnd, hheaders, hren⟩ :=
    h.tidy.copiesRenumbered hcopy hbind hinner hmodify
  have hwired := (h.wired.copyAll (h.tidy.nodup.sublist hsub) (fun a ha => h.tidy.valid a (hsub.mem ha))
    fun a ha => h.tidy.named a (hsub.mem ha)).wired
  rw [hcopied] at hwired
  rw [(insertAt_eq_ok hinsert).2, hsnd]
  refine h.enter hren.tidy (hwired.of_ports (fun v => ?_) fun x => ?_) hren.order hren.size
    (fun x hx => ?_) (List.take_append_drop _ _).symm
  · rw [output?, hren.expr, output?]
    split <;> rfl
  · rw [hren.expr]
    split <;> rfl
  · rw [hren.expr, if_neg fun hnew => Nat.not_lt.mpr hnew.1 hx]
    exact hheaders.old x hx

/-- Replacing a loop by its parts. -/
theorem insertParts (h : p.Settled) {vs : List Variant}
    (hok : Edit.insertParts id origin whole place vs p = .ok events q) : p.Enlarged q := by
  induction vs generalizing p place events with
  | nil =>
    obtain ⟨_, rfl⟩ := pure_eq_ok.mp hok
    exact h.refl
  | cons v vs ih =>
    cases vs with
    | nil =>
      obtain ⟨loops, _, hok⟩ := ask_bind_eq_ok.mp hok
      obtain ⟨_, r, hmodify, hok⟩ := bind_eq_ok.mp hok
      have hr : p.Enlarged r := by
        rw [← modify_eq_ok.mp hmodify]
        exact h.of_loops loops
      exact hr.trans (hr.settled.runHandlers hok)
    | cons v' vs =>
      obtain ⟨⟨count, first⟩, r, hpart, hok⟩ := bind_eq_ok.mp hok
      obtain ⟨rest, s, hrest, hok⟩ := bind_eq_ok.mp hok
      obtain ⟨_, rfl⟩ := pure_eq_ok.mp hok
      have hr := h.insertPart hpart
      exact hr.trans (ih hr.settled hrest)

/-- Splitting one loop. -/
theorem splitLoop (h : p.Settled) (hok : Edit.splitLoop id p = .ok events q) : p.Enlarged q := by
  obtain ⟨_, _, _, _, hok⟩ := splitLoop_eq_ok hok
  exact h.insertParts hok

/-- Splitting all loops. -/
theorem splitLoops (h : p.Settled) (hok : Edit.splitLoops p = .ok events q) : p.Enlarged q := by
  obtain ⟨_, _, hsplit⟩ := splitLoops_eq_ok hok
  exact mapM_invariant h.refl (fun _ _ _ _ _ hu hv => hu.trans (hu.settled.splitLoop hv)) hsplit

/-- Inserting the markers of a loop. -/
theorem insertMarkers (h : p.Settled) (split : p.order = left ++ inside ++ right)
    (hb : p.Bracketed id left inside right outer pointers q) : p.Enlarged q := by
  refine ⟨⟨hb.pristine.tidy, hb.pristine.wired, fun x hx => ?_⟩, ?_, ?_, hb.keeps.header⟩
  · rw [hb.size] at hx
    rw [hb.order]
    rcases Nat.lt_or_ge x p.exprs.size with hlt | hge
    · have hmem := h.full x hlt
      rw [split] at hmem
      simp only [List.mem_append, List.mem_cons] at hmem ⊢
      tauto
    · have hx : x = p.exprs.size ∨ x = p.exprs.size + 1 := by omega
      simp only [List.mem_append, List.mem_cons]
      tauto
  · rw [hb.size]
    exact Nat.le_add_right _ 2
  · rw [hb.order, split, List.append_assoc]
    exact (List.Sublist.refl _).append (((List.Sublist.refl _).append (.cons _ (.refl _))).cons _)

end Settled

/-- Without markers of loops the program is as it was. -/
theorem Bracketed.ofRole (hb : p.Bracketed id left inside right outer pointers q)
    (split : p.order = left ++ inside ++ right) (valid : ∀ x ∈ p.order, x < p.exprs.size) {role : Role}
    (hrole : role.isLoopMarker = false) : q.ofRole role = p.ofRole role := by
  have hold : ∀ l : List ExprId, (∀ x ∈ l, x ∈ p.order) →
      l.filter (fun x => (q.expr x).role = role) = l.filter fun x => (p.expr x).role = role := by
    intro l hl
    refine List.filter_congr fun x hx => ?_
    rw [Expr.role_of_header (hb.keeps.header x (valid x (hl x hx)))]
  have hbegin : (q.expr p.exprs.size).role ≠ role := by
    rw [hb.markers.begins.1]
    rintro rfl
    cases hrole
  have hstop : (q.expr (p.exprs.size + 1)).role ≠ role := by
    rw [hb.markers.stops.1]
    rintro rfl
    cases hrole
  rw [Program.ofRole, hb.order, Program.ofRole, split]
  simp only [List.filter_append, List.filter_cons, hbegin, hstop, decide_false, Bool.false_eq_true,
    if_false]
  rw [hold left, hold inside, hold right, List.append_assoc]
  all_goals
    intro x hx
    simp [split, hx]

/-- Inserting the markers of all loops. -/
theorem Settled.insertAllMarkers (h : p.Settled) (pristine : p.Pristine)
    (hok : Edit.insertAllMarkers p = .ok () q) : p.Enlarged q ∧
      (∀ role : Role, role.isLoopMarker = false → q.ofRole role = p.ofRole role) ∧
      (p.UsualOutputs → q.UsualOutputs) := by
  unfold Edit.insertAllMarkers at hok
  rw [get_bind] at hok
  have hrun := forM_invariant (P := fun r => r.Pristine ∧ p.Enlarged r ∧
    (∀ role : Role, role.isLoopMarker = false → r.ofRole role = p.ofRole role) ∧
    (p.UsualOutputs → r.UsualOutputs)) ⟨pristine, h.refl, fun _ _ => rfl, id⟩ ?_ hok
  · exact hrun.2
  rintro id _ u v ⟨hpristine, hu, hroles, husual⟩ hv
  obtain ⟨pair, hv, _⟩ := map_eq_ok.mp hv
  obtain ⟨left, inside, right, outer, pointers, horder, hb⟩ := hpristine.bracketed_of_insertMarkers hv
  refine ⟨hb.pristine, hu.trans (hu.settled.insertMarkers horder hb), fun role hrole => ?_,
    fun usual => hb.usual (husual usual)⟩
  rw [hb.ofRole horder hu.settled.tidy.valid hrole, hroles role hrole]

end Program

/-- Lowering the loops of a subgraph adds expressions to its program, and only markers of loops if the
loops are not split. -/
theorem Subgraph.enlarged_of_lowerLoops (built : sg.build = .ok p)
    (lowered : Kernel.lowerLoops options { program := p } = .ok events w) :
    p.Enlarged w.program ∧ (options.noIterations = true →
      ∀ role : Role, role.isLoopMarker = false → w.program.ofRole role = p.ofRole role) := by
  obtain ⟨ls, described, _⟩ := build_described built
  have hlisted := described.listed
  have hp : p.Settled := ⟨hlisted.pristine.tidy, hlisted.pristine.wired, fun x hx => by
    rw [hlisted.order]
    exact List.mem_range.mpr hx⟩
  obtain ⟨q, r, hinit, hmark, hsplit, _⟩ := Kernel.lowerLoops_eq_ok lowered
  have hpointers := Program.repointed_initLoops hinit
  have hq : p.Enlarged q ∧ ∀ role, q.ofRole role = p.ofRole role := by
    rw [hpointers.1]
    exact ⟨hp.of_loops _, fun _ => rfl⟩
  obtain ⟨hr, hroles, _⟩ := hq.1.settled.insertAllMarkers (hpointers.pristine hlisted.pristine) hmark
  split at hsplit
  · rw [hsplit]
    exact ⟨hq.1.trans hr, fun _ role hrole => (hroles role hrole).trans (hq.2 role)⟩
  · rename_i hno
    exact ⟨(hq.1.trans hr).trans (hr.settled.splitLoops hsplit), fun hyes => absurd hyes hno⟩

/-- The program of a subgraph is settled when its loops have been lowered. -/
theorem Subgraph.settled_of_lowerLoops (built : sg.build = .ok p)
    (lowered : Kernel.lowerLoops options { program := p } = .ok events w) : w.program.Settled :=
  (enlarged_of_lowerLoops built lowered).1.settled

end TensorKernel
