import TensorKernel.Proofs.Loop.Descent
import TensorKernel.Proofs.Program.Isomorphism

/-!
# Alias groups of copies

Splitting copies the range of a loop after the loops in it were split, so copies are copied again. What
reads a copy is a copy too and stands in the same loops that are still to be split. A range that holds a
copy therefore holds all its uses, and the copy of a copy is alone in its alias group. The copy of an
expression that was there from the start joins the group of this expression wherever a value is used
outside all loops.
-/

namespace TensorKernel

variable {x : ExprId} {copies : List (ExprId × ExprId)} {id : LoopId} {u : UseRef} {v : ValueRef}

/-- An expression of a nest lists the loops around the nest and loops of the nest. -/
theorem Nest.Fits.mem_loops {p : Program} {n : Nest} {outer : List LoopId} (h : n.Fits p outer)
    (hx : x ∈ n.flatten) {l : LoopId} (hl : l ∈ (p.expr x).loops) :
    l ∈ outer ∨ ∃ y ∈ n.begins, (p.expr y).loop = l := by
  induction n generalizing outer with
  | nil => cases hx
  | expr id rest ih =>
    obtain ⟨_, hloops, hrest⟩ := h
    rcases List.mem_cons.mp hx with rfl | hx
    · exact .inl (hloops ▸ hl)
    · exact ih hrest hx
  | loop begin stop body rest ihb ihr =>
    obtain ⟨⟨_, hbegin⟩, ⟨_, hstop, _⟩, hbody, hrest⟩ := h
    simp only [flatten, List.mem_cons, List.mem_append] at hx
    simp only [begins, List.mem_cons, List.mem_append]
    rcases hx with rfl | hx | rfl | hx
    · exact .inl (hbegin ▸ hl)
    · rcases ihb hbody hx with hout | ⟨y, hy, hyl⟩
      · rcases List.mem_append.mp hout with hout | hself
        · exact .inl hout
        · exact .inr ⟨begin, .inl rfl, (List.mem_singleton.mp hself).symm⟩
      · exact .inr ⟨y, .inr (.inl hy), hyl⟩
    · exact .inl (hstop ▸ hl)
    · rcases ihr hrest hx with hout | ⟨y, hy, hyl⟩
      · exact .inl hout
      · exact .inr ⟨y, .inr (.inr hy), hyl⟩

namespace Program

variable {p q r : Program}

/-- A loop that is still to be split. -/
def Pending (p : Program) (id : LoopId) : Prop := ∃ place, p.loops.binding? id = some (.unified place)

/-- No step makes loops that are still to be split. -/
theorem SplitStep.pending (step : SplitStep r q) (h : q.Pending id) : r.Pending id := by
  obtain ⟨place, hplace⟩ := h
  exact ⟨place, (unified_of_steps (.single step)).2 id place hplace⟩

namespace IsomorphicCopy

variable {inside : List ExprId} (h : p.IsomorphicCopy inside copies q)

include h

theorem hasValue_old (hv : v.producer < p.exprs.size) : q.HasValue v ↔ p.HasValue v := by
  rw [hasValue_iff_outputPorts, (h.old _ hv).2.2, hasValue_iff_outputPorts]

theorem hasValue_copy {c : ExprId} (he : (x, c) ∈ copies) (k : Nat) :
    q.HasValue ⟨c, k⟩ ↔ p.HasValue ⟨x, k⟩ := by
  rw [hasValue_iff_outputPorts, h.outputs x c he, List.length_map, hasValue_iff_outputPorts]

end IsomorphicCopy

section Range

variable {c : List Frame} {b e : ExprId} {body rest : Nest}

/-- What stands between the markers of a loop lists the loop, the markers apart. -/
theorem WellNested.lists_of_mem_inside (w : p.WellNested ((Nest.loop b e body rest).plug c))
    (hx : x ∈ (Nest.loop b e body .nil).flatten) :
    (p.expr x).role.isLoopMarker = true ∧ (p.expr x).loop = (p.expr b).loop ∨
      (p.expr b).loop ∈ (p.expr x).loops := by
  obtain ⟨⟨hbegin, _⟩, ⟨hend, _, hloop⟩, hbody, _⟩ := (Context.fits_plug.mp w.fits).1
  simp only [Nest.flatten, List.mem_cons, List.mem_append, List.not_mem_nil, or_false] at hx
  rcases hx with rfl | hx | rfl
  · exact .inl ⟨by rw [hbegin]; rfl, rfl⟩
  · exact .inr ((hbody.prefix_loops hx).subset (List.mem_append_right _ (List.mem_singleton_self _)))
  · exact .inl ⟨by rw [hend]; rfl, hloop⟩

namespace PartInserted

variable {part : LoopBinding} {renumber : List (LoopId × LoopId)}

variable (h : p.PartInserted (p.expr b).loop (Context.left c) (Nest.loop b e body .nil).flatten
    (rest.flatten ++ Context.right c) part renumber q)
  (w : p.WellNested ((Nest.loop b e body rest).plug c)) (tidy : p.Tidy)

include h w tidy

/-- Of the loops that are still to be split, all copies list those around the range. -/
theorem mem_loops_copy_iff (table : p.loops.Tidy) (hx : x ∈ (Nest.loop b e body .nil).flatten)
    (hid : p.Pending id) : id ∈ (q.expr (copy p b e body x)).loops ↔ id ∈ Context.path p c := by
  obtain ⟨k, hk, _, _, _, hloops, _⟩ := h.header_copy (w.nodup_inside tidy) hx
  rw [hk, hloops, List.mem_map]
  constructor
  · rintro ⟨l, hl, rfl⟩
    rcases w.fits_block.mem_loops hx hl with hpath | ⟨y, hy, rfl⟩
    · rw [h.lookup_path w hpath]
      exact hpath
    · -- A loop of the range was renumbered to a new one.
      rw [Nest.begins, Nest.begins, List.append_nil] at hy
      obtain ⟨m, hm, hle⟩ := h.lookup_begin w hy
      obtain ⟨place, hplace⟩ := hid
      have hlt := table.lt_next hplace
      rw [hm, Option.getD_some] at hlt
      omega
  · intro hpath
    refine ⟨id, (w.fits_block.prefix_loops hx).subset hpath, ?_⟩
    rw [h.lookup_path w hpath]
    rfl

/-- The markers among the copies are not those of loops that are still to be split. -/
theorem not_pending_copy (table : p.loops.Tidy) (hx : x ∈ (Nest.loop b e body .nil).flatten)
    (hm : (p.expr x).role.isLoopMarker = true) : ¬ p.Pending (q.expr (copy p b e body x)).loop := by
  rintro ⟨place, hplace⟩
  obtain ⟨y, hy, hyx, _⟩ := w.fits_block.exists_begin hx hm
  rw [Nest.begins, Nest.begins, List.append_nil] at hy
  obtain ⟨m, hlookup, hle⟩ := h.lookup_begin w hy
  obtain ⟨k, hk, _, _, _, _, hloop⟩ := h.header_copy (w.nodup_inside tidy) hx
  have hlt := table.lt_next hplace
  rw [hk, hloop hm, ← hyx, hlookup, Option.getD_some] at hlt
  omega

/-- The range is copied isomorphically, up to the numbers of loops. -/
theorem isomorphicCopy (wired : p.Wired) (behind : p.ReadsBehind) : ∃ q',
    p.IsomorphicCopy (Nest.loop b e body .nil).flatten
      ((Nest.loop b e body .nil).flatten.zipIdx p.exprs.size) q' ∧ ∀ v, q.output? v = q'.output? v := by
  have hsub : (Nest.loop b e body .nil).flatten.Sublist p.order := by
    rw [w.order_plug]
    exact (List.sublist_append_left ..).trans (List.sublist_append_right ..)
  obtain ⟨q', hcopied, hc, hread, hjoined⟩ := copyAll_joined (tidy.nodup.sublist hsub)
    (fun x hx => tidy.valid x (hsub.subset hx)) (fun x hx => tidy.named x (hsub.subset hx))
    (fun _ _ i hi => wired.hasValue_source hi) wired.grouped.aliasesExist
  refine ⟨q', hjoined.isomorphicCopy hc hread tidy wired.toLinked
    (behind.producersFirst tidy.nodup w.order_plug) wired.grouped.aliasesExist hsub, fun v => ?_⟩
  rw [output?, h.expr, hcopied, output?]
  split <;> rfl

/-- An expression is an earlier one, the copy of one in the range, or none. -/
theorem expr_cases (x : Nat) : x < p.exprs.size ∨
    (∃ a ∈ (Nest.loop b e body .nil).flatten, x = copy p b e body a ∧
      (a, x) ∈ (Nest.loop b e body .nil).flatten.zipIdx p.exprs.size) ∨ q.exprs.size ≤ x := by
  rcases Nat.lt_or_ge x p.exprs.size with hlt | hge
  · exact .inl hlt
  · obtain ⟨k, rfl⟩ := Nat.exists_eq_add_of_le hge
    rcases Nat.lt_or_ge k (Nest.loop b e body .nil).flatten.length with hk | hk
    · have ha := List.getElem?_eq_getElem hk
      exact .inr (.inl ⟨_, List.mem_of_getElem? ha, (copyOf_zipIdx (w.nodup_inside tidy) ha _).symm,
        mem_zipIdx_iff.mpr ⟨k, ha, rfl⟩⟩)
    · exact .inr (.inr (h.size ▸ Nat.add_le_add_left hk _))

end PartInserted

end Range

/-! ### Copies are read in the loops they are in -/

/-- The copies that splitting `p` made in `q` are read by copies only, and inside the same loops of those
that are still to be split. -/
structure Confined (p q : Program) : Prop where
  /-- The copies stand in the program. -/
  full : ∀ x : Nat, p.exprs.size ≤ x → x < q.exprs.size → x ∈ q.order
  /-- No copy is a marker of a loop that is still to be split. -/
  markers : ∀ x : Nat, p.exprs.size ≤ x → (q.expr x).role.isLoopMarker = true →
    ¬ q.Pending (q.expr x).loop
  /-- What reads a copy is a copy. -/
  readers : ∀ v : ValueRef, p.exprs.size ≤ v.producer → ∀ u ∈ q.uses v, p.exprs.size ≤ u.consumer
  /-- Both are in the same loops. -/
  loops : ∀ v : ValueRef, p.exprs.size ≤ v.producer → ∀ u ∈ q.uses v, ∀ id, q.Pending id →
    (id ∈ (q.expr u.consumer).loops ↔ id ∈ (q.expr v.producer).loops)

/-- At first there are no copies. -/
theorem Confined.refl (p : Program) : p.Confined p where
  full x hle hlt := absurd hlt (Nat.not_lt.mpr hle)
  markers x hle hm := by
    rw [expr_of_size_le hle] at hm
    cases hm
  readers v hle u hu := absurd (HasValue.of_mem_uses hu).lt_size (Nat.not_lt.mpr hle)
  loops v hle u hu := absurd (HasValue.of_mem_uses hu).lt_size (Nat.not_lt.mpr hle)

namespace Confined

variable {c : List Frame} {b e : ExprId} {body rest : Nest}

/-- A copy is in the range of a loop that is still to be split if it lists the loop, and only then. -/
theorem mem_inside_iff (h : p.Confined r) (w : r.WellNested ((Nest.loop b e body rest).plug c))
    (hb : r.Pending (r.expr b).loop) {x : Nat} (hx : p.exprs.size ≤ x) (hlt : x < r.exprs.size) :
    x ∈ (Nest.loop b e body .nil).flatten ↔ (r.expr b).loop ∈ (r.expr x).loops := by
  constructor
  · intro hin
    rcases w.lists_of_mem_inside hin with ⟨hm, hloop⟩ | hlists
    · exact absurd (hloop ▸ hb) (h.markers x hx hm)
    · exact hlists
  · exact w.mem_inside_of_lists List.mem_cons_self (h.full x hx hlt)

/-- So the range holds a copy together with its uses. -/
theorem mem_inside_of_uses (h : p.Confined r) (wired : r.Wired)
    (w : r.WellNested ((Nest.loop b e body rest).plug c)) (hb : r.Pending (r.expr b).loop)
    (hv : p.exprs.size ≤ v.producer) (hu : u ∈ r.uses v) :
    u.consumer ∈ (Nest.loop b e body .nil).flatten ↔ v.producer ∈ (Nest.loop b e body .nil).flatten := by
  rw [h.mem_inside_iff w hb (h.readers v hv u hu) (wired.consumer_lt_size hu),
    h.mem_inside_iff w hb hv (HasValue.of_mem_uses hu).lt_size]
  exact h.loops v hv u hu _ hb

/-- No copy of the range reads a copy that was there before. -/
theorem uses_old (h : p.Confined r) (wired : r.Wired) (w : r.WellNested ((Nest.loop b e body rest).plug c))
    (hb : r.Pending (r.expr b).loop) {q' : Program}
    (hiso : r.IsomorphicCopy (Nest.loop b e body .nil).flatten copies q') (hv : p.exprs.size ≤ v.producer)
    (hvalue : r.HasValue v) : q'.uses v = r.uses v := by
  by_cases hin : v.producer ∈ (Nest.loop b e body .nil).flatten
  · exact hiso.kept v hin
  · obtain ⟨within, _, hwithin, huses⟩ := hiso.gained v hvalue hin
    have hnil : within = [] := by
      refine List.eq_nil_iff_forall_not_mem.mpr fun u hu => ?_
      obtain ⟨hu, hcon⟩ := (hwithin u).mp hu
      exact hin ((h.mem_inside_of_uses wired w hb hv hu).mp hcon)
    rw [huses, hnil, List.map_nil, List.append_nil]

variable {part : LoopBinding} {renumber : List (LoopId × LoopId)}

/-- What reads a copy read it before, or both are copies of expressions of the range. -/
theorem uses_cases (h : p.Confined r) (wired : r.Wired) (behind : r.ReadsBehind) (tidy : r.Tidy)
    (w : r.WellNested ((Nest.loop b e body rest).plug c)) (hb : r.Pending (r.expr b).loop)
    (hpart : r.PartInserted (r.expr b).loop (Context.left c) (Nest.loop b e body .nil).flatten
      (rest.flatten ++ Context.right c) part renumber q) (hv : p.exprs.size ≤ v.producer)
    (hu : u ∈ q.uses v) :
    u ∈ r.uses v ∨ ∃ x ∈ (Nest.loop b e body .nil).flatten, ∃ y ∈ (Nest.loop b e body .nil).flatten,
      v.producer = PartInserted.copy r b e body x ∧ u.consumer = PartInserted.copy r b e body y := by
  obtain ⟨q', hiso, hout⟩ := hpart.isomorphicCopy w tidy wired behind
  rw [uses_of_output? hout] at hu
  have hvalue := HasValue.of_mem_uses hu
  rcases hpart.expr_cases w tidy v.producer with hlt | ⟨x, hx, hcopy, he⟩ | hge
  · left
    rwa [h.uses_old wired w hb hiso hv ((hiso.hasValue_old hlt).mp hvalue)] at hu
  · right
    obtain ⟨within, _, hwithin, huses⟩ := hiso.copied _ ((hiso.hasValue_copy he _).mp hvalue) hx
    rw [hiso.counterpart x _ he] at huses
    rw [huses] at hu
    obtain ⟨u', hu', rfl⟩ := List.mem_map.mp hu
    exact ⟨x, hx, u'.consumer, ((hwithin u').mp hu').2, hcopy, rfl⟩
  · exact absurd ((hasValue_of_output? hout v).mpr hvalue).lt_size (Nat.not_lt.mpr hge)

/-- One step keeps copies confined. -/
theorem step (h : p.Confined r) (hsize : p.exprs.size ≤ r.exprs.size) (wired : r.Wired)
    (behind : r.ReadsBehind) (step : SplitStep r q) : p.Confined q := by
  have hpending : ∀ {id}, q.Pending id → r.Pending id := step.pending
  cases step with
  | part tidy table w unsplit hpart =>
    have hb : r.Pending (r.expr _).loop := ⟨_, unsplit⟩
    have hnodup := w.nodup_inside tidy
    have huses := fun {v} hv {u} =>
      h.uses_cases wired behind tidy w hb hpart (v := v) hv (u := u)
    refine ⟨fun x hx hlt => ?_, fun x hx hm hid => ?_, fun v hv u hu => ?_, fun v hv u hu id hid => ?_⟩
    · refine (hpart.mem_order_iff w.order_plug).mpr ?_
      rcases hpart.expr_cases w tidy x with hold | ⟨a, _, _, he⟩ | hge
      · exact .inl (h.full x hx hold)
      · obtain ⟨k, hk, rfl⟩ := mem_zipIdx_iff.mp he
        exact .inr ⟨k, a, hk, rfl⟩
      · exact absurd hlt (Nat.not_lt.mpr hge)
    · rcases hpart.expr_cases w tidy x with hold | ⟨a, ha, rfl, _⟩ | hge
      · have hhead := hpart.header_old hold
        rw [Expr.role_of_header hhead] at hm
        exact h.markers x hx hm (Expr.loop_of_header hhead ▸ hpending hid)
      · obtain ⟨k, hk, _, hrole, _⟩ := hpart.header_copy hnodup ha
        rw [hk, hrole] at hm
        exact hpart.not_pending_copy w tidy table ha hm (hpending hid)
      · rw [expr_of_size_le hge] at hm
        cases hm
    · rcases huses hv hu with hu | ⟨_, _, y, hy, _, hcopy⟩
      · exact h.readers v hv u hu
      · obtain ⟨k, hk, hle, _⟩ := hpart.header_copy hnodup hy
        rw [hcopy, hk]
        exact Nat.le_trans hsize hle
    · rcases huses hv hu with hu | ⟨x, hx, y, hy, hproducer, hconsumer⟩
      · rw [Expr.loops_of_header (hpart.header_old (wired.consumer_lt_size hu)),
          Expr.loops_of_header (hpart.header_old (HasValue.of_mem_uses hu).lt_size)]
        exact h.loops v hv u hu id (hpending hid)
      · rw [hproducer, hconsumer, hpart.mem_loops_copy_iff w tidy table hx (hpending hid),
          hpart.mem_loops_copy_iff w tidy table hy (hpending hid)]
  | bind v unsplit =>
    exact ⟨h.full, fun x hx hm hid => h.markers x hx hm (hpending hid), h.readers,
      fun v hv u hu id hid => h.loops v hv u hu id (hpending hid)⟩

/-- All steps keep copies confined. -/
theorem of_steps (tidy : p.Tidy) (wired : p.Wired) (kept : p.StructureKept p)
    (steps : Relation.ReflTransGen SplitStep p q) : p.Confined q := by
  induction steps with
  | refl => exact .refl p
  | tail before step ih =>
    have hr := tidy.retains_of_steps wired before
    exact ih.step hr.size hr.wired (kept.of_steps before).behind step

end Confined

/-! ### Groups -/

/-- A value is used outside all loops. -/
def UsedOutside (p : Program) (v : ValueRef) : Prop :=
  ∃ u ∈ p.uses v, (p.expr u.consumer).role.isLoopMarker = false ∧ (p.expr u.consumer).loops = []

/-- What is used outside all loops is used outside every range. -/
theorem UsedOutside.exists_outside (h : p.UsedOutside v) (wired : p.Wired) (hr : p.Retains r)
    {c : List Frame} {b e : ExprId} {body rest : Nest} (w : r.WellNested ((Nest.loop b e body rest).plug c)) :
    ∃ u ∈ r.uses v, u.consumer ∉ (Nest.loop b e body .nil).flatten := by
  obtain ⟨u, hu, hmarker, hloops⟩ := h
  have hhead := hr.header _ (wired.consumer_lt_size hu)
  refine ⟨u, (hr.uses v).subset hu, fun hin => ?_⟩
  rcases w.lists_of_mem_inside hin with ⟨hm, _⟩ | hlists
  · rw [Expr.role_of_header hhead, hmarker] at hm
    cases hm
  · rw [Expr.loops_of_header hhead, hloops] at hlists
    cases hlists

/-- How the copies that splitting `p` made in `q` are grouped. -/
structure CopyGroups (p q : Program) : Prop where
  /-- A copy has the role of what it is a copy of, which has a smaller number. -/
  origins : ∀ x y, (q.expr x).origin = some y → y < x ∧ (q.expr x).role = (q.expr y).role
  /-- A value that is used outside all loops has the values of its direct copies in its group. -/
  joins : ∀ x y k, (q.expr x).origin = some y → y < p.exprs.size → p.UsedOutside ⟨y, k⟩ →
    ⟨x, k⟩ ∈ q.aliasGroup ⟨y, k⟩
  /-- The values of a copy of a copy are alone. -/
  alone : ∀ x y k, (q.expr x).origin = some y → p.exprs.size ≤ y → q.aliasGroup ⟨x, k⟩ = [⟨x, k⟩]

namespace CopyGroups

variable {c : List Frame} {b e : ExprId} {body rest : Nest} {part : LoopBinding}
  {renumber : List (LoopId × LoopId)}

/-- An earlier value that is alone stays so, unless it is copied and used outside the range. -/
theorem aliasGroup_alone {inside : List ExprId} (hiso : r.IsomorphicCopy inside copies q)
    (grouped : r.Grouped) (hv : r.HasValue v) (halone : r.aliasGroup v = [v])
    (hin : v.producer ∈ inside → ∀ u ∈ r.uses v, u.consumer ∈ inside) : q.aliasGroup v = [v] := by
  obtain ⟨new, hgroup, hnew⟩ := hiso.oldGroup v hv
  have hnil : new = [] := by
    refine List.eq_nil_iff_forall_not_mem.mpr fun y hy => ?_
    obtain ⟨x, c, k, he, _, hx, ⟨u, hu, hout⟩, hroot⟩ := (hnew y).mp hy
    have hself := (grouped _ hx).1
    rw [aliasGroup_eq_iff.mpr hroot, halone, List.mem_singleton] at hself
    subst hself
    refine hout (hin ?_ u hu)
    rw [← hiso.originals]
    exact List.mem_map_of_mem he
  rw [hgroup, halone, hnil, List.append_nil]

/-- Another part groups its copies. -/
theorem insertPart (h : p.CopyGroups r) (original : ∀ x, (p.expr x).origin = none)
    (hconfined : p.Confined r) (wired : p.Wired) (hr : p.Retains r) (behind : r.ReadsBehind)
    (tidy : r.Tidy) (w : r.WellNested ((Nest.loop b e body rest).plug c))
    (hb : r.Pending (r.expr b).loop)
    (hpart : r.PartInserted (r.expr b).loop (Context.left c) (Nest.loop b e body .nil).flatten
      (rest.flatten ++ Context.right c) part renumber q) : p.CopyGroups q := by
  obtain ⟨q', hiso, hout⟩ := hpart.isomorphicCopy w tidy hr.wired behind
  have hgroup := aliasGroup_of_output? hout
  have horigin : ∀ {x y : ExprId}, (q.expr x).origin = some y →
      (x < r.exprs.size ∧ (r.expr x).origin = some y) ∨ (y ∈ (Nest.loop b e body .nil).flatten ∧
        (y, x) ∈ (Nest.loop b e body .nil).flatten.zipIdx r.exprs.size ∧
        (q.expr x).role = (r.expr y).role) := by
    intro x y hxy
    rcases hpart.expr_cases w tidy x with hlt | ⟨a, ha, hcopy, he⟩ | hge
    · exact .inl ⟨hlt, Expr.origin_of_header (hpart.header_old hlt) ▸ hxy⟩
    · obtain ⟨k, hk, _, hrole, ho, _⟩ := hpart.header_copy (w.nodup_inside tidy) ha
      obtain rfl := hcopy.trans hk
      rw [ho] at hxy
      cases hxy
      exact .inr ⟨ha, he, hrole⟩
    · rw [expr_of_size_le hge] at hxy
      cases hxy
  refine ⟨fun x y hxy => ?_, fun x y k hxy hy hused => ?_, fun x y k hxy hy => ?_⟩
  · rcases horigin hxy with ⟨hlt, hold⟩ | ⟨hin, he, hrole⟩
    · obtain ⟨hyx, hrole⟩ := h.origins x y hold
      rw [Expr.role_of_header (hpart.header_old hlt),
        Expr.role_of_header (hpart.header_old (Nat.lt_trans hyx hlt))]
      exact ⟨hyx, hrole⟩
    · have hy := tidy.valid y (w.mem_order_of_inside hin)
      rw [hrole, Expr.role_of_header (hpart.header_old hy)]
      exact ⟨Nat.lt_of_lt_of_le hy (List.mem_zipIdx he).1, rfl⟩
  · rw [hgroup]
    obtain ⟨u, hu, huout⟩ := hused.exists_outside wired hr w
    rcases horigin hxy with ⟨_, hold⟩ | ⟨_, he, _⟩
    · obtain ⟨new, hnew, _⟩ := hiso.oldGroup ⟨y, k⟩ (.of_mem_uses hu)
      rw [hnew]
      exact List.mem_append_left _ (h.joins x y k hold hy hused)
    · exact (hiso.joined y x he k (.of_mem_uses hu)).mpr ⟨u, hu, huout⟩
  · rw [hgroup]
    rcases horigin hxy with ⟨hlt, hold⟩ | ⟨hin, he, _⟩
    · have hx : p.exprs.size ≤ x := by
        refine Nat.le_of_not_lt fun hx => ?_
        rw [Expr.origin_of_header (hr.header x hx), original] at hold
        cases hold
      by_cases hvalue : r.HasValue ⟨x, k⟩
      · exact aliasGroup_alone hiso hr.wired.grouped hvalue (h.alone x y k hold hy) fun hin u hu =>
          (hconfined.mem_inside_of_uses hr.wired w hb hx hu).mpr hin
      · exact aliasGroup_of_not_hasValue (mt (hiso.hasValue_old hlt).mp hvalue)
    · by_cases hvalue : r.HasValue ⟨y, k⟩
      · rcases hiso.group y x he k hvalue with ⟨⟨u, hu, huout⟩, _⟩ | ⟨_, halone⟩
        · exact absurd ((hconfined.mem_inside_of_uses hr.wired w hb hy hu).mpr hin) huout
        · exact halone
      · exact aliasGroup_of_not_hasValue (mt (hiso.hasValue_copy he k).mp hvalue)

/-- All steps group the copies that they make. -/
theorem of_steps (original : ∀ x, (p.expr x).origin = none) (tidy : p.Tidy) (wired : p.Wired)
    (kept : p.StructureKept p) (steps : Relation.ReflTransGen SplitStep p q) : p.CopyGroups q := by
  induction steps with
  | refl =>
    refine ⟨fun x y hxy => ?_, fun x y k hxy => ?_, fun x y k hxy => ?_⟩ <;>
    · rw [original] at hxy
      cases hxy
  | tail before step ih =>
    cases step with
    | part tidy' table w unsplit hpart =>
      exact ih.insertPart original (.of_steps tidy wired kept before) wired
        (tidy.retains_of_steps wired before) (kept.of_steps before).behind tidy' w ⟨_, unsplit⟩ hpart
    | bind v unsplit => exact ⟨ih.origins, ih.joins, ih.alone⟩

end CopyGroups

end Program

end TensorKernel
