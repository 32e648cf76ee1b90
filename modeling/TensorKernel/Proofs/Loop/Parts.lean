import TensorKernel.Proofs.Loop.Table
import TensorKernel.Proofs.Program.Copies

/-!
# Inserting a part of a loop

A part before the last one is a copy of what stands between the markers of a loop, the markers
included. The copies are put before the loop. The loops nested in it are copied too, and in the copies
every marker and every list of loops refers to the copied loops instead.
-/

namespace TensorKernel

open Outcome

variable {l : ExpandedLoop} {x : ExprId} {h : Handler} {inside left right : List ExprId} {id : LoopId}
  {t : LoopTable} {origin : Nat} {p q r : Program}

/-- A handler that records what it sees and changes nothing. -/
def Handler.Passive (h : Handler) : Prop :=
  h.setWork = none ∧ h.setIncrement = none ∧ h.append = ""

instance (h : Handler) : Decidable h.Passive := inferInstanceAs (Decidable (_ ∧ _ ∧ _))

theorem Handler.Passive.adjust (hp : h.Passive) (l : ExpandedLoop) : h.adjust l = l := by
  obtain ⟨hw, hi, _⟩ := hp
  rw [Handler.adjust, hw, hi]
  rfl

namespace Edit

open Outcome Program

/-- A passive handler leaves the program as it is. -/
theorem runHandler_ok (table : p.loops.Tidy) (hb : p.loops.binding? id = some (.expanded l))
    (passive : h.Passive) :
    runHandler id h p = .ok ⟨h.tag, id, l.iteration, l.work, l.increment, p.length⟩ p := by
  have hask : ask (fun p => p.loops.expandedLoop id) p = .ok l p :=
    ask_eq_ok.mpr ⟨by rw [LoopTable.expandedLoop, hb], rfl⟩
  have hmod : { p with loops := p.loops.rebind id (.expanded (h.adjust l)) } = p := by
    rw [passive.adjust, LoopTable.rebind_self table hb]
  unfold runHandler
  refine bind_eq_ok.mpr ⟨l, p, hask, bind_eq_ok.mpr ⟨p, p, rfl, bind_eq_ok.mpr ⟨⟨⟩, p, ?_, ?_⟩⟩⟩
  · exact modify_eq_ok.mpr hmod
  · rw [if_neg (by simp [passive.2.2])]
    rfl

/-- A handler adjusts the part and may then add an operation under a new name. -/
theorem runHandler_eq_ok {event : HandlerEvent} (run : runHandler id h p = .ok event q) :
    ∃ l, p.loops.expandedLoop id = .ok l ∧
      let r := { p with loops := p.loops.rebind id (.expanded (h.adjust l)) }
      q = r ∨ ∃ op made, op.outputs ≤ 1 ∧
        add (r.uniqueName h.append).1 op [] (r.uniqueName h.append).2 = .ok made q := by
  obtain ⟨l, hl, run⟩ := ask_bind_eq_ok.mp run
  rw [get_bind] at run
  obtain ⟨_, r, hset, run⟩ := bind_eq_ok.mp run
  obtain rfl := modify_eq_ok.mp hset
  refine ⟨l, hl, ?_⟩
  split at run
  · obtain ⟨name, u, hname, run⟩ := bind_eq_ok.mp run
    obtain ⟨_, s, hdiscard, run⟩ := bind_eq_ok.mp run
    obtain ⟨_, rfl⟩ := pure_eq_ok.mp run
    obtain ⟨made, hadd, _⟩ := map_eq_ok.mp hdiscard
    obtain ⟨rfl, rfl⟩ := change_eq_ok.mp hname
    exact .inr ⟨_, made, Int.le_refl 1, hadd⟩
  · exact .inl (pure_eq_ok.mp run).2.symm

/-- Passive handlers leave the program as it is. -/
theorem runHandlers_ok {iteration : Iteration} (table : p.loops.Tidy)
    (hb : p.loops.binding? id = some (.expanded l))
    (passive : ∀ h ∈ (p.loops.unifiedAt origin).handlers.get iteration, h.Passive) :
    ∃ events, runHandlers id origin iteration p = .ok events p := by
  have hevents := mapM_eq_map fun h hh => runHandler_ok table hb (passive h hh)
  exact ⟨_, bind_eq_ok.mpr ⟨p, p, rfl, hevents⟩⟩

end Edit

/-- A part of a loop whose ports refer to what `target` gives for their expressions. -/
def ExpandedLoop.retarget (l : ExpandedLoop) (target : ExprId → ExprId) : ExpandedLoop :=
  { l with toLoopFrame := l.toLoopFrame.retarget target }

/-- What a loop runs over does not depend on its ports. -/
theorem LoopTable.course_of_retarget {u : LoopTable} {id' : LoopId} {target : ExprId → ExprId}
    (h : t.binding? id = some (.expanded l)) (h' : u.binding? id' = some (.expanded (l.retarget target))) :
    u.course id' = t.course id := by
  simp only [LoopTable.course, h, h']
  rfl

namespace Program

/-- Whether an expression begins a loop other than `id`. -/
def BeginsInner (r : Program) (id : LoopId) (x : ExprId) : Prop :=
  (r.expr x).role = .loopBegin ∧ (r.expr x).loop ≠ id

/-- What is known when the loops that begin in `done` have been copied, in a program whose other loops
are those of `r`. -/
structure InnerCopied (r : Program) (id : LoopId) (target : ExprId → ExprId)
    (base : List (LoopId × LoopId)) (done : List ExprId) (renumber : List (LoopId × LoopId))
    (t : LoopTable) : Prop where
  /-- The table stays tidy. -/
  tidy : t.Tidy
  /-- Unified loops stay. -/
  unified : t.unified = r.loops.unified
  /-- Ids are given out upwards. -/
  next : r.loops.next ≤ t.next
  /-- Earlier ids stay bound as they were. -/
  old : ∀ l : Int, l < r.loops.next → t.binding? l = r.loops.binding? l
  /-- The other ids are those of the copies. -/
  ids : ∀ l ∈ t.ids, l ∈ r.loops.ids ∨
    ∃ x ∈ done, r.BeginsInner id x ∧ renumber.lookup (r.expr x).loop = some l
  /-- No other loop is renumbered. -/
  kept : ∀ l, (∀ x ∈ done, r.BeginsInner id x → (r.expr x).loop ≠ l) →
    renumber.lookup l = base.lookup l
  /-- The copy of a loop is the loop on the copies of its ports. -/
  new : ∀ x ∈ done, r.BeginsInner id x → ∃ m : Nat, renumber.lookup (r.expr x).loop = some (m : Int) ∧
    (r.loops.next ≤ m ∧ m < t.next) ∧ ∃ l, r.loops.binding? (r.expr x).loop = some (.expanded l) ∧
      t.binding? (m : Int) = some (.expanded (l.retarget target))
  /-- Different loops have different copies. -/
  apart : ∀ x ∈ done, ∀ y ∈ done, r.BeginsInner id x → r.BeginsInner id y →
    renumber.lookup (r.expr x).loop = renumber.lookup (r.expr y).loop →
    (r.expr x).loop = (r.expr y).loop

theorem innerCopied_nil (table : r.loops.Tidy) (id : LoopId) (target : ExprId → ExprId)
    (base : List (LoopId × LoopId)) : r.InnerCopied id target base [] base r.loops where
  tidy := table
  unified := rfl
  next := Nat.le_refl _
  old _ _ := rfl
  ids _ hl := .inl hl
  kept _ _ := rfl
  new _ h := by cases h
  apart _ h := by cases h

namespace InnerCopied

variable {target : ExprId → ExprId} {base renumber : List (LoopId × LoopId)} {done : List ExprId}

/-- An expression that begins no inner loop needs no copy of a loop. -/
theorem skip (h : r.InnerCopied id target base done renumber t) (hx : ¬ r.BeginsInner id x) :
    r.InnerCopied id target base (done ++ [x]) renumber t where
  tidy := h.tidy
  unified := h.unified
  next := h.next
  old := h.old
  ids l hl := (h.ids l hl).imp_right fun ⟨y, hy, hin⟩ => ⟨y, List.mem_append_left _ hy, hin⟩
  kept l hl := h.kept l fun y hy => hl y (by simp [hy])
  new y hy hin := by
    rcases List.mem_append.mp hy with hy | hy
    · exact h.new y hy hin
    · rw [List.mem_singleton.mp hy] at hin
      exact absurd hin hx
  apart y hy z hz hiny hinz := by
    have hdone : ∀ {y}, y ∈ done ++ [x] → r.BeginsInner id y → y ∈ done := by
      intro y hy hin
      rcases List.mem_append.mp hy with hy | hy
      · exact hy
      · rw [List.mem_singleton.mp hy] at hin
        exact absurd hin hx
    exact h.apart y (hdone hy hiny) z (hdone hz hinz) hiny hinz

/-- A loop that begins here is copied under the next id. -/
theorem bind (h : r.InnerCopied id target base done renumber t) (hx : r.BeginsInner id x)
    (distinct : ∀ y ∈ done, r.BeginsInner id y → (r.expr y).loop ≠ (r.expr x).loop)
    (hl : r.loops.binding? (r.expr x).loop = some (.expanded l)) :
    r.InnerCopied id target base (done ++ [x]) (((r.expr x).loop, (t.next : Int)) :: renumber)
      (t.addCopy (.expanded l) target).2 := by
  change r.InnerCopied id target base _ _ (t.bindNext (.expanded (l.retarget target))).2
  generalize hl' : l.retarget target = l'
  have hbinding := LoopTable.binding?_bindNext h.tidy (.expanded l')
  have hold : ∀ m : Int, m < t.next → (t.bindNext (.expanded l')).2.binding? m = t.binding? m := by
    intro m hm
    rw [hbinding, if_neg (Int.ne_of_lt hm)]
  have hlookup : ∀ k, k ≠ (r.expr x).loop →
      List.lookup k (((r.expr x).loop, (t.next : Int)) :: renumber) = renumber.lookup k := by
    intro k hk
    have hne : (k == (r.expr x).loop) = false := beq_eq_false_iff_ne.mpr hk
    rw [List.lookup_cons, hne]
  have hself : List.lookup (r.expr x).loop (((r.expr x).loop, (t.next : Int)) :: renumber) =
      some (t.next : Int) := List.lookup_cons_self
  have hnext := h.next
  refine ⟨h.tidy.bindNext _, h.unified, Nat.le_succ_of_le h.next, ?_, ?_, ?_, ?_, ?_⟩
  · intro m hm
    rw [hold m (by omega), h.old m hm]
  · intro m hm
    rcases LoopTable.mem_ids_bindNext.mp hm with hm | rfl
    · refine (h.ids m hm).imp_right ?_
      rintro ⟨y, hy, hin, hy'⟩
      exact ⟨y, List.mem_append_left _ hy, hin, by rw [hlookup _ (distinct y hy hin), hy']⟩
    · exact .inr ⟨x, by simp, hx, hself⟩
  · intro k hk
    rw [hlookup k (hk x (by simp) hx).symm, h.kept k fun y hy => hk y (by simp [hy])]
  · intro y hy hin
    rcases List.mem_append.mp hy with hy | hy
    · obtain ⟨m, hm, ⟨hle, hlt⟩, k, hk, hcopy⟩ := h.new y hy hin
      refine ⟨m, ?_, ⟨hle, Nat.lt_succ_of_lt hlt⟩, k, hk, ?_⟩
      · rw [hlookup _ (distinct y hy hin), hm]
      · rw [hold m (by omega), hcopy]
    · rw [List.mem_singleton.mp hy]
      refine ⟨t.next, hself, ⟨h.next, Nat.lt_succ_self _⟩, l, hl, ?_⟩
      rw [hbinding, if_pos rfl, hl']
  · intro y hy z hz hiny hinz he
    have hfresh : ∀ y ∈ done, r.BeginsInner id y →
        renumber.lookup (r.expr y).loop ≠ some (t.next : Int) := by
      intro y hy hin he
      obtain ⟨m, hm, ⟨_, hlt⟩, _⟩ := h.new y hy hin
      rw [hm, Option.some.injEq] at he
      omega
    rcases List.mem_append.mp hy with hy | hy <;> rcases List.mem_append.mp hz with hz | hz
    · rw [hlookup _ (distinct y hy hiny), hlookup _ (distinct z hz hinz)] at he
      exact h.apart y hy z hz hiny hinz he
    · rw [List.mem_singleton.mp hz, hself, hlookup _ (distinct y hy hiny)] at he
      exact absurd he (hfresh y hy hiny)
    · rw [List.mem_singleton.mp hy, hself, hlookup _ (distinct z hz hinz)] at he
      exact absurd he.symm (hfresh z hz hinz)
    · rw [List.mem_singleton.mp hy, List.mem_singleton.mp hz]

end InnerCopied

/-- Copying the loops that begin in a range: they are parts of split loops, and different. -/
theorem foldlM_copyInnerLoop (table : r.loops.Tidy) (id : LoopId) (target : ExprId → ExprId)
    (base : List (LoopId × LoopId)) (copies : List ExprId) (expanded : ∀ x ∈ copies, r.BeginsInner id x →
      ∃ l, r.loops.binding? (r.expr x).loop = some (.expanded l))
    (distinct : copies.Pairwise fun x y => r.BeginsInner id x → r.BeginsInner id y →
      (r.expr x).loop ≠ (r.expr y).loop) :
    ∃ renumber t, copies.foldlM (Edit.copyInnerLoop id target) base r =
        .ok renumber { r with loops := t } ∧
      r.InnerCopied id target base copies renumber t := by
  suffices H : ∀ rest done renumber t, copies = done ++ rest →
      r.InnerCopied id target base done renumber t → ∃ renumber' t',
        rest.foldlM (Edit.copyInnerLoop id target) renumber { r with loops := t } =
          .ok renumber' { r with loops := t' } ∧ r.InnerCopied id target base copies renumber' t' from
    H copies [] base r.loops rfl (innerCopied_nil table id target base)
  intro rest
  induction rest with
  | nil =>
    intro done renumber t hl h
    rw [List.append_nil] at hl
    exact ⟨renumber, t, rfl, hl ▸ h⟩
  | cons c rest ih =>
    intro done renumber t hl h
    have hrest : copies = (done ++ [c]) ++ rest := by simp [hl]
    have hexpr : ({ r with loops := t } : Program).expr c = r.expr c := rfl
    by_cases hc : r.BeginsInner id c
    · obtain ⟨l, hbinding⟩ := expanded c (by simp [hl]) hc
      have hdone : ∀ y ∈ done, r.BeginsInner id y → (r.expr y).loop ≠ (r.expr c).loop := by
        rw [hl, List.pairwise_append] at distinct
        exact fun y hy hin => distinct.2.2 y hy c (by simp) hin hc
      obtain ⟨renumber', t', hok, hcopied⟩ :=
        ih (done ++ [c]) _ _ hrest (h.bind hc hdone hbinding)
      refine ⟨renumber', t', bind_eq_ok.mpr ⟨_, _, ?_, hok⟩, hcopied⟩
      have hloop : LoopTable.loop t (r.expr c).loop = .ok (.expanded l) := by
        rw [LoopTable.loop, h.old _ (table.lt_next hbinding), hbinding]
        rfl
      refine bind_eq_ok.mpr ⟨_, _, rfl, ?_⟩
      dsimp only
      rw [hexpr, if_pos (⟨hc.1, hc.2⟩ : _ ∧ _)]
      exact bind_eq_ok.mpr ⟨_, _, ask_eq_ok.mpr ⟨hloop, rfl⟩, rfl⟩
    · obtain ⟨renumber', t', hok, hcopied⟩ := ih (done ++ [c]) _ _ hrest (h.skip hc)
      refine ⟨renumber', t', bind_eq_ok.mpr ⟨renumber, _, ?_, hok⟩, hcopied⟩
      refine bind_eq_ok.mpr ⟨_, _, rfl, ?_⟩
      dsimp only
      rw [hexpr, if_neg fun h : _ ∧ _ => hc h]
      rfl

/-- Changing different expressions in the same way. -/
theorem foldl_modifyExpr {ids : List ExprId} (nodup : ids.Nodup) (f : Expr → Expr) (p : Program)
    (valid : ∀ id ∈ ids, id < p.exprs.size) :
    let q := ids.foldl (fun p id => p.modifyExpr id f) p
    q = { p with exprs := q.exprs } ∧ q.exprs.size = p.exprs.size ∧
      ∀ j, q.expr j = if j ∈ ids then f (p.expr j) else p.expr j := by
  induction ids generalizing p with
  | nil => exact ⟨rfl, rfl, fun j => rfl⟩
  | cons id ids ih =>
    obtain ⟨hid, hnodup⟩ := List.nodup_cons.mp nodup
    have hsize : (p.modifyExpr id f).exprs.size = p.exprs.size := by simp [modifyExpr]
    obtain ⟨hrest, hsize', hexpr⟩ := ih hnodup (p.modifyExpr id f) fun e he => by
      rw [hsize]
      exact valid e (List.mem_cons_of_mem _ he)
    refine ⟨hrest, hsize'.trans hsize, fun j => (hexpr j).trans ?_⟩
    rw [expr_modifyExpr]
    by_cases hj : id = j
    · rw [if_neg (hj ▸ hid), if_pos ⟨hj, hj ▸ valid id (List.mem_cons_self ..)⟩,
        if_pos (hj ▸ List.mem_cons_self ..)]
    · have hmem : j ∈ id :: ids ↔ j ∈ ids := by
        rw [List.mem_cons, or_iff_right fun h => hj h.symm]
      simp only [hmem, hj, false_and, if_false]

/-- The loops of a program with a part of loop `id` registered, whose copied expressions are `inside`,
and with the loops that begin in it copied. -/
structure Renumbered (p : Program) (id : LoopId) (inside : List ExprId) (part : LoopBinding)
    (renumber : List (LoopId × LoopId)) (t : LoopTable) : Prop where
  /-- The table stays tidy. -/
  tidy : t.Tidy
  /-- Unified loops stay. -/
  unified : t.unified = p.loops.unified
  /-- Earlier ids stay bound as they were. -/
  old : ∀ l : Int, l < p.loops.next → t.binding? l = p.loops.binding? l
  /-- The other ids are those of the part and of the copies of inner loops. -/
  ids : ∀ l ∈ t.ids, l ∈ p.loops.ids ∨ l = p.loops.next ∨
    ∃ x ∈ inside, p.BeginsInner id x ∧ renumber.lookup (p.expr x).loop = some l
  /-- The loop itself is renumbered to the part. -/
  self : renumber.lookup id = some (p.loops.next : Int)
  /-- The part is registered. -/
  part : t.binding? (p.loops.next : Int) = some part
  /-- Loops that do not begin inside are not renumbered. -/
  kept : ∀ l, l ≠ id → (∀ x ∈ inside, p.BeginsInner id x → (p.expr x).loop ≠ l) →
    renumber.lookup l = none
  /-- The copy of an inner loop is the loop on the copies of its ports. -/
  inner : ∀ x ∈ inside, p.BeginsInner id x → ∃ m : Nat,
    renumber.lookup (p.expr x).loop = some (m : Int) ∧ (p.loops.next < m ∧ m < t.next) ∧
    ∃ l, p.loops.binding? (p.expr x).loop = some (.expanded l) ∧ t.binding? (m : Int) =
      some (.expanded (l.retarget (copyOf (inside.zipIdx p.exprs.size))))
  /-- Different inner loops have different copies. -/
  apart : ∀ x ∈ inside, ∀ y ∈ inside, p.BeginsInner id x → p.BeginsInner id y →
    renumber.lookup (p.expr x).loop = renumber.lookup (p.expr y).loop →
    (p.expr x).loop = (p.expr y).loop

/-- Registering a part and the loops in it, when their expressions have been copied. -/
theorem Copied.copyInnerLoops (h : p.Copied inside r) (nodup : inside.Nodup) (table : p.loops.Tidy)
    (part : LoopBinding) (expanded : ∀ x ∈ inside, p.BeginsInner id x →
      ∃ l, p.loops.binding? (p.expr x).loop = some (.expanded l))
    (distinct : inside.Pairwise fun x y => p.BeginsInner id x → p.BeginsInner id y →
      (p.expr x).loop ≠ (p.expr y).loop) :
    ∃ renumber t, Edit.copyInnerLoops id (inside.zipIdx p.exprs.size) [(id, (p.loops.next : Int))]
        { r with loops := (p.loops.bindNext part).2 } = .ok renumber { r with loops := t } ∧
      p.Renumbered id inside part renumber t := by
  generalize hf : copyOf (inside.zipIdx p.exprs.size) = f
  generalize hr₁ : ({ r with loops := (p.loops.bindNext part).2 } : Program) = r₁
  have hexpr : ∀ x ∈ inside, (r₁.expr (f x)).loop = (p.expr x).loop ∧
      (r₁.BeginsInner id (f x) ↔ p.BeginsInner id x) := by
    intro x hx
    obtain ⟨c, hc, _, name, _, hhead⟩ := h.header_copyOf nodup hx
    have hrole : (r₁.expr (f x)).role = (p.expr x).role := by
      rw [← hr₁, ← hf, hc]
      change (r.expr c).role = _
      rw [← Expr.header_role, hhead, Expr.header_role]
    have hloop : (r₁.expr (f x)).loop = (p.expr x).loop := by
      rw [← hr₁, ← hf, hc]
      change (r.expr c).loop = _
      rw [← Expr.header_loop, hhead, Expr.header_loop]
    rw [BeginsInner, BeginsInner, hrole, hloop]
    exact ⟨rfl, Iff.rfl⟩
  have hloops : r₁.loops = (p.loops.bindNext part).2 := by rw [← hr₁]
  have hold : ∀ l : Int, l < p.loops.next → r₁.loops.binding? l = p.loops.binding? l := by
    intro l hl
    rw [hloops, LoopTable.binding?_bindNext table, if_neg (Int.ne_of_lt hl)]
  have hnext : r₁.loops.next = p.loops.next + 1 := by rw [hloops]; rfl
  have hcopies : (inside.zipIdx p.exprs.size).map Prod.snd = inside.map f := by
    rw [← hf, map_copyOf_zipIdx nodup, List.zipIdx_map_snd]
  obtain ⟨renumber, t, hok, hin⟩ := foldlM_copyInnerLoop (hloops ▸ table.bindNext part) id
    f [(id, (p.loops.next : Int))] (inside.map f) (by
      intro c hc hin
      obtain ⟨x, hx, rfl⟩ := List.mem_map.mp hc
      rw [(hexpr x hx).1]
      obtain ⟨l, hl⟩ := expanded x hx ((hexpr x hx).2.mp hin)
      exact ⟨l, by rw [hold _ (table.lt_next hl), hl]⟩) (by
      refine List.pairwise_map.mpr (distinct.imp_of_mem ?_)
      intro x y hx hy hxy hinx hiny
      rw [(hexpr x hx).1, (hexpr y hy).1]
      exact hxy ((hexpr x hx).2.mp hinx) ((hexpr y hy).2.mp hiny))
  have hself : renumber.lookup id = some (p.loops.next : Int) := by
    rw [hin.kept id fun c _ hc => hc.2, List.lookup_cons_self]
  refine ⟨renumber, t, ?_, hin.tidy, ?_, ?_, fun l hl => ?_, hself, ?_, ?_, ?_, ?_⟩
  · rw [Edit.copyInnerLoops, hcopies, hf, hok, ← hr₁]
  · rw [hin.unified, hloops]
    rfl
  · intro l hl
    rw [hin.old l (by omega), hold l hl]
  · rcases hin.ids l hl with hl | ⟨c, hc, hinc, hl⟩
    · rw [hloops, LoopTable.mem_ids_bindNext] at hl
      exact hl.imp_right .inl
    · obtain ⟨x, hx, rfl⟩ := List.mem_map.mp hc
      rw [(hexpr x hx).1] at hl
      exact .inr (.inr ⟨x, hx, (hexpr x hx).2.mp hinc, hl⟩)
  · rw [hin.old _ (by omega), hloops, LoopTable.binding?_bindNext table, if_pos rfl]
  · intro l hl hkept
    have hne : (l == id) = false := beq_eq_false_iff_ne.mpr hl
    rw [hin.kept l, List.lookup_cons, hne]
    · rfl
    · intro c hc hinc
      obtain ⟨x, hx, rfl⟩ := List.mem_map.mp hc
      rw [(hexpr x hx).1]
      exact hkept x hx ((hexpr x hx).2.mp hinc)
  · intro x hx hinx
    obtain ⟨m, hm, ⟨hle, hlt⟩, l, hl, hcopy⟩ :=
      hin.new (f x) (List.mem_map_of_mem hx) ((hexpr x hx).2.mpr hinx)
    rw [(hexpr x hx).1] at hm hl
    obtain ⟨l', hl'⟩ := expanded x hx hinx
    exact ⟨m, hm, ⟨by omega, hlt⟩, l, (hold _ (table.lt_next hl')).symm.trans hl, hf ▸ hcopy⟩
  · intro x hx y hy hinx hiny he
    have := hin.apart (f x) (List.mem_map_of_mem hx) (f y) (List.mem_map_of_mem hy)
      ((hexpr x hx).2.mpr hinx) ((hexpr y hy).2.mpr hiny)
    rw [(hexpr x hx).1, (hexpr y hy).1] at this
    exact this he

/-- What putting a part before a loop makes of a program whose list is `left ++ (inside ++ right)`,
where `inside` are the expressions between the markers of loop `id`, the markers included. -/
structure PartInserted (p : Program) (id : LoopId) (left inside right : List ExprId)
    (part : LoopBinding) (renumber : List (LoopId × LoopId)) (q : Program) : Prop where
  /-- The copies stand before the loop. -/
  order : q.order = left ++ List.range' p.exprs.size inside.length ++ (inside ++ right)
  /-- Only the copies are new. -/
  size : q.exprs.size = p.exprs.size + inside.length
  /-- The copies are renumbered, and nothing else changes behind the copying. -/
  expr : ∀ x : Nat, q.expr x =
    if p.exprs.size ≤ x ∧ x < p.exprs.size + inside.length then
      Edit.renumberLoops renumber ((p.copyAll inside).2.expr x)
    else (p.copyAll inside).2.expr x
  /-- The copies have the headers of what they are copies of. -/
  copied : p.Copied inside (p.copyAll inside).2
  /-- The program stays tidy. -/
  tidy : q.Tidy
  /-- The loops of the copies are registered. -/
  loops : p.Renumbered id inside part renumber q.loops

/-- Copying a range of a tidy program. -/
theorem copyRange_ok (tidy : p.Tidy) (order : p.order = left ++ (inside ++ right)) :
    Edit.copyRange left.length ((left.length + inside.length : Nat) : Int) p =
      .ok (inside.zipIdx p.exprs.size) (p.copyAll inside).2 ∧
    p.Copied inside (p.copyAll inside).2 := by
  have hmem : ∀ x ∈ inside, x ∈ p.order := by
    intro x hx
    simp [order, hx]
  obtain ⟨q, hcopy, hcopied⟩ := copyAll_copied inside
    (fun x hx => tidy.valid x (hmem x hx)) fun x hx => tidy.named x (hmem x hx)
  have hroom := tidy.room
  rw [length, order] at hroom
  simp only [List.length_append] at hroom
  have hinside : (p.order.take (left.length + inside.length)).drop left.length = inside := by
    rw [order, ← List.append_assoc, ← List.length_append, List.take_left, List.drop_left]
  rw [hcopy]
  refine ⟨?_, hcopied⟩
  unfold Edit.copyRange
  refine bind_eq_ok.mpr ⟨p, p, rfl, ?_⟩
  dsimp only
  rw [if_neg (by omega), Int.toNat_natCast, Int.toNat_natCast, hinside]
  refine bind_eq_ok.mpr ⟨_, q, modifyGet_eq_ok.mpr hcopy, ?_⟩
  rw [if_neg (by omega)]
  rfl

/-- A program with the loops of its copies renumbered; the copies are not in it yet. -/
structure CopiesRenumbered (p r : Program) (inside : List ExprId) (t : LoopTable)
    (renumber : List (LoopId × LoopId)) (q : Program) : Prop where
  /-- The program is tidy. -/
  tidy : q.Tidy
  /-- The list stays. -/
  order : q.order = p.order
  /-- The names in use stay. -/
  names : q.names = p.names
  /-- The loops are the given ones. -/
  loops : q.loops = t
  /-- Only the copies are new. -/
  size : q.exprs.size = p.exprs.size + inside.length
  /-- The copies are renumbered, and nothing else changes. -/
  expr : ∀ x : Nat, q.expr x = if p.exprs.size ≤ x ∧ x < p.exprs.size + inside.length then
    Edit.renumberLoops renumber (r.expr x) else r.expr x

/-- Renumbering the loops of copies. -/
theorem Copied.renumber (h : p.Copied inside r) (tidy : p.Tidy) (t : LoopTable)
    (renumber : List (LoopId × LoopId)) :
    p.CopiesRenumbered r inside t renumber ((List.range' p.exprs.size inside.length).foldl
      (fun p c => p.modifyExpr c (Edit.renumberLoops renumber)) { r with loops := t }) := by
  have hmem : ∀ c, c ∈ List.range' p.exprs.size inside.length ↔
      p.exprs.size ≤ c ∧ c < p.exprs.size + inside.length := fun c => List.mem_range'_1
  obtain ⟨hrest, hsize, hexpr⟩ := foldl_modifyExpr (List.nodup_range' (s := p.exprs.size)
    (n := inside.length)) (Edit.renumberLoops renumber) { r with loops := t } fun c hc => by
      rw [hmem] at hc
      exact h.size ▸ hc.2
  generalize (List.range' p.exprs.size inside.length).foldl
    (fun p c => p.modifyExpr c (Edit.renumberLoops renumber)) { r with loops := t } = q at *
  simp only [hmem] at hexpr
  have hexpr : ∀ x : Nat, q.expr x = if p.exprs.size ≤ x ∧ x < p.exprs.size + inside.length then
      Edit.renumberLoops renumber (r.expr x) else r.expr x := hexpr
  have horder : q.order = p.order := by
    rw [hrest]
    dsimp only
    rw [h.rest]
  have hnames : q.names = p.names := by
    rw [hrest]
    dsimp only
    rw [h.rest]
  have hsize' : q.exprs.size = p.exprs.size + inside.length := by rw [hsize, ← h.size]
  refine ⟨⟨fun x hx => ?_, horder ▸ tidy.nodup, fun x hx => ?_, ?_⟩, horder, hnames, by rw [hrest],
    hsize', hexpr⟩
  · have := tidy.valid x (horder ▸ hx)
    omega
  · have hlt := tidy.valid x (horder ▸ hx)
    rw [hexpr, if_neg (by omega), isUsed, find?, hnames, Expr.name_of_header (h.old x hlt)]
    exact tidy.named x (horder ▸ hx)
  · have hslots : q.slots = p.slots := by
      rw [hrest]
      dsimp only
      rw [h.rest]
    rw [length, horder, hslots]
    exact tidy.room

/-- The names of copies stay free and different when their loops are renumbered. -/
theorem CopiesRenumbered.free_names {renumber : List (LoopId × LoopId)}
    (h : p.CopiesRenumbered r inside t renumber q) (copied : p.Copied inside r) :
    (∀ c ∈ List.range' p.exprs.size inside.length, q.isUsed (q.expr c).name = false) ∧
      ((List.range' p.exprs.size inside.length).map fun c => (q.expr c).name).Nodup := by
  have hname : ∀ c : Nat, (q.expr c).name = (r.expr c).name := by
    intro c
    rw [h.expr]
    split <;> rfl
  refine ⟨fun c hc => ?_, ?_⟩
  · obtain ⟨hle, hlt⟩ := List.mem_range'_1.mp hc
    obtain ⟨k, rfl⟩ := Nat.exists_eq_add_of_le hle
    obtain ⟨n, _, _, hfree, hhead⟩ := copied.new k _ (List.getElem?_eq_getElem (by omega))
    rw [hname, isUsed, find?, h.names, ← Expr.header_name, hhead]
    exact hfree
  · simp only [hname]
    exact copied.nodup_names

/-- Renumbering the copies and putting them before the loop. -/
theorem Copied.insert (h : p.Copied inside r) (tidy : p.Tidy) (order : p.order = left ++ (inside ++ right))
    (t : LoopTable) (renumber : List (LoopId × LoopId)) :
    ∃ q, Edit.insertAt left.length (List.range' p.exprs.size inside.length)
        ((List.range' p.exprs.size inside.length).foldl
          (fun p c => p.modifyExpr c (Edit.renumberLoops renumber)) { r with loops := t }) =
          .ok ⟨⟩ q ∧
      q.order = left ++ List.range' p.exprs.size inside.length ++ (inside ++ right) ∧
      q.exprs.size = p.exprs.size + inside.length ∧ q.loops = t ∧ q.Tidy ∧
      ∀ x : Nat, q.expr x = if p.exprs.size ≤ x ∧ x < p.exprs.size + inside.length then
        Edit.renumberLoops renumber (r.expr x) else r.expr x := by
  have hmem : ∀ c, c ∈ List.range' p.exprs.size inside.length ↔
      p.exprs.size ≤ c ∧ c < p.exprs.size + inside.length := fun c => List.mem_range'_1
  have hren := h.renumber tidy t renumber
  generalize (List.range' p.exprs.size inside.length).foldl
    (fun p c => p.modifyExpr c (Edit.renumberLoops renumber)) { r with loops := t } = q₀ at hren
  obtain ⟨hfree, hnodup⟩ := hren.free_names h
  have horder : q₀.order = left ++ (inside ++ right) := by rw [hren.order, order]
  refine ⟨_, insertAt_eq horder hfree hnodup, rfl, hren.size, hren.loops, ?_, hren.expr⟩
  refine hren.tidy.insertAt horder (fun c hc => ?_) List.nodup_range' fun c hc hin => ?_
  · rw [hmem] at hc
    rw [hren.size]
    exact hc.2
  · have := tidy.valid c (hren.order ▸ hin)
    rw [hmem] at hc
    omega

/-- Putting a part before a loop succeeds. The loops in it are parts of split loops, and the handlers
that are asked are passive. -/
theorem insertPart_ok (tidy : p.Tidy) (table : p.loops.Tidy) (whole : UnifiedLoop) {v : Variant}
    (order : p.order = left ++ (inside ++ right)) {stop : Nat}
    (bounds : p.loopBounds id = .ok (left.length, stop)) (hstop : stop + 1 = left.length + inside.length)
    (expanded : ∀ x ∈ inside, p.BeginsInner id x →
      ∃ l, p.loops.binding? (p.expr x).loop = some (.expanded l))
    (distinct : inside.Pairwise fun x y => p.BeginsInner id x → p.BeginsInner id y →
      (p.expr x).loop ≠ (p.expr y).loop)
    (passive : ∀ h ∈ (p.loops.unifiedAt origin).handlers.get v.iteration, h.Passive) :
    ∃ events renumber q,
      Edit.insertPart id origin whole v left.length p = .ok (inside.length, events) q ∧
      p.PartInserted id left inside right
        (.expanded (whole.earlierPart origin v (inside.zipIdx p.exprs.size))) renumber q := by
  obtain ⟨hrange, hcopied⟩ := copyRange_ok tidy order
  have hnodup := tidy.nodup_inside order
  have hloops : (p.copyAll inside).2.loops = p.loops := by rw [hcopied.rest]
  have hcopies : (inside.zipIdx p.exprs.size).map Prod.snd =
      List.range' p.exprs.size inside.length := List.zipIdx_map_snd ..
  obtain ⟨renumber, t, hinner, hren⟩ := hcopied.copyInnerLoops hnodup table
    (.expanded (whole.earlierPart origin v (inside.zipIdx p.exprs.size))) expanded distinct
  obtain ⟨q, hinsert, horder, hsize, hqloops, hqtidy, hexpr⟩ := hcopied.insert tidy order t renumber
  rw [← hqloops] at hren
  have hpassive : ∀ h ∈ (q.loops.unifiedAt origin).handlers.get v.iteration, h.Passive := by
    rw [LoopTable.unifiedAt, hren.unified]
    exact passive
  obtain ⟨events, hevents⟩ := Edit.runHandlers_ok hren.tidy hren.part hpassive
  refine ⟨events, renumber, q, ?_, horder, hsize, hexpr, hcopied, hqtidy, hren⟩
  unfold Edit.insertPart
  refine bind_eq_ok.mpr ⟨_, p, ask_eq_ok.mpr ⟨bounds, rfl⟩, ?_⟩
  dsimp only
  have hend : (stop : Int) + 1 = ((left.length + inside.length : Nat) : Int) := by omega
  rw [hend]
  refine bind_eq_ok.mpr ⟨_, _, hrange, ?_⟩
  refine bind_eq_ok.mpr ⟨_, _, modifyGet_eq_ok.mpr rfl, ?_⟩
  rw [hloops]
  refine bind_eq_ok.mpr ⟨_, _, hinner, ?_⟩
  refine bind_eq_ok.mpr ⟨⟨⟩, _, modify_eq_ok.mpr rfl, ?_⟩
  refine bind_eq_ok.mpr ⟨⟨⟩, q, ?_, ?_⟩
  · rw [hcopies]
    refine Eq.trans (congrArg _ ?_) hinsert
    rw [← hcopies, List.foldl_map]
  · refine bind_eq_ok.mpr ⟨events, q, hevents, ?_⟩
    rw [List.length_zipIdx]
    rfl

end Program

end TensorKernel
