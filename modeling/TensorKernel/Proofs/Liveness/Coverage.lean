import TensorKernel.Proofs.Liveness.Ranges

/-!
# Live ranges cover their values

The last use of a value comes from its producer or from one of its uses, loops included. So the live
range of a register covers every position at which one of its values is produced or consumed.
-/

namespace TensorKernel.Program

variable {b : Int} {u : UseRef} {v : ValueRef}

/-- A running maximum stays below a bound exactly when all that went into it does. -/
theorem foldl_max_le {α : Type} {f : α → Int} {l : List α} {a : Int} :
    l.foldl (fun m x => max m (f x)) a ≤ b ↔ a ≤ b ∧ ∀ x ∈ l, f x ≤ b := by
  induction l generalizing a with
  | nil => simp
  | cons x l ih =>
    rw [List.foldl_cons, ih]
    simp only [List.forall_mem_cons]
    constructor
    · rintro ⟨hm, hl⟩
      exact ⟨by omega, by omega, hl⟩
    · rintro ⟨ha, hx, hl⟩
      exact ⟨by omega, hl⟩

variable {p : Program}

/-- A value is needed beyond a position exactly when it is produced there or a use needs it there. -/
theorem lastUse_le :
    p.lastUse v ≤ b ↔ (p.expr v.producer).exec ≤ b ∧ ∀ u ∈ p.uses v, p.useEnd (p.expr v.producer) u ≤ b :=
  foldl_max_le

theorem exec_le_lastUse (v : ValueRef) : (p.expr v.producer).exec ≤ p.lastUse v :=
  (lastUse_le.mp (Int.le_refl _)).1

theorem useEnd_le_lastUse (hu : u ∈ p.uses v) : p.useEnd (p.expr v.producer) u ≤ p.lastUse v :=
  (lastUse_le.mp (Int.le_refl _)).2 u hu

theorem exec_le_useEnd (producer : Expr) (u : UseRef) :
    (p.expr u.consumer).exec ≤ p.useEnd producer u := by
  dsimp only [useEnd]
  cases p.loopCarriedEnd? producer (p.expr u.consumer) with
  | none => exact Int.le_refl _
  | some stop => exact Int.le_max_left ..

/-- A group lives at least as long as each of its members is needed. -/
theorem lastUse_le_groupRange {m : ValueRef} (hm : m ∈ p.aliasGroup v) :
    p.lastUse m ≤ (p.groupRange v).stop :=
  (foldl_max_le.mp (Int.le_refl (p.groupRange v).stop)).2 m hm

/-- The range of a value without aliases goes from its producer to its last use. -/
theorem groupRange_eq_of_aliasGroup (h : p.aliasGroup v = [v]) :
    p.groupRange v = ⟨(p.expr v.producer).exec, p.lastUse v⟩ := by
  have := p.exec_le_lastUse v
  simp only [groupRange, h, List.foldl_cons, List.foldl_nil]
  congr 1
  omega

theorem uses_of_owns (hc : p.Closed) (hv : p.Owns v) (hu : u ∈ p.uses v) : u.consumer ∈ p.order := by
  obtain ⟨o, ho⟩ := hasValue_iff.mp hv.2
  rw [uses, ho] at hu
  exact hc.consumers _ hv.1 o (List.mem_of_getElem? ho) u hu

/-- The range of an origin covers the production and all uses of its values. -/
theorem Origin.contains (he : p.Enumerated) (hl : p.Linked) (hf : p.Forward) (hc : p.Closed)
    (hs : p.SilentEmpty) {vs : List ValueRef} {range : Interval} (h : p.Origin vs range) (hm : v ∈ vs)
    (hv : p.Owns v) :
    range.contains (p.expr v.producer).exec = true ∧
      ∀ u ∈ p.uses v, range.contains (p.expr u.consumer).exec = true := by
  simp only [Interval.contains, Bool.and_eq_true, decide_eq_true_eq]
  cases h with
  | pointer =>
    exact ⟨he.exec_mem hv.1, fun u hu => he.exec_mem (uses_of_owns hc hv hu)⟩
  | group ho hfirst =>
    have hstart := hfirst v hm hv (hv.not_isSilent hs)
    have hstop := lastUse_le_groupRange hm
    have hlast := p.exec_le_lastUse v
    refine ⟨⟨hstart, by omega⟩, fun u hu => ?_⟩
    have hlt := hf.lt hl hu (uses_of_owns hc hv hu)
    have hend := useEnd_le_lastUse hu
    have huse := p.exec_le_useEnd (p.expr v.producer) u
    exact ⟨Int.le_trans hstart (Int.le_of_lt hlt), by omega⟩

end TensorKernel.Program
