import TensorKernel.Proofs.Liveness.Coverage
import TensorKernel.Proofs.Loop.Nest

/-!
# Values that loops carry

A value that was made before a loop and is needed behind the begin of the loop is needed up to the
end of the loop: it is used in the loop and survives all iterations, or it is used behind the loop, or
a larger loop keeps it.
-/

namespace TensorKernel.Program

variable {p : Program} {n : Nest}

namespace WellNested

/-- The end of a loop is the end of its span. -/
theorem loopEnd?_eq (h : p.WellNested n) {s : Span} (hs : s ∈ n.spans p 0) :
    p.loopEnd? s.loop = some s.last := by
  obtain ⟨_, ⟨stop, hstop, hr, hl⟩, hunique⟩ := h.markers hs
  unfold loopEnd?
  rw [getLast?_filter_zipIdx hstop]
  all_goals simp only [Bool.decide_and, Bool.and_eq_true, decide_eq_true_eq]
  · exact ⟨hr, hl⟩
  · rintro j e hj ⟨hr, hl⟩
    exact (hunique j e hj hl).2 hr

end WellNested

/-- What keeps a value to the end of a loop is the outermost loop that the use is in and the producer
is not. -/
theorem WellNested.loopCarriedEnd?_eq (h : p.WellNested n) {c : Nat} {consumer : ExprId}
    (hc : p.order[c]? = some consumer) (producer : Expr) :
    p.loopCarriedEnd? producer (p.expr consumer) =
      (((n.spans p 0).filter (·.encloses c)).find? fun s => !producer.loops.contains s.loop).map
        (·.last) := by
  rw [loopCarriedEnd?, h.loops_eq hc, List.find?_map, Function.comp_def]
  cases hf : ((n.spans p 0).filter (·.encloses c)).find? fun s =>
      !producer.loops.contains s.loop with
  | none => rfl
  | some s => exact h.loopEnd?_eq (List.mem_filter.mp (List.mem_of_find?_eq_some hf)).1

/-- A value that was made before a loop and is needed behind its begin is needed up to its end. -/
theorem last_le_useEnd (h : p.WellNested n) (he : p.Enumerated) {s : Span} (hs : s ∈ n.spans p 0)
    {producer : ExprId} {u : UseRef} (hv : producer ∈ p.order) (hc : u.consumer ∈ p.order)
    (hbefore : (p.expr producer).exec ≤ s.first)
    (hneeded : (s.first : Int) < p.useEnd (p.expr producer) u) :
    (s.last : Int) ≤ p.useEnd (p.expr producer) u := by
  obtain ⟨q, hq⟩ := List.mem_iff_getElem?.mp hv
  obtain ⟨c, hc⟩ := List.mem_iff_getElem?.mp hc
  have hqexec := he q producer hq
  have hcexec := he c u.consumer hc
  have hexec := p.exec_le_useEnd (p.expr producer) u
  rcases Nat.lt_or_ge c s.last with hlt | hge
  · have hcarried := h.loopCarriedEnd?_eq hc (p.expr producer)
    simp only [useEnd, hcarried] at hneeded ⊢
    rcases Nat.lt_or_ge s.first c with hin | hout
    · -- The use is in the loop: the outermost loop without the producer contains this one.
      have hmem : s ∈ (n.spans p 0).filter (·.encloses c) :=
        List.mem_filter.mpr ⟨hs, Span.encloses_iff.mpr ⟨hin, hlt⟩⟩
      have houtside : (!(p.expr producer).loops.contains s.loop) = true := by
        rw [h.loops_eq hq, Bool.not_eq_true', List.contains_eq_mem, decide_eq_false_iff_not,
          List.mem_map]
        rintro ⟨t, ht, hts⟩
        obtain ⟨ht, hencloses⟩ := List.mem_filter.mp ht
        rw [h.span_unique ht hs hts, Span.encloses_iff] at hencloses
        omega
      cases hfind : ((n.spans p 0).filter (·.encloses c)).find?
          fun s => !(p.expr producer).loops.contains s.loop with
      | none => exact absurd houtside (List.find?_eq_none.mp hfind s hmem)
      | some t =>
        obtain ⟨_, before, behind, hl, hbefore⟩ := List.find?_eq_some_iff_append.mp hfind
        have hp : (before ++ t :: behind).Pairwise Span.Precedes := hl ▸ (n.pairwise_spans p 0).filter _
        have ht := (List.mem_filter.mp (List.mem_of_find?_eq_some hfind)).2
        rw [Span.encloses_iff] at ht
        have hle : s.last ≤ t.last := by
          rw [hl, List.mem_append, List.mem_cons] at hmem
          rcases hmem with hmem | rfl | hmem
          · exact absurd houtside (by simpa using hbefore s hmem)
          · exact Nat.le_refl _
          · have hts := (List.pairwise_cons.mp (List.pairwise_append.mp hp).2.1).1 s hmem
            unfold Span.Precedes at hts
            omega
        simp only [Option.map_some]
        omega
    · -- The use is before the loop: a loop around it reaches over this one.
      cases hfind : ((n.spans p 0).filter (·.encloses c)).find?
          fun s => !(p.expr producer).loops.contains s.loop with
      | none =>
        simp only [hfind, Option.map_none] at hneeded
        omega
      | some t =>
        simp only [hfind, Option.map_some] at hneeded ⊢
        obtain ⟨ht, hencloses⟩ := List.mem_filter.mp (List.mem_of_find?_eq_some hfind)
        rw [Span.encloses_iff] at hencloses
        have hprecedes : s.Precedes t ∨ t.Precedes s := by
          refine Nest.precedes_or hs ht fun hst => ?_
          rw [hst] at hout
          omega
        unfold Span.Precedes at hprecedes
        have hst := Nest.span_mem hs
        omega
  · omega

end TensorKernel.Program
