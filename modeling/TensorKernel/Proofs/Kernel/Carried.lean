import TensorKernel.Proofs.Kernel.Nested

/-!
# Live ranges of kernels reach over loops

A value that is made before a loop and used behind the begin of the loop is live at the end of the loop,
since the body may run again. In kernels whose markers are well nested this is so for the recorded live
ranges, also when brackets have moved them.
-/

namespace TensorKernel

open Program

/-- The live range of a value that is made before a loop and used behind its begin contains the end of
the loop. -/
theorem Workspace.Ranged.contains_last {p : Program} {w : Workspace} {n : Nest} (hr : w.Ranged p)
    (he : p.Enumerated) (hn : p.WellNested n) {s : Span} (hs : s ∈ n.spans p 0) {v : ValueRef}
    (hv : p.Owns v) (hd : (w.program.abstractReg v).isDefined = true)
    (hns : ¬ p.IsSilent v.producer) {u : UseRef} (hu : u ∈ p.uses v) (hc : u.consumer ∈ p.order)
    (hbefore : (p.expr v.producer).exec < s.first) (hbehind : s.first < (p.expr u.consumer).exec) :
    ∃ range, w.live.ranges.get? (w.program.abstractReg v) = some range ∧
      range.contains s.last = true := by
  obtain ⟨vs, range, horigin, hrange, hholders⟩ := hr.origin v (.inl hv.1) hd
  refine ⟨range, hrange, ?_⟩
  have hspan := Nest.span_mem hs
  have hlength : n.flatten.length = p.length := congrArg List.length hn.flatten
  simp only [Interval.contains, Bool.and_eq_true, decide_eq_true_eq]
  cases horigin with
  | pointer =>
    dsimp only
    omega
  | @group first _ hfirst =>
    have hmem := hholders v (.inl hv.1) rfl
    have hstart : (p.groupRange first).start ≤ (p.expr v.producer).exec := hfirst v hmem hv hns
    have huse := p.exec_le_useEnd (p.expr v.producer) u
    have hlast := last_le_useEnd hn he hs hv.1 hc (Int.le_of_lt hbefore) (Int.lt_of_lt_of_le hbehind huse)
    have hstop := Int.le_trans (useEnd_le_lastUse hu) (lastUse_le_groupRange hmem)
    omega

/-- **Values that loops carry.** In the kernel of a subgraph without markers of its own, whose loops are
entered at their first operations and left at their last ones, the live range of a value that is made
before a loop and used behind the begin of the loop contains the end of the loop. -/
theorem Subgraph.contains_loopEnd_of_carried {sg : Subgraph} {p q : Program} {m : Machine}
    {options : CompileOptions} {kernel : Kernel} (built : sg.build = .ok p)
    (kinds : ∀ op ∈ sg.ops, op.kind ≠ "LoopBegin" ∧ op.kind ≠ "LoopEnd")
    (snug : ∀ loop ∈ sg.loops, loop.isSnug = true)
    (compiled : Kernel.compile m options p = .ok kernel q) {begin stop : ExprId}
    (hbegin : begin ∈ kernel.program.order) (hbegins : (kernel.program.expr begin).role = .loopBegin)
    (hstop : stop ∈ kernel.program.order) (hstops : (kernel.program.expr stop).role = .loopEnd)
    (hloop : (kernel.program.expr stop).loop = (kernel.program.expr begin).loop) {v : ValueRef}
    (hv : kernel.program.Owns v) (hns : ¬ kernel.program.IsSilent v.producer) {u : UseRef}
    (hu : u ∈ kernel.program.uses v)
    (hbefore : (kernel.program.expr v.producer).exec < (kernel.program.expr begin).exec)
    (hbehind : (kernel.program.expr begin).exec < (kernel.program.expr u.consumer).exec) :
    ∃ range, kernel.live.ranges.get? (kernel.program.abstractReg v) = some range ∧
      range.contains (kernel.program.expr stop).exec = true := by
  obtain ⟨x, y, w, stages⟩ := Kernel.compile_eq_ok compiled
  obtain ⟨_, _, _, n, _, _, _, hn⟩ := exists_nest built kinds snug stages.lowered
  have hf := stages.finished (settled_of_lowerLoops built stages.lowered)
  have hnested := hn.enumerate.nested
  have hv₀ := hf.owns hv
  rw [hf.uses] at hu
  have hc : u.consumer ∈ x.program.enumerate.order := uses_of_owns hf.settled.closed hv₀ hu
  -- The markers were there before the brackets, at the ends of a span.
  have hbegin₀ := hf.of_role hbegin hbegins (by decide)
  have hstop₀ := hf.of_role hstop hstops (by decide)
  rw [hf.role hbegin₀] at hbegins
  rw [hf.role hstop₀] at hstops
  rw [hf.loop hbegin₀, hf.loop hstop₀] at hloop
  obtain ⟨i, hi⟩ := List.mem_iff_getElem?.mp hbegin₀
  obtain ⟨j, hj⟩ := List.mem_iff_getElem?.mp hstop₀
  obtain ⟨s, hs, hsloop, hplace⟩ := hnested.fits.exists_span (hnested.flatten.symm ▸ hi)
    (Nat.zero_add i).symm (by rw [hbegins]; rfl)
  have hfirst : s.first = i := by
    rcases hplace with ⟨_, hfirst⟩ | ⟨hend, _⟩
    · exact hfirst
    · rw [hbegins] at hend
      cases hend
  have hlast : j = s.last :=
    ((hnested.delimits hs).ends j).mp ⟨stop, hj, hstops, hloop.trans hsloop.symm⟩
  rw [hf.exec_lt_iff hv₀.1 hbegin₀, hf.enumerated i begin hi, ← hfirst] at hbefore
  rw [hf.exec_lt_iff hbegin₀ hc, hf.enumerated i begin hi, ← hfirst] at hbehind
  have hns₀ : ¬ x.program.enumerate.IsSilent v.producer := by
    rwa [IsSilent, ← hf.role hv₀.1]
  obtain ⟨range, hrange, hcontains⟩ := hf.ranged.contains_last hf.enumerated hnested hs hv₀
    (hf.defined v hv₀ hns₀) hns₀ hu hc hbefore hbehind
  obtain ⟨range', hrange', hsame⟩ := hf.contains_range hrange
  refine ⟨range', hf.abstractReg v ▸ hrange', ?_⟩
  rw [hsame stop hstop₀, hf.enumerated j stop hj, hlast]
  exact hcontains

/-- The constant that is added in every round of the loop with the call is live at the end of the
loop. -/
theorem Subgraph.contains_loopEnd_of_carried_calledCopy : ∃ p kernel q range,
    calledCopy.build = .ok p ∧
      Kernel.compile (.x64 .avx2) { noIterations := true } p = .ok kernel q ∧
      kernel.live.ranges.get? (kernel.program.abstractReg ⟨1, 0⟩) = some range ∧
      range.contains (kernel.program.expr 8).exec = true := by
  have hsome : ((Kernel.ofSubgraph? (.x64 .avx2) { noIterations := true } calledCopy).any fun kernel =>
      7 ∈ kernel.program.order ∧ (kernel.program.expr 7).role = .loopBegin ∧
        8 ∈ kernel.program.order ∧ (kernel.program.expr 8).role = .loopEnd ∧
        (kernel.program.expr 8).loop = (kernel.program.expr 7).loop ∧ kernel.program.Owns ⟨1, 0⟩ ∧
        ¬ kernel.program.IsSilent 1 ∧ ⟨3, 1⟩ ∈ kernel.program.uses ⟨1, 0⟩ ∧
        (kernel.program.expr 1).exec < (kernel.program.expr 7).exec ∧
        (kernel.program.expr 7).exec < (kernel.program.expr 3).exec) = true := by
    decide +kernel
  obtain ⟨p, kernel, q, hbuild, hcompile, hbegin, hbegins, hstop, hstops, hloop, hv, hns, hu, hbefore,
    hbehind⟩ := Kernel.exists_of_any hsome
  obtain ⟨range, hrange, hcontains⟩ := contains_loopEnd_of_carried hbuild (by decide +kernel)
    (by decide +kernel) hcompile hbegin hbegins hstop hstops hloop hv hns hu hbefore hbehind
  exact ⟨p, kernel, q, range, hbuild, hcompile, hrange, hcontains⟩

end TensorKernel
