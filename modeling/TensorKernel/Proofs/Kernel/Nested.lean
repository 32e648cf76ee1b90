import TensorKernel.Proofs.Kernel.Finished
import TensorKernel.Proofs.Loop.Brackets
import TensorKernel.Proofs.Spill.Sufficient

/-!
# Well nested kernels

A subgraph may have loops that are entered at their first operations and left at their last ones, and no
markers of its own. Then its markers are well nested, and splitting, numbering and bracketing keep them
so. In the kernel every registered loop has one pair of markers, and the pairs are nested or apart.
-/

namespace TensorKernel

variable {p : Program} {sg : Subgraph} {w : Workspace}

namespace Program

variable {q : Program} {n : Nest}

namespace FullyNested

/-- Numbering keeps the nest. -/
theorem enumerate (h : p.FullyNested n) : p.enumerate.FullyNested n := by
  have hr := p.repositioned_enumerate
  have hexpr : ∀ x, (p.enumerate.expr x).role = (p.expr x).role ∧
      (p.enumerate.expr x).loops = (p.expr x).loops ∧ (p.enumerate.expr x).loop = (p.expr x).loop := by
    intro x
    obtain ⟨position, hx⟩ := hr.expr x
    rw [hx]
    exact ⟨rfl, rfl, rfl⟩
  have hloops : p.enumerate.loops = p.loops := by rw [hr.rest]
  refine ⟨h.nested.congr hr.order fun x _ => hexpr x, fun id hid => ?_⟩
  obtain ⟨x, hx, hloop⟩ := h.marked id (hloops ▸ hid)
  exact ⟨x, hx, (hexpr x).2.2.trans hloop⟩

end FullyNested

/-- A marked program has no loop that is split. -/
theorem Marked.unsplit (h : p.Marked q n) : q.Unsplit n where
  tidy := h.pristine.tidy
  table := h.pristine.table
  nested := h.nested
  marked id hid := by
    rw [← h.marked.mem_iff, Nest.map_loop_spans] at hid
    exact List.mem_map.mp hid
  whole x hx := by
    have hid : (q.expr x).loop ∈ q.loops.ids := by
      rw [← h.marked.mem_iff, Nest.map_loop_spans]
      exact List.mem_map_of_mem hx
    obtain ⟨b, hb⟩ := LoopTable.mem_ids_iff.mp hid
    obtain ⟨place, rfl, hsplittable⟩ := h.pristine.whole _ b hb
    exact ⟨place, hb, hsplittable⟩

end Program

open Program

/-- The markers of a subgraph form a nest, if none of its operations is a marker and every loop is entered
at its first operation and left at its last one. -/
theorem Subgraph.marked_of_insertAllMarkers {r s : Program} (built : sg.build = .ok p)
    (kinds : ∀ op ∈ sg.ops, op.kind ≠ "LoopBegin" ∧ op.kind ≠ "LoopEnd")
    (snug : ∀ loop ∈ sg.loops, loop.isSnug = true) (hinit : Edit.initLoops p = .ok () r)
    (hmark : Edit.insertAllMarkers r = .ok () s) : ∃ n, r.Marked s n := by
  obtain ⟨ls, described, hunmarked⟩ := build_described built
  have hpointers := repointed_initLoops hinit
  have hlisted := hpointers.listed described.listed
  have unmarked : r.Unmarked := fun x => by
    rw [hpointers.1]
    exact hunmarked kinds x
  obtain ⟨done, cs, s', hrun, hdone, hmarking⟩ :=
    Marking.run hlisted unmarked (hpointers.snug described.listed (described.snug snug))
  obtain rfl : s = s' := by
    rw [hmark] at hrun
    cases hrun
    rfl
  exact ⟨_, hmarking.finish hlisted unmarked hdone⟩

/-- The loops of a subgraph are lowered to a nest, if none of its operations is a marker and every loop
is entered at its first operation and left at its last one: pointers are set up, markers are inserted,
and loops are split step by step. -/
theorem Subgraph.exists_nest (built : sg.build = .ok p)
    (kinds : ∀ op ∈ sg.ops, op.kind ≠ "LoopBegin" ∧ op.kind ≠ "LoopEnd")
    (snug : ∀ loop ∈ sg.loops, loop.isSnug = true) {options : CompileOptions} {events : List HandlerEvent}
    (lowered : Kernel.lowerLoops options { program := p } = .ok events w) :
    ∃ r s m n, p.Repointed r ∧ r.Marked s m ∧ Relation.ReflTransGen SplitStep s w.program ∧
      w.program.FullyNested n := by
  obtain ⟨r, s, hinit, hmark, hsplit, _⟩ := Kernel.lowerLoops_eq_ok lowered
  have hpointers := repointed_initLoops hinit
  obtain ⟨n, hmarked⟩ := marked_of_insertAllMarkers built kinds snug hinit hmark
  split at hsplit
  · rw [hsplit]
    exact ⟨r, s, _, _, hpointers, hmarked, .refl, hmarked.nested, hmarked.unsplit.marked⟩
  · obtain ⟨events', q, m, hq, hs, hsteps, _⟩ := hmarked.unsplit.splitLoops_ok
    rw [hsplit] at hq
    cases hq
    exact ⟨r, s, _, m, hpointers, hmarked, hsteps, hs.nested, hs.marked⟩

/-- Registers and brackets keep the nest. -/
theorem Kernel.Finished.fullyNested {m : Machine} {v : Workspace} {kernel : Kernel} {n : Nest}
    (h : Finished m p v w kernel) (hn : p.FullyNested n) :
    kernel.program.FullyNested (n.bracketed kernel.spills) := by
  refine ⟨h.bracketed.wellNested (fun _ => h.enumerated_bare.lt_size) (hn.nested.of_bare h.bare),
    fun id hid => ?_⟩
  obtain ⟨x, hx, hloop⟩ := hn.marked id (h.loops ▸ hid)
  have hmem : x ∈ p.order := hn.nested.flatten ▸ Nest.begins_subset_flatten hx
  rw [Nest.begins_bracketed]
  exact ⟨x, hx, (h.loop hmem).trans hloop⟩

/-- **Compiled loops are well bracketed**, if no operation of the subgraph is a marker and every loop is
entered at its first operation and left at its last one. -/
theorem Subgraph.wellBracketed_of_compile {sg : Subgraph} {p q : Program} {m : Machine}
    {options : CompileOptions} {kernel : Kernel} (built : sg.build = .ok p)
    (kinds : ∀ op ∈ sg.ops, op.kind ≠ "LoopBegin" ∧ op.kind ≠ "LoopEnd")
    (snug : ∀ loop ∈ sg.loops, loop.isSnug = true)
    (compiled : Kernel.compile m options p = .ok kernel q) : kernel.program.WellBracketed := by
  obtain ⟨u, v, w, stages⟩ := Kernel.compile_eq_ok compiled
  obtain ⟨_, _, _, n, _, _, _, hn⟩ := exists_nest built kinds snug stages.lowered
  have hf := stages.finished (settled_of_lowerLoops built stages.lowered)
  exact (hf.fullyNested hn.enumerate).wellBracketed

/-- The kernel of the grid copy has six loops. -/
theorem Subgraph.wellBracketed_of_compile_gridCopy : ∃ p kernel q, gridCopy.build = .ok p ∧
    Kernel.compile (.x64 .avx2) {} p = .ok kernel q ∧ kernel.program.loops.ids.length = 6 ∧
      kernel.program.WellBracketed := by
  have hsome : ((Kernel.ofSubgraph? (.x64 .avx2) {} gridCopy).any fun kernel =>
      kernel.program.loops.ids.length = 6) = true := by
    decide +kernel
  obtain ⟨p, kernel, q, hbuild, hcompile, hids⟩ := Kernel.exists_of_any hsome
  exact ⟨p, kernel, q, hbuild, hcompile, hids,
    wellBracketed_of_compile hbuild (by decide +kernel) (by decide +kernel) hcompile⟩

end TensorKernel
