import TensorKernel.Proofs.Allocation.Check
import TensorKernel.Proofs.Kernel.Inherited
import TensorKernel.Proofs.Register.MapFile

/-!
# The register map of a kernel

The register map of a kernel holds what is written at the ports of the program. So whoever reads it from
a file and applies it to the program, once or many times, changes nothing.
-/

namespace TensorKernel

open Outcome Program

variable {id : ExprId} {k : Nat} {p : Program} {side : Side}

namespace Program

/-- A change that leaves its expression alone leaves the program alone. -/
theorem modifyExpr_eq_self {f : Expr → Expr} (h : f (p.expr id) = p.expr id) : p.modifyExpr id f = p := by
  have hexprs : p.exprs.modify id f = p.exprs := by
    refine Array.ext (by simp) fun i hi hi' => ?_
    rw [Array.getElem_modify]
    split
    · rename_i he
      subst he
      simpa [expr, Array.getD_eq_getD_getElem?, hi'] using h
    · rfl
  rw [modifyExpr, hexprs]

/-- A change that leaves its port alone leaves the program alone. -/
theorem modifyPort_eq_self {f : Port → Port} (h : ∀ port, p.portAt side id k = some port → f port = port) :
    p.modifyPort ⟨id, side, k⟩ f = p := by
  have hlist : ∀ {α : Type} (l : List α) (g : α → α), (∀ a, l[k]? = some a → g a = a) →
      l.modify k g = l := by
    intro α l g hg
    refine List.ext_getElem? fun j => ?_
    rw [List.getElem?_modify]
    by_cases hj : k = j
    · subst hj
      cases ha : l[k]? with
      | none => rfl
      | some a => simp [hg a ha]
    · simp [hj]
  refine modifyExpr_eq_self ?_
  cases side with
  | input =>
    show (p.expr id).mapInputPort k f = p.expr id
    rw [Expr.mapInputPort, hlist _ _ fun i hi => ?_]
    rw [h i.port (by rw [portAt, hi, Option.map_some])]
  | output =>
    show (p.expr id).mapOutputPort k f = p.expr id
    rw [Expr.mapOutputPort, Expr.mapOutput, hlist _ _ fun o ho => ?_]
    rw [h o.port (by rw [portAt, ho, Option.map_some])]

end Program

namespace RegMap

/-- The ports of a program hold what the map has for their abstract registers. -/
def Written (m : RegMap) (p : Program) : Prop :=
  ∀ id ∈ p.order, ∀ side k port, p.portAt side id k = some port → port.abstract.isDefined = true →
    m.get? port.abstract = some port.reg

variable {m : RegMap}

/-- Applying a map to a port that holds its register. -/
theorem Written.applyPort_eq (h : m.Written p) (hid : id ∈ p.order) {port : Port}
    (hport : p.portAt side id k = some port) : m.applyPort id side k port.abstract p = .ok () p := by
  unfold applyPort
  split
  · rename_i hdefined
    rw [h id hid side k port hport hdefined]
    refine congrArg (EStateM.Result.ok ()) (modifyPort_eq_self fun port' hport' => ?_)
    rw [hport] at hport'
    cases hport'
    rfl
  · rfl

/-- Applying a map to a program that holds its registers. -/
theorem Written.apply_eq (h : m.Written p) : m.apply p = .ok () p := by
  refine bind_eq_ok.mpr ⟨p, p, rfl, forM_eq_self fun id hid => ?_⟩
  refine bind_eq_ok.mpr ⟨p, p, rfl, ?_⟩
  refine bind_eq_ok.mpr ⟨⟨⟩, p, forM_eq_self ?_, forM_eq_self ?_⟩
  · rintro ⟨i, k⟩ hi
    refine h.applyPort_eq hid ?_
    rw [portAt, List.mem_zipIdx_iff_getElem?.mp hi, Option.map_some]
  · rintro ⟨o, k⟩ ho
    refine h.applyPort_eq hid ?_
    rw [portAt, List.mem_zipIdx_iff_getElem?.mp ho, Option.map_some]

end RegMap

namespace Kernel

variable {machine : Machine} {options : CompileOptions} {u v w : Workspace} {kernel : Kernel}

/-- The ports of a kernel hold what its register map has for their abstract registers. -/
theorem Stages.written (h : Stages machine options p u v w kernel) :
    kernel.allocation.regMap.Written kernel.program := by
  obtain ⟨he, s, x, rfl, _, hreached⟩ := Workspace.reached_of_computeRanges h.ranged
  obtain ⟨_, happlied, _⟩ := Workspace.assign_ok h.assigned
  have hbare : w.program.bare = u.program.enumerate.bare :=
    happlied.bare.trans (hreached.bare rfl)
  have hw := he.of_bare hbare
  have hspilled := (h.bracketed hw).1
  intro id hid side k port hport hdefined
  obtain ⟨horder, hport⟩ := hspilled.of_portAt hid hport
  rw [order_congr happlied.bare] at horder
  exact happlied.get?_eq horder hport hdefined

/-- The register map of a kernel can be written and read. -/
theorem Stages.legible (h : Stages machine options p u v w kernel) (natural : p.Natural)
    (fits : ∀ r phys, kernel.allocation.regMap.get? r = some phys →
      r.index ≤ Text.maxInt64 ∧ phys.index ≤ Text.maxInt64) : kernel.allocation.regMap.Legible := by
  obtain ⟨hchosen, happlied, _⟩ := Workspace.assign_ok h.assigned
  have hbuffers := Workspace.buffersInRange_of_violations_eq_nil hchosen happlied h.clean
  have hnatural := h.natural natural
  intro r phys hr
  obtain ⟨hr', hphys'⟩ := fits r phys hr
  have hpool := hchosen.in_pool hbuffers hr
  have hbanks : 0 ≤ r.index ∧ r.bank = phys.bank ∧ (phys.bank = .gpr ∨ phys.bank = .vec) := by
    rw [Allocation.get?_regMap, Option.or_eq_some_iff] at hr
    rcases hr with hr | ⟨_, hr⟩
    · have hrange := ((hchosen.auto r).mp (Option.isSome_of_eq_some hr)).1
      have hbank := (Allocation.mem_freePool.mp (hchosen.free r phys hr)).1
      exact ⟨hnatural.ranges r hrange, hbank.symm, hbank ▸ hchosen.banks r hrange⟩
    · obtain ⟨_, x, rfl⟩ := exists_of_contains_pins hchosen.pins (Option.isSome_of_eq_some hr)
      obtain ⟨hbank, htarget⟩ := regular_pins hchosen.pins hr
      exact ⟨hnatural.values x, hbank, htarget.bank⟩
  obtain ⟨hindex, hbank, hphys⟩ := hbanks
  have hword : phys.bank = .gpr ∨ phys.bank = .vec ∨ phys.bank = .mask := hphys.imp_right .inl
  exact ⟨⟨hbank ▸ hword, hindex, hr'⟩, ⟨hword, hpool.1, hphys'⟩, hbank⟩

/-- The program that is left behind is that of the kernel. -/
theorem program_eq_of_compile {q : Program} (h : compile machine options p = .ok kernel q) :
    kernel.program = q := by
  unfold compile at h
  split at h
  · rename_i hpasses
    cases h
    obtain ⟨_, _, _, _, _, _, _, _, rfl⟩ := passes_eq_ok.mp hpasses
    rfl
  · cases h

end Kernel

/-- The values of a subgraph come without registers. -/
theorem Subgraph.natural_of_build {sg : Subgraph} (built : sg.build = .ok p) : p.Natural := by
  obtain ⟨_, described, _⟩ := build_described built
  intro v
  by_cases hv : p.HasValue v
  · have hmem : v.producer ∈ p.order := by
      rw [described.listed.order]
      exact List.mem_range.mpr hv.lt_size
    rw [described.listed.pristine.wired.fresh.abstractReg hmem]
    exact Int.le_refl 0
  · rw [abstractReg_of_not_hasValue hv]
    exact Int.le_refl 0

namespace Kernel

/-- **The register map of a kernel reproduces it.** A legible register map is read as it was written. The
register map of a kernel is, unless a value of the program came with a register of negative index or an
index does not fit 64 bits. Applying what was read to the program of the kernel, however often, changes
nothing. -/
theorem regMap_reproduces :
    (∀ (m : RegMap) (d : Yaml.Document), m.Legible → d.root = m.toNode → RegMap.ofDocument d = .ok m) ∧
      ∀ (machine : Machine) (options : CompileOptions) (p q : Program) (kernel : Kernel)
        (d : Yaml.Document), compile machine options p = .ok kernel q → p.Natural →
        (∀ r phys, kernel.allocation.regMap.get? r = some phys →
          r.index ≤ Text.maxInt64 ∧ phys.index ≤ Text.maxInt64) →
        d.root = kernel.allocation.regMap.toNode →
        ∃ m, RegMap.ofDocument d = .ok m ∧ m = kernel.allocation.regMap ∧
          ∀ n, (List.replicate n m).forM RegMap.apply q = .ok () q := by
  refine ⟨fun m d legible root => legible.ofDocument_eq root, ?_⟩
  intro machine options p q kernel d compiled natural fits root
  obtain ⟨u, v, w, stages⟩ := compile_eq_ok compiled
  refine ⟨_, (stages.legible natural fits).ofDocument_eq root, rfl, fun n => ?_⟩
  refine forM_eq_self fun m hm => ?_
  rw [List.eq_of_mem_replicate hm, ← program_eq_of_compile compiled]
  exact stages.written.apply_eq

/-- The map of the tiled copy, read and applied three times. -/
theorem regMap_reproduces_tiledCopy : ∃ p q kernel,
    tiledCopy.build = .ok p ∧ compile (.x64 .avx2) {} p = .ok kernel q ∧
      RegMap.ofDocument { root := kernel.allocation.regMap.toNode } = .ok kernel.allocation.regMap ∧
      (List.replicate 3 kernel.allocation.regMap).forM RegMap.apply q = .ok () q := by
  have hsome : ((ofSubgraph? (.x64 .avx2) {} tiledCopy).any fun kernel =>
      kernel.allocation.regMap.entries.all fun e =>
        e.1.index ≤ Text.maxInt64 ∧ e.2.index ≤ Text.maxInt64) = true := by
    decide +kernel
  obtain ⟨kernel, hk, hfits⟩ := (Option.any_eq_true _ _).mp hsome
  obtain ⟨p, q, hbuild, hcompile⟩ := ofSubgraph?_eq_some hk
  have hfits : ∀ r phys, kernel.allocation.regMap.get? r = some phys →
      r.index ≤ Text.maxInt64 ∧ phys.index ≤ Text.maxInt64 := fun r phys hr => by
    simpa using List.all_eq_true.mp hfits _ (RegTable.mem_entries_iff.mpr hr)
  obtain ⟨m, hread, rfl, happly⟩ := regMap_reproduces.2 (.x64 .avx2) {} p q kernel
    { root := kernel.allocation.regMap.toNode } hcompile (Subgraph.natural_of_build hbuild) hfits rfl
  exact ⟨p, q, kernel, hbuild, hcompile, hread, happly 3⟩

end Kernel

/-- A parameter whose pointer has a register already, one with a negative index. -/
def presetPointer : Program :=
  match Edit.add "p" { kind := "Parameter", outputs := 1 } [] { name := "preset" } with
  | .ok id p => p.setAbstract ⟨id, 0⟩ (.gpr (-5))
  | .error _ p => p

/-- The program is compiled, but nobody can read its register map. -/
theorem Kernel.not_legible_presetPointer : ∃ kernel q,
    compile (.x64 .avx2) {} presetPointer = .ok kernel q ∧
      kernel.allocation.regMap.entries = [(.gpr (-5), .gpr 0)] ∧
      RegMap.ofDocument { root := kernel.allocation.regMap.toNode } =
        .error (.key (.badIndex "gpr-5")) := by
  have hcompile : (match compile (.x64 .avx2) {} presetPointer with
      | .ok kernel _ => decide (kernel.allocation.regMap.entries = [(.gpr (-5), .gpr 0)])
      | .error _ _ => false) = true := by
    decide +kernel
  split at hcompile
  · rename_i kernel q hrun
    have hentries := of_decide_eq_true hcompile
    refine ⟨kernel, q, hrun, hentries, ?_⟩
    have hnode : kernel.allocation.regMap.toNode =
        .mapping none (Yaml.textEntries [("gpr-5", "gpr0")]) := by
      have htexts : RegMap.lastTexts [(.gpr (-5), .gpr 0)] = [("gpr-5", "gpr0")] := by decide
      rw [RegMap.toNode, hentries, htexts, List.mergeSort_singleton]
      rfl
    rw [RegMap.ofDocument_textEntries hnode (by decide) (by decide)]
    rfl
  · cases hcompile

end TensorKernel
