import Mathlib.Algebra.Group.Int.Defs
import Mathlib.Algebra.Group.Nat.Defs
import TensorKernel.Proofs.Kernel.Convention

/-!
# Which pointers share a register

The register of a buffer is counted from the end of the kernel boundary by its group, and groups are
signed 64-bit numbers. Buffers of different groups are always in different registers. A buffer shares a
register with a parameter or a result exactly when its group counts back into the boundary; no check
refuses that, since pinned registers may share on purpose.
-/

namespace TensorKernel

variable {boundary : Nat}

namespace Pins

/-- Different groups have different registers, however the addition wraps. -/
theorem groupReg_injective {g g' : Int64} (h : groupReg boundary g = groupReg boundary g') : g = g' := by
  have hindex : (Int64.ofNat boundary + g).toInt = (Int64.ofNat boundary + g').toInt :=
    congrArg Reg.index h
  exact Int64.add_right_inj _ |>.mp (Int64.toInt_inj.mp hindex)

/-- The register of a group is counted from the end of the boundary, up to a wrap to negative
numbers. -/
theorem index_groupReg (hb : boundary < 2 ^ 63) (g : Int64) :
    (groupReg boundary g).index = boundary + g.toInt ∨ 0 ≤ g.toInt ∧ (groupReg boundary g).index < 0 := by
  have hlow := Int64.le_toInt g
  have hhigh := Int64.toInt_lt g
  have hsum : (groupReg boundary g).index = (boundary + g.toInt).bmod (2 ^ 64) := by
    show (Int64.ofNat boundary + g).toInt = _
    rw [Int64.toInt_add, Int64.toInt_ofNat_of_lt hb]
  rw [hsum, Int.bmod_def]
  omega

/-- A group has one of the registers of the boundary exactly when it counts back into the boundary. -/
theorem groupReg_mem_boundary_iff (hb : boundary < 2 ^ 63) (g : Int64) :
    (∃ k < boundary, groupReg boundary g = .gpr k) ↔ -(boundary : Int) ≤ g.toInt ∧ g.toInt < 0 := by
  have hindex := index_groupReg hb g
  constructor
  · rintro ⟨k, hk, he⟩
    have hk' : (groupReg boundary g).index = k := congrArg Reg.index he
    omega
  · rintro ⟨hle, hlt⟩
    refine ⟨(boundary + g.toInt).toNat, by omega, ?_⟩
    have hnat : ((boundary + g.toInt).toNat : Int) = (groupReg boundary g).index := by omega
    rw [hnat]
    rfl

end Pins

/-- The data pointers of the boundary fit the pool. -/
theorem Allocation.Chosen.boundary_lt {m : Machine} {w : Workspace} {a : Allocation}
    (h : Chosen m w a) {n : Nat} (hn : n < w.program.parameters.length + w.program.results.length) :
    (n : Int) < m.gprCount := by
  rcases Nat.lt_or_ge n w.program.parameters.length with hlt | hge
  · obtain ⟨v, _, hpin⟩ :=
      (Program.Fixes.parameter (List.getElem?_eq_getElem hlt) List.mem_cons_self).get?_pins h.pins
    exact h.pinned _ _ hpin (.inl rfl)
  · have hlt : n - w.program.parameters.length < w.program.results.length := by omega
    obtain ⟨v, _, hpin⟩ :=
      (Program.Fixes.result (List.getElem?_eq_getElem hlt) List.mem_cons_self).get?_pins h.pins
    rw [Nat.add_sub_cancel' hge] at hpin
    exact h.pinned _ _ hpin (.inl rfl)

/-- A buffer is in the register of a parameter or of a result. -/
def Program.SharesBoundary (p : Program) (x : ExprId) : Prop :=
  (∃ y ∈ p.parameters, p.firstOutputReg? y = p.firstOutputReg? x) ∨
    ∃ y ∈ p.results, p.firstInputReg? y = p.firstOutputReg? x

/-- The register of a buffer is on the boundary when it is the register of one of its places. -/
theorem Kernel.CalledWith.sharesBoundary_iff {kernel : Kernel}
    (h : kernel.CalledWith kernel.program.parameters kernel.program.results kernel.program.buffers)
    {x : ExprId} {phys : Reg} (hx : kernel.program.firstOutputReg? x = some phys) :
    kernel.program.SharesBoundary x ↔
      ∃ k < kernel.program.parameters.length + kernel.program.results.length, phys = .gpr k := by
  unfold Program.SharesBoundary
  rw [hx]
  constructor
  · rintro (⟨y, hy, he⟩ | ⟨y, hy, he⟩)
    · obtain ⟨k, hk⟩ := List.mem_iff_getElem?.mp hy
      have hlt := (List.getElem?_eq_some_iff.mp hk).1
      rw [h.parameter k y hk] at he
      exact ⟨k, by omega, (Option.some.inj he).symm⟩
    · obtain ⟨k, hk⟩ := List.mem_iff_getElem?.mp hy
      have hlt := (List.getElem?_eq_some_iff.mp hk).1
      rw [h.result k y hk] at he
      exact ⟨_, by omega, (Option.some.inj he).symm⟩
  · rintro ⟨k, hk, rfl⟩
    rcases Nat.lt_or_ge k kernel.program.parameters.length with hlt | hge
    · have hget := List.getElem?_eq_getElem hlt
      exact .inl ⟨_, List.mem_of_getElem? hget, h.parameter k _ hget⟩
    · have hlt : k - kernel.program.parameters.length < kernel.program.results.length := by omega
      have hget := List.getElem?_eq_getElem hlt
      have hreg := h.result _ _ hget
      rw [Nat.add_sub_cancel' hge] at hreg
      exact .inr ⟨_, List.mem_of_getElem? hget, hreg⟩

/-- **Which pointers share.** In a compiled kernel, buffers of different groups are in different
registers. A buffer is in the register of a parameter or of a result exactly when its group counts back
from the end of the boundary into it; so it is in none if its group is not negative. -/
theorem Subgraph.sharesBoundary_iff_of_compile {sg : Subgraph} {p q : Program} {m : Machine}
    {options : CompileOptions} {kernel : Kernel} (built : sg.build = .ok p)
    (compiled : Kernel.compile m options p = .ok kernel q) (pool : m.gprCount < 2 ^ 63) :
    (∀ x ∈ kernel.program.buffers, ∀ y ∈ kernel.program.buffers,
      (kernel.program.expr x).group ≠ (kernel.program.expr y).group →
        kernel.program.firstOutputReg? x ≠ kernel.program.firstOutputReg? y) ∧
    ∀ x ∈ kernel.program.buffers, kernel.program.SharesBoundary x ↔
      -((kernel.program.parameters.length + kernel.program.results.length : Nat) : Int) ≤
          (kernel.program.expr x).group.toInt ∧
        (kernel.program.expr x).group.toInt < 0 := by
  obtain ⟨u, v, w, stages⟩ := Kernel.compile_eq_ok compiled
  obtain ⟨henlarged, _⟩ := enlarged_of_lowerLoops built stages.lowered
  have hf := stages.finished henlarged.settled
  have hcalled := hf.calledWith
  refine ⟨fun x hx y hy hne he => ?_, fun x hx => ?_⟩
  · obtain ⟨_, rfl, _, hxreg⟩ := hcalled.buffer x hx
    obtain ⟨_, rfl, _, hyreg⟩ := hcalled.buffer y hy
    rw [hxreg, hyreg] at he
    exact hne (Pins.groupReg_injective (Option.some.inj he))
  · obtain ⟨_, rfl, _, hxreg⟩ := hcalled.buffer x hx
    have hb : kernel.program.parameters.length + kernel.program.results.length < 2 ^ 63 := by
      rw [hf.parameters, hf.results]
      refine Nat.lt_of_not_le fun hle => ?_
      have hlast := hf.chosen.boundary_lt (n := 2 ^ 63 - 1) (by omega)
      omega
    rw [hcalled.sharesBoundary_iff hxreg, Pins.groupReg_mem_boundary_iff hb]

/-- A copy by way of two buffers. The group of the first one counts back to the parameter. -/
def recycledCopy : Subgraph where
  name := "recycled"
  ops := [
    { name := "source", kind := "Parameter", shape := some [8] },
    { name := "load", kind := "Load", inputs := ["source"] },
    { name := "save", kind := "Store", inputs := ["load"] },
    { name := "scratch", kind := "Buffer", inputs := ["save"], group := -2 },
    { name := "again", kind := "Load", inputs := ["scratch"] },
    { name := "keep", kind := "Store", inputs := ["again"] },
    { name := "spare", kind := "Buffer", inputs := ["keep"] },
    { name := "last", kind := "Load", inputs := ["spare"] },
    { name := "store", kind := "Store", inputs := ["last"] },
    { name := "target", kind := "Result", inputs := ["store"] }]

/-- The first buffer of the copy is in the register of the parameter, and the second one is apart. -/
theorem Subgraph.sharesBoundary_recycledCopy : ∃ p kernel q, recycledCopy.build = .ok p ∧
    Kernel.compile (.x64 .avx2) {} p = .ok kernel q ∧ kernel.program.SharesBoundary 3 ∧
      ¬ kernel.program.SharesBoundary 6 ∧
      kernel.program.firstOutputReg? 3 ≠ kernel.program.firstOutputReg? 6 := by
  have hsome : ((Kernel.ofSubgraph? (.x64 .avx2) {} recycledCopy).any fun kernel =>
      3 ∈ kernel.program.buffers ∧ 6 ∈ kernel.program.buffers ∧
        (kernel.program.expr 3).group = -2 ∧ (kernel.program.expr 6).group = 0 ∧
        kernel.program.parameters.length + kernel.program.results.length = 2) = true := by
    decide +kernel
  obtain ⟨p, kernel, q, hbuild, hcompile, hscratch, hspare, hback, hzero, hboundary⟩ :=
    Kernel.exists_of_any hsome
  obtain ⟨hapart, hshares⟩ := sharesBoundary_iff_of_compile hbuild hcompile (by decide)
  refine ⟨p, kernel, q, hbuild, hcompile, ?_, ?_, ?_⟩
  · rw [hshares 3 hscratch, hback, hboundary]
    decide
  · rw [hshares 6 hspare, hzero]
    exact fun h => absurd h.2 (by decide)
  · exact hapart 3 hscratch 6 hspare (by rw [hback, hzero]; decide)

end TensorKernel
