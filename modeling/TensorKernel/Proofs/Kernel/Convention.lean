import TensorKernel.Proofs.Kernel.Finished
import TensorKernel.Proofs.Spill.Sufficient

/-!
# The calling convention

A kernel is called with its data pointers in numbered registers, first those of the parameters and then
those of the results, and each buffer group has a register behind them. The numbers are those of the
finished program. They are the numbers of the subgraph if splitting its loops copied no parameter and no
result, which is so whenever loops are not split.
-/

namespace TensorKernel

open Program

variable {x : ExprId} {kind : Label} {p : Program} {phys : Reg} {role : Role}

/-- The register of input 0 of an expression. -/
def Program.firstInputReg? (p : Program) (x : ExprId) : Option Reg :=
  (p.expr x).inputs[0]?.map (·.port.reg)

/-- The register of output 0 of an expression. -/
def Program.firstOutputReg? (p : Program) (x : ExprId) : Option Reg :=
  (p.expr x).outputs[0]?.map (·.port.reg)

/-- A kernel that is called with its data pointers in the numbered registers. -/
structure Kernel.CalledWith (kernel : Kernel) (parameters results buffers : List ExprId) : Prop where
  /-- The pointers of the parameters come first. -/
  parameter : ∀ (k : Nat) x, parameters[k]? = some x →
    kernel.program.firstOutputReg? x = some (.gpr k)
  /-- The pointers of the results follow. -/
  result : ∀ (k : Nat) x, results[k]? = some x →
    kernel.program.firstInputReg? x = some (.gpr (parameters.length + k : Nat))
  /-- Buffers are behind both, by their groups. -/
  buffer : ∀ x ∈ buffers, ∃ phys,
    phys = Pins.groupReg (parameters.length + results.length) (kernel.program.expr x).group ∧
      (∀ i ∈ (kernel.program.expr x).inputs, i.port.reg = phys) ∧
      kernel.program.firstOutputReg? x = some phys

namespace Kernel.Finished

variable {m : Machine} {v w : Workspace} {kernel : Kernel} (h : Finished m p v w kernel)

include h

theorem isDefined_of_pin {r : Reg} (hpin : kernel.allocation.manual.get? r = some phys) :
    r.isDefined = true :=
  (exists_of_contains_pins h.chosen.pins (Option.isSome_of_eq_some hpin)).1

/-- A value that is pinned is in the register of its pin. -/
theorem firstOutputReg?_of_pin (hx : x ∈ p.order) {value : ValueRef}
    (hvalue : v.program.output x 0 = .ok value)
    (hpin : kernel.allocation.manual.get? (v.program.abstractReg value) = some phys) :
    kernel.program.firstOutputReg? x = some phys := by
  obtain ⟨hhas, rfl⟩ := output_zero_eq_ok.mp hvalue
  have howns : p.Owns ⟨x, 0⟩ := ⟨hx, (hasValue_congr h.ranged.bare _).mp hhas⟩
  have hphys := h.get?_physReg howns (h.isDefined_of_pin hpin)
  obtain ⟨o, ho⟩ := hasValue_iff.mp ((h.hasValue _).mpr howns.2)
  rw [h.chosen.get?_regMap_of_pin hpin, physReg, ho] at hphys
  have hreg : kernel.program.firstOutputReg? x = some o.port.reg :=
    congrArg (Option.map fun o : Output => o.port.reg) ho
  exact hreg.trans hphys.symm

/-- Inputs read what they read before registers were written. -/
theorem source (x : ExprId) (k : Nat) : (kernel.program.expr x).inputs[k]?.map (·.source) =
    (v.program.expr x).inputs[k]?.map (·.source) := by
  rw [h.bracketed.ports.inputs, source_congr h.applied.bare]

/-- An input that reads a pinned value is in the register of the pin. -/
theorem input_reg_of_pin (hx : x ∈ p.order) {k : Nat} {i : Input}
    (hk : (kernel.program.expr x).inputs[k]? = some i)
    (hpin : kernel.allocation.manual.get? (v.program.abstractReg i.source) = some phys) :
    i.port.reg = phys := by
  rw [h.bracketed.ports.inputs] at hk
  have huse : (⟨x, k⟩ : UseRef) ∈ p.uses i.source := by
    refine (h.settled.wired.linked x k i.source).mp ?_
    rw [← source_congr h.bare, hk]
    rfl
  have hvalue := HasValue.of_mem_uses huse
  have hreg := h.ranged.input_reg h.applied hx hk huse ⟨h.settled.full _ hvalue.lt_size, hvalue⟩
    (h.isDefined_of_pin hpin)
  rw [h.chosen.get?_regMap_of_pin hpin] at hreg
  exact (Option.some.inj hreg).symm

theorem parameters : kernel.program.parameters = v.program.parameters :=
  (h.ofRole (by decide)).trans (ofRole_congr h.ranged.bare _).symm

theorem results : kernel.program.results = v.program.results :=
  (h.ofRole (by decide)).trans (ofRole_congr h.ranged.bare _).symm

theorem buffers : kernel.program.buffers = v.program.buffers :=
  (h.ofRole (by decide)).trans (ofRole_congr h.ranged.bare _).symm

/-- The convention holds with the numbers of the finished program. -/
theorem calledWith :
    kernel.CalledWith kernel.program.parameters kernel.program.results kernel.program.buffers := by
  have hmem : ∀ {role x}, x ∈ v.program.ofRole role → x ∈ p.order := fun hx =>
    order_congr h.ranged.bare ▸ List.mem_of_mem_filter hx
  rw [h.parameters, h.results, h.buffers]
  refine ⟨fun k x hk => ?_, fun k x hk => ?_, fun x hx => ?_⟩
  · obtain ⟨value, hvalue, hpin⟩ := (Fixes.parameter hk List.mem_cons_self).output_pinned h.chosen.pins
    exact h.firstOutputReg?_of_pin (hmem (List.mem_of_getElem? hk)) hvalue hpin
  · obtain ⟨value, hvalue, hpin⟩ := (Fixes.result hk List.mem_cons_self).input_pinned h.chosen.pins
    rw [input_zero_eq_ok, ← h.source] at hvalue
    obtain ⟨i, hi, rfl⟩ := Option.map_eq_some_iff.mp hvalue
    rw [firstInputReg?, hi, Option.map_some,
      h.input_reg_of_pin (hmem (List.mem_of_getElem? hk)) hi hpin]
  · have hgroup : (kernel.program.expr x).group = (v.program.expr x).group := by
      rw [h.group (hmem hx), group_congr h.ranged.bare]
    refine ⟨_, rfl, fun i hi => ?_, ?_⟩
    · obtain ⟨k, hk⟩ := List.mem_iff_getElem?.mp hi
      have hsource : (v.program.expr x).inputs[k]?.map (·.source) = some i.source := by
        rw [← h.source, hk, Option.map_some]
      obtain ⟨_, hi', _⟩ := Option.map_eq_some_iff.mp hsource
      obtain ⟨_, hvalue, hpin⟩ :=
        (Fixes.buffer hx (List.getElem?_eq_some_iff.mp hi').1).get?_pins h.chosen.pins
      cases hvalue.symm.trans hsource
      rw [hgroup]
      exact h.input_reg_of_pin (hmem hx) hk hpin
    · obtain ⟨_, hvalue, hpin⟩ := (Fixes.memory hx List.mem_cons_self).output_pinned h.chosen.pins
      rw [hgroup]
      exact h.firstOutputReg?_of_pin (hmem hx) hvalue hpin

end Kernel.Finished

/-! ### Numbers of the subgraph -/

namespace Role

/-- The role of a kind is that of the only word with the role. -/
theorem ofKind_eq_iff {word : String} (hop : role ≠ .op)
    (honly : ∀ other, ofWord other = role ↔ other = word) : ofKind kind = role ↔ kind = word := by
  unfold ofKind
  constructor
  · intro h
    cases hword : kind.string? with
    | none =>
      rw [hword] at h
      exact absurd h.symm hop
    | some other =>
      rw [hword, Option.map_some, Option.getD_some, honly] at h
      rw [← h, Label.ofString_of_string? hword]
  · rintro rfl
    rw [Label.string?_ofString, Option.map_some, Option.getD_some, honly]

theorem ofKind_eq_parameter : ofKind kind = .parameter ↔ kind = "Parameter" :=
  ofKind_eq_iff (by decide) fun other => by unfold ofWord; split <;> simp_all

theorem ofKind_eq_result : ofKind kind = .result ↔ kind = "Result" :=
  ofKind_eq_iff (by decide) fun other => by unfold ofWord; split <;> simp_all

theorem ofKind_eq_buffer : ofKind kind = .buffer ↔ kind = "Buffer" :=
  ofKind_eq_iff (by decide) fun other => by unfold ofWord; split <;> simp_all

end Role

namespace Subgraph

/-- The numbers of the operations of a kind, in order. -/
def ofKind (sg : Subgraph) (kind : Label) : List ExprId :=
  (List.range sg.ops.length).filter fun k : Nat => (sg.ops[k]?.map (·.kind)) = some kind

end Subgraph

/-- The expressions of a role are the operations of the kind of the role. -/
theorem Program.Transcribes.ofRole {sg : Subgraph} (h : p.Transcribes sg.ops)
    (horder : p.order = List.range p.exprs.size)
    (hkind : ∀ {other : Label}, Role.ofKind other = role ↔ other = kind) :
    p.ofRole role = sg.ofKind kind := by
  rw [Program.ofRole, horder, h.size, Subgraph.ofKind]
  refine List.filter_congr fun k hk => ?_
  have hspec := List.getElem?_eq_getElem (List.mem_range.mp hk)
  rw [hspec, (h.op k _ hspec).1]
  simp [hkind]

/-- Numbering the program changes no roles. -/
theorem Program.ofRole_enumerate (p : Program) (role : Role) : p.enumerate.ofRole role = p.ofRole role := by
  have hr := p.repositioned_enumerate
  rw [Program.ofRole, hr.order, Program.ofRole]
  exact List.filter_congr fun x _ => by rw [hr.role]

/-- Expressions of a role stay in order when expressions are added. -/
theorem Program.Enlarged.ofRole {q : Program} (h : p.Enlarged q) (valid : ∀ x ∈ p.order, x < p.exprs.size)
    (role : Role) : (p.ofRole role).Sublist (q.ofRole role) := by
  have hsame : p.ofRole role = p.order.filter fun x => (q.expr x).role = role :=
    List.filter_congr fun x hx => by rw [Expr.role_of_header (h.header x (valid x hx))]
  rw [hsame]
  exact h.order.filter _

/-- **The calling convention.** The data pointers of a kernel are in numbered registers: first those of
its parameters, then those of its results, and behind them those of its buffers by their groups. If loops
are not split or splitting copied no parameter and no result, these are the parameters and results of the
subgraph with their numbers there. -/
theorem Subgraph.calledWith_of_compile {sg : Subgraph} {p q : Program} {m : Machine}
    {options : CompileOptions} {kernel : Kernel} (built : sg.build = .ok p)
    (compiled : Kernel.compile m options p = .ok kernel q) :
    kernel.CalledWith kernel.program.parameters kernel.program.results kernel.program.buffers ∧
      (options.noIterations = true ∨
          kernel.program.parameters.length = (sg.ofKind "Parameter").length ∧
            kernel.program.results.length = (sg.ofKind "Result").length →
        kernel.CalledWith (sg.ofKind "Parameter") (sg.ofKind "Result") (sg.ofKind "Buffer")) ∧
      ∀ (k : Nat) spec, sg.ops[k]? = some spec → (kernel.program.expr k).group = spec.group := by
  obtain ⟨u, v, w, stages⟩ := Kernel.compile_eq_ok compiled
  obtain ⟨⟨ls, described⟩, transcribes⟩ := build_eq_ok built
  obtain ⟨henlarged, hunsplit⟩ := enlarged_of_lowerLoops built stages.lowered
  have hf := stages.finished henlarged.settled
  have hcalled := hf.calledWith
  have hvalid := described.listed.pristine.tidy.valid
  have hrole : ∀ {role : Role}, role ≠ .regSpillBegin ∧ role ≠ .regSpillEnd →
      kernel.program.ofRole role = u.program.ofRole role := fun hne =>
    (hf.ofRole hne).trans (u.program.ofRole_enumerate _)
  have hparameters := transcribes.ofRole described.listed.order Role.ofKind_eq_parameter
  have hresults := transcribes.ofRole described.listed.order Role.ofKind_eq_result
  have hbuffers := transcribes.ofRole described.listed.order Role.ofKind_eq_buffer
  refine ⟨hcalled, fun huncopied => ?_, fun k spec hk => ?_⟩
  · -- The lists contain those of the subgraph and have their lengths.
    have hsame : kernel.program.parameters = sg.ofKind "Parameter" ∧
        kernel.program.results = sg.ofKind "Result" := by
      rw [← hparameters, ← hresults] at huncopied ⊢
      rcases huncopied with hno | ⟨hlengthp, hlengthr⟩
      · exact ⟨(hrole (by decide)).trans (hunsplit hno _ rfl),
          (hrole (by decide)).trans (hunsplit hno _ rfl)⟩
      · rw [parameters, hrole (by decide)] at hlengthp ⊢
        rw [results, hrole (by decide)] at hlengthr ⊢
        exact ⟨((henlarged.ofRole hvalid _).eq_of_length hlengthp.symm).symm,
          ((henlarged.ofRole hvalid _).eq_of_length hlengthr.symm).symm⟩
    rw [hsame.1, hsame.2] at hcalled
    refine ⟨hcalled.parameter, hcalled.result, fun x hx => hcalled.buffer x ?_⟩
    rw [← hbuffers] at hx
    rw [buffers, hrole (by decide)]
    exact (henlarged.ofRole hvalid _).subset hx
  · have hlt : k < p.exprs.size := transcribes.size ▸ (List.getElem?_eq_some_iff.mp hk).1
    have hmem : k ∈ u.program.enumerate.order := by
      rw [u.program.repositioned_enumerate.order]
      exact henlarged.settled.full k (Nat.lt_of_lt_of_le hlt henlarged.size)
    obtain ⟨position, he⟩ := u.program.repositioned_enumerate.expr k
    have hgroup := Expr.group_of_header (henlarged.header k hlt)
    rw [hf.group hmem, he]
    exact hgroup.trans (transcribes.op k spec hk).2

/-- Add two arrays of nine elements, four at once, by way of a buffer. -/
def bufferedSum : Subgraph where
  name := "buffered"
  ops := [
    { name := "left", kind := "Parameter", shape := some [9] },
    { name := "right", kind := "Parameter", shape := some [9] },
    { name := "a", kind := "Load", inputs := ["left"] },
    { name := "b", kind := "Load", inputs := ["right"] },
    { name := "sum", kind := "Add", inputs := ["a", "b"] },
    { name := "save", kind := "Store", inputs := ["sum"] },
    { name := "scratch", kind := "Buffer", inputs := ["save"], group := 1 },
    { name := "c", kind := "Load", inputs := ["scratch"] },
    { name := "store", kind := "Store", inputs := ["c"] },
    { name := "target", kind := "Result", inputs := ["store"] }]
  loops := [
    { first := "a", last := "save", work := 9, increment := 4
      entries := [{ port := "a.in0" }, { port := "b.in0" }], exits := [{ port := "save.out0" }] }]

/-- The loop of the sum is split into two parts, and the pointers keep their numbers. -/
theorem Subgraph.calledWith_of_compile_bufferedSum : ∃ p kernel q, bufferedSum.build = .ok p ∧
    Kernel.compile (.x64 .avx2) {} p = .ok kernel q ∧ 1 < kernel.program.loops.ids.length ∧
      kernel.CalledWith [0, 1] [9] [6] ∧ (kernel.program.expr 6).group = 1 := by
  have hsome : ((Kernel.ofSubgraph? (.x64 .avx2) {} bufferedSum).any fun kernel =>
      1 < kernel.program.loops.ids.length ∧ kernel.program.parameters.length = 2 ∧
        kernel.program.results.length = 1) = true := by
    decide +kernel
  obtain ⟨p, kernel, q, hbuild, hcompile, hsplit, hlengths⟩ := Kernel.exists_of_any hsome
  obtain ⟨_, hcalled, hgroup⟩ := calledWith_of_compile hbuild hcompile
  have hplaces : bufferedSum.ofKind "Parameter" = [0, 1] ∧ bufferedSum.ofKind "Result" = [9] ∧
      bufferedSum.ofKind "Buffer" = [6] := by
    decide +kernel
  rw [hplaces.1, hplaces.2.1, hplaces.2.2] at hcalled
  exact ⟨p, kernel, q, hbuild, hcompile, hsplit, hcalled (.inr hlengths), hgroup 6 _ rfl⟩

end TensorKernel
