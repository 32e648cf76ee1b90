import Mathlib.Order.Bounds.Defs
import TensorKernel.Proofs.Allocation.Atomic
import TensorKernel.Proofs.Kernel.Refused

/-!
# Generated names never collide

Names may be drawn for many bases before any of them is entered. Each draw goes on behind the number of
the last one, and a drawn name tells its number, so no two draws give the same name, whatever the bases
are and however much the names in use look like drawn ones.

So no compilation of a subgraph is refused for a name that is in use already.
-/

namespace TensorKernel

open Outcome

namespace Program

variable {p q : Program}

/-! ### Drawing names -/

/-- A name is drawn with the first number behind the last one that makes it a free name. -/
theorem isLeast_nextSerial (p : Program) (base : Label) :
    IsLeast {n | p.serial < n ∧ p.isUsed (numbered base n) = false} (p.nextSerial base) := by
  refine ⟨p.nextSerial_free base, fun n ⟨hlt, hfree⟩ => ?_⟩
  obtain ⟨m, hm, hmfree⟩ := p.exists_free_name base
  obtain ⟨k, hk⟩ := Option.isSome_iff_exists.mp (List.find?_isSome
    (p := fun n => !p.isUsed (numbered base n)).mpr ⟨m, hm, by simp [hmfree]⟩)
  rw [nextSerial, hk, Option.getD_some]
  -- The search would have ended at a smaller free number.
  refine Nat.le_of_not_lt fun hnk => ?_
  have hused := (List.find?_range'_eq_some.mp hk).2.2 n hlt hnk
  simp [hfree] at hused

/-- Draw names for several bases one after the other. None of them is entered. -/
def drawNames (p : Program) : List Label → List Label × Program
  | [] => ([], p)
  | base :: bases =>
    let (name, q) := p.uniqueName base
    let (names, r) := q.drawNames bases
    (name :: names, r)

/-- Names that were drawn for bases, with numbers behind `last` up to `last'`: each with the first number
behind the one before it that makes it a free name. -/
inductive Drawn (p : Program) : (last : Nat) → (bases names : List Label) → (last' : Nat) → Prop
  | nil (last : Nat) : Drawn p last [] [] last
  | cons {last n last' : Nat} {base : Label} {bases names : List Label} :
    IsLeast {n | last < n ∧ p.isUsed (numbered base n) = false} n → Drawn p n bases names last' →
    Drawn p last (base :: bases) (numbered base n :: names) last'

/-- Names are drawn for bases that are in use. -/
theorem drawNames_drawn (p : Program) {bases : List Label} (used : ∀ base ∈ bases, p.isUsed base = true) :
    ∃ names last, p.drawNames bases = (names, { p with serial := last }) ∧
      p.Drawn p.serial bases names last := by
  suffices H : ∀ serial, ∃ names last, ({ p with serial } : Program).drawNames bases =
      (names, { p with serial := last }) ∧ p.Drawn serial bases names last from H p.serial
  induction bases with
  | nil => exact fun serial => ⟨[], serial, rfl, .nil serial⟩
  | cons base bases ih =>
    intro serial
    obtain ⟨names, last, hrest, hdrawn⟩ := ih (fun b hb => used b (List.mem_cons_of_mem _ hb))
      (({ p with serial } : Program).nextSerial base)
    have hname : ({ p with serial } : Program).uniqueName base =
        (numbered base (({ p with serial } : Program).nextSerial base),
          { p with serial := ({ p with serial } : Program).nextSerial base }) :=
      if_pos (used base List.mem_cons_self)
    refine ⟨_, last, ?_, .cons (({ p with serial } : Program).isLeast_nextSerial base) hdrawn⟩
    rw [drawNames, hname]
    dsimp only
    rw [hrest]

namespace Drawn

variable {last last' : Nat} {bases names : List Label}

/-- A drawn name is free and has a number behind the last one. -/
theorem of_mem (h : p.Drawn last bases names last') {name : Label} (hname : name ∈ names) :
    p.isUsed name = false ∧ ∃ base n, last < n ∧ name = numbered base n := by
  induction h with
  | nil => cases hname
  | @cons last n _ base _ _ hn _ ih =>
    rcases List.mem_cons.mp hname with rfl | hname
    · exact ⟨hn.1.2, base, n, hn.1.1, rfl⟩
    · obtain ⟨hfree, base', m, hm, rfl⟩ := ih hname
      exact ⟨hfree, base', m, Nat.lt_trans hn.1.1 hm, rfl⟩

/-- Drawn names differ, since their numbers go up. -/
theorem nodup (h : p.Drawn last bases names last') : names.Nodup := by
  induction h with
  | nil => exact List.nodup_nil
  | cons _ hrest ih =>
    refine List.nodup_cons.mpr ⟨fun hmem => ?_, ih⟩
    obtain ⟨_, base', m, hm, heq⟩ := hrest.of_mem hmem
    exact Nat.ne_of_lt hm (numbered_inj heq)

end Drawn

end Program

open Program

/-- Whether a compilation failed for a name that is in use already. -/
def CompileCause.ofNames : CompileCause → Bool
  | .refused refusal => refusal.ofNames
  | .rejected _ => false

theorem CompileCause.IsPlain.ofNames {cause : CompileCause} (h : cause.IsPlain) :
    cause.ofNames = false := by
  rcases cause with ((fault | lack) | violations)
  · exact h.1
  · rfl
  · rfl

/-- Registers are not refused for names. -/
theorem Workspace.doneUnless_assign (m : Machine) :
    DoneUnless (fun refusal : Refusal => refusal.ofNames = false) (assign m) := by
  refine .bind .get fun w => ?_
  split
  · rename_i refusal hchoose
    exact .throw (Allocation.isOfChoice_of_choose m w refusal hchoose).1
  · refine .bind (fun w refusal w' hrefused => ?_) fun _ => .bind .get fun w =>
      .bind (.forM (fun id => .bind .get fun w => ?_) _) fun _ => .pure _
    · unfold writePorts at hrefused
      split at hrefused
      · cases hrefused
      · cases hrefused
        rfl
    · dsimp only
      split
      · rename_i fault hfault
        unfold Liveness.liveSet at hfault
        split at hfault
        · cases hfault
        · cases hfault
          exact .throw rfl
      · split
        · exact .throw rfl
        · exact .set _

/-- Registers are assigned to programs without being refused for names. -/
theorem Kernel.doneUnless_allocate (m : Machine) :
    DoneUnless (fun cause : CompileCause => cause.ofNames = false) (allocate m) := by
  refine .bind (.modify _) fun _ => .bind (.adaptExcept fun w fault v hfault => ?_) fun _ => ?_
  · exact (Workspace.doneUnless_computeRanges w fault v hfault).1
  · refine .bind (.adaptExcept (Workspace.doneUnless_assign m)) fun a => .bind .get fun w => ?_
    dsimp only
    split
    · exact .bind (.throw rfl) fun _ => .pure _
    · exact .pure _

namespace Subgraph

/-- **Generated names never collide.** Names can be drawn for any bases that are in use, one after the
other and without entering any: each draw ends at the first free number, every drawn name is free, and no
two are the same. So the program of a subgraph is never refused for a name that is in use already, whatever
the names of its operations are. -/
theorem drawn_names_apart :
    (∀ (p : Program) (bases : List Label), (∀ base ∈ bases, p.isUsed base = true) →
      ∃ names last, p.drawNames bases = (names, { p with serial := last }) ∧
        p.Drawn p.serial bases names last ∧ (∀ name ∈ names, p.isUsed name = false) ∧ names.Nodup) ∧
    ∀ (sg : Subgraph) (p : Program), sg.build = .ok p →
      ∀ (m : Machine) (options : CompileOptions) (program : Label)
        (machine : String) (owner name : Label) (q : Program),
        Kernel.compile m options p ≠
          .error ⟨program, machine, .refused (.fault (.duplicateName owner name))⟩ q := by
  refine ⟨fun p bases used => ?_, fun sg p built m options program machine owner name q h => ?_⟩
  · obtain ⟨names, last, hdraw, hdrawn⟩ := p.drawNames_drawn used
    exact ⟨names, last, hdraw, hdrawn, fun name hname => (hdrawn.of_mem hname).1, hdrawn.nodup⟩
  · unfold Kernel.compile at h
    split at h
    · cases h
    · rename_i cause w hpasses
      have hcause := Kernel.doneUnlessAt_passes (fun _ => CompileCause.IsPlain.ofNames) built
        (fun _ u _ => Kernel.doneUnless_allocate m u) cause w hpasses
      cases h
      cases hcause

/-- A copy of five elements in steps of four with a call in each round. The names of its operations look
like those of markers, of copies, and of brackets. -/
def imitating : Subgraph where
  name := "imitating"
  ops := [
    { name := "loop_begin_0", kind := "Parameter", shape := some [5] },
    { name := "load", kind := "Load", inputs := ["loop_begin_0"] },
    { name := "load_1", kind := "ExternalCall", inputs := ["load"] },
    { name := "load_3", kind := "Add", inputs := ["load_1", "load"] },
    { name := "load_1_2", kind := "Store", inputs := ["load_3"] },
    { name := "reg_spill_begin_0", kind := "Result", inputs := ["load_1_2"] }]
  loops := [
    { first := "load", last := "load_1_2", work := 5, increment := 4
      entries := [{ port := "load.in0" }], exits := [{ port := "load_1_2.out0" }] }]

/-- The names in its kernel. -/
def imitatingNames : List Label :=
  ["loop_begin_0", "loop_begin_0_1_2", "load_4", "reg_spill_begin_0_9", "load_1_5", "reg_spill_end_0",
    "load_3_6", "load_1_2_7", "loop_end_0_8", "loop_begin_0_1", "load", "reg_spill_begin_1", "load_1",
    "reg_spill_end_1", "load_3", "load_1_2", "loop_end_0", "reg_spill_begin_0"]

/-- Numbers whose names are in use are passed over. -/
theorem drawn_names_apart_imitating : ∃ p names last kernel q, imitating.build = .ok p ∧
    (∀ base ∈ (["load", "load_1", "load"] : List Label), p.isUsed base = true) ∧
    p.drawNames ["load", "load_1", "load"] = (names, { p with serial := last }) ∧
    names = ["load_2", "load_1_3", "load_4"] ∧ (∀ name ∈ names, p.isUsed name = false) ∧ names.Nodup ∧
    Kernel.compile (.x64 .avx2) {} p = .ok kernel q ∧
    (kernel.program.order.map fun x => (kernel.program.expr x).name) = imitatingNames ∧
    ∀ program machine owner name r, Kernel.compile (.x64 .avx2) {} p ≠
      .error ⟨program, machine, .refused (.fault (.duplicateName owner name))⟩ r := by
  have hsome : ((Kernel.ofSubgraph? (.x64 .avx2) {} imitating).any fun kernel => decide
      ((kernel.program.order.map fun x => (kernel.program.expr x).name) = imitatingNames)) = true := by
    decide +kernel
  have hdrawn : (imitating.build.toOption.any fun p => decide
      ((∀ base ∈ (["load", "load_1", "load"] : List Label), p.isUsed base = true) ∧
        (p.drawNames ["load", "load_1", "load"]).1 =
          (["load_2", "load_1_3", "load_4"] : List Label))) = true := by
    decide +kernel
  obtain ⟨p, kernel, q, hbuild, hcompile, hnames⟩ := Kernel.exists_of_any hsome
  rw [hbuild] at hdrawn
  obtain ⟨hused, hfst⟩ := of_decide_eq_true hdrawn
  obtain ⟨names, last, hdraw, _, hfree, hnodup⟩ := drawn_names_apart.1 p _ hused
  rw [hdraw] at hfst
  exact ⟨p, names, last, kernel, q, hbuild, hused, hdraw, hfst, hfree, hnodup, hcompile,
    hnames, drawn_names_apart.2 imitating p hbuild (.x64 .avx2) {}⟩

end Subgraph

end TensorKernel
