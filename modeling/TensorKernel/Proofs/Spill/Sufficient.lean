import TensorKernel.Proofs.Liveness.LiveSets
import TensorKernel.Proofs.Liveness.Origins
import TensorKernel.Proofs.Spill.Bracket

/-!
# Calls save what is needed behind them

Between the production of a value and its use, every run stays where the value is live, also when the
use comes in a later round of a loop. So the live set of a call on the way holds the register of the
value, and the bracket of the call saves and restores it.
-/

namespace TensorKernel

variable {x : ExprId} {n : Nest} {u : UseRef}

namespace Program

variable {p : Program} {v : ValueRef}

/-- Registers do not matter for the nest. -/
theorem WellNested.of_bare {q : Program} (hw : p.WellNested n) (hb : q.bare = p.bare) : q.WellNested n := by
  refine hw.congr (order_congr hb) fun x _ => ?_
  rw [← Expr.bare_role, ← Expr.bare_loops, ← Expr.bare_loop, ← bare_expr, hb, bare_expr]
  exact ⟨rfl, rfl, rfl⟩

/-- A use is behind the producer, and the value is needed there. -/
theorem Linked.needed (hl : p.Linked) (hf : p.Forward) (hu : u ∈ p.uses v) (hin : u.consumer ∈ p.order) :
    (p.expr v.producer).exec < (p.expr u.consumer).exec ∧ p.Needed v (p.expr u.consumer).exec :=
  ⟨hf.lt hl hu hin, u, hu, hin, p.exec_le_useEnd _ u⟩

/-- A call stands between two markers that save and restore a register. -/
def SavesAcross (p : Program) (call : ExprId) (r : Reg) : Prop :=
  ∃ opening closing regs, [opening, call, closing] <:+: p.order ∧
    (p.expr opening).role = .regSpillBegin ∧ (p.expr closing).role = .regSpillEnd ∧
    (p.expr opening).spilled = some regs ∧ (p.expr closing).spilled = some regs ∧ r ∈ regs

/-! ### The way from a producer to a use -/

/-- Since a value was produced last, all that was run stands where the value is live. -/
def StaysLive (p : Program) (v : ValueRef) (before : List ExprId) : Prop :=
  ∀ done since, before = done ++ v.producer :: since → v.producer ∉ since →
    ∀ x ∈ since, (p.expr v.producer).exec < (p.expr x).exec ∧ (p.expr x).exec ≤ p.lastUse v

/-- The next expression is live ground for a value that is needed there. -/
theorem carriesOver_staysLive (he : p.Enumerated) : p.CarriesOver p.Owns p.StaysLive := by
  intro before c id v hid hv hle hn h done since hsplit hlatest
  have hexec := he c id hid
  rcases List.eq_nil_or_concat since with rfl | ⟨since, last, rfl⟩
  · simp
  rw [List.concat_eq_append] at hsplit hlatest ⊢
  rw [← List.cons_append, ← List.append_assoc] at hsplit
  obtain ⟨hbefore, hlast⟩ := List.append_inj' hsplit rfl
  obtain rfl : id = last := by simpa using hlast
  rw [List.mem_append, List.mem_singleton, not_or] at hlatest
  -- The value was not produced just now.
  have hlt : (p.expr v.producer).exec < c :=
    Int.lt_iff_le_and_ne.mpr ⟨hle, fun hc => hlatest.2 (he.eq_of_exec hid hv.1 hc)⟩
  intro x hx
  rcases List.mem_append.mp hx with hx | hx
  · exact h hlt done since hbefore hlatest.1 x hx
  · rw [List.mem_singleton.mp hx, hexec]
    exact ⟨hlt, hn.le_lastUse⟩

/-- Between the last production of a value and a use, a run stays where the value is live. -/
theorem live_between (hw : p.WellNested n) (he : p.Enumerated) (hl : p.Linked) (hf : p.Forward)
    {t : List ExprId} (ht : n.Trace t) (hv : p.Owns v) (hu : u ∈ p.uses v) {done since after : List ExprId}
    (hsplit : t = done ++ v.producer :: (since ++ u.consumer :: after)) (hlatest : v.producer ∉ since)
    (hx : x ∈ since) : (p.expr v.producer).exec < (p.expr x).exec ∧ (p.expr x).exec ≤ p.lastUse v := by
  have hread : t = (done ++ v.producer :: since) ++ u.consumer :: after := by simp [hsplit]
  obtain ⟨c, hid, hcarries⟩ := carriesAlong_trace hw he (fun _ hv => hv.1) (carriesOver_staysLive he)
    ht _ _ _ hread
  obtain ⟨hlt, hn⟩ := hl.needed hf hu (List.mem_of_getElem? hid)
  rw [he c _ hid] at hlt hn
  exact hcarries v hv hlt hn done since (List.nil_append _) hlatest x hx

end Program

open Program

namespace Workspace

variable {p : Program} {m : Machine} {w₀ w w' : Workspace} {a : Allocation} {v : ValueRef}

/-- Without aliases, the interval of a value covers what is behind its producer and not behind its last
use. -/
theorem Ranged.exists_interval (hr : w.Ranged p) (he : p.Enumerated) (hu : p.Unaliased) (hv : p.Owns v)
    (hd : (w.program.abstractReg v).isDefined = true) (hx : x ∈ p.order)
    (hlt : (p.expr v.producer).exec < (p.expr x).exec) (hle : (p.expr x).exec ≤ p.lastUse v) :
    ∃ range, w.live.ranges.get? (w.program.abstractReg v) = some range ∧
      range.start < (p.expr x).exec ∧ (p.expr x).exec ≤ range.stop := by
  obtain ⟨vs, range, ho, hrange, hholders⟩ := hr.origin v (.inl hv.1) hd
  refine ⟨range, hrange, ?_⟩
  cases ho with
  | pointer =>
    have hproducer := he.exec_mem hv.1
    have hexpr := he.exec_mem hx
    dsimp only
    omega
  | @group v₀ _ _ =>
    have hmem := hholders v (.inl hv.1) rfl
    rw [hu.aliasGroup, List.mem_singleton] at hmem
    rw [← hmem, groupRange_eq_of_aliasGroup (hu.aliasGroup v)]
    exact ⟨hlt, hle⟩

/-- An input has the physical register of its source. -/
theorem Ranged.input_reg (hr : w.Ranged p)
    (happ : a.regMap.AppliedOn w.program (fun _ id _ => id ∈ w.program.order) w'.program)
    {id : ExprId} (hid : id ∈ p.order) {k : Nat} {i : Input}
    (hk : (w'.program.expr id).inputs[k]? = some i) (huse : ⟨id, k⟩ ∈ p.uses i.source)
    (hv : p.Owns i.source) (hd : (w.program.abstractReg i.source).isDefined = true) :
    a.regMap.get? (w.program.abstractReg i.source) = some i.port.reg := by
  have hp : w'.program.portAt .input id k = some i.port := by rw [portAt, hk]; rfl
  have habs : i.port.abstract = w.program.abstractReg i.source := by
    rw [← hr.agree i.source ⟨id, k⟩ huse hid (.inl hv.1), ← happ.inputReg_eq, inputReg_eq_portAt, hp]
    rfl
  rw [← habs] at hd ⊢
  exact happ.get?_eq (order_congr hr.bare ▸ hid) hp hd

/-- The live set of an expression where a value is live holds the physical register of the value. -/
theorem mem_live_of_assign (fresh : w₀.program.Fresh) (unaliased : w₀.program.Unaliased)
    (linked : w₀.program.Linked) (ranged : computeRanges w₀ = .ok () w) (assigned : assign m w = .ok a w')
    (hv : w₀.program.Owns v) (hd : (w.program.abstractReg v).isDefined = true) {phys : Reg}
    (hphys : a.regMap.get? (w.program.abstractReg v) = some phys) (hx : x ∈ w₀.program.order)
    (hns : ¬ w₀.program.IsSilent x) (hlt : (w₀.program.expr v.producer).exec < (w₀.program.expr x).exec)
    (hle : (w₀.program.expr x).exec ≤ w₀.program.lastUse v) :
    ∃ regs, w'.live.set? x = some regs ∧ phys ∈ regs := by
  obtain ⟨he, hr, _⟩ := ranged_of_computeRanges fresh linked unaliased.grouped ranged
  have horder : w.program.order = w₀.program.order := order_congr hr.bare
  obtain ⟨range, hrange, hstart, hstop⟩ := hr.exists_interval he unaliased hv hd hx hlt hle
  have hnew := unrecorded_of_computeRanges fresh ranged hv hd
  obtain ⟨set, hset, hlive⟩ := live_of_computeRanges ranged hx
  have hmem := (hlive.mem_iff hns _).mpr ⟨hnew, range, hrange, hstop, .inl hstart⟩
  obtain ⟨regs, hregs, htranslate⟩ := assign_live assigned (horder ▸ he.nodup) (horder ▸ hx) hset
  exact ⟨regs, hregs, (RegMap.mem_translate htranslate).mpr ⟨_, hmem, hphys⟩⟩

/-- **Spill sets are sufficient.** In every trace of a program without aliases, a call that is run
between the last production of a value and a use saves and restores the register of the use. -/
theorem savesAcross_of_insertSpills {w'' : Workspace} {bs : List Bracket} {n : Nest}
    (fresh : w₀.program.Fresh) (unaliased : w₀.program.Unaliased) (linked : w₀.program.Linked)
    (forward : w₀.program.Forward) (nested : w₀.program.WellNested n)
    (silent : w₀.program.SilentEmpty) (ranged : computeRanges w₀ = .ok () w)
    (assigned : assign m w = .ok a w') (spilled : insertSpills w' = .ok bs w'') :
    ∃ n', w''.program.WellNested n' ∧ ∀ t, n'.Trace t → ∀ done since after id,
      ∀ i ∈ (w''.program.expr id).inputs,
        t = done ++ i.source.producer :: (since ++ id :: after) → i.source.producer ∉ since →
        ∀ call ∈ since, (w''.program.expr call).role = .externalCall →
          w''.program.SavesAcross call i.port.reg := by
  obtain ⟨he, hr, hdefined⟩ := ranged_of_computeRanges fresh linked unaliased.grouped ranged
  obtain ⟨_, happ, _⟩ := assign_ok assigned
  have hbare : w'.program.bare = w₀.program.bare := happ.bare.trans hr.bare
  have horder : w'.program.order = w₀.program.order := order_congr hbare
  have he' := he.of_bare hbare
  have hvalid : ∀ x ∈ w'.program.order, x < w'.program.exprs.size := fun x => he'.lt_size
  obtain ⟨hsp, hcalls⟩ := insertSpills_eq_ok he' spilled
  have hw := hsp.wellNested hvalid (nested.of_bare hbare)
  refine ⟨_, hw, fun t ht done since after id i hi hsplit hlatest call hcall hrole => ?_⟩
  have hmem : ∀ x ∈ t, x ∈ w''.program.order := fun x hx => hw.flatten ▸ ht.mem hx
  -- The use, the producer and the call were there before the brackets.
  obtain ⟨hid, hi⟩ := hsp.of_input (hmem id (by simp [hsplit])) hi
  obtain ⟨hcallin, hrole⟩ := hsp.of_role hvalid (hmem call (by simp [hsplit, hcall])) hrole
    (by decide)
  obtain ⟨k, hk⟩ := List.mem_iff_getElem?.mp hi
  have huse : (⟨id, k⟩ : UseRef) ∈ w₀.program.uses i.source := by
    refine (linked id (horder ▸ hid) k i.source).mp ?_
    rw [← source_congr hbare, hk]
    rfl
  have hvalue := HasValue.of_mem_uses huse
  have hproducer : i.source.producer < w'.program.exprs.size :=
    ((hasValue_congr hbare i.source).mpr hvalue).lt_size
  have hv : w₀.program.Owns i.source :=
    ⟨horder ▸ hsp.of_lt_size (hmem _ (by simp [hsplit])) hproducer, hvalue⟩
  have hd := hdefined i.source hv (hv.not_isSilent silent)
  -- Without the brackets, the run stays where the value is live.
  have herased : t.filter (· < w'.program.exprs.size) =
      done.filter (· < w'.program.exprs.size) ++ i.source.producer ::
        (since.filter (· < w'.program.exprs.size) ++ id :: after.filter (· < w'.program.exprs.size)) := by
    simp [hsplit, hproducer, hvalid id hid]
  obtain ⟨hlt, hle⟩ := live_between nested he linked forward (hsp.trace hvalid (nested.of_bare hbare) ht)
    hv huse herased (fun hm => hlatest (List.mem_of_mem_filter hm))
    (List.mem_filter.mpr ⟨hcall, decide_eq_true (hvalid call hcallin)⟩)
  have hns : ¬ w₀.program.IsSilent call := by
    rw [IsSilent, ← role_congr hbare, hrole]
    decide
  obtain ⟨regs, hregs, hsaved⟩ := mem_live_of_assign fresh unaliased linked ranged assigned hv hd
    (hr.input_reg happ (horder ▸ hid) hk huse hv hd) (horder ▸ hcallin) hns hlt hle
  obtain ⟨b, hb, rfl⟩ := exists_bracket hcalls hcallin hrole
  have hinfix := hsp.around_infix hb
  obtain ⟨regs', hsaves⟩ := hsp.saves b hb
  obtain rfl : regs = regs' := Option.some.inj (hregs.symm.trans hsaves.live)
  exact ⟨b.opening, b.closing, regs, hinfix, hsaves.opening.role, hsaves.closing.role,
    hsaves.opening.spilled, hsaves.closing.spilled, hsaved⟩

end Workspace

/-- Add a constant to five elements, four at once, with a call in every round. -/
def calledCopy : Subgraph where
  name := "called"
  ops := [
    { name := "source", kind := "Parameter", shape := some [5] },
    { name := "bias", kind := "Scalar", shape := some [1] },
    { name := "load", kind := "Load", inputs := ["source"] },
    { name := "sum", kind := "Add", inputs := ["load", "bias"] },
    { name := "call", kind := "ExternalCall", inputs := ["load"] },
    { name := "store", kind := "Store", inputs := ["sum"] },
    { name := "target", kind := "Result", inputs := ["store"] }]
  loops := [
    { first := "load", last := "store", work := 5, increment := 4
      entries := [{ port := "load.in0" }], exits := [{ port := "store.out0" }] }]

/-- The constant, made before the loop, is added before the call of its round. The call of the first
round saves it for the second one. -/
theorem savesAcross_of_insertSpills_calledCopy : ∃ w a w' bs w'' n', ∃ i ∈ (w''.program.expr 3).inputs,
    Workspace.computeRanges { program := calledCopy.lowered { noIterations := true } } = .ok () w ∧
      Workspace.assign (.x64 .avx2) w = .ok a w' ∧ Workspace.insertSpills w' = .ok bs w'' ∧
      w''.program.WellNested n' ∧
      n'.Trace [0, 1, 7, 2, 3, 9, 4, 10, 5, 8, 2, 3, 9, 4, 10, 5, 8, 6] ∧ i.source = ⟨1, 0⟩ ∧
      (w''.program.expr 4).role = .externalCall ∧ w''.program.SavesAcross 4 i.port.reg := by
  let n' : Nest := .expr 0 (.expr 1 (.loop 7 8
    (.expr 2 (.expr 3 (.expr 9 (.expr 4 (.expr 10 (.expr 5 .nil)))))) (.expr 6 .nil)))
  have hsome : ((Workspace.allocated? (.x64 .avx2)
      { program := calledCopy.lowered { noIterations := true } }).any fun (_, _, w') =>
        match Workspace.insertSpills w' with
        | .error _ _ => false
        | .ok _ w'' => w''.program.nest? = some n' && (w''.program.expr 4).role = .externalCall &&
          ((w''.program.expr 3).inputs[1]?).any fun i => i.source = ⟨1, 0⟩) = true := by
    decide +kernel
  obtain ⟨⟨w, a, w'⟩, h, hspilled⟩ := (Option.any_eq_true _ _).mp hsome
  obtain ⟨hr, ha⟩ := Workspace.allocated?_eq_some h
  cases hs : Workspace.insertSpills w' with
  | error fault w'' =>
    simp only [hs] at hspilled
    cases hspilled
  | ok bs w'' =>
    simp only [hs, Bool.and_eq_true, decide_eq_true_eq] at hspilled
    obtain ⟨⟨hnest, hrole⟩, hi⟩ := hspilled
    obtain ⟨i, hi, hsource⟩ := (Option.any_eq_true _ _).mp hi
    have hsource : i.source = ⟨1, 0⟩ := of_decide_eq_true hsource
    have hmem := List.mem_of_getElem? hi
    obtain ⟨n'', hw, hsaves⟩ := Workspace.savesAcross_of_insertSpills
      (n := .expr 0 (.expr 1 (.loop 7 8 (.expr 2 (.expr 3 (.expr 4 (.expr 5 .nil)))) (.expr 6 .nil))))
      (by decide +kernel) (by decide +kernel) (by decide +kernel) (by decide +kernel)
      ⟨by decide +kernel, by decide +kernel, by decide +kernel⟩ (by decide +kernel) hr ha hs
    obtain rfl : n'' = n' := Option.some.inj (hw.nest?_eq.symm.trans hnest)
    have hrounds : ∀ round ∈ [[2, 3, 9, 4, 10, 5], [2, 3, 9, 4, 10, 5]],
        Nest.Trace (.expr 2 (.expr 3 (.expr 9 (.expr 4 (.expr 10 (.expr 5 .nil)))))) round := by
      simp only [List.mem_cons, List.not_mem_nil, or_false, or_self, forall_eq]
      exact .expr (.expr (.expr (.expr (.expr (.expr .nil)))))
    have htrace : n'.Trace [0, 1, 7, 2, 3, 9, 4, 10, 5, 8, 2, 3, 9, 4, 10, 5, 8, 6] :=
      .expr (.expr (.loop (by simp) hrounds (.expr .nil)))
    refine ⟨w, a, w', bs, w'', n', i, hmem, hr, ha, hs, hw, htrace, hsource, hrole, ?_⟩
    exact hsaves _ htrace [0] [7, 2, 3, 9, 4, 10, 5, 8, 2] [9, 4, 10, 5, 8, 6] 3 i hmem
      (by rw [hsource]; rfl) (by rw [hsource]; decide) 4 (by decide) hrole

end TensorKernel
