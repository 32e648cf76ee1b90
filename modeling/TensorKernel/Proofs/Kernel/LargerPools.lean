import TensorKernel.Proofs.Kernel.Passes

/-!
# More registers than needed

Free registers form a stack, with the highest ones at the bottom. A scan that gets along with a pool
never looks below what the pool put there, so it makes the same choices when the pool is extended at
the bottom. The conventions that pin registers do not look at the pools, and every check of a register
against its pool only asks for enough room. Hence a kernel that fits a machine comes out the same on
a machine with larger pools.
-/

namespace TensorKernel

variable {a : Allocation} {s t : LinearScan} {ranges : RegTable Interval}

/-- One machine has all the registers of another one, and the same ones to preserve. -/
structure Machine.Extends (m m' : Machine) : Prop where
  /-- No pool is smaller. -/
  pools : ∀ bank, m.poolSize bank ≤ m'.poolSize bank
  /-- The conventions for callers are the same. -/
  saved : m'.isCalleeSaved = m.isCalleeSaved

/-- A larger cap leaves more of every pool. -/
theorem Machine.limit_extends (m : Machine) {gpr gpr' vec vec' : Int} (hgpr : 1 ≤ gpr)
    (hgpr' : gpr ≤ gpr') (hvec : 1 ≤ vec) (hvec' : vec ≤ vec') :
    (m.limit gpr vec).Extends (m.limit gpr' vec') where
  pools bank := by
    cases bank with
    | gpr =>
      show (if gpr ≤ 0 then m.gprCount else min gpr m.gprCount) ≤
        (if gpr' ≤ 0 then m.gprCount else min gpr' m.gprCount)
      rw [if_neg (by omega), if_neg (by omega)]
      omega
    | vec =>
      show (if vec ≤ 0 then m.vecCount else min vec m.vecCount) ≤
        (if vec' ≤ 0 then m.vecCount else min vec' m.vecCount)
      rw [if_neg (by omega), if_neg (by omega)]
      omega
    | _ => exact Int.le_refl 0
  saved := rfl

/-- What is sorted stays as it is. -/
theorem sortBy_eq_self {α : Type} {le : α → α → Bool} {l : List α} (h : l.Pairwise (le · ·)) :
    sortBy le l = l := by
  induction l with
  | nil => rfl
  | cons a rest ih =>
    obtain ⟨ha, hrest⟩ := List.pairwise_cons.mp h
    rw [sortBy, ih hrest]
    cases rest with
    | nil => rfl
    | cons b rest => rw [insertBy, if_pos (ha b List.mem_cons_self)]

namespace Outcome

variable {ε σ τ α : Type}

/-- A pass that keeps up with another one step by step keeps up with it to the end. -/
theorem forM_simulation {f : α → EStateM ε σ PUnit} {g : α → EStateM ε τ PUnit}
    {R : σ → τ → Prop} (hstep : ∀ a s t s', R s s' → f a s = .ok ⟨⟩ t →
      ∃ t', g a s' = .ok ⟨⟩ t' ∧ R t t')
    {l : List α} {s t : σ} {s' : τ} (h : R s s') (hrun : l.forM f s = .ok ⟨⟩ t) :
    ∃ t', l.forM g s' = .ok ⟨⟩ t' ∧ R t t' := by
  induction l generalizing s s' with
  | nil =>
    obtain ⟨_, rfl⟩ := pure_eq_ok.mp hrun
    exact ⟨s', rfl, h⟩
  | cons a l ih =>
    obtain ⟨_, u, hu, hrest⟩ := bind_eq_ok.mp hrun
    obtain ⟨u', hu', hR⟩ := hstep a s u s' h hu
    obtain ⟨t', ht', hR'⟩ := ih hR hrest
    exact ⟨t', bind_eq_ok.mpr ⟨_, u', hu', ht'⟩, hR'⟩

end Outcome

namespace LinearScan

/-- The scan over a pool that has further registers below. -/
def widen (s : LinearScan) (extra : List Reg) : LinearScan :=
  { s with pool := s.pool ++ extra, free := s.free ++ extra }

theorem expire_widen (s : LinearScan) (extra : List Reg) (position : Int) :
    (s.widen extra).expire position = (s.expire position).widen extra := by
  have hfree : ((s.widen extra).expire position).free = (s.expire position).free ++ extra := by
    rw [expire_free, expire_free, List.append_assoc]
    rfl
  unfold widen at *
  simp only [expire] at *
  rw [hfree]

/-- A scan over more registers hands out the same ones. -/
theorem place_widen {l : LiveReg} (extra : List Reg) (h : s.Intact) (hp : place l s = .ok () t) :
    place l (s.widen extra) = .ok () (t.widen extra) := by
  obtain ⟨phys, hp⟩ := place_eq_ok.mp hp
  have hcount := (h.expire l.range.start).count
  rw [hp.free, List.length_cons, expire_pool] at hcount
  refine place_eq_ok.mpr ⟨phys, ?_, ?_, ?_, hp.assigned, congrArg (· ++ extra) hp.pool, hp.bank⟩
  all_goals rw [expire_widen]
  · show (s.expire l.range.start).active.length ≠ (s.pool ++ extra).length
    rw [List.length_append]
    omega
  · exact congrArg (· ++ extra) hp.free
  · exact hp.active

/-- A successful allocation comes out the same with more registers. -/
theorem allocate_widen {assigned : RegTable Reg} (extra : List Reg) (hs : s.Intact)
    (h : allocate ranges s = .ok assigned t) : ∃ t', allocate ranges (s.widen extra) = .ok assigned t' := by
  obtain ⟨haccepts, hrun, rfl⟩ := allocate_eq_ok.mp h
  obtain ⟨t', hrun', rfl, _⟩ := Outcome.forM_simulation
    (R := fun x x' => x' = x.widen extra ∧ x.Intact) (g := place)
    (fun l x y x' hx hy => by
      obtain ⟨rfl, hb⟩ := hx
      exact ⟨_, place_widen extra hb hy, rfl, (hb.place hy).1⟩) ⟨rfl, hs⟩ hrun
  exact ⟨_, allocate_eq_ok.mpr ⟨haccepts, hrun', rfl⟩⟩

end LinearScan

namespace Allocation

variable {m m' : Machine} {pins : RegMap} {bank : Bank}

/-- The free registers of a pool ascend. -/
theorem pairwise_freePool (m : Machine) (pins : RegMap) (bank : Bank) :
    (freePool m pins bank).Pairwise fun a b => (!decide (b < a)) = true := by
  refine (List.pairwise_map.mpr (List.pairwise_lt_range.imp fun {i j} hij => ?_)).filter _
  have hlt : ¬ (⟨bank, (j : Int)⟩ : Reg) < ⟨bank, (i : Int)⟩ := by
    rw [Reg.lt_iff]
    simp
    omega
  simp [hlt]

/-- A larger pool has further free registers behind those of the smaller one. -/
theorem freePool_extends (h : m.Extends m') (pins : RegMap) (bank : Bank) :
    ∃ extra, freePool m' pins bank = freePool m pins bank ++ extra := by
  have hle := h.pools bank
  obtain ⟨n, hn⟩ : ∃ n, (m'.poolSize bank).toNat = (m.poolSize bank).toNat + n :=
    ⟨(m'.poolSize bank).toNat - (m.poolSize bank).toNat, by omega⟩
  unfold freePool
  rw [hn, List.range_add, List.map_append, List.filter_append]
  exact ⟨_, rfl⟩

/-- A scan over free registers starts with all of them in order. -/
theorem start_freePool (hs : LinearScan.start bank (freePool m pins bank) = .ok s) :
    s = { bank, pool := freePool m pins bank, free := freePool m pins bank } := by
  rw [LinearScan.start_eq_ok hs, sortBy_eq_self (pairwise_freePool m pins bank)]

/-- A bank that could be allocated is allocated the same way from a larger pool. -/
theorem allocateBank_extends (h : m.Extends m') {name : Label} {assigned : RegMap}
    (ha : allocateBank name m ranges pins bank = .ok assigned) :
    allocateBank name m' ranges pins bank = .ok assigned := by
  obtain ⟨hinside, s, t, hs, ha⟩ := allocateBank_eq_ok.mp ha
  obtain ⟨s', hs', _⟩ := exists_start m' pins bank
  obtain ⟨extra, hextra⟩ := freePool_extends h pins bank
  have hwide : s' = s.widen extra := by
    rw [start_freePool hs', start_freePool hs, hextra]
    rfl
  obtain ⟨t', ha'⟩ := LinearScan.allocate_widen extra (LinearScan.intact_start hs) ha
  refine allocateBank_eq_ok.mpr ⟨fun phys hphys hb => ?_, s', t', hs', hwide ▸ ha'⟩
  exact Int.lt_of_lt_of_le (hinside phys hphys hb) (h.pools bank)

/-- A choice of registers that succeeded is the same with larger pools. -/
theorem choose_extends (h : m.Extends m') {w : Workspace} (ha : choose m w = .ok a) :
    choose m' w = .ok a := by
  simp only [choose] at ha ⊢
  cases hfind : w.live.ranges.keys.find? fun r => r.bank ≠ .gpr ∧ r.bank ≠ .vec with
  | some r =>
    rw [hfind] at ha
    exact absurd ha (by simp)
  | none =>
    rw [hfind] at ha
    simp only [Outcome.except_bind_eq_ok] at ha ⊢
    obtain ⟨manual, hmanual, gprs, hgprs, vecs, hvecs, hpure⟩ := ha
    exact ⟨manual, hmanual, gprs, allocateBank_extends h hgprs, vecs, allocateBank_extends h hvecs,
      hpure⟩

end Allocation

namespace Workspace

variable {m m' : Machine} {w w' : Workspace}

/-- An assignment that succeeded is the same with larger pools. -/
theorem assign_extends (h : m.Extends m') (ha : assign m w = .ok a w') :
    assign m' w = .ok a w' := by
  unfold assign at ha ⊢
  rw [Outcome.get_bind] at ha ⊢
  cases hchoose : Allocation.choose m w with
  | error refusal =>
    rw [hchoose] at ha
    cases ha
  | ok b =>
    rw [hchoose] at ha
    rw [Allocation.choose_extends h hchoose]
    exact ha

/-- A port that is all right is all right with larger pools. -/
theorem portViolations_extends (h : m.Extends m') {map : RegMap} {expr : Label} {side : Side}
    {k : Nat} {port : Port} (hv : portViolations m map expr side k port = []) :
    portViolations m' map expr side k port = [] := by
  have hle := h.pools port.reg.bank
  unfold portViolations at *
  split at hv
  · cases hv
  · rename_i hd
    rw [if_neg hd]
    simp only [List.append_eq_nil_iff, ite_eq_left_iff, List.cons_ne_nil, imp_false,
      Decidable.not_not] at hv ⊢
    exact ⟨hv.1, hv.2.1, by omega⟩

/-- An allocation that passes its check passes it with larger pools. -/
theorem violations_extends (h : m.Extends m') (hv : w.violations m a = []) :
    w.violations m' a = [] := by
  simp only [violations, List.append_eq_nil_iff, List.flatMap_eq_nil_iff] at hv ⊢
  refine ⟨⟨fun e he => ?_, hv.1.2⟩, hv.2⟩
  have hexpr := hv.1.1 e he
  simp only [exprViolations, List.append_eq_nil_iff, List.flatMap_eq_nil_iff] at hexpr ⊢
  exact ⟨fun i hi => portViolations_extends h (hexpr.1 i hi),
    fun o ho => ⟨portViolations_extends h (hexpr.2 o ho).1, (hexpr.2 o ho).2⟩⟩

end Workspace

namespace Kernel

variable {m m' : Machine} {w w' : Workspace}

/-- Registers that were found are found again with larger pools. -/
theorem allocate_extends (h : m.Extends m') (ha : allocate m w = .ok a w') : allocate m' w = .ok a w' := by
  obtain ⟨v, hv, ha, hviolations⟩ := allocate_eq_ok.mp ha
  exact allocate_eq_ok.mpr
    ⟨v, hv, Workspace.assign_extends h ha, Workspace.violations_extends h hviolations⟩

/-- The passes that fit a kernel to a machine give the same kernel on a machine with larger pools. -/
theorem passes_extends (h : m.Extends m') {options : CompileOptions} {kernel : Kernel}
    (hk : passes m options w = .ok kernel w') :
    passes m' options w = .ok { kernel with machine := m' } w' := by
  obtain ⟨events, u, a, v, spills, hu, hv, hspills, rfl⟩ := passes_eq_ok.mp hk
  refine passes_eq_ok.mpr ⟨events, u, a, v, spills, hu, allocate_extends h hv, hspills, ?_⟩
  simp only [Program.calleeSaved, h.saved]

/-- A kernel that fits capped pools comes out the same with larger caps: the same program with its
registers and brackets, the same live ranges, the same registers by convention and by linear scan, and
the same registers to preserve. -/
theorem compile_limit_mono (m : Machine) {gpr gpr' vec vec' : Int} (hgpr : 1 ≤ gpr)
    (hgpr' : gpr ≤ gpr') (hvec : 1 ≤ vec) (hvec' : vec ≤ vec') {options : CompileOptions}
    {p q : Program} {kernel : Kernel} (h : compile (m.limit gpr vec) options p = .ok kernel q) :
    compile (m.limit gpr' vec') options p =
      .ok { kernel with machine := m.limit gpr' vec' } q := by
  unfold compile at h ⊢
  cases hpasses : passes (m.limit gpr vec) options { program := p } with
  | error cause w =>
    rw [hpasses] at h
    cases h
  | ok kernel w =>
    rw [hpasses] at h
    cases h
    rw [passes_extends (m.limit_extends hgpr hgpr' hvec hvec') hpasses]

end Kernel

/-- The biased copy just fits three registers of each kind. -/
theorem compile_limit_mono_biasedCopy : ∃ p kernel q, biasedCopy.build = .ok p ∧
    Kernel.compile (Machine.limit (.x64 .avx2) 3 3) {} p = .ok kernel q ∧
      Kernel.compile (Machine.limit (.x64 .avx2) 15 32) {} p =
        .ok { kernel with machine := Machine.limit (.x64 .avx2) 15 32 } q := by
  have hsome : (Kernel.ofSubgraph? (Machine.limit (.x64 .avx2) 3 3) {} biasedCopy).isSome = true := by
    decide +kernel
  obtain ⟨kernel, hk⟩ := Option.isSome_iff_exists.mp hsome
  obtain ⟨p, q, hbuild, hcompile⟩ := Kernel.ofSubgraph?_eq_some hk
  exact ⟨p, kernel, q, hbuild, hcompile, Kernel.compile_limit_mono _ (by decide) (by decide) (by decide)
    (by decide) hcompile⟩

end TensorKernel
