import TensorKernel.Proofs.Outcome
import TensorKernel.Proofs.Program.Abstract
import TensorKernel.Register.Map

/-!
# Writing physical registers at ports

Applying a register map to a program writes, at every port of the program that has an abstract
register, the physical register of that one, and changes nothing else.
-/

namespace TensorKernel

open Outcome Program

variable {id : ExprId} {k : Nat} {port : Port} {side : Side}

namespace RegMap

/-- What applying a map does at a port. -/
def onPort (m : RegMap) (port : Port) : Port :=
  if port.abstract.isDefined then port.setReg ((m.get? port.abstract).getD port.reg) else port

@[simp] theorem abstract_onPort (m : RegMap) (port : Port) :
    (m.onPort port).abstract = port.abstract := by
  unfold onPort
  split <;> rfl

/-- A mapped port holds the physical register of its abstract register. -/
theorem reg_onPort {m : RegMap} {phys : Reg} (hd : port.abstract.isDefined = true)
    (hm : m.get? port.abstract = some phys) : (m.onPort port).reg = phys := by
  simp [onPort, hd, hm, Port.setReg]

/-- The program `q` is `p` after the map was applied to the ports of `done` and maybe to others. -/
structure AppliedOn (m : RegMap) (p : Program) (done : Side → ExprId → Nat → Prop) (q : Program) :
    Prop where
  /-- Only registers are written. -/
  bare : q.bare = p.bare
  /-- A port is left alone or mapped. -/
  ports : ∀ side id k, q.portAt side id k = p.portAt side id k ∨
    q.portAt side id k = (p.portAt side id k).map m.onPort
  /-- The ports that are done are mapped. -/
  mapped : ∀ side id k, done side id k → q.portAt side id k = (p.portAt side id k).map m.onPort
  /-- The ports that are done have a physical register if they have an abstract one. -/
  total : ∀ side id k port, done side id k → p.portAt side id k = some port →
    port.abstract.isDefined = true → m.contains port.abstract = true

namespace AppliedOn

variable {m : RegMap} {p q q' : Program} {done : Side → ExprId → Nat → Prop}

/-- Before any port is mapped. -/
theorem start (m : RegMap) (p : Program) : m.AppliedOn p (fun _ _ _ => False) p :=
  ⟨rfl, fun _ _ _ => .inl rfl, fun _ _ _ h => h.elim, fun _ _ _ _ h => h.elim⟩

/-- Fewer ports need to be looked at, and ports that do not exist need not. -/
theorem weaken (h : m.AppliedOn p done q) {done' : Side → ExprId → Nat → Prop}
    (hd : ∀ side id k, done' side id k → done side id k ∨ p.portAt side id k = none) :
    m.AppliedOn p done' q := by
  refine ⟨h.bare, h.ports, fun side id k hk => ?_, fun side id k port hk hp => ?_⟩
  · rcases hd side id k hk with hk | hn
    · exact h.mapped side id k hk
    · rcases h.ports side id k with he | he
      · rw [he, hn]
        rfl
      · exact he
  · rcases hd side id k hk with hk | hn
    · exact h.total side id k port hk hp
    · rw [hn] at hp
      cases hp

/-- Abstract registers stay. -/
theorem abstract_eq (h : m.AppliedOn p done q) (side : Side) (id : ExprId) (k : Nat) :
    (q.portAt side id k).map (·.abstract) = (p.portAt side id k).map (·.abstract) := by
  rcases h.ports side id k with he | he
  · rw [he]
  · rw [he, Option.map_map]
    cases p.portAt side id k <;> simp

theorem abstractReg_eq (h : m.AppliedOn p done q) (v : ValueRef) :
    q.abstractReg v = p.abstractReg v := by
  rw [abstractReg_eq_portAt, h.abstract_eq, abstractReg_eq_portAt]

theorem inputReg_eq (h : m.AppliedOn p done q) (u : UseRef) : q.inputReg u = p.inputReg u := by
  rw [inputReg_eq_portAt, h.abstract_eq, inputReg_eq_portAt]

/-- One more port. -/
theorem applyPort (h : m.AppliedOn p done q) (hp : p.portAt side id k = some port)
    (ht : m.applyPort id side k port.abstract q = .ok () q') :
    m.AppliedOn p (fun s i j => done s i j ∨ side = s ∧ id = i ∧ k = j) q' := by
  unfold RegMap.applyPort at ht
  by_cases hd : port.abstract.isDefined = true
  · rw [if_pos hd] at ht
    cases hm : m.get? port.abstract with
    | none =>
      rw [hm] at ht
      simp [bind_eq_ok] at ht
    | some phys =>
      rw [hm] at ht
      obtain rfl := modify_eq_ok.mp ht
      -- Whether or not the port was mapped before, it is now.
      have hmap : (q.portAt side id k).map (.setReg phys) = (p.portAt side id k).map m.onPort := by
        rcases h.ports side id k with he | he <;>
          simp [he, hp, RegMap.onPort, hd, hm, Port.setReg]
      refine ⟨?_, fun s i j => ?_, fun s i j hj => ?_, fun s i j port' hj hp' hd' => ?_⟩
      · rw [bare_modifyPort q _ (Port.fresh_setReg phys), h.bare]
      · rw [portAt_modifyPort]
        split
        · rename_i he
          obtain ⟨rfl, rfl, rfl⟩ := he
          exact .inr hmap
        · exact h.ports s i j
      · rw [portAt_modifyPort]
        split
        · rename_i he
          obtain ⟨rfl, rfl, rfl⟩ := he
          exact hmap
        · exact h.mapped s i j (hj.resolve_right ‹_›)
      · rcases hj with hj | ⟨rfl, rfl, rfl⟩
        · exact h.total s i j port' hj hp' hd'
        · rw [hp] at hp'
          cases hp'
          simp [RegTable.contains, hm]
  · rw [if_neg hd] at ht
    obtain ⟨_, rfl⟩ := pure_eq_ok.mp ht
    refine ⟨h.bare, h.ports, fun s i j hj => ?_, fun s i j port' hj hp' hd' => ?_⟩
    · rcases hj with hj | ⟨rfl, rfl, rfl⟩
      · exact h.mapped s i j hj
      · rcases h.ports side id k with he | he
        · rw [he, hp]
          simp [RegMap.onPort, hd]
        · exact he
    · rcases hj with hj | ⟨rfl, rfl, rfl⟩
      · exact h.total s i j port' hj hp' hd'
      · rw [hp] at hp'
        cases hp'
        exact absurd hd' hd

/-- All ports of one side of an expression. The list `l` holds their states, which may have been read
before some of them were mapped. -/
theorem applySide {α : Type} {port : α → Port} {l : List α} (h : m.AppliedOn p done q)
    (hl : ∀ k, (l[k]?).map (fun a => (port a).abstract) = (p.portAt side id k).map (·.abstract))
    (ht : (l.zipIdx.forM fun (a, k) => m.applyPort id side k (port a).abstract) q = .ok () q') :
    m.AppliedOn p (fun s i k => done s i k ∨ side = s ∧ id = i) q' := by
  have hrun := forM_induction
    (P := fun ks x => m.AppliedOn p
      (fun s i j => done s i j ∨ side = s ∧ id = i ∧ ∃ a, (a, j) ∈ ks) x) ?_ ?_ ht
  · refine hrun.weaken fun s i j hj => ?_
    rcases hj with hj | ⟨rfl, rfl⟩
    · exact .inl (.inl hj)
    · cases ha : l[j]? with
      | none =>
        have hn := hl j
        rw [ha] at hn
        exact .inr (Option.map_eq_none_iff.mp hn.symm)
      | some a =>
        exact .inl (.inr ⟨rfl, rfl, a, List.mem_zipIdx_iff_getElem?.mpr ha⟩)
  · exact h.weaken fun s i j hj => .inl (hj.resolve_right (by simp))
  · rintro ks ⟨a, k⟩ rest x y hks hx hy
    have ha : l[k]? = some a := by
      refine List.mem_zipIdx_iff_getElem?.mp (?_ : (a, k) ∈ l.zipIdx)
      simp [hks]
    have hk := hl k
    rw [ha, Option.map_some, eq_comm, Option.map_eq_some_iff] at hk
    obtain ⟨port', hp, he⟩ := hk
    have hy : m.applyPort id side k (port a).abstract x = .ok () y := hy
    rw [← he] at hy
    refine (hx.applyPort hp hy).weaken fun s i j hj => .inl ?_
    rcases hj with hj | ⟨rfl, rfl, b, hb⟩
    · exact .inl (.inl hj)
    · rcases List.mem_append.mp hb with hb | hb
      · exact .inl (.inr ⟨rfl, rfl, b, hb⟩)
      · cases List.mem_singleton.mp hb
        exact .inr ⟨rfl, rfl, rfl⟩

/-- All ports of an expression. -/
theorem applyExpr (h : m.AppliedOn p done q) (ht : m.applyExpr id q = .ok () q') :
    m.AppliedOn p (fun s i k => done s i k ∨ id = i) q' := by
  simp only [RegMap.applyExpr, bind_eq_ok, get_eq_ok] at ht
  obtain ⟨_, _, ⟨rfl, rfl⟩, _, x, hx, ht⟩ := ht
  have hin := h.applySide (l := (q.expr id).inputs) (fun k => ?_) hx
  · have hout := hin.applySide (l := (q.expr id).outputs) (fun k => ?_) ht
    · refine hout.weaken fun s i k hk => .inl ?_
      rcases hk with hk | rfl
      · exact .inl (.inl hk)
      · cases s
        · exact .inl (.inr ⟨rfl, rfl⟩)
        · exact .inr ⟨rfl, rfl⟩
    · rw [← h.abstract_eq, portAt, Option.map_map]
      rfl
  · rw [← h.abstract_eq, portAt, Option.map_map]
    rfl

/-- All ports of a program. -/
theorem apply (ht : m.apply p = .ok () q) : m.AppliedOn p (fun _ id _ => id ∈ p.order) q := by
  simp only [RegMap.apply, bind_eq_ok, get_eq_ok] at ht
  obtain ⟨_, _, ⟨rfl, rfl⟩, ht⟩ := ht
  refine forM_induction (P := fun ids x => m.AppliedOn p (fun _ id _ => id ∈ ids) x) ?_ ?_ ht
  · exact (start m p).weaken fun _ _ _ h => absurd h List.not_mem_nil
  · intro ids id rest x y _ hx hy
    refine (hx.applyExpr hy).weaken fun _ i _ hi => .inl ?_
    rcases List.mem_append.mp hi with hi | hi
    · exact .inl hi
    · exact .inr (List.mem_singleton.mp hi).symm

/-- A mapped port with an abstract register holds the physical register of it. -/
theorem get?_eq (h : m.AppliedOn p done q) (hd : done side id k) (hp : q.portAt side id k = some port)
    (habs : port.abstract.isDefined = true) : m.get? port.abstract = some port.reg := by
  rw [h.mapped side id k hd, Option.map_eq_some_iff] at hp
  obtain ⟨before, hbefore, rfl⟩ := hp
  rw [abstract_onPort] at habs
  obtain ⟨phys, hphys⟩ := Option.isSome_iff_exists.mp (h.total side id k before hd hbefore habs)
  rw [abstract_onPort, hphys, reg_onPort habs hphys]

/-- A mapped port without an abstract register is left alone. -/
theorem portAt_eq (h : m.AppliedOn p done q) (hd : done side id k) (hp : q.portAt side id k = some port)
    (habs : port.abstract.isDefined ≠ true) : p.portAt side id k = some port := by
  rw [h.mapped side id k hd, Option.map_eq_some_iff] at hp
  obtain ⟨before, hbefore, rfl⟩ := hp
  rw [abstract_onPort] at habs
  rw [hbefore, onPort, if_neg habs]

end AppliedOn

end RegMap

end TensorKernel
