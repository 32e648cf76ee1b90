/-!
# Outcomes of steps

A step on a state either succeeds with an answer and a new state, or is refused. A sequence of steps
succeeds exactly when its steps succeed one after the other, so a successful run is taken apart step
by step. What every step of a list preserves, the whole list preserves.
-/

namespace TensorKernel.Outcome

open EStateM

variable {ε σ α β : Type}

/-- Two steps succeed when the first one does and the second one does on its answer. -/
@[simp] theorem bind_eq_ok {x : EStateM ε σ α} {f : α → EStateM ε σ β} {s t : σ} {b : β} :
    (x >>= f) s = .ok b t ↔ ∃ a u, x s = .ok a u ∧ f a u = .ok b t := by
  simp only [bind, EStateM.bind]
  cases hx : x s with
  | ok a u =>
    constructor
    · intro h
      exact ⟨a, u, rfl, h⟩
    · rintro ⟨a', u', he, h⟩
      cases he
      exact h
  | error e u => simp

/-- Two steps are refused when the first one is, or the second one on its answer. -/
theorem bind_eq_error {x : EStateM ε σ α} {f : α → EStateM ε σ β} {s t : σ} {e : ε} :
    (x >>= f) s = .error e t ↔
      x s = .error e t ∨ ∃ a u, x s = .ok a u ∧ f a u = .error e t := by
  simp only [bind, EStateM.bind]
  cases hx : x s with
  | ok a u =>
    constructor
    · intro h
      exact .inr ⟨a, u, rfl, h⟩
    · rintro (he | ⟨a', u', he, h⟩)
      · cases he
      · cases he
        exact h
  | error e u => simp

/-- After a successful step the next one is left to do. -/
theorem bind_of_ok {x : EStateM ε σ α} {f : α → EStateM ε σ β} {s t : σ} {a : α}
    (h : x s = .ok a t) : (x >>= f) s = f a t := by
  simp only [bind, EStateM.bind, h]

/-- Looking at the state does nothing. -/
theorem get_bind {f : σ → EStateM ε σ β} {s : σ} : (get >>= f) s = f s s := rfl

@[simp] theorem pure_eq_ok {s t : σ} {a b : α} :
    (pure a : EStateM ε σ α) s = .ok b t ↔ a = b ∧ s = t := by
  simp [pure, EStateM.pure]

@[simp] theorem get_eq_ok {s t u : σ} :
    (get : EStateM ε σ σ) s = .ok u t ↔ s = u ∧ s = t := by
  show Result.ok s s = .ok u t ↔ s = u ∧ s = t
  simp

@[simp] theorem set_eq_ok {s t u : σ} {a : PUnit} :
    (set u : EStateM ε σ PUnit) s = .ok a t ↔ u = t := by
  show Result.ok ⟨⟩ u = .ok a t ↔ u = t
  simp

@[simp] theorem modifyGet_eq_ok {f : σ → α × σ} {s t : σ} {a : α} :
    (modifyGet f : EStateM ε σ α) s = .ok a t ↔ f s = (a, t) := by
  show Result.ok (f s).1 (f s).2 = .ok a t ↔ f s = (a, t)
  rw [Result.ok.injEq, Prod.ext_iff]

@[simp] theorem modify_eq_ok {f : σ → σ} {s t : σ} {a : PUnit} :
    (modify f : EStateM ε σ PUnit) s = .ok a t ↔ f s = t := by
  show Result.ok ⟨⟩ (f s) = .ok a t ↔ f s = t
  simp

@[simp] theorem throw_ne_ok {e : ε} {s t : σ} {a : α} :
    (throw e : EStateM ε σ α) s ≠ .ok a t := fun h => by cases h

@[simp] theorem map_eq_ok {f : α → β} {x : EStateM ε σ α} {s t : σ} {b : β} :
    (f <$> x) s = .ok b t ↔ ∃ a, x s = .ok a t ∧ f a = b := by
  simp only [Functor.map, EStateM.map]
  cases x s <;> grind

/-- Renaming refusals changes no success. -/
@[simp] theorem adaptExcept_eq_ok {ε' : Type} {f : ε → ε'} {x : EStateM ε σ α} {s t : σ} {a : α} :
    x.adaptExcept f s = .ok a t ↔ x s = .ok a t := by
  unfold EStateM.adaptExcept
  cases x s <;> simp

/-- A successful pass over a list keeps what each of its steps keeps. The fact may depend on the
part of the list that was passed. -/
theorem forM_induction {f : α → EStateM ε σ PUnit} {P : List α → σ → Prop} {l : List α} {s t : σ}
    (start : P [] s)
    (step : ∀ done a rest u v, l = done ++ a :: rest → P done u → f a u = .ok ⟨⟩ v →
      P (done ++ [a]) v)
    (h : l.forM f s = .ok ⟨⟩ t) : P l t := by
  suffices H : ∀ rest done u, l = done ++ rest → P done u → rest.forM f u = .ok ⟨⟩ t →
      P l t from H l [] s rfl start h
  intro rest
  induction rest with
  | nil =>
    intro done u hl hk hr
    simp only [List.forM, pure_eq_ok] at hr
    rw [← hr.2]
    simpa [hl] using hk
  | cons a rest ih =>
    intro done u hl hk hr
    simp only [List.forM, bind_eq_ok] at hr
    obtain ⟨_, v, ha, hr⟩ := hr
    exact ih (done ++ [a]) v (by simp [hl]) (step done a rest u v hl hk ha) hr

/-- A pass over a list succeeds if each of its steps does, given what the steps before it made true. -/
theorem forM_of_step {f : α → EStateM ε σ PUnit} {P : List α → σ → Prop} {l : List α} {s : σ}
    (start : P [] s)
    (step : ∀ done a rest u, l = done ++ a :: rest → P done u →
      ∃ v, f a u = .ok ⟨⟩ v ∧ P (done ++ [a]) v) :
    ∃ t, l.forM f s = .ok ⟨⟩ t ∧ P l t := by
  suffices H : ∀ rest done u, l = done ++ rest → P done u →
      ∃ t, rest.forM f u = .ok ⟨⟩ t ∧ P l t from H l [] s rfl start
  intro rest
  induction rest with
  | nil =>
    intro done u hl hk
    exact ⟨u, rfl, by simpa [hl] using hk⟩
  | cons a rest ih =>
    intro done u hl hk
    obtain ⟨v, ha, hv⟩ := step done a rest u hl hk
    obtain ⟨t, hrest, ht⟩ := ih (done ++ [a]) v (by simp [hl]) hv
    exact ⟨t, bind_eq_ok.mpr ⟨⟨⟩, v, ha, hrest⟩, ht⟩

/-- A successful pass over a list keeps what every step on a member keeps. -/
theorem forM_invariant {f : α → EStateM ε σ PUnit} {P : σ → Prop} {l : List α} {s t : σ}
    (start : P s) (step : ∀ a ∈ l, ∀ u v, P u → f a u = .ok ⟨⟩ v → P v)
    (h : l.forM f s = .ok ⟨⟩ t) : P t := by
  refine forM_induction (P := fun _ => P) start ?_ h
  intro done a rest u v hl hk ha
  exact step a (by simp [hl]) u v hk ha

/-- Steps that change nothing change nothing together. -/
theorem forM_eq_self {f : α → EStateM ε σ PUnit} {l : List α} {s : σ}
    (h : ∀ a ∈ l, f a s = .ok ⟨⟩ s) : l.forM f s = .ok ⟨⟩ s := by
  obtain ⟨t, hrun, rfl⟩ := forM_of_step (P := fun _ u => u = s) (f := f) (l := l) (s := s) rfl
    fun done a rest u hl hu => ⟨s, by rw [hu]; exact h a (by simp [hl]), rfl⟩
  exact hrun

/-- A pass over a list goes on by one more step. -/
theorem forM_concat {f : α → EStateM ε σ PUnit} {l : List α} {a : α} {s u t : σ}
    (hl : l.forM f s = .ok ⟨⟩ u) (ha : f a u = .ok ⟨⟩ t) : (l ++ [a]).forM f s = .ok ⟨⟩ t := by
  induction l generalizing s with
  | nil =>
    obtain rfl := (pure_eq_ok.mp hl).2
    exact bind_eq_ok.mpr ⟨⟨⟩, t, ha, rfl⟩
  | cons b l ih =>
    obtain ⟨_, v, hb, hl⟩ := bind_eq_ok.mp hl
    exact bind_eq_ok.mpr ⟨⟨⟩, v, hb, ih hl⟩

/-- A pass over two lists is a pass over one and then over the other. -/
theorem forM_append_eq_ok {f : α → EStateM ε σ PUnit} {l l' : List α} {s t : σ} :
    (l ++ l').forM f s = .ok ⟨⟩ t ↔ ∃ u, l.forM f s = .ok ⟨⟩ u ∧ l'.forM f u = .ok ⟨⟩ t := by
  induction l generalizing s with
  | nil =>
    constructor
    · intro h
      exact ⟨s, rfl, h⟩
    · rintro ⟨u, hu, h⟩
      obtain rfl := (pure_eq_ok.mp hu).2
      exact h
  | cons a l ih =>
    simp only [List.cons_append, List.forM, bind_eq_ok, ih]
    constructor
    · rintro ⟨b, v, ha, u, hl, h⟩
      exact ⟨u, ⟨b, v, ha, hl⟩, h⟩
    · rintro ⟨u, ⟨b, v, ha, hl⟩, h⟩
      exact ⟨b, v, ha, u, hl, h⟩

/-- A pass over a list is refused at the first step that is refused. -/
theorem forM_eq_error {f : α → EStateM ε σ PUnit} {l : List α} {s t : σ} {e : ε}
    (h : l.forM f s = .error e t) :
    ∃ done a rest u, l = done ++ a :: rest ∧ done.forM f s = .ok ⟨⟩ u ∧ f a u = .error e t := by
  induction l generalizing s with
  | nil => cases h
  | cons a l ih =>
    simp only [List.forM, bind, EStateM.bind] at h
    cases ha : f a s with
    | error e' u =>
      rw [ha] at h
      cases h
      exact ⟨[], a, l, s, rfl, rfl, ha⟩
    | ok b u =>
      rw [ha] at h
      obtain ⟨done, a', rest, v, rfl, hdone, hlast⟩ := ih h
      refine ⟨a :: done, a', rest, v, rfl, ?_, hlast⟩
      rw [List.forM]
      exact bind_eq_ok.mpr ⟨b, u, ha, hdone⟩

/-- A list of steps that each leave the state as it is. -/
theorem mapM_eq_map {f : α → EStateM ε σ β} {g : α → β} {l : List α} {s : σ}
    (h : ∀ a ∈ l, f a s = .ok (g a) s) : l.mapM f s = .ok (l.map g) s := by
  induction l with
  | nil =>
    rw [List.mapM_nil]
    rfl
  | cons a l ih =>
    have hl := ih fun a ha => h a (by simp [ha])
    rw [List.mapM_cons]
    exact bind_eq_ok.mpr ⟨g a, s, h a (by simp), bind_eq_ok.mpr ⟨l.map g, s, hl, rfl⟩⟩

/-- Successful steps with answers keep what each of them keeps. -/
theorem mapM_invariant {f : α → EStateM ε σ β} {P : σ → Prop} {l : List α} {bs : List β} {s t : σ}
    (start : P s) (step : ∀ a ∈ l, ∀ b u v, P u → f a u = .ok b v → P v)
    (h : l.mapM f s = .ok bs t) : P t := by
  induction l generalizing s bs with
  | nil =>
    rw [List.mapM_nil] at h
    rw [← (pure_eq_ok.mp h).2]
    exact start
  | cons a l ih =>
    rw [List.mapM_cons] at h
    obtain ⟨b, u, ha, h⟩ := bind_eq_ok.mp h
    obtain ⟨_, v, hl, h⟩ := bind_eq_ok.mp h
    obtain rfl := (pure_eq_ok.mp h).2
    exact ih (step a List.mem_cons_self b s u start ha)
      (fun a' ha' => step a' (List.mem_cons_of_mem _ ha')) hl

/-- Steps that leave the state as it is give the answers that they give there. -/
theorem mapM_eq_ok_of_same {f : α → EStateM ε σ β} (hf : ∀ a s b t, f a s = .ok b t → s = t)
    {l : List α} {bs : List β} {s t : σ} (h : l.mapM f s = .ok bs t) :
    s = t ∧ (∀ b ∈ bs, ∃ a ∈ l, f a s = .ok b s) ∧ ∀ a ∈ l, ∃ b ∈ bs, f a s = .ok b s := by
  induction l generalizing bs with
  | nil =>
    rw [List.mapM_nil] at h
    obtain ⟨rfl, rfl⟩ := pure_eq_ok.mp h
    exact ⟨rfl, by simp, by simp⟩
  | cons a l ih =>
    rw [List.mapM_cons] at h
    obtain ⟨b, u, ha, h⟩ := bind_eq_ok.mp h
    obtain ⟨bs, v, hl, h⟩ := bind_eq_ok.mp h
    obtain ⟨rfl, rfl⟩ := pure_eq_ok.mp h
    obtain rfl := hf a s b u ha
    obtain ⟨rfl, hanswers, hsteps⟩ := ih hl
    refine ⟨rfl, List.forall_mem_cons.mpr ⟨⟨a, List.mem_cons_self, ha⟩, fun c hc => ?_⟩,
      List.forall_mem_cons.mpr ⟨⟨b, List.mem_cons_self, ha⟩, fun c hc => ?_⟩⟩
    · obtain ⟨a', ha', hfa⟩ := hanswers c hc
      exact ⟨a', List.mem_cons_of_mem _ ha', hfa⟩
    · obtain ⟨b', hb', hfa⟩ := hsteps c hc
      exact ⟨b', List.mem_cons_of_mem _ hb', hfa⟩

/-- A successful fold keeps what each of its steps keeps of the state. -/
theorem foldlM_keeps {f : β → α → EStateM ε σ β} {P : σ → Prop} {l : List α} {b c : β} {s t : σ}
    (start : P s) (step : ∀ a ∈ l, ∀ b c u v, P u → f b a u = .ok c v → P v)
    (h : l.foldlM f b s = .ok c t) : P t := by
  induction l generalizing s b with
  | nil =>
    rw [List.foldlM_nil] at h
    rw [← (pure_eq_ok.mp h).2]
    exact start
  | cons a l ih =>
    rw [List.foldlM_cons] at h
    obtain ⟨d, u, ha, h⟩ := bind_eq_ok.mp h
    exact ih (step a List.mem_cons_self b d s u start ha)
      (fun a' ha' => step a' (List.mem_cons_of_mem _ ha')) h

/-- Two questions are answered when the first one is and the second one is on its answer. -/
@[simp] theorem except_bind_eq_ok {x : Except ε α} {f : α → Except ε β} {b : β} :
    (x >>= f) = .ok b ↔ ∃ a, x = .ok a ∧ f a = .ok b := by
  cases x <;> simp [bind, Except.bind]

@[simp] theorem except_pure_eq_ok {a b : α} : (pure a : Except ε α) = .ok b ↔ a = b := by
  simp [pure, Except.pure]

@[simp] theorem except_throw_ne_ok {e : ε} {a : α} : (throw e : Except ε α) ≠ .ok a := by
  simp [throw, throwThe, MonadExceptOf.throw]

/-- A check is passed when what it refuses does not hold. -/
theorem guard_eq_ok {c : Prop} [Decidable c] {e : ε} {f : PUnit → Except ε β} {b : β} :
    (if c then throw e >>= f else f ⟨⟩) = .ok b ↔ ¬c ∧ f ⟨⟩ = .ok b := by
  by_cases hc : c
  · simp [hc]
  · simp [hc]

@[simp] theorem mapError_ok (f : ε → σ) (a : α) : (Except.ok a).mapError f = .ok a := rfl

@[simp] theorem mapError_error (f : ε → σ) (e : ε) :
    (Except.error e : Except ε α).mapError f = .error (f e) := rfl

@[simp] theorem mapError_eq_ok {x : Except ε α} {f : ε → σ} {a : α} :
    x.mapError f = .ok a ↔ x = .ok a := by
  cases x <;> simp

/-- An answer to one of several questions was asked for. -/
theorem exists_of_mem_mapM {f : α → Except ε β} {l : List α} {bs : List β} (h : l.mapM f = .ok bs)
    {b : β} (hb : b ∈ bs) : ∃ a ∈ l, f a = .ok b := by
  induction l generalizing bs with
  | nil =>
    simp only [List.mapM_nil, except_pure_eq_ok] at h
    rw [← h] at hb
    exact absurd hb List.not_mem_nil
  | cons a l ih =>
    simp only [List.mapM_cons, except_bind_eq_ok, except_pure_eq_ok] at h
    obtain ⟨c, hc, cs, hcs, rfl⟩ := h
    rcases List.mem_cons.mp hb with rfl | hb
    · exact ⟨a, by simp, hc⟩
    · obtain ⟨a', ha', hfa⟩ := ih hcs hb
      exact ⟨a', by simp [ha'], hfa⟩

/-- Every one of several questions was answered. -/
theorem exists_mem_of_mapM {f : α → Except ε β} {l : List α} {bs : List β} (h : l.mapM f = .ok bs)
    {a : α} (ha : a ∈ l) : ∃ b ∈ bs, f a = .ok b := by
  induction l generalizing bs with
  | nil => cases ha
  | cons c l ih =>
    simp only [List.mapM_cons, except_bind_eq_ok, except_pure_eq_ok] at h
    obtain ⟨b, hb, bs, hbs, rfl⟩ := h
    rcases List.mem_cons.mp ha with rfl | ha
    · exact ⟨b, List.mem_cons_self, hb⟩
    · obtain ⟨b', hb', hfa⟩ := ih hbs ha
      exact ⟨b', List.mem_cons_of_mem _ hb', hfa⟩

/-- The answers to several questions are in their order. -/
theorem getElem?_of_mapM {f : α → Except ε β} {l : List α} {bs : List β} (h : l.mapM f = .ok bs)
    {k : Nat} {a : α} (ha : l[k]? = some a) : ∃ b, bs[k]? = some b ∧ f a = .ok b := by
  induction l generalizing bs k with
  | nil => simp at ha
  | cons c l ih =>
    simp only [List.mapM_cons, except_bind_eq_ok, except_pure_eq_ok] at h
    obtain ⟨b, hb, bs, hbs, rfl⟩ := h
    cases k with
    | zero =>
      cases ha
      exact ⟨b, rfl, hb⟩
    | succ k => exact ih hbs ha

/-- Several questions are answered when each of them is. -/
theorem exists_mapM {f : α → Except ε β} {l : List α} (h : ∀ a ∈ l, ∃ b, f a = .ok b) :
    ∃ bs, l.mapM f = .ok bs := by
  induction l with
  | nil => exact ⟨[], rfl⟩
  | cons a l ih =>
    obtain ⟨b, hb⟩ := h a List.mem_cons_self
    obtain ⟨bs, hbs⟩ := ih fun c hc => h c (List.mem_cons_of_mem _ hc)
    refine ⟨b :: bs, ?_⟩
    rw [List.mapM_cons]
    exact except_bind_eq_ok.mpr ⟨b, hb, except_bind_eq_ok.mpr ⟨bs, hbs, rfl⟩⟩

/-- Questions with the same answers one by one have the same answers together. -/
theorem mapM_eq_ok_congr {f g : α → Except ε β} {l : List α}
    (h : ∀ a ∈ l, ∀ b, f a = .ok b ↔ g a = .ok b) {bs : List β} :
    l.mapM f = .ok bs ↔ l.mapM g = .ok bs := by
  induction l generalizing bs with
  | nil => rfl
  | cons a l ih =>
    have ih : ∀ bs, l.mapM f = .ok bs ↔ l.mapM g = .ok bs := fun _ =>
      ih fun c hc => h c (List.mem_cons_of_mem _ hc)
    simp only [List.mapM_cons, except_bind_eq_ok, h a List.mem_cons_self, ih]

/-- A successful fold over a list keeps what each of its steps keeps. -/
theorem foldlM_invariant {f : β → α → Except ε β} {P : β → Prop} {l : List α} {b c : β}
    (start : P b) (step : ∀ a ∈ l, ∀ u v, P u → f u a = .ok v → P v)
    (h : l.foldlM f b = .ok c) : P c := by
  induction l generalizing b with
  | nil =>
    simp only [List.foldlM_nil, except_pure_eq_ok] at h
    exact h ▸ start
  | cons a l ih =>
    simp only [List.foldlM_cons, except_bind_eq_ok] at h
    obtain ⟨d, ha, h⟩ := h
    refine ih (step a (by simp) b d start ha) ?_ h
    intro a' ha'
    exact step a' (by simp [ha'])

/-- In a successful fold over a list, every member had its step. -/
theorem foldlM_step {f : β → α → Except ε β} {l : List α} {b c : β} {a : α}
    (ha : a ∈ l) (h : l.foldlM f b = .ok c) :
    ∃ before u v rest, l = before ++ a :: rest ∧ before.foldlM f b = .ok u ∧ f u a = .ok v ∧
      rest.foldlM f v = .ok c := by
  obtain ⟨before, rest, rfl⟩ := List.append_of_mem ha
  rw [List.foldlM_append] at h
  simp only [List.foldlM_cons, except_bind_eq_ok] at h
  obtain ⟨u, hu, v, hv, hc⟩ := h
  exact ⟨before, u, v, rest, rfl, hu, hv, hc⟩

end TensorKernel.Outcome
