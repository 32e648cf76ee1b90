import TensorKernel.Fault
import TensorKernel.Proofs.Outcome

/-!
# Reasons for refusals

A step is refused for the reasons for which its parts are refused. So whether a fault can come from a
pass is read off the pass itself, without looking at the states that it goes through.
-/

namespace TensorKernel

namespace Outcome

variable {ε ε' σ α β : Type} {P : ε → Prop}

/-- A question is answered, or refused for one of the given reasons. -/
def AnsweredUnless (P : ε → Prop) (x : Except ε α) : Prop := ∀ e, x = .error e → P e

namespace AnsweredUnless

theorem ok (a : α) : AnsweredUnless P (Except.ok a) := fun _ h => by cases h

theorem error {e : ε} (h : P e) : AnsweredUnless P (Except.error e : Except ε α) := fun _ he => by
  cases he
  exact h

theorem bind {x : Except ε α} {f : α → Except ε β} (hx : AnsweredUnless P x)
    (hf : ∀ a, AnsweredUnless P (f a)) : AnsweredUnless P (x >>= f) := by
  intro e h
  cases hxa : x with
  | error e' =>
    rw [hxa] at h
    cases h
    exact hx e hxa
  | ok a =>
    rw [hxa] at h
    exact hf a e h

theorem mono {Q : ε → Prop} {x : Except ε α} (hx : AnsweredUnless P x) (hPQ : ∀ e, P e → Q e) :
    AnsweredUnless Q x := fun e h => hPQ e (hx e h)

theorem map {f : α → β} {x : Except ε α} (hx : AnsweredUnless P x) : AnsweredUnless P (x.map f) := by
  intro e h
  cases hxa : x with
  | error e' =>
    rw [hxa] at h
    cases h
    exact hx e hxa
  | ok a =>
    rw [hxa] at h
    cases h

theorem mapError {Q : ε' → Prop} {g : ε → ε'} {x : Except ε α} (hx : AnsweredUnless (fun e => Q (g e)) x) :
    AnsweredUnless Q (x.mapError g) := by
  intro e h
  cases hxa : x with
  | error e' =>
    rw [hxa] at h
    cases h
    exact hx e' hxa
  | ok a =>
    rw [hxa] at h
    cases h

theorem foldlM {f : β → α → Except ε β} (hf : ∀ b a, AnsweredUnless P (f b a)) (l : List α) (b : β) :
    AnsweredUnless P (l.foldlM f b) := by
  induction l generalizing b with
  | nil => exact ok b
  | cons a l ih =>
    rw [List.foldlM_cons]
    exact (hf b a).bind ih

theorem mapM {f : α → Except ε β} (hf : ∀ a, AnsweredUnless P (f a)) (l : List α) :
    AnsweredUnless P (l.mapM f) := by
  induction l with
  | nil => exact ok []
  | cons a l ih =>
    rw [List.mapM_cons]
    exact (hf a).bind fun b => ih.bind fun bs => ok (b :: bs)

theorem forM {f : α → Except ε PUnit} (hf : ∀ a, AnsweredUnless P (f a)) (l : List α) :
    AnsweredUnless P (l.forM f) := by
  induction l with
  | nil => exact ok _
  | cons a l ih => exact (hf a).bind fun _ => ih

end AnsweredUnless

/-- From the state `s` a step is done, or refused for one of the given reasons. -/
def DoneUnlessAt (P : ε → Prop) (x : EStateM ε σ α) (s : σ) : Prop := ∀ e t, x s = .error e t → P e

namespace DoneUnlessAt

variable {s : σ}

theorem pure (a : α) : DoneUnlessAt P (Pure.pure a : EStateM ε σ α) s := fun _ _ h => by cases h

theorem modifyGet (f : σ → α × σ) : DoneUnlessAt P (MonadStateOf.modifyGet f : EStateM ε σ α) s := by
  intro e t h
  change EStateM.Result.ok (f s).1 (f s).2 = .error e t at h
  cases h

theorem throw {e : ε} (h : P e) : DoneUnlessAt P (MonadExcept.throw e : EStateM ε σ α) s := fun _ _ he => by
  cases he
  exact h

/-- The second step starts where the first one ends. -/
theorem bind {x : EStateM ε σ α} {f : α → EStateM ε σ β} (hx : DoneUnlessAt P x s)
    (hf : ∀ a t, x s = .ok a t → DoneUnlessAt P (f a) t) : DoneUnlessAt P (x >>= f) s := by
  intro e t h
  rcases bind_eq_error.mp h with h | ⟨a, u, hok, h⟩
  · exact hx e t h
  · exact hf a u hok e t h

theorem bind_get {f : σ → EStateM ε σ β} (h : DoneUnlessAt P (f s) s) :
    DoneUnlessAt P (MonadState.get >>= f) s := h

theorem map {f : α → β} {x : EStateM ε σ α} (hx : DoneUnlessAt P x s) : DoneUnlessAt P (f <$> x) s := by
  intro e t h
  simp only [Functor.map, EStateM.map] at h
  cases hxs : x s with
  | ok a u =>
    rw [hxs] at h
    cases h
  | error e' u =>
    rw [hxs] at h
    cases h
    exact hx e t hxs

theorem adaptExcept {Q : ε' → Prop} {g : ε → ε'} {x : EStateM ε σ α}
    (hx : DoneUnlessAt (fun e => Q (g e)) x s) : DoneUnlessAt Q (x.adaptExcept g) s := by
  intro e t h
  unfold EStateM.adaptExcept at h
  cases hxs : x s with
  | ok a u =>
    rw [hxs] at h
    cases h
  | error e' u =>
    rw [hxs] at h
    cases h
    exact hx e' t hxs

variable {I : σ → Prop}

/-- Steps that keep `I`, one after the other. -/
theorem mapM {f : α → EStateM ε σ β} (hf : ∀ a s, I s → DoneUnlessAt P (f a) s)
    (keeps : ∀ a b s t, I s → f a s = .ok b t → I t) (l : List α) (hs : I s) :
    DoneUnlessAt P (l.mapM f) s := by
  induction l generalizing s with
  | nil =>
    rw [List.mapM_nil]
    exact pure []
  | cons a l ih =>
    rw [List.mapM_cons]
    exact (hf a s hs).bind fun b t hok => (ih (keeps a b s t hs hok)).bind fun bs _ _ => pure (b :: bs)

theorem forM {f : α → EStateM ε σ PUnit} (hf : ∀ a s, I s → DoneUnlessAt P (f a) s)
    (keeps : ∀ a s t, I s → f a s = .ok ⟨⟩ t → I t) (l : List α) (hs : I s) :
    DoneUnlessAt P (l.forM f) s := by
  induction l generalizing s with
  | nil => exact pure _
  | cons a l ih => exact (hf a s hs).bind fun _ t hok => ih (keeps a s t hs hok)

end DoneUnlessAt

/-- From every state a step is done, or refused for one of the given reasons. -/
def DoneUnless (P : ε → Prop) (x : EStateM ε σ α) : Prop := ∀ s, DoneUnlessAt P x s

namespace DoneUnless

theorem pure (a : α) : DoneUnless P (Pure.pure a : EStateM ε σ α) := fun _ => .pure a

theorem get : DoneUnless P (MonadState.get : EStateM ε σ σ) := fun _ _ _ h => by cases h

theorem set (s : σ) : DoneUnless P (MonadStateOf.set s : EStateM ε σ PUnit) := fun _ _ _ h => by cases h

theorem modifyGet (f : σ → α × σ) : DoneUnless P (MonadStateOf.modifyGet f : EStateM ε σ α) :=
  fun _ => .modifyGet f

theorem modify (f : σ → σ) : DoneUnless P (modify f : EStateM ε σ PUnit) := modifyGet _

theorem throw {e : ε} (h : P e) : DoneUnless P (MonadExcept.throw e : EStateM ε σ α) := fun _ => .throw h

theorem bind {x : EStateM ε σ α} {f : α → EStateM ε σ β} (hx : DoneUnless P x)
    (hf : ∀ a, DoneUnless P (f a)) : DoneUnless P (x >>= f) :=
  fun s => (hx s).bind fun a t _ => hf a t

theorem adaptExcept {Q : ε' → Prop} {g : ε → ε'} {x : EStateM ε σ α}
    (hx : DoneUnless (fun e => Q (g e)) x) : DoneUnless Q (x.adaptExcept g) := fun s => (hx s).adaptExcept

theorem forM {f : α → EStateM ε σ PUnit} (hf : ∀ a, DoneUnless P (f a)) (l : List α) :
    DoneUnless P (l.forM f) :=
  fun _ => .forM (I := fun _ => True) (fun a s _ => hf a s) (fun _ _ _ _ _ => trivial) l trivial

theorem mapM {f : α → EStateM ε σ β} (hf : ∀ a, DoneUnless P (f a)) (l : List α) :
    DoneUnless P (l.mapM f) :=
  fun _ => .mapM (I := fun _ => True) (fun a s _ => hf a s) (fun _ _ _ _ _ _ => trivial) l trivial

theorem foldlM {f : β → α → EStateM ε σ β} (hf : ∀ b a, DoneUnless P (f b a)) (l : List α) (b : β) :
    DoneUnless P (l.foldlM f b) := by
  induction l generalizing b with
  | nil => exact pure b
  | cons a l ih =>
    rw [List.foldlM_cons]
    exact (hf b a).bind ih

end DoneUnless

end Outcome

/-- The faults that only linear scan gives. -/
def Fault.ofScan : Fault → Bool
  | .poolBank .. | .scanBank .. | .sameInterval .. => true
  | _ => false

/-- The faults of ports and live sets with registers that are not mapped. -/
def Fault.ofWriting : Fault → Bool
  | .portUnassigned .. | .liveUnassigned .. => true
  | _ => false

/-- The fault of a name that is in use already. -/
def Fault.ofNames : Fault → Bool
  | .duplicateName .. => true
  | _ => false

/-- The faults that other steps give than those that choose registers, write them, or put expressions
into the program. -/
def Fault.IsPlain (fault : Fault) : Prop :=
  fault.ofNames = false ∧ fault.ofScan = false ∧ fault.ofWriting = false

end TensorKernel
