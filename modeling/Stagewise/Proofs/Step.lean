import Mathlib.Tactic.Common
import Stagewise.Staging.Session

/-! Steps of staging: what a step keeps of the session, what it gives and how it may fail. One
rule for each way in which steps are put together. -/

set_option autoImplicit false

namespace Stagewise.Stage

variable {α β : Type} {I : Session → Prop} {E : Error → Prop}

/-- From a session with `I` the step gives a result with `P` and keeps `I`, or it fails with an
error in `E`. -/
def Yields (I : Session → Prop) (E : Error → Prop) (step : Stage α) (P : α → Prop) : Prop :=
  ∀ s, I s → match step s with
    | .ok a s' => P a ∧ I s'
    | .error e _ => E e

lemma Yields.pure {a : α} {P : α → Prop} (h : P a) : Yields I E (pure a) P :=
  fun _ hs => ⟨h, hs⟩

lemma Yields.mono {step : Stage α} {P Q : α → Prop} (h : Yields I E step P)
    (hpq : ∀ a, P a → Q a) : Yields I E step Q := by
  intro s hs
  have hstep := h s hs
  cases hr : step s with
  | ok a s' => rw [hr] at hstep; exact ⟨hpq a hstep.1, hstep.2⟩
  | error e s' => rw [hr] at hstep; exact hstep

lemma Yields.bind {step : Stage α} {next : α → Stage β} {P : α → Prop} {Q : β → Prop}
    (h : Yields I E step P) (hnext : ∀ a, P a → Yields I E (next a) Q) :
    Yields I E (step >>= next) Q := by
  intro s hs
  have hstep := h s hs
  change match EStateM.bind step next s with
    | .ok a s' => Q a ∧ I s'
    | .error e _ => E e
  unfold EStateM.bind
  cases hr : step s with
  | ok a s' => rw [hr] at hstep; exact hnext a hstep.1 s' hstep.2
  | error e s' => rw [hr] at hstep; exact hstep

lemma Yields.map {step : Stage α} {f : α → β} {P : α → Prop} {Q : β → Prop}
    (h : Yields I E step P) (hf : ∀ a, P a → Q (f a)) : Yields I E (f <$> step) Q :=
  h.bind fun a ha => .pure (hf a ha)

lemma Yields.lift {outcome : Outcome α} {P : α → Prop} (hok : ∀ a, outcome = .ok a → P a)
    (herr : ∀ e, outcome = .error e → E e) : Yields I E (lift outcome) P := by
  cases outcome with
  | ok a => exact .pure (hok a rfl)
  | error e => exact fun _ _ => herr e rfl

lemma Yields.lift_bind {outcome : Outcome α} {a : α} {next : α → Stage β} {P : β → Prop}
    (h : outcome = .ok a) (hnext : Yields I E (next a) P) :
    Yields I E (Stage.lift outcome >>= next) P := by
  subst h
  exact hnext

lemma Yields.mapError {step : Stage α} {f : Error → Error} {P : α → Prop}
    (h : Yields I E step P) (hf : ∀ e, E e → E (f e)) : Yields I E (step.mapError f) P := by
  intro s hs
  have hstep := h s hs
  unfold Stage.mapError
  cases hr : step s with
  | ok a s' => rw [hr] at hstep; exact hstep
  | error e s' => rw [hr] at hstep; exact hf e hstep

lemma Yields.get_bind {next : Session → Stage α} {P : α → Prop}
    (h : ∀ s, I s → Yields I E (next s) P) : Yields I E (get >>= next) P :=
  fun s hs => h s hs s hs

lemma Yields.around {J : Session → Prop} {before after : Session → Session} {step : Stage α}
    {P : α → Prop} (hbefore : ∀ s, I s → J (before s)) (hafter : ∀ s, J s → I (after s))
    (h : Yields J E step P) : Yields I E (Stage.around before after step) P := by
  intro s hs
  have hstep := h (before s) (hbefore s hs)
  unfold Stage.around
  cases hr : step (before s) with
  | ok a s' => rw [hr] at hstep; exact ⟨hstep.1, hafter s' hstep.2⟩
  | error e s' => rw [hr] at hstep; exact hstep

lemma Yields.modifyGet {f : Session → α × Session} {P : α → Prop}
    (h : ∀ s, I s → P (f s).1 ∧ I (f s).2) : Yields I E (modifyGet f) P :=
  fun s hs => h s hs

end Stagewise.Stage
