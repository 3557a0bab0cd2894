import Mathlib

/-
  Machines whose actions are taken one at a time.

  A machine takes a state and an action to the next state, or
  to nothing where the action is not possible.  A run may
  choose any action at every step, so the actions of several
  parties are interleaved in every order.

  Main declarations:
    * `Machine.Reach`
    * `Machine.Reach.invariant`
-/

namespace Machine

universe u v

variable {σ : Type u} {A : Type v} {step : σ → A → Option σ} {Ok Ok' : σ → A → Prop}

/- The states reached from `s` by actions that `Ok` admits in the states they are taken in. -/
inductive Reach (step : σ → A → Option σ) (Ok : σ → A → Prop) (s : σ) : σ → Prop where
  | refl : Reach step Ok s s
  | next {m s' : σ} {a : A} (hReach : Reach step Ok s m) (hOk : Ok m a)
      (hStep : step m a = some s') : Reach step Ok s s'

/- What holds at the start and is kept by every admitted action holds in every state reached. -/
theorem Reach.invariant {I : σ → Prop} {s s' : σ} (hKeep : ∀ m a m', I m → Ok m a →
      step m a = some m' → I m') (hReach : Reach step Ok s s') (hInit : I s) : I s' := by
  induction hReach with
  | refl => exact hInit
  | next _ hOk hStep ih => exact hKeep _ _ _ ih hOk hStep

theorem Reach.mono {s s' : σ} (hImp : ∀ m a, Ok m a → Ok' m a) (hReach : Reach step Ok s s') :
    Reach step Ok' s s' := by
  induction hReach with
  | refl => exact .refl
  | next _ hOk hStep ih => exact .next ih (hImp _ _ hOk) hStep

theorem Reach.trans {s m s' : σ} (hFirst : Reach step Ok s m) (hThen : Reach step Ok m s') :
    Reach step Ok s s' := by
  induction hThen with
  | refl => exact hFirst
  | next _ hOk hStep ih => exact .next ih hOk hStep

/- If every action of one machine is matched by actions of another, so is every run. -/
theorem Reach.simulation {τ : Type u} {B : Type v} {step' : τ → B → Option τ}
    {Ok₂ : τ → B → Prop} {R : σ → τ → Prop} {s s' : σ} {t : τ}
    (hSim : ∀ {m n a m'}, R m n → Ok m a → step m a = some m' →
      ∃ n', Reach step' Ok₂ n n' ∧ R m' n') (hReach : Reach step Ok s s') (hStart : R s t) :
    ∃ t', Reach step' Ok₂ t t' ∧ R s' t' := by
  induction hReach with
  | refl => exact ⟨t, .refl, hStart⟩
  | next _ hOk hStep ih =>
    rcases ih with ⟨n, hRun, hRel⟩
    rcases hSim hRel hOk hStep with ⟨n', hMore, hRel'⟩
    exact ⟨n', hRun.trans hMore, hRel'⟩

/- Take the actions of a list, as far as `Ok` admits them. -/
def run (step : σ → A → Option σ) (Ok : σ → A → Prop) [∀ s a, Decidable (Ok s a)] :
    σ → List A → Option σ
  | s, [] => some s
  | s, a :: as =>
    if Ok s a then (step s a).bind fun m => run step Ok m as
    else none

theorem reach_of_run [∀ s a, Decidable (Ok s a)] {s s' : σ} {as : List A}
    (hRun : run step Ok s as = some s') : Reach step Ok s s' := by
  induction as generalizing s with
  | nil =>
    rw [run, Option.some.injEq] at hRun
    rw [hRun]
    exact .refl
  | cons a as ih =>
    unfold run at hRun
    split at hRun
    · rename_i hOk
      rcases Option.bind_eq_some_iff.mp hRun with ⟨m, hStep, hRest⟩
      exact Reach.trans (.next .refl hOk hStep) (ih hRest)
    · simp at hRun

/- Test the state that the actions of a list lead to. -/
theorem exists_reach [∀ s a, Decidable (Ok s a)] {s : σ} {as : List A} {p : σ → Bool}
    (hRun : (run step Ok s as).any p = true) : ∃ s', Reach step Ok s s' ∧ p s' = true := by
  rcases (Option.any_eq_true _ _).mp hRun with ⟨s', hSome, hTest⟩
  exact ⟨s', reach_of_run hSome, hTest⟩

end Machine
