import PlayXv6.Lib.Prog

/-
  Pre- and postconditions for programs.

  A set of rules says, for every command, what a view of the
  state must satisfy for the command to be safe and to
  establish a postcondition.  The rules extend to programs by
  recursion, and a handler that respects the rules runs every
  verified program to its postcondition.

  Main declarations:
    * `Rules`
    * `Rules.run_of_wp`
-/

/-
  For every command, the precondition under which it
  establishes a postcondition of its reply and the new view.
-/
structure Rules (C : Type → Type) (V : Type) where
  pre : ∀ {β : Type}, C β → (β → V → Prop) → V → Prop
  mono : ∀ {β : Type} (c : C β) {Q Q' : β → V → Prop}, (∀ b v, Q b v → Q' b v) →
      ∀ {v : V}, pre c Q v → pre c Q' v

namespace Rules

variable {C : Type → Type} {V : Type} {α β δ : Type}

/- The precondition of a program. -/
def wp (R : Rules C V) : Prog C α → (α → V → Prop) → V → Prop
  | .ret a, Q, v => Q a v
  | .op c k, Q, v => R.pre c (fun b v' => wp R (k b) Q v') v

variable {R : Rules C V} {v : V}

@[simp] theorem wp_ret {a : α} {Q : α → V → Prop} : R.wp (.ret a) Q v ↔ Q a v := Iff.rfl

@[simp] theorem wp_op {c : C β} {k : β → Prog C α} {Q : α → V → Prop} :
    R.wp (.op c k) Q v ↔ R.pre c (fun b v' => R.wp (k b) Q v') v := Iff.rfl

theorem wp_mono {p : Prog C α} {Q Q' : α → V → Prop} (hImp : ∀ a v, Q a v → Q' a v)
    (hWp : R.wp p Q v) : R.wp p Q' v := by
  induction p generalizing v with
  | ret a => exact hImp a v hWp
  | op c k ih => exact R.mono c (fun b v' hRest => ih b hRest) hWp

theorem wp_bind {p : Prog C α} {f : α → Prog C β} {Q : β → V → Prop} :
    R.wp (p.bind f) Q v ↔ R.wp p (fun a v' => R.wp (f a) Q v') v := by
  induction p generalizing v with
  | ret a => rfl
  | op c k ih =>
    simp only [Prog.op_bind, wp_op]
    constructor
    · exact R.mono c fun b v' => (ih b).mp
    · exact R.mono c fun b v' => (ih b).mpr

/- Verify the first program, then the rest from its result. -/
theorem wp_bind_of {p : Prog C α} {f : α → Prog C β} {P : α → V → Prop}
    {Q : β → V → Prop} (hFirst : R.wp p P v) (hThen : ∀ a v', P a v' → R.wp (f a) Q v') :
    R.wp (p.bind f) Q v := wp_bind.mpr (wp_mono hThen hFirst)

theorem wp_ite {c : Prop} [Decidable c] {p p' : Prog C α} {Q : α → V → Prop}
    (hThen : c → R.wp p Q v) (hElse : ¬ c → R.wp p' Q v) : R.wp (if c then p else p') Q v := by
  by_cases hc : c
  · rw [if_pos hc]
    exact hThen hc
  · rw [if_neg hc]
    exact hElse hc

/- A loop keeps a statement about the elements still to be visited. -/
theorem wp_forEach {body : δ → Prog C Unit} (I : List δ → V → Prop)
    (hStep : ∀ x xs v, I (x :: xs) v → R.wp (body x) (fun _ v' => I xs v') v) {xs : List δ}
    {Q : Unit → V → Prop} (hInit : I xs v) (hDone : ∀ v', I [] v' → Q () v') :
    R.wp (Prog.forEach xs body) Q v := by
  induction xs generalizing v with
  | nil => exact hDone v hInit
  | cons x xs ih =>
    rw [Prog.forEach_cons]
    exact wp_bind_of (hStep x xs v hInit) fun _ v' hRest => ih hRest

variable {ε σ : Type} {h : Handler C ε σ} {L : σ → V → Prop}

/-
  If the rules are sound for single commands, with `L`
  connecting states and views, a verified program finishes
  and establishes its postcondition.
-/
theorem run_of_wp (hStep : ∀ {β : Type} (c : C β) (Q : β → V → Prop)
      (s : σ) (v : V), L s v → R.pre c Q v → ∃ b s' v', h c s = .ok b s' ∧ L s' v' ∧ Q b v')
    {p : Prog C α} {Q : α → V → Prop} {s : σ} (hLink : L s v) (hWp : R.wp p Q v) :
    ∃ a s' v', Prog.run h p s = .ok a s' ∧ L s' v' ∧ Q a v' := by
  induction p generalizing s v with
  | ret a => exact ⟨a, s, v, rfl, hLink, hWp⟩
  | op c k ih =>
    rcases hStep c _ s v hLink hWp with ⟨b, s', v', hExec, hLink', hRest⟩
    rcases ih b hLink' hRest with ⟨a, s'', v'', hRun, hLink'', hPost⟩
    refine ⟨a, s'', v'', ?_, hLink'', hPost⟩
    rw [Prog.run_op, hExec]
    exact hRun

/-
  The same without a guarantee that the commands finish: if a
  verified program does finish, it has established its
  postcondition.
-/
theorem post_of_wp (hStep : ∀ {β : Type} (c : C β) (Q : β → V → Prop)
      (s : σ) (v : V), L s v → R.pre c Q v → ∀ b s', h c s = .ok b s' → ∃ v', L s' v' ∧ Q b v')
    {p : Prog C α} {Q : α → V → Prop} {s s' : σ} {a : α} (hLink : L s v) (hWp : R.wp p Q v)
    (hRun : Prog.run h p s = .ok a s') : ∃ v', L s' v' ∧ Q a v' := by
  induction p generalizing s v with
  | ret b =>
    cases hRun
    exact ⟨v, hLink, hWp⟩
  | op c k ih =>
    rcases Outcome.of_andThen_ok hRun with ⟨b, m, hExec, hRun⟩
    rcases hStep c _ s v hLink hWp b m hExec with ⟨v', hLink', hRest⟩
    exact ih b hLink' hRest hRun

end Rules
