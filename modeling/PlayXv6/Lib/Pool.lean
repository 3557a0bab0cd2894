import PlayXv6.Lib.Logic

/-
  Pools of programs that run interleaved.

  The tasks of a pool share one state.  A step starts a new
  program, lets one task issue its next command, retires a
  task that has returned, or changes the state from outside.
  Every task carries a view of the part of the state it may
  rely on; a relation links the state to all the views.

  Main declarations:
    * `Pool`, `Pool.Reach`
    * `Pool.verified_reach`
-/

/- A shared state and the tasks running over it. -/
structure Pool (C : Type → Type) (σ α : Type) where
  state : σ
  tasks : Nat → Option (Prog C α)

namespace Pool

open Function

variable {C : Type → Type} {ε σ α V : Type}

section Steps

variable (h : Handler C ε σ) (Start : Prog C α → Prop) (Allow : ∀ {β : Type}, σ → C β → Prop)
variable (Env : σ → σ → Prop)

/- One step of a pool. A command is issued only from states in which `Allow` permits it. -/
inductive Step : Pool C σ α → Pool C σ α → Prop where
  | start {P : Pool C σ α} {t : Nat} {p : Prog C α} (hFree : P.tasks t = none) (hStart : Start p) :
      Step P { P with tasks := update P.tasks t (some p) }
  | run {P : Pool C σ α} {t : Nat} {β : Type} {c : C β} {k : β → Prog C α} {b : β} {s' : σ}
      (hTask : P.tasks t = some (.op c k)) (hAllow : Allow P.state c)
      (hExec : h c P.state = .ok b s') : Step P
        { state := s'
          tasks := update P.tasks t (some (k b)) }
  | finish {P : Pool C σ α} {t : Nat} {a : α} (hTask : P.tasks t = some (.ret a)) : Step P
        { P with tasks := update P.tasks t none }
  | env {P : Pool C σ α} {s' : σ} (hEnv : Env P.state s') : Step P { P with state := s' }

/- The pools reached by any number of steps. -/
def Reach : Pool C σ α → Pool C σ α → Prop := Relation.ReflTransGen (Step h Start Allow Env)

/- Every command may be issued; nothing comes from outside. -/
abbrev Runs : Pool C σ α → Pool C σ α → Prop := Reach h Start (fun _ _ => True) fun _ _ => False

end Steps

variable {h : Handler C ε σ} {Start : Prog C α → Prop}

/- A task may run to its end with nothing in between. -/
theorem runs_of_run (Start : Prog C α → Prop) {P : Pool C σ α} {t : Nat} {p : Prog C α} {a : α}
    {s' : σ} (hTask : P.tasks t = some p) (hRun : Prog.run h p P.state = .ok a s') : Runs h Start P
      { state := s'
        tasks := update P.tasks t none } := by
  induction p generalizing P with
  | ret b =>
    cases hRun
    exact .single (.finish hTask)
  | op c k ih =>
    rcases Outcome.of_andThen_ok hRun with ⟨b, m, hExec, hRun⟩
    have hRest := ih b (P :=
      { state := m
        tasks := update P.tasks t (some (k b)) }) (update_self ..) hRun
    rw [update_idem] at hRest
    exact .head (.run hTask trivial hExec) hRest

theorem runs_call {P : Pool C σ α} {t : Nat} {p : Prog C α} {a : α} {s' : σ}
    (hFree : P.tasks t = none) (hStart : Start p) (hRun : Prog.run h p P.state = .ok a s') :
    Runs h Start P { P with state := s' } := by
  have hRest := runs_of_run (h := h) Start (P :=
    { P with tasks := update P.tasks t (some p) }) (update_self ..) hRun
  rw [update_idem, ← hFree, update_eq_self] at hRest
  exact .head (.start hFree hStart) hRest

theorem Runs.mono {Start' : Prog C α → Prop} (hImp : ∀ p, Start p → Start' p) {P P' : Pool C σ α}
    (hRuns : Runs h Start P P') : Runs h Start' P P' := by
  induction hRuns with
  | refl => exact .refl
  | tail _ hStep ih =>
    refine ih.tail ?_
    cases hStep with
    | start hFree hp => exact .start hFree (hImp _ hp)
    | run hTask hAllow hExec => exact .run hTask hAllow hExec
    | finish hTask => exact .finish hTask
    | env hEnv => exact hEnv.elim

-- Verified Pools

/-
  The views fit the state, running tasks are verified from
  their views, and the views of the others are idle.
-/
def Verified (R : Rules C V) (Link : σ → (Nat → V) → Prop) (Idle : V → Prop)
    (P : Pool C σ α) : Prop :=
  ∃ views : Nat → V, Link P.state views ∧
    (∀ t, P.tasks t = none → Idle (views t)) ∧ ∀ t p, P.tasks t = some p →
      R.wp p (fun _ v => Idle v) (views t)

variable {Allow : ∀ {β : Type}, σ → C β → Prop}
variable {Env : σ → σ → Prop} {R : Rules C V} {Link : σ → (Nat → V) → Prop} {Idle : V → Prop}

variable (hCmd : ∀ {β : Type} (c : C β) (Q : β → V → Prop)
  (s : σ) (views : Nat → V) (t : Nat) (b : β) (s' : σ),
  Link s views → Allow s c → R.pre c Q (views t) → h c s = .ok b s' →
    ∃ v', Link s' (update views t v') ∧ Q b v')
variable (hStart : ∀ p v, Start p → Idle v → R.wp p (fun _ v' => Idle v') v)
variable (hEnv : ∀ s s' views, Link s views → Env s s' → Link s' views)

include hCmd hStart hEnv

/-
  If every command keeps the link and does to its task's view
  what its rule says, every step keeps the pool verified.
-/
theorem verified_step {P P' : Pool C σ α} (hStep : Step h Start Allow Env P P')
    (hVer : Verified R Link Idle P) : Verified R Link Idle P' := by
  rcases hVer with ⟨views, hLink, hIdle, hWp⟩
  cases hStep with
  | @start t p hFree hp =>
    refine ⟨views, hLink, ?_, ?_⟩
    · intro u hu
      by_cases hEq : u = t
      · simp [hEq] at hu
      · exact hIdle u (by simpa [hEq] using hu)
    · intro u q hu
      by_cases hEq : u = t
      · subst hEq
        have hq : p = q := by simpa using hu
        rw [← hq]
        exact hStart p _ hp (hIdle u hFree)
      · exact hWp u q (by simpa [hEq] using hu)
  | @run t β c k b s' hTask hAllow hExec =>
    have hPre := hWp t _ hTask
    rcases hCmd c _ _ views t b s' hLink hAllow hPre hExec with ⟨v', hLink', hRest⟩
    refine ⟨update views t v', hLink', ?_, ?_⟩
    · intro u hu
      by_cases hEq : u = t
      · simp [hEq] at hu
      · rw [update_of_ne hEq]
        exact hIdle u (by simpa [hEq] using hu)
    · intro u q hu
      by_cases hEq : u = t
      · subst hEq
        have hq : k b = q := by simpa using hu
        rw [update_self, ← hq]
        exact hRest
      · rw [update_of_ne hEq]
        exact hWp u q (by simpa [hEq] using hu)
  | @finish t a hTask =>
    refine ⟨views, hLink, ?_, ?_⟩
    · intro u hu
      by_cases hEq : u = t
      · rw [hEq]
        exact hWp t _ hTask
      · exact hIdle u (by simpa [hEq] using hu)
    · intro u q hu
      by_cases hEq : u = t
      · simp [hEq] at hu
      · exact hWp u q (by simpa [hEq] using hu)
  | env hStep => exact ⟨views, hEnv _ _ views hLink hStep, hIdle, hWp⟩

theorem verified_reach {P P' : Pool C σ α} (hReach : Reach h Start Allow Env P P')
    (hVer : Verified R Link Idle P) : Verified R Link Idle P' := by
  induction hReach with
  | refl => exact hVer
  | tail _ hStep ih => exact verified_step hCmd hStart hEnv hStep ih

end Pool
