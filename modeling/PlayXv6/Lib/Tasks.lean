import PlayXv6.Lib.Logic
import PlayXv6.Lib.Machine

/-
  Systems of numbered tasks that serve calls.

  An idle task may take up a call and then runs its program,
  one command at a time, interleaved with the other tasks; a
  command knows which task issues it.  Events change the state
  on behalf of an idle task.

  The proof rule keeps a ghost value next to the state.  A
  task's view is computed from the two, so a command may give
  a view to a task that was not known before.

  Main declarations:
    * `TaskSystem`
    * `TaskSystem.verified_reach`
-/

/-
  The programs of the calls, which calls a task may take up,
  how its commands act, and the events, each about one task.
-/
structure TaskSystem (C : Type → Type) (K E ε σ α : Type) where
  prog : K → Prog C α
  admits : σ → Nat → K → Bool
  exec : Nat → Handler C ε σ
  subject : E → Nat
  event : E → σ → Option σ

namespace TaskSystem

open Function Machine

/- The shared state and the programs still to be run. -/
structure Config (C : Type → Type) (σ α : Type) : Type 1 where
  state : σ
  running : Nat → Option (Prog C α)

inductive Act (K E : Type) where
  | call (t : Nat) (k : K)
  | step (t : Nat)
  | event (e : E)

variable {C : Type → Type} {K E ε σ α : Type}

/- One step: a call, a command, a return or an event. -/
def step (S : TaskSystem C K E ε σ α) (c : Config C σ α) : Act K E → Option (Config C σ α)
  | .call t k =>
    if (c.running t).isNone && S.admits c.state t k then
      some { c with running := update c.running t (some (S.prog k)) }
    else
      none
  | .step t =>
    match c.running t with
    | none => none
    | some (.ret _) =>
      some { c with running := update c.running t none }
    | some (.op cmd k) =>
      match S.exec t cmd c.state with
      | .ok b s =>
        some
          { state := s
            running := update c.running t (some (k b)) }
      | .wait => none
      | .panic _ => none
  | .event e =>
    if (c.running (S.subject e)).isNone then
      (S.event e c.state).map fun s => { c with state := s }
    else
      none

/- A condition on calls, as a condition on all steps. -/
def Meets (Cond : σ → Nat → K → Prop) (c : Config C σ α) : Act K E → Prop
  | .call t k => Cond c.state t k
  | .step _ => True
  | .event _ => True

/- Let task `t` run until it is idle. -/
def drive (S : TaskSystem C K E ε σ α) (t : Nat) : Nat → Config C σ α → Option (Config C σ α)
  | 0, _ => none
  | n + 1, c =>
    if (c.running t).isNone then some c
    else (S.step c (.step t)).bind (drive S t n)

/- Serve calls one after another, as far as `Cond` admits. -/
def serve (S : TaskSystem C K E ε σ α) (Cond : σ → Nat → K → Prop) [∀ s t k, Decidable (Cond s t k)]
    (fuel : Nat) : Config C σ α → List (Nat × K) → Option (Config C σ α)
  | c, [] => some c
  | c, (t, k) :: rest =>
    if Cond c.state t k then
      (S.step c (.call t k)).bind fun c' => (S.drive t fuel c').bind fun c'' =>
          serve S Cond fuel c'' rest
    else
      none

theorem reach_of_drive {S : TaskSystem C K E ε σ α} {Cond : σ → Nat → K → Prop} {t n : Nat}
    {c c' : Config C σ α} (hDrive : S.drive t n c = some c') :
    Reach S.step (Meets Cond) c c' := by
  induction n generalizing c with
  | zero => simp [drive] at hDrive
  | succ n ih =>
    unfold drive at hDrive
    split at hDrive
    · rw [Option.some.inj hDrive]
      exact .refl
    · rcases Option.bind_eq_some_iff.mp hDrive with ⟨m, hStep, hRest⟩
      have hFirst : Reach S.step (Meets Cond) c m :=
        .next (a := .step t) .refl trivial hStep
      exact hFirst.trans (ih hRest)

theorem reach_of_serve {S : TaskSystem C K E ε σ α} {Cond : σ → Nat → K → Prop}
    [∀ s t k, Decidable (Cond s t k)] {fuel : Nat} {c c' : Config C σ α} {calls : List (Nat × K)}
    (hServe : S.serve Cond fuel c calls = some c') : Reach S.step (Meets Cond) c c' := by
  induction calls generalizing c with
  | nil =>
    rw [serve, Option.some.injEq] at hServe
    rw [hServe]
    exact .refl
  | cons x rest ih =>
    rcases x with ⟨t, k⟩
    unfold serve at hServe
    split at hServe
    · rename_i hCond
      rcases Option.bind_eq_some_iff.mp hServe with ⟨m, hStep, hServe⟩
      rcases Option.bind_eq_some_iff.mp hServe with ⟨m', hDrive, hRest⟩
      have hFirst : Reach S.step (Meets Cond) c m :=
        .next (a := .call t k) .refl hCond hStep
      exact (hFirst.trans (reach_of_drive hDrive)).trans (ih hRest)
    · simp at hServe

/- A check of the state that a list of calls leads to. -/
theorem exists_reach_of_serve {S : TaskSystem C K E ε σ α} {Cond : σ → Nat → K → Prop}
    [∀ s t k, Decidable (Cond s t k)] {fuel : Nat} {c : Config C σ α} {calls : List (Nat × K)}
    {p : Config C σ α → Bool} (hCheck : (S.serve Cond fuel c calls).any p = true) :
    ∃ c', Reach S.step (Meets Cond) c c' ∧ p c' = true := by
  cases hServe : S.serve Cond fuel c calls with
  | none => simp [hServe] at hCheck
  | some c' =>
    refine ⟨c', reach_of_serve hServe, ?_⟩
    simpa [hServe] using hCheck

/- What every command and every event keeps holds in every state that is reached. -/
theorem state_invariant {S : TaskSystem C K E ε σ α} {Ok : Config C σ α → Act K E → Prop}
    {I : σ → Prop} (hCmd : ∀ {β : Type} (cmd : C β) {t : Nat} {s s' : σ} {b : β}, I s →
      S.exec t cmd s = .ok b s' → I s')
    (hEvent : ∀ {e : E} {s s' : σ}, I s → S.event e s = some s' → I s') {c c' : Config C σ α}
    (hReach : Reach S.step Ok c c') (hStart : I c.state) : I c'.state := by
  refine hReach.invariant (I := fun c => I c.state) ?_ hStart
  intro c a c' hI _ hStep
  cases a with
  | call t k =>
    rcases Option.ite_none_right_eq_some.mp hStep with ⟨-, ⟨⟩⟩
    exact hI
  | step t =>
    simp only [step] at hStep
    split at hStep
    · cases hStep
    · cases hStep
      exact hI
    · split at hStep
      · cases hStep
        exact hCmd _ hI ‹_›
      · cases hStep
      · cases hStep
  | event e =>
    rcases Option.ite_none_right_eq_some.mp hStep with ⟨-, hStep⟩
    rcases Option.map_eq_some_iff.mp hStep with ⟨s', hEv, rfl⟩
    exact hEvent hI hEv

-- Verified Systems

section Soundness

variable {G V : Type} (S : TaskSystem C K E ε σ α) (R : Rules C V) (view : σ → G → Nat → V)
variable (Link : σ → G → Prop) (Known : σ → Nat → Prop) (Idle : V → Prop)
variable (Cond : σ → Nat → K → Prop)

/-
  The ghost after a step of task `t`: the known tasks other
  than `t` keep their views, and a task that becomes known is
  idle.
-/
def Follows (s : σ) (g : G) (t : Nat) (s' : σ) (g' : G) : Prop :=
  Link s' g' ∧ (∀ u, Known s u → Known s' u) ∧ ∀ u, u ≠ t → view s' g' u = view s g u ∨
      (¬ Known s u ∧ Idle (view s' g' u))

/- What has to be shown of the parts of a system. -/
structure Sound : Prop where
  cmd : ∀ {β : Type} (c : C β) (Q : β → V → Prop) {s s' : σ} {g : G} {t : Nat} {b : β},
    Link s g → Known s t → R.pre c Q (view s g t) → S.exec t c s = .ok b s' →
        ∃ g', Follows view Link Known Idle s g t s' g' ∧ Q b (view s' g' t)
  known : ∀ {s g t k}, Link s g → S.admits s t k = true → Known s t
  call : ∀ {s g t k}, Link s g → Idle (view s g t) → S.admits s t k = true → Cond s t k →
      R.wp (S.prog k) (fun _ v => Idle v) (view s g t)
  event : ∀ {s s' g e}, Link s g → Idle (view s g (S.subject e)) → S.event e s = some s' →
      ∃ g', Follows view Link Known Idle s g (S.subject e) s' g' ∧ Idle (view s' g' (S.subject e))

/- Idle tasks have idle views, and what a running task has still to do is verified from its view. -/
def Verified (c : Config C σ α) : Prop :=
  ∃ g, Link c.state g ∧
    (∀ t, c.running t = none → Idle (view c.state g t)) ∧
    ∀ t p, c.running t = some p → Known c.state t ∧ R.wp p (fun _ v => Idle v) (view c.state g t)

variable {S R view Link Known Idle Cond}

theorem others_verified {c : Config C σ α} {g g' : G} {s' : σ} {t : Nat}
    (hIdle : ∀ u, c.running u = none → Idle (view c.state g u))
    (hRun : ∀ u p, c.running u = some p → Known c.state u ∧
      R.wp p (fun _ v => Idle v) (view c.state g u)) (hFollows :
      Follows view Link Known Idle c.state g t s' g') {u : Nat} (hNe : u ≠ t) :
    (c.running u = none → Idle (view s' g' u)) ∧ ∀ p, c.running u = some p → Known s' u ∧
        R.wp p (fun _ v => Idle v) (view s' g' u) := by
  rcases hFollows with ⟨-, hKnown, hViews⟩
  rcases hViews u hNe with hSame | ⟨hNew, hIdle'⟩
  · rw [hSame]
    refine ⟨hIdle u, ?_⟩
    intro p hp
    exact ⟨hKnown u (hRun u p hp).1, (hRun u p hp).2⟩
  · refine ⟨fun _ => hIdle', ?_⟩
    intro p hp
    exact absurd (hRun u p hp).1 hNew

theorem verified_step (hSound : Sound S R view Link Known Idle Cond) {c c' : Config C σ α}
    {a : Act K E} (hVer : Verified R view Link Known Idle c) (hMeets : Meets Cond c a)
    (hStep : S.step c a = some c') : Verified R view Link Known Idle c' := by
  rcases hVer with ⟨g, hLink, hIdle, hRun⟩
  cases a with
  | call t k =>
    simp only [step, Option.ite_none_right_eq_some, Bool.and_eq_true, Option.isNone_iff_eq_none,
      Option.some.injEq] at hStep
    rcases hStep with ⟨⟨hNone, hAdmits⟩, rfl⟩
    refine ⟨g, hLink, ?_, ?_⟩
    · intro u hu
      by_cases hEq : u = t
      · simp [hEq] at hu
      · exact hIdle u (by simpa [hEq] using hu)
    · intro u p hu
      by_cases hEq : u = t
      · subst hEq
        have hp : S.prog k = p := by simpa using hu
        rw [← hp]
        exact ⟨hSound.known hLink hAdmits, hSound.call hLink (hIdle u hNone) hAdmits hMeets⟩
      · exact hRun u p (by simpa [hEq] using hu)
  | step t =>
    simp only [step] at hStep
    cases hTask : c.running t with
    | none => simp [hTask] at hStep
    | some p =>
      rw [hTask] at hStep
      have hWp := hRun t p hTask
      cases p with
      | ret r =>
        simp only [Option.some.injEq] at hStep
        subst hStep
        refine ⟨g, hLink, ?_, ?_⟩
        · intro u hu
          by_cases hEq : u = t
          · rw [hEq]
            exact hWp.2
          · exact hIdle u (by simpa [hEq] using hu)
        · intro u q hu
          by_cases hEq : u = t
          · simp [hEq] at hu
          · exact hRun u q (by simpa [hEq] using hu)
      | op cmd k =>
        dsimp only at hStep
        cases hExec : S.exec t cmd c.state with
        | wait | panic e => simp [hExec] at hStep
        | ok b s' =>
          simp only [hExec, Option.some.injEq] at hStep
          subst hStep
          rcases hSound.cmd cmd _ hLink hWp.1 hWp.2 hExec with ⟨g', hFollows, hRest⟩
          refine ⟨g', hFollows.1, ?_, ?_⟩
          · intro u hu
            by_cases hEq : u = t
            · simp [hEq] at hu
            · exact (others_verified hIdle hRun hFollows hEq).1 (by simpa [hEq] using hu)
          · intro u q hu
            by_cases hEq : u = t
            · subst hEq
              have hq : k b = q := by simpa using hu
              rw [← hq]
              exact ⟨hFollows.2.1 u hWp.1, hRest⟩
            · exact (others_verified hIdle hRun hFollows hEq).2 q (by simpa [hEq] using hu)
  | event e =>
    simp only [step, Option.ite_none_right_eq_some,
      Option.isNone_iff_eq_none, Option.map_eq_some_iff] at hStep
    rcases hStep with ⟨hNone, s', hEvent, rfl⟩
    rcases hSound.event hLink (hIdle _ hNone) hEvent with ⟨g', hFollows, hIdle'⟩
    refine ⟨g', hFollows.1, ?_, ?_⟩
    · intro u hu
      by_cases hEq : u = S.subject e
      · rw [hEq]
        exact hIdle'
      · exact (others_verified hIdle hRun hFollows hEq).1 hu
    · intro u q hu
      by_cases hEq : u = S.subject e
      · rw [hEq, hNone] at hu
        simp at hu
      · exact (others_verified hIdle hRun hFollows hEq).2 q hu

theorem verified_reach (hSound : Sound S R view Link Known Idle Cond) {c c' : Config C σ α}
    (hReach : Reach S.step (Meets Cond) c c') (hVer : Verified R view Link Known Idle c) :
    Verified R view Link Known Idle c' := hReach.invariant (fun _ _ _ hInv hOk hStep =>
      verified_step hSound hInv hOk hStep) hVer

end Soundness

end TaskSystem
