import PlayXv6.Lib.Embed
import PlayXv6.Lib.Pool

/-
  Programs that take notes.

  A note is a command that only appends to a history beside
  the state.  Notes never wait and never fail, so a pool of
  programs with notes has the runs of the pool without them,
  each with its history.

  Main declarations:
    * `Noted`, `Noted.record`
    * `Pool.reach_of_erase`
-/

/- A command, or a note; a note is answered with the value it carries. -/
inductive Noted (C : Type → Type) (E β : Type) : Type where
  | cmd (c : C β)
  | note (e : E) (b : β)

section Notes

variable {C : Type → Type} {E ε σ α β : Type}

/- Handle the commands and append the notes. -/
def Noted.record (h : Handler C ε σ) {β : Type} : Noted C E β → σ × List E →
      Outcome ε (σ × List E) β
  | .cmd c, (s, hist) =>
    match h c s with
    | .ok b s' => .ok b (s', hist)
    | .wait => .wait
    | .panic e => .panic e
  | .note e b, (s, hist) => .ok b (s, hist ++ [e])

theorem Noted.record_cmd_ok {h : Handler C ε σ} {c : C β} {x x' : σ × List E} {b : β}
    (hExec : record h (.cmd c) x = .ok b x') : h c x.1 = .ok b x'.1 ∧ x'.2 = x.2 := by
  rcases x with ⟨s, hist⟩
  simp only [record] at hExec
  cases hCmd : h c s with
  | ok b' s' =>
    rw [hCmd] at hExec
    cases hExec
    exact ⟨rfl, rfl⟩
  | wait | panic e => simp [hCmd] at hExec

theorem Noted.record_of_ok {h : Handler C ε σ} {c : C β} {s s' : σ} {b : β} (hist : List E)
    (hExec : h c s = .ok b s') : record h (.cmd c) (s, hist) = .ok b (s', hist) := by
  simp [record, hExec]

namespace Prog

/- A program without notes among programs with notes. -/
def unnoted (p : Prog C α) : Prog (Noted C E) α := p.subst fun c => lift (.cmd c)

def note (e : E) : Prog (Noted C E) Unit := lift (.note e ())

/- A command is kept, a note is its own answer. -/
def dropNote {β : Type} : Noted C E β → Prog C β
  | .cmd c => lift c
  | .note _ b => .ret b

def erase (p : Prog (Noted C E) α) : Prog C α := p.subst dropNote

@[simp] theorem erase_ret (a : α) : (Prog.ret a : Prog (Noted C E) α).erase = .ret a := rfl

@[simp] theorem erase_cmd (c : C β) (k : β → Prog (Noted C E) α) : (Prog.op (.cmd c) k).erase =
      .op c fun b => (k b).erase := rfl

@[simp] theorem erase_note (e : E) (b : β) (k : β → Prog (Noted C E) α) :
    (Prog.op (.note e b) k).erase = (k b).erase := rfl

theorem erase_bind (p : Prog (Noted C E) α) (f : α → Prog (Noted C E) β) : (p.bind f).erase =
      p.erase.bind fun a => (f a).erase := subst_bind dropNote p f

theorem unnoted_bind (p : Prog C α) (f : α → Prog C β) : (unnoted (p.bind f) : Prog (Noted C E) β) =
      (unnoted p).bind fun a => unnoted (f a) := subst_bind _ p f

@[simp] theorem erase_unnoted (p : Prog C α) : (unnoted p : Prog (Noted C E) α).erase = p := by
  induction p with
  | ret a => rfl
  | op c k ih =>
    show Prog.op c _ = Prog.op c k
    congr 1
    funext b
    exact ih b

@[simp] theorem erase_of_note (e : E) : (note e : Prog (Noted C E) Unit).erase = .ret () := rfl

theorem ite_bind {c : Prop} [Decidable c] (p q : Prog C α) (f : α → Prog C β) :
    (if c then p else q).bind f = if c then p.bind f else q.bind f := by
  split <;> rfl

theorem erase_ite {c : Prop} [Decidable c] (p q : Prog (Noted C E) α) : (if c then p else q).erase =
      if c then p.erase else q.erase := by
  split <;> rfl

end Prog

-- Pools of Programs with Notes

namespace Pool

def erase (P : Pool (Noted C E) (σ × List E) α) : Pool C σ α where
  state := P.state.1
  tasks := fun t => (P.tasks t).map Prog.erase

variable {h : Handler C ε σ} {Start : Prog (Noted C E) α → Prop}

/- The programs to start, without their notes. -/
def Erased (Start : Prog (Noted C E) α → Prop) (p : Prog C α) : Prop := ∃ q, Start q ∧ q.erase = p

theorem erase_update (P : Pool (Noted C E) (σ × List E) α) (x : σ × List E) (t : Nat)
    (q : Option (Prog (Noted C E) α)) : erase
        { state := x
          tasks := Function.update P.tasks t q } =
      { state := x.1
        tasks := Function.update P.erase.tasks t (q.map Prog.erase) } := by
  unfold erase
  congr 1
  funext u
  by_cases hu : u = t
  · simp [hu]
  · simp [hu]

/- The program does not start with a note. -/
def Ready : Prog (Noted C E) α → Prop
  | .op (.note _ _) _ => False
  | _ => True

/- A task can write the notes it has pending. -/
theorem reach_ready (h : Handler C ε σ) (Start : Prog (Noted C E) α → Prop)
    {P : Pool (Noted C E) (σ × List E) α} {t : Nat} {q : Prog (Noted C E) α}
    (hTask : P.tasks t = some q) : ∃ hist q', q'.erase = q.erase ∧ Ready q' ∧
      Runs (Noted.record h) Start P
        { state := (P.state.1, hist)
          tasks := Function.update P.tasks t (some q') } := by
  induction q generalizing P with
  | ret a =>
    refine ⟨P.state.2, .ret a, rfl, trivial, ?_⟩
    rw [← hTask, Function.update_eq_self]
    exact .refl
  | @op γ c k ih =>
    cases c with
    | cmd c =>
      refine ⟨P.state.2, .op (.cmd c) k, rfl, trivial, ?_⟩
      rw [← hTask, Function.update_eq_self]
      exact .refl
    | note e b =>
      have hStep : Step (Noted.record h) Start (fun _ _ => True) (fun _ _ => False) P
          { state := (P.state.1, P.state.2 ++ [e])
            tasks := Function.update P.tasks t (some (k b)) } := .run hTask trivial rfl
      rcases ih b (P :=
          { state := (P.state.1, P.state.2 ++ [e])
            tasks := Function.update P.tasks t (some (k b)) }) (Function.update_self ..) with
        ⟨hist, q', hErase, hReady, hReach⟩
      refine ⟨hist, q', hErase, hReady, ?_⟩
      rw [Function.update_idem] at hReach
      exact .head hStep hReach

/- Every run is a run with notes, with the notes erased. -/
theorem reach_of_erase {P : Pool (Noted C E) (σ × List E) α} {R : Pool C σ α}
    (hReach : Runs h (Erased Start) P.erase R) : ∃ P', Runs (Noted.record h) Start P P' ∧
      P'.erase = R := by
  induction hReach with
  | refl => exact ⟨P, .refl, rfl⟩
  | tail _ hStep ih =>
    rcases ih with ⟨P₁, hReach, rfl⟩
    cases hStep with
    | @start t p hFree hp =>
      rcases hp with ⟨q, hq, rfl⟩
      have hNone : P₁.tasks t = none := by simpa [erase] using hFree
      exact ⟨_, hReach.tail (.start hNone hq), erase_update P₁ P₁.state t (some q)⟩
    | @run t β c k b s' hTask _ hExec =>
      rcases Option.map_eq_some_iff.mp hTask with ⟨q, hq, hErase⟩
      rcases reach_ready h Start hq with ⟨hist, q', hSame, hReady, hPending⟩
      rw [hErase] at hSame
      match q', hReady, hSame with
      | .op (.cmd c') k', _, hSame =>
        cases hSame
        refine ⟨_, (hReach.trans hPending).tail (.run (Function.update_self ..) trivial
          (Noted.record_of_ok hist hExec)), ?_⟩
        rw [Function.update_idem, erase_update]
        rfl
    | @finish t a hTask =>
      rcases Option.map_eq_some_iff.mp hTask with ⟨q, hq, hErase⟩
      rcases reach_ready h Start hq with ⟨hist, q', hSame, hReady, hPending⟩
      rw [hErase] at hSame
      match q', hReady, hSame with
      | .ret a', _, hSame =>
        refine ⟨_, (hReach.trans hPending).tail (.finish (Function.update_self ..)), ?_⟩
        rw [Function.update_idem]
        exact erase_update P₁ _ t none
    | env hEnv => exact hEnv.elim

end Pool

end Notes
