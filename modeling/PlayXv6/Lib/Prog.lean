import Mathlib

/-
  Programs as trees of commands.

  A program either returns a value or issues one command and
  continues with its reply.  A command is what the program
  does without being interrupted; the points between commands
  are where other programs may run.

  Main declarations:
    * `Prog`
    * `Prog.All.run_invariant`
-/

-- Programs

/- A program over the commands `C`, where `C β` are the commands whose reply is a `β`. -/
inductive Prog (C : Type → Type) (α : Type) : Type 1 where
  | ret (a : α) : Prog C α
  | op {β : Type} (c : C β) (k : β → Prog C α) : Prog C α

namespace Prog

variable {C : Type → Type} {α β γ : Type}

/- Run `p`, then the program `f` makes of its result. -/
protected def bind (p : Prog C α) (f : α → Prog C β) : Prog C β :=
  match p with
  | .ret a => f a
  | .op c k => .op c fun b => (k b).bind f

def lift (c : C α) : Prog C α := .op c .ret

instance : Monad (Prog C) where
  pure := Prog.ret
  bind := Prog.bind

@[simp] theorem pure_eq (a : α) : (pure a : Prog C α) = .ret a := rfl

@[simp] theorem bind_eq (p : Prog C α) (f : α → Prog C β) : p >>= f = p.bind f := rfl

@[simp] theorem ret_bind (a : α) (f : α → Prog C β) : (Prog.ret a).bind f = f a := rfl

@[simp] theorem op_bind (c : C γ) (k : γ → Prog C α) (f : α → Prog C β) : (Prog.op c k).bind f =
      .op c fun b => (k b).bind f := rfl

@[simp] theorem lift_bind (c : C α) (f : α → Prog C β) : (lift c).bind f = .op c f := rfl

theorem bind_assoc (p : Prog C α) (f : α → Prog C β) (g : β → Prog C γ) :
    (p.bind f).bind g = p.bind fun a => (f a).bind g := by
  induction p with
  | ret a => rfl
  | op c k ih =>
    simp only [op_bind, Prog.op.injEq, heq_eq_eq, true_and]
    funext b
    exact ih b

/- Run the body once for every element, in order. -/
def forEach {δ : Type} : List δ → (δ → Prog C Unit) → Prog C Unit
  | [], _ => .ret ()
  | x :: xs, body => (body x).bind fun _ => forEach xs body

@[simp] theorem forEach_nil {δ : Type} (body : δ → Prog C Unit) : forEach [] body = .ret () := rfl

@[simp] theorem forEach_cons {δ : Type} (x : δ) (xs : List δ) (body : δ → Prog C Unit) :
    forEach (x :: xs) body = (body x).bind fun _ => forEach xs body := rfl

/- Every command the program can issue satisfies `P`. -/
def All (P : ∀ {β : Type}, C β → Prop) : Prog C α → Prop
  | .ret _ => True
  | .op c k => P c ∧ ∀ b, All P (k b)

theorem All.bind {P : ∀ {β : Type}, C β → Prop} {p : Prog C α} {f : α → Prog C β} (hFirst : p.All P)
    (hThen : ∀ a, (f a).All P) : (p.bind f).All P := by
  induction p with
  | ret a => exact hThen a
  | op c k ih => exact ⟨hFirst.1, fun b => ih b (hFirst.2 b)⟩

theorem All.lift_bind {P : ∀ {β : Type}, C β → Prop} {c : C α} {f : α → Prog C β} (hFirst : P c)
    (hThen : ∀ a, (f a).All P) : (lift c >>= f).All P := ⟨hFirst, hThen⟩

theorem All.ite {P : ∀ {β : Type}, C β → Prop} {c : Prop} [Decidable c] {p q : Prog C α}
    (hThen : p.All P) (hElse : q.All P) : (if c then p else q).All P := by
  split
  · exact hThen
  · exact hElse

theorem All.mono {P Q : ∀ {β : Type}, C β → Prop} (hImp : ∀ {β : Type} (c : C β), P c → Q c)
    {p : Prog C α} (hAll : p.All P) : p.All Q := by
  induction p with
  | ret a => trivial
  | op c k ih => exact ⟨hImp c hAll.1, fun b => ih b (hAll.2 b)⟩

theorem All.forEach {P : ∀ {β : Type}, C β → Prop} {δ : Type} {body : δ → Prog C Unit}
    (hBody : ∀ x, (body x).All P) (xs : List δ) : (forEach xs body).All P := by
  induction xs with
  | nil => trivial
  | cons x xs ih => exact (hBody x).bind fun _ => ih

/- Every value the program can return satisfies `P`. -/
def Returns (P : α → Prop) : Prog C α → Prop
  | .ret a => P a
  | .op _ k => ∀ b, Returns P (k b)

theorem Returns.bind {P : α → Prop} {Q : β → Prop} {p : Prog C α} {f : α → Prog C β}
    (hFirst : p.Returns P) (hThen : ∀ a, P a → (f a).Returns Q) : (p >>= f).Returns Q := by
  induction p with
  | ret a => exact hThen a hFirst
  | op c k ih => exact fun b => ih b (hFirst b)

theorem Returns.ite {P : α → Prop} {c : Prop} [Decidable c] {p q : Prog C α} (hThen : p.Returns P)
    (hElse : q.Returns P) : (if c then p else q).Returns P := by
  split
  · exact hThen
  · exact hElse

theorem returns_true (p : Prog C α) : p.Returns fun _ => True := by
  induction p with
  | ret a => trivial
  | op c k ih => exact ih

end Prog

-- Uninterrupted Runs

/-
  What a command or a program does in a state: finish with a
  value, be unable to go on yet, or stop for good with an
  error.
-/
inductive Outcome (ε σ α : Type) : Type where
  | ok (a : α) (s : σ)
  | wait
  | panic (e : ε)

/- How the commands act on a state. -/
abbrev Handler (C : Type → Type) (ε σ : Type) : Type 1 := ∀ {β : Type}, C β → σ → Outcome ε σ β

namespace Outcome

variable {ε σ α β : Type}

def andThen (o : Outcome ε σ α) (f : α → σ → Outcome ε σ β) : Outcome ε σ β :=
  match o with
  | .ok a s => f a s
  | .wait => .wait
  | .panic e => .panic e

@[simp] theorem andThen_ok (a : α) (s : σ) (f : α → σ → Outcome ε σ β) :
    (Outcome.ok a s : Outcome ε σ α).andThen f = f a s :=
  rfl

theorem of_andThen_ok {o : Outcome ε σ α} {f : α → σ → Outcome ε σ β} {b : β} {s' : σ}
    (hOk : o.andThen f = .ok b s') : ∃ a s, o = .ok a s ∧ f a s = .ok b s' := by
  cases o with
  | ok a s => exact ⟨a, s, rfl, hOk⟩
  | wait | panic e => cases hOk

def check (o : Outcome ε σ α) (f : α → σ → Bool) : Bool :=
  match o with
  | .ok a s => f a s
  | .wait => false
  | .panic _ => false

theorem exists_of_check {o : Outcome ε σ α} {f : α → σ → Bool} (hCheck : o.check f = true) :
    ∃ a s, o = .ok a s ∧ f a s = true := by
  cases o with
  | ok a s => exact ⟨a, s, rfl, hCheck⟩
  | wait | panic e => simp [check] at hCheck

end Outcome

namespace Prog

variable {C : Type → Type} {ε σ α β : Type}

/- Run a program to its end with nothing in between. -/
def run (h : Handler C ε σ) : Prog C α → σ → Outcome ε σ α
  | .ret a, s => .ok a s
  | .op c k, s => (h c s).andThen fun b => run h (k b)

@[simp] theorem run_ret (h : Handler C ε σ) (a : α) (s : σ) : run h (.ret a) s = .ok a s := rfl

@[simp] theorem run_op (h : Handler C ε σ) (c : C β) (k : β → Prog C α) (s : σ) :
    run h (.op c k) s = (h c s).andThen fun b => run h (k b) := rfl

theorem run_bind (h : Handler C ε σ) (p : Prog C α) (f : α → Prog C β) (s : σ) :
    run h (p.bind f) s = (run h p s).andThen fun a => run h (f a) := by
  induction p generalizing s with
  | ret a => rfl
  | op c k ih =>
    simp only [op_bind, run_op]
    cases hExec : h c s with
    | ok b s' => simpa using ih b s'
    | wait | panic e => rfl

/- Every command issued on the run from `s` satisfies `P` in the state it is issued in. -/
def Along (h : Handler C ε σ) (P : ∀ {β : Type}, σ → C β → Prop) : Prog C α → σ → Prop
  | .ret _, _ => True
  | .op c k, s =>
    P s c ∧ ∀ b s', h c s = .ok b s' → Along h P (k b) s'

theorem along_bind {h : Handler C ε σ} {P : ∀ {β : Type}, σ → C β → Prop} {p : Prog C α}
    {f : α → Prog C β} {s : σ} : Along h P (p.bind f) s ↔ Along h P p s ∧
        ∀ a s', run h p s = .ok a s' → Along h P (f a) s' := by
  induction p generalizing s with
  | ret a =>
    simp only [ret_bind, Along, run_ret, true_and]
    constructor
    · rintro hAlong a' s' ⟨⟩
      exact hAlong
    · intro hAlong
      exact hAlong a s rfl
  | op c k ih =>
    simp only [op_bind, Along, run_op]
    constructor
    · rintro ⟨hNow, hRest⟩
      refine ⟨⟨hNow, ?_⟩, ?_⟩
      · intro b s' hExec
        exact (ih b).mp (hRest b s' hExec) |>.1
      · intro a s'' hRun
        rcases Outcome.of_andThen_ok hRun with ⟨b, s', hExec, hRun⟩
        exact ((ih b).mp (hRest b s' hExec)).2 a s'' hRun
    · rintro ⟨⟨hNow, hFirst⟩, hThen⟩
      refine ⟨hNow, ?_⟩
      intro b s' hExec
      refine (ih b).mpr ⟨hFirst b s' hExec, ?_⟩
      intro a s'' hRun
      apply hThen a s''
      rw [hExec]
      exact hRun

/- What holds of every command holds of every issued one. -/
theorem All.along {h : Handler C ε σ} {P : ∀ {β : Type}, C β → Prop}
    {Q : ∀ {β : Type}, σ → C β → Prop} (hImp : ∀ {β : Type} (s : σ) (c : C β), P c → Q s c)
    {p : Prog C α} (hAll : p.All P) (s : σ) : Along h Q p s := by
  induction p generalizing s with
  | ret a => trivial
  | op c k ih =>
    exact ⟨hImp s c hAll.1, fun b s' _ => ih b (hAll.2 b) s'⟩

/- What every command of the program keeps, a run keeps. -/
theorem All.run_invariant {h : Handler C ε σ} {P : ∀ {β : Type}, C β → Prop} {I : σ → Prop}
    (hKeep : ∀ {β : Type} (c : C β) (s : σ) (b : β) (s' : σ), P c → h c s = .ok b s' → I s → I s')
    {p : Prog C α} (hAll : p.All P) {s s' : σ} {a : α} (hRun : run h p s = .ok a s') (hInit : I s) :
    I s' := by
  induction p generalizing s with
  | ret b =>
    cases hRun
    exact hInit
  | op c k ih =>
    rcases Outcome.of_andThen_ok hRun with ⟨b, m, hExec, hRun⟩
    exact ih b (hAll.2 b) hRun (hKeep c s b m hAll.1 hExec hInit)

/- A run returns a value the program can return. -/
theorem Returns.run {h : Handler C ε σ} {P : α → Prop} {p : Prog C α} (hReturns : p.Returns P)
    {s s' : σ} {a : α} (hRun : run h p s = .ok a s') : P a := by
  induction p generalizing s with
  | ret b =>
    cases hRun
    exact hReturns
  | op c k ih =>
    rcases Outcome.of_andThen_ok hRun with ⟨b, m, _, hRun⟩
    exact ih b (hReturns b) hRun

/- Go on after the first part of a sequence. -/
theorem run_then {h : Handler C ε σ} {p : Prog C α} {f : α → Prog C β} {s m : σ} {a : α}
    (hFirst : run h p s = .ok a m) : run h (p >>= f) s = run h (f a) m := by
  rw [bind_eq, run_bind, hFirst]
  rfl

/- A finished sequence went through a state in between. -/
theorem run_bind_ok {h : Handler C ε σ} {p : Prog C α} {f : α → Prog C β} {s s' : σ} {b : β}
    (hRun : run h (p >>= f) s = .ok b s') : ∃ a m, run h p s = .ok a m ∧
      run h (f a) m = .ok b s' := by
  rw [bind_eq, run_bind] at hRun
  exact Outcome.of_andThen_ok hRun

/- Test every command issued on the run from `s`. -/
def checkAlong (h : Handler C ε σ) (P : ∀ {β : Type}, σ → C β → Bool) : Prog C α → σ → Bool
  | .ret _, _ => true
  | .op c k, s =>
    P s c &&
      match h c s with
      | .ok b s' => checkAlong h P (k b) s'
      | .wait => true
      | .panic _ => true

theorem checkAlong_iff {h : Handler C ε σ} {P : ∀ {β : Type}, σ → C β → Bool} {p : Prog C α}
    {s : σ} : checkAlong h P p s = true ↔ Along h (fun s c => P s c = true) p s := by
  induction p generalizing s with
  | ret a => simp [checkAlong, Along]
  | op c k ih =>
    unfold checkAlong Along
    rw [Bool.and_eq_true]
    refine and_congr_right fun _ => ?_
    cases hExec : h c s with
    | ok b s' => simp [ih]
    | wait | panic e => simp

theorem Along.mono {h : Handler C ε σ} {P Q : ∀ {β : Type}, σ → C β → Prop}
    (hImp : ∀ {β : Type} (s : σ) (c : C β), P s c → Q s c) {p : Prog C α} {s : σ}
    (hAlong : Along h P p s) : Along h Q p s := by
  induction p generalizing s with
  | ret a => trivial
  | op c k ih =>
    exact ⟨hImp s c hAlong.1, fun b s' hExec => ih b (hAlong.2 b s' hExec)⟩

end Prog
