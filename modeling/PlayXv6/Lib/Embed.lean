import PlayXv6.Lib.Prog

/-
  Programs of one set of commands inside another.

  Every command is replaced by a program over other commands,
  so a program over few becomes part of one over more.

  Main declarations:
    * `Prog.subst`
    * `Prog.Always.bind`
-/

namespace Prog

variable {C D : Type → Type} {ε σ τ α β : Type}

def subst (f : ∀ {β : Type}, D β → Prog C β) : Prog D α → Prog C α
  | .ret a => .ret a
  | .op c k => (f c).bind fun b => subst f (k b)

@[simp] theorem subst_ret (f : ∀ {β : Type}, D β → Prog C β) (a : α) :
    (Prog.ret a : Prog D α).subst f = .ret a := rfl

@[simp] theorem subst_op (f : ∀ {β : Type}, D β → Prog C β) (c : D β) (k : β → Prog D α) :
    (Prog.op c k).subst f = (f c).bind fun b => (k b).subst f := rfl

theorem subst_bind (f : ∀ {β : Type}, D β → Prog C β) (p : Prog D α) (g : α → Prog D β) :
    (p.bind g).subst f = (p.subst f).bind fun a => (g a).subst f := by
  induction p with
  | ret a => rfl
  | op c k ih =>
    simp only [op_bind, subst_op, bind_assoc]
    congr 1
    funext b
    exact ih b

/- From every state, every command issued on the run satisfies `P` in the state it is issued in. -/
def Always (h : Handler C ε σ) (P : ∀ {β : Type}, σ → C β → Prop) (p : Prog C α) : Prop :=
  ∀ s, Along h P p s

namespace Always

variable {h : Handler C ε σ} {P : ∀ {β : Type}, σ → C β → Prop}

theorem ret (a : α) : Always h P (.ret a : Prog C α) := fun _ => trivial

theorem op {c : C β} {k : β → Prog C α} (hNow : ∀ s, P s c) (hRest : ∀ b, Always h P (k b)) :
    Always h P (.op c k) := fun s => ⟨hNow s, fun b s' _ => hRest b s'⟩

theorem bind {p : Prog C α} {f : α → Prog C β} (hFirst : Always h P p)
    (hThen : ∀ a, Always h P (f a)) : Always h P (p.bind f) := fun s => along_bind.mpr
    ⟨hFirst s, fun a s' _ => hThen a s'⟩

theorem ite {c : Prop} [Decidable c] {p q : Prog C α} (hThen : Always h P p)
    (hElse : Always h P q) : Always h P (if c then p else q) := by
  split
  · exact hThen
  · exact hElse

end Always

end Prog
