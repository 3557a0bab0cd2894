import PlayXv6.Lib.Prog

/-
  Disk programs that can be cut short.

  A disk program reads and writes whole blocks.  Each write
  is atomic and writes reach the disk in the order they are
  issued, so every disk a crash can leave is the result of a
  prefix of the writes of the program.

  Main declarations:
    * `DiskProg`, `Disk`
    * `DiskProg.crashAfter_eq`
-/

/- A disk maps every block number to its contents. -/
abbrev Disk (B : Type) : Type := Nat → B

section Writes

variable {B : Type}

/- The disk after the given writes, first one first. -/
def applyWrites : List (Nat × B) → Disk B → Disk B
  | [], d => d
  | (b, v) :: ws, d => applyWrites ws (Function.update d b v)

@[simp] theorem applyWrites_nil (d : Disk B) : applyWrites [] d = d := rfl

@[simp] theorem applyWrites_cons (b : Nat) (v : B) (ws : List (Nat × B)) (d : Disk B) :
    applyWrites ((b, v) :: ws) d = applyWrites ws (Function.update d b v) := rfl

theorem applyWrites_append (ws ws' : List (Nat × B)) (d : Disk B) : applyWrites (ws ++ ws') d =
      applyWrites ws' (applyWrites ws d) := by
  induction ws generalizing d with
  | nil => rfl
  | cons w ws ih =>
    rcases w with ⟨b, v⟩
    simpa using ih (Function.update d b v)

theorem applyWrites_of_notMem {ws : List (Nat × B)} {d : Disk B} {b : Nat}
    (hNot : b ∉ ws.map Prod.fst) : applyWrites ws d b = d b := by
  induction ws generalizing d with
  | nil => rfl
  | cons w ws ih =>
    rcases w with ⟨b', v⟩
    simp only [List.map_cons, List.mem_cons, not_or] at hNot
    rw [applyWrites_cons, ih hNot.2, Function.update_of_ne hNot.1]

theorem applyWrites_of_mem {ws : List (Nat × B)} {d : Disk B} {b : Nat} {v : B}
    (hNodup : (ws.map Prod.fst).Nodup) (hMem : (b, v) ∈ ws) : applyWrites ws d b = v := by
  induction ws generalizing d with
  | nil => simp at hMem
  | cons w ws ih =>
    rcases w with ⟨b', v'⟩
    simp only [List.map_cons, List.nodup_cons] at hNodup
    rcases List.mem_cons.mp hMem with hHead | hTail
    · rcases Prod.mk.inj hHead with ⟨rfl, rfl⟩
      rw [applyWrites_cons, applyWrites_of_notMem hNodup.1, Function.update_self]
    · exact ih hNodup.2 hTail

/-
  Whatever prefix of the writes is applied, a block holds its
  old contents or something written to it.
-/
theorem applyWrites_old_or_written (ws : List (Nat × B)) (d : Disk B) (b : Nat) :
    applyWrites ws d b = d b ∨ (b, applyWrites ws d b) ∈ ws := by
  induction ws generalizing d with
  | nil => exact Or.inl rfl
  | cons w ws ih =>
    rcases w with ⟨b', v⟩
    rw [applyWrites_cons]
    rcases ih (Function.update d b' v) with hOld | hNew
    · by_cases hb : b = b'
      · subst hb
        right
        rw [hOld, Function.update_self]
        exact List.mem_cons_self
      · left
        rw [hOld, Function.update_of_ne hb]
    · exact Or.inr (List.mem_cons_of_mem _ hNew)

end Writes

inductive DiskOp (B : Type) : Type → Type where
  | read (b : Nat) : DiskOp B B
  | write (b : Nat) (v : B) : DiskOp B Unit

/- A program that reads and writes blocks. -/
abbrev DiskProg (B α : Type) : Type 1 := Prog (DiskOp B) α

namespace DiskProg

variable {B α β : Type}

/- The result and the disk of a complete run. -/
def eval : DiskProg B α → Disk B → α × Disk B
  | .ret a, d => (a, d)
  | .op (.read b) k, d => eval (k (d b)) d
  | .op (.write b v) k, d => eval (k ()) (Function.update d b v)

/- The writes a complete run issues, in order. -/
def writes : DiskProg B α → Disk B → List (Nat × B)
  | .ret _, _ => []
  | .op (.read b) k, d => writes (k (d b)) d
  | .op (.write b v) k, d => (b, v) :: writes (k ()) (Function.update d b v)

/- The disk when the run is cut after `w` writes. -/
def crashAfter : DiskProg B α → Nat → Disk B → Disk B
  | .ret _, _, d => d
  | .op (.read b) k, w, d => crashAfter (k (d b)) w d
  | .op (.write _ _) _, 0, d => d
  | .op (.write b v) k, w + 1, d => crashAfter (k ()) w (Function.update d b v)

/- A complete run leaves what its writes leave. -/
theorem eval_snd (p : DiskProg B α) (d : Disk B) : (eval p d).2 = applyWrites (writes p d) d := by
  induction p generalizing d with
  | ret a => rfl
  | op c k ih =>
    cases c with
    | read b => exact ih (d b) d
    | write b v => exact ih () (Function.update d b v)

/- A crash leaves what a prefix of the writes leaves. -/
theorem crashAfter_eq (p : DiskProg B α) (w : Nat) (d : Disk B) : crashAfter p w d =
      applyWrites ((writes p d).take w) d := by
  induction p generalizing w d with
  | ret a => simp [crashAfter, writes]
  | op c k ih =>
    cases c with
    | read b => exact ih (d b) w d
    | write b v =>
      cases w with
      | zero => rfl
      | succ w => exact ih () w (Function.update d b v)

theorem writes_bind (p : DiskProg B α) (f : α → DiskProg B β) (d : Disk B) : writes (p.bind f) d =
      writes p d ++ writes (f (eval p d).1) (eval p d).2 := by
  induction p generalizing d with
  | ret a => rfl
  | op c k ih =>
    cases c with
    | read b => exact ih (d b) d
    | write b v =>
      simp only [Prog.op_bind, writes, eval, List.cons_append, List.cons.injEq, true_and]
      exact ih () (Function.update d b v)

/-
  A loop whose body issues the single write `g x` from every
  disk satisfying `I`, and keeps `I`, issues those writes in
  order.
-/
theorem writes_forEach {δ : Type} {xs : List δ} {body : δ → DiskProg B Unit} {g : δ → Nat × B}
    {I : Disk B → Prop} (hBody : ∀ x ∈ xs, ∀ d, I d →
      writes (body x) d = [g x] ∧ I (eval (body x) d).2) {d : Disk B} (hInit : I d) :
    writes (Prog.forEach xs body) d = xs.map g := by
  induction xs generalizing d with
  | nil => rfl
  | cons x xs ih =>
    rcases hBody x List.mem_cons_self d hInit with ⟨hWrites, hKeep⟩
    have hRest := ih (fun y hy => hBody y (List.mem_cons_of_mem _ hy)) hKeep
    rw [Prog.forEach_cons, writes_bind, hWrites, hRest]
    rfl

end DiskProg
