import PlayXv6.Vm.Calls

/-
  What walks of a page table find.

  Main declarations:
    * `PageTable.entryAt`
    * `translate_eq`
-/

namespace PlayXv6

namespace Vm

namespace PageTable

/- The entry a walk of the table finds for `va`. -/
def entryAt (pt : PageTable) (va : Nat) : Option Pte :=
  if pt.HasTables va then pt.pte.lookup (va / PGSIZE)
  else none

theorem entryAt_congr (pt : PageTable) {va va' : Nat} (hPage : va / PGSIZE = va' / PGSIZE) :
    pt.entryAt va = pt.entryAt va' := by
  have hLevel2 : levelIndex va 2 = levelIndex va' 2 := by
    simp only [levelIndex, PGSIZE] at *
    omega
  have hLevel1 : levelIndex va 1 = levelIndex va' 1 := by
    simp only [levelIndex, PGSIZE] at *
    omega
  have hMax : va < MAXVA ↔ va' < MAXVA := by
    simp only [PGSIZE, MAXVA] at *
    omega
  have hTables : pt.HasTables va ↔ pt.HasTables va' := by
    unfold HasTables
    rw [hLevel2, hLevel1, hMax]
  unfold entryAt
  exact if_congr hTables (by rw [hPage]) rfl

end PageTable

def State.tableOf (s : State) (pid : Nat) : Option PageTable :=
  ((s.procs.lookup pid).bind Proc.pagetable).bind fun root => s.tables.lookup root

theorem translate_eq {root va : Nat} (hMax : va < MAXVA) : translate root va =
      .op (.hasBranch root 2 (levelIndex va 2)) fun b₂ =>
        if b₂ then
          .op (.hasBranch root 1 (levelIndex va 1)) fun b₁ =>
            if b₁ then .op (.pteAt root (va / PGSIZE)) .ret
            else .ret none
        else
          .ret none := by
  unfold translate walk walkLevel
  rw [if_neg (Nat.not_le.mpr hMax)]
  simp only [Prog.bind_eq, Prog.lift_bind, Prog.pure_eq,
    Prog.op_bind, Prog.op.injEq, heq_eq_eq, true_and]
  funext b₂
  cases b₂ with
  | false => simp
  | true =>
    simp only [if_true, Prog.ret_bind, Prog.op_bind, Prog.op.injEq, heq_eq_eq, true_and]
    funext b₁
    cases b₁ with
    | false => simp
    | true => simp [Prog.lift]

theorem translate_eq_none {root va : Nat} (hMax : MAXVA ≤ va) : translate root va = .ret none := by
  unfold translate walk
  rw [if_pos hMax]
  rfl

end Vm

end PlayXv6
