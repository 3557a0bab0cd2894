import Mathlib

/-
  Tallies of weights over the entries of a table.

  A table maps indices to entries, and all but finitely many
  entries weigh nothing.  The total changes with an update of
  one entry by the difference of the weights.

  Main declarations:
    * `Tally`
    * `Tally.le_mul`
-/

/- The weights of the entries of `f` add up to `n`. -/
def Tally {ι α : Type*} (w : α → Nat) (f : ι → α) (n : Nat) : Prop :=
  ∃ S : Finset ι,
    (∀ i, i ∉ S → w (f i) = 0) ∧ ∑ i ∈ S, w (f i) = n

namespace Tally

variable {ι α : Type*} {w v : α → Nat} {f : ι → α} {n m : Nat}

theorem zero (hZero : ∀ i, w (f i) = 0) : Tally w f 0 := ⟨∅, fun i _ => hZero i, rfl⟩

/- The total may be taken over any larger finite set. -/
theorem sum_eq {S T : Finset ι} (hOut : ∀ i, i ∉ S → w (f i) = 0) (hSub : S ⊆ T) :
    ∑ i ∈ T, w (f i) = ∑ i ∈ S, w (f i) := (Finset.sum_subset hSub fun i _ hi => hOut i hi).symm

theorem weight_le (hTally : Tally w f n) (i : ι) : w (f i) ≤ n := by
  rcases hTally with ⟨S, hOut, hSum⟩
  by_cases hi : i ∈ S
  · rw [← hSum]
    exact Finset.single_le_sum (fun j _ => Nat.zero_le (w (f j))) hi
  · rw [hOut i hi]
    exact Nat.zero_le n

theorem congr (hTally : Tally w f n) (hEq : ∀ i, v (f i) = w (f i)) : Tally v f n := by
  rcases hTally with ⟨S, hOut, hSum⟩
  refine ⟨S, ?_, ?_⟩
  · intro i hi
    rw [hEq i]
    exact hOut i hi
  · rw [← hSum]
    exact Finset.sum_congr rfl fun i _ => hEq i

/- A positive tally has an entry that weighs something. -/
theorem exists_pos (hTally : Tally w f n) (hPos : 0 < n) : ∃ i, 0 < w (f i) := by
  rcases hTally with ⟨S, -, hSum⟩
  by_contra hNone
  have hZero : ∀ i ∈ S, w (f i) = 0 := by
    intro i _
    by_contra hNe
    exact hNone ⟨i, Nat.pos_of_ne_zero hNe⟩
  rw [Finset.sum_eq_zero hZero] at hSum
  omega

section Update

variable [DecidableEq ι]

/- Weights bounded entry by entry have bounded tallies. -/
theorem le_mul (hSmall : Tally v f m) (hLarge : Tally w f n) {k : Nat}
    (hLe : ∀ i, v (f i) ≤ k * w (f i)) : m ≤ k * n := by
  rcases hSmall with ⟨S, hOutS, hSumS⟩
  rcases hLarge with ⟨T, hOutT, hSumT⟩
  have hS := sum_eq hOutS (@Finset.subset_union_left _ _ S T)
  have hT := sum_eq hOutT (@Finset.subset_union_right _ _ S T)
  rw [← hSumS, ← hSumT, ← hS, ← hT, Finset.mul_sum]
  exact Finset.sum_le_sum fun i _ => hLe i

theorem update (hTally : Tally w f n) (i : ι) (a : α) :
    Tally w (Function.update f i a) (n - w (f i) + w a) := by
  rcases hTally with ⟨S, hOut, hSum⟩
  have hInsert := sum_eq hOut (Finset.subset_insert i S)
  have hOld : ∑ j ∈ (insert i S).erase i, w (f j) = n - w (f i) := by
    have hErase := Finset.add_sum_erase (insert i S) (fun j => w (f j)) (Finset.mem_insert_self i S)
    simp only [hInsert, hSum] at hErase
    omega
  refine ⟨insert i S, ?_, ?_⟩
  · intro j hj
    rcases not_or.mp (Finset.mem_insert.not.mp hj) with ⟨hNe, hNot⟩
    rw [Function.update_of_ne hNe]
    exact hOut j hNot
  · rw [← Finset.add_sum_erase _ _ (Finset.mem_insert_self i S), Function.update_self]
    have hSame : ∑ j ∈ (insert i S).erase i, w (Function.update f i a j) =
          ∑ j ∈ (insert i S).erase i, w (f j) := by
      apply Finset.sum_congr rfl
      intro j hj
      rw [Function.update_of_ne (Finset.ne_of_mem_erase hj)]
    rw [hSame, hOld]
    exact Nat.add_comm _ _

theorem update_of_eq (hTally : Tally w f n) {i : ι} {a : α} (hEq : w a = w (f i)) :
    Tally w (Function.update f i a) n := by
  have hNew := hTally.update i a
  rw [hEq, Nat.sub_add_cancel (hTally.weight_le i)] at hNew
  exact hNew

theorem two_weights_le (hTally : Tally w f n) {i j : ι} (hNe : i ≠ j) : w (f i) + w (f j) ≤ n := by
  rcases hTally with ⟨S, hOut, hSum⟩
  have hBig := sum_eq hOut ((Finset.subset_insert j S).trans (Finset.subset_insert i _))
  rw [hSum] at hBig
  have hPair : ({i, j} : Finset ι) ⊆ insert i (insert j S) := by
    intro k hk
    simp only [Finset.mem_insert, Finset.mem_singleton] at hk ⊢
    tauto
  have hTwo := Finset.sum_pair (f := fun k => w (f k)) hNe
  rw [← hBig, ← hTwo]
  exact Finset.sum_le_sum_of_subset hPair

end Update

end Tally
