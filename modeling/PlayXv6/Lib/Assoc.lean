import Mathlib

/-
  Totals over association lists.

  Every entry of an association list is worth something in a
  commutative monoid.  The total is the worth of one entry and
  that of the list without it, so an insertion exchanges one
  contribution.

  Main declarations:
    * `AList.total`
    * `AList.total_insert`
-/

namespace AList

variable {κ M : Type*} {β : κ → Type*} [AddCommMonoid M]

def total (f : ∀ k, β k → M) (l : AList β) : M := (l.entries.map fun e => f e.1 e.2).sum

@[simp] theorem total_empty (f : ∀ k, β k → M) : total f (∅ : AList β) = 0 := rfl

variable [DecidableEq κ]

theorem perm_of_lookup {l : AList β} {k : κ} {b : β k} (hLookup : l.lookup k = some b) :
    l.entries.Perm (⟨k, b⟩ :: (l.erase k).entries) := by
  have hMem : (⟨k, b⟩ : Sigma β) ∈ l.entries := AList.mem_lookup_iff.mp hLookup
  have hKey : k ∈ l.entries.keys := List.mem_keys_of_mem hMem
  rcases List.exists_of_kerase hKey with ⟨b', l₁, l₂, -, hSplit, hErase⟩
  have hSame : b' = b := by
    have hMem' : (⟨k, b'⟩ : Sigma β) ∈ l.entries := by
      rw [hSplit]
      simp
    have hLookup' := AList.mem_lookup_iff.mpr hMem'
    rw [Option.mem_def, hLookup] at hLookup'
    exact (Option.some.inj hLookup').symm
  subst hSame
  have hErased : (l.erase k).entries = l₁ ++ l₂ := hErase
  rw [hErased, hSplit]
  exact List.perm_middle

theorem total_of_lookup (f : ∀ k, β k → M) {l : AList β} {k : κ} {b : β k}
    (hLookup : l.lookup k = some b) : l.total f = f k b + (l.erase k).total f := by
  have hPerm := (perm_of_lookup hLookup).map fun e : Sigma β => f e.1 e.2
  exact hPerm.sum_eq.trans (List.sum_cons ..)

/- Only the entries that are there matter. -/
theorem total_congr {f g : ∀ k, β k → M} {l : AList β}
    (hEq : ∀ k b, l.lookup k = some b → f k b = g k b) : l.total f = l.total g := by
  unfold total
  congr 1
  apply List.map_congr_left
  intro e he
  exact hEq e.1 e.2 (AList.mem_lookup_iff.mpr he)

theorem total_erase_of_lookup_none (f : ∀ k, β k → M) {l : AList β} {k : κ}
    (hLookup : l.lookup k = none) : (l.erase k).total f = l.total f := by
  have hKey : k ∉ l.entries.keys := AList.lookup_eq_none.mp hLookup
  unfold total
  rw [show (l.erase k).entries = l.entries from List.kerase_of_notMem_keys hKey]

theorem total_insert (f : ∀ k, β k → M) (l : AList β) (k : κ) (b : β k) :
    (l.insert k b).total f = f k b + (l.erase k).total f := by
  unfold total
  rw [AList.entries_insert, List.map_cons, List.sum_cons]
  rfl

theorem total_insert_of_eq (f : ∀ k, β k → M) {l : AList β} {k : κ} {b b' : β k}
    (hLookup : l.lookup k = some b) (hEq : f k b' = f k b) :
    (l.insert k b').total f = l.total f := by rw [total_insert, hEq, ← total_of_lookup f hLookup]

theorem total_erase_le [PartialOrder M] [CanonicallyOrderedAdd M] (f : ∀ k, β k → M) (l : AList β)
    (k : κ) : (l.erase k).total f ≤ l.total f := by
  cases hLookup : l.lookup k with
  | none => exact (total_erase_of_lookup_none f hLookup).le
  | some b =>
    rw [total_of_lookup f hLookup]
    exact le_add_self

end AList
