import Mathlib

/-
  Queues sorted by a key, with ties in order of arrival.

  A new entry goes behind those whose key is not greater, and
  what is due is taken from the front.

  Main declarations:
    * `DueQueue.insert`, `DueQueue.drain`
    * `DueQueue.Stable`
-/

namespace DueQueue

variable {α K : Type} [LinearOrder K] {key : α → K} {x : α} {q l : List α} {now : K}

/- Insert at the point up to which no key is greater. -/
def insert (key : α → K) (x : α) (q : List α) : List α :=
  q.insertIdx (q.takeWhile fun e => key e ≤ key x).length x

/- Take entries from the front until one is not due. -/
def drain (key : α → K) (now : K) : List α → List α × List α
  | [] => ([], [])
  | e :: q =>
    if now < key e then ([], e :: q)
    else
      let (due, rest) := drain key now q
      (e :: due, rest)

/-
  `q` holds the entries of `l` sorted by their keys, and those
  with one key in the order in which `l` has them.
-/
structure Stable (key : α → K) (l q : List α) : Prop where
  sorted : q.Pairwise fun a b => key a ≤ key b
  same : ∀ k, q.filter (key · = k) = l.filter (key · = k)

theorem insert_cons (e : α) : insert key x (e :: q) =
    if key e ≤ key x then e :: insert key x q else x :: e :: q := by
  unfold insert
  split
  · rename_i hLe
    simp [hLe]
  · rename_i hLe
    simp [hLe]

/- Entries that carry more than the key go to the same places. -/
theorem map_insert {β : Type} (f : β → α) (b : β) (l : List β) :
    (insert (fun b => key (f b)) b l).map f = insert key (f b) (l.map f) := by
  unfold insert
  rw [List.map_insertIdx, List.takeWhile_map, List.length_map]
  rfl

theorem map_drain {β : Type} (f : β → α) (l : List β) : (drain (fun b => key (f b)) now l).2.map f =
    (drain key now (l.map f)).2 := by
  induction l with
  | nil => rfl
  | cons b l ih =>
    simp only [List.map_cons, drain]
    split
    · rfl
    · exact ih

theorem insert_perm : (insert key x q).Perm (x :: q) := by
  unfold insert
  exact List.perm_insertIdx _ _ (List.takeWhile_prefix _).length_le

theorem insert_sorted (hSorted : q.Pairwise fun a b => key a ≤ key b) :
    (insert key x q).Pairwise fun a b => key a ≤ key b := by
  induction q with
  | nil => exact List.pairwise_singleton _ _
  | cons e q ih =>
    rcases List.pairwise_cons.mp hSorted with ⟨hHead, hTail⟩
    rw [insert_cons]
    split
    · rename_i hLe
      refine List.pairwise_cons.mpr ⟨fun y hy => ?_, ih hTail⟩
      rcases List.mem_cons.mp (insert_perm.mem_iff.mp hy) with rfl | hOld
      · exact hLe
      · exact hHead y hOld
    · rename_i hLe
      have hLt := (not_le.mp hLe).le
      refine List.pairwise_cons.mpr ⟨fun y hy => ?_, hSorted⟩
      rcases List.mem_cons.mp hy with rfl | hOld
      · exact hLt
      · exact hLt.trans (hHead y hOld)

/- The new entry comes last among those with its key. -/
theorem filter_insert (hSorted : q.Pairwise fun a b => key a ≤ key b) (k : K) :
    (insert key x q).filter (key · = k) = q.filter (key · = k) ++ [x].filter (key · = k) := by
  induction q with
  | nil => rfl
  | cons e q ih =>
    rcases List.pairwise_cons.mp hSorted with ⟨hHead, hTail⟩
    rw [insert_cons]
    split
    · rw [List.filter_cons, ih hTail, List.filter_cons (x := e)]
      split <;> rfl
    · rename_i hLe
      by_cases hKey : key x = k
      · -- everything behind has a greater key
        have hNone : (e :: q).filter (key · = k) = [] := by
          refine List.filter_eq_nil_iff.mpr fun y hy => ?_
          have hLt : key x < key y := by
            rcases List.mem_cons.mp hy with rfl | hOld
            · exact not_le.mp hLe
            · exact (not_le.mp hLe).trans_le (hHead y hOld)
          simpa using (hKey ▸ hLt).ne'
        rw [List.filter_cons_of_pos (by simpa using hKey), hNone]
        simp [hKey]
      · rw [List.filter_cons_of_neg (by simpa using hKey)]
        simp [hKey]

/- What is due is taken and the rest is kept. -/
theorem drain_eq (hSorted : q.Pairwise fun a b => key a ≤ key b) :
    drain key now q = (q.filter (key · ≤ now), q.filter (now < key ·)) := by
  induction q with
  | nil => rfl
  | cons e q ih =>
    rcases List.pairwise_cons.mp hSorted with ⟨hHead, hTail⟩
    unfold drain
    split
    · rename_i hLt
      have hAll : ∀ y ∈ e :: q, now < key y := by
        intro y hy
        rcases List.mem_cons.mp hy with rfl | hOld
        · exact hLt
        · exact hLt.trans_le (hHead y hOld)
      rw [List.filter_eq_nil_iff.mpr (by simpa using hAll),
        List.filter_eq_self.mpr (by simpa using hAll)]
    · rename_i hLt
      rw [ih hTail]
      simp [not_lt.mp hLt, hLt]

/- Without order, what is taken is due and comes from the front. -/
theorem drain_spec (key : α → K) (now : K) (q : List α) :
    q = (drain key now q).1 ++ (drain key now q).2 ∧ ∀ e ∈ (drain key now q).1, key e ≤ now := by
  induction q with
  | nil => simp [drain]
  | cons e q ih =>
    unfold drain
    split
    · simp
    · rename_i hLt
      exact ⟨congrArg (e :: ·) ih.1, List.forall_mem_cons.mpr ⟨not_lt.mp hLt, ih.2⟩⟩

theorem Stable.insert (hStable : Stable key l q) (x : α) :
    Stable key (l ++ [x]) (DueQueue.insert key x q) where
  sorted := insert_sorted hStable.sorted
  same k := by rw [filter_insert hStable.sorted, hStable.same, List.filter_append]

theorem Stable.filter (hStable : Stable key l q) (p : K → Bool) :
    Stable key (l.filter fun e => p (key e)) (q.filter fun e => p (key e)) where
  sorted := hStable.sorted.filter _
  same k := by rw [List.filter_comm, hStable.same, List.filter_comm]

/- The entries that are due leave in their order. -/
theorem Stable.drain (hStable : Stable key l q) (now : K) :
    Stable key (l.filter (key · ≤ now)) (DueQueue.drain key now q).1 ∧
      Stable key (l.filter (now < key ·)) (DueQueue.drain key now q).2 := by
  rw [drain_eq hStable.sorted]
  exact ⟨hStable.filter (· ≤ now), hStable.filter (now < ·)⟩

end DueQueue
