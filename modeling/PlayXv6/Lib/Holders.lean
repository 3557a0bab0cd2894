import Mathlib

/-
  Things that are held by one holder at a time.

  Every holder has a list of things.  A thing is in at most
  one list, once, and the things that are held are the ones
  that are live.  The operations give a new thing to a
  holder, hand things from one holder to another, and take a
  thing away.

  Main declarations:
    * `Holders`
    * `Holders.transfer`
-/

/- The live things, each held once. -/
structure Holders {ι α : Type*} (h : ι → List α) (Live : α → Prop) : Prop where
  nodup : ∀ i, (h i).Nodup
  unique : ∀ i j a, a ∈ h i → a ∈ h j → i = j
  live : ∀ a, (∃ i, a ∈ h i) ↔ Live a

namespace Holders

variable {ι α : Type*} {h h' : ι → List α} {Live Live' : α → Prop} {i j : ι} {a : α}

theorem live_of_mem (hHold : Holders h Live) (hMem : a ∈ h i) : Live a :=
  (hHold.live a).mp ⟨i, hMem⟩

theorem perm (hHold : Holders h Live) (hPerm : ∀ i, (h' i).Perm (h i))
    (hLive : ∀ a, Live' a ↔ Live a) : Holders h' Live' where
  nodup i := (hPerm i).nodup_iff.mpr (hHold.nodup i)
  unique i j a hi hj := hHold.unique i j a ((hPerm i).mem_iff.mp hi) ((hPerm j).mem_iff.mp hj)
  live a := by
    rw [hLive, ← hHold.live]
    exact exists_congr fun i => (hPerm i).mem_iff

/- A holder gets a thing that was not live. -/
theorem insert (hHold : Holders h Live) (hNew : ¬Live a) (hAt : (h' i).Perm (a :: h i))
    (hElse : ∀ k, k ≠ i → h' k = h k) (hLive : ∀ b, Live' b ↔ b = a ∨ Live b) :
    Holders h' Live' := by
  have hMem : ∀ k b, b ∈ h' k ↔ b ∈ h k ∨ (b = a ∧ k = i) := by
    intro k b
    by_cases hk : k = i
    · subst hk
      rw [hAt.mem_iff, List.mem_cons]
      tauto
    · rw [hElse k hk]
      tauto
  have hOut : ∀ k, a ∉ h k := fun k hk =>
    hNew (hHold.live_of_mem hk)
  refine ⟨?_, ?_, ?_⟩
  · intro k
    by_cases hk : k = i
    · subst hk
      rw [hAt.nodup_iff, List.nodup_cons]
      exact ⟨hOut k, hHold.nodup k⟩
    · rw [hElse k hk]
      exact hHold.nodup k
  · intro k l b hk hl
    rw [hMem] at hk hl
    have hOld := hHold.unique k l b
    grind
  · intro b
    rw [hLive, ← hHold.live]
    simp only [hMem, exists_or, exists_eq_right, or_comm]

theorem transfer {l : List α} (hHold : Holders h Live) (hNe : i ≠ j)
    (hFrom : (h i).Perm (l ++ h' i)) (hTo : (h' j).Perm (l ++ h j))
    (hElse : ∀ k, k ≠ i → k ≠ j → h' k = h k) (hLive : ∀ b, Live' b ↔ Live b) :
    Holders h' Live' := by
  have hParts : l.Nodup ∧ (h' i).Nodup ∧ l.Disjoint (h' i) := by
    have hNodup := hFrom.nodup_iff.mp (hHold.nodup i)
    exact List.nodup_append'.mp hNodup
  have hOld : ∀ b ∈ l, b ∈ h i := fun b hb =>
    hFrom.mem_iff.mpr (List.mem_append_left _ hb)
  -- who holds a thing now held it, or got it from `i`
  have hMem : ∀ k b, b ∈ h' k → (b ∈ h k ∧ b ∉ l) ∨ (b ∈ l ∧ k = j) := by
    intro k b hb
    by_cases hk : k = j
    · subst hk
      rcases List.mem_append.mp (hTo.mem_iff.mp hb) with hl | hj
      · exact .inr ⟨hl, rfl⟩
      · refine .inl ⟨hj, fun hl => hNe ?_⟩
        exact hHold.unique _ _ b (hOld b hl) hj
    · by_cases hk' : k = i
      · subst hk'
        exact .inl ⟨hFrom.mem_iff.mpr (List.mem_append_right _ hb), fun hl => hParts.2.2 hl hb⟩
      · rw [hElse k hk' hk] at hb
        refine .inl ⟨hb, fun hl => hk' ?_⟩
        exact hHold.unique _ _ b hb (hOld b hl)
  have hBack : ∀ k b, b ∈ h k → ∃ k', b ∈ h' k' := by
    intro k b hb
    by_cases hk : k = j
    · subst hk
      exact ⟨k, hTo.mem_iff.mpr (List.mem_append_right _ hb)⟩
    · by_cases hk' : k = i
      · subst hk'
        rcases List.mem_append.mp (hFrom.mem_iff.mp hb) with hl | hi
        · exact ⟨j, hTo.mem_iff.mpr (List.mem_append_left _ hl)⟩
        · exact ⟨k, hi⟩
      · exact ⟨k, by rw [hElse k hk' hk]; exact hb⟩
  refine ⟨?_, ?_, ?_⟩
  · intro k
    by_cases hk : k = j
    · subst hk
      rw [hTo.nodup_iff, List.nodup_append']
      refine ⟨hParts.1, hHold.nodup k, ?_⟩
      intro b hl hj
      exact hNe (hHold.unique _ _ b (hOld b hl) hj)
    · by_cases hk' : k = i
      · subst hk'
        exact hParts.2.1
      · rw [hElse k hk' hk]
        exact hHold.nodup k
  · intro k k' b hk hk'
    grind [hMem k b hk, hMem k' b hk', hHold.unique k k' b]
  · intro b
    rw [hLive, ← hHold.live]
    constructor
    · rintro ⟨k, hk⟩
      rcases hMem k b hk with ⟨hk, _⟩ | ⟨hIn, _⟩
      · exact ⟨k, hk⟩
      · exact ⟨i, hOld b hIn⟩
    · rintro ⟨k, hk⟩
      exact hBack k b hk

theorem remove (hHold : Holders h Live) (hAt : (h i).Perm (a :: h' i))
    (hElse : ∀ k, k ≠ i → h' k = h k) (hLive : ∀ b, Live' b ↔ b ≠ a ∧ Live b) :
    Holders h' Live' := by
  have hNodup : a ∉ h' i ∧ (h' i).Nodup := List.nodup_cons.mp (hAt.nodup_iff.mp (hHold.nodup i))
  have hHad : a ∈ h i := hAt.mem_iff.mpr List.mem_cons_self
  have hMem : ∀ k b, b ∈ h' k ↔ b ∈ h k ∧ b ≠ a := by
    intro k b
    by_cases hk : k = i
    · subst hk
      rw [hAt.mem_iff, List.mem_cons]
      grind
    · rw [hElse k hk]
      grind [hHold.unique k i b]
  refine ⟨?_, ?_, ?_⟩
  · intro k
    by_cases hk : k = i
    · subst hk
      exact hNodup.2
    · rw [hElse k hk]
      exact hHold.nodup k
  · intro k l b hk hl
    exact hHold.unique k l b ((hMem k b).mp hk).1 ((hMem l b).mp hl).1
  · intro b
    rw [hLive, ← hHold.live]
    simp only [hMem, and_comm, exists_and_left]

end Holders

/- A holder of at most one thing takes up what nobody else holds. -/
theorem alone_update {ι α β : Type*} [DecidableEq ι] {f : α → Option β} {h : ι → α} {i : ι} {a : α}
    (hAlone : ∀ j k b, f (h j) = some b → f (h k) = some b → j = k)
    (hNew : ∀ j b, j ≠ i → f a = some b → f (h j) ≠ some b) (j k : ι) (b : β)
    (hj : f (Function.update h i a j) = some b) (hk : f (Function.update h i a k) = some b) :
    j = k := by
  have hOld := hAlone j k b
  rw [Function.update_apply] at hj hk
  grind
