import Mathlib

/-
  Tilings of an interval of addresses by consecutive tiles,
  each with a tag.

  Main declarations:
    * `Tile`, `Tiles`
    * `Tiles.pairwise`
-/

-- Tiles

structure Tile (κ : Type) where
  start : Nat
  size : Nat
  tag : κ

namespace Tile

variable {κ : Type}

def stop (t : Tile κ) : Nat := t.start + t.size

def range (t : Tile κ) : Set Nat := Set.Ico t.start t.stop

end Tile

/- The tiles lie one after the other from `lo` to `hi`. -/
def Tiles {κ : Type} (lo : Nat) : List (Tile κ) → Nat → Prop
  | [], hi => lo = hi
  | t :: ts, hi => t.start = lo ∧ 0 < t.size ∧ Tiles t.stop ts hi

section Tiles

variable {κ : Type} {lo hi : Nat} {ts us : List (Tile κ)}

theorem tiles_append : Tiles lo (ts ++ us) hi ↔ ∃ mid, Tiles lo ts mid ∧ Tiles mid us hi := by
  induction ts generalizing lo with
  | nil =>
    constructor
    · intro hTiles
      exact ⟨lo, rfl, hTiles⟩
    · rintro ⟨mid, hEq, hTiles⟩
      rw [show lo = mid from hEq]
      exact hTiles
  | cons t ts ih =>
    simp only [List.cons_append, Tiles]
    rw [ih]
    constructor
    · rintro ⟨hStart, hSize, mid, hFirst, hThen⟩
      exact ⟨mid, ⟨hStart, hSize, hFirst⟩, hThen⟩
    · rintro ⟨mid, ⟨hStart, hSize, hFirst⟩, hThen⟩
      exact ⟨hStart, hSize, mid, hFirst, hThen⟩

theorem Tiles.le (hTiles : Tiles lo ts hi) : lo ≤ hi := by
  induction ts generalizing lo with
  | nil => exact le_of_eq hTiles
  | cons t ts ih =>
    have hLe := ih hTiles.2.2
    have hStart := hTiles.1
    unfold Tile.stop at hLe
    omega

theorem Tiles.bounds {t : Tile κ} (hTiles : Tiles lo ts hi) (hMem : t ∈ ts) :
    lo ≤ t.start ∧ 0 < t.size ∧ t.stop ≤ hi := by
  induction ts generalizing lo with
  | nil => simp at hMem
  | cons u us ih =>
    rcases List.mem_cons.mp hMem with rfl | hMem
    · exact ⟨le_of_eq hTiles.1.symm, hTiles.2.1, hTiles.2.2.le⟩
    · rcases ih hTiles.2.2 hMem with ⟨hLo, hSize, hHi⟩
      have hStart := hTiles.1
      refine ⟨?_, hSize, hHi⟩
      unfold Tile.stop at hLo
      omega

/- A tile ends at or before the start of every later one. -/
theorem Tiles.pairwise (hTiles : Tiles lo ts hi) : ts.Pairwise fun t u => t.stop ≤ u.start := by
  induction ts generalizing lo with
  | nil => exact List.Pairwise.nil
  | cons t ts ih =>
    refine List.Pairwise.cons ?_ (ih hTiles.2.2)
    intro u hu
    exact (hTiles.2.2.bounds hu).1

/- Every address of the interval is in a tile. -/
theorem Tiles.exists_mem {x : Nat} (hTiles : Tiles lo ts hi) (hLo : lo ≤ x) (hHi : x < hi) :
    ∃ t ∈ ts, x ∈ t.range := by
  induction ts generalizing lo with
  | nil =>
    have hEq : lo = hi := hTiles
    omega
  | cons t ts ih =>
    by_cases hIn : x < t.stop
    · refine ⟨t, List.mem_cons_self .., ?_, hIn⟩
      rw [hTiles.1]
      exact hLo
    · rcases ih hTiles.2.2 (Nat.not_lt.mp hIn) with ⟨u, hu, hx⟩
      exact ⟨u, List.mem_cons_of_mem t hu, hx⟩

theorem Tiles.apart_of_ne {t u : Tile κ} (hTiles : Tiles lo ts hi) (ht : t ∈ ts) (hu : u ∈ ts)
    (hNe : t ≠ u) : t.stop ≤ u.start ∨ u.stop ≤ t.start := by
  induction ts generalizing lo with
  | nil => simp at ht
  | cons v vs ih =>
    have hAfter : ∀ w ∈ vs, v.stop ≤ w.start := fun w hw => (hTiles.2.2.bounds hw).1
    rcases List.mem_cons.mp ht with rfl | hRest
    · rcases List.mem_cons.mp hu with rfl | hRest'
      · exact absurd rfl hNe
      · exact .inl (hAfter u hRest')
    · rcases List.mem_cons.mp hu with rfl | hRest'
      · exact .inr (hAfter t hRest)
      · exact ih hTiles.2.2 hRest hRest'

theorem Tiles.sum_size (hTiles : Tiles lo ts hi) : lo + (ts.map Tile.size).sum = hi := by
  induction ts generalizing lo with
  | nil =>
    have hEq : lo = hi := hTiles
    simpa using hEq
  | cons t ts ih =>
    have hSum := ih hTiles.2.2
    have hStart := hTiles.1
    unfold Tile.stop at hSum
    rw [List.map_cons, List.sum_cons]
    omega

end Tiles

-- Neighbours

/- No two neighbours both satisfy `p`. -/
def Apart {κ : Type} (p : Tile κ → Bool) (ts : List (Tile κ)) : Prop :=
  ts.IsChain fun t u => ¬ (p t = true ∧ p u = true)

section Apart

variable {κ : Type} {p : Tile κ → Bool} {lo hi : Nat} {ts us : List (Tile κ)}

/- Between tiles that satisfy `p` there is a gap. -/
theorem Apart.pairwise_filter (hApart : Apart p ts) (hTiles : Tiles lo ts hi) :
    (ts.filter p).Pairwise fun t u => t.stop < u.start := by
  induction ts generalizing lo with
  | nil => exact List.Pairwise.nil
  | cons t ts ih =>
    have hRest := ih (List.isChain_cons.mp hApart).2 hTiles.2.2
    by_cases hp : p t = true
    · rw [List.filter_cons_of_pos hp]
      refine List.Pairwise.cons ?_ hRest
      intro u hu
      rcases List.mem_filter.mp hu with ⟨hMem, hpu⟩
      -- the tile right after `t` does not satisfy `p`
      cases ts with
      | nil => simp at hMem
      | cons v vs =>
        have hv : ¬ (p t = true ∧ p v = true) := (List.isChain_cons.mp hApart).1 v rfl
        rcases List.mem_cons.mp hMem with rfl | hMem
        · exact absurd ⟨hp, hpu⟩ hv
        · have hStart := hTiles.2.2.1
          have hSize := hTiles.2.2.2.1
          have hAfter := (hTiles.2.2.2.2.bounds hMem).1
          unfold Tile.stop at *
          omega
    · rw [List.filter_cons_of_neg hp]
      exact hRest

theorem Apart.left (hApart : Apart p (ts ++ us)) : Apart p ts := (List.isChain_append.mp hApart).1

theorem Apart.right (hApart : Apart p (ts ++ us)) : Apart p us :=
  (List.isChain_append.mp hApart).2.1

theorem Apart.congr_last {t u : Tile κ} (hApart : Apart p (ts ++ [t])) (hSame : p t = p u) :
    Apart p (ts ++ [u]) := by
  rcases List.isChain_append.mp hApart with ⟨hFirst, _, hMeet⟩
  refine List.isChain_append.mpr ⟨hFirst, List.isChain_singleton u, ?_⟩
  intro x hx y hy
  cases hy
  rw [← hSame]
  exact hMeet x hx t rfl

theorem Apart.congr_head {t u : Tile κ} (hApart : Apart p (t :: ts)) (hSame : p t = p u) :
    Apart p (u :: ts) := by
  rcases List.isChain_cons.mp hApart with ⟨hMeet, hRest⟩
  refine List.isChain_cons.mpr ⟨?_, hRest⟩
  intro y hy
  rw [← hSame]
  exact hMeet y hy

/- The two sides of a tile are independent. -/
theorem apart_split {t : Tile κ} : Apart p (ts ++ t :: us) ↔
      Apart p (ts ++ [t]) ∧ Apart p (t :: us) := by
  unfold Apart
  rw [List.isChain_append, List.isChain_append]
  constructor
  · rintro ⟨hFirst, hThen, hMeet⟩
    exact ⟨⟨hFirst, List.isChain_singleton t, hMeet⟩, hThen⟩
  · rintro ⟨⟨hFirst, _, hMeet⟩, hThen⟩
    exact ⟨hFirst, hThen, hMeet⟩

/- A tile that does not satisfy `p` may be put anywhere. -/
theorem apart_append_cons {t : Tile κ} (hp : p t = false) :
    Apart p (ts ++ t :: us) ↔ Apart p ts ∧ Apart p us := by
  unfold Apart
  rw [List.isChain_append, List.isChain_cons]
  constructor
  · rintro ⟨hFirst, ⟨_, hThen⟩, _⟩
    exact ⟨hFirst, hThen⟩
  · rintro ⟨hFirst, hThen⟩
    refine ⟨hFirst, ⟨?_, hThen⟩, ?_⟩
    · intro u _ hBoth
      rw [hp] at hBoth
      simp at hBoth
    · intro u _ v hv hBoth
      cases hv
      rw [hp] at hBoth
      simp at hBoth

end Apart
