import Mathlib

/-
  Rings that one party fills and another empties.

  Both count the entries they have handled in a counter of
  fixed width, and an entry stands at its number modulo the
  size of the ring.  When the size divides the range of the
  counters, the entries that are filled and not yet emptied
  read back in order although the counters wrap around.

  Main declarations:
    * `Wheel`, `Wheel.Window`
    * `Wheel.Window.tail`
-/

/- The entries and the counter of the filling party. -/
structure Wheel (α : Type*) where
  idx : Nat
  cells : Nat → α

namespace Wheel

open Function

variable {α : Type*} {N M base : Nat} {r : Wheel α} {x : α} {xs : List α}

/- Fill the next entry of a ring of size `N`. -/
def push (N M : Nat) (r : Wheel α) (x : α) : Wheel α where
  idx := (r.idx + 1) % M
  cells := update r.cells (r.idx % N) x

/- Who has emptied `base` entries still has `xs` to empty. -/
structure Window (N M : Nat) (r : Wheel α) (base : Nat) (xs : List α) : Prop where
  count : r.idx = (base + xs.length) % M
  room : xs.length ≤ N
  entry : ∀ i x, xs[i]? = some x → r.cells ((base + i) % N) = x

theorem Window.nil (hIdx : r.idx = base % M) : Window N M r base [] :=
  ⟨hIdx, Nat.zero_le N, by simp⟩

/- Two numbers less than `N` apart have their own places. -/
private theorem mod_add_ne {i j : Nat} (hLt : i < j) (hNear : j < i + N) :
    (base + i) % N ≠ (base + j) % N := by
  intro hEq
  have hMod : (base + i) + 0 ≡ (base + i) + (j - i) [MOD N] := by
    have hSum : (base + i) + (j - i) = base + j := by omega
    rw [hSum]
    exact hEq
  have hZero := Nat.ModEq.add_left_cancel' _ hMod
  have hDvd : N ∣ j - i := (Nat.modEq_zero_iff_dvd).mp hZero.symm
  have hLe := Nat.le_of_dvd (by omega) hDvd
  omega

theorem Window.push (hWindow : Window N M r base xs) (hDvd : N ∣ M) (hRoom : xs.length < N) :
    Window N M (r.push N M x) base (xs ++ [x]) := by
  have hPlace : r.idx % N = (base + xs.length) % N := by
    rw [hWindow.count, Nat.mod_mod_of_dvd _ hDvd]
  refine ⟨?_, ?_, ?_⟩
  · show (r.idx + 1) % M = _
    rw [hWindow.count, Nat.mod_add_mod, List.length_append, List.length_singleton, Nat.add_assoc]
  · rw [List.length_append, List.length_singleton]
    exact hRoom
  · intro i y hy
    show update r.cells (r.idx % N) x _ = y
    rw [hPlace]
    rcases Nat.lt_trichotomy i xs.length with hLt | rfl | hGt
    · rw [List.getElem?_append_left hLt] at hy
      rw [update_of_ne (mod_add_ne hLt (by omega))]
      exact hWindow.entry i y hy
    · rw [List.getElem?_concat_length, Option.some.injEq] at hy
      rw [update_self]
      exact hy
    · rw [List.getElem?_eq_none] at hy
      · cases hy
      · rw [List.length_append, List.length_singleton]
        exact hGt

theorem Window.head (hWindow : Window N M r base (x :: xs)) : r.cells (base % N) = x :=
  hWindow.entry 0 x rfl

theorem Window.tail (hWindow : Window N M r base (x :: xs)) (hDvd : N ∣ M) :
    Window N M r ((base + 1) % M) xs := by
  refine ⟨?_, ?_, ?_⟩
  · rw [hWindow.count, Nat.mod_add_mod, List.length_cons]
    congr 1
    omega
  · have hRoom := hWindow.room
    rw [List.length_cons] at hRoom
    omega
  · intro i y hy
    have hPlace : ((base + 1) % M + i) % N = (base + (i + 1)) % N := by
      rw [Nat.add_mod, Nat.mod_mod_of_dvd _ hDvd, ← Nat.add_mod]
      congr 1
      omega
    rw [hPlace]
    exact hWindow.entry (i + 1) y hy

end Wheel
