import Mathlib

/-
  Singly linked lists in a memory of words.

  A node at address `a` has its value in the word at `a` and
  the address of the next node in the word at `a + off`; the
  address 0 ends a list.

  Main declarations:
    * `Chain.Seg`
    * `Chain.Seg.relink`
-/

namespace Chain

open Function

abbrev Memory := Nat → Nat

/- A node: its address and its value. -/
abbrev Node := Nat × Nat

variable {off : Nat} {mem mem' : Memory} {p q r : Nat} {ns ms : List Node}

/- From the pointer `p` through the nodes to the pointer `q`. -/
def Seg (off : Nat) (mem : Memory) (p : Nat) : List Node → Nat → Prop
  | [], q => p = q
  | n :: ns, q =>
    p = n.1 ∧ n.1 ≠ 0 ∧ mem n.1 = n.2 ∧ Seg off mem (mem (n.1 + off)) ns q

theorem seg_append : Seg off mem p (ns ++ ms) q ↔ ∃ r, Seg off mem p ns r ∧ Seg off mem r ms q := by
  induction ns generalizing p with
  | nil =>
    constructor
    · intro hSeg
      exact ⟨p, rfl, hSeg⟩
    · rintro ⟨r, hEq, hSeg⟩
      rw [show p = r from hEq]
      exact hSeg
  | cons n ns ih =>
    simp only [List.cons_append, Seg]
    rw [ih]
    constructor
    · rintro ⟨hp, hNull, hValue, r, hFirst, hThen⟩
      exact ⟨r, ⟨hp, hNull, hValue, hFirst⟩, hThen⟩
    · rintro ⟨r, ⟨hp, hNull, hValue, hFirst⟩, hThen⟩
      exact ⟨hp, hNull, hValue, r, hFirst, hThen⟩

theorem Seg.congr (hSeg : Seg off mem p ns q) (hSame : ∀ n ∈ ns, mem' n.1 = mem n.1 ∧
      mem' (n.1 + off) = mem (n.1 + off)) : Seg off mem' p ns q := by
  induction ns generalizing p with
  | nil => exact hSeg
  | cons n ns ih =>
    have hHere := hSame n (List.mem_cons_self ..)
    refine ⟨hSeg.1, hSeg.2.1, ?_, ?_⟩
    · rw [hHere.1]
      exact hSeg.2.2.1
    · rw [hHere.2]
      exact ih hSeg.2.2.2 fun m hm => hSame m (List.mem_cons_of_mem n hm)

/- The nodes do not overlap and are in address order. -/
def Spread (off : Nat) (ns : List Node) : Prop := ns.Pairwise fun n m => n.1 + off < m.1

/- The address of the last node, or 0. -/
def lastAddr (ns : List Node) : Nat := (ns.getLast?.map Prod.fst).getD 0

@[simp] theorem lastAddr_nil : lastAddr [] = 0 := rfl

@[simp] theorem lastAddr_append_singleton (ns : List Node) (n : Node) :
    lastAddr (ns ++ [n]) = n.1 := by simp [lastAddr]

/-
  Let what points behind `prev` point to `q` instead; the null
  pointer stands for the head of the list.
-/
def relink (off : Nat) (mem : Memory) (head prev q : Nat) : Nat × Memory :=
  if prev = 0 then (q, mem)
  else (head, update mem (prev + off) q)

theorem relink_mem_of_ne {head prev x : Nat} (hx : prev ≠ 0 → x ≠ prev + off) :
    (relink off mem head prev q).2 x = mem x := by
  unfold relink
  split
  · rfl
  · rename_i hPrev
    exact update_of_ne (hx hPrev) _ _

theorem lastAddr_mem (hNull : lastAddr ns ≠ 0) : ∃ n ∈ ns, lastAddr ns = n.1 := by
  rcases List.eq_nil_or_concat ns with rfl | ⟨ms, n, rfl⟩
  · exact absurd rfl hNull
  · rw [List.concat_eq_append, lastAddr_append_singleton]
    exact ⟨n, by simp, rfl⟩

/- The nodes before a link stay, and lead elsewhere. -/
theorem Seg.relink {head : Nat} (hOff : 0 < off) (hSeg : Seg off mem head ns r)
    (hSpread : Spread off ns) (q : Nat) : Seg off (Chain.relink off mem head (lastAddr ns) q).2
      (Chain.relink off mem head (lastAddr ns) q).1 ns q := by
  rcases List.eq_nil_or_concat ns with rfl | ⟨ms, n, rfl⟩
  · rfl
  · rw [List.concat_eq_append] at *
    rcases seg_append.mp hSeg with ⟨p, hFirst, hLast⟩
    have hBefore : ∀ m ∈ ms, m.1 + off < n.1 := by
      intro m hm
      exact (List.pairwise_append.mp hSpread).2.2 m hm n (List.mem_singleton_self n)
    unfold Chain.relink
    rw [lastAddr_append_singleton, if_neg hLast.2.1]
    refine seg_append.mpr ⟨p, hFirst.congr ?_, hLast.1, hLast.2.1, ?_, ?_⟩
    · intro m hm
      have hLt := hBefore m hm
      exact ⟨update_of_ne (by omega) _ _, update_of_ne (by omega) _ _⟩
    · exact (update_of_ne (by omega) _ _).trans hLast.2.2.1
    · exact update_self ..

end Chain
