import Mathlib

/-
  Integers printed by the user library.

  `vprintf` reads an argument as the conversion says and
  passes it to `printint`, which stores the digits into a
  buffer of 20 characters, last digit first, and writes them
  out from the end.

  Main declarations:
    * `printint`
    * `printint_exact_iff`
-/

namespace PlayXv6

namespace Printf

def digits : List Char := "0123456789ABCDEF".toList

def digit (d : Nat) : Char := digits.getD d '0'

/- A conversion: the argument is an `int`, a `uint32` or, if `long`, a `uint64`. -/
structure Spec where
  long : Bool
  base : Nat
  sgn : Bool
  -- what `i` is advanced by
  skip : Nat

/- The conversions that `vprintf` hands to `printint`. -/
def intSpec : Char → Char → Char → Option Spec
  | 'd', _, _ => some ⟨false, 10, true, 0⟩
  | 'l', 'd', _ => some ⟨true, 10, true, 1⟩
  | 'l', 'l', 'd' => some ⟨true, 10, true, 2⟩
  | 'u', _, _ => some ⟨false, 10, false, 0⟩
  | 'l', 'u', _ => some ⟨true, 10, false, 1⟩
  | 'l', 'l', 'u' => some ⟨true, 10, false, 2⟩
  | 'x', _, _ => some ⟨false, 16, false, 0⟩
  | 'l', 'x', _ => some ⟨true, 16, false, 1⟩
  | 'l', 'l', 'x' => some ⟨true, 16, false, 2⟩
  | 'o', _, _ => some ⟨false, 8, false, 0⟩
  | 'l', 'o', _ => some ⟨true, 8, false, 1⟩
  | _, _, _ => none

/- The argument in its register, converted to the parameter `xx`. -/
def Spec.xx (p : Spec) (a : BitVec 64) : BitVec 64 :=
  if p.long then a
  else if p.sgn then (a.setWidth 32).signExtend 64
  else (a.setWidth 32).setWidth 64

def Spec.value (p : Spec) (a : BitVec 64) : Int :=
  if p.long then if p.sgn then a.toInt else a.toNat
  else if p.sgn then (a.setWidth 32).toInt else (a.setWidth 32).toNat

/- The stores of the loop; it is only run with bases above 1. -/
def digitLoop (base x : Nat) : List Char :=
  digit (x % base) :: if _h : 1 < base ∧ x / base ≠ 0 then digitLoop base (x / base) else []
  termination_by x
  decreasing_by exact Nat.div_lt_self (Nat.pos_of_ne_zero fun hx => _h.2 (by simp [hx])) _h.1

/- What is stored, from `buf[0]` on. -/
def printint (xx : BitVec 64) (base : Nat) (sgn : Bool) : List Char :=
  if sgn ∧ xx.toInt < 0 then digitLoop base (-xx).toNat ++ ['-']
  else digitLoop base xx.toNat

def BUF : Nat := 20

/- The digits of a number, first digit first, with its sign. -/
def repr (base : Nat) (v : Int) : List Char :=
  (if v < 0 then ['-'] else []) ++
    if v = 0 then ['0'] else (base.digits v.natAbs).reverse.map digit

/- All stores are in the buffer, and its characters are written out from the end. -/
def Exact (p : Spec) (a : BitVec 64) : Prop :=
  (printint (p.xx a) p.base p.sgn).length ≤ BUF ∧
    (printint (p.xx a) p.base p.sgn).reverse = repr p.base (p.value a)

theorem digitLoop_eq {base : Nat} (hBase : 1 < base) (x : Nat) : digitLoop base x =
    if x = 0 then ['0'] else (base.digits x).map digit := by
  induction x using Nat.strong_induction_on with
  | _ x ih =>
    rw [digitLoop]
    by_cases hx : x = 0
    · have hZero : digit 0 = '0' := rfl
      simp [hx, hZero]
    have hPos : 0 < x := Nat.pos_of_ne_zero hx
    rw [if_neg hx, Nat.digits_def' hBase hPos, List.map_cons]
    refine congrArg (digit (x % base) :: ·) ?_
    by_cases hMore : x / base = 0
    · simp [hMore]
    · rw [dif_pos ⟨hBase, hMore⟩, ih _ (Nat.div_lt_self hPos hBase), if_neg hMore]

/- A number takes at most `k + 1` digits below `base ^ (k + 1)`. -/
theorem length_digitLoop {base : Nat} (hBase : 1 < base) (x k : Nat) :
    (digitLoop base x).length ≤ k + 1 ↔ x < base ^ (k + 1) := by
  rw [digitLoop_eq hBase]
  by_cases hx : x = 0
  · simp [hx, Nat.pow_pos (Nat.zero_lt_of_lt hBase)]
  · rw [if_neg hx, List.length_map, Nat.digits_length_le_iff hBase]

/- The sign and the magnitude that `printint` takes are those of the value. -/
theorem printint_eq (p : Spec) (a : BitVec 64) : printint (p.xx a) p.base p.sgn =
    digitLoop p.base (p.value a).natAbs ++ if p.value a < 0 then ['-'] else [] := by
  have hSigned : ∀ x : BitVec 64, printint x p.base true =
      digitLoop p.base x.toInt.natAbs ++ if x.toInt < 0 then ['-'] else [] := by
    intro x
    have hLt := x.isLt
    have hInt := x.toInt_eq_toNat_cond
    unfold printint
    by_cases hNeg : x.toInt < 0
    · have hAbs : (-x).toNat = x.toInt.natAbs := by
        rw [BitVec.toNat_neg]
        split at hInt <;> omega
      simp [hNeg, hAbs]
    · have hAbs : x.toNat = x.toInt.natAbs := by split at hInt <;> omega
      simp [hNeg, hAbs]
  have hUnsigned : ∀ x : BitVec 64, printint x p.base false =
      digitLoop p.base (x.toNat : Int).natAbs ++ if (x.toNat : Int) < 0 then ['-'] else [] := by
    intro x
    simp [printint]
  have hShort : ((a.setWidth 32).setWidth 64).toNat = (a.setWidth 32).toNat := by
    have hLt := (a.setWidth 32).isLt
    rw [BitVec.toNat_setWidth 64, Nat.mod_eq_of_lt (by omega)]
  cases hLong : p.long <;> cases hSgn : p.sgn
  · simp only [Spec.xx, Spec.value, hLong, hSgn, Bool.false_eq_true, if_false, hUnsigned, hShort]
  · simp only [Spec.xx, Spec.value, hLong, hSgn, Bool.false_eq_true, if_false, if_true, hSigned,
      BitVec.toInt_signExtend_of_le (show 32 ≤ 64 by decide)]
  · simp only [Spec.xx, Spec.value, hLong, hSgn, Bool.false_eq_true, if_false, if_true, hUnsigned]
  · simp only [Spec.xx, Spec.value, hLong, hSgn, if_true, hSigned]

theorem intSpec_base {c0 c1 c2 : Char} {p : Spec} (hSpec : intSpec c0 c1 c2 = some p) :
    (p.base = 10 ∨ p.sgn = false ∧ (p.base = 16 ∨ p.base = 8)) ∧
      (c0 = 'l' ∧ c1 = 'o' ↔ p.base = 8 ∧ p.long = true) := by
  unfold intSpec at hSpec
  split at hSpec <;> cases hSpec <;> simp

/- The magnitude of an argument, signed and not. -/
theorem natAbs_value (p : Spec) (a : BitVec 64) : (p.value a).natAbs < 2 ^ 64 ∧
    (p.value a < 0 → (p.value a).natAbs ≤ 2 ^ 63) ∧ (p.sgn = false → 0 ≤ p.value a) := by
  have hLt := a.isLt
  have hInt := a.toInt_eq_toNat_cond
  have hLt' := (a.setWidth 32).isLt
  have hInt' := (a.setWidth 32).toInt_eq_toNat_cond
  unfold Spec.value
  grind

theorem reverse_printint {p : Spec} (hBase : 1 < p.base) (a : BitVec 64) :
    (printint (p.xx a) p.base p.sgn).reverse = repr p.base (p.value a) := by
  rw [printint_eq, digitLoop_eq hBase, repr, List.reverse_append]
  congr 1
  · split <;> rfl
  · simp only [Int.natAbs_eq_zero]
    split
    · rfl
    · rw [List.map_reverse]

theorem printint_exact_iff {c0 c1 c2 : Char} {p : Spec} (a : BitVec 64)
    (hSpec : intSpec c0 c1 c2 = some p) :
    Exact p a ↔ ¬(c0 = 'l' ∧ c1 = 'o' ∧ 2 ^ 60 ≤ a.toNat) := by
  rcases intSpec_base hSpec with ⟨hCases, hLo⟩
  rcases natAbs_value p a with ⟨hMax, hMin, hPos⟩
  rw [← and_assoc, hLo]
  have hBase : 1 < p.base := by omega
  have hExact : Exact p a ↔ (printint (p.xx a) p.base p.sgn).length ≤ BUF :=
    and_iff_left (reverse_printint hBase a)
  rw [hExact, printint_eq, List.length_append]
  rcases hCases with hTen | ⟨hSgn, hSixteen | hEight⟩
  · rw [hTen]
    refine iff_of_true ?_ (by simp)
    by_cases hNeg : p.value a < 0
    · have hLen := (length_digitLoop (by decide) (p.value a).natAbs 18).mpr
        ((hMin hNeg).trans_lt (show 2 ^ 63 < 10 ^ 19 by decide))
      rw [if_pos hNeg]
      exact Nat.add_le_add_right hLen 1
    · have hLen := (length_digitLoop (by decide) (p.value a).natAbs 19).mpr
        (hMax.trans (show 2 ^ 64 < 10 ^ 20 by decide))
      rw [if_neg hNeg]
      exact hLen
  · rw [hSixteen, if_neg (not_lt.mpr (hPos hSgn))]
    refine iff_of_true ?_ (by simp)
    exact (length_digitLoop (by decide) (p.value a).natAbs 19).mpr
      (hMax.trans (show 2 ^ 64 < 16 ^ 20 by decide))
  · rw [hEight, if_neg (not_lt.mpr (hPos hSgn))]
    refine (length_digitLoop (by decide) (p.value a).natAbs 19).trans ?_
    have hLt := (a.setWidth 32).isLt
    cases hLong : p.long with
    | true => simp [Spec.value, hLong, hSgn]
    | false =>
      have hShort : (p.value a).natAbs = (a.setWidth 32).toNat := by
        simp only [Spec.value, hLong, hSgn, Bool.false_eq_true, if_false, Int.natAbs_natCast]
      simp only [hShort, and_false, false_and, not_false_iff, iff_true, Bool.false_eq_true]
      exact hLt.trans (show 2 ^ 32 < 8 ^ 20 by decide)

/- The least number is printed with all its digits. -/
theorem printint_exact_iff_min : intSpec 'l' 'l' 'd' = some ⟨true, 10, true, 2⟩ ∧
    Exact ⟨true, 10, true, 2⟩ (BitVec.ofNat 64 (2 ^ 63)) := by
  have hSpec : intSpec 'l' 'l' 'd' = some ⟨true, 10, true, 2⟩ := rfl
  exact ⟨hSpec, (printint_exact_iff _ hSpec).mpr (by simp)⟩

/- The largest number has 22 octal digits. -/
theorem printint_overflows : intSpec 'l' 'o' 'd' = some ⟨true, 8, false, 1⟩ ∧
    ¬Exact ⟨true, 8, false, 1⟩ (BitVec.ofNat 64 (2 ^ 64 - 1)) := by
  refine ⟨rfl, ?_⟩
  rintro ⟨hLen, -⟩
  rw [printint_eq] at hLen
  have hDigits := (length_digitLoop (by decide) (2 ^ 64 - 1) 19).mp
    ((List.length_append ▸ Nat.le_add_right _ _).trans hLen)
  revert hDigits
  decide

end Printf

end PlayXv6
