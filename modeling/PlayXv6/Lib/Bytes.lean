import Mathlib

/-
  Fixed-length byte blocks and little-endian integers.

  A block of `n` bytes is read through `Bytes.get` at any
  index and rewritten through `Bytes.splice`, which copies a
  byte list over a range.  Integers are stored as
  little-endian byte lists of a chosen width.

  Main declarations:
    * `Bytes`
    * `Bytes.slice_splice_same`
-/

/- The `w` low bytes of `v`, least significant first. -/
def toLe : Nat → Nat → List UInt8
  | 0, _ => []
  | w + 1, v => UInt8.ofNat v :: toLe w (v / 256)

/- The integer a little-endian byte list denotes. -/
def ofLe : List UInt8 → Nat
  | [] => 0
  | x :: xs => x.toNat + 256 * ofLe xs

@[simp] theorem toLe_length (w v : Nat) : (toLe w v).length = w := by
  induction w generalizing v with
  | zero => rfl
  | succ w ih => simp [toLe, ih]

/- Decoding an encoding truncates to the width. -/
theorem ofLe_toLe (w v : Nat) : ofLe (toLe w v) = v % 256 ^ w := by
  induction w generalizing v with
  | zero => simp [toLe, ofLe, Nat.mod_one]
  | succ w ih =>
    have hPow : 256 ^ (w + 1) = 256 * 256 ^ w := Nat.pow_succ'
    simp only [toLe, ofLe, ih, UInt8.toNat_ofNat']
    rw [hPow, Nat.mod_mul]

@[simp] theorem ofLe_replicate_zero (w : Nat) : ofLe (List.replicate w 0) = 0 := by
  induction w with
  | zero => rfl
  | succ w ih => simp [List.replicate_succ, ofLe, ih]

-- Byte Blocks

/- A block of exactly `n` bytes. -/
def Bytes (n : Nat) : Type := Fin n → UInt8

namespace Bytes

variable {n : Nat}

/- The block whose byte at index `i` is `f i`. -/
def ofFn (f : Nat → UInt8) : Bytes n := fun i => f i.val

/- The byte at index `i`; indices past the end read zero. -/
def get (b : Bytes n) (i : Nat) : UInt8 := if h : i < n then b ⟨i, h⟩ else 0

@[simp] theorem get_ofFn {f : Nat → UInt8} {i : Nat} (hi : i < n) :
    (ofFn f : Bytes n).get i = f i := by simp [get, ofFn, hi]

theorem get_of_le {b : Bytes n} {i : Nat} (hi : n ≤ i) : b.get i = 0 := by
  simp [get, Nat.not_lt.mpr hi]

@[ext] theorem ext {a b : Bytes n} (h : ∀ i, i < n → a.get i = b.get i) : a = b := by
  funext i
  have hi := h i.val i.isLt
  simpa [get, i.isLt] using hi

def zero : Bytes n := ofFn fun _ => 0

@[simp] theorem get_zero (i : Nat) : (zero : Bytes n).get i = 0 := by
  by_cases hi : i < n
  · simp [zero, hi]
  · exact get_of_le (Nat.le_of_not_lt hi)

/- Copy `src` over the range starting at `off`. -/
def splice (b : Bytes n) (off : Nat) (src : List UInt8) : Bytes n :=
  ofFn fun i =>
    if off ≤ i ∧ i < off + src.length then
      src.getD (i - off) 0
    else
      b.get i

theorem get_splice {b : Bytes n} {off i : Nat} {src : List UInt8} (hi : i < n) :
    (b.splice off src).get i =
      if off ≤ i ∧ i < off + src.length then
        src.getD (i - off) 0
      else
        b.get i := by
  simp [splice, hi]

theorem get_splice_outside {b : Bytes n} {off i : Nat} {src : List UInt8}
    (hOut : i < off ∨ off + src.length ≤ i) : (b.splice off src).get i = b.get i := by
  by_cases hi : i < n
  · rw [get_splice hi, if_neg (by omega)]
  · rw [get_of_le (by omega), get_of_le (by omega)]

def slice (b : Bytes n) (off len : Nat) : List UInt8 :=
  (List.range len).map fun k => b.get (off + k)

@[simp] theorem slice_length (b : Bytes n) (off len : Nat) : (b.slice off len).length = len := by
  simp [slice]

theorem slice_getElem? {b : Bytes n} {off len k : Nat} (hk : k < len) :
    (b.slice off len)[k]? = some (b.get (off + k)) := by simp [slice, hk]

theorem slice_congr {a b : Bytes n} {off len : Nat}
    (h : ∀ i, off ≤ i → i < off + len → a.get i = b.get i) : a.slice off len = b.slice off len := by
  unfold slice
  apply List.map_congr_left
  intro k hk
  have hk' : k < len := List.mem_range.mp hk
  exact h (off + k) (by omega) (by omega)

theorem slice_splice_same {b : Bytes n} {off : Nat} {src : List UInt8}
    (hFit : off + src.length ≤ n) : (b.splice off src).slice off src.length = src := by
  apply List.ext_getElem?
  intro k
  by_cases hk : k < src.length
  · rw [slice_getElem? hk, get_splice (by omega), if_pos (by omega)]
    simp [hk]
  · rw [List.getElem?_eq_none (by simpa using hk), List.getElem?_eq_none (by simpa using hk)]

theorem slice_splice_inside {b : Bytes n} {off k w : Nat} {src : List UInt8}
    (hIn : k + w ≤ src.length) (hFit : off + src.length ≤ n) :
    (b.splice off src).slice (off + k) w = (src.drop k).take w := by
  apply List.ext_getElem?
  intro j
  by_cases hj : j < w
  · rw [slice_getElem? hj, get_splice (by omega), if_pos (by omega)]
    have hIdx : off + k + j - off = k + j := by omega
    simp [hIdx, hj, show k + j < src.length by omega]
  · rw [List.getElem?_eq_none (by simpa using hj), List.getElem?_eq_none (by simp; omega)]

theorem slice_splice_disjoint {b : Bytes n} {off off' len : Nat} {src : List UInt8}
    (hDisj : off' + len ≤ off ∨ off + src.length ≤ off') : (b.splice off src).slice off' len =
      b.slice off' len := by
  apply slice_congr
  intro i hLo hHi
  exact get_splice_outside (by omega)

@[simp] theorem slice_zero_block (off len : Nat) : (zero : Bytes n).slice off len =
      List.replicate len 0 := by
  unfold slice
  simp [List.map_const']

/- The little-endian 32-bit integer stored at `o`. -/
def u32At (b : Bytes n) (o : Nat) : Nat := ofLe (b.slice o 4)

/- The little-endian 16-bit integer stored at `o`. -/
def u16At (b : Bytes n) (o : Nat) : Nat := ofLe (b.slice o 2)

def putU32 (b : Bytes n) (o v : Nat) : Bytes n := b.splice o (toLe 4 v)

@[simp] theorem u32At_zero (o : Nat) : (zero : Bytes n).u32At o = 0 := by
  rw [u32At, slice_zero_block, ofLe_replicate_zero]

/- Past the end of the block every integer is zero. -/
theorem u32At_of_le {b : Bytes n} {o : Nat} (ho : n ≤ o) : b.u32At o = 0 := by
  have hSlice : b.slice o 4 = (zero : Bytes n).slice o 4 := by
    apply slice_congr
    intro i hLo _
    rw [get_of_le (by omega), get_zero]
  rw [u32At, hSlice, slice_zero_block, ofLe_replicate_zero]

theorem u32At_putU32 {b : Bytes n} {o v : Nat} (hFit : o + 4 ≤ n) :
    (b.putU32 o v).u32At o = v % 2 ^ 32 := by
  have hSlice : (b.putU32 o v).slice o 4 = toLe 4 v := by
    have hLen : o + (toLe 4 v).length ≤ n := by simpa using hFit
    simpa [putU32] using slice_splice_same (b := b) hLen
  rw [u32At, hSlice, ofLe_toLe]
  norm_num

theorem u32At_putU32_disjoint {b : Bytes n} {o o' v : Nat} (hDisj : o' + 4 ≤ o ∨ o + 4 ≤ o') :
    (b.putU32 o v).u32At o' = b.u32At o' := by
  unfold u32At putU32
  rw [slice_splice_disjoint (by simpa using hDisj)]

end Bytes
