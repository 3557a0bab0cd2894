import PlayXv6.Lib.Radix
import PlayXv6.Vm.Layout

/-
  The page-table entries of the two machines.

  Main declarations:
    * `Frame`
    * `Riscv64.makeLeaf_spec`, `Aarch64.makeLeaf_spec`
-/

namespace PlayXv6

namespace Hal

open Vm (PtePerm)

abbrev Word := BitVec 64

/- A physical address as the entries take it. -/
def ofPa (pa : Nat) : Word := BitVec.ofNat 64 pa

/- The page frames below `2 ^ 48`. -/
def Frame (f : Nat) : Prop := Vm.PGSIZE ∣ f ∧ f < 2 ^ 48

theorem toNat_ofPa {f : Nat} (hFrame : Frame f) : (ofPa f).toNat = f := by
  unfold ofPa
  rw [BitVec.toNat_ofNat]
  exact Nat.mod_eq_of_lt (by have hLt := hFrame.2; omega)

-- Sv39

namespace Riscv64

abbrev PTE_V : Word := 1 <<< 0
abbrev PTE_R : Word := 1 <<< 1
abbrev PTE_W : Word := 1 <<< 2
abbrev PTE_X : Word := 1 <<< 3
abbrev PTE_U : Word := 1 <<< 4

def isValid (e : Word) : Bool := e &&& PTE_V != 0

def isLeaf (e : Word) : Bool := isValid e && e &&& (PTE_R ||| PTE_W ||| PTE_X) != 0

def pa (e : Word) : Word := ((e >>> 10) &&& ((1 <<< 44) - 1)) <<< 12

def flagsPerm (e : Word) : PtePerm where
  read := e &&& PTE_R != 0
  write := e &&& PTE_W != 0
  exec := e &&& PTE_X != 0
  user := e &&& PTE_U != 0

def leafBits (perm : PtePerm) : Word :=
  let bits := PTE_V
  let bits := if perm.read then bits ||| PTE_R else bits
  let bits := if perm.write then bits ||| PTE_W else bits
  let bits := if perm.exec then bits ||| PTE_X else bits
  if perm.user then bits ||| PTE_U else bits

def makeLeaf (pa : Word) (perm : PtePerm) : Word := ((pa >>> 12) <<< 10) ||| leafBits perm

def makeBranch (pa : Word) : Word := ((pa >>> 12) <<< 10) ||| PTE_V

/- The flags lie below the frame number. -/
theorem pack_and {c : Word} (hLow : c &&& 1023 = c) (x b : Word) :
    ((x <<< 10) ||| b) &&& c = b &&& c := by
  have hZero : (x <<< 10) &&& 1023 = 0#64 := by
    refine BitVec.eq_of_toNat_eq ?_
    rw [BitVec.toNat_and, BitVec.toNat_shiftLeft]
    change x.toNat <<< 10 % 2 ^ 64 &&& 2 ^ 10 - 1 = 0
    rw [Nat.and_two_pow_sub_one_eq_mod, Nat.shiftLeft_eq]
    omega
  have hClear : (x <<< 10) &&& c = 0#64 := by
    rw [← hLow, BitVec.and_comm c, ← BitVec.and_assoc, hZero, BitVec.zero_and]
  rw [BitVec.and_comm, BitVec.and_or_distrib_left, BitVec.and_comm c, hClear, BitVec.zero_or,
    BitVec.and_comm]

theorem pa_pack {f : Nat} {b : Word} (hFrame : Frame f) (hBits : b.toNat < 2 ^ 10) :
    (pa (((ofPa f >>> 12) <<< 10) ||| b)).toNat = f := by
  rcases hFrame with ⟨⟨k, hk⟩, hLt⟩
  have hf := toNat_ofPa ⟨⟨k, hk⟩, hLt⟩
  have hNumber : f >>> 12 = k := by
    rw [Nat.shiftRight_eq_div_pow]
    simp only [Vm.PGSIZE] at hk
    omega
  have hShift : k <<< 10 % 2 ^ 64 = k <<< 10 := by
    rw [Nat.shiftLeft_eq]
    simp only [Vm.PGSIZE] at hk
    omega
  have hEntry : ((((ofPa f >>> 12) <<< 10) ||| b)).toNat = k <<< 10 + b.toNat := by
    rw [BitVec.toNat_or, BitVec.toNat_shiftLeft, BitVec.toNat_ushiftRight, hf, hNumber, hShift,
      Nat.shiftLeft_add_eq_or_of_lt hBits]
  have hMask : ((1 <<< 44) - 1 : Word).toNat = 2 ^ 44 - 1 := by decide
  unfold pa
  rw [BitVec.toNat_shiftLeft, BitVec.toNat_and, BitVec.toNat_ushiftRight, hEntry, hMask,
    Nat.and_two_pow_sub_one_eq_mod, Nat.shiftRight_eq_div_pow, Nat.shiftLeft_eq, Nat.shiftLeft_eq]
  simp only [Vm.PGSIZE] at hk
  omega

/- The flags are below the frame number and can be read. -/
theorem leafBits_spec (perm : PtePerm) : (leafBits perm).toNat < 2 ^ 10 ∧
      isValid (leafBits perm) = true ∧ flagsPerm (leafBits perm) = perm := by
  rcases perm with ⟨r, w, x, u⟩
  revert r w x u
  decide

/- Read permission makes a leaf a leaf. -/
theorem isLeaf_leafBits {perm : PtePerm} (hRead : perm.read = true) :
    isLeaf (leafBits perm) = true := by
  rcases perm with ⟨r, w, x, u⟩
  cases hRead
  revert w x u
  decide

theorem makeLeaf_spec {f : Nat} {perm : PtePerm} (hFrame : Frame f) (hRead : perm.read = true) :
    isValid (makeLeaf (ofPa f) perm) = true ∧ isLeaf (makeLeaf (ofPa f) perm) = true ∧
      (pa (makeLeaf (ofPa f) perm)).toNat = f ∧ flagsPerm (makeLeaf (ofPa f) perm) = perm := by
  rcases leafBits_spec perm with ⟨hLow, hValid, hPerm⟩
  have hLeaf := isLeaf_leafBits hRead
  refine ⟨?_, ?_, pa_pack hFrame hLow, ?_⟩
  · unfold isValid makeLeaf
    rw [pack_and (by decide)]
    exact hValid
  · unfold isLeaf isValid makeLeaf
    rw [pack_and (by decide), pack_and (by decide)]
    exact hLeaf
  · unfold flagsPerm makeLeaf
    rw [pack_and (by decide), pack_and (by decide), pack_and (by decide), pack_and (by decide)]
    exact hPerm

theorem makeBranch_spec {f : Nat} (hFrame : Frame f) : isValid (makeBranch (ofPa f)) = true ∧
      isLeaf (makeBranch (ofPa f)) = false ∧ (pa (makeBranch (ofPa f))).toNat = f := by
  refine ⟨?_, ?_, pa_pack hFrame (by decide)⟩
  · unfold isValid makeBranch
    rw [pack_and (by decide)]
    decide
  · unfold isLeaf makeBranch
    rw [pack_and (c := PTE_R ||| PTE_W ||| PTE_X) (by decide)]
    simp

end Riscv64

-- Long Descriptors

namespace Aarch64

abbrev DESC_VALID : Word := 1 <<< 0
abbrev DESC_TABLE : Word := 1 <<< 1
abbrev DESC_AF : Word := 1 <<< 10
abbrev DESC_SH_IS : Word := 3 <<< 8
abbrev DESC_NG : Word := 1 <<< 11
abbrev DESC_PXN : Word := 1 <<< 53
abbrev DESC_UXN : Word := 1 <<< 54

abbrev AP_KERNEL_RW : Word := 0 <<< 6
abbrev AP_USER_RW : Word := 1 <<< 6
abbrev AP_KERNEL_RO : Word := 2 <<< 6
abbrev AP_USER_RO : Word := 3 <<< 6

abbrev ATTRIDX_MMIO : Word := 0 <<< 2
abbrev ATTRIDX_RAM : Word := 1 <<< 2

abbrev PA_MASK : Word := 0x0000FFFFFFFFF000

abbrev KERNBASE : Nat := 0x40000000

def isValid (e : Word) : Bool := e &&& DESC_VALID != 0

def pa (e : Word) : Word := e &&& PA_MASK

def makeBranch (next : Word) : Word := DESC_VALID ||| DESC_TABLE ||| (next &&& PA_MASK)

/- The access bits, by user and by write permission. -/
def accessBits : Bool → Bool → Word
  | false, true => AP_KERNEL_RW
  | false, false => AP_KERNEL_RO
  | true, true => AP_USER_RW
  | true, false => AP_USER_RO

/- The descriptor of a leaf without its address. -/
def leafBits (perm : PtePerm) (isMmio : Bool) : Word :=
  let bits := DESC_VALID ||| DESC_TABLE ||| DESC_AF
  let bits := if isMmio then bits ||| ATTRIDX_MMIO
    else bits ||| (ATTRIDX_RAM ||| DESC_SH_IS)
  let bits := bits ||| accessBits perm.user perm.write
  if perm.user then
    -- the kernel never executes user pages
    let bits := bits ||| DESC_PXN
    let bits := if !perm.exec then bits ||| DESC_UXN else bits
    bits ||| DESC_NG
  else
    let bits := bits ||| DESC_UXN
    if !perm.exec then bits ||| DESC_PXN else bits

def makeLeaf (pa : Word) (perm : PtePerm) (isMmio : Bool) : Word :=
  leafBits perm isMmio ||| (pa &&& PA_MASK)

def decodePerm (e : Word) : PtePerm :=
  let ap := (e >>> 6) &&& 3#64
  let writable := ap == 0 || ap == 1
  let user := ap == 1 || ap == 3
  { read := true
    write := writable
    exec := if user then e &&& DESC_UXN == 0
      else e &&& DESC_PXN == 0
    user := user }

theorem pack_and {c : Word} (hOut : PA_MASK &&& c = 0#64) (b x : Word) :
    (b ||| (x &&& PA_MASK)) &&& c = b &&& c := by
  rw [BitVec.and_comm, BitVec.and_or_distrib_left, BitVec.and_comm c (x &&& _), BitVec.and_assoc,
    hOut, BitVec.and_zero, BitVec.or_zero, BitVec.and_comm]

theorem pack_ap (b x : Word) : ((b ||| (x &&& PA_MASK)) >>> 6) &&& 3#64 = (b >>> 6) &&& 3#64 := by
  have hOut : (PA_MASK >>> 6) &&& 3#64 = 0#64 := by decide
  rw [BitVec.ushiftRight_or_distrib, BitVec.ushiftRight_and_distrib, BitVec.and_comm,
    BitVec.and_or_distrib_left, BitVec.and_comm 3#64 (x >>> 6 &&& _), BitVec.and_assoc,
    hOut, BitVec.and_zero, BitVec.or_zero, BitVec.and_comm]

theorem frame_and_mask {f : Nat} (hFrame : Frame f) : ofPa f &&& PA_MASK = ofPa f := by
  rcases hFrame with ⟨⟨k, hk⟩, hLt⟩
  have hf := toNat_ofPa ⟨⟨k, hk⟩, hLt⟩
  have hMask : PA_MASK.toNat = 2 ^ 12 * (2 ^ 36 - 1) := by decide
  refine BitVec.eq_of_toNat_eq ?_
  rw [BitVec.toNat_and, hf, hMask, hk]
  refine Nat.eq_of_testBit_eq ?_
  intro i
  have hSplit : Vm.PGSIZE * k = 2 ^ 12 * k := rfl
  rw [hSplit, Nat.testBit_and, Nat.testBit_two_pow_mul,
    Nat.testBit_two_pow_mul, Nat.testBit_two_pow_sub_one]
  by_cases hi : i - 12 < 36
  · rw [decide_eq_true hi, Bool.and_true, Bool.and_eq_left_iff_imp]
    intro hBoth
    exact (Bool.and_eq_true _ _ ▸ hBoth).1
  · have hHigh : k.testBit (i - 12) = false := by
      refine Nat.testBit_lt_two_pow ?_
      have hk' : k < 2 ^ 36 := by
        simp only [Vm.PGSIZE] at hk
        omega
      exact hk'.trans_le (Nat.pow_le_pow_right (by decide) (by omega))
    simp [hHigh]

theorem pa_pack {f : Nat} {b : Word} (hFrame : Frame f) (hBits : b &&& PA_MASK = 0#64) :
    (pa (b ||| (ofPa f &&& PA_MASK))).toNat = f := by
  unfold pa
  rw [frame_and_mask hFrame, BitVec.and_comm, BitVec.and_or_distrib_left, BitVec.and_comm _ b,
    hBits, BitVec.zero_or, BitVec.and_comm, frame_and_mask hFrame, toNat_ofPa hFrame]

theorem leafBits_spec (perm : PtePerm) (isMmio : Bool) : leafBits perm isMmio &&& PA_MASK = 0#64 ∧
      isValid (leafBits perm isMmio) = true ∧ decodePerm (leafBits perm isMmio) =
        { perm with read := true } := by
  rcases perm with ⟨r, w, x, u⟩
  revert r w x u isMmio
  decide

theorem makeLeaf_spec {f : Nat} {perm : PtePerm} (isMmio : Bool) (hFrame : Frame f)
    (hRead : perm.read = true) : isValid (makeLeaf (ofPa f) perm isMmio) = true ∧
      (pa (makeLeaf (ofPa f) perm isMmio)).toNat = f ∧
      decodePerm (makeLeaf (ofPa f) perm isMmio) = perm := by
  rcases leafBits_spec perm isMmio with ⟨hOut, hValid, hPerm⟩
  refine ⟨?_, pa_pack hFrame hOut, ?_⟩
  · unfold isValid makeLeaf
    rw [pack_and (by decide)]
    exact hValid
  · unfold decodePerm makeLeaf
    dsimp only
    rw [pack_ap, pack_and (by decide), pack_and (by decide)]
    refine hPerm.trans ?_
    rw [← hRead]

theorem makeBranch_spec {f : Nat} (hFrame : Frame f) : isValid (makeBranch (ofPa f)) = true ∧
      (pa (makeBranch (ofPa f))).toNat = f := by
  refine ⟨?_, pa_pack hFrame (by decide)⟩
  unfold isValid makeBranch
  rw [pack_and (by decide)]
  decide

end Aarch64

end Hal

end PlayXv6
