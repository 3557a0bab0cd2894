import PlayXv6.Lib.Bytes

/-
  The layout of a user address space, and the data the
  virtual-memory code reads: permissions, page-table entries,
  mapped regions and ELF program headers.

  Main declarations:
    * `PGSIZE`, `MAXVA`
    * `pageRoundUp_le`
-/

namespace PlayXv6

namespace Vm

-- Addresses

abbrev PGSIZE : Nat := 4096
abbrev MAXVA : Nat := 2 ^ 38
abbrev TRAMPOLINE : Nat := MAXVA - PGSIZE
abbrev TRAPFRAME : Nat := TRAMPOLINE - PGSIZE
abbrev STACK_VA_TOP : Nat := TRAPFRAME
abbrev STACK_PAGES : Nat := 8
abbrev STACK_VA_BASE : Nat := STACK_VA_TOP - STACK_PAGES * PGSIZE
abbrev MMAP_TOP : Nat := STACK_VA_BASE - 16 * 1024 * 1024

/- The live processes `fork` admits. -/
abbrev NPROC : Nat := 64

/- The number of values of the machine's `usize`. -/
abbrev USIZE : Nat := 2 ^ 64

/- The highest break `sbrk` grants. -/
abbrev HEAP_TOP : Nat := STACK_VA_BASE - PGSIZE

/- `va & !(PGSIZE - 1)`. -/
def pageRoundDown (va : Nat) : Nat := va / PGSIZE * PGSIZE

/- `(va + PGSIZE - 1) & !(PGSIZE - 1)`, which may wrap. -/
def pageRoundUp (va : Nat) : Nat := pageRoundDown ((va + (PGSIZE - 1)) % USIZE)

/-
  The end of the page that begins at `va`.  Kept folded, or
  comparisons with it are evaluated one by one.
-/
@[irreducible] def pageEnd (va : Nat) : Nat := va + PGSIZE

/- The pages a loop from `start` below `stop` visits. -/
def pages (start stop : Nat) : Nat := (stop - start + (PGSIZE - 1)) / PGSIZE

theorem pageRoundDown_le (va : Nat) : pageRoundDown va ≤ va := Nat.div_mul_le_self va PGSIZE

/- Rounding up stays below every page boundary above. -/
theorem pageRoundUp_le {va bound : Nat} (hBound : PGSIZE ∣ bound) (hLe : va ≤ bound) :
    pageRoundUp va ≤ bound := by
  rcases hBound with ⟨n, hn⟩
  have hMod : (va + (PGSIZE - 1)) % USIZE ≤ va + (PGSIZE - 1) := Nat.mod_le _ _
  have hDiv : (va + (PGSIZE - 1)) % USIZE / PGSIZE ≤ n := by
    simp only [PGSIZE] at *
    omega
  calc
    pageRoundUp va ≤ n * PGSIZE := Nat.mul_le_mul_right PGSIZE hDiv
    _ = bound := by rw [hn, Nat.mul_comm]

/- Every page a loop visits starts below its end. -/
theorem add_mul_lt_of_lt_pages {start stop i : Nat} (hi : i < pages start stop) :
    start + i * PGSIZE < stop := by
  simp only [pages, PGSIZE] at *
  omega

structure PtePerm where
  read : Bool
  write : Bool
  exec : Bool
  user : Bool
  deriving DecidableEq, Repr

namespace PtePerm

def RW : PtePerm := ⟨true, true, false, false⟩
def RX : PtePerm := ⟨true, false, true, false⟩
def URW : PtePerm := ⟨true, true, false, true⟩

end PtePerm

/- A valid entry of a lowest-level table: the frame it names and its flags. -/
structure Pte where
  pa : Nat
  perm : PtePerm
  deriving DecidableEq, Repr

/- An entry without R, W and X does not count as a leaf. -/
def Pte.isLeaf (e : Pte) : Bool := e.perm.read || e.perm.write || e.perm.exec

abbrev PROT_READ : UInt32 := 1
abbrev PROT_WRITE : UInt32 := 2
abbrev PROT_EXEC : UInt32 := 4
abbrev MAP_PRIVATE : UInt32 := 2
abbrev MAP_ANONYMOUS : UInt32 := 0x20

/- A region made by `mmap`; `file` names its inode. -/
structure Vma where
  start : Nat
  stop : Nat
  prot : UInt32
  file : Option Nat
  fileOffset : Nat
  deriving DecidableEq, Repr

def vmaProtToPteperm (prot : UInt32) : PtePerm where
  read := prot &&& PROT_READ != 0 || prot &&& (PROT_READ ||| PROT_WRITE ||| PROT_EXEC) == 0
  write := prot &&& PROT_WRITE != 0
  exec := prot &&& PROT_EXEC != 0
  user := true

abbrev ELF_MAGIC : List UInt8 := [0x7f, 0x45, 0x4c, 0x46]
abbrev EHDR_SIZE : Nat := 64
abbrev PHDR_SIZE : Nat := 56
abbrev EXPECTED_MACHINE : Nat := 243
abbrev PT_LOAD : Nat := 1

/- The integer in the `w` bytes of an image at `off`. -/
def fieldAt (elf : List UInt8) (off w : Nat) : Nat := ofLe ((elf.drop off).take w)

def eMachine (elf : List UInt8) : Nat := fieldAt elf 18 2
def eEntry (elf : List UInt8) : Nat := fieldAt elf 24 8
def ePhoff (elf : List UInt8) : Nat := fieldAt elf 32 8
def ePhentsize (elf : List UInt8) : Nat := fieldAt elf 54 2
def ePhnum (elf : List UInt8) : Nat := fieldAt elf 56 2

/- The fields of a program header that the loader reads. -/
structure Phdr where
  type : Nat
  flags : UInt32
  offset : Nat
  vaddr : Nat
  filesz : Nat
  memsz : Nat
  deriving DecidableEq, Repr

/- Where program header `i` lies, in `usize` arithmetic. -/
def phdrOff (elf : List UInt8) (i : Nat) : Nat := (ePhoff elf + i * ePhentsize elf) % USIZE

def phdrAt (elf : List UInt8) (i : Nat) : Phdr :=
  let off := phdrOff elf i
  { type := fieldAt elf off 4
    flags := UInt32.ofNat (fieldAt elf (off + 4) 4)
    offset := fieldAt elf (off + 8) 8
    vaddr := fieldAt elf (off + 16) 8
    filesz := fieldAt elf (off + 32) 8
    memsz := fieldAt elf (off + 40) 8 }

def phdrPerms (flags : UInt32) : PtePerm where
  read := flags &&& 4 != 0
  write := flags &&& 2 != 0
  exec := flags &&& 1 != 0
  user := true

@[simp] theorem phdrPerms_user (flags : UInt32) : (phdrPerms flags).user = true := rfl

namespace Phdr

def segStart (ph : Phdr) : Nat := pageRoundDown ph.vaddr

def segEnd (ph : Phdr) : Nat := pageRoundUp ((ph.vaddr + ph.memsz) % USIZE)

end Phdr

/- The loader reads header `i` only if it fits the file. -/
def PhdrFits (elf : List UInt8) (i : Nat) : Prop := (phdrOff elf i + PHDR_SIZE) % USIZE ≤ elf.length

instance (elf : List UInt8) (i : Nat) : Decidable (PhdrFits elf i) := by
  unfold PhdrFits
  infer_instance

/- Every loadable segment of the image ends, rounded up to a page, at or below `bound`. -/
def SegmentsBelow (bound : Nat) (elf : List UInt8) : Prop :=
  ∀ i < ePhnum elf, PhdrFits elf i →
    (phdrAt elf i).type = PT_LOAD → (phdrAt elf i).segEnd ≤ bound

instance (bound : Nat) (elf : List UInt8) : Decidable (SegmentsBelow bound elf) := by
  unfold SegmentsBelow
  infer_instance

end Vm

end PlayXv6
