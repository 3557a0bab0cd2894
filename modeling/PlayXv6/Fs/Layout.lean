import PlayXv6.Lib.Bytes

/-
  The on-disk layout shared by the kernel and by `mkfs`.

  Disk blocks are blocks of `BSIZE` bytes.  The records have
  the fields and widths of their on-disk structures; the
  reserved bytes of an inode are written as zero and never
  read, so they are not part of the record.

  Main declarations:
    * `DInode`, `Dirent`
    * `DInode.decode_encode`
-/

namespace PlayXv6

abbrev BSIZE : Nat := 512
abbrev FSMAGIC : Nat := 0x10203040
abbrev NDIRECT : Nat := 12
abbrev NINDIRECT : Nat := BSIZE / 4
/- The slot of `addrs` that holds the double-indirect block. -/
abbrev NDOUBLE_SLOT : Nat := NDIRECT + 1
abbrev NDOUBLE_INDIRECT : Nat := NINDIRECT * NINDIRECT
abbrev MAXFILE : Nat := NDIRECT + NINDIRECT + NDOUBLE_INDIRECT
abbrev LOGSIZE : Nat := 30
abbrev DIRSIZ : Nat := 14

abbrev T_DIR : UInt16 := 1
abbrev T_FILE : UInt16 := 2
abbrev T_DEVICE : UInt16 := 3
abbrev T_SYMLINK : UInt16 := 4

abbrev DINODE_SIZE : Nat := 128
abbrev DIRENT_SIZE : Nat := 16
abbrev IPB : Nat := BSIZE / DINODE_SIZE
abbrev BPB : Nat := BSIZE * 8

abbrev Block : Type := Bytes BSIZE

/- The superblock, stored in block 1. -/
structure Superblock where
  magic : Nat
  size : Nat
  nblocks : Nat
  ninodes : Nat
  nlog : Nat
  logstart : Nat
  inodestart : Nat
  bmapstart : Nat
deriving DecidableEq, Repr

-- Inodes

/- The block numbers of an inode. -/
def Addrs : Type := Fin (NDIRECT + 2) → UInt32

namespace Addrs

def get (a : Addrs) (k : Nat) : Nat := if h : k < NDIRECT + 2 then (a ⟨k, h⟩).toNat else 0

def set (a : Addrs) (k b : Nat) : Addrs := fun i => if i.val = k then UInt32.ofNat b else a i

def zero : Addrs := fun _ => 0

@[ext] theorem ext {a b : Addrs} (h : ∀ k, k < NDIRECT + 2 → a.get k = b.get k) : a = b := by
  funext i
  have hi := h i.val i.isLt
  simp only [get, i.isLt, dite_true] at hi
  exact UInt32.toNat_inj.mp hi

theorem get_of_le {a : Addrs} {k : Nat} (hk : NDIRECT + 2 ≤ k) : a.get k = 0 := by
  simp [get, Nat.not_lt.mpr hk]

@[simp] theorem get_zero (k : Nat) : zero.get k = 0 := by simp [get, zero]

theorem get_set {a : Addrs} {k j b : Nat} (hk : k < NDIRECT + 2) (hb : b < 2 ^ 32) :
    (a.set k b).get j = if j = k then b else a.get j := by
  unfold get set
  by_cases hj : j < NDIRECT + 2
  · by_cases hEq : j = k
    · subst hEq
      simp only [hj, dite_true, if_true]
      exact UInt32.toNat_ofNat_of_lt' hb
    · simp [hj, hEq]
  · have hNe : j ≠ k := by omega
    simp [hj, hNe]

end Addrs

/- An inode as stored on disk. The in-memory copy of an inode has the same fields. -/
structure DInode where
  typ : UInt16
  major : UInt16
  minor : UInt16
  nlink : UInt16
  mode : UInt16
  uid : UInt16
  gid : UInt16
  size : UInt32
  atime : UInt32
  mtime : UInt32
  ctime : UInt32
  addrs : Addrs

abbrev InodeState : Type := DInode

namespace DInode

def default : DInode where
  typ := 0
  major := 0
  minor := 0
  nlink := 0
  mode := 0
  uid := 0
  gid := 0
  size := 0
  atime := 0
  mtime := 0
  ctime := 0
  addrs := Addrs.zero

instance : Inhabited DInode := ⟨default⟩

/- The 16-bit fields, in storage order. -/
def halves (d : DInode) : List UInt16 := [d.typ, d.major, d.minor, d.nlink, d.mode, d.uid, d.gid]

/- The 32-bit fields before `addrs`, in storage order. -/
def words (d : DInode) : List UInt32 := [d.size, d.atime, d.mtime, d.ctime]

/- The `DINODE_SIZE` bytes of an inode. -/
def encode (d : DInode) : List UInt8 :=
  d.halves.flatMap (fun v => toLe 2 v.toNat) ++ toLe 2 0 ++
    d.words.flatMap (fun v => toLe 4 v.toNat) ++
    (List.ofFn d.addrs).flatMap (fun v => toLe 4 v.toNat) ++
    List.replicate 40 0

def decode (b : Block) (off : Nat) : DInode where
  typ := UInt16.ofNat (b.u16At off)
  major := UInt16.ofNat (b.u16At (off + 2))
  minor := UInt16.ofNat (b.u16At (off + 4))
  nlink := UInt16.ofNat (b.u16At (off + 6))
  mode := UInt16.ofNat (b.u16At (off + 8))
  uid := UInt16.ofNat (b.u16At (off + 10))
  gid := UInt16.ofNat (b.u16At (off + 12))
  size := UInt32.ofNat (b.u32At (off + 16))
  atime := UInt32.ofNat (b.u32At (off + 20))
  mtime := UInt32.ofNat (b.u32At (off + 24))
  ctime := UInt32.ofNat (b.u32At (off + 28))
  addrs := fun k => UInt32.ofNat (b.u32At (off + 32 + k.val * 4))

@[simp] theorem encode_length (d : DInode) : d.encode.length = DINODE_SIZE := by
  have hAddrs : (List.ofFn d.addrs).length = 14 := List.length_ofFn
  simp [encode, halves, words, List.length_flatMap, DINODE_SIZE, hAddrs]

/- Decoding reads only the bytes of the record. -/
theorem decode_congr {a b : Block} {off : Nat} (h : ∀ i, off ≤ i → i < off + DINODE_SIZE →
      a.get i = b.get i) : decode a off = decode b off := by
  have hSlice : ∀ k w, k + w ≤ DINODE_SIZE → a.slice (off + k) w = b.slice (off + k) w := by
    intro k w hk
    apply Bytes.slice_congr
    intro i hLo hHi
    exact h i (by omega) (by omega)
  have h16 : ∀ k, k + 2 ≤ DINODE_SIZE → a.u16At (off + k) = b.u16At (off + k) := by
    intro k hk
    unfold Bytes.u16At
    rw [hSlice k 2 hk]
  have h32 : ∀ k, k + 4 ≤ DINODE_SIZE → a.u32At (off + k) = b.u32At (off + k) := by
    intro k hk
    unfold Bytes.u32At
    rw [hSlice k 4 hk]
  have hAddr : ∀ k : Fin (NDIRECT + 2), a.u32At (off + 32 + k.val * 4) =
        b.u32At (off + 32 + k.val * 4) := by
    intro k
    have hk : k.val < 14 := k.isLt
    have hIn : 32 + k.val * 4 + 4 ≤ 128 := by omega
    rw [Nat.add_assoc]
    exact h32 _ hIn
  have h0 : a.u16At off = b.u16At off := h16 0 (by decide)
  unfold decode
  simp only [h0, hAddr, h16 2 (by decide), h16 4 (by decide), h16 6 (by decide), h16 8 (by decide),
    h16 10 (by decide), h16 12 (by decide), h32 16 (by decide), h32 20 (by decide),
    h32 24 (by decide), h32 28 (by decide)]

theorem decode_encode (d : DInode) (b : Block) {off : Nat} (hFit : off + DINODE_SIZE ≤ BSIZE) :
    decode (b.splice off d.encode) off = d := by
  have hSlice : ∀ k w, k + w ≤ DINODE_SIZE → (b.splice off d.encode).slice (off + k) w =
        (d.encode.drop k).take w := by
    intro k w hk
    apply Bytes.slice_splice_inside
    · rw [encode_length]
      exact hk
    · rw [encode_length]
      exact hFit
  have h16 : ∀ k (v : UInt16), k + 2 ≤ DINODE_SIZE → (d.encode.drop k).take 2 = toLe 2 v.toNat →
      UInt16.ofNat ((b.splice off d.encode).u16At (off + k)) = v := by
    intro k v hk hv
    unfold Bytes.u16At
    rw [hSlice k 2 hk, hv, ofLe_toLe]
    simp
  have h32 : ∀ k (v : UInt32), k + 4 ≤ DINODE_SIZE → (d.encode.drop k).take 4 = toLe 4 v.toNat →
      UInt32.ofNat ((b.splice off d.encode).u32At (off + k)) = v := by
    intro k v hk hv
    unfold Bytes.u32At
    rw [hSlice k 4 hk, hv, ofLe_toLe]
    simp
  have hAddr : ∀ k : Fin (NDIRECT + 2), UInt32.ofNat ((b.splice off d.encode).u32At
        (off + 32 + k.val * 4)) = d.addrs k := by
    intro k
    have hk : k.val < 14 := k.isLt
    have hIn : 32 + k.val * 4 + 4 ≤ 128 := by omega
    rw [Nat.add_assoc]
    apply h32
    · exact hIn
    · fin_cases k <;> rfl
  have hTyp := h16 0 d.typ (by decide) rfl
  rw [Nat.add_zero] at hTyp
  unfold decode
  simp only [hTyp, hAddr, h16 2 d.major (by decide) rfl, h16 4 d.minor (by decide) rfl,
    h16 6 d.nlink (by decide) rfl, h16 8 d.mode (by decide) rfl, h16 10 d.uid (by decide) rfl,
    h16 12 d.gid (by decide) rfl, h32 16 d.size (by decide) rfl, h32 20 d.atime (by decide) rfl,
    h32 24 d.mtime (by decide) rfl, h32 28 d.ctime (by decide) rfl]

end DInode

/- A directory entry; the name is padded with zero bytes. -/
structure Dirent where
  inum : UInt16
  name : Bytes DIRSIZ

namespace Dirent

/- The `DIRENT_SIZE` bytes of an entry. -/
def encode (e : Dirent) : List UInt8 := toLe 2 e.inum.toNat ++ e.name.slice 0 DIRSIZ

def decode (bs : List UInt8) : Dirent where
  inum := UInt16.ofNat (ofLe (bs.take 2))
  name := Bytes.ofFn fun i => bs.getD (2 + i) 0

@[simp] theorem encode_length (e : Dirent) : e.encode.length = DIRENT_SIZE := by
  simp [encode, DIRSIZ, DIRENT_SIZE]

theorem decode_encode (e : Dirent) : decode e.encode = e := by
  have hInum : e.encode.take 2 = toLe 2 e.inum.toNat := by
    unfold encode
    rw [List.take_append_of_le_length (by simp)]
    exact List.take_of_length_le (by simp)
  have hName : ∀ i, i < DIRSIZ → e.encode.getD (2 + i) 0 = e.name.get i := by
    intro i hi
    unfold encode
    rw [List.getD_eq_getElem?_getD, List.getElem?_append_right (by simp)]
    simp only [toLe_length, Nat.add_sub_cancel_left]
    rw [Bytes.slice_getElem? hi]
    simp
  unfold decode
  congr 1
  · rw [hInum, ofLe_toLe]
    simp
  · apply Bytes.ext
    intro i hi
    rw [Bytes.get_ofFn hi, hName i hi]

end Dirent

end PlayXv6
