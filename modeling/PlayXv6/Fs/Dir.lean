import PlayXv6.Fs.Inode

/-
  Directories.

  A directory is a file of fixed-size entries; an entry with
  inode number 0 is free.  The functions here work on a locked
  directory and scan its entries in order.

  Main declarations:
    * `dirlookup`, `dirlink`
    * `direntNameMatches_stored`
-/

namespace PlayXv6

/- The bytes of a path or of one component of it. -/
abbrev Name : Type := List UInt8

/- The comparison loop of `dirent_name_matches`. -/
def nameMatchesFrom (e : Dirent) (nb : Name) : Nat → Nat → Bool
  | 0, _ => true
  | n + 1, i =>
    let want := nb.getD i 0
    if e.name.get i ≠ want then false
    else if want = 0 then true
    else nameMatchesFrom e nb n (i + 1)

/- The entry's name is `name`, cut off at `DIRSIZ` bytes. -/
def direntNameMatches (e : Dirent) (name : Name) : Bool :=
  nameMatchesFrom e (name.take DIRSIZ) DIRSIZ 0

/- The bytes of an entry's name before the first zero. -/
def trimmedName (e : Dirent) : Name := (e.name.slice 0 DIRSIZ).takeWhile fun b => b ≠ 0

/- A fresh entry; the name is cut off at `DIRSIZ` bytes. -/
def Dirent.make (name : Name) (inum : UInt16) : Dirent where
  inum := inum
  name := Bytes.zero.splice 0 (name.take DIRSIZ)

def Dirent.default : Dirent where
  inum := 0
  name := Bytes.zero

/- The names `.` and `..`. -/
def dot : Name := [46]

def dotdot : Name := [46, 46]

-- Names in Entries

/- The loop compares what is left of the two names. -/
theorem nameMatchesFrom_iff {e : Dirent} {nb a b : Name} {n i : Nat}
    (hGet : ∀ k < n, e.name.get (i + k) = a.getD k 0)
    (hWant : ∀ k, nb.getD (i + k) 0 = b.getD k 0) (hA : a.length ≤ n) (hB : b.length ≤ n)
    (hX : 0 ∉ a) (hY : 0 ∉ b) : nameMatchesFrom e nb n i = true ↔ a = b := by
  induction n generalizing i a b with
  | zero =>
    rw [List.length_eq_zero_iff.mp (by omega : a.length = 0),
      List.length_eq_zero_iff.mp (by omega : b.length = 0)]
    simp [nameMatchesFrom]
  | succ n ih =>
    unfold nameMatchesFrom
    dsimp only
    have hFirst : e.name.get i = a.getD 0 0 := hGet 0 (by omega)
    have hFirst' : nb.getD i 0 = b.getD 0 0 := hWant 0
    rw [hFirst, hFirst']
    cases a with
    | nil =>
      cases b with
      | nil => simp
      | cons y b => simp [List.ne_of_not_mem_cons hY]
    | cons x a =>
      cases b with
      | nil => simp [Ne.symm (List.ne_of_not_mem_cons hX)]
      | cons y b =>
        rw [List.mem_cons, not_or] at hX hY
        by_cases hEq : x = y
        · have hRest := ih (i := i + 1) (a := a) (b := b)
            (fun k hk => by simpa [Nat.add_assoc, Nat.add_comm 1] using hGet (k + 1) (by omega))
            (fun k => by simpa [Nat.add_assoc, Nat.add_comm 1] using hWant (k + 1))
            (Nat.le_of_succ_le_succ hA) (Nat.le_of_succ_le_succ hB) hX.2 hY.2
          simp [hEq, hRest, Ne.symm hY.1]
        · simp [hEq]

/-
  An entry that was made for a name, stored and read back is
  found under the names that agree in the first `DIRSIZ` bytes.
-/
theorem direntNameMatches_stored {name other : Name} {inum : UInt16} (hName : 0 ∉ name)
    (hOther : 0 ∉ other) : direntNameMatches (.decode (Dirent.make name inum).encode) other = true ↔
      name.take DIRSIZ = other.take DIRSIZ := by
  rw [Dirent.decode_encode]
  refine nameMatchesFrom_iff (fun k hk => ?_) (fun k => ?_) (List.length_take_le ..)
    (List.length_take_le ..) (mt List.mem_of_mem_take hName) (mt List.mem_of_mem_take hOther)
  · unfold Dirent.make
    dsimp only
    rw [Bytes.get_splice (by omega)]
    split
    · simp
    · rename_i hOut
      rw [Bytes.get_zero, List.getD_eq_default _ _ (by omega)]
  · rw [Nat.zero_add]

/- Names of 15 bytes that differ in the last one denote one entry. -/
theorem direntNameMatches_stored_long :
    direntNameMatches (.decode (Dirent.make (List.replicate 15 97) 5).encode)
      (List.replicate 14 97 ++ [98]) = true :=
  (direntNameMatches_stored (by decide) (by decide)).mpr (by decide)

-- Scanning a Directory

/-
  How a scan ends: at an entry, at the end of the directory,
  or at an entry that could not be read whole.
-/
inductive ScanResult where
  | found (off : Nat) (e : Dirent)
  | finished
  | short

/- The first entry from `off` on that satisfies `stop`. -/
def scanEntries (dir : Nat) (stop : Dirent → Bool) (size : Nat) : Nat → Nat → FsProg ScanResult
  | 0, _ => pure .finished
  | fuel + 1, off => do
      if off < size then
        let bs ← readi dir DIRENT_SIZE off
        if bs.length ≠ DIRENT_SIZE then
          pure .short
        else
          let e := Dirent.decode bs
          if stop e then
            pure (.found off e)
          else
            scanEntries dir stop size fuel (off + DIRENT_SIZE)
      else
        pure .finished

/- Enough rounds to pass over a directory of this size. -/
def scanFuel (size : Nat) : Nat := size / DIRENT_SIZE + 1

/- An entry in use that `name` denotes. -/
def namedBy (name : Name) (e : Dirent) : Bool := e.inum ≠ 0 && direntNameMatches e name

/- `assert_eq!(dir.state().typ, T_DIR)` -/
def assertDir (dir : Nat) : FsProg Unit := do
  let s ← call (.getState dir)
  if s.typ ≠ T_DIR then
    call (.fail .notDirectory)

/- Look up a name and take a reference to its inode. -/
def dirlookup (dir : Nat) (name : Name) : FsProg (Option Nat) := do
  assertDir dir
  let s ← call (.getState dir)
  let size := s.size.toNat
  match ← scanEntries dir (namedBy name) size
      (scanFuel size) 0 with
  | .found _ e =>
    call (.iget e.inum.toNat)
    pure (some e.inum.toNat)
  | _ => pure none

def dirlookupFull (dir : Nat) (name : Name) : FsProg (Option (Nat × Nat)) := do
  let s ← call (.getState dir)
  let size := s.size.toNat
  match ← scanEntries dir (namedBy name) size
      (scanFuel size) 0 with
  | .found off e =>
    call (.iget e.inum.toNat)
    pure (some (e.inum.toNat, off))
  | _ => pure none

/- No entry after the first two is in use. -/
def dirIsEmpty (dir : Nat) : FsProg Bool := do
  let s ← call (.getState dir)
  let size := s.size.toNat
  match ← scanEntries dir (fun e => e.inum ≠ 0) size
      (scanFuel size) (2 * DIRENT_SIZE) with
  | .found _ _ => pure false
  | _ => pure true

/- The scan of `dirlink`: `none` if the name exists, otherwise the first free entry, if any. -/
def dirlinkScan (dir : Nat) (name : Name) (size : Nat) :
    Nat → Nat → Option Nat → FsProg (Option (Option Nat))
  | 0, _, freeOff => pure (some freeOff)
  | fuel + 1, off, freeOff => do
      if off < size then
        let bs ← readi dir DIRENT_SIZE off
        if bs.length ≠ DIRENT_SIZE then
          pure (some freeOff)
        else
          let e := Dirent.decode bs
          if e.inum = 0 then
            dirlinkScan dir name size fuel
              (off + DIRENT_SIZE)
              (if freeOff.isNone then some off else freeOff)
          else if direntNameMatches e name then
            pure none
          else
            dirlinkScan dir name size fuel
              (off + DIRENT_SIZE) freeOff
      else
        pure (some freeOff)

/- Add an entry; `false` if the name exists or space is out. -/
def dirlink (sb : Superblock) (dir : Nat) (name : Name) (inum : UInt16) : FsProg Bool := do
  assertDir dir
  let s ← call (.getState dir)
  let size := s.size.toNat
  match ← dirlinkScan dir name size (scanFuel size) 0 none with
  | none => pure false
  | some freeOff =>
    let wrote ← writei sb dir
      (Dirent.make name inum).encode (freeOff.getD size)
    pure (wrote = DIRENT_SIZE)

def dirunlinkAt (sb : Superblock) (dir off : Nat) : FsProg Bool := do
  let wrote ← writei sb dir Dirent.default.encode off
  pure (wrote = DIRENT_SIZE)

end PlayXv6
