import PlayXv6.Fs.Path

/-
  System calls that create, remove and change names.

  A call gets the bytes of its path arguments, the process it
  runs for and that process's credentials.  Every reference is
  dropped and every lock released where the kernel's locals go
  out of scope.

  Main declarations:
    * `createInsideOp`, `unlinkInsideOp`
-/

namespace PlayXv6

/-
  What a call reads of its process besides the tables.  An
  inode keeps only the lower half of an owner.
-/
structure Cred where
  uid : UInt32
  gid : UInt32
  umask : UInt16
deriving DecidableEq, Repr

-- Creating

/- Set the owner and device numbers of a new inode. -/
def initChild (child : Nat) (major minor uid gid : UInt16) : FsProg Unit := do
  let s ← call (.getState child)
  call (.setState child
    { s with
      major := major
      minor := minor
      nlink := 1
      uid := uid
      gid := gid })
  iupdate child

/- Add `.` and `..` to a new directory. -/
def linkDots (sb : Superblock) (child dir : Nat) : FsProg Bool := do
  if ← dirlink sb child dot (UInt16.ofNat child) then
    dirlink sb child dotdot (UInt16.ofNat dir)
  else
    pure false

def addLink (i : Nat) : FsProg Unit := do
  call (.mark (.addLink i))
  let s ← call (.getState i)
  call (.setState i { s with nlink := s.nlink + 1 })
  iupdate i

def subLink (i : Nat) : FsProg Unit := do
  call (.mark (.dropLink i))
  let s ← call (.getState i)
  call (.setState i { s with nlink := s.nlink - 1 })
  iupdate i

/- What `create_inside_op` does with a name that exists. -/
def createExisting (dir existing : Nat) (typ : UInt16) : FsProg (Option Nat) := do
  if typ ≠ T_FILE then
    call (.iput existing)
    iunlock dir
    pure none
  else
    ilock existing
    let s ← call (.getState existing)
    iunlock existing
    if s.typ = T_FILE ∨ s.typ = T_DEVICE then
      iunlock dir
      pure (some existing)
    else
      call (.iput existing)
      iunlock dir
      pure none

/- Allocate an inode and link it into the locked directory. -/
def createNew (sb : Superblock) (dir : Nat) (name : Name) (typ major minor mode uid gid : UInt16) :
    FsProg (Option Nat) := do
  match ← ialloc sb typ mode with
  | none =>
    iunlock dir
    pure none
  | some child =>
    call (.mark (.createBegin dir child))
    ilock child
    call (.mark (.createEnd dir))
    initChild child major minor uid gid
    let dots ←
      if typ = T_DIR then linkDots sb child dir
      else pure true
    iunlock child
    if !dots then
      call (.iput child)
      iunlock dir
      pure none
    else if !(← dirlink sb dir name
        (UInt16.ofNat child)) then
      call (.iput child)
      iunlock dir
      pure none
    else
      if typ = T_DIR then
        addLink dir
      iunlock dir
      pure (some child)

def createInsideOp (sb : Superblock) (dir : Nat) (name : Name)
    (typ major minor mode uid gid : UInt16) : FsProg (Option Nat) := do
  ilock dir
  match ← dirlookupFull dir name with
  | some (existing, _) => createExisting dir existing typ
  | none => createNew sb dir name typ major minor mode uid gid

/- The permission bits of a new inode before the mask. -/
def defaultMode (typ : UInt16) : UInt16 := if typ = T_DIR then 0o777 else 0o666

/- Allocate an inode of `typ` and link it at `path`. -/
def createAtPath (sb : Superblock) (p : Nat) (cred : Cred) (path : Name)
    (typ major minor : UInt16) : FsProg (Option Nat) := do
  match ← nameiparentViaCwd p path with
  | none => pure none
  | some (dir, name) =>
    if name = [] ∨ name = dot ∨ name = dotdot then
      call (.iput dir)
      pure none
    else
      call .beginOp
      let r ← createInsideOp sb dir name typ major minor
        (defaultMode typ &&& ~~~cred.umask)
        cred.uid.toUInt16 cred.gid.toUInt16
      endOp
      call (.iput dir)
      pure r

/- Remove the entry at `off` of `dir`, which names `child`. -/
def unlinkEntry (sb : Superblock) (dir child off : Nat) : FsProg Int := do
  ilock child
  let c ← call (.getState child)
  let isDir := c.typ = T_DIR
  let refuse ←
    if isDir then do
      let e ← dirIsEmpty child
      pure (!e)
    else pure false
  if refuse then
    iunlock child
    call (.iput child)
    iunlock dir
    pure (-1)
  else
    let _ ← dirunlinkAt sb dir off
    if isDir then
      subLink dir
    let c ← call (.getState child)
    call (.setState child { c with nlink := c.nlink - 1 })
    let c ← call (.getState child)
    let free ←
      if c.nlink = 0 then do
        let count ← call (.strongCount child)
        pure (count ≤ 2 : Bool)
      else pure false
    if free then
      ifree sb child
    else
      iupdate child
    iunlock child
    call (.iput child)
    iunlock dir
    pure 0

def unlinkInsideOp (sb : Superblock) (dir : Nat) (name : Name) : FsProg Int := do
  ilock dir
  match ← dirlookupFull dir name with
  | none =>
    iunlock dir
    pure (-1)
  | some (child, off) => unlinkEntry sb dir child off

def sysUnlink (sb : Superblock) (p : Nat) (path : Name) : FsProg Int := do
  match ← nameiparentViaCwd p path with
  | none => pure (-1)
  | some (dir, name) =>
    if name = dot ∨ name = dotdot then
      call (.iput dir)
      pure (-1)
    else
      call .beginOp
      let r ← unlinkInsideOp sb dir name
      endOp
      call (.iput dir)
      pure r

/- The emptiness test of `rmdir`: every entry in use is `.` or `..`, and every entry can be read. -/
def rmdirIsEmpty (dir : Nat) : FsProg Bool := do
  let s ← call (.getState dir)
  let size := s.size.toNat
  match ← scanEntries dir
      (fun e => e.inum ≠ 0 &&
        trimmedName e ≠ dot && trimmedName e ≠ dotdot)
      size (scanFuel size) 0 with
  | .finished => pure true
  | _ => pure false

def sysRmdir (sb : Superblock) (p : Nat) (path : Name) : FsProg Int := do
  match ← resolvePath p path with
  | none => pure (-1)
  | some ip =>
    ilock ip
    let s ← call (.getState ip)
    let ok ←
      if s.typ = T_DIR then rmdirIsEmpty ip
      else pure false
    iunlock ip
    call (.iput ip)
    if ok then
      sysUnlink sb p path
    else
      pure (-1)

end PlayXv6
