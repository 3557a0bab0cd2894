import PlayXv6.Sys.Names

/-
  System calls on open files.

  Descriptor slots are numbered across all processes.  The
  lowest free descriptor that the kernel would pick is an
  argument of the call.

  Main declarations:
    * `sysOpen`, `closeFile`
    * `inodeWriteLoop`
-/

namespace PlayXv6

-- Opening and Closing

abbrev O_WRONLY : UInt32 := 0x001
abbrev O_RDWR : UInt32 := 0x002
abbrev O_CREATE : UInt32 := 0x200
abbrev O_TRUNC : UInt32 := 0x400
abbrev O_APPEND : UInt32 := 0x800
abbrev O_CLOEXEC : UInt32 := 0x4000
abbrev O_NONBLOCK : UInt32 := 0x8000

/- The flags `open` accepts. -/
abbrev O_ALLOWED : UInt32 :=
  O_WRONLY ||| O_RDWR ||| O_CREATE ||| O_TRUNC |||
    O_APPEND ||| O_CLOEXEC ||| O_NONBLOCK

abbrev FB_MAJOR : UInt16 := 1
abbrev INPUT_MAJOR : UInt16 := 2

/- Owner, group or world bits allow the access. -/
def checkAccess (cred : Cred) (uid gid mode : UInt16) (wantRead wantWrite : Bool) : Bool :=
  if cred.uid = 0 then true
  else
    let bits := if cred.uid = uid.toUInt32 then (mode >>> 6) &&& 7
      else if cred.gid = gid.toUInt32 then
        (mode >>> 3) &&& 7
      else mode &&& 7
    if wantRead && bits &&& 4 == 0 then false
    else if wantWrite && bits &&& 2 == 0 then false
    else true

/- Drop a share of an open file description; the last one hands the inode to the reaper. -/
def closeFile (f : Nat) : FsProg Unit := do
  match ← call (.dropFile f) with
  | none => pure ()
  | some ip =>
    call (.clone ip)
    iputDeferred ip
    call (.iput ip)

/- Install a share in a descriptor slot, or drop it. -/
def allocFd (slot : Option Nat) (f : Nat) : FsProg Int := do
  match slot with
  | none =>
    closeFile f
    pure (-1)
  | some d =>
    if ← call (.fillFd d f) then
      pure d
    else
      closeFile f
      pure (-1)

/- The checks of `open` on the locked inode. -/
def openAllowed (cred : Cred) (flags : UInt32) (s : InodeState) : Bool :=
  if s.typ = 0 then false
  else if s.typ = T_DIR ∧ flags &&& (O_WRONLY ||| O_RDWR) ≠ 0
    then false
  else if flags &&& O_CREATE = 0 then
    checkAccess cred s.uid s.gid s.mode (flags &&& O_WRONLY = 0)
      (flags &&& (O_WRONLY ||| O_RDWR) ≠ 0)
  else true

/-
  A device inode opens a device object, not the inode;
  `present` tells which devices the machine has.
-/
def openFile (ip : Nat) (flags : UInt32) (typ major : UInt16) (present : UInt16 → Bool)
    (slot : Option Nat) : FsProg Int := do
  if typ = T_DEVICE ∧
      (major = FB_MAJOR ∨ major = INPUT_MAJOR) then
    call (.iput ip)
    pure (if present major then (slot.elim (-1) Int.ofNat)
      else -1)
  else
    let f ← call (.newFile
      { ip := ip
        off := 0
        readable := flags &&& O_WRONLY = 0
        writable := flags &&& (O_WRONLY ||| O_RDWR) ≠ 0
        append := flags &&& O_APPEND ≠ 0
        count := 1 })
    allocFd slot f

def openInode (sb : Superblock) (cred : Cred) (ip : Nat) (flags : UInt32) (present : UInt16 → Bool)
    (slot : Option Nat) : FsProg Int := do
  ilock ip
  let s ← call (.getState ip)
  if !openAllowed cred flags s then
    iunlock ip
    call (.iput ip)
    pure (-1)
  else if flags &&& O_TRUNC ≠ 0 ∧ s.typ = T_FILE then
    -- the lock is held while the operation is admitted
    call (.mark (.truncOpen ip))
    call .beginOp
    itrunc sb ip
    iunlock ip
    endOp
    openFile ip flags s.typ s.major present slot
  else
    iunlock ip
    openFile ip flags s.typ s.major present slot

def sysOpen (sb : Superblock) (p : Nat) (cred : Cred) (path : Name) (flags : UInt32)
    (present : UInt16 → Bool) (slot : Option Nat) : FsProg Int := do
  if flags &&& ~~~O_ALLOWED ≠ 0 then
    pure (-1)
  else
    let found ←
      if flags &&& O_CREATE ≠ 0 then
        createAtPath sb p cred path T_FILE 0 0
      else
        resolvePath p path
    match found with
    | none => pure (-1)
    | some ip => openInode sb cred ip flags present slot

/- Read through a descriptor; `copied` tells whether the bytes could be copied out. -/
def inodeRead (ip f len : Nat) (copied : Bool) : FsProg Int := do
  ilock ip
  let cur ← call (.getOff f)
  let s ← call (.getState ip)
  if s.size.toNat ≤ cur then
    iunlock ip
    call (.iput ip)
    pure 0
  else
    let want := min len (s.size.toNat - cur)
    let bs ← readi ip want cur
    if copied ∧ bs ≠ [] then
      call (.setOff f (cur + bs.length))
    iunlock ip
    call (.iput ip)
    pure (if copied then bs.length else -1)

/- Largest byte count of one log transaction. -/
abbrev WRITE_CHUNK : Nat := (Log.MAXOPBLOCKS - 1 - 1 - 2) / 2 * BSIZE

/-
  The loop of `inode_write`.  `data` are the bytes the caller
  can read, `len` is the length it asked for.
-/
def inodeWriteLoop (sb : Superblock) (ip f len : Nat) (data : List UInt8) (append : Bool) :
    Nat → Nat → FsProg Int
  | 0, written => pure written
  | fuel + 1, written => do
      if written < len then
        let chunk := min (len - written) WRITE_CHUNK
        if data.length < written + chunk then
          pure (if written = 0 then -1 else written)
        else
          call .beginOp
          ilock ip
          let s ← call (.getState ip)
          let cur ←
            if append then pure s.size.toNat
            else call (.getOff f)
          if s.size.toNat < cur then
            iunlock ip
            endOp
            pure (if written = 0 then -1 else written)
          else
            let n ← writei sb ip
              ((data.drop written).take chunk) cur
            if 0 < n ∧ !append then
              call (.setOff f (cur + n))
            iunlock ip
            endOp
            if n < chunk then
              pure (written + n : Nat)
            else
              inodeWriteLoop sb ip f len data append fuel
                (written + n)
      else
        pure written

/- A disk with four inodes and 56 data blocks, to run calls on. -/
def oneDirDisk : Superblock where
  magic := FSMAGIC
  size := 60
  nblocks := 56
  ninodes := 4
  nlog := 0
  logstart := 2
  inodestart := 2
  bmapstart := 3

end PlayXv6
