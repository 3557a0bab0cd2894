import PlayXv6.Lib.Logic
import PlayXv6.Fs.Log

/-
  The state of the file system and its atomic commands.

  The state is what the kernel keeps in memory: the block
  buffers, the inode cache, the log counters, the open file
  descriptions and the reaper's queue.  A command is a section
  of kernel code that runs without an await point and, across
  harts, under one lock or as one atomic access; everything
  above is a program over these commands.

  Inodes are addressed by inode number: the cache never holds
  two live slots for one number, and there is one device.

  Main declarations:
    * `Fs`, `Cmd`, `exec`
-/

namespace PlayXv6

open Function

/- The mask `1u8 << (bi % 8)`. -/
def bitMask (bi : Nat) : UInt8 := 1 <<< UInt8.ofNat (bi % 8)

def bitSet (blk : Block) (bi : Nat) : Bool := blk.get (bi / 8) &&& bitMask bi != 0

def setBit (blk : Block) (bi : Nat) : Block := blk.splice (bi / 8) [blk.get (bi / 8) ||| bitMask bi]

def unsetBit (blk : Block) (bi : Nat) : Block :=
  blk.splice (bi / 8) [blk.get (bi / 8) &&& ~~~(bitMask bi)]

/- The first clear bit among the `n` bits from `bi` on. -/
def firstClear (blk : Block) : Nat → Nat → Option Nat
  | 0, _ => none
  | n + 1, bi =>
    if bitSet blk bi then firstClear blk n (bi + 1)
    else some bi

/-
  An open file description on an inode; `count` is the number
  of descriptors and running calls that share it.
-/
structure OpenFile where
  ip : Nat
  off : Nat
  readable : Bool
  writable : Bool
  append : Bool
  count : Nat
deriving DecidableEq, Repr

/-
  The file system in memory.

  `refs i` counts the references to the cached inode `i`
  other than the cache's own.  `fds`, `vmas` and `cwd` are the
  descriptor slots, file mappings and current directories of
  all processes.

  The last three fields are not kept by the kernel.
  `truncating` records which inodes have an `itrunc_to` under
  way; `freeing` records which inodes have been found without
  other holders by a task that is about to free them;
  `creating` records the inode that a locked directory is
  about to get an entry for.
-/
structure Fs where
  blocks : Nat → Block
  logged : List Nat
  outstanding : Nat
  committing : Bool
  refs : Nat → Nat
  valid : Nat → Bool
  state : Nat → InodeState
  locked : Nat → Bool
  reapQueue : List Nat
  files : Nat → Option OpenFile
  nextFile : Nat
  fds : Nat → Option Nat
  vmas : Nat → Option Nat
  cwd : Nat → Option Nat
  clock : UInt32
  truncating : Nat → Bool
  freeing : Nat → Bool
  creating : Nat → Option Nat

/- The state right after the disk has been mounted. -/
def Fs.boot (blocks : Nat → Block) : Fs where
  blocks := blocks
  logged := []
  outstanding := 0
  committing := false
  refs := fun _ => 0
  valid := fun _ => false
  state := fun _ => DInode.default
  locked := fun _ => false
  reapQueue := []
  files := fun _ => none
  nextFile := 0
  fds := fun _ => none
  vmas := fun _ => none
  cwd := fun _ => none
  clock := 0
  truncating := fun _ => false
  freeing := fun _ => false
  creating := fun _ => none

def iblock (sb : Superblock) (i : Nat) : Nat := i / IPB + sb.inodestart

def ioff (i : Nat) : Nat := i % IPB * DINODE_SIZE

namespace Fs

def dinode (s : Fs) (sb : Superblock) (i : Nat) : DInode :=
  DInode.decode (s.blocks (iblock sb i)) (ioff i)

/-
  Change a block in its buffer and record it in the running
  transaction.  The capacity of the log is not part of this
  model, and neither are the two assertions of `log_write`
  that depend on it and on the open operations.
-/
def logWrite (s : Fs) (b : Nat) (f : Block → Block) : Fs :=
  { s with
    blocks := update s.blocks b (f (s.blocks b))
    logged := if b ∈ s.logged then s.logged else s.logged ++ [b] }

end Fs

/- The state in memory if it is live, else the stored one. -/
def currSt (sb : Superblock) (s : Fs) (i : Nat) : InodeState :=
  if 0 < s.refs i ∧ s.valid i = true then s.state i
  else s.dinode sb i

-- Commands

inductive Panic where
  | blockAlreadyFree
  | emptyInode
  | notDirectory
  | fileTooBig
  | endOpWhileCommitting
deriving DecidableEq, Repr

/- Points of the code that a statement refers to. Passing one has no effect on the kernel. -/
inductive Mark where
  | truncBegin (i : Nat)
  | truncEnd (i : Nat)
  | writei (i off len : Nat)
  | writeEnd (i : Nat)
  -- an inode without names or holders is about to be freed
  | freeBegin (i : Nat)
  | freeEnd (i : Nat)
  -- `open` truncates a regular file it has locked
  | truncOpen (i : Nat)
  -- a link count is lowered, but not for the entry that
  -- `unlink` removes
  | dropLink (i : Nat)
  | addLink (i : Nat)
  -- a new inode is locked under its directory's lock
  | createBegin (dir child : Nat)
  | createEnd (dir : Nat)
deriving DecidableEq, Repr

/- The atomic commands, indexed by the type of the reply. -/
inductive Cmd : Type → Type where
  -- block buffers and the log
  | bread (b : Nat) : Cmd Block
  | logWrite (b : Nat) (f : Block → Block) : Cmd Unit
  | claimBit (blkno upto : Nat) : Cmd (Option Nat)
  | clearBit (blkno bi : Nat) : Cmd Unit
  | readDinode (i : Nat) : Cmd DInode
  | writeDinode (i : Nat) (d : DInode) : Cmd Unit
  | claimDinode (i : Nat) (d : DInode) : Cmd Bool
  | beginOp : Cmd Unit
  | endOp : Cmd Bool
  | commit : Cmd Unit
  -- the inode cache
  | iget (i : Nat) : Cmd Unit
  | clone (i : Nat) : Cmd Unit
  | iput (i : Nat) : Cmd Unit
  | strongCount (i : Nat) : Cmd Nat
  | lock (i : Nat) : Cmd Unit
  | unlock (i : Nat) : Cmd Unit
  | isValid (i : Nat) : Cmd Bool
  | setValid (i : Nat) : Cmd Unit
  | getState (i : Nat) : Cmd InodeState
  | setState (i : Nat) (st : InodeState) : Cmd Unit
  -- the reaper's queue
  | enqueue (i : Nat) : Cmd Unit
  | dequeue : Cmd (Option Nat)
  -- open files, mappings and current directories
  | newFile (o : OpenFile) : Cmd Nat
  | dropFile (f : Nat) : Cmd (Option Nat)
  | getFd (d : Nat) : Cmd (Option (Nat × OpenFile))
  | fillFd (d f : Nat) : Cmd Bool
  | takeFd (d : Nat) : Cmd (Option Nat)
  | getOff (f : Nat) : Cmd Nat
  | setOff (f off : Nat) : Cmd Unit
  | getCwd (p : Nat) : Cmd (Option Nat)
  | setCwd (p : Nat) (ip : Option Nat) : Cmd (Option Nat)
  | getVma (m : Nat) : Cmd (Option Nat)
  | setVma (m : Nat) (ip : Option Nat) : Cmd (Option Nat)
  -- the rest
  | now : Cmd UInt32
  | mark (m : Mark) : Cmd Unit
  | fail (e : Panic) : Cmd Unit

abbrev FsProg (α : Type) : Type 1 := Prog Cmd α

abbrev call {β : Type} (c : Cmd β) : FsProg β :=
  Prog.lift c

-- What the Commands Do

/- `begin_op` would admit another operation. -/
def Fs.admits (s : Fs) : Bool :=
  !s.committing &&
    s.logged.length + (s.outstanding + 1) * Log.MAXOPBLOCKS ≤ LOGSIZE

/- Passing a mark changes only the record of it. -/
def Fs.passMark (s : Fs) : Mark → Fs
  | .truncBegin i =>
    { s with
      truncating := update s.truncating i true }
  | .truncEnd i =>
    { s with
      truncating := update s.truncating i false }
  | .freeEnd i =>
    { s with
      freeing := update s.freeing i false }
  | .createBegin dir child =>
    { s with
      creating := update s.creating dir (some child) }
  | .createEnd dir =>
    { s with
      creating := update s.creating dir none }
  | _ => s

def Fs.addRef (s : Fs) (i : Nat) : Fs := { s with refs := update s.refs i (s.refs i + 1) }

def Fs.shareFile (s : Fs) (f : Nat) (o : OpenFile) : Fs :=
  { s with
    files := update s.files f (some { o with count := o.count + 1 }) }

/-
  Drop one share of an open file description.  The last drop
  returns the inode, whose reference passes to the caller.
-/
def Fs.dropFile (s : Fs) (f : Nat) : Option Nat × Fs :=
  match s.files f with
  | none => (none, s)
  | some o =>
    if o.count = 1 then
      (some o.ip,
        { s with
          files := update s.files f none })
    else
      (none,
        { s with
          files := update s.files f (some { o with count := o.count - 1 }) })

def exec (sb : Superblock) {β : Type} (c : Cmd β) (s : Fs) : Outcome Panic Fs β :=
  match c with
  | .bread b => .ok (s.blocks b) s
  | .logWrite b f => .ok () (s.logWrite b f)
  | .claimBit blkno upto =>
    match firstClear (s.blocks blkno) upto 0 with
    | none => .ok none s
    | some bi =>
      .ok (some bi) (s.logWrite blkno fun blk => setBit blk bi)
  | .clearBit blkno bi =>
    if bitSet (s.blocks blkno) bi then
      .ok () (s.logWrite blkno fun blk => unsetBit blk bi)
    else
      .panic .blockAlreadyFree
  | .readDinode i => .ok (s.dinode sb i) s
  | .writeDinode i d =>
    .ok () (s.logWrite (iblock sb i) fun blk => blk.splice (ioff i) d.encode)
  | .claimDinode i d =>
    if (s.dinode sb i).typ = 0 then
      .ok true (s.logWrite (iblock sb i) fun blk => blk.splice (ioff i) d.encode)
    else
      .ok false s
  | .beginOp =>
    if s.admits then
      .ok () { s with outstanding := s.outstanding + 1 }
    else
      .wait
  | .endOp =>
    if s.committing then
      .panic .endOpWhileCommitting
    else
      .ok (s.outstanding = 1)
        { s with
          outstanding := s.outstanding - 1
          committing := s.outstanding = 1 }
  | .commit => .ok () { s with logged := [], committing := false }
  | .iget i =>
    .ok ()
      { s.addRef i with
        -- an idle slot is stamped invalid when it is reused
        valid :=
          if s.refs i = 0 then
            update s.valid i false
          else s.valid }
  | .clone i => .ok () (s.addRef i)
  | .iput i =>
    .ok ()
      { s with
        refs := update s.refs i (s.refs i - 1) }
  | .strongCount i =>
    .ok (s.refs i + 1)
      { s with
        freeing :=
          if s.refs i + 1 ≤ 2 then
            update s.freeing i true
          else s.freeing }
  | .lock i =>
    if s.locked i then
      .wait
    else
      .ok () { s with locked := update s.locked i true }
  | .unlock i =>
    .ok () { s with locked := update s.locked i false }
  | .isValid i => .ok (s.valid i) s
  | .setValid i =>
    .ok () { s with valid := update s.valid i true }
  | .getState i => .ok (s.state i) s
  | .setState i st =>
    .ok () { s with state := update s.state i st }
  | .enqueue i => .ok () { s with reapQueue := i :: s.reapQueue }
  | .dequeue =>
    match s.reapQueue with
    | [] => .ok none s
    | i :: rest => .ok (some i) { s with reapQueue := rest }
  | .newFile o =>
    .ok s.nextFile
      { s with
        files := update s.files s.nextFile (some { o with count := 1 })
        nextFile := s.nextFile + 1 }
  | .dropFile f => .ok (s.dropFile f).1 (s.dropFile f).2
  | .getFd d =>
    match s.fds d with
    | none => .ok none s
    | some f =>
      match s.files f with
      | none => .ok none s
      | some o => .ok (some (f, o)) (s.shareFile f o)
  | .fillFd d f =>
    match s.fds d with
    | none =>
      .ok true { s with fds := update s.fds d (some f) }
    | some _ => .ok false s
  | .takeFd d =>
    .ok (s.fds d) { s with fds := update s.fds d none }
  | .getOff f => .ok ((s.files f).elim 0 OpenFile.off) s
  | .setOff f off =>
    .ok ()
      { s with
        files := update s.files f ((s.files f).map fun o =>
            { o with off := off % 2 ^ 32 }) }
  | .getCwd p =>
    match s.cwd p with
    | none => .ok none s
    | some i => .ok (some i) (s.addRef i)
  | .setCwd p ip =>
    .ok (s.cwd p) { s with cwd := update s.cwd p ip }
  | .getVma m =>
    match s.vmas m with
    | none => .ok none s
    | some i => .ok (some i) (s.addRef i)
  | .setVma m ip =>
    .ok (s.vmas m) { s with vmas := update s.vmas m ip }
  | .now => .ok s.clock s
  | .mark m => .ok () (s.passMark m)
  | .fail e => .panic e

end PlayXv6
