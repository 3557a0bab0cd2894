import PlayXv6.Fs.State

/-
  The block allocator and the inode layer.

  The functions are the kernel's, with an inode given by its
  number.  A function that takes a locked inode reads and
  writes its in-memory state; `ilock` and `iunlock` bracket
  the uses.

  Main declarations:
    * `balloc`, `bmapOrAlloc`
    * `readi`, `writei`
-/

namespace PlayXv6

def ballocFrom (sb : Superblock) : Nat → Nat → FsProg (Option Nat)
  | 0, _ => pure none
  | n + 1, b => do
      if b < sb.size then
        let found ← call (.claimBit (sb.bmapstart + b / BPB)
          (min BPB (sb.size - b)))
        match found with
        | some bi =>
          call (.logWrite (b + bi) fun _ => Bytes.zero)
          pure (some (b + bi))
        | none => ballocFrom sb n (b + BPB)
      else
        pure none

/- Allocate a block and zero it; `none` if the disk is full. -/
def balloc (sb : Superblock) : FsProg (Option Nat) := ballocFrom sb (sb.size / BPB + 1) 0

def bfree (sb : Superblock) (b : Nat) : FsProg Unit :=
  call (.clearBit (sb.bmapstart + b / BPB) (b % BPB))

/- Fill the in-memory copy of a locked inode. -/
def loadFromDisk (i : Nat) : FsProg Unit := do
  let dino ← call (.readDinode i)
  call (.setState i dino)
  if dino.typ = 0 then
    call (.fail .emptyInode)

def ilock (i : Nat) : FsProg Unit := do
  call (.lock i)
  let valid ← call (.isValid i)
  if !valid then
    loadFromDisk i
    call (.setValid i)

def iunlock (i : Nat) : FsProg Unit :=
  call (.unlock i)

/- Flush the in-memory inode back through the log. -/
def iupdate (i : Nat) : FsProg Unit := do
  let s ← call (.getState i)
  call (.writeDinode i s)

/- The disk block of file block `bn`, or 0 for a hole. -/
def bmap (i bn : Nat) : FsProg Nat := do
  let s ← call (.getState i)
  if bn < NDIRECT then
    pure (s.addrs.get bn)
  else if bn < NDIRECT + NINDIRECT then
    let idx := bn - NDIRECT
    let ind := s.addrs.get NDIRECT
    if ind = 0 then
      pure 0
    else
      let indBuf ← call (.bread ind)
      pure (indBuf.u32At (idx * 4))
  else if MAXFILE ≤ bn then
    pure 0
  else
    let off := bn - NDIRECT - NINDIRECT
    let outer := off / NINDIRECT
    let inner := off % NINDIRECT
    let root := s.addrs.get NDOUBLE_SLOT
    if root = 0 then
      pure 0
    else
      let rootBuf ← call (.bread root)
      let leaf := rootBuf.u32At (outer * 4)
      if leaf = 0 then
        pure 0
      else
        let leafBuf ← call (.bread leaf)
        pure (leafBuf.u32At (inner * 4))

/- The block in slot `k` of `addrs`, allocated if the slot is empty. -/
def slotOrAlloc (sb : Superblock) (i k : Nat) : FsProg (Option Nat) := do
  let s ← call (.getState i)
  let cur := s.addrs.get k
  if cur ≠ 0 then
    pure (some cur)
  else
    match ← balloc sb with
    | none => pure none
    | some new =>
      let s ← call (.getState i)
      call (.setState i { s with addrs := s.addrs.set k new })
      pure (some new)

/- The block in entry `j` of the indirect block `ind`, allocated if the entry is empty. -/
def entryOrAlloc (sb : Superblock) (ind j : Nat) : FsProg (Option Nat) := do
  let buf ← call (.bread ind)
  let cur := buf.u32At (j * 4)
  if cur ≠ 0 then
    pure (some cur)
  else
    match ← balloc sb with
    | none => pure none
    | some new =>
      call (.logWrite ind fun blk => blk.putU32 (j * 4) new)
      pure (some new)

/- Like `bmap`, allocating what is missing. -/
def bmapOrAlloc (sb : Superblock) (i bn : Nat) : FsProg (Option Nat) := do
  if bn < NDIRECT then
    slotOrAlloc sb i bn
  else if bn < NDIRECT + NINDIRECT then
    match ← slotOrAlloc sb i NDIRECT with
    | none => pure none
    | some ind => entryOrAlloc sb ind (bn - NDIRECT)
  else
    if MAXFILE ≤ bn then
      call (.fail .fileTooBig)
    let off := bn - NDIRECT - NINDIRECT
    match ← slotOrAlloc sb i NDOUBLE_SLOT with
    | none => pure none
    | some root =>
      match ← entryOrAlloc sb root (off / NINDIRECT) with
      | none => pure none
      | some leaf => entryOrAlloc sb leaf (off % NINDIRECT)

-- Reading and Writing

/- The loop of `readi`, with the bytes read so far. -/
def readiLoop (i limit : Nat) : Nat → Nat → Nat → List UInt8 → FsProg (List UInt8)
  | 0, _, _, acc => pure acc
  | fuel + 1, tot, cur, acc => do
      if tot < limit then
        let blkno ← bmap i (cur / BSIZE)
        let blockOff := cur % BSIZE
        let chunk := min (BSIZE - blockOff) (limit - tot)
        if blkno = 0 then
          readiLoop i limit fuel (tot + chunk) (cur + chunk)
            (acc ++ List.replicate chunk 0)
        else
          let buf ← call (.bread blkno)
          readiLoop i limit fuel (tot + chunk) (cur + chunk)
            (acc ++ buf.slice blockOff chunk)
      else
        pure acc

/-
  Read up to `len` bytes at `off`; the result is the bytes
  copied to the front of the destination.  Every round of the
  loop copies at least one byte.
-/
def readi (i len off : Nat) : FsProg (List UInt8) := do
  let s ← call (.getState i)
  let size := s.size.toNat
  if size ≤ off then
    pure []
  else
    let now ← call .now
    call (.setState i { s with atime := now })
    let limit := min (len % 2 ^ 32) (size - off)
    readiLoop i limit limit 0 off []

/- The loop of `writei`; the result is the bytes written. -/
def writeiLoop (sb : Superblock) (i want : Nat) (src : List UInt8) : Nat → Nat → Nat → FsProg Nat
  | 0, tot, _ => pure tot
  | fuel + 1, tot, cur => do
      if tot < want then
        match ← bmapOrAlloc sb i (cur / BSIZE) with
        | none => pure tot
        | some blkno =>
          let blockOff := cur % BSIZE
          let chunk := min (BSIZE - blockOff) (want - tot)
          call (.logWrite blkno fun blk =>
            blk.splice blockOff ((src.drop tot).take chunk))
          writeiLoop sb i want src fuel (tot + chunk)
            (cur + chunk)
      else
        pure tot

/- Write `src` at `off`, extending the file if needed. -/
def writeiBody (sb : Superblock) (i : Nat) (src : List UInt8) (off : Nat) : FsProg Nat := do
  let maxBytes := MAXFILE * BSIZE
  if maxBytes ≤ off then
    pure 0
  else
    let want := min src.length (maxBytes - off)
    let tot ← writeiLoop sb i want src want 0 off
    if 0 < tot then
      let now ← call .now
      let s ← call (.getState i)
      let size := max s.size.toNat (off + tot)
      call (.setState i
        { s with
          mtime := now
          ctime := now
          size := UInt32.ofNat size })
      iupdate i
    pure tot

/- The same between two marks. -/
def writei (sb : Superblock) (i : Nat) (src : List UInt8) (off : Nat) : FsProg Nat := do
  call (.mark (.writei i off src.length))
  let tot ← writeiBody sb i src off
  call (.mark (.writeEnd i))
  pure tot

-- Truncation

def entriesFrom (blk : Block) (lo : Nat) : List Nat :=
  ((List.range' lo (NINDIRECT - lo)).map fun j => blk.u32At (j * 4)).filter fun b => b ≠ 0

def zeroEntries (lo : Nat) (blk : Block) : Block :=
  (List.range' lo (NINDIRECT - lo)).foldl
    (fun data j =>
      if data.u32At (j * 4) ≠ 0 then data.putU32 (j * 4) 0
      else data)
    blk

def freeEntries (sb : Superblock) (ind : Nat) : FsProg Unit :=
  Prog.forEach (List.range NINDIRECT) fun j => do
    let buf ← call (.bread ind)
    let b := buf.u32At (j * 4)
    if b ≠ 0 then
      bfree sb b

/- Cut an indirect block off at entry `lo`. -/
def trimEntries (sb : Superblock) (ind lo : Nat) : FsProg Unit := do
  let buf ← call (.bread ind)
  call (.logWrite ind (zeroEntries lo))
  Prog.forEach (entriesFrom buf lo) (bfree sb)

/- Free indirect blocks with everything they hold. -/
def freeLeaves (sb : Superblock) (leaves : List Nat) : FsProg Unit :=
  Prog.forEach leaves fun leaf => do
    freeEntries sb leaf
    bfree sb leaf

/- Step 1: direct blocks beyond the cutoff. -/
def truncDirect (sb : Superblock) (keep : Nat) : List Nat → Addrs → FsProg Addrs
  | [], a => pure a
  | k :: ks, a => do
      if keep ≤ k ∧ a.get k ≠ 0 then
        bfree sb (a.get k)
        truncDirect sb keep ks (a.set k 0)
      else
        truncDirect sb keep ks a

/- Step 2: the single-indirect block. -/
def truncIndirect (sb : Superblock) (keep : Nat) (a : Addrs) : FsProg Addrs := do
  let ind := a.get NDIRECT
  let indKeep := min (keep - NDIRECT) NINDIRECT
  if ind = 0 then
    pure a
  else if indKeep = 0 then
    freeEntries sb ind
    bfree sb ind
    pure (a.set NDIRECT 0)
  else if indKeep < NINDIRECT then
    trimEntries sb ind indKeep
    pure a
  else
    pure a

/- Step 3: the double-indirect tree. -/
def truncDouble (sb : Superblock) (keep : Nat) (a : Addrs) : FsProg Addrs := do
  let root := a.get NDOUBLE_SLOT
  let diKeep := keep - (NDIRECT + NINDIRECT)
  let leavesKeep := (diKeep + NINDIRECT - 1) / NINDIRECT
  let innerKeepInLast :=
    diKeep - (leavesKeep - 1) * NINDIRECT
  if root = 0 then
    pure a
  else if diKeep = 0 then
    let rootBuf ← call (.bread root)
    freeLeaves sb (entriesFrom rootBuf 0)
    bfree sb root
    pure (a.set NDOUBLE_SLOT 0)
  else
    let rootBuf ← call (.bread root)
    call (.logWrite root (zeroEntries leavesKeep))
    freeLeaves sb (entriesFrom rootBuf leavesKeep)
    if innerKeepInLast < NINDIRECT ∧ 0 < leavesKeep then
      let rootBuf ← call (.bread root)
      let leaf := rootBuf.u32At ((leavesKeep - 1) * 4)
      if leaf ≠ 0 then
        trimEntries sb leaf innerKeepInLast
    pure a

/- The block of the last file block kept, or 0. -/
def tailBlock (a : Addrs) (idx : Nat) : FsProg Nat := do
  if idx < NDIRECT then
    pure (a.get idx)
  else if idx < NDIRECT + NINDIRECT then
    if a.get NDIRECT = 0 then
      pure 0
    else
      let indBuf ← call (.bread (a.get NDIRECT))
      pure (indBuf.u32At ((idx - NDIRECT) * 4))
  else
    let off := idx - NDIRECT - NINDIRECT
    if a.get NDOUBLE_SLOT = 0 then
      pure 0
    else
      let rootBuf ← call (.bread (a.get NDOUBLE_SLOT))
      let leaf := rootBuf.u32At (off / NINDIRECT * 4)
      if leaf = 0 then
        pure 0
      else
        let leafBuf ← call (.bread leaf)
        pure (leafBuf.u32At (off % NINDIRECT * 4))

/- Zero the tail of the last block kept. -/
def zeroTail (a : Addrs) (newSize curSize keep : Nat) : FsProg Unit := do
  let inBlkOff := newSize % BSIZE
  if newSize < curSize ∧ 0 < keep ∧ 0 < inBlkOff then
    let blkNo ← tailBlock a (keep - 1)
    if blkNo ≠ 0 then
      call (.logWrite blkNo fun blk =>
        blk.splice inBlkOff
          (List.replicate (BSIZE - inBlkOff) 0))

/- Truncate an inode to exactly `newSize` bytes. -/
def itruncTo (sb : Superblock) (i newSize : Nat) : FsProg Unit := do
  let s ← call (.getState i)
  let curSize := s.size.toNat
  let keep := (newSize + BSIZE - 1) % 2 ^ 32 / BSIZE
  call (.mark (.truncBegin i))
  let a ← truncDirect sb keep (List.range NDIRECT) s.addrs
  let a ← truncIndirect sb keep a
  let a ← truncDouble sb keep a
  let now ← call .now
  let s ← call (.getState i)
  call (.setState i { s with mtime := now, ctime := now })
  zeroTail a newSize curSize keep
  let s ← call (.getState i)
  call (.setState i
    { s with addrs := a, size := UInt32.ofNat newSize })
  iupdate i
  call (.mark (.truncEnd i))

def itrunc (sb : Superblock) (i : Nat) : FsProg Unit := itruncTo sb i 0

/-
  The loop of `ialloc`, over the inodes from `inum` on.  A
  slot is tested and claimed between two await points.
-/
def iallocFrom (typ mode : UInt16) : Nat → Nat → FsProg (Option Nat)
  | 0, _ => pure none
  | n + 1, inum => do
      let now ← call .now
      let claimed ← call (.claimDinode inum
        { DInode.default with
          typ := typ
          nlink := 1
          mode := mode
          atime := now
          mtime := now
          ctime := now })
      if claimed then
        call (.iget inum)
        pure (some inum)
      else
        iallocFrom typ mode n (inum + 1)

/- Claim a free inode and take a reference to it. -/
def ialloc (sb : Superblock) (typ mode : UInt16) : FsProg (Option Nat) :=
  iallocFrom typ mode (sb.ninodes - 1) 1

/- Leave a log operation; the last one commits. -/
def endOp : FsProg Unit := do
  let last ← call .endOp
  if last then
    call .commit

/- Truncate a locked inode and mark it free on disk. -/
def ifree (sb : Superblock) (i : Nat) : FsProg Unit := do
  call (.mark (.freeBegin i))
  itrunc sb i
  let s ← call (.getState i)
  call (.setState i { s with typ := 0 })
  iupdate i
  call (.mark (.freeEnd i))

/- Hand a reference to the reaper. -/
def iputDeferred (ip : Nat) : FsProg Unit :=
  call (.enqueue ip)

end PlayXv6
