import PlayXv6.Vm.PageTable

/-
  The system calls and faults that change an address space,
  as programs over frames, page tables and process records.

  Main declarations:
    * `forkFrom`, `sysExecve`, `sysExit`
-/

namespace PlayXv6

namespace Vm

/- A `usize` as the `i64` a system call returns. -/
def asI64 (n : Nat) : Int := Int.bmod n USIZE

-- Loading Program Images

inductive ElfError where
  | notElf
  | wrongArch
  | truncated
  | oom
  | mapFailed
  deriving DecidableEq, Repr

/-
  The check before the bytes of a segment are copied into the
  page at `va`.  A wrapped sum passes the comparison and then
  fails in the slice expression.
-/
def copyPage (elf : List UInt8) (ph : Phdr) (va : Nat) : VmProg (Except ElfError Unit) := do
  let lo := max va ph.vaddr
  let hi := min (pageEnd va) ((ph.vaddr + ph.filesz) % USIZE)
  if hi > lo then
    let srcOff := (ph.offset + (lo - ph.vaddr)) % USIZE
    if (srcOff + (hi - lo)) % USIZE > elf.length then
      return .error .truncated
    else if srcOff > elf.length then
      Prog.lift .panic
      return .ok ()
    else
      return .ok ()
  else
    return .ok ()

/- Map and fill the next `n` pages of a segment. -/
def loadPages (root : Nat) (elf : List UInt8) (ph : Phdr)
    (va : Nat) : Nat → VmProg (Except ElfError Unit)
  | 0 => return .ok ()
  | n + 1 => do
      match ← Prog.lift .allocZeroed with
      | none => return .error .oom
      | some pa =>
        match ← map root va pa (phdrPerms ph.flags) with
        | .error _ =>
          Prog.lift (.free pa)
          return .error .mapFailed
        | .ok () =>
          match ← copyPage elf ph va with
          | .error e => return .error e
          | .ok () => loadPages root elf ph (va + PGSIZE) n

/- The headers from `i` on; returns the highest segment end. -/
def loadSegments (root : Nat) (elf : List UInt8)
    (i maxVa : Nat) : Nat → VmProg (Except ElfError Nat)
  | 0 => return .ok maxVa
  | n + 1 => do
      let ph := phdrAt elf i
      if ¬ PhdrFits elf i then
        return .error .truncated
      else if phdrOff elf i > elf.length then
        Prog.lift .panic
        return .error .truncated
      else if ph.type ≠ PT_LOAD then
        loadSegments root elf (i + 1) maxVa n
      else
        match ← loadPages root elf ph ph.segStart
            (pages ph.segStart ph.segEnd) with
        | .error e => return .error e
        | .ok () =>
          loadSegments root elf (i + 1)
            (max maxVa ph.segEnd) n

/- The entry point and the end of the highest segment. -/
def loadProgram (root : Nat) (elf : List UInt8) : VmProg (Except ElfError (Nat × Nat)) := do
  if elf.length < EHDR_SIZE then
    return .error .truncated
  else if elf.take 4 ≠ ELF_MAGIC then
    return .error .notElf
  else if eMachine elf ≠ EXPECTED_MACHINE then
    return .error .wrongArch
  else
    match ← loadSegments root elf 0 0 (ePhnum elf) with
    | .error e => return .error e
    | .ok maxVa => return .ok (eEntry elf, maxVa)

inductive UserVmError where
  | oom
  | mapFailed
  | elf (e : ElfError)
  deriving DecidableEq, Repr

/- The frames of the stack, from page `i` on. -/
def mapStack (root i : Nat) : Nat → VmProg (Except UserVmError Unit)
  | 0 => return .ok ()
  | n + 1 => do
      match ← Prog.lift .allocZeroed with
      | none => return .error .oom
      | some pa =>
        match ← map root (STACK_VA_BASE + i * PGSIZE) pa
            .URW with
        | .error _ =>
          Prog.lift (.free pa)
          return .error .mapFailed
        | .ok () => mapStack root (i + 1) n

/- The two pages every user page table shares with the kernel. -/
def mapKernelPages (root trapframePa : Nat) : VmProg Bool := do
  let tramp ← Prog.lift .trampolinePa
  match ← map root TRAMPOLINE tramp .RX with
  | .error _ => return false
  | .ok () =>
    match ← map root TRAPFRAME trapframePa .RW with
    | .error _ => return false
    | .ok () => return true

/- Everything that is mapped into a new image. -/
def fillImage (root : Nat) (elf : List UInt8) (trapframePa : Nat) :
    VmProg (Except UserVmError Nat) := do
  if ← mapKernelPages root trapframePa then
    match ← loadProgram root elf with
    | .error e => return .error (.elf e)
    | .ok (_, codeEnd) =>
      match ← mapStack root 0 STACK_PAGES with
      | .error e => return .error e
      | .ok () => return .ok codeEnd
  else
    return .error .mapFailed

/-
  A page table with the image, and the end of its code; on a
  failure the unfinished table is dropped.
-/
def buildImageFromElf (elf : List UInt8) (trapframePa : Nat) :
    VmProg (Except UserVmError (Nat × Nat)) := do
  match ← newPageTable with
  | none => return .error .oom
  | some root =>
    match ← fillImage root elf trapframePa with
    | .ok codeEnd => return .ok (root, codeEnd)
    | .error e =>
      dropPageTable root
      return .error e

/- Unmap `n` pages and free the frames that were mapped. -/
def unmapRange (root va : Nat) : Nat → VmProg Unit
  | 0 => return ()
  | n + 1 => do
      match ← unmapPage root va with
      | none => pure ()
      | some pa => Prog.lift (.free pa)
      unmapRange root (va + PGSIZE) n

/-
  Map `n` more pages of a region that begins at `start`; on a
  failure the pages mapped so far go back.
-/
def growRange (root start va : Nat) : Nat → VmProg Bool
  | 0 => return true
  | n + 1 => do
      match ← Prog.lift .allocZeroed with
      | none =>
        unmapRange root start (pages start va)
        return false
      | some pa =>
        match ← map root va pa .URW with
        | .error _ =>
          Prog.lift (.free pa)
          unmapRange root start (pages start va)
          return false
        | .ok () => growRange root start (va + PGSIZE) n

def sysSbrk (n lazy : Int) : VmProg Int := do
  let q ← Prog.lift .proc
  let old := q.size
  if n = 0 then
    return asI64 old
  else if n < 0 then
    let shrink := (-n).toNat
    if shrink > old then
      return asI64 old
    else
      let new := old - shrink
      let root ← Prog.lift .rootPa
      unmapRange root (pageRoundUp new)
        (pages (pageRoundUp new) (pageRoundUp old))
      Prog.lift (.setSize new)
      return asI64 old
  else
    let new := old + n.toNat
    if new ≥ USIZE then
      return -1
    else if new > HEAP_TOP then
      return -1
    else if lazy ≠ 0 then
      Prog.lift (.setSize new)
      return asI64 old
    else
      let root ← Prog.lift .rootPa
      if ← growRange root (pageRoundUp old) (pageRoundUp old)
          (pages (pageRoundUp old) (pageRoundUp new)) then
        Prog.lift (.setSize new)
        return asI64 old
      else
        return -1

/- The change of the break that `brk` asks `sbrk` for; the negation wraps. -/
def brkDelta (old addr : Nat) : Int :=
  if addr > old then asI64 (addr - old)
  else Int.bmod (-asI64 (old - addr)) USIZE

def sysBrk (addr : Nat) : VmProg Int := do
  let q ← Prog.lift .proc
  if addr = 0 then
    return asI64 q.size
  else if addr = q.size then
    return 0
  else
    let r ← sysSbrk (brkDelta q.size addr) 0
    return if r < 0 then -1 else 0

/- `partition_point`, then `insert`. -/
def insertVma (v : Vma) (vmas : List Vma) : List Vma :=
  vmas.takeWhile (fun u => u.start < v.start) ++ v :: vmas.dropWhile (fun u => u.start < v.start)

/- `fileInode` is the inode of the descriptor if it is open for reading on one. -/
def sysMmap (length : Nat) (prot flags : UInt32) (fileInode : Option Nat)
    (offset : Int) : VmProg Int := do
  if length = 0 then
    return -1
  else if flags &&& MAP_PRIVATE = 0 then
    return -1
  else if prot &&&
      ~~~(PROT_READ ||| PROT_WRITE ||| PROT_EXEC) ≠ 0 then
    return -1
  else if offset < 0 ∨ offset.toNat % PGSIZE ≠ 0 then
    return -1
  else if flags &&& MAP_ANONYMOUS = 0 ∧ fileInode = none then
    return -1
  else
    let file :=
      if flags &&& MAP_ANONYMOUS = 0 then fileInode else none
    let lenAligned := pageRoundUp length
    let q ← Prog.lift .proc
    if lenAligned > q.mmapBase then
      return -1
    else if q.mmapBase - lenAligned < MMAP_TOP / 2 then
      return -1
    else
      let newBase := q.mmapBase - lenAligned
      Prog.lift (.setMmapBase newBase)
      Prog.lift (.setVmas (insertVma
        { start := newBase
          stop := newBase + lenAligned
          prot := prot
          file := file
          fileOffset := offset.toNat } q.vmas))
      return asI64 newBase

/- The region lies in the requested range. -/
def Vma.inside (v : Vma) (addr reqEnd : Nat) : Bool := addr ≤ v.start && v.stop ≤ reqEnd

def Vma.meets (v : Vma) (addr reqEnd : Nat) : Bool := v.start < reqEnd && addr < v.stop

def sysMunmap (addr length : Nat) : VmProg Int := do
  if addr % PGSIZE ≠ 0 ∨ length = 0 then
    return -1
  else if addr + pageRoundUp length ≥ USIZE then
    return -1
  else
    let reqEnd := addr + pageRoundUp length
    let q ← Prog.lift .proc
    if q.vmas.any fun v =>
        !v.inside addr reqEnd && v.meets addr reqEnd then
      return -1
    else
      let gone := q.vmas.filter fun v => v.inside addr reqEnd
      if gone = [] then
        return -1
      else
        Prog.lift (.setVmas
          (q.vmas.filter fun v => !v.inside addr reqEnd))
        let root ← Prog.lift .rootPa
        Prog.forEach gone.reverse fun v =>
          unmapRange root v.start (pages v.start v.stop)
        return 0

-- Faults

/- The permissions of a page that is mapped on demand. -/
def Proc.demandPerm (q : Proc) (va : Nat) (anonymous : Bool) : Option PtePerm :=
  if va < q.size then
    some .URW
  else
    (q.vmas.find? fun v => v.start ≤ va && va < v.stop &&
        !(anonymous && v.file.isSome)).map fun v => vmaProtToPteperm v.prot

/- The file page that backs a faulting address, if any. -/
def Proc.demandFile (q : Proc) (va : Nat) : Option (Nat × Nat) :=
  if va < q.size then
    none
  else
    (q.vmas.find? fun v => v.start ≤ va && va < v.stop).bind fun v =>
      v.file.map fun ino =>
        (ino, v.fileOffset + (pageRoundDown va - v.start))

/- Fill a new page from the file, if there is one. -/
def fillPage (pa : Nat) : Option (Nat × Nat) → VmProg Unit
  | none => return ()
  | some (ino, off) => Prog.lift (.fill (.readFile ino off pa))

/-
  Map a fresh page; false if there is no frame or the mapping
  fails.  A page of a file is filled while the frame is in
  the handler's hands only.
-/
def mapFresh (root page : Nat) (perm : PtePerm) (file : Option (Nat × Nat)) : VmProg Bool := do
  match ← Prog.lift .allocZeroed with
  | none => return false
  | some pa =>
    fillPage pa file
    match ← map root page pa perm with
    | .error _ =>
      Prog.lift (.free pa)
      return false
    | .ok () => return true

/- The handler of a user page fault. -/
def lazyMapPageAsync (faultVa : Nat) (write : Bool) : VmProg Bool := do
  let page := pageRoundDown faultVa
  let q ← Prog.lift .proc
  match q.demandPerm faultVa false with
  | none => return false
  | some perm =>
    let root ← Prog.lift .rootPa
    match ← translate root page with
    | some e =>
      return e.perm.user && (!write || e.perm.write)
    | none => mapFresh root page perm (q.demandFile faultVa)

def demandMapZeroPage (page : Nat) : VmProg Bool := do
  let q ← Prog.lift .proc
  match q.demandPerm page true with
  | none => return false
  | some perm =>
    match ← Prog.lift .allocZeroed with
    | none => return false
    | some pa =>
      let root ← Prog.lift .rootPa
      match ← translate root page with
      | some _ =>
        Prog.lift (.free pa)
        return true
      | none =>
        match ← map root page pa perm with
        | .error _ =>
          Prog.lift (.free pa)
          return false
        | .ok () => return true

/- The physical address of an accessible user address. -/
def accessible (e : Pte) (va : Nat) (write : Bool) : Option Nat :=
  if e.perm.user && (!write || e.perm.write) then
    some (e.pa + va % PGSIZE)
  else
    none

/-
  The kernel's own access to user memory.  The loop of the
  source comes back to the translation once, after the page
  has been mapped.
-/
def translateUserPerm (va : Nat) (write : Bool) : VmProg (Option Nat) := do
  let page := pageRoundDown va
  let root ← Prog.lift .rootPa
  match ← translate root page with
  | some e => return accessible e va write
  | none =>
    if ← demandMapZeroPage page then
      match ← translate root page with
      | some e => return accessible e va write
      | none => return none
    else
      return none

-- Processes

/-
  Copy the parent's pages into the child's table, skipping
  holes.  A frame that cannot be mapped is lost.
-/
def copyPages (parent root va : Nat) : Nat → VmProg Bool
  | 0 => return true
  | n + 1 => do
      match ← translate parent va with
      | none => copyPages parent root (va + PGSIZE) n
      | some e =>
        match ← Prog.lift .allocZeroed with
        | none => return false
        | some pa =>
          Prog.lift (.fill (.copyFrame e.pa pa))
          match ← map root va pa e.perm with
          | .error _ => return false
          | .ok () =>
            copyPages parent root (va + PGSIZE) n

/- Copy the stack pages, all of which must be mapped. -/
def copyStack (parent root i : Nat) : Nat → VmProg Bool
  | 0 => return true
  | n + 1 => do
      match ← translate parent
          (STACK_VA_BASE + i * PGSIZE) with
      | none => return false
      | some e =>
        match ← Prog.lift .allocZeroed with
        | none => return false
        | some pa =>
          Prog.lift (.fill (.copyFrame e.pa pa))
          match ← map root
              (STACK_VA_BASE + i * PGSIZE) pa e.perm with
          | .error _ => return false
          | .ok () => copyStack parent root (i + 1) n

def fillChild (root trapframePa codeEnd : Nat) : VmProg Bool := do
  if ← mapKernelPages root trapframePa then
    let parent ← Prog.lift .rootPa
    if ← copyPages parent root 0 (pages 0 codeEnd) then
      copyStack parent root 0 STACK_PAGES
    else
      return false
  else
    return false

def forkFromInner (trapframePa : Nat) : VmProg (Option Nat) := do
  let q ← Prog.lift .proc
  match ← newPageTable with
  | none => return none
  | some root =>
    if ← fillChild root trapframePa q.size then
      let pid ← Prog.lift
        (.withLayout root trapframePa q.size)
      return some pid
    else
      dropPageTable root
      return none

def forkFrom : VmProg (Option Nat) := do
  if (← Prog.lift .liveProcs) ≥ NPROC then
    return none
  else
    match ← Prog.lift .allocZeroed with
    | none => return none
    | some tf =>
      match ← forkFromInner tf with
      | some pid => return some pid
      | none =>
        Prog.lift (.free tf)
        return none

/- Drop the table a process had, if it had one. -/
def dropOld : Option Nat → VmProg Unit
  | none => return ()
  | some root => dropPageTable root

/- `exec` from the point where the file has been read. -/
def sysExecve (elf : List UInt8) : VmProg Int := do
  let q ← Prog.lift .proc
  match ← buildImageFromElf elf q.trapframePa with
  | .error _ => return -1
  | .ok (root, codeEnd) =>
    let old ← Prog.lift (.swapTable (some root))
    dropOld old
    Prog.lift (.setSize codeEnd)
    Prog.lift (.setVmas [])
    Prog.lift (.setMmapBase MMAP_TOP)
    return 0

def sysExit : VmProg Int := do
  let old ← Prog.lift (.swapTable none)
  dropOld old
  Prog.lift .setZombie
  return 0

/- The first process; a failure is a panic. -/
def newInitcode (elf : List UInt8) : VmProg Int := do
  match ← Prog.lift .allocZeroed with
  | none =>
    Prog.lift .panic
    return -1
  | some tf =>
    match ← buildImageFromElf elf tf with
    | .error _ =>
      Prog.lift .panic
      return -1
    | .ok (root, codeEnd) =>
      let pid ← Prog.lift (.withLayout root tf codeEnd)
      return pid

/-
  What a task can be asked to do.  `touch` is any system call
  that reads or writes one byte of user memory.
-/
inductive Call where
  | boot (elf : List UInt8)
  | fork
  | execve (elf : List UInt8)
  | sbrk (n lazy : Int64)
  | brk (addr : UInt64)
  | mmap (length : UInt64) (prot flags : UInt32) (fileInode : Option Nat) (offset : Int64)
  | munmap (addr length : UInt64)
  | pageFault (va : UInt64) (write : Bool)
  | touch (va : UInt64) (write : Bool)
  | exit

def Call.prog : Call → VmProg Int
  | .boot elf => newInitcode elf
  | .fork => do
      match ← forkFrom with
      | none => return -1
      | some pid => return pid
  | .execve elf => sysExecve elf
  | .sbrk n lazy => sysSbrk n.toInt lazy.toInt
  | .brk addr => sysBrk addr.toNat
  | .mmap length prot flags fileInode offset =>
    sysMmap length.toNat prot flags fileInode offset.toInt
  | .munmap addr length => sysMunmap addr.toNat length.toNat
  | .pageFault va write => do
      let _ ← lazyMapPageAsync va.toNat write
      return 0
  | .touch va write => do
      let _ ← translateUserPerm va.toNat write
      return 0
  | .exit => sysExit

end Vm

end PlayXv6
