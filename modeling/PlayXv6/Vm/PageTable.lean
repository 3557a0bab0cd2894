import PlayXv6.Lib.Prog
import PlayXv6.Vm.Layout

/-
  Physical frames, Sv39 page tables and process records, and
  the commands over them.

  A page table is identified by the frame of its root.  Its
  tree is kept as two maps: the branches, by level and by the
  bits of the address above the level, and the lowest-level
  entries, by page number.  The commands are what a task does
  without another task coming in between: one call of the
  frame allocator, or one access to memory that only this
  task touches.

  Main declarations:
    * `PageTable`, `State`
    * `walk`, `map`, `translate`
-/

namespace PlayXv6

namespace Vm

/- The tree below the root of a page table. -/
structure PageTable where
  branch : AList fun _ : Nat × Nat => Nat
  pte : AList fun _ : Nat => Pte

/- The bits of an address above level `level`. -/
abbrev levelIndex (va level : Nat) : Nat := va / 2 ^ (12 + 9 * level)

namespace PageTable

/- The tables on the way to the entry for `va` are there. -/
abbrev HasTables (pt : PageTable) (va : Nat) : Prop :=
  va < MAXVA ∧ (pt.branch.lookup (2, levelIndex va 2)).isSome ∧
    (pt.branch.lookup (1, levelIndex va 1)).isSome

def zeroed : PageTable where
  branch := ∅
  pte := ∅

def branchFrames (pt : PageTable) : List Nat := pt.branch.entries.map fun e => e.2

/- The frames that entries with the USER bit name. -/
def userFrames (pt : PageTable) : List Nat :=
  (pt.pte.entries.filter fun e => e.2.perm.user).map
    fun e => e.2.pa

/- The frames `free_subtree` returns below the root. -/
def dropFrames (pt : PageTable) : List Nat :=
  ((pt.pte.entries.filter fun e =>
      e.2.perm.user && e.2.isLeaf).map fun e => e.2.pa) ++
    pt.branchFrames

/- Clear the entry of a page if it is a leaf. -/
def takeLeaf (pt : PageTable) (vpn : Nat) : Option Nat × PageTable :=
  match pt.pte.lookup vpn with
  | none => (none, pt)
  | some e =>
    if e.isLeaf then
      (some e.pa, { pt with pte := pt.pte.erase vpn })
    else
      (none, pt)

end PageTable

/-
  The part of a process that the virtual-memory code uses.
  The page table is given by its root; `none` is the
  placeholder that an exiting process leaves.
-/
structure Proc where
  pagetable : Option Nat
  trapframePa : Nat
  size : Nat
  vmas : List Vma
  mmapBase : Nat
  zombie : Bool

/-
  The frame allocator, all page tables by their roots, all
  processes by their pids, and the kernel image's frames.
-/
structure State where
  free : List Nat
  tables : AList fun _ : Nat => PageTable
  procs : AList fun _ : Nat => Proc
  liveProcs : Nat
  nextPid : Nat
  kernel : List Nat
  trampolinePa : Nat

-- Commands

/- What a frame `dst` is filled with: another frame, or a page of a file. -/
inductive Fill where
  | copyFrame (src dst : Nat)
  | readFile (ino off dst : Nat)

/- The commands of a task. Those that name no process are about the task's own. -/
inductive Cmd : Type → Type where
  -- `KFRAMES`
  | allocZeroed : Cmd (Option Nat)
  | free (pa : Nat) : Cmd Unit
  | fill (c : Fill) : Cmd Unit
  -- page tables
  | newTable (pa : Nat) : Cmd Unit
  | hasBranch (root level idx : Nat) : Cmd Bool
  | linkBranch (root level idx pa : Nat) : Cmd Unit
  | pteAt (root vpn : Nat) : Cmd (Option Pte)
  | setPte (root vpn : Nat) (e : Pte) : Cmd Unit
  | takeLeaf (root vpn : Nat) : Cmd (Option Nat)
  | dropTable (root : Nat) : Cmd (List Nat)
  | trampolinePa : Cmd Nat
  -- the process
  | proc : Cmd Proc
  | rootPa : Cmd Nat
  | swapTable (root : Option Nat) : Cmd (Option Nat)
  | setSize (size : Nat) : Cmd Unit
  | setVmas (vmas : List Vma) : Cmd Unit
  | setMmapBase (base : Nat) : Cmd Unit
  | setZombie : Cmd Unit
  -- all processes
  | liveProcs : Cmd Nat
  | withLayout (root trapframePa size : Nat) : Cmd Nat
  | panic : Cmd Unit

abbrev VmProg := Prog Cmd

/- Read the table at a root; without one the access faults. -/
def State.readTable {β : Type} (s : State) (root : Nat)
    (f : PageTable → β) : Outcome Unit State β :=
  match s.tables.lookup root with
  | none => .panic ()
  | some pt => .ok (f pt) s

def State.onTable {β : Type} (s : State) (root : Nat)
    (f : PageTable → β × PageTable) : Outcome Unit State β :=
  match s.tables.lookup root with
  | none => .panic ()
  | some pt =>
    let r := f pt
    .ok r.1 { s with tables := s.tables.insert root r.2 }

def State.onProc {β : Type} (s : State) (pid : Nat) (f : Proc → β × Proc) : Outcome Unit State β :=
  match s.procs.lookup pid with
  | none => .panic ()
  | some q =>
    let r := f q
    .ok r.1 { s with procs := s.procs.insert pid r.2 }

/- A process as `with_layout` makes it. -/
def Proc.fresh (root trapframePa size : Nat) : Proc where
  pagetable := some root
  trapframePa := trapframePa
  size := size
  vmas := []
  mmapBase := MMAP_TOP
  zombie := false

/- What the commands do when process `pid`'s task issues them. -/
def exec (pid : Nat) : Handler Cmd Unit State
  | _, .allocZeroed, s =>
    match s.free with
    | [] => .ok none s
    | pa :: rest => .ok (some pa) { s with free := rest }
  | _, .free pa, s => .ok () { s with free := pa :: s.free }
  -- the contents of frames are no part of the state
  | _, .fill _, s => .ok () s
  | _, .newTable pa, s => .ok () { s with tables := s.tables.insert pa .zeroed }
  | _, .hasBranch root level idx, s =>
    s.readTable root fun pt => (pt.branch.lookup (level, idx)).isSome
  | _, .linkBranch root level idx pa, s =>
    s.onTable root fun pt =>
      ((), { pt with
        branch := pt.branch.insert (level, idx) pa })
  | _, .pteAt root vpn, s => s.readTable root fun pt => pt.pte.lookup vpn
  | _, .setPte root vpn e, s =>
    -- an entry is written in the table that has it
    if (s.tables.lookup root).any fun pt => pt.HasTables (vpn * PGSIZE) then
      s.onTable root fun pt => ((), { pt with pte := pt.pte.insert vpn e })
    else
      .panic ()
  | _, .takeLeaf root vpn, s => s.onTable root fun pt => pt.takeLeaf vpn
  | _, .dropTable root, s =>
    match s.tables.lookup root with
    | none => .panic ()
    | some pt =>
      .ok (pt.dropFrames ++ [root]) { s with tables := s.tables.erase root }
  | _, .trampolinePa, s => .ok s.trampolinePa s
  | _, .proc, s =>
    match s.procs.lookup pid with
    | none => .panic ()
    | some q => .ok q s
  | _, .rootPa, s =>
    match (s.procs.lookup pid).bind Proc.pagetable with
    | none => .panic ()
    | some root => .ok root s
  | _, .swapTable root, s =>
    s.onProc pid fun q => (q.pagetable, { q with pagetable := root })
  | _, .setSize size, s => s.onProc pid fun q => ((), { q with size := size })
  | _, .setVmas vmas, s => s.onProc pid fun q => ((), { q with vmas := vmas })
  | _, .setMmapBase base, s => s.onProc pid fun q => ((), { q with mmapBase := base })
  | _, .setZombie, s => s.onProc pid fun q => ((), { q with zombie := true })
  | _, .liveProcs, s => .ok s.liveProcs s
  | _, .withLayout root tf size, s =>
    .ok s.nextPid { s with
      procs := s.procs.insert s.nextPid (Proc.fresh root tf size)
      liveProcs := s.liveProcs + 1
      nextPid := s.nextPid + 1 }
  | _, .panic, _ => .panic ()

inductive VmError where
  | oom
  | remap
  | misaligned
  | outOfRange
  deriving DecidableEq, Repr

/- `PageTable::new`: the root of an empty table. -/
def newPageTable : VmProg (Option Nat) := do
  match ← Prog.lift .allocZeroed with
  | none => return none
  | some pa =>
    Prog.lift (.newTable pa)
    return some pa

/- One level of `walk`; false if there is no table below. -/
def walkLevel (root va level : Nat) (alloc : Bool) : VmProg Bool := do
  let idx := levelIndex va level
  if ← Prog.lift (.hasBranch root level idx) then
    return true
  else if alloc then
    match ← Prog.lift .allocZeroed with
    | none => return false
    | some pa =>
      Prog.lift (.linkBranch root level idx pa)
      return true
  else
    return false

/-
  Go down to the lowest-level table for `va`, making tables on
  the way if `alloc`; false is the source's `None`.
-/
def walk (root va : Nat) (alloc : Bool) : VmProg Bool := do
  if va ≥ MAXVA then
    return false
  else if ← walkLevel root va 2 alloc then
    walkLevel root va 1 alloc
  else
    return false

/- `map` for one page, which is all its callers ask for. -/
def map (root va pa : Nat) (perm : PtePerm) : VmProg (Except VmError Unit) := do
  if va % PGSIZE ≠ 0 ∨ pa % PGSIZE ≠ 0 then
    return .error .misaligned
  else if pageEnd va > MAXVA then
    return .error .outOfRange
  else if ← walk root va true then
    match ← Prog.lift (.pteAt root (va / PGSIZE)) with
    | some _ => return .error .remap
    | none =>
      Prog.lift (.setPte root (va / PGSIZE) ⟨pa, perm⟩)
      return .ok ()
  else
    return .error .oom

/- Clear a leaf and return its frame, whatever its owner. -/
def unmapPage (root va : Nat) : VmProg (Option Nat) := do
  if va ≥ MAXVA ∨ va % PGSIZE ≠ 0 then
    return none
  else if ← walk root va false then
    Prog.lift (.takeLeaf root (va / PGSIZE))
  else
    return none

/- The entry that maps the page of `va`. -/
def translate (root va : Nat) : VmProg (Option Pte) := do
  if ← walk root va false then
    Prog.lift (.pteAt root (va / PGSIZE))
  else
    return none

/-
  `Drop for PageTable`: the USER leaves and all table pages go
  back to the allocator, the root last.
-/
def dropPageTable (root : Nat) : VmProg Unit := do
  let frames ← Prog.lift (.dropTable root)
  Prog.forEach frames fun pa => Prog.lift (.free pa)

end Vm

end PlayXv6
