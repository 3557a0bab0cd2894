import PlayXv6.Lib.Assoc
import PlayXv6.Lib.Machine
import PlayXv6.Fs.Path

/-
  The tree of names and the calls that change it.

  The state is what the directories and link counts say, with
  the current directory and the progress of every process.  A
  step is what a call does while it holds a directory's lock,
  so that between two steps any other call may come in.

  Paths are not part of the state: a step of a walk looks any
  name up or gives up, so the runs include those of every path
  and, with the step back to the root, of every symbolic link.
  Other holders of an inode, such as open files, only keep it
  from being freed and are left out.

  The entries `.` and `..` are those a directory is made with;
  no call changes them.

  Main declarations:
    * `Sys`, `Phase`, `Sys.ok`
-/

namespace PlayXv6

open Function

namespace NameTree

-- State

inductive Kind where
  | dir
  | file
  | device
  | symlink
  | sock
  deriving DecidableEq, Repr

/- An allocated inode; `up` is what `..` names. -/
structure Node where
  kind : Kind
  nlink : UInt16
  up : Nat
  deriving DecidableEq, Repr

/- What a walk is for. The last three go on with what earlier walks of the same call have found. -/
inductive Goal where
  -- any call that only uses the inode
  | look
  | chdir
  -- `open` with `O_CREATE`, `mkdir`, `mknod`, `symlink`, `bind`
  | create (kind : Kind)
  -- `unlink`, and `rmdir` after its own test
  | unlink
  | linkOld
  | renameSrc
  | linkNew (ip : Nat)
  | renameOld (src : Nat)
  | renameNew (src oldDir : Nat) (oldName : Name)
  deriving DecidableEq, Repr

def Goal.first : Goal → Bool
  | linkNew _ => false
  | renameOld _ => false
  | renameNew _ _ _ => false
  | _ => true

inductive Phase where
  | idle
  | walk (g : Goal) (cur : Nat)
  -- `create_inside_op`, before and after `ialloc`'s scan
  | create (kind : Kind) (dir : Nat) (name : Name)
  | claim (kind : Kind) (dir : Nat) (name : Name) (child : Nat)
  | unlink (dir : Nat) (name : Name)
  -- `link_inside_op`
  | linkRaise (ip : Nat)
  | linkEntry (ip dir : Nat) (name : Name)
  | linkUndo (ip : Nat)
  -- `sys_rename` with everything resolved
  | renameLook (src oldDir : Nat) (oldName : Name) (newDir : Nat) (newName : Name)
  | renameDrop (src oldDir : Nat) (oldName : Name) (newDir : Nat) (newName : Name) (ex : Nat)
  | renameLower (src oldDir : Nat) (oldName : Name) (newDir : Nat) (newName : Name) (ex : Nat)
  | renameLink (src oldDir : Nat) (oldName : Name) (newDir : Nat) (newName : Name)
  | renameCut (src oldDir : Nat) (oldName : Name)
  deriving DecidableEq, Repr

def Goal.holds : Goal → List Nat
  | linkNew ip => [ip]
  | renameOld src => [src]
  | renameNew src oldDir _ => [src, oldDir]
  | _ => []

def Phase.holds : Phase → List Nat
  | idle => []
  | walk g cur => cur :: g.holds
  | create _ dir _ => [dir]
  | claim _ dir _ _ => [dir]
  | unlink dir _ => [dir]
  | linkRaise ip => [ip]
  | linkEntry ip dir _ => [ip, dir]
  | linkUndo ip => [ip]
  | renameLook src oldDir _ newDir _ => [src, oldDir, newDir]
  | renameDrop src oldDir _ newDir _ ex => [src, oldDir, newDir, ex]
  | renameLower src oldDir _ newDir _ ex => [src, oldDir, newDir, ex]
  | renameLink src oldDir _ newDir _ => [src, oldDir, newDir]
  | renameCut src oldDir _ => [src, oldDir]

abbrev Links : Type := AList fun _ : Nat × Name => Nat

/-
  `made` records the inodes whose creation was successful and
  of which no entry has been removed by `unlink`, `rmdir` or a
  `rename` onto it since; the kernel does not keep it.
-/
structure Sys where
  nproc : Nat
  ninodes : Nat
  inodes : Nat → Option Node
  links : Links
  cwd : Nat → Nat
  phase : Nat → Phase
  made : Nat → Bool

/- Only the root directory, in which all processes are. -/
def Sys.boot (nproc ninodes : Nat) : Sys where
  nproc := nproc
  ninodes := ninodes
  inodes := fun i => if i = ROOTINO then some ⟨.dir, 1, ROOTINO⟩ else none
  links := ∅
  cwd := fun _ => ROOTINO
  phase := fun _ => .idle
  made := fun _ => false

/- What a directory stores of a name and an inode number. -/
def entryName (name : Name) : Name := name.take DIRSIZ

def entryInum (i : Nat) : Nat := i % 2 ^ 16

namespace Sys

def isDir (s : Sys) (i : Nat) : Bool := (s.inodes i).any fun n => n.kind = .dir

def dirlookup (s : Sys) (dir : Nat) (name : Name) : Option Nat :=
  if name = dot then some dir
  else if name = dotdot then (s.inodes dir).map Node.up
  else s.links.lookup (dir, entryName name)

def dirIsEmpty (s : Sys) (dir : Nat) : Bool := s.links.entries.all fun e => e.1.1 ≠ dir

/- Some process has a reference to inode `i`. -/
def held (s : Sys) (i : Nat) : Bool :=
  (List.range s.nproc).any fun t => s.cwd t = i || i ∈ (s.phase t).holds

def setPhase (s : Sys) (t : Nat) (p : Phase) : Sys :=
  { s with phase := update s.phase t p }

def setNode (s : Sys) (i : Nat) (n : Option Node) : Sys :=
  { s with inodes := update s.inodes i n }

def setNlink (s : Sys) (i : Nat) (f : UInt16 → UInt16) : Sys :=
  s.setNode i ((s.inodes i).map fun n => { n with nlink := f n.nlink })

def addLink (s : Sys) (i : Nat) : Sys := s.setNlink i fun n => n + 1

def subLink (s : Sys) (i : Nat) : Sys := s.setNlink i fun n => n - 1

/- `dirlink`; `fits` tells whether the entry could be written. -/
def dirlink (s : Sys) (dir : Nat) (name : Name) (i : Nat) (fits : Bool) : Option Sys :=
  if fits ∧ s.dirlookup dir name = none then
    some { s with
      links := s.links.insert (dir, entryName name) (entryInum i) }
  else none

def dirunlink (s : Sys) (dir : Nat) (name : Name) : Sys :=
  { s with links := s.links.erase (dir, entryName name) }

/- Free an inode that has no links and no holders. -/
def freeUnused (s : Sys) (i : Nat) : Sys :=
  if (s.inodes i).any (fun n => n.nlink = 0) ∧ !s.held i then
    s.setNode i none
  else s

def setMade (s : Sys) (i : Nat) (b : Bool) : Sys := { s with made := update s.made i b }

def origin (s : Sys) (t : Nat) (absolute : Bool) : Nat := if absolute then ROOTINO else s.cwd t

-- Walks

def stepWalk (s : Sys) (t : Nat) (name : Name) : Option Sys :=
  match s.phase t with
  | .walk g cur =>
    if s.isDir cur then
      (s.dirlookup cur name).map fun next => s.setPhase t (.walk g next)
    else none
  | _ => none

/- A symbolic link to an absolute path. -/
def stepRestart (s : Sys) (t : Nat) : Option Sys :=
  match s.phase t with
  | .walk g _ => some (s.setPhase t (.walk g ROOTINO))
  | _ => none

/- The call fails before anything is linked or removed. -/
def stepGiveUp (s : Sys) (t : Nat) : Option Sys :=
  match s.phase t with
  -- the link counted in advance is taken back
  | .walk (.linkNew ip) _ => some (s.setPhase t (.linkUndo ip))
  | .walk _ _ => some (s.setPhase t .idle)
  | .create _ _ _ => some (s.setPhase t .idle)
  | _ => none

def stepFound (s : Sys) (t : Nat) (absolute : Bool) : Option Sys :=
  match s.phase t with
  | .walk .look _ => some (s.setPhase t .idle)
  | .walk .chdir cur =>
    if s.isDir cur then
      some { s.setPhase t .idle with
        cwd := update s.cwd t cur }
    else some (s.setPhase t .idle)
  | .walk .linkOld cur => some (s.setPhase t (.linkRaise cur))
  | .walk .renameSrc cur =>
    some (s.setPhase t (.walk (.renameOld cur) (s.origin t absolute)))
  | _ => none

/- The walk ends at the directory of the last component. -/
def stepParent (s : Sys) (t : Nat) (name : Name) (absolute : Bool) : Option Sys :=
  match s.phase t with
  | .walk g cur =>
    if s.isDir cur then
      match g with
      | .create kind =>
        some (s.setPhase t (if name = dot ∨ name = dotdot then .idle
            else .create kind cur name))
      | .unlink =>
        some (s.setPhase t (if name = dot ∨ name = dotdot then .idle
            else .unlink cur name))
      | .linkNew ip => some (s.setPhase t (.linkEntry ip cur name))
      | .renameOld src =>
        some (s.setPhase t (.walk (.renameNew src cur name) (s.origin t absolute)))
      | .renameNew src oldDir oldName =>
        some (s.setPhase t (if oldName = dot ∨ oldName = dotdot ∨
              name = dot ∨ name = dotdot then .idle
            else if oldDir = cur ∧ oldName = name then .idle
            else .renameLook src oldDir oldName cur name))
      | _ => none
    else none
  | _ => none

/- The name exists, or `ialloc` finds a free inode. -/
def stepScan (s : Sys) (t child : Nat) : Option Sys :=
  match s.phase t with
  | .create kind dir name =>
    if (s.dirlookup dir name).isSome then
      some (s.setPhase t .idle)
    else if 0 < child ∧ child < s.ninodes ∧ (s.inodes child).isNone then
      some (s.setPhase t (.claim kind dir name child))
    else none
  | _ => none

/-
  The inode is claimed, filled in and linked.  If the disk is
  full it stays allocated without a name.
-/
def stepClaim (s : Sys) (t : Nat) (fits : Bool) : Option Sys :=
  match s.phase t with
  | .claim kind dir name child =>
    let s₁ := (s.setPhase t .idle).setNode child (some ⟨kind, 1, dir⟩)
    match s₁.dirlink dir name child fits with
    | none => some s₁
    | some s₂ =>
      let s₃ := s₂.setMade child true
      some (if kind = .dir then s₃.addLink dir else s₃)
  | _ => none

/- `unlink_inside_op` -/
def stepUnlink (s : Sys) (t : Nat) : Option Sys :=
  match s.phase t with
  | .unlink dir name =>
    let s₁ := s.setPhase t .idle
    match s.links.lookup (dir, entryName name) with
    | none => some s₁
    | some child =>
      if s.isDir child ∧ !s.dirIsEmpty child then some s₁
      else
        let s₂ := (s₁.dirunlink dir name).setMade child false
        let s₃ := if s.isDir child then s₂.subLink dir else s₂
        some ((s₃.subLink child).freeUnused child)
  | _ => none

/- The link is counted before its directory is known. -/
def stepRaise (s : Sys) (t : Nat) (absolute : Bool) : Option Sys :=
  match s.phase t with
  | .linkRaise ip =>
    if s.isDir ip then some (s.setPhase t .idle)
    else
      some ((s.addLink ip).setPhase t (.walk (.linkNew ip) (s.origin t absolute)))
  | _ => none

def stepEntry (s : Sys) (t : Nat) (fits : Bool) : Option Sys :=
  match s.phase t with
  | .linkEntry ip dir name =>
    match s.dirlink dir name ip fits with
    | some s₁ => some (s₁.setPhase t .idle)
    | none => some (s.setPhase t (.linkUndo ip))
  | _ => none

def stepUndo (s : Sys) (t : Nat) : Option Sys :=
  match s.phase t with
  | .linkUndo ip => some ((s.subLink ip).setPhase t .idle)
  | _ => none

/- Look the target up; a directory is not replaced. -/
def stepLook (s : Sys) (t : Nat) : Option Sys :=
  match s.phase t with
  | .renameLook src oldDir oldName newDir newName =>
    match s.links.lookup (newDir, entryName newName) with
    | none =>
      some (s.setPhase t (.renameLink src oldDir oldName newDir newName))
    | some ex =>
      some (s.setPhase t (if s.isDir ex then .idle
          else .renameDrop src oldDir oldName newDir newName ex))
  | _ => none

/- `unlink_dirent_inside_op` compares whole names, so it finds no name that had to be cut. -/
def finds (s : Sys) (dir : Nat) (name : Name) : Option Nat :=
  if name.length ≤ DIRSIZ then
    s.links.lookup (dir, entryName name)
  else none

def stepDrop (s : Sys) (t : Nat) : Option Sys :=
  match s.phase t with
  | .renameDrop src oldDir oldName newDir newName ex =>
    match s.finds newDir newName with
    | none => some (s.setPhase t .idle)
    | some i =>
      some (((s.dirunlink newDir newName).setMade i false).setPhase t
          (.renameLower src oldDir oldName newDir newName ex))
  | _ => none

/- `nlink.saturating_sub(1)` -/
def stepLower (s : Sys) (t : Nat) : Option Sys :=
  match s.phase t with
  | .renameLower src oldDir oldName newDir newName ex =>
    some ((s.setNlink ex fun n => if n = 0 then 0 else n - 1).setPhase t
        (.renameLink src oldDir oldName newDir newName))
  | _ => none

def stepRelink (s : Sys) (t : Nat) (fits : Bool) : Option Sys :=
  match s.phase t with
  | .renameLink src oldDir oldName newDir newName =>
    match s.dirlink newDir newName src fits with
    | some s₁ => some (s₁.setPhase t (.renameCut src oldDir oldName))
    | none => some (s.setPhase t .idle)
  | _ => none

/- Remove the old entry, whatever it names by now. -/
def stepCut (s : Sys) (t : Nat) : Option Sys :=
  match s.phase t with
  | .renameCut _ oldDir oldName =>
    let s₁ := s.setPhase t .idle
    match s.finds oldDir oldName with
    | none => some s₁
    | some _ => some (s₁.dirunlink oldDir oldName)
  | _ => none

end Sys

-- Steps

inductive Act where
  | call (t : Nat) (g : Goal) (absolute : Bool)
  | walk (t : Nat) (name : Name)
  | restart (t : Nat)
  | giveUp (t : Nat)
  | found (t : Nat) (absolute : Bool)
  | parent (t : Nat) (name : Name) (absolute : Bool)
  | scan (t child : Nat)
  | claim (t : Nat) (fits : Bool)
  | unlink (t : Nat)
  | raise (t : Nat) (absolute : Bool)
  | entry (t : Nat) (fits : Bool)
  | undo (t : Nat)
  | look (t : Nat)
  | drop (t : Nat)
  | lower (t : Nat)
  | relink (t : Nat) (fits : Bool)
  | cut (t : Nat)
  -- the reaper frees an inode
  | reap (i : Nat)
  -- `u` starts as a child of `t`
  | fork (t u : Nat)
  deriving DecidableEq, Repr

namespace Sys

def stepCall (s : Sys) (t : Nat) (g : Goal) (absolute : Bool) : Option Sys :=
  if s.phase t = .idle ∧ g.first then
    some (s.setPhase t (.walk g (s.origin t absolute)))
  else none

def stepFork (s : Sys) (t u : Nat) : Option Sys :=
  if u < s.nproc ∧ s.phase u = .idle then
    some { s with cwd := update s.cwd u (s.cwd t) }
  else none

/- The process that takes a step, if it is one. -/
def actor : Act → Option Nat
  | .call t _ _ => some t
  | .walk t _ => some t
  | .restart t => some t
  | .giveUp t => some t
  | .found t _ => some t
  | .parent t _ _ => some t
  | .scan t _ => some t
  | .claim t _ => some t
  | .unlink t => some t
  | .raise t _ => some t
  | .entry t _ => some t
  | .undo t => some t
  | .look t => some t
  | .drop t => some t
  | .lower t => some t
  | .relink t _ => some t
  | .cut t => some t
  | .reap _ => none
  | .fork t _ => some t

def stepBy (s : Sys) : Act → Option Sys
  | .call t g absolute => s.stepCall t g absolute
  | .walk t name => s.stepWalk t name
  | .restart t => s.stepRestart t
  | .giveUp t => s.stepGiveUp t
  | .found t absolute => s.stepFound t absolute
  | .parent t name absolute => s.stepParent t name absolute
  | .scan t child => s.stepScan t child
  | .claim t fits => s.stepClaim t fits
  | .unlink t => s.stepUnlink t
  | .raise t absolute => s.stepRaise t absolute
  | .entry t fits => s.stepEntry t fits
  | .undo t => s.stepUndo t
  | .look t => s.stepLook t
  | .drop t => s.stepDrop t
  | .lower t => s.stepLower t
  | .relink t fits => s.stepRelink t fits
  | .cut t => s.stepCut t
  | .reap i => some (s.freeUnused i)
  | .fork t u => s.stepFork t u

def step (s : Sys) (a : Act) : Option Sys :=
  if (actor a).all (fun t => t < s.nproc) then s.stepBy a
  else none

inductive Reachable (s : Sys) : Nat → Prop where
  | root : Reachable s ROOTINO
  | entry {dir i : Nat} {name : Name} (hDir : Reachable s dir)
      (hLink : s.links.lookup (dir, name) = some i) : Reachable s i

/- The directory the next step of a call links a name into. -/
def target : Phase → Option Nat
  | .claim _ dir _ _ => some dir
  | .linkEntry _ dir _ => some dir
  | .renameLink _ _ _ newDir _ => some newDir
  | _ => none

/-
  No call is about to link a name into a directory without
  links, and what has been created is there until it is
  removed.
-/
structure Kept (s : Sys) : Prop where
  linked : ∀ t, t < s.nproc → ∀ dir, target (s.phase t) = some dir →
      (s.inodes dir).any (fun n => n.nlink ≠ 0) = true
  reachable : ∀ i, s.made i = true → s.Reachable i

/-
  The condition: a directory is removed only while no process
  is in it and no call has a reference to it; `ialloc` claims
  an inode that is free and unused, with a number that fits an
  entry; no link count overflows; and `rename` is not used on
  directories and removes the entries it has looked up.
-/
def ok (s : Sys) : Act → Prop
  | .unlink t =>
    match s.phase t with
    | .unlink dir name =>
      match s.links.lookup (dir, entryName name) with
      | some child =>
        s.isDir child ∧ s.dirIsEmpty child → s.held child = false
      | none => True
    | _ => True
  | .claim t _ =>
    match s.phase t with
    | .claim kind dir _ child =>
      s.inodes child = none ∧ s.held child = false ∧ child < 2 ^ 16 ∧
        (kind = .dir → (s.inodes dir).all (fun n => n.nlink ≠ 65535) = true)
    | _ => True
  | .raise t _ =>
    match s.phase t with
    | .linkRaise ip => (s.inodes ip).all (fun n => n.nlink ≠ 65535) = true
    | _ => True
  | .found t _ =>
    match s.phase t with
    | .walk .renameSrc cur => s.isDir cur = false
    | _ => True
  | .drop t =>
    match s.phase t with
    | .renameDrop _ _ _ newDir newName ex => ∀ i, s.finds newDir newName = some i → i = ex
    | _ => True
  | .cut t =>
    match s.phase t with
    | .renameCut src oldDir oldName => s.finds oldDir oldName = some src
    | _ => True
  | _ => True

end Sys

end NameTree

end PlayXv6
