import PlayXv6.Lib.Holders
import PlayXv6.Lib.Machine
import PlayXv6.Lib.Tally
import PlayXv6.Fs.Layout

/-
  The inode cache, and the tasks that allocate, use and free
  inodes through it.

  A cache slot is live while some task holds an `Arc` to it
  besides the cache.  The tasks create files, use files that
  a directory names, unlink them and reap them.  The test and
  the claim of `ialloc`, every change of an in-memory inode,
  every write into an inode block, the release of a lock and
  the drop of an `Arc` are separate actions.

  The inode blocks are a table: a task writes the record of
  one inode and no other.  A directory entry is given by the
  inode it names; an entry that a running `unlink` has looked
  up is out of reach for the others, since the directory is
  locked.

  Main declarations:
    * `Slot`, `tryIget`
    * `iallocs_distinct`
-/

namespace PlayXv6

open Function Machine

namespace Icache

abbrev NINODE_CACHE : Nat := 50

/- A cached inode; `strong` is the `Arc`'s strong count. -/
structure Slot where
  dev : Nat
  inum : Nat
  valid : Bool
  locked : Bool
  state : InodeState
  strong : Nat

def Slot.isFor (c : Slot) (dev inum : Nat) : Bool := 1 < c.strong && c.inum == inum && c.dev == dev

/-
  A live slot of the inode, else the first idle slot, stamped
  invalid; `none` if every slot is held.
-/
def tryIget (slots : Nat → Slot) (dev inum : Nat) : Option (Nat × (Nat → Slot)) :=
  let range := List.range NINODE_CACHE
  match range.find? fun k => (slots k).isFor dev inum with
  | some k =>
    some (k, update slots k { slots k with strong := (slots k).strong + 1 })
  | none =>
    match range.find? fun k => (slots k).strong == 1 with
    | some k =>
      some (k, update slots k
        { slots k with
          dev := dev
          inum := inum
          valid := false
          strong := 2 })
    | none => none

-- Tasks

/- What a file is created with; no type is 0. -/
structure NewFile where
  typ : UInt16
  mode : UInt16
  major : UInt16
  minor : UInt16
  uid : UInt16
  gid : UInt16
  typ_ne : typ ≠ 0

/- The record `ialloc` claims a slot with. -/
def freshDinode (f : NewFile) (now : UInt32) : DInode :=
  { DInode.default with
    typ := f.typ
    nlink := 1
    mode := f.mode
    atime := now
    mtime := now
    ctime := now }

/- A step of a task that holds an inode's lock. -/
inductive Micro where
  -- `create_inside_op` fills in the new inode
  | fill (f : NewFile)
  -- any change that keeps the type and the link count
  | patch (st : InodeState)
  -- `itrunc` empties the inode
  | trunc (now : UInt32)
  | clearTyp
  -- `iupdate`
  | flush

def Micro.mem : Micro → InodeState → InodeState
  | .fill f, st =>
    { st with
      major := f.major
      minor := f.minor
      nlink := 1
      uid := f.uid
      gid := f.gid }
  | .patch new, st => { new with typ := st.typ, nlink := st.nlink }
  | .trunc now, st =>
    { st with
      size := 0
      addrs := Addrs.zero
      mtime := now
      ctime := now }
  | .clearTyp, st => { st with typ := 0 }
  | .flush, st => st

def Micro.disk : Micro → InodeState → DInode → DInode
  | .flush, st, _ => st
  | _, _, d => d

/- Free a locked inode: truncate it and clear its type. -/
def freeScript (now : UInt32) : List Micro := [.trunc now, .flush, .clearTyp, .flush]

/- What a task locks an inode for. -/
inductive Cont where
  -- `create_inside_op`, with what `ialloc` wrote
  | create (f : NewFile) (d : DInode)
  | use
  | unlink
  -- the first and the second lock of `maybe_free`
  | reapTest
  | reapFree

/- What a task is doing; `k` is the slot of its `Arc`. -/
inductive Phase where
  | idle
  -- `ialloc` is about to test an inode,
  | scan (f : NewFile) (inum : Nat)
  -- has found it free,
  | claim (f : NewFile) (inum : Nat)
  -- has written its record
  | get (f : NewFile) (inum : Nat) (d : DInode)
  -- about to lock
  | want (k : Nat) (c : Cont)
  -- locked, but not loaded
  | load (k : Nat) (c : Cont)
  -- `ilock` has returned
  | locked (k : Nat) (c : Cont)
  -- about to do the rest of its work under the lock
  | own (k : Nat) (todo : List Micro) (new : Bool)
  -- about to enter a new file into its directory
  | link (k : Nat)
  | hold (k : Nat)
  -- in the reaper's queue
  | reap (k : Nat)

/- `disk` is the table of inode records, `links` counts the directory entries that name an inode. -/
structure Sys where
  ninodes : Nat
  slots : Nat → Slot
  disk : Nat → DInode
  links : Nat → Nat
  tasks : Nat → Phase

def Sys.setTask (s : Sys) (t : Nat) (p : Phase) : Sys :=
  { s with tasks := update s.tasks t p }

def Sys.setSlot (s : Sys) (k : Nat) (c : Slot) : Sys :=
  { s with slots := update s.slots k c }

def Sys.setDisk (s : Sys) (i : Nat) (d : DInode) : Sys :=
  { s with disk := update s.disk i d }

def Sys.setLinks (s : Sys) (i n : Nat) : Sys := { s with links := update s.links i n }

inductive Act where
  | create (t : Nat) (f : NewFile)
  | test (t : Nat)
  | claim (t : Nat) (now : UInt32)
  | iget (t : Nat)
  -- look a name up and keep the inode
  | lookup (t inum : Nat)
  -- look a name up to remove it
  | unlink (t inum : Nat)
  | use (t : Nat)
  | lock (t : Nat)
  | load (t : Nat)
  -- decide what to do with the locked inode
  | fill (t : Nat) (todo : List Micro)
  | change (t : Nat) (todo : List Micro)
  | remove (t : Nat) (now : UInt32)
  | notEmpty (t : Nat)
  | reapTest (t : Nat)
  | reapFree (t : Nat) (now : UInt32)
  -- work under the lock and release it
  | micro (t : Nat)
  | unlock (t : Nat)
  | dirlink (t : Nat)
  | dirlinkFail (t : Nat)
  -- hand the `Arc` to the reaper, look at its count, drop it
  | defer (t : Nat)
  | count (t : Nat)
  | drop (t : Nat)

/- The steps any user of a file may take under its lock. -/
def Micro.isUse : Micro → Bool
  | .patch _ => true
  | .flush => true
  | _ => false

/- The device of every file. -/
abbrev ROOTDEV : Nat := 0

/-
  One action.  `none` means that the task is not at that
  point, that it waits, or that an assertion fails.
-/
def Sys.step (s : Sys) : Act → Option Sys
  | .create t f =>
    match s.tasks t with
    | .idle => some (s.setTask t (.scan f 1))
    | _ => none
  | .test t =>
    match s.tasks t with
    | .scan f i =>
      if s.ninodes ≤ i then
        some (s.setTask t .idle)
      else if (s.disk i).typ = 0 then
        some (s.setTask t (.claim f i))
      else
        some (s.setTask t (.scan f (i + 1)))
    | _ => none
  | .claim t now =>
    match s.tasks t with
    | .claim f i =>
      let d := freshDinode f now
      some ((s.setDisk i d).setTask t (.get f i d))
    | _ => none
  | .iget t =>
    match s.tasks t with
    | .get f i d =>
      (tryIget s.slots ROOTDEV i).map fun (k, slots) => { s with slots := slots }.setTask t
          (.want k (.create f d))
    | _ => none
  | .lookup t i =>
    match s.tasks t with
    | .idle =>
      if s.links i = 0 then
        none
      else
        (tryIget s.slots ROOTDEV i).map fun (k, slots) =>
          { s with slots := slots }.setTask t (.hold k)
    | _ => none
  | .unlink t i =>
    match s.tasks t with
    | .idle =>
      if s.links i = 0 then
        none
      else
        (tryIget s.slots ROOTDEV i).map fun (k, slots) => ({ s with slots := slots }.setLinks i
            (s.links i - 1)).setTask t (.want k .unlink)
    | _ => none
  | .use t =>
    match s.tasks t with
    | .hold k => some (s.setTask t (.want k .use))
    | _ => none
  | .lock t =>
    match s.tasks t with
    | .want k c =>
      if (s.slots k).locked then
        none
      else
        some ((s.setSlot k { s.slots k with locked := true }).setTask t
            (if (s.slots k).valid then .locked k c
              else .load k c))
    | _ => none
  | .load t =>
    match s.tasks t with
    | .load k c =>
      let d := s.disk (s.slots k).inum
      if d.typ = 0 then
        none
      else
        some ((s.setSlot k
          { s.slots k with
            state := d
            valid := true }).setTask t (.locked k c))
    | _ => none
  | .fill t todo =>
    match s.tasks t with
    | .locked k (.create f _) =>
      -- a directory also gets its first entries
      if todo.all Micro.isUse then
        some (s.setTask t (.own k (.fill f :: .flush :: todo) true))
      else
        none
    | _ => none
  | .change t todo =>
    match s.tasks t with
    | .locked k .use =>
      if todo.all Micro.isUse then
        some (s.setTask t (.own k todo false))
      else
        none
    | _ => none
  | .remove t now =>
    match s.tasks t with
    | .locked k .unlink =>
      let c := s.slots k
      let nlink := c.state.nlink - 1
      some ((s.setSlot k
        { c with
          state := { c.state with nlink := nlink } }).setTask t (.own k
              (if nlink = 0 ∧ c.strong ≤ 2 then
                freeScript now
              else
                [.flush])
              false))
    | _ => none
  | .notEmpty t =>
    match s.tasks t with
    | .locked k .unlink =>
      let i := (s.slots k).inum
      some ((s.setLinks i (s.links i + 1)).setTask t (.own k [] false))
    | _ => none
  | .reapTest t =>
    match s.tasks t with
    | .locked k .reapTest =>
      let c := s.slots k
      some ((s.setSlot k { c with locked := false }).setTask
        t (if c.state.nlink ≠ 0 ∨ c.state.typ = 0 then
            .hold k
          else
            .want k .reapFree))
    | _ => none
  | .reapFree t now =>
    match s.tasks t with
    | .locked k .reapFree =>
      let st := (s.slots k).state
      some (s.setTask t (.own k (if st.nlink = 0 ∧ st.typ ≠ 0 then
          freeScript now
        else
          [])
        false))
    | _ => none
  | .micro t =>
    match s.tasks t with
    | .own k (m :: todo) new =>
      let c := s.slots k
      some (((s.setSlot k { c with state := m.mem c.state }).setDisk c.inum
          (m.disk c.state (s.disk c.inum))).setTask t (.own k todo new))
    | _ => none
  | .unlock t =>
    match s.tasks t with
    | .own k [] new =>
      some ((s.setSlot k { s.slots k with locked := false }).setTask t
          (if new then .link k else .hold k))
    | _ => none
  | .dirlink t =>
    match s.tasks t with
    | .link k =>
      let i := (s.slots k).inum
      some ((s.setLinks i (s.links i + 1)).setTask t (.hold k))
    | _ => none
  | .dirlinkFail t =>
    match s.tasks t with
    | .link k => some (s.setTask t (.hold k))
    | _ => none
  | .defer t =>
    match s.tasks t with
    | .hold k => some (s.setTask t (.reap k))
    | _ => none
  | .count t =>
    match s.tasks t with
    | .reap k =>
      some (s.setTask t (if 2 < (s.slots k).strong then .hold k
          else .want k .reapTest))
    | _ => none
  | .drop t =>
    match s.tasks t with
    | .hold k =>
      some ((s.setSlot k
        { s.slots k with
          strong := (s.slots k).strong - 1 }).setTask t .idle)
    | _ => none

-- What an Action Can Do

def Phase.arc : Phase → Option Nat
  | .want k _ => some k
  | .load k _ => some k
  | .locked k _ => some k
  | .own k _ _ => some k
  | .link k => some k
  | .hold k => some k
  | .reap k => some k
  | _ => none

def Phase.lock : Phase → Option Nat
  | .load k _ => some k
  | .locked k _ => some k
  | .own k _ _ => some k
  | _ => none

/-
  The inode on whose link count the task has a claim: it has
  raised the count and not yet made the entry, or removed the
  entry and not yet lowered the count.
-/
def Phase.claims (slots : Nat → Slot) : Phase → Option Nat
  | .get _ i _ => some i
  | .want k (.create _ _) => some (slots k).inum
  | .load k (.create _ _) => some (slots k).inum
  | .locked k (.create _ _) => some (slots k).inum
  | .want k .unlink => some (slots k).inum
  | .load k .unlink => some (slots k).inum
  | .locked k .unlink => some (slots k).inum
  | .own k _ true => some (slots k).inum
  | .link k => some (slots k).inum
  | _ => none

/- Why a task takes a reference to inode `i`. -/
inductive Getting (s : Sys) (i k : Nat) : Phase → Phase → (Nat → Nat) → Prop where
  | create {f d} : Getting s i k (.get f i d) (.want k (.create f d)) s.links
  | lookup (hNamed : s.links i ≠ 0) : Getting s i k .idle (.hold k) s.links
  | unlink (hNamed : s.links i ≠ 0) : Getting s i k .idle (.want k .unlink)
        (update s.links i (s.links i - 1))

/- What a task decides to do with an inode it has locked. -/
inductive Deciding (s : Sys) (k : Nat) : Cont → List Micro → Bool → InodeState →
      (Nat → Nat) → Prop where
  | fill {f d todo} (hUse : todo.all Micro.isUse) :
      Deciding s k (.create f d) (.fill f :: .flush :: todo) true (s.slots k).state s.links
  | change {todo} (hUse : todo.all Micro.isUse) :
      Deciding s k .use todo false (s.slots k).state s.links
  | remove {todo nlink} (now : UInt32) (hNlink : nlink = (s.slots k).state.nlink - 1)
      (hTodo : todo = [.flush] ∨ todo = freeScript now ∧ nlink = 0) :
      Deciding s k .unlink todo false { (s.slots k).state with nlink := nlink } s.links
  | notEmpty : Deciding s k .unlink [] false (s.slots k).state
        (update s.links (s.slots k).inum (s.links (s.slots k).inum + 1))
  | reapFree {todo} (now : UInt32) (hTodo : todo = [] ∨ todo = freeScript now ∧
          (s.slots k).state.nlink = 0) : Deciding s k .reapFree todo false (s.slots k).state s.links

/- Where a task goes on after releasing a lock. -/
inductive Releasing (k : Nat) : Phase → Phase → Prop where
  | link : Releasing k (.own k [] true) (.link k)
  | hold : Releasing k (.own k [] false) (.hold k)
  | kept : Releasing k (.locked k .reapTest) (.hold k)
  | again : Releasing k (.locked k .reapTest) (.want k .reapFree)

inductive Move (s : Sys) (t : Nat) : Sys → Prop where
  | phase {p p' : Phase} (hTask : s.tasks t = p) (hArc : p'.arc = p.arc) (hLock : p.lock = none)
      (hLock' : p'.lock = none) (hClaims : ∀ slots, p'.claims slots = none) :
      Move s t (s.setTask t p')
  | claim {f i now} (hTask : s.tasks t = .claim f i) :
      Move s t ((s.setDisk i (freshDinode f now)).setTask t (.get f i (freshDinode f now)))
  | iget {p p' i k slots links} (hTask : s.tasks t = p) (hWhy : Getting s i k p p' links)
      (hGet : tryIget s.slots ROOTDEV i = some (k, slots)) :
      Move s t { s with
        slots := slots
        links := links
        tasks := update s.tasks t p' }
  | lock {k c p'} (hTask : s.tasks t = .want k c) (hFree : (s.slots k).locked = false)
      (hNext : p' = if (s.slots k).valid then .locked k c
        else .load k c) : Move s t ((s.setSlot k { s.slots k with locked := true }).setTask t p')
  | load {k c} (hTask : s.tasks t = .load k c) (hTyp : (s.disk (s.slots k).inum).typ ≠ 0) :
      Move s t ((s.setSlot k
        { s.slots k with
          state := s.disk (s.slots k).inum
          valid := true }).setTask t (.locked k c))
  | decide {k c todo new st links} (hTask : s.tasks t = .locked k c)
      (hWhat : Deciding s k c todo new st links) : Move s t { s.setSlot k
          { s.slots k with state := st } with
        links := links
        tasks := update s.tasks t (.own k todo new) }
  | micro {k m todo new} (hTask : s.tasks t = .own k (m :: todo) new) : Move s t (((s.setSlot k
        { s.slots k with
          state := m.mem (s.slots k).state }).setDisk (s.slots k).inum (m.disk (s.slots k).state
              (s.disk (s.slots k).inum))).setTask t (.own k todo new))
  | unlock {k p p'} (hTask : s.tasks t = p) (hNext : Releasing k p p') : Move s t ((s.setSlot k
        { s.slots k with locked := false }).setTask t p')
  | dirlink {k} (hTask : s.tasks t = .link k) : Move s t ((s.setLinks (s.slots k).inum
        (s.links (s.slots k).inum + 1)).setTask t (.hold k))
  | drop {k} (hTask : s.tasks t = .hold k) : Move s t ((s.setSlot k
        { s.slots k with
          strong := (s.slots k).strong - 1 }).setTask t .idle)

theorem Sys.setSlot_self (s : Sys) (k : Nat) :
    s.setSlot k { s.slots k with state := (s.slots k).state } =
      s := by
  unfold Sys.setSlot
  simp

def Act.task : Act → Nat
  | .create t _ => t
  | .test t => t
  | .claim t _ => t
  | .iget t => t
  | .lookup t _ => t
  | .unlink t _ => t
  | .use t => t
  | .lock t => t
  | .load t => t
  | .fill t _ => t
  | .change t _ => t
  | .remove t _ => t
  | .notEmpty t => t
  | .reapTest t => t
  | .reapFree t _ => t
  | .micro t => t
  | .unlock t => t
  | .dirlink t => t
  | .dirlinkFail t => t
  | .defer t => t
  | .count t => t
  | .drop t => t

theorem Move.decide_self {s : Sys} {t k : Nat} {c : Cont} {todo : List Micro} {new : Bool}
    {links : Nat → Nat} (hTask : s.tasks t = .locked k c)
    (hWhat : Deciding s k c todo new (s.slots k).state links) : Move s t { s with
      links := links
      tasks := update s.tasks t (.own k todo new) } := by
  have hMove := Move.decide hTask hWhat
  rw [s.setSlot_self] at hMove
  exact hMove

theorem move_of_step {s s' : Sys} {act : Act} (hStep : s.step act = some s') :
    Move s act.task s' := by
  cases act with simp only [Sys.step] at hStep
  | create t f | use t | dirlinkFail t | defer t =>
    split at hStep <;> cases hStep
    rename_i hTask
    exact .phase hTask rfl rfl rfl fun _ => rfl
  | test t =>
    split at hStep
    · rename_i hTask
      have hPhase : ∀ p : Phase, p.arc = none → p.lock = none → (∀ slots, p.claims slots = none) →
          Move s t (s.setTask t p) := fun p hArc => .phase hTask hArc rfl
      split at hStep
      · cases hStep
        exact hPhase _ rfl rfl fun _ => rfl
      · split at hStep <;> cases hStep <;> exact hPhase _ rfl rfl fun _ => rfl
    · cases hStep
  | count t =>
    split at hStep <;> cases hStep
    rename_i hTask
    split <;> exact .phase hTask rfl rfl rfl fun _ => rfl
  | claim t now =>
    split at hStep <;> cases hStep
    rename_i hTask
    exact .claim hTask
  | iget t =>
    split at hStep
    · rename_i hTask
      rcases Option.map_eq_some_iff.mp hStep with ⟨⟨k, slots⟩, hGet, rfl⟩
      exact .iget hTask .create hGet
    · cases hStep
  | lookup t i | unlink t i =>
    split at hStep
    · rename_i hTask
      split at hStep
      · cases hStep
      · rename_i hNamed
        rcases Option.map_eq_some_iff.mp hStep with ⟨⟨k, slots⟩, hGet, rfl⟩
        first
          | exact .iget hTask (.lookup hNamed) hGet
          | exact .iget hTask (.unlink hNamed) hGet
    · cases hStep
  | lock t =>
    split at hStep
    · rename_i hTask
      split at hStep <;> cases hStep
      rename_i hFree
      exact .lock hTask (by simpa using hFree) rfl
    · cases hStep
  | load t =>
    split at hStep
    · rename_i hTask
      split at hStep <;> cases hStep
      rename_i hTyp
      exact .load hTask hTyp
    · cases hStep
  | fill t todo | change t todo =>
    split at hStep
    · rename_i hTask
      split at hStep <;> cases hStep
      rename_i hUse
      first
        | exact .decide_self hTask (.fill hUse)
        | exact .decide_self hTask (.change hUse)
    · cases hStep
  | remove t now =>
    split at hStep <;> cases hStep
    rename_i hTask
    refine .decide hTask (.remove now rfl ?_)
    split
    · rename_i hFree
      exact .inr ⟨rfl, hFree.1⟩
    · exact .inl rfl
  | notEmpty t =>
    split at hStep <;> cases hStep
    rename_i hTask
    exact .decide_self hTask .notEmpty
  | reapTest t =>
    split at hStep <;> cases hStep
    rename_i hTask
    split
    · exact .unlock hTask .kept
    · exact .unlock hTask .again
  | reapFree t now =>
    split at hStep <;> cases hStep
    rename_i hTask
    refine .decide_self hTask (.reapFree now ?_)
    split
    · rename_i hFree
      exact .inr ⟨rfl, hFree.1⟩
    · exact .inl rfl
  | micro t =>
    split at hStep <;> cases hStep
    rename_i hTask
    exact .micro hTask
  | unlock t =>
    split at hStep <;> cases hStep
    rename_i k new hTask
    cases new with
    | true => exact .unlock hTask .link
    | false => exact .unlock hTask .hold
  | dirlink t =>
    split at hStep <;> cases hStep
    rename_i hTask
    exact .dirlink hTask
  | drop t =>
    split at hStep <;> cases hStep
    rename_i hTask
    exact .drop hTask

-- Reference Counts

theorem Slot.isFor_iff {c : Slot} {dev inum : Nat} : c.isFor dev inum = true ↔
      1 < c.strong ∧ c.inum = inum ∧ c.dev = dev := by simp [Slot.isFor, and_assoc]

theorem tryIget_eq_some {slots slots' : Nat → Slot} {dev inum k : Nat}
    (hGet : tryIget slots dev inum = some (k, slots')) : k < NINODE_CACHE ∧
      ((slots k).isFor dev inum ∧ slots' = update slots k
            { slots k with strong := (slots k).strong + 1 } ∨ (∀ j, j < NINODE_CACHE →
            ¬ (slots j).isFor dev inum) ∧ (slots k).strong = 1 ∧ slots' = update slots k
            { slots k with
              dev := dev
              inum := inum
              valid := false
              strong := 2 }) := by
  unfold tryIget at hGet
  dsimp only at hGet
  split at hGet
  · rename_i j hFind
    rcases Prod.mk.inj (Option.some.inj hGet) with ⟨rfl, rfl⟩
    have hMem := List.mem_of_find?_eq_some hFind
    have hLive := List.find?_some hFind
    exact ⟨List.mem_range.mp hMem, .inl ⟨hLive, rfl⟩⟩
  · rename_i hNone
    split at hGet
    · rename_i j hFind
      rcases Prod.mk.inj (Option.some.inj hGet) with ⟨rfl, rfl⟩
      have hMem := List.mem_of_find?_eq_some hFind
      have hIdle := List.find?_some hFind
      refine ⟨List.mem_range.mp hMem, .inr ⟨?_, by simpa using hIdle, rfl⟩⟩
      intro i hi
      exact List.find?_eq_none.mp hNone i (List.mem_range.mpr hi)
    · cases hGet

def Phase.arcs (k : Nat) (p : Phase) : Nat := if p.arc = some k then 1 else 0

/- The strong counts are right, and no two live slots cache the same inode. -/
structure Arcs (s : Sys) : Prop where
  slot : ∀ t k, (s.tasks t).arc = some k → k < NINODE_CACHE ∧ (s.slots k).dev = ROOTDEV
  count : ∀ k, k < NINODE_CACHE → 1 ≤ (s.slots k).strong ∧
      Tally (Phase.arcs k) s.tasks ((s.slots k).strong - 1)
  unique : ∀ j k, j < NINODE_CACHE → k < NINODE_CACHE →
    1 < (s.slots j).strong → 1 < (s.slots k).strong → (s.slots j).dev = (s.slots k).dev →
      (s.slots j).inum = (s.slots k).inum → j = k

namespace Arcs

variable {s s' : Sys} {t u j k : Nat}

theorem live (hArcs : Arcs s) (hArc : (s.tasks t).arc = some k) : 1 < (s.slots k).strong := by
  rcases hArcs.slot t k hArc with ⟨hk, -⟩
  rcases hArcs.count k hk with ⟨hPos, hTally⟩
  have hLe := hTally.weight_le t
  simp only [Phase.arcs, hArc, if_true] at hLe
  omega

theorem same_slot (hArcs : Arcs s) (hArc : (s.tasks t).arc = some j)
    (hArc' : (s.tasks u).arc = some k) (hInum : (s.slots j).inum = (s.slots k).inum) : j = k := by
  rcases hArcs.slot t j hArc with ⟨hj, hDev⟩
  rcases hArcs.slot u k hArc' with ⟨hk, hDev'⟩
  exact hArcs.unique j k hj hk (hArcs.live hArc) (hArcs.live hArc') (hDev.trans hDev'.symm) hInum

theorem two_lt (hArcs : Arcs s) (hNe : t ≠ u) (hArc : (s.tasks t).arc = some k)
    (hArc' : (s.tasks u).arc = some k) : 2 < (s.slots k).strong := by
  rcases hArcs.slot t k hArc with ⟨hk, -⟩
  rcases hArcs.count k hk with ⟨hPos, hTally⟩
  have hLe := hTally.two_weights_le hNe
  simp only [Phase.arcs, hArc, hArc', if_true] at hLe
  omega

theorem keep (hArcs : Arcs s) {p : Phase} (hTasks : s'.tasks = update s.tasks t p)
    (hArc : p.arc = (s.tasks t).arc) (hSlots : ∀ k, (s'.slots k).dev = (s.slots k).dev ∧
      (s'.slots k).inum = (s.slots k).inum ∧ (s'.slots k).strong = (s.slots k).strong) :
    Arcs s' := by
  constructor
  · rw [hTasks]
    refine (forall_update_iff s.tasks fun _ q => ∀ k, q.arc = some k → k < NINODE_CACHE ∧
      (s'.slots k).dev = ROOTDEV).mpr ⟨fun k hk => ?_, fun u _ k hk => ?_⟩
    · rw [(hSlots k).1]
      exact hArcs.slot t k (hArc ▸ hk)
    · rw [(hSlots k).1]
      exact hArcs.slot u k hk
  · intro k hk
    rw [(hSlots k).2.2, hTasks]
    rcases hArcs.count k hk with ⟨hPos, hTally⟩
    refine ⟨hPos, hTally.update_of_eq ?_⟩
    simp only [Phase.arcs, hArc]
  · intro i k hi hk
    have hOld := hArcs.unique i k hi hk
    grind

/- One slot changes, but not what its count rests on. -/
theorem keep_slot (hArcs : Arcs s) {p : Phase} {c : Slot}
    (hTasks : s'.tasks = update s.tasks t p) (hArc : p.arc = (s.tasks t).arc)
    (hSlots : s'.slots = update s.slots k c) (hDev : c.dev = (s.slots k).dev)
    (hInum : c.inum = (s.slots k).inum) (hStrong : c.strong = (s.slots k).strong) : Arcs s' := by
  refine hArcs.keep hTasks hArc ?_
  rw [hSlots]
  exact (forall_update_iff s.slots fun j c => c.dev = (s.slots j).dev ∧ c.inum = (s.slots j).inum ∧
    c.strong = (s.slots j).strong).mpr ⟨⟨hDev, hInum, hStrong⟩, fun _ _ => ⟨rfl, rfl, rfl⟩⟩

theorem iget (hArcs : Arcs s) {p : Phase} {i : Nat} (hNone : (s.tasks t).arc = none)
    (hArc : p.arc = some k) (hTasks : s'.tasks = update s.tasks t p)
    (hGet : tryIget s.slots ROOTDEV i = some (k, s'.slots)) : Arcs s' := by
  rcases tryIget_eq_some hGet with ⟨hk, hCase⟩
  -- the slot is for `i`, and counts one more
  have hNew : (s'.slots k).dev = ROOTDEV ∧ (s'.slots k).inum = i ∧
      (s'.slots k).strong = (s.slots k).strong + 1 := by
    rcases hCase with ⟨hLive, hEq⟩ | ⟨-, hIdle, hEq⟩
    · rcases Slot.isFor_iff.mp hLive with ⟨-, hInum, hDev⟩
      simp [hEq, hDev, hInum]
    · simp [hEq, hIdle]
  have hOther : ∀ j, j ≠ k → s'.slots j = s.slots j := by
    intro j hj
    rcases hCase with ⟨-, hEq⟩ | ⟨-, -, hEq⟩ <;> rw [hEq, update_of_ne hj]
  -- a slot for `i` that was live is this one
  have hOnly : ∀ j, j < NINODE_CACHE → j ≠ k → 1 < (s.slots j).strong → (s.slots j).dev = ROOTDEV →
        (s.slots j).inum ≠ i := by
    intro j hj hNe hLive hDev hInum
    rcases hCase with ⟨hFor, -⟩ | ⟨hNoneFor, -, -⟩
    · rcases Slot.isFor_iff.mp hFor with ⟨hLive', hInum', hDev'⟩
      exact hNe (hArcs.unique j k hj hk hLive hLive'
        (hDev.trans hDev'.symm) (hInum.trans hInum'.symm))
    · exact hNoneFor j hj (Slot.isFor_iff.mpr ⟨hLive, hInum, hDev⟩)
  constructor
  · intro u j hu
    have hOld := hArcs.slot u j
    rw [hTasks, update_apply] at hu
    grind
  · intro j hj
    rcases hArcs.count j hj with ⟨hPos, hTally⟩
    have hUpd := hTally.update t p
    have hOld : Phase.arcs j (s.tasks t) = 0 := by simp [Phase.arcs, hNone]
    rw [hTasks]
    by_cases hEq : j = k
    · subst hEq
      have hOne : Phase.arcs j p = 1 := by simp [Phase.arcs, hArc]
      rw [hOld, hOne] at hUpd
      rw [hNew.2.2]
      have hCount : (s.slots j).strong + 1 - 1 = (s.slots j).strong - 1 - 0 + 1 := by omega
      rw [hCount]
      exact ⟨by omega, hUpd⟩
    · have hZero : Phase.arcs j p = 0 := by simp [Phase.arcs, hArc, Ne.symm hEq]
      rw [hOld, hZero] at hUpd
      rw [hOther j hEq]
      exact ⟨hPos, hUpd⟩
  · intro a b ha hb
    have hOld := hArcs.unique a b ha hb
    have hA := hOnly a ha
    have hB := hOnly b hb
    grind

theorem drop (hArcs : Arcs s) (hArc : (s.tasks t).arc = some k)
    (hTasks : s'.tasks = update s.tasks t .idle) (hSlots : s'.slots = update s.slots k
      { s.slots k with strong := (s.slots k).strong - 1 }) : Arcs s' := by
  have hLive := hArcs.live hArc
  have hLe : ∀ j, (s'.slots j).dev = (s.slots j).dev ∧ (s'.slots j).inum = (s.slots j).inum ∧
      (s'.slots j).strong ≤ (s.slots j).strong := by
    rw [hSlots]
    exact (forall_update_iff s.slots fun j c => c.dev = (s.slots j).dev ∧
      c.inum = (s.slots j).inum ∧ c.strong ≤ (s.slots j).strong).mpr
        ⟨⟨rfl, rfl, Nat.sub_le _ _⟩, fun _ _ => ⟨rfl, rfl, le_rfl⟩⟩
  constructor
  · rw [hTasks]
    refine (forall_update_iff s.tasks fun _ p => ∀ j, p.arc = some j → j < NINODE_CACHE ∧
      (s'.slots j).dev = ROOTDEV).mpr ⟨fun j hj => (nomatch hj), fun u _ j hu => ?_⟩
    rw [(hLe j).1]
    exact hArcs.slot u j hu
  · intro j hj
    rcases hArcs.count j hj with ⟨hPos, hTally⟩
    have hUpd := hTally.update t .idle
    rw [hTasks, hSlots]
    by_cases hEq : j = k
    · subst hEq
      have hOne : Phase.arcs j (s.tasks t) = 1 := by simp [Phase.arcs, hArc]
      rw [hOne] at hUpd
      rw [update_self]
      exact ⟨Nat.le_sub_of_add_le hLive, hUpd⟩
    · rw [update_of_ne hEq]
      refine ⟨hPos, hTally.update_of_eq ?_⟩
      have hNone : Phase.arcs j (s.tasks t) = 0 := by simp [Phase.arcs, hArc, Ne.symm hEq]
      rw [hNone]
      rfl
  · intro a b ha hb hLiveA hLiveB hDev hInum
    have hOld := hArcs.unique a b ha hb
    grind

end Arcs

theorem arcs_move {s s' : Sys} {t : Nat} (hArcs : Arcs s) (hMove : Move s t s') : Arcs s' := by
  cases hMove with
  | phase hTask hArc =>
    refine hArcs.keep rfl ?_ fun _ => ⟨rfl, rfl, rfl⟩
    rw [hArc, hTask]
  | claim hTask | dirlink hTask =>
    refine hArcs.keep rfl ?_ fun _ => ⟨rfl, rfl, rfl⟩
    rw [hTask]
    rfl
  | iget hTask hWhy hGet =>
    cases hWhy <;> exact hArcs.iget (by rw [hTask]; rfl) rfl rfl hGet
  | lock hTask hFree hNext =>
    refine hArcs.keep_slot rfl ?_ rfl rfl rfl rfl
    rw [hNext, hTask]
    split <;> rfl
  | load hTask | decide hTask | micro hTask =>
    refine hArcs.keep_slot rfl ?_ rfl rfl rfl rfl
    rw [hTask]
    rfl
  | unlock hTask hNext =>
    refine hArcs.keep_slot rfl ?_ rfl rfl rfl rfl
    rw [hTask]
    cases hNext <;> rfl
  | drop hTask => exact hArcs.drop (by rw [hTask]; rfl) rfl rfl

-- Concurrent Allocations

/- What a task claims depends on the slot of its `Arc`. -/
theorem Phase.claims_congr {slots slots' : Nat → Slot} {p : Phase} (hInum : ∀ k, p.arc = some k →
      (slots' k).inum = (slots k).inum) : p.claims slots' = p.claims slots := by
  cases p with
  | want k c | load k c | locked k c => cases c <;> simp [Phase.claims, hInum k rfl]
  | own k todo new => cases new <;> simp [Phase.claims, hInum k rfl]
  | link k => simp [Phase.claims, hInum k rfl]
  | _ => rfl

/- Taking a reference changes no held slot's inode. -/
theorem Arcs.inum_iget {s : Sys} {slots : Nat → Slot} {i j k u : Nat} (hArcs : Arcs s)
    (hGet : tryIget s.slots ROOTDEV i = some (k, slots)) (hArc : (s.tasks u).arc = some j) :
    (slots j).inum = (s.slots j).inum := by
  have hLive := hArcs.live hArc
  rcases tryIget_eq_some hGet with ⟨-, ⟨-, hEq⟩ | ⟨-, hIdle, hEq⟩⟩
  all_goals
    rw [hEq, update_apply]
    grind

theorem inum_of_tryIget {slots slots' : Nat → Slot} {i k : Nat}
    (hGet : tryIget slots ROOTDEV i = some (k, slots')) : (slots' k).inum = i := by
  rcases tryIget_eq_some hGet with ⟨-, ⟨hFor, hEq⟩ | ⟨-, -, hEq⟩⟩
  · rw [hEq, update_self]
    exact (Slot.isFor_iff.mp hFor).2.1
  · rw [hEq, update_self]

def Act.isIalloc : Act → Bool
  | .create _ _ => true
  | .test _ => true
  | .claim _ _ => true
  | .iget _ => true
  | _ => false

/- A claiming write finds the inode still free. -/
def Sys.claimsFree (s : Sys) : Act → Bool
  | .claim t _ =>
    match s.tasks t with
    | .claim _ i => (s.disk i).typ == 0
    | _ => true
  | _ => true

/- Some files are open; nothing else is going on. -/
structure Calm (s : Sys) : Prop where
  arcs : Arcs s
  tasks : ∀ t, s.tasks t = .idle ∨ ∃ k, s.tasks t = .hold k

/- Claimed inodes are in use, each by one task. -/
structure Allocs (s : Sys) : Prop where
  arcs : Arcs s
  used : ∀ t i, (s.tasks t).claims s.slots = some i → (s.disk i).typ ≠ 0
  alone : ∀ t u i, (s.tasks t).claims s.slots = some i → (s.tasks u).claims s.slots = some i → t = u

namespace Allocs

variable {s s' : Sys} {t : Nat}

theorem setTask {p : Phase} (hAllocs : Allocs s) (hArcs : Arcs (s.setTask t p))
    (hNone : p.claims s.slots = none) : Allocs (s.setTask t p) := by
  have hOld : ∀ u i, ((s.setTask t p).tasks u).claims s.slots = some i →
        (s.tasks u).claims s.slots = some i := by
    intro u i hu
    simp only [Sys.setTask, update_apply] at hu
    grind
  refine ⟨hArcs, ?_, ?_⟩
  · intro u i hu
    exact hAllocs.used u i (hOld u i hu)
  · intro u v i hu hv
    exact hAllocs.alone u v i (hOld u i hu) (hOld v i hv)

theorem claim (hAllocs : Allocs s) {f : NewFile} {i : Nat} {now : UInt32}
    (hFree : (s.disk i).typ = 0)
    (hArcs : Arcs ((s.setDisk i (freshDinode f now)).setTask t (.get f i (freshDinode f now)))) :
    Allocs ((s.setDisk i (freshDinode f now)).setTask t (.get f i (freshDinode f now))) := by
  refine ⟨hArcs, ?_, alone_update hAllocs.alone ?_⟩
  · intro u j hu
    have hOld := hAllocs.used u j
    have hTyp := f.typ_ne
    simp only [Sys.setTask, Sys.setDisk, update_apply] at hu ⊢
    grind [Phase.claims, freshDinode]
  · -- nobody else has claimed this inode
    intro u j _ hj hu
    cases hj
    exact hAllocs.used u i hu hFree

theorem iget (hAllocs : Allocs s) {f : NewFile} {d : DInode} {i k : Nat} {slots : Nat → Slot}
    (hTask : s.tasks t = .get f i d) (hGet : tryIget s.slots ROOTDEV i = some (k, slots))
    (hArcs : Arcs ({ s with slots := slots }.setTask t (.want k (.create f d)))) :
    Allocs ({ s with slots := slots }.setTask t (.want k (.create f d))) := by
  -- the claim passes from the record to the slot
  have hSame : ∀ u, (update s.tasks t (.want k (.create f d)) u).claims slots =
        (s.tasks u).claims s.slots := by
    intro u
    by_cases hEq : u = t
    · subst hEq
      rw [update_self, hTask]
      simp [Phase.claims, inum_of_tryIget hGet]
    · rw [update_of_ne hEq]
      apply Phase.claims_congr
      intro j hj
      exact hAllocs.arcs.inum_iget hGet hj
  refine ⟨hArcs, ?_, ?_⟩
  · intro u j hu
    exact hAllocs.used u j ((hSame u).symm.trans hu)
  · intro u v j hu hv
    exact hAllocs.alone u v j ((hSame u).symm.trans hu) ((hSame v).symm.trans hv)

end Allocs

theorem Calm.allocs {s : Sys} (hCalm : Calm s) : Allocs s := by
  have hNone : ∀ t, (s.tasks t).claims s.slots = none := by
    intro t
    rcases hCalm.tasks t with hIdle | ⟨k, hHold⟩
    · rw [hIdle]
      rfl
    · rw [hHold]
      rfl
  exact ⟨hCalm.arcs, by simp [hNone], by simp [hNone]⟩

theorem allocs_step {s s' : Sys} {act : Act} (hAllocs : Allocs s)
    (hOk : act.isIalloc && s.claimsFree act) (hStep : s.step act = some s') : Allocs s' := by
  have hArcs := arcs_move hAllocs.arcs (move_of_step hStep)
  cases act with
  | create t f =>
    simp only [Sys.step] at hStep
    split at hStep <;> cases hStep
    exact hAllocs.setTask hArcs rfl
  | test t =>
    simp only [Sys.step] at hStep
    split at hStep
    · split at hStep
      · cases hStep
        exact hAllocs.setTask hArcs rfl
      · split at hStep <;> cases hStep <;> exact hAllocs.setTask hArcs rfl
    · cases hStep
  | claim t now =>
    simp only [Sys.step] at hStep
    split at hStep <;> cases hStep
    rename_i f i hTask
    have hFree : (s.disk i).typ = 0 := by simpa [Act.isIalloc, Sys.claimsFree, hTask] using hOk
    exact hAllocs.claim hFree hArcs
  | iget t =>
    simp only [Sys.step] at hStep
    split at hStep
    · rename_i hTask
      rcases Option.map_eq_some_iff.mp hStep with ⟨⟨k, slots⟩, hGet, rfl⟩
      exact hAllocs.iget hTask hGet hArcs
    · cases hStep
  | _ => simp [Act.isIalloc] at hOk

/-
  In every run of `ialloc` calls whose claiming writes find
  the inode still free, no two calls return the same inode.
-/
theorem iallocs_distinct {s₀ s : Sys} {t u j k : Nat} {f g : NewFile} {d e : DInode}
    (hCalm : Calm s₀) (hReach : Reach Sys.step
      (fun m act => act.isIalloc && m.claimsFree act) s₀ s) (hNe : t ≠ u)
    (hFirst : s.tasks t = .want j (.create f d)) (hSecond : s.tasks u = .want k (.create g e)) :
    (s.slots j).inum ≠ (s.slots k).inum := by
  have hAllocs := hReach.invariant (fun _ _ _ hm hOk hStep => allocs_step hm hOk hStep) hCalm.allocs
  intro hEq
  refine hNe (hAllocs.alone t u (s.slots j).inum ?_ ?_)
  · rw [hFirst]
    rfl
  · rw [hSecond, hEq]
    rfl

/- An empty inode table of four inodes, and no task. -/
def emptySys : Sys where
  ninodes := 4
  slots := fun _ =>
    { dev := 0
      inum := 2 ^ 32 - 1
      valid := false
      locked := false
      state := DInode.default
      strong := 1 }
  disk := fun _ => DInode.default
  links := fun _ => 0
  tasks := fun _ => .idle

def plainFile : NewFile where
  typ := T_FILE
  mode := 0o644
  major := 0
  minor := 0
  uid := 0
  gid := 0
  typ_ne := by decide

theorem emptySys_calm : Calm emptySys := by
  refine ⟨⟨?_, ?_, ?_⟩, fun _ => .inl rfl⟩
  · intro t k hArc
    cases hArc
  · intro k _
    exact ⟨le_rfl, Tally.zero fun _ => rfl⟩
  · intro j k _ _ hLive
    exact absurd hLive (lt_irrefl 1)

theorem iallocs_distinct_sequence : ∃ s j k d e, run Sys.step
          (fun m act => act.isIalloc && m.claimsFree act) emptySys
          [.create 0 plainFile, .test 0, .claim 0 7, .iget 0, .create 1 plainFile, .test 1, .test 1,
            .claim 1 8, .iget 1] = some s ∧ s.tasks 0 = .want j (.create plainFile d) ∧
        s.tasks 1 = .want k (.create plainFile e) ∧ (s.slots j).inum ≠ (s.slots k).inum := by
  have hRun : ∃ s j k d e, run Sys.step (fun m act => act.isIalloc && m.claimsFree act)
          emptySys [.create 0 plainFile, .test 0, .claim 0 7, .iget 0,
            .create 1 plainFile, .test 1, .test 1, .claim 1 8, .iget 1] = some s ∧
        s.tasks 0 = .want j (.create plainFile d) ∧ s.tasks 1 = .want k (.create plainFile e) :=
    ⟨_, _, _, _, _, rfl, rfl, rfl⟩
  rcases hRun with ⟨s, j, k, d, e, hRun, hFirst, hSecond⟩
  exact ⟨s, j, k, d, e, hRun, hFirst, hSecond, iallocs_distinct emptySys_calm
      (reach_of_run hRun) (by decide) hFirst hSecond⟩

/- Two calls test inode 1 before either claims it; both return it. -/
theorem iallocs_same_inum : ∃ s j k d e, Reach Sys.step (fun _ act => act.isIalloc)
          emptySys s ∧ s.tasks 0 = .want j (.create plainFile d) ∧
        s.tasks 1 = .want k (.create plainFile e) ∧ (s.slots j).inum = (s.slots k).inum := by
  have hRun : ∃ s j k d e, run Sys.step (fun _ act => act.isIalloc) emptySys
          [.create 0 plainFile, .create 1 plainFile, .test 0,
            .test 1, .claim 0 7, .claim 1 8, .iget 0, .iget 1] = some s ∧
        s.tasks 0 = .want j (.create plainFile d) ∧ s.tasks 1 = .want k (.create plainFile e) ∧
        (s.slots j).inum = (s.slots k).inum := ⟨_, _, _, _, _, rfl, rfl, rfl, rfl⟩
  rcases hRun with ⟨s, j, k, d, e, hRun, hRest⟩
  exact ⟨s, j, k, d, e, reach_of_run hRun, hRest⟩

end Icache

end PlayXv6
