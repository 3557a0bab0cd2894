import PlayXv6.Fs.InodeCache

/-
  Recycling inode numbers.

  A number is free once its record on disk has type 0, which
  is before the task that freed it lets go of the cached
  inode.  If no inode is claimed while anybody still holds it,
  every file is created in a fresh inode.

  Main declarations:
    * `Sync`, `Backs`
    * `inv_step`, `recycled_of_reach`
-/

namespace PlayXv6

open Function Machine

variable {links : Nat → Nat} {mem disk d : DInode} {n i t k m : Nat} {p p' : Phase} {s s' : Sys}
variable {slots : Nat → Slot} {st : InodeState} {todo : List Micro}

namespace Icache

def Sys.LiveFor (s : Sys) (k i : Nat) : Prop :=
  k < NINODE_CACHE ∧ 1 < (s.slots k).strong ∧
    (s.slots k).inum = i

namespace Arcs

variable {s : Sys} {i j k t u : Nat}

theorem holder (hArcs : Arcs s) (hLive : s.LiveFor k i) : ∃ t, (s.tasks t).arc = some k := by
  rcases hLive with ⟨hk, hStrong, -⟩
  rcases (hArcs.count k hk).2.exists_pos (by omega) with ⟨t, ht⟩
  refine ⟨t, ?_⟩
  by_contra hNot
  simp [Phase.arcs, hNot] at ht

theorem liveFor (hArcs : Arcs s) (hArc : (s.tasks t).arc = some k) : s.LiveFor k (s.slots k).inum :=
  ⟨(hArcs.slot t k hArc).1, hArcs.live hArc, rfl⟩

theorem eq_of_liveFor (hArcs : Arcs s) (hj : s.LiveFor j i) (hk : s.LiveFor k i) : j = k := by
  rcases hArcs.holder hj with ⟨t, ht⟩
  rcases hArcs.holder hk with ⟨u, hu⟩
  exact hArcs.same_slot ht hu (hj.2.2.trans hk.2.2.symm)

theorem isFor_iff (hArcs : Arcs s) (hk : k < NINODE_CACHE) :
    (s.slots k).isFor ROOTDEV i = true ↔ s.LiveFor k i := by
  rw [Slot.isFor_iff]
  constructor
  · rintro ⟨hLive, hInum, -⟩
    exact ⟨hk, hLive, hInum⟩
  · intro hLive
    rcases hArcs.holder hLive with ⟨t, ht⟩
    exact ⟨hLive.2.1, hLive.2.2, (hArcs.slot t k ht).2⟩

/-
  What taking a reference does to the slots: the slot is now
  live for the inode, its lock and contents are as before, it
  is valid only if it was live for the inode before, and no
  other slot changes.
-/
theorem iget_slots (hArcs : Arcs s)
    (hGet : tryIget s.slots ROOTDEV i = some (k, slots)) : k < NINODE_CACHE ∧ (slots k).inum = i ∧
      (slots k).locked = (s.slots k).locked ∧ (slots k).state = (s.slots k).state ∧ (s.LiveFor k i ∧
          (slots k).valid = (s.slots k).valid ∨ (∀ j, ¬ s.LiveFor j i) ∧ (s.slots k).strong = 1 ∧
          (slots k).valid = false ∧ (slots k).strong = 2) ∧ ∀ j, j ≠ k → slots j = s.slots j := by
  have hInum := inum_of_tryIget hGet
  rcases tryIget_eq_some hGet with ⟨hk, ⟨hFor, hEq⟩ | ⟨hNone, hIdle, hEq⟩⟩
  · refine ⟨hk, hInum, ?_, ?_, .inl ⟨(hArcs.isFor_iff hk).mp hFor, ?_⟩, fun j hj => ?_⟩
    all_goals simp [*]
  · refine ⟨hk, hInum, ?_, ?_, .inr ⟨?_, hIdle, ?_, ?_⟩, fun j hj => ?_⟩
    case refine_3 => exact fun j hj => hNone j hj.1 ((hArcs.isFor_iff hj.1).mpr hj)
    all_goals simp [*]

end Arcs

-- Locks

structure Locks (s : Sys) : Prop where
  held : ∀ t k, (s.tasks t).lock = some k → (s.slots k).locked = true
  alone : ∀ t u k, (s.tasks t).lock = some k → (s.tasks u).lock = some k → t = u

/- Task `t` moves on with a lock that nobody else has. -/
theorem Locks.move (hLocks : Locks s)
    (hTasks : s'.tasks = update s.tasks t p) (hMine : ∀ k, p.lock = some k →
      (s'.slots k).locked = true ∧ ∀ u, u ≠ t → (s.tasks u).lock ≠ some k)
    (hOthers : ∀ u k, u ≠ t → (s.tasks u).lock = some k → (s'.slots k).locked = true) :
    Locks s' := by
  constructor
  · rw [hTasks]
    exact (forall_update_iff s.tasks fun _ q => ∀ k, q.lock = some k →
      (s'.slots k).locked = true).mpr ⟨fun k hk => (hMine k hk).1, fun u hu k => hOthers u k hu⟩
  · rw [hTasks]
    exact alone_update hLocks.alone fun u k hu hk => (hMine k hk).2 u hu

theorem Locks.keep (hLocks : Locks s)
    (hTasks : s'.tasks = update s.tasks t p) (hLock : p.lock = (s.tasks t).lock)
    (hSlots : ∀ k, (s.slots k).locked = true → (s'.slots k).locked = true) : Locks s' := by
  refine hLocks.move hTasks ?_ fun u k _ hu => hSlots k (hLocks.held u k hu)
  intro k hk
  rw [hLock] at hk
  exact ⟨hSlots k (hLocks.held t k hk), fun u hu huk => hu (hLocks.alone u t k huk hk)⟩

/- A slot stays locked if one update leaves it so. -/
theorem update_locked {j : Nat} {c : Slot}
    (hNew : (slots k).locked = true → c.locked = true) (hLocked : (slots j).locked = true) :
    (update slots k c j).locked = true := by
  rw [update_apply]
  grind

theorem locks_move (hArcs : Arcs s) (hLocks : Locks s) (hMove : Move s t s') : Locks s' := by
  cases hMove with
  | phase hTask hArc hLock hLock' =>
    refine hLocks.keep rfl ?_ fun _ hk => hk
    rw [hLock', hTask, hLock]
  | claim hTask | dirlink hTask =>
    refine hLocks.keep rfl ?_ fun _ hk => hk
    rw [hTask]
    rfl
  | @iget _ _ i k slots _ hTask hWhy hGet =>
    rcases hArcs.iget_slots hGet with ⟨-, -, hLocked, -, -, hOther⟩
    refine hLocks.keep rfl ?_ ?_
    · rw [hTask]
      cases hWhy <;> rfl
    · intro j hj
      show (slots j).locked = true
      grind
  | @lock k c p' hTask hFree hNext =>
    have hLock : p'.lock = some k := by
      rw [hNext]
      split <;> rfl
    refine hLocks.move rfl ?_ fun u j _ hu => update_locked (fun _ => rfl) (hLocks.held u j hu)
    intro j hj
    obtain rfl : k = j := Option.some.inj (hLock.symm.trans hj)
    refine ⟨by simp [Sys.setTask, Sys.setSlot], fun u _ hu => ?_⟩
    -- nobody had the lock before
    rw [hLocks.held u k hu] at hFree
    cases hFree
  | load hTask | decide hTask | micro hTask | drop hTask =>
    refine hLocks.keep rfl ?_ fun _ => update_locked id
    rw [hTask]
    rfl
  | @unlock k p p' hTask hNext =>
    have hLock : (s.tasks t).lock = some k := by
      rw [hTask]
      cases hNext <;> rfl
    have hLock' : p'.lock = none := by cases hNext <;> rfl
    refine hLocks.move rfl ?_ ?_
    · intro j hj
      rw [hLock'] at hj
      cases hj
    · intro u j hu hj
      have hNe : j ≠ k := fun hEq => hu (hLocks.alone u t k (hEq ▸ hj) hLock)
      simpa [Sys.setTask, Sys.setSlot, hNe] using hLocks.held u j hj

-- What Records Say About Names

/- The two agree on the type and the link count. -/
def Sync (mem disk : DInode) : Prop := mem.typ = disk.typ ∧ mem.nlink = disk.nlink

/- When a step under the lock is taken. -/
def Micro.Fits (st : InodeState) : Micro → Prop
  | .fill _ => st.nlink = 1
  | .clearTyp => st.nlink = 0
  | _ => True

/- Every step of the list fits, and after the last one the inode and its record agree. -/
def ScriptOk : List Micro → InodeState → DInode → Prop
  | [], mem, disk => Sync mem disk
  | m :: todo, mem, disk => m.Fits mem ∧ ScriptOk todo (m.mem mem) (m.disk mem disk)

/- An inode in use counts at least its `n` names. -/
def Backs (d : DInode) (n : Nat) : Prop := (d.typ ≠ 0 → n ≤ d.nlink.toNat) ∧ (0 < n → d.typ ≠ 0)

theorem Sync.patch (hSync : Sync mem disk) (new : InodeState) :
    Sync (Micro.mem (.patch new) mem) disk := hSync

theorem ScriptOk.of_uses (hUse : todo.all Micro.isUse)
    (hSync : Sync mem disk) : ScriptOk todo mem disk := by
  induction todo generalizing mem disk with
  | nil => exact hSync
  | cons m todo ih =>
    rw [List.all_cons, Bool.and_eq_true] at hUse
    rcases hUse with ⟨hm, hRest⟩
    cases m with
    | patch new => exact ⟨trivial, ih hRest (hSync.patch new)⟩
    | flush => exact ⟨trivial, ih hRest ⟨rfl, rfl⟩⟩
    | fill f | trunc now | clearTyp => cases hm

theorem ScriptOk.free (now : UInt32) (hNlink : mem.nlink = 0) :
    ScriptOk (freeScript now) mem disk := ⟨trivial, trivial, hNlink, trivial, rfl, rfl⟩

theorem Backs.mono (hBacks : Backs d n) (hLe : m ≤ n) : Backs d m :=
  ⟨fun hTyp => hLe.trans (hBacks.1 hTyp), fun hPos => hBacks.2 (hPos.trans_le hLe)⟩

theorem Backs.of_sync (hBacks : Backs mem n) (hSync : Sync mem disk) : Backs disk n := by
  unfold Backs at *
  rw [← hSync.1, ← hSync.2]
  exact hBacks

theorem Backs.micro {m : Micro} (hBacks : Backs st n) (hFits : m.Fits st) : Backs (m.mem st) n := by
  cases m with
  | fill f =>
    refine ⟨?_, hBacks.2⟩
    intro hTyp
    have hLe := hBacks.1 hTyp
    rw [hFits] at hLe
    exact hLe
  | patch new | trunc now | flush => exact hBacks
  | clearTyp =>
    refine ⟨fun hTyp => absurd rfl hTyp, ?_⟩
    intro hPos
    have hLe := hBacks.1 (hBacks.2 hPos)
    have hZero : st.nlink = 0 := hFits
    rw [hZero] at hLe
    exact absurd hPos (Nat.not_lt.mpr hLe)

theorem Backs.lower (hBacks : Backs st (n + 1)) : Backs { st with nlink := st.nlink - 1 } n := by
  refine ⟨?_, fun _ => hBacks.2 (Nat.succ_pos n)⟩
  intro hTyp
  have hLe := hBacks.1 hTyp
  have hOne : (1 : UInt16) ≤ st.nlink := by
    rw [UInt16.le_iff_toNat_le]
    exact (Nat.succ_le_succ (Nat.zero_le n)).trans hLe
  show n ≤ (st.nlink - 1).toNat
  rw [UInt16.toNat_sub_of_le _ _ hOne]
  exact Nat.le_sub_of_add_le hLe

theorem backs_freshDinode (f : NewFile) (now : UInt32) : Backs (freshDinode f now) 1 :=
  ⟨fun _ => le_rfl, fun _ => f.typ_ne⟩

-- Names of an Inode

def Phase.pend (slots : Nat → Slot) (i : Nat) (p : Phase) : Nat :=
  if p.claims slots = some i then 1 else 0

theorem Phase.pend_congr {slots' : Nat → Slot} (hInum : ∀ k, (slots' k).inum = (slots k).inum) :
    Phase.pend slots' i p = Phase.pend slots i p := by
  unfold Phase.pend
  rw [Phase.claims_congr fun k _ => hInum k]

/- Entries of inode `i`, and claims on its link count. -/
def Sys.Names (s : Sys) (i n : Nat) : Prop :=
  ∃ p, Tally (Phase.pend s.slots i) s.tasks p ∧
    s.links i + p = n

theorem Sys.Names.claim_le (hNames : s.Names i n)
    (hClaims : (s.tasks t).claims s.slots = some i) : s.links i + 1 ≤ n := by
  rcases hNames with ⟨p, hTally, hSum⟩
  have hLe := hTally.weight_le t
  simp only [Phase.pend, hClaims, if_true] at hLe
  omega

theorem Sys.Names.two_claims_le {u : Nat} (hNames : s.Names i n) (hNe : t ≠ u)
    (hClaims : (s.tasks t).claims s.slots = some i)
    (hClaims' : (s.tasks u).claims s.slots = some i) : s.links i + 2 ≤ n := by
  rcases hNames with ⟨p, hTally, hSum⟩
  have hLe := hTally.two_weights_le hNe
  simp only [Phase.pend, hClaims, hClaims', if_true] at hLe
  omega

/- How a move of task `t` changes the names. -/
theorem Sys.Names.move {r : Sys} (hNames : s.Names i n)
    (hTasks : r.tasks = update s.tasks t p) (hSlots : ∀ u k, (s.tasks u).arc = some k →
      (r.slots k).inum = (s.slots k).inum) : ∃ n', r.Names i n' ∧
      n' + s.links i + Phase.pend s.slots i (s.tasks t) =
        n + r.links i + Phase.pend r.slots i p := by
  rcases hNames with ⟨q, hTally, hSum⟩
  have hSame : Tally (Phase.pend r.slots i) s.tasks q := by
    refine hTally.congr ?_
    intro u
    unfold Phase.pend
    rw [Phase.claims_congr (hSlots u)]
  have hLe := hSame.weight_le t
  have hOld : Phase.pend r.slots i (s.tasks t) = Phase.pend s.slots i (s.tasks t) := by
    unfold Phase.pend
    rw [Phase.claims_congr (hSlots t)]
  refine ⟨_, ⟨_, hTasks ▸ hSame.update t p, rfl⟩, ?_⟩
  rw [hOld] at hLe ⊢
  omega

/- The inode counts its names: in memory if it is loaded, on disk if it is not. -/
structure Backed (s : Sys) (i n : Nat) : Prop where
  mem : ∀ k, s.LiveFor k i → (s.slots k).valid = true → Backs (s.slots k).state n
  disk : (∀ k, s.LiveFor k i → (s.slots k).valid = false) → Backs (s.disk i) n
  typ : 0 < n → (s.disk i).typ ≠ 0

theorem Backed.mono (hBacked : Backed s i n) (hLe : m ≤ n) : Backed s i m :=
  ⟨fun k hk hValid => (hBacked.mem k hk hValid).mono hLe,
    fun hNone => (hBacked.disk hNone).mono hLe, fun hPos => hBacked.typ (hPos.trans_le hLe)⟩

theorem Backed.frame (hBacked : Backed s i n)
    (hLive : ∀ k, s'.LiveFor k i ↔ s.LiveFor k i) (hSlots : ∀ k, s.LiveFor k i →
      (s'.slots k).valid = (s.slots k).valid ∧ (s'.slots k).state = (s.slots k).state)
    (hDisk : s'.disk i = s.disk i) : Backed s' i n := by
  refine ⟨?_, ?_, by rw [hDisk]; exact hBacked.typ⟩
  · intro k hk hValid
    have hOld := hBacked.mem k
    grind
  · intro hNone
    rw [hDisk]
    exact hBacked.disk (by grind)

-- What a Task Knows

/- `d` is what `ialloc` wrote for the file. -/
def IsFresh (f : NewFile) (d : DInode) : Prop := ∃ now, d = freshDinode f now

/- What a task can rely on. A creating task is alone with its inode until it has locked it. -/
def Sys.Knows (s : Sys) : Phase → Prop
  | .get f i d => IsFresh f d ∧ s.disk i = d ∧ ∀ k, ¬ s.LiveFor k i
  | .want k (.create f d) =>
    IsFresh f d ∧ (s.slots k).strong = 2 ∧ (s.slots k).valid = false ∧ s.disk (s.slots k).inum = d
  | .load k (.create f d) =>
    IsFresh f d ∧ (s.slots k).strong = 2 ∧ (s.slots k).valid = false ∧ s.disk (s.slots k).inum = d
  | .load k _ => (s.slots k).valid = false
  | .locked k (.create f d) =>
    IsFresh f d ∧ (s.slots k).strong = 2 ∧ (s.slots k).valid = true ∧ (s.slots k).state = d
  | .locked k _ => (s.slots k).valid = true
  | .own k todo _ =>
    (s.slots k).valid = true ∧ ScriptOk todo (s.slots k).state (s.disk (s.slots k).inum)
  | _ => True

/- The slot whose contents the task relies on. -/
def Phase.relies : Phase → Option Nat
  | .want k (.create _ _) => some k
  | .load k _ => some k
  | .locked k _ => some k
  | .own k _ _ => some k
  | _ => none

theorem Phase.arc_of_relies (hRelies : p.relies = some k) : p.arc = some k := by
  unfold Phase.relies at hRelies
  grind [Phase.arc]

/- The task relies on being alone with the slot. -/
def Phase.isNew : Phase → Bool
  | .want _ (.create _ _) => true
  | .load _ (.create _ _) => true
  | .locked _ (.create _ _) => true
  | _ => false

theorem Phase.eq_of_isNew (hRelies : p.relies = some k)
    (hNew : p.isNew = true) : ∃ f d, p = .want k (.create f d) ∨ p = .load k (.create f d) ∨
      p = .locked k (.create f d) := by
  cases p with
  | want j c | load j c | locked j c =>
    cases c <;> cases hNew
    cases hRelies
    simp
  | _ => cases hNew

theorem Sys.Knows.strong_eq_two (hKnows : s.Knows p)
    (hRelies : p.relies = some k) (hNew : p.isNew = true) : (s.slots k).strong = 2 := by
  rcases Phase.eq_of_isNew hRelies hNew with ⟨f, d, rfl | rfl | rfl⟩ <;> exact hKnows.2.1

theorem Sys.Knows.frame (hKnows : s.Knows p)
    (hGet : ∀ f i d, p = .get f i d → s'.disk i = s.disk i ∧ ∀ k, s'.LiveFor k i → s.LiveFor k i)
    (hSlot : ∀ k, p.relies = some k → (s'.slots k).valid = (s.slots k).valid ∧
        (s'.slots k).state = (s.slots k).state ∧ (s'.slots k).inum = (s.slots k).inum ∧
        s'.disk (s.slots k).inum = s.disk (s.slots k).inum)
    (hStrong : ∀ k, p.relies = some k → p.isNew = true → (s'.slots k).strong = (s.slots k).strong) :
    s'.Knows p := by
  cases p with
  | get f i d => grind [Sys.Knows]
  | want k c =>
    cases c with
    | create f d =>
      rcases hSlot k rfl with ⟨hValid, -, hInum, hDisk⟩
      have hSame := hStrong k rfl rfl
      grind [Sys.Knows]
    | _ => trivial
  | load k c | locked k c =>
    rcases hSlot k rfl with ⟨hValid, hState, hInum, hDisk⟩
    cases c with
    | create f d =>
      have hSame := hStrong k rfl rfl
      grind [Sys.Knows]
    | _ => exact hValid.trans hKnows
  | own k todo new =>
    have hSame := hSlot k rfl
    grind [Sys.Knows]
  | _ => trivial

/- The invariant of runs in which no inode is claimed while it is in use or held. -/
structure Inv (s : Sys) : Prop where
  arcs : Arcs s
  locks : Locks s
  knows : ∀ t, s.Knows (s.tasks t)
  sync : ∀ k i, s.LiveFor k i → (s.slots k).valid = true →
    (∀ t todo new, s.tasks t ≠ .own k todo new) → Sync (s.slots k).state (s.disk i)
  backed : ∀ i, ∃ n, s.Names i n ∧ Backed s i n

/- The inode a creating task has just claimed. -/
def Phase.creates (slots : Nat → Slot) : Phase → Option Nat
  | .get _ i _ => some i
  | .want k (.create _ _) => some (slots k).inum
  | .load k (.create _ _) => some (slots k).inum
  | .locked k (.create _ _) => some (slots k).inum
  | _ => none

theorem Phase.eq_of_creates (hNew : p.creates slots = some i) : (∃ f d, p = .get f i d) ∨
      ∃ k, (slots k).inum = i ∧ p.relies = some k ∧ p.isNew = true := by
  cases p with
  | get f j d =>
    cases hNew
    exact .inl ⟨f, d, rfl⟩
  | want k c | load k c | locked k c =>
    cases c <;> cases hNew
    exact .inr ⟨k, rfl, rfl, rfl⟩
  | _ => cases hNew

theorem Phase.creates_of_isNew (hRelies : p.relies = some k) (hNew : p.isNew = true) :
    p.creates slots = some (slots k).inum := by
  rcases Phase.eq_of_isNew hRelies hNew with ⟨f, d, rfl | rfl | rfl⟩ <;> rfl

theorem Phase.claims_of_creates (hNew : p.creates slots = some i) : p.claims slots = some i := by
  rcases Phase.eq_of_creates hNew with ⟨f, d, rfl⟩ | ⟨k, rfl, hRelies, hIs⟩
  · rfl
  · rcases Phase.eq_of_isNew hRelies hIs with ⟨f, d, rfl | rfl | rfl⟩ <;> rfl

namespace Inv

variable {s s' : Sys} {i j k t u : Nat} {p : Phase}

theorem names_le_one (hInv : Inv s) (hNew : (s.tasks t).creates s.slots = some i) :
    ∃ n, s.Names i n ∧ n ≤ 1 := by
  rcases hInv.backed i with ⟨n, hNames, hBacked⟩
  refine ⟨n, hNames, ?_⟩
  have hKnows := hInv.knows t
  have hLe : ∀ f d, IsFresh f d → Backs d n → n ≤ 1 := by
    rintro f d ⟨now, rfl⟩ hBacks
    exact hBacks.1 f.typ_ne
  rcases Phase.eq_of_creates hNew with ⟨f, d, hTask⟩ | ⟨k, rfl, hRelies, hIs⟩
  · rw [hTask] at hKnows
    rcases hKnows with ⟨hFresh, hDisk, hNone⟩
    refine hLe f d hFresh ?_
    rw [← hDisk]
    exact hBacked.disk fun k hk => absurd hk (hNone k)
  · have hLive := hInv.arcs.liveFor (Phase.arc_of_relies hRelies)
    -- until it is loaded, the record counts
    have hUnloaded : ∀ f d, IsFresh f d ∧ (s.slots k).strong = 2 ∧ (s.slots k).valid = false ∧
        s.disk (s.slots k).inum = d → n ≤ 1 := by
      rintro f d ⟨hFresh, -, hValid, hDisk⟩
      refine hLe f d hFresh ?_
      rw [← hDisk]
      refine hBacked.disk fun j hj => ?_
      rw [hInv.arcs.eq_of_liveFor hj hLive]
      exact hValid
    rcases Phase.eq_of_isNew hRelies hIs with ⟨f, d, hTask | hTask | hTask⟩ <;> rw [hTask] at hKnows
    · exact hUnloaded f d hKnows
    · exact hUnloaded f d hKnows
    · rcases hKnows with ⟨hFresh, -, hValid, hState⟩
      refine hLe f d hFresh ?_
      rw [← hState]
      exact hBacked.mem k hLive hValid

theorem links_eq_zero (hInv : Inv s) (hNew : (s.tasks t).creates s.slots = some i) :
    s.links i = 0 := by
  rcases hInv.names_le_one hNew with ⟨n, hNames, hLe⟩
  have hClaim := hNames.claim_le (Phase.claims_of_creates hNew)
  omega

/- and nobody else has a claim on it. -/
theorem claims_ne (hInv : Inv s) (hNew : (s.tasks t).creates s.slots = some i) (hNe : t ≠ u) :
    (s.tasks u).claims s.slots ≠ some i := by
  intro hClaims
  rcases hInv.names_le_one hNew with ⟨n, hNames, hLe⟩
  have hTwo := hNames.two_claims_le hNe (Phase.claims_of_creates hNew) hClaims
  omega

/- Two tasks never rely on one slot that one has locked. -/
theorem relies_ne (hInv : Inv s) (hNe : t ≠ u) (hLock : (s.tasks t).lock = some k)
    (hArc : (s.tasks t).arc = some k) (hRelies : (s.tasks u).relies = some j) : j ≠ k := by
  intro hEq
  subst hEq
  have hKnows := hInv.knows u
  have hAlone := hInv.locks.alone t u j hLock
  have hTwo := hInv.arcs.two_lt hNe hArc (Phase.arc_of_relies hRelies)
  unfold Phase.relies at hRelies
  grind [Sys.Knows, Phase.lock]

theorem names_move (hNames : s.Names i n) (hTasks : s'.tasks = update s.tasks t p)
    (hInum : ∀ k, (s'.slots k).inum = (s.slots k).inum) : ∃ n', s'.Names i n' ∧
      n' + s.links i + Phase.pend s.slots i (s.tasks t) =
        n + s'.links i + Phase.pend s.slots i p := by
  rcases hNames.move hTasks (fun _ k _ => hInum k) with ⟨n', hNames', hSum⟩
  rw [Phase.pend_congr hInum] at hSum
  exact ⟨n', hNames', hSum⟩

/- A slot that nobody works on after a move nobody else worked on before. -/
theorem not_own (hTasks : s'.tasks = update s.tasks t p)
    (hMine : ∀ todo new, s.tasks t ≠ .own k todo new)
    (hNone : ∀ u todo new, s'.tasks u ≠ .own k todo new)
    (u : Nat) (todo : List Micro) (new : Bool) :
    s.tasks u ≠ .own k todo new := by
  have hAfter := hNone u todo new
  rw [hTasks, update_apply] at hAfter
  grind

/- Which slots are live depends on their counts and numbers. -/
theorem liveFor_iff (hInum : (s'.slots k).inum = (s.slots k).inum)
    (hStrong : (s'.slots k).strong = (s.slots k).strong) : s'.LiveFor k i ↔ s.LiveFor k i := by
  unfold Sys.LiveFor
  rw [hInum, hStrong]

/- A move that changes no inode, in memory or on disk, and adds no name. -/
theorem keep (hInv : Inv s) (hMove : Move s t s') (hTasks : s'.tasks = update s.tasks t p)
    (hDisk : s'.disk = s.disk) (hSlots : ∀ k, (s'.slots k).valid = (s.slots k).valid ∧
      (s'.slots k).state = (s.slots k).state ∧ (s'.slots k).inum = (s.slots k).inum ∧
        (s'.slots k).strong = (s.slots k).strong)
    (hKnows : s.Knows p) (hOwn : ∀ k todo new, s.tasks t = .own k todo new → todo = [])
    (hLe : ∀ i, s'.links i + Phase.pend s.slots i p ≤
      s.links i + Phase.pend s.slots i (s.tasks t)) : Inv s' := by
  have hLive : ∀ k i, s'.LiveFor k i ↔ s.LiveFor k i :=
    fun k _ => liveFor_iff (hSlots k).2.2.1 (hSlots k).2.2.2
  refine ⟨arcs_move hInv.arcs hMove, locks_move hInv.arcs hInv.locks hMove, ?_, ?_, ?_⟩
  · have hFrame : ∀ q, s.Knows q → s'.Knows q := by
      intro q hq
      refine hq.frame ?_ ?_ ?_
      · intro f i d _
        exact ⟨by rw [hDisk], fun k hk => (hLive k i).mp hk⟩
      · intro k _
        rcases hSlots k with ⟨hValid, hState, hInum, -⟩
        exact ⟨hValid, hState, hInum, by rw [hDisk]⟩
      · intro k _ _
        exact (hSlots k).2.2.2
    rw [hTasks]
    exact (forall_update_iff s.tasks fun _ q => s'.Knows q).mpr
      ⟨hFrame p hKnows, fun u _ => hFrame _ (hInv.knows u)⟩
  · intro k i hk hValid hNone
    rw [(hSlots k).2.1, hDisk]
    rw [(hSlots k).1] at hValid
    have hOld := (hLive k i).mp hk
    by_cases hMine : ∃ todo new, s.tasks t = .own k todo new
    · -- the task leaves its work under the lock
      rcases hMine with ⟨todo, new, hTask⟩
      have hKnew := hInv.knows t
      rw [hTask, hOwn k todo new hTask] at hKnew
      rw [← hOld.2.2]
      exact hKnew.2
    · exact hInv.sync k i hOld hValid
        (not_own hTasks (fun todo new hTask => hMine ⟨todo, new, hTask⟩) hNone)
  · intro i
    rcases hInv.backed i with ⟨n, hn, hBacked⟩
    rcases names_move hn hTasks (fun k => (hSlots k).2.2.1) with ⟨n', hn', hSum⟩
    have hFewer : n' ≤ n := by
      have hHere := hLe i
      omega
    refine ⟨n', hn', (hBacked.mono hFewer).frame (fun k => hLive k i) ?_ (by rw [hDisk])⟩
    intro k _
    exact ⟨(hSlots k).1, (hSlots k).2.1⟩

-- Every Move Keeps the Invariant

theorem phase (hInv : Inv s) (hTask : s.tasks t = p) (hArc : p'.arc = p.arc)
    (hLock : p.lock = none) (hLock' : p'.lock = none) (hClaims : ∀ slots, p'.claims slots = none) :
    Inv (s.setTask t p') := by
  refine hInv.keep (.phase hTask hArc hLock hLock' hClaims) rfl rfl
    (fun _ => ⟨rfl, rfl, rfl, rfl⟩) ?_ ?_ ?_
  · -- the new phase claims nothing, so it knows nothing
    have hNone := hClaims s.slots
    unfold Sys.Knows
    grind [Phase.claims, Phase.lock]
  · intro k todo new hOwn
    grind [Phase.lock]
  · intro i
    have hZero : Phase.pend s.slots i p' = 0 := by simp [Phase.pend, hClaims]
    show s.links i + Phase.pend s.slots i p' ≤ _
    omega

theorem dirlink (hInv : Inv s) (hTask : s.tasks t = .link k) : Inv ((s.setLinks (s.slots k).inum
      (s.links (s.slots k).inum + 1)).setTask t (.hold k)) := by
  refine hInv.keep (.dirlink hTask) rfl rfl (fun _ => ⟨rfl, rfl, rfl, rfl⟩) trivial ?_ ?_
  · grind
  · intro i
    rw [hTask]
    simp only [Sys.setTask, Sys.setLinks, Phase.pend, Phase.claims, update_apply]
    grind

theorem setLocked (b : Bool) (hInv : Inv s) (hMove : Move s t ((s.setSlot k
      { s.slots k with locked := b }).setTask t p)) (hKnows : s.Knows p)
    (hOwn : ∀ j todo new, s.tasks t = .own j todo new → todo = [])
    (hClaims : ∀ i, Phase.pend s.slots i p ≤ Phase.pend s.slots i (s.tasks t)) : Inv ((s.setSlot k
      { s.slots k with locked := b }).setTask t p) := by
  refine hInv.keep hMove rfl rfl ?_ hKnows hOwn fun i => Nat.add_le_add_left (hClaims i) _
  exact (forall_update_iff s.slots fun j c => c.valid = (s.slots j).valid ∧
    c.state = (s.slots j).state ∧ c.inum = (s.slots j).inum ∧ c.strong = (s.slots j).strong).mpr
      ⟨⟨rfl, rfl, rfl, rfl⟩, fun _ _ => ⟨rfl, rfl, rfl, rfl⟩⟩

theorem lock {c : Cont} (hInv : Inv s) (hTask : s.tasks t = .want k c)
    (hFree : (s.slots k).locked = false) (hNext : p' = if (s.slots k).valid then .locked k c
      else .load k c) : Inv ((s.setSlot k { s.slots k with locked := true }).setTask t p') := by
  have hKnows := hInv.knows t
  rw [hTask] at hKnows
  refine hInv.setLocked true (.lock hTask hFree hNext) ?_ ?_ ?_
  · rw [hNext]
    cases c <;> grind [Sys.Knows]
  · grind
  · intro i
    rw [hNext, hTask]
    split <;> cases c <;> exact le_rfl

theorem unlock (hInv : Inv s) (hTask : s.tasks t = p) (hNext : Releasing k p p') :
    Inv ((s.setSlot k { s.slots k with locked := false }).setTask t p') := by
  refine hInv.setLocked false (.unlock hTask hNext) ?_ ?_ ?_
  · cases hNext <;> trivial
  · intro j todo new hOwn
    cases hNext <;> grind
  · intro i
    rw [hTask]
    cases hNext <;> simp [Phase.pend, Phase.claims]

theorem claim {f : NewFile} {now : UInt32} (hInv : Inv s) (hTask : s.tasks t = .claim f i)
    (hFree : (s.disk i).typ = 0) (hNone : ∀ k, ¬ s.LiveFor k i) (hMove : Move s t s')
    (hTasks : s'.tasks = update s.tasks t (.get f i (freshDinode f now)))
    (hDisk : s'.disk = update s.disk i (freshDinode f now)) (hSlots : s'.slots = s.slots)
    (hLinks : s'.links = s.links) : Inv s' := by
  have hLive : ∀ k j, s'.LiveFor k j ↔ s.LiveFor k j :=
    fun k _ => liveFor_iff (by rw [hSlots]) (by rw [hSlots])
  have hRecord : ∀ j, j ≠ i → s'.disk j = s.disk j := by
    intro j hj
    rw [hDisk, update_of_ne hj]
  -- records of held inodes and of other claims stay
  have hHeld : ∀ u k, (s.tasks u).arc = some k → (s.slots k).inum ≠ i := by
    intro u k hu hEq
    have hLive := hInv.arcs.liveFor hu
    rw [hEq] at hLive
    exact hNone k hLive
  refine ⟨arcs_move hInv.arcs hMove, locks_move hInv.arcs hInv.locks hMove, ?_, ?_, ?_⟩
  · rw [hTasks]
    refine (forall_update_iff s.tasks fun _ q => s'.Knows q).mpr ⟨?_, fun u hu => ?_⟩
    · exact ⟨⟨now, rfl⟩, by rw [hDisk, update_self], fun k hk => hNone k ((hLive k i).mp hk)⟩
    · refine (hInv.knows u).frame ?_ ?_ ?_
      · intro g j d hGet
        have hKnew := hInv.knows u
        rw [hGet] at hKnew
        rcases hKnew with ⟨⟨then_, rfl⟩, hWritten, -⟩
        refine ⟨hRecord j ?_, fun k => (hLive k j).mp⟩
        intro hji
        rw [← hji, hWritten] at hFree
        exact g.typ_ne hFree
      · intro k hk
        rw [hSlots]
        exact ⟨rfl, rfl, rfl, hRecord _ (hHeld u k (Phase.arc_of_relies hk))⟩
      · intro k _ _
        rw [hSlots]
  · intro k j hk hValid hNoOwn
    rw [hLive] at hk
    have hNe : j ≠ i := fun hji => hNone k (hji ▸ hk)
    rw [hRecord j hNe]
    rw [hSlots] at hValid ⊢
    exact hInv.sync k j hk hValid (not_own hTasks (by simp [hTask]) hNoOwn)
  · intro j
    rcases hInv.backed j with ⟨n, hNames, hBacked⟩
    rcases names_move hNames hTasks (fun k => by rw [hSlots]) with ⟨n', hNames', hSum⟩
    refine ⟨n', hNames', ?_⟩
    rw [hTask, hLinks] at hSum
    by_cases hji : j = i
    · subst hji
      have hZero : n = 0 := by
        by_contra hPos
        exact hBacked.typ (Nat.pos_of_ne_zero hPos) hFree
      have hOne : n' = 1 := by
        simp [Phase.pend, Phase.claims, hZero] at hSum
        omega
      rw [hOne]
      have hFresh := backs_freshDinode f now
      rw [← update_self j (freshDinode f now) s.disk, ← hDisk] at hFresh
      exact ⟨fun k hk => absurd ((hLive k j).mp hk) (hNone k), fun _ => hFresh, hFresh.2⟩
    · have hEq : n' = n := by
        simp [Phase.pend, Phase.claims, Ne.symm hji] at hSum
        omega
      rw [hEq]
      refine hBacked.frame (fun k => hLive k j) (fun k _ => ?_) (hRecord j hji)
      rw [hSlots]
      exact ⟨rfl, rfl⟩

/- A task works on the inode it has locked: only its slot and its record change. -/
theorem work {c : Slot} (hInv : Inv s) (hMove : Move s t s')
    (hLock : (s.tasks t).lock = some k) (hArc : (s.tasks t).arc = some k)
    (hTasks : s'.tasks = update s.tasks t p) (hSlots : s'.slots = update s.slots k c)
    (hInum : c.inum = (s.slots k).inum) (hStrong : c.strong = (s.slots k).strong)
    (hValid : c.valid = true) (hDisk : s'.disk = update s.disk (s.slots k).inum d)
    (hKnows : s'.Knows p) (hSync : (∀ todo new, p ≠ .own k todo new) → Sync c.state d)
    (hLe : ∀ i, i ≠ (s.slots k).inum → s'.links i + Phase.pend s.slots i p ≤
      s.links i + Phase.pend s.slots i (s.tasks t))
    (hNames : ∀ n n', Backed s (s.slots k).inum n → n' + s.links (s.slots k).inum +
      Phase.pend s.slots (s.slots k).inum (s.tasks t) = n + s'.links (s.slots k).inum +
        Phase.pend s.slots (s.slots k).inum p → Backs c.state n' ∧ (0 < n' → d.typ ≠ 0)) :
    Inv s' := by
  have hOther : ∀ j, j ≠ k → s'.slots j = s.slots j := by
    intro j hj
    rw [hSlots, update_of_ne hj]
  have hHere : s'.slots k = c := by rw [hSlots, update_self]
  have hInums : ∀ j, (s'.slots j).inum = (s.slots j).inum := by
    rw [hSlots]
    exact (forall_update_iff s.slots fun j c => c.inum = (s.slots j).inum).mpr
      ⟨hInum, fun _ _ => rfl⟩
  have hStrongs : ∀ j, (s'.slots j).strong = (s.slots j).strong := by
    rw [hSlots]
    exact (forall_update_iff s.slots fun j c => c.strong = (s.slots j).strong).mpr
      ⟨hStrong, fun _ _ => rfl⟩
  have hLive : ∀ j i, s'.LiveFor j i ↔ s.LiveFor j i :=
    fun j _ => liveFor_iff (hInums j) (hStrongs j)
  have hMine := hInv.arcs.liveFor hArc
  have hRecord : ∀ i, i ≠ (s.slots k).inum → s'.disk i = s.disk i := by
    intro i hi
    rw [hDisk, update_of_ne hi]
  have hElse : ∀ j i, s.LiveFor j i → j ≠ k → i ≠ (s.slots k).inum := by
    intro j i hj hNe hEq
    rw [hEq] at hj
    exact hNe (hInv.arcs.eq_of_liveFor hj hMine)
  refine ⟨arcs_move hInv.arcs hMove, locks_move hInv.arcs hInv.locks hMove, ?_, ?_, ?_⟩
  · rw [hTasks]
    refine (forall_update_iff s.tasks fun _ q => s'.Knows q).mpr ⟨hKnows, fun u hu => ?_⟩
    refine (hInv.knows u).frame ?_ ?_ ?_
    · intro f i e hGet
      have hKnew := hInv.knows u
      rw [hGet] at hKnew
      have hNe : i ≠ (s.slots k).inum := by
        rintro rfl
        exact hKnew.2.2 k hMine
      exact ⟨hRecord i hNe, fun j hj => (hLive j i).mp hj⟩
    · intro j hj
      have hNe := hInv.relies_ne (Ne.symm hu) hLock hArc hj
      have hHeld := hInv.arcs.liveFor (Phase.arc_of_relies hj)
      rw [hOther j hNe]
      exact ⟨rfl, rfl, rfl, hRecord _ (hElse j _ hHeld hNe)⟩
    · intro j hj _
      rw [hOther j (hInv.relies_ne (Ne.symm hu) hLock hArc hj)]
  · intro j i hj hjValid hNone
    have hOld := (hLive j i).mp hj
    by_cases hEq : j = k
    · subst hEq
      rw [hHere, hDisk, ← hOld.2.2, update_self]
      have hAfter := hNone t
      rw [hTasks, update_self] at hAfter
      exact hSync hAfter
    · rw [hOther j hEq] at hjValid ⊢
      rw [hRecord i (hElse j i hOld hEq)]
      exact hInv.sync j i hOld hjValid (not_own hTasks (by grind [Phase.lock]) hNone)
  · intro i
    rcases hInv.backed i with ⟨n, hn, hBacked⟩
    rcases names_move hn hTasks hInums with ⟨n', hn', hSum⟩
    refine ⟨n', hn', ?_⟩
    by_cases hi : i = (s.slots k).inum
    · subst hi
      rcases hNames n n' hBacked hSum with ⟨hBacks, hTyp⟩
      refine ⟨?_, ?_, ?_⟩
      · intro j hj _
        rw [hInv.arcs.eq_of_liveFor ((hLive j _).mp hj) hMine, hHere]
        exact hBacks
      · intro hNone
        grind [hNone k ((hLive k _).mpr hMine)]
      · rw [hDisk, update_self]
        exact hTyp
    · have hFewer : n' ≤ n := by
        have hOut := hLe i hi
        omega
      refine (hBacked.mono hFewer).frame (fun j => hLive j i) ?_ (hRecord i hi)
      intro j hj
      have hNe : j ≠ k := by
        rintro rfl
        exact hi hj.2.2.symm
      rw [hOther j hNe]
      exact ⟨rfl, rfl⟩

theorem load {c : Cont} (hInv : Inv s) (hTask : s.tasks t = .load k c)
    (hTyp : (s.disk (s.slots k).inum).typ ≠ 0) : Inv ((s.setSlot k
      { s.slots k with
        state := s.disk (s.slots k).inum
        valid := true }).setTask t (.locked k c)) := by
  have hKnows := hInv.knows t
  rw [hTask] at hKnows
  have hUnloaded : (s.slots k).valid = false := by
    cases c with
    | create f d => exact hKnows.2.2.1
    | _ => exact hKnows
  have hMine := hInv.arcs.liveFor (t := t) (k := k) (by rw [hTask]; rfl)
  have hPend : ∀ i, Phase.pend s.slots i (.locked k c) = Phase.pend s.slots i (s.tasks t) := by
    intro i
    rw [hTask]
    cases c <;> rfl
  refine hInv.work (d := s.disk (s.slots k).inum) (.load hTask hTyp) (by rw [hTask]; rfl)
    (by rw [hTask]; rfl) rfl rfl rfl rfl rfl (by simp [Sys.setTask, Sys.setSlot]) ?_
    (fun _ => ⟨rfl, rfl⟩) (fun i _ => Nat.add_le_add_left (hPend i).le _) ?_
  · cases c with
    | create f d =>
      rcases hKnows with ⟨hFresh, hTwo, -, hDisk⟩
      simp only [Sys.Knows, Sys.setTask, Sys.setSlot, update_self]
      exact ⟨hFresh, hTwo, trivial, hDisk⟩
    | _ => simp [Sys.Knows, Sys.setTask, Sys.setSlot]
  · intro n n' hBacked hSum
    rw [hPend] at hSum
    obtain rfl : n' = n := by
      simp only [Sys.setTask, Sys.setSlot] at hSum
      omega
    -- no other live slot of this inode is loaded
    refine ⟨hBacked.disk fun j hj => ?_, fun _ => hTyp⟩
    rw [hInv.arcs.eq_of_liveFor hj hMine]
    exact hUnloaded

theorem micro {m : Micro} {new : Bool} (hInv : Inv s)
    (hTask : s.tasks t = .own k (m :: todo) new) : Inv (((s.setSlot k
      { s.slots k with
        state := m.mem (s.slots k).state }).setDisk (s.slots k).inum (m.disk (s.slots k).state
            (s.disk (s.slots k).inum))).setTask t (.own k todo new)) := by
  have hKnows := hInv.knows t
  rw [hTask] at hKnows
  rcases hKnows with ⟨hValid, hFits, hScript⟩
  have hMine := hInv.arcs.liveFor (t := t) (k := k) (by rw [hTask]; rfl)
  have hPend : ∀ i, Phase.pend s.slots i (.own k todo new) = Phase.pend s.slots i (s.tasks t) := by
    intro i
    rw [hTask]
    cases new <;> rfl
  refine hInv.work (.micro hTask) (by rw [hTask]; rfl) (by rw [hTask]; rfl) rfl rfl rfl rfl hValid
    rfl ?_ (fun hNot => absurd rfl (hNot todo new))
    (fun i _ => Nat.add_le_add_left (hPend i).le _) ?_
  · simp only [Sys.Knows, Sys.setTask, Sys.setDisk, Sys.setSlot, update_self]
    exact ⟨hValid, hScript⟩
  · intro n n' hBacked hSum
    rw [hPend] at hSum
    obtain rfl : n' = n := by
      simp only [Sys.setTask, Sys.setDisk, Sys.setSlot] at hSum
      omega
    have hBacks := hBacked.mem k hMine hValid
    refine ⟨hBacks.micro hFits, fun hPos => ?_⟩
    cases m with
    | flush => exact hBacks.2 hPos
    | _ => exact hBacked.typ hPos

/- A task that has just locked an inode finds it in step
   with its record. -/
theorem sync_of_locked {c : Cont} (hInv : Inv s) (hTask : s.tasks t = .locked k c) :
    (s.slots k).valid = true ∧ Sync (s.slots k).state (s.disk (s.slots k).inum) := by
  have hKnows := hInv.knows t
  rw [hTask] at hKnows
  have hValid : (s.slots k).valid = true := by
    cases c with
    | create f d => exact hKnows.2.2.1
    | _ => exact hKnows
  refine ⟨hValid, hInv.sync k _ (hInv.arcs.liveFor (t := t) (by rw [hTask]; rfl)) hValid ?_⟩
  intro u todo new hOwn
  have hEq := hInv.locks.alone t u k (by rw [hTask]; rfl) (by rw [hOwn]; rfl)
  grind

theorem decide {c : Cont} {new : Bool}
    (hInv : Inv s) (hTask : s.tasks t = .locked k c) (hWhat : Deciding s k c todo new st links) :
    Inv { s.setSlot k { s.slots k with state := st } with
      links := links
      tasks := update s.tasks t (.own k todo new) } := by
  rcases hInv.sync_of_locked hTask with ⟨hValid, hSync⟩
  have hMine := hInv.arcs.liveFor (t := t) (k := k) (by rw [hTask]; rfl)
  have hSelf : s.disk = update s.disk (s.slots k).inum (s.disk (s.slots k).inum) := by simp
  have hScript : ScriptOk todo st (s.disk (s.slots k).inum) := by
    cases hWhat with
    | fill hUse =>
      have hKnows := hInv.knows t
      rw [hTask] at hKnows
      rcases hKnows with ⟨⟨now, hFresh⟩, -, -, hState⟩
      refine ⟨?_, trivial, .of_uses hUse ⟨rfl, rfl⟩⟩
      rw [hState, hFresh]
      rfl
    | change hUse => exact .of_uses hUse hSync
    | remove now hNlink hTodo =>
      rcases hTodo with rfl | ⟨rfl, hZero⟩
      · exact ⟨trivial, rfl, rfl⟩
      · exact .free now hZero
    | notEmpty => exact hSync
    | reapFree now hTodo =>
      rcases hTodo with rfl | ⟨rfl, hZero⟩
      · exact hSync
      · exact .free now hZero
  refine hInv.work (.decide hTask hWhat) (by rw [hTask]; rfl) (by rw [hTask]; rfl) rfl rfl rfl rfl
    hValid hSelf ?_ (fun hNot => absurd rfl (hNot todo new)) ?_ ?_
  · simp only [Sys.Knows, Sys.setSlot, update_self]
    exact ⟨hValid, hScript⟩
  · intro i hi
    rw [hTask]
    cases hWhat <;> simp [Phase.pend, Phase.claims, Ne.symm hi, hi]
  · intro n n' hBacked hSum
    have hBacks := hBacked.mem k hMine hValid
    have hTyp := hBacked.typ
    rw [hTask] at hSum
    cases hWhat with
    | remove now hNlink hTodo =>
      simp [Phase.pend, Phase.claims] at hSum
      have hEq : n = n' + 1 := by omega
      rw [hEq] at hBacks hTyp
      rw [hNlink]
      exact ⟨hBacks.lower, fun _ => hTyp (Nat.succ_pos n')⟩
    | _ =>
      simp [Phase.pend, Phase.claims] at hSum
      obtain rfl : n' = n := by omega
      exact ⟨hBacks, hTyp⟩

/- The last reference may go: the record takes over. -/
theorem drop (hInv : Inv s) (hTask : s.tasks t = .hold k) (hMove : Move s t s')
    (hTasks : s'.tasks = update s.tasks t .idle) (hDisk : s'.disk = s.disk)
    (hLinks : s'.links = s.links) (hUpdate : s'.slots = update s.slots k
      { s.slots k with strong := (s.slots k).strong - 1 }) : Inv s' := by
  have hArc : (s.tasks t).arc = some k := by
    rw [hTask]
    rfl
  have hMine := hInv.arcs.liveFor hArc
  have hSlots : ∀ j, (s'.slots j).valid = (s.slots j).valid ∧ (s'.slots j).state =
    (s.slots j).state ∧ (s'.slots j).inum = (s.slots j).inum ∧ (s'.slots j).strong ≤
    (s.slots j).strong ∧ (j ≠ k → (s'.slots j).strong = (s.slots j).strong) := by
    rw [hUpdate]
    exact (forall_update_iff s.slots fun j c => c.valid = (s.slots j).valid ∧
      c.state = (s.slots j).state ∧ c.inum = (s.slots j).inum ∧ c.strong ≤ (s.slots j).strong ∧
        (j ≠ k → c.strong = (s.slots j).strong)).mpr
          ⟨⟨rfl, rfl, rfl, Nat.sub_le _ _, fun h => absurd rfl h⟩,
            fun _ _ => ⟨rfl, rfl, rfl, le_rfl, fun _ => rfl⟩⟩
  have hLive : ∀ j i, s'.LiveFor j i → s.LiveFor j i := by
    rintro j i ⟨hj, hStrong, hInum⟩
    exact ⟨hj, hStrong.trans_le (hSlots j).2.2.2.1, (hSlots j).2.2.1.symm.trans hInum⟩
  -- a slot that nobody else holds is in step with its record
  have hSync : (s.slots k).strong = 2 → (s.slots k).valid = true → Sync (s.slots k).state
          (s.disk (s.slots k).inum) := by
    intro hTwo hValid
    refine hInv.sync k _ hMine hValid ?_
    intro u todo new hOwn
    have hNe : t ≠ u := by grind
    have hMore := hInv.arcs.two_lt hNe hArc (by rw [hOwn]; rfl)
    omega
  refine ⟨arcs_move hInv.arcs hMove, locks_move hInv.arcs hInv.locks hMove, ?_, ?_, ?_⟩
  · rw [hTasks]
    refine (forall_update_iff s.tasks fun _ q => s'.Knows q).mpr ⟨trivial, fun u hu => ?_⟩
    refine (hInv.knows u).frame ?_ ?_ ?_
    · intro f i d _
      exact ⟨by rw [hDisk], fun j hj => hLive j i hj⟩
    · intro j _
      rcases hSlots j with ⟨hValid, hState, hInum, -, -⟩
      exact ⟨hValid, hState, hInum, by rw [hDisk]⟩
    · -- a new inode is held by its creator only
      intro j hj hIsNew
      have hNe : j ≠ k := by
        intro hjk
        subst hjk
        have hMore := hInv.arcs.two_lt (Ne.symm hu) hArc (Phase.arc_of_relies hj)
        have hTwo := (hInv.knows u).strong_eq_two hj hIsNew
        omega
      exact (hSlots j).2.2.2.2 hNe
  · intro j i hj hValid hNone
    rcases hSlots j with ⟨hSameValid, hSameState, -, -, -⟩
    rw [hSameState, hDisk]
    rw [hSameValid] at hValid
    exact hInv.sync j i (hLive j i hj) hValid (not_own hTasks (by simp [hTask]) hNone)
  · intro i
    rcases hInv.backed i with ⟨n, hNames, hBacked⟩
    rcases names_move hNames hTasks (fun j => (hSlots j).2.2.1) with ⟨n', hNames', hSum⟩
    have hEq : n' = n := by
      simp [Phase.pend, Phase.claims, hTask, hLinks] at hSum
      omega
    rw [hEq] at hNames'
    refine ⟨n, hNames', ?_, ?_, ?_⟩
    · intro j hj hValid
      have hOld := hBacked.mem j (hLive j i hj)
      grind
    · intro hNone
      rw [hDisk]
      by_cases hLast : (s.slots k).inum = i ∧ (s.slots k).valid = true
      · rcases hLast with ⟨rfl, hValid⟩
        have hTwo : (s.slots k).strong = 2 := by
          by_contra hMore
          have hGt := hMine.2.1
          have hStill := hNone k ⟨hMine.1, by simp [hUpdate]; omega, (hSlots k).2.2.1⟩
          grind
        exact (hBacked.mem k hMine hValid).of_sync (hSync hTwo hValid)
      · refine hBacked.disk fun j hj => ?_
        by_cases hjk : j = k
        · grind [Sys.LiveFor]
        · rw [← (hSlots j).1]
          exact hNone j ((liveFor_iff (hSlots j).2.2.1 ((hSlots j).2.2.2.2 hjk)).mpr hj)
    · rw [hDisk]
      exact hBacked.typ

theorem not_creates (hInv : Inv s) (hTask : s.tasks t = p)
    (hWhy : Getting s i k p p' links) (hNe : u ≠ t) : (s.tasks u).creates s.slots ≠ some i := by
  intro hNew
  cases hWhy with
  | create =>
    refine hInv.claims_ne hNew hNe ?_
    rw [hTask]
    rfl
  | lookup hNamed | unlink hNamed => exact hNamed (hInv.links_eq_zero hNew)

theorem iget (hInv : Inv s) (hTask : s.tasks t = p)
    (hMove : Move s t s') (hWhy : Getting s i k p p' links) (hLinks : s'.links = links)
    (hGet : tryIget s.slots ROOTDEV i = some (k, s'.slots))
    (hTasks : s'.tasks = update s.tasks t p') (hDisk : s'.disk = s.disk) : Inv s' := by
  have hArcs := arcs_move hInv.arcs hMove
  rcases hInv.arcs.iget_slots hGet with ⟨hk, hInum, -, hState, hCase, hOther⟩
  have hArc : p'.arc = some k := by cases hWhy <;> rfl
  have hStrong : 1 < (s'.slots k).strong := hArcs.live (t := t) (by
      rw [hTasks, update_self]
      exact hArc)
  -- the slot was live before, or has just been stamped
  have hWas : 1 < (s.slots k).strong → s.LiveFor k i ∧ (s'.slots k).valid = (s.slots k).valid := by
    intro hLive
    rcases hCase with hOld | ⟨-, hIdle, -, -⟩
    · exact hOld
    · omega
  -- a slot that is loaded was so before
  have hLoaded : ∀ j l, s'.LiveFor j l → (s'.slots j).valid = true → s.LiveFor j l ∧
      (s.slots j).valid = true ∧ (s'.slots j).state = (s.slots j).state := by
    rintro j l ⟨hj, hLive, hFor⟩ hValid
    have hSame := hOther j
    grind [Sys.LiveFor]
  refine ⟨hArcs, locks_move hInv.arcs hInv.locks hMove, ?_, ?_, ?_⟩
  · rw [hTasks]
    refine (forall_update_iff s.tasks fun _ q => s'.Knows q).mpr ⟨?_, fun u hu => ?_⟩
    · cases hWhy with
      | @create f d =>
        have hKnows := hInv.knows t
        rw [hTask] at hKnows
        rcases hKnows with ⟨hFresh, hWritten, hNone⟩
        rcases hCase with ⟨hLive, -⟩ | ⟨-, -, hNew, hTwo⟩
        · exact absurd hLive (hNone k)
        · refine ⟨hFresh, hTwo, hNew, ?_⟩
          rw [hInum, hDisk]
          exact hWritten
      | lookup | unlink => trivial
    · have hNotNew := hInv.not_creates hTask hWhy hu
      refine (hInv.knows u).frame ?_ ?_ ?_
      · intro f j d hPhase
        refine ⟨by rw [hDisk], ?_⟩
        rintro l ⟨hl, hLive, hFor⟩
        have hSame := hOther l
        grind [Sys.LiveFor, Phase.creates]
      · intro l hl
        have hSame := hOther l
        have hLive := hInv.arcs.live (Phase.arc_of_relies hl)
        grind [Sys.LiveFor]
      · intro l hl hIsNew
        have hSame := hOther l
        have hLive := hInv.arcs.live (Phase.arc_of_relies hl)
        grind [Sys.LiveFor, Phase.creates_of_isNew hl hIsNew]
  · intro j l hLive hValid hNone
    rcases hLoaded j l hLive hValid with ⟨hOld, hWasValid, hSame⟩
    rw [hSame, hDisk]
    refine hInv.sync j l hOld hWasValid (not_own hTasks ?_ hNone)
    intro todo new hOwn
    cases hWhy <;> grind
  · intro l
    rcases hInv.backed l with ⟨n, hNames, hBacked⟩
    rcases hNames.move hTasks (fun _ _ hu => hInv.arcs.inum_iget hGet hu) with ⟨n', hNames', hSum⟩
    obtain rfl : n' = n := by
      rw [hTask, hLinks] at hSum
      by_cases hl : l = i
      · subst hl
        cases hWhy <;> simp [Phase.pend, Phase.claims, hInum] at hSum <;> omega
      · have hil : ¬ i = l := fun h => hl h.symm
        cases hWhy <;> simp [Phase.pend, Phase.claims, hInum, hil, hl] at hSum <;> omega
    refine ⟨n', hNames', ?_, ?_, ?_⟩
    · intro j hLive hValid
      rcases hLoaded j l hLive hValid with ⟨hOld, hWasValid, hSame⟩
      rw [hSame]
      exact hBacked.mem j hOld hWasValid
    · intro hNone
      rw [hDisk]
      refine hBacked.disk fun j hj => ?_
      have hSame := hOther j
      have hAfter := hNone j
      grind [Sys.LiveFor]
    · rw [hDisk]
      exact hBacked.typ

end Inv

-- Whole Runs

/- A claiming write finds the inode still free, and nobody holds it. -/
def Sys.claimOk (s : Sys) : Act → Bool
  | .claim t _ =>
    match s.tasks t with
    | .claim _ i =>
      (s.disk i).typ == 0 && (List.range NINODE_CACHE).all fun k => !(s.slots k).isFor ROOTDEV i
    | _ => true
  | _ => true

theorem inv_move (hInv : Inv s) (hClaim : ∀ f i, s.tasks t = .claim f i →
      (s.disk i).typ = 0 ∧ ∀ k, ¬ s.LiveFor k i) (hMove : Move s t s') : Inv s' := by
  cases hMove with
  | phase hTask hArc hLock hLock' hClaims => exact hInv.phase hTask hArc hLock hLock' hClaims
  | claim hTask =>
    rcases hClaim _ _ hTask with ⟨hFree, hNone⟩
    exact hInv.claim hTask hFree hNone (.claim hTask) rfl rfl rfl rfl
  | iget hTask hWhy hGet => exact hInv.iget hTask (.iget hTask hWhy hGet) hWhy rfl hGet rfl rfl
  | lock hTask hFree hNext => exact hInv.lock hTask hFree hNext
  | load hTask hTyp => exact hInv.load hTask hTyp
  | decide hTask hWhat => exact hInv.decide hTask hWhat
  | micro hTask => exact hInv.micro hTask
  | unlock hTask hNext => exact hInv.unlock hTask hNext
  | dirlink hTask => exact hInv.dirlink hTask
  | drop hTask => exact hInv.drop hTask (.drop hTask) rfl rfl rfl rfl

/- A task about to claim does nothing else. -/
theorem claimOk_of_step {act : Act} {f : NewFile} (hArcs : Arcs s)
    (hOk : s.claimOk act = true) (hStep : s.step act = some s')
    (hTask : s.tasks act.task = .claim f i) : (s.disk i).typ = 0 ∧ ∀ k, ¬ s.LiveFor k i := by
  cases act with
  | claim t now =>
    simp only [Act.task] at hTask
    simp only [Sys.claimOk, hTask, Bool.and_eq_true, beq_iff_eq, List.all_eq_true, List.mem_range,
      Bool.not_eq_true'] at hOk
    refine ⟨hOk.1, ?_⟩
    intro k hk
    have hFor := (hArcs.isFor_iff hk.1).mpr hk
    grind [hOk.2 k hk.1]
  | _ =>
    simp only [Act.task] at hTask
    simp [Sys.step, hTask] at hStep

theorem inv_step {act : Act} (hInv : Inv s) (hOk : s.claimOk act = true)
    (hStep : s.step act = some s') : Inv s' := by
  refine inv_move hInv ?_ (move_of_step hStep)
  intro f i hTask
  exact claimOk_of_step hInv.arcs hOk hStep hTask

/- A file system that has just been mounted: nothing is cached, and every inode counts its names. -/
structure Mounted (s : Sys) : Prop where
  slots : ∀ k, k < NINODE_CACHE → (s.slots k).strong = 1
  tasks : ∀ t, s.tasks t = .idle
  backs : ∀ i, Backs (s.disk i) (s.links i)

theorem Mounted.inv (hMounted : Mounted s) : Inv s := by
  have hNone : ∀ k i, ¬ s.LiveFor k i := by
    rintro k i ⟨hk, hLive, -⟩
    rw [hMounted.slots k hk] at hLive
    exact lt_irrefl 1 hLive
  have hIdle := hMounted.tasks
  refine ⟨⟨?_, ?_, ?_⟩, ⟨?_, ?_⟩, ?_, ?_, ?_⟩
  · simp [hIdle, Phase.arc]
  · intro k hk
    rw [hMounted.slots k hk]
    exact ⟨le_rfl, Tally.zero (by simp [hIdle, Phase.arcs, Phase.arc])⟩
  · intro j k hj _ hLive
    rw [hMounted.slots j hj] at hLive
    exact absurd hLive (lt_irrefl 1)
  · simp [hIdle, Phase.lock]
  · simp [hIdle, Phase.lock]
  · simp [hIdle, Sys.Knows]
  · intro k i hLive
    exact absurd hLive (hNone k i)
  · intro i
    have hNames : s.Names i (s.links i) :=
      ⟨0, Tally.zero (by simp [hIdle, Phase.pend, Phase.claims]), rfl⟩
    exact ⟨s.links i, hNames, fun k hk => absurd hk (hNone k i),
      fun _ => hMounted.backs i, (hMounted.backs i).2⟩

/-
  What recycling guarantees between any two actions.

  `same_inode`: tasks that hold `Arc`s for the same inode hold
  the same cached inode.

  `fresh`: a creating task that has locked the inode `ialloc`
  returned finds in memory what `ialloc` wrote.

  `named`: no directory entry, and none that is about to be
  made for a new file, names an inode of type 0 on disk.
-/
structure Recycled (s : Sys) : Prop where
  same_inode : ∀ t u j k, (s.tasks t).arc = some j → (s.tasks u).arc = some k →
      (s.slots j).dev = (s.slots k).dev → (s.slots j).inum = (s.slots k).inum → j = k
  fresh : ∀ t k f d, s.tasks t = .locked k (.create f d) → (s.slots k).state = d ∧
      (s.slots k).state.typ = f.typ ∧ (s.slots k).state.mode = f.mode ∧ (s.slots k).state.size = 0 ∧
      (s.slots k).state.addrs = Addrs.zero
  named : ∀ i, s.links i ≠ 0 → (s.disk i).typ ≠ 0
  linking : ∀ t k, s.tasks t = .link k → (s.disk (s.slots k).inum).typ ≠ 0

/- In every run in which inodes are claimed only while they are free and nobody holds them. -/
theorem recycled_of_reach {s₀ s : Sys} (hMounted : Mounted s₀) (hReach : Reach Sys.step
      (fun m act => m.claimOk act) s₀ s) : Recycled s := by
  have hInv := hReach.invariant (fun _ _ _ hm hOk hStep => inv_step hm hOk hStep) hMounted.inv
  refine ⟨?_, ?_, ?_, ?_⟩
  · intro t u j k hj hk _ hInum
    exact hInv.arcs.same_slot hj hk hInum
  · intro t k f d hTask
    have hKnows := hInv.knows t
    rw [hTask] at hKnows
    rcases hKnows with ⟨⟨now, hFresh⟩, -, -, hState⟩
    rw [hState]
    refine ⟨rfl, ?_⟩
    rw [hFresh]
    exact ⟨rfl, rfl, rfl, rfl⟩
  · intro i hLinks
    rcases hInv.backed i with ⟨n, ⟨p, -, hSum⟩, hBacked⟩
    exact hBacked.typ (by omega)
  · intro t k hTask
    rcases hInv.backed (s.slots k).inum with ⟨n, hNames, hBacked⟩
    have hClaim := hNames.claim_le (t := t) (by rw [hTask]; rfl)
    exact hBacked.typ (by omega)

/- One file with one name, in inode 1. -/
def oneFile : Sys :=
  { emptySys with
    disk := update emptySys.disk 1 (freshDinode plainFile 5)
    links := update emptySys.links 1 1 }

theorem oneFile_mounted : Mounted oneFile := by
  refine ⟨fun _ _ => rfl, fun _ => rfl, ?_⟩
  intro i
  by_cases hi : i = 1
  · subst hi
    exact backs_freshDinode plainFile 5
  · have hDisk : oneFile.disk i = DInode.default := by simp [oneFile, emptySys, hi]
    have hLinks : oneFile.links i = 0 := by simp [oneFile, emptySys, hi]
    rw [hDisk, hLinks]
    exact ⟨fun hTyp => absurd rfl hTyp, fun hPos => absurd hPos (lt_irrefl 0)⟩

def unlinkFile : List Act :=
  [.unlink 0 1, .lock 0, .load 0, .remove 0 6, .micro 0,
    .micro 0, .micro 0, .micro 0, .unlock 0, .drop 0]

/- The inode number is used again by the next file. -/
theorem recycled_of_reach_unlinkFile : ∃ s d, run Sys.step (fun m act => m.claimOk act)
        oneFile (unlinkFile ++ [.create 1 plainFile, .test 1,
          .claim 1 7, .iget 1, .lock 1, .load 1]) = some s ∧
      s.tasks 1 = .locked 0 (.create plainFile d) ∧ Recycled s := by
  have hRun : ∃ s d, run Sys.step (fun m act => m.claimOk act) oneFile
        (unlinkFile ++ [.create 1 plainFile, .test 1,
          .claim 1 7, .iget 1, .lock 1, .load 1]) = some s ∧
      s.tasks 1 = .locked 0 (.create plainFile d) := ⟨_, _, rfl, rfl⟩
  rcases hRun with ⟨s, d, hRun, hTask⟩
  exact ⟨s, d, hRun, hTask, recycled_of_reach oneFile_mounted (reach_of_run hRun)⟩

/-
  The file is unlinked, but the unlinking task has not let go
  of it yet.  The next file is created in the same inode: its
  creator locks the old inode, of type 0, writes that back and
  enters it into the directory.
-/
theorem recycled_stale : ∃ m s d, Reach Sys.step (fun _ _ => True) oneFile m ∧
      m.tasks 1 = .locked 0 (.create plainFile d) ∧ (m.slots 0).state.typ ≠ d.typ ∧
      Reach Sys.step (fun _ _ => True) m s ∧ s.links 1 ≠ 0 ∧ (s.disk 1).typ = 0 := by
  have hFirst : ∃ m d, run Sys.step (fun _ _ => True) oneFile
        [.unlink 0 1, .lock 0, .load 0, .remove 0 6, .micro 0, .micro 0, .micro 0, .micro 0,
          .create 1 plainFile, .test 1, .claim 1 7, .iget 1, .unlock 0, .lock 1] = some m ∧
      m.tasks 1 = .locked 0 (.create plainFile d) ∧ (m.slots 0).state.typ ≠ d.typ ∧
      ∃ s, run Sys.step (fun _ _ => True) m [.fill 1 [], .micro 1, .micro 1, .unlock 1,
            .dirlink 1] = some s ∧ s.links 1 ≠ 0 ∧ (s.disk 1).typ = 0 :=
    ⟨_, _, rfl, rfl, by decide, _, rfl, by decide, rfl⟩
  rcases hFirst with ⟨m, d, hRun, hTask, hStale, s, hRest, hLinks, hTyp⟩
  exact ⟨m, s, d, reach_of_run hRun, hTask, hStale, reach_of_run hRest, hLinks, hTyp⟩

end Icache

end PlayXv6
