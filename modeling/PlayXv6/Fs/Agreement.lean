import PlayXv6.Fs.DataRefine
import PlayXv6.Fs.Frame
import PlayXv6.Sys.Names

/-
  Memory and buffers agree about an inode.

  An inode is changed in memory under its lock and flushed to
  its block before the lock is released; only the access time
  is kept in memory alone.  Between the operations the two
  copies are therefore the same, and an inode that leaves the
  cache comes back as it was.  The exception is a write that
  runs out of blocks below a new indirect block.

  Main declarations:
    * `InodeOp`, `InodeOp.prog`
    * `Synced.op`, `agrees_at_unlocks`
-/

namespace PlayXv6

open Function

def setMode (i : Nat) (mode : UInt16) : FsProg Unit := do
  let s ← call (.getState i)
  let now ← call .now
  call (.setState i { s with mode := mode, ctime := now })
  iupdate i

/- The change of `chown`; `0xFFFF` leaves an owner alone. -/
def setOwner (i : Nat) (uid gid : UInt16) : FsProg Unit := do
  let now ← call .now
  let s ← call (.getState i)
  call (.setState i
    { s with
      uid := if uid ≠ 0xFFFF then uid else s.uid
      gid := if gid ≠ 0xFFFF then gid else s.gid
      ctime := now })
  iupdate i

/- The change of a replaced target of `rename`. -/
def subLinkSaturating (i : Nat) : FsProg Unit := do
  let s ← call (.getState i)
  call (.setState i
    { s with
      nlink := if s.nlink = 0 then 0 else s.nlink - 1 })
  iupdate i

/- The change of an inode whose entry `unlink` has removed; the last reference frees it. -/
def unlinkChild (sb : Superblock) (i : Nat) (last : Bool) : FsProg Unit := do
  let c ← call (.getState i)
  call (.setState i { c with nlink := c.nlink - 1 })
  if last then
    ifree sb i
  else
    iupdate i

/- What the kernel does with a locked inode. -/
inductive InodeOp where
  | readi (len off : Nat)
  | writei (src : List UInt8) (off : Nat)
  | itruncTo (newSize : Nat)
  | addLink
  | subLink
  | subLinkSaturating
  | unlinkChild (last : Bool)
  | setMode (mode : UInt16)
  | setOwner (uid gid : UInt16)
  | initChild (major minor uid gid : UInt16)
  | ifree

def InodeOp.prog (sb : Superblock) (i : Nat) : InodeOp → FsProg Unit
  | readi len off => do
      let _ ← PlayXv6.readi i len off
      pure ()
  | writei src off => do
      let _ ← PlayXv6.writei sb i src off
      pure ()
  | itruncTo newSize => PlayXv6.itruncTo sb i newSize
  | addLink => PlayXv6.addLink i
  | subLink => PlayXv6.subLink i
  | subLinkSaturating => PlayXv6.subLinkSaturating i
  | unlinkChild last => PlayXv6.unlinkChild sb i last
  | setMode mode => PlayXv6.setMode i mode
  | setOwner uid gid => PlayXv6.setOwner i uid gid
  | initChild major minor uid gid =>
    PlayXv6.initChild i major minor uid gid
  | ifree => PlayXv6.ifree sb i

/-
  What happens to the inodes: references come and go, and an
  inode is locked, worked on and unlocked.
-/
inductive Visit where
  | iget (i : Nat)
  | iput (i : Nat)
  | locked (i : Nat) (ops : List InodeOp)

def Visit.inum : Visit → Nat
  | iget i => i
  | iput i => i
  | locked i _ => i

def Visit.prog (sb : Superblock) : Visit → FsProg Unit
  | iget i => call (.iget i)
  | iput i => call (.iput i)
  | locked i ops => do
      ilock i
      Prog.forEach ops (InodeOp.prog sb i)
      iunlock i

def visits (sb : Superblock) (vs : List Visit) : FsProg Unit :=
  Prog.forEach vs (Visit.prog sb)

-- Agreement

/- The two inodes differ in the access time at most. -/
def SameButAtime (d d' : DInode) : Prop := { d with atime := d'.atime } = d'

def Agrees (sb : Superblock) (s : Fs) (i : Nat) : Prop := SameButAtime (s.state i) (s.dinode sb i)

/-
  Whenever a lock is released the copies agree, and loading
  the inode again would change the access time only.
-/
def AgreesAtUnlock (sb : Superblock) {β : Type} : Fs → Cmd β → Prop
  | s, .unlock i =>
    Agrees sb s i ∧ ∀ s', (loadFromDisk i).run (exec sb) s = .ok () s' →
        SameButAtime (s.state i) (s'.state i)
  | _, _ => True

/-
  A write does not run out of blocks below an indirect block
  that it has to add for its first byte: the slot is in use,
  or no block is free, or there are enough for the whole way.
-/
def WriteFits (sb : Superblock) (s : Fs) (i off len : Nat) : Prop :=
  0 < len → off < MAXFILE * BSIZE → (s.state i).addrs.get (slotOf (off / BSIZE)) = 0 →
      (s.freeSet sb).card = 0 ∨ (path (off / BSIZE)).length ≤ (s.freeSet sb).card

instance (sb : Superblock) (s : Fs) (i off len : Nat) : Decidable (WriteFits sb s i off len) :=
  inferInstanceAs (Decidable (0 < len → off < MAXFILE * BSIZE →
      (s.state i).addrs.get (slotOf (off / BSIZE)) = 0 → (s.freeSet sb).card = 0 ∨
          (path (off / BSIZE)).length ≤ (s.freeSet sb).card))

def WritesFit (sb : Superblock) {β : Type} : Fs → Cmd β → Prop
  | s, .mark (.writei i off len) => WriteFits sb s i off len
  | _, _ => True

/-
  What a task would see of inode `i` if it locked it: the
  copy in memory if there is one, else the stored inode.
-/
def locOf (sb : Superblock) (s : Fs) (own : Nat → Option Nat) (i : Nat) : ILoc where
  st := if s.valid i then s.state i else s.dinode sb i
  dino := s.dinode sb i
  heap := heapOf s own i
  free := some (s.freeSet sb)
  trunc := s.truncating i

/- Every inode has a sound tree of its own blocks. -/
structure Consistent (sb : Superblock) (s : Fs) (own : Nat → Option Nat) : Prop where
  owns : Owns sb s own
  sound : ∀ i, i < sb.ninodes → (locOf sb s own i).Sound sb

/- And every copy in memory agrees with the stored inode. -/
structure Synced (sb : Superblock) (s : Fs) (own : Nat → Option Nat) : Prop
    extends Consistent sb s own where
  agree : ∀ i, i < sb.ninodes → s.valid i = true → Agrees sb s i

variable {sb : Superblock} {s s' : Fs} {own own' : Nat → Option Nat} {i : Nat} {v : ILoc}

theorem SameButAtime.refl (d : DInode) : SameButAtime d d := rfl

/- Everything but the access time is read back. -/
theorem SameButAtime.addrs {d d' : DInode} (hSame : SameButAtime d d') : d'.addrs = d.addrs := by
  unfold SameButAtime at hSame
  rw [← hSame]

theorem loadFromDisk_run (hRun : (loadFromDisk i).run (exec sb) s = .ok () s') :
    s' = { s with
      state := update s.state i (s.dinode sb i) } := by
  rcases Prog.run_bind_ok hRun with ⟨d, m, hRead, hRun⟩
  cases hRead
  rcases Prog.run_bind_ok hRun with ⟨_, m, hSet, hRun⟩
  cases hSet
  split at hRun
  · cases hRun
  · cases hRun
    rfl

theorem Agrees.atUnlock (hAgrees : Agrees sb s i) : AgreesAtUnlock sb s (.unlock i) := by
  refine ⟨hAgrees, ?_⟩
  intro s' hRun
  rw [loadFromDisk_run hRun]
  dsimp only
  rw [update_self]
  exact hAgrees

theorem viewOf_of_valid (hValid : s.valid i = true) : View sb s own i (locOf sb s own i) where
  st := by simp [locOf, hValid]
  dino := Or.inl rfl
  heap := rfl
  free := fun F hF => (Option.some.inj hF).symm
  trunc := rfl

theorem Owns.free_loc (hOwns : Owns sb s own) (j : Nat) : ∀ F, (locOf sb s own j).free = some F →
      ∀ b ∈ F, (locOf sb s own j).heap b = none ∧ b < sb.size := by
  intro F hF b hMem
  obtain rfl := Option.some.inj hF
  rw [Fs.mem_freeSet] at hMem
  refine ⟨?_, hMem.1⟩
  by_contra hOwn
  have hSet : s.bit sb b = true := by
    refine hOwns.set b j ?_
    by_contra hNot
    exact hOwn (if_neg hNot)
  rw [hMem.2] at hSet
  simp at hSet

structure SyncedBut (sb : Superblock) (s : Fs) (own : Nat → Option Nat) (i : Nat) : Prop
    extends Consistent sb s own where
  valid : s.valid i = true
  other : ∀ j, j < sb.ninodes → j ≠ i → s.valid j = true → Agrees sb s j

theorem Synced.but (hSync : Synced sb s own) (hValid : s.valid i = true) : SyncedBut sb s own i :=
  ⟨hSync.toConsistent, hValid, fun j hj _ hLoaded => hSync.agree j hj hLoaded⟩

theorem SyncedBut.synced (hBut : SyncedBut sb s own i) (hAgrees : Agrees sb s i) :
    Synced sb s own := by
  refine ⟨hBut.toConsistent, ?_⟩
  intro j hj hLoaded
  by_cases hEq : j = i
  · exact hEq ▸ hAgrees
  · exact hBut.other j hj hEq hLoaded

/- What an inode with a sound tree does leaves the others alone. -/
theorem SyncedBut.advance (hOld : SyncedBut sb s own i) (hAdv : Advances sb i s own s' own' v)
    (hExact : v.dino = s'.dinode sb i) (hSound : v.Sound sb) : SyncedBut sb s' own' i := by
  have hSame : s'.valid = s.valid := by rw [hAdv.frame.rest]
  refine ⟨⟨hAdv.owns, ?_⟩, hSame ▸ hOld.valid, ?_⟩
  · intro j hj
    by_cases hEq : j = i
    · subst j
      have hSt : (locOf sb s' own' i).st = v.st := by simp [locOf, hSame, hOld.valid, hAdv.view.st]
      have hHeap : (locOf sb s' own' i).heap = v.heap := hAdv.view.heap.symm
      have hDino : (locOf sb s' own' i).dino = v.dino := hExact.symm
      refine ⟨?_, ?_, ?_, hAdv.owns.free_loc i⟩
      · exact hAdv.view.trunc.symm.trans hSound.trunc
      · rw [hSt, hHeap]
        exact hSound.tree
      · rw [hSt, hDino]
        exact hSound.below
    · have hLoc := hOld.sound j hj
      have hDino : (locOf sb s' own' j).dino = (locOf sb s own j).dino := hAdv.frame.dinode j hEq hj
      have hSt : (locOf sb s' own' j).st = (locOf sb s own j).st := by
        simp only [locOf, hSame, hAdv.frame.dinode j hEq hj, hAdv.frame.state j hEq]
      have hHeap : (locOf sb s' own' j).heap = (locOf sb s own j).heap := hAdv.frame.heap j hEq
      refine ⟨?_, ?_, ?_, hAdv.owns.free_loc j⟩
      · exact (hAdv.frame.trunc j hEq).trans hLoc.trunc
      · rw [hSt, hHeap]
        exact hLoc.tree
      · rw [hSt, hDino]
        exact hLoc.below
  · intro j hj hEq hLoaded
    have hAgrees := hOld.other j hj hEq (hSame ▸ hLoaded)
    unfold Agrees at hAgrees ⊢
    rw [hAdv.frame.state j hEq, hAdv.frame.dinode j hEq hj]
    exact hAgrees

/- Agreement determines the trees, so that only the blocks and the copies in memory matter. -/
theorem Synced.congr (hOld : Synced sb s own) (hBlocks : s'.blocks = s.blocks)
    (hTrunc : s'.truncating = s.truncating) (hAgree : ∀ j, j < sb.ninodes → s'.valid j = true →
      Agrees sb s' j) : Synced sb s' own := by
  have hAddrs : ∀ m : Fs, (∀ j, j < sb.ninodes → m.valid j = true → Agrees sb m j) →
      ∀ j, j < sb.ninodes → (locOf sb m own j).st.addrs = (m.dinode sb j).addrs := by
    intro m hAll j hj
    cases hLoaded : m.valid j with
    | true =>
      simp only [locOf, hLoaded, if_true]
      exact (hAll j hj hLoaded).addrs.symm
    | false => simp [locOf, hLoaded]
  have hDino : ∀ j, s'.dinode sb j = s.dinode sb j := by
    intro j
    unfold Fs.dinode
    rw [hBlocks]
  have hHeap : ∀ j, (locOf sb s' own j).heap = (locOf sb s own j).heap := by
    intro j
    unfold locOf heapOf
    rw [hBlocks]
  have hBit : ∀ b, s'.bit sb b = s.bit sb b := by
    intro b
    unfold Fs.bit
    rw [hBlocks]
  have hOwns : Owns sb s' own := by
    refine ⟨hOld.owns.data, ?_, ?_⟩
    · intro b j hOwn
      rw [hBit]
      exact hOld.owns.set b j hOwn
    · intro b hb
      rw [hBit]
      exact hOld.owns.metadata b hb
  refine ⟨⟨hOwns, ?_⟩, hAgree⟩
  intro j hj
  have hLoc := hOld.sound j hj
  have hSt : (locOf sb s' own j).st.addrs = (locOf sb s own j).st.addrs := by
    rw [hAddrs s' hAgree j hj, hAddrs s hOld.agree j hj, hDino]
  refine ⟨?_, ?_, ?_, hOwns.free_loc j⟩
  · exact (congrFun hTrunc j).trans hLoc.trunc
  · rw [hSt, hHeap]
    exact hLoc.tree
  · rw [hSt]
    have hBelow := hLoc.below
    unfold locOf at hBelow ⊢
    rw [hDino]
    exact hBelow

-- One Operation

/- Run a verified program on the loaded inode. -/
theorem SyncedBut.of_wp (hSb : sb.Ok) (hi : i < sb.ninodes) (hOld : SyncedBut sb s own i) {α : Type}
    {p : FsProg α} {Q : ILoc → Prop} (hWp : (inodeRules sb i).wp p (fun _ v' => v'.Sound sb ∧ Q v')
      (locOf sb s own i)) : ∃ a s' own' v', p.run (exec sb) s = .ok a s' ∧
      SyncedBut sb s' own' i ∧ v'.st = s'.state i ∧ v'.dino = s'.dinode sb i ∧ Q v' := by
  rcases inodeRules_run hSb hi hOld.owns (viewOf_of_valid hOld.valid) hWp with
    ⟨a, s', own', v', hRun, hAdv, hExact, hSound, hPost⟩
  exact ⟨a, s', own', v', hRun, hOld.advance hAdv (hExact rfl) hSound, hAdv.view.st,
    hExact rfl, hPost⟩

theorem SyncedBut.setState (hi : i < sb.ninodes) (hOld : SyncedBut sb s own i) (st : InodeState)
    (hAddrs : st.addrs = (s.state i).addrs) : SyncedBut sb
      { s with state := update s.state i st } own i := by
  have hView : View sb s own i (locOf sb s own i) := viewOf_of_valid hOld.valid
  have hLoc := hOld.sound i hi
  refine hOld.advance (Advances.setState hOld.owns hView st) rfl ?_
  refine ⟨hLoc.trunc, ?_, ?_, hLoc.free⟩
  · have hTree := hLoc.tree
    rw [hView.st] at hTree
    exact hAddrs ▸ hTree
  · have hBelow := hLoc.below
    rw [hView.st] at hBelow
    exact hAddrs ▸ hBelow

theorem SyncedBut.iupdate (hSb : sb.Ok) (hi : i < sb.ninodes) (hOld : SyncedBut sb s own i) :
    ∃ s', (PlayXv6.iupdate i).run (exec sb) s = .ok () s' ∧
      Synced sb s' own ∧ s'.valid i = true := by
  have hView : View sb s own i (locOf sb s own i) := viewOf_of_valid hOld.valid
  have hLoc := hOld.sound i hi
  have hAdv := Advances.writeDinode hSb hi hOld.owns hView (s.state i)
  have hStored : (s.logWrite (iblock sb i) fun blk =>
        blk.splice (ioff i) (s.state i).encode).dinode sb i = s.state i := by
    rw [Fs.dinode_writeDinode, if_pos rfl]
  refine ⟨_, rfl, ?_, hOld.valid⟩
  refine (hOld.advance hAdv hStored.symm ?_).synced ?_
  · refine { hLoc with below := ?_ }
    intro k _
    exact congrArg (fun st : InodeState => st.addrs.get k) hView.st
  · unfold Agrees
    rw [hStored]
    exact SameButAtime.refl _

theorem Synced.change (hSb : sb.Ok) (hi : i < sb.ninodes) (hSync : Synced sb s own)
    (hValid : s.valid i = true) (st : InodeState) (hAddrs : st.addrs = (s.state i).addrs) :
    ∃ s', (do call (.setState i st); PlayXv6.iupdate i : FsProg Unit).run (exec sb) s = .ok () s' ∧
      Synced sb s' own ∧ s'.valid i = true := by
  rcases ((hSync.but hValid).setState hi st hAddrs).iupdate hSb hi with ⟨s', hRun, hNew, hSame⟩
  exact ⟨s', hRun, hNew, hSame⟩

theorem missing_le (v : ILoc) (bn : Nat) : missing v bn ≤ (path bn).length := by
  unfold missing
  induction path bn with
  | nil => simp
  | cons p ps ih =>
    simp only [List.map_cons, List.sum_cons, List.length_cons]
    split <;> omega

/-
  A write that got nowhere has not touched the inode, unless
  it ran out of blocks below a new indirect block.
-/
theorem MapPost.st_eq {v' : ILoc} {bn : Nat} {F : Finset Nat} (hMap : MapPost sb v bn none v')
    (hFree : v.free = some F) (hFits : v.st.addrs.get (slotOf bn) = 0 →
      F.card = 0 ∨ (path bn).length ≤ F.card) : v'.st = v.st := by
  rcases hMap with ⟨n, hLt, hExt, hFull, hSame, hSlots⟩
  rcases hExt.free F hFree with ⟨F', hF', _, hCard⟩
  have hEmpty := hExt.sound.free_eq_empty hFull hF'
  have hCount : n = F.card := by
    rw [hEmpty] at hCard
    simpa using hCard
  have hMost := missing_le v bn
  by_cases hZero : n = 0
  · rw [hSame hZero]
  · have hSlot : v.st.addrs.get (slotOf bn) ≠ 0 := by
      intro hNone
      rcases hFits hNone with hNoBlock | hEnough
      · omega
      · omega
    have hAddrs : v'.st.addrs = v.st.addrs := by
      ext k
      by_cases hk : k = slotOf bn
      · have hKeep := hExt.grows.keep (Place.slot k) (by rw [ptr_slot, hk]; exact hSlot)
        rwa [ptr_slot, ptr_slot] at hKeep
      · exact hSlots k hk
    rw [hExt.st, hAddrs]

theorem Synced.writei (hSb : sb.Ok) (hi : i < sb.ninodes) (hSync : Synced sb s own)
    (hValid : s.valid i = true) {src : List UInt8} {off : Nat}
    (hFits : WriteFits sb s i off src.length) :
    ∃ n s' own', (PlayXv6.writei sb i src off).run (exec sb) s = .ok n s' ∧
      Synced sb s' own' ∧ s'.valid i = true := by
  have hBut := hSync.but hValid
  have hLoc := hSync.sound i hi
  have hSt : (locOf sb s own i).st = s.state i := (viewOf_of_valid hValid).st
  have hAgree : SameButAtime (locOf sb s own i).st (locOf sb s own i).dino := by
    rw [hSt]
    exact hSync.agree i hi hValid
  have hWp : (inodeRules sb i).wp (writeiBody sb i src off)
      (fun _ v' => v'.Sound sb ∧ SameButAtime v'.st v'.dino) (locOf sb s own i) := by
    refine Rules.wp_mono ?_ (wp_writeiBody hSb hLoc)
    intro n v' hPost
    rcases hPost.loop with ⟨v₁, ⟨_, hWritten, hShort, hNone⟩, hZero, hSome⟩
    by_cases hn : n = 0
    · subst hn
      obtain rfl := hZero rfl
      refine ⟨hWritten.sound, ?_⟩
      have hSame : v'.st = (locOf sb s own i).st := by
        by_cases hWant : min src.length (MAXFILE * BSIZE - off) = 0
        · rw [hNone hWant]
        · have hMap := (hShort (by omega)).2.1 rfl
          refine hMap.st_eq rfl ?_
          rw [hSt]
          exact hFits (by omega) (by omega)
      rw [hSame, hWritten.dino]
      exact hAgree
    · rcases hSome (Nat.pos_of_ne_zero hn) with ⟨t, rfl⟩
      refine ⟨?_, SameButAtime.refl _⟩
      exact ⟨hWritten.sound.trunc, hWritten.sound.tree, fun _ _ => rfl, hWritten.sound.free⟩
  rcases hBut.of_wp hSb hi hWp with ⟨n, s', own', v', hRun, hNew, hSt', hDino', hPost⟩
  refine ⟨n, s', own', (DataOp.run_writei sb i src off s).trans hRun, hNew.synced ?_, hNew.valid⟩
  unfold Agrees
  rw [← hSt', ← hDino']
  exact hPost

theorem Synced.readi (hSb : sb.Ok) (hi : i < sb.ninodes) (hSync : Synced sb s own)
    (hValid : s.valid i = true) (len off : Nat) :
    ∃ bs s' own', (PlayXv6.readi i len off).run (exec sb) s = .ok bs s' ∧
      Synced sb s' own' ∧ s'.valid i = true := by
  have hBut := hSync.but hValid
  have hLoc := hSync.sound i hi
  have hAgree : SameButAtime (locOf sb s own i).st (locOf sb s own i).dino := by
    rw [(viewOf_of_valid hValid).st]
    exact hSync.agree i hi hValid
  have hWp : (inodeRules sb i).wp (PlayXv6.readi i len off)
      (fun _ v' => v'.Sound sb ∧ SameButAtime v'.st v'.dino) (locOf sb s own i) := by
    refine Rules.wp_mono ?_ (wp_readi hLoc.ok hLoc.tree len off)
    rintro bs v' ⟨_, t, rfl⟩
    exact ⟨{ hLoc with }, hAgree⟩
  rcases hBut.of_wp hSb hi hWp with ⟨bs, s', own', v', hRun, hNew, hSt', hDino', hPost⟩
  refine ⟨bs, s', own', hRun, hNew.synced ?_, hNew.valid⟩
  unfold Agrees
  rw [← hSt', ← hDino']
  exact hPost

theorem SyncedBut.itruncTo (hSb : sb.Ok) (hi : i < sb.ninodes) (hBut : SyncedBut sb s own i)
    (newSize : Nat) : ∃ s' own', (PlayXv6.itruncTo sb i newSize).run (exec sb) s = .ok () s' ∧
      Synced sb s' own' ∧ s'.valid i = true := by
  have hLoc := hBut.sound i hi
  have hRange : ∀ b, (locOf sb s own i).heap b ≠ none → b < sb.size := by
    intro b hOwn
    exact (hBut.owns.data b i ((viewOf_of_valid hBut.valid).heap_ne_none.mp hOwn)).2
  have hWp : (inodeRules sb i).wp (PlayXv6.itruncTo sb i newSize)
      (fun _ v' => v'.Sound sb ∧ SameButAtime v'.st v'.dino) (locOf sb s own i) := by
    refine Rules.wp_mono ?_ (wp_itruncTo hLoc hRange newSize)
    intro _ v' hPost
    rw [hPost.dino]
    exact ⟨hPost.sound, SameButAtime.refl _⟩
  rcases hBut.of_wp hSb hi hWp with ⟨_, s', own', v', hRun, hNew, hSt', hDino', hPost⟩
  refine ⟨s', own', hRun, hNew.synced ?_, hNew.valid⟩
  unfold Agrees
  rw [← hSt', ← hDino']
  exact hPost

theorem SyncedBut.ifree (hSb : sb.Ok) (hi : i < sb.ninodes) (hBut : SyncedBut sb s own i) :
    ∃ s' own', (PlayXv6.ifree sb i).run (exec sb) s = .ok () s' ∧
      Synced sb s' own' ∧ s'.valid i = true := by
  rcases hBut.itruncTo hSb hi 0 with ⟨m, own', hTrunc, hSync, hValid⟩
  rcases ((hSync.but hValid).setState hi { m.state i with typ := 0 } rfl).iupdate hSb hi
    with ⟨m', hFlush, hNew, hLoaded⟩
  refine ⟨m'.passMark (.freeEnd i), own', ?_, ?_, hLoaded⟩
  · have hEmpty : (itrunc sb i).run (exec sb) (s.passMark (.freeBegin i)) = .ok () m := hTrunc
    unfold PlayXv6.ifree
    rw [Prog.run_then (p := call (.mark (.freeBegin i))) rfl, Prog.run_then hEmpty,
      Prog.run_then (p := call (.getState i)) rfl, Prog.run_then (p := call (.setState i _)) rfl,
      Prog.run_then hFlush]
    rfl
  · exact hNew.congr rfl rfl hNew.agree

def InodeOp.Fits (sb : Superblock) (s : Fs) (i : Nat) : InodeOp → Prop
  | writei src off => WriteFits sb s i off src.length
  | _ => True

theorem Synced.op (hSb : sb.Ok) (hi : i < sb.ninodes) (hSync : Synced sb s own)
    (hValid : s.valid i = true) {op : InodeOp} (hFits : op.Fits sb s i) :
    ∃ s' own', (op.prog sb i).run (exec sb) s = .ok () s' ∧
      Synced sb s' own' ∧ s'.valid i = true := by
  cases op with
  | readi len off =>
    rcases hSync.readi hSb hi hValid len off with ⟨bs, s', own', hRun, hNew⟩
    exact ⟨s', own', Prog.run_then hRun, hNew⟩
  | writei src off =>
    rcases hSync.writei hSb hi hValid hFits with ⟨n, s', own', hRun, hNew⟩
    exact ⟨s', own', Prog.run_then hRun, hNew⟩
  | itruncTo newSize => exact (hSync.but hValid).itruncTo hSb hi newSize
  | addLink =>
    rcases hSync.change hSb hi hValid
      { s.state i with
        nlink := (s.state i).nlink + 1 } rfl with ⟨s', hRun, hNew⟩
    exact ⟨s', own, hRun, hNew⟩
  | subLink =>
    rcases hSync.change hSb hi hValid
      { s.state i with
        nlink := (s.state i).nlink - 1 } rfl with ⟨s', hRun, hNew⟩
    exact ⟨s', own, hRun, hNew⟩
  | subLinkSaturating =>
    rcases hSync.change hSb hi hValid
      { s.state i with
        nlink := if (s.state i).nlink = 0 then 0
          else (s.state i).nlink - 1 } rfl with ⟨s', hRun, hNew⟩
    exact ⟨s', own, hRun, hNew⟩
  | unlinkChild last =>
    have hBut := (hSync.but hValid).setState hi
      { s.state i with
        nlink := (s.state i).nlink - 1 } rfl
    cases last with
    | true =>
      rcases hBut.ifree hSb hi with ⟨s', own', hRun, hNew⟩
      exact ⟨s', own', hRun, hNew⟩
    | false =>
      rcases hBut.iupdate hSb hi with ⟨s', hRun, hNew⟩
      exact ⟨s', own, hRun, hNew⟩
  | setMode mode =>
    rcases hSync.change hSb hi hValid
      { s.state i with
        mode := mode
        ctime := s.clock } rfl with ⟨s', hRun, hNew⟩
    exact ⟨s', own, hRun, hNew⟩
  | setOwner uid gid =>
    rcases hSync.change hSb hi hValid
      { s.state i with
        uid := if uid ≠ 0xFFFF then uid else (s.state i).uid
        gid := if gid ≠ 0xFFFF then gid else (s.state i).gid
        ctime := s.clock } rfl with ⟨s', hRun, hNew⟩
    exact ⟨s', own, hRun, hNew⟩
  | initChild major minor uid gid =>
    rcases hSync.change hSb hi hValid
      { s.state i with
        major := major
        minor := minor
        nlink := 1
        uid := uid
        gid := gid } rfl with ⟨s', hRun, hNew⟩
    exact ⟨s', own, hRun, hNew⟩
  | ifree => exact (hSync.but hValid).ifree hSb hi

-- Whole Runs

theorem InodeOp.prog_inner (op : InodeOp) : (op.prog sb i).All Cmd.Inner := by
  have hFree : (PlayXv6.ifree sb i).All Cmd.Inner := by
    refine .lift_bind trivial fun _ => ?_
    refine (itruncTo_inner sb i 0).bind fun _ => ?_
    refine .lift_bind trivial fun _ => ?_
    refine .lift_bind trivial fun _ => ?_
    exact (iupdate_inner i).bind fun _ => call_inner trivial
  cases op with
  | readi len off => exact (readi_inner i len off).bind fun _ => trivial
  | writei src off => exact (writei_inner sb i src off).bind fun _ => trivial
  | itruncTo newSize => exact itruncTo_inner sb i newSize
  | addLink | subLink | setMode mode | setOwner uid gid =>
    exact .lift_bind trivial fun _ =>
      .lift_bind trivial fun _ =>
        .lift_bind trivial fun _ => iupdate_inner i
  | subLinkSaturating | initChild major minor uid gid =>
    exact .lift_bind trivial fun _ =>
      .lift_bind trivial fun _ => iupdate_inner i
  | unlinkChild last =>
    refine .lift_bind trivial fun _ => ?_
    refine .lift_bind trivial fun _ => ?_
    exact .ite hFree (iupdate_inner i)
  | ifree => exact hFree

def Cmd.NotUnlock {β : Type} : Cmd β → Prop
  | .unlock _ => False
  | _ => True

theorem Cmd.Inner.notUnlock {β : Type} (c : Cmd β) (hInner : c.Inner) :
    c.NotUnlock := by cases c <;> trivial

theorem Cmd.NotUnlock.agrees {β : Type} (m : Fs) (c : Cmd β) (hNot : c.NotUnlock) :
    AgreesAtUnlock sb m c := by cases c <;> trivial

/- A write is announced before anything else is done. -/
theorem InodeOp.fits_of_along {op : InodeOp} (hAlong : (op.prog sb i).Along (exec sb)
      (WritesFit sb) s) : op.Fits sb s i := by
  cases op with
  | writei src off => exact hAlong.1
  | _ => trivial

theorem Synced.ops (hSb : sb.Ok) (hi : i < sb.ninodes) (ops : List InodeOp)
    (hSync : Synced sb s own) (hValid : s.valid i = true)
    (hFit : (Prog.forEach ops (InodeOp.prog sb i)).Along (exec sb) (WritesFit sb) s)
    (hRun : (Prog.forEach ops (InodeOp.prog sb i)).run (exec sb) s = .ok () s') :
    ∃ own', Synced sb s' own' ∧ s'.valid i = true := by
  induction ops generalizing s own with
  | nil =>
    cases hRun
    exact ⟨own, hSync, hValid⟩
  | cons op ops ih =>
    rw [Prog.forEach_cons] at hFit hRun
    rcases Prog.along_bind.mp hFit with ⟨hOp, hRest⟩
    rcases Prog.run_bind_ok hRun with ⟨_, m, hFirst, hThen⟩
    rcases hSync.op hSb hi hValid (InodeOp.fits_of_along hOp) with
      ⟨m', own', hFirst', hSync', hValid'⟩
    rw [hFirst'] at hFirst
    cases hFirst
    exact ih hSync' hValid' (hRest () m hFirst') hThen

theorem Synced.ilock (hSync : Synced sb s own)
    (hRun : (PlayXv6.ilock i).run (exec sb) s = .ok () s') :
    Synced sb s' own ∧ s'.valid i = true := by
  rcases Prog.run_bind_ok hRun with ⟨_, m, hLock, hRun⟩
  have hLocked : m = { s with
      locked := update s.locked i true } := by
    simp only [call, Prog.lift, Prog.run_op, exec] at hLock
    split at hLock
    · cases hLock
    · cases hLock
      rfl
  subst m
  have hNew : Synced sb { s with locked := update s.locked i true }
      own := hSync.congr rfl rfl hSync.agree
  rcases Prog.run_bind_ok hRun with ⟨loaded, m, hIs, hRun⟩
  cases hIs
  cases hValid : s.valid i with
  | true =>
    simp only [hValid] at hRun
    cases hRun
    exact ⟨hNew, hValid⟩
  | false =>
    simp only [hValid] at hRun
    rcases Prog.run_bind_ok hRun with ⟨_, m, hLoad, hRun⟩
    cases hRun
    rw [loadFromDisk_run hLoad]
    refine ⟨hNew.congr rfl rfl ?_, update_self ..⟩
    intro j hj hLoaded
    by_cases hEq : j = i
    · subst j
      unfold Agrees
      dsimp only
      rw [update_self]
      exact SameButAtime.refl _
    · have hOld : s.valid j = true := by simpa [hEq] using hLoaded
      have hAgrees := hSync.agree j hj hOld
      unfold Agrees at hAgrees ⊢
      dsimp only
      rw [update_of_ne hEq]
      exact hAgrees

/- One visit, and what it finds when it unlocks. -/
theorem Synced.visit (hSb : sb.Ok) {visit : Visit} (hi : visit.inum < sb.ninodes)
    (hSync : Synced sb s own) (hFit : (visit.prog sb).Along (exec sb) (WritesFit sb) s) :
    (visit.prog sb).Along (exec sb) (AgreesAtUnlock sb) s ∧
      ∀ s', (visit.prog sb).run (exec sb) s = .ok () s' → ∃ own', Synced sb s' own' := by
  cases visit with
  | iget i =>
    refine ⟨⟨trivial, fun _ _ _ => trivial⟩, ?_⟩
    intro s' hRun
    cases hRun
    refine ⟨own, hSync.congr rfl rfl ?_⟩
    intro j hj hLoaded
    refine hSync.agree j hj ?_
    by_cases hIdle : s.refs i = 0
    · simp only [hIdle, if_true] at hLoaded
      by_cases hEq : j = i
      · simp [hEq] at hLoaded
      · simpa [hEq] using hLoaded
    · simpa [hIdle] using hLoaded
  | iput i =>
    refine ⟨⟨trivial, fun _ _ _ => trivial⟩, ?_⟩
    intro s' hRun
    cases hRun
    exact ⟨own, hSync.congr rfl rfl hSync.agree⟩
  | locked i ops =>
    have hInner : (Prog.forEach ops (InodeOp.prog sb i)).All Cmd.NotUnlock :=
      Prog.All.forEach (fun op => op.prog_inner.mono Cmd.Inner.notUnlock) ops
    have hLockAll : (PlayXv6.ilock i).Along (exec sb) (AgreesAtUnlock sb) s := by
      refine Prog.All.along Cmd.NotUnlock.agrees ?_ s
      refine .lift_bind trivial fun _ => ?_
      refine .lift_bind trivial fun loaded => ?_
      refine .ite ?_ trivial
      refine .bind ?_ fun _ => ⟨trivial, fun _ => trivial⟩
      refine .lift_bind trivial fun d => ?_
      refine .lift_bind trivial fun _ => ?_
      exact .ite ⟨trivial, fun _ => trivial⟩ trivial
    rcases Prog.along_bind.mp hFit with ⟨_, hFitOps⟩
    refine ⟨Prog.along_bind.mpr ⟨hLockAll, ?_⟩, ?_⟩
    · intro _ m hLock
      rcases hSync.ilock hLock with ⟨hLocked, hValid⟩
      rcases Prog.along_bind.mp (hFitOps () m hLock) with ⟨hFitOps', _⟩
      refine Prog.along_bind.mpr ⟨hInner.along Cmd.NotUnlock.agrees m, ?_⟩
      intro _ m' hOps
      rcases hLocked.ops hSb hi ops hValid hFitOps' hOps with ⟨own', hNew, hStill⟩
      exact ⟨(hNew.agree i hi hStill).atUnlock, fun _ _ _ => trivial⟩
    · intro s' hRun
      rcases Prog.run_bind_ok hRun with ⟨_, m, hLock, hRun⟩
      rcases hSync.ilock hLock with ⟨hLocked, hValid⟩
      rcases Prog.along_bind.mp (hFitOps () m hLock) with ⟨hFitOps', _⟩
      rcases Prog.run_bind_ok hRun with ⟨_, m', hOps, hRun⟩
      rcases hLocked.ops hSb hi ops hValid hFitOps' hOps with ⟨own', hNew, hStill⟩
      cases hRun
      exact ⟨own', hNew.congr rfl rfl hNew.agree⟩

/- In every sequence of visits whose writes fit, every lock is released with copies that agree. -/
theorem agrees_at_unlocks (sb : Superblock) (hSb : sb.Ok) (s : Fs) (own : Nat → Option Nat)
    (hSync : Synced sb s own) (vs : List Visit) (hRange : ∀ v ∈ vs, v.inum < sb.ninodes)
    (hFit : (visits sb vs).Along (exec sb) (WritesFit sb) s) :
    (visits sb vs).Along (exec sb) (AgreesAtUnlock sb) s := by
  induction vs generalizing s own with
  | nil => trivial
  | cons v vs ih =>
    unfold visits at hFit ⊢
    rw [Prog.forEach_cons] at hFit ⊢
    rcases Prog.along_bind.mp hFit with ⟨hFirst, hRest⟩
    rcases hSync.visit hSb (hRange v List.mem_cons_self) hFirst with ⟨hAgree, hNext⟩
    refine Prog.along_bind.mpr ⟨hAgree, ?_⟩
    intro _ m hRun
    rcases hNext m hRun with ⟨own', hSync'⟩
    exact ih m own' hSync' (fun w hw => hRange w (List.mem_cons_of_mem v hw)) (hRest () m hRun)

-- A Small Disk

/- An empty file with inode 1; `map` is the first bitmap byte. -/
def emptyFile (map : UInt8) : Fs :=
  Fs.boot fun b => if b = 2 then Bytes.zero.splice 128
      { DInode.default with typ := T_FILE, nlink := 1 }.encode
    else if b = 3 then Bytes.zero.splice 0 [map]
    else Bytes.zero

theorem emptyFile_synced (map : UInt8) (hMap : map = 15 ∨ map = 127) :
    Synced smallDisk (emptyFile map) fun _ => none := by
  have hOwns : Owns smallDisk (emptyFile map) fun _ => none := by
    refine ⟨fun b i hOwn => ?_, fun b i hOwn => ?_, ?_⟩
    · simp at hOwn
    · simp at hOwn
    · intro b hb
      have hLt : b < 4 := hb
      rcases hMap with rfl | rfl <;> interval_cases b <;> decide +kernel
  refine ⟨⟨hOwns, ?_⟩, ?_⟩
  · intro i hi
    have hLt : i < 4 := hi
    have hAddrs : (locOf smallDisk (emptyFile map) (fun _ => none) i).st.addrs = Addrs.zero := by
      have hSlots : ∀ j : Fin 4, ∀ k : Fin 14, ((emptyFile map).dinode smallDisk j).addrs.get k =
            0 := by rcases hMap with rfl | rfl <;> decide +kernel
      ext k hk
      rw [Addrs.get_zero]
      exact hSlots ⟨i, hLt⟩ ⟨k, hk⟩
    refine ⟨rfl, ?_, ?_, hOwns.free_loc i⟩
    · rw [hAddrs]
      exact Tree.empty _
    · exact fun _ _ => rfl
  · intro i _ hLoaded
    exact absurd hLoaded (by simp [emptyFile, Fs.boot])

/- Write, change the mode, drop the inode and read it again. -/
def emptyFileVisits : List Visit :=
  [.iget 1, .locked 1 [.writei [7, 8, 9] 0, .setMode 0o600],
    .iput 1, .iget 1, .locked 1 [.readi 3 0]]

def writesFit (sb : Superblock) {β : Type} : Fs → Cmd β → Bool
  | s, .mark (.writei i off len) => decide (WriteFits sb s i off len)
  | _, _ => true

theorem writesFit_iff {sb : Superblock} {β : Type} (s : Fs) (c : Cmd β) :
    writesFit sb s c = true ↔ WritesFit sb s c := by
  cases c
  case mark m => cases m <;> simp [writesFit, WritesFit]
  all_goals simp [writesFit, WritesFit]

theorem agrees_at_unlocks_emptyFile : (visits smallDisk emptyFileVisits).Along (exec smallDisk)
      (AgreesAtUnlock smallDisk) (emptyFile 15) := by
  have hCheck : (visits smallDisk emptyFileVisits).checkAlong (exec smallDisk) (writesFit smallDisk)
      (emptyFile 15) = true := by decide +kernel
  have hFit : (visits smallDisk emptyFileVisits).Along (exec smallDisk) (WritesFit smallDisk)
      (emptyFile 15) := (Prog.checkAlong_iff.mp hCheck).mono fun s c => (writesFit_iff s c).mp
  exact agrees_at_unlocks smallDisk ⟨by decide, by decide, by decide, by decide, by decide⟩
    (emptyFile 15) (fun _ => none) (emptyFile_synced 15 (Or.inl rfl)) emptyFileVisits
    (by simp [emptyFileVisits, Visit.inum, smallDisk]) hFit

def slotAgrees (sb : Superblock) {β : Type} : Fs → Cmd β → Bool
  | s, .unlock i =>
    (s.state i).addrs.get NDIRECT = (s.dinode sb i).addrs.get NDIRECT
  | _, _ => true

/-
  With one free block left, a write behind the direct blocks
  takes it for an indirect block, writes nothing and forgets
  the block in memory.
-/
theorem disagrees_at_unlock : Synced smallDisk (emptyFile 127) (fun _ => none) ∧
      ¬ (visits smallDisk [.iget 1, .locked 1 [.writei [7] (NDIRECT * BSIZE)]]).Along
          (exec smallDisk) (AgreesAtUnlock smallDisk) (emptyFile 127) := by
  refine ⟨emptyFile_synced 127 (Or.inr rfl), ?_⟩
  intro hAlong
  have hSlots := Prog.checkAlong_iff.mpr (hAlong.mono (Q := fun s c =>
      slotAgrees smallDisk s c = true) fun s c hAgrees => by
        cases c
        case unlock i =>
          simp only [slotAgrees, decide_eq_true_eq]
          rw [hAgrees.1.addrs]
        all_goals rfl)
  revert hSlots
  decide +kernel

end PlayXv6
