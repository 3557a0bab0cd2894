import PlayXv6.Fs.Path

/-
  What the programs of the file system leave alone.

  Reading a file only looks at blocks and inodes, and nothing
  below the system calls touches the open files.

  Main declarations:
    * `Cmd.Inner`, `Cmd.Plain`
    * `writei_inner`, `dirlink_plain`
-/

namespace PlayXv6

def Cmd.Still {β : Type} : Cmd β → Prop
  | .bread _ => True
  | .readDinode _ => True
  | .isValid _ => True
  | .getState _ => True
  | .now => True
  | _ => False

theorem bmap_still (i bn : Nat) : (bmap i bn).All Cmd.Still := by
  refine .lift_bind trivial fun s => ?_
  split
  · trivial
  · split
    · dsimp only
      split
      · trivial
      · exact .lift_bind trivial fun _ => trivial
    · split
      · trivial
      · dsimp only
        split
        · trivial
        · refine .lift_bind trivial fun buf => ?_
          split
          · trivial
          · exact .lift_bind trivial fun _ => trivial

theorem readiLoop_still (i limit fuel tot cur : Nat) (acc : List UInt8) :
    (readiLoop i limit fuel tot cur acc).All Cmd.Still := by
  induction fuel generalizing tot cur acc with
  | zero => trivial
  | succ fuel ih =>
    unfold readiLoop
    split
    · refine .bind (bmap_still _ _) fun blkno => ?_
      dsimp only
      split
      · exact ih _ _ _
      · exact .lift_bind trivial fun _ => ih _ _ _
    · trivial

/- The command neither touches the open files nor announces the truncation that `open` does. -/
def Cmd.Plain {β : Type} : Cmd β → Prop
  | .newFile _ => False
  | .dropFile _ => False
  | .getFd _ => False
  | .fillFd _ _ => False
  | .takeFd _ => False
  | .setOff _ _ => False
  | .mark (.truncOpen _) => False
  | _ => True

/-
  The command is one that an operation on a locked inode
  uses: it works on blocks and the state of inodes.
-/
def Cmd.Inner {β : Type} : Cmd β → Prop
  | .bread _ => True
  | .logWrite _ _ => True
  | .claimBit _ _ => True
  | .clearBit _ _ => True
  | .readDinode _ => True
  | .writeDinode _ _ => True
  | .isValid _ => True
  | .getState _ => True
  | .setState _ _ => True
  | .now => True
  | .mark (.truncOpen _) => False
  | .mark _ => True
  | .fail _ => True
  | _ => False

theorem Cmd.Still.inner {β : Type} (c : Cmd β) (hStill : c.Still) :
    c.Inner := by cases c <;> trivial

theorem Cmd.Inner.plain {β : Type} (c : Cmd β) (hInner : c.Inner) :
    c.Plain := by
  cases c
  case mark k => cases k <;> trivial
  all_goals trivial

structure Fs.SameFiles (s s' : Fs) : Prop where
  files : s'.files = s.files
  next : s'.nextFile = s.nextFile
  fds : s'.fds = s.fds

theorem Fs.SameFiles.refl (s : Fs) : s.SameFiles s := ⟨rfl, rfl, rfl⟩

theorem Fs.SameFiles.trans {s s' s'' : Fs} (hFirst : s.SameFiles s') (hThen : s'.SameFiles s'') :
    s.SameFiles s'' := ⟨hThen.files.trans hFirst.files, hThen.next.trans hFirst.next,
    hThen.fds.trans hFirst.fds⟩

theorem sameFiles_of_exec {sb : Superblock} {β : Type} (c : Cmd β) (s : Fs) (b : β) (s' : Fs)
    (hPlain : c.Plain) (hExec : exec sb c s = .ok b s') : s.SameFiles s' := by
  cases c
  case mark m =>
    cases m <;> cases hExec <;> exact ⟨rfl, rfl, rfl⟩
  all_goals first
    | exact hPlain.elim
    | cases hExec
      done
    | cases hExec
      exact ⟨rfl, rfl, rfl⟩
    | simp only [exec] at hExec
      split at hExec <;> cases hExec <;>
        exact ⟨rfl, rfl, rfl⟩

theorem sameFiles_of_plain {sb : Superblock} {α : Type} {p : FsProg α} (hPlain : p.All Cmd.Plain)
    {s s' : Fs} {a : α} (hRun : p.run (exec sb) s = .ok a s') : s.SameFiles s' :=
  hPlain.run_invariant (I := fun m => s.SameFiles m) (fun c m b m' hCmd hExec hSame =>
      hSame.trans (sameFiles_of_exec c m b m' hCmd hExec))
    hRun (Fs.SameFiles.refl s)

-- Operations on a Locked Inode

theorem call_inner {β : Type} {c : Cmd β} (hInner : c.Inner) : (call c).All Cmd.Inner :=
  ⟨hInner, fun _ => trivial⟩

theorem bfree_inner (sb : Superblock) (b : Nat) : (bfree sb b).All Cmd.Inner := call_inner trivial

theorem ballocFrom_inner (sb : Superblock) (n b : Nat) : (ballocFrom sb n b).All Cmd.Inner := by
  induction n generalizing b with
  | zero => trivial
  | succ n ih =>
    unfold ballocFrom
    split
    · refine .lift_bind trivial fun found => ?_
      cases found with
      | none => exact ih _
      | some bi => exact .lift_bind trivial fun _ => trivial
    · trivial

theorem iupdate_inner (i : Nat) : (iupdate i).All Cmd.Inner :=
  .lift_bind trivial fun _ => call_inner trivial

theorem slotOrAlloc_inner (sb : Superblock) (i k : Nat) : (slotOrAlloc sb i k).All Cmd.Inner := by
  refine .lift_bind trivial fun s => ?_
  dsimp only
  split
  · trivial
  · refine .bind (ballocFrom_inner _ _ _) fun found => ?_
    cases found with
    | none => trivial
    | some new =>
      refine .lift_bind trivial fun _ => ?_
      exact .lift_bind trivial fun _ => trivial

theorem entryOrAlloc_inner (sb : Superblock) (ind j : Nat) :
    (entryOrAlloc sb ind j).All Cmd.Inner := by
  refine .lift_bind trivial fun buf => ?_
  dsimp only
  split
  · trivial
  · refine .bind (ballocFrom_inner _ _ _) fun found => ?_
    cases found with
    | none => trivial
    | some new => exact .lift_bind trivial fun _ => trivial

/- The rest of `bmapOrAlloc` below a double-indirect block. -/
theorem doubleOrAlloc_inner (sb : Superblock) (outer inner : Nat) (found : Option Nat) :
    (match found with
      | none => pure none
      | some root => do
          match ← entryOrAlloc sb root outer with
          | none => pure none
          | some leaf => entryOrAlloc sb leaf inner :
      FsProg (Option Nat)).All Cmd.Inner := by
  cases found with
  | none => trivial
  | some root =>
    refine (entryOrAlloc_inner _ _ _).bind fun found => ?_
    cases found with
    | none => trivial
    | some leaf => exact entryOrAlloc_inner _ _ _

theorem bmapOrAlloc_inner (sb : Superblock) (i bn : Nat) : (bmapOrAlloc sb i bn).All Cmd.Inner := by
  unfold bmapOrAlloc
  split
  · exact slotOrAlloc_inner _ _ _
  · split
    · refine .bind (slotOrAlloc_inner _ _ _) fun found => ?_
      cases found with
      | none => trivial
      | some ind => exact entryOrAlloc_inner _ _ _
    · dsimp only
      split
      · exact .lift_bind trivial fun _ => (slotOrAlloc_inner _ _ _).bind
            (doubleOrAlloc_inner _ _ _)
      · exact (slotOrAlloc_inner _ _ _).bind (doubleOrAlloc_inner _ _ _)

theorem readi_inner (i len off : Nat) : (readi i len off).All Cmd.Inner := by
  refine .lift_bind trivial fun s => ?_
  dsimp only
  split
  · trivial
  · refine .lift_bind trivial fun now => ?_
    refine .lift_bind trivial fun _ => ?_
    exact Prog.All.mono Cmd.Still.inner (readiLoop_still _ _ _ _ _ _)

theorem writeiLoop_inner (sb : Superblock) (i want : Nat) (src : List UInt8) (fuel tot cur : Nat) :
    (writeiLoop sb i want src fuel tot cur).All
      Cmd.Inner := by
  induction fuel generalizing tot cur with
  | zero => trivial
  | succ fuel ih =>
    unfold writeiLoop
    split
    · refine .bind (bmapOrAlloc_inner _ _ _) fun found => ?_
      cases found with
      | none => trivial
      | some blkno => exact .lift_bind trivial fun _ => ih _ _
    · trivial

theorem writei_inner (sb : Superblock) (i : Nat) (src : List UInt8) (off : Nat) :
    (writei sb i src off).All Cmd.Inner := by
  refine .lift_bind trivial fun _ => ?_
  refine .bind ?_ fun _ =>
    .lift_bind trivial fun _ => trivial
  dsimp only [writeiBody]
  split
  · trivial
  · refine .bind (writeiLoop_inner _ _ _ _ _ _ _) fun tot => ?_
    split
    · refine .lift_bind trivial fun now => ?_
      refine .lift_bind trivial fun s => ?_
      refine .lift_bind trivial fun _ => ?_
      exact .bind (iupdate_inner _) fun _ => trivial
    · trivial

theorem trimEntries_inner (sb : Superblock) (ind lo : Nat) :
    (trimEntries sb ind lo).All Cmd.Inner := by
  refine .lift_bind trivial fun buf => ?_
  refine .lift_bind trivial fun _ => ?_
  exact Prog.All.forEach (bfree_inner sb) _

theorem freeEntries_inner (sb : Superblock) (ind : Nat) : (freeEntries sb ind).All Cmd.Inner := by
  refine Prog.All.forEach (fun j => ?_) _
  refine .lift_bind trivial fun buf => ?_
  dsimp only
  split
  · exact bfree_inner _ _
  · trivial

theorem freeLeaves_inner (sb : Superblock) (leaves : List Nat) :
    (freeLeaves sb leaves).All Cmd.Inner :=
  Prog.All.forEach (fun _ => (freeEntries_inner _ _).bind fun _ => bfree_inner _ _) _

theorem truncDirect_inner (sb : Superblock) (keep : Nat) (ks : List Nat) (a : Addrs) :
    (truncDirect sb keep ks a).All Cmd.Inner := by
  induction ks generalizing a with
  | nil => trivial
  | cons k ks ih =>
    unfold truncDirect
    split
    · exact (bfree_inner _ _).bind fun _ => ih _
    · exact ih _

theorem truncIndirect_inner (sb : Superblock) (keep : Nat) (a : Addrs) :
    (truncIndirect sb keep a).All Cmd.Inner := by
  dsimp only [truncIndirect]
  split
  · trivial
  · split
    · refine (freeEntries_inner _ _).bind fun _ => ?_
      exact (bfree_inner _ _).bind fun _ => trivial
    · split
      · exact (trimEntries_inner _ _ _).bind fun _ => trivial
      · trivial

theorem truncDouble_inner (sb : Superblock) (keep : Nat) (a : Addrs) :
    (truncDouble sb keep a).All Cmd.Inner := by
  dsimp only [truncDouble]
  generalize keep - (NDIRECT + NINDIRECT) = diKeep
  refine .ite ?_ (.ite ?_ ?_)
  · trivial
  · refine .lift_bind trivial fun buf => ?_
    refine (freeLeaves_inner _ _).bind fun _ => ?_
    exact (bfree_inner _ _).bind fun _ => trivial
  · refine .lift_bind trivial fun buf => ?_
    refine .lift_bind trivial fun _ => ?_
    refine (freeLeaves_inner _ _).bind fun _ => ?_
    refine .ite ?_ trivial
    refine .lift_bind trivial fun buf => ?_
    refine .ite ?_ trivial
    exact (trimEntries_inner _ _ _).bind fun _ => trivial

theorem tailBlock_still (a : Addrs) (idx : Nat) : (tailBlock a idx).All Cmd.Still := by
  unfold tailBlock
  split
  · trivial
  · split
    · split
      · trivial
      · exact .lift_bind trivial fun _ => trivial
    · dsimp only
      split
      · trivial
      · refine .lift_bind trivial fun buf => ?_
        split
        · trivial
        · exact .lift_bind trivial fun _ => trivial

theorem zeroTail_inner (a : Addrs) (newSize curSize keep : Nat) :
    (zeroTail a newSize curSize keep).All Cmd.Inner := by
  dsimp only [zeroTail]
  split
  · refine .bind (Prog.All.mono Cmd.Still.inner (tailBlock_still _ _)) fun blkNo => ?_
    split
    · exact call_inner trivial
    · trivial
  · trivial

theorem itruncTo_inner (sb : Superblock) (i newSize : Nat) :
    (itruncTo sb i newSize).All Cmd.Inner := by
  refine .lift_bind trivial fun s => ?_
  refine .lift_bind trivial fun _ => ?_
  refine (truncDirect_inner _ _ _ _).bind fun a => ?_
  refine (truncIndirect_inner _ _ _).bind fun a => ?_
  refine (truncDouble_inner _ _ _).bind fun a => ?_
  refine .lift_bind trivial fun now => ?_
  refine .lift_bind trivial fun s => ?_
  refine .lift_bind trivial fun _ => ?_
  refine (zeroTail_inner _ _ _ _).bind fun _ => ?_
  refine .lift_bind trivial fun s => ?_
  refine .lift_bind trivial fun _ => ?_
  exact (iupdate_inner _).bind fun _ => call_inner trivial

theorem call_plain {β : Type} {c : Cmd β} (hPlain : c.Plain) : (call c).All Cmd.Plain :=
  ⟨hPlain, fun _ => trivial⟩

theorem ilock_plain (i : Nat) : (ilock i).All Cmd.Plain := by
  refine .lift_bind trivial fun _ => ?_
  refine .lift_bind trivial fun valid => ?_
  split
  · refine .bind ?_ fun _ => call_plain trivial
    refine .lift_bind trivial fun dino => ?_
    refine .lift_bind trivial fun _ => ?_
    split
    · exact call_plain trivial
    · trivial
  · trivial

theorem iunlock_plain (i : Nat) : (iunlock i).All Cmd.Plain := call_plain trivial

theorem iallocFrom_plain (typ mode : UInt16) (n inum : Nat) :
    (iallocFrom typ mode n inum).All Cmd.Plain := by
  induction n generalizing inum with
  | zero => trivial
  | succ n ih =>
    unfold iallocFrom
    refine .lift_bind trivial fun now => ?_
    refine .lift_bind trivial fun claimed => ?_
    split
    · exact .lift_bind trivial fun _ => trivial
    · exact ih _

theorem ialloc_plain (sb : Superblock) (typ mode : UInt16) : (ialloc sb typ mode).All Cmd.Plain :=
  iallocFrom_plain _ _ _ _

theorem endOp_plain : endOp.All Cmd.Plain := by
  refine .lift_bind trivial fun last => ?_
  split
  · exact call_plain trivial
  · trivial

theorem readi_plain (i len off : Nat) : (readi i len off).All Cmd.Plain :=
  (readi_inner i len off).mono Cmd.Inner.plain

theorem writei_plain (sb : Superblock) (i : Nat) (src : List UInt8) (off : Nat) :
    (writei sb i src off).All Cmd.Plain := (writei_inner sb i src off).mono Cmd.Inner.plain

theorem itrunc_plain (sb : Superblock) (i : Nat) : (itrunc sb i).All Cmd.Plain :=
  (itruncTo_inner sb i 0).mono Cmd.Inner.plain

theorem iupdate_plain (i : Nat) : (iupdate i).All Cmd.Plain :=
  (iupdate_inner i).mono Cmd.Inner.plain

-- Directories and Paths

theorem scanEntries_plain (dir : Nat) (stop : Dirent → Bool) (size fuel off : Nat) :
    (scanEntries dir stop size fuel off).All Cmd.Plain := by
  induction fuel generalizing off with
  | zero => trivial
  | succ fuel ih =>
    unfold scanEntries
    split
    · refine (readi_plain _ _ _).bind fun bs => ?_
      split
      · trivial
      · dsimp only
        split
        · trivial
        · exact ih _
    · trivial

theorem assertDir_plain (dir : Nat) : (assertDir dir).All Cmd.Plain := by
  refine .lift_bind trivial fun s => ?_
  split
  · exact call_plain trivial
  · trivial

theorem dirlookup_plain (dir : Nat) (name : Name) : (dirlookup dir name).All Cmd.Plain := by
  refine (assertDir_plain _).bind fun _ => ?_
  refine .lift_bind trivial fun s => ?_
  refine (scanEntries_plain _ _ _ _ _).bind fun r => ?_
  cases r with
  | found off e => exact .lift_bind trivial fun _ => trivial
  | finished | short => trivial

theorem dirlookupFull_plain (dir : Nat) (name : Name) : (dirlookupFull dir name).All Cmd.Plain := by
  refine .lift_bind trivial fun s => ?_
  refine (scanEntries_plain _ _ _ _ _).bind fun r => ?_
  cases r with
  | found off e => exact .lift_bind trivial fun _ => trivial
  | finished | short => trivial

theorem dirlinkScan_plain (dir : Nat) (name : Name) (size fuel off : Nat) (freeOff : Option Nat) :
    (dirlinkScan dir name size fuel off freeOff).All
      Cmd.Plain := by
  induction fuel generalizing off freeOff with
  | zero => trivial
  | succ fuel ih =>
    unfold dirlinkScan
    split
    · refine (readi_plain _ _ _).bind fun bs => ?_
      split
      · trivial
      · dsimp only
        split
        · exact ih _ _
        · split
          · trivial
          · exact ih _ _
    · trivial

theorem dirlink_plain (sb : Superblock) (dir : Nat) (name : Name) (inum : UInt16) :
    (dirlink sb dir name inum).All Cmd.Plain := by
  refine (assertDir_plain _).bind fun _ => ?_
  refine .lift_bind trivial fun s => ?_
  refine (dirlinkScan_plain _ _ _ _ _ _).bind fun r => ?_
  cases r with
  | none => trivial
  | some freeOff => exact (writei_plain _ _ _ _).bind fun _ => trivial

theorem readSymlinkBody_plain (ip : Nat) : (readSymlinkBody ip).All Cmd.Plain := by
  refine (ilock_plain _).bind fun _ => ?_
  refine .lift_bind trivial fun s => ?_
  dsimp only
  split
  · exact (iunlock_plain _).bind fun _ => trivial
  · refine (readi_plain _ _ _).bind fun buf => ?_
    refine (iunlock_plain _).bind fun _ => ?_
    split
    · trivial
    · split <;> trivial

/- What is required of the rest of a walk after a link. -/
theorem namexWalk_plain (wantParent followLast : Bool) (follow : Option (Nat → Name →
      FsProg (Option (Nat × Option Name)))) (hFollow : ∀ go, follow = some go → ∀ ip path,
      (go ip path).All Cmd.Plain) (fuel ip : Nat) (path : Name) :
    (namexWalk wantParent followLast follow fuel ip path).All
      Cmd.Plain := by
  induction fuel generalizing ip path with
  | zero => exact .lift_bind trivial fun _ => trivial
  | succ fuel ih =>
    have hGiveUp : ∀ j : Nat, (do call (.iput j); pure none :
          FsProg (Option (Nat × Option Name))).All
            Cmd.Plain := fun j => .lift_bind trivial fun _ => trivial
    dsimp only [namexWalk]
    split
    · split
      · exact hGiveUp ip
      · trivial
    · refine (ilock_plain _).bind fun _ => ?_
      refine .lift_bind trivial fun s => ?_
      split
      · exact (iunlock_plain _).bind fun _ => hGiveUp ip
      · split
        · exact (iunlock_plain _).bind fun _ => trivial
        · refine (dirlookup_plain _ _).bind fun r => ?_
          cases r with
          | none =>
            exact (iunlock_plain _).bind fun _ => hGiveUp ip
          | some next =>
            refine (iunlock_plain _).bind fun _ => ?_
            refine (ilock_plain _).bind fun _ => ?_
            refine .lift_bind trivial fun n => ?_
            refine (iunlock_plain _).bind fun _ => ?_
            split
            · cases follow with
              | none =>
                exact .lift_bind trivial fun _ => hGiveUp ip
              | some go =>
                have hGo := hFollow go rfl
                refine (readSymlinkBody_plain _).bind fun r => ?_
                cases r with
                | none =>
                  exact .lift_bind trivial fun _ => hGiveUp ip
                | some target =>
                  refine .ite ?_ ?_
                  · refine .lift_bind trivial fun _ => ?_
                    refine .lift_bind trivial fun _ => ?_
                    exact .lift_bind trivial fun _ => hGo _ _
                  · exact .lift_bind trivial fun _ => hGo _ _
            · exact .lift_bind trivial fun _ => ih _ _

theorem namexFrom_plain (wantParent followLast : Bool) (hops ip : Nat) (path : Name) :
    (namexFrom wantParent followLast hops ip path).All
      Cmd.Plain := by
  induction hops generalizing ip path with
  | zero =>
    refine namexWalk_plain _ _ _ ?_ _ _ _
    rintro go ⟨⟩
  | succ hops ih =>
    refine namexWalk_plain _ _ _ ?_ _ _ _
    rintro go ⟨⟩ ip' path'
    exact ih ip' path'

theorem namex_plain (start : Nat) (path : Name) (wantParent followLast : Bool) :
    (namex start path wantParent followLast).All
      Cmd.Plain := by
  unfold namex
  split
  · refine .lift_bind trivial fun _ => ?_
    refine (namexFrom_plain _ _ _ _ _).bind fun r => ?_
    exact .lift_bind trivial fun _ => trivial
  · exact namexFrom_plain _ _ _ _ _

theorem startDir_plain (p : Nat) : (startDir p).All Cmd.Plain := by
  unfold startDir
  refine .lift_bind trivial fun r => ?_
  cases r with
  | none => exact .lift_bind trivial fun _ => trivial
  | some c => trivial

theorem resolvePath_plain (p : Nat) (path : Name) : (resolvePath p path).All Cmd.Plain := by
  refine (startDir_plain _).bind fun start => ?_
  exact (namex_plain _ _ _ _).bind fun _ => trivial

theorem nameiparentViaCwd_plain (p : Nat) (path : Name) :
    (nameiparentViaCwd p path).All Cmd.Plain := by
  refine (startDir_plain _).bind fun start => ?_
  refine (namex_plain _ _ _ _).bind fun r => ?_
  match r with
  | none => trivial
  | some (ip, none) => exact .lift_bind trivial fun _ => trivial
  | some (ip, some name) => trivial

end PlayXv6
