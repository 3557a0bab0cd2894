import PlayXv6.Sys.NameTreeSteps
import PlayXv6.Sys.Files

/-
  Every run of the calls that change names.

  In a run that keeps to the condition, names are linked only
  into directories that have links, and whatever has been
  created is reachable from the root until it is removed.  A
  process that stays in a directory it has removed breaks both.

  Main declarations:
    * `Start`
    * `kept_of_reach`
-/

namespace PlayXv6

open Machine

namespace NameTree

variable {s s' : Sys} {t : Nat}

theorem Inv.step (hInv : Inv s) {a : Act} (hOk : s.ok a) (hStep : s.step a = some s') : Inv s' := by
  unfold Sys.step at hStep
  split at hStep
  swap
  · cases hStep
  rename_i hActor
  cases a with
  | reap i =>
    obtain rfl := Option.some.inj hStep
    exact hInv.freeUnused i
  | call t g absolute => exact hInv.stepCall (of_decide_eq_true hActor) hStep
  | walk t name => exact hInv.stepWalk (of_decide_eq_true hActor) hStep
  | restart t => exact hInv.stepRestart (of_decide_eq_true hActor) hStep
  | giveUp t => exact hInv.stepGiveUp (of_decide_eq_true hActor) hStep
  | found t absolute => exact hInv.stepFound (of_decide_eq_true hActor) hOk hStep
  | parent t name absolute => exact hInv.stepParent (of_decide_eq_true hActor) hStep
  | scan t child => exact hInv.stepScan (of_decide_eq_true hActor) hStep
  | claim t fits => exact hInv.stepClaim (of_decide_eq_true hActor) hOk hStep
  | unlink t => exact hInv.stepUnlink (of_decide_eq_true hActor) hOk hStep
  | raise t absolute => exact hInv.stepRaise (of_decide_eq_true hActor) hOk hStep
  | entry t fits => exact hInv.stepEntry (of_decide_eq_true hActor) hStep
  | undo t => exact hInv.stepUndo (of_decide_eq_true hActor) hStep
  | look t => exact hInv.stepLook (of_decide_eq_true hActor) hStep
  | drop t => exact hInv.stepDrop (of_decide_eq_true hActor) hOk hStep
  | lower t => exact hInv.stepLower (of_decide_eq_true hActor) hStep
  | relink t fits => exact hInv.stepRelink (of_decide_eq_true hActor) hStep
  | cut t => exact hInv.stepCut (of_decide_eq_true hActor) hOk hStep
  | fork t u => exact hInv.stepFork (of_decide_eq_true hActor) hStep

/- A directory that a call holds has links. -/
theorem Inv.nlink_ne_zero (hInv : Inv s) (ht : t < s.nproc) {dir : Nat}
    (hMem : dir ∈ (s.phase t).dirs) : (s.inodes dir).any (fun n => n.nlink ≠ 0) = true := by
  have hPhaseOk := hInv.phase t ht
  have hDir := hPhaseOk.dirs dir hMem
  have hReach := (hPhaseOk.holds dir ((s.phase t).dirs_subset hMem)).2 hDir
  rcases isDir_iff.mp hDir with ⟨x, hx, _⟩
  have hCutting : s.cutting dir = 0 := by
    apply cutting_eq_zero
    intro u hu hFile
    have hNot := (hInv.phase u hu).files dir hFile
    rw [hDir] at hNot
    cases hNot
  have hCount := hInv.count dir x hx
  have hLoad : 0 < s.load dir := by
    unfold Sys.load
    rcases hReach.cases_root with hRoot | ⟨k, hk⟩
    · rw [if_pos hRoot]
      omega
    · have hPos := names_pos hk
      omega
  have hNlink : x.nlink ≠ 0 := by
    intro hZero
    have hNat : x.nlink.toNat = 0 := by
      rw [hZero]
      rfl
    omega
  rw [hx]
  simpa using hNlink

theorem Inv.kept (hInv : Inv s) :
    s.Kept := by
  constructor
  · intro t ht dir hTarget
    refine hInv.nlink_ne_zero ht ?_
    cases hPhase : s.phase t with
    | claim kind d name child | linkEntry ip d name =>
      rw [hPhase] at hTarget
      obtain rfl := Option.some.inj hTarget
      exact List.mem_cons_self
    | renameLink src oldDir oldName newDir newName =>
      rw [hPhase] at hTarget
      obtain rfl := Option.some.inj hTarget
      exact List.mem_cons_of_mem _ List.mem_cons_self
    | _ =>
      rw [hPhase] at hTarget
      cases hTarget
  · intro i hMade
    have hNames : s.names i ≠ 0 := by
      have hLt := hInv.made i hMade
      omega
    by_contra hNot
    apply hNames
    apply names_of_unnamed
    rintro ⟨d, m⟩ hLink
    exact hNot (.entry (hInv.shape.entry d m i hLink).2.1 hLink)

/-
  A file system at rest: no call is in progress, every process
  is in the root directory, and no inode has fewer links than
  names and subdirectories.
-/
structure Start (s : Sys) : Prop where
  idle : ∀ t, s.phase t = .idle
  cwd : ∀ t, s.cwd t = ROOTINO
  shape : Shape s
  count : ∀ i x, s.inodes i = some x → s.names i + s.subdirs i +
        (if i = ROOTINO then 1 else 0) ≤ x.nlink.toNat
  made : ∀ i, s.made i = true → 0 < s.names i

theorem Start.inv (hStart : Start s) : Inv s := by
  have hFiles : ∀ i t, t < s.nproc → i ∉ (s.phase t).files := by
    intro i t _ hi
    rw [hStart.idle t] at hi
    cases hi
  refine ⟨hStart.shape, ?_, ?_, ?_, ?_⟩
  · intro t _
    rw [hStart.cwd t]
    refine ⟨?_, fun _ => .root⟩
    rcases isDir_iff.mp hStart.shape.root.1 with ⟨x, hx, _⟩
    rw [hx]
    exact Option.some_ne_none x
  · intro t _
    rw [hStart.idle t]
    exact PhaseOk.idle
  · intro i x hx
    have hCount := hStart.count i x hx
    rw [cutting_eq_zero (hFiles i)]
    unfold Sys.load
    rw [owed_eq_zero (hFiles i)]
    omega
  · intro i hMade
    rw [cutting_eq_zero (hFiles i)]
    exact hStart.made i hMade

theorem start_boot (nproc ninodes : Nat) : Start (Sys.boot nproc ninodes) := by
  refine ⟨fun _ => rfl, fun _ => rfl, ⟨⟨rfl, rfl⟩, ?_, ?_⟩, ?_, ?_⟩
  · intro i hi
    have hRoot : i = ROOTINO := by
      by_contra hNe
      exact hi (if_neg hNe)
    rw [hRoot]
    decide
  · intro d n i hLink
    cases hLink
  · intro i x hx
    by_cases hi : i = ROOTINO
    · have hNode : x = ⟨.dir, 1, ROOTINO⟩ := by
        have hSome : (some ⟨.dir, 1, ROOTINO⟩ : Option Node) = some x := (if_pos hi).symm.trans hx
        exact (Option.some.inj hSome).symm
      rw [hNode, if_pos hi]
      exact Nat.le_refl 1
    · have hNone : (none : Option Node) = some x := (if_neg hi).symm.trans hx
      cases hNone
  · intro i hMade
    cases hMade

/- From any file system at rest, in every run whose steps meet the condition. -/
theorem kept_of_reach {s₀ : Sys} (hStart : Start s₀) (hReach : Reach Sys.step Sys.ok s₀ s) :
    s.Kept := (hReach.invariant (fun _ _ _ hInv => hInv.step) hStart.inv).kept

instance decidableOk (s : Sys) (a : Act) : Decidable (s.ok a) := by
  unfold Sys.ok
  split
  · split
    · split <;> infer_instance
    · infer_instance
  · split <;> infer_instance
  · split <;> infer_instance
  · split <;> infer_instance
  · split
    · rename_i newDir newName ex _
      exact decidable_of_iff ((s.finds newDir newName).all (fun i => i = ex) = true)
        (by simp [Option.all_eq_true])
    · infer_instance
  · split <;> infer_instance
  · infer_instance

/-
  A directory `d` is made, a file in it is created and renamed
  to `g` in the root directory, and another process is about
  to create `h` in `d`.
-/
def renameActs : List Act :=
  [.call 0 (.create .dir) true, .parent 0 [100] true,
    .scan 0 2, .claim 0 true, .call 0 (.create .file) true, .walk 0 [100],
    .parent 0 [102] true, .scan 0 3, .claim 0 true,
    .call 0 .renameSrc true, .walk 0 [100], .walk 0 [102],
    .found 0 true, .walk 0 [100], .parent 0 [102] true,
    .parent 0 [103] true, .look 0, .relink 0 true, .cut 0,
    .call 1 (.create .file) true, .walk 1 [100], .parent 1 [104] true, .scan 1 4]

theorem kept_of_reach_rename : ∃ s : Sys, Reach Sys.step Sys.ok (Sys.boot 2 10) s ∧
        s.made 3 = true ∧ s.links.lookup (ROOTINO, [103]) = some 3 ∧
        Sys.target (s.phase 1) = some 2 ∧ s.Kept := by
  have hRun : (run Sys.step Sys.ok (Sys.boot 2 10) renameActs).any (fun s => s.made 3 &&
        decide (s.links.lookup (ROOTINO, [103]) = some 3) &&
        decide (Sys.target (s.phase 1) = some 2)) = true := by decide +kernel
  rcases exists_reach hRun with ⟨s, hReach, hAfter⟩
  simp only [Bool.and_eq_true, decide_eq_true_eq] at hAfter
  have hReach : Reach Sys.step Sys.ok (Sys.boot 2 10) s := hReach
  exact ⟨s, hReach, hAfter.1.1, hAfter.1.2, hAfter.2, kept_of_reach (start_boot 2 10) hReach⟩

/- A process makes a directory `d`, enters it, removes it and is about to create `x` in it. -/
def removedActs : List Act :=
  [.call 0 (.create .dir) true, .parent 0 [100] true,
    .scan 0 2, .claim 0 true, .call 0 .chdir true, .walk 0 [100], .found 0 true,
    .call 0 .unlink false, .walk 0 dotdot, .parent 0 [100] true, .unlink 0,
    .call 0 (.create .file) false, .parent 0 [120] true, .scan 0 3]

theorem eq_root_of_reachable {i : Nat} (hEmpty : s.dirIsEmpty ROOTINO = true)
    (hReach : s.Reachable i) : i = ROOTINO := by
  induction hReach with
  | root => rfl
  | entry _ hLink ih =>
    rw [ih, lookup_of_dirIsEmpty hEmpty] at hLink
    cases hLink

-- A Removed Directory

/- A directory whose entries are in block `b`. -/
def dirInode (nlink : UInt16) (b : Nat) : InodeState :=
  { DInode.default with
    typ := T_DIR
    nlink := nlink
    size := 48
    addrs := Addrs.zero.set 0 b }

/- Process 0 is in `/d`, which is empty. -/
def inEmptyDir : Fs :=
  { Fs.boot fun b =>
      if b = 2 then
        Bytes.zero.splice 256 (dirInode 1 51).encode
      else if b = 3 then Bytes.zero.splice 0 [15]
      else if b = 50 then
        ((Bytes.zero.splice 0 [1, 0, 46]).splice 16 [1, 0, 46, 46]).splice 32 [2, 0, 100]
      else if b = 51 then
        (Bytes.zero.splice 0 [2, 0, 46]).splice 16 [1, 0, 46, 46]
      else Bytes.zero with
    refs := fun i => if i = 1 ∨ i = 2 then 1 else 0
    valid := fun i => decide (i = 1 ∨ i = 2)
    state := fun i => if i = 1 then dirInode 2 50 else dirInode 1 51
    cwd := fun p => if p = 0 then some 2 else none }

/- `rmdir("../d")` and then `open("x", O_CREATE | O_RDWR)` -/
def removeThenCreate : FsProg (Int × Int) := do
  let removed ← sysRmdir oneDirDisk 0 [46, 46, 47, 100]
  let created ← sysOpen oneDirDisk 0 ⟨0, 0, 0⟩ [120]
    (O_CREATE ||| O_RDWR) (fun _ => false) (some 0)
  pure (removed, created)

/-
  A file is created in a directory that has been removed, and
  no path leads to it; the system calls themselves do it when
  the process is in the directory.
-/
theorem linked_into_removed : (∃ s s' : Sys, Reach Sys.step (fun _ _ => True)
          (Sys.boot 1 10) s ∧ Sys.target (s.phase 0) = some 2 ∧
        s.inodes 2 = some ⟨.dir, 0, ROOTINO⟩ ∧ s.step (.claim 0 true) = some s' ∧
        s'.links.lookup (2, [120]) = some 3 ∧ s'.made 3 = true ∧ ¬ s'.Reachable 3) ∧
    ∃ s', removeThenCreate.run (exec oneDirDisk) inEmptyDir = .ok (0, 0) s' ∧
      (s'.state 2).nlink = 0 ∧ s'.cwd 0 = some 2 ∧
      ∃ s'', (resolvePath 0 [120]).run (exec oneDirDisk) s' = .ok (some 3) s'' := by
  constructor
  · have hRun : (run Sys.step (fun _ _ => True) (Sys.boot 1 10) removedActs).any (fun s =>
          decide (Sys.target (s.phase 0) = some 2) &&
          decide (s.inodes 2 = some ⟨.dir, 0, ROOTINO⟩) &&
          (s.step (.claim 0 true)).any fun s' =>
            decide (s'.links.lookup (2, [120]) = some 3) &&
            s'.made 3 && s'.dirIsEmpty ROOTINO) = true := by
      decide +kernel
    rcases exists_reach hRun with ⟨s, hReach, hAfter⟩
    simp only [Bool.and_eq_true, decide_eq_true_eq, Option.any_eq_true] at hAfter
    rcases hAfter with ⟨⟨hTarget, hNode⟩, s', hStep, ⟨hLink, hMade⟩, hEmpty⟩
    refine ⟨s, s', hReach, hTarget, hNode, hStep, hLink, hMade, ?_⟩
    intro hReach
    exact absurd (eq_root_of_reachable hEmpty hReach) (by decide)
  · have hCheck : (removeThenCreate.run (exec oneDirDisk) inEmptyDir).check (fun r s' =>
          r == (0, 0) && (s'.state 2).nlink == 0 &&
          s'.cwd 0 == some 2 &&
          ((resolvePath 0 [120]).run (exec oneDirDisk) s').check fun found _ => found == some 3) =
              true := by
      decide +kernel
    rcases Outcome.exists_of_check hCheck with ⟨r, s', hRun, hAfter⟩
    simp only [Bool.and_eq_true, beq_iff_eq] at hAfter
    rcases hAfter with ⟨⟨⟨rfl, hNlink⟩, hCwd⟩, hResolve⟩
    rcases Outcome.exists_of_check hResolve with ⟨found, s'', hFound, hThree⟩
    obtain rfl := eq_of_beq hThree
    exact ⟨s', hRun, hNlink, hCwd, s'', hFound⟩

end NameTree

end PlayXv6
