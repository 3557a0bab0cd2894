import PlayXv6.Fs.GroupCommit
import PlayXv6.Fs.LogCrash

/-
  Crashes in a run of the log.

  The power may fail between any two actions of the tasks that
  share the log.  Whatever recoveries are cut short then, the
  next one that ends leaves outside of the log what the last
  commit to reach the disk has made of it.

  Main declarations:
    * `Recovers`, `Durable`
    * `durable_of_reach`
-/

namespace PlayXv6

open Function Machine

namespace Log

open DiskProg

variable {start : Nat} {d d₀ v v' : Disk Block} {log : LogState}

/- Recoveries cut anywhere and then one that ends make `v` of the blocks outside of the log. -/
def Recovers (start : Nat) (d v : Disk Block) : Prop :=
  ∀ cuts,
  let d' := (eval (recover start) (crashRecoveries start cuts d)).2
  headerCount start d' = 0 ∧ ∀ b, ¬ InLogArea start b → d' b = v b

theorem Recovers.congr (hRec : Recovers start d v) (hSame : ∀ b, ¬ InLogArea start b → v b = v' b) :
    Recovers start d v' := by
  intro cuts
  rcases hRec cuts with ⟨hHeader, hOthers⟩
  exact ⟨hHeader, fun b hb => (hOthers b hb).trans (hSame b hb)⟩

theorem crashRecoveries_induction {I : Disk Block → Prop}
    (hKeep : ∀ d k, I d → I (crashAfter (recover start) k d)) (cuts : List Nat) (hd : I d) :
    I (crashRecoveries start cuts d) := by
  induction cuts generalizing d with
  | nil => exact hd
  | cons k cuts ih => exact ih (hKeep d k hd)

theorem Untouched.recovers (hSide : Untouched log d₀ d) : Recovers log.start d d₀ := by
  intro cuts
  have hStill := crashRecoveries_induction (I := Untouched log d₀)
    (fun _ k hd => untouched_crashAfter_recover hd k) cuts hSide
  dsimp only
  rw [eval_snd, writes_recover_empty hStill.header]
  exact ⟨hStill.header, hStill.others⟩

/- The blocks outside of the log after the home writes. -/
theorem Installed.image (hLog : log.Committable) (hDone : Installed log d₀ d) {b : Nat}
    (hOut : ¬ InLogArea log.start b) : d b = applyWrites log.homeWrites d₀ b := by
  by_cases hb : b ∈ log.pinned.map Buffer.blockNo
  · rcases List.mem_map.mp hb with ⟨buf, hBuf, rfl⟩
    have hMem : (buf.blockNo, buf.data) ∈ log.homeWrites := List.mem_map.mpr ⟨buf, hBuf, rfl⟩
    rw [hDone.homes buf hBuf, applyWrites_of_mem _ hMem]
    rw [log.map_fst_homeWrites]
    exact hLog.distinct
  · rw [hDone.others b hOut hb, applyWrites_of_notMem]
    rw [log.map_fst_homeWrites]
    exact hb

theorem recovers_of_committed (hLog : log.Committable) (hNonempty : log.lh.n ≠ 0)
    (hSide : Logged log d₀ d ∨ Installed log d₀ d) :
    Recovers log.start d (applyWrites log.homeWrites d₀) := by
  intro cuts
  have hStill := crashRecoveries_induction (I := fun d => Logged log d₀ d ∨ Installed log d₀ d)
    (fun _ k hd => committed_crashAfter_recover hLog hNonempty hd k) cuts hSide
  have hDone := committed_eval_recover hLog hNonempty hStill
  exact ⟨hDone.header, fun _ hOut => hDone.image hLog hOut⟩

-- The Disk During a Commit

/- The log is empty and the other blocks are those of `v`. -/
structure Settled (start : Nat) (v d : Disk Block) : Prop where
  header : headerCount start d = 0
  others : ∀ b, ¬ InLogArea start b → d b = v b

/- A commit that takes the blocks from `v` to `v'` has got to `rest` with its writes. -/
def Writing (start : Nat) (v v' : Disk Block) (rest : DiskProg Block LogState) (d : Disk Block) :
    Prop :=
  ∃ log d₀ ws, log.Committable ∧ log.start = start ∧ Settled start v d₀ ∧
  v' = applyWrites log.homeWrites v ∧ writes (commit log) d₀ = ws ++ writes rest d ∧
    d = applyWrites ws d₀

theorem applyWrites_congr {ws : List (Nat × Block)} {b : Nat} (hSame : d b = d₀ b) :
    applyWrites ws d b = applyWrites ws d₀ b := by
  induction ws generalizing d d₀ with
  | nil => exact hSame
  | cons w ws ih =>
    refine ih ?_
    by_cases hb : b = w.1
    · rw [hb, update_self, update_self]
    · rw [update_of_ne hb, update_of_ne hb, hSame]

theorem Settled.recovers (hSettled : Settled start v d) : Recovers start d v := by
  have hSide : Untouched { LogState.zero with start := start } d d :=
    ⟨hSettled.header, fun _ _ => rfl⟩
  exact hSide.recovers.congr hSettled.others

/- A cut commit is undone or completed. -/
theorem Writing.recovers {rest : DiskProg Block LogState} (hWriting : Writing start v v' rest d) :
    Recovers start d v ∨ Recovers start d v' := by
  rcases hWriting with ⟨log, d₀, ws, hLog, rfl, hSettled, rfl, hWrites, rfl⟩
  have hDisk : applyWrites ws d₀ = crashAfter (commit log) ws.length d₀ := by
    rw [crashAfter_eq, hWrites, List.take_left]
  rcases crashAfter_commit hLog hSettled.header ws.length with ⟨hAfter, hBefore⟩
  rw [← hDisk] at hAfter hBefore
  by_cases hHeader : log.headerWrite ∈ (writes (commit log) d₀).take ws.length
  · right
    have hNonempty : log.lh.n ≠ 0 := by
      intro hEmpty
      simp [writes_commit_empty hEmpty] at hHeader
    exact (recovers_of_committed hLog hNonempty (hAfter hHeader)).congr fun b hb =>
      applyWrites_congr (hSettled.others b hb)
  · left
    exact (hBefore hHeader).recovers.congr hSettled.others

/- A commit that has returned has made all its writes. -/
theorem Writing.settled {log' : LogState} (hWriting : Writing start v v' (.ret log') d) :
    Settled start v' d := by
  rcases hWriting with ⟨log, d₀, ws, hLog, rfl, hSettled, rfl, hWrites, rfl⟩
  rw [show writes (.ret log') _ = [] from rfl, List.append_nil] at hWrites
  subst hWrites
  by_cases hEmpty : log.lh.n = 0
  · have hNone : log.homeWrites = [] := by
      have hLen := hLog.count
      rw [hEmpty] at hLen
      simp [LogState.homeWrites, List.length_eq_zero_iff.mp hLen.symm]
    rw [writes_commit_empty hEmpty, hNone]
    exact hSettled
  · have hHeader : headerCount log.start (applyWrites (writes (commit log) d₀) d₀) = 0 := by
      rw [writes_commit hEmpty, ← List.cons_append, ← List.append_assoc, applyWrites_append]
      exact headerCount_clear log _
    have hMem : log.headerWrite ∈
        (writes (commit log) d₀).take (writes (commit log) d₀).length := by
      rw [List.take_length, writes_commit hEmpty]
      simp
    have hSide := (crashAfter_commit hLog hSettled.header _).1 hMem
    rw [crashAfter_eq, List.take_length] at hSide
    rcases hSide with hLogged | hDone
    · rw [headerCount, hLogged.header, decodeHeader_encodeHeader_n hLog.room] at hHeader
      exact absurd hHeader hEmpty
    · refine ⟨hHeader, fun b hb => (hDone.image hLog hb).trans ?_⟩
      exact applyWrites_congr (hSettled.others b hb)

-- Runs

/- The log with, for each number of commits, the disk as those commits have made it. -/
structure Journal : Type 1 where
  sys : Sys
  image : Nat → Disk Block

namespace Journal

def boot (start size : Nat) (disk : Disk Block) : Journal :=
  ⟨Sys.boot start size disk, fun _ => disk⟩

def step (j : Journal) (a : Act) : Option Journal :=
  (j.sys.step a).map fun s =>
    { sys := s
      image := match a with
        | .snapshot _ => update j.image (j.sys.commits.length + 1)
          (applyWrites j.sys.log.homeWrites (j.image j.sys.commits.length))
        | _ => j.image }

/- The blocks of the log itself are not logged. -/
def Ok (start : Nat) (_ : Journal) : Act → Prop
  | .logWrite _ b _ => ¬ InLogArea start b.toNat
  | _ => True

/-
  A crash now leaves the work of all commits that were
  started, or of all but the one that is being made.
-/
def Durable (start : Nat) (j : Journal) : Prop :=
  ∃ k, Recovers start j.sys.disk (j.image k) ∧
  (k = j.sys.commits.length ∨ k + 1 = j.sys.commits.length ∧ ∃ t rest, j.sys.tasks t = .commit rest)

structure Inv (start : Nat) (s : Sys) (image : Nat → Disk Block) : Prop where
  base : Log.Inv s
  place : s.log.start = start
  outside : ∀ b ∈ s.log.pinned.map Buffer.blockNo, ¬ InLogArea start b
  quiet : (∀ t rest, s.tasks t ≠ .commit rest) → Settled start (image s.commits.length) s.disk
  busy : ∀ t rest, s.tasks t = .commit rest → ∃ n, s.commits.length = n + 1 ∧
    Writing start (image n) (image (n + 1)) rest s.disk

variable {j : Journal} {s s' : Sys} {image : Nat → Disk Block} {t : Nat}

/- A step outside of `commit`. -/
theorem Inv.keep (hInv : Inv start s image) (hBase : Log.Inv s')
    (hPlace : s'.log.start = s.log.start)
    (hOutside : ∀ b ∈ s'.log.pinned.map Buffer.blockNo, ¬ InLogArea start b)
    (hDisk : s'.disk = s.disk) (hCommits : s'.commits = s.commits) {p : Phase}
    (hTasks : s'.tasks = update s.tasks t p) (hOld : ∀ rest, s.tasks t ≠ .commit rest)
    (hNew : ∀ rest, p ≠ .commit rest) : Inv start s' image := by
  have hIff : ∀ u rest, s'.tasks u = .commit rest ↔ s.tasks u = .commit rest := by
    intro u rest
    rw [hTasks]
    by_cases hu : u = t
    · subst hu
      rw [update_self]
      exact iff_of_false (hNew rest) (hOld rest)
    · rw [update_of_ne hu]
  refine ⟨hBase, hPlace.trans hInv.place, hOutside, ?_, ?_⟩
  · intro hNone
    rw [hCommits, hDisk]
    exact hInv.quiet fun u rest hTask => hNone u rest ((hIff u rest).mpr hTask)
  · intro u rest hTask
    rw [hCommits, hDisk]
    exact hInv.busy u rest ((hIff u rest).mp hTask)

/- While one task commits, no other does. -/
theorem eq_of_commit (hOthers : ∀ u, u ≠ t → s.tasks u = .idle) {p : Phase} {u : Nat}
    {rest : DiskProg Block LogState} (hu : update s.tasks t p u = .commit rest) :
    p = .commit rest := by
  by_cases hEq : u = t
  · rw [hEq, update_self] at hu
    exact hu
  · rw [update_of_ne hEq, hOthers u hEq] at hu
    cases hu

/- One read or write of `commit`. -/
theorem Inv.commitIo (hInv : Inv start s image) (hStep : s.step (.commitIo t) = some s') :
    Inv start s' image := by
  have hMove : ∃ rest rest' d, s.tasks t = .commit rest ∧
      s' = { s.setTask t (.commit rest') with disk := d } ∧
      ∀ v v', Writing start v v' rest s.disk → Writing start v v' rest' d := by
    simp only [Sys.step] at hStep
    split at hStep <;> cases hStep
    · rename_i hTask
      exact ⟨_, _, _, hTask, rfl, fun _ _ hWriting => hWriting⟩
    · rename_i b w k hTask
      refine ⟨_, _, _, hTask, rfl, ?_⟩
      rintro v v' ⟨log, d₀, ws, hLog, hStart, hSettled, hImage, hWrites, hDisk⟩
      refine ⟨log, d₀, ws ++ [(b, w)], hLog, hStart, hSettled, hImage, ?_, ?_⟩
      · rw [hWrites, List.append_assoc]
        rfl
      · rw [applyWrites_append, ← hDisk]
        rfl
  have hBase := inv_step hInv.base hStep
  rcases hMove with ⟨rest, rest', d, hTask, rfl, hWriting⟩
  have hClosed := hInv.base.closed_of (t := t) (by simp [hTask]) (by simp [hTask])
  refine ⟨hBase, hInv.place, hInv.outside, fun hNone => ?_, fun u r hu => ?_⟩
  · exact (hNone t rest' (update_self ..)).elim
  · cases eq_of_commit hClosed.others hu
    rcases hInv.busy t rest hTask with ⟨n, hLen, hBefore⟩
    exact ⟨n, hLen, hWriting _ _ hBefore⟩

theorem Inv.snapshot (hInv : Inv start s image) (hStep : s.step (.snapshot t) = some s') :
    Inv start s' (update image (s.commits.length + 1)
      (applyWrites s.log.homeWrites (image s.commits.length))) := by
  have hBase := inv_step hInv.base hStep
  simp only [Sys.step] at hStep
  split at hStep <;> cases hStep
  rename_i hTask
  have hClosed := hInv.base.closed_of (t := t) (by simp [hTask]) (by simp [hTask])
  have hLog : s.log.Committable := by
    refine ⟨hInv.base.recorded, fun buf hBuf => ?_⟩
    rw [hInv.place]
    exact hInv.outside _ (List.mem_map_of_mem hBuf)
  have hQuiet : ∀ u rest, s.tasks u ≠ .commit rest := by
    intro u rest hu
    rw [← update_eq_self t s.tasks, hTask] at hu
    cases eq_of_commit hClosed.others hu
  refine ⟨hBase, hInv.place, hInv.outside, fun hNone => ?_, fun u r hu => ?_⟩
  · exact (hNone t _ (update_self ..)).elim
  · cases eq_of_commit hClosed.others hu
    refine ⟨s.commits.length, by simp, s.log, s.disk, [], hLog, hInv.place, ?_, ?_, rfl, rfl⟩
    · rw [update_of_ne (Nat.lt_succ_self _).ne]
      exact hInv.quiet hQuiet
    · rw [update_self, update_of_ne (Nat.lt_succ_self _).ne]

theorem Inv.commitEnd (hInv : Inv start s image) (hStep : s.step (.commitEnd t) = some s') :
    Inv start s' image := by
  have hBase := inv_step hInv.base hStep
  simp only [Sys.step] at hStep
  split at hStep <;> cases hStep
  rename_i hTask
  have hClosed := hInv.base.closed_of (t := t) (by simp [hTask]) (by simp [hTask])
  have hClosing := hClosed.closing
  rw [hTask] at hClosing
  refine ⟨hBase, hInv.place, by simp [hClosing.1.2.2], fun _ => ?_, fun u r hu => ?_⟩
  · rcases hInv.busy t _ hTask with ⟨n, hLen, hWriting⟩
    dsimp only [Sys.setTask]
    rw [hLen]
    exact hWriting.settled
  · cases eq_of_commit hClosed.others hu

theorem logWrite_pinned {log' : LogState} {buf : Buffer} (hWrite : logWrite log buf = some log') :
    log'.start = log.start ∧ ∀ b ∈ log'.pinned.map Buffer.blockNo,
      b ∈ log.pinned.map Buffer.blockNo ∨ b = buf.blockNo := by
  unfold logWrite at hWrite
  split at hWrite
  · cases hWrite
  split at hWrite
  · cases hWrite
  split at hWrite
  · cases hWrite
    exact ⟨rfl, fun _ hb => .inl hb⟩
  · cases hWrite
    exact ⟨rfl, fun b hb => by simpa using hb⟩

theorem Inv.step {a : Act} {j' : Journal} (hInv : Inv start j.sys j.image) (hOk : j.Ok start a)
    (hStep : j.step a = some j') : Inv start j'.sys j'.image := by
  rcases Option.map_eq_some_iff.mp hStep with ⟨s', hSys, rfl⟩
  have hBase := inv_step hInv.base hSys
  cases hMove : move_of_step hSys with
  | beginOp hTask hBegin =>
    rcases beginOp_eq_some hInv.base.few hInv.base.recorded.room hBegin with ⟨_, _, rfl⟩
    exact hInv.keep hBase rfl hInv.outside rfl rfl rfl (by simp [hTask]) (by simp)
  | logWrite hTask hWrite =>
    rcases logWrite_pinned hWrite with ⟨hPlace, hPinned⟩
    refine hInv.keep hBase hPlace (fun b hb => ?_) rfl rfl rfl (by simp [hTask]) (by simp)
    rcases hPinned b hb with hOld | rfl
    · exact hInv.outside b hOld
    · exact hOk
  | @store t op i data hTask =>
    refine hInv.keep (t := t) hBase rfl (fun b hb => ?_) rfl rfl (update_eq_self ..).symm
      (by simp [hTask]) (by simp [hTask])
    rw [LogState.map_blockNo_store] at hb
    exact hInv.outside b hb
  | endOp hTask hEnd =>
    rw [endOp_eq (hInv.base.pos_of_inOp hTask) hInv.base.few (hInv.base.open_of_inOp hTask).quiet]
      at hEnd
    cases hEnd
    refine hInv.keep hBase rfl hInv.outside rfl rfl rfl (by simp [hTask]) fun rest => ?_
    split <;> simp
  | snapshot => exact hInv.snapshot hSys
  | commitIo => exact hInv.commitIo hSys
  | commitEnd => exact hInv.commitEnd hSys
  | release hTask => exact hInv.keep hBase rfl hInv.outside rfl rfl rfl (by simp [hTask]) (by simp)

theorem Inv.durable (hInv : Inv start j.sys j.image) : Durable start j := by
  by_cases hBusy : ∃ t rest, j.sys.tasks t = .commit rest
  · rcases hBusy with ⟨t, rest, hTask⟩
    rcases hInv.busy t rest hTask with ⟨n, hLen, hWriting⟩
    rcases hWriting.recovers with hOld | hNew
    · exact ⟨n, hOld, .inr ⟨hLen.symm, t, rest, hTask⟩⟩
    · exact ⟨n + 1, hNew, .inl hLen.symm⟩
  · exact ⟨_, (hInv.quiet fun t rest hTask => hBusy ⟨t, rest, hTask⟩).recovers, .inl rfl⟩

theorem durable_of_reach {start size : Nat} {disk : Disk Block}
    (hClean : headerCount start disk = 0)
    (hReach : Reach step (Ok start) (boot start size disk) j) : Durable start j := by
  have hInv : Inv start j.sys j.image := by
    refine hReach.invariant (I := fun j => Inv start j.sys j.image)
      (fun _ _ _ hInv hOk hStep => hInv.step hOk hStep) ?_
    refine ⟨inv_boot start size disk, rfl, ?_, fun _ => ⟨hClean, fun _ _ => rfl⟩, ?_⟩
    · intro b hb
      cases hb
    · intro t rest hTask
      cases hTask
  exact hInv.durable

/- Two tasks share a commit, which has written a slot and the header. -/
def cutCommit : List Act := sharedCommit ++ List.replicate 5 (.commitIo 1)

instance : ∀ a : Act, Decidable (Ok 2 j a)
  | .logWrite _ b _ =>
    inferInstanceAs (Decidable (¬ (b.toNat = 2 ∨ ∃ i, i < LOGSIZE ∧ b.toNat = logSlot 2 i)))
  | .beginOp _ | .store _ _ _ | .endOp _ | .snapshot _ | .commitIo _ | .commitEnd _ | .release _ =>
    inferInstanceAs (Decidable True)

theorem durable_of_reach_cut : ∃ j, Reach step (Ok 2) (boot 2 31 fun _ => Bytes.zero) j ∧
    j.sys.commits = [[50, 51]] ∧ Durable 2 j := by
  have hRun : (run step (Ok 2) (boot 2 31 fun _ => Bytes.zero) cutCommit).any
      (fun j => decide (j.sys.commits = [[50, 51]])) = true := by decide +kernel
  rcases exists_reach hRun with ⟨j, hReach, hCommits⟩
  have hClean : headerCount 2 (fun _ => Bytes.zero) = 0 := by simp [headerCount, decodeHeader]
  exact ⟨j, hReach, of_decide_eq_true hCommits, durable_of_reach hClean hReach⟩

end Journal

end Log

end PlayXv6
