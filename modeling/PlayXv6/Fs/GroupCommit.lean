import PlayXv6.Lib.Machine
import PlayXv6.Lib.Tally
import PlayXv6.Fs.Log

/-
  Group commit: operations of many tasks share one log
  transaction.

  The tasks call `begin_op`, `log_write` and `end_op`; the
  task whose `end_op` finds no other operation outstanding
  runs `commit`, one disk access at a time, while the other
  tasks go on.  Every section that holds the log's lock is one
  action.

  Main declarations:
    * `beginOp`, `endOp`
    * `groupCommit_of_reached`, `logWrite_isSome_iff_of_reached`
-/

namespace PlayXv6

open Function Machine

variable {log log' : LogState}

namespace Log

/- The admission test, in 32-bit arithmetic. -/
def LogState.admissible (log : LogState) : Bool :=
  !log.committing &&
    (log.lh.n + (log.outstanding + 1) * MAXOPBLOCKS) % 2 ^ 32 ≤ LOGSIZE

/-
  One round of `begin_op`; `none` if the log is not
  initialized (an assertion) or the task has to wait.
-/
def beginOp (log : LogState) : Option LogState :=
  if !log.initialized then
    none
  else if log.admissible then
    some { log with
      outstanding := (log.outstanding + 1) % 2 ^ 32 }
  else
    none

/-
  The locked section of `end_op`, and whether the caller has
  to commit; `none` is a failed assertion.
-/
def endOp (log : LogState) : Option (Bool × LogState) :=
  let outstanding := (log.outstanding + 2 ^ 32 - 1) % 2 ^ 32
  if log.committing then
    none
  else if outstanding = 0 then
    some (true, { log with outstanding := 0, committing := true })
  else
    some (false, { log with outstanding := outstanding })

-- Tasks

/-
  An operation between its `begin_op` and its `end_op`: how
  many commits had been started when it began, and the blocks
  it has logged.
-/
structure Op where
  commitNo : Nat
  logged : Finset Nat
deriving DecidableEq

inductive Phase : Type 1 where
  | idle
  | inOp (op : Op)
  -- `end_op` has set `committing` and is about to commit
  | ending
  -- the rest of `commit`
  | commit (rest : DiskProg Block LogState)
  -- `commit` has returned
  | committed

/-
  The log, the disk and the tasks.  The last two fields are
  not kept by the kernel: the home blocks of every commit
  started so far, and the operations that have ended.
-/
structure Sys : Type 1 where
  log : LogState
  disk : Disk Block
  tasks : Nat → Phase
  commits : List (List Nat)
  ended : List Op

def LogState.recordedBlocks (log : LogState) : List Nat := log.lh.block.take log.lh.n

/- After `init`: an empty log over any disk. -/
def Sys.boot (start size : Nat) (disk : Disk Block) : Sys where
  log :=
    { LogState.zero with
      start := start
      size := size
      initialized := true }
  disk := disk
  tasks := fun _ => .idle
  commits := []
  ended := []

def Sys.setTask (s : Sys) (t : Nat) (p : Phase) : Sys := { s with tasks := update s.tasks t p }

inductive Act where
  | beginOp (t : Nat)
  | logWrite (t : Nat) (blockNo : UInt32) (data : Block)
  -- change the contents of the `i`-th pinned buffer
  | store (t i : Nat) (data : Block)
  | endOp (t : Nat)
  -- `commit` takes its copy of the header and the buffers
  | snapshot (t : Nat)
  -- `commit` reads or writes one block
  | commitIo (t : Nat)
  -- `commit` empties the log
  | commitEnd (t : Nat)
  -- `end_op` clears `committing`
  | release (t : Nat)

/- Give the pinned buffer at `i` new contents. -/
def LogState.store (log : LogState) (i : Nat) (data : Block) : LogState :=
  { log with
    pinned := log.pinned.modify i fun buf => { buf with data := data } }

/-
  One action.  `none` means that the task is not at the point
  where it takes the action, that it waits, or that an
  assertion fails.
-/
def Sys.step (s : Sys) : Act → Option Sys
  | .beginOp t =>
    match s.tasks t with
    | .idle =>
      (Log.beginOp s.log).map fun log =>
        { s.setTask t (.inOp ⟨s.commits.length, ∅⟩) with
          log := log }
    | _ => none
  | .logWrite t b data =>
    match s.tasks t with
    | .inOp op =>
      (Log.logWrite s.log ⟨b.toNat, data⟩).map fun log => { s.setTask t
            (.inOp { op with
              logged := insert b.toNat op.logged }) with
          log := log }
    | _ => none
  | .store t i data =>
    match s.tasks t with
    | .inOp _ => some { s with log := s.log.store i data }
    | _ => none
  | .endOp t =>
    match s.tasks t with
    | .inOp op =>
      (Log.endOp s.log).map fun (doCommit, log) => { s.setTask t
            (if doCommit then .ending else .idle) with
          log := log
          ended := op :: s.ended }
    | _ => none
  | .snapshot t =>
    match s.tasks t with
    | .ending =>
      some { s.setTask t (.commit (commit s.log)) with
        commits := s.commits ++ [s.log.recordedBlocks] }
    | _ => none
  | .commitIo t =>
    match s.tasks t with
    | .commit (.op (.read b) k) => some (s.setTask t (.commit (k (s.disk b))))
    | .commit (.op (.write b v) k) =>
      some { s.setTask t (.commit (k ())) with
        disk := update s.disk b v }
    | _ => none
  | .commitEnd t =>
    match s.tasks t with
    | .commit (.ret log) =>
      some { s.setTask t .committed with
        log :=
          { s.log with
            lh := log.lh
            pinned := log.pinned } }
    | _ => none
  | .release t =>
    match s.tasks t with
    | .committed =>
      some { s.setTask t .idle with
        log := { s.log with committing := false } }
    | _ => none

/- What each action does, where the task is at its point. -/
inductive Move (s : Sys) : Act → Sys → Prop
  | beginOp {t log} (hTask : s.tasks t = .idle) (hBegin : Log.beginOp s.log = some log) :
      Move s (.beginOp t) { s.setTask t (.inOp ⟨s.commits.length, ∅⟩) with log := log }
  | logWrite {t op log} {b : UInt32} {data} (hTask : s.tasks t = .inOp op)
      (hWrite : Log.logWrite s.log ⟨b.toNat, data⟩ = some log) : Move s (.logWrite t b data)
        { s.setTask t (.inOp { op with logged := insert b.toNat op.logged }) with log := log }
  | store {t op i data} (hTask : s.tasks t = .inOp op) :
      Move s (.store t i data) { s with log := s.log.store i data }
  | endOp {t op doCommit log} (hTask : s.tasks t = .inOp op)
      (hEnd : Log.endOp s.log = some (doCommit, log)) : Move s (.endOp t)
        { s.setTask t (if doCommit then .ending else .idle) with
          log := log
          ended := op :: s.ended }
  | snapshot {t} (hTask : s.tasks t = .ending) : Move s (.snapshot t)
      { s.setTask t (.commit (commit s.log)) with
        commits := s.commits ++ [s.log.recordedBlocks] }
  | commitIo {t rest rest' disk} (hTask : s.tasks t = .commit rest)
      (hReturns : ∀ P, rest.Returns P → rest'.Returns P) :
      Move s (.commitIo t) { s.setTask t (.commit rest') with disk := disk }
  | commitEnd {t log} (hTask : s.tasks t = .commit (.ret log)) : Move s (.commitEnd t)
      { s.setTask t .committed with
        log := { s.log with lh := log.lh, pinned := log.pinned } }
  | release {t} (hTask : s.tasks t = .committed) : Move s (.release t)
      { s.setTask t .idle with log := { s.log with committing := false } }

theorem move_of_step {s s' : Sys} {act : Act} (hStep : s.step act = some s') : Move s act s' := by
  cases act with simp only [Sys.step] at hStep
  | beginOp t =>
    split at hStep
    · rename_i hTask
      rcases Option.map_eq_some_iff.mp hStep with ⟨log, hBegin, rfl⟩
      exact .beginOp hTask hBegin
    · cases hStep
  | logWrite t b data =>
    split at hStep
    · rename_i op hTask
      rcases Option.map_eq_some_iff.mp hStep with ⟨log, hWrite, rfl⟩
      exact .logWrite hTask hWrite
    · cases hStep
  | endOp t =>
    split at hStep
    · rename_i op hTask
      rcases Option.map_eq_some_iff.mp hStep with ⟨⟨doCommit, log⟩, hEnd, rfl⟩
      exact .endOp hTask hEnd
    · cases hStep
  | store t i data =>
    split at hStep <;> cases hStep
    exact .store (by assumption)
  | snapshot t =>
    split at hStep <;> cases hStep
    exact .snapshot (by assumption)
  | commitIo t =>
    split at hStep <;> cases hStep
    · rename_i hTask
      exact .commitIo hTask fun _ hRet => hRet _
    · rename_i hTask
      exact .commitIo hTask fun _ hRet => hRet ()
  | commitEnd t =>
    split at hStep <;> cases hStep
    exact .commitEnd (by assumption)
  | release t =>
    split at hStep <;> cases hStep
    exact .release (by assumption)

-- What the Log Functions Do

theorem beginOp_eq_some (hFew : log.outstanding ≤ 3)
    (hRoom : log.lh.n ≤ LOGSIZE) (hBegin : beginOp log = some log') : log.committing = false ∧
      log.lh.n + (log.outstanding + 1) * MAXOPBLOCKS ≤ LOGSIZE ∧
      log' = { log with
        outstanding := log.outstanding + 1 } := by
  unfold beginOp LogState.admissible at hBegin
  simp only [LOGSIZE, MAXOPBLOCKS] at *
  have hSmall : (log.lh.n + (log.outstanding + 1) * 10) % 2 ^ 32 =
        log.lh.n + (log.outstanding + 1) * 10 := by omega
  have hCount : (log.outstanding + 1) % 2 ^ 32 = log.outstanding + 1 := by omega
  rw [hSmall, hCount] at hBegin
  split at hBegin
  · simp at hBegin
  split at hBegin
  · rename_i hAdm
    simp only [Bool.and_eq_true, Bool.not_eq_true', decide_eq_true_eq] at hAdm
    exact ⟨hAdm.1, hAdm.2, (Option.some.inj hBegin).symm⟩
  · simp at hBegin

/-
  With an operation outstanding and no commit under way,
  `end_op` meets its assertion and counts one less; it commits
  exactly if it was the last.
-/
theorem endOp_eq (hPos : 0 < log.outstanding) (hFew : log.outstanding ≤ 3)
    (hQuiet : log.committing = false) : endOp log = some (decide (log.outstanding = 1),
        { log with
          outstanding := log.outstanding - 1
          committing := decide (log.outstanding = 1) }) := by
  have hCount : (log.outstanding + 2 ^ 32 - 1) % 2 ^ 32 = log.outstanding - 1 := by omega
  unfold endOp
  simp only [hCount, hQuiet]
  by_cases hLast : log.outstanding = 1
  · simp [hLast]
  · have hMore : log.outstanding - 1 ≠ 0 := by omega
    simp [hLast, hMore]

theorem logWrite_eq_some {buf : Buffer} (hRec : log.Recorded)
    (hWrite : logWrite log buf = some log') : log'.outstanding = log.outstanding ∧
      log'.committing = log.committing ∧ buf.blockNo ∈ log'.recordedBlocks ∧
      (∀ b ∈ log.recordedBlocks, b ∈ log'.recordedBlocks) ∧ (log'.lh.n = log.lh.n ∨
        log'.lh.n = log.lh.n + 1 ∧ buf.blockNo ∉ log.recordedBlocks) := by
  unfold logWrite at hWrite
  unfold LogState.recordedBlocks
  split at hWrite
  · simp at hWrite
  split at hWrite
  · simp at hWrite
  rename_i hRoom
  split at hWrite
  · rename_i hOld
    rw [← Option.some.inj hWrite]
    exact ⟨rfl, rfl, hOld, fun b hb => hb, .inl rfl⟩
  · rename_i hNew
    rw [← Option.some.inj hWrite]
    have hLt : log.lh.n < log.lh.block.length := by
      rw [hRec.width]
      omega
    have hTake := take_succ_set buf.blockNo hLt
    refine ⟨rfl, rfl, ?_, ?_, .inr ⟨rfl, hNew⟩⟩
    · simp only [hTake]
      simp
    · intro b hb
      simp only [hTake]
      exact List.mem_append_left _ hb

def LogState.Emptied (log : LogState) : Prop :=
  log.lh.n = 0 ∧ log.lh.block.length = LOGSIZE ∧
    log.pinned = []

theorem LogState.Emptied.recorded (hEmpty : log.Emptied) :
    log.Recorded := by
  rcases hEmpty with ⟨hn, hWidth, hPinned⟩
  constructor
  · simp [hn, hPinned]
  · simp [hn]
  · exact hWidth
  · simp [hn, hPinned]
  · simp [hPinned]
  · simp [hPinned]

/- Whatever the disk replies, `commit` empties the log. -/
theorem commit_returns (hRec : log.Recorded) : (commit log).Returns LogState.Emptied := by
  unfold commit
  split
  · rename_i hn
    have hLen : log.pinned.length = 0 := by rw [← hRec.count, hn]
    exact ⟨hn, hRec.width, List.length_eq_zero_iff.mp hLen⟩
  · refine Prog.Returns.bind (Prog.returns_true _) ?_
    intro _ _
    refine Prog.Returns.bind (Prog.returns_true _) ?_
    intro _ _
    refine Prog.Returns.bind (Prog.returns_true _) ?_
    intro _ _
    refine Prog.Returns.bind (Prog.returns_true _) ?_
    intro _ _
    exact ⟨rfl, by simp [LogHeader.zero], rfl⟩

theorem LogState.map_blockNo_store (log : LogState) (i : Nat) (data : Block) :
    (log.store i data).pinned.map Buffer.blockNo = log.pinned.map Buffer.blockNo := by
  apply List.ext_getElem?
  intro k
  simp only [LogState.store, List.getElem?_map, List.getElem?_modify]
  by_cases hk : i = k
  · cases hBuf : log.pinned[k]? with
    | none | some buf => simp [hk]
  · simp [hk]

theorem LogState.Recorded.store (hRec : log.Recorded) (i : Nat) (data : Block) :
    (log.store i data).Recorded := by
  have hSame := log.map_blockNo_store i data
  have hLen := congrArg List.length hSame
  simp only [List.length_map] at hLen
  constructor
  · rw [hLen]
    exact hRec.count
  · exact hRec.room
  · exact hRec.width
  · rw [hSame]
    exact hRec.blocks
  · rw [hSame]
    exact hRec.distinct
  · intro buf hBuf
    have hMem : buf.blockNo ∈ log.pinned.map Buffer.blockNo := by
      rw [← hSame]
      exact List.mem_map_of_mem hBuf
    rcases List.mem_map.mp hMem with ⟨old, hOld, hEq⟩
    rw [← hEq]
    exact hRec.u32 old hOld

-- The Invariant

def Phase.opens : Phase → Nat
  | .inOp _ => 1
  | _ => 0

/-
  Everything the operation has logged is recorded for the
  next commit, and no commit has started since it began.
-/
def Sys.Current (s : Sys) (op : Op) : Prop :=
  op.commitNo = s.commits.length ∧
    ∀ b ∈ op.logged, b ∈ s.log.recordedBlocks

/- Everything the operation logged is in one commit. -/
def Sys.Committed (s : Sys) (op : Op) : Prop :=
  ∃ blocks, s.commits[op.commitNo]? = some blocks ∧
    ∀ b ∈ op.logged, b ∈ blocks

/- Between commits. -/
structure Sys.Open (s : Sys) : Prop where
  quiet : s.log.committing = false
  count : Tally Phase.opens s.tasks s.log.outstanding
  tasks : ∀ t, s.tasks t = .idle ∨ ∃ op, s.tasks t = .inOp op ∧ s.Current op

/- How far the committing task can be. -/
def Sys.Closing (s : Sys) : Phase → Prop
  | .ending => True
  | .commit rest => rest.Returns LogState.Emptied ∧ ∀ op ∈ s.ended, s.Committed op
  | .committed => ∀ op ∈ s.ended, s.Committed op
  | _ => False

/- Task `t` commits. -/
structure Sys.Closed (s : Sys) (t : Nat) : Prop where
  committing : s.log.committing = true
  outstanding : s.log.outstanding = 0
  others : ∀ u, u ≠ t → s.tasks u = .idle
  closing : s.Closing (s.tasks t)

structure Inv (s : Sys) : Prop where
  recorded : s.log.Recorded
  few : s.log.outstanding ≤ 3
  together : ∀ op ∈ s.ended, s.Committed op ∨ s.Current op
  mode : s.Open ∨ ∃ t, s.Closed t

theorem inv_boot (start size : Nat) (disk : Disk Block) : Inv (Sys.boot start size disk) := by
  refine ⟨?_, Nat.zero_le 3, ?_, .inl ⟨rfl, ?_, ?_⟩⟩
  · exact ⟨rfl, Nat.zero_le _, LogState.recorded_zero.width, rfl, List.nodup_nil,
      LogState.recorded_zero.u32⟩
  · intro op hOp
    cases hOp
  · exact Tally.zero fun _ => rfl
  · exact fun _ => .inl rfl

theorem Sys.Open.tasks_update {s : Sys} {t : Nat} {p : Phase} {C : Op → Prop} (hOpen : s.Open)
    (hCurrent : ∀ op, s.Current op → C op) (hNew : p = .idle ∨ ∃ op, p = .inOp op ∧ C op)
    (u : Nat) : update s.tasks t p u = .idle ∨ ∃ op, update s.tasks t p u = .inOp op ∧ C op := by
  by_cases hu : u = t
  · rw [hu, update_self]
    exact hNew
  · rw [update_of_ne hu]
    rcases hOpen.tasks u with hIdle | ⟨op, hOp, hCur⟩
    · exact .inl hIdle
    · exact .inr ⟨op, hOp, hCurrent op hCur⟩

/- The counters of the log are not part of the records. -/
theorem LogState.Recorded.counters (hRec : log.Recorded) (outstanding : Nat) (committing : Bool) :
    { log with
      outstanding := outstanding
      committing := committing : LogState }.Recorded :=
  { hRec with }

namespace Inv

variable {s : Sys} {t : Nat} {op : Op} {log : LogState}

theorem open_of_inOp (hInv : Inv s) (hTask : s.tasks t = .inOp op) :
    s.Open := by
  rcases hInv.mode with hOpen | ⟨c, hClosed⟩
  · exact hOpen
  · exfalso
    by_cases ht : t = c
    · have hClosing := hClosed.closing
      rw [← ht, hTask] at hClosing
      exact hClosing
    · rw [hClosed.others t ht] at hTask
      cases hTask

/- A task that is neither idle nor in an operation is the
   one that commits. -/
theorem closed_of (hInv : Inv s) (hIdle : s.tasks t ≠ .idle) (hOp : ∀ op, s.tasks t ≠ .inOp op) :
    s.Closed t := by
  rcases hInv.mode with hOpen | ⟨c, hClosed⟩
  · exfalso
    rcases hOpen.tasks t with hTask | ⟨op, hTask, -⟩
    · exact hIdle hTask
    · exact hOp op hTask
  · by_cases ht : t = c
    · rw [ht]
      exact hClosed
    · exact (hIdle (hClosed.others t ht)).elim

theorem current_of_inOp (hInv : Inv s) (hTask : s.tasks t = .inOp op) : s.Current op := by
  rcases (hInv.open_of_inOp hTask).tasks t with hIdle | ⟨op', hOp, hCurrent⟩
  · rw [hTask] at hIdle
    cases hIdle
  · rw [hTask] at hOp
    cases hOp
    exact hCurrent

theorem pos_of_inOp (hInv : Inv s) (hTask : s.tasks t = .inOp op) : 0 < s.log.outstanding := by
  have hLe := (hInv.open_of_inOp hTask).count.weight_le t
  rw [hTask] at hLe
  exact hLe

-- Every Action Keeps the Invariant

theorem beginOp (hInv : Inv s) (hTask : s.tasks t = .idle) (hBegin : Log.beginOp s.log = some log) :
    Inv { s.setTask t (.inOp ⟨s.commits.length, ∅⟩) with
      log := log } := by
  rcases beginOp_eq_some hInv.few hInv.recorded.room hBegin with ⟨hQuiet, hRoom, rfl⟩
  rcases hInv.mode with hOpen | ⟨c, hClosed⟩
  · refine ⟨hInv.recorded.counters _ _, ?_, hInv.together, .inl ⟨hQuiet, ?_, ?_⟩⟩
    · simp only [LOGSIZE, MAXOPBLOCKS] at hRoom
      show s.log.outstanding + 1 ≤ 3
      omega
    · have hCount := hOpen.count.update t (.inOp ⟨s.commits.length, ∅⟩)
      rw [hTask] at hCount
      exact hCount
    · apply hOpen.tasks_update fun o ho => ho
      exact .inr ⟨_, rfl, rfl, by simp⟩
  · rw [hClosed.committing] at hQuiet
    cases hQuiet

theorem logWrite {b : UInt32} {data : Block} (hInv : Inv s) (hTask : s.tasks t = .inOp op)
    (hWrite : Log.logWrite s.log ⟨b.toNat, data⟩ = some log) :
    Inv { s.setTask t (.inOp { op with
        logged := insert b.toNat op.logged }) with
      log := log } := by
  have hOpen := hInv.open_of_inOp hTask
  rcases logWrite_eq_some hInv.recorded hWrite with ⟨hOut, hCom, hIn, hKeep, -⟩
  -- what was current for the old log is so for the new one
  have hCurrent : ∀ o, s.Current o → o.commitNo = s.commits.length ∧
        ∀ c ∈ o.logged, c ∈ log.recordedBlocks :=
    fun o ho => ⟨ho.1, fun c hc => hKeep c (ho.2 c hc)⟩
  refine ⟨logWrite_recorded hInv.recorded b.toNat_lt hWrite, ?_, ?_, .inl ⟨?_, ?_, ?_⟩⟩
  · show log.outstanding ≤ 3
    rw [hOut]
    exact hInv.few
  · intro done hDone
    rcases hInv.together done hDone with hPast | hNow
    · exact .inl hPast
    · exact .inr (hCurrent done hNow)
  · exact hCom.trans hOpen.quiet
  · have hCount := hOpen.count.update t (.inOp { op with logged := insert b.toNat op.logged })
    have hPos := hInv.pos_of_inOp hTask
    rw [hTask] at hCount
    simp only [Phase.opens, Nat.sub_add_cancel hPos] at hCount
    show Tally Phase.opens _ log.outstanding
    rw [hOut]
    exact hCount
  · apply hOpen.tasks_update hCurrent
    rcases hCurrent op (hInv.current_of_inOp hTask) with ⟨hNo, hLogged⟩
    refine .inr ⟨_, rfl, hNo, ?_⟩
    intro c hc
    rcases Finset.mem_insert.mp hc with hEq | hOld
    · rw [hEq]
      exact hIn
    · exact hLogged c hOld

theorem store (hInv : Inv s) (hTask : s.tasks t = .inOp op) (i : Nat) (data : Block) :
    Inv { s with log := s.log.store i data } := by
  have hOpen := hInv.open_of_inOp hTask
  exact ⟨hInv.recorded.store i data, hInv.few, hInv.together, .inl { hOpen with }⟩

theorem endOp (hInv : Inv s) (hTask : s.tasks t = .inOp op) {doCommit : Bool}
    (hEnd : Log.endOp s.log = some (doCommit, log)) : Inv { s.setTask t
        (if doCommit then .ending else .idle) with
      log := log
      ended := op :: s.ended } := by
  have hOpen := hInv.open_of_inOp hTask
  have hPos := hInv.pos_of_inOp hTask
  have hFew := hInv.few
  rw [endOp_eq hPos hFew hOpen.quiet] at hEnd
  rcases Prod.mk.inj (Option.some.inj hEnd) with ⟨hDo, rfl⟩
  refine ⟨hInv.recorded.counters _ _, ?_, ?_, ?_⟩
  · show s.log.outstanding - 1 ≤ 3
    omega
  · intro done hDone
    rcases List.mem_cons.mp hDone with rfl | hOld
    · exact .inr (hInv.current_of_inOp hTask)
    · exact hInv.together done hOld
  · cases doCommit with
    | false =>
      have hMore : ¬ s.log.outstanding = 1 := by simpa using hDo
      left
      refine ⟨hDo, ?_, ?_⟩
      · have hCount := hOpen.count.update t .idle
        rw [hTask] at hCount
        exact hCount
      · exact hOpen.tasks_update (fun o ho => ho) (.inl rfl)
    | true =>
      have hLast : s.log.outstanding = 1 := by simpa using hDo
      right
      refine ⟨t, hDo, ?_, ?_, ?_⟩
      · show s.log.outstanding - 1 = 0
        omega
      · -- this operation was the only one
        intro u hu
        rcases hOpen.tasks u with hIdle | ⟨o, hOp, -⟩
        · simpa [Sys.setTask, hu] using hIdle
        · have hTwo := hOpen.count.two_weights_le hu
          rw [hOp, hTask, hLast] at hTwo
          simp [Phase.opens] at hTwo
      · simp [Sys.setTask, Sys.Closing]

theorem snapshot (hInv : Inv s) (hTask : s.tasks t = .ending) :
    Inv { s.setTask t (.commit (commit s.log)) with
      commits := s.commits ++ [s.log.recordedBlocks] } := by
  have hClosed := hInv.closed_of (t := t) (by simp [hTask]) (by simp [hTask])
  have hAll : ∀ op ∈ s.ended, ∃ blocks, (s.commits ++ [s.log.recordedBlocks])[op.commitNo]? =
            some blocks ∧ ∀ b ∈ op.logged, b ∈ blocks := by
    intro done hDone
    rcases hInv.together done hDone with hPast | hNow
    · rcases hPast with ⟨blocks, hGet, hIn⟩
      have hLt := (List.getElem?_eq_some_iff.mp hGet).1
      refine ⟨blocks, ?_, hIn⟩
      rw [List.getElem?_append_left hLt]
      exact hGet
    · refine ⟨s.log.recordedBlocks, ?_, hNow.2⟩
      rw [hNow.1]
      simp
  refine ⟨hInv.recorded, hInv.few, fun op hOp => .inl (hAll op hOp),
    .inr ⟨t, hClosed.committing, hClosed.outstanding, ?_, ?_⟩⟩
  · intro u hu
    simpa [Sys.setTask, hu] using hClosed.others u hu
  · simp only [Sys.setTask, update_self]
    exact ⟨commit_returns hInv.recorded, hAll⟩

theorem commitIo {rest rest' : DiskProg Block LogState} (hInv : Inv s)
    (hTask : s.tasks t = .commit rest) (hReturns : rest.Returns LogState.Emptied →
      rest'.Returns LogState.Emptied) (disk : Disk Block) :
    Inv { s.setTask t (.commit rest') with
      disk := disk } := by
  have hClosed := hInv.closed_of (t := t) (by simp [hTask]) (by simp [hTask])
  have hClosing := hClosed.closing
  rw [hTask] at hClosing
  refine { hInv with mode := .inr ⟨t, hClosed.committing, hClosed.outstanding, ?_, ?_⟩ }
  · intro u hu
    simpa [Sys.setTask, hu] using hClosed.others u hu
  · simp only [Sys.setTask, update_self]
    exact ⟨hReturns hClosing.1, hClosing.2⟩

theorem commitEnd (hInv : Inv s) (hTask : s.tasks t = .commit (.ret log)) :
    Inv { s.setTask t .committed with
      log :=
        { s.log with
          lh := log.lh
          pinned := log.pinned } } := by
  have hClosed := hInv.closed_of (t := t) (by simp [hTask]) (by simp [hTask])
  have hClosing := hClosed.closing
  rw [hTask] at hClosing
  rcases hClosing with ⟨hEmpty, hAll⟩
  refine ⟨?_, hInv.few, fun op hOp => .inl (hAll op hOp),
    .inr ⟨t, hClosed.committing, hClosed.outstanding, ?_, ?_⟩⟩
  · exact LogState.Emptied.recorded hEmpty
  · intro u hu
    simpa [Sys.setTask, hu] using hClosed.others u hu
  · simp only [Sys.setTask, update_self]
    exact hAll

theorem release (hInv : Inv s) (hTask : s.tasks t = .committed) :
    Inv { s.setTask t .idle with
      log := { s.log with committing := false } } := by
  have hClosed := hInv.closed_of (t := t) (by simp [hTask]) (by simp [hTask])
  have hIdle : ∀ u, update s.tasks t .idle u = .idle := by
    intro u
    by_cases hu : u = t
    · simp [hu]
    · simpa [hu] using hClosed.others u hu
  refine ⟨hInv.recorded.counters _ _, hInv.few, hInv.together, .inl ⟨rfl, ?_, ?_⟩⟩
  · show Tally Phase.opens _ s.log.outstanding
    rw [hClosed.outstanding]
    apply Tally.zero
    intro u
    simp only [Sys.setTask]
    rw [hIdle u]
    rfl
  · exact fun u => .inl (hIdle u)

end Inv

theorem inv_step {s s' : Sys} {act : Act} (hInv : Inv s) (hStep : s.step act = some s') :
    Inv s' := by
  cases move_of_step hStep with
  | beginOp hTask hBegin => exact hInv.beginOp hTask hBegin
  | logWrite hTask hWrite => exact hInv.logWrite hTask hWrite
  | store hTask => exact hInv.store hTask _ _
  | endOp hTask hEnd => exact hInv.endOp hTask hEnd
  | snapshot hTask => exact hInv.snapshot hTask
  | commitIo hTask hReturns => exact hInv.commitIo hTask (hReturns _) _
  | commitEnd hTask => exact hInv.commitEnd hTask
  | release hTask => exact hInv.release hTask

/- The states reached from an empty log. -/
def Reached (Ok : Sys → Act → Prop) (s : Sys) : Prop :=
  ∃ start size disk,
    Reach Sys.step Ok (Sys.boot start size disk) s

theorem inv_of_reached {Ok : Sys → Act → Prop} {s : Sys} (hReached : Reached Ok s) : Inv s := by
  rcases hReached with ⟨start, size, disk, hReach⟩
  exact hReach.invariant (fun _ _ _ hInv _ hStep => inv_step hInv hStep) (inv_boot start size disk)

-- Group Commit

def Act.IsLogWrite : Act → Prop
  | .logWrite _ _ _ => True
  | _ => False

/-
  What the log guarantees between any two actions.

  `exclusive`: during a commit no operation is outstanding
  and no `log_write` is performed.

  `distinct`, `pinned_length`, `pinned_block`: the header
  lists distinct blocks, and the pinned buffers are theirs.

  `endOp_ok`: an operation that calls `end_op` finds a
  positive count and no commit under way, so the assertion
  holds and the count does not wrap.

  `one_commit`: everything an ended operation logged is in the
  first commit started after its `begin_op`, or, if that one
  is still to come, recorded for it.
-/
structure GroupCommit (s : Sys) : Prop where
  exclusive : s.log.committing = true → s.log.outstanding = 0 ∧
      ∀ act s', act.IsLogWrite → s.step act ≠ some s'
  distinct : (s.log.lh.block.take s.log.lh.n).Nodup
  pinned_length : s.log.pinned.length = s.log.lh.n
  pinned_block : ∀ i, i < s.log.lh.n → s.log.pinned[i]?.map Buffer.blockNo = s.log.lh.block[i]?
  endOp_ok : ∀ t op, s.tasks t = .inOp op → 0 < s.log.outstanding ∧ s.log.committing = false ∧
      (s.step (.endOp t)).isSome
  one_commit : ∀ op ∈ s.ended, (∃ blocks, s.commits[op.commitNo]? = some blocks ∧
        ∀ b ∈ op.logged, b ∈ blocks) ∨ (op.commitNo = s.commits.length ∧ ∀ b ∈ op.logged,
          b ∈ s.log.lh.block.take s.log.lh.n)

/- Whatever the tasks do, in whatever order. -/
theorem groupCommit_of_reached {s : Sys} (hReached : Reached (fun _ _ => True) s) :
    GroupCommit s := by
  have hInv := inv_of_reached hReached
  have hRec := hInv.recorded
  constructor
  · intro hCommitting
    have hNone : ∀ t op, s.tasks t ≠ .inOp op := by
      intro t op hTask
      have hQuiet := (hInv.open_of_inOp hTask).quiet
      rw [hCommitting] at hQuiet
      cases hQuiet
    constructor
    · rcases hInv.mode with hOpen | ⟨t, hClosed⟩
      · rw [hOpen.quiet] at hCommitting
        cases hCommitting
      · exact hClosed.outstanding
    · intro act s' hWrite hStep
      cases move_of_step hStep with
      | logWrite hTask => exact hNone _ _ hTask
      | _ => exact hWrite
  · rw [hRec.blocks]
    exact hRec.distinct
  · exact hRec.count.symm
  · intro i hi
    rw [← List.getElem?_map, ← hRec.blocks, List.getElem?_take_of_lt hi]
  · intro t op hTask
    have hOpen := hInv.open_of_inOp hTask
    have hPos := hInv.pos_of_inOp hTask
    refine ⟨hPos, hOpen.quiet, ?_⟩
    simp only [Sys.step, hTask]
    rw [endOp_eq hPos hInv.few hOpen.quiet]
    rfl
  · exact hInv.together

/- Two tasks that share a commit, one block in common. -/
def sharedCommit : List Act :=
  [.beginOp 0, .beginOp 1, .logWrite 0 50 Bytes.zero,
    .logWrite 1 50 Bytes.zero, .logWrite 1 51 Bytes.zero,
    .endOp 0, .endOp 1, .snapshot 1, .commitIo 1]

theorem groupCommit_of_reached_sharedCommit : ∃ s, run Sys.step (fun _ _ => True)
        (Sys.boot 2 31 fun _ => Bytes.zero) sharedCommit = some s ∧
      s.commits = [[50, 51]] ∧ GroupCommit s := by
  have hRun : ∃ s, run Sys.step (fun _ _ => True) (Sys.boot 2 31 fun _ => Bytes.zero)
        sharedCommit = some s ∧ s.commits = [[50, 51]] := ⟨_, rfl, rfl⟩
  rcases hRun with ⟨s, hRun, hCommits⟩
  exact ⟨s, hRun, hCommits, groupCommit_of_reached ⟨2, 31, _, reach_of_run hRun⟩⟩

-- The Reservation

def Phase.within (b : Nat) : Phase → Bool
  | .inOp op => (insert b op.logged).card ≤ MAXOPBLOCKS
  | _ => true

/- No operation logs more than `MAXOPBLOCKS` distinct blocks, each of them any number of times. -/
def Sys.withinBudget (s : Sys) : Act → Bool
  | .logWrite t b _ => (s.tasks t).within b.toNat
  | _ => true

def Phase.budget : Phase → Nat
  | .inOp op => MAXOPBLOCKS - op.logged.card
  | _ => 0

/- The log has room for the budgets of all operations. -/
def Sys.Roomy (s : Sys) : Prop := ∃ r, Tally Phase.budget s.tasks r ∧ s.log.lh.n + r ≤ LOGSIZE

theorem Phase.budget_le (p : Phase) : p.budget ≤ MAXOPBLOCKS * p.opens := by
  cases p with
  | inOp op => exact Nat.sub_le _ _
  | idle | ending | commit rest | committed => exact Nat.zero_le _

namespace Sys.Roomy

variable {s : Sys} {t : Nat} {op : Op} {log : LogState}

/- A task without a budget takes nothing from the others. -/
theorem setTask (hRoomy : s.Roomy) {p : Phase} (hZero : p.budget = 0)
    (hLe : log.lh.n ≤ s.log.lh.n) : ∃ r, Tally Phase.budget (update s.tasks t p) r ∧
      log.lh.n + r ≤ LOGSIZE := by
  rcases hRoomy with ⟨r, hTally, hRoom⟩
  refine ⟨_, hTally.update t p, ?_⟩
  rw [hZero]
  omega

theorem beginOp (hInv : Inv s) (hRoomy : s.Roomy) (hTask : s.tasks t = .idle)
    (hBegin : Log.beginOp s.log = some log) : Sys.Roomy { s.setTask t
        (.inOp ⟨s.commits.length, ∅⟩) with log := log } := by
  rcases beginOp_eq_some hInv.few hInv.recorded.room hBegin with ⟨hQuiet, hAdmit, rfl⟩
  rcases hRoomy with ⟨r, hTally, -⟩
  refine ⟨_, hTally.update t (.inOp ⟨s.commits.length, ∅⟩), ?_⟩
  have hBudgets : r ≤ MAXOPBLOCKS * s.log.outstanding := by
    rcases hInv.mode with hOpen | ⟨c, hClosed⟩
    · exact hTally.le_mul hOpen.count fun u => (s.tasks u).budget_le
    · rw [hClosed.committing] at hQuiet
      cases hQuiet
  rw [hTask]
  simp only [Phase.budget, Finset.card_empty, MAXOPBLOCKS, LOGSIZE] at hAdmit hBudgets ⊢
  omega

/- A new block of the log uses up one of the budget. -/
theorem logWrite {b : UInt32} {data : Block} (hInv : Inv s) (hRoomy : s.Roomy)
    (hTask : s.tasks t = .inOp op) (hBudget : (insert b.toNat op.logged).card ≤ MAXOPBLOCKS)
    (hWrite : Log.logWrite s.log ⟨b.toNat, data⟩ = some log) :
    Sys.Roomy { s.setTask t (.inOp { op with
        logged := insert b.toNat op.logged }) with
      log := log } := by
  rcases hRoomy with ⟨r, hTally, hRoom⟩
  refine ⟨_, hTally.update t (.inOp { op with
    logged := insert b.toNat op.logged }), ?_⟩
  have hLe := hTally.weight_le t
  have hGrow := Finset.card_le_card (Finset.subset_insert b.toNat op.logged)
  have hCurrent := hInv.current_of_inOp hTask
  rcases logWrite_eq_some hInv.recorded hWrite with ⟨-, -, -, -, hSame | ⟨hMore, hNew⟩⟩
  · rw [hTask] at hLe ⊢
    simp only [Phase.budget] at hLe ⊢
    rw [hSame]
    omega
  · have hNotMem : b.toNat ∉ op.logged := fun hMem => hNew (hCurrent.2 _ hMem)
    have hCard := Finset.card_insert_of_notMem hNotMem
    rw [hTask] at hLe ⊢
    simp only [Phase.budget] at hLe ⊢
    rw [hMore]
    omega

end Sys.Roomy

theorem roomy_step {s s' : Sys} {act : Act} (hInv : Inv s) (hRoomy : s.Roomy)
    (hOk : s.withinBudget act = true) (hStep : s.step act = some s') :
    s'.Roomy := by
  cases move_of_step hStep with
  | beginOp hTask hBegin => exact hRoomy.beginOp hInv hTask hBegin
  | logWrite hTask hWrite =>
    simp only [Sys.withinBudget, hTask, Phase.within, decide_eq_true_eq] at hOk
    exact hRoomy.logWrite hInv hTask hOk hWrite
  | store hTask => exact hRoomy
  | endOp hTask hEnd =>
    have hOpen := hInv.open_of_inOp hTask
    rw [endOp_eq (hInv.pos_of_inOp hTask) hInv.few hOpen.quiet] at hEnd
    rcases Prod.mk.inj (Option.some.inj hEnd) with ⟨-, rfl⟩
    refine hRoomy.setTask ?_ le_rfl
    split <;> rfl
  | snapshot | commitIo | release => exact hRoomy.setTask rfl le_rfl
  | @commitEnd t log hTask =>
    have hClosing := (hInv.closed_of (t := t) (by simp [hTask]) (by simp [hTask])).closing
    rw [hTask] at hClosing
    exact hRoomy.setTask rfl (hClosing.1.1.trans_le (Nat.zero_le _))

theorem roomy_of_reached {s : Sys} (hReached : Reached (fun m act => m.withinBudget act) s) :
    s.Roomy := by
  rcases hReached with ⟨start, size, disk, hReach⟩
  have hBoot : Inv (Sys.boot start size disk) ∧ (Sys.boot start size disk).Roomy :=
    ⟨inv_boot start size disk, 0, Tally.zero fun _ => rfl, Nat.zero_le _⟩
  have hBoth := hReach.invariant (I := fun m => Inv m ∧ m.Roomy) ?_ hBoot
  · exact hBoth.2
  · intro m act m' hm hOk hStep
    exact ⟨inv_step hm.1 hStep, roomy_step hm.1 hm.2 hOk hStep⟩

/-
  In every run of operations within their budgets, a
  `log_write` within the budget of its operation meets its
  assertions exactly if its block is new to the log or the log
  is not full to the last slot.
-/
theorem logWrite_isSome_iff_of_reached {s : Sys} {t : Nat} {op : Op} {b : UInt32} {data : Block}
    (hReached : Reached (fun m act => m.withinBudget act) s) (hTask : s.tasks t = .inOp op)
    (hBudget : (insert b.toNat op.logged).card ≤ MAXOPBLOCKS) :
    (logWrite s.log ⟨b.toNat, data⟩).isSome ↔ b.toNat ∉ s.log.lh.block.take s.log.lh.n ∨
        s.log.lh.n < LOGSIZE := by
  have hInv := inv_of_reached hReached
  have hPos := hInv.pos_of_inOp hTask
  have hNonzero : s.log.outstanding ≠ 0 := by omega
  constructor
  · intro hSome
    right
    unfold logWrite at hSome
    rw [if_neg hNonzero] at hSome
    split at hSome
    · simp at hSome
    · omega
  · intro hCond
    have hRoom : s.log.lh.n < LOGSIZE := by
      rcases hCond with hNew | hRoom
      · rcases roomy_of_reached hReached with ⟨r, hTally, hFits⟩
        have hLe := hTally.weight_le t
        have hNotMem : b.toNat ∉ op.logged := fun hMem =>
          hNew ((hInv.current_of_inOp hTask).2 _ hMem)
        rw [Finset.card_insert_of_notMem hNotMem] at hBudget
        rw [hTask] at hLe
        simp only [Phase.budget] at hLe
        omega
      · exact hRoom
    unfold logWrite
    rw [if_neg hNonzero, if_neg (by omega)]
    split <;> rfl

/- The log holds three blocks of two operations, and one of them logs a block of the other. -/
theorem logWrite_isSome_iff_of_reached_absorbs :
    ∃ s, Reached (fun m act => m.withinBudget act) s ∧ s.log.lh.n = 3 ∧
      51 ∈ s.log.lh.block.take s.log.lh.n ∧ (logWrite s.log ⟨51, Bytes.zero⟩).isSome := by
  have hRun : (run Sys.step (fun m act => m.withinBudget act) (Sys.boot 2 31 fun _ => Bytes.zero)
      [.beginOp 0, .beginOp 1, .logWrite 0 50 Bytes.zero, .logWrite 1 51 Bytes.zero,
        .logWrite 0 52 Bytes.zero]).any (fun s => (s.tasks 0).opens == 1 && (s.tasks 0).within 51 &&
          decide (s.log.lh.n = 3 ∧ 51 ∈ s.log.lh.block.take s.log.lh.n)) = true := by
    decide +kernel
  rcases exists_reach hRun with ⟨s, hReach, hTest⟩
  simp only [Bool.and_eq_true, beq_iff_eq, decide_eq_true_eq] at hTest
  rcases hTest with ⟨⟨hOpen, hWithin⟩, hThree, hIn⟩
  have hReached : Reached (fun m act => m.withinBudget act) s := ⟨2, 31, _, hReach⟩
  refine ⟨s, hReached, hThree, hIn, ?_⟩
  cases hTask : s.tasks 0 with
  | inOp op =>
    rw [hTask] at hWithin
    have hBudget : (insert (51 : UInt32).toNat op.logged).card ≤ MAXOPBLOCKS :=
      of_decide_eq_true hWithin
    refine (logWrite_isSome_iff_of_reached hReached hTask hBudget).mpr (.inr ?_)
    rw [hThree]
    decide
  | idle | ending | commit rest | committed => simp [hTask, Phase.opens] at hOpen

/- Three operations that fill the log, ten blocks each. -/
def fillLog : List Act :=
  [.beginOp 0, .beginOp 1, .beginOp 2] ++ (List.range LOGSIZE).map fun i =>
    .logWrite (i / MAXOPBLOCKS) (UInt32.ofNat (50 + i)) Bytes.zero

/-
  With the log filled by three operations within their
  budgets, the first of them logs its first block once more
  and fails the assertion.
-/
theorem logWrite_eq_none_fillLog : ∃ s, Reached (fun m act => m.withinBudget act) s ∧
      (s.tasks 0).opens = 1 ∧ (s.tasks 0).within 50 = true ∧ 50 ∈ s.log.lh.block.take s.log.lh.n ∧
      logWrite s.log ⟨50, Bytes.zero⟩ = none := by
  have hRun : (run Sys.step (fun m act => m.withinBudget act)
      (Sys.boot 2 31 fun _ => Bytes.zero) fillLog).any (fun s => (s.tasks 0).opens == 1 &&
          (s.tasks 0).within 50 && decide (50 ∈ s.log.lh.block.take s.log.lh.n) &&
          (logWrite s.log ⟨50, Bytes.zero⟩).isNone) = true := by decide +kernel
  rcases exists_reach hRun with ⟨s, hReach, hTest⟩
  simp only [Bool.and_eq_true, beq_iff_eq, decide_eq_true_eq, Option.isNone_iff_eq_none] at hTest
  rcases hTest with ⟨⟨⟨hOpen, hWithin⟩, hIn⟩, hNone⟩
  exact ⟨s, ⟨2, 31, _, hReach⟩, hOpen, hWithin, hIn, hNone⟩

end Log

end PlayXv6
