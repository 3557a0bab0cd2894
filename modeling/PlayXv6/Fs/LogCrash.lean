import PlayXv6.Fs.Log

/-
  Crash atomicity of the write-ahead log.

  A commit passes through three kinds of disks: before the
  header write the home blocks are untouched and the log is
  empty; from the header write on the log holds the whole
  transaction and each home block is old or new; after the
  header is cleared every home block is new.  Recovery, cut
  anywhere and rerun any number of times, never leaves the
  side of the header write it started on.

  Main declarations:
    * `Logged`, `Installed`
    * `commit_crash_recover`
-/

namespace PlayXv6

open Function

variable {d d₀ : Disk Block} {log : LogState} {start b i : Nat}

namespace Log

open DiskProg

/- The header block or one of the `LOGSIZE` slots. -/
def InLogArea (start b : Nat) : Prop := b = start ∨ ∃ i, i < LOGSIZE ∧ b = logSlot start i

/- On a disk the log fits on, the area is an interval. -/
theorem inLogArea_iff (hFits : start + LOGSIZE < 2 ^ 32) : InLogArea start b ↔
      start ≤ b ∧ b ≤ start + LOGSIZE := by
  simp only [LOGSIZE] at hFits
  constructor
  · rintro (rfl | ⟨i, hi, rfl⟩)
    · omega
    · simp only [logSlot, LOGSIZE] at hi ⊢
      omega
  · rintro ⟨hLo, hHi⟩
    simp only [LOGSIZE] at hHi
    by_cases hb : b = start
    · exact Or.inl hb
    · refine Or.inr ⟨b - start - 1, ?_, ?_⟩
      · simp only [LOGSIZE]
        omega
      · simp only [logSlot]
        omega

theorem logSlot_ne_start (hi : i < LOGSIZE) : logSlot start i ≠ start := by
  simp only [logSlot, LOGSIZE] at hi ⊢
  omega

theorem logSlot_injective {j : Nat} (hi : i < LOGSIZE) (hj : j < LOGSIZE)
    (hEq : logSlot start i = logSlot start j) : i = j := by
  simp only [logSlot, LOGSIZE] at hi hj hEq
  omega

/- A recorded transaction whose homes are not log blocks. -/
structure LogState.Committable (log : LogState) : Prop extends log.Recorded where
  outside : ∀ buf ∈ log.pinned, ¬ InLogArea log.start buf.blockNo

def LogState.slotWrites (log : LogState) : List (Nat × Block) :=
  (List.range log.lh.n).map fun i => (logSlot log.start i, log.pinnedData i)

def LogState.headerWrite (log : LogState) : Nat × Block := (log.start, encodeHeader log.lh)

def LogState.homeWrites (log : LogState) : List (Nat × Block) :=
  log.pinned.map fun buf => (buf.blockNo, buf.data)

def LogState.clearWrite (log : LogState) : Nat × Block := (log.start, encodeHeader LogHeader.zero)

theorem writes_writeLogHeader (start : Nat) (lh : LogHeader) (d : Disk Block) :
    writes (writeLogHeader start lh) d = [(start, encodeHeader lh)] := rfl

theorem LogState.map_fst_homeWrites (log : LogState) : log.homeWrites.map Prod.fst =
      log.pinned.map Buffer.blockNo := by simp [LogState.homeWrites]

/- A commit issues its four groups of writes in order. -/
theorem writes_commit (hNonempty : log.lh.n ≠ 0) (d : Disk Block) :
    writes (commit log) d = log.slotWrites ++ log.headerWrite ::
          (log.homeWrites ++ [log.clearWrite]) := by
  have hSlots : ∀ d, writes (Prog.forEach (List.range log.lh.n) fun i =>
        (bread (logSlot log.start i)).bind fun _ => bwrite (logSlot log.start i)
            (log.pinnedData i)) d = log.slotWrites := by
    intro d
    apply writes_forEach (I := fun _ => True) _ trivial
    intro i _ d _
    exact ⟨rfl, trivial⟩
  have hHomes : ∀ d, writes (Prog.forEach log.pinned fun buf => bwrite buf.blockNo buf.data) d =
        log.homeWrites := by
    intro d
    apply writes_forEach (I := fun _ => True) _ trivial
    intro buf _ d _
    exact ⟨rfl, trivial⟩
  simp only [commit, if_neg hNonempty, Prog.bind_eq,
    Prog.pure_eq, writes_bind, hSlots, hHomes, clearLogHeader, writes_writeLogHeader]
  rfl

theorem writes_commit_empty (hEmpty : log.lh.n = 0) (d : Disk Block) :
    writes (commit log) d = [] := by simp [commit, hEmpty, writes]

-- Disk Phases

/- The count `read_log_header` finds on a disk. -/
def headerCount (start : Nat) (d : Disk Block) : Nat := (decodeHeader (d start)).n

/- Nothing outside the log area has changed. -/
structure Untouched (log : LogState) (d₀ d : Disk Block) : Prop where
  header : headerCount log.start d = 0
  others : ∀ b, ¬ InLogArea log.start b → d b = d₀ b

/- The log holds the transaction; homes are old or new. -/
structure Logged (log : LogState) (d₀ d : Disk Block) : Prop where
  header : d log.start = encodeHeader log.lh
  slots : ∀ i, i < log.lh.n → d (logSlot log.start i) = log.pinnedData i
  homes : ∀ buf ∈ log.pinned, d buf.blockNo = d₀ buf.blockNo ∨ d buf.blockNo = buf.data
  others : ∀ b, ¬ InLogArea log.start b → b ∉ log.pinned.map Buffer.blockNo → d b = d₀ b

/- The transaction is in place and the log is empty. -/
structure Installed (log : LogState) (d₀ d : Disk Block) : Prop where
  header : headerCount log.start d = 0
  homes : ∀ buf ∈ log.pinned, d buf.blockNo = buf.data
  others : ∀ b, ¬ InLogArea log.start b → b ∉ log.pinned.map Buffer.blockNo → d b = d₀ b

theorem headerCount_clear (log : LogState) (d : Disk Block) : headerCount log.start
      (update d log.start (encodeHeader LogHeader.zero)) = 0 := by
  rw [headerCount, update_self]
  exact decodeHeader_encodeHeader_n (by decide)

theorem not_inLogArea_ne_start (hOut : ¬ InLogArea start b) : b ≠ start := by
  intro hb
  exact hOut (Or.inl hb)

theorem not_inLogArea_ne_logSlot (hOut : ¬ InLogArea start b) (hi : i < LOGSIZE) :
    b ≠ logSlot start i := by
  intro hb
  exact hOut (Or.inr ⟨i, hi, hb⟩)

namespace LogState.Committable

variable {log : LogState}

theorem notMem_homes_of_inLogArea (hLog : log.Committable) (hIn : InLogArea log.start b) :
    b ∉ log.homeWrites.map Prod.fst := by
  rw [log.map_fst_homeWrites]
  intro hMem
  rcases List.mem_map.mp hMem with ⟨buf, hBuf, rfl⟩
  exact hLog.outside buf hBuf hIn

/- The home blocks the header records, by slot. -/
theorem block_getD (hLog : log.Committable) {buf : Buffer}
    (hGet : log.pinned[i]? = some buf) : log.lh.block.getD i 0 = buf.blockNo := by
  have hi : i < log.pinned.length := by
    rcases List.getElem?_eq_some_iff.mp hGet with ⟨hi, _⟩
    exact hi
  have hTake : (log.lh.block.take log.lh.n)[i]? = some buf.blockNo := by
    rw [hLog.blocks]
    simp [hGet]
  rw [List.getElem?_take_of_lt (by rw [hLog.count]; exact hi)] at hTake
  simp [List.getD, hTake]

end LogState.Committable

-- Flushing the Home Blocks

/-
  From a logged disk, a prefix of the flush and clear keeps
  the disk logged until the clear, which installs.
-/
theorem logged_flush_prefix (hLog : log.Committable) (hLogged : Logged log d₀ d) (k : Nat) :
    let d' := applyWrites ((log.homeWrites ++ [log.clearWrite]).take k) d
    Logged log d₀ d' ∨ Installed log d₀ d' := by
  intro d'
  by_cases hk : k ≤ log.homeWrites.length
  · left
    have hTake : (log.homeWrites ++ [log.clearWrite]).take k = log.homeWrites.take k :=
      List.take_append_of_le_length hk
    have hSub : ∀ b, b ∉ log.homeWrites.map Prod.fst → d' b = d b := by
      intro b hb
      simp only [d', hTake]
      apply applyWrites_of_notMem
      intro hMem
      rw [List.map_take] at hMem
      exact hb (List.mem_of_mem_take hMem)
    refine ⟨?_, ?_, ?_, ?_⟩
    · rw [hSub _ (hLog.notMem_homes_of_inLogArea (Or.inl rfl))]
      exact hLogged.header
    · intro i hi
      have hiLog : i < LOGSIZE := by
        have := hLog.room
        omega
      rw [hSub _ (hLog.notMem_homes_of_inLogArea (Or.inr ⟨i, hiLog, rfl⟩))]
      exact hLogged.slots i hi
    · intro buf hBuf
      have hCases := applyWrites_old_or_written (log.homeWrites.take k) d buf.blockNo
      simp only [d', hTake]
      rcases hCases with hOld | hNew
      · rw [hOld]
        exact hLogged.homes buf hBuf
      · right
        have hMem := List.mem_of_mem_take hNew
        rcases List.mem_map.mp hMem with ⟨buf', hBuf', hEq⟩
        rcases Prod.mk.inj hEq with ⟨hNo, hData⟩
        have hSame : buf' = buf := List.inj_on_of_nodup_map hLog.distinct hBuf' hBuf hNo
        rw [← hData, hSame]
    · intro b hOut hNot
      rw [hSub b (by
        rw [log.map_fst_homeWrites]
        exact hNot)]
      exact hLogged.others b hOut hNot
  · right
    have hTake : (log.homeWrites ++ [log.clearWrite]).take k =
          log.homeWrites ++ [log.clearWrite] := by
      apply List.take_of_length_le
      simp only [List.length_append, List.length_cons, List.length_nil]
      omega
    have hDisk : d' = update (applyWrites log.homeWrites d) log.start
        (encodeHeader LogHeader.zero) := by
      simp only [d', hTake, applyWrites_append]
      rfl
    refine ⟨?_, ?_, ?_⟩
    · rw [hDisk]
      exact headerCount_clear log _
    · intro buf hBuf
      have hNe := not_inLogArea_ne_start (hLog.outside buf hBuf)
      rw [hDisk, update_of_ne hNe]
      apply applyWrites_of_mem
      · rw [log.map_fst_homeWrites]
        exact hLog.distinct
      · exact List.mem_map.mpr ⟨buf, hBuf, rfl⟩
    · intro b hOut hNot
      rw [hDisk, update_of_ne (not_inLogArea_ne_start hOut)]
      rw [applyWrites_of_notMem (by
        rw [log.map_fst_homeWrites]
        exact hNot)]
      exact hLogged.others b hOut hNot

-- Crashes Inside a Commit

theorem untouched_of_slot_prefix (hLog : log.Committable)
    (hClean : headerCount log.start d = 0) (w : Nat) : Untouched log d
      (applyWrites (log.slotWrites.take w) d) := by
  have hSub : ∀ b, (∀ i, i < log.lh.n → b ≠ logSlot log.start i) →
        applyWrites (log.slotWrites.take w) d b = d b := by
    intro b hb
    apply applyWrites_of_notMem
    intro hMem
    rw [List.map_take] at hMem
    have hIn := List.mem_of_mem_take hMem
    simp only [LogState.slotWrites, List.map_map, List.mem_map, List.mem_range] at hIn
    rcases hIn with ⟨i, hi, hEq⟩
    exact hb i hi hEq.symm
  have hRoom := hLog.room
  constructor
  · rw [headerCount, hSub log.start]
    · exact hClean
    · intro i hi
      exact (logSlot_ne_start (by omega)).symm
  · intro b hOut
    apply hSub
    intro i hi
    exact not_inLogArea_ne_logSlot hOut (by omega)

theorem logged_of_header_write (hLog : log.Committable) (d : Disk Block) :
    Logged log d (update (applyWrites log.slotWrites d) log.start (encodeHeader log.lh)) := by
  have hRoom := hLog.room
  have hNodup : (log.slotWrites.map Prod.fst).Nodup := by
    simp only [LogState.slotWrites, List.map_map]
    apply List.Nodup.map_on _ List.nodup_range
    intro i hi j hj hEq
    have hi' := List.mem_range.mp hi
    have hj' := List.mem_range.mp hj
    exact logSlot_injective (by omega) (by omega) hEq
  have hKeep : ∀ b, ¬ InLogArea log.start b → update (applyWrites log.slotWrites d)
        log.start (encodeHeader log.lh) b = d b := by
    intro b hOut
    rw [update_of_ne (not_inLogArea_ne_start hOut)]
    apply applyWrites_of_notMem
    simp only [LogState.slotWrites, List.map_map, List.mem_map, List.mem_range, not_exists, not_and]
    intro i hi hEq
    exact not_inLogArea_ne_logSlot hOut (by omega) hEq.symm
  constructor
  · exact update_self ..
  · intro i hi
    rw [update_of_ne (logSlot_ne_start (by omega))]
    apply applyWrites_of_mem hNodup
    exact List.mem_map.mpr ⟨i, List.mem_range.mpr hi, rfl⟩
  · intro buf hBuf
    exact Or.inl (hKeep _ (hLog.outside buf hBuf))
  · intro b hOut _
    exact hKeep b hOut

theorem LogState.length_slotWrites (log : LogState) : log.slotWrites.length = log.lh.n := by
  simp [LogState.slotWrites]

/- The header write is the one after the slot writes. -/
theorem headerWrite_mem_take_iff (hLog : log.Committable)
    (hNonempty : log.lh.n ≠ 0) (d : Disk Block) (w : Nat) :
    log.headerWrite ∈ (writes (commit log) d).take w ↔ log.lh.n < w := by
  rw [writes_commit hNonempty]
  constructor
  · intro hMem
    by_contra hw
    rw [List.take_append_of_le_length (by rw [log.length_slotWrites]; omega)] at hMem
    have hSlot := List.mem_of_mem_take hMem
    simp only [LogState.slotWrites, List.mem_map, List.mem_range] at hSlot
    rcases hSlot with ⟨i, hi, hEq⟩
    have hRoom := hLog.room
    exact logSlot_ne_start (by omega) (Prod.mk.inj hEq).1
  · intro hw
    rw [List.take_append, log.length_slotWrites]
    apply List.mem_append_right
    obtain ⟨k, hk⟩ : ∃ k, w - log.lh.n = k + 1 := ⟨w - log.lh.n - 1, by omega⟩
    rw [hk, List.take_succ_cons]
    exact List.mem_cons_self

/- A crash inside a commit, by the side of step 2. -/
theorem crashAfter_commit (hLog : log.Committable)
    (hClean : headerCount log.start d = 0) (w : Nat) :
    let d' := crashAfter (commit log) w d
    (log.headerWrite ∈ (writes (commit log) d).take w → Logged log d d' ∨ Installed log d d') ∧
    (log.headerWrite ∉ (writes (commit log) d).take w → Untouched log d d') := by
  intro d'
  by_cases hEmpty : log.lh.n = 0
  · have hNone := writes_commit_empty hEmpty d
    have hSame : d' = d := by simp only [d', crashAfter_eq, hNone, List.take_nil, applyWrites_nil]
    constructor
    · intro hMem
      simp [hNone] at hMem
    · intro _
      rw [hSame]
      exact ⟨hClean, fun _ _ => rfl⟩
  · rw [headerWrite_mem_take_iff hLog hEmpty]
    have hWrites := writes_commit hEmpty d
    constructor
    · intro hw
      obtain ⟨k, hk⟩ : ∃ k, w - log.lh.n = k + 1 := ⟨w - log.lh.n - 1, by omega⟩
      have hTake : (writes (commit log) d).take w = log.slotWrites ++ log.headerWrite ::
              (log.homeWrites ++ [log.clearWrite]).take k := by
        rw [hWrites, List.take_append, log.length_slotWrites, hk, List.take_succ_cons,
          List.take_of_length_le (by rw [log.length_slotWrites]; omega)]
      simp only [d', crashAfter_eq, hTake, applyWrites_append]
      exact logged_flush_prefix hLog (logged_of_header_write hLog d) k
    · intro hw
      have hTake : (writes (commit log) d).take w = log.slotWrites.take w := by
        rw [hWrites]
        apply List.take_append_of_le_length
        rw [log.length_slotWrites]
        omega
      simp only [d', crashAfter_eq, hTake]
      exact untouched_of_slot_prefix hLog hClean w

-- Crashes Inside Recovery

theorem writes_recover_empty (hEmpty : headerCount start d = 0) :
    writes (recover start) d = [] := by
  have hRead : (decodeHeader (d start)).n = 0 := hEmpty
  simp [recover, readLogHeader, bread, writes, hRead]

/-
  From a logged disk recovery reissues the flush and clear of
  the commit: the slots it reads are outside the home blocks
  it writes, so they keep their contents while it runs.
-/
theorem writes_recover_logged (hLog : log.Committable) (hNonempty : log.lh.n ≠ 0)
    (hLogged : Logged log d₀ d) : writes (recover log.start) d =
      log.homeWrites ++ [log.clearWrite] := by
  have hRoom := hLog.room
  have hCount : (decodeHeader (d log.start)).n = log.lh.n := by
    rw [hLogged.header]
    exact decodeHeader_encodeHeader_n hRoom
  have hBlock : ∀ i buf, log.pinned[i]? = some buf → (decodeHeader (d log.start)).block.getD i 0 =
        buf.blockNo := by
    intro i buf hGet
    have hi : i < log.lh.n := by
      rcases List.getElem?_eq_some_iff.mp hGet with ⟨hi, _⟩
      rw [hLog.count]
      exact hi
    have hHome := hLog.block_getD hGet
    have hU32 := hLog.u32 buf (List.mem_of_getElem? hGet)
    rw [hLogged.header, decodeHeader_encodeHeader_block hRoom hi (by rw [hHome]; exact hU32), hHome]
  have hInstall : writes (installLogToHome log.start (decodeHeader (d log.start))) d =
        (List.range log.lh.n).map fun i => ((decodeHeader (d log.start)).block.getD i 0,
            log.pinnedData i) := by
    rw [installLogToHome, hCount]
    apply writes_forEach (I := fun d' => ∀ i, i < log.lh.n →
        d' (logSlot log.start i) = log.pinnedData i)
    · intro i hi d' hSlots
      have hi' := List.mem_range.mp hi
      have hGet : ∃ buf, log.pinned[i]? = some buf := by
        rw [hLog.count] at hi'
        exact ⟨_, List.getElem?_eq_getElem hi'⟩
      rcases hGet with ⟨buf, hGet⟩
      constructor
      · simp only [bread, bwrite, Prog.bind_eq,
          Prog.lift_bind, writes, hSlots i hi']
        rfl
      · intro j hj
        have hNe : logSlot log.start j ≠ (decodeHeader (d log.start)).block.getD i 0 := by
          rw [hBlock i buf hGet]
          exact (not_inLogArea_ne_logSlot (hLog.outside buf (List.mem_of_getElem? hGet))
            (by omega)).symm
        show update d' _ _ _ = _
        rw [update_of_ne hNe]
        exact hSlots j hj
    · exact hLogged.slots
  have hHomes : ((List.range log.lh.n).map fun i => ((decodeHeader (d log.start)).block.getD i 0,
            log.pinnedData i)) = log.homeWrites := by
    apply List.ext_getElem?
    intro i
    by_cases hi : i < log.pinned.length
    · have hGet := List.getElem?_eq_getElem hi
      simp only [LogState.homeWrites, List.getElem?_map, hGet, Option.map_some]
      rw [List.getElem?_range (by rw [hLog.count]; exact hi)]
      simp only [Option.map_some, hBlock i _ hGet, LogState.pinnedData, hGet, Option.getD_some]
    · rw [List.getElem?_eq_none, List.getElem?_eq_none]
      · simpa [LogState.homeWrites] using hi
      · simpa [hLog.count] using hi
  have hRead : (decodeHeader (d log.start)).n ≠ 0 := by
    rw [hCount]
    exact hNonempty
  have hRecover : writes (recover log.start) d = writes
    (installLogToHome log.start (decodeHeader (d log.start))) d ++ [log.clearWrite] := by
    simp only [recover, readLogHeader, bread, Prog.bind_eq, Prog.pure_eq, Prog.lift_bind,
      Prog.op_bind, Prog.ret_bind, writes, if_neg hRead, writes_bind]
    rfl
  rw [hRecover, hInstall, hHomes]

theorem untouched_crashAfter_recover (hUntouched : Untouched log d₀ d) (k : Nat) : Untouched log d₀
      (crashAfter (recover log.start) k d) := by
  rw [crashAfter_eq, writes_recover_empty hUntouched.header]
  simpa using hUntouched

/- A cut recovery stays on the committed side. -/
theorem committed_crashAfter_recover (hLog : log.Committable)
    (hNonempty : log.lh.n ≠ 0) (hSide : Logged log d₀ d ∨ Installed log d₀ d) (k : Nat) :
    let d' := crashAfter (recover log.start) k d
    Logged log d₀ d' ∨ Installed log d₀ d' := by
  intro d'
  rcases hSide with hLogged | hInstalled
  · simp only [d', crashAfter_eq, writes_recover_logged hLog hNonempty hLogged]
    exact logged_flush_prefix hLog hLogged k
  · right
    simp only [d', crashAfter_eq, writes_recover_empty hInstalled.header]
    simpa using hInstalled

/- A complete recovery installs a committed transaction. -/
theorem committed_eval_recover (hLog : log.Committable) (hNonempty : log.lh.n ≠ 0)
    (hSide : Logged log d₀ d ∨ Installed log d₀ d) :
    Installed log d₀ (eval (recover log.start) d).2 := by
  rcases hSide with hLogged | hInstalled
  · have hWrites := writes_recover_logged hLog hNonempty hLogged
    have hPrefix := logged_flush_prefix hLog hLogged (log.homeWrites ++ [log.clearWrite]).length
    rw [List.take_length] at hPrefix
    rw [eval_snd, hWrites]
    rcases hPrefix with hStill | hDone
    · -- the header of the final disk has been cleared
      exfalso
      have hHeader := hStill.header
      have hZero := headerCount_clear log (applyWrites log.homeWrites d)
      have hDisk : applyWrites (log.homeWrites ++ [log.clearWrite]) d = update
              (applyWrites log.homeWrites d) log.start (encodeHeader LogHeader.zero) := by
        rw [applyWrites_append]
        rfl
      rw [hDisk] at hHeader
      rw [headerCount, hHeader, decodeHeader_encodeHeader_n hLog.room] at hZero
      exact hNonempty hZero
    · exact hDone
  · rw [eval_snd, writes_recover_empty hInstalled.header]
    exact hInstalled

-- Crash Atomicity

def crashRecoveries (start : Nat) (cuts : List Nat) (d : Disk Block) : Disk Block :=
  cuts.foldl (fun d k => crashAfter (recover start) k d) d

/-
  Cut a commit anywhere, cut any number of recoveries
  anywhere, then let one recovery finish: the home blocks
  are all new when the header write of step 2 reached the
  disk and all old otherwise, no other block outside the log
  changed, and the log is empty.
-/
theorem commit_crash_recover {log : LogState} (hLog : log.Committable) {d : Disk Block}
    (hClean : headerCount log.start d = 0) (w : Nat) (cuts : List Nat) :
    let issued := (writes (commit log) d).take w
    let d' := (eval (recover log.start) (crashRecoveries log.start cuts
        (crashAfter (commit log) w d))).2
    (log.headerWrite ∈ issued → ∀ buf ∈ log.pinned, d' buf.blockNo = buf.data) ∧
    (log.headerWrite ∉ issued → ∀ buf ∈ log.pinned, d' buf.blockNo = d buf.blockNo) ∧
    (∀ b, ¬ InLogArea log.start b → b ∉ log.pinned.map Buffer.blockNo → d' b = d b) ∧
    headerCount log.start d' = 0 := by
  intro issued d'
  rcases crashAfter_commit hLog hClean w with ⟨hAfter, hBefore⟩
  by_cases hHeader : log.headerWrite ∈ issued
  · have hNonempty : log.lh.n ≠ 0 := by
      intro hEmpty
      simp [issued, writes_commit_empty hEmpty] at hHeader
    have hCuts : ∀ (cuts : List Nat) (d₁ : Disk Block), Logged log d d₁ ∨ Installed log d d₁ →
          Logged log d (crashRecoveries log.start cuts d₁) ∨ Installed log d
              (crashRecoveries log.start cuts d₁) := by
      intro cuts
      induction cuts with
      | nil => exact fun _ hSide => hSide
      | cons k cuts ih =>
        intro d₁ hSide
        exact ih _ (committed_crashAfter_recover hLog hNonempty hSide k)
    have hDone : Installed log d d' := committed_eval_recover hLog hNonempty
        (hCuts cuts _ (hAfter hHeader))
    exact ⟨fun _ => hDone.homes, fun hNot => absurd hHeader hNot, hDone.others, hDone.header⟩
  · have hCuts : ∀ (cuts : List Nat) (d₁ : Disk Block), Untouched log d d₁ → Untouched log d
            (crashRecoveries log.start cuts d₁) := by
      intro cuts
      induction cuts with
      | nil => exact fun _ hSide => hSide
      | cons k cuts ih =>
        intro d₁ hSide
        exact ih _ (untouched_crashAfter_recover hSide k)
    have hStill := hCuts cuts _ (hBefore hHeader)
    have hDone : Untouched log d d' := by
      simp only [d', eval_snd, writes_recover_empty hStill.header]
      simpa using hStill
    exact ⟨fun hMem => absurd hMem hHeader, fun _ buf hBuf =>
        hDone.others _ (hLog.outside buf hBuf),
      fun b hOut _ => hDone.others b hOut, hDone.header⟩

/- A log at block 2 with block 40 recorded. -/
def sampleLog : LogState :=
  { LogState.zero with
    start := 2
    lh := { n := 1, block := (List.replicate LOGSIZE 0).set 0 40 }
    pinned := [{ blockNo := 40, data := Bytes.ofFn fun _ => 7 }] }

theorem sampleLog_committable : sampleLog.Committable where
  count := rfl
  room := by decide
  width := by decide
  blocks := by decide
  distinct := by decide
  u32 := by simp [sampleLog]
  outside := by
    intro buf hBuf
    have hNo : buf.blockNo = 40 := by rw [List.mem_singleton.mp hBuf]
    rw [hNo, inLogArea_iff (by decide)]
    decide

/-
  The transaction of `sampleLog` survives a crash right after
  its header write and a recovery cut after one write.
-/
theorem commit_crash_recover_sampleLog : (eval (recover 2) (crashRecoveries 2 [1]
        (crashAfter (commit sampleLog) 2 fun _ => Bytes.zero))).2 40 = Bytes.ofFn fun _ => 7 := by
  have hClean : headerCount sampleLog.start (fun _ => Bytes.zero) = 0 := by
    simp [headerCount, decodeHeader]
  have hHeader : sampleLog.headerWrite ∈ (writes (commit sampleLog) fun _ => Bytes.zero).take
        2 := by
    rw [headerWrite_mem_take_iff sampleLog_committable (by decide)]
    decide
  exact (commit_crash_recover sampleLog_committable hClean 2 [1]).1 hHeader _ List.mem_cons_self

end Log

end PlayXv6
