import PlayXv6.Lib.Crash
import PlayXv6.Fs.Layout

/-
  The write-ahead log: header codec, commit and recovery.

  `commit` copies the pinned buffers into the log slots,
  writes the header, flushes the buffers to their home
  blocks and clears the header.  `recover` replays a log
  whose header records blocks.  Both are disk programs: a
  `bread` is a read of the device, since every buffer these
  functions change is flushed before it is released, and a
  `bwrite` is one atomic write.

  Main declarations:
    * `LogHeader`, `LogState`
    * `logWrite_recorded`
-/

namespace PlayXv6

namespace Log

-- Log State

/- Max blocks any one file-system operation may write. -/
abbrev MAXOPBLOCKS : Nat := 10

/- The number of recorded blocks and their home blocks. -/
structure LogHeader where
  n : Nat
  block : List Nat

def LogHeader.zero : LogHeader where
  n := 0
  block := List.replicate LOGSIZE 0

/- A cached block: its number and its contents. -/
structure Buffer where
  blockNo : Nat
  data : Block

structure LogState where
  start : Nat
  size : Nat
  outstanding : Nat
  committing : Bool
  initialized : Bool
  lh : LogHeader
  pinned : List Buffer

def LogState.zero : LogState where
  start := 0
  size := 0
  outstanding := 0
  committing := false
  initialized := false
  lh := LogHeader.zero
  pinned := []

/-
  Record a modified buffer in the current transaction; a
  block that is already recorded is absorbed.  `none` is a
  failed assertion.
-/
def logWrite (log : LogState) (buf : Buffer) : Option LogState :=
  if log.outstanding = 0 then
    none
  else if LOGSIZE ≤ log.lh.n then
    none
  else if buf.blockNo ∈ log.lh.block.take log.lh.n then
    some log
  else
    some { log with
      lh :=
        { n := log.lh.n + 1
          block := log.lh.block.set log.lh.n buf.blockNo }
      pinned := log.pinned ++ [buf] }

/-
  The header and the pinned buffers agree: the recorded home
  blocks are the distinct 32-bit numbers of the pinned
  buffers, in order.
-/
structure LogState.Recorded (log : LogState) : Prop where
  count : log.lh.n = log.pinned.length
  room : log.lh.n ≤ LOGSIZE
  width : log.lh.block.length = LOGSIZE
  blocks : log.lh.block.take log.lh.n = log.pinned.map Buffer.blockNo
  distinct : (log.pinned.map Buffer.blockNo).Nodup
  u32 : ∀ buf ∈ log.pinned, buf.blockNo < 2 ^ 32

theorem LogState.recorded_zero : LogState.zero.Recorded where
  count := rfl
  room := by decide
  width := by simp [LogState.zero, LogHeader.zero]
  blocks := rfl
  distinct := List.nodup_nil
  u32 := by simp [LogState.zero]

theorem take_succ_set {block : List Nat} {n : Nat} (b : Nat) (hLt : n < block.length) :
    (block.set n b).take (n + 1) = block.take n ++ [b] := by
  rw [List.take_add_one, List.take_set_of_le le_rfl, List.getElem?_set_self hLt]
  rfl

/- Recording a buffer keeps the two in agreement. -/
theorem logWrite_recorded {log log' : LogState} {buf : Buffer} (hRec : log.Recorded)
    (hU32 : buf.blockNo < 2 ^ 32) (hWrite : logWrite log buf = some log') :
    log'.Recorded := by
  unfold logWrite at hWrite
  split at hWrite
  · simp at hWrite
  split at hWrite
  · simp at hWrite
  rename_i hRoom
  split at hWrite
  · rw [← Option.some.inj hWrite]
    exact hRec
  · rename_i hNew
    rw [← Option.some.inj hWrite]
    have hLt : log.lh.n < log.lh.block.length := by
      rw [hRec.width]
      omega
    have hTake := take_succ_set buf.blockNo hLt
    have hNotMem : buf.blockNo ∉ log.pinned.map Buffer.blockNo := by
      rw [← hRec.blocks]
      exact hNew
    constructor
    · simp [hRec.count]
    · show log.lh.n + 1 ≤ LOGSIZE
      omega
    · simp [hRec.width]
    · simp only [List.map_append, List.map_cons, List.map_nil]
      rw [hTake, hRec.blocks]
    · simp only [List.map_append, List.map_cons, List.map_nil]
      exact hRec.distinct.append (List.nodup_singleton _) (by simpa using hNotMem)
    · intro other hOther
      rcases List.mem_append.mp hOther with hOld | hLast
      · exact hRec.u32 other hOld
      · rw [List.mem_singleton.mp hLast]
        exact hU32

-- Header Codec

def encodeHeader (lh : LogHeader) : Block :=
  (List.range lh.n).foldl
    (fun dst i => dst.putU32 (4 + i * 4) (lh.block.getD i 0))
    (Bytes.zero.putU32 0 lh.n)

def decodeHeader (data : Block) : LogHeader :=
  let n := min (data.u32At 0) LOGSIZE
  { n := n
    block := (List.range LOGSIZE).map fun i => if i < n then data.u32At (4 + i * 4) else 0 }

/- Storing entries from offset 4 on keeps the count. -/
theorem u32At_zero_foldl_putU32 (v : Nat → Nat) (base : Block) (m : Nat) : ((List.range m).foldl
        (fun (dst : Block) i => dst.putU32 (4 + i * 4) (v i)) base).u32At 0 = base.u32At 0 := by
  induction m with
  | zero => rfl
  | succ m ih =>
    rw [List.range_succ, List.foldl_append]
    simp only [List.foldl_cons, List.foldl_nil]
    rw [Bytes.u32At_putU32_disjoint (by omega), ih]

/- Every stored entry is read back from its own offset. -/
theorem u32At_entry_foldl_putU32 (v : Nat → Nat) (base : Block) {m i : Nat} (hm : m ≤ LOGSIZE)
    (hi : i < m) : ((List.range m).foldl (fun (dst : Block) i =>
          dst.putU32 (4 + i * 4) (v i)) base).u32At
        (4 + i * 4) =
      v i % 2 ^ 32 := by
  induction m with
  | zero => omega
  | succ m ih =>
    rw [List.range_succ, List.foldl_append]
    simp only [List.foldl_cons, List.foldl_nil]
    by_cases hLast : i = m
    · subst hLast
      apply Bytes.u32At_putU32
      simp only [BSIZE, LOGSIZE] at hm ⊢
      omega
    · rw [Bytes.u32At_putU32_disjoint (by omega)]
      exact ih (by omega) (by omega)

theorem decodeHeader_encodeHeader_n {lh : LogHeader} (hn : lh.n ≤ LOGSIZE) :
    (decodeHeader (encodeHeader lh)).n = lh.n := by
  have hCount : (encodeHeader lh).u32At 0 = lh.n := by
    rw [encodeHeader, u32At_zero_foldl_putU32, Bytes.u32At_putU32 (by decide)]
    simp only [LOGSIZE] at hn
    omega
  simp only [decodeHeader, hCount]
  omega

theorem decodeHeader_encodeHeader_block {lh : LogHeader} {i : Nat} (hn : lh.n ≤ LOGSIZE)
    (hi : i < lh.n) (hU32 : lh.block.getD i 0 < 2 ^ 32) :
    (decodeHeader (encodeHeader lh)).block.getD i 0 = lh.block.getD i 0 := by
  have hEntry : (encodeHeader lh).u32At (4 + i * 4) = lh.block.getD i 0 := by
    rw [encodeHeader, u32At_entry_foldl_putU32 _ _ hn hi]
    exact Nat.mod_eq_of_lt hU32
  have hCount := decodeHeader_encodeHeader_n hn
  have hLog : i < LOGSIZE := by omega
  simp only [decodeHeader] at hCount ⊢
  rw [hCount]
  simp [hLog, hi, hEntry]

def bread (b : Nat) : DiskProg Block Block :=
  Prog.lift (.read b)

def bwrite (b : Nat) (data : Block) : DiskProg Block Unit :=
  Prog.lift (.write b data)

/- The block of log slot `i`, in 32-bit arithmetic. -/
def logSlot (start i : Nat) : Nat := (start + 1 + i) % 2 ^ 32

def readLogHeader (start : Nat) : DiskProg Block LogHeader := do
  let data ← bread start
  pure (decodeHeader data)

def writeLogHeader (start : Nat) (lh : LogHeader) : DiskProg Block Unit := do
  let _ ← bread start
  bwrite start (encodeHeader lh)

def clearLogHeader (start : Nat) : DiskProg Block Unit := writeLogHeader start LogHeader.zero

def installLogToHome (start : Nat) (lh : LogHeader) : DiskProg Block Unit :=
  Prog.forEach (List.range lh.n) fun i => do
    let logBuf ← bread (logSlot start i)
    let _ ← bread (lh.block.getD i 0)
    bwrite (lh.block.getD i 0) logBuf

def recover (start : Nat) : DiskProg Block Unit := do
  let lh ← readLogHeader start
  if lh.n = 0 then
    pure ()
  else do
    installLogToHome start lh
    clearLogHeader start

def LogState.pinnedData (log : LogState) (i : Nat) : Block :=
  (log.pinned[i]?.map Buffer.data).getD Bytes.zero

def commit (log : LogState) : DiskProg Block LogState :=
  if log.lh.n = 0 then
    pure log
  else do
    -- 1. Copy each pinned buffer into its log slot.
    Prog.forEach (List.range log.lh.n) fun i => do
      let _ ← bread (logSlot log.start i)
      bwrite (logSlot log.start i) (log.pinnedData i)
    -- 2. The commit point.
    writeLogHeader log.start log.lh
    -- 3. Flush the pinned buffers to their home blocks.
    Prog.forEach log.pinned fun buf =>
      bwrite buf.blockNo buf.data
    -- 4. Mark the log empty.
    clearLogHeader log.start
    pure { log with lh := LogHeader.zero, pinned := [] }

end Log

end PlayXv6
