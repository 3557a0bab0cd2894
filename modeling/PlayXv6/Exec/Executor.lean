import PlayXv6.Lib.Machine

/-
  The executor of one hart.

  The actions are the lock sections of `insert_task`, `wake`
  and `run`.  Insertions and wakes come from any hart and at
  any moment, also from the task that is being polled; only
  the hart itself goes through `run`.  A task is known by the
  number of its insertion.

  Main declarations:
    * `Exec`, `Act`, `step`
    * `tidCpu_makeTid`
-/

namespace PlayXv6

namespace Executor

abbrev CPU_BITS : Nat := 8
abbrev MAX_CPUS : Nat := 8

def SLOT_MASK : Nat := 1 <<< (32 - CPU_BITS) - 1

def makeTid (cpu slot : Nat) : Nat := (cpu <<< (32 - CPU_BITS)) % 2 ^ 32 ||| slot

def tidCpu (tid : Nat) : Nat := tid >>> (32 - CPU_BITS)

def tidSlot (tid : Nat) : Nat := tid &&& SLOT_MASK

variable {cpu slot : Nat}

theorem SLOT_MASK_eq : SLOT_MASK = 2 ^ 24 - 1 := by
  change 1 <<< 24 - 1 = _
  rw [Nat.shiftLeft_eq, Nat.one_mul]

theorem tidSlot_eq (tid : Nat) : tidSlot tid = tid % 2 ^ 24 := by
  unfold tidSlot
  rw [SLOT_MASK_eq]
  exact Nat.and_two_pow_sub_one_eq_mod tid 24

theorem makeTid_eq (hCpu : cpu < MAX_CPUS) (hSlot : slot ≤ SLOT_MASK) :
    makeTid cpu slot = cpu * 2 ^ 24 + slot := by
  have hSlot : slot < 2 ^ 24 := by
    rw [SLOT_MASK_eq] at hSlot
    omega
  have hShift : cpu <<< 24 % 2 ^ 32 = cpu <<< 24 := by
    have hMax : MAX_CPUS = 8 := rfl
    rw [Nat.shiftLeft_eq]
    omega
  change cpu <<< 24 % 2 ^ 32 ||| slot = _
  rw [hShift, ← Nat.shiftLeft_add_eq_or_of_lt hSlot, Nat.shiftLeft_eq]

theorem tidCpu_makeTid (hCpu : cpu < MAX_CPUS) (hSlot : slot ≤ SLOT_MASK) :
    tidCpu (makeTid cpu slot) = cpu := by
  rw [makeTid_eq hCpu hSlot]
  rw [SLOT_MASK_eq] at hSlot
  change _ >>> 24 = _
  rw [Nat.shiftRight_eq_div_pow]
  omega

theorem tidSlot_makeTid (hCpu : cpu < MAX_CPUS) (hSlot : slot ≤ SLOT_MASK) :
    tidSlot (makeTid cpu slot) = slot := by
  rw [makeTid_eq hCpu hSlot, tidSlot_eq]
  rw [SLOT_MASK_eq] at hSlot
  omega

theorem makeTid_tidSlot {tid : Nat} (hCpu : cpu < MAX_CPUS) (hTid : tidCpu tid = cpu) :
    makeTid cpu (tidSlot tid) = tid := by
  have hSlot : tidSlot tid ≤ SLOT_MASK := by
    rw [tidSlot_eq, SLOT_MASK_eq]
    omega
  rw [makeTid_eq hCpu hSlot, tidSlot_eq, ← hTid]
  change tid >>> 24 * _ + _ = _
  rw [Nat.shiftRight_eq_div_pow]
  omega

-- The Executor

/- Where the hart is in an iteration of `run`. -/
inductive Phase where
  | idle
  | popped (tid : Nat)
  | polling (slot task : Nat)
  | finished (slot : Nat)
  deriving DecidableEq, Repr

/-
  A `PerCpuExec`, the insertions on their way, and the phase
  of `run`.  An insertion is a slot and a task: it arrives
  until the task is stored, and then its tid is queued.

  For the statements, `born` and `done` are the tasks that
  were inserted and that have completed, and `owed` the ones
  that were woken and not polled since, with their slots.
-/
structure Exec where
  tasks : AList fun _ : Nat => Nat
  ready : List Nat
  nextSlot : Nat
  freeSlots : List Nat
  arriving : List (Nat × Nat)
  queueing : List (Nat × Nat)
  phase : Phase
  born : Nat
  done : List Nat
  owed : List (Nat × Nat)

namespace Exec

def new : Exec where
  tasks := ∅
  ready := []
  nextSlot := 0
  freeSlots := []
  arriving := []
  queueing := []
  phase := .idle
  born := 0
  done := []
  owed := []

def holder (s : Exec) (slot : Nat) : List Nat :=
  (s.tasks.lookup slot).toList ++
    match s.phase with
    | .polling slot' task => if slot' = slot then [task] else []
    | _ => []

/- `ready.push_back(tid)`. -/
def notify (s : Exec) (tid : Nat) : Exec :=
  { s with
    ready := s.ready ++ [tid]
    owed := s.owed ++ (s.holder (tidSlot tid)).map fun task => (tidSlot tid, task) }

/- The slot for a new task, and the executor without it. -/
def takeSlot (s : Exec) : Nat × Exec :=
  match s.freeSlots with
  | slot :: rest => (slot, { s with freeSlots := rest })
  | [] => (s.nextSlot, { s with nextSlot := s.nextSlot + 1 })

end Exec

inductive Act where
  | takeSlot
  | store (p : Nat × Nat)
  | queue (p : Nat × Nat)
  | wake (tid : Nat)
  | pop
  | take
  | pending
  | complete
  | recycle
  deriving DecidableEq, Repr

/-
  One action on the executor of the hart `home`; `none` where
  it is not possible.  After the assertion on the slot has
  failed nothing happens any more.
-/
def step (home : Nat) (s : Exec) : Act → Option Exec
  | .takeSlot =>
    let taken := s.takeSlot
    if taken.1 ≤ SLOT_MASK then
      some { taken.2 with
        arriving := (taken.1, s.born) :: s.arriving
        born := s.born + 1 }
    else
      none
  | .store p =>
    if p ∈ s.arriving then
      some { s with
        tasks := s.tasks.insert p.1 p.2
        arriving := s.arriving.erase p
        queueing := p :: s.queueing }
    else
      none
  | .queue p =>
    if p ∈ s.queueing then
      some { s.notify (makeTid home p.1) with
        queueing := s.queueing.erase p }
    else
      none
  | .wake tid => if tidCpu tid = home then some (s.notify tid) else none
  | .pop =>
    match s.phase, s.ready with
    | .idle, tid :: rest => some { s with ready := rest, phase := .popped tid }
    | _, _ => none
  | .take =>
    match s.phase with
    | .popped tid =>
      if tidCpu tid ≠ home then
        -- forwarded to the executor it belongs to
        some { s with phase := .idle }
      else
        match s.tasks.lookup (tidSlot tid) with
        | none => some { s with phase := .idle }
        | some task =>
          some { s with
            tasks := s.tasks.erase (tidSlot tid)
            phase := .polling (tidSlot tid) task
            owed := s.owed.filter fun p => p ≠ (tidSlot tid, task) }
    | _ => none
  | .pending =>
    match s.phase with
    | .polling slot task =>
      some { s with
        tasks := s.tasks.insert slot task
        phase := .idle }
    | _ => none
  | .complete =>
    match s.phase with
    | .polling slot task =>
      some { s with
        phase := .finished slot
        done := task :: s.done
        owed := s.owed.filter fun p => p ≠ (slot, task) }
    | _ => none
  | .recycle =>
    match s.phase with
    | .finished slot =>
      some { s with
        freeSlots := slot :: s.freeSlots
        phase := .idle }
    | _ => none

def Reaches (home : Nat) (s : Exec) : Prop := Machine.Reach (step home) (fun _ _ => True) Exec.new s

end Executor

end PlayXv6
