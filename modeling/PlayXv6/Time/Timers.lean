import PlayXv6.Lib.DueQueue

/-
  The timers of sleeping tasks and the alarms of processes.

  Both lists are sorted by deadline.  The timer interrupt
  takes what has expired from the front of each, under the
  lock of that list.

  Main declarations:
    * `addTimer`, `drainExpired`
    * `queues_ordered`
-/

namespace PlayXv6

namespace Time

open DueQueue

variable {W : Type}

/- A deadline is a value of the cycle counter. -/
structure TimerEntry (W : Type) where
  deadline : Nat
  waker : W

structure AlarmEntry where
  deadline : Nat
  targetPid : Nat
  generation : UInt32
  deriving DecidableEq

/- `TIMERS` and `ALARMS` -/
structure Queues (W : Type) where
  timers : List (TimerEntry W)
  alarms : List AlarmEntry

def addTimer (deadline : Nat) (waker : W) (s : Queues W) : Queues W :=
  { s with timers := insert TimerEntry.deadline ⟨deadline, waker⟩ s.timers }

def addAlarm (deadline targetPid : Nat) (generation : UInt32) (s : Queues W) : Queues W :=
  { s with alarms := insert AlarmEntry.deadline ⟨deadline, targetPid, generation⟩ s.alarms }

/- The loop of `drain_expired`: the wakers it wakes. -/
def drainTimers (now : Nat) (s : Queues W) : List W × Queues W :=
  let (due, rest) := drain TimerEntry.deadline now s.timers
  (due.map TimerEntry.waker, { s with timers := rest })

/- The loop of `drain_expired_alarms`: the alarms due. -/
def drainExpiredAlarms (now : Nat) (s : Queues W) : List AlarmEntry × Queues W :=
  let (due, rest) := drain AlarmEntry.deadline now s.alarms
  (due, { s with alarms := rest })

def drainExpired (now : Nat) (s : Queues W) : List W × List AlarmEntry × Queues W :=
  let (woken, s) := drainTimers now s
  (woken, drainExpiredAlarms now s)

/- What is done under a lock; the two halves of a `drain_expired` may be apart. -/
inductive Op (W : Type) where
  | addTimer (deadline : Nat) (waker : W)
  | addAlarm (deadline targetPid : Nat) (generation : UInt32)
  | drainTimers (now : Nat)
  | drainAlarms (now : Nat)

def Queues.step (s : Queues W) : Op W → Queues W
  | .addTimer deadline waker => addTimer deadline waker s
  | .addAlarm deadline targetPid generation => addAlarm deadline targetPid generation s
  | .drainTimers now => (drainTimers now s).2
  | .drainAlarms now => (drainExpiredAlarms now s).2

def queues (ops : List (Op W)) : Queues W := ops.foldl Queues.step ⟨[], []⟩

/- The same with the entries kept in order of arrival. -/
def Queues.arrive (s : Queues W) : Op W → Queues W
  | .addTimer deadline waker => { s with timers := s.timers ++ [⟨deadline, waker⟩] }
  | .addAlarm deadline targetPid generation =>
    { s with alarms := s.alarms ++ [⟨deadline, targetPid, generation⟩] }
  | .drainTimers now => { s with timers := s.timers.filter (now < ·.deadline) }
  | .drainAlarms now => { s with alarms := s.alarms.filter (now < ·.deadline) }

/- What has been added and not been drained. -/
def pending (ops : List (Op W)) : Queues W := ops.foldl Queues.arrive ⟨[], []⟩

variable {s arrived : Queues W}

/- Sorted by deadline, and by arrival under one deadline. -/
structure Ordered (arrived s : Queues W) : Prop where
  timers : Stable TimerEntry.deadline arrived.timers s.timers
  alarms : Stable AlarmEntry.deadline arrived.alarms s.alarms

theorem Ordered.step (hOrdered : Ordered arrived s) (op : Op W) :
    Ordered (arrived.arrive op) (s.step op) := by
  cases op with
  | addTimer deadline waker => exact { hOrdered with timers := hOrdered.timers.insert _ }
  | addAlarm deadline targetPid generation =>
    exact { hOrdered with alarms := hOrdered.alarms.insert _ }
  | drainTimers now => exact { hOrdered with timers := (hOrdered.timers.drain now).2 }
  | drainAlarms now => exact { hOrdered with alarms := (hOrdered.alarms.drain now).2 }

theorem Ordered.foldl (hOrdered : Ordered arrived s) (ops : List (Op W)) :
    Ordered (ops.foldl Queues.arrive arrived) (ops.foldl Queues.step s) := by
  induction ops generalizing arrived s with
  | nil => exact hOrdered
  | cons op ops ih => exact ih (hOrdered.step op)

theorem Ordered.drainExpired_eq (hOrdered : Ordered arrived s) (now : Nat) : drainExpired now s =
    ((s.timers.filter (·.deadline ≤ now)).map TimerEntry.waker,
      s.alarms.filter (·.deadline ≤ now),
      ⟨s.timers.filter (now < ·.deadline), s.alarms.filter (now < ·.deadline)⟩) := by
  simp only [drainExpired, drainTimers, drainExpiredAlarms, drain_eq hOrdered.timers.sorted,
    drain_eq hOrdered.alarms.sorted]

/-
  Whatever has been done, the lists are in order, and a drain
  takes exactly what has expired and wakes it in that order.
-/
theorem queues_ordered (ops : List (Op W)) : Ordered (pending ops) (queues ops) ∧
    ∀ now, drainExpired now (queues ops) =
      (((queues ops).timers.filter (·.deadline ≤ now)).map TimerEntry.waker,
        (queues ops).alarms.filter (·.deadline ≤ now),
        ⟨(queues ops).timers.filter (now < ·.deadline),
          (queues ops).alarms.filter (now < ·.deadline)⟩) := by
  have hEmpty : Ordered (⟨[], []⟩ : Queues W) ⟨[], []⟩ := ⟨⟨.nil, fun _ => rfl⟩, .nil, fun _ => rfl⟩
  have hOrdered : Ordered (pending ops) (queues ops) := hEmpty.foldl ops
  exact ⟨hOrdered, hOrdered.drainExpired_eq⟩

end Time

end PlayXv6
