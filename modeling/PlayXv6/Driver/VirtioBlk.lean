import PlayXv6.Lib.WaitLists
import PlayXv6.Lib.Wheel

/-
  The virtio block driver and its device.

  A request takes three of the `NUM` descriptors, links them
  to a chain and puts the head of the chain on the available
  ring.  The device takes the chains from there, completes
  each of them once and in any order, and puts the head on the
  used ring.  `on_irq` empties the used ring with `DISK`
  locked; the tasks poll `BlockOp` without that lock, so what
  they do falls between any two steps of `on_irq`.

  A task that finds no three descriptors waits in
  `submit_chain_wait` until `finish` of another request has
  freed some.

  Main declarations:
    * `Blk`, `Req`, `Act`
    * `Blk.step`
-/

namespace PlayXv6

open Function

namespace VirtioBlk

abbrev NUM : Nat := 8
abbrev SECTOR_SIZE : Nat := 512
abbrev DESC_F_NEXT : Nat := 1
abbrev DESC_F_WRITE : Nat := 2
abbrev VIRTIO_BLK_T_IN : Nat := 0
abbrev VIRTIO_BLK_T_OUT : Nat := 1
-- the range of the counters of the rings
abbrev IDX : Nat := 2 ^ 16

/- Addresses, by what stands there. -/
inductive Addr where
  | null
  | ops (i : Nat)
  | buf (addr : Nat)
  | status (i : Nat)
  deriving DecidableEq, Repr

structure VirtqDesc where
  addr : Addr
  len : Nat
  flags : Nat
  next : Nat
  deriving DecidableEq, Repr

def VirtqDesc.ZERO : VirtqDesc := ⟨.null, 0, 0, 0⟩

structure VirtioBlkReq where
  typ : Nat
  reserved : Nat
  sector : Nat
  deriving DecidableEq, Repr

/- The bytes of a `VirtioBlkReq`. -/
abbrev REQ_SIZE : Nat := 16

/- The arguments of `submit_chain`. -/
structure Request where
  sector : Nat
  buf : Nat
  write : Bool
  deriving DecidableEq, Repr

def allocOne (free : Nat → Bool) : Option Nat := (List.range NUM).find? free

/-
  Take `n` more descriptors after `idx`; when there are not
  enough of them, all of `idx` become free again.
-/
def allocLoop (free : Nat → Bool) (idx : List Nat) : Nat → Option (List Nat) × (Nat → Bool)
  | 0 => (some idx, free)
  | n + 1 =>
    match allocOne free with
    | some j =>
      allocLoop (update free j false) (idx ++ [j]) n
    | none =>
      (none, idx.foldl (fun f k => update f k true) free)

def allocThree (free : Nat → Bool) : Option (List Nat) × (Nat → Bool) := allocLoop free [] 3

/-
  Free the chain from descriptor `i` on.  The source follows
  the links without a bound; `fuel` bounds the descriptors.
-/
def freeChain (desc : Nat → VirtqDesc) (free : Nat → Bool) (i : Nat) :
    Nat → Option ((Nat → VirtqDesc) × (Nat → Bool))
  | 0 => none
  | fuel + 1 =>
    let d := desc i
    let desc := update desc i VirtqDesc.ZERO
    let free := update free i true
    if d.flags &&& DESC_F_NEXT = 0 then some (desc, free)
    else freeChain desc free d.next fuel

/- How many descriptors `DescWait` counts. -/
def freeCount (free : Nat → Bool) : Nat := ((List.range NUM).filter free).length

-- Tasks and the Interrupt Handler

/-
  A submitted request with its three descriptors.  The code
  keeps the head `i0` only.  `serial` numbers the submissions.
-/
structure Req where
  i0 : Nat
  i1 : Nat
  i2 : Nat
  request : Request
  serial : Nat
  deriving DecidableEq, Repr

def Req.chain (r : Req) : List Nat := [r.i0, r.i1, r.i2]

inductive Phase where
  | idle
  -- no three descriptors: about to register in `DescWait`
  | refused
  -- about to count the free descriptors
  | registered
  | parked
  -- `DescWait` is ready, `submit_chain_wait` tries again
  | retry
  -- about to register in `BlockOp`
  | opening (r : Req)
  -- about to load `COMPLETED`
  | listening (r : Req)
  | waiting (r : Req)
  -- `BlockOp` is ready, `finish` is called
  | ready (r : Req)
  -- the status is read, the chain is about to be freed
  | finishing (r : Req) (status : Nat)
  -- the chain is free, `finish` is in its call of `wake_all`
  | freed (status : Nat)
  deriving DecidableEq, Repr

/- The request of a task that is in flight. -/
def Phase.req : Phase → Option Req
  | .opening r => some r
  | .listening r => some r
  | .waiting r => some r
  | .ready r => some r
  | .finishing r _ => some r
  | _ => none

/- How far `on_irq` is; it has `DISK` locked unless `out`. -/
inductive Irq where
  | out
  | drain (usedNow : Nat)
  -- `COMPLETED[id]` is stored
  | stored (usedNow id : Nat)
  -- the waker is taken from its cell and about to be woken
  | taken (usedNow : Nat) (waker : Option Nat)
  deriving DecidableEq, Repr

/-
  `seen` counts the chains the device took from the available
  ring, `pending` are those it has not completed.
-/
structure Device where
  seen : Nat
  pending : List Nat

/-
  The driver, the device and the tasks.  `owner` is the serial
  number of the last request with a head, and `done` are the
  requests whose chain the device has completed.
-/
structure Blk where
  free : Nat → Bool
  usedIdx : Nat
  desc : Nat → VirtqDesc
  ops : Nat → VirtioBlkReq
  statusBytes : Nat → Nat
  completed : Nat → Bool
  wakers : Nat → Option Nat
  avail : Wheel Nat
  used : Wheel Nat
  descWaiters : WaitLists Unit Nat
  device : Device
  irq : Irq
  phase : Nat → Phase
  serial : Nat
  owner : Nat → Nat
  done : List Nat

def Blk.boot : Blk where
  free := fun _ => true
  usedIdx := 0
  desc := fun _ => VirtqDesc.ZERO
  ops := fun _ => ⟨0, 0, 0⟩
  statusBytes := fun _ => 0
  completed := fun _ => false
  wakers := fun _ => none
  avail := ⟨0, fun _ => 0⟩
  used := ⟨0, fun _ => 0⟩
  descWaiters := .empty
  device := ⟨0, []⟩
  irq := .out
  phase := fun _ => .idle
  serial := 0
  owner := fun _ => 0
  done := []

namespace Blk

def req (s : Blk) (t : Nat) : Option Req := (s.phase t).req

def setPhase (s : Blk) (t : Nat) (p : Phase) : Blk := { s with phase := update s.phase t p }

def headDesc (r : Req) : VirtqDesc where
  addr := .ops r.i0
  len := REQ_SIZE
  flags := DESC_F_NEXT
  next := r.i1

def dataDesc (r : Req) : VirtqDesc where
  addr := .buf r.request.buf
  len := SECTOR_SIZE
  flags := if r.request.write then DESC_F_NEXT
    else DESC_F_NEXT ||| DESC_F_WRITE
  next := r.i2

def statusDesc (r : Req) : VirtqDesc where
  addr := .status r.i0
  len := 1
  flags := DESC_F_WRITE
  next := 0

/- Write the tables and put the head on the ring. -/
def writeChain (s : Blk) (r : Req) : Blk :=
  { s with
    ops := update s.ops r.i0
      { typ := if r.request.write then VIRTIO_BLK_T_OUT
          else VIRTIO_BLK_T_IN
        reserved := 0
        sector := r.request.sector }
    desc := update (update (update s.desc r.i0 (headDesc r)) r.i1 (dataDesc r)) r.i2 (statusDesc r)
    statusBytes := update s.statusBytes r.i0 0xff
    completed := update s.completed r.i0 false
    avail := s.avail.push NUM IDX r.i0
    serial := s.serial + 1
    owner := update s.owner r.i0 r.serial }

/- The section of `submit_chain` that has `DISK` locked. -/
def submitChain (s : Blk) (request : Request) : Option Req × Blk :=
  match allocThree s.free with
  | (some [i0, i1, i2], free) =>
    let r : Req := ⟨i0, i1, i2, request, s.serial⟩
    (some r, { s with free := free }.writeChain r)
  | (_, free) => (none, { s with free := free })

-- Steps

end Blk

inductive Act where
  | submit (t : Nat) (request : Request)
  -- `DescWait`
  | register (t : Nat)
  | count (t : Nat)
  -- `BlockOp`
  | listen (t : Nat)
  | load (t : Nat)
  -- `finish`
  | readStatus (t : Nat)
  | free (t : Nat)
  | wakeAll (t : Nat)
  -- the executor polls a task that was woken
  | poll (t : Nat)
  -- a wake from elsewhere
  | poke (t : Nat)
  -- the device
  | fetch
  | complete (id status : Nat)
  -- `on_irq`
  | irq
  | irqStore
  | irqTake
  | irqNext
  | irqEnd

namespace Blk

/- The steps of a task that takes `DISK` need it unlocked. -/
def stepSubmit (s : Blk) (t : Nat) (request : Request) : Option Blk :=
  if s.irq = .out ∧ (s.phase t = .idle ∨ s.phase t = .retry) then
    match s.submitChain request with
    | (some r, s') => some (s'.setPhase t (.opening r))
    | (none, s') => some (s'.setPhase t .refused)
  else
    none

def stepRegister (s : Blk) (t : Nat) : Option Blk :=
  match s.phase t with
  | .refused =>
    some { s.setPhase t .registered with
      descWaiters := s.descWaiters.apply (.register t ()) }
  | _ => none

def stepCount (s : Blk) (t : Nat) : Option Blk :=
  if s.irq = .out ∧ s.phase t = .registered then
    some (s.setPhase t (if 3 ≤ freeCount s.free then .retry else .parked))
  else
    none

def stepListen (s : Blk) (t : Nat) : Option Blk :=
  match s.phase t with
  | .opening r =>
    some { s.setPhase t (.listening r) with
      wakers := update s.wakers r.i0 (some t) }
  | _ => none

def stepLoad (s : Blk) (t : Nat) : Option Blk :=
  match s.phase t with
  | .listening r => some (s.setPhase t (if s.completed r.i0 then .ready r else .waiting r))
  | _ => none

def stepReadStatus (s : Blk) (t : Nat) : Option Blk :=
  match s.phase t with
  | .ready r => some (s.setPhase t (.finishing r (s.statusBytes r.i0)))
  | _ => none

def stepFree (s : Blk) (t : Nat) : Option Blk :=
  match s.irq, s.phase t with
  | .out, .finishing r status =>
    (freeChain s.desc s.free r.i0 NUM).map fun (desc, free) =>
      { s.setPhase t (.freed status) with
        desc := desc
        free := free
        descWaiters := s.descWaiters.apply (.announce t [()]) }
  | _, _ => none

/- The next step of the call; after the last one `finish` returns. -/
def stepWakeAll (s : Blk) (t : Nat) : Option Blk :=
  match s.phase t with
  | .freed status =>
    let waiters := s.descWaiters.apply (.wake t)
    some { s.setPhase t (if t ∈ waiters.calls then .freed status else .idle) with
      descWaiters := waiters }
  | _ => none

def stepPoll (s : Blk) (t : Nat) : Option Blk :=
  if s.descWaiters.ready t = 0 then
    none
  else
    let polled := { s with descWaiters := s.descWaiters.apply (.poll t) }
    match s.phase t with
    | .parked => some (polled.setPhase t .refused)
    | .waiting r => some (polled.setPhase t (.opening r))
    -- waiting for something else, or already finished
    | .idle => some polled
    | _ => none

/- The device takes the next chain from the ring. -/
def stepFetch (s : Blk) : Option Blk :=
  if s.device.seen = s.avail.idx then
    none
  else
    some { s with
      device :=
        { seen := (s.device.seen + 1) % IDX
          pending := s.device.pending ++ [s.avail.cells (s.device.seen % NUM)] } }

/- The device completes one of the chains it has taken. -/
def stepComplete (s : Blk) (id status : Nat) : Option Blk :=
  if id ∈ s.device.pending then
    some { s with
      device :=
        { s.device with
          pending := s.device.pending.erase id }
      statusBytes := update s.statusBytes id status
      used := s.used.push NUM IDX id
      done := s.owner id :: s.done }
  else
    none

def stepIrq (s : Blk) : Option Blk :=
  if s.irq = .out then
    some { s with irq := .drain s.used.idx }
  else
    none

def stepIrqStore (s : Blk) : Option Blk :=
  match s.irq with
  | .drain usedNow =>
    if s.usedIdx = usedNow then
      none
    else
      let id := s.used.cells (s.usedIdx % NUM)
      some { s with
        completed := update s.completed id true
        irq := .stored usedNow id }
  | _ => none

def stepIrqTake (s : Blk) : Option Blk :=
  match s.irq with
  | .stored usedNow id =>
    some { s with
      wakers := update s.wakers id none
      irq := .taken usedNow (s.wakers id) }
  | _ => none

def stepIrqNext (s : Blk) : Option Blk :=
  match s.irq with
  | .taken usedNow waker =>
    some { s with
      usedIdx := (s.usedIdx + 1) % IDX
      irq := .drain usedNow
      descWaiters := s.descWaiters.apply (waker.elim .skip .poke) }
  | _ => none

def stepIrqEnd (s : Blk) : Option Blk :=
  match s.irq with
  | .drain usedNow =>
    if s.usedIdx = usedNow then some { s with irq := .out }
    else none
  | _ => none

def step (s : Blk) : Act → Option Blk
  | .submit t request => s.stepSubmit t request
  | .register t => s.stepRegister t
  | .count t => s.stepCount t
  | .listen t => s.stepListen t
  | .load t => s.stepLoad t
  | .readStatus t => s.stepReadStatus t
  | .free t => s.stepFree t
  | .wakeAll t => s.stepWakeAll t
  | .poll t => s.stepPoll t
  | .poke t =>
    some { s with
      descWaiters := s.descWaiters.apply (.poke t) }
  | .fetch => s.stepFetch
  | .complete id status => s.stepComplete id status
  | .irq => s.stepIrq
  | .irqStore => s.stepIrqStore
  | .irqTake => s.stepIrqTake
  | .irqNext => s.stepIrqNext
  | .irqEnd => s.stepIrqEnd

/- The states any interleaving reaches. -/
def Reaches (s : Blk) : Prop := Machine.Reach step (fun _ _ => True) boot s

end Blk

-- Allocation

variable {free free' : Nat → Bool} {idx out : List Nat} {n i j : Nat}

theorem allocOne_some (hAlloc : allocOne free = some j) : j < NUM ∧ free j = true := by
  have hMem := List.mem_of_find?_eq_some hAlloc
  exact ⟨List.mem_range.mp hMem, List.find?_some hAlloc⟩

theorem allocLoop_some (hAlloc : allocLoop free idx n = (some out, free')) :
    ∃ new, out = idx ++ new ∧ new.length = n ∧ new.Nodup ∧ (∀ j ∈ new, j < NUM ∧ free j = true) ∧
      ∀ i, free' i = (free i && decide (i ∉ new)) := by
  induction n generalizing free idx with
  | zero =>
    simp only [allocLoop, Prod.mk.injEq, Option.some.injEq] at hAlloc
    rcases hAlloc with ⟨rfl, rfl⟩
    exact ⟨[], by simp⟩
  | succ n ih =>
    simp only [allocLoop] at hAlloc
    split at hAlloc
    swap
    · cases hAlloc
    rename_i j hOne
    rcases allocOne_some hOne with ⟨hLt, hFree⟩
    rcases ih hAlloc with ⟨new, rfl, rfl, hNodup, hNew, hRest⟩
    have hFresh : j ∉ new := by
      intro hj
      have hSet := (hNew j hj).2
      rw [update_self] at hSet
      cases hSet
    refine ⟨j :: new, by simp, by simp, List.nodup_cons.mpr ⟨hFresh, hNodup⟩, ?_, ?_⟩
    · intro k hk
      rcases List.mem_cons.mp hk with rfl | hIn
      · exact ⟨hLt, hFree⟩
      · have hOld := hNew k hIn
        rw [update_of_ne] at hOld
        · exact hOld
        · rintro rfl
          exact hFresh hIn
    · intro i
      rw [hRest i]
      by_cases hi : i = j
      · subst hi
        simp
      · rw [update_of_ne hi]
        simp [hi]

private theorem foldl_update_true (idx : List Nat) (free : Nat → Bool) (i : Nat) :
    idx.foldl (fun f k => update f k true) free i = (free i || decide (i ∈ idx)) := by
  induction idx generalizing free with
  | nil => simp
  | cons k idx ih =>
    rw [List.foldl_cons, ih]
    by_cases hi : i = k
    · subst hi
      simp
    · rw [update_of_ne hi]
      simp [hi]

/- A failed allocation gives back what it took. -/
theorem allocLoop_none (hAlloc : allocLoop free idx n = (none, free')) :
    ∀ i, free' i = (free i || decide (i ∈ idx)) := by
  induction n generalizing free idx with
  | zero => simp [allocLoop] at hAlloc
  | succ n ih =>
    simp only [allocLoop] at hAlloc
    split at hAlloc
    · rename_i j hOne
      have hFree := (allocOne_some hOne).2
      intro i
      rw [ih hAlloc i]
      by_cases hi : i = j
      · subst hi
        simp [hFree]
      · rw [update_of_ne hi]
        simp [hi]
    · simp only [Prod.mk.injEq, true_and] at hAlloc
      rw [← hAlloc]
      exact foldl_update_true idx free

theorem allocThree_none (hAlloc : allocThree free = (none, free')) : free' = free := by
  funext i
  rw [allocLoop_none hAlloc i]
  simp

variable {desc : Nat → VirtqDesc} {fuel : Nat}

theorem freeChain_last (hLast : (desc i).flags &&& DESC_F_NEXT = 0) :
    freeChain desc free i (fuel + 1) = some (update desc i VirtqDesc.ZERO, update free i true) := by
  rw [freeChain]
  exact if_pos hLast

theorem freeChain_link (hNext : (desc i).flags &&& DESC_F_NEXT ≠ 0) :
    freeChain desc free i (fuel + 1) = freeChain (update desc i VirtqDesc.ZERO)
        (update free i true) (desc i).next fuel := by
  rw [freeChain]
  exact if_neg hNext

end VirtioBlk

end PlayXv6
