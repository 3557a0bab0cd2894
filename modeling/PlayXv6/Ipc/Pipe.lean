import PlayXv6.Lib.Machine

/-
  Pipes, and the tasks that write and read them.

  A pipe is also one direction of a connected socket.  Every
  lock section and every atomic access of `pipe_write`,
  `pipe_read`, their futures and the drops of the ends is an
  action of its own; `wake_all` first takes the list of
  wakers and then wakes one task after the other.  Any number
  of tasks act in any order.

  What a task does next is a function of its program counter
  and of the shared state; what that does to the shared state
  is one of a few effects.

  Main declarations:
    * `Side`, `Pc`, `Task`
    * `Task.next_step`
-/

namespace PlayXv6

open Function

namespace Pipe

-- Calls

abbrev PIPE_CAP : Nat := 512

inductive Side where
  | read
  | write
deriving DecidableEq

def Side.other : Side → Side
  | .read => .write
  | .write => .read

/- A call of `pipe_write` or `pipe_read`; `id` tells the calls of a run apart. -/
structure Call where
  id : Nat
  bufVa : Nat
  len : Nat
  nonblock : Bool
deriving DecidableEq

/- The memory of a process, and where `translate_user` and `translate_user_write` succeed. -/
structure User where
  mem : Nat → UInt8
  readable : Nat → Bool
  writable : Nat → Bool

/- `wake_all`, before and after it takes the list. -/
inductive Waking (n : Nat) where
  | take
  | wake (ws : List (Fin n))
deriving DecidableEq

/- Where a `pipe_write` stands; `b` is the byte to write. -/
inductive WritePc (n : Nat) where
  | top
  -- `O_NONBLOCK`
  | nbReaders (b : UInt8)
  | nbPush (b : UInt8)
  | nbFull
  -- `PipeWriteByte`
  | poll (b : UInt8)
  | readers (b : UInt8)
  | register (b : UInt8)
  | push (b : UInt8)
  | parked (b : UInt8)
  -- the byte is in the buffer
  | wake (w : Waking n)
deriving DecidableEq

/- Where a `pipe_read` stands. -/
inductive ReadPc (n : Nat) where
  | top
  -- `O_NONBLOCK`
  | nbPop
  | nbWriters
  -- `PipeReadByte`
  | poll
  | register
  | pop
  | writers
  | parked
  -- `b` has been taken out of the buffer
  | wake (b : UInt8) (w : Waking n)
  | store (b : UInt8)
  | check
deriving DecidableEq

/- `k` bytes have been transferred by a call so far. -/
inductive Pc (n : Nat) where
  | user
  | write (c : Call) (k : Nat) (w : WritePc n)
  | read (c : Call) (k : Nat) (r : ReadPc n)
  -- the call has returned `r`; `eof` if it met the end
  | ret (d : Side) (c : Call) (r : Int) (eof : Bool)
  -- the task has dropped the last `Arc` of an end
  | drop (d : Side)
  | dropWake (d : Side) (w : Waking n)
deriving DecidableEq

def Pc.holds {n : Nat} : Pc n → Option Side
  | .write _ _ _ => some .write
  | .read _ _ _ => some .read
  | .ret d _ _ _ => some d
  | _ => none

structure Task (n : Nat) where
  user : User
  killed : Bool
  pc : Pc n

/- A byte that call `call` has put in or taken out. -/
structure Item where
  call : Nat
  byte : UInt8

/-
  `ends .read` is `readers`, `wakers .read` is `read_waker`,
  and so for the write end.  `ready t` counts how often task
  `t` stands in its ready queue.  `pushed` and `popped` record
  what went through the buffer; no action reads them.
-/
structure Shared (n : Nat) where
  buf : List UInt8
  ends : Side → Nat
  wakers : Side → List (Fin n)
  ready : Fin n → Nat
  pushed : List Item
  popped : List Item

/- What a step does to the shared state. -/
inductive Effect (n : Nat) where
  | skip
  | push (call : Nat) (b : UInt8)
  | pop (call : Nat) (b : UInt8)
  | register (d : Side)
  | take (d : Side)
  | wake (u : Fin n)
  | close (d : Side)

variable {n : Nat}

def Shared.apply (s : Shared n) (t : Fin n) : Effect n → Shared n
  | .skip => s
  | .push call b =>
    { s with
      buf := s.buf ++ [b]
      pushed := s.pushed ++ [⟨call, b⟩] }
  | .pop call b =>
    { s with
      buf := s.buf.tail
      popped := s.popped ++ [⟨call, b⟩] }
  | .register d =>
    if t ∈ s.wakers d then
      s
    else
      { s with
        wakers := update s.wakers d (s.wakers d ++ [t]) }
  | .take d => { s with wakers := update s.wakers d [] }
  | .wake u =>
    { s with
      ready := update s.ready u (s.ready u + 1) }
  | .close d =>
    { s with
      ends := update s.ends d (s.ends d - 1) }

-- The Next Step of a Task

def Waking.next (s : Shared n) (d : Side) : Waking n → Effect n × Option (Waking n)
  | .take => (.take d, some (.wake (s.wakers d)))
  | .wake [] => (.skip, none)
  | .wake (u :: us) => (.wake u, some (.wake us))

/- A partial count is returned unless nothing was moved. -/
def partialCount (k : Nat) : Int := if k = 0 then -1 else k

def WritePc.next (s : Shared n) (τ : Task n) (c : Call)
    (k : Nat) : WritePc n → Option (Effect n × Pc n)
  | .top =>
    if c.len ≤ k then
      some (.skip, .ret .write c k false)
    else if τ.killed then
      some (.skip, .ret .write c (-1) false)
    else if τ.user.readable (c.bufVa + k) then
      let b := τ.user.mem (c.bufVa + k)
      some (.skip, .write c k (if c.nonblock then .nbReaders b else .poll b))
    else
      some (.skip, .ret .write c (-1) false)
  | .nbReaders b =>
    if s.ends .read = 0 then
      some (.skip, .ret .write c (-1) false)
    else
      some (.skip, .write c k (.nbPush b))
  | .nbPush b =>
    if s.buf.length < PIPE_CAP then
      some (.push c.id b, .write c k (.wake .take))
    else
      some (.skip, .write c k .nbFull)
  | .nbFull =>
    if s.ends .read = 0 then
      some (.skip, .ret .write c (-1) false)
    else
      some (.skip, .ret .write c (partialCount k) false)
  | .poll b =>
    if τ.killed then
      some (.skip, .ret .write c (-1) false)
    else
      some (.skip, .write c k (.readers b))
  | .readers b =>
    if s.ends .read = 0 then
      some (.skip, .ret .write c (-1) false)
    else
      some (.skip, .write c k (.register b))
  | .register b => some (.register .write, .write c k (.push b))
  | .push b =>
    if s.buf.length < PIPE_CAP then
      some (.push c.id b, .write c k (.wake .take))
    else
      some (.skip, .write c k (.parked b))
  | .parked _ => none
  | .wake w =>
    match w.next s .read with
    | (e, some w') => some (e, .write c k (.wake w'))
    | (e, none) => some (e, .write c (k + 1) .top)

def ReadPc.next (s : Shared n) (τ : Task n) (c : Call)
    (k : Nat) : ReadPc n → Option (Effect n × Pc n × User)
  | .top =>
    if c.len ≤ k then
      some (.skip, .ret .read c k false, τ.user)
    else
      some (.skip, .read c k (if c.nonblock then .nbPop else .poll), τ.user)
  | .nbPop =>
    match s.buf with
    | b :: _ =>
      some (.pop c.id b, .read c k (.wake b .take), τ.user)
    | [] => some (.skip, .read c k .nbWriters, τ.user)
  | .nbWriters =>
    if s.ends .write = 0 then
      some (.skip, .ret .read c k true, τ.user)
    else
      some (.skip, .ret .read c (partialCount k) false, τ.user)
  | .poll =>
    if τ.killed then
      some (.skip, .ret .read c k false, τ.user)
    else
      some (.skip, .read c k .register, τ.user)
  | .register => some (.register .read, .read c k .pop, τ.user)
  | .pop =>
    match s.buf with
    | b :: _ =>
      some (.pop c.id b, .read c k (.wake b .take), τ.user)
    | [] => some (.skip, .read c k .writers, τ.user)
  | .writers =>
    if s.ends .write = 0 then
      some (.skip, .ret .read c k true, τ.user)
    else
      some (.skip, .read c k .parked, τ.user)
  | .parked => none
  | .wake b w =>
    match w.next s .write with
    | (e, some w') => some (e, .read c k (.wake b w'), τ.user)
    | (e, none) => some (e, .read c k (.store b), τ.user)
  | .store b =>
    if τ.user.writable (c.bufVa + k) then
      some (.skip, .read c (k + 1) .check,
        { τ.user with
          mem := update τ.user.mem (c.bufVa + k) b })
    else
      some (.skip, .ret .read c (partialCount k) false, τ.user)
  | .check =>
    match s.buf with
    | [] => some (.skip, .ret .read c k false, τ.user)
    | _ :: _ => some (.skip, .read c k .top, τ.user)

/-
  The next step of a task inside a call or a drop.  `arcs`
  counts the `Arc`s of each end; who drops the last one runs
  the drop of the end.
-/
def Task.next (s : Shared n) (arcs : Side → Nat) (τ : Task n) : Option (Effect n × Task n) :=
  match τ.pc with
  | .user => none
  | .write c k w =>
    (w.next s τ c k).map fun (e, pc) => (e, { τ with pc := pc })
  | .read c k r =>
    (r.next s τ c k).map fun (e, pc, user) => (e, { τ with pc := pc, user := user })
  | .ret d _ _ _ =>
    some (.skip, { τ with pc := if arcs d = 1 then .drop d else .user })
  | .drop d => some (.close d, { τ with pc := .dropWake d .take })
  | .dropWake d w =>
    match w.next s d.other with
    | (e, some w') => some (e, { τ with pc := .dropWake d w' })
    | (e, none) => some (e, { τ with pc := .user })

-- The System

/-
  `fds d` counts the descriptors, of all processes, that
  share end `d`.  `sent` records the bytes that each call of
  `pipe_write` was asked to write.
-/
structure Sys (n : Nat) where
  shared : Shared n
  fds : Side → Nat
  tasks : Fin n → Task n
  calls : Nat
  sent : Nat → List UInt8

def Sys.arcs (s : Sys n) (d : Side) : Nat :=
  s.fds d +
    ∑ t, if (s.tasks t).pc.holds = some d then 1 else 0

def Sys.setTask (s : Sys n) (t : Fin n) (τ : Task n) : Sys n :=
  { s with tasks := update s.tasks t τ }

/- `pipe` has just made the pipe. -/
def Sys.new (tasks : Fin n → Task n) : Sys n where
  shared :=
    { buf := []
      ends := fun _ => 1
      wakers := fun _ => []
      ready := fun _ => 0
      pushed := []
      popped := [] }
  fds := fun _ => 1
  tasks := fun t => { tasks t with pc := .user }
  calls := 0
  sent := fun _ => []

inductive Act (n : Nat) where
  -- `sys_write` and `sys_read`, with the memory as it is
  | write (t : Fin n) (user : User) (bufVa len : Nat) (nonblock : Bool)
  | read (t : Fin n) (user : User) (bufVa len : Nat) (nonblock : Bool)
  -- the next step of a running task
  | step (t : Fin n)
  -- the executor polls a task that is ready
  | poll (t : Fin n)
  -- a wake from elsewhere
  | wake (t : Fin n)
  | kill (t : Fin n)
  -- `fork` or `dup` shares an end, `close` drops it
  | dup (d : Side)
  | close (t : Fin n) (d : Side)

/- A parked task is polled again; a task that is elsewhere takes no notice. -/
def Pc.repoll : Pc n → Option (Pc n)
  | .user => some .user
  | .write c k (.parked b) => some (.write c k (.poll b))
  | .read c k .parked => some (.read c k .poll)
  | _ => none

/- The task runs in user mode or in another call. -/
def Pc.isUser : Pc n → Bool
  | .user => true
  | _ => false

def Sys.step (s : Sys n) : Act n → Option (Sys n)
  | .write t user bufVa len nonblock =>
    if (s.tasks t).pc.isUser ∧ 0 < s.fds .write then
      some { s.setTask t
          { s.tasks t with
            user := user
            pc := .write ⟨s.calls, bufVa, len, nonblock⟩ 0 .top } with
        calls := s.calls + 1
        sent := update s.sent s.calls ((List.range len).map fun i =>
            user.mem (bufVa + i)) }
    else
      none
  | .read t user bufVa len nonblock =>
    -- `sys_read` returns at once if nothing is asked for
    if (s.tasks t).pc.isUser ∧ 0 < s.fds .read ∧ 0 < len then
      some { s.setTask t
          { s.tasks t with
            user := user
            pc := .read ⟨s.calls, bufVa, len, nonblock⟩ 0 .top } with
        calls := s.calls + 1 }
    else
      none
  | .step t =>
    ((s.tasks t).next s.shared s.arcs).map fun (e, τ) =>
      { s.setTask t τ with shared := s.shared.apply t e }
  | .poll t =>
    if s.shared.ready t = 0 then
      none
    else
      (s.tasks t).pc.repoll.map fun pc => { s.setTask t { s.tasks t with pc := pc } with
          shared :=
            { s.shared with
              ready := update s.shared.ready t (s.shared.ready t - 1) } }
  | .wake t => some { s with shared := s.shared.apply t (.wake t) }
  | .kill t => some (s.setTask t { s.tasks t with killed := true })
  | .dup d =>
    if 0 < s.fds d then
      some { s with
        fds := update s.fds d (s.fds d + 1) }
    else
      none
  | .close t d =>
    if (s.tasks t).pc.isUser ∧ 0 < s.fds d then
      some { s.setTask t
          { s.tasks t with
            pc := if s.arcs d = 1 then .drop d else .user } with
        fds := update s.fds d (s.fds d - 1) }
    else
      none

/- The effects that move no byte and close no end. -/
def Effect.quiet : Effect n → Bool
  | .push _ _ => false
  | .pop _ _ => false
  | .close _ => false
  | _ => true

theorem apply_quiet {s : Shared n} {t : Fin n} {e : Effect n} (hQuiet : e.quiet) :
    (s.apply t e).buf = s.buf ∧ (s.apply t e).ends = s.ends ∧ (s.apply t e).pushed = s.pushed ∧
          (s.apply t e).popped = s.popped := by
  cases e with
  | register d =>
    unfold Shared.apply
    dsimp only
    split <;> exact ⟨rfl, rfl, rfl, rfl⟩
  | push call b | pop call b | close d => simp [Effect.quiet] at hQuiet
  | skip | take d | wake u => exact ⟨rfl, rfl, rfl, rfl⟩

/- The call a task is in, or has just left. -/
def Pc.callId : Pc n → Option Nat
  | .write c _ _ => some c.id
  | .read c _ _ => some c.id
  | .ret _ c _ _ => some c.id
  | _ => none

/- What stands behind an effect: where the task is, and what it has seen. -/
def Effect.Comes (s : Shared n) (τ τ' : Task n) : Effect n → Prop
  | .push i b => ∃ c k w, τ.pc = .write c k w ∧ c.id = i ∧ s.buf.length < PIPE_CAP ∧
        (w = .push b ∨ w = .nbPush b) ∧ τ'.pc = .write c k (.wake .take)
  | .pop i b => ∃ c k r, τ.pc = .read c k r ∧ c.id = i ∧
      s.buf.head? = some b ∧ (r = .pop ∨ r = .nbPop) ∧ τ'.pc = .read c k (.wake b .take)
  | .close d => τ.pc = .drop d ∧ τ'.pc = .dropWake d .take
  | _ => True

-- How a Call Goes On

/- Why a write returns -1. -/
def WritePc.fails (s : Shared n) (τ : Task n) (c : Call) (k : Nat) : WritePc n → Prop
  | .top => τ.killed ∨ τ.user.readable (c.bufVa + k) = false
  | .nbReaders _ => s.ends .read = 0
  | .nbFull => s.ends .read = 0
  | .poll _ => τ.killed
  | .readers _ => s.ends .read = 0
  | _ => False

/- The steps of a write, with what each has seen. -/
inductive WriteStep (s : Shared n) (τ : Task n) (c : Call) (k : Nat) :
    WritePc n → Effect n → Pc n → Prop
  | done : c.len ≤ k → WriteStep s τ c k .top .skip (.ret .write c k false)
  | fail {w} : w.fails s τ c k → WriteStep s τ c k w .skip (.ret .write c (-1) false)
  | again : WriteStep s τ c k .nbFull .skip (.ret .write c (partialCount k) false)
  | start {w b} : k < c.len → b = τ.user.mem (c.bufVa + k) → (w = .nbReaders b ∨ w = .poll b) →
      WriteStep s τ c k .top .skip (.write c k w)
  | nbReaders {b} : WriteStep s τ c k (.nbReaders b) .skip (.write c k (.nbPush b))
  | nbFull {b} : WriteStep s τ c k (.nbPush b) .skip (.write c k .nbFull)
  | poll {b} : WriteStep s τ c k (.poll b) .skip (.write c k (.readers b))
  | readers {b} : s.ends .read ≠ 0 → WriteStep s τ c k (.readers b) .skip (.write c k (.register b))
  | register {b} : WriteStep s τ c k (.register b) (.register .write) (.write c k (.push b))
  | park {b} : PIPE_CAP ≤ s.buf.length → WriteStep s τ c k (.push b) .skip (.write c k (.parked b))
  | push {w b} : (w = .push b ∨ w = .nbPush b) → s.buf.length < PIPE_CAP →
      WriteStep s τ c k w (.push c.id b) (.write c k (.wake .take))
  | take : WriteStep s τ c k (.wake .take) (.take .read)
      (.write c k (.wake (.wake (s.wakers .read))))
  | wake {u us} : WriteStep s τ c k (.wake (.wake (u :: us))) (.wake u)
      (.write c k (.wake (.wake us)))
  | woken : WriteStep s τ c k (.wake (.wake [])) .skip (.write c (k + 1) .top)

/- The steps of a read; only a store changes the memory. -/
inductive ReadStep (s : Shared n) (τ : Task n) (c : Call) (k : Nat) :
    ReadPc n → Effect n → Pc n → User → Prop
  | done : c.len ≤ k → ReadStep s τ c k .top .skip (.ret .read c k false) τ.user
  | killed : τ.killed → ReadStep s τ c k .poll .skip (.ret .read c k false) τ.user
  | empty : ReadStep s τ c k .check .skip (.ret .read c k false) τ.user
  | eof {r} : (r = .writers ∨ r = .nbWriters) → s.ends .write = 0 →
      ReadStep s τ c k r .skip (.ret .read c k true) τ.user
  | again : ReadStep s τ c k .nbWriters .skip (.ret .read c (partialCount k) false) τ.user
  | fault {b} : ¬ τ.user.writable (c.bufVa + k) →
      ReadStep s τ c k (.store b) .skip (.ret .read c (partialCount k) false) τ.user
  | start {r} : k < c.len → (r = .nbPop ∨ r = .poll) →
      ReadStep s τ c k .top .skip (.read c k r) τ.user
  | nbWriters : s.buf = [] → ReadStep s τ c k .nbPop .skip (.read c k .nbWriters) τ.user
  | poll : ReadStep s τ c k .poll .skip (.read c k .register) τ.user
  | register : ReadStep s τ c k .register (.register .read) (.read c k .pop) τ.user
  | writers : s.buf = [] → ReadStep s τ c k .pop .skip (.read c k .writers) τ.user
  | park : s.ends .write ≠ 0 → ReadStep s τ c k .writers .skip (.read c k .parked) τ.user
  | pop {r b} : (r = .pop ∨ r = .nbPop) → s.buf.head? = some b →
      ReadStep s τ c k r (.pop c.id b) (.read c k (.wake b .take)) τ.user
  | take {b} : ReadStep s τ c k (.wake b .take) (.take .write)
      (.read c k (.wake b (.wake (s.wakers .write)))) τ.user
  | wake {b u us} : ReadStep s τ c k (.wake b (.wake (u :: us))) (.wake u)
      (.read c k (.wake b (.wake us))) τ.user
  | woken {b} : ReadStep s τ c k (.wake b (.wake [])) .skip (.read c k (.store b)) τ.user
  | store {b} : ReadStep s τ c k (.store b) .skip (.read c (k + 1) .check)
      { τ.user with mem := update τ.user.mem (c.bufVa + k) b }
  | more : ReadStep s τ c k .check .skip (.read c k .top) τ.user

/- The steps of a task inside a call or a drop. -/
inductive TaskStep (s : Shared n) (arcs : Side → Nat) (τ : Task n) : Effect n → Task n → Prop
  | write {c k w e p} : τ.pc = .write c k w → WriteStep s τ c k w e p →
      TaskStep s arcs τ e { τ with pc := p }
  | read {c k r e p u} : τ.pc = .read c k r → ReadStep s τ c k r e p u →
      TaskStep s arcs τ e { τ with pc := p, user := u }
  | last {d c r eof} : τ.pc = .ret d c r eof → arcs d = 1 →
      TaskStep s arcs τ .skip { τ with pc := .drop d }
  | ret {d c r eof} : τ.pc = .ret d c r eof → TaskStep s arcs τ .skip { τ with pc := .user }
  | drop {d} : τ.pc = .drop d → TaskStep s arcs τ (.close d) { τ with pc := .dropWake d .take }
  | take {d} : τ.pc = .dropWake d .take →
      TaskStep s arcs τ (.take d.other) { τ with pc := .dropWake d (.wake (s.wakers d.other)) }
  | wake {d u us} : τ.pc = .dropWake d (.wake (u :: us)) →
      TaskStep s arcs τ (.wake u) { τ with pc := .dropWake d (.wake us) }
  | woken {d} : τ.pc = .dropWake d (.wake []) → TaskStep s arcs τ .skip { τ with pc := .user }

section Next

variable {s : Shared n} {τ τ' : Task n} {e : Effect n} {arcs : Side → Nat} {c : Call} {k : Nat}
variable {p : Pc n} {u : User}

theorem WritePc.next_step {w : WritePc n} (hNext : w.next s τ c k = some (e, p)) :
    WriteStep s τ c k w e p := by
  cases w with
  | wake w =>
    rcases w with _ | ⟨_ | ⟨v, vs⟩⟩
    · cases hNext
      exact .take
    · cases hNext
      exact .woken
    · cases hNext
      exact .wake
  | top =>
    by_cases hLen : c.len ≤ k
    · grind [WritePc.next, WriteStep]
    · have hStart := fun b w => WriteStep.start (s := s) (τ := τ) (w := w) (b := b) (not_le.mp hLen)
      grind [WritePc.next, WriteStep, WritePc.fails]
  | nbReaders b | nbFull | poll b | readers b => grind [WritePc.next, WriteStep, WritePc.fails]
  | nbPush b | register b | push b => grind [WritePc.next, WriteStep]
  | parked b => grind [WritePc.next]

theorem ReadPc.next_step {r : ReadPc n} (hNext : r.next s τ c k = some (e, p, u)) :
    ReadStep s τ c k r e p u := by
  cases r with
  | wake b w =>
    rcases w with _ | ⟨_ | ⟨v, vs⟩⟩
    · cases hNext
      exact .take
    · cases hNext
      exact .woken
    · cases hNext
      exact .wake
  | top | nbPop | nbWriters | poll | register | pop | writers
  | store b | check => grind [ReadPc.next, ReadStep]
  | parked => grind [ReadPc.next]

theorem Task.next_step (hNext : τ.next s arcs = some (e, τ')) : TaskStep s arcs τ e τ' := by
  unfold Task.next at hNext
  split at hNext
  · simp at hNext
  · rcases Option.map_eq_some_iff.mp hNext with ⟨⟨e', p⟩, hStep, hEq⟩
    cases hEq
    exact .write ‹_› (WritePc.next_step hStep)
  · rcases Option.map_eq_some_iff.mp hNext with ⟨⟨e', p, u⟩, hStep, hEq⟩
    cases hEq
    exact .read ‹_› (ReadPc.next_step hStep)
  · rename_i hPc
    cases hNext
    split
    · exact .last hPc ‹_›
    · exact .ret hPc
  · cases hNext
    exact .drop ‹_›
  · rename_i d w hPc
    rcases w with _ | ⟨_ | ⟨v, vs⟩⟩
    · cases hNext
      exact .take hPc
    · cases hNext
      exact .woken hPc
    · cases hNext
      exact .wake hPc

theorem WriteStep.stays {w : WritePc n} (hStep : WriteStep s τ c k w e p) :
    p.callId = some c.id ∧ p.holds = some .write := by cases hStep <;> exact ⟨rfl, rfl⟩

theorem ReadStep.stays {r : ReadPc n} (hStep : ReadStep s τ c k r e p u) :
    p.callId = some c.id ∧ p.holds = some .read := by cases hStep <;> exact ⟨rfl, rfl⟩

theorem WriteStep.comes {w : WritePc n} (hPc : τ.pc = .write c k w)
    (hStep : WriteStep s τ c k w e p) : e.Comes s τ { τ with pc := p } := by
  cases hStep with
  | push hw hRoom => exact ⟨c, k, w, hPc, rfl, hRoom, hw, rfl⟩
  | _ => trivial

theorem ReadStep.comes {r : ReadPc n} (hPc : τ.pc = .read c k r)
    (hStep : ReadStep s τ c k r e p u) : e.Comes s τ { τ with pc := p, user := u } := by
  cases hStep with
  | pop hr hHead => exact ⟨c, k, r, hPc, rfl, hHead, hr, rfl⟩
  | _ => trivial

theorem TaskStep.comes (hStep : TaskStep s arcs τ e τ') : e.Comes s τ τ' ∧
      ((τ'.pc.callId = τ.pc.callId ∧ τ'.pc.holds = τ.pc.holds) ∨
        (τ'.pc.callId = none ∧ τ'.pc.holds = none)) := by
  cases hStep with
  | write hPc hStep | read hPc hStep =>
    refine ⟨hStep.comes hPc, Or.inl ?_⟩
    rw [hPc]
    exact hStep.stays
  | drop hPc => exact ⟨⟨hPc, rfl⟩, Or.inr ⟨rfl, rfl⟩⟩
  | _ => exact ⟨trivial, Or.inr ⟨rfl, rfl⟩⟩

/- An effect is quiet, or it is one of the three that change the buffer or an end. -/
theorem Effect.Comes.elim {motive : Effect n → Prop} (t : Fin n) (hComes : e.Comes s τ τ')
    (quiet : (s.apply t e).buf = s.buf → (s.apply t e).ends = s.ends →
      (s.apply t e).pushed = s.pushed → (s.apply t e).popped = s.popped → motive e)
    (push : ∀ c k w b, τ.pc = .write c k w → s.buf.length < PIPE_CAP →
      τ'.pc = .write c k (.wake .take) → motive (.push c.id b))
    (pop : ∀ c k r b, τ.pc = .read c k r → s.buf.head? = some b →
      τ'.pc = .read c k (.wake b .take) → motive (.pop c.id b))
    (close : ∀ d, τ.pc = .drop d → τ'.pc = .dropWake d .take → motive (.close d)) : motive e := by
  have hQuiet : e.quiet → motive e := by
    intro hQuiet
    rcases apply_quiet (s := s) (t := t) hQuiet with ⟨hBuf, hEnds, hPushed, hPopped⟩
    exact quiet hBuf hEnds hPushed hPopped
  cases e with
  | push i b =>
    rcases hComes with ⟨c, k, w, hPc, rfl, hRoom, -, hPc'⟩
    exact push c k w b hPc hRoom hPc'
  | pop i b =>
    rcases hComes with ⟨c, k, r, hPc, rfl, hHead, -, hPc'⟩
    exact pop c k r b hPc hHead hPc'
  | close d => exact close d hComes.1 hComes.2
  | _ => exact hQuiet rfl

/- What the executor polls: a task outside, or a parked one. -/
theorem Pc.repoll_cases {p p' : Pc n} (hRepoll : p.repoll = some p') : p = .user ∧ p' = .user ∨
    (∃ c k b, p = .write c k (.parked b) ∧ p' = .write c k (.poll b)) ∨
      ∃ c k, p = .read c k .parked ∧ p' = .read c k .poll := by
  unfold Pc.repoll at hRepoll
  split at hRepoll
  · exact Or.inl ⟨rfl, (Option.some.inj hRepoll).symm⟩
  · exact Or.inr (Or.inl ⟨_, _, _, rfl, (Option.some.inj hRepoll).symm⟩)
  · exact Or.inr (Or.inr ⟨_, _, rfl, (Option.some.inj hRepoll).symm⟩)
  · simp at hRepoll

end Next

end Pipe

end PlayXv6
