import PlayXv6.Lib.WaitLists
import PlayXv6.Ipc.Pipe

/-
  Waiting for several descriptors at once.

  `sys_poll` sweeps over its descriptors, and parks if none
  is ready: `PollWait` registers on the wait lists of all of
  them and does not look again.  `input_read` finds no event,
  looks once more in `InputWait`, registers and parks.  Every
  look at a device and every registration is a step of its
  own.  Who changes a device wakes its list afterwards, in a
  call of `wake_all` of its own.

  A descriptor is ready if one of the conditions holds that
  `file_revents` tests for it.  The TCP stack is known by what
  a socket of it answers and by the wakers it calls, which it
  does with the stack locked; each of its two wakers per
  socket has room for one task.  Whether a deadline has passed
  is chosen by the run.

  Main declarations:
    * `Dev.apply`
    * `File.conds`, `File.lists`
    * `Pc.next`
    * `Sys.step`
    * `Dev.announces`
-/

namespace PlayXv6

open Function

namespace Poll

-- Devices

/- `console_in::CAP`. -/
abbrev CAP : Nat := 256

abbrev EOF_SENTINEL : UInt8 := 0x04

abbrev EVENT_LEN : Nat := 8

abbrev COOKED_CAP : Nat := 256 * EVENT_LEN

abbrev SOCK_BACKLOG_CAP : Nat := 16

/- The wait lists of the console, the keyboard, the two ends
   of a pipe, and a listening socket, and the two wakers of a
   TCP socket. -/
inductive WList where
  | console
  | input
  | pipeRead (i : Nat)
  | pipeWrite (i : Nat)
  | accept (j : Nat)
  | tcpRecv (h : Nat)
  | tcpSend (h : Nat)
  deriving DecidableEq

/- A `WakerList` keeps all that register, a waker of the TCP stack the last one. -/
def WList.join (t : Nat) (l : WList) : WaitLists.Op WList Nat :=
  match l with
  | .tcpRecv _ => .replace t l
  | .tcpSend _ => .replace t l
  | _ => .register t l

/- How much a pipe holds, and the counts of its ends. -/
structure PipeState where
  len : Nat
  readers : Nat
  writers : Nat
  deriving DecidableEq

/- A connected socket reads one pipe and writes another. -/
inductive SockState where
  | fresh
  | listening (j : Nat)
  | connected (rx tx : Nat)
  | tcp (h : Nat)
  | tcpListening (h : Nat)
  deriving DecidableEq

/- `bind`, `connect` and `accept` leave `Fresh` once; a TCP listener is armed anew. -/
def SockState.becomes : SockState → SockState → Bool
  | .fresh, .fresh => false
  | .fresh, _ => true
  | .tcpListening _, .tcpListening _ => true
  | _, _ => false

/- What the stack answers about a socket. -/
structure TcpSock where
  canRecv : Bool
  mayRecv : Bool
  canSend : Bool
  maySend : Bool
  isActive : Bool
  deriving DecidableEq

namespace TcpSock

/- A listener that has become a connection. -/
def acceptable (s : TcpSock) : Bool :=
  s.isActive && (s.maySend || s.mayRecv)

/- The receiver has news: data, the end of it, or a peer. -/
def recvNews (s s' : TcpSock) : Bool :=
  s'.canRecv && !s.canRecv || s.mayRecv && !s'.mayRecv ||
    s'.acceptable && !s.acceptable

def sendNews (s s' : TcpSock) : Bool :=
  s'.canSend && !s.canSend

end TcpSock

/- `held` counts the end-of-file marks that readers of the console have popped and will put back. -/
structure Devices where
  cooked : List UInt8
  edit : List UInt8
  held : Nat
  events : Nat
  pipes : Nat → PipeState
  backlog : Nat → Nat
  tcp : Nat → TcpSock
  sockets : Nat → SockState

namespace Devices

/- Release the edited line and the byte that ends it. -/
def release (d : Devices) (c : UInt8) : Devices × List WList :=
  if d.cooked.length + d.edit.length + 1 ≤ CAP then
    ({ d with cooked := d.cooked ++ d.edit ++ [c], edit := [] }, [.console])
  else (d, [])

/- `console_in::push`. -/
def consolePush (d : Devices) (c : UInt8) : Devices × List WList :=
  let c := if c = 0x0d then 0x0a else c
  if c = 0x15 then ({ d with edit := [] }, [])
  else if c = 0x08 ∨ c = 0x7f then
    ({ d with edit := d.edit.dropLast }, [])
  else if c = EOF_SENTINEL ∨ c = 0x0a then d.release c
  else if (c = 0x09 ∨ 0x20 ≤ c ∧ c < 0x7f) ∧ d.cooked.length + d.edit.length < CAP then
    ({ d with edit := d.edit ++ [c] }, [])
  else (d, [])

/- The bytes queued after the completed buffers of `on_irq`. -/
def queueEvents (n : Nat) : List Nat → Nat
  | [] => n
  | len :: lens =>
    if EVENT_LEN ≤ len ∧ n + EVENT_LEN ≤ COOKED_CAP then
      queueEvents (n + EVENT_LEN) lens
    else queueEvents n lens

/- `virtio_input::on_irq`; it wakes if something was queued. -/
def onIrq (d : Devices) (lens : List Nat) : Devices × List WList :=
  ({ d with events := queueEvents d.events lens },
    if d.events < queueEvents d.events lens then [.input]
    else [])

def setPipe (d : Devices) (i : Nat) (p : PipeState) : Devices :=
  { d with pipes := update d.pipes i p }

def setTcp (d : Devices) (h : Nat) (s : TcpSock) : Devices :=
  { d with tcp := update d.tcp h s }

end Devices

/-
  What others do to the devices.  `keep` pops an end-of-file
  mark that `consoleUnget` puts back.  `tcp` is a step of the
  stack, which calls the wakers it is given; `tcpDrain` reads
  the last bytes of a connection whose peer has finished.
-/
inductive Dev where
  | consolePush (c : UInt8)
  | consolePop (keep : Bool)
  | consoleUnget
  | keyboard (lens : List Nat)
  | inputRead (n : Nat)
  | pipePush (i n : Nat)
  | pipePop (i n : Nat)
  | closeReader (i : Nat)
  | closeWriter (i : Nat)
  | connect (j : Nat)
  | accept (j : Nat)
  | tcp (h : Nat) (s : TcpSock) (rx tx : Bool)
  | tcpDrain (h : Nat)
  | attach (k : Nat) (st : SockState)

/- The effect on the devices, and the lists woken after it. -/
def Dev.apply (d : Devices) : Dev → Option (Devices × List WList)
  | .consolePush c => some (d.consolePush c)
  | .consolePop keep =>
    match d.cooked with
    | [] => none
    | c :: cs =>
      some ({ d with
        cooked := cs
        held := if keep ∧ c = EOF_SENTINEL then d.held + 1
          else d.held }, [])
  | .consoleUnget =>
    if 0 < d.held then
      some ({ d with
        cooked := EOF_SENTINEL :: d.cooked
        held := d.held - 1 }, [])
    else none
  | .keyboard lens => some (d.onIrq lens)
  | .inputRead n => some ({ d with events := d.events - n }, [])
  | .pipePush i n =>
    let p := d.pipes i
    if 0 < n ∧ p.len + n ≤ Pipe.PIPE_CAP then
      some (d.setPipe i { p with len := p.len + n }, [.pipeRead i])
    else none
  | .pipePop i n =>
    let p := d.pipes i
    if 0 < n ∧ n ≤ p.len then
      some (d.setPipe i { p with len := p.len - n }, [.pipeWrite i])
    else none
  | .closeReader i =>
    let p := d.pipes i
    some (d.setPipe i { p with readers := p.readers - 1 }, [.pipeWrite i])
  | .closeWriter i =>
    let p := d.pipes i
    some (d.setPipe i { p with writers := p.writers - 1 }, [.pipeRead i])
  | .connect j =>
    if d.backlog j < SOCK_BACKLOG_CAP then
      some ({ d with
        backlog := update d.backlog j (d.backlog j + 1) }, [.accept j])
    else none
  | .accept j =>
    some ({ d with
      backlog := update d.backlog j (d.backlog j - 1) }, [])
  | .tcp h s rx tx =>
    -- the promise of the stack: no news without its waker
    if ((d.tcp h).recvNews s → rx) ∧ ((d.tcp h).sendNews s → tx) then
      some (d.setTcp h s,
        (if rx then [.tcpRecv h] else []) ++
          if tx then [.tcpSend h] else [])
    else none
  | .tcpDrain h =>
    if (d.tcp h).canRecv then
      some (d.setTcp h
        { d.tcp h with
          canRecv := false
          mayRecv := false }, [])
    else none
  | .attach k st =>
    if (d.sockets k).becomes st then
      some ({ d with
        sockets := update d.sockets k st }, [])
    else none

/- The stack is locked while it calls its wakers. -/
def Dev.op (p : Nat) (ls : List WList) : Dev → WaitLists.Op WList Nat
  | .tcp _ _ _ _ => .flush ls
  | _ => .announce p ls

/- The socket whose state the step changes. -/
def Dev.socket? : Dev → Option Nat
  | .attach k _ => some k
  | _ => none

/- The steps that make something ready and wake nobody. -/
def Dev.mute : Dev → Bool
  | .consoleUnget => true
  | .tcpDrain _ => true
  | _ => false

-- Readiness

/- What `file_revents` looks at, one access each. -/
inductive Cond where
  | always
  | consolePending
  | inputPending
  | nonempty (i : Nat)
  | noWriters (i : Nat)
  | space (i : Nat)
  | noReaders (i : Nat)
  | queued (j : Nat)
  | canRecv (h : Nat)
  | hungUp (h : Nat)
  | canSend (h : Nat)
  | acceptable (h : Nat)
  deriving DecidableEq

def Cond.holds (d : Devices) : Cond → Bool
  | .always => true
  | .consolePending => decide (0 < d.cooked.length)
  | .inputPending => decide (0 < d.events)
  | .nonempty i => decide (0 < (d.pipes i).len)
  | .noWriters i => decide ((d.pipes i).writers = 0)
  | .space i => decide ((d.pipes i).len < Pipe.PIPE_CAP)
  | .noReaders i => decide ((d.pipes i).readers = 0)
  | .queued j => decide (0 < d.backlog j)
  | .canRecv h => (d.tcp h).canRecv
  | .hungUp h => !(d.tcp h).mayRecv
  | .canSend h => (d.tcp h).canSend
  | .acceptable h => (d.tcp h).acceptable

/- The list that is woken when the condition comes true. -/
def Cond.list : Cond → Option WList
  | .always => none
  | .consolePending => some .console
  | .inputPending => some .input
  | .nonempty i => some (.pipeRead i)
  | .noWriters i => some (.pipeRead i)
  | .space i => some (.pipeWrite i)
  | .noReaders i => some (.pipeWrite i)
  | .queued j => some (.accept j)
  | .canRecv h => some (.tcpRecv h)
  | .hungUp h => some (.tcpRecv h)
  | .canSend h => some (.tcpSend h)
  | .acceptable h => some (.tcpRecv h)

inductive File where
  | console
  | pipeRead (i : Nat)
  | pipeWrite (i : Nat)
  | socket (k : Nat)
  | inode
  | fb
  | input
  deriving DecidableEq

/- The test is made if its event is requested. -/
def asked (b : Bool) (c : Cond) : List Cond := if b then [c] else []

/- The tests of `file_revents`, in their order. -/
def File.conds (d : Devices) (pollin pollout : Bool) : File → List Cond
  | .console => asked pollin .consolePending ++ asked pollout .always
  | .pipeRead i => asked pollin (.nonempty i) ++ [.noWriters i]
  | .pipeWrite i => asked pollout (.space i) ++ [.noReaders i]
  | .socket k =>
    match d.sockets k with
    | .fresh => []
    | .listening j => asked pollin (.queued j)
    | .connected rx tx =>
      asked pollin (.nonempty rx) ++ [.noWriters rx] ++
        asked pollout (.space tx) ++ [.noReaders tx]
    | .tcp h =>
      asked pollin (.canRecv h) ++ [.hungUp h] ++
        asked pollout (.canSend h)
    | .tcpListening h => asked pollin (.acceptable h)
  | .inode => asked pollin .always ++ asked pollout .always
  | .fb => asked pollin .always ++ asked pollout .always
  | .input => asked pollin .inputPending

/- The lists that `PollWait` registers on for a file. -/
def File.lists (d : Devices) : File → List WList
  | .console => [.console]
  | .pipeRead i => [.pipeRead i]
  | .pipeWrite i => [.pipeWrite i]
  | .socket k =>
    match d.sockets k with
    | .fresh => []
    | .listening j => [.accept j]
    | .connected rx tx => [.pipeRead rx, .pipeWrite tx]
    | .tcp h => [.tcpRecv h, .tcpSend h]
    | .tcpListening h => [.tcpRecv h, .tcpSend h]
  | .inode => []
  | .fb => []
  | .input => [.input]

/- What a descriptor of the call names. -/
inductive Target where
  | ignored
  | bad
  | file (f : File)
  deriving DecidableEq

structure PollFd where
  target : Target
  pollin : Bool
  pollout : Bool
  deriving DecidableEq

/- A bad descriptor is ready at once, with `POLLNVAL`. -/
def PollFd.conds (d : Devices) (e : PollFd) : List Cond :=
  match e.target with
  | .ignored => []
  | .bad => [.always]
  | .file f => f.conds d e.pollin e.pollout

def PollFd.lists (d : Devices) (e : PollFd) : List WList :=
  match e.target with
  | .ignored => []
  | .bad => []
  | .file f => f.lists d

def PollFd.ready (d : Devices) (e : PollFd) : Prop :=
  ∃ c ∈ e.conds d, c.holds d = true

-- The Steps of a Caller

structure PollCall where
  entries : List PollFd
  timeout : Int
  deriving DecidableEq

/-
  Where a caller is.  `sweep` has the tests of the current
  descriptor and the descriptors left, the tests that failed
  so far, and whether one succeeded.  `swept` to `arm` come
  between the sweep and the registrations; `register` has the
  lists it is on, the lists of the current file and the
  descriptors left.  The rest is `input_read`.
-/
inductive Pc where
  | idle
  | sweep (call : PollCall) (cur : List Cond)
      (todo : List PollFd) (tested : List Cond) (found : Bool)
  | swept (call : PollCall) (tested : List Cond)
  | clock (call : PollCall) (tested : List Cond)
  | arm (call : PollCall) (tested : List Cond)
  | register (call : PollCall) (tested : List Cond) (regs cur : List WList) (todo : List PollFd)
  | parked (call : PollCall) (tested : List Cond) (regs : List WList)
  | inputTop (len : Nat) (nonblock : Bool)
  | inputRead (len : Nat) (nonblock : Bool)
  | inputWait (len : Nat) (nonblock : Bool)
  | inputArm (len : Nat) (nonblock : Bool)
  | inputReg (len : Nat) (nonblock : Bool)
  | inputParked (len : Nat) (nonblock : Bool)
  deriving DecidableEq

/- A step: the devices, the wait lists, a timer, the place. -/
structure Out where
  dev : Devices
  op : WaitLists.Op WList Nat
  timer : Bool
  pc : Pc

def Pc.goto (d : Devices) (k : Pc) : Option Out := some ⟨d, .skip, false, k⟩

def PollCall.top (call : PollCall) : Pc := .sweep call [] call.entries [] false

/-
  The next step of task `t`.  `late` says that the deadline
  of the call has passed; `tmp` of `input_read` has 64 bytes.
-/
def Pc.next (d : Devices) (killed : Bool) (ready : Nat) (late : Bool) (t : Nat) : Pc → Option Out
  | .idle => none
  | .sweep call (c :: cur) todo tested found =>
    if c.holds d then goto d (.sweep call cur todo tested true)
    else goto d (.sweep call cur todo (c :: tested) found)
  | .sweep call [] (e :: todo) tested found => goto d (.sweep call (e.conds d) todo tested found)
  | .sweep call [] [] tested found =>
    if found ∨ call.timeout = 0 then goto d .idle
    else goto d (.swept call tested)
  | .swept call tested => if killed then goto d .idle else goto d (.clock call tested)
  | .clock call tested =>
    if 0 < call.timeout ∧ late then goto d .idle
    else goto d (.arm call tested)
  | .arm call tested =>
    if killed then goto d call.top
    else goto d (.register call tested [] [] call.entries)
  | .register call tested regs (l :: cur) todo =>
    some ⟨d, l.join t, false, .register call tested (l :: regs) cur todo⟩
  | .register call tested regs [] (e :: todo) =>
    goto d (.register call tested regs (e.lists d) todo)
  | .register call tested regs [] [] =>
    some ⟨d, .skip, decide (0 < call.timeout), .parked call tested regs⟩
  | .parked call _ _ =>
    if 0 < ready then some ⟨d, .poll t, false, call.top⟩
    else none
  | .inputTop len nonblock =>
    if killed then goto d .idle
    else goto d (.inputRead len nonblock)
  | .inputRead len nonblock =>
    let n := min d.events (min len 64)
    if 0 < n then
      goto { d with events := d.events - n } .idle
    else if nonblock then goto d .idle
    else goto d (.inputWait len nonblock)
  | .inputWait len nonblock =>
    if Cond.inputPending.holds d then
      goto d (.inputTop len nonblock)
    else goto d (.inputArm len nonblock)
  | .inputArm len nonblock =>
    if killed then goto d (.inputTop len nonblock)
    else goto d (.inputReg len nonblock)
  | .inputReg len nonblock =>
    some ⟨d, WList.input.join t, false, .inputParked len nonblock⟩
  | .inputParked len nonblock =>
    if 0 < ready then
      some ⟨d, .poll t, false, .inputTop len nonblock⟩
    else none

inductive Call where
  | poll (call : PollCall)
  | read (len : Nat) (nonblock : Bool)

def Call.begin : Call → Option Pc
  | .poll call => if call.entries.length ≤ 64 then some call.top else none
  | .read len nonblock => some (.inputTop len nonblock)

structure Sys where
  dev : Devices
  waits : WaitLists WList Nat
  killed : Nat → Bool
  timers : List Nat
  pc : Nat → Pc

/-
  In `dev` somebody changes a device, a task or an interrupt
  handler, and is then in a call of `wake_all` with which
  `wake` goes on.  `enrol` registers a task that is in another
  call; `poke` queues a task for another reason, and `drain`
  polls one that is in no call of these two.
-/
inductive Act where
  | start (t : Nat) (c : Call)
  | run (t : Nat) (late : Bool)
  | dev (p : Nat) (v : Dev)
  | wake (p : Nat)
  | enrol (t : Nat) (l : WList)
  | poke (t : Nat)
  | drain (t : Nat)
  | kill (t : Nat)
  | expire (t : Nat)

namespace Sys

def go (σ : Sys) (t : Nat) (o : Out) : Sys :=
  { σ with
    dev := o.dev
    waits := σ.waits.apply o.op
    timers := if o.timer then t :: σ.timers else σ.timers
    pc := update σ.pc t o.pc }

def wait (σ : Sys) (op : WaitLists.Op WList Nat) : Sys :=
  { σ with waits := σ.waits.apply op }

def step (σ : Sys) : Act → Option Sys
  | .start t c =>
    if σ.pc t = .idle then
      c.begin.map fun k => σ.go t ⟨σ.dev, .skip, false, k⟩
    else none
  | .run t late =>
    ((σ.pc t).next σ.dev (σ.killed t) (σ.waits.ready t) late t).map (σ.go t)
  | .dev p v =>
    if p ∈ σ.waits.calls then none
    else
      (v.apply σ.dev).map fun x =>
        { σ.wait (v.op p x.2) with dev := x.1 }
  | .wake p =>
    if p ∈ σ.waits.calls then some (σ.wait (.wake p))
    else none
  | .enrol t l =>
    if σ.pc t = .idle then some (σ.wait (l.join t))
    else none
  | .poke t => some (σ.wait (.poke t))
  | .drain t =>
    if σ.pc t = .idle then some (σ.wait (.poll t))
    else none
  | .kill t => some { σ with killed := update σ.killed t true }
  | .expire t =>
    if t ∈ σ.timers then
      some { σ.wait (.poke t) with
        timers := σ.timers.erase t }
    else none

/- The devices are in any state; nobody has called yet. -/
def start (d : Devices) : Sys where
  dev := d
  waits := .empty
  killed := fun _ => false
  timers := []
  pc := fun _ => .idle

end Sys

-- Lists and Conditions

/- A file is on the lists of all that is tested of it. -/
theorem conds_listed {d : Devices} {e : PollFd} {c : Cond} {l : WList} (hMem : c ∈ e.conds d)
    (hList : c.list = some l) : l ∈ e.lists d := by
  rcases e with ⟨target, pollin, pollout⟩
  cases target with
  | ignored => cases hMem
  | bad =>
    rw [PollFd.conds, List.mem_singleton] at hMem
    subst hMem
    cases hList
  | file f =>
    cases f <;>
      grind [PollFd.conds, PollFd.lists, File.conds, File.lists, asked, Cond.list]

/- A key is only edited, or its line is released. -/
theorem consolePush_cases (d : Devices) (c : UInt8) :
    (∃ edit, d.consolePush c = ({ d with edit := edit }, [])) ∨ ∃ cooked, d.consolePush c =
        ({ d with cooked := cooked, edit := [] }, [.console]) := by
  unfold Devices.consolePush Devices.release
  dsimp only
  generalize (if c = 0x0d then 0x0a else c) = k
  split
  · exact .inl ⟨[], rfl⟩
  split
  · exact .inl ⟨_, rfl⟩
  split
  · split
    · exact .inr ⟨_, rfl⟩
    · exact .inl ⟨d.edit, rfl⟩
  split
  · exact .inl ⟨_, rfl⟩
  · exact .inl ⟨d.edit, rfl⟩

/- A change of one pipe bears on the four tests of it. -/
theorem holds_setPipe {d : Devices} {i : Nat} {p : PipeState} {c : Cond}
    (hHolds : c.holds (d.setPipe i p) = true) : c.holds d = true ∨ (c = .nonempty i ∧ 0 < p.len) ∨
      (c = .noWriters i ∧ p.writers = 0) ∨ (c = .space i ∧ p.len < Pipe.PIPE_CAP) ∨
      (c = .noReaders i ∧ p.readers = 0) := by
  cases c with
  | nonempty k | noWriters k | space k | noReaders k =>
    by_cases hk : k = i
    · subst hk
      right
      simpa [Cond.holds, Devices.setPipe] using hHolds
    · left
      simpa [Cond.holds, Devices.setPipe, update_of_ne hk] using hHolds
  | _ => exact .inl hHolds

/- A change of one TCP socket bears on the four tests of it. -/
theorem holds_setTcp {d : Devices} {h : Nat} {s : TcpSock} {c : Cond} (hBefore : c.holds d = false)
    (hAfter : c.holds (d.setTcp h s) = true) :
    ((d.tcp h).recvNews s ∧ c.list = some (.tcpRecv h)) ∨
      ((d.tcp h).sendNews s ∧ c.list = some (.tcpSend h)) := by
  cases c with
  | canRecv k | hungUp k | canSend k | acceptable k =>
    by_cases hk : k = h
    · subst hk
      simp only [Cond.holds, Devices.setTcp, update_self] at hBefore hAfter
      simp_all [Cond.list, TcpSock.recvNews, TcpSock.sendNews]
    · simp only [Cond.holds, Devices.setTcp, update_of_ne hk] at hBefore hAfter
      rw [hBefore] at hAfter
      cases hAfter
  | _ => exact absurd (hBefore.symm.trans hAfter) Bool.false_ne_true

/- What comes true is followed by a wake of its list. -/
theorem Dev.announces {d d' : Devices} {v : Dev} {ls : List WList} {c : Cond}
    (hApply : v.apply d = some (d', ls)) (hMute : v.mute = false) (hBefore : c.holds d = false)
    (hAfter : c.holds d' = true) : ∃ l, c.list = some l ∧ l ∈ ls := by
  have hNew : c.holds d ≠ c.holds d' := by
    rw [hBefore, hAfter]
    simp
  cases v with
  | consolePush k =>
    rcases consolePush_cases d k with ⟨edit, hPush⟩ | ⟨cooked, hPush⟩
    all_goals
      simp only [Dev.apply, hPush, Option.some.injEq, Prod.mk.injEq] at hApply
      rcases hApply with ⟨rfl, rfl⟩
      cases c with
      | consolePending => grind [Cond.holds, Cond.list]
      | _ => exact absurd rfl hNew
  | consolePop keep =>
    simp only [Dev.apply] at hApply
    split at hApply <;> cases hApply
    cases c with
    | consolePending => grind [Cond.holds]
    | _ => exact absurd rfl hNew
  | consoleUnget | tcpDrain h => cases hMute
  | keyboard lens | inputRead n =>
    cases hApply
    cases c with
    | inputPending => grind [Cond.holds, Cond.list, Devices.onIrq]
    | _ => exact absurd rfl hNew
  | pipePush i n | pipePop i n =>
    simp only [Dev.apply] at hApply
    split at hApply <;> cases hApply
    rcases holds_setPipe hAfter with hOld | ⟨rfl, h⟩ | ⟨rfl, h⟩ | ⟨rfl, h⟩ | ⟨rfl, h⟩
    · exact absurd (hOld.trans hAfter.symm) hNew
    all_goals grind [Cond.holds, Cond.list]
  | closeReader i | closeWriter i =>
    cases hApply
    rcases holds_setPipe hAfter with hOld | ⟨rfl, h⟩ | ⟨rfl, h⟩ | ⟨rfl, h⟩ | ⟨rfl, h⟩
    · exact absurd (hOld.trans hAfter.symm) hNew
    all_goals grind [Cond.holds, Cond.list]
  | connect j =>
    simp only [Dev.apply] at hApply
    split at hApply <;> cases hApply
    cases c with
    | queued k =>
      simp only [Cond.holds, update_apply] at hBefore hAfter
      grind [Cond.list]
    | _ => exact absurd rfl hNew
  | accept j =>
    cases hApply
    cases c with
    | queued k =>
      simp only [Cond.holds, update_apply] at hBefore hAfter
      grind
    | _ => exact absurd rfl hNew
  | tcp h s rx tx =>
    simp only [Dev.apply] at hApply
    split at hApply <;> cases hApply
    rename_i hPromise
    rcases holds_setTcp hBefore hAfter with ⟨hNews, hList⟩ | ⟨hNews, hList⟩
    · exact ⟨_, hList, by simp [hPromise.1 hNews]⟩
    · exact ⟨_, hList, by simp [hPromise.2 hNews]⟩
  | attach k st =>
    simp only [Dev.apply] at hApply
    split at hApply <;> cases hApply
    exact absurd (by cases c <;> rfl) hNew

/- The conditions of a file depend on sockets alone. -/
theorem Dev.sockets {d d' : Devices} {v : Dev} {ls : List WList}
    (hApply : v.apply d = some (d', ls)) {k : Nat} (hSocket : v.socket? ≠ some k) :
    d'.sockets k = d.sockets k := by
  cases v with
  | consolePush c =>
    rcases consolePush_cases d c with ⟨edit, hPush⟩ | ⟨cooked, hPush⟩
    all_goals
      simp only [Dev.apply, hPush, Option.some.injEq, Prod.mk.injEq] at hApply
      rcases hApply with ⟨rfl, rfl⟩
      rfl
  | consolePop keep | consoleUnget | pipePush i n | pipePop i n | connect j | tcp h s rx tx
  | tcpDrain h =>
    simp only [Dev.apply] at hApply
    split at hApply <;> cases hApply
    rfl
  | keyboard lens | inputRead n | closeReader i | closeWriter i | accept j =>
    cases hApply
    rfl
  | attach m st =>
    have hNe : k ≠ m := fun hEq => hSocket (by rw [hEq]; rfl)
    simp only [Dev.apply] at hApply
    split at hApply <;> cases hApply
    simp [update_of_ne hNe]

end Poll

end PlayXv6
