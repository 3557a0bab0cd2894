import PlayXv6.Lib.Machine
import PlayXv6.Lib.Holders

/-
  Forking, exiting and waiting.

  A process that exits hands its children to `init` and wakes
  its parent; a process that waits registers its waker, locks
  its list of children and looks for one that has exited.
  The lock sections and the atomic accesses of the two are
  separate steps, as are the taking of a waker and the
  queueing of the task.

  A process is named by its pid.  Wakes by signals, which
  take the same waker, are events that may happen at any time.

  Main declarations:
    * `Shared`, `Pc`
    * `Sys.step_cases`
-/

namespace PlayXv6

open Function

namespace Tree

def INIT : Nat := 1

/-
  The fields of the processes, by pid.  `ready` counts the
  entries of a task in the ready queue; `hands` are the
  wakers that signals have taken and not yet used.  `passed`,
  `removed` and `reaped` record what was passed to `exit`,
  who took whom from its list, and what waiting returned.
-/
structure Shared where
  children : Nat → List Nat
  parent : Nat → Option Nat
  zombie : Nat → Bool
  exitCode : Nat → Int
  waitWaker : Nat → Bool
  killed : Nat → Bool
  spawned : Nat → Bool
  ready : Nat → Nat
  nextPid : Nat
  hands : List Nat
  passed : Nat → Option Int
  removed : List (Nat × Nat)
  reaped : List (Nat × Nat × Int)

inductive Effect where
  | skip
  | create
  | setParent (c p : Nat)
  | push (c : Nat)
  | spawn (c : Nat)
  | pass (code : Int)
  | takeKids
  | splice (kids : List Nat)
  | takeWaker (t : Nat)
  | wake (t : Nat)
  | setCode (code : Int)
  | setZombie
  | register
  | remove (c : Nat)
  | reap (c : Nat) (code : Int)
  | poll

/- What the process `p` does to the shared state. -/
def Shared.apply (s : Shared) (p : Nat) : Effect → Shared
  | .skip => s
  | .create => { s with nextPid := s.nextPid + 1 }
  | .setParent c q => { s with parent := update s.parent c (some q) }
  | .push c =>
    { s with
      children := update s.children p (s.children p ++ [c]) }
  | .spawn c =>
    { s with
      spawned := update s.spawned c true
      ready := update s.ready c (s.ready c + 1) }
  | .pass code => { s with passed := update s.passed p (some code) }
  | .takeKids => { s with children := update s.children p [] }
  | .splice kids =>
    { s with
      children := update s.children INIT (s.children INIT ++ kids) }
  | .takeWaker t => { s with waitWaker := update s.waitWaker t false }
  | .wake t => { s with ready := update s.ready t (s.ready t + 1) }
  | .setCode code => { s with exitCode := update s.exitCode p code }
  | .setZombie => { s with zombie := update s.zombie p true }
  | .register => { s with waitWaker := update s.waitWaker p true }
  | .remove c =>
    { s with
      children := update s.children p ((s.children p).erase c)
      removed := (p, c) :: s.removed }
  | .reap c code => { s with reaped := (p, c, code) :: s.reaped }
  | .poll => { s with ready := update s.ready p (s.ready p - 1) }

-- The Steps of a Process

/-
  Where a process is.  `forkParent` to `forkSpawn` are
  `sys_fork`; `exitTake` to `dead` are `sys_exit_inner`;
  `poll` to `parked` are `WaitFor`, which holds the lock of
  the list from `scan` to `load`.
-/
inductive Pc where
  | unborn
  | user
  | forkParent (c : Nat)
  | forkPush (c : Nat)
  | forkSpawn (c : Nat)
  | exitTake (code : Int)
  | reparent (code : Int) (done todo : List Nat)
  | wakeInit (code : Int)
  | pushInit (code : Int)
  | setCode (code : Int)
  | setState
  | readParent
  | wakeParent (q : Nat)
  | pushParent (q : Nat)
  | dead
  | poll (filter : Option Nat) (nonblock : Bool)
  | register (filter : Option Nat) (nonblock : Bool)
  | lock (filter : Option Nat) (nonblock : Bool)
  | scan (filter : Option Nat) (nonblock anyMatch : Bool) (todo : List Nat)
  | remove (c : Nat)
  | load (c : Nat)
  | parked (filter : Option Nat) (nonblock : Bool)
  deriving DecidableEq

/- The process holds the lock of its list of children. -/
def Pc.scans : Pc → Bool
  | .scan _ _ _ _ => true
  | .remove _ => true
  | .load _ => true
  | _ => false

/- The child is one the call asks for. -/
def wanted (filter : Option Nat) (c : Nat) : Bool := filter.all fun p => c == p

/-
  The next step.  `free` says whether the list of `init` can
  be locked.  The weak pointer to a parent that has been
  freed is read like any other: its waker wakes nobody.
-/
def Pc.next (s : Shared) (free : Bool) (p : Nat) : Pc → Option (Effect × Pc)
  | .unborn => if s.spawned p then some (.poll, .user) else none
  | .user => none
  | .forkParent c => some (.setParent c p, .forkPush c)
  | .forkPush c => some (.push c, .forkSpawn c)
  | .forkSpawn c => some (.spawn c, .user)
  | .exitTake code =>
    if s.children p = [] then some (.takeKids, .setCode code)
    else some (.takeKids, .reparent code [] (s.children p))
  | .reparent code done [] => if free then some (.splice done, .wakeInit code) else none
  | .reparent code done (k :: todo) => some (.setParent k INIT, .reparent code (done ++ [k]) todo)
  | .wakeInit code =>
    if s.waitWaker INIT then
      some (.takeWaker INIT, .pushInit code)
    else some (.skip, .setCode code)
  | .pushInit code => some (.wake INIT, .setCode code)
  | .setCode code => some (.setCode code, .setState)
  | .setState => some (.setZombie, .readParent)
  | .readParent =>
    match s.parent p with
    | some q => some (.skip, .wakeParent q)
    | none => some (.skip, .dead)
  | .wakeParent q =>
    if s.waitWaker q then some (.takeWaker q, .pushParent q)
    else some (.skip, .dead)
  | .pushParent q => some (.wake q, .dead)
  | .dead => none
  | .poll filter nonblock =>
    if s.killed p then some (.skip, .user)
    else some (.skip, .register filter nonblock)
  | .register filter nonblock => some (.register, .lock filter nonblock)
  | .lock filter nonblock =>
    if s.children p = [] then some (.skip, .user)
    else
      some (.skip, .scan filter nonblock false (s.children p))
  | .scan filter nonblock anyMatch [] =>
    if filter.isSome && !anyMatch then some (.skip, .user)
    else if nonblock then some (.skip, .user)
    else some (.skip, .parked filter nonblock)
  | .scan filter nonblock anyMatch (c :: todo) =>
    if wanted filter c then
      if s.zombie c then some (.skip, .remove c)
      else some (.skip, .scan filter nonblock true todo)
    else some (.skip, .scan filter nonblock anyMatch todo)
  | .remove c => some (.remove c, .load c)
  | .load c => some (.reap c (s.exitCode c), .user)
  | .parked filter nonblock =>
    if 0 < s.ready p then
      some (.poll, .poll filter nonblock)
    else none

inductive Call where
  | fork
  | exit (code : Int)
  | wait (filter : Option Nat) (nonblock : Bool)

/- A process in user mode takes up a call. -/
def Call.begin (s : Shared) (p : Nat) : Call → Option (Effect × Pc)
  | .fork => some (.create, .forkParent s.nextPid)
  | .exit code => if p = INIT then none else some (.pass code, .exitTake code)
  | .wait filter nonblock => some (.skip, .poll filter nonblock)

-- The System

structure Sys where
  shared : Shared
  pc : Nat → Pc

/-
  Events from outside: a process is marked killed; a signal
  takes a waker and uses it; a task is queued directly; a
  process in user mode is polled, or registers in `pause`.
-/
inductive Env where
  | kill (p : Nat)
  | signal (p : Nat)
  | deliver (p : Nat)
  | poke (p : Nat)
  | drain (p : Nat)
  | pause (p : Nat)

def Sys.env (σ : Sys) : Env → Option Shared
  | .kill p =>
    some { σ.shared with
      killed := update σ.shared.killed p true }
  | .signal p =>
    if σ.shared.waitWaker p then
      some { σ.shared with
        waitWaker := update σ.shared.waitWaker p false
        hands := p :: σ.shared.hands }
    else none
  | .deliver p =>
    if p ∈ σ.shared.hands then
      some { σ.shared with
        ready := update σ.shared.ready p (σ.shared.ready p + 1)
        hands := σ.shared.hands.erase p }
    else none
  | .poke p =>
    some { σ.shared with
      ready := update σ.shared.ready p (σ.shared.ready p + 1) }
  | .drain p =>
    if σ.pc p = .user then
      some { σ.shared with
        ready := update σ.shared.ready p (σ.shared.ready p - 1) }
    else none
  | .pause p =>
    if σ.pc p = .user then
      some { σ.shared with
        waitWaker := update σ.shared.waitWaker p true }
    else none

inductive Act where
  | start (p : Nat) (c : Call)
  | run (p : Nat)
  | env (e : Env)

namespace Sys

/- The process takes a step to `pc` with the effect. -/
def go (σ : Sys) (p : Nat) (x : Effect × Pc) : Sys where
  shared := σ.shared.apply p x.1
  pc := update σ.pc p x.2

/- The list of `init` is not locked by `init`. -/
def free (σ : Sys) : Bool := !(σ.pc INIT).scans

def step (σ : Sys) : Act → Option Sys
  | .start p c =>
    if σ.pc p = .user then
      (c.begin σ.shared p).map (σ.go p)
    else none
  | .run p => ((σ.pc p).next σ.shared σ.free p).map (σ.go p)
  | .env e => (σ.env e).map fun s => { σ with shared := s }

/- `init` alone. -/
def boot : Sys where
  shared :=
    { children := fun _ => []
      parent := fun _ => none
      zombie := fun _ => false
      exitCode := fun _ => 0
      waitWaker := fun _ => false
      killed := fun _ => false
      spawned := fun _ => false
      ready := fun _ => 0
      nextPid := 2
      hands := []
      passed := fun _ => none
      removed := []
      reaped := [] }
  pc := update (fun _ => .unborn) INIT .user

end Sys

/-
  The steps of a process, begun calls included: where it
  stands, the effect, and where it stands then.
-/
def Moves (s : Shared) (free : Bool) (p : Nat) (k : Pc) (e : Effect) (k' : Pc) : Prop :=
  k.next s free p = some (e, k') ∨ k = .user ∧ ∃ c : Call, c.begin s p = some (e, k')

theorem Sys.step_cases {σ σ' : Sys} {a : Act} (hStep : σ.step a = some σ') :
    (∃ p e k', Moves σ.shared σ.free p (σ.pc p) e k' ∧ σ' = σ.go p (e, k')) ∨
    ∃ v s, σ.env v = some s ∧ σ' = { σ with shared := s } := by
  cases a with
  | start p c =>
    left
    simp only [step] at hStep
    split at hStep
    · rename_i hUser
      rcases Option.map_eq_some_iff.mp hStep with ⟨⟨e, k'⟩, hBegin, hGo⟩
      exact ⟨p, e, k', .inr ⟨hUser, c, hBegin⟩, hGo.symm⟩
    · cases hStep
  | run p =>
    left
    rcases Option.map_eq_some_iff.mp hStep with ⟨⟨e, k'⟩, hNext, hGo⟩
    exact ⟨p, e, k', .inl hNext, hGo.symm⟩
  | env v =>
    right
    rcases Option.map_eq_some_iff.mp hStep with ⟨s, hEnv, hEq⟩
    exact ⟨v, s, hEnv, hEq.symm⟩

end Tree

end PlayXv6
