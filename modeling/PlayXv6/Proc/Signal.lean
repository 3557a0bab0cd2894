import PlayXv6.Lib.Machine

/-
  Signals: raising, blocking, delivery and return.

  `sys_kill` and an expiring alarm read the disposition of a
  signal and then act on it; the process itself consults its
  pending and blocked masks on its way back to user mode.
  Every process runs its own kernel code in order; the two
  halves of a raise and of a delivery are separate steps, so
  that raises from other harts fall between them.

  Time is left out: an alarm may expire at any moment after
  it was set.  The wakes that follow a raise are left out as
  well, since they only decide when a process runs.

  Main declarations:
    * `Proc`, `Sys.step`
    * `Sys.step_from`, `sigkill_final`
-/

namespace PlayXv6

open Function

namespace Sig

/- The user registers of a trapframe, in its order. -/
inductive Reg where
  | ra | sp | gp | tp | t0 | t1 | t2 | s0 | s1
  | a0 | a1 | a2 | a3 | a4 | a5 | a6 | a7
  | s2 | s3 | s4 | s5 | s6 | s7 | s8 | s9 | s10 | s11
  | t3 | t4 | t5 | t6
  deriving DecidableEq

/- What `return_to_user` writes for the next trap. -/
structure KernelWords where
  kernelSatp : UInt64
  kernelSp : UInt64
  kernelTrap : UInt64
  kernelHartid : UInt64
  deriving DecidableEq

def KernelWords.zero : KernelWords := ⟨0, 0, 0, 0⟩

structure TrapFrame where
  kernel : KernelWords
  epc : UInt64
  regs : Reg → UInt64

namespace TrapFrame

/- `TrapFrame::default()`. -/
def default : TrapFrame where
  kernel := .zero
  epc := 0
  regs := fun _ => 0

def setReg (tf : TrapFrame) (r : Reg) (v : UInt64) : TrapFrame :=
  { tf with regs := update tf.regs r v }

def setEpc (tf : TrapFrame) (v : UInt64) : TrapFrame := { tf with epc := v }

def arg (tf : TrapFrame) : Nat → UInt64
  | 0 => tf.regs .a0
  | 1 => tf.regs .a1
  | 2 => tf.regs .a2
  | 3 => tf.regs .a3
  | 4 => tf.regs .a4
  | 5 => tf.regs .a5
  | _ => 0

def setArg (tf : TrapFrame) (n : Nat) (v : UInt64) : TrapFrame :=
  match n with
  | 0 => tf.setReg .a0 v
  | 1 => tf.setReg .a1 v
  | 2 => tf.setReg .a2 v
  | 3 => tf.setReg .a3 v
  | _ => tf

/- Writing back the first argument changes nothing. -/
theorem setArg_arg (tf : TrapFrame) : tf.setArg 0 (tf.arg 0) = tf := by simp [setArg, arg, setReg]

end TrapFrame

def SIGKILL : Fin 32 := 9
def SIGALRM : Fin 32 := 14
def SIGSTOP : Fin 32 := 19

def SIG_DFL : UInt64 := 0
def SIG_IGN : UInt64 := 1

def SIG_BLOCK : Int := 0
def SIG_UNBLOCK : Int := 1
def SIG_SETMASK : Int := 2

/- The signal that an `i32` argument names. -/
def signal? (n : Int) : Option (Fin 32) :=
  if h : 0 ≤ n ∧ n ≤ 31 then
    some ⟨n.toNat, by omega⟩
  else
    none

def sigDefaultKills (s : Fin 32) : Bool :=
  s ∈ ([1, 2, 3, 4, 6, 9, 10, 11, 12, 13, 14, 15] :
    List (Fin 32))

abbrev Mask := BitVec 32

def bit (s : Fin 32) : Mask := 1#32 <<< s.val

def Mask.has (m : Mask) (s : Fin 32) : Bool := m.getLsbD s

/- The least signal of a mask, `trailing_zeros`. -/
def Mask.lowest (m : Mask) : Option (Fin 32) := (List.finRange 32).find? fun s => Mask.has m s

theorem has_bit (s t : Fin 32) : Mask.has (bit s) t = decide (t = s) := by
  unfold Mask.has bit
  rw [← BitVec.twoPow_eq, BitVec.getLsbD_twoPow]
  simp [Fin.ext_iff, eq_comm]

theorem has_or (m k : Mask) (t : Fin 32) : Mask.has (m ||| k) t = (Mask.has m t || Mask.has k t) :=
  BitVec.getLsbD_or

theorem has_and_not (m k : Mask) (t : Fin 32) : Mask.has (m &&& ~~~k) t =
      (Mask.has m t && !Mask.has k t) := by simp [Mask.has]

theorem lowest_has {m : Mask} {s : Fin 32} (hLow : Mask.lowest m = some s) : Mask.has m s = true :=
  List.find?_some hLow

theorem lowest_le {m : Mask} {s : Fin 32} (hHas : Mask.has m s = true) :
    ∃ k, Mask.lowest m = some k ∧ k ≤ s := by
  cases hLow : Mask.lowest m with
  | none =>
    have hNone := List.find?_eq_none.mp hLow s (List.mem_finRange s)
    exact absurd hHas hNone
  | some k =>
    refine ⟨k, rfl, ?_⟩
    by_contra hLt
    rw [not_le] at hLt
    rcases List.find?_eq_some_iff_getElem.mp hLow with ⟨_, i, hi, hAt, hBefore⟩
    have hik : i = k := by
      have hVal := congrArg Fin.val hAt
      simpa using hVal
    have hs := hBefore s (by omega)
    simp [hHas] at hs

structure SigAction where
  handler : UInt64
  restorer : UInt64
  mask : Mask
  deriving DecidableEq

def SigAction.defaultAction : SigAction where
  handler := SIG_DFL
  restorer := 0
  mask := 0

/- The disposition is a handler of the program. -/
def SigAction.caught (act : SigAction) : Prop := act.handler ≠ SIG_DFL ∧ act.handler ≠ SIG_IGN

instance (act : SigAction) : Decidable act.caught := inferInstanceAs (Decidable (_ ∧ _))

-- Processes

/-
  Where a process is: in user mode, handling a trap, inside
  `sys_kill` after reading the disposition of the target,
  at the end of the trap, past the check of `killed`, or
  inside `maybe_deliver_signal` after choosing a signal.
-/
inductive Mode where
  | user
  | kernel
  | killing (target : Nat) (sig : Fin 32) (handler : UInt64)
  | leaving
  | returning
  | delivering (sig : Fin 32) (act : SigAction) (blocked : Mask)
  | zombie
  deriving DecidableEq

structure Proc where
  trapframe : TrapFrame
  sigPending : Mask
  sigBlocked : Mask
  sigActions : Fin 32 → SigAction
  sigSavedFrame : Option TrapFrame
  sigSavedBlocked : Mask
  alarmGeneration : BitVec 32
  killed : Bool
  mode : Mode

namespace Proc

def withLayout (tf : TrapFrame) : Proc where
  trapframe := tf
  sigPending := 0
  sigBlocked := 0
  sigActions := fun _ => SigAction.defaultAction
  sigSavedFrame := none
  sigSavedBlocked := 0
  alarmGeneration := 0
  killed := false
  mode := .returning

def ret (q : Proc) (v : UInt64) : Proc :=
  { q with
    trapframe := q.trapframe.setArg 0 v
    mode := .leaving }

/- The child that `fork_from_inner` builds. -/
def forkFrom (parent : Proc) : Proc :=
  { withLayout (parent.trapframe.setArg 0 0) with
    sigBlocked := parent.sigBlocked
    sigActions := parent.sigActions }

/-
  The second half of `sys_kill`, on the target: `handler` is
  the disposition that the first half has read.
-/
def raise (sig : Fin 32) (handler : UInt64) (q : Proc) : Proc :=
  if handler = SIG_DFL then
    if sigDefaultKills sig then { q with killed := true }
    else q
  else if handler = SIG_IGN then q
  else { q with sigPending := q.sigPending ||| bit sig }

/- The same of an expired alarm. -/
def raiseAlarm (handler : UInt64) (q : Proc) : Proc :=
  if handler = SIG_DFL then { q with killed := true }
  else if handler = SIG_IGN then q
  else { q with sigPending := q.sigPending ||| bit SIGALRM }

/- An alarm is raised as `sys_kill` raises `SIGALRM`. -/
theorem raiseAlarm_eq (handler : UInt64) (q : Proc) :
    raiseAlarm handler q = raise SIGALRM handler q := by
  have hKills : sigDefaultKills SIGALRM = true := by decide
  simp [raiseAlarm, raise, hKills]

def sysSigaction (signum : Int) (act : SigAction) (q : Proc) : UInt64 × Proc :=
  match signal? signum with
  | none => (-1, q)
  | some s =>
    if s = 0 ∨ s = SIGKILL ∨ s = SIGSTOP then (-1, q)
    else
      ((q.sigActions s).handler,
        { q with
          sigActions := update q.sigActions s act })

def sysSigreturn (q : Proc) : UInt64 × Proc :=
  match q.sigSavedFrame with
  | none => (-1, q)
  | some saved =>
    (saved.arg 0,
      { q with
        sigSavedFrame := none
        trapframe := saved
        sigBlocked := q.sigSavedBlocked })

/- The mask that `sys_sigprocmask` stores. -/
def newMask (how : Int) (set prev : Mask) : Option Mask :=
  let set := set &&& ~~~(bit SIGKILL ||| bit SIGSTOP)
  if how = SIG_BLOCK then some (prev ||| set)
  else if how = SIG_UNBLOCK then some (prev &&& ~~~set)
  else if how = SIG_SETMASK then some set
  else none

/- `stored` says whether `oldset` could be written; it is written after the mask is changed. -/
def sysSigprocmask (how : Int) (set : Mask) (stored : Bool) (q : Proc) : UInt64 × Proc :=
  match newMask how set q.sigBlocked with
  | none => (-1, q)
  | some new => (if stored then 0 else -1, { q with sigBlocked := new })

/- A successful `sys_execve`, `replace_image` included. -/
def sysExecve (entry sp argv envp argc : UInt64) (q : Proc) : UInt64 × Proc :=
  (argc,
    { q with
      sigActions := fun _ => SigAction.defaultAction
      sigSavedFrame := none
      trapframe := (((TrapFrame.default.setEpc entry).setReg .sp sp).setArg 1 argv).setArg 2 envp })

def runnable (q : Proc) : Mask := q.sigPending &&& ~~~q.sigBlocked

/-
  The first half of `maybe_deliver_signal`: what it does
  next, having read the masks and the disposition.
-/
def choose (q : Proc) : Mode :=
  if q.sigSavedFrame.isSome then .user
  else
    match Mask.lowest q.runnable with
    | none => .user
    | some sig =>
      let act := q.sigActions sig
      if act.caught ∧ act.restorer = 0 then .user
      else .delivering sig act q.sigBlocked

/- The second half, from the dequeueing of the signal on. -/
def deliver (sig : Fin 32) (act : SigAction) (blocked : Mask) (q : Proc) : Proc :=
  let q := { q with sigPending := q.sigPending &&& ~~~bit sig }
  if act.caught then
    { q with
      sigSavedFrame := some q.trapframe
      sigBlocked := blocked ||| act.mask ||| bit sig
      sigSavedBlocked := q.sigBlocked
      trapframe := ((q.trapframe.setArg 0 (UInt64.ofNat sig.val)).setEpc
            act.handler).setReg .ra act.restorer }
  else q

/- The rest of `return_to_user`. -/
def enter (words : KernelWords) (q : Proc) : Proc :=
  { q with
    trapframe := { q.trapframe with kernel := words }
    mode := .user }

end Proc

/- System calls that touch the caller alone. -/
inductive Call where
  | sigaction (signum : Int) (act : SigAction)
  | sigprocmask (how : Int) (set : Mask) (stored : Bool)
  | sigreturn
  | execve (entry sp argv envp argc : UInt64)
  | other (v : UInt64)

def Call.run (q : Proc) : Call → UInt64 × Proc
  | .sigaction signum act => q.sysSigaction signum act
  | .sigprocmask how set stored => q.sysSigprocmask how set stored
  | .sigreturn => q.sysSigreturn
  | .execve entry sp argv envp argc => q.sysExecve entry sp argv envp argc
  | .other v => (v, q)

/-
  Steps that change the acting process alone.  `trap` enters
  the kernel with any registers; `event` is a trap other than
  a system call, which kills the process if it is fatal.
-/
inductive Own where
  | trap (epc : UInt64) (regs : Reg → UInt64)
  | event (fatal : Bool)
  | call (c : Call)
  | exit
  | leave
  | look (words : KernelWords)
  | deliver (words : KernelWords)

def Proc.next (q : Proc) : Own → Option Proc
  | .trap epc regs =>
    if q.mode = .user then
      some { q with
        trapframe := { q.trapframe with
          epc := epc
          regs := regs }
        mode := .kernel }
    else none
  | .event fatal =>
    if q.mode = .kernel then
      some { q with
        killed := q.killed || fatal
        mode := .leaving }
    else none
  | .call c =>
    if q.mode = .kernel then
      some ((c.run q).2.ret (c.run q).1)
    else none
  | .exit =>
    if q.mode = .kernel then some { q with mode := .zombie }
    else none
  | .leave =>
    if q.mode = .leaving then
      some { q with
        mode := if q.killed then .zombie else .returning }
    else none
  | .look words =>
    if q.mode = .returning then
      if q.choose = .user then some (q.enter words)
      else some { q with mode := q.choose }
    else none
  | .deliver words =>
    match q.mode with
    | .delivering sig act blocked => some ((q.deliver sig act blocked).enter words)
    | _ => none

-- The System

/-
  The processes by pid, the alarms that are set, and the
  expired alarms whose disposition has been read.
-/
structure Sys where
  procs : Nat → Option Proc
  nextPid : Nat
  alarms : List (Nat × BitVec 32)
  due : List (Nat × UInt64)

namespace Sys

def modify (σ : Sys) (p : Nat) (f : Proc → Proc) : Sys :=
  { σ with
    procs := update σ.procs p ((σ.procs p).map f) }

/- `init` alone, on its way to user mode. -/
def boot (tf : TrapFrame) : Sys where
  procs := update (fun _ => none) 1 (some (Proc.withLayout tf))
  nextPid := 2
  alarms := []
  due := []

end Sys

inductive Act where
  | own (p : Nat) (o : Own)
  | alarm (p : Nat) (seconds : BitVec 32) (remaining : UInt64)
  | fork (p : Nat) (ok : Bool)
  | kill (p : Nat) (pid sig : Int)
  | killAct (p : Nat)
  | expire (i : Nat)
  | expireAct (i : Nat)
  | reap (p : Nat)

namespace Sys

/- The first half of `sys_kill`. -/
def sysKill (σ : Sys) (p : Nat) (pid sig : Int) : Sys :=
  if pid ≤ 0 then σ.modify p (·.ret (-1))
  else
    match signal? sig, σ.procs pid.toNat with
    | some s, some target =>
      if s = 0 then σ.modify p (·.ret 0)
      else if s = SIGKILL then
        (σ.modify pid.toNat fun q => { q with killed := true }).modify p (·.ret 0)
      else if s = SIGSTOP then σ.modify p (·.ret 0)
      else
        σ.modify p fun q =>
          { q with
            mode := .killing pid.toNat s (target.sigActions s).handler }
    | _, _ => σ.modify p (·.ret (-1))

def step (σ : Sys) : Act → Option Sys
  | .own p o =>
    match σ.procs p with
    | some q => (q.next o).map fun q' => σ.modify p fun _ => q'
    | none => none
  | .alarm p seconds remaining =>
    match σ.procs p with
    | some q =>
      if q.mode = .kernel then
        let gen := q.alarmGeneration + 1
        let σ' := σ.modify p fun q => { q with alarmGeneration := gen }.ret remaining
        if seconds = 0 then some σ'
        else some { σ' with alarms := σ.alarms ++ [(p, gen)] }
      else none
    | none => none
  | .fork p ok =>
    match σ.procs p with
    | some q =>
      if q.mode = .kernel then
        if ok then
          some { σ.modify p (·.ret (UInt64.ofNat σ.nextPid)) with
              procs := update (σ.modify p (·.ret (UInt64.ofNat σ.nextPid))).procs
                σ.nextPid (some q.forkFrom)
              nextPid := σ.nextPid + 1 }
        else some (σ.modify p (·.ret (-1)))
      else none
    | none => none
  | .kill p pid sig =>
    match σ.procs p with
    | some q =>
      if q.mode = .kernel then some (σ.sysKill p pid sig)
      else none
    | none => none
  | .killAct p =>
    match (σ.procs p).map Proc.mode with
    | some (.killing target s handler) =>
      some ((σ.modify target (Proc.raise s handler)).modify p (·.ret 0))
    | _ => none
  | .expire i =>
    match σ.alarms[i]? with
    | some (p, gen) =>
      let σ' := { σ with alarms := σ.alarms.eraseIdx i }
      match σ.procs p with
      | some q =>
        if q.alarmGeneration = gen then
          some { σ' with
            due := σ.due ++ [(p, (q.sigActions SIGALRM).handler)] }
        else some σ'
      | none => some σ'
    | none => none
  | .expireAct i =>
    match σ.due[i]? with
    | some (p, handler) =>
      some { σ.modify p (Proc.raiseAlarm handler) with
        due := σ.due.eraseIdx i }
    | none => none
  | .reap p =>
    match (σ.procs p).map Proc.mode with
    | some .zombie => some { σ with procs := update σ.procs p none }
    | _ => none

-- What a Step Does to One Process

variable {σ σ' : Sys} {p r : Nat}

theorem modify_procs (f : Proc → Proc) : (σ.modify p f).procs r =
      if r = p then (σ.procs r).map f else σ.procs r := by
  unfold modify
  by_cases hEq : r = p
  · subst hEq
    simp
  · simp [hEq]

/- What others, and the calls that reach beyond the caller, leave of a process. -/
structure Kept (q q' : Proc) : Prop where
  frame : q'.sigSavedFrame = q.sigSavedFrame
  savedBlocked : q'.sigSavedBlocked = q.sigSavedBlocked
  blocked : q'.sigBlocked = q.sigBlocked
  actions : q'.sigActions = q.sigActions
  pending : ∀ s, Mask.has q.sigPending s = true → Mask.has q'.sigPending s = true
  epc : q'.trapframe.epc = q.trapframe.epc
  mode : q'.mode = q.mode ∨ q'.mode = .leaving ∨
    ∃ target s handler, q'.mode = .killing target s handler

theorem Kept.refl (q : Proc) : Kept q q := ⟨rfl, rfl, rfl, rfl, fun _ h => h, rfl, .inl rfl⟩

theorem Kept.ret {q q' : Proc} (hKept : Kept q q') (v : UInt64) : Kept q (q'.ret v) where
  frame := hKept.frame
  savedBlocked := hKept.savedBlocked
  blocked := hKept.blocked
  actions := hKept.actions
  pending := hKept.pending
  epc := hKept.epc
  mode := .inr (.inl rfl)

theorem Kept.kill {q q' : Proc} (hKept : Kept q q') : Kept q { q' with killed := true } := by
  constructor <;>
    simp [hKept.frame, hKept.savedBlocked, hKept.blocked, hKept.actions, hKept.epc, hKept.mode]
  exact hKept.pending

theorem kept_raise (s : Fin 32) (handler : UInt64) (q : Proc) : Kept q (q.raise s handler) := by
  unfold Proc.raise
  split
  · split
    · exact (Kept.refl q).kill
    · exact .refl q
  · split
    · exact .refl q
    · refine ⟨rfl, rfl, rfl, rfl, ?_, rfl, .inl rfl⟩
      intro t hHas
      rw [has_or, hHas, Bool.true_or]

theorem Kept.trans {q q₁ q₂ : Proc} (hFirst : Kept q q₁) (hThen : Kept q₁ q₂) : Kept q q₂ where
  frame := hThen.frame.trans hFirst.frame
  savedBlocked := hThen.savedBlocked.trans hFirst.savedBlocked
  blocked := hThen.blocked.trans hFirst.blocked
  actions := hThen.actions.trans hFirst.actions
  pending := fun s h => hThen.pending s (hFirst.pending s h)
  epc := hThen.epc.trans hFirst.epc
  mode := by
    rcases hThen.mode with hSame | hElse
    · rw [hSame]
      exact hFirst.mode
    · exact .inr hElse

/- `sys_kill` stands between reading and acting. -/
theorem kept_killing (target : Nat) (s : Fin 32) (handler : UInt64) (q : Proc) :
    Kept q { q with mode := .killing target s handler } := ⟨rfl, rfl, rfl, rfl, fun _ h => h, rfl,
    .inr (.inr ⟨target, s, handler, rfl⟩)⟩

theorem kept_of_modify {f : Proc → Proc} (hKept : ∀ q, Kept q (f q)) {q' : Proc}
    (hProc' : (σ.modify p f).procs r = some q') : ∃ q, σ.procs r = some q ∧ Kept q q' := by
  rw [modify_procs] at hProc'
  split at hProc'
  · rcases Option.map_eq_some_iff.mp hProc' with ⟨q, hProc, rfl⟩
    exact ⟨q, hProc, hKept q⟩
  · exact ⟨q', hProc', .refl q'⟩

/- Pids from the counter on are unused. -/
def Fresh (σ : Sys) : Prop := ∀ p, σ.nextPid ≤ p → σ.procs p = none

theorem kept_of_ret {v : UInt64} {q' : Proc} (hProc' : (σ.modify p (·.ret v)).procs r = some q') :
    ∃ q, σ.procs r = some q ∧ Kept q q' := kept_of_modify (fun q => (Kept.refl q).ret v) hProc'

/- One process is changed, then the other call returns. -/
theorem kept_of_modify_ret {f : Proc → Proc} {v : UInt64} {t : Nat} {q' : Proc}
    (hKept : ∀ q, Kept q (f q)) (hProc' : ((σ.modify t f).modify p (·.ret v)).procs r = some q') :
    ∃ q, σ.procs r = some q ∧ Kept q q' := by
  rcases kept_of_ret hProc' with ⟨q₁, hProc₁, hThen⟩
  rcases kept_of_modify hKept hProc₁ with ⟨q, hProc, hFirst⟩
  exact ⟨q, hProc, hFirst.trans hThen⟩

theorem kept_of_sysKill {pid sig : Int} {q' : Proc}
    (hProc' : (σ.sysKill p pid sig).procs r = some q') : ∃ q, σ.procs r = some q ∧ Kept q q' := by
  unfold sysKill at hProc'
  repeat' split at hProc'
  case h_1.isFalse.isTrue => exact kept_of_modify_ret (fun q => (Kept.refl q).kill) hProc'
  case h_1.isFalse.isFalse.isFalse => exact kept_of_modify (kept_killing _ _ _) hProc'
  all_goals exact kept_of_ret hProc'

/-
  Every process after a step was there before, and was
  either kept or took the step itself; or it is the child of
  a fork.
-/
theorem step_from {a : Act} {q' : Proc} (hStep : σ.step a = some σ')
    (hProc' : σ'.procs p = some q') : (∃ q, σ.procs p = some q ∧
      (Kept q q' ∨ ∃ o, a = .own p o ∧ q.next o = some q')) ∨ (∃ r parent, a = .fork r true ∧
      σ.procs r = some parent ∧ p = σ.nextPid ∧ q' = parent.forkFrom) := by
  have hLift : (∃ q, σ.procs p = some q ∧ Kept q q') → ∃ q, σ.procs p = some q ∧
        (Kept q q' ∨ ∃ o, a = .own p o ∧ q.next o = some q') :=
    fun ⟨q, hProc, hKept⟩ => ⟨q, hProc, .inl hKept⟩
  cases a with simp only [step] at hStep
  | own r o =>
    left
    split at hStep
    case h_2 => cases hStep
    rename_i q hProc
    rcases Option.map_eq_some_iff.mp hStep with ⟨q₁, hNext, rfl⟩
    rw [modify_procs] at hProc'
    split at hProc'
    · rename_i hEq
      subst hEq
      rw [hProc, Option.map_some, Option.some.injEq] at hProc'
      subst hProc'
      exact ⟨q, hProc, .inr ⟨o, rfl, hNext⟩⟩
    · exact ⟨q', hProc', .inl (.refl q')⟩
  | alarm r seconds remaining =>
    left
    refine hLift ?_
    repeat' split at hStep
    all_goals cases hStep
    all_goals
      refine kept_of_modify (fun q₁ => ?_) hProc'
      exact ⟨rfl, rfl, rfl, rfl, fun _ h => h, rfl, .inr (.inl rfl)⟩
  | fork r ok =>
    repeat' split at hStep
    all_goals cases hStep
    · rename_i q hProc _ hOk
      by_cases hEq : p = σ.nextPid
      · right
        subst hEq hOk
        refine ⟨r, q, rfl, hProc, rfl, ?_⟩
        simpa using hProc'.symm
      · left
        have hOld : (σ.modify r (·.ret (UInt64.ofNat σ.nextPid))).procs p = some q' := by
          simpa [update_of_ne hEq] using hProc'
        exact hLift (kept_of_ret hOld)
    · exact .inl (hLift (kept_of_ret hProc'))
  | kill r pid sig =>
    repeat' split at hStep
    all_goals cases hStep
    exact .inl (hLift (kept_of_sysKill hProc'))
  | killAct r =>
    split at hStep <;> cases hStep
    exact .inl (hLift (kept_of_modify_ret (kept_raise _ _) hProc'))
  | expire i =>
    -- the alarm only becomes due
    repeat' split at hStep
    all_goals cases hStep
    all_goals exact .inl ⟨q', hProc', .inl (.refl q')⟩
  | expireAct i =>
    split at hStep <;> cases hStep
    refine .inl (hLift (kept_of_modify (fun q => ?_) hProc'))
    rw [Proc.raiseAlarm_eq]
    exact kept_raise _ _ q
  | reap r =>
    split at hStep <;> cases hStep
    by_cases hEq : p = r
    · simp [hEq] at hProc'
    · refine .inl ⟨q', ?_, .inl (.refl q')⟩
      simpa [update_of_ne hEq] using hProc'

theorem nextPid_step {a : Act} (hStep : σ.step a = some σ') : σ.nextPid ≤ σ'.nextPid ∧
      ∀ r, a = .fork r true → σ'.nextPid = σ.nextPid + 1 := by
  cases a with
  | own r o => grind [step, modify, Option.map_eq_some_iff]
  | alarm r seconds remaining | fork r ok | killAct r | expireAct i => grind [step, modify]
  | kill r pid sig => grind [step, modify, sysKill]
  | expire i | reap r => grind [step]

theorem fresh_step {a : Act} (hFresh : σ.Fresh) (hStep : σ.step a = some σ') : σ'.Fresh := by
  rcases nextPid_step hStep with ⟨hMono, hFork⟩
  intro p hp
  cases hProc' : σ'.procs p with
  | none => rfl
  | some q' =>
    rcases step_from hStep hProc' with ⟨q, hProc, _⟩ | ⟨r, parent, hAct, _, hEq, _⟩
    · rw [hFresh p (by omega)] at hProc
      cases hProc
    · have hNext := hFork r hAct
      omega

theorem fresh_boot (tf : TrapFrame) : (boot tf).Fresh := by
  intro p hp
  have hNe : p ≠ 1 := by
    simp only [boot] at hp
    omega
  simp [boot, update_of_ne hNe]

theorem fresh_of_reach {Ok : Sys → Act → Prop} {tf : TrapFrame}
    (hReach : Machine.Reach step Ok (boot tf) σ) : σ.Fresh :=
  hReach.invariant (fun _ _ _ hInv _ hStep => fresh_step hInv hStep) (fresh_boot tf)

theorem Fresh.lt {q : Proc} (hFresh : σ.Fresh) (hProc : σ.procs p = some q) : p < σ.nextPid := by
  by_contra hNot
  rw [hFresh p (not_lt.mp hNot)] at hProc
  cases hProc

theorem step_own {q : Proc} (hProc : σ.procs p = some q) (o : Own) : σ.step (.own p o) =
      (q.next o).map fun q' => σ.modify p fun _ => q' := by simp [step, hProc]

theorem modify_self {q q' : Proc} (hProc : σ.procs p = some q) :
    (σ.modify p fun _ => q').procs p = some q' := by simp [modify_procs, hProc]

end Sys

-- Killed Processes

variable {σ σ' : Sys} {p r : Nat} {q q' : Proc} {B : Prop}

/- The process is in the kernel and not past the check of `killed`. -/
def Mode.inside : Mode → Bool
  | .kernel | .killing _ _ _ | .leaving | .zombie => true
  | _ => false

/- The process has been killed and, if `B` says so, is in the kernel. -/
def Doomed (B : Prop) (q : Proc) : Prop := q.killed = true ∧ (B → q.mode.inside = true)

def DoomedAt (B : Prop) (p : Nat) (σ : Sys) : Prop := ∀ q, σ.procs p = some q → Doomed B q

theorem Doomed.next {o : Own} (hDoomed : Doomed B q) (hNext : q.next o = some q') :
    Doomed B q' := by
  have hKilled := hDoomed.1
  cases o with simp only [Proc.next] at hNext
  | trap epc regs | event fatal | exit | leave =>
    split at hNext <;> cases hNext
    simp [Doomed, hKilled, Mode.inside]
  | call c =>
    split at hNext <;> cases hNext
    have hSame : (c.run q).2.killed = q.killed := by
      cases c <;>
        grind [Call.run, Proc.sysSigaction, Proc.sysSigprocmask, Proc.sysSigreturn, Proc.sysExecve]
    exact ⟨hSame.trans hKilled, fun _ => rfl⟩
  | look words =>
    split at hNext <;> grind [Doomed, Mode.inside, Proc.enter]
  | deliver words =>
    split at hNext <;> grind [Doomed, Mode.inside, Proc.enter, Proc.deliver]

theorem DoomedAt.modify {f : Proc → Proc} (hAt : DoomedAt B p σ)
    (hKeep : r = p → ∀ q, Doomed B q → Doomed B (f q)) : DoomedAt B p (σ.modify r f) := by
  intro q' hProc'
  rw [Sys.modify_procs] at hProc'
  split at hProc'
  · rename_i hEq
    rcases Option.map_eq_some_iff.mp hProc' with ⟨q, hProc, rfl⟩
    exact hKeep hEq.symm q (hAt q hProc)
  · exact hAt q' hProc'

theorem DoomedAt.ret {v : UInt64} (hAt : DoomedAt B p σ) : DoomedAt B p (σ.modify r (·.ret v)) :=
  hAt.modify fun _ _ hq => ⟨hq.1, fun _ => rfl⟩

theorem DoomedAt.sysKill {pid sig : Int} (hAt : DoomedAt B p σ) :
    DoomedAt B p (σ.sysKill r pid sig) := by
  unfold Sys.sysKill
  repeat' split
  case h_1.isFalse.isTrue =>
    refine DoomedAt.ret ?_
    exact hAt.modify fun _ _ hq => ⟨rfl, hq.2⟩
  case h_1.isFalse.isFalse.isFalse =>
    exact hAt.modify fun _ _ hq => ⟨hq.1, fun _ => rfl⟩
  all_goals exact hAt.ret

theorem DoomedAt.step {a : Act} (hAt : DoomedAt B p σ) (hOld : p < σ.nextPid)
    (hStep : σ.step a = some σ') : DoomedAt B p σ' := by
  cases a with simp only [Sys.step] at hStep
  | own r o =>
    split at hStep
    · rename_i q hProc
      rcases Option.map_eq_some_iff.mp hStep with ⟨q', hNext, rfl⟩
      exact hAt.modify fun hEq _ _ => (hAt q (hEq ▸ hProc)).next hNext
    · cases hStep
  | alarm r seconds remaining =>
    repeat' split at hStep
    all_goals cases hStep
    all_goals exact hAt.modify fun _ _ hq => ⟨hq.1, fun _ => rfl⟩
  | fork r ok =>
    repeat' split at hStep
    all_goals cases hStep
    · intro q hProc
      exact hAt.ret q ((update_of_ne hOld.ne ..).symm.trans hProc)
    · exact hAt.ret
  | kill r pid sig =>
    repeat' split at hStep
    all_goals cases hStep
    exact hAt.sysKill
  | killAct r =>
    split at hStep <;> cases hStep
    exact (hAt.modify fun _ _ hq => by grind [Doomed, Proc.raise]).ret
  | expireAct i =>
    split at hStep <;> cases hStep
    exact hAt.modify fun _ _ hq => by grind [Doomed, Proc.raiseAlarm]
  | expire i => grind [DoomedAt]
  | reap r =>
    split at hStep <;> cases hStep
    intro q hProc
    by_cases hEq : p = r
    · simp [hEq] at hProc
    · exact hAt q (by simpa [hEq] using hProc)

abbrev Later : Sys → Sys → Prop := Machine.Reach Sys.step fun _ _ => True

theorem DoomedAt.later (hAt : DoomedAt B p σ) (hOld : p < σ.nextPid) (hLater : Later σ σ') :
    DoomedAt B p σ' ∧ p < σ'.nextPid := by
  refine hLater.invariant (I := fun σ => DoomedAt B p σ ∧ p < σ.nextPid) ?_ ⟨hAt, hOld⟩
  intro σ a σ' hInv _ hStep
  exact ⟨hInv.1.step hInv.2 hStep, hInv.2.trans_le (Sys.nextPid_step hStep).1⟩

theorem doomedAt_kill (hTarget : σ.procs p = some q) (hPid : 0 < p)
    (hKill : σ.step (.kill r p 9) = some σ') : DoomedAt False p σ' := by
  have hSys : σ.sysKill r p 9 =
      (σ.modify p fun q => { q with killed := true }).modify r (·.ret 0) := by
    simp [Sys.sysKill, hTarget, signal?, SIGKILL, hPid.ne']
  simp only [Sys.step, hSys] at hKill
  repeat' split at hKill
  all_goals cases hKill
  refine DoomedAt.ret fun q' hProc' => ?_
  rw [Sys.modify_procs, if_pos rfl, hTarget] at hProc'
  cases hProc'
  exact ⟨rfl, False.elim⟩

/-
  `SIGKILL` is final.  Its target stays killed; it may be in
  user mode or past the check of `killed`, but once it is back
  in the kernel it never leaves it again, whatever it blocks
  and handles.
-/
theorem sigkill_final {tf : TrapFrame} {σ₁ : Sys} (hReach : Later (Sys.boot tf) σ)
    (hTarget : σ.procs p = some q) (hPid : 0 < p) (hKill : σ.step (.kill r p 9) = some σ')
    (hThen : Later σ' σ₁) :
    (∀ q, σ₁.procs p = some q → q.killed = true) ∧
      ((∀ q, σ₁.procs p = some q → q.mode.inside = true) →
        ∀ σ₂, Later σ₁ σ₂ → ∀ q, σ₂.procs p = some q →
          q.killed = true ∧ q.mode.inside = true) := by
  have hOld := (Sys.fresh_of_reach hReach).lt hTarget
  have hMore := (Sys.nextPid_step hKill).1
  rcases (doomedAt_kill hTarget hPid hKill).later (by omega) hThen with ⟨hStill, hOld₁⟩
  refine ⟨fun q hProc => (hStill q hProc).1, fun hInside σ₂ hLast q hProc => ?_⟩
  have hDoomed : DoomedAt True p σ₁ :=
    fun q hProc => ⟨(hStill q hProc).1, fun _ => hInside q hProc⟩
  rcases (hDoomed.later hOld₁ hLast).1 q hProc with ⟨hKilled, hIn⟩
  exact ⟨hKilled, hIn trivial⟩

/-
  `init` kills its child, which is in user mode.  The child
  traps, blocks all signals and leaves the call.
-/
def killChild : List Act :=
  [.own 1 (.look .zero), .own 1 (.trap 4 fun _ => 0), .fork 1 true,
    .own 2 (.look .zero), .own 1 .leave, .own 1 (.look .zero), .own 1 (.trap 8 fun _ => 0)]

theorem sigkill_final_child : ∃ σ σ' σ₁ σ₂ : Sys, σ.step (.kill 1 2 9) = some σ' ∧
    (σ'.procs 2).any (·.mode = .user) ∧ Later σ' σ₁ ∧ Later σ₁ σ₂ ∧
    ∃ q, σ₂.procs 2 = some q ∧ q.sigBlocked ≠ 0 ∧ q.killed = true ∧ q.mode.inside = true := by
  have hRun : (Machine.run Sys.step (fun _ _ => True) (Sys.boot TrapFrame.default)
      killChild).any (fun σ => (σ.procs 2).isSome && (σ.step (.kill 1 2 9)).any fun σ' =>
        (σ'.procs 2).any (·.mode = .user) &&
        (Machine.run Sys.step (fun _ _ => True) σ' [.own 2 (.trap 12 fun _ => 0)]).any fun σ₁ =>
        (σ₁.procs 2).any (·.mode.inside) &&
        (Machine.run Sys.step (fun _ _ => True) σ₁
          [.own 2 (.call (.sigprocmask SIG_BLOCK (BitVec.allOnes 32) true)),
            .own 1 .leave]).any fun σ₂ =>
        (σ₂.procs 2).any fun q => q.sigBlocked ≠ 0) = true := by
    decide +kernel
  rcases Machine.exists_reach hRun with ⟨σ, hReach, hCheck⟩
  rw [Bool.and_eq_true, Option.isSome_iff_exists, Option.any_eq_true] at hCheck
  rcases hCheck with ⟨⟨q, hTarget⟩, σ', hKill, hCheck⟩
  rcases (Bool.and_eq_true ..).mp hCheck with ⟨hUser, hCheck⟩
  rcases Machine.exists_reach hCheck with ⟨σ₁, hThen, hCheck⟩
  rcases (Bool.and_eq_true ..).mp hCheck with ⟨hMode, hCheck⟩
  rcases Machine.exists_reach hCheck with ⟨σ₂, hLast, hCheck⟩
  rcases (Option.any_eq_true _ _).mp hMode with ⟨q₁, hProc₁, hInside⟩
  rcases (Option.any_eq_true _ _).mp hCheck with ⟨q₂, hProc₂, hBlocked⟩
  refine ⟨σ, σ', σ₁, σ₂, hKill, hUser, hThen, hLast, q₂, hProc₂, of_decide_eq_true hBlocked, ?_⟩
  refine (sigkill_final hReach hTarget (by decide) hKill hThen).2 ?_ σ₂ hLast q₂ hProc₂
  intro q hProc
  cases hProc₁.symm.trans hProc
  exact hInside

end Sig

end PlayXv6
