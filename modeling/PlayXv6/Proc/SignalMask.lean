import PlayXv6.Proc.Signal

/-
  Blocked signals.

  A signal that has a handler is queued when it is raised, is
  not taken up while it is blocked, and is taken up by a
  return to user mode once it is not.  The mask is consulted
  at delivery alone: a raise that finds the default
  disposition acts at once, and a queued signal that finds it
  at delivery is dropped.  `SigOk` names the steps that avoid
  both, and handlers without a restorer.

  Main declarations:
    * `SigOk`
    * `blocked_stays_pending`
-/

namespace PlayXv6

open Function Machine

namespace Sig

variable {σ σ' : Sys} {p : Nat} {q q' : Proc} {s : Fin 32}

/- What a step raises: the target, the signal, and the disposition that was read. -/
def Sys.raise? (σ : Sys) : Act → Option (Nat × Fin 32 × UInt64)
  | .killAct r =>
    match (σ.procs r).map Proc.mode with
    | some (.killing p s handler) => some (p, s, handler)
    | _ => none
  | .expireAct i => (σ.due[i]?).map fun x => (x.1, SIGALRM, x.2)
  | _ => none

/- A signal raised while blocked has no default action. -/
def raiseOk (σ : Sys) (a : Act) : Bool :=
  match σ.raise? a with
  | some (p, s, handler) =>
    match σ.procs p with
    | some q => !(Mask.has q.sigBlocked s && handler == SIG_DFL)
    | none => true
  | none => true

/- A signal taken up is not one whose default is to kill. -/
def takeOk (σ : Sys) : Act → Bool
  | .own p (.deliver _) =>
    match (σ.procs p).map Proc.mode with
    | some (.delivering s act _) => !(act.handler == SIG_DFL && sigDefaultKills s)
    | _ => true
  | _ => true

/- A handler is installed with a restorer. -/
def restorerOk : Act → Bool
  | .own _ (.call (.sigaction _ act)) => !(decide act.caught && act.restorer == 0)
  | _ => true

def SigOk (σ : Sys) (a : Act) : Prop := raiseOk σ a = true ∧ takeOk σ a = true ∧ restorerOk a = true

instance (σ : Sys) (a : Act) : Decidable (SigOk σ a) := inferInstanceAs (Decidable (_ ∧ _))

-- Chosen Signals

/-
  Handlers have restorers, and a signal that is being
  delivered is runnable under the disposition and the mask
  in force.
-/
structure Chosen (q : Proc) : Prop where
  restorer : ∀ s, (q.sigActions s).caught → (q.sigActions s).restorer ≠ 0
  chosen : ∀ s act b, q.mode = .delivering s act b → act = q.sigActions s ∧ b = q.sigBlocked ∧
      Mask.has q.runnable s = true ∧ q.sigSavedFrame = none

theorem has_runnable : Mask.has q.runnable s = true ↔ Mask.has q.sigPending s = true ∧
        Mask.has q.sigBlocked s = false := by
  rw [Proc.runnable, has_and_not, Bool.and_eq_true, Bool.not_eq_true']

theorem Chosen.kept (hChosen : Chosen q) (hKept : Sys.Kept q q') : Chosen q' := by
  constructor
  · rw [hKept.actions]
    exact hChosen.restorer
  · intro s act b hMode
    have hSame : q'.mode = q.mode := by
      rcases hKept.mode with hSame | hLeaving | ⟨_, _, _, hKilling⟩
      · exact hSame
      · rw [hLeaving] at hMode
        cases hMode
      · rw [hKilling] at hMode
        cases hMode
    rcases hChosen.chosen s act b (hSame ▸ hMode) with ⟨hAct, hMask, hRun, hFrame⟩
    rcases has_runnable.mp hRun with ⟨hPending, hBlocked⟩
    rw [hKept.actions, hKept.blocked, hKept.frame]
    refine ⟨hAct, hMask, ?_, hFrame⟩
    rw [has_runnable, hKept.blocked]
    exact ⟨hKept.pending s hPending, hBlocked⟩

theorem choose_chosen (hMode : q.choose = .delivering s act b) :
    act = q.sigActions s ∧ b = q.sigBlocked ∧
      Mask.has q.runnable s = true ∧ q.sigSavedFrame = none := by
  unfold Proc.choose at hMode
  split at hMode
  · cases hMode
  rename_i hFrame
  split at hMode
  · cases hMode
  rename_i k hLow
  dsimp only at hMode
  split at hMode
  · cases hMode
  · cases hMode
    refine ⟨rfl, rfl, lowest_has hLow, ?_⟩
    simpa using hFrame

/- The dispositions after a call have restorers. -/
theorem call_restorer {c : Call} (hChosen : Chosen q) (hOk : ∀ n act, c = .sigaction n act →
      ¬(act.caught ∧ act.restorer = 0)) : ∀ s, ((c.run q).2.sigActions s).caught →
      ((c.run q).2.sigActions s).restorer ≠ 0 := by
  intro s
  have hOld := hChosen.restorer s
  cases c with
  | sigaction n act =>
    have hNew := hOk n act rfl
    simp only [Call.run, Proc.sysSigaction]
    split
    · exact hOld
    · rename_i k _
      split
      · exact hOld
      · by_cases hEq : s = k
        · subst hEq
          simpa using hNew
        · simpa [update_of_ne hEq] using hOld
  | sigprocmask how set stored =>
    simp only [Call.run, Proc.sysSigprocmask]
    split <;> exact hOld
  | sigreturn =>
    simp only [Call.run, Proc.sysSigreturn]
    split <;> exact hOld
  | execve e sp v n k =>
    intro hCaught
    exact absurd rfl hCaught.1
  | other v => exact hOld

theorem Chosen.next {o : Own} (hChosen : Chosen q) (hOk : restorerOk (.own p o) = true)
    (hNext : q.next o = some q') : Chosen q' := by
  have hRest := hChosen.restorer
  cases o with simp only [Proc.next] at hNext
  | trap epc regs | event fatal | exit =>
    split at hNext <;> cases hNext
    exact ⟨hRest, by simp⟩
  | call c =>
    split at hNext <;> cases hNext
    refine ⟨call_restorer hChosen ?_, by simp [Proc.ret]⟩
    intro n act hEq
    subst hEq
    simpa [restorerOk, imp_iff_not_or] using hOk
  | leave =>
    split at hNext <;> cases hNext
    refine ⟨hRest, ?_⟩
    intro s act b
    dsimp only
    split <;> simp
  | look words =>
    split at hNext
    swap
    · cases hNext
    split at hNext
    · cases hNext
      exact ⟨hRest, by simp [Proc.enter]⟩
    · cases hNext
      exact ⟨hRest, fun s act b hMode => choose_chosen hMode⟩
  | deliver words =>
    split at hNext <;> cases hNext
    refine ⟨?_, by simp [Proc.enter]⟩
    intro s
    simp only [Proc.enter, Proc.deliver]
    split <;> exact hRest s

def AllChosen (σ : Sys) : Prop := ∀ p q, σ.procs p = some q → Chosen q

theorem chosen_step {a : Act} (hAll : AllChosen σ) (hOk : SigOk σ a) (hStep : σ.step a = some σ') :
    AllChosen σ' := by
  intro p q' hProc'
  rcases Sys.step_from hStep hProc' with ⟨q, hProc, hHow⟩ | ⟨r, parent, _, hParent, _, hChild⟩
  · have hChosen := hAll p q hProc
    rcases hHow with hKept | ⟨o, hAct, hNext⟩
    · exact hChosen.kept hKept
    · subst hAct
      exact hChosen.next hOk.2.2 hNext
  · subst hChild
    exact ⟨(hAll r parent hParent).restorer, by simp [Proc.forkFrom, Proc.withLayout]⟩

theorem chosen_boot (tf : TrapFrame) : AllChosen (Sys.boot tf) := by
  intro p q hProc
  by_cases hEq : p = 1
  · subst hEq
    have hInit : Proc.withLayout tf = q := by simpa [Sys.boot] using hProc
    subst hInit
    constructor
    · intro s hCaught
      exact absurd rfl hCaught.1
    · simp [Proc.withLayout]
  · simp [Sys.boot, update_of_ne hEq] at hProc

theorem chosen_of_reach {Ok : Sys → Act → Prop} (hImp : ∀ τ a, Ok τ a → SigOk τ a)
    (hReach : Reach Sys.step Ok σ σ') (hAll : AllChosen σ) : AllChosen σ' :=
  hReach.invariant (fun _ _ _ hInv hOk hStep => chosen_step hInv (hImp _ _ hOk) hStep) hAll

-- A Blocked Signal Stays Pending

/- A raise that finds a handler queues the signal. -/
theorem raise_queues {a : Act} {handler : UInt64} (hRaise : σ.raise? a = some (p, s, handler))
    (hDfl : handler ≠ SIG_DFL) (hIgn : handler ≠ SIG_IGN) (hProc : σ.procs p = some q)
    (hStep : σ.step a = some σ') : ∃ q', σ'.procs p = some q' ∧ Mask.has q'.sigPending s = true ∧
      q'.killed = q.killed ∧ Sys.Kept q q' := by
  have hQueued : q.raise s handler = { q with sigPending := q.sigPending ||| bit s } := by
    simp [Proc.raise, hDfl, hIgn]
  have hKept := Sys.kept_raise s handler q
  have hHas : Mask.has (q.sigPending ||| bit s) s = true := by
    rw [has_or, has_bit, decide_eq_true rfl, Bool.or_true]
  rw [hQueued] at hKept
  unfold Sys.raise? at hRaise
  split at hRaise
  · rename_i r
    split at hRaise <;> cases hRaise
    rename_i hMode
    simp only [Sys.step, hMode, Option.some.injEq] at hStep
    subst hStep
    rw [Sys.modify_procs, Sys.modify_procs, if_pos rfl, hProc, Option.map_some, hQueued]
    by_cases hSelf : p = r
    · rw [if_pos hSelf]
      exact ⟨_, rfl, hHas, rfl, hKept.ret 0⟩
    · rw [if_neg hSelf]
      exact ⟨_, rfl, hHas, rfl, hKept⟩
  · rename_i i
    rcases Option.map_eq_some_iff.mp hRaise with ⟨⟨r, h⟩, hDue, hEq⟩
    cases hEq
    simp only [Sys.step, hDue, Option.some.injEq] at hStep
    subst hStep
    refine ⟨q.raise SIGALRM h, ?_, ?_⟩
    · change (σ.modify r (Proc.raiseAlarm h)).procs r = _
      rw [Sys.modify_procs, if_pos rfl, hProc, Option.map_some, Proc.raiseAlarm_eq]
    · rw [hQueued]
      exact ⟨hHas, rfl, hKept⟩
  · cases hRaise

/- Only the delivery of a signal takes it off the mask. -/
theorem pending_next {o : Own} (hNot : ∀ act b, q.mode ≠ .delivering s act b)
    (hHas : Mask.has q.sigPending s = true) (hNext : q.next o = some q') :
    Mask.has q'.sigPending s = true := by
  cases o with simp only [Proc.next] at hNext
  | trap epc regs | event fatal | exit | leave =>
    split at hNext <;> cases hNext
    exact hHas
  | call c =>
    split at hNext <;> cases hNext
    have hSame : (c.run q).2.sigPending = q.sigPending := by
      cases c <;>
        grind [Call.run, Proc.sysSigaction, Proc.sysSigprocmask, Proc.sysSigreturn, Proc.sysExecve]
    simpa [Proc.ret, hSame] using hHas
  | look words =>
    split at hNext
    · split at hNext <;> cases hNext <;> exact hHas
    · cases hNext
  | deliver words =>
    split at hNext <;> cases hNext
    rename_i k act b hMode
    have hNe : s ≠ k := by
      intro hEq
      subst hEq
      exact hNot act b hMode
    have hStill : Mask.has (q.sigPending &&& ~~~bit k) s = true := by
      rw [has_and_not, has_bit, hHas, decide_eq_false hNe]
      rfl
    simp only [Proc.enter, Proc.deliver]
    split <;> exact hStill

def BlockedAt (p : Nat) (s : Fin 32) (σ : Sys) : Prop :=
  ∀ q, σ.procs p = some q → Mask.has q.sigBlocked s = true

structure PendingAt (p : Nat) (s : Fin 32) (σ : Sys) : Prop where
  old : p < σ.nextPid
  pending : ∀ q, σ.procs p = some q → Mask.has q.sigPending s = true

theorem not_delivering (hAll : AllChosen σ) (hBlocked : BlockedAt p s σ)
    (hProc : σ.procs p = some q) : ∀ act b, q.mode ≠ .delivering s act b := by
  intro act b hMode
  rcases (hAll p q hProc).chosen s act b hMode with ⟨_, _, hRun, _⟩
  have hNot := (has_runnable.mp hRun).2
  rw [hBlocked q hProc] at hNot
  cases hNot

theorem pending_step {a : Act} (hAll : AllChosen σ) (hBlocked : BlockedAt p s σ)
    (hPending : PendingAt p s σ) (hStep : σ.step a = some σ') : PendingAt p s σ' := by
  have hOld := hPending.old
  refine ⟨lt_of_lt_of_le hOld (Sys.nextPid_step hStep).1, ?_⟩
  intro q' hProc'
  rcases Sys.step_from hStep hProc' with ⟨q, hProc, hHow⟩ | ⟨_, _, _, _, hEq, _⟩
  · have hHas := hPending.pending q hProc
    rcases hHow with hKept | ⟨o, _, hNext⟩
    · exact hKept.pending s hHas
    · exact pending_next (not_delivering hAll hBlocked hProc) hHas hNext
  · omega

theorem pending_of_reach (hReach : Reach Sys.step
      (fun τ a => SigOk τ a ∧ BlockedAt p s τ) σ σ') (hAll : AllChosen σ)
    (hPending : PendingAt p s σ) : AllChosen σ' ∧ PendingAt p s σ' := by
  refine hReach.invariant (I := fun τ => AllChosen τ ∧ PendingAt p s τ) ?_ ⟨hAll, hPending⟩
  intro τ a τ' hInv hOk hStep
  exact ⟨chosen_step hInv.1 hOk.1 hStep, pending_step hInv.1 hOk.2 hInv.2 hStep⟩

/- A return to user mode takes up the least signal that may be delivered. -/
theorem look_takes (hChosen : Chosen q) (hMode : q.mode = .returning)
    (hFrame : q.sigSavedFrame = none) (hRun : Mask.has q.runnable s = true) :
    ∃ k ≤ s, Mask.has q.runnable k = true ∧ ∀ words, q.next (.look words) =
        some { q with
          mode := .delivering k (q.sigActions k) q.sigBlocked } := by
  rcases lowest_le hRun with ⟨k, hLow, hLe⟩
  have hChoose : q.choose = .delivering k (q.sigActions k) q.sigBlocked := by
    have hRest : ¬((q.sigActions k).caught ∧ (q.sigActions k).restorer = 0) := fun hBoth =>
      hChosen.restorer k hBoth.1 hBoth.2
    simp [Proc.choose, hFrame, hLow, hRest]
  refine ⟨k, hLe, lowest_has hLow, ?_⟩
  intro words
  simp [Proc.next, hMode, hChoose]

/-
  The signal is dequeued and its disposition carried out: the
  handler is entered with the signal as its argument, the
  restorer as its return address and the interrupted frame
  saved; or the process is killed, or goes on as it was.
-/
def TakesEffect (s : Fin 32) (q q' : Proc) : Prop :=
  q'.sigPending = q.sigPending &&& ~~~bit s ∧
  if (q.sigActions s).caught then
    q'.trapframe.epc = (q.sigActions s).handler ∧
    q'.trapframe.arg 0 = UInt64.ofNat s.val ∧
    q'.trapframe.regs .ra = (q.sigActions s).restorer ∧
    q'.sigSavedFrame = some q.trapframe ∧
    q'.killed = q.killed
  else
    q'.trapframe.epc = q.trapframe.epc ∧
    q'.trapframe.regs = q.trapframe.regs ∧
    q'.sigSavedFrame = q.sigSavedFrame ∧
    q'.killed = (q.killed || ((q.sigActions s).handler == SIG_DFL && sigDefaultKills s))

theorem deliver_takesEffect {words : KernelWords} {act : SigAction} (hAct : act = q.sigActions s)
    (hTake : (act.handler == SIG_DFL && sigDefaultKills s) = false) (b : Mask) :
    TakesEffect s q ((q.deliver s act b).enter words) := by
  subst hAct
  by_cases hCaught : (q.sigActions s).caught
  · simp [TakesEffect, Proc.enter, Proc.deliver, hCaught,
      TrapFrame.setReg, TrapFrame.setEpc, TrapFrame.setArg, TrapFrame.arg]
  · rw [TakesEffect, if_neg hCaught, hTake, Bool.or_false]
    simp [Proc.enter, Proc.deliver, hCaught]

-- Blocked Signals Stay Pending

/-
  In every state of a run whose steps are admitted: raising a
  blocked signal queues it and does nothing else; a blocked
  signal that is queued stays so and is not taken up as long
  as it is blocked; and a return to user mode takes up the
  least signal that is pending and not blocked, which then
  takes effect by its disposition.
-/
theorem blocked_stays_pending {tf : TrapFrame}
    (hReach : Reach Sys.step SigOk (Sys.boot tf) σ) (hProc : σ.procs p = some q)
    (s : Fin 32) : (Mask.has q.sigBlocked s = true → (∀ a σ' handler, SigOk σ a →
        σ.raise? a = some (p, s, handler) → handler ≠ SIG_IGN → σ.step a = some σ' →
        ∃ q', σ'.procs p = some q' ∧ Mask.has q'.sigPending s = true ∧
          q'.killed = q.killed ∧ Sys.Kept q q') ∧ (Mask.has q.sigPending s = true →
        ∀ σ' q', Reach Sys.step (fun τ a => SigOk τ a ∧ BlockedAt p s τ) σ σ' →
        BlockedAt p s σ' → σ'.procs p = some q' → Mask.has q'.sigPending s = true ∧
          ∀ act b, q'.mode ≠ .delivering s act b)) ∧ (q.mode = .returning → q.sigSavedFrame = none →
      Mask.has q.runnable s = true → ∃ k ≤ s, Mask.has q.runnable k = true ∧
        ∀ words, σ.step (.own p (.look words)) = some (σ.modify p fun _ =>
            { q with
              mode := .delivering k (q.sigActions k) q.sigBlocked })) ∧
    (∀ act b words, q.mode = .delivering s act b → SigOk σ (.own p (.deliver words)) →
      ∃ q', σ.step (.own p (.deliver words)) = some (σ.modify p fun _ => q') ∧
        TakesEffect s q q') := by
  have hAll : AllChosen σ := chosen_of_reach (fun _ _ h => h) hReach (chosen_boot tf)
  have hOld := (Sys.fresh_of_reach hReach).lt hProc
  refine ⟨fun hBlocked => ⟨?_, ?_⟩, ?_, ?_⟩
  · intro a σ' handler hOk hRaise hIgn hStep
    have hDfl : handler ≠ SIG_DFL := by
      have hRaiseOk := hOk.1
      simpa [raiseOk, hRaise, hProc, hBlocked] using hRaiseOk
    exact raise_queues hRaise hDfl hIgn hProc hStep
  · intro hHas σ' q' hRun hStill hProc'
    have hStart : PendingAt p s σ := by
      refine ⟨hOld, ?_⟩
      intro q₁ hProc₁
      rw [hProc, Option.some.injEq] at hProc₁
      exact hProc₁ ▸ hHas
    rcases pending_of_reach hRun hAll hStart with ⟨hAll', hPending'⟩
    exact ⟨hPending'.pending q' hProc', not_delivering hAll' hStill hProc'⟩
  · intro hMode hFrame hRun
    rcases look_takes (hAll p q hProc) hMode hFrame hRun with ⟨k, hLe, hk, hNext⟩
    refine ⟨k, hLe, hk, ?_⟩
    intro words
    rw [Sys.step_own hProc, hNext words, Option.map_some]
  · intro act b words hMode hOk
    have hAct := ((hAll p q hProc).chosen s act b hMode).1
    refine ⟨(q.deliver s act b).enter words, ?_, ?_⟩
    · rw [Sys.step_own hProc]
      simp [Proc.next, hMode]
    · refine deliver_takesEffect hAct ?_ b
      have hTake := hOk.2.1
      simpa [takeOk, hProc, hMode, imp_iff_not_or] using hTake

def enterKernel : List Act := [.own 1 (.look .zero), .own 1 (.trap 4 fun _ => 0)]

def inKernel (c : Call) : List Act := enterKernel ++ [.own 1 (.call c), .own 1 .leave]

/- `init` blocks signal 10 and is raising it for itself. -/
def sampleBlocked : List Act :=
  inKernel (.sigprocmask SIG_BLOCK (1 <<< 10) true) ++
    enterKernel ++ [.kill 1 1 10]

/- The same after it has installed a handler. -/
def sampleQueued : List Act := inKernel (.sigaction 10 ⟨256, 512, 0⟩) ++ sampleBlocked

theorem blocked_stays_pending_sample : ∃ (σ σ' : Sys) (q' : Proc), Reach Sys.step SigOk
        (Sys.boot TrapFrame.default) σ ∧ σ.step (.killAct 1) = some σ' ∧ σ'.procs 1 = some q' ∧
      Mask.has q'.sigPending 10 = true ∧ q'.killed = false := by
  have hAll : (run Sys.step SigOk (Sys.boot TrapFrame.default) sampleQueued).any (fun σ =>
        decide (SigOk σ (.killAct 1)) &&
        decide (σ.raise? (.killAct 1) = some (1, 10, 256)) &&
        (σ.step (.killAct 1)).isSome &&
        (σ.procs 1).any fun q => Mask.has q.sigBlocked 10 = true ∧ q.killed = false) = true := by
    decide +kernel
  rcases exists_reach hAll with ⟨σ, hReach, hAt⟩
  simp only [Bool.and_eq_true, decide_eq_true_eq, Option.isSome_iff_exists,
    Option.any_eq_true] at hAt
  rcases hAt with ⟨⟨⟨hOk, hRaise⟩, σ', hStep'⟩, q, hq, hBlocked, hAlive⟩
  rcases ((blocked_stays_pending hReach hq 10).1 hBlocked).1
    (.killAct 1) σ' 256 hOk hRaise (by decide) hStep' with ⟨q', hq', hHas, hKilled, _⟩
  exact ⟨σ, σ', q', hReach, hStep', hq', hHas, hKilled.trans hAlive⟩

/-
  A handler is installed, the signal blocked and queued, the
  default disposition restored and the signal unblocked.
-/
def sampleDropped : List Act :=
  sampleQueued ++ [.killAct 1, .own 1 .leave] ++
    inKernel (.sigaction 10 SigAction.defaultAction) ++
    inKernel (.sigprocmask SIG_UNBLOCK (1 <<< 10) true) ++ [.own 1 (.look .zero)]

/-
  A blocked signal with the default disposition kills when
  it is raised, and one that is queued and unblocked under
  the default disposition is dropped and does not kill.
-/
theorem blocked_signal_kills : (∃ (σ σ' : Sys) (q q' : Proc),
      Reach Sys.step (fun _ _ => True) (Sys.boot TrapFrame.default) σ ∧ σ.procs 1 = some q ∧
      Mask.has q.sigBlocked 10 = true ∧ q.killed = false ∧
      σ.raise? (.killAct 1) = some (1, 10, SIG_DFL) ∧ σ.step (.killAct 1) = some σ' ∧
      σ'.procs 1 = some q' ∧ q'.killed = true) ∧ ∃ (σ σ' : Sys) (q q' : Proc),
      Reach Sys.step (fun _ _ => True) (Sys.boot TrapFrame.default) σ ∧ σ.procs 1 = some q ∧
      Mask.has q.runnable 10 = true ∧ (q.sigActions 10).handler = SIG_DFL ∧
      σ.step (.own 1 (.deliver .zero)) = some σ' ∧ σ'.procs 1 = some q' ∧
      Mask.has q'.sigPending 10 = false ∧ q'.killed = false := by
  constructor
  · have hAll : (run Sys.step (fun _ _ => True)
        (Sys.boot TrapFrame.default) sampleBlocked).any (fun σ =>
          decide (σ.raise? (.killAct 1) = some (1, 10, SIG_DFL)) &&
          (σ.procs 1).any (fun q => Mask.has q.sigBlocked 10 = true ∧ q.killed = false) &&
          (σ.step (.killAct 1)).any fun σ' => (σ'.procs 1).any fun q' => q'.killed) = true := by
      decide +kernel
    rcases exists_reach hAll with ⟨σ, hReach, hAt⟩
    simp only [Bool.and_eq_true, decide_eq_true_eq, Option.any_eq_true] at hAt
    rcases hAt with ⟨⟨hRaise, q, hq, hBlocked, hAlive⟩, σ', hStep', q', hq', hKilled⟩
    exact ⟨σ, σ', q, q', hReach, hq, hBlocked, hAlive, hRaise, hStep', hq', hKilled⟩
  · have hAll : (run Sys.step (fun _ _ => True)
        (Sys.boot TrapFrame.default) sampleDropped).any (fun σ => (σ.procs 1).any (fun q =>
            Mask.has q.runnable 10 = true ∧
            (q.sigActions 10).handler = SIG_DFL) &&
          (σ.step (.own 1 (.deliver .zero))).any fun σ' => (σ'.procs 1).any fun q' =>
              Mask.has q'.sigPending 10 = false ∧
              q'.killed = false) = true := by
      decide +kernel
    rcases exists_reach hAll with ⟨σ, hReach, hAt⟩
    simp only [Bool.and_eq_true, decide_eq_true_eq, Option.any_eq_true] at hAt
    rcases hAt with ⟨⟨q, hq, hPending, hDfl⟩, σ', hStep', q', hq', hGone, hAlive⟩
    exact ⟨σ, σ', q, q', hReach, hq, hPending, hDfl, hStep', hq', hGone, hAlive⟩

end Sig

end PlayXv6
