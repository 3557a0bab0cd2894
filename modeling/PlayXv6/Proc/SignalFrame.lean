import PlayXv6.Proc.Signal

/-
  A handler and the code it interrupts.

  From the delivery of a signal to its `sigreturn` the saved
  frame and the saved mask stand in the process, whatever
  else it does and whatever signals arrive, so `sigreturn`
  takes the process back to the interrupted code.  A child
  that is forked inside a handler has no saved frame; the
  forks of the theorem happen outside of handlers.

  Main declarations:
    * `InHandler`
    * `handler_transparent`
-/

namespace PlayXv6

open Machine

namespace Sig

variable {σ σ' : Sys} {p : Nat} {q q' : Proc} {F : TrapFrame} {B : Mask}

/- The process runs a handler that interrupted `F` under the mask `B`. -/
structure InHandler (F : TrapFrame) (B : Mask) (q : Proc) : Prop where
  frame : q.sigSavedFrame = some F
  blocked : q.sigSavedBlocked = B
  mode : ∀ s act b, q.mode ≠ .delivering s act b

theorem InHandler.kept (hIn : InHandler F B q) (hKept : Sys.Kept q q') : InHandler F B q' where
  frame := hKept.frame.trans hIn.frame
  blocked := hKept.savedBlocked.trans hIn.blocked
  mode := by
    intro s act b hMode
    have hNot := hIn.mode s act b
    rcases hKept.mode with hSame | hLeaving | ⟨_, _, _, hKilling⟩
    · exact hNot (hSame ▸ hMode)
    · rw [hLeaving] at hMode
      cases hMode
    · rw [hKilling] at hMode
      cases hMode

/- No call but `sigreturn` and `execve` ends a handler. -/
theorem InHandler.call {c : Call} (hIn : InHandler F B q) (hReturn : c ≠ .sigreturn)
    (hExec : ∀ e s v n k, c ≠ .execve e s v n k) : InHandler F B ((c.run q).2.ret (c.run q).1) := by
  refine ⟨?_, ?_, by simp [Proc.ret]⟩
  all_goals
    cases c with
    | sigaction signum act =>
      simp only [Call.run, Proc.sysSigaction, Proc.ret]
      grind [hIn.frame, hIn.blocked]
    | sigprocmask how set stored =>
      simp only [Call.run, Proc.sysSigprocmask, Proc.ret]
      grind [hIn.frame, hIn.blocked]
    | sigreturn => exact absurd rfl hReturn
    | execve e s v n k => exact absurd rfl (hExec e s v n k)
    | other v =>
      first
      | exact hIn.frame
      | exact hIn.blocked

/- While a handler runs no signal is chosen. -/
theorem InHandler.next {o : Own} (hIn : InHandler F B q) (hNext : q.next o = some q')
    (hReturn : o ≠ .call .sigreturn) (hExec : ∀ e s v n k, o ≠ .call (.execve e s v n k)) :
    InHandler F B q' := by
  rcases hIn with ⟨hFrame, hBlocked, hMode⟩
  cases o with
  | call c =>
    simp only [Proc.next] at hNext
    split at hNext <;> cases hNext
    refine InHandler.call ⟨hFrame, hBlocked, hMode⟩ ?_ ?_
    · intro hEq
      exact hReturn (congrArg Own.call hEq)
    · intro e s v n k hEq
      exact hExec e s v n k (congrArg Own.call hEq)
  | trap epc regs | event fatal | exit =>
    simp only [Proc.next] at hNext
    split at hNext <;> cases hNext
    exact ⟨hFrame, hBlocked, by simp⟩
  | leave =>
    simp only [Proc.next] at hNext
    split at hNext <;> cases hNext
    refine ⟨hFrame, hBlocked, ?_⟩
    intro s act b
    dsimp only
    split <;> simp
  | look words =>
    have hChoose : q.choose = .user := by simp [Proc.choose, hFrame]
    simp only [Proc.next, hChoose] at hNext
    split at hNext <;> cases hNext
    exact ⟨hFrame, hBlocked, by simp [Proc.enter]⟩
  | deliver words =>
    -- `hMode` rules out the branch that delivers
    simp only [Proc.next] at hNext
    cases hNext

-- A Handler and the Children Forked Inside It

/-
  The processes that are inside a handler: who forks there
  has its child there too, who returns from it leaves.
-/
def heirs (σ : Sys) (H : List Nat) : Act → List Nat
  | .fork r true => if r ∈ H then σ.nextPid :: H else H
  | .own r (.call .sigreturn) => H.filter (· ≠ r)
  | _ => H

/- A step of the system, with the processes inside. -/
def insideStep (x : Sys × List Nat) (a : Act) : Option (Sys × List Nat) :=
  (x.1.step a).map fun σ' => (σ', heirs x.1 x.2 a)

/- No `execve` inside the handler. -/
def NoExec (x : Sys × List Nat) (a : Act) : Prop :=
  ∀ r ∈ x.2, ∀ e s v n k,
    a ≠ .own r (.call (.execve e s v n k))

/- Who forks is not inside a handler. -/
def ForksOutside (σ : Sys) (a : Act) : Prop :=
  ∀ r q, a = .fork r true → σ.procs r = some q →
    q.sigSavedFrame = none

/- Everyone inside still has the frame and the mask. -/
structure AllInside (F : TrapFrame) (B : Mask) (x : Sys × List Nat) : Prop where
  fresh : x.1.Fresh
  old : ∀ c ∈ x.2, c < x.1.nextPid
  inside : ∀ c ∈ x.2, ∀ q, x.1.procs c = some q → InHandler F B q

/- Only a fork brings a process in, under a new pid. -/
theorem mem_heirs {H : List Nat} {a : Act} {c : Nat} (hMem : c ∈ heirs σ H a) :
    (c ∈ H ∧ a ≠ .own c (.call .sigreturn)) ∨ ∃ r, a = .fork r true ∧ r ∈ H ∧ c = σ.nextPid := by
  unfold heirs at hMem
  split at hMem
  · rename_i r
    split at hMem
    · rename_i hr
      rcases List.mem_cons.mp hMem with hNew | hOld
      · exact .inr ⟨r, rfl, hr, hNew⟩
      · exact .inl ⟨hOld, by simp⟩
    · exact .inl ⟨hMem, by simp⟩
  · rename_i r
    rcases List.mem_filter.mp hMem with ⟨hOld, hNe⟩
    refine .inl ⟨hOld, ?_⟩
    intro hEq
    injection hEq with hr
    simp [hr] at hNe
  · rename_i _ hNot
    exact .inl ⟨hMem, hNot c⟩

theorem inHandler_step {x x' : Sys × List Nat} {a : Act} (hAll : AllInside F B x)
    (hExec : NoExec x a) (hForks : ForksOutside x.1 a) (hStep : insideStep x a = some x') :
    AllInside F B x' := by
  rcases Option.map_eq_some_iff.mp hStep with ⟨σ', hSys, rfl⟩
  rcases Sys.nextPid_step hSys with ⟨hMono, hFork⟩
  refine ⟨Sys.fresh_step hAll.fresh hSys, ?_, ?_⟩
  · intro c hc
    rcases mem_heirs hc with ⟨hOld, _⟩ | ⟨r, hAct, _, hEq⟩
    · have hLt := hAll.old c hOld
      exact lt_of_lt_of_le hLt hMono
    · have hNext := hFork r hAct
      dsimp only
      omega
  · intro c hc q' hProc'
    rcases Sys.step_from hSys hProc' with ⟨q, hProc, hHow⟩ | ⟨r, parent, hAct, hParent, hEq, _⟩
    · rcases mem_heirs hc with ⟨hOld, hReturn⟩ | ⟨_, _, _, hNew⟩
      · have hIn := hAll.inside c hOld q hProc
        rcases hHow with hKept | ⟨o, hAct, hNext⟩
        · exact hIn.kept hKept
        · subst hAct
          refine hIn.next hNext ?_ ?_
          · intro hEq
            exact hReturn (by rw [hEq])
          · intro e s v n k hEq
            exact hExec c hOld e s v n k (by rw [hEq])
      · rw [hAll.fresh c (le_of_eq hNew.symm)] at hProc
        cases hProc
    · -- the parent would be inside, where it does not fork
      have hNone := hForks r parent hAct hParent
      rcases mem_heirs hc with ⟨hOld, _⟩ | ⟨r', hAct', hr, _⟩
      · have hLt := hAll.old c hOld
        omega
      · have hSame : r' = r := by
          rw [hAct] at hAct'
          injection hAct' with hEq _
          exact hEq.symm
        subst hSame
        have hSome := (hAll.inside r' hr parent hParent).frame
        rw [hNone] at hSome
        cases hSome

-- Transparency

theorem inHandler_deliver {s : Fin 32} {act : SigAction} {b : Mask} {words : KernelWords}
    (hMode : q.mode = .delivering s act b) (hCaught : act.caught)
    (hNext : q.next (.deliver words) = some q') : InHandler q.trapframe q.sigBlocked q' := by
  simp only [Proc.next, hMode, Option.some.injEq] at hNext
  subst hNext
  constructor
  · simp [Proc.enter, Proc.deliver, hCaught]
  · simp [Proc.enter, Proc.deliver, hCaught]
  · simp [Proc.enter]

/- `sigreturn` gives back the frame and the mask. -/
theorem sigreturn_restores (hIn : InHandler F B q) (hNext : q.next (.call .sigreturn) = some q') :
    q'.trapframe = F ∧ q'.sigBlocked = B := by
  simp only [Proc.next] at hNext
  split at hNext <;> cases hNext
  constructor
  · simp [Call.run, Proc.sysSigreturn, hIn.frame, Proc.ret, TrapFrame.setArg_arg]
  · simp [Call.run, Proc.sysSigreturn, hIn.frame, Proc.ret, hIn.blocked]

/-
  A process is diverted into a handler.  If the processes
  inside handlers do not fork, then until it returns its
  saved frame is the interrupted one, and its next
  `sigreturn` restores the registers, the program counter
  and the mask.
-/
theorem handler_transparent {tf : TrapFrame} {σ₀ σ₁ σ₂ : Sys} {s : Fin 32} {act : SigAction}
    {b : Mask} {words : KernelWords} {H : List Nat}
    (hReach : Reach Sys.step (fun _ _ => True) (Sys.boot tf) σ₀)
    (hProc : σ₀.procs p = some q) (hMode : q.mode = .delivering s act b) (hCaught : act.caught)
    (hDeliver : σ₀.step (.own p (.deliver words)) = some σ₁) (hRun : Reach insideStep
      (fun x a => NoExec x a ∧ ForksOutside x.1 a) (σ₁, [p]) (σ₂, H)) {c : Nat} (hc : c ∈ H)
    {k : Proc} (hChild : σ₂.procs c = some k) : k.sigSavedFrame = some q.trapframe ∧
    ∀ σ₃ k', σ₂.step (.own c (.call .sigreturn)) = some σ₃ → σ₃.procs c = some k' →
      k'.trapframe.regs = q.trapframe.regs ∧ k'.trapframe.epc = q.trapframe.epc ∧
      k'.sigBlocked = q.sigBlocked := by
  have hFresh := Sys.fresh_of_reach hReach
  rw [Sys.step_own hProc] at hDeliver
  rcases Option.map_eq_some_iff.mp hDeliver with ⟨q₁, hNext, hAfter⟩
  have hStart : AllInside q.trapframe q.sigBlocked (σ₁, [p]) := by
    subst hAfter
    refine ⟨?_, ?_, ?_⟩
    · intro r hr
      have hNone := hFresh r hr
      simp [Sys.modify_procs, hNone]
    · intro c hMem
      rw [List.mem_singleton] at hMem
      subst hMem
      exact hFresh.lt hProc
    · intro c hMem k hk
      rw [List.mem_singleton] at hMem
      subst hMem
      rw [Sys.modify_self hProc, Option.some.injEq] at hk
      subst hk
      exact inHandler_deliver hMode hCaught hNext
  have hAll := hRun.invariant (fun _ _ _ hInv hOk hStep =>
      inHandler_step hInv hOk.1 hOk.2 hStep) hStart
  have hIn := hAll.inside c hc k hChild
  refine ⟨hIn.frame, ?_⟩
  intro σ₃ k' hStep hk'
  rw [Sys.step_own hChild] at hStep
  rcases Option.map_eq_some_iff.mp hStep with ⟨k₁, hReturn, rfl⟩
  rw [Sys.modify_self hChild, Option.some.injEq] at hk'
  subst hk'
  rcases sigreturn_restores hIn hReturn with ⟨hFrame, hMask⟩
  rw [hFrame, hMask]
  exact ⟨rfl, rfl, rfl⟩

-- A Handler That Forks

/- A handler at 256 whose restorer is at 512. -/
def sampleAction : SigAction := ⟨256, 512, 0⟩

/-
  `init` installs the handler for signal 10, is at 8 when it
  raises the signal, and is about to be diverted.
-/
def sampleRaise : List Act :=
  [ .own 1 (.look .zero), .own 1 (.trap 4 fun _ => 0),
    .own 1 (.call (.sigaction 10 sampleAction)), .own 1 .leave, .own 1 (.look .zero),
    .own 1 (.trap 8 fun _ => 0), .kill 1 1 10, .killAct 1, .own 1 .leave, .own 1 (.look .zero) ]

theorem handler_transparent_sample : ∃ (σ : Sys) (k : Proc), σ.procs 1 = some k ∧
      k.trapframe.epc = 512 ∧ k.sigSavedFrame.map TrapFrame.epc = some 8 ∧
      ∀ σ' k', σ.step (.own 1 (.call .sigreturn)) = some σ' → σ'.procs 1 = some k' →
        k'.trapframe.epc = 8 ∧ k'.sigBlocked = 0 := by
  have hRaise : (run Sys.step (fun _ _ => True)
      (Sys.boot TrapFrame.default) sampleRaise).any (fun σ => (σ.procs 1).any fun q =>
          q.mode = .delivering 10 sampleAction 0 ∧
          q.trapframe.epc = 8 ∧ q.sigBlocked = 0) = true := by
    decide +kernel
  rcases exists_reach hRaise with ⟨σ₀, hReach, hAny⟩
  simp only [Option.any_eq_true, decide_eq_true_eq] at hAny
  rcases hAny with ⟨q, hProc, hMode, hEpc, hMask⟩
  obtain ⟨q₁, hNext₁⟩ : ∃ q₁, q.next (.deliver .zero) = some q₁ ∧ q₁.mode = .user := by
    simp [Proc.next, hMode, Proc.enter]
  -- the handler runs up to its restorer
  obtain ⟨q₂, hNext₂⟩ : ∃ q₂, q₁.next (.trap 512 fun _ => 0) = some q₂ ∧
        q₂.trapframe.epc = 512 := by simp [Proc.next, hNext₁.2]
  have hProc₁ : (σ₀.modify 1 fun _ => q₁).procs 1 = some q₁ := Sys.modify_self hProc
  have hProc₂ : ((σ₀.modify 1 fun _ => q₁).modify 1 fun _ => q₂).procs 1 = some q₂ :=
    Sys.modify_self hProc₁
  have hStep₁ : σ₀.step (.own 1 (.deliver .zero)) = some (σ₀.modify 1 fun _ => q₁) := by
    rw [Sys.step_own hProc, hNext₁.1, Option.map_some]
  have hStep₂ : insideStep (σ₀.modify 1 fun _ => q₁, [1]) (.own 1 (.trap 512 fun _ => 0)) =
        some ((σ₀.modify 1 fun _ => q₁).modify 1 fun _ => q₂, [1]) := by
    rw [insideStep, Sys.step_own hProc₁, hNext₂.1]
    rfl
  rcases handler_transparent hReach hProc hMode (by decide) hStep₁
    (.next .refl ⟨by simp [NoExec], by simp [ForksOutside]⟩ hStep₂)
    (List.mem_singleton.mpr rfl) hProc₂ with ⟨hSaved, hAfter⟩
  refine ⟨_, q₂, hProc₂, hNext₂.2, ?_, ?_⟩
  · rw [hSaved, Option.map_some, hEpc]
  · intro σ' k' hStep hk'
    rcases hAfter σ' k' hStep hk' with ⟨_, hPc, hBlocked⟩
    exact ⟨hPc.trans hEpc, hBlocked.trans hMask⟩

def Act.isExec : Act → Bool
  | .own _ (.call (.execve _ _ _ _ _)) => true
  | _ => false

/- The handler forks; the child goes on to the restorer. -/
def sampleFork : List Act :=
  [ .own 1 (.trap 256 fun _ => 0), .fork 1 true, .own 2 (.look .zero),
    .own 2 (.trap 512 fun _ => 0) ]

/-
  The `sigreturn` of the child restores nothing: it stays at
  the restorer and signal 10 stays blocked.
-/
theorem handler_child_lost : ∃ (σ₀ σ₁ σ₂ σ₃ : Sys) (H : List Nat) (q k : Proc),
      Reach Sys.step (fun _ _ => True) (Sys.boot TrapFrame.default) σ₀ ∧
      σ₀.procs 1 = some q ∧ q.mode = .delivering 10 sampleAction 0 ∧
      σ₀.step (.own 1 (.deliver .zero)) = some σ₁ ∧
      Reach insideStep NoExec (σ₁, [1]) (σ₂, H) ∧ 2 ∈ H ∧
      σ₂.step (.own 2 (.call .sigreturn)) = some σ₃ ∧ σ₃.procs 2 = some k ∧
      q.trapframe.epc = 8 ∧ k.trapframe.epc = 512 ∧
      q.sigBlocked = 0 ∧ Mask.has k.sigBlocked 10 = true := by
  have hAll : (run Sys.step (fun _ _ => True)
      (Sys.boot TrapFrame.default) sampleRaise).any (fun σ₀ => (σ₀.procs 1).any (fun q =>
          q.mode = .delivering 10 sampleAction 0 ∧
          q.trapframe.epc = 8 ∧ q.sigBlocked = 0) &&
        (σ₀.step (.own 1 (.deliver .zero))).any fun σ₁ =>
          (run insideStep (fun _ a => a.isExec = false) (σ₁, [1]) sampleFork).any fun x =>
              decide (2 ∈ x.2) &&
              (x.1.step (.own 2 (.call .sigreturn))).any fun σ₃ => (σ₃.procs 2).any fun k =>
                  k.trapframe.epc = 512 ∧
                  Mask.has k.sigBlocked 10 = true) = true := by
    decide +kernel
  rcases exists_reach hAll with ⟨σ₀, hReach, hAt⟩
  simp only [Bool.and_eq_true, Option.any_eq_true, decide_eq_true_eq] at hAt
  rcases hAt with ⟨⟨q, hProc, hMode, hEpc, hMask⟩, σ₁, hDeliver, ⟨σ₂, H⟩, hFork, hIn, σ₃, hReturn,
    k, hk, hPc, hStill⟩
  refine ⟨σ₀, σ₁, σ₂, σ₃, H, q, k, hReach,
    hProc, hMode, hDeliver, ?_, hIn, hReturn, hk, hEpc, hPc, hMask, hStill⟩
  refine (reach_of_run hFork).mono ?_
  intro x a hNot r _ e s v n k hEq
  rw [hEq] at hNot
  cases hNot

end Sig

end PlayXv6
