import PlayXv6.Proc.Signal
import Mathlib.Order.Bounds.Defs

/-
  Which signal a process gets on its way back to user mode.

  `maybe_deliver_signal` looks at the first signal in line
  only.  If that one has no handler or no restorer, nothing
  is delivered, whatever stands behind it, and a `sys_pause`
  that it has ended returns without a handler.

  Main declarations:
    * `Proc.returnToUser`
    * `prompt_iff`
-/

namespace PlayXv6

namespace Sig

variable {q : Proc} {words : KernelWords} {s : Fin 32}

namespace Proc

/- `return_to_user`, while nobody else acts on the process. -/
def returnToUser (words : KernelWords) (q : Proc) : Proc :=
  match q.choose with
  | .delivering sig act blocked => (q.deliver sig act blocked).enter words
  | _ => q.enter words

/- `sys_pause`, once its `Pause` is ready. -/
def sysPause (q : Proc) : Option Proc :=
  if q.killed || q.runnable != 0 then some (q.ret (-1))
  else none

/- It takes one step of the process or two. -/
theorem next_returnToUser (hMode : q.mode = .returning) :
    q.next (.look words) = some (q.returnToUser words) ∨ ∃ m,
      q.next (.look words) = some m ∧ m.next (.deliver words) = some (q.returnToUser words) := by
  unfold returnToUser
  split
  · rename_i sig act blocked hChoose
    right
    refine ⟨{ q with mode := q.choose }, by simp [next, hMode, hChoose], ?_⟩
    by_cases hCaught : act.caught <;> simp [next, hChoose, deliver, enter, hCaught]
  · rename_i hNot
    left
    have hUser : q.choose = .user := by
      unfold choose at hNot ⊢
      grind
    simp [next, hMode, hUser]

end Proc

-- Diverting into a Handler

/- A handler of the program from which it can come back. -/
def SigAction.ready (act : SigAction) : Prop := act.caught ∧ act.restorer ≠ 0

instance (act : SigAction) : Decidable act.ready := inferInstanceAs (Decidable (_ ∧ _))

/- A signal that is pending, not blocked and has a handler. -/
def Proc.Deliverable (q : Proc) (s : Fin 32) : Prop :=
  Mask.has q.runnable s = true ∧ (q.sigActions s).ready

/- From `q` to `q'` the process takes up the signal `s`. -/
structure Diverts (q q' : Proc) (s : Fin 32) : Prop where
  queued : Mask.has q.sigPending s = true
  cleared : q'.sigPending = q.sigPending &&& ~~~bit s
  saved : q'.sigSavedFrame = some q.trapframe
  epc : q'.trapframe.epc = (q.sigActions s).handler
  arg : q'.trapframe.arg 0 = UInt64.ofNat s.val
  ra : q'.trapframe.regs .ra = (q.sigActions s).restorer

theorem Diverts.of_lowest (hFree : q.sigSavedFrame = none)
    (hLow : Mask.lowest q.runnable = some s) (hReady : (q.sigActions s).ready) :
    Diverts q (q.returnToUser words) s := by
  have hHas := lowest_has hLow
  rw [Proc.runnable, has_and_not, Bool.and_eq_true] at hHas
  have hEq : q.returnToUser words = (q.deliver s (q.sigActions s) q.sigBlocked).enter words := by
    simp [Proc.returnToUser, Proc.choose, hFree, hLow, hReady.2]
  rw [hEq, Proc.deliver, if_pos hReady.1]
  exact ⟨hHas.1, rfl, rfl, rfl, rfl, rfl⟩

/- A frame is saved for the first signal in line or for none. -/
theorem ready_of_saved {tf : TrapFrame} (hFree : q.sigSavedFrame = none)
    (hSaved : (q.returnToUser words).sigSavedFrame = some tf) :
    ∃ k, Mask.lowest q.runnable = some k ∧ (q.sigActions k).ready := by
  cases hLow : Mask.lowest q.runnable with
  | none => simp [Proc.returnToUser, Proc.choose, hFree, hLow, Proc.enter] at hSaved
  | some k =>
    refine ⟨k, rfl, ?_⟩
    by_contra hNot
    by_cases hCaught : (q.sigActions k).caught <;> simp [SigAction.ready, hCaught] at hNot <;>
      simp [Proc.returnToUser, Proc.choose, *, Proc.deliver, Proc.enter] at hSaved

/- Only the first signal in line is ever taken up. -/
theorem diverts_iff : Diverts q (q.returnToUser words) s ↔ q.sigSavedFrame = none ∧
      Mask.lowest q.runnable = some s ∧ (q.sigActions s).ready := by
  constructor
  · intro hDiverts
    have hGone : Mask.has (q.returnToUser words).sigPending s = false := by
      simp [hDiverts.cleared, has_and_not, has_bit]
    cases hFree : q.sigSavedFrame with
    | some f =>
      have hSame : (q.returnToUser words).sigPending = q.sigPending := by
        simp [Proc.returnToUser, Proc.choose, hFree, Proc.enter]
      rw [hSame, hDiverts.queued] at hGone
      cases hGone
    | none =>
      rcases ready_of_saved hFree hDiverts.saved with ⟨k, hLow, hReady⟩
      rw [(Diverts.of_lowest hFree hLow hReady).cleared, has_and_not, has_bit,
        hDiverts.queued] at hGone
      obtain rfl : s = k := by simpa using hGone
      exact ⟨rfl, hLow, hReady⟩
  · rintro ⟨hFree, hLow, hReady⟩
    exact .of_lowest hFree hLow hReady

-- No Signal Waits in Vain

/-
  The first deliverable signal is taken up at the next return
  to user mode, and a pause ends with a handler or a kill.
-/
structure Prompt (q : Proc) : Prop where
  deliver : ∀ words, q.sigSavedFrame = none → (∃ s, q.Deliverable s) →
    ∃ s, IsLeast {t | q.Deliverable t} s ∧ Diverts q (q.returnToUser words) s
  pause : ∀ words q', q.sysPause = some q' → q'.killed = false →
    ∃ s, Diverts q' (q'.returnToUser words) s

/-
  What the first signal in line must satisfy, where a signal
  is due: in a live process, or when some are deliverable.
-/
def FirstReady (q : Proc) : Prop :=
  ∀ k, Mask.lowest q.runnable = some k →
    q.killed = false ∨ q.sigSavedFrame = none ∧ (∃ s, q.Deliverable s) →
      q.sigSavedFrame = none ∧ (q.sigActions k).ready

theorem lowest_isSome {m : Mask} : m ≠ 0 ↔ ∃ k, Mask.lowest m = some k := by
  constructor
  · intro hNe
    by_contra hNone
    refine hNe (BitVec.eq_of_getLsbD_eq fun i hi => ?_)
    by_contra hBit
    rcases lowest_le (s := ⟨i, hi⟩) (by simpa [Mask.has] using hBit) with ⟨k, hLow, _⟩
    exact hNone ⟨k, hLow⟩
  · rintro ⟨k, hLow⟩ rfl
    simpa [Mask.has] using lowest_has hLow

theorem prompt_iff (q : Proc) : Prompt q ↔ FirstReady q := by
  constructor
  · rintro ⟨hDeliver, hPause⟩ k hLow hDue
    -- `q` or the state after a pause takes up a signal
    have hTaken : ∃ s, q.sigSavedFrame = none ∧ Mask.lowest q.runnable = some s ∧
        (q.sigActions s).ready := by
      rcases hDue with hLive | ⟨hFree, hSome⟩
      · have hNe : q.runnable ≠ 0#32 := lowest_isSome.mpr ⟨k, hLow⟩
        rcases hPause .zero (q.ret (-1)) (by simp [Proc.sysPause, hNe]) hLive with ⟨s, hDiverts⟩
        have hReady := diverts_iff.mp hDiverts
        exact ⟨s, hReady⟩
      · rcases hDeliver .zero hFree hSome with ⟨s, _, hDiverts⟩
        exact ⟨s, diverts_iff.mp hDiverts⟩
    rcases hTaken with ⟨s, hFree, hLow', hReady⟩
    obtain rfl := Option.some.inj (hLow.symm.trans hLow')
    exact ⟨hFree, hReady⟩
  · intro hFirst
    refine ⟨fun words hFree hSome => ?_, fun words q' hReturns hLive => ?_⟩
    · rcases hSome with ⟨s, hHas, hReady⟩
      rcases lowest_le hHas with ⟨k, hLow, _⟩
      have hReadyK := (hFirst k hLow (.inr ⟨hFree, s, hHas, hReady⟩)).2
      refine ⟨k, ⟨⟨lowest_has hLow, hReadyK⟩, fun t ht => ?_⟩, .of_lowest hFree hLow hReadyK⟩
      rcases lowest_le ht.1 with ⟨j, hLow', hLe⟩
      obtain rfl := Option.some.inj (hLow.symm.trans hLow')
      exact hLe
    · unfold Proc.sysPause at hReturns
      split at hReturns <;> cases hReturns
      rename_i hWoken
      have hLive : q.killed = false := hLive
      rcases lowest_isSome.mp (by simpa [hLive] using hWoken) with ⟨k, hLow⟩
      rcases hFirst k hLow (.inl hLive) with ⟨hFree, hReady⟩
      exact ⟨k, .of_lowest hFree hLow hReady⟩

/- Signal 10 is ignored, signal 12 has a handler. -/
def ignoredFirst : Proc :=
  { Proc.withLayout .default with
    sigPending := 1 <<< 10 ||| 1 <<< 12
    sigActions := fun s => if s.val = 12 then ⟨4096, 8192, 0⟩ else ⟨SIG_IGN, 0, 0⟩ }

/- Signal 12 is not taken up, and neither is any other. -/
theorem not_prompt_ignoredFirst : ignoredFirst.Deliverable 12 ∧
      (∀ s, ¬ Diverts ignoredFirst (ignoredFirst.returnToUser .zero) s) ∧
      ¬ Prompt ignoredFirst := by
  have hFirst : Mask.lowest ignoredFirst.runnable = some 10 := by decide
  have hWaits : ignoredFirst.Deliverable 12 := ⟨by decide, by decide⟩
  have hNone : ∀ s, ¬ Diverts ignoredFirst (ignoredFirst.returnToUser .zero) s := by
    intro s hDiverts
    rcases diverts_iff.mp hDiverts with ⟨_, hLow, hReady⟩
    obtain rfl := Option.some.inj (hFirst.symm.trans hLow)
    exact absurd hReady (by decide)
  refine ⟨hWaits, hNone, fun hPrompt => ?_⟩
  rcases hPrompt.deliver .zero rfl ⟨12, hWaits⟩ with ⟨s, _, hDiverts⟩
  exact hNone s hDiverts

end Sig

end PlayXv6
