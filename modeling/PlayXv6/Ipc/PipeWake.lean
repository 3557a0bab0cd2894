import PlayXv6.Ipc.PipeEof

/-
  No wake-up of a pipe is lost.

  A reader registers and then looks at the buffer and at
  `writers`; a writer loads `readers` before it registers.
  If the drop of the last read end does not take the list of
  wakers between these two, every task that is parked on a
  condition that holds has its wake under way: it stands in a
  ready queue, in the hands of a running `wake_all`, or in a
  list that a task is about to take.

  Main declarations:
    * `Pc.wakes`
    * `watched_step`, `wakes_of_reach`
-/

namespace PlayXv6

open Function Machine

namespace Pipe

variable {n : Nat} {σ σ' : Sys n} {s : Shared n} {t u : Fin n} {τ τ' : Task n} {e : Effect n}
variable {arcs : Side → Nat} {d : Side} {P Q : Prop}

/- The list a task is about to take. -/
def Pc.wakes : Pc n → Option Side
  | .write _ _ (.wake .take) => some .read
  | .read _ _ (.wake _ .take) => some .write
  | .dropWake d .take => some d.other
  | _ => none

/- The tasks that a running `wake_all` has yet to wake. -/
def Pc.taken : Pc n → List (Fin n)
  | .write _ _ (.wake (.wake ws)) => ws
  | .read _ _ (.wake _ (.wake ws)) => ws
  | .dropWake _ (.wake ws) => ws
  | _ => []

/- What a step does to the wakes under way. -/
structure Passes (s : Shared n) (e : Effect n) (p p' : Pc n) : Prop where
  take : ∀ d, p.wakes = some d → e = .take d ∧ p'.taken = s.wakers d
  only : ∀ d, e = .take d → p.wakes = some d
  keep : ∀ v ∈ p.taken, v ∈ p'.taken ∨ e = .wake v

theorem Passes.of_none {p p' : Pc n} (hWakes : p.wakes = none) (hTaken : p.taken = [])
    (hTake : ∀ d, e ≠ .take d) : Passes s e p p' where
  take d hd := by simp [hWakes] at hd
  only d hd := absurd hd (hTake d)
  keep v hv := by simp [hTaken] at hv

theorem Passes.of_take {p p' : Pc n} (hWakes : p.wakes = some d) (hTaken : p.taken = [])
    (hList : p'.taken = s.wakers d) : Passes s (.take d) p p' where
  take d' hd := by
    rw [hWakes] at hd
    cases hd
    exact ⟨rfl, hList⟩
  only d' hd := by
    cases hd
    exact hWakes
  keep v hv := by simp [hTaken] at hv

theorem Passes.of_wake {p p' : Pc n} (hWakes : p.wakes = none) (hTaken : p.taken = u :: p'.taken) :
    Passes s (.wake u) p p' where
  take d hd := by simp [hWakes] at hd
  only d hd := by simp at hd
  keep v hv := by
    rw [hTaken] at hv
    rcases List.mem_cons.mp hv with rfl | hv
    · exact Or.inr rfl
    · exact Or.inl hv

theorem WriteStep.passes {c : Call} {k : Nat} {w : WritePc n} {p : Pc n}
    (hStep : WriteStep s τ c k w e p) : Passes s e (.write c k w) p := by
  cases hStep with
  | take => exact .of_take rfl rfl rfl
  | wake => exact .of_wake rfl rfl
  | fail hFails => cases w <;> first | exact .of_none rfl rfl (by simp) | exact hFails.elim
  | push hw _ => rcases hw with rfl | rfl <;> exact .of_none rfl rfl (by simp)
  | _ => exact .of_none rfl rfl (by simp)

theorem ReadStep.passes {c : Call} {k : Nat} {r : ReadPc n} {p : Pc n} {v : User}
    (hStep : ReadStep s τ c k r e p v) : Passes s e (.read c k r) p := by
  cases hStep with
  | take => exact .of_take rfl rfl rfl
  | wake => exact .of_wake rfl rfl
  | eof hr _ | pop hr _ => rcases hr with rfl | rfl <;> exact .of_none rfl rfl (by simp)
  | _ => exact .of_none rfl rfl (by simp)

theorem TaskStep.passes (hStep : TaskStep s arcs τ e τ') : Passes s e τ.pc τ'.pc := by
  cases hStep with
  | write hPc hStep | read hPc hStep =>
    rw [hPc]
    exact hStep.passes
  | take hPc =>
    rw [hPc]
    exact .of_take rfl rfl rfl
  | wake hPc =>
    rw [hPc]
    exact .of_wake rfl rfl
  | _ hPc =>
    rw [hPc]
    exact .of_none rfl rfl (by simp)

-- Alerted Tasks

/- The wake of `t` has been issued and not been consumed. -/
def InHand (σ : Sys n) (t : Fin n) : Prop := 0 < σ.shared.ready t ∨ ∃ u, t ∈ (σ.tasks u).pc.taken

/- A task is about to take list `d`. -/
def Coming (σ : Sys n) (d : Side) : Prop := ∃ u, (σ.tasks u).pc.wakes = some d

/- The wake of `t`, which waits in list `d`, is under way. -/
def WakePending (σ : Sys n) (d : Side) (t : Fin n) : Prop :=
  InHand σ t ∨ (t ∈ σ.shared.wakers d ∧ Coming σ d)

/- `t` is woken for certain once `P` holds. -/
def Alert (σ : Sys n) (d : Side) (t : Fin n) (P : Prop) : Prop :=
  InHand σ t ∨ (t ∈ σ.shared.wakers d ∧ (P → Coming σ d))

theorem Alert.pending (hAlert : Alert σ d t P) (hP : P) : WakePending σ d t :=
  hAlert.imp id fun h => ⟨h.1, h.2 hP⟩

section Step

variable (hTasks : σ'.tasks = update σ.tasks t τ') (hShared : σ'.shared = σ.shared.apply t e)
variable (hPasses : Passes σ.shared e (σ.tasks t).pc τ'.pc)

include hTasks hShared hPasses

theorem InHand.step (hHand : InHand σ u) : InHand σ' u := by
  have hReady : 0 < σ.shared.ready u → 0 < σ'.shared.ready u := by
    intro hPos
    rw [hShared]
    cases e <;> simp only [Shared.apply, update_apply] <;> grind
  rcases hHand with hPos | ⟨v, hv⟩
  · exact Or.inl (hReady hPos)
  · by_cases hvt : v = t
    · rw [hvt] at hv
      rcases hPasses.keep u hv with hKeep | hWake
      · refine Or.inr ⟨t, ?_⟩
        rw [hTasks, update_self]
        exact hKeep
      · left
        rw [hShared, hWake]
        simp [Shared.apply]
    · refine Or.inr ⟨v, ?_⟩
      rw [hTasks, update_of_ne hvt]
      exact hv

theorem Alert.step (hAlert : Alert σ d u P) (hImp : Q → P ∨ Coming σ' d) : Alert σ' d u Q := by
  rcases hAlert with hHand | ⟨hList, hCome⟩
  · exact Or.inl (hHand.step hTasks hShared hPasses)
  · by_cases hTake : e = .take d
    · -- the whole list is now in the hands of `t`
      refine Or.inl (Or.inr ⟨t, ?_⟩)
      rw [hTasks, update_self, (hPasses.take d (hPasses.only d hTake)).2]
      exact hList
    · right
      constructor
      · rw [hShared]
        cases e with
        | register d' =>
          simp only [Shared.apply]
          split
          · exact hList
          · simp only [update_apply]
            grind
        | _ => simp only [Shared.apply, update_apply]; grind
      · intro hQ
        rcases hImp hQ with hP | hComing
        · rcases hCome hP with ⟨v, hv⟩
          have hvt : v ≠ t := by
            intro hEq
            rw [hEq] at hv
            exact hTake (hPasses.take d hv).1
          refine ⟨v, ?_⟩
          rw [hTasks, update_of_ne hvt]
          exact hv
        · exact hComing

end Step

-- Waiting Tasks

/- The drop of the read end is about to wake the writers. -/
def Dropping (σ : Sys n) : Prop := ∃ u, (σ.tasks u).pc = .dropWake .read .take

/-
  What a task at `p` may rely on, from the moment it is on
  the list or, for a writer, has loaded `readers`.
-/
def Watch (σ : Sys n) (t : Fin n) : Pc n → Prop
  | .read _ _ .pop => Alert σ .read t False
  | .read _ _ .writers => Alert σ .read t (σ.shared.buf ≠ [])
  | .read _ _ .parked => Alert σ .read t (σ.shared.buf ≠ [] ∨ σ.shared.ends .write = 0)
  | .write _ _ (.register _) => σ.shared.ends .read = 0 → Dropping σ
  | .write _ _ (.push _) => Alert σ .write t (σ.shared.ends .read = 0)
  | .write _ _ (.parked _) =>
    Alert σ .write t (σ.shared.buf.length < PIPE_CAP ∨ σ.shared.ends .read = 0)
  | _ => True

def Watched (σ : Sys n) : Prop := ∀ t, Watch σ t (σ.tasks t).pc

/- A writer has loaded `readers` and not registered yet. -/
def Pc.registers : Pc n → Bool
  | .write _ _ (.register _) => true
  | _ => false

/-
  The drop of the last read end does not take the list of
  wakers while a writer stands between its load of `readers`
  and its registration.
-/
def DropsQuiet (σ : Sys n) : Act n → Prop
  | .step t => (σ.tasks t).pc = .dropWake .read .take → ∀ u, (σ.tasks u).pc.registers = false
  | _ => True

/- How a task comes to wait. -/
def Arrives (s : Shared n) (e : Effect n) (p : Pc n) : Pc n → Prop
  | .read c k .pop => p = .read c k .register ∧ e = .register .read
  | .read c k .writers => p = .read c k .pop ∧ e = .skip ∧ s.buf = []
  | .read c k .parked => p = .read c k .writers ∧ e = .skip ∧ s.ends .write ≠ 0
  | .write c k (.register b) => p = .write c k (.readers b) ∧ e = .skip ∧ s.ends .read ≠ 0
  | .write c k (.push b) => p = .write c k (.register b) ∧ e = .register .write
  | .write c k (.parked b) => p = .write c k (.push b) ∧ e = .skip ∧ PIPE_CAP ≤ s.buf.length
  | _ => True

theorem WriteStep.arrives {c : Call} {k : Nat} {w : WritePc n} {p : Pc n}
    (hStep : WriteStep s τ c k w e p) : Arrives s e (.write c k w) p := by
  cases hStep with
  | start _ _ hw => rcases hw with rfl | rfl <;> trivial
  | readers hEnds => exact ⟨rfl, rfl, hEnds⟩
  | register => exact ⟨rfl, rfl⟩
  | park hFull => exact ⟨rfl, rfl, hFull⟩
  | _ => trivial

theorem ReadStep.arrives {c : Call} {k : Nat} {r : ReadPc n} {p : Pc n} {v : User}
    (hStep : ReadStep s τ c k r e p v) : Arrives s e (.read c k r) p := by
  cases hStep with
  | start _ hr => rcases hr with rfl | rfl <;> trivial
  | register => exact ⟨rfl, rfl⟩
  | writers hBuf => exact ⟨rfl, rfl, hBuf⟩
  | park hEnds => exact ⟨rfl, rfl, hEnds⟩
  | _ => trivial

theorem TaskStep.arrives (hStep : TaskStep s arcs τ e τ') : Arrives s e τ.pc τ'.pc := by
  cases hStep with
  | write hPc hStep | read hPc hStep =>
    rw [hPc]
    exact hStep.arrives
  | _ => trivial

section Step

variable (hTasks : σ'.tasks = update σ.tasks t τ') (hShared : σ'.shared = σ.shared.apply t e)
variable (hComes : e.Comes σ.shared (σ.tasks t) τ')

include hTasks hShared hComes

/- A byte more comes with a wake of the readers. -/
theorem buf_step (hBuf : σ'.shared.buf ≠ []) : σ.shared.buf ≠ [] ∨ Coming σ' .read := by
  rw [hShared] at hBuf
  revert hBuf
  refine hComes.elim (motive := fun e => (σ.shared.apply t e).buf ≠ [] →
    σ.shared.buf ≠ [] ∨ Coming σ' .read) t ?_ ?_ ?_ (fun d _ _ hBuf => Or.inl hBuf)
  · intro hSame _ _ _ hBuf
    rw [hSame] at hBuf
    exact Or.inl hBuf
  · intro c k w b _ _ hPc _
    refine Or.inr ⟨t, ?_⟩
    rw [hTasks, update_self, hPc]
    rfl
  · intro c k r b _ _ _ hBuf
    left
    intro hNil
    simp [Shared.apply, hNil] at hBuf

/- A byte less comes with a wake of the writers. -/
theorem room_step (hRoom : σ'.shared.buf.length < PIPE_CAP) :
    σ.shared.buf.length < PIPE_CAP ∨ Coming σ' .write := by
  rw [hShared] at hRoom
  revert hRoom
  refine hComes.elim (motive := fun e => (σ.shared.apply t e).buf.length < PIPE_CAP →
    σ.shared.buf.length < PIPE_CAP ∨ Coming σ' .write) t ?_ ?_ ?_ (fun d _ _ hRoom => Or.inl hRoom)
  · intro hSame _ _ _ hRoom
    rw [hSame] at hRoom
    exact Or.inl hRoom
  · exact fun _ _ _ _ _ hOld _ _ => Or.inl hOld
  · intro c k r b _ _ hPc _
    refine Or.inr ⟨t, ?_⟩
    rw [hTasks, update_self, hPc]
    rfl

/- A closed end comes with a wake of the other side. -/
theorem ends_step (hZero : σ'.shared.ends d = 0) : σ.shared.ends d = 0 ∨ Coming σ' d.other := by
  rw [hShared] at hZero
  rcases ends_apply hComes hZero with hOld | ⟨-, hPc⟩
  · exact Or.inl hOld
  · refine Or.inr ⟨t, ?_⟩
    rw [hTasks, update_self, hPc]
    rfl

theorem Watch.step_other {p : Pc n} (hWatch : Watch σ u p)
    (hPasses : Passes σ.shared e (σ.tasks t).pc τ'.pc) (hDrops : p.registers →
      (σ.tasks t).pc ≠ .dropWake .read .take) : Watch σ' u p := by
  have hBuf := buf_step hTasks hShared hComes
  have hRoom := room_step hTasks hShared hComes
  have hRead := ends_step (d := .read) hTasks hShared hComes
  have hWrite := ends_step (d := .write) hTasks hShared hComes
  unfold Watch at hWatch ⊢
  split at hWatch
  · exact hWatch.step hTasks hShared hPasses False.elim
  · exact hWatch.step hTasks hShared hPasses hBuf
  · refine hWatch.step hTasks hShared hPasses ?_
    rintro (hFull | hZero)
    · exact (hBuf hFull).imp Or.inl id
    · exact (hWrite hZero).imp Or.inr id
  · intro hZero
    rw [hShared] at hZero
    rcases ends_apply hComes hZero with hOld | ⟨-, hPc⟩
    · rcases hWatch hOld with ⟨v, hv⟩
      have hvt : v ≠ t := by
        intro hEq
        rw [hEq] at hv
        exact hDrops rfl hv
      refine ⟨v, ?_⟩
      rw [hTasks, update_of_ne hvt]
      exact hv
    · refine ⟨t, ?_⟩
      rw [hTasks, update_self]
      exact hPc
  · exact hWatch.step hTasks hShared hPasses hRead
  · refine hWatch.step hTasks hShared hPasses ?_
    rintro (hLess | hZero)
    · exact (hRoom hLess).imp Or.inl id
    · exact (hRead hZero).imp Or.inr id
  · trivial

end Step

theorem mem_wakers_register (s : Shared n) (t : Fin n) (d : Side) :
    t ∈ (s.apply t (.register d)).wakers d := by
  simp only [Shared.apply]
  split
  · assumption
  · simp

theorem Watch.step_self (hWatch : Watch σ t (σ.tasks t).pc)
    (hTasks : σ'.tasks = update σ.tasks t τ') (hShared : σ'.shared = σ.shared.apply t e)
    (hPasses : Passes σ.shared e (σ.tasks t).pc τ'.pc)
    (hArrives : Arrives σ.shared e (σ.tasks t).pc τ'.pc) : Watch σ' t τ'.pc := by
  unfold Arrives at hArrives
  split at hArrives
  · rename_i hPc
    rw [hPc]
    rcases hArrives with ⟨-, rfl⟩
    refine Or.inr ⟨?_, False.elim⟩
    rw [hShared]
    exact mem_wakers_register _ _ _
  · rename_i hPc
    rw [hPc]
    rcases hArrives with ⟨hOld, rfl, hBuf⟩
    rw [hOld] at hWatch
    have hAlert : Alert σ .read t False := hWatch
    refine hAlert.step hTasks hShared hPasses ?_
    intro hNe
    rw [hShared] at hNe
    exact absurd hBuf hNe
  · rename_i hPc
    rw [hPc]
    rcases hArrives with ⟨hOld, rfl, hEnds⟩
    rw [hOld] at hWatch
    have hAlert : Alert σ .read t (σ.shared.buf ≠ []) := hWatch
    refine hAlert.step hTasks hShared hPasses ?_
    rw [hShared]
    rintro (hNe | hZero)
    · exact Or.inl hNe
    · exact absurd hZero hEnds
  · rename_i hPc
    rw [hPc]
    rcases hArrives with ⟨-, rfl, hEnds⟩
    intro hZero
    rw [hShared] at hZero
    exact absurd hZero hEnds
  · rename_i hPc
    rw [hPc]
    rcases hArrives with ⟨hOld, rfl⟩
    rw [hOld] at hWatch
    have hDrop : σ.shared.ends .read = 0 → Dropping σ := hWatch
    have hSame := apply_quiet (s := σ.shared) (t := t) (e := .register .write) rfl
    refine Or.inr ⟨?_, ?_⟩
    · rw [hShared]
      exact mem_wakers_register _ _ _
    · intro hZero
      rw [hShared, hSame.2.1] at hZero
      rcases hDrop hZero with ⟨v, hv⟩
      have hvt : v ≠ t := by
        intro hEq
        rw [hEq, hOld] at hv
        simp at hv
      refine ⟨v, ?_⟩
      rw [hTasks, update_of_ne hvt, hv]
      rfl
  · rename_i hPc
    rw [hPc]
    rcases hArrives with ⟨hOld, rfl, hFull⟩
    rw [hOld] at hWatch
    have hAlert : Alert σ .write t (σ.shared.ends .read = 0) := hWatch
    refine hAlert.step hTasks hShared hPasses ?_
    rw [hShared]
    rintro (hRoom | hZero)
    · exact absurd hRoom (Nat.not_lt.mpr hFull)
    · exact Or.inl hZero
  · unfold Watch
    split <;> simp_all

-- Runs

/-
  Nothing happens to the pipe, no wake is lost to `u`, and
  `t` leaves a place where it had no wakes in hand.
-/
theorem Watch.carry {p : Pc n} (hWatch : Watch σ u p) (hBuf : σ'.shared.buf = σ.shared.buf)
    (hEnds : σ'.shared.ends = σ.shared.ends) (hList : σ'.shared.wakers = σ.shared.wakers)
    (hReady : 0 < σ.shared.ready u → 0 < σ'.shared.ready u) (hOthers : ∀ v, v ≠ t →
      (σ'.tasks v).pc = (σ.tasks v).pc) (hFree : (σ'.tasks t).pc = (σ.tasks t).pc ∨
      ((σ.tasks t).pc.wakes = none ∧ (σ.tasks t).pc.taken = [])) : Watch σ' u p := by
  -- who has a wake in hand, or comes to take a list, stays
  have hStay : ∀ v, (σ.tasks v).pc.wakes ≠ none ∨ (σ.tasks v).pc.taken ≠ [] →
        (σ'.tasks v).pc = (σ.tasks v).pc := by
    intro v hBusy
    by_cases hvt : v = t
    · rw [hvt] at hBusy ⊢
      rcases hFree with hSame | ⟨hWakes, hTaken⟩
      · exact hSame
      · simp [hWakes, hTaken] at hBusy
    · exact hOthers v hvt
  have hHand : InHand σ u → InHand σ' u := by
    rintro (hPos | ⟨v, hv⟩)
    · exact Or.inl (hReady hPos)
    · refine Or.inr ⟨v, ?_⟩
      rw [hStay v (Or.inr (List.ne_nil_of_mem hv))]
      exact hv
  have hCome : ∀ d, Coming σ d → Coming σ' d := by
    rintro d ⟨v, hv⟩
    refine ⟨v, ?_⟩
    rw [hStay v (Or.inl (by simp [hv]))]
    exact hv
  have hAlert : ∀ {d : Side} {P : Prop}, Alert σ d u P → Alert σ' d u P := by
    rintro d P (hIn | ⟨hMem, hImp⟩)
    · exact Or.inl (hHand hIn)
    · refine Or.inr ⟨?_, fun hP => hCome d (hImp hP)⟩
      rw [hList]
      exact hMem
  unfold Watch at hWatch ⊢
  rw [hBuf, hEnds]
  split at hWatch
  · exact hAlert hWatch
  · exact hAlert hWatch
  · exact hAlert hWatch
  · intro hZero
    rcases hWatch hZero with ⟨v, hv⟩
    refine ⟨v, ?_⟩
    rw [hStay v (Or.inl (by simp [hv, Pc.wakes]))]
    exact hv
  · exact hAlert hWatch
  · exact hAlert hWatch
  · trivial

theorem isUser_eq {p : Pc n} (hUser : p.isUser) : p = .user := by
  unfold Pc.isUser at hUser
  grind

/- A task leaves user mode, for a place that is not watched. -/
theorem Watched.leave (hWatched : Watched σ) (hUser : (σ.tasks t).pc.isUser)
    (hShared : σ'.shared = σ.shared) (hTasks : σ'.tasks = update σ.tasks t τ')
    (hFresh : Watch σ' t τ'.pc) : Watched σ' := by
  have hPc := isUser_eq hUser
  unfold Watched
  rw [hTasks]
  refine (forall_update_iff σ.tasks fun u τ => Watch σ' u τ.pc).mpr ⟨hFresh, fun u _ => ?_⟩
  refine (hWatched u).carry (t := t) (by rw [hShared])
    (by rw [hShared]) (by rw [hShared]) (by rw [hShared]; exact id) ?_ (Or.inr ?_)
  · intro v hv
    rw [hTasks, update_of_ne hv]
  · rw [hPc]
    exact ⟨rfl, rfl⟩

theorem watched_step {a : Act n} (hWatched : Watched σ) (hQuiet : DropsQuiet σ a)
    (hStep : σ.step a = some σ') : Watched σ' := by
  cases a with
  | write t user bufVa len nonblock | read t user bufVa len nonblock =>
    simp only [Sys.step] at hStep
    split at hStep <;> cases hStep
    rename_i hGuard
    exact hWatched.leave hGuard.1 rfl rfl trivial
  | step t =>
    simp only [Sys.step] at hStep
    rcases Option.map_eq_some_iff.mp hStep with ⟨⟨e, τ'⟩, hNext, rfl⟩
    have hMove := Task.next_step hNext
    refine (forall_update_iff σ.tasks fun u τ => Watch _ u τ.pc).mpr
      ⟨(hWatched t).step_self rfl rfl hMove.passes hMove.arrives, ?_⟩
    intro u _
    refine Watch.step_other rfl rfl hMove.comes.1 (hWatched u) hMove.passes ?_
    intro hRegisters hDrop
    rw [hQuiet hDrop u] at hRegisters
    simp at hRegisters
  | poll t =>
    simp only [Sys.step] at hStep
    split at hStep
    · simp at hStep
    rcases Option.map_eq_some_iff.mp hStep with ⟨p, hRepoll, rfl⟩
    have hIdle : (σ.tasks t).pc.wakes = none ∧ (σ.tasks t).pc.taken = [] ∧ ∀ σ', Watch σ' t p := by
      rcases Pc.repoll_cases hRepoll with ⟨hPc, rfl⟩ | ⟨c, k, b, hPc, rfl⟩ | ⟨c, k, hPc, rfl⟩
      all_goals
        rw [hPc]
        exact ⟨rfl, rfl, fun _ => trivial⟩
    refine (forall_update_iff σ.tasks fun u τ => Watch _ u τ.pc).mpr ⟨hIdle.2.2 _, ?_⟩
    intro u hut
    refine (hWatched u).carry (t := t) rfl rfl rfl ?_ ?_ (Or.inr ⟨hIdle.1, hIdle.2.1⟩)
    · intro hPos
      change 0 < update σ.shared.ready t _ u
      rw [update_of_ne hut]
      exact hPos
    · intro v hv
      change (update σ.tasks t _ v).pc = _
      rw [update_of_ne hv]
  | wake t =>
    cases hStep
    intro u
    refine (hWatched u).carry (t := t) rfl rfl rfl ?_ (fun _ _ => rfl) (Or.inl rfl)
    intro hPos
    simp only [Shared.apply, update_apply]
    grind
  | kill t =>
    cases hStep
    have hPc : ∀ v, (update σ.tasks t { σ.tasks t with killed := true } v).pc = (σ.tasks v).pc := by
      intro v
      rw [update_apply]
      grind
    intro u
    change Watch _ u (update σ.tasks t _ u).pc
    rw [hPc u]
    exact (hWatched u).carry (t := t) rfl rfl rfl id (fun v _ => hPc v) (Or.inl (hPc t))
  | dup d =>
    simp only [Sys.step] at hStep
    split at hStep <;> cases hStep
    intro u
    exact (hWatched u).carry (t := u) rfl rfl rfl id (fun _ _ => rfl) (Or.inl rfl)
  | close t d =>
    simp only [Sys.step] at hStep
    split at hStep <;> cases hStep
    rename_i hGuard
    refine hWatched.leave hGuard.1 rfl rfl ?_
    dsimp only
    split <;> trivial

/-
  If no drop of the last read end takes the list of wakers in
  that window, no task sleeps on a condition that holds.
-/
theorem wakes_of_reach {tasks : Fin n → Task n} (hReach : Reach Sys.step DropsQuiet
      (Sys.new tasks) σ) : (∀ t c k, (σ.tasks t).pc = .read c k .parked →
        (σ.shared.buf ≠ [] ∨ σ.shared.ends .write = 0) → WakePending σ .read t) ∧
      ∀ t c k b, (σ.tasks t).pc = .write c k (.parked b) → (σ.shared.buf.length < PIPE_CAP ∨
          σ.shared.ends .read = 0) → WakePending σ .write t := by
  have hWatched : Watched σ := hReach.invariant (fun m a m' hm hQuiet hStep =>
        watched_step hm hQuiet hStep)
      (fun t => trivial)
  constructor
  · intro t c k hPc hHolds
    have hWatch := hWatched t
    rw [hPc] at hWatch
    have hAlert : Alert σ .read t _ := hWatch
    exact hAlert.pending hHolds
  · intro t c k b hPc hHolds
    have hWatch := hWatched t
    rw [hPc] at hWatch
    have hAlert : Alert σ .write t _ := hWatch
    exact hAlert.pending hHolds

instance (σ : Sys n) : (a : Act n) → Decidable (DropsQuiet σ a)
  | .step _ => inferInstanceAs (Decidable (_ → _))
  | .write .. | .read .. | .poll _ | .wake _ | .kill _ | .dup _ | .close .. =>
    inferInstanceAs (Decidable True)

/- A parked reader has its wake once a byte is written. -/
theorem wakes_of_reach_sample : ∃ (σ : Sys 2) (c : Call), (σ.tasks 1).pc = .read c 0 .parked ∧
        σ.shared.buf = [10] ∧ WakePending σ .read 1 := by
  have hRun : (run Sys.step DropsQuiet (Sys.new (sampleTasks 2))
      (.read 1 sampleUser 100 4 false :: (List.replicate 5 (.step 1) ++
          .write 0 sampleUser 10 1 false :: List.replicate 5 (.step 0)))).any
      (fun σ => σ.shared.buf == [10] &&
        (σ.tasks 1).pc == .read ⟨0, 100, 4, false⟩ 0 .parked) = true := by decide +kernel
  rcases exists_reach hRun with ⟨σ, hReach, hCheck⟩
  rw [Bool.and_eq_true, beq_iff_eq, beq_iff_eq] at hCheck
  rcases hCheck with ⟨hBuf, hPc⟩
  exact ⟨σ, _, hPc, hBuf, (wakes_of_reach hReach).1 1 _ 0 hPc (Or.inl (by rw [hBuf]; simp))⟩

/-
  A writer loads `readers`, the last reader closes and wakes
  nobody, and the writer registers and parks at a full
  buffer.
-/
theorem wake_lost : ∃ (tasks : Fin 2 → Task 2) (σ : Sys 2) (c : Call) (k : Nat) (b : UInt8),
      Reach Sys.step (fun _ _ => True) (Sys.new tasks) σ ∧
        (σ.tasks 0).pc = .write c k (.parked b) ∧ σ.shared.ends .read = 0 ∧
            ¬ WakePending σ .write 0 := by
  have hRun : (run Sys.step (fun _ _ => True) (Sys.new (sampleTasks 2))
      (.write 0 sampleUser 10 512 true :: (List.replicate 2562 (.step 0) ++
          .write 0 sampleUser 10 1 false :: (List.replicate 3 (.step 0) ++ .close 1 .read ::
                (List.replicate 3 (.step 1) ++ List.replicate 2 (.step 0)))))).any
      (fun σ => σ.shared.ends .read == 0 && (σ.shared.ready 0 == 0 && ((σ.tasks 1).pc == .user &&
            (σ.tasks 0).pc == .write ⟨1, 10, 1, false⟩ 0 (.parked 10)))) = true := by
    decide +kernel
  rcases exists_reach hRun with ⟨σ, hReach, hCheck⟩
  rw [Bool.and_eq_true, Bool.and_eq_true, Bool.and_eq_true,
    beq_iff_eq, beq_iff_eq, beq_iff_eq, beq_iff_eq] at hCheck
  rcases hCheck with ⟨hEnds, hReady, hOther, hPc⟩
  refine ⟨sampleTasks 2, σ, _, _, _, hReach, hPc, hEnds, ?_⟩
  rintro ((hPos | ⟨u, hu⟩) | ⟨-, u, hu⟩)
  · omega
  · fin_cases u
    · simp [hPc, Pc.taken] at hu
    · simp [hOther, Pc.taken] at hu
  · fin_cases u
    · simp [hPc, Pc.wakes] at hu
    · simp [hOther, Pc.wakes] at hu

end Pipe

end PlayXv6
