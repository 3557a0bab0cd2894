import PlayXv6.Lib.Machine

/-
  Lists of tasks that wait to be woken.

  A task registers on a list.  Who changes what the list is
  about calls `wake_all`: it takes the list as a whole and
  then queues its tasks one by one.  Some wakes are made with
  a lock held and are one step.

  Main declarations:
    * `WaitLists.apply`
    * `WaitLists.Due`, `Due.apply`
    * `Due.arrives`
-/

/-
  `calls` are the calls of `wake_all` that are being made, by
  caller: the lists that it has still to take, and the tasks
  it has taken and not yet queued.  `ready` counts the entries
  of a task in the queue.
-/
structure WaitLists (L T : Type*) where
  lists : L → List T
  calls : AList fun _ : T => List L × List T
  ready : T → Nat

namespace WaitLists

open Function

variable {L T : Type*} [DecidableEq L] [DecidableEq T]

def empty : WaitLists L T where
  lists := fun _ => []
  calls := ∅
  ready := fun _ => 0

inductive Op (L T : Type*) where
  | skip
  | register (t : T) (l : L)
  -- a list with room for one task
  | replace (t : T) (l : L)
  | announce (p : T) (ls : List L)
  | wake (p : T)
  -- take lists and queue their tasks in one step
  | flush (ls : List L)
  | poke (t : T)
  | poll (t : T)

/- The next step of the call that `p` is in, if it is in one. -/
def wake (w : WaitLists L T) (p : T) : WaitLists L T :=
  match w.calls.lookup p with
  | none => w
  | some (ls, t :: ts) =>
    { w with
      calls := w.calls.insert p (ls, ts)
      ready := update w.ready t (w.ready t + 1) }
  | some (l :: ls, []) =>
    { w with
      lists := update w.lists l []
      calls := w.calls.insert p (ls, w.lists l) }
  | some ([], []) => { w with calls := w.calls.erase p }

def apply (w : WaitLists L T) : Op L T → WaitLists L T
  | .skip => w
  | .register t l =>
    { w with
      lists := update w.lists l
        (if t ∈ w.lists l then w.lists l else w.lists l ++ [t]) }
  | .replace t l => { w with lists := update w.lists l [t] }
  | .announce p ls => { w with calls := w.calls.insert p (ls, []) }
  | .wake p => w.wake p
  | .flush ls =>
    { w with
      lists := fun l => if l ∈ ls then [] else w.lists l
      ready := fun t => w.ready t + (ls.flatMap w.lists).count t }
  | .poke t => { w with ready := update w.ready t (w.ready t + 1) }
  | .poll t => { w with ready := update w.ready t (w.ready t - 1) }

/- The caller has the task in its hands, or has still to take a list it is on. -/
def Called (w : WaitLists L T) (t : T) (ls : List L) (ts : List T) : Prop :=
  t ∈ ts ∨ ∃ l ∈ ls, t ∈ w.lists l

/- The task is queued, or a call that is being made will queue it. -/
def Due (w : WaitLists L T) (t : T) : Prop :=
  0 < w.ready t ∨
    ∃ p ls ts, w.calls.lookup p = some (ls, ts) ∧ w.Called t ls ts

/- A wake of the list would reach the task. -/
def Listens (w : WaitLists L T) (t : T) (l : L) : Prop :=
  w.Due t ∨ t ∈ w.lists l

/- The operation takes nothing from the task. -/
def Op.Spares (w : WaitLists L T) (t : T) : Op L T → Prop
  | .poll u => u ≠ t
  | .replace u l => u ≠ t → t ∉ w.lists l
  | .announce p _ => p ∉ w.calls
  | _ => True

variable {w : WaitLists L T} {op : Op L T} {t p : T} {l : L} {ls : List L} {ts : List T}

/- Who is taken from a list is in the hands of who took it. -/
theorem mem_lists_wake (hMem : t ∈ w.lists l) :
    (w.wake p).Due t ∨ t ∈ (w.wake p).lists l := by
  unfold wake
  split
  · exact .inr hMem
  · exact .inr hMem
  · rename_i k ls hCall
    by_cases hEq : l = k
    · subst hEq
      exact .inl (.inr ⟨p, ls, _, AList.lookup_insert .., .inl hMem⟩)
    · right
      simpa [update_of_ne hEq] using hMem
  · exact .inr hMem

theorem ready_flush (hList : l ∈ ls) (hMem : t ∈ w.lists l) :
    0 < (w.apply (.flush ls)).ready t :=
  Nat.add_pos_right _ (List.count_pos_iff.mpr (List.mem_flatMap.mpr ⟨l, hList, hMem⟩))

theorem mem_lists_apply (hOp : op.Spares w t) (hMem : t ∈ w.lists l) :
    (w.apply op).Due t ∨ t ∈ (w.apply op).lists l := by
  cases op with
  | wake p => exact mem_lists_wake hMem
  | register u k | replace u k =>
    right
    simp only [WaitLists.apply, update_apply]
    grind [Op.Spares]
  | flush ls =>
    by_cases hIn : l ∈ ls
    · exact .inl (.inl (ready_flush hIn hMem))
    · right
      simpa [WaitLists.apply, hIn] using hMem
  | _ => exact .inr hMem

/- A step of the call queues the task or comes closer to it. -/
theorem called_wake (hCall : w.calls.lookup p = some (ls, ts)) (hCalled : w.Called t ls ts) :
    0 < (w.wake p).ready t ∨
      ∃ ls' ts', (w.wake p).calls.lookup p = some (ls', ts') ∧
        (w.wake p).Called t ls' ts' ∧
        Prod.Lex (· < ·) (· < ·) (ls'.length, ts'.length) (ls.length, ts.length) := by
  unfold wake
  rw [hCall]
  match ls, ts with
  | ls, u :: ts =>
    by_cases hEq : t = u
    · left
      simp [hEq]
    · refine .inr ⟨ls, ts, AList.lookup_insert .., ?_, .right _ (by simp)⟩
      exact hCalled.imp_left fun hMem => (List.mem_cons.mp hMem).resolve_left hEq
  | l :: ls, [] =>
    refine .inr ⟨ls, w.lists l, AList.lookup_insert .., ?_, .left _ _ (by simp)⟩
    rcases hCalled with hNil | ⟨k, hk, hMem⟩
    · cases hNil
    · by_cases hEq : k = l
      · exact .inl (hEq ▸ hMem)
      · refine .inr ⟨k, (List.mem_cons.mp hk).resolve_left hEq, ?_⟩
        simpa [update_of_ne hEq] using hMem
  | [], [] => simp [Called] at hCalled

theorem lookup_calls_apply (hOp : op.Spares w t) (hNe : op ≠ .wake p)
    (hCall : w.calls.lookup p = some (ls, ts)) :
    (w.apply op).calls.lookup p = some (ls, ts) := by
  cases op with
  | announce q ks =>
    have hOther : p ≠ q := by
      rintro rfl
      exact Option.some_ne_none _ (hCall.symm.trans (AList.lookup_eq_none.mpr hOp))
    simpa [WaitLists.apply, AList.lookup_insert_ne hOther] using hCall
  | wake q =>
    have hOther : p ≠ q := fun hEq => hNe (hEq ▸ rfl)
    simp only [WaitLists.apply, wake]
    split <;> simp [hCall, AList.lookup_insert_ne hOther, AList.lookup_erase_ne hOther]
  | _ => exact hCall

theorem ready_apply (hOp : op.Spares w t) : w.ready t ≤ (w.apply op).ready t := by
  cases op with
  | wake p =>
    simp only [WaitLists.apply, wake]
    split
    · rfl
    · simp only [update_apply]
      grind
    · rfl
    · rfl
  | poke u | poll u =>
    simp only [WaitLists.apply, update_apply]
    grind [Op.Spares]
  | flush ls => exact Nat.le_add_right ..
  | _ => exact le_rfl

/- A wake that is due stays so until the task is polled. -/
theorem Due.apply (hOp : op.Spares w t) (hDue : w.Due t) : (w.apply op).Due t := by
  rcases hDue with hReady | ⟨p, ls, ts, hCall, hCalled⟩
  · exact .inl (Nat.lt_of_lt_of_le hReady (ready_apply hOp))
  by_cases hWake : op = .wake p
  · subst hWake
    rcases called_wake hCall hCalled with hReady | ⟨ls', ts', hCall', hCalled', _⟩
    · exact .inl hReady
    · exact .inr ⟨p, ls', ts', hCall', hCalled'⟩
  have hCall' := lookup_calls_apply hOp hWake hCall
  rcases hCalled with hHand | ⟨l, hl, hMem⟩
  · exact .inr ⟨p, ls, ts, hCall', .inl hHand⟩
  · rcases mem_lists_apply hOp hMem with hDue | hStill
    · exact hDue
    · exact .inr ⟨p, ls, ts, hCall', .inr ⟨l, hl, hStill⟩⟩

theorem Listens.apply (hOp : op.Spares w t) (hListens : w.Listens t l) :
    (w.apply op).Listens t l := by
  rcases hListens with hDue | hMem
  · exact .inl (hDue.apply hOp)
  · exact mem_lists_apply hOp hMem

/- Nobody comes into a call by a step of one. -/
theorem mem_calls_wake (hMem : t ∈ (w.wake p).calls) : t ∈ w.calls := by
  by_cases hEq : t = p
  · subst hEq
    by_contra hNot
    simp [wake, AList.lookup_eq_none.mpr hNot, hNot] at hMem
  · unfold wake at hMem
    split at hMem
    · exact hMem
    · exact ((AList.mem_insert _).mp hMem).resolve_left hEq
    · exact ((AList.mem_insert _).mp hMem).resolve_left hEq
    · exact (AList.mem_erase.mp hMem).2

/- A call of `wake_all` reaches who listens. -/
theorem Listens.announce (hIdle : p ∉ w.calls) (hListens : w.Listens t l)
    (hMem : l ∈ ls) : (w.apply (.announce p ls)).Due t := by
  rcases hListens with hDue | hIn
  · exact hDue.apply hIdle
  · exact .inr ⟨p, ls, [], AList.lookup_insert .., .inr ⟨l, hMem, hIn⟩⟩

theorem Listens.flush (hListens : w.Listens t l) (hMem : l ∈ ls) :
    (w.apply (.flush ls)).Due t := by
  rcases hListens with hDue | hIn
  · exact hDue.apply trivial
  · exact .inl (ready_flush hMem hIn)

theorem listens_register : (w.apply (.register t l)).Listens t l := by
  right
  simp only [WaitLists.apply, update_self]
  split
  · assumption
  · exact List.mem_append_right _ (List.mem_singleton_self t)

theorem listens_replace : (w.apply (.replace t l)).Listens t l := by
  right
  simp [WaitLists.apply]

/- The caller `p` queues the task by going on with its call. -/
inductive Arrives (p t : T) : WaitLists L T → Prop where
  | now {w : WaitLists L T} (hReady : 0 < w.ready t) : Arrives p t w
  | later {w : WaitLists L T} (hNext : Arrives p t (w.wake p)) : Arrives p t w

theorem arrives_of_call {w : WaitLists L T} {ls : List L} {ts : List T}
    (hCall : w.calls.lookup p = some (ls, ts)) (hCalled : w.Called t ls ts) :
    Arrives p t w := by
  refine .later ?_
  rcases called_wake hCall hCalled with hReady | ⟨ls', ts', hCall', hCalled', hLess⟩
  · exact .now hReady
  · exact arrives_of_call hCall' hCalled'
termination_by (ls.length, ts.length)
decreasing_by exact hLess

/- A wake that is due arrives. -/
theorem Due.arrives (hDue : w.Due t) : ∃ p, Arrives p t w := by
  rcases hDue with hReady | ⟨p, ls, ts, hCall, hCalled⟩
  · exact ⟨t, .now hReady⟩
  · exact ⟨p, arrives_of_call hCall hCalled⟩

/-
  In a machine that keeps `I` and where `a` is the next step
  of a call of `p`, the wake arrives by steps `a` alone.
-/
theorem Arrives.reach {σ A : Type*} {step : σ → A → Option σ} {v : σ → WaitLists L T} {a : A}
    {I : σ → Prop} {s : σ} (hStep : ∀ s, I s → p ∈ (v s).calls →
      ∃ s', step s a = some s' ∧ v s' = (v s).wake p ∧ I s') (hInit : I s)
    (hArrives : Arrives p t (v s)) :
    ∃ s', Machine.Reach step (fun _ b => b = a) s s' ∧ 0 < (v s').ready t := by
  generalize hView : v s = w at hArrives
  induction hArrives generalizing s with
  | now hReady => exact ⟨s, .refl, hView ▸ hReady⟩
  | @later w _ ih =>
    by_cases hCall : p ∈ w.calls
    · rcases hStep s hInit (hView ▸ hCall) with ⟨m, hNext, hWake, hKept⟩
      rcases ih hKept (hWake.trans (by rw [hView])) with ⟨s', hReach, hReady⟩
      exact ⟨s', .trans (.next .refl rfl hNext) hReach, hReady⟩
    · refine ih hInit ?_
      rw [hView, wake, AList.lookup_eq_none.mpr hCall]

end WaitLists
