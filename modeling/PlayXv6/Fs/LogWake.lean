import PlayXv6.Lib.WaitLists
import PlayXv6.Fs.GroupCommit

/-
  Waiting for admission to the log.

  A task that `begin_op` does not admit polls `WaitCommit`: it
  registers, tests the log again and parks.  The list of
  waiters is woken when an operation ends while others are
  outstanding, with the log still locked, and after a commit,
  when the log is no longer locked.

  Main declarations:
    * `Waiting.step`
    * `logWakes_of_reached`
    * `opens_of_reached`
-/

namespace PlayXv6

open Function

namespace Log

-- Waiting Tasks

/- How far a task is that `begin_op` has not admitted. -/
inductive Stage where
  | out
  -- about to register
  | refused
  -- about to test the log
  | registered
  | parked
  -- `WaitCommit` is ready, `begin_op` tries again
  | retry
  deriving DecidableEq, Repr

/-
  The log with its tasks, their stages and the waiters.  The
  calls of `waits` are those that tasks make after a commit:
  between the release of the log and the end of its call of
  `wake_all` a task does nothing else.
-/
structure Waiting : Type 1 where
  sys : Sys
  waits : WaitLists Unit Nat
  stage : Nat → Stage

def Waiting.setStage (w : Waiting) (t : Nat) (stage : Stage) : Waiting :=
  { w with stage := update w.stage t stage }

def Waiting.boot (start size : Nat) (disk : Disk Block) : Waiting where
  sys := Sys.boot start size disk
  waits := .empty
  stage := fun _ => .out

inductive WaitAct where
  -- the locked section of `begin_op`
  | tryBegin (t : Nat)
  | register (t : Nat)
  | check (t : Nat)
  -- the executor polls a task that was woken
  | poll (t : Nat)
  -- a step inside an operation or a commit
  | work (a : Act)
  | endOp (t : Nat)
  -- after a commit: unlock, then call `wake_all`
  | release (t : Nat)
  | wake (t : Nat)
  -- a wake from elsewhere
  | poke (t : Nat)

/- The steps of a task between admission and `end_op`. -/
def Act.IsWork : Act → Bool
  | .beginOp _ => false
  | .endOp _ => false
  | .release _ => false
  | _ => true

def Waiting.step (w : Waiting) : WaitAct → Option Waiting
  | .tryBegin t =>
    if t ∈ w.waits.calls then
      none
    else
      match w.sys.tasks t, w.stage t with
      | .idle, .out | .idle, .retry =>
        match w.sys.step (.beginOp t) with
        | some sys => some { w.setStage t .out with sys := sys }
        | none => some (w.setStage t .refused)
      | _, _ => none
  | .register t =>
    match w.stage t with
    | .refused =>
      some { w.setStage t .registered with
        waits := w.waits.apply (.register t ()) }
    | _ => none
  | .check t =>
    match w.stage t with
    | .registered =>
      some (w.setStage t (if w.sys.log.admissible then .retry else .parked))
    | _ => none
  | .poll t =>
    if w.waits.ready t = 0 then
      none
    else
      match w.stage t with
      | .parked =>
        some { w.setStage t .refused with
          waits := w.waits.apply (.poll t) }
      | .out => some { w with waits := w.waits.apply (.poll t) }
      | _ => none
  | .work a =>
    if a.IsWork then
      (w.sys.step a).map fun sys => { w with sys := sys }
    else
      none
  | .endOp t =>
    (w.sys.step (.endOp t)).map fun sys =>
      { w with
        sys := sys
        waits := if sys.log.committing then w.waits
          else w.waits.apply (.flush [()]) }
  | .release t =>
    (w.sys.step (.release t)).map fun sys =>
      { w with
        sys := sys
        waits := w.waits.apply (.announce t [()]) }
  | .wake t => some { w with waits := w.waits.apply (.wake t) }
  | .poke t => some { w with waits := w.waits.apply (.poke t) }

-- The Log

/- What an action of task `u` does to the tasks and to the counters that admission depends on. -/
inductive Effect (s s' : Sys) (u : Nat) : Act → Prop where
  | begin (op : Op) (hIdle : s.tasks u = .idle) (hAdm : s.log.admissible = true)
      (hLog : s'.log = { s.log with
        outstanding := s.log.outstanding + 1 })
      (hTasks : s'.tasks = update s.tasks u (.inOp op)) : Effect s s' u (.beginOp u)
  | write {b : UInt32} {data : Block} (op op' : Op) (hTask : s.tasks u = .inOp op)
      (hCount : s'.log.outstanding = s.log.outstanding)
      (hSame : s'.log.committing = s.log.committing) (hMore : s.log.lh.n ≤ s'.log.lh.n)
      (hTasks : s'.tasks = update s.tasks u (.inOp op')) : Effect s s' u (.logWrite u b data)
  | other {a : Act} (p : Phase) (hWork : a.IsWork = true) (hBusy : s.tasks u ≠ .idle)
      (hPhase : p ≠ .committed) (hCount : s'.log.outstanding = s.log.outstanding)
      (hSame : s'.log.committing = s.log.committing) (hBlocks : s'.log.lh = s.log.lh)
      (hTasks : s'.tasks = update s.tasks u p) : Effect s s' u a
  | last (op : Op) (hTask : s.tasks u = .inOp op)
      (hLog : s'.log = { s.log with
        outstanding := 0
        committing := true }) (hTasks : s'.tasks = update s.tasks u .ending) :
      Effect s s' u (.endOp u)
  | more (op : Op) (hTask : s.tasks u = .inOp op) (hMany : 1 < s.log.outstanding)
      (hLog : s'.log = { s.log with
        outstanding := s.log.outstanding - 1
        committing := false }) (hTasks : s'.tasks = update s.tasks u .idle) :
      Effect s s' u (.endOp u)
  | emptied (hBusy : s.tasks u ≠ .idle) (hCommitting : s'.log.committing = true)
      (hBlocks : s'.log.lh.n = 0) (hTasks : s'.tasks = update s.tasks u .committed) :
      Effect s s' u (.commitEnd u)
  | release (hTask : s.tasks u = .committed) (hLog : s'.log = { s.log with committing := false })
      (hTasks : s'.tasks = update s.tasks u .idle) : Effect s s' u (.release u)

variable {s s' : Sys} {a : Act}

theorem effect_of_step (hInv : Inv s) (hStep : s.step a = some s') : ∃ u, Effect s s' u a := by
  have hRec := hInv.recorded
  cases move_of_step hStep with
  | beginOp hTask hBegin =>
    have hEq := beginOp_eq_some hInv.few hRec.room hBegin
    have hAdm : s.log.admissible = true := by
      unfold Log.beginOp at hBegin
      grind
    exact ⟨_, .begin _ hTask hAdm hEq.2.2 rfl⟩
  | logWrite hTask hWrite =>
    rcases logWrite_eq_some hRec hWrite with ⟨hCount, hSame, _, _, hMore⟩
    exact ⟨_, .write _ _ hTask hCount hSame (by dsimp only; omega) rfl⟩
  | @store t op i data hTask =>
    exact ⟨t, .other (s.tasks t) rfl (by simp [hTask]) (by simp [hTask]) rfl rfl rfl
      (update_eq_self _ _).symm⟩
  | endOp hTask hEnd =>
    rw [endOp_eq (hInv.pos_of_inOp hTask) hInv.few (hInv.open_of_inOp hTask).quiet] at hEnd
    have hPos := hInv.pos_of_inOp hTask
    cases hEnd
    by_cases hLast : s.log.outstanding = 1
    · exact ⟨_, .last _ hTask (by simp [hLast]) (by simp [hLast, Sys.setTask])⟩
    · exact ⟨_, .more _ hTask (by omega) (by simp [hLast]) (by simp [hLast, Sys.setTask])⟩
  | snapshot hTask | commitIo hTask =>
    exact ⟨_, .other _ rfl (by simp [hTask]) (by simp) rfl rfl rfl rfl⟩
  | @commitEnd t log hTask =>
    have hClosed := hInv.closed_of (t := t) (by simp [hTask]) (by simp [hTask])
    have hClosing := hClosed.closing
    rw [hTask] at hClosing
    exact ⟨_, .emptied (by simp [hTask]) hClosed.committing hClosing.1.1 rfl⟩
  | release hTask => exact ⟨_, .release hTask rfl rfl⟩

/- Only its own `begin_op` makes an idle task busy. -/
theorem Effect.idle {t u : Nat} (hEffect : Effect s s' u a) (hIdle : s.tasks t = .idle)
    (hOther : a ≠ .beginOp t) : s'.tasks t = .idle := by
  have hSet : ∀ p, s'.tasks = update s.tasks u p → u ≠ t → s'.tasks t = .idle := by
    intro p hTasks hNe
    rw [hTasks, update_of_ne hNe.symm]
    exact hIdle
  cases hEffect with
  | begin op _ _ _ hTasks
  | write op op' hTask _ _ _ hTasks
  | last op hTask _ hTasks
  | more op hTask _ _ hTasks
  | release hTask _ hTasks
  | other p _ hBusy _ _ _ _ hTasks
  | emptied hBusy _ _ hTasks => exact hSet _ hTasks (by grind)

/- The test, when the counters are in range. -/
theorem admissible_iff {log : LogState} (hFew : log.outstanding ≤ 3) (hRoom : log.lh.n ≤ LOGSIZE) :
    log.admissible = true ↔ log.committing = false ∧ log.lh.n + (log.outstanding + 1) * MAXOPBLOCKS
        ≤ LOGSIZE := by
  unfold LogState.admissible
  simp only [LOGSIZE, MAXOPBLOCKS] at *
  rw [Nat.mod_eq_of_lt (by omega)]
  simp

/- Only the end of an operation and the end of a commit can open the log. -/
theorem Effect.admissible {u : Nat} (hInv : Inv s) (hInv' : Inv s') (hEffect : Effect s s' u a)
    (hEnd : ∀ t, a ≠ .endOp t) (hRelease : ∀ t, a ≠ .release t) (hAdm : s'.log.admissible = true) :
    s.log.admissible = true := by
  have hNow := (admissible_iff hInv'.few hInv'.recorded.room).mp hAdm
  refine (admissible_iff hInv.few hInv.recorded.room).mpr ?_
  simp only [LOGSIZE, MAXOPBLOCKS] at *
  cases hEffect with
  | begin op _ hBefore _ _ =>
    have hOld := (admissible_iff hInv.few hInv.recorded.room).mp hBefore
    simp only [LOGSIZE, MAXOPBLOCKS] at hOld
    exact hOld
  | write op op' _ hCount hSame hMore _ =>
    rw [hSame, hCount] at hNow
    exact ⟨hNow.1, by omega⟩
  | other p _ _ _ hCount hSame hBlocks _ =>
    rw [hSame, hCount, hBlocks] at hNow
    exact hNow
  | last | more => exact absurd rfl (hEnd u)
  | emptied _ hCommitting _ _ =>
    rw [hCommitting] at hNow
    cases hNow.1
  | release => exact absurd rfl (hRelease u)

/- Between operations, and once a commit has returned, no blocks are recorded. -/
structure Clean (s : Sys) : Prop where
  quiet : s.log.committing = false → s.log.outstanding = 0 → s.log.lh.n = 0
  committed : ∀ t, s.tasks t = .committed → s.log.lh.n = 0

theorem Effect.clean {u : Nat} (hInv : Inv s) (hEffect : Effect s s' u a) (hClean : Clean s) :
    Clean s' := by
  have hOld : ∀ {p t}, s'.tasks = update s.tasks u p →
      p ≠ .committed → s'.tasks t = .committed → s.tasks t = .committed := by
    intro p t hTasks hPhase hTask
    rw [hTasks, update_apply] at hTask
    grind
  have hNobody : ∀ {op t}, s.tasks u = .inOp op → s.tasks t ≠ .committed := by
    intro op t hTask hCommitted
    grind [(hInv.open_of_inOp hTask).tasks t]
  cases hEffect with
  | begin op _ _ hLog hTasks =>
    refine ⟨by simp [hLog], fun t ht => ?_⟩
    rw [hLog]
    exact hClean.committed t (hOld hTasks (by simp) ht)
  | write op op' hTask hCount _ _ hTasks =>
    have hPos := hInv.pos_of_inOp hTask
    exact ⟨fun _ hZero => by omega,
      fun t ht => absurd (hOld hTasks (by simp) ht) (hNobody hTask)⟩
  | other p _ _ hPhase hCount hSame hBlocks hTasks =>
    constructor
    · rw [hSame, hCount, hBlocks]
      exact hClean.quiet
    · intro t ht
      rw [hBlocks]
      exact hClean.committed t (hOld hTasks hPhase ht)
  | last op hTask hLog hTasks =>
    exact ⟨by simp [hLog], fun t ht => absurd (hOld hTasks (by simp) ht) (hNobody hTask)⟩
  | more op hTask hMany hLog hTasks =>
    exact ⟨fun _ hZero => by grind,
      fun t ht => absurd (hOld hTasks (by simp) ht) (hNobody hTask)⟩
  | emptied _ _ hBlocks _ => exact ⟨fun _ _ => hBlocks, fun _ _ => hBlocks⟩
  | release hTask hLog _ =>
    have hZero := hClean.committed u hTask
    exact ⟨fun _ _ => by rw [hLog]; exact hZero, fun _ _ => by rw [hLog]; exact hZero⟩

-- The Invariant

structure WaitInv (w : Waiting) : Prop where
  inv : Inv w.sys
  clean : Clean w.sys
  idle : ∀ t, w.stage t ≠ .out → w.sys.tasks t = .idle
  calls : ∀ t ∈ w.waits.calls, w.sys.tasks t = .idle
  listens : ∀ t, w.stage t = .registered ∨ w.stage t = .parked → w.waits.Listens t ()
  due : ∀ t, w.stage t = .parked → w.sys.log.admissible = true → w.waits.Due t

variable {w w' : Waiting} {t : Nat}

/- An operation on the lists that takes nothing from a waiting task. -/
theorem WaitInv.apply {op : WaitLists.Op Unit Nat} (hInv : WaitInv w)
    (hOp : ∀ t, w.stage t ≠ .out → op.Spares w.waits t)
    (hCalls : ∀ t ∈ (w.waits.apply op).calls, t ∈ w.waits.calls) :
    WaitInv { w with waits := w.waits.apply op } := by
  refine ⟨hInv.inv, hInv.clean, hInv.idle, fun t ht => hInv.calls t (hCalls t ht), ?_, ?_⟩
  · intro t hStage
    refine (hInv.listens t hStage).apply (hOp t ?_)
    rcases hStage with hStage | hStage <;> simp [show w.stage t = _ from hStage]
  · intro t hStage hAdm
    exact (hInv.due t hStage hAdm).apply (hOp t (by simp [show w.stage t = _ from hStage]))

theorem WaitInv.setStage {stage : Stage} (hInv : WaitInv w)
    (hIdle : stage ≠ .out → w.sys.tasks t = .idle)
    (hListens : stage = .registered ∨ stage = .parked → w.waits.Listens t ())
    (hDue : stage = .parked → w.sys.log.admissible = true → w.waits.Due t) :
    WaitInv (w.setStage t stage) where
  inv := hInv.inv
  clean := hInv.clean
  idle := (forall_update_iff w.stage fun u p => p ≠ .out → w.sys.tasks u = .idle).mpr
    ⟨hIdle, fun u _ => hInv.idle u⟩
  calls := hInv.calls
  listens := (forall_update_iff w.stage fun u p => p = .registered ∨ p = .parked →
    w.waits.Listens u ()).mpr ⟨hListens, fun u _ => hInv.listens u⟩
  due := (forall_update_iff w.stage fun u p => p = .parked → w.sys.log.admissible = true →
    w.waits.Due u).mpr ⟨hDue, fun u _ => hInv.due u⟩

/-
  A step of the log that admits nobody from the waiting tasks
  leaves their wakes as they are, if it does not open the log.
-/
theorem WaitInv.work {sys : Sys} {a : Act} (hInv : WaitInv w) (hStep : w.sys.step a = some sys)
    (hBegin : ∀ t, w.stage t ≠ .out ∨ t ∈ w.waits.calls → a ≠ .beginOp t)
    (hEnd : ∀ t, a ≠ .endOp t) (hRelease : ∀ t, a ≠ .release t) :
    WaitInv { w with sys := sys } := by
  rcases effect_of_step hInv.inv hStep with ⟨u, hEffect⟩
  have hInv' := inv_step hInv.inv hStep
  refine ⟨hInv', hEffect.clean hInv.inv hInv.clean, ?_, ?_, hInv.listens, ?_⟩
  · intro t hStage
    exact hEffect.idle (hInv.idle t hStage) (hBegin t (.inl hStage))
  · intro t hCall
    exact hEffect.idle (hInv.calls t hCall) (hBegin t (.inr hCall))
  · intro t hStage hAdm
    exact hInv.due t hStage (hEffect.admissible hInv.inv hInv' hEnd hRelease hAdm)

/- A step that may open the log, with the wakes it causes. -/
theorem WaitInv.opening {sys : Sys} {a : Act} {waits : WaitLists Unit Nat} (hInv : WaitInv w)
    (hStep : w.sys.step a = some sys) (hBegin : ∀ t, a ≠ .beginOp t)
    (hCalls : ∀ t ∈ waits.calls, t ∈ w.waits.calls ∨ sys.tasks t = .idle)
    (hListens : ∀ t, w.waits.Listens t () → waits.Listens t ())
    (hDue : sys.log.admissible = true → ∀ t, w.waits.Listens t () → waits.Due t) :
    WaitInv { w with sys := sys, waits := waits } := by
  rcases effect_of_step hInv.inv hStep with ⟨u, hEffect⟩
  refine ⟨inv_step hInv.inv hStep, hEffect.clean hInv.inv hInv.clean, ?_, ?_, ?_, ?_⟩
  · intro t hStage
    exact hEffect.idle (hInv.idle t hStage) (hBegin t)
  · intro t hCall
    rcases hCalls t hCall with hOld | hNew
    · exact hEffect.idle (hInv.calls t hOld) (hBegin t)
    · exact hNew
  · intro t hStage
    exact hListens t (hInv.listens t hStage)
  · intro t hStage hAdm
    exact hDue hAdm t (hInv.listens t (.inr hStage))

theorem WaitInv.tryBegin (hInv : WaitInv w) (hStep : w.step (.tryBegin t) = some w') :
    WaitInv w' := by
  simp only [Waiting.step] at hStep
  split at hStep
  · cases hStep
  rename_i hFree
  split at hStep
  pick_goal 3
  · cases hStep
  all_goals
    rename_i hIdle hStage
    split at hStep <;> cases hStep
    · rename_i sys hBegin
      have hOut : WaitInv (w.setStage t .out) := hInv.setStage (by simp) (by simp) (by simp)
      refine hOut.work hBegin ?_ (by simp) (by simp)
      rintro u (hu | hu) hSame <;> cases hSame
      · exact hu (update_self ..)
      · exact hFree hu
    · exact hInv.setStage (fun _ => hIdle) (by simp) (by simp)

theorem WaitInv.poll (hInv : WaitInv w) (hStep : w.step (.poll t) = some w') : WaitInv w' := by
  simp only [Waiting.step] at hStep
  split at hStep
  · cases hStep
  split at hStep
  · rename_i hStage
    cases hStep
    have hIdle := hInv.idle t (by rw [hStage]; simp)
    -- off the list of parked tasks first
    have hOut : WaitInv (w.setStage t .out) := hInv.setStage (by simp) (by simp) (by simp)
    have hPolled : WaitInv { w.setStage t .out with waits := w.waits.apply (.poll t) } := by
      refine hOut.apply ?_ fun _ h => h
      rintro u hu rfl
      exact hu (update_self ..)
    have hRefused : WaitInv (Waiting.setStage _ t .refused) :=
      hPolled.setStage (fun _ => hIdle) (by simp) (by simp)
    simpa [Waiting.setStage] using hRefused
  · rename_i hStage
    cases hStep
    refine hInv.apply ?_ fun _ h => h
    rintro u hu rfl
    exact hu hStage
  · cases hStep

/- The last operation has ended, and its blocks are committed. -/
theorem WaitInv.release (hInv : WaitInv w) (hStep : w.step (.release t) = some w') :
    WaitInv w' := by
  rcases Option.map_eq_some_iff.mp hStep with ⟨sys, hSys, rfl⟩
  have hIdle : sys.tasks t = .idle ∧ t ∉ w.waits.calls := by
    cases move_of_step hSys with
    | release hTask =>
      refine ⟨update_self .., fun hCall => ?_⟩
      rw [hInv.calls t hCall] at hTask
      cases hTask
  refine hInv.opening hSys (by simp) ?_ (fun _ h => h.apply hIdle.2) fun _ _ hListens =>
    hListens.announce hIdle.2 (List.mem_singleton_self ())
  intro u hu
  rcases (AList.mem_insert _).mp hu with rfl | hOld
  · exact .inr hIdle.1
  · exact .inl hOld

theorem WaitInv.step {a : WaitAct} (hInv : WaitInv w) (hStep : w.step a = some w') :
    WaitInv w' := by
  cases a with
  | tryBegin t => exact hInv.tryBegin hStep
  | register t =>
    simp only [Waiting.step] at hStep
    split at hStep <;> cases hStep
    rename_i hStage
    have hIdle := hInv.idle t (by rw [hStage]; simp)
    have hApply : WaitInv { w with waits := w.waits.apply (.register t ()) } :=
      hInv.apply (fun _ _ => trivial) fun _ h => h
    exact hApply.setStage (fun _ => hIdle) (fun _ => WaitLists.listens_register) (by simp)
  | check t =>
    simp only [Waiting.step] at hStep
    split at hStep <;> cases hStep
    rename_i hStage
    have hIdle := hInv.idle t (by rw [hStage]; simp)
    have hListens := hInv.listens t (.inl hStage)
    by_cases hAdm : w.sys.log.admissible = true
    · rw [if_pos hAdm]
      exact hInv.setStage (fun _ => hIdle) (by simp) (by simp)
    · rw [if_neg hAdm]
      exact hInv.setStage (fun _ => hIdle) (fun _ => hListens) (fun _ hNow => absurd hNow hAdm)
  | poll t => exact hInv.poll hStep
  | work a =>
    rcases Option.ite_none_right_eq_some.mp hStep with ⟨hWork, hStep⟩
    rcases Option.map_eq_some_iff.mp hStep with ⟨sys, hSys, rfl⟩
    exact hInv.work hSys (by grind [Act.IsWork]) (by grind [Act.IsWork]) (by grind [Act.IsWork])
  | endOp t =>
    rcases Option.map_eq_some_iff.mp hStep with ⟨sys, hSys, rfl⟩
    by_cases hCommit : sys.log.committing = true
    · rw [if_pos hCommit]
      refine hInv.opening hSys (by simp) (fun _ h => .inl h) (fun _ h => h) ?_
      intro hAdm
      unfold LogState.admissible at hAdm
      rw [hCommit] at hAdm
      cases hAdm
    · rw [if_neg hCommit]
      exact hInv.opening hSys (by simp) (fun _ h => .inl h)
        (fun _ hListens => .inl (hListens.flush (List.mem_singleton_self _)))
        (fun _ _ hListens => hListens.flush (List.mem_singleton_self _))
  | release t => exact hInv.release hStep
  | wake t =>
    cases hStep
    exact hInv.apply (fun _ _ => trivial) fun _ h => WaitLists.mem_calls_wake h
  | poke t =>
    cases hStep
    exact hInv.apply (fun _ _ => trivial) fun _ h => h

-- No Wakeup Is Lost

/- What any interleaving leads to. -/
def Waiting.Reached (w : Waiting) : Prop :=
  ∃ start size disk,
    Machine.Reach Waiting.step (fun _ _ => True) (Waiting.boot start size disk) w

theorem WaitInv.of_reached {w : Waiting} (hReached : w.Reached) : WaitInv w := by
  rcases hReached with ⟨start, size, disk, hReach⟩
  refine hReach.invariant (fun _ _ _ hInv _ hStep => hInv.step hStep) ?_
  exact ⟨inv_boot start size disk, ⟨fun _ _ => rfl, nofun⟩, fun t hStage => absurd rfl hStage,
    fun t hCall => absurd hCall (AList.notMem_empty t), nofun, nofun⟩

theorem WaitInv.admissible_of_quiet (hInv : WaitInv w) (hQuiet : w.sys.log.committing = false)
    (hEnded : w.sys.log.outstanding = 0) : w.sys.log.admissible = true := by
  refine (admissible_iff hInv.inv.few hInv.inv.recorded.room).mpr ⟨hQuiet, ?_⟩
  rw [hEnded, hInv.clean.quiet hQuiet hEnded]
  decide

/- Steps of the call of `wake_all` that task `u` makes. -/
def Wakes (u : Nat) (_ : Waiting) (a : WaitAct) : Prop := a = .wake u

theorem arrives_of_due (hDue : w.waits.Due t) :
    ∃ u w', Machine.Reach Waiting.step (Wakes u) w w' ∧ 0 < w'.waits.ready t := by
  rcases hDue.arrives with ⟨u, hArrives⟩
  exact ⟨u, hArrives.reach (v := Waiting.waits) (I := fun _ => True)
    (fun _ _ _ => ⟨_, rfl, rfl, trivial⟩) trivial⟩

/-
  A parked task that could be admitted, or that nobody would
  admit any more, is queued, or a task that has released the
  log after a commit is about to queue it: it has the parked
  task in its hands, or it has still to take the list.  Such a
  wake arrives by steps of that task alone.
-/
structure LogWakes (w : Waiting) : Prop where
  admissible : ∀ t, w.stage t = .parked → w.sys.log.admissible = true → w.waits.Due t
  ended : w.sys.log.outstanding = 0 → w.sys.log.committing = false →
    ∀ t, w.stage t = .parked → w.waits.Due t
  released : ∀ u ∈ w.waits.calls, w.sys.tasks u = .idle
  arrives : ∀ t, w.waits.Due t →
    ∃ u w', Machine.Reach Waiting.step (Wakes u) w w' ∧ 0 < w'.waits.ready t

theorem logWakes_of_reached {w : Waiting} (hReached : w.Reached) : LogWakes w := by
  have hInv := WaitInv.of_reached hReached
  refine ⟨hInv.due, ?_, hInv.calls, fun _ hDue => arrives_of_due hDue⟩
  intro hEnded hQuiet t hStage
  exact hInv.due t hStage (hInv.admissible_of_quiet hQuiet hEnded)

/-
  Task 1 parks while task 0 commits; task 0 has then released
  the log and not yet called `wake_all`.
-/
def parkDuringCommit : List WaitAct :=
  [.tryBegin 0, .endOp 0, .tryBegin 1, .register 1, .check 1,
    .work (.snapshot 0), .work (.commitEnd 0), .release 0]

/- The task is queued, or a call of `wake_all` has it in its hands. -/
def Waiting.issued (w : Waiting) (t : Nat) : Bool :=
  w.waits.ready t != 0 || w.waits.calls.entries.any fun c => t ∈ c.2.2

theorem run_parkDuringCommit :
    (Machine.run Waiting.step (fun _ _ => True) (Waiting.boot 2 31 fun _ => Bytes.zero)
      parkDuringCommit).any (fun w => decide (w.stage 1 = .parked ∧
        w.sys.log.admissible = true ∧ w.issued 1 = false)) = true := by
  decide +kernel

theorem logWakes_of_reached_parkDuringCommit : ∃ w : Waiting, w.stage 1 = .parked ∧
    w.sys.log.admissible = true ∧ LogWakes w := by
  rcases Machine.exists_reach run_parkDuringCommit with ⟨w, hReach, hCheck⟩
  rcases of_decide_eq_true hCheck with ⟨hStage, hAdm, _⟩
  exact ⟨w, hStage, hAdm, logWakes_of_reached ⟨2, 31, _, hReach⟩⟩

/- There is a moment at which its wake is still to come. -/
theorem wake_after_release : ∃ w : Waiting, w.Reached ∧ w.stage 1 = .parked ∧
    w.sys.log.admissible = true ∧ w.issued 1 = false := by
  rcases Machine.exists_reach run_parkDuringCommit with ⟨w, hReach, hCheck⟩
  exact ⟨w, ⟨2, 31, _, hReach⟩, of_decide_eq_true hCheck⟩

-- The Log Opens Again

/- Operations end and are committed; nobody begins another one or logs a block. -/
def Finishing (_ : Waiting) : WaitAct → Prop
  | .work (.snapshot _) | .work (.commitIo _) | .work (.commitEnd _) | .endOp _ | .release _ => True
  | _ => False

/- The tasks in the log can come to where it admits another operation. -/
def Opens (w : Waiting) : Prop :=
  ∃ w', Machine.Reach Waiting.step Finishing w w' ∧
  w'.stage = w.stage ∧ w'.sys.log.admissible = true

theorem Opens.of_step {a : WaitAct} (hInv : WaitInv w) (hOk : Finishing w a)
    (hStep : w.step a = some w') (hStage : w'.stage = w.stage) (hOpens : WaitInv w' → Opens w') :
    Opens w := by
  rcases hOpens (hInv.step hStep) with ⟨m, hReach, hSame, hAdm⟩
  exact ⟨m, .trans (.next .refl hOk hStep) hReach, hSame.trans hStage, hAdm⟩

theorem opens_of_quiet (hInv : WaitInv w) (hQuiet : w.sys.log.committing = false)
    (hEnded : w.sys.log.outstanding = 0) : Opens w :=
  ⟨w, .refl, rfl, hInv.admissible_of_quiet hQuiet hEnded⟩

theorem opens_of_committed (hInv : WaitInv w) (hTask : w.sys.tasks t = .committed) : Opens w := by
  have hClosed := hInv.inv.closed_of (t := t) (by simp [hTask]) (by simp [hTask])
  apply Opens.of_step (a := .release t) hInv trivial
  · simp only [Waiting.step, Sys.step, hTask]
    rfl
  · rfl
  · exact fun hInv' => opens_of_quiet hInv' rfl hClosed.outstanding

/- Each access leaves less of the commit to be done. -/
theorem opens_of_commit {rest : DiskProg Block LogState} (hInv : WaitInv w)
    (hTask : w.sys.tasks t = .commit rest) : Opens w := by
  induction rest generalizing w with
  | ret log =>
    apply Opens.of_step (a := .work (.commitEnd t)) hInv trivial
    · simp only [Waiting.step, Sys.step, hTask]
      rfl
    · rfl
    · exact fun hInv' => opens_of_committed hInv' (update_self ..)
  | op c k ih =>
    cases c with
    | read b | write b v =>
      apply Opens.of_step (a := .work (.commitIo t)) hInv trivial
      · simp only [Waiting.step, Sys.step, hTask]
        rfl
      · rfl
      · exact fun hInv' => ih _ hInv' (update_self ..)

theorem opens_of_closed (hInv : WaitInv w) (hClosed : w.sys.Closed t) : Opens w := by
  have hClosing := hClosed.closing
  cases hTask : w.sys.tasks t with
  | ending =>
    apply Opens.of_step (a := .work (.snapshot t)) hInv trivial
    · simp only [Waiting.step, Sys.step, hTask]
      rfl
    · rfl
    · exact fun hInv' => opens_of_commit hInv' (update_self ..)
  | commit rest => exact opens_of_commit hInv hTask
  | committed => exact opens_of_committed hInv hTask
  | idle | inOp op =>
    rw [hTask] at hClosing
    exact hClosing.elim

/- By induction on the number of operations that have not ended. -/
theorem WaitInv.opens (hInv : WaitInv w) : Opens w := by
  induction hCount : w.sys.log.outstanding generalizing w with
  | zero =>
    rcases hInv.inv.mode with hOpen | ⟨t, hClosed⟩
    · exact opens_of_quiet hInv hOpen.quiet hCount
    · exact opens_of_closed hInv hClosed
  | succ n ih =>
    rcases hInv.inv.mode with hOpen | ⟨t, hClosed⟩
    · rcases hOpen.count.exists_pos (by omega) with ⟨t, ht⟩
      rcases hOpen.tasks t with hIdle | ⟨op, hTask, _⟩
      · simp [hIdle, Phase.opens] at ht
      · apply Opens.of_step (a := .endOp t) hInv trivial
        · simp only [Waiting.step, Sys.step, hTask]
          rw [endOp_eq (by omega) hInv.inv.few hOpen.quiet]
          rfl
        · rfl
        · refine fun hInv' => ih hInv' ?_
          change w.sys.log.outstanding - 1 = n
          omega
    · exact opens_of_closed hInv hClosed

/-
  No task waits for a log that stays shut: those that are in
  it can finish, and then everybody who was parked is queued
  by a call of `wake_all`, with the log still open.
-/
theorem opens_of_reached (hReached : w.Reached) : ∃ w',
    Machine.Reach Waiting.step Finishing w w' ∧ w'.sys.log.admissible = true ∧
      ∀ t, w.stage t = .parked → ∃ u w'', Machine.Reach Waiting.step (Wakes u) w' w'' ∧
        w''.sys = w'.sys ∧ 0 < w''.waits.ready t := by
  have hInv := WaitInv.of_reached hReached
  rcases hInv.opens with ⟨w', hReach, hStage, hAdm⟩
  have hInv' := hReach.invariant (fun _ _ _ hInv _ hStep => hInv.step hStep) hInv
  refine ⟨w', hReach, hAdm, ?_⟩
  intro t hParked
  rcases arrives_of_due (hInv'.due t (hStage ▸ hParked) hAdm) with ⟨u, w'', hWakes, hReady⟩
  refine ⟨u, w'', hWakes, ?_, hReady⟩
  refine hWakes.invariant (I := fun m => m.sys = w'.sys) ?_ rfl
  rintro m _ m' hSame rfl hStep
  cases hStep
  exact hSame

/- Task 1 is parked while task 0 is between its last operation and the commit. -/
theorem opens_of_reached_park : ∃ w w' w'' : Waiting, w.stage 1 = .parked ∧
    w.sys.log.committing = true ∧ Machine.Reach Waiting.step Finishing w w' ∧
      w'.sys.log.admissible = true ∧ w''.sys = w'.sys ∧ 0 < w''.waits.ready 1 := by
  have hRun : (Machine.run Waiting.step (fun _ _ => True) (Waiting.boot 2 31 fun _ => Bytes.zero)
      (parkDuringCommit.take 5)).any (fun w => w.stage 1 == .parked && w.sys.log.committing) =
        true := by
    decide +kernel
  rcases Machine.exists_reach hRun with ⟨w, hReach, hCheck⟩
  rw [Bool.and_eq_true, beq_iff_eq] at hCheck
  rcases opens_of_reached ⟨2, 31, _, hReach⟩ with ⟨w', hFinish, hAdm, hAll⟩
  rcases hAll 1 hCheck.1 with ⟨_, w'', _, hSame, hReady⟩
  exact ⟨w, w', w'', hCheck.1, hCheck.2, hFinish, hAdm, hSame, hReady⟩

end Log

end PlayXv6
