import PlayXv6.Exec.Executor
import PlayXv6.Lib.Assoc

/-
  Slots and tasks are in one place at a time, and no wake of
  a live task is lost.

  Main declarations:
    * `Inv`
    * `Inv.step`, `executor_integrity`, `served_within`
-/

namespace PlayXv6

variable {p : Nat × Nat} {slot task tid : Nat}

namespace Executor

def Phase.slots : Phase → List Nat
  | .polling slot _ => [slot]
  | .finished slot => [slot]
  | _ => []

def Phase.names : Phase → List Nat
  | .polling _ task => [task]
  | _ => []

namespace Exec

def stored (s : Exec) : List Nat := s.tasks.entries.map fun e => e.2

/- Where the slots that were given out are now. -/
def slots (s : Exec) : List Nat :=
  s.freeSlots ++ (s.arriving.map Prod.fst ++
    (s.tasks.keys ++ s.phase.slots))

/- Where the tasks that were inserted are now. -/
def names (s : Exec) : List Nat :=
  s.arriving.map Prod.snd ++
    (s.stored ++ (s.phase.names ++ s.done))

end Exec

structure Inv (home : Nat) (s : Exec) : Prop where
  slots : s.slots.Perm (List.range s.nextSlot)
  names : s.names.Perm (List.range s.born)
  bound : s.nextSlot ≤ SLOT_MASK + 1
  queued : ∀ p ∈ s.queueing, p.1 ≤ SLOT_MASK
  live : ∀ p ∈ s.owed, s.tasks.lookup p.1 = some p.2 ∨ s.phase = .polling p.1 p.2
  woken : ∀ p ∈ s.owed, makeTid home p.1 ∈ s.ready ∨ s.phase = .popped (makeTid home p.1)

variable {home : Nat} {s : Exec}

theorem Inv.nodup (hInv : Inv home s) :
    s.slots.Nodup := hInv.slots.nodup_iff.mpr List.nodup_range

theorem Inv.slot_le (hInv : Inv home s) (hSlot : slot ∈ s.slots) : slot ≤ SLOT_MASK := by
  have hLt := List.mem_range.mp (hInv.slots.subset hSlot)
  have hBound := hInv.bound
  omega

theorem mem_keys_of_lookup {tasks : AList fun _ : Nat => Nat}
    (hLookup : tasks.lookup slot = some task) : slot ∈ tasks.keys := by
  have hSome : (tasks.lookup slot).isSome := by
    rw [hLookup]
    rfl
  exact AList.lookup_isSome.mp hSome

theorem Inv.owed_slot (hInv : Inv home s) (hp : p ∈ s.owed) : p.1 ≤ SLOT_MASK := by
  refine hInv.slot_le ?_
  unfold Exec.slots
  rcases hInv.live p hp with hStored | hPolling
  · have hKey := mem_keys_of_lookup hStored
    simp [hKey]
  · rw [hPolling]
    simp [Phase.slots]

/- What is owed while nothing is polled, and while nothing is popped. -/
theorem Inv.stored (hInv : Inv home s) (hPhase : s.phase.names = []) (hp : p ∈ s.owed) :
    s.tasks.lookup p.1 = some p.2 :=
  (hInv.live p hp).resolve_right fun hPolling => by simp [hPolling, Phase.names] at hPhase

theorem Inv.ready (hInv : Inv home s) (hPhase : ∀ tid, s.phase ≠ .popped tid) (hp : p ∈ s.owed) :
    makeTid home p.1 ∈ s.ready := (hInv.woken p hp).resolve_right (hPhase _)

/- Where everything is while `run` is in the given phase. -/
theorem Inv.places {ph : Phase} (hInv : Inv home s) (hPhase : s.phase = ph) :
    (s.freeSlots ++ (s.arriving.map Prod.fst ++ (s.tasks.keys ++ ph.slots))).Perm
        (List.range s.nextSlot) ∧
      (s.arriving.map Prod.snd ++ (s.stored ++ (ph.names ++ s.done))).Perm (List.range s.born) :=
  hPhase ▸ ⟨hInv.slots, hInv.names⟩

theorem perm_insert {tasks : AList fun _ : Nat => Nat} (task : Nat) (hKey : slot ∉ tasks.keys) :
    (tasks.insert slot task).keys = slot :: tasks.keys ∧
      (tasks.insert slot task).entries.map (fun e => e.2) =
        task :: tasks.entries.map fun e => e.2 := by
  have hEntries := AList.entries_insert_of_notMem (b := task) hKey
  exact ⟨congrArg (List.map Sigma.fst) hEntries, congrArg (List.map fun e => e.2) hEntries⟩

theorem lookup_insert_of_stored {tasks : AList fun _ : Nat => Nat} (hKey : slot ∉ tasks.keys)
    (hStored : tasks.lookup p.1 = some p.2) : (tasks.insert slot task).lookup p.1 = some p.2 := by
  rw [AList.lookup_insert_ne]
  · exact hStored
  · intro hEq
    exact hKey (hEq ▸ mem_keys_of_lookup hStored)

theorem perm_erase {tasks : AList fun _ : Nat => Nat}
    (hLookup : tasks.lookup slot = some task) : tasks.keys.Perm (slot :: (tasks.erase slot).keys) ∧
      (tasks.entries.map fun e => e.2).Perm
        (task :: (tasks.erase slot).entries.map fun e => e.2) := by
  have hPerm := AList.perm_of_lookup hLookup
  exact ⟨hPerm.map Sigma.fst, hPerm.map fun e => e.2⟩

-- Actions

variable {s' : Exec}

theorem Inv.arriving_apart (hInv : Inv home s) (hp : p ∈ s.arriving) :
    p.1 ∉ s.tasks.keys ∧ p.1 ∉ s.phase.slots := by
  have hNodup := hInv.nodup
  unfold Exec.slots at hNodup
  have hRest := (List.nodup_append.mp hNodup).2.1
  have hApart := (List.nodup_append.mp hRest).2.2 p.1 (List.mem_map_of_mem hp)
  constructor
  · intro hKey
    exact hApart p.1 (List.mem_append_left _ hKey) rfl
  · intro hSlot
    exact hApart p.1 (List.mem_append_right _ hSlot) rfl

/- Nor is the slot that `run` is busy with. -/
theorem Inv.phase_apart (hInv : Inv home s) (hSlot : slot ∈ s.phase.slots) :
    slot ∉ s.tasks.keys := by
  have hNodup := hInv.nodup
  unfold Exec.slots at hNodup
  have hRest := (List.nodup_append.mp hNodup).2.1
  have hLast := (List.nodup_append.mp hRest).2.1
  intro hKey
  exact (List.nodup_append.mp hLast).2.2 slot hKey slot hSlot rfl

theorem Inv.takeSlot (hInv : Inv home s) (hStep : Executor.step home s .takeSlot = some s') :
    Inv home s' := by
  dsimp only [Executor.step] at hStep
  split at hStep <;> cases hStep
  rename_i hMask
  have hSlots := hInv.slots
  unfold Exec.slots at hSlots
  have hNames : (s.born :: s.names).Perm (List.range (s.born + 1)) := by
    rw [List.range_succ]
    exact (hInv.names.cons s.born).trans (List.perm_append_singleton _ _).symm
  cases hFree : s.freeSlots with
  | nil =>
    have hTaken : s.takeSlot = (s.nextSlot, { s with nextSlot := s.nextSlot + 1 }) := by
      unfold Exec.takeSlot
      rw [hFree]
    rw [hTaken] at hMask ⊢
    dsimp only at hMask ⊢
    refine ⟨?_, hNames, by dsimp only; omega, hInv.queued, hInv.live, hInv.woken⟩
    change (s.freeSlots ++ ((s.nextSlot :: _) ++ _)).Perm (List.range (s.nextSlot + 1))
    rw [hFree] at hSlots ⊢
    rw [List.range_succ]
    exact (hSlots.cons s.nextSlot).trans (List.perm_append_singleton _ _).symm
  | cons slot rest =>
    have hTaken : s.takeSlot = (slot, { s with freeSlots := rest }) := by
      unfold Exec.takeSlot
      rw [hFree]
    rw [hTaken]
    refine { hInv with slots := ?_, names := hNames }
    rw [hFree] at hSlots
    exact List.perm_middle.trans hSlots

theorem Inv.store (hInv : Inv home s)
    (hStep : Executor.step home s (.store p) = some s') : Inv home s' := by
  dsimp only [Executor.step] at hStep
  split at hStep <;> cases hStep
  rename_i hp
  rcases hInv.arriving_apart hp with ⟨hKey, hPhase⟩
  have hErase := List.perm_cons_erase hp
  have hInsert := perm_insert p.2 hKey
  refine ⟨?_, ?_, hInv.bound, ?_, ?_, hInv.woken⟩
  · refine List.Perm.trans (List.Perm.append_left _ ?_) hInv.slots
    dsimp only
    rw [hInsert.1]
    refine List.perm_middle.trans ?_
    exact (hErase.symm.map Prod.fst).append_right _
  · refine List.Perm.trans ?_ hInv.names
    unfold Exec.names Exec.stored
    dsimp only
    rw [hInsert.2]
    refine List.perm_middle.trans ?_
    exact (hErase.symm.map Prod.snd).append_right _
  · intro q hq
    rcases List.mem_cons.mp hq with rfl | hq
    · refine hInv.slot_le ?_
      unfold Exec.slots
      exact List.mem_append_right _ (List.mem_append_left _ (List.mem_map_of_mem hp))
    · exact hInv.queued q hq
  · intro q hq
    exact (hInv.live q hq).imp_left (lookup_insert_of_stored hKey)

theorem mem_holder : task ∈ s.holder slot ↔ s.tasks.lookup slot = some task ∨
        s.phase = .polling slot task := by
  unfold Exec.holder
  rw [List.mem_append, Option.mem_toList]
  refine or_congr_right ?_
  cases s.phase with
  | polling slot' task' => grind
  | _ => simp

/- A tid in the queue is a wake for who holds its slot. -/
theorem Inv.notify (hInv : Inv home s) (hTid : makeTid home (tidSlot tid) = tid) :
    Inv home (s.notify tid) := by
  refine { hInv with live := ?_, woken := ?_ }
  · intro q hq
    rcases List.mem_append.mp hq with hOld | hNew
    · exact hInv.live q hOld
    · rcases List.mem_map.mp hNew with ⟨task, hTask, rfl⟩
      exact mem_holder.mp hTask
  · intro q hq
    rcases List.mem_append.mp hq with hOld | hNew
    · rcases hInv.woken q hOld with hReady | hPopped
      · exact .inl (List.mem_append_left _ hReady)
      · exact .inr hPopped
    · rcases List.mem_map.mp hNew with ⟨task, hTask, rfl⟩
      left
      dsimp only
      rw [hTid]
      exact List.mem_append_right _ (List.mem_singleton_self _)

theorem Inv.pop (hInv : Inv home s) (hStep : Executor.step home s .pop = some s') :
    Inv home s' := by
  dsimp only [Executor.step] at hStep
  split at hStep <;> cases hStep
  rename_i tid rest hPhase hReady
  rcases hInv.places hPhase with ⟨hSlots, hNames⟩
  refine ⟨hSlots, hNames, hInv.bound, hInv.queued, ?_, ?_⟩
  · intro q hq
    exact .inl (hInv.stored (by rw [hPhase]; rfl) hq)
  · intro q hq
    have hMem := hInv.ready (by simp [hPhase]) hq
    rw [hReady] at hMem
    rcases List.mem_cons.mp hMem with hEq | hMem
    · exact .inr (congrArg Phase.popped hEq.symm)
    · exact .inl hMem

theorem Inv.pending (hInv : Inv home s) (hStep : Executor.step home s .pending = some s') :
    Inv home s' := by
  dsimp only [Executor.step] at hStep
  split at hStep <;> cases hStep
  rename_i slot task hPhase
  have hKey : slot ∉ s.tasks.keys := by
    refine hInv.phase_apart ?_
    rw [hPhase]
    exact List.mem_singleton_self slot
  have hInsert := perm_insert task hKey
  rcases hInv.places hPhase with ⟨hSlots, hNames⟩
  refine ⟨?_, ?_, hInv.bound, hInv.queued, ?_, ?_⟩
  · refine List.Perm.trans ?_ hSlots
    refine List.Perm.append_left _ (List.Perm.append_left _ ?_)
    dsimp only
    rw [hInsert.1]
    exact (List.append_nil _).symm ▸ (List.perm_append_singleton slot _).symm
  · refine List.Perm.trans ?_ hNames
    refine List.Perm.append_left _ ?_
    unfold Exec.stored
    dsimp only
    rw [hInsert.2]
    exact List.perm_middle.symm
  · intro q hq
    left
    rcases hInv.live q hq with hStored | hPolling
    · exact lookup_insert_of_stored hKey hStored
    · rw [hPhase] at hPolling
      cases hPolling
      exact AList.lookup_insert _
  · intro q hq
    exact .inl (hInv.ready (by simp [hPhase]) hq)

theorem Inv.complete (hInv : Inv home s) (hStep : Executor.step home s .complete = some s') :
    Inv home s' := by
  dsimp only [Executor.step] at hStep
  split at hStep <;> cases hStep
  rename_i slot task hPhase
  rcases hInv.places hPhase with ⟨hSlots, hNames⟩
  refine ⟨hSlots, hNames, hInv.bound, hInv.queued, ?_, ?_⟩
  · intro q hq
    rcases List.mem_filter.mp hq with ⟨hq, hNe⟩
    rcases hInv.live q hq with hStored | hPolling
    · exact .inl hStored
    · rw [hPhase] at hPolling
      cases hPolling
      simp at hNe
  · intro q hq
    exact .inl (hInv.ready (by simp [hPhase]) (List.mem_filter.mp hq).1)

theorem Inv.recycle (hInv : Inv home s) (hStep : Executor.step home s .recycle = some s') :
    Inv home s' := by
  dsimp only [Executor.step] at hStep
  split at hStep <;> cases hStep
  rename_i slot hPhase
  rcases hInv.places hPhase with ⟨hSlots, hNames⟩
  refine ⟨?_, hNames, hInv.bound, hInv.queued, ?_, ?_⟩
  · refine List.Perm.trans ?_ hSlots
    unfold Exec.slots
    simp only [Phase.slots, List.append_nil, ← List.append_assoc]
    exact (List.perm_append_singleton slot _).symm
  · intro q hq
    exact .inl (hInv.stored (by rw [hPhase]; rfl) hq)
  · intro q hq
    exact .inl (hInv.ready (by simp [hPhase]) hq)

theorem Inv.popped (hCpu : home < MAX_CPUS) (hInv : Inv home s) {q : Nat × Nat}
    (hPhase : s.phase = .popped tid) (hq : q ∈ s.owed)
    (hPopped : s.phase = .popped (makeTid home q.1)) : tidCpu tid = home ∧ tidSlot tid = q.1 ∧
      s.tasks.lookup (tidSlot tid) = some q.2 := by
  have hSlot := hInv.owed_slot hq
  rw [hPhase] at hPopped
  cases hPopped
  have hSame := tidSlot_makeTid hCpu hSlot
  refine ⟨tidCpu_makeTid hCpu hSlot, hSame, ?_⟩
  rw [hSame]
  exact hInv.stored (by rw [hPhase]; rfl) hq

theorem Inv.take (hCpu : home < MAX_CPUS) (hInv : Inv home s)
    (hStep : Executor.step home s .take = some s') : Inv home s' := by
  dsimp only [Executor.step] at hStep
  split at hStep
  swap
  · cases hStep
  rename_i tid hPhase
  rcases hInv.places hPhase with ⟨hSlots, hNames⟩
  have hServed := fun q hq => hInv.popped hCpu (q := q) hPhase hq
  have hStored : ∀ q ∈ s.owed, s.tasks.lookup q.1 = some q.2 := fun q hq =>
    hInv.stored (by rw [hPhase]; rfl) hq
  split at hStep
  · rename_i hForeign
    cases hStep
    refine ⟨hSlots, hNames, hInv.bound, hInv.queued, fun q hq => .inl (hStored q hq), ?_⟩
    intro q hq
    exact (hInv.woken q hq).imp_right fun hPopped => absurd (hServed q hq hPopped).1 hForeign
  · split at hStep
    · rename_i hNone
      cases hStep
      refine ⟨hSlots, hNames, hInv.bound, hInv.queued, fun q hq => .inl (hStored q hq), ?_⟩
      intro q hq
      exact (hInv.woken q hq).imp_right fun hPopped => by grind
    · rename_i task hLookup
      cases hStep
      rcases perm_erase hLookup with ⟨hKeys, hTasks⟩
      refine ⟨?_, ?_, hInv.bound, hInv.queued, ?_, ?_⟩
      · refine List.Perm.trans ?_ hSlots
        refine List.Perm.append_left _ (List.Perm.append_left _ ?_)
        simp only [Phase.slots, List.append_nil]
        exact (List.perm_append_singleton _ _).trans hKeys.symm
      · refine List.Perm.trans ?_ hNames
        refine List.Perm.append_left _ ?_
        refine List.perm_middle.trans ?_
        exact hTasks.symm.append_right _
      · intro q hq
        rcases List.mem_filter.mp hq with ⟨hq, hNe⟩
        left
        have hOld := hStored q hq
        have hSlot : q.1 ≠ tidSlot tid := by grind
        dsimp only
        rw [AList.lookup_erase_ne hSlot]
        exact hOld
      · intro q hq
        rcases List.mem_filter.mp hq with ⟨hq, hNe⟩
        exact (hInv.woken q hq).imp_right fun hPopped => by grind

theorem Inv.step (hCpu : home < MAX_CPUS) {a : Act} (hInv : Inv home s)
    (hStep : Executor.step home s a = some s') : Inv home s' := by
  cases a with
  | takeSlot => exact hInv.takeSlot hStep
  | store p => exact hInv.store hStep
  | queue p =>
    dsimp only [Executor.step] at hStep
    split at hStep <;> cases hStep
    rename_i hp
    have hSlot := hInv.queued p hp
    have hTid : makeTid home (tidSlot (makeTid home p.1)) = makeTid home p.1 := by
      rw [tidSlot_makeTid hCpu hSlot]
    have hNotify := hInv.notify hTid
    exact { hNotify with queued := fun q hq => hInv.queued q (List.mem_of_mem_erase hq) }
  | wake tid =>
    dsimp only [Executor.step] at hStep
    split at hStep <;> cases hStep
    rename_i hTid
    exact hInv.notify (makeTid_tidSlot hCpu hTid)
  | pop => exact hInv.pop hStep
  | take => exact hInv.take hCpu hStep
  | pending => exact hInv.pending hStep
  | complete => exact hInv.complete hStep
  | recycle => exact hInv.recycle hStep

theorem Inv.of_reaches (hCpu : home < MAX_CPUS) (hReach : Reaches home s) : Inv home s := by
  refine hReach.invariant (fun m a m' hInv _ hStep => hInv.step hCpu hStep) ?_
  exact ⟨.refl _, .refl _, Nat.zero_le _, nofun, nofun, nofun⟩

-- Integrity

/-
  What holds of an executor at any moment.  The fields about
  wakes say that a wake of a live task is owed from when it
  is issued, and stays so until the task is polled or has
  completed; and that its tid is queued as long as it is owed,
  or has been taken from the queue with the task in its slot.
-/
structure Integrity (home : Nat) (s : Exec) : Prop where
  free_nodup : s.freeSlots.Nodup
  free_unused : ∀ slot ∈ s.freeSlots, s.holder slot = [] ∧ slot ∉ s.arriving.map Prod.fst
  one_place : s.names.Nodup ∧ ∀ task, task ∈ s.names ↔ task < s.born
  store_empty : ∀ p ∈ s.arriving, s.holder p.1 = []
  return_empty : ∀ slot task, s.phase = .polling slot task → s.tasks.lookup slot = none
  wake_owed : ∀ slot task, task ∈ s.holder slot →
    ∃ s', step home s (.wake (makeTid home slot)) = some s' ∧ (slot, task) ∈ s'.owed
  owed_kept : ∀ a s' p, step home s a = some s' → p ∈ s.owed → p ∈ s'.owed ∨
      (a = .take ∧ s'.phase = .polling p.1 p.2) ∨ (a = .complete ∧ p.2 ∈ s'.done)
  owed_queued : ∀ p ∈ s.owed, p.2 ∈ s.holder p.1 ∧ (makeTid home p.1 ∈ s.ready ∨
      s.phase = .popped (makeTid home p.1) ∧ s.tasks.lookup p.1 = some p.2)

theorem holder_eq_nil (hKey : slot ∉ s.tasks.keys) (hPhase : slot ∉ s.phase.slots) :
    s.holder slot = [] := by
  refine List.eq_nil_iff_forall_not_mem.mpr ?_
  intro task hTask
  rcases mem_holder.mp hTask with hStored | hPolling
  · exact hKey (mem_keys_of_lookup hStored)
  · rw [hPolling] at hPhase
    exact hPhase (List.mem_singleton_self slot)

theorem Inv.free_apart (hInv : Inv home s) (hSlot : slot ∈ s.freeSlots) :
    slot ∉ s.arriving.map Prod.fst ∧ slot ∉ s.tasks.keys ∧ slot ∉ s.phase.slots := by
  have hNodup := hInv.nodup
  unfold Exec.slots at hNodup
  have hApart := (List.nodup_append.mp hNodup).2.2 slot hSlot
  refine ⟨?_, ?_, ?_⟩
  · intro hMem
    exact hApart slot (List.mem_append_left _ hMem) rfl
  · intro hMem
    exact hApart slot (List.mem_append_right _ (List.mem_append_left _ hMem)) rfl
  · intro hMem
    exact hApart slot (List.mem_append_right _ (List.mem_append_right _ hMem)) rfl

theorem Inv.holder_slot (hInv : Inv home s) (hTask : task ∈ s.holder slot) : slot ≤ SLOT_MASK := by
  refine hInv.slot_le ?_
  unfold Exec.slots
  rcases mem_holder.mp hTask with hStored | hPolling
  · have hKey := mem_keys_of_lookup hStored
    exact List.mem_append_right _ (List.mem_append_right _ (List.mem_append_left _ hKey))
  · rw [hPolling]
    exact List.mem_append_right _ (List.mem_append_right _
      (List.mem_append_right _ (List.mem_singleton_self slot)))

/- What is owed stays so until it is served. -/
theorem owed_step {s' : Exec} {a : Act} (hStep : step home s a = some s')
    (hp : p ∈ s.owed) : p ∈ s'.owed ∨ (a = .take ∧ s'.phase = .polling p.1 p.2) ∨
      (a = .complete ∧ p.2 ∈ s'.done) := by
  cases a with unfold step at hStep
  | takeSlot =>
    dsimp only at hStep
    split at hStep <;> cases hStep
    left
    have hSame : s.takeSlot.2.owed = s.owed := by
      unfold Exec.takeSlot
      split <;> rfl
    change p ∈ s.takeSlot.2.owed
    rw [hSame]
    exact hp
  | store q | pop | pending | recycle =>
    dsimp only at hStep
    split at hStep <;> cases hStep
    exact .inl hp
  | queue q | wake tid =>
    dsimp only at hStep
    split at hStep <;> cases hStep
    exact .inl (List.mem_append_left _ hp)
  | take =>
    dsimp only at hStep
    split at hStep
    swap
    · cases hStep
    rename_i tid hPhase
    split at hStep
    · cases hStep
      exact .inl hp
    · split at hStep
      · cases hStep
        exact .inl hp
      · rename_i task hLookup
        cases hStep
        by_cases hSame : p = (tidSlot tid, task)
        · exact .inr (.inl (by simp [hSame]))
        · exact .inl (List.mem_filter.mpr ⟨hp, by simpa using hSame⟩)
  | complete =>
    dsimp only at hStep
    split at hStep <;> cases hStep
    rename_i slot task hPhase
    by_cases hSame : p = (slot, task)
    · exact .inr (.inr (by simp [hSame]))
    · exact .inl (List.mem_filter.mpr ⟨hp, by simpa using hSame⟩)

/-
  In every interleaving of insertions, wakes and iterations
  of `run` the executor keeps its slots and tasks apart and
  serves every wake.
-/
theorem executor_integrity (hCpu : home < MAX_CPUS) (hReach : Reaches home s) :
    Integrity home s := by
  have hInv := Inv.of_reaches hCpu hReach
  refine
    { free_nodup := ?_
      free_unused := ?_
      one_place := ?_
      store_empty := ?_
      return_empty := ?_
      wake_owed := ?_
      owed_kept := fun a s' p hStep hp => owed_step hStep hp
      owed_queued := ?_ }
  · exact (List.nodup_append.mp hInv.nodup).1
  · intro slot hSlot
    rcases hInv.free_apart hSlot with ⟨hArriving, hKey, hPhase⟩
    exact ⟨holder_eq_nil hKey hPhase, hArriving⟩
  · refine ⟨hInv.names.nodup_iff.mpr List.nodup_range, ?_⟩
    intro task
    rw [hInv.names.mem_iff, List.mem_range]
  · intro p hp
    rcases hInv.arriving_apart hp with ⟨hKey, hPhase⟩
    exact holder_eq_nil hKey hPhase
  · intro slot task hPolling
    refine AList.lookup_eq_none.mpr (hInv.phase_apart ?_)
    rw [hPolling]
    exact List.mem_singleton_self slot
  · intro slot task hTask
    have hSlot := hInv.holder_slot hTask
    refine ⟨s.notify (makeTid home slot), ?_, ?_⟩
    · unfold step
      dsimp only
      rw [if_pos (tidCpu_makeTid hCpu hSlot)]
    · refine List.mem_append_right _ ?_
      rw [tidSlot_makeTid hCpu hSlot]
      exact List.mem_map.mpr ⟨task, hTask, rfl⟩
  · intro p hp
    refine ⟨mem_holder.mpr (hInv.live p hp), ?_⟩
    exact (hInv.woken p hp).imp_right fun hPopped =>
      ⟨hPopped, hInv.stored (by rw [hPopped]; rfl) hp⟩

/- A task that is woken from inside its own poll. -/
theorem executor_integrity_poll : ∃ s, Reaches 0 s ∧ s.phase = .polling 0 0 ∧
      s.owed = [(0, 0)] ∧ Integrity 0 s := by
  have hRun : (Machine.run (step 0) (fun _ _ => True) Exec.new
      [.takeSlot, .store (0, 0), .queue (0, 0), .pop, .take, .wake 0]).any
      (fun s => s.phase == .polling 0 0 && s.owed == [(0, 0)]) = true := by decide +kernel
  rcases Machine.exists_reach hRun with ⟨s, hReach, hCheck⟩
  rw [Bool.and_eq_true, beq_iff_eq, beq_iff_eq] at hCheck
  have hReach : Reaches 0 s := hReach
  exact ⟨s, hReach, hCheck.1, hCheck.2, executor_integrity (by decide) hReach⟩

-- Waiting

variable {k : Nat} {a : Act} {as : List Act}

def Phase.tids : Phase → List Nat
  | .popped tid => [tid]
  | _ => []

/- The tids that `run` has before it, the one it has popped first. -/
def Exec.queue (s : Exec) : List Nat := s.phase.tids ++ s.ready

/- The queue grows at its end, and only `take` shortens it. -/
theorem queue_step (hStep : step home s a = some s') :
    (a = .take ∧ ∃ tid, s.phase = .popped tid ∧ s.queue = tid :: s'.queue) ∨
      a ≠ .take ∧ s.queue <+: s'.queue := by
  unfold Exec.queue
  cases a with dsimp only [step] at hStep
  | takeSlot =>
    split at hStep <;> cases hStep
    have hSame : s.takeSlot.2.phase = s.phase ∧ s.takeSlot.2.ready = s.ready := by
      unfold Exec.takeSlot
      split <;> exact ⟨rfl, rfl⟩
    dsimp only
    rw [hSame.1, hSame.2]
    exact .inr ⟨by simp, List.prefix_rfl⟩
  | store q =>
    split at hStep <;> cases hStep
    exact .inr ⟨by simp, List.prefix_rfl⟩
  | queue q | wake tid =>
    split at hStep <;> cases hStep
    exact .inr ⟨by simp, (List.prefix_append_right_inj _).mpr (List.prefix_append _ _)⟩
  | take =>
    split at hStep
    swap
    · cases hStep
    rename_i tid hPhase
    refine .inl ⟨rfl, tid, hPhase, ?_⟩
    rw [hPhase]
    split at hStep
    · cases hStep
      rfl
    · split at hStep <;> cases hStep <;> rfl
  | pop =>
    split at hStep <;> cases hStep
    rename_i hPhase hReady
    rw [hPhase, hReady]
    exact .inr ⟨by simp, List.prefix_rfl⟩
  | pending | complete | recycle =>
    split at hStep <;> cases hStep
    rename_i hPhase
    rw [hPhase]
    exact .inr ⟨by simp, List.prefix_rfl⟩

abbrev after (home : Nat) : Exec → List Act → Option Exec :=
  Machine.run (step home) fun _ _ => True

theorem served_of_inv (hCpu : home < MAX_CPUS) (hInv : Inv home s) (hp : p ∈ s.owed)
    (hAt : s.queue[k]? = some (makeTid home p.1))
    (hRun : after home s as = some s') (hTakes : k < as.count .take) :
    ∃ bs m, bs <+: as ∧ after home s bs = some m ∧
      (m.phase = .polling p.1 p.2 ∨ p.2 ∈ m.done) := by
  induction as generalizing s k with
  | nil => simp at hTakes
  | cons a as ih =>
    simp only [after, Machine.run, if_true] at hRun
    rcases Option.bind_eq_some_iff.mp hRun with ⟨m, hStep, hRest⟩
    have hOne : ∀ {bs m'}, after home m bs = some m' →
        after home s (a :: bs) = some m' := by
      intro bs m' hBs
      simpa only [after, Machine.run, if_true, hStep, Option.bind_some] using hBs
    rcases owed_step hStep hp with hStill | ⟨rfl, hPolling⟩ | ⟨rfl, hDone⟩
    · rcases queue_step hStep with ⟨rfl, tid, hPhase, hQueue⟩ | ⟨hNot, r, hQueue⟩
      · rw [hQueue] at hAt
        cases k with
        | zero =>
          cases hAt
          rcases hInv.popped hCpu hPhase hp hPhase with ⟨hHome, hSlot, hTask⟩
          simp only [step, hPhase, hHome, hTask, ne_eq, not_true_eq_false, if_false] at hStep
          cases hStep
          exact ⟨[.take], _, by simp, hOne rfl, .inl (by rw [hSlot])⟩
        | succ k =>
          rw [List.count_cons_self] at hTakes
          rcases ih (hInv.step hCpu hStep) hStill hAt hRest (by omega) with ⟨bs, m', hBs, hServed⟩
          exact ⟨.take :: bs, m', List.cons_prefix_cons.mpr ⟨rfl, hBs⟩, hOne hServed.1, hServed.2⟩
      · rw [List.count_cons_of_ne hNot] at hTakes
        have hAt' : m.queue[k]? = some (makeTid home p.1) := by
          rw [← hQueue, List.getElem?_append_left (List.getElem?_eq_some_iff.mp hAt).1, hAt]
        rcases ih (hInv.step hCpu hStep) hStill hAt' hRest hTakes with ⟨bs, m', hBs, hServed⟩
        exact ⟨a :: bs, m', List.cons_prefix_cons.mpr ⟨rfl, hBs⟩, hOne hServed.1, hServed.2⟩
    · exact ⟨[.take], m, by simp, hOne rfl, .inl hPolling⟩
    · exact ⟨[.complete], m, by simp, hOne rfl, .inr hDone⟩

/-
  However many wakes come in, a task that has been woken is
  polled, or has completed, once `run` is through with the
  tids that were ahead of its own.
-/
theorem served_within (hCpu : home < MAX_CPUS) (hReach : Reaches home s) (hp : p ∈ s.owed)
    (hAt : s.queue[k]? = some (makeTid home p.1))
    (hRun : after home s as = some s') (hTakes : k < as.count .take) :
    ∃ bs m, bs <+: as ∧ after home s bs = some m ∧
      (m.phase = .polling p.1 p.2 ∨ p.2 ∈ m.done) :=
  served_of_inv hCpu (Inv.of_reaches hCpu hReach) hp hAt hRun hTakes

/- Task 0 is woken again while it is polled, after task 1. -/
theorem served_within_second : ∃ s s' bs m, Reaches 0 s ∧
    after 0 s [.pending, .pop, .take, .pending, .pop, .take] = some s' ∧ after 0 s bs = some m ∧
      (m.phase = .polling 0 0 ∨ 0 ∈ m.done) := by
  have hRun : (after 0 Exec.new [.takeSlot, .store (0, 0), .queue (0, 0), .pop, .take, .takeSlot,
      .store (1, 1), .queue (1, 1), .wake 0]).any (fun s => decide ((0, 0) ∈ s.owed ∧
        s.queue[1]? = some (makeTid 0 0) ∧
        (after 0 s [.pending, .pop, .take, .pending, .pop, .take]).isSome)) = true := by
    decide +kernel
  rcases Machine.exists_reach hRun with ⟨s, hReach, hAt⟩
  rcases of_decide_eq_true hAt with ⟨hOwed, hQueue, hSome⟩
  rcases Option.isSome_iff_exists.mp hSome with ⟨s', hAfter⟩
  rcases served_within (by decide) hReach hOwed hQueue hAfter (by decide) with ⟨bs, m, _, hServed⟩
  exact ⟨s, s', bs, m, hReach, hAfter, hServed⟩

end Executor

end PlayXv6
