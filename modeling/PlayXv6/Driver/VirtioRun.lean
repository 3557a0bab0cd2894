import PlayXv6.Driver.VirtioInv

/-
  Waking in the virtio block driver, and what holds in every
  run of it.

  A task that waits for descriptors is on the list that
  `finish` wakes after it has freed some; a task that waits
  for its request is in the cell of its head, which `on_irq`
  empties after it has stored the completion.  No other task
  registers there while the request is in flight.

  Main declarations:
    * `Inv`, `Inv.step`
    * `Protocol`
    * `blk_protocol`
-/

namespace PlayXv6

open Function

namespace VirtioBlk

variable {usedNow : Nat} {w : WaitLists Unit Nat}

/- The task may be parked, or about to be. -/
def Phase.Waits : Phase → Prop
  | .registered => True
  | .parked => True
  | .listening _ => True
  | .waiting _ => True
  | _ => False

/- With `n` free descriptors nobody waits without a wake; the wakes are made by `finish`. -/
structure DescWakes (phase : Nat → Phase) (w : WaitLists Unit Nat) (n : Nat) : Prop where
  callers : ∀ u ∈ w.calls, ∃ status, phase u = .freed status
  listens : ∀ t, phase t = .registered ∨ phase t = .parked → w.Listens t ()
  due : ∀ t, phase t = .parked → 3 ≤ n → w.Due t

variable {phase : Nat → Phase} {op : WaitLists.Op Unit Nat} {n m t : Nat} {p : Phase}

theorem DescWakes.set (hWakes : DescWakes phase w n)
    (hCaller : t ∈ w.calls → ∃ status, p = .freed status)
    (hListens : p = .registered ∨ p = .parked → w.Listens t ())
    (hDue : p = .parked → 3 ≤ n → w.Due t) : DescWakes (update phase t p) w n where
  callers := (forall_update_iff phase fun u q => u ∈ w.calls → ∃ status, q = .freed status).mpr
    ⟨hCaller, fun u _ => hWakes.callers u⟩
  listens := (forall_update_iff phase fun u q => q = .registered ∨ q = .parked →
    w.Listens u ()).mpr ⟨hListens, fun u _ => hWakes.listens u⟩
  due := (forall_update_iff phase fun u q => q = .parked → 3 ≤ n → w.Due u).mpr
    ⟨hDue, fun u _ => hWakes.due u⟩

/- Only `finish` is in a call of `wake_all`. -/
theorem DescWakes.notMem (hWakes : DescWakes phase w n)
    (hPhase : ∀ status, phase t ≠ .freed status) : t ∉ w.calls := by
  intro hCall
  rcases hWakes.callers t hCall with ⟨status, hFreed⟩
  exact hPhase status hFreed

theorem DescWakes.leave (hWakes : DescWakes phase w n) (hNot : ¬ p.Waits) (hFree : t ∉ w.calls) :
    DescWakes (update phase t p) w n := by
  refine hWakes.set (absurd · hFree) ?_ ?_ <;> grind [Phase.Waits]

theorem DescWakes.apply (hWakes : DescWakes phase w n)
    (hOp : ∀ t, (phase t).Waits → op.Spares w t)
    (hCalls : ∀ u ∈ (w.apply op).calls, u ∈ w.calls) : DescWakes phase (w.apply op) n := by
  refine ⟨fun u hu => hWakes.callers u (hCalls u hu), ?_, ?_⟩
  · intro t ht
    refine (hWakes.listens t ht).apply (hOp t ?_)
    rcases ht with ht | ht <;> rw [ht] <;> trivial
  · intro t ht hn
    refine (hWakes.due t ht hn).apply (hOp t ?_)
    rw [ht]
    trivial

theorem DescWakes.mono (hWakes : DescWakes phase w n) (hLe : m ≤ n) : DescWakes phase w m :=
  ⟨hWakes.callers, hWakes.listens, fun t ht hm => hWakes.due t ht (Nat.le_trans hm hLe)⟩

/- `finish` may free as many as it likes. -/
theorem DescWakes.announce {status : Nat} (hWakes : DescWakes phase w n) (hFree : t ∉ w.calls) :
    DescWakes (update phase t (.freed status)) (w.apply (.announce t [()])) m := by
  have hLeft : DescWakes (update phase t (.freed status)) w n := hWakes.leave id hFree
  refine ⟨?_, fun u hu => (hLeft.listens u hu).apply hFree, ?_⟩
  · intro u hu
    rcases (AList.mem_insert _).mp hu with rfl | hOld
    · exact ⟨status, update_self ..⟩
    · exact hLeft.callers u hOld
  · intro u hu _
    exact (hLeft.listens u (.inr hu)).announce hFree (List.mem_singleton_self ())

-- Waiting for a Completion

/- The task is queued, or about to be. -/
def Woken (w : WaitLists Unit Nat) (irq : Irq) (t : Nat) : Prop :=
  w.Due t ∨ ∃ n, irq = .taken n (some t)

structure OpWakes (s : Blk) : Prop where
  heard : ∀ t r, s.phase t = .listening r ∨ s.phase t = .waiting r →
      s.wakers r.i0 = some t ∨ Woken s.descWaiters s.irq t
  woken : ∀ t r, s.phase t = .waiting r → s.completed r.i0 = true →
      Woken s.descWaiters s.irq t ∨ ∃ n, s.irq = .stored n r.i0

variable {s s' : Blk} {id : Nat} {r : Req}

theorem OpWakes.set (hWakes : OpWakes s) (hHeard : ∀ r, p = .listening r ∨ p = .waiting r →
      s.wakers r.i0 = some t ∨ Woken s.descWaiters s.irq t) (hWoken : ∀ r, p = .waiting r →
      s.completed r.i0 = true → Woken s.descWaiters s.irq t ∨ ∃ n, s.irq = .stored n r.i0) :
    OpWakes (s.setPhase t p) where
  heard := (forall_update_iff s.phase fun u q => ∀ r, q = .listening r ∨ q = .waiting r →
    s.wakers r.i0 = some u ∨ Woken s.descWaiters s.irq u).mpr ⟨hHeard, fun u _ => hWakes.heard u⟩
  woken := (forall_update_iff s.phase fun u q => ∀ r, q = .waiting r → s.completed r.i0 = true →
    Woken s.descWaiters s.irq u ∨ ∃ n, s.irq = .stored n r.i0).mpr
    ⟨hWoken, fun u _ => hWakes.woken u⟩

theorem OpWakes.leave (hWakes : OpWakes s) (hNot : ¬ p.Waits) : OpWakes (s.setPhase t p) := by
  refine hWakes.set ?_ ?_ <;> grind [Phase.Waits]

theorem Woken.apply {irq : Irq} (hOp : op.Spares w t)
    (hWoken : Woken w irq t) : Woken (w.apply op) irq t := by
  rcases hWoken with hDue | hTaken
  · exact .inl (hDue.apply hOp)
  · exact .inr hTaken

theorem OpWakes.apply (hWakes : OpWakes s)
    (hOp : ∀ t, (s.phase t).Waits → op.Spares s.descWaiters t) :
    OpWakes { s with descWaiters := s.descWaiters.apply op } := by
  have hSpares : ∀ u q, s.phase u = .listening q ∨ s.phase u = .waiting q →
      op.Spares s.descWaiters u := by
    intro u q hu
    refine hOp u ?_
    rcases hu with hu | hu <;> rw [hu] <;> trivial
  constructor
  · intro u q hu
    rcases hWakes.heard u q hu with hCell | hWoken
    · exact .inl hCell
    · exact .inr (hWoken.apply (hSpares u q hu))
  · intro u q hu hDone
    rcases hWakes.woken u q hu hDone with hWoken | hStored
    · exact .inl (hWoken.apply (hSpares u q (.inr hu)))
    · exact .inr hStored

/- The fields that waking does not look at. -/
theorem OpWakes.frame (hWakes : OpWakes s) (hPhase : s'.phase = s.phase)
    (hWakers : s'.wakers = s.wakers) (hIrq : s'.irq = s.irq)
    (hWaiters : s'.descWaiters = s.descWaiters) (hCompleted : ∀ t r, s.phase t = .waiting r →
      s'.completed r.i0 = true → s.completed r.i0 = true) : OpWakes s' := by
  constructor
  · rw [hPhase, hWakers, hIrq, hWaiters]
    exact hWakes.heard
  · rw [hPhase, hIrq, hWaiters]
    intro t r ht hDone
    exact hWakes.woken t r ht (hCompleted t r ht hDone)

theorem req_of_phase (hPhase : s.phase t = p) (hReq : p.req = some r) : s.req t = some r := by
  rw [Blk.req, hPhase]
  exact hReq

theorem req_of_waits (hPhase : s.phase t = .listening r ∨ s.phase t = .waiting r) :
    s.req t = some r := by
  rcases hPhase with hPhase | hPhase
  · exact req_of_phase hPhase rfl
  · exact req_of_phase hPhase rfl

/- A task takes the cell of its own head only. -/
theorem OpWakes.listen (hWakes : OpWakes s) (hTable : Table s) (hReq : s.phase t = .opening r) :
    OpWakes { s.setPhase t (.listening r) with
      wakers := update s.wakers r.i0 (some t) } := by
  have hMine := req_of_phase hReq rfl
  constructor
  · intro u q hu
    have hOld := hWakes.heard u q
    have hHead := fun hWas => hTable.head_inj (req_of_waits (t := u) (r := q) hWas) hMine
    simp only [Blk.setPhase, update_apply] at hu ⊢
    grind
  · intro u q hu
    have hOld := hWakes.woken u q
    simp only [Blk.setPhase, update_apply] at hu ⊢
    grind

/- Nobody is in hand before the waker is taken. -/
theorem Woken.of_irq {irq irq' : Irq}
    (hNot : ∀ n waker, irq ≠ .taken n waker) (hWoken : Woken w irq t) : Woken w irq' t := by
  rcases hWoken with hWoken | ⟨n, hTaken⟩
  · exact .inl hWoken
  · exact absurd hTaken (hNot n _)

theorem OpWakes.handler {irq : Irq} (hWakes : OpWakes s)
    (hTaken : ∀ n waker, s.irq ≠ .taken n waker) (hStored : ∀ n id, s.irq ≠ .stored n id) :
    OpWakes { s with irq := irq } := by
  constructor
  · intro u q hu
    rcases hWakes.heard u q hu with hCell | hWoken
    · exact .inl hCell
    · exact .inr (hWoken.of_irq hTaken)
  · intro u q hu hDone
    rcases hWakes.woken u q hu hDone with hWoken | ⟨n, hAt⟩
    · exact .inl (hWoken.of_irq hTaken)
    · exact absurd hAt (hStored n _)

theorem OpWakes.irqStore (hWakes : OpWakes s) (hIrq : s.irq = .drain usedNow) :
    OpWakes { s with
      completed := update s.completed id true
      irq := .stored usedNow id } := by
  have hTaken : ∀ n waker, s.irq ≠ .taken n waker := by simp [hIrq]
  constructor
  · intro u q hu
    rcases hWakes.heard u q hu with hCell | hWoken
    · exact .inl hCell
    · exact .inr (hWoken.of_irq hTaken)
  · intro u q hu hDone
    have hOld := hWakes.woken u q hu
    simp only [update_apply] at hDone
    by_cases hHead : q.i0 = id
    · exact .inr ⟨usedNow, by rw [hHead]⟩
    · rw [if_neg hHead] at hDone
      rcases hOld hDone with hWoken | ⟨n, hAt⟩
      · exact .inl (hWoken.of_irq hTaken)
      · rw [hIrq] at hAt
        cases hAt

theorem OpWakes.irqTake (hWakes : OpWakes s) (hIrq : s.irq = .stored usedNow id) :
    OpWakes { s with
      wakers := update s.wakers id none
      irq := .taken usedNow (s.wakers id) } := by
  have hTaken : ∀ n waker, s.irq ≠ .taken n waker := by simp [hIrq]
  -- who is in the cell is in hand now
  have hHand : ∀ u q, s.phase u = .listening q ∨ s.phase u = .waiting q →
        q.i0 = id → Woken s.descWaiters (.taken usedNow (s.wakers id)) u := by
    intro u q hu hHead
    rcases hWakes.heard u q hu with hCell | hWoken
    · rw [hHead] at hCell
      exact .inr ⟨usedNow, by rw [hCell]⟩
    · exact hWoken.of_irq hTaken
  constructor
  · intro u q hu
    show update s.wakers id none q.i0 = some u ∨
      Woken s.descWaiters (.taken usedNow (s.wakers id)) u
    by_cases hHead : q.i0 = id
    · exact .inr (hHand u q hu hHead)
    · rw [update_of_ne hHead]
      rcases hWakes.heard u q hu with hCell | hWoken
      · exact .inl hCell
      · exact .inr (hWoken.of_irq hTaken)
  · intro u q hu hDone
    left
    by_cases hHead : q.i0 = id
    · exact hHand u q (.inr hu) hHead
    · rcases hWakes.woken u q hu hDone with hWoken | ⟨n, hAt⟩
      · exact hWoken.of_irq hTaken
      · rw [hIrq] at hAt
        cases hAt
        exact absurd rfl hHead

theorem Woken.irqNext {irq : Irq} {waker : Option Nat} (hWoken : Woken w (.taken usedNow waker) t) :
    Woken (w.apply (waker.elim .skip .poke)) irq t := by
  rcases hWoken with hDue | ⟨n, hTaken⟩
  · refine .inl (hDue.apply ?_)
    cases waker with
    | none | some u => trivial
  · cases hTaken
    refine .inl (.inl ?_)
    simp [WaitLists.apply]

theorem OpWakes.irqNext {usedIdx : Nat} {waker : Option Nat} (hWakes : OpWakes s)
    (hIrq : s.irq = .taken usedNow waker) :
    OpWakes { s with
      usedIdx := usedIdx
      irq := .drain usedNow
      descWaiters := s.descWaiters.apply (waker.elim .skip .poke) } := by
  constructor
  · intro u q hu
    rcases hWakes.heard u q hu with hCell | hWoken
    · exact .inl hCell
    · rw [hIrq] at hWoken
      exact .inr hWoken.irqNext
  · intro u q hu hDone
    rcases hWakes.woken u q hu hDone with hWoken | ⟨n, hAt⟩
    · rw [hIrq] at hWoken
      exact .inl hWoken.irqNext
    · rw [hIrq] at hAt
      cases hAt

-- The Invariant

structure Inv (s : Blk) : Prop where
  table : Table s
  serials : Serials s
  flow : ∃ sent back, Flow s sent back
  descWakes : DescWakes s.phase s.descWaiters (freeCount s.free)
  opWakes : OpWakes s

theorem Inv.boot : Inv Blk.boot := by
  have hReq : ∀ t, Blk.boot.req t = none := fun _ => rfl
  have hPhase : ∀ t, Blk.boot.phase t = .idle := fun _ => rfl
  refine ⟨⟨⟨?_, ?_, ?_⟩, by simp [hReq]⟩, ⟨by simp [hReq], by simp [hReq], fun _ _ hr => hr.elim⟩,
    ⟨[], [], ?_⟩, ⟨?_, by simp [hPhase], by simp [hPhase]⟩, by simp [hPhase], by simp [hPhase]⟩
  · intro k
    cases k with
    | none => exact List.nodup_range.filter _
    | some t => exact List.nodup_nil
  · intro k l i hk hl
    cases k with
    | none =>
      cases l with
      | none => rfl
      | some t => cases hl
    | some t => cases hk
  · intro i
    constructor
    · rintro ⟨k, hk⟩
      cases k with
      | none => exact List.mem_range.mp (List.mem_filter.mp hk).1
      | some t => cases hk
    · intro hi
      exact ⟨none, List.mem_filter.mpr ⟨List.mem_range.mpr hi, rfl⟩⟩
  · exact ⟨by decide, by decide, Wheel.Window.nil rfl, Wheel.Window.nil rfl, List.nodup_nil,
      fun _ hh => (by cases hh), fun _ hh => (by cases hh), fun _ hh => (by cases hh), trivial⟩
  · intro u hu
    exact absurd hu (AList.notMem_empty u)

/- A wake or a poll of a task outside its waits. -/
theorem Inv.apply (hInv : Inv s) (hOp : ∀ t, (s.phase t).Waits → op.Spares s.descWaiters t)
    (hCalls : ∀ u ∈ (s.descWaiters.apply op).calls, u ∈ s.descWaiters.calls) :
    Inv { s with descWaiters := s.descWaiters.apply op } := by
  rcases hInv.flow with ⟨sent, back, hFlow⟩
  exact ⟨hInv.table.quiet fun _ => rfl, hInv.serials.quiet (fun _ => rfl) hInv.serials.ready,
    ⟨sent, back, hFlow.quiet fun _ => rfl⟩, hInv.descWakes.apply hOp hCalls,
    hInv.opWakes.apply hOp⟩

theorem Serials.ready_set (hSerials : Serials s)
    (hReady : ∀ r, p.IsReady r → s.completed r.i0 = true) :
    ∀ u r, (update s.phase t p u).IsReady r → s.completed r.i0 = true :=
  (forall_update_iff s.phase fun _ q => ∀ r, q.IsReady r → s.completed r.i0 = true).mpr
    ⟨hReady, fun u _ => hSerials.ready u⟩

/- A task goes on with the request it has, if any. -/
theorem Inv.setPhase (hInv : Inv s) (hReq : p.req = (s.phase t).req)
    (hReady : ∀ r, p.IsReady r → s.completed r.i0 = true)
    (hDesc : DescWakes (update s.phase t p) s.descWaiters (freeCount s.free))
    (hOp : OpWakes (s.setPhase t p)) : Inv (s.setPhase t p) := by
  rcases hInv.flow with ⟨sent, back, hFlow⟩
  have hReqs : ∀ u, (update s.phase t p u).req = (s.phase u).req := fun u =>
    (req_setPhase u).trans (by grind [Blk.req])
  exact ⟨hInv.table.quiet hReqs, hInv.serials.quiet hReqs (hInv.serials.ready_set hReady),
    ⟨sent, back, hFlow.quiet hReqs⟩, hDesc, hOp⟩

/- Nobody waits for the task where it goes. -/
theorem Inv.leave (hInv : Inv s) (hReq : p.req = (s.phase t).req) (hNot : ¬ p.Waits)
    (hOld : ∀ status, s.phase t ≠ .freed status)
    (hReady : ∀ r, p.IsReady r → s.completed r.i0 = true) : Inv (s.setPhase t p) :=
  hInv.setPhase hReq hReady (hInv.descWakes.leave hNot (hInv.descWakes.notMem hOld))
    (hInv.opWakes.leave hNot)

-- Submission

theorem req_of_unsubmitted (hPhase : s.phase t = .idle ∨ s.phase t = .retry) : s.req t = none := by
  rw [Blk.req]
  rcases hPhase with hPhase | hPhase <;> rw [hPhase] <;> rfl

theorem Inv.free_of_unsubmitted (hInv : Inv s) (hPhase : s.phase t = .idle ∨ s.phase t = .retry) :
    t ∉ s.descWaiters.calls := by
  refine hInv.descWakes.notMem fun status hFreed => ?_
  rcases hPhase with hPhase | hPhase <;> rw [hPhase] at hFreed <;> cases hFreed

theorem freeCount_le {free free' : Nat → Bool} (hLess : ∀ i, free' i = true → free i = true) :
    freeCount free' ≤ freeCount free := (List.monotone_filter_right _ hLess).length_le

theorem Inv.submitted {free' : Nat → Bool} (hInv : Inv s) (hOut : s.irq = .out)
    (hPhase : s.phase t = .idle ∨ s.phase t = .retry) (hAlloc : allocThree s.free =
      (some [r.i0, r.i1, r.i2], free')) : Inv (({ s with free := free' }.writeChain r).setPhase t
      (.opening r)) := by
  have hIdle := req_of_unsubmitted hPhase
  rcases hInv.flow with ⟨sent, back, hFlow⟩
  rcases allocLoop_some hAlloc with ⟨new, hNew, _, _, hTaken, hRest⟩
  rw [List.nil_append] at hNew
  subst hNew
  have hHead := hTaken r.i0 (List.mem_cons_self ..)
  have hFewer : freeCount free' ≤ freeCount s.free := by
    refine freeCount_le ?_
    intro i hi
    rw [hRest i, Bool.and_eq_true] at hi
    exact hi.1
  refine ⟨hInv.table.submit hIdle hAlloc, hInv.serials.submit hInv.table hHead.1 hHead.2,
    ⟨_, back, hFlow.submit hInv.table hIdle hHead.1 hHead.2 hOut⟩, ?_, ?_⟩
  · exact (hInv.descWakes.mono hFewer).leave id (hInv.free_of_unsubmitted hPhase)
  · refine OpWakes.leave ?_ id
    refine hInv.opWakes.frame rfl rfl rfl rfl ?_
    intro u q hu hDone
    simp only [Blk.writeChain, update_apply] at hDone
    grind

theorem Inv.submit {request : Request} (hInv : Inv s) (hStep : s.stepSubmit t request = some s') :
    Inv s' := by
  unfold Blk.stepSubmit at hStep
  rcases Option.ite_none_right_eq_some.mp hStep with ⟨⟨hOut, hPhase⟩, hStep⟩
  unfold Blk.submitChain at hStep
  split at hStep
  · rename_i r s₁ hSubmit
    split at hSubmit <;> cases hSubmit
    rename_i i0 i1 i2 free hAlloc
    cases hStep
    exact hInv.submitted hOut hPhase hAlloc
  · rename_i s₁ hSubmit
    split at hSubmit
    · cases hSubmit
    rename_i out free hNone hAlloc
    cases hSubmit
    cases hStep
    have hNo : out = none := by
      cases out with
      | none => rfl
      | some l =>
        rcases allocLoop_some hAlloc with ⟨new, hNew, hLength, _⟩
        rw [List.nil_append] at hNew
        subst hNew
        rcases List.length_eq_three.mp hLength with ⟨a, b, c, rfl⟩
        exact absurd rfl (hNone a b c)
    subst hNo
    have hFree := allocThree_none hAlloc
    subst hFree
    refine hInv.setPhase (req_of_unsubmitted hPhase).symm (fun r hr => hr.elim) ?_ ?_
    · exact hInv.descWakes.leave id (hInv.free_of_unsubmitted hPhase)
    · exact hInv.opWakes.leave id

-- Waiting Tasks

theorem Inv.register (hInv : Inv s) (hStep : s.stepRegister t = some s') : Inv s' := by
  unfold Blk.stepRegister at hStep
  split at hStep <;> cases hStep
  rename_i hPhase
  have hFree := hInv.descWakes.notMem (t := t) (by simp [hPhase])
  have hApply : Inv { s with
      descWaiters := s.descWaiters.apply (.register t ()) } :=
    hInv.apply (fun _ _ => trivial) fun _ h => h
  refine hApply.setPhase ?_ (fun r hr => hr.elim) ?_ ?_
  · show _ = (s.phase t).req
    rw [hPhase]
    rfl
  · exact hApply.descWakes.set (absurd · hFree) (fun _ => WaitLists.listens_register) (by simp)
  · exact hApply.opWakes.set (by simp) (by simp)

theorem Inv.count (hInv : Inv s) (hStep : s.stepCount t = some s') : Inv s' := by
  unfold Blk.stepCount at hStep
  rcases Option.ite_none_right_eq_some.mp hStep with ⟨⟨_, hPhase⟩, ⟨⟩⟩
  have hListens := hInv.descWakes.listens t (.inl hPhase)
  by_cases hMany : 3 ≤ freeCount s.free
  · rw [if_pos hMany]
    exact hInv.leave (by rw [hPhase]; rfl) id (by simp [hPhase]) fun r hr => hr.elim
  · rw [if_neg hMany]
    have hFree := hInv.descWakes.notMem (t := t) (by simp [hPhase])
    refine hInv.setPhase (by rw [hPhase]; rfl) (fun r hr => hr.elim) ?_ ?_
    · exact hInv.descWakes.set (absurd · hFree) (fun _ => hListens) fun _ hNow => absurd hNow hMany
    · exact hInv.opWakes.set (by simp) (by simp)

theorem Inv.listen (hInv : Inv s) (hStep : s.stepListen t = some s') : Inv s' := by
  unfold Blk.stepListen at hStep
  split at hStep <;> cases hStep
  rename_i r hPhase
  rcases hInv.flow with ⟨sent, back, hFlow⟩
  have hReqs : ∀ u, (update s.phase t (.listening r) u).req = (s.phase u).req := by
    intro u
    exact (req_setPhase u).trans (by grind [Blk.req, Phase.req])
  exact ⟨hInv.table.quiet hReqs, hInv.serials.quiet hReqs
      (hInv.serials.ready_set fun q hq => hq.elim), ⟨sent, back, hFlow.quiet hReqs⟩,
    hInv.descWakes.set (absurd · (hInv.descWakes.notMem (by simp [hPhase]))) (by simp) (by simp),
    hInv.opWakes.listen hInv.table hPhase⟩

theorem Inv.load (hInv : Inv s) (hStep : s.stepLoad t = some s') : Inv s' := by
  unfold Blk.stepLoad at hStep
  split at hStep <;> cases hStep
  rename_i r hPhase
  by_cases hDone : s.completed r.i0 = true
  · rw [if_pos hDone]
    refine hInv.leave (by rw [hPhase]; rfl) id (by simp [hPhase]) ?_
    rintro q rfl
    exact hDone
  · rw [if_neg hDone]
    have hFree := hInv.descWakes.notMem (t := t) (by simp [hPhase])
    refine hInv.setPhase (by rw [hPhase]; rfl) (fun q hq => hq.elim) ?_ ?_
    · exact hInv.descWakes.set (absurd · hFree) (by simp) (by simp)
    · refine hInv.opWakes.set ?_ ?_
      · rintro q (hq | hq)
        · cases hq
        · cases hq
          exact hInv.opWakes.heard t r (.inl hPhase)
      · intro q hq hSet
        cases hq
        exact absurd hSet hDone

theorem Inv.poll (hInv : Inv s) (hStep : s.stepPoll t = some s') : Inv s' := by
  -- the task leaves its wait before its entry is used up
  have hLeave : ∀ p, p.req = (s.phase t).req → ¬ p.Waits → (s.phase t).Waits →
      (∀ r, ¬ p.IsReady r) →
      Inv ({ s with
        descWaiters := s.descWaiters.apply (.poll t) }.setPhase t p) := by
    intro p hReq hNot hWaits hReady
    have hMoved := hInv.leave hReq hNot fun status hFreed => by
      rw [hFreed] at hWaits
      exact hWaits
      fun r hr => (hReady r hr).elim
    have hSelf : (s.setPhase t p).phase t = p := update_self ..
    have hPolled : Inv { s.setPhase t p with
        descWaiters := s.descWaiters.apply (.poll t) } := by
      refine hMoved.apply ?_ fun _ h => h
      rintro u hu rfl
      rw [hSelf] at hu
      exact hNot hu
    exact hPolled
  unfold Blk.stepPoll at hStep
  split at hStep
  · cases hStep
  dsimp only at hStep
  split at hStep
  · rename_i hPhase
    cases hStep
    exact hLeave .refused (by rw [hPhase]; rfl) id (by rw [hPhase]; trivial) fun r hr => hr
  · rename_i r hPhase
    cases hStep
    exact hLeave (.opening r) (by rw [hPhase]; rfl) id (by rw [hPhase]; trivial) fun r hr => hr
  · rename_i hPhase
    cases hStep
    refine hInv.apply ?_ fun _ h => h
    rintro u hu rfl
    rw [hPhase] at hu
    exact hu
  · cases hStep

theorem Inv.readStatus (hInv : Inv s) (hStep : s.stepReadStatus t = some s') : Inv s' := by
  unfold Blk.stepReadStatus at hStep
  split at hStep <;> cases hStep
  rename_i r hPhase
  refine hInv.leave (by rw [hPhase]; rfl) id (by simp [hPhase]) ?_
  rintro q rfl
  exact hInv.serials.ready t r (by rw [hPhase]; rfl)

theorem Inv.free (hInv : Inv s) (hStep : s.stepFree t = some s') : Inv s' := by
  unfold Blk.stepFree at hStep
  split at hStep
  swap
  · cases hStep
  rename_i r status hOut hPhase
  rcases Option.map_eq_some_iff.mp hStep with ⟨⟨desc, free⟩, hChain, rfl⟩
  rcases hInv.flow with ⟨sent, back, hFlow⟩
  have hReady : (s.phase t).IsReady r := by
    rw [hPhase]
    rfl
  have hFree := hInv.descWakes.notMem (t := t) (by simp [hPhase])
  refine ⟨?_, hInv.serials.release rfl, ⟨sent, back, hFlow.release hInv.serials hReady hOut⟩,
    ?_, ?_⟩
  · refine hInv.table.release hReady.req ?_ ?_ hChain
    · exact req_setPhase_self
    · exact fun u hu => req_setPhase_ne hu
  · exact hInv.descWakes.announce hFree
  · have hLeft : OpWakes (s.setPhase t (.freed status)) := hInv.opWakes.leave id
    have hApply : OpWakes { s.setPhase t (.freed status) with
        descWaiters := s.descWaiters.apply (.announce t [()]) } := hLeft.apply fun _ _ => hFree
    exact hApply.frame rfl rfl rfl rfl fun _ _ _ h => h

theorem Inv.wakeAll (hInv : Inv s) (hStep : s.stepWakeAll t = some s') : Inv s' := by
  unfold Blk.stepWakeAll at hStep
  split at hStep <;> cases hStep
  rename_i status hPhase
  have hApply : Inv { s with descWaiters := s.descWaiters.apply (.wake t) } :=
    hInv.apply (fun _ _ => trivial) fun _ h => WaitLists.mem_calls_wake h
  have hReq : (Phase.freed status).req = (s.phase t).req := by rw [hPhase]
  split
  · refine hApply.setPhase hReq (fun r hr => hr.elim) ?_ (hApply.opWakes.leave id)
    exact hApply.descWakes.set (fun _ => ⟨status, rfl⟩) (by simp) (by simp)
  · rename_i hEnd
    exact hApply.setPhase hReq (fun r hr => hr.elim) (hApply.descWakes.leave id hEnd)
      (hApply.opWakes.leave id)

-- The Device and the Handler

theorem Inv.fetch (hInv : Inv s) (hStep : s.stepFetch = some s') : Inv s' := by
  unfold Blk.stepFetch at hStep
  split at hStep
  · cases hStep
  rename_i hMore
  cases hStep
  rcases hInv.flow with ⟨sent, back, hFlow⟩
  rcases hFlow.fetch hMore with ⟨sent', hFlow'⟩
  exact ⟨hInv.table.frame rfl rfl rfl, ⟨hInv.serials.owner, hInv.serials.done, hInv.serials.ready⟩,
    ⟨sent', back, hFlow'⟩, hInv.descWakes, hInv.opWakes.frame rfl rfl rfl rfl fun _ _ _ h => h⟩

theorem Inv.complete {status : Nat} (hInv : Inv s) (hStep : s.stepComplete id status = some s') :
    Inv s' := by
  unfold Blk.stepComplete at hStep
  split at hStep <;> cases hStep
  rename_i hMem
  rcases hInv.flow with ⟨sent, back, hFlow⟩
  exact ⟨hInv.table.frame rfl rfl rfl, hInv.serials.complete,
    ⟨sent, _, hFlow.complete hInv.table hMem⟩, hInv.descWakes,
    hInv.opWakes.frame rfl rfl rfl rfl fun _ _ _ h => h⟩

theorem Inv.irqStart (hInv : Inv s) (hStep : s.stepIrq = some s') : Inv s' := by
  unfold Blk.stepIrq at hStep
  split at hStep <;> cases hStep
  rename_i hOut
  rcases hInv.flow with ⟨sent, back, hFlow⟩
  refine ⟨hInv.table.frame rfl rfl rfl, ⟨hInv.serials.owner, hInv.serials.done,
      hInv.serials.ready⟩, ⟨sent, back, hFlow.irqStart hOut⟩, hInv.descWakes, ?_⟩
  exact hInv.opWakes.handler (by simp [hOut]) (by simp [hOut])

theorem Inv.irqStore (hInv : Inv s) (hStep : s.stepIrqStore = some s') : Inv s' := by
  unfold Blk.stepIrqStore at hStep
  split at hStep
  swap
  · cases hStep
  rename_i usedNow hIrq
  split at hStep
  · cases hStep
  rename_i hMore
  cases hStep
  rcases hInv.flow with ⟨sent, back, hFlow⟩
  rcases hFlow.exists_entry hIrq hMore with ⟨rest, hBack, _⟩
  have hDone := hFlow.done (s.used.cells (s.usedIdx % NUM)) (by
      rw [hBack]
      exact List.mem_cons_self ..)
  exact ⟨hInv.table.frame rfl rfl rfl, hInv.serials.irqStore hDone,
    ⟨sent, back, hFlow.irqStore hIrq hMore⟩, hInv.descWakes, hInv.opWakes.irqStore hIrq⟩

theorem Inv.irqTake (hInv : Inv s) (hStep : s.stepIrqTake = some s') : Inv s' := by
  unfold Blk.stepIrqTake at hStep
  split at hStep <;> cases hStep
  rename_i usedNow id hIrq
  rcases hInv.flow with ⟨sent, back, hFlow⟩
  exact ⟨hInv.table.frame rfl rfl rfl, ⟨hInv.serials.owner, hInv.serials.done, hInv.serials.ready⟩,
    ⟨sent, back, hFlow.irqTake hIrq⟩, hInv.descWakes, hInv.opWakes.irqTake hIrq⟩

theorem Inv.irqNext (hInv : Inv s) (hStep : s.stepIrqNext = some s') : Inv s' := by
  unfold Blk.stepIrqNext at hStep
  split at hStep <;> cases hStep
  rename_i usedNow waker hIrq
  rcases hInv.flow with ⟨sent, back, hFlow⟩
  rcases hFlow.irqNext hIrq with ⟨back', hFlow'⟩
  refine ⟨hInv.table.frame rfl rfl rfl, ⟨hInv.serials.owner, hInv.serials.done,
      hInv.serials.ready⟩, ⟨sent, back', hFlow'⟩, ?_, hInv.opWakes.irqNext hIrq⟩
  refine hInv.descWakes.apply ?_ ?_
  · intro u _
    cases waker <;> trivial
  · intro u hu
    cases waker <;> exact hu

theorem Inv.irqEnd (hInv : Inv s) (hStep : s.stepIrqEnd = some s') : Inv s' := by
  unfold Blk.stepIrqEnd at hStep
  split at hStep
  swap
  · cases hStep
  rename_i usedNow hIrq
  split at hStep <;> cases hStep
  rcases hInv.flow with ⟨sent, back, hFlow⟩
  refine ⟨hInv.table.frame rfl rfl rfl, ⟨hInv.serials.owner, hInv.serials.done,
      hInv.serials.ready⟩, ⟨sent, back, hFlow.irqEnd hIrq⟩, hInv.descWakes, ?_⟩
  exact hInv.opWakes.handler (by simp [hIrq]) (by simp [hIrq])

theorem Inv.step {a : Act} (hInv : Inv s) (hStep : s.step a = some s') : Inv s' := by
  cases a with
  | submit t request => exact hInv.submit hStep
  | register t => exact hInv.register hStep
  | count t => exact hInv.count hStep
  | listen t => exact hInv.listen hStep
  | load t => exact hInv.load hStep
  | readStatus t => exact hInv.readStatus hStep
  | free t => exact hInv.free hStep
  | wakeAll t => exact hInv.wakeAll hStep
  | poll t => exact hInv.poll hStep
  | poke t =>
    cases hStep
    exact hInv.apply (fun _ _ => trivial) fun _ h => h
  | fetch => exact hInv.fetch hStep
  | complete id status => exact hInv.complete hStep
  | irq => exact hInv.irqStart hStep
  | irqStore => exact hInv.irqStore hStep
  | irqTake => exact hInv.irqTake hStep
  | irqNext => exact hInv.irqNext hStep
  | irqEnd => exact hInv.irqEnd hStep

theorem Inv.of_reaches (hReach : Blk.Reaches s) : Inv s :=
  hReach.invariant (fun _ _ _ hInv _ hStep => hInv.step hStep) Inv.boot

-- The Protocol

/-
  What holds whatever the tasks, the device and the handler
  did so far.  A request is in flight from its submission
  until `finish` has freed its chain.
-/
structure Protocol (s : Blk) : Prop where
  three : ∀ t r, s.req t = some r → r.chain.Nodup ∧ ∀ i ∈ r.chain, i < NUM
  apart : ∀ t u r q, s.req t = some r → s.req u = some q → t ≠ u → r.chain.Disjoint q.chain
  -- `BlockOp` finds its flag set, or has found it set
  ready : ∀ t r, s.req t = some r → s.completed r.i0 = true ∨ (s.phase t).IsReady r →
      r.serial ∈ s.done
  frees : ∀ t r status, s.phase t = .finishing r status → (∀ i ∈ r.chain, s.free i = false) ∧
      ∃ desc free, freeChain s.desc s.free r.i0 NUM = some (desc, free) ∧
        ∀ i, free i = (s.free i || decide (i ∈ r.chain))
  -- `on_irq` has stored the completion and emptied the cell
  completion : ∀ t r, s.phase t = .waiting r →
    s.completed r.i0 = true → (∀ n, s.irq ≠ .stored n r.i0) → Woken s.descWaiters s.irq t
  descriptors : ∀ t, s.phase t = .parked → 3 ≤ freeCount s.free → s.descWaiters.Due t
  -- `finish` makes the calls, and going on with its own it queues whom it has to wake
  callers : ∀ u ∈ s.descWaiters.calls, ∃ status, s.phase u = .freed status
  arrives : ∀ t, s.descWaiters.Due t →
    ∃ u s', Machine.Reach Blk.step (fun _ a => a = .wakeAll u) s s' ∧ 0 < s'.descWaiters.ready t
  quiet : (∀ t, s.req t = none) → ∀ i < NUM, s.free i = true

theorem Inv.arrives {s : Blk} (hInv : Inv s) (hDue : s.descWaiters.Due t) :
    ∃ u s', Machine.Reach Blk.step (fun _ a => a = .wakeAll u) s s' ∧
      0 < s'.descWaiters.ready t := by
  rcases hDue.arrives with ⟨u, hArrives⟩
  refine ⟨u, hArrives.reach (v := Blk.descWaiters) (I := Inv) ?_ hInv⟩
  intro s hInv hCall
  rcases hInv.descWakes.callers u hCall with ⟨status, hPhase⟩
  have hSome : ∃ s', s.stepWakeAll u = some s' ∧ s'.descWaiters = s.descWaiters.wake u := by
    unfold Blk.stepWakeAll
    rw [hPhase]
    exact ⟨_, rfl, rfl⟩
  rcases hSome with ⟨s', hStep, hWake⟩
  exact ⟨s', hStep, hWake, hInv.wakeAll hStep⟩

theorem Inv.protocol {s : Blk} (hInv : Inv s) : Protocol s where
  three t r hr := ⟨hInv.table.nodup hr, fun _ hi => hInv.table.lt hr hi⟩
  apart t u r q hr hq hNe := by
    intro i hi hAlso
    exact hNe (hInv.table.unique hr hq hi hAlso)
  ready t r hr hDone := by
    rcases hDone with hDone | hReady
    · exact hInv.serials.done t r hr hDone
    · exact hInv.serials.done t r hr (hInv.serials.ready t r hReady)
  frees t r status hPhase := by
    have hReq := req_of_phase hPhase rfl
    refine ⟨fun i hi => hInv.table.not_free hReq hi, _, _,
      freeChain_req (hInv.table.linked t r hReq) (hInv.table.nodup hReq), ?_⟩
    exact freed_iff r s.free
  completion t r hPhase hDone hStored := by
    rcases hInv.opWakes.woken t r hPhase hDone with hWoken | ⟨n, hAt⟩
    · exact hWoken
    · exact absurd hAt (hStored n)
  descriptors := hInv.descWakes.due
  callers := hInv.descWakes.callers
  arrives _ hDue := hInv.arrives hDue
  quiet hNone i hi := by
    rcases (hInv.table.held.live i).mpr hi with ⟨k, hk⟩
    cases k with
    | none => exact (List.mem_filter.mp hk).2
    | some t =>
      rw [Blk.held, hNone t] at hk
      cases hk

theorem blk_protocol (s : Blk) (hReach : Blk.Reaches s) : Protocol s :=
  (Inv.of_reaches hReach).protocol

/- Two requests in flight, a third task waits, one is done. -/
def busyActs : List Act :=
  [.submit 0 ⟨5, 64, false⟩, .submit 1 ⟨6, 128, true⟩,
    .submit 2 ⟨7, 256, false⟩, .register 2, .count 2, .listen 0, .load 0, .fetch, .fetch,
    .complete 3 0, .complete 0 0, .irq, .irqStore, .irqTake,
    .irqNext, .irqStore, .irqTake, .irqNext, .irqEnd,
    .poll 0, .listen 0, .load 0, .readStatus 0, .free 0]

theorem blk_protocol_busy : ∃ s, Blk.Reaches s ∧ Protocol s ∧
      s.phase 2 = .parked ∧ 3 ≤ freeCount s.free ∧ s.phase 0 = .freed 0 := by
  have hRun : (Machine.run Blk.step (fun _ _ => True) Blk.boot busyActs).any (fun s =>
        decide (s.phase 2 = .parked) &&
        decide (3 ≤ freeCount s.free) &&
        decide (s.phase 0 = .freed 0)) = true := by
    decide +kernel
  rcases Machine.exists_reach hRun with ⟨s, hReach, hAfter⟩
  simp only [Bool.and_eq_true, decide_eq_true_eq] at hAfter
  have hReach : Blk.Reaches s := hReach
  exact ⟨s, hReach, blk_protocol s hReach, hAfter.1.1, hAfter.1.2, hAfter.2⟩

end VirtioBlk

end PlayXv6
