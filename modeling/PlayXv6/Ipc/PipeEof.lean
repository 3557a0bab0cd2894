import PlayXv6.Ipc.PipeFifo

/-
  The end of a pipe.

  An end that is closed has no descriptor and no call left,
  so that nothing is written once `writers` is 0.  A reader
  finds the buffer empty and loads `writers` in two steps; if
  the last write end is not closed over a filled buffer
  between them, a reader that meets the end has missed
  nothing.

  Main declarations:
    * `Gone`, `EndsOk`
    * `eof_of_reach`
-/

namespace PlayXv6

open Function Machine

namespace Pipe

variable {n : Nat} {σ σ' : Sys n} {s : Shared n} {t : Fin n} {τ τ' : Task n} {e : Effect n}
variable {arcs : Side → Nat}

-- Closed Ends

/- Nobody can use the end any more. -/
def Gone (σ : Sys n) (d : Side) : Prop := σ.fds d = 0 ∧ ∀ t, (σ.tasks t).pc.holds ≠ some d

/- An end is closed only when nobody can use it. -/
def EndsOk (σ : Sys n) : Prop :=
  ∀ d, (σ.shared.ends d = 0 ∨ ∃ t, (σ.tasks t).pc = .drop d) →
    Gone σ d

theorem gone_of_arcs_ret {d : Side} (hHolds : (σ.tasks t).pc.holds = some d)
    (hArcs : σ.arcs d = 1) : σ.fds d = 0 ∧ ∀ u, u ≠ t → (σ.tasks u).pc.holds ≠ some d := by
  have hSplit := Finset.add_sum_erase Finset.univ
    (fun u => if (σ.tasks u).pc.holds = some d then 1 else 0) (Finset.mem_univ t)
  rw [if_pos hHolds] at hSplit
  unfold Sys.arcs at hArcs
  refine ⟨by omega, ?_⟩
  intro u hu hOther
  have hZero : ∑ u ∈ Finset.univ.erase t, (if (σ.tasks u).pc.holds = some d then 1 else 0) = 0 := by
    omega
  have hTerm := Finset.sum_eq_zero_iff.mp hZero u (Finset.mem_erase.mpr ⟨hu, Finset.mem_univ u⟩)
  rw [if_pos hOther] at hTerm
  simp at hTerm

theorem gone_of_arcs_close {d : Side} (hFds : 0 < σ.fds d) (hArcs : σ.arcs d = 1) :
    σ.fds d = 1 ∧ ∀ u, (σ.tasks u).pc.holds ≠ some d := by
  unfold Sys.arcs at hArcs
  refine ⟨by omega, ?_⟩
  intro u hOther
  have hZero : ∑ u, (if (σ.tasks u).pc.holds = some d then 1 else 0) = 0 := by omega
  have hTerm := Finset.sum_eq_zero_iff.mp hZero u (Finset.mem_univ u)
  rw [if_pos hOther] at hTerm
  simp at hTerm

/- Only the last holder of an end goes on to drop it. -/
theorem TaskStep.drops {d : Side} (hStep : TaskStep s arcs τ e τ') (hDrop : τ'.pc = .drop d) :
    τ.pc.holds = some d ∧ arcs d = 1 := by
  cases hStep with
  | write _ hStep | read _ hStep =>
    cases hDrop
    cases hStep
  | last hPc hArcs =>
    cases hDrop
    rw [hPc]
    exact ⟨rfl, hArcs⟩
  | _ => simp at hDrop

/- A task moves on without taking an end; an end that it drops or closes is gone. -/
theorem EndsOk.move {s' : Shared n} {fds : Side → Nat} (hEnds : EndsOk σ)
    (hFds : ∀ d, σ.fds d = 0 → fds d = 0) (hHolds : τ'.pc.holds = (σ.tasks t).pc.holds ∨
      τ'.pc.holds = none) (hDrop : ∀ d, τ'.pc = .drop d → fds d = 0 ∧ ∀ u, u ≠ t →
        (σ.tasks u).pc.holds ≠ some d) (hZero : ∀ d, s'.ends d = 0 → σ.shared.ends d = 0 ∨
      (σ.tasks t).pc = .drop d) :
    EndsOk { σ.setTask t τ' with
      shared := s'
      fds := fds } := by
  have hGone : ∀ d, Gone σ d →
      Gone { σ.setTask t τ' with
        shared := s'
        fds := fds } d := by
    intro d hGone
    refine ⟨hFds d hGone.1, (forall_update_iff σ.tasks fun _ τ => ¬ τ.pc.holds = some d).mpr
      ⟨?_, fun u _ => hGone.2 u⟩⟩
    have hOld := hGone.2 t
    grind
  intro d hClosed
  rcases hClosed with hEnd | ⟨u, hu⟩
  · exact hGone d (hEnds d ((hZero d hEnd).imp_right fun hPc => ⟨t, hPc⟩))
  · change (update σ.tasks t τ' u).pc = .drop d at hu
    by_cases hut : u = t
    · rw [hut, update_self] at hu
      rcases hDrop d hu with ⟨hNone, hOthers⟩
      exact ⟨hNone, (forall_update_iff σ.tasks fun _ τ => τ.pc.holds ≠ some d).mpr
        ⟨by simp [hu, Pc.holds], hOthers⟩⟩
    · rw [update_of_ne hut] at hu
      exact hGone d (hEnds d (Or.inr ⟨u, hu⟩))

theorem EndsOk.start {d : Side} (hEnds : EndsOk σ) (hFds : 0 < σ.fds d)
    (hHolds : τ'.pc.holds = some d) (calls : Nat) (sent : Nat → List UInt8) :
    EndsOk { σ.setTask t τ' with
      calls := calls
      sent := sent } := by
  intro d' hClosed
  have hOld : Gone σ d' := by
    refine hEnds d' (hClosed.imp_right ?_)
    rintro ⟨u, hu⟩
    simp only [Sys.setTask, update_apply] at hu
    exact ⟨u, by grind [Pc.holds]⟩
  refine ⟨hOld.1, (forall_update_iff σ.tasks fun _ τ => τ.pc.holds ≠ some d').mpr
    ⟨?_, fun u _ => hOld.2 u⟩⟩
  grind [hOld.1]

theorem holds_repoll {p p' : Pc n} (hRepoll : p.repoll = some p') :
    p'.holds = p.holds ∧ ∀ d, p' ≠ .drop d := by
  rcases Pc.repoll_cases hRepoll with ⟨rfl, rfl⟩ | ⟨c, k, b, rfl, rfl⟩ | ⟨c, k, rfl, rfl⟩ <;>
    exact ⟨rfl, by simp⟩

/- An end comes to 0 by a drop, which goes on to wake. -/
theorem ends_apply (hComes : e.Comes s τ τ') {d : Side} (hZero : (s.apply t e).ends d = 0) :
    s.ends d = 0 ∨ τ.pc = .drop d ∧ τ'.pc = .dropWake d .take := by
  revert hZero
  refine hComes.elim (motive := fun e => (s.apply t e).ends d = 0 →
    s.ends d = 0 ∨ τ.pc = .drop d ∧ τ'.pc = .dropWake d .take) t ?_ ?_ ?_ ?_
  · intro _ hEnds _ _ hZero
    rw [hEnds] at hZero
    exact Or.inl hZero
  · exact fun _ _ _ _ _ _ _ hZero => Or.inl hZero
  · exact fun _ _ _ _ _ _ _ hZero => Or.inl hZero
  · intro d' hPc hPc' hZero
    simp only [Shared.apply, update_apply] at hZero
    grind

theorem endsOk_step {a : Act n} (hEnds : EndsOk σ) (hStep : σ.step a = some σ') : EndsOk σ' := by
  cases a with
  | write t user bufVa len nonblock =>
    simp only [Sys.step] at hStep
    split at hStep <;> cases hStep
    rename_i hGuard
    exact hEnds.start hGuard.2 rfl _ _
  | read t user bufVa len nonblock =>
    simp only [Sys.step] at hStep
    split at hStep <;> cases hStep
    rename_i hGuard
    exact hEnds.start hGuard.2.1 rfl _ _
  | step t =>
    simp only [Sys.step] at hStep
    rcases Option.map_eq_some_iff.mp hStep with ⟨⟨e, τ'⟩, hNext, rfl⟩
    have hMove := Task.next_step hNext
    rcases hMove.comes with ⟨hComes, hId⟩
    refine hEnds.move (fun _ => id) (hId.imp And.right And.right) ?_
      (fun d hZero => (ends_apply hComes hZero).imp id And.left)
    intro d hDrop
    rcases hMove.drops hDrop with ⟨hHolds, hArcs⟩
    exact gone_of_arcs_ret hHolds hArcs
  | poll t =>
    simp only [Sys.step] at hStep
    split at hStep
    · simp at hStep
    rcases Option.map_eq_some_iff.mp hStep with ⟨p, hRepoll, rfl⟩
    rcases holds_repoll hRepoll with ⟨hHolds, hNot⟩
    exact hEnds.move (fun _ => id) (Or.inl hHolds) (fun d hDrop => absurd hDrop (hNot d))
      (fun d hZero => Or.inl hZero)
  | wake t =>
    cases hStep
    exact hEnds
  | kill t =>
    cases hStep
    have hMove : EndsOk { σ.setTask t { σ.tasks t with killed := true } with
          shared := σ.shared } := by
      refine hEnds.move (fun _ => id) (Or.inl rfl) ?_ (fun d hZero => Or.inl hZero)
      intro d hDrop
      have hGone := hEnds d (Or.inr ⟨t, hDrop⟩)
      exact ⟨hGone.1, fun u _ => hGone.2 u⟩
    exact hMove
  | dup d =>
    simp only [Sys.step] at hStep
    split at hStep <;> cases hStep
    rename_i hFds
    intro d' hClosed
    have hGone : Gone σ d' := hEnds d' hClosed
    refine ⟨?_, hGone.2⟩
    simp only [update_apply]
    grind [hGone.1]
  | close t d =>
    simp only [Sys.step] at hStep
    split at hStep <;> cases hStep
    rename_i hGuard
    have hLess : ∀ d', σ.fds d' = 0 → update σ.fds d (σ.fds d - 1) d' = 0 := by
      intro d' hZero
      rw [update_apply]
      grind
    have hMove : EndsOk { σ.setTask t
        { σ.tasks t with
          pc := if σ.arcs d = 1 then .drop d
            else .user } with
        shared := σ.shared
        fds := update σ.fds d (σ.fds d - 1) } := by
      refine hEnds.move hLess (Or.inr ?_) ?_ (fun d hZero => Or.inl hZero)
      · dsimp only
        split <;> rfl
      · intro d' hDrop
        dsimp only at hDrop
        split at hDrop <;> cases hDrop
        rename_i hArcs
        rcases gone_of_arcs_close hGuard.2 hArcs with ⟨hOne, hOthers⟩
        refine ⟨?_, fun u _ => hOthers u⟩
        rw [update_self, hOne]
    exact hMove

-- Readers

/- A reader has found the buffer empty and is about to load `writers`. -/
def Pc.awaits : Pc n → Bool
  | .read _ _ .writers => true
  | .read _ _ .nbWriters => true
  | _ => false

def Pc.isEof : Pc n → Bool
  | .ret .read _ _ true => true
  | _ => false

/-
  The last write end is not closed, with bytes in the buffer,
  while a reader stands between its pop and its load of
  `writers`.
-/
def ClosesQuiet (σ : Sys n) : Act n → Prop
  | .step t => (σ.tasks t).pc = .drop .write → σ.shared.buf = [] ∨
        ∀ u, (σ.tasks u).pc.awaits = false
  | _ => True

/-
  A read returns 0 only at the end, or if it is killed: it
  is asked for a byte, and has stored one before it checks
  whether there are more.
-/
def CountOk (τ : Task n) : Prop :=
  match τ.pc with
  | .read c k r => 0 < c.len ∧ (r = .check → 0 < k)
  | .ret .read _ r false => r = 0 → τ.killed
  | _ => True

theorem partialCount_ne_zero (k : Nat) : partialCount k ≠ 0 := by
  unfold partialCount
  split <;> omega

theorem ReadStep.count {c : Call} {k : Nat} {r : ReadPc n} {p : Pc n} {u : User}
    (hLen : 0 < c.len) (hCheck : r = .check → 0 < k) (hStep : ReadStep s τ c k r e p u) :
    CountOk { τ with pc := p, user := u } := by
  have hNone := partialCount_ne_zero k
  cases hStep with
  | done hDone =>
    intro hZero
    omega
  | killed hKilled => exact fun _ => hKilled
  | empty =>
    have hPos := hCheck rfl
    intro hZero
    omega
  | eof _ _ => trivial
  | again | fault _ => exact fun hZero => absurd hZero hNone
  | start _ hr =>
    rcases hr with rfl | rfl <;> exact ⟨hLen, by simp⟩
  | store => exact ⟨hLen, fun _ => Nat.succ_pos k⟩
  | _ => exact ⟨hLen, by simp⟩

/- A reader that meets the end has just seen no writer. -/
theorem ReadStep.ends {c : Call} {k : Nat} {r : ReadPc n} {p : Pc n} {u : User}
    (hStep : ReadStep s τ c k r e p u) : (p.awaits → s.buf = [] ∧ e = .skip) ∧
      (p.isEof → (Pc.read c k r).awaits ∧ s.ends .write = 0 ∧ e = .skip) := by
  cases hStep with
  | eof hr hZero =>
    refine ⟨by simp [Pc.awaits], fun _ => ⟨?_, hZero, rfl⟩⟩
    rcases hr with rfl | rfl <;> rfl
  | nbWriters hBuf | writers hBuf => exact ⟨fun _ => ⟨hBuf, rfl⟩, by simp [Pc.isEof]⟩
  | start _ hr =>
    rcases hr with rfl | rfl <;> simp [Pc.awaits, Pc.isEof]
  | _ => simp [Pc.awaits, Pc.isEof]

theorem not_end_of_holds {p : Pc n} (hHolds : p.holds ≠ some .read) :
    p.awaits = false ∧ p.isEof = false := by
  cases p with
  | ret d c r eof => cases d <;> simp_all [Pc.holds, Pc.awaits, Pc.isEof]
  | _ => simp_all [Pc.holds, Pc.awaits, Pc.isEof]

theorem countOk_of_holds (hHolds : τ.pc.holds ≠ some .read) : CountOk τ := by
  unfold CountOk
  grind [Pc.holds]

theorem TaskStep.ends (hCount : CountOk τ) (hStep : TaskStep s arcs τ e τ') :
    (τ'.pc.awaits → s.buf = [] ∧ e = .skip) ∧ (τ'.pc.isEof → τ.pc.awaits ∧ s.ends .write = 0 ∧
        e = .skip) ∧ CountOk τ' := by
  have hOther : τ'.pc.holds ≠ some .read → (τ'.pc.awaits → s.buf = [] ∧ e = .skip) ∧
      (τ'.pc.isEof → τ.pc.awaits ∧ s.ends .write = 0 ∧ e = .skip) ∧ CountOk τ' := by
    intro hHolds
    rcases not_end_of_holds hHolds with ⟨hAwaits, hEof⟩
    rw [hAwaits, hEof]
    exact ⟨by simp, by simp, countOk_of_holds hHolds⟩
  cases hStep with
  | read hPc hStep =>
    unfold CountOk at hCount
    rw [hPc] at hCount ⊢
    exact ⟨hStep.ends.1, hStep.ends.2, hStep.count hCount.1 hCount.2⟩
  | write hPc hStep =>
    refine hOther ?_
    rw [hStep.stays.2]
    simp
  | _ => exact hOther (by simp [Pc.holds])

-- Runs

/- A reader that meets the end finds nothing left. -/
structure EofOk (σ : Sys n) : Prop where
  ends : EndsOk σ
  awaits : ∀ t, (σ.tasks t).pc.awaits → σ.shared.ends .write = 0 → σ.shared.buf = []
  eof : ∀ t, (σ.tasks t).pc.isEof → σ.shared.ends .write = 0 ∧ σ.shared.buf = []
  counts : ∀ t, CountOk (σ.tasks t)

theorem eofOk_new (tasks : Fin n → Task n) : EofOk (Sys.new tasks) where
  ends d hClosed := by
    rcases hClosed with hEnd | ⟨t, ht⟩
    · simp [Sys.new] at hEnd
    · simp [Sys.new] at ht
  awaits t ht := by simp [Sys.new, Pc.awaits] at ht
  eof t ht := by simp [Sys.new, Pc.isEof] at ht
  counts t := trivial

/-
  A task moves on to where it neither awaits nor has met the
  end, unless it stood there, and the buffer is left alone.
-/
theorem EofOk.retask (hOk : EofOk σ) (hEnds : EndsOk σ') (hBuf : σ'.shared.buf = σ.shared.buf)
    (hCount : σ'.shared.ends = σ.shared.ends) (hTasks : σ'.tasks = update σ.tasks t τ')
    (hAwaits : τ'.pc.awaits → (σ.tasks t).pc.awaits) (hEof : τ'.pc.isEof → (σ.tasks t).pc.isEof)
    (hCounts : CountOk τ') : EofOk σ' := by
  refine ⟨hEnds, ?_, ?_, ?_⟩
  · intro u hu hZero
    have hOld := hOk.awaits u
    simp only [hTasks, update_apply] at hu
    grind
  · intro u hu
    have hOld := hOk.eof u
    simp only [hTasks, update_apply] at hu
    grind
  · rw [hTasks]
    exact (forall_update_iff σ.tasks fun _ τ => CountOk τ).mpr ⟨hCounts, fun u _ => hOk.counts u⟩

/- Once the last writer is gone, nothing is added. -/
theorem EndsOk.buf_apply (hEnds : EndsOk σ) (hComes : e.Comes σ.shared (σ.tasks t) τ')
    (hZero : σ.shared.ends .write = 0) (hBuf : σ.shared.buf = []) :
    (σ.shared.apply t e).ends .write = 0 ∧ (σ.shared.apply t e).buf = [] := by
  refine hComes.elim (motive := fun e =>
    (σ.shared.apply t e).ends .write = 0 ∧ (σ.shared.apply t e).buf = []) t ?_ ?_ ?_ ?_
  · intro hSameBuf hSameEnds _ _
    rw [hSameBuf, hSameEnds]
    exact ⟨hZero, hBuf⟩
  · intro c k w b hPc _ _
    have hGone := (hEnds .write (Or.inl hZero)).2 t
    simp [hPc, Pc.holds] at hGone
  · intro c k r b _ hHead _
    simp [hBuf] at hHead
  · intro d _ _
    refine ⟨?_, hBuf⟩
    simp only [Shared.apply, update_apply]
    grind

theorem EofOk.stepTask (hOk : EofOk σ) (hQuiet : ClosesQuiet σ (.step t))
    (hStep : TaskStep σ.shared arcs (σ.tasks t) e τ')
    (hEnds : EndsOk { σ.setTask t τ' with
      shared := σ.shared.apply t e }) :
    EofOk { σ.setTask t τ' with
      shared := σ.shared.apply t e } := by
  have hComes := hStep.comes.1
  rcases hStep.ends (hOk.counts t) with ⟨hAwaits, hEof, hCounts⟩
  refine ⟨hEnds, ?_, ?_, ?_⟩
  · intro u hu hZero
    change (update σ.tasks t τ' u).pc.awaits at hu
    by_cases hut : u = t
    · rw [hut, update_self] at hu
      rcases hAwaits hu with ⟨hBuf, rfl⟩
      exact hBuf
    · rw [update_of_ne hut] at hu
      rcases ends_apply hComes hZero with hOld | ⟨hDrop, -⟩
      · exact (hOk.ends.buf_apply hComes hOld (hOk.awaits u hu hOld)).2
      · -- the last write end is being closed
        have hBuf : σ.shared.buf = [] := by
          rcases hQuiet hDrop with hBuf | hNone
          · exact hBuf
          · rw [hNone u] at hu
            simp at hu
        cases hStep with
        | drop _ => exact hBuf
        | _ => simp_all
  · intro u hu
    change (update σ.tasks t τ' u).pc.isEof at hu
    by_cases hut : u = t
    · rw [hut, update_self] at hu
      rcases hEof hu with ⟨hAwait, hZero, rfl⟩
      exact ⟨hZero, hOk.awaits t hAwait hZero⟩
    · rw [update_of_ne hut] at hu
      rcases hOk.eof u hu with ⟨hZero, hBuf⟩
      exact hOk.ends.buf_apply hComes hZero hBuf
  · exact (forall_update_iff σ.tasks fun _ τ => CountOk τ).mpr ⟨hCounts, fun u _ => hOk.counts u⟩

theorem repoll_end {p p' : Pc n} (hRepoll : p.repoll = some p') :
    p'.awaits = false ∧ p'.isEof = false := by
  rcases Pc.repoll_cases hRepoll with ⟨rfl, rfl⟩ | ⟨c, k, b, rfl, rfl⟩ | ⟨c, k, rfl, rfl⟩ <;>
    exact ⟨rfl, rfl⟩

theorem countOk_repoll {p : Pc n} (hCount : CountOk τ) (hRepoll : τ.pc.repoll = some p) :
    CountOk { τ with pc := p } := by
  rcases Pc.repoll_cases hRepoll with ⟨-, rfl⟩ | ⟨c, k, b, -, rfl⟩ | ⟨c, k, hPc, rfl⟩
  · trivial
  · trivial
  · unfold CountOk at hCount
    rw [hPc] at hCount
    exact ⟨hCount.1, by simp⟩

theorem eofOk_step {a : Act n} (hOk : EofOk σ) (hQuiet : ClosesQuiet σ a)
    (hStep : σ.step a = some σ') : EofOk σ' := by
  have hEnds := endsOk_step hOk.ends hStep
  cases a with
  | write t user bufVa len nonblock =>
    simp only [Sys.step] at hStep
    split at hStep <;> cases hStep
    exact hOk.retask hEnds rfl rfl rfl (by simp [Pc.awaits]) (by simp [Pc.isEof]) trivial
  | read t user bufVa len nonblock =>
    simp only [Sys.step] at hStep
    split at hStep <;> cases hStep
    rename_i hGuard
    exact hOk.retask hEnds rfl rfl rfl (by simp [Pc.awaits])
      (by simp [Pc.isEof]) ⟨hGuard.2.2, by simp⟩
  | step t =>
    simp only [Sys.step] at hStep
    rcases Option.map_eq_some_iff.mp hStep with ⟨⟨e, τ'⟩, hNext, rfl⟩
    exact hOk.stepTask hQuiet (Task.next_step hNext) hEnds
  | poll t =>
    simp only [Sys.step] at hStep
    split at hStep
    · simp at hStep
    rcases Option.map_eq_some_iff.mp hStep with ⟨p, hRepoll, rfl⟩
    rcases repoll_end hRepoll with ⟨hAwaits, hEof⟩
    exact hOk.retask hEnds rfl rfl rfl (by simp [hAwaits]) (by simp [hEof])
      (countOk_repoll (hOk.counts t) hRepoll)
  | wake t =>
    cases hStep
    exact { hOk with ends := hEnds }
  | kill t =>
    cases hStep
    refine hOk.retask hEnds rfl rfl rfl id id ?_
    have hCount := hOk.counts t
    unfold CountOk at hCount ⊢
    grind
  | dup d =>
    simp only [Sys.step] at hStep
    split at hStep <;> cases hStep
    exact { hOk with ends := hEnds }
  | close t d =>
    simp only [Sys.step] at hStep
    split at hStep <;> cases hStep
    have hHolds : (if σ.arcs d = 1 then Pc.drop d
        else (.user : Pc n)).holds ≠ some .read := by split <;> simp [Pc.holds]
    rcases not_end_of_holds hHolds with ⟨hAwaits, hEof⟩
    exact hOk.retask hEnds rfl rfl rfl (by simp [hAwaits])
      (by simp [hEof]) (countOk_of_holds hHolds)

/-
  If no last write end is closed in that window, a read that
  meets the end, or returns 0 without being killed, has left
  nothing behind.
-/
theorem eof_of_reach {tasks : Fin n → Task n} (hReach : Reach Sys.step ClosesQuiet
      (Sys.new tasks) σ) {c : Call} {r : Int} {eof : Bool}
    (hPc : (σ.tasks t).pc = .ret .read c r eof) (hEnd : eof = true ∨
      (r = 0 ∧ (σ.tasks t).killed = false)) : σ.shared.buf = [] ∧ σ.shared.popped.map Item.byte =
        σ.shared.pushed.map Item.byte := by
  have hOk : EofOk σ := hReach.invariant (fun m a m' hm hQuiet hStep => eofOk_step hm hQuiet hStep)
      (eofOk_new tasks)
  have hFifo : Tracked σ := hReach.invariant (fun m a m' hm _ hStep => tracked_step hm hStep)
      (tracked_new tasks)
  have hEof : eof = true := by
    rcases hEnd with hEof | ⟨hZero, hAlive⟩
    · exact hEof
    · cases eof with
      | true => rfl
      | false =>
        have hCount := hOk.counts t
        unfold CountOk at hCount
        rw [hPc] at hCount
        have hKilled := hCount hZero
        rw [hAlive] at hKilled
        simp at hKilled
  have hBuf := (hOk.eof t (by rw [hPc, hEof]; rfl)).2
  have hHistory := hFifo.history
  rw [hBuf, List.append_nil] at hHistory
  exact ⟨hBuf, hHistory.symm⟩

instance (σ : Sys n) (a : Act n) : Decidable (ClosesQuiet σ a) := by
  unfold ClosesQuiet
  cases a <;> infer_instance

/- A byte is written and read, and then the end is met. -/
theorem eof_of_reach_sample : ∃ σ : Sys 2, (∃ c, (σ.tasks 1).pc = .ret .read c 0 true) ∧
      σ.shared.buf = [] ∧ σ.shared.popped.map Item.byte = σ.shared.pushed.map Item.byte ∧
            σ.shared.popped.length = 1 := by
  have hRun : (run Sys.step ClosesQuiet (Sys.new (sampleTasks 2))
      (.write 0 sampleUser 10 1 false :: (List.replicate 9 (.step 0) ++
          .close 0 .write :: .step 0 :: .read 1 sampleUser 100 4 false ::
              (List.replicate 10 (.step 1) ++ .read 1 sampleUser 100 4 true ::
                  List.replicate 3 (.step 1))))).any (fun σ => σ.shared.popped.length == 1 &&
          (σ.tasks 1).pc == .ret .read ⟨2, 100, 4, true⟩ 0 true) = true := by decide +kernel
  rcases exists_reach hRun with ⟨σ, hReach, hCheck⟩
  rw [Bool.and_eq_true, beq_iff_eq, beq_iff_eq] at hCheck
  rcases hCheck with ⟨hPopped, hPc⟩
  rcases eof_of_reach hReach hPc (Or.inl rfl) with ⟨hBuf, hAll⟩
  exact ⟨σ, ⟨_, hPc⟩, hBuf, hAll, hPopped⟩

/-
  A reader finds the buffer empty, a writer writes a byte and
  closes the last write end, and the reader loads `writers`.
-/
theorem eof_premature : ∃ (tasks : Fin 2 → Task 2) (σ : Sys 2) (c : Call),
      Reach Sys.step (fun _ _ => True) (Sys.new tasks) σ ∧
        (σ.tasks 1).pc = .ret .read c 0 true ∧ (σ.tasks 1).killed = false ∧
            σ.shared.buf = [10] := by
  have hRun : (run Sys.step (fun _ _ => True) (Sys.new (sampleTasks 2))
      (.read 1 sampleUser 100 4 false :: (List.replicate 4 (.step 1) ++
          .write 0 sampleUser 10 1 false :: (List.replicate 10 (.step 0) ++
              [.close 0 .write, .step 0, .step 1])))).any (fun σ => !(σ.tasks 1).killed &&
        (σ.shared.buf == [10] &&
          (σ.tasks 1).pc == .ret .read ⟨0, 100, 4, false⟩ 0 true)) = true := by decide +kernel
  rcases exists_reach hRun with ⟨σ, hReach, hCheck⟩
  rw [Bool.and_eq_true, Bool.and_eq_true, beq_iff_eq, beq_iff_eq, Bool.not_eq_true'] at hCheck
  rcases hCheck with ⟨hAlive, hBuf, hPc⟩
  exact ⟨sampleTasks 2, σ, _, hReach, hPc, hAlive, hBuf⟩

end Pipe

end PlayXv6
