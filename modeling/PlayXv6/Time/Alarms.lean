import PlayXv6.Lib.Holders
import PlayXv6.Lib.Machine
import PlayXv6.Time.Timers
import PlayXv6.Time.Waits

/-
  Alarms from the call that sets them to their signal.

  `sys_alarm` counts up the generation of its process and
  adds an entry with it.  A timer interrupt takes the entries
  that are due off the list, and for each one compares the
  generation and then raises SIGALRM, while other harts and
  the process go on.

  Main declarations:
    * `Alarms.step`
    * `respected_of_reach`
-/

namespace PlayXv6

open Function Machine

namespace Time

/- An entry, with the number of the call of its process that made it. -/
structure Entry extends AlarmEntry where
  call : Nat
  deriving DecidableEq

def Entry.id (e : Entry) : Nat × Nat := (e.targetPid, e.call)

/- Where an entry is: in a call before `add_alarm`, in `ALARMS`, taken off by some
   hart, past its check there, or done with. -/
inductive Place where
  | call (p : Nat)
  | alarms
  | due
  | raising
  | skipped
  | raised
  deriving DecidableEq

/-
  The calls of each process are counted as they begin and as
  they return.  `wrong` is set by a signal before its deadline
  or after the return of a later call.
-/
structure Alarms where
  now : Nat
  generation : Nat → UInt32
  held : Place → List Entry
  calls : Nat → Nat
  returned : Nat → Nat
  wrong : Bool

namespace Alarms

def boot : Alarms := ⟨0, fun _ => 0, fun _ => [], fun _ => 0, fun _ => 0, false⟩

/- The clock is read before the step that uses it, and `found` is the answer of
   `find_proc_by_pid`. -/
inductive Act where
  | tick (cycles : Nat)
  | sysAlarm (p : Nat) (seconds : UInt32) (now : UInt64)
  | addAlarm (p : Nat)
  | ret (p : Nat)
  | drain (now : Nat)
  | check (e : Entry) (found : Bool)
  | raise (e : Entry)

def move (s : Alarms) (i j : Place) (source target : List Entry) : Alarms :=
  { s with held := update (update s.held i source) j target }

def step (s : Alarms) : Act → Option Alarms
  | .tick cycles => some { s with now := s.now + cycles }
  | .sysAlarm p seconds now =>
    if s.returned p = s.calls p then
      let gen := s.generation p + 1
      let deadline := (now + seconds.toUInt64 * TIMER_INTERVAL).toNat
      let e : Entry := ⟨⟨deadline, p, gen⟩, s.calls p + 1⟩
      some { s with
        generation := update s.generation p gen
        calls := update s.calls p (s.calls p + 1)
        held := if seconds = 0 then s.held
          else update s.held (.call p) (e :: s.held (.call p)) }
    else
      none
  | .addAlarm p =>
    match s.held (.call p) with
    | e :: rest =>
      some (s.move (.call p) .alarms rest (DueQueue.insert (·.deadline) e (s.held .alarms)))
    | [] => none
  | .ret p =>
    if s.held (.call p) = [] then some { s with returned := update s.returned p (s.calls p) }
    else none
  | .drain now =>
    if now ≤ s.now then
      let (due, rest) := DueQueue.drain (·.deadline) now (s.held .alarms)
      some (s.move .alarms .due rest (due ++ s.held .due))
    else
      none
  | .check e found =>
    if e ∈ s.held .due then
      let place := if found ∧ s.generation e.targetPid = e.generation then .raising else .skipped
      some (s.move .due place ((s.held .due).erase e) (e :: s.held place))
    else
      none
  | .raise e =>
    if e ∈ s.held .raising then
      some { s.move .raising .raised ((s.held .raising).erase e) (e :: s.held .raised) with
        wrong := s.wrong || s.now < e.deadline || e.call < s.returned e.targetPid }
    else
      none

/- No call has two signals, and none is wrong. -/
def Respected (s : Alarms) : Prop := ((s.held .raised).map Entry.id).Nodup ∧ s.wrong = false

/-
  When a process counts up its generation, none of its
  signals is between check and raise, and it has not made
  `2 ^ 32` calls.
-/
def Ok (s : Alarms) : Act → Prop
  | .sysAlarm p _ _ => s.calls p + 1 < 2 ^ 32 ∧ ∀ e ∈ s.held .raising, e.targetPid ≠ p
  | _ => True

instance (s : Alarms) : (a : Act) → Decidable (s.Ok a)
  | .sysAlarm p _ _ => inferInstanceAs (Decidable (_ ∧ ∀ e ∈ s.held .raising, e.targetPid ≠ p))
  | .tick _ | .addAlarm _ | .ret _ | .drain _ | .check _ _ | .raise _ =>
    inferInstanceAs (Decidable True)

structure Inv (s : Alarms) : Prop where
  once : ∃ Live, Holders (fun i => (s.held i).map Entry.id) Live
  entry : ∀ i, ∀ e ∈ s.held i, e.call ≤ s.calls e.targetPid ∧ e.generation = UInt32.ofNat e.call
  proc : ∀ p, s.generation p = UInt32.ofNat (s.calls p) ∧ s.calls p < 2 ^ 32 ∧
    s.returned p ≤ s.calls p
  due : ∀ e ∈ s.held .due ++ s.held .raising, e.deadline ≤ s.now
  raising : ∀ e ∈ s.held .raising, e.call = s.calls e.targetPid
  fine : s.wrong = false

variable {s s' : Alarms} {i j : Place} {l source target : List Entry} {e : Entry}

/- Entries go from `i` to `j`, where they fit in. -/
theorem Inv.move (hInv : Inv s) (hNe : i ≠ j) (hFrom : (s.held i).Perm (l ++ source))
    (hTo : target.Perm (l ++ s.held j))
    (hDue : j = .due ∨ j = .raising → ∀ e ∈ l, e.deadline ≤ s.now)
    (hRaising : j = .raising → ∀ e ∈ l, e.call = s.calls e.targetPid) :
    Inv (s.move i j source target) := by
  have hMem : ∀ k, ∀ e ∈ update (update s.held i source) j target k, e ∈ s.held k ∨ k = j ∧ e ∈ l :=
    by
    intro k e he
    by_cases hj : k = j
    · subst hj
      rw [update_self] at he
      exact (List.mem_append.mp (hTo.mem_iff.mp he)).symm.imp id fun h => ⟨rfl, h⟩
    · rw [update_of_ne hj] at he
      by_cases hi : k = i
      · subst hi
        rw [update_self] at he
        exact .inl (hFrom.mem_iff.mpr (List.mem_append_right _ he))
      · rw [update_of_ne hi] at he
        exact .inl he
  rcases hInv.once with ⟨Live, hHold⟩
  refine { hInv with once := ⟨Live, ?_⟩, entry := ?_, due := ?_, raising := ?_ }
  · refine hHold.transfer (l := l.map Entry.id) hNe ?_ ?_ ?_ fun _ => Iff.rfl
    · simpa [Alarms.move, update_of_ne hNe] using hFrom.map Entry.id
    · simpa [Alarms.move] using hTo.map Entry.id
    · intro k hi hj
      simp [Alarms.move, update_of_ne hi, update_of_ne hj]
  · intro k e he
    rcases hMem k e he with he | ⟨_, he⟩
    · exact hInv.entry k e he
    · exact hInv.entry i e (hFrom.mem_iff.mpr (List.mem_append_left _ he))
  · intro e he
    have hOld := hInv.due e
    rw [List.mem_append] at he hOld
    rcases he with he | he <;> rcases hMem _ e he with he | ⟨hj, he⟩
    · exact hOld (.inl he)
    · exact hDue (.inl hj.symm) e he
    · exact hOld (.inr he)
    · exact hDue (.inr hj.symm) e he
  · intro e he
    rcases hMem _ e he with he | ⟨hj, he⟩
    · exact hInv.raising e he
    · exact hRaising hj.symm e he

theorem Inv.count {p : Nat} (hInv : Inv s) (hOk : s.calls p + 1 < 2 ^ 32)
    (hNone : ∀ e ∈ s.held .raising, e.targetPid ≠ p) :
    Inv { s with
      generation := update s.generation p (s.generation p + 1)
      calls := update s.calls p (s.calls p + 1) } := by
  have hMore : ∀ q, s.calls q ≤ update s.calls p (s.calls p + 1) q := by
    intro q
    by_cases hq : q = p <;> simp [hq]
  refine { hInv with entry := ?_, proc := ?_, raising := ?_ }
  · intro k e he
    rcases hInv.entry k e he with ⟨hLe, hGen⟩
    exact ⟨hLe.trans (hMore _), hGen⟩
  · intro q
    rcases hInv.proc q with ⟨hGen, hLt, hLe⟩
    by_cases hq : q = p
    · subst hq
      simp only [update_self, hGen]
      exact ⟨(UInt32.ofNat_add _ 1).symm, hOk, by omega⟩
    · simp only [update_of_ne hq]
      exact ⟨hGen, hLt, hLe⟩
  · exact fun e he => (hInv.raising e he).trans (update_of_ne (hNone e he) _ _).symm

/- The entry of a call that has just begun is new. -/
theorem Inv.begin (hInv : Inv s) (hCall : e.call = s.calls e.targetPid)
    (hGen : e.generation = s.generation e.targetPid)
    (hNew : ∀ k, ∀ x ∈ s.held k, x.targetPid = e.targetPid → x.call < e.call) :
    Inv { s with
      held := update s.held (.call e.targetPid) (e :: s.held (.call e.targetPid)) } := by
  rcases hInv.once with ⟨Live, hHold⟩
  have hNot : ¬Live e.id := by
    intro hLive
    rcases (hHold.live _).mpr hLive with ⟨k, hk⟩
    rcases List.mem_map.mp hk with ⟨x, hx, hId⟩
    rcases Prod.mk.inj hId with ⟨hPid, hEq⟩
    exact (hNew k x hx hPid).ne hEq
  refine ⟨⟨_, hHold.insert (i := .call e.targetPid) hNot ?_ ?_ fun _ => .rfl⟩, ?_, hInv.proc,
    hInv.due, hInv.raising, hInv.fine⟩
  · simp
  · intro k hk
    simp [update_of_ne hk]
  · refine (forall_update_iff s.held fun _ l => ∀ x ∈ l, x.call ≤ s.calls x.targetPid ∧
      x.generation = UInt32.ofNat x.call).mpr ⟨?_, fun k _ => hInv.entry k⟩
    refine List.forall_mem_cons.mpr ⟨⟨hCall.le, ?_⟩, hInv.entry _⟩
    rw [hGen, (hInv.proc _).1, hCall]

theorem Inv.step {a : Act} (hInv : Inv s) (hOk : s.Ok a) (hStep : s.step a = some s') : Inv s' := by
  cases a with
  | tick cycles =>
    cases hStep
    exact { hInv with due := fun e he => (hInv.due e he).trans (Nat.le_add_right _ _) }
  | sysAlarm p seconds now =>
    rcases Option.ite_none_right_eq_some.mp hStep with ⟨_, ⟨⟩⟩
    have hCount := hInv.count hOk.1 hOk.2
    split
    · exact hCount
    · refine hCount.begin (e := ⟨⟨_, p, _⟩, _⟩) ?_ ?_ ?_
      · simp
      · simp
      · rintro k x hx rfl
        exact Nat.lt_succ_of_le (hInv.entry k x hx).1
  | addAlarm p =>
    simp only [Alarms.step] at hStep
    split at hStep <;> cases hStep
    rename_i e rest hHeld
    exact hInv.move (l := [e]) (by simp) (.of_eq hHeld) DueQueue.insert_perm (by simp) (by simp)
  | ret p =>
    rcases Option.ite_none_right_eq_some.mp hStep with ⟨_, ⟨⟩⟩
    refine { hInv with proc := fun q => ?_ }
    rcases hInv.proc q with ⟨hGen, hLt, hLe⟩
    refine ⟨hGen, hLt, ?_⟩
    by_cases hq : q = p
    · simp [hq]
    · simpa [update_of_ne hq] using hLe
  | drain now =>
    rcases Option.ite_none_right_eq_some.mp hStep with ⟨hNow, ⟨⟩⟩
    rcases DueQueue.drain_spec (fun e : Entry => e.deadline) now (s.held .alarms) with ⟨hAll, hLe⟩
    refine hInv.move (by simp) (.of_eq hAll) (.refl _) ?_ (by simp)
    exact fun _ e he => (hLe e he).trans hNow
  | check e found =>
    rcases Option.ite_none_right_eq_some.mp hStep with ⟨hMem, ⟨⟩⟩
    refine hInv.move (l := [e]) ?_ (List.perm_cons_erase hMem) (.refl _) ?_ ?_
    · split <;> simp
    · intro _ x hx
      rw [List.mem_singleton.mp hx]
      exact hInv.due e (List.mem_append_left _ hMem)
    · intro hTo x hx
      rw [List.mem_singleton.mp hx]
      -- the generations agree, so the calls do
      have hFound : found ∧ s.generation e.targetPid = e.generation := by
        by_contra hNot
        rw [if_neg hNot] at hTo
        cases hTo
      rcases hInv.entry _ e hMem with ⟨hLe, hGen⟩
      rcases hInv.proc e.targetPid with ⟨hAt, hLt, _⟩
      have hSame := congrArg UInt32.toNat (hGen.symm.trans (hFound.2.symm.trans hAt))
      rw [UInt32.toNat_ofNat_of_lt' hLt, UInt32.toNat_ofNat_of_lt' (hLe.trans_lt hLt)] at hSame
      exact hSame
  | raise e =>
    rcases Option.ite_none_right_eq_some.mp hStep with ⟨hMem, ⟨⟩⟩
    have hMove : Inv (s.move .raising .raised ((s.held .raising).erase e) (e :: s.held .raised)) :=
      hInv.move (l := [e]) (by simp) (List.perm_cons_erase hMem) (.refl _) (by simp) (by simp)
    have hTime := hInv.due e (List.mem_append_right _ hMem)
    have hReturned := (hInv.proc e.targetPid).2.2
    refine { hMove with fine := ?_ }
    simp [hInv.fine, hTime, hInv.raising e hMem, hReturned]

theorem Inv.boot : Inv boot := by
  refine ⟨⟨fun _ => False, ?_⟩, ?_, ?_, ?_, ?_, rfl⟩
  · constructor <;> simp [Alarms.boot]
  all_goals simp [Alarms.boot]

theorem respected_of_reach (s : Alarms) (hReach : Reach step Ok boot s) : Respected s := by
  have hInv : Inv s := hReach.invariant (fun _ _ _ h hOk => h.step hOk) Inv.boot
  rcases hInv.once with ⟨_, hHold⟩
  exact ⟨hHold.nodup .raised, hInv.fine⟩

-- The Queue of the Timer Interrupt

/- `ALARMS`, without the numbers of the calls. -/
def queue (s : Alarms) : Queues Unit := ⟨[], (s.held .alarms).map Entry.toAlarmEntry⟩

theorem queue_step {a : Act} (hStep : s.step a = some s') :
    s'.queue = s.queue ∨ ∃ op, s'.queue = s.queue.step op := by
  cases a with
  | tick cycles =>
    cases hStep
    exact .inl rfl
  | ret p | raise e =>
    rcases Option.ite_none_right_eq_some.mp hStep with ⟨_, ⟨⟩⟩
    exact .inl rfl
  | sysAlarm p seconds now | check e found =>
    rcases Option.ite_none_right_eq_some.mp hStep with ⟨_, ⟨⟩⟩
    refine .inl ?_
    simp only [queue, move]
    split <;> simp
  | addAlarm p =>
    simp only [Alarms.step] at hStep
    split at hStep <;> cases hStep
    rename_i e rest hHeld
    refine .inr ⟨.addAlarm e.deadline e.targetPid e.generation, ?_⟩
    simp only [queue, move, update_self, DueQueue.map_insert Entry.toAlarmEntry]
    rfl
  | drain now =>
    rcases Option.ite_none_right_eq_some.mp hStep with ⟨_, ⟨⟩⟩
    refine .inr ⟨.drainAlarms now, ?_⟩
    simp only [queue, move, update_of_ne (show Place.alarms ≠ .due by simp), update_self,
      DueQueue.map_drain Entry.toAlarmEntry]
    rfl

/- Whatever is done, the list of alarms is what the timer code makes of some operations. -/
theorem queue_of_reach (hReach : Reach step (fun _ _ => True) boot s) :
    ∃ ops, s.queue = queues ops := by
  induction hReach with
  | refl => exact ⟨[], rfl⟩
  | next _ _ hStep ih =>
    rcases ih with ⟨ops, hOps⟩
    rcases queue_step hStep with hSame | ⟨op, hOp⟩
    · exact ⟨ops, hSame.trans hOps⟩
    · refine ⟨ops ++ [op], ?_⟩
      rw [hOp, hOps, queues, queues, List.foldl_append]
      rfl

/- An alarm of process 7 comes and is cancelled by a later call. -/
def cancelLate : List Act :=
  let e : Entry := ⟨⟨1000000, 7, 1⟩, 1⟩
  [.sysAlarm 7 1 0, .addAlarm 7, .ret 7, .tick 1000000, .drain 1000000, .check e true, .raise e,
    .sysAlarm 7 0 1000000, .ret 7]

theorem respected_of_reach_cancelLate : ∃ s, Reach step Ok boot s ∧
    (s.held .raised).map Entry.id = [(7, 1)] ∧ Respected s := by
  have hRun : (run step Ok boot cancelLate).any
      (fun s => decide ((s.held .raised).map Entry.id = [(7, 1)])) = true := by decide +kernel
  rcases exists_reach hRun with ⟨s, hReach, hAt⟩
  exact ⟨s, hReach, of_decide_eq_true hAt, respected_of_reach s hReach⟩

/- The alarm is cancelled between the check and the raise. -/
theorem cancelled_raises : ∃ s, Reach step (fun _ _ => True) boot s ∧
    s.returned 7 = 2 ∧ (s.held .raised).map Entry.id = [(7, 1)] ∧ ¬Respected s := by
  have hRun : (run step (fun _ _ => True) boot (cancelLate.take 6 ++ cancelLate.drop 7 ++
      [.raise ⟨⟨1000000, 7, 1⟩, 1⟩])).any (fun s => decide (s.returned 7 = 2 ∧
        (s.held .raised).map Entry.id = [(7, 1)] ∧ s.wrong = true)) = true := by decide +kernel
  rcases exists_reach hRun with ⟨s, hReach, hAt⟩
  rcases of_decide_eq_true hAt with ⟨hReturned, hRaised, hWrong⟩
  refine ⟨s, hReach, hReturned, hRaised, ?_⟩
  rintro ⟨_, hFine⟩
  simp [hFine] at hWrong

end Alarms

end Time

end PlayXv6
