import Mathlib

/-
  When the calls that wait for a time come back.

  `sys_sleep`, `sys_nanosleep` and `sys_poll` turn what is
  asked for into a value of the cycle counter, as `sys_alarm`
  does for its signal, and compare it with the counter each
  time they are polled.  The sum wraps, and an alarm counts a
  tenth of the second of `sys_clock_gettime` as a second.

  Main declarations:
    * `Timed.NeverEarly`
    * `never_early_iff`
-/

namespace PlayXv6

namespace Time

abbrev TIMER_INTERVAL : UInt64 := 1000000

/- `ts_per_sec` -/
abbrev TS_PER_SEC : UInt64 := TIMER_INTERVAL * 10

abbrev TICKS_PER_MS : UInt64 := TIMER_INTERVAL * 10 / 1000

/- What `sys_clock_gettime` reports: seconds, nanoseconds. -/
def clockGettime (ticks : UInt64) : Nat × Nat :=
  ((ticks / TS_PER_SEC).toNat,
    (ticks % TS_PER_SEC).toNat * 1000000000 / TS_PER_SEC.toNat)

/- A report in nanoseconds. -/
def reported (ticks : UInt64) : Nat :=
  (clockGettime ticks).1 * 1000000000 + (clockGettime ticks).2

inductive Timed where
  | sleep (ticks : UInt64)
  | nanosleep (sec nsec : Int64)
  | alarm (seconds : UInt32)
  | poll (timeoutMs : Int32)

namespace Timed

/- An alarm of no seconds cancels; a poll without a positive
   timeout does not wait for one. -/
def Accepted : Timed → Prop
  | .sleep _ => True
  | .nanosleep sec nsec => ¬ (sec < 0 ∨ nsec < 0 ∨ nsec ≥ 1000000000)
  | .alarm seconds => seconds ≠ 0
  | .poll timeoutMs => 0 < timeoutMs

/- `total_ticks` of a `nanosleep`, rounded up. -/
def totalTicks (sec nsec : Int64) : UInt64 :=
  sec.toUInt64 * TS_PER_SEC + (nsec.toUInt64 * TS_PER_SEC + 999999999) / 1000000000

/- Nothing is waited for if there is no deadline. -/
def deadline (now : UInt64) : Timed → Option UInt64
  | .sleep ticks => some (now + ticks * TIMER_INTERVAL)
  | .nanosleep sec nsec =>
    if totalTicks sec nsec = 0 then none
    else some (now + totalTicks sec nsec)
  | .alarm seconds => some (now + seconds.toUInt64 * TIMER_INTERVAL)
  | .poll timeoutMs => some (now + timeoutMs.toInt64.toUInt64 * TICKS_PER_MS)

/-
  The time at which a call made at `now` comes back, or its
  signal is raised, if the counter is compared at `polls`.
-/
def completes (c : Timed) (now : UInt64) (polls : List UInt64) : Option UInt64 :=
  match c.deadline now with
  | none => some now
  | some d => polls.find? (d ≤ ·)

/- Enough time has passed from `now` to `t`. -/
def Served (now t : UInt64) : Timed → Prop
  | .sleep ticks => now.toNat + ticks.toNat * TIMER_INTERVAL.toNat ≤ t.toNat
  | .nanosleep sec nsec =>
    reported now + sec.toNatClampNeg * 1000000000 + nsec.toNatClampNeg ≤ reported t
  | .alarm seconds => reported now + seconds.toNat * 1000000000 ≤ reported t
  | .poll timeoutMs => reported now + timeoutMs.toNatClampNeg * 1000000 ≤ reported t

/- No call ends early, as the counter only advances. -/
def NeverEarly (c : Timed) (now : UInt64) : Prop :=
  c.Accepted → ∀ polls t, (now :: polls).Pairwise (· ≤ ·) → c.completes now polls = some t →
    c.Served now t

/- The cycles that a call is to last. -/
def cycles : Timed → Nat
  | .sleep ticks => ticks.toNat * 1000000
  | .nanosleep sec nsec => sec.toNatClampNeg * 10000000 + (nsec.toNatClampNeg + 99) / 100
  | .alarm seconds => seconds.toNat * 10000000
  | .poll timeoutMs => timeoutMs.toNatClampNeg * 10000

/- The deadline fits in the counter; no alarm is right. -/
def Fits (now : UInt64) (c : Timed) : Prop :=
  now.toNat + c.cycles < 2 ^ 64 ∧ ∀ seconds, c ≠ .alarm seconds

end Timed

variable {c : Timed} {now t d : UInt64} {n : Nat}

theorem interval_toNat : TIMER_INTERVAL.toNat = 1000000 ∧ TS_PER_SEC.toNat = 10000000 ∧
    TICKS_PER_MS.toNat = 10000 := by decide

/- A cycle is 100 nanoseconds for `sys_clock_gettime`. -/
theorem reported_eq (ticks : UInt64) : reported ticks = ticks.toNat * 100 := by
  simp only [reported, clockGettime, UInt64.toNat_div, UInt64.toNat_mod, interval_toNat]
  omega

theorem served_iff : c.Served now t ↔ now.toNat + c.cycles ≤ t.toNat := by
  cases c <;> simp only [Timed.Served, Timed.cycles, reported_eq, interval_toNat] <;> omega

theorem totalTicks_toNat {sec nsec : Int64} (hAccepted : (Timed.nanosleep sec nsec).Accepted) :
    (Timed.totalTicks sec nsec).toNat = (Timed.nanosleep sec nsec).cycles % 2 ^ 64 := by
  rcases not_or.mp hAccepted with ⟨hSec, hNsec⟩
  rcases not_or.mp hNsec with ⟨hPos, hLt⟩
  have hBound : nsec.toNatClampNeg < 1000000000 := by
    have hInt : nsec.toInt < 1000000000 := Int64.lt_iff_toInt_lt.mp (Int64.not_le.mp hLt)
    rw [Int64.toNatClampNeg]
    omega
  -- the part below a second does not wrap
  have hPart : ((nsec.toUInt64 * TS_PER_SEC + 999999999) / 1000000000).toNat =
      (nsec.toNatClampNeg + 99) / 100 := by
    simp only [UInt64.toNat_div, UInt64.toNat_add, UInt64.toNat_mul, interval_toNat,
      UInt64.reduceToNat, Int64.toNat_toUInt64_of_le (Int64.not_lt.mp hPos)]
    omega
  rw [Timed.totalTicks, UInt64.toNat_add, hPart, UInt64.toNat_mul, interval_toNat.2.1,
    Int64.toNat_toUInt64_of_le (Int64.not_lt.mp hSec), Nat.mod_add_mod, Timed.cycles]

/- A call compares with a deadline `n` cycles away, modulo
   `2 ^ 64`. -/
def Timed.Waits (c : Timed) (now : UInt64) (n : Nat) : Prop :=
  (∃ d, c.deadline now = some d ∧ d.toNat = (now.toNat + n) % 2 ^ 64) ∨
    c.deadline now = none ∧ n % 2 ^ 64 = 0

theorem waits_cycles (hAccepted : c.Accepted) (hNot : ∀ seconds, c ≠ .alarm seconds) :
    c.Waits now c.cycles := by
  cases c with
  | sleep ticks =>
    refine .inl ⟨_, rfl, ?_⟩
    rw [UInt64.toNat_add, UInt64.toNat_mul, interval_toNat.1, Nat.add_mod_mod, Timed.cycles]
  | nanosleep sec nsec =>
    have hTotal := totalTicks_toNat hAccepted
    by_cases hZero : Timed.totalTicks sec nsec = 0
    · rw [hZero] at hTotal
      exact .inr ⟨if_pos hZero, hTotal.symm⟩
    · refine .inl ⟨_, if_neg hZero, ?_⟩
      rw [UInt64.toNat_add, hTotal, Nat.add_mod_mod]
  | alarm seconds => exact absurd rfl (hNot seconds)
  | poll timeoutMs =>
    have hPos : 0 ≤ timeoutMs.toInt64 := by
      rw [Int64.le_iff_toInt_le, Int32.toInt_toInt64]
      exact (Int32.lt_iff_toInt_lt.mp hAccepted).le
    refine .inl ⟨_, rfl, ?_⟩
    rw [UInt64.toNat_add, UInt64.toNat_mul, Int64.toNat_toUInt64_of_le hPos,
      Int32.toNatClampNeg_toInt64, interval_toNat.2.2, Nat.add_mod_mod, Timed.cycles]

theorem waits_alarm (seconds : UInt32) :
    (Timed.alarm seconds).Waits now (seconds.toNat * 1000000) := by
  refine .inl ⟨_, rfl, ?_⟩
  rw [UInt64.toNat_add, UInt64.toNat_mul, UInt32.toNat_toUInt64, interval_toNat.1, Nat.add_mod_mod]

/- It may end as soon as these cycles have passed. -/
theorem exists_completes (hWaits : c.Waits now n) : ∃ polls t, (now :: polls).Pairwise (· ≤ ·) ∧
    c.completes now polls = some t ∧ t.toNat ≤ now.toNat + n := by
  unfold Timed.completes
  rcases hWaits with ⟨d, hSome, hDeadline⟩ | ⟨hNone, _⟩
  · rw [hSome]
    by_cases hLe : now ≤ d
    · refine ⟨[d], d, by simp [hLe], by simp, ?_⟩
      rw [hDeadline]
      exact Nat.mod_le _ _
    · -- the deadline has wrapped and is over
      have hDue : d ≤ now := UInt64.le_of_lt (UInt64.not_le.mp hLe)
      exact ⟨[now], now, by simp, by simp [hDue], Nat.le_add_right _ _⟩
  · rw [hNone]
    exact ⟨[], now, List.pairwise_singleton _ _, rfl, Nat.le_add_right _ _⟩

/- Without a wrap it does not end before. -/
theorem le_of_completes {polls : List UInt64} (hWaits : c.Waits now n)
    (hFits : now.toNat + n < 2 ^ 64) (hEnd : c.completes now polls = some t) :
    now.toNat + n ≤ t.toNat := by
  unfold Timed.completes at hEnd
  rcases hWaits with ⟨d, hSome, hDeadline⟩ | ⟨hNone, hZero⟩
  · rw [hSome] at hEnd
    rw [← Nat.mod_eq_of_lt hFits, ← hDeadline]
    exact UInt64.le_iff_toNat_le.mp (by simpa using List.find?_some hEnd)
  · rw [hNone] at hEnd
    cases hEnd
    omega

theorem never_early_iff (c : Timed) (now : UInt64) :
    c.NeverEarly now ↔ (c.Accepted → c.Fits now) := by
  constructor
  · intro hNever hAccepted
    have hEnds : ∀ {n}, c.Waits now n → c.cycles ≤ n ∧ now.toNat + c.cycles < 2 ^ 64 := by
      intro n hWaits
      rcases exists_completes hWaits with ⟨polls, t, hSorted, hEnd, hSoon⟩
      have hServed := served_iff.mp (hNever hAccepted polls t hSorted hEnd)
      exact ⟨by omega, hServed.trans_lt t.toNat_lt⟩
    have hNot : ∀ seconds, c ≠ .alarm seconds := by
      rintro seconds rfl
      have hLe := (hEnds (waits_alarm seconds)).1
      have hZero : seconds.toNat = 0 := by
        rw [Timed.cycles] at hLe
        omega
      exact hAccepted (UInt32.toNat_inj.mp hZero)
    exact ⟨(hEnds (waits_cycles hAccepted hNot)).2, hNot⟩
  · intro hFits hAccepted polls t _ hEnd
    rcases hFits hAccepted with ⟨hLt, hNot⟩
    exact served_iff.mpr (le_of_completes (waits_cycles hAccepted hNot) hLt hEnd)

/-
  An alarm of one second comes after a tenth of it, and a
  sleep of 58,000 years after less than a second.
-/
theorem alarm_early : (Timed.alarm 1).completes 0 [1000000] = some 1000000 ∧
    clockGettime 1000000 = (0, 100000000) ∧ ¬ (Timed.alarm 1).NeverEarly 0 ∧
    (Timed.sleep 18446744073710).completes 0 [448384] = some 448384 ∧
    ¬ (Timed.sleep 18446744073710).NeverEarly 0 := by
  refine ⟨by decide, by decide, fun hNever => ?_, by decide, fun hNever => ?_⟩
  · have hServed := hNever (by simp [Timed.Accepted]) [1000000] 1000000 (by decide) (by decide)
    exact absurd (served_iff.mp hServed) (by decide)
  · have hServed := hNever trivial [448384] 448384 (by decide) (by decide)
    exact absurd (served_iff.mp hServed) (by decide)

end Time

end PlayXv6
