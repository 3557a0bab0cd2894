import PlayXv6.Vm.PageMap

/-
  The break and the heap pages under `sbrk` and `brk`.

  An over-shrink counts as done, and `brk` hands its 64-bit
  distance to `sbrk` as a signed number: an address 2^63 or
  more above the break is an over-shrink.  A page without
  any access bit is not a leaf, and a shrink leaves it.

  Main declarations:
    * `SbrkEffect`
    * `break_consistent_iff`
-/

namespace PlayXv6

namespace Vm

-- What the Calls Do

/- The first page at or above `a`, and what rounding makes it. -/
def ceilPage (a : Nat) : Nat := (a + (PGSIZE - 1)) / PGSIZE

def upPage (a : Nat) : Nat := (a + (PGSIZE - 1)) % USIZE / PGSIZE

/- The result, the break and the pages after `sbrk` by `n`. -/
inductive SbrkEffect (old : Nat) (f : PageMap) (n : Int) : Int → Nat → PageMap → Prop
  | none (hNone : n = 0 ∨ old + n < 0) : SbrkEffect old f n (asI64 old) old f
  | shrink {new} (hNeg : n < 0) (hNew : old + n = (new : Nat)) : SbrkEffect old f n (asI64 old) new
      (f.clear (upPage new) (upPage old - upPage new))
  | fail (hPos : 0 < n) : SbrkEffect old f n (-1) old f
  | grow {new f'} (hPos : 0 < n) (hNew : old + n = (new : Nat)) (hTop : new ≤ HEAP_TOP) :
      SbrkEffect old f n (asI64 old) new f'

variable {s : State} {pid root : Nat} {q : Proc} {f : PageMap}

theorem run_proc (hProc : s.procs.lookup pid = some q) :
    Prog.run (exec pid) (Prog.lift .proc) s = .ok q s := by
  simp only [Prog.lift, Prog.run_op, exec, hProc, Outcome.andThen_ok, Prog.run_ret]

theorem run_rootPa (hProc : s.procs.lookup pid = some q) (hRoot : q.pagetable = some root) :
    Prog.run (exec pid) (Prog.lift .rootPa) s = .ok root s := by
  simp only [Prog.lift, Prog.run_op, exec, hProc, Option.bind_some, hRoot, Outcome.andThen_ok,
    Prog.run_ret]

theorem run_setSize {s' : State} (new : Nat) (hProc : s'.procs.lookup pid = some q)
    (hMaps : s'.Maps root f) (r : Int) : ∃ s'', Prog.run (exec pid) (do
        Prog.lift (.setSize new)
        return r) s' = .ok r s'' ∧ s''.procs.lookup pid = some { q with size := new } ∧
          s''.Maps root f := by
  simp only [Prog.bind_eq, Prog.lift_bind, Prog.run_op, exec, State.onProc, hProc,
    Outcome.andThen_ok]
  exact ⟨_, rfl, AList.lookup_insert _, hMaps⟩

theorem run_sysSbrk (hProc : s.procs.lookup pid = some q) (hRoot : q.pagetable = some root)
    (hMaps : s.Maps root f) (n lazy : Int) : ∃ r s' new f',
      Prog.run (exec pid) (sysSbrk n lazy) s = .ok r s' ∧
        s'.procs.lookup pid = some { q with size := new } ∧ s'.Maps root f' ∧
          SbrkEffect q.size f n r new f' := by
  unfold sysSbrk
  rw [Prog.run_then (run_proc hProc)]
  dsimp only
  by_cases hZero : n = 0
  · rw [if_pos hZero]
    exact ⟨_, s, q.size, f, rfl, hProc, hMaps, .none (Or.inl hZero)⟩
  rw [if_neg hZero]
  by_cases hNeg : n < 0
  · rw [if_pos hNeg]
    by_cases hOver : (-n).toNat > q.size
    · rw [if_pos hOver]
      exact ⟨_, s, q.size, f, rfl, hProc, hMaps, .none (Or.inr (by omega))⟩
    · rw [if_neg hOver, Prog.run_then (run_rootPa hProc hRoot)]
      have hRange : pages (pageRoundUp (q.size - (-n).toNat)) (pageRoundUp q.size) =
          upPage q.size - upPage (q.size - (-n).toNat) := pages_mul _ _
      rw [hRange]
      rcases run_unmapRange pid (upPage (q.size - (-n).toNat))
        (upPage q.size - upPage (q.size - (-n).toNat)) hMaps with ⟨s₁, hRun₁, hMaps₁, -, hLeaves⟩
      have hProc₁ : s₁.procs.lookup pid = some q := by rw [hLeaves.procs, hProc]
      rcases run_setSize (q.size - (-n).toNat) hProc₁ hMaps₁ (asI64 q.size) with
        ⟨s₂, hRun₂, hProc₂, hMaps₂⟩
      refine ⟨_, s₂, _, _, ?_, hProc₂, hMaps₂, .shrink hNeg (by omega)⟩
      exact (Prog.run_then hRun₁).trans hRun₂
  rw [if_neg hNeg]
  have hPos : 0 < n := by omega
  by_cases hWrap : q.size + n.toNat ≥ USIZE
  · rw [if_pos hWrap]
    exact ⟨_, s, q.size, f, rfl, hProc, hMaps, .fail hPos⟩
  rw [if_neg hWrap]
  by_cases hTop : q.size + n.toNat > HEAP_TOP
  · rw [if_pos hTop]
    exact ⟨_, s, q.size, f, rfl, hProc, hMaps, .fail hPos⟩
  rw [if_neg hTop]
  have hNew : (q.size : Int) + n = (q.size + n.toNat : Nat) := by omega
  by_cases hLazy : lazy ≠ 0
  · rw [if_pos hLazy]
    rcases run_setSize (q.size + n.toNat) hProc hMaps (asI64 q.size) with
      ⟨s₁, hRun₁, hProc₁, hMaps₁⟩
    exact ⟨_, s₁, _, f, hRun₁, hProc₁, hMaps₁, .grow hPos hNew (by omega)⟩
  rw [if_neg hLazy, Prog.run_then (run_rootPa hProc hRoot)]
  rcases run_growRange pid (upPage q.size) (upPage q.size)
    (pages (pageRoundUp q.size) (pageRoundUp (q.size + n.toNat))) (le_refl _) hMaps
    (by rw [Nat.sub_self, PageMap.clear_zero]) with ⟨b, s₁, f₁, hRun₁, hMaps₁, hLeaves, hFail⟩
  have hProc₁ : s₁.procs.lookup pid = some q := by rw [hLeaves.procs, hProc]
  cases b with
  | true =>
    rcases run_setSize (q.size + n.toNat) hProc₁ hMaps₁ (asI64 q.size) with
      ⟨s₂, hRun₂, hProc₂, hMaps₂⟩
    exact ⟨_, s₂, _, f₁, (Prog.run_then hRun₁).trans hRun₂, hProc₂, hMaps₂,
      .grow hPos hNew (by omega)⟩
  | false =>
    rw [hFail rfl] at hMaps₁
    exact ⟨_, s₁, q.size, f, Prog.run_then hRun₁, hProc₁, hMaps₁, .fail hPos⟩

/- What `brk` does: nothing, or what `sbrk` does. -/
theorem run_sysBrk (hProc : s.procs.lookup pid = some q) (hRoot : q.pagetable = some root)
    (hMaps : s.Maps root f) (addr : Nat) : ∃ r s' new f',
      Prog.run (exec pid) (sysBrk addr) s = .ok r s' ∧
        s'.procs.lookup pid = some { q with size := new } ∧ s'.Maps root f' ∧
          (addr = 0 ∧ new = q.size ∧ f' = f ∨ addr = q.size ∧ r = 0 ∧ new = q.size ∧ f' = f ∨
            addr ≠ 0 ∧ addr ≠ q.size ∧ ∃ r₀, SbrkEffect q.size f (brkDelta q.size addr) r₀ new f' ∧
              r = if r₀ < 0 then -1 else 0) := by
  unfold sysBrk
  rw [Prog.run_then (run_proc hProc)]
  by_cases hZero : addr = 0
  · rw [if_pos hZero]
    exact ⟨_, s, q.size, f, rfl, hProc, hMaps, Or.inl ⟨hZero, rfl, rfl⟩⟩
  rw [if_neg hZero]
  by_cases hSame : addr = q.size
  · rw [if_pos hSame]
    exact ⟨_, s, q.size, f, rfl, hProc, hMaps, Or.inr (Or.inl ⟨hSame, rfl, rfl, rfl⟩)⟩
  rw [if_neg hSame]
  rcases run_sysSbrk hProc hRoot hMaps (brkDelta q.size addr) 0 with
    ⟨r₀, s', new, f', hRun, hProc', hMaps', hEffect⟩
  exact ⟨_, s', new, f', Prog.run_then hRun, hProc', hMaps',
    Or.inr (Or.inr ⟨hZero, hSame, r₀, hEffect, rfl⟩)⟩

-- Consistency

/- No page from the new break up to the old one is mapped, and those below are as before. -/
def Shrunk (f f' : PageMap) (new old : Nat) : Prop :=
  (∀ p, ceilPage new ≤ p → p < ceilPage old → f' p = none) ∧ ∀ p, p < ceilPage new → f' p = f p

/- A shrink to `new` finds only leaves, and before its end. -/
def Clearable (f : PageMap) (new old : Nat) : Prop :=
  ∀ p e, ceilPage new ≤ p → p < ceilPage old →
  f p = some e → e.isLeaf ∧ p < upPage old

/- What a call does to the break and the pages. -/
def BreakOk (old new : Nat) (f f' : PageMap) (r : Int) (call : Call) : Prop :=
  (r = -1 → new = old ∧ f' = f) ∧ (r ≠ -1 → new < old → Shrunk f f' new old) ∧
    match call with
    | .sbrk n _ => r ≠ -1 → r = asI64 old ∧
        (new : Int) = if old + n.toInt < 0 then (old : Int) else old + n.toInt
    | .brk addr => addr ≠ 0 → (r = 0 ↔ new = addr.toNat)
    | _ => True

/-
  `sbrk` does not shrink a break of 2^64 - 1, which it would
  return as -1, `brk` moves the break by less than 2^63, and
  does not lower one that is no positive number; and what a
  shrink gives up is mapped with some access.
-/
def BreakFits (old : Nat) (f : PageMap) : Call → Prop
  | .sbrk n _ => ∀ new : Nat, n.toInt < 0 → old + n.toInt = new →
      old + 1 ≠ USIZE ∧ Clearable f new old
  | .brk addr => addr ≠ 0 → (old < addr.toNat → addr.toNat - old < 2 ^ 63) ∧
      (addr.toNat < old → old - addr.toNat ≤ 2 ^ 63 → old < 2 ^ 63 ∧ Clearable f addr.toNat old)
  | _ => True

variable {old new : Nat} {f' : PageMap}

theorem shrunk_clear_iff (hOld : old < USIZE) (hLe : new ≤ old) :
    Shrunk f (f.clear (upPage new) (upPage old - upPage new)) new old ↔ Clearable f new old := by
  have hUp : ceilPage new = upPage new ∨ upPage new = 0 ∧ upPage old = 0 := by
    simp only [ceilPage, upPage, PGSIZE, USIZE] at *
    omega
  unfold Shrunk Clearable PageMap.clear
  constructor
  · intro hShrunk p e hLow hHigh hp
    have hGone := hShrunk.1 p hLow hHigh
    split at hGone
    · rename_i hIn
      rw [hp] at hIn
      exact ⟨hIn.2.2, by omega⟩
    · rw [hp] at hGone
      simp at hGone
  · intro hClear
    refine ⟨fun p hLow hHigh => ?_, fun p hp => if_neg (by omega)⟩
    cases hf : f p with
    | none => simp
    | some e =>
      rcases hClear p e hLow hHigh hf with ⟨hLeaf, hLt⟩
      rw [if_pos ⟨by omega, by omega, hLeaf⟩]

theorem asI64_eq {n : Nat} (hn : n < USIZE) :
    asI64 n = if n < 2 ^ 63 then (n : Int) else n - 2 ^ 64 := by
  unfold asI64
  rw [Int.bmod_def]
  simp only [USIZE] at *
  omega

theorem sbrkEffect_ok_iff {n : Int64} {lazy : Int64} {r : Int} (hOld : old < USIZE)
    (hEffect : SbrkEffect old f n.toInt r new f') :
    BreakOk old new f f' r (.sbrk n lazy) ↔ BreakFits old f (.sbrk n lazy) := by
  have hAs := asI64_eq hOld
  unfold BreakOk BreakFits
  dsimp only
  cases hEffect with
  | none hNone =>
    refine iff_of_true ⟨fun _ => ⟨rfl, rfl⟩, fun _ hLt => absurd hLt (lt_irrefl _),
      fun _ => ⟨rfl, ?_⟩⟩ fun new hNeg hNew => ?_
    · split <;> omega
    · omega
  | fail hPos => exact iff_of_true (by simp) fun new hNeg _ => by omega
  | grow hPos hNew hTop =>
    have hTop' : old < 2 ^ 63 := by
      simp only [HEAP_TOP, STACK_VA_BASE, STACK_VA_TOP, TRAPFRAME, TRAMPOLINE, MAXVA, PGSIZE,
        STACK_PAGES] at hTop
      omega
    rw [if_pos hTop'] at hAs
    refine iff_of_true ⟨fun hFail => by omega, fun _ hLt => by omega, fun _ => ⟨rfl, ?_⟩⟩
      fun new hNeg _ => by omega
    rw [if_neg (by omega), hNew]
  | shrink hNeg hNew =>
    have hLt : new < old := by omega
    have hIff := shrunk_clear_iff (f := f) hOld hLt.le
    constructor
    · rintro ⟨hFail, hShrunk, -⟩ new' - hNew'
      have hEq : new' = new := by omega
      have hNot : asI64 old ≠ -1 := fun hEq => absurd (hFail hEq).1 hLt.ne
      refine ⟨?_, hEq ▸ hIff.mp (hShrunk hNot hLt)⟩
      simp only [USIZE] at *
      omega
    · intro hFits
      rcases hFits new hNeg hNew with ⟨hMax, hClear⟩
      have hNot : asI64 old ≠ -1 := by
        simp only [USIZE] at *
        omega
      refine ⟨fun hFail => absurd hFail hNot, fun _ _ => hIff.mpr hClear, fun _ => ⟨rfl, ?_⟩⟩
      rw [if_neg (by omega), hNew]

/- The distance `brk` asks for, as `sbrk` reads it. -/
theorem brkDelta_eq (old addr : Nat) :
    brkDelta old addr = Int.bmod (addr - old) USIZE := by
  unfold brkDelta asI64
  split
  · rename_i hLt
    rw [Nat.cast_sub hLt.le]
  · rename_i hLe
    rw [Nat.cast_sub (not_lt.mp hLe), Int.bmod_neg_bmod, neg_sub]

theorem brkEffect_ok_iff {old new : Nat} {f f' : PageMap} {addr : UInt64} {r₀ : Int}
    (hOld : old < USIZE) (hZero : addr ≠ 0) (hSame : addr.toNat ≠ old)
    (hEffect : SbrkEffect old f (brkDelta old addr.toNat) r₀ new f') :
    BreakOk old new f f' (if r₀ < 0 then -1 else 0) (.brk addr) ↔ BreakFits old f (.brk addr) := by
  have hAddr : addr.toNat < USIZE := addr.toNat_lt
  have hAs := asI64_eq hOld
  rw [brkDelta_eq, Int.bmod_def] at hEffect
  simp only [USIZE] at hOld hAddr hEffect
  unfold BreakOk BreakFits
  simp only [hZero, ne_eq, not_false_eq_true, true_imp_iff]
  cases hEffect with
  | none hNone =>
    -- an over-shrink, which `brk` takes for done
    have hFar : old < addr.toNat ∧ ¬ addr.toNat - old < 2 ^ 63 := by omega
    have hOk : ¬ asI64 old < 0 := by omega
    rw [if_neg hOk]
    refine iff_of_false (fun h => hSame (h.2.2.mp rfl).symm) fun h => hFar.2 (h.1 hFar.1)
  | fail hPos =>
    rw [if_pos (by omega)]
    refine iff_of_true ⟨fun _ => ⟨rfl, rfl⟩, by simp, by simp [hSame.symm]⟩ ⟨?_, ?_⟩
    · intro _
      omega
    · intro _ _
      omega
  | grow hPos hNew hTop =>
    simp only [HEAP_TOP, STACK_VA_BASE, STACK_VA_TOP, TRAPFRAME, TRAMPOLINE, MAXVA, PGSIZE,
      STACK_PAGES] at hTop
    have hEq : new = addr.toNat := by omega
    rw [if_neg (by omega)]
    refine iff_of_true ⟨by simp, fun _ hLt => by omega, by simp [hEq]⟩ ⟨?_, ?_⟩
    · intro _
      omega
    · intro _ _
      omega
  | shrink hNeg hNew =>
    have hEq : new = addr.toNat := by omega
    subst hEq
    have hLt : addr.toNat < old := by omega
    have hIff := shrunk_clear_iff (f := f) hOld hLt.le
    by_cases hHigh : old < 2 ^ 63
    · rw [if_neg (by omega)]
      constructor
      · rintro ⟨-, hShrunk, -⟩
        exact ⟨fun hGt => by omega, fun _ _ => ⟨hHigh, hIff.mp (hShrunk (by simp) hLt)⟩⟩
      · rintro ⟨-, hClear⟩
        exact ⟨by simp, fun _ _ => hIff.mpr (hClear hLt (by omega)).2, by simp⟩
    · rw [if_pos (by omega)]
      refine iff_of_false (fun h => ?_) fun h => hHigh (h.2 hLt (by omega)).1
      exact hLt.ne (h.1 rfl).1

/-
  Whatever the break and the pages of a process, a call of
  `sbrk` or `brk` returns; it keeps the break and the pages
  consistent exactly if it fits.
-/
theorem break_consistent_iff {s : State} {pid root : Nat} {q : Proc} {f : PageMap}
    (hProc : s.procs.lookup pid = some q) (hRoot : q.pagetable = some root)
    (hMaps : s.Maps root f) (hSize : q.size < USIZE) (call : Call)
    (hCall : (∃ n lazy, call = .sbrk n lazy) ∨ ∃ addr, call = .brk addr) :
    ∃ r s' new f', Prog.run (exec pid) call.prog s = .ok r s' ∧
      s'.procs.lookup pid = some { q with size := new } ∧ s'.Maps root f' ∧
        (BreakOk q.size new f f' r call ↔ BreakFits q.size f call) := by
  rcases hCall with ⟨n, lazy, rfl⟩ | ⟨addr, rfl⟩
  · rcases run_sysSbrk hProc hRoot hMaps n.toInt lazy.toInt with
      ⟨r, s', new, f', hRun, hProc', hMaps', hEffect⟩
    exact ⟨r, s', new, f', hRun, hProc', hMaps', sbrkEffect_ok_iff hSize hEffect⟩
  · rcases run_sysBrk hProc hRoot hMaps addr.toNat with
      ⟨r, s', new, f', hRun, hProc', hMaps', hCase⟩
    refine ⟨r, s', new, f', hRun, hProc', hMaps', ?_⟩
    rcases hCase with ⟨hZero, rfl, rfl⟩ | ⟨hSame, rfl, rfl, rfl⟩ | ⟨hZero, hSame, r₀, hEffect, rfl⟩
    · have hAddr : addr = 0 := UInt64.toNat_inj.mp hZero
      simp [BreakOk, BreakFits, hAddr]
    · simp [BreakOk, BreakFits, hSame]
    · exact brkEffect_ok_iff hSize (fun h => hZero (by rw [h]; rfl)) hSame hEffect

/- A process with a heap of two pages that it has not used. -/
def twoPageHeap : State where
  free := [4096, 8192, 12288]
  tables := (∅ : AList fun _ : Nat => PageTable).insert 0 .zeroed
  procs := (∅ : AList fun _ : Nat => Proc).insert 1 (Proc.fresh 0 16384 8192)
  liveProcs := 1
  nextPid := 2
  kernel := []
  trampolinePa := 20480

/- The first process has grown by a page, and gives it up again. -/
theorem break_consistent_iff_shrink : ∃ (c : Config) (q : Proc) (f f' : PageMap) (s' : State),
    Reaches (fun _ => ImageBelow TRAPFRAME) sampleBoot c ∧ c.state.procs.lookup 1 = some q ∧
      (f 1).isSome ∧ Prog.run (exec 1) (Call.prog (.sbrk (-4096) 0)) c.state = .ok 8192 s' ∧
        BreakOk 8192 4096 f f' 8192 (.sbrk (-4096) 0) ∧ f' 1 = none := by
  have hServed : (vmSystem.serve (OnCall fun _ => ImageBelow TRAPFRAME) 400 sampleBoot
      [(0, .boot (sampleImage 0 4096)), (1, .sbrk 4096 0)]).any (fun c =>
        (c.state.procs.lookup 1).any (fun q => q.size == 8192 && q.pagetable.any fun root =>
          (c.state.tables.lookup root).any fun pt => (pt.pte.lookup 1).any Pte.isLeaf) &&
        (Prog.run (exec 1) (Call.prog (.sbrk (-4096) 0)) c.state).check fun r _ => r == 8192) =
      true := by decide +kernel
  rcases TaskSystem.exists_reach_of_serve hServed with ⟨c, hReach, hCheck⟩
  simp only [Bool.and_eq_true, Option.any_eq_true, beq_iff_eq] at hCheck
  rcases hCheck with ⟨⟨q, hProc, hSize, root, hRoot, pt, hTable, e, hEntry, hLeaf⟩, hDone⟩
  have hMaps := (linked_of_reach hReach).maps hTable
  rcases break_consistent_iff hProc hRoot hMaps (by rw [hSize]; decide) (.sbrk (-4096) 0)
    (Or.inl ⟨_, _, rfl⟩) with ⟨r, s', new, f', hRun, -, -, hIff⟩
  rw [hRun] at hDone
  have hr : r = 8192 := beq_iff_eq.mp hDone
  subst hr
  rw [hSize] at hIff
  have hOk := hIff.mpr (fun new' hNeg hNew => ⟨by decide, fun p e' hLow hHigh hp => ?_⟩)
  · have hNew : (new : Int) = 4096 := (hOk.2.2 (by decide)).2
    cases Int.ofNat.inj hNew
    refine ⟨c, q, _, f', s', hReach, hProc, ?_, hRun, hOk, ?_⟩
    · exact Option.isSome_iff_exists.mpr ⟨e, hEntry⟩
    · exact (hOk.2.1 (by decide) (by decide)).1 1 (by decide) (by decide)
  · have hNew : new' = 4096 := by
      have hEq : (8192 : Int) + -4096 = new' := hNew
      omega
    subst hNew
    have hp' : p = 1 := by
      have hLow : 1 ≤ p := hLow
      have hHigh : p < 2 := hHigh
      omega
    subst hp'
    cases hEntry.symm.trans hp
    exact ⟨hLeaf, by decide⟩

/- `brk` to the top of the address space changes nothing. -/
theorem brk_far_does_nothing : ∃ s', Prog.run (exec 1) (Call.prog (.brk 0xffffffffffffffff))
    twoPageHeap = .ok 0 s' ∧ (s'.procs.lookup 1).map Proc.size = some 8192 := by
  have hRun : (Prog.run (exec 1) (Call.prog (.brk 0xffffffffffffffff)) twoPageHeap).check
      (fun r s' => r = 0 ∧ (s'.procs.lookup 1).map Proc.size = some 8192) = true := by
    decide +kernel
  rcases Outcome.exists_of_check hRun with ⟨r, s', hOk, hTest⟩
  rcases of_decide_eq_true hTest with ⟨rfl, hSize⟩
  exact ⟨s', hOk, hSize⟩

end Vm

end PlayXv6
