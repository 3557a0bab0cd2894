import PlayXv6.Hal.PageTable

/-
  Both page tables implement a partial map from pages to
  frames.

  Main declarations:
    * `Arch.Rep`
    * `pageTable_refines`
-/

namespace PlayXv6

open Function

variable {calls : List (Request × List (Option Nat))}

namespace Hal

open Vm (PtePerm PGSIZE VmError)
open Radix

-- Representation

/- The entry that `map` writes for a page. -/
def Arch.code (A : Arch) (x : Page) : Word := A.makeLeaf x.pa x.perm (A.isMmio x.pa)

/- The tables under a root hold the mapping. -/
abbrev Arch.Rep (A : Arch) (root : Nat) (s : Store Word) (m : Mapping) : Prop :=
  Represents A.format 512 A.code A.levels root s m

/- No walk can ask for more frames than these. -/
def Plenty (A : Arch) (frames : List (Option Nat)) : Prop :=
  A.levels ≤ frames.length ∧ none ∉ frames

section Ops

variable {A : Arch} {root va : Nat} {s : Store Word} {m : Mapping} {frames : List (Option Nat)}

theorem index_eq (va level : Nat) : index va level = va / PGSIZE / 512 ^ level % 512 := by
  have hPow : 512 ^ level = 2 ^ (9 * level) := by rw [Nat.pow_mul]
  unfold index
  rw [Nat.shiftRight_eq_div_pow, hPow, Nat.div_div_eq_div_mul]
  change _ &&& 2 ^ 9 - 1 = _ / (2 ^ 12 * _) % 2 ^ 9
  rw [Nat.and_two_pow_sub_one_eq_mod, Nat.pow_add]

theorem offset_eq (va : Nat) : va &&& (PGSIZE - 1) = va % PGSIZE :=
  Nat.and_two_pow_sub_one_eq_mod va 12

theorem table_root (hva : va < A.maxva) : tableAt A.format 512 s.mem root (A.levels - A.levels)
      (va / PGSIZE / 512 ^ (A.levels + 1)) = some root := by
  have hZero : va / PGSIZE / 512 ^ (A.levels + 1) = 0 := by
    rw [Nat.div_div_eq_div_mul]
    exact Nat.div_eq_of_lt (hva.trans_le A.covered)
  rw [hZero, Nat.sub_self]
  rfl

theorem valid_code (x : Page) : A.format.valid (A.code x) = true :=
  (A.leaf x.pa x.perm _ x.frame x.read).1

/- What a walk for an address in range leads to. -/
theorem Arch.Rep.walk (hRep : A.Rep root s m) (hva : va < A.maxva)
    (hFresh : Fresh A.format s frames) : Walked A.format 512 A.code A.levels root (va / PGSIZE)
      A.levels frames s m (A.walk root va frames s) := by
  unfold Arch.walk
  rw [if_neg (Nat.not_le.mpr hva)]
  exact Represents.walk (by decide) (index_eq va) hRep hFresh (Nat.le_refl _) (table_root hva)

/- A request for one page, when it is in range. -/
theorem map_page (x : Page) (hAligned : va % PGSIZE = 0) (hva : va < A.maxva) :
    A.map root va x.pa PGSIZE x.perm frames s =
      match A.walk root va frames s with
      | (none, _, s) => (.error .oom, s)
      | (some p, _, s) =>
        if A.format.valid (s.mem p.1 p.2) then
          (.error .remap, s)
        else
          (.ok (), s.write p.1 p.2 (A.code x)) := by
  have hFrame : x.pa % PGSIZE = 0 := Nat.mod_eq_zero_of_dvd x.frame.1
  have hEnd : va + PGSIZE ≤ A.maxva := by
    rcases A.page with ⟨k, hk⟩
    simp only [PGSIZE] at *
    omega
  have hSmall := A.small
  unfold Arch.map
  rw [if_neg (by simp [hAligned, hFrame]), if_neg (by omega), if_neg (by omega)]
  change A.mapLoop root x.perm (A.isMmio x.pa) 1 va x.pa frames s = _
  unfold Arch.mapLoop
  rcases A.walk root va frames s with ⟨_ | p, rest, s'⟩
  · rfl
  · rfl

/- The three ways a request to map a page can end. -/
theorem Arch.Rep.map (hRep : A.Rep root s m) (x : Page) (hAligned : va % PGSIZE = 0)
    (hva : va < A.maxva) (hFresh : Fresh A.format s frames) : (m (va / PGSIZE) ≠ none ∧
      A.map root va x.pa PGSIZE x.perm frames s = (.error .remap, s)) ∨
    (m (va / PGSIZE) = none ∧ ¬ Plenty A frames ∧ ∃ s', A.map root va x.pa PGSIZE x.perm frames s =
        (.error .oom, s') ∧ A.Rep root s' m) ∨ (m (va / PGSIZE) = none ∧
      ∃ s', A.map root va x.pa PGSIZE x.perm frames s = (.ok (), s') ∧ A.Rep root s'
          (update m (va / PGSIZE) (some x))) := by
  have hWalk := hRep.walk hva hFresh
  rw [map_page x hAligned hva]
  -- a mapped page has its table, which the walk finds
  have hFound : m (va / PGSIZE) ≠ none → ∃ t, A.walk root va frames s =
        (some (t, va / PGSIZE % 512), (A.walk root va frames s).2.1, s) ∧
      tableAt A.format 512 s.mem root A.levels (va / PGSIZE / 512) = some t := by
    intro hSome
    cases hTable : tableAt A.format 512 s.mem root A.levels (va / PGSIZE / 512) with
    | none => exact absurd (hRep.eq_none valid_code hTable) hSome
    | some t =>
      rcases hWalk.found t hTable with ⟨hPlace, hSame⟩
      refine ⟨t, ?_, rfl⟩
      exact Prod.ext hPlace (Prod.ext rfl hSame)
  by_cases hNone : m (va / PGSIZE) = none
  · right
    rcases hEq : A.walk root va frames s with ⟨_ | p, rest, s'⟩
    · left
      rw [hEq] at hWalk
      refine ⟨hNone, ?_, s', rfl, hWalk.rep⟩
      rintro ⟨hEnough, hAll⟩
      exact hWalk.enough hEnough hAll rfl
    · right
      rw [hEq] at hWalk
      rcases hWalk.place p rfl with ⟨hTable, hIndex⟩
      have hEntry := hWalk.rep.read hTable
      dsimp only at hTable hEntry
      rw [hNone, ← hIndex] at hEntry
      have hInvalid : A.format.valid (s'.mem p.1 p.2) = false := by
        rw [hEntry]
        exact A.format.valid_empty
      have hWrite := hWalk.rep.write hTable (some x)
      rw [← hIndex] at hWrite
      dsimp only
      rw [hInvalid]
      exact ⟨hNone, _, rfl, hWrite⟩
  · left
    refine ⟨hNone, ?_⟩
    rcases hFound hNone with ⟨t, hEq, hTable⟩
    rcases Option.ne_none_iff_exists'.mp hNone with ⟨y, hy⟩
    have hEntry := hRep.read hTable
    rw [hy] at hEntry
    rw [hEq]
    dsimp only
    rw [hEntry, show (some y).elim A.format.empty A.code = A.code y from rfl, valid_code]
    rfl

theorem fresh_nil : Fresh A.format s [] where
  frame f hf := by cases hf
  new f hf := by cases hf
  nodup := List.nodup_nil

/- Only an aligned address takes a page away. -/
theorem unmapPage_misaligned (hMisaligned : va % PGSIZE ≠ 0) :
    A.unmapPage root va s = (none, s) := by
  unfold Arch.unmapPage
  rw [offset_eq, if_pos (.inr hMisaligned)]

theorem Arch.Rep.unmapPage (hRep : A.Rep root s m) (hAligned : va % PGSIZE = 0)
    (hva : va < A.maxva) : ∃ s', A.unmapPage root va s = ((m (va / PGSIZE)).map Page.pa, s') ∧
      A.Rep root s' (update m (va / PGSIZE) none) := by
  have hWalk := hRep.walk hva fresh_nil
  have hSame := hWalk.bare rfl
  unfold Arch.unmapPage
  rw [offset_eq, if_neg (by
    rintro (hOut | hMisaligned)
    · omega
    · exact hMisaligned hAligned)]
  have hStay : m (va / PGSIZE) = none → update m (va / PGSIZE) none = m := by
    intro hNone
    rw [← hNone]
    exact update_eq_self _ _
  rcases hEq : A.walk root va [] s with ⟨_ | p, rest, s'⟩
  · rw [hEq] at hWalk hSame
    -- without its table the page is not mapped
    have hNone : m (va / PGSIZE) = none := by
      refine hRep.eq_none valid_code ?_
      cases hTable : tableAt A.format 512 s.mem root A.levels (va / PGSIZE / 512) with
      | none => rfl
      | some t =>
        have hPlace := (hWalk.found t hTable).1
        cases hPlace
    refine ⟨s', ?_, ?_⟩
    · rw [hNone]
      rfl
    · rw [hStay hNone]
      exact hWalk.rep
  · rw [hEq] at hWalk
    rcases hWalk.place p rfl with ⟨hTable, hIndex⟩
    have hEntry := hWalk.rep.read hTable
    dsimp only at hTable hEntry
    rw [← hIndex] at hEntry
    dsimp only
    rw [hEntry]
    cases hPage : m (va / PGSIZE) with
    | none =>
      refine ⟨s', ?_, ?_⟩
      · rw [show (none : Option Page).elim A.format.empty A.code = A.format.empty from rfl,
          A.format.valid_empty]
        rfl
      · rw [hStay hPage]
        exact hWalk.rep
    | some x =>
      have hLeaf := A.leaf x.pa x.perm (A.isMmio x.pa) x.frame x.read
      have hWrite := hWalk.rep.write hTable none
      rw [← hIndex] at hWrite
      refine ⟨_, ?_, hWrite⟩
      change (if !A.format.valid (A.code x) || !A.isLeaf (A.code x) then _ else
          (some (A.format.target (A.code x)), _)) = _
      unfold Arch.code
      rw [hLeaf.1, hLeaf.2.1, hLeaf.2.2.1]
      rfl

/- A frame's address and an offset do not overlap. -/
theorem Page.or_offset (x : Page) (va : Nat) : x.pa ||| (va &&& 0xfff) = x.pa + va % PGSIZE := by
  rcases x.frame.1 with ⟨k, hk⟩
  rw [show va &&& 0xfff = va % PGSIZE from offset_eq va, hk,
    show PGSIZE * k = k <<< 12 by rw [Nat.shiftLeft_eq, Nat.mul_comm]]
  exact (Nat.shiftLeft_add_eq_or_of_lt (Nat.mod_lt _ (by decide)) k).symm

theorem Arch.Rep.translateLoop (hRep : A.Rep root s m) {level t : Nat} (hLevel : level ≤ A.levels)
    (hTable : tableAt A.format 512 s.mem root (A.levels - level)
      (va / PGSIZE / 512 ^ (level + 1)) = some t) : A.translateLoop s.mem va level t =
      (m (va / PGSIZE)).map fun x => x.at va := by
  induction level generalizing t with
  | zero =>
    rw [Nat.zero_add, Nat.pow_one, Nat.sub_zero] at hTable
    have hEntry := hRep.read hTable
    unfold Arch.translateLoop
    rw [index_eq, Nat.pow_zero, Nat.div_one, hEntry]
    cases m (va / PGSIZE) with
    | none =>
      rw [show (none : Option Page).elim A.format.empty A.code = A.format.empty from rfl]
      dsimp only
      rw [A.format.valid_empty]
      rfl
    | some x =>
      have hLeaf := A.leaf x.pa x.perm (A.isMmio x.pa) x.frame x.read
      rw [show (some x).elim A.format.empty A.code =
        A.makeLeaf x.pa x.perm (A.isMmio x.pa) from rfl]
      dsimp only
      rw [hLeaf.1, hLeaf.2.2.1, hLeaf.2.2.2, Page.or_offset]
      rfl
  | succ level ih =>
    have hDepth : A.levels - level = A.levels - (level + 1) + 1 := by omega
    have hBelow : tableAt A.format 512 s.mem root (A.levels - level)
        (va / PGSIZE / 512 ^ (level + 1)) = if A.format.valid (s.mem t (index va (level + 1)))
        then some (A.format.target (s.mem t (index va (level + 1))))
        else none := by
      rw [hDepth, tableAt_succ, Nat.div_div_eq_div_mul,
        ← Nat.pow_succ, hTable, Option.bind_some, index_eq]
    dsimp only [Arch.translateLoop]
    rcases hRep.upper _ (by omega) _ t hTable (index va (level + 1)) with
      hEmpty | ⟨f, hFrame, hBranch⟩
    · rw [hEmpty, A.format.valid_empty] at hBelow ⊢
      have hNone := hRep.eq_none valid_code (tableAt_none_below hBelow (by omega))
      rw [hNone]
      rfl
    · rw [hBranch, A.format.valid_branch f hFrame, A.format.target_branch f hFrame] at hBelow
      rw [hBranch, A.format.valid_branch f hFrame, A.format.target_branch f hFrame,
        A.isHuge_branch f ((A.frame_iff f).mp hFrame)]
      exact ih (by omega) hBelow

theorem Arch.Rep.translate (hRep : A.Rep root s m) (hva : va < A.maxva) : A.translate root va s =
      (m (va / PGSIZE)).map fun x => x.at va := by
  unfold Arch.translate
  rw [if_neg (Nat.not_le.mpr hva)]
  exact hRep.translateLoop (Nat.le_refl _) (table_root hva)

end Ops

-- Runs

/- The answers of a table that never runs out of memory. -/
def Mapping.answers (m : Mapping) : List Request → List Answer
  | [] => []
  | r :: rs => m.answer r :: answers (m.after r (m.answer r)) rs

/- The calls and answers of a run, the oldest first. -/
def Arch.history (A : Arch) (root : Nat) (calls : List (Request × List (Option Nat)))
    (s : Store Word) : List (Request × Answer) := (calls.map Prod.fst).zip (A.run root calls s).1

section Runs

variable {A : Arch} {root : Nat} {s : Store Word} {m : Mapping}

theorem Arch.Rep.serve {r : Request} {frames : List (Option Nat)} (hRep : A.Rep root s m)
    (hBelow : r.Below A.maxva) (hFresh : Fresh A.format s frames) :
    A.Rep root (A.serve root s frames r).2 (m.after r (A.serve root s frames r).1) ∧
      ((A.serve root s frames r).1 = m.answer r ∨ (A.serve root s frames r).1 = .map (.error .oom) ∧
          ¬ Plenty A frames) := by
  cases r with
  | map va x =>
    unfold Arch.serve Mapping.answer
    dsimp only
    rcases hRep.map x hBelow.1 hBelow.2 hFresh with ⟨hSome, hEq⟩ | ⟨_, hFew, s', hEq, hRep'⟩ |
        ⟨hNone, s', hEq, hRep'⟩
    · rw [hEq, if_pos (Option.isSome_iff_ne_none.mpr hSome)]
      exact ⟨hRep, .inl rfl⟩
    · rw [hEq]
      exact ⟨hRep', .inr ⟨rfl, hFew⟩⟩
    · rw [hEq, hNone]
      exact ⟨hRep', .inl rfl⟩
  | unmapPage va =>
    unfold Arch.serve Mapping.answer Mapping.after
    dsimp only
    by_cases hAligned : va % PGSIZE = 0
    · rcases hRep.unmapPage hAligned hBelow with ⟨s', hEq, hRep'⟩
      rw [hEq, if_pos hAligned, if_pos hAligned]
      exact ⟨hRep', .inl rfl⟩
    · rw [unmapPage_misaligned hAligned, if_neg hAligned, if_neg hAligned]
      exact ⟨hRep, .inl rfl⟩
  | translate va =>
    unfold Arch.serve Mapping.answer
    dsimp only
    rw [hRep.translate hBelow]
    exact ⟨hRep, .inl rfl⟩

theorem Arch.Rep.run (hRep : A.Rep root s m)
    (hSound : A.Sound root A.maxva calls s) : A.Rep root (A.run root calls s).2
      ((A.history root calls s).foldl (fun m call => m.after call.1 call.2) m) := by
  induction calls generalizing s m with
  | nil => exact hRep
  | cons call calls ih =>
    have hServe := hRep.serve hSound.1 hSound.2.1
    exact ih hServe.1 hSound.2.2

/- Without a failed allocation the requests decide. -/
theorem Arch.Rep.run_answers (hRep : A.Rep root s m)
    (hSound : A.Sound root A.maxva calls s) (hMemory : Answer.map (.error .oom) ∉
      (A.run root calls s).1) : (A.run root calls s).1 = m.answers (calls.map Prod.fst) := by
  induction calls generalizing s m with
  | nil => rfl
  | cons call calls ih =>
    have hServe := hRep.serve hSound.1 hSound.2.1
    have hFirst : (A.serve root s call.2 call.1).1 = m.answer call.1 := by
      rcases hServe.2 with hAnswer | ⟨hOom, _⟩
      · exact hAnswer
      · refine absurd ?_ hMemory
        rw [← hOom]
        exact List.mem_cons_self ..
    have hRest := ih hServe.1 hSound.2.2 fun hMem =>
      hMemory (List.mem_cons_of_mem _ hMem)
    rw [hFirst] at hRest
    change (A.serve root s call.2 call.1).1 :: _ = _
    rw [hFirst]
    exact congrArg _ hRest

theorem answer_ne_oom (m : Mapping) (r : Request) : Answer.map (.error .oom) ≠ m.answer r := by
  cases r with
  | map va x =>
    dsimp only [Mapping.answer]
    split
    · intro hEq
      cases hEq
    · intro hEq
      cases hEq
  | unmapPage va | translate va =>
    intro hEq
    cases hEq

/- With frames for every table no call runs out of memory. -/
theorem Arch.Rep.run_plenty (hRep : A.Rep root s m)
    (hSound : A.Sound root A.maxva calls s) (hPlenty : ∀ call ∈ calls, Plenty A call.2) :
    Answer.map (.error .oom) ∉ (A.run root calls s).1 := by
  induction calls generalizing s m with
  | nil => exact List.not_mem_nil
  | cons call calls ih =>
    have hServe := hRep.serve hSound.1 hSound.2.1
    have hRest := ih hServe.1 hSound.2.2 fun c hc => hPlenty c (List.mem_cons_of_mem call hc)
    intro hMem
    rcases List.mem_cons.mp hMem with hFirst | hMem
    · rcases hServe.2 with hAnswer | ⟨_, hFew⟩
      · rw [show (A.serve root s call.2 call.1).1 = Answer.map (.error .oom) from hFirst.symm]
          at hAnswer
        exact absurd hAnswer (answer_ne_oom m call.1)
      · exact hFew (hPlenty call (List.mem_cons_self ..))
    · exact hRest hMem

/- Requests in a smaller range are in range. -/
theorem Arch.Sound.mono {bound bound' : Nat}
    (hLe : bound ≤ bound') (hSound : A.Sound root bound calls s) : A.Sound root bound' calls s := by
  induction calls generalizing s with
  | nil => trivial
  | cons call calls ih =>
    refine ⟨?_, hSound.2.1, ih hSound.2.2⟩
    have hBelow := hSound.1
    rcases call with ⟨r, frames⟩
    cases r with
    | map va x => exact ⟨hBelow.1, hBelow.2.trans_le hLe⟩
    | unmapPage va | translate va => exact hBelow.trans_le hLe

theorem rep_new (A : Arch) (mem : Nat → Nat → Word) (root : Nat) :
    A.Rep root (A.new mem root) fun _ => none := Represents.start mem root A.levels

end Runs

-- Refinement

/- The operations on a page table that holds the mapping. -/
structure Refines (A : Arch) (root : Nat) (s : Store Word) (m : Mapping) : Prop where
  translate : ∀ va < A.maxva, A.translate root va s = (m (va / PGSIZE)).map fun x => x.at va
  remap : ∀ va (x : Page) frames, va % PGSIZE = 0 → va < A.maxva → Fresh A.format s frames →
      m (va / PGSIZE) ≠ none → A.map root va x.pa PGSIZE x.perm frames s = (.error .remap, s)
  failed : ∀ va (x : Page) frames, va % PGSIZE = 0 → va < A.maxva → Fresh A.format s frames →
      (A.map root va x.pa PGSIZE x.perm frames s).1 ≠ .ok () → ∀ va' < A.maxva, A.translate root va'
          (A.map root va x.pa PGSIZE x.perm frames s).2 = A.translate root va' s
  unmap : ∀ va < A.maxva, va % PGSIZE = 0 →
    (A.unmapPage root va s).1 = (m (va / PGSIZE)).map Page.pa
  misaligned : ∀ va < A.maxva, va % PGSIZE ≠ 0 → A.unmapPage root va s = (none, s)

theorem Arch.Rep.refines {A : Arch} {root : Nat} {s : Store Word} {m : Mapping}
    (hRep : A.Rep root s m) : Refines A root s m where
  translate va hva := hRep.translate hva
  remap va x frames hAligned hva hFresh hSome := by
    rcases hRep.map x hAligned hva hFresh with ⟨_, hEq⟩ | ⟨hNone, _⟩ | ⟨hNone, _⟩
    · exact hEq
    · exact absurd hNone hSome
    · exact absurd hNone hSome
  failed va x frames hAligned hva hFresh hFailed va' hva' := by
    rcases hRep.map x hAligned hva hFresh with ⟨_, hEq⟩ | ⟨_, _, s', hEq, hRep'⟩ | ⟨_, s', hEq, _⟩
    · rw [hEq]
    · rw [hEq, hRep'.translate hva', hRep.translate hva']
    · rw [hEq] at hFailed
      exact absurd rfl hFailed
  unmap va hva hAligned := by
    rcases hRep.unmapPage hAligned hva with ⟨s', hEq, _⟩
    rw [hEq]
  misaligned va _ hMisaligned := unmapPage_misaligned hMisaligned

/-
  After any calls both page tables hold what was mapped and
  not taken away, and with memory for their tables they cannot
  be told apart below `2 ^ 38`.
-/
theorem pageTable_refines : (∀ A ∈ [riscv64, aarch64], ∀ mem root calls, Frame root →
      A.Sound root A.maxva calls (A.new mem root) →
        Refines A root (A.run root calls (A.new mem root)).2
          (mapped (A.history root calls (A.new mem root))) ∧ ((∀ call ∈ calls, Plenty A call.2) →
          Answer.map (.error .oom) ∉ (A.run root calls (A.new mem root)).1)) ∧
    ∀ mem root calls mem' root' calls', Frame root → Frame root' → riscv64.Sound root (2 ^ 38) calls
        (riscv64.new mem root) → aarch64.Sound root' (2 ^ 38) calls' (aarch64.new mem' root') →
      calls.map Prod.fst = calls'.map Prod.fst → Answer.map (.error .oom) ∉
        (riscv64.run root calls (riscv64.new mem root)).1 → Answer.map (.error .oom) ∉
        (aarch64.run root' calls' (aarch64.new mem' root')).1 →
      (riscv64.run root calls (riscv64.new mem root)).1 = (aarch64.run root' calls'
          (aarch64.new mem' root')).1 := by
  constructor
  · intro A _ mem root calls _ hSound
    have hRep := rep_new A mem root
    exact ⟨(hRep.run hSound).refines, fun hPlenty => hRep.run_plenty hSound hPlenty⟩
  · intro mem root calls mem' root' calls' _ _ hSound hSound' hSame hMemory hMemory'
    have hBound : 2 ^ 38 ≤ riscv64.maxva := by decide
    have hBound' : 2 ^ 38 ≤ aarch64.maxva := by decide
    rw [(rep_new riscv64 mem root).run_answers (hSound.mono hBound) hMemory,
      (rep_new aarch64 mem' root').run_answers (hSound'.mono hBound') hMemory', hSame]

def kernelPage : Page where
  pa := 0x80000000
  perm := .RW
  frame := by
    unfold Frame
    decide
  read := rfl

def root : Nat := 0x87000000

theorem frame_root : Frame root := by
  unfold Frame
  decide

/- Three frames for the tables of the `i`-th call. -/
def spare (i : Nat) : List (Option Nat) :=
  (List.range 3).map fun j => some (root + (3 * i + j + 1) * PGSIZE)

def mapKernelPage : List (Request × List (Option Nat)) := [(.map 0x1000 kernelPage, spare 0)]

/- The page is mapped once more, which fails, taken away, and mapped again. -/
def remapKernelPage : List (Request × List (Option Nat)) :=
  mapKernelPage ++ [(.map 0x1000 kernelPage, spare 1), (.unmapPage 0x1000, spare 2),
    (.translate 0x1000, spare 3), (.map 0x1000 kernelPage, spare 4)]

theorem fresh_spare {A : Arch} {i : Nat} {s : Store Word} (hSmall : i < 5)
    (hNew : (spare i).all fun o => o.all (· ∉ s.tables)) : Fresh A.format s (spare i) := by
  refine ⟨fun f hf => (A.frame_iff f).mpr ?_, fun f hf => ?_, ?_⟩
  · rcases List.mem_map.mp hf with ⟨j, hj, hEq⟩
    cases hEq
    have hj : j < 3 := List.mem_range.mp hj
    refine ⟨?_, ?_⟩
    · exact (by decide : PGSIZE ∣ root).add (Dvd.intro_left _ rfl)
    · simp only [root, PGSIZE]
      omega
  · exact of_decide_eq_true (List.all_eq_true.mp hNew _ hf)
  · simp [spare, List.range_succ, PGSIZE]

theorem remapKernelPage_sound {A : Arch} (hA : A = riscv64 ∨ A = aarch64) {bound : Nat}
    (hBound : 2 ^ 38 ≤ bound) :
    A.Sound root bound remapKernelPage (A.new (fun _ _ => 0) root) := by
  have hLow : 0x1000 < bound := by omega
  refine ⟨⟨rfl, hLow⟩, fresh_spare (by decide) ?_, ⟨rfl, hLow⟩, fresh_spare (by decide) ?_, hLow,
    fresh_spare (by decide) ?_, hLow, fresh_spare (by decide) ?_, ⟨rfl, hLow⟩,
    fresh_spare (by decide) ?_, trivial⟩
  all_goals rcases hA with rfl | rfl <;> decide +kernel

theorem remapKernelPage_plenty {A : Arch} (hLevels : A.levels ≤ 3) :
    ∀ call ∈ remapKernelPage, Plenty A call.2 := by
  intro call hCall
  simp only [remapKernelPage, mapKernelPage, List.cons_append, List.nil_append, List.mem_cons,
    List.not_mem_nil, or_false] at hCall
  rcases hCall with rfl | rfl | rfl | rfl | rfl <;> exact ⟨hLevels, by decide⟩

/- The answers are those of a page that is there, and then is not. -/
theorem pageTable_refines_kernelPage :
    (riscv64.run root remapKernelPage (riscv64.new (fun _ _ => 0) root)).1 =
        [.map (.ok ()), .map (.error .remap), .unmapPage (some 0x80000000), .translate none,
          .map (.ok ())] ∧
      Refines riscv64 root
        (riscv64.run root remapKernelPage (riscv64.new (fun _ _ => 0) root)).2
        (mapped (riscv64.history root remapKernelPage (riscv64.new (fun _ _ => 0) root))) ∧
      (riscv64.run root remapKernelPage (riscv64.new (fun _ _ => 0) root)).1 =
        (aarch64.run root remapKernelPage (aarch64.new (fun _ _ => 0) root)).1 := by
  rcases pageTable_refines with ⟨hEach, hBoth⟩
  have hSound := @remapKernelPage_sound riscv64 (.inl rfl) (2 ^ 38) (by decide)
  have hSound' := @remapKernelPage_sound aarch64 (.inr rfl)
  have hFirst := hEach riscv64 (by simp) (fun _ _ => 0) root remapKernelPage frame_root hSound
  have hSecond := hEach aarch64 (by simp) (fun _ _ => 0) root remapKernelPage frame_root
    (hSound' (by decide))
  refine ⟨by decide +kernel, hFirst.1, hBoth _ root remapKernelPage _ root remapKernelPage
    frame_root frame_root hSound (hSound' (by decide)) rfl
    (hFirst.2 (remapKernelPage_plenty (by decide)))
    (hSecond.2 (remapKernelPage_plenty (by decide)))⟩

/- An address inside a mapped page is translated, but `unmap_page` does not take it. -/
theorem unmapPage_inside_page :
    let s := (riscv64.run root mapKernelPage (riscv64.new (fun _ _ => 0) root)).2
    riscv64.Sound root riscv64.maxva mapKernelPage (riscv64.new (fun _ _ => 0) root) ∧
      0x1001 < riscv64.maxva ∧ riscv64.translate root 0x1001 s = some (0x80000001, .RW) ∧
      (riscv64.unmapPage root 0x1001 s).1 = none ∧ riscv64.translate root 0x1001
        (riscv64.unmapPage root 0x1001 s).2 = some (0x80000001, .RW) := by
  refine ⟨⟨⟨rfl, by decide⟩, fresh_spare (by decide) ?_, trivial⟩, ?_⟩
  · decide +kernel
  · decide +kernel

end Hal

end PlayXv6
