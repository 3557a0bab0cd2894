import PlayXv6.Vm.Exclusive

/-
  The layout of address spaces.

  The heap, the mapped regions, the stack, the trap frame and
  the trampoline of a process do not overlap, in every run in
  which images end below the stack, the break is not moved
  into a region and no region is placed below the break.

  Main declarations:
    * `Layout`
    * `layout_of_reach`
-/

namespace PlayXv6

namespace Vm

def Vma.range (u : Vma) : Set Nat := Set.Ico u.start u.stop

def Proc.heap (q : Proc) : Set Nat := Set.Ico 0 q.size

def Proc.regions (q : Proc) : List (Set Nat) :=
  q.heap :: Set.Ico STACK_VA_BASE STACK_VA_TOP ::
    Set.Ico TRAPFRAME TRAMPOLINE :: Set.Ico TRAMPOLINE MAXVA :: q.vmas.map Vma.range

/- The break and the regions are where they belong. -/
structure Layout (q : Proc) : Prop where
  size : q.size ≤ STACK_VA_BASE - PGSIZE
  heap : ∀ u ∈ q.vmas, Disjoint q.heap u.range
  vmas : ∀ u ∈ q.vmas, u.range ⊆ Set.Ico (MMAP_TOP / 2) MMAP_TOP
  regions : q.regions.Pairwise Disjoint

/- If the break may move up by `n`, it stays below every region. -/
def GrowsClear (n : Int) (q : Proc) : Prop :=
  0 < n → q.size + n.toNat ≤ HEAP_TOP →
    ∀ u ∈ q.vmas, u.start < u.stop → q.size + n.toNat ≤ u.start

/- If a region may be placed, it lies above the break. -/
def MapsClear (length : Nat) (q : Proc) : Prop :=
  pageRoundUp length ≤ q.mmapBase →
    MMAP_TOP / 2 ≤ q.mmapBase - pageRoundUp length → 0 < pageRoundUp length →
        q.size ≤ q.mmapBase - pageRoundUp length

/- Images, growth and mappings leave the others alone. -/
def LayoutOk (o : Option Proc) : Call → Prop
  | .boot elf => SegmentsBelow HEAP_TOP elf
  | .execve elf => SegmentsBelow HEAP_TOP elf
  | .sbrk n _ => ∀ q, o = some q → GrowsClear n.toInt q
  | .brk addr => ∀ q, o = some q → GrowsClear (brkDelta q.size addr.toNat) q
  | .mmap length _ _ _ _ => ∀ q, o = some q → MapsClear length.toNat q
  | _ => True

-- The Invariant

def Vma.Apart (u v : Vma) : Prop := u.stop ≤ v.start ∨ v.stop ≤ u.start

theorem Vma.Apart.symm {u v : Vma} (hApart : u.Apart v) : v.Apart u := Or.symm hApart

/-
  Regions are placed from the top down, so that every one
  starts at or above the place of the last.
-/
structure Arranged (q : Proc) : Prop where
  size : q.size ≤ HEAP_TOP
  base : q.mmapBase ≤ MMAP_TOP
  heap : ∀ u ∈ q.vmas, u.start < u.stop → q.size ≤ u.start
  low : ∀ u ∈ q.vmas, MMAP_TOP / 2 ≤ u.start
  above : ∀ u ∈ q.vmas, q.mmapBase ≤ u.start
  top : ∀ u ∈ q.vmas, u.stop ≤ MMAP_TOP
  apart : q.vmas.Pairwise Vma.Apart

theorem disjoint_Ico_of_le {a b c d : Nat} (hLe : b ≤ c) : Disjoint (Set.Ico a b) (Set.Ico c d) :=
  Set.Ico_disjoint_Ico.mpr ((min_le_left b d).trans (hLe.trans (le_max_right a c)))

theorem Vma.Apart.disjoint {u v : Vma} (hApart : u.Apart v) : Disjoint u.range v.range := by
  rcases hApart with hLe | hLe
  · exact disjoint_Ico_of_le hLe
  · exact (disjoint_Ico_of_le hLe).symm

theorem Arranged.heap_disjoint {q : Proc} (hq : Arranged q) {u : Vma} (hu : u ∈ q.vmas) :
    Disjoint q.heap u.range := by
  by_cases hEmpty : u.start < u.stop
  · exact disjoint_Ico_of_le (hq.heap u hu hEmpty)
  · have hRange : u.range = ∅ := Set.Ico_eq_empty_iff.mpr hEmpty
    rw [hRange]
    exact Set.disjoint_empty _

theorem Arranged.layout {q : Proc} (hq : Arranged q) : Layout q where
  size := hq.size
  heap u hu := hq.heap_disjoint hu
  vmas u hu := Set.Ico_subset_Ico (hq.low u hu) (hq.top u hu)
  regions := by
    have hBelow : ∀ {a b : Nat}, MMAP_TOP ≤ a → ∀ r ∈
        q.vmas.map Vma.range, Disjoint (Set.Ico a b) r := by
      intro a b ha r hr
      rcases List.mem_map.mp hr with ⟨u, hu, rfl⟩
      exact (disjoint_Ico_of_le ((hq.top u hu).trans ha)).symm
    have hVmas : (q.vmas.map Vma.range).Pairwise Disjoint := by
      rw [List.pairwise_map]
      exact hq.apart.imp fun hApart => hApart.disjoint
    have hSize : q.size ≤ STACK_VA_BASE := hq.size.trans (by decide)
    unfold Proc.regions Proc.heap
    refine List.Pairwise.cons ?_ (.cons ?_ (.cons ?_ (.cons ?_ hVmas)))
    · intro r hr
      simp only [List.mem_cons, List.mem_map] at hr
      rcases hr with rfl | rfl | rfl | ⟨u, hu, rfl⟩
      · exact disjoint_Ico_of_le hSize
      · exact disjoint_Ico_of_le (hSize.trans (by decide))
      · exact disjoint_Ico_of_le (hSize.trans (by decide))
      · exact hq.heap_disjoint hu
    · intro r hr
      rcases List.mem_cons.mp hr with rfl | hr
      · exact disjoint_Ico_of_le (le_refl _)
      · rcases List.mem_cons.mp hr with rfl | hr
        · exact disjoint_Ico_of_le (by decide)
        · exact hBelow (by decide) r hr
    · intro r hr
      rcases List.mem_cons.mp hr with rfl | hr
      · exact disjoint_Ico_of_le (le_refl _)
      · exact hBelow (by decide) r hr
    · intro r hr
      exact hBelow (by decide) r hr

-- The Calls

theorem Arranged.fresh {root tf m : Nat} (hSize : m ≤ HEAP_TOP) :
    Arranged (Proc.fresh root tf m) where
  size := hSize
  base := le_refl _
  heap u hu := by simp [Proc.fresh] at hu
  low u hu := by simp [Proc.fresh] at hu
  above u hu := by simp [Proc.fresh] at hu
  top u hu := by simp [Proc.fresh] at hu
  apart := List.Pairwise.nil

theorem Arranged.sbrk {q q' : Proc} {n : Int} (hq : Arranged q) (hClear : GrowsClear n q)
    (hMoves : SbrkMoves n q q') : Arranged q' := by
  rcases hMoves with ⟨-, rfl⟩ | ⟨hPos, hTop, rfl⟩
  · exact
      { hq with
        size := (Nat.sub_le _ _).trans hq.size
        heap := fun u hu hEmpty => (Nat.sub_le _ _).trans (hq.heap u hu hEmpty) }
  · exact
      { hq with
        size := hTop
        heap := hClear hPos hTop }

theorem pairwise_insertVma {v : Vma} {vmas : List Vma} (hApart : vmas.Pairwise Vma.Apart)
    (hNew : ∀ u ∈ vmas, v.Apart u) : (insertVma v vmas).Pairwise Vma.Apart := by
  have hPerm : (insertVma v vmas).Perm (v :: vmas) := by
    have hSplit := List.takeWhile_append_dropWhile
      (p := fun u : Vma => u.start < v.start) (l := vmas)
    nth_rewrite 2 [← hSplit]
    exact List.perm_middle
  exact (List.Pairwise.cons hNew hApart).perm hPerm.symm Vma.Apart.symm

theorem Arranged.mmap {q q' : Proc} {length : Nat} (hq : Arranged q) (hClear : MapsClear length q)
    (hMoves : MmapMoves length q q') : Arranged q' := by
  rcases hMoves with ⟨hFits, hLow, v, hStart, hStop, rfl⟩
  have hBase := hq.base
  have hEnd : v.stop = q.mmapBase := by omega
  refine ⟨hq.size, ?_, ?_, ?_, ?_, ?_, ?_⟩
  · dsimp only
    omega
  · intro u hu hEmpty
    rcases mem_insertVma.mp hu with rfl | hOld
    · rw [hStart]
      exact hClear hFits hLow (by omega)
    · exact hq.heap u hOld hEmpty
  · intro u hu
    rcases mem_insertVma.mp hu with rfl | hOld
    · rw [hStart]
      exact hLow
    · exact hq.low u hOld
  · intro u hu
    rcases mem_insertVma.mp hu with rfl | hOld
    · exact le_refl _
    · have hAbove := hq.above u hOld
      dsimp only
      omega
  · intro u hu
    rcases mem_insertVma.mp hu with rfl | hOld
    · rw [hEnd]
      exact hBase
    · exact hq.top u hOld
  · refine pairwise_insertVma hq.apart ?_
    intro u hu
    left
    rw [hEnd]
    exact hq.above u hu

theorem Arranged.filter {q : Proc} (hq : Arranged q) (keep : Vma → Bool) :
    Arranged { q with vmas := q.vmas.filter keep } where
  size := hq.size
  base := hq.base
  heap u hu := hq.heap u (List.mem_of_mem_filter hu)
  low u hu := hq.low u (List.mem_of_mem_filter hu)
  above u hu := hq.above u (List.mem_of_mem_filter hu)
  top u hu := hq.top u (List.mem_of_mem_filter hu)
  apart := hq.apart.filter keep

theorem Arranged.bounded {q : Proc} (hq : Arranged q) : Bounded q where
  size := hq.size.trans heapTop_le_trapframe
  vmas u hu := (hq.top u hu).trans mmapTop_le_trapframe

/- Calls that meet the condition keep a process arranged. -/
theorem arranged_keeps : Keeps Arranged LayoutOk where
  bounded q hq := hq.bounded
  child q root tf hq := Arranged.fresh hq.size
  boot elf hOk := ⟨HEAP_TOP, hOk, fun root tf m hm => Arranged.fresh hm⟩
  moves q q' c hq hOk hMoves := by
    cases c with
    | boot elf | fork | pageFault va write | touch va write => exact hMoves ▸ hq
    | execve elf =>
      rcases hMoves with rfl | ⟨root, m, hMax, rfl⟩
      · exact hq
      · exact ⟨hMax HEAP_TOP hOk, le_refl _, by simp, by simp, by simp, by simp, .nil⟩
    | sbrk n lazy | brk addr =>
      rcases hMoves with rfl | hMoves
      · exact hq
      · exact hq.sbrk (hOk q rfl) hMoves
    | mmap length prot flags fileInode offset =>
      rcases hMoves with rfl | hMoves
      · exact hq
      · exact hq.mmap (hOk q rfl) hMoves
    | munmap addr length =>
      rcases hMoves with ⟨keep, rfl⟩
      exact hq.filter keep
    | exit =>
      rw [hMoves]
      exact { hq with }

/- In every run whose calls meet the condition, every process has the layout between its calls. -/
theorem layout_of_reach {free kernel : List Nat} {tramp : Nat} (hNodup : (free ++ kernel).Nodup)
    (hTramp : tramp ∈ kernel) {c : Config} (hReach : Reaches LayoutOk
      (bootConfig free kernel tramp) c) {pid : Nat} {q : Proc} (hIdle : c.running pid = none)
    (hProc : c.state.procs.lookup pid = some q) : Layout q := by
  rcases verified_of_reach arranged_keeps hNodup hTramp hReach with ⟨g, -, hViews, -⟩
  have hArranged : Arranged q := hViews pid hIdle q hProc
  exact hArranged.layout

/- The conditions can be checked. -/
instance (n : Int) (q : Proc) : Decidable (GrowsClear n q) := by
  unfold GrowsClear
  infer_instance

instance (length : Nat) (q : Proc) : Decidable (MapsClear length q) := by
  unfold MapsClear
  infer_instance

instance (o : Option Proc) : (c : Call) → Decidable (LayoutOk o c)
  | .boot _ | .execve _ => inferInstanceAs (Decidable (SegmentsBelow ..))
  | .sbrk .. | .brk _ | .mmap .. => inferInstanceAs (Decidable (∀ q, o = some q → _))
  | .fork | .munmap .. | .pageFault .. | .touch .. | .exit => inferInstanceAs (Decidable True)

/- A process with a region, a heap grown both ways and a page that has been faulted in. -/
def sampleCalls : List (Nat × Call) :=
  [(0, .boot (sampleImage 0 1)),
    (1, .mmap 8192 3 0x22 none 0), (1, .sbrk 4096 0), (1, .sbrk 65536 1), (1, .pageFault 8192 true),
    (1, .brk 16384), (1, .munmap 0x3ffeff4000 4096)]

theorem layout_of_reach_sampleCalls : ∃ (c : Config) (q : Proc), Layout q ∧
      c.state.procs.lookup 1 = some q ∧ q.size = 16384 ∧ q.vmas.length = 1 := by
  have hRun : (vmSystem.serve (OnCall LayoutOk) 400 sampleBoot sampleCalls).any (fun c =>
        (c.running 1).isNone && (c.state.procs.lookup 1).any fun q =>
            q.size == 16384 && q.vmas.length == 1) = true := by
    decide +kernel
  rcases TaskSystem.exists_reach_of_serve hRun with ⟨c, hReach, hCheck⟩
  simp only [Bool.and_eq_true, Option.isNone_iff_eq_none, Option.any_eq_true, beq_iff_eq] at hCheck
  rcases hCheck with ⟨hIdle, q, hProc, hSize, hVmas⟩
  exact ⟨c, q, layout_of_reach (by decide) (by decide) hReach hIdle hProc, hProc, hSize, hVmas⟩

/-
  Two ways out of the layout: growing the heap over a
  region, by as much as an `int` holds at a time, and an
  image with an empty segment above the stack.
-/
theorem layout_broken : (∃ (c : Config) (q : Proc), Reaches (fun _ _ => True) sampleBoot c ∧
        c.running 1 = none ∧ c.state.procs.lookup 1 = some q ∧
            ∃ u ∈ q.vmas, ¬ Disjoint q.heap u.range) ∧ ∃ (c : Config) (q : Proc),
        Reaches (fun _ _ => True) sampleBoot c ∧ c.running 1 = none ∧
            c.state.procs.lookup 1 = some q ∧ STACK_VA_BASE - PGSIZE < q.size := by
  have hOverlap : ∀ {q : Proc} {u : Vma}, u.start < min q.size u.stop →
        ¬ Disjoint q.heap u.range := by
    intro q u hLt hDisjoint
    exact Set.disjoint_left.mp hDisjoint ⟨Nat.zero_le _, hLt.trans_le (min_le_left _ _)⟩
      ⟨le_refl _, hLt.trans_le (min_le_right _ _)⟩
  constructor
  · have hRun : (vmSystem.serve (OnCall fun _ _ => True) 400
        sampleBoot ([(0, .boot (sampleImage 0 1)), (1, .mmap 4096 3 0x22 none 0)] ++
          List.replicate 128 (1, .sbrk 0x7ffff000 1))).any (fun c => (c.running 1).isNone &&
              (c.state.procs.lookup 1).any fun q => q.vmas.any fun u =>
                  decide (u.start < min q.size u.stop)) =
          true := by
      decide +kernel
    rcases TaskSystem.exists_reach_of_serve hRun with ⟨c, hReach, hCheck⟩
    simp only [Bool.and_eq_true, Option.isNone_iff_eq_none, Option.any_eq_true, List.any_eq_true,
      decide_eq_true_eq] at hCheck
    rcases hCheck with ⟨hIdle, q, hProc, u, hu, hLt⟩
    exact ⟨c, q, hReach, hIdle, hProc, u, hu, hOverlap hLt⟩
  · have hRun : (vmSystem.serve (OnCall fun _ _ => True) 400
        sampleBoot [(0, .boot (sampleImage 0 1)), (1, .execve (sampleImage MAXVA 0))]).any (fun c =>
            (c.running 1).isNone && (c.state.procs.lookup 1).any fun q =>
                decide (STACK_VA_BASE - PGSIZE < q.size)) =
          true := by
      decide +kernel
    rcases TaskSystem.exists_reach_of_serve hRun with ⟨c, hReach, hCheck⟩
    simp only [Bool.and_eq_true, Option.isNone_iff_eq_none,
      Option.any_eq_true, decide_eq_true_eq] at hCheck
    rcases hCheck with ⟨hIdle, q, hProc, hLt⟩
    exact ⟨c, q, hReach, hIdle, hProc, hLt⟩

end Vm

end PlayXv6
