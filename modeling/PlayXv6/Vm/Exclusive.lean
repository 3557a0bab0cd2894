import PlayXv6.Vm.Link

/-
  No physical frame has two owners.

  A statement about the records of processes is kept by the
  system if it bounds their pages and is kept by every call.
  In every run that loads only images whose segments end at
  or below the trap frame, all pages a process gives up are
  its own, and so no frame is owned twice and none is freed
  that has an owner.

  Main declarations:
    * `Keeps`
    * `frames_exclusive`
-/

namespace PlayXv6

namespace Vm

-- Statements That the System Keeps

/- `I` holds of every process between its calls, if the calls meet `Ok`. -/
structure Keeps (I : Proc → Prop) (Ok : Option Proc → Call → Prop) : Prop where
  bounded : ∀ q, I q → Bounded q
  child : ∀ q root tf, I q → I (Proc.fresh root tf q.size)
  moves : ∀ q q' c, I q → Ok (some q) c → Moves q q' c → I q'
  boot : ∀ elf, Ok none (.boot elf) → ∃ bound, SegmentsBelow bound elf ∧
      ∀ root tf m, m ≤ bound → I (Proc.fresh root tf m)

/- A condition on the calls of the processes. -/
def OnCall (Ok : Option Proc → Call → Prop) (s : State) (t : Nat) (c : Call) : Prop :=
  Ok (s.procs.lookup t) c

instance (Ok : Option Proc → Call → Prop) [∀ o c, Decidable (Ok o c)] (s : State) (t : Nat)
    (c : Call) : Decidable (OnCall Ok s t c) := inferInstanceAs (Decidable (Ok _ c))

abbrev Reaches (Ok : Option Proc → Call → Prop) : Config → Config → Prop :=
  Machine.Reach vmSystem.step (TaskSystem.Meets (OnCall Ok))

variable {I : Proc → Prop} {Ok : Option Proc → Call → Prop}

theorem holds_viewOf (s : State) (g : Ghost) (t : Nat) :
    Holds 0 (s.procs.lookup t) (viewOf s g t) := ⟨heldBy g t, by simp [viewOf]⟩

/- A task that may make a call has its process, or boots. -/
theorem known_of_admits {s : State} {g : Ghost} {t : Nat} {c : Call} (hLink : Link s g)
    (hAdmits : vmSystem.admits s t c = true) : Known s t := by
  by_contra hNew
  have hNone : s.procs.lookup t = none := hLink.pids t (Nat.le_of_not_lt hNew)
  cases c with
  | boot elf =>
    simp only [vmSystem, Bool.and_eq_true, beq_iff_eq] at hAdmits
    apply hNew
    unfold Known
    omega
  | _ => simp [vmSystem, hNone] at hAdmits

theorem call_sound (hKeeps : Keeps I Ok) {s : State} {g : Ghost} {t : Nat} {c : Call}
    (hLink : Link s g) (hIdle : IdleWith I (viewOf s g t)) (hAdmits : vmSystem.admits s t c = true)
    (hOk : OnCall Ok s t c) : (vmRules I).wp c.prog (fun _ v => IdleWith I v) (viewOf s g t) := by
  have hv := holds_viewOf s g t
  by_cases hBoot : ∃ elf, c = .boot elf
  · rcases hBoot with ⟨elf, rfl⟩
    simp only [vmSystem, Bool.and_eq_true, beq_iff_eq] at hAdmits
    rw [OnCall, hAdmits.1, hLink.zero] at hOk
    rw [hAdmits.1, hLink.zero] at hv
    rcases hKeeps.boot elf hOk with ⟨bound, hSegs, hNew⟩
    rw [hAdmits.1]
    refine Rules.wp_mono ?_ (boot_spec hSegs hNew hv)
    intro _ v' hv' q hq
    rw [hv'.proc_eq] at hq
    cases hq
  · have hNotBoot : ∀ elf, c ≠ .boot elf := fun elf hEq => hBoot ⟨elf, hEq⟩
    cases hLookup : s.procs.lookup t with
    | none => cases c <;> simp_all [vmSystem]
    | some q =>
      rw [hLookup] at hv
      rw [OnCall, hLookup] at hOk
      have hI : I q := hIdle q hLookup
      refine Rules.wp_mono ?_ (call_spec hNotBoot (hKeeps.bounded q hI)
        (fun root tf => hKeeps.child q root tf hI) hv)
      rintro _ v' ⟨q', hv', hMoves⟩ q'' hq
      rw [hv'.proc_eq] at hq
      cases hq
      exact hKeeps.moves q q' c hI hOk hMoves

theorem reap_sound {s s' : State} {g : Ghost} {pid : Nat} (hLink : Link s g)
    (hReap : s.reap pid = some s') : ∃ g', TaskSystem.Follows viewOf Link Known (IdleWith I)
        s g pid s' g' ∧ IdleWith I (viewOf s' g' pid) := by
  unfold State.reap at hReap
  cases hLookup : s.procs.lookup pid with
  | none => simp [hLookup] at hReap
  | some q =>
    simp only [hLookup, Option.ite_none_right_eq_some, Option.some.injEq] at hReap
    rcases hReap with ⟨-, rfl⟩
    have hErased : ∀ {u}, s.procs.lookup u = none → (s.procs.erase pid).lookup u = none := by
      intro u hu
      by_cases hEq : u = pid
      · rw [hEq]
        exact AList.lookup_erase _ _
      · rw [AList.lookup_erase_ne hEq, hu]
    refine ⟨g, ⟨⟨?_, ?_, hLink.user, fun u hu => hErased (hLink.pids u hu), hErased hLink.zero,
      hLink.trampoline⟩, fun u hu => hu, ?_⟩, ?_⟩
    · refine Multiset.nodup_of_le ?_ hLink.exclusive
      rw [State.coe_owned, State.coe_owned, AList.total_of_lookup
          (fun _ q => ({q.trapframePa} : Multiset Nat)) hLookup]
      apply add_le_add_left
      have hFree : (↑(if q.trapframePa ≠ 0 then
            q.trapframePa :: s.free else s.free) : Multiset Nat) ≤
            {q.trapframePa} + ↑s.free := by
        split
        · rw [Multiset.singleton_add, Multiset.cons_coe]
        · exact Multiset.le_add_left _ _
      have hMono := add_le_add_left hFree (s.tables.total tableWorth +
          ((s.procs.erase pid).total fun _ q => {q.trapframePa}) + ↑s.kernel)
      convert hMono using 1 <;> abel
    · refine le_trans ?_ hLink.tables
      apply add_le_add_left
      exact AList.total_erase_le _ _ _
    · intro u hu
      left
      simp only [viewOf, AList.lookup_erase_ne hu]
    · intro q' hq'
      simp [viewOf] at hq'

theorem vmSystem_sound (hKeeps : Keeps I Ok) :
    TaskSystem.Sound vmSystem (vmRules I) viewOf Link Known (IdleWith I) (OnCall Ok) where
  cmd := by
    intro β c Q s s' g t b hLink hKnown hPre hExec
    exact cmd_sound c Q hLink hKnown hPre hExec
  known := known_of_admits
  call := call_sound hKeeps
  event := fun hLink _ hEvent => reap_sound hLink hEvent

theorem link_boot {free kernel : List Nat} {tramp : Nat} (hNodup : (free ++ kernel).Nodup)
    (hTramp : tramp ∈ kernel) : Link (State.boot free kernel tramp) 0 where
  exclusive := by
    rw [State.coe_owned]
    simpa [State.boot, inHands, framesOf_zero] using hNodup
  tables := by simp [State.boot, procTables, inHands]
  user := by
    intro root pt hLookup
    simp [State.boot] at hLookup
  pids _ _ := rfl
  zero := rfl
  trampoline := hTramp

/- What the system keeps holds in every state it reaches. -/
theorem verified_of_reach (hKeeps : Keeps I Ok) {free kernel : List Nat} {tramp : Nat}
    (hNodup : (free ++ kernel).Nodup) (hTramp : tramp ∈ kernel) {c : Config}
    (hReach : Reaches Ok (bootConfig free kernel tramp) c) :
    TaskSystem.Verified (vmRules I) viewOf Link Known (IdleWith I) c := by
  refine TaskSystem.verified_reach (vmSystem_sound hKeeps)
    hReach ⟨0, link_boot hNodup hTramp, ?_, ?_⟩
  · intro t _ q hq
    simp [viewOf, bootConfig, State.boot] at hq
  · intro t p hp
    simp [bootConfig] at hp

-- Exclusive Ownership

/-
  No frame has two owners; every process has a table of its
  own that exists; and a frame about to be freed has no owner,
  so that it is not free already, not a live trap frame, not
  in a page table and not the trampoline.
-/
structure Exclusive (c : Config) : Prop where
  owned : c.state.owned.Nodup
  tables : ∀ pid q root, c.state.procs.lookup pid = some q → q.pagetable = some root →
      (c.state.tables.lookup root).isSome
  apart : ∀ pid pid' q q' root, c.state.procs.lookup pid = some q →
      c.state.procs.lookup pid' = some q' → q.pagetable = some root →
          q'.pagetable = some root → pid = pid'
  trampoline : c.state.trampolinePa ∈ c.state.owned
  frees : ∀ t pa k, c.running t = some (.op (.free pa) k) → pa ∉ c.state.owned

theorem mem_roots_iff {s : State} {root : Nat} :
    root ∈ roots s ↔ (s.tables.lookup root).isSome := by
  rw [AList.lookup_isSome, AList.mem_keys]
  unfold roots AList.total AList.keys List.keys
  rw [← coe_map_eq_sum, Multiset.mem_coe]

/- The link says that ownership is exclusive. -/
theorem exclusive_of_verified {I : Proc → Prop} {c : Config}
    (hVer : TaskSystem.Verified (vmRules I) viewOf Link Known (IdleWith I) c) : Exclusive c := by
  rcases hVer with ⟨g, hLink, -, hRun⟩
  have hNodup := Multiset.nodup_add.mp hLink.exclusive
  have hProcs : procTables c.state ≤ roots c.state := (Multiset.le_add_right _ _).trans hLink.tables
  have hRoots : (roots c.state).Nodup := by
    unfold roots AList.total
    rw [← coe_map_eq_sum, Multiset.coe_nodup]
    exact c.state.tables.keys_nodup
  refine ⟨hNodup.1, ?_, ?_, ?_, ?_⟩
  · intro pid q root hLookup hRoot
    rw [← mem_roots_iff]
    refine Multiset.mem_of_le hProcs ?_
    unfold procTables
    rw [AList.total_of_lookup _ hLookup, hRoot]
    simp [tableRes]
  · intro pid pid' q q' root hLookup hLookup' hRoot hRoot'
    by_contra hNe
    have hOther : (c.state.procs.erase pid).lookup pid' = some q' := by
      rw [AList.lookup_erase_ne (Ne.symm hNe), hLookup']
    have hTwice : ({root} + {root} : Multiset Nat).Nodup := by
      refine Multiset.nodup_of_le ?_ hRoots
      refine le_trans ?_ hProcs
      unfold procTables
      rw [AList.total_of_lookup _ hLookup, AList.total_of_lookup _ hOther, hRoot, hRoot',
        ← add_assoc]
      simp only [tableRes, tablesOf_table]
      exact Multiset.le_add_right _ _
    simp at hTwice
  · exact List.mem_append_right _ hLink.trampoline
  · intro t pa k hTask
    rcases (hRun t _ hTask).2 with ⟨h, hHeld, -⟩
    intro hOwned
    have hHand : pa ∈ framesOf (inHands g) := by
      have hSplit : heldBy g t = {.frame pa} + h := hHeld
      rcases exists_give_add hSplit with ⟨g₀, rfl, -⟩
      rw [inHands_give_add, framesOf_add, framesOf_frame]
      exact Multiset.mem_add.mpr (.inl (Multiset.mem_singleton_self pa))
    exact Multiset.disjoint_left.mp hNodup.2.2 (Multiset.mem_coe.mpr hOwned) hHand

/- All loadable segments of an image end below a bound. -/
def ImageBelow (bound : Nat) : Call → Prop
  | .boot elf => SegmentsBelow bound elf
  | .execve elf => SegmentsBelow bound elf
  | _ => True

instance (bound : Nat) (c : Call) : Decidable (ImageBelow bound c) := by
  unfold ImageBelow
  cases c <;> infer_instance

/- The pages of a process and the room for its regions. -/
structure Confined (q : Proc) : Prop where
  bounded : Bounded q
  base : q.mmapBase ≤ MMAP_TOP

theorem mem_insertVma {u v : Vma} {vmas : List Vma} : u ∈ insertVma v vmas ↔ u = v ∨ u ∈ vmas := by
  have hSplit := List.takeWhile_append_dropWhile (p := fun u : Vma => u.start < v.start) (l := vmas)
  rw [insertVma, List.mem_append, List.mem_cons]
  nth_rewrite 3 [← hSplit]
  rw [List.mem_append]
  tauto

theorem mmapTop_le_trapframe : MMAP_TOP ≤ TRAPFRAME := by decide

theorem Confined.sbrk {q q' : Proc} {n : Int} (hq : Confined q) (hMoves : SbrkMoves n q q') :
    Confined q' := by
  rcases hMoves with ⟨-, rfl⟩ | ⟨-, hTop, rfl⟩
  · exact ⟨⟨(Nat.sub_le _ _).trans hq.bounded.size, hq.bounded.vmas⟩, hq.base⟩
  · exact ⟨⟨hTop.trans heapTop_le_trapframe, hq.bounded.vmas⟩, hq.base⟩

theorem Confined.mmap {q q' : Proc} {length : Nat} (hq : Confined q)
    (hMoves : MmapMoves length q q') : Confined q' := by
  rcases hMoves with ⟨hFits, -, u, hStart, hStop, rfl⟩
  have hTop : u.stop ≤ MMAP_TOP := by
    have hBase := hq.base
    omega
  refine ⟨⟨hq.bounded.size, ?_⟩, ?_⟩
  · intro v hv
    rcases mem_insertVma.mp hv with rfl | hOld
    · exact hTop.trans mmapTop_le_trapframe
    · exact hq.bounded.vmas v hOld
  · dsimp only
    omega

theorem confined_keeps : Keeps Confined (fun _ => ImageBelow TRAPFRAME) where
  bounded q hq := hq.bounded
  child q root tf hq := ⟨⟨hq.bounded.size, by simp [Proc.fresh]⟩, le_refl _⟩
  boot elf hOk := ⟨TRAPFRAME, hOk, fun root tf m hm => ⟨⟨hm, by simp [Proc.fresh]⟩, le_refl _⟩⟩
  moves q q' c hq hOk hMoves := by
    cases c with
    | boot elf | fork | pageFault va write | touch va write => exact hMoves ▸ hq
    | execve elf =>
      rcases hMoves with rfl | ⟨root, m, hMax, rfl⟩
      · exact hq
      · exact ⟨⟨hMax TRAPFRAME hOk, by simp⟩, le_refl _⟩
    | sbrk n lazy | brk addr =>
      rcases hMoves with rfl | hMoves
      · exact hq
      · exact hq.sbrk hMoves
    | mmap length prot flags fileInode offset =>
      rcases hMoves with rfl | hMoves
      · exact hq
      · exact hq.mmap hMoves
    | munmap addr length =>
      rcases hMoves with ⟨keep, rfl⟩
      refine ⟨⟨hq.bounded.size, ?_⟩, hq.base⟩
      intro v hv
      exact hq.bounded.vmas v (List.mem_of_mem_filter hv)
    | exit =>
      rw [hMoves]
      exact ⟨⟨hq.bounded.size, hq.bounded.vmas⟩, hq.base⟩

/-
  In every run that loads only images whose segments end at
  or below the trap frame, frames are owned exclusively.
-/
theorem frames_exclusive {free kernel : List Nat} {tramp : Nat} (hNodup : (free ++ kernel).Nodup)
    (hTramp : tramp ∈ kernel) {c : Config} (hReach : Reaches (fun _ => ImageBelow TRAPFRAME)
      (bootConfig free kernel tramp) c) : Exclusive c := exclusive_of_verified
    (verified_of_reach confined_keeps hNodup hTramp hReach)

/- A program image with one header and no file bytes. -/
def sampleImage (vaddr memsz : Nat) : List UInt8 :=
  ELF_MAGIC ++ List.replicate 12 0 ++
    toLe 2 2 ++ toLe 2 EXPECTED_MACHINE ++ toLe 4 1 ++
    toLe 8 0 ++ toLe 8 EHDR_SIZE ++ toLe 8 0 ++ toLe 4 0 ++
    toLe 2 EHDR_SIZE ++ toLe 2 PHDR_SIZE ++ toLe 2 1 ++ List.replicate 6 0 ++
    toLe 4 PT_LOAD ++ toLe 4 5 ++ toLe 8 0 ++ toLe 8 vaddr ++ toLe 8 vaddr ++ toLe 8 0 ++
    toLe 8 memsz ++ toLe 8 PGSIZE

def sampleFree : List Nat := (List.range 32).map fun i => 0x80100000 + i * PGSIZE

abbrev sampleTramp : Nat := 0x80007000

def sampleBoot : Config := bootConfig sampleFree [sampleTramp] sampleTramp

/- The first process grows, shrinks, forks and executes. -/
theorem frames_exclusive_forked : ∃ c : Config, Exclusive c ∧ ((c.state.procs.lookup 1).isSome &&
        (c.state.procs.lookup 2).isSome) = true := by
  have hServed : ∃ c, Reaches (fun _ => ImageBelow TRAPFRAME) sampleBoot c ∧
        ((c.state.procs.lookup 1).isSome && (c.state.procs.lookup 2).isSome) = true := by
    have hRun : (vmSystem.serve (OnCall fun _ => ImageBelow TRAPFRAME) 400 sampleBoot
        [(0, .boot (sampleImage 0 1)), (1, .sbrk 4096 0), (1, .fork), (1, .sbrk (-4096) 0),
          (2, .execve (sampleImage 4096 1))]).any (fun c => (c.state.procs.lookup 1).isSome &&
          (c.state.procs.lookup 2).isSome) = true := by decide +kernel
    exact TaskSystem.exists_reach_of_serve hRun
  rcases hServed with ⟨c, hReach, hProcs⟩
  exact ⟨c, frames_exclusive (by decide) (by decide) hReach, hProcs⟩

/-
  An image with an empty segment at the very end of the
  address space puts the break there; shrinking by one page
  then unmaps the trampoline and frees the kernel's page.
-/
theorem trampoline_freed : ∃ c : Config, Reaches (fun _ _ => True) sampleBoot c ∧
        sampleTramp ∈ c.state.free ∧ ¬ c.state.owned.Nodup := by
  have hRun : (vmSystem.serve (OnCall fun _ _ => True) 400 sampleBoot [(0, .boot (sampleImage 0 1)),
        (1, .execve (sampleImage MAXVA 0)), (1, .sbrk (-4096) 0)]).any
      (fun c => decide (sampleTramp ∈ c.state.free ∧ ¬ c.state.owned.Nodup)) = true := by
    decide +kernel
  rcases TaskSystem.exists_reach_of_serve hRun with ⟨c, hReach, hFreed⟩
  exact ⟨c, hReach, of_decide_eq_true hFreed⟩

end Vm

end PlayXv6
