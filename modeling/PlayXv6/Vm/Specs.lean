import PlayXv6.Vm.Logic

/-
  What the virtual-memory calls do to the process that makes
  them, and that they account for every frame they touch.

  Main declarations:
    * `Bounded`
    * `call_spec`
-/

namespace PlayXv6

open Rules

variable {elf : List UInt8} {root va n tf i addr length parent : Nat}

namespace Vm

-- Program Images

variable {I : Proc → Prop} {R : Multiset Res} {o : Option Proc} {v : View}

theorem copyPage_spec {ph : Phdr} (hv : Holds R o v) :
    (vmRules I).wp (copyPage elf ph va) (fun _ => Holds R o) v := by
  dsimp only [copyPage]
  refine wp_ite (fun _ => ?_) fun _ => hv
  refine wp_ite (fun _ => hv) fun _ => ?_
  exact wp_ite (fun _ => trivial) fun _ => hv

theorem loadPages_spec {ph : Phdr} (hv : Holds R o v) :
    (vmRules I).wp (loadPages root elf ph va n) (fun _ => Holds R o) v := by
  induction n generalizing va v with
  | zero => exact hv
  | succ n ih =>
    unfold loadPages
    simp only [Prog.bind_eq, Prog.lift_bind]
    refine wp_alloc hv (fun v' hv' => hv') ?_
    intro pa v' hv'
    refine wp_bind_of (map_user_spec (phdrPerms_user _) hv') ?_
    intro r v'' hv''
    cases r with
    | error e => exact wp_free hv'' fun w hw => hw
    | ok u =>
      refine wp_bind_of (copyPage_spec hv'') ?_
      intro r w hw
      cases r with
      | error e => exact hw
      | ok u => exact ih hw

/- The result is bounded by every bound on the segments that are read. -/
theorem loadSegments_spec {maxVa : Nat} (hv : Holds R o v) :
    (vmRules I).wp (loadSegments root elf i maxVa n) (fun r v' => Holds R o v' ∧
        ∀ m bound, r = .ok m → maxVa ≤ bound → (∀ j, i ≤ j → j < i + n → PhdrFits elf j →
            (phdrAt elf j).type = PT_LOAD → (phdrAt elf j).segEnd ≤ bound) → m ≤ bound) v := by
  induction n generalizing i maxVa v with
  | zero =>
    refine ⟨hv, ?_⟩
    intro m bound hm hMax _
    cases hm
    exact hMax
  | succ n ih =>
    dsimp only [loadSegments]
    refine wp_ite (fun _ => ⟨hv, fun m _ hm => by cases hm⟩) ?_
    intro hFits
    refine wp_ite (fun _ => trivial) fun _ => ?_
    refine wp_ite (fun _ => ?_) fun hType => ?_
    · refine wp_mono ?_ (ih hv)
      rintro r v' ⟨hv', hMax⟩
      refine ⟨hv', ?_⟩
      intro m bound hm hLe hSegs
      refine hMax m bound hm hLe ?_
      intro j hij hj
      exact hSegs j (by omega) (by omega)
    · refine wp_bind_of (loadPages_spec hv) ?_
      intro r v' hv'
      cases r with
      | error e => exact ⟨hv', fun m _ hm => by cases hm⟩
      | ok u =>
        refine wp_mono ?_ (ih hv')
        rintro r v'' ⟨hv'', hMax⟩
        refine ⟨hv'', ?_⟩
        intro m bound hm hLe hSegs
        have hSeg : (phdrAt elf i).segEnd ≤ bound := hSegs i (le_refl i) (by omega)
            (not_not.mp hFits) (not_not.mp hType)
        refine hMax m bound hm (max_le hLe hSeg) ?_
        intro j hij hj
        exact hSegs j (by omega) (by omega)

theorem loadProgram_spec (hv : Holds R o v) :
    (vmRules I).wp (loadProgram root elf) (fun r v' => Holds R o v' ∧
        ∀ entry m bound, r = .ok (entry, m) → SegmentsBelow bound elf → m ≤ bound) v := by
  have hFail : ∀ {w : View} {e : ElfError}, Holds R o w → Holds R o w ∧ ∀ entry m bound,
        (Except.error e : Except ElfError (Nat × Nat)) = .ok (entry, m) →
          SegmentsBelow bound elf → m ≤ bound := fun hw => ⟨hw, fun _ _ _ h => by cases h⟩
  unfold loadProgram
  refine wp_ite (fun _ => hFail hv) fun _ => ?_
  refine wp_ite (fun _ => hFail hv) fun _ => ?_
  refine wp_ite (fun _ => hFail hv) fun _ => ?_
  refine wp_bind_of (loadSegments_spec hv) ?_
  rintro r v' ⟨hv', hMax⟩
  cases r with
  | error e => exact hFail hv'
  | ok m =>
    refine ⟨hv', ?_⟩
    intro entry m' bound hm hSegs
    cases hm
    refine hMax m bound rfl (Nat.zero_le bound) ?_
    intro j _ hj
    exact hSegs j (by omega)

theorem mapStack_spec (hv : Holds R o v) : (vmRules I).wp (mapStack root i n)
      (fun _ => Holds R o) v := by
  induction n generalizing i v with
  | zero => exact hv
  | succ n ih =>
    unfold mapStack
    simp only [Prog.bind_eq, Prog.lift_bind]
    refine wp_alloc hv (fun v' hv' => hv') ?_
    intro pa v' hv'
    refine wp_bind_of (map_user_spec rfl hv') ?_
    intro r v'' hv''
    cases r with
    | error e => exact wp_free hv'' fun w hw => hw
    | ok u => exact ih hv''

theorem fillImage_spec (hv : Holds R o v) :
    (vmRules I).wp (fillImage root elf tf) (fun r v' => Holds R o v' ∧ ∀ m bound, r = .ok m →
          SegmentsBelow bound elf → m ≤ bound) v := by
  have hFail : ∀ {w : View} {e : UserVmError}, Holds R o w → Holds R o w ∧ ∀ m bound,
        (Except.error e : Except UserVmError Nat) = .ok m → SegmentsBelow bound elf → m ≤ bound :=
    fun hw => ⟨hw, fun _ _ h => by cases h⟩
  unfold fillImage
  refine wp_bind_of (mapKernelPages_spec hv) ?_
  intro b v' hv'
  refine wp_ite (fun _ => ?_) fun _ => hFail hv'
  refine wp_bind_of (loadProgram_spec hv') ?_
  rintro r v'' ⟨hv'', hMax⟩
  cases r with
  | error e => exact hFail hv''
  | ok image =>
    rcases image with ⟨entry, m⟩
    refine wp_bind_of (mapStack_spec hv'') ?_
    intro r w hw
    cases r with
    | error e => exact hFail hw
    | ok u =>
      refine ⟨hw, ?_⟩
      intro m' bound hm hSegs
      cases hm
      exact hMax entry m bound rfl hSegs

/- A finished image is a table of its own; a failed one leaves nothing. -/
theorem buildImageFromElf_spec (hv : Holds R o v) :
    (vmRules I).wp (buildImageFromElf elf tf) (fun r v' => match r with
        | .error _ => Holds R o v'
        | .ok (root, m) => Holds (.table root ::ₘ R) o v' ∧
            ∀ bound, SegmentsBelow bound elf → m ≤ bound)
      v := by
  unfold buildImageFromElf
  refine wp_bind_of (newPageTable_spec hv) ?_
  intro r v' hv'
  cases r with
  | none => simpa [tableRes] using hv'
  | some root =>
    have hTable : Holds (.table root ::ₘ R) o v' := by simpa [tableRes] using hv'
    refine wp_bind_of (fillImage_spec hTable) ?_
    rintro r v'' ⟨hv'', hMax⟩
    cases r with
    | ok m => exact ⟨hv'', fun bound => hMax m bound rfl⟩
    | error e =>
      exact wp_bind_of (dropPageTable_spec hv'') fun _ w hw => hw

-- The Process

/- The process's own pages lie below the trap frame: its break and all its regions. -/
structure Bounded (q : Proc) : Prop where
  size : q.size ≤ TRAPFRAME
  vmas : ∀ u ∈ q.vmas, u.stop ≤ TRAPFRAME

/- What `sbrk` by `n` may do to the record. -/
def SbrkMoves (n : Int) (q q' : Proc) : Prop :=
  (n < 0 ∧ q' = { q with size := q.size - (-n).toNat }) ∨ (0 < n ∧ q.size + n.toNat ≤ HEAP_TOP ∧
      q' = { q with size := q.size + n.toNat })

/- What `mmap` of `length` bytes may do to the record. -/
def MmapMoves (length : Nat) (q q' : Proc) : Prop :=
  pageRoundUp length ≤ q.mmapBase ∧
    MMAP_TOP / 2 ≤ q.mmapBase - pageRoundUp length ∧
    ∃ u : Vma, u.start = q.mmapBase - pageRoundUp length ∧ u.stop = u.start + pageRoundUp length ∧
      q' = { q with
        mmapBase := u.start
        vmas := insertVma u q.vmas }

/- What `exec` of an image may do to the record. -/
def ExecMoves (elf : List UInt8) (q q' : Proc) : Prop :=
  ∃ root m, (∀ bound, SegmentsBelow bound elf → m ≤ bound) ∧
    q' = { q with
      pagetable := some root
      size := m
      vmas := []
      mmapBase := MMAP_TOP }

/- What a call may do to the record of its process. -/
def Moves (q q' : Proc) : Call → Prop
  | .boot _ => q' = q
  | .fork => q' = q
  | .execve elf => q' = q ∨ ExecMoves elf q q'
  | .sbrk n _ => q' = q ∨ SbrkMoves n.toInt q q'
  | .brk addr => q' = q ∨ SbrkMoves (brkDelta q.size addr.toNat) q q'
  | .mmap length _ _ _ _ => q' = q ∨ MmapMoves length.toNat q q'
  | .munmap _ _ => ∃ keep : Vma → Bool, q' = { q with vmas := q.vmas.filter keep }
  | .pageFault _ _ => q' = q
  | .touch _ _ => q' = q
  | .exit => q' = { q with pagetable := none, zombie := true }

/- The process is left in a record that `M` allows. -/
def Leaves (M : Proc → Prop) (v : View) : Prop := ∃ q', Holds 0 (some q') v ∧ M q'

variable {q : Proc}

theorem trapframe_aligned : PGSIZE ∣ TRAPFRAME := by decide

theorem heapTop_le_trapframe : HEAP_TOP ≤ TRAPFRAME := by decide

theorem sysSbrk_spec {n lazy : Int} (hBounded : Bounded q) (hv : Holds 0 (some q) v) :
    (vmRules I).wp (sysSbrk n lazy) (fun _ => Leaves fun q' => q' = q ∨ SbrkMoves n q q')
      v := by
  have hSame : ∀ {w : View}, Holds 0 (some q) w → Leaves (fun q' => q' = q ∨ SbrkMoves n q q') w :=
    fun hw => ⟨q, hw, .inl rfl⟩
  unfold sysSbrk
  simp only [Prog.bind_eq, Prog.lift_bind]
  refine wp_proc hv ?_
  refine wp_ite (fun _ => hSame hv) fun hNonzero => ?_
  refine wp_ite (fun hNeg => ?_) fun hNonneg => ?_
  · refine wp_ite (fun _ => hSame hv) fun _ => ?_
    intro root
    -- the pages given up end at the old break
    have hPages : ∀ i < pages (pageRoundUp (q.size - (-n).toNat)) (pageRoundUp q.size),
        pageRoundUp (q.size - (-n).toNat) + i * PGSIZE <
          TRAPFRAME := fun i hi => (add_mul_lt_of_lt_pages hi).trans_le
        (pageRoundUp_le trapframe_aligned hBounded.size)
    refine wp_bind_of (unmapRange_spec hPages hv) ?_
    intro _ v' hv'
    refine wp_setSize hv' ?_
    intro v'' hv''
    exact ⟨_, hv'', .inr (.inl ⟨hNeg, rfl⟩)⟩
  · have hPos : 0 < n := by omega
    refine wp_ite (fun _ => hSame hv) fun _ => ?_
    refine wp_ite (fun _ => hSame hv) fun hTop => ?_
    have hLe : q.size + n.toNat ≤ HEAP_TOP := Nat.le_of_not_lt hTop
    have hGrown : ∀ {w : View}, Holds 0 (some { q with size := q.size + n.toNat }) w →
          Leaves (fun q' => q' = q ∨ SbrkMoves n q q') w :=
      fun hw => ⟨_, hw, .inr (.inr ⟨hPos, hLe, rfl⟩)⟩
    refine wp_ite (fun _ => ?_) fun _ => ?_
    · exact wp_setSize hv fun v' hv' => hGrown hv'
    · intro root
      have hPages : ∀ i < pages (pageRoundUp q.size) (pageRoundUp (q.size + n.toNat)),
          pageRoundUp q.size + i * PGSIZE < TRAPFRAME :=
        fun i hi => (add_mul_lt_of_lt_pages hi).trans_le (pageRoundUp_le trapframe_aligned
            (hLe.trans heapTop_le_trapframe))
      refine wp_bind_of (growRange_spec hPages hv) ?_
      intro b v' hv'
      refine wp_ite (fun _ => ?_) fun _ => hSame hv'
      exact wp_setSize hv' fun v'' hv'' => hGrown hv''

theorem sysBrk_spec (hBounded : Bounded q) (hv : Holds 0 (some q) v) :
    (vmRules I).wp (sysBrk addr) (fun _ => Leaves fun q' =>
        q' = q ∨ SbrkMoves (brkDelta q.size addr) q q') v := by
  unfold sysBrk
  simp only [Prog.bind_eq, Prog.lift_bind]
  refine wp_proc hv ?_
  refine wp_ite (fun _ => ⟨q, hv, .inl rfl⟩) fun _ => ?_
  refine wp_ite (fun _ => ⟨q, hv, .inl rfl⟩) fun _ => ?_
  exact wp_bind_of (sysSbrk_spec hBounded hv) fun _ v' hv' => hv'

theorem sysMmap_spec {prot flags : UInt32} {fileInode : Option Nat} {offset : Int}
    (hv : Holds 0 (some q) v) : (vmRules I).wp (sysMmap length prot flags fileInode offset)
      (fun _ => Leaves fun q' => q' = q ∨ MmapMoves length q q') v := by
  have hSame : Leaves (fun q' => q' = q ∨ MmapMoves length q q') v := ⟨q, hv, .inl rfl⟩
  unfold sysMmap
  simp only [Prog.bind_eq, Prog.lift_bind]
  refine wp_ite (fun _ => hSame) fun _ => ?_
  refine wp_ite (fun _ => hSame) fun _ => ?_
  refine wp_ite (fun _ => hSame) fun _ => ?_
  refine wp_ite (fun _ => hSame) fun _ => ?_
  refine wp_ite (fun _ => hSame) fun _ => ?_
  refine wp_proc hv ?_
  refine wp_ite (fun _ => hSame) fun hFits => ?_
  refine wp_ite (fun _ => hSame) fun hLow => ?_
  refine wp_setMmapBase hv ?_
  intro v' hv'
  refine wp_setVmas hv' ?_
  intro v'' hv''
  exact ⟨_, hv'', .inr ⟨Nat.le_of_not_lt hFits, Nat.le_of_not_lt hLow, _, rfl, rfl, rfl⟩⟩

theorem sysMunmap_spec (hBounded : Bounded q) (hv : Holds 0 (some q) v) :
    (vmRules I).wp (sysMunmap addr length) (fun _ => Leaves fun q' => ∃ keep : Vma → Bool,
        q' = { q with vmas := q.vmas.filter keep }) v := by
  have hSame : Leaves (fun q' => ∃ keep : Vma → Bool,
      q' = { q with vmas := q.vmas.filter keep }) v := ⟨q, hv, fun _ => true, by simp⟩
  unfold sysMunmap
  simp only [Prog.bind_eq, Prog.lift_bind]
  refine wp_ite (fun _ => hSame) fun _ => ?_
  refine wp_ite (fun _ => hSame) fun _ => ?_
  refine wp_proc hv ?_
  refine wp_ite (fun _ => hSame) fun _ => ?_
  refine wp_ite (fun _ => hSame) fun _ => ?_
  refine wp_setVmas hv ?_
  intro v' hv' root
  refine wp_bind_of (P := fun _ => Holds 0 _) (wp_forEach
      (fun l w => (∀ u ∈ l, u ∈ q.vmas) ∧ Holds 0 _ w) ?_ ⟨?_, hv'⟩ fun w hw => hw.2) ?_
  · rintro u rest w ⟨hAll, hw⟩
    have hu := hBounded.vmas u (hAll u List.mem_cons_self)
    refine wp_mono ?_ (unmapRange_spec (fun i hi => (add_mul_lt_of_lt_pages hi).trans_le hu)
      hw)
    intro _ w' hw'
    exact ⟨fun x hx => hAll x (List.mem_cons_of_mem u hx), hw'⟩
  · intro u hu
    exact List.mem_of_mem_filter (List.mem_reverse.mp hu)
  · intro _ w hw
    exact ⟨_, hw, _, rfl⟩

theorem demandPerm_user {anonymous : Bool} {perm : PtePerm}
    (hPerm : q.demandPerm va anonymous = some perm) : perm.user = true := by
  unfold Proc.demandPerm at hPerm
  split at hPerm
  · cases hPerm
    rfl
  · rcases Option.map_eq_some_iff.mp hPerm with ⟨u, -, rfl⟩
    rfl

theorem lazyMapPageAsync_spec {write : Bool} (hv : Holds 0 (some q) v) :
    (vmRules I).wp (lazyMapPageAsync va write) (fun _ => Holds 0 (some q)) v := by
  unfold lazyMapPageAsync
  simp only [Prog.bind_eq, Prog.lift_bind]
  refine wp_proc hv ?_
  cases hPerm : q.demandPerm va false with
  | none => exact hv
  | some perm =>
    intro root
    refine wp_bind_of (translate_spec hv) ?_
    rintro r v' ⟨hv', -⟩
    cases r with
    | some e => exact hv'
    | none => exact mapFresh_spec (demandPerm_user hPerm) hv'

theorem demandMapZeroPage_spec {page : Nat} (hv : Holds 0 (some q) v) :
    (vmRules I).wp (demandMapZeroPage page) (fun _ => Holds 0 (some q)) v := by
  unfold demandMapZeroPage
  simp only [Prog.bind_eq, Prog.lift_bind]
  refine wp_proc hv ?_
  cases hPerm : q.demandPerm page true with
  | none => exact hv
  | some perm =>
    refine wp_alloc hv (fun v' hv' => hv') ?_
    intro pa v' hv' root
    refine wp_bind_of (translate_spec hv') ?_
    rintro r v'' ⟨hv'', -⟩
    cases r with
    | some e => exact wp_free hv'' fun w hw => hw
    | none =>
      refine wp_bind_of (map_user_spec (demandPerm_user hPerm) hv'') ?_
      intro r w hw
      cases r with
      | ok u => exact hw
      | error e => exact wp_free hw fun w' hw' => hw'

theorem translateUserPerm_spec {write : Bool} (hv : Holds 0 (some q) v) :
    (vmRules I).wp (translateUserPerm va write) (fun _ => Holds 0 (some q)) v := by
  unfold translateUserPerm
  simp only [Prog.bind_eq, Prog.lift_bind]
  intro root
  refine wp_bind_of (translate_spec hv) ?_
  rintro r v' ⟨hv', -⟩
  cases r with
  | some e => exact hv'
  | none =>
    refine wp_bind_of (demandMapZeroPage_spec hv') ?_
    intro b v'' hv''
    refine wp_ite (fun _ => ?_) fun _ => hv''
    refine wp_bind_of (translate_spec hv'') ?_
    rintro r w ⟨hw, -⟩
    cases r with
    | some e | none => exact hw

-- Creating and Ending Processes

theorem copyPages_spec (hVa : ∀ i < n, va + i * PGSIZE < TRAPFRAME)
    (hv : Holds R (some q) v) : (vmRules I).wp (copyPages parent root va n)
      (fun _ => Holds R (some q)) v := by
  induction n generalizing va v with
  | zero => exact hv
  | succ n ih =>
    rcases below_of_succ hVa with ⟨hFirst, hRest⟩
    unfold copyPages
    simp only [Prog.bind_eq, Prog.lift_bind]
    refine wp_bind_of (translate_spec hv) ?_
    rintro r v' ⟨hv', hUser⟩
    cases r with
    | none => exact ih hRest hv'
    | some e =>
      refine wp_alloc hv' (fun v'' hv'' => hv'') ?_
      intro pa v'' hv''
      refine wp_fill (wp_bind_of (map_user_spec (hUser e rfl hFirst) hv'') ?_)
      intro r w hw
      cases r with
      | ok u => exact ih hRest hw
      -- the frame that could not be mapped is lost
      | error e => exact hw.weaken

theorem copyStack_spec (hVa : ∀ j < i + n,
      STACK_VA_BASE + j * PGSIZE < TRAPFRAME) (hv : Holds R (some q) v) :
    (vmRules I).wp (copyStack parent root i n) (fun _ => Holds R (some q)) v := by
  induction n generalizing i v with
  | zero => exact hv
  | succ n ih =>
    unfold copyStack
    simp only [Prog.bind_eq, Prog.lift_bind]
    refine wp_bind_of (translate_spec hv) ?_
    rintro r v' ⟨hv', hUser⟩
    cases r with
    | none => exact hv'
    | some e =>
      refine wp_alloc hv' (fun v'' hv'' => hv'') ?_
      intro pa v'' hv''
      refine wp_fill (wp_bind_of (map_user_spec (hUser e rfl (hVa i (by omega))) hv'') ?_)
      intro r w hw
      cases r with
      | ok u =>
        refine ih ?_ hw
        intro j hj
        exact hVa j (by omega)
      | error e => exact hw.weaken

theorem stack_lt_trapframe {j : Nat} (hj : j < STACK_PAGES) :
    STACK_VA_BASE + j * PGSIZE < TRAPFRAME := by
  simp only [STACK_VA_BASE, STACK_VA_TOP, STACK_PAGES, TRAPFRAME, TRAMPOLINE, MAXVA, PGSIZE] at *
  omega

theorem fillChild_spec (hBounded : Bounded q) (hv : Holds R (some q) v) :
    (vmRules I).wp (fillChild root tf q.size) (fun _ => Holds R (some q)) v := by
  unfold fillChild
  simp only [Prog.bind_eq, Prog.lift_bind]
  refine wp_bind_of (mapKernelPages_spec hv) ?_
  intro b v' hv'
  refine wp_ite (fun _ => ?_) fun _ => hv'
  intro parent
  refine wp_bind_of (copyPages_spec ?_ hv') ?_
  · intro i hi
    exact (add_mul_lt_of_lt_pages hi).trans_le hBounded.size
  · intro b v'' hv''
    refine wp_ite (fun _ => ?_) fun _ => hv''
    refine copyStack_spec ?_ hv''
    intro j hj
    exact stack_lt_trapframe (by omega)

/- A failed fork still holds the trap frame. -/
theorem forkFromInner_spec (hBounded : Bounded q)
    (hChild : ∀ root, I (Proc.fresh root tf q.size)) (hv : Holds {.frame tf} (some q) v) :
    (vmRules I).wp (forkFromInner tf) (fun r v' => match r with
        | some _ => Holds 0 (some q) v'
        | none => Holds {.frame tf} (some q) v') v := by
  unfold forkFromInner
  simp only [Prog.bind_eq, Prog.lift_bind]
  refine wp_proc hv ?_
  refine wp_bind_of (newPageTable_spec hv) ?_
  intro r v' hv'
  cases r with
  | none => simpa [tableRes] using hv'
  | some root =>
    have hTable : Holds (.table root ::ₘ {.frame tf}) (some q) v' := by simpa [tableRes] using hv'
    refine wp_bind_of (fillChild_spec hBounded hTable) ?_
    intro b v'' hv''
    refine wp_ite (fun _ => ?_) fun _ => ?_
    · exact wp_withLayout (R := 0) (hChild root) hv'' fun pid w hw => hw
    · exact wp_bind_of (dropPageTable_spec hv'') fun _ w hw => hw

theorem forkFrom_spec (hBounded : Bounded q) (hChild : ∀ root tf, I (Proc.fresh root tf q.size))
    (hv : Holds 0 (some q) v) : (vmRules I).wp forkFrom (fun _ => Holds 0 (some q)) v := by
  unfold forkFrom
  simp only [Prog.bind_eq, Prog.lift_bind]
  intro n
  refine wp_ite (fun _ => hv) fun _ => ?_
  refine wp_alloc hv (fun v' hv' => hv') ?_
  intro tf v' hv'
  refine wp_bind_of (forkFromInner_spec hBounded (fun root => hChild root tf) hv') ?_
  intro r v'' hv''
  cases r with
  | some pid => exact hv''
  | none => exact wp_free (R := 0) hv'' fun w hw => hw

theorem sysExecve_spec (hv : Holds 0 (some q) v) : (vmRules I).wp (sysExecve elf)
      (fun _ => Leaves fun q' => q' = q ∨ ExecMoves elf q q') v := by
  unfold sysExecve
  simp only [Prog.bind_eq, Prog.lift_bind]
  refine wp_proc hv ?_
  refine wp_bind_of (buildImageFromElf_spec hv) ?_
  intro r v' hv'
  cases r with
  | error e => exact ⟨q, hv', .inl rfl⟩
  | ok image =>
    rcases image with ⟨root, m⟩
    rcases hv' with ⟨hv', hMax⟩
    refine wp_swapTable (R := 0) (by simpa [tableRes] using hv') ?_
    intro v'' hv''
    refine wp_bind_of (dropOld_spec hv'') ?_
    intro _ w hw
    refine wp_setSize hw ?_
    intro w hw
    refine wp_setVmas hw ?_
    intro w hw
    refine wp_setMmapBase hw ?_
    intro w hw
    exact ⟨_, hw, .inr ⟨root, m, hMax, rfl⟩⟩

theorem sysExit_spec (hv : Holds 0 (some q) v) : (vmRules I).wp sysExit (fun _ => Leaves fun q' =>
        q' = { q with pagetable := none, zombie := true })
      v := by
  unfold sysExit
  simp only [Prog.bind_eq, Prog.lift_bind]
  refine wp_swapTable (R := 0) (by simpa [tableRes] using hv) ?_
  intro v' hv'
  refine wp_bind_of (dropOld_spec hv') ?_
  intro _ w hw
  refine wp_setZombie hw ?_
  intro w hw
  exact ⟨_, hw, rfl⟩

theorem call_spec {c : Call} (hNotBoot : ∀ elf, c ≠ .boot elf) (hBounded : Bounded q)
    (hChild : ∀ root tf, I (Proc.fresh root tf q.size)) (hv : Holds 0 (some q) v) :
    (vmRules I).wp c.prog (fun _ => Leaves fun q' => Moves q q' c) v := by
  cases c with
  | boot elf => exact absurd rfl (hNotBoot elf)
  | fork =>
    refine wp_bind_of (forkFrom_spec hBounded hChild hv) ?_
    intro r v' hv'
    cases r with
    | none | some pid => exact ⟨q, hv', rfl⟩
  | execve elf => exact sysExecve_spec hv
  | sbrk n lazy => exact sysSbrk_spec hBounded hv
  | brk addr => exact sysBrk_spec hBounded hv
  | mmap length prot flags fileInode offset => exact sysMmap_spec hv
  | munmap addr length => exact sysMunmap_spec hBounded hv
  | pageFault va write =>
    exact wp_bind_of (lazyMapPageAsync_spec hv) fun _ v' hv' => ⟨q, hv', rfl⟩
  | touch va write =>
    exact wp_bind_of (translateUserPerm_spec hv) fun _ v' hv' => ⟨q, hv', rfl⟩
  | exit => exact sysExit_spec hv

/- Booting makes the first process from a bounded image. -/
theorem boot_spec {bound : Nat} (hSegs : SegmentsBelow bound elf)
    (hChild : ∀ root tf m, m ≤ bound → I (Proc.fresh root tf m)) (hv : Holds 0 none v) :
    (vmRules I).wp (Call.boot elf).prog (fun _ => Holds 0 none) v := by
  simp only [Call.prog, newInitcode, Prog.bind_eq, Prog.lift_bind]
  refine wp_alloc hv (fun v' hv' => trivial) ?_
  intro tf v' hv'
  refine wp_bind_of (buildImageFromElf_spec hv') ?_
  intro r v'' hv''
  cases r with
  | error e => trivial
  | ok image =>
    rcases image with ⟨root, m⟩
    rcases hv'' with ⟨hv'', hMax⟩
    exact wp_withLayout (hChild root tf m (hMax bound hSegs)) hv'' fun pid w hw => hw

end Vm

end PlayXv6
