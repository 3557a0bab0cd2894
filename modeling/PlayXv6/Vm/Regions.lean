import PlayXv6.Vm.Break

/-
  The regions that `mmap` hands out and `munmap` takes back.

  Regions are placed downwards from the base, so a new one is
  below all others.  A length whose rounding wraps gives an
  empty region; and `munmap`, like a shrink of the heap,
  leaves a page that has no access bit.

  Main declarations:
    * `RegionsOk`
    * `regions_of_run`
-/

namespace PlayXv6

namespace Vm

-- Regions

/- The first page of a region, and how many it has. -/
def Vma.page (v : Vma) : Nat := v.start / PGSIZE

def Vma.count (v : Vma) : Nat := v.stop / PGSIZE - v.start / PGSIZE

/- Page `p` lies in the region. -/
def Vma.Has (v : Vma) (p : Nat) : Prop := v.page ≤ p ∧ p < v.page + v.count

/- The regions are in order, apart and not empty, between the base and the top. -/
structure RegionsOk (q : Proc) : Prop where
  base : PGSIZE ∣ q.mmapBase
  low : MMAP_TOP / 2 ≤ q.mmapBase
  high : q.mmapBase ≤ MMAP_TOP
  inside : ∀ v ∈ q.vmas, q.mmapBase ≤ v.start ∧ v.start < v.stop ∧ v.stop ≤ MMAP_TOP
  aligned : ∀ v ∈ q.vmas, PGSIZE ∣ v.start ∧ PGSIZE ∣ v.stop
  sorted : q.vmas.Pairwise fun u v => u.stop ≤ v.start

/- What is asked of `mmap`, and where the region then is. -/
structure MmapAdmits (q : Proc) (length : Nat) (prot flags : UInt32) (fileInode : Option Nat)
    (offset : Int) : Prop where
  asked : length ≠ 0
  priv : flags &&& MAP_PRIVATE ≠ 0
  access : prot &&& ~~~(PROT_READ ||| PROT_WRITE ||| PROT_EXEC) = 0
  paged : ¬ (offset < 0 ∨ offset.toNat % PGSIZE ≠ 0)
  file : ¬ (flags &&& MAP_ANONYMOUS = 0 ∧ fileInode = none)
  room : pageRoundUp length ≤ q.mmapBase
  low : MMAP_TOP / 2 ≤ q.mmapBase - pageRoundUp length

inductive MmapEffect (q : Proc) (length : Nat) : Prop → Int → Proc → Prop
  | refuse {admits} (hNot : ¬ admits) : MmapEffect q length admits (-1) q
  | place {admits v} (hAdmits : admits) (hStart : v.start = q.mmapBase - pageRoundUp length)
      (hStop : v.stop = v.start + pageRoundUp length) : MmapEffect q length admits (asI64 v.start)
        { q with mmapBase := v.start, vmas := insertVma v q.vmas }

/- The regions between two addresses, and the rest. -/
def Proc.within (q : Proc) (addr stop : Nat) : List Vma := q.vmas.filter fun v => v.inside addr stop

def Proc.without (q : Proc) (addr stop : Nat) : Proc :=
  { q with vmas := q.vmas.filter fun v => !v.inside addr stop }

/- What is asked of `munmap`: some regions, and none is cut. -/
structure MunmapAdmits (q : Proc) (addr length : Nat) : Prop where
  paged : ¬ (addr % PGSIZE ≠ 0 ∨ length = 0)
  fits : addr + pageRoundUp length < USIZE
  whole : ¬ (q.vmas.any fun v => !v.inside addr (addr + pageRoundUp length) &&
    v.meets addr (addr + pageRoundUp length)) = true
  some : q.within addr (addr + pageRoundUp length) ≠ []

def PageMap.frames (f : PageMap) (v : Vma) : List Nat :=
  (List.range' v.page v.count).filterMap fun p => (f p).map Pte.pa

/- The regions `vs` go, with their pages, and nothing else. -/
structure Removed (vs : List Vma) (f f' : PageMap) (free free' : List Nat) : Prop where
  gone : ∀ v ∈ vs, ∀ p, v.Has p → f' p = none
  kept : ∀ p, (∀ v ∈ vs, ¬ v.Has p) → f' p = f p
  freed : free'.Perm (vs.flatMap f.frames ++ free)

/- What a call does to the regions, the pages and the frames. -/
def RegionOk (q q' : Proc) (f f' : PageMap) (free free' : List Nat) (r : Int) : Call → Prop
  | .mmap length _ _ _ _ => RegionsOk q' ∧ f' = f ∧ (r = -1 → q' = q) ∧
      (r ≠ -1 → ∃ base : Nat, r = base ∧ PGSIZE ∣ base ∧ MMAP_TOP / 2 ≤ base ∧
        base + length.toNat ≤ MMAP_TOP ∧
          ∀ v ∈ q.vmas, base + length.toNat ≤ v.start ∨ v.stop ≤ base)
  | .munmap addr length => RegionsOk q' ∧ (r = -1 → q' = q ∧ f' = f ∧ free' = free) ∧
      (r ≠ -1 → r = 0 ∧ q' = q.without addr.toNat (addr.toNat + ceilPage length.toNat * PGSIZE) ∧
        Removed (q.within addr.toNat (addr.toNat + ceilPage length.toNat * PGSIZE)) f f' free free')
  | _ => True

/- The length does not wrap; what is unmapped has some access. -/
def RegionFits (q : Proc) (f : PageMap) : Call → Prop
  | .mmap length prot flags fileInode offset =>
    MmapAdmits q length.toNat prot flags fileInode offset.toInt → length.toNat ≤ USIZE - PGSIZE
  | .munmap addr length => MunmapAdmits q addr.toNat length.toNat →
      ∀ v ∈ q.within addr.toNat (addr.toNat + ceilPage length.toNat * PGSIZE), ∀ p e, v.Has p →
        f p = some e → e.isLeaf
  | _ => True

def Call.isRegion : Call → Bool
  | .mmap .. => true
  | .munmap .. => true
  | _ => false

/-
  A process that begins without regions, and calls `mmap` and
  `munmap` as they fit; whatever else happens leaves its
  regions alone.
-/
inductive RegionRun (pid root : Nat) : State → Prop
  | start {s q f} (hProc : s.procs.lookup pid = some q) (hRoot : q.pagetable = some root)
      (hMaps : s.Maps root f) (hVmas : q.vmas = []) (hBase : q.mmapBase = MMAP_TOP) :
      RegionRun pid root s
  | call {s s' q f r call} (hRun : RegionRun pid root s) (hProc : s.procs.lookup pid = some q)
      (hMaps : s.Maps root f) (hCall : call.isRegion) (hFits : RegionFits q f call)
      (hStep : Prog.run (exec pid) call.prog s = .ok r s') : RegionRun pid root s'
  | other {s s' q q' f} (hRun : RegionRun pid root s) (hProc : s.procs.lookup pid = some q)
      (hProc' : s'.procs.lookup pid = some q') (hMaps : s'.Maps root f) (hVmas : q'.vmas = q.vmas)
      (hBase : q'.mmapBase = q.mmapBase) (hRoot : q'.pagetable = q.pagetable) :
      RegionRun pid root s'

-- Mapping

variable {s : State} {pid root : Nat} {q : Proc} {f : PageMap}

theorem run_sysMmap (hProc : s.procs.lookup pid = some q) (length : Nat) (prot flags : UInt32)
    (fileInode : Option Nat) (offset : Int) : ∃ r s' q',
      Prog.run (exec pid) (sysMmap length prot flags fileInode offset) s = .ok r s' ∧
        s'.procs.lookup pid = some q' ∧ s'.tables = s.tables ∧
          MmapEffect q length (MmapAdmits q length prot flags fileInode offset) r q' := by
  unfold sysMmap
  by_cases hLen : length = 0
  · rw [if_pos hLen]
    exact ⟨-1, s, q, rfl, hProc, rfl, .refuse fun h => h.asked hLen⟩
  rw [if_neg hLen]
  by_cases hPrivate : flags &&& MAP_PRIVATE = 0
  · rw [if_pos hPrivate]
    exact ⟨-1, s, q, rfl, hProc, rfl, .refuse fun h => h.priv hPrivate⟩
  rw [if_neg hPrivate]
  by_cases hProt : prot &&& ~~~(PROT_READ ||| PROT_WRITE ||| PROT_EXEC) ≠ 0
  · rw [if_pos hProt]
    exact ⟨-1, s, q, rfl, hProc, rfl, .refuse fun h => hProt h.access⟩
  rw [if_neg hProt]
  by_cases hOff : offset < 0 ∨ offset.toNat % PGSIZE ≠ 0
  · rw [if_pos hOff]
    exact ⟨-1, s, q, rfl, hProc, rfl, .refuse fun h => h.paged hOff⟩
  rw [if_neg hOff]
  by_cases hFile : flags &&& MAP_ANONYMOUS = 0 ∧ fileInode = none
  · rw [if_pos hFile]
    exact ⟨-1, s, q, rfl, hProc, rfl, .refuse fun h => h.file hFile⟩
  rw [if_neg hFile, Prog.run_then (run_proc hProc)]
  by_cases hRoom : pageRoundUp length > q.mmapBase
  · rw [if_pos hRoom]
    exact ⟨-1, s, q, rfl, hProc, rfl, .refuse fun h => absurd h.room (not_le.mpr hRoom)⟩
  rw [if_neg hRoom]
  by_cases hLow : q.mmapBase - pageRoundUp length < MMAP_TOP / 2
  · rw [if_pos hLow]
    exact ⟨-1, s, q, rfl, hProc, rfl, .refuse fun h => absurd h.low (not_le.mpr hLow)⟩
  rw [if_neg hLow]
  simp only [Prog.bind_eq, Prog.lift_bind, Prog.run_op, exec, State.onProc, hProc,
    Outcome.andThen_ok, AList.lookup_insert]
  have hAdmits : MmapAdmits q length prot flags fileInode offset :=
    ⟨hLen, hPrivate, not_not.mp hProt, hOff, hFile, not_lt.mp hRoom, not_lt.mp hLow⟩
  exact ⟨_, _, _, rfl, AList.lookup_insert _, rfl, .place (v := ⟨_, _, _, _, _⟩) hAdmits rfl rfl⟩

/- A new region goes to the front. -/
theorem RegionsOk.insertVma_eq (hOk : RegionsOk q) {v : Vma} (hLe : v.start ≤ q.mmapBase) :
    insertVma v q.vmas = v :: q.vmas := by
  have hFirst : ∀ u ∈ q.vmas, ¬ u.start < v.start := fun u hu => by
    have hStart := (hOk.inside u hu).1
    omega
  unfold insertVma
  cases hVmas : q.vmas with
  | nil => rfl
  | cons u us =>
    have hu := hFirst u (by rw [hVmas]; exact List.mem_cons_self)
    simp [hu]

theorem pageRoundUp_eq {length : Nat} (hLen : length ≤ USIZE - PGSIZE) :
    pageRoundUp length = ceilPage length * PGSIZE := by
  unfold pageRoundUp pageRoundDown ceilPage
  rw [Nat.mod_eq_of_lt]
  simp only [USIZE, PGSIZE] at *
  omega

theorem pageRoundUp_wraps {length : Nat} (hLen : ¬ length ≤ USIZE - PGSIZE) (hLt : length < USIZE) :
    pageRoundUp length = 0 := by
  simp only [pageRoundUp, pageRoundDown, USIZE, PGSIZE] at *
  omega

theorem le_ceilPage (length : Nat) : length ≤ ceilPage length * PGSIZE := by
  simp only [ceilPage, PGSIZE]
  omega

/- A region of whole pages is placed below the others. -/
theorem RegionsOk.place (hOk : RegionsOk q) {v : Vma} {n : Nat} (hLe : n * PGSIZE ≤ q.mmapBase)
    (hLow : MMAP_TOP / 2 ≤ q.mmapBase - n * PGSIZE) (hStart : v.start = q.mmapBase - n * PGSIZE)
    (hStop : v.stop = v.start + n * PGSIZE) :
    RegionsOk { q with mmapBase := v.start, vmas := insertVma v q.vmas } ↔ n ≠ 0 := by
  have hBase := hOk.base
  have hHigh := hOk.high
  have hAligned : PGSIZE ∣ v.start ∧ PGSIZE ∣ v.stop := by
    rw [hStop, hStart]
    have hStart' := Nat.dvd_sub hBase (Dvd.intro_left n rfl : PGSIZE ∣ n * PGSIZE)
    exact ⟨hStart', Nat.dvd_add hStart' (Dvd.intro_left n rfl)⟩
  rw [hOk.insertVma_eq (by omega)]
  constructor
  · intro hNew hn
    have hLt := (hNew.inside v List.mem_cons_self).2.1
    rw [hStop, hn] at hLt
    omega
  · intro hn
    have hPos : 0 < n * PGSIZE := Nat.mul_pos (Nat.pos_of_ne_zero hn) (by decide)
    refine ⟨hAligned.1, hStart ▸ hLow, by dsimp only; omega, ?_, ?_, ?_⟩
    · intro u hu
      rcases List.mem_cons.mp hu with rfl | hu
      · dsimp only
        omega
      · have hIn := hOk.inside u hu
        dsimp only
        omega
    · intro u hu
      rcases List.mem_cons.mp hu with rfl | hu
      · exact hAligned
      · exact hOk.aligned u hu
    · refine List.pairwise_cons.mpr ⟨fun u hu => ?_, hOk.sorted⟩
      have hIn := hOk.inside u hu
      omega

theorem asI64_of_le_top {base : Nat} (hTop : base ≤ MMAP_TOP) : asI64 base = base := by
  rw [asI64_eq (lt_of_le_of_lt hTop (by decide)), if_pos (lt_of_le_of_lt hTop (by decide))]

theorem mmap_region_iff (hOk : RegionsOk q) (hProc : s.procs.lookup pid = some q)
    (hMaps : s.Maps root f) (length : UInt64) (prot flags : UInt32) (fileInode : Option Nat)
    (offset : Int64) : ∃ r s' q' f',
      Prog.run (exec pid) (Call.prog (.mmap length prot flags fileInode offset)) s = .ok r s' ∧
        s'.procs.lookup pid = some q' ∧ s'.Maps root f' ∧ q'.pagetable = q.pagetable ∧
          (RegionOk q q' f f' s.free s'.free r (.mmap length prot flags fileInode offset) ↔
            RegionFits q f (.mmap length prot flags fileInode offset)) := by
  rcases run_sysMmap hProc length.toNat prot flags fileInode offset.toInt with
    ⟨r, s', q', hRun, hProc', hTables, hCase⟩
  have hMaps' : s'.Maps root f := by
    unfold State.Maps
    rw [hTables]
    exact hMaps
  cases hCase with
  | refuse hNot =>
    refine ⟨-1, s', q, f, hRun, hProc', hMaps', rfl, iff_of_true ?_ fun hAdmits => ?_⟩
    · exact ⟨hOk, rfl, fun _ => rfl, fun h => absurd rfl h⟩
    · exact absurd hAdmits hNot
  | place hAdmits hStart hStop =>
    refine ⟨_, s', _, f, hRun, hProc', hMaps', rfl, ?_⟩
    have hRoom := hAdmits.room
    have hLow := hAdmits.low
    unfold RegionOk RegionFits
    simp only [hAdmits, true_imp_iff]
    by_cases hWrap : length.toNat ≤ USIZE - PGSIZE
    · have hCeil := le_ceilPage length.toNat
      have hHigh := hOk.high
      rw [pageRoundUp_eq hWrap] at hRoom hLow hStart hStop
      have hPlace := (hOk.place hRoom hLow hStart hStop).mpr fun hZero => hAdmits.asked (by
        rw [hZero] at hCeil
        omega)
      have hAs := asI64_of_le_top ((hStart ▸ Nat.sub_le _ _).trans hHigh)
      refine iff_of_true ⟨hPlace, trivial, fun hFail => ?_, fun _ =>
        ⟨_, hAs, hPlace.base, hStart ▸ hLow, by omega, fun u hu => ?_⟩⟩ hWrap
      · rw [hAs] at hFail
        omega
      · have hIn := (hOk.inside u hu).1
        left
        omega
    · have hLength : length.toNat < USIZE := length.toNat_lt
      rw [pageRoundUp_wraps hWrap hLength] at hStart hStop
      rw [← Nat.zero_mul PGSIZE] at hStart hStop
      have hPlace := hOk.place (by rw [Nat.zero_mul]; exact Nat.zero_le _)
        (by rw [Nat.zero_mul]; exact hOk.low) hStart hStop
      exact iff_of_false (fun hAll => hPlace.mp hAll.1 rfl) hWrap

-- Unmapping

theorem leaves_clear {p n a m : Nat} (hApart : ∀ x, a ≤ x → x < a + m → ¬ (p ≤ x ∧ x < p + n)) :
    (f.clear p n).leaves a m = f.leaves a m := by
  refine List.filterMap_congr fun x hx => ?_
  have hOut := hApart x (List.mem_range'_1.mp hx).1 (List.mem_range'_1.mp hx).2
  unfold PageMap.leaf
  rw [PageMap.clear_of_not_mem (by omega)]

/- The leaves of `vs` go, and their frames are free. -/
structure Cleared (vs : List Vma) (f f' : PageMap) (free free' : List Nat) : Prop where
  gone : ∀ v ∈ vs, ∀ p, v.Has p → (f p).any Pte.isLeaf → f' p = none
  kept : ∀ p, (∀ v ∈ vs, v.Has p → ¬ (f p).any Pte.isLeaf) → f' p = f p
  freed : free'.Perm (vs.flatMap (fun v => f.leaves v.page v.count) ++ free)

theorem run_unmapRegions (pid : Nat) {vs : List Vma}
    (hAligned : ∀ v ∈ vs, PGSIZE ∣ v.start ∧ PGSIZE ∣ v.stop)
    (hApart : vs.Pairwise fun u v => ∀ p, v.Has p → ¬ u.Has p) (hMaps : s.Maps root f) :
    ∃ s' f', Prog.run (exec pid) (Prog.forEach vs fun v =>
        unmapRange root v.start (pages v.start v.stop)) s = .ok () s' ∧ s'.Maps root f' ∧
      State.Leaves root s s' ∧ Cleared vs f f' s.free s'.free := by
  induction vs generalizing s f with
  | nil => exact ⟨s, f, rfl, hMaps, .refl root s, by simp, fun _ _ => rfl, by simp⟩
  | cons v vs ih =>
    rcases List.pairwise_cons.mp hApart with ⟨hFirst, hRest⟩
    rcases hAligned v List.mem_cons_self with ⟨hStart, hStop⟩
    have hCount : pages v.start v.stop = v.count := by
      rw [← Nat.div_mul_cancel hStart, ← Nat.div_mul_cancel hStop, pages_mul]
      rfl
    rcases run_unmapRange pid v.page v.count hMaps with ⟨s₁, hRun₁, hMaps₁, hFree₁, hLeaves₁⟩
    rw [show v.page * PGSIZE = v.start from Nat.div_mul_cancel hStart, ← hCount] at hRun₁
    rcases ih (fun u hu => hAligned u (List.mem_cons_of_mem v hu)) hRest hMaps₁ with
      ⟨s₂, f₂, hRun₂, hMaps₂, hLeaves₂, hRemoved⟩
    refine ⟨s₂, f₂, ?_, hMaps₂, hLeaves₁.trans hLeaves₂, ?_, ?_, ?_⟩
    · unfold Prog.forEach
      exact (Prog.run_then hRun₁).trans hRun₂
    · intro u hu p hp hLeaf
      rcases List.mem_cons.mp hu with rfl | hu
      · have hNone : f.clear u.page u.count p = none := if_pos ⟨hp.1, hp.2, hLeaf⟩
        rw [hRemoved.kept p fun w _ _ => by simp [hNone], hNone]
      · refine hRemoved.gone u hu p hp ?_
        rw [PageMap.clear, if_neg fun hIn => hFirst u hu p hp ⟨hIn.1, hIn.2.1⟩]
        exact hLeaf
    · intro p hNot
      have hSame : f.clear v.page v.count p = f p :=
        if_neg fun hIn => hNot v List.mem_cons_self ⟨hIn.1, hIn.2.1⟩ hIn.2.2
      refine (hRemoved.kept p fun u hu => ?_).trans hSame
      rw [hSame]
      exact hNot u (List.mem_cons_of_mem v hu)
    · have hLeaves : ∀ u ∈ vs, (f.clear v.page v.count).leaves u.page u.count =
          f.leaves u.page u.count := fun u hu => leaves_clear fun x hLow hHigh =>
            hFirst u hu x ⟨hLow, hHigh⟩
      have hFree₂ := hRemoved.freed
      rw [List.flatMap_congr hLeaves, hFree₁] at hFree₂
      refine hFree₂.trans ?_
      rw [List.flatMap_cons, ← List.append_assoc]
      exact ((List.reverse_perm _).append_left _ |>.trans List.perm_append_comm).append_right _

/- What `munmap` does, in a process whose regions are in order. -/
theorem run_sysMunmap (hOk : RegionsOk q) (hProc : s.procs.lookup pid = some q)
    (hRoot : q.pagetable = some root) (hMaps : s.Maps root f) (addr length : Nat) :
    ¬ MunmapAdmits q addr length ∧ Prog.run (exec pid) (sysMunmap addr length) s = .ok (-1) s ∨
    MunmapAdmits q addr length ∧ ∃ s' f', Prog.run (exec pid) (sysMunmap addr length) s = .ok 0 s' ∧
      s'.procs.lookup pid = some (q.without addr (addr + pageRoundUp length)) ∧ s'.Maps root f' ∧
        Cleared (q.within addr (addr + pageRoundUp length)) f f' s.free s'.free := by
  unfold sysMunmap
  by_cases hPaged : addr % PGSIZE ≠ 0 ∨ length = 0
  · rw [if_pos hPaged]
    exact Or.inl ⟨fun h => h.paged hPaged, rfl⟩
  rw [if_neg hPaged]
  by_cases hFits : addr + pageRoundUp length ≥ USIZE
  · rw [if_pos hFits]
    exact Or.inl ⟨fun h => absurd h.fits (not_lt.mpr hFits), rfl⟩
  rw [if_neg hFits, Prog.run_then (run_proc hProc)]
  by_cases hCut : (q.vmas.any fun v => !v.inside addr (addr + pageRoundUp length) &&
      v.meets addr (addr + pageRoundUp length)) = true
  · rw [if_pos hCut]
    exact Or.inl ⟨fun h => h.whole hCut, rfl⟩
  have hWithin : (q.vmas.filter fun v => v.inside addr (addr + pageRoundUp length)) =
    q.within addr (addr + pageRoundUp length) := rfl
  rw [if_neg hCut, hWithin]
  dsimp only
  by_cases hNone : q.within addr (addr + pageRoundUp length) = []
  · rw [if_pos hNone]
    exact Or.inl ⟨fun h => h.some hNone, rfl⟩
  rw [if_neg hNone]
  refine Or.inr ⟨⟨hPaged, not_le.mp hFits, hCut, hNone⟩, ?_⟩
  have hSub : ∀ v ∈ (q.within addr (addr + pageRoundUp length)).reverse, v ∈ q.vmas :=
    fun v hv => List.mem_of_mem_filter (List.mem_reverse.mp hv)
  have hApart : (q.within addr (addr + pageRoundUp length)).reverse.Pairwise
      fun u v => ∀ p, v.Has p → ¬ u.Has p := by
    rw [List.pairwise_reverse]
    refine (hOk.sorted.filter _).imp fun {u v} hLe p hu hv => ?_
    have hDiv := Nat.div_le_div_right (c := PGSIZE) hLe
    simp only [Vma.Has, Vma.page, Vma.count] at hu hv
    omega
  let s₁ : State :=
    { s with procs := s.procs.insert pid (q.without addr (addr + pageRoundUp length)) }
  have hSet : Prog.run (exec pid) (Prog.lift (.setVmas
      (q.without addr (addr + pageRoundUp length)).vmas)) s = .ok () s₁ := by
    simp only [Prog.lift, Prog.run_op, exec, State.onProc, hProc, Outcome.andThen_ok, Prog.run_ret]
    rfl
  have hProc₁ : s₁.procs.lookup pid = some _ := AList.lookup_insert _
  have hMaps₁ : s₁.Maps root f := hMaps
  rcases run_unmapRegions pid (fun v hv => hOk.aligned v (hSub v hv)) hApart hMaps₁ with
    ⟨s₂, f₂, hRun₂, hMaps₂, hLeaves₂, hCleared⟩
  refine ⟨s₂, f₂, ?_, ?_, hMaps₂, ?_, ?_, ?_⟩
  · refine (Prog.run_then hSet).trans ?_
    rw [Prog.run_then (run_rootPa hProc₁ hRoot)]
    exact Prog.run_then hRun₂
  · rw [hLeaves₂.procs]
    exact hProc₁
  · exact fun v hv => hCleared.gone v (List.mem_reverse.mpr hv)
  · exact fun p hp => hCleared.kept p fun v hv => hp v (List.mem_reverse.mp hv)
  · exact hCleared.freed.trans (((List.reverse_perm _).flatMap_right _).append_right _)

/- All pages of the regions go if they are all leaves. -/
theorem Cleared.removed_iff {vs : List Vma} {f' : PageMap} {free free' : List Nat}
    (hCleared : Cleared vs f f' free free') :
    Removed vs f f' free free' ↔ ∀ v ∈ vs, ∀ p e, v.Has p → f p = some e → e.isLeaf := by
  constructor
  · intro hRemoved v hv p e hp hEntry
    by_contra hLeaf
    have hStays := hCleared.kept p fun _ _ _ => by simpa [hEntry] using hLeaf
    rw [hRemoved.gone v hv p hp, hEntry] at hStays
    simp at hStays
  · intro hLeaf
    have hFrames : ∀ v ∈ vs, f.leaves v.page v.count = f.frames v := by
      intro v hv
      refine List.filterMap_congr fun p hp => ?_
      unfold PageMap.leaf
      cases hEntry : f p with
      | none => rfl
      | some e => simp [hLeaf v hv p e (List.mem_range'_1.mp hp) hEntry]
    refine ⟨fun v hv p hp => ?_, fun p hOut =>
      hCleared.kept p fun v hv hp => absurd hp (hOut v hv), ?_⟩
    · cases hEntry : f p with
      | none =>
        rw [hCleared.kept p fun _ _ _ => by simp [hEntry], hEntry]
      | some e => exact hCleared.gone v hv p hp (by simp [hEntry, hLeaf v hv p e hp hEntry])
    · rw [← List.flatMap_congr hFrames]
      exact hCleared.freed

theorem munmap_region_iff (hOk : RegionsOk q) (hProc : s.procs.lookup pid = some q)
    (hRoot : q.pagetable = some root) (hMaps : s.Maps root f) (addr length : UInt64) :
    ∃ r s' q' f', Prog.run (exec pid) (Call.prog (.munmap addr length)) s = .ok r s' ∧
      s'.procs.lookup pid = some q' ∧ s'.Maps root f' ∧ q'.pagetable = q.pagetable ∧
        (RegionOk q q' f f' s.free s'.free r (.munmap addr length) ↔
          RegionFits q f (.munmap addr length)) := by
  rcases run_sysMunmap hOk hProc hRoot hMaps addr.toNat length.toNat with
    ⟨hNot, hRun⟩ | ⟨hAdmits, s', f', hRun, hProc', hMaps', hCleared⟩
  · refine ⟨-1, s, q, f, hRun, hProc, hMaps, rfl, iff_of_true ?_ fun h => absurd h hNot⟩
    exact ⟨hOk, fun _ => ⟨rfl, rfl, rfl⟩, fun h => absurd rfl h⟩
  · -- some region is inside, so the rounded length has not wrapped
    have hUp : pageRoundUp length.toNat = ceilPage length.toNat * PGSIZE := by
      refine pageRoundUp_eq (by_contra fun hWrap => ?_)
      rcases List.exists_mem_of_ne_nil _ hAdmits.some with ⟨v, hv⟩
      rcases List.mem_filter.mp hv with ⟨hMem, hIn⟩
      have hLength : length.toNat < USIZE := length.toNat_lt
      have hLt := (hOk.inside v hMem).2.1
      rw [pageRoundUp_wraps hWrap hLength] at hIn
      simp only [Vma.inside, Bool.and_eq_true, decide_eq_true_eq] at hIn
      omega
    rw [hUp] at hProc' hCleared
    have hIff := hCleared.removed_iff
    have hOk' : RegionsOk (q.without addr.toNat (addr.toNat + ceilPage length.toNat * PGSIZE)) :=
      ⟨hOk.base, hOk.low, hOk.high, fun v hv => hOk.inside v (List.mem_of_mem_filter hv),
        fun v hv => hOk.aligned v (List.mem_of_mem_filter hv), hOk.sorted.filter _⟩
    refine ⟨0, s', _, f', hRun, hProc', hMaps', rfl, ?_⟩
    unfold RegionOk RegionFits
    simp only [hAdmits, true_imp_iff]
    rw [← hIff]
    exact ⟨fun hDone => (hDone.2.2 (by decide)).2.2, fun hRemoved =>
      ⟨hOk', fun hFail => absurd hFail (by decide), fun _ => ⟨trivial, trivial, hRemoved⟩⟩⟩

-- Runs

theorem region_iff (hOk : RegionsOk q) (hProc : s.procs.lookup pid = some q)
    (hRoot : q.pagetable = some root) (hMaps : s.Maps root f) {call : Call}
    (hCall : call.isRegion) : ∃ r s' q' f', Prog.run (exec pid) call.prog s = .ok r s' ∧
      s'.procs.lookup pid = some q' ∧ s'.Maps root f' ∧ q'.pagetable = q.pagetable ∧
        (RegionOk q q' f f' s.free s'.free r call ↔ RegionFits q f call) := by
  cases call with
  | mmap length prot flags fileInode offset =>
    exact mmap_region_iff hOk hProc hMaps length prot flags fileInode offset
  | munmap addr length => exact munmap_region_iff hOk hProc hRoot hMaps addr length
  | _ => simp [Call.isRegion] at hCall

theorem RegionRun.state (hRun : RegionRun pid root s) : ∃ q f, s.procs.lookup pid = some q ∧
    q.pagetable = some root ∧ s.Maps root f ∧ RegionsOk q := by
  induction hRun with
  | start hProc hRoot hMaps hVmas hBase =>
    exact ⟨_, _, hProc, hRoot, hMaps, by rw [hBase]; decide,
      by rw [hBase]; exact Nat.div_le_self _ _,
      hBase.le, by simp [hVmas], by simp [hVmas], by simp [hVmas]⟩
  | call hRun hProc hMaps hCall hFits hStep ih =>
    rcases ih with ⟨q, f, hProc₀, hRoot, -, hOk⟩
    cases Option.some.inj (hProc₀.symm.trans hProc)
    rcases region_iff hOk hProc hRoot hMaps hCall with
      ⟨r, s', q', f', hRun', hProc', hMaps', hSame, hIff⟩
    cases hStep.symm.trans hRun'
    refine ⟨q', f', hProc', hSame.trans hRoot, hMaps', ?_⟩
    have hDone := hIff.mpr hFits
    unfold RegionOk at hDone
    split at hDone
    · exact hDone.1
    · exact hDone.1
    · simp_all [Call.isRegion]
  | other hRun hProc hProc' hMaps hVmas hBase hRoot' ih =>
    rcases ih with ⟨q, f, hProc₀, hRoot, -, hOk⟩
    cases Option.some.inj (hProc₀.symm.trans hProc)
    refine ⟨_, _, hProc', hRoot'.trans hRoot, hMaps, ?_⟩
    rcases hOk with ⟨hBase₀, hLow, hHigh, hIn, hAligned, hSorted⟩
    rw [← hBase] at hBase₀ hLow hHigh hIn
    rw [← hVmas] at hIn hAligned hSorted
    exact ⟨hBase₀, hLow, hHigh, hIn, hAligned, hSorted⟩

/-
  After any calls that fit, `mmap` hands out a fresh region
  and `munmap` is all or nothing, exactly if the call fits.
-/
theorem regions_of_run (hRun : RegionRun pid root s) {call : Call} (hCall : call.isRegion) :
    ∃ q f, s.procs.lookup pid = some q ∧ s.Maps root f ∧ RegionsOk q ∧ ∃ r s' q' f',
      Prog.run (exec pid) call.prog s = .ok r s' ∧ s'.procs.lookup pid = some q' ∧
        s'.Maps root f' ∧ (RegionOk q q' f f' s.free s'.free r call ↔ RegionFits q f call) := by
  rcases hRun.state with ⟨q, f, hProc, hRoot, hMaps, hOk⟩
  rcases region_iff hOk hProc hRoot hMaps hCall with ⟨r, s', q', f', hRun', hProc', hMaps', -, hIff⟩
  exact ⟨q, f, hProc, hMaps, hOk, r, s', q', f', hRun', hProc', hMaps', hIff⟩

theorem twoPageHeap_run : RegionRun 1 0 twoPageHeap :=
  .start (q := Proc.fresh 0 16384 8192) rfl rfl
    ⟨.zeroed, rfl, PageTable.linked_zeroed, fun _ => rfl⟩ rfl rfl

/- A region of two pages, the upper of which is used before both are given back. -/
theorem regions_of_run_unmap : ∃ (s s' : State) (q q' : Proc) (f f' : PageMap),
    RegionRun 1 0 s ∧ s.procs.lookup 1 = some q ∧ (f (MMAP_TOP / PGSIZE - 1)).isSome ∧
      Prog.run (exec 1) (Call.prog (.munmap (.ofNat (MMAP_TOP - 8192)) 8192)) s = .ok 0 s' ∧
        RegionOk q q' f f' s.free s'.free 0 (.munmap (.ofNat (MMAP_TOP - 8192)) 8192) := by
  have hCheck : (Prog.run (exec 1) (Call.prog (.mmap 5000 3 0x22 none 0)) twoPageHeap).check
      (fun _ s₁ => (Prog.run (exec 1) (Call.prog (.pageFault (.ofNat (MMAP_TOP - 1)) true))
        s₁).check fun _ s₂ =>
          (s₂.procs.lookup 1).map (fun q => (q.vmas, q.mmapBase, q.pagetable)) ==
              (s₁.procs.lookup 1).map (fun q => (q.vmas, q.mmapBase, q.pagetable)) &&
            (s₂.tables.lookup 0).any (fun pt => (pt.pte.lookup (MMAP_TOP / PGSIZE - 1)).isSome &&
              pt.pte.entries.all fun e => e.2.isLeaf) &&
            (Prog.run (exec 1) (Call.prog (.munmap (.ofNat (MMAP_TOP - 8192)) 8192)) s₂).check
              fun r _ => r == 0) = true := by decide +kernel
  rcases Outcome.exists_of_check hCheck with ⟨r₁, s₁, hMap, hCheck⟩
  rcases Outcome.exists_of_check hCheck with ⟨r₂, s₂, hFault, hCheck⟩
  simp only [Bool.and_eq_true, Option.any_eq_true, beq_iff_eq] at hCheck
  rcases hCheck with ⟨⟨hSame, pt, hTable, hUsed, hLeaves⟩, hUnmap⟩
  have hRun₁ : RegionRun 1 0 s₁ := .call twoPageHeap_run (q := Proc.fresh 0 16384 8192) rfl
    ⟨.zeroed, rfl, PageTable.linked_zeroed, fun _ => rfl⟩ rfl (fun _ => by decide) hMap
  rcases hRun₁.state with ⟨q₁, f₁, hProc₁, -⟩
  rw [hProc₁] at hSame
  rcases Option.map_eq_some_iff.mp hSame with ⟨q₂, hProc₂, hKeys⟩
  have hLinked : twoPageHeap.Linked := by
    intro root pt hLookup
    by_cases hr : root = 0
    · subst hr
      cases hLookup
      exact PageTable.linked_zeroed
    · cases (AList.lookup_insert_ne hr).symm.trans hLookup
  have hMaps₂ := (run_linked (run_linked hLinked hMap) hFault).maps hTable
  have hRun₂ : RegionRun 1 0 s₂ := .other hRun₁ hProc₁ hProc₂ hMaps₂ (congrArg (·.1) hKeys)
    (congrArg (·.2.1) hKeys) (congrArg (·.2.2) hKeys)
  have hCall : Call.isRegion (.munmap (.ofNat (MMAP_TOP - 8192)) 8192) := rfl
  rcases regions_of_run hRun₂ hCall with ⟨q, f, hProc, hMaps, -, r, s', q', f', hRun, -, -, hIff⟩
  rcases hMaps with ⟨pt', hTable', -, hPte⟩
  cases hTable.symm.trans hTable'
  rw [hRun] at hUnmap
  have hr : r = 0 := beq_iff_eq.mp hUnmap
  subst hr
  refine ⟨s₂, s', q, q', f, f', hRun₂, hProc, ?_, hRun, hIff.mpr fun _ v _ p e _ he => ?_⟩
  · rw [← hPte]
    exact hUsed
  · rw [← hPte] at he
    exact List.all_eq_true.mp hLeaves _ (AList.mem_lookup_iff.mp he)

/- A length that wraps gives an empty region. -/
theorem mmap_wraps : ∃ r s' q, Prog.run (exec 1)
    (Call.prog (.mmap 0xffffffffffffffff 3 0x22 none 0)) twoPageHeap = .ok r s' ∧ r ≠ -1 ∧
      s'.procs.lookup 1 = some q ∧ ∃ v ∈ q.vmas, v.start = v.stop := by
  have hRun : (Prog.run (exec 1) (Call.prog (.mmap 0xffffffffffffffff 3 0x22 none 0))
      twoPageHeap).check (fun r s' => r ≠ -1 ∧ (s'.procs.lookup 1).any fun q =>
        q.vmas.any fun v => v.start = v.stop) = true := by decide +kernel
  rcases Outcome.exists_of_check hRun with ⟨r, s', hOk, hTest⟩
  rcases of_decide_eq_true hTest with ⟨hDone, hAny⟩
  rcases (Option.any_eq_true _ _).mp hAny with ⟨q, hProc, hVma⟩
  rcases List.any_eq_true.mp hVma with ⟨v, hv, hEmpty⟩
  exact ⟨r, s', q, hOk, hDone, hProc, v, hv, of_decide_eq_true hEmpty⟩

end Vm

end PlayXv6
