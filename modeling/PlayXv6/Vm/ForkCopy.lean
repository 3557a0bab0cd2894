import PlayXv6.Vm.Contents
import PlayXv6.Vm.PageMap

/-
  Fork copies an address space.

  The loop over the parent's pages keeps the child's table a
  copy of the pages visited so far, in frames the fork has
  taken.  Pages outside the break and the stack, and regions
  whose pages are not there yet, are not copied.

  Main declarations:
    * `SameMemory`
    * `fork_same_memory_iff`
-/

namespace PlayXv6

open Function

variable {e e' : Pte} {tf pa k va n : Nat}

namespace Vm

/- The memory with other free frames. -/
def Mem.withFree (m : Mem) (free : List Nat) : Mem := { m with vm := { m.vm with free := free } }

/-
  Two processes agree at every address: every access gives
  both the same permissions and the same byte, or fails in
  both, while there are frames to be had; and they share no
  user frame.
-/
structure SameMemory (m : Mem) (pid pid' : Nat) : Prop where
  access : ∀ free, Supply free → ∀ kind va, (m.withFree free).access pid kind va =
      (m.withFree free).access pid' kind va
  apart : ∃ pt pt', m.vm.tableOf pid = some pt ∧ m.vm.tableOf pid' = some pt' ∧
      pt.userFrames.Disjoint pt'.userFrames

/- The pages fork looks at: below the break, and the stack. -/
def Proc.Copies (q : Proc) (vpn : Nat) : Prop :=
  vpn * PGSIZE < q.size ∨
    STACK_VA_BASE ≤ vpn * PGSIZE ∧ vpn * PGSIZE < STACK_VA_TOP

/- Where an access looks for a page to be mapped on demand. -/
def Access.site (va : Nat) : Access → Nat
  | .kernelRead => pageRoundDown va
  | .kernelWrite => pageRoundDown va
  | _ => va

/-
  Every user page of the process is below its break or in its
  stack, and so is every address at which an access would
  bring in a page: no page of a mapped region can be used.
-/
structure Covered (q : Proc) (pt : PageTable) : Prop where
  mapped : ∀ va e, pt.entryAt va = some e → e.perm.user = true → q.Copies (va / PGSIZE)
  lazy : ∀ va kind perm, pt.entryAt va = none → va < MAXVA → q.demand va kind = some perm →
      kind.allowed perm = true → kind.site va < q.size ∧ va < TRAPFRAME

-- The Child's Table

def KernelPage (vpn : Nat) : Prop := vpn = TRAMPOLINE / PGSIZE ∨ vpn = TRAPFRAME / PGSIZE

/- `e'` is a copy of `e` in a frame that was free at `m₀` and is in use at `m`. -/
structure CopyOf (m₀ m : Mem) (e e' : Pte) : Prop where
  perm : e'.perm = e.perm
  taken : e'.pa ∈ m₀.vm.free
  used : e'.pa ∉ m.vm.free
  bytes : e.perm.user = true → m.ram e'.pa = m₀.ram e.pa

/- The table holds copies of the pages in `done`. -/
structure Child (m₀ m : Mem) (pt : PageTable) (done : Nat → Prop) (ct : PageTable) : Prop where
  linked : ct.Linked
  kernel : ∀ vpn, KernelPage vpn → ∃ e, ct.pte.lookup vpn = some e ∧ e.perm.user = false
  entry : ∀ vpn e', ct.pte.lookup vpn = some e' → KernelPage vpn ∨
      done vpn ∧ ∃ e, pt.pte.lookup vpn = some e ∧ CopyOf m₀ m e e'
  copied : ∀ vpn e, done vpn → pt.pte.lookup vpn = some e →
    ∃ e', ct.pte.lookup vpn = some e' ∧ CopyOf m₀ m e e'

/- What the copying since `m₀` has done so far. -/
structure Copying (m₀ : Mem) (root : Nat) (pt : PageTable) (done : Nat → Prop)
    (m : Mem) : Prop where
  leaves : State.Leaves root m₀.vm m.vm
  free : m.vm.free <:+ m₀.vm.free
  ram : ∀ x, x ∉ m₀.vm.free → m.ram x = m₀.ram x
  files : m.files = m₀.files
  table : ∃ ct, m.vm.tables.lookup root = some ct ∧ Child m₀ m pt done ct

structure Source (m₀ : Mem) (parent root : Nat) (pt : PageTable) : Prop where
  table : m₀.vm.tables.lookup parent = some pt
  ne : parent ≠ root
  linked : pt.Linked
  nodup : m₀.vm.free.Nodup
  user : ∀ vpn e, pt.pte.lookup vpn = some e → e.perm.user = true → e.pa ∉ m₀.vm.free

variable {pid parent root : Nat} {m₀ m m' : Mem} {pt ct : PageTable} {done : Nat → Prop}

/- Later changes to free frames leave a copy alone. -/
theorem CopyOf.mono (hCopy : CopyOf m₀ m e e') (hFree : m'.vm.free ⊆ m.vm.free)
    (hRam : ∀ x, x ∉ m.vm.free → m'.ram x = m.ram x) : CopyOf m₀ m' e e' where
  perm := hCopy.perm
  taken := hCopy.taken
  used hMem := hCopy.used (hFree hMem)
  bytes hUser := by
    rw [hRam _ hCopy.used]
    exact hCopy.bytes hUser

theorem Copying.congr {done' : Nat → Prop} (hCopying : Copying m₀ root pt done m)
    (hSame : ∀ vpn, done vpn ↔ done' vpn) : Copying m₀ root pt done' m := by
  have hEq : done = done' :=
    funext fun vpn => propext (hSame vpn)
  rw [← hEq]
  exact hCopying

theorem Copying.parent_table (hSource : Source m₀ parent root pt)
    (hCopying : Copying m₀ root pt done m) : m.vm.tables.lookup parent = some pt := by
  rw [hCopying.leaves.tables parent hSource.ne]
  exact hSource.table

theorem Copying.hole (hCopying : Copying m₀ root pt done m)
    (hHole : pt.pte.lookup k = none) : Copying m₀ root pt (fun vpn => done vpn ∨ vpn = k) m := by
  rcases hCopying.table with ⟨ct, hTable, hChild⟩
  refine ⟨hCopying.leaves, hCopying.free, hCopying.ram,
    hCopying.files, ct, hTable, hChild.linked, hChild.kernel, ?_, ?_⟩
  · intro vpn e' hLookup
    exact (hChild.entry vpn e' hLookup).imp_right (.imp_left .inl)
  · rintro vpn e hDone hLookup
    exact hChild.copied vpn e (hDone.resolve_right (by grind)) hLookup

theorem Child.mapped {d d' : Draft} (hChild : Child m₀ m pt done d.table)
    (hMapped : Draft.Mapped d va pa e.perm d') (hEntry : pt.pte.lookup (va / PGSIZE) = some e)
    (hFree : m'.vm.free ⊆ m.vm.free) (hRam : ∀ x, x ∉ m.vm.free → m'.ram x = m.ram x)
    (hNew : CopyOf m₀ m' e ⟨pa, e.perm⟩) : Child m₀ m' pt (fun vpn => done vpn ∨ vpn = va / PGSIZE)
      d'.table := by
  have hPte : ∀ vpn, d'.table.pte.lookup vpn =
      if vpn = va / PGSIZE then some ⟨pa, e.perm⟩ else d.table.pte.lookup vpn := by
    intro vpn
    rw [hMapped.pte]
    grind [AList.lookup_insert, AList.lookup_insert_ne]
  have hVacant := hMapped.vacant
  refine ⟨hMapped.linked hChild.linked, ?_, ?_, ?_⟩
  · intro vpn hKernel
    rcases hChild.kernel vpn hKernel with ⟨e', hLookup, hUser⟩
    exact ⟨e', by grind, hUser⟩
  · intro vpn e' hLookup
    rw [hPte] at hLookup
    split at hLookup
    · rename_i hVpn
      cases hLookup
      exact .inr ⟨.inr hVpn, e, hVpn ▸ hEntry, hNew⟩
    · rcases hChild.entry vpn e' hLookup with hKernel | ⟨hDone, e₀, hLookup₀, hCopy⟩
      · exact .inl hKernel
      · exact .inr ⟨.inl hDone, e₀, hLookup₀, hCopy.mono hFree hRam⟩
  · intro vpn e₀ hDone hLookup
    rw [hPte]
    split
    · rename_i hVpn
      obtain rfl : e = e₀ := by grind
      exact ⟨_, rfl, hNew⟩
    · rcases hChild.copied vpn e₀ (by grind) hLookup with ⟨e', hLookup', hCopy⟩
      exact ⟨e', hLookup', hCopy.mono hFree hRam⟩

/- Copy one page into a new frame, and go on. -/
def copyFrameTo (root va : Nat) (e : Pte) (next : VmProg Bool) : VmProg Bool := do
  match ← Prog.lift .allocZeroed with
  | none => return false
  | some pa =>
    Prog.lift (.fill (.copyFrame e.pa pa))
    match ← map root va pa e.perm with
    | .error _ => return false
    | .ok () => next

theorem copyFrameTo_copies {next : VmProg Bool}
    (hSource : Source m₀ parent root pt) (hCopying : Copying m₀ root pt done m)
    (hEntry : pt.pte.lookup (va / PGSIZE) = some e) (hRun : Prog.run (execMem pid)
      (copyFrameTo root va e next) m = .ok true m') : ∃ m₁, Copying m₀ root pt
        (fun vpn => done vpn ∨ vpn = va / PGSIZE) m₁ ∧
      Prog.run (execMem pid) next m₁ = .ok true m' := by
  unfold copyFrameTo at hRun
  cases hFree : m.vm.free with
  | nil =>
    rw [Prog.run_then (run_mem_alloc_nil pid hFree)] at hRun
    cases hRun
  | cons pa rest =>
    rw [Prog.run_then (run_mem_alloc pid hFree)] at hRun
    dsimp only at hRun
    rcases hCopying.table with ⟨ct, hTable, hChild⟩
    let m₁ : Mem := { m.took pa rest with
      ram := update (m.took pa rest).ram pa ((m.took pa rest).ram e.pa) }
    have hFill : Prog.run (execMem pid) (Prog.lift (.fill (.copyFrame e.pa pa)))
        (m.took pa rest) = .ok () m₁ := rfl
    rw [Prog.run_then hFill] at hRun
    have hHas : m₁.vm.Has root ⟨rest, ct⟩ := ⟨rfl, hTable⟩
    rcases run_mem_map pid va pa e.perm hHas with ⟨s', ram, hMap, hHas', hLeaves, hRam⟩
    rw [Prog.run_then hMap] at hRun
    cases hPut : (⟨rest, ct⟩ : Draft).put va pa e.perm with
    | mk r d' =>
    rw [hPut] at hRun hHas'
    cases r with
    | error err => cases hRun
    | ok u =>
      have hMapped := Draft.mapped_of_put hPut
      have hNodup := hSource.nodup.sublist hCopying.free.sublist
      rw [hFree] at hNodup
      have hPa : pa ∉ rest := (List.nodup_cons.mp hNodup).1
      have hTaken : pa ∈ m₀.vm.free := by
        apply hCopying.free.subset
        rw [hFree]
        exact List.mem_cons_self ..
      have hRest : d'.free <:+ rest := hMapped.free
      have hFree' : s'.free ⊆ m.vm.free := by
        rw [hHas'.free, hFree]
        exact List.Subset.trans hRest.subset (List.subset_cons_self pa rest)
      have hRam' : ∀ x, x ∉ m.vm.free → ram x = m.ram x := by
        intro x hx
        rw [hFree] at hx
        have hNe := List.ne_of_not_mem_cons hx
        rw [hRam x (List.not_mem_of_not_mem_cons hx)]
        exact (update_of_ne hNe _ _).trans (update_of_ne hNe _ _)
      have hNew : CopyOf m₀ { m₁ with vm := s', ram := ram } e ⟨pa, e.perm⟩ := by
        refine ⟨rfl, hTaken, ?_, ?_⟩
        · change pa ∉ s'.free
          rw [hHas'.free]
          exact fun hMem => hPa (hRest.subset hMem)
        · intro hUser
          have hNotFree := hSource.user _ e hEntry hUser
          have hNe : e.pa ≠ pa := by
            rintro rfl
            exact hNotFree hTaken
          change ram pa = _
          calc
            ram pa = m₁.ram pa := hRam pa hPa
            _ = (m.took pa rest).ram e.pa := update_self ..
            _ = m.ram e.pa := update_of_ne hNe _ _
            _ = m₀.ram e.pa := hCopying.ram _ hNotFree
      refine ⟨{ m₁ with vm := s', ram := ram }, ⟨?_, ?_, ?_, hCopying.files, d'.table,
          hHas'.table, ?_⟩, hRun⟩
      · have hTook : State.Leaves root m.vm m₁.vm := ⟨fun _ _ => rfl, rfl, rfl, rfl, rfl⟩
        exact (hCopying.leaves.trans hTook).trans hLeaves
      · change s'.free <:+ _
        rw [hHas'.free]
        refine hRest.trans ?_
        refine .trans ?_ hCopying.free
        rw [hFree]
        exact List.suffix_cons pa rest
      · intro x hx
        exact (hRam' x fun hMem => hx (hCopying.free.subset hMem)).trans (hCopying.ram x hx)
      · exact hChild.mapped hMapped hEntry hFree' hRam' hNew

theorem copyPages_copies (hSource : Source m₀ parent root pt)
    (hCopying : Copying m₀ root pt done m) (hRun : Prog.run (execMem pid)
      (copyPages parent root (k * PGSIZE) n) m = .ok true m') : Copying m₀ root pt
      (fun vpn => done vpn ∨ k ≤ vpn ∧ vpn < k + n) m' := by
  induction n generalizing k m done with
  | zero =>
    cases hRun
    refine hCopying.congr fun vpn => ?_
    exact (or_iff_left (by omega)).symm
  | succ n ih =>
    unfold copyPages at hRun
    have hTable := hCopying.parent_table hSource
    rw [Prog.run_then (run_mem_translate pid _ hTable), hSource.linked.entryAt_eq,
      Nat.mul_div_cancel k (by decide)] at hRun
    have hNext : k * PGSIZE + PGSIZE = (k + 1) * PGSIZE := (Nat.succ_mul k PGSIZE).symm
    rw [hNext] at hRun
    have hDone : ∃ m₁, Copying m₀ root pt (fun vpn => done vpn ∨ vpn = k) m₁ ∧
        Prog.run (execMem pid) (copyPages parent root
          ((k + 1) * PGSIZE) n) m₁ = .ok true m' := by
      cases hEntry : pt.pte.lookup k with
      | none =>
        rw [hEntry] at hRun
        exact ⟨m, hCopying.hole hEntry, hRun⟩
      | some e =>
        rw [hEntry] at hRun
        have hVpn : k * PGSIZE / PGSIZE = k := Nat.mul_div_cancel k (by decide)
        rw [← hVpn] at hEntry
        have hStep := copyFrameTo_copies hSource hCopying hEntry hRun
        rw [hVpn] at hStep
        exact hStep
    rcases hDone with ⟨m₁, hCopying₁, hRest⟩
    refine (ih hCopying₁ hRest).congr fun vpn => ?_
    rw [or_assoc]
    refine or_congr_right ?_
    omega

theorem copyStack_copies {i : Nat} (hSource : Source m₀ parent root pt)
    (hCopying : Copying m₀ root pt done m) (hRun : Prog.run (execMem pid)
      (copyStack parent root i n) m = .ok true m') : Copying m₀ root pt
      (fun vpn => done vpn ∨ STACK_VA_BASE / PGSIZE + i ≤ vpn ∧
        vpn < STACK_VA_BASE / PGSIZE + i + n) m' := by
  induction n generalizing i m done with
  | zero =>
    cases hRun
    refine hCopying.congr fun vpn => ?_
    exact (or_iff_left (by omega)).symm
  | succ n ih =>
    unfold copyStack at hRun
    have hTable := hCopying.parent_table hSource
    have hVpn : (STACK_VA_BASE + i * PGSIZE) / PGSIZE = STACK_VA_BASE / PGSIZE + i := by
      rw [Nat.add_mul_div_right _ _ (by decide)]
    rw [Prog.run_then (run_mem_translate pid _ hTable), hSource.linked.entryAt_eq] at hRun
    cases hEntry : pt.pte.lookup ((STACK_VA_BASE + i * PGSIZE) / PGSIZE) with
    | none =>
      rw [hEntry] at hRun
      cases hRun
    | some e =>
      rw [hEntry] at hRun
      rcases copyFrameTo_copies hSource hCopying hEntry hRun with ⟨m₁, hCopying₁, hRest⟩
      refine (ih hCopying₁ hRest).congr fun vpn => ?_
      rw [hVpn, or_assoc]
      refine or_congr_right ?_
      omega

theorem child_of_kernel {tramp : Nat} {d d' : Draft} (hEmpty : d.table = .zeroed)
    (hPut : d.putKernel tramp tf = (true, d')) : Child m₀ m pt (fun _ => False) d'.table := by
  rcases Draft.mapped_of_putKernel hPut with ⟨d₁, hTramp, hFrame⟩
  have hLinked : d.table.Linked := by
    rw [hEmpty]
    exact PageTable.linked_zeroed
  have hNe : TRAMPOLINE / PGSIZE ≠ TRAPFRAME / PGSIZE := by decide
  have hPte : ∀ vpn, d'.table.pte.lookup vpn =
      if vpn = TRAPFRAME / PGSIZE then some ⟨tf, .RW⟩
      else if vpn = TRAMPOLINE / PGSIZE then some ⟨tramp, .RX⟩ else none := by
    intro vpn
    have hNone : d.table.pte.lookup vpn = none := by
      rw [hEmpty]
      exact AList.lookup_empty vpn
    rw [hFrame.pte, hTramp.pte]
    grind [AList.lookup_insert, AList.lookup_insert_ne]
  refine ⟨hFrame.linked (hTramp.linked hLinked), ?_, ?_, ?_⟩
  · rintro vpn (rfl | rfl)
    · exact ⟨⟨tramp, .RX⟩, by grind, rfl⟩
    · exact ⟨⟨tf, .RW⟩, by grind, rfl⟩
  · intro vpn e' hLookup
    grind [KernelPage]
  · intro vpn e hFalse
    exact absurd hFalse id

/- A child that has been filled is a copy. -/
theorem fillChild_copies {q : Proc} (hSource : Source m₀ parent root pt)
    (hEmpty : m₀.vm.tables.lookup root = some .zeroed) (hProc : m₀.vm.procs.lookup pid = some q)
    (hParent : q.pagetable = some parent) (hRun : Prog.run (execMem pid)
      (fillChild root tf q.size) m₀ = .ok true m') : Copying m₀ root pt q.Copies m' := by
  unfold fillChild at hRun
  have hHas : m₀.vm.Has root ⟨m₀.vm.free, .zeroed⟩ := ⟨rfl, hEmpty⟩
  rcases run_mapKernelPages pid tf hHas with ⟨s₁, hKernel, hHas₁, hLeaves₁⟩
  rcases run_execMem (mapKernelPages_noFree root tf) hKernel with ⟨ram, hBare, hRam⟩
  rw [Prog.run_then hBare] at hRun
  cases hPut : (⟨m₀.vm.free, .zeroed⟩ : Draft).putKernel m₀.vm.trampolinePa tf with
  | mk b d₁ =>
  rw [hPut] at hRun hHas₁
  cases b with
  | false => cases hRun
  | true =>
    let m₁ : Mem := { m₀ with vm := s₁, ram := ram }
    have hStart : Copying m₀ root pt (fun _ => False) m₁ := by
      refine ⟨hLeaves₁, ?_, hRam, rfl, d₁.table, hHas₁.table, child_of_kernel rfl hPut⟩
      rcases Draft.mapped_of_putKernel hPut with ⟨d₀, hTramp, hFrame⟩
      change s₁.free <:+ _
      rw [hHas₁.free]
      exact hFrame.free.trans hTramp.free
    have hRoot : Prog.run (execMem pid) (Prog.lift .rootPa) m₁ = .ok parent m₁ := by
      refine run_mem_rootPa (q := q) ?_ hParent
      change s₁.procs.lookup pid = _
      rw [hLeaves₁.procs]
      exact hProc
    rw [if_pos rfl, Prog.run_then hRoot] at hRun
    rcases Prog.run_bind_ok hRun with ⟨b, m₂, hPages, hRest⟩
    cases b with
    | false => cases hRest
    | true =>
      rw [if_pos rfl] at hRest
      have hZero : (0 : Nat) = 0 * PGSIZE := rfl
      rw [hZero] at hPages
      have hCopied := copyStack_copies hSource (copyPages_copies hSource hStart hPages) hRest
      refine hCopied.congr fun vpn => ?_
      unfold Proc.Copies pages
      simp only [STACK_VA_BASE, STACK_VA_TOP, TRAPFRAME,
        TRAMPOLINE, MAXVA, STACK_PAGES, PGSIZE, false_or]
      omega

-- Comparing the Two Sides

section Compare

variable {q c : Proc} {kind : Access}

theorem Access.user_of_allowed {perm : PtePerm} (hAllowed : kind.allowed perm = true) :
    perm.user = true := by
  cases kind with
  | kernelRead => exact hAllowed
  | _ => exact (Bool.and_eq_true_iff.mp hAllowed).1

/- Without regions pages come only below the break. -/
theorem site_lt_of_demand {perm : PtePerm} (hVmas : q.vmas = [])
    (hDemand : q.demand va kind = some perm) : kind.site va < q.size := by
  have hPerm : ∀ va anonymous, q.demandPerm va anonymous = some perm → va < q.size := by
    intro va anonymous hSome
    unfold Proc.demandPerm at hSome
    split at hSome
    · assumption
    · simp [hVmas] at hSome
  cases kind with
  | load | store | kernelRead | kernelWrite => exact hPerm _ _ hDemand
  | fetch => simp [Proc.demand] at hDemand

/- Below the break the process brings in a zero page. -/
theorem demand_of_lt (hBelow : kind.site va < q.size) (hBelow' : kind.site va < c.size) :
    q.demand va kind = c.demand va kind ∧ q.demandSource va kind = none := by
  have hPerm : ∀ va anonymous, va < q.size → va < c.size → q.demandPerm va anonymous =
        c.demandPerm va anonymous := by
    intro va anonymous hLt hLt'
    unfold Proc.demandPerm
    rw [if_pos hLt, if_pos hLt']
  have hFile : ∀ va, va < q.size → q.demandFile va = none := by
    intro va hLt
    unfold Proc.demandFile
    rw [if_pos hLt]
  cases kind with
  | load | store => exact ⟨hPerm _ _ hBelow hBelow', hFile _ hBelow⟩
  | fetch => exact ⟨rfl, rfl⟩
  | kernelRead | kernelWrite => exact ⟨hPerm _ _ hBelow hBelow', rfl⟩

theorem pageRoundDown_le_site (kind : Access) (va : Nat) : pageRoundDown va ≤ kind.site va := by
  cases kind with
  | kernelRead | kernelWrite => exact le_rfl
  | _ => exact pageRoundDown_le va

theorem grant_of_entry (hEntry : pt.entryAt va = some e) : grant m q pt kind va =
      if kind.allowed e.perm then
        some (e.perm, m.ram e.pa (va % PGSIZE))
      else
        none := by
  unfold grant
  rw [hEntry]

/- Nothing goes through an entry of the kernel. -/
theorem grant_of_kernel (hEntry : pt.entryAt va = some e) (hUser : e.perm.user = false) :
    grant m q pt kind va = none := by
  rw [grant_of_entry hEntry, if_neg]
  intro hAllowed
  grind [Access.user_of_allowed hAllowed]

theorem grant_of_vacant (hEntry : pt.entryAt va = none) : grant m q pt kind va =
      if va < MAXVA then
        ((q.demand va kind).filter kind.allowed).map fun perm =>
            (perm, freshByte m.files (q.demandSource va kind) (va % PGSIZE))
      else
        none := by
  unfold grant
  rw [hEntry]

/- A vacant page is granted only if there is a demand. -/
theorem demand_of_grant {r : PtePerm × UInt8} (hEntry : pt.entryAt va = none)
    (hGrant : grant m q pt kind va = some r) : va < MAXVA ∧ ∃ perm, q.demand va kind = some perm ∧
      kind.allowed perm = true := by
  rw [grant_of_vacant hEntry] at hGrant
  rcases Option.ite_none_right_eq_some.mp hGrant with ⟨hMax, hSome⟩
  rcases Option.map_eq_some_iff.mp hSome with ⟨perm, hFilter, _⟩
  exact ⟨hMax, perm, Option.filter_eq_some_iff.mp hFilter⟩

theorem grant_of_demand {perm : PtePerm} (hEntry : pt.entryAt va = none) (hMax : va < MAXVA)
    (hDemand : q.demand va kind = some perm) (hAllowed : kind.allowed perm = true) :
    ∃ r, grant m q pt kind va = some r := by
  rw [grant_of_vacant hEntry, if_pos hMax, hDemand]
  simp [Option.filter, hAllowed]

theorem kernelPage_iff (hMax : va < MAXVA) : KernelPage (va / PGSIZE) ↔ TRAPFRAME ≤ va := by
  unfold KernelPage
  simp only [TRAMPOLINE, TRAPFRAME, MAXVA, PGSIZE] at *
  omega

variable (hChild : Child m₀ m pt q.Copies ct) (hLinked : pt.Linked)

include hChild

/- The child's entry for an address, if there is one. -/
theorem Child.cases_of_entry (hEntry : ct.entryAt va = some e') :
    KernelPage (va / PGSIZE) ∧ e'.perm.user = false ∨ q.Copies (va / PGSIZE) ∧
        ∃ e, pt.pte.lookup (va / PGSIZE) = some e ∧ CopyOf m₀ m e e' := by
  have hLookup := (PageTable.lookup_of_entryAt hEntry).2
  rcases hChild.entry _ e' hLookup with hKernel | hCopied
  · exact .inl ⟨hKernel, by grind [hChild.kernel _ hKernel]⟩
  · exact .inr hCopied

include hLinked

/- Where the sides agree, the copied pages are all there is. -/
theorem covered_of_agree (hVmas : c.vmas = []) (hSize : c.size = q.size)
    (hAgree : ∀ kind va, grant m q pt kind va = grant m c ct kind va) : Covered q pt := by
  have hSite : ∀ kind va perm, c.demand va kind = some perm → kind.site va < q.size := by
    intro kind va perm hDemand
    rw [← hSize]
    exact site_lt_of_demand hVmas hDemand
  constructor
  · intro va e hEntry hUser
    have hGrant := hAgree .kernelRead va
    have hAllowed : Access.kernelRead.allowed e.perm = true := hUser
    rw [grant_of_entry hEntry, if_pos hAllowed] at hGrant
    cases hEntry' : ct.entryAt va with
    | some e' =>
      rcases hChild.cases_of_entry hEntry' with ⟨_, hKernel⟩ | ⟨hCopies, _⟩
      · grind [grant_of_kernel hEntry' hKernel]
      · exact hCopies
    | none =>
      rcases demand_of_grant hEntry' hGrant.symm with ⟨_, perm, hDemand, _⟩
      exact .inl (hSite .kernelRead va perm hDemand)
  · intro va kind perm hEntry hMax hDemand hAllowed
    rcases grant_of_demand (m := m) hEntry hMax hDemand hAllowed with ⟨r, hGrant⟩
    rw [hAgree] at hGrant
    cases hEntry' : ct.entryAt va with
    | some e' =>
      rcases hChild.cases_of_entry hEntry' with ⟨_, hKernel⟩ | ⟨_, e, hLookup, _⟩
      · grind [grant_of_kernel hEntry' hKernel]
      · grind [hLinked.entryAt_eq]
    | none =>
      rcases demand_of_grant hEntry' hGrant with ⟨_, perm', hDemand', _⟩
      refine ⟨hSite kind va perm' hDemand', ?_⟩
      by_contra hHigh
      have hKernel := (kernelPage_iff hMax).mpr (Nat.not_lt.mp hHigh)
      grind [hChild.kernel _ hKernel, hChild.linked.entryAt_eq]

/- If the copied pages are all there is, the sides agree. -/
theorem agree_of_covered (hRam : ∀ vpn e, pt.pte.lookup vpn = some e →
      e.perm.user = true → m.ram e.pa = m₀.ram e.pa) (hVmas : c.vmas = []) (hSize : c.size = q.size)
    (hCovered : Covered q pt) (kind : Access) (va : Nat) :
    grant m q pt kind va = grant m c ct kind va := by
  have hCopied : ∀ e, pt.entryAt va = some e → q.Copies (va / PGSIZE) →
        ∃ e', ct.entryAt va = some e' ∧ CopyOf m₀ m e e' := by
    intro e hEntry hCopies
    rw [hLinked.entryAt_eq] at hEntry
    rw [hChild.linked.entryAt_eq]
    exact hChild.copied _ e hCopies hEntry
  have hCopies : kind.site va < q.size → q.Copies (va / PGSIZE) := fun hLt =>
    .inl ((pageRoundDown_le_site kind va).trans_lt hLt)
  cases hEntry : pt.entryAt va with
  | some e =>
    cases hUser : e.perm.user with
    | true =>
      rcases hCopied e hEntry (hCovered.mapped va e hEntry hUser) with ⟨e', hEntry', hCopy⟩
      have hLookup := (PageTable.lookup_of_entryAt hEntry).2
      rw [grant_of_entry hEntry, grant_of_entry hEntry', hCopy.perm, hCopy.bytes hUser,
        hRam _ e hLookup hUser]
    | false =>
      rw [grant_of_kernel hEntry hUser]
      cases hEntry' : ct.entryAt va with
      | some e' =>
        refine (grant_of_kernel hEntry' ?_).symm
        rcases hChild.cases_of_entry hEntry' with ⟨_, hKernel⟩ | ⟨_, e₀, hLookup, hCopy⟩
        · exact hKernel
        · grind [hLinked.entryAt_eq, hCopy.perm]
      | none =>
        by_contra hSome
        rcases Option.ne_none_iff_exists'.mp (Ne.symm hSome) with ⟨r, hGrant⟩
        rcases demand_of_grant hEntry' hGrant with ⟨_, perm, hDemand, _⟩
        have hLt := site_lt_of_demand hVmas hDemand
        grind [hCopied e hEntry (hCopies (hSize ▸ hLt))]
  | none =>
    -- neither side may bring in what the other cannot
    have hNone : ¬ (kind.site va < q.size ∧ va < TRAPFRAME) → grant m q pt kind va = none := by
      intro hNot
      by_contra hSome
      rcases Option.ne_none_iff_exists'.mp hSome with ⟨r, hGrant⟩
      rcases demand_of_grant hEntry hGrant with ⟨hMax, perm, hDemand, hAllowed⟩
      exact hNot (hCovered.lazy va kind perm hEntry hMax hDemand hAllowed)
    cases hEntry' : ct.entryAt va with
    | some e' =>
      rcases hChild.cases_of_entry hEntry' with ⟨hPage, hKernel⟩ | ⟨_, e, hLookup, _⟩
      · rw [grant_of_kernel hEntry' hKernel]
        refine hNone fun hBelow => ?_
        have hMax := (PageTable.lookup_of_entryAt hEntry').1
        have hHigh := (kernelPage_iff hMax).mp hPage
        omega
      · grind [hLinked.entryAt_eq]
    | none =>
      by_cases hLt : kind.site va < q.size
      · have hLt' : kind.site va < c.size := hSize ▸ hLt
        rw [grant_of_vacant hEntry, grant_of_vacant hEntry', (demand_of_lt hLt hLt').1,
          (demand_of_lt hLt hLt').2, (demand_of_lt hLt' hLt).2]
      · rw [hNone fun hBelow => hLt hBelow.1]
        by_contra hSome
        rcases Option.ne_none_iff_exists'.mp (Ne.symm hSome) with ⟨r, hGrant⟩
        rcases demand_of_grant hEntry' hGrant with ⟨_, perm, hDemand, _⟩
        exact hLt (hSize ▸ site_lt_of_demand hVmas hDemand)

end Compare

-- Fork

/-
  A process and its table in a state in which frames have one
  owner and pids above the next one are not in use.
-/
structure Forking (s : State) (pid : Nat) (q : Proc) (root : Nat) (pt : PageTable) : Prop where
  proc : s.procs.lookup pid = some q
  pagetable : q.pagetable = some root
  table : s.tables.lookup root = some pt
  linked : pt.Linked
  exclusive : s.owned.Nodup
  fresh : s.procs.lookup s.nextPid = none

variable {child : Nat} {q : Proc}

theorem Forking.mem_tableFrames (hForking : Forking m.vm pid q root pt)
    (hMem : pa ∈ root :: pt.frames) : pa ∉ m.vm.free := by
  intro hFree
  have hEntry := AList.mem_lookup_iff.mp hForking.table
  have hTable : pa ∈ m.vm.tableFrames := List.mem_flatMap.mpr ⟨_, hEntry, hMem⟩
  have hNodup := hForking.exclusive
  unfold State.owned at hNodup
  have hApart := List.disjoint_of_nodup_append hNodup.of_append_left.of_append_left
  exact hApart hFree hTable

theorem Forking.free_nodup (hForking : Forking m.vm pid q root pt) :
    m.vm.free.Nodup := by
  have hNodup := hForking.exclusive
  unfold State.owned at hNodup
  exact hNodup.of_append_left.of_append_left.of_append_left

theorem mem_userFrames {vpn : Nat} (hLookup : pt.pte.lookup vpn = some e)
    (hUser : e.perm.user = true) : e.pa ∈ pt.userFrames := by
  refine List.mem_map.mpr ⟨⟨vpn, e⟩, ?_, rfl⟩
  exact List.mem_filter.mpr ⟨AList.mem_lookup_iff.mp hLookup, hUser⟩

theorem exists_of_mem_userFrames (hMem : pa ∈ pt.userFrames) :
    ∃ vpn e, pt.pte.lookup vpn = some e ∧ e.perm.user = true ∧ e.pa = pa := by
  rcases List.mem_map.mp hMem with ⟨⟨vpn, e⟩, hFilter, rfl⟩
  rcases List.mem_filter.mp hFilter with ⟨hEntry, hUser⟩
  exact ⟨vpn, e, AList.mem_lookup_iff.mpr hEntry, hUser, rfl⟩

theorem Forking.source {croot : Nat} {rest : List Nat} (hForking : Forking m.vm pid q root pt)
    (hFree : m.vm.free = tf :: croot :: rest) :
    Source ((m.took tf (croot :: rest)).rooted croot rest) root croot pt := by
  have hNotFree : ∀ {pa}, pa ∈ root :: pt.frames → pa ∉ m.vm.free := fun hMem =>
    hForking.mem_tableFrames hMem
  have hRest : rest ⊆ m.vm.free := by grind
  have hNe : root ≠ croot := by
    rintro rfl
    exact hNotFree (List.mem_cons_self ..) (by simp [hFree])
  refine ⟨?_, hNe, hForking.linked, ?_, ?_⟩
  · exact (AList.lookup_insert_ne hNe).trans hForking.table
  · have hNodup := hForking.free_nodup
    rw [hFree] at hNodup
    exact (List.nodup_cons.mp (List.nodup_cons.mp hNodup).2).2
  · intro vpn e hLookup hUser hMem
    refine hNotFree (List.mem_cons_of_mem _ ?_) (hRest hMem)
    exact List.mem_append_right _ (mem_userFrames hLookup hUser)

def Mem.forked (m : Mem) (tf croot size : Nat) : Mem :=
  { m with vm := { m.vm with
      procs := m.vm.procs.insert m.vm.nextPid (Proc.fresh croot tf size)
      liveProcs := m.vm.liveProcs + 1
      nextPid := m.vm.nextPid + 1 } }

theorem forkFromInner_run (hProc : m.vm.procs.lookup pid = some q)
    (hRun : Prog.run (execMem pid) (forkFromInner tf) m = .ok (some child) m') :
    ∃ croot rest m₁, m.vm.free = croot :: rest ∧
      Prog.run (execMem pid) (fillChild croot tf q.size) (m.rooted croot rest) = .ok true m₁ ∧
      child = m₁.vm.nextPid ∧ m' = m₁.forked tf croot q.size := by
  unfold forkFromInner at hRun
  rw [Prog.run_then (run_mem_proc hProc)] at hRun
  cases hFree : m.vm.free with
  | nil =>
    rw [Prog.run_then (run_mem_newPageTable_nil pid hFree)] at hRun
    cases hRun
  | cons croot rest =>
    rw [Prog.run_then (run_mem_newPageTable pid hFree)] at hRun
    rcases Prog.run_bind_ok hRun with ⟨b, m₁, hFill, hRest⟩
    refine ⟨croot, rest, m₁, rfl, ?_⟩
    cases b with
    | true =>
      cases hRest
      exact ⟨hFill, rfl, rfl⟩
    | false =>
      rcases Prog.run_bind_ok hRest with ⟨u, m₂, _, hNone⟩
      cases hNone

theorem forkFrom_run (hProc : m.vm.procs.lookup pid = some q)
    (hRun : Prog.run (execMem pid) forkFrom m = .ok (some child) m') :
    ∃ tf croot rest m₁, m.vm.free = tf :: croot :: rest ∧
      Prog.run (execMem pid) (fillChild croot tf q.size)
        ((m.took tf (croot :: rest)).rooted croot rest) = .ok true m₁ ∧ child = m₁.vm.nextPid ∧
      m' = m₁.forked tf croot q.size := by
  unfold forkFrom at hRun
  have hLive : Prog.run (execMem pid) (Prog.lift .liveProcs) m = .ok m.vm.liveProcs m := rfl
  rw [Prog.run_then hLive] at hRun
  split at hRun
  · cases hRun
  cases hFree : m.vm.free with
  | nil =>
    rw [Prog.run_then (run_mem_alloc_nil pid hFree)] at hRun
    cases hRun
  | cons tf free =>
    rw [Prog.run_then (run_mem_alloc pid hFree)] at hRun
    rcases Prog.run_bind_ok hRun with ⟨o, m₂, hInner, hRest⟩
    cases o with
    | none =>
      rcases Prog.run_bind_ok hRest with ⟨u, m₃, _, hNone⟩
      cases hNone
    | some pid' =>
      cases hRest
      have hProc' : (m.took tf free).vm.procs.lookup pid = some q := hProc
      rcases forkFromInner_run hProc' hInner with ⟨croot, rest, m₁, hFree', hFill, hChild, hEnd⟩
      have hList : free = croot :: rest := hFree'
      subst hList
      exact ⟨tf, croot, rest, m₁, rfl, hFill, hChild, hEnd⟩

theorem supply_sample : Supply [0, PGSIZE, 2 * PGSIZE] := ⟨by decide, by decide, by decide⟩

/- After a fork both sides can be read off the copying. -/
structure Forked (m₀ m₁ : Mem) (root croot tf : Nat) (q : Proc) (pt : PageTable) (pid child : Nat)
    (m' : Mem) : Prop where
  source : Source m₀ root croot pt
  copying : Copying m₀ croot pt q.Copies m₁
  memory : m' = m₁.forked tf croot q.size
  parent : m'.vm.procs.lookup pid = some q
  child : m'.vm.procs.lookup child = some (Proc.fresh croot tf q.size)

theorem forked_of_run (hForking : Forking m.vm pid q root pt)
    (hRun : Prog.run (execMem pid) forkFrom m = .ok (some child) m') : ∃ m₀ m₁ croot tf,
      Forked m₀ m₁ root croot tf q pt pid child m' := by
  rcases forkFrom_run hForking.proc hRun with ⟨tf, croot, rest, m₁, hFree, hFill, hChild, hEnd⟩
  have hSource := hForking.source hFree
  have hCopying := fillChild_copies hSource (AList.lookup_insert _) hForking.proc hForking.pagetable
    hFill
  have hProcs : m₁.vm.procs = m.vm.procs := hCopying.leaves.procs
  have hNext : m₁.vm.nextPid = m.vm.nextPid := hCopying.leaves.nextPid
  have hNe : pid ≠ m₁.vm.nextPid := by grind [hForking.proc, hForking.fresh]
  refine ⟨_, m₁, croot, tf, hSource, hCopying, hEnd, ?_, ?_⟩
  · rw [hEnd]
    refine (AList.lookup_insert_ne hNe).trans ?_
    rw [hProcs]
    exact hForking.proc
  · rw [hEnd, hChild]
    exact AList.lookup_insert _

variable {m₁ : Mem} {croot : Nat}

theorem Forked.access_iff (hForking : Forking m.vm pid q root pt)
    (hForked : Forked m₀ m₁ root croot tf q pt pid child m') : (∀ free, Supply free → ∀ kind va,
      (m'.withFree free).access pid kind va = (m'.withFree free).access child kind va) ↔
      Covered q pt := by
  rcases hForked.copying.table with ⟨ct, hTable, hChild⟩
  have hParentTable := hForked.copying.parent_table hForked.source
  have hRam : ∀ vpn e, pt.pte.lookup vpn = some e →
      e.perm.user = true → m₁.ram e.pa = m₀.ram e.pa :=
    fun vpn e hLookup hUser => hForked.copying.ram _ (hForked.source.user vpn e hLookup hUser)
  have hMemory := hForked.memory
  have hReady : ∀ {free}, Supply free → Ready (m'.withFree free) pid q root pt := by
    intro free hSupply
    refine ⟨hForked.parent, hForking.pagetable, ?_, hForking.linked, hSupply⟩
    rw [hMemory]
    exact hParentTable
  have hReady' : ∀ {free}, Supply free → Ready (m'.withFree free) child
        (Proc.fresh croot tf q.size) croot ct := by
    intro free hSupply
    refine ⟨hForked.child, rfl, ?_, hChild.linked, hSupply⟩
    rw [hMemory]
    exact hTable
  have hGrant : ∀ free q pt kind va, grant (m'.withFree free) q pt kind va =
        grant m₁ q pt kind va := by
    intro free q pt kind va
    rw [hMemory]
    rfl
  constructor
  · intro hAgree
    refine covered_of_agree hChild hForking.linked rfl rfl (c := Proc.fresh croot tf q.size) ?_
    intro kind va
    have hSame := hAgree _ supply_sample kind va
    rw [access_eq_grant (hReady supply_sample), access_eq_grant (hReady' supply_sample), hGrant,
      hGrant] at hSame
    exact hSame
  · intro hCovered free hSupply kind va
    rw [access_eq_grant (hReady hSupply), access_eq_grant (hReady' hSupply), hGrant, hGrant]
    exact agree_of_covered hChild hForking.linked hRam
      (c := Proc.fresh croot tf q.size) rfl rfl hCovered kind va

theorem Forked.apart (hForking : Forking m.vm pid q root pt)
    (hForked : Forked m₀ m₁ root croot tf q pt pid child m') :
    ∃ pt pt', m'.vm.tableOf pid = some pt ∧ m'.vm.tableOf child = some pt' ∧
        pt.userFrames.Disjoint pt'.userFrames := by
  rcases hForked.copying.table with ⟨ct, hTable, hChild⟩
  have hParentTable := hForked.copying.parent_table hForked.source
  have hMemory := hForked.memory
  refine ⟨pt, ct, ?_, ?_, ?_⟩
  · unfold State.tableOf
    rw [hForked.parent, Option.bind_some, hForking.pagetable, Option.bind_some, hMemory]
    exact hParentTable
  · unfold State.tableOf
    rw [hForked.child, hMemory]
    exact hTable
  · intro pa hParent hCopy
    rcases exists_of_mem_userFrames hParent with ⟨vpn, e, hLookup, hUser, rfl⟩
    rcases exists_of_mem_userFrames hCopy with ⟨vpn', e', hLookup', hUser', hPa⟩
    rcases hChild.entry vpn' e' hLookup' with hKernel | ⟨_, e₀, _, hCopied⟩
    · grind [hChild.kernel vpn' hKernel]
    · refine hForked.source.user vpn e hLookup hUser ?_
      rw [← hPa]
      exact hCopied.taken

/-
  After a fork parent and child agree at every address
  exactly if the parent had no usable page outside its break
  and its stack.
-/
theorem fork_same_memory_iff {m m' : Mem} {pid child root : Nat} {q : Proc} {pt : PageTable}
    (hForking : Forking m.vm pid q root pt) (hRun : Prog.run (execMem pid) forkFrom m =
      .ok (some child) m') : SameMemory m' pid child ↔ Covered q pt := by
  rcases forked_of_run hForking hRun with ⟨m₀, m₁, croot, tf, hForked⟩
  constructor
  · intro hSame
    exact (hForked.access_iff hForking).mp hSame.access
  · intro hCovered
    exact ⟨(hForked.access_iff hForking).mpr hCovered, hForked.apart hForking⟩

-- Forks of the First Process

/- Without regions a process below the trap frame is covered. -/
theorem covered_of_no_regions {q : Proc} {pt : PageTable} (hVmas : q.vmas = [])
    (hSize : q.size ≤ TRAPFRAME) (hUser : ∀ e ∈ pt.pte.entries, e.2.perm.user = true →
      q.Copies e.1) : Covered q pt := by
  constructor
  · intro va e hEntry hPerm
    have hLookup := (PageTable.lookup_of_entryAt hEntry).2
    exact hUser ⟨va / PGSIZE, e⟩ (AList.mem_lookup_iff.mp hLookup) hPerm
  · intro va kind perm _ _ hDemand _
    have hLt := site_lt_of_demand hVmas hDemand
    refine ⟨hLt, ?_⟩
    have hPage := pageRoundDown_le_site kind va
    have hBelow := (hPage.trans_lt hLt).trans_le hSize
    unfold pageRoundDown at hBelow
    simp only [TRAPFRAME, TRAMPOLINE, MAXVA, PGSIZE] at *
    omega

instance (q : Proc) (vpn : Nat) : Decidable (q.Copies vpn) := by
  unfold Proc.Copies
  infer_instance

/- Empty frames and no files under the address spaces. -/
def blank (s : State) : Mem where
  vm := s
  ram _ _ := 0
  files _ := []

/- A process can fork in every state that is reached. -/
theorem forking_of_reach {free kernel : List Nat} {tramp : Nat} {c : Config}
    (hNodup : (free ++ kernel).Nodup) (hTramp : tramp ∈ kernel)
    (hReach : Reaches (fun _ => ImageBelow TRAPFRAME) (bootConfig free kernel tramp) c)
    (hProc : c.state.procs.lookup pid = some q) (hRoot : q.pagetable = some root) :
    ∃ pt, Forking c.state pid q root pt := by
  have hVer := verified_of_reach confined_keeps hNodup hTramp hReach
  rcases table_of_reach hNodup hTramp hReach hProc hRoot with ⟨pt, hTable, hLinked⟩
  refine ⟨pt, hProc, hRoot, hTable, hLinked, (exclusive_of_verified hVer).owned, ?_⟩
  rcases hVer with ⟨g, hLink, -⟩
  exact hLink.pids _ le_rfl

/- The fork of process 1 succeeds, and `P` holds of its record and table. -/
def forkCheck (P : Proc → PageTable → Bool) (s : State) : Bool :=
  (s.procs.lookup 1).any fun q =>
    q.pagetable.any fun root =>
      (s.tables.lookup root).any fun pt =>
        (Prog.run (execMem 1) forkFrom (blank s)).check (fun o _ => o.isSome) && P q pt

theorem forking_of_check {P : Proc → PageTable → Bool} {c : Config}
    (hReach : Reaches (fun _ => ImageBelow TRAPFRAME) sampleBoot c)
    (hCheck : forkCheck P c.state = true) :
    ∃ q root pt child m', Forking c.state 1 q root pt ∧
      Prog.run (execMem 1) forkFrom (blank c.state) = .ok (some child) m' ∧ P q pt = true := by
  unfold forkCheck at hCheck
  simp only [Option.any_eq_true, Bool.and_eq_true] at hCheck
  rcases hCheck with ⟨q, hProc, root, hRoot, pt, hTable, hRun, hP⟩
  rcases Outcome.exists_of_check hRun with ⟨o, m', hOk, hSome⟩
  rcases Option.isSome_iff_exists.mp hSome with ⟨child, rfl⟩
  rcases forking_of_reach (by decide) (by decide) hReach hProc hRoot with ⟨pt', hForking⟩
  cases hTable.symm.trans hForking.table
  exact ⟨q, root, pt, child, m', hForking, hOk, hP⟩

theorem fork_same_memory_heap : ∃ (c : Config) (child : Nat) (m' : Mem),
      Reaches (fun _ => ImageBelow TRAPFRAME) sampleBoot c ∧
        Prog.run (execMem 1) forkFrom (blank c.state) =
          .ok (some child) m' ∧ SameMemory m' 1 child := by
  have hServed : (vmSystem.serve (OnCall fun _ => ImageBelow TRAPFRAME) 400 sampleBoot
      [(0, .boot (sampleImage 0 1)), (1, .sbrk 4096 0), (1, .sbrk 4096 1)]).any (fun c =>
          forkCheck (fun q pt => decide (q.vmas = []) &&
            decide (q.size ≤ TRAPFRAME) && pt.pte.entries.all fun e =>
              !e.2.perm.user || decide (q.Copies e.1))
            c.state) = true := by
    decide +kernel
  rcases TaskSystem.exists_reach_of_serve hServed with ⟨c, hReach, hCheck⟩
  rcases forking_of_check hReach hCheck with ⟨q, root, pt, child, m', hForking, hRun, hP⟩
  simp only [Bool.and_eq_true, decide_eq_true_eq, List.all_eq_true, Bool.or_eq_true,
    Bool.not_eq_true'] at hP
  have hCovered : Covered q pt := by
    refine covered_of_no_regions hP.1.1 hP.1.2 ?_
    intro e he hUser
    exact (hP.2 e he).resolve_left (by simp [hUser])
  exact ⟨c, child, m', hReach, hRun, (fork_same_memory_iff (m := blank c.state) hForking
      hRun).mpr hCovered⟩

/-
  A region made by `mmap` is not there in the child: the
  parent can read its pages, the child cannot.
-/
theorem fork_loses_region : ∃ (c : Config) (q : Proc) (root : Nat) (pt : PageTable)
        (child : Nat) (m' : Mem), Reaches (fun _ => ImageBelow TRAPFRAME) sampleBoot c ∧
        Forking c.state 1 q root pt ∧
        Prog.run (execMem 1) forkFrom (blank c.state) = .ok (some child) m' ∧
        ¬ SameMemory m' 1 child := by
  have hServed : (vmSystem.serve (OnCall fun _ => ImageBelow TRAPFRAME) 400 sampleBoot
      [(0, .boot (sampleImage 0 1)), (1, .mmap 4096 3 0x22 none 0)]).any (fun c =>
          forkCheck (fun q pt => (pt.entryAt (MMAP_TOP - PGSIZE)).isNone &&
            (q.demandPerm (MMAP_TOP - PGSIZE) false == some .URW) &&
            decide (q.size ≤ MMAP_TOP - PGSIZE)) c.state) = true := by
    decide +kernel
  rcases TaskSystem.exists_reach_of_serve hServed with ⟨c, hReach, hCheck⟩
  rcases forking_of_check hReach hCheck with ⟨q, root, pt, child, m', hForking, hRun, hP⟩
  simp only [Bool.and_eq_true, decide_eq_true_eq, Option.isNone_iff_eq_none, beq_iff_eq] at hP
  refine ⟨c, q, root, pt, child, m', hReach, hForking, hRun, ?_⟩
  intro hSame
  rcases forked_of_run (m := blank c.state) hForking hRun with ⟨m₀, m₁, croot, tf, hForked⟩
  have hCovered := (hForked.access_iff (m := blank c.state) hForking).mp hSame.access
  have hBelow := (hCovered.lazy (MMAP_TOP - PGSIZE) .load .URW hP.1.1 (by decide) hP.1.2 rfl).1
  exact absurd hBelow (Nat.not_lt.mpr hP.2)

end Vm

end PlayXv6
