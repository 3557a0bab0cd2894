import PlayXv6.Vm.ForkCopy

/-
  The two ways a page of a lazy region comes in: a fault of
  the program and the kernel's own access.

  The fault path looks up the exact address and the kernel
  the base of its page, so they part where the break is
  inside the page; and the kernel reads through any user
  page, whether or not the program may.

  Main declarations:
    * `LazyAgree`
    * `lazy_paths_agree_iff`
-/

namespace PlayXv6

namespace Vm

/- The program's access, and the kernel's for it. -/
def Access.ofUser (write : Bool) : Access := if write then .store else .load

def Access.ofKernel (write : Bool) : Access := if write then .kernelWrite else .kernelRead

/-
  The page of `va` is mapped and the kernel reads no more
  than the program; or it is not mapped, and the regions that
  the address and the base of its page lie in let both paths
  through with the same permission, or neither.
-/
def LazyAgree (q : Proc) (pt : PageTable) (va : Nat) (write : Bool) : Prop :=
  match pt.entryAt va with
  | some e => e.perm.user = true → write = true ∨ e.perm.read = true
  | none => va < MAXVA →
      (q.demandPerm va false).filter (fun p => if write then p.write else p.read) =
        (q.demandPerm (pageRoundDown va) false).filter fun p => !write || p.write

instance (q : Proc) (pt : PageTable) (va : Nat) (write : Bool) :
    Decidable (LazyAgree q pt va write) := by
  unfold LazyAgree
  split <;> infer_instance

variable {m : Mem} {pid root : Nat} {q : Proc} {pt : PageTable}

/- Without files in the regions both classifiers see them all. -/
theorem demandPerm_of_anonymous (hAnon : ∀ v ∈ q.vmas, v.file = none) (va : Nat) :
    q.demandPerm va true = q.demandPerm va false := by
  unfold Proc.demandPerm
  have hFind : (q.vmas.find? fun v => v.start ≤ va && va < v.stop && !(true && v.file.isSome)) =
      q.vmas.find? fun v => v.start ≤ va && va < v.stop && !(false && v.file.isSome) := by
    refine List.find?_congr fun v hv => ?_
    rw [hAnon v hv]
    rfl
  rw [hFind]

theorem demandFile_of_anonymous (hAnon : ∀ v ∈ q.vmas, v.file = none) (va : Nat) :
    q.demandFile va = none := by
  unfold Proc.demandFile
  split
  · rfl
  · cases hFind : q.vmas.find? fun v => v.start ≤ va && va < v.stop with
    | none => rfl
    | some v => simp [hAnon v (List.mem_of_find?_eq_some hFind)]

/- Every page on demand is a user's, so USER need not be tested. -/
theorem filter_demandPerm {va : Nat} {anonymous : Bool} (P : PtePerm → Bool) :
    (q.demandPerm va anonymous).filter (fun p => p.user && P p) =
      (q.demandPerm va anonymous).filter P := by
  cases hPerm : q.demandPerm va anonymous with
  | none => rfl
  | some perm => simp [Option.filter, demandPerm_user hPerm]

/- What the program's access gives on a page that is not mapped. -/
theorem grant_ofUser (hAnon : ∀ v ∈ q.vmas, v.file = none) {va : Nat}
    (hEntry : pt.entryAt va = none) (hMax : va < MAXVA) (write : Bool) :
    grant m q pt (.ofUser write) va =
      ((q.demandPerm va false).filter fun p => if write then p.write else p.read).map
        fun perm => (perm, 0) := by
  rw [grant_of_vacant hEntry, if_pos hMax, ← filter_demandPerm]
  cases write <;>
  simp [Access.ofUser, Proc.demand, Proc.demandSource, demandFile_of_anonymous hAnon, freshByte,
    Access.allowed]

theorem grant_ofKernel (hAnon : ∀ v ∈ q.vmas, v.file = none) {va : Nat}
    (hEntry : pt.entryAt va = none) (hMax : va < MAXVA) (write : Bool) :
    grant m q pt (.ofKernel write) va =
      ((q.demandPerm (pageRoundDown va) false).filter fun p => !write || p.write).map
        fun perm => (perm, 0) := by
  rw [grant_of_vacant hEntry, if_pos hMax, ← filter_demandPerm]
  cases write <;>
  simp [Access.ofKernel, Proc.demand, Proc.demandSource, demandPerm_of_anonymous hAnon, freshByte,
    Access.allowed]

/-
  With frames enough, and no file in the regions, a faulting
  access of the program is resolved with the permission with
  which the kernel's access succeeds, or both fail, exactly
  where the paths agree.
-/
theorem lazy_paths_agree_iff (hReady : Ready m pid q root pt)
    (hAnon : ∀ v ∈ q.vmas, v.file = none) (va : Nat) (write : Bool) :
    m.access pid (.ofUser write) va = m.access pid (.ofKernel write) va ↔
      LazyAgree q pt va write := by
  rw [access_eq_grant hReady, access_eq_grant hReady]
  unfold LazyAgree
  cases hEntry : pt.entryAt va with
  | some e =>
    rw [grant_of_entry hEntry, grant_of_entry hEntry]
    cases write <;> cases hUser : e.perm.user <;> cases hRead : e.perm.read <;>
      simp [Access.ofUser, Access.ofKernel, Access.allowed, hUser, hRead]
  | none =>
    by_cases hMax : va < MAXVA
    · rw [grant_ofUser hAnon hEntry hMax, grant_ofKernel hAnon hEntry hMax]
      have hInj : Function.Injective fun perm : PtePerm => (perm, (0 : UInt8)) :=
        fun a b hab => congrArg Prod.fst hab
      rw [(Option.map_injective hInj).eq_iff]
      simp [hMax]
    · rw [grant_of_vacant hEntry, grant_of_vacant hEntry, if_neg hMax, if_neg hMax]
      simp [hMax]

/- A process whose break is one byte into its second page. -/
def unalignedBreak : Mem where
  vm :=
    { free := [4096, 8192, 12288]
      tables := (∅ : AList fun _ : Nat => PageTable).insert 0 .zeroed
      procs := (∅ : AList fun _ : Nat => Proc).insert 1
        (Proc.fresh 0 16384 4097)
      liveProcs := 1
      nextPid := 2
      kernel := []
      trampolinePa := 20480 }
  ram _ _ := 0
  files _ := []

theorem unalignedBreak_ready :
    Ready unalignedBreak 1 (Proc.fresh 0 16384 4097) 0 PageTable.zeroed where
  proc := rfl
  pagetable := rfl
  table := rfl
  linked := PageTable.linked_zeroed
  supply := ⟨by decide, by decide, by decide⟩

theorem lazy_paths_agree_iff_below :
    LazyAgree (Proc.fresh 0 16384 4097) .zeroed 4096 true ∧
      unalignedBreak.access 1 .store 4096 = unalignedBreak.access 1 .kernelWrite 4096 :=
  ⟨by decide, (lazy_paths_agree_iff unalignedBreak_ready (by decide) 4096 true).mpr (by decide)⟩

/- Past the break, the kernel reads and the program faults. -/
theorem lazy_paths_differ :
    unalignedBreak.access 1 .load 4097 = none ∧
      unalignedBreak.access 1 .kernelRead 4097 = some (.URW, 0) := by
  rw [access_eq_grant unalignedBreak_ready, access_eq_grant unalignedBreak_ready]
  decide

end Vm

end PlayXv6
