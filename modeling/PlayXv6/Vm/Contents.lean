import PlayXv6.Vm.Memory

/-
  What an access to user memory gives, as a function of the
  process and its table.

  A program that fills no frame changes only the contents of
  frames it takes from the allocator.

  Main declarations:
    * `grant`
    * `access_eq_grant`
-/

namespace PlayXv6

open Function

variable {rest : List Nat} {root pa : Nat} {β α : Type}

namespace Vm

-- Programs that Give Nothing Back

/- Commands that neither give a frame back nor fill one. -/
def NoFree : {β : Type} → Cmd β → Prop
  | _, .free _ => False
  | _, .fill _ => False
  | _, _ => True

variable {pid : Nat} {s s' : State}

theorem readTable_state {f : PageTable → β} {b : β}
    (hExec : s.readTable root f = .ok b s') : s' = s := by
  unfold State.readTable at hExec
  split at hExec
  · simp at hExec
  · cases hExec
    rfl

theorem onTable_free {f : PageTable → β × PageTable} {b : β}
    (hExec : s.onTable root f = .ok b s') : s'.free = s.free := by
  unfold State.onTable at hExec
  split at hExec
  · simp at hExec
  · cases hExec
    rfl

theorem onProc_free {f : Proc → β × Proc} {b : β} (hExec : s.onProc pid f = .ok b s') :
    s'.free = s.free := by
  unfold State.onProc at hExec
  split at hExec
  · simp at hExec
  · cases hExec
    rfl

/- Such a command only takes frames from the allocator. -/
theorem free_suffix_of_noFree {c : Cmd β} {b : β} (hNo : NoFree c)
    (hExec : exec pid c s = .ok b s') : s'.free <:+ s.free := by
  cases c with
  | allocZeroed =>
    simp only [exec] at hExec
    split at hExec
    · cases hExec
      exact List.suffix_rfl
    · rename_i pa rest hFree
      cases hExec
      rw [hFree]
      exact List.suffix_cons pa rest
  | free pa | fill c => exact absurd hNo (by simp [NoFree])
  | newTable pa | trampolinePa | liveProcs | withLayout root tf size =>
    cases hExec
    exact List.suffix_rfl
  | hasBranch root level idx | pteAt root vpn => rw [readTable_state hExec]
  | linkBranch root level idx pa | takeLeaf root vpn => rw [onTable_free hExec]
  | setPte root vpn e =>
    simp only [exec] at hExec
    split at hExec
    · rw [onTable_free hExec]
    · cases hExec
  | dropTable root | proc | rootPa =>
    simp only [exec] at hExec
    split at hExec
    · simp at hExec
    · cases hExec
      exact List.suffix_rfl
  | swapTable root | setSize size | setVmas vmas | setMmapBase base
  | setZombie => rw [onProc_free hExec]
  | panic => simp [exec] at hExec

/- Such a command clears a frame only as it allocates it. -/
theorem ramAfter_of_notMem {m : Mem} {c : Cmd β} {b : β} {x : Nat} (hNo : NoFree c)
    (hExec : exec pid c m.vm = .ok b s') (hx : x ∉ m.vm.free) : m.ramAfter c b x = m.ram x := by
  cases c with
  | allocZeroed =>
    simp only [exec] at hExec
    split at hExec
    · cases hExec
      rfl
    · rename_i pa rest hFree
      cases hExec
      rw [hFree] at hx
      exact update_of_ne (List.ne_of_not_mem_cons hx) _ _
  | fill c => exact absurd hNo (by simp [NoFree])
  | _ => rfl

/-
  A program runs with the contents as without, and frames
  that were not free keep their contents.
-/
theorem run_execMem {p : VmProg α} {m : Mem} {a : α} (hAll : p.All NoFree)
    (hRun : Prog.run (exec pid) p m.vm = .ok a s') : ∃ ram,
      Prog.run (execMem pid) p m = .ok a { m with vm := s', ram := ram } ∧
      ∀ x, x ∉ m.vm.free → ram x = m.ram x := by
  induction p generalizing m with
  | ret b =>
    cases hRun
    exact ⟨m.ram, rfl, fun _ _ => rfl⟩
  | op c k ih =>
    rcases Outcome.of_andThen_ok hRun with ⟨b, s, hExec, hRun⟩
    let m₁ : Mem := { m with vm := s, ram := m.ramAfter c b }
    rcases ih b (hAll.2 b) (m := m₁) hRun with ⟨ram, hRest, hRam⟩
    refine ⟨ram, ?_, ?_⟩
    · change (execMem pid c m).andThen _ = _
      simp only [execMem, hExec, Outcome.andThen_ok]
      exact hRest
    · intro x hx
      have hSuffix := free_suffix_of_noFree hAll.1 hExec
      rw [hRam x fun hMem => hx (hSuffix.subset hMem)]
      exact ramAfter_of_notMem hAll.1 hExec hx

theorem walkLevel_noFree (root va level : Nat) (alloc : Bool) :
    (walkLevel root va level alloc).All NoFree := by
  refine .lift_bind trivial fun b => ?_
  refine .ite trivial (.ite ?_ trivial)
  refine .lift_bind trivial fun o => ?_
  cases o with
  | none => trivial
  | some pa => exact ⟨trivial, fun _ => trivial⟩

theorem walk_noFree (root va : Nat) (alloc : Bool) : (walk root va alloc).All NoFree := by
  refine .ite trivial ?_
  refine (walkLevel_noFree root va 2 alloc).bind fun b => ?_
  exact .ite (walkLevel_noFree root va 1 alloc) trivial

theorem map_noFree (root va pa : Nat) (perm : PtePerm) : (map root va pa perm).All NoFree := by
  refine .ite trivial (.ite trivial ?_)
  refine (walk_noFree root va true).bind fun b => ?_
  refine .ite ?_ trivial
  refine .lift_bind trivial fun o => ?_
  cases o with
  | none => exact ⟨trivial, fun _ => trivial⟩
  | some e => trivial

theorem mapKernelPages_noFree (root tf : Nat) : (mapKernelPages root tf).All NoFree := by
  refine .lift_bind trivial fun tramp => ?_
  refine (map_noFree root TRAMPOLINE tramp .RX).bind fun r => ?_
  cases r with
  | error e => trivial
  | ok u =>
    refine (map_noFree root TRAPFRAME tf .RW).bind fun r => ?_
    cases r with
    | error e | ok u => trivial

-- Single Steps

def NoAlloc : {β : Type} → Cmd β → Prop
  | _, .allocZeroed => False
  | _, .fill _ => False
  | _, _ => True

variable {m : Mem}

theorem run_mem_still {p : VmProg α} {a : α} (hAll : p.All NoAlloc)
    (hRun : Prog.run (exec pid) p m.vm = .ok a s') :
    Prog.run (execMem pid) p m = .ok a { m with vm := s' } := by
  induction p generalizing m with
  | ret b =>
    cases hRun
    rfl
  | op c k ih =>
    rcases Outcome.of_andThen_ok hRun with ⟨b, s, hExec, hRun⟩
    have hRam : m.ramAfter c b = m.ram := by
      cases c with
      | allocZeroed | fill c => exact absurd hAll.1 (by simp [NoAlloc])
      | _ => rfl
    change (execMem pid c m).andThen _ = _
    simp only [execMem, hExec, Outcome.andThen_ok, hRam]
    exact ih b (hAll.2 b) (m := { m with vm := s }) hRun

theorem translate_noAlloc (root va : Nat) : (translate root va).All NoAlloc := by
  by_cases hMax : va < MAXVA
  · rw [translate_eq hMax]
    refine ⟨trivial, fun b => ?_⟩
    refine .ite ⟨trivial, fun b => ?_⟩ trivial
    exact .ite ⟨trivial, fun _ => trivial⟩ trivial
  · rw [translate_eq_none (Nat.not_lt.mp hMax)]
    trivial

theorem run_mem_translate (pid va : Nat) {pt : PageTable}
    (hTable : m.vm.tables.lookup root = some pt) :
    Prog.run (execMem pid) (translate root va) m = .ok (pt.entryAt va) m :=
  run_mem_still (translate_noAlloc root va) (run_translate pid va hTable)

theorem run_mem_rootPa {q : Proc} (hProc : m.vm.procs.lookup pid = some q)
    (hRoot : q.pagetable = some root) :
    Prog.run (execMem pid) (Prog.lift .rootPa) m = .ok root m := by
  refine run_mem_still ⟨trivial, fun _ => trivial⟩ ?_
  simp [Prog.lift, exec, hProc, hRoot]

theorem run_mem_proc {q : Proc} (hProc : m.vm.procs.lookup pid = some q) :
    Prog.run (execMem pid) (Prog.lift .proc) m = .ok q m := by
  refine run_mem_still ⟨trivial, fun _ => trivial⟩ ?_
  simp [Prog.lift, exec, hProc]

def Mem.took (m : Mem) (pa : Nat) (rest : List Nat) : Mem :=
  { m with
    vm := { m.vm with free := rest }
    ram := update m.ram pa fun _ => 0 }

theorem run_mem_alloc (pid : Nat) (hFree : m.vm.free = pa :: rest) :
    Prog.run (execMem pid) (Prog.lift .allocZeroed) m = .ok (some pa) (m.took pa rest) := by
  change (execMem pid .allocZeroed m).andThen _ = _
  simp only [execMem, exec, hFree, Outcome.andThen_ok]
  rfl

theorem run_mem_alloc_nil (pid : Nat) (hFree : m.vm.free = []) :
    Prog.run (execMem pid) (Prog.lift .allocZeroed) m = .ok none m := by
  change (execMem pid .allocZeroed m).andThen _ = _
  simp only [execMem, exec, hFree, Outcome.andThen_ok]
  rfl

def Mem.rooted (m : Mem) (pa : Nat) (rest : List Nat) : Mem :=
  let m₁ := m.took pa rest
  { m₁ with vm := { m₁.vm with
      tables := m₁.vm.tables.insert pa .zeroed } }

theorem run_mem_newPageTable (pid : Nat) (hFree : m.vm.free = pa :: rest) :
    Prog.run (execMem pid) (newPageTable) m = .ok (some pa) (m.rooted pa rest) := by
  unfold newPageTable
  rw [Prog.run_then (run_mem_alloc pid hFree)]
  rfl

theorem run_mem_newPageTable_nil (pid : Nat) (hFree : m.vm.free = []) :
    Prog.run (execMem pid) (newPageTable) m = .ok none m := by
  unfold newPageTable
  rw [Prog.run_then (run_mem_alloc_nil pid hFree)]
  rfl

theorem run_mem_map (pid va pa : Nat) (perm : PtePerm) {d : Draft}
    (hHas : m.vm.Has root d) : ∃ s' ram,
      Prog.run (execMem pid) (map root va pa perm) m = .ok (d.put va pa perm).1
          { m with vm := s', ram := ram } ∧ s'.Has root (d.put va pa perm).2 ∧
      State.Leaves root m.vm s' ∧ ∀ x, x ∉ m.vm.free → ram x = m.ram x := by
  rcases run_map pid va pa perm hHas with ⟨s', hRun, hHas', hLeaves⟩
  rcases run_execMem (map_noFree root va pa perm) hRun with ⟨ram, hBare, hRam⟩
  exact ⟨s', ram, hBare, hHas', hLeaves, hRam⟩

-- Fresh Pages

/- Enough frames for a page and its tables. -/
structure Supply (free : List Nat) : Prop where
  enough : 3 ≤ free.length
  aligned : ∀ pa ∈ free, pa % PGSIZE = 0
  nodup : free.Nodup

/- A byte of a fresh page: of the file, if there is one. -/
def freshByte (files : Nat → List UInt8) : Option (Nat × Nat) → Nat → UInt8
  | none, _ => 0
  | some (ino, off), i => (files ino).getD (off + i) 0

variable {page : Nat} {perm : PtePerm} {pt : PageTable}

/- A page that has been mapped at `page`, and its bytes. -/
structure Fresh (root page : Nat) (perm : PtePerm) (bytes : Nat → UInt8) (m : Mem) : Prop where
  entry : ∃ pt pa, m.vm.tables.lookup root = some pt ∧
    pt.entryAt page = some ⟨pa, perm⟩ ∧ m.ram pa = bytes

/- Map the first free frame, whatever has been put in it. -/
theorem run_mem_map_fresh (pid : Nat) (perm : PtePerm)
    (hTable : m.vm.tables.lookup root = some pt) (hSupply : Supply (pa :: rest))
    (hFree : m.vm.free = rest) (hPage : page % PGSIZE = 0) (hMax : page < MAXVA)
    (hVacant : pt.pte.lookup (page / PGSIZE) = none) : ∃ m', Prog.run (execMem pid)
        (map root page pa perm) m = .ok (.ok ()) m' ∧
      Fresh root page perm (m.ram pa) m' := by
  have hPa : pa % PGSIZE = 0 := hSupply.aligned pa (List.mem_cons_self ..)
  have hRoom : 2 ≤ rest.length := by
    have hLen := hSupply.enough
    rw [List.length_cons] at hLen
    omega
  have hHas : m.vm.Has root ⟨rest, pt⟩ := ⟨hFree, hTable⟩
  have hPut : ∃ d', (⟨rest, pt⟩ : Draft).put page pa perm = (.ok (), d') :=
    Draft.exists_put_of_room hPage hPa hMax hVacant hRoom
  rcases hPut with ⟨d', hPut⟩
  rcases run_mem_map pid page pa perm hHas with ⟨s', ram, hRun, hHas', _, hRam⟩
  rw [hPut] at hRun hHas'
  refine ⟨_, hRun, ⟨d'.table, pa, hHas'.table, ?_, ?_⟩⟩
  · exact (Draft.mapped_of_put hPut).entryAt
  · refine hRam pa ?_
    rw [hFree]
    exact (List.nodup_cons.mp hSupply.nodup).1

theorem Fresh.run_translate (pid : Nat) {bytes : Nat → UInt8}
    (hFresh : Fresh root page perm bytes m) {va : Nat} (hVa : va / PGSIZE = page / PGSIZE) :
    ∃ pa, Prog.run (execMem pid) (translate root va) m = .ok (some ⟨pa, perm⟩) m ∧
      m.ram pa = bytes := by
  rcases hFresh.entry with ⟨pt, pa, hTable, hEntry, hBytes⟩
  refine ⟨pa, ?_, hBytes⟩
  rw [run_mem_translate pid va hTable, pt.entryAt_congr hVa, hEntry]

theorem run_mapFresh (pid : Nat) (perm : PtePerm) (file : Option (Nat × Nat))
    (hTable : m.vm.tables.lookup root = some pt) (hSupply : Supply m.vm.free)
    (hPage : page % PGSIZE = 0) (hMax : page < MAXVA)
    (hVacant : pt.pte.lookup (page / PGSIZE) = none) : ∃ m', Prog.run (execMem pid)
        (mapFresh root page perm file) m = .ok true m' ∧
      Fresh root page perm (freshByte m.files file) m' := by
  cases hFree : m.vm.free with
  | nil =>
    have hLen := hSupply.enough
    simp [hFree] at hLen
  | cons pa rest =>
    rw [hFree] at hSupply
    unfold mapFresh
    rw [Prog.run_then (run_mem_alloc pid hFree)]
    have hFill : ∃ ram, Prog.run (execMem pid) (fillPage pa file) (m.took pa rest) =
          .ok () { m.took pa rest with ram := ram } ∧ ram pa = freshByte m.files file := by
      cases file with
      | none | some f => exact ⟨_, rfl, update_self ..⟩
    rcases hFill with ⟨ram, hFill, hRam⟩
    have hMap := run_mem_map_fresh pid perm (m := { m.took pa rest with ram := ram })
      hTable hSupply rfl hPage hMax hVacant
    rcases hMap with ⟨m', hMap, hFresh⟩
    refine ⟨m', ?_, ?_⟩
    · dsimp only
      rw [Prog.run_then hFill, Prog.run_then hMap]
      rfl
    · rw [← hRam]
      exact hFresh

-- What an Access Gives

namespace Proc

/- The permissions of the page an access would bring in. -/
def demand (q : Proc) (va : Nat) : Access → Option PtePerm
  | .load => q.demandPerm va false
  | .store => q.demandPerm va false
  | .fetch => none
  | .kernelRead => q.demandPerm (pageRoundDown va) true
  | .kernelWrite => q.demandPerm (pageRoundDown va) true

def demandSource (q : Proc) (va : Nat) : Access → Option (Nat × Nat)
  | .load => q.demandFile va
  | .store => q.demandFile va
  | _ => none

end Proc

/-
  What an access of a process gives while there are frames:
  through the table, or through a page mapped on demand.
-/
def grant (m : Mem) (q : Proc) (pt : PageTable) (kind : Access)
    (va : Nat) : Option (PtePerm × UInt8) :=
  match pt.entryAt va with
  | some e =>
    if kind.allowed e.perm then
      some (e.perm, m.ram e.pa (va % PGSIZE))
    else
      none
  | none =>
    if va < MAXVA then
      ((q.demand va kind).filter kind.allowed).map fun perm =>
          (perm, freshByte m.files (q.demandSource va kind) (va % PGSIZE))
    else
      none

theorem pageRoundDown_mod (va : Nat) : pageRoundDown va % PGSIZE = 0 := Nat.mul_mod_left _ _

theorem pageRoundDown_div (va : Nat) : pageRoundDown va / PGSIZE = va / PGSIZE :=
  Nat.mul_div_cancel _ (by decide)

variable {va : Nat} {q : Proc} {kind : Access}

/- Process `pid`, its record, its table, and free frames. -/
structure Ready (m : Mem) (pid : Nat) (q : Proc) (root : Nat) (pt : PageTable) : Prop where
  proc : m.vm.procs.lookup pid = some q
  pagetable : q.pagetable = some root
  table : m.vm.tables.lookup root = some pt
  linked : pt.Linked
  supply : Supply m.vm.free

/- What an attempt has come to is what the access gives. -/
structure Gives (m : Mem) (pid : Nat) (p : VmProg (Option Pte)) (va : Nat)
    (o : Option (PtePerm × UInt8)) : Prop where
  run : ∃ r m', Prog.run (execMem pid) p m = .ok r m' ∧
    r.map (fun e => (e.perm, m'.ram e.pa (va % PGSIZE))) = o

theorem access_of_gives {o : Option (PtePerm × UInt8)}
    (hGives : Gives m pid (Mem.attempt kind va) va o) : m.access pid kind va = o := by
  rcases hGives.run with ⟨r, m', hRun, rfl⟩
  unfold Mem.access
  rw [hRun]
  cases r with
  | none | some e => rfl

theorem gives_through {e : Pte} (hRun : Prog.run (execMem pid) (Mem.attempt kind va) m =
      .ok (kind.through (some e)) m) : Gives m pid (Mem.attempt kind va) va
      (if kind.allowed e.perm then
        some (e.perm, m.ram e.pa (va % PGSIZE))
      else
        none) := by
  refine ⟨_, m, hRun, ?_⟩
  unfold Access.through
  by_cases hAllowed : kind.allowed e.perm = true
  · simp [Option.filter, hAllowed]
  · simp [Option.filter, hAllowed]

theorem Ready.run_rootPa (hReady : Ready m pid q root pt) :
    Prog.run (execMem pid) (Prog.lift .rootPa) m = .ok root m :=
  run_mem_rootPa hReady.proc hReady.pagetable

theorem entryAt_page (pt : PageTable) (va : Nat) : pt.entryAt (pageRoundDown va) = pt.entryAt va :=
  pt.entryAt_congr (pageRoundDown_div va)

theorem run_translateUserPerm_mapped {e : Pte} (hReady : Ready m pid q root pt)
    (hEntry : pt.entryAt va = some e) (write : Bool) :
    Prog.run (execMem pid) (translateUserPerm va write)
      m = .ok (accessible e va write) m := by
  unfold translateUserPerm
  rw [Prog.run_then hReady.run_rootPa, Prog.run_then (run_mem_translate pid _ hReady.table),
    entryAt_page, hEntry]
  rfl

/- The kernel's accesses need what its translation needs. -/
theorem accessible_isSome (e : Pte) (va : Nat) (hKind : kind = .kernelRead ∨ kind = .kernelWrite) :
    (accessible e va kind.writes).isSome = kind.allowed e.perm := by
  have hSome : (accessible e va kind.writes).isSome =
      (e.perm.user && (!kind.writes || e.perm.write)) := by
    unfold accessible
    split
    · rename_i hPerm
      exact hPerm.symm
    · rename_i hPerm
      exact (Bool.eq_false_iff.mpr hPerm).symm
  rw [hSome]
  rcases hKind with rfl | rfl <;> simp [Access.writes, Access.allowed]

theorem run_kernelAttempt_through {m' : Mem} {e : Pte}
    (hKind : kind = .kernelRead ∨ kind = .kernelWrite) (hReady : Ready m pid q root pt)
    (hPerm : Prog.run (execMem pid) (translateUserPerm va kind.writes) m =
        .ok (accessible e va kind.writes) m') (hTranslate : Prog.run (execMem pid)
      (translate root va) m' = .ok (some e) m') :
    Prog.run (execMem pid) (Mem.kernelAttempt kind va) m = .ok (kind.through (some e)) m' := by
  unfold Mem.kernelAttempt
  rw [Prog.run_then hReady.run_rootPa, Prog.run_then hPerm]
  have hSome := accessible_isSome e va hKind
  cases hAcc : accessible e va kind.writes with
  | none =>
    rw [hAcc] at hSome
    simp [Access.through, Option.filter, ← hSome]
  | some kva =>
    dsimp only
    rw [Prog.run_then hTranslate]
    rfl

theorem gives_of_mapped {e : Pte} (hReady : Ready m pid q root pt) (hEntry : pt.entryAt va = some e)
    (kind : Access) : Gives m pid (Mem.attempt kind va) va (grant m q pt kind va) := by
  have hTranslate : Prog.run (execMem pid) (translate root va) m = .ok (some e) m := by
    rw [run_mem_translate pid va hReady.table, hEntry]
  have hUser : ∀ kind : Access, Prog.run (execMem pid) (Mem.userAttempt kind va) m =
        .ok (kind.through (some e)) m := by
    intro kind
    unfold Mem.userAttempt
    rw [Prog.run_then hReady.run_rootPa, Prog.run_then hTranslate]
    rfl
  unfold grant
  rw [hEntry]
  refine gives_through ?_
  cases kind with
  | load => exact hUser .load
  | store => exact hUser .store
  | fetch =>
    change Prog.run (execMem pid) (Mem.fetchAttempt va) m = _
    unfold Mem.fetchAttempt
    rw [Prog.run_then hReady.run_rootPa, Prog.run_then hTranslate]
    rfl
  | kernelRead =>
    exact run_kernelAttempt_through (.inl rfl) hReady
      (run_translateUserPerm_mapped hReady hEntry _) hTranslate
  | kernelWrite =>
    exact run_kernelAttempt_through (.inr rfl) hReady
      (run_translateUserPerm_mapped hReady hEntry _) hTranslate

theorem gives_none {m' : Mem} (hRun : Prog.run (execMem pid) (Mem.attempt kind va) m =
      .ok none m') : Gives m pid (Mem.attempt kind va) va none := ⟨none, m', hRun, rfl⟩

theorem gives_of_fresh {m' : Mem} {perm : PtePerm} {bytes : Nat → UInt8}
    (hRun : Prog.run (execMem pid) (Mem.attempt kind va) m =
      .ok (kind.through (some ⟨pa, perm⟩)) m') (hBytes : m'.ram pa = bytes) :
    Gives m pid (Mem.attempt kind va) va (((some perm).filter kind.allowed).map
        fun perm => (perm, bytes (va % PGSIZE))) := by
  refine ⟨_, m', hRun, ?_⟩
  unfold Access.through
  by_cases hAllowed : kind.allowed perm = true
  · simp [Option.filter, hAllowed, hBytes]
  · simp [Option.filter, hAllowed]

theorem vacant_of_linked (hLinked : pt.Linked) (hEntry : pt.entryAt va = none) :
    pt.pte.lookup (pageRoundDown va / PGSIZE) = none := by
  rw [pageRoundDown_div, ← hLinked.entryAt_eq va]
  exact hEntry

theorem gives_of_fault (hReady : Ready m pid q root pt) (hEntry : pt.entryAt va = none)
    (hMax : va < MAXVA) (hKind : Mem.attempt kind va = Mem.userAttempt kind va)
    (hDemand : q.demand va kind = q.demandPerm va false)
    (hSource : q.demandSource va kind = q.demandFile va) : Gives m pid (Mem.attempt kind va) va
      (grant m q pt kind va) := by
  have hTranslate : Prog.run (execMem pid) (translate root va) m = .ok none m := by
    rw [run_mem_translate pid va hReady.table, hEntry]
  unfold grant
  rw [hEntry]
  dsimp only
  rw [if_pos hMax, hDemand, hSource]
  cases hPerm : q.demandPerm va false with
  | none =>
    have hLazy : Prog.run (execMem pid) (lazyMapPageAsync va kind.writes) m = .ok false m := by
      unfold lazyMapPageAsync
      rw [Prog.run_then (run_mem_proc hReady.proc), hPerm]
      rfl
    have hRun : Prog.run (execMem pid) (Mem.attempt kind va) m = .ok none m := by
      rw [hKind]
      unfold Mem.userAttempt
      rw [Prog.run_then hReady.run_rootPa, Prog.run_then hTranslate]
      dsimp only
      rw [Prog.run_then hLazy]
      rfl
    exact gives_none hRun
  | some perm =>
    rcases run_mapFresh pid perm (q.demandFile va)
        hReady.table hReady.supply (pageRoundDown_mod va) ((pageRoundDown_le va).trans_lt hMax)
        (vacant_of_linked hReady.linked hEntry) with ⟨m', hMap, hFresh⟩
    rcases hFresh.run_translate pid (pageRoundDown_div va).symm with ⟨pa, hFound, hBytes⟩
    have hLazy : Prog.run (execMem pid) (lazyMapPageAsync va kind.writes) m = .ok true m' := by
      unfold lazyMapPageAsync
      rw [Prog.run_then (run_mem_proc hReady.proc), hPerm]
      dsimp only
      rw [Prog.run_then hReady.run_rootPa, Prog.run_then (run_mem_translate pid _ hReady.table),
        entryAt_page, hEntry]
      exact hMap
    refine gives_of_fresh ?_ hBytes
    rw [hKind]
    unfold Mem.userAttempt
    rw [Prog.run_then hReady.run_rootPa, Prog.run_then hTranslate]
    dsimp only
    rw [Prog.run_then hLazy, if_pos rfl, Prog.run_then hFound]
    rfl

theorem run_demandMapZeroPage {perm : PtePerm} (hReady : Ready m pid q root pt)
    (hEntry : pt.entryAt va = none) (hMax : va < MAXVA)
    (hPerm : q.demandPerm (pageRoundDown va) true = some perm) : ∃ m', Prog.run (execMem pid)
        (demandMapZeroPage (pageRoundDown va)) m = .ok true m' ∧
      Fresh root (pageRoundDown va) perm (fun _ => 0) m' := by
  cases hFree : m.vm.free with
  | nil =>
    have hLen := hReady.supply.enough
    simp [hFree] at hLen
  | cons pa rest =>
    have hSupply := hReady.supply
    rw [hFree] at hSupply
    have hRoot : Prog.run (execMem pid) (Prog.lift .rootPa) (m.took pa rest) = .ok root
      (m.took pa rest) := run_mem_rootPa (m := m.took pa rest) hReady.proc hReady.pagetable
    have hTable : (m.took pa rest).vm.tables.lookup root = some pt := hReady.table
    have hMap := run_mem_map_fresh pid perm (m := m.took pa rest) hTable hSupply rfl
      (pageRoundDown_mod va) ((pageRoundDown_le va).trans_lt hMax)
      (vacant_of_linked hReady.linked hEntry)
    rcases hMap with ⟨m', hMap, hFresh⟩
    refine ⟨m', ?_, ?_⟩
    · unfold demandMapZeroPage
      rw [Prog.run_then (run_mem_proc hReady.proc), hPerm]
      dsimp only
      rw [Prog.run_then (run_mem_alloc pid hFree)]
      dsimp only
      rw [Prog.run_then hRoot, Prog.run_then (run_mem_translate pid _ hTable), entryAt_page, hEntry]
      dsimp only
      rw [Prog.run_then hMap]
      rfl
    · have hZero : (m.took pa rest).ram pa = fun _ => 0 := update_self ..
      rw [← hZero]
      exact hFresh

theorem gives_of_demand (hReady : Ready m pid q root pt) (hEntry : pt.entryAt va = none)
    (hMax : va < MAXVA) (hKind : kind = .kernelRead ∨ kind = .kernelWrite) (hAttempt :
      Mem.attempt kind va = Mem.kernelAttempt kind va) (hDemand : q.demand va kind =
      q.demandPerm (pageRoundDown va) true) (hSource : q.demandSource va kind = none) :
    Gives m pid (Mem.attempt kind va) va (grant m q pt kind va) := by
  have hTranslate : Prog.run (execMem pid) (translate root (pageRoundDown va)) m =
        .ok none m := by rw [run_mem_translate pid _ hReady.table, entryAt_page, hEntry]
  unfold grant
  rw [hEntry]
  dsimp only
  rw [if_pos hMax, hDemand, hSource]
  cases hPerm : q.demandPerm (pageRoundDown va) true with
  | none =>
    have hZero : Prog.run (execMem pid) (demandMapZeroPage (pageRoundDown va)) m =
          .ok false m := by
      unfold demandMapZeroPage
      rw [Prog.run_then (run_mem_proc hReady.proc), hPerm]
      rfl
    have hUser : Prog.run (execMem pid) (translateUserPerm va kind.writes) m =
          .ok none m := by
      unfold translateUserPerm
      rw [Prog.run_then hReady.run_rootPa, Prog.run_then hTranslate]
      dsimp only
      rw [Prog.run_then hZero]
      rfl
    have hRun : Prog.run (execMem pid) (Mem.attempt kind va) m = .ok none m := by
      rw [hAttempt]
      unfold Mem.kernelAttempt
      rw [Prog.run_then hReady.run_rootPa, Prog.run_then hUser]
      rfl
    exact gives_none hRun
  | some perm =>
    rcases run_demandMapZeroPage hReady hEntry hMax hPerm with ⟨m', hZero, hFresh⟩
    rcases hFresh.entry with ⟨pt', pa, hTable, hFound, hBytes⟩
    have hUser : Prog.run (execMem pid) (translateUserPerm va kind.writes) m =
          .ok (accessible ⟨pa, perm⟩ va kind.writes) m' := by
      unfold translateUserPerm
      rw [Prog.run_then hReady.run_rootPa, Prog.run_then hTranslate]
      dsimp only
      rw [Prog.run_then hZero, if_pos rfl, Prog.run_then (run_mem_translate pid _ hTable), hFound]
      rfl
    have hAgain : Prog.run (execMem pid) (translate root va) m' =
          .ok (some ⟨pa, perm⟩) m' := by
      rw [run_mem_translate pid va hTable, ← entryAt_page, hFound]
    refine gives_of_fresh ?_ hBytes
    rw [hAttempt]
    exact run_kernelAttempt_through hKind hReady hUser hAgain

/- Addresses beyond the tables cannot be accessed. -/
theorem attempt_high (hHigh : MAXVA ≤ va) (kind : Access) :
    (Mem.attempt kind va).Returns (· = none) := by
  have hThrough : ∀ (kind : Access) (root : Nat),
      (do return kind.through (← translate root va) :
        VmProg (Option Pte)).Returns (· = none) := by
    intro kind root
    rw [translate_eq_none hHigh]
    rfl
  have hUser : ∀ kind : Access, (Mem.userAttempt kind va).Returns (· = none) := by
    intro kind
    refine Prog.Returns.bind (Prog.returns_true _) ?_
    intro root _
    rw [translate_eq_none hHigh]
    refine Prog.Returns.bind (P := (· = none)) rfl ?_
    rintro o rfl
    refine Prog.Returns.bind (Prog.returns_true _) ?_
    intro b _
    cases b with
    | false | true => rfl
  have hKernel : ∀ kind : Access, (Mem.kernelAttempt kind va).Returns (· = none) := by
    intro kind
    refine Prog.Returns.bind (Prog.returns_true _) ?_
    intro root _
    refine Prog.Returns.bind (Prog.returns_true _) ?_
    intro o _
    cases o with
    | none => rfl
    | some kva => exact hThrough kind root
  cases kind with
  | load => exact hUser .load
  | store => exact hUser .store
  | fetch =>
    refine Prog.Returns.bind (Prog.returns_true _) ?_
    intro root _
    exact hThrough .fetch root
  | kernelRead => exact hKernel .kernelRead
  | kernelWrite => exact hKernel .kernelWrite

/- While there are frames, an access gives what is granted. -/
theorem access_eq_grant (hReady : Ready m pid q root pt) (kind : Access) (va : Nat) :
    m.access pid kind va = grant m q pt kind va := by
  cases hEntry : pt.entryAt va with
  | some e =>
    exact access_of_gives (gives_of_mapped hReady hEntry kind)
  | none =>
    by_cases hMax : va < MAXVA
    · apply access_of_gives
      cases kind with
      | load | store => exact gives_of_fault hReady hEntry hMax rfl rfl rfl
      | fetch =>
        unfold grant
        rw [hEntry]
        dsimp only
        rw [if_pos hMax]
        have hRun : Prog.run (execMem pid) (Mem.attempt .fetch va) m = .ok none m := by
          change Prog.run (execMem pid) (Mem.fetchAttempt va) m = _
          unfold Mem.fetchAttempt
          rw [Prog.run_then hReady.run_rootPa,
            Prog.run_then (run_mem_translate pid va hReady.table), hEntry]
          rfl
        exact gives_none hRun
      | kernelRead =>
        exact gives_of_demand hReady hEntry hMax (.inl rfl) rfl rfl rfl
      | kernelWrite =>
        exact gives_of_demand hReady hEntry hMax (.inr rfl) rfl rfl rfl
    · unfold grant Mem.access
      rw [hEntry]
      dsimp only
      rw [if_neg hMax]
      cases hRun : Prog.run (execMem pid) (Mem.attempt kind va) m with
      | ok r m' =>
        have hNone : r = none := (attempt_high (Nat.not_lt.mp hMax) kind).run hRun
        rw [hNone]
      | wait | panic e => rfl

end Vm

end PlayXv6
