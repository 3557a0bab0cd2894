import PlayXv6.Vm.Walk

/-
  Building page tables, as functions of the free frames and
  the table alone.

  Main declarations:
    * `Draft`
    * `run_walk`, `run_map`
-/

namespace PlayXv6

namespace Vm

/- The free frames and a page table being built. -/
structure Draft where
  free : List Nat
  table : PageTable

namespace Draft

def level (d : Draft) (va level : Nat) : Bool × Draft :=
  let key := (level, levelIndex va level)
  if (d.table.branch.lookup key).isSome then
    (true, d)
  else
    match d.free with
    | [] => (false, d)
    | pa :: rest =>
      (true,
        { free := rest
          table := { d.table with
            branch := d.table.branch.insert key pa } })

def reach (d : Draft) (va : Nat) : Bool × Draft :=
  if va ≥ MAXVA then (false, d)
  else if (d.level va 2).1 then (d.level va 2).2.level va 1
  else (false, (d.level va 2).2)

def put (d : Draft) (va pa : Nat) (perm : PtePerm) : Except VmError Unit × Draft :=
  if va % PGSIZE ≠ 0 ∨ pa % PGSIZE ≠ 0 then
    (.error .misaligned, d)
  else if pageEnd va > MAXVA then
    (.error .outOfRange, d)
  else if (d.reach va).1 then
    match (d.reach va).2.table.pte.lookup (va / PGSIZE) with
    | some _ => (.error .remap, (d.reach va).2)
    | none =>
      (.ok (),
        { (d.reach va).2 with
          table :=
            { (d.reach va).2.table with
              pte := (d.reach va).2.table.pte.insert (va / PGSIZE) ⟨pa, perm⟩ } })
  else
    (.error .oom, (d.reach va).2)

/- The two pages shared with the kernel. -/
def putKernel (d : Draft) (tramp trapframePa : Nat) : Bool × Draft :=
  match d.put TRAMPOLINE tramp .RX with
  | (.error _, d₁) => (false, d₁)
  | (.ok (), d₁) =>
    match d₁.put TRAPFRAME trapframePa .RW with
    | (.error _, d₂) => (false, d₂)
    | (.ok (), d₂) => (true, d₂)

end Draft

namespace State

/- The table at `root` and the free frames are the draft's. -/
structure Has (s : State) (root : Nat) (d : Draft) : Prop where
  free : s.free = d.free
  table : s.tables.lookup root = some d.table

/- At most the free frames and the table at `root` differ. -/
structure Leaves (root : Nat) (s s' : State) : Prop where
  tables : ∀ r, r ≠ root → s'.tables.lookup r = s.tables.lookup r
  procs : s'.procs = s.procs
  liveProcs : s'.liveProcs = s.liveProcs
  nextPid : s'.nextPid = s.nextPid
  trampolinePa : s'.trampolinePa = s.trampolinePa

namespace Leaves

variable {root : Nat} {s s' s'' : State}

theorem setFree (root : Nat) (s : State) (free : List Nat) :
    Leaves root s { s with free := free } := ⟨fun _ _ => rfl, rfl, rfl, rfl, rfl⟩

theorem refl (root : Nat) (s : State) : Leaves root s s := setFree root s s.free

theorem trans (hFirst : Leaves root s s') (hThen : Leaves root s' s'') : Leaves root s s'' where
  tables r hr := (hThen.tables r hr).trans (hFirst.tables r hr)
  procs := hThen.procs.trans hFirst.procs
  liveProcs := hThen.liveProcs.trans hFirst.liveProcs
  nextPid := hThen.nextPid.trans hFirst.nextPid
  trampolinePa := hThen.trampolinePa.trans hFirst.trampolinePa

end Leaves

end State

-- Runs

variable {root : Nat} {s : State} {d : Draft}

theorem run_translate (pid va : Nat) {pt : PageTable} (hTable : s.tables.lookup root = some pt) :
    Prog.run (exec pid) (translate root va) s = .ok (pt.entryAt va) s := by
  by_cases hMax : va < MAXVA
  · rw [translate_eq hMax, Prog.run_op]
    simp only [exec, State.readTable, hTable, Outcome.andThen_ok]
    unfold PageTable.entryAt
    by_cases hBranch₂ : (pt.branch.lookup (2, levelIndex va 2)).isSome
    · rw [if_pos hBranch₂, Prog.run_op]
      simp only [exec, State.readTable, hTable, Outcome.andThen_ok]
      by_cases hBranch₁ : (pt.branch.lookup (1, levelIndex va 1)).isSome
      · rw [if_pos hBranch₁, Prog.run_op, if_pos ⟨hMax, hBranch₂, hBranch₁⟩]
        simp only [exec, State.readTable, hTable, Outcome.andThen_ok, Prog.run_ret]
      · rw [if_neg hBranch₁, if_neg fun hAll => hBranch₁ hAll.2.2,
          Prog.run_ret]
    · rw [if_neg hBranch₂, if_neg fun hAll => hBranch₂ hAll.2.1,
        Prog.run_ret]
  · rw [translate_eq_none (Nat.not_lt.mp hMax), PageTable.entryAt, if_neg fun hAll => hMax hAll.1,
      Prog.run_ret]

theorem run_walkLevel (pid va level : Nat) (hHas : s.Has root d) :
    ∃ s', Prog.run (exec pid) (walkLevel root va level true) s = .ok (d.level va level).1 s' ∧
      s'.Has root (d.level va level).2 ∧ State.Leaves root s s' := by
  unfold walkLevel
  simp only [Prog.bind_eq, Prog.lift_bind, Prog.run_op, exec,
    State.readTable, hHas.table, Outcome.andThen_ok]
  unfold Draft.level
  by_cases hBranch : (d.table.branch.lookup (level, levelIndex va level)).isSome
  · rw [if_pos hBranch]
    simp only [if_pos hBranch]
    exact ⟨s, rfl, hHas, .refl root s⟩
  · rw [if_neg hBranch]
    simp only [if_neg hBranch, if_true, Prog.run_op, exec, hHas.free]
    cases hFree : d.free with
    | nil =>
      simp only [Outcome.andThen_ok]
      exact ⟨s, rfl, hHas, .refl root s⟩
    | cons pa rest =>
      simp only [Outcome.andThen_ok, Prog.run_op, exec, State.onTable, hHas.table]
      exact ⟨_, rfl, ⟨rfl, AList.lookup_insert _⟩, ⟨fun _ hr => AList.lookup_insert_ne hr,
          rfl, rfl, rfl, rfl⟩⟩

theorem run_walk (pid va : Nat) (hHas : s.Has root d) :
    ∃ s', Prog.run (exec pid) (walk root va true) s = .ok (d.reach va).1 s' ∧
      s'.Has root (d.reach va).2 ∧ State.Leaves root s s' := by
  unfold walk Draft.reach
  by_cases hMax : va ≥ MAXVA
  · rw [if_pos hMax, if_pos hMax]
    exact ⟨s, rfl, hHas, .refl root s⟩
  · rw [if_neg hMax, if_neg hMax]
    rcases run_walkLevel pid va 2 hHas with ⟨s₁, hRun₁, hHas₁, hLeaves₁⟩
    rw [Prog.run_then hRun₁]
    by_cases hTwo : (d.level va 2).1 = true
    · rw [if_pos hTwo, if_pos hTwo]
      rcases run_walkLevel pid va 1 hHas₁ with ⟨s₂, hRun₂, hHas₂, hLeaves₂⟩
      exact ⟨s₂, hRun₂, hHas₂, hLeaves₁.trans hLeaves₂⟩
    · rw [if_neg hTwo, if_neg hTwo]
      exact ⟨s₁, rfl, hHas₁, hLeaves₁⟩

-- What is Built

namespace PageTable

/- Every entry can be reached: its tables exist. An entry of a real page table is in one of them. -/
def Linked (pt : PageTable) : Prop :=
  ∀ vpn e, pt.pte.lookup vpn = some e →
    pt.entryAt (vpn * PGSIZE) = some e

theorem lookup_of_entryAt {pt : PageTable} {va : Nat} {e : Pte} (hEntry : pt.entryAt va = some e) :
    va < MAXVA ∧ pt.pte.lookup (va / PGSIZE) = some e := by
  unfold entryAt at hEntry
  grind

theorem Linked.entryAt_eq {pt : PageTable} (hLinked : pt.Linked) (va : Nat) :
    pt.entryAt va = pt.pte.lookup (va / PGSIZE) := by
  cases hLookup : pt.pte.lookup (va / PGSIZE) with
  | none =>
    cases hEntry : pt.entryAt va with
    | none => rfl
    | some e =>
      rw [(lookup_of_entryAt hEntry).2] at hLookup
      simp at hLookup
  | some e =>
    rw [← hLinked _ e hLookup]
    apply entryAt_congr
    simp only [PGSIZE]
    omega

/- A table with more branches, whose new entries are where a walk has been. -/
theorem Linked.of_reached {pt pt' : PageTable} (hLinked : pt.Linked)
    (hBranch : ∀ key, (pt.branch.lookup key).isSome → (pt'.branch.lookup key).isSome)
    (hPte : ∀ p e, pt'.pte.lookup p = some e →
      pt.pte.lookup p = some e ∨ pt'.HasTables (p * PGSIZE)) : pt'.Linked := by
  intro p e hLookup
  have hTables : pt'.HasTables (p * PGSIZE) := by
    rcases hPte p e hLookup with hOld | hNew
    · have hEntry := hLinked p e hOld
      unfold entryAt at hEntry
      split at hEntry
      case isFalse => cases hEntry
      rename_i hWalk
      exact ⟨hWalk.1, hBranch _ hWalk.2.1, hBranch _ hWalk.2.2⟩
    · exact hNew
  rw [entryAt, if_pos hTables, Nat.mul_div_cancel p (by decide)]
  exact hLookup

theorem linked_zeroed : zeroed.Linked := by
  intro vpn e hLookup
  simp [zeroed] at hLookup

end PageTable

namespace Draft

variable {d' : Draft} {va pa : Nat} {perm : PtePerm}

/- A walk only takes frames and only adds branches. -/
structure Grown (d d' : Draft) : Prop where
  free : d'.free <:+ d.free
  pte : d'.table.pte = d.table.pte
  branch : ∀ key, (d.table.branch.lookup key).isSome → (d'.table.branch.lookup key).isSome

theorem Grown.refl (d : Draft) : Grown d d := ⟨List.suffix_rfl, rfl, fun _ h => h⟩

theorem Grown.trans {d'' : Draft} (hFirst : Grown d d') (hThen : Grown d' d'') : Grown d d'' where
  free := hThen.free.trans hFirst.free
  pte := hThen.pte.trans hFirst.pte
  branch key h := hThen.branch key (hFirst.branch key h)

theorem level_grown (d : Draft) (va level : Nat) : Grown d (d.level va level).2 := by
  dsimp only [Draft.level]
  split
  · exact .refl d
  · cases hFree : d.free with
    | nil => exact .refl d
    | cons pa rest =>
      refine ⟨?_, rfl, ?_⟩
      · rw [hFree]
        exact List.suffix_cons pa rest
      · intro key hSome
        dsimp only
        by_cases hKey : key = (level, levelIndex va level)
        · rw [hKey, AList.lookup_insert]
          rfl
        · rw [AList.lookup_insert_ne hKey]
          exact hSome

theorem level_branch {level : Nat} (hOk : (d.level va level).1 = true) :
    ((d.level va level).2.table.branch.lookup (level, levelIndex va level)).isSome := by
  unfold Draft.level at hOk ⊢
  grind [AList.lookup_insert]

theorem reach_grown (d : Draft) (va : Nat) : Grown d (d.reach va).2 := by
  unfold reach
  split
  · exact .refl d
  · split
    · exact (level_grown d va 2).trans (level_grown _ va 1)
    · exact level_grown d va 2

/- After a walk that succeeds the tables are there. -/
theorem reach_branches (hOk : (d.reach va).1 = true) : (d.reach va).2.table.HasTables va := by
  unfold reach at hOk ⊢
  split at hOk
  · cases hOk
  rename_i hMax
  rw [if_neg hMax]
  split at hOk
  case isFalse => cases hOk
  rename_i hTwo
  rw [if_pos hTwo]
  exact ⟨Nat.not_le.mp hMax, (level_grown _ va 1).branch _ (level_branch hTwo), level_branch hOk⟩

structure Mapped (d : Draft) (va pa : Nat) (perm : PtePerm) (d' : Draft) : Prop where
  aligned : va % PGSIZE = 0
  vacant : d.table.pte.lookup (va / PGSIZE) = none
  free : d'.free <:+ d.free
  pte : d'.table.pte = d.table.pte.insert (va / PGSIZE) ⟨pa, perm⟩
  branch : ∀ key, (d.table.branch.lookup key).isSome → (d'.table.branch.lookup key).isSome
  walk : d'.table.HasTables va

theorem mapped_of_put (hPut : d.put va pa perm = (.ok (), d')) : Mapped d va pa perm d' := by
  have hGrown := reach_grown d va
  unfold put at hPut
  repeat' split at hPut
  all_goals cases hPut
  rename_i hAlign _ hReach _ hPte
  refine ⟨by omega, ?_, hGrown.free, ?_, hGrown.branch, reach_branches hReach⟩
  · exact hGrown.pte ▸ hPte
  · rw [← hGrown.pte]

/- The kernel's pages are mapped one after the other. -/
theorem mapped_of_putKernel {tramp tf : Nat} (hPut : d.putKernel tramp tf = (true, d')) :
    ∃ d₁, Mapped d TRAMPOLINE tramp .RX d₁ ∧ Mapped d₁ TRAPFRAME tf .RW d' := by
  unfold putKernel at hPut
  repeat' split at hPut
  all_goals cases hPut
  rename_i hPut₁ _ hPut₂
  exact ⟨_, mapped_of_put hPut₁, mapped_of_put hPut₂⟩

theorem Mapped.entryAt (hMapped : Mapped d va pa perm d') :
    d'.table.entryAt va = some ⟨pa, perm⟩ := by
  rw [PageTable.entryAt, if_pos hMapped.walk, hMapped.pte]
  exact AList.lookup_insert _

/- With a free frame a level of the walk succeeds. -/
theorem level_of_room (hRoom : d.free ≠ []) (va level : Nat) : (d.level va level).1 = true ∧
      d.free.length ≤ (d.level va level).2.free.length + 1 := by
  dsimp only [Draft.level]
  split
  · exact ⟨rfl, Nat.le_succ _⟩
  · cases hFree : d.free with
    | nil => exact absurd hFree hRoom
    | cons pa rest => exact ⟨rfl, by simp⟩

/- With two free frames a vacant page can be mapped. -/
theorem exists_put_of_room (hVa : va % PGSIZE = 0) (hPa : pa % PGSIZE = 0) (hMax : va < MAXVA)
    (hVacant : d.table.pte.lookup (va / PGSIZE) = none) (hRoom : 2 ≤ d.free.length) :
    ∃ d', d.put va pa perm = (.ok (), d') := by
  have hEnd : ¬ pageEnd va > MAXVA := by
    unfold pageEnd
    simp only [PGSIZE, MAXVA] at *
    omega
  have hTwo : (d.level va 2).1 = true ∧ _ := level_of_room (by
      rintro hNil
      simp [hNil] at hRoom) va 2
  have hOne : ((d.level va 2).2.level va 1).1 = true := by
    refine (level_of_room ?_ va 1).1
    rintro hNil
    rw [hNil] at hTwo
    have hLe := hTwo.2
    simp only [List.length_nil] at hLe
    omega
  have hReach : (d.reach va).1 = true := by
    unfold reach
    rw [if_neg (Nat.not_le.mpr hMax), if_pos hTwo.1]
    exact hOne
  unfold put
  rw [if_neg (by simp [hVa, hPa]), if_neg hEnd, if_pos hReach, (reach_grown d va).pte, hVacant]
  exact ⟨_, rfl⟩

theorem Mapped.linked (hMapped : Mapped d va pa perm d') (hLinked : d.table.Linked) :
    d'.table.Linked := by
  refine hLinked.of_reached hMapped.branch fun vpn e hLookup => ?_
  rw [hMapped.pte] at hLookup
  by_cases hVpn : vpn = va / PGSIZE
  · right
    rw [hVpn, Nat.div_mul_cancel (Nat.dvd_of_mod_eq_zero hMapped.aligned)]
    exact hMapped.walk
  · exact .inl ((AList.lookup_insert_ne hVpn).symm.trans hLookup)

end Draft

-- Mapping Pages

theorem run_map (pid va pa : Nat) (perm : PtePerm) (hHas : s.Has root d) :
    ∃ s', Prog.run (exec pid) (map root va pa perm) s = .ok (d.put va pa perm).1 s' ∧
      s'.Has root (d.put va pa perm).2 ∧ State.Leaves root s s' := by
  unfold map Draft.put
  by_cases hAlign : va % PGSIZE ≠ 0 ∨ pa % PGSIZE ≠ 0
  · rw [if_pos hAlign, if_pos hAlign]
    exact ⟨s, rfl, hHas, .refl root s⟩
  rw [if_neg hAlign, if_neg hAlign]
  by_cases hRange : pageEnd va > MAXVA
  · rw [if_pos hRange, if_pos hRange]
    exact ⟨s, rfl, hHas, .refl root s⟩
  rw [if_neg hRange, if_neg hRange]
  rcases run_walk pid va hHas with ⟨s₁, hRun₁, hHas₁, hLeaves₁⟩
  rw [Prog.run_then hRun₁]
  by_cases hReach : (d.reach va).1 = true
  · rw [if_pos hReach, if_pos hReach]
    simp only [Prog.bind_eq, Prog.lift_bind, Prog.run_op, exec,
      State.readTable, hHas₁.table, Outcome.andThen_ok]
    cases (d.reach va).2.table.pte.lookup (va / PGSIZE) with
    | some e => exact ⟨s₁, rfl, hHas₁, hLeaves₁⟩
    | none =>
      have hTables : (d.reach va).2.table.HasTables (va / PGSIZE * PGSIZE) := by
        rw [Nat.div_mul_cancel (Nat.dvd_of_mod_eq_zero (by omega))]
        exact Draft.reach_branches hReach
      simp only [Prog.run_op, exec, State.onTable, hHas₁.table, Option.any_some,
        decide_eq_true hTables, if_true, Outcome.andThen_ok]
      refine ⟨_, rfl, ⟨hHas₁.free, ?_⟩, ?_⟩
      · exact AList.lookup_insert _
      · refine hLeaves₁.trans ⟨fun _ hr => ?_, rfl, rfl, rfl, rfl⟩
        exact AList.lookup_insert_ne hr
  · rw [if_neg hReach, if_neg hReach]
    exact ⟨s₁, rfl, hHas₁, hLeaves₁⟩

theorem run_mapKernelPages (pid tf : Nat) (hHas : s.Has root d) :
    ∃ s', Prog.run (exec pid) (mapKernelPages root tf) s =
        .ok (d.putKernel s.trampolinePa tf).1 s' ∧ s'.Has root (d.putKernel s.trampolinePa tf).2 ∧
        State.Leaves root s s' := by
  unfold mapKernelPages Draft.putKernel
  rcases run_map pid TRAMPOLINE s.trampolinePa .RX hHas with ⟨s₁, hRun₁, hHas₁, hLeaves₁⟩
  have hTramp : Prog.run (exec pid) (Prog.lift .trampolinePa) s = .ok s.trampolinePa s := rfl
  rw [Prog.run_then hTramp, Prog.run_then hRun₁]
  cases hPut₁ : d.put TRAMPOLINE s.trampolinePa .RX with
  | mk r₁ d₁ =>
  rw [hPut₁] at hHas₁
  cases r₁ with
  | error e => exact ⟨s₁, rfl, hHas₁, hLeaves₁⟩
  | ok u =>
    rcases run_map pid TRAPFRAME tf .RW hHas₁ with ⟨s₂, hRun₂, hHas₂, hLeaves₂⟩
    dsimp only
    rw [Prog.run_then hRun₂]
    cases hPut₂ : d₁.put TRAPFRAME tf .RW with
    | mk r₂ d₂ =>
    rw [hPut₂] at hHas₂
    cases r₂ with
    | error e | ok u => exact ⟨s₂, rfl, hHas₂, hLeaves₁.trans hLeaves₂⟩

end Vm

end PlayXv6
