import PlayXv6.Vm.Draft
import PlayXv6.Vm.Exclusive

/-
  A page table as the partial function from pages to entries
  that it denotes, and what the loops over pages do to it.

  Main declarations:
    * `PageMap`
    * `run_unmapRange`, `run_growRange`
-/

namespace PlayXv6

open Function

namespace Vm

abbrev PageMap : Type := Nat → Option Pte

namespace PageMap

variable {f : PageMap} {p n x : Nat}

/- Without the leaves among the `n` pages from `p` on. -/
def clear (f : PageMap) (p n : Nat) : PageMap := fun x =>
  if p ≤ x ∧ x < p + n ∧ (f x).any Pte.isLeaf then none else f x

/- The frame of a page that is a leaf. -/
def leaf (f : PageMap) (x : Nat) : Option Nat := ((f x).filter Pte.isLeaf).map Pte.pa

/- The frames of the leaves among these pages. -/
def leaves (f : PageMap) (p n : Nat) : List Nat := (List.range' p n).filterMap f.leaf

@[simp] theorem clear_zero (f : PageMap) (p : Nat) : f.clear p 0 = f := by
  funext x
  unfold clear
  rw [if_neg (by omega)]

theorem clear_of_not_mem (hOut : x < p ∨ p + n ≤ x) : f.clear p n x = f x := by
  unfold clear
  rw [if_neg (by omega)]

theorem clear_one_of_not_leaf (hNone : f.leaf p = none) : f.clear p 1 = f := by
  funext x
  unfold clear
  split
  · rename_i hx
    rcases Option.any_eq_true _ _ |>.mp hx.2.2 with ⟨e, he, hLeaf⟩
    rw [show x = p by omega] at he
    simp [leaf, he, hLeaf] at hNone
  · rfl

theorem clear_succ (f : PageMap) (p n : Nat) :
    (f.clear p 1).clear (p + 1) n = f.clear p (n + 1) := by
  funext x
  by_cases hx : x = p
  · rw [clear_of_not_mem (Or.inl (by omega)), hx]
    unfold clear
    simp
  · have hOne : f.clear p 1 x = f x := clear_of_not_mem (by omega)
    unfold clear at hOne ⊢
    rw [hOne]
    refine if_congr ?_ rfl rfl
    grind

theorem leaves_succ (f : PageMap) (p n : Nat) :
    f.leaves p (n + 1) = (f.leaf p).toList ++ (f.clear p 1).leaves (p + 1) n := by
  have hRest : (f.clear p 1).leaves (p + 1) n = f.leaves (p + 1) n := by
    refine List.filterMap_congr fun x hx => ?_
    have hLt : p < x := (List.mem_range'_1.mp hx).1
    unfold leaf
    rw [clear_of_not_mem (Or.inr hLt)]
  rw [hRest]
  unfold leaves
  rw [List.range'_succ, List.filterMap_cons]
  cases f.leaf p with
  | none | some pa => rfl

end PageMap

/- The table at `root` denotes `f`. -/
def State.Maps (s : State) (root : Nat) (f : PageMap) : Prop :=
  ∃ pt, s.tables.lookup root = some pt ∧ pt.Linked ∧ ∀ p, pt.pte.lookup p = f p

variable {root : Nat} {s s' : State} {pt pt' : PageTable} {f : PageMap}

theorem PageTable.Linked.entryAt_page (hLinked : pt.Linked) (p : Nat) :
    pt.entryAt (p * PGSIZE) = pt.pte.lookup p := by
  rw [hLinked.entryAt_eq]
  congr 1
  exact Nat.mul_div_cancel p (by decide)

theorem run_look (pid va : Nat) (hTable : s.tables.lookup root = some pt) :
    Prog.run (exec pid) (walk root va false) s = .ok (decide (pt.HasTables va)) s := by
  unfold walk walkLevel
  by_cases hMax : va ≥ MAXVA
  · rw [if_pos hMax, decide_eq_false (fun hAll => absurd hAll.1 (Nat.not_lt.mpr hMax))]
    rfl
  · rw [if_neg hMax]
    simp only [Prog.bind_eq, Prog.lift_bind, Prog.op_bind, Prog.run_op, exec,
      State.readTable, hTable, Outcome.andThen_ok, PageTable.HasTables]
    cases (pt.branch.lookup (2, levelIndex va 2)).isSome with
    | false => simp [Prog.run_ret, Prog.pure_eq]
    | true =>
      simp only [if_true, Prog.pure_eq, Prog.ret_bind, Prog.run_op, exec,
        State.readTable, hTable, Outcome.andThen_ok]
      cases (pt.branch.lookup (1, levelIndex va 1)).isSome with
      | false => simp
      | true => simp [Nat.not_le.mp hMax]

theorem PageTable.Linked.takeLeaf_maps (hLinked : pt.Linked) (hPte : ∀ x, pt.pte.lookup x = f x)
    (p : Nat) :
    (pt.takeLeaf p).1 = f.leaf p ∧ (pt.takeLeaf p).2.Linked ∧
      ∀ x, (pt.takeLeaf p).2.pte.lookup x = f.clear p 1 x := by
  have hStay : f.leaf p = none → none = f.leaf p ∧ pt.Linked ∧
      ∀ x, pt.pte.lookup x = f.clear p 1 x := by
    intro hNone
    rw [PageMap.clear_one_of_not_leaf hNone]
    exact ⟨hNone.symm, hLinked, hPte⟩
  unfold PageTable.takeLeaf
  cases hp : f p with
  | none =>
    rw [hPte, hp]
    exact hStay (by simp [PageMap.leaf, hp])
  | some e =>
    rw [hPte, hp]
    dsimp only
    by_cases hLeaf : e.isLeaf = true
    · rw [if_pos hLeaf]
      refine ⟨by simp [PageMap.leaf, hp, hLeaf], ?_, ?_⟩
      · refine hLinked.of_reached (fun _ h => h) fun x e' hx => .inl ?_
        by_cases hEq : x = p
        · rw [hEq, AList.lookup_erase] at hx
          simp at hx
        · rw [AList.lookup_erase_ne hEq] at hx
          exact hx
      · intro x
        by_cases hEq : x = p
        · rw [hEq, AList.lookup_erase]
          simp [PageMap.clear, hp, hLeaf]
        · rw [AList.lookup_erase_ne hEq, hPte, PageMap.clear_of_not_mem (by omega)]
    · rw [if_neg hLeaf]
      exact hStay (by simp [PageMap.leaf, hp, hLeaf])

-- Tables of Reached States

/- Every entry of every table can be reached. -/
def State.Linked (s : State) : Prop := ∀ root pt, s.tables.lookup root = some pt → pt.Linked

theorem State.Linked.insert (hAll : s.Linked) (hLinked : pt.Linked) :
    State.Linked { s with tables := s.tables.insert root pt } := by
  intro r pt' hLookup
  dsimp only at hLookup
  by_cases hr : r = root
  · rw [hr, AList.lookup_insert] at hLookup
    cases hLookup
    exact hLinked
  · rw [AList.lookup_insert_ne hr] at hLookup
    exact hAll r pt' hLookup

theorem State.Linked.onTable {β : Type} {g : PageTable → β × PageTable} {b : β} (hAll : s.Linked)
    (hKeep : ∀ pt, s.tables.lookup root = some pt → pt.Linked → (g pt).2.Linked)
    (hExec : s.onTable root g = .ok b s') : s'.Linked := by
  unfold State.onTable at hExec
  split at hExec
  · cases hExec
  · rename_i pt hTable
    cases hExec
    exact hAll.insert (hKeep pt hTable (hAll root pt hTable))

/- An entry that is written where a walk has been can be reached. -/
theorem PageTable.Linked.setPte {vpn : Nat} (e : Pte) (hLinked : pt.Linked)
    (hTables : pt.HasTables (vpn * PGSIZE)) :
    PageTable.Linked { pt with pte := pt.pte.insert vpn e } := by
  refine hLinked.of_reached (fun _ h => h) fun p e' hLookup => ?_
  by_cases hp : p = vpn
  · right
    rw [hp]
    exact hTables
  · exact .inl ((AList.lookup_insert_ne hp).symm.trans hLookup)

theorem exec_linked {β : Type} {pid : Nat} (c : Cmd β) {b : β} (hAll : s.Linked)
    (hExec : exec pid c s = .ok b s') : s'.Linked := by
  cases c with
  | newTable pa =>
    cases hExec
    exact hAll.insert PageTable.linked_zeroed
  | linkBranch root level idx pa =>
    refine hAll.onTable (fun pt _ hLinked => ?_) hExec
    refine hLinked.of_reached (fun key hSome => ?_) fun _ _ h => .inl h
    by_cases hKey : key = (level, idx)
    · rw [hKey, AList.lookup_insert]
      rfl
    · rw [AList.lookup_insert_ne hKey]
      exact hSome
  | setPte root vpn e =>
    simp only [exec] at hExec
    split at hExec
    · rename_i hTables
      refine hAll.onTable (fun pt hTable hLinked => hLinked.setPte e ?_) hExec
      rw [hTable] at hTables
      exact of_decide_eq_true hTables
    · cases hExec
  | takeLeaf root vpn =>
    exact hAll.onTable (fun pt _ hLinked => (hLinked.takeLeaf_maps (fun _ => rfl) vpn).2.1) hExec
  | dropTable root =>
    simp only [exec] at hExec
    split at hExec
    · cases hExec
    · cases hExec
      intro r pt hLookup
      by_cases hr : r = root
      · rw [hr, AList.lookup_erase] at hLookup
        cases hLookup
      · exact hAll r pt ((AList.lookup_erase_ne hr).symm.trans hLookup)
  | allocZeroed | hasBranch root level idx | pteAt root vpn | proc | rootPa | swapTable root
  | setSize size | setVmas vmas | setMmapBase base | setZombie =>
    simp only [exec, State.readTable, State.onProc] at hExec
    split at hExec <;> cases hExec <;> exact hAll
  | free pa | fill c | trampolinePa | liveProcs | withLayout root tf size =>
    cases hExec
    exact hAll
  | panic => cases hExec

theorem run_linked {α : Type} {pid : Nat} {p : VmProg α} {a : α} (hAll : s.Linked)
    (hRun : Prog.run (exec pid) p s = .ok a s') : s'.Linked := by
  induction p generalizing s with
  | ret b =>
    cases hRun
    exact hAll
  | op c k ih =>
    rcases Outcome.of_andThen_ok hRun with ⟨b, s₁, hExec, hRun⟩
    exact ih b (exec_linked c hAll hExec) hRun

/- Whatever processes have done, every table is linked. -/
theorem linked_of_reach {Ok : Config → TaskSystem.Act Call Nat → Prop} {free kernel : List Nat}
    {tramp : Nat} {c : Config} (hReach : Machine.Reach vmSystem.step Ok
      (bootConfig free kernel tramp) c) : c.state.Linked := by
  refine TaskSystem.state_invariant (fun c _ _ _ _ => exec_linked c) ?_ hReach ?_
  · intro pid s s' hAll hReap
    simp only [vmSystem, State.reap] at hReap
    split at hReap
    · cases hReap
    · rcases Option.ite_none_right_eq_some.mp hReap with ⟨-, ⟨⟩⟩
      exact hAll
  · intro root pt hLookup
    simp [bootConfig, State.boot] at hLookup

theorem State.Linked.maps (hAll : s.Linked) (hTable : s.tables.lookup root = some pt) :
    s.Maps root fun p => pt.pte.lookup p := ⟨pt, hTable, hAll root pt hTable, fun _ => rfl⟩

/- The table of a process is there, and linked. -/
theorem table_of_reach {free kernel : List Nat} {tramp pid : Nat} {q : Proc} {c : Config}
    (hNodup : (free ++ kernel).Nodup) (hTramp : tramp ∈ kernel)
    (hReach : Reaches (fun _ => ImageBelow TRAPFRAME) (bootConfig free kernel tramp) c)
    (hProc : c.state.procs.lookup pid = some q) (hRoot : q.pagetable = some root) :
    ∃ pt, c.state.tables.lookup root = some pt ∧ pt.Linked := by
  have hVer := verified_of_reach confined_keeps hNodup hTramp hReach
  have hSome := (exclusive_of_verified hVer).tables pid q root hProc hRoot
  rcases Option.isSome_iff_exists.mp hSome with ⟨pt, hTable⟩
  exact ⟨pt, hTable, linked_of_reach hReach root pt hTable⟩

-- Loops over Pages

theorem run_unmapPage (pid p : Nat) (hMaps : s.Maps root f) :
    ∃ s', Prog.run (exec pid) (unmapPage root (p * PGSIZE)) s = .ok (f.leaf p) s' ∧
      s'.Maps root (f.clear p 1) ∧ s'.free = s.free ∧ State.Leaves root s s' := by
  rcases hMaps with ⟨pt, hTable, hLinked, hPte⟩
  have hEntry := hLinked.entryAt_page p
  -- a page that no walk reaches is not mapped
  have hNone : pt.entryAt (p * PGSIZE) = none →
      ∃ s', (.ok none s : Outcome Unit State (Option Nat)) = .ok (f.leaf p) s' ∧
        s'.Maps root (f.clear p 1) ∧ s'.free = s.free ∧ State.Leaves root s s' := by
    intro hNone
    have hLeaf : f.leaf p = none := by simp [PageMap.leaf, ← hPte, ← hEntry, hNone]
    rw [hLeaf, PageMap.clear_one_of_not_leaf hLeaf]
    exact ⟨s, rfl, ⟨pt, hTable, hLinked, hPte⟩, rfl, .refl root s⟩
  unfold unmapPage
  by_cases hMax : p * PGSIZE ≥ MAXVA
  · rw [if_pos (Or.inl hMax)]
    exact hNone (if_neg fun hAll => absurd hAll.1 (Nat.not_lt.mpr hMax))
  · rw [if_neg (by simp [hMax]), Prog.run_then (run_look pid _ hTable)]
    by_cases hWalk : pt.HasTables (p * PGSIZE)
    · rw [decide_eq_true hWalk, if_pos rfl, Nat.mul_div_cancel p (by decide)]
      rcases hLinked.takeLeaf_maps hPte p with ⟨hLeaf, hTaken⟩
      simp only [Prog.lift, Prog.run_op, exec, State.onTable, hTable, Outcome.andThen_ok, hLeaf]
      exact ⟨_, rfl, ⟨_, AList.lookup_insert _, hTaken⟩, rfl,
        ⟨fun _ hr => AList.lookup_insert_ne hr, rfl, rfl, rfl, rfl⟩⟩
    · rw [decide_eq_false hWalk]
      exact hNone (if_neg hWalk)

/- The loop unmaps and frees the leaves of its pages. -/
theorem run_unmapRange (pid p n : Nat) (hMaps : s.Maps root f) :
    ∃ s', Prog.run (exec pid) (unmapRange root (p * PGSIZE) n) s = .ok () s' ∧
      s'.Maps root (f.clear p n) ∧ s'.free = (f.leaves p n).reverse ++ s.free ∧
        State.Leaves root s s' := by
  induction n generalizing p s f with
  | zero => exact ⟨s, rfl, by rwa [PageMap.clear_zero], rfl, .refl root s⟩
  | succ n ih =>
    rcases run_unmapPage pid p hMaps with ⟨s₁, hRun₁, hMaps₁, hFree₁, hLeaves₁⟩
    unfold unmapRange
    rw [Prog.run_then hRun₁, show p * PGSIZE + PGSIZE = (p + 1) * PGSIZE from
      (Nat.succ_mul p PGSIZE).symm, PageMap.leaves_succ, ← PageMap.clear_succ]
    cases hLeaf : f.leaf p with
    | none =>
      rcases ih (p + 1) hMaps₁ with ⟨s₂, hRun₂, hMaps₂, hFree₂, hLeaves₂⟩
      refine ⟨s₂, hRun₂, hMaps₂, ?_, hLeaves₁.trans hLeaves₂⟩
      rw [hFree₂, hFree₁]
      rfl
    | some pa =>
      let s₁' : State := { s₁ with free := pa :: s₁.free }
      have hMaps₁' : s₁'.Maps root (f.clear p 1) := hMaps₁
      rcases ih (p + 1) hMaps₁' with ⟨s₂, hRun₂, hMaps₂, hFree₂, hLeaves₂⟩
      have hFreed : State.Leaves root s s₁' := hLeaves₁.trans (.setFree ..)
      refine ⟨s₂, hRun₂, hMaps₂, ?_, hFreed.trans hLeaves₂⟩
      rw [hFree₂, show s₁'.free = pa :: s.free by rw [← hFree₁]]
      simp

theorem Draft.put_error {d d' : Draft} {va pa : Nat} {perm : PtePerm} {e : VmError}
    (hPut : d.put va pa perm = (.error e, d')) : Grown d d' := by
  have hGrown := reach_grown d va
  unfold Draft.put at hPut
  repeat' split at hPut
  all_goals cases hPut
  · exact .refl d
  · exact .refl d
  · exact hGrown
  · exact hGrown

theorem run_mapPage (pid p pa : Nat) (perm : PtePerm) (hMaps : s.Maps root f) :
    ∃ r s', Prog.run (exec pid) (map root (p * PGSIZE) pa perm) s = .ok r s' ∧
      State.Leaves root s s' ∧ ((∃ e, r = .error e) ∧ s'.Maps root f ∨
        r = .ok () ∧ f p = none ∧ s'.Maps root (update f p (some ⟨pa, perm⟩))) := by
  rcases hMaps with ⟨pt, hTable, hLinked, hPte⟩
  have hHas : s.Has root ⟨s.free, pt⟩ := ⟨rfl, hTable⟩
  rcases run_map pid (p * PGSIZE) pa perm hHas with ⟨s', hRun, hHas', hLeaves⟩
  refine ⟨_, s', hRun, hLeaves, ?_⟩
  cases hPut : Draft.put ⟨s.free, pt⟩ (p * PGSIZE) pa perm with
  | mk r d =>
  rw [hPut] at hHas'
  cases r with
  | error e =>
    have hGrown := Draft.put_error hPut
    refine Or.inl ⟨⟨e, rfl⟩, d.table, hHas'.table, ?_, fun x => ?_⟩
    · exact hLinked.of_reached hGrown.branch fun x e hx => .inl (hGrown.pte ▸ hx)
    · rw [hGrown.pte]
      exact hPte x
  | ok u =>
    have hMapped := Draft.mapped_of_put hPut
    have hPage : p * PGSIZE / PGSIZE = p := Nat.mul_div_cancel p (by decide)
    refine Or.inr ⟨rfl, ?_, d.table, hHas'.table, hMapped.linked hLinked, fun x => ?_⟩
    · rw [← hPte, ← hPage]
      exact hMapped.vacant
    · rw [hMapped.pte, hPage]
      by_cases hx : x = p
      · rw [hx, AList.lookup_insert, update_self]
      · rw [AList.lookup_insert_ne hx, update_of_ne hx]
        exact hPte x

theorem pages_mul (a b : Nat) : pages (a * PGSIZE) (b * PGSIZE) = b - a := by
  simp only [pages, PGSIZE]
  omega

/-
  A grow that fails undoes what it did: without the pages it
  has mapped so far, the map is the one it began with.
-/
theorem run_growRange (pid start p n : Nat) (hStart : start ≤ p) {f₀ : PageMap}
    (hMaps : s.Maps root f) (hOld : f.clear start (p - start) = f₀) :
    ∃ b s' f', Prog.run (exec pid) (growRange root (start * PGSIZE) (p * PGSIZE) n) s = .ok b s' ∧
      s'.Maps root f' ∧ State.Leaves root s s' ∧ (b = false → f' = f₀) := by
  induction n generalizing p s f with
  | zero => exact ⟨true, s, f, rfl, hMaps, .refl root s, by simp⟩
  | succ n ih =>
    -- what a failure does from a state that still has the map
    have hUndo : ∀ s₁ : State, s₁.Maps root f → State.Leaves root s s₁ →
        ∃ b s' f', Prog.run (exec pid) (do
          unmapRange root (start * PGSIZE) (pages (start * PGSIZE) (p * PGSIZE))
          return false) s₁ = .ok b s' ∧ s'.Maps root f' ∧ State.Leaves root s s' ∧
            (b = false → f' = f₀) := by
      intro s₁ hMaps₁ hLeaves₁
      rw [pages_mul]
      rcases run_unmapRange pid start (p - start) hMaps₁ with ⟨s₂, hRun₂, hMaps₂, -, hLeaves₂⟩
      rw [Prog.run_then hRun₂]
      exact ⟨false, s₂, _, rfl, hMaps₂, hLeaves₁.trans hLeaves₂, fun _ => hOld⟩
    unfold growRange
    simp only [Prog.bind_eq, Prog.lift_bind, Prog.run_op, exec]
    cases hFree : s.free with
    | nil =>
      simp only [Outcome.andThen_ok]
      exact hUndo s hMaps (.refl root s)
    | cons pa rest =>
      simp only [Outcome.andThen_ok]
      have hTake := State.Leaves.setFree root s rest
      have hMaps₁ : State.Maps { s with free := rest } root f := hMaps
      rcases run_mapPage pid p pa .URW hMaps₁ with ⟨r, s₂, hRun₂, hLeaves₂, hCase⟩
      have hThen := hTake.trans hLeaves₂
      rw [← Prog.bind_eq, Prog.run_then hRun₂]
      rcases hCase with ⟨⟨e, rfl⟩, hMaps₂⟩ | ⟨rfl, hVacant, hMaps₂⟩
      · exact hUndo { s₂ with free := pa :: s₂.free } hMaps₂ (hThen.trans (.setFree ..))
      · have hNew : PageMap.clear (update f p (some ⟨pa, .URW⟩)) start (p + 1 - start) = f₀ := by
          rw [← hOld]
          funext x
          unfold PageMap.clear
          by_cases hx : x = p
          · rw [hx, update_self, if_pos ⟨hStart, by omega, rfl⟩, hVacant]
            simp
          · rw [update_of_ne hx]
            refine if_congr ?_ rfl rfl
            grind
        rcases ih (p + 1) (by omega) hMaps₂ hNew with ⟨b, s₃, f', hRun₃, hMaps₃, hLeaves₃, hFail⟩
        rw [show p * PGSIZE + PGSIZE = (p + 1) * PGSIZE from (Nat.succ_mul p PGSIZE).symm]
        exact ⟨b, s₃, f', hRun₃, hMaps₃, hThen.trans hLeaves₃, hFail⟩

end Vm

end PlayXv6
