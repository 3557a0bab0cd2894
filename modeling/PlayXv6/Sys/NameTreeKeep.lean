import PlayXv6.Sys.NameTreeInv

/-
  What the changes to the tree of names keep.

  A step is made of a few changes: a call goes on, a link
  count is raised or lowered, an entry is added or removed, an
  inode is allocated or freed.  Each keeps the invariant if
  the counts leave room for it.

  Main declarations:
    * `Inv.setPhase`, `Inv.setNlink`, `Inv.dirunlink`
-/

namespace PlayXv6

open Function

namespace NameTree

variable {s s' : Sys} {i c d t : Nat} {n : Name} {p : Phase}

/- Tree, processes and names are as before. -/
theorem SameTree.load_eq (hSame : SameTree s s') (hOwed : s'.owed i = s.owed i) :
    s'.load i = s.load i := by
  unfold Sys.load
  rw [names_congr hSame.links, hOwed, subdirs_congr hSame.links fun _ j _ => hSame.isDir j]

/- One call goes on and the others are where they were. -/
theorem phaseOk_setPhase (hPhase : ∀ u, u < s.nproc → PhaseOk s (s.phase u)) (hOk : PhaseOk s p)
    (u : Nat) (hu : u < s.nproc) : PhaseOk (s.setPhase t p) ((s.setPhase t p).phase u) := by
  have hSame := sameTree_setPhase s t p
  by_cases hut : u = t
  · subst hut
    have hSelf : (s.setPhase u p).phase u = p := update_self ..
    rw [hSelf]
    exact hSame.phaseOk hOk
  · have hOther : (s.setPhase t p).phase u = s.phase u := update_of_ne hut ..
    rw [hOther]
    exact hSame.phaseOk (hPhase u hu)

theorem Inv.setPhase (hInv : Inv s) (ht : t < s.nproc) (hOk : PhaseOk s p)
    (hCuts : ∀ i, p.cuts i = (s.phase t).cuts i) (hRoom : ∀ i x, s.inodes i = some x →
      s.load i + p.owes i ≤ x.nlink.toNat + s.cutting i + (s.phase t).owes i) :
    Inv (s.setPhase t p) := by
  have hSame := sameTree_setPhase s t p
  have hCutting : ∀ i, (s.setPhase t p).cutting i = s.cutting i := by
    intro i
    have hSum := cutting_setPhase (s := s) (p := p) (i := i) ht
    rw [hCuts i] at hSum
    omega
  refine ⟨hSame.shape hInv.shape, fun u hu => hSame.good (hInv.cwd u hu),
    phaseOk_setPhase hInv.phase hOk, ?_, ?_⟩
  · intro i x hx
    have hSum := owed_setPhase (s := s) (p := p) (i := i) ht
    have hOld := hRoom i x hx
    rw [hCutting i]
    unfold Sys.load at hOld ⊢
    rw [names_congr hSame.links, subdirs_congr hSame.links fun _ j _ => hSame.isDir j]
    omega
  · intro i hMade
    rw [hCutting i, names_congr hSame.links]
    exact hInv.made i hMade

/- The call owes no more than before. -/
theorem Inv.turn (hInv : Inv s) (ht : t < s.nproc) (hOk : PhaseOk s p)
    (hCuts : ∀ i, p.cuts i = (s.phase t).cuts i) (hOwes : ∀ i, p.owes i ≤ (s.phase t).owes i) :
    Inv (s.setPhase t p) := by
  refine hInv.setPhase ht hOk hCuts ?_
  intro i x hx
  have hOld := hInv.count i x hx
  have hLess := hOwes i
  omega

/- How much is left when the call owes less. -/
theorem load_setPhase (ht : t < s.nproc) : (s.setPhase t p).load i + (s.phase t).owes i =
      s.load i + p.owes i := by
  have hSame := sameTree_setPhase s t p
  have hSum := owed_setPhase (s := s) (p := p) (i := i) ht
  unfold Sys.load
  rw [names_congr hSame.links, subdirs_congr hSame.links fun _ j _ => hSame.isDir j]
  omega

-- Link Counts

theorem Inv.ofSameTree (hInv : Inv s) (hSame : SameTree s s') (hNproc : s'.nproc = s.nproc)
    (hPhase : s'.phase = s.phase) (hCwd : s'.cwd = s.cwd)
    (hMade : ∀ i, s'.made i = true → s.made i = true) (hCount : ∀ i x, s'.inodes i = some x →
      s.load i ≤ x.nlink.toNat + s.cutting i) : Inv s' := by
  have hOwed : ∀ i, s'.owed i = s.owed i := by
    intro i
    unfold Sys.owed
    rw [hNproc, hPhase]
  have hCutting : ∀ i, s'.cutting i = s.cutting i := by
    intro i
    unfold Sys.cutting
    rw [hNproc, hPhase]
  refine ⟨hSame.shape hInv.shape, ?_, ?_, ?_, ?_⟩
  · intro u hu
    rw [hCwd]
    exact hSame.good (hInv.cwd u (hNproc ▸ hu))
  · intro u hu
    rw [hPhase]
    exact hSame.phaseOk (hInv.phase u (hNproc ▸ hu))
  · intro i x hx
    rw [hSame.load_eq (hOwed i), hCutting i]
    exact hCount i x hx
  · intro i hi
    rw [hCutting i, names_congr hSame.links]
    exact hInv.made i (hMade i hi)

theorem exists_of_setNlink {f : UInt16 → UInt16} {x : Node}
    (hx : (s.setNlink c f).inodes i = some x) : ∃ y, s.inodes i = some y ∧
      x.nlink = if i = c then f y.nlink else y.nlink := by
  rw [inodes_setNlink] at hx
  split at hx
  · rename_i hi
    subst hi
    rcases Option.map_eq_some_iff.mp hx with ⟨y, hy, rfl⟩
    exact ⟨y, hy, (if_pos rfl).symm⟩
  · rename_i hi
    exact ⟨x, hx, (if_neg hi).symm⟩

theorem Inv.setNlink (hInv : Inv s) {f : UInt16 → UInt16}
    (hf : ∀ m : UInt16, m.toNat ≤ (f m).toNat + 1) (hRoom : ∀ x, s.inodes c = some x →
      s.load c + 1 ≤ x.nlink.toNat + s.cutting c) : Inv (s.setNlink c f) := by
  refine hInv.ofSameTree (sameTree_setNlink s c f) rfl rfl rfl (fun _ h => h) ?_
  intro i x hx
  rcases exists_of_setNlink hx with ⟨y, hy, hNlink⟩
  have hOld := hInv.count i y hy
  split at hNlink
  · rename_i hi
    subst hi
    have hMore := hRoom y hy
    have hLow := hf y.nlink
    rw [hNlink]
    omega
  · rw [hNlink]
    exact hOld

theorem toNat_le_sub_one (m : UInt16) : m.toNat ≤ (m - 1).toNat + 1 := by
  have hLt := m.toNat_lt
  rw [UInt16.toNat_sub]
  simp only [UInt16.toNat_one]
  omega

theorem toNat_le_saturating (m : UInt16) : m.toNat ≤ (if m = 0 then 0 else m - 1).toNat + 1 := by
  split
  · rename_i hm
    subst hm
    exact Nat.zero_le _
  · exact toNat_le_sub_one m

theorem toNat_add_one {m : UInt16} (hm : m ≠ 65535) : (m + 1).toNat = m.toNat + 1 := by
  have hLt := m.toNat_lt
  have hNe : m.toNat ≠ 65535 := by
    intro hEq
    exact hm (UInt16.toNat_inj.mp hEq)
  rw [UInt16.toNat_add]
  simp only [UInt16.toNat_one]
  omega

/- A count that does not overflow is raised. -/
theorem Inv.addLink (hInv : Inv s) (hMax : ∀ x, s.inodes c = some x → x.nlink ≠ 65535) :
    Inv (s.addLink c) ∧ ∀ x, (s.addLink c).inodes c = some x → (s.addLink c).load c + 1 ≤
          x.nlink.toNat + (s.addLink c).cutting c := by
  have hSame := sameTree_setNlink s c fun m => m + 1
  constructor
  · refine hInv.ofSameTree hSame rfl rfl rfl (fun _ h => h) ?_
    intro i x hx
    rcases exists_of_setNlink hx with ⟨y, hy, hNlink⟩
    have hOld := hInv.count i y hy
    split at hNlink
    · rename_i hi
      subst hi
      rw [hNlink, toNat_add_one (hMax y hy)]
      omega
    · rw [hNlink]
      exact hOld
  · intro x hx
    rcases exists_of_setNlink hx with ⟨y, hy, hNlink⟩
    have hOld := hInv.count c y hy
    rw [if_pos rfl] at hNlink
    have hLoad : (s.addLink c).load c = s.load c := hSame.load_eq rfl
    have hCutting : (s.addLink c).cutting c = s.cutting c :=
      rfl
    rw [hNlink, toNat_add_one (hMax y hy), hLoad, hCutting]
    omega

-- Entries

theorem load_withLink (hNew : s.links.lookup (d, n) = none) :
    (s.withLink (d, n) c).load i = s.load i + (if c = i then 1 else 0) +
        if d = i ∧ s.isDir c = true then 1 else 0 := by
  have hOwed : (s.withLink (d, n) c).owed i = s.owed i := rfl
  unfold Sys.load
  rw [names_withLink hNew, subdirs_withLink hNew, hOwed]
  dsimp only
  omega

theorem Inv.withLink (hInv : Inv s) (hDir : s.isDir d = true) (hReach : s.Reachable d)
    (hNew : s.links.lookup (d, n) = none) (hAlloc : s.inodes c ≠ none)
    (hUp : s.isDir c = true → s.upOf c = some d) (hNe : c ≠ d) (hRoom : ∀ x, s.inodes c = some x →
      s.load c + 1 ≤ x.nlink.toNat + s.cutting c) (hRoomDir : s.isDir c = true → ∀ x,
      s.inodes d = some x → s.load d + 1 ≤ x.nlink.toNat + s.cutting d) :
    Inv (s.withLink (d, n) c) := by
  refine ⟨hInv.shape.link hDir hReach hNew hAlloc hUp, fun u hu => (hInv.cwd u hu).withLink hNew,
    fun u hu => (hInv.phase u hu).withLink hNew, ?_, ?_⟩
  · intro i x hx
    have hCutting : (s.withLink (d, n) c).cutting i = s.cutting i := rfl
    have hOld := hInv.count i x hx
    rw [load_withLink hNew, hCutting]
    by_cases hc : c = i
    · subst hc
      have hd : ¬ (d = c ∧ s.isDir c = true) := fun h => hNe h.1.symm
      have hMore := hRoom x hx
      rw [if_pos rfl, if_neg hd]
      omega
    · rw [if_neg hc]
      split
      · rename_i hd
        rcases hd with ⟨rfl, hSub⟩
        have hMore := hRoomDir hSub x hx
        omega
      · omega
  · intro i hi
    have hOld : s.cutting i < s.names i := hInv.made i hi
    have hCutting : (s.withLink (d, n) c).cutting i = s.cutting i := rfl
    rw [names_withLink hNew, hCutting]
    omega

theorem load_dirunlink (hLink : s.links.lookup (d, entryName n) = some c) :
    (s.dirunlink d n).load i + (if c = i then 1 else 0) +
        (if d = i ∧ s.isDir c = true then 1 else 0) = s.load i := by
  have hOwed : (s.dirunlink d n).owed i = s.owed i := rfl
  have hNames := names_dirunlink (i := i) hLink
  have hSubs := subdirs_dirunlink (i := i) hLink
  unfold Sys.load
  rw [hOwed]
  omega

theorem Inv.dirunlink (hInv : Inv s) (hLink : s.links.lookup (d, entryName n) = some c)
    (hEmpty : ∀ m, s.links.lookup (c, m) = none) (hFree : s.isDir c = true → s.held c = false)
    (hMade : s.made c = false) : Inv (s.dirunlink d n) := by
  refine ⟨hInv.shape.unlink hLink hEmpty, ?_, ?_, ?_, ?_⟩
  · intro u hu
    refine (hInv.cwd u hu).dirunlink hLink hEmpty ?_
    intro hDir
    exact (held_eq_false.mp (hFree hDir) u hu).1
  · intro u hu
    refine (hInv.phase u hu).dirunlink hLink hEmpty ?_
    intro hDir
    exact (held_eq_false.mp (hFree hDir) u hu).2
  · intro i x hx
    have hLoad := load_dirunlink (i := i) hLink
    have hOld : s.load i ≤ x.nlink.toNat + s.cutting i := hInv.count i x hx
    show (s.dirunlink d n).load i ≤ x.nlink.toNat + s.cutting i
    omega
  · intro i hi
    have hNe : c ≠ i := by
      rintro rfl
      have hi' : s.made c = true := hi
      rw [hMade] at hi'
      cases hi'
    have hNames := names_dirunlink (i := i) hLink
    rw [if_neg hNe, Nat.add_zero] at hNames
    rw [hNames]
    exact hInv.made i hi

theorem Inv.setMade (hInv : Inv s) {b : Bool} (hNamed : b = true → s.cutting i < s.names i) :
    Inv (s.setMade i b) := by
  have hSame := sameTree_setMade s i b
  refine ⟨hSame.shape hInv.shape, fun u hu => hSame.good (hInv.cwd u hu),
    fun u hu => hSame.phaseOk (hInv.phase u hu), hInv.count, ?_⟩
  intro j hj
  by_cases hi : j = i
  · subst hi
    have hb : b = true := by
      have hj' : update s.made j b j = true := hj
      rwa [update_self] at hj'
    exact hNamed hb
  · have hj' : update s.made i b j = true := hj
    rw [update_of_ne hi] at hj'
    exact hInv.made j hj'

-- Inodes

theorem Sys.Reachable.cases_root (hReach : s.Reachable i) :
    i = ROOTINO ∨ ∃ k, s.links.lookup k = some i := by
  cases hReach with
  | root => exact Or.inl rfl
  | entry _ hLink => exact Or.inr ⟨_, hLink⟩

/- A directory without a name has no entries. -/
theorem Shape.empty_of_unnamed (hShape : Shape s) (hRoot : c ≠ ROOTINO)
    (hNamed : ∀ k, s.links.lookup k ≠ some c) (m : Name) : s.links.lookup (c, m) = none := by
  by_contra hSome
  rcases Option.ne_none_iff_exists'.mp hSome with ⟨j, hj⟩
  rcases (hShape.entry c m j hj).2.1.cases_root with hEq | ⟨k, hk⟩
  · exact hRoot hEq
  · exact hNamed k hk

theorem names_of_unnamed (hNamed : ∀ k, s.links.lookup k ≠ some c) : s.names c = 0 := by
  have hZero : s.names c = s.links.total fun _ _ => 0 := by
    unfold Sys.names
    apply AList.total_congr
    intro k j hLink
    apply if_neg
    rintro rfl
    exact hNamed k hLink
  rw [hZero]
  unfold AList.total
  simp

/- An inode that nobody uses carries no load. -/
theorem load_of_unused (hShape : Shape s) (hRoot : c ≠ ROOTINO)
    (hNamed : ∀ k, s.links.lookup k ≠ some c) (hHeld : s.held c = false) :
    s.load c = 0 ∧ s.cutting c = 0 := by
  have hFiles : ∀ t, t < s.nproc → c ∉ (s.phase t).files :=
    fun t ht hc => (held_eq_false.mp hHeld t ht).2 ((s.phase t).files_subset hc)
  refine ⟨?_, cutting_eq_zero hFiles⟩
  unfold Sys.load
  rw [names_of_unnamed hNamed, owed_eq_zero hFiles, subdirs_of_empty
      (hShape.empty_of_unnamed hRoot hNamed), if_neg hRoot]

theorem Inv.setNode (hInv : Inv s) {x : Option Node} (hRoot : c ≠ ROOTINO)
    (hSmall : x ≠ none → c < 2 ^ 16) (hNamed : ∀ k, s.links.lookup k ≠ some c)
    (hHeld : s.held c = false) : Inv (s.setNode c x) := by
  have hEmpty := hInv.shape.empty_of_unnamed hRoot hNamed
  have hNot := held_eq_false.mp hHeld
  have hSubs : ∀ i, (s.setNode c x).subdirs i = s.subdirs i := by
    intro i
    refine subdirs_congr (s := s) rfl ?_
    intro k j hLink
    refine (setNode_of_ne ?_).1
    rintro rfl
    exact hNamed k hLink
  have hLoad : ∀ i, (s.setNode c x).load i = s.load i := by
    intro i
    unfold Sys.load
    rw [hSubs i]
    rfl
  refine ⟨hInv.shape.setNode hRoot hSmall hNamed hEmpty,
    fun u hu => (hInv.cwd u hu).setNode (hNot u hu).1,
    fun u hu => (hInv.phase u hu).setNode (hNot u hu).2, ?_, hInv.made⟩
  intro i y hy
  rw [hLoad i]
  by_cases hi : i = c
  · subst hi
    rw [(load_of_unused hInv.shape hRoot hNamed hHeld).1]
    exact Nat.zero_le _
  · rw [(setNode_of_ne hi).2.2] at hy
    exact hInv.count i y hy

theorem Inv.freeUnused (hInv : Inv s) (c : Nat) : Inv (s.freeUnused c) := by
  unfold Sys.freeUnused
  split
  · rename_i hFree
    rcases hFree with ⟨hZero, hHeld⟩
    have hHeld' : s.held c = false := by simpa using hHeld
    rcases Option.any_eq_true _ _ |>.mp hZero with ⟨x, hx, hNlink⟩
    have hFiles : ∀ t, t < s.nproc → c ∉ (s.phase t).files :=
      fun t ht hc => (held_eq_false.mp hHeld' t ht).2 ((s.phase t).files_subset hc)
    have hCount := hInv.count c x hx
    have hNlink' : x.nlink.toNat = 0 := by
      have hEq : x.nlink = 0 := by simpa using hNlink
      rw [hEq]
      rfl
    rw [cutting_eq_zero hFiles, hNlink'] at hCount
    unfold Sys.load at hCount
    refine hInv.setNode ?_ (fun h => absurd rfl h) ?_ hHeld'
    · intro hRoot
      rw [if_pos hRoot] at hCount
      omega
    · intro k hk
      have hPos := names_pos hk
      omega
  · exact hInv

end NameTree

end PlayXv6
