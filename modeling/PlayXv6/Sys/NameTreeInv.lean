import PlayXv6.Sys.NameTree

/-
  What holds in the tree of names.

  The shape says that every entry is in a directory that is
  reachable itself, the balance that no inode has more names
  and subdirectories than its link count says.  A call may owe
  a name it has counted already, and a `rename` between its
  two changes has one name more than is counted.

  Main declarations:
    * `Shape`, `Good`
-/

namespace PlayXv6

open Function

variable {k : Nat × Name} {x : Option Node}

namespace NameTree

-- Shape

namespace Sys

/- What `..` names in directory `i`. -/
def upOf (s : Sys) (i : Nat) : Option Nat := (s.inodes i).map Node.up

end Sys

/- The part of the state that does not count anything. -/
structure Shape (s : Sys) : Prop where
  root : s.isDir ROOTINO = true ∧ s.upOf ROOTINO = some ROOTINO
  small : ∀ i, s.inodes i ≠ none → i < 2 ^ 16
  entry : ∀ d n i, s.links.lookup (d, n) = some i →
    s.isDir d = true ∧ s.Reachable d ∧ s.inodes i ≠ none ∧ (s.isDir i = true → s.upOf i = some d)

/- An inode that a call may have a reference to. -/
def Good (s : Sys) (i : Nat) : Prop := s.inodes i ≠ none ∧ (s.isDir i = true → s.Reachable i)

/- The same entries, and the same inodes up to link counts. -/
structure SameTree (s s' : Sys) : Prop where
  links : s'.links = s.links
  isDir : ∀ i, s'.isDir i = s.isDir i
  upOf : ∀ i, s'.upOf i = s.upOf i
  none : ∀ i, s'.inodes i = none ↔ s.inodes i = none

variable {s s' : Sys} {i c d : Nat} {n : Name}

theorem isDir_iff : s.isDir i = true ↔ ∃ x, s.inodes i = some x ∧ x.kind = .dir := by
  unfold Sys.isDir
  simp [Option.any_eq_true]

theorem Sys.Reachable.mono (hLinks : ∀ k j, s.links.lookup k = some j → s'.links.lookup k = some j)
    (hReach : s.Reachable i) : s'.Reachable i := by
  induction hReach with
  | root => exact .root
  | entry _ hLink ih => exact .entry ih (hLinks _ _ hLink)

theorem Sys.Reachable.of_links (hReach : s.Reachable i) (hLinks : s'.links = s.links) :
    s'.Reachable i := hReach.mono fun k j hLink => by rw [hLinks, hLink]

theorem SameTree.reachable (hSame : SameTree s s') (hReach : s.Reachable i) : s'.Reachable i :=
  hReach.of_links hSame.links

theorem SameTree.good (hSame : SameTree s s') (hGood : Good s i) : Good s' i := by
  constructor
  · rw [Ne, hSame.none]
    exact hGood.1
  · intro hDir
    rw [hSame.isDir] at hDir
    exact hSame.reachable (hGood.2 hDir)

theorem SameTree.shape (hSame : SameTree s s') (hShape : Shape s) : Shape s' := by
  refine ⟨?_, ?_, ?_⟩
  · rw [hSame.isDir, hSame.upOf]
    exact hShape.root
  · intro j hj
    rw [Ne, hSame.none] at hj
    exact hShape.small j hj
  · intro d n j hLink
    rw [hSame.links] at hLink
    rcases hShape.entry d n j hLink with ⟨hDir, hReach, hAlloc, hUp⟩
    rw [hSame.isDir, hSame.isDir, hSame.upOf, Ne, hSame.none]
    exact ⟨hDir, hSame.reachable hReach, hAlloc, hUp⟩

theorem sameTree_setPhase (s : Sys) (t : Nat) (p : Phase) : SameTree s (s.setPhase t p) :=
  ⟨rfl, fun _ => rfl, fun _ => rfl, fun _ => Iff.rfl⟩

theorem sameTree_setMade (s : Sys) (i : Nat) (b : Bool) : SameTree s (s.setMade i b) :=
  ⟨rfl, fun _ => rfl, fun _ => rfl, fun _ => Iff.rfl⟩

theorem inodes_setNlink (s : Sys) (i : Nat) (f : UInt16 → UInt16) (j : Nat) :
    (s.setNlink i f).inodes j = if j = i then (s.inodes i).map fun x =>
        { x with nlink := f x.nlink }
      else s.inodes j := by
  unfold Sys.setNlink Sys.setNode
  by_cases hj : j = i
  · simp [hj]
  · simp [hj]

theorem sameTree_setNlink (s : Sys) (i : Nat) (f : UInt16 → UInt16) :
    SameTree s (s.setNlink i f) := by
  refine ⟨rfl, ?_, ?_, ?_⟩
  · intro j
    unfold Sys.isDir
    rw [inodes_setNlink]
    split
    · rename_i hj
      subst hj
      cases s.inodes j <;> rfl
    · rfl
  · intro j
    unfold Sys.upOf
    rw [inodes_setNlink]
    split
    · rename_i hj
      subst hj
      cases s.inodes j <;> rfl
    · rfl
  · intro j
    rw [inodes_setNlink]
    split
    · rename_i hj
      subst hj
      exact Option.map_eq_none_iff
    · exact Iff.rfl

def Sys.withLink (s : Sys) (k : Nat × Name) (i : Nat) : Sys :=
  { s with links := s.links.insert k i }

theorem reachable_withLink (hNew : s.links.lookup k = none)
    (hReach : s.Reachable i) : (s.withLink k c).Reachable i := by
  refine hReach.mono ?_
  intro k' j hLink
  have hk : k' ≠ k := by
    rintro rfl
    rw [hNew] at hLink
    cases hLink
  show (s.links.insert k c).lookup k' = some j
  rw [AList.lookup_insert_ne hk]
  exact hLink

theorem Good.withLink (hNew : s.links.lookup k = none) (hGood : Good s i) :
    Good (s.withLink k c) i := ⟨hGood.1, fun hDir => reachable_withLink hNew (hGood.2 hDir)⟩

theorem Shape.link (hShape : Shape s) (hDir : s.isDir d = true) (hReach : s.Reachable d)
    (hNew : s.links.lookup (d, n) = none) (hAlloc : s.inodes c ≠ none)
    (hUp : s.isDir c = true → s.upOf c = some d) : Shape (s.withLink (d, n) c) := by
  refine ⟨hShape.root, hShape.small, ?_⟩
  intro d' n' j hLink
  by_cases hk : (d', n') = (d, n)
  · rcases Prod.mk.inj hk with ⟨rfl, rfl⟩
    have hj : c = j := by simpa [Sys.withLink, AList.lookup_insert] using hLink
    subst hj
    exact ⟨hDir, reachable_withLink hNew hReach, hAlloc, hUp⟩
  · have hOld : s.links.lookup (d', n') = some j := by
      have hLink' : (s.links.insert (d, n) c).lookup (d', n') = some j := hLink
      rw [AList.lookup_insert_ne hk] at hLink'
      exact hLink'
    rcases hShape.entry d' n' j hOld with ⟨hDir', hReach', hAlloc', hUp'⟩
    exact ⟨hDir', reachable_withLink hNew hReach', hAlloc', hUp'⟩

/- Directories other than an empty one stay reachable. -/
theorem reachable_dirunlink (hLink : s.links.lookup (d, entryName n) = some c)
    (hEmpty : ∀ m, s.links.lookup (c, m) = none) (hReach : s.Reachable i) (hNe : i ≠ c) :
    (s.dirunlink d n).Reachable i := by
  induction hReach with
  | root => exact .root
  | @entry d' j n' hDir hEntry ih =>
    have hd : d' ≠ c := by
      rintro rfl
      rw [hEmpty n'] at hEntry
      cases hEntry
    have hk : (d', n') ≠ (d, entryName n) := by
      intro hk
      rw [hk, hLink] at hEntry
      exact hNe (Option.some.inj hEntry).symm
    have hKept : (s.dirunlink d n).links.lookup (d', n') = some j := by
      show (s.links.erase (d, entryName n)).lookup (d', n') = some j
      rw [AList.lookup_erase_ne hk]
      exact hEntry
    exact .entry (ih hd) hKept

theorem Good.dirunlink (hLink : s.links.lookup (d, entryName n) = some c)
    (hEmpty : ∀ m, s.links.lookup (c, m) = none) (hGood : Good s i)
    (hNe : s.isDir c = true → i ≠ c) : Good (s.dirunlink d n) i := by
  refine ⟨hGood.1, ?_⟩
  intro hDir
  refine reachable_dirunlink hLink hEmpty (hGood.2 hDir) ?_
  rintro rfl
  exact hNe hDir rfl

theorem Shape.unlink (hShape : Shape s) (hLink : s.links.lookup (d, entryName n) = some c)
    (hEmpty : ∀ m, s.links.lookup (c, m) = none) : Shape (s.dirunlink d n) := by
  refine ⟨hShape.root, hShape.small, ?_⟩
  intro d' n' j hEntry
  have hk : (d', n') ≠ (d, entryName n) := by
    intro hk
    have hGone : (s.links.erase (d, entryName n)).lookup (d', n') = some j := hEntry
    rw [hk, AList.lookup_erase] at hGone
    cases hGone
  have hOld : s.links.lookup (d', n') = some j := by
    have hEntry' : (s.links.erase (d, entryName n)).lookup (d', n') = some j := hEntry
    rw [AList.lookup_erase_ne hk] at hEntry'
    exact hEntry'
  rcases hShape.entry d' n' j hOld with ⟨hDir, hReach, hAlloc, hUp⟩
  have hd : d' ≠ c := by
    rintro rfl
    rw [hEmpty n'] at hOld
    cases hOld
  exact ⟨hDir, reachable_dirunlink hLink hEmpty hReach hd, hAlloc, hUp⟩

theorem setNode_of_ne (hNe : i ≠ c) : (s.setNode c x).isDir i = s.isDir i ∧
      (s.setNode c x).upOf i = s.upOf i ∧ (s.setNode c x).inodes i = s.inodes i := by
  have hSame : (s.setNode c x).inodes i = s.inodes i := update_of_ne hNe _ _
  unfold Sys.isDir Sys.upOf
  rw [hSame]
  exact ⟨rfl, rfl, rfl⟩

theorem Good.setNode (hGood : Good s i) (hNe : i ≠ c) : Good (s.setNode c x) i := by
  rcases setNode_of_ne (s := s) (x := x) hNe with ⟨hDir, _, hSame⟩
  refine ⟨by rw [hSame]; exact hGood.1, ?_⟩
  intro hd
  rw [hDir] at hd
  exact (hGood.2 hd).of_links rfl

/- An inode without names may change as a whole. -/
theorem Shape.setNode (hShape : Shape s) (hRoot : c ≠ ROOTINO)
    (hSmall : x ≠ none → c < 2 ^ 16) (hNamed : ∀ k, s.links.lookup k ≠ some c)
    (hEmpty : ∀ m, s.links.lookup (c, m) = none) : Shape (s.setNode c x) := by
  refine ⟨?_, ?_, ?_⟩
  · rcases setNode_of_ne (s := s) (x := x) (Ne.symm hRoot) with ⟨hDir, hUp, _⟩
    rw [hDir, hUp]
    exact hShape.root
  · intro j hj
    by_cases hc : j = c
    · subst hc
      apply hSmall
      intro hx
      apply hj
      rw [hx]
      exact update_self ..
    · rw [(setNode_of_ne hc).2.2] at hj
      exact hShape.small j hj
  · intro d n j hLink
    rcases hShape.entry d n j hLink with ⟨hDir, hReach, hAlloc, hUp⟩
    have hj : j ≠ c := by
      rintro rfl
      exact hNamed _ hLink
    have hd : d ≠ c := by
      rintro rfl
      have hNone := hEmpty n
      have hLink' : s.links.lookup (d, n) = some j := hLink
      rw [hNone] at hLink'
      cases hLink'
    rcases setNode_of_ne (s := s) (x := x) hj with ⟨hDirJ, hUpJ, hSame⟩
    rw [(setNode_of_ne hd).1, hDirJ, hUpJ, hSame]
    exact ⟨hDir, hReach.of_links rfl, hAlloc, hUp⟩

-- Calls in Progress

/- The inodes of a call that are no directories. -/
def Goal.files : Goal → List Nat
  | linkNew ip => [ip]
  | renameOld src => [src]
  | renameNew src _ _ => [src]
  | _ => []

def Phase.files : Phase → List Nat
  | walk g _ => g.files
  | linkEntry ip _ _ => [ip]
  | linkUndo ip => [ip]
  | renameLook src _ _ _ _ => [src]
  | renameDrop src _ _ _ _ ex => [src, ex]
  | renameLower src _ _ _ _ ex => [src, ex]
  | renameLink src _ _ _ _ => [src]
  | renameCut src _ _ => [src]
  | _ => []

def Goal.dirs : Goal → List Nat
  | renameNew _ oldDir _ => [oldDir]
  | _ => []

def Phase.dirs : Phase → List Nat
  | walk g _ => g.dirs
  | create _ dir _ => [dir]
  | claim _ dir _ _ => [dir]
  | unlink dir _ => [dir]
  | linkEntry _ dir _ => [dir]
  | renameLook _ oldDir _ newDir _ => [oldDir, newDir]
  | renameDrop _ oldDir _ newDir _ _ => [oldDir, newDir]
  | renameLower _ oldDir _ newDir _ _ => [oldDir, newDir]
  | renameLink _ oldDir _ newDir _ => [oldDir, newDir]
  | renameCut _ oldDir _ => [oldDir]
  | _ => []

/- A name of inode `i` is counted but not yet entered. -/
def Phase.owes (i : Nat) : Phase → Nat
  | walk (.linkNew ip) _ => if ip = i then 1 else 0
  | linkEntry ip _ _ => if ip = i then 1 else 0
  | linkUndo ip => if ip = i then 1 else 0
  | renameLower _ _ _ _ _ ex => if ex = i then 1 else 0
  | _ => 0

/- A name of inode `i` is entered but will not be counted. -/
def Phase.cuts (i : Nat) : Phase → Nat
  | renameCut src _ _ => if src = i then 1 else 0
  | _ => 0

/- What a call has found is still there. -/
structure PhaseOk (s : Sys) (p : Phase) : Prop where
  holds : ∀ i ∈ p.holds, Good s i
  files : ∀ i ∈ p.files, s.isDir i = false
  dirs : ∀ i ∈ p.dirs, s.isDir i = true

variable {p : Phase}

theorem Phase.files_subset (p : Phase) : p.files ⊆ p.holds := by
  cases p with
  | walk g cur =>
    cases g <;> simp [Phase.files, Phase.holds, Goal.files, Goal.holds]
  | _ => simp [Phase.files, Phase.holds]

theorem Phase.dirs_subset (p : Phase) : p.dirs ⊆ p.holds := by
  cases p with
  | walk g cur =>
    cases g <;> simp [Phase.dirs, Phase.holds, Goal.dirs, Goal.holds]
  | _ => simp [Phase.dirs, Phase.holds]

theorem Phase.owes_eq_zero (hNot : i ∉ p.files) : p.owes i = 0 := by
  cases p with
  | walk g cur =>
    cases g with
    | linkNew ip =>
      simp only [Phase.files, Goal.files, List.mem_singleton] at hNot
      simp [Phase.owes, Ne.symm hNot]
    | _ => rfl
  | linkEntry ip dir name =>
    simp only [Phase.files, List.mem_singleton] at hNot
    simp [Phase.owes, Ne.symm hNot]
  | linkUndo ip =>
    simp only [Phase.files, List.mem_singleton] at hNot
    simp [Phase.owes, Ne.symm hNot]
  | renameLower src oldDir oldName newDir newName ex =>
    simp only [Phase.files, List.mem_cons, List.not_mem_nil, or_false, not_or] at hNot
    simp [Phase.owes, Ne.symm hNot.2]
  | _ => rfl

theorem Phase.cuts_eq_zero (hNot : i ∉ p.files) : p.cuts i = 0 := by
  cases p with
  | renameCut src oldDir oldName =>
    simp only [Phase.files, List.mem_singleton] at hNot
    simp [Phase.cuts, Ne.symm hNot]
  | _ => rfl

theorem PhaseOk.idle : PhaseOk s .idle := ⟨by simp [Phase.holds], by simp [Phase.files],
    by simp [Phase.dirs]⟩

theorem SameTree.phaseOk (hSame : SameTree s s') (hOk : PhaseOk s p) : PhaseOk s' p := by
  refine ⟨fun i hi => hSame.good (hOk.holds i hi), ?_, ?_⟩
  · intro i hi
    rw [hSame.isDir]
    exact hOk.files i hi
  · intro i hi
    rw [hSame.isDir]
    exact hOk.dirs i hi

theorem PhaseOk.withLink (hNew : s.links.lookup k = none) (hOk : PhaseOk s p) :
    PhaseOk (s.withLink k c) p := ⟨fun i hi => (hOk.holds i hi).withLink hNew, hOk.files, hOk.dirs⟩

theorem PhaseOk.dirunlink (hLink : s.links.lookup (d, entryName n) = some c)
    (hEmpty : ∀ m, s.links.lookup (c, m) = none) (hFree : s.isDir c = true → c ∉ p.holds)
    (hOk : PhaseOk s p) : PhaseOk (s.dirunlink d n) p := by
  refine ⟨?_, hOk.files, hOk.dirs⟩
  intro i hi
  refine (hOk.holds i hi).dirunlink hLink hEmpty ?_
  rintro hDir rfl
  exact hFree hDir hi

theorem PhaseOk.setNode (hFree : c ∉ p.holds) (hOk : PhaseOk s p) : PhaseOk (s.setNode c x) p := by
  have hNe : ∀ i ∈ p.holds, i ≠ c := by
    rintro i hi rfl
    exact hFree hi
  refine ⟨fun i hi => (hOk.holds i hi).setNode (hNe i hi), ?_, ?_⟩
  · intro i hi
    rw [(setNode_of_ne (hNe i (p.files_subset hi))).1]
    exact hOk.files i hi
  · intro i hi
    rw [(setNode_of_ne (hNe i (p.dirs_subset hi))).1]
    exact hOk.dirs i hi

-- Counting Names

namespace Sys

/- The entries that name inode `i`. -/
def names (s : Sys) (i : Nat) : Nat := s.links.total fun _ j => if j = i then 1 else 0

/- The entries of directory `i` that name directories. -/
def subdirs (s : Sys) (i : Nat) : Nat :=
  s.links.total fun k j =>
    if k.1 = i ∧ s.isDir j = true then 1 else 0

def owed (s : Sys) (i : Nat) : Nat := ∑ t ∈ Finset.range s.nproc, (s.phase t).owes i

def cutting (s : Sys) (i : Nat) : Nat := ∑ t ∈ Finset.range s.nproc, (s.phase t).cuts i

/- All that a link count has to cover. -/
def load (s : Sys) (i : Nat) : Nat :=
  s.names i + s.subdirs i + s.owed i +
    if i = ROOTINO then 1 else 0

end Sys

structure Inv (s : Sys) : Prop where
  shape : Shape s
  cwd : ∀ t, t < s.nproc → Good s (s.cwd t)
  phase : ∀ t, t < s.nproc → PhaseOk s (s.phase t)
  count : ∀ i x, s.inodes i = some x → s.load i ≤ x.nlink.toNat + s.cutting i
  made : ∀ i, s.made i = true → s.cutting i < s.names i

variable {t : Nat}

theorem names_withLink (hNew : s.links.lookup k = none) :
    (s.withLink k c).names i = s.names i + if c = i then 1 else 0 := by
  unfold Sys.names Sys.withLink
  rw [AList.total_insert, AList.total_erase_of_lookup_none _ hNew, Nat.add_comm]

theorem subdirs_withLink (hNew : s.links.lookup k = none) :
    (s.withLink k c).subdirs i = s.subdirs i + if k.1 = i ∧ s.isDir c = true then 1 else 0 := by
  unfold Sys.subdirs Sys.withLink
  rw [AList.total_insert, AList.total_erase_of_lookup_none _ hNew, Nat.add_comm]
  rfl

theorem names_dirunlink (hLink : s.links.lookup (d, entryName n) = some c) :
    (s.dirunlink d n).names i + (if c = i then 1 else 0) = s.names i := by
  unfold Sys.names Sys.dirunlink
  rw [AList.total_of_lookup _ hLink, Nat.add_comm]

theorem subdirs_dirunlink (hLink : s.links.lookup (d, entryName n) = some c) :
    (s.dirunlink d n).subdirs i + (if d = i ∧ s.isDir c = true then 1 else 0) = s.subdirs i := by
  unfold Sys.subdirs Sys.dirunlink
  rw [AList.total_of_lookup (fun (k : Nat × Name) j =>
      if k.1 = i ∧ s.isDir j = true then 1 else 0) hLink,
    Nat.add_comm]
  rfl

theorem names_pos (hLink : s.links.lookup k = some i) : 0 < s.names i := by
  unfold Sys.names
  rw [AList.total_of_lookup _ hLink, if_pos rfl]
  omega

theorem subdirs_congr (hLinks : s'.links = s.links) (hDir : ∀ k j, s.links.lookup k = some j →
      s'.isDir j = s.isDir j) : s'.subdirs i = s.subdirs i := by
  unfold Sys.subdirs
  rw [hLinks]
  apply AList.total_congr
  intro k j hLink
  rw [hDir k j hLink]

theorem names_congr (hLinks : s'.links = s.links) : s'.names i = s.names i := by
  unfold Sys.names
  rw [hLinks]

theorem subdirs_of_empty (hEmpty : ∀ m, s.links.lookup (i, m) = none) : s.subdirs i = 0 := by
  have hZero : s.subdirs i = s.links.total fun _ _ => 0 := by
    unfold Sys.subdirs
    apply AList.total_congr
    rintro ⟨k, m⟩ j hLink
    apply if_neg
    rintro ⟨rfl, _⟩
    have hLink' : s.links.lookup (k, m) = some j := hLink
    rw [hEmpty m] at hLink'
    cases hLink'
  rw [hZero]
  unfold AList.total
  simp

/- A sum over the processes, one of which goes on. -/
theorem sum_phase (w : Phase → Nat) (ht : t < s.nproc) : (∑ u ∈ Finset.range s.nproc,
        w ((s.setPhase t p).phase u)) + w (s.phase t) =
      (∑ u ∈ Finset.range s.nproc, w (s.phase u)) + w p := by
  have hMem : t ∈ Finset.range s.nproc := Finset.mem_range.mpr ht
  rw [← Finset.add_sum_erase _ _ hMem, ← Finset.add_sum_erase _ (fun u => w (s.phase u)) hMem]
  have hRest : ∑ u ∈ (Finset.range s.nproc).erase t, w ((s.setPhase t p).phase u) =
      ∑ u ∈ (Finset.range s.nproc).erase t, w (s.phase u) := by
    apply Finset.sum_congr rfl
    intro u hu
    have hNe := Finset.ne_of_mem_erase hu
    show w (update s.phase t p u) = w (s.phase u)
    rw [update_of_ne hNe]
  have hSelf : (s.setPhase t p).phase t = p := update_self ..
  rw [hRest, hSelf]
  omega

theorem owed_setPhase (ht : t < s.nproc) : (s.setPhase t p).owed i + (s.phase t).owes i =
      s.owed i + p.owes i := sum_phase (Phase.owes i) ht

theorem cutting_setPhase (ht : t < s.nproc) : (s.setPhase t p).cutting i + (s.phase t).cuts i =
      s.cutting i + p.cuts i := sum_phase (Phase.cuts i) ht

/- A call that has counted or entered has a reference. -/
theorem owed_eq_zero (hNot : ∀ t, t < s.nproc → i ∉ (s.phase t).files) : s.owed i = 0 := by
  apply Finset.sum_eq_zero
  intro t ht
  exact Phase.owes_eq_zero (hNot t (Finset.mem_range.mp ht))

theorem cutting_eq_zero (hNot : ∀ t, t < s.nproc → i ∉ (s.phase t).files) : s.cutting i = 0 := by
  apply Finset.sum_eq_zero
  intro t ht
  exact Phase.cuts_eq_zero (hNot t (Finset.mem_range.mp ht))

theorem held_eq_false : s.held i = false ↔ ∀ t, t < s.nproc →
      s.cwd t ≠ i ∧ i ∉ (s.phase t).holds := by
  unfold Sys.held
  rw [List.any_eq_false]
  constructor
  · intro hAll t ht
    have hNot := hAll t (List.mem_range.mpr ht)
    simp only [Bool.or_eq_true, decide_eq_true_eq, not_or] at hNot
    exact hNot
  · intro hAll t ht
    have hNot := hAll t (List.mem_range.mp ht)
    simp only [Bool.or_eq_true, decide_eq_true_eq, not_or]
    exact hNot

end NameTree

end PlayXv6
