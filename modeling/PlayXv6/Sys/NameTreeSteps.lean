import PlayXv6.Sys.NameTreeKeep

/-
  What every step of a call keeps.

  Each step is put together from the changes to the tree and
  a move of the call that makes them; where a count has to
  change first to leave room, the changes are taken in that
  order, which comes to the same state.

  Main declarations:
    * `Inv.stepClaim`, `Inv.stepUnlink`
-/

namespace PlayXv6

open Function

variable {d c i cur next u src oldDir : Nat}

namespace NameTree

variable {s s' : Sys} {t : Nat} {absolute fits : Bool} {name : Name}

-- Walks

theorem Inv.good_root (hInv : Inv s) : Good s ROOTINO := by
  refine ⟨?_, fun _ => .root⟩
  rcases isDir_iff.mp hInv.shape.root.1 with ⟨x, hx, _⟩
  rw [hx]
  exact Option.some_ne_none x

theorem Inv.good_origin (hInv : Inv s) (ht : t < s.nproc) : Good s (s.origin t absolute) := by
  unfold Sys.origin
  split
  · exact hInv.good_root
  · exact hInv.cwd t ht

/- What a lookup in a held directory finds. -/
theorem Inv.good_dirlookup (hInv : Inv s) (hGood : Good s cur)
    (hDir : s.isDir cur = true) (hFound : s.dirlookup cur name = some next) : Good s next := by
  unfold Sys.dirlookup at hFound
  split at hFound
  · obtain rfl := Option.some.inj hFound
    exact hGood
  · split at hFound
    · have hUp : s.upOf cur = some next := hFound
      rcases (hGood.2 hDir).cases_root with rfl | ⟨⟨d, m⟩, hk⟩
      · rw [hInv.shape.root.2] at hUp
        obtain rfl := Option.some.inj hUp
        exact hGood
      · rcases hInv.shape.entry d m cur hk with ⟨hParent, hReach, _, hSame⟩
        rw [hSame hDir] at hUp
        obtain rfl := Option.some.inj hUp
        rcases isDir_iff.mp hParent with ⟨x, hx, _⟩
        exact ⟨by rw [hx]; exact Option.some_ne_none x, fun _ => hReach⟩
    · rcases hInv.shape.entry cur _ next hFound with ⟨_, hReach, hAlloc, _⟩
      exact ⟨hAlloc, fun _ => .entry hReach hFound⟩

theorem PhaseOk.walk {g : Goal} (hOk : PhaseOk s (.walk g cur))
    (hGood : Good s next) : PhaseOk s (.walk g next) := by
  refine ⟨?_, hOk.files, hOk.dirs⟩
  intro i hi
  rcases List.mem_cons.mp hi with rfl | hi
  · exact hGood
  · exact hOk.holds i (List.mem_cons_of_mem _ hi)

theorem Inv.goOn (hInv : Inv s) (ht : t < s.nproc) {p p₀ : Phase} (hPhase : s.phase t = p₀)
    (hOk : PhaseOk s p) (hCuts : ∀ i, p.cuts i = p₀.cuts i) (hOwes : ∀ i, p.owes i ≤ p₀.owes i) :
    Inv (s.setPhase t p) := by
  subst hPhase
  exact hInv.turn ht hOk hCuts hOwes

theorem Inv.endCall (hInv : Inv s) (ht : t < s.nproc) {p₀ : Phase} (hPhase : s.phase t = p₀)
    (hCuts : ∀ i, p₀.cuts i = 0) : Inv (s.setPhase t .idle) :=
  hInv.goOn ht hPhase PhaseOk.idle (fun i => (hCuts i).symm) fun _ => Nat.zero_le _

theorem Inv.stepCall (hInv : Inv s) (ht : t < s.nproc) {g : Goal}
    (hStep : s.stepCall t g absolute = some s') : Inv s' := by
  unfold Sys.stepCall at hStep
  split at hStep <;> cases hStep
  rename_i hIdle
  have hGood : Good s (s.origin t absolute) := hInv.good_origin ht
  cases g with
  | linkNew ip | renameOld src | renameNew src oldDir oldName => cases hIdle.2
  | _ =>
    refine hInv.goOn ht hIdle.1 ⟨?_, ?_, ?_⟩ (fun _ => rfl) fun _ => Nat.zero_le _
    · simpa [Phase.holds, Goal.holds] using hGood
    · simp [Phase.files, Goal.files]
    · simp [Phase.dirs, Goal.dirs]

theorem Inv.stepWalk (hInv : Inv s) (ht : t < s.nproc) (hStep : s.stepWalk t name = some s') :
    Inv s' := by
  unfold Sys.stepWalk at hStep
  split at hStep
  swap
  · cases hStep
  rename_i g cur hPhase
  split at hStep
  swap
  · cases hStep
  rename_i hDir
  rcases Option.map_eq_some_iff.mp hStep with ⟨next, hFound, rfl⟩
  have hOk := hInv.phase t ht
  rw [hPhase] at hOk
  have hGood := hInv.good_dirlookup (hOk.holds cur List.mem_cons_self) hDir hFound
  exact hInv.goOn ht hPhase (hOk.walk hGood) (fun _ => rfl) fun _ => by cases g <;> exact le_rfl

theorem Inv.stepRestart (hInv : Inv s) (ht : t < s.nproc) (hStep : s.stepRestart t = some s') :
    Inv s' := by
  unfold Sys.stepRestart at hStep
  split at hStep <;> cases hStep
  rename_i g cur hPhase
  have hOk := hInv.phase t ht
  rw [hPhase] at hOk
  exact hInv.goOn ht hPhase (hOk.walk hInv.good_root) (fun _ => rfl)
    fun _ => by cases g <;> exact le_rfl

theorem Inv.stepGiveUp (hInv : Inv s) (ht : t < s.nproc) (hStep : s.stepGiveUp t = some s') :
    Inv s' := by
  unfold Sys.stepGiveUp at hStep
  split at hStep <;> cases hStep
  · rename_i ip cur hPhase
    have hOk := hInv.phase t ht
    rw [hPhase] at hOk
    refine hInv.goOn ht hPhase ⟨?_, hOk.files, ?_⟩ (fun _ => rfl) fun _ => le_rfl
    · exact fun i hi => hOk.holds i (List.mem_cons_of_mem _ hi)
    · simp [Phase.dirs]
  · rename_i hPhase
    exact hInv.endCall ht hPhase fun _ => rfl
  · rename_i hPhase
    exact hInv.endCall ht hPhase fun _ => rfl

theorem Inv.setCwd (hInv : Inv s) (hGood : Good s i) : Inv { s with cwd := update s.cwd u i } := by
  have hSame : SameTree s { s with cwd := update s.cwd u i } :=
    ⟨rfl, fun _ => rfl, fun _ => rfl, fun _ => Iff.rfl⟩
  refine ⟨hSame.shape hInv.shape, ?_, fun v hv => hSame.phaseOk (hInv.phase v hv), hInv.count,
    hInv.made⟩
  have hAll : ∀ v, v < s.nproc → Good s (update s.cwd u i v) :=
    (forall_update_iff s.cwd fun v j => v < s.nproc → Good s j).mpr
      ⟨fun _ => hGood, fun v _ => hInv.cwd v⟩
  exact fun v hv => hSame.good (hAll v hv)

theorem Inv.stepFork (hInv : Inv s) (ht : t < s.nproc)
    (hStep : s.stepFork t u = some s') : Inv s' := by
  unfold Sys.stepFork at hStep
  split at hStep <;> cases hStep
  exact hInv.setCwd (hInv.cwd t ht)

theorem Inv.stepFound (hInv : Inv s) (ht : t < s.nproc) (hOk : s.ok (.found t absolute))
    (hStep : s.stepFound t absolute = some s') : Inv s' := by
  have hPhaseOk := hInv.phase t ht
  unfold Sys.stepFound at hStep
  split at hStep
  · rename_i hPhase
    obtain rfl := Option.some.inj hStep
    exact hInv.endCall ht hPhase fun _ => rfl
  · rename_i cur hPhase
    rw [hPhase] at hPhaseOk
    have hIdle : Inv (s.setPhase t .idle) := hInv.endCall ht hPhase fun _ => rfl
    split at hStep <;> cases hStep
    · exact hIdle.setCwd ((sameTree_setPhase s t .idle).good
        (hPhaseOk.holds cur List.mem_cons_self))
    · exact hIdle
  · rename_i cur hPhase
    rw [hPhase] at hPhaseOk
    obtain rfl := Option.some.inj hStep
    exact hInv.goOn ht hPhase ⟨hPhaseOk.holds, by simp [Phase.files], by simp [Phase.dirs]⟩
      (fun _ => rfl) fun _ => Nat.zero_le _
  · rename_i cur hPhase
    rw [hPhase] at hPhaseOk
    have hFile : s.isDir cur = false := by simpa [Sys.ok, hPhase] using hOk
    obtain rfl := Option.some.inj hStep
    refine hInv.goOn ht hPhase ⟨?_, ?_, ?_⟩ (fun _ => rfl) fun _ => Nat.zero_le _
    · simpa [Phase.holds, Goal.holds] using
        ⟨hInv.good_origin ht, hPhaseOk.holds cur List.mem_cons_self⟩
    · simpa [Phase.files, Goal.files] using hFile
    · simp [Phase.dirs, Goal.dirs]
  · cases hStep

theorem Inv.stepParent (hInv : Inv s) (ht : t < s.nproc)
    (hStep : s.stepParent t name absolute = some s') : Inv s' := by
  have hPhaseOk := hInv.phase t ht
  unfold Sys.stepParent at hStep
  split at hStep
  swap
  · cases hStep
  rename_i g cur hPhase
  rw [hPhase] at hPhaseOk
  have hEnd : Inv (s.setPhase t .idle) := hInv.endCall ht hPhase fun _ => rfl
  have hCur := hPhaseOk.holds cur List.mem_cons_self
  split at hStep
  swap
  · cases hStep
  rename_i hDir
  cases g with
  | create kind | unlink =>
    obtain rfl := Option.some.inj hStep
    split
    · exact hEnd
    · exact hInv.goOn ht hPhase ⟨by simpa [Phase.holds], by simp [Phase.files],
        by simpa [Phase.dirs]⟩ (fun _ => rfl) fun _ => Nat.zero_le _
  | linkNew ip =>
    obtain rfl := Option.some.inj hStep
    have hIp := hPhaseOk.holds ip (by simp [Phase.holds, Goal.holds])
    exact hInv.goOn ht hPhase ⟨by simpa [Phase.holds] using ⟨hIp, hCur⟩, hPhaseOk.files,
      by simpa [Phase.dirs]⟩ (fun _ => rfl) fun _ => le_rfl
  | renameOld src =>
    obtain rfl := Option.some.inj hStep
    have hSrc := hPhaseOk.holds src (by simp [Phase.holds, Goal.holds])
    refine hInv.goOn ht hPhase ⟨?_, hPhaseOk.files, by simpa [Phase.dirs, Goal.dirs]⟩
      (fun _ => rfl) fun _ => Nat.zero_le _
    simpa [Phase.holds, Goal.holds] using ⟨hInv.good_origin ht, hSrc, hCur⟩
  | renameNew src oldDir oldName =>
    obtain rfl := Option.some.inj hStep
    have hSrc := hPhaseOk.holds src (by simp [Phase.holds, Goal.holds])
    have hOldDir := hPhaseOk.holds oldDir (by simp [Phase.holds, Goal.holds])
    have hOld := hPhaseOk.dirs oldDir (by simp [Phase.dirs, Goal.dirs])
    split
    · exact hEnd
    · split
      · exact hEnd
      · exact hInv.goOn ht hPhase ⟨by simpa [Phase.holds] using ⟨hSrc, hOldDir, hCur⟩,
          hPhaseOk.files, by simpa [Phase.dirs] using ⟨hOld, hDir⟩⟩ (fun _ => rfl)
          fun _ => Nat.zero_le _
  | _ => cases hStep

-- Creating

theorem Inv.stepScan (hInv : Inv s) (ht : t < s.nproc) {child : Nat}
    (hStep : s.stepScan t child = some s') : Inv s' := by
  have hPhaseOk := hInv.phase t ht
  unfold Sys.stepScan at hStep
  split at hStep
  swap
  · cases hStep
  rename_i kind dir name hPhase
  rw [hPhase] at hPhaseOk
  split at hStep
  · cases hStep
    exact hInv.endCall ht hPhase fun _ => rfl
  · split at hStep <;> cases hStep
    exact hInv.goOn ht hPhase ⟨hPhaseOk.holds, by simp [Phase.files], hPhaseOk.dirs⟩
      (fun _ => rfl) fun _ => Nat.zero_le _

theorem dirlink_eq_some {dir : Nat} (hDir : s.isDir dir = true) (hSmall : i < 2 ^ 16)
    (hLink : s.dirlink dir name i fits = some s') : s.links.lookup (dir, entryName name) = none ∧
      s' = s.withLink (dir, entryName name) i := by
  unfold Sys.dirlink at hLink
  split at hLink
  swap
  · cases hLink
  rename_i hNew
  rcases hNew with ⟨_, hNone⟩
  obtain rfl := Option.some.inj hLink
  have hInum : entryInum i = i := Nat.mod_eq_of_lt hSmall
  refine ⟨?_, by rw [hInum]; rfl⟩
  unfold Sys.dirlookup at hNone
  split at hNone
  · cases hNone
  split at hNone
  · rcases isDir_iff.mp hDir with ⟨x, hx, _⟩
    rw [hx] at hNone
    cases hNone
  · exact hNone

/- Inode `c` is new: nothing counts on it yet. -/
structure Fresh (s : Sys) (c : Nat) (x : Node) : Prop where
  node : s.inodes c = some x
  one : x.nlink = 1
  load : s.load c = 0
  cutting : s.cutting c = 0

theorem Inv.alloc (hInv : Inv s) {x : Node} (hNone : s.inodes c = none)
    (hHeld : s.held c = false) (hSmall : c < 2 ^ 16) (hOne : x.nlink = 1) :
    Inv (s.setNode c (some x)) ∧ Fresh (s.setNode c (some x)) c x := by
  have hRoot : c ≠ ROOTINO := by
    rintro rfl
    exact hInv.good_root.1 hNone
  have hNamed : ∀ k, s.links.lookup k ≠ some c := by
    rintro ⟨d, m⟩ hk
    exact (hInv.shape.entry d m c hk).2.2.1 hNone
  have hNew := hInv.setNode (x := some x) hRoot (fun _ => hSmall) hNamed hHeld
  rcases load_of_unused hNew.shape hRoot hNamed hHeld with ⟨hLoad, hCutting⟩
  exact ⟨hNew, update_self .., hOne, hLoad, hCutting⟩

theorem Fresh.room {x : Node} (hFresh : Fresh s c x) (y : Node)
    (hy : s.inodes c = some y) : s.load c + 1 ≤ y.nlink.toNat + s.cutting c := by
  obtain rfl := Option.some.inj (hFresh.node.symm.trans hy)
  rw [hFresh.load, hFresh.cutting, hFresh.one]
  exact Nat.le_refl 1

theorem Fresh.addLink {x : Node} (hFresh : Fresh s c x) (hNe : c ≠ d) :
    Fresh (s.addLink d) c x := by
  refine ⟨?_, hFresh.one, ?_, hFresh.cutting⟩
  · have hSame : (s.addLink d).inodes c = s.inodes c := update_of_ne hNe _ _
    rw [hSame]
    exact hFresh.node
  · have hLoad : (s.addLink d).load c = s.load c := (sameTree_setNlink s d _).load_eq rfl
    rw [hLoad]
    exact hFresh.load

/- A new inode gets its name, and is made. -/
theorem Inv.enter (hInv : Inv s) {x : Node} (hFresh : Fresh s c x) (hUp : x.up = d)
    (hDir : s.isDir d = true) (hReach : s.Reachable d) (hNew : s.links.lookup (d, name) = none)
    (hNe : c ≠ d) (hRoom : x.kind = .dir → ∀ y, s.inodes d = some y →
      s.load d + 1 ≤ y.nlink.toNat + s.cutting d) :
    Inv ((s.withLink (d, name) c).setMade c true) := by
  have hAlloc : s.inodes c ≠ none := by
    rw [hFresh.node]
    exact Option.some_ne_none x
  have hUpOf : s.upOf c = some d := by
    unfold Sys.upOf
    rw [hFresh.node, ← hUp]
    rfl
  have hKind : s.isDir c = true → x.kind = .dir := by
    intro hc
    rcases isDir_iff.mp hc with ⟨y, hy, hKind⟩
    obtain rfl := Option.some.inj (hFresh.node.symm.trans hy)
    exact hKind
  refine (hInv.withLink hDir hReach hNew hAlloc (fun _ => hUpOf) hNe hFresh.room
    fun hc => hRoom (hKind hc)).setMade ?_
  intro _
  have hCutting : (s.withLink (d, name) c).cutting c = 0 := hFresh.cutting
  rw [names_withLink hNew, if_pos rfl, hCutting]
  omega

theorem held_endCall (hHeld : s.held i = false) : (s.setPhase t .idle).held i = false := by
  rw [held_eq_false] at hHeld ⊢
  refine fun u hu => ⟨(hHeld u hu).1, ?_⟩
  revert u
  exact (forall_update_iff s.phase fun u p => u < s.nproc → i ∉ p.holds).mpr
    ⟨fun _ => by simp [Phase.holds], fun u _ hu => (hHeld u hu).2⟩

theorem Inv.stepClaim (hInv : Inv s) (ht : t < s.nproc) (hOk : s.ok (.claim t fits))
    (hStep : s.stepClaim t fits = some s') : Inv s' := by
  have hPhaseOk := hInv.phase t ht
  unfold Sys.stepClaim at hStep
  split at hStep
  swap
  · cases hStep
  rename_i kind dir name child hPhase
  rw [hPhase] at hPhaseOk
  simp only [Sys.ok, hPhase] at hOk
  rcases hOk with ⟨hNone, hHeld, hSmall, hMax⟩
  have hGood := hPhaseOk.holds dir List.mem_cons_self
  have hDir := hPhaseOk.dirs dir List.mem_cons_self
  have hNe : child ≠ dir := by
    rintro rfl
    exact hGood.1 hNone
  have hIdle : Inv (s.setPhase t .idle) := hInv.endCall ht hPhase fun _ => rfl
  rcases hIdle.alloc (x := ⟨kind, 1, dir⟩) hNone
    (held_endCall hHeld) hSmall rfl with ⟨hInv₁, hFresh⟩
  dsimp only at hStep
  generalize hs₁ : (s.setPhase t .idle).setNode child (some ⟨kind, 1, dir⟩) = s₁ at *
  have hSame : s₁.inodes dir = s.inodes dir := by
    rw [← hs₁]
    exact update_of_ne hNe.symm _ _
  have hDir₁ : s₁.isDir dir = true := by
    unfold Sys.isDir at hDir ⊢
    rw [hSame]
    exact hDir
  have hReach₁ : s₁.Reachable dir := by
    rw [← hs₁]
    exact (hGood.2 hDir).of_links rfl
  split at hStep
  · obtain rfl := Option.some.inj hStep
    exact hInv₁
  · rename_i s₂ hLink
    rcases dirlink_eq_some hDir₁ hSmall hLink with ⟨hNew, rfl⟩
    split at hStep
    · rename_i hKind
      obtain rfl := Option.some.inj hStep
      have hCount : ∀ x, s₁.inodes dir = some x → x.nlink ≠ 65535 := by
        intro x hx
        rw [hSame] at hx
        have hAll := hMax hKind
        rw [hx] at hAll
        simpa using hAll
      rcases hInv₁.addLink hCount with ⟨hInv₂, hRoom⟩
      have hTree := sameTree_setNlink s₁ dir fun m => m + 1
      exact hInv₂.enter (hFresh.addLink hNe) rfl ((hTree.isDir dir).trans hDir₁)
        (hTree.reachable hReach₁) hNew hNe fun _ => hRoom
    · rename_i hKind
      obtain rfl := Option.some.inj hStep
      exact hInv₁.enter hFresh rfl hDir₁ hReach₁ hNew hNe fun hk => absurd hk hKind

-- Removing

theorem lookup_of_dirIsEmpty (hEmpty : s.dirIsEmpty d = true) (m : Name) :
    s.links.lookup (d, m) = none := by
  by_contra hSome
  rcases Option.ne_none_iff_exists'.mp hSome with ⟨j, hj⟩
  have hMem := AList.mem_lookup_iff.mp hj
  have hNe := List.all_eq_true.mp hEmpty _ hMem
  simp at hNe

theorem Shape.lookup_of_file (hShape : Shape s) (hFile : s.isDir i = false) (m : Name) :
    s.links.lookup (i, m) = none := by
  by_contra hSome
  rcases Option.ne_none_iff_exists'.mp hSome with ⟨j, hj⟩
  rw [(hShape.entry i m j hj).1] at hFile
  cases hFile

theorem Inv.removeEntry (hInv : Inv s) (hLink : s.links.lookup (d, entryName name) = some c)
    (hEmpty : ∀ m, s.links.lookup (c, m) = none) (hFree : s.isDir c = true → s.held c = false) :
    Inv ((s.dirunlink d name).setMade c false) ∧ ∀ i x, s.inodes i = some x →
        ((s.dirunlink d name).setMade c false).load i + (if c = i then 1 else 0) +
            (if d = i ∧ s.isDir c = true then 1 else 0) ≤ x.nlink.toNat + s.cutting i := by
  have hUnmade : Inv (s.setMade c false) := hInv.setMade fun h => by cases h
  refine ⟨hUnmade.dirunlink hLink hEmpty hFree (update_self ..), ?_⟩
  intro i x hx
  have hLoad : (s.dirunlink d name).load i + (if c = i then 1 else 0) +
        (if d = i ∧ s.isDir c = true then 1 else 0) = s.load i := load_dirunlink hLink
  have hCount := hInv.count i x hx
  show (s.dirunlink d name).load i + _ + _ ≤ _
  omega

theorem Inv.lowerBoth (hInv : Inv s) {b : Bool} (hNe : c ≠ d)
    (hRoom : ∀ i x, s.inodes i = some x → s.load i + (if c = i then 1 else 0) +
          (if d = i ∧ b = true then 1 else 0) ≤ x.nlink.toNat + s.cutting i) :
    Inv ((if b then s.subLink d else s).subLink c) := by
  cases b with
  | false =>
    refine hInv.setNlink toNat_le_sub_one ?_
    intro x hx
    have hMore := hRoom c x hx
    rw [if_pos rfl] at hMore
    omega
  | true =>
    have hLow : Inv (s.subLink d) := by
      refine hInv.setNlink toNat_le_sub_one ?_
      intro x hx
      have hMore := hRoom d x hx
      rw [if_neg hNe, if_pos ⟨rfl, rfl⟩] at hMore
      exact hMore
    refine hLow.setNlink toNat_le_sub_one ?_
    intro x hx
    have hOther : (s.subLink d).inodes c = s.inodes c := update_of_ne hNe _ _
    rw [hOther] at hx
    have hMore := hRoom c x hx
    rw [if_pos rfl] at hMore
    have hLoad : (s.subLink d).load c = s.load c := (sameTree_setNlink s d _).load_eq rfl
    show (s.subLink d).load c + 1 ≤ x.nlink.toNat + s.cutting c
    omega

theorem Inv.stepUnlink (hInv : Inv s) (ht : t < s.nproc) (hOk : s.ok (.unlink t))
    (hStep : s.stepUnlink t = some s') : Inv s' := by
  unfold Sys.stepUnlink at hStep
  split at hStep
  swap
  · cases hStep
  rename_i dir name hPhase
  have hIdle : Inv (s.setPhase t .idle) := hInv.endCall ht hPhase fun _ => rfl
  dsimp only at hStep
  split at hStep
  · obtain rfl := Option.some.inj hStep
    exact hIdle
  · rename_i child hLink
    simp only [Sys.ok, hPhase, hLink] at hOk
    split at hStep
    · obtain rfl := Option.some.inj hStep
      exact hIdle
    · rename_i hAllowed
      obtain rfl := Option.some.inj hStep
      have hEmptyDir : s.isDir child = true → s.dirIsEmpty child = true := by
        intro hDir
        by_contra hFull
        exact hAllowed ⟨hDir, by simpa using hFull⟩
      have hEmpty : ∀ m, s.links.lookup (child, m) = none := by
        intro m
        cases hDir : s.isDir child with
        | true => exact lookup_of_dirIsEmpty (hEmptyDir hDir) m
        | false => exact hInv.shape.lookup_of_file hDir m
      have hNe : child ≠ dir := by
        rintro rfl
        rw [hEmpty] at hLink
        cases hLink
      rcases hIdle.removeEntry hLink hEmpty (fun hDir =>
        held_endCall (hOk ⟨hDir, hEmptyDir hDir⟩)) with
        ⟨hInv₂, hRoom⟩
      apply Inv.freeUnused
      exact hInv₂.lowerBoth hNe hRoom

-- Linking

theorem Inv.stepRaise (hInv : Inv s) (ht : t < s.nproc) (hOk : s.ok (.raise t absolute))
    (hStep : s.stepRaise t absolute = some s') : Inv s' := by
  have hPhaseOk := hInv.phase t ht
  unfold Sys.stepRaise at hStep
  split at hStep
  swap
  · cases hStep
  rename_i ip hPhase
  rw [hPhase] at hPhaseOk
  simp only [Sys.ok, hPhase] at hOk
  split at hStep <;> cases hStep
  · exact hInv.endCall ht hPhase fun _ => rfl
  · rename_i hFile
    have hMax : ∀ x, s.inodes ip = some x → x.nlink ≠ 65535 := by
      intro x hx
      rw [hx] at hOk
      simpa using hOk
    have hTree := sameTree_setNlink s ip fun m => m + 1
    rcases hInv.addLink hMax with ⟨hInv₁, hRoom⟩
    have hGood : Good (s.addLink ip) ip := hTree.good (hPhaseOk.holds ip List.mem_cons_self)
    have hOrigin : Good (s.addLink ip) (s.origin t absolute) := hTree.good (hInv.good_origin ht)
    have hFile' : (s.addLink ip).isDir ip = false := (hTree.isDir ip).trans (by simpa using hFile)
    refine hInv₁.setPhase ht ⟨?_, ?_, ?_⟩ (fun i => hPhase ▸ rfl) ?_
    · simpa [Phase.holds, Goal.holds] using ⟨hOrigin, hGood⟩
    · simpa [Phase.files, Goal.files] using hFile'
    · simp [Phase.dirs, Goal.dirs]
    · intro i x hx
      show (s.addLink ip).load i + (if ip = i then 1 else 0) ≤ _
      split
      · rename_i hi
        subst hi
        exact Nat.le_add_right_of_le (hRoom x hx)
      · exact Nat.le_add_right_of_le (hInv₁.count i x hx)

/- A call that pays what it owes leaves room for it. -/
theorem Inv.room_setPhase (hInv : Inv s) (ht : t < s.nproc) {p p₀ : Phase} {ip : Nat}
    (hPhase : s.phase t = p₀) (hCuts : p.cuts ip = p₀.cuts ip) (hOwes : p₀.owes ip = 1)
    (hNone : p.owes ip = 0) (x : Node) (hx : s.inodes ip = some x) : (s.setPhase t p).load ip + 1 ≤
      x.nlink.toNat + (s.setPhase t p).cutting ip := by
  have hLoad := load_setPhase (s := s) (p := p) (i := ip) ht
  have hCutting := cutting_setPhase (s := s) (p := p) (i := ip) ht
  have hOld := hInv.count ip x hx
  rw [hPhase, hOwes, hNone] at hLoad
  rw [hPhase, hCuts] at hCutting
  omega

theorem Inv.stepEntry (hInv : Inv s) (ht : t < s.nproc) (hStep : s.stepEntry t fits = some s') :
    Inv s' := by
  have hPhaseOk := hInv.phase t ht
  unfold Sys.stepEntry at hStep
  split at hStep
  swap
  · cases hStep
  rename_i ip dir name hPhase
  rw [hPhase] at hPhaseOk
  have hGood := hPhaseOk.holds ip List.mem_cons_self
  have hFile := hPhaseOk.files ip List.mem_cons_self
  have hDir := hPhaseOk.dirs dir List.mem_cons_self
  split at hStep <;> cases hStep
  · rename_i s₁ hLink
    rcases dirlink_eq_some hDir (hInv.shape.small ip hGood.1) hLink with ⟨hNew, rfl⟩
    have hReach := (hPhaseOk.holds dir (List.mem_cons_of_mem _ List.mem_cons_self)).2 hDir
    have hNotDir : ∀ {P : Prop}, (s.setPhase t .idle).isDir ip = true → P :=
      fun hIp => Bool.noConfusion (hFile.symm.trans hIp)
    refine (hInv.endCall ht hPhase fun _ => rfl).withLink (n := entryName name) hDir
      (hReach.of_links rfl) hNew hGood.1 hNotDir ?_
      (hInv.room_setPhase ht hPhase rfl (if_pos rfl) rfl) hNotDir
    rintro rfl
    exact hNotDir hDir
  · exact hInv.goOn ht hPhase ⟨by simpa [Phase.holds] using hGood, hPhaseOk.files,
      by simp [Phase.dirs]⟩ (fun _ => rfl) fun _ => le_rfl

theorem Inv.stepUndo (hInv : Inv s) (ht : t < s.nproc) (hStep : s.stepUndo t = some s') :
    Inv s' := by
  unfold Sys.stepUndo at hStep
  split at hStep <;> cases hStep
  rename_i ip hPhase
  exact (hInv.endCall ht hPhase fun _ => rfl).setNlink toNat_le_sub_one
    (hInv.room_setPhase ht hPhase rfl (if_pos rfl) rfl)

-- Renaming

theorem Inv.stepLook (hInv : Inv s) (ht : t < s.nproc) (hStep : s.stepLook t = some s') :
    Inv s' := by
  have hPhaseOk := hInv.phase t ht
  unfold Sys.stepLook at hStep
  split at hStep
  swap
  · cases hStep
  rename_i src oldDir oldName newDir newName hPhase
  rw [hPhase] at hPhaseOk
  split at hStep <;> cases hStep
  · exact hInv.goOn ht hPhase { hPhaseOk with } (fun _ => rfl)
      fun _ => Nat.zero_le _
  · rename_i ex hLink
    split
    · exact hInv.endCall ht hPhase fun _ => rfl
    · rename_i hFile
      have hEx : Good s ex := ⟨(hInv.shape.entry _ _ _ hLink).2.2.1, fun hDir => absurd hDir hFile⟩
      have hSrc := hPhaseOk.files src List.mem_cons_self
      refine hInv.goOn ht hPhase ⟨?_, ?_, hPhaseOk.dirs⟩ (fun _ => rfl) fun _ => Nat.zero_le _
      · exact List.forall_mem_append.mpr ⟨hPhaseOk.holds, by simpa using hEx⟩
      · simpa [Phase.files, hSrc] using hFile

theorem lookup_of_finds (hFinds : s.finds d name = some i) :
    s.links.lookup (d, entryName name) = some i := by
  unfold Sys.finds at hFinds
  split at hFinds
  · exact hFinds
  · cases hFinds

theorem Inv.stepDrop (hInv : Inv s) (ht : t < s.nproc) (hOk : s.ok (.drop t))
    (hStep : s.stepDrop t = some s') : Inv s' := by
  have hPhaseOk := hInv.phase t ht
  unfold Sys.stepDrop at hStep
  split at hStep
  swap
  · cases hStep
  rename_i src oldDir oldName newDir newName ex hPhase
  rw [hPhase] at hPhaseOk
  simp only [Sys.ok, hPhase] at hOk
  split at hStep <;> cases hStep
  · exact hInv.endCall ht hPhase fun _ => rfl
  · rename_i i hFinds
    obtain rfl := hOk i hFinds
    have hLink := lookup_of_finds hFinds
    have hFile : s.isDir i = false := hPhaseOk.files i (by simp [Phase.files])
    have hEmpty := hInv.shape.lookup_of_file hFile
    have hNotDir : ∀ {P : Prop}, s.isDir i = true → P :=
      fun hDir => Bool.noConfusion (hFile.symm.trans hDir)
    rcases hInv.removeEntry hLink hEmpty hNotDir with ⟨hInv₁, hRoom⟩
    have hOk₁ : PhaseOk (s.dirunlink newDir newName)
        (.renameDrop src oldDir oldName newDir newName i) :=
      hPhaseOk.dirunlink hLink hEmpty hNotDir
    have hOk₂ := (sameTree_setMade _ i false).phaseOk hOk₁
    refine hInv₁.setPhase ht { hOk₂ with } (fun j => hPhase ▸ rfl) ?_
    intro j x hx
    have hMore := hRoom j x hx
    have hNoSub : ¬ (newDir = j ∧ s.isDir i = true) := fun h => hNotDir h.2
    rw [if_neg hNoSub] at hMore
    exact Nat.le_add_right_of_le hMore

theorem Inv.stepLower (hInv : Inv s) (ht : t < s.nproc) (hStep : s.stepLower t = some s') :
    Inv s' := by
  have hPhaseOk := hInv.phase t ht
  unfold Sys.stepLower at hStep
  split at hStep <;> cases hStep
  rename_i src oldDir oldName newDir newName ex hPhase
  rw [hPhase] at hPhaseOk
  have hNext : Inv (s.setPhase t (.renameLink src oldDir oldName newDir newName)) := by
    refine hInv.goOn ht hPhase ⟨?_, ?_, hPhaseOk.dirs⟩ (fun _ => rfl) fun _ => Nat.zero_le _
    · exact fun i (hi : i ∈ [src, oldDir, newDir]) =>
        hPhaseOk.holds i (List.mem_append_left [ex] hi)
    · exact fun i (hi : i ∈ [src]) => hPhaseOk.files i (List.mem_append_left [ex] hi)
  exact hNext.setNlink toNat_le_saturating (hInv.room_setPhase ht hPhase rfl (if_pos rfl) rfl)

/- Between its two changes a `rename` has one name more than the link count says. -/
theorem Inv.relink (hInv : Inv s) (ht : t < s.nproc) {oldName : Name}
    (hOk : PhaseOk s (.renameCut src oldDir oldName)) (hCuts : ∀ i, (s.phase t).cuts i = 0)
    (hDir : s.isDir d = true) (hReach : s.Reachable d) (hNew : s.links.lookup (d, name) = none) :
    Inv ((s.withLink (d, name) src).setPhase t (.renameCut src oldDir oldName)) := by
  have hFile := hOk.files src List.mem_cons_self
  have hGood := hOk.holds src List.mem_cons_self
  have hNotDir : ∀ {P : Prop}, s.isDir src = true → P :=
    fun hSrc => Bool.noConfusion (hFile.symm.trans hSrc)
  have hTree := sameTree_setPhase (s.withLink (d, name) src) t (.renameCut src oldDir oldName)
  have hCutting : ∀ i, ((s.withLink (d, name) src).setPhase t
      (.renameCut src oldDir oldName)).cutting i = s.cutting i + if src = i then 1 else 0 := by
    intro i
    have hSum := cutting_setPhase (s := s.withLink (d, name) src)
      (p := .renameCut src oldDir oldName) (i := i) ht
    have hOld : ((s.withLink (d, name) src).phase t).cuts i = 0 := hCuts i
    rw [hOld] at hSum
    exact hSum
  refine ⟨hTree.shape (hInv.shape.link hDir hReach hNew hGood.1 hNotDir),
    fun u hu => hTree.good ((hInv.cwd u hu).withLink hNew),
    phaseOk_setPhase (s := s.withLink (d, name) src) (fun u hu => (hInv.phase u hu).withLink hNew)
      (hOk.withLink hNew), ?_, ?_⟩
  · intro i x hx
    have hSum := load_setPhase (s := s.withLink (d, name) src)
      (p := .renameCut src oldDir oldName) (i := i) ht
    have hNone : (Phase.renameCut src oldDir oldName).owes i = 0 := rfl
    have hCount := hInv.count i x hx
    have hNoSub : ¬ (d = i ∧ s.isDir src = true) := fun h => hNotDir h.2
    rw [load_withLink hNew, if_neg hNoSub, hNone] at hSum
    rw [hCutting i]
    omega
  · intro i hMade
    have hOld := hInv.made i hMade
    rw [hCutting i, names_congr hTree.links, names_withLink hNew]
    omega

theorem Inv.stepRelink (hInv : Inv s) (ht : t < s.nproc) (hStep : s.stepRelink t fits = some s') :
    Inv s' := by
  have hPhaseOk := hInv.phase t ht
  unfold Sys.stepRelink at hStep
  split at hStep
  swap
  · cases hStep
  rename_i src oldDir oldName newDir newName hPhase
  rw [hPhase] at hPhaseOk
  have hSrc := hPhaseOk.holds src List.mem_cons_self
  have hDir : s.isDir newDir = true := hPhaseOk.dirs newDir (by simp [Phase.dirs])
  have hReach := (hPhaseOk.holds newDir (by simp [Phase.holds])).2 hDir
  split at hStep <;> cases hStep
  · rename_i s₁ hLink
    rcases dirlink_eq_some hDir (hInv.shape.small src hSrc.1) hLink with ⟨hNew, rfl⟩
    refine hInv.relink ht ⟨?_, hPhaseOk.files, ?_⟩ (hPhase ▸ fun _ => rfl) hDir hReach hNew
    · exact fun i (hi : i ∈ [src, oldDir]) => hPhaseOk.holds i (List.mem_append_left [newDir] hi)
    · exact fun i (hi : i ∈ [oldDir]) => hPhaseOk.dirs i (List.mem_append_left [newDir] hi)
  · exact hInv.endCall ht hPhase fun _ => rfl

theorem Inv.cut (hInv : Inv s) (ht : t < s.nproc) (hPhase : s.phase t = .renameCut src oldDir name)
    (hLink : s.links.lookup (oldDir, entryName name) = some src) (hFile : s.isDir src = false) :
    Inv ((s.dirunlink oldDir name).setPhase t .idle) := by
  have hEmpty := hInv.shape.lookup_of_file hFile
  have hNotDir : ∀ {P : Prop}, s.isDir src = true → P :=
    fun hDir => Bool.noConfusion (hFile.symm.trans hDir)
  have hTree := sameTree_setPhase (s.dirunlink oldDir name) t .idle
  have hCutting : ∀ i, ((s.dirunlink oldDir name).setPhase
      t .idle).cutting i + (if src = i then 1 else 0) = s.cutting i := by
    intro i
    have hSum := cutting_setPhase (s := s.dirunlink oldDir name) (p := .idle) (i := i) ht
    have hOld : ((s.dirunlink oldDir name).phase t).cuts i = if src = i then 1 else 0 := by
      show (s.phase t).cuts i = _
      rw [hPhase]
      rfl
    rw [hOld] at hSum
    exact hSum
  have hGood : ∀ i, Good s i → Good (s.dirunlink oldDir name) i :=
    fun i hi => hi.dirunlink hLink hEmpty hNotDir
  refine ⟨hTree.shape (hInv.shape.unlink hLink hEmpty),
    fun u hu => hTree.good (hGood _ (hInv.cwd u hu)),
    phaseOk_setPhase (s := s.dirunlink oldDir name)
      (fun u hu => (hInv.phase u hu).dirunlink hLink hEmpty hNotDir) PhaseOk.idle, ?_, ?_⟩
  · intro i x hx
    have hSum := load_setPhase (s := s.dirunlink oldDir name) (p := .idle) (i := i) ht
    have hNone : Phase.idle.owes i = 0 := rfl
    have hLoad := load_dirunlink (i := i) hLink
    have hCount := hInv.count i x hx
    have hCut := hCutting i
    have hNoSub : ¬ (oldDir = i ∧ s.isDir src = true) := fun h => hNotDir h.2
    rw [if_neg hNoSub] at hLoad
    rw [hNone] at hSum
    omega
  · intro i hMade
    have hOld := hInv.made i hMade
    have hNames := names_dirunlink (i := i) hLink
    have hCut := hCutting i
    rw [names_congr hTree.links]
    omega

theorem Inv.stepCut (hInv : Inv s) (ht : t < s.nproc) (hOk : s.ok (.cut t))
    (hStep : s.stepCut t = some s') : Inv s' := by
  have hPhaseOk := hInv.phase t ht
  unfold Sys.stepCut at hStep
  split at hStep
  swap
  · cases hStep
  rename_i src oldDir oldName hPhase
  rw [hPhase] at hPhaseOk
  simp only [Sys.ok, hPhase] at hOk
  dsimp only at hStep
  rw [hOk] at hStep
  obtain rfl := Option.some.inj hStep
  exact hInv.cut ht hPhase (lookup_of_finds hOk) (hPhaseOk.files src List.mem_cons_self)

end NameTree

end PlayXv6
