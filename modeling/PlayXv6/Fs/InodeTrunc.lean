import PlayXv6.Fs.InodeData

/-
  Truncating a file.

  `itrunc_to` cuts the tree at a number of blocks, in three
  steps: the direct blocks, the single-indirect block, the
  double-indirect tree.  Each step empties the places of its
  family that lie at or beyond the cut and gives their blocks
  back.

  Main declarations:
    * `ILoc.giveAll`, `Cut`
    * `wp_itruncTo`
-/

namespace PlayXv6

open Function Rules

-- Giving Back Lists of Blocks

def ILoc.giveAll (v : ILoc) (bs : List Nat) : ILoc :=
  { v with
    heap := fun b => if b ∈ bs then none else v.heap b
    free := v.free.map fun F => F ∪ bs.toFinset }

namespace ILoc

theorem giveAll_trunc {v : ILoc} {bs : List Nat} (hTrunc : v.trunc = true) :
    (v.giveAll bs).trunc = true := hTrunc

@[simp] theorem giveAll_nil (v : ILoc) : v.giveAll [] = v := by
  cases v with
  | mk st dino heap free trunc => cases free <;> simp [giveAll]

theorem giveAll_cons (v : ILoc) (b : Nat) (bs : List Nat) :
    (v.give b).giveAll bs = v.giveAll (b :: bs) := by
  unfold give giveAll
  congr 1
  · funext c
    grind [update_apply]
  · cases v.free with
    | none => rfl
    | some F =>
      simp only [Option.map_some, Option.some.injEq]
      ext c
      simp

theorem giveAll_append (v : ILoc) (bs cs : List Nat) :
    (v.giveAll bs).giveAll cs = v.giveAll (bs ++ cs) := by
  unfold giveAll
  congr 1
  · funext c
    grind
  · cases v.free with
    | none => rfl
    | some F => simp [Finset.union_assoc]

theorem giveAll_heap_of_notMem {v : ILoc} {bs : List Nat} {b : Nat} (hNot : b ∉ bs) :
    (v.giveAll bs).heap b = v.heap b := by simp [giveAll, hNot]

end ILoc

variable {blk : Block} {lo ind : Nat}

variable {sb : Superblock} {i : Nat} {v : ILoc} {Q : Unit → ILoc → Prop}

/- During truncation nothing is asked of the tree. -/
theorem ILoc.ok_of_trunc (hTrunc : v.trunc = true) :
    v.Ok := by
  intro hFalse
  rw [hTrunc] at hFalse
  exact absurd hFalse (by simp)

theorem wp_bfree_last {b : Nat} (hTrunc : v.trunc = true) (hOwn : v.heap b ≠ none)
    (hQ : Q () (v.give b)) : (inodeRules sb i).wp (bfree sb b) Q v :=
  ⟨b, rfl, rfl, hOwn, ILoc.ok_of_trunc hTrunc, hQ⟩

theorem wp_freeList {bs : List Nat} (hTrunc : v.trunc = true) (hNodup : bs.Nodup)
    (hOwn : ∀ b ∈ bs, v.heap b ≠ none) (hQ : Q () (v.giveAll bs)) :
    (inodeRules sb i).wp (Prog.forEach bs (bfree sb)) Q v := by
  induction bs generalizing v with
  | nil => simpa using hQ
  | cons b bs ih =>
    rcases List.nodup_cons.mp hNodup with ⟨hNot, hRest⟩
    rw [Prog.forEach_cons]
    apply wp_bind.mpr
    apply wp_bfree_last hTrunc (hOwn b List.mem_cons_self)
    refine ih (v := v.give b) hTrunc hRest ?_ ?_
    · intro c hc
      have hNe : c ≠ b := by
        intro hEq
        exact hNot (hEq ▸ hc)
      simpa [ILoc.give, hNe] using hOwn c (List.mem_cons_of_mem _ hc)
    · rw [ILoc.giveAll_cons]
      exact hQ

/- The body of the loops that free the entries of a block. -/
theorem wp_freeEntriesLoop (js : List Nat) (hTrunc : v.trunc = true)
    (hBlk : v.heap ind = some blk) (hNot : ind ∉ (js.map fun j => blk.u32At (j * 4)).filter (· ≠ 0))
    (hNodup : ((js.map fun j => blk.u32At (j * 4)).filter (· ≠ 0)).Nodup) (hOwn : ∀ b ∈
      (js.map fun j => blk.u32At (j * 4)).filter (· ≠ 0), v.heap b ≠ none) (hQ : Q () (v.giveAll
      ((js.map fun j => blk.u32At (j * 4)).filter (· ≠ 0)))) : (inodeRules sb i).wp
      (Prog.forEach js fun j => do
        let buf ← call (.bread ind)
        let b := buf.u32At (j * 4)
        if b ≠ 0 then
          bfree sb b) Q v := by
  induction js generalizing v with
  | nil => simpa using hQ
  | cons j js ih =>
    rw [Prog.forEach_cons]
    apply wp_bind.mpr
    apply wp_bread hBlk
    dsimp only
    by_cases hb : blk.u32At (j * 4) = 0
    · rw [if_neg (not_not.mpr hb)]
      simp only [List.map_cons, hb, ne_eq, not_true_eq_false, decide_false, Bool.false_eq_true,
        not_false_eq_true, List.filter_cons_of_neg] at hNot hNodup hOwn hQ
      exact ih hTrunc hBlk hNot hNodup hOwn hQ
    · rw [if_pos hb]
      simp only [List.map_cons, ne_eq, hb, not_false_eq_true, decide_true, List.filter_cons_of_pos,
        List.mem_cons, not_or, List.nodup_cons, forall_eq_or_imp] at hNot hNodup hOwn hQ
      apply wp_bfree_last hTrunc hOwn.1
      refine ih (v := v.give (blk.u32At (j * 4))) hTrunc ?_ ?_ ?_ ?_ ?_
      · simpa [ILoc.give, hNot.1] using hBlk
      · exact hNot.2
      · exact hNodup.2
      · intro c hc
        have hNe : c ≠ blk.u32At (j * 4) := by
          intro hEq
          rw [hEq] at hc
          exact hNodup.1 hc
        simpa [ILoc.give, hNe] using hOwn.2 c hc
      · rw [ILoc.giveAll_cons]
        exact hQ

theorem wp_freeEntries (hTrunc : v.trunc = true)
    (hBlk : v.heap ind = some blk) (hNot : ind ∉ entriesFrom blk 0)
    (hNodup : (entriesFrom blk 0).Nodup) (hOwn : ∀ b ∈ entriesFrom blk 0, v.heap b ≠ none)
    (hQ : Q () (v.giveAll (entriesFrom blk 0))) :
    (inodeRules sb i).wp (freeEntries sb ind) Q v := by
  have hList : entriesFrom blk 0 = ((List.range NINDIRECT).map
        fun j => blk.u32At (j * 4)).filter (· ≠ 0) := by
    rw [List.range_eq_range']
    rfl
  rw [hList] at hNot hNodup hOwn hQ
  exact wp_freeEntriesLoop (List.range NINDIRECT) hTrunc hBlk hNot hNodup hOwn hQ

theorem wp_trimEntries (hTrunc : v.trunc = true)
    (hBlk : v.heap ind = some blk) (hNodup : (entriesFrom blk lo).Nodup)
    (hOwn : ∀ b ∈ entriesFrom blk lo, v.heap b ≠ none)
    (hQ : Q () ((v.put ind (zeroEntries lo blk)).giveAll (entriesFrom blk lo))) :
    (inodeRules sb i).wp (trimEntries sb ind lo) Q v := by
  unfold trimEntries
  apply wp_bread hBlk
  apply wp_logWrite hBlk (ILoc.ok_of_trunc hTrunc)
  refine wp_freeList (v := v.put ind (zeroEntries lo blk)) hTrunc hNodup ?_ ?_
  · intro b hb
    by_cases hEq : b = ind
    · simp [ILoc.put, hEq]
    · simpa [ILoc.put, hEq] using hOwn b hb
  · exact hQ

/- A block under the root with everything it holds. -/
def leafBlocks (h : Heap) (l : Nat) : List Nat :=
  (h l).elim [] (fun blk => entriesFrom blk 0) ++ [l]

theorem leafBlocks_congr {h h' : Heap} {l : Nat} (hEq : h' l = h l) :
    leafBlocks h' l = leafBlocks h l := by
  unfold leafBlocks
  rw [hEq]

theorem wp_freeLeaves {leaves : List Nat} (hTrunc : v.trunc = true)
    (hNodup : (leaves.flatMap (leafBlocks v.heap)).Nodup)
    (hOwn : ∀ b ∈ leaves.flatMap (leafBlocks v.heap), v.heap b ≠ none) (hQ : Q ()
      (v.giveAll (leaves.flatMap (leafBlocks v.heap)))) :
    (inodeRules sb i).wp (freeLeaves sb leaves) Q v := by
  induction leaves generalizing v with
  | nil => simpa [freeLeaves] using hQ
  | cons l leaves ih =>
    have hMem : ∀ l', l' ∈ leafBlocks v.heap l' := by
      intro l'
      simp [leafBlocks]
    rw [List.flatMap_cons] at hNodup hOwn hQ
    rcases List.nodup_append.mp hNodup with ⟨hFirst, hRest, hDisj⟩
    have hOwnL : v.heap l ≠ none := hOwn l (List.mem_append_left _ (hMem l))
    rcases Option.ne_none_iff_exists'.mp hOwnL with ⟨blk, hBlk⟩
    have hBlocks : leafBlocks v.heap l = entriesFrom blk 0 ++ [l] := by simp [leafBlocks, hBlk]
    rw [hBlocks] at hFirst
    rcases List.nodup_append.mp hFirst with ⟨hEntries, _, hNotL⟩
    have hNotL' : l ∉ entriesFrom blk 0 := by
      intro hl
      exact hNotL l hl l List.mem_cons_self rfl
    -- the leaves still to come are not among those freed
    have hKeep : ∀ b ∈ leaves.flatMap (leafBlocks v.heap),
        (v.giveAll (leafBlocks v.heap l)).heap b = v.heap b := by
      intro b hb
      apply ILoc.giveAll_heap_of_notMem
      intro hb'
      exact hDisj b hb' b hb rfl
    have hSame : leaves.flatMap (leafBlocks (v.giveAll (leafBlocks v.heap l)).heap) =
        leaves.flatMap (leafBlocks v.heap) := by
      apply List.flatMap_congr
      intro l' hl'
      apply leafBlocks_congr
      exact hKeep l' (List.mem_flatMap.mpr ⟨l', hl', hMem l'⟩)
    unfold freeLeaves
    rw [Prog.forEach_cons]
    apply wp_bind.mpr
    apply wp_bind.mpr
    apply wp_freeEntries hTrunc hBlk hNotL' hEntries
    · intro b hb
      apply hOwn
      rw [hBlocks]
      simp [hb]
    · refine wp_bfree_last (v := v.giveAll (entriesFrom blk 0)) (ILoc.giveAll_trunc hTrunc) ?_ ?_
      · rwa [ILoc.giveAll_heap_of_notMem hNotL']
      · have hStep : (v.giveAll (entriesFrom blk 0)).give l = v.giveAll (leafBlocks v.heap l) := by
          rw [hBlocks, ← ILoc.giveAll_append, ← ILoc.giveAll_cons, ILoc.giveAll_nil]
        rw [hStep]
        refine ih (v := v.giveAll (leafBlocks v.heap l)) (ILoc.giveAll_trunc hTrunc) ?_ ?_ ?_
        · rwa [hSame]
        · intro b hb
          rw [hSame] at hb
          rw [hKeep b hb]
          exact hOwn b (List.mem_append_right _ hb)
        · rw [hSame, ILoc.giveAll_append]
          exact hQ

theorem mem_entriesFrom {b : Nat} : b ∈ entriesFrom blk lo ↔
      b ≠ 0 ∧ ∃ j, lo ≤ j ∧ j < NINDIRECT ∧ blk.u32At (j * 4) = b := by
  unfold entriesFrom
  simp only [List.mem_filter, List.mem_map, List.mem_range'_1, decide_eq_true_eq]
  constructor
  · rintro ⟨⟨j, hj, hb⟩, hNe⟩
    exact ⟨hNe, j, hj.1, by omega, hb⟩
  · rintro ⟨hNe, j, hLo, hHi, hb⟩
    exact ⟨⟨j, ⟨hLo, by omega⟩, hb⟩, hNe⟩

theorem nodup_entriesFrom (lo : Nat) (hInj : ∀ j k, blk.u32At (j * 4) ≠ 0 →
      blk.u32At (j * 4) = blk.u32At (k * 4) → j = k) : (entriesFrom blk lo).Nodup := by
  unfold entriesFrom
  unfold List.Nodup
  rw [List.pairwise_filter, List.pairwise_map]
  refine List.Pairwise.imp ?_ List.nodup_range'
  intro j k hNe hj _ hEq
  exact hNe (hInj j k (by simpa using hj) hEq)

theorem u32At_foldl_zero (js : List Nat) (blk : Block) {k : Nat} (hk : k < NINDIRECT) : (js.foldl
      (fun data j => if data.u32At (j * 4) ≠ 0 then data.putU32 (j * 4) 0
        else data) blk).u32At (k * 4) = if k ∈ js then 0 else blk.u32At (k * 4) := by
  have hFit : k * 4 + 4 ≤ BSIZE := by
    have hLt : k < 128 := hk
    show k * 4 + 4 ≤ 512
    omega
  induction js generalizing blk with
  | nil => simp
  | cons j js ih =>
    rw [List.foldl_cons, ih]
    by_cases hMem : k ∈ js
    · simp [hMem]
    · by_cases hkj : k = j
      · subst hkj
        by_cases hZero : blk.u32At (k * 4) = 0
        · simp [hZero]
        · simp [hMem, hZero, Bytes.u32At_putU32 hFit]
      · simp only [hMem, hkj, List.mem_cons, or_self, if_false]
        split
        · rw [Bytes.u32At_putU32_disjoint]
          omega
        · rfl

theorem u32At_zeroEntries (lo : Nat) (blk : Block) (k : Nat) : (zeroEntries lo blk).u32At (k * 4) =
      if lo ≤ k then 0 else blk.u32At (k * 4) := by
  by_cases hk : k < NINDIRECT
  · unfold zeroEntries
    rw [u32At_foldl_zero _ _ hk]
    congr 1
    rw [List.mem_range'_1]
    apply propext
    omega
  · have hOut : BSIZE ≤ k * 4 := by
      have hLe : 128 ≤ k := Nat.le_of_not_lt hk
      show 512 ≤ k * 4
      omega
    rw [Bytes.u32At_of_le hOut, Bytes.u32At_of_le hOut]
    simp

-- Cutting a Tree

/-
  The tree `a'` in `v'` is the tree `a` in `v` without the
  places in `G`, whose blocks have been given back.
-/
structure Cut (G : Place → Bool) (a : Addrs) (v : ILoc) (a' : Addrs) (v' : ILoc) : Prop where
  protected ptr : ∀ p, ptr a' v'.heap p = if G p then 0 else ptr a v.heap p
  heap : ∀ b, v'.heap b = none ↔ v.heap b = none ∨ b ≠ 0 ∧ ∃ p, G p ∧ PlayXv6.ptr a v.heap p = b
  data : ∀ p, p.isNode = false → PlayXv6.ptr a' v'.heap p ≠ 0 → v'.heap (PlayXv6.ptr a v.heap p) =
        v.heap (PlayXv6.ptr a v.heap p)
  st : v'.st = v.st
  dino : v'.dino = v.dino
  trunc : v'.trunc = v.trunc
  free : ∀ F, v.free = some F → ∃ F', v'.free = some F' ∧
    ∀ b, b ∈ F' ↔ b ∈ F ∨ v.heap b ≠ none ∧ v'.heap b = none
  unknown : v.free = none → v'.free = none

variable {G G' : Place → Bool} {a a' a'' : Addrs} {v' v'' : ILoc}

theorem Cut.refl (hEmpty : ∀ p, G p → ptr a v.heap p = 0) : Cut G a v a v where
  ptr := fun p => by grind
  heap := fun b => by grind
  data := fun _ _ _ => rfl
  st := rfl
  dino := rfl
  trunc := rfl
  free := fun F hF => ⟨F, hF, fun b => by grind⟩
  unknown := fun hF => hF

theorem Cut.tree (hCut : Cut G a v a' v') (hTree : Tree a v.heap) : Tree a' v'.heap := by
  have hPtr := hCut.ptr
  have hInj := hTree.inj
  constructor
  · intro p hNe hNone
    have hOwned := hTree.owned p
    -- a block given back was at a place that is cut
    rcases (hCut.heap _).mp hNone with hNone' | ⟨_, q, hq, hEq⟩
    · grind
    · grind
  · intro p q hNe hEq
    grind

theorem Cut.trans (hFirst : Cut G a v a' v') (hThen : Cut G' a' v' a'' v'') :
    Cut (fun p => G p || G' p) a v a'' v'' where
  ptr := by
    intro p
    rw [hThen.ptr, hFirst.ptr]
    grind
  heap := by
    intro b
    have hPtr := hFirst.ptr
    rw [hThen.heap, hFirst.heap]
    grind
  data := by
    intro p hData hNe
    have hMid := hFirst.data p hData
    have hLast := hThen.data p hData
    have hPtr := hFirst.ptr p
    have hPtr' := hThen.ptr p
    grind
  st := hThen.st.trans hFirst.st
  dino := hThen.dino.trans hFirst.dino
  trunc := hThen.trunc.trans hFirst.trunc
  free := by
    intro F hF
    rcases hFirst.free F hF with ⟨F', hF', hMem⟩
    rcases hThen.free F' hF' with ⟨F'', hF'', hMem'⟩
    refine ⟨F'', hF'', ?_⟩
    intro b
    have hGone : v'.heap b = none → v''.heap b = none :=
      fun hNone => (hThen.heap b).mpr (Or.inl hNone)
    have hGone' : v.heap b = none → v'.heap b = none :=
      fun hNone => (hFirst.heap b).mpr (Or.inl hNone)
    rw [hMem', hMem]
    tauto
  unknown := fun hF => hThen.unknown (hFirst.unknown hF)

/- Only the places that hold a block matter. -/
theorem Cut.congr (hCut : Cut G a v a' v') (hSame : ∀ p, ptr a v.heap p ≠ 0 → G p = G' p) :
    Cut G' a v a' v' where
  ptr := by
    intro p
    rw [hCut.ptr]
    grind
  heap := by
    intro b
    rw [hCut.heap]
    grind
  data := hCut.data
  st := hCut.st
  dino := hCut.dino
  trunc := hCut.trunc
  free := hCut.free
  unknown := hCut.unknown

/- The cut made by rewriting indirect blocks and giving back a list of blocks. -/
theorem Cut.of_giveAll (hTree : Tree a v.heap) {v₂ : ILoc} {bs : List Nat} (hSt : v₂.st = v.st)
    (hDino : v₂.dino = v.dino) (hTrunc : v₂.trunc = v.trunc) (hFree : v₂.free = v.free)
    (hDom : ∀ b, v₂.heap b = none ↔ v.heap b = none) (hData : ∀ p, p.isNode = false →
      ptr a v.heap p ≠ 0 → v₂.heap (ptr a v.heap p) =
          v.heap (ptr a v.heap p)) (hMem : ∀ b, b ∈ bs ↔
      b ≠ 0 ∧ ∃ p, G p ∧ ptr a v.heap p = b)
    (hPtr : ∀ p, ptr a' (v₂.giveAll bs).heap p =
      if G p then 0 else ptr a v.heap p) : Cut G a v a' (v₂.giveAll bs) := by
  have hHeap : ∀ b, (v₂.giveAll bs).heap b = none ↔ v.heap b = none ∨ b ∈ bs := by
    intro b
    rw [← hDom b]
    grind [ILoc.giveAll]
  have hInj := hTree.inj
  refine
    { ptr := hPtr
      heap := ?_
      data := ?_
      st := hSt
      dino := hDino
      trunc := hTrunc
      free := ?_
      unknown := ?_ }
  · intro b
    rw [hHeap, hMem]
  · intro p hNode hNe
    have hKept := hData p hNode
    rw [hPtr] at hNe
    rw [ILoc.giveAll_heap_of_notMem]
    · grind
    · grind
  · intro F hF
    refine ⟨F ∪ bs.toFinset, by simp [ILoc.giveAll, hFree, hF], ?_⟩
    intro b
    have hOwned := hTree.owned
    rw [Finset.mem_union, List.mem_toFinset, hHeap]
    grind
  · intro hF
    simp [ILoc.giveAll, hFree, hF]

theorem entry_kept (hTree : Tree a v.heap) {w : ILoc} {bs : List Nat}
    (hMem : ∀ b, b ∈ bs ↔ b ≠ 0 ∧ ∃ p, G p ∧ ptr a v.heap p = b) {q : Place} (hKept : G q = false)
    (hSame : w.heap (ptr a v.heap q) = v.heap (ptr a v.heap q)) (j : Nat) :
    entry (w.giveAll bs).heap (ptr a v.heap q) j = entry v.heap (ptr a v.heap q) j := by
  apply entry_congr
  intro hNe
  rw [ILoc.giveAll_heap_of_notMem, hSame]
  intro hIn
  rcases (hMem _).mp hIn with ⟨_, p, hp, hEq⟩
  rw [← hTree.inj _ _ hNe hEq.symm, hKept] at hp
  cases hp

theorem put_none {b : Nat} {blk : Block} (hBlk : v.heap b = some blk) (blk' : Block) (c : Nat) :
    (v.put b blk').heap c = none ↔ v.heap c = none := by
  simp only [ILoc.put, update_apply]
  grind

theorem put_other (hTree : Tree a v.heap) {p q : Place} (hNe : ptr a v.heap p ≠ 0) (hDiff : p ≠ q)
    (blk : Block) : (v.put (ptr a v.heap q) blk).heap (ptr a v.heap p) = v.heap (ptr a v.heap p) :=
  update_of_ne (fun hEq => hDiff (hTree.inj _ _ hNe hEq)) ..

variable {q : Place}

theorem Place.child_injective (hNode : q.isNode) {j k : Nat}
    (hEq : q.child j = q.child k) : j = k := by cases q <;> simp_all [Place.child, Place.isNode]

theorem Place.child_ne_self (hNode : q.isNode) (j : Nat) : q.child j ≠ q := by
  cases q <;> simp_all [Place.child, Place.isNode]

variable {h : Heap}

theorem ptr_child_of_some (hNode : q.isNode) (hNe : ptr a h q ≠ 0) (hBlk : h (ptr a h q) = some blk)
    (j : Nat) : ptr a h (q.child j) = blk.u32At (j * 4) := by
  rw [ptr_child hNode]
  exact entry_of_some hNe hBlk

theorem mem_entriesFrom_node (hNode : q.isNode) (hNe : ptr a h q ≠ 0)
    (hBlk : h (ptr a h q) = some blk) {b : Nat} : b ∈ entriesFrom blk lo ↔
      b ≠ 0 ∧ ∃ j, lo ≤ j ∧ ptr a h (q.child j) = b := by
  rw [mem_entriesFrom]
  constructor
  · rintro ⟨hb, j, hLo, _, hj⟩
    exact ⟨hb, j, hLo, (ptr_child_of_some hNode hNe hBlk j).trans hj⟩
  · rintro ⟨hb, j, hLo, hj⟩
    refine ⟨hb, j, hLo, ?_, ?_⟩
    · by_contra hOut
      have hZero : ptr a h (q.child j) = 0 := by
        rw [ptr_child hNode]
        exact entry_of_le (Nat.le_of_not_lt hOut)
      exact hb (hj.symm.trans hZero)
    · rw [← ptr_child_of_some hNode hNe hBlk j]
      exact hj

theorem Tree.nodup_entries (hTree : Tree a h) (hNode : q.isNode) (hNe : ptr a h q ≠ 0)
    (hBlk : h (ptr a h q) = some blk) (lo : Nat) : (entriesFrom blk lo).Nodup := by
  apply nodup_entriesFrom
  intro j k hj hEq
  rw [← ptr_child_of_some hNode hNe hBlk] at hj hEq
  rw [← ptr_child_of_some hNode hNe hBlk] at hEq
  exact Place.child_injective hNode (hTree.inj _ _ hj hEq)

theorem Tree.owned_entries (hTree : Tree a h) (hNode : q.isNode) (hNe : ptr a h q ≠ 0)
    (hBlk : h (ptr a h q) = some blk) {b : Nat} (hMem : b ∈ entriesFrom blk lo) : h b ≠ none := by
  rcases (mem_entriesFrom_node hNode hNe hBlk).mp hMem with ⟨hb, j, _, rfl⟩
  exact hTree.owned _ hb

theorem Tree.self_notMem_entries (hTree : Tree a h) (hNode : q.isNode) (hNe : ptr a h q ≠ 0)
    (hBlk : h (ptr a h q) = some blk) (lo : Nat) : ptr a h q ∉ entriesFrom blk lo := by
  intro hMem
  rcases (mem_entriesFrom_node hNode hNe hBlk).mp hMem with ⟨_, j, _, hEq⟩
  exact Place.child_ne_self hNode j (hTree.inj q _ hNe hEq.symm).symm

/-
  The cut made by clearing the entries from `lo` on of one
  indirect block, with the blocks of all places below them.
-/
theorem Cut.prune (hTree : Tree a v.heap) {bs : List Nat} (hNode : q.isNode)
    (hNe : ptr a v.heap q ≠ 0) (hBlk : v.heap (ptr a v.heap q) = some blk)
    (hMem : ∀ b, b ∈ bs ↔ b ≠ 0 ∧ ∃ p, G p ∧ ptr a v.heap p = b)
    (hRoots : ∀ k, G (.direct k) = false ∧ G .single = false ∧ G .double = false)
    (hSelf : G q = false) (hChild : ∀ j, G (q.child j) = decide (lo ≤ j))
    (hBelow : ∀ q' j, q'.isNode → q' ≠ q → G (q'.child j) = G q') :
    Cut G a v a ((v.put (ptr a v.heap q) (zeroEntries lo blk)).giveAll bs) := by
  refine Cut.of_giveAll hTree rfl rfl rfl rfl (put_none hBlk _) ?_ hMem ?_
  · intro p hData hp
    exact put_other hTree hp (by grind) _
  · generalize hv' : (v.put (ptr a v.heap q) (zeroEntries lo blk)).giveAll bs = v'
    have hAt : v'.heap (ptr a v.heap q) = some (zeroEntries lo blk) := by
      rw [← hv', ILoc.giveAll_heap_of_notMem]
      · exact update_self ..
      · have hInj := hTree.inj
        grind
    -- the other indirect blocks that are kept are as before
    have hEntry : ∀ q' j, q'.isNode → G q' = false → entry v'.heap (ptr a v.heap q') j =
        if G (q'.child j) then 0 else ptr a v.heap (q'.child j) := by
      intro q' j hNode' hKept
      rw [ptr_child hNode']
      by_cases hEq : q' = q
      · subst hEq
        rw [entry_of_some hNe hAt, entry_of_some hNe hBlk, u32At_zeroEntries, hChild]
        simp
      · rw [hBelow q' j hNode' hEq, hKept, ← hv']
        by_cases hZero : ptr a v.heap q' = 0
        · rw [hZero, entry_zero, entry_zero]
          rfl
        · exact entry_kept hTree hMem hKept (put_other hTree hZero hEq _) j
    have hStep : ∀ q' j, q'.isNode → (ptr a v'.heap q' = if G q' then 0 else ptr a v.heap q') →
        ptr a v'.heap (q'.child j) = if G (q'.child j) then 0 else ptr a v.heap (q'.child j) := by
      intro q' j hNode' hPtr
      rw [ptr_child hNode', hPtr]
      cases hCut : G q' with
      | false => exact hEntry q' j hNode' hCut
      | true =>
        rw [hBelow q' j hNode' (by grind), hCut]
        exact entry_zero ..
    have hSingle : ptr a v'.heap .single = if G .single then 0 else ptr a v.heap .single := by
      simp [ptr, hRoots 0]
    have hDouble : ptr a v'.heap .double = if G .double then 0 else ptr a v.heap .double := by
      simp [ptr, hRoots 0]
    intro p
    cases p with
    | direct k => simp [ptr, hRoots k]
    | single => exact hSingle
    | double => exact hDouble
    | ind j => exact hStep .single j rfl hSingle
    | leaf j => exact hStep .double j rfl hDouble
    | inner j k => exact hStep (.leaf j) k rfl (hStep .double j rfl hDouble)

-- Step 1: Direct Blocks

variable {keep : Nat}

def directFrom (keep : Nat) (ks : List Nat) : Place → Bool
  | .direct k => decide (k ∈ ks ∧ keep ≤ k)
  | _ => false

theorem Cut.direct (hTree : Tree a v.heap) {k : Nat} (hk : k < NDIRECT) (hKeep : keep ≤ k)
    (hNe : a.get k ≠ 0) : Cut (directFrom keep [k]) a v (a.set k 0) (v.give (a.get k)) := by
  have hGive : v.give (a.get k) = v.giveAll [a.get k] := by
    rw [← ILoc.giveAll_cons, ILoc.giveAll_nil]
  have hPlace : ptr a v.heap (.direct k) = a.get k := by simp [ptr, hk]
  have hGet := fun j => Addrs.get_set (a := a) (k := k) (j := j) (b := 0) (by omega) (by omega)
  rw [hGive]
  refine Cut.of_giveAll hTree rfl rfl rfl rfl (fun _ => Iff.rfl) (fun _ _ _ => rfl) ?_ ?_
  · intro b
    rw [List.mem_singleton]
    constructor
    · rintro rfl
      exact ⟨hNe, .direct k, by simp [directFrom, hKeep], hPlace⟩
    · rintro ⟨_, p, hp, rfl⟩
      cases p <;> simp_all [directFrom]
  · intro p
    -- the indirect blocks are other blocks
    have hNodes : ∀ q, q.isNode → ptr a v.heap q ≠ 0 → (v.giveAll [a.get k]).heap
              (ptr a v.heap q) = v.heap (ptr a v.heap q) := by
      intro q hNode hq
      apply ILoc.giveAll_heap_of_notMem
      rw [List.mem_singleton, ← hPlace]
      intro hEq
      have hSame := hTree.inj _ _ hq hEq
      rw [hSame] at hNode
      simp [Place.isNode] at hNode
    have hSame := ptr_congr hNodes p
    cases p <;> grind [ptr, directFrom]

theorem wp_truncDirect (ks : List Nat) (hks : ∀ k ∈ ks, k < NDIRECT)
    (hTrunc : v.trunc = true) (hTree : Tree a v.heap) :
    (inodeRules sb i).wp (truncDirect sb keep ks a)
      (fun a' v' => Cut (directFrom keep ks) a v a' v') v := by
  induction ks generalizing a v with
  | nil =>
    apply Cut.refl
    intro p hp
    cases p <;> simp [directFrom] at hp
  | cons k ks ih =>
    have hJoin : ∀ p, (directFrom keep [k] p || directFrom keep ks p) =
          directFrom keep (k :: ks) p := by
      intro p
      cases p <;> simp [directFrom]
      grind
    have hRest : ∀ k' ∈ ks, k' < NDIRECT := fun k' hk' => hks k' (List.mem_cons_of_mem _ hk')
    have hk := hks k List.mem_cons_self
    unfold truncDirect
    split
    · rename_i hFree
      have hCut := Cut.direct hTree hk hFree.1 hFree.2
      have hOwn : v.heap (a.get k) ≠ none := by
        have hAt := hTree.owned (.direct k)
        simp only [ptr, hk, if_true] at hAt
        exact hAt hFree.2
      refine wp_bind.mpr (wp_bfree_last hTrunc hOwn ?_)
      refine wp_mono ?_ (ih hRest (hCut.trunc.trans hTrunc) (hCut.tree hTree))
      intro a' v' hCut'
      exact (hCut.trans hCut').congr fun p _ => hJoin p
    · rename_i hSkip
      refine wp_mono ?_ (ih hRest hTrunc hTree)
      intro a' v' hCut'
      have hNone : Cut (directFrom keep [k]) a v a v := by
        apply Cut.refl
        intro p hp
        cases p <;> simp [directFrom] at hp
        rcases hp with ⟨rfl, hKeep⟩
        simp only [ptr, hk, if_true]
        by_contra hNe
        exact hSkip ⟨hKeep, hNe⟩
      exact (hNone.trans hCut').congr fun p _ => hJoin p

-- Step 2: The Single-Indirect Block

def childrenFrom : Place → Nat → Place → Bool
  | .single, lo, .ind j => decide (lo ≤ j)
  | .leaf i, lo, .inner i' j => decide (i' = i ∧ lo ≤ j)
  | _, _, _ => false

def singleFrom (keep : Nat) : Place → Bool
  | .single => decide (keep ≤ NDIRECT)
  | .ind j => decide (keep ≤ NDIRECT + j)
  | _ => false

theorem childrenFrom_iff {p : Place} (hq : q = .single ∨ ∃ i, q = .leaf i) (lo : Nat) :
    childrenFrom q lo p ↔ ∃ j, lo ≤ j ∧ p = q.child j := by
  rcases hq with rfl | ⟨i, rfl⟩
  · cases p <;> simp [childrenFrom, Place.child]
  · cases p <;> simp [childrenFrom, Place.child]
    grind

/- Cutting off a block whose entries are data blocks. -/
theorem Cut.trim (hTree : Tree a v.heap) (hq : q = .single ∨ ∃ i, q = .leaf i)
    (hNe : ptr a v.heap q ≠ 0) (hBlk : v.heap (ptr a v.heap q) = some blk) (lo : Nat) :
    Cut (childrenFrom q lo) a v a
      ((v.put (ptr a v.heap q) (zeroEntries lo blk)).giveAll (entriesFrom blk lo)) := by
  have hNode : q.isNode := by rcases hq with rfl | ⟨i, rfl⟩ <;> rfl
  have hMem : ∀ b, b ∈ entriesFrom blk lo ↔ b ≠ 0 ∧ ∃ p, childrenFrom q lo p ∧
        ptr a v.heap p = b := by
    intro b
    rw [mem_entriesFrom_node hNode hNe hBlk]
    simp only [childrenFrom_iff hq]
    grind
  refine .prune hTree hNode hNe hBlk hMem ?_ ?_ ?_ ?_
  · intro k
    rcases hq with rfl | ⟨i, rfl⟩ <;> simp [childrenFrom]
  · rcases hq with rfl | ⟨i, rfl⟩ <;> rfl
  · intro j
    rcases hq with rfl | ⟨i, rfl⟩ <;> simp [childrenFrom, Place.child]
  · intro q' j hNode' hDiff
    rcases hq with rfl | ⟨i, rfl⟩ <;> cases q'
    all_goals simp_all [childrenFrom, Place.child, Place.isNode]

theorem wp_trim (hTrunc : v.trunc = true) (hTree : Tree a v.heap)
    (hq : q = .single ∨ ∃ i, q = .leaf i) (hNe : ptr a v.heap q ≠ 0) (lo : Nat) :
    (inodeRules sb i).wp (trimEntries sb (ptr a v.heap q) lo)
      (fun _ v' => Cut (childrenFrom q lo) a v a v') v := by
  have hNode : q.isNode := by rcases hq with rfl | ⟨i, rfl⟩ <;> rfl
  rcases Option.ne_none_iff_exists'.mp (hTree.owned q hNe) with ⟨blk, hBlk⟩
  apply wp_trimEntries hTrunc hBlk
  · exact hTree.nodup_entries hNode hNe hBlk lo
  · intro b hb
    exact hTree.owned_entries hNode hNe hBlk hb
  · exact Cut.trim hTree hq hNe hBlk lo

theorem Cut.freeSingle (hTree : Tree a v.heap) (hNe : ptr a v.heap .single ≠ 0) (hBlk :
      v.heap (ptr a v.heap .single) = some blk) : Cut (singleFrom 0) a v (a.set NDIRECT 0)
      (v.giveAll (entriesFrom blk 0 ++ [ptr a v.heap .single])) := by
  have hMem : ∀ b, b ∈ entriesFrom blk 0 ↔ b ≠ 0 ∧ ∃ j, 0 ≤ j ∧ ptr a v.heap (.ind j) = b :=
    fun b => mem_entriesFrom_node (q := .single) rfl hNe hBlk
  have hGet := fun j => Addrs.get_set (a := a) (k := NDIRECT)
    (j := j) (b := 0) (by omega) (by omega)
  have hAll : ∀ b, b ∈ entriesFrom blk 0 ++ [ptr a v.heap .single] ↔
      b ≠ 0 ∧ ∃ p, singleFrom 0 p ∧ ptr a v.heap p = b := by
    intro b
    rw [List.mem_append, List.mem_singleton, hMem]
    constructor
    · rintro (⟨hb, j, _, hj⟩ | rfl)
      · exact ⟨hb, .ind j, by simp [singleFrom], hj⟩
      · exact ⟨hNe, .single, by simp [singleFrom], rfl⟩
    · rintro ⟨hb, p, hp, rfl⟩
      cases p with
      | single => exact Or.inr rfl
      | ind j => exact Or.inl ⟨hb, j, Nat.zero_le j, rfl⟩
      | _ => simp [singleFrom] at hp
  refine Cut.of_giveAll hTree rfl rfl rfl rfl (fun _ => Iff.rfl) (fun _ _ _ => rfl) hAll ?_
  intro p
  have hDouble := entry_kept (w := v) (q := .double) hTree hAll rfl rfl
  cases p with
  | inner i j =>
    have hLeaf := entry_kept (w := v) (q := .leaf i) hTree hAll rfl rfl
    grind [ptr, singleFrom]
  | _ => grind [ptr, singleFrom, entry_zero]

theorem wp_truncIndirect (hTrunc : v.trunc = true) (hTree : Tree a v.heap) :
    (inodeRules sb i).wp (truncIndirect sb keep a)
      (fun a' v' => Cut (singleFrom keep) a v a' v') v := by
  dsimp only [truncIndirect]
  split
  · rename_i hZero
    apply Cut.refl
    intro p hp
    cases p <;> simp_all [singleFrom, ptr]
  · rename_i hNe
    have hNe' : ptr a v.heap .single ≠ 0 := hNe
    rcases Option.ne_none_iff_exists'.mp (hTree.owned .single hNe') with ⟨blk, hBlk⟩
    have hSelf := hTree.self_notMem_entries rfl hNe' hBlk 0
    split
    · rename_i hAll
      have hLow : keep ≤ NDIRECT := by
        simp only [NINDIRECT, BSIZE] at hAll
        omega
      apply wp_bind.mpr
      apply wp_freeEntries hTrunc hBlk hSelf (hTree.nodup_entries rfl hNe' hBlk 0)
        fun b hb => hTree.owned_entries rfl hNe' hBlk hb
      refine wp_bind.mpr (wp_bfree_last (v := v.giveAll (entriesFrom blk 0))
        (ILoc.giveAll_trunc hTrunc) ?_ ?_)
      · show (v.giveAll _).heap (ptr a v.heap .single) ≠ none
        rw [ILoc.giveAll_heap_of_notMem hSelf, hBlk]
        simp
      · have hCut := Cut.freeSingle hTree hNe' hBlk
        rw [← ILoc.giveAll_append, ← ILoc.giveAll_cons, ILoc.giveAll_nil] at hCut
        apply hCut.congr
        intro p _
        cases p <;> simp [singleFrom, hLow]
        omega
    · rename_i hSome
      split
      · rename_i hPart
        have hLo : min (keep - NDIRECT) NINDIRECT = keep - NDIRECT := by omega
        rw [hLo] at hSome hPart ⊢
        refine wp_bind_of (wp_trim hTrunc hTree (Or.inl rfl) hNe' _) ?_
        intro _ v' hCut
        apply hCut.congr
        intro p hp
        cases p <;> simp [singleFrom, childrenFrom]
        all_goals omega
      · rename_i hFull
        apply Cut.refl
        intro p hp
        cases p with
        | single =>
          simp only [singleFrom, decide_eq_true_eq] at hp
          simp only [NINDIRECT, BSIZE] at hSome
          omega
        | ind j =>
          simp only [singleFrom, decide_eq_true_eq] at hp
          apply entry_of_le
          simp only [NINDIRECT, BSIZE] at hFull ⊢
          omega
        | _ => simp [singleFrom] at hp

-- Step 3: The Double-Indirect Tree

/- The leaves of the root from `lo` on, and their entries. -/
def leavesFrom (lo : Nat) : Place → Bool
  | .leaf j => decide (lo ≤ j)
  | .inner j _ => decide (lo ≤ j)
  | _ => false

def doubleFrom (keep : Nat) : Place → Bool
  | .double => decide (keep ≤ NDIRECT + NINDIRECT)
  | .leaf j => decide (keep ≤ NDIRECT + NINDIRECT + j * NINDIRECT)
  | .inner j k => decide (keep ≤ NDIRECT + NINDIRECT + j * NINDIRECT + k)
  | _ => false

section Leaves

theorem Tree.mem_leafBlocks (hTree : Tree a h) {j b : Nat} (hNe : ptr a h (.leaf j) ≠ 0) :
    b ∈ leafBlocks h (ptr a h (.leaf j)) ↔ (b ≠ 0 ∧ ∃ k, ptr a h (.inner j k) = b) ∨
        b = ptr a h (.leaf j) := by
  rcases Option.ne_none_iff_exists'.mp (hTree.owned _ hNe) with ⟨lblk, hBlk⟩
  have hMem : b ∈ entriesFrom lblk 0 ↔ b ≠ 0 ∧ ∃ k, 0 ≤ k ∧ ptr a h (.inner j k) = b :=
    mem_entriesFrom_node (q := .leaf j) rfl hNe hBlk
  simp only [leafBlocks, hBlk, Option.elim_some, List.mem_append, List.mem_singleton, hMem]
  simp

theorem Tree.nodup_leafBlocks (hTree : Tree a h) {j : Nat} (hNe : ptr a h (.leaf j) ≠ 0) :
    (leafBlocks h (ptr a h (.leaf j))).Nodup := by
  rcases Option.ne_none_iff_exists'.mp (hTree.owned _ hNe) with ⟨lblk, hBlk⟩
  have hSelf := hTree.self_notMem_entries rfl hNe hBlk 0
  have hNodup := hTree.nodup_entries rfl hNe hBlk 0
  simp only [leafBlocks, hBlk, Option.elim_some]
  apply List.Nodup.append hNodup (List.nodup_singleton _)
  simpa using hSelf

variable (hTree : Tree a h) (hRoot : ptr a h .double ≠ 0) (hBlk : h (ptr a h .double) = some blk)

include hTree hRoot hBlk

theorem Tree.mem_leaves {b : Nat} : b ∈ (entriesFrom blk lo).flatMap (leafBlocks h) ↔
      b ≠ 0 ∧ ∃ p, leavesFrom lo p ∧ ptr a h p = b := by
  have hMem : ∀ l, l ∈ entriesFrom blk lo ↔ l ≠ 0 ∧ ∃ j, lo ≤ j ∧ ptr a h (.leaf j) = l :=
    fun l => mem_entriesFrom_node (q := .double) rfl hRoot hBlk
  rw [List.mem_flatMap]
  constructor
  · rintro ⟨l, hl, hb⟩
    rcases (hMem l).mp hl with ⟨hNe, j, hj, rfl⟩
    rcases (hTree.mem_leafBlocks hNe).mp hb with ⟨hb0, k, hk⟩ | rfl
    · exact ⟨hb0, .inner j k, by simp [leavesFrom, hj], hk⟩
    · exact ⟨hNe, .leaf j, by simp [leavesFrom, hj], rfl⟩
  · rintro ⟨hb, p, hp, rfl⟩
    cases p with
    | leaf j =>
      refine ⟨_, (hMem _).mpr ⟨hb, j, ?_, rfl⟩, (hTree.mem_leafBlocks hb).mpr (Or.inr rfl)⟩
      simpa [leavesFrom] using hp
    | inner j k =>
      have hLeaf : ptr a h (.leaf j) ≠ 0 := by
        intro hZero
        apply hb
        show entry h (ptr a h (.leaf j)) k = 0
        rw [hZero, entry_zero]
      refine ⟨_, (hMem _).mpr ⟨hLeaf, j, ?_, rfl⟩, (hTree.mem_leafBlocks hLeaf).mpr
          (Or.inl ⟨hb, k, rfl⟩)⟩
      simpa [leavesFrom] using hp
    | _ => simp [leavesFrom] at hp

theorem Tree.nodup_leaves (lo : Nat) : ((entriesFrom blk lo).flatMap (leafBlocks h)).Nodup := by
  have hMem : ∀ l, l ∈ entriesFrom blk lo ↔ l ≠ 0 ∧ ∃ j, lo ≤ j ∧ ptr a h (.leaf j) = l :=
    fun l => mem_entriesFrom_node (q := .double) rfl hRoot hBlk
  rw [List.nodup_flatMap]
  constructor
  · intro l hl
    rcases (hMem l).mp hl with ⟨hNe, j, _, rfl⟩
    exact hTree.nodup_leafBlocks hNe
  · have hPairs := hTree.nodup_entries (q := .double) rfl hRoot hBlk lo
    refine List.Pairwise.imp_of_mem ?_ hPairs
    intro l l' hl hl' hDiff
    rcases (hMem l).mp hl with ⟨hNe, j, _, rfl⟩
    rcases (hMem l').mp hl' with ⟨hNe', j', _, rfl⟩
    intro b hb hb'
    -- a common block would be at two places
    have hInj := hTree.inj
    rcases (hTree.mem_leafBlocks hNe).mp hb with ⟨hb0, k, hk⟩ | hk <;>
    rcases (hTree.mem_leafBlocks hNe').mp hb' with ⟨hb0', k', hk'⟩ | hk'
    · have hSame := hInj _ _ (hk ▸ hb0) (hk.trans hk'.symm)
      rw [Place.inner.injEq] at hSame
      exact hDiff (by rw [hSame.1])
    · have hSame := hInj _ _ (hk ▸ hb0) (hk.trans hk')
      simp at hSame
    · have hSame := hInj _ _ hNe (hk.symm.trans hk'.symm)
      simp at hSame
    · exact hDiff (hk.symm.trans hk')

theorem Tree.owned_leaves {b : Nat} (hMem : b ∈ (entriesFrom blk lo).flatMap (leafBlocks h)) :
    h b ≠ none := by
  rcases (hTree.mem_leaves hRoot hBlk).mp hMem with ⟨hb, p, _, rfl⟩
  exact hTree.owned p hb

theorem Tree.root_notMem_leaves (lo : Nat) : ptr a h .double ∉
      (entriesFrom blk lo).flatMap (leafBlocks h) := by
  intro hMem
  rcases (hTree.mem_leaves hRoot hBlk).mp hMem with ⟨_, p, hp, hEq⟩
  have hSame := hTree.inj _ _ hRoot hEq.symm
  rw [← hSame] at hp
  simp [leavesFrom] at hp

end Leaves

/- Cutting off the root, with the leaves beyond the cut. -/
theorem Cut.trimRoot (hTree : Tree a v.heap) (hRoot : ptr a v.heap .double ≠ 0) (hBlk :
      v.heap (ptr a v.heap .double) = some blk) (lo : Nat) : Cut (leavesFrom lo) a v a
      ((v.put (ptr a v.heap .double) (zeroEntries lo blk)).giveAll
          ((entriesFrom blk lo).flatMap (leafBlocks v.heap))) := by
  refine .prune hTree (q := .double) rfl hRoot hBlk (fun b => hTree.mem_leaves hRoot hBlk)
    ?_ rfl ?_ ?_
  · exact fun _ => ⟨rfl, rfl, rfl⟩
  · exact fun _ => rfl
  · intro q j hNode hDiff
    cases q <;> simp_all [leavesFrom, Place.child, Place.isNode]

theorem Cut.freeDouble (hTree : Tree a v.heap) (hRoot : ptr a v.heap .double ≠ 0) (hBlk :
      v.heap (ptr a v.heap .double) = some blk) :
    Cut (doubleFrom 0) a v (a.set NDOUBLE_SLOT 0) (v.giveAll ((entriesFrom blk 0).flatMap
        (leafBlocks v.heap) ++ [ptr a v.heap .double])) := by
  have hMem : ∀ b, b ∈ (entriesFrom blk 0).flatMap
      (leafBlocks v.heap) ↔ b ≠ 0 ∧ ∃ p, leavesFrom 0 p ∧ ptr a v.heap p = b :=
    fun b => hTree.mem_leaves hRoot hBlk
  have hGet := fun j =>
    Addrs.get_set (a := a) (k := NDOUBLE_SLOT) (j := j)
      (b := 0) (Nat.lt_succ_self (NDIRECT + 1)) (by omega)
  have hAll : ∀ b, b ∈ (entriesFrom blk 0).flatMap (leafBlocks v.heap) ++ [ptr a v.heap .double] ↔
      b ≠ 0 ∧ ∃ p, doubleFrom 0 p ∧ ptr a v.heap p = b := by
    intro b
    rw [List.mem_append, List.mem_singleton, hMem]
    constructor
    · rintro (⟨hb, p, hp, hj⟩ | rfl)
      · refine ⟨hb, p, ?_, hj⟩
        cases p <;> simp_all [leavesFrom, doubleFrom]
      · exact ⟨hRoot, .double, by simp [doubleFrom], rfl⟩
    · rintro ⟨hb, p, hp, rfl⟩
      cases p with
      | double => exact Or.inr rfl
      | leaf j => exact Or.inl ⟨hb, .leaf j, by simp [leavesFrom], rfl⟩
      | inner j k => exact Or.inl ⟨hb, .inner j k, by simp [leavesFrom], rfl⟩
      | _ => simp [doubleFrom] at hp
  refine Cut.of_giveAll hTree rfl rfl rfl rfl (fun _ => Iff.rfl) (fun _ _ _ => rfl) hAll ?_
  intro p
  have hSingle := entry_kept (w := v) (q := .single) hTree hAll rfl rfl
  cases p <;> grind [ptr, doubleFrom, entry_zero]

/- The leaves beyond the cut are freed after the root is cut. -/
theorem wp_trimRoot (hTrunc : v.trunc = true) (hTree : Tree a v.heap)
    (hRoot : ptr a v.heap .double ≠ 0) (hBlk : v.heap (ptr a v.heap .double) = some blk)
    (lo : Nat) : (inodeRules sb i).wp (freeLeaves sb (entriesFrom blk lo))
      (fun _ v' => Cut (leavesFrom lo) a v a v') (v.put (ptr a v.heap .double)
        (zeroEntries lo blk)) := by
  have hSelf := hTree.root_notMem_leaves hRoot hBlk lo
  have hSame : (entriesFrom blk lo).flatMap (leafBlocks (v.put (ptr a v.heap .double)
          (zeroEntries lo blk)).heap) = (entriesFrom blk lo).flatMap (leafBlocks v.heap) := by
    apply List.flatMap_congr
    intro l hl
    apply leafBlocks_congr
    apply update_of_ne
    rintro rfl
    exact hTree.self_notMem_entries (q := .double) rfl hRoot hBlk lo hl
  refine wp_freeLeaves (v := v.put (ptr a v.heap .double) (zeroEntries lo blk)) hTrunc ?_ ?_ ?_
  · rw [hSame]
    exact hTree.nodup_leaves hRoot hBlk lo
  · intro b hb
    rw [hSame] at hb
    have hOwn := hTree.owned_leaves hRoot hBlk hb
    have hOther : b ≠ ptr a v.heap .double := by
      rintro rfl
      exact hSelf hb
    simpa [ILoc.put, hOther] using hOwn
  · rw [hSame]
    exact Cut.trimRoot hTree hRoot hBlk lo

/- Entries of a leaf that hold a block are below the last. -/
theorem inner_lt {h : Heap} {j k : Nat} (hNe : ptr a h (.inner j k) ≠ 0) :
    k < NINDIRECT ∧ ptr a h (.leaf j) ≠ 0 := by
  constructor
  · by_contra hOut
    exact hNe (entry_of_le (Nat.le_of_not_lt hOut))
  · intro hZero
    apply hNe
    show entry h (ptr a h (.leaf j)) k = 0
    rw [hZero, entry_zero]

/- The part of the tree kept under a partly kept root. -/
theorem wp_truncDouble_partial {diKeep leavesKeep : Nat} (hTrunc : v.trunc = true)
    (hTree : Tree a v.heap) (hRoot : ptr a v.heap .double ≠ 0)
    (hBlk : v.heap (ptr a v.heap .double) = some blk) (hDi : keep = NDIRECT + NINDIRECT + diKeep)
    (hPos : 0 < diKeep) (hLeaves : leavesKeep = (diKeep + NINDIRECT - 1) / NINDIRECT) :
    (inodeRules sb i).wp (do
        call (.logWrite (ptr a v.heap .double) (zeroEntries leavesKeep))
        freeLeaves sb (entriesFrom blk leavesKeep)
        if diKeep - (leavesKeep - 1) * NINDIRECT < NINDIRECT ∧ 0 < leavesKeep then
          let rootBuf ← call (.bread (ptr a v.heap .double))
          let leaf := rootBuf.u32At ((leavesKeep - 1) * 4)
          if leaf ≠ 0 then
            trimEntries sb leaf (diKeep - (leavesKeep - 1) * NINDIRECT)
        pure a)
      (fun a' v' => Cut (doubleFrom keep) a v a' v') v := by
  subst hDi
  simp only [NINDIRECT, BSIZE] at hLeaves
  have hLast : 0 < leavesKeep := by omega
  refine wp_logWrite hBlk (ILoc.ok_of_trunc hTrunc) ?_
  refine wp_bind_of (wp_trimRoot hTrunc hTree hRoot hBlk leavesKeep) ?_
  intro _ v₁ hCut
  have hTree₁ := hCut.tree hTree
  have hTrunc₁ := hCut.trunc.trans hTrunc
  have hRoot₁ : ptr a v₁.heap .double ≠ 0 := hRoot
  have hLeaf₁ : ptr a v₁.heap (.leaf (leavesKeep - 1)) = ptr a v.heap (.leaf (leavesKeep - 1)) := by
    rw [hCut.ptr, if_neg]
    simp only [leavesFrom, decide_eq_true_eq]
    omega
  -- where the cut agrees with the block count
  have hAgree : ∀ p, ptr a v.heap p ≠ 0 → (doubleFrom (NDIRECT + NINDIRECT + diKeep) p ↔
        leavesFrom leavesKeep p ∨ childrenFrom (.leaf (leavesKeep - 1))
            (diKeep - (leavesKeep - 1) * NINDIRECT) p) := by
    intro p hNe
    cases p with
    | inner j k =>
      have hk := (inner_lt hNe).1
      simp only [doubleFrom, leavesFrom, childrenFrom,
        decide_eq_true_eq, NINDIRECT, BSIZE, NDIRECT] at *
      omega
    | leaf j =>
      simp only [doubleFrom, leavesFrom, childrenFrom,
        decide_eq_true_eq, NINDIRECT, BSIZE, NDIRECT, Bool.false_eq_true, or_false]
      omega
    | double =>
      simp [doubleFrom, leavesFrom, childrenFrom]
      omega
    | _ => simp [doubleFrom, leavesFrom, childrenFrom]
  split
  · rcases Option.ne_none_iff_exists'.mp (hTree₁.owned .double hRoot₁) with ⟨blk₁, hBlk₁⟩
    have hEntry : ptr a v₁.heap (.leaf (leavesKeep - 1)) = blk₁.u32At ((leavesKeep - 1) * 4) :=
      ptr_child_of_some (q := .double) rfl hRoot₁ hBlk₁ _
    apply wp_bread hBlk₁
    rw [← hEntry]
    dsimp only
    split
    · rename_i hLeafNe
      refine wp_bind_of (wp_trim hTrunc₁ hTree₁ (Or.inr ⟨_, rfl⟩) hLeafNe _) ?_
      intro _ v₂ hCut₂
      refine (hCut.trans hCut₂).congr ?_
      intro p hNe
      rw [Bool.eq_iff_iff, hAgree p hNe]
      simp
    · rename_i hLeafZero
      refine hCut.congr ?_
      intro p hNe
      rw [Bool.eq_iff_iff, hAgree p hNe]
      have hNot : ¬ childrenFrom (.leaf (leavesKeep - 1))
          (diKeep - (leavesKeep - 1) * NINDIRECT) p := by
        rw [childrenFrom_iff (Or.inr ⟨_, rfl⟩)]
        rintro ⟨k, _, rfl⟩
        have hLeafNe := (inner_lt hNe).2
        rw [← hLeaf₁] at hLeafNe
        exact hLeafZero hLeafNe
      tauto
  · rename_i hWhole
    refine hCut.congr ?_
    intro p hNe
    rw [Bool.eq_iff_iff, hAgree p hNe]
    have hNot : ¬ childrenFrom (.leaf (leavesKeep - 1))
        (diKeep - (leavesKeep - 1) * NINDIRECT) p := by
      rw [childrenFrom_iff (Or.inr ⟨_, rfl⟩)]
      rintro ⟨k, hk, rfl⟩
      have hLt := (inner_lt hNe).1
      omega
    tauto

theorem wp_truncDouble (hTrunc : v.trunc = true) (hTree : Tree a v.heap) :
    (inodeRules sb i).wp (truncDouble sb keep a)
      (fun a' v' => Cut (doubleFrom keep) a v a' v') v := by
  by_cases hRoot : ptr a v.heap .double = 0
  · have hZero : a.get NDOUBLE_SLOT = 0 := hRoot
    dsimp only [truncDouble]
    rw [if_pos hZero]
    apply Cut.refl
    intro p hp
    cases p <;> simp_all [doubleFrom, ptr]
  · rcases Option.ne_none_iff_exists'.mp (hTree.owned .double hRoot) with ⟨blk, hBlk⟩
    have hNe : ¬ a.get NDOUBLE_SLOT = 0 := hRoot
    dsimp only [truncDouble]
    rw [if_neg hNe]
    generalize hDi : keep - (NDIRECT + NINDIRECT) = diKeep
    by_cases hAll : diKeep = 0
    · rw [if_pos hAll]
      have hSelf := hTree.root_notMem_leaves hRoot hBlk 0
      apply wp_bread hBlk
      apply wp_bind.mpr
      apply wp_freeLeaves hTrunc (hTree.nodup_leaves hRoot hBlk 0)
        fun b hb => hTree.owned_leaves hRoot hBlk hb
      refine wp_bind.mpr (wp_bfree_last (v := v.giveAll ((entriesFrom blk 0).flatMap
          (leafBlocks v.heap))) (ILoc.giveAll_trunc hTrunc) ?_ ?_)
      · show (v.giveAll _).heap (ptr a v.heap .double) ≠ none
        rw [ILoc.giveAll_heap_of_notMem hSelf, hBlk]
        simp
      · have hCut := Cut.freeDouble hTree hRoot hBlk
        rw [← ILoc.giveAll_append, ← ILoc.giveAll_cons, ILoc.giveAll_nil] at hCut
        apply hCut.congr
        intro p _
        cases p <;> simp [doubleFrom]
        all_goals omega
    · rw [if_neg hAll]
      have hSplit : keep = NDIRECT + NINDIRECT + diKeep := by omega
      apply wp_bread hBlk
      exact wp_truncDouble_partial hTrunc hTree hRoot hBlk hSplit (Nat.pos_of_ne_zero hAll) rfl

-- The Tail of the Last Block

/- `tailBlock` reads the tree that is left. -/
theorem wp_tailBlock (hTree : Tree a v.heap) (idx : Nat) : (inodeRules sb i).wp (tailBlock a idx)
      (fun b v' => v' = v ∧ b = ptr a v.heap (dataPlace idx)) v := by
  dsimp only [tailBlock]
  split
  · rename_i hDirect
    refine ⟨rfl, ?_⟩
    simp [dataPlace, ptr, hDirect]
  · rename_i hDirect
    split
    · rename_i hSingle
      have hPlace : dataPlace idx = .ind (idx - NDIRECT) := by simp [dataPlace, hDirect, hSingle]
      rw [hPlace]
      split
      · rename_i hZero
        refine ⟨rfl, ?_⟩
        simp [ptr, hZero]
      · rename_i hNe
        rcases hTree.exists_block (q := .single) hNe with ⟨blk, hBlk, hEntry⟩
        apply wp_bread hBlk
        exact ⟨rfl, (hEntry _).symm⟩
    · rename_i hSingle
      have hPlace : dataPlace idx = .inner ((idx - NDIRECT - NINDIRECT) / NINDIRECT)
            ((idx - NDIRECT - NINDIRECT) % NINDIRECT) := by simp [dataPlace, hDirect, hSingle]
      rw [hPlace]
      generalize (idx - NDIRECT - NINDIRECT) / NINDIRECT = j
      generalize (idx - NDIRECT - NINDIRECT) % NINDIRECT = k
      split
      · rename_i hZero
        refine ⟨rfl, ?_⟩
        simp [ptr, hZero]
      · rename_i hNe
        rcases hTree.exists_block (q := .double) hNe with ⟨blk, hBlk, hEntry⟩
        apply wp_bread hBlk
        rw [← hEntry]
        split
        · rename_i hZero
          have hNoLeaf : ptr a v.heap (.leaf j) = 0 := hZero
          refine ⟨rfl, ?_⟩
          show 0 = entry v.heap (ptr a v.heap (.leaf j)) k
          rw [hNoLeaf, entry_zero]
        · rename_i hLeaf
          rcases hTree.exists_block (q := .leaf j) hLeaf with ⟨blk', hBlk', hEntry'⟩
          apply wp_bread hBlk'
          exact ⟨rfl, (hEntry' _).symm⟩

/- Where `zeroTail` clears bytes. -/
def inTail (newSize curSize keep x : Nat) : Bool :=
  decide (newSize < curSize ∧ 0 < keep ∧ 0 < newSize % BSIZE ∧ x / BSIZE = keep - 1 ∧
    newSize % BSIZE ≤ x % BSIZE)

structure Cleared (Z : Nat → Bool) (a : Addrs) (v v' : ILoc) : Prop where
  rest : v' = { v with heap := v'.heap }
  dom : ∀ b, v'.heap b = none ↔ v.heap b = none
  ptr : ∀ p, ptr a v'.heap p = ptr a v.heap p
  bytes : ∀ x, fileByte a v'.heap x = if Z x then 0 else fileByte a v.heap x

theorem Cleared.refl {Z : Nat → Bool} (hZero : ∀ x, Z x → fileByte a v.heap x = 0) :
    Cleared Z a v v where
  rest := rfl
  dom := fun _ => Iff.rfl
  ptr := fun _ => rfl
  bytes := by
    intro x
    by_cases hx : Z x
    · rw [if_pos hx, hZero x hx]
    · rw [if_neg hx]

theorem wp_zeroTail (hTrunc : v.trunc = true) (hTree : Tree a v.heap) (newSize curSize keep : Nat) :
    (inodeRules sb i).wp (zeroTail a newSize curSize keep) (fun _ v' =>
        Cleared (inTail newSize curSize keep) a v v') v := by
  dsimp only [zeroTail]
  split
  · rename_i hCut
    refine wp_bind_of (wp_tailBlock hTree _) ?_
    rintro b v₁ ⟨rfl, rfl⟩
    split
    · rename_i hNe
      rcases hTree.exists_block hNe with ⟨blk, hBlk, _⟩
      refine ⟨blk, hBlk, ILoc.ok_of_trunc hTrunc, ?_⟩
      rcases hTree.put_data hNe (blk.splice (newSize % BSIZE) (List.replicate
          (BSIZE - newSize % BSIZE) 0)) with ⟨hDom, hPtr, hByte⟩
      refine ⟨rfl, hDom, hPtr, ?_⟩
      intro x
      refine (hByte x).trans ?_
      by_cases hx : x / BSIZE = keep - 1
      · have hLt : x % BSIZE < BSIZE := Nat.mod_lt _ (show 0 < 512 by omega)
        have hOld : fileByte a v₁.heap x = blk.get (x % BSIZE) := by
          rw [← hx] at hNe hBlk
          exact fileByte_of_some hNe hBlk
        rw [if_pos hx, Bytes.get_splice hLt, hOld]
        by_cases hIn : newSize % BSIZE ≤ x % BSIZE
        · have hFit : x % BSIZE < newSize % BSIZE + (BSIZE - newSize % BSIZE) := by omega
          simp [inTail, hCut, hx, hIn, hFit]
        · simp [inTail, hIn]
      · simp [inTail, hx]
    · rename_i hZero
      apply Cleared.refl
      intro x hx
      simp only [inTail, decide_eq_true_eq] at hx
      rw [← hx.2.2.2.1] at hZero
      exact fileByte_of_hole (not_not.mp hZero)
  · rename_i hNo
    apply Cleared.refl
    intro x hx
    simp only [inTail, decide_eq_true_eq] at hx
    exact absurd ⟨hx.1, hx.2.1, hx.2.2.1⟩ hNo

-- Truncation

/- The places all of whose file blocks are cut off. -/
def placesFrom (keep : Nat) (p : Place) : Bool :=
  decide (keep ≤ p.firstBlock)

theorem placesFrom_iff {p : Place} : placesFrom keep p ↔ keep ≤ p.firstBlock := by simp [placesFrom]

/-
  `v'` is `v` cut off, or extended by a hole, at `newSize`:
  nothing is allocated, and what is given back leaves the
  tree.
-/
structure Truncated (sb : Superblock) (newSize : Nat) (v v' : ILoc) : Prop where
  sound : v'.Sound sb
  st : ∃ t, v'.st =
    { v.st with
      addrs := v'.st.addrs
      mtime := t
      ctime := t
      size := UInt32.ofNat newSize }
  dino : v'.dino = v'.st
  ptr : ∀ p, v'.ptr p = if placesFrom ((newSize + BSIZE - 1) % 2 ^ 32 / BSIZE) p
    then 0 else v.ptr p
  heap : ∀ b, v'.heap b = none ↔ v.heap b = none ∨ b ≠ 0 ∧ ∃ p,
      placesFrom ((newSize + BSIZE - 1) % 2 ^ 32 / BSIZE) p ∧ v.ptr p = b
  bytes : newSize ≤ MAXFILE * BSIZE → (∀ x, v.st.size.toNat ≤ x → v.byte x = 0) →
      ∀ x, v'.byte x = if x < newSize then v.byte x else 0
  free : ∀ F, v.free = some F → ∃ F', v'.free = some F' ∧
    ∀ b, b ∈ F' ↔ b ∈ F ∨ v.heap b ≠ none ∧ v'.heap b = none
  unknown : v.free = none → v'.free = none

theorem Cut.steps {a a₁ a₂ a₃ : Addrs} {v₁ v₂ v₃ : ILoc}
    (hDirect : Cut (directFrom keep (List.range NDIRECT)) a v a₁ v₁)
    (hSingle : Cut (singleFrom keep) a₁ v₁ a₂ v₂) (hDouble : Cut (doubleFrom keep) a₂ v₂ a₃ v₃) :
    Cut (placesFrom keep) a v a₃ v₃ := by
  refine ((hDirect.trans hSingle).trans hDouble).congr ?_
  intro p hNe
  cases p with
  | direct k =>
    have hk : k < NDIRECT := by
      by_contra hNot
      simp [ptr, hNot] at hNe
    rw [Bool.eq_iff_iff, placesFrom_iff]
    simp [directFrom, singleFrom, doubleFrom, Place.firstBlock, hk]
  | _ =>
    rw [Bool.eq_iff_iff, placesFrom_iff]
    simp [directFrom, singleFrom, doubleFrom, Place.firstBlock]

theorem Cut.bytes {a a' : Addrs} {v' : ILoc} (hCut : Cut (placesFrom keep) a v a' v')
    (x : Nat) : fileByte a' v'.heap x = if keep ≤ x / BSIZE then 0
      else fileByte a v.heap x := by
  have hPtr := hCut.ptr (dataPlace (x / BSIZE))
  simp only [placesFrom, firstBlock_dataPlace, decide_eq_true_eq] at hPtr
  by_cases hx : keep ≤ x / BSIZE
  · rw [if_pos hx] at hPtr ⊢
    exact fileByte_of_hole hPtr
  · rw [if_neg hx] at hPtr ⊢
    apply fileByte_congr hPtr
    intro hNe
    exact hCut.data _ (dataPlace_not_node _) (hPtr ▸ hNe)

/- Cut and cleared, only the bytes below `newSize` remain. -/
theorem Cut.bytes_cleared {a : Addrs} {h : Heap} {v₃ : ILoc} {newSize curSize : Nat}
    (hMax : newSize ≤ MAXFILE * BSIZE) (hKeep : (newSize + BSIZE - 1) % 2 ^ 32 / BSIZE = keep)
    (hCut : Cut (placesFrom keep) v.st.addrs { v with trunc := true } a v₃)
    (hClear : ∀ x, fileByte a h x = if inTail newSize curSize keep x then 0
      else fileByte a v₃.heap x) (hZero : ∀ x, curSize ≤ x → v.byte x = 0) (x : Nat) :
    fileByte a h x = if x < newSize then v.byte x else 0 := by
  rw [hClear, hCut.bytes]
  simp only [MAXFILE, NDIRECT, NINDIRECT, NDOUBLE_INDIRECT, BSIZE] at hMax hKeep
  simp only [inTail, decide_eq_true_eq, BSIZE]
  by_cases hx : x < newSize
  · rw [if_pos hx, if_neg (by omega), if_neg (by omega)]
  · rw [if_neg hx]
    by_cases hOld : curSize ≤ x
    · have hByte : fileByte v.st.addrs v.heap x = 0 := hZero x hOld
      simp [hByte]
    · split
      · rfl
      · rw [if_pos (by omega)]

theorem wp_itruncTo (hv : v.Sound sb) (hRange : ∀ b, v.heap b ≠ none → b < sb.size)
    (newSize : Nat) : (inodeRules sb i).wp (itruncTo sb i newSize)
      (fun _ v' => Truncated sb newSize v v') v := by
  unfold itruncTo
  apply wp_getState
  dsimp only
  generalize hKeep : (newSize + BSIZE - 1) % 2 ^ 32 / BSIZE = keep
  apply wp_truncBegin
  refine wp_bind_of (wp_truncDirect _ (fun k hk => List.mem_range.mp hk) rfl hv.tree) ?_
  intro a₁ v₁ hDirect
  refine wp_bind_of (wp_truncIndirect hDirect.trunc (hDirect.tree hv.tree)) ?_
  intro a₂ v₂ hSingle
  have hTrunc₂ := hSingle.trunc.trans hDirect.trunc
  refine wp_bind_of (wp_truncDouble hTrunc₂ (hSingle.tree (hDirect.tree hv.tree))) ?_
  intro a v₃ hDouble
  have hCut := Cut.steps hDirect hSingle hDouble
  have hTree := hCut.tree hv.tree
  apply wp_now
  intro t
  apply wp_getState
  refine wp_setState ⟨rfl, rfl⟩ (ILoc.ok_of_trunc hCut.trunc) ?_
  refine wp_bind_of (wp_zeroTail
    (v := { v₃ with
      st := { v₃.st with mtime := t, ctime := t } })
    hCut.trunc hTree newSize v.st.size.toNat keep) ?_
  intro _ v₄ hClear
  rw [hClear.rest]
  apply wp_getState
  refine wp_setState ⟨rfl, rfl⟩ (ILoc.ok_of_trunc hCut.trunc) ?_
  refine wp_iupdate (ILoc.ok_of_trunc hCut.trunc) ?_
  have hTree' : Tree a v₄.heap := hTree.of_ptr_eq hClear.ptr fun b hOwn => mt (hClear.dom b).mp hOwn
  refine ⟨rfl, fun _ => ⟨hTree', fun _ _ => rfl⟩, ?_⟩
  have hPtr : ∀ p, ptr a v₄.heap p = if placesFrom keep p then 0 else v.ptr p :=
    fun p => (hClear.ptr p).trans (hCut.ptr p)
  have hHeap : ∀ b, v₄.heap b = none ↔ v.heap b = none ∨
      b ≠ 0 ∧ ∃ p, placesFrom keep p ∧ v.ptr p = b := fun b => (hClear.dom b).trans (hCut.heap b)
  refine
    { sound := ⟨rfl, hTree', fun _ _ => rfl, ?_⟩
      st := ⟨t, by rw [hCut.st]⟩
      dino := rfl
      ptr := by rwa [hKeep]
      heap := by rwa [hKeep]
      bytes := ?_
      free := ?_
      unknown := hCut.unknown }
  · intro F' hF' b hMem
    replace hF' : v₃.free = some F' := hF'
    cases hF : v.free with
    | none =>
      rw [hCut.unknown hF] at hF'
      simp at hF'
    | some F =>
      rcases hCut.free F hF with ⟨F₃, hF₃, hMem₃⟩
      obtain rfl : F₃ = F' := by
        rw [hF₃] at hF'
        exact Option.some.inj hF'
      rcases (hMem₃ b).mp hMem with hOld | ⟨hOwn, hGone⟩
      · rcases hv.free F hF b hOld with ⟨hNone, hLt⟩
        exact ⟨(hHeap b).mpr (Or.inl hNone), hLt⟩
      · exact ⟨(hClear.dom b).mpr hGone, hRange b hOwn⟩
  · intro hMax hZero
    exact Cut.bytes_cleared hMax hKeep hCut hClear.bytes hZero
  · intro F hF
    rcases hCut.free F hF with ⟨F', hF', hMem⟩
    refine ⟨F', hF', ?_⟩
    intro b
    refine (hMem b).trans ?_
    exact or_congr Iff.rfl (and_congr Iff.rfl (hClear.dom b).symm)

end PlayXv6
