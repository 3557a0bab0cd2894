import PlayXv6.Fs.Inode

/-
  The block tree of an inode.

  The blocks of a file hang off the slots of `addrs`, the
  entries of the single-indirect block, and two levels of
  entries under the double-indirect block.  Every position
  that can hold a block number is a place; a tree is sound
  when the blocks at its places are all owned and all
  different.

  Main declarations:
    * `Heap`, `Tree`
    * `Tree.attach`, `Tree.put_data`
-/

namespace PlayXv6

open Function

/- The blocks a file owns, with their contents. -/
abbrev Heap : Type := Nat → Option Block

/- Entry `j` of the indirect block `b`; 0 if there is none. -/
def entry (h : Heap) (b j : Nat) : Nat :=
  if b = 0 then 0
  else (h b).elim 0 fun blk => blk.u32At (j * 4)

@[simp] theorem entry_zero (h : Heap) (j : Nat) : entry h 0 j = 0 := rfl

variable {b j : Nat} {blk : Block} {h : Heap}

theorem entry_of_some (hNe : b ≠ 0) (hBlk : h b = some blk) : entry h b j = blk.u32At (j * 4) := by
  unfold entry
  rw [if_neg hNe, hBlk]
  rfl

theorem entry_congr {h' : Heap} (hEq : b ≠ 0 → h' b = h b) : entry h' b j = entry h b j := by
  unfold entry
  by_cases hb : b = 0
  · simp [hb]
  · rw [if_neg hb, if_neg hb, hEq hb]

theorem entry_zero_block (hBlk : h b = some Bytes.zero) : entry h b j = 0 := by
  by_cases hb : b = 0
  · rw [hb, entry_zero]
  · rw [entry_of_some hb hBlk, Bytes.u32At_zero]

theorem entry_of_le (hj : NINDIRECT ≤ j) : entry h b j = 0 := by
  by_cases hb : b = 0
  · rw [hb, entry_zero]
  · cases hBlk : h b with
    | none => simp [entry, hb, hBlk]
    | some blk =>
      rw [entry_of_some hb hBlk]
      apply Bytes.u32At_of_le
      have hBound : 128 ≤ j := hj
      show 512 ≤ j * 4
      omega

theorem entry_put {c k : Nat} (hc : c ≠ 0) (hBlk : h c = some blk)
    (hj : j < NINDIRECT) (hb : b < 2 ^ 32) : entry (update h c
        (some (blk.putU32 (j * 4) b))) c k = if k = j then b else entry h c k := by
  have hBound : j * 4 + 4 ≤ BSIZE := by
    have hLt : j < 128 := hj
    show j * 4 + 4 ≤ 512
    omega
  rw [entry_of_some hc (update_self ..), entry_of_some hc hBlk]
  by_cases hk : k = j
  · subst hk
    rw [if_pos rfl, Bytes.u32At_putU32 hBound]
    exact Nat.mod_eq_of_lt hb
  · rw [if_neg hk, Bytes.u32At_putU32_disjoint]
    omega

/- The positions of a file that can hold a block number. -/
inductive Place where
  | direct (k : Nat)
  | single
  | ind (j : Nat)
  | double
  | leaf (j : Nat)
  | inner (j k : Nat)
deriving DecidableEq, Repr

namespace Place

def isNode : Place → Bool
  | single => true
  | double => true
  | leaf _ => true
  | _ => false

def child : Place → Nat → Place
  | single, j => ind j
  | double, j => leaf j
  | leaf i, j => inner i j
  | p, _ => p

/- The place of slot `k` of `addrs`. -/
def slot (k : Nat) : Place :=
  if k = NDIRECT then single
  else if k = NDOUBLE_SLOT then double
  else direct k

theorem slot_injective {k : Nat} (hEq : slot j = slot k) : j = k := by grind [slot]

/- The first file block at or below a place. -/
def firstBlock : Place → Nat
  | direct k => k
  | single => NDIRECT
  | ind j => NDIRECT + j
  | double => NDIRECT + NINDIRECT
  | leaf j => NDIRECT + NINDIRECT + j * NINDIRECT
  | inner j k => NDIRECT + NINDIRECT + j * NINDIRECT + k

end Place

def ptr (a : Addrs) (h : Heap) : Place → Nat
  | .direct k => if k < NDIRECT then a.get k else 0
  | .single => a.get NDIRECT
  | .ind j => entry h (a.get NDIRECT) j
  | .double => a.get NDOUBLE_SLOT
  | .leaf j => entry h (a.get NDOUBLE_SLOT) j
  | .inner j k => entry h (entry h (a.get NDOUBLE_SLOT) j) k

variable {a : Addrs} {q : Place}

theorem ptr_child (hq : q.isNode) : ptr a h (q.child j) = entry h (ptr a h q) j := by
  cases q with
  | single | double | leaf i => rfl
  | direct k | ind j | inner j k => simp [Place.isNode] at hq

theorem ptr_slot (a : Addrs) (h : Heap) (k : Nat) : ptr a h (Place.slot k) = a.get k := by
  have hOut : NDIRECT + 2 ≤ k → a.get k = 0 := fun hk => Addrs.get_of_le hk
  grind [Place.slot, ptr]

theorem ptr_congr {h' : Heap} (hNodes : ∀ q, q.isNode → ptr a h q ≠ 0 →
      h' (ptr a h q) = h (ptr a h q)) (p : Place) : ptr a h' p = ptr a h p := by
  have hLeaf : ∀ j, ptr a h' (.leaf j) = ptr a h (.leaf j) := by
    intro j
    exact entry_congr (hNodes .double rfl)
  cases p with
  | direct k | single | double => rfl
  | ind j => exact entry_congr (hNodes .single rfl)
  | leaf j => exact hLeaf j
  | inner j k =>
    show entry h' (ptr a h' (.leaf j)) k = entry h (ptr a h (.leaf j)) k
    rw [hLeaf j]
    exact entry_congr (hNodes (.leaf j) rfl)

-- Sound Trees

/- Every block of the tree is owned, and no block is at two places. -/
structure Tree (a : Addrs) (h : Heap) : Prop where
  owned : ∀ p, ptr a h p ≠ 0 → h (ptr a h p) ≠ none
  inj : ∀ p q, ptr a h p ≠ 0 → ptr a h p = ptr a h q → p = q

theorem Tree.empty (h : Heap) : Tree Addrs.zero h := by
  have hZero : ∀ p, ptr Addrs.zero h p = 0 := by
    intro p
    cases p <;> simp [ptr]
  constructor
  · intro p hNe
    exact absurd (hZero p) hNe
  · intro p q hNe
    exact absurd (hZero p) hNe

theorem Tree.of_ptr_eq {a' : Addrs} {h' : Heap} (hTree : Tree a h)
    (hPtr : ∀ p, ptr a' h' p = ptr a h p) (hDom : ∀ b, h b ≠ none → h' b ≠ none) : Tree a' h' := by
  constructor
  · intro p hNe
    rw [hPtr] at hNe ⊢
    exact hDom _ (hTree.owned p hNe)
  · intro p q hNe hEq
    rw [hPtr] at hNe
    rw [hPtr, hPtr] at hEq
    exact hTree.inj p q hNe hEq

/- Hang a fresh block on a place that had none. -/
theorem Tree.attach {a' : Addrs} {h' : Heap} {p₀ : Place} (hTree : Tree a h)
    (hPtr : ∀ p, ptr a' h' p = if p = p₀ then b else ptr a h p)
    (hFresh : ∀ p, ptr a h p ≠ 0 → ptr a h p ≠ b) (hOwn : h' b ≠ none)
    (hDom : ∀ c, h c ≠ none → h' c ≠ none) : Tree a' h' := by
  constructor
  · intro p hNe
    have hOwned := hTree.owned p
    rw [hPtr] at hNe ⊢
    grind
  · intro p q hNe hEq
    have hInj := hTree.inj p q
    rw [hPtr] at hNe
    rw [hPtr, hPtr] at hEq
    grind

theorem Tree.ne_of_unowned (hTree : Tree a h) (hNone : h b = none)
    {p : Place} (hNe : ptr a h p ≠ 0) : ptr a h p ≠ b := by
  intro hEq
  exact hTree.owned p hNe (hEq ▸ hNone)

theorem Tree.ptr_take (hTree : Tree a h) (hNone : h b = none)
    (v : Option Block) (p : Place) : ptr a (update h b v) p = ptr a h p := by
  apply ptr_congr
  intro q _ hNe
  rw [update_of_ne (hTree.ne_of_unowned hNone hNe)]

theorem Tree.ptr_write (hTree : Tree a h) {p₀ : Place}
    (hData : p₀.isNode = false) (v : Option Block) (p : Place) :
    ptr a (update h (ptr a h p₀) v) p = ptr a h p := by
  apply ptr_congr
  intro q hNode hNe
  rw [update_of_ne]
  intro hEq
  have hSame := hTree.inj q p₀ hNe hEq
  rw [hSame, hData] at hNode
  exact Bool.false_ne_true hNode

theorem ptr_attach_slot {k : Nat} (hk : k < NDIRECT + 2) (hb : b < 2 ^ 32)
    (hEmpty : a.get k = 0) (hBlk : h b = some Bytes.zero) (p : Place) : ptr (a.set k b) h p =
      if p = Place.slot k then b else ptr a h p := by
  have hGet := fun j => Addrs.get_set (a := a) (j := j) hk hb
  have hNoEntry : ∀ j, entry h b j = 0 := fun j => entry_zero_block hBlk
  unfold Place.slot
  simp only [NDIRECT] at *
  cases p with
  | direct j | single | double => grind [ptr]
  | ind j | leaf j | inner i j => grind [ptr, entry_zero]

theorem ptr_attach_entry
    (hTree : Tree a h) (hNode : q.isNode) (hc : ptr a h q ≠ 0) (hBlk : h (ptr a h q) = some blk)
    (hj : j < NINDIRECT) (hb : b < 2 ^ 32) (hEmpty : ptr a h (q.child j) = 0)
    (hNew : h b = some Bytes.zero) (hNe : b ≠ ptr a h q) (p : Place) :
    ptr a (update h (ptr a h q) (some (blk.putU32 (j * 4) b))) p =
      if p = q.child j then b else ptr a h p := by
  have hPut := fun k => entry_put (k := k) hc hBlk hj hb
  have hOther : ∀ d k, d ≠ ptr a h q → entry (update h (ptr a h q)
        (some (blk.putU32 (j * 4) b))) d k = entry h d k := by
    intro d k hd
    apply entry_congr
    intro _
    rw [update_of_ne hd]
  have hNoEntry : ∀ k, entry h b k = 0 := fun k => entry_zero_block hNew
  have hInj : ∀ q', ptr a h q' ≠ 0 → ptr a h q' = ptr a h q → q' = q :=
    fun q' hNe' hEq => hTree.inj q' q hNe' hEq
  have hSingle := hInj .single
  have hDouble := hInj .double
  -- the three kinds of indirect block, for every place
  cases q with
  | direct k | ind k | inner i k => simp [Place.isNode] at hNode
  | single | double =>
    cases p with
    | inner i k =>
      have hLeaf := hInj (.leaf i)
      grind [ptr, Place.child, entry_zero]
    | _ => grind [ptr, Place.child, entry_zero]
  | leaf i =>
    cases p with
    | inner i' k =>
      have hLeaf := hInj (.leaf i')
      grind [ptr, Place.child, entry_zero]
    | _ => grind [ptr, Place.child, entry_zero]

-- The Bytes of a File

def dataPlace (bn : Nat) : Place :=
  if bn < NDIRECT then .direct bn
  else if bn < NDIRECT + NINDIRECT then .ind (bn - NDIRECT)
  else
    .inner ((bn - NDIRECT - NINDIRECT) / NINDIRECT) ((bn - NDIRECT - NINDIRECT) % NINDIRECT)

theorem dataPlace_not_node (bn : Nat) : (dataPlace bn).isNode = false := by
  unfold dataPlace
  split
  · rfl
  · split <;> rfl

theorem firstBlock_dataPlace (bn : Nat) : (dataPlace bn).firstBlock = bn := by
  unfold dataPlace
  simp only [NDIRECT, NINDIRECT, BSIZE]
  split
  · rfl
  · split
    · simp only [Place.firstBlock, NDIRECT]
      omega
    · simp only [Place.firstBlock, NDIRECT, NINDIRECT, BSIZE]
      omega

theorem dataPlace_injective {bn bn' : Nat} (hEq : dataPlace bn = dataPlace bn') : bn = bn' := by
  have hFirst := congrArg Place.firstBlock hEq
  rwa [firstBlock_dataPlace, firstBlock_dataPlace] at hFirst

/- Byte `x` of the file; holes read as zero. -/
def fileByte (a : Addrs) (h : Heap) (x : Nat) : UInt8 :=
  let b := ptr a h (dataPlace (x / BSIZE))
  if b = 0 then 0
  else (h b).elim 0 fun blk => blk.get (x % BSIZE)

theorem fileByte_of_hole {x : Nat}
    (hHole : ptr a h (dataPlace (x / BSIZE)) = 0) : fileByte a h x = 0 := by simp [fileByte, hHole]

theorem fileByte_of_some {x : Nat} (hNe : ptr a h (dataPlace (x / BSIZE)) ≠ 0) (hBlk :
      h (ptr a h (dataPlace (x / BSIZE))) = some blk) : fileByte a h x = blk.get (x % BSIZE) := by
  simp [fileByte, hNe, hBlk]

theorem fileByte_congr {a' : Addrs} {h' : Heap} {x : Nat}
    (hPtr : ptr a' h' (dataPlace (x / BSIZE)) = ptr a h (dataPlace (x / BSIZE)))
    (hBlk : ptr a h (dataPlace (x / BSIZE)) ≠ 0 → h' (ptr a h (dataPlace (x / BSIZE))) =
        h (ptr a h (dataPlace (x / BSIZE)))) : fileByte a' h' x = fileByte a h x := by
  unfold fileByte
  simp only [hPtr]
  by_cases hNe : ptr a h (dataPlace (x / BSIZE)) = 0
  · simp [hNe]
  · simp only [hNe, if_false, hBlk hNe]

/- The block at a place, and the entries in it. -/
theorem Tree.exists_block (hTree : Tree a h)
    (hNe : ptr a h q ≠ 0) : ∃ blk, h (ptr a h q) = some blk ∧
      ∀ j, entry h (ptr a h q) j = blk.u32At (j * 4) := by
  rcases Option.ne_none_iff_exists'.mp (hTree.owned q hNe) with ⟨blk, hBlk⟩
  exact ⟨blk, hBlk, fun j => entry_of_some hNe hBlk⟩

theorem Tree.put_data (hTree : Tree a h) {bn : Nat}
    (hNe : ptr a h (dataPlace bn) ≠ 0) (blk : Block) :
    let h' := update h (ptr a h (dataPlace bn)) (some blk)
    (∀ b, h' b = none ↔ h b = none) ∧ (∀ p, ptr a h' p = ptr a h p) ∧ ∀ x, fileByte a h' x =
        if x / BSIZE = bn then blk.get (x % BSIZE)
        else fileByte a h x := by
  intro h'
  have hPtr : ∀ p, ptr a h' p = ptr a h p := hTree.ptr_write (dataPlace_not_node bn) _
  have hAt : h' (ptr a h (dataPlace bn)) = some blk := update_self ..
  have hKeep : ∀ c, c ≠ ptr a h (dataPlace bn) → h' c = h c := fun c hc => update_of_ne hc ..
  refine ⟨?_, hPtr, ?_⟩
  · intro b
    grind [hTree.owned _ hNe]
  · intro x
    by_cases hx : x / BSIZE = bn
    · rw [if_pos hx]
      subst hx
      rw [← hPtr] at hNe hAt
      exact fileByte_of_some hNe hAt
    · rw [if_neg hx]
      apply fileByte_congr (hPtr _)
      intro hNe'
      apply hKeep
      intro hEq
      exact hx (dataPlace_injective (hTree.inj _ _ hNe' hEq))

-- Growing Trees

/-
  The tree `a', h'` extends `a, h` with zeroed blocks: the
  bytes of the file are the same, and every newly owned block
  is in the tree.
-/
structure Grows (a : Addrs) (h : Heap) (a' : Addrs) (h' : Heap) : Prop where
  keep : ∀ p, ptr a h p ≠ 0 → ptr a' h' p = ptr a h p
  dom : ∀ b, h b ≠ none → h' b ≠ none
  bytes : ∀ x, fileByte a' h' x = fileByte a h x
  fresh : ∀ b, h' b ≠ none → h b ≠ none ∨ b ≠ 0 ∧ ∃ p, ptr a' h' p = b

theorem Grows.refl (a : Addrs) (h : Heap) : Grows a h a h where
  keep := fun _ _ => rfl
  dom := fun _ hOwn => hOwn
  bytes := fun _ => rfl
  fresh := fun _ hOwn => Or.inl hOwn

theorem Grows.trans {a' a'' : Addrs} {h' h'' : Heap} (hFirst : Grows a h a' h')
    (hThen : Grows a' h' a'' h'') : Grows a h a'' h'' where
  keep := by
    intro p hNe
    have hMid := hFirst.keep p hNe
    rw [hThen.keep p (hMid ▸ hNe), hMid]
  dom := fun b hOwn => hThen.dom b (hFirst.dom b hOwn)
  bytes := fun x => by rw [hThen.bytes, hFirst.bytes]
  fresh := by
    intro b hOwn
    have hKeep := hThen.keep
    grind [hThen.fresh b hOwn, hFirst.fresh b]

theorem Grows.attach {a' : Addrs} {h' : Heap} {p₀ : Place} (hb : b ≠ 0) (hPtr : ∀ p,
      ptr a' h' p = if p = p₀ then b else ptr a h p) (hEmpty : ptr a h p₀ = 0)
    (hZero : h' b = some Bytes.zero) (hData : ∀ p, p.isNode = false → ptr a h p ≠ 0 →
      h' (ptr a h p) = h (ptr a h p)) (hDom : ∀ c, h c ≠ none → h' c ≠ none)
    (hFresh : ∀ c, h' c ≠ none → h c ≠ none ∨ c = b) : Grows a h a' h' where
  keep := by
    intro p hNe
    rw [hPtr]
    grind
  dom := hDom
  bytes := by
    intro x
    by_cases hp : dataPlace (x / BSIZE) = p₀
    · have hNew := hPtr (dataPlace (x / BSIZE))
      rw [if_pos hp] at hNew
      have hOld : ptr a h (dataPlace (x / BSIZE)) = 0 := by
        rw [hp]
        exact hEmpty
      rw [fileByte_of_hole hOld, fileByte_of_some (hNew ▸ hb) (hNew ▸ hZero), Bytes.get_zero]
    · have hSame := hPtr (dataPlace (x / BSIZE))
      rw [if_neg hp] at hSame
      exact fileByte_congr hSame (hData _ (dataPlace_not_node _))
  fresh := by
    intro c hOwn
    have hHere := hPtr p₀
    grind [hFresh c hOwn]

theorem Tree.alloc_slot (hTree : Tree a h) (hNone : h b = none) (hb : b ≠ 0) (hLt : b < 2 ^ 32)
    {k : Nat} (hk : k < NDIRECT + 2) (hEmpty : a.get k = 0) :
    let h' := update h b (some Bytes.zero)
    Tree (a.set k b) h' ∧ Grows a h (a.set k b) h' ∧ ∀ p, ptr (a.set k b) h' p =
        if p = Place.slot k then b else ptr a h p := by
  intro h'
  have hTake : ∀ p, ptr a h' p = ptr a h p := hTree.ptr_take hNone _
  have hZero : h' b = some Bytes.zero := update_self ..
  have hPtr : ∀ p, ptr (a.set k b) h' p = if p = Place.slot k then b else ptr a h p := by
    intro p
    rw [ptr_attach_slot hk hLt hEmpty hZero, hTake]
  have hKeep : ∀ c, c ≠ b → h' c = h c := fun c hc => update_of_ne hc ..
  have hDom : ∀ c, h c ≠ none → h' c ≠ none := by grind
  have hNew := fun p (hNe : ptr a h p ≠ 0) => hTree.ne_of_unowned hNone hNe
  refine ⟨?_, ?_, ?_⟩
  · exact hTree.attach hPtr hNew (by rw [hZero]; simp) hDom
  · refine Grows.attach hb hPtr ?_ hZero ?_ hDom ?_
    · rw [ptr_slot, hEmpty]
    · intro p _ hNe
      exact hKeep _ (hNew p hNe)
    · grind
  · exact hPtr

theorem Tree.alloc_entry (hTree : Tree a h) (hNone : h b = none) (hb : b ≠ 0) (hLt : b < 2 ^ 32)
    (hNode : q.isNode) (hc : ptr a h q ≠ 0) (hBlk : h (ptr a h q) = some blk)
    (hj : j < NINDIRECT) (hEmpty : ptr a h (q.child j) = 0) :
    let h' := update (update h b (some Bytes.zero)) (ptr a h q) (some (blk.putU32 (j * 4) b))
    Tree a h' ∧ Grows a h a h' ∧ ∀ p, ptr a h' p = if p = q.child j then b else ptr a h p := by
  intro h'
  let h₁ : Heap := update h b (some Bytes.zero)
  have hNew := fun p (hNe : ptr a h p ≠ 0) =>
    hTree.ne_of_unowned hNone hNe
  have hTake : ∀ p, ptr a h₁ p = ptr a h p := hTree.ptr_take hNone _
  have hDom₁ : ∀ c, h c ≠ none → h₁ c ≠ none := by
    intro c hOwn
    grind [update_apply]
  have hTree₁ : Tree a h₁ := hTree.of_ptr_eq hTake hDom₁
  have hPtr : ∀ p, ptr a h' p = if p = q.child j then b else ptr a h p := by
    intro p
    have hBlk₁ : h₁ (ptr a h₁ q) = some blk := by
      rw [hTake, ← hBlk]
      exact update_of_ne (hNew q hc) ..
    have hAttach := ptr_attach_entry (p := p) (b := b) (j := j) hTree₁ hNode (hTake q ▸ hc) hBlk₁ hj
      hLt (by rw [hTake, hEmpty]) (update_self ..) (by
        rw [hTake]
        exact (hNew q hc).symm)
    rw [hTake q, hTake p] at hAttach
    exact hAttach
  have hKeep : ∀ c, c ≠ b → c ≠ ptr a h q → h' c = h c := by
    intro c hcb hcq
    simp [h', hcb, hcq]
  have hZero : h' b = some Bytes.zero := by simp [h', (hNew q hc).symm]
  have hAt : h' (ptr a h q) ≠ none := by simp [h']
  have hDom : ∀ c, h c ≠ none → h' c ≠ none := by grind
  refine ⟨?_, ?_, ?_⟩
  · exact hTree.attach hPtr hNew (by rw [hZero]; simp) hDom
  · refine Grows.attach hb hPtr hEmpty hZero ?_ hDom ?_
    · intro p hData hNe
      apply hKeep _ (hNew p hNe)
      have hInj := hTree.inj p q hNe
      grind
    · grind
  · exact hPtr

end PlayXv6
