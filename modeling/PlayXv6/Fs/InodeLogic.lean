import PlayXv6.Fs.Tree

/-
  Rules for programs that work on one locked inode.

  The view is what the holder of the lock controls: the
  in-memory state, the inode as stored, the blocks owned by
  the file and, when nobody else allocates, the set of free
  blocks.  Outside truncation the tree stays sound after
  every command.

  Main declarations:
    * `ILoc`, `inodeRules`
    * `wp_bmapOrAlloc`
-/

namespace PlayXv6

open Function Rules

def Superblock.dataStart (sb : Superblock) : Nat := sb.size - sb.nblocks

/-
  The regions of the disk follow each other: inodes, bitmap,
  data; and block numbers are 32-bit numbers.
-/
structure Superblock.Ok (sb : Superblock) : Prop where
  inodes : sb.inodestart + (sb.ninodes + IPB - 1) / IPB ≤ sb.bmapstart
  bitmap : sb.bmapstart + (sb.size + BPB - 1) / BPB ≤ sb.dataStart
  data : sb.dataStart ≤ sb.size
  pos : 0 < sb.size
  small : sb.size < 2 ^ 32

variable {sb : Superblock}

theorem Superblock.Ok.dataStart_pos (hSb : sb.Ok) : 0 < sb.dataStart := by
  have hPos := hSb.pos
  have hMap := hSb.bitmap
  simp only [BPB, BSIZE] at hMap
  omega

/-
  What the holder of an inode's lock controls.  `free` is the
  set of free blocks, or `none` when others may allocate too.
-/
structure ILoc where
  st : InodeState
  dino : DInode
  heap : Heap
  free : Option (Finset Nat)
  trunc : Bool

/- The stored slots are empty or those in memory. -/
def Below (d a : Addrs) : Prop := ∀ k, d.get k ≠ 0 → a.get k = d.get k

namespace ILoc

abbrev ptr (v : ILoc) (p : Place) : Nat := PlayXv6.ptr v.st.addrs v.heap p

abbrev byte (v : ILoc) (x : Nat) : UInt8 := fileByte v.st.addrs v.heap x

def put (v : ILoc) (b : Nat) (blk : Block) : ILoc := { v with heap := update v.heap b (some blk) }

def take (v : ILoc) (b : Nat) (blk : Block) : ILoc :=
  { v with
    heap := update v.heap b (some blk)
    free := v.free.map fun F => F.erase b }

def give (v : ILoc) (b : Nat) : ILoc :=
  { v with
    heap := update v.heap b none
    free := v.free.map fun F => insert b F }

/- Outside truncation the tree is sound. -/
def Ok (v : ILoc) : Prop := v.trunc = false → Tree v.st.addrs v.heap ∧ Below v.dino.addrs v.st.addrs

def MayBeFree (v : ILoc) (b : Nat) : Prop := ∀ F, v.free = some F → b ∈ F

/- None of these blocks is known to be free. -/
def NoneFree (v : ILoc) (lo hi : Nat) : Prop := ∀ F, v.free = some F → ∀ b, lo ≤ b → b < hi → b ∉ F

end ILoc

-- The Rules

/- What a command needs and does for the inode `i`. -/
def inodePre (sb : Superblock) (i : Nat) : {β : Type} → Cmd β → (β → ILoc → Prop) → ILoc → Prop
  | _, .bread b, Q, v => ∃ blk, v.heap b = some blk ∧ Q blk v
  | _, .logWrite b f, Q, v =>
    ∃ blk, v.heap b = some blk ∧ (v.put b (f blk)).Ok ∧ Q () (v.put b (f blk))
  | _, .claimBit blkno upto, Q, v =>
    ∃ base, base % BPB = 0 ∧ blkno = sb.bmapstart + base / BPB ∧
      upto ≤ BPB ∧ base + upto ≤ sb.size ∧ (∀ bi blk, bi < upto → sb.dataStart ≤ base + bi →
        v.heap (base + bi) = none → v.MayBeFree (base + bi) →
          Q (some bi) (v.take (base + bi) blk)) ∧ (v.NoneFree base (base + upto) → Q none v)
  | _, .clearBit blkno bi, Q, v =>
    ∃ b, blkno = sb.bmapstart + b / BPB ∧ bi = b % BPB ∧
      v.heap b ≠ none ∧ (v.give b).Ok ∧ Q () (v.give b)
  | _, .writeDinode j d, Q, v =>
    j = i ∧ d = v.st ∧ { v with dino := d }.Ok ∧ Q () { v with dino := d }
  | _, .getState j, Q, v => j = i ∧ Q v.st v
  | _, .setState j st, Q, v =>
    j = i ∧ (st.typ = v.st.typ ∧ st.nlink = v.st.nlink) ∧
      { v with st := st }.Ok ∧ Q () { v with st := st }
  | _, .now, Q, v => ∀ t, Q t v
  | _, .mark (.truncBegin j), Q, v => j = i ∧ Q () { v with trunc := true }
  | _, .mark (.truncEnd j), Q, v =>
    j = i ∧ { v with trunc := false }.Ok ∧ Q () { v with trunc := false }
  | _, _, _, _ => False

def inodeRules (sb : Superblock) (i : Nat) : Rules Cmd ILoc where
  pre := inodePre sb i
  mono := by
    intro β c Q Q' hImp v hPre
    cases c with
    | bread b =>
      rcases hPre with ⟨blk, hBlk, hQ⟩
      exact ⟨blk, hBlk, hImp _ _ hQ⟩
    | logWrite b f =>
      rcases hPre with ⟨blk, hBlk, hOk, hQ⟩
      exact ⟨blk, hBlk, hOk, hImp _ _ hQ⟩
    | claimBit blkno upto =>
      rcases hPre with ⟨base, hBase, hBlkno, hUpto, hFit, hSome, hNone⟩
      refine ⟨base, hBase, hBlkno, hUpto, hFit, ?_, ?_⟩
      · intro bi blk hLt hData hUnowned hFree
        exact hImp _ _ (hSome bi blk hLt hData hUnowned hFree)
      · intro hFull
        exact hImp _ _ (hNone hFull)
    | clearBit blkno bi =>
      rcases hPre with ⟨b, hBlkno, hBi, hOwn, hOk, hQ⟩
      exact ⟨b, hBlkno, hBi, hOwn, hOk, hImp _ _ hQ⟩
    | writeDinode j d =>
      rcases hPre with ⟨hj, hd, hOk, hQ⟩
      exact ⟨hj, hd, hOk, hImp _ _ hQ⟩
    | getState j => exact ⟨hPre.1, hImp _ _ hPre.2⟩
    | setState j st =>
      rcases hPre with ⟨hj, hSame, hOk, hQ⟩
      exact ⟨hj, hSame, hOk, hImp _ _ hQ⟩
    | now => exact fun t => hImp _ _ (hPre t)
    | mark m =>
      cases m with
      | truncBegin j => exact ⟨hPre.1, hImp _ _ hPre.2⟩
      | truncEnd j =>
        rcases hPre with ⟨hj, hOk, hQ⟩
        exact ⟨hj, hOk, hImp _ _ hQ⟩
      | _ => exact hPre.elim
    | _ => exact hPre.elim

/- Each command followed by the rest of a program. -/

variable {i b : Nat} {v : ILoc} {α : Type} {Q : α → ILoc → Prop}

theorem wp_bread {blk : Block} {f : Block → FsProg α} (hBlk : v.heap b = some blk)
    (hRest : (inodeRules sb i).wp (f blk) Q v) : (inodeRules sb i).wp (call (.bread b) >>= f) Q v :=
  ⟨blk, hBlk, hRest⟩

theorem wp_logWrite {blk : Block} {g : Block → Block} {f : Unit → FsProg α}
    (hBlk : v.heap b = some blk) (hOk : (v.put b (g blk)).Ok) (hRest : (inodeRules sb i).wp (f ()) Q
      (v.put b (g blk))) : (inodeRules sb i).wp (call (.logWrite b g) >>= f) Q v :=
  ⟨blk, hBlk, hOk, hRest⟩

theorem wp_getState {f : InodeState → FsProg α} (hRest : (inodeRules sb i).wp (f v.st) Q v) :
    (inodeRules sb i).wp (call (.getState i) >>= f) Q v := ⟨rfl, hRest⟩

theorem wp_setState {st : InodeState} {f : Unit → FsProg α}
    (hSame : st.typ = v.st.typ ∧ st.nlink = v.st.nlink) (hOk : { v with st := st }.Ok)
    (hRest : (inodeRules sb i).wp (f ()) Q { v with st := st }) :
    (inodeRules sb i).wp (call (.setState i st) >>= f) Q v := ⟨rfl, hSame, hOk, hRest⟩

theorem wp_now {f : UInt32 → FsProg α} (hRest : ∀ t, (inodeRules sb i).wp (f t) Q v) :
    (inodeRules sb i).wp (call .now >>= f) Q v := hRest

theorem wp_truncBegin {f : Unit → FsProg α} (hRest : (inodeRules sb i).wp (f ()) Q
      { v with trunc := true }) : (inodeRules sb i).wp (call (.mark (.truncBegin i)) >>= f) Q v :=
  ⟨rfl, hRest⟩

theorem wp_iupdate {f : Unit → FsProg α} (hOk : { v with dino := v.st }.Ok)
    (hRest : (inodeRules sb i).wp (f ()) Q { v with dino := v.st }) :
    (inodeRules sb i).wp (iupdate i >>= f) Q v := ⟨rfl, rfl, rfl, hOk, hRest⟩

-- Allocating a Block

namespace ILoc

theorem put_take (v : ILoc) (b : Nat) (blk blk' : Block) :
    (v.take b blk).put b blk' = v.take b blk' := by simp [put, take]

theorem Ok.take (hOk : v.Ok) {b : Nat} (hNone : v.heap b = none) (blk : Block) :
    (v.take b blk).Ok := by
  intro hTrunc
  rcases hOk hTrunc with ⟨hTree, hBelow⟩
  refine ⟨?_, hBelow⟩
  apply hTree.of_ptr_eq (hTree.ptr_take hNone _)
  intro c hOwn
  by_cases hc : c = b
  · simp [hc]
  · simpa [ILoc.take, hc] using hOwn

end ILoc

variable {Q : Option Nat → ILoc → Prop}

/- One round of the loop per bitmap block. -/
theorem wp_ballocFrom (hOk : v.Ok) (hSome : ∀ b, sb.dataStart ≤ b → b < sb.size →
      v.heap b = none → v.MayBeFree b → Q (some b) (v.take b Bytes.zero))
    (hNone : v.NoneFree 0 sb.size → Q none v) (n m : Nat) (hCount : n + m = sb.size / BPB + 1)
    (hSeen : v.NoneFree 0 (m * BPB)) : (inodeRules sb i).wp (ballocFrom sb n (m * BPB)) Q v := by
  have hFull : sb.size ≤ m * BPB → Q none v := by
    intro hLe
    apply hNone
    intro F hF b hLo hHi
    exact hSeen F hF b hLo (by omega)
  induction n generalizing m with
  | zero =>
    apply hFull
    simp only [BPB, BSIZE] at *
    omega
  | succ n ih =>
    unfold ballocFrom
    split
    · rename_i hLt
      simp only [Prog.bind_eq, Prog.lift_bind, wp_op, inodeRules, inodePre]
      refine ⟨m * BPB, Nat.mul_mod_left _ _, rfl, Nat.min_le_left _ _, by omega, ?_, ?_⟩
      · intro bi blk hBi hData hUnowned hFree
        have hIn : m * BPB + bi < sb.size := by grind
        refine ⟨blk, by simp [ILoc.take], ?_, ?_⟩
        · rw [ILoc.put_take]
          exact hOk.take hUnowned _
        · rw [ILoc.put_take]
          exact hSome _ hData hIn hUnowned hFree
      · intro hBlock
        have hNext : m * BPB + BPB = (m + 1) * BPB := by rw [Nat.add_mul, Nat.one_mul]
        have hSeen' : ∀ hi, hi ≤ (m + 1) * BPB → hi ≤ sb.size → v.NoneFree 0 hi := by
          intro hi hLe hSize F hF b hLo hHi
          by_cases hb : b < m * BPB
          · exact hSeen F hF b hLo hb
          · exact hBlock F hF b (by omega) (by omega)
        show (inodeRules sb i).wp (ballocFrom sb n (m * BPB + BPB)) Q v
        rw [hNext]
        by_cases hMore : (m + 1) * BPB ≤ sb.size
        · apply ih (m + 1) (by omega) (hSeen' _ (Nat.le_refl _) hMore)
          intro hLe
          exact hNone (hSeen' _ (by omega) (Nat.le_refl _))
        · have hDone : Q none v := hNone (hSeen' _ (by omega) (Nat.le_refl _))
          cases n with
          | zero => exact hDone
          | succ n =>
            unfold ballocFrom
            rw [if_neg (by omega)]
            exact hDone
    · exact hFull (by omega)

theorem wp_balloc (hOk : v.Ok) (hSome : ∀ b, sb.dataStart ≤ b → b < sb.size →
      v.heap b = none → v.MayBeFree b → Q (some b) (v.take b Bytes.zero))
    (hNone : v.NoneFree 0 sb.size → Q none v) : (inodeRules sb i).wp (balloc sb) Q v := by
  have hLoop := wp_ballocFrom (i := i) hOk hSome hNone (sb.size / BPB + 1) 0 rfl (by
      intro F _ b _ hLt
      simp at hLt)
  simpa [balloc] using hLoop

-- Mapping File Blocks

/-
  The state of an inode between operations: a sound tree, a
  stored copy below it, and free blocks that are not owned.
-/
structure ILoc.Sound (sb : Superblock) (v : ILoc) : Prop where
  trunc : v.trunc = false
  tree : Tree v.st.addrs v.heap
  below : Below v.dino.addrs v.st.addrs
  free : ∀ F, v.free = some F → ∀ b ∈ F, v.heap b = none ∧ b < sb.size

theorem ILoc.Sound.ok (hv : v.Sound sb) :
    v.Ok := fun _ => ⟨hv.tree, hv.below⟩

/- `v'` is `v` with `n` more blocks in the tree, all zero, and nothing else changed. -/
structure Extended (sb : Superblock) (v v' : ILoc) (n : Nat) : Prop where
  sound : v'.Sound sb
  grows : Grows v.st.addrs v.heap v'.st.addrs v'.heap
  st : v'.st = { v.st with addrs := v'.st.addrs }
  dino : v'.dino = v.dino
  free : ∀ F, v.free = some F → ∃ F', v'.free = some F' ∧ F' ⊆ F ∧ F'.card + n = F.card
  unknown : v.free = none → v'.free = none

theorem Extended.refl (hv : v.Sound sb) : Extended sb v v 0 where
  sound := hv
  grows := Grows.refl _ _
  st := rfl
  dino := rfl
  free := fun F hF => ⟨F, hF, Finset.Subset.refl F, rfl⟩
  unknown := fun hF => hF

theorem Extended.trans {v' v'' : ILoc} {n n' : Nat}
    (hFirst : Extended sb v v' n) (hThen : Extended sb v' v'' n') : Extended sb v v'' (n + n') where
  sound := hThen.sound
  grows := hFirst.grows.trans hThen.grows
  st := by rw [hThen.st, hFirst.st]
  dino := by rw [hThen.dino, hFirst.dino]
  free := by
    intro F hF
    rcases hFirst.free F hF with ⟨F', hF', hSub, hCard⟩
    rcases hThen.free F' hF' with ⟨F'', hF'', hSub', hCard'⟩
    exact ⟨F'', hF'', hSub'.trans hSub, by omega⟩
  unknown := fun hF => hThen.unknown (hFirst.unknown hF)

/- No block is free once all have been looked at. -/
theorem ILoc.Sound.free_eq_empty (hv : v.Sound sb)
    (hFull : v.NoneFree 0 sb.size) {F : Finset Nat} (hF : v.free = some F) : F = ∅ := by
  apply Finset.eq_empty_of_forall_notMem
  intro b hb
  have hLt := (hv.free F hF b hb).2
  exact hFull F hF b (Nat.zero_le b) hLt hb

/- The result of taking one block and attaching it. -/
theorem Extended.attach {b : Nat} (hv : v.Sound sb)
    (hFree : v.MayBeFree b) {a : Addrs} {h : Heap} (hTree : Tree a h)
    (hGrows : Grows v.st.addrs v.heap a h) (hBelow : Below v.dino.addrs a)
    (hDom : ∀ c, c ≠ b → v.heap c = none → h c = none) : Extended sb v
      { v with
        st := { v.st with addrs := a }
        heap := h
        free := v.free.map fun F => F.erase b } 1 where
  sound :=
    { trunc := hv.trunc
      tree := hTree
      below := hBelow
      free := by
        intro F hF c hc
        rcases Option.map_eq_some_iff.mp hF with ⟨F₀, hF₀, rfl⟩
        rcases Finset.mem_erase.mp hc with ⟨hNe, hMem⟩
        rcases hv.free F₀ hF₀ c hMem with ⟨hNone, hLt⟩
        exact ⟨hDom c hNe hNone, hLt⟩ }
  grows := hGrows
  st := rfl
  dino := rfl
  free := by
    intro F hF
    have hMem := hFree F hF
    refine ⟨F.erase b, by simp [hF], F.erase_subset b, ?_⟩
    exact Finset.card_erase_add_one hMem
  unknown := by
    intro hF
    simp [hF]

/- `v'` is `v` with block `b` at the place `p₀`. -/
structure Filled (sb : Superblock) (v v' : ILoc) (p₀ : Place) (b : Nat) : Prop where
  extended : Extended sb v v' (if v.ptr p₀ = 0 then 1 else 0)
  ne : b ≠ 0
  ptr : ∀ p, v'.ptr p = if p = p₀ then b else v.ptr p
  same : v.ptr p₀ ≠ 0 → v' = v

/- The outcome of filling one place: a block is there, or it was empty and no block is free. -/
def FillPost (sb : Superblock) (v : ILoc) (p₀ : Place) : Option Nat → ILoc → Prop
  | some b, v' => Filled sb v v' p₀ b
  | none, v' => v' = v ∧ v.ptr p₀ = 0 ∧ v.NoneFree 0 sb.size

theorem Filled.present (hv : v.Sound sb) {p₀ : Place}
    (hNe : v.ptr p₀ ≠ 0) : Filled sb v v p₀ (v.ptr p₀) where
  extended := by
    rw [if_neg hNe]
    exact Extended.refl hv
  ne := hNe
  ptr := by
    intro p
    by_cases hp : p = p₀
    · rw [if_pos hp, hp]
    · rw [if_neg hp]
  same := fun _ => rfl

/- The slots of `addrs` at other places are untouched. -/
theorem Filled.get_eq {v' : ILoc} {p₀ : Place} {b k : Nat}
    (hFill : Filled sb v v' p₀ b) (hNe : Place.slot k ≠ p₀) :
    v'.st.addrs.get k = v.st.addrs.get k := by
  have hPtr := hFill.ptr (Place.slot k)
  rwa [if_neg hNe, ILoc.ptr, ILoc.ptr, ptr_slot, ptr_slot] at hPtr

theorem wp_slotOrAlloc (hSb : sb.Ok) (hv : v.Sound sb) {k : Nat} (hk : k < NDIRECT + 2) :
    (inodeRules sb i).wp (slotOrAlloc sb i k) (FillPost sb v (Place.slot k)) v := by
  have hSlot : v.ptr (Place.slot k) = v.st.addrs.get k := ptr_slot _ _ k
  unfold slotOrAlloc
  apply wp_getState
  dsimp only
  split
  · rename_i hNe
    show Filled sb v v (Place.slot k) (v.st.addrs.get k)
    rw [← hSlot]
    exact Filled.present hv (hSlot ▸ hNe)
  · rename_i hZero
    have hEmpty : v.st.addrs.get k = 0 := not_not.mp hZero
    apply wp_bind.mpr
    apply wp_balloc hv.ok
    · intro b hData hLt hNone hFree
      have hPos := hSb.dataStart_pos
      have hSmall := hSb.small
      have hb : b ≠ 0 := by omega
      have hb32 : b < 2 ^ 32 := by omega
      rcases hv.tree.alloc_slot hNone hb hb32 hk hEmpty with ⟨hTree, hGrows, hPtr⟩
      have hBelow : Below v.dino.addrs (v.st.addrs.set k b) := by
        intro j hj
        rw [Addrs.get_set hk hb32, if_neg]
        · exact hv.below j hj
        · intro hjk
          have hSub := hv.below j hj
          rw [hjk, hEmpty] at hSub
          exact hj (hjk ▸ hSub.symm)
      apply wp_getState
      refine wp_setState ?_ ?_ ?_
      · exact ⟨rfl, rfl⟩
      · exact fun _ => ⟨hTree, hBelow⟩
      refine ⟨?_, hb, hPtr, ?_⟩
      · rw [if_pos (hSlot.trans hEmpty)]
        apply Extended.attach hv hFree hTree hGrows hBelow
        intro c hc hNone'
        rw [update_of_ne hc]
        exact hNone'
      · intro hNe
        exact absurd (hSlot.trans hEmpty) hNe
    · intro hFull
      exact ⟨rfl, hSlot.trans hEmpty, hFull⟩

theorem wp_entryOrAlloc (hSb : sb.Ok) (hv : v.Sound sb) {q : Place} (hNode : q.isNode)
    (hNe : v.ptr q ≠ 0) {j : Nat} (hj : j < NINDIRECT) :
    (inodeRules sb i).wp (entryOrAlloc sb (v.ptr q) j) (FillPost sb v (q.child j)) v := by
  have hOwned : v.heap (v.ptr q) ≠ none := hv.tree.owned q hNe
  rcases Option.ne_none_iff_exists'.mp hOwned with ⟨blk, hBlk⟩
  have hEntry : v.ptr (q.child j) = blk.u32At (j * 4) := by
    unfold ILoc.ptr
    rw [ptr_child hNode]
    exact entry_of_some hNe hBlk
  unfold entryOrAlloc
  apply wp_bread hBlk
  dsimp only
  split
  · rename_i hCur
    show Filled sb v v (q.child j) (blk.u32At (j * 4))
    rw [← hEntry]
    exact Filled.present hv (hEntry ▸ hCur)
  · rename_i hCur
    have hEmpty : v.ptr (q.child j) = 0 := by
      rw [hEntry]
      exact not_not.mp hCur
    apply wp_bind.mpr
    apply wp_balloc hv.ok
    · intro b hData hLt hNone hFree
      have hPos := hSb.dataStart_pos
      have hSmall := hSb.small
      have hb : b ≠ 0 := by omega
      have hb32 : b < 2 ^ 32 := by omega
      rcases hv.tree.alloc_entry hNone hb hb32 hNode hNe hBlk hj hEmpty with ⟨hTree, hGrows, hPtr⟩
      have hOther : v.ptr q ≠ b := hv.tree.ne_of_unowned hNone hNe
      have hAt : (v.take b Bytes.zero).heap (v.ptr q) = some blk := by
        simpa [ILoc.take, hOther] using hBlk
      refine wp_logWrite hAt ?_ ?_
      · exact fun _ => ⟨hTree, hv.below⟩
      refine ⟨?_, hb, hPtr, ?_⟩
      · rw [if_pos hEmpty]
        apply Extended.attach hv hFree hTree hGrows hv.below
        intro c hc hNone'
        have hcq : c ≠ v.ptr q := by
          intro hEq
          rw [hEq] at hNone'
          exact hv.tree.owned q hNe hNone'
        rw [update_of_ne hcq, update_of_ne hc]
        exact hNone'
      · intro hNe'
        exact absurd hEmpty hNe'
    · intro hFull
      exact ⟨rfl, hEmpty, hFull⟩

theorem wp_bmap (hTree : Tree v.st.addrs v.heap) (bn : Nat) : (inodeRules sb i).wp (bmap i bn)
      (fun b v' => v' = v ∧ b = v.ptr (dataPlace bn)) v := by
  have hBread : ∀ q, v.ptr q ≠ 0 → ∃ blk, v.heap (v.ptr q) = some blk ∧
        ∀ j, entry v.heap (v.ptr q) j = blk.u32At (j * 4) := fun q hNe => hTree.exists_block hNe
  unfold bmap
  apply wp_getState
  dsimp only
  split
  · rename_i hDirect
    refine ⟨rfl, ?_⟩
    simp [dataPlace, ILoc.ptr, ptr, hDirect]
  · rename_i hDirect
    split
    · rename_i hSingle
      have hPlace : dataPlace bn = .ind (bn - NDIRECT) := by simp [dataPlace, hDirect, hSingle]
      rw [hPlace]
      split
      · rename_i hZero
        refine ⟨rfl, ?_⟩
        simp [ILoc.ptr, ptr, hZero]
      · rename_i hNe
        rcases hBread .single hNe with ⟨blk, hBlk, hEntry⟩
        apply wp_bread hBlk
        exact ⟨rfl, (hEntry _).symm⟩
    · rename_i hSingle
      have hPlace : dataPlace bn = .inner ((bn - NDIRECT - NINDIRECT) / NINDIRECT)
            ((bn - NDIRECT - NINDIRECT) % NINDIRECT) := by simp [dataPlace, hDirect, hSingle]
      rw [hPlace]
      split
      · rename_i hMax
        refine ⟨rfl, ?_⟩
        have hOuter : NINDIRECT ≤ (bn - NDIRECT - NINDIRECT) / NINDIRECT := by
          simp only [MAXFILE, NDIRECT, NINDIRECT, BSIZE, NDOUBLE_INDIRECT] at hMax ⊢
          omega
        simp [ILoc.ptr, ptr, entry_of_le hOuter]
      · split
        · rename_i hZero
          refine ⟨rfl, ?_⟩
          simp [ILoc.ptr, ptr, hZero]
        · rename_i hNe
          rcases hBread .double hNe with ⟨blk, hBlk, hEntry⟩
          apply wp_bread hBlk
          rw [← hEntry]
          split
          · rename_i hZero
            have hNoLeaf : v.ptr (.leaf ((bn - NDIRECT - NINDIRECT) / NINDIRECT)) = 0 := hZero
            refine ⟨rfl, ?_⟩
            show 0 = entry v.heap (v.ptr (.leaf _)) _
            rw [hNoLeaf, entry_zero]
          · rename_i hLeaf
            rcases hBread (.leaf _) hLeaf with ⟨blk', hBlk', hEntry'⟩
            apply wp_bread hBlk'
            exact ⟨rfl, (hEntry' _).symm⟩

/- The places on the way to file block `bn`. -/
def path (bn : Nat) : List Place :=
  if bn < NDIRECT then [.direct bn]
  else if bn < NDIRECT + NINDIRECT then
    [.single, .ind (bn - NDIRECT)]
  else
    [.double, .leaf ((bn - NDIRECT - NINDIRECT) / NINDIRECT),
      .inner ((bn - NDIRECT - NINDIRECT) / NINDIRECT) ((bn - NDIRECT - NINDIRECT) % NINDIRECT)]

/- How many blocks are missing to map file block `bn`. -/
def missing (v : ILoc) (bn : Nat) : Nat := ((path bn).map fun p => if v.ptr p = 0 then 1 else 0).sum

/- The slot of `addrs` above file block `bn`. -/
def slotOf (bn : Nat) : Nat :=
  if bn < NDIRECT then bn
  else if bn < NDIRECT + NINDIRECT then NDIRECT
  else NDOUBLE_SLOT

/-
  The outcome of mapping a file block: the block is there, or
  the disk is full and fewer blocks than needed were taken.
-/
def MapPost (sb : Superblock) (v : ILoc) (bn : Nat) : Option Nat → ILoc → Prop
  | some b, v' =>
    Extended sb v v' (missing v bn) ∧ b ≠ 0 ∧ v'.ptr (dataPlace bn) = b ∧ ∀ k, k ≠ slotOf bn →
        v'.st.addrs.get k = v.st.addrs.get k
  | none, v' =>
    ∃ n, n < missing v bn ∧ Extended sb v v' n ∧ v'.NoneFree 0 sb.size ∧ (n = 0 → v' = v) ∧
      ∀ k, k ≠ slotOf bn → v'.st.addrs.get k = v.st.addrs.get k

/- Part of the way to file block `bn` has been filled. -/
structure Partial (sb : Superblock) (v : ILoc) (bn : Nat) (v' : ILoc) (n : Nat) : Prop where
  extended : Extended sb v v' n
  same : n = 0 → v' = v
  slots : ∀ k, k ≠ slotOf bn → v'.st.addrs.get k = v.st.addrs.get k

theorem Partial.refl (hv : v.Sound sb) (bn : Nat) : Partial sb v bn v 0 where
  extended := Extended.refl hv
  same := fun _ => rfl
  slots := fun _ _ => rfl

theorem Partial.fill {bn n b : Nat} {v₁ v₂ : ILoc} {p : Place} (hPart : Partial sb v bn v₁ n)
    (hFill : Filled sb v₁ v₂ p b) (hSlots : ∀ k, k ≠ slotOf bn → Place.slot k ≠ p) :
    Partial sb v bn v₂ (n + if v₁.ptr p = 0 then 1 else 0) where
  extended := hPart.extended.trans hFill.extended
  same := by
    intro hZero
    by_cases hEmpty : v₁.ptr p = 0
    · rw [if_pos hEmpty] at hZero
      omega
    · rw [if_neg hEmpty] at hZero
      rw [hFill.same hEmpty, hPart.same hZero]
  slots := by
    intro k hk
    rw [hFill.get_eq (hSlots k hk), hPart.slots k hk]

theorem Partial.full {bn n : Nat} {v₁ v₂ : ILoc} {p : Place} (hPart : Partial sb v bn v₁ n)
    (hFill : FillPost sb v₁ p none v₂) (hLt : v₁.ptr p = 0 → n < missing v bn) :
    MapPost sb v bn none v₂ := by
  rcases hFill with ⟨rfl, hEmpty, hFull⟩
  exact ⟨n, hLt hEmpty, hPart.extended, hFull, hPart.same, hPart.slots⟩

theorem slot_ne_child {q : Place} (hNode : q.isNode) (j k : Nat) : Place.slot k ≠ q.child j := by
  cases q <;> grind [Place.slot, Place.child, Place.isNode]

theorem wp_fillSlot (hSb : sb.Ok) (hv : v.Sound sb) (bn : Nat) {k : Nat} (hk : k < NDIRECT + 2)
    (hOf : slotOf bn = k) (hMissing : v.ptr (Place.slot k) = 0 → 0 < missing v bn) :
    (inodeRules sb i).wp (slotOrAlloc sb i k) (fun r v' => match r with
        | none => MapPost sb v bn none v'
        | some b => Filled sb v v' (Place.slot k) b ∧ Partial sb v bn v'
              (0 + if v.ptr (Place.slot k) = 0
                then 1 else 0)) v := by
  refine wp_mono ?_ (wp_slotOrAlloc hSb hv hk)
  intro r v' hFill
  cases r with
  | none => exact (Partial.refl hv bn).full hFill hMissing
  | some b =>
    refine ⟨hFill, (Partial.refl hv bn).fill hFill ?_⟩
    intro j hj hEq
    rw [hOf] at hj
    exact hj (Place.slot_injective hEq)

theorem wp_fillEntry (hSb : sb.Ok) {bn n c j : Nat} {v₁ : ILoc} {q : Place}
    (hPart : Partial sb v bn v₁ n) (hNode : q.isNode) (hc : v₁.ptr q = c) (hNe : c ≠ 0)
    (hj : j < NINDIRECT) (hMissing : v₁.ptr (q.child j) = 0 → n < missing v bn) :
    (inodeRules sb i).wp (entryOrAlloc sb c j) (fun r v' => match r with
        | none => MapPost sb v bn none v'
        | some b => Filled sb v₁ v' (q.child j) b ∧ Partial sb v bn v'
              (n + if v₁.ptr (q.child j) = 0
                then 1 else 0)) v₁ := by
  subst hc
  refine wp_mono ?_ (wp_entryOrAlloc hSb hPart.extended.sound hNode hNe hj)
  intro r v' hFill
  cases r with
  | none => exact hPart.full hFill hMissing
  | some b =>
    exact ⟨hFill, hPart.fill hFill fun k _ => slot_ne_child hNode j k⟩

/- `bmap_or_alloc` fills the places above a file block. -/
theorem wp_bmapOrAlloc (hSb : sb.Ok) (hv : v.Sound sb) {bn : Nat} (hMax : bn < MAXFILE) :
    (inodeRules sb i).wp (bmapOrAlloc sb i bn) (MapPost sb v bn) v := by
  unfold bmapOrAlloc
  split
  · rename_i hDirect
    have hPlace : Place.slot bn = dataPlace bn := by grind [dataPlace, Place.slot]
    have hMissing : missing v bn = 0 + if v.ptr (Place.slot bn) = 0 then 1 else 0 := by
      rw [hPlace]
      simp [missing, path, dataPlace, hDirect]
    refine wp_mono ?_ (wp_fillSlot hSb hv bn (by omega) (by simp [slotOf, hDirect]) ?_)
    · intro r v' hPost
      cases r with
      | none => exact hPost
      | some b =>
        rcases hPost with ⟨hFill, hPart⟩
        rw [← hMissing] at hPart
        refine ⟨hPart.extended, hFill.ne, ?_, hPart.slots⟩
        rw [← hPlace, hFill.ptr, if_pos rfl]
    · intro hEmpty
      rw [hMissing, if_pos hEmpty]
      omega
  · rename_i hDirect
    split
    · rename_i hSingle
      have hPlace : dataPlace bn = Place.single.child (bn - NDIRECT) := by
        simp [dataPlace, Place.child, hDirect, hSingle]
      have hMissing : missing v bn = 0 + (if v.ptr (Place.slot NDIRECT) = 0
              then 1 else 0) + if v.ptr (Place.single.child (bn - NDIRECT)) = 0
              then 1 else 0 := by
        simp only [missing, path, hDirect, hSingle, if_true, if_false, List.map_cons, List.map_nil,
          List.sum_cons, List.sum_nil]
        rw [Nat.zero_add, Nat.add_zero]
        rfl
      refine wp_bind_of (wp_fillSlot hSb hv bn
        (by omega) (by simp [slotOf, hDirect, hSingle]) ?_) ?_
      · intro hEmpty
        rw [hMissing, if_pos hEmpty]
        omega
      · intro r v₁ hPost
        cases r with
        | none => exact hPost
        | some ind =>
          rcases hPost with ⟨hFill, hPart⟩
          have hAt : v₁.ptr .single = ind := by
            rw [hFill.ptr]
            exact if_pos rfl
          have hKeep := hFill.ptr (Place.single.child (bn - NDIRECT))
          rw [if_neg (by simp [Place.slot, Place.child])] at hKeep
          refine wp_mono ?_ (wp_fillEntry hSb hPart
            (q := .single) rfl hAt hFill.ne (by omega) ?_)
          · intro r' v₂ hPost'
            cases r' with
            | none => exact hPost'
            | some b =>
              rcases hPost' with ⟨hFill', hPart'⟩
              rw [hKeep, ← hMissing] at hPart'
              refine ⟨hPart'.extended, hFill'.ne, ?_, hPart'.slots⟩
              rw [hPlace, hFill'.ptr, if_pos rfl]
          · intro hEmpty
            rw [hMissing, ← hKeep, if_pos hEmpty]
            omega
    · rename_i hSingle
      dsimp only
      rw [if_neg (Nat.not_le.mpr hMax)]
      generalize hOff : bn - NDIRECT - NINDIRECT = off
      have hBound : off / NINDIRECT < NINDIRECT := by
        simp only [MAXFILE, NDIRECT, NINDIRECT, BSIZE, NDOUBLE_INDIRECT] at hMax hOff ⊢
        omega
      have hPlace : dataPlace bn = (Place.double.child (off / NINDIRECT)).child
            (off % NINDIRECT) := by simp [dataPlace, Place.child, hDirect, hSingle, hOff]
      have hMissing : missing v bn = 0 + (if v.ptr (Place.slot NDOUBLE_SLOT) = 0
              then 1 else 0) + (if v.ptr (Place.double.child (off / NINDIRECT)) = 0 then 1 else 0) +
            if v.ptr (dataPlace bn) = 0 then 1 else 0 := by
        rw [hPlace]
        simp only [missing, path, hDirect, hSingle, if_false,
          List.map_cons, List.map_nil, List.sum_cons, List.sum_nil, hOff]
        rw [Nat.zero_add, Nat.add_zero, Nat.add_assoc]
        rfl
      refine wp_bind_of (wp_fillSlot hSb hv bn
        (Nat.lt_succ_self (NDIRECT + 1)) (by simp [slotOf, hDirect, hSingle]) ?_) ?_
      · intro hEmpty
        rw [hMissing, if_pos hEmpty]
        omega
      · intro r v₁ hPost
        cases r with
        | none => exact hPost
        | some root =>
          rcases hPost with ⟨hFill, hPart⟩
          have hAt : v₁.ptr .double = root := by
            rw [hFill.ptr]
            exact if_pos rfl
          have hKeep := hFill.ptr (Place.double.child (off / NINDIRECT))
          rw [if_neg (by simp [Place.slot, Place.child])] at hKeep
          have hKeep' := hFill.ptr (dataPlace bn)
          rw [if_neg (by
            rw [hPlace]
            simp [Place.slot, Place.child])] at hKeep'
          refine wp_bind_of (wp_fillEntry hSb hPart (q := .double) rfl hAt hFill.ne hBound ?_) ?_
          · intro hEmpty
            rw [hMissing, ← hKeep, if_pos hEmpty]
            omega
          · intro r' v₂ hPost'
            cases r' with
            | none => exact hPost'
            | some leaf =>
              rcases hPost' with ⟨hFill', hPart'⟩
              have hAt' : v₂.ptr (Place.double.child (off / NINDIRECT)) = leaf := by
                rw [hFill'.ptr, if_pos rfl]
              have hData := hFill'.ptr (dataPlace bn)
              rw [if_neg (by
                rw [hPlace]
                simp [Place.child]), hKeep'] at hData
              rw [hPlace] at hData hMissing
              refine wp_mono ?_ (wp_fillEntry hSb hPart' rfl hAt' hFill'.ne
                (Nat.mod_lt _ (show 0 < 128 by omega)) ?_)
              · intro r'' v₃ hPost''
                cases r'' with
                | none => exact hPost''
                | some b =>
                  rcases hPost'' with ⟨hFill'', hPart''⟩
                  rw [hKeep, hData, ← hMissing] at hPart''
                  refine ⟨hPart''.extended, hFill''.ne, ?_, hPart''.slots⟩
                  rw [hPlace, hFill''.ptr, if_pos rfl]
              · intro hEmpty
                rw [hMissing, hKeep, ← hData, if_pos hEmpty]
                omega

end PlayXv6
