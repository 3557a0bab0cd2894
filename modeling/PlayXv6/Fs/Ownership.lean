import PlayXv6.Fs.InodeTrunc

/-
  Who owns which block.

  The bitmap, the inode blocks and the data blocks are
  disjoint regions of the disk.  A ghost map gives every data
  block at most one owning inode; owned blocks have their bit
  set.  A command that respects the rules for one inode keeps
  this map in order and leaves all other inodes alone.

  Main declarations:
    * `Fs.freeSet`, `Advances`
    * `inodeRules_step`
-/

namespace PlayXv6

open Function

-- Bits of a Bitmap Block

theorem bitMask_toBitVec (bi : Nat) : (bitMask bi).toBitVec = BitVec.twoPow 8 (bi % 8) := by
  have hAll : ∀ k : Fin 8, ((1 : UInt8) <<< UInt8.ofNat k.val).toBitVec =
        BitVec.twoPow 8 k.val := by decide
  exact hAll ⟨bi % 8, Nat.mod_lt _ (by omega)⟩

theorem and_bitMask_ne_zero (x : UInt8) (bi : Nat) : (x &&& bitMask bi != 0) =
      x.toBitVec.getLsbD (bi % 8) := by
  have hLt : bi % 8 < 8 := Nat.mod_lt _ (by omega)
  have hZero : (x &&& bitMask bi = 0) ↔ (x &&& bitMask bi).toBitVec = 0#8 := by
    rw [← UInt8.toBitVec_inj]
    rfl
  rw [Bool.eq_iff_iff, bne_iff_ne, ne_eq, hZero,
    UInt8.toBitVec_and, bitMask_toBitVec, BitVec.and_twoPow]
  split
  · rename_i hBit
    simp only [hBit, iff_true]
    intro hEq
    have hGet := congrArg (fun b => b.getLsbD (bi % 8)) hEq
    simp [hLt] at hGet
  · rename_i hBit
    simp [hBit]

theorem bitSet_eq (blk : Block) (bi : Nat) : bitSet blk bi =
      (blk.get (bi / 8)).toBitVec.getLsbD (bi % 8) := and_bitMask_ne_zero _ _

variable {blk : Block} {bi bj : Nat}

/- Rewriting the byte of bit `bi` bears on the bits of that byte. -/
theorem bitSet_splice (hi : bi < BPB) (x : UInt8) : bitSet (blk.splice (bi / 8) [x]) bj =
    if bj / 8 = bi / 8 then x.toBitVec.getLsbD (bj % 8) else bitSet blk bj := by
  have hByte : bi / 8 < BSIZE := by
    simp only [BPB, BSIZE] at hi ⊢
    omega
  rw [bitSet_eq, bitSet_eq]
  split
  · rename_i hSame
    rw [hSame, Bytes.get_splice hByte]
    simp
  · rw [Bytes.get_splice_outside (by rw [List.length_singleton]; omega)]

theorem bitSet_setBit (hi : bi < BPB) : bitSet (setBit blk bi) bj =
      (decide (bj = bi) || bitSet blk bj) := by
  unfold setBit
  rw [bitSet_splice hi]
  split
  · rename_i hSame
    have hIff : bj = bi ↔ bj % 8 = bi % 8 := by omega
    simp [bitSet_eq, hSame, bitMask_toBitVec, hIff, Nat.mod_lt, Bool.or_comm]
  · rename_i hSame
    have hNe : bj ≠ bi := fun hEq => hSame (by rw [hEq])
    simp [hNe]

theorem bitSet_unsetBit (hi : bi < BPB) : bitSet (unsetBit blk bi) bj =
      (!decide (bj = bi) && bitSet blk bj) := by
  unfold unsetBit
  rw [bitSet_splice hi]
  split
  · rename_i hSame
    have hIff : bj = bi ↔ bj % 8 = bi % 8 := by omega
    simp [bitSet_eq, hSame, bitMask_toBitVec, hIff, Nat.mod_lt, Bool.and_comm]
  · rename_i hSame
    have hNe : bj ≠ bi := fun hEq => hSame (by rw [hEq])
    simp [hNe]

theorem firstClear_eq_some {blk : Block} {n lo bi : Nat} (hFound : firstClear blk n lo = some bi) :
    lo ≤ bi ∧ bi < lo + n ∧ bitSet blk bi = false := by
  induction n generalizing lo with
  | zero => simp [firstClear] at hFound
  | succ n ih =>
    unfold firstClear at hFound
    split at hFound
    · rcases ih hFound with ⟨hLo, hHi, hClear⟩
      exact ⟨by omega, by omega, hClear⟩
    · rename_i hClear
      obtain rfl := Option.some.inj hFound
      exact ⟨le_refl _, by omega, by simpa using hClear⟩

theorem firstClear_eq_none {blk : Block} {n lo : Nat} (hNone : firstClear blk n lo = none)
    {bi : Nat} (hLo : lo ≤ bi) (hHi : bi < lo + n) : bitSet blk bi = true := by
  induction n generalizing lo with
  | zero => omega
  | succ n ih =>
    unfold firstClear at hNone
    split at hNone
    · rename_i hSet
      by_cases hEq : bi = lo
      · rw [hEq]
        exact hSet
      · exact ih hNone (by omega) (by omega)
    · simp at hNone

-- The Regions of the Disk

def Fs.bit (s : Fs) (sb : Superblock) (b : Nat) : Bool :=
  bitSet (s.blocks (sb.bmapstart + b / BPB)) (b % BPB)

def Fs.freeSet (s : Fs) (sb : Superblock) : Finset Nat :=
  (Finset.range sb.size).filter fun b => s.bit sb b = false

theorem Fs.mem_freeSet {s : Fs} {sb : Superblock} {b : Nat} :
    b ∈ s.freeSet sb ↔ b < sb.size ∧ s.bit sb b = false := by simp [freeSet]

variable {sb : Superblock} {s : Fs} {i j b c : Nat} {f : Block → Block}

theorem Superblock.Ok.iblock_lt (hSb : sb.Ok) (hi : i < sb.ninodes) :
    iblock sb i < sb.bmapstart := by
  have hInodes := hSb.inodes
  simp only [IPB, BSIZE, DINODE_SIZE] at hInodes
  simp only [iblock, IPB, BSIZE, DINODE_SIZE]
  omega

theorem Superblock.Ok.iblock_ne_bitmap (hSb : sb.Ok) (hi : i < sb.ninodes) (k : Nat) :
    iblock sb i ≠ sb.bmapstart + k := by
  have hLt := hSb.iblock_lt hi
  omega

theorem Superblock.Ok.iblock_lt_data (hSb : sb.Ok) (hi : i < sb.ninodes) :
    iblock sb i < sb.dataStart := (hSb.iblock_lt hi).trans_le (Nat.le_of_add_right_le hSb.bitmap)

theorem Superblock.Ok.bitmap_lt (hSb : sb.Ok) (hb : b < sb.size) :
    sb.bmapstart + b / BPB < sb.dataStart := by
  have hMap := hSb.bitmap
  simp only [BPB, BSIZE] at hMap ⊢
  omega

namespace Fs

@[simp] theorem blocks_logWrite : (s.logWrite b f).blocks =
      update s.blocks b (f (s.blocks b)) := rfl

theorem bit_logWrite_of_ne (hNe : sb.bmapstart + c / BPB ≠ b) :
    (s.logWrite b f).bit sb c = s.bit sb c := by
  unfold bit
  rw [blocks_logWrite, update_of_ne hNe]

theorem dinode_logWrite_of_ne (hNe : iblock sb i ≠ b) :
    (s.logWrite b f).dinode sb i = s.dinode sb i := by
  unfold dinode
  rw [blocks_logWrite, update_of_ne hNe]

theorem bit_rewrite (op : Bool → Bool → Bool) (hOp : ∀ x, op false x = x)
    (hBit : ∀ blk k, bitSet (f blk) k = op (decide (k = b % BPB)) (bitSet blk k)) :
    (s.logWrite (sb.bmapstart + b / BPB) f).bit sb c = op (decide (c = b)) (s.bit sb c) := by
  by_cases hBlk : c / BPB = b / BPB
  · have hIff : c % BPB = b % BPB ↔ c = b := by
      constructor
      · intro hMod
        rw [← Nat.div_add_mod c BPB, ← Nat.div_add_mod b BPB, hBlk, hMod]
      · exact fun hEq => by rw [hEq]
    unfold bit
    rw [blocks_logWrite, hBlk, update_self, hBit]
    simp only [hIff]
  · have hNe : c ≠ b := fun hEq => hBlk (by rw [hEq])
    rw [bit_logWrite_of_ne (by omega), decide_eq_false hNe, hOp]

theorem bit_setBit : (s.logWrite (sb.bmapstart + b / BPB)
      fun blk => setBit blk (b % BPB)).bit sb c = (decide (c = b) || s.bit sb c) :=
  bit_rewrite (· || ·) (fun _ => rfl) fun _ _ =>
    bitSet_setBit (Nat.mod_lt _ (show 0 < 512 * 8 by omega))

theorem bit_unsetBit : (s.logWrite (sb.bmapstart + b / BPB)
      fun blk => unsetBit blk (b % BPB)).bit sb c = (!decide (c = b) && s.bit sb c) :=
  bit_rewrite (!· && ·) (fun _ => rfl) fun _ _ =>
    bitSet_unsetBit (Nat.mod_lt _ (show 0 < 512 * 8 by omega))

theorem dinode_writeDinode (d : DInode) : (s.logWrite (iblock sb i)
      fun blk => blk.splice (ioff i) d.encode).dinode sb j =
        if j = i then d else s.dinode sb j := by
  have hLt : i % IPB < 4 := Nat.mod_lt _ (show 0 < 512 / 128 by omega)
  by_cases hj : j = i
  · rw [if_pos hj, hj]
    unfold dinode
    rw [blocks_logWrite, update_self]
    apply DInode.decode_encode
    simp only [ioff, DINODE_SIZE, BSIZE]
    omega
  · rw [if_neg hj]
    by_cases hBlk : iblock sb j = iblock sb i
    · unfold dinode
      rw [blocks_logWrite, hBlk, update_self]
      apply DInode.decode_congr
      intro k hLo hHi
      apply Bytes.get_splice_outside
      rw [DInode.encode_length]
      simp only [iblock, ioff, IPB, BSIZE, DINODE_SIZE] at *
      omega
    · exact dinode_logWrite_of_ne hBlk

end Fs

-- Owned Blocks

/-
  The ghost map `own` gives the owner of every owned block:
  owned blocks are data blocks marked in use, and the blocks
  before the data are all marked in use.
-/
structure Owns (sb : Superblock) (s : Fs) (own : Nat → Option Nat) : Prop where
  data : ∀ b i, own b = some i → sb.dataStart ≤ b ∧ b < sb.size
  set : ∀ b i, own b = some i → s.bit sb b = true
  metadata : ∀ b, b < sb.dataStart → s.bit sb b = true

/- Every data block marked in use has an owner. -/
def Covered (sb : Superblock) (s : Fs) (own : Nat → Option Nat) : Prop :=
  ∀ b, sb.dataStart ≤ b → b < sb.size → s.bit sb b = true → own b ≠ none

def heapOf (s : Fs) (own : Nat → Option Nat) (i : Nat) : Heap :=
  fun b => if own b = some i then some (s.blocks b) else none

/- A free inode that `ialloc` has just claimed. -/
structure Stamped (d : DInode) : Prop where
  typ : d.typ ≠ 0
  nlink : d.nlink = 1
  size : d.size = 0
  addrs : d.addrs = Addrs.zero

/-
  The stored inode `d'` is the one last seen, `d`, unless it
  was free and has been claimed since.
-/
def Settled (d d' : DInode) : Prop := d' = d ∨ d.typ = 0 ∧ Stamped d'

/- A claimed inode has no blocks yet. -/
theorem Settled.below {d d' : DInode} {a : Addrs} (hSettled : Settled d d')
    (hBelow : Below d.addrs a) : Below d'.addrs a := by
  rcases hSettled with rfl | ⟨_, hStamped⟩
  · exact hBelow
  · intro k hk
    rw [hStamped.addrs, Addrs.get_zero] at hk
    exact absurd rfl hk

/- `v` is what the holder of inode `i` sees of the state. -/
structure View (sb : Superblock) (s : Fs) (own : Nat → Option Nat) (i : Nat) (v : ILoc) : Prop where
  st : v.st = s.state i
  dino : Settled v.dino (s.dinode sb i)
  heap : v.heap = heapOf s own i
  free : ∀ F, v.free = some F → F = s.freeSet sb
  trunc : v.trunc = s.truncating i

/- Only what belongs to inode `i` has changed. -/
structure Frame (sb : Superblock) (i : Nat) (s : Fs) (own : Nat → Option Nat) (s' : Fs)
    (own' : Nat → Option Nat) : Prop where
  heap : ∀ j, j ≠ i → heapOf s' own' j = heapOf s own j
  state : ∀ j, j ≠ i → s'.state j = s.state j
  dinode : ∀ j, j ≠ i → j < sb.ninodes → s'.dinode sb j = s.dinode sb j
  trunc : ∀ j, j ≠ i → s'.truncating j = s.truncating j
  rest : s' =
    { s with
      blocks := s'.blocks
      logged := s'.logged
      state := s'.state
      truncating := s'.truncating }

theorem Frame.refl (sb : Superblock) (i : Nat) (s : Fs) (own : Nat → Option Nat) :
    Frame sb i s own s own := ⟨fun _ _ => rfl, fun _ _ => rfl, fun _ _ _ => rfl,
    fun _ _ => rfl, rfl⟩

theorem Frame.trans {sb : Superblock} {i : Nat} {s s' s'' : Fs} {own own' own'' : Nat → Option Nat}
    (hFirst : Frame sb i s own s' own') (hThen : Frame sb i s' own' s'' own'') :
    Frame sb i s own s'' own'' where
  heap := fun j hj => (hThen.heap j hj).trans (hFirst.heap j hj)
  state := fun j hj => (hThen.state j hj).trans (hFirst.state j hj)
  dinode := fun j hj hLt => (hThen.dinode j hj hLt).trans (hFirst.dinode j hj hLt)
  trunc := fun j hj => (hThen.trunc j hj).trans (hFirst.trunc j hj)
  rest := by rw [hThen.rest, hFirst.rest]

-- Soundness of the Rules

/- Inode `i` goes from `s, own, v` to `s', own', v'`. -/
structure Advances (sb : Superblock) (i : Nat) (s : Fs) (own : Nat → Option Nat) (s' : Fs)
    (own' : Nat → Option Nat) (v' : ILoc) : Prop where
  owns : Owns sb s' own'
  view : View sb s' own' i v'
  frame : Frame sb i s own s' own'
  covered : Covered sb s own → Covered sb s' own'

variable {own : Nat → Option Nat} {v : ILoc}

theorem View.heap_eq_some (hView : View sb s own i v) {blk : Block} : v.heap b = some blk ↔
      own b = some i ∧ s.blocks b = blk := by
  rw [hView.heap]
  unfold heapOf
  split <;> simp_all

theorem View.heap_ne_none (hView : View sb s own i v) : v.heap b ≠ none ↔ own b = some i := by
  rw [hView.heap]
  unfold heapOf
  split <;> simp_all

theorem Advances.logWrite (hSb : sb.Ok) (hi : i < sb.ninodes) (hOwns : Owns sb s own)
    (hView : View sb s own i v) (hOwn : own b = some i) (f : Block → Block) :
    Advances sb i s own (s.logWrite b f) own (v.put b (f (s.blocks b))) := by
  have hData := hOwns.data b i hOwn
  have hBit : ∀ c, c < sb.size → (s.logWrite b f).bit sb c = s.bit sb c := by
    intro c hc
    have hLt := hSb.bitmap_lt hc
    exact Fs.bit_logWrite_of_ne (by omega)
  have hDino : ∀ j, j < sb.ninodes → (s.logWrite b f).dinode sb j = s.dinode sb j := by
    intro j hj
    have hLt := hSb.iblock_lt_data hj
    exact Fs.dinode_logWrite_of_ne (by omega)
  refine ⟨⟨hOwns.data, ?_, ?_⟩, ⟨hView.st, ?_, ?_, ?_,
    hView.trunc⟩, ⟨?_, fun _ _ => rfl, fun j _ => hDino j, fun _ _ => rfl, rfl⟩, ?_⟩
  · intro c j hc
    rw [hBit c (hOwns.data c j hc).2]
    exact hOwns.set c j hc
  · intro c hc
    rw [hBit c (by have := hSb.data; omega)]
    exact hOwns.metadata c hc
  · rw [hDino i hi]
    exact hView.dino
  · funext c
    simp only [ILoc.put, hView.heap, heapOf, Fs.blocks_logWrite, update_apply]
    grind
  · intro F hF
    rw [hView.free F hF]
    ext c
    rw [Fs.mem_freeSet, Fs.mem_freeSet]
    exact and_congr_right fun hc => by rw [hBit c hc]
  · intro j hj
    funext c
    simp only [heapOf, Fs.blocks_logWrite, update_apply]
    grind
  · intro hCov c hLo hHi hSet
    rw [hBit c hHi] at hSet
    exact hCov c hLo hHi hSet

/- Inode `i` takes a data block or gives it up, with its bit in the bitmap. -/
theorem Advances.rebit {x : Option Nat} {v' : ILoc} (hSb : sb.Ok) (hi : i < sb.ninodes)
    (hOwns : Owns sb s own) (hView : View sb s own i v) (hLo : sb.dataStart ≤ b)
    (hHi : b < sb.size) (hOld : own b = none ∨ own b = some i) (hx : x = none ∨ x = some i)
    (hBit : ∀ c, (s.logWrite (sb.bmapstart + b / BPB) f).bit sb c =
      if c = b then x.isSome else s.bit sb c)
    (hHeap : v'.heap = update v.heap b (x.map fun _ => s.blocks b))
    (hFree : ∀ F', v'.free = some F' → ∃ F, v.free = some F ∧ ∀ c, c ∈ F' ↔
      if c = b then x = none else c ∈ F)
    (hSame : v' = { v with heap := v'.heap, free := v'.free }) :
    Advances sb i s own (s.logWrite (sb.bmapstart + b / BPB) f) (update own b x) v' := by
  have hMap := hSb.bitmap_lt hHi
  have hKeep : ∀ c, sb.dataStart ≤ c → (s.logWrite (sb.bmapstart + b / BPB) f).blocks c =
      s.blocks c := fun c hc => update_of_ne (by omega) ..
  have hDino : ∀ j, j < sb.ninodes → (s.logWrite (sb.bmapstart + b / BPB) f).dinode sb j =
      s.dinode sb j := fun j hj => Fs.dinode_logWrite_of_ne (hSb.iblock_ne_bitmap hj _)
  have hHeapOf : ∀ j c, heapOf (s.logWrite (sb.bmapstart + b / BPB) f) (update own b x) j c =
      if c = b then if x = some j then some (s.blocks b) else none else heapOf s own j c := by
    intro j c
    have hData := hOwns.data c j
    have hSameBlock := hKeep c
    simp only [heapOf, update_apply]
    grind
  refine ⟨⟨?_, ?_, ?_⟩,
    ⟨by rw [hSame]; exact hView.st, ?_, ?_, ?_, by rw [hSame]; exact hView.trunc⟩,
    ⟨?_, fun _ _ => rfl, fun j _ => hDino j, fun _ _ => rfl, rfl⟩, ?_⟩
  · intro c j hc
    have hData := hOwns.data c j
    rw [update_apply] at hc
    grind
  · intro c j hc
    have hSet := hOwns.set c j
    rw [update_apply] at hc
    grind
  · intro c hc
    have hSet := hOwns.metadata c hc
    grind
  · rw [hDino i hi, hSame]
    exact hView.dino
  · funext c
    rw [hHeap, update_apply, hHeapOf, hView.heap]
    grind
  · intro F' hF'
    rcases hFree F' hF' with ⟨F, hF, hMem⟩
    ext c
    rw [hMem, Fs.mem_freeSet, hBit, hView.free F hF, Fs.mem_freeSet]
    grind
  · intro j hj
    funext c
    rw [hHeapOf]
    grind [heapOf]
  · intro hCov c hLo' hHi' hSet
    have hOwned := hCov c hLo' hHi'
    rw [update_apply]
    grind

theorem Advances.claim (hSb : sb.Ok) (hi : i < sb.ninodes) (hOwns : Owns sb s own)
    (hView : View sb s own i v) (hLt : b < sb.size) (hFree : s.bit sb b = false) :
    Advances sb i s own (s.logWrite (sb.bmapstart + b / BPB) fun blk => setBit blk (b % BPB))
      (update own b (some i)) (v.take b (s.blocks b)) := by
  have hData : sb.dataStart ≤ b := by
    by_contra hMeta
    rw [hOwns.metadata b (by omega)] at hFree
    simp at hFree
  have hNone : own b = none := by
    cases hOwner : own b with
    | none => rfl
    | some j =>
      rw [hOwns.set b j hOwner] at hFree
      simp at hFree
  refine .rebit hSb hi hOwns hView hData hLt (.inl hNone) (.inr rfl) ?_ rfl ?_ rfl
  · intro c
    rw [Fs.bit_setBit]
    by_cases hc : c = b <;> simp [hc]
  · intro F' hF'
    rcases Option.map_eq_some_iff.mp hF' with ⟨F, hF, rfl⟩
    exact ⟨F, hF, fun c => by by_cases hc : c = b <;> simp [hc]⟩

theorem Advances.release (hSb : sb.Ok) (hi : i < sb.ninodes) (hOwns : Owns sb s own)
    (hView : View sb s own i v) (hOwn : own b = some i) : Advances sb i s own
      (s.logWrite (sb.bmapstart + b / BPB) fun blk => unsetBit blk (b % BPB))
      (update own b none) (v.give b) := by
  have hData := hOwns.data b i hOwn
  refine .rebit hSb hi hOwns hView hData.1 hData.2 (.inr hOwn) (.inl rfl) ?_ rfl ?_ rfl
  · intro c
    rw [Fs.bit_unsetBit]
    by_cases hc : c = b <;> simp [hc]
  · intro F' hF'
    rcases Option.map_eq_some_iff.mp hF' with ⟨F, hF, rfl⟩
    exact ⟨F, hF, fun c => by by_cases hc : c = b <;> simp [hc]⟩

theorem Advances.writeDinode (hSb : sb.Ok) (hi : i < sb.ninodes) (hOwns : Owns sb s own)
    (hView : View sb s own i v) (d : DInode) : Advances sb i s own (s.logWrite (iblock sb i)
        fun blk => blk.splice (ioff i) d.encode) own { v with dino := d } := by
  have hLt := hSb.iblock_lt_data hi
  have hBit : ∀ c, (s.logWrite (iblock sb i) fun blk => blk.splice (ioff i) d.encode).bit sb c =
        s.bit sb c := fun c => Fs.bit_logWrite_of_ne (hSb.iblock_ne_bitmap hi _).symm
  have hHeap : ∀ j, heapOf (s.logWrite (iblock sb i)
      fun blk => blk.splice (ioff i) d.encode) own j = heapOf s own j := by
    intro j
    funext c
    unfold heapOf
    by_cases hOwn : own c = some j
    · have hData := (hOwns.data c j hOwn).1
      simp [hOwn, update_of_ne (show c ≠ iblock sb i by omega)]
    · simp [hOwn]
  refine ⟨⟨hOwns.data, ?_, ?_⟩, ⟨hView.st, ?_, ?_, ?_,
    hView.trunc⟩, ⟨fun j _ => hHeap j, fun _ _ => rfl, ?_, fun _ _ => rfl, rfl⟩, ?_⟩
  · intro c j hc
    rw [hBit]
    exact hOwns.set c j hc
  · intro c hc
    rw [hBit]
    exact hOwns.metadata c hc
  · rw [Fs.dinode_writeDinode, if_pos rfl]
    exact Or.inl rfl
  · exact hView.heap.trans (hHeap i).symm
  · intro F hF
    rw [hView.free F hF]
    ext c
    rw [Fs.mem_freeSet, Fs.mem_freeSet, hBit]
  · intro j hj _
    rw [Fs.dinode_writeDinode, if_neg hj]
  · intro hCov c hLo hHi hSet
    rw [hBit] at hSet
    exact hCov c hLo hHi hSet

theorem Advances.setState (hOwns : Owns sb s own) (hView : View sb s own i v) (st : InodeState) :
    Advances sb i s own { s with state := update s.state i st }
      own { v with st := st } := by
  refine ⟨{ hOwns with }, { hView with st := ?_ }, ⟨fun _ _ => rfl, ?_, fun _ _ _ => rfl, fun _ _ =>
    rfl, rfl⟩, id⟩
  · show st = update s.state i st i
    rw [update_self]
  · intro j hj
    exact update_of_ne hj ..

theorem Advances.setTrunc (hOwns : Owns sb s own) (hView : View sb s own i v) (t : Bool) :
    Advances sb i s own
      { s with
        truncating := update s.truncating i t } own { v with trunc := t } := by
  refine ⟨{ hOwns with }, { hView with trunc := ?_ }, ⟨fun _ _ => rfl, fun _ _ => rfl, fun _ _ _ =>
    rfl, ?_, rfl⟩, id⟩
  · show t = update s.truncating i t i
    rw [update_self]
  · intro j hj
    exact update_of_ne hj ..

theorem Advances.refl (hOwns : Owns sb s own) (hView : View sb s own i v) :
    Advances sb i s own s own v := ⟨hOwns, hView, Frame.refl sb i s own, id⟩

theorem Advances.trans {s' s'' : Fs} {own' own'' : Nat → Option Nat} {v' v'' : ILoc}
    (hFirst : Advances sb i s own s' own' v') (hThen : Advances sb i s' own' s'' own'' v'') :
    Advances sb i s own s'' own'' v'' := ⟨hThen.owns, hThen.view, hFirst.frame.trans hThen.frame,
    fun hCov => hThen.covered (hFirst.covered hCov)⟩

/- What a failed search says about the free blocks. -/
theorem View.noneFree (hView : View sb s own i v) {base upto : Nat} (hBase : base % BPB = 0)
    (hUpto : upto ≤ BPB) (hNone : firstClear (s.blocks (sb.bmapstart + base / BPB)) upto 0 = none) :
    v.NoneFree base (base + upto) := by
  intro F hF b hLo hHi hMem
  rw [hView.free F hF, Fs.mem_freeSet] at hMem
  have hDiv : b / BPB = base / BPB := by
    simp only [BPB, BSIZE] at *
    grind
  have hMod : b % BPB = b - base := by
    simp only [BPB, BSIZE] at *
    grind
  have hSet := firstClear_eq_none hNone (show 0 ≤ b - base by omega)
    (show b - base < 0 + upto by omega)
  have hBit := hMem.2
  unfold Fs.bit at hBit
  rw [hDiv, hMod, hSet] at hBit
  simp at hBit

/- The commands do what the rules say. -/
theorem inodeRules_step (hSb : sb.Ok) (hi : i < sb.ninodes) (hOwns : Owns sb s own)
    (hView : View sb s own i v) {β : Type} {c : Cmd β} {Q : β → ILoc → Prop}
    (hPre : (inodeRules sb i).pre c Q v) : ∃ b s' own' v', exec sb c s = .ok b s' ∧
      Advances sb i s own s' own' v' ∧ (v.free = none → v'.free = none) ∧ (v.dino = s.dinode sb i →
        v'.dino = s'.dinode sb i) ∧ Q b v' := by
  cases c with
  | bread b =>
    rcases hPre with ⟨blk, hBlk, hQ⟩
    rcases hView.heap_eq_some.mp hBlk with ⟨_, rfl⟩
    exact ⟨_, s, own, v, rfl, Advances.refl hOwns hView, id, id, hQ⟩
  | logWrite b f =>
    rcases hPre with ⟨blk, hBlk, _, hQ⟩
    rcases hView.heap_eq_some.mp hBlk with ⟨hOwn, rfl⟩
    have hLt := hSb.iblock_lt_data hi
    have hData := (hOwns.data b i hOwn).1
    refine ⟨_, _, own, _, rfl, Advances.logWrite hSb hi hOwns hView hOwn f, id, fun hSame => ?_, hQ⟩
    rw [Fs.dinode_logWrite_of_ne (by omega)]
    exact hSame
  | claimBit blkno upto =>
    rcases hPre with ⟨base, hBase, rfl, hUpto, hFit, hSome, hNone⟩
    simp only [exec]
    cases hFound : firstClear (s.blocks (sb.bmapstart + base / BPB)) upto 0 with
    | none =>
      exact ⟨_, s, own, v, rfl, Advances.refl hOwns hView, id, id,
        hNone (hView.noneFree hBase hUpto hFound)⟩
    | some bi =>
      rcases firstClear_eq_some hFound with ⟨_, hLt, hClear⟩
      have hDiv : (base + bi) / BPB = base / BPB := by
        simp only [BPB, BSIZE] at *
        grind
      have hMod : (base + bi) % BPB = bi := by
        simp only [BPB, BSIZE] at *
        grind
      have hBit : s.bit sb (base + bi) = false := by
        unfold Fs.bit
        rw [hDiv, hMod]
        exact hClear
      have hAdv := Advances.claim hSb hi hOwns hView (show base + bi < sb.size by omega) hBit
      rw [hDiv, hMod] at hAdv
      refine ⟨_, _, _, _, rfl, hAdv, ?_, ?_, ?_⟩
      · intro hFree
        simp [ILoc.take, hFree]
      · intro hSame
        rw [Fs.dinode_logWrite_of_ne (hSb.iblock_ne_bitmap hi _)]
        exact hSame
      have hNotOwn : v.heap (base + bi) = none := by
        by_contra hOwn
        rw [← ne_eq, hView.heap_ne_none] at hOwn
        rw [hOwns.set _ _ hOwn] at hBit
        simp at hBit
      have hData : sb.dataStart ≤ base + bi := by
        by_contra hMeta
        rw [hOwns.metadata _ (by omega)] at hBit
        simp at hBit
      apply hSome bi _ (by omega) hData hNotOwn
      intro F hF
      rw [hView.free F hF, Fs.mem_freeSet]
      exact ⟨by omega, hBit⟩
  | clearBit blkno bi =>
    rcases hPre with ⟨b, rfl, rfl, hOwn, _, hQ⟩
    rw [hView.heap_ne_none] at hOwn
    have hSet := hOwns.set b i hOwn
    unfold Fs.bit at hSet
    simp only [exec, hSet, if_true]
    refine ⟨_, _, _, _, rfl, Advances.release hSb hi hOwns hView hOwn,
      fun hFree => by simp [ILoc.give, hFree], fun hSame => ?_, hQ⟩
    rw [Fs.dinode_logWrite_of_ne (hSb.iblock_ne_bitmap hi _)]
    exact hSame
  | writeDinode j d =>
    rcases hPre with ⟨rfl, _, _, hQ⟩
    refine ⟨_, _, own, _, rfl, Advances.writeDinode hSb hi hOwns hView d, id, fun _ => ?_, hQ⟩
    rw [Fs.dinode_writeDinode, if_pos rfl]
  | getState j =>
    rcases hPre with ⟨rfl, hQ⟩
    rw [hView.st] at hQ
    exact ⟨_, s, own, v, rfl, Advances.refl hOwns hView, id, id, hQ⟩
  | setState j st =>
    rcases hPre with ⟨rfl, _, _, hQ⟩
    exact ⟨_, _, own, _, rfl, Advances.setState hOwns hView st, id, id, hQ⟩
  | now =>
    exact ⟨_, s, own, v, rfl, Advances.refl hOwns hView, id, id, hPre _⟩
  | mark m =>
    cases m with
    | truncBegin j =>
      rcases hPre with ⟨rfl, hQ⟩
      exact ⟨_, _, own, _, rfl, Advances.setTrunc hOwns hView true, id, id, hQ⟩
    | truncEnd j =>
      rcases hPre with ⟨rfl, _, hQ⟩
      exact ⟨_, _, own, _, rfl, Advances.setTrunc hOwns hView false, id, id, hQ⟩
    | _ => exact hPre.elim
  | _ => exact hPre.elim

/- A verified program runs to its end with nothing between. -/
theorem inodeRules_run (hSb : sb.Ok) (hi : i < sb.ninodes) (hOwns : Owns sb s own)
    (hView : View sb s own i v) {α : Type} {p : FsProg α} {Q : α → ILoc → Prop}
    (hWp : (inodeRules sb i).wp p Q v) : ∃ a s' own' v', Prog.run (exec sb) p s = .ok a s' ∧
      Advances sb i s own s' own' v' ∧ (v.dino = s.dinode sb i →
        v'.dino = s'.dinode sb i) ∧ Q a v' := by
  have hRun := Rules.run_of_wp (h := exec sb) (R := inodeRules sb i) (Q := Q) (p := p)
    (L := fun s' v' => ∃ own', Advances sb i s own s' own' v' ∧
        (v.dino = s.dinode sb i → v'.dino = s'.dinode sb i)) (s := s) (v := v) ?_
    ⟨own, Advances.refl hOwns hView, id⟩ hWp
  · rcases hRun with ⟨a, s', v', hRun, ⟨own', hAdv, hExact⟩, hQ⟩
    exact ⟨a, s', own', v', hRun, hAdv, hExact, hQ⟩
  · rintro β c P s₁ v₁ ⟨own₁, hAdv₁, hExact₁⟩ hPre
    rcases inodeRules_step hSb hi hAdv₁.owns hAdv₁.view hPre
      with ⟨b, s', own', v', hExec, hAdv, _, hExact, hQ⟩
    exact ⟨b, s', v', hExec, ⟨own', hAdv₁.trans hAdv, fun hSame => hExact (hExact₁ hSame)⟩, hQ⟩

end PlayXv6
