import PlayXv6.Fs.InodeLogic

/-
  Reading and writing the bytes of a file.

  `readi` returns a stretch of the file's bytes; `writei`
  replaces a stretch and, on a full disk, tells how much of
  it was written.

  Main declarations:
    * `ILoc.bytes`
    * `wp_readi`, `wp_writeiBody`
-/

namespace PlayXv6

def ILoc.bytes (v : ILoc) (off n : Nat) : List UInt8 := (List.range n).map fun k => v.byte (off + k)

@[simp] theorem ILoc.bytes_zero (v : ILoc) (off : Nat) : v.bytes off 0 = [] := rfl

@[simp] theorem ILoc.bytes_length (v : ILoc) (off n : Nat) : (v.bytes off n).length = n := by
  simp [bytes]

theorem ILoc.bytes_add (v : ILoc) (off m n : Nat) : v.bytes off (m + n) =
      v.bytes off m ++ v.bytes (off + m) n := by
  simp [bytes, List.range_add, Function.comp_def, Nat.add_assoc]

/- Positions of a stretch that stays in one block. -/
theorem block_pos {cur k : Nat} (hk : cur % BSIZE + k < BSIZE) : (cur + k) / BSIZE = cur / BSIZE ∧
      (cur + k) % BSIZE = cur % BSIZE + k := by
  simp only [BSIZE] at *
  omega

theorem ILoc.bytes_of_hole {v : ILoc} {cur n : Nat} (hFit : cur % BSIZE + n ≤ BSIZE)
    (hHole : v.ptr (dataPlace (cur / BSIZE)) = 0) : v.bytes cur n = List.replicate n 0 := by
  apply List.eq_replicate_iff.mpr
  refine ⟨v.bytes_length cur n, ?_⟩
  intro x hx
  rcases List.mem_map.mp hx with ⟨k, hk, rfl⟩
  have hLt : k < n := List.mem_range.mp hk
  apply fileByte_of_hole
  rw [(block_pos (by omega)).1]
  exact hHole

theorem ILoc.bytes_of_block {v : ILoc} {cur n : Nat} {blk : Block} (hFit : cur % BSIZE + n ≤ BSIZE)
    (hNe : v.ptr (dataPlace (cur / BSIZE)) ≠ 0) (hBlk : v.heap (v.ptr (dataPlace (cur / BSIZE))) =
      some blk) : v.bytes cur n = blk.slice (cur % BSIZE) n := by
  unfold bytes Bytes.slice
  apply List.map_congr_left
  intro k hk
  have hLt : k < n := List.mem_range.mp hk
  rcases block_pos (show cur % BSIZE + k < BSIZE by omega) with ⟨hDiv, hMod⟩
  rw [← hDiv] at hNe hBlk
  rw [← hMod]
  exact fileByte_of_some hNe hBlk

-- Reading

variable {sb : Superblock} {i : Nat} {v : ILoc}

theorem wp_readiLoop (hTree : Tree v.st.addrs v.heap) (limit off fuel tot : Nat)
    (hFuel : limit ≤ fuel + tot) (hTot : tot ≤ limit) : (inodeRules sb i).wp
      (readiLoop i limit fuel tot (off + tot) (v.bytes off tot))
      (fun bs v' => v' = v ∧ bs = v.bytes off limit) v := by
  induction fuel generalizing tot with
  | zero =>
    have hEnd : tot = limit := by omega
    rw [hEnd]
    exact ⟨rfl, rfl⟩
  | succ fuel ih =>
    unfold readiLoop
    split
    · rename_i hMore
      have hBlock : (off + tot) % BSIZE < BSIZE := Nat.mod_lt _ (show 0 < 512 by omega)
      generalize hChunk : min (BSIZE - (off + tot) % BSIZE) (limit - tot) = chunk
      have hPos : 0 < chunk := by omega
      have hFit : (off + tot) % BSIZE + chunk ≤ BSIZE := by omega
      -- both branches go on with the next stretch
      have hNext := ih (tot + chunk) (by omega) (by omega)
      rw [v.bytes_add, ← Nat.add_assoc] at hNext
      refine Rules.wp_bind_of (wp_bmap hTree _) ?_
      rintro b v' ⟨rfl, rfl⟩
      dsimp only
      split
      · rename_i hHole
        rw [hChunk, ← ILoc.bytes_of_hole hFit hHole]
        exact hNext
      · rename_i hNe
        rcases Option.ne_none_iff_exists'.mp (hTree.owned _ hNe) with ⟨blk, hBlk⟩
        apply wp_bread hBlk
        rw [hChunk, ← ILoc.bytes_of_block hFit hNe hBlk]
        exact hNext
    · have hEnd : tot = limit := by omega
      rw [hEnd]
      exact ⟨rfl, rfl⟩

/- The bytes `readi` returns for a request of `len` bytes. -/
def ILoc.readable (v : ILoc) (len off : Nat) : List UInt8 :=
  v.bytes off (min (len % 2 ^ 32) (v.st.size.toNat - off))

/- `readi` returns bytes and touches the access time only. -/
theorem wp_readi (hOk : v.Ok) (hTree : Tree v.st.addrs v.heap) (len off : Nat) :
    (inodeRules sb i).wp (readi i len off) (fun bs v' => bs = v.readable len off ∧
        ∃ t, v' = { v with st := { v.st with atime := t } })
      v := by
  unfold readi
  apply wp_getState
  dsimp only
  split
  · rename_i hPast
    refine ⟨?_, v.st.atime, rfl⟩
    have hZero : v.st.size.toNat - off = 0 := by omega
    simp [ILoc.readable, hZero]
  · apply wp_now
    intro t
    apply wp_setState
    · exact ⟨rfl, rfl⟩
    · exact hOk
    · generalize hLimit : min (len % 2 ^ 32) (v.st.size.toNat - off) = limit
      refine Rules.wp_mono ?_ (wp_readiLoop (v := { v with st := { v.st with atime := t } })
        hTree limit off limit 0 (by omega) (by omega))
      rintro bs v' ⟨rfl, rfl⟩
      rw [← hLimit]
      exact ⟨rfl, t, rfl⟩

-- Writing

/- Rewriting a data block changes its bytes only. -/
theorem ILoc.Sound.put_data {sb : Superblock} {v : ILoc} (hv : v.Sound sb) {bn : Nat}
    (hNe : v.ptr (dataPlace bn) ≠ 0) (blk : Block) :
    let v' := v.put (v.ptr (dataPlace bn)) blk
    v'.Sound sb ∧ (∀ p, v'.ptr p = v.ptr p) ∧ ∀ x, v'.byte x =
        if x / BSIZE = bn then blk.get (x % BSIZE)
        else v.byte x := by
  intro v'
  rcases hv.tree.put_data hNe blk with ⟨hDom, hPtr, hByte⟩
  refine ⟨⟨hv.trunc, ?_, hv.below, ?_⟩, hPtr, hByte⟩
  · apply hv.tree.of_ptr_eq hPtr
    intro c hOwn
    exact mt (hDom c).mp hOwn
  · intro F hF c hMem
    rcases hv.free F hF c hMem with ⟨hNone, hLt⟩
    exact ⟨(hDom c).mpr hNone, hLt⟩

/-
  `v'` is `v` with the first `n` bytes of `src` written at
  `off`; the tree may have grown, the stored inode has not
  been touched.
-/
structure Written (sb : Superblock) (v v' : ILoc) (src : List UInt8) (off n : Nat) : Prop where
  sound : v'.Sound sb
  bytes : ∀ x, v'.byte x = if off ≤ x ∧ x < off + n then src.getD (x - off) 0
    else v.byte x
  st : v'.st = { v.st with addrs := v'.st.addrs }
  dino : v'.dino = v.dino
  keep : ∀ p, v.ptr p ≠ 0 → v'.ptr p = v.ptr p
  dom : ∀ b, v.heap b ≠ none → v'.heap b ≠ none
  fresh : ∀ b, v'.heap b ≠ none → v.heap b ≠ none ∨ b ≠ 0 ∧ ∃ p, v'.ptr p = b
  free : ∀ F, v.free = some F → ∃ F', v'.free = some F' ∧ F' ⊆ F
  unknown : v.free = none → v'.free = none

variable {src : List UInt8} {off : Nat}

theorem Written.refl (hv : v.Sound sb) (src : List UInt8) (off : Nat) :
    Written sb v v src off 0 where
  sound := hv
  bytes := by
    intro x
    rw [if_neg (by omega)]
  st := rfl
  dino := rfl
  keep := fun _ _ => rfl
  dom := fun _ hOwn => hOwn
  fresh := fun _ hOwn => Or.inl hOwn
  free := fun F hF => ⟨F, hF, Finset.Subset.refl F⟩
  unknown := fun hF => hF

/- Mapping more blocks does not change what is written. -/
theorem Written.extend {v₁ v₂ : ILoc} {n m : Nat} (hWritten : Written sb v v₁ src off n)
    (hExt : Extended sb v₁ v₂ m) : Written sb v v₂ src off n where
  sound := hExt.sound
  bytes := by
    intro x
    rw [ILoc.byte, hExt.grows.bytes x]
    exact hWritten.bytes x
  st := by rw [hExt.st, hWritten.st]
  dino := by rw [hExt.dino, hWritten.dino]
  keep := by
    intro p hNe
    have hMid := hWritten.keep p hNe
    have hNe₁ : v₁.ptr p ≠ 0 := by rwa [hMid]
    rw [← hMid]
    exact hExt.grows.keep p hNe₁
  dom := fun b hOwn =>
    hExt.grows.dom b (hWritten.dom b hOwn)
  fresh := by
    intro b hOwn
    rcases hExt.grows.fresh b hOwn with hMid | hNew
    · rcases hWritten.fresh b hMid with hOld | ⟨hNe, p, hp⟩
      · exact Or.inl hOld
      · right
        refine ⟨hNe, p, ?_⟩
        rw [← hp] at hNe ⊢
        exact hExt.grows.keep p hNe
    · exact Or.inr hNew
  free := by
    intro F hF
    rcases hWritten.free F hF with ⟨F', hF', hSub⟩
    rcases hExt.free F' hF' with ⟨F'', hF'', hSub', _⟩
    exact ⟨F'', hF'', hSub'.trans hSub⟩
  unknown := fun hF => hExt.unknown (hWritten.unknown hF)

theorem Written.chunk {v₁ : ILoc} {n chunk : Nat} {blk : Block}
    (hWritten : Written sb v v₁ src off n) (hNe : v₁.ptr (dataPlace ((off + n) / BSIZE)) ≠ 0)
    (hBlk : v₁.heap (v₁.ptr (dataPlace ((off + n) / BSIZE))) = some blk)
    (hFit : (off + n) % BSIZE + chunk ≤ BSIZE) (hSrc : n + chunk ≤ src.length) : Written sb v
      (v₁.put (v₁.ptr (dataPlace ((off + n) / BSIZE))) (blk.splice ((off + n) % BSIZE)
          ((src.drop n).take chunk))) src off (n + chunk) := by
  have hLen : ((src.drop n).take chunk).length = chunk := by
    simp
    omega
  rcases hWritten.sound.put_data hNe (blk.splice ((off + n) % BSIZE) ((src.drop n).take chunk)) with
    ⟨hSound, hPtr, hByte⟩
  have hAt := hWritten.sound.tree.owned _ hNe
  refine
    { sound := hSound
      bytes := ?_
      st := hWritten.st
      dino := hWritten.dino
      keep := ?_
      dom := ?_
      fresh := ?_
      free := hWritten.free
      unknown := hWritten.unknown }
  · intro x
    rw [hByte]
    by_cases hx : x / BSIZE = (off + n) / BSIZE
    · have hLt : x % BSIZE < BSIZE := Nat.mod_lt _ (show 0 < 512 by omega)
      rw [if_pos hx, Bytes.get_splice hLt, hLen]
      have hOld : blk.get (x % BSIZE) = v₁.byte x := by
        rw [← hx] at hNe hBlk
        exact (fileByte_of_some hNe hBlk).symm
      have hDivMod : x % BSIZE + (off + n) = x + (off + n) % BSIZE := by
        simp only [BSIZE] at *
        omega
      by_cases hIn : off + n ≤ x ∧ x < off + n + chunk
      · rw [if_pos (by omega), if_pos (by omega)]
        have hIdx : x % BSIZE - (off + n) % BSIZE = x - (off + n) := by omega
        have hSum : n + (x - (off + n)) = x - off := by omega
        simp [hIdx, hSum,
          show x - (off + n) < chunk by omega]
      · rw [if_neg (by omega), hOld, hWritten.bytes]
        congr 1
        apply propext
        omega
    · rw [if_neg hx, hWritten.bytes]
      congr 1
      simp only [BSIZE] at *
      apply propext
      constructor
      · grind
      · grind
  · intro p hNe'
    rw [hPtr, hWritten.keep p hNe']
  · intro b hOwn
    by_cases hb : b = v₁.ptr (dataPlace ((off + n) / BSIZE))
    · simp [ILoc.put, hb]
    · simpa [ILoc.put, hb] using hWritten.dom b hOwn
  · intro b hOwn
    have hOwn₁ : v₁.heap b ≠ none := by
      by_cases hb : b = v₁.ptr (dataPlace ((off + n) / BSIZE))
      · rw [hb]
        exact hAt
      · simpa [ILoc.put, hb] using hOwn
    rcases hWritten.fresh b hOwn₁ with hOld | ⟨hb, p, hp⟩
    · exact Or.inl hOld
    · exact Or.inr ⟨hb, p, by rw [hPtr, hp]⟩

/- What `writei` did before it flushes the inode. -/
def LoopPost (sb : Superblock) (v : ILoc) (src : List UInt8) (off want n : Nat)
    (v' : ILoc) : Prop :=
  n ≤ want ∧ Written sb v v' src off n ∧ (n < want → v'.NoneFree 0 sb.size ∧
      (n = 0 → MapPost sb v (off / BSIZE) none v') ∧
      -- a short write stops between two blocks
      (n = 0 ∨ (off + n) % BSIZE = 0)) ∧
    (want = 0 → v' = v)

theorem wp_writeiLoop (hSb : sb.Ok) {want : Nat} (hWant : want ≤ src.length)
    (hMax : off + want ≤ MAXFILE * BSIZE) (fuel : Nat) {tot : Nat} {v₁ : ILoc}
    (hFuel : want ≤ fuel + tot) (hTot : tot ≤ want) (hWritten : Written sb v v₁ src off tot)
    (hStart : tot = 0 → v₁ = v) (hEdge : tot < want → tot = 0 ∨ (off + tot) % BSIZE = 0) :
    (inodeRules sb i).wp (writeiLoop sb i want src fuel tot (off + tot))
      (LoopPost sb v src off want) v₁ := by
  induction fuel generalizing tot v₁ with
  | zero =>
    exact ⟨hTot, hWritten, by omega, fun hZero => hStart (by omega)⟩
  | succ fuel ih =>
    unfold writeiLoop
    split
    · rename_i hMore
      have hBn : (off + tot) / BSIZE < MAXFILE := by
        simp only [BSIZE] at *
        omega
      refine Rules.wp_bind_of (wp_bmapOrAlloc hSb hWritten.sound hBn) ?_
      intro r v₂ hMap
      cases r with
      | none =>
        have hMap₀ : tot = 0 → MapPost sb v (off / BSIZE) none v₂ := by
          intro hZero
          rw [hZero, hStart hZero] at hMap
          exact hMap
        rcases hMap with ⟨n, _, hExt, hFull, _⟩
        exact ⟨hTot, hWritten.extend hExt, fun hLt => ⟨hFull, hMap₀, hEdge hLt⟩, by omega⟩
      | some b =>
        rcases hMap with ⟨hExt, hNe, rfl, _⟩
        have hWritten₂ := hWritten.extend hExt
        rcases Option.ne_none_iff_exists'.mp (hExt.sound.tree.owned _ hNe) with ⟨blk, hBlk⟩
        have hBlock : (off + tot) % BSIZE < BSIZE := Nat.mod_lt _ (show 0 < 512 by omega)
        dsimp only
        generalize hChunk : min (BSIZE - (off + tot) % BSIZE) (want - tot) = chunk
        have hNext := hWritten₂.chunk hNe hBlk (show (off + tot) % BSIZE + chunk ≤ BSIZE
            by omega) (by omega)
        apply wp_logWrite hBlk hNext.sound.ok
        rw [Nat.add_assoc]
        refine ih (by omega) (by omega) hNext (by omega) ?_
        intro hLt
        simp only [BSIZE] at *
        omega
    · exact ⟨hTot, hWritten, by omega, fun hZero => hStart (by omega)⟩

/-
  The outcome of `writei`: the bytes written, and the inode
  stored with its new size if there were any.
-/
structure WritePost (sb : Superblock) (v : ILoc) (src : List UInt8) (off n : Nat)
    (v' : ILoc) : Prop where
  le : n ≤ src.length
  fits : 0 < n → off + n ≤ MAXFILE * BSIZE
  loop : ∃ v₁, LoopPost sb v src off (min src.length (MAXFILE * BSIZE - off)) n v₁ ∧
    (n = 0 → v' = v₁) ∧ (0 < n → ∃ t, v' =
      { v₁ with
        st :=
          { v₁.st with
            mtime := t
            ctime := t
            size := UInt32.ofNat (max v.st.size.toNat (off + n)) }
        dino :=
          { v₁.st with
            mtime := t
            ctime := t
            size := UInt32.ofNat (max v.st.size.toNat (off + n)) } })

theorem wp_writeiBody (hSb : sb.Ok) (hv : v.Sound sb) :
    (inodeRules sb i).wp (writeiBody sb i src off) (WritePost sb v src off) v := by
  unfold writeiBody
  dsimp only
  split
  · rename_i hPast
    have hWant : min src.length (MAXFILE * BSIZE - off) = 0 := by omega
    refine ⟨Nat.zero_le _, by omega, v, ?_, fun _ => rfl, by omega⟩
    rw [hWant]
    exact ⟨Nat.le_refl 0, Written.refl hv src off, by omega, fun _ => rfl⟩
  · rename_i hIn
    generalize hWant : min src.length (MAXFILE * BSIZE - off) = want
    refine Rules.wp_bind_of (wp_writeiLoop hSb (by omega)
      (by omega) want (by omega) (Nat.zero_le want) (Written.refl hv src off) (fun _ => rfl)
      fun _ => Or.inl rfl) ?_
    intro n v₁ hLoop
    have hLe := hLoop.1
    split
    · rename_i hPos
      apply wp_now
      intro t
      apply wp_getState
      have hSize : v₁.st.size = v.st.size := by rw [hLoop.2.1.st]
      apply wp_setState
      · exact ⟨rfl, rfl⟩
      · exact hLoop.2.1.sound.ok
      · refine wp_iupdate ?_ ?_
        · intro _
          exact ⟨hLoop.2.1.sound.tree, fun k _ => rfl⟩
        · rw [hSize]
          exact ⟨by omega, by omega, v₁, hWant ▸ hLoop, by omega, fun _ => ⟨t, rfl⟩⟩
    · rename_i hZero
      exact ⟨by omega, by omega, v₁, hWant ▸ hLoop, fun _ => rfl, by omega⟩

end PlayXv6
