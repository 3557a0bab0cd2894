import PlayXv6.Fs.Ownership

/-
  The inode data layer refines byte arrays.

  An abstract file is a list of bytes.  Reading returns a
  slice of it, writing overwrites a range and fills the gap
  before it with zeros, truncation cuts it off or extends it
  with zeros.  The file of an inode is the list of its first
  `size` bytes, where holes read as zero, and every sequence
  of operations on any inodes acts on these lists as the
  abstract operations do.

  Main declarations:
    * `ByteFile`, `DataOp`
    * `dataLayer_refines`
-/

namespace PlayXv6

-- Byte Files

abbrev ByteFile : Type := List UInt8

namespace ByteFile

def write (f : ByteFile) (src : List UInt8) (off n : Nat) : ByteFile :=
  if n = 0 then f
  else
    (List.range (max f.length (off + n))).map fun x =>
      if off ≤ x ∧ x < off + n then src.getD (x - off) 0
      else f.getD x 0

/- The first `m` bytes, extended with zeros if too short. -/
def resize (f : ByteFile) (m : Nat) : ByteFile := f.take m ++ List.replicate (m - f.length) 0

end ByteFile

inductive DataOp where
  | readi (len off : Nat)
  | writei (src : List UInt8) (off : Nat)
  | itruncTo (newSize : Nat)

inductive DataReply where
  | data (bs : List UInt8)
  | count (n : Nat)
  | done

namespace DataOp

def prog (sb : Superblock) (i : Nat) : DataOp → FsProg DataReply
  | readi len off => do
      let bs ← PlayXv6.readi i len off
      pure (.data bs)
  | writei src off => do
      let n ← PlayXv6.writei sb i src off
      pure (.count n)
  | itruncTo newSize => do
      PlayXv6.itruncTo sb i newSize
      pure .done

/- The same without the marks. -/
def body (sb : Superblock) (i : Nat) : DataOp → FsProg DataReply
  | writei src off => do
      let n ← writeiBody sb i src off
      pure (.count n)
  | op => op.prog sb i

/- The marks of a write have no effect. -/
theorem run_writei (sb : Superblock) (i : Nat) (src : List UInt8) (off : Nat) (s : Fs) :
    Prog.run (exec sb) (PlayXv6.writei sb i src off) s =
      Prog.run (exec sb) (writeiBody sb i src off) s := by
  simp only [PlayXv6.writei, Prog.bind_eq, Prog.run_bind,
    Prog.lift_bind, Prog.run_op, exec, Fs.passMark, Outcome.andThen_ok]
  cases Prog.run (exec sb) (writeiBody sb i src off) s with
  | ok n s' | wait | panic e => rfl

theorem run_prog (sb : Superblock) (i : Nat) (op : DataOp) (s : Fs) :
    Prog.run (exec sb) (op.prog sb i) s =
      Prog.run (exec sb) (op.body sb i) s := by
  cases op with
  | readi len off => rfl
  | writei src off =>
    simp only [prog, body, Prog.bind_eq, Prog.run_bind, run_writei]
  | itruncTo newSize => rfl

def Spec : DataOp → DataReply → ByteFile → ByteFile → Prop
  | readi len off, .data bs, f, f' => bs = (f.drop off).take len ∧ f' = f
  | writei src off, .count n, f, f' => n ≤ src.length ∧ f' = f.write src off n
  | itruncTo newSize, .done, f, f' => f' = f.resize newSize
  | _, _, _, _ => False

/-
  What the callers guarantee: a read buffer is no longer than
  a file, and a new size is at most the largest file.
-/
def Ok : DataOp → Prop
  | readi len _ => len < 2 ^ 32
  | writei _ _ => True
  | itruncTo newSize => newSize ≤ MAXFILE * BSIZE

end DataOp

def dataOps (sb : Superblock) : List (Fin sb.ninodes × DataOp) → FsProg (List DataReply)
  | [] => pure []
  | (i, op) :: ops => do
      let r ← op.prog sb i
      let rs ← dataOps sb ops
      pure (r :: rs)

/- The abstract run: every operation changes the file of its own inode only. -/
inductive FileRun {n : Nat} : (Fin n → ByteFile) → List (Fin n × DataOp) →
      List DataReply → (Fin n → ByteFile) → Prop where
  | nil (files : Fin n → ByteFile) : FileRun files [] [] files
  | cons {files files' files'' : Fin n → ByteFile} {i : Fin n} {op : DataOp}
      {ops : List (Fin n × DataOp)} {r : DataReply} {rs : List DataReply}
      (hSpec : op.Spec r (files i) (files' i)) (hOther : ∀ j, j ≠ i → files' j = files j)
      (hRest : FileRun files' ops rs files'') : FileRun files ((i, op) :: ops) (r :: rs) files''

-- The File of an Inode

/- The first `size` bytes, holes reading as zero. -/
def Fs.fileOf (s : Fs) (i : Nat) : ByteFile :=
  (List.range (s.state i).size.toNat).map
    (fileByte (s.state i).addrs fun b => some (s.blocks b))

def ILoc.file (v : ILoc) : ByteFile := v.bytes 0 v.st.size.toNat

/- Beyond the size there are only zeros. -/
structure ILoc.Intact (sb : Superblock) (v : ILoc) : Prop where
  sound : v.Sound sb
  size : v.st.size.toNat ≤ MAXFILE * BSIZE
  zero : ∀ x, v.st.size.toNat ≤ x → v.byte x = 0

variable {v : ILoc}

@[simp] theorem ILoc.file_length : v.file.length = v.st.size.toNat := by simp [file]

/- Past the end the file reads as its zero bytes. -/
theorem ILoc.Intact.file_getD {sb : Superblock} (hv : v.Intact sb) (x : Nat) :
    v.file.getD x 0 = v.byte x := by
  by_cases hx : x < v.st.size.toNat
  · simp [file, bytes, hx]
  · rw [hv.zero x (by omega)]
    simp [file, bytes, hx]

theorem ILoc.file_eq {f : ByteFile} (hLen : f.length = v.st.size.toNat)
    (hByte : ∀ x, x < v.st.size.toNat → v.byte x = f.getD x 0) : v.file = f := by
  apply List.ext_getElem
  · rw [file_length, hLen]
  · intro x hx hx'
    rw [file_length] at hx
    have hAt := hByte x hx
    simp only [file, bytes, List.getElem_map, List.getElem_range, Nat.zero_add, hAt]
    simp [hx']

/- The tree only uses blocks of its owner. -/
theorem fileByte_heapOf {s : Fs} {own : Nat → Option Nat} {i : Nat} {a : Addrs}
    (hTree : Tree a (heapOf s own i)) (x : Nat) : fileByte a (fun b => some (s.blocks b)) x =
      fileByte a (heapOf s own i) x := by
  have hOwned : ∀ p, ptr a (heapOf s own i) p ≠ 0 → some (s.blocks (ptr a (heapOf s own i) p)) =
        heapOf s own i (ptr a (heapOf s own i) p) := by
    intro p hNe
    have hSome := hTree.owned p hNe
    unfold heapOf at hSome ⊢
    split at hSome
    · rename_i hOwn
      rw [if_pos hOwn]
    · exact absurd rfl hSome
  have hPtr : ∀ p, ptr a (fun b => some (s.blocks b)) p = ptr a (heapOf s own i) p :=
    ptr_congr fun q _ hNe => hOwned q hNe
  exact fileByte_congr (hPtr _) fun hNe => hOwned _ hNe

theorem View.fileOf_eq {sb : Superblock} {s : Fs} {own : Nat → Option Nat} {i : Nat} {v : ILoc}
    (hView : View sb s own i v) (hTree : Tree v.st.addrs v.heap) : s.fileOf i = v.file := by
  unfold Fs.fileOf ILoc.file ILoc.bytes
  rw [← hView.st]
  apply List.map_congr_left
  intro x _
  rw [Nat.zero_add]
  unfold ILoc.byte
  rw [hView.heap] at hTree ⊢
  exact fileByte_heapOf hTree x

-- One Operation

variable {sb : Superblock} {i : Nat} {v' : ILoc}

theorem ILoc.readable_eq {len off : Nat} (hLen : len < 2 ^ 32) :
    v.readable len off = (v.file.drop off).take len := by
  unfold readable
  rw [Nat.mod_eq_of_lt hLen]
  apply List.ext_getElem
  · simp [file]
  · intro k hk hk'
    simp [file, bytes]

theorem WritePost.intact_zero {src : List UInt8} {off : Nat} (hv : v.Intact sb)
    (hPost : WritePost sb v src off 0 v') : v'.Intact sb ∧ v'.file = v.file := by
  rcases hPost.loop with ⟨v₁, ⟨_, hWritten, _⟩, hSame, _⟩
  obtain rfl := hSame rfl
  have hSize : v'.st.size = v.st.size := by rw [hWritten.st]
  have hByte : ∀ x, v'.byte x = v.byte x := by
    intro x
    rw [hWritten.bytes x, if_neg (by omega)]
  refine ⟨⟨hWritten.sound, ?_, ?_⟩, ?_⟩
  · rw [hSize]
    exact hv.size
  · intro x hx
    rw [hSize] at hx
    rw [hByte, hv.zero x hx]
  · apply ILoc.file_eq
    · rw [ILoc.file_length, hSize]
    · intro x _
      rw [hByte, hv.file_getD]

theorem WritePost.intact_pos {src : List UInt8} {off n : Nat} (hv : v.Intact sb) (hPos : 0 < n)
    (hPost : WritePost sb v src off n v') : v'.Intact sb ∧ v'.file = v.file.write src off n := by
  rcases hPost.loop with ⟨v₁, ⟨_, hWritten, _⟩, _, hNew⟩
  rcases hNew hPos with ⟨t, hv'⟩
  have hFits := hPost.fits hPos
  have hMax := max_le hv.size hFits
  have hSize : v'.st.size.toNat = max v.st.size.toNat (off + n) := by
    rw [hv']
    simp only [MAXFILE, NDIRECT, NINDIRECT, NDOUBLE_INDIRECT, BSIZE] at hMax
    exact UInt32.toNat_ofNat_of_lt' (lt_of_le_of_lt hMax (by decide))
  have hByte : ∀ x, v'.byte x = if off ≤ x ∧ x < off + n then src.getD (x - off) 0
      else v.byte x := by
    intro x
    rw [← hWritten.bytes x, hv']
  refine ⟨⟨?_, ?_, ?_⟩, ?_⟩
  · rw [hv']
    exact ⟨hWritten.sound.trunc, hWritten.sound.tree, fun _ _ => rfl, hWritten.sound.free⟩
  · rw [hSize]
    exact hMax
  · intro x hx
    rw [hSize] at hx
    rw [hByte, if_neg (by omega), hv.zero x (by omega)]
  · have hWrite : v.file.write src off n = (List.range (max v.st.size.toNat (off + n))).map fun x =>
            if off ≤ x ∧ x < off + n then
              src.getD (x - off) 0
            else v.file.getD x 0 := by
      unfold ByteFile.write
      rw [if_neg (by omega), ILoc.file_length]
    rw [hWrite]
    apply ILoc.file_eq
    · simp [hSize]
    · intro x hx
      rw [hSize] at hx
      rw [hByte, ← hv.file_getD]
      simp [hx]

theorem Truncated.intact {newSize : Nat} (hv : v.Intact sb) (hMax : newSize ≤ MAXFILE * BSIZE)
    (hPost : Truncated sb newSize v v') : v'.Intact sb ∧ v'.file = v.file.resize newSize := by
  have hByte := hPost.bytes hMax hv.zero
  have hSize : v'.st.size.toNat = newSize := by
    rcases hPost.st with ⟨t, hSt⟩
    rw [hSt]
    simp only [MAXFILE, NDIRECT, NINDIRECT, NDOUBLE_INDIRECT, BSIZE] at hMax
    exact UInt32.toNat_ofNat_of_lt' (lt_of_le_of_lt hMax (by decide))
  refine ⟨⟨hPost.sound, ?_, ?_⟩, ?_⟩
  · rw [hSize]
    exact hMax
  · intro x hx
    rw [hSize] at hx
    rw [hByte, if_neg (by omega)]
  · apply ILoc.file_eq
    · simp [ByteFile.resize, hSize]
      omega
    · intro x hx
      rw [hSize] at hx
      rw [hByte, if_pos hx, ← hv.file_getD]
      unfold ByteFile.resize
      by_cases hOld : x < v.st.size.toNat
      · simp [List.getElem?_append, hx, hOld]
      · simp [List.getElem?_append, hx, hOld]

/- Every operation keeps the file intact and is its spec. -/
theorem DataOp.wp_body (hSb : sb.Ok) (hv : v.Intact sb)
    (hRange : ∀ b, v.heap b ≠ none → b < sb.size) {op : DataOp} (hOp : op.Ok) :
    (inodeRules sb i).wp (op.body sb i) (fun r v' => v'.Intact sb ∧
        op.Spec r v.file v'.file) v := by
  cases op with
  | readi len off =>
    refine Rules.wp_bind_of (wp_readi hv.sound.ok hv.sound.tree len off) ?_
    rintro bs v' ⟨rfl, t, rfl⟩
    refine ⟨⟨⟨hv.sound.trunc, hv.sound.tree, hv.sound.below, hv.sound.free⟩, hv.size, hv.zero⟩,
      ILoc.readable_eq hOp, rfl⟩
  | writei src off =>
    refine Rules.wp_bind_of (wp_writeiBody hSb hv.sound) ?_
    intro n v' hPost
    by_cases hn : n = 0
    · subst hn
      rcases hPost.intact_zero hv with ⟨hIntact, hFile⟩
      refine ⟨hIntact, hPost.le, ?_⟩
      rw [hFile]
      rfl
    · rcases hPost.intact_pos hv (Nat.pos_of_ne_zero hn) with ⟨hIntact, hFile⟩
      exact ⟨hIntact, hPost.le, hFile⟩
  | itruncTo newSize =>
    refine Rules.wp_bind_of (wp_itruncTo hv.sound hRange newSize) ?_
    intro _ v' hPost
    exact hPost.intact hv hOp

-- Whole Runs

/- What the holder of inode `i` would see. -/
def viewOf (sb : Superblock) (s : Fs) (own : Nat → Option Nat) (i : Nat) : ILoc where
  st := s.state i
  dino := s.dinode sb i
  heap := heapOf s own i
  free := some (s.freeSet sb)
  trunc := s.truncating i

theorem viewOf_view (sb : Superblock) (s : Fs) (own : Nat → Option Nat) (i : Nat) :
    View sb s own i (viewOf sb s own i) := ⟨rfl, Or.inl rfl, rfl,
    fun _ hF => (Option.some.inj hF).symm, rfl⟩

structure AllIntact (sb : Superblock) (s : Fs) (own : Nat → Option Nat) : Prop where
  owns : Owns sb s own
  intact : ∀ i, i < sb.ninodes → (viewOf sb s own i).Intact sb

/-
  Every inode is empty, in memory and as stored, and the
  blocks before the data are marked in use.  Which data
  blocks are free is left open.
-/
structure NoData (sb : Superblock) (s : Fs) : Prop where
  addrs : ∀ i, i < sb.ninodes → (s.state i).addrs = Addrs.zero
  size : ∀ i, i < sb.ninodes → (s.state i).size = 0
  stored : ∀ i, i < sb.ninodes → (s.dinode sb i).addrs = Addrs.zero
  trunc : ∀ i, i < sb.ninodes → s.truncating i = false
  metadata : ∀ b, b < sb.dataStart → s.bit sb b = true

variable {s s' : Fs} {own own' : Nat → Option Nat}

theorem Owns.free_unowned (hOwns : Owns sb s own) (j : Nat) :
    ∀ F, (viewOf sb s own j).free = some F → ∀ b ∈ F, (viewOf sb s own j).heap b = none ∧
        b < sb.size := by
  intro F hF b hMem
  obtain rfl := Option.some.inj hF
  rw [Fs.mem_freeSet] at hMem
  refine ⟨?_, hMem.1⟩
  by_contra hOwn
  have hSet := hOwns.set b j ((viewOf_view sb s own j).heap_ne_none.mp hOwn)
  rw [hMem.2] at hSet
  simp at hSet

theorem NoData.allIntact (hInit : NoData sb s) : AllIntact sb s fun _ => none := by
  have hOwns : Owns sb s fun _ => none := ⟨fun b i hOwn => by simp at hOwn,
      fun b i hOwn => by simp at hOwn, hInit.metadata⟩
  refine ⟨hOwns, ?_⟩
  intro i hi
  have hAddrs : (viewOf sb s (fun _ => none) i).st.addrs =
      Addrs.zero := hInit.addrs i hi
  refine ⟨⟨hInit.trunc i hi, ?_, ?_, hOwns.free_unowned i⟩, ?_, ?_⟩
  · rw [hAddrs]
    exact Tree.empty _
  · intro k hk
    have hStored : (s.dinode sb i).addrs.get k = 0 := by rw [hInit.stored i hi, Addrs.get_zero]
    exact absurd hStored hk
  · show (s.state i).size.toNat ≤ MAXFILE * BSIZE
    rw [hInit.size i hi]
    exact Nat.zero_le _
  · intro x _
    apply fileByte_of_hole
    rw [hAddrs]
    cases dataPlace (x / BSIZE) <;> simp [ptr]

/- What the holder sees is all that matters. -/
theorem ILoc.Intact.viewOf (hOwns : Owns sb s own) (hv : v.Intact sb) (hSt : v.st = s.state i)
    (hDino : Settled v.dino (s.dinode sb i)) (hHeap : v.heap = heapOf s own i)
    (hTrunc : v.trunc = s.truncating i) : (viewOf sb s own i).Intact sb := by
  rcases hv with ⟨⟨hNot, hTree, hBelow, _⟩, hSize, hZero⟩
  unfold ILoc.byte at hZero
  rw [hSt] at hTree hBelow hSize hZero
  rw [hHeap] at hTree hZero
  rw [hTrunc] at hNot
  exact ⟨⟨hNot, hTree, hDino.below hBelow, hOwns.free_unowned i⟩, hSize, hZero⟩

theorem DataOp.run_spec (hSb : sb.Ok) (hAll : AllIntact sb s own) (hi : i < sb.ninodes)
    {op : DataOp} (hOp : op.Ok) : ∃ r s' own', Prog.run (exec sb) (op.prog sb i) s = .ok r s' ∧
      AllIntact sb s' own' ∧ op.Spec r (s.fileOf i) (s'.fileOf i) ∧ ∀ j, j < sb.ninodes → j ≠ i →
        s'.fileOf j = s.fileOf j := by
  have hView := viewOf_view sb s own i
  have hv := hAll.intact i hi
  have hRange : ∀ b, (viewOf sb s own i).heap b ≠ none → b < sb.size := by
    intro b hOwn
    exact (hAll.owns.data b i (hView.heap_ne_none.mp hOwn)).2
  rcases inodeRules_run hSb hi hAll.owns hView (DataOp.wp_body hSb hv hRange hOp) with
    ⟨r, s', own', v', hRun, hAdv, _, hv', hSpec⟩
  have hAll' : AllIntact sb s' own' := by
    refine ⟨hAdv.owns, ?_⟩
    intro j hj
    by_cases hEq : j = i
    · rw [hEq]
      exact hv'.viewOf hAdv.owns hAdv.view.st hAdv.view.dino hAdv.view.heap hAdv.view.trunc
    · exact (hAll.intact j hj).viewOf hAdv.owns (hAdv.frame.state j hEq).symm
        (Or.inl (hAdv.frame.dinode j hEq hj)) (hAdv.frame.heap j hEq).symm
        (hAdv.frame.trunc j hEq).symm
  refine ⟨r, s', own', (op.run_prog sb i s).trans hRun, hAll', ?_, ?_⟩
  · rw [hView.fileOf_eq hv.sound.tree, hAdv.view.fileOf_eq hv'.sound.tree]
    exact hSpec
  · intro j hj hEq
    rw [(viewOf_view sb s own j).fileOf_eq (hAll.intact j hj).sound.tree,
      (viewOf_view sb s' own' j).fileOf_eq (hAll'.intact j hj).sound.tree]
    have hByte : (viewOf sb s' own' j).byte = (viewOf sb s own j).byte := by
      funext x
      show fileByte (s'.state j).addrs (heapOf s' own' j) x =
        fileByte (s.state j).addrs (heapOf s own j) x
      rw [hAdv.frame.state j hEq, hAdv.frame.heap j hEq]
    have hSize : (viewOf sb s' own' j).st.size = (viewOf sb s own j).st.size := by
      show (s'.state j).size = (s.state j).size
      rw [hAdv.frame.state j hEq]
    unfold ILoc.file ILoc.bytes
    rw [hSize, hByte]

/- A run of any operations is a run on byte files. -/
theorem dataOps_refine (hSb : sb.Ok) (hAll : AllIntact sb s own)
    {ops : List (Fin sb.ninodes × DataOp)} (hOps : ∀ x ∈ ops, x.2.Ok) :
    ∃ rs s', Prog.run (exec sb) (dataOps sb ops) s = .ok rs s' ∧
      FileRun (fun i : Fin sb.ninodes => s.fileOf i) ops rs (fun i => s'.fileOf i) := by
  induction ops generalizing s own with
  | nil => exact ⟨[], s, rfl, FileRun.nil _⟩
  | cons x ops ih =>
    rcases x with ⟨i, op⟩
    have hOp := hOps _ List.mem_cons_self
    rcases DataOp.run_spec hSb hAll i.isLt hOp with ⟨r, s', own', hRun, hAll', hSpec, hOther⟩
    rcases ih hAll' fun y hy => hOps y (List.mem_cons_of_mem _ hy) with ⟨rs, s'', hRun', hRest⟩
    refine ⟨r :: rs, s'', ?_, FileRun.cons hSpec ?_ hRest⟩
    · unfold dataOps
      simp only [Prog.bind_eq]
      rw [Prog.run_bind, hRun, Outcome.andThen_ok, Prog.run_bind, hRun']
      rfl
    · intro j hj
      exact hOther j j.isLt fun hEq => hj (Fin.ext hEq)

/-
  Starting from empty inodes, whatever the free blocks, every
  sequence of operations runs to its end, as long as the
  assertions of `log_write` hold, which are not part of this
  model, and does to the files of the inodes what the
  abstract operations do.
-/
theorem dataLayer_refines (hSb : sb.Ok) (hInit : NoData sb s) (ops : List (Fin sb.ninodes × DataOp))
    (hOps : ∀ x ∈ ops, x.2.Ok) : ∃ rs s', Prog.run (exec sb) (dataOps sb ops) s = .ok rs s' ∧
      FileRun (fun _ => []) ops rs (fun i => s'.fileOf i) := by
  have hEmpty : (fun i : Fin sb.ninodes => s.fileOf i) = fun _ => [] := by
    funext i
    unfold Fs.fileOf
    rw [hInit.size i i.isLt]
    rfl
  rw [← hEmpty]
  exact dataOps_refine hSb hInit.allIntact hOps

/- A small disk: 4 inodes and 4 data blocks. -/
def smallDisk : Superblock where
  magic := FSMAGIC
  size := 8
  nblocks := 4
  ninodes := 4
  nlog := 0
  logstart := 2
  inodestart := 2
  bmapstart := 3

def smallState : Fs :=
  Fs.boot fun b =>
    if b = 3 then Bytes.ofFn fun k => if k = 0 then 15 else 0
    else Bytes.zero

theorem smallState_noData : NoData smallDisk smallState where
  addrs := fun _ _ => rfl
  size := fun _ _ => rfl
  stored := by
    intro i hi
    have hLt : i < 4 := hi
    have hBlk : iblock smallDisk i = 2 := by
      simp only [iblock, smallDisk, IPB, BSIZE, DINODE_SIZE]
      omega
    ext k hk
    rw [Addrs.get_zero]
    unfold Fs.dinode
    rw [hBlk]
    simp [smallState, Fs.boot, DInode.decode, Addrs.get]
  trunc := fun _ _ => rfl
  metadata := by
    intro b hb
    have hLt : b < 4 := hb
    interval_cases b <;> decide

/- Write past the end, cut, write elsewhere, read back. -/
def smallOps : List (Fin smallDisk.ninodes × DataOp) :=
  [((1 : Fin 4), .writei [7, 8, 9] 600),
    ((1 : Fin 4), .itruncTo 601), ((2 : Fin 4), .writei [1] 0), ((1 : Fin 4), .readi 1000 0)]

theorem dataLayer_refines_smallState : ∃ rs s', Prog.run (exec smallDisk)
        (dataOps smallDisk smallOps) smallState = .ok rs s' ∧ FileRun (fun _ => []) smallOps rs
        (fun i => s'.fileOf i) := dataLayer_refines
    ⟨by decide, by decide, by decide, by decide, by decide⟩ smallState_noData smallOps
    (by simp [smallOps, DataOp.Ok, MAXFILE, NDIRECT, NINDIRECT, NDOUBLE_INDIRECT, BSIZE])

end PlayXv6
