import PlayXv6.Mm.Heap

/-
  The heap's pointer code as operations on the list of its
  free nodes.

  Main declarations:
    * `Placed`, `Nodes`
    * `carve_spec`, `release_spec`
-/

namespace PlayXv6

open Function

variable {a b next n align psize p prev cur fuel x : Nat}

namespace Heap

open Chain

-- Arithmetic

/- The constants as numbers, for linear arithmetic. -/
theorem consts : WORD = 18446744073709551616 ∧ HEAP_SIZE = 16777216 ∧
      UNIT = 16 ∧ HDR = 16 ∧ MIN_FREE = 32 ∧ NEXT = 8 := ⟨rfl, rfl, rfl, rfl, rfl, rfl⟩

theorem wadd_eq (hFits : a + b < WORD) : wadd a b = a + b := Nat.mod_eq_of_lt hFits

theorem wsub_eq (hLe : b ≤ a) (hFits : a < WORD) : wsub a b = a - b := by
  unfold wsub
  rw [show a + (WORD - b) = a - b + WORD by omega, Nat.add_mod_right]
  exact Nat.mod_eq_of_lt (by omega)

theorem roundUp_spec (ha : 0 < a) (hFits : n + a < WORD) :
    a ∣ roundUp n a ∧ n ≤ roundUp n a ∧ roundUp n a < n + a := by
  unfold roundUp
  rw [wadd_eq hFits, wsub_eq (by omega) hFits]
  have hSplit := Nat.div_add_mod (n + a - 1) a
  have hMod := Nat.mod_lt (n + a - 1) ha
  rw [Nat.mul_comm] at hSplit
  refine ⟨Nat.dvd_mul_left a _, ?_, ?_⟩
  · omega
  · omega

theorem roundUp_eq (ha : 0 < a) (hFits : n + a < WORD) (hDvd : a ∣ n) : roundUp n a = n := by
  rcases roundUp_spec ha hFits with ⟨hUp, hLe, hLt⟩
  rcases Nat.dvd_sub hUp hDvd with ⟨k, hk⟩
  have hZero : k = 0 := by
    by_contra hPos
    have hMul : a * 1 ≤ a * k := Nat.mul_le_mul_left a (Nat.one_le_iff_ne_zero.mpr hPos)
    omega
  rw [hZero] at hk
  omega

structure Request (align psize : Nat) : Prop where
  unit : UNIT ∣ align
  pos : 0 < align
  size : UNIT ∣ psize
  one : UNIT ≤ psize
  fits : psize + align ≤ 2 ^ 63 + 32

theorem request_of_layout (l : Layout) : Request (max l.align UNIT) (roundUp (max l.size 1) UNIT) ∧
      l.size ≤ roundUp (max l.size 1) UNIT := by
  have hConsts := consts
  have hFits := l.fits
  rcases roundUp_spec (n := max l.size 1) (a := UNIT) (by decide) (by omega) with ⟨hDvd, hLe, hLt⟩
  have hUnit : UNIT ∣ max l.align UNIT := by
    rcases l.power with ⟨k, hk⟩
    rcases le_total UNIT l.align with hBig | hSmall
    · rw [max_eq_left hBig, hk]
      have hFour : 4 ≤ k := by
        by_contra hLess
        have hPow : 2 ^ k < 2 ^ 4 := Nat.pow_lt_pow_right (by decide) (by omega)
        omega
      exact pow_dvd_pow 2 hFour
    · rw [max_eq_right hSmall]
  refine ⟨⟨hUnit, ?_, hDvd, ?_, ?_⟩, ?_⟩
  · exact lt_max_of_lt_right (by decide)
  · exact Nat.le_of_dvd (by omega) hDvd
  · omega
  · omega

/- What the search computes for a block at `b`. -/
structure Placed (align psize b : Nat) (f : Placement) : Prop where
  p : f.p = f.hdr + HDR
  align : align ∣ f.p
  hdr : f.hdr = b + f.front
  front : f.front = 0 ∨ MIN_FREE ≤ f.front
  unit : UNIT ∣ f.front
  stop : f.stop = f.p + psize

/- Any aligned place above the header will do. -/
theorem placed_at (hRequest : Request align psize) (hb : UNIT ∣ b)
    (hLow : b < 2 ^ 62) (hDvd : align ∣ p) (hFrom : b + HDR ≤ p) (hTo : p < b + 48 + align)
    (hPad : p = b + HDR ∨ b + HDR + MIN_FREE ≤ p) : Placed align psize b
      { p := p
        hdr := wsub p HDR
        front := wsub (wsub p HDR) b
        stop := roundUp (wadd p psize) UNIT } := by
  have hConsts := consts
  have hFits := hRequest.fits
  have hUnit : UNIT ∣ p := hRequest.unit.trans hDvd
  have hHdr : wsub p HDR = p - HDR := wsub_eq (by omega) (by omega)
  have hFront : wsub (wsub p HDR) b = p - HDR - b := by
    rw [hHdr]
    exact wsub_eq (by omega) (by omega)
  have hStop : roundUp (wadd p psize) UNIT = p + psize := by
    rw [wadd_eq (by omega)]
    exact roundUp_eq (by decide) (by omega) (Nat.dvd_add hUnit hRequest.size)
  rw [hFront, hHdr, hStop]
  have hPadUnit : UNIT ∣ p - HDR - b := Nat.dvd_sub (Nat.dvd_sub hUnit (Nat.dvd_refl UNIT)) hb
  refine ⟨?_, hDvd, ?_, ?_, hPadUnit, rfl⟩
  · have hGe : HDR ≤ p := by omega
    exact (Nat.sub_add_cancel hGe).symm
  · change p - HDR = b + (p - HDR - b)
    omega
  · change p - HDR - b = 0 ∨ MIN_FREE ≤ p - HDR - b
    omega

theorem placement_spec (hRequest : Request align psize) (hb : UNIT ∣ b)
    (hLow : b < 2 ^ 62) : Placed align psize b (placement align psize b) := by
  have hConsts := consts
  have hFits := hRequest.fits
  have hOne := hRequest.one
  have hPos := hRequest.pos
  have hFirst : wadd b HDR = b + HDR := wadd_eq (by omega)
  have hSecond : wadd (wadd b MIN_FREE) HDR = b + MIN_FREE + HDR := by
    rw [wadd_eq (show b + MIN_FREE < WORD by omega)]
    exact wadd_eq (by omega)
  rcases roundUp_spec (n := b + HDR) hPos (by omega) with ⟨hDvd, hLe, hLt⟩
  unfold placement
  rw [hFirst, hSecond]
  dsimp only
  by_cases hPad : wsub (wsub (roundUp (b + HDR) align) HDR) b ≠
      0 ∧ wsub (wsub (roundUp (b + HDR) align) HDR) b < MIN_FREE
  · rw [if_pos hPad]
    rcases roundUp_spec (n := b + MIN_FREE + HDR) hPos (by omega) with ⟨hDvd', hLe', hLt'⟩
    exact placed_at hRequest hb hLow hDvd' (by omega) (by omega) (.inr (by omega))
  · rw [if_neg hPad]
    rw [wsub_eq (show HDR ≤ roundUp (b + HDR) align by omega)
      (by omega), wsub_eq (by omega) (by omega)] at hPad
    exact placed_at hRequest hb hLow hDvd hLe (by omega) (by omega)

/- Free blocks in address order, below an address. -/
structure Nodes (ns : List Node) : Prop where
  order : ns.Pairwise fun n m => n.1 + n.2 ≤ m.1
  big : ∀ n ∈ ns, MIN_FREE ≤ n.2
  low : ∀ n ∈ ns, n.1 + n.2 ≤ 2 ^ 62

def HeapState.FreeList (h : HeapState) (ns : List Node) : Prop := Seg NEXT h.mem h.head ns 0

variable {pre suf ns : List Node} {n : Node}

theorem Nodes.spread (hNodes : Nodes ns) : Spread NEXT ns := by
  refine (List.pairwise_iff_forall_sublist.mpr ?_)
  intro n m hSub
  have hOrder := List.pairwise_iff_forall_sublist.mp hNodes.order hSub
  have hBig := hNodes.big n (hSub.subset (by simp))
  have hConsts := consts
  omega

theorem Nodes.left (hNodes : Nodes (pre ++ suf)) : Nodes pre where
  order := (List.pairwise_append.mp hNodes.order).1
  big n hn := hNodes.big n (List.mem_append_left _ hn)
  low n hn := hNodes.low n (List.mem_append_left _ hn)

theorem Nodes.right (hNodes : Nodes (pre ++ suf)) : Nodes suf where
  order := (List.pairwise_append.mp hNodes.order).2.1
  big n hn := hNodes.big n (List.mem_append_right _ hn)
  low n hn := hNodes.low n (List.mem_append_right _ hn)

theorem Nodes.before {m : Node} (hNodes : Nodes (pre ++ suf)) (hn : n ∈ pre) (hm : m ∈ suf) :
    n.1 + n.2 ≤ m.1 := (List.pairwise_append.mp hNodes.order).2.2 n hn m hm

/- Where the other blocks lie. -/
theorem Nodes.around (hNodes : Nodes (pre ++ n :: suf)) :
    (∀ m ∈ pre, m.1 + m.2 ≤ n.1 ∧ 32 ≤ m.2) ∧ ∀ m ∈ suf, n.1 + n.2 ≤ m.1 :=
  ⟨fun m hm => ⟨hNodes.before hm (List.mem_cons_self ..), hNodes.left.big m hm⟩,
    (List.pairwise_cons.mp hNodes.right.order).1⟩

/- The link from the last node writes only among the nodes' links. -/
theorem relink_mem_of_not_link {mem : Memory} {head : Nat} (hx : ∀ m ∈ pre, x ≠ m.1 + NEXT) :
    (relink NEXT mem head (lastAddr pre) p).2 x = mem x := by
  refine relink_mem_of_ne fun hPrev => ?_
  rcases lastAddr_mem hPrev with ⟨m, hm, hEqual⟩
  rw [hEqual]
  exact hx m hm

-- Allocation

variable {h : HeapState}

/- The free block has room for the request. -/
def Fits (align psize : Nat) (n : Node) : Prop := (placement align psize n.1).stop ≤ wadd n.1 n.2

/- The search takes the first block with room, knowing the node before it. -/
theorem allocLoop_spec (hPre : Seg NEXT h.mem h.head pre cur)
    (hSuf : Seg NEXT h.mem cur suf 0) (hPrev : prev = lastAddr pre) (hFuel : suf.length < fuel) :
    h.allocLoop align psize prev cur fuel = some (0, h) ∨ ∃ mid n rest, suf = mid ++ n :: rest ∧
        Fits align psize n ∧ h.allocLoop align psize prev cur fuel =
          some ((placement align psize n.1).p, h.carve (lastAddr (pre ++ mid)) n.1
              (placement align psize n.1)) := by
  induction suf generalizing pre prev cur fuel with
  | nil =>
    cases fuel with
    | zero => simp at hFuel
    | succ fuel =>
      left
      have hEnd : cur = 0 := hSuf
      unfold HeapState.allocLoop
      rw [if_pos hEnd]
  | cons n suf ih =>
    cases fuel with
    | zero => simp at hFuel
    | succ fuel =>
      rcases hSuf with ⟨rfl, hNull, hSize, hNext⟩
      unfold HeapState.allocLoop
      rw [if_neg hNull]
      dsimp only
      by_cases hFit : (placement align psize n.1).stop ≤ wadd n.1 (h.mem n.1)
      · right
        rw [if_pos hFit, hPrev]
        rw [hSize] at hFit
        refine ⟨[], n, suf, rfl, hFit, ?_⟩
        rw [List.append_nil]
      · rw [if_neg hFit]
        have hPre' : Seg NEXT h.mem h.head (pre ++ [n]) (h.mem (n.1 + NEXT)) :=
          seg_append.mpr ⟨n.1, hPre, rfl, hNull, hSize, rfl⟩
        have hPrev' : n.1 = lastAddr (pre ++ [n]) := (lastAddr_append_singleton pre n).symm
        have hFuel' : suf.length < fuel := by
          rw [List.length_cons] at hFuel
          omega
        rcases ih hPre' hNext hPrev' hFuel' with hNone | ⟨mid, m, rest, rfl, hFits, hSome⟩
        · exact .inl hNone
        · refine .inr ⟨n :: mid, m, rest, rfl, hFits, ?_⟩
          rw [hSome, List.append_assoc, List.singleton_append]

def fin (n : Node) (f : Placement) : Nat :=
  if n.1 + n.2 - f.stop < MIN_FREE then n.1 + n.2 else f.stop

/- The free blocks that are left of a carved one. -/
def carved (n : Node) (f : Placement) : List Node :=
  (if f.front = 0 then [] else [(n.1, f.front)]) ++
    if fin n f < n.1 + n.2 then
      [(fin n f, n.1 + n.2 - fin n f)]
    else
      []

theorem fin_bounds {n : Node} {f : Placement} (hFits : f.stop ≤ n.1 + n.2) :
    f.stop ≤ fin n f ∧ fin n f ≤ n.1 + n.2 ∧ (fin n f < n.1 + n.2 →
        MIN_FREE ≤ n.1 + n.2 - fin n f) := by
  have hConsts := consts
  unfold fin
  split <;> omega

/- The remainder behind a carved block, before `next`. -/
def spliceTail (mem : Memory) (n : Node) (f : Placement) (next : Nat) : Nat × Memory :=
  if fin n f < n.1 + n.2 then
    (fin n f, HeapState.writeNode mem (fin n f) (n.1 + n.2 - fin n f) next)
  else
    (next, mem)

/- The blocks that are left of a carved one, before `next`. -/
def splice (mem : Memory) (n : Node) (f : Placement) (next : Nat) : Nat × Memory :=
  let tail := spliceTail mem n f next
  if f.front = 0 then
    tail
  else
    (n.1, HeapState.writeNode tail.2 n.1 f.front tail.1)

theorem writeNode_of_ne {mem : Memory} {size : Nat} (hx : x ≠ a) (hx' : x ≠ a + NEXT) :
    HeapState.writeNode mem a size next x = mem x := by
  unfold HeapState.writeNode
  rw [update_of_ne hx', update_of_ne hx]

theorem writeNode_self (mem : Memory) (a size next : Nat) :
    HeapState.writeNode mem a size next a = size ∧ HeapState.writeNode mem a size next (a + NEXT) =
        next := by
  unfold HeapState.writeNode
  have hNe : a ≠ a + NEXT := by
    have hConsts := consts
    omega
  rw [update_of_ne hNe, update_self, update_self]
  exact ⟨rfl, rfl⟩

variable {f : Placement}

theorem Placed.bounds (hPlaced : Placed align psize n.1 f) (hOne : UNIT ≤ psize)
    (hFits : f.stop ≤ n.1 + n.2) : f.hdr = n.1 + f.front ∧ f.hdr + 32 ≤ fin n f ∧
      fin n f ≤ n.1 + n.2 ∧ (fin n f < n.1 + n.2 → 32 ≤ n.1 + n.2 - fin n f) ∧
      (f.front = 0 ∨ 32 ≤ f.front) := by
  have hConsts := consts
  have hBounds := fin_bounds hFits
  have hStop := hPlaced.stop
  have hp := hPlaced.p
  exact ⟨hPlaced.hdr, by omega, by omega, by omega, hPlaced.front⟩

theorem mem_carved {m : Node} (hm : m ∈ carved n f) : (f.front ≠ 0 ∧ m = (n.1, f.front)) ∨
      (fin n f < n.1 + n.2 ∧ m = (fin n f, n.1 + n.2 - fin n f)) := by
  unfold carved at hm
  grind

/- Nothing but the last 32 bytes or more is written. -/
theorem spliceTail_spec {mem mem' : Memory} (hPlaced : Placed align psize n.1 f)
    (hOne : UNIT ≤ psize) (hFits : f.stop ≤ n.1 + n.2) (hSame : ∀ x, n.1 + NEXT < x →
      mem' x = (spliceTail mem n f next).2 x) : Seg NEXT mem' (spliceTail mem n f next).1
      (if fin n f < n.1 + n.2 then
        [(fin n f, n.1 + n.2 - fin n f)]
      else []) next := by
  have hConsts := consts
  have hBounds := hPlaced.bounds hOne hFits
  unfold spliceTail at hSame ⊢
  by_cases hRoom : fin n f < n.1 + n.2
  · rw [if_pos hRoom] at hSame
    rw [if_pos hRoom, if_pos hRoom]
    have hWords := writeNode_self mem (fin n f) (n.1 + n.2 - fin n f) next
    have hNull : fin n f ≠ 0 := by omega
    refine ⟨rfl, hNull, ?_, ?_⟩
    · exact (hSame (fin n f) (by omega)).trans hWords.1
    · exact (hSame (fin n f + NEXT) (by omega)).trans hWords.2
  · rw [if_neg hRoom, if_neg hRoom]
    rfl

theorem spliceTail_of_out {mem : Memory} (hPlaced : Placed align psize n.1 f)
    (hOne : UNIT ≤ psize) (hFits : f.stop ≤ n.1 + n.2) (hx : x < n.1 ∨ n.1 + n.2 ≤ x) :
    (spliceTail mem n f next).2 x = mem x := by
  have hConsts := consts
  have hBounds := hPlaced.bounds hOne hFits
  unfold spliceTail
  split
  · exact writeNode_of_ne (by omega) (by omega)
  · rfl

theorem splice_spec (hPlaced : Placed align psize n.1 f) (hOne : UNIT ≤ psize)
    (hFits : f.stop ≤ n.1 + n.2) (hNull : n.1 ≠ 0) (mem : Memory) (next : Nat) :
    Seg NEXT (splice mem n f next).2 (splice mem n f next).1 (carved n f) next ∧
      ∀ x, x < n.1 ∨ n.1 + n.2 ≤ x → (splice mem n f next).2 x = mem x := by
  have hConsts := consts
  have hBounds := hPlaced.bounds hOne hFits
  unfold splice carved
  by_cases hFront : f.front = 0
  · rw [if_pos hFront, if_pos hFront]
    refine ⟨?_, fun x hx => spliceTail_of_out hPlaced hOne hFits hx⟩
    exact spliceTail_spec hPlaced hOne hFits fun _ _ => rfl
  · rw [if_neg hFront, if_neg hFront]
    have hWords := writeNode_self (spliceTail mem n f next).2
      n.1 f.front (spliceTail mem n f next).1
    constructor
    · refine seg_append.mpr ⟨_, ⟨rfl, hNull, hWords.1,
        hWords.2⟩, spliceTail_spec hPlaced hOne hFits ?_⟩
      intro x hx
      exact writeNode_of_ne (by omega) (by omega)
    · intro x hx
      refine (writeNode_of_ne (by omega) (by omega)).trans ?_
      exact spliceTail_of_out hPlaced hOne hFits hx

/- Carving, as the splice and the link before it. -/
theorem carve_eq (prev : Nat) (hPlaced : Placed align psize n.1 f) (hOne : UNIT ≤ psize)
    (hFits : f.stop ≤ n.1 + n.2) (hLow : n.1 + n.2 ≤ 2 ^ 62) (hSize : h.mem n.1 = n.2) :
    ∃ peak, h.carve prev n.1 f =
      let pieces := splice h.mem n f (h.mem (n.1 + NEXT))
      let linked := relink NEXT pieces.2 h.head prev pieces.1
      { mem := update linked.2 f.hdr (fin n f - f.hdr)
        head := linked.1
        initialized := h.initialized
        used := wadd h.used (fin n f - f.hdr)
        peak := peak } := by
  have hConsts := consts
  have hBounds := hPlaced.bounds hOne hFits
  have hEnd : wadd n.1 n.2 = n.1 + n.2 := wadd_eq (by omega)
  have hFin : (if wsub (n.1 + n.2) f.stop < MIN_FREE then
      n.1 + n.2 else f.stop) = fin n f := by
    rw [wsub_eq hFits (by omega)]
    rfl
  have hRest : wsub (n.1 + n.2) (fin n f) = n.1 + n.2 - fin n f := wsub_eq (by omega) (by omega)
  have hBlock : wsub (fin n f) f.hdr = fin n f - f.hdr := wsub_eq (by omega) (by omega)
  have hPad : ∀ tail : Nat × Memory, (if f.front ≥ MIN_FREE then
        (n.1, HeapState.writeNode tail.2 n.1 f.front tail.1)
      else tail) =
      if f.front = 0 then tail
      else
        (n.1, HeapState.writeNode tail.2 n.1 f.front tail.1) := by
    intro tail
    by_cases hFront : f.front = 0
    · rw [if_pos hFront, if_neg (by omega)]
    · rw [if_neg hFront, if_pos (by omega)]
  dsimp only [HeapState.carve]
  rw [hSize, hEnd, hFin, hRest, hBlock, hPad]
  exact ⟨_, rfl⟩

theorem carve_spec (hList : h.FreeList (pre ++ n :: suf)) (hNodes : Nodes (pre ++ n :: suf))
    (hPlaced : Placed align psize n.1 f) (hOne : UNIT ≤ psize) (hFits : f.stop ≤ n.1 + n.2) :
    (h.carve (lastAddr pre) n.1 f).FreeList (pre ++ (carved n f ++ suf)) ∧
      (h.carve (lastAddr pre) n.1 f).mem f.hdr = fin n f - f.hdr ∧
      (h.carve (lastAddr pre) n.1 f).used = wadd h.used (fin n f - f.hdr) ∧
      (h.carve (lastAddr pre) n.1 f).initialized = h.initialized ∧ ∀ x, x < n.1 ∨ n.1 + n.2 ≤ x →
        (∀ m ∈ pre, x ≠ m.1 + NEXT) → (h.carve (lastAddr pre) n.1 f).mem x = h.mem x := by
  have hConsts := consts
  have hBounds := hPlaced.bounds hOne hFits
  rcases seg_append.mp hList with ⟨p, hPre, rfl, hNull, hSize, hSuf⟩
  have hBig := hNodes.right.big n (List.mem_cons_self ..)
  have hLow := hNodes.right.low n (List.mem_cons_self ..)
  rcases hNodes.around with ⟨hBefore, hAfter⟩
  rcases carve_eq (lastAddr pre) hPlaced hOne hFits hLow hSize with ⟨peak, hEq⟩
  rw [hEq]
  dsimp only
  have hSplice := splice_spec hPlaced hOne hFits hNull h.mem (h.mem (n.1 + NEXT))
  generalize splice h.mem n f (h.mem (n.1 + NEXT)) = pieces at *
  refine ⟨?_, update_self .., rfl, rfl, ?_⟩
  · have hPre' : Seg NEXT pieces.2 h.head pre n.1 := by
      refine hPre.congr fun m hm => ?_
      have hm' := hBefore m hm
      exact ⟨hSplice.2 _ (.inl (by omega)), hSplice.2 _ (.inl (by omega))⟩
    have hStart := hPre'.relink (by decide) hNodes.left.spread pieces.1
    -- only the new header is written after that
    have hKeep : ∀ x, x ≠ f.hdr → n.1 ≤ x → update (relink NEXT pieces.2 h.head
          (lastAddr pre) pieces.1).2 f.hdr (fin n f - f.hdr) x = pieces.2 x := by
      intro x hx hFrom
      rw [update_of_ne hx]
      refine relink_mem_of_not_link fun m hm => ?_
      have hm' := hBefore m hm
      omega
    refine seg_append.mpr ⟨pieces.1, hStart.congr ?_,
      seg_append.mpr ⟨h.mem (n.1 + NEXT), hSplice.1.congr ?_, hSuf.congr ?_⟩⟩
    · intro m hm
      have hm' := hBefore m hm
      exact ⟨update_of_ne (by omega) _ _, update_of_ne (by omega) _ _⟩
    · intro m hm
      rcases mem_carved hm with ⟨hPad, rfl⟩ | ⟨hRoom, rfl⟩
      · exact ⟨hKeep _ (by dsimp only; omega) le_rfl, hKeep _ (by dsimp only; omega)
            (by dsimp only; omega)⟩
      · exact ⟨hKeep _ (by dsimp only; omega) (by dsimp only; omega), hKeep _ (by dsimp only; omega)
            (by dsimp only; omega)⟩
    · intro m hm
      have hm' := hAfter m hm
      exact ⟨(hKeep m.1 (by omega) (by omega)).trans (hSplice.2 _ (.inr hm')),
        (hKeep (m.1 + NEXT) (by omega) (by omega)).trans (hSplice.2 _ (.inr (by omega)))⟩
  · intro x hx hNot
    rw [update_of_ne (by omega), relink_mem_of_not_link hNot]
    exact hSplice.2 x hx

-- Deallocation

/- A node put before a list, merged with its first if they
   touch. -/
def joinNext (n : Node) : List Node → List Node
  | [] => [n]
  | m :: ms =>
    if n.1 + n.2 = m.1 then (n.1, n.2 + m.2) :: ms
    else n :: m :: ms

/- A node put between two lists, merged on both sides. -/
def inserted (pre : List Node) (n : Node) (suf : List Node) : List Node :=
  match pre.getLast? with
  | none => joinNext n suf
  | some k => pre.dropLast ++ joinNext k (joinNext n suf)

/- The address of the first node, or 0. -/
def headAddr : List Node → Nat
  | [] => 0
  | n :: _ => n.1

variable {mem : Memory} {head : Nat}

theorem seg_head (hSeg : Seg NEXT mem p suf 0) : p = headAddr suf := by
  cases suf with
  | nil => exact hSeg
  | cons n suf => exact hSeg.1

/- The search stops behind the nodes below the block. -/
theorem deallocLoop_spec {hdr : Nat} {done : List Node} (hPrev : prev = lastAddr done)
    (hSeg : Seg NEXT mem cur (pre ++ suf) 0) (hBelow : ∀ m ∈ pre, m.1 < hdr)
    (hAbove : ∀ m ∈ suf, hdr < m.1) (hFuel : pre.length < fuel) :
    HeapState.deallocLoop mem hdr prev cur fuel = some (lastAddr (done ++ pre), headAddr suf) := by
  induction pre generalizing prev cur fuel done with
  | nil =>
    cases fuel with
    | zero => simp at hFuel
    | succ fuel =>
      have hCur := seg_head hSeg
      rw [List.nil_append] at hCur
      have hStop : ¬ (cur ≠ 0 ∧ cur < hdr) := by
        cases suf with
        | nil => exact fun hGo => hGo.1 hCur
        | cons m ms => grind [headAddr]
      unfold HeapState.deallocLoop
      rw [if_neg hStop, hPrev, hCur, List.append_nil]
  | cons k pre ih =>
    cases fuel with
    | zero => simp at hFuel
    | succ fuel =>
      rcases hSeg with ⟨rfl, hNull, _, hRest⟩
      have hLt := hBelow k (List.mem_cons_self ..)
      unfold HeapState.deallocLoop
      rw [if_pos ⟨hNull, hLt⟩]
      have hFuel' : pre.length < fuel := by
        rw [List.length_cons] at hFuel
        omega
      rw [ih (lastAddr_append_singleton done k).symm hRest
        (fun m hm => hBelow m (List.mem_cons_of_mem k hm))
        hFuel', List.append_assoc, List.singleton_append]

/- Merging a node with the next one, anywhere in the list. -/
theorem mergeNext_spec (hSeg : Seg NEXT mem head (pre ++ n :: suf) 0)
    (hNodes : Nodes (pre ++ n :: suf)) : Seg NEXT (if headAddr suf ≠ 0 then
          HeapState.mergeNext mem n.1 (headAddr suf)
        else mem)
        head (pre ++ joinNext n suf) 0 ∧
      ∀ x, x ≠ n.1 → x ≠ n.1 + NEXT → (if headAddr suf ≠ 0 then
          HeapState.mergeNext mem n.1 (headAddr suf)
        else mem) x = mem x := by
  have hConsts := consts
  cases suf with
  | nil =>
    rw [if_neg (by simp [headAddr])]
    exact ⟨hSeg, fun _ _ _ => rfl⟩
  | cons m ms =>
    rcases seg_append.mp hSeg with ⟨p, hPre, rfl, hNull, hSize, hNext, hNull', hSize', hRest⟩
    have hLow := hNodes.right.low n (List.mem_cons_self ..)
    have hLowNext := hNodes.right.low m (by simp)
    have hOrder := List.pairwise_cons.mp hNodes.right.order
    have hEnd : wadd n.1 n.2 = n.1 + n.2 := wadd_eq (by omega)
    unfold headAddr
    rw [if_pos hNull']
    unfold HeapState.mergeNext joinNext
    dsimp only
    rw [hSize, hEnd]
    by_cases hTouch : n.1 + n.2 = m.1
    · rw [if_pos hTouch, if_pos hTouch, hSize', wadd_eq (by omega)]
      have hFrame : ∀ x, x ≠ n.1 → x ≠ n.1 + NEXT → HeapState.writeNode mem n.1 (n.2 + m.2)
            (mem (m.1 + NEXT)) x = mem x := fun x hx hx' => writeNode_of_ne hx hx'
      have hWords := writeNode_self mem n.1 (n.2 + m.2) (mem (m.1 + NEXT))
      refine ⟨seg_append.mpr ⟨n.1, hPre.congr ?_, rfl, hNull, hWords.1, ?_⟩, hFrame⟩
      · intro k hk
        have hBefore := hNodes.before hk (List.mem_cons_self ..)
        have hBig := hNodes.left.big k hk
        exact ⟨hFrame _ (by omega) (by omega), hFrame _ (by omega) (by omega)⟩
      · rw [hWords.2]
        refine hRest.congr fun k hk => ?_
        have hAfter := hOrder.1 k (List.mem_cons_of_mem m hk)
        have hBig := hNodes.right.big n (List.mem_cons_self ..)
        exact ⟨hFrame _ (by omega) (by omega), hFrame _ (by omega) (by omega)⟩
    · rw [if_neg hTouch, if_neg hTouch]
      exact ⟨hSeg, fun _ _ _ => rfl⟩

theorem headAddr_joinNext (n : Node) (ms : List Node) : headAddr (joinNext n ms) = n.1 := by
  cases ms with
  | nil => rfl
  | cons m ms =>
    dsimp only [joinNext]
    split <;> rfl

theorem inserted_concat (pre suf : List Node) (k n : Node) : inserted (pre ++ [k]) n suf =
      pre ++ joinNext k (joinNext n suf) := by
  unfold inserted
  simp

/- A node that touches none before it merges with none. -/
theorem inserted_of_gap (hGap : ∀ m ∈ pre, m.1 + m.2 ≠ n.1) :
    inserted pre n suf = pre ++ joinNext n suf := by
  rcases List.eq_nil_or_concat pre with rfl | ⟨first, k, rfl⟩
  · rfl
  rw [List.concat_eq_append] at *
  rw [inserted_concat, List.append_assoc, List.singleton_append]
  have hHead := headAddr_joinNext n suf
  cases hJoin : joinNext n suf with
  | nil => rfl
  | cons w ws =>
    rw [hJoin] at hHead
    have hNe : k.1 + k.2 ≠ w.1 := by
      rw [show w.1 = n.1 from hHead]
      exact hGap k (by simp)
    dsimp only [joinNext]
    rw [if_neg hNe]

theorem nodes_joinNext (hNodes : Nodes (pre ++ n :: suf)) : Nodes (pre ++ joinNext n suf) := by
  cases suf with
  | nil => exact hNodes
  | cons m ms =>
    dsimp only [joinNext]
    split
    · rename_i hTouch
      rcases hNodes with ⟨hOrder, hBig, hLow⟩
      simp only [List.pairwise_append, List.pairwise_cons, List.mem_append, List.mem_cons] at *
      constructor
      · simp only [List.pairwise_append, List.pairwise_cons, List.mem_cons]
        grind
      · grind
      · grind
    · exact hNodes

theorem linked_spec (hSeg : Seg NEXT mem head (pre ++ suf) 0) (hNodes : Nodes (pre ++ n :: suf))
    (hNull : n.1 ≠ 0) : Seg NEXT (relink NEXT (HeapState.writeNode mem n.1 n.2 (headAddr suf)) head
          (lastAddr pre) n.1).2 (relink NEXT (HeapState.writeNode mem n.1 n.2 (headAddr suf)) head
          (lastAddr pre) n.1).1 (pre ++ n :: suf) 0 ∧ ∀ x, x ≠ n.1 → x ≠ n.1 + NEXT →
        (∀ m ∈ pre, x ≠ m.1 + NEXT) → (relink NEXT
            (HeapState.writeNode mem n.1 n.2 (headAddr suf)) head
            (lastAddr pre) n.1).2 x = mem x := by
  have hConsts := consts
  rcases seg_append.mp hSeg with ⟨p, hPre, hSuf⟩
  have hHead := seg_head hSuf
  subst hHead
  have hWords := writeNode_self mem n.1 n.2 (headAddr suf)
  have hBig := hNodes.right.big n (List.mem_cons_self ..)
  rcases hNodes.around with ⟨hBefore, hAfter⟩
  -- from the node on, the link before it changes nothing
  have hLink : ∀ x, n.1 ≤ x → (relink NEXT (HeapState.writeNode mem n.1 n.2 (headAddr suf)) head
        (lastAddr pre) n.1).2 x = HeapState.writeNode mem n.1 n.2 (headAddr suf) x := by
    intro x hx
    refine relink_mem_of_not_link fun m hm => ?_
    have hm' := hBefore m hm
    omega
  have hPre' : Seg NEXT (HeapState.writeNode mem n.1 n.2 (headAddr suf)) head pre
      (headAddr suf) := by
    refine hPre.congr fun m hm => ?_
    have hm' := hBefore m hm
    exact ⟨writeNode_of_ne (by omega) (by omega), writeNode_of_ne (by omega) (by omega)⟩
  constructor
  · refine seg_append.mpr ⟨n.1, hPre'.relink (by decide) hNodes.left.spread n.1, rfl, hNull, ?_, ?_⟩
    · exact (hLink n.1 le_rfl).trans hWords.1
    · rw [hLink (n.1 + NEXT) (by omega), hWords.2]
      refine hSuf.congr fun k hk => ?_
      have hk' := hAfter k hk
      rw [hLink k.1 (by omega), hLink (k.1 + NEXT) (by omega)]
      exact ⟨writeNode_of_ne (by omega) (by omega), writeNode_of_ne (by omega) (by omega)⟩
  · intro x hx hx' hNot
    rw [relink_mem_of_not_link hNot]
    exact writeNode_of_ne hx hx'

theorem release_spec (hList : h.FreeList (pre ++ suf)) (hNodes : Nodes (pre ++ n :: suf))
    (hNull : n.1 ≠ 0) : (h.release n.1 n.2 (lastAddr pre) (headAddr suf)).FreeList
        (inserted pre n suf) ∧ (h.release n.1 n.2 (lastAddr pre) (headAddr suf)).used =
        wsub h.used n.2 ∧ (h.release n.1 n.2 (lastAddr pre)
        (headAddr suf)).initialized = h.initialized ∧ ∀ x, x ≠ n.1 → x ≠ n.1 + NEXT →
        (∀ m ∈ pre, x ≠ m.1 ∧ x ≠ m.1 + NEXT) → (h.release n.1 n.2 (lastAddr pre)
            (headAddr suf)).mem x = h.mem x := by
  have hLinked := linked_spec hList hNodes hNull
  dsimp only [HeapState.release]
  generalize relink NEXT (HeapState.writeNode h.mem n.1 n.2 (headAddr suf)) h.head
    (lastAddr pre) n.1 = linked at *
  have hMerged := mergeNext_spec hLinked.1 hNodes
  generalize (if headAddr suf ≠ 0 then
    HeapState.mergeNext linked.2 n.1 (headAddr suf)
    else linked.2) = mem at *
  rcases List.eq_nil_or_concat pre with rfl | ⟨before, k, rfl⟩
  · rw [lastAddr_nil, if_neg (by simp)]
    refine ⟨hMerged.1, rfl, rfl, ?_⟩
    intro x hx hx' _
    exact (hMerged.2 x hx hx').trans (hLinked.2 x hx hx' (by simp))
  · rw [List.concat_eq_append] at *
    have hJoined := nodes_joinNext hNodes
    have hSeg := hMerged.1
    rw [List.append_assoc, List.singleton_append] at hSeg hJoined
    have hNull' : k.1 ≠ 0 := by
      rcases seg_append.mp hSeg with ⟨p, _, hk⟩
      exact hk.2.1
    have hAgain := mergeNext_spec hSeg hJoined
    rw [headAddr_joinNext, if_pos hNull] at hAgain
    rw [lastAddr_append_singleton, if_pos hNull']
    refine ⟨?_, rfl, rfl, ?_⟩
    · unfold inserted
      rw [List.getLast?_concat, List.dropLast_concat]
      exact hAgain.1
    · intro x hx hx' hNot
      have hk := hNot k (by simp)
      refine (hAgain.2 x hk.1 hk.2).trans ?_
      refine (hMerged.2 x hx hx').trans ?_
      exact hLinked.2 x hx hx' fun m hm => (hNot m hm).2

end Heap

end PlayXv6
