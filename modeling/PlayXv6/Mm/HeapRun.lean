import PlayXv6.Mm.HeapTiles

/-
  Every history of calls keeps the arena tiled.

  Main declarations:
    * `HeapOk`
    * `Inv.step`, `heap_tiled`, `alloc_first_fit`
-/

namespace PlayXv6

open Function

variable {live : List (Nat × Layout)} {x : Nat × Layout}

namespace Heap

open Chain

-- Steps

/- The client once the first call has set up the arena. -/
def Client.opened (A : Arena) (c : Client) : Client := { c with heap := c.heap.init A }

variable {A : Arena} {c c' : Client} {ts : List Block}

theorem opened_of_initialized (hInit : c.heap.initialized = true) : c.opened A = c := by
  unfold Client.opened HeapState.init
  rw [if_pos hInit]

theorem init_initialized (A : Arena) (h : HeapState) : (h.init A).initialized = true := by
  unfold HeapState.init
  split
  · assumption
  · rfl

theorem Unused.opened (hUnused : Unused c) : Tiled A [freeBlock A.base HEAP_SIZE] (c.opened A) := by
  have hConsts := consts
  have hHeap : (c.opened A).heap =
      { c.heap with
        mem := HeapState.writeNode c.heap.mem A.base HEAP_SIZE 0
        head := A.base
        initialized := true } := by
    unfold Client.opened HeapState.init
    dsimp only
    rw [if_neg (by rw [hUnused.initialized]; simp)]
  have hNode := writeNode_self c.heap.mem A.base HEAP_SIZE 0
  have hPos : 0 < HEAP_SIZE := by decide
  refine ⟨⟨⟨rfl, hPos, rfl⟩, ?_, ?_, ?_, ?_, ?_⟩, List.isChain_singleton _, ?_⟩
  · intro t ht
    cases List.mem_singleton.mp ht
    exact ⟨1024 * 1024, rfl⟩
  · intro t ht
    cases List.mem_singleton.mp ht
    change MIN_FREE ≤ HEAP_SIZE
    omega
  · change c.live.Perm []
    rw [hUnused.live]
  · intro t ht l hTag
    cases List.mem_singleton.mp ht
    cases hTag
  · rw [hHeap]
    exact hUnused.used
  · rw [hHeap]
    exact ⟨rfl, Nat.pos_iff_ne_zero.mp A.nonnull, hNode.1, hNode.2⟩

theorem Inv.opened (hInv : Inv A c) : ∃ ts, Tiled A ts (c.opened A) := by
  rcases hInv with hUnused | ⟨hInit, ts, hTiled⟩
  · exact ⟨_, hUnused.opened⟩
  · rw [opened_of_initialized hInit]
    exact ⟨ts, hTiled⟩

theorem align_dvd (l : Layout) : l.align ∣ max l.align UNIT := by
  rcases le_total UNIT l.align with hBig | hSmall
  · rw [max_eq_left hBig]
  · rw [max_eq_right hSmall]
    rcases l.power with ⟨k, hk⟩
    rw [hk] at hSmall ⊢
    have hFour : k ≤ 4 := (Nat.pow_le_pow_iff_right (by decide : 1 < 2)).mp
        (show 2 ^ k ≤ 2 ^ 4 from hSmall)
    exact Nat.pow_dvd_pow 2 hFour

/- A search finds no block, or carves a new live one. -/
theorem Tiled.alloc (l : Layout) (hTiled : Tiled A ts c) : c.heap.allocLoop (max l.align UNIT)
        (roundUp (max l.size 1) UNIT) 0 c.heap.head HeapState.FUEL = some (0, c.heap) ∨
      ∃ p h ts', c.heap.allocLoop (max l.align UNIT) (roundUp (max l.size 1) UNIT) 0 c.heap.head
          HeapState.FUEL = some (p, h) ∧ p ≠ 0 ∧ h.initialized = c.heap.initialized ∧
        Tiled A ts' { heap := h, live := (p, l) :: c.live } := by
  have hConsts := consts
  rcases request_of_layout l with ⟨hRequest, hSize⟩
  have hStart : Seg NEXT c.heap.mem c.heap.head [] c.heap.head := rfl
  have hPrev : 0 = lastAddr [] := rfl
  have hSearch := @allocLoop_spec (max l.align UNIT)
    (roundUp (max l.size 1) UNIT) _ _ _ _ _ _ hStart hTiled.list hPrev hTiled.length_lt
  rcases hSearch with hNone | ⟨mid, n, rest, hEq, hFits, hFound⟩
  · exact .inl hNone
  · right
    rcases exists_of_nodesOf_eq hEq with ⟨before, t, after, rfl, hFree, rfl, rfl, rfl⟩
    have ht : t ∈ before ++ t :: after := by simp
    have hBounds := hTiled.bounds ht
    have hPlaced := placement_spec hRequest (hTiled.start_unit ht) (by omega)
    unfold Fits at hFits
    dsimp only at hFits hFound
    rw [wadd_eq (by omega)] at hFits
    rw [List.nil_append] at hFound
    have hNodes := hTiled.nodes
    have hList := hTiled.list
    rw [nodesOf_append, nodesOf_cons_free hFree] at hNodes hList
    have hCarve := carve_spec hList hNodes hPlaced hRequest.one hFits
    have hCarved := hTiled.carve (n := (t.start, t.size))
      hFree rfl hPlaced hRequest hFits (align_dvd l) hSize
    refine ⟨_, _, _, hFound, ?_, hCarve.2.2.2.1, hCarved⟩
    have hp := hPlaced.p
    omega

/- Only the headers of live blocks matter to a tiling. -/
theorem Cover.congr {h : HeapState} (hCover : Cover A ts c) (hUsed : h.used = c.heap.used)
    (hSame : ∀ t ∈ ts, ∀ l, t.tag = some l → h.mem t.start = c.heap.mem t.start) :
    Cover A ts { c with heap := h } := by
  refine { hCover with serves := ?_, used := hUsed.trans hCover.used }
  intro t ht l hTag
  have hServes := hCover.serves t ht l hTag
  exact ⟨(hSame t ht l hTag).trans hServes.header, hServes.aligned, hServes.inside⟩

theorem Cover.free {before after : List Block} {t : Block} {l : Layout}
    (hCover : Cover A (before ++ t :: after) c) (hTag : t.tag = some l)
    (hLive : c.live.Perm ((t.start + HDR, l) :: live)) :
    Cover A (before ++ freeBlock t.start t.size :: after)
      { heap := { c.heap with
          used := wsub c.heap.used t.size }
        live := live } := by
  have hConsts := consts
  have ht : t ∈ before ++ t :: after := by simp
  have hOld : ∀ u, u ∈ before ++ freeBlock t.start t.size :: after → u ∈ before ++ t :: after ∨
        u = freeBlock t.start t.size := by
    intro u hu
    simp only [List.mem_append, List.mem_cons] at hu ⊢
    tauto
  refine ⟨?_, ?_, ?_, ?_, ?_, ?_⟩
  · rcases tiles_append.mp hCover.tiles with ⟨mid, hBefore, hRest⟩
    exact tiles_append.mpr ⟨mid, hBefore, hRest⟩
  · intro u hu
    rcases hOld u hu with hMem | rfl
    · exact hCover.unit u hMem
    · exact hCover.unit t ht
  · intro u hu
    rcases hOld u hu with hMem | rfl
    · exact hCover.big u hMem
    · exact hCover.big t ht
  · change live.Perm _
    have hAll := hLive.symm.trans hCover.live
    rw [liveOf_append, liveOf_cons_live hTag] at hAll
    rw [liveOf_append, liveOf_cons_free rfl]
    exact (hAll.trans List.perm_middle).cons_inv
  · intro u hu l' hTag'
    rcases hOld u hu with hMem | rfl
    · exact hCover.serves u hMem l' hTag'
    · cases hTag'
  · change wsub c.heap.used t.size = _
    have hLe := liveSizes_le hCover.tiles
    rw [hCover.used]
    rw [liveSizes_append, liveSizes_cons_live hTag, List.sum_append, List.sum_cons] at hLe ⊢
    rw [liveSizes_append, liveSizes_cons_free rfl, List.sum_append, wsub_eq (by omega) (by omega)]
    omega

/- Freeing a live block succeeds and merges it. -/
theorem Tiled.dealloc (hTiled : Tiled A ts c)
    (hLive : c.live.Perm (x :: live)) : ∃ h ts', c.heap.dealloc x.1 = some h ∧
      h.initialized = c.heap.initialized ∧ Tiled A ts' { heap := h, live := live } := by
  have hConsts := consts
  have hx : x ∈ liveOf ts := hTiled.live.subset (hLive.symm.subset (by simp))
  rcases mem_liveOf.mp hx with ⟨t, ht, hTag, hAddr⟩
  have hBounds := hTiled.bounds ht
  have hHeader := (hTiled.serves t ht x.2 hTag).header
  rcases List.append_of_mem ht with ⟨before, after, rfl⟩
  have hPerm : c.live.Perm ((t.start + HDR, x.2) :: live) := by
    rw [← hAddr]
    exact hLive
  have hFreed := hTiled.toCover.free hTag hPerm
  have hNodes := hFreed.nodes
  rw [nodesOf_append, nodesOf_cons_free rfl] at hNodes
  have hList := hTiled.list
  rw [nodesOf_append, nodesOf_cons_live hTag] at hList
  have hNull : t.start ≠ 0 := by omega
  have hRelease := release_spec (n := (t.start, t.size)) hList hNodes hNull
  -- the search finds the nodes around the block
  have hLoop : HeapState.deallocLoop c.heap.mem t.start 0 c.heap.head HeapState.FUEL =
      some (lastAddr (nodesOf before), headAddr (nodesOf after)) := by
    have hStart : 0 = lastAddr [] := rfl
    refine deallocLoop_spec hStart hList ?_ ?_ ?_
    · intro m hm
      have hOrder := hNodes.before hm (List.mem_cons_self ..)
      have hBig := hNodes.left.big m hm
      dsimp only [freeBlock] at hOrder
      omega
    · intro m hm
      have hOrder := (List.pairwise_cons.mp hNodes.right.order).1 m hm
      dsimp only [freeBlock] at hOrder
      omega
    · have hLength := hTiled.length_lt
      rw [nodesOf_append, List.length_append] at hLength
      exact Nat.lt_of_le_of_lt (Nat.le_add_right ..) hLength
  have hDealloc : c.heap.dealloc x.1 = some (c.heap.release t.start t.size
        (lastAddr (nodesOf before)) (headAddr (nodesOf after))) := by
    have hHdr : wsub x.1 HDR = t.start := by
      rw [hAddr, wsub_eq (by omega) (by omega)]
      omega
    unfold HeapState.dealloc
    rw [if_neg (by omega)]
    dsimp only
    rw [hHdr, update_eq_self, hLoop, hHeader]
    rfl
  -- no header of another live block is written
  have hCover := hFreed.congr (h := c.heap.release t.start t.size
      (lastAddr (nodesOf before)) (headAddr (nodesOf after))) hRelease.2.1 ?_
  · rcases exists_merged (n := (t.start, t.size)) hCover hTiled.apart.left
        (List.isChain_cons.mp hTiled.apart.right).2 with ⟨ts', hCover', hApart, hNodes'⟩
    refine ⟨_, ts', hDealloc, hRelease.2.2.1, ⟨hCover', hApart, ?_⟩⟩
    rw [hNodes']
    exact hRelease.1
  · intro u hu l hTag'
    have hNew : freeBlock t.start t.size ∈ before ++ freeBlock t.start t.size :: after := by simp
    have hApart := hFreed.live_start hNew hu rfl hTag'
    change u.start < t.start ∨ t.start + t.size ≤ u.start at hApart
    refine hRelease.2.2.2 u.start ?_ ?_ ?_
    · dsimp only
      omega
    · dsimp only
      omega
    · intro m hm
      rcases mem_nodesOf.mp hm with ⟨v, hv, hFree, rfl⟩
      have hv' : v ∈ before ++ freeBlock t.start t.size :: after := List.mem_append_left _ hv
      have hApart' := hFreed.live_start hv' hu hFree hTag'
      have hBig := hFreed.big v hv'
      dsimp only
      omega

/- A write into a payload touches no header and no node. -/
theorem Tiled.write {a v : Nat} (hTiled : Tiled A ts c) (hx : x ∈ c.live)
    (hFrom : x.1 ≤ a) (hTo : a < x.1 + x.2.size) :
    Tiled A ts { c with heap := { c.heap with
      mem := update c.heap.mem a v } } := by
  have hConsts := consts
  rcases mem_liveOf.mp (hTiled.live.subset hx) with ⟨t, ht, hTag, hAddr⟩
  have hInside := (hTiled.serves t ht x.2 hTag).inside
  unfold Tile.stop at hInside
  refine ⟨hTiled.toCover.congr rfl ?_, hTiled.apart, ?_⟩
  · intro u hu l hTag'
    refine update_of_ne ?_ _ _
    by_cases hSame : t = u
    · rw [← hSame]
      omega
    · have hApart := hTiled.tiles.apart_of_ne ht hu hSame
      have hSize := (hTiled.bounds hu).2.1
      unfold Tile.stop at hApart
      omega
  · refine hTiled.list.congr ?_
    intro m hm
    rcases mem_nodesOf.mp hm with ⟨u, hu, hFree, rfl⟩
    have hNe : u ≠ t := by
      rintro rfl
      rw [hFree] at hTag
      cases hTag
    have hApart := hTiled.tiles.apart_of_ne hu ht hNe
    have hBig := hTiled.big u hu
    unfold Tile.stop at hApart
    exact ⟨update_of_ne (by dsimp only; omega) _ _, update_of_ne (by dsimp only; omega) _ _⟩

theorem Inv.alloc (hInv : Inv A c) (l : Layout) : c.heap.alloc A l = some (0, c.heap.init A) ∨
      ∃ p h ts, c.heap.alloc A l = some (p, h) ∧ p ≠ 0 ∧ h.initialized = true ∧
        Tiled A ts { heap := h, live := (p, l) :: c.live } := by
  rcases hInv.opened with ⟨ts, hTiled⟩
  have hInit : (c.opened A).heap.initialized = true := init_initialized A c.heap
  rcases hTiled.alloc l with hNone | ⟨p, h, ts', hFound, hp, hSame, hTiled'⟩
  · exact .inl hNone
  · exact .inr ⟨p, h, ts', hFound, hp, hSame.trans hInit, hTiled'⟩

theorem Inv.dealloc (hInv : Inv A c)
    (hLive : c.live.Perm (x :: live)) : ∃ h, c.heap.dealloc x.1 = some h ∧
      Inv A { heap := h, live := live } := by
  rcases hInv with hUnused | ⟨hInit, ts, hTiled⟩
  · have hEmpty := hLive.length_eq
    rw [hUnused.live] at hEmpty
    simp at hEmpty
  · rcases hTiled.dealloc hLive with ⟨h, ts', hDealloc, hSame, hTiled'⟩
    exact ⟨h, hDealloc, .inr ⟨hSame.trans hInit, ts', hTiled'⟩⟩

theorem Inv.step (hInv : Inv A c) (hStep : Client.Step A c c') : Inv A c' := by
  cases hStep with
  | @failed l h hAlloc =>
    rcases hInv.alloc l with hNone | ⟨p, _, _, hFound, hp, _, _⟩
    · rw [hNone] at hAlloc
      cases hAlloc
      rcases hInv.opened with ⟨ts, hTiled⟩
      exact .inr ⟨init_initialized A c.heap, ts, hTiled⟩
    · rw [hFound] at hAlloc
      cases hAlloc
      exact absurd rfl hp
  | @alloc l p h hAlloc hp =>
    rcases hInv.alloc l with hNone | ⟨q, h', ts, hFound, _, hInit, hTiled⟩
    · rw [hNone] at hAlloc
      cases hAlloc
      exact absurd rfl hp
    · rw [hFound] at hAlloc
      cases hAlloc
      exact .inr ⟨hInit, ts, hTiled⟩
  | dealloc hLive hDealloc =>
    rcases hInv.dealloc hLive with ⟨h, hDealloc', hInv'⟩
    rw [hDealloc'] at hDealloc
    cases hDealloc
    exact hInv'
  | deallocNull hDealloc =>
    cases hDealloc
    exact hInv
  | @write x hx a v hFrom hTo =>
    rcases hInv with hUnused | ⟨hInit, ts, hTiled⟩
    · rw [hUnused.live] at hx
      cases hx
    · exact .inr ⟨hInit, ts, hTiled.write hx hFrom hTo⟩

theorem Inv.of_reaches (hReach : Client.Reaches A c) : Inv A c := by
  rcases hReach with ⟨mem, hSteps⟩
  induction hSteps with
  | refl => exact .inl ⟨rfl, rfl, rfl⟩
  | tail _ hStep ih => exact ih.step hStep

-- What the Heap Guarantees

/- The block of an allocation, with the size in its header. -/
def Client.block (c : Client) (x : Nat × Layout) : Node := (x.1 - HDR, c.heap.mem (x.1 - HDR))

def Client.blocks (c : Client) : List Node := c.live.map c.block

def span (n : Node) : Set Nat := Set.Ico n.1 (n.1 + n.2)

def payload (x : Nat × Layout) : Set Nat := Set.Ico x.1 (x.1 + x.2.size)

def header (x : Nat × Layout) : Set Nat := Set.Ico (x.1 - HDR) x.1

/-
  The free list `ns` and the live blocks tile the arena, and
  the payloads are where their clients can use them.
-/
structure HeapOk (A : Arena) (ns : List Node) (c : Client) : Prop where
  list : c.heap.FreeList ns
  order : ns.Pairwise fun n m => n.1 < m.1
  apart : ns.Pairwise fun n m => n.1 + n.2 ≠ m.1 ∧ m.1 + m.2 ≠ n.1
  big : ∀ n ∈ ns, MIN_FREE ≤ n.2
  cover : ∀ a, a ∈ Set.Ico A.base (A.base + HEAP_SIZE) ↔ ∃ n ∈ ns ++ c.blocks, a ∈ span n
  disjoint : (ns ++ c.blocks).Pairwise fun n m => Disjoint (span n) (span m)
  aligned : ∀ x ∈ c.live, x.2.align ∣ x.1
  inside : ∀ x ∈ c.live, payload x ⊆ span (c.block x) ∧ header x ⊆ span (c.block x)
  others : c.live.Pairwise fun x y => Disjoint (payload x) (span (c.block y)) ∧
      Disjoint (payload y) (span (c.block x))
  headers : ∀ x ∈ c.live, ∀ y ∈ c.live, Disjoint (payload x) (header y)
  nodes : ∀ x ∈ c.live, ∀ n ∈ ns, Disjoint (payload x) (span n)
  used : c.heap.used = (c.blocks.map Prod.snd).sum

def place (t : Block) : Node := (t.start, t.size)

theorem nodesOf_eq (ts : List Block) : nodesOf ts = (ts.filter isFree).map place := by
  induction ts with
  | nil => rfl
  | cons t ts ih =>
    by_cases hFree : t.tag = none
    · rw [nodesOf_cons_free hFree, List.filter_cons_of_pos (isFree_iff.mpr hFree), ih]
      rfl
    · rcases Option.ne_none_iff_exists'.mp hFree with ⟨l, hTag⟩
      rw [nodesOf_cons_live hTag, List.filter_cons_of_neg (mt isFree_iff.mp hFree), ih]

/- The header of a live block tells its size. -/
theorem map_block_liveOf (hHeader : ∀ t ∈ ts, ∀ l, t.tag = some l → c.heap.mem t.start = t.size) :
    (liveOf ts).map c.block = (ts.filter fun t => !isFree t).map place := by
  induction ts with
  | nil => rfl
  | cons t ts ih =>
    have hRest := ih fun u hu => hHeader u (List.mem_cons_of_mem t hu)
    by_cases hFree : t.tag = none
    · rw [liveOf_cons_free hFree, hRest, List.filter_cons_of_neg]
      simp [isFree, hFree]
    · rcases Option.ne_none_iff_exists'.mp hFree with ⟨l, hTag⟩
      rw [liveOf_cons_live hTag, List.map_cons, hRest,
        List.filter_cons_of_pos (by simp [isFree, hTag]), List.map_cons]
      congr 1
      unfold Client.block place
      dsimp only
      rw [Nat.add_sub_cancel, hHeader t (List.mem_cons_self ..) l hTag]

/- Nodes and live blocks together are the tiles. -/
theorem Tiled.perm (hTiled : Tiled A ts c) :
    c.blocks.Perm ((ts.filter fun t => !isFree t).map place) ∧
      (nodesOf ts ++ c.blocks).Perm (ts.map place) := by
  have hBlocks : c.blocks.Perm ((ts.filter fun t => !isFree t).map place) := by
    rw [← map_block_liveOf (c := c) fun t ht l hTag =>
      (hTiled.serves t ht l hTag).header]
    exact hTiled.live.map c.block
  refine ⟨hBlocks, ?_⟩
  rw [nodesOf_eq]
  refine (hBlocks.append_left _).trans ?_
  rw [← List.map_append]
  exact (List.filter_append_perm isFree ts).map place

theorem disjoint_span {n m : Node} (hApart : n.1 + n.2 ≤ m.1) : Disjoint (span n) (span m) :=
  Set.Ico_disjoint_Ico_same.mono_right (Set.Ico_subset_Ico_left hApart)

theorem Tiled.ok (hTiled : Tiled A ts c) : HeapOk A (nodesOf ts) c := by
  have hConsts := consts
  rcases hTiled.perm with ⟨hBlocks, hAll⟩
  -- a live block holds its header and its payload
  have hLive : ∀ x ∈ c.live, x.2.align ∣ x.1 ∧ HDR ≤ x.1 ∧ x.1 + x.2.size ≤
        (c.block x).1 + (c.block x).2 ∧ HDR ≤ (c.block x).2 := by
    intro x hx
    rcases mem_liveOf.mp (hTiled.live.subset hx) with ⟨t, ht, hTag, hAddr⟩
    have hServes := hTiled.serves t ht x.2 hTag
    have hBig := hTiled.big t ht
    have hInside := hServes.inside
    dsimp only [Client.block]
    rw [hAddr, Nat.add_sub_cancel, hServes.header]
    exact ⟨hServes.aligned, Nat.le_add_left .., hInside, by omega⟩
  have hInside : ∀ x ∈ c.live, payload x ⊆ span (c.block x) ∧ header x ⊆ span (c.block x) := by
    intro x hx
    have hx := hLive x hx
    have hStart : (c.block x).1 = x.1 - HDR := rfl
    refine ⟨Set.Ico_subset_Ico ?_ hx.2.2.1, Set.Ico_subset_Ico (le_of_eq hStart) ?_⟩
    · omega
    · omega
  have hDisjoint : (nodesOf ts ++ c.blocks).Pairwise fun n m => Disjoint (span n) (span m) := by
    refine (hAll.pairwise_iff fun h => h.symm).mpr ?_
    rw [List.pairwise_map]
    exact hTiled.tiles.pairwise.imp disjoint_span
  have hOthers : c.live.Pairwise fun x y => Disjoint (payload x) (span (c.block y)) ∧
        Disjoint (payload y) (span (c.block x)) := by
    have hPair := (List.pairwise_append.mp hDisjoint).2.1
    unfold Client.blocks at hPair
    rw [List.pairwise_map] at hPair
    refine hPair.imp_of_mem ?_
    intro x y hx hy hSpans
    exact ⟨hSpans.mono_left (hInside x hx).1, hSpans.symm.mono_left (hInside y hy).1⟩
  have hGap : (nodesOf ts).Pairwise fun n m => n.1 + n.2 < m.1 := by
    rw [nodesOf_eq, List.pairwise_map]
    exact hTiled.apart.pairwise_filter hTiled.tiles
  refine
    { list := hTiled.list
      order := hGap.imp fun hLt => by omega
      apart := hGap.imp fun hLt => by omega
      big := hTiled.nodes.big
      cover := ?_
      disjoint := hDisjoint
      aligned := fun x hx => (hLive x hx).1
      inside := hInside
      others := hOthers
      headers := ?_
      nodes := ?_
      used := ?_ }
  · intro a
    constructor
    · rintro ⟨hLo, hHi⟩
      rcases hTiled.tiles.exists_mem hLo hHi with ⟨t, ht, ha⟩
      refine ⟨place t, hAll.symm.subset ?_, ha⟩
      exact List.mem_map_of_mem ht
    · rintro ⟨n, hn, ha⟩
      rcases List.mem_map.mp (hAll.subset hn) with ⟨t, ht, rfl⟩
      have hBounds := hTiled.tiles.bounds ht
      exact ⟨hBounds.1.trans ha.1, ha.2.trans_le hBounds.2.2⟩
  · intro x hx y hy
    by_cases hSame : x = y
    · rw [hSame]
      exact Set.Ico_disjoint_Ico_same.symm
    · have hSymm : Std.Symm fun x y : Nat × Layout => Disjoint (payload x) (span (c.block y)) ∧
            Disjoint (payload y) (span (c.block x)) := ⟨fun x y hBoth => ⟨hBoth.2, hBoth.1⟩⟩
      have hPair := hOthers.forall hx hy hSame
      exact hPair.1.mono_right (hInside y hy).2
  · intro x hx n hn
    have hBlock : c.block x ∈ c.blocks := List.mem_map_of_mem hx
    have hPair := (List.pairwise_append.mp hDisjoint).2.2 n hn _ hBlock
    exact hPair.symm.mono_left (hInside x hx).1
  · rw [hTiled.used, (hBlocks.map Prod.snd).sum_eq, List.map_map]
    rfl

/- After any calls and writes the arena is tiled, and the calls that a client may make return. -/
theorem heap_tiled (hReach : Client.Reaches A c) : (∃ ns, HeapOk A ns (c.opened A)) ∧
      (c.heap.initialized = true → c.opened A = c) ∧ (c.heap.initialized = false → c.live = []) ∧
      (∀ l, ∃ p h, c.heap.alloc A l = some (p, h) ∧ h.initialized = true) ∧
      ∀ x ∈ c.live, ∃ h, c.heap.dealloc x.1 = some h := by
  have hInv := Inv.of_reaches hReach
  refine ⟨?_, opened_of_initialized, ?_, ?_, ?_⟩
  · rcases hInv.opened with ⟨ts, hTiled⟩
    exact ⟨_, hTiled.ok⟩
  · intro hInit
    rcases hInv with hUnused | ⟨hInit', _⟩
    · exact hUnused.live
    · rw [hInit] at hInit'
      cases hInit'
  · intro l
    rcases hInv.alloc l with hNone | ⟨p, h, _, hFound, _, hInit, _⟩
    · exact ⟨_, _, hNone, init_initialized A c.heap⟩
    · exact ⟨p, h, hFound, hInit⟩
  · intro x hx
    rcases List.append_of_mem hx with ⟨as, bs, hEq⟩
    have hPerm : c.live.Perm (x :: (as ++ bs)) := by
      rw [hEq]
      exact List.perm_middle
    rcases hInv.dealloc hPerm with ⟨h, hDealloc, _⟩
    exact ⟨h, hDealloc⟩

def dram : Arena where
  base := 0x80100000
  aligned := by decide
  nonnull := by decide
  low := by decide

/- A request that needs padding in front. -/
def pageLayout : Layout where
  size := 100
  align := 4096
  power := ⟨12, rfl⟩
  fits := by decide

theorem heap_tiled_page : ∃ c, Client.Reaches dram c ∧ c.live = [(0x80101000, pageLayout)] ∧
      ∃ ns, HeapOk dram ns (c.opened dram) := by
  have hSome : ((Client.start fun _ => 0).heap.alloc dram
        pageLayout).map Prod.fst = some 0x80101000 := by decide +kernel
  rcases Option.map_eq_some_iff.mp hSome with ⟨⟨p, h⟩, hAlloc, hp⟩
  cases hp
  have hReach : Client.Reaches dram { heap := h, live := [(0x80101000, pageLayout)] } :=
    ⟨fun _ => 0, .single (.alloc hAlloc (by decide))⟩
  exact ⟨_, hReach, rfl, (heap_tiled hReach).1⟩

-- First Fit

/- The address in the first block that has room, or 0. -/
def firstFit (align psize : Nat) : List Node → Nat
  | [] => 0
  | n :: ns =>
    if (placement align psize n.1).stop ≤ wadd n.1 n.2 then
      (placement align psize n.1).p
    else
      firstFit align psize ns

theorem allocLoop_firstFit {h : HeapState} {align psize prev cur fuel : Nat} {ns : List Node}
    (hList : Seg NEXT h.mem cur ns 0) (hFuel : ns.length < fuel) :
    (h.allocLoop align psize prev cur fuel).map Prod.fst = some (firstFit align psize ns) := by
  induction ns generalizing prev cur fuel with
  | nil =>
    cases fuel with
    | zero => simp at hFuel
    | succ fuel =>
      unfold HeapState.allocLoop
      rw [if_pos (show cur = 0 from hList)]
      rfl
  | cons n ns ih =>
    cases fuel with
    | zero => simp at hFuel
    | succ fuel =>
      rcases hList with ⟨rfl, hNull, hSize, hNext⟩
      unfold HeapState.allocLoop firstFit
      rw [if_neg hNull, hSize]
      dsimp only
      split
      · rfl
      · exact ih hNext (Nat.lt_of_succ_lt_succ hFuel)

/- Neighbours that are both free would have been merged. -/
theorem Tiled.nodesOf_of_free (hTiled : Tiled A ts c) (hLive : c.live = []) :
    nodesOf ts = [(A.base, HEAP_SIZE)] := by
  have hFree : ∀ t ∈ ts, t.tag = none := by
    intro t ht
    by_contra hTag
    rcases Option.ne_none_iff_exists'.mp hTag with ⟨l, hTag⟩
    have hMem : (t.start + HDR, l) ∈ liveOf ts := mem_liveOf.mpr ⟨t, ht, hTag, rfl⟩
    rw [← hTiled.live.mem_iff, hLive] at hMem
    cases hMem
  have hTiles := hTiled.tiles
  have hPos : 0 < HEAP_SIZE := by decide
  rcases ts with _ | ⟨t, _ | ⟨u, ts⟩⟩
  · unfold Tiles at hTiles
    omega
  · rcases hTiles with ⟨hStart, _, hStop⟩
    unfold Tiles Tile.stop at hStop
    have hSize : t.size = HEAP_SIZE := by omega
    rw [nodesOf_cons_free (hFree t (by simp)), hStart, hSize]
    rfl
  · have hNext := (List.isChain_cons_cons.mp hTiled.apart).1
    exact absurd ⟨isFree_iff.mpr (hFree t (by simp)), isFree_iff.mpr (hFree u (by simp))⟩ hNext

/-
  Whatever has been done with the heap, `alloc` answers with
  the first free block that has room and fails only if none
  has.  When nothing is live the arena is one block again.
-/
theorem alloc_first_fit (hReach : Client.Reaches A c) : ∃ ns, HeapOk A ns (c.opened A) ∧
    (∀ l, (c.heap.alloc A l).map Prod.fst =
        some (firstFit (max l.align UNIT) (roundUp (max l.size 1) UNIT) ns)) ∧
      (c.live = [] → ns = [(A.base, HEAP_SIZE)]) := by
  rcases (Inv.of_reaches hReach).opened with ⟨ts, hTiled⟩
  refine ⟨nodesOf ts, hTiled.ok, fun l => ?_, hTiled.nodesOf_of_free⟩
  unfold HeapState.alloc
  exact allocLoop_firstFit (h := (c.opened A).heap) hTiled.list hTiled.length_lt

/- A block is allocated and given back. -/
theorem alloc_first_fit_freed : ∃ c, Client.Reaches dram c ∧ c.live = [] ∧
    HeapOk dram [(dram.base, HEAP_SIZE)] (c.opened dram) := by
  have hSome : ((Client.start fun _ => 0).heap.alloc dram
      pageLayout).map Prod.fst = some 0x80101000 := by decide +kernel
  rcases Option.map_eq_some_iff.mp hSome with ⟨⟨p, h⟩, hAlloc, hp⟩
  cases hp
  have hStep := Client.Step.alloc hAlloc (by decide)
  have hReach : Client.Reaches dram _ := ⟨fun _ => 0, .single hStep⟩
  rcases (Inv.of_reaches hReach).dealloc (.refl _) with ⟨h', hDealloc, _⟩
  have hFreed : Client.Reaches dram { heap := h', live := [] } :=
    ⟨fun _ => 0, .tail (.single hStep) (.dealloc (.refl _) hDealloc)⟩
  rcases alloc_first_fit hFreed with ⟨ns, hOk, _, hWhole⟩
  cases hWhole rfl
  exact ⟨_, hFreed, rfl, hOk⟩

end Heap

end PlayXv6
