import PlayXv6.Lib.Tiling
import PlayXv6.Mm.HeapList

/-
  The arena is tiled by live blocks and free nodes.

  Main declarations:
    * `Block`, `Cover`, `Tiled`
    * `Tiled.carve`, `exists_merged`
-/

namespace PlayXv6

variable {l : Layout}

namespace Heap

open Chain

-- Blocks

/- A part of the arena: live with its layout, or free. -/
abbrev Block := Tile (Option Layout)

def isFree (t : Block) : Bool := t.tag.isNone

def freeBlock (start size : Nat) : Block where
  start := start
  size := size
  tag := none

/- A free block as a node of the free list. -/
def nodeOf (t : Block) : Option Node :=
  match t.tag with
  | none => some (t.start, t.size)
  | some _ => none

def allocOf (t : Block) : Option (Nat × Layout) := t.tag.map fun l => (t.start + HDR, l)

def nodesOf (ts : List Block) : List Node := ts.filterMap nodeOf

def liveOf (ts : List Block) : List (Nat × Layout) := ts.filterMap allocOf

def liveSizes (ts : List Block) : List Nat := (ts.filter fun t => !isFree t).map Tile.size

variable {ts us : List Block} {t : Block}

theorem nodeOf_eq_some {n : Node} : nodeOf t = some n ↔ t.tag = none ∧ n = (t.start, t.size) := by
  unfold nodeOf
  cases hTag : t.tag with
  | none => simp [eq_comm]
  | some l => simp

theorem mem_nodesOf {n : Node} : n ∈ nodesOf ts ↔
      ∃ t ∈ ts, t.tag = none ∧ n = (t.start, t.size) := by
  simp only [nodesOf, List.mem_filterMap, nodeOf_eq_some]

theorem mem_liveOf {x : Nat × Layout} : x ∈ liveOf ts ↔
      ∃ t ∈ ts, t.tag = some x.2 ∧ x.1 = t.start + HDR := by
  unfold liveOf
  rw [List.mem_filterMap]
  refine exists_congr fun t => and_congr_right fun _ => ?_
  unfold allocOf
  cases t.tag <;> grind

@[simp] theorem nodesOf_append (ts us : List Block) :
    nodesOf (ts ++ us) = nodesOf ts ++ nodesOf us := List.filterMap_append

@[simp] theorem liveOf_append (ts us : List Block) : liveOf (ts ++ us) = liveOf ts ++ liveOf us :=
  List.filterMap_append

@[simp] theorem liveSizes_append (ts us : List Block) :
    liveSizes (ts ++ us) = liveSizes ts ++ liveSizes us := by simp [liveSizes]

theorem nodesOf_cons_free (hTag : t.tag = none) :
    nodesOf (t :: ts) = (t.start, t.size) :: nodesOf ts := by simp [nodesOf, nodeOf, hTag]

theorem nodesOf_cons_live (hTag : t.tag = some l) :
    nodesOf (t :: ts) = nodesOf ts := by simp [nodesOf, nodeOf, hTag]

theorem liveOf_cons_free (hTag : t.tag = none) : liveOf (t :: ts) = liveOf ts := by
  simp [liveOf, allocOf, hTag]

theorem liveOf_cons_live (hTag : t.tag = some l) :
    liveOf (t :: ts) = (t.start + HDR, l) :: liveOf ts := by simp [liveOf, allocOf, hTag]

theorem liveSizes_cons_free (hTag : t.tag = none) : liveSizes (t :: ts) = liveSizes ts := by
  simp [liveSizes, isFree, hTag]

theorem liveSizes_cons_live (hTag : t.tag = some l) :
    liveSizes (t :: ts) = t.size :: liveSizes ts := by simp [liveSizes, isFree, hTag]

/- A node of the list is a block of the arena. -/
theorem exists_of_nodesOf_eq {pre suf : List Node} {n : Node} (hEq : nodesOf ts = pre ++ n :: suf) :
    ∃ before t after, ts = before ++ t :: after ∧ t.tag = none ∧ n = (t.start, t.size) ∧
      nodesOf before = pre ∧ nodesOf after = suf := by
  rcases List.filterMap_eq_append_iff.mp hEq with ⟨us, vs, rfl, hPre, hRest⟩
  rcases List.filterMap_eq_cons_iff.mp hRest with ⟨ws, t, after, rfl, hNone, hNode, hSuf⟩
  have hTag := nodeOf_eq_some.mp hNode
  refine ⟨us ++ ws, t, after, by simp, hTag.1, hTag.2, ?_, hSuf⟩
  rw [nodesOf_append]
  have hEmpty : nodesOf ws = [] := List.filterMap_eq_nil_iff.mpr hNone
  rw [hEmpty, List.append_nil]
  exact hPre

-- The Invariant

/- What a live block promises its client. -/
structure Serves (mem : Memory) (t : Block) (l : Layout) : Prop where
  header : mem t.start = t.size
  aligned : l.align ∣ t.start + HDR
  inside : t.start + HDR + l.size ≤ t.stop

/- The blocks tile the arena and the live ones are right. -/
structure Cover (A : Arena) (ts : List Block) (c : Client) : Prop where
  tiles : Tiles A.base ts (A.base + HEAP_SIZE)
  unit : ∀ t ∈ ts, UNIT ∣ t.size
  big : ∀ t ∈ ts, MIN_FREE ≤ t.size
  live : c.live.Perm (liveOf ts)
  serves : ∀ t ∈ ts, ∀ l, t.tag = some l → Serves c.heap.mem t l
  used : c.heap.used = (liveSizes ts).sum

/- The free ones are merged, and are the free list. -/
structure Tiled (A : Arena) (ts : List Block) (c : Client) : Prop extends Cover A ts c where
  apart : Apart isFree ts
  list : c.heap.FreeList (nodesOf ts)

/- Before the first call nothing has been set up. -/
structure Unused (c : Client) : Prop where
  initialized : c.heap.initialized = false
  live : c.live = []
  used : c.heap.used = 0

def Inv (A : Arena) (c : Client) : Prop := Unused c ∨ c.heap.initialized = true ∧ ∃ ts, Tiled A ts c

variable {u : Block}

variable {A : Arena} {c : Client}

theorem tiles_unit {lo hi : Nat} (hTiles : Tiles lo ts hi)
    (hUnit : ∀ t ∈ ts, UNIT ∣ t.size) (hLo : UNIT ∣ lo) (ht : t ∈ ts) : UNIT ∣ t.start := by
  induction ts generalizing lo with
  | nil => simp at ht
  | cons u us ih =>
    rcases List.mem_cons.mp ht with rfl | ht
    · rw [hTiles.1]
      exact hLo
    · refine ih hTiles.2.2 (fun v hv => hUnit v (List.mem_cons_of_mem u hv)) ?_ ht
      unfold Tile.stop
      rw [hTiles.1]
      exact Nat.dvd_add hLo (hUnit u (List.mem_cons_self ..))

theorem Cover.start_unit (hCover : Cover A ts c) (ht : t ∈ ts) : UNIT ∣ t.start :=
  tiles_unit hCover.tiles hCover.unit A.aligned ht

theorem Cover.bounds (hCover : Cover A ts c) (ht : t ∈ ts) : 0 < t.start ∧ 32 ≤ t.size ∧
      t.start + t.size ≤ 2 ^ 62 := by
  have hConsts := consts
  have hBounds := hCover.tiles.bounds ht
  have hPos := A.nonnull
  have hLow := A.low
  have hBig := hCover.big t ht
  unfold Tile.stop at hBounds
  omega

theorem Cover.nodes (hCover : Cover A ts c) : Nodes (nodesOf ts) := by
  constructor
  · unfold nodesOf
    rw [List.pairwise_filterMap]
    refine hCover.tiles.pairwise.imp ?_
    intro t u hOrder n hn m hm
    rw [(nodeOf_eq_some.mp hn).2, (nodeOf_eq_some.mp hm).2]
    exact hOrder
  · intro n hn
    rcases mem_nodesOf.mp hn with ⟨t, ht, _, rfl⟩
    exact hCover.big t ht
  · intro n hn
    rcases mem_nodesOf.mp hn with ⟨t, ht, _, rfl⟩
    exact (hCover.bounds ht).2.2

theorem Cover.length_lt (hCover : Cover A ts c) : (nodesOf ts).length < HeapState.FUEL := by
  have hConsts := consts
  have hSum := hCover.tiles.sum_size
  have hLength : (nodesOf ts).length ≤ ts.length := List.length_filterMap_le _ _
  have hCount : ts.length * 32 ≤ (ts.map Tile.size).sum := by
    have hLe := List.card_nsmul_le_sum (ts.map Tile.size) 32
    rw [List.length_map] at hLe
    refine hLe ?_
    intro s hs
    rcases List.mem_map.mp hs with ⟨t, ht, rfl⟩
    exact hCover.big t ht
  change _ < HEAP_SIZE
  omega

theorem liveSizes_le (hTiles : Tiles A.base ts (A.base + HEAP_SIZE)) :
    (liveSizes ts).sum ≤ HEAP_SIZE := by
  have hSum := hTiles.sum_size
  have hSub : (liveSizes ts).Sublist (ts.map Tile.size) := List.filter_sublist.map Tile.size
  have hLe := hSub.sum_le_sum fun _ _ => Nat.zero_le _
  omega

/- A free block does not contain the start of a live one. -/
theorem Cover.live_start (hCover : Cover A ts c) (ht : t ∈ ts)
    (hu : u ∈ ts) (hFree : t.tag = none) (hLive : u.tag = some l) :
    u.start < t.start ∨ t.start + t.size ≤ u.start := by
  have hNe : t ≠ u := by
    rintro rfl
    rw [hFree] at hLive
    cases hLive
  have hSize := (hCover.bounds hu).2.1
  have hApart := hCover.tiles.apart_of_ne ht hu hNe
  unfold Tile.stop at hApart
  omega

-- Allocation

variable {before after : List Block} {align psize : Nat} {n : Node} {f : Placement}

def liveBlock (n : Node) (f : Placement) (l : Layout) : Block where
  start := f.hdr
  size := fin n f - f.hdr
  tag := some l

def frontBlocks (n : Node) (f : Placement) : List Block :=
  if f.front = 0 then [] else [freeBlock n.1 f.front]

def tailBlocks (n : Node) (f : Placement) : List Block :=
  if fin n f < n.1 + n.2 then
    [freeBlock (fin n f) (n.1 + n.2 - fin n f)]
  else
    []

theorem mem_frontBlocks (hu : u ∈ frontBlocks n f) : f.front ≠ 0 ∧ u = freeBlock n.1 f.front := by
  unfold frontBlocks at hu
  grind

theorem mem_tailBlocks (hu : u ∈ tailBlocks n f) : fin n f < n.1 + n.2 ∧
      u = freeBlock (fin n f) (n.1 + n.2 - fin n f) := by
  unfold tailBlocks at hu
  grind

theorem nodesOf_pieces (n : Node) (f : Placement) (l : Layout) :
    nodesOf (frontBlocks n f ++ liveBlock n f l :: tailBlocks n f) = carved n f := by
  rw [nodesOf_append, nodesOf_cons_live (l := l) rfl]
  unfold frontBlocks tailBlocks carved
  congr 1
  · split <;> rfl
  · split <;> rfl

theorem liveOf_pieces (n : Node) (f : Placement) : liveOf (frontBlocks n f) = [] ∧
      liveOf (tailBlocks n f) = [] ∧ liveSizes (frontBlocks n f) = [] ∧
      liveSizes (tailBlocks n f) = [] := by
  unfold frontBlocks tailBlocks
  refine ⟨?_, ?_, ?_, ?_⟩ <;> split <;> rfl

theorem tiles_pieces (hPlaced : Placed align psize n.1 f) (hOne : UNIT ≤ psize)
    (hFits : f.stop ≤ n.1 + n.2) : Tiles n.1 (frontBlocks n f ++ liveBlock n f l ::
      tailBlocks n f) (n.1 + n.2) := by
  have hBounds := hPlaced.bounds hOne hFits
  refine tiles_append.mpr ⟨f.hdr, ?_, rfl, ?_, ?_⟩
  · unfold frontBlocks
    split
    · exact show n.1 = f.hdr by omega
    · exact ⟨rfl, show 0 < f.front by omega, show n.1 + f.front = f.hdr by omega⟩
  · change 0 < fin n f - f.hdr
    omega
  · have hStop : (liveBlock n f l).stop = fin n f := by
      change f.hdr + (fin n f - f.hdr) = fin n f
      omega
    rw [hStop]
    unfold tailBlocks
    split
    · exact ⟨rfl, show 0 < n.1 + n.2 - fin n f by omega,
        show fin n f + (n.1 + n.2 - fin n f) = n.1 + n.2 by omega⟩
    · exact show fin n f = n.1 + n.2 by omega

/- No two free blocks meet around the new live one. -/
theorem apart_pieces (hApart : Apart isFree (before ++ t :: after)) (hFree : t.tag = none) :
    Apart isFree (before ++ ((frontBlocks n f ++ liveBlock n f l :: tailBlocks n f) ++ after)) := by
  have hSame : ∀ a b, isFree t = isFree (freeBlock a b) := by
    intro a b
    unfold isFree
    rw [hFree]
    rfl
  have hFirst : Apart isFree (before ++ frontBlocks n f) := by
    unfold frontBlocks
    split
    · rw [List.append_nil]
      exact hApart.left
    · have hPrefix : Apart isFree ((before ++ [t]) ++ after) := by simpa using hApart
      exact hPrefix.left.congr_last (hSame _ _)
  have hThen : Apart isFree (tailBlocks n f ++ after) := by
    unfold tailBlocks
    split
    · exact hApart.right.congr_head (hSame _ _)
    · exact (List.isChain_cons.mp hApart.right).2
  have hAssoc : before ++ ((frontBlocks n f ++ liveBlock n f l :: tailBlocks n f) ++ after) =
      (before ++ frontBlocks n f) ++ liveBlock n f l :: (tailBlocks n f ++ after) := by simp
  rw [hAssoc]
  exact (apart_append_cons rfl).mpr ⟨hFirst, hThen⟩

theorem fin_unit (hPlaced : Placed align psize n.1 f) (hSize : UNIT ∣ psize) (hStart : UNIT ∣ n.1)
    (hNode : UNIT ∣ n.2) : UNIT ∣ fin n f ∧ UNIT ∣ f.hdr := by
  have hHdr : UNIT ∣ f.hdr := by
    rw [hPlaced.hdr]
    exact Nat.dvd_add hStart hPlaced.unit
  refine ⟨?_, hHdr⟩
  unfold fin
  split
  · exact Nat.dvd_add hStart hNode
  · rw [hPlaced.stop, hPlaced.p]
    exact Nat.dvd_add (Nat.dvd_add hHdr (Nat.dvd_refl UNIT)) hSize

/- Carving a request out of a free block keeps the tiling. -/
theorem Tiled.carve (hTiled : Tiled A (before ++ t :: after) c) (hFree : t.tag = none)
    (hn : n = (t.start, t.size)) (hPlaced : Placed align psize n.1 f)
    (hRequest : Request align psize) (hFits : f.stop ≤ n.1 + n.2) (hAlign : l.align ∣ align)
    (hSize : l.size ≤ psize) : Tiled A (before ++ ((frontBlocks n f ++ liveBlock n f l ::
        tailBlocks n f) ++ after))
      { heap := c.heap.carve (lastAddr (nodesOf before)) n.1 f
        live := (f.p, l) :: c.live } := by
  have hConsts := consts
  have hOne := hRequest.one
  have hBounds := hPlaced.bounds hOne hFits
  have ht : t ∈ before ++ t :: after := by simp
  have hStart : n.1 = t.start := by rw [hn]
  have hNode : n.2 = t.size := by rw [hn]
  have hList := hTiled.list
  have hNodes := hTiled.nodes
  rw [nodesOf_append, nodesOf_cons_free hFree, ← hn] at hList hNodes
  have hCarve := carve_spec hList hNodes hPlaced hOne hFits
  have hUnits := fin_unit hPlaced hRequest.size (by rw [hStart]; exact hTiled.start_unit ht)
    (by rw [hNode]; exact hTiled.unit t ht)
  have hTiles : Tiles A.base (before ++ ((frontBlocks n f ++ liveBlock n f l ::
        tailBlocks n f) ++ after)) (A.base + HEAP_SIZE) := by
    rcases tiles_append.mp hTiled.tiles with ⟨mid, hBefore, hMid, _, hAfter⟩
    refine tiles_append.mpr ⟨mid, hBefore, tiles_append.mpr ⟨t.stop, ?_, hAfter⟩⟩
    have hPieces := tiles_pieces (l := l) hPlaced hOne hFits
    rw [hNode, hStart, hMid] at hPieces
    unfold Tile.stop
    rw [hMid]
    exact hPieces
  -- what is known of a block that was there before
  have hOld : ∀ u, u ∈ before ∨ u ∈ after → u ∈ before ++ t :: after := by
    rintro u (hu | hu)
    · exact List.mem_append_left _ hu
    · exact List.mem_append_right _ (List.mem_cons_of_mem t hu)
  have hCases : ∀ u, u ∈ before ++ ((frontBlocks n f ++ liveBlock n f l :: tailBlocks n f) ++
    after) → (u ∈ before ∨ u ∈ after) ∨ u ∈ frontBlocks n f ∨ u = liveBlock n f l ∨ u ∈
    tailBlocks n f := by
    intro u hu
    simp only [List.mem_append, List.mem_cons] at hu
    tauto
  have hPieces := liveOf_pieces n f
  refine ⟨⟨hTiles, ?_, ?_, ?_, ?_, ?_⟩, ?_, ?_⟩
  · intro u hu
    rcases hCases u hu with hu | hu | rfl | hu
    · exact hTiled.unit u (hOld u hu)
    · rw [(mem_frontBlocks hu).2]
      exact hPlaced.unit
    · exact Nat.dvd_sub hUnits.1 hUnits.2
    · rw [(mem_tailBlocks hu).2]
      refine Nat.dvd_sub ?_ hUnits.1
      rw [hStart, hNode]
      exact Nat.dvd_add (hTiled.start_unit ht) (hTiled.unit t ht)
  · intro u hu
    rcases hCases u hu with hu | hu | rfl | hu
    · exact hTiled.big u (hOld u hu)
    · rcases mem_frontBlocks hu with ⟨hPad, rfl⟩
      exact hPlaced.front.resolve_left hPad
    · change MIN_FREE ≤ fin n f - f.hdr
      omega
    · rcases mem_tailBlocks hu with ⟨hRoom, rfl⟩
      change MIN_FREE ≤ n.1 + n.2 - fin n f
      omega
  · change ((f.p, l) :: c.live).Perm _
    have hLive := hTiled.live
    rw [liveOf_append, liveOf_cons_free hFree] at hLive
    rw [liveOf_append, liveOf_append, liveOf_append,
      liveOf_cons_live (l := l) rfl, hPieces.1, hPieces.2.1, hPlaced.p]
    exact (hLive.cons _).trans List.perm_middle.symm
  · intro u hu l' hTag
    rcases hCases u hu with hu | hu | rfl | hu
    · have hServes := hTiled.serves u (hOld u hu) l' hTag
      refine ⟨?_, hServes.aligned, hServes.inside⟩
      refine (hCarve.2.2.2.2 u.start ?_ ?_).trans hServes.header
      · rw [hStart, hNode]
        exact hTiled.live_start ht (hOld u hu) hFree hTag
      · intro m hm
        rcases mem_nodesOf.mp hm with ⟨v, hv, hTag', rfl⟩
        have hApart := hTiled.live_start (hOld v (.inl hv)) (hOld u hu) hTag' hTag
        have hBig := hTiled.big v (hOld v (.inl hv))
        dsimp only
        omega
    · rw [(mem_frontBlocks hu).2] at hTag
      cases hTag
    · cases hTag
      refine ⟨hCarve.2.1, ?_, ?_⟩
      · change l.align ∣ f.hdr + HDR
        rw [← hPlaced.p]
        exact hAlign.trans hPlaced.align
      · change f.hdr + HDR + l.size ≤ f.hdr + (fin n f - f.hdr)
        have hEnd := (fin_bounds hFits).1
        have hStop := hPlaced.stop
        have hp := hPlaced.p
        omega
    · rw [(mem_tailBlocks hu).2] at hTag
      cases hTag
  · have hUsed := hTiled.used
    rw [liveSizes_append, liveSizes_cons_free hFree, List.sum_append] at hUsed
    have hLe := liveSizes_le hTiles
    rw [liveSizes_append, liveSizes_append, liveSizes_append, liveSizes_cons_live (l := l) rfl,
      hPieces.2.2.1, hPieces.2.2.2, List.sum_append, List.nil_append, List.cons_append,
      List.nil_append, List.sum_cons] at hLe ⊢
    change (c.heap.carve _ n.1 f).used = _
    rw [hCarve.2.2.1]
    change _ + (fin n f - f.hdr + _) ≤ HEAP_SIZE at hLe
    rw [wadd_eq (by omega), hUsed]
    change _ = _ + (fin n f - f.hdr + _)
    omega
  · exact apart_pieces hTiled.apart hFree
  · change (c.heap.carve _ n.1 f).FreeList _
    rw [nodesOf_append, nodesOf_append, nodesOf_pieces]
    exact hCarve.1

-- Deallocation

/- A free block before others, merged with the first. -/
def joinBlock (n : Node) : List Block → List Block
  | [] => [freeBlock n.1 n.2]
  | v :: vs =>
    if isFree v then freeBlock n.1 (n.2 + v.size) :: vs
    else freeBlock n.1 n.2 :: v :: vs

theorem eq_freeBlock (hFree : t.tag = none) : t = freeBlock t.start t.size := by
  cases t
  cases hFree
  rfl

theorem isFree_iff : isFree t = true ↔ t.tag = none := Option.isNone_iff_eq_none

/- The result starts with a free block at the same place. -/
theorem exists_joinBlock (n : Node) (after : List Block) : ∃ size rest,
      joinBlock n after = freeBlock n.1 size :: rest := by
  cases after with
  | nil => exact ⟨_, _, rfl⟩
  | cons v vs =>
    dsimp only [joinBlock]
    split <;> exact ⟨_, _, rfl⟩

/- Merging is what the free list sees of it. -/
theorem nodesOf_joinBlock {hi : Nat} (hTiles : Tiles n.1 (freeBlock n.1 n.2 :: after) hi) :
    nodesOf (joinBlock n after) = joinNext n (nodesOf after) := by
  cases after with
  | nil => rfl
  | cons v vs =>
    have hStart : v.start = n.1 + n.2 := hTiles.2.2.1
    dsimp only [joinBlock]
    by_cases hFree : v.tag = none
    · rw [if_pos (isFree_iff.mpr hFree), nodesOf_cons_free rfl, nodesOf_cons_free hFree]
      dsimp only [joinNext]
      rw [if_pos hStart.symm]
      rfl
    · rcases Option.ne_none_iff_exists'.mp hFree with ⟨l, hTag⟩
      rw [if_neg (mt isFree_iff.mp hFree), nodesOf_cons_free rfl, nodesOf_cons_live hTag]
      -- the next node lies behind the live block
      cases hNodes : nodesOf vs with
      | nil => rfl
      | cons m ms =>
        have hm : m ∈ nodesOf vs := by
          rw [hNodes]
          exact List.mem_cons_self ..
        rcases mem_nodesOf.mp hm with ⟨u, hu, _, rfl⟩
        have hBounds := (hTiles.2.2.2.2.bounds hu).1
        have hSize := hTiles.2.2.2.1
        unfold Tile.stop at hBounds
        dsimp only [joinNext]
        rw [if_neg (by omega)]
        rfl

theorem apart_joinBlock (hApart : Apart isFree after) : Apart isFree (joinBlock n after) := by
  cases after with
  | nil => exact List.isChain_singleton _
  | cons v vs =>
    dsimp only [joinBlock]
    split
    · rename_i hFree
      exact hApart.congr_head hFree
    · rename_i hLive
      refine List.isChain_cons.mpr ⟨?_, hApart⟩
      intro u hu hBoth
      cases hu
      exact hLive hBoth.2

theorem Cover.join (hCover : Cover A (before ++ freeBlock n.1 n.2 :: after) c) :
    Cover A (before ++ joinBlock n after) c := by
  cases after with
  | nil => exact hCover
  | cons v vs =>
    dsimp only [joinBlock]
    by_cases hFree : v.tag = none
    · rw [if_pos (isFree_iff.mpr hFree)]
      have hOld : ∀ u, u ∈ before ++ freeBlock n.1 (n.2 + v.size) :: vs →
          u ∈ before ++ freeBlock n.1 n.2 :: v :: vs ∨ u = freeBlock n.1 (n.2 + v.size) := by
        intro u hu
        simp only [List.mem_append, List.mem_cons] at hu ⊢
        tauto
      have hNew : freeBlock n.1 n.2 ∈ before ++ freeBlock n.1 n.2 :: v :: vs := by simp
      have hv : v ∈ before ++ freeBlock n.1 n.2 :: v :: vs := by simp
      have hLive := hCover.live
      have hUsed := hCover.used
      rw [liveOf_append, liveOf_cons_free rfl, liveOf_cons_free hFree] at hLive
      rw [liveSizes_append, liveSizes_cons_free rfl, liveSizes_cons_free hFree] at hUsed
      refine ⟨?_, ?_, ?_, ?_, ?_, ?_⟩
      · rcases tiles_append.mp hCover.tiles with ⟨mid, hBefore, hMid, hSize, hStart, _, hAfter⟩
        refine tiles_append.mpr ⟨mid, hBefore, hMid, ?_, ?_⟩
        · exact Nat.lt_add_right v.size hSize
        · have hStop : (freeBlock n.1 (n.2 + v.size)).stop =
                v.stop := by
            unfold Tile.stop at hStart ⊢
            rw [hStart]
            exact (Nat.add_assoc ..).symm
          rw [hStop]
          exact hAfter
      · intro u hu
        rcases hOld u hu with hMem | rfl
        · exact hCover.unit u hMem
        · exact Nat.dvd_add (hCover.unit _ hNew) (hCover.unit v hv)
      · intro u hu
        rcases hOld u hu with hMem | rfl
        · exact hCover.big u hMem
        · exact Nat.le_add_right_of_le (hCover.big _ hNew)
      · rw [liveOf_append, liveOf_cons_free rfl]
        exact hLive
      · intro u hu l hTag
        rcases hOld u hu with hMem | rfl
        · exact hCover.serves u hMem l hTag
        · cases hTag
      · rw [liveSizes_append, liveSizes_cons_free rfl]
        exact hUsed
    · rw [if_neg (mt isFree_iff.mp hFree)]
      exact hCover

/-
  A freed block merged with its neighbours: the tiling is
  right again and the free list is what `dealloc` makes it.
-/
theorem exists_merged (hCover : Cover A (before ++ freeBlock n.1 n.2 :: after) c)
    (hBefore : Apart isFree before) (hAfter : Apart isFree after) :
    ∃ ts, Cover A ts c ∧ Apart isFree ts ∧ nodesOf ts =
        inserted (nodesOf before) n (nodesOf after) := by
  rcases tiles_append.mp hCover.tiles with ⟨mid, hTiles, hMid, hRest⟩
  have hMid : n.1 = mid := hMid
  have hNodes : nodesOf (joinBlock n after) = joinNext n (nodesOf after) :=
    nodesOf_joinBlock ⟨rfl, hRest⟩
  rcases List.eq_nil_or_concat before with rfl | ⟨first, k, rfl⟩
  · exact ⟨_, hCover.join, apart_joinBlock hAfter, hNodes⟩
  rw [List.concat_eq_append] at *
  have hApart := apart_joinBlock (n := n) hAfter
  rcases tiles_append.mp hTiles with ⟨low, hFirst, hk, hPos, hStop⟩
  by_cases hFree : k.tag = none
  · -- the block before is free as well
    have hCover' := hCover.join
    rw [List.append_assoc, List.singleton_append, eq_freeBlock hFree] at hCover'
    refine ⟨_, Cover.join (n := (k.start, k.size)) hCover', ?_, ?_⟩
    · rcases exists_joinBlock (k.start, k.size) (joinBlock n after) with ⟨size, rest, hEq⟩
      have hThen := apart_joinBlock (n := (k.start, k.size)) hApart
      rw [hEq] at hThen ⊢
      refine apart_split.mpr ⟨?_, hThen⟩
      exact hBefore.congr_last (isFree_iff.mpr hFree)
    · rcases tiles_append.mp hCover'.tiles with ⟨_, _, _, hSize, hThen⟩
      have hJoined := nodesOf_joinBlock (n := (k.start, k.size)) ⟨rfl, hSize, hThen⟩
      rw [nodesOf_append, nodesOf_append, nodesOf_cons_free hFree, hJoined, hNodes]
      exact (inserted_concat ..).symm
  · -- the block before is live and stays where it is
    rcases Option.ne_none_iff_exists'.mp hFree with ⟨l, hTag⟩
    refine ⟨_, hCover.join, ?_, ?_⟩
    · rw [List.append_assoc, List.singleton_append]
      refine (apart_append_cons ?_).mpr ⟨hBefore.left, hApart⟩
      exact Bool.eq_false_iff.mpr (mt isFree_iff.mp hFree)
    · rw [nodesOf_append, hNodes]
      refine (inserted_of_gap ?_).symm
      intro m hm
      rw [nodesOf_append, nodesOf_cons_live hTag] at hm
      rcases List.mem_append.mp hm with hm | hm
      · rcases mem_nodesOf.mp hm with ⟨u, hu, _, rfl⟩
        have hBounds := (hFirst.bounds hu).2.2
        have hStop : k.start + k.size = mid := hStop
        have hk : k.start = low := hk
        unfold Tile.stop at hBounds
        dsimp only
        omega
      · cases hm

end Heap

end PlayXv6
