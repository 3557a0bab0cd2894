import PlayXv6.Lib.Chain

/-
  The kernel heap: first fit over an address-ordered free
  list in a static arena.

  Memory is a map from addresses to the words the allocator
  reads and writes: the header of a live block holds its
  size, a free block holds its size and the address of the
  next one.

  Main declarations:
    * `Layout`, `Arena`, `Client`
    * `alloc`, `dealloc`
-/

namespace PlayXv6

open Function

namespace Heap

/- The number of values of a `usize`. -/
abbrev WORD : Nat := 2 ^ 64

abbrev HEAP_SIZE : Nat := 16 * 1024 * 1024
abbrev UNIT : Nat := 16
abbrev HDR : Nat := 16
abbrev MIN_FREE : Nat := 32

/- The offset of `next` in a `FreeNode`. -/
abbrev NEXT : Nat := 8

def wadd (a b : Nat) : Nat := (a + b) % WORD

def wsub (a b : Nat) : Nat := (a + (WORD - b)) % WORD

/- `(n + a - 1) & !(a - 1)` for a power of two `a`. -/
def roundUp (n a : Nat) : Nat := wsub (wadd n a) 1 / a * a

/- A request, as `Layout` admits it. -/
structure Layout where
  size : Nat
  align : Nat
  power : ∃ k, align = 2 ^ k
  fits : size + align ≤ 2 ^ 63

/- Where the linker has put `HEAP_BUF`. -/
structure Arena where
  base : Nat
  aligned : UNIT ∣ base
  nonnull : 0 < base
  low : base + HEAP_SIZE ≤ 2 ^ 62

-- The Allocator

/- `HeapState`, and the memory its pointers lead to. -/
structure HeapState where
  mem : Chain.Memory
  head : Nat
  initialized : Bool
  used : Nat
  peak : Nat

/- Where a request would go in the free block at `b`. -/
structure Placement where
  p : Nat
  hdr : Nat
  front : Nat
  stop : Nat

def placement (align psize b : Nat) : Placement :=
  let p := roundUp (wadd b HDR) align
  let front := wsub (wsub p HDR) b
  -- a front pad must survive as a free node
  let p :=
    if front ≠ 0 ∧ front < MIN_FREE then
      roundUp (wadd (wadd b MIN_FREE) HDR) align
    else
      p
  { p := p
    hdr := wsub p HDR
    front := wsub (wsub p HDR) b
    stop := roundUp (wadd p psize) UNIT }

namespace HeapState

/- Write the two words of a free node. -/
def writeNode (mem : Chain.Memory) (a size next : Nat) : Chain.Memory :=
  update (update mem a size) (a + NEXT) next

/- Carve a request out of the free block `cur`. -/
def carve (h : HeapState) (prev cur : Nat) (f : Placement) : HeapState :=
  let stop := wadd cur (h.mem cur)
  let next := h.mem (cur + NEXT)
  -- absorb a remainder that is too small
  let fin := if wsub stop f.stop < MIN_FREE then stop else f.stop
  let tail : Nat × Chain.Memory :=
    if fin < stop then
      (fin, writeNode h.mem fin (wsub stop fin) next)
    else
      (next, h.mem)
  let first : Nat × Chain.Memory :=
    if f.front ≥ MIN_FREE then
      (cur, writeNode tail.2 cur f.front tail.1)
    else
      tail
  let linked := Chain.relink NEXT first.2 h.head prev first.1
  let block := wsub fin f.hdr
  let used := wadd h.used block
  { h with
    mem := update linked.2 f.hdr block
    head := linked.1
    used := used
    peak := if used > h.peak then used else h.peak }

/-
  The search of `alloc`: the payload's address, or 0 if no
  block fits; `none` if the list goes on beyond the fuel.
-/
def allocLoop (align psize : Nat) (h : HeapState) (prev cur : Nat) : Nat → Option (Nat × HeapState)
  | 0 => none
  | fuel + 1 =>
    if cur = 0 then
      some (0, h)
    else
      let f := placement align psize cur
      if f.stop ≤ wadd cur (h.mem cur) then
        some (f.p, h.carve prev cur f)
      else
        allocLoop align psize h cur (h.mem (cur + NEXT)) fuel

/- The first call makes the arena one free block. -/
def init (A : Arena) (h : HeapState) : HeapState :=
  if h.initialized then
    h
  else
    { h with
      mem := writeNode h.mem A.base HEAP_SIZE 0
      head := A.base
      initialized := true }

/- More than the free nodes the arena has room for. -/
abbrev FUEL : Nat := HEAP_SIZE

def alloc (A : Arena) (l : Layout) (h : HeapState) : Option (Nat × HeapState) :=
  let h := h.init A
  allocLoop (max l.align UNIT) (roundUp (max l.size 1) UNIT) h 0 h.head FUEL

/- The nodes around the place of a block in the list. -/
def deallocLoop (mem : Chain.Memory) (hdr prev cur : Nat) : Nat → Option (Nat × Nat)
  | 0 => none
  | fuel + 1 =>
    if cur ≠ 0 ∧ cur < hdr then
      deallocLoop mem hdr cur (mem (cur + NEXT)) fuel
    else
      some (prev, cur)

/- Merge a node with the one after it if they touch. -/
def mergeNext (mem : Chain.Memory) (node cur : Nat) : Chain.Memory :=
  if wadd node (mem node) = cur then
    writeNode mem node (wadd (mem node) (mem cur)) (mem (cur + NEXT))
  else
    mem

/- Link a freed block between its neighbours and merge. -/
def release (h : HeapState) (hdr size prev cur : Nat) : HeapState :=
  let mem := writeNode h.mem hdr size cur
  let linked := Chain.relink NEXT mem h.head prev hdr
  let mem := if cur ≠ 0 then mergeNext linked.2 hdr cur else linked.2
  let mem := if prev ≠ 0 then mergeNext mem prev hdr else mem
  { h with
    mem := mem
    head := linked.1
    used := wsub h.used size }

def dealloc (ptr : Nat) (h : HeapState) : Option HeapState :=
  if ptr = 0 then
    some h
  else
    let hdr := wsub ptr HDR
    let size := h.mem hdr
    -- the size is stored first, where it already is
    let mem := update h.mem hdr size
    (deallocLoop mem hdr 0 h.head FUEL).map fun found => h.release hdr size found.1 found.2

end HeapState

/-
  The heap and the allocations that its clients have not
  given back: addresses with the layouts they asked for.
-/
structure Client where
  heap : HeapState
  live : List (Nat × Layout)

namespace Client

def start (mem : Chain.Memory) : Client where
  heap :=
    { mem := mem
      head := 0
      initialized := false
      used := 0
      peak := 0 }
  live := []

/- A call of the allocator, or a write of a client into memory that was given to it. -/
inductive Step (A : Arena) : Client → Client → Prop where
  | failed {c : Client} {l : Layout} {h : HeapState} (hAlloc : c.heap.alloc A l = some (0, h)) :
      Step A c { c with heap := h }
  | alloc {c : Client} {l : Layout} {p : Nat} {h : HeapState}
      (hAlloc : c.heap.alloc A l = some (p, h)) (hp : p ≠ 0) :
      Step A c { heap := h, live := (p, l) :: c.live }
  | dealloc {c : Client} {x : Nat × Layout} {live : List (Nat × Layout)} {h : HeapState}
      (hLive : c.live.Perm (x :: live)) (hDealloc : c.heap.dealloc x.1 = some h) :
      Step A c { heap := h, live := live }
  | deallocNull {c : Client} {h : HeapState} (hDealloc : c.heap.dealloc 0 = some h) :
      Step A c { c with heap := h }
  | write {c : Client} {x : Nat × Layout} (hx : x ∈ c.live) (a v : Nat) (hFrom : x.1 ≤ a)
      (hTo : a < x.1 + x.2.size) :
      Step A c { c with heap := { c.heap with
        mem := update c.heap.mem a v } }

def Reaches (A : Arena) (c : Client) : Prop := ∃ mem, Relation.ReflTransGen (Step A) (start mem) c

end Client

end Heap

end PlayXv6
