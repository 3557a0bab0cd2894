import PlayXv6.Hal.Entry
import PlayXv6.Vm.PageTable

/-
  The page tables of both machines, which differ in the number
  of levels and in their entries.

  Main declarations:
    * `Arch`, `riscv64`, `aarch64`
-/

namespace PlayXv6

namespace Hal

open Vm (PtePerm PGSIZE VmError)
open Radix

/- What the two page tables do not share. -/
structure Arch where
  format : Format Word
  levels : Nat
  maxva : Nat
  makeLeaf : Nat → PtePerm → Bool → Word
  isMmio : Nat → Bool
  -- the entries `unmap_page` takes away
  isLeaf : Word → Bool
  -- the entries above the lowest level `translate` ends at
  isHuge : Word → Bool
  perm : Word → PtePerm
  frame_iff : ∀ f, format.Frame f ↔ Frame f
  covered : maxva ≤ PGSIZE * 512 ^ (levels + 1)
  small : maxva < 2 ^ 63
  page : PGSIZE ∣ maxva
  isHuge_branch : ∀ f, Frame f → isHuge (format.branch f) = false
  leaf : ∀ f p mmio, Frame f → p.read = true → format.valid (makeLeaf f p mmio) = true ∧
      isLeaf (makeLeaf f p mmio) = true ∧ format.target (makeLeaf f p mmio) = f ∧
      perm (makeLeaf f p mmio) = p

def riscv64 : Arch where
  format :=
    { empty := 0
      valid := Riscv64.isValid
      target := fun e => (Riscv64.pa e).toNat
      branch := fun f => Riscv64.makeBranch (ofPa f)
      Frame := Frame
      valid_empty := by decide
      valid_branch := fun _ hf => (Riscv64.makeBranch_spec hf).1
      target_branch := fun _ hf => (Riscv64.makeBranch_spec hf).2.2 }
  levels := 2
  maxva := 2 ^ 38
  makeLeaf := fun pa perm _ => Riscv64.makeLeaf (ofPa pa) perm
  isMmio := fun _ => false
  isLeaf := Riscv64.isLeaf
  isHuge := Riscv64.isLeaf
  perm := Riscv64.flagsPerm
  frame_iff := fun _ => Iff.rfl
  covered := by decide
  small := by decide
  page := by decide
  isHuge_branch := fun _ hf => (Riscv64.makeBranch_spec hf).2.1
  leaf := fun _ _ _ hf hRead => Riscv64.makeLeaf_spec hf hRead

def aarch64 : Arch where
  format :=
    { empty := 0
      valid := Aarch64.isValid
      target := fun e => (Aarch64.pa e).toNat
      branch := fun f => Aarch64.makeBranch (ofPa f)
      Frame := Frame
      valid_empty := by decide
      valid_branch := fun _ hf => (Aarch64.makeBranch_spec hf).1
      target_branch := fun _ hf => (Aarch64.makeBranch_spec hf).2 }
  levels := 3
  maxva := 2 ^ 47
  makeLeaf := fun pa perm mmio => Aarch64.makeLeaf (ofPa pa) perm mmio
  isMmio := fun pa => decide (pa < Aarch64.KERNBASE)
  isLeaf := fun _ => true
  isHuge := fun _ => false
  perm := Aarch64.decodePerm
  frame_iff := fun _ => Iff.rfl
  covered := by decide
  small := by decide
  page := by decide
  isHuge_branch := fun _ _ => rfl
  leaf := fun _ _ mmio hf hRead =>
    have hLeaf := Aarch64.makeLeaf_spec mmio hf hRead
    ⟨hLeaf.1, rfl, hLeaf.2⟩

def index (va level : Nat) : Nat := (va >>> (12 + 9 * level)) &&& 0x1ff

namespace Arch

variable (A : Arch)

/-
  The place of the lowest-level entry for `va`.  A walk
  without an allocator is one that gets no frames.
-/
def walk (root va : Nat) (frames : List (Option Nat)) (s : Store Word) :
    Option (Nat × Nat) × List (Option Nat) × Store Word :=
  if va ≥ A.maxva then
    (none, frames, s)
  else
    Radix.walk A.format (index va) A.levels root frames s

/- `PageTable::new` with a frame: an empty root. -/
def new (mem : Nat → Nat → Word) (root : Nat) : Store Word :=
  Store.alloc A.format { mem := mem, tables := [] } root

def mapLoop (root : Nat) (perm : PtePerm) (mmio : Bool) :
    (pages va pa : Nat) → List (Option Nat) → Store Word → Except VmError Unit × Store Word
  | 0, _, _, _, s => (.ok (), s)
  | pages + 1, va, pa, frames, s =>
    match A.walk root va frames s with
    | (none, _, s) => (.error .oom, s)
    | (some p, frames, s) =>
      if A.format.valid (s.mem p.1 p.2) then
        (.error .remap, s)
      else
        mapLoop root perm mmio pages (va + PGSIZE) (pa + PGSIZE) frames
          (s.write p.1 p.2 (A.makeLeaf pa perm mmio))

def map (root va pa size : Nat) (perm : PtePerm) (frames : List (Option Nat))
    (s : Store Word) : Except VmError Unit × Store Word :=
  if va % PGSIZE ≠ 0 ∨ pa % PGSIZE ≠ 0 ∨
      size % PGSIZE ≠ 0 ∨ size = 0 then
    (.error .misaligned, s)
  else if va + size ≥ 2 ^ 64 then
    (.error .outOfRange, s)
  else if va + size > A.maxva then
    (.error .outOfRange, s)
  else
    A.mapLoop root perm (A.isMmio pa) (size / PGSIZE) va pa frames s

def unmapPage (root va : Nat) (s : Store Word) : Option Nat × Store Word :=
  if va ≥ A.maxva ∨ va &&& (PGSIZE - 1) ≠ 0 then
    (none, s)
  else
    match A.walk root va [] s with
    | (none, _, s) => (none, s)
    | (some p, _, s) =>
      let e := s.mem p.1 p.2
      if !A.format.valid e || !A.isLeaf e then
        (none, s)
      else
        (some (A.format.target e), s.write p.1 p.2 A.format.empty)

def translateLoop (mem : Nat → Nat → Word) (va : Nat) : (level t : Nat) → Option (Nat × PtePerm)
  | 0, t =>
    let e := mem t (index va 0)
    if !A.format.valid e then
      none
    else
      some (A.format.target e ||| (va &&& 0xfff), A.perm e)
  | level + 1, t =>
    let e := mem t (index va (level + 1))
    if !A.format.valid e then
      none
    else if A.isHuge e then
      let off := va &&& (1 <<< (12 + 9 * (level + 1)) - 1)
      some (A.format.target e + off, A.perm e)
    else
      translateLoop mem va level (A.format.target e)

def translate (root va : Nat) (s : Store Word) : Option (Nat × PtePerm) :=
  if va ≥ A.maxva then none
  else A.translateLoop s.mem va A.levels root

end Arch

/- A frame that may be mapped, with its permission. -/
structure Page where
  pa : Nat
  perm : PtePerm
  frame : Frame pa
  read : perm.read = true

/- Where an address of the page is, and what it may do. -/
def Page.at (x : Page) (va : Nat) : Nat × PtePerm := (x.pa + va % PGSIZE, x.perm)

/- The pages that are mapped, by page number. -/
abbrev Mapping := Nat → Option Page

inductive Request where
  | map (va : Nat) (x : Page)
  | unmapPage (va : Nat)
  | translate (va : Nat)

inductive Answer where
  | map (r : Except VmError Unit)
  | unmapPage (r : Option Nat)
  | translate (r : Option (Nat × PtePerm))
  deriving DecidableEq

/- Requests that a page table with this bound is for. -/
def Request.Below (bound : Nat) : Request → Prop
  | .map va _ => va % PGSIZE = 0 ∧ va < bound
  | .unmapPage va => va < bound
  | .translate va => va < bound

namespace Mapping

/- What a request gets if there is memory for tables. -/
def answer (m : Mapping) : Request → Answer
  | .map va _ =>
    .map (if (m (va / PGSIZE)).isSome then .error .remap
      else .ok ())
  | .unmapPage va =>
    .unmapPage (if va % PGSIZE = 0 then
      (m (va / PGSIZE)).map Page.pa else none)
  | .translate va => .translate ((m (va / PGSIZE)).map fun x => x.at va)

/- The pages that are mapped after a request. -/
def after (m : Mapping) : Request → Answer → Mapping
  | .map va x, .map (.ok ()) => Function.update m (va / PGSIZE) (some x)
  | .unmapPage va, .unmapPage _ =>
    if va % PGSIZE = 0 then
      Function.update m (va / PGSIZE) none
    else
      m
  | _, _ => m

end Mapping

/-
  The last page that was mapped at each number and not taken
  away again, in a history that begins with the oldest call.
-/
def mapped (calls : List (Request × Answer)) : Mapping :=
  calls.foldl (fun m call => m.after call.1 call.2) fun _ => none

namespace Arch

variable (A : Arch)

def serve (root : Nat) (s : Store Word) (frames : List (Option Nat)) : Request → Answer × Store Word
  | .map va x =>
    let r := A.map root va x.pa PGSIZE x.perm frames s
    (.map r.1, r.2)
  | .unmapPage va =>
    let r := A.unmapPage root va s
    (.unmapPage r.1, r.2)
  | .translate va => (.translate (A.translate root va s), s)

def run (root : Nat) : List (Request × List (Option Nat)) → Store Word → List Answer × Store Word
  | [], s => ([], s)
  | (r, frames) :: calls, s =>
    let first := A.serve root s frames r
    let rest := run root calls first.2
    (first.1 :: rest.1, rest.2)

/- The requests are in range, and the allocator gives out frames that are not in use. -/
def Sound (root bound : Nat) : List (Request × List (Option Nat)) → Store Word → Prop
  | [], _ => True
  | (r, frames) :: calls, s =>
    r.Below bound ∧ Fresh A.format s frames ∧ Sound root bound calls (A.serve root s frames r).2

end Arch

end Hal

end PlayXv6
