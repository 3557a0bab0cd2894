import Mathlib

/-
  Radix trees of tables in memory: a table has `fan` entries,
  an entry of an upper table leads to a table below it, and
  the entries of the lowest tables hold the values of a
  partial map on numbers.

  The table at depth `d` with number `n` serves the numbers
  whose quotient by the right power of `fan` is `n`; its
  children have the numbers `n * fan + i`.

  Main declarations:
    * `Format`, `Store`
    * `Represents.walk`
-/

namespace Radix

open Function

/- How entries lead to the tables in admissible frames. -/
structure Format (ε : Type) where
  empty : ε
  valid : ε → Bool
  target : ε → Nat
  branch : Nat → ε
  Frame : Nat → Prop
  valid_empty : valid empty = false
  valid_branch : ∀ f, Frame f → valid (branch f) = true
  target_branch : ∀ f, Frame f → target (branch f) = f

/- The entries by table and index, and the frames that have been given out as tables. -/
structure Store (ε : Type) where
  mem : Nat → Nat → ε
  tables : List Nat

namespace Store

variable {ε : Type}

/- A frame becomes a table without entries. -/
def alloc (F : Format ε) (s : Store ε) (f : Nat) : Store ε where
  mem := update s.mem f fun _ => F.empty
  tables := f :: s.tables

def write (s : Store ε) (t i : Nat) (e : ε) : Store ε :=
  { s with
    mem := update s.mem t (update (s.mem t) i e) }

theorem write_mem (s : Store ε) (t i : Nat) (e : ε) (u j : Nat) : (s.write t i e).mem u j =
      if u = t ∧ j = i then e else s.mem u j := by
  simp only [write, update_apply]
  grind

theorem alloc_mem (F : Format ε) (s : Store ε) (f u j : Nat) : (s.alloc F f).mem u j =
      if u = f then F.empty else s.mem u j := by
  simp only [alloc, update_apply]
  split <;> rfl

end Store

/-
  Go down from a table to the place of an entry.  `idx` gives
  the index at each level.  The frames are the answers of an
  allocator, one for each missing table; without an answer or
  with a refusal the walk ends.
-/
def walk {ε : Type} (F : Format ε) (idx : Nat → Nat) :
    (level t : Nat) → List (Option Nat) → Store ε → Option (Nat × Nat) × List (Option Nat) × Store ε
  | 0, t, frames, s => (some (t, idx 0), frames, s)
  | level + 1, t, frames, s =>
    let e := s.mem t (idx (level + 1))
    if F.valid e then
      walk F idx level (F.target e) frames s
    else
      match frames with
      | some f :: frames =>
        walk F idx level f frames ((s.alloc F f).write t (idx (level + 1)) (F.branch f))
      | none :: frames => (none, frames, s)
      | [] => (none, [], s)

-- What the Tables Represent

section Represents

variable {ε α : Type} (F : Format ε) (fan : Nat)

/- The table with number `n` at a depth below the root. -/
def tableAt (mem : Nat → Nat → ε) (root : Nat) : Nat → Nat → Option Nat
  | 0, n => if n = 0 then some root else none
  | d + 1, n =>
    (tableAt mem root d (n / fan)).bind fun t =>
      let e := mem t (n % fan)
      if F.valid e then some (F.target e) else none

/- The entry for `n` in the tables at a depth. -/
def entryAt (mem : Nat → Nat → ε) (root depth n : Nat) : Option ε :=
  (tableAt F fan mem root depth (n / fan)).map fun t => mem t (n % fan)

/-
  The tables under `root` hold the map `m`, with the lowest
  tables at `depth`.  No table is used twice.
-/
structure Represents (code : α → ε) (depth root : Nat) (s : Store ε)
    (m : Nat → Option α) : Prop where
  given : ∀ d ≤ depth, ∀ n t, tableAt F fan s.mem root d n = some t → t ∈ s.tables
  once : ∀ d ≤ depth, ∀ d' ≤ depth, ∀ n n' t, tableAt F fan s.mem root d n = some t →
      tableAt F fan s.mem root d' n' = some t → d = d' ∧ n = n'
  upper : ∀ d < depth, ∀ n t, tableAt F fan s.mem root d n = some t → ∀ i, s.mem t i = F.empty ∨
        ∃ f, F.Frame f ∧ s.mem t i = F.branch f
  lower : ∀ n, (entryAt F fan s.mem root depth n).getD F.empty = (m n).elim F.empty code

/- Frames that an allocator may give out. -/
structure Fresh (s : Store ε) (frames : List (Option Nat)) : Prop where
  frame : ∀ f, some f ∈ frames → F.Frame f
  new : ∀ f, some f ∈ frames → f ∉ s.tables
  nodup : (frames.filterMap id).Nodup

end Represents

variable {ε α : Type} {F : Format ε} {fan : Nat} {code : α → ε} {depth root : Nat} {s s' : Store ε}
variable {m : Nat → Option α}

theorem tableAt_succ {mem : Nat → Nat → ε} {d n : Nat} : tableAt F fan mem root (d + 1) n =
      (tableAt F fan mem root d (n / fan)).bind fun t =>
        if F.valid (mem t (n % fan)) then
          some (F.target (mem t (n % fan)))
        else none := rfl

/- Only the entries of upper tables lead to tables. -/
theorem tableAt_congr {mem mem' : Nat → Nat → ε} (hSame : ∀ d < depth, ∀ n t,
      tableAt F fan mem root d n = some t → ∀ i, mem' t i = mem t i) :
    ∀ d ≤ depth, ∀ n, tableAt F fan mem' root d n = tableAt F fan mem root d n := by
  intro d
  induction d with
  | zero => exact fun _ _ => rfl
  | succ d ih =>
    intro hd n
    rw [tableAt_succ, tableAt_succ, ih (by omega)]
    cases hTable : tableAt F fan mem root d (n / fan) with
    | none => rfl
    | some t =>
      rw [Option.bind_some, Option.bind_some, hSame d (by omega) _ t hTable]

/- Without a table there are none below it. -/
theorem tableAt_none_below {mem : Nat → Nat → ε} {key level : Nat}
    (hNone : tableAt F fan mem root (depth - level) (key / fan ^ (level + 1)) = none)
    (hLevel : level ≤ depth) : tableAt F fan mem root depth (key / fan) = none := by
  induction level with
  | zero =>
    rw [Nat.zero_add, Nat.pow_one] at hNone
    exact hNone
  | succ level ih =>
    refine ih ?_ (by omega)
    have hDepth : depth - level = depth - (level + 1) + 1 := by omega
    rw [hDepth, tableAt_succ, Nat.div_div_eq_div_mul, ← Nat.pow_succ, hNone]
    rfl

theorem child_div (hFan : 0 < fan) {n i : Nat} (hi : i < fan) :
    (n * fan + i) / fan = n ∧ (n * fan + i) % fan = i := by
  rw [Nat.add_comm, Nat.add_mul_div_right _ _ hFan, Nat.add_mul_mod_self_right, Nat.div_eq_of_lt hi,
    Nat.mod_eq_of_lt hi]
  exact ⟨Nat.zero_add n, rfl⟩

theorem Represents.start (mem : Nat → Nat → ε) (root depth : Nat) : Represents F fan code depth root
      (Store.alloc F { mem := mem, tables := [] } root) fun _ => none := by
  have hEmpty : ∀ i, (Store.alloc F { mem := mem, tables := [] } root).mem root i = F.empty := by
    intro i
    rw [Store.alloc_mem, if_pos rfl]
  have hTable : ∀ d n t, tableAt F fan (Store.alloc F { mem := mem, tables := [] } root).mem
      root d n = some t → d = 0 ∧ n = 0 ∧ t = root := by
    intro d
    induction d with
    | zero =>
      intro n t hSome
      unfold tableAt at hSome
      grind
    | succ d ih =>
      intro n t hSome
      rw [tableAt_succ] at hSome
      rcases Option.bind_eq_some_iff.mp hSome with ⟨u, hu, hEntry⟩
      rcases ih _ u hu with ⟨_, _, rfl⟩
      rw [hEmpty, F.valid_empty] at hEntry
      cases hEntry
  refine ⟨?_, ?_, ?_, ?_⟩
  · intro d _ n t hSome
    rw [(hTable d n t hSome).2.2]
    exact List.mem_singleton_self root
  · intro d _ d' _ n n' t hSome hSome'
    grind [hTable d n t hSome, hTable d' n' t hSome']
  · intro d _ n t hSome i
    rw [(hTable d n t hSome).2.2]
    exact .inl (hEmpty i)
  · intro n
    change _ = F.empty
    unfold entryAt
    cases hSome : tableAt F fan (Store.alloc F { mem := mem, tables := [] } root).mem root depth
        (n / fan) with
    | none => rfl
    | some t =>
      rw [(hTable _ _ t hSome).2.2]
      exact hEmpty _

-- New Tables

variable {d n t i f : Nat}

/- The store with a new table under an entry. -/
def graft (F : Format ε) (s : Store ε) (t i f : Nat) : Store ε :=
  (s.alloc F f).write t i (F.branch f)

theorem graft_mem (s : Store ε) (t i f u j : Nat) : (graft F s t i f).mem u j =
      if u = t ∧ j = i then F.branch f
      else if u = f then F.empty else s.mem u j := by
  unfold graft
  rw [Store.write_mem, Store.alloc_mem]

theorem graft_mem_here (s : Store ε) (t i f : Nat) : (graft F s t i f).mem t i = F.branch f := by
  rw [graft_mem, if_pos ⟨rfl, rfl⟩]

theorem graft_mem_new (ht : t ≠ f) (j : Nat) : (graft F s t i f).mem f j = F.empty := by
  rw [graft_mem, if_neg fun hBoth => ht hBoth.1.symm, if_pos rfl]

/- A table that was there is read as before elsewhere. -/
theorem graft_mem_of_given (hNew : f ∉ s.tables) {u j : Nat} (hu : u ∈ s.tables)
    (hNe : ¬ (u = t ∧ j = i)) : (graft F s t i f).mem u j = s.mem u j := by
  have huf : u ≠ f := fun hEq => hNew (hEq ▸ hu)
  rw [graft_mem, if_neg hNe, if_neg huf]

theorem tableAt_graft (hFan : 0 < fan) (hRep : Represents F fan code depth root s m)
    (hd : d < depth) (hTable : tableAt F fan s.mem root d n = some t) (hi : i < fan)
    (hInvalid : F.valid (s.mem t i) = false) (hFrame : F.Frame f) (hNew : f ∉ s.tables) :
    ∀ d' ≤ depth, ∀ n', tableAt F fan (graft F s t i f).mem root d' n' =
        if d' = d + 1 ∧ n' = n * fan + i then some f
        else tableAt F fan s.mem root d' n' := by
  have ht : t ∈ s.tables := hRep.given d (by omega) n t hTable
  have htf : t ≠ f := fun hEq => hNew (hEq ▸ ht)
  have hChild := child_div hFan hi (n := n)
  intro d'
  induction d' with
  | zero =>
    intro _ n'
    rw [if_neg (by omega)]
    rfl
  | succ d' ih =>
    intro hd' n'
    rw [tableAt_succ, tableAt_succ, ih (by omega)]
    by_cases hBelow : d' = d + 1 ∧ n' / fan = n * fan + i
    · -- the table above is the new one: nothing is in it
      rw [if_pos hBelow, if_neg (by omega), Option.bind_some, graft_mem_new htf, F.valid_empty]
      rcases hBelow with ⟨rfl, hNumber⟩
      rw [hNumber, tableAt_succ, hChild.1, hTable, Option.bind_some, hChild.2, hInvalid]
      rfl
    · rw [if_neg hBelow]
      by_cases hHere : d' + 1 = d + 1 ∧ n' = n * fan + i
      · -- the entry that now leads to the new table
        rcases hHere with ⟨hDepth, rfl⟩
        have hDepth : d' = d := by omega
        subst hDepth
        rw [if_pos ⟨rfl, rfl⟩, hChild.1, hTable, Option.bind_some, hChild.2, graft_mem_here,
          F.valid_branch f hFrame, F.target_branch f hFrame]
        rfl
      · rw [if_neg hHere]
        cases hAbove : tableAt F fan s.mem root d' (n' / fan) with
        | none => rfl
        | some u =>
          have hu := hRep.given d' (by omega) _ u hAbove
          rw [Option.bind_some, Option.bind_some, graft_mem_of_given hNew hu]
          rintro ⟨rfl, hIndex⟩
          rcases hRep.once d' (by omega) d (by omega) _ _ u hAbove hTable with ⟨hDepth, hNumber⟩
          refine hHere ⟨by omega, ?_⟩
          rw [← hNumber, ← hIndex, Nat.mul_comm]
          exact (Nat.div_add_mod n' fan).symm

theorem Represents.graft (hFan : 0 < fan) (hRep : Represents F fan code depth root s m)
    (hd : d < depth) (hTable : tableAt F fan s.mem root d n = some t) (hi : i < fan)
    (hInvalid : F.valid (s.mem t i) = false) (hFrame : F.Frame f) (hNew : f ∉ s.tables) :
    Represents F fan code depth root (Radix.graft F s t i f) m := by
  have ht : t ∈ s.tables := hRep.given d (by omega) n t hTable
  have htf : t ≠ f := fun hEq => hNew (hEq ▸ ht)
  have hChild := child_div hFan hi (n := n)
  have hTables := tableAt_graft hFan hRep hd hTable hi hInvalid hFrame hNew
  -- a table is the new one or was there before
  have hCases : ∀ d' ≤ depth, ∀ n' u, tableAt F fan (Radix.graft F s t i f).mem root d' n' =
        some u → (u = f ∧ d' = d + 1 ∧ n' = n * fan + i) ∨ (u ∈ s.tables ∧
          tableAt F fan s.mem root d' n' = some u) := by
    intro d' hd' n' u hSome
    rw [hTables d' hd' n'] at hSome
    have hGiven := hRep.given d' hd' n' u
    grind
  have hFresh : ∀ j, (Radix.graft F s t i f).mem f j = F.empty := graft_mem_new htf
  refine ⟨?_, ?_, ?_, ?_⟩
  · intro d' hd' n' u hSome
    rcases hCases d' hd' n' u hSome with ⟨rfl, _⟩ | ⟨hu, _⟩
    · exact List.mem_cons_self ..
    · exact List.mem_cons_of_mem f hu
  · intro d₁ hd₁ d₂ hd₂ n₁ n₂ u hSome₁ hSome₂
    have hOnce := hRep.once d₁ hd₁ d₂ hd₂ n₁ n₂ u
    grind [hCases d₁ hd₁ n₁ u hSome₁, hCases d₂ hd₂ n₂ u hSome₂]
  · intro d' hd' n' u hSome j
    rcases hCases d' (by omega) n' u hSome with ⟨rfl, _⟩ | ⟨hu, hOld⟩
    · exact .inl (hFresh j)
    · by_cases hHere : u = t ∧ j = i
      · right
        refine ⟨f, hFrame, ?_⟩
        rw [graft_mem, if_pos hHere]
      · rw [graft_mem_of_given hNew hu hHere]
        exact hRep.upper d' hd' n' u hOld j
  · intro n'
    rw [← hRep.lower n']
    unfold entryAt
    rw [hTables depth (Nat.le_refl _)]
    split
    · rename_i hPlace
      -- the new table is a lowest one
      have hNone : tableAt F fan s.mem root depth (n' / fan) = none := by
        rw [hPlace.1, hPlace.2, tableAt_succ, hChild.1, hTable,
          Option.bind_some, hChild.2, hInvalid]
        rfl
      rw [hNone]
      exact hFresh _
    · cases hSome : tableAt F fan s.mem root depth (n' / fan) with
      | none => rfl
      | some u =>
        have hu := hRep.given depth (Nat.le_refl _) _ u hSome
        rw [Option.map_some, Option.map_some, graft_mem_of_given hNew hu]
        rintro ⟨rfl, _⟩
        have hSame := (hRep.once depth (Nat.le_refl _) d (by omega) _ _ u hSome hTable).1
        omega

-- Walks

variable {idx : Nat → Nat} {key : Nat}

theorem Fresh.tail {x : Option Nat} {frames : List (Option Nat)}
    (hFresh : Fresh F s (x :: frames)) : Fresh F s frames where
  frame f hf := hFresh.frame f (List.mem_cons_of_mem x hf)
  new f hf := hFresh.new f (List.mem_cons_of_mem x hf)
  nodup := by
    have hNodup := hFresh.nodup
    cases x with
    | none => exact hNodup
    | some f =>
      change (f :: frames.filterMap id).Nodup at hNodup
      exact hNodup.of_cons

/- The frames after the one that has been used. -/
theorem Fresh.graft {f t i : Nat} {frames : List (Option Nat)}
    (hFresh : Fresh F s (some f :: frames)) : Fresh F (Radix.graft F s t i f) frames where
  frame := hFresh.tail.frame
  new g hg := by
    have hNodup := hFresh.nodup
    change (f :: frames.filterMap id).Nodup at hNodup
    have hNe : g ≠ f := by
      rintro rfl
      refine (List.nodup_cons.mp hNodup).1 ?_
      exact List.mem_filterMap.mpr ⟨some g, hg, rfl⟩
    have hOld := hFresh.tail.new g hg
    exact fun hMem => (List.mem_cons.mp hMem).elim hNe hOld
  nodup := hFresh.tail.nodup

/- What a walk from a table leads to. -/
structure Walked (F : Format ε) (fan : Nat) (code : α → ε) (depth root key : Nat) (level : Nat)
    (frames : List (Option Nat)) (s : Store ε) (m : Nat → Option α)
    (r : Option (Nat × Nat) × List (Option Nat) × Store ε) : Prop where
  rep : Represents F fan code depth root r.2.2 m
  place : ∀ p, r.1 = some p → tableAt F fan r.2.2.mem root depth (key / fan) =
      some p.1 ∧ p.2 = key % fan
  found : ∀ t, tableAt F fan s.mem root depth (key / fan) =
    some t → r.1 = some (t, key % fan) ∧ r.2.2 = s
  bare : frames = [] → r.2.2 = s
  enough : level ≤ frames.length → none ∉ frames → r.1 ≠ none

theorem Represents.walk (hFan : 0 < fan) (hIdx : ∀ level, idx level = key / fan ^ level % fan)
    {level t : Nat} {frames : List (Option Nat)} (hRep : Represents F fan code depth root s m)
    (hFresh : Fresh F s frames) (hLevel : level ≤ depth)
    (hTable : tableAt F fan s.mem root (depth - level) (key / fan ^ (level + 1)) = some t) :
    Walked F fan code depth root key level frames s m (Radix.walk F idx level t frames s) := by
  induction level generalizing t frames s with
  | zero =>
    rw [Nat.zero_add, Nat.pow_one, Nat.sub_zero] at hTable
    have hIndex : idx 0 = key % fan := by rw [hIdx, Nat.pow_zero, Nat.div_one]
    unfold Radix.walk
    rw [hIndex]
    refine ⟨hRep, ?_, ?_, fun _ => rfl, ?_⟩
    · rintro p ⟨⟩
      exact ⟨hTable, rfl⟩
    · intro u hu
      rw [hTable] at hu
      cases hu
      exact ⟨rfl, rfl⟩
    · simp
  | succ level ih =>
    have hDepth : depth - level = depth - (level + 1) + 1 := by omega
    have hd : depth - (level + 1) < depth := by omega
    have hi : idx (level + 1) < fan := by
      rw [hIdx]
      exact Nat.mod_lt _ hFan
    -- the entry is the one for the number one level down
    have hDiv : key / fan ^ (level + 1) / fan = key / fan ^ (level + 2) := by
      rw [Nat.div_div_eq_div_mul, ← Nat.pow_succ]
    have hBelow : ∀ u : Store ε, tableAt F fan u.mem root (depth - level)
            (key / fan ^ (level + 1)) = (tableAt F fan u.mem root (depth - (level + 1))
            (key / fan ^ (level + 2))).bind fun t =>
              if F.valid (u.mem t (idx (level + 1))) then
                some (F.target (u.mem t (idx (level + 1))))
              else none := by
      intro u
      rw [hDepth, tableAt_succ, hDiv, hIdx]
    dsimp only [Radix.walk]
    by_cases hValid : F.valid (s.mem t (idx (level + 1)))
    · rw [if_pos hValid]
      have hNext := hBelow s
      rw [hTable, Option.bind_some, if_pos hValid] at hNext
      have hWalk := ih hRep hFresh (by omega) hNext
      exact { hWalk with enough := fun hLe => hWalk.enough (by omega) }
    · rw [if_neg hValid]
      have hInvalid := Bool.eq_false_iff.mpr hValid
      -- the lowest table is missing with this one
      have hMissing : tableAt F fan s.mem root (depth - level)
          (key / fan ^ (level + 1)) = none := by
        rw [hBelow s, hTable, Option.bind_some, if_neg hValid]
      have hGone := tableAt_none_below hMissing (by omega : level ≤ depth)
      cases frames with
      | nil =>
        exact ⟨hRep, nofun, by simp [hGone], fun _ => rfl, by simp⟩
      | cons x frames =>
        cases x with
        | none =>
          exact ⟨hRep, nofun, by simp [hGone], nofun, by simp⟩
        | some f =>
          have hFrame := hFresh.frame f (List.mem_cons_self ..)
          have hNew := hFresh.new f (List.mem_cons_self ..)
          have hGraft := hRep.graft hFan hd hTable hi hInvalid hFrame hNew
          have hTables := tableAt_graft hFan hRep hd hTable hi hInvalid hFrame hNew
          have hKey : key / fan ^ (level + 1) = key / fan ^ (level + 1 + 1) * fan +
                idx (level + 1) := by
            rw [hIdx, ← hDiv, Nat.mul_comm]
            exact (Nat.div_add_mod _ fan).symm
          have hNext : tableAt F fan (Radix.graft F s t (idx (level + 1))
                f).mem root (depth - level) (key / fan ^ (level + 1)) = some f := by
            rw [hTables _ (by omega), if_pos ⟨hDepth, hKey⟩]
          have hWalk := ih hGraft hFresh.graft (by omega) hNext
          refine ⟨hWalk.rep, hWalk.place, by simp [hGone], nofun, ?_⟩
          intro hLe hAll
          exact hWalk.enough (by simpa using hLe) fun hMem => hAll (List.mem_cons_of_mem _ hMem)

-- Values

theorem Represents.write (hRep : Represents F fan code depth root s m) {key t : Nat}
    (hTable : tableAt F fan s.mem root depth (key / fan) = some t) (x : Option α) :
    Represents F fan code depth root (s.write t (key % fan) (x.elim F.empty code))
      (update m key x) := by
  have hUpper : ∀ d < depth, ∀ n u, tableAt F fan s.mem root d n = some u →
        ∀ j e, (s.write t (key % fan) e).mem u j = s.mem u j := by
    intro d hd n u hu j e
    rw [Store.write_mem, if_neg]
    rintro ⟨rfl, _⟩
    have hSame := (hRep.once d (by omega) depth (Nat.le_refl _) _ _ u hu hTable).1
    omega
  have hTables := tableAt_congr fun d hd n u hu j => hUpper d hd n u hu j (x.elim F.empty code)
  refine ⟨?_, ?_, ?_, ?_⟩
  · intro d hd n u hu
    rw [hTables d hd] at hu
    exact hRep.given d hd n u hu
  · intro d hd d' hd' n n' u hu hu'
    rw [hTables d hd] at hu
    rw [hTables d' hd'] at hu'
    exact hRep.once d hd d' hd' n n' u hu hu'
  · intro d hd n u hu j
    rw [hTables d (by omega)] at hu
    rw [hUpper d hd n u hu]
    exact hRep.upper d hd n u hu j
  · intro n
    unfold entryAt
    rw [hTables depth (Nat.le_refl _)]
    by_cases hKey : n = key
    · subst hKey
      rw [hTable, Option.map_some, Store.write_mem, if_pos ⟨rfl, rfl⟩, update_self]
      rfl
    · rw [update_of_ne hKey, ← hRep.lower n]
      unfold entryAt
      cases hSome : tableAt F fan s.mem root depth (n / fan) with
      | none => rfl
      | some u =>
        rw [Option.map_some, Option.map_some, Store.write_mem, if_neg]
        rintro ⟨rfl, hIndex⟩
        have hNumber := (hRep.once depth (Nat.le_refl _) depth (Nat.le_refl _) _ _ u hSome hTable).2
        refine hKey ?_
        rw [← Nat.div_add_mod n fan, hNumber, hIndex, Nat.div_add_mod]

theorem Represents.eq_none (hRep : Represents F fan code depth root s m)
    (hCode : ∀ x, F.valid (code x) = true) {key : Nat}
    (hMissing : tableAt F fan s.mem root depth (key / fan) = none) : m key = none := by
  have hLower := hRep.lower key
  unfold entryAt at hLower
  rw [hMissing] at hLower
  cases hValue : m key with
  | none => rfl
  | some x =>
    rw [hValue] at hLower
    have hValid := hCode x
    rw [show code x = F.empty from hLower.symm, F.valid_empty] at hValid
    cases hValid

theorem Represents.read (hRep : Represents F fan code depth root s m) {key t : Nat}
    (hTable : tableAt F fan s.mem root depth (key / fan) = some t) :
    s.mem t (key % fan) = (m key).elim F.empty code := by
  rw [← hRep.lower key]
  unfold entryAt
  rw [hTable]
  rfl

end Radix
