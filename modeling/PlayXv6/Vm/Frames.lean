import PlayXv6.Lib.Assoc
import PlayXv6.Lib.Tasks
import PlayXv6.Vm.Specs

/-
  The owners of physical frames: the allocator, the page
  tables, the processes and the kernel image.

  The system is any number of processes that make calls at
  the same time, one command after another in any order.

  Main declarations:
    * `State.owned`
    * `PageTable.frames_insert_pte`
-/

namespace PlayXv6

namespace Vm

namespace PageTable

/- The frames that belong to a table, its root apart. -/
def frames (pt : PageTable) : List Nat := pt.branchFrames ++ pt.userFrames

end PageTable

namespace State

def tableFrames (s : State) : List Nat := s.tables.entries.flatMap fun e => e.1 :: e.2.frames

def trapframes (s : State) : List Nat := s.procs.entries.map fun e => e.2.trapframePa

/- Every frame, once for each of its owners. -/
def owned (s : State) : List Nat := s.free ++ s.tableFrames ++ s.trapframes ++ s.kernel

def boot (free kernel : List Nat) (trampolinePa : Nat) : State where
  free := free
  tables := ∅
  procs := ∅
  liveProcs := 0
  nextPid := 1
  kernel := kernel
  trampolinePa := trampolinePa

/- `Drop for Proc`, when the last handle is gone. -/
def reap (s : State) (pid : Nat) : Option State :=
  match s.procs.lookup pid with
  | none => none
  | some q =>
    if q.zombie then
      some { s with
        procs := s.procs.erase pid
        liveProcs := s.liveProcs - 1
        free := if q.trapframePa ≠ 0 then q.trapframePa :: s.free
          else s.free }
    else
      none

end State

/-
  Booting is task 0, which has no process; a process that has
  not exited may make any call, and one that has may be
  reaped.
-/
def vmSystem : TaskSystem Cmd Call Nat Unit State Int where
  prog := Call.prog
  admits s t
    | .boot _ => t == 0 && s.nextPid == 1
    | _ => (s.procs.lookup t).any fun q => !q.zombie
  exec := exec
  subject pid := pid
  event pid s := s.reap pid

abbrev Config := TaskSystem.Config Cmd State Int

def bootConfig (free kernel : List Nat) (trampolinePa : Nat) : Config where
  state := .boot free kernel trampolinePa
  running _ := none

-- Worths

def Res.frames : Res → Multiset Nat
  | .frame pa => {pa}
  | .table _ => 0

def Res.tables : Res → Multiset Nat
  | .frame _ => 0
  | .table root => {root}

def framesOf (R : Multiset Res) : Multiset Nat := (R.map Res.frames).sum

def tablesOf (R : Multiset Res) : Multiset Nat := (R.map Res.tables).sum

@[simp] theorem framesOf_zero : framesOf 0 = 0 := rfl

@[simp] theorem tablesOf_zero : tablesOf 0 = 0 := rfl

@[simp] theorem framesOf_add (R R' : Multiset Res) :
    framesOf (R + R') = framesOf R + framesOf R' := by simp [framesOf]

@[simp] theorem tablesOf_add (R R' : Multiset Res) :
    tablesOf (R + R') = tablesOf R + tablesOf R' := by simp [tablesOf]

@[simp] theorem framesOf_frame (pa : Nat) : framesOf {.frame pa} = {pa} := by
  simp [framesOf, Res.frames]

@[simp] theorem framesOf_table (root : Nat) : framesOf {.table root} = 0 := by
  simp [framesOf, Res.frames]

@[simp] theorem tablesOf_frame (pa : Nat) : tablesOf {.frame pa} = 0 := by
  simp [tablesOf, Res.tables]

@[simp] theorem tablesOf_table (root : Nat) : tablesOf {.table root} = {root} := by
  simp [tablesOf, Res.tables]

@[simp] theorem framesOf_map_frame (l : List Nat) : framesOf ↑(l.map Res.frame) = ↑l := by
  induction l with
  | nil => rfl
  | cons pa l ih =>
    rw [List.map_cons, ← Multiset.cons_coe, ← Multiset.singleton_add, framesOf_add, ih,
      framesOf_frame, Multiset.singleton_add, Multiset.cons_coe]

@[simp] theorem tablesOf_map_frame (l : List Nat) : tablesOf ↑(l.map Res.frame) = 0 := by
  induction l with
  | nil => rfl
  | cons pa l ih =>
    rw [List.map_cons, ← Multiset.cons_coe, ← Multiset.singleton_add, tablesOf_add, ih,
      tablesOf_frame, add_zero]

@[simp] theorem framesOf_tableRes (o : Option Nat) : framesOf (tableRes o) = 0 := by
  cases o <;> simp [tableRes]

@[simp] theorem tablesOf_frameRes (o : Option Nat) : tablesOf (frameRes o) = 0 := by
  cases o <;> simp [frameRes]

/- What an entry with the USER bit owns. -/
def Pte.worth (e : Pte) : Multiset Nat := if e.perm.user then {e.pa} else 0

theorem coe_map_eq_sum {α : Type} (l : List α) (f : α → Nat) : (↑(l.map f) : Multiset Nat) =
      (l.map fun a => ({f a} : Multiset Nat)).sum := by
  induction l with
  | nil => rfl
  | cons a l ih =>
    rw [List.map_cons, List.map_cons, List.sum_cons, ← ih,
      Multiset.singleton_add, Multiset.cons_coe]

namespace PageTable

theorem coe_branchFrames (pt : PageTable) : (↑pt.branchFrames : Multiset Nat) =
      pt.branch.total fun _ pa => {pa} := coe_map_eq_sum _ _

theorem coe_userFrames (pt : PageTable) : (↑pt.userFrames : Multiset Nat) =
      pt.pte.total fun _ e => e.worth := by
  unfold userFrames AList.total
  induction pt.pte.entries with
  | nil => rfl
  | cons e l ih =>
    rw [List.map_cons, List.sum_cons, ← ih]
    by_cases hUser : e.2.perm.user = true
    · have hWorth : e.2.worth = {e.2.pa} := if_pos hUser
      rw [List.filter_cons, if_pos hUser, List.map_cons]
      dsimp only
      rw [hWorth, Multiset.singleton_add, Multiset.cons_coe]
    · have hWorth : e.2.worth = 0 := if_neg hUser
      rw [List.filter_cons, if_neg hUser]
      dsimp only
      rw [hWorth, zero_add]

theorem coe_frames (pt : PageTable) : (↑pt.frames : Multiset Nat) =
      (pt.branch.total fun _ pa => {pa}) + pt.pte.total fun _ e => e.worth := by
  rw [frames, ← Multiset.coe_add, coe_branchFrames, coe_userFrames]

theorem frames_insert_branch (pt : PageTable) (k : Nat × Nat) (pa : Nat) :
    (↑({ pt with branch := pt.branch.insert k pa } : PageTable).frames : Multiset Nat) ≤
      {pa} + ↑pt.frames := by
  rw [coe_frames, coe_frames, AList.total_insert, add_assoc]
  exact add_le_add_right (add_le_add_left (AList.total_erase_le _ pt.branch k) _) _

theorem frames_insert_pte (pt : PageTable) (vpn : Nat) (e : Pte) :
    (↑({ pt with pte := pt.pte.insert vpn e } : PageTable).frames : Multiset Nat) ≤
      e.worth + ↑pt.frames := by
  rw [coe_frames, coe_frames, AList.total_insert, add_left_comm]
  exact add_le_add_right (add_le_add_right (AList.total_erase_le _ pt.pte vpn) _) _

theorem frames_erase_pte {pt : PageTable} {vpn : Nat} {e : Pte}
    (hLookup : pt.pte.lookup vpn = some e) : e.worth + ↑({ pt with pte := pt.pte.erase vpn }
        : PageTable).frames = (↑pt.frames : Multiset Nat) := by
  rw [coe_frames, coe_frames, AList.total_of_lookup _ hLookup, add_left_comm]

theorem takeLeaf_frames {pt : PageTable} {vpn : Nat} (hUser : ∀ e, pt.pte.lookup vpn = some e →
      e.perm.user = true) : ↑(pt.takeLeaf vpn).2.frames + framesOf (frameRes (pt.takeLeaf vpn).1) =
      (↑pt.frames : Multiset Nat) := by
  unfold takeLeaf
  cases hLookup : pt.pte.lookup vpn with
  | none => simp [frameRes]
  | some e =>
    dsimp only
    by_cases hLeaf : e.isLeaf = true
    · have hErase := frames_erase_pte hLookup
      rw [Pte.worth, if_pos (hUser e hLookup)] at hErase
      rw [if_pos hLeaf, frameRes, framesOf_frame, add_comm, hErase]
    · rw [if_neg hLeaf]
      simp [frameRes]

/- Dropping a table frees no more than it owns. -/
theorem dropFrames_le (pt : PageTable) : (↑pt.dropFrames : Multiset Nat) ≤ ↑pt.frames := by
  have hSub : ((pt.pte.entries.filter fun e =>
        e.2.perm.user && e.2.isLeaf).map fun e =>
          e.2.pa).Sublist pt.userFrames := by
    have hFilter : (pt.pte.entries.filter fun e =>
          e.2.perm.user && e.2.isLeaf) =
        (pt.pte.entries.filter fun e =>
          e.2.perm.user).filter fun e => e.2.isLeaf := by
      rw [List.filter_filter]
      congr 1
      funext e
      exact Bool.and_comm _ _
    rw [hFilter]
    exact List.filter_sublist.map _
  rw [dropFrames, frames, ← Multiset.coe_add, ← Multiset.coe_add, add_comm]
  exact add_le_add_right (Multiset.coe_le.mpr hSub.subperm) _

end PageTable

/- What a table owns with its root. -/
def tableWorth (root : Nat) (pt : PageTable) : Multiset Nat := {root} + ↑pt.frames

namespace State

theorem coe_tableFrames (s : State) : (↑s.tableFrames : Multiset Nat) =
      s.tables.total tableWorth := by
  unfold tableFrames AList.total
  induction s.tables.entries with
  | nil => rfl
  | cons e l ih =>
    rw [List.flatMap_cons, ← Multiset.coe_add, ih, List.map_cons, List.sum_cons, tableWorth,
      ← Multiset.cons_coe, Multiset.singleton_add]

theorem coe_trapframes (s : State) : (↑s.trapframes : Multiset Nat) =
      s.procs.total fun _ q => {q.trapframePa} := coe_map_eq_sum _ _

theorem coe_owned (s : State) : (↑s.owned : Multiset Nat) = ↑s.free + s.tables.total tableWorth +
        (s.procs.total fun _ q => {q.trapframePa}) + ↑s.kernel := by
  rw [owned, ← Multiset.coe_add, ← Multiset.coe_add,
    ← Multiset.coe_add, coe_tableFrames, coe_trapframes]

end State

end Vm

end PlayXv6
