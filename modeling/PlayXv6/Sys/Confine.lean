import PlayXv6.Sys.UserCopy
import PlayXv6.Vm.Walk

/-
  Where the bytes of a user copy lie.

  Every access starts at the translation of its user address,
  with the permission it needs.  The bytes after the first are
  at their own translations as far as the page goes; beyond
  it, only if the next page happens to lie in the next frame.

  Main declarations:
    * `addrIn`, `userAddr`
    * `confined_iff`
-/

namespace PlayXv6

variable {m m' : Machine} {va pa root pid j : Nat} {write : Bool} {β : Type}

namespace UserCopy

open Vm

/-
  The physical address of a user address in a table, if the
  page has the USER bit and, for a write, the WRITE bit.
-/
def addrIn (pt : PageTable) (va : Nat) (write : Bool) : Option Nat :=
  (pt.entryAt va).bind fun e => accessible e va write

def userAddr (s : State) (pid va : Nat) (write : Bool) : Option Nat :=
  (s.tableOf pid).bind fun pt => addrIn pt va write

theorem addrIn_add {pt : PageTable}
    (hAddr : addrIn pt va write = some pa) (hPage : va % PGSIZE + j < PGSIZE) :
    addrIn pt (va + j) write = some (pa + j) := by
  have hDiv : (va + j) / PGSIZE = va / PGSIZE := by
    simp only [PGSIZE] at *
    omega
  have hMod : (va + j) % PGSIZE = va % PGSIZE + j := by
    simp only [PGSIZE] at *
    omega
  unfold addrIn at hAddr ⊢
  rw [pt.entryAt_congr hDiv]
  rcases Option.bind_eq_some_iff.mp hAddr with ⟨e, hEntry, hPa⟩
  rw [hEntry, Option.bind_some]
  unfold accessible at hPa ⊢
  split at hPa
  · rename_i hPerm
    rw [if_pos hPerm, hMod]
    cases hPa
    rw [Nat.add_assoc]
  · simp at hPa

theorem userAddr_add {s : State}
    (hAddr : userAddr s pid va write = some pa) (hPage : va % PGSIZE + j < PGSIZE) :
    userAddr s pid (va + j) write = some (pa + j) := by
  rcases Option.bind_eq_some_iff.mp hAddr with ⟨pt, hTable, hIn⟩
  unfold userAddr
  rw [hTable, Option.bind_some]
  exact addrIn_add hIn hPage

/- Only addresses below `MAXVA` have a translation. -/
theorem lt_maxva_of_userAddr {s : State}
    (hAddr : userAddr s pid va write = some pa) : va < MAXVA := by
  rcases Option.bind_eq_some_iff.mp hAddr with ⟨pt, _, hIn⟩
  rcases Option.bind_eq_some_iff.mp hIn with ⟨e, hEntry, _⟩
  unfold PageTable.entryAt at hEntry
  split at hEntry
  · rename_i hWalk
    exact hWalk.1
  · simp at hEntry

-- Confined Accesses

def InPage (va n : Nat) : Prop := va % PGSIZE + n ≤ PGSIZE

instance (va n : Nat) : Decidable (InPage va n) := by
  unfold InPage
  infer_instance

/- Each byte is at the translation of its own address. -/
def Confined (s : State) (pid va pa n : Nat) (write : Bool) : Prop :=
  ∀ i < n, userAddr s pid (addr va i) write = some (pa + i)

/- From the address to the end of its page. -/
def toPageEnd (va : Nat) : Nat := PGSIZE - va % PGSIZE

/- The page after the object's first lies in the next frame. -/
def Continues (s : State) (pid va pa : Nat) (write : Bool) : Prop :=
  userAddr s pid (addr va (toPageEnd va)) write = some (pa + toPageEnd va)

/- What an access that starts right does to the rest of its object. -/
theorem confined_iff {s : State} {n : Nat}
    (hStart : userAddr s pid va write = some pa) (hLen : n ≤ PGSIZE) :
    Confined s pid va pa n write ↔ InPage va n ∨ Continues s pid va pa write := by
  have hMax := lt_maxva_of_userAddr hStart
  have hOff : va % PGSIZE < PGSIZE := Nat.mod_lt _ (by decide)
  have hAddr : ∀ i ≤ PGSIZE, addr va i = va + i := by
    intro i hi
    apply Nat.mod_eq_of_lt
    simp only [MAXVA, PGSIZE, USIZE] at *
    omega
  constructor
  · intro hAll
    by_cases hIn : InPage va n
    · exact .inl hIn
    · refine .inr (hAll _ ?_)
      simp only [InPage, toPageEnd] at *
      omega
  · intro hCases i hi
    rw [hAddr i (by omega)]
    by_cases hSame : va % PGSIZE + i < PGSIZE
    · exact userAddr_add hStart hSame
    · rcases hCases with hIn | hNext
      · unfold InPage at hIn
        omega
      · unfold Continues at hNext
        rw [hAddr (toPageEnd va) (Nat.sub_le _ _)] at hNext
        have hLow : (va + toPageEnd va) % PGSIZE = 0 := by
          simp only [toPageEnd, PGSIZE] at *
          omega
        have hBytes := userAddr_add (j := i - toPageEnd va) hNext (by
            rw [hLow]
            simp only [toPageEnd] at *
            omega)
        have hSplit : toPageEnd va + (i - toPageEnd va) = i := by
          simp only [toPageEnd] at *
          omega
        rwa [Nat.add_assoc, Nat.add_assoc, hSplit] at hBytes

/-
  A write to the frame `stackPa` is confined in every table
  that has the frame as its writable top stack page.
-/
def Placed (stackPa va pa n : Nat) : Prop :=
  ∀ pt : PageTable,
    pt.entryAt STACK_TOP_PAGE_VA = some ⟨stackPa, .URW⟩ →
      ∀ i < n, addrIn pt (va + i) true = some (pa + i)

namespace Touch

/- Every byte of the access is where it belongs. -/
def Confined (s : State) (pid : Nat) : {β : Type} → Touch β → Prop
  | _, .load va pa n => UserCopy.Confined s pid va pa n false
  | _, .store va pa bytes => UserCopy.Confined s pid va pa bytes.length true
  | _, .place stackPa va pa bytes => Placed stackPa va pa bytes.length

def Within : {β : Type} → Touch β → Prop
  | _, .load va _ n => InPage va n
  | _, .store va _ bytes => InPage va bytes.length
  | _, .place _ va _ bytes => InPage va bytes.length

/- The object goes on in the next frame. -/
def Continues (s : State) (pid : Nat) : {β : Type} → Touch β → Prop
  | _, .load va pa _ => UserCopy.Continues s pid va pa false
  | _, .store va pa _ => UserCopy.Continues s pid va pa true
  | _, .place _ _ _ _ => False

/-
  What every access keeps to: it starts at the translation of
  its address, and under `F` it stays within the page.
-/
def Begins (F : Prop) (s : State) (pid : Nat) : {β : Type} → Touch β → Prop
  | _, .load va pa n => userAddr s pid va false = some pa ∧ n ≤ PGSIZE ∧ (F → InPage va n)
  | _, .store va pa bytes =>
    userAddr s pid va true = some pa ∧ bytes.length ≤ PGSIZE ∧ (F → InPage va bytes.length)
  | _, .place stackPa va pa bytes =>
    Placed stackPa va pa bytes.length ∧ InPage va bytes.length

variable {F : Prop} {s : State}

theorem Begins.confined_iff {t : Touch β} (hBegins : t.Begins F s pid) :
    t.Confined s pid ↔ t.Within ∨ t.Continues s pid := by
  cases t with
  | load va pa n | store va pa bytes => exact UserCopy.confined_iff hBegins.1 hBegins.2.1
  | place stackPa va pa bytes => exact ⟨fun _ => .inl hBegins.2, fun _ => hBegins.1⟩

theorem Begins.within {t : Touch β} (hBegins : t.Begins F s pid) (hF : F) :
    t.Within := by
  cases t with
  | load va pa n | store va pa bytes => exact hBegins.2.2 hF
  | place stackPa va pa bytes => exact hBegins.2

end Touch

def UCmd.OfTouch (P : ∀ {β : Type}, State → Touch β → Prop) {β : Type} (m : Machine) : UCmd β → Prop
  | .vm _ => True
  | .touch t => P m.vm t
  | .ask _ => True

-- What a Translation Returns

variable {W : World pid} {α : Type}

/- The process has the table at `root`. -/
def Owns (pid root : Nat) (m : Machine) : Prop :=
  (m.vm.procs.lookup pid).bind Proc.pagetable = some root

theorem Owns.tableOf_eq (hOwns : Owns pid root m) : m.vm.tableOf pid = m.vm.tables.lookup root := by
  unfold State.tableOf
  rw [show (m.vm.procs.lookup pid).bind Proc.pagetable = some root from hOwns, Option.bind_some]

theorem Owns.turn (hOwns : Owns pid root m) : Owns pid root (W.turn m) ∧
      (W.turn m).vm.tableOf pid = m.vm.tableOf pid := by
  have hSame := W.keeps m.clock m.vm m.ram
  have hTurn : Owns pid root (W.turn m) := by
    unfold Owns
    rw [show (W.turn m).vm.procs.lookup pid = m.vm.procs.lookup pid from hSame.1]
    exact hOwns
  refine ⟨hTurn, ?_⟩
  rw [hTurn.tableOf_eq, hOwns.tableOf_eq]
  exact hSame.2 root hOwns

theorem execUser_vm (c : Vm.Cmd β) (m : Machine) : execUser W (.vm c) m =
      match Vm.exec pid c m.vm with
      | .ok b s => .ok b (W.turn { m with vm := s })
      | .wait => .wait
      | .panic e => .panic e := rfl

theorem onVm_op (c : Vm.Cmd β) (k : β → VmProg α) :
    onVm (.op c k) = .op (.vm c) fun b => onVm (k b) := rfl

theorem run_onVm_bind {p : VmProg β} {f : β → VmProg α} {a : α}
    (hRun : Prog.run (execUser W) (onVm (p >>= f)) m = .ok a m') :
    ∃ b m₁, Prog.run (execUser W) (onVm p) m = .ok b m₁ ∧
      Prog.run (execUser W) (onVm (f b)) m₁ = .ok a m' := by
  unfold onVm at hRun
  rw [Prog.bind_eq, Prog.subst_bind] at hRun
  exact Prog.run_bind_ok hRun

theorem run_onVm_ret {a b : α} (hRun : Prog.run (execUser W) (onVm (pure b)) m =
      .ok a m') : b = a ∧ m = m' := Outcome.ok.inj hRun

/- The root that is asked for is the process's own. -/
theorem run_rootPa {f : Nat → VmProg α} {a : α} (hRun : Prog.run (execUser W)
      (onVm (Prog.lift .rootPa >>= f)) m = .ok a m') : ∃ root, Owns pid root m ∧
      Prog.run (execUser W) (onVm (f root)) (W.turn m) = .ok a m' := by
  rw [Prog.bind_eq, Prog.lift_bind, onVm_op, Prog.run_op, execUser_vm] at hRun
  unfold Vm.exec at hRun
  cases hRoot : (m.vm.procs.lookup pid).bind Proc.pagetable with
  | none => simp [hRoot, Outcome.andThen] at hRun
  | some root =>
    simp only [hRoot] at hRun
    exact ⟨root, hRoot, hRun⟩

theorem run_readTable {c : Vm.Cmd β} {f : PageTable → β}
    {k : β → UProg α} {a : α} (hCmd : ∀ s, Vm.exec pid c s = s.readTable root f)
    (hOwns : Owns pid root m) (hRun : Prog.run (execUser W) (.op (.vm c) k) m = .ok a m') :
    ∃ pt, m.vm.tableOf pid = some pt ∧
      Prog.run (execUser W) (k (f pt)) (W.turn m) = .ok a m' := by
  rw [Prog.run_op, execUser_vm, hCmd] at hRun
  unfold State.readTable at hRun
  rw [hOwns.tableOf_eq]
  cases hTable : m.vm.tables.lookup root with
  | none => simp [hTable, Outcome.andThen] at hRun
  | some pt =>
    rw [hTable] at hRun
    exact ⟨pt, rfl, hRun⟩

/- A page that is found is in the process's own table. -/
theorem translate_post {o : Option Pte} (hOwns : Owns pid root m)
    (hRun : Prog.run (execUser W) (onVm (Vm.translate root va)) m = .ok o m') : Owns pid root m' ∧
      (∀ e, o = some e → (m'.vm.tableOf pid).bind (fun pt => pt.entryAt va) = some e) := by
  by_cases hMax : va < MAXVA
  · rw [translate_eq hMax, onVm_op] at hRun
    rcases run_readTable (fun _ => rfl) hOwns hRun with ⟨pt, hTable, hRun⟩
    rcases hOwns.turn (W := W) with ⟨hOwns₁, hTable₁⟩
    by_cases hBranch₂ : (pt.branch.lookup (2, levelIndex va 2)).isSome
    · rw [if_pos hBranch₂, onVm_op] at hRun
      rcases run_readTable (fun _ => rfl) hOwns₁ hRun with ⟨pt₁, hPt₁, hRun⟩
      rcases hOwns₁.turn (W := W) with ⟨hOwns₂, hTable₂⟩
      rw [hTable₁, hTable, Option.some.injEq] at hPt₁
      subst hPt₁
      by_cases hBranch₁ : (pt.branch.lookup (1, levelIndex va 1)).isSome
      · rw [if_pos hBranch₁, onVm_op] at hRun
        rcases run_readTable (fun _ => rfl) hOwns₂ hRun with ⟨pt₂, hPt₂, hRun⟩
        rcases hOwns₂.turn (W := W) with ⟨hOwns₃, hTable₃⟩
        rw [hTable₂, hTable₁, hTable, Option.some.injEq] at hPt₂
        subst hPt₂
        cases hRun
        refine ⟨hOwns₃, ?_⟩
        intro e he
        rw [hTable₃, hTable₂, hTable₁, hTable, Option.bind_some, PageTable.entryAt,
          if_pos ⟨hMax, hBranch₂, hBranch₁⟩]
        exact he
      · rw [if_neg hBranch₁] at hRun
        cases hRun
        exact ⟨hOwns₂, fun e he => by cases he⟩
    · rw [if_neg hBranch₂] at hRun
      cases hRun
      exact ⟨hOwns₁, fun e he => by cases he⟩
  · rw [translate_eq_none (Nat.not_lt.mp hMax)] at hRun
    cases hRun
    exact ⟨hOwns, fun e he => by cases he⟩

/- Commands that leave all process records alone. -/
def Quiet : {β : Type} → Vm.Cmd β → Prop
  | _, .swapTable _ => False
  | _, .setSize _ => False
  | _, .setVmas _ => False
  | _, .setMmapBase _ => False
  | _, .setZombie => False
  | _, .withLayout _ _ _ => False
  | _, _ => True

theorem procs_of_quiet {c : Vm.Cmd β} {s s' : State} {b : β} (hQuiet : Quiet c)
    (hExec : Vm.exec pid c s = .ok b s') : s'.procs = s.procs := by
  cases c <;>
    simp only [Quiet, Vm.exec, State.readTable, State.onTable] at hQuiet hExec <;>
    repeat' split at hExec
  all_goals first
    | exact hQuiet.elim
    | (cases hExec; rfl)
    | cases hExec

theorem walkLevel_quiet (root va level : Nat) (alloc : Bool) :
    (walkLevel root va level alloc).All Quiet := by
  refine .lift_bind trivial fun b => ?_
  refine .ite trivial (.ite ?_ trivial)
  refine .lift_bind trivial fun o => ?_
  cases o with
  | none => trivial
  | some pa => exact ⟨trivial, fun _ => trivial⟩

theorem walk_quiet (root va : Nat) (alloc : Bool) : (Vm.walk root va alloc).All Quiet := by
  refine .ite trivial ?_
  refine (walkLevel_quiet root va 2 alloc).bind fun b => ?_
  exact .ite (walkLevel_quiet root va 1 alloc) trivial

theorem map_quiet (root va pa : Nat) (perm : PtePerm) : (Vm.map root va pa perm).All Quiet := by
  refine .ite trivial (.ite trivial ?_)
  refine (walk_quiet root va true).bind fun b => ?_
  refine .ite ?_ trivial
  refine .lift_bind trivial fun o => ?_
  cases o with
  | none => exact ⟨trivial, fun _ => trivial⟩
  | some e => trivial

theorem translate_quiet (root va : Nat) : (Vm.translate root va).All Quiet := by
  refine (walk_quiet root va false).bind fun b => ?_
  exact .ite ⟨trivial, fun _ => trivial⟩ trivial

theorem demandMapZeroPage_quiet (page : Nat) : (demandMapZeroPage page).All Quiet := by
  refine .lift_bind trivial fun q => ?_
  cases q.demandPerm page true with
  | none => trivial
  | some perm =>
    refine .lift_bind trivial fun o => ?_
    cases o with
    | none => trivial
    | some pa =>
      refine .lift_bind trivial fun root => ?_
      refine (translate_quiet root page).bind fun e => ?_
      cases e with
      | some e => exact ⟨trivial, fun _ => trivial⟩
      | none =>
        refine (map_quiet root page pa perm).bind fun r => ?_
        cases r with
        | error e => exact ⟨trivial, fun _ => trivial⟩
        | ok u => trivial

/- A quiet part of a call leaves the process its table. -/
theorem owns_of_quiet {p : VmProg α} {a : α} (hQuiet : p.All Quiet)
    (hOwns : Owns pid root m) (hRun : Prog.run (execUser W) (onVm p) m = .ok a m') :
    Owns pid root m' := by
  induction p generalizing m with
  | ret b =>
    cases hRun
    exact hOwns
  | op c k ih =>
    rw [onVm_op, Prog.run_op, execUser_vm] at hRun
    cases hExec : Vm.exec pid c m.vm with
    | ok b s =>
      rw [hExec] at hRun
      have hNow : Owns pid root { m with vm := s } := by
        unfold Owns
        rw [procs_of_quiet hQuiet.1 hExec]
        exact hOwns
      exact ih b (hQuiet.2 b) hNow.turn.1 hRun
    | wait | panic e => simp [hExec, Outcome.andThen] at hRun

/- An entry of the page gives the address its translation. -/
theorem userAddr_of_entry {e : Pte}
    (hEntry : (m.vm.tableOf pid).bind (fun pt => pt.entryAt (pageRoundDown va)) = some e)
    (hPa : accessible e va write = some pa) : userAddr m.vm pid va write = some pa := by
  have hPage : pageRoundDown va / PGSIZE = va / PGSIZE := by
    simp only [pageRoundDown, PGSIZE]
    omega
  rcases Option.bind_eq_some_iff.mp hEntry with ⟨pt, hTable, hAt⟩
  rw [pt.entryAt_congr hPage] at hAt
  unfold userAddr addrIn
  rw [hTable, Option.bind_some, hAt, Option.bind_some]
  exact hPa

/-
  A translation that succeeds returns the address that the
  process's own table gives, with the permission asked for.
-/
theorem translateUserPerm_post
    (hRun : Prog.run (execUser W) (onVm (translateUserPerm va write)) m = .ok (some pa) m') :
    userAddr m'.vm pid va write = some pa := by
  rcases run_rootPa hRun with ⟨root, hOwns, hRun⟩
  rcases run_onVm_bind hRun with ⟨o, m₁, hFirst, hRun⟩
  rcases translate_post hOwns.turn.1 hFirst with ⟨hOwns₁, hEntry₁⟩
  cases o with
  | some e =>
    rcases run_onVm_ret hRun with ⟨hPa, rfl⟩
    exact userAddr_of_entry (hEntry₁ e rfl) hPa
  | none =>
    rcases run_onVm_bind hRun with ⟨mapped, m₂, hMap, hRun⟩
    have hOwns₂ := owns_of_quiet (demandMapZeroPage_quiet _) hOwns₁ hMap
    cases mapped with
    | false => cases hRun
    | true =>
      rcases run_onVm_bind hRun with ⟨o, m₃, hAgain, hRun⟩
      have hEntry₃ := (translate_post hOwns₂ hAgain).2
      cases o with
      | none => cases hRun
      | some e =>
        rcases run_onVm_ret hRun with ⟨hPa, rfl⟩
        exact userAddr_of_entry (hEntry₃ e rfl) hPa

end UserCopy

end PlayXv6
