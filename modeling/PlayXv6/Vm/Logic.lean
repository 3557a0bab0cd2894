import PlayXv6.Lib.Logic
import PlayXv6.Vm.Calls

/-
  A logic for the virtual-memory calls.

  A task holds the frames it has taken from the allocator and
  the page tables it has built.  The rules say how the
  commands move them: a frame that is freed must be held, a
  mapping with the USER bit gives its frame away, and a leaf
  may be unmapped only below the trap frame, where all
  entries have that bit.

  Main declarations:
    * `Res`, `View`, `Holds`
    * `unmapRange_spec`
-/

namespace PlayXv6

open Rules

variable {root va pa vpn size tf n : Nat}

namespace Vm

-- Rules

inductive Res where
  | frame (pa : Nat)
  | table (root : Nat)
  deriving DecidableEq

/- What a task relies on: what it holds and its process. -/
structure View where
  held : Multiset Res
  proc : Option Proc

def tableRes : Option Nat → Multiset Res
  | none => 0
  | some root => {.table root}

def frameRes : Option Nat → Multiset Res
  | none => 0
  | some pa => {.frame pa}

/- The first page that is not the process's own. -/
abbrev USER_VPNS : Nat := TRAPFRAME / PGSIZE

def procPre {β : Type} (f : Proc → β × Proc) (Q : β → View → Prop) (v : View) : Prop :=
  ∀ q, v.proc = some q → Q (f q).1 { v with proc := some (f q).2 }

/- What each command needs and does. A new process has to satisfy `I`. -/
def vmPre (I : Proc → Prop) : {β : Type} → Cmd β → (β → View → Prop) → View → Prop
  | _, .allocZeroed, Q, v => ∀ o, Q o { v with held := frameRes o + v.held }
  | _, .free pa, Q, v => ∃ h, v.held = .frame pa ::ₘ h ∧ Q () { v with held := h }
  | _, .fill _, Q, v => Q () v
  | _, .newTable pa, Q, v => ∃ h, v.held = .frame pa ::ₘ h ∧ Q () { v with held := .table pa ::ₘ h }
  | _, .hasBranch _ _ _, Q, v => ∀ b, Q b v
  | _, .linkBranch _ _ _ pa, Q, v => ∃ h, v.held = .frame pa ::ₘ h ∧ Q () { v with held := h }
  | _, .pteAt _ vpn, Q, v =>
    ∀ o : Option Pte, (∀ e, o = some e → vpn < USER_VPNS → e.perm.user) → Q o v
  | _, .setPte _ vpn e, Q, v =>
    if e.perm.user then
      ∃ h, v.held = .frame e.pa ::ₘ h ∧ Q () { v with held := h }
    else
      USER_VPNS ≤ vpn ∧ Q () v
  | _, .takeLeaf _ vpn, Q, v =>
    vpn < USER_VPNS ∧ ∀ o, Q o { v with held := frameRes o + v.held }
  | _, .dropTable root, Q, v =>
    ∃ h, v.held = .table root ::ₘ h ∧ ∀ l : List Nat, Q l { v with held := ↑(l.map Res.frame) + h }
  | _, .trampolinePa, Q, v => ∀ pa, Q pa v
  | _, .proc, Q, v => procPre (fun q => (q, q)) Q v
  | _, .rootPa, Q, v => ∀ root, Q root v
  | _, .swapTable root, Q, v =>
    ∃ h, v.held = tableRes root + h ∧ ∀ q, v.proc = some q → Q q.pagetable
        { held := tableRes q.pagetable + h
          proc := some { q with pagetable := root } }
  | _, .setSize size, Q, v => procPre (fun q => ((), { q with size := size })) Q v
  | _, .setVmas vmas, Q, v => procPre (fun q => ((), { q with vmas := vmas })) Q v
  | _, .setMmapBase base, Q, v => procPre (fun q => ((), { q with mmapBase := base })) Q v
  | _, .setZombie, Q, v => procPre (fun q => ((), { q with zombie := true })) Q v
  | _, .liveProcs, Q, v => ∀ n, Q n v
  | _, .withLayout root tf size, Q, v =>
    I (Proc.fresh root tf size) ∧ ∃ h, v.held = .table root ::ₘ .frame tf ::ₘ h ∧
        ∀ pid, Q pid { v with held := h }
  | _, .panic, _, _ => True

theorem vmPre_mono (I : Proc → Prop) {β : Type} (c : Cmd β) {Q Q' : β → View → Prop}
    (hImp : ∀ b v, Q b v → Q' b v) {v : View} (hPre : vmPre I c Q v) : vmPre I c Q' v := by
  cases c with
  | allocZeroed => exact fun o => hImp _ _ (hPre o)
  | free pa | newTable pa
  | linkBranch root level idx pa => exact hPre.imp fun h hh => ⟨hh.1, hImp _ _ hh.2⟩
  | fill c => exact hImp _ _ hPre
  | hasBranch root level idx => exact fun b => hImp _ _ (hPre b)
  | pteAt root vpn => exact fun o ho => hImp _ _ (hPre o ho)
  | setPte root vpn e =>
    simp only [vmPre] at hPre ⊢
    split
    · rw [if_pos ‹_›] at hPre
      exact hPre.imp fun h hh => ⟨hh.1, hImp _ _ hh.2⟩
    · rw [if_neg ‹_›] at hPre
      exact ⟨hPre.1, hImp _ _ hPre.2⟩
  | takeLeaf root vpn => exact ⟨hPre.1, fun o => hImp _ _ (hPre.2 o)⟩
  | dropTable root =>
    exact hPre.imp fun h hh => ⟨hh.1, fun l => hImp _ _ (hh.2 l)⟩
  | trampolinePa => exact fun pa => hImp _ _ (hPre pa)
  | proc | setSize size | setVmas vmas | setMmapBase base
  | setZombie => exact fun q hq => hImp _ _ (hPre q hq)
  | rootPa => exact fun root => hImp _ _ (hPre root)
  | swapTable root =>
    exact hPre.imp fun h hh => ⟨hh.1, fun q hq => hImp _ _ (hh.2 q hq)⟩
  | liveProcs => exact fun n => hImp _ _ (hPre n)
  | withLayout root tf size =>
    exact ⟨hPre.1, hPre.2.imp fun h hh => ⟨hh.1, fun pid => hImp _ _ (hh.2 pid)⟩⟩
  | panic => trivial

def vmRules (I : Proc → Prop) : Rules Cmd View where
  pre := vmPre I
  mono := vmPre_mono I

/- The task holds at least `R`, and its process has the given record. -/
def Holds (R : Multiset Res) (q : Option Proc) (v : View) : Prop := ∃ h, v = ⟨R + h, q⟩

namespace Holds

variable {R R' : Multiset Res} {q : Option Proc} {v : View}

theorem weaken {x : Res} (hv : Holds (x ::ₘ R) q v) : Holds R q v := by
  rcases hv with ⟨h, rfl⟩
  refine ⟨x ::ₘ h, ?_⟩
  rw [Multiset.cons_add, Multiset.add_cons]

theorem proc_eq (hv : Holds R q v) : v.proc = q := by
  rcases hv with ⟨h, rfl⟩
  rfl

end Holds

-- Rules for the Next Command

variable {I : Proc → Prop} {α : Type} {R : Multiset Res} {q : Proc} {o : Option Proc} {v : View}
variable {Q : α → View → Prop}

theorem wp_alloc {k : Option Nat → VmProg α} (hv : Holds R o v) (hNone : ∀ v', Holds R o v' →
      (vmRules I).wp (k none) Q v') (hSome : ∀ pa v', Holds (.frame pa ::ₘ R) o v' →
      (vmRules I).wp (k (some pa)) Q v') : (vmRules I).wp (.op .allocZeroed k) Q v := by
  rcases hv with ⟨h, rfl⟩
  intro r
  cases r with
  | none => exact hNone _ ⟨h, by simp [frameRes]⟩
  | some pa => exact hSome pa _ ⟨h, by simp [frameRes]⟩

theorem wp_free {k : Unit → VmProg α} (hv : Holds (.frame pa ::ₘ R) o v)
    (hThen : ∀ v', Holds R o v' → (vmRules I).wp (k ()) Q v') :
    (vmRules I).wp (.op (.free pa) k) Q v := by
  rcases hv with ⟨h, rfl⟩
  exact ⟨R + h, Multiset.cons_add _ _ _, hThen _ ⟨h, rfl⟩⟩

theorem wp_fill {c : Fill} {k : Unit → VmProg α} (hThen : (vmRules I).wp (k ()) Q v) :
    (vmRules I).wp (.op (.fill c) k) Q v := hThen

theorem wp_setPte_user {e : Pte} {k : Unit → VmProg α} (hUser : e.perm.user = true)
    (hv : Holds (.frame e.pa ::ₘ R) o v) (hThen : ∀ v', Holds R o v' → (vmRules I).wp (k ()) Q v') :
    (vmRules I).wp (.op (.setPte root vpn e) k) Q v := by
  rcases hv with ⟨h, rfl⟩
  have hPre : vmPre I (.setPte root vpn e) (fun b v' => (vmRules I).wp (k b) Q v')
      ⟨.frame e.pa ::ₘ R + h, o⟩ := by
    simp only [vmPre, hUser, if_true]
    exact ⟨R + h, Multiset.cons_add _ _ _, hThen _ ⟨h, rfl⟩⟩
  exact hPre

theorem wp_setPte_kernel {e : Pte} {k : Unit → VmProg α}
    (hKernel : e.perm.user = false) (hVpn : USER_VPNS ≤ vpn) (hThen : (vmRules I).wp (k ()) Q v) :
    (vmRules I).wp (.op (.setPte root vpn e) k) Q v := by
  have hPre : vmPre I (.setPte root vpn e) (fun b v' => (vmRules I).wp (k b) Q v') v := by
    simp only [vmPre, hKernel, Bool.false_eq_true, if_false]
    exact ⟨hVpn, hThen⟩
  exact hPre

theorem wp_proc {k : Proc → VmProg α} (hv : Holds R (some q) v) (hThen : (vmRules I).wp (k q) Q v) :
    (vmRules I).wp (.op .proc k) Q v := by
  rcases hv with ⟨h, rfl⟩
  intro q' hq
  cases hq
  exact hThen

theorem wp_swapTable {root : Option Nat} {k : Option Nat → VmProg α}
    (hv : Holds (tableRes root + R) (some q) v) (hThen : ∀ v', Holds (tableRes q.pagetable + R)
      (some { q with pagetable := root }) v' → (vmRules I).wp (k q.pagetable) Q v') :
    (vmRules I).wp (.op (.swapTable root) k) Q v := by
  rcases hv with ⟨h, rfl⟩
  refine ⟨R + h, add_assoc _ _ _, ?_⟩
  intro q' hq
  cases hq
  exact hThen _ ⟨h, by rw [add_assoc]⟩

theorem wp_setSize {k : Unit → VmProg α} (hv : Holds R (some q) v)
    (hThen : ∀ v', Holds R (some { q with size := size }) v' → (vmRules I).wp (k ()) Q v') :
    (vmRules I).wp (.op (.setSize size) k) Q v := by
  rcases hv with ⟨h, rfl⟩
  intro q' hq
  cases hq
  exact hThen _ ⟨h, rfl⟩

theorem wp_setVmas {vmas : List Vma} {k : Unit → VmProg α} (hv : Holds R (some q) v)
    (hThen : ∀ v', Holds R (some { q with vmas := vmas }) v' → (vmRules I).wp (k ()) Q v') :
    (vmRules I).wp (.op (.setVmas vmas) k) Q v := by
  rcases hv with ⟨h, rfl⟩
  intro q' hq
  cases hq
  exact hThen _ ⟨h, rfl⟩

theorem wp_setMmapBase {base : Nat} {k : Unit → VmProg α} (hv : Holds R (some q) v) (hThen : ∀ v',
      Holds R (some { q with mmapBase := base }) v' → (vmRules I).wp (k ()) Q v') :
    (vmRules I).wp (.op (.setMmapBase base) k) Q v := by
  rcases hv with ⟨h, rfl⟩
  intro q' hq
  cases hq
  exact hThen _ ⟨h, rfl⟩

theorem wp_setZombie {k : Unit → VmProg α} (hv : Holds R (some q) v) (hThen : ∀ v',
      Holds R (some { q with zombie := true }) v' → (vmRules I).wp (k ()) Q v') :
    (vmRules I).wp (.op .setZombie k) Q v := by
  rcases hv with ⟨h, rfl⟩
  intro q' hq
  cases hq
  exact hThen _ ⟨h, rfl⟩

theorem wp_withLayout {k : Nat → VmProg α} (hI : I (Proc.fresh root tf size))
    (hv : Holds (.table root ::ₘ .frame tf ::ₘ R) o v) (hThen : ∀ pid v', Holds R o v' →
      (vmRules I).wp (k pid) Q v') : (vmRules I).wp (.op (.withLayout root tf size) k) Q v := by
  rcases hv with ⟨h, rfl⟩
  refine ⟨hI, R + h, ?_, fun pid => hThen pid _ ⟨h, rfl⟩⟩
  rw [Multiset.cons_add, Multiset.cons_add]

-- Page Tables

theorem newPageTable_spec (hv : Holds R o v) : (vmRules I).wp newPageTable
      (fun r v' => Holds (tableRes r + R) o v') v := by
  unfold newPageTable
  simp only [Prog.bind_eq, Prog.lift_bind]
  refine wp_alloc hv ?_ ?_
  · intro v' hv'
    simpa [tableRes] using hv'
  · intro pa v' hv'
    rcases hv' with ⟨h, rfl⟩
    refine ⟨R + h, Multiset.cons_add _ _ _, h, ?_⟩
    simp [tableRes]

theorem walkLevel_spec {level : Nat} {alloc : Bool} (hv : Holds R o v) :
    (vmRules I).wp (walkLevel root va level alloc) (fun _ => Holds R o) v := by
  unfold walkLevel
  simp only [Prog.bind_eq, Prog.lift_bind]
  intro b
  refine wp_ite (fun _ => hv) fun _ => ?_
  refine wp_ite (fun _ => ?_) fun _ => hv
  refine wp_alloc hv (fun v' hv' => hv') ?_
  intro pa v' hv'
  rcases hv' with ⟨h, rfl⟩
  exact ⟨R + h, Multiset.cons_add _ _ _, h, rfl⟩

theorem walk_spec {alloc : Bool} (hv : Holds R o v) :
    (vmRules I).wp (walk root va alloc) (fun _ => Holds R o) v := by
  unfold walk
  refine wp_ite (fun _ => hv) fun _ => ?_
  refine wp_bind_of (walkLevel_spec hv) ?_
  intro b v' hv'
  exact wp_ite (fun _ => walkLevel_spec hv') fun _ => hv'

/- A page mapped with the USER bit takes the frame; if the mapping fails the frame is still held. -/
theorem map_user_spec {perm : PtePerm} (hUser : perm.user = true)
    (hv : Holds (.frame pa ::ₘ R) o v) : (vmRules I).wp (map root va pa perm)
      (fun r v' => match r with
        | .ok _ => Holds R o v'
        | .error _ => Holds (.frame pa ::ₘ R) o v') v := by
  unfold map
  refine wp_ite (fun _ => hv) fun _ => ?_
  refine wp_ite (fun _ => hv) fun _ => ?_
  refine wp_bind_of (walk_spec hv) ?_
  intro b v' hv'
  refine wp_ite (fun _ => ?_) fun _ => hv'
  simp only [Prog.bind_eq, Prog.lift_bind]
  intro e _
  cases e with
  | some e => exact hv'
  | none => exact wp_setPte_user hUser hv' fun v'' hv'' => hv''

/- A kernel page above the user part takes nothing. -/
theorem map_kernel_spec {perm : PtePerm} (hKernel : perm.user = false)
    (hVa : USER_VPNS ≤ va / PGSIZE) (hv : Holds R o v) : (vmRules I).wp (map root va pa perm)
      (fun _ => Holds R o) v := by
  unfold map
  refine wp_ite (fun _ => hv) fun _ => ?_
  refine wp_ite (fun _ => hv) fun _ => ?_
  refine wp_bind_of (walk_spec hv) ?_
  intro b v' hv'
  refine wp_ite (fun _ => ?_) fun _ => hv'
  simp only [Prog.bind_eq, Prog.lift_bind]
  intro e _
  cases e with
  | some e => exact hv'
  | none => exact wp_setPte_kernel hKernel hVa hv'

theorem mapKernelPages_spec (hv : Holds R o v) :
    (vmRules I).wp (mapKernelPages root tf) (fun _ => Holds R o) v := by
  unfold mapKernelPages
  simp only [Prog.bind_eq, Prog.lift_bind]
  intro tramp
  refine wp_bind_of (map_kernel_spec rfl (by decide) hv) ?_
  intro r v' hv'
  cases r with
  | error e => exact hv'
  | ok u =>
    refine wp_bind_of (map_kernel_spec rfl (by decide) hv') ?_
    intro r v'' hv''
    cases r with
    | error e | ok u => exact hv''

theorem div_lt_userVpns (hVa : va < TRAPFRAME) : va / PGSIZE < USER_VPNS := by
  simp only [USER_VPNS, TRAPFRAME, TRAMPOLINE, MAXVA, PGSIZE] at *
  omega

/- The frame of an unmapped user page is held. -/
theorem unmapPage_spec (hVa : va < TRAPFRAME) (hv : Holds R o v) :
    (vmRules I).wp (unmapPage root va) (fun r => Holds (frameRes r + R) o) v := by
  have hNone : ∀ {w : View}, Holds R o w → Holds (frameRes none + R) o w := by
    intro w hw
    simpa [frameRes] using hw
  unfold unmapPage
  refine wp_ite (fun _ => hNone hv) fun _ => ?_
  refine wp_bind_of (walk_spec hv) ?_
  intro b v' hv'
  refine wp_ite (fun _ => ?_) fun _ => hNone hv'
  rcases hv' with ⟨h, rfl⟩
  refine ⟨div_lt_userVpns hVa, ?_⟩
  intro r
  exact ⟨h, by rw [add_assoc]⟩

/- The entries of user pages have the USER bit. -/
theorem translate_spec (hv : Holds R o v) : (vmRules I).wp (translate root va)
      (fun r v' => Holds R o v' ∧ ∀ e, r = some e → va < TRAPFRAME → e.perm.user = true) v := by
  unfold translate
  refine wp_bind_of (walk_spec hv) ?_
  intro b v' hv'
  refine wp_ite (fun _ => ?_) fun _ => ⟨hv', fun e he => by simp at he⟩
  intro r hr
  refine ⟨hv', ?_⟩
  intro e he hVa
  exact hr e he (div_lt_userVpns hVa)

theorem freeAll_spec {frames : List Nat} (hv : Holds (↑(frames.map Res.frame) + R) o v) :
    (vmRules I).wp (Prog.forEach frames fun pa => Prog.lift (.free pa)) (fun _ => Holds R o) v := by
  refine wp_forEach (fun l => Holds (↑(l.map Res.frame) + R) o) ?_ hv ?_
  · intro pa rest v' hv'
    have hFirst : Holds (.frame pa ::ₘ (↑(rest.map Res.frame) + R)) o v' := by
      simpa [← Multiset.cons_coe] using hv'
    exact wp_free hFirst fun v'' hv'' => hv''
  · intro v' hv'
    simpa using hv'

theorem dropPageTable_spec (hv : Holds (.table root ::ₘ R) o v) :
    (vmRules I).wp (dropPageTable root) (fun _ => Holds R o) v := by
  unfold dropPageTable
  simp only [Prog.bind_eq, Prog.lift_bind]
  rcases hv with ⟨h, rfl⟩
  refine ⟨R + h, Multiset.cons_add _ _ _, ?_⟩
  intro l
  exact freeAll_spec ⟨h, by rw [add_assoc]⟩

theorem dropOld_spec {old : Option Nat} (hv : Holds (tableRes old + R) o v) :
    (vmRules I).wp (dropOld old) (fun _ => Holds R o) v := by
  cases old with
  | none => simpa [tableRes, dropOld] using hv
  | some root => exact dropPageTable_spec (by simpa [tableRes] using hv)

/- The first page of a range of user pages, and the others. -/
theorem below_of_succ (hVa : ∀ i < n + 1, va + i * PGSIZE < TRAPFRAME) :
    va < TRAPFRAME ∧ ∀ i < n, va + PGSIZE + i * PGSIZE < TRAPFRAME := by
  constructor
  · simpa using hVa 0 (Nat.succ_pos n)
  · intro i hi
    have h := hVa (i + 1) (by omega)
    rw [Nat.add_mul] at h
    omega

theorem unmapRange_spec (hVa : ∀ i < n, va + i * PGSIZE < TRAPFRAME)
    (hv : Holds R o v) : (vmRules I).wp (unmapRange root va n) (fun _ => Holds R o) v := by
  induction n generalizing va v with
  | zero => exact hv
  | succ n ih =>
    rcases below_of_succ hVa with ⟨hFirst, hRest⟩
    unfold unmapRange
    refine wp_bind_of (unmapPage_spec hFirst hv) ?_
    intro r v' hv'
    cases r with
    | none => exact ih hRest (by simpa [frameRes] using hv')
    | some pa =>
      refine wp_free (R := R) ?_ fun v'' hv'' => ih hRest hv''
      simpa [frameRes] using hv'

/- A failed growth gives back what it has mapped. -/
theorem growRange_spec {start : Nat} (hVa : ∀ i < n, va + i * PGSIZE < TRAPFRAME)
    (hv : Holds R o v) : (vmRules I).wp (growRange root start va n) (fun _ => Holds R o) v := by
  induction n generalizing va v with
  | zero => exact hv
  | succ n ih =>
    rcases below_of_succ hVa with ⟨hFirst, hRest⟩
    have hBack : ∀ i < pages start va, start + i * PGSIZE < TRAPFRAME := fun i hi =>
        (add_mul_lt_of_lt_pages hi).trans hFirst
    unfold growRange
    simp only [Prog.bind_eq, Prog.lift_bind]
    refine wp_alloc hv ?_ ?_
    · intro v' hv'
      exact wp_bind_of (unmapRange_spec hBack hv') fun _ v'' hv'' => hv''
    · intro pa v' hv'
      refine wp_bind_of (map_user_spec rfl hv') ?_
      intro r v'' hv''
      cases r with
      | ok u => exact ih hRest hv''
      | error e =>
        refine wp_free hv'' ?_
        intro w hw
        exact wp_bind_of (unmapRange_spec hBack hw) fun _ w' hw' => hw'

theorem fillPage_spec {file : Option (Nat × Nat)} (hv : Holds R o v) :
    (vmRules I).wp (fillPage pa file) (fun _ => Holds R o) v := by
  cases file with
  | none => exact hv
  | some f => exact wp_fill hv

theorem mapFresh_spec {page : Nat} {perm : PtePerm} {file : Option (Nat × Nat)}
    (hUser : perm.user = true) (hv : Holds R o v) :
    (vmRules I).wp (mapFresh root page perm file) (fun _ => Holds R o) v := by
  unfold mapFresh
  simp only [Prog.bind_eq, Prog.lift_bind]
  refine wp_alloc hv (fun v' hv' => hv') ?_
  intro pa v' hv'
  refine wp_bind_of (fillPage_spec hv') fun _ w hw => ?_
  refine wp_bind_of (map_user_spec hUser hw) ?_
  intro r v'' hv''
  cases r with
  | ok u => exact hv''
  | error e => exact wp_free hv'' fun w hw => hw

end Vm

end PlayXv6
