import PlayXv6.Sys.Confine

/-
  Confinement of the system calls that touch user memory.

  Copies go byte by byte and are confined.  A status, the
  descriptors of a pipe and the pointers of an argument array
  are accessed as a whole after one translation; they are
  confined if they do not cross into another page.

  Main declarations:
    * `Starts`
    * `user_copies_confined`
-/

namespace PlayXv6

variable {va n statusVa i stackPa : Nat}

namespace UserCopy

open Vm

-- Rules for Calls

/-
  Every access of the program starts at the translation of
  its address and, under `F`, stays within its page.
-/
def Starts {pid : Nat} {α : Type} (W : World pid) (F : Prop) (p : UProg α) : Prop :=
  Prog.Always (execUser W) (UCmd.OfTouch fun s t => t.Begins F s pid) p

variable {pid : Nat} {W : World pid} {F : Prop} {α β : Type}

theorem Starts.ret {a : α} : Starts W F (pure a) :=
  Prog.Always.ret a

theorem Starts.bind {p : UProg β} {f : β → UProg α} (hFirst : Starts W F p)
    (hThen : ∀ b, Starts W F (f b)) : Starts W F (p >>= f) :=
  Prog.Always.bind hFirst hThen

theorem Starts.ite {c : Prop} [Decidable c] {p q : UProg α} (hThen : Starts W F p)
    (hElse : Starts W F q) : Starts W F (if c then p else q) :=
  Prog.Always.ite hThen hElse

theorem starts_ask (q : Ask α) : Starts W F (ask q) :=
  Prog.Always.op (fun _ => trivial) .ret

theorem Starts.ask {q : Ask β} {f : β → UProg α} (hThen : ∀ b, Starts W F (f b)) :
    Starts W F (UserCopy.ask q >>= f) := .bind (starts_ask q) hThen

theorem Starts.askSome {q : Ask (Option β)} {f : Option β → UProg α} (hNone : Starts W F (f none))
    (hSome : ∀ b, Starts W F (f (some b))) : Starts W F (UserCopy.ask q >>= f) :=
  .ask (Option.forall.mpr ⟨hNone, hSome⟩)

theorem starts_onVm (p : VmProg α) : Starts W F (onVm p) := by
  induction p with
  | ret a => exact .ret
  | op c k ih => exact Prog.Always.op (fun _ => trivial) ih

/- After a translation its result may be relied on. -/
theorem starts_translate {write : Bool} {f : Option Nat → UProg α}
    (hNone : Starts W F (f none)) (hSome : ∀ pa m, userAddr m.vm pid va write = some pa →
      Prog.Along (execUser W) (UCmd.OfTouch fun s t => t.Begins F s pid) (f (some pa)) m) :
    Starts W F (onVm (translateUserPerm va write) >>= f) := by
  intro m
  refine Prog.along_bind.mpr ⟨starts_onVm _ m, ?_⟩
  intro o m' hRun
  cases o with
  | none => exact hNone m'
  | some pa => exact hSome pa m' (translateUserPerm_post hRun)

theorem inPage_one (va : Nat) : InPage va 1 := Nat.mod_lt va (by decide)

/- Translate, then read an object of `n` bytes. -/
theorem starts_load {f : Option Nat → UProg α} {k : Nat → List UInt8 → UProg α}
    (hLen : n ≤ PGSIZE) (hIn : F → InPage va n) (hNone : Starts W F (f none))
    (hSome : ∀ kva, f (some kva) =
      Prog.lift (.touch (.load va kva n)) >>= k kva) (hThen : ∀ kva b, Starts W F (k kva b)) :
    Starts W F (translateUser va >>= f) := by
  refine starts_translate hNone ?_
  intro pa m hAddr
  rw [hSome]
  exact ⟨⟨hAddr, hLen, hIn⟩, fun b m' _ => hThen pa b m'⟩

theorem starts_store {bytes : List UInt8} {f : Option Nat → UProg α}
    {k : Nat → Unit → UProg α} (hLen : bytes.length ≤ PGSIZE) (hIn : F → InPage va bytes.length)
    (hNone : Starts W F (f none)) (hSome : ∀ kva, f (some kva) =
      Prog.lift (.touch (.store va kva bytes)) >>= k kva) (hThen : ∀ kva u, Starts W F (k kva u)) :
    Starts W F (translateUserWrite va >>= f) := by
  refine starts_translate hNone ?_
  intro pa m hAddr
  rw [hSome]
  exact ⟨⟨hAddr, hLen, hIn⟩, fun u m' _ => hThen pa u m'⟩

theorem starts_loadByte {f : Option Nat → UProg α} {k : Nat → List UInt8 → UProg α}
    (hNone : Starts W F (f none)) (hSome : ∀ kva, f (some kva) =
      Prog.lift (.touch (.load va kva 1)) >>= k kva) (hThen : ∀ kva b, Starts W F (k kva b)) :
    Starts W F (translateUser va >>= f) := starts_load (by decide) (fun _ => inPage_one va) hNone
    hSome hThen

theorem starts_storeByte {b : UInt8} {f : Option Nat → UProg α}
    {k : Nat → Unit → UProg α} (hNone : Starts W F (f none)) (hSome : ∀ kva, f (some kva) =
      Prog.lift (.touch (.store va kva [b])) >>= k kva) (hThen : ∀ kva u, Starts W F (k kva u)) :
    Starts W F (translateUserWrite va >>= f) := by
  have hLen : [b].length ≤ PGSIZE := by simp
  exact starts_store hLen (fun _ => inPage_one va) hNone hSome hThen

-- Copies Byte by Byte

theorem copyOut_starts (va i : Nat) (bytes : List UInt8) : Starts W F (copyOut va i bytes) := by
  induction bytes generalizing i with
  | nil => exact .ret
  | cons b rest ih =>
    exact starts_storeByte .ret (fun _ => rfl) fun _ _ => ih (i + 1)

theorem copyIn_starts (va i n : Nat) : Starts W F (copyIn va i n) := by
  induction n generalizing i with
  | zero => exact .ret
  | succ n ih =>
    refine starts_loadByte .ret (fun _ => rfl) ?_
    intro kva b
    exact .bind (ih (i + 1)) fun rest => .ret

theorem copyOutAll_starts (va : Nat) (bytes : List UInt8) : Starts W F (copyOutAll va bytes) :=
  .bind (copyOut_starts va 0 bytes) fun _ => .ite .ret .ret

theorem cstringLoop_starts (va i n : Nat) :
    Starts W F (cstringLoop translateUser loadUser va i n) := by
  induction n generalizing i with
  | zero => exact .ret
  | succ n ih =>
    refine starts_loadByte .ret (fun _ => rfl) ?_
    intro kva b
    refine .ite .ret ?_
    refine .bind (ih (i + 1)) fun o => ?_
    cases o with
    | none | some rest => exact .ret

theorem consoleRead_starts (va : Nat) (nonblock : Bool) (n left : Nat) :
    Starts W F (consoleRead va nonblock n left) := by
  induction left generalizing n with
  | zero => exact .ret
  | succ left ih =>
    refine .askSome .ret fun b => ?_
    refine .ite (.ite ?_ .ret) ?_
    · exact .ask fun _ => .ret
    · refine starts_storeByte .ret (fun _ => rfl) ?_
      intro kva u
      exact .ite .ret (ih (n + 1))

theorem pipeRead_starts (va : Nat) (nonblock : Bool) (n left : Nat) :
    Starts W F (pipeRead va nonblock n left) := by
  induction left generalizing n with
  | zero => exact .ret
  | succ left ih =>
    refine .ask fun o => ?_
    cases o with
    | eof | again => exact .ret
    | byte b =>
      refine starts_storeByte .ret (fun _ => rfl) ?_
      intro kva u
      exact .ask fun _ => .ite .ret (ih (n + 1))

theorem deliver_starts (va : Nat) (o : Option (List UInt8)) : Starts W F (deliver va o) := by
  cases o with
  | none => exact .ret
  | some bytes =>
    exact .bind (copyOut_starts va 0 bytes) fun _ => .ite .ret .ret

theorem fbRead_starts (va len : Nat) : Starts W F (fbRead va len) := by
  refine .askSome .ret fun bytes => ?_
  refine .bind (copyOut_starts va 0 bytes) fun n => ?_
  exact .ite .ret (.ask fun _ => .ret)

theorem inodeRead_starts (va len : Nat) : Starts W F (inodeRead va len) := by
  refine .ask fun bytes => ?_
  refine .bind (copyOut_starts va 0 bytes) fun n => ?_
  exact .ite .ret (.ask fun _ => .ret)

theorem sysRead_starts (fd : UInt32) (va len : Nat) : Starts W F (sysRead fd va len) := by
  refine .ite .ret ?_
  refine .askSome .ret fun entry => ?_
  rcases entry with ⟨file, nonblock⟩
  cases file with
  | console => exact consoleRead_starts va nonblock 0 len
  | pipeRead | unixSocket => exact pipeRead_starts va nonblock 0 len
  | tcpSocket | input =>
    exact .ask fun o => deliver_starts va o
  | inode readable writable append =>
    exact .ite (inodeRead_starts va len) .ret
  | fb => exact fbRead_starts va len
  | pipeWrite | otherSocket => exact .ret

theorem sysPread_starts (fd : UInt32) (va len : Nat) (offset : Int64) :
    Starts W F (sysPread fd va len offset) := by
  refine .ite .ret ?_
  refine .ite .ret ?_
  refine .ask fun o => ?_
  split
  · refine .ask fun bytes => ?_
    exact .bind (copyOut_starts va 0 bytes) fun _ => .ite .ret .ret
  · exact .ret

/- A writer starts right if what takes its chunks does. -/
theorem writeChunks_starts {chunk : Nat} {consume : Nat → List UInt8 → UProg Took}
    (hConsume : ∀ n bytes, Starts W F (consume n bytes)) (va len written fuel : Nat) : Starts W F
      (writeChunks chunk consume va len written fuel) := by
  induction fuel generalizing written with
  | zero => exact .ret
  | succ fuel ih =>
    refine .ite ?_ .ret
    refine .bind (copyIn_starts va written _) fun bytes => ?_
    refine .ite .ret ?_
    refine .bind (hConsume written bytes) fun t => ?_
    cases t with
    | more taken => exact ih (written + taken)
    | stop r => exact .ret

theorem consoleTake_starts (len written : Nat) (bytes : List UInt8) :
    Starts W F (consoleTake len written bytes) := by
  refine .ask fun _ => ?_
  refine .ite ?_ .ret
  exact .ask fun _ => .ite .ret .ret

theorem inodeTake_starts (offset : Option Nat) (append : Bool) (written : Nat)
    (bytes : List UInt8) : Starts W F (inodeTake offset append written bytes) := by
  exact .askSome .ret fun n => .ite .ret .ret

theorem tcpTake_starts (nonblock : Bool) (written : Nat) (bytes : List UInt8) :
    Starts W F (tcpTake nonblock written bytes) := by
  exact .askSome .ret fun n => .ite .ret .ret

theorem pipeWrite_starts (va : Nat) (nonblock : Bool) (n left : Nat) :
    Starts W F (pipeWrite va nonblock n left) := by
  induction left generalizing n with
  | zero => exact .ret
  | succ left ih =>
    refine .ask fun killed => ?_
    refine .ite .ret ?_
    refine starts_loadByte .ret (fun _ => rfl) ?_
    intro kva b
    refine .ask fun r => ?_
    cases r with
    | done => exact ih (n + 1)
    | full | broken => exact .ret

theorem fbWrite_starts (va len : Nat) : Starts W F (fbWrite va len) := by
  refine .askSome .ret fun n => ?_
  refine .bind (copyIn_starts va 0 n) fun bytes => ?_
  refine .ask fun _ => ?_
  exact .ite .ret .ret

theorem sysWrite_starts (fd : UInt32) (va len : Nat) : Starts W F (sysWrite fd va len) := by
  refine .askSome .ret fun entry => ?_
  rcases entry with ⟨file, nonblock⟩
  cases file with
  | console =>
    exact writeChunks_starts (consoleTake_starts len) va len 0 len
  | pipeWrite | unixSocket => exact pipeWrite_starts va nonblock 0 len
  | tcpSocket =>
    exact writeChunks_starts (tcpTake_starts nonblock) va len 0 len
  | inode readable writable append =>
    exact .ite (writeChunks_starts (inodeTake_starts none append) va len 0 len) .ret
  | fb => exact fbWrite_starts va len
  | pipeRead | otherSocket | input => exact .ret

theorem sysPwrite_starts (fd : UInt32) (va len : Nat) (offset : Int64) :
    Starts W F (sysPwrite fd va len offset) := by
  refine .ite .ret ?_
  refine .ite .ret ?_
  refine .ask fun o => ?_
  split
  · exact writeChunks_starts (inodeTake_starts _ false) va len 0 len
  · exact .ret

-- Objects Accessed as a Whole

/- Translate, then write an integer of `n` bytes. -/
theorem starts_storeLe {v : Nat} {f : Option Nat → UProg α} {k : Nat → Unit → UProg α}
    (hLen : n ≤ PGSIZE) (hIn : F → InPage va n) (hNone : Starts W F (f none))
    (hSome : ∀ kva, f (some kva) =
      Prog.lift (.touch (.store va kva (toLe n v))) >>= k kva)
    (hThen : ∀ kva u, Starts W F (k kva u)) : Starts W F (translateUserWrite va >>= f) := by
  refine starts_store ?_ ?_ hNone hSome hThen
  · rw [toLe_length]
    exact hLen
  · rw [toLe_length]
    exact hIn

theorem sysWaitpid_starts (hFits : F → statusVa = 0 ∨ InPage statusVa 4)
    (child : Int32) (options : UInt32) : Starts W F (sysWaitpid child statusVa options) := by
  unfold sysWaitpid
  by_cases hZero : statusVa = 0
  · rw [if_neg (not_not.mpr hZero)]
    refine .ask fun r => ?_
    cases r with
    | reaped child code | noChildren | wouldBlock | killed => exact .ret
  · have hIn : F → InPage statusVa 4 := fun hF => (hFits hF).resolve_left hZero
    rw [if_pos hZero]
    refine .bind (starts_onVm _) fun o => ?_
    refine .ite .ret ?_
    refine .ask fun r => ?_
    cases r with
    | reaped child code =>
      exact starts_storeLe (by decide) hIn .ret (fun _ => rfl) fun _ _ => .ret
    | noChildren | wouldBlock | killed => exact .ret

theorem sysWait4_starts (hFits : F → statusVa = 0 ∨ InPage statusVa 4)
    (child : Int32) (options : UInt32) (rusageVa : Nat) : Starts W F
      (sysWait4 child statusVa options rusageVa) := by
  refine .bind (sysWaitpid_starts hFits child options) fun r => ?_
  refine .ite ?_ .ret
  exact .bind (copyOutAll_starts _ _) fun _ => .ite .ret .ret

theorem putFdsFrom_starts {fds : List UInt32} (hFits : F → ∀ j < fds.length,
      InPage (addr va ((i + j) * 4)) 4) : Starts W F (putFdsFrom va i fds) := by
  induction fds generalizing i with
  | nil => exact .ret
  | cons fd rest ih =>
    refine starts_storeLe (by decide) ?_ .ret (fun _ => rfl) fun _ _ => ih ?_
    · intro hF
      exact hFits hF 0 (Nat.succ_pos _)
    · intro hF j hj
      have hNext := hFits hF (j + 1) (Nat.succ_lt_succ hj)
      rwa [show i + 1 + j = i + (j + 1) by omega]

theorem putFds_starts (hFits : F → ∀ i < 2, InPage (addr va (i * 4)) 4) :
    Starts W F (putFds va) := by
  refine .askSome .ret fun fd₀ => ?_
  refine .ask fun o => ?_
  cases o with
  | none =>
    exact .ask fun _ => .ret
  | some fd₁ =>
    refine .bind (putFdsFrom_starts ?_) fun done => ?_
    · intro hF j hj
      rw [Nat.zero_add]
      exact hFits hF j hj
    · refine .ite .ret ?_
      exact .ask fun _ => .ask fun _ => .ret

theorem argvLoop_starts {maxLen : Nat} (hFits : F → ∀ j < n,
      InPage (addr va ((i + j) * 8)) 8) :
    Starts W F (argvLoop translateUser loadUser va maxLen i n) := by
  induction n generalizing i with
  | zero => exact .ret
  | succ n ih =>
    refine starts_load (by decide) (fun hF => hFits hF 0 (Nat.succ_pos n))
      .ret (fun _ => rfl) ?_
    intro kva b
    refine .ite .ret ?_
    refine .bind (cstringLoop_starts _ 0 _) fun o => ?_
    cases o with
    | none => exact .ret
    | some arg =>
      refine .bind (ih ?_) fun o => ?_
      · intro hF j hj
        have hNext := hFits hF (j + 1) (Nat.succ_lt_succ hj)
        rwa [show i + 1 + j = i + (j + 1) by omega]
      · cases o with
        | none | some rest => exact .ret

/- Every element of an array of addresses is in one page. -/
def ArrayFits (va : Nat) : Prop := va = 0 ∨ ∀ i < MAX_ARGS, InPage (addr va (i * 8)) 8

theorem readUserArgv_starts (hFits : F → ArrayFits va) (maxLen : Nat) :
    Starts W F (readUserArgv va MAX_ARGS maxLen) := by
  unfold readUserArgv argvAt
  by_cases hZero : va = 0
  · rw [if_pos hZero]
    exact .ret
  · rw [if_neg hZero]
    refine argvLoop_starts ?_
    intro hF j hj
    rw [Nat.zero_add]
    exact (hFits hF).resolve_left hZero j hj

-- The Arguments of a New Image

theorem placed_of_le {off : Nat} (hLe : off + n ≤ PGSIZE) :
    Placed stackPa (STACK_TOP_PAGE_VA + off) (stackPa + off) n ∧
      InPage (STACK_TOP_PAGE_VA + off) n := by
  constructor
  · intro pt hEntry i hi
    have hStart : addrIn pt STACK_TOP_PAGE_VA true = some stackPa := by
      unfold addrIn
      rw [hEntry]
      rfl
    rw [Nat.add_assoc, Nat.add_assoc]
    refine addrIn_add hStart ?_
    have hLow : STACK_TOP_PAGE_VA % PGSIZE = 0 := by decide
    omega
  · unfold InPage
    simp only [STACK_TOP_PAGE_VA, STACK_VA_TOP, TRAPFRAME, TRAMPOLINE, MAXVA, PGSIZE] at *
    omega

theorem putAll_starts {puts : List (Nat × List UInt8)}
    (hIn : ∀ p ∈ puts, stackPa ≤ p.1 ∧ p.1 + p.2.length ≤ stackPa + PGSIZE) :
    Starts W F (putAll stackPa puts) := by
  induction puts with
  | nil => exact .ret
  | cons p rest ih =>
    rw [List.forall_mem_cons] at hIn
    have hFirst : Placed stackPa (STACK_TOP_PAGE_VA + (p.1 - stackPa)) p.1 p.2.length ∧
        InPage (STACK_TOP_PAGE_VA + (p.1 - stackPa)) p.2.length := by
      have hLe : p.1 - stackPa + p.2.length ≤ PGSIZE := by omega
      have hAt := @placed_of_le _ stackPa _ hLe
      rw [Nat.add_sub_cancel' hIn.1.1] at hAt
      exact hAt
    exact Prog.Always.op (fun _ => hFirst) fun _ => ih hIn.2

theorem sysExecve_starts {argvVa envpVa : Nat} (hArgv : F → ArrayFits argvVa)
    (hEnvp : F → ArrayFits envpVa) (pathVa : Nat) :
    Starts W F (sysExecve pathVa argvVa envpVa) := by
  refine .bind (cstringLoop_starts _ 0 _) fun o => ?_
  cases o with
  | none => exact .ret
  | some path =>
    refine .bind (readUserArgv_starts hArgv _) fun o => ?_
    cases o with
    | none => exact .ret
    | some argv =>
      refine .bind (readUserArgv_starts hEnvp _) fun o => ?_
      cases o with
      | none => exact .ret
      | some envp =>
        refine .askSome .ret fun stackPa => ?_
        dsimp only
        cases hPlace : stackWrites stackPa argv envp with
        | none => exact .bind (starts_onVm _) fun _ => .ret
        | some puts =>
          refine .bind (putAll_starts fun p hp => stackWrites_inside hPlace hp) fun _ => ?_
          exact .ask fun _ => .ret

-- All Calls

theorem direntsFrom_starts (va len copied n : Nat) : Starts W F (direntsFrom va len copied n) := by
  induction n generalizing copied with
  | zero => exact .ret
  | succ n ih =>
    refine .ite ?_ .ret
    refine .ask fun o => ?_
    match o with
    | none => exact .ret
    | some none => exact ih copied
    | some (some dirent) =>
      exact .bind (copyOut_starts _ 0 _) fun _ => .ite .ret (ih _)

theorem sysGetdents_starts (fd : UInt32) (va len : Nat) : Starts W F (sysGetdents fd va len) := by
  refine .ite .ret ?_
  exact .askSome .ret fun n => direntsFrom_starts va len 0 n

theorem sysSigprocmask_starts (how set : UInt32) (va : Nat) :
    Starts W F (sysSigprocmask how set va) := by
  exact .askSome .ret fun prev => .ite (copyOutAll_starts va _) .ret

theorem sysGetcwd_starts (va len : Nat) : Starts W F (sysGetcwd va len) := by
  refine .ite .ret ?_
  refine .askSome .ret fun path => ?_
  refine .ite .ret ?_
  exact .bind (copyOut_starts va 0 _) fun _ => .ite .ret .ret

theorem sysPoll_starts (va nfds : Nat) (timeout : UInt32) :
    Starts W F (sysPoll va nfds timeout) := by
  refine .ite .ret ?_
  refine .bind (copyIn_starts va 0 _) fun entries => ?_
  refine .ite .ret ?_
  refine .ask fun o => ?_
  match o with
  | none => exact .ret
  | some (revents, ready) =>
    exact .bind (copyOut_starts va 0 revents) fun _ => .ite .ret .ret

theorem sysIoctl_starts (fd cmd : UInt32) (va : Nat) : Starts W F (sysIoctl fd cmd va) := by
  exact .askSome .ret fun bytes => copyOutAll_starts va bytes

theorem sysFstat_starts (fd : UInt32) (va : Nat) : Starts W F (sysFstat fd va) := by
  exact .askSome .ret fun st => copyOutAll_starts va _

theorem sysNanosleep_starts (va : Nat) : Starts W F (sysNanosleep va) := by
  refine .ite .ret ?_
  exact .bind (copyIn_starts va 0 _) fun _ => .ite .ret (starts_ask _)

/- A call that reads a path first. -/
theorem starts_path {max : Nat} {f : Option (List UInt8) → UProg Int}
    (hNone : f none = pure (-1)) (hSome : ∀ path, Starts W F (f (some path))) :
    Starts W F (readUserCstring va max >>= f) := by
  refine .bind (cstringLoop_starts va 0 max) fun o => ?_
  cases o with
  | none =>
    rw [hNone]
    exact .ret
  | some path => exact hSome path

theorem pathCall_starts (q : List UInt8 → Ask Int) (va : Nat) : Starts W F (pathCall q va) :=
  starts_path rfl fun _ => starts_ask _

theorem statPath_starts (follow : Bool) (pathVa statVa : Nat) :
    Starts W F (statPath follow pathVa statVa) := by
  refine starts_path rfl fun path => ?_
  exact .askSome .ret fun st => copyOutAll_starts statVa _

theorem sysReadlink_starts (pathVa va len : Nat) : Starts W F (sysReadlink pathVa va len) :=
  starts_path rfl fun _ => .ask fun o => deliver_starts va o

theorem sysRmdir_starts (va : Nat) : Starts W F (sysRmdir va) := starts_path rfl fun _ =>
    .ask fun _ => .ite (pathCall_starts _ va) .ret

theorem pathPairCall_starts (op : PathPairOp) (va max va' : Nat) :
    Starts W F (pathPairCall op va max va') := starts_path rfl fun _ =>
    starts_path rfl fun _ => starts_ask _

/-
  The objects the call accesses as a whole, a status or a
  descriptor of four bytes and an address of eight, lie in
  one page each.
-/
def UserCall.Fits : UserCall → Prop
  | .wait status => status.toNat = 0 ∨ InPage status.toNat 4
  | .waitpid _ status _ => status.toNat = 0 ∨ InPage status.toNat 4
  | .wait4 _ status _ _ => status.toNat = 0 ∨ InPage status.toNat 4
  | .pipe fds => ∀ i < 2, InPage (addr fds.toNat (i * 4)) 4
  | .socketpair sv => ∀ i < 2, InPage (addr sv.toNat (i * 4)) 4
  | .exec _ argv => ArrayFits argv.toNat
  | .execve _ argv envp => ArrayFits argv.toNat ∧ ArrayFits envp.toNat
  | _ => True

theorem prog_starts (call : UserCall) : Starts W call.Fits call.prog := by
  cases call with
  | wait status => exact sysWaitpid_starts id _ _
  | waitpid child status options => exact sysWaitpid_starts id child options
  | wait4 child status options rusage => exact sysWait4_starts id child options _
  | pipe fds | socketpair sv => exact putFds_starts id
  | read fd buf len => exact sysRead_starts fd _ _
  | write fd buf len => exact sysWrite_starts fd _ _
  | pread fd buf len offset => exact sysPread_starts fd _ _ offset
  | pwrite fd buf len offset => exact sysPwrite_starts fd _ _ offset
  | clockGettime clk ts | gettimeofday tv =>
    exact .ite .ret (.ask fun _ => copyOutAll_starts _ _)
  | nanosleep req => exact sysNanosleep_starts _
  | getdents fd buf len => exact sysGetdents_starts fd _ _
  | sigprocmask how set oldset => exact sysSigprocmask_starts how set _
  | getcwd buf len => exact sysGetcwd_starts _ _
  | poll fds nfds timeout => exact sysPoll_starts _ _ timeout
  | ioctl fd cmd arg => exact sysIoctl_starts fd cmd _
  | fstat fd st => exact sysFstat_starts fd _
  | stat path st => exact statPath_starts true _ _
  | lstat path st => exact statPath_starts false _ _
  | readlink path buf len => exact sysReadlink_starts _ _ _
  | onPath op path => exact pathCall_starts _ _
  | chown path uid gid =>
    exact .ask fun _ => .ite .ret (pathCall_starts _ _)
  | truncate path length => exact .ite .ret (pathCall_starts _ _)
  | rmdir path => exact sysRmdir_starts _
  | link old new | rename old new | symlink target new => exact pathPairCall_starts _ _ _ _
  | exec path argv => exact sysExecve_starts id (fun _ => .inl rfl) _
  | execve path argv envp => exact sysExecve_starts And.left And.right _

-- Confinement

/-
  Every access of every call is confined exactly if its
  object lies in one page or goes on in the next frame; all
  are if the objects accessed as a whole fit their pages.
-/
theorem user_copies_confined (pid : Nat) (W : World pid) (call : UserCall) :
    Prog.Always (execUser W) (UCmd.OfTouch fun s t => t.Confined s pid ↔
          t.Within ∨ t.Continues s pid) call.prog ∧ (call.Fits →
        Prog.Always (execUser W) (UCmd.OfTouch fun s t => t.Confined s pid)
          call.prog) := by
  have hStarts := prog_starts (W := W) call
  constructor
  · intro m
    refine Prog.Along.mono ?_ (hStarts m)
    intro β m' c hBegins
    cases c with
    | vm c => trivial
    | touch t => exact Touch.Begins.confined_iff hBegins
    | ask q => trivial
  · intro hFits m
    refine Prog.Along.mono ?_ (hStarts m)
    intro β m' c hBegins
    cases c with
    | vm c => trivial
    | touch t =>
      exact (Touch.Begins.confined_iff hBegins).mpr (.inl (Touch.Begins.within hBegins hFits))
    | ask q => trivial

/- Answers of a kernel in which one child has exited. -/
def childReply : {β : Type} → Ask β → β
  | _, .waitFor _ _ => .reaped 7 0x01020304
  | _, .isKilled => false
  | _, .uid => 0
  | _, .getFdEntry _ => none
  | _, .allocFd => none
  | _, .closeFd _ => ()
  | _, .consoleByte _ => none
  | _, .consoleUnget => ()
  | _, .consoleWrite _ => ()
  | _, .pipeByte _ => .eof
  | _, .pipeIsEmpty => true
  | _, .pipePush _ _ => .full
  | _, .inputBytes _ _ => none
  | _, .tcpRecv _ _ => none
  | _, .tcpSend _ _ => none
  | _, .fbBytes _ => none
  | _, .fbRoom _ => none
  | _, .fbStore _ => ()
  | _, .readi _ _ => []
  | _, .advance _ => ()
  | _, .writei _ _ _ => none
  | _, .dirEntries _ => none
  | _, .nextDirent => none
  | _, .clock => fun _ => 0
  | _, .timeofday => fun _ => 0
  | _, .sleep _ => 0
  | _, .setBlocked _ _ => none
  | _, .cwdPath => none
  | _, .poll _ _ => none
  | _, .ioctl _ _ => none
  | _, .statFd _ => none
  | _, .statPath _ _ => none
  | _, .readlink _ _ => none
  | _, .path _ _ => -1
  | _, .chown _ _ _ => -1
  | _, .truncate _ _ => -1
  | _, .pathPair _ _ _ => -1
  | _, .emptyDir _ => false
  | _, .buildImage _ => none
  | _, .replaceImage => ()

/- A world in which nobody else does anything. -/
def childWorld (pid : Nat) : World pid where
  reply _ _ q := childReply q
  others _ s ram := (s, ram)
  keeps _ _ _ := ⟨rfl, fun _ _ => rfl⟩

/- Process 1 has its pages 1 and 2 in two frames that do not lie side by side. -/
def apartTable : PageTable where
  branch := (∅ : AList fun _ : Nat × Nat => Nat)
    |>.insert (2, 0) 0x80001000 |>.insert (1, 0) 0x80002000
  pte := (∅ : AList fun _ : Nat => Pte)
    |>.insert 1 ⟨0x80005000, .URW⟩
    |>.insert 2 ⟨0x80009000, .URW⟩

def apartMachine : Machine where
  vm :=
    { free := []
      tables := (∅ : AList fun _ : Nat => PageTable).insert 0x80000000 apartTable
      procs := (∅ : AList fun _ : Nat => Proc).insert 1 (Proc.fresh 0x80000000 0x80003000 0x3000)
      liveProcs := 1
      nextPid := 2
      kernel := []
      trampolinePa := 0 }
  ram _ := 0
  clock := 0

def storeConfined (pid : Nat) (m : Machine) : {β : Type} → Touch β → Bool
  | _, .store va pa bytes =>
    (List.range bytes.length).all fun i => userAddr m.vm pid (addr va i) true == some (pa + i)
  | _, .load _ _ _ => true
  | _, .place _ _ _ _ => true

def UCmd.storeConfined (pid : Nat) {β : Type} (m : Machine) : UCmd β → Bool
  | .vm _ => true
  | .touch t => UserCopy.storeConfined pid m t
  | .ask _ => true

theorem storeConfined_of_confined {pid : Nat} {β : Type} {m : Machine} {c : UCmd β} (hConfined :
      c.OfTouch (fun s t => t.Confined s pid) m) : c.storeConfined pid m = true := by
  cases c with
  | vm c | ask q => rfl
  | touch t =>
    cases t with
    | load va pa n | place stackPa va pa bytes => rfl
    | store va pa bytes =>
      refine List.all_eq_true.mpr fun i hi => ?_
      exact beq_iff_eq.mpr (hConfined i (List.mem_range.mp hi))

/-
  A status two bytes before the end of page 1: the wait
  returns the child, and the other two bytes of the status go
  to the frame after the one of page 1, where page 2 is not.
-/
theorem status_write_escapes : ¬ Prog.Along (execUser (childWorld 1))
        (UCmd.OfTouch fun s t => t.Confined s 1)
        (UserCall.waitpid (-1) 0x1ffe 0).prog apartMachine ∧ ∃ m, Prog.run (execUser (childWorld 1))
          (UserCall.waitpid (-1) 0x1ffe 0).prog apartMachine = .ok 7 m ∧ m.ram 0x80006000 = 2 := by
  constructor
  · intro hAlong
    have hCheck : Prog.checkAlong (execUser (childWorld 1)) (UCmd.storeConfined 1)
      (UserCall.waitpid (-1) 0x1ffe 0).prog apartMachine = true := by
      refine Prog.checkAlong_iff.mpr (Prog.Along.mono ?_ hAlong)
      intro β m c hConfined
      exact storeConfined_of_confined hConfined
    revert hCheck
    decide +kernel
  · have hCheck : (Prog.run (execUser (childWorld 1)) (UserCall.waitpid (-1) 0x1ffe 0).prog
          apartMachine).check (fun r m =>
            decide (r = 7 ∧ m.ram 0x80006000 = 2)) = true := by
      decide +kernel
    rcases Outcome.exists_of_check hCheck with ⟨r, m, hRun, hTest⟩
    rcases of_decide_eq_true hTest with ⟨rfl, hByte⟩
    exact ⟨m, hRun, hByte⟩

/- Below the boundary the same wait is confined. -/
theorem user_copies_confined_status : (UserCall.waitpid (-1) 0x1ff8 0).Fits ∧
      Prog.Always (execUser (childWorld 1)) (UCmd.OfTouch fun s t => t.Confined s 1)
        (UserCall.waitpid (-1) 0x1ff8 0).prog := by
  have hFits : (UserCall.waitpid (-1) 0x1ff8 0).Fits := by exact .inr (by decide)
  exact ⟨hFits, (user_copies_confined 1 (childWorld 1) _).2 hFits⟩

end UserCopy

end PlayXv6
