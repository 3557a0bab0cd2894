import PlayXv6.Vm.Draft

/-
  Address spaces with the contents of their frames.

  Main declarations:
    * `Mem`, `execMem`
    * `Mem.access`
-/

namespace PlayXv6

namespace Vm

/- Address spaces, the bytes of every frame, and the bytes of every file by its inode. -/
structure Mem where
  vm : State
  ram : Nat → Nat → UInt8
  files : Nat → List UInt8

/- The contents after a command that was answered with the given value. -/
def Mem.ramAfter (m : Mem) : {β : Type} → Cmd β → β → Nat → Nat → UInt8
  | _, .allocZeroed, some pa => Function.update m.ram pa fun _ => 0
  | _, .fill (.copyFrame src dst), _ => Function.update m.ram dst (m.ram src)
  | _, .fill (.readFile ino off dst), _ =>
    Function.update m.ram dst fun i => (m.files ino).getD (off + i) 0
  | _, _, _ => m.ram

def execMem (pid : Nat) : Handler Cmd Unit Mem
  | _, c, m =>
    match exec pid c m.vm with
    | .ok b s =>
      .ok b { m with
        vm := s
        ram := m.ramAfter c b }
    | .wait => .wait
    | .panic e => .panic e

/-
  The ways to access user memory: the program's loads, stores
  and instruction fetches, and the kernel's reads and writes
  in a system call.
-/
inductive Access where
  | load
  | store
  | fetch
  | kernelRead
  | kernelWrite
  deriving DecidableEq

namespace Access

def allowed (perm : PtePerm) : Access → Bool
  | .load => perm.user && perm.read
  | .store => perm.user && perm.write
  | .fetch => perm.user && perm.exec
  | .kernelRead => perm.user
  | .kernelWrite => perm.user && perm.write

def writes : Access → Bool
  | .store => true
  | .kernelWrite => true
  | _ => false

/- The entry, if the access may go through it. -/
def through (kind : Access) (o : Option Pte) : Option Pte := o.filter fun e => kind.allowed e.perm

end Access

namespace Mem

/-
  A load or a store.  A fault on a mapped page leads nowhere:
  the process is killed or faults again.
-/
def userAttempt (kind : Access) (va : Nat) : VmProg (Option Pte) := do
  let root ← Prog.lift .rootPa
  match ← translate root va with
  | some e => return kind.through (some e)
  | none =>
    if ← lazyMapPageAsync va kind.writes then
      return kind.through (← translate root va)
    else
      return none

/- A fetch; a fault on a fetch is fatal. -/
def fetchAttempt (va : Nat) : VmProg (Option Pte) := do
  let root ← Prog.lift .rootPa
  return Access.fetch.through (← translate root va)

/- The kernel's access, and the entry it goes through. -/
def kernelAttempt (kind : Access) (va : Nat) : VmProg (Option Pte) := do
  let root ← Prog.lift .rootPa
  match ← translateUserPerm va kind.writes with
  | none => return none
  | some _ =>
    return kind.through (← translate root va)

def attempt (kind : Access) (va : Nat) : VmProg (Option Pte) :=
  match kind with
  | .load => userAttempt .load va
  | .store => userAttempt .store va
  | .fetch => fetchAttempt va
  | .kernelRead => kernelAttempt .kernelRead va
  | .kernelWrite => kernelAttempt .kernelWrite va

/-
  What process `pid` gets from an access: the permissions of
  the page and the byte at the address.
-/
def access (m : Mem) (pid : Nat) (kind : Access) (va : Nat) : Option (PtePerm × UInt8) :=
  match Prog.run (execMem pid) (attempt kind va) m with
  | .ok (some e) m' => some (e.perm, m'.ram e.pa (va % PGSIZE))
  | _ => none

end Mem

end Vm

end PlayXv6
