import PlayXv6.Fs.Log
import PlayXv6.Lib.Embed
import PlayXv6.Vm.ArgStack
import PlayXv6.Vm.Calls

/-
  The system calls that read or write user memory.

  A call translates a user address and then touches physical
  memory at the result.  The commands name both addresses, so
  that every byte can be held against the page table it came
  from.  What the rest of the kernel decides (which child is
  reaped, what a file holds) is asked for, and any answer is
  possible.

  Main declarations:
    * `UCmd`, `execUser`
    * `copyOut`, `copyIn`
-/

namespace PlayXv6

namespace UserCopy

open Vm

-- Commands

/- How a wait for a child ends. -/
inductive WaitOutcome where
  | reaped (pid : Nat) (code : UInt32)
  | noChildren
  | wouldBlock
  | killed

inductive FileKind where
  | console
  | pipeRead
  | pipeWrite
  | unixSocket
  | tcpSocket
  | otherSocket
  | inode (readable writable append : Bool)
  | fb
  | input

structure FdEntry where
  file : FileKind
  nonblock : Bool

inductive PipeByte where
  | byte (b : UInt8)
  | eof
  | again

/- What becomes of a byte written to a pipe. -/
inductive PipePush where
  | done
  | full
  | broken

/- The calls that take one path and return a number. -/
inductive PathOp where
  | create (flags : UInt32)
  | bind (fd : UInt32)
  | connect (fd : UInt32)
  | mkdir
  | mknod (major minor : UInt16)
  | unlink
  | chdir
  | chmod (mode : UInt16)

inductive PathPairOp where
  | link
  | rename
  | symlink

abbrev STAT_SIZE : Nat := 48
abbrev TIMESPEC_SIZE : Nat := 16
abbrev TIMEVAL_SIZE : Nat := 16
abbrev RUSAGE_SIZE : Nat := 144
abbrev POLLFD_SIZE : Nat := 8
abbrev USER_DIRENT_SIZE : Nat := 32

/- Questions to the rest of the kernel. -/
inductive Ask : Type → Type where
  | waitFor (filter : Option Nat) (nonblock : Bool) : Ask WaitOutcome
  | isKilled : Ask Bool
  | uid : Ask UInt32
  | getFdEntry (fd : UInt32) : Ask (Option FdEntry)
  | allocFd : Ask (Option UInt32)
  | closeFd (fd : UInt32) : Ask Unit
  | consoleByte (nonblock : Bool) : Ask (Option UInt8)
  | consoleUnget : Ask Unit
  | consoleWrite (bytes : List UInt8) : Ask Unit
  | pipeByte (nonblock : Bool) : Ask PipeByte
  | pipeIsEmpty : Ask Bool
  | pipePush (b : UInt8) (nonblock : Bool) : Ask PipePush
  | inputBytes (want : Nat) (nonblock : Bool) : Ask (Option (List UInt8))
  | tcpRecv (want : Nat) (nonblock : Bool) : Ask (Option (List UInt8))
  | tcpSend (bytes : List UInt8) (nonblock : Bool) : Ask (Option Nat)
  | fbBytes (len : Nat) : Ask (Option (List UInt8))
  | fbRoom (len : Nat) : Ask (Option Nat)
  | fbStore (bytes : List UInt8) : Ask Unit
  | readi (len : Nat) (offset : Option Nat) : Ask (List UInt8)
  | advance (n : Nat) : Ask Unit
  | writei (bytes : List UInt8) (offset : Option Nat) (append : Bool) : Ask (Option Nat)
  | dirEntries (fd : UInt32) : Ask (Option Nat)
  | nextDirent : Ask (Option (Option (Fin USER_DIRENT_SIZE → UInt8)))
  | clock : Ask (Fin TIMESPEC_SIZE → UInt8)
  | timeofday : Ask (Fin TIMEVAL_SIZE → UInt8)
  | sleep (req : List UInt8) : Ask Int
  | setBlocked (how set : UInt32) : Ask (Option UInt32)
  | cwdPath : Ask (Option (List UInt8))
  | poll (entries : List UInt8) (timeout : UInt32) : Ask (Option (List UInt8 × Int))
  | ioctl (fd cmd : UInt32) : Ask (Option (List UInt8))
  | statFd (fd : UInt32) : Ask (Option (Fin STAT_SIZE → UInt8))
  | statPath (follow : Bool) (path : List UInt8) : Ask (Option (Fin STAT_SIZE → UInt8))
  | readlink (path : List UInt8) (len : Nat) : Ask (Option (List UInt8))
  | path (op : PathOp) (path : List UInt8) : Ask Int
  | chown (uid gid : UInt16) (path : List UInt8) : Ask Int
  | truncate (length : Int64) (path : List UInt8) : Ask Int
  | pathPair (op : PathPairOp) (first second : List UInt8) : Ask Int
  | emptyDir (path : List UInt8) : Ask Bool
  | buildImage (path : List UInt8) : Ask (Option Nat)
  | replaceImage : Ask Unit

/-
  Accesses to physical memory for an object at the user
  address `va`.  `place` writes to the frame `stackPa` of a
  new image's top stack page.
-/
inductive Touch : Type → Type where
  | load (va pa n : Nat) : Touch (List UInt8)
  | store (va pa : Nat) (bytes : List UInt8) : Touch Unit
  | place (stackPa va pa : Nat) (bytes : List UInt8) : Touch Unit

inductive UCmd (β : Type) : Type where
  | vm (c : Vm.Cmd β)
  | touch (c : Touch β)
  | ask (q : Ask β)

abbrev UProg := Prog UCmd

-- The Machine

/- Address spaces, physical memory, and the steps so far. -/
structure Machine where
  vm : State
  ram : Ram
  clock : Nat

/- Process `pid` and its page table are the same in both states. -/
def SameSpace (pid : Nat) (s s' : State) : Prop :=
  s'.procs.lookup pid = s.procs.lookup pid ∧
    ∀ root, (s.procs.lookup pid).bind Proc.pagetable = some root →
      s'.tables.lookup root = s.tables.lookup root

/-
  Everything around the call of one process: the answers to
  its questions, and what the other tasks do between its
  commands.  They never touch its address space.
-/
structure World (pid : Nat) where
  reply : Nat → ∀ {β : Type}, Ask β → β
  others : Nat → State → Ram → State × Ram
  keeps : ∀ n s ram, SameSpace pid s (others n s ram).1

def World.turn {pid : Nat} (W : World pid) (m : Machine) : Machine :=
  let r := W.others m.clock m.vm m.ram
  ⟨r.1, r.2, m.clock + 1⟩

def Touch.exec : {β : Type} → Touch β → Machine → β × Machine
  | _, .load _ pa n, m => (m.ram.read pa n, m)
  | _, .store _ pa bytes, m => ((), { m with ram := m.ram.write pa bytes })
  | _, .place _ _ pa bytes, m => ((), { m with ram := m.ram.write pa bytes })

def execUser {pid : Nat} (W : World pid) : Handler UCmd Unit Machine
  | _, .vm c, m =>
    match Vm.exec pid c m.vm with
    | .ok b s => .ok b (W.turn { m with vm := s })
    | .wait => .wait
    | .panic e => .panic e
  | _, .touch c, m => .ok (c.exec m).1 (W.turn (c.exec m).2)
  | _, .ask q, m => .ok (W.reply m.clock q) (W.turn m)

def ask {β : Type} (q : Ask β) : UProg β :=
  Prog.lift (.ask q)

/- The virtual-memory code as a part of a call. -/
def onVm {α : Type} (p : VmProg α) : UProg α := p.subst fun c => Prog.lift (.vm c)

def translateUser (va : Nat) : UProg (Option Nat) := onVm (translateUserPerm va false)

def translateUserWrite (va : Nat) : UProg (Option Nat) := onVm (translateUserPerm va true)

/-
  Copy bytes to `va`, one translation for each.  Returns how
  many were copied before a translation failed.
-/
def copyOut (va i : Nat) : List UInt8 → UProg Nat
  | [] => return i
  | b :: rest => do
      match ← translateUserWrite (addr va i) with
      | none => return i
      | some kva =>
        Prog.lift (.touch (.store (addr va i) kva [b]))
        copyOut va (i + 1) rest

/- Copy `n` bytes from `va`, one translation for each; fewer if a translation fails. -/
def copyIn (va i : Nat) : Nat → UProg (List UInt8)
  | 0 => return []
  | n + 1 => do
      match ← translateUser (addr va i) with
      | none => return []
      | some kva =>
        let b ← Prog.lift (.touch (.load (addr va i) kva 1))
        let rest ← copyIn va (i + 1) n
        return b ++ rest

/- Copy out a structure and return 0, or -1. -/
def copyOutAll (va : Nat) (bytes : List UInt8) : UProg Int := do
  if (← copyOut va 0 bytes) < bytes.length then return -1
  else return 0

/- -1 if nothing was done, else how much. -/
def partialCount (n : Nat) : Int := if n = 0 then -1 else n

def loadUser (va pa n : Nat) : UProg (List UInt8) :=
  Prog.lift (.touch (.load va pa n))

def readUserCstring (va max : Nat) : UProg (Option (List UInt8)) :=
  cstringLoop translateUser loadUser va 0 max

def readUserArgv (argvVa maxArgs maxLen : Nat) : UProg (Option (List (List UInt8))) :=
  argvAt translateUser loadUser argvVa maxArgs maxLen

abbrev WNOHANG : UInt32 := 1

/- The status is written as a whole at the translation of its first byte. -/
def sysWaitpid (pid : Int32) (statusVa : Nat) (options : UInt32) : UProg Int := do
  let filter :=
    if pid > 0 then some pid.toInt.toNat else none
  let nonblock := options &&& WNOHANG != 0
  if statusVa ≠ 0 then
    if (← translateUserWrite statusVa) = none then
      return -1
    else
      match ← ask (.waitFor filter nonblock) with
      | .noChildren => return -1
      | .wouldBlock => return 0
      | .killed => return -1
      | .reaped child code =>
        match ← translateUserWrite statusVa with
        | none => return -1
        | some kva =>
          Prog.lift (.touch
            (.store statusVa kva (toLe 4 code.toNat)))
          return child
  else
    match ← ask (.waitFor filter nonblock) with
    | .noChildren => return -1
    | .wouldBlock => return 0
    | .killed => return -1
    | .reaped child _ => return child

def sysWait (statusVa : Nat) : UProg Int := sysWaitpid (-1) statusVa 0

def sysWait4 (pid : Int32) (statusVa : Nat) (options : UInt32) (rusageVa : Nat) : UProg Int := do
  let r ← sysWaitpid pid statusVa options
  if r > 0 ∧ rusageVa ≠ 0 then
    if (← copyOutAll rusageVa (List.replicate RUSAGE_SIZE 0)) < 0 then
      return -1
    else
      return r
  else
    return r

/- Write descriptors from element `i` on, each as a whole at the translation of its first byte. -/
def putFdsFrom (va i : Nat) : List UInt32 → UProg Bool
  | [] => return true
  | fd :: rest => do
      match ← translateUserWrite (addr va (i * 4)) with
      | none => return false
      | some kva =>
        Prog.lift (.touch
          (.store (addr va (i * 4)) kva (toLe 4 fd.toNat)))
        putFdsFrom va (i + 1) rest

/- Allocate two descriptors and write them to `va`. -/
def putFds (va : Nat) : UProg Int := do
  match ← ask .allocFd with
  | none => return -1
  | some fd₀ =>
    match ← ask .allocFd with
    | none =>
      ask (.closeFd fd₀)
      return -1
    | some fd₁ =>
      if ← putFdsFrom va 0 [fd₀, fd₁] then
        return 0
      else
        ask (.closeFd fd₀)
        ask (.closeFd fd₁)
        return -1

def sysPipe (pipefdVa : Nat) : UProg Int := putFds pipefdVa

def sysSocketpair (svVa : Nat) : UProg Int := putFds svVa

-- Reading

/- A byte that marks the end of the console's input. -/
abbrev EOF_SENTINEL : UInt8 := 4

def consoleRead (bufVa : Nat) (nonblock : Bool) (n : Nat) : Nat → UProg Int
  | 0 => return n
  | left + 1 => do
      match ← ask (.consoleByte nonblock) with
      | none =>
        return if nonblock then partialCount n else -1
      | some b =>
        if b = EOF_SENTINEL then
          if n > 0 then
            ask .consoleUnget
            return n
          else
            return n
        else
          match ← translateUserWrite (addr bufVa n) with
          | none => return -1
          | some kva =>
            Prog.lift
              (.touch (.store (addr bufVa n) kva [b]))
            if b = 10 then return n + 1
            else consoleRead bufVa nonblock (n + 1) left

def pipeRead (bufVa : Nat) (nonblock : Bool) (n : Nat) : Nat → UProg Int
  | 0 => return n
  | left + 1 => do
      match ← ask (.pipeByte nonblock) with
      | .eof => return n
      | .again => return partialCount n
      | .byte b =>
        match ← translateUserWrite (addr bufVa n) with
        | none => return partialCount n
        | some kva =>
          Prog.lift
            (.touch (.store (addr bufVa n) kva [b]))
          if ← ask .pipeIsEmpty then return n + 1
          else pipeRead bufVa nonblock (n + 1) left

/- Copy out what was received, if anything was. -/
def deliver (bufVa : Nat) : Option (List UInt8) → UProg Int
  | none => return -1
  | some bytes => do
      if (← copyOut bufVa 0 bytes) < bytes.length then
        return -1
      else
        return bytes.length

def inputRead (bufVa len : Nat) (nonblock : Bool) : UProg Int := do
  deliver bufVa (← ask (.inputBytes (min len 64) nonblock))

abbrev TCP_IO_CHUNK : Nat := 4096

def tcpRead (bufVa len : Nat) (nonblock : Bool) : UProg Int := do
  deliver bufVa (← ask (.tcpRecv (min len TCP_IO_CHUNK) nonblock))

def fbRead (bufVa len : Nat) : UProg Int := do
  match ← ask (.fbBytes len) with
  | none => return -1
  | some bytes =>
    let n ← copyOut bufVa 0 bytes
    if n < bytes.length then
      return partialCount n
    else
      ask (.advance n)
      return n

def inodeRead (bufVa len : Nat) : UProg Int := do
  let bytes ← ask (.readi len none)
  if (← copyOut bufVa 0 bytes) < bytes.length then
    return -1
  else
    ask (.advance bytes.length)
    return bytes.length

def sysRead (fd : UInt32) (bufVa len : Nat) : UProg Int := do
  if len = 0 then
    return 0
  else
    match ← ask (.getFdEntry fd) with
    | none => return -1
    | some entry =>
      match entry.file with
      | .console => consoleRead bufVa entry.nonblock 0 len
      | .pipeRead => pipeRead bufVa entry.nonblock 0 len
      | .pipeWrite => return -1
      | .unixSocket => pipeRead bufVa entry.nonblock 0 len
      | .tcpSocket => tcpRead bufVa len entry.nonblock
      | .otherSocket => return -1
      | .inode readable _ _ =>
        if readable then inodeRead bufVa len
        else return -1
      | .fb => fbRead bufVa len
      | .input => inputRead bufVa len entry.nonblock

/- `offset` is a position the inode can have. -/
def offsetOk (offset : Int64) : Bool := 0 ≤ offset.toInt && offset.toInt < 2 ^ 32

def sysPread (fd : UInt32) (bufVa len : Nat) (offset : Int64) : UProg Int := do
  if len = 0 then
    return 0
  else if !offsetOk offset then
    return -1
  else
    match ← ask (.getFdEntry fd) with
    | some ⟨.inode true _ _, _⟩ =>
      let bytes ← ask (.readi len (some offset.toInt.toNat))
      if (← copyOut bufVa 0 bytes) < bytes.length then
        return -1
      else
        return bytes.length
    | _ => return -1

-- Writing

/- After a chunk: go on, or return. -/
inductive Took where
  | more (n : Nat)
  | stop (r : Int)

/-
  Copy a user buffer in, a chunk at a time, and hand each
  chunk on.  Every round takes at least one byte.
-/
def writeChunks (chunk : Nat) (consume : Nat → List UInt8 → UProg Took)
    (bufVa len written : Nat) : Nat → UProg Int
  | 0 => return written
  | fuel + 1 => do
      if written < len then
        let n := min (len - written) chunk
        let bytes ← copyIn bufVa written n
        if bytes.length < n then
          return partialCount written
        else
          match ← consume written bytes with
          | .more taken =>
            writeChunks chunk consume bufVa len
              (written + taken) fuel
          | .stop r => return r
      else
        return written

/- What is done with a chunk for the console. -/
def consoleTake (len written : Nat) (bytes : List UInt8) : UProg Took := do
  ask (.consoleWrite bytes)
  let n := written + bytes.length
  if n < len then
    if ← ask .isKilled then return .stop n
    else return .more bytes.length
  else
    return .more bytes.length

def consoleWrite (bufVa len : Nat) : UProg Int := writeChunks 256 (consoleTake len) bufVa len 0 len

abbrev WRITE_CHUNK : Nat := (Log.MAXOPBLOCKS - 1 - 1 - 2) / 2 * BSIZE

/- One transaction for a chunk, at the descriptor's offset or at a given one. -/
def inodeTake (offset : Option Nat) (append : Bool) (written : Nat)
    (bytes : List UInt8) : UProg Took := do
  match ← ask (.writei bytes
      (offset.map fun o => (o + written) % 2 ^ 32)
      append) with
  | none => return .stop (partialCount written)
  | some n =>
    if n < bytes.length then return .stop (written + n)
    else return .more n

def inodeWrite (bufVa len : Nat) (append : Bool) : UProg Int :=
  writeChunks WRITE_CHUNK (inodeTake none append) bufVa len 0 len

def tcpTake (nonblock : Bool) (written : Nat) (bytes : List UInt8) : UProg Took := do
  match ← ask (.tcpSend bytes nonblock) with
  | none => return .stop (partialCount written)
  | some n =>
    if nonblock && n == 0 then
      return .stop (partialCount written)
    else
      return .more n

def tcpWrite (bufVa len : Nat) (nonblock : Bool) : UProg Int :=
  writeChunks TCP_IO_CHUNK (tcpTake nonblock) bufVa len 0 len

def pipeWrite (bufVa : Nat) (nonblock : Bool) (n : Nat) : Nat → UProg Int
  | 0 => return n
  | left + 1 => do
      if ← ask .isKilled then
        return -1
      else
        match ← translateUser (addr bufVa n) with
        | none => return -1
        | some kva =>
          let b ← Prog.lift
            (.touch (.load (addr bufVa n) kva 1))
          match ← ask (.pipePush (b.headD 0) nonblock) with
          | .done => pipeWrite bufVa nonblock (n + 1) left
          | .full => return partialCount n
          | .broken => return -1

def fbWrite (bufVa len : Nat) : UProg Int := do
  match ← ask (.fbRoom len) with
  | none => return -1
  | some n =>
    let bytes ← copyIn bufVa 0 n
    ask (.fbStore bytes)
    if bytes.length < n then
      return partialCount bytes.length
    else
      return n

def sysWrite (fd : UInt32) (bufVa len : Nat) : UProg Int := do
  match ← ask (.getFdEntry fd) with
  | none => return -1
  | some entry =>
    match entry.file with
    | .console => consoleWrite bufVa len
    | .pipeWrite => pipeWrite bufVa entry.nonblock 0 len
    | .pipeRead => return -1
    | .unixSocket => pipeWrite bufVa entry.nonblock 0 len
    | .tcpSocket => tcpWrite bufVa len entry.nonblock
    | .otherSocket => return -1
    | .inode _ writable append =>
      if writable then inodeWrite bufVa len append
      else return -1
    | .fb => fbWrite bufVa len
    | .input => return -1

def sysPwrite (fd : UInt32) (bufVa len : Nat) (offset : Int64) : UProg Int := do
  if len = 0 then
    return 0
  else if !offsetOk offset then
    return -1
  else
    match ← ask (.getFdEntry fd) with
    | some ⟨.inode _ true _, _⟩ =>
      writeChunks WRITE_CHUNK
        (inodeTake (some offset.toInt.toNat) false)
        bufVa len 0 len
    | _ => return -1

-- Records

def sysClockGettime (clk : UInt32) (tsVa : Nat) : UProg Int := do
  if clk ≠ 0 ∧ clk ≠ 1 then return -1
  else copyOutAll tsVa (List.ofFn (← ask .clock))

def sysGettimeofday (tvVa : Nat) : UProg Int := do
  if tvVa = 0 then return -1
  else copyOutAll tvVa (List.ofFn (← ask .timeofday))

def sysNanosleep (reqVa : Nat) : UProg Int := do
  if reqVa = 0 then
    return -1
  else
    let req ← copyIn reqVa 0 TIMESPEC_SIZE
    if req.length < TIMESPEC_SIZE then return -1
    else ask (.sleep req)

/- The entries left in a directory, as far as they fit. -/
def direntsFrom (bufVa len copied : Nat) : Nat → UProg Int
  | 0 => return copied
  | n + 1 => do
      if copied + USER_DIRENT_SIZE ≤ len then
        match ← ask .nextDirent with
        | none => return copied
        | some none => direntsFrom bufVa len copied n
        | some (some dirent) =>
          let bytes := List.ofFn dirent
          if (← copyOut (addr bufVa copied) 0 bytes) <
              bytes.length then
            return -1
          else
            direntsFrom bufVa len
              (copied + USER_DIRENT_SIZE) n
      else
        return copied

def sysGetdents (fd : UInt32) (bufVa len : Nat) : UProg Int := do
  if len < USER_DIRENT_SIZE then
    return -1
  else
    match ← ask (.dirEntries fd) with
    | none => return -1
    | some n => direntsFrom bufVa len 0 n

def sysSigprocmask (how set : UInt32) (oldsetVa : Nat) : UProg Int := do
  match ← ask (.setBlocked how set) with
  | none => return -1
  | some prev =>
    if oldsetVa ≠ 0 then
      copyOutAll oldsetVa (toLe 4 prev.toNat)
    else
      return 0

def sysGetcwd (bufVa len : Nat) : UProg Int := do
  if len = 0 then
    return -1
  else
    match ← ask .cwdPath with
    | none => return -1
    | some path =>
      if path.length + 1 > len then
        return -1
      else if (← copyOut bufVa 0 (path ++ [0])) <
          path.length + 1 then
        return -1
      else
        return path.length

def sysPoll (fdsVa nfds : Nat) (timeout : UInt32) : UProg Int := do
  if nfds > 64 then
    return -1
  else
    let entries ← copyIn fdsVa 0 (nfds * POLLFD_SIZE)
    if entries.length < nfds * POLLFD_SIZE then
      return -1
    else
      match ← ask (.poll entries timeout) with
      | none => return -1
      | some (revents, ready) =>
        if (← copyOut fdsVa 0 revents) <
            revents.length then
          return -1
        else
          return ready

def sysIoctl (fd cmd : UInt32) (arg : Nat) : UProg Int := do
  match ← ask (.ioctl fd cmd) with
  | none => return -1
  | some bytes => copyOutAll arg bytes

def sysFstat (fd : UInt32) (statVa : Nat) : UProg Int := do
  match ← ask (.statFd fd) with
  | none => return -1
  | some st => copyOutAll statVa (List.ofFn st)

-- Paths

abbrev MAX_PATH : Nat := 128

/- `stat` follows the last link, `lstat` does not. -/
def statPath (follow : Bool) (pathVa statVa : Nat) : UProg Int := do
  match ← readUserCstring pathVa MAX_PATH with
  | none => return -1
  | some path =>
    match ← ask (.statPath follow path) with
    | none => return -1
    | some st => copyOutAll statVa (List.ofFn st)

def sysStat : Nat → Nat → UProg Int := statPath true

def sysLstat : Nat → Nat → UProg Int := statPath false

def sysReadlink (pathVa bufVa len : Nat) : UProg Int := do
  match ← readUserCstring pathVa MAX_PATH with
  | none => return -1
  | some path =>
    deliver bufVa (← ask (.readlink path len))

/- Read one path and hand it on. -/
def pathCall (q : List UInt8 → Ask Int) (pathVa : Nat) : UProg Int := do
  match ← readUserCstring pathVa MAX_PATH with
  | none => return -1
  | some path => ask (q path)

/- `chown` asks for root before it reads the path. -/
def sysChown (uid gid : UInt16) (pathVa : Nat) : UProg Int := do
  if (← ask .uid) ≠ 0 then return -1
  else pathCall (.chown uid gid) pathVa

def sysTruncate (pathVa : Nat) (length : Int64) : UProg Int := do
  if length.toInt < 0 ∨ length.toInt > MAXFILE * BSIZE then
    return -1
  else
    pathCall (.truncate length) pathVa

/- `rmdir` reads the path, and `unlink` reads it again. -/
def sysRmdir (pathVa : Nat) : UProg Int := do
  match ← readUserCstring pathVa MAX_PATH with
  | none => return -1
  | some path =>
    if ← ask (.emptyDir path) then
      pathCall (.path .unlink) pathVa
    else
      return -1

def pathPairCall (op : PathPairOp) (firstVa firstMax secondVa : Nat) : UProg Int := do
  match ← readUserCstring firstVa firstMax with
  | none => return -1
  | some first =>
    match ← readUserCstring secondVa MAX_PATH with
    | none => return -1
    | some second => ask (.pathPair op first second)

/- The writes of `placeArgvEnvpOnStack` to the new frame. -/
def putAll (stackPa : Nat) (puts : List (Nat × List UInt8)) : UProg Unit :=
  Prog.forEach puts fun p =>
    Prog.lift (.touch (.place stackPa (STACK_TOP_PAGE_VA + (p.1 - stackPa)) p.1 p.2))

/-
  From the strings to the new image.  `buildImage` replies
  with the frame of the new stack's top page.
-/
def sysExecve (pathVa argvVa envpVa : Nat) : UProg Int := do
  match ← readUserCstring pathVa MAX_PATH with
  | none => return -1
  | some path =>
    match ← readUserArgv argvVa MAX_ARGS MAX_ARG_LEN with
    | none => return -1
    | some argv =>
      match ← readUserArgv envpVa MAX_ARGS
          MAX_ARG_LEN with
      | none => return -1
      | some envp =>
        match ← ask (.buildImage path) with
        | none => return -1
        | some stackPa =>
          match stackWrites stackPa argv envp with
          | none =>
            onVm (Prog.lift .panic)
            return -1
          | some puts =>
            putAll stackPa puts
            ask .replaceImage
            return argv.length

def sysExec (pathVa argvVa : Nat) : UProg Int := sysExecve pathVa argvVa 0

-- Calls

/- The calls with user pointers, and their arguments. -/
inductive UserCall where
  | wait (status : UInt64)
  | waitpid (pid : Int32) (status : UInt64) (options : UInt32)
  | wait4 (pid : Int32) (status : UInt64) (options : UInt32) (rusage : UInt64)
  | pipe (pipefd : UInt64)
  | socketpair (sv : UInt64)
  | read (fd : UInt32) (buf len : UInt64)
  | write (fd : UInt32) (buf len : UInt64)
  | pread (fd : UInt32) (buf len : UInt64) (offset : Int64)
  | pwrite (fd : UInt32) (buf len : UInt64) (offset : Int64)
  | clockGettime (clk : UInt32) (ts : UInt64)
  | gettimeofday (tv : UInt64)
  | nanosleep (req : UInt64)
  | getdents (fd : UInt32) (buf len : UInt64)
  | sigprocmask (how set : UInt32) (oldset : UInt64)
  | getcwd (buf len : UInt64)
  | poll (fds nfds : UInt64) (timeout : UInt32)
  | ioctl (fd cmd : UInt32) (arg : UInt64)
  | fstat (fd : UInt32) (stat : UInt64)
  | stat (path stat : UInt64)
  | lstat (path stat : UInt64)
  | readlink (path buf len : UInt64)
  | onPath (op : PathOp) (path : UInt64)
  | chown (path : UInt64) (uid gid : UInt16)
  | truncate (path : UInt64) (length : Int64)
  | rmdir (path : UInt64)
  | link (old new : UInt64)
  | rename (old new : UInt64)
  | symlink (target link : UInt64)
  | exec (path argv : UInt64)
  | execve (path argv envp : UInt64)

def UserCall.prog : UserCall → UProg Int
  | .wait status => sysWait status.toNat
  | .waitpid pid status options => sysWaitpid pid status.toNat options
  | .wait4 pid status options rusage => sysWait4 pid status.toNat options rusage.toNat
  | .pipe pipefd => sysPipe pipefd.toNat
  | .socketpair sv => sysSocketpair sv.toNat
  | .read fd buf len => sysRead fd buf.toNat len.toNat
  | .write fd buf len => sysWrite fd buf.toNat len.toNat
  | .pread fd buf len offset => sysPread fd buf.toNat len.toNat offset
  | .pwrite fd buf len offset => sysPwrite fd buf.toNat len.toNat offset
  | .clockGettime clk ts => sysClockGettime clk ts.toNat
  | .gettimeofday tv => sysGettimeofday tv.toNat
  | .nanosleep req => sysNanosleep req.toNat
  | .getdents fd buf len => sysGetdents fd buf.toNat len.toNat
  | .sigprocmask how set oldset => sysSigprocmask how set oldset.toNat
  | .getcwd buf len => sysGetcwd buf.toNat len.toNat
  | .poll fds nfds timeout => sysPoll fds.toNat nfds.toNat timeout
  | .ioctl fd cmd arg => sysIoctl fd cmd arg.toNat
  | .fstat fd st => sysFstat fd st.toNat
  | .stat path st => sysStat path.toNat st.toNat
  | .lstat path st => sysLstat path.toNat st.toNat
  | .readlink path buf len => sysReadlink path.toNat buf.toNat len.toNat
  | .onPath op path => pathCall (.path op) path.toNat
  | .chown path uid gid => sysChown uid gid path.toNat
  | .truncate path length => sysTruncate path.toNat length
  | .rmdir path => sysRmdir path.toNat
  | .link old new => pathPairCall .link old.toNat MAX_PATH new.toNat
  | .rename old new => pathPairCall .rename old.toNat MAX_PATH new.toNat
  | .symlink target new => pathPairCall .symlink target.toNat 256 new.toNat
  | .exec path argv => sysExec path.toNat argv.toNat
  | .execve path argv envp => sysExecve path.toNat argv.toNat envp.toNat

end UserCopy

end PlayXv6
