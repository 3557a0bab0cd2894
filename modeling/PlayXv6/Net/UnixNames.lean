import PlayXv6.Net.Handles

/-
  AF_UNIX sockets and the nodes they are bound to.

  `bind` creates a socket node at its path and registers the
  new listener under the inode number of the node; `connect`
  resolves its path to a node and looks the number up.  The
  registry holds listeners weakly: an entry counts as long as
  somebody has a strong reference, which are the socket, the
  call of `bind` until it has stored the listener in its
  socket, and the calls of `connect` that have looked it up.

  The names are those of directory entries, so a name denotes
  at most one inode.  A node that is unlinked and referred to
  by no call is freed, and `ialloc` takes the first inode that
  is free.  Calls are interleaved wherever another hart can
  come in between: each section under one lock is a step.

  Main declarations:
    * `Sys.step`
    * `Enqueues`, `Routed`
    * `Sys.ok`
-/

namespace PlayXv6

open Function

namespace UnixSock

open Tcp (Ref)

-- State

abbrev SOCK_BACKLOG_CAP : Nat := 16

/-
  An inode.  `refs` are the calls that hold it, `creator` is
  the number of the bind call that created it.
-/
structure Node where
  isSock : Bool
  linked : Bool
  refs : List Nat
  creator : Option Nat
  deriving DecidableEq, Repr

/-
  A listener, with the strong references to it: the socket
  while it is open, and calls of `bind` and `connect`.
-/
structure Listener where
  inum : Nat
  backlog : List Nat
  owned : Bool
  calls : List Nat
  deriving DecidableEq, Repr

inductive SockState where
  | fresh
  | listening (l : Nat)
  | connected
  deriving DecidableEq, Repr

structure Sock where
  state : SockState
  refs : List Ref
  deriving DecidableEq, Repr

section Model

variable {P : Type}

inductive Phase (P : Type) where
  | idle
  -- about to create the node
  | binding (sock : Nat) (path : P)
  -- the node is there, the listener is about to be registered
  | created (sock : Nat) (path : P) (inum id : Nat)
  -- about to store the listener in the socket
  | registered (sock : Nat) (path : P) (inum id : Nat)
  -- about to resolve the path
  | connecting (sock : Nat) (path : P)
  -- about to look the inode number up
  | resolved (sock : Nat) (path : P) (inum : Nat)
  -- about to put the connection on the backlog
  | found (sock : Nat) (path : P) (inum l : Nat)
  -- about to set the state of the socket
  | queued (sock inum l : Nat)
  deriving DecidableEq, Repr

/- `serial` numbers the bind calls and their listeners. -/
structure Sys (P : Type) where
  ninodes : Nat
  inodes : Nat → Option Node
  entries : P → Option Nat
  sockets : Nat → Option Sock
  listeners : Nat → Option Listener
  registry : List (Nat × Nat)
  phase : Nat → Phase P
  serial : Nat

/- Inode 1 is the root directory. -/
def Sys.boot (ninodes : Nat) : Sys P where
  ninodes := ninodes
  inodes := fun i => if i = 1 then some ⟨false, true, [], none⟩ else none
  entries := fun _ => none
  sockets := fun _ => none
  listeners := fun _ => none
  registry := []
  phase := fun _ => .idle
  serial := 0

namespace Sys

def setInode (s : Sys P) (inum : Nat) (n : Option Node) : Sys P :=
  { s with inodes := update s.inodes inum n }

def ialloc (s : Sys P) : Option Nat :=
  (List.range' 1 (s.ninodes - 1)).find? fun i => (s.inodes i).isNone

variable [DecidableEq P]

/- Link a new node at a path that denotes nothing. -/
def create (s : Sys P) (path : P) (n : Node) : Option (Nat × Sys P) :=
  match s.entries path, s.ialloc with
  | none, some inum =>
    some (inum, { s.setInode inum (some n) with
      entries := update s.entries path (some inum) })
  | _, _ => none

def unlink (s : Sys P) (path : P) : Option (Sys P) :=
  match s.entries path with
  | none => none
  | some inum =>
    match s.inodes inum with
    | none => none
    | some n =>
      some { s.setInode inum (some { n with linked := false }) with
        entries := update s.entries path none }

omit [DecidableEq P] in
def holdNode (s : Sys P) (inum t : Nat) : Sys P :=
  s.setInode inum ((s.inodes inum).map fun n =>
    { n with refs := t :: n.refs })

def releaseNode (s : Sys P) (inum t : Nat) : Sys P :=
  s.setInode inum ((s.inodes inum).map fun n =>
    { n with refs := n.refs.erase t })

/- A listener goes with its last strong reference. -/
def setListener (s : Sys P) (l : Nat) (x : Listener) : Sys P :=
  { s with
    listeners := update s.listeners l
      (if x.owned || decide (x.calls ≠ []) then some x
        else none) }

def releaseListener (s : Sys P) (l t : Nat) : Sys P :=
  match s.listeners l with
  | none => s
  | some x => s.setListener l { x with calls := x.calls.erase t }

def sockRegister (s : Sys P) (inum id : Nat) : Sys P :=
  { s with registry := s.registry ++ [(inum, id)] }

def liveEntries (s : Sys P) : List (Nat × Nat) :=
  s.registry.filter fun e => (s.listeners e.2).isSome

/- The first entry counts; dead ones are purged. -/
def sockLookup (s : Sys P) (inum : Nat) : Option Nat × Sys P :=
  ((s.liveEntries.find? fun e => e.1 = inum).map Prod.snd,
    { s with registry := s.liveEntries })

def setSocket (s : Sys P) (k : Nat) (x : Option Sock) : Sys P :=
  { s with sockets := update s.sockets k x }

def setPhase (s : Sys P) (t : Nat) (p : Phase P) : Sys P :=
  { s with phase := update s.phase t p }

def getFile (s : Sys P) (k : Nat) : Option Sock :=
  (s.sockets k).filter fun x => decide (Ref.fd ∈ x.refs)

def dropRef (s : Sys P) (k : Nat) (ref : Ref) : Sys P :=
  match s.sockets k with
  | none => s
  | some x =>
    if x.refs.erase ref = [] then
      match x.state with
      | .listening l =>
        match s.listeners l with
        | some y =>
          (s.setSocket k none).setListener l { y with owned := false }
        | none => s.setSocket k none
      | _ => s.setSocket k none
    else
      s.setSocket k (some { x with refs := x.refs.erase ref })

def endCall (s : Sys P) (t k : Nat) (inum l : Option Nat) : Sys P :=
  let s₁ := l.elim s fun l => s.releaseListener l t
  let s₂ := inum.elim s₁ fun inum => s₁.releaseNode inum t
  (s₂.setPhase t .idle).dropRef k (.call t)

end Sys

-- Steps

inductive Act (P : Type) where
  | socket (k : Nat)
  -- a file, a directory or a device is created
  | create (path : P)
  | unlink (path : P)
  -- an inode without a name and without holders is freed
  | reclaim (inum : Nat)
  | bind (t k : Nat) (path : P)
  | bindCreate (t : Nat)
  | bindRegister (t : Nat)
  | bindDone (t : Nat)
  | connect (t k : Nat) (path : P)
  | resolve (t : Nat)
  | lookup (t : Nat)
  | push (t : Nat)
  | finish (t : Nat)
  -- a connection is taken from the backlog
  | accept (k : Nat)
  | dup (k : Nat)
  | close (k : Nat)

namespace Sys

variable [DecidableEq P]

/- `bind` and `connect` start on a fresh socket. -/
def startCall (s : Sys P) (t k : Nat) (p : Phase P) : Option (Sys P) :=
  match s.phase t, s.getFile k with
  | .idle, some ⟨.fresh, refs⟩ =>
    some ((s.setSocket k (some ⟨.fresh, .call t :: refs⟩)).setPhase t p)
  | _, _ => none

def stepBindCreate (s : Sys P) (t : Nat) : Option (Sys P) :=
  match s.phase t with
  | .binding k path =>
    match s.create path ⟨true, true, [t], some s.serial⟩ with
    | some (inum, s') =>
      some { s'.setPhase t (.created k path inum s.serial) with
        serial := s.serial + 1 }
    | none => some (s.endCall t k none none)
  | _ => none

/- `sock_register`, with the call holding the new listener. -/
def stepBindRegister (s : Sys P) (t : Nat) : Option (Sys P) :=
  match s.phase t with
  | .created k path inum id =>
    some (((s.sockRegister inum id).setListener id
      ⟨inum, [], false, [t]⟩).setPhase t (.registered k path inum id))
  | _ => none

def stepBindDone (s : Sys P) (t : Nat) : Option (Sys P) :=
  match s.phase t with
  | .registered k _ inum id =>
    match s.sockets k, s.listeners id with
    | some ⟨.fresh, refs⟩, some y =>
      some (((s.setSocket k (some ⟨.listening id, refs⟩)).setListener id
        { y with owned := true }).endCall t k (some inum) (some id))
    -- raced with another call: the listener is dropped
    | _, _ => some (s.endCall t k (some inum) (some id))
  | _ => none

def stepResolve (s : Sys P) (t : Nat) : Option (Sys P) :=
  match s.phase t with
  | .connecting k path =>
    match s.entries path with
    | some inum =>
      some ((s.holdNode inum t).setPhase t (.resolved k path inum))
    | none => some (s.endCall t k none none)
  | _ => none

def stepLookup (s : Sys P) (t : Nat) : Option (Sys P) :=
  match s.phase t with
  | .resolved k path inum =>
    if (s.inodes inum).any Node.isSock then
      match s.sockLookup inum with
      | (some l, s₁) =>
        match s₁.listeners l with
        | some y =>
          some ((s₁.setListener l
            { y with calls := t :: y.calls }).setPhase t
              (.found k path inum l))
        | none => none
      | (none, s₁) => some (s₁.endCall t k (some inum) none)
    else
      some (s.endCall t k (some inum) none)
  | _ => none

def stepPush (s : Sys P) (t : Nat) : Option (Sys P) :=
  match s.phase t with
  | .found k _ inum l =>
    match s.listeners l with
    | none => none
    | some y =>
      if SOCK_BACKLOG_CAP ≤ y.backlog.length then
        some (s.endCall t k (some inum) (some l))
      else
        some ((s.setListener l
          { y with backlog := y.backlog ++ [t] }).setPhase t
            (.queued k inum l))
  | _ => none

def stepFinish (s : Sys P) (t : Nat) : Option (Sys P) :=
  match s.phase t with
  | .queued k inum l =>
    match s.sockets k with
    | some ⟨.fresh, refs⟩ =>
      some ((s.setSocket k (some ⟨.connected, refs⟩)).endCall t k
        (some inum) (some l))
    | _ => some (s.endCall t k (some inum) (some l))
  | _ => none

def stepAccept (s : Sys P) (k : Nat) : Option (Sys P) :=
  match s.getFile k with
  | some ⟨.listening l, _⟩ =>
    match s.listeners l with
    | some ⟨inum, _ :: backlog, owned, calls⟩ =>
      some (s.setListener l ⟨inum, backlog, owned, calls⟩)
    | _ => none
  | _ => none

def step (s : Sys P) : Act P → Option (Sys P)
  | .socket k =>
    match s.sockets k with
    | none => some (s.setSocket k (some ⟨.fresh, [.fd]⟩))
    | some _ => none
  | .create path => (s.create path ⟨false, true, [], none⟩).map Prod.snd
  | .unlink path => s.unlink path
  | .reclaim inum =>
    match s.inodes inum with
    | some ⟨_, false, [], _⟩ => some (s.setInode inum none)
    | _ => none
  | .bind t k path => s.startCall t k (.binding k path)
  | .bindCreate t => s.stepBindCreate t
  | .bindRegister t => s.stepBindRegister t
  | .bindDone t => s.stepBindDone t
  | .connect t k path => s.startCall t k (.connecting k path)
  | .resolve t => s.stepResolve t
  | .lookup t => s.stepLookup t
  | .push t => s.stepPush t
  | .finish t => s.stepFinish t
  | .accept k => s.stepAccept k
  | .dup k =>
    match s.getFile k with
    | some x =>
      some (s.setSocket k (some { x with refs := .fd :: x.refs }))
    | none => none
  | .close k =>
    match s.getFile k with
    | some _ => some (s.dropRef k .fd)
    | none => none

end Sys

def Phase.binds (l : Nat) : Phase P → Bool
  | .created _ _ _ id => decide (id = l)
  | _ => false

namespace Sys

/- The bind call of `l` is not over, or `l` is in use. -/
def inUse (s : Sys P) (n : Node) (l : Nat) : Bool :=
  (s.listeners l).isSome || n.refs.any fun t => (s.phase t).binds l

/- Dropping the reference does not close a listening socket
   whose listener a call of `connect` is about to use. -/
def dropOk (s : Sys P) (k : Nat) (ref : Ref) : Bool :=
  match s.sockets k with
  | some ⟨.listening l, refs⟩ =>
    decide (refs.erase ref ≠ []) ||
      (s.listeners l).all fun y => decide (y.calls = [])
  | _ => true

/- A call that ends has let go of its own listener before. -/
def callOk (s : Sys P) (t : Nat) : Bool :=
  match s.phase t with
  | .idle => true
  | .binding k _ => s.dropOk k (.call t)
  | .created _ _ _ _ => true
  | .registered k _ _ l => (s.releaseListener l t).dropOk k (.call t)
  | .connecting k _ => s.dropOk k (.call t)
  | .resolved k _ _ => s.dropOk k (.call t)
  | .found k _ _ l => (s.releaseListener l t).dropOk k (.call t)
  | .queued k _ l => (s.releaseListener l t).dropOk k (.call t)

/- The listener that a call of `connect` looks up, if any, has been stored in its socket. -/
def lookupOk (s : Sys P) (t : Nat) : Bool :=
  match s.phase t with
  | .resolved _ _ inum =>
    ((s.sockLookup inum).1.bind s.listeners).all Listener.owned
  | _ => true

/-
  No node of an open listening socket, or of a bind call that
  is not over, is unlinked, and no listening socket is closed
  while a call of `connect` is about to use its listener.  No
  call of `connect` finds a listener that is registered and
  not yet stored: the bind call may still lose the socket to
  another call.
-/
def ok (s : Sys P) : Act P → Bool
  | .unlink path =>
    match s.entries path with
    | some inum =>
      (s.inodes inum).all fun n => n.creator.all fun l => !s.inUse n l
    | none => true
  | .close k => s.dropOk k .fd
  | .bindCreate t => s.callOk t
  | .bindDone t => s.callOk t
  | .resolve t => s.callOk t
  | .lookup t => s.callOk t && s.lookupOk t
  | .push t => s.callOk t
  | .finish t => s.callOk t
  | _ => true

end Sys

end Model

end UnixSock

end PlayXv6
