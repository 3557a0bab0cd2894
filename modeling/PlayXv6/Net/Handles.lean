import PlayXv6.Lib.Machine
import PlayXv6.Lib.Holders

/-
  Sockets over TCP and the handles they stand for.

  A TCP socket of the kernel is a handle into one of the two
  socket sets of the network stack.  `connect` and `bind` add
  a handle, `accept` gives the handle of the listening socket
  to a new connection and adds another one, and the handles
  of connections that are dropped go to the garbage list,
  from which the net task removes them.

  What the stack itself does is left open: the slot it gives
  to a handle, whether it accepts a call, when a peer arrives
  and which handles are still active are chosen at each step.
  Calls are interleaved where they wait: in `accept` for a
  peer and in `connect` for the connection.

  Main declarations:
    * `NetHandle`, `Net`, `Act`
    * `Net.step`
-/

namespace PlayXv6

namespace Tcp

structure Ipv4Address where
  a : Nat
  b : Nat
  c : Nat
  d : Nat
  deriving DecidableEq, Repr

def UNSPECIFIED : Ipv4Address := ⟨0, 0, 0, 0⟩

/- A slot in the set of the NIC or of the loopback. -/
structure NetHandle where
  eth : Bool
  handle : Nat
  deriving DecidableEq, Repr

inductive Domain where
  | unix
  | inet
  deriving DecidableEq, Repr

inductive SockState where
  | fresh (domain : Domain)
  -- the states `Listening` and `Connected` of AF_UNIX
  | unix
  | tcp (handle : NetHandle)
  | tcpListening (port : Nat) (handle : NetHandle)
  deriving DecidableEq, Repr

/- Who keeps a socket alive: a descriptor, or a call on it. -/
inductive Ref where
  | fd
  | call (t : Nat)
  deriving DecidableEq, Repr

structure Socket where
  state : SockState
  refs : List Ref
  deriving DecidableEq, Repr

inductive Phase where
  | idle
  | accepting (sock port : Nat) (handle : NetHandle)
  -- the call owns the connection
  | connecting (sock : Nat) (handle : NetHandle)
  deriving DecidableEq, Repr

/-
  The network stack with its sockets.  `eth` tells whether
  there is a NIC, `sets` are the handles in both sets.
-/
structure Net where
  eth : Bool
  sets : List NetHandle
  gc : List NetHandle
  sockets : Nat → Option Socket
  phase : Nat → Phase

def Net.boot (eth : Bool) : Net where
  eth := eth
  sets := []
  gc := []
  sockets := fun _ => none
  phase := fun _ => .idle

namespace Net

def slotFree (s : Net) (eth : Bool) (slot : Nat) : Bool :=
  decide (NetHandle.mk eth slot ∉ s.sets)

/- Add a socket in the slot; fails without the NIC. -/
def fresh (s : Net) (eth : Bool) (slot : Nat) : Option (NetHandle × Net) :=
  if eth && !s.eth then
    none
  else
    some (⟨eth, slot⟩, { s with sets := ⟨eth, slot⟩ :: s.sets })

def remove (s : Net) (h : NetHandle) : Net := { s with sets := s.sets.erase h }

/- The interface that owns an address to listen on. -/
def listenEth (s : Net) (addr : Ipv4Address) : Bool :=
  if addr.a = 127 then false
  else if addr = UNSPECIFIED then s.eth
  else true

/- `ok` is the answer of the stack to the call it gets. -/
def arm (s : Net) (eth : Bool) (slot : Nat) (ok : Bool) : Option NetHandle × Net :=
  match s.fresh eth slot with
  | none => (none, s)
  | some (h, s') => if ok then (some h, s') else (none, s'.remove h)

def listen (s : Net) (addr : Ipv4Address) (slot : Nat) (ok : Bool) : Option NetHandle × Net :=
  s.arm (s.listenEth addr) slot ok

def isEthAddr (addr : Ipv4Address) : Bool :=
  decide (addr.a ≠ 127)

def connect (s : Net) (addr : Ipv4Address) (slot : Nat) (ok : Bool) : Option NetHandle × Net :=
  s.arm (isEthAddr addr) slot ok

/- The answer of the stack is ignored here. -/
def relisten (s : Net) (like : NetHandle) (slot : Nat) : Option NetHandle × Net :=
  match s.fresh like.eth slot with
  | none => (none, s)
  | some (h, s') => (some h, s')

def sockDrop (s : Net) (h : NetHandle) : Net := { s with gc := s.gc ++ [h] }

def setSocket (s : Net) (sock : Nat) (x : Option Socket) : Net :=
  { s with sockets := Function.update s.sockets sock x }

def setPhase (s : Net) (t : Nat) (p : Phase) : Net :=
  { s with phase := Function.update s.phase t p }

def getFile (s : Net) (sock : Nat) : Option Socket :=
  (s.sockets sock).filter fun x => decide (Ref.fd ∈ x.refs)

/-
  Drop a reference.  With the last one the state is dropped,
  and a connection in it hands its handle to the garbage list.
-/
def dropRef (s : Net) (sock : Nat) (ref : Ref) : Net :=
  match s.sockets sock with
  | none => s
  | some x =>
    if x.refs.erase ref = [] then
      match x.state with
      | .tcp h => (s.setSocket sock none).sockDrop h
      | _ => s.setSocket sock none
    else
      s.setSocket sock (some { x with refs := x.refs.erase ref })

end Net

/-
  The sweep of the net task over the garbage list: what is
  left of it, and of the sets.  The stack panics on a handle
  that is not in its set.
-/
def reapLoop (active : NetHandle → Bool) : List NetHandle → List NetHandle →
      Option (List NetHandle × List NetHandle)
  | [], sets => some ([], sets)
  | h :: gc, sets =>
    if h ∈ sets then
      if active h then
        (reapLoop active gc sets).map fun (kept, sets) => (h :: kept, sets)
      else
        reapLoop active gc (sets.erase h)
    else
      none

-- Steps

inductive Act where
  | socket (sock : Nat) (domain : Domain)
  | bind (sock : Nat) (addr : Ipv4Address) (port slot : Nat) (ok : Bool)
  -- a bind or connect of AF_UNIX comes to its end
  | unixDone (sock : Nat)
  -- `accept` reads the state of the socket and waits
  | accept (t sock : Nat)
  | acceptKilled (t : Nat)
  -- a peer is there; `new` is the socket of the connection
  | acceptDone (t slot new : Nat) (fdFree : Bool)
  | connect (t sock : Nat) (addr : Ipv4Address) (slot : Nat) (ok : Bool)
  | connectDone (t : Nat) (established : Bool)
  -- another descriptor for the socket
  | dup (sock : Nat)
  | close (sock : Nat)
  | reap (active : NetHandle → Bool)

namespace Net

def stepBind (s : Net) (sock : Nat) (addr : Ipv4Address) (port slot : Nat)
    (ok : Bool) : Option Net :=
  match s.getFile sock with
  | some ⟨.fresh .inet, refs⟩ =>
    if s.slotFree (s.listenEth addr) slot then
      match s.listen addr slot ok with
      | (some h, s') =>
        some (s'.setSocket sock (some ⟨.tcpListening port h, refs⟩))
      | (none, s') => some s'
    else
      none
  | _ => none

def stepAccept (s : Net) (t sock : Nat) : Option Net :=
  match s.phase t, s.getFile sock with
  | .idle, some ⟨.tcpListening port h, refs⟩ =>
    some ((s.setSocket sock (some ⟨.tcpListening port h, .call t :: refs⟩)).setPhase
        t (.accepting sock port h))
  | _, _ => none

def stepAcceptKilled (s : Net) (t : Nat) : Option Net :=
  match s.phase t with
  | .accepting sock _ _ => some ((s.setPhase t .idle).dropRef sock (.call t))
  | _ => none

/- The listening state takes the new handle. -/
def rearm (s : Net) (sock : Nat) (newHandle : Option NetHandle) : Net :=
  match s.sockets sock, newHandle with
  | some ⟨.tcpListening port _, refs⟩, some h =>
    s.setSocket sock (some ⟨.tcpListening port h, refs⟩)
  | _, _ => s

/- The new connection gets a descriptor, or is dropped. -/
def deliver (s : Net) (h : NetHandle) (new : Nat) (fdFree : Bool) : Net :=
  if fdFree then s.setSocket new (some ⟨.tcp h, [.fd]⟩)
  else s.sockDrop h

def stepAcceptDone (s : Net) (t slot new : Nat) (fdFree : Bool) : Option Net :=
  match s.phase t with
  | .accepting sock _ h =>
    if h ∈ s.sets ∧ s.slotFree h.eth slot ∧ s.sockets new = none then
      let (newHandle, s₁) := s.relisten h slot
      let s₂ := (s₁.rearm sock newHandle).deliver h new fdFree
      some ((s₂.setPhase t .idle).dropRef sock (.call t))
    else
      none
  | _ => none

def stepConnect (s : Net) (t sock : Nat) (addr : Ipv4Address) (slot : Nat)
    (ok : Bool) : Option Net :=
  match s.phase t, s.getFile sock with
  | .idle, some ⟨.fresh .inet, refs⟩ =>
    if s.slotFree (isEthAddr addr) slot then
      match s.connect addr slot ok with
      | (some h, s') =>
        some ((s'.setSocket sock (some ⟨.fresh .inet, .call t :: refs⟩)).setPhase
            t (.connecting sock h))
      | (none, s') => some s'
    else
      none
  | _, _ => none

/- The connection becomes the state of the socket. -/
def install (s : Net) (sock : Nat) (h : NetHandle) (established : Bool) : Net :=
  match established, s.sockets sock with
  | true, some ⟨.fresh _, refs⟩ => s.setSocket sock (some ⟨.tcp h, refs⟩)
  | _, _ => s.sockDrop h

def stepConnectDone (s : Net) (t : Nat) (established : Bool) : Option Net :=
  match s.phase t with
  | .connecting sock h =>
    some (((s.setPhase t .idle).install sock h established).dropRef sock (.call t))
  | _ => none

def step (s : Net) : Act → Option Net
  | .socket sock domain =>
    match s.sockets sock with
    | none => some (s.setSocket sock (some ⟨.fresh domain, [.fd]⟩))
    | some _ => none
  | .bind sock addr port slot ok => s.stepBind sock addr port slot ok
  | .unixDone sock =>
    match s.sockets sock with
    | some ⟨.fresh .unix, refs⟩ => some (s.setSocket sock (some ⟨.unix, refs⟩))
    | _ => none
  | .accept t sock => s.stepAccept t sock
  | .acceptKilled t => s.stepAcceptKilled t
  | .acceptDone t slot new fdFree => s.stepAcceptDone t slot new fdFree
  | .connect t sock addr slot ok => s.stepConnect t sock addr slot ok
  | .connectDone t established => s.stepConnectDone t established
  | .dup sock =>
    match s.getFile sock with
    | some x =>
      some (s.setSocket sock (some { x with refs := .fd :: x.refs }))
    | none => none
  | .close sock =>
    match s.getFile sock with
    | some _ => some (s.dropRef sock .fd)
    | none => none
  | .reap active =>
    (reapLoop active s.gc s.sets).map fun (gc, sets) => { s with gc := gc, sets := sets }

end Net

/- The TCP connection in a socket or in a call of `connect`,
   the listening state of a socket, or the garbage list. -/
inductive Owner where
  | conn (sock : Nat)
  | dial (t : Nat)
  | listening (sock : Nat)
  | garbage
  deriving DecidableEq, Repr

def SockState.conn : SockState → List NetHandle
  | .tcp h => [h]
  | _ => []

def SockState.listening : SockState → List NetHandle
  | .tcpListening _ h => [h]
  | _ => []

def Phase.dial : Phase → List NetHandle
  | .connecting _ h => [h]
  | _ => []

def connOf : Option Socket → List NetHandle
  | some x => x.state.conn
  | none => []

def listeningOf : Option Socket → List NetHandle
  | some x => x.state.listening
  | none => []

def Net.held (s : Net) : Owner → List NetHandle
  | .conn sock => connOf (s.sockets sock)
  | .dial t => (s.phase t).dial
  | .listening sock => listeningOf (s.sockets sock)
  | .garbage => s.gc

/- The handles in the sets have one owner each. -/
def Owned (s : Net) : Prop := Holders s.held (· ∈ s.sets)

/- The reference is the last one of a listening socket. -/
def Net.lastListening (s : Net) (sock : Nat) (ref : Ref) : Bool :=
  match s.sockets sock with
  | some ⟨.tcpListening _ _, refs⟩ => decide (refs.erase ref = [])
  | _ => false

/-
  No listening socket is dropped, and a call of `accept` comes
  to its end only while the handle it read is still the one
  its socket listens with.
-/
def Net.ok (s : Net) : Act → Bool
  | .close sock => !s.lastListening sock .fd
  | .acceptKilled t =>
    match s.phase t with
    | .accepting sock _ _ => !s.lastListening sock (.call t)
    | _ => true
  | .acceptDone t _ _ _ =>
    match s.phase t with
    | .accepting sock _ h =>
      decide (h ∈ s.held (.listening sock)) && !s.lastListening sock (.call t)
    | _ => true
  | .connectDone t _ =>
    match s.phase t with
    | .connecting sock _ => !s.lastListening sock (.call t)
    | _ => true
  | _ => true

end Tcp

end PlayXv6
