import PlayXv6.Net.Ownership

/-
  The local ports of outgoing connections.

  `ephemeral_port` counts in a static of 16 bits that starts
  at the bottom of the dynamic range.  A call of `connect`
  takes its port there and hands it to the stack later, so
  other calls may come in between.  The sockets themselves
  are left out: every run of the socket calls is matched by
  one of the ports.

  Main declarations:
    * `Ports.step`
    * `unshared_of_reach`
-/

namespace PlayXv6

open Function Machine

namespace Tcp

/- The port, and `NEXT` afterwards. -/
def ephemeralPort (next : Nat) : Nat × Nat :=
  (if next = 0 then 49152 else next, (next + 1) % 2 ^ 16)

/- Who has a local port: a call of `connect`, or a socket. -/
inductive Dial where
  | call (t : Nat)
  | conn (h : NetHandle)
  deriving DecidableEq

/-
  The outgoing and the listening sockets of both sets.
  `bound` are the ports of all calls of `bind`: a call of
  `accept` has read its port from one of them.
-/
structure Ports where
  next : Nat
  chosen : Dial → Option Nat
  listening : NetHandle → Option Nat
  bound : List Nat

namespace Ports

def boot : Ports where
  next := 49152
  chosen := fun _ => none
  listening := fun _ => none
  bound := []

inductive Act where
  | ephemeralPort (t : Nat)
  | connect (t : Nat) (h : NetHandle)
  -- there is no NIC, or the stack rejects the call
  | reject (t : Nat)
  | bind (h : NetHandle) (port : Nat)
  -- `h` becomes the connection and `h'` listens on its port
  | accept (h h' : NetHandle) (port : Nat)
  -- the net task removes a socket that is closed
  | remove (h : NetHandle)

def free (s : Ports) (h : NetHandle) : Prop := s.chosen (.conn h) = none ∧ s.listening h = none

instance (s : Ports) (h : NetHandle) : Decidable (s.free h) := inferInstanceAs (Decidable (_ ∧ _))

def pick (s : Ports) (t : Nat) : Ports :=
  { s with
  next := (ephemeralPort s.next).2
  chosen := update s.chosen (.call t) (some (ephemeralPort s.next).1) }

def step (s : Ports) : Act → Option Ports
  | .ephemeralPort t => if s.chosen (.call t) = none then some (s.pick t) else none
  | .connect t h =>
    if s.chosen (.call t) ≠ none ∧ s.free h then
      some { s with
        chosen := update (update s.chosen (.call t) none) (.conn h) (s.chosen (.call t)) }
    else
      none
  | .reject t => some { s with chosen := update s.chosen (.call t) none }
  | .bind h port =>
    if s.free h then
      some { s with
        listening := update s.listening h (some port)
        bound := port :: s.bound }
    else
      none
  | .accept h h' port =>
    if port ∈ s.bound ∧ h'.eth = h.eth ∧ s.free h' then
      some { s with
        listening := update (update s.listening h none) h' (some port) }
    else
      none
  | .remove h =>
    some { s with
      chosen := update s.chosen (.conn h) none
      listening := update s.listening h none }

/-
  The ports that are chosen are dynamic ports, and on one
  interface none is that of another connection or listener.
-/
def Unshared (s : Ports) : Prop :=
  ∀ o p, s.chosen o = some p → (49152 ≤ p ∧ p ≤ 65535) ∧
  ∀ h, o = .conn h → ∀ h', h'.eth = h.eth →
    s.listening h' ≠ some p ∧ (h' ≠ h → s.chosen (.conn h') ≠ some p)

/- The count has not gone around, and nobody is bound to a port of the dynamic range. -/
def Ok (s : Ports) : Act → Prop
  | .ephemeralPort _ => 49152 ≤ s.next
  | .bind _ port => port < 49152
  | _ => True

instance (s : Ports) : (a : Act) → Decidable (s.Ok a)
  | .ephemeralPort _ => inferInstanceAs (Decidable (_ ≤ _))
  | .bind _ _ => inferInstanceAs (Decidable (_ < _))
  | .connect _ _ | .reject _ | .accept _ _ _ | .remove _ => inferInstanceAs (Decidable True)

def limit (s : Ports) : Nat := if s.next = 0 then 2 ^ 16 else s.next

structure Inv (s : Ports) : Prop where
  next : s.next < 2 ^ 16
  range : ∀ o p, s.chosen o = some p → 49152 ≤ p ∧ p < s.limit
  apart : ∀ o o' p, s.chosen o = some p → s.chosen o' = some p → o = o'
  low : ∀ h p, s.listening h = some p → p < 49152
  bound : ∀ port ∈ s.bound, port < 49152

variable {s s' : Ports}

theorem Inv.unshared (hInv : Inv s) : Unshared s := by
  intro o p hPort
  have hRange := hInv.range o p hPort
  have hLimit : s.limit ≤ 2 ^ 16 := by
    have hNext := hInv.next
    unfold limit
    split <;> omega
  refine ⟨by omega, ?_⟩
  rintro h rfl h' -
  constructor
  · intro hListen
    have hLow := hInv.low h' p hListen
    omega
  · intro hNe hOther
    exact hNe (Dial.conn.inj (hInv.apart _ _ p hOther hPort))

/- One holder gets a port that nobody else has, or gives up its own. -/
theorem Inv.give {o : Dial} {x : Option Nat} (hInv : Inv s)
    (hRange : ∀ p, x = some p → 49152 ≤ p ∧ p < s.limit)
    (hNew : ∀ j p, j ≠ o → x = some p → s.chosen j ≠ some p) :
    Inv { s with chosen := update s.chosen o x } := by
  refine { hInv with range := ?_, apart := alone_update (f := id) hInv.apart hNew }
  intro j p hp
  dsimp only at hp
  change 49152 ≤ p ∧ p < s.limit
  have hOld := hInv.range j p
  rw [update_apply] at hp
  grind

theorem Inv.drop (o : Dial) (hInv : Inv s) : Inv { s with chosen := update s.chosen o none } :=
  hInv.give (by simp) (by simp)

theorem Inv.listen {h : NetHandle} {x : Option Nat} (hInv : Inv s)
    (hLow : ∀ p, x = some p → p < 49152) :
    Inv { s with listening := update s.listening h x } := by
  refine { hInv with low := ?_ }
  intro j p hp
  dsimp only at hp
  have hOld := hInv.low j p
  rw [update_apply] at hp
  grind

/- The port that is handed out is above all that were chosen. -/
theorem Inv.pick {t : Nat} (hInv : Inv s) (hOk : 49152 ≤ s.next) : Inv (s.pick t) := by
  have hNext := hInv.next
  have hPort : (ephemeralPort s.next).1 = s.next := if_neg (by omega)
  have hLimit : s.limit = s.next := if_neg (by omega)
  have hMore : limit { s with next := (ephemeralPort s.next).2 } = s.next + 1 := by
    change (if (s.next + 1) % 2 ^ 16 = 0 then 2 ^ 16 else (s.next + 1) % 2 ^ 16) = s.next + 1
    split <;> omega
  have hRaise : Inv { s with next := (ephemeralPort s.next).2 } := by
    refine { hInv with next := Nat.mod_lt _ (by omega), range := ?_ }
    intro o p hp
    have hRange := hInv.range o p hp
    omega
  unfold Ports.pick
  rw [hPort]
  refine hRaise.give ?_ ?_
  · rintro p ⟨⟩
    omega
  · rintro j p - ⟨⟩ hj
    have hRange := hInv.range j s.next hj
    omega

theorem Inv.step {a : Act} (hInv : Inv s) (hOk : s.Ok a) (hStep : s.step a = some s') : Inv s' := by
  cases a with
  | ephemeralPort t =>
    rcases Option.ite_none_right_eq_some.mp hStep with ⟨_, ⟨⟩⟩
    exact hInv.pick hOk
  | connect t h =>
    rcases Option.ite_none_right_eq_some.mp hStep with ⟨_, ⟨⟩⟩
    refine (hInv.drop (.call t)).give (hInv.range (.call t)) ?_
    intro j p _ hp hj
    by_cases hCall : j = .call t
    · simp [hCall] at hj
    · simp only [update_of_ne hCall] at hj
      exact hCall (hInv.apart _ _ p hj hp)
  | reject t =>
    cases hStep
    exact hInv.drop _
  | bind h port =>
    rcases Option.ite_none_right_eq_some.mp hStep with ⟨_, ⟨⟩⟩
    have hListen := hInv.listen (h := h) (x := some port) fun p hp => Option.some.inj hp ▸ hOk
    exact { hListen with bound := List.forall_mem_cons.mpr ⟨hOk, hInv.bound⟩ }
  | accept h h' port =>
    rcases Option.ite_none_right_eq_some.mp hStep with ⟨⟨hBound, _⟩, ⟨⟩⟩
    refine (hInv.listen (h := h) (x := none) (by simp)).listen ?_
    rintro p ⟨⟩
    exact hInv.bound _ hBound
  | remove h =>
    cases hStep
    exact (hInv.drop (.conn h)).listen (by simp)

theorem Inv.boot : Inv boot := by constructor <;> simp [Ports.boot]

theorem unshared_of_reach (s : Ports) (hReach : Reach step Ok boot s) : Unshared s := by
  have hInv : Inv s := hReach.invariant (fun _ _ _ h hOk => h.step hOk) Inv.boot
  exact hInv.unshared

/- Two connections are open, one on each interface. -/
theorem unshared_of_reach_two : ∃ s, Reach step Ok boot s ∧
    s.chosen (.conn ⟨false, 0⟩) = some 49152 ∧ Unshared s := by
  have hRun : (run step Ok boot [.bind ⟨false, 1⟩ 80, .ephemeralPort 0, .ephemeralPort 1,
      .connect 0 ⟨false, 0⟩, .connect 1 ⟨true, 0⟩, .accept ⟨false, 1⟩ ⟨false, 2⟩ 80]).any
      (fun s => decide (s.chosen (.conn ⟨false, 0⟩) = some 49152)) = true := by decide +kernel
  rcases exists_reach hRun with ⟨s, hReach, hAt⟩
  exact ⟨s, hReach, of_decide_eq_true hAt, unshared_of_reach s hReach⟩

/- Calls that are rejected use up ports. -/
theorem exists_next (n : Nat) : ∃ s, Reach step (fun _ _ => True) boot s ∧
    s.next = (49152 + n) % 2 ^ 16 ∧ s.chosen = fun _ => none := by
  induction n with
  | zero => exact ⟨boot, .refl, rfl, rfl⟩
  | succ n ih =>
    rcases ih with ⟨s, hReach, hNext, hNone⟩
    have hPick : s.step (.ephemeralPort 0) = some (s.pick 0) := if_pos (congrFun hNone _)
    refine ⟨_, (hReach.next trivial hPick).next (a := .reject 0) trivial rfl, ?_, ?_⟩
    · simp only [pick, ephemeralPort, hNext]
      omega
    · simp [pick, hNone]

/- The count goes around and leaves the dynamic range. -/
theorem wrapped_port : ∃ s, Reach step (fun _ _ => True) boot s ∧
    s.chosen (.call 0) = some 1 ∧ ¬Unshared s := by
  rcases exists_next 16385 with ⟨s, hReach, hNext, hNone⟩
  have hNext : s.next = 1 := hNext
  have hPick : s.step (.ephemeralPort 0) = some (s.pick 0) := if_pos (congrFun hNone _)
  have hPort : (s.pick 0).chosen (.call 0) = some 1 := by simp [pick, ephemeralPort, hNext]
  refine ⟨s.pick 0, hReach.next trivial hPick, hPort, ?_⟩
  intro hUnshared
  have hRange := (hUnshared _ _ hPort).1
  omega

end Ports

-- Sockets and Ports

/- The ports of the listening sockets and of the calls of `accept` on them. -/
def Net.ports (n : Net) (port : Nat) : Prop :=
  (∃ sock h refs, n.sockets sock = some ⟨.tcpListening port h, refs⟩) ∨
    ∃ t sock h, n.phase t = .accepting sock port h

/- A handle with a port is in its set, no port waits for a call, and a port is listened on
   since a call of `bind`. -/
structure Follows (n : Net) (p : Ports) : Prop where
  sets : ∀ h, ¬p.free h → h ∈ n.sets
  calls : ∀ t, p.chosen (.call t) = none
  ports : ∀ port, n.ports port → port ∈ p.bound

variable {n n' : Net} {p : Ports}

theorem Follows.frame (hFollows : Follows n p) (hSets : n'.sets = n.sets)
    (hPorts : ∀ port, n'.ports port → n.ports port) : Follows n' p where
  sets h hUsed := by
    rw [hSets]
    exact hFollows.sets h hUsed
  calls := hFollows.calls
  ports port hPort := hFollows.ports port (hPorts port hPort)

section Steps

open Net

variable {sock t port slot new : Nat} {h : NetHandle} {established fdFree : Bool}

theorem Net.ports_setSocket {x : Option Socket} (hPort : (n.setSocket sock x).ports port) :
    n.ports port ∨ ∃ h refs, x = some ⟨.tcpListening port h, refs⟩ := by
  unfold Net.ports Net.setSocket at hPort
  grind [Net.ports, update_apply]

theorem Net.ports_setPhase {x : Phase} (hPort : (n.setPhase t x).ports port) :
    n.ports port ∨ ∃ sock h, x = .accepting sock port h := by
  unfold Net.ports Net.setPhase at hPort
  grind [Net.ports, update_apply]

theorem Net.ports_of_dropRef {ref : Ref} (hPort : (n.dropRef sock ref).ports port) :
    n.ports port := by
  unfold Net.dropRef at hPort
  split at hPort
  · exact hPort
  rename_i x hSock
  split at hPort
  · have hNone : (n.setSocket sock none).ports port := by split at hPort <;> exact hPort
    exact (ports_setSocket hNone).resolve_right (by simp)
  · rcases ports_setSocket hPort with hOld | ⟨h, refs, hEq⟩
    · exact hOld
    · rcases x with ⟨state, refs'⟩
      cases hEq
      exact .inl ⟨sock, h, refs', hSock⟩

theorem Net.ports_of_rearm {o : Option NetHandle} (hPort : (n.rearm sock o).ports port) :
    n.ports port := by
  unfold Net.rearm at hPort
  split at hPort
  · rename_i hSock
    rcases ports_setSocket hPort with hOld | ⟨h, refs, hEq⟩
    · exact hOld
    · cases hEq
      exact .inl ⟨sock, _, _, hSock⟩
  · exact hPort

theorem Net.ports_of_deliver (hPort : (n.deliver h new fdFree).ports port) : n.ports port := by
  unfold Net.deliver at hPort
  split at hPort
  · exact (ports_setSocket hPort).resolve_right (by simp)
  · exact hPort

theorem Net.ports_of_install (hPort : (n.install sock h established).ports port) :
    n.ports port := by
  unfold Net.install at hPort
  split at hPort
  · exact (ports_setSocket hPort).resolve_right (by simp)
  · exact hPort

theorem Net.ports_of_idle (hPort : (n.setPhase t .idle).ports port) : n.ports port :=
  (ports_setPhase hPort).resolve_right (by simp)

/- The ports go on to `p'`, where only `h` may have got a port. -/
theorem Follows.adds {s : Net} {p' : Ports} (hFollows : Follows n p) (hAdds : Adds n s h)
    (hSets : n'.sets = s.sets) (hUsed : ∀ h', ¬p'.free h' → h' = h ∨ ¬p.free h')
    (hCalls : ∀ t, p'.chosen (.call t) = none) (hPorts : ∀ q, n'.ports q → q ∈ p'.bound) :
    Follows n' p' where
  sets h' hUsed' := by
    rw [hSets, hAdds.after]
    exact List.mem_cons.mpr ((hUsed h' hUsed').imp_right (hFollows.sets h'))
  calls := hCalls
  ports := hPorts

theorem Follows.free (hFollows : Follows n p) (hNew : h ∉ n.sets) : p.free h := by
  by_contra hUsed
  exact hNew (hFollows.sets h hUsed)

abbrev Matched (n' : Net) (p : Ports) : Prop :=
  ∃ p', Reach Ports.step (fun _ _ => True) p p' ∧ Follows n' p'

theorem Follows.stepBind {addr : Ipv4Address} {ok : Bool} (hFollows : Follows n p)
    (hStep : n.stepBind sock addr port slot ok = some n') : Matched n' p := by
  rcases stepBind_cases hStep with rfl | ⟨refs, h, s, hSock, hAdds, rfl⟩
  · exact ⟨p, .refl, hFollows⟩
  have hBind : p.step (.bind h port) = _ := if_pos (hFollows.free hAdds.new)
  refine ⟨_, .next .refl trivial hBind, hFollows.adds hAdds rfl ?_ hFollows.calls ?_⟩
  · intro h' hUsed
    simp only [Ports.free, update_apply] at hUsed ⊢
    grind
  · intro q hq
    rcases ports_setSocket hq with hOld | ⟨_, _, hEq⟩
    · rw [hAdds.after] at hOld
      exact List.mem_cons_of_mem _ (hFollows.ports q hOld)
    · cases hEq
      exact List.mem_cons_self ..

/- A port is taken for the call, and then handed to the stack or given up. -/
theorem Follows.stepConnect {addr : Ipv4Address} {ok : Bool} (hFollows : Follows n p)
    (hStep : n.stepConnect t sock addr slot ok = some n') : Matched n' p := by
  have hPick : p.step (.ephemeralPort t) = some (p.pick t) := if_pos (hFollows.calls t)
  have hCalls : ∀ u q, update (update p.chosen (.call t) q) (.call t) none (.call u) = none := by
    intro u q
    have hNone := hFollows.calls u
    simp only [update_apply]
    grind
  rcases stepConnect_cases hStep with rfl | ⟨refs, h, s, hIdle, hSock, hAdds, rfl⟩
  · refine ⟨_, (Reach.next .refl trivial hPick).next (a := .reject t) trivial rfl, ?_, ?_, ?_⟩
    · intro h hUsed
      exact hFollows.sets h (by simpa [Ports.free, Ports.pick] using hUsed)
    · exact fun u => hCalls u _
    · exact hFollows.ports
  have hNew := hFollows.free hAdds.new
  have hDial : (p.pick t).step (.connect t h) = _ := if_pos
    ⟨by simp [Ports.pick], by simpa [Ports.free, Ports.pick] using hNew⟩
  refine ⟨_, (Reach.next .refl trivial hPick).next trivial hDial,
    hFollows.adds hAdds rfl ?_ ?_ ?_⟩
  · intro h' hUsed
    simp only [Ports.free, Ports.pick, update_apply] at hUsed ⊢
    grind
  · intro u
    dsimp only
    rw [update_of_ne (by simp)]
    exact hCalls u _
  · intro q hq
    rcases ports_setPhase hq with hq | ⟨_, _, hEq⟩
    · have hOld := (ports_setSocket hq).resolve_right (by simp)
      rw [hAdds.after] at hOld
      exact hFollows.ports q hOld
    · cases hEq

theorem Follows.stepAcceptDone (hFollows : Follows n p)
    (hStep : n.stepAcceptDone t slot new fdFree = some n') : Matched n' p := by
  unfold Net.stepAcceptDone at hStep
  split at hStep
  swap
  · cases hStep
  rename_i sock port h hPhase
  rcases Option.ite_none_right_eq_some.mp hStep with ⟨hCond, ⟨⟩⟩
  have hOld : ∀ {s : Net} {q : Nat} {o : Option NetHandle},
      ((((s.rearm sock o).deliver h new fdFree).setPhase t .idle).dropRef sock (.call t)).ports q →
        s.ports q := fun hq =>
    ports_of_rearm (ports_of_deliver (ports_of_idle (ports_of_dropRef hq)))
  have hSame : ∀ {s : Net} {o : Option NetHandle},
      ((((s.rearm sock o).deliver h new fdFree).setPhase t .idle).dropRef sock (.call t)).sets =
        s.sets := by
    intro s o
    refine dropRef_frame.1.trans ?_
    unfold Net.setPhase Net.deliver Net.rearm
    grind [Net.setSocket, Net.sockDrop]
  cases hFresh : n.fresh h.eth slot with
  | none => exact ⟨p, .refl, hFollows.frame hSame fun q => hOld⟩
  | some x =>
    rcases x with ⟨next, s⟩
    have hAdds := fresh_some hCond.2.1 hFresh
    have hEth : next.eth = h.eth := by
      unfold Net.fresh at hFresh
      split at hFresh <;> cases hFresh
      rfl
    have hPort : port ∈ p.bound := hFollows.ports port (.inr ⟨t, _, h, hPhase⟩)
    have hAccept : p.step (.accept h next port) = _ :=
      if_pos ⟨hPort, hEth, hFollows.free hAdds.new⟩
    refine ⟨_, .next .refl trivial hAccept, hFollows.adds hAdds hSame ?_ hFollows.calls ?_⟩
    · intro h' hUsed
      simp only [Ports.free, update_apply] at hUsed ⊢
      grind
    · intro q hq
      have hq := hOld hq
      rw [hAdds.after] at hq
      exact hFollows.ports q hq

/- The net task takes the ports of the handles it removes. -/
theorem Follows.reap {active : NetHandle → Bool} {gc sets kept rest : List NetHandle}
    (hReap : reapLoop active gc sets = some (kept, rest)) (hSets : ∀ h, ¬p.free h → h ∈ sets)
    (hCalls : ∀ t, p.chosen (.call t) = none) :
    ∃ p', Reach Ports.step (fun _ _ => True) p p' ∧ (∀ h, ¬p'.free h → h ∈ rest) ∧
      (∀ t, p'.chosen (.call t) = none) ∧ p'.bound = p.bound := by
  induction gc generalizing sets kept p with
  | nil =>
    cases hReap
    exact ⟨p, .refl, hSets, hCalls, rfl⟩
  | cons h gc ih =>
    unfold reapLoop at hReap
    split at hReap
    swap
    · cases hReap
    split at hReap
    · rcases Option.map_eq_some_iff.mp hReap with ⟨⟨kept', rest'⟩, hLoop, hEq⟩
      cases hEq
      exact ih hLoop hSets hCalls
    · have hGone : ∀ h', ¬Ports.free { p with
          chosen := update p.chosen (.conn h) none
          listening := update p.listening h none } h' → h' ∈ sets.erase h := by
        intro h' hUsed
        have hSet := hSets h'
        simp only [Ports.free, update_apply] at hUsed hSet
        have hNe : h' ≠ h := by grind
        exact (List.mem_erase_of_ne hNe).mpr (hSet (by grind))
      have hCalls' : ∀ t, update p.chosen (.conn h) none (.call t) = none := by
        intro t
        rw [update_of_ne (by simp)]
        exact hCalls t
      rcases ih hReap hGone hCalls' with ⟨p', hReach, hDone⟩
      have hFirst : Reach Ports.step (fun _ _ => True) p _ :=
        .next (a := .remove h) .refl trivial rfl
      exact ⟨p', hFirst.trans hReach, hDone⟩

/- Every step of a socket call is matched by steps of the ports. -/
theorem Follows.step {a : Act} (hFollows : Follows n p) (hStep : n.step a = some n') :
    Matched n' p := by
  cases a with
  | socket sock _ | unixDone sock =>
    simp only [Net.step] at hStep
    split at hStep <;> cases hStep
    refine ⟨p, .refl, hFollows.frame rfl fun q hq => ?_⟩
    exact (ports_setSocket hq).resolve_right (by simp)
  | bind sock addr port slot ok => exact hFollows.stepBind hStep
  | accept t sock =>
    simp only [Net.step, stepAccept] at hStep
    split at hStep <;> cases hStep
    rename_i port h refs hIdle hFile
    have hAt : n.ports port := .inl ⟨sock, h, refs, getFile_some hFile⟩
    refine ⟨p, .refl, hFollows.frame rfl fun q hq => ?_⟩
    rcases ports_setPhase hq with hq | ⟨_, _, hEq⟩
    · rcases ports_setSocket hq with hq | ⟨_, _, hEq⟩
      · exact hq
      · cases hEq
        exact hAt
    · cases hEq
      exact hAt
  | acceptKilled t =>
    simp only [Net.step, stepAcceptKilled] at hStep
    split at hStep <;> cases hStep
    exact ⟨p, .refl, hFollows.frame dropRef_frame.1 fun q hq =>
      ports_of_idle (ports_of_dropRef hq)⟩
  | acceptDone t slot new fdFree => exact hFollows.stepAcceptDone hStep
  | connect t sock addr slot ok => exact hFollows.stepConnect hStep
  | connectDone t established =>
    simp only [Net.step, stepConnectDone] at hStep
    split at hStep <;> cases hStep
    refine ⟨p, .refl, hFollows.frame (dropRef_frame.1.trans ?_) fun q hq =>
      ports_of_idle (ports_of_install (ports_of_dropRef hq))⟩
    unfold Net.install
    grind [Net.setSocket, Net.sockDrop, Net.setPhase]
  | dup sock =>
    simp only [Net.step] at hStep
    split at hStep <;> cases hStep
    rename_i x hFile
    refine ⟨p, .refl, hFollows.frame rfl fun q hq => ?_⟩
    rcases ports_setSocket hq with hq | ⟨h, refs, hEq⟩
    · exact hq
    · cases x
      cases hEq
      exact .inl ⟨sock, h, _, getFile_some hFile⟩
  | close sock =>
    simp only [Net.step] at hStep
    split at hStep <;> cases hStep
    exact ⟨p, .refl, hFollows.frame dropRef_frame.1 fun q hq => ports_of_dropRef hq⟩
  | reap active =>
    rcases Option.map_eq_some_iff.mp hStep with ⟨⟨gc, sets⟩, hReap, hEq⟩
    cases hEq
    rcases Follows.reap hReap hFollows.sets hFollows.calls with ⟨p', hReach, hSets, hCalls, hBound⟩
    refine ⟨p', hReach, hSets, hCalls, ?_⟩
    rw [hBound]
    exact hFollows.ports

end Steps

theorem Follows.boot (eth : Bool) : Follows (.boot eth) .boot := by
  refine ⟨?_, fun _ => rfl, ?_⟩
  · intro h hUsed
    exact absurd ⟨rfl, rfl⟩ hUsed
  · rintro port (⟨_, _, _, hSock⟩ | ⟨_, _, _, hPhase⟩)
    · cases hSock
    · cases hPhase

/- The ports of every run of the socket calls are those of a run of the ports. -/
theorem ports_of_reach {eth : Bool} (hReach : Reach Net.step (fun _ _ => True) (.boot eth) n) :
    ∃ p, Reach Ports.step (fun _ _ => True) .boot p ∧ Follows n p :=
  hReach.simulation (fun hFollows _ hStep => hFollows.step hStep) (.boot eth)

end Tcp

end PlayXv6
