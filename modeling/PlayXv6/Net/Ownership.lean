import PlayXv6.Net.Handles

/-
  Who owns the handles of the network stack.

  Every step keeps one owner for each handle in the sets,
  except where a listening socket is dropped, whose handle
  then has no owner, and where `accept` ends with a handle
  that another `accept` has given to a connection before,
  which then has two.

  Main declarations:
    * `Base`
    * `owned_of_reach`
-/

namespace PlayXv6

open Function Machine

variable {next : NetHandle} {ok established : Bool} {port : Nat} {refs : List Ref}

namespace Tcp

open Net

variable {s : Net} {k t : Nat} {x : Option Socket} {p : Phase} {h : NetHandle}

attribute [grind =] connOf listeningOf SockState.conn SockState.listening Phase.dial Net.held

@[grind =]
theorem held_setSocket (o : Owner) : (s.setSocket k x).held o =
    if o = .conn k then connOf x else if o = .listening k then listeningOf x else s.held o := by
  cases o <;> simp only [Net.held, Net.setSocket, update_apply] <;> grind

@[grind =]
theorem held_setPhase (o : Owner) :
    (s.setPhase t p).held o = if o = .dial t then p.dial else s.held o := by
  cases o <;> simp only [Net.held, Net.setPhase, update_apply] <;> grind

@[grind =]
theorem held_sockDrop (o : Owner) :
    (s.sockDrop h).held o = if o = .garbage then s.held o ++ [h] else s.held o := by
  cases o <;> rfl

theorem held_setSocket_same (hConn : connOf x = s.held (.conn k))
    (hListening : listeningOf x = s.held (.listening k)) : (s.setSocket k x).held = s.held := by
  funext o
  grind

theorem held_setPhase_same (hDial : p.dial = s.held (.dial t)) :
    (s.setPhase t p).held = s.held := by
  funext o
  grind

-- Dropping References

variable {s' : Net} {ref : Ref}

theorem Owned.frame (hOwned : Owned s) (hHeld : s'.held = s.held) (hSets : s'.sets = s.sets) :
    Owned s' := by
  unfold Owned
  rw [hHeld, hSets]
  exact hOwned

theorem dropRef_frame : (s.dropRef k ref).sets = s.sets ∧ (s.dropRef k ref).eth = s.eth := by
  unfold dropRef
  grind [setSocket, sockDrop]

theorem dropRef_cases : (∃ h, s.held (.conn k) = [h] ∧ s.held (.listening k) = [] ∧
      s.dropRef k ref = (s.setSocket k none).sockDrop h) ∨ (s.lastListening k ref = true ∧
      (∃ h, s.held (.listening k) = [h]) ∧ s.held (.conn k) = [] ∧
      s.dropRef k ref = s.setSocket k none) ∨ (s.lastListening k ref = false ∧
      (s.dropRef k ref).held = s.held) := by
  unfold dropRef lastListening
  cases hSock : s.sockets k with
  | none => exact .inr (.inr ⟨rfl, rfl⟩)
  | some x =>
    rcases x with ⟨state, refs⟩
    by_cases hLast : refs.erase ref = []
    · simp only [if_pos hLast]
      cases state with
      | tcp h => exact .inl ⟨h, by grind, by grind, rfl⟩
      | tcpListening port h =>
        exact .inr (.inl ⟨decide_eq_true hLast, ⟨h, by grind⟩, by grind, rfl⟩)
      | fresh domain | unix =>
        exact .inr (.inr ⟨rfl, held_setSocket_same (by grind) (by grind)⟩)
    · simp only [if_neg hLast]
      exact .inr (.inr ⟨by grind, held_setSocket_same (by grind) (by grind)⟩)

theorem lastListening_conn (hConn : s.held (.conn k) = [h]) : s.lastListening k ref = false := by
  unfold lastListening
  grind

/- A handle stays owned unless its socket listens. -/
theorem owned_dropRef_iff (hOwned : Owned s) :
    Owned (s.dropRef k ref) ↔ s.lastListening k ref = false := by
  rcases @dropRef_cases s k ref with ⟨h, hConn, hListening, hDrop⟩ |
      ⟨hLast, ⟨h, hListening⟩, hConn, hDrop⟩ | ⟨hLast, hHeld⟩
  · rw [iff_true_right (lastListening_conn hConn), hDrop]
    refine Holders.transfer (i := .conn k) (j := .garbage)
      (l := [h]) hOwned (by simp) ?_ ?_ ?_ (fun _ => Iff.rfl)
    · grind
    · rw [held_sockDrop, if_pos rfl, held_setSocket]
      exact List.perm_append_comm
    · grind
  · rw [hLast, hDrop]
    refine iff_of_false ?_ (by simp)
    intro hAfter
    -- the handle has no owner left
    have hMem : h ∈ s.held (.listening k) := by simp [hListening]
    have hLive : h ∈ s.sets := hOwned.live_of_mem hMem
    rcases (hAfter.live h).mpr hLive with ⟨o, ho⟩
    have hEq := hOwned.unique o (.listening k) h
    grind
  · rw [iff_true_right hLast]
    exact hOwned.frame hHeld dropRef_frame.1

/- Facts about the sets that every step keeps. -/
structure Base (s : Net) : Prop where
  nodup : s.sets.Nodup
  nic : ∀ h ∈ s.sets, h.eth = true → s.eth = true

variable {slot : Nat} {eth : Bool}

theorem Base.frame (hBase : Base s) (hSets : s'.sets = s.sets) (hEth : s'.eth = s.eth) :
    Base s' := by
  constructor
  · rw [hSets]
    exact hBase.nodup
  · rw [hSets, hEth]
    exact hBase.nic

structure Adds (s s' : Net) (h : NetHandle) : Prop where
  new : h ∉ s.sets
  nic : h.eth = true → s.eth = true
  after : s' = { s with sets := h :: s.sets }

theorem fresh_some (hFree : s.slotFree eth slot = true) (hFresh : s.fresh eth slot = some (h, s')) :
    Adds s s' h := by
  unfold fresh at hFresh
  split at hFresh
  · cases hFresh
  rename_i hNic
  cases hFresh
  refine ⟨of_decide_eq_true hFree, ?_, rfl⟩
  intro hEth
  have hEth : eth = true := hEth
  simpa [hEth] using hNic

theorem arm_some (hFree : s.slotFree eth slot = true) (hArm : s.arm eth slot ok = (some h, s')) :
    Adds s s' h := by
  unfold arm at hArm
  split at hArm
  · cases hArm
  rename_i h' s₁ hFresh
  cases ok with
  | true =>
    cases hArm
    exact fresh_some hFree hFresh
  | false => cases hArm

theorem arm_none (hFree : s.slotFree eth slot = true) (hArm : s.arm eth slot ok = (none, s')) :
    s' = s := by
  unfold arm at hArm
  split at hArm
  · cases hArm
    rfl
  · rename_i h' s₁ hFresh
    cases ok with
    | true => cases hArm
    | false =>
      cases hArm
      rw [(fresh_some hFree hFresh).after, remove]
      simp

theorem Adds.held (hAdds : Adds s s' h) (o : Owner) : s'.held o = s.held o := by
  rw [hAdds.after]
  cases o <;> rfl

theorem Adds.base (hAdds : Adds s s' h) (hBase : Base s) : Base s' := by
  rw [hAdds.after]
  refine ⟨List.nodup_cons.mpr ⟨hAdds.new, hBase.nodup⟩, ?_⟩
  intro j hj
  rcases List.mem_cons.mp hj with rfl | hj
  · exact hAdds.nic
  · exact hBase.nic j hj

theorem Adds.owned {s₂ : Net} {o : Owner} (hAdds : Adds s s' h) (hOwned : Owned s)
    (hSets : s₂.sets = s'.sets) (hEmpty : s.held o = []) (hAt : s₂.held o = [h])
    (hElse : ∀ o', o' ≠ o → s₂.held o' = s.held o') : Owned s₂ := by
  refine Holders.insert (a := h) (i := o) hOwned hAdds.new ?_ hElse ?_
  · rw [hAt, hEmpty]
  · intro b
    rw [hSets, hAdds.after]
    exact List.mem_cons

-- The Net Task

variable {active : NetHandle → Bool} {gc sets kept rest : List NetHandle}

/- Inactive handles leave the list and the sets. -/
theorem reapLoop_spec (hReap : reapLoop active gc sets = some (kept, rest)) (hNodup : gc.Nodup)
    (hSets : sets.Nodup) : kept = gc.filter active ∧ rest.Nodup ∧
      ∀ b, b ∈ rest ↔ b ∈ sets ∧ (b ∈ gc → active b = true) := by
  induction gc generalizing sets kept with
  | nil =>
    cases hReap
    exact ⟨rfl, hSets, by simp⟩
  | cons h gc ih =>
    rcases List.nodup_cons.mp hNodup with ⟨hNew, hNodup⟩
    unfold reapLoop at hReap
    split at hReap
    swap
    · cases hReap
    split at hReap
    · rename_i hActive
      rcases Option.map_eq_some_iff.mp hReap with ⟨⟨kept', rest'⟩, hRest, hEq⟩
      cases hEq
      rcases ih hRest hNodup hSets with ⟨rfl, hDistinct, hMem⟩
      exact ⟨by simp [hActive], hDistinct, by grind⟩
    · rename_i hActive
      rcases ih hReap hNodup (hSets.erase h) with ⟨rfl, hDistinct, hMem⟩
      refine ⟨by simp [hActive], hDistinct, ?_⟩
      intro b
      rw [hMem b, hSets.mem_erase_iff]
      grind

theorem Owned.reap {s : Net} (hOwned : Owned s) (hBase : Base s)
    (hReap : reapLoop active s.gc s.sets = some (kept, rest)) :
    Owned { s with gc := kept, sets := rest } ∧ Base { s with gc := kept, sets := rest } := by
  rcases reapLoop_spec hReap (hOwned.nodup .garbage) hBase.nodup with ⟨rfl, hDistinct, hMem⟩
  -- the other owners keep what they have
  have hHeld : ∀ o, Net.held { s with gc := s.gc.filter active, sets := rest } o =
      if o = .garbage then (s.held .garbage).filter active else s.held o := by
    intro o
    cases o <;> rfl
  have hGc : s.held .garbage = s.gc := rfl
  refine ⟨⟨?_, ?_, ?_⟩, hDistinct, fun b hb => hBase.nic b ((hMem b).mp hb).1⟩
  · intro o
    rw [hHeld]
    split
    · exact (hOwned.nodup .garbage).filter _
    · exact hOwned.nodup o
  · intro i j b hi hj
    have hOne := hOwned.unique i j b
    grind
  · intro b
    have hLive := hOwned.live b
    have hOne := fun o => hOwned.unique o .garbage b
    grind

-- Waiting Calls

/- A call of `accept` keeps its socket, which listens on. -/
def Calls (s : Net) : Prop :=
  ∀ t k port h, s.phase t = .accepting k port h →
    ∃ port' h' refs, s.sockets k = some ⟨.tcpListening port' h', refs⟩ ∧ .call t ∈ refs

theorem Calls.frame (hCalls : Calls s) (hSockets : s'.sockets = s.sockets)
    (hPhase : s'.phase = s.phase) : Calls s' := by
  unfold Calls
  rw [hSockets, hPhase]
  exact hCalls

theorem Calls.setSocket (hCalls : Calls s) (hKeep : ∀ t port h, s.phase t = .accepting k port h →
      ∃ port' h' refs, x = some ⟨.tcpListening port' h', refs⟩ ∧ .call t ∈ refs) :
    Calls (s.setSocket k x) := by
  intro t j port h hPhase
  have hPhase : s.phase t = .accepting j port h := hPhase
  have hOld := hCalls t j port h hPhase
  simp only [Net.setSocket, update_apply]
  grind

/- A socket that does not listen has no call of `accept`. -/
theorem Calls.none_of_state (hCalls : Calls s) (hNot : s.held (.listening k) = [])
    {h : NetHandle} (hPhase : s.phase t = .accepting k port h) :
    False := by
  rcases hCalls t k port h hPhase with ⟨port', h', refs, hSock, _⟩
  grind

theorem Calls.setPhase (hCalls : Calls s) (hNew : ∀ k port h, p = .accepting k port h →
      ∃ port' h' refs, s.sockets k = some ⟨.tcpListening port' h', refs⟩ ∧ .call t ∈ refs) :
    Calls (s.setPhase t p) := by
  intro u k port h hPhase
  have hOld := hCalls u k port h
  simp only [Net.setPhase, update_apply] at hPhase ⊢
  grind

theorem Calls.dropRef (hCalls : Calls s) (hOther : ∀ t port h, s.phase t = .accepting k port h →
      .call t ≠ ref) : Calls (s.dropRef k ref) := by
  have hKept : ∀ t port h, s.phase t = .accepting k port h → ∃ port' h' refs, s.sockets k =
        some ⟨.tcpListening port' h', refs⟩ ∧ .call t ∈ refs.erase ref := by
    intro t port h hPhase
    rcases hCalls t k port h hPhase with ⟨port', h', refs, hSock, hMem⟩
    exact ⟨port', h', refs, hSock, (List.mem_erase_of_ne (hOther t port h hPhase)).mpr hMem⟩
  unfold Net.dropRef
  cases hSock : s.sockets k with
  | none => exact hCalls
  | some y =>
    by_cases hLast : y.refs.erase ref = []
    · have hNobody : ∀ t port h, s.phase t ≠ .accepting k port h := by
        intro t port h hPhase
        rcases hKept t port h hPhase with ⟨port', h', refs, hSame, hMem⟩
        rw [hSock] at hSame
        cases hSame
        rw [hLast] at hMem
        cases hMem
      have hGone : Calls (s.setSocket k none) := hCalls.setSocket fun t port h hPhase =>
          absurd hPhase (hNobody t port h)
      simp only [if_pos hLast]
      split
      · exact hGone.frame rfl rfl
      · exact hGone
    · simp only [if_neg hLast]
      refine hCalls.setSocket ?_
      intro t port h hPhase
      rcases hKept t port h hPhase with ⟨port', h', refs, hSame, hMem⟩
      rw [hSock] at hSame
      cases hSame
      exact ⟨port', h', _, rfl, hMem⟩

-- Steps

structure Inv (s : Net) : Prop where
  base : Base s
  calls : Calls s
  owned : Owned s

/- What a step keeps in any case, and when it keeps owners. -/
structure Stepped (s : Net) (a : Act) (s' : Net) : Prop where
  base : Base s'
  calls : Calls s'
  owned : Owned s' ↔ s.ok a = true

variable {new : Nat} {fdFree : Bool}

theorem getFile_some {x : Socket} (hFile : s.getFile k = some x) : s.sockets k = some x :=
  (Option.filter_eq_some_iff.mp hFile).1

theorem Inv.stepped {a : Act} (hInv : Inv s') (hOk : s.ok a = true) : Stepped s a s' :=
  ⟨hInv.base, hInv.calls, iff_of_true hInv.owned hOk⟩

theorem Inv.setSocket {x : Option Socket} (hInv : Inv s) (hConn : connOf x = s.held (.conn k))
    (hListening : listeningOf x = s.held (.listening k))
    (hKeep : ∀ t port h, s.phase t = .accepting k port h → ∃ port' h' refs,
        x = some ⟨.tcpListening port' h', refs⟩ ∧ .call t ∈ refs) : Inv (s.setSocket k x) where
  base := hInv.base.frame rfl rfl
  calls := hInv.calls.setSocket hKeep
  owned := hInv.owned.frame (held_setSocket_same hConn hListening) rfl

/- The stack rejects the call, or gives a handle to the socket. -/
theorem stepBind_cases {addr : Ipv4Address} (hStep : s.stepBind k addr port slot ok = some s') :
    s' = s ∨ ∃ refs h s₁, s.sockets k = some ⟨.fresh .inet, refs⟩ ∧ Adds s s₁ h ∧
      s' = s₁.setSocket k (some ⟨.tcpListening port h, refs⟩) := by
  unfold stepBind at hStep
  split at hStep
  swap
  · cases hStep
  rename_i refs hFile
  rcases Option.ite_none_right_eq_some.mp hStep with ⟨hFree, hStep⟩
  split at hStep
  · rename_i h s₁ hListen
    cases hStep
    exact .inr ⟨refs, h, s₁, getFile_some hFile, arm_some hFree hListen, rfl⟩
  · rename_i s₁ hListen
    cases hStep
    exact .inl (arm_none hFree hListen)

theorem stepConnect_cases {addr : Ipv4Address}
    (hStep : s.stepConnect t k addr slot ok = some s') :
    s' = s ∨ ∃ refs h s₁, s.phase t = .idle ∧ s.sockets k = some ⟨.fresh .inet, refs⟩ ∧
      Adds s s₁ h ∧ s' = (s₁.setSocket k (some ⟨.fresh .inet, .call t :: refs⟩)).setPhase
        t (.connecting k h) := by
  unfold stepConnect at hStep
  split at hStep
  swap
  · cases hStep
  rename_i refs hPhase hFile
  rcases Option.ite_none_right_eq_some.mp hStep with ⟨hFree, hStep⟩
  split at hStep
  · rename_i h s₁ hConnect
    cases hStep
    exact .inr ⟨refs, h, s₁, hPhase, getFile_some hFile, arm_some hFree hConnect, rfl⟩
  · rename_i s₁ hConnect
    cases hStep
    exact .inl (arm_none hFree hConnect)

theorem stepped_bind {addr : Ipv4Address} (hInv : Inv s)
    (hStep : s.stepBind k addr port slot ok = some s') : Inv s' := by
  rcases stepBind_cases hStep with rfl | ⟨refs, h, s₁, hSock, hAdds, rfl⟩
  · exact hInv
  have hHeld := hAdds.held
  refine ⟨(hAdds.base hInv.base).frame rfl rfl, ?_, ?_⟩
  · rw [hAdds.after]
    refine Calls.setSocket (hInv.calls.frame rfl rfl) ?_
    intro t port' h' hPhase
    exact (hInv.calls.none_of_state (by grind) hPhase).elim
  · exact hAdds.owned (o := .listening k) hInv.owned rfl (by grind) (by grind) (by grind)

theorem stepped_accept (hInv : Inv s) (hStep : s.stepAccept t k = some s') : Inv s' := by
  unfold stepAccept at hStep
  split at hStep
  swap
  · cases hStep
  rename_i port h refs hPhase hFile
  have hSock := getFile_some hFile
  cases hStep
  have hMore : Inv (s.setSocket k (some ⟨.tcpListening port h, .call t :: refs⟩)) := by
    refine hInv.setSocket (by grind) (by grind) ?_
    intro u port' h' hAt
    have hOld := hInv.calls u k port' h' hAt
    grind
  refine ⟨hMore.base.frame rfl rfl, ?_, ?_⟩
  · refine hMore.calls.setPhase ?_
    intro j port' h' hEq
    cases hEq
    exact ⟨port, h, _, update_self .., List.mem_cons_self ..⟩
  · exact hMore.owned.frame (held_setPhase_same (by grind)) rfl

theorem stepped_dropCall (hBase : Base s) (hCalls : Calls s) (hIdle : s.phase t = .idle) :
    Base (s.dropRef k (.call t)) ∧ Calls (s.dropRef k (.call t)) := by
  refine ⟨hBase.frame dropRef_frame.1 dropRef_frame.2, ?_⟩
  refine hCalls.dropRef ?_
  rintro u port h hPhase hEq
  cases hEq
  rw [hIdle] at hPhase
  cases hPhase

theorem stepped_acceptKilled (hInv : Inv s) (hStep : s.stepAcceptKilled t = some s') :
    Stepped s (.acceptKilled t) s' := by
  unfold stepAcceptKilled at hStep
  split at hStep <;> cases hStep
  rename_i k port h hPhase
  have hIdle : Owned (s.setPhase t .idle) :=
    hInv.owned.frame (held_setPhase_same (by grind)) rfl
  have hKept : Base ((s.setPhase t .idle).dropRef k
      (.call t)) ∧ Calls ((s.setPhase t .idle).dropRef k (.call t)) :=
    stepped_dropCall (hInv.base.frame rfl rfl) (hInv.calls.setPhase (by simp)) (update_self ..)
  refine ⟨hKept.1, hKept.2, ?_⟩
  rw [owned_dropRef_iff hIdle]
  show s.lastListening k (.call t) = false ↔ _
  rw [Net.ok, hPhase]
  simp

theorem stepped_connect {addr : Ipv4Address} (hInv : Inv s)
    (hStep : s.stepConnect t k addr slot ok = some s') : Inv s' := by
  rcases stepConnect_cases hStep with rfl | ⟨refs, h, s₁, hPhase, hSock, hAdds, rfl⟩
  · exact hInv
  have hHeld := hAdds.held
  refine ⟨(hAdds.base hInv.base).frame rfl rfl, ?_, ?_⟩
  · rw [hAdds.after]
    refine Calls.setPhase ?_ (by simp)
    refine Calls.setSocket (hInv.calls.frame rfl rfl) ?_
    intro u port' h' hAt
    exact (hInv.calls.none_of_state (by grind) hAt).elim
  · exact hAdds.owned (o := .dial t) hInv.owned rfl (by grind) (by grind) (by grind)

theorem Inv.install (hInv : Inv s) (hPhase : s.phase t = .connecting k h) :
    Inv ((s.setPhase t .idle).install k h established) ∧ ∀ ref, ((s.setPhase t .idle).install k h
        established).lastListening k ref = s.lastListening k ref := by
  have hIdle : Calls (s.setPhase t .idle) := hInv.calls.setPhase (by simp)
  have hDropped : Inv ((s.setPhase t .idle).sockDrop h) := by
    refine ⟨hInv.base.frame rfl rfl, hIdle.frame rfl rfl, ?_⟩
    refine Holders.transfer (i := .dial t) (j := .garbage) (l := [h]) hInv.owned (by simp)
      (by grind) ?_ (by grind) (fun _ => Iff.rfl)
    rw [held_sockDrop, if_pos rfl]
    exact List.perm_append_comm
  unfold Net.install
  split
  · rename_i domain refs hSock
    have hSock : s.sockets k = some ⟨.fresh domain, refs⟩ := hSock
    refine ⟨⟨hInv.base.frame rfl rfl, ?_, ?_⟩, ?_⟩
    · refine hIdle.setSocket ?_
      intro u port' h' hAt
      exact (hIdle.none_of_state (by grind) hAt).elim
    · exact Holders.transfer (i := .dial t) (j := .conn k) (l := [h]) hInv.owned (by simp)
        (by grind) (by grind) (by grind) (fun _ => Iff.rfl)
    · intro ref
      simp [lastListening, Net.setSocket, hSock]
  · exact ⟨hDropped, fun _ => rfl⟩

theorem stepped_connectDone (hInv : Inv s) (hStep : s.stepConnectDone t established = some s') :
    Stepped s (.connectDone t established) s' := by
  unfold stepConnectDone at hStep
  split at hStep <;> cases hStep
  rename_i k h hPhase
  have hMid : Inv ((s.setPhase t .idle).install k h established) := (hInv.install hPhase).1
  have hLast : ((s.setPhase t .idle).install k h established).lastListening k (.call t) =
        s.lastListening k (.call t) := (hInv.install hPhase).2 (.call t)
  have hIdle : ((s.setPhase t .idle).install k h established).phase t = .idle := by
    have hAt : (s.setPhase t .idle).phase t = .idle := update_self ..
    unfold Net.install
    split <;> exact hAt
  rcases stepped_dropCall (k := k) hMid.base hMid.calls hIdle with ⟨hBase, hCalls⟩
  refine ⟨hBase, hCalls, ?_⟩
  rw [owned_dropRef_iff hMid.owned, hLast, Net.ok, hPhase]
  simp

-- The End of `accept`

/- Where the handle of a connection goes. -/
def target (new : Nat) (fdFree : Bool) : Owner := if fdFree then .conn new else .garbage

/- The owners once the new connection is delivered. -/
structure Delivered (s s' : Net) (k t new : Nat) (fdFree : Bool) (h next : NetHandle) : Prop where
  adds : Adds s { s with sets := s'.sets } next
  idle : s'.phase t = .idle
  listening : s'.held (.listening k) = [next]
  goes : s'.held (target new fdFree) = s.held (target new fdFree) ++ [h]
  others : ∀ o, o ≠ .listening k → o ≠ target new fdFree → s'.held o = s.held o
  last : s'.lastListening k (.call t) = s.lastListening k (.call t)
  base : Base s'
  calls : Calls s'

theorem relisten_some (hBase : Base s) (hMem : h ∈ s.sets) (hFree : s.slotFree h.eth slot = true) :
    ∃ next s', s.relisten h slot = (some next, s') ∧ Adds s s' next := by
  unfold relisten
  cases hFresh : s.fresh h.eth slot with
  | none =>
    unfold fresh at hFresh
    split at hFresh
    swap
    · cases hFresh
    rename_i hNic
    simp only [Bool.and_eq_true, Bool.not_eq_true'] at hNic
    rw [hBase.nic h hMem hNic.1] at hNic
    cases hNic.2
  | some r => exact ⟨r.1, r.2, rfl, fresh_some hFree hFresh⟩

/- The listening state has the new handle. -/
structure Rearmed (s m : Net) (k : Nat) (next : NetHandle) (refs : List Ref) : Prop where
  sets : m.sets = next :: s.sets
  phase : m.phase = s.phase
  sock : ∃ port, m.sockets k = some ⟨.tcpListening port next, refs⟩
  held : ∀ o, o ≠ .listening k → m.held o = s.held o
  sockets : ∀ j, j ≠ k → m.sockets j = s.sockets j
  base : Base m
  calls : Calls m

theorem rearmed {h' : NetHandle} {s₁ : Net} (hInv : Inv s)
    (hSock : s.sockets k = some ⟨.tcpListening port h', refs⟩) (hAdds : Adds s s₁ next) :
    Rearmed s (s₁.rearm k (some next)) k next refs := by
  have hHeld := hAdds.held
  have hAfter := hAdds.after
  have hAt : s₁.sockets k = some ⟨.tcpListening port h', refs⟩ := by
    rw [hAfter]
    exact hSock
  have hRearm : s₁.rearm k (some next) =
      s₁.setSocket k (some ⟨.tcpListening port next, refs⟩) := by
    unfold Net.rearm
    rw [hAt]
  rw [hRearm]
  refine ⟨congrArg Net.sets hAfter, by rw [hAfter]; rfl, ⟨port, update_self ..⟩, by grind,
    ?_, (hAdds.base hInv.base).frame rfl rfl, ?_⟩
  · intro j hj
    exact (update_of_ne hj ..).trans (by rw [hAfter])
  · rw [hAfter]
    refine Calls.setSocket (hInv.calls.frame rfl rfl) ?_
    intro u p j hAt
    have hOld := hInv.calls u k p j hAt
    grind

theorem lastListening_eq {ref : Ref} (hSock : s.sockets k = some ⟨.tcpListening port h, refs⟩) :
    s.lastListening k ref = decide (refs.erase ref = []) := by
  unfold lastListening
  rw [hSock]

theorem deliver_held (hNew : s.sockets new = none) :
    (s.deliver h new fdFree).held (target new fdFree) = s.held (target new fdFree) ++ [h] ∧
      ∀ o, o ≠ target new fdFree → (s.deliver h new fdFree).held o = s.held o := by
  unfold Net.deliver target
  cases fdFree <;> grind

theorem deliver_sockets (hNe : k ≠ new) : (s.deliver h new fdFree).sockets k = s.sockets k := by
  cases fdFree with
  | true => exact update_of_ne hNe ..
  | false => rfl

theorem Calls.deliver (hCalls : Calls s) (hNew : s.sockets new = none) :
    Calls (s.deliver h new fdFree) := by
  cases fdFree with
  | true =>
    refine hCalls.setSocket ?_
    intro u port j hOn
    exact (hCalls.none_of_state (by grind) hOn).elim
  | false => exact hCalls.frame rfl rfl

theorem Base.deliver (hBase : Base s) : Base (s.deliver h new fdFree) := by
  cases fdFree with
  | true | false => exact hBase.frame rfl rfl

theorem deliver_same : (s.deliver h new fdFree).phase = s.phase ∧
      (s.deliver h new fdFree).sets = s.sets := by
  cases fdFree with
  | true | false => exact ⟨rfl, rfl⟩

theorem target_ne : target new fdFree ≠ .listening k := by
  unfold target
  split <;> simp

theorem delivered {s₁ : Net} (hInv : Inv s)
    (hPhase : s.phase t = .accepting k port h) (hNew : s.sockets new = none)
    (hAdds : Adds s s₁ next) : Delivered s (((s₁.rearm k (some next)).deliver h new
      fdFree).setPhase t .idle) k t new fdFree h next := by
  rcases hInv.calls t k port h hPhase with ⟨port', h', refs, hSock, _⟩
  have hRe := rearmed hInv hSock hAdds
  rcases hRe.sock with ⟨port₁, hSock₁⟩
  have hNe : k ≠ new := by
    rintro rfl
    rw [hSock] at hNew
    cases hNew
  have hNew₁ : (s₁.rearm k (some next)).sockets new = none := by
    rw [hRe.sockets new hNe.symm]
    exact hNew
  have hDel : ((s₁.rearm k (some next)).deliver h new fdFree).sockets k =
        some ⟨.tcpListening port₁ next, refs⟩ := by
    rw [deliver_sockets hNe]
    exact hSock₁
  have hAt : ((s₁.rearm k (some next)).deliver h new fdFree).phase t = .accepting k port h := by
    rw [deliver_same.1, hRe.phase, hPhase]
  have hHeld : (((s₁.rearm k (some next)).deliver h new fdFree).setPhase t .idle).held =
        ((s₁.rearm k (some next)).deliver h new fdFree).held := held_setPhase_same (by grind)
  rcases deliver_held (h := h) hNew₁ with ⟨hGoes, hElse⟩
  have hAdds' : Adds s { s with
      sets := ((s₁.rearm k (some next)).deliver h new fdFree).sets } next := by
    refine ⟨hAdds.new, hAdds.nic, ?_⟩
    rw [deliver_same.2, hRe.sets]
  refine ⟨hAdds', update_self .., ?_, ?_, ?_, ?_, hRe.base.deliver.frame rfl rfl, ?_⟩
  · rw [hHeld]
    grind
  · rw [hHeld, hGoes, hRe.held _ target_ne]
  · intro o ho ho'
    rw [hHeld, hElse o ho', hRe.held o ho]
  · rw [lastListening_eq hSock]
    exact lastListening_eq hDel
  · exact (hRe.calls.deliver hNew₁).setPhase (by simp)

/- The handle is passed on and the new one takes its place. -/
theorem Delivered.owned (hDel : Delivered s s' k t new fdFree h next)
    (hOwned : Owned s) (hHas : s.held (.listening k) = [h]) : Owned s' := by
  have hPassed : Holders (update s'.held (.listening k) []) (· ∈ s.sets) := by
    refine Holders.transfer (i := .listening k) (j := target new fdFree) (l := [h]) hOwned
      target_ne.symm ?_ ?_ ?_ (fun _ => Iff.rfl)
    · rw [update_self, hHas]
      exact List.Perm.refl _
    · rw [update_of_ne target_ne, hDel.goes]
      exact List.perm_append_comm
    · intro o ho ho'
      rw [update_of_ne ho, hDel.others o ho ho']
  refine Holders.insert (a := next) (i := .listening k) hPassed hDel.adds.new ?_ ?_ ?_
  · rw [update_self, hDel.listening]
  · intro o ho
    rw [update_of_ne ho]
  · intro b
    have hSets : s'.sets = next :: s.sets := congrArg Net.sets hDel.adds.after
    rw [hSets]
    exact List.mem_cons

/- A handle that is passed on a second time has two owners. -/
theorem Delivered.twice (hDel : Delivered s s' k t new fdFree h next)
    (hOwned : Owned s) (hMem : h ∈ s.sets) (hNot : h ∉ s.held (.listening k)) :
    ¬ Owned (s'.dropRef k (.call t)) := by
  intro hAfter
  rcases (hOwned.live h).mpr hMem with ⟨o, ho⟩
  have hNe : o ≠ .listening k := by
    rintro rfl
    exact hNot ho
  -- dropping the call concerns the listening state only
  have hKeep : ∀ o, o ≠ .listening k → (s'.dropRef k (.call t)).held o = s'.held o := by
    intro o ho
    rcases @dropRef_cases s' k (.call t) with
      ⟨j, _, hListening, _⟩ | ⟨_, _, hConn, hDrop⟩ | ⟨_, hHeld⟩
    · rw [hDel.listening] at hListening
      cases hListening
    · rw [hDrop]
      grind
    · rw [hHeld]
  have hGoes : (s'.dropRef k (.call t)).held (target new fdFree) =
        s.held (target new fdFree) ++ [h] := by rw [hKeep _ target_ne, hDel.goes]
  have hIn : h ∈ (s'.dropRef k (.call t)).held (target new fdFree) := by
    rw [hGoes]
    exact List.mem_append_right _ (List.mem_singleton_self h)
  by_cases hEq : o = target new fdFree
  · have hNodup := hAfter.nodup (target new fdFree)
    rw [hGoes, ← hEq] at hNodup
    have hApart := (List.nodup_append'.mp hNodup).2.2
    exact hApart ho (List.mem_singleton_self h)
  · have hAlso : h ∈ (s'.dropRef k (.call t)).held o := by
      rw [hKeep o hNe, hDel.others o hNe hEq]
      exact ho
    exact hEq (hAfter.unique _ _ h hAlso hIn)

theorem stepped_acceptDone (hInv : Inv s) (hStep : s.stepAcceptDone t slot new fdFree = some s') :
    Stepped s (.acceptDone t slot new fdFree) s' := by
  unfold stepAcceptDone at hStep
  split at hStep
  swap
  · cases hStep
  rename_i k port h hPhase
  rcases Option.ite_none_right_eq_some.mp hStep with ⟨⟨hMem, hFree, hNew⟩, hStep⟩
  rcases relisten_some hInv.base hMem hFree with ⟨next, s₁, hRelisten, hAdds⟩
  rw [hRelisten] at hStep
  cases hStep
  have hDel : Delivered s (((s₁.rearm k (some next)).deliver
      h new fdFree).setPhase t .idle) k t new fdFree h
      next := delivered hInv hPhase hNew hAdds
  rcases stepped_dropCall (k := k) hDel.base hDel.calls hDel.idle with ⟨hBase, hCalls⟩
  refine ⟨hBase, hCalls, ?_⟩
  rw [Net.ok, hPhase]
  by_cases hHas : h ∈ s.held (.listening k)
  · have hOne : s.held (.listening k) = [h] := by
      rcases hInv.calls t k port h hPhase with ⟨port', h', refs, hSock, _⟩
      grind
    rw [owned_dropRef_iff (hDel.owned hInv.owned hOne), hDel.last]
    simp [hHas]
  · refine iff_of_false (hDel.twice hInv.owned hMem hHas) ?_
    simp [hHas]

theorem stepped_of_step {a : Act} (hInv : Inv s) (hStep : s.step a = some s') : Stepped s a s' := by
  cases a with
  | socket k domain | unixDone k =>
    simp only [Net.step] at hStep
    split at hStep <;> cases hStep
    rename_i hSock
    refine (hInv.setSocket (by grind) (by grind) ?_).stepped rfl
    intro t port h hAt
    exact (hInv.calls.none_of_state (by grind) hAt).elim
  | bind k addr port slot ok => exact (stepped_bind hInv hStep).stepped rfl
  | accept t k => exact (stepped_accept hInv hStep).stepped rfl
  | acceptKilled t => exact stepped_acceptKilled hInv hStep
  | acceptDone t slot new fdFree => exact stepped_acceptDone hInv hStep
  | connect t k addr slot ok => exact (stepped_connect hInv hStep).stepped rfl
  | connectDone t established => exact stepped_connectDone hInv hStep
  | dup k =>
    simp only [Net.step] at hStep
    split at hStep
    swap
    · cases hStep
    rename_i x hFile
    have hSock := getFile_some hFile
    cases hStep
    refine (hInv.setSocket (by grind) (by grind) ?_).stepped rfl
    intro t port h hAt
    have hOld := hInv.calls t k port h hAt
    grind
  | close k =>
    simp only [Net.step] at hStep
    split at hStep <;> cases hStep
    refine ⟨hInv.base.frame dropRef_frame.1 dropRef_frame.2, hInv.calls.dropRef (by simp), ?_⟩
    rw [owned_dropRef_iff hInv.owned, Net.ok]
    simp
  | reap active =>
    rcases Option.map_eq_some_iff.mp hStep with ⟨⟨gc, sets⟩, hReap, rfl⟩
    rcases hInv.owned.reap hInv.base hReap with ⟨hOwned, hBase⟩
    have hAfter : Inv { s with gc := gc, sets := sets } := ⟨hBase, hInv.calls.frame rfl rfl, hOwned⟩
    exact hAfter.stepped rfl

-- Runs

theorem Inv.boot (eth : Bool) : Inv (Net.boot eth) := by
  have hNone : ∀ o, (Net.boot eth).held o = [] := by
    intro o
    cases o <;> rfl
  refine ⟨⟨List.nodup_nil, by simp [Net.boot]⟩, ?_, ?_⟩
  · intro t k port h hPhase
    cases hPhase
  · constructor
    all_goals simp only [hNone]
    all_goals simp [Net.boot]

/- The states that runs reach, and those with `Net.ok` kept. -/
def Reaches (eth : Bool) (s : Net) : Prop :=
  Reach Net.step (fun _ _ => True) (Net.boot eth) s

def OkReaches (eth : Bool) (s : Net) : Prop :=
  Reach Net.step (fun s a => s.ok a = true)
    (Net.boot eth) s

/-
  As long as the steps meet `Net.ok` the handles have one
  owner each, and the first step that does not meet it breaks
  that.
-/
theorem owned_of_reach (eth : Bool) (s : Net) (hReach : OkReaches eth s) :
    Owned s ∧ ∀ a s', s.step a = some s' → (Owned s' ↔ s.ok a = true) := by
  have hInv : Inv s := by
    refine hReach.invariant ?_ (Inv.boot eth)
    intro m a m' hInv hOk hStep
    have hNext := stepped_of_step hInv hStep
    exact ⟨hNext.base, hNext.calls, hNext.owned.mpr hOk⟩
  exact ⟨hInv.owned, fun a s' hStep => (stepped_of_step hInv hStep).owned⟩

/- A socket that listens, with two tasks in `accept`. -/
def acceptTwice : List Act :=
  [.socket 0 .inet, .bind 0 ⟨127, 0, 0, 1⟩ 80 0 true,
    .accept 1 0, .accept 2 0, .acceptDone 1 1 1 true]

theorem owned_of_reach_accept : ∃ s, OkReaches false s ∧ (Owned s ∧ ∀ a s', s.step a = some s' →
        (Owned s' ↔ s.ok a = true)) ∧ s.held (.conn 1) = [⟨false, 0⟩] ∧
      s.held (.listening 0) = [⟨false, 1⟩] := by
  have hRun : (run Net.step (fun s a => s.ok a = true)
      (Net.boot false) acceptTwice).any (fun s =>
        decide (s.held (.conn 1) = [⟨false, 0⟩]) &&
        decide (s.held (.listening 0) = [⟨false, 1⟩])) =
          true := by
    decide +kernel
  rcases exists_reach hRun with ⟨s, hReach, hAfter⟩
  simp only [Bool.and_eq_true, decide_eq_true_eq] at hAfter
  have hReach : OkReaches false s := hReach
  exact ⟨s, hReach, owned_of_reach false s hReach, hAfter⟩

/-
  Two calls of `accept` return the same handle, and a
  listening socket that is closed leaves its handle behind.
-/
theorem handle_twice_or_stranded : (∃ s, Reaches false s ∧ s.held (.conn 1) = [⟨false, 0⟩] ∧
      s.held (.conn 2) = [⟨false, 0⟩] ∧ ¬ Owned s) ∧ ∃ s, Reaches false s ∧ ⟨false, 0⟩ ∈ s.sets ∧
      s.sockets 0 = none ∧ ¬ Owned s := by
  constructor
  · have hRun : (run Net.step (fun _ _ => True) (Net.boot false)
        (acceptTwice ++ [.acceptDone 2 2 2 true])).any (fun s =>
          decide (s.held (.conn 1) = [⟨false, 0⟩]) &&
          decide (s.held (.conn 2) = [⟨false, 0⟩])) = true := by
      decide +kernel
    rcases exists_reach hRun with ⟨s, hReach, hAfter⟩
    simp only [Bool.and_eq_true, decide_eq_true_eq] at hAfter
    refine ⟨s, hReach, hAfter.1, hAfter.2, ?_⟩
    intro hOwned
    have hSame := hOwned.unique (.conn 1) (.conn 2) ⟨false, 0⟩
      (by rw [hAfter.1]; exact List.mem_singleton_self _)
      (by rw [hAfter.2]; exact List.mem_singleton_self _)
    cases hSame
  · let opened : List Act := [.socket 0 .inet, .bind 0 ⟨127, 0, 0, 1⟩ 80 0 true]
    have hRun : (run Net.step (fun s a => s.ok a = true)
        (Net.boot false) opened).any (fun s => (s.step (.close 0)).any fun s' =>
            decide (⟨false, 0⟩ ∈ s'.sets) &&
            decide (s'.sockets 0 = none) &&
            decide (s.ok (.close 0) = false)) = true := by
      decide +kernel
    rcases exists_reach hRun with ⟨s, hReach, hNext⟩
    rcases (Option.any_eq_true _ _).mp hNext with ⟨s', hStep, hAfter⟩
    simp only [Bool.and_eq_true, decide_eq_true_eq] at hAfter
    have hOk : OkReaches false s := hReach
    have hReach : Reaches false s := hOk.mono fun _ _ _ => trivial
    refine ⟨s', hReach.next trivial hStep, hAfter.1.1, hAfter.1.2, ?_⟩
    have hInv : Inv s := by
      refine hOk.invariant ?_ (Inv.boot false)
      intro m a m' hInv hKept hStep
      have hNext := stepped_of_step hInv hStep
      exact ⟨hNext.base, hNext.calls, hNext.owned.mpr hKept⟩
    rw [(stepped_of_step hInv hStep).owned, hAfter.2]
    simp

end Tcp

end PlayXv6
