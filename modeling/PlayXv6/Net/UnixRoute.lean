import PlayXv6.Net.UnixNames

/-
  Where the connections of AF_UNIX sockets go.

  As long as no node is unlinked before its listener is gone,
  the node of a listener keeps its name and its inode number,
  so the listener that the registry has under a number is the
  one whose bind call created the node with that number.

  Main declarations:
    * `Inv`, `Inv.step`
    * `routed_of_reach`
    * `enqueue_misrouted`
-/

namespace PlayXv6

open Function Machine

namespace UnixSock

open Tcp (Ref)

/- The node is linked, and `l` was bound with it. -/
@[grind]
structure Node.Bound (n : Node) (l : Nat) : Prop where
  sock : n.isSock = true
  linked : n.linked = true
  creator : n.creator = some l

variable {P : Type}

/- A node that its bind call has not registered yet. -/
@[grind]
structure Awaits (s : Sys P) (t : Nat) (path : P) (i id : Nat) : Prop where
  old : id < s.serial
  unborn : s.listeners id = none
  unregistered : ∀ j, (j, id) ∉ s.registry
  entry : s.entries path = some i
  node : ∃ n, s.inodes i = some n ∧ n.Bound id ∧ t ∈ n.refs

structure Inv (s : Sys P) : Prop where
  entry : ∀ path i, s.entries path = some i → ∃ n, s.inodes i = some n ∧ n.linked = true
  inj : ∀ p q i, s.entries p = some i → s.entries q = some i → p = q
  opened : ∀ l y, s.listeners l = some y → l < s.serial ∧
    (y.owned = true → ∃ k x, s.sockets k = some x ∧ x.state = .listening l)
  named : ∀ l y, s.listeners l = some y → ∃ path n, s.entries path = some y.inum ∧
      s.inodes y.inum = some n ∧ n.Bound l
  registered : ∀ i l y, (i, l) ∈ s.registry → s.listeners l = some y → y.inum = i
  numbered : ∀ i l, (i, l) ∈ s.registry → l < s.serial
  created : ∀ t k path i id, s.phase t = .created k path i id → Awaits s t path i id
  once : ∀ t u k path i k' path' i' id, s.phase t = .created k path i id →
      s.phase u = .created k' path' i' id → t = u
  binding : ∀ t k path i id, s.phase t = .registered k path i id →
    s.listeners id = some ⟨i, [], false, [t]⟩
  resolved : ∀ t k path i, s.phase t = .resolved k path i →
    ∃ n, s.inodes i = some n ∧ t ∈ n.refs ∧ (n.linked = true → s.entries path = some i)
  found : ∀ t k path i l, s.phase t = .found k path i l →
    s.entries path = some i ∧
      ∃ y, s.listeners l = some y ∧ y.owned = true ∧ t ∈ y.calls ∧ y.inum = i

variable {s s' : Sys P} {t k l i : Nat} {path : P} {p : Phase P} {ref : Ref}

theorem Inv.boot (ninodes : Nat) : Inv (Sys.boot ninodes : Sys P) where
  entry path i hEntry := by cases hEntry
  inj p q i hEntry := by cases hEntry
  opened l y hListener := by cases hListener
  named l y hListener := by cases hListener
  registered i l y hMem := by cases hMem
  numbered i l hMem := by cases hMem
  created t k path i id hPhase := by cases hPhase
  once t u k path i k' path' i' id hPhase := by cases hPhase
  binding t k path i id hPhase := by cases hPhase
  resolved t k path i hPhase := by cases hPhase
  found t k path i l hPhase := by cases hPhase

-- Phases and Sockets

theorem Inv.setPhase (hInv : Inv s) (hCreated : ∀ k path i id, p = .created k path i id →
      Awaits s t path i id ∧ ∀ u k' path' i', u ≠ t → s.phase u ≠ .created k' path' i' id)
    (hBinding : ∀ k path i id, p = .registered k path i id →
      s.listeners id = some ⟨i, [], false, [t]⟩)
    (hResolved : ∀ k path i, p = .resolved k path i → ∃ n, s.inodes i = some n ∧ t ∈ n.refs ∧
      (n.linked = true → s.entries path = some i))
    (hFound : ∀ k path i l, p = .found k path i l → s.entries path = some i ∧
      ∃ y, s.listeners l = some y ∧ y.owned = true ∧ t ∈ y.calls ∧ y.inum = i) :
    Inv (s.setPhase t p) := by
  refine { hInv with created := ?_, once := ?_, binding := ?_, resolved := ?_, found := ?_ }
  · have hAll := (forall_update_iff s.phase fun u q => ∀ k path i id, q = .created k path i id →
      Awaits s u path i id).mpr
      ⟨fun k path i id h => (hCreated k path i id h).1, fun u _ => hInv.created u⟩
    intro u k path i id hPhase
    exact { hAll u k path i id hPhase with }
  · intro u v k path i k' path' i' id hU hV
    unfold Sys.setPhase at hU hV
    grind [update_apply, hInv.once]
  · exact (forall_update_iff s.phase fun u q => ∀ k path i id, q = .registered k path i id →
      s.listeners id = some ⟨i, [], false, [u]⟩).mpr ⟨hBinding, fun u _ => hInv.binding u⟩
  · exact (forall_update_iff s.phase fun u q => ∀ k path i, q = .resolved k path i →
      ∃ n, s.inodes i = some n ∧ u ∈ n.refs ∧ (n.linked = true → s.entries path = some i)).mpr
      ⟨hResolved, fun u _ => hInv.resolved u⟩
  · exact (forall_update_iff s.phase fun u q => ∀ k path i l, q = .found k path i l →
      s.entries path = some i ∧ ∃ y, s.listeners l = some y ∧ y.owned = true ∧ u ∈ y.calls ∧
        y.inum = i).mpr ⟨hFound, fun u _ => hInv.found u⟩

/- A phase in which the call relies on nothing. -/
def Phase.Plain : Phase P → Prop
  | .created _ _ _ _ => False
  | .registered _ _ _ _ => False
  | .resolved _ _ _ => False
  | .found _ _ _ _ => False
  | _ => True

theorem Inv.leave (hInv : Inv s) (hPlain : p.Plain) : Inv (s.setPhase t p) := by
  cases p with
  | idle | binding k path | connecting k path | queued k i l =>
    exact hInv.setPhase (by simp) (by simp) (by simp) (by simp)
  | _ => exact hPlain.elim

theorem Inv.idle (hInv : Inv s) : Inv (s.setPhase t .idle) := hInv.leave trivial

theorem Inv.setSocket {x : Option Sock} (hInv : Inv s) (hKeep : ∀ l y x₀, s.listeners l = some y →
      s.sockets k = some x₀ → x₀.state = .listening l →
        ∃ x₁, x = some x₁ ∧ x₁.state = .listening l) : Inv (s.setSocket k x) := by
  unfold Sys.setSocket
  refine { hInv with opened := ?_, created := ?_ }
  · intro l y hListener
    refine ⟨(hInv.opened l y hListener).1, fun hOwned => ?_⟩
    rcases (hInv.opened l y hListener).2 hOwned with ⟨j, x₀, hSock, hState⟩
    by_cases hj : j = k
    · rcases hKeep l y x₀ hListener (hj ▸ hSock) hState with ⟨x₁, rfl, hStill⟩
      exact ⟨k, x₁, update_self .., hStill⟩
    · exact ⟨j, x₀, (update_of_ne hj ..).trans hSock, hState⟩
  · intro u k' path i id hPhase
    exact { hInv.created u k' path i id hPhase with }

/- A socket that does not listen may be changed. -/
theorem Inv.setSocket_of_fresh {x : Option Sock} (hInv : Inv s)
    (hNot : ∀ x₀ ∈ s.sockets k, ∀ l, x₀.state ≠ .listening l) : Inv (s.setSocket k x) :=
  hInv.setSocket fun l _ x₀ _ hSock hState => absurd hState (hNot x₀ hSock l)

-- Holders of Inodes

/- Calls take and drop references, the rest stays. -/
theorem Inv.setRefs {f : List Nat → List Nat} (hInv : Inv s)
    (hKeep : ∀ u n, s.inodes i = some n → u ∈ n.refs →
      ((∃ k path id, s.phase u = .created k path i id) ∨ ∃ k path, s.phase u = .resolved k path i) →
        u ∈ f n.refs) : Inv (s.setInode i ((s.inodes i).map fun n =>
      { n with refs := f n.refs })) := by
  unfold Sys.setInode
  refine { hInv with entry := ?_, named := ?_, created := ?_, resolved := ?_ }
  · intro path j hEntry
    grind [update_apply, hInv.entry path j hEntry]
  · intro l y hListener
    grind [update_apply, hInv.named l y hListener]
  · intro u k path j id hPhase
    have hOld := hInv.created u k path j id hPhase
    exact { hOld with node := by grind [update_apply] }
  · intro u k path j hPhase
    grind [update_apply, hInv.resolved u k path j hPhase]

theorem Inv.holdNode (hInv : Inv s) : Inv (s.holdNode i t) :=
  hInv.setRefs (f := fun refs => t :: refs) fun _ _ _ hMem _ => List.mem_cons_of_mem _ hMem

theorem Inv.releaseNode (hInv : Inv s) (hIdle : s.phase t = .idle) : Inv (s.releaseNode i t) := by
  refine hInv.setRefs (f := fun refs => refs.erase t) ?_
  intro u n _ hMem hPhase
  have hNe : u ≠ t := by grind
  exact (List.mem_erase_of_ne hNe).mpr hMem

-- Listeners

theorem Inv.setListener {y y' : Listener} (hInv : Inv s) (hListener : s.listeners l = some y)
    (hInum : y'.inum = y.inum) (hOwned : y'.owned = y.owned)
    (hCalls : ∀ u k path i, s.phase u = .found k path i l → u ∈ y.calls → u ∈ y'.calls)
    (hBinding : ∀ u k path i, s.phase u = .registered k path i l → y' = y) :
    Inv (s.setListener l y') := by
  unfold Sys.setListener
  refine { hInv with
    opened := ?_, named := ?_, registered := ?_, created := ?_, binding := ?_, found := ?_ }
  · intro m z hz
    grind [update_apply, hInv.opened m]
  · intro m z hz
    grind [update_apply, hInv.named m]
  · intro j m z hMem hz
    grind [update_apply, hInv.registered j m]
  · intro u k path i id hPhase
    have hOld := hInv.created u k path i id hPhase
    exact { hOld with unborn := by grind [update_apply] }
  · intro u k path i m hPhase
    grind [update_apply, hInv.binding u k path i m hPhase]
  · intro u k path i m hPhase
    grind [update_apply, hInv.found u k path i m hPhase]

/- A listener that a socket owns is with no bind call. -/
theorem Inv.not_binding {y : Listener} {u : Nat} (hInv : Inv s) (hListener : s.listeners l = some y)
    (hOwned : y.owned = true) : s.phase u ≠ .registered k path i l := by
  intro hPhase
  grind [hInv.binding u k path i l hPhase]

theorem Inv.releaseListener (hInv : Inv s) (hIdle : s.phase t = .idle) :
    Inv (s.releaseListener l t) := by
  unfold Sys.releaseListener
  cases hListener : s.listeners l with
  | none => exact hInv
  | some y =>
    have hNe : ∀ u, s.phase u ≠ .idle → u ≠ t := by
      rintro u hu rfl
      exact hu hIdle
    refine hInv.setListener hListener rfl rfl ?_ ?_
    · intro u k path i hPhase hMem
      exact (List.mem_erase_of_ne (hNe u (by simp [hPhase]))).mpr hMem
    · intro u k path i hPhase
      have hAt := hInv.binding u k path i l hPhase
      rw [hListener] at hAt
      cases hAt
      simp [hNe u (by simp [hPhase])]

-- Closing

/- A listener that no call uses goes with its socket. -/
theorem Inv.dropListener {y : Listener} {x : Sock} (hInv : Inv s)
    (hListener : s.listeners l = some y) (hCalls : y.calls = []) (hSock : s.sockets k = some x)
    (hState : x.state = .listening l) :
    Inv ((s.setSocket k none).setListener l { y with owned := false }) := by
  unfold Sys.setSocket Sys.setListener
  refine { hInv with
    opened := ?_, named := ?_, registered := ?_, created := ?_, binding := ?_, found := ?_ }
  · intro m z hz
    have hOld : m ≠ l ∧ s.listeners m = some z := by grind [update_apply]
    refine ⟨(hInv.opened m z hOld.2).1, fun hOwned => ?_⟩
    rcases (hInv.opened m z hOld.2).2 hOwned with ⟨j, x', hSock', hListens⟩
    exact ⟨j, x', by grind [update_apply], hListens⟩
  · intro m z hz
    grind [update_apply, hInv.named m]
  · intro j m z hMem hz
    grind [update_apply, hInv.registered j m]
  · intro u k' path i id hPhase
    have hOld := hInv.created u k' path i id hPhase
    exact { hOld with unborn := by grind [update_apply] }
  · intro u k' path i m hPhase
    grind [update_apply, hInv.binding u k' path i m hPhase]
  · intro u k' path i m hPhase
    grind [update_apply, hInv.found u k' path i m hPhase]

theorem Inv.dropRef (hInv : Inv s) (hOk : s.dropOk k ref = true) : Inv (s.dropRef k ref) := by
  unfold Sys.dropRef
  unfold Sys.dropOk at hOk
  cases hSock : s.sockets k with
  | none => exact hInv
  | some x =>
    rcases x with ⟨state, refs⟩
    rw [hSock] at hOk
    by_cases hLast : refs.erase ref = []
    · simp only [if_pos hLast]
      cases state with
      | fresh | connected => exact hInv.setSocket_of_fresh (by simp [hSock])
      | listening l =>
        simp only [hLast, ne_eq, not_true_eq_false, decide_false, Bool.false_or] at hOk
        cases hListener : s.listeners l with
        | none =>
          simp only [hListener]
          refine hInv.setSocket ?_
          intro m y x₀ hm hx hState
          rw [hSock] at hx
          cases hx
          cases hState
          rw [hListener] at hm
          cases hm
        | some y =>
          simp only [hListener]
          rw [hListener] at hOk
          have hCalls : y.calls = [] := by simpa using hOk
          exact hInv.dropListener hListener hCalls hSock rfl
    · simp only [if_neg hLast]
      refine hInv.setSocket ?_
      intro l y x₀ _ hx hState
      rw [hSock] at hx
      cases hx
      exact ⟨_, rfl, hState⟩

theorem releaseListener_setPhase : (s.setPhase t p).releaseListener l t =
      (s.releaseListener l t).setPhase t p := by
  unfold Sys.releaseListener
  cases hListener : s.listeners l with
  | none =>
    have hAt : (s.setPhase t p).listeners l = none := hListener
    rw [hAt]
  | some y =>
    have hAt : (s.setPhase t p).listeners l = some y := hListener
    rw [hAt]
    rfl

theorem Inv.endCall {inum own : Option Nat} (hIdle : Inv (s.setPhase t .idle))
    (hOk : (own.elim s fun l =>
      s.releaseListener l t).dropOk k (.call t) = true) :
    Inv (s.endCall t k inum own) := by
  have hSelf : (s.setPhase t .idle).phase t = .idle := update_self ..
  -- the phase comes first here, so that nothing relies on
  -- what is released
  have hOwn : Inv ((own.elim s fun l =>
      s.releaseListener l t).setPhase t .idle) := by
    cases own with
    | none => exact hIdle
    | some l =>
      show Inv ((s.releaseListener l t).setPhase t .idle)
      rw [← releaseListener_setPhase]
      exact hIdle.releaseListener hSelf
  unfold Sys.endCall
  cases inum with
  | none => exact hOwn.dropRef hOk
  | some i =>
    have hNode := hOwn.releaseNode (i := i) (t := t) (update_self ..)
    exact hNode.dropRef hOk

-- Names

theorem ialloc_free (hAlloc : s.ialloc = some i) : s.inodes i = none := by
  have hFree := List.find?_some hAlloc
  simpa using hFree

/- A new node at a new name leaves all others alone. -/
theorem Inv.create [DecidableEq P] {n : Node} (hInv : Inv s) (hLinked : n.linked = true)
    (hCreate : s.create path n = some (i, s')) :
    Inv s' ∧ s.inodes i = none ∧ s'.entries path = some i ∧
      s' = { s with
        inodes := update s.inodes i (some n)
        entries := s'.entries } := by
  unfold Sys.create at hCreate
  split at hCreate <;> cases hCreate
  rename_i inum hNone hAlloc
  have hFree := ialloc_free hAlloc
  unfold Sys.setInode
  refine ⟨{ hInv with
    entry := ?_, inj := ?_, named := ?_, created := ?_, resolved := ?_, found := ?_ }, hFree,
    update_self .., rfl⟩
  · intro q j hEntry
    have hOld := hInv.entry q j
    grind [update_apply]
  · intro q q' j hq hq'
    have hOld := hInv.inj q q' j
    have hNode := fun r => hInv.entry r j
    grind [update_apply]
  · intro l y hListener
    rcases hInv.named l y hListener with ⟨q, m, hq, hm, hBound⟩
    exact ⟨q, m, by grind [update_apply], by grind [update_apply], hBound⟩
  · intro u k q j id hPhase
    have hOld := hInv.created u k q j id hPhase
    exact { hOld with entry := by grind [update_apply], node := by grind [update_apply] }
  · intro u k q j hPhase
    grind [update_apply, hInv.resolved u k q j hPhase]
  · intro u k q j l hPhase
    grind [update_apply, hInv.found u k q j l hPhase]

/- Nobody relies on the node that is unlinked. -/
theorem Inv.unlink [DecidableEq P] (hInv : Inv s) (hStep : s.unlink path = some s')
    (hOk : s.ok (.unlink path) = true) : Inv s' := by
  unfold Sys.unlink at hStep
  split at hStep
  · cases hStep
  rename_i i hEntry
  split at hStep
  · cases hStep
  rename_i n hNode
  cases hStep
  have hFree : ∀ l, n.creator = some l → s.listeners l = none ∧ ∀ t ∈ n.refs,
        (s.phase t).binds l = false := by
    intro l hCreator
    simp only [Sys.ok, hEntry, hNode, Option.all_some, hCreator, Sys.inUse, Bool.not_eq_true',
      Bool.or_eq_false_iff, Option.isSome_eq_false_iff,
      Option.isNone_iff_eq_none, List.any_eq_false, Bool.not_eq_true] at hOk
    exact hOk
  unfold Sys.setInode
  refine { hInv with
    entry := ?_, inj := ?_, named := ?_, created := ?_, resolved := ?_, found := ?_ }
  · intro q j hq
    have hOld := hInv.entry q j
    have hOne := hInv.inj q path j
    grind [update_apply]
  · intro q q' j hq hq'
    grind [update_apply, hInv.inj q q' j]
  · intro l y hListener
    rcases hInv.named l y hListener with ⟨q, m, hq, hm, hBound⟩
    have hOne := hInv.inj q path y.inum hq
    exact ⟨q, m, by grind [update_apply], by grind [update_apply], hBound⟩
  · intro u k q j id hPhase
    have hOld := hInv.created u k q j id hPhase
    have hNe : q ≠ path := by grind [Phase.binds]
    exact { hOld with
      entry := by grind [update_apply], node := by grind [update_apply, hInv.inj] }
  · intro u k q j hPhase
    grind [update_apply, hInv.resolved u k q j hPhase]
  · intro u k q j l hPhase
    grind [update_apply, hInv.found u k q j l hPhase, hInv.named l]

theorem Inv.reclaim {n : Node} (hInv : Inv s) (hNode : s.inodes i = some n)
    (hUnlinked : n.linked = false) (hRefs : n.refs = []) : Inv (s.setInode i none) := by
  unfold Sys.setInode
  refine { hInv with entry := ?_, named := ?_, created := ?_, resolved := ?_ }
  · intro q j hq
    grind [update_apply, hInv.entry q j hq]
  · intro l y hListener
    grind [update_apply, hInv.named l y hListener]
  · intro u k q j id hPhase
    have hOld := hInv.created u k q j id hPhase
    exact { hOld with node := by grind [update_apply] }
  · intro u k q j hPhase
    grind [update_apply, hInv.resolved u k q j hPhase]

-- Binding

theorem Inv.bindCreate [DecidableEq P] (hInv : Inv s) (hStep : s.stepBindCreate t = some s')
    (hOk : s.callOk t = true) : Inv s' := by
  unfold Sys.stepBindCreate at hStep
  split at hStep
  swap
  · cases hStep
  rename_i k path hPhase
  unfold Sys.callOk at hOk
  rw [hPhase] at hOk
  split at hStep
  · rename_i i s₁ hCreate
    cases hStep
    rcases hInv.create rfl hCreate with ⟨hNew, hFree, hEntry, hAfter⟩
    have hSerial : s₁.serial = s.serial := by rw [hAfter]
    have hListeners : s₁.listeners = s.listeners := by rw [hAfter]
    have hRegistry : s₁.registry = s.registry := by rw [hAfter]
    have hInode : s₁.inodes i = some ⟨true, true, [t], some s.serial⟩ := by
      rw [hAfter]
      exact update_self ..
    -- the number is new
    have hMore : Inv { s₁ with serial := s.serial + 1 } := by
      refine { hNew with opened := ?_, numbered := ?_, created := ?_ }
      · intro l y hListener
        grind [hNew.opened l y hListener]
      · intro j l hMem
        grind [hNew.numbered j l hMem]
      · intro u k' q j id hAt
        have hOld := hNew.created u k' q j id hAt
        exact { hOld with old := by grind }
    refine hMore.setPhase ?_ (by simp) (by simp) (by simp)
    intro k' q j id hEq
    cases hEq
    refine ⟨⟨Nat.lt_succ_self _, ?_, ?_, hEntry, _, hInode,
      ⟨rfl, rfl, rfl⟩, List.mem_singleton_self t⟩, ?_⟩
    · have hOld := hInv.opened s.serial
      show s₁.listeners s.serial = none
      rw [hListeners]
      cases hAt : s.listeners s.serial <;> grind
    · intro j hMem
      have hOld := hInv.numbered j s.serial
      grind
    · intro u k'' q' j' _ hAt
      grind [hNew.created u k'' q' j' _ hAt]
  · cases hStep
    exact hInv.idle.endCall hOk

/- The call holds the listener that it registers. -/
theorem Inv.bindRegister (hInv : Inv s) (hStep : s.stepBindRegister t = some s') : Inv s' := by
  unfold Sys.stepBindRegister at hStep
  split at hStep <;> cases hStep
  rename_i k path i id hPhase
  have hAw := hInv.created t k path i id hPhase
  -- the phase goes first: the call awaits its node no more
  have hIdle : Inv (s.setPhase t .idle) := hInv.idle
  have hReg : Inv (((s.sockRegister i id).setListener id
      ⟨i, [], false, [t]⟩).setPhase t .idle) := by
    unfold Sys.sockRegister Sys.setListener Sys.setPhase at *
    refine { hIdle with
      opened := ?_, named := ?_, registered := ?_, numbered := ?_, created := ?_, binding := ?_
      found := ?_ }
    · intro l y hy
      grind [update_apply, hInv.opened l]
    · intro l y hy
      grind [update_apply, hInv.named l]
    · intro j l y hMem hy
      grind [update_apply, hInv.registered j l]
    · intro j l hMem
      have hOld := hInv.numbered j l
      grind
    · intro u k' q j m hAt
      have hOld := hIdle.created u k' q j m hAt
      have hm : m ≠ id := by grind [update_apply, hInv.once]
      exact { hOld with
        unborn := by grind [update_apply], unregistered := by grind }
    · intro u k' q j m hAt
      grind [update_apply, hIdle.binding u k' q j m hAt]
    · intro u k' q j l hAt
      grind [update_apply, hIdle.found u k' q j l hAt]
  have hPhase' : ∀ q : Phase P, (((s.sockRegister i id).setListener id
      ⟨i, [], false, [t]⟩).setPhase t .idle).setPhase t q =
      ((s.sockRegister i id).setListener id ⟨i, [], false, [t]⟩).setPhase t q := by
    intro q
    simp [Sys.setPhase]
  rw [← hPhase']
  refine hReg.setPhase (by simp) ?_ (by simp) (by simp)
  intro k' q j m hEq
  cases hEq
  exact update_self ..

/- The socket listens, with its node in place. -/
theorem Inv.install {id : Nat} {refs : List Ref} (hInv : Inv s)
    (hPhase : s.phase t = .registered k path i id) (hSock : s.sockets k = some ⟨.fresh, refs⟩) :
    Inv (((s.setSocket k (some ⟨.listening id, refs⟩)).setListener id
      ⟨i, [], true, [t]⟩).setPhase t .idle) := by
  have hAt := hInv.binding t k path i id hPhase
  have hSet : Inv ((s.setSocket k (some ⟨.listening id, refs⟩)).setPhase t .idle) :=
    Inv.idle (hInv.setSocket_of_fresh (by simp [hSock]))
  unfold Sys.setSocket Sys.setListener Sys.setPhase at *
  refine { hSet with
    opened := ?_, named := ?_, registered := ?_, created := ?_, binding := ?_, found := ?_ }
  · intro l y hy
    by_cases hl : l = id
    · subst hl
      exact ⟨(hInv.opened _ _ hAt).1, fun _ => ⟨k, _, update_self .., rfl⟩⟩
    · exact hSet.opened l y (by grind [update_apply])
  · intro l y hy
    grind [update_apply, hInv.named l]
  · intro j l y hMem hy
    have hOld := hInv.registered j l
    grind [update_apply]
  · intro u k' q j m hAt'
    have hOld := hSet.created u k' q j m hAt'
    exact { hOld with unborn := by grind [update_apply] }
  · intro u k' q j m hAt'
    grind [update_apply, hSet.binding u k' q j m hAt']
  · intro u k' q j l hAt'
    grind [update_apply, hSet.found u k' q j l hAt']

theorem dropOk_of_idle {l : Nat} (hSock : s.sockets k = some ⟨.listening l, refs⟩)
    (hIdle : ∀ y ∈ s.listeners l, y.calls = []) : s.dropOk k ref = true := by
  unfold Sys.dropOk
  rw [hSock]
  simp only [Bool.or_eq_true, Option.all_eq_true, decide_eq_true_eq]
  exact .inr hIdle

theorem Inv.bindDone (hInv : Inv s) (hStep : s.stepBindDone t = some s') (hOk : s.callOk t = true) :
    Inv s' := by
  unfold Sys.stepBindDone at hStep
  split at hStep
  swap
  · cases hStep
  rename_i k path i id hPhase
  unfold Sys.callOk at hOk
  rw [hPhase] at hOk
  split at hStep
  · rename_i refs y hSock hListener
    cases hStep
    rw [hInv.binding t k path i id hPhase] at hListener
    cases hListener
    refine (hInv.install hPhase hSock).endCall ?_
    -- nobody has looked the new listener up
    generalize hSet : (s.setSocket k (some ⟨.listening id, refs⟩)).setListener id
      ⟨i, [], true, [t]⟩ = s₁
    have hSock₁ : s₁.sockets k = some ⟨.listening id, refs⟩ := by
      rw [← hSet]
      exact update_self ..
    have hAt : s₁.listeners id = some ⟨i, [], true, [t]⟩ := by
      rw [← hSet]
      exact update_self ..
    show (s₁.releaseListener id t).dropOk k (.call t) = true
    unfold Sys.releaseListener
    rw [hAt]
    refine dropOk_of_idle hSock₁ ?_
    simp [Sys.setListener]
  · cases hStep
    exact hInv.idle.endCall hOk

-- Connecting

theorem Inv.resolve (hInv : Inv s) (hStep : s.stepResolve t = some s') (hOk : s.callOk t = true) :
    Inv s' := by
  unfold Sys.stepResolve at hStep
  split at hStep
  swap
  · cases hStep
  rename_i k path hPhase
  unfold Sys.callOk at hOk
  rw [hPhase] at hOk
  split at hStep
  · rename_i i hEntry
    cases hStep
    refine hInv.holdNode.setPhase (by simp) (by simp) ?_ (by simp)
    intro k' q j hEq
    cases hEq
    rcases hInv.entry path i hEntry with ⟨n, hn, _⟩
    refine ⟨{ n with refs := t :: n.refs }, ?_, List.mem_cons_self .., fun _ => hEntry⟩
    show update s.inodes i _ i = _
    rw [update_self, hn]
    rfl
  · cases hStep
    exact hInv.idle.endCall hOk

theorem Inv.purge {registry : List (Nat × Nat)} (hInv : Inv s)
    (hSub : ∀ e ∈ registry, e ∈ s.registry) : Inv { s with registry := registry } := by
  refine { hInv with registered := ?_, numbered := ?_, created := ?_ }
  · intro j l y hMem
    exact hInv.registered j l y (hSub _ hMem)
  · intro j l hMem
    exact hInv.numbered j l (hSub _ hMem)
  · intro u k q j id hPhase
    have hAw := hInv.created u k q j id hPhase
    exact { hAw with unregistered := fun j' hMem => hAw.unregistered j' (hSub _ hMem) }

theorem Inv.lookup (hInv : Inv s) (hStep : s.stepLookup t = some s')
    (hBoth : s.ok (.lookup t) = true) : Inv s' := by
  rcases (Bool.and_eq_true ..).mp hBoth with ⟨hOk, hSettled⟩
  unfold Sys.stepLookup at hStep
  split at hStep
  swap
  · cases hStep
  rename_i k path i hPhase
  unfold Sys.callOk at hOk
  unfold Sys.lookupOk at hSettled
  rw [hPhase] at hOk hSettled
  have hPurged : Inv { s with registry := s.liveEntries } :=
    hInv.purge fun e he => (List.mem_filter.mp he).1
  split at hStep
  · unfold Sys.sockLookup at hStep
    split at hStep
    · rename_i l s₁ hLookup
      simp only [Prod.mk.injEq] at hLookup
      rcases hLookup with ⟨hFind, rfl⟩
      split at hStep <;> cases hStep
      rename_i y hListener
      have hListener : s.listeners l = some y := hListener
      have hOwned : y.owned = true := by simpa [Sys.sockLookup, hFind, hListener] using hSettled
      rcases Option.map_eq_some_iff.mp hFind with ⟨e, hFirst, rfl⟩
      have hNum : e.1 = i := by simpa using List.find?_some hFirst
      have hMem : e ∈ s.registry := (List.mem_filter.mp (List.mem_of_find?_eq_some hFirst)).1
      have hInum : y.inum = i := by
        rw [← hNum]
        exact hInv.registered e.1 e.2 y hMem hListener
      rcases hInv.named e.2 y hListener with ⟨_, n, _, hn, hBound⟩
      rw [hInum] at hn
      rcases hInv.resolved t k path i hPhase with ⟨m, hm, _, hLink⟩
      rw [hn] at hm
      cases hm
      have hSet : Inv (Sys.setListener { s with registry := s.liveEntries } e.2
          { y with calls := t :: y.calls }) := by
        refine hPurged.setListener hListener rfl rfl ?_ ?_
        · exact fun _ _ _ _ _ hIn => List.mem_cons_of_mem _ hIn
        · exact fun _ _ _ _ hAt => absurd hAt (hInv.not_binding hListener hOwned)
      have hAt : (Sys.setListener { s with registry := s.liveEntries } e.2
          { y with calls := t :: y.calls }).listeners e.2 =
            some { y with calls := t :: y.calls } := by
        show update s.listeners e.2 _ e.2 = _
        rw [update_self, if_pos]
        simp
      refine hSet.setPhase (by simp) (by simp) (by simp) ?_
      intro k' q j l hEq
      cases hEq
      exact ⟨hLink hBound.linked, _, hAt, hOwned, List.mem_cons_self .., hInum⟩
    · rename_i s₁ hLookup
      simp only [Prod.mk.injEq] at hLookup
      rcases hLookup with ⟨_, rfl⟩
      cases hStep
      exact hPurged.idle.endCall hOk
  · cases hStep
    exact hInv.idle.endCall hOk

theorem Inv.push (hInv : Inv s) (hStep : s.stepPush t = some s') (hOk : s.callOk t = true) :
    Inv s' := by
  unfold Sys.stepPush at hStep
  split at hStep
  swap
  · cases hStep
  rename_i k path i l hPhase
  unfold Sys.callOk at hOk
  rw [hPhase] at hOk
  split at hStep
  · cases hStep
  rename_i y hListener
  split at hStep
  · cases hStep
    exact hInv.idle.endCall hOk
  · cases hStep
    rcases hInv.found t k path i l hPhase with ⟨_, z, hz, hOwned, _⟩
    rw [hListener] at hz
    cases hz
    have hSet : Inv (s.setListener l { y with backlog := y.backlog ++ [t] }) :=
      hInv.setListener hListener rfl rfl (fun _ _ _ _ _ hIn => hIn)
        fun _ _ _ _ hAt => absurd hAt (hInv.not_binding hListener hOwned)
    exact hSet.leave trivial

theorem Inv.finish (hInv : Inv s) (hStep : s.stepFinish t = some s') (hOk : s.callOk t = true) :
    Inv s' := by
  unfold Sys.stepFinish at hStep
  split at hStep
  swap
  · cases hStep
  rename_i k i l hPhase
  unfold Sys.callOk at hOk
  rw [hPhase] at hOk
  split at hStep
  · rename_i refs hSock
    cases hStep
    have hSet : Inv (s.setSocket k (some ⟨.connected, refs⟩)) :=
      hInv.setSocket_of_fresh (by simp [hSock])
    refine hSet.idle.endCall ?_
    -- the socket does not listen
    have hAt : ((s.setSocket k (some ⟨.connected, refs⟩)).releaseListener
          l t).sockets k = some ⟨.connected, refs⟩ := by
      unfold Sys.releaseListener
      split <;> exact update_self ..
    show Sys.dropOk ((s.setSocket k (some ⟨.connected, refs⟩)).releaseListener l t) k
        (.call t) = true
    unfold Sys.dropOk
    rw [hAt]
  · cases hStep
    exact hInv.idle.endCall hOk

-- Runs

theorem getFile_some {x : Sock} (hFile : s.getFile k = some x) : s.sockets k = some x :=
  (Option.filter_eq_some_iff.mp hFile).1

theorem Inv.startCall (hInv : Inv s) (hStep : s.startCall t k p = some s') (hPlain : p.Plain) :
    Inv s' := by
  unfold Sys.startCall at hStep
  split at hStep <;> cases hStep
  rename_i refs hPhase hFile
  refine Inv.leave ?_ hPlain
  exact hInv.setSocket_of_fresh (by simp [getFile_some hFile])

theorem Inv.step [DecidableEq P] {a : Act P} (hInv : Inv s) (hStep : s.step a = some s')
    (hOk : s.ok a = true) : Inv s' := by
  cases a with
  | socket k =>
    simp only [Sys.step] at hStep
    split at hStep <;> cases hStep
    rename_i hSock
    exact hInv.setSocket_of_fresh (by simp [hSock])
  | create path =>
    rcases Option.map_eq_some_iff.mp hStep with ⟨⟨i, s₁⟩, hCreate, rfl⟩
    exact (hInv.create rfl hCreate).1
  | unlink path => exact hInv.unlink hStep hOk
  | reclaim i =>
    simp only [Sys.step] at hStep
    split at hStep <;> cases hStep
    rename_i hNode
    exact hInv.reclaim hNode rfl rfl
  | bind t k path | connect t k path => exact hInv.startCall hStep trivial
  | bindCreate t => exact hInv.bindCreate hStep hOk
  | bindRegister t => exact hInv.bindRegister hStep
  | bindDone t => exact hInv.bindDone hStep hOk
  | resolve t => exact hInv.resolve hStep hOk
  | lookup t => exact hInv.lookup hStep hOk
  | push t => exact hInv.push hStep hOk
  | finish t => exact hInv.finish hStep hOk
  | accept k =>
    simp only [Sys.step, Sys.stepAccept] at hStep
    split at hStep
    swap
    · cases hStep
    split at hStep <;> cases hStep
    rename_i hListener
    refine hInv.setListener hListener rfl rfl (fun _ _ _ _ _ hIn => hIn) ?_
    intro u k path i hPhase
    have hAt := hInv.binding u k path i _ hPhase
    rw [hListener] at hAt
    cases hAt
  | dup k =>
    simp only [Sys.step] at hStep
    split at hStep <;> cases hStep
    rename_i x hFile
    refine hInv.setSocket ?_
    intro l y x₀ _ hx hState
    rw [getFile_some hFile] at hx
    cases hx
    exact ⟨_, rfl, hState⟩
  | close k =>
    simp only [Sys.step] at hStep
    split at hStep <;> cases hStep
    exact hInv.dropRef hOk

/- The states that runs reach, and those with `Sys.ok` kept. -/
def Reaches {P : Type} [DecidableEq P] (ninodes : Nat) (s : Sys P) : Prop :=
  Reach Sys.step (fun _ _ => True) (Sys.boot ninodes) s

def OkReaches {P : Type} [DecidableEq P] (ninodes : Nat) (s : Sys P) : Prop :=
  Reach Sys.step (fun s a => s.ok a = true) (Sys.boot ninodes) s

end UnixSock

end PlayXv6
