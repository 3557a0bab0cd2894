import PlayXv6.Ipc.Pipe

/-
  Pipes are FIFO byte channels.

  Main declarations:
    * `stored`
    * `tracked_step`, `fifo_of_reach`
-/

namespace PlayXv6

open Function

namespace Pipe

variable {n : Nat}

def bytesOf (items : List Item) (id : Nat) : List UInt8 :=
  (items.filter fun x => x.call = id).map Item.byte

theorem bytesOf_append_self (items : List Item) (id : Nat) (b : UInt8) :
    bytesOf (items ++ [⟨id, b⟩]) id = bytesOf items id ++ [b] := by simp [bytesOf]

theorem bytesOf_append_of_ne {items : List Item} {id other : Nat} {b : UInt8} (hNe : id ≠ other) :
    bytesOf (items ++ [⟨id, b⟩]) other = bytesOf items other := by simp [bytesOf, hNe]

theorem bytesOf_eq_nil {items : List Item} {id : Nat} (hLt : ∀ x ∈ items, x.call < id) :
    bytesOf items id = [] := by
  unfold bytesOf
  rw [List.map_eq_nil_iff, List.filter_eq_nil_iff]
  intro x hx
  have hCall := hLt x hx
  simp only [decide_eq_true_eq]
  omega

/- The first `k` bytes of the user buffer of a call. -/
def stored (u : User) (c : Call) (k : Nat) : List UInt8 :=
  (List.range k).map fun i => u.mem (c.bufVa + i)

theorem stored_succ (u : User) (c : Call) (k : Nat) : stored u c (k + 1) =
      stored u c k ++ [u.mem (c.bufVa + k)] := by simp [stored, List.range_succ]

theorem take_stored {u : User} {c : Call} {k m : Nat} (hLe : k ≤ m) :
    (stored u c m).take k = stored u c k := by
  unfold stored
  rw [← List.map_take, List.take_range, min_eq_left hLe]

theorem stored_update (u : User) (c : Call) (k : Nat) (b : UInt8) : stored
        { u with
          mem := update u.mem (c.bufVa + k) b } c k = stored u c k := by
  unfold stored
  apply List.map_congr_left
  intro i hi
  have hLt := List.mem_range.mp hi
  exact update_of_ne (by omega) _ _

-- One Call

def WritePc.byte : WritePc n → Option UInt8
  | .nbReaders b => some b
  | .nbPush b => some b
  | .poll b => some b
  | .readers b => some b
  | .register b => some b
  | .push b => some b
  | .parked b => some b
  | _ => none

/- Bytes in the buffer that `k` does not count yet. -/
def WritePc.extra : WritePc n → Nat
  | .wake _ => 1
  | _ => 0

/- The byte a read has taken out and not stored yet. -/
def ReadPc.inHand : ReadPc n → List UInt8
  | .wake b _ => [b]
  | .store b => [b]
  | _ => []

/- A write of `sent` that has put `bytes` into the buffer. -/
structure WriteOk (sent bytes : List UInt8) (u : User) (c : Call) (k : Nat)
    (w : WritePc n) : Prop where
  sent : sent = stored u c c.len
  bytes : bytes = stored u c (k + w.extra)
  bound : k + w.extra ≤ c.len
  byte : ∀ b, w.byte = some b → k < c.len ∧ b = u.mem (c.bufVa + k)

/- The loop has found that bytes are still asked for. -/
def ReadPc.inLoop : ReadPc n → Bool
  | .top => false
  | .check => false
  | _ => true

/- A read that has taken `bytes` out of the buffer. -/
structure ReadOk (bytes : List UInt8) (u : User) (c : Call) (k : Nat) (r : ReadPc n) : Prop where
  bytes : bytes = stored u c k ++ r.inHand
  bound : r.inLoop → k < c.len

/- A read of `bytes` that has returned `r`. -/
def ReturnOk (bytes : List UInt8) (u : User) (c : Call) (r : Int) : Prop :=
  0 < r → (∀ i, i < c.len → u.writable (c.bufVa + i)) → bytes = stored u c r.toNat

/- The call of a task agrees with the histories. -/
def CallOk (sent : Nat → List UInt8) (s : Shared n) (u : User) : Pc n → Prop
  | .write c k w => WriteOk (sent c.id) (bytesOf s.pushed c.id) u c k w
  | .read c k r => ReadOk (bytesOf s.popped c.id) u c k r
  | .ret .read c r _ => ReturnOk (bytesOf s.popped c.id) u c r
  | _ => True

variable {s : Shared n} {t : Fin n} {τ τ' : Task n} {e : Effect n} {p : Pc n}
variable {sent : Nat → List UInt8}

theorem CallOk.of_eq {s' : Shared n} {u : User} (hOk : CallOk sent s u p)
    (hPushed : s'.pushed = s.pushed) (hPopped : s'.popped = s.popped) : CallOk sent s' u p := by
  unfold CallOk at hOk ⊢
  rw [hPushed, hPopped]
  exact hOk

theorem CallOk.apply_quiet {u : User} (hOk : CallOk sent s u p) (hQuiet : e.quiet) :
    CallOk sent (s.apply t e) u p := by
  have hSame := Pipe.apply_quiet (s := s) (t := t) hQuiet
  exact hOk.of_eq hSame.2.2.1 hSame.2.2.2

theorem WriteOk.next {c : Call} {k : Nat} {w : WritePc n}
    (hOk : WriteOk (sent c.id) (bytesOf s.pushed c.id) τ.user c k w)
    (hStep : WriteStep s τ c k w e p) : CallOk sent (s.apply t e) τ.user p := by
  -- a step inside the loop keeps the byte in hand
  have hKeep : ∀ {w' : WritePc n}, w'.extra = w.extra → w'.byte = w.byte → e.quiet →
        CallOk sent (s.apply t e) τ.user (.write c k w') := by
    intro w' hExtra hByte hQuiet
    refine CallOk.apply_quiet ?_ hQuiet
    exact ⟨hOk.sent, hExtra ▸ hOk.bytes, hExtra ▸ hOk.bound, hByte ▸ hOk.byte⟩
  have hPush : ∀ b, w.extra = 0 → w.byte = some b → CallOk sent (s.apply t (.push c.id b)) τ.user
        (.write c k (.wake .take)) := by
    intro b hExtra hByte
    rcases hOk.byte b hByte with ⟨hLt, rfl⟩
    refine ⟨hOk.sent, ?_, hLt, by simp [WritePc.byte]⟩
    have hBytes := hOk.bytes
    rw [hExtra, Nat.add_zero] at hBytes
    simp only [Shared.apply, WritePc.extra]
    rw [bytesOf_append_self, hBytes, stored_succ]
  cases hStep with
  | done _ | fail _ | again => trivial
  | start hLen hb hw =>
    subst hb
    have hByte : ∀ b, some (τ.user.mem (c.bufVa + k)) = some b →
        k < c.len ∧ b = τ.user.mem (c.bufVa + k) := fun b hb => ⟨hLen, (Option.some.inj hb).symm⟩
    rcases hw with rfl | rfl <;> exact { hOk with byte := hByte }
  | nbReaders | poll | readers _ | register | park _ | take | wake => exact hKeep rfl rfl rfl
  | nbFull | woken => exact { hOk with byte := by simp [WritePc.byte] }
  | push hw _ =>
    rcases hw with rfl | rfl <;> exact hPush _ rfl rfl

theorem ReadOk.next {c : Call} {k : Nat} {r : ReadPc n} {u : User}
    (hOk : ReadOk (bytesOf s.popped c.id) τ.user c k r) (hStep : ReadStep s τ c k r e p u) :
    CallOk sent (s.apply t e) u p := by
  -- nothing is in hand when the call returns `k`
  have hReturn : ∀ {m : Int}, r.inHand = [] → (m = k ∨ m = partialCount k) →
        ReturnOk (bytesOf s.popped c.id) τ.user c m := by
    intro m hHand hCount hPos _
    have hBytes := hOk.bytes
    rw [hHand, List.append_nil] at hBytes
    have hEq : m.toNat = k := by
      unfold partialCount at hCount
      omega
    rw [hEq]
    exact hBytes
  have hKeep : ∀ {r' : ReadPc n}, r'.inHand = r.inHand → (r'.inLoop → r.inLoop) → e.quiet →
        CallOk sent (s.apply t e) τ.user (.read c k r') := by
    intro r' hHand hLoop hQuiet
    refine CallOk.apply_quiet ?_ hQuiet
    exact ⟨hHand ▸ hOk.bytes, fun h => hOk.bound (hLoop h)⟩
  have hPop : ∀ b, r.inHand = [] → r.inLoop → CallOk sent (s.apply t (.pop c.id b)) τ.user
        (.read c k (.wake b .take)) := by
    intro b hHand hLoop
    have hBytes := hOk.bytes
    rw [hHand, List.append_nil] at hBytes
    refine ⟨?_, fun _ => hOk.bound hLoop⟩
    simp only [Shared.apply, ReadPc.inHand]
    rw [bytesOf_append_self, hBytes]
  cases hStep with
  | done _ | killed _ | empty => exact hReturn rfl (Or.inl rfl)
  | eof hr _ =>
    rcases hr with rfl | rfl <;> exact hReturn rfl (Or.inl rfl)
  | again => exact hReturn rfl (Or.inr rfl)
  | fault hFault => exact fun _ hAll => absurd (hAll k (hOk.bound rfl)) hFault
  | start hLen hr =>
    rcases hr with rfl | rfl <;> exact ⟨hOk.bytes, fun _ => hLen⟩
  | nbWriters _ | poll | register | writers _ | park _ | take | wake
  | woken | more => exact hKeep rfl id rfl
  | pop hr _ =>
    rcases hr with rfl | rfl <;> exact hPop _ rfl rfl
  | store =>
    refine ⟨?_, by simp [ReadPc.inLoop]⟩
    rw [stored_succ, stored_update]
    simp only [update_self, ReadPc.inHand, List.append_nil]
    exact hOk.bytes

/- A step of a task keeps its call in agreement. -/
theorem CallOk.next {arcs : Side → Nat} (hOk : CallOk sent s τ.user τ.pc)
    (hStep : TaskStep s arcs τ e τ') : CallOk sent (s.apply t e) τ'.user τ'.pc := by
  cases hStep with
  | write hPc hStep =>
    rw [hPc] at hOk
    exact WriteOk.next (τ := τ) hOk hStep
  | read hPc hStep =>
    rw [hPc] at hOk
    exact ReadOk.next (τ := τ) hOk hStep
  | _ => trivial

theorem CallOk.frame {u : User} (hOk : CallOk sent s u p) (hComes : e.Comes s τ τ')
    (hOther : ∀ i, p.callId = some i → τ.pc.callId ≠ some i) : CallOk sent (s.apply t e) u p := by
  have hNe : ∀ {i j}, τ.pc.callId = some i → p.callId = some j → i ≠ j := by
    rintro i j hi hj rfl
    exact hOther i hj hi
  refine hComes.elim (motive := fun e => CallOk sent (s.apply t e) u p) t ?_ ?_ ?_ ?_
  · intro _ _ hPushed hPopped
    exact hOk.of_eq hPushed hPopped
  · intro c k w b hPc _ _
    have hId : τ.pc.callId = some c.id := by rw [hPc]; rfl
    unfold CallOk at hOk ⊢
    split at hOk
    · simp only [Shared.apply]
      rw [bytesOf_append_of_ne (hNe hId rfl)]
      exact hOk
    · exact hOk
    · exact hOk
    · trivial
  · intro c k r b hPc _ _
    have hId : τ.pc.callId = some c.id := by rw [hPc]; rfl
    unfold CallOk at hOk ⊢
    split at hOk
    · exact hOk
    · simp only [Shared.apply]
      rw [bytesOf_append_of_ne (hNe hId rfl)]
      exact hOk
    · simp only [Shared.apply]
      rw [bytesOf_append_of_ne (hNe hId rfl)]
      exact hOk
    · trivial
  · intro d _ _
    exact hOk.of_eq (s := s) rfl rfl

-- Runs

/- The histories, the buffer and the calls agree. -/
structure Tracked (s : Sys n) : Prop where
  history : s.shared.pushed.map Item.byte = s.shared.popped.map Item.byte ++ s.shared.buf
  cap : s.shared.buf.length ≤ PIPE_CAP
  pushed : ∀ x ∈ s.shared.pushed, x.call < s.calls
  popped : ∀ x ∈ s.shared.popped, x.call < s.calls
  ids : ∀ t i, (s.tasks t).pc.callId = some i → i < s.calls
  distinct : ∀ t u i, (s.tasks t).pc.callId = some i → (s.tasks u).pc.callId = some i → t = u
  calls : ∀ t, CallOk s.sent s.shared (s.tasks t).user (s.tasks t).pc
  contributed : ∀ id, bytesOf s.shared.pushed id <+: s.sent id

theorem tracked_new (tasks : Fin n → Task n) : Tracked (Sys.new tasks) where
  history := rfl
  cap := Nat.zero_le _
  pushed := by simp [Sys.new]
  popped := by simp [Sys.new]
  ids t i hi := by simp [Sys.new, Pc.callId] at hi
  distinct t u i hi := by simp [Sys.new, Pc.callId] at hi
  calls t := trivial
  contributed id := List.prefix_refl _

/- The buffer keeps the order under every effect. -/
theorem history_apply (hComes : e.Comes s τ τ') (hHistory : s.pushed.map Item.byte =
      s.popped.map Item.byte ++ s.buf) (hCap : s.buf.length ≤ PIPE_CAP) :
    (s.apply t e).pushed.map Item.byte = (s.apply t e).popped.map Item.byte ++ (s.apply t e).buf ∧
      (s.apply t e).buf.length ≤ PIPE_CAP := by
  refine hComes.elim (motive := fun e => (s.apply t e).pushed.map Item.byte =
    (s.apply t e).popped.map Item.byte ++ (s.apply t e).buf ∧ (s.apply t e).buf.length ≤ PIPE_CAP)
    t ?_ ?_ ?_ (fun d _ _ => ⟨hHistory, hCap⟩)
  · intro hBuf _ hPushed hPopped
    rw [hBuf, hPushed, hPopped]
    exact ⟨hHistory, hCap⟩
  · intro c k w b _ hRoom _
    simp only [Shared.apply, List.map_append, hHistory,
      List.append_assoc, List.map_cons, List.map_nil, List.length_append, List.length_singleton]
    exact ⟨trivial, hRoom⟩
  · intro c k r b _ hHead _
    rcases List.head?_eq_some_iff.mp hHead with ⟨rest, hBuf⟩
    rw [hBuf] at hHistory hCap
    simp only [Shared.apply, hBuf, List.tail_cons, List.map_append, List.map_cons, List.map_nil,
      List.append_assoc, List.singleton_append]
    refine ⟨hHistory, ?_⟩
    rw [List.length_cons] at hCap
    omega

theorem mem_apply (hComes : e.Comes s τ τ') {x : Item} (hx : x ∈ (s.apply t e).pushed ∨
      x ∈ (s.apply t e).popped) : (x ∈ s.pushed ∨ x ∈ s.popped) ∨ τ.pc.callId = some x.call := by
  revert hx
  refine hComes.elim (motive := fun e => x ∈ (s.apply t e).pushed ∨ x ∈ (s.apply t e).popped →
    (x ∈ s.pushed ∨ x ∈ s.popped) ∨ τ.pc.callId = some x.call) t ?_ ?_ ?_
    (fun d _ _ hx => Or.inl hx)
  · intro _ _ hPushed hPopped hx
    rw [hPushed, hPopped] at hx
    exact Or.inl hx
  · intro c k w b hPc _ _ hx
    simp only [Shared.apply, List.mem_append, List.mem_singleton] at hx
    rcases hx with (hx | rfl) | hx
    · exact Or.inl (Or.inl hx)
    · exact Or.inr (by rw [hPc]; rfl)
    · exact Or.inl (Or.inr hx)
  · intro c k r b hPc _ _ hx
    simp only [Shared.apply, List.mem_append, List.mem_singleton] at hx
    rcases hx with hx | hx | rfl
    · exact Or.inl (Or.inl hx)
    · exact Or.inl (Or.inr hx)
    · exact Or.inr (by rw [hPc]; rfl)

/-
  A task moves on, in its call or out of it, and the shared
  state changes by bytes of that call only.
-/
theorem Tracked.move {σ : Sys n} {s' : Shared n} (hTracked : Tracked σ)
    (hId : τ'.pc.callId = (σ.tasks t).pc.callId ∨ τ'.pc.callId = none)
    (hHistory : s'.pushed.map Item.byte = s'.popped.map Item.byte ++ s'.buf)
    (hCap : s'.buf.length ≤ PIPE_CAP) (hItems : ∀ x, x ∈ s'.pushed ∨ x ∈ s'.popped →
      (x ∈ σ.shared.pushed ∨ x ∈ σ.shared.popped) ∨ (σ.tasks t).pc.callId = some x.call)
    (hCall : CallOk σ.sent s' τ'.user τ'.pc) (hOthers : ∀ u, u ≠ t →
      CallOk σ.sent s' (σ.tasks u).user (σ.tasks u).pc)
    (hContributed : ∀ id, bytesOf s'.pushed id <+: σ.sent id) :
    Tracked { σ.setTask t τ' with shared := s' } := by
  have hOld : ∀ u i, (update σ.tasks t τ' u).pc.callId = some i →
        (σ.tasks u).pc.callId = some i := by
    intro u i hi
    by_cases hu : u = t
    · subst hu
      rw [update_self] at hi
      rcases hId with hId | hId
      · rw [← hId]
        exact hi
      · rw [hId] at hi
        simp at hi
    · rw [update_of_ne hu] at hi
      exact hi
  have hBound : ∀ x, x ∈ s'.pushed ∨ x ∈ s'.popped → x.call < σ.calls := by
    intro x hx
    rcases hItems x hx with (hx | hx) | hCallId
    · exact hTracked.pushed x hx
    · exact hTracked.popped x hx
    · exact hTracked.ids t _ hCallId
  refine ⟨hHistory, hCap, fun x hx => hBound x (Or.inl hx),
    fun x hx => hBound x (Or.inr hx), ?_, ?_, ?_, hContributed⟩
  · intro u i hi
    exact hTracked.ids u i (hOld u i hi)
  · intro u v i hu hv
    exact hTracked.distinct u v i (hOld u i hu) (hOld v i hv)
  · exact (forall_update_iff σ.tasks fun _ τ => CallOk σ.sent s' τ.user τ.pc).mpr ⟨hCall, hOthers⟩

/- A task moves on and nothing is transferred. -/
theorem Tracked.still {σ : Sys n} {s' : Shared n} (hTracked : Tracked σ)
    (hId : τ'.pc.callId = (σ.tasks t).pc.callId ∨ τ'.pc.callId = none)
    (hBuf : s'.buf = σ.shared.buf) (hPushed : s'.pushed = σ.shared.pushed)
    (hPopped : s'.popped = σ.shared.popped) (hCall : CallOk σ.sent σ.shared τ'.user τ'.pc) :
    Tracked { σ.setTask t τ' with shared := s' } := by
  refine hTracked.move hId ?_ ?_ ?_ ?_ ?_ ?_
  · rw [hBuf, hPushed, hPopped]
    exact hTracked.history
  · rw [hBuf]
    exact hTracked.cap
  · intro x hx
    rw [hPushed, hPopped] at hx
    exact Or.inl hx
  · exact hCall.of_eq hPushed hPopped
  · intro u _
    exact (hTracked.calls u).of_eq hPushed hPopped
  · intro id
    rw [hPushed]
    exact hTracked.contributed id

theorem Tracked.stepTask {σ : Sys n} {arcs : Side → Nat} (hTracked : Tracked σ)
    (hStep : TaskStep σ.shared arcs (σ.tasks t) e τ') :
    Tracked { σ.setTask t τ' with
      shared := σ.shared.apply t e } := by
  rcases hStep.comes with ⟨hComes, hId⟩
  have hCall := CallOk.next (t := t) (hTracked.calls t) hStep
  rcases history_apply (t := t) hComes hTracked.history hTracked.cap with ⟨hHistory, hCap⟩
  refine hTracked.move (hId.imp And.left And.left) hHistory
    hCap (fun x hx => mem_apply hComes hx) hCall ?_ ?_
  · intro u hu
    refine (hTracked.calls u).frame hComes ?_
    intro i hi ht
    exact hu (hTracked.distinct u t i hi ht)
  · intro id
    revert hCall
    refine hComes.elim (motive := fun e => CallOk σ.sent (σ.shared.apply t e) τ'.user τ'.pc →
      bytesOf (σ.shared.apply t e).pushed id <+: σ.sent id) t ?_ ?_ ?_ ?_
    · intro _ _ hPushed _ _
      rw [hPushed]
      exact hTracked.contributed id
    · intro c k w b _ _ hPc hCall
      by_cases hEq : c.id = id
      · subst hEq
        rw [hPc] at hCall
        have hOk : WriteOk (σ.sent c.id) (bytesOf (σ.shared.apply t (.push c.id b)).pushed c.id)
            τ'.user c k (.wake .take) := hCall
        rw [hOk.bytes, hOk.sent, ← take_stored hOk.bound]
        exact List.take_prefix _ _
      · simp only [Shared.apply]
        rw [bytesOf_append_of_ne hEq]
        exact hTracked.contributed id
    · exact fun _ _ _ _ _ _ _ _ => hTracked.contributed id
    · exact fun _ _ _ _ => hTracked.contributed id

theorem Tracked.start {σ : Sys n} {data : List UInt8} (hTracked : Tracked σ)
    (hId : τ'.pc.callId = some σ.calls) (hCall : ∀ sent : Nat → List UInt8, sent σ.calls = data →
        bytesOf σ.shared.pushed σ.calls = [] → bytesOf σ.shared.popped σ.calls = [] →
            CallOk sent σ.shared τ'.user τ'.pc) :
    Tracked { σ.setTask t τ' with
      calls := σ.calls + 1
      sent := update σ.sent σ.calls data } := by
  have hNone := bytesOf_eq_nil hTracked.pushed
  have hOut := bytesOf_eq_nil hTracked.popped
  have hOther : ∀ u i, u ≠ t → (update σ.tasks t τ' u).pc.callId = some i →
        (σ.tasks u).pc.callId = some i ∧ i < σ.calls := by
    intro u i hu hi
    rw [update_of_ne hu] at hi
    exact ⟨hi, hTracked.ids u i hi⟩
  have hSelf : ∀ i, (update σ.tasks t τ' t).pc.callId = some i → i = σ.calls := by
    intro i hi
    rw [update_self, hId] at hi
    exact (Option.some.inj hi).symm
  refine ⟨hTracked.history, hTracked.cap, fun x hx => (hTracked.pushed x hx).trans
      (Nat.lt_succ_self _), fun x hx => (hTracked.popped x hx).trans
      (Nat.lt_succ_self _), ?_, ?_, ?_, ?_⟩
  · intro u i hi
    by_cases hu : u = t
    · subst hu
      rw [hSelf i hi]
      exact Nat.lt_succ_self _
    · exact (hOther u i hu hi).2.trans (Nat.lt_succ_self _)
  · intro u v i hu hv
    by_cases hut : u = t
    · by_cases hvt : v = t
      · rw [hut, hvt]
      · subst hut
        have hLt := (hOther v i hvt hv).2
        have hEq := hSelf i hu
        omega
    · by_cases hvt : v = t
      · subst hvt
        have hLt := (hOther u i hut hu).2
        have hEq := hSelf i hv
        omega
      · exact hTracked.distinct u v i (hOther u i hut hu).1 (hOther v i hvt hv).1
  · refine (forall_update_iff σ.tasks fun _ τ =>
      CallOk (update σ.sent σ.calls data) σ.shared τ.user τ.pc).mpr
        ⟨hCall _ (update_self _ _ _) hNone hOut, ?_⟩
    intro u _
    have hOk := hTracked.calls u
    unfold CallOk at hOk ⊢
    split at hOk
    · rename_i c k w hPc
      have hLt := hTracked.ids u c.id (by rw [hPc]; rfl)
      rw [update_of_ne (Nat.ne_of_lt hLt)]
      exact hOk
    · exact hOk
    · exact hOk
    · trivial
  · intro id
    change bytesOf σ.shared.pushed id <+: update σ.sent σ.calls data id
    by_cases hEq : id = σ.calls
    · rw [hEq, hNone]
      exact List.nil_prefix
    · rw [update_of_ne hEq]
      exact hTracked.contributed id

theorem callOk_repoll {u : User} {p' : Pc n} (hOk : CallOk sent s u p)
    (hRepoll : p.repoll = some p') : CallOk sent s u p' ∧ p'.callId = p.callId := by
  rcases Pc.repoll_cases hRepoll with ⟨rfl, rfl⟩ | ⟨c, k, b, rfl, rfl⟩ | ⟨c, k, rfl, rfl⟩
  · exact ⟨trivial, rfl⟩
  · have hWrite : WriteOk _ _ _ _ _ _ := hOk
    exact ⟨{ hWrite with }, rfl⟩
  · have hRead : ReadOk _ _ _ _ _ := hOk
    exact ⟨⟨hRead.bytes, hRead.bound⟩, rfl⟩

theorem tracked_step {σ σ' : Sys n} {a : Act n} (hTracked : Tracked σ)
    (hStep : σ.step a = some σ') : Tracked σ' := by
  cases a with
  | write t user bufVa len nonblock =>
    simp only [Sys.step] at hStep
    split at hStep <;> cases hStep
    refine hTracked.start rfl ?_
    intro sent hSent hNone _
    exact ⟨hSent, hNone, Nat.zero_le _, by simp [WritePc.byte]⟩
  | read t user bufVa len nonblock =>
    simp only [Sys.step] at hStep
    split at hStep <;> cases hStep
    have hStart : Tracked { σ.setTask t
            { σ.tasks t with
              user := user
              pc := .read ⟨σ.calls, bufVa, len, nonblock⟩ 0 .top } with
          calls := σ.calls + 1
          sent := update σ.sent σ.calls (σ.sent σ.calls) } := by
      refine hTracked.start rfl ?_
      intro sent _ _ hOut
      exact ⟨hOut, by simp [ReadPc.inLoop]⟩
    rw [update_eq_self] at hStart
    exact hStart
  | step t =>
    simp only [Sys.step] at hStep
    rcases Option.map_eq_some_iff.mp hStep with ⟨⟨e, τ'⟩, hNext, rfl⟩
    exact hTracked.stepTask (Task.next_step hNext)
  | poll t =>
    simp only [Sys.step] at hStep
    split at hStep
    · simp at hStep
    · rcases Option.map_eq_some_iff.mp hStep with ⟨p, hRepoll, rfl⟩
      rcases callOk_repoll (hTracked.calls t) hRepoll with ⟨hCall, hId⟩
      exact hTracked.still (Or.inl hId) rfl rfl rfl hCall
  | wake t =>
    cases hStep
    exact { hTracked with calls := fun u => (hTracked.calls u).of_eq rfl rfl }
  | kill t =>
    cases hStep
    have hStill : Tracked { σ.setTask t { σ.tasks t with killed := true } with
          shared := σ.shared } := hTracked.still (Or.inl rfl) rfl rfl rfl (hTracked.calls t)
    exact hStill
  | dup d =>
    simp only [Sys.step] at hStep
    split at hStep <;> cases hStep
    exact { hTracked with }
  | close t d =>
    simp only [Sys.step] at hStep
    split at hStep <;> cases hStep
    have hStill : Tracked { σ.setTask t
        { σ.tasks t with
          pc := if σ.arcs d = 1 then .drop d
            else .user } with shared := σ.shared } := by
      refine hTracked.still (Or.inr ?_) rfl rfl rfl ?_
      · dsimp only
        split <;> rfl
      · dsimp only
        split <;> trivial
    exact { hStill with }

/-
  The pipe is a FIFO channel: what was removed, followed by
  what is in the buffer, is what was inserted; every write
  has inserted the first bytes of its data in their order;
  and a read that returns a count has stored what it removed,
  if it could store at all.
-/
structure Fifo (s : Sys n) : Prop where
  order : s.shared.pushed.map Item.byte = s.shared.popped.map Item.byte ++ s.shared.buf
  cap : s.shared.buf.length ≤ PIPE_CAP
  contributed : ∀ id, bytesOf s.shared.pushed id <+: s.sent id
  returned : ∀ t c r eof, (s.tasks t).pc = .ret .read c r eof → 0 < r → (∀ i, i < c.len →
        (s.tasks t).user.writable (c.bufVa + i)) → bytesOf s.shared.popped c.id =
          stored (s.tasks t).user c r.toNat

/- In every run the pipe is a FIFO channel. -/
theorem fifo_of_reach {tasks : Fin n → Task n} {s : Sys n}
    (hReach : Machine.Reach Sys.step (fun _ _ => True) (Sys.new tasks) s) : Fifo s := by
  have hTracked : Tracked s := hReach.invariant (fun m a m' hm _ hStep => tracked_step hm hStep)
      (tracked_new tasks)
  refine ⟨hTracked.history, hTracked.cap, hTracked.contributed, ?_⟩
  intro t c r eof hPc hPos hAll
  have hCall := hTracked.calls t
  rw [hPc] at hCall
  exact hCall hPos hAll

/- A process that may read and write all of its memory. -/
def sampleUser : User where
  mem := UInt8.ofNat
  readable := fun _ => true
  writable := fun _ => true

def sampleTasks (n : Nat) : Fin n → Task n := fun _ => ⟨sampleUser, false, .user⟩

/- One task writes two bytes and another reads them. -/
theorem fifo_of_reach_sample : ∃ s : Sys 2, Fifo s ∧ s.shared.popped.map Item.byte = [10, 11] ∧
        ∃ c, (s.tasks 1).pc = .ret .read c 2 false := by
  have hRun : (Machine.run Sys.step (fun _ _ => True) (Sys.new (sampleTasks 2))
      (.write 0 sampleUser 10 2 false :: (List.replicate 15 (.step 0) ++
          .read 1 sampleUser 100 2 false :: List.replicate 17 (.step 1)))).any (fun s =>
        s.shared.popped.map Item.byte == [10, 11] &&
          (s.tasks 1).pc == .ret .read ⟨1, 100, 2, false⟩ 2 false) = true := by
    decide +kernel
  rcases Machine.exists_reach hRun with ⟨s, hReach, hCheck⟩
  rw [Bool.and_eq_true, beq_iff_eq, beq_iff_eq] at hCheck
  rcases hCheck with ⟨hPopped, hPc⟩
  exact ⟨s, fifo_of_reach hReach, hPopped, _, hPc⟩

end Pipe

end PlayXv6
