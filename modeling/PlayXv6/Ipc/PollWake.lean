import PlayXv6.Ipc.Poll

/-
  Wakes of `poll` and of `input_read`.

  A caller has tested conditions and found them false, and
  is on some of their lists.  What comes true while it is on
  the list brings a wake; what comes true between the test
  and the registration is missed, since nothing is tested
  again.  A caller may also lose its place in a waker of the
  TCP stack to the next one that registers.  `Quiet` names the
  steps that miss nobody.

  Main declarations:
    * `Quiet`
    * `Watched`, `Watched.next`, `Watched.frame`
    * `poll_wakes_of_reach`
    * `poll_wake_lost`
-/

namespace PlayXv6

open Function Machine

namespace Poll

variable {σ σ' : Sys} {d d' : Devices} {w : WaitLists WList Nat} {op : WaitLists.Op WList Nat}
variable {call : PollCall} {killed late : Bool} {o : Out} {ready t u : Nat} {k : Pc} {l : WList}

def Pc.tested : Pc → List Cond
  | .sweep _ _ _ tested _ => tested
  | .swept _ tested => tested
  | .clock _ tested => tested
  | .arm _ tested => tested
  | .register _ tested _ _ _ => tested
  | .parked _ tested _ => tested
  | .inputArm _ _ => [.inputPending]
  | .inputReg _ _ => [.inputPending]
  | .inputParked _ _ => [.inputPending]
  | _ => []

variable {tested : List Cond}

def Pc.regs : Pc → List WList
  | .register _ _ regs _ _ => regs
  | .parked _ _ regs => regs
  | .inputParked _ _ => [.input]
  | _ => []

def Pc.isParked : Pc → Bool
  | .parked _ _ _ => true
  | .inputParked _ _ => true
  | _ => false

def Pc.entries : Pc → List PollFd
  | .sweep call _ _ _ _ => call.entries
  | .swept call _ => call.entries
  | .clock call _ => call.entries
  | .arm call _ => call.entries
  | .register call _ _ _ _ => call.entries
  | .parked call _ _ => call.entries
  | _ => []

/-
  A change of the devices that misses nobody.  A condition
  that a caller has found false comes true only when the
  caller is on its list, and not by an end-of-file mark put
  back or by the last bytes read, which wake nobody; a socket
  that is polled keeps its state.
-/
def DevOk (σ : Sys) (v : Dev) : Prop :=
  ∀ t,
    (∀ n, v.socket? = some n →
      ∀ e ∈ (σ.pc t).entries, e.target ≠ .file (.socket n)) ∧
    ∀ d' ls, v.apply σ.dev = some (d', ls) →
      ∀ c ∈ (σ.pc t).tested,
        c.holds σ.dev = false → c.holds d' = true →
          v.mute = false ∧
            ((σ.pc t).isParked = false →
              ∀ l, c.list = some l → l ∈ (σ.pc t).regs)

/- A step of `t` on the wait lists that takes nothing from who is in one of the two calls. -/
def OpOk (σ : Sys) (t : Nat) (op : WaitLists.Op WList Nat) : Prop :=
  ∀ u, u ≠ t → σ.pc u ≠ .idle → op.Spares σ.waits u

def Quiet (σ : Sys) : Act → Prop
  | .dev _ v => DevOk σ v
  | .run t late =>
    ∀ o, (σ.pc t).next σ.dev (σ.killed t) (σ.waits.ready t) late t = some o →
      OpOk σ t o.op
  | .enrol t l => OpOk σ t (l.join t)
  | _ => True

/- The conditions belong to descriptors of the call. -/
def From (d : Devices) (call : PollCall) (conds : List Cond) : Prop :=
  ∀ c ∈ conds, ∃ e ∈ call.entries, c ∈ e.conds d

/- Every condition of every descriptor was tested. -/
def Covers (d : Devices) (call : PollCall) (tested : List Cond) : Prop :=
  ∀ e ∈ call.entries, ∀ c ∈ e.conds d, c ∈ tested

def Fits (d : Devices) : Pc → Prop
  | .sweep call cur todo tested found =>
    From d call (cur ++ tested) ∧ todo ⊆ call.entries ∧
      (found = false → ∀ e ∈ call.entries, e ∈ todo ∨ ∀ c ∈ e.conds d, c ∈ cur ∨ c ∈ tested)
  | .swept call tested => From d call tested ∧ Covers d call tested
  | .clock call tested => From d call tested ∧ Covers d call tested
  | .arm call tested => From d call tested ∧ Covers d call tested
  | .register call tested regs cur todo =>
    todo ⊆ call.entries ∧ Covers d call tested ∧ ∀ c ∈ tested, ∀ l, c.list = some l →
        l ∈ regs ∨ l ∈ cur ∨ ∃ e ∈ todo, l ∈ e.lists d
  | .parked call tested regs =>
    Covers d call tested ∧ ∀ c ∈ tested, ∀ l, c.list = some l → l ∈ regs
  | _ => True

structure Watched (d : Devices) (w : WaitLists WList Nat) (t : Nat) (k : Pc) : Prop where
  fits : Fits d k
  listens : ∀ l ∈ k.regs, w.Listens t l
  tested : ∀ c ∈ k.tested, c.holds d = true → w.Due t

/- A parked caller is on the lists of all it has tested. -/
theorem regs_of_parked (hFits : Fits d k) (hParked : k.isParked = true) {c : Cond}
    (hMem : c ∈ k.tested) {l : WList} (hList : c.list = some l) : l ∈ k.regs := by
  cases k with
  | parked call tested regs => exact hFits.2 c hMem l hList
  | inputParked len nonblock =>
    rw [Pc.tested, List.mem_singleton] at hMem
    subst hMem
    cases hList
    exact List.mem_singleton_self _
  | _ => cases hParked

theorem spares_join : (l.join t).Spares w t := by
  cases l with
  | tcpRecv h | tcpSend h => exact fun hNe => absurd rfl hNe
  | _ => trivial

theorem listens_join : (w.apply (l.join t)).Listens t l := by
  cases l with
  | tcpRecv h | tcpSend h => exact WaitLists.listens_replace
  | _ => exact WaitLists.listens_register

-- The Acting Caller

theorem Watched.top (call : PollCall) : Watched d w t call.top where
  fits := ⟨nofun, List.Subset.refl _, fun _ _ he => .inl he⟩
  listens := nofun
  tested := nofun

theorem Watched.move {k' : Pc} (hOld : Watched d w t k) (hFits : Fits d k')
    (hRegs : k'.regs = k.regs) (hTested : k'.tested = k.tested) : Watched d w t k' where
  fits := hFits
  listens := hRegs ▸ hOld.listens
  tested := hTested ▸ hOld.tested

theorem Watched.of_nil (hFits : Fits d k) (hRegs : k.regs = []) (hTested : k.tested = []) :
    Watched d w t k where
  fits := hFits
  listens := by simp [hRegs]
  tested := by simp [hTested]

theorem Watched.sweep {cur : List Cond} {todo : List PollFd} {found : Bool}
    (hOld : Watched d w t (.sweep call cur todo tested found))
    (hNext : Pc.next d killed ready late t (.sweep call cur todo tested found) = some o) :
    Watched o.dev (w.apply o.op) t o.pc := by
  rcases hOld with ⟨⟨hFrom, hTodo, hCover⟩, hListens, hTested⟩
  cases cur with
  | cons c cur =>
    have hFrom' : From d call (cur ++ tested) := fun x hx => hFrom x (List.mem_cons_of_mem _ hx)
    simp only [Pc.next] at hNext
    split at hNext
    · cases hNext
      refine ⟨⟨hFrom', hTodo, by simp⟩, by simp [Pc.regs], hTested⟩
    · rename_i hFalse
      cases hNext
      refine ⟨⟨?_, hTodo, ?_⟩, by simp [Pc.regs], ?_⟩
      · intro x hx
        exact hFrom x (by grind)
      · intro hFound e he
        grind [hCover hFound e he]
      · intro x hx hHolds
        rcases List.mem_cons.mp hx with rfl | hx
        · exact absurd hHolds hFalse
        · exact hTested x hx hHolds
  | nil =>
    cases todo with
    | cons e todo =>
      cases hNext
      rw [List.cons_subset] at hTodo
      refine ⟨⟨?_, hTodo.2, ?_⟩, by simp [Pc.regs], hTested⟩
      · intro x hx
        rcases List.mem_append.mp hx with hNew | hOld
        · exact ⟨e, hTodo.1, hNew⟩
        · exact hFrom x hOld
      · intro hFound f hf
        grind [hCover hFound f hf]
    | nil =>
      simp only [Pc.next] at hNext
      split at hNext
      · cases hNext
        exact .of_nil trivial rfl rfl
      · rename_i hGo
        rw [not_or, Bool.not_eq_true] at hGo
        cases hNext
        refine ⟨⟨hFrom, ?_⟩, by simp [Pc.regs], hTested⟩
        intro e he x hx
        grind [hCover hGo.1 e he]

theorem Watched.register {regs cur : List WList} {todo : List PollFd} (hOld : Watched d w t
      (.register call tested regs cur todo)) (hNext : Pc.next d killed ready late t
      (.register call tested regs cur todo) = some o) : Watched o.dev (w.apply o.op) t o.pc := by
  rcases hOld with ⟨⟨hTodo, hCover, hLists⟩, hListens, hTested⟩
  cases cur with
  | cons l cur =>
    cases hNext
    refine ⟨⟨hTodo, hCover, ?_⟩, ?_, ?_⟩
    · intro c hc m hm
      grind [hLists c hc m hm]
    · intro m hm
      rcases List.mem_cons.mp hm with rfl | hm
      · exact listens_join
      · exact (hListens m hm).apply spares_join
    · intro c hc hHolds
      exact (hTested c hc hHolds).apply spares_join
  | nil =>
    cases todo with
    | cons e todo =>
      cases hNext
      rw [List.cons_subset] at hTodo
      refine ⟨⟨hTodo.2, hCover, ?_⟩, hListens, hTested⟩
      intro c hc m hm
      grind [hLists c hc m hm]
    | nil =>
      cases hNext
      refine ⟨⟨hCover, ?_⟩, hListens, hTested⟩
      intro c hc m hm
      grind [hLists c hc m hm]

/- The tests that failed have lists that will be visited. -/
theorem lists_of_from (hFrom : From d call tested) :
    ∀ c ∈ tested, ∀ l, c.list = some l → ∃ e ∈ call.entries, l ∈ e.lists d := by
  intro c hc l hl
  rcases hFrom c hc with ⟨e, he, hMem⟩
  exact ⟨e, he, conds_listed hMem hl⟩

theorem Watched.next (hOld : Watched d w t k)
    (hNext : k.next d killed ready late t = some o) : Watched o.dev (w.apply o.op) t o.pc := by
  cases k with
  | idle => cases hNext
  | sweep call cur todo tested found => exact hOld.sweep hNext
  | swept call tested | clock call tested =>
    simp only [Pc.next] at hNext
    split at hNext <;> cases hNext
    · exact .of_nil trivial rfl rfl
    · exact hOld.move hOld.fits rfl rfl
  | arm call tested =>
    simp only [Pc.next] at hNext
    split at hNext <;> cases hNext
    · exact .top call
    · refine hOld.move ⟨List.Subset.refl _, hOld.fits.2, ?_⟩ rfl rfl
      intro c hc l hl
      exact .inr (.inr (lists_of_from hOld.fits.1 c hc l hl))
  | register call tested regs cur todo => exact hOld.register hNext
  | parked call tested regs =>
    simp only [Pc.next] at hNext
    split at hNext <;> cases hNext
    exact .top call
  | inputTop len nonblock | inputRead len nonblock =>
    simp only [Pc.next] at hNext
    repeat' split at hNext
    all_goals
      cases hNext
      exact .of_nil trivial rfl rfl
  | inputWait len nonblock =>
    simp only [Pc.next] at hNext
    split at hNext
    · cases hNext
      exact .of_nil trivial rfl rfl
    · rename_i hFalse
      cases hNext
      refine ⟨trivial, by simp [Pc.regs], ?_⟩
      intro c hc hHolds
      rw [Pc.tested, List.mem_singleton] at hc
      subst hc
      exact absurd hHolds hFalse
  | inputArm len nonblock =>
    simp only [Pc.next] at hNext
    split at hNext <;> cases hNext
    · exact .of_nil trivial rfl rfl
    · exact hOld.move trivial rfl rfl
  | inputReg len nonblock =>
    cases hNext
    refine ⟨trivial, ?_, ?_⟩
    · intro l hl
      rw [Pc.regs, List.mem_singleton] at hl
      subst hl
      exact listens_join (l := .input)
    · intro c hc hHolds
      exact (hOld.tested c hc hHolds).apply (spares_join (l := .input))
  | inputParked len nonblock =>
    simp only [Pc.next] at hNext
    split at hNext <;> cases hNext
    exact .of_nil trivial rfl rfl

-- The Others

/- The tests and the lists of the call are the same. -/
def SameEntries (d d' : Devices) (k : Pc) : Prop :=
  ∀ e ∈ k.entries,
    e.conds d' = e.conds d ∧ e.lists d' = e.lists d

theorem Covers.congr (hSame : ∀ e ∈ call.entries,
      e.conds d' = e.conds d ∧ e.lists d' = e.lists d) (hCover : Covers d call tested) :
    Covers d' call tested := by
  intro e he c hc
  rw [(hSame e he).1] at hc
  exact hCover e he c hc

theorem From.congr {conds : List Cond} (hSame : ∀ e ∈ call.entries,
      e.conds d' = e.conds d ∧ e.lists d' = e.lists d) (hFrom : From d call conds) :
    From d' call conds := by
  intro c hc
  rcases hFrom c hc with ⟨e, he, hMem⟩
  exact ⟨e, he, by rw [(hSame e he).1]; exact hMem⟩

theorem Fits.congr (hSame : SameEntries d d' k) (hFits : Fits d k) : Fits d' k := by
  cases k with
  | sweep call cur todo tested found =>
    rcases hFits with ⟨hFrom, hTodo, hCover⟩
    refine ⟨hFrom.congr hSame, hTodo, ?_⟩
    intro hFound e he
    rw [(hSame e he).1]
    exact hCover hFound e he
  | swept call tested | clock call tested
  | arm call tested => exact ⟨hFits.1.congr hSame, hFits.2.congr hSame⟩
  | register call tested regs cur todo =>
    rcases hFits with ⟨hTodo, hCover, hLists⟩
    refine ⟨hTodo, hCover.congr hSame, ?_⟩
    intro c hc l hl
    refine (hLists c hc l hl).imp_right (.imp_right ?_)
    rintro ⟨e, he, hIn⟩
    exact ⟨e, he, (hSame e (hTodo he)).2 ▸ hIn⟩
  | parked call tested regs => exact ⟨hFits.1.congr hSame, hFits.2⟩
  | _ => trivial

/- What the others do leaves a caller watched. -/
theorem Watched.frame (hOld : Watched d w u k) (hOp : op.Spares w u) (hSame : SameEntries d d' k)
    (hHolds : ∀ c ∈ k.tested, c.holds d' = true → c.holds d = true ∨ (w.apply op).Due u) :
    Watched d' (w.apply op) u k where
  fits := hOld.fits.congr hSame
  listens l hl := (hOld.listens l hl).apply hOp
  tested c hc hTrue := by
    rcases hHolds c hc hTrue with hBefore | hNew
    · exact (hOld.tested c hc hBefore).apply hOp
    · exact hNew

theorem Watched.wait (hOld : Watched d w u k) (hOp : op.Spares w u) :
    Watched d (w.apply op) u k :=
  hOld.frame hOp (fun _ _ => ⟨rfl, rfl⟩) fun _ _ hTrue => .inl hTrue

def Reads (d d' : Devices) : Prop := d' = d ∨ ∃ n, d' = { d with events := d.events - n }

theorem reads_next (hNext : k.next d killed ready late t = some o) : Reads d o.dev := by
  cases k with
  | inputRead len nonblock =>
    simp only [Pc.next] at hNext
    split at hNext
    · cases hNext
      exact .inr ⟨_, rfl⟩
    · split at hNext <;> cases hNext <;>
        exact .inl rfl
  | sweep call cur todo tested found | register call tested regs cur todo =>
    cases cur <;> cases todo <;>
      grind [Pc.next, Pc.goto, Reads]
  | _ => grind [Pc.next, Pc.goto, Reads]

theorem Reads.holds {c : Cond} (hReads : Reads d d') (hHolds : c.holds d' = true) :
    c.holds d = true := by
  rcases hReads with rfl | ⟨n, rfl⟩
  · exact hHolds
  · cases c with
    | inputPending =>
      simp only [Cond.holds, decide_eq_true_eq] at hHolds ⊢
      omega
    | _ => exact hHolds

theorem Reads.sockets (hReads : Reads d d') : d'.sockets = d.sockets := by
  rcases hReads with rfl | ⟨n, rfl⟩ <;> rfl

theorem sameEntries_of_sockets (hSockets : ∀ n, (∃ e ∈ k.entries, e.target = .file (.socket n)) →
        d'.sockets n = d.sockets n) : SameEntries d d' k := by
  intro e he
  have hAt := fun n hn => hSockets n ⟨e, he, hn⟩
  rcases e with ⟨target, pollin, pollout⟩
  cases target with
  | file f =>
    cases f with
    | socket n =>
      have hSame := hAt n rfl
      simp [PollFd.conds, PollFd.lists, File.conds, File.lists, hSame]
    | _ => exact ⟨rfl, rfl⟩
  | _ => exact ⟨rfl, rfl⟩

/- Who changes a device is in no other call. -/
theorem spares_op {v : Dev} {p : Nat} {ls : List WList} (hFree : p ∉ w.calls) :
    (v.op p ls).Spares w u := by
  cases v with
  | tcp h s rx tx => trivial
  | _ => exact hFree

theorem due_op {v : Dev} {p : Nat} {ls : List WList} (hFree : p ∉ w.calls)
    (hListens : w.Listens u l) (hMem : l ∈ ls) : (w.apply (v.op p ls)).Due u := by
  cases v with
  | tcp h s rx tx => exact hListens.flush hMem
  | _ => exact hListens.announce hFree hMem

/- A quiet change of the devices misses nobody. -/
theorem Watched.dev {v : Dev} {p : Nat} {ls : List WList}
    (hOld : Watched σ.dev σ.waits u (σ.pc u)) (hOk : DevOk σ v) (hFree : p ∉ σ.waits.calls)
    (hApply : v.apply σ.dev = some (d', ls)) :
    Watched d' (σ.waits.apply (v.op p ls)) u (σ.pc u) := by
  rcases hOk u with ⟨hSocket, hTrue⟩
  refine hOld.frame (spares_op hFree) ?_ ?_
  · refine sameEntries_of_sockets ?_
    rintro n ⟨e, he, hTarget⟩
    refine Dev.sockets hApply ?_
    intro hEq
    exact hSocket n hEq e he hTarget
  · intro c hc hAfter
    by_cases hBefore : c.holds σ.dev = true
    · exact .inl hBefore
    · right
      rw [Bool.not_eq_true] at hBefore
      rcases hTrue d' ls hApply c hc hBefore hAfter with ⟨hMute, hRegs⟩
      rcases Dev.announces hApply hMute hBefore hAfter with ⟨l, hl, hIn⟩
      have hReg : l ∈ (σ.pc u).regs := by
        cases hParked : (σ.pc u).isParked with
        | false => exact hRegs hParked l hl
        | true => exact regs_of_parked hOld.fits hParked hc hl
      exact due_op hFree (hOld.listens l hReg) hIn

-- Runs

def AllWatched (σ : Sys) : Prop := ∀ t, Watched σ.dev σ.waits t (σ.pc t)

/- The wait lists change and take nothing from who is in a call. -/
theorem AllWatched.wait (hAll : AllWatched σ)
    (hOp : ∀ u, σ.pc u ≠ .idle → op.Spares σ.waits u) : AllWatched (σ.wait op) := by
  intro u
  change Watched σ.dev (σ.waits.apply op) u (σ.pc u)
  by_cases hIdle : σ.pc u = .idle
  · rw [hIdle]
    exact .of_nil trivial rfl rfl
  · exact (hAll u).wait (hOp u hIdle)

theorem watched_go (hAll : AllWatched σ) (hSelf : Watched o.dev (σ.waits.apply o.op) t o.pc)
    (hOp : OpOk σ t o.op) (hDev : Reads σ.dev o.dev) : AllWatched (σ.go t o) := by
  refine (forall_update_iff σ.pc fun u k => Watched o.dev (σ.waits.apply o.op) u k).mpr
    ⟨hSelf, fun u hu => ?_⟩
  by_cases hIdle : σ.pc u = .idle
  · rw [hIdle]
    exact .of_nil trivial rfl rfl
  · refine (hAll u).frame (hOp u hu hIdle) ?_ fun c _ hTrue => .inl (hDev.holds hTrue)
    refine sameEntries_of_sockets fun n _ => ?_
    rw [hDev.sockets]

theorem watched_step {a : Act} (hAll : AllWatched σ) (hQuiet : Quiet σ a)
    (hStep : σ.step a = some σ') : AllWatched σ' := by
  cases a with
  | start t c =>
    simp only [Sys.step] at hStep
    split at hStep
    · rcases Option.map_eq_some_iff.mp hStep with ⟨k, hBegin, rfl⟩
      refine watched_go hAll ?_ (fun _ _ _ => trivial) (.inl rfl)
      cases c with
      | poll call =>
        simp only [Call.begin] at hBegin
        split at hBegin <;> cases hBegin
        exact .top call
      | read len nonblock =>
        cases hBegin
        exact .of_nil trivial rfl rfl
    · cases hStep
  | run t late =>
    rcases Option.map_eq_some_iff.mp hStep with ⟨o, hNext, rfl⟩
    exact watched_go hAll ((hAll t).next hNext) (hQuiet o hNext) (reads_next hNext)
  | dev p v =>
    rcases Option.ite_none_left_eq_some.mp hStep with ⟨hFree, hMap⟩
    rcases Option.map_eq_some_iff.mp hMap with ⟨⟨d', ls⟩, hApply, rfl⟩
    intro u
    exact (hAll u).dev hQuiet hFree hApply
  | wake p =>
    rcases Option.ite_none_right_eq_some.mp hStep with ⟨_, ⟨⟩⟩
    exact hAll.wait fun _ _ => trivial
  | enrol t l =>
    rcases Option.ite_none_right_eq_some.mp hStep with ⟨hIdle, ⟨⟩⟩
    refine hAll.wait fun u hu => hQuiet u ?_ hu
    rintro rfl
    exact hu hIdle
  | poke t =>
    cases hStep
    exact hAll.wait fun _ _ => trivial
  | drain t =>
    rcases Option.ite_none_right_eq_some.mp hStep with ⟨hIdle, ⟨⟩⟩
    refine hAll.wait fun u hu hEq => ?_
    subst hEq
    exact hu hIdle
  | kill t =>
    cases hStep
    exact hAll
  | expire t =>
    simp only [Sys.step] at hStep
    split at hStep <;> cases hStep
    have hWait : AllWatched (σ.wait (.poke t)) := hAll.wait fun _ _ => trivial
    exact hWait

theorem watched_of_reach (hReach : Reach Sys.step Quiet (Sys.start d) σ) : AllWatched σ :=
  hReach.invariant (fun _ _ _ hAll hQuiet hStep => watched_step hAll hQuiet hStep)
    fun _ => .of_nil trivial rfl rfl

/- Somebody is in a call of `wake_all` and queues the task by going on with it. -/
def WakePending (σ : Sys) (t : Nat) : Prop :=
  ∃ p σ', Reach Sys.step (fun _ a => a = .wake p) σ σ' ∧ 0 < σ'.waits.ready t

theorem wakePending_of_due (hDue : σ.waits.Due t) : WakePending σ t := by
  rcases hDue.arrives with ⟨p, hArrives⟩
  refine ⟨p, hArrives.reach (v := Sys.waits) (I := fun _ => True) ?_ trivial⟩
  intro τ _ hCall
  exact ⟨τ.wait (.wake p), if_pos hCall, rfl, trivial⟩

/-
  In every run whose changes of the devices are quiet, a
  caller that is parked while a descriptor it waits for is
  ready has its wake under way.
-/
theorem poll_wakes_of_reach (hReach : Reach Sys.step Quiet (Sys.start d) σ) (t : Nat) :
    (∀ call tested regs, σ.pc t = .parked call tested regs →
      ∀ e ∈ call.entries, e.ready σ.dev → WakePending σ t) ∧
    (∀ len nonblock, σ.pc t = .inputParked len nonblock → Cond.inputPending.holds σ.dev = true →
        WakePending σ t) := by
  have hWatched := watched_of_reach hReach t
  constructor
  · rintro call tested regs hParked e he ⟨c, hc, hHolds⟩
    rw [hParked] at hWatched
    exact wakePending_of_due (hWatched.tested c (hWatched.fits.1 e he c hc) hHolds)
  · intro len nonblock hParked hHolds
    rw [hParked] at hWatched
    exact wakePending_of_due
      (hWatched.tested .inputPending (List.mem_singleton_self _) hHolds)

-- A Poll of One Pipe

/- Nothing is pending anywhere; every pipe and connection has both ends. -/
def quietDevices : Devices where
  cooked := []
  edit := []
  held := 0
  events := 0
  pipes := fun _ => ⟨0, 1, 1⟩
  backlog := fun _ => 0
  tcp := fun _ => ⟨false, true, true, true, true⟩
  sockets := fun k => .tcp k

def samplePoll : PollCall where
  entries := [⟨.file (.pipeRead 0), true, false⟩]
  timeout := -1

/- The steps of the sweep, and those up to the parking. -/
def sampleSweep : List Act := .start 1 (.poll samplePoll) :: List.replicate 4 (.run 1 false)

def samplePark : List Act := List.replicate 6 (.run 1 false)

/- A byte is written and the list of readers woken. -/
def sampleWrite : List Act := [.dev 0 (.pipePush 0 1), .wake 0, .wake 0]

def Act.solo : Act → Bool
  | .start t _ => t == 1
  | .run t _ => t == 1
  | _ => false

/- One task alone displaces nobody. -/
theorem quiet_of_solo (hReach : Reach Sys.step (fun _ a => a.solo = true) (Sys.start d) σ) :
    Reach Sys.step Quiet (Sys.start d) σ ∧ ∀ t, t ≠ 1 → σ.pc t = .idle := by
  refine hReach.invariant (I := fun τ =>
    Reach Sys.step Quiet (Sys.start d) τ ∧ ∀ t, t ≠ 1 → τ.pc t = .idle) ?_ ⟨.refl, fun _ _ => rfl⟩
  rintro τ a τ' ⟨hQuiet, hIdle⟩ hSolo hStep
  have hOp : ∀ op, OpOk τ 1 op := fun op u hu hBusy => absurd (hIdle u hu) hBusy
  have hGo : ∀ o, ∀ t, t ≠ 1 → (τ.go 1 o).pc t = .idle :=
    fun o t ht => (update_of_ne ht ..).trans (hIdle t ht)
  cases a with
  | start u c =>
    have hu : u = 1 := by simpa [Act.solo] using hSolo
    subst hu
    refine ⟨hQuiet.next (a := .start 1 c) trivial hStep, ?_⟩
    rcases Option.ite_none_right_eq_some.mp hStep with ⟨_, hMap⟩
    rcases Option.map_eq_some_iff.mp hMap with ⟨_, _, rfl⟩
    exact hGo _
  | run u late =>
    have hu : u = 1 := by simpa [Act.solo] using hSolo
    subst hu
    refine ⟨hQuiet.next (a := .run 1 late) (fun o _ => hOp o.op) hStep, ?_⟩
    rcases Option.map_eq_some_iff.mp hStep with ⟨_, _, rfl⟩
    exact hGo _
  | _ => cases hSolo

theorem notMem_of_isEmpty {p : Nat} (hCalls : σ.waits.calls.entries.isEmpty = true) :
    p ∉ σ.waits.calls := by
  rw [AList.mem_keys, AList.keys, List.isEmpty_iff.mp hCalls]
  exact List.not_mem_nil

/- A caller that is parked is reached by the write. -/
theorem poll_wakes_of_reach_sample :
    ∃ σ : Sys, Reach Sys.step Quiet (Sys.start quietDevices) σ ∧
      (Cond.nonempty 0).holds σ.dev = true ∧ σ.waits.ready 1 = 0 ∧ WakePending σ 1 := by
  have hRun : (run Sys.step (fun _ a => a.solo = true) (Sys.start quietDevices)
      (sampleSweep ++ samplePark)).any (fun σ =>
        decide (σ.pc 1 = .parked samplePoll [.noWriters 0, .nonempty 0] [.pipeRead 0]) &&
        decide ((σ.dev.pipes 0).len = 0) && σ.waits.calls.entries.isEmpty &&
        decide (σ.waits.ready 1 = 0)) = true := by
    decide +kernel
  rcases exists_reach hRun with ⟨σ, hSolo, hCheck⟩
  simp only [Bool.and_eq_true, decide_eq_true_eq] at hCheck
  rcases hCheck with ⟨⟨⟨hParked, hLen⟩, hCalls⟩, hReady⟩
  rcases quiet_of_solo hSolo with ⟨hReach, hIdle⟩
  -- the write finds the caller parked and nobody else
  have hOk : DevOk σ (.pipePush 0 1) := by
    intro t
    refine ⟨by simp [Dev.socket?], ?_⟩
    intro d' ls _ c hc _ _
    refine ⟨rfl, ?_⟩
    intro hNot
    by_cases ht : t = 1
    · subst ht
      rw [hParked] at hNot
      cases hNot
    · rw [hIdle t ht] at hc
      cases hc
  have hStep : σ.step (.dev 0 (.pipePush 0 1)) =
      some { σ.wait (.announce 0 [.pipeRead 0]) with
        dev := σ.dev.setPipe 0
          { σ.dev.pipes 0 with
            len := (σ.dev.pipes 0).len + 1 } } := by
    simp [Sys.step, Dev.apply, Dev.op, hLen, notMem_of_isEmpty hCalls]
  have hQuiet : Quiet σ (.dev 0 (.pipePush 0 1)) := hOk
  have hNext := hReach.next hQuiet hStep
  refine ⟨_, hNext, by simp [Cond.holds, Devices.setPipe], hReady, ?_⟩
  refine (poll_wakes_of_reach hNext 1).1 samplePoll _ _ hParked
    ⟨.file (.pipeRead 0), true, false⟩ (by simp [samplePoll])
    ⟨.nonempty 0, by simp [PollFd.conds, File.conds, asked], ?_⟩
  simp [Cond.holds, Devices.setPipe]

/- Nothing is on its way to any task. -/
def Sys.still (σ : Sys) : Bool := σ.waits.calls.entries.isEmpty && σ.timers.isEmpty

theorem not_pending_of_still (hStill : σ.still = true) (hReady : σ.waits.ready t = 0) :
    ¬WakePending σ t ∧ t ∉ σ.timers := by
  simp only [Sys.still, Bool.and_eq_true] at hStill
  rcases hStill with ⟨hCalls, hTimers⟩
  constructor
  · rintro ⟨p, σ', hReach, hQueued⟩
    have hSame : σ' = σ := by
      refine hReach.invariant (I := fun τ => τ = σ) ?_ rfl
      rintro τ a τ' rfl rfl hStep
      exact absurd (Option.ite_none_right_eq_some.mp hStep).1 (notMem_of_isEmpty hCalls)
    rw [hSame, hReady] at hQueued
    cases hQueued
  · rw [List.isEmpty_iff.mp hTimers]
    exact List.not_mem_nil

/- `input_read` up to the registration, and a key. -/
def sampleRead : List Act := .start 2 (.read 8 false) :: List.replicate 4 (.run 2 false)

def sampleKey : List Act := [.dev 0 (.keyboard [8]), .wake 0, .wake 0, .run 2 false]

/- Two tasks park on a connection, and data arrives. -/
def tcpPoll : PollCall where
  entries := [⟨.file (.socket 0), true, false⟩]
  timeout := -1

def sampleTcp (t : Nat) : List Act := .start t (.poll tcpPoll) :: List.replicate 11 (.run t false)

def sampleSegment : Act := .dev 0 (.tcp 0 ⟨true, true, true, true, true⟩ true false)

/-
  The write comes after the sweep and before the
  registration: the caller is parked over a filled pipe with
  no wake and no timer.  The same happens to a reader of the
  keyboard whose key arrives before it registers, and to the
  first of two callers that poll one connection.
-/
theorem poll_wake_lost :
    (∃ (σ : Sys) (tested : List Cond) (regs : List WList),
      Reach Sys.step (fun _ _ => True) (Sys.start quietDevices) σ ∧
      σ.pc 1 = .parked samplePoll tested regs ∧ (∃ e ∈ samplePoll.entries, e.ready σ.dev) ∧
      ¬WakePending σ 1 ∧ 1 ∉ σ.timers) ∧
    (∃ σ : Sys, Reach Sys.step (fun _ _ => True) (Sys.start quietDevices) σ ∧
      σ.pc 2 = .inputParked 8 false ∧ Cond.inputPending.holds σ.dev = true ∧
      ¬WakePending σ 2 ∧ 2 ∉ σ.timers) ∧
    ∃ (σ : Sys) (tested : List Cond) (regs : List WList),
      Reach Sys.step (fun _ _ => True) (Sys.start quietDevices) σ ∧
      σ.pc 1 = .parked tcpPoll tested regs ∧ (∃ e ∈ tcpPoll.entries, e.ready σ.dev) ∧
      ¬WakePending σ 1 ∧ 1 ∉ σ.timers := by
  refine ⟨?_, ?_, ?_⟩
  · have hRun : (run Sys.step (fun _ _ => True) (Sys.start quietDevices)
        (sampleSweep ++ sampleWrite ++ samplePark)).any (fun σ =>
          decide (σ.pc 1 = .parked samplePoll [.noWriters 0, .nonempty 0] [.pipeRead 0]) &&
          (Cond.nonempty 0).holds σ.dev &&
          σ.still && decide (σ.waits.ready 1 = 0)) = true := by
      decide +kernel
    rcases exists_reach hRun with ⟨σ, hReach, hCheck⟩
    simp only [Bool.and_eq_true, decide_eq_true_eq] at hCheck
    rcases hCheck with ⟨⟨⟨hParked, hHolds⟩, hStill⟩, hReady⟩
    refine ⟨σ, _, _, hReach, hParked, ?_, not_pending_of_still hStill hReady⟩
    refine ⟨⟨.file (.pipeRead 0), true, false⟩, by simp [samplePoll], .nonempty 0, ?_, hHolds⟩
    simp [PollFd.conds, File.conds, asked]
  · have hRun : (run Sys.step (fun _ _ => True)
        (Sys.start quietDevices) (sampleRead ++ sampleKey)).any
        (fun σ => decide (σ.pc 2 = .inputParked 8 false) && Cond.inputPending.holds σ.dev &&
          σ.still && decide (σ.waits.ready 2 = 0)) = true := by decide +kernel
    rcases exists_reach hRun with ⟨σ, hReach, hCheck⟩
    simp only [Bool.and_eq_true, decide_eq_true_eq] at hCheck
    rcases hCheck with ⟨⟨⟨hParked, hHolds⟩, hStill⟩, hReady⟩
    exact ⟨σ, hReach, hParked, hHolds, not_pending_of_still hStill hReady⟩
  · have hRun : (run Sys.step (fun _ _ => True) (Sys.start quietDevices)
        (sampleTcp 1 ++ sampleTcp 2 ++ [sampleSegment])).any (fun σ =>
          decide (σ.pc 1 = .parked tcpPoll [.hungUp 0, .canRecv 0] [.tcpSend 0, .tcpRecv 0]) &&
          decide (σ.dev.sockets 0 = .tcp 0) && (Cond.canRecv 0).holds σ.dev &&
          σ.still && decide (σ.waits.ready 1 = 0)) = true := by
      decide +kernel
    rcases exists_reach hRun with ⟨σ, hReach, hCheck⟩
    simp only [Bool.and_eq_true, decide_eq_true_eq] at hCheck
    rcases hCheck with ⟨⟨⟨⟨hParked, hSocket⟩, hHolds⟩, hStill⟩, hReady⟩
    refine ⟨σ, _, _, hReach, hParked, ?_, not_pending_of_still hStill hReady⟩
    refine ⟨⟨.file (.socket 0), true, false⟩, by simp [tcpPoll], .canRecv 0, ?_, hHolds⟩
    simp [PollFd.conds, File.conds, asked, hSocket]

end Poll

end PlayXv6
