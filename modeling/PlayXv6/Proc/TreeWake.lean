import PlayXv6.Proc.TreeInv

/-
  Parents that wait are woken.

  A process registers its waker before it looks at its
  children, a child stores its state before it reads its
  parent, and an exiting process wakes `init` after it has
  handed over its children.  So a process that is parked
  while a child it waits for has exited has its wake under
  way: its task is queued, its waker is in the hands of
  somebody who will use it, or somebody is about to take it.

  Main declarations:
    * `Woken`, `Coming`
    * `tree_of_reach`
-/

namespace PlayXv6

open Function Machine

namespace Tree

variable {σ σ' : Sys} {s : Shared} {free : Bool} {p q r t : Nat} {k k' : Pc} {e : Effect}

def Pc.wakes : Pc → Option Nat
  | .wakeInit _ => some INIT
  | .wakeParent q => some q
  | _ => none

/- Whose waker the process has taken and not yet used. -/
def Pc.pushes : Pc → Option Nat
  | .pushInit _ => some INIT
  | .pushParent q => some q
  | _ => none

/- The process has registered its waker for the poll. -/
def Pc.registered : Pc → Bool
  | .lock _ _ => true
  | .scan _ _ _ _ => true
  | .parked _ _ => true
  | _ => false

/- What is waited for, and the children not yet looked at. -/
def Pc.watch : Pc → Option (Option Nat × List Nat)
  | .scan filter _ _ todo => some (filter, todo)
  | .parked filter _ => some (filter, [])
  | _ => none

def Woken (σ : Sys) (p : Nat) : Prop :=
  0 < σ.shared.ready p ∨ p ∈ σ.shared.hands ∨
    ∃ r, (σ.pc r).pushes = some p

/-
  Somebody is about to take the waker; a child that has
  stored its state and not read its parent counts.
-/
def Coming (σ : Sys) (p : Nat) : Prop :=
  (∃ r, (σ.pc r).wakes = some p) ∨
    ∃ c ∈ σ.shared.children p, σ.pc c = .readParent

def WakePending (σ : Sys) (p : Nat) : Prop := Woken σ p ∨ (σ.shared.waitWaker p = true ∧ Coming σ p)

structure Watched (σ : Sys) : Prop where
  registered : ∀ p, (σ.pc p).registered = true → Woken σ p ∨ σ.shared.waitWaker p = true
  seen : ∀ p filter todo, (σ.pc p).watch = some (filter, todo) →
    ∀ c ∈ σ.shared.children p, c ∉ todo → wanted filter c = true → σ.shared.zombie c = true →
      Woken σ p ∨ Coming σ p

/- The facts about one step that the wakes depend on. -/
structure Tells (s : Shared) (p : Nat) (k : Pc) (e : Effect) (k' : Pc) : Prop where
  wakes : ∀ t, k.wakes = some t → (s.waitWaker t = true ∧ k'.pushes = some t) ∨
      s.waitWaker t = false
  pushes : ∀ t, k.pushes = some t → e = .wake t
  takes : ∀ t, e = .takeWaker t → k'.pushes = some t
  polls : e = .poll → k'.registered = false
  splices : ∀ l, e = .splice l → k'.wakes = some INIT
  exits : e = .setZombie → k' = .readParent
  reads : k = .readParent → ∀ q, s.parent p = some q → k'.wakes = some q
  registers : k'.registered = true → e = .register ∨ (k.registered = true ∧ e = .skip)
  watches : ∀ filter todo, k'.watch = some (filter, todo) → e = .skip ∧ (todo = s.children p ∨
      ∃ todo', k.watch = some (filter, todo') ∧ ∀ c, c ∉ todo → wanted filter c = true →
          s.zombie c = true → c ∉ todo')

theorem Moves.tells (hMoves : Moves s free p k e k') : Tells s p k e k' := by
  rcases hMoves with hNext | ⟨rfl, d, hBegin⟩
  · cases k with
    | reparent code done todo | scan filter nonblock anyMatch todo =>
      cases todo <;>
        constructor <;>
        grind [Pc.next, Pc.wakes, Pc.pushes, Pc.registered, Pc.watch]
    | _ =>
      constructor <;>
        grind [Pc.next, Pc.wakes, Pc.pushes, Pc.registered, Pc.watch]
  · cases d <;>
      constructor <;>
      grind [Call.begin, Pc.wakes, Pc.pushes, Pc.registered, Pc.watch]

-- Wakes Stay Under Way

@[grind =] theorem pc_go : (σ.go r (e, k')).pc q = if q = r then k' else σ.pc q := update_apply ..

theorem Woken.go (hTells : Tells σ.shared r (σ.pc r) e k') (hPoll : p = r → e ≠ .poll)
    (hWoken : Woken σ p) : Woken (σ.go r (e, k')) p := by
  rcases hWoken with hReady | hHands | ⟨u, hu⟩
  · left
    change 0 < (σ.shared.apply r e).ready p
    cases e with
    | wake t | spawn c | poll =>
      simp only [Shared.apply, update_apply]
      grind
    | _ => exact hReady
  · right
    left
    change p ∈ (σ.shared.apply r e).hands
    cases e <;> exact hHands
  · by_cases hur : u = r
    · subst hur
      left
      change 0 < (σ.shared.apply u e).ready p
      rw [hTells.pushes p hu]
      simp [Shared.apply]
    · exact .inr (.inr ⟨u, by grind⟩)

/- A process that is not its own to change keeps its list. -/
theorem children_subset (hPass : Passes σ.shared r (σ.pc r) e k') (hNe : p ≠ r) :
    σ.shared.children p ⊆ (σ.shared.apply r e).children p := by
  cases hPass with
  | keep _ _ hKeeps _ =>
    rw [(apply_children_of_keeps hKeeps).1]
    exact List.Subset.refl _
  | splice l _ _ _ _ _ =>
    simp only [Shared.apply, update_apply]
    grind
  | create => exact List.Subset.refl _
  | push | take | remove => simp [Shared.apply, update_of_ne hNe]

/- A wake that is coming stays so, or arrives. -/
theorem Coming.go (hInv : Inv σ) (hMoves : Moves σ.shared σ.free r (σ.pc r) e k')
    (hSub : σ.shared.children p ⊆ (σ.shared.apply r e).children p) (hPoll : p = r → e ≠ .poll)
    (hReg : Woken σ p ∨ σ.shared.waitWaker p = true) (hComing : Coming σ p) :
    Woken (σ.go r (e, k')) p ∨ Coming (σ.go r (e, k')) p := by
  have hTells := hMoves.tells
  rcases hComing with ⟨u, hu⟩ | ⟨c, hc, hRead⟩
  · by_cases hur : u = r
    · subst hur
      rcases hTells.wakes p hu with ⟨_, hPush⟩ | hNone
      · exact .inl (.inr (.inr ⟨u, by grind⟩))
      · have hWoken := hReg.resolve_right (by simp [hNone])
        exact .inl (hWoken.go hTells hPoll)
    · exact .inr (.inl ⟨u, by grind⟩)
  · right
    by_cases hcr : c = r
    · subst hcr
      exact .inl ⟨c, by grind [hTells.reads hRead p (hInv.parent p c hc)]⟩
    · exact .inr ⟨c, hSub hc, by grind⟩

theorem registered_go (hMoves : Moves σ.shared σ.free r (σ.pc r) e k') (hWatched : Watched σ)
    (hReg : ((σ.go r (e, k')).pc p).registered = true) : Woken (σ.go r (e, k')) p ∨
      (σ.shared.apply r e).waitWaker p = true := by
  have hTells := hMoves.tells
  by_cases hpr : p = r
  · subst hpr
    rw [pc_go, if_pos rfl] at hReg
    rcases hTells.registers hReg with rfl | ⟨hOld, rfl⟩
    · exact .inr (by simp [Shared.apply])
    · rcases hWatched.registered p hOld with hWoken | hWaker
      · exact .inl (hWoken.go hTells (by simp))
      · exact .inr hWaker
  · rw [pc_go, if_neg hpr] at hReg
    rcases hWatched.registered p hReg with hWoken | hWaker
    · exact .inl (hWoken.go hTells fun hEq => absurd hEq hpr)
    · cases e with
      | takeWaker t =>
        by_cases hpt : p = t
        · exact .inl (.inr (.inr ⟨r, by grind [hTells.takes p]⟩))
        · right
          simpa [Shared.apply, update_of_ne hpt] using hWaker
      | register =>
        right
        simpa [Shared.apply, update_of_ne hpr] using hWaker
      | _ => exact .inr hWaker

/-
  A child that comes to a list, or to an end, while somebody
  watches the list brings a wake with it.
-/
theorem new_zombie_coming (hMoves : Moves σ.shared σ.free r (σ.pc r) e k')
    (hPass : Passes σ.shared r (σ.pc r) e k') (hNe : p ≠ r) {c : Nat}
    (hMem : c ∈ (σ.shared.apply r e).children p) (hZombie : (σ.shared.apply r e).zombie c = true) :
    (c ∈ σ.shared.children p ∧ σ.shared.zombie c = true) ∨ Coming (σ.go r (e, k')) p := by
  have hTells := hMoves.tells
  cases hPass with
  | keep _ _ hKeeps _ =>
    rw [(apply_children_of_keeps hKeeps).1] at hMem
    cases e with
    | setZombie =>
      by_cases hcr : c = r
      · subst hcr
        exact .inr (.inr ⟨c, hMem, by grind [hTells.exits rfl]⟩)
      · left
        refine ⟨hMem, ?_⟩
        simpa [Shared.apply, update_of_ne hcr] using hZombie
    | _ => exact .inl ⟨hMem, hZombie⟩
  | splice l _ _ _ _ _ =>
    by_cases hp : p = INIT
    · exact .inr (.inl ⟨r, by grind [hTells.splices l]⟩)
    · left
      refine ⟨?_, hZombie⟩
      simpa [Shared.apply, update_of_ne hp] using hMem
  | create => exact .inl ⟨hMem, hZombie⟩
  | push c | take | remove c =>
    left
    refine ⟨?_, hZombie⟩
    simpa [Shared.apply, update_of_ne hNe] using hMem

theorem registered_of_watch {x : Option Nat × List Nat} (hWatch : k.watch = some x) :
    k.registered = true := by cases k <;> simp_all [Pc.watch, Pc.registered]

theorem seen_go (hInv : Inv σ) (hMoves : Moves σ.shared σ.free r (σ.pc r) e k')
    (hWatched : Watched σ) {filter : Option Nat} {todo : List Nat}
    (hWatch : ((σ.go r (e, k')).pc p).watch = some (filter, todo)) {c : Nat}
    (hMem : c ∈ (σ.shared.apply r e).children p) (hTodo : c ∉ todo)
    (hWanted : wanted filter c = true) (hZombie : (σ.shared.apply r e).zombie c = true) :
    Woken (σ.go r (e, k')) p ∨ Coming (σ.go r (e, k')) p := by
  have hTells := hMoves.tells
  have hPass := hMoves.passes (hInv.fits r)
  by_cases hpr : p = r
  · subst hpr
    rw [pc_go, if_pos rfl] at hWatch
    rcases hTells.watches filter todo hWatch with ⟨rfl, rfl | ⟨todo', hOld, hPassed⟩⟩
    · exact absurd hMem hTodo
    · have hNot := hPassed c hTodo hWanted hZombie
      rcases hWatched.seen p filter todo' hOld c hMem hNot hWanted hZombie with hWoken | hComing
      · exact .inl (hWoken.go hTells (by simp))
      · exact hComing.go hInv hMoves (List.Subset.refl _) (by simp)
          (hWatched.registered p (registered_of_watch hOld))
  · rw [pc_go, if_neg hpr] at hWatch
    rcases new_zombie_coming hMoves hPass hpr hMem hZombie with ⟨hOldMem, hOldZombie⟩ | hComing
    · have hElse : p = r → e ≠ .poll := fun hEq => absurd hEq hpr
      rcases hWatched.seen p filter todo hWatch c hOldMem hTodo
        hWanted hOldZombie with hWoken | hComing
      · exact .inl (hWoken.go hTells hElse)
      · exact hComing.go hInv hMoves (children_subset hPass hpr) hElse
          (hWatched.registered p (registered_of_watch hWatch))
    · exact .inr hComing

theorem watched_go (hInv : Inv σ) (hMoves : Moves σ.shared σ.free r (σ.pc r) e k')
    (hWatched : Watched σ) : Watched (σ.go r (e, k')) where
  registered _ hReg := registered_go hMoves hWatched hReg
  seen _ _ _ hWatch _ hMem hTodo hWanted hZombie :=
    seen_go hInv hMoves hWatched hWatch hMem hTodo hWanted hZombie

-- Events

theorem le_update_succ (f : Nat → Nat) : f p ≤ update f q (f q + 1) p := by
  grind [update_apply]

/- A queued task is polled by an event in user mode only. -/
theorem ready_env {v : Env} (hEnv : σ.env v = some s) (hUser : σ.pc p ≠ .user) :
    σ.shared.ready p ≤ s.ready p := by
  cases v with
  | kill u =>
    cases hEnv
    exact le_rfl
  | signal u | pause u =>
    simp only [Sys.env] at hEnv
    split at hEnv <;> cases hEnv
    exact le_rfl
  | deliver u =>
    simp only [Sys.env] at hEnv
    split at hEnv <;> cases hEnv
    exact le_update_succ _
  | poke u =>
    cases hEnv
    exact le_update_succ _
  | drain u =>
    simp only [Sys.env] at hEnv
    split at hEnv <;> cases hEnv
    grind [update_apply]

theorem Woken.env {v : Env} (hEnv : σ.env v = some s) (hUser : (σ.pc p) ≠ .user)
    (hWoken : Woken σ p) : Woken { σ with shared := s } p := by
  rcases hWoken with hReady | hHands | hPush
  · exact .inl (lt_of_lt_of_le hReady (ready_env hEnv hUser))
  · cases v with
    | deliver u =>
      simp only [Sys.env] at hEnv
      split at hEnv <;> cases hEnv
      by_cases hEq : p = u
      · exact .inl (by simp [hEq])
      · exact .inr (.inl ((List.mem_erase_of_ne hEq).mpr hHands))
    | _ =>
      right
      left
      grind [Sys.env]
  · exact .inr (.inr hPush)

/- An event that empties the slot of a waker has it. -/
theorem waker_env {v : Env} (hEnv : σ.env v = some s) (hWaker : σ.shared.waitWaker p = true) :
    Woken { σ with shared := s } p ∨ s.waitWaker p = true := by
  cases v with
  | signal u =>
    simp only [Sys.env] at hEnv
    split at hEnv <;> cases hEnv
    by_cases hEq : p = u
    · subst hEq
      exact .inl (.inr (.inl List.mem_cons_self))
    · right
      simpa [update_of_ne hEq] using hWaker
  | pause u =>
    simp only [Sys.env] at hEnv
    split at hEnv <;> cases hEnv
    right
    grind [update_apply]
  | _ =>
    right
    grind [Sys.env]

theorem watched_env {v : Env} (hEnv : σ.env v = some s) (hWatched : Watched σ) :
    Watched { σ with shared := s } := by
  have hSame := env_same hEnv
  have hUser : ∀ p, (σ.pc p).registered = true → σ.pc p ≠ .user := by
    grind [Pc.registered]
  constructor
  · intro p hReg
    rcases hWatched.registered p hReg with hWoken | hWaker
    · exact .inl (hWoken.env hEnv (hUser p hReg))
    · exact waker_env hEnv hWaker
  · intro p filter todo hWatch c hMem hTodo hWanted hZombie
    have hReg := registered_of_watch hWatch
    have hChildren : s.children = σ.shared.children := by rw [hSame]
    have hZombies : s.zombie = σ.shared.zombie := by rw [hSame]
    simp only [hChildren] at hMem
    simp only [hZombies] at hZombie
    rcases hWatched.seen p filter todo hWatch c hMem hTodo
      hWanted hZombie with hWoken | hRead | ⟨d, hd, hRead⟩
    · exact .inl (hWoken.env hEnv (hUser p hReg))
    · exact .inr (.inl hRead)
    · refine .inr (.inr ⟨d, ?_, hRead⟩)
      simpa only [hChildren] using hd

theorem watched_step {a : Act} (hInv : Inv σ) (hWatched : Watched σ) (hStep : σ.step a = some σ') :
    Watched σ' := by
  rcases Sys.step_cases hStep with ⟨p, e, k', hMoves, rfl⟩ | ⟨v, s, hEnv, rfl⟩
  · exact watched_go hInv hMoves hWatched
  · exact watched_env hEnv hWatched

theorem watched_boot : Watched Sys.boot := by
  have hNone : ∀ p, (Sys.boot.pc p).registered = false := by
    intro p
    simp only [Sys.boot, update_apply]
    grind [Pc.registered]
  constructor
  · grind
  · grind [registered_of_watch]

theorem watched_of_reach {Ok : Sys → Act → Prop} (hReach : Reach Sys.step Ok Sys.boot σ) :
    Watched σ := by
  have hBoth := hReach.invariant (I := fun σ => Inv σ ∧ Watched σ) (fun _ _ _ hOld _ hStep =>
      ⟨inv_step hOld.1 hStep, watched_step hOld.1 hOld.2 hStep⟩)
    ⟨inv_boot, watched_boot⟩
  exact hBoth.2

/- A parked process with an exited child is being woken. -/
theorem wakePending_of_parked (hWatched : Watched σ) {filter : Option Nat} {nonblock : Bool}
    (hParked : σ.pc p = .parked filter nonblock) {c : Nat} (hMem : c ∈ σ.shared.children p)
    (hWanted : wanted filter c = true) (hZombie : σ.shared.zombie c = true) : WakePending σ p := by
  have hReg := hWatched.registered p (by rw [hParked]; rfl)
  have hSeen := hWatched.seen p filter [] (by rw [hParked]; rfl)
    c hMem List.not_mem_nil hWanted hZombie
  rcases hSeen with hWoken | hComing
  · exact .inl hWoken
  · rcases hReg with hWoken | hWaker
    · exact .inl hWoken
    · exact .inr ⟨hWaker, hComing⟩

-- The Tree

/- The process is inside `sys_fork`, or between taking and splicing its list of children. -/
def Pc.between : Pc → Bool
  | .forkParent _ => true
  | .forkPush _ => true
  | .forkSpawn _ => true
  | .reparent _ _ _ => true
  | _ => false

def Settled (σ : Sys) : Prop := ∀ p, (σ.pc p).between = false

theorem kids_of_settled (hSettled : Settled σ) : (σ.pc p).kids = [] := by
  have hBetween := hSettled p
  cases hk : σ.pc p <;> simp_all [Pc.between, Pc.kids]

theorem child_of_settled (hInv : Inv σ) (hSettled : Settled σ) {c : Nat} (hLive : σ.Unreaped c) :
    ∃ p, c ∈ σ.shared.children p ∧ σ.shared.zombie p = false ∧ (σ.shared.children p).count c = 1 ∧
      σ.shared.parent c = some p ∧ ∀ q, c ∈ σ.shared.children q → q = p := by
  rcases (hInv.holders.live c).mpr hLive with ⟨p, hp⟩
  have hMem : c ∈ σ.shared.children p := by simpa [Sys.holds, kids_of_settled hSettled] using hp
  have hNodup : (σ.shared.children p).Nodup := by
    have hAll := hInv.holders.nodup p
    simpa [Sys.holds, kids_of_settled hSettled] using hAll
  refine ⟨p, hMem, ?_, List.count_eq_one_of_mem hNodup hMem, hInv.parent p c hMem, ?_⟩
  · by_contra hZombie
    rw [Bool.not_eq_false] at hZombie
    rw [(hInv.exited hZombie).2.1] at hMem
    cases hMem
  · intro q hq
    exact hInv.holders.unique q p c (mem_holds_of_children hq) (mem_holds_of_children hMem)

/-
  In every state reached: if nobody is inside a fork or a
  splice, each process that is not reaped is in the list of
  exactly one process, which has not exited and is its
  parent; nobody is removed twice, a process is removed by
  its parent and only when it has exited, and waiting returns
  what it passed to `exit`; and a parked process with an
  exited child that it waits for is being woken.
-/
theorem tree_of_reach (hReach : Reach Sys.step (fun _ _ => True) Sys.boot σ) :
    (Settled σ → ∀ c, σ.Unreaped c → ∃ p, c ∈ σ.shared.children p ∧ σ.shared.zombie p = false ∧
        (σ.shared.children p).count c = 1 ∧ σ.shared.parent c = some p ∧
        ∀ q, c ∈ σ.shared.children q → q = p) ∧ (σ.shared.removed.map Prod.snd).Nodup ∧
    (σ.shared.reaped.map fun x => x.2.1).Nodup ∧ (∀ p c, σ.pc p = .remove c →
      c ∈ σ.shared.children p ∧ σ.shared.parent c = some p ∧ σ.shared.zombie c = true) ∧
    (∀ p c code, (p, c, code) ∈ σ.shared.reaped → (p, c) ∈ σ.shared.removed ∧
        σ.shared.passed c = some code) ∧ (∀ p filter nonblock c, σ.pc p = .parked filter nonblock →
      c ∈ σ.shared.children p → wanted filter c = true →
      σ.shared.zombie c = true → WakePending σ p) := by
  have hInv := inv_of_reach hReach
  refine ⟨?_, hInv.removed, hInv.once, ?_, ?_, ?_⟩
  · intro hSettled c hLive
    exact child_of_settled hInv hSettled hLive
  · intro p c hRemove
    have hFits := hInv.fits p
    rw [hRemove] at hFits
    exact ⟨hFits.2.1, hInv.parent p c hFits.2.1, hFits.2.2⟩
  · intro p c code hMem
    exact hInv.reaped _ hMem
  · intro p filter nonblock c hParked hMem hWanted hZombie
    exact wakePending_of_parked (watched_of_reach hReach) hParked hMem hWanted hZombie

/-
  `init` forks 2, which forks 3 and exits with 5; `init`
  waits for 3 and is parked when 3 exits with 7.
-/
def sampleOrphan : List Act :=
  [ .start 1 .fork, .run 1, .run 1, .run 1, .run 2,
    .start 2 .fork, .run 2, .run 2, .run 2, .run 3,
    .start 2 (.exit 5), .run 2, .run 2, .run 2, .run 2, .start 1 (.wait (some 3) false),
    .run 1, .run 1, .run 1, .run 1, .run 1, .run 1, .start 3 (.exit 7), .run 3, .run 3, .run 3 ]

theorem tree_of_reach_orphan : ∃ σ : Sys, Reach Sys.step (fun _ _ => True) Sys.boot σ ∧
      σ.pc INIT = .parked (some 3) false ∧ σ.shared.zombie 3 = true ∧ WakePending σ INIT := by
  have hRun : (run Sys.step (fun _ _ => True) Sys.boot sampleOrphan).any (fun σ =>
        decide (σ.pc INIT = .parked (some 3) false) &&
        decide (3 ∈ σ.shared.children INIT) &&
        σ.shared.zombie 3) = true := by
    decide +kernel
  rcases exists_reach hRun with ⟨σ, hReach, hCheck⟩
  simp only [Bool.and_eq_true, decide_eq_true_eq] at hCheck
  rcases hCheck with ⟨⟨hParked, hMem⟩, hZombie⟩
  rcases tree_of_reach hReach with ⟨_, _, _, _, _, hWakes⟩
  exact ⟨σ, hReach, hParked, hZombie, hWakes INIT (some 3) false 3 hParked hMem (by decide) hZombie⟩

end Tree

end PlayXv6
