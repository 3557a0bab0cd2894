import PlayXv6.Proc.Tree

/-
  The tree of processes.

  Every process that has not been reaped is held once: by the
  list of children of a process, or by a process that is
  forking it or handing it to `init`.  What a process knows
  at each point of its calls is `Fits`; the others leave it
  alone.

  Main declarations:
    * `Sys.Unreaped`
    * `inv_step`
-/

namespace PlayXv6

open Function

variable {c : Nat}

namespace Tree

variable {σ σ' : Sys} {s : Shared} {free : Bool} {p q : Nat} {k k' : Pc} {e : Effect}

/- The processes in the hands of a fork or of an exit. -/
def Pc.kids : Pc → List Nat
  | .forkParent c => [c]
  | .forkPush c => [c]
  | .reparent _ done todo => done ++ todo
  | _ => []

def Sys.holds (σ : Sys) (p : Nat) : List Nat := σ.shared.children p ++ (σ.pc p).kids

/- Created and not reaped; `init` has no parent. -/
def Sys.Unreaped (σ : Sys) (c : Nat) : Prop :=
  INIT < c ∧ c < σ.shared.nextPid ∧
    c ∉ σ.shared.removed.map Prod.snd

-- What a Process Knows

def Alive (s : Shared) (p : Nat) : Prop := s.zombie p = false ∧ s.passed p = none

/- The process has called `exit` with the code. -/
def Leaving (s : Shared) (p : Nat) (code : Int) : Prop :=
  p ≠ INIT ∧ s.zombie p = false ∧ s.passed p = some code

def Exited (s : Shared) (p : Nat) : Prop :=
  p ≠ INIT ∧ s.children p = [] ∧ s.zombie p = true ∧
    s.passed p = some (s.exitCode p)

def Fits (s : Shared) (p : Nat) : Pc → Prop
  | .unborn => Alive s p ∧ s.children p = []
  | .forkPush c => Alive s p ∧ s.parent c = some p
  | .forkSpawn c => Alive s p ∧ c ∈ s.children p
  | .exitTake code => Leaving s p code
  | .reparent code done _ =>
    Leaving s p code ∧ s.children p = [] ∧ ∀ c ∈ done, s.parent c = some INIT
  | .wakeInit code => Leaving s p code ∧ s.children p = []
  | .pushInit code => Leaving s p code ∧ s.children p = []
  | .setCode code => Leaving s p code ∧ s.children p = []
  | .setState => Leaving s p (s.exitCode p) ∧ s.children p = []
  | .readParent => Exited s p
  | .wakeParent _ => Exited s p
  | .pushParent _ => Exited s p
  | .dead => Exited s p
  | .scan _ _ _ todo => Alive s p ∧ todo ⊆ s.children p
  | .remove c => Alive s p ∧ c ∈ s.children p ∧ s.zombie c = true
  | .load c =>
    Alive s p ∧ s.zombie c = true ∧ (p, c) ∈ s.removed ∧ ∀ x ∈ s.reaped, x.2.1 ≠ c
  | _ => Alive s p

def Effect.keeps : Effect → Bool
  | .create => false
  | .push _ => false
  | .takeKids => false
  | .splice _ => false
  | .remove _ => false
  | _ => true

/- How a step passes processes on. -/
inductive Passes (s : Shared) (p : Nat) (k : Pc) : Effect → Pc → Prop where
  | keep (e : Effect) (k' : Pc) (hKeeps : e.keeps = true)
      (hKids : k'.kids = k.kids) : Passes s p k e k'
  | create (k' : Pc) (hKids : k.kids = []) (hKids' : k'.kids = [s.nextPid]) :
      Passes s p k .create k'
  | push (c : Nat) (k' : Pc) (hKids : k.kids = [c]) (hKids' : k'.kids = [])
      (hParent : s.parent c = some p) : Passes s p k (.push c) k'
  | take (k' : Pc) (hKids : k.kids = []) (hKids' : k'.kids = s.children p) :
      Passes s p k .takeKids k'
  | splice (l : List Nat) (k' : Pc) (hInit : p ≠ INIT) (hKids : k.kids = l) (hKids' : k'.kids = [])
      (hParent : ∀ c ∈ l, s.parent c = some INIT) : Passes s p k (.splice l) k'
  | remove (c : Nat) (k' : Pc) (hMem : c ∈ s.children p) (hZombie : s.zombie c = true)
      (hKids : k.kids = []) (hKids' : k'.kids = []) : Passes s p k (.remove c) k'

theorem Moves.passes (hMoves : Moves s free p k e k') (hFits : Fits s p k) : Passes s p k e k' := by
  rcases hMoves with hNext | ⟨rfl, c, hBegin⟩
  · cases k with
    | forkPush c =>
      cases hNext
      exact .push c _ rfl rfl hFits.2
    | exitTake code =>
      simp only [Pc.next] at hNext
      split at hNext
      · rename_i hNil
        cases hNext
        exact .take _ rfl hNil.symm
      · cases hNext
        exact .take _ rfl rfl
    | reparent code done todo =>
      cases todo with
      | nil =>
        simp only [Pc.next] at hNext
        split at hNext <;> cases hNext
        exact .splice _ _ hFits.1.1 (List.append_nil _) rfl hFits.2.2
      | cons c todo =>
        cases hNext
        exact .keep _ _ rfl (by simp [Pc.kids])
    | remove c =>
      cases hNext
      exact .remove c _ hFits.2.1 hFits.2.2 rfl rfl
    | scan filter nonblock anyMatch todo =>
      refine .keep _ _ ?_ ?_ <;>
        cases todo <;> grind [Pc.next, Effect.keeps, Pc.kids]
    | _ =>
      refine .keep _ _ ?_ ?_ <;>
        grind [Pc.next, Effect.keeps, Pc.kids]
  · cases c with
    | fork =>
      cases hBegin
      exact .create _ rfl rfl
    | exit code =>
      refine .keep _ _ ?_ ?_ <;>
        grind [Call.begin, Effect.keeps, Pc.kids]
    | wait filter nonblock =>
      cases hBegin
      exact .keep _ _ rfl rfl

-- The Invariant

structure Inv (σ : Sys) : Prop where
  holders : Holders σ.holds σ.Unreaped
  parent : ∀ p c, c ∈ σ.shared.children p → σ.shared.parent c = some p
  fits : ∀ p, Fits σ.shared p (σ.pc p)
  fresh : ∀ p, σ.shared.nextPid ≤ p → σ.pc p = .unborn ∧ σ.shared.spawned p = false
  init : σ.pc INIT ≠ .unborn
  removed : (σ.shared.removed.map Prod.snd).Nodup
  gone : ∀ x ∈ σ.shared.removed, σ.shared.zombie x.2 = true
  reaped : ∀ x ∈ σ.shared.reaped, (x.1, x.2.1) ∈ σ.shared.removed ∧
      σ.shared.passed x.2.1 = some x.2.2
  once : (σ.shared.reaped.map fun x => x.2.1).Nodup

theorem mem_holds_of_children (hMem : c ∈ σ.shared.children p) : c ∈ σ.holds p :=
  List.mem_append_left _ hMem

theorem mem_holds_of_kids (hMem : c ∈ (σ.pc p).kids) : c ∈ σ.holds p := List.mem_append_right _ hMem

/- What is in hand is in nobody's list. -/
theorem not_child_of_kids (hHold : Holders σ.holds σ.Unreaped)
    (hMem : c ∈ (σ.pc p).kids) : ∀ q, c ∉ σ.shared.children q := by
  intro q hq
  have hEq := hHold.unique q p c (mem_holds_of_children hq) (mem_holds_of_kids hMem)
  subst hEq
  have hNodup := hHold.nodup q
  rw [Sys.holds, List.nodup_append'] at hNodup
  exact hNodup.2.2 hq hMem

theorem go_holds_ne (hNe : q ≠ p) (hChildren :
      (σ.shared.apply p e).children q = σ.shared.children q) :
    (σ.go p (e, k')).holds q = σ.holds q := by simp [Sys.holds, Sys.go, hChildren, update_of_ne hNe]

theorem apply_children_of_keeps (hKeeps : e.keeps = true) : (s.apply p e).children = s.children ∧
      (s.apply p e).nextPid = s.nextPid ∧ (s.apply p e).removed = s.removed := by
  cases e <;> simp_all [Shared.apply, Effect.keeps]

theorem holders_go (hHold : Holders σ.holds σ.Unreaped) (hInit : INIT < σ.shared.nextPid)
    (hOut : σ.shared.nextPid ∉ σ.shared.removed.map Prod.snd)
    (hPass : Passes σ.shared p (σ.pc p) e k') : Holders (σ.go p (e, k')).holds
      (σ.go p (e, k')).Unreaped := by
  cases hPass with
  | keep _ _ hKeeps hKids =>
    rcases apply_children_of_keeps (s := σ.shared) (p := p) hKeeps with ⟨hChildren, hPid, hRemoved⟩
    refine hHold.perm ?_ ?_
    · intro q
      by_cases hq : q = p
      · subst hq
        simp [Sys.holds, Sys.go, hChildren, hKids]
      · rw [go_holds_ne hq (congrFun hChildren q)]
    · intro c
      simp [Sys.Unreaped, Sys.go, hPid, hRemoved]
  | create _ hKids hKids' =>
    have hNew : ¬σ.Unreaped σ.shared.nextPid := by
      intro hLive
      exact absurd hLive.2.1 (lt_irrefl _)
    refine hHold.insert (i := p) hNew ?_ ?_ ?_
    · simp only [Sys.holds, Sys.go, Shared.apply, update_self, hKids, hKids', List.append_nil]
      exact List.perm_append_singleton _ _
    · intro q hq
      exact go_holds_ne hq rfl
    · intro c
      simp only [Sys.Unreaped, Sys.go, Shared.apply]
      constructor
      · rintro ⟨hGt, hLt, hNot⟩
        by_cases hc : c = σ.shared.nextPid
        · exact .inl hc
        · exact .inr ⟨hGt, by omega, hNot⟩
      · rintro (rfl | ⟨hGt, hLt, hNot⟩)
        · exact ⟨hInit, by omega, hOut⟩
        · exact ⟨hGt, by omega, hNot⟩
  | push c _ hKids hKids' _ | take _ hKids hKids' =>
    refine hHold.perm ?_ ?_
    · intro q
      by_cases hq : q = p
      · subst hq
        simp [Sys.holds, Sys.go, Shared.apply, hKids, hKids']
      · rw [go_holds_ne hq]
        simp [Shared.apply, update_of_ne hq]
    · intro c
      simp [Sys.Unreaped, Sys.go, Shared.apply]
  | splice l _ hNe hKids hKids' _ =>
    refine hHold.transfer (i := p) (j := INIT) (l := l) hNe ?_ ?_ ?_ ?_
    · simp only [Sys.holds, Sys.go, Shared.apply,
        update_self, hKids, hKids', List.append_nil, update_of_ne hNe]
      exact List.perm_append_comm
    · simp only [Sys.holds, Sys.go, Shared.apply, update_self, update_of_ne hNe.symm]
      rw [← List.append_assoc]
      exact List.Perm.append_right _ List.perm_append_comm
    · intro q hq hqInit
      refine go_holds_ne hq ?_
      simp [Shared.apply, update_of_ne hqInit]
    · intro c
      simp [Sys.Unreaped, Sys.go, Shared.apply]
  | remove c _ hMem _ hKids hKids' =>
    refine hHold.remove (i := p) (a := c) ?_ ?_ ?_
    · simp only [Sys.holds, Sys.go, Shared.apply, update_self, hKids, hKids', List.append_nil]
      exact List.perm_cons_erase hMem
    · intro q hq
      refine go_holds_ne hq ?_
      simp [Shared.apply, update_of_ne hq]
    · intro b
      simp only [Sys.Unreaped, Sys.go, Shared.apply, List.map_cons, List.mem_cons, not_or]
      tauto

/- A parent pointer is set by who has the child in hand. -/
theorem Moves.setParent {v : Nat} (hMoves : Moves s free p k (.setParent c v) k') : c ∈ k.kids := by
  rcases hMoves with hNext | ⟨rfl, d, hBegin⟩
  · cases k with
    | forkParent c =>
      cases hNext
      exact List.mem_singleton_self _
    | reparent code done todo =>
      cases todo with
      | nil => grind [Pc.next]
      | cons a todo =>
        cases hNext
        simp [Pc.kids]
    | scan filter nonblock anyMatch todo => cases todo <;> grind [Pc.next]
    | _ => grind [Pc.next]
  · cases d <;> grind [Call.begin]

theorem parent_go (hInv : Inv σ) (hMoves : Moves σ.shared σ.free p (σ.pc p) e k') :
    ∀ q c, c ∈ (σ.shared.apply p e).children q → (σ.shared.apply p e).parent c = some q := by
  intro q c hMem
  have hOld := hInv.parent q c
  have hPass := hMoves.passes (hInv.fits p)
  cases hPass with
  | keep _ _ hKeeps _ =>
    rw [(apply_children_of_keeps hKeeps).1] at hMem
    cases e with
    | setParent d v =>
      have hNe : c ≠ d := by
        intro hEq
        subst hEq
        exact not_child_of_kids hInv.holders hMoves.setParent q hMem
      simpa [Shared.apply, update_of_ne hNe] using hOld hMem
    | _ => exact hOld hMem
  | create => exact hOld hMem
  | push _ _ _ _ hParent | splice _ _ _ _ _ hParent =>
    simp only [Shared.apply, update_apply] at hMem ⊢
    grind
  | take | remove =>
    simp only [Shared.apply, update_apply] at hMem ⊢
    grind [List.mem_of_mem_erase]

-- What the Others Leave Alone

/- Enough for a process to keep what it knows. -/
structure Leaves (s s' : Shared) (q : Nat) (k : Pc) : Prop where
  zombie : s'.zombie q = s.zombie q
  passed : s'.passed q = s.passed q
  exitCode : s'.exitCode q = s.exitCode q
  children : s.children q ⊆ s'.children q
  empty : q ≠ INIT ∨ k = .unborn → s.children q = [] → s'.children q = []
  exited : ∀ c, s.zombie c = true → s'.zombie c = true
  parent : ∀ c ∈ k.kids, s'.parent c = s.parent c
  removed : s.removed ⊆ s'.removed
  reaped : ∀ c, k = .load c → ∀ x ∈ s'.reaped, x ∈ s.reaped ∨ x.2.1 ≠ c

theorem Fits.leaves {s' : Shared} (hFits : Fits s q k) (hLeaves : Leaves s s' q k) :
    Fits s' q k := by
  rcases hLeaves with ⟨hZombie, hPassed, hCode, hSub, hEmpty, hExited, hParent, hRemoved, hReaped⟩
  have hAlive : Alive s q → Alive s' q := by
    rw [Alive, Alive, hZombie, hPassed]
    exact id
  have hLeaving : ∀ {code}, Leaving s q code → Leaving s' q code := by
    intro code
    rw [Leaving, Leaving, hZombie, hPassed]
    exact id
  have hExit : Exited s q → Exited s' q := by
    rintro ⟨hInit, hNone, hDead⟩
    rw [← hZombie, ← hPassed, ← hCode] at hDead
    exact ⟨hInit, hEmpty (.inl hInit) hNone, hDead⟩
  cases k with
  | unborn => exact ⟨hAlive hFits.1, hEmpty (.inr rfl) hFits.2⟩
  | forkPush c => exact ⟨hAlive hFits.1, (hParent c (List.mem_singleton_self c)).trans hFits.2⟩
  | forkSpawn c => exact ⟨hAlive hFits.1, hSub hFits.2⟩
  | exitTake code => exact hLeaving hFits
  | reparent code done todo =>
    refine ⟨hLeaving hFits.1, hEmpty (.inl hFits.1.1) hFits.2.1, fun c hc => ?_⟩
    exact (hParent c (List.mem_append_left todo hc)).trans (hFits.2.2 c hc)
  | wakeInit code | pushInit code | setCode code =>
    exact ⟨hLeaving hFits.1, hEmpty (.inl hFits.1.1) hFits.2⟩
  | setState => exact ⟨hCode ▸ hLeaving hFits.1, hEmpty (.inl hFits.1.1) hFits.2⟩
  | readParent | wakeParent r | pushParent r | dead => exact hExit hFits
  | scan filter nonblock anyMatch todo => exact ⟨hAlive hFits.1, List.Subset.trans hFits.2 hSub⟩
  | remove c => exact ⟨hAlive hFits.1, hSub hFits.2.1, hExited c hFits.2.2⟩
  | load c =>
    refine ⟨hAlive hFits.1, hExited c hFits.2.1, hRemoved hFits.2.2.1, fun x hx => ?_⟩
    exact (hReaped c rfl x hx).elim (hFits.2.2.2 x) id
  | _ => exact hAlive hFits

/- An effect that touches only what `q` does not know. -/
theorem Leaves.of_same {s' : Shared} (hZombie : s'.zombie = s.zombie)
    (hPassed : s'.passed q = s.passed q) (hCode : s'.exitCode q = s.exitCode q)
    (hChildren : s'.children q = s.children q) (hParent : s'.parent = s.parent)
    (hRemoved : s.removed ⊆ s'.removed) (hReaped : s'.reaped = s.reaped) : Leaves s s' q k where
  zombie := by rw [hZombie]
  passed := hPassed
  exitCode := hCode
  children := by rw [hChildren]; exact List.Subset.refl _
  empty := by rw [hChildren]; exact fun _ h => h
  exited := by rw [hZombie]; exact fun _ h => h
  parent := by rw [hParent]; exact fun _ _ => rfl
  removed := hRemoved
  reaped := by rw [hReaped]; exact fun _ _ _ hx => .inl hx

/- A status is read by who removed the child. -/
theorem Moves.reap {code : Int} (hMoves : Moves s free p k (.reap c code) k') :
    k = .load c ∧ code = s.exitCode c := by
  rcases hMoves with hNext | ⟨rfl, d, hBegin⟩
  · cases k with
    | load c =>
      cases hNext
      exact ⟨rfl, rfl⟩
    | reparent code done todo | scan filter nonblock anyMatch todo => cases todo <;> grind [Pc.next]
    | _ => grind [Pc.next]
  · cases d <;> grind [Call.begin]

theorem remover_unique (hNodup : (s.removed.map Prod.snd).Nodup) (hp : (p, c) ∈ s.removed)
    (hq : (q, c) ∈ s.removed) : p = q := by
  have hEq := List.inj_on_of_nodup_map hNodup hp hq rfl
  exact congrArg Prod.fst hEq

theorem leaves_go (hInv : Inv σ) (hMoves : Moves σ.shared σ.free p (σ.pc p) e k') (hNe : q ≠ p) :
    Leaves σ.shared (σ.shared.apply p e) q (σ.pc q) := by
  have hUpdate : ∀ {β : Type} (f : Nat → β) (b : β), update f p b q = f q := fun f b =>
    update_of_ne hNe b f
  cases e with
  | setParent c v =>
    refine ⟨rfl, rfl, rfl, List.Subset.refl _, fun _ h => h, fun _ h => h, ?_, List.Subset.refl _,
      fun _ _ _ hx => .inl hx⟩
    intro d hd
    have hdc : d ≠ c := by
      intro hEq
      subst hEq
      exact hNe (hInv.holders.unique q p d (mem_holds_of_kids hd)
        (mem_holds_of_kids hMoves.setParent))
    simp [Shared.apply, update_of_ne hdc]
  | splice l =>
    by_cases hq : q = INIT
    · subst hq
      refine ⟨rfl, rfl, rfl, ?_, ?_, fun _ h => h, fun _ _ => rfl, List.Subset.refl _,
        fun _ _ _ hx => .inl hx⟩
      · simp [Shared.apply]
      · rintro (hNot | hUnborn)
        · exact absurd rfl hNot
        · exact absurd hUnborn hInv.init
    · refine .of_same rfl rfl rfl ?_ rfl (List.Subset.refl _) rfl
      simp [Shared.apply, update_of_ne hq]
  | setZombie =>
    refine ⟨hUpdate _ _, rfl, rfl, List.Subset.refl _,
      fun _ h => h, ?_, fun _ _ => rfl, List.Subset.refl _, fun _ _ _ hx => .inl hx⟩
    simp only [Shared.apply, update_apply]
    grind
  | reap c code =>
    refine ⟨rfl, rfl, rfl, List.Subset.refl _, fun _ h => h,
      fun _ h => h, fun _ _ => rfl, List.Subset.refl _, ?_⟩
    intro d hLoad x hx
    rcases List.mem_cons.mp hx with rfl | hOld
    · right
      intro hEq
      have hp := hInv.fits p
      have hq := hInv.fits q
      rw [hMoves.reap.1] at hp
      rw [hLoad, ← hEq] at hq
      exact hNe (remover_unique hInv.removed hq.2.2.1 hp.2.2.1)
    · exact .inl hOld
  | pass code =>
    exact .of_same rfl (hUpdate _ _) rfl rfl rfl (List.Subset.refl _) rfl
  | setCode code =>
    exact .of_same rfl rfl (hUpdate _ _) rfl rfl (List.Subset.refl _) rfl
  | push c | takeKids =>
    exact .of_same rfl rfl rfl (hUpdate _ _) rfl (List.Subset.refl _) rfl
  | remove c =>
    exact .of_same rfl rfl rfl (hUpdate _ _) rfl (List.subset_cons_self _ _) rfl
  | _ =>
    exact .of_same rfl rfl rfl rfl rfl (List.Subset.refl _) rfl

-- The Acting Process

theorem fits_go (hInv : Inv σ) (hMoves : Moves σ.shared σ.free p (σ.pc p) e k') :
    Fits (σ.shared.apply p e) p k' := by
  have hFits := hInv.fits p
  rcases hMoves with hNext | ⟨hUser, c, hBegin⟩
  · generalize hk : σ.pc p = k at hNext hFits
    cases k with
    | remove c =>
      cases hNext
      rcases hFits with ⟨hAlive, hMem, hZombie⟩
      refine ⟨hAlive, hZombie, List.mem_cons_self, ?_⟩
      intro x hx hEq
      have hRemoved := (hInv.reaped x hx).1
      have hLive := hInv.holders.live_of_mem (mem_holds_of_children hMem)
      refine hLive.2.2 (List.mem_map.mpr ⟨_, hRemoved, ?_⟩)
      exact hEq
    | reparent code done todo =>
      cases todo with
      | nil =>
        simp only [Pc.next] at hNext
        split at hNext <;> cases hNext
        refine ⟨hFits.1, ?_⟩
        have hNe : p ≠ INIT := hFits.1.1
        simpa [Shared.apply, update_of_ne hNe] using hFits.2.1
      | cons c todo =>
        cases hNext
        rcases hFits with ⟨hLeaving, hNil, hDone⟩
        refine ⟨hLeaving, hNil, ?_⟩
        simp only [Shared.apply, update_apply]
        grind
    | lock filter nonblock =>
      simp only [Pc.next] at hNext
      split at hNext <;> cases hNext
      · exact hFits
      · exact ⟨hFits, List.Subset.refl _⟩
    | scan filter nonblock anyMatch todo =>
      rcases hFits with ⟨hAlive, hSub⟩
      cases todo with
      | nil => grind [Pc.next, Fits, Shared.apply]
      | cons c todo =>
        rw [List.cons_subset] at hSub
        grind [Pc.next, Fits, Shared.apply]
    | _ =>
      simp only [Pc.next] at hNext
      repeat' split at hNext
      all_goals cases hNext
      all_goals simp_all [Fits, Alive, Leaving, Exited, Shared.apply]
  · rw [hUser] at hFits
    cases c with
    | fork | wait filter nonblock =>
      cases hBegin
      exact hFits
    | exit code =>
      simp only [Call.begin] at hBegin
      split at hBegin
      · cases hBegin
      · rename_i hNe
        cases hBegin
        exact ⟨hNe, hFits.1, by simp [Shared.apply]⟩

-- The Rest of the Invariant

theorem Moves.born (hMoves : Moves s free p k e k') : k' ≠ .unborn ∧
    (k = .unborn → s.spawned p = true) ∧ (∀ code, e = .pass code → k = .user) ∧
      ∀ c, e = .spawn c → k = .forkSpawn c := by
  rcases hMoves with hNext | ⟨rfl, d, hBegin⟩
  · cases k with
    | reparent code done todo | scan filter nonblock anyMatch todo => cases todo <;> grind [Pc.next]
    | _ => grind [Pc.next]
  · cases d <;> grind [Call.begin]

theorem Inv.init_lt (hInv : Inv σ) : INIT < σ.shared.nextPid := by
  by_contra hNot
  exact hInv.init (hInv.fresh INIT (not_lt.mp hNot)).1

/- A zombie has gone through `sys_exit_inner`. -/
theorem Inv.exited (hInv : Inv σ) (hZombie : σ.shared.zombie c = true) : Exited σ.shared c := by
  have hFits := hInv.fits c
  generalize σ.pc c = k at hFits
  cases k <;> grind [Fits, Alive, Leaving]

theorem Inv.fresh_not_removed (hInv : Inv σ) :
    σ.shared.nextPid ∉ σ.shared.removed.map Prod.snd := by
  intro hMem
  rcases List.mem_map.mp hMem with ⟨x, hx, hEq⟩
  have hZombie := hInv.gone x hx
  have hFits := hInv.fits σ.shared.nextPid
  rw [(hInv.fresh _ le_rfl).1] at hFits
  rw [hEq, hFits.1.1] at hZombie
  cases hZombie

theorem fresh_go (hInv : Inv σ) (hMoves : Moves σ.shared σ.free p (σ.pc p) e k') :
    ∀ q, (σ.shared.apply p e).nextPid ≤ q → update σ.pc p k' q = .unborn ∧
        (σ.shared.apply p e).spawned q = false := by
  intro q hq
  have hLe : σ.shared.nextPid ≤ q := by
    refine le_trans ?_ hq
    cases e <;> simp [Shared.apply]
  rcases hInv.fresh q hLe with ⟨hUnborn, hSpawned⟩
  have hNe : q ≠ p := by
    intro hEq
    subst hEq
    rw [hMoves.born.2.1 hUnborn] at hSpawned
    cases hSpawned
  refine ⟨by rw [update_of_ne hNe, hUnborn], ?_⟩
  cases e with
  | spawn c =>
    have hFits := hInv.fits p
    rw [hMoves.born.2.2.2 _ rfl] at hFits
    have hLive := hInv.holders.live_of_mem (mem_holds_of_children hFits.2)
    have hqc : q ≠ c := fun hEq => by
      have hLt := hLive.2.1
      omega
    simpa [Shared.apply, update_of_ne hqc] using hSpawned
  | _ => exact hSpawned

/- A removal is the first of its child, which has exited. -/
theorem removed_go (hInv : Inv σ) (hPass : Passes σ.shared p (σ.pc p) e k') :
    ((σ.shared.apply p e).removed.map Prod.snd).Nodup ∧ ∀ x ∈ (σ.shared.apply p e).removed,
        (σ.shared.apply p e).zombie x.2 = true := by
  cases hPass with
  | keep _ _ hKeeps _ =>
    rw [(apply_children_of_keeps hKeeps).2.2]
    refine ⟨hInv.removed, ?_⟩
    intro x hx
    have hOld := hInv.gone x hx
    cases e with
    | setZombie =>
      simp only [Shared.apply, update_apply]
      grind
    | _ => exact hOld
  | remove c _ hMem hZombie _ _ =>
    have hLive := hInv.holders.live_of_mem (mem_holds_of_children hMem)
    exact ⟨List.nodup_cons.mpr ⟨hLive.2.2, hInv.removed⟩,
      List.forall_mem_cons.mpr ⟨hZombie, hInv.gone⟩⟩
  | create | push | take | splice => exact ⟨hInv.removed, hInv.gone⟩

/- What waiting returns was passed to `exit`, once. -/
theorem reaped_go (hInv : Inv σ) (hMoves : Moves σ.shared σ.free p (σ.pc p) e k') :
    (∀ x ∈ (σ.shared.apply p e).reaped, (x.1, x.2.1) ∈ (σ.shared.apply p e).removed ∧
        (σ.shared.apply p e).passed x.2.1 = some x.2.2) ∧
    ((σ.shared.apply p e).reaped.map fun x => x.2.1).Nodup := by
  have hFits := hInv.fits p
  cases e with
  | reap c code =>
    rw [hMoves.reap.1] at hFits
    rcases hFits with ⟨_, hZombie, hRemoved, hNot⟩
    constructor
    · intro x hx
      rcases List.mem_cons.mp hx with rfl | hx
      · refine ⟨hRemoved, ?_⟩
        rw [hMoves.reap.2]
        exact (hInv.exited hZombie).2.2.2
      · exact hInv.reaped x hx
    · refine List.nodup_cons.mpr ⟨?_, hInv.once⟩
      intro hMem
      rcases List.mem_map.mp hMem with ⟨x, hx, hEq⟩
      exact hNot x hx hEq
  | pass code =>
    refine ⟨?_, hInv.once⟩
    intro x hx
    rcases hInv.reaped x hx with ⟨hRemoved, hPassed⟩
    rw [hMoves.born.2.2.1 _ rfl] at hFits
    have hNe : x.2.1 ≠ p := by
      intro hEq
      rw [hEq, hFits.2] at hPassed
      cases hPassed
    refine ⟨hRemoved, ?_⟩
    simpa [Shared.apply, update_of_ne hNe] using hPassed
  | remove c =>
    refine ⟨?_, hInv.once⟩
    intro x hx
    rcases hInv.reaped x hx with ⟨hRemoved, hPassed⟩
    exact ⟨List.mem_cons_of_mem _ hRemoved, hPassed⟩
  | _ => exact ⟨hInv.reaped, hInv.once⟩

theorem inv_go (hInv : Inv σ) (hMoves : Moves σ.shared σ.free p (σ.pc p) e k') :
    Inv (σ.go p (e, k')) := by
  have hPass := hMoves.passes (hInv.fits p)
  refine
    { holders := holders_go hInv.holders hInv.init_lt hInv.fresh_not_removed hPass
      parent := parent_go hInv hMoves
      fits := ?_
      fresh := fresh_go hInv hMoves
      init := ?_
      removed := (removed_go hInv hPass).1
      gone := (removed_go hInv hPass).2
      reaped := (reaped_go hInv hMoves).1
      once := (reaped_go hInv hMoves).2 }
  · intro q
    by_cases hq : q = p
    · subst hq
      simpa [Sys.go] using fits_go hInv hMoves
    · have hLeaves := leaves_go hInv hMoves hq
      simpa [Sys.go, update_of_ne hq] using (hInv.fits q).leaves hLeaves
  · simp only [Sys.go, update_apply]
    grind [hMoves.born.1, hInv.init]

/- Events touch the wakers and the queues alone. -/
theorem env_same {v : Env} (hEnv : σ.env v = some s) :
    s = { σ.shared with
      waitWaker := s.waitWaker
      killed := s.killed
      ready := s.ready
      hands := s.hands } := by cases v <;> grind [Sys.env]

theorem inv_env {v : Env} (hInv : Inv σ) (hEnv : σ.env v = some s) :
    Inv { σ with shared := s } := by
  rw [env_same hEnv]
  refine { hInv with fits := ?_ }
  intro p
  exact (hInv.fits p).leaves (.of_same rfl rfl rfl rfl rfl (List.Subset.refl _) rfl)

theorem inv_step {a : Act} (hInv : Inv σ) (hStep : σ.step a = some σ') : Inv σ' := by
  rcases Sys.step_cases hStep with ⟨p, e, k', hMoves, rfl⟩ | ⟨v, s, hEnv, rfl⟩
  · exact inv_go hInv hMoves
  · exact inv_env hInv hEnv

theorem inv_boot : Inv Sys.boot := by
  have hPc : ∀ p, p ≠ INIT → Sys.boot.pc p = .unborn := by
    intro p hp
    simp [Sys.boot, update_of_ne hp]
  have hInit : Sys.boot.pc INIT = .user := by simp [Sys.boot]
  have hHolds : ∀ p, Sys.boot.holds p = [] := by
    intro p
    by_cases hp : p = INIT
    · subst hp
      simp [Sys.holds, hInit, Pc.kids]
      rfl
    · simp [Sys.holds, hPc p hp, Pc.kids]
      rfl
  refine ⟨⟨?_, ?_, ?_⟩, ?_, ?_, ?_, ?_, ?_, ?_, ?_, ?_⟩
  · intro p
    simp [hHolds]
  · intro p q c hp
    simp [hHolds] at hp
  · intro c
    simp only [hHolds, List.not_mem_nil, exists_false, false_iff]
    rintro ⟨hGt, hLt, _⟩
    simp only [INIT, Sys.boot] at hGt hLt
    omega
  · intro p c hMem
    simp [Sys.boot] at hMem
  · intro p
    by_cases hp : p = INIT
    · subst hp
      rw [hInit]
      exact ⟨rfl, rfl⟩
    · rw [hPc p hp]
      exact ⟨⟨rfl, rfl⟩, rfl⟩
  · intro p hp
    refine ⟨hPc p ?_, rfl⟩
    simp only [Sys.boot] at hp
    simp only [INIT]
    omega
  · rw [hInit]
    simp
  · exact List.nodup_nil
  · intro x hx
    cases hx
  · intro x hx
    cases hx
  · exact List.nodup_nil

theorem inv_of_reach {Ok : Sys → Act → Prop} (hReach : Machine.Reach Sys.step Ok Sys.boot σ) :
    Inv σ := hReach.invariant (fun _ _ _ hInv _ hStep => inv_step hInv hStep) inv_boot

end Tree

end PlayXv6
