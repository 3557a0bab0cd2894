import PlayXv6.Vm.Frames

/-
  Soundness of the virtual-memory rules.

  The frames and tables that a task has in its hands between
  two commands are kept in a ghost next to the state.  Every
  command moves a frame from one owner to another, so no
  frame is ever counted twice.

  Main declarations:
    * `Ghost`, `Link`
    * `cmd_sound`
-/

namespace PlayXv6

variable {h R T : Multiset Res} {pt : PageTable} {root t vpn : Nat} {s' s : State} {β : Type}

namespace Vm

/- Who holds what. -/
abbrev Ghost := Multiset (Nat × Res)

def heldBy (g : Ghost) (t : Nat) : Multiset Res := (g.filter fun x => x.1 = t).map Prod.snd

def give (t : Nat) (R : Multiset Res) : Ghost := R.map (Prod.mk t)

def inHands (g : Ghost) : Multiset Res := g.map Prod.snd

@[simp] theorem inHands_give_add (t : Nat) (R : Multiset Res) (g : Ghost) :
    inHands (give t R + g) = R + inHands g := by simp [inHands, give]

theorem heldBy_give_self (t : Nat) (R : Multiset Res) : heldBy (give t R) t = R := by
  simp [heldBy, give, Multiset.filter_map]

theorem heldBy_give_of_ne {u : Nat} (hNe : u ≠ t) (R : Multiset Res) :
    heldBy (give t R) u = 0 := by simp [heldBy, give, Multiset.filter_map, hNe.symm]

theorem heldBy_add (g g' : Ghost) (t : Nat) : heldBy (g + g') t = heldBy g t + heldBy g' t := by
  simp [heldBy]

theorem give_heldBy (g : Ghost) (t : Nat) : give t (heldBy g t) = g.filter fun x => x.1 = t := by
  unfold give heldBy
  rw [Multiset.map_map]
  calc
    ((g.filter fun x => x.1 = t).map (Prod.mk t ∘ Prod.snd)) =
      (g.filter fun x => x.1 = t).map id := by
        apply Multiset.map_congr rfl
        intro x hx
        have hFst := Multiset.of_mem_filter hx
        exact Prod.ext hFst.symm rfl
    _ = _ := Multiset.map_id _

/- What a task holds can be taken out of its hands. -/
theorem exists_give_add {g : Ghost} (hHeld : heldBy g t = R + h) :
    ∃ g₀, g = give t R + g₀ ∧ heldBy g₀ t = h := by
  have hLe : give t R ≤ g := by
    have hGive : give t R ≤ give t (heldBy g t) := by
      rw [hHeld]
      exact Multiset.map_le_map (Multiset.le_add_right R h)
    rw [give_heldBy] at hGive
    exact hGive.trans (Multiset.filter_le _ g)
  rcases Multiset.le_iff_exists_add.mp hLe with ⟨g₀, rfl⟩
  refine ⟨g₀, rfl, ?_⟩
  rw [heldBy_add, heldBy_give_self] at hHeld
  exact Multiset.add_right_inj.mp hHeld

-- The Link

def procTables (s : State) : Multiset Nat :=
  s.procs.total fun _ q => tablesOf (tableRes q.pagetable)

def roots (s : State) : Multiset Nat := s.tables.total fun root _ => {root}

/- Entries below the trap frame have the USER bit. -/
def UserEntries (pt : PageTable) : Prop :=
  ∀ vpn e, pt.pte.lookup vpn = some e → vpn < USER_VPNS →
    e.perm.user = true

structure Link (s : State) (g : Ghost) : Prop where
  -- no frame is owned or held twice
  exclusive : (↑s.owned + framesOf (inHands g)).Nodup
  -- every table in use is there, and used once
  tables : procTables s + tablesOf (inHands g) ≤ roots s
  user : ∀ root pt, s.tables.lookup root = some pt → UserEntries pt
  pids : ∀ pid, s.nextPid ≤ pid → s.procs.lookup pid = none
  zero : s.procs.lookup 0 = none
  trampoline : s.trampolinePa ∈ s.kernel

/- The tasks that have ever had a process, and task 0. -/
def Known (s : State) (t : Nat) : Prop := t < s.nextPid

def viewOf (s : State) (g : Ghost) (t : Nat) : View where
  held := heldBy g t
  proc := s.procs.lookup t

/- Between two calls the process satisfies `I`. -/
def IdleWith (I : Proc → Prop) (v : View) : Prop := ∀ q, v.proc = some q → I q

theorem Link.exchange {g : Ghost}
    (hLink : Link s (give t R + g)) (hFrames : (↑s'.owned : Multiset Nat) + framesOf T ≤
      ↑s.owned + framesOf R) (hTables : ∀ X, procTables s + tablesOf R + X ≤ roots s →
      procTables s' + tablesOf T + X ≤ roots s')
    (hUser : ∀ root pt, s'.tables.lookup root = some pt → UserEntries pt)
    (hPids : ∀ pid, s'.nextPid ≤ pid → s'.procs.lookup pid = none)
    (hZero : s'.procs.lookup 0 = none) (hTrampoline : s'.trampolinePa ∈ s'.kernel) :
    Link s' (give t T + g) where
  exclusive := by
    refine Multiset.nodup_of_le ?_ hLink.exclusive
    simp only [inHands_give_add, framesOf_add, ← add_assoc]
    exact add_le_add_left hFrames _
  tables := by
    have hOld := hLink.tables
    simp only [inHands_give_add, tablesOf_add, ← add_assoc] at hOld ⊢
    exact hTables _ hOld
  user := hUser
  pids := hPids
  zero := hZero
  trampoline := hTrampoline

theorem follows_exchange {I : Proc → Prop} {g : Ghost}
    (hLink : Link s' (give t T + g)) (hNext : s.nextPid ≤ s'.nextPid) (hProcs : ∀ u, u ≠ t →
      s'.procs.lookup u = s.procs.lookup u) : TaskSystem.Follows viewOf Link Known (IdleWith I)
      s (give t R + g) t s' (give t T + g) := by
  refine ⟨hLink, fun u hu => hu.trans_le hNext, ?_⟩
  intro u hNe
  left
  simp only [viewOf, heldBy_add, heldBy_give_of_ne hNe, hProcs u hNe]

theorem viewOf_exchange (s : State) (g : Ghost) (t : Nat) (R : Multiset Res) :
    viewOf s (give t R + g) t = ⟨R + heldBy g t, s.procs.lookup t⟩ := by
  simp [viewOf, heldBy_add, heldBy_give_self]

-- Soundness of the Rules

variable {I : Proc → Prop} {g : Ghost}

/-
  The ghost after a command of task `t` that keeps the task's
  record and leaves it with `held` in its hands.
-/
def Lands (I : Proc → Prop) (s : State) (g : Ghost) (t : Nat) (s' : State) (v : View) : Prop :=
  ∃ g', TaskSystem.Follows viewOf Link Known (IdleWith I) s g t s' g' ∧ viewOf s' g' t = v

theorem lands_same (hLink : Link s g) : Lands I s g t s (viewOf s g t) :=
  ⟨g, ⟨hLink, fun _ hu => hu, fun _ _ => .inl rfl⟩, rfl⟩

theorem lands_exchange (hLink : Link s g)
    (hHeld : heldBy g t = R + h) (hFrames : (↑s'.owned : Multiset Nat) + framesOf T ≤
      ↑s.owned + framesOf R) (hTables : ∀ X, procTables s + tablesOf R + X ≤ roots s →
      procTables s' + tablesOf T + X ≤ roots s')
    (hUser : ∀ root pt, s'.tables.lookup root = some pt → UserEntries pt)
    (hPids : ∀ pid, s'.nextPid ≤ pid → s'.procs.lookup pid = none)
    (hZero : s'.procs.lookup 0 = none) (hTrampoline : s'.trampolinePa ∈ s'.kernel)
    (hNext : s.nextPid ≤ s'.nextPid) (hProcs : ∀ u, u ≠ t → s'.procs.lookup u = s.procs.lookup u) :
    Lands I s g t s' ⟨T + h, s'.procs.lookup t⟩ := by
  rcases exists_give_add hHeld with ⟨g₀, rfl, hRest⟩
  refine ⟨give t T + g₀, follows_exchange (hLink.exchange hFrames hTables hUser hPids hZero
      hTrampoline) hNext hProcs, ?_⟩
  rw [viewOf_exchange, hRest]

theorem lands_free {free' : List Nat} (hLink : Link s g)
    (hHeld : heldBy g t = R + h) (hFree : (↑free' : Multiset Nat) + framesOf T ≤
      ↑s.free + framesOf R) (hTables : tablesOf T = tablesOf R) :
    Lands I s g t { s with free := free' } ⟨T + h, s.procs.lookup t⟩ := by
  refine lands_exchange hLink hHeld ?_ ?_ hLink.user
    hLink.pids hLink.zero hLink.trampoline (le_refl _) fun _ _ => rfl
  · rw [State.coe_owned, State.coe_owned]
    have hMono := add_le_add_left hFree (s.tables.total tableWorth +
        (s.procs.total fun _ q => {q.trapframePa}) + ↑s.kernel)
    convert hMono using 1 <;> abel
  · intro X hX
    rw [hTables]
    exact hX

theorem lands_table {pt' : PageTable} (hLink : Link s g)
    (hHeld : heldBy g t = R + h) (hLookup : s.tables.lookup root = some pt)
    (hFrames : (↑pt'.frames : Multiset Nat) + framesOf T ≤ ↑pt.frames + framesOf R)
    (hTables : tablesOf T = tablesOf R) (hUser : UserEntries pt') : Lands I s g t
      { s with tables := s.tables.insert root pt' } ⟨T + h, s.procs.lookup t⟩ := by
  have hRoots : roots { s with tables := s.tables.insert root pt' } = roots s :=
    AList.total_insert_of_eq _ hLookup rfl
  refine lands_exchange hLink hHeld ?_ ?_ ?_ hLink.pids
    hLink.zero hLink.trampoline (le_refl _) fun _ _ => rfl
  · rw [State.coe_owned, State.coe_owned, AList.total_insert, AList.total_of_lookup _ hLookup]
    have hMono := add_le_add_left hFrames (↑s.free + {root} +
        (s.tables.erase root).total tableWorth + (s.procs.total fun _ q => {q.trapframePa}) +
          ↑s.kernel)
    simp only [tableWorth]
    convert hMono using 1 <;> abel
  · intro X hX
    rw [hTables, hRoots]
    exact hX
  · intro root' pt'' hLookup'
    by_cases hEq : root' = root
    · subst hEq
      simp only [AList.lookup_insert, Option.some.injEq] at hLookup'
      rw [← hLookup']
      exact hUser
    · simp only [AList.lookup_insert_ne hEq] at hLookup'
      exact hLink.user root' pt'' hLookup'

theorem lands_proc {q q' : Proc} (hLink : Link s g)
    (hHeld : heldBy g t = R + h) (hLookup : s.procs.lookup t = some q)
    (hTrapframe : q'.trapframePa = q.trapframePa) (hFrames : framesOf T = framesOf R)
    (hTables : tablesOf (tableRes q'.pagetable) + tablesOf T =
      tablesOf (tableRes q.pagetable) + tablesOf R) :
    Lands I s g t { s with procs := s.procs.insert t q' } ⟨T + h, some q'⟩ := by
  have hNe : ∀ {u}, u ≠ t → (s.procs.insert t q').lookup u = s.procs.lookup u :=
    fun hu => AList.lookup_insert_ne hu
  have hPresent : ∀ {u}, s.procs.lookup u = none → u ≠ t := by
    intro u hu hEq
    rw [hEq, hLookup] at hu
    simp at hu
  have hOwn : (s.procs.insert t q').lookup t = some q' := AList.lookup_insert _
  rw [← hOwn]
  refine lands_exchange hLink hHeld ?_ ?_ hLink.user ?_ ?_
    hLink.trampoline (le_refl _) fun u hu => hNe hu
  · rw [State.coe_owned, State.coe_owned, hFrames, AList.total_insert_of_eq _ hLookup
        (by rw [hTrapframe])]
  · intro X hX
    have hSplit : procTables s = tablesOf (tableRes q.pagetable) +
          (s.procs.erase t).total fun _ q =>
            tablesOf (tableRes q.pagetable) :=
      AList.total_of_lookup _ hLookup
    have hSplit' : procTables { s with procs := s.procs.insert t q' } =
          tablesOf (tableRes q'.pagetable) + (s.procs.erase t).total fun _ q =>
              tablesOf (tableRes q.pagetable) :=
      AList.total_insert _ _ _ _
    rw [hSplit] at hX
    rw [hSplit']
    calc
      _ = tablesOf (tableRes q'.pagetable) + tablesOf T + (s.procs.erase t).total
              (fun _ q => tablesOf (tableRes q.pagetable)) +
            X := by abel
      _ = tablesOf (tableRes q.pagetable) + tablesOf R + (s.procs.erase t).total
              (fun _ q => tablesOf (tableRes q.pagetable)) +
            X := by rw [hTables]
      _ = _ := by abel
      _ ≤ roots s := hX
  · intro pid hpid
    have hNone := hLink.pids pid hpid
    exact (hNe (hPresent hNone)).trans hNone
  · exact (hNe (hPresent hLink.zero)).trans hLink.zero

theorem lands_newTable {pa : Nat} (hLink : Link s g)
    (hHeld : heldBy g t = .frame pa ::ₘ h) : Lands I s g t
      { s with tables := s.tables.insert pa .zeroed } ⟨.table pa ::ₘ h, s.procs.lookup t⟩ := by
  rw [← Multiset.singleton_add] at hHeld ⊢
  -- a frame that is held is not the root of a table
  have hNew : s.tables.lookup pa = none := by
    cases hLookup : s.tables.lookup pa with
    | none => rfl
    | some pt =>
      rcases exists_give_add hHeld with ⟨g₀, rfl, -⟩
      have hNodup := hLink.exclusive
      rw [State.coe_owned, AList.total_of_lookup _ hLookup,
        tableWorth, inHands_give_add, framesOf_add, framesOf_frame] at hNodup
      have hTwice : ({pa} + {pa} : Multiset Nat).Nodup := by
        refine Multiset.nodup_of_le ?_ hNodup
        have hLe : ({pa} + {pa} : Multiset Nat) ≤ {pa} + {pa} + (↑s.free + ↑pt.frames +
              (s.tables.erase pa).total tableWorth + (s.procs.total fun _ q => {q.trapframePa}) +
              ↑s.kernel + framesOf (inHands g₀)) := Multiset.le_add_right _ _
        convert hLe using 1
        abel
      simp at hTwice
  have hErase : ∀ {f : ∀ _ : Nat, PageTable → Multiset Nat},
      (s.tables.erase pa).total f = s.tables.total f := AList.total_erase_of_lookup_none _ hNew
  refine lands_exchange hLink hHeld ?_ ?_ ?_ hLink.pids
    hLink.zero hLink.trampoline (le_refl _) fun _ _ => rfl
  · rw [State.coe_owned, State.coe_owned, AList.total_insert, hErase]
    apply le_of_eq
    simp only [tableWorth, framesOf_frame, framesOf_table, PageTable.coe_frames, PageTable.zeroed,
      AList.total_empty]
    abel
  · intro X hX
    have hRoots : roots { s with tables := s.tables.insert pa .zeroed } = {pa} + roots s := by
      unfold roots
      rw [AList.total_insert, hErase]
    rw [hRoots, tablesOf_table]
    rw [tablesOf_frame, add_zero] at hX
    have hMono := add_le_add_right hX {pa}
    convert hMono using 1
    simp only [procTables]
    abel
  · intro root' pt hLookup'
    by_cases hEq : root' = pa
    · subst hEq
      simp only [AList.lookup_insert, Option.some.injEq] at hLookup'
      rw [← hLookup']
      intro vpn e he
      simp [PageTable.zeroed] at he
    · simp only [AList.lookup_insert_ne hEq] at hLookup'
      exact hLink.user root' pt hLookup'

/- A dropped table leaves its frames in the task's hands. -/
theorem lands_dropTable (hLink : Link s g)
    (hHeld : heldBy g t = .table root ::ₘ h) (hLookup : s.tables.lookup root = some pt) :
    Lands I s g t { s with tables := s.tables.erase root }
      ⟨↑((pt.dropFrames ++ [root]).map Res.frame) + h, s.procs.lookup t⟩ := by
  rw [← Multiset.singleton_add] at hHeld
  refine lands_exchange hLink hHeld ?_ ?_ ?_ hLink.pids
    hLink.zero hLink.trampoline (le_refl _) fun _ _ => rfl
  · rw [State.coe_owned, State.coe_owned, AList.total_of_lookup tableWorth hLookup,
      framesOf_map_frame, framesOf_table, ← Multiset.coe_add, Multiset.coe_singleton]
    have hMono := add_le_add_left pt.dropFrames_le ({root} + ↑s.free +
        (s.tables.erase root).total tableWorth + (s.procs.total fun _ q => {q.trapframePa}) +
          ↑s.kernel)
    simp only [tableWorth]
    convert hMono using 1 <;> abel
  · intro X hX
    have hSplit : roots s = {root} + roots { s with tables := s.tables.erase root } :=
      AList.total_of_lookup _ hLookup
    rw [hSplit, tablesOf_table] at hX
    rw [tablesOf_map_frame, add_zero]
    refine le_of_add_le_add_left (a := {root}) ?_
    convert hX using 1
    simp only [procTables]
    abel
  · intro root' pt' hLookup'
    by_cases hEq : root' = root
    · subst hEq
      simp at hLookup'
    · simp only [AList.lookup_erase_ne hEq] at hLookup'
      exact hLink.user root' pt' hLookup'

/- A new process takes a table and its trap frame. -/
theorem lands_withLayout {tf size : Nat} (hLink : Link s g)
    (hKnown : Known s t) (hChild : I (Proc.fresh root tf size))
    (hHeld : heldBy g t = .table root ::ₘ .frame tf ::ₘ h) : Lands I s g t
      { s with
        procs := s.procs.insert s.nextPid (Proc.fresh root tf size)
        liveProcs := s.liveProcs + 1
        nextPid := s.nextPid + 1 } ⟨h, s.procs.lookup t⟩ := by
  have hSplit : heldBy g t = ({.table root} + {.frame tf}) + h := by
    rw [hHeld, add_assoc, Multiset.singleton_add, Multiset.singleton_add]
  have hNone : s.procs.lookup s.nextPid = none := hLink.pids _ (le_refl _)
  have hErase : ∀ {f : ∀ _ : Nat, Proc → Multiset Nat},
      (s.procs.erase s.nextPid).total f = s.procs.total f :=
    AList.total_erase_of_lookup_none _ hNone
  have hNe : t ≠ s.nextPid := Nat.ne_of_lt hKnown
  have hPos : 0 ≠ s.nextPid := by
    have hLt : t < s.nextPid := hKnown
    omega
  rcases exists_give_add hSplit with ⟨g₀, rfl, hRest⟩
  refine ⟨give t 0 + g₀, ⟨hLink.exchange ?_ ?_ hLink.user ?_ ?_ hLink.trampoline, ?_, ?_⟩, ?_⟩
  · rw [State.coe_owned, State.coe_owned, AList.total_insert, hErase]
    apply le_of_eq
    simp only [Proc.fresh, framesOf_add, framesOf_table, framesOf_frame, framesOf_zero]
    abel
  · intro X hX
    have hTables : procTables
        { s with
          procs := s.procs.insert s.nextPid (Proc.fresh root tf size)
          liveProcs := s.liveProcs + 1
          nextPid := s.nextPid + 1 } = {root} + procTables s := by
      unfold procTables
      rw [AList.total_insert, hErase]
      simp [Proc.fresh, tableRes]
    rw [hTables, tablesOf_zero, add_zero, add_comm {root} (procTables s)]
    rw [tablesOf_add, tablesOf_table, tablesOf_frame, add_zero] at hX
    exact hX
  · intro pid hpid
    have hLt : s.nextPid + 1 ≤ pid := hpid
    have hPid : pid ≠ s.nextPid := by omega
    simp only [AList.lookup_insert_ne hPid]
    exact hLink.pids pid (by omega)
  · simp only [AList.lookup_insert_ne hPos]
    exact hLink.zero
  · intro u hu
    exact Nat.lt_succ_of_lt hu
  · intro u hu
    by_cases hEq : u = s.nextPid
    · right
      subst hEq
      refine ⟨Nat.lt_irrefl _, ?_⟩
      intro q hq
      simp only [viewOf, AList.lookup_insert, Option.some.injEq] at hq
      rw [← hq]
      exact hChild
    · left
      simp only [viewOf, heldBy_add, heldBy_give_of_ne hu, AList.lookup_insert_ne hEq]
  · rw [viewOf_exchange, hRest, zero_add]
    simp only [AList.lookup_insert_ne hNe]

theorem Lands.post {Q : β → View → Prop} {b : β} {v : View}
    (hLands : Lands I s g t s' v) (hQ : Q b v) :
    ∃ g', TaskSystem.Follows viewOf Link Known (IdleWith I) s g t s' g' ∧ Q b (viewOf s' g' t) := by
  rcases hLands with ⟨g', hFollows, rfl⟩
  exact ⟨g', hFollows, hQ⟩

/- Changes of single fields of the record. -/
theorem onProc_sound {f : Proc → β × Proc} {Q : β → View → Prop} {b : β}
    (hTrapframe : ∀ q, (f q).2.trapframePa = q.trapframePa)
    (hTable : ∀ q, (f q).2.pagetable = q.pagetable) (hLink : Link s g)
    (hPre : procPre f Q (viewOf s g t)) (hExec : s.onProc t f = .ok b s') :
    ∃ g', TaskSystem.Follows viewOf Link Known (IdleWith I) s g t s' g' ∧ Q b (viewOf s' g' t) := by
  unfold State.onProc at hExec
  cases hLookup : s.procs.lookup t with
  | none => simp [hLookup] at hExec
  | some q =>
    simp only [hLookup, Outcome.ok.injEq] at hExec
    rcases hExec with ⟨rfl, rfl⟩
    have hLands := lands_proc (I := I) (R := 0) hLink (zero_add _).symm hLookup (hTrapframe q) rfl
      (by rw [hTable q])
    exact hLands.post (by
      rw [zero_add]
      exact hPre q hLookup)

theorem onTable_sound {f : PageTable → β × PageTable}
    {T : β → Multiset Res} {b : β} {Q : β → View → Prop} (hLink : Link s g)
    (hHeld : heldBy g t = R + h) (hFrames : ∀ pt, s.tables.lookup root = some pt →
      (↑(f pt).2.frames : Multiset Nat) + framesOf (T (f pt).1) ≤ ↑pt.frames + framesOf R)
    (hTables : ∀ b, tablesOf (T b) = tablesOf R)
    (hUser : ∀ pt, UserEntries pt → UserEntries (f pt).2) (hQ : Q b ⟨T b + h, s.procs.lookup t⟩)
    (hExec : s.onTable root f = .ok b s') : ∃ g', TaskSystem.Follows viewOf Link Known (IdleWith I)
        s g t s' g' ∧ Q b (viewOf s' g' t) := by
  unfold State.onTable at hExec
  cases hLookup : s.tables.lookup root with
  | none => simp [hLookup] at hExec
  | some pt =>
    simp only [hLookup, Outcome.ok.injEq] at hExec
    rcases hExec with ⟨rfl, rfl⟩
    have hLands := lands_table (I := I) hLink hHeld hLookup (hFrames pt hLookup) (hTables _)
      (hUser pt (hLink.user root pt hLookup))
    exact hLands.post hQ

theorem readTable_sound {f : PageTable → β} {b : β}
    {Q : β → View → Prop} (hLink : Link s g) (hQ : ∀ pt, UserEntries pt → Q (f pt) (viewOf s g t))
    (hExec : s.readTable root f = .ok b s') :
    ∃ g', TaskSystem.Follows viewOf Link Known (IdleWith I) s g t s' g' ∧ Q b (viewOf s' g' t) := by
  unfold State.readTable at hExec
  cases hLookup : s.tables.lookup root with
  | none => simp [hLookup] at hExec
  | some pt =>
    simp only [hLookup, Outcome.ok.injEq] at hExec
    rcases hExec with ⟨rfl, rfl⟩
    exact (lands_same hLink).post (hQ pt (hLink.user root pt hLookup))

theorem UserEntries.insert {e : Pte} (hUser : UserEntries pt)
    (hEntry : vpn < USER_VPNS → e.perm.user = true) :
    UserEntries { pt with pte := pt.pte.insert vpn e } := by
  intro vpn' e' hLookup hVpn
  by_cases hEq : vpn' = vpn
  · subst hEq
    simp only [AList.lookup_insert, Option.some.injEq] at hLookup
    rw [← hLookup]
    exact hEntry hVpn
  · simp only [AList.lookup_insert_ne hEq] at hLookup
    exact hUser vpn' e' hLookup hVpn

theorem UserEntries.erase (hUser : UserEntries pt) :
    UserEntries { pt with pte := pt.pte.erase vpn } := by
  intro vpn' e' hLookup hVpn
  by_cases hEq : vpn' = vpn
  · subst hEq
    simp at hLookup
  · simp only [AList.lookup_erase_ne hEq] at hLookup
    exact hUser vpn' e' hLookup hVpn

theorem UserEntries.takeLeaf (hUser : UserEntries pt) : UserEntries (pt.takeLeaf vpn).2 := by
  unfold PageTable.takeLeaf
  cases pt.pte.lookup vpn with
  | none => exact hUser
  | some e =>
    dsimp only
    split
    · exact hUser.erase
    · exact hUser

/- Every command does to its task's view what its rule says. -/
theorem cmd_sound (c : Cmd β) (Q : β → View → Prop) {b : β}
    (hLink : Link s g) (hKnown : Known s t) (hPre : vmPre I c Q (viewOf s g t))
    (hExec : exec t c s = .ok b s') : ∃ g', TaskSystem.Follows viewOf Link Known (IdleWith I)
        s g t s' g' ∧ Q b (viewOf s' g' t) := by
  have hOwn : heldBy g t = 0 + heldBy g t := (zero_add _).symm
  cases c with
  | allocZeroed =>
    simp only [exec] at hExec
    cases hFree : s.free with
    | nil =>
      simp only [hFree, Outcome.ok.injEq] at hExec
      rcases hExec with ⟨rfl, rfl⟩
      have hQ := hPre none
      simp only [frameRes, zero_add] at hQ
      exact (lands_same hLink).post hQ
    | cons pa rest =>
      simp only [hFree, Outcome.ok.injEq] at hExec
      rcases hExec with ⟨rfl, rfl⟩
      refine (lands_free hLink hOwn ?_ ?_).post (hPre (some pa))
      · rw [hFree, frameRes, framesOf_frame, framesOf_zero, add_zero, add_comm,
          Multiset.singleton_add, Multiset.cons_coe]
      · simp
  | free pa =>
    simp only [exec, Outcome.ok.injEq] at hExec
    rcases hExec with ⟨-, rfl⟩
    rcases hPre with ⟨h, hHeld, hQ⟩
    have hSplit : heldBy g t = {.frame pa} + h := hHeld
    refine (lands_free (T := 0) hLink hSplit ?_ ?_).post ?_
    · rw [framesOf_frame, framesOf_zero, add_zero, add_comm,
        Multiset.singleton_add, Multiset.cons_coe]
    · simp
    · rw [zero_add]
      exact hQ
  | newTable pa =>
    simp only [exec, Outcome.ok.injEq] at hExec
    rcases hExec with ⟨-, rfl⟩
    rcases hPre with ⟨h, hHeld, hQ⟩
    exact (lands_newTable hLink hHeld).post hQ
  | hasBranch root level idx => exact readTable_sound hLink (fun pt _ => hPre _) hExec
  | linkBranch root level idx pa =>
    rcases hPre with ⟨h, hHeld, hQ⟩
    have hSplit : heldBy g t = {.frame pa} + h := hHeld
    refine onTable_sound (T := fun _ => 0) hLink hSplit ?_ ?_ (fun pt hUser => hUser) ?_ hExec
    · intro pt _
      rw [framesOf_frame, framesOf_zero, add_zero, add_comm]
      exact pt.frames_insert_branch (level, idx) pa
    · simp
    · rw [zero_add]
      exact hQ
  | pteAt root vpn =>
    refine readTable_sound hLink ?_ hExec
    intro pt hUser
    refine hPre (pt.pte.lookup vpn) ?_
    intro e he hVpn
    exact hUser vpn e he hVpn
  | setPte root vpn e =>
    simp only [vmPre] at hPre
    simp only [exec] at hExec
    split at hExec
    swap
    · cases hExec
    by_cases hUser : e.perm.user = true
    · rw [if_pos hUser] at hPre
      rcases hPre with ⟨h, hHeld, hQ⟩
      have hSplit : heldBy g t = {.frame e.pa} + h := hHeld
      refine onTable_sound (T := fun _ => 0) hLink hSplit
        ?_ ?_ (fun pt hPt => hPt.insert fun _ => hUser) ?_ hExec
      · intro pt _
        rw [framesOf_frame, framesOf_zero, add_zero, add_comm]
        refine (pt.frames_insert_pte vpn e).trans ?_
        rw [Pte.worth, if_pos hUser]
      · simp
      · rw [zero_add]
        exact hQ
    · rw [if_neg hUser] at hPre
      rcases hPre with ⟨hVpn, hQ⟩
      refine onTable_sound (T := fun _ => 0) hLink hOwn ?_ ?_ (fun pt hPt => hPt.insert fun hLt =>
          absurd hLt (Nat.not_lt.mpr hVpn)) ?_ hExec
      · intro pt _
        rw [framesOf_zero, add_zero, add_zero]
        refine (pt.frames_insert_pte vpn e).trans ?_
        rw [Pte.worth, if_neg hUser, zero_add]
      · simp
      · rw [zero_add]
        exact hQ
  | takeLeaf root vpn =>
    rcases hPre with ⟨hVpn, hQ⟩
    refine onTable_sound (T := frameRes) hLink hOwn ?_ ?_ (fun pt hPt => hPt.takeLeaf) (hQ b) hExec
    · intro pt hTable
      rw [framesOf_zero, add_zero]
      exact (PageTable.takeLeaf_frames fun e he =>
        hLink.user root pt hTable vpn e he hVpn).le
    · simp
  | dropTable root =>
    rcases hPre with ⟨h, hHeld, hQ⟩
    simp only [exec] at hExec
    cases hLookup : s.tables.lookup root with
    | none => simp [hLookup] at hExec
    | some pt =>
      simp only [hLookup, Outcome.ok.injEq] at hExec
      rcases hExec with ⟨rfl, rfl⟩
      exact (lands_dropTable hLink hHeld hLookup).post (hQ _)
  | fill c =>
    cases hExec
    exact (lands_same hLink).post hPre
  | trampolinePa | liveProcs =>
    simp only [exec, Outcome.ok.injEq] at hExec
    rcases hExec with ⟨rfl, rfl⟩
    exact (lands_same hLink).post (hPre _)
  | proc =>
    simp only [exec] at hExec
    cases hLookup : s.procs.lookup t with
    | none => simp [hLookup] at hExec
    | some q =>
      simp only [hLookup, Outcome.ok.injEq] at hExec
      rcases hExec with ⟨rfl, rfl⟩
      have hQ := hPre q hLookup
      rw [← hLookup] at hQ
      exact (lands_same hLink).post hQ
  | rootPa =>
    simp only [exec] at hExec
    split at hExec
    · simp at hExec
    · simp only [Outcome.ok.injEq] at hExec
      rcases hExec with ⟨rfl, rfl⟩
      exact (lands_same hLink).post (hPre _)
  | swapTable root =>
    rcases hPre with ⟨h, hHeld, hQ⟩
    simp only [exec, State.onProc] at hExec
    cases hLookup : s.procs.lookup t with
    | none => simp [hLookup] at hExec
    | some q =>
      simp only [hLookup, Outcome.ok.injEq] at hExec
      rcases hExec with ⟨rfl, rfl⟩
      have hLands : Lands I s g t
          { s with procs := (s.procs.insert t { q with pagetable := root }) }
          ⟨tableRes q.pagetable + h, some { q with pagetable := root }⟩ := by
        refine lands_proc hLink hHeld hLookup rfl ?_ (add_comm _ _)
        rw [framesOf_tableRes, framesOf_tableRes]
      exact hLands.post (hQ q hLookup)
  | setSize size | setVmas vmas | setMmapBase base | setZombie =>
    exact onProc_sound (fun _ => rfl) (fun _ => rfl) hLink hPre hExec
  | withLayout root tf size =>
    simp only [exec, Outcome.ok.injEq] at hExec
    rcases hExec with ⟨rfl, rfl⟩
    rcases hPre with ⟨hChild, h, hHeld, hQ⟩
    exact (lands_withLayout hLink hKnown hChild hHeld).post (hQ _)
  | panic => simp [exec] at hExec

end Vm

end PlayXv6
