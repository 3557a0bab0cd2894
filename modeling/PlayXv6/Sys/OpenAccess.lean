import PlayXv6.Fs.Frame
import PlayXv6.Sys.Files

/-
  What `open` checks before it hands out a descriptor.

  Resolving a path takes and drops references but changes
  neither the blocks nor the owner and mode of any inode, so
  the inode that `open` locks is judged by what it was when
  the call began.  Only creating a file leaves that frame, and
  a created file did not exist before.

  Main declarations:
    * `lookRules`
    * `sysOpen_guarded_iff`
-/

namespace PlayXv6

open Function Rules

-- Rules for Looking Up

/- What a permission check and `open` read of an inode. -/
def DInode.attrs (st : DInode) : UInt16 × UInt16 × UInt16 × UInt16 × UInt16 :=
  (st.typ, st.major, st.uid, st.gid, st.mode)

/- The state, the references the program has taken, and the inode it has created. -/
structure LookView where
  fs : Fs
  held : Multiset Nat
  fresh : Option Nat

def Cmd.heldAfter {β : Type} (c : Cmd β) (b : β) (held : Multiset Nat) : Multiset Nat :=
  match c, b with
  | .iget i, _ => i ::ₘ held
  | .iput i, _ => held.erase i
  | .getCwd _, some i => i ::ₘ held
  | _, _ => held

def Cmd.freshAfter {β : Type} (c : Cmd β) (b : β) (fresh : Option Nat) : Option Nat :=
  match fresh with
  | some i => some i
  | none =>
    match c, b with
    | .claimDinode i _, true => some i
    | _, _ => none

/-
  What a lookup may do: take references and drop its own, and
  load inodes, without changing what a check reads.
-/
def Cmd.lookOk (sb : Superblock) {β : Type} (c : Cmd β) (v : LookView) : Prop :=
  match c with
  | .bread _ => True
  | .readDinode _ => True
  | .claimDinode _ _ => True
  | .beginOp => True
  | .endOp => True
  | .commit => True
  | .iget _ => True
  | .iput i => i ∈ v.held
  | .lock _ => True
  | .unlock _ => True
  | .isValid _ => True
  | .setValid i => v.fs.valid i = true ∨ (v.fs.state i).attrs = (v.fs.dinode sb i).attrs
  | .getState _ => True
  | .setState i st => v.fs.valid i = false ∨ st.attrs = (v.fs.state i).attrs
  | .getCwd _ => True
  | .now => True
  | .mark _ => True
  | .fail _ => True
  | _ => False

/- Once an inode has been created everything is allowed. -/
def lookRules (sb : Superblock) : Rules Cmd LookView where
  pre c Q v := (v.fresh.isSome = true ∨ c.lookOk sb v) ∧ ∀ b m, exec sb c v.fs = .ok b m →
        Q b ⟨m, c.heldAfter b v.held, c.freshAfter b v.fresh⟩
  mono _ _ _ hImp _ hPre := ⟨hPre.1, fun b m hExec => hImp _ _ (hPre.2 b m hExec)⟩

/- What a lookup from `s` keeps. -/
structure Unchanged (sb : Superblock) (s m : Fs) (held : Multiset Nat) : Prop where
  blocks : m.blocks = s.blocks
  refs : ∀ i, s.refs i + held.count i ≤ m.refs i
  valid : ∀ i, 0 < s.refs i → s.valid i = true → m.valid i = true
  attrs : ∀ i, 0 < m.refs i → m.valid i = true → (m.state i).attrs = (currSt sb s i).attrs
  cwd : ∀ p i, m.cwd p = some i → 0 < s.refs i

/- A lookup from `s` is at `v`. -/
structure Looked (sb : Superblock) (s : Fs) (v : LookView) : Prop where
  known : v.fresh = none → Unchanged sb s v.fs v.held
  fresh : ∀ i, v.fresh = some i → (s.dinode sb i).typ = 0

variable {st : InodeState}

namespace Unchanged

variable {sb : Superblock} {s m m' : Fs} {held : Multiset Nat} {i : Nat}

theorem refl (hCwd : ∀ p i, s.cwd p = some i → 0 < s.refs i) : Unchanged sb s s 0 where
  blocks := rfl
  refs _ := by simp
  valid _ _ hValid := hValid
  attrs i hRefs hValid := by
    unfold currSt
    rw [if_pos ⟨hRefs, hValid⟩]
  cwd := hCwd

/- A step that touches none of the fields. -/
theorem same (hOld : Unchanged sb s m held) (hBlocks : m'.blocks = m.blocks := by rfl)
    (hRefs : m'.refs = m.refs := by rfl) (hValid : m'.valid = m.valid := by rfl)
    (hState : m'.state = m.state := by rfl) (hCwd : m'.cwd = m.cwd := by rfl) :
    Unchanged sb s m' held := by
  constructor
  · exact hBlocks.trans hOld.blocks
  · rw [hRefs]
    exact hOld.refs
  · rw [hValid]
    exact hOld.valid
  · rw [hRefs, hValid, hState]
    exact hOld.attrs
  · rw [hCwd]
    exact hOld.cwd

theorem refs_addRef (hOld : Unchanged sb s m held) (i j : Nat) : s.refs j + (i ::ₘ held).count j ≤
      (m.addRef i).refs j := by
  have hRefs := hOld.refs j
  simp only [Multiset.count_cons, Fs.addRef, update_apply]
  grind

theorem addRef (hOld : Unchanged sb s m held) (hLive : 0 < m.refs i) :
    Unchanged sb s (m.addRef i) (i ::ₘ held) where
  blocks := hOld.blocks
  refs := hOld.refs_addRef i
  valid := hOld.valid
  attrs j hRefs hValid := by
    refine hOld.attrs j ?_ hValid
    simp only [Fs.addRef, update_apply] at hRefs
    grind
  cwd := hOld.cwd

/- A reference to an idle slot starts it afresh. -/
theorem wake (hOld : Unchanged sb s m held) (hIdle : m.refs i = 0) : Unchanged sb s
      { m.addRef i with
        valid := update m.valid i false } (i ::ₘ held) where
  blocks := hOld.blocks
  refs := hOld.refs_addRef i
  valid j hRefs hValid := by
    grind [hOld.refs j, hOld.valid j hRefs hValid, update_apply]
  attrs j hRefs hValid := by
    simp only [Fs.addRef, update_apply] at hRefs hValid
    exact hOld.attrs j (by grind) (by grind)
  cwd := hOld.cwd

theorem drop (hOld : Unchanged sb s m held) (hMem : i ∈ held) : Unchanged sb s
      { m with
        refs := update m.refs i (m.refs i - 1) } (held.erase i) where
  blocks := hOld.blocks
  refs j := by
    have hRefs := hOld.refs j
    have hPos : 0 < held.count i := Multiset.count_pos.mpr hMem
    grind [update_apply, Multiset.count_erase_self, Multiset.count_erase_of_ne]
  valid := hOld.valid
  attrs j hRefs hValid := by
    refine hOld.attrs j ?_ hValid
    grind [update_apply]
  cwd := hOld.cwd

theorem setState (hOld : Unchanged sb s m held) (hKeep : m.valid i = false ∨
      st.attrs = (m.state i).attrs) : Unchanged sb s
      { m with state := update m.state i st } held where
  blocks := hOld.blocks
  refs := hOld.refs
  valid := hOld.valid
  attrs j hRefs hValid := by
    have hAttrs := hOld.attrs j hRefs hValid
    simp only [update_apply]
    grind
  cwd := hOld.cwd

theorem setValid (hOld : Unchanged sb s m held) (hLoaded : m.valid i = true ∨
      (m.state i).attrs = (m.dinode sb i).attrs) : Unchanged sb s
      { m with valid := update m.valid i true } held where
  blocks := hOld.blocks
  refs := hOld.refs
  valid j hRefs hValid := by
    grind [hOld.valid j hRefs hValid, update_apply]
  attrs j hRefs hValid := by
    by_cases hAlready : m.valid j = true
    · exact hOld.attrs j hRefs hAlready
    · obtain rfl : j = i := by grind [update_apply]
      have hAttrs := hLoaded.resolve_left hAlready
      have hStored : currSt sb s j = m.dinode sb j := by
        have hDead : ¬ (0 < s.refs j ∧ s.valid j = true) := fun hLive =>
            hAlready (hOld.valid j hLive.1 hLive.2)
        unfold currSt Fs.dinode
        rw [if_neg hDead, hOld.blocks]
      rw [hStored]
      exact hAttrs
  cwd := hOld.cwd

end Unchanged

theorem looked_step {sb : Superblock} {s m : Fs} {v : LookView} {β : Type} {c : Cmd β} {b : β}
    (hLooked : Looked sb s v) (hOk : v.fresh.isSome = true ∨ c.lookOk sb v)
    (hExec : exec sb c v.fs = .ok b m) : Looked sb s
      ⟨m, c.heldAfter b v.held, c.freshAfter b v.fresh⟩ := by
  rcases v with ⟨fs, held, fresh⟩
  cases fresh with
  | some i =>
    refine ⟨fun hNone => ?_, hLooked.fresh⟩
    simp [Cmd.freshAfter] at hNone
  | none =>
    have hOld := hLooked.known rfl
    have hAllowed : c.lookOk sb ⟨fs, held, none⟩ := hOk.resolve_left (by simp)
    have hKnown : ∀ {m' : Fs} {held' : Multiset Nat}, Unchanged sb s m' held' →
          Looked sb s ⟨m', held', none⟩ := fun hNew => ⟨fun _ => hNew, by simp⟩
    cases c
    case claimDinode i d =>
      simp only [exec] at hExec
      split at hExec
      · rename_i hFree
        cases hExec
        refine ⟨fun hNone => ?_, fun j hSome => ?_⟩
        · simp [Cmd.freshAfter] at hNone
        · have hSame : i = j := by simpa [Cmd.freshAfter] using hSome
          subst j
          unfold Fs.dinode at hFree ⊢
          rw [← hOld.blocks]
          exact hFree
      · cases hExec
        exact hKnown hOld
    case iget i =>
      cases hExec
      by_cases hIdle : fs.refs i = 0
      · simp only [hIdle, if_true]
        exact hKnown (hOld.wake hIdle)
      · simp only [hIdle, if_false]
        exact hKnown (hOld.addRef (Nat.pos_of_ne_zero hIdle))
    case iput i =>
      cases hExec
      exact hKnown (hOld.drop hAllowed)
    case setState i st =>
      cases hExec
      exact hKnown (hOld.setState hAllowed)
    case setValid i =>
      cases hExec
      exact hKnown (hOld.setValid hAllowed)
    case getCwd p =>
      simp only [exec] at hExec
      cases hCwd : fs.cwd p with
      | none =>
        rw [hCwd] at hExec
        cases hExec
        exact hKnown hOld
      | some i =>
        rw [hCwd] at hExec
        cases hExec
        have hHeld := hOld.refs i
        have hPos := hOld.cwd p i hCwd
        exact hKnown (hOld.addRef (by omega))
    case mark k =>
      cases k <;> (cases hExec; exact hKnown hOld.same)
    all_goals first
      | exact hAllowed.elim
      | cases hExec
        done
      | cases hExec
        exact hKnown hOld.same
      | simp only [exec] at hExec
        split at hExec
        all_goals cases hExec
        all_goals exact hKnown hOld.same

/- A verified lookup that finishes meets its postcondition. -/
theorem lookRules_post {sb : Superblock} {s m m' : Fs} {held : Multiset Nat} {α : Type}
    {p : FsProg α} {Q : α → LookView → Prop} {a : α} (hOld : Unchanged sb s m held)
    (hWp : (lookRules sb).wp p Q ⟨m, held, none⟩) (hRun : p.run (exec sb) m = .ok a m') :
    ∃ v, v.fs = m' ∧ Looked sb s v ∧ Q a v := by
  have hStart : Looked sb s ⟨m, held, none⟩ := ⟨fun _ => hOld, by simp⟩
  have hEnd := Rules.post_of_wp (L := fun fs (v : LookView) => v.fs = fs ∧ Looked sb s v)
    (R := lookRules sb) (fun c Q fs v hLink hPre b fs' hExec => by
      rcases hLink with ⟨rfl, hLooked⟩
      exact ⟨_, ⟨rfl, looked_step hLooked hPre.1 hExec⟩, hPre.2 b fs' hExec⟩)
    ⟨rfl, hStart⟩ hWp hRun
  rcases hEnd with ⟨v, ⟨hFs, hLooked⟩, hPost⟩
  exact ⟨v, hFs, hLooked, hPost⟩

-- Lookups

/-
  From any state, and with the references `held`, the program
  ends with the references `post` gives for its result.
-/
def Looks (sb : Superblock) {α : Type} (p : FsProg α) (held : Multiset Nat)
    (post : α → Multiset Nat) : Prop :=
  ∀ m, (lookRules sb).wp p
    (fun a v => v.held = post a ∧ v.fresh = none) ⟨m, held, none⟩

variable {sb : Superblock} {α β : Type} {held : Multiset Nat}

theorem Looks.ret {a : α} {post : α → Multiset Nat} (hHeld : held = post a) :
    Looks sb (pure a) held post := fun _ => ⟨hHeld, rfl⟩

theorem Looks.bind {p : FsProg α} {f : α → FsProg β} {mid : α → Multiset Nat}
    {post : β → Multiset Nat} (hFirst : Looks sb p held mid)
    (hThen : ∀ a, Looks sb (f a) (mid a) post) : Looks sb (p >>= f) held post := by
  intro m
  refine wp_bind_of (hFirst m) ?_
  rintro a ⟨m', held', fresh'⟩ ⟨rfl, rfl⟩
  exact hThen a m'

theorem Looks.ite {c : Prop} [Decidable c] {p q : FsProg α} {post : α → Multiset Nat}
    (hThen : Looks sb p held post) (hElse : Looks sb q held post) :
    Looks sb (if c then p else q) held post := by
  split
  · exact hThen
  · exact hElse

/- The command concerns no reference and no inode. -/
def Cmd.Neutral {β : Type} : Cmd β → Prop
  | .bread _ => True
  | .readDinode _ => True
  | .beginOp => True
  | .endOp => True
  | .commit => True
  | .lock _ => True
  | .unlock _ => True
  | .isValid _ => True
  | .getState _ => True
  | .now => True
  | .mark _ => True
  | .fail _ => True
  | _ => False

theorem Cmd.Still.neutral (c : Cmd β) (hStill : c.Still) :
    c.Neutral := by cases c <;> trivial

theorem looks_neutral {p : FsProg α} (hAll : p.All Cmd.Neutral) :
    Looks sb p held fun _ => held := by
  intro m
  induction p generalizing m with
  | ret a => exact ⟨rfl, rfl⟩
  | op c k ih =>
    rcases hAll with ⟨hNow, hRest⟩
    refine ⟨Or.inr ?_, fun b m' _ => ?_⟩
    · cases c <;> first | exact hNow.elim | trivial
    · have hSame : c.heldAfter b held = held ∧ c.freshAfter b none = none := by
        cases c <;> first
          | exact hNow.elim
          | exact ⟨rfl, rfl⟩
      rw [hSame.1, hSame.2]
      exact ih b (hRest b) m'

theorem looks_call {c : Cmd β} (hNeutral : c.Neutral) : Looks sb (call c) held fun _ => held :=
  looks_neutral ⟨hNeutral, fun _ => trivial⟩

theorem looks_getState (i : Nat) : Looks sb (call (.getState i)) held fun _ => held :=
  looks_call trivial

theorem looks_iunlock (i : Nat) : Looks sb (iunlock i) held fun _ => held := looks_call trivial

theorem looks_endOp : Looks sb endOp held fun _ => held := by
  refine looks_neutral ?_
  refine .lift_bind trivial fun last => ?_
  exact .ite ⟨trivial, fun _ => trivial⟩ trivial

theorem looks_iget (i : Nat) : Looks sb (call (.iget i)) held fun _ => i ::ₘ held :=
  fun _ => ⟨Or.inr trivial, fun _ _ _ => ⟨rfl, rfl⟩⟩

theorem looks_iput (i : Nat) : Looks sb (call (.iput i)) (i ::ₘ held) fun _ => held := by
  intro m
  refine ⟨Or.inr (Multiset.mem_cons_self i held), ?_⟩
  intro _ _ _
  exact ⟨Multiset.erase_cons_head i held, rfl⟩

/- Drop a reference that is not the last one taken. -/
theorem looks_iput_under (i j : Nat) : Looks sb (call (.iput i)) (j ::ₘ i ::ₘ held)
      fun _ => j ::ₘ held := by
  rw [Multiset.cons_swap]
  exact looks_iput i

theorem looks_giveUp (i : Nat) {post : Option α → Multiset Nat} (hHeld : held = post none) :
    Looks sb (do call (.iput i); pure none) (i ::ₘ held) post :=
  (looks_iput i).bind fun _ => .ret hHeld

theorem wp_look_ilock {m : Fs} {i : Nat} : (lookRules sb).wp (ilock i)
      (fun _ v => v.held = held ∧ v.fresh = none ∧ v.fs.valid i = true) ⟨m, held, none⟩ := by
  refine ⟨Or.inr trivial, fun _ m₁ _ => ?_⟩
  refine ⟨Or.inr trivial, fun b m₂ hExec => ?_⟩
  cases hExec
  cases hValid : m₁.valid i with
  | true => exact ⟨rfl, rfl, hValid⟩
  | false =>
    refine ⟨Or.inr trivial, fun d m₃ hExec => ?_⟩
    cases hExec
    refine ⟨Or.inr (Or.inl hValid), fun _ m₄ hExec => ?_⟩
    cases hExec
    have hFill : ∀ _ : Unit, (lookRules sb).wp (call (.setValid i))
        (fun _ v => v.held = held ∧ v.fresh = none ∧ v.fs.valid i = true)
        ⟨{ m₁ with
            state := update m₁.state i (m₁.dinode sb i) }, held, none⟩ := by
      intro _
      refine ⟨Or.inr (Or.inr ?_), fun _ m₅ hExec => ?_⟩
      · simp only [update_self]
        rfl
      · cases hExec
        exact ⟨rfl, rfl, by simp⟩
    by_cases hTyp : (m₁.dinode sb i).typ = 0
    · refine wp_bind.mpr ?_
      rw [if_pos hTyp]
      exact ⟨Or.inr trivial, fun _ _ hExec => nomatch hExec⟩
    · refine wp_bind.mpr ?_
      rw [if_neg hTyp]
      exact hFill ()

theorem looks_ilock (i : Nat) : Looks sb (ilock i) held fun _ => held := fun _ => wp_mono
    (fun _ _ hPost => ⟨hPost.1, hPost.2.1⟩) wp_look_ilock

/- Reading changes the access time in memory. -/
theorem looks_readi (i len off : Nat) : Looks sb (readi i len off) held fun _ => held := by
  intro m
  refine ⟨Or.inr trivial, fun st m₁ hExec => ?_⟩
  cases hExec
  dsimp only [Prog.ret_bind]
  split
  · exact ⟨rfl, rfl⟩
  · refine ⟨Or.inr trivial, fun now m₂ hExec => ?_⟩
    cases hExec
    refine ⟨Or.inr (Or.inr rfl), fun _ m₃ _ => ?_⟩
    exact looks_neutral (Prog.All.mono Cmd.Still.neutral (readiLoop_still _ _ _ _ _ _)) m₃

theorem looks_scanEntries (dir : Nat) (stop : Dirent → Bool) (size fuel off : Nat) :
    Looks sb (scanEntries dir stop size fuel off) held fun _ => held := by
  induction fuel generalizing off with
  | zero => exact .ret rfl
  | succ fuel ih =>
    unfold scanEntries
    refine .ite ?_ (.ret rfl)
    refine (looks_readi _ _ _).bind fun bs => ?_
    refine .ite (.ret rfl) ?_
    exact .ite (.ret rfl) (ih _)

theorem looks_assertDir (dir : Nat) : Looks sb (assertDir dir) held fun _ => held := by
  refine looks_neutral ?_
  refine .lift_bind trivial fun s => ?_
  exact .ite ⟨trivial, fun _ => trivial⟩ trivial

theorem looks_dirlookup (dir : Nat) (name : Name) : Looks sb (dirlookup dir name) held
      fun r => r.elim held (· ::ₘ held) := by
  refine (looks_assertDir _).bind fun _ => ?_
  refine (looks_getState _).bind fun s => ?_
  refine (looks_scanEntries _ _ _ _ _).bind fun r => ?_
  cases r with
  | found off e => exact (looks_iget _).bind fun _ => .ret rfl
  | finished | short => exact .ret rfl

theorem looks_dirlookupFull (dir : Nat) (name : Name) : Looks sb (dirlookupFull dir name) held
      fun r => r.elim held (fun x => x.1 ::ₘ held) := by
  refine (looks_getState _).bind fun s => ?_
  refine (looks_scanEntries _ _ _ _ _).bind fun r => ?_
  cases r with
  | found off e => exact (looks_iget _).bind fun _ => .ret rfl
  | finished | short => exact .ret rfl

theorem looks_readSymlinkBody (ip : Nat) : Looks sb (readSymlinkBody ip) held fun _ => held := by
  refine (looks_ilock _).bind fun _ => ?_
  refine (looks_getState _).bind fun s => ?_
  refine .ite ?_ ?_
  · exact (looks_iunlock _).bind fun _ => .ret rfl
  · refine (looks_readi _ _ _).bind fun buf => ?_
    refine (looks_iunlock _).bind fun _ => ?_
    exact .ite (.ret rfl) (.ite (.ret rfl) (.ret rfl))

abbrev walkPost (held : Multiset Nat) (r : Option (Nat × Option Name)) : Multiset Nat :=
  r.elim held fun x => x.1 ::ₘ held

theorem looks_namexWalk (wantParent followLast : Bool) (follow : Option (Nat → Name →
      FsProg (Option (Nat × Option Name)))) (hFollow : ∀ go, follow = some go → ∀ ip path,
      Looks sb (go ip path) (ip ::ₘ held) (walkPost held)) (fuel ip : Nat) (path : Name) : Looks sb
      (namexWalk wantParent followLast follow fuel ip path) (ip ::ₘ held) (walkPost held) := by
  induction fuel generalizing ip path with
  | zero => exact looks_giveUp ip rfl
  | succ fuel ih =>
    unfold namexWalk
    dsimp only
    refine .ite (.ite (looks_giveUp ip rfl) (.ret rfl)) ?_
    refine (looks_ilock _).bind fun _ => ?_
    refine (looks_getState _).bind fun s => ?_
    refine .ite ?_ (.ite ?_ ?_)
    · exact (looks_iunlock _).bind fun _ => looks_giveUp ip rfl
    · exact (looks_iunlock _).bind fun _ => .ret rfl
    · refine (looks_dirlookup _ _).bind fun r => ?_
      cases r with
      | none =>
        exact (looks_iunlock _).bind fun _ => looks_giveUp ip rfl
      | some next =>
        refine (looks_iunlock _).bind fun _ => ?_
        refine (looks_ilock _).bind fun _ => ?_
        refine (looks_getState _).bind fun n => ?_
        refine (looks_iunlock _).bind fun _ => ?_
        have hBoth : Looks sb (do
              call (.iput next)
              call (.iput ip)
              pure none)
            (next ::ₘ ip ::ₘ held) (walkPost held) :=
          (looks_iput next).bind fun _ => looks_giveUp ip rfl
        refine .ite ?_ ?_
        · cases follow with
          | none => exact hBoth
          | some go =>
            have hGo := hFollow go rfl
            refine (looks_readSymlinkBody _).bind fun r => ?_
            cases r with
            | none => exact hBoth
            | some target =>
              refine .ite ?_ ?_
              · -- the walk starts over at the root
                refine (looks_iget _).bind fun _ => ?_
                rw [Option.elim_some, Multiset.cons_swap next ip]
                refine (looks_iput_under _ _).bind fun _ => ?_
                refine (looks_iput_under _ _).bind fun _ => ?_
                exact hGo _ _
              · exact (looks_iput next).bind fun _ => hGo _ _
        · exact (looks_iput_under _ _).bind fun _ => ih _ _

theorem looks_namexFrom (wantParent followLast : Bool) (hops ip : Nat) (path : Name) :
    Looks sb (namexFrom wantParent followLast hops ip path) (ip ::ₘ held) (walkPost held) := by
  induction hops generalizing ip path with
  | zero =>
    refine looks_namexWalk _ _ _ ?_ _ _ _
    rintro go ⟨⟩
  | succ hops ih =>
    refine looks_namexWalk _ _ _ ?_ _ _ _
    rintro go ⟨⟩ ip' path'
    exact ih ip' path'

theorem looks_namex (start : Nat) (path : Name) (wantParent followLast : Bool) :
    Looks sb (namex start path wantParent followLast) (start ::ₘ held) (walkPost held) := by
  unfold namex
  refine .ite ?_ (looks_namexFrom _ _ _ _ _)
  refine (looks_iget _).bind fun _ => ?_
  refine (looks_namexFrom _ _ _ _ _).bind fun r => ?_
  cases r with
  | none => exact (looks_iput _).bind fun _ => .ret rfl
  | some x => exact (looks_iput_under _ _).bind fun _ => .ret rfl

theorem looks_startDir (p : Nat) : Looks sb (startDir p) held fun c => c ::ₘ held := by
  intro m
  refine ⟨Or.inr trivial, fun r m' _ => ?_⟩
  cases r with
  | none => exact ((looks_iget _).bind fun _ => .ret rfl) m'
  | some c => exact ⟨rfl, rfl⟩

theorem looks_resolvePath (p : Nat) (path : Name) : Looks sb (resolvePath p path) held
      fun r => r.elim held (· ::ₘ held) := by
  refine (looks_startDir _).bind fun start => ?_
  refine (looks_namex _ _ _ _).bind fun r => ?_
  cases r with
  | none | some x => exact .ret rfl

theorem looks_nameiparentViaCwd (p : Nat) (path : Name) : Looks sb (nameiparentViaCwd p path) held
      fun r => r.elim held fun x => x.1 ::ₘ held := by
  refine (looks_startDir _).bind fun start => ?_
  refine (looks_namex _ _ _ _).bind fun r => ?_
  match r with
  | none => exact .ret rfl
  | some (ip, none) => exact looks_giveUp ip rfl
  | some (ip, some name) => exact .ret rfl

theorem looks_createExisting (dir existing : Nat) (typ : UInt16) :
    Looks sb (createExisting dir existing typ) (existing ::ₘ held)
      fun r => r.elim held (· ::ₘ held) := by
  have hRefuse : Looks sb (do
        call (.iput existing)
        iunlock dir
        pure none)
      (existing ::ₘ held)
      fun r => r.elim held (· ::ₘ held) := by
    refine (looks_iput _).bind fun _ => ?_
    exact (looks_iunlock _).bind fun _ => .ret rfl
  unfold createExisting
  refine .ite hRefuse ?_
  refine (looks_ilock _).bind fun _ => ?_
  refine (looks_getState _).bind fun s => ?_
  refine (looks_iunlock _).bind fun _ => ?_
  refine .ite ?_ hRefuse
  exact (looks_iunlock _).bind fun _ => .ret rfl

-- Creating

/-
  How an attempt to create ends: nothing was created and only
  references changed, or the result is the created inode.
-/
def CreatePost (held : Multiset Nat) (r : Option Nat) (v : LookView) : Prop :=
  (v.fresh = none ∧ v.held = r.elim held (· ::ₘ held)) ∨
    ∃ i, v.fresh = some i ∧ (r = none ∨ r = some i)

variable {m : Fs}

/- After the creation only the returned value matters. -/
theorem wp_fresh {α : Type} {p : FsProg α} {P : α → Prop} {Q : α → LookView → Prop} {v : LookView}
    {i : Nat} (hRet : p.Returns P) (hFresh : v.fresh = some i)
    (hPost : ∀ a v', P a → v'.fresh = some i → Q a v') : (lookRules sb).wp p Q v := by
  induction p generalizing v with
  | ret a => exact hPost a v hRet hFresh
  | op c k ih =>
    refine ⟨Or.inl (by simp [hFresh]), fun b m' _ => ?_⟩
    refine ih b (hRet b) ?_
    simp [hFresh, Cmd.freshAfter]

theorem Looks.createPost {p : FsProg (Option Nat)} {held' : Multiset Nat} (hLooks : Looks sb p held'
      fun r => r.elim held (· ::ₘ held)) : (lookRules sb).wp p (CreatePost held) ⟨m, held', none⟩ :=
  wp_mono (fun _ _ hPost => Or.inl hPost.symm) (hLooks m)

theorem wp_look_iallocFrom (typ mode : UInt16) (n inum : Nat) :
    (lookRules sb).wp (iallocFrom typ mode n inum) (fun r v =>
        (r = none ∧ v.held = held ∧ v.fresh = none) ∨ ∃ i, r = some i ∧ v.fresh = some i)
      ⟨m, held, none⟩ := by
  induction n generalizing m inum with
  | zero => exact Or.inl ⟨rfl, rfl, rfl⟩
  | succ n ih =>
    refine ⟨Or.inr trivial, fun now m₁ hExec => ?_⟩
    refine ⟨Or.inr trivial, fun claimed m₂ hExec => ?_⟩
    cases claimed with
    | true =>
      refine ⟨Or.inl rfl, fun _ m₃ _ => ?_⟩
      exact Or.inr ⟨inum, rfl, rfl⟩
    | false => exact ih (inum + 1)

theorem wp_createNew (dir : Nat) (name : Name) (typ major minor mode uid gid : UInt16) :
    (lookRules sb).wp (createNew sb dir name typ major minor mode uid gid)
      (CreatePost held) ⟨m, held, none⟩ := by
  refine wp_bind_of (wp_look_iallocFrom _ _ _ _) ?_
  rintro r ⟨m', held', fresh'⟩ (⟨rfl, hHeld, hNone⟩ | hSome)
  · cases hHeld
    cases hNone
    refine Looks.createPost ?_
    exact (looks_iunlock dir).bind fun _ => .ret rfl
  · rcases hSome with ⟨child, rfl, hFresh⟩
    refine wp_fresh (P := fun r => r = none ∨ r = some child) ?_ hFresh fun a v' hRet hNew =>
        Or.inr ⟨child, hNew, hRet⟩
    have hThen : ∀ {α : Type} (p : FsProg α) (f : α → FsProg (Option Nat)), (∀ a, (f a).Returns
          fun r => r = none ∨ r = some child) → (p >>= f).Returns
            fun r => r = none ∨ r = some child := fun p f hRest =>
        (Prog.returns_true p).bind fun a _ => hRest a
    refine hThen _ _ fun _ => hThen _ _ fun _ =>
      hThen _ _ fun _ => hThen _ _ fun _ => ?_
    have hFail : ∀ p : FsProg Unit, (do
        p
        iunlock dir
        pure none : FsProg (Option Nat)).Returns fun r => r = none ∨ r = some child :=
      fun p => hThen _ _ fun _ => hThen _ _ fun _ =>
        Or.inl rfl
    dsimp only
    refine .ite (hThen _ _ fun dots => ?_) (hThen _ _ fun dots => ?_)
    all_goals
      refine hThen _ _ fun _ => .ite (hFail _) ?_
      refine hThen _ _ fun linked => .ite (hFail _) ?_
      refine .ite (hThen _ _ fun _ => ?_) ?_
      · exact hThen _ _ fun _ => Or.inr rfl
      · exact hThen _ _ fun _ => Or.inr rfl

theorem wp_createInsideOp (dir : Nat) (name : Name) (typ major minor mode uid gid : UInt16) :
    (lookRules sb).wp (createInsideOp sb dir name typ major minor mode uid gid)
      (CreatePost held) ⟨m, held, none⟩ := by
  refine wp_bind_of (looks_ilock dir m) ?_
  rintro _ ⟨m₁, held₁, fresh₁⟩ ⟨rfl, rfl⟩
  refine wp_bind_of (looks_dirlookupFull dir name m₁) ?_
  rintro r ⟨m₂, held₂, fresh₂⟩ ⟨rfl, rfl⟩
  match r with
  | none => exact wp_createNew dir name _ _ _ _ _ _
  | some (existing, off) => exact (looks_createExisting dir existing typ).createPost

theorem wp_createAtPath (p : Nat) (cred : Cred) (path : Name) (typ major minor : UInt16) :
    (lookRules sb).wp (createAtPath sb p cred path typ major minor)
      (CreatePost held) ⟨m, held, none⟩ := by
  refine wp_bind_of (looks_nameiparentViaCwd p path m) ?_
  rintro r ⟨m₁, held₁, fresh₁⟩ ⟨rfl, rfl⟩
  match r with
  | none =>
    refine Looks.createPost ?_
    exact .ret rfl
  | some (dir, name) =>
    dsimp only
    split
    · exact (looks_giveUp dir rfl).createPost
    · refine wp_bind_of (looks_call (c := .beginOp) trivial m₁) ?_
      rintro _ ⟨m₂, held₂, fresh₂⟩ ⟨rfl, rfl⟩
      refine wp_bind_of (wp_createInsideOp dir name _ _ _ _ _ _) ?_
      rintro r ⟨m₃, held₃, fresh₃⟩ (⟨rfl, rfl⟩ | ⟨i, hFresh, hRet⟩)
      · refine Looks.createPost ?_
        refine looks_endOp.bind fun _ => ?_
        cases r with
        | none => exact looks_giveUp dir rfl
        | some ip =>
          exact (looks_iput_under dir ip).bind fun _ => .ret rfl
      · refine wp_fresh (P := fun a => a = r) ?_ hFresh ?_
        · exact (Prog.returns_true endOp).bind fun _ _ => (Prog.returns_true _).bind fun _ _ => rfl
        · rintro a v' rfl hNew
          exact Or.inr ⟨i, hNew, hRet⟩

theorem createExisting_plain (dir existing : Nat) (typ : UInt16) :
    (createExisting dir existing typ).All Cmd.Plain := by
  have hRefuse : (do
      call (.iput existing)
      iunlock dir
      pure none : FsProg (Option Nat)).All Cmd.Plain :=
    .lift_bind trivial fun _ =>
      (iunlock_plain _).bind fun _ => trivial
  unfold createExisting
  refine .ite hRefuse ?_
  refine (ilock_plain _).bind fun _ => ?_
  refine .lift_bind trivial fun s => ?_
  refine (iunlock_plain _).bind fun _ => ?_
  refine .ite ?_ hRefuse
  exact (iunlock_plain _).bind fun _ => trivial

theorem linkDots_plain (sb : Superblock) (child dir : Nat) :
    (linkDots sb child dir).All Cmd.Plain := (dirlink_plain _ _ _ _).bind fun _ =>
    .ite (dirlink_plain _ _ _ _) trivial

theorem initChild_plain (child : Nat) (major minor uid gid : UInt16) :
    (initChild child major minor uid gid).All Cmd.Plain :=
  .lift_bind trivial fun _ =>
    .lift_bind trivial fun _ => iupdate_plain _

theorem addLink_plain (i : Nat) : (addLink i).All Cmd.Plain :=
  .lift_bind trivial fun _ =>
    .lift_bind trivial fun _ =>
      .lift_bind trivial fun _ => iupdate_plain _

theorem createNew_plain (sb : Superblock) (dir : Nat) (name : Name)
    (typ major minor mode uid gid : UInt16) :
    (createNew sb dir name typ major minor mode uid gid).All
      Cmd.Plain := by
  refine (ialloc_plain _ _ _).bind fun r => ?_
  cases r with
  | none => exact (iunlock_plain _).bind fun _ => trivial
  | some child =>
    refine .lift_bind trivial fun _ => ?_
    refine (ilock_plain _).bind fun _ => ?_
    refine .lift_bind trivial fun _ => ?_
    refine (initChild_plain _ _ _ _ _).bind fun _ => ?_
    have hFail : (do
        call (.iput child)
        iunlock dir
        pure none : FsProg (Option Nat)).All Cmd.Plain :=
      .lift_bind trivial fun _ =>
        (iunlock_plain _).bind fun _ => trivial
    dsimp only
    refine .ite ((linkDots_plain _ _ _).bind fun dots => ?_) (Prog.All.bind trivial fun dots => ?_)
    all_goals
      refine (iunlock_plain _).bind fun _ => ?_
      refine .ite hFail ?_
      refine (dirlink_plain _ _ _ _).bind fun linked => ?_
      refine .ite hFail (.ite ?_ ?_)
      · exact (addLink_plain _).bind fun _ =>
          (iunlock_plain _).bind fun _ => trivial
      · exact (iunlock_plain _).bind fun _ => trivial

theorem createAtPath_plain (sb : Superblock) (p : Nat) (cred : Cred) (path : Name)
    (typ major minor : UInt16) : (createAtPath sb p cred path typ major minor).All
      Cmd.Plain := by
  refine (nameiparentViaCwd_plain _ _).bind fun r => ?_
  match r with
  | none => trivial
  | some (dir, name) =>
    refine .ite ?_ ?_
    · exact .lift_bind trivial fun _ => trivial
    · refine .lift_bind trivial fun _ => ?_
      refine .bind ?_ fun r => ?_
      · refine (ilock_plain _).bind fun _ => ?_
        refine (dirlookupFull_plain _ _).bind fun r => ?_
        match r with
        | none => exact createNew_plain _ _ _ _ _ _ _ _ _
        | some (existing, off) => exact createExisting_plain _ _ _
      · refine endOp_plain.bind fun _ => ?_
        exact .lift_bind trivial fun _ => trivial

-- What `open` Guards

/- The part of `open` that finds or creates the inode. -/
def openLookup (sb : Superblock) (p : Nat) (cred : Cred) (path : Name)
    (flags : UInt32) : FsProg (Option Nat) :=
  if flags &&& O_CREATE ≠ 0 then
    createAtPath sb p cred path T_FILE 0 0
  else
    resolvePath p path

/- The part of `open` after the inode has been locked. -/
def openLocked (sb : Superblock) (cred : Cred) (ip : Nat) (flags : UInt32) (present : UInt16 → Bool)
    (slot : Option Nat) (s : InodeState) : FsProg Int := do
  if !openAllowed cred flags s then
    iunlock ip
    call (.iput ip)
    pure (-1)
  else if flags &&& O_TRUNC ≠ 0 ∧ s.typ = T_FILE then
    call (.mark (.truncOpen ip))
    call .beginOp
    itrunc sb ip
    iunlock ip
    endOp
    openFile ip flags s.typ s.major present slot
  else
    iunlock ip
    openFile ip flags s.typ s.major present slot

/- The rights that the flags ask for. -/
def wantsRead (flags : UInt32) : Bool := flags &&& O_WRONLY = 0

def wantsWrite (flags : UInt32) : Bool := flags &&& (O_WRONLY ||| O_RDWR) ≠ 0

/- The owner and mode of an inode allow the access. -/
def Allows (cred : Cred) (st : InodeState) (wantRead wantWrite : Bool) : Prop :=
  checkAccess cred st.uid st.gid st.mode wantRead wantWrite = true

/- A device that `open` answers with its own object. -/
def IsDevice (st : InodeState) : Prop :=
  st.typ = T_DEVICE ∧
    (st.major = FB_MAJOR ∨ st.major = INPUT_MAJOR)

def Existed (sb : Superblock) (s : Fs) (i : Nat) : Prop := (s.dinode sb i).typ ≠ 0

/- Every truncation that `open` starts satisfies `T`. -/
def Truncs (T : Nat → Prop) {β : Type} : Fs → Cmd β → Prop
  | _, .mark (.truncOpen i) => T i
  | _, _ => True

/- The path and the flags lead `open` to the inode. -/
def OpenNames (sb : Superblock) (p : Nat) (cred : Cred) (path : Name) (flags : UInt32) (s : Fs)
    (ip : Nat) : Prop := ∃ m, (openLookup sb p cred path flags).run (exec sb) s = .ok (some ip) m

/-
  A call of `open` that ended with `r` in `s'` has respected
  the permissions of the inodes as they were in `s`.
-/
structure Guarded (sb : Superblock) (p : Nat) (cred : Cred) (path : Name) (flags : UInt32)
    (present : UInt16 → Bool) (slot : Option Nat) (s s' : Fs) (r : Int) : Prop where
  grant : ∀ ip, OpenNames sb p cred path flags s ip → Existed sb s ip → 0 ≤ r →
      Allows cred (currSt sb s ip) (wantsRead flags) (wantsWrite flags)
  file : ∀ (d f : Nat) (o : OpenFile), r = d → s'.fds d = some f → s'.files f = some o →
      Existed sb s o.ip → Allows cred (currSt sb s o.ip) o.readable o.writable
  trunc : (sysOpen sb p cred path flags present slot).Along (exec sb)
    (Truncs fun i => Existed sb s i → Allows cred (currSt sb s i) false true) s

/-
  What an inode that `open` gets as far as opening must
  satisfy: `O_CREATE` skips the check of the rights that are
  handed out, and `O_TRUNC` does not ask for write access.
-/
def OpenGuard (cred : Cred) (flags : UInt32) (present : UInt16 → Bool) (slot : Option Nat)
    (st : InodeState) : Prop :=
  st.typ ≠ 0 → ¬ (st.typ = T_DIR ∧ wantsWrite flags = true) →
      (flags &&& O_CREATE ≠ 0 → slot.isSome = true → (IsDevice st → present st.major = true) →
          Allows cred st (wantsRead flags) (wantsWrite flags)) ∧
      (flags &&& O_TRUNC ≠ 0 → st.typ = T_FILE → (flags &&& O_CREATE = 0 →
          Allows cred st (wantsRead flags) (wantsWrite flags)) → Allows cred st false true)

variable {p ip : Nat} {cred : Cred} {path : Name} {flags : UInt32}
variable {present : UInt16 → Bool} {slot : Option Nat} {s s' : Fs} {r : Int}

theorem sysOpen_eq (hFlags : flags &&& ~~~O_ALLOWED = 0) :
    sysOpen sb p cred path flags present slot = (openLookup sb p cred path flags).bind fun found =>
        match found with
        | none => .ret (-1)
        | some ip =>
          openInode sb cred ip flags present slot := by
  unfold sysOpen openLookup
  rw [if_neg (not_not.mpr hFlags)]
  dsimp only
  split <;> rfl

theorem openInode_eq : openInode sb cred ip flags present slot =
      (ilock ip).bind fun _ => .op (.getState ip) (openLocked sb cred ip flags present slot) := rfl

theorem openLookup_plain : (openLookup sb p cred path flags).All Cmd.Plain :=
  .ite (createAtPath_plain _ _ _ _ _ _ _) (resolvePath_plain _ _)

/- The inode found is held, or it did not exist before. -/
theorem openLookup_post (hCwd : ∀ p i, s.cwd p = some i → 0 < s.refs i)
    (hRun : (openLookup sb p cred path flags).run (exec sb) s = .ok (some ip) m) :
    (∃ held, Unchanged sb s m held ∧ ip ∈ held) ∨ ¬ Existed sb s ip := by
  have hWp : (lookRules sb).wp (openLookup sb p cred path flags) (CreatePost 0) ⟨s, 0, none⟩ := by
    unfold openLookup
    split
    · exact wp_createAtPath p cred path _ _ _
    · exact (looks_resolvePath p path).createPost
  rcases lookRules_post (Unchanged.refl hCwd) hWp hRun with
    ⟨v, rfl, hLooked, ⟨hNone, hHeld⟩ | ⟨i, hFresh, hRet⟩⟩
  · left
    refine ⟨v.held, hLooked.known hNone, ?_⟩
    rw [hHeld]
    exact Multiset.mem_cons_self ip 0
  · right
    have hSame : ip = i := by simpa using hRet
    subst i
    exact not_not.mpr (hLooked.fresh ip hFresh)

/- The inode that has been locked is judged as it was. -/
theorem attrs_of_ilock {m' : Fs} {held : Multiset Nat} (hOld : Unchanged sb s m held)
    (hMem : ip ∈ held) (hRun : (ilock ip).run (exec sb) m = .ok () m') :
    (m'.state ip).attrs = (currSt sb s ip).attrs := by
  rcases lookRules_post hOld wp_look_ilock hRun with ⟨v, rfl, hLooked, hHeld, hNone, hValid⟩
  have hNew := hLooked.known hNone
  have hRefs := hNew.refs ip
  have hPos : 0 < v.held.count ip := Multiset.count_pos.mpr (hHeld ▸ hMem)
  exact hNew.attrs ip (by omega) hValid

-- Opening the Inode

/- The checks on the locked inode in one statement. -/
theorem openAllowed_iff : openAllowed cred flags st = true ↔ st.typ ≠ 0 ∧
        ¬ (st.typ = T_DIR ∧ wantsWrite flags = true) ∧ (flags &&& O_CREATE = 0 →
          Allows cred st (wantsRead flags) (wantsWrite flags)) := by
  unfold openAllowed Allows wantsRead wantsWrite
  grind

/- A device leaves the descriptors to its own object. -/
theorem openFile_device (hDev : IsDevice st)
    (hRun : (openFile ip flags st.typ st.major present slot).run (exec sb) m = .ok r s') :
    s'.fds = m.fds ∧ r = if present st.major = true then
        slot.elim (-1) Int.ofNat else -1 := by
  have hCond : st.typ = T_DEVICE ∧ (st.major = FB_MAJOR ∨ st.major = INPUT_MAJOR) := hDev
  unfold openFile at hRun
  rw [if_pos hCond] at hRun
  cases hRun
  exact ⟨rfl, rfl⟩

/-
  Any other inode gets a description with the rights that the
  flags ask for, or no descriptor is left.
-/
theorem openFile_inode (hInode : ¬ IsDevice st)
    (hSlot : ∀ d, slot = some d → m.fds d = none) (hRun : (openFile ip flags st.typ st.major present
      slot).run (exec sb) m = .ok r s') :
    match slot with
    | none => r = -1
    | some d =>
      r = d ∧ ∃ f o, s'.fds d = some f ∧ s'.files f = some o ∧ o.ip = ip ∧
        o.readable = wantsRead flags ∧ o.writable = wantsWrite flags := by
  have hCond : ¬ (st.typ = T_DEVICE ∧ (st.major = FB_MAJOR ∨ st.major = INPUT_MAJOR)) := hInode
  unfold openFile at hRun
  rw [if_neg hCond] at hRun
  cases slot with
  | none =>
    rcases Prog.run_bind_ok hRun with ⟨f₀, m₁, _, hRun⟩
    rcases Prog.run_bind_ok hRun with ⟨_, m₂, _, hRun⟩
    cases hRun
    rfl
  | some d =>
    have hFree := hSlot d rfl
    rcases Prog.run_bind_ok hRun with ⟨f, m₁, hNew, hRun⟩
    cases hNew
    rcases Prog.run_bind_ok hRun with ⟨b, m₂, hFill, hRun⟩
    simp only [call, Prog.lift, Prog.run_op, exec, hFree, Outcome.andThen_ok, Prog.run_ret] at hFill
    cases hFill
    cases hRun
    refine ⟨rfl, _, _, update_self _ _ _, update_self _ _ _, rfl, rfl, rfl⟩

/-
  When `open` returns a descriptor for an inode that has
  passed the checks, and what the descriptor allows.
-/
theorem openFile_run (hSlot : ∀ d, slot = some d → m.fds d = none)
    (hRun : (openFile ip flags st.typ st.major present slot).run (exec sb) m = .ok r s') :
    (0 ≤ r ↔ slot.isSome = true ∧ (IsDevice st → present st.major = true)) ∧
    ∀ (d f : Nat) (o : OpenFile), r = d → s'.fds d = some f → s'.files f = some o →
        o.ip = ip ∧ o.readable = wantsRead flags ∧ o.writable = wantsWrite flags := by
  by_cases hDev : IsDevice st
  · rcases openFile_device hDev hRun with ⟨hFds, rfl⟩
    rw [hFds]
    cases slot with
    | none => simp
    | some e =>
      have hFree := hSlot e rfl
      simp only [Option.elim_some, Int.ofNat_eq_natCast]
      constructor <;> grind
  · have hOpened := openFile_inode hDev hSlot hRun
    cases slot with
    | none =>
      have hRes : r = -1 := hOpened
      exact ⟨by simp [hRes], by omega⟩
    | some e =>
      rcases hOpened with ⟨rfl, f₀, o₀, hFd₀, hFile₀, hRights⟩
      refine ⟨by simp [hDev], ?_⟩
      intro d f o hRes hFd hFile
      obtain rfl : e = d := Int.ofNat.inj hRes
      grind

/- A finished `open` of an inode, step by step. -/
theorem openInode_run (hRun : (openInode sb cred ip flags present slot).run
      (exec sb) m = .ok r s') : ∃ m₁, (ilock ip).run (exec sb) m = .ok () m₁ ∧
      ((openAllowed cred flags (m₁.state ip) = false ∧ r = -1) ∨
        (openAllowed cred flags (m₁.state ip) = true ∧ ∃ m₂, m.SameFiles m₂ ∧
            (openFile ip flags (m₁.state ip).typ (m₁.state ip).major present slot).run
              (exec sb) m₂ = .ok r s')) := by
  rcases Prog.run_bind_ok hRun with ⟨_, m₁, hLock, hRun⟩
  have hSame₁ := sameFiles_of_plain (ilock_plain ip) hLock
  refine ⟨m₁, hLock, ?_⟩
  rcases Prog.run_bind_ok hRun with ⟨st, m₂, hGet, hRun⟩
  cases hGet
  cases hAllowed : openAllowed cred flags (m₁.state ip) with
  | false =>
    left
    rw [hAllowed] at hRun
    cases hRun
    exact ⟨rfl, rfl⟩
  | true =>
    right
    refine ⟨rfl, ?_⟩
    rw [hAllowed] at hRun
    simp only [Bool.not_true, Bool.false_eq_true, if_false] at hRun
    split at hRun
    · rcases Prog.run_bind_ok hRun with ⟨_, m₃, hMark, hRun⟩
      cases hMark
      rcases Prog.run_bind_ok hRun with ⟨_, m₄, hB, hRun⟩
      rcases Prog.run_bind_ok hRun with ⟨_, m₅, hT, hRun⟩
      rcases Prog.run_bind_ok hRun with ⟨_, m₆, hU, hRun⟩
      rcases Prog.run_bind_ok hRun with ⟨_, m₇, hE, hRun⟩
      refine ⟨m₇, ?_, hRun⟩
      refine hSame₁.trans ?_
      refine (sameFiles_of_plain (call_plain (c := .beginOp) trivial) hB).trans ?_
      refine (sameFiles_of_plain (itrunc_plain sb ip) hT).trans ?_
      exact (sameFiles_of_plain (iunlock_plain ip) hU).trans (sameFiles_of_plain endOp_plain hE)
    · rcases Prog.run_bind_ok hRun with ⟨_, m₃, hU, hRun⟩
      exact ⟨m₃, hSame₁.trans (sameFiles_of_plain (iunlock_plain ip) hU), hRun⟩

/- The command is not the announcement of a truncation. -/
def Cmd.Silent {β : Type} : Cmd β → Prop
  | .mark (.truncOpen _) => False
  | _ => True

theorem Cmd.Silent.truncs {T : Nat → Prop} {β : Type} (m : Fs) (c : Cmd β) (hSilent : c.Silent) :
    Truncs T m c := by
  cases c
  case mark k => cases k <;> trivial
  all_goals trivial

theorem Cmd.Plain.silent {β : Type} (c : Cmd β) (hPlain : c.Plain) :
    c.Silent := by
  cases c
  case mark k => cases k <;> trivial
  all_goals trivial

theorem closeFile_silent (f : Nat) : (closeFile f).All Cmd.Silent := by
  refine .lift_bind trivial fun r => ?_
  cases r with
  | none => trivial
  | some ip =>
    refine .lift_bind trivial fun _ => ?_
    exact .lift_bind trivial fun _ => ⟨trivial, fun _ => trivial⟩

theorem openFile_silent (typ major : UInt16) : (openFile ip flags typ major present slot).All
      Cmd.Silent := by
  unfold openFile
  refine .ite ?_ ?_
  · exact .lift_bind trivial fun _ => trivial
  · refine .lift_bind trivial fun f => ?_
    cases slot with
    | none => exact (closeFile_silent f).bind fun _ => trivial
    | some d =>
      refine .lift_bind trivial fun b => ?_
      exact .ite trivial ((closeFile_silent f).bind fun _ => trivial)

/- `open` truncates only the inode it has checked. -/
theorem openInode_along {T : Nat → Prop} : (openInode sb cred ip flags present slot).Along (exec sb)
      (Truncs T) m ↔ ∀ m₁, (ilock ip).run (exec sb) m = .ok () m₁ →
      openAllowed cred flags (m₁.state ip) = true → flags &&& O_TRUNC ≠ 0 →
          (m₁.state ip).typ = T_FILE → T ip := by
  have hSilent : ∀ {α : Type} {q : FsProg α} (fs : Fs), q.All Cmd.Silent →
        q.Along (exec sb) (Truncs T) fs := fun fs hAll => hAll.along Cmd.Silent.truncs fs
  rw [openInode_eq, Prog.along_bind]
  constructor
  · rintro ⟨_, hRest⟩ m₁ hLock hAllowed hTrunc hTyp
    have hLocked := (hRest () m₁ hLock).2 _ _ rfl
    unfold openLocked at hLocked
    rw [hAllowed, if_neg (by simp), if_pos ⟨hTrunc, hTyp⟩] at hLocked
    exact hLocked.1
  · intro hCheck
    refine ⟨hSilent m ((ilock_plain ip).mono Cmd.Plain.silent), ?_⟩
    intro _ m₁ hLock
    refine ⟨trivial, ?_⟩
    intro st m₂ hGet
    cases hGet
    unfold openLocked
    cases hAllowed : openAllowed cred flags (m₁.state ip) with
    | false =>
      refine hSilent _ ?_
      exact .lift_bind trivial fun _ =>
        .lift_bind trivial fun _ => trivial
    | true =>
      rw [if_neg (by simp)]
      by_cases hTrunc : flags &&& O_TRUNC ≠ 0 ∧ (m₁.state ip).typ = T_FILE
      · rw [if_pos hTrunc]
        refine ⟨hCheck m₁ hLock hAllowed hTrunc.1 hTrunc.2, fun _ m₃ _ => hSilent m₃ ?_⟩
        refine .lift_bind trivial fun _ => ?_
        refine ((itrunc_plain sb ip).mono Cmd.Plain.silent).bind fun _ => ?_
        refine .lift_bind trivial fun _ => ?_
        exact (endOp_plain.mono Cmd.Plain.silent).bind fun _ => openFile_silent _ _
      · rw [if_neg hTrunc]
        refine hSilent _ ?_
        exact .lift_bind trivial fun _ => openFile_silent _ _

theorem sysOpen_along {T : Nat → Prop} (hFlags : flags &&& ~~~O_ALLOWED = 0) :
    (sysOpen sb p cred path flags present slot).Along (exec sb) (Truncs T) s ↔
    ∀ ip m, (openLookup sb p cred path flags).run (exec sb) s = .ok (some ip) m →
        (openInode sb cred ip flags present slot).Along (exec sb) (Truncs T) m := by
  rw [sysOpen_eq hFlags, Prog.along_bind]
  have hFirst : (openLookup sb p cred path flags).Along (exec sb) (Truncs T) s :=
    (openLookup_plain.mono Cmd.Plain.silent).along Cmd.Silent.truncs s
  constructor
  · intro hAlong ip m hRun
    exact hAlong.2 (some ip) m hRun
  · intro hRest
    refine ⟨hFirst, ?_⟩
    intro found m hRun
    cases found with
    | none => trivial
    | some ip => exact hRest ip m hRun

/- The checks read nothing but the attributes. -/
theorem openAllowed_congr {st' : InodeState} (hAttrs : st.attrs = st'.attrs) :
    openAllowed cred flags st = openAllowed cred flags st' := by
  simp only [DInode.attrs, Prod.mk.injEq] at hAttrs
  rcases hAttrs with ⟨hTyp, _, hUid, hGid, hMode⟩
  unfold openAllowed
  rw [hTyp, hUid, hGid, hMode]

theorem isDevice_congr {st' : InodeState} (hAttrs : st.attrs = st'.attrs) :
    (IsDevice st → present st.major = true) ↔ (IsDevice st' → present st'.major = true) := by
  simp only [DInode.attrs, Prod.mk.injEq] at hAttrs
  unfold IsDevice
  rw [hAttrs.1, hAttrs.2.1]

/- When a call that was led to `ip` hands out a descriptor. -/
theorem openInode_granted (hSlot : ∀ d, slot = some d → m.fds d = none) {m₁ : Fs}
    (hLock : (ilock ip).run (exec sb) m = .ok () m₁)
    (hAttrs : (m₁.state ip).attrs = st.attrs) (hRun : (openInode sb cred ip flags present slot).run
      (exec sb) m = .ok r s') : 0 ≤ r ↔ openAllowed cred flags st = true ∧ slot.isSome = true ∧
      (IsDevice st → present st.major = true) := by
  rcases openInode_run hRun with ⟨m₁', hLock', hEnd⟩
  have hSame : m₁' = m₁ := by
    rw [hLock] at hLock'
    cases hLock'
    rfl
  subst m₁'
  rw [← openAllowed_congr hAttrs, ← isDevice_congr hAttrs]
  rcases hEnd with ⟨hRefused, rfl⟩ | ⟨hAllowed, hOpened⟩
  · rw [hRefused]
    simp
  · rcases hOpened with ⟨m₂, hFiles, hOpened⟩
    rw [← hFiles.fds] at hSlot
    rw [(openFile_run hSlot hOpened).1, hAllowed]
    simp

/- The description that such a call leaves behind. -/
theorem openInode_file (hSlot : ∀ d, slot = some d → m.fds d = none)
    (hRun : (openInode sb cred ip flags present slot).run (exec sb) m = .ok r s') {d f : Nat}
    {o : OpenFile} (hRes : r = d) (hFd : s'.fds d = some f) (hFile : s'.files f = some o) :
    o.ip = ip ∧ o.readable = wantsRead flags ∧ o.writable = wantsWrite flags := by
  rcases openInode_run hRun with ⟨m₁, _, hEnd⟩
  rcases hEnd with ⟨_, hFail⟩ | ⟨_, m₂, hFiles, hOpened⟩
  · omega
  · rw [← hFiles.fds] at hSlot
    exact (openFile_run hSlot hOpened).2 d f o hRes hFd hFile

/-
  `open` respects the permissions of the inode it is led to
  exactly if that inode passes the guard.
-/
theorem sysOpen_guarded_iff (sb : Superblock) (p : Nat) (cred : Cred) (path : Name) (flags : UInt32)
    (present : UInt16 → Bool) (slot : Option Nat) (s s' : Fs) (r : Int)
    (hFlags : flags &&& ~~~O_ALLOWED = 0) (hCwd : ∀ p i, s.cwd p = some i → 0 < s.refs i)
    (hSlot : ∀ d, slot = some d → s.fds d = none)
    (hRun : (sysOpen sb p cred path flags present slot).run (exec sb) s = .ok r s') :
    Guarded sb p cred path flags present slot s s' r ↔ ∀ ip, OpenNames sb p cred path flags s ip →
        Existed sb s ip → OpenGuard cred flags present slot (currSt sb s ip) := by
  have hOpen := hRun
  rw [sysOpen_eq hFlags] at hOpen
  rcases Prog.run_bind_ok hOpen with ⟨found, m, hLookup, hOpen⟩
  have hNames : ∀ ip, OpenNames sb p cred path flags s ip ↔ found = some ip := by
    intro ip
    unfold OpenNames
    rw [hLookup]
    simp
  have hSame := sameFiles_of_plain openLookup_plain hLookup
  cases found with
  | none =>
    cases hOpen
    constructor
    · intro _ ip hName
      exact nomatch (hNames ip).mp hName
    · intro _
      refine ⟨?_, ?_, (sysOpen_along hFlags).mpr ?_⟩
      · intro ip hName
        exact nomatch (hNames ip).mp hName
      · intro d f o hRes
        omega
      · intro ip m' hFound
        exact nomatch (hNames ip).mp ⟨m', hFound⟩
  | some ip =>
    have hSlotM : ∀ d, slot = some d → m.fds d = none := by
      rw [hSame.fds]
      exact hSlot
    rcases openInode_run hOpen with ⟨m₁, hLock, _⟩
    have hAttrs : Existed sb s ip → (m₁.state ip).attrs = (currSt sb s ip).attrs := by
      intro hExisted
      rcases openLookup_post hCwd hLookup with ⟨held, hOld, hMem⟩ | hNew
      · exact attrs_of_ilock hOld hMem hLock
      · exact absurd hExisted hNew
    have hGranted := fun hExisted => openInode_granted hSlotM hLock (hAttrs hExisted) hOpen
    constructor
    · intro hGuarded ip' hName hExisted hTyp hDir
      have hSome := (hNames ip').mp hName
      cases hSome
      constructor
      · intro hCreate hSlotSome hPresent
        refine hGuarded.grant ip hName hExisted ?_
        refine (hGranted hExisted).mpr ⟨?_, hSlotSome, hPresent⟩
        exact openAllowed_iff.mpr ⟨hTyp, hDir, fun hNot => absurd hNot hCreate⟩
      · intro hTrunc hFileTyp hAccess
        have hChecked := openInode_along.mp ((sysOpen_along hFlags).mp hGuarded.trunc ip m hLookup)
        refine hChecked m₁ hLock ?_ hTrunc ?_ hExisted
        · rw [openAllowed_congr (hAttrs hExisted)]
          exact openAllowed_iff.mpr ⟨hTyp, hDir, hAccess⟩
        · exact (congrArg Prod.fst (hAttrs hExisted)).trans hFileTyp
    · intro hGuard
      have hName := (hNames ip).mpr rfl
      have hGrant : Existed sb s ip → 0 ≤ r → Allows cred (currSt sb s ip)
            (wantsRead flags) (wantsWrite flags) := by
        intro hExisted hPos
        rcases (hGranted hExisted).mp hPos with ⟨hAllowed, hSlotSome, hPresent⟩
        rcases openAllowed_iff.mp hAllowed with ⟨hTyp, hDir, hAccess⟩
        by_cases hCreate : flags &&& O_CREATE = 0
        · exact hAccess hCreate
        · exact (hGuard ip hName hExisted hTyp hDir).1 hCreate hSlotSome hPresent
      refine ⟨?_, ?_, (sysOpen_along hFlags).mpr ?_⟩
      · intro ip' hName'
        cases (hNames ip').mp hName'
        exact hGrant
      · intro d f o hRes hFd hFile hExisted
        rcases openInode_file hSlotM hOpen hRes hFd hFile with ⟨rfl, hRead, hWrite⟩
        rw [hRead, hWrite]
        exact hGrant hExisted (by omega)
      · intro ip' m' hFound
        rw [hLookup] at hFound
        cases hFound
        refine openInode_along.mpr ?_
        intro m₁' hLock' hAllowed hTrunc hTyp hExisted
        rw [hLock] at hLock'
        cases hLock'
        have hAttr := hAttrs hExisted
        rw [openAllowed_congr hAttr] at hAllowed
        rcases openAllowed_iff.mp hAllowed with ⟨hUsed, hDir, hAccess⟩
        exact (hGuard ip hName hExisted hUsed hDir).2 hTrunc
          ((congrArg Prod.fst hAttr).symm.trans hTyp) hAccess

-- A File That Others May Only Read

/- A directory with one entry `f`, whose inode is 2. -/
def oneEntryDir : InodeState :=
  { DInode.default with
    typ := T_DIR
    nlink := 1
    size := 16
    addrs := Addrs.zero.set 0 50 }

/- A file that only user 7 may write. -/
def ownedInode : InodeState :=
  { DInode.default with
    typ := T_FILE
    nlink := 1
    mode := 0o644
    uid := 7 }

/- Both are in use and loaded. -/
def ownedFile : Fs :=
  { Fs.boot fun b =>
      if b = 2 then Bytes.zero.splice 256 ownedInode.encode
      else if b = 50 then Bytes.zero.splice 0 [2, 0, 102]
      else Bytes.zero with
    refs := fun i => if i = 1 ∨ i = 2 then 1 else 0
    valid := fun i => decide (i = 1 ∨ i = 2)
    state := fun i => if i = 1 then oneEntryDir else ownedInode
    cwd := fun p => if p = 0 then some 1 else none }

theorem ownedFile_cwd : ∀ p i, ownedFile.cwd p = some i → 0 < ownedFile.refs i := by
  intro p i hCwd
  obtain rfl : i = 1 := by
    simp only [ownedFile] at hCwd
    grind
  decide

def otherUser : Cred where
  uid := 1000
  gid := 1000
  umask := 0

theorem sysOpen_guarded_iff_ownedFile : ∃ r s',
      (sysOpen oneDirDisk 0 otherUser [102] 0 (fun _ => false)
        (some 0)).run (exec oneDirDisk) ownedFile = .ok r s' ∧ r = 0 ∧
      (Guarded oneDirDisk 0 otherUser [102] 0 (fun _ => false) (some 0) ownedFile s' r ↔
      ∀ ip, OpenNames oneDirDisk 0 otherUser [102] 0
        ownedFile ip → Existed oneDirDisk ownedFile ip →
          OpenGuard otherUser 0 (fun _ => false) (some 0) (currSt oneDirDisk ownedFile ip)) := by
  have hCheck : ((sysOpen oneDirDisk 0 otherUser [102] 0
      (fun _ => false) (some 0)).run (exec oneDirDisk)
      ownedFile).check (fun r _ => r == 0) = true := by decide +kernel
  rcases Outcome.exists_of_check hCheck with ⟨r, s', hRun, hRes⟩
  exact ⟨r, s', hRun, eq_of_beq hRes, sysOpen_guarded_iff oneDirDisk 0 otherUser [102] 0 _ _ _ _
      _ (by decide) ownedFile_cwd (fun _ _ => rfl) hRun⟩

/-
  With `O_CREATE` the other user gets to write the file, and
  with `O_TRUNC` a descriptor for reading empties it.
-/
theorem sysOpen_unguarded : (∃ r s', (sysOpen oneDirDisk 0 otherUser [102]
        (O_CREATE ||| O_RDWR) (fun _ => false) (some 0)).run
          (exec oneDirDisk) ownedFile = .ok r s' ∧ ¬ Guarded oneDirDisk 0 otherUser [102]
        (O_CREATE ||| O_RDWR) (fun _ => false) (some 0) ownedFile s' r) ∧ ∃ r s',
      (sysOpen oneDirDisk 0 otherUser [102] O_TRUNC (fun _ => false) (some 0)).run
          (exec oneDirDisk) ownedFile = .ok r s' ∧ ¬ Guarded oneDirDisk 0 otherUser [102] O_TRUNC
        (fun _ => false) (some 0) ownedFile s' r := by
  have hExisted : Existed oneDirDisk ownedFile 2 := by
    have hTyp : (ownedFile.dinode oneDirDisk 2).typ = 2 := by decide +kernel
    unfold Existed
    rw [hTyp]
    decide
  have hDenied : ¬ Allows otherUser (currSt oneDirDisk ownedFile 2) false true := by
    unfold Allows
    decide +kernel
  constructor
  · have hCheck : ((sysOpen oneDirDisk 0 otherUser [102]
        (O_CREATE ||| O_RDWR) (fun _ => false) (some 0)).run (exec oneDirDisk) ownedFile).check
          (fun r s' => r == 0 && s'.fds 0 == some 0 && (s'.files 0).any fun o =>
              o.ip == 2 && o.writable) = true := by
      decide +kernel
    rcases Outcome.exists_of_check hCheck with ⟨r, s', hRun, hRes⟩
    refine ⟨r, s', hRun, fun hGuarded => ?_⟩
    simp only [Bool.and_eq_true, beq_iff_eq, Option.any_eq_true] at hRes
    rcases hRes with ⟨⟨rfl, hFd⟩, o, hFile, hIp, hWrite⟩
    have hAllows := hGuarded.file 0 0 o rfl hFd hFile (hIp ▸ hExisted)
    rw [hIp, hWrite] at hAllows
    revert hAllows
    unfold Allows
    cases o.readable <;> decide +kernel
  · have hCheck : ((sysOpen oneDirDisk 0 otherUser [102] O_TRUNC (fun _ => false) (some 0)).run
        (exec oneDirDisk) ownedFile).check (fun _ _ => true) = true := by decide +kernel
    have hLocked : ((openLookup oneDirDisk 0 otherUser [102]
        O_TRUNC).run (exec oneDirDisk) ownedFile).check (fun found m => found == some 2 &&
          ((ilock 2).run (exec oneDirDisk) m).check fun _ m₁ =>
              openAllowed otherUser O_TRUNC (m₁.state 2) && (m₁.state 2).typ == T_FILE) = true := by
      decide +kernel
    rcases Outcome.exists_of_check hCheck with ⟨r, s', hRun, _⟩
    rcases Outcome.exists_of_check hLocked with ⟨found, m, hLookup, hFound⟩
    simp only [Bool.and_eq_true, beq_iff_eq] at hFound
    rcases hFound with ⟨rfl, hIlock⟩
    rcases Outcome.exists_of_check hIlock with ⟨_, m₁, hLock, hState⟩
    simp only [Bool.and_eq_true, beq_iff_eq] at hState
    refine ⟨r, s', hRun, fun hGuarded => hDenied ?_⟩
    have hOpen := (sysOpen_along (by decide)).mp hGuarded.trunc 2 m hLookup
    exact openInode_along.mp hOpen m₁ hLock hState.1 (by decide) hState.2 hExisted

end PlayXv6
