import PlayXv6.Sys.SharedFile

/-
  Every interleaving of reads and writes of one file.

  Any number of tasks run `inode_read` and `inode_write` on
  one inode, through any descriptions that are open on it.
  However their commands are interleaved, the transfers are
  made one after the other.

  Main declarations:
    * `SharedCall`
    * `transfers_in_order`, `kernel_in_order`
-/

namespace PlayXv6

open Function

/- The offset of description `f`. -/
def Fs.offOf (s : Fs) (f : Nat) : Nat := (s.files f).elim 0 OpenFile.off

/- Description `f` is open on inode `ip`. -/
def Fs.OpenOn (s : Fs) (ip f : Nat) : Prop := ∃ o, s.files f = some o ∧ o.ip = ip

/- Description `f` was opened with `O_APPEND`. -/
def Fs.appends (s : Fs) (f : Nat) : Bool := (s.files f).elim false OpenFile.append

/-
  A state in which inode `ip` has been opened, so that it is
  in memory, and nobody holds its lock.
-/
structure Opened (sb : Superblock) (ip : Nat) (s : Fs) : Prop where
  disk : sb.Ok
  inode : ip < sb.ninodes
  intact : ∃ own, Owns sb s own ∧ (viewOf sb s own ip).Intact sb
  valid : s.valid ip = true
  unlocked : s.locked ip = false

/- What the calls share in such a state. -/
def sharing (s : Fs) (ip : Nat) : Sharing where
  app := s.appends
  init :=
    { file := s.fileOf ip
      off := s.offOf }
  opened := s.OpenOn ip

/- The calls: reads and writes through the descriptions. -/
inductive SharedCall (sb : Superblock) (s : Fs) (ip : Nat) : NotedProg Int → Prop where
  | read {f : Nat} (len : Nat) (copied : Bool) (hOpen : s.OpenOn ip f) :
      SharedCall sb s ip (inodeReadNoted ip f len copied)
  | write {f : Nat} (len : Nat) (data : List UInt8) (hOpen : s.OpenOn ip f) : SharedCall sb s ip
        (inodeWriteNoted sb ip f len data (s.appends f) len 0)

/- The pool in which no call has been made yet. -/
def sharedPool (s : Fs) : Pool (Noted Cmd Transfer) (Fs × List Transfer) Int where
  state := (s, [])
  tasks := fun _ => none

/- What any interleaving of the calls reaches. -/
abbrev SharedReach (sb : Superblock) (s : Fs) (ip : Nat) :
    Pool (Noted Cmd Transfer) (Fs × List Transfer) Int →
      Prop := Pool.Runs (Noted.record (exec sb)) (SharedCall sb s ip) (sharedPool s)

-- Soundness of the Rules

variable {sb : Superblock} {s s' : Fs} {own : Nat → Option Nat} {i : Nat} {v : ILoc}

theorem Owns.of_blocks (hOwns : Owns sb s own) (hBlocks : s'.blocks = s.blocks) :
    Owns sb s' own := by
  have hBit : ∀ b, s'.bit sb b = s.bit sb b := by
    intro b
    unfold Fs.bit
    rw [hBlocks]
  refine ⟨hOwns.data, ?_, ?_⟩
  · intro b j hOwn
    rw [hBit]
    exact hOwns.set b j hOwn
  · intro b hb
    rw [hBit]
    exact hOwns.metadata b hb

theorem View.of_same (hView : View sb s own i v) (hBlocks : s'.blocks = s.blocks)
    (hState : s'.state = s.state) (hTrunc : s'.truncating = s.truncating) : View sb s' own i v := by
  refine ⟨?_, ?_, ?_, ?_, ?_⟩
  · rw [hState]
    exact hView.st
  · unfold Fs.dinode
    rw [hBlocks]
    exact hView.dino
  · unfold heapOf
    rw [hBlocks]
    exact hView.heap
  · intro F hF
    rw [hView.free F hF]
    unfold Fs.freeSet Fs.bit
    rw [hBlocks]
  · rw [hTrunc]
    exact hView.trunc

/- The tenure `T` is what the state holds of the file. -/
structure Held (sb : Superblock) (W : Sharing) (ip : Nat) (x : Fs × List Transfer)
    (T : Tenure) : Prop where
  view : ∃ own, Owns sb x.1 own ∧ View sb x.1 own ip T.loc
  hist : T.hist = x.2
  off : ∀ f, T.off f = x.1.offOf f
  valid : x.1.valid ip = true
  files : ∀ f, W.opened f → (x.1.files f).isSome = true
  serial : Serial W.app W.init T.hist

/- Nobody holds the lock and the file is settled, or one task does and has the tenure. -/
def Holder (sb : Superblock) (W : Sharing) (locked : Bool) (T : Tenure)
    (views : Nat → Option Tenure) : Prop :=
  (locked = false ∧ T.Settled sb W ∧
    ∀ t, views t = none) ∨ (locked = true ∧ ∃ u, views u = some T ∧ ∀ t, t ≠ u → views t = none)

def SharedLink (sb : Superblock) (W : Sharing) (ip : Nat) (x : Fs × List Transfer)
    (views : Nat → Option Tenure) : Prop :=
  ∃ T, Held sb W ip x T ∧
    Holder sb W (x.1.locked ip) T views

variable {W : Sharing} {ip t : Nat} {x : Fs × List Transfer}
variable {T : Tenure} {views : Nat → Option Tenure} {β : Type} {b : β}

/- Commands that leave the inodes and descriptions alone. -/
theorem Held.of_same (hHeld : Held sb W ip x T) (hBlocks : s'.blocks = x.1.blocks)
    (hState : s'.state = x.1.state) (hTrunc : s'.truncating = x.1.truncating)
    (hValid : s'.valid = x.1.valid) (hFiles : s'.files = x.1.files) : Held sb W ip (s', x.2) T := by
  rcases hHeld.view with ⟨own, hOwns, hView⟩
  refine ⟨⟨own, hOwns.of_blocks hBlocks, hView.of_same hBlocks hState hTrunc⟩, hHeld.hist, ?_,
    ?_, ?_, hHeld.serial⟩
  · intro f
    unfold Fs.offOf
    rw [hFiles]
    exact hHeld.off f
  · rw [hValid]
    exact hHeld.valid
  · intro f hf
    rw [hFiles]
    exact hHeld.files f hf

theorem Holder.of_some {locked : Bool} {T' : Tenure} (hHolder : Holder sb W locked T views)
    (hView : views t = some T') : locked = true ∧ T' = T ∧ ∀ u, u ≠ t → views u = none := by
  rcases hHolder with ⟨_, _, hNone⟩ | ⟨hLocked, u, hu, hNone⟩
  · rw [hNone t] at hView
    cases hView
  · by_cases ht : t = u
    · subst ht
      exact ⟨hLocked, Option.some.inj (hView.symm.trans hu), hNone⟩
    · rw [hNone t ht] at hView
      cases hView

theorem Holder.update {T' : Tenure} (hNone : ∀ u, u ≠ t → views u = none) : Holder sb W true T'
      (update views t (some T')) := by
  refine Or.inr ⟨rfl, t, update_self .., ?_⟩
  intro u hu
  rw [update_of_ne hu]
  exact hNone u hu

theorem Held.link {x' : Fs × List Transfer} {T' : Tenure} (hHeld : Held sb W ip x' T')
    (hLocked : x'.1.locked ip = true) (hNone : ∀ u, u ≠ t → views u = none) : SharedLink sb W ip x'
      (update views t (some T')) := by
  refine ⟨T', hHeld, ?_⟩
  rw [hLocked]
  exact Holder.update hNone

/- A command of a task without the lock. -/
theorem outPre_sound {c : Cmd β} {Q : β → Option Tenure → Prop} (hLink : SharedLink sb W ip x views)
    (hOut : views t = none) (hPre : outPre sb W ip c Q) (hExec : exec sb c x.1 = .ok b s') :
    ∃ o, SharedLink sb W ip (s', x.2) (update views t o) ∧ Q b o := by
  rcases hLink with ⟨T, hHeld, hHolder⟩
  have hSame : update views t none = views := by rw [← hOut, update_eq_self]
  cases c with
  | lock j =>
    rcases hPre with ⟨rfl, hQ⟩
    simp only [exec] at hExec
    split at hExec
    · cases hExec
    · rename_i hFree
      cases hExec
      rcases hHolder with ⟨_, hSettled, hNone⟩ | ⟨hLocked, _⟩
      · refine ⟨some T, ⟨T, hHeld.of_same rfl rfl rfl rfl rfl, ?_⟩, hQ T hSettled⟩
        show Holder sb W (update x.1.locked j true j) T _
        rw [update_self]
        exact Holder.update fun u _ => hNone u
      · exact absurd hLocked hFree
  | beginOp =>
    simp only [exec] at hExec
    split at hExec <;> cases hExec
    refine ⟨none, ?_, hPre⟩
    rw [hSame]
    exact ⟨T, hHeld.of_same rfl rfl rfl rfl rfl, hHolder⟩
  | endOp =>
    simp only [exec] at hExec
    split at hExec
    · cases hExec
    · cases hExec
      refine ⟨none, ?_, hPre _⟩
      rw [hSame]
      exact ⟨T, hHeld.of_same rfl rfl rfl rfl rfl, hHolder⟩
  | commit | iput j =>
    cases hExec
    refine ⟨none, ?_, hPre⟩
    rw [hSame]
    exact ⟨T, hHeld.of_same rfl rfl rfl rfl rfl, hHolder⟩
  | _ => exact hPre.elim

theorem inodePre_sound (hSb : sb.Ok) (hIp : ip < sb.ninodes) {c : Cmd β}
    {Q : β → Option Tenure → Prop} (hHeld : Held sb W ip x T) (hLocked : x.1.locked ip = true)
    (hNone : ∀ u, u ≠ t → views u = none) (hPre : inodePre sb ip c
      (fun b v => Q b (some { T with loc := v })) T.loc) (hExec : exec sb c x.1 = .ok b s') :
    ∃ o, SharedLink sb W ip (s', x.2) (update views t o) ∧ Q b o := by
  rcases hHeld.view with ⟨own, hOwns, hView⟩
  rcases inodeRules_step hSb hIp hOwns hView hPre with ⟨b', s'', own', v', hOk, hAdv, _, _, hQ⟩
  rw [hOk] at hExec
  cases hExec
  have hRest := hAdv.frame.rest
  have hHeld' : Held sb W ip (s', x.2) { T with loc := v' } := by
    refine ⟨⟨own', hAdv.owns, hAdv.view⟩, hHeld.hist, ?_, ?_, ?_, hHeld.serial⟩
    · intro f
      rw [hRest]
      exact hHeld.off f
    · rw [hRest]
      exact hHeld.valid
    · intro f hf
      rw [hRest]
      exact hHeld.files f hf
  refine ⟨_, hHeld'.link ?_ hNone, hQ⟩
  rw [hRest]
  exact hLocked

theorem heldPre_sound {c : Cmd β} {Q : β → Option Tenure → Prop} (hHeld : Held sb W ip x T)
    (hLocked : x.1.locked ip = true) (hNone : ∀ u, u ≠ t → views u = none)
    (hPre : heldPre sb W ip c Q T) (hExec : exec sb c x.1 = .ok b s') :
    ∃ o, SharedLink sb W ip (s', x.2) (update views t o) ∧ Q b o := by
  cases c with
  | unlock j =>
    rcases hPre with ⟨rfl, hSettled, hQ⟩
    cases hExec
    refine ⟨none, ⟨T, hHeld.of_same rfl rfl rfl rfl rfl, Or.inl ⟨update_self .., hSettled, ?_⟩⟩, hQ⟩
    intro u
    by_cases hu : u = t
    · rw [hu, update_self]
    · rw [update_of_ne hu, hNone u hu]
  | isValid j =>
    rcases hPre with ⟨rfl, hQ⟩
    simp only [exec, hHeld.valid] at hExec
    cases hExec
    exact ⟨some T, hHeld.link hLocked hNone, hQ⟩
  | getOff f =>
    cases hExec
    refine ⟨some T, hHeld.link hLocked hNone, ?_⟩
    have hOff := hHeld.off f
    unfold Fs.offOf at hOff
    rw [← hOff]
    exact hPre
  | setOff f off =>
    rcases hPre with ⟨hOpen, hQ⟩
    cases hExec
    refine ⟨_, Held.link ?_ hLocked hNone, hQ⟩
    refine { hHeld with view := ?_, off := ?_, files := ?_ }
    · rcases hHeld.view with ⟨own, hOwns, hView⟩
      exact ⟨own, hOwns.of_blocks rfl, hView.of_same rfl rfl rfl⟩
    · intro g
      rcases Option.isSome_iff_exists.mp (hHeld.files f hOpen) with ⟨o, ho⟩
      unfold Fs.offOf
      by_cases hg : g = f
      · simp [hg, ho]
      · simp only [update_of_ne hg]
        exact hHeld.off g
    · intro g hOpen'
      have hSome := hHeld.files g hOpen'
      by_cases hg : g = f
      · subst hg
        simpa using hSome
      · simpa [update_of_ne hg] using hSome
  | mark m =>
    cases m with
    | writei i off len | writeEnd i =>
      cases hExec
      exact ⟨some T, hHeld.link hLocked hNone, hPre⟩
    | _ => exact hPre.elim
  | _ => exact hPre.elim

/- Every command does to the views what its rule says. -/
theorem tenureRules_sound {W : Sharing} (hSb : sb.Ok)
    (hIp : ip < sb.ninodes) {β : Type} (c : Noted Cmd Transfer β) (Q : β → Option Tenure → Prop)
    (x : Fs × List Transfer) (views : Nat → Option Tenure) (t : Nat) (b : β)
    (x' : Fs × List Transfer) (hLink : SharedLink sb W ip x views)
    (hPre : (tenureRules sb W ip).pre c Q (views t))
    (hExec : Noted.record (exec sb) c x = .ok b x') :
    ∃ o, SharedLink sb W ip x' (update views t o) ∧ Q b o := by
  cases hView : views t with
  | none =>
    rw [hView] at hPre
    cases c with
    | note e b' => exact hPre.elim
    | cmd c =>
      rcases Noted.record_cmd_ok hExec with ⟨hOk, hHist⟩
      have hNext := outPre_sound hLink hView hPre hOk
      rw [← hHist] at hNext
      exact hNext
  | some T' =>
    rw [hView] at hPre
    rcases hLink with ⟨T, hHeld, hHolder⟩
    rcases hHolder.of_some hView with ⟨hLocked, rfl, hNone⟩
    cases c with
    | note e b' =>
      rcases hPre with ⟨hFits, hQ⟩
      cases hExec
      refine ⟨_, Held.link ?_ hLocked hNone, hQ⟩
      refine { hHeld with hist := ?_, serial := ?_ }
      · show T'.hist ++ [e] = x.2 ++ [e]
        rw [hHeld.hist]
      · exact serial_concat.mpr ⟨hHeld.serial, hFits⟩
    | cmd c =>
      rcases Noted.record_cmd_ok hExec with ⟨hOk, hHist⟩
      have hNext : ∃ o, SharedLink sb W ip (x'.1, x.2) (update views t o) ∧ Q b o := by
        rcases hPre with hInner | hOuter
        · exact inodePre_sound hSb hIp hHeld hLocked hNone hInner hOk
        · exact heldPre_sound hHeld hLocked hNone hOuter hOk
      rw [← hHist] at hNext
      exact hNext

/- Every call, started without the lock, ends without it. -/
theorem wp_sharedCall (hSb : sb.Ok) {p : NotedProg Int}
    (hCall : SharedCall sb s ip p) : (tenureRules sb (sharing s ip) ip).wp p
      (fun _ o => o = none) none := by
  cases hCall with
  | read len copied hOpen => exact wp_inodeReadNoted hOpen len copied
  | write len data hOpen => exact wp_inodeWriteNoted hSb hOpen len data len 0

-- All Interleavings

/-
  Between two chunks written through one description there
  are only bytes written through it, if it is not read from;
  between two appended chunks there are only bytes written in
  between.
-/
def NoGap (app : Nat → Bool) (hist : List Transfer) : Prop :=
  ∀ (before between after : List Transfer) (f g start start' n n' : Nat)
    (chunk chunk' : List UInt8), hist = before ++ .wrote f start chunk n ::
      (between ++ .wrote g start' chunk' n' :: after) → ∀ y, start + n ≤ y → y < start' →
      (f = g → app f = false → (∀ e ∈ between, e.via = f → ¬ e.IsRead) →
          ∃ e ∈ between, e.via = f ∧ e.Wrote y) ∧ (app f = true → app g = true →
        ∃ e ∈ between, e.Wrote y)

/- A written chunk is in the file where nothing later is. -/
def Landed (file : ByteFile) (hist : List Transfer) : Prop :=
  ∀ (before after : List Transfer) (f start n : Nat) (chunk : List UInt8),
    hist = before ++ .wrote f start chunk n :: after →
    ∀ y, start ≤ y → y < start + n → (∀ e ∈ after, ¬ e.Wrote y) → file[y]? = chunk[y - start]?

theorem Serial.noGap {app : Nat → Bool} {x : Shared} {hist : List Transfer}
    (hSerial : Serial app x hist) : NoGap app hist := by
  rintro before between after f g start start' n n' chunk chunk' rfl y hLo hHi
  rcases serial_append.mp hSerial with ⟨_, hFirst, hRest⟩
  rcases serial_append.mp hRest with ⟨hBetween, hLast, _⟩
  have hBegin := hFirst.1
  have hStart := hLast.1
  constructor
  · rintro rfl hApp hRead
    have hOff := hFirst.off_after f
    simp only [Transfer.moved, hApp, and_self, if_true,
      Bool.false_eq_true, if_false] at hBegin hStart hOff
    exact hBetween.filled_of_off hRead (by omega) (by omega)
  · intro hf hg
    have hLen := hFirst.length_after
    simp only [Transfer.stop, hf, hg, if_true] at hBegin hStart hLen
    exact hBetween.filled_of_length (by omega) (by omega)

theorem Serial.landed {app : Nat → Bool} {x : Shared} {hist : List Transfer}
    (hSerial : Serial app x hist) : Landed (x.afterAll app hist).file hist := by
  rintro before after f start n chunk rfl y hLo hHi hOut
  rw [Shared.afterAll_append]
  exact (serial_append.mp hSerial).2.getElem?_landed hLo hHi hOut

/-
  What holds in every reached state.  While nobody holds the
  lock, the file and the offsets are those after the noted
  transfers, and unless the disk is full every chunk has been
  written as far as the largest file allows.
-/
structure InOrder (sb : Superblock) (s : Fs) (ip : Nat)
    (P : Pool (Noted Cmd Transfer) (Fs × List Transfer) Int) : Prop where
  serial : Serial s.appends (sharing s ip).init P.state.2
  apart : P.state.2.Pairwise (Transfer.Apart s.appends)
  noGap : NoGap s.appends P.state.2
  landed : Landed ((sharing s ip).now P.state.2).file P.state.2
  offset : ∀ f, ((sharing s ip).now P.state.2).off f = s.offOf f +
      (P.state.2.map (Transfer.moved s.appends f)).sum
  visible : P.state.1.locked ip = false → P.state.1.fileOf ip =
        ((sharing s ip).now P.state.2).file ∧ (∀ f, P.state.1.offOf f =
        ((sharing s ip).now P.state.2).off f) ∧ ((∃ b, b < sb.size ∧ P.state.1.bit sb b = false) →
        ∀ e ∈ P.state.2, ¬ e.Short)

/- What the link says about the state. -/
theorem SharedLink.inOrder
    {P : Pool (Noted Cmd Transfer) (Fs × List Transfer) Int} {views : Nat → Option Tenure}
    (hLink : SharedLink sb (sharing s ip) ip P.state views) : InOrder sb s ip P := by
  rcases hLink with ⟨T, hHeld, hHolder⟩
  have hSerial : Serial s.appends (sharing s ip).init P.state.2 := by
    rw [← hHeld.hist]
    exact hHeld.serial
  refine ⟨hSerial, hSerial.pairwise_apart, hSerial.noGap, hSerial.landed, hSerial.off_eq, ?_⟩
  intro hFree
  rcases hHolder with ⟨_, hSettled, _⟩ | ⟨hLocked, _⟩
  · rcases hHeld.view with ⟨own, hOwns, hView⟩
    rw [← hHeld.hist]
    refine ⟨?_, ?_, ?_⟩
    · rw [hView.fileOf_eq hSettled.intact.sound.tree]
      exact hSettled.file
    · intro f
      rw [← hHeld.off f, hSettled.off]
    · rintro ⟨b, hb, hBit⟩ e he hShort
      rcases hSettled.known with ⟨F, hF⟩
      apply hSettled.full ⟨e, he, hShort⟩ F hF b (Nat.zero_le b) hb
      rw [hView.free F hF, Fs.mem_freeSet]
      exact ⟨hb, hBit⟩
  · rw [hFree] at hLocked
    cases hLocked

theorem Opened.link (hOpen : Opened sb ip s) :
    SharedLink sb (sharing s ip) ip (s, []) fun _ => none := by
  rcases hOpen.intact with ⟨own, hOwns, hIntact⟩
  have hView := viewOf_view sb s own ip
  refine ⟨⟨viewOf sb s own ip, s.offOf, []⟩, ⟨⟨own, hOwns, hView⟩, rfl, fun _ => rfl, hOpen.valid,
      ?_, trivial⟩, Or.inl ⟨hOpen.unlocked, ⟨hIntact, ⟨_, rfl⟩, ?_, rfl, ?_⟩, fun _ => rfl⟩⟩
  · rintro f ⟨o, ho, _⟩
    rw [ho]
    rfl
  · exact (hView.fileOf_eq hIntact.sound.tree).symm
  · rintro ⟨e, he, _⟩
    cases he

/- Every interleaving keeps the link. -/
theorem SharedReach.link {P : Pool (Noted Cmd Transfer) (Fs × List Transfer) Int}
    (hReach : SharedReach sb s ip P) (hOpen : Opened sb ip s) :
    ∃ views, SharedLink sb (sharing s ip) ip P.state views := by
  have hVer : Pool.Verified (tenureRules sb (sharing s ip) ip) (SharedLink sb (sharing s ip) ip)
      (fun o => o = none) P := by
    refine Pool.verified_reach ?_ ?_ ?_ hReach ⟨fun _ => none, hOpen.link, fun _ _ => rfl, ?_⟩
    · intro β c Q x views t b x' hLink _ hPre hExec
      exact tenureRules_sound hOpen.disk hOpen.inode c Q x views t b x' hLink hPre hExec
    · rintro p _ hCall rfl
      exact wp_sharedCall hOpen.disk hCall
    · intro x x' views _ hEnv
      exact hEnv.elim
    · intro t p hTask
      cases hTask
  rcases hVer with ⟨views, hLink, _⟩
  exact ⟨views, hLink⟩

/-
  In every state reached by reads and writes of an open file
  the transfers so far were made one after the other.
-/
theorem transfers_in_order {sb : Superblock} {ip : Nat} {s : Fs} (hOpen : Opened sb ip s)
    {P : Pool (Noted Cmd Transfer) (Fs × List Transfer) Int} (hReach : SharedReach sb s ip P) :
    InOrder sb s ip P := by
  rcases hReach.link hOpen with ⟨views, hLink⟩
  exact hLink.inOrder

-- The Calls of the Kernel

/- The calls as the kernel makes them. -/
inductive KernelCall (sb : Superblock) (s : Fs) (ip : Nat) : FsProg Int → Prop where
  | read {f : Nat} (len : Nat) (copied : Bool) (hOpen : s.OpenOn ip f) :
      KernelCall sb s ip (inodeRead ip f len copied)
  | write {f : Nat} (len : Nat) (data : List UInt8) (hOpen : s.OpenOn ip f) :
      KernelCall sb s ip (inodeWriteLoop sb ip f len data (s.appends f) len 0)

abbrev KernelReach (sb : Superblock) (s : Fs) (ip : Nat) : Pool Cmd Fs Int → Prop :=
  Pool.Runs (exec sb) (KernelCall sb s ip) { state := s, tasks := fun _ => none }

/- Every run of the kernel's calls is a run with notes. -/
theorem sharedReach_of_kernel {R : Pool Cmd Fs Int} (hReach : KernelReach sb s ip R) :
    ∃ P, SharedReach sb s ip P ∧ P.erase = R := by
  have hErased : ∀ p, KernelCall sb s ip p → Pool.Erased (SharedCall sb s ip) p := by
    intro p hCall
    cases hCall with
    | read len copied hOpen =>
      exact ⟨_, .read len copied hOpen, erase_inodeReadNoted _ _ _ _⟩
    | write len data hOpen =>
      exact ⟨_, .write len data hOpen, erase_inodeWriteNoted _ _ _ _ _ _ _ _⟩
  exact Pool.reach_of_erase (P := sharedPool s) (hReach.mono hErased)

/-
  In every state that the kernel's own reads and writes reach,
  the file is the work of transfers made one after the other.
-/
theorem kernel_in_order {sb : Superblock} {ip : Nat} {s : Fs} (hOpen : Opened sb ip s)
    {R : Pool Cmd Fs Int} (hReach : KernelReach sb s ip R) :
    ∃ P, SharedReach sb s ip P ∧ P.erase = R ∧ InOrder sb s ip P := by
  rcases sharedReach_of_kernel hReach with ⟨P, hShared, hErase⟩
  rcases hShared.link hOpen with ⟨views, hLink⟩
  exact ⟨P, hShared, hErase, hLink.inOrder⟩

-- Runs on a Small Disk

/- Inode 1 is open twice, as description 0 and, with `O_APPEND`, as description 1. -/
def smallOpen : Fs :=
  { smallState with
    valid := fun _ => true
    files := fun f =>
      if f < 2 then
        some
          { ip := 1
            off := 0
            readable := true
            writable := true
            append := f = 1
            count := 1 }
      else none }

theorem smallOpen_opened : Opened smallDisk 1 smallOpen := by
  have hNone := smallState_noData
  have hNoData : NoData smallDisk smallOpen := { hNone with }
  have hAll := hNoData.allIntact
  exact ⟨⟨by decide, by decide, by decide, by decide, by decide⟩, by decide, ⟨_, hAll.owns,
      hAll.intact 1 (by decide)⟩, rfl, rfl⟩

theorem smallOpen_openOn {f : Nat} (hf : f < 2) : smallOpen.OpenOn 1 f := by
  refine ⟨_, if_pos hf, rfl⟩

/- The calls of a write, an append and a read, as the kernel makes them. -/
theorem kernel_in_order_small : ∃ R, KernelReach smallDisk smallOpen 1 R ∧
    R.state.fileOf 1 = [7, 8, 9] ∧ R.state.offOf 0 = 3 ∧
      ∃ P, SharedReach smallDisk smallOpen 1 P ∧ P.erase = R ∧ InOrder smallDisk smallOpen 1 P := by
  have hCheck : (Prog.run (exec smallDisk)
        (inodeWriteLoop smallDisk 1 0 2 [7, 8] false 2 0) smallOpen).check (fun _ s =>
      (Prog.run (exec smallDisk) (inodeWriteLoop smallDisk 1 1 1 [9] true 1 0) s).check (fun _ s =>
      (Prog.run (exec smallDisk) (inodeRead 1 0 5 true) s).check (fun _ s =>
      s.fileOf 1 = [7, 8, 9] ∧ s.offOf 0 = 3))) = true := by
    decide +kernel
  rcases Outcome.exists_of_check hCheck with ⟨_, s₁, hWrite, hCheck⟩
  rcases Outcome.exists_of_check hCheck with ⟨_, s₂, hAppend, hCheck⟩
  rcases Outcome.exists_of_check hCheck with ⟨_, s₃, hRead, hFile⟩
  have hFirst : smallOpen.OpenOn 1 0 := smallOpen_openOn (by omega)
  have hSecond : smallOpen.OpenOn 1 1 := smallOpen_openOn (by omega)
  have hReach : KernelReach smallDisk smallOpen 1 ⟨s₃, fun _ => none⟩ :=
    .trans (.trans (Pool.runs_call (t := 0) rfl (.write 2 [7, 8] hFirst) hWrite)
      (Pool.runs_call (t := 1) rfl (.write 1 [9] hSecond) hAppend))
      (Pool.runs_call (t := 0) rfl (.read 5 true hFirst) hRead)
  rcases of_decide_eq_true hFile with ⟨hBytes, hOff⟩
  exact ⟨_, hReach, hBytes, hOff, kernel_in_order smallOpen_opened hReach⟩

theorem SharedReach.call {x x' : Fs × List Transfer}
    {p : NotedProg Int} {r : Int} (hReach : SharedReach sb s ip ⟨x, fun _ => none⟩)
    (hCall : SharedCall sb s ip p) (hRun : Prog.run (Noted.record (exec sb)) p x = .ok r x') :
    SharedReach sb s ip ⟨x', fun _ => none⟩ := hReach.trans (Pool.runs_call (t := 0) rfl hCall hRun)

theorem transfers_in_order_small : ∃ P, SharedReach smallDisk smallOpen 1 P ∧ P.state.2 =
        [.wrote 0 0 [7, 8] 2, .wrote 1 2 [9] 1, .read 0 2 [9] true] ∧
      InOrder smallDisk smallOpen 1 P := by
  have hCheck : (Prog.run (Noted.record (exec smallDisk))
        (inodeWriteNoted smallDisk 1 0 2 [7, 8] false 2 0) (smallOpen, [])).check (fun _ x =>
      (Prog.run (Noted.record (exec smallDisk)) (inodeWriteNoted smallDisk 1 1 1 [9] true 1 0)
        x).check (fun _ x =>
      (Prog.run (Noted.record (exec smallDisk)) (inodeReadNoted 1 0 5 true) x).check (fun _ x =>
      x.2 = [.wrote 0 0 [7, 8] 2, .wrote 1 2 [9] 1, .read 0 2 [9] true]))) = true := by
    decide +kernel
  rcases Outcome.exists_of_check hCheck with ⟨_, x₁, hWrite, hCheck⟩
  rcases Outcome.exists_of_check hCheck with ⟨_, x₂, hAppend, hCheck⟩
  rcases Outcome.exists_of_check hCheck with ⟨_, x₃, hRead, hHist⟩
  have hFirst : smallOpen.OpenOn 1 0 := smallOpen_openOn (by omega)
  have hSecond : smallOpen.OpenOn 1 1 := smallOpen_openOn (by omega)
  have hReach : SharedReach smallDisk smallOpen 1 ⟨x₃, fun _ => none⟩ :=
    SharedReach.call (SharedReach.call (SharedReach.call .refl (.write 2 [7, 8] hFirst) hWrite)
      (.write 1 [9] hSecond) hAppend) (.read 5 true hFirst) hRead
  exact ⟨_, hReach, of_decide_eq_true hHist, transfers_in_order smallOpen_opened hReach⟩

/- The same descriptions on a largest file, all of it a hole. -/
def largestOpen : Fs :=
  { smallOpen with
    state := update smallOpen.state 1
      { smallOpen.state 1 with
        size := UInt32.ofNat (MAXFILE * BSIZE) } }

theorem largestOpen_opened : Opened smallDisk 1 largestOpen := by
  have hEmpty := smallOpen_opened
  rcases hEmpty.intact with ⟨own, hOwns, hv⟩
  refine ⟨hEmpty.disk, hEmpty.inode, ⟨own, hOwns.of_blocks rfl, ⟨⟨hv.sound.trunc,
      hv.sound.tree, hv.sound.below, hv.sound.free⟩, ?_, ?_⟩⟩, rfl, rfl⟩
  · show (largestOpen.state 1).size.toNat ≤ MAXFILE * BSIZE
    decide +kernel
  · intro y _
    exact hv.zero y (Nat.zero_le y)

/-
  A chunk appended through description 1 does not move its
  offset, and one appended to a largest file is not written
  although blocks are free.
-/
theorem append_leaves_offset : (∃ P, SharedReach smallDisk smallOpen 1 P ∧
      P.state.1.locked 1 = false ∧ P.state.2 = [.wrote 1 0 [9] 1] ∧
      P.state.1.offOf 1 = smallOpen.offOf 1) ∧ Opened smallDisk 1 largestOpen ∧
    ∃ P, SharedReach smallDisk largestOpen 1 P ∧ P.state.1.locked 1 = false ∧
      P.state.2 = [.wrote 1 (MAXFILE * BSIZE) [9] 0] ∧ P.state.1.bit smallDisk 4 = false := by
  refine ⟨?_, largestOpen_opened, ?_⟩
  · have hCheck : (Prog.run (Noted.record (exec smallDisk))
          (inodeWriteNoted smallDisk 1 1 1 [9] true 1 0) (smallOpen, [])).check (fun _ x =>
        x.1.locked 1 = false ∧ x.2 = [.wrote 1 0 [9] 1] ∧
          x.1.offOf 1 = smallOpen.offOf 1) = true := by
      decide +kernel
    rcases Outcome.exists_of_check hCheck with ⟨_, x, hRun, hEnd⟩
    exact ⟨⟨x, fun _ => none⟩, SharedReach.call .refl
      (.write 1 [9] (smallOpen_openOn (by omega))) hRun, of_decide_eq_true hEnd⟩
  · have hCheck : (Prog.run (Noted.record (exec smallDisk))
          (inodeWriteNoted smallDisk 1 1 1 [9] true 1 0) (largestOpen, [])).check (fun _ x =>
        x.1.locked 1 = false ∧ x.2 = [.wrote 1 (MAXFILE * BSIZE) [9] 0] ∧
          x.1.bit smallDisk 4 = false) = true := by
      decide +kernel
    rcases Outcome.exists_of_check hCheck with ⟨_, x, hRun, hEnd⟩
    exact ⟨⟨x, fun _ => none⟩, SharedReach.call .refl
      (.write 1 [9] (smallOpen_openOn (by omega))) hRun, of_decide_eq_true hEnd⟩

end PlayXv6
