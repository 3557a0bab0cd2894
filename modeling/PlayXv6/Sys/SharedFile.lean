import PlayXv6.Lib.Noted
import PlayXv6.Sys.Transfers

/-
  Reading and writing one file through shared descriptions.

  The calls are `inode_read` and the loop of `inode_write`
  with a note for every transfer.  The rules below verify one
  call against any others: what a task knows of the file while
  it holds the inode's lock is its tenure, and a tenure begins
  and ends with a file and offsets that are those after the
  transfers noted so far.

  Main declarations:
    * `inodeWriteNoted`
    * `wp_inodeWriteNoted`
-/

namespace PlayXv6

open Function Rules

open Prog

abbrev NotedProg (α : Type) : Type 1 := Prog (Noted Cmd Transfer) α

/- `inodeRead`, noting what `readi` returned. -/
def inodeReadNoted (ip f len : Nat) (copied : Bool) : NotedProg Int := do
  unnoted (ilock ip)
  let cur ← unnoted (call (.getOff f))
  let s ← unnoted (call (.getState ip))
  if s.size.toNat ≤ cur then
    unnoted do
      iunlock ip
      call (.iput ip)
      pure 0
  else
    let want := min len (s.size.toNat - cur)
    let bs ← unnoted (readi ip want cur)
    note (.read f cur bs copied)
    unnoted do
      if copied ∧ bs ≠ [] then
        call (.setOff f (cur + bs.length))
      iunlock ip
      call (.iput ip)
      pure (if copied then bs.length else -1)

/- `inodeWriteLoop`, noting what `writei` wrote. -/
def inodeWriteNoted (sb : Superblock) (ip f len : Nat) (data : List UInt8) (append : Bool) :
    Nat → Nat → NotedProg Int
  | 0, written => pure written
  | fuel + 1, written => do
      if written < len then
        let chunk := min (len - written) WRITE_CHUNK
        if data.length < written + chunk then
          pure (if written = 0 then -1 else written)
        else
          unnoted (call .beginOp)
          unnoted (ilock ip)
          let s ← unnoted (call (.getState ip))
          let cur ← unnoted
            (if append then pure s.size.toNat
            else call (.getOff f))
          if s.size.toNat < cur then
            unnoted do
              iunlock ip
              endOp
              pure (if written = 0 then -1 else written)
          else
            let n ← unnoted (writei sb ip
              ((data.drop written).take chunk) cur)
            note (.wrote f cur
              ((data.drop written).take chunk) n)
            unnoted do
              if 0 < n ∧ !append then
                call (.setOff f (cur + n))
              iunlock ip
              endOp
            if n < chunk then
              pure (written + n : Nat)
            else
              inodeWriteNoted sb ip f len data append fuel
                (written + n)
      else
        pure written

/- Without the notes these are the calls of the kernel. -/
theorem erase_inodeReadNoted (ip f len : Nat) (copied : Bool) :
    (inodeReadNoted ip f len copied).erase = inodeRead ip f len copied := by
  unfold inodeReadNoted inodeRead
  simp only [erase_bind, erase_unnoted, erase_ite, erase_of_note, bind_eq, ret_bind]

theorem erase_inodeWriteNoted (sb : Superblock) (ip f len : Nat) (data : List UInt8) (append : Bool)
    (fuel written : Nat) : (inodeWriteNoted sb ip f len data append fuel written).erase =
        inodeWriteLoop sb ip f len data append fuel
          written := by
  induction fuel generalizing written with
  | zero => rfl
  | succ fuel ih =>
    unfold inodeWriteNoted inodeWriteLoop
    simp only [erase_bind, erase_unnoted, erase_ite,
      erase_of_note, ih, bind_eq, pure_eq, erase_ret, ret_bind, bind_assoc, ite_bind]

-- Tenures

/-
  What the holder of the lock sees: the inode, the offsets of
  the descriptions and the transfers noted so far.
-/
structure Tenure where
  loc : ILoc
  off : Nat → Nat
  hist : List Transfer

/- Some of the chunk could have been written and was not. -/
def Transfer.Short : Transfer → Prop
  | .wrote _ start chunk n => n < min chunk.length (MAXFILE * BSIZE - start)
  | .read _ _ _ _ => False

/- The files and offsets the transfers start from. -/
structure Sharing where
  app : Nat → Bool
  init : Shared
  opened : Nat → Prop

/- The state after the transfers of a history. -/
def Sharing.now (W : Sharing) (hist : List Transfer) : Shared := W.init.afterAll W.app hist

/-
  Outside the calls the file and the offsets are those after
  the noted transfers, and a chunk that fell short had met a
  full disk.
-/
structure Tenure.Settled (sb : Superblock) (W : Sharing) (T : Tenure) : Prop where
  intact : T.loc.Intact sb
  known : ∃ F, T.loc.free = some F
  file : T.loc.file = (W.now T.hist).file
  off : T.off = (W.now T.hist).off
  full : (∃ e ∈ T.hist, e.Short) → T.loc.NoneFree 0 sb.size

/- The commands of a task that holds the lock of `ip`. -/
def heldPre (sb : Superblock) (W : Sharing) (ip : Nat) :
    {β : Type} → Cmd β → (β → Option Tenure → Prop) → Tenure → Prop
  | _, .unlock j, Q, T => j = ip ∧ T.Settled sb W ∧ Q () none
  | _, .isValid j, Q, T => j = ip ∧ Q true (some T)
  | _, .getOff f, Q, T => Q (T.off f) (some T)
  | _, .setOff f off, Q, T =>
    W.opened f ∧ Q () (some
        { T with
          off := update T.off f (off % 2 ^ 32) })
  | _, .mark (.writei _ _ _), Q, T => Q () (some T)
  | _, .mark (.writeEnd _), Q, T => Q () (some T)
  | _, _, _, _ => False

/- The commands of a task that does not. -/
def outPre (sb : Superblock) (W : Sharing) (ip : Nat) :
    {β : Type} → Cmd β → (β → Option Tenure → Prop) → Prop
  | _, .lock j, Q => j = ip ∧ ∀ T, T.Settled sb W → Q () (some T)
  | _, .beginOp, Q => Q () none
  | _, .endOp, Q => ∀ last, Q last none
  | _, .commit, Q => Q () none
  | _, .iput _, Q => Q () none
  | _, _, _ => False

/-
  The holder may also use the commands on the inode itself.
  A noted transfer fits the state after the earlier ones.
-/
def tenurePre (sb : Superblock) (W : Sharing) (ip : Nat) {β : Type} :
    Noted Cmd Transfer β → (β → Option Tenure → Prop) → Option Tenure → Prop
  | .cmd c, Q, none => outPre sb W ip c Q
  | .cmd c, Q, some T =>
    inodePre sb ip c (fun b v => Q b (some { T with loc := v })) T.loc ∨ heldPre sb W ip c Q T
  | .note e b, Q, some T =>
    e.Fits W.app (W.now T.hist) ∧ Q b (some { T with hist := T.hist ++ [e] })
  | .note _ _, _, none => False

variable {T : Tenure}

variable {sb : Superblock} {W : Sharing} {ip : Nat} {β : Type} {Q Q' : β → Option Tenure → Prop}

theorem heldPre_mono (hImp : ∀ b o, Q b o → Q' b o) {c : Cmd β}
    (hPre : heldPre sb W ip c Q T) : heldPre sb W ip c Q' T := by
  cases c with
  | unlock j => exact ⟨hPre.1, hPre.2.1, hImp _ _ hPre.2.2⟩
  | isValid j | setOff f off => exact ⟨hPre.1, hImp _ _ hPre.2⟩
  | getOff f => exact hImp _ _ hPre
  | mark m =>
    cases m with
    | writei i off len | writeEnd i => exact hImp _ _ hPre
    | _ => exact hPre.elim
  | _ => exact hPre.elim

theorem outPre_mono (hImp : ∀ b o, Q b o → Q' b o) {c : Cmd β} (hPre : outPre sb W ip c Q) :
    outPre sb W ip c Q' := by
  cases c with
  | lock j => exact ⟨hPre.1, fun T hT => hImp _ _ (hPre.2 T hT)⟩
  | beginOp | commit | iput j => exact hImp _ _ hPre
  | endOp => exact fun last => hImp _ _ (hPre last)
  | _ => exact hPre.elim

def tenureRules (sb : Superblock) (W : Sharing) (ip : Nat) :
    Rules (Noted Cmd Transfer) (Option Tenure) where
  pre := tenurePre sb W ip
  mono := by
    intro β c Q Q' hImp o hPre
    cases c with
    | cmd c =>
      cases o with
      | none => exact outPre_mono hImp hPre
      | some T =>
        rcases hPre with hInner | hHeld
        · exact Or.inl ((inodeRules sb ip).mono c (fun b v => hImp b _) hInner)
        · exact Or.inr (heldPre_mono hImp hHeld)
    | note e b =>
      cases o with
      | none => exact hPre.elim
      | some T => exact ⟨hPre.1, hImp _ _ hPre.2⟩

-- Pieces of the Calls

variable {α : Type}

theorem wp_inner {p : FsProg α} {Q : α → ILoc → Prop} (hWp : (inodeRules sb ip).wp p Q T.loc) :
    (tenureRules sb W ip).wp (unnoted p) (fun a o => ∃ v, o = some { T with loc := v } ∧ Q a v)
      (some T) := by
  induction p generalizing T with
  | ret a => exact ⟨T.loc, rfl, hWp⟩
  | op c k ih =>
    refine Or.inl ((inodeRules sb ip).mono c ?_ hWp)
    intro b v hRest
    exact ih b (T := { T with loc := v }) hRest

/- A tenure begins with the inode's lock. -/
theorem wp_ilockNoted {f : Unit → NotedProg α} {Q : α → Option Tenure → Prop}
    (hRest : ∀ T, T.Settled sb W → (tenureRules sb W ip).wp (f ()) Q (some T)) :
    (tenureRules sb W ip).wp (unnoted (ilock ip) >>= f) Q
      none := ⟨rfl, fun T hT => Or.inr ⟨rfl, hRest T hT⟩⟩

theorem wp_beginOpNoted {f : Unit → NotedProg α} {Q : α → Option Tenure → Prop}
    (hRest : (tenureRules sb W ip).wp (f ()) Q none) :
    (tenureRules sb W ip).wp (unnoted (call .beginOp) >>= f) Q none := hRest

theorem wp_writeiNoted (hSb : sb.Ok) (hSound : T.loc.Sound sb) (src : List UInt8) (off : Nat) :
    (tenureRules sb W ip).wp (unnoted (writei sb ip src off))
      (fun n o => ∃ v, o = some { T with loc := v } ∧ WritePost sb T.loc src off n v) (some T) := by
  unfold writei
  simp only [bind_eq, unnoted_bind]
  refine Or.inr (wp_bind_of (p := unnoted (writeiBody sb ip src off))
    (wp_inner (wp_writeiBody hSb hSound)) ?_)
  rintro n o ⟨v, rfl, hPost⟩
  exact Or.inr ⟨v, rfl, hPost⟩

theorem wp_getOffNoted {f : Nat} {k : Nat → NotedProg α} {Q : α → Option Tenure → Prop}
    (hRest : (tenureRules sb W ip).wp (k (T.off f)) Q (some T)) : (tenureRules sb W ip).wp
      (unnoted (call (.getOff f)) >>= k) Q (some T) := Or.inr hRest

theorem wp_startNoted {f : Nat} {k : Nat → NotedProg α} {Q : α → Option Tenure → Prop}
    (hRest : (tenureRules sb W ip).wp (k (if W.app f then T.loc.st.size.toNat
        else T.off f)) Q (some T)) : (tenureRules sb W ip).wp (unnoted
        (if W.app f then pure T.loc.st.size.toNat
        else call (.getOff f)) >>= k) Q (some T) := by
  cases hApp : W.app f with
  | true =>
    rw [hApp] at hRest
    exact hRest
  | false =>
    rw [hApp] at hRest
    exact wp_getOffNoted hRest

theorem wp_getStateNoted {k : InodeState → NotedProg α} {Q : α → Option Tenure → Prop}
    (hRest : (tenureRules sb W ip).wp (k T.loc.st) Q (some T)) : (tenureRules sb W ip).wp
      (unnoted (call (.getState ip)) >>= k) Q (some T) := Or.inl ⟨rfl, hRest⟩

theorem wp_note {e : Transfer} {k : Unit → NotedProg α} {Q : α → Option Tenure → Prop}
    (hFits : e.Fits W.app (W.now T.hist)) (hRest : (tenureRules sb W ip).wp (k ()) Q
      (some { T with hist := T.hist ++ [e] })) :
    (tenureRules sb W ip).wp (note e >>= k) Q (some T) := ⟨hFits, hRest⟩

theorem wp_setOffNoted {f off : Nat} {p : FsProg α} {Q : α → Option Tenure → Prop}
    (hOpen : W.opened f) (hRest : (tenureRules sb W ip).wp (unnoted p) Q (some
        { T with
          off := update T.off f (off % 2 ^ 32) })) : (tenureRules sb W ip).wp
      (unnoted (call (.setOff f off) >>= fun _ => p)) Q (some T) := Or.inr ⟨hOpen, hRest⟩

theorem wp_iunlockNoted {p : FsProg α} {Q : α → Option Tenure → Prop} (hSettled : T.Settled sb W)
    (hRest : (tenureRules sb W ip).wp (unnoted p) Q none) : (tenureRules sb W ip).wp
      (unnoted (iunlock ip >>= fun _ => p)) Q (some T) := Or.inr ⟨rfl, hSettled, hRest⟩

theorem wp_endOpNoted {p : FsProg α} {Q : α → Option Tenure → Prop}
    (hRest : (tenureRules sb W ip).wp (unnoted p) Q none) : (tenureRules sb W ip).wp
      (unnoted (endOp >>= fun _ => p)) Q none := by
  intro last
  cases last with
  | true | false => exact hRest

-- Settling

variable {chunk src : List UInt8} {n start : Nat}

variable {v : ILoc}

/- What a write does to the file, short or not. -/
theorem WritePost.intact {v v' : ILoc} {off : Nat} (hv : v.Intact sb)
    (hPost : WritePost sb v src off n v') : v'.Intact sb ∧ v'.file = v.file.write src off n := by
  rcases Nat.eq_zero_or_pos n with rfl | hPos
  · exact hPost.intact_zero hv
  · exact hPost.intact_pos hv hPos

/- Blocks are taken, and none are left after a short write. -/
theorem WritePost.free {v v' : ILoc} {off : Nat} {F : Finset Nat}
    (hF : v.free = some F) (hPost : WritePost sb v src off n v') :
    (∃ F', v'.free = some F' ∧ F' ⊆ F) ∧ (n < min src.length (MAXFILE * BSIZE - off) →
        v'.NoneFree 0 sb.size) := by
  rcases hPost.loop with ⟨v₁, ⟨_, hWritten, hShort, _⟩, hZero, hPos⟩
  have hFree : v'.free = v₁.free := by
    rcases Nat.eq_zero_or_pos n with hn | hn
    · rw [hZero hn]
    · rcases hPos hn with ⟨t, hv'⟩
      rw [hv']
  constructor
  · rw [hFree]
    exact hWritten.free F hF
  · intro hLt F' hF'
    rw [hFree] at hF'
    exact (hShort hLt).1 F' hF'

theorem Sharing.now_concat (hist : List Transfer) (e : Transfer) :
    W.now (hist ++ [e]) = (W.now hist).after W.app e := by
  unfold Sharing.now
  rw [Shared.afterAll_append]
  rfl

/- No offset is past the largest file, which is small. -/
theorem mod_of_le_max (hn : n ≤ MAXFILE * BSIZE) : n % 2 ^ 32 = n := by
  simp only [MAXFILE, NDIRECT, NINDIRECT, NDOUBLE_INDIRECT, BSIZE] at hn
  omega

theorem Tenure.Settled.read (hT : T.Settled sb W) (t : UInt32) {f : Nat} {bytes : List UInt8}
    {copied : Bool} {off : Nat → Nat} (hOff : off = ((W.now T.hist).after W.app
      (.read f start bytes copied)).off) : Tenure.Settled sb W
      { loc := { T.loc with st := { T.loc.st with atime := t } }
        off := off
        hist := T.hist ++ [.read f start bytes copied] } := by
  have hv := hT.intact
  refine ⟨⟨⟨hv.sound.trunc, hv.sound.tree, hv.sound.below, hv.sound.free⟩, hv.size, hv.zero⟩,
    hT.known, ?_, ?_, ?_⟩
  · rw [Sharing.now_concat]
    exact hT.file
  · rw [Sharing.now_concat]
    exact hOff
  · rintro ⟨b, hb, hShort⟩
    rcases List.mem_append.mp hb with hOld | hNew
    · exact hT.full ⟨b, hOld, hShort⟩
    · rw [List.mem_singleton.mp hNew] at hShort
      exact hShort.elim

theorem Tenure.Settled.wrote (hT : T.Settled sb W) {f : Nat}
    (hPost : WritePost sb T.loc chunk start n v) {off : Nat → Nat}
    (hOff : off = ((W.now T.hist).after W.app (.wrote f start chunk n)).off) : Tenure.Settled sb W
      { loc := v
        off := off
        hist := T.hist ++ [.wrote f start chunk n] } := by
  rcases hT.known with ⟨F, hF⟩
  rcases hPost.intact hT.intact with ⟨hIntact, hFile⟩
  rcases hPost.free hF with ⟨⟨F', hF', hSub⟩, hFull⟩
  refine ⟨hIntact, ⟨F', hF'⟩, ?_, ?_, ?_⟩
  · rw [Sharing.now_concat]
    show v.file = (W.now T.hist).file.write chunk start n
    rw [hFile, hT.file]
  · rw [Sharing.now_concat]
    exact hOff
  · rintro ⟨b, hb, hShort⟩
    rcases List.mem_append.mp hb with hOld | hNew
    · intro G hG c hLo hHi hMem
      obtain rfl := Option.some.inj (hF'.symm.trans hG)
      exact hT.full ⟨b, hOld, hShort⟩ F hF c hLo hHi (hSub hMem)
    · rw [List.mem_singleton.mp hNew] at hShort
      exact hFull hShort

-- The Calls

variable {f : Nat}

theorem fits_read (hT : T.Settled sb W) {l : Nat}
    (hSize : T.off f < T.loc.st.size.toNat) (copied : Bool) : (Transfer.read f (T.off f)
      (T.loc.readable (min l (T.loc.st.size.toNat - T.off f))
        (T.off f)) copied).Fits W.app (W.now T.hist) := by
  have hLen := T.loc.file_length
  have hMax := hT.intact.size
  have hLt : min l (T.loc.st.size.toNat - T.off f) < 2 ^ 32 := by
    have hSmall := T.loc.st.size.toNat_lt
    omega
  rw [ILoc.readable_eq hLt]
  refine ⟨by rw [hT.off], ?_, ?_⟩
  · rw [← hT.file, List.length_take, List.length_drop]
    omega
  · rw [← hT.file]
    simp

theorem wp_inodeReadNoted (hOpen : W.opened f) (len : Nat) (copied : Bool) :
    (tenureRules sb W ip).wp (inodeReadNoted ip f len copied) (fun _ o => o = none) none := by
  unfold inodeReadNoted
  apply wp_ilockNoted
  intro T hT
  apply wp_getOffNoted
  apply wp_getStateNoted
  dsimp only
  split
  · apply wp_iunlockNoted hT
    exact rfl
  · rename_i hSize
    refine wp_bind_of (wp_inner (wp_readi hT.intact.sound.ok hT.intact.sound.tree _ _)) ?_
    rintro bs o ⟨v, rfl, rfl, t, rfl⟩
    have hFits := fits_read (f := f) hT (l := len) (by omega) copied
    generalize T.loc.readable _ _ = bs at *
    refine wp_note hFits ?_
    split
    · rename_i hMore
      apply wp_setOffNoted hOpen
      refine wp_iunlockNoted (hT.read t ?_) ?_
      · have hEnd := hFits.2.1
        rw [← hT.file, ILoc.file_length] at hEnd
        rw [mod_of_le_max (hEnd.trans hT.intact.size)]
        simp only [Shared.after, hMore.1, if_true, hT.off]
      · exact rfl
    · rename_i hStay
      refine wp_iunlockNoted (hT.read t ?_) ?_
      · rw [hFits.off_of_still ?_]
        · exact hT.off
        · intro g
          simp only [Transfer.moved]
          split
          · rename_i hg
            have hNil : bs = [] := by
              by_contra hne
              exact hStay ⟨hg.2, hne⟩
            simp [hNil]
          · rfl
      · exact rfl

theorem fits_wrote (hT : T.Settled sb W)
    (hStart : start = if W.app f then T.loc.st.size.toNat else T.off f)
    (hSize : start ≤ T.loc.st.size.toNat) (hLen : n ≤ chunk.length)
    (hChunk : chunk.length ≤ WRITE_CHUNK) : (Transfer.wrote f start chunk n).Fits W.app
      (W.now T.hist) := by
  rw [← T.loc.file_length] at hStart hSize
  refine ⟨?_, ?_, hLen, hChunk⟩
  · rw [← hT.file, ← hT.off]
    exact hStart
  · rw [← hT.file]
    exact hSize

/- After `writei`: store the offset and leave. -/
theorem wp_leaveNoted {v : ILoc}
    (hOpen : W.opened f) (hT : T.Settled sb W) (hPost : WritePost sb T.loc chunk start n v)
    (hFits : (Transfer.wrote f start chunk n).Fits W.app (W.now T.hist)) : (tenureRules sb W ip).wp
      (unnoted do
        if 0 < n ∧ !W.app f then
          call (.setOff f (start + n))
        iunlock ip
        endOp)
      (fun _ o => o = none)
      (some
        { loc := v
          off := T.off
          hist := T.hist ++ [.wrote f start chunk n] }) := by
  have hEnd : (tenureRules sb W ip).wp (unnoted endOp) (fun _ o => o = none) none := by
    intro last
    cases last with
    | true | false => exact rfl
  split
  · rename_i hMore
    have hApp : W.app f = false := by simpa using hMore.2
    refine wp_setOffNoted hOpen (wp_iunlockNoted (hT.wrote hPost ?_) hEnd)
    rw [mod_of_le_max (hPost.fits hMore.1)]
    simp [Shared.after, hApp, hT.off]
  · rename_i hStay
    refine wp_iunlockNoted (hT.wrote hPost ?_) hEnd
    rw [hFits.off_of_still ?_]
    · exact hT.off
    · intro g
      simp only [Transfer.moved]
      split
      · rename_i hg
        by_contra hn
        exact hStay ⟨Nat.pos_of_ne_zero hn, by simp [hg.2]⟩
      · rfl

theorem wp_inodeWriteNoted (hSb : sb.Ok) (hOpen : W.opened f) (len : Nat) (data : List UInt8)
    (fuel written : Nat) : (tenureRules sb W ip).wp (inodeWriteNoted sb ip f len data (W.app f) fuel
        written) (fun _ o => o = none) none := by
  induction fuel generalizing written with
  | zero => exact rfl
  | succ fuel ih =>
    unfold inodeWriteNoted
    split
    · dsimp only
      generalize hChunk : min (len - written) WRITE_CHUNK = chunk
      split
      · exact rfl
      · apply wp_beginOpNoted
        apply wp_ilockNoted
        intro T hT
        apply wp_getStateNoted
        apply wp_startNoted
        generalize hStart : (if W.app f then T.loc.st.size.toNat
            else T.off f) = start
        split
        · apply wp_iunlockNoted hT
          apply wp_endOpNoted
          exact rfl
        · rename_i hSize
          refine wp_bind_of (wp_writeiNoted hSb hT.intact.sound _ _) ?_
          rintro n o ⟨v, rfl, hPost⟩
          have hLen : ((data.drop written).take chunk).length ≤ WRITE_CHUNK := by
            rw [List.length_take]
            omega
          have hFits := fits_wrote hT hStart.symm (by omega) hPost.le hLen
          refine wp_note hFits (wp_bind_of (wp_leaveNoted (T := T) hOpen hT hPost hFits) ?_)
          rintro _ o rfl
          split
          · exact rfl
          · exact ih _
    · exact rfl

end PlayXv6
