import PlayXv6.Fs.DataRefine
import PlayXv6.Sys.Files

/-
  Transfers on one shared file, one after the other.

  A transfer reads or writes some bytes through an open file
  description.  Descriptions with `O_APPEND` write at the end
  of the file, the others write at their offset, and all of
  them read at their offset.  The theorems are about any
  sequence of transfers of which each fits the state the
  earlier ones left behind.

  Main declarations:
    * `Transfer`
    * `Serial.off_eq`
-/

namespace PlayXv6

namespace ByteFile

variable {f : ByteFile} {src : List UInt8} {off n y : Nat}

/- A write that starts inside the file leaves no hole. -/
theorem write_length (hOff : off ≤ f.length) :
    (f.write src off n).length = max f.length (off + n) := by
  unfold write
  split
  · omega
  · simp

theorem write_inside (hLen : n ≤ src.length) (hLo : off ≤ y) (hHi : y < off + n) :
    (f.write src off n)[y]? = src[y - off]? := by
  have hIn : y - off < src.length := by omega
  unfold write
  rw [if_neg (by omega), List.getElem?_map, List.getElem?_range (by omega)]
  simp [hLo, hHi, hIn]

theorem write_outside (hOff : off ≤ f.length) (hOut : ¬ (off ≤ y ∧ y < off + n)) :
    (f.write src off n)[y]? = f[y]? := by
  by_cases hy : y < f.length
  · unfold write
    split
    · rfl
    · rw [List.getElem?_map, List.getElem?_range (by omega)]
      simp [hOut, hy]
  · have hLen : (f.write src off n).length = max f.length (off + n) := write_length hOff
    rw [List.getElem?_eq_none (by omega), List.getElem?_eq_none (by omega)]

end ByteFile

-- Transfers

/-
  One transfer through the description `f`: a chunk of which
  `n` bytes were written, or the bytes read and whether they
  could be copied to the caller.
-/
inductive Transfer where
  | wrote (f start : Nat) (chunk : List UInt8) (n : Nat)
  | read (f start : Nat) (bytes : List UInt8) (copied : Bool)
deriving DecidableEq, Repr

namespace Transfer

def via : Transfer → Nat
  | wrote f _ _ _ => f
  | read f _ _ _ => f

def stop : Transfer → Nat
  | wrote _ start _ n => start + n
  | read _ start bytes _ => start + bytes.length

/- The transfer wrote position `y`. -/
def Wrote (y : Nat) : Transfer → Prop
  | wrote _ start _ n => start ≤ y ∧ y < start + n
  | read _ _ _ _ => False

def IsRead : Transfer → Prop
  | wrote _ _ _ _ => False
  | read _ _ _ _ => True

/-
  Of two chunks written through one description, or both
  through descriptions with `O_APPEND`, the later one starts
  after the earlier one, and so does the later of two
  successful reads through one description.
-/
def Apart (app : Nat → Bool) : Transfer → Transfer → Prop
  | wrote f start _ n, wrote g start' _ _ =>
    f = g ∨ app f = true ∧ app g = true → start + n ≤ start'
  | read f start bytes true, read g start' _ true => f = g → start + bytes.length ≤ start'
  | _, _ => True

/- By how much the offset of description `f` advances. -/
def moved (app : Nat → Bool) (f : Nat) : Transfer → Nat
  | wrote g _ _ n => if g = f ∧ app g = false then n else 0
  | read g _ bytes copied => if g = f ∧ copied = true then bytes.length else 0

end Transfer

/- A file and the offsets of the descriptions on it. -/
structure Shared where
  file : ByteFile
  off : Nat → Nat

def Shared.after (app : Nat → Bool) (x : Shared) : Transfer → Shared
  | .wrote f start chunk n =>
    { file := x.file.write chunk start n
      off := if app f then x.off
        else Function.update x.off f (start + n) }
  | .read f start bytes copied =>
    { x with
      off :=
        if copied then
          Function.update x.off f (start + bytes.length)
        else x.off }

/- The transfer starts where the description says, and a read returns the bytes that are there. -/
def Transfer.Fits (app : Nat → Bool) (x : Shared) : Transfer → Prop
  | .wrote f start chunk n =>
    start = (if app f then x.file.length else x.off f) ∧
      start ≤ x.file.length ∧ n ≤ chunk.length ∧ chunk.length ≤ WRITE_CHUNK
  | .read f start bytes _ =>
    start = x.off f ∧ start + bytes.length ≤ x.file.length ∧
      bytes = (x.file.drop start).take bytes.length

def Shared.afterAll (app : Nat → Bool) (x : Shared) (es : List Transfer) : Shared :=
  es.foldl (Shared.after app) x

/- Every transfer fits what the earlier ones left. -/
def Serial (app : Nat → Bool) : Shared → List Transfer → Prop
  | _, [] => True
  | x, e :: es => e.Fits app x ∧ Serial app (x.after app e) es

variable {app : Nat → Bool} {x : Shared} {e : Transfer}

theorem Transfer.Fits.off_after (hFits : e.Fits app x) (f : Nat) :
    (x.after app e).off f = x.off f + e.moved app f := by
  cases e with
  | wrote g start chunk n =>
    rcases hFits with ⟨hStart, _⟩
    cases hApp : app g with
    | true => simp [Shared.after, Transfer.moved, hApp]
    | false =>
      simp only [hApp, Bool.false_eq_true, if_false] at hStart
      by_cases hg : f = g
      · simp [Shared.after, Transfer.moved, hApp, hg, hStart]
      · simp [Shared.after, Transfer.moved, hApp, hg, Ne.symm hg]
  | read g start bytes copied =>
    rcases hFits with ⟨hStart, _⟩
    cases copied with
    | false => simp [Shared.after, Transfer.moved]
    | true =>
      by_cases hg : f = g
      · simp [Shared.after, Transfer.moved, hg, hStart]
      · simp [Shared.after, Transfer.moved, hg, Ne.symm hg]

theorem Transfer.Fits.off_of_still (hFits : e.Fits app x) (hStill : ∀ f, e.moved app f = 0) :
    (x.after app e).off = x.off := by
  funext f
  rw [hFits.off_after f, hStill f, Nat.add_zero]

theorem Transfer.Fits.length_after (hFits : e.Fits app x) : (x.after app e).file.length =
      max x.file.length e.stop := by
  cases e with
  | wrote g start chunk n => exact ByteFile.write_length hFits.2.1
  | read g start bytes copied => exact (max_eq_left hFits.2.1).symm

theorem Transfer.Fits.getElem?_after (hFits : e.Fits app x) {y : Nat} (hOut : ¬ e.Wrote y) :
    (x.after app e).file[y]? = x.file[y]? := by
  cases e with
  | wrote g start chunk n => exact ByteFile.write_outside hFits.2.1 hOut
  | read g start bytes copied => rfl

-- Sequences of Transfers

variable {a : Transfer} {es fs : List Transfer}

@[simp] theorem Shared.afterAll_nil : x.afterAll app [] = x := rfl

@[simp] theorem Shared.afterAll_cons : x.afterAll app (e :: es) =
      (x.after app e).afterAll app es := rfl

theorem Shared.afterAll_append : x.afterAll app (es ++ fs) = (x.afterAll app es).afterAll app fs :=
  List.foldl_append

theorem serial_append : Serial app x (es ++ fs) ↔ Serial app x es ∧
        Serial app (x.afterAll app es) fs := by
  induction es generalizing x with
  | nil => simp [Serial]
  | cons e es ih => simp [Serial, ih, and_assoc]

/- A sequence is extended by a transfer that fits its end. -/
theorem serial_concat : Serial app x (es ++ [e]) ↔
      Serial app x es ∧ e.Fits app (x.afterAll app es) := by simp [serial_append, Serial]

/- The offset of a description is the sum of its moves. -/
theorem Serial.off_eq (hSerial : Serial app x es) (f : Nat) : (x.afterAll app es).off f =
      x.off f + (es.map (Transfer.moved app f)).sum := by
  induction es generalizing x with
  | nil => simp
  | cons e es ih =>
    rcases hSerial with ⟨hFits, hRest⟩
    rw [Shared.afterAll_cons, ih hRest, hFits.off_after f, List.map_cons, List.sum_cons,
      Nat.add_assoc]

theorem Serial.length_le (hSerial : Serial app x es) :
    x.file.length ≤ (x.afterAll app es).file.length := by
  induction es generalizing x with
  | nil => exact Nat.le_refl _
  | cons e es ih =>
    rcases hSerial with ⟨hFits, hRest⟩
    have hGrow := hFits.length_after
    have hNext := ih hRest
    rw [Shared.afterAll_cons]
    omega

/- A later transfer starts after an earlier one of its kind. -/
theorem Serial.apart_of_mem (hSerial : Serial app x (a :: es)) (hMem : e ∈ es) : a.Apart app e := by
  rcases hSerial with ⟨hFirst, hRest⟩
  rcases List.append_of_mem hMem with ⟨before, rest, rfl⟩
  rcases serial_append.mp hRest with ⟨hBefore, hFits, _⟩
  have hLen := hBefore.length_le
  have hStop := hFirst.length_after
  cases a with
  | wrote f start chunk n =>
    cases e with
    | read g start' bytes copied => trivial
    | wrote g start' chunk' n' =>
      intro hKind
      have hStart := hFits.1
      have hOff := hBefore.off_eq f
      rw [hFirst.off_after f] at hOff
      simp only [Transfer.stop] at hStop
      cases hApp : app f with
      | true =>
        have hg : app g = true := by
          rcases hKind with rfl | ⟨_, hg⟩
          · exact hApp
          · exact hg
        rw [hg, if_pos rfl] at hStart
        omega
      | false =>
        have hg : f = g := by
          rcases hKind with hg | ⟨hf, _⟩
          · exact hg
          · simp [hApp] at hf
        subst hg
        have hBegin := hFirst.1
        simp only [hApp, Bool.false_eq_true, if_false] at hStart hBegin
        have hMoved : Transfer.moved app f (.wrote f start chunk n) = n := by
          simp [Transfer.moved, hApp]
        omega
  | read f start bytes copied =>
    cases e with
    | wrote g start' chunk' n' => cases copied <;> trivial
    | read g start' bytes' copied' =>
      cases copied with
      | false => trivial
      | true =>
        cases copied' with
        | false => trivial
        | true =>
          rintro rfl
          have hStart := hFits.1
          have hBegin := hFirst.1
          have hOff := hBefore.off_eq f
          rw [hFirst.off_after f] at hOff
          have hMoved : Transfer.moved app f (.read f start bytes true) =
                bytes.length := by simp [Transfer.moved]
          omega

theorem Serial.pairwise_apart (hSerial : Serial app x es) : es.Pairwise (Transfer.Apart app) := by
  induction es generalizing x with
  | nil => exact List.Pairwise.nil
  | cons e es ih =>
    exact List.pairwise_cons.mpr ⟨fun b hb => hSerial.apart_of_mem hb, ih hSerial.2⟩

/- Without reads, the offset of a description passes only over positions written through it. -/
theorem Serial.filled_of_off (hSerial : Serial app x es) {f y : Nat}
    (hRead : ∀ e ∈ es, e.via = f → ¬ e.IsRead) (hLo : x.off f ≤ y)
    (hHi : y < (x.afterAll app es).off f) : ∃ e ∈ es, e.via = f ∧ e.Wrote y := by
  induction es generalizing x with
  | nil =>
    rw [Shared.afterAll_nil] at hHi
    omega
  | cons e es ih =>
    rcases hSerial with ⟨hFits, hRest⟩
    by_cases hy : (x.after app e).off f ≤ y
    · rcases ih hRest (fun b hb => hRead b (List.mem_cons_of_mem _ hb))
        hy hHi with ⟨b, hb, hVia, hWrote⟩
      exact ⟨b, List.mem_cons_of_mem _ hb, hVia, hWrote⟩
    · refine ⟨e, List.mem_cons_self, ?_⟩
      rw [hFits.off_after f] at hy
      have hNot := hRead e List.mem_cons_self
      cases e with
      | read g start bytes copied =>
        have hg : g ≠ f := fun hg => hNot hg trivial
        simp only [Transfer.moved, hg, false_and, if_false] at hy
        omega
      | wrote g start chunk n =>
        have hStart := hFits.1
        simp only [Transfer.moved] at hy
        split at hy
        · rename_i hOwn
          rcases hOwn with ⟨rfl, hApp⟩
          simp only [hApp, Bool.false_eq_true, if_false] at hStart
          exact ⟨rfl, by omega, by omega⟩
        · omega

/- The file grows only over written positions. -/
theorem Serial.filled_of_length (hSerial : Serial app x es) {y : Nat} (hLo : x.file.length ≤ y)
    (hHi : y < (x.afterAll app es).file.length) : ∃ e ∈ es, e.Wrote y := by
  induction es generalizing x with
  | nil =>
    rw [Shared.afterAll_nil] at hHi
    omega
  | cons e es ih =>
    rcases hSerial with ⟨hFits, hRest⟩
    by_cases hy : (x.after app e).file.length ≤ y
    · rcases ih hRest hy hHi with ⟨b, hb, hWrote⟩
      exact ⟨b, List.mem_cons_of_mem _ hb, hWrote⟩
    · refine ⟨e, List.mem_cons_self, ?_⟩
      rw [hFits.length_after] at hy
      cases e with
      | read g start bytes copied =>
        have hEnd := hFits.2.1
        simp only [Transfer.stop] at hy
        omega
      | wrote g start chunk n =>
        have hStart := hFits.2.1
        simp only [Transfer.stop] at hy
        exact ⟨by omega, by omega⟩

/- A position keeps its byte until it is written again. -/
theorem Serial.getElem?_kept (hSerial : Serial app x es) {y : Nat} (hOut : ∀ e ∈ es, ¬ e.Wrote y) :
    (x.afterAll app es).file[y]? = x.file[y]? := by
  induction es generalizing x with
  | nil => rfl
  | cons e es ih =>
    rcases hSerial with ⟨hFits, hRest⟩
    rw [Shared.afterAll_cons, ih hRest fun b hb => hOut b (List.mem_cons_of_mem _ hb)]
    exact hFits.getElem?_after (hOut e List.mem_cons_self)

/- A chunk is in the file unless it is written over. -/
theorem Serial.getElem?_landed {f start n y : Nat} {chunk : List UInt8} (hSerial : Serial app x
      (.wrote f start chunk n :: es)) (hLo : start ≤ y) (hHi : y < start + n)
    (hOut : ∀ e ∈ es, ¬ e.Wrote y) : ((x.after app (.wrote f start chunk n)).afterAll app
      es).file[y]? = chunk[y - start]? := by
  rcases hSerial with ⟨hFits, hRest⟩
  rw [hRest.getElem?_kept hOut]
  exact ByteFile.write_inside hFits.2.2.1 hLo hHi

end PlayXv6
