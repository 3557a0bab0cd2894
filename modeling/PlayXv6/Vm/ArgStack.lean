import PlayXv6.Lib.Ram
import PlayXv6.Vm.Layout

/-
  The arguments of `execve`: how they are read from the
  caller's memory and laid out on the new stack.

  A string is given by its bytes.  Reading turns every byte
  of the caller into a character, so a byte from 0x80 on
  takes two bytes of the string.

  Main declarations:
    * `placeArgvEnvpOnStack`
    * `execve_args_fit_iff`, `placeArgvEnvpOnStack_onStack`
-/

namespace PlayXv6

variable {arr str strVa stackPa : Nat} {p : Nat × List UInt8} {ss : List (List UInt8)}

namespace Vm

abbrev MAX_ARGS : Nat := 16
abbrev MAX_ARG_LEN : Nat := 128
abbrev STACK_TOP_PAGE_VA : Nat := STACK_VA_TOP - PGSIZE

/- `va + i` of two `usize` values. -/
def addr (va i : Nat) : Nat := (va + i) % USIZE

/- The bytes `String::push(byte as char)` appends. -/
def pushByte (b : UInt8) : List UInt8 := String.utf8EncodeChar (Char.ofNat b.toNat)

/-
  The loops that read strings, over any way to translate an
  address and to load bytes from the result.
-/
section Loops

universe u

variable {M : Type → Type u} [Monad M] (translate : Nat → M (Option Nat))
  (load : Nat → Nat → Nat → M (List UInt8))

/- From byte `i` on, with `n` more bytes allowed. -/
def cstringLoop (va i : Nat) : Nat → M (Option (List UInt8))
  | 0 => return none
  | n + 1 => do
      match ← translate (addr va i) with
      | none => return none
      | some kva =>
        let b ← load (addr va i) kva 1
        if ofLe b = 0 then
          return some []
        else
          match ← cstringLoop va (i + 1) n with
          | none => return none
          | some s => return some (b.flatMap pushByte ++ s)

/-
  From element `i` on, with `n` more allowed.  A pointer is
  read as a whole at the translation of its first byte.
-/
def argvLoop (argvVa maxLen i : Nat) : Nat → M (Option (List (List UInt8)))
  | 0 => return none
  | n + 1 => do
      match ← translate (addr argvVa (i * 8)) with
      | none => return none
      | some kva =>
        let b ← load (addr argvVa (i * 8)) kva 8
        if ofLe b = 0 then
          return some []
        else
          match ← cstringLoop translate load (ofLe b) 0 maxLen with
          | none => return none
          | some arg =>
            match ← argvLoop argvVa maxLen (i + 1) n with
            | none => return none
            | some argv => return some (arg :: argv)

def argvAt (argvVa maxArgs maxLen : Nat) : M (Option (List (List UInt8))) :=
  if argvVa = 0 then return some []
  else argvLoop translate load argvVa maxLen 0 maxArgs

end Loops

/- The vector of a caller whose memory nobody changes. -/
def readUserArgv (translate : Nat → Option Nat) (m : Ram) (argvVa maxArgs maxLen : Nat) :
    Option (List (List UInt8)) :=
  argvAt (M := Id) translate (fun _ pa n => m.read pa n) argvVa maxArgs maxLen

/- The bytes of strings, each with its NUL. -/
def stringsSize (ss : List (List UInt8)) : Nat := (ss.map fun s => s.length + 1).sum

def argvArrayBytes (argv : List (List UInt8)) : Nat := 8 * (argv.length + 1)

def envpArrayBytes (envp : List (List UInt8)) : Nat :=
  if envp.length = 0 then 0 else 8 * (envp.length + 1)

def layoutTotal (argv envp : List (List UInt8)) : Nat :=
  8 + argvArrayBytes argv + envpArrayBytes envp + (stringsSize argv + stringsSize envp + 7) / 8 * 8

/-
  The loop over one vector: strings go to `str`, which the
  program sees at `strVa`, and pointers to `arr`.
-/
def placeStrings (m : Ram) (arr str strVa : Nat) : List (List UInt8) → Ram × Nat × Nat
  | [] => (m, str, strVa)
  | s :: ss =>
    let m₁ := m.write str s
    let m₂ := m₁.write (str + s.length) [0]
    let m₃ := m₂.write arr (toLe 8 strVa)
    placeStrings m₃ (arr + 8) (str + (s.length + 1)) (strVa + (s.length + 1)) ss

/-
  The memory, the stack pointer and the addresses of the two
  arrays; none is the failed assertion.
-/
def placeArgvEnvpOnStack (m : Ram) (stackPa : Nat) (argv envp : List (List UInt8)) :
    Option (Ram × Nat × Nat × Nat) :=
  let total := layoutTotal argv envp
  if total < PGSIZE then
    let spVa := STACK_VA_TOP - total
    let argvArrayVa := spVa + 8
    let envpArrayVa := if envp.length = 0 then 0 else argvArrayVa + argvArrayBytes argv
    let stringsStartVa := spVa + 8 + argvArrayBytes argv + envpArrayBytes envp
    let spOff := spVa - STACK_TOP_PAGE_VA
    let argvOff := argvArrayVa - STACK_TOP_PAGE_VA
    let envpOff := if envpArrayVa = 0 then 0 else envpArrayVa - STACK_TOP_PAGE_VA
    let stringsOff := stringsStartVa - STACK_TOP_PAGE_VA
    let m₁ := m.write (stackPa + spOff) (toLe 8 argv.length)
    let r := placeStrings m₁ (stackPa + argvOff) (stackPa + stringsOff) stringsStartVa argv
    let m₂ := r.1.write (stackPa + argvOff + argv.length * 8) (toLe 8 0)
    if envp.length ≠ 0 then
      let r' := placeStrings m₂ (stackPa + envpOff) r.2.1 r.2.2 envp
      let m₃ := r'.1.write (stackPa + envpOff + envp.length * 8) (toLe 8 0)
      some (m₃, spVa, argvArrayVa, envpArrayVa)
    else
      some (m₂, spVa, argvArrayVa, envpArrayVa)
  else
    none

-- The Caller's Strings

variable {translate : Nat → Option Nat} {user : Ram}

/- The bytes of the caller's string, as they are in memory. -/
def callerBytesFrom (translate : Nat → Option Nat) (user : Ram) (va i : Nat) :
    Nat → Option (List UInt8)
  | 0 => none
  | n + 1 => do
      let kva ← translate (addr va i)
      if user kva = 0 then some []
      else return user kva :: (← callerBytesFrom translate user va (i + 1) n)

def callerArgvFrom (translate : Nat → Option Nat) (user : Ram) (argvVa i : Nat) :
    Nat → Option (List (List UInt8))
  | 0 => none
  | n + 1 => do
      let kva ← translate (addr argvVa (i * 8))
      if user.word kva = 0 then some []
      else
        let arg ← callerBytesFrom translate user (user.word kva) 0 MAX_ARG_LEN
        return arg :: (← callerArgvFrom translate user argvVa (i + 1) n)

/-
  The caller's vector at an address, within the limits on the
  number of strings and on their lengths.
-/
def callerArgv (translate : Nat → Option Nat) (user : Ram) (argvVa : Nat) :
    Option (List (List UInt8)) :=
  if argvVa = 0 then some [] else callerArgvFrom translate user argvVa 0 MAX_ARGS

/- What the caller's vector takes on the stack. -/
def callerSize (raws : List (List UInt8)) : Nat :=
  (raws.map fun r => r.length + r.countP (128 ≤ ·) + 1).sum

theorem pushByte_length (b : UInt8) : (pushByte b).length = 1 + if 128 ≤ b then 1 else 0 := by
  have hAll : ∀ n : Fin 256, (pushByte (UInt8.ofFin n)).length =
      1 + if 128 ≤ UInt8.ofFin n then 1 else 0 := by decide +kernel
  exact hAll b.toFin

theorem length_flatMap_pushByte (r : List UInt8) :
    (r.flatMap pushByte).length = r.length + r.countP (128 ≤ ·) := by
  induction r with
  | nil => rfl
  | cons b r ih =>
    rw [List.flatMap_cons, List.length_append, pushByte_length, ih, List.countP_cons,
      List.length_cons]
    simp only [decide_eq_true_eq]
    omega

theorem stringsSize_map_pushByte (raws : List (List UInt8)) :
    stringsSize (raws.map fun r => r.flatMap pushByte) = callerSize raws := by
  unfold stringsSize callerSize
  rw [List.map_map]
  congr 1
  refine List.map_congr_left fun r _ => ?_
  simp only [Function.comp, length_flatMap_pushByte]

theorem cstringLoop_eq (va i n : Nat) :
    cstringLoop (M := Id) translate (fun _ pa n => user.read pa n) va i n =
      (callerBytesFrom translate user va i n).map fun r => r.flatMap pushByte := by
  induction n generalizing i with
  | zero => rfl
  | succ n ih =>
    unfold cstringLoop callerBytesFrom
    rw [ih]
    cases translate (addr va i) with
    | none => rfl
    | some kva =>
      have hByte : user.read kva 1 = [user kva] := rfl
      have hZero : ofLe [user kva] = 0 ↔ user kva = 0 := by simp [ofLe, ← UInt8.toNat_inj]
      by_cases hEnd : user kva = 0
      · rw [Option.bind_eq_bind, Option.bind_some, if_pos hEnd]
        exact if_pos (hByte ▸ hZero.mpr hEnd)
      · rw [Option.bind_eq_bind, Option.bind_some, if_neg hEnd]
        refine (if_neg (hByte ▸ mt hZero.mp hEnd)).trans ?_
        cases callerBytesFrom translate user va (i + 1) n with
        | none => rfl
        | some r => exact congrArg (fun b => some (b ++ r.flatMap pushByte)) (List.append_nil _)

theorem argvLoop_eq (argvVa i n : Nat) :
    argvLoop (M := Id) translate (fun _ pa n => user.read pa n) argvVa MAX_ARG_LEN i n =
      (callerArgvFrom translate user argvVa i n).map fun raws =>
        raws.map fun r => r.flatMap pushByte := by
  induction n generalizing i with
  | zero => rfl
  | succ n ih =>
    unfold argvLoop callerArgvFrom
    rw [ih]
    cases translate (addr argvVa (i * 8)) with
    | none => rfl
    | some kva =>
      by_cases hEnd : user.word kva = 0
      · rw [Option.bind_eq_bind, Option.bind_some, if_pos hEnd]
        exact if_pos hEnd
      · rw [Option.bind_eq_bind, Option.bind_some, if_neg hEnd]
        refine (if_neg hEnd).trans ?_
        have hArg : cstringLoop (M := Id) translate (fun _ pa n => user.read pa n)
            (user.word kva) 0 MAX_ARG_LEN = _ := cstringLoop_eq ..
        rw [Ram.word] at hArg ⊢
        rw [hArg]
        cases callerBytesFrom translate user (ofLe (user.read kva 8)) 0 MAX_ARG_LEN with
        | none => rfl
        | some r => cases callerArgvFrom translate user argvVa (i + 1) n <;> rfl

/- The strings read are the caller's, byte by byte. -/
theorem readUserArgv_eq (argvVa : Nat) : readUserArgv translate user argvVa MAX_ARGS MAX_ARG_LEN =
    (callerArgv translate user argvVa).map fun raws => raws.map fun r => r.flatMap pushByte := by
  unfold readUserArgv argvAt callerArgv
  split
  · rfl
  · exact argvLoop_eq argvVa 0 MAX_ARGS

/- The assertion, without the rounding of the strings. -/
theorem placeArgvEnvpOnStack_ne_none_iff (m : Ram) (stackPa : Nat) (argv envp : List (List UInt8)) :
    placeArgvEnvpOnStack m stackPa argv envp ≠ none ↔
      24 + 8 * argv.length + (if envp.length = 0 then 0 else 8 + 8 * envp.length) +
        stringsSize argv + stringsSize envp ≤ PGSIZE := by
  have hSome : placeArgvEnvpOnStack m stackPa argv envp ≠ none ↔
      layoutTotal argv envp < PGSIZE := by
    unfold placeArgvEnvpOnStack
    by_cases hFits : layoutTotal argv envp < PGSIZE
    · by_cases hEnvp : envp.length = 0 <;> simp [hFits, hEnvp]
    · simp [hFits]
  rw [hSome]
  unfold layoutTotal argvArrayBytes envpArrayBytes
  simp only [PGSIZE]
  split <;> omega

/-
  The arguments that `execve` admits pass the assertion
  exactly if the caller's strings, with a second byte for
  each byte from 0x80 on, leave room for the words.
-/
theorem execve_args_fit_iff {argvVa envpVa : Nat} {as es : List (List UInt8)}
    (hArgv : callerArgv translate user argvVa = some as)
    (hEnvp : callerArgv translate user envpVa = some es) (m : Ram) (stackPa : Nat) :
    ∃ argv envp, readUserArgv translate user argvVa MAX_ARGS MAX_ARG_LEN = some argv ∧
      readUserArgv translate user envpVa MAX_ARGS MAX_ARG_LEN = some envp ∧
      (placeArgvEnvpOnStack m stackPa argv envp ≠ none ↔
        24 + 8 * as.length + (if es.length = 0 then 0 else 8 + 8 * es.length) +
          callerSize as + callerSize es ≤ PGSIZE) := by
  refine ⟨_, _, by rw [readUserArgv_eq, hArgv]; rfl, by rw [readUserArgv_eq, hEnvp]; rfl, ?_⟩
  rw [placeArgvEnvpOnStack_ne_none_iff, stringsSize_map_pushByte, stringsSize_map_pushByte]
  simp only [List.length_map]

/-
  A caller's memory: a vector of `n` pointers at address 8,
  all to one string of `len` bytes `b` at address 256.
-/
def sameStrings (n len : Nat) (b : UInt8) : Ram := fun a =>
  if a % 8 = 1 ∧ 8 ≤ a ∧ a < 8 + 8 * n then 1
  else if 256 ≤ a ∧ a < 256 + len then b
  else 0

/- Three arguments of bytes that are encoded in two, and one of them as environment. -/
theorem execve_args_fit_iff_accents :
    ∃ argv envp, readUserArgv some (sameStrings 3 2 0xe9) 8 MAX_ARGS MAX_ARG_LEN = some argv ∧
      readUserArgv some (sameStrings 3 2 0xe9) 24 MAX_ARGS MAX_ARG_LEN = some envp ∧
      (placeArgvEnvpOnStack (fun _ => 0) 0 argv envp ≠ none ↔
        24 + 8 * (List.replicate 3 [(0xe9 : UInt8), 0xe9]).length +
          (if [[(0xe9 : UInt8), 0xe9]].length = 0 then 0
            else 8 + 8 * [[(0xe9 : UInt8), 0xe9]].length) +
          callerSize (List.replicate 3 [0xe9, 0xe9]) + callerSize [[0xe9, 0xe9]] ≤ PGSIZE) :=
  execve_args_fit_iff (by decide +kernel) (by decide +kernel) _ _

/-
  Fifteen strings of 127 bytes, as arguments and as
  environment: the vectors are admitted and the assertion
  fails.
-/
theorem execve_args_too_big :
    ∃ argv, readUserArgv some (sameStrings 15 127 97) 8 MAX_ARGS MAX_ARG_LEN = some argv ∧
      placeArgvEnvpOnStack (fun _ => 0) 0 argv argv = none := by
  refine ⟨List.replicate 15 (List.replicate 127 97), by decide +kernel, ?_⟩
  have hPanic := (placeArgvEnvpOnStack_ne_none_iff (fun _ => 0) 0
    (List.replicate 15 (List.replicate 127 97)) (List.replicate 15 (List.replicate 127 97))).not
  rw [not_not] at hPanic
  exact hPanic.mpr (by decide +kernel)

-- What the New Program Finds

/- The bytes are in the topmost stack page. -/
def InTopPage (va n : Nat) : Prop :=
  STACK_TOP_PAGE_VA ≤ va ∧ va + n ≤ STACK_VA_TOP

/- Where the page, which is at `stackPa`, has an address of it. -/
def topPage (stackPa va : Nat) : Nat := stackPa + (va - STACK_TOP_PAGE_VA)

/- The words of an array on the stack. -/
def stackWords (m : Ram) (stackPa va n : Nat) : List Nat :=
  (List.range n).map fun i => m.word (topPage stackPa (va + 8 * i))

/- A pointer into the topmost page to a string and its NUL. -/
structure StringAt (m : Ram) (stackPa p : Nat) (s : List UInt8) : Prop where
  page : InTopPage p (s.length + 1)
  bytes : m.read (topPage stackPa p) (s.length + 1) = s ++ [0]

def stringRanges (ps : List Nat) (ss : List (List UInt8)) : List (Nat × Nat) :=
  ps.zipWith (fun p s => (p, s.length + 1)) ss

/- The stack at `sp` holds the arguments: `ps` and `es` are the pointers to the strings. -/
structure OnStack (m : Ram) (stackPa : Nat) (argv envp : List (List UInt8))
    (sp argvVa envpVa : Nat) (ps es : List Nat) : Prop where
  spPage : InTopPage sp 8
  argvPage : InTopPage argvVa (argvArrayBytes argv)
  envpPage : envp ≠ [] → InTopPage envpVa (envpArrayBytes envp)
  argc : m.word (topPage stackPa sp) = argv.length
  argvWords : stackWords m stackPa argvVa (argv.length + 1) = ps ++ [0]
  argvStrings : List.Forall₂ (StringAt m stackPa) ps argv
  envpWords : if envp = [] then envpVa = 0
    else stackWords m stackPa envpVa (envp.length + 1) = es ++ [0]
  envpStrings : List.Forall₂ (StringAt m stackPa) es envp
  apart : ((sp, 8) :: (argvVa, argvArrayBytes argv) :: (envpVa, envpArrayBytes envp) ::
    (stringRanges ps argv ++ stringRanges es envp)).Pairwise Ram.Apart

/- The writes of `placeStrings`, in order. -/
def stringPieces (arr str strVa : Nat) : List (List UInt8) → List (Nat × List UInt8)
  | [] => []
  | s :: ss => (str, s) :: (str + s.length, [0]) :: (arr, toLe 8 strVa) ::
      stringPieces (arr + 8) (str + (s.length + 1)) (strVa + (s.length + 1)) ss

def pointers (va : Nat) : List (List UInt8) → List Nat
  | [] => []
  | s :: ss => va :: pointers (va + (s.length + 1)) ss

@[simp] theorem stringsSize_cons (s : List UInt8) (ss : List (List UInt8)) :
    stringsSize (s :: ss) = s.length + 1 + stringsSize ss := rfl

theorem placeStrings_eq (m : Ram) (arr str strVa : Nat) (ss : List (List UInt8)) :
    placeStrings m arr str strVa ss = (m.writeAll (stringPieces arr str strVa ss),
      str + stringsSize ss, strVa + stringsSize ss) := by
  induction ss generalizing m arr str strVa with
  | nil => rfl
  | cons s ss ih =>
    unfold placeStrings
    rw [ih]
    simp only [stringsSize_cons, Nat.add_assoc]
    rfl

/- A write of the loop is in the array or in the strings. -/
theorem stringPieces_inside (hp : p ∈ stringPieces arr str strVa ss) :
    arr ≤ p.1 ∧ p.1 + p.2.length ≤ arr + 8 * ss.length ∨
      str ≤ p.1 ∧ p.1 + p.2.length ≤ str + stringsSize ss := by
  induction ss generalizing arr str strVa with
  | nil => cases hp
  | cons s ss ih =>
    simp only [stringPieces, List.mem_cons] at hp
    rw [stringsSize_cons, List.length_cons]
    rcases hp with rfl | rfl | rfl | hLater
    · right
      dsimp only
      omega
    · right
      simp only [List.length_singleton]
      omega
    · left
      simp only [toLe_length]
      omega
    · have hIn := ih hLater
      omega

theorem stringPieces_apart (hBelow : arr + 8 * ss.length ≤ str) :
    ((stringPieces arr str strVa ss).map Ram.range).Pairwise Ram.Apart := by
  induction ss generalizing arr str strVa with
  | nil => exact List.Pairwise.nil
  | cons s ss ih =>
    rw [List.length_cons] at hBelow
    have hRest : ∀ r ∈ (stringPieces (arr + 8) (str + (s.length + 1)) (strVa + (s.length + 1))
        ss).map Ram.range, arr + 8 ≤ r.1 ∧ r.1 + r.2 ≤ str ∨ str + (s.length + 1) ≤ r.1 := by
      intro r hr
      rcases List.mem_map.mp hr with ⟨p, hp, rfl⟩
      have hIn := stringPieces_inside hp
      simp only [Ram.range]
      omega
    simp only [stringPieces, List.map_cons, List.pairwise_cons, List.forall_mem_cons, Ram.range,
      Ram.Apart, List.length_singleton, toLe_length]
    refine ⟨⟨by omega, by omega, fun r hr => ?_⟩, ⟨by omega, fun r hr => ?_⟩,
      fun r hr => ?_, ih (by omega)⟩
    · have hr' := hRest r hr
      omega
    · have hr' := hRest r hr
      omega
    · have hr' := hRest r hr
      omega

/- The loop's pointers and strings, once its writes are there. -/
theorem stringPieces_words {m : Ram} (hTop : strVa + stringsSize ss < 2 ^ 64)
    (hRead : ∀ p ∈ stringPieces arr str strVa ss, m.read p.1 p.2.length = p.2) :
    ((List.range ss.length).map fun i => m.word (arr + 8 * i)) = pointers strVa ss ∧
      List.Forall₂ (fun p s => strVa ≤ p ∧ p + (s.length + 1) ≤ strVa + stringsSize ss ∧
        m.read (str + (p - strVa)) (s.length + 1) = s ++ [0]) (pointers strVa ss) ss := by
  induction ss generalizing arr str strVa with
  | nil => exact ⟨rfl, List.Forall₂.nil⟩
  | cons s ss ih =>
    rw [stringsSize_cons] at hTop ⊢
    simp only [stringPieces, List.forall_mem_cons] at hRead
    rcases hRead with ⟨hBytes, hNul, hWord, hRest⟩
    rcases ih (by omega) hRest with ⟨hWords, hStrings⟩
    constructor
    · have hHead : m.word arr = strVa := by
        unfold Ram.word
        rw [toLe_length] at hWord
        rw [hWord, ofLe_toLe]
        exact Nat.mod_eq_of_lt (by omega)
      rw [List.length_cons, List.range_succ_eq_map, List.map_cons, List.map_map, pointers, ← hWords,
        Nat.mul_zero, Nat.add_zero, hHead]
      refine congrArg (List.cons strVa) (List.map_congr_left fun i _ => ?_)
      simp only [Function.comp, Nat.succ_eq_add_one, Nat.mul_add, Nat.add_assoc, Nat.add_comm 8]
    · refine List.Forall₂.cons ⟨Nat.le_refl _, by omega, ?_⟩ (hStrings.imp fun p t hp => ?_)
      · rw [Nat.sub_self, Nat.add_zero, Ram.read_add, hBytes]
        exact congrArg _ hNul
      · rcases hp with ⟨hLo, hHi, hAt⟩
        refine ⟨by omega, by omega, ?_⟩
        have hEq : str + (p - strVa) = str + (s.length + 1) + (p - (strVa + (s.length + 1))) := by
          omega
        rw [hEq, hAt]

theorem stringRanges_inside {va : Nat} {r : Nat × Nat} (hr : r ∈ stringRanges (pointers va ss) ss) :
    va ≤ r.1 ∧ r.1 + r.2 ≤ va + stringsSize ss := by
  induction ss generalizing va with
  | nil => cases hr
  | cons s ss ih =>
    rw [stringsSize_cons]
    rcases List.mem_cons.mp hr with rfl | hLater
    · dsimp only
      omega
    · have hIn := ih hLater
      omega

theorem stringRanges_apart (va : Nat) (ss : List (List UInt8)) :
    (stringRanges (pointers va ss) ss).Pairwise Ram.Apart := by
  induction ss generalizing va with
  | nil => exact List.Pairwise.nil
  | cons s ss ih => exact List.Pairwise.cons (fun r hr => Or.inl (stringRanges_inside hr).1) (ih _)

-- The Whole Layout

variable {argv envp : List (List UInt8)} {pa va : Nat}

def vectorPieces (arr str strVa : Nat) (ss : List (List UInt8)) : List (Nat × List UInt8) :=
  stringPieces arr str strVa ss ++ [(arr + ss.length * 8, toLe 8 0)]

def envpPieces (arr str strVa : Nat) (envp : List (List UInt8)) : List (Nat × List UInt8) :=
  if envp.length = 0 then [] else vectorPieces arr str strVa envp

/- All writes, if the stack pointer `va` is at `pa`. -/
def layoutPieces (pa va : Nat) (argv envp : List (List UInt8)) : List (Nat × List UInt8) :=
  (pa, toLe 8 argv.length) ::
    (vectorPieces (pa + 8) (pa + 8 + argvArrayBytes argv + envpArrayBytes envp)
        (va + 8 + argvArrayBytes argv + envpArrayBytes envp) argv ++
      envpPieces (pa + 8 + argvArrayBytes argv)
        (pa + 8 + argvArrayBytes argv + envpArrayBytes envp + stringsSize argv)
        (va + 8 + argvArrayBytes argv + envpArrayBytes envp + stringsSize argv) envp)

theorem placeArgvEnvpOnStack_eq (hFits : layoutTotal argv envp < PGSIZE) (m : Ram) (stackPa : Nat) :
    placeArgvEnvpOnStack m stackPa argv envp =
      some (m.writeAll (layoutPieces (stackPa + (PGSIZE - layoutTotal argv envp))
          (STACK_VA_TOP - layoutTotal argv envp) argv envp),
        STACK_VA_TOP - layoutTotal argv envp, STACK_VA_TOP - layoutTotal argv envp + 8,
        if envp.length = 0 then 0
        else STACK_VA_TOP - layoutTotal argv envp + 8 + argvArrayBytes argv) := by
  -- the physical offsets are those of the addresses in the page
  have hOff : ∀ k, STACK_VA_TOP - layoutTotal argv envp + k - STACK_TOP_PAGE_VA =
      PGSIZE - layoutTotal argv envp + k := by
    intro k
    simp only [STACK_TOP_PAGE_VA, STACK_VA_TOP, TRAPFRAME, TRAMPOLINE, MAXVA, PGSIZE] at hFits ⊢
    omega
  have hSp : STACK_VA_TOP - layoutTotal argv envp - STACK_TOP_PAGE_VA =
      PGSIZE - layoutTotal argv envp := hOff 0
  have hNe : STACK_VA_TOP - layoutTotal argv envp + (8 + argvArrayBytes argv) ≠ 0 := by omega
  unfold placeArgvEnvpOnStack layoutPieces envpPieces vectorPieces
  by_cases hEnvp : envp.length = 0
  · simp only [hFits, hEnvp, if_true, ne_eq, not_true_eq_false, if_false, placeStrings_eq, hSp,
      hOff, Nat.add_assoc, Ram.writeAll_append, Ram.writeAll_cons, Ram.writeAll_nil]
  · simp only [hFits, hEnvp, hNe, if_true, ne_eq, not_false_eq_true, if_false, placeStrings_eq, hSp,
      hOff, Nat.add_assoc, Ram.writeAll_append, Ram.writeAll_cons, Ram.writeAll_nil]

/- The writes to the topmost page, which is at `stackPa`; none is the failed assertion. -/
def stackWrites (stackPa : Nat) (argv envp : List (List UInt8)) :
    Option (List (Nat × List UInt8)) :=
  if layoutTotal argv envp < PGSIZE then
    some (layoutPieces (stackPa + (PGSIZE - layoutTotal argv envp))
      (STACK_VA_TOP - layoutTotal argv envp) argv envp)
  else none

theorem placeArgvEnvpOnStack_writes (m : Ram) (stackPa : Nat) (argv envp : List (List UInt8)) :
    (placeArgvEnvpOnStack m stackPa argv envp).map Prod.fst =
      (stackWrites stackPa argv envp).map m.writeAll := by
  unfold stackWrites
  by_cases hFits : layoutTotal argv envp < PGSIZE
  · rw [placeArgvEnvpOnStack_eq hFits, if_pos hFits]
    rfl
  · rw [placeArgvEnvpOnStack, if_neg hFits, if_neg hFits]
    rfl

theorem vectorPieces_inside (hp : p ∈ vectorPieces arr str strVa ss) :
    arr ≤ p.1 ∧ p.1 + p.2.length ≤ arr + argvArrayBytes ss ∨
      str ≤ p.1 ∧ p.1 + p.2.length ≤ str + stringsSize ss := by
  unfold argvArrayBytes
  rcases List.mem_append.mp hp with hString | hNull
  · have hIn := stringPieces_inside hString
    omega
  · obtain rfl := List.mem_singleton.mp hNull
    simp only [toLe_length]
    omega

theorem vectorPieces_apart (hBelow : arr + argvArrayBytes ss ≤ str) :
    ((vectorPieces arr str strVa ss).map Ram.range).Pairwise Ram.Apart := by
  unfold argvArrayBytes at hBelow
  rw [vectorPieces, List.map_append, List.pairwise_append]
  refine ⟨stringPieces_apart (by omega), List.pairwise_singleton _ _, ?_⟩
  intro r hr r' hr'
  rcases List.mem_map.mp hr with ⟨p, hp, rfl⟩
  obtain rfl := List.mem_singleton.mp hr'
  have hIn := stringPieces_inside hp
  simp only [Ram.Apart, Ram.range, toLe_length]
  omega

theorem envpPieces_inside (hp : p ∈ envpPieces arr str strVa ss) :
    arr ≤ p.1 ∧ p.1 + p.2.length ≤ arr + envpArrayBytes ss ∨
      str ≤ p.1 ∧ p.1 + p.2.length ≤ str + stringsSize ss := by
  unfold envpPieces at hp
  unfold envpArrayBytes
  split at hp
  · cases hp
  · rename_i hNil
    rw [if_neg hNil]
    exact vectorPieces_inside hp

theorem envpPieces_apart (hBelow : arr + envpArrayBytes ss ≤ str) :
    ((envpPieces arr str strVa ss).map Ram.range).Pairwise Ram.Apart := by
  unfold envpPieces
  unfold envpArrayBytes at hBelow
  split
  · exact List.Pairwise.nil
  · rename_i hNil
    rw [if_neg hNil] at hBelow
    exact vectorPieces_apart hBelow

theorem layoutPieces_apart : ((layoutPieces pa va argv envp).map Ram.range).Pairwise Ram.Apart := by
  rw [layoutPieces, List.map_cons, List.map_append, List.pairwise_cons, List.pairwise_append]
  refine ⟨?_, vectorPieces_apart (by omega), envpPieces_apart (by omega), ?_⟩
  · intro r hr
    rw [← List.map_append, List.mem_map] at hr
    rcases hr with ⟨p, hp, rfl⟩
    simp only [Ram.Apart, Ram.range, toLe_length]
    rcases List.mem_append.mp hp with hp | hp
    · have hIn := vectorPieces_inside hp
      omega
    · have hIn := envpPieces_inside hp
      omega
  · intro r hr r' hr'
    rcases List.mem_map.mp hr with ⟨p, hp, rfl⟩
    rcases List.mem_map.mp hr' with ⟨q, hq, rfl⟩
    have hIn := vectorPieces_inside hp
    have hIn' := envpPieces_inside hq
    simp only [Ram.Apart, Ram.range]
    omega

/- The strings end where the layout does. -/
theorem layoutPieces_inside (hp : p ∈ layoutPieces pa va argv envp) :
    pa ≤ p.1 ∧ p.1 + p.2.length ≤ pa + layoutTotal argv envp := by
  unfold layoutTotal
  simp only [layoutPieces, List.mem_cons, List.mem_append] at hp
  rcases hp with rfl | hArgv | hEnvp
  · simp only [toLe_length]
    omega
  · have hIn := vectorPieces_inside hArgv
    omega
  · have hIn := envpPieces_inside hEnvp
    omega

theorem stackWrites_inside {ps : List (Nat × List UInt8)}
    (hWrites : stackWrites stackPa argv envp = some ps) (hp : p ∈ ps) :
    stackPa ≤ p.1 ∧ p.1 + p.2.length ≤ stackPa + PGSIZE := by
  rcases Option.ite_none_right_eq_some.mp hWrites with ⟨hFits, ⟨⟩⟩
  have hIn := layoutPieces_inside hp
  omega

theorem layout_apart (hEnvp : envp.length = 0 → pa = 0)
    (hEnvp' : envp.length ≠ 0 → pa = va + 8 + argvArrayBytes argv) :
    ((va, 8) :: (va + 8, argvArrayBytes argv) :: (pa, envpArrayBytes envp) ::
      (stringRanges (pointers (va + 8 + argvArrayBytes argv + envpArrayBytes envp) argv) argv ++
        stringRanges (pointers (va + 8 + argvArrayBytes argv + envpArrayBytes envp +
          stringsSize argv) envp) envp)).Pairwise Ram.Apart := by
  have hStart : pa + envpArrayBytes envp ≤ va + 8 + argvArrayBytes argv + envpArrayBytes envp ∧
      (pa = 0 ∧ envpArrayBytes envp = 0 ∨ va + 8 + argvArrayBytes argv ≤ pa) := by
    by_cases hNil : envp.length = 0
    · have hZero : envpArrayBytes envp = 0 := if_pos hNil
      have hPa := hEnvp hNil
      omega
    · have hPa := hEnvp' hNil
      omega
  simp only [List.pairwise_cons, List.pairwise_append, List.forall_mem_cons, List.mem_append]
  simp only [Ram.Apart]
  refine ⟨⟨by omega, by omega, ?_⟩, ⟨by omega, ?_⟩, ?_, stringRanges_apart _ _,
    stringRanges_apart _ _, ?_⟩
  · rintro r (hr | hr) <;>
    · have hIn := stringRanges_inside hr
      omega
  · rintro r (hr | hr) <;>
    · have hIn := stringRanges_inside hr
      omega
  · rintro r (hr | hr) <;>
    · have hIn := stringRanges_inside hr
      omega
  · intro r hr r' hr'
    have hIn := stringRanges_inside hr
    have hIn' := stringRanges_inside hr'
    omega

theorem topPage_add (hLo : STACK_TOP_PAGE_VA ≤ va) (k : Nat) :
    topPage stackPa (va + k) = topPage stackPa va + k := by
  unfold topPage
  omega

/- One array and its strings, as the program sees them. -/
theorem vector_onStack {m : Ram} {arrVa : Nat}
    (hArr : topPage stackPa arrVa = arr) (hArrLo : STACK_TOP_PAGE_VA ≤ arrVa)
    (hStr : topPage stackPa strVa = str) (hStrLo : STACK_TOP_PAGE_VA ≤ strVa)
    (hHi : strVa + stringsSize ss ≤ STACK_VA_TOP)
    (hRead : ∀ p ∈ vectorPieces arr str strVa ss, m.read p.1 p.2.length = p.2) :
    stackWords m stackPa arrVa (ss.length + 1) = pointers strVa ss ++ [0] ∧
      List.Forall₂ (StringAt m stackPa) (pointers strVa ss) ss := by
  have hSmall : STACK_VA_TOP < 2 ^ 64 := by decide
  simp only [vectorPieces, List.forall_mem_append, List.mem_singleton, forall_eq,
    toLe_length] at hRead
  rcases stringPieces_words (by omega) hRead.1 with ⟨hWords, hStrings⟩
  constructor
  · have hLast : m.word (arr + 8 * ss.length) = 0 := by
      unfold Ram.word
      rw [Nat.mul_comm, hRead.2, ofLe_toLe]
      rfl
    have hAt : ∀ i, topPage stackPa (arrVa + 8 * i) = arr + 8 * i := by
      intro i
      rw [← hArr, topPage_add hArrLo]
    unfold stackWords
    rw [List.range_succ, List.map_append, ← hWords]
    simp only [hAt, List.map_cons, List.map_nil, hLast]
  · refine hStrings.imp fun p s hp => ?_
    rcases hp with ⟨hStart, hEnd, hBytes⟩
    refine ⟨⟨by omega, by omega⟩, ?_⟩
    have hEq : topPage stackPa p = str + (p - strVa) := by
      have hp : p = strVa + (p - strVa) := by omega
      rw [← hStr, ← topPage_add hStrLo, ← hp]
    rw [hEq, hBytes]

/- The whole layout, if the stack pointer `va` is at `pa`. -/
theorem layoutPieces_onStack (hAt : topPage stackPa va = pa)
    (hLo : STACK_TOP_PAGE_VA ≤ va) (hHi : va + layoutTotal argv envp ≤ STACK_VA_TOP) (m : Ram) :
    OnStack (m.writeAll (layoutPieces pa va argv envp)) stackPa argv envp va (va + 8)
      (if envp.length = 0 then 0 else va + 8 + argvArrayBytes argv)
      (pointers (va + 8 + argvArrayBytes argv + envpArrayBytes envp) argv)
      (pointers (va + 8 + argvArrayBytes argv + envpArrayBytes envp + stringsSize argv) envp) := by
  have hRead : ∀ p ∈ layoutPieces pa va argv envp,
      (m.writeAll (layoutPieces pa va argv envp)).read p.1 p.2.length = p.2 :=
    fun p hp => Ram.read_writeAll layoutPieces_apart hp
  generalize m.writeAll (layoutPieces pa va argv envp) = m' at hRead ⊢
  simp only [layoutPieces, List.forall_mem_cons, List.forall_mem_append, toLe_length] at hRead
  rcases hRead with ⟨hArgc, hArgv, hEnvp⟩
  unfold layoutTotal at hHi
  have hShift : ∀ k, topPage stackPa (va + k) = pa + k := fun k => by rw [topPage_add hLo, hAt]
  have hWords := vector_onStack (hShift 8) (by omega)
    (by simp only [Nat.add_assoc, hShift]) (by omega) (by omega) hArgv
  have hArgc' : m'.word (topPage stackPa va) = argv.length := by
    have hSmall : argv.length < 256 ^ 8 := by
      have hLen : argvArrayBytes argv = 8 * argv.length + 8 := rfl
      have hTop : STACK_VA_TOP < 256 ^ 8 := by decide
      omega
    rw [hAt, Ram.word, hArgc, ofLe_toLe, Nat.mod_eq_of_lt hSmall]
  by_cases hNil : envp.length = 0
  · obtain rfl := List.length_eq_zero_iff.mp hNil
    exact ⟨⟨hLo, by omega⟩, ⟨by omega, by omega⟩, absurd rfl, hArgc', hWords.1, hWords.2, rfl,
      List.Forall₂.nil, layout_apart (fun _ => rfl) (by simp)⟩
  · rw [envpPieces, if_neg hNil] at hEnvp
    have hArrAt :
        topPage stackPa (va + 8 + argvArrayBytes argv) = pa + 8 + argvArrayBytes argv := by
      simp only [Nat.add_assoc, hShift]
    have hStrAt : topPage stackPa
        (va + 8 + argvArrayBytes argv + envpArrayBytes envp + stringsSize argv) =
        pa + 8 + argvArrayBytes argv + envpArrayBytes envp + stringsSize argv := by
      simp only [Nat.add_assoc, hShift]
    have hWords' := vector_onStack hArrAt (by omega) hStrAt (by omega) (by omega) hEnvp
    refine ⟨⟨hLo, by omega⟩, ⟨by omega, by omega⟩, ?_, hArgc', hWords.1, hWords.2, ?_, hWords'.2,
      layout_apart (absurd · hNil) ?_⟩
    · intro _
      rw [if_neg hNil]
      exact ⟨by omega, by omega⟩
    · rw [if_neg (fun hEq => hNil (List.length_eq_zero_iff.mpr hEq)), if_neg hNil]
      exact hWords'.1
    · intro _
      exact if_neg hNil

/-
  A layout that fits is found by the new program as it was
  given, and nothing outside the topmost page is written.
-/
theorem placeArgvEnvpOnStack_onStack (hFits : layoutTotal argv envp < PGSIZE) (m : Ram)
    (stackPa : Nat) : ∃ m' sp argvVa envpVa ps es,
      placeArgvEnvpOnStack m stackPa argv envp = some (m', sp, argvVa, envpVa) ∧
      OnStack m' stackPa argv envp sp argvVa envpVa ps es ∧
      ∀ a, a < stackPa ∨ stackPa + PGSIZE ≤ a → m' a = m a := by
  have hTop : STACK_VA_TOP = STACK_TOP_PAGE_VA + PGSIZE := rfl
  refine ⟨_, _, _, _, _, _, placeArgvEnvpOnStack_eq hFits m stackPa,
    layoutPieces_onStack ?_ (by omega) (by omega) m, fun a hOut => ?_⟩
  · unfold topPage
    omega
  · refine Ram.writeAll_outside fun p hp => ?_
    have hIn := layoutPieces_inside hp
    omega

theorem placeArgvEnvpOnStack_onStack_small :
    layoutTotal [[108, 115], []] [[65]] < PGSIZE ∧ ∃ m' sp argvVa envpVa ps es,
      placeArgvEnvpOnStack (fun _ => 7) 4096 [[108, 115], []] [[65]] =
        some (m', sp, argvVa, envpVa) ∧
      OnStack m' 4096 [[108, 115], []] [[65]] sp argvVa envpVa ps es ∧
      ∀ a, a < 4096 ∨ 4096 + PGSIZE ≤ a → m' a = 7 :=
  ⟨by decide, placeArgvEnvpOnStack_onStack (by decide) _ _⟩

end Vm

end PlayXv6
