import PlayXv6.Lib.Bytes

/-
  Byte-addressed memory, and lists of pieces written to it
  one after the other.

  Main declarations:
    * `Ram`
    * `Ram.read_writeAll`
-/

abbrev Ram := Nat → UInt8

namespace Ram

variable {m : Ram} {a b n x : Nat} {src : List UInt8}

def write (m : Ram) (a : Nat) (src : List UInt8) : Ram := fun x =>
  if a ≤ x ∧ x < a + src.length then src.getD (x - a) 0 else m x

def read (m : Ram) (a n : Nat) : List UInt8 := (List.range n).map fun k => m (a + k)

def word (m : Ram) (a : Nat) : Nat := ofLe (m.read a 8)

/- The range `[r.1, r.1 + r.2)` and another do not meet. -/
def Apart (r r' : Nat × Nat) : Prop := r.1 + r.2 ≤ r'.1 ∨ r'.1 + r'.2 ≤ r.1

theorem write_outside (hOut : x < a ∨ a + src.length ≤ x) : m.write a src x = m x :=
  if_neg (by omega)

theorem read_congr {m' : Ram} (hSame : ∀ x, a ≤ x → x < a + n → m x = m' x) :
    m.read a n = m'.read a n := by
  refine List.map_congr_left fun k hk => hSame (a + k) (by omega) ?_
  have hk' : k < n := List.mem_range.mp hk
  omega

theorem read_write_same : (m.write a src).read a src.length = src := by
  refine List.ext_getElem (by simp [read]) fun k hk hk' => ?_
  simp [read, write, hk']

theorem read_add (m : Ram) (a n k : Nat) : m.read a (n + k) = m.read a n ++ m.read (a + n) k := by
  simp [read, List.range_add, Nat.add_assoc]

def range (p : Nat × List UInt8) : Nat × Nat := (p.1, p.2.length)

def writeAll (m : Ram) (ps : List (Nat × List UInt8)) : Ram :=
  ps.foldl (fun m p => m.write p.1 p.2) m

theorem writeAll_nil (m : Ram) : m.writeAll [] = m := rfl

theorem writeAll_cons (m : Ram) (p : Nat × List UInt8) (ps : List (Nat × List UInt8)) :
    m.writeAll (p :: ps) = (m.write p.1 p.2).writeAll ps := rfl

theorem writeAll_append (m : Ram) (ps qs : List (Nat × List UInt8)) :
    m.writeAll (ps ++ qs) = (m.writeAll ps).writeAll qs := List.foldl_append

theorem writeAll_outside {ps : List (Nat × List UInt8)}
    (hOut : ∀ p ∈ ps, x < p.1 ∨ p.1 + p.2.length ≤ x) : m.writeAll ps x = m x := by
  induction ps generalizing m with
  | nil => rfl
  | cons p ps ih =>
    rw [List.forall_mem_cons] at hOut
    exact (ih hOut.2).trans (write_outside hOut.1)

theorem read_writeAll {ps : List (Nat × List UInt8)} (hApart : (ps.map range).Pairwise Apart)
    {p : Nat × List UInt8} (hp : p ∈ ps) : (m.writeAll ps).read p.1 p.2.length = p.2 := by
  induction ps generalizing m with
  | nil => cases hp
  | cons q ps ih =>
    rw [List.map_cons, List.pairwise_cons] at hApart
    rcases List.mem_cons.mp hp with rfl | hLater
    · -- the later pieces leave the first one alone
      have hKept : ((m.write p.1 p.2).writeAll ps).read p.1 p.2.length =
          (m.write p.1 p.2).read p.1 p.2.length := by
        refine read_congr fun x hLo hHi => writeAll_outside fun r hr => ?_
        have hFar := hApart.1 (range r) (List.mem_map_of_mem hr)
        simp only [Apart, range] at hFar
        omega
      exact hKept.trans read_write_same
    · exact ih hApart.2 hLater

end Ram
