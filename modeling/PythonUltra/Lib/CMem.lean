/-
  PythonUltra.Lib.CMem — C's fixed-width integers and byte moves, as the port uses them.

  A signed field of `w` bits stores the representative of a value modulo `2^w` that the
  type can hold (`i16`, `i32`); an unsigned one stores the remainder (`u8`, `u16`).
  `memmove` and `memcpy` act on a list of bytes. A buffer that holds a NUL-terminated
  text is `t ++ 0 :: rest` (`Holds`), and the two splices an editor makes of it, opening
  a gap and closing one, are stated on that form.
-/

import Mathlib.Data.List.Basic

namespace PythonUltra.Lib.CMem

/-! ## Integers -/

def i16 (x : Int) : Int := (x + 32768) % 65536 - 32768

def i32 (x : Int) : Int := (x + 2147483648) % 4294967296 - 2147483648

def u8 (n : Nat) : Nat := n % 256

def u16 (n : Nat) : Nat := n % 65536

theorem i16_of_range {x : Int} (h1 : -32768 ≤ x) (h2 : x ≤ 32767) : i16 x = x := by
  unfold i16; omega

theorem i32_of_range {x : Int} (h1 : -2147483648 ≤ x) (h2 : x ≤ 2147483647) : i32 x = x := by
  unfold i32; omega

theorem i32_above {x : Int} (h1 : 2147483648 ≤ x) (h2 : x < 6442450944) : i32 x = x - 4294967296 := by
  unfold i32; omega

theorem i32_below {x : Int} (h1 : -6442450944 ≤ x) (h2 : x < -2147483648) : i32 x = x + 4294967296 := by
  unfold i32; omega

theorem i16_range (x : Int) : -32768 ≤ i16 x ∧ i16 x ≤ 32767 := by unfold i16; omega

theorem i16_add (x y : Int) : i16 (i16 x + y) = i16 (x + y) := by unfold i16; omega

theorem i16_sub (x y : Int) : i16 (i16 x - y) = i16 (x - y) := by unfold i16; omega

theorem i32_add (x y : Int) : i32 (i32 x + y) = i32 (x + y) := by unfold i32; omega

theorem u16_of_lt {n : Nat} (h : n < 65536) : u16 n = n := Nat.mod_eq_of_lt h

/-! ## Byte moves -/

variable {α : Type}

/-- `memmove(l + dst, l + src, n)`. -/
def memmove (l : List α) (dst src n : Nat) : List α := l.take dst ++ (l.drop src).take n ++ l.drop (dst + n)

/-- `memcpy(l + dst, s, len(s))`. -/
def memcpy (l : List α) (dst : Nat) (s : List α) : List α := l.take dst ++ s ++ l.drop (dst + s.length)

/-- The buffer holds the text `t` and the terminator after it. -/
def Holds (z : α) (l t : List α) : Prop := ∃ rest, l = t ++ z :: rest

/-- Moving the tail and its terminator `s.length` bytes up and copying `s` into the gap. -/
theorem splice_in (a b s : List α) (z : α) (rest : List α) (hr : s.length ≤ rest.length) :
    memcpy (memmove (a ++ b ++ z :: rest) (a.length + s.length) a.length (b.length + 1)) a.length s =
      a ++ s ++ b ++ z :: rest.drop s.length := by
  have hlen : ((a ++ b ++ z :: rest).take (a.length + s.length)).length = a.length + s.length := by
    simp only [List.length_take, List.length_append, List.length_cons]; omega
  have hmid : ((a ++ b ++ z :: rest).drop a.length).take (b.length + 1) = b ++ [z] := by
    rw [List.append_assoc, List.drop_left, List.take_append, List.take_of_length_le (by omega)]; simp
  have htail : (a ++ b ++ z :: rest).drop (a.length + s.length + (b.length + 1)) = rest.drop s.length := by
    rw [show a.length + s.length + (b.length + 1) = (a ++ b ++ [z]).length + s.length by simp; omega,
      show a ++ b ++ z :: rest = (a ++ b ++ [z]) ++ rest by simp, List.drop_length_add_append]
  have hpre : ((a ++ b ++ z :: rest).take (a.length + s.length)).take a.length = a := by
    rw [List.take_take, Nat.min_eq_left (by omega), List.append_assoc, List.take_left]
  unfold memcpy memmove
  rw [hmid, htail]
  generalize (a ++ b ++ z :: rest).take (a.length + s.length) = pre at hlen hpre
  rw [List.append_assoc pre, List.take_append_of_le_length (by omega), hpre, ← hlen, List.drop_left]
  simp

/-- Moving what follows a deleted stretch down over it, terminator included. -/
theorem splice_out (a d b : List α) (z : α) (rest : List α) :
    memmove (a ++ d ++ b ++ z :: rest) a.length (a.length + d.length) (b.length + 1) =
      a ++ b ++ z :: (d ++ b ++ z :: rest).drop (b.length + 1) := by
  unfold memmove
  have hd : (a ++ d ++ b ++ z :: rest).drop (a.length + d.length) = b ++ z :: rest := by
    rw [show a.length + d.length = (a ++ d).length by simp, List.append_assoc (a ++ d), List.drop_left]
  rw [hd, List.append_assoc (a ++ d) b, List.append_assoc a d, List.take_left, List.drop_length_add_append,
    List.take_append, List.take_of_length_le (by omega)]
  simp

end PythonUltra.Lib.CMem
