/-
  PythonUltra.Lib.Bytes — rows of bytes as numbers, in either order, with a sign or without.

  `ordered` is a little-endian row put in a byte order. `readInt` takes a row of up to eight
  bytes, highest first, into a 64-bit word that starts as zero or, under a sign, as -1; it
  reads back what was packed, wrapped to its width (`readInt_ordered`).
-/

import PythonUltra.Lib.Struct
import Mathlib.Data.Nat.Bitwise
import Mathlib.Data.Int.ModEq
import Mathlib.Tactic.Linarith

namespace PythonUltra.Lib.Struct

variable {n m v : Nat} {bs cs : List UInt8}

theorem unpackInt_append (bs cs : List UInt8) : unpackInt (bs ++ cs) = unpackInt bs + 256 ^ bs.length * unpackInt cs := by
  induction bs with
  | nil => simp [unpackInt]
  | cons b bs ih =>
    rw [List.cons_append, unpackInt, unpackInt, ih, List.length_cons, Nat.pow_succ]
    ring

theorem unpackInt_lt (bs : List UInt8) : unpackInt bs < 256 ^ bs.length := by
  induction bs with
  | nil => simp [unpackInt]
  | cons b bs ih =>
    have hb : b.toNat < 256 := b.toNat_lt
    rw [unpackInt, List.length_cons, Nat.pow_succ]
    omega

theorem packInt_unpackInt (bs : List UInt8) : packInt bs.length (unpackInt bs) = bs := by
  induction bs with
  | nil => rfl
  | cons b bs ih =>
    have hb : b.toNat < 256 := b.toNat_lt
    rw [List.length_cons, unpackInt, packInt, Nat.add_mul_mod_self_left, Nat.mod_eq_of_lt hb, Nat.add_mul_div_left _ _ (by decide),
      Nat.div_eq_of_lt hb, Nat.zero_add, ih, UInt8.ofNat_toNat]

theorem eq_packInt (hl : bs.length = n) (hv : unpackInt bs = v % 256 ^ n) : bs = packInt n v := by
  have hmod : packInt n v = packInt n (v % 256 ^ n) := by
    have h := packInt_unpackInt (packInt n v)
    rw [length_packInt, unpackInt_packInt] at h
    exact h.symm
  rw [hmod, ← hv, ← hl, packInt_unpackInt]

theorem unpackInt_take (h : n ≤ bs.length) : unpackInt (bs.take n) = unpackInt bs % 256 ^ n := by
  have hl : (bs.take n).length = n := by
    rw [List.length_take]
    omega
  have hlt := unpackInt_lt (bs.take n)
  rw [hl] at hlt
  conv_rhs => rw [← List.take_append_drop n bs, unpackInt_append, hl, Nat.add_mul_mod_self_left, Nat.mod_eq_of_lt hlt]

theorem take_packInt (h : n ≤ m) (v : Nat) : (packInt m v).take n = packInt n v := by
  have hl := length_packInt m v
  refine eq_packInt ?_ ?_
  · rw [List.length_take]
    omega
  · rw [unpackInt_take (by omega), unpackInt_packInt, Nat.mod_mod_of_dvd _ (Nat.pow_dvd_pow 256 h)]

theorem unpackInt_zeros (n : Nat) : unpackInt (List.replicate n 0) = 0 := by
  induction n with
  | zero => rfl
  | succ n ih => rw [List.replicate_succ, unpackInt, ih]; rfl

theorem unpackInt_ones (n : Nat) : unpackInt (List.replicate n 0xff) + 1 = 256 ^ n := by
  induction n with
  | zero => rfl
  | succ n ih =>
    have hff : (0xff : UInt8).toNat = 255 := rfl
    rw [List.replicate_succ, unpackInt, hff, Nat.pow_succ]
    omega

/-- A row, lowest byte first, in a byte order. -/
def ordered (bigEndian : Bool) (bs : List UInt8) : List UInt8 := if bigEndian then bs.reverse else bs

@[simp] theorem length_ordered (b : Bool) (bs : List UInt8) : (ordered b bs).length = bs.length := by
  cases b
  · rfl
  · exact List.length_reverse

/-- An integer's bytes, of which the higher ones are lost. -/
def intBytes (n : Nat) (x : Int) : List UInt8 := packInt n (x % 256 ^ n).toNat

@[simp] theorem length_intBytes (n : Nat) (x : Int) : (intBytes n x).length = n := length_packInt _ _

theorem toNat_emod_pow (x : Int) (n : Nat) : (((x % 256 ^ n).toNat : Nat) : Int) = x % 256 ^ n :=
  Int.toNat_of_nonneg (Int.emod_nonneg _ (by positivity))

theorem unpackInt_intBytes (n : Nat) (x : Int) : (unpackInt (intBytes n x) : Int) = x % 256 ^ n := by
  have hcast : ((256 ^ n : Nat) : Int) = 256 ^ n := Nat.cast_pow 256 n
  rw [intBytes, unpackInt_packInt, Int.natCast_emod, toNat_emod_pow, hcast, Int.emod_emod_of_dvd _ (dvd_refl _)]

theorem eq_intBytes {x : Int} (hl : bs.length = n) (hv : (unpackInt bs : Int) = x % 256 ^ n) : bs = intBytes n x := by
  refine eq_packInt hl ?_
  rw [Nat.mod_eq_of_lt, ← hv, Int.toNat_natCast]
  rw [← hv, Int.toNat_natCast, ← hl]
  exact unpackInt_lt bs

/-- `x` in `n` bytes, with or without a sign. -/
def wrap (signed : Bool) (n : Nat) (x : Int) : Int := if signed then x.bmod (256 ^ n) else x % 256 ^ n

/-! ## Reading into a word -/

/-- A word of `w` bits that takes in a row of bytes, highest first. -/
def foldBytes (w val : Nat) (bs : List UInt8) : Nat := bs.foldl (fun val b => (val <<< 8) % 2 ^ w ||| b.toNat) val

variable {w : Nat}

theorem shift_or {val : Nat} (hw : 8 ≤ w) (b : UInt8) : (val <<< 8) % 2 ^ w ||| b.toNat = (val * 256 + b.toNat) % 2 ^ w := by
  have hb : b.toNat < 2 ^ 8 := b.toNat_lt
  obtain ⟨k, rfl⟩ := Nat.exists_eq_add_of_le hw
  have hpow : 2 ^ (8 + k) = 2 ^ 8 * 2 ^ k := Nat.pow_add 2 8 k
  have hlow : (val <<< 8) % 2 ^ (8 + k) = (val % 2 ^ k) <<< 8 := by
    rw [Nat.shiftLeft_eq, Nat.shiftLeft_eq, hpow, Nat.mul_comm val, Nat.mul_mod_mul_left, Nat.mul_comm]
  have hdiv : (val * 256 + b.toNat) / 2 ^ 8 = val := by omega
  have hmod : (val * 256 + b.toNat) % 2 ^ 8 = b.toNat := by omega
  rw [hlow, ← Nat.shiftLeft_add_eq_or_of_lt hb, Nat.shiftLeft_eq, hpow, Nat.mod_mul, hdiv, hmod, Nat.mul_comm, Nat.add_comm]

theorem foldBytes_eq (hw : 8 ≤ w) (val : Nat) (bs : List UInt8) (hval : val < 2 ^ w) :
    foldBytes w val bs = (val * 256 ^ bs.length + unpackInt bs.reverse) % 2 ^ w := by
  induction bs generalizing val with
  | nil =>
    rw [List.length_nil, Nat.pow_zero, Nat.mul_one, List.reverse_nil, unpackInt, Nat.add_zero, Nat.mod_eq_of_lt hval]
    rfl
  | cons b bs ih =>
    have hstep : foldBytes w val (b :: bs) = foldBytes w ((val * 256 + b.toNat) % 2 ^ w) bs := by
      rw [foldBytes, List.foldl_cons, shift_or hw]
      rfl
    rw [hstep, ih _ (Nat.mod_lt _ (by positivity)), List.reverse_cons, unpackInt_append, List.length_reverse, List.length_cons, Nat.pow_succ,
      unpackInt, unpackInt, Nat.mul_zero, Nat.add_zero]
    conv_lhs => rw [Nat.add_mod, Nat.mul_mod, Nat.mod_mod, ← Nat.mul_mod, ← Nat.add_mod]
    congr 1
    ring

theorem topBit_iff (b : UInt8) : b &&& 0x80 ≠ 0 ↔ 128 ≤ b.toNat := by
  have hb : b.toNat < 256 := b.toNat_lt
  have hand : (b &&& 0x80).toNat = b.toNat &&& 2 ^ 7 := UInt8.toNat_and b 0x80
  have hne : b &&& 0x80 ≠ 0 ↔ b.toNat &&& 2 ^ 7 ≠ 0 := by
    rw [← hand, Ne, Ne, ← UInt8.toNat_inj]
    rfl
  rw [hne, Nat.and_two_pow, Nat.testBit_eq_decide_div_mod_eq]
  by_cases h : b.toNat / 2 ^ 7 % 2 = 1
  · rw [decide_eq_true h]
    simp only [Bool.toNat_true]
    omega
  · rw [decide_eq_false h]
    simp only [Bool.toNat_false]
    omega

/-- The highest byte is 128 or more when the number is in the upper half. -/
theorem head_topBit (hn : 0 < bs.length) : (bs.headD 0) &&& 0x80 ≠ 0 ↔ 256 ^ bs.length ≤ 2 * unpackInt bs.reverse := by
  cases bs with
  | nil => exact absurd hn (by simp)
  | cons b bs =>
    have hlt := unpackInt_lt bs.reverse
    rw [List.length_reverse] at hlt
    rw [List.headD_cons, topBit_iff, List.reverse_cons, unpackInt_append, List.length_reverse, List.length_cons, Nat.pow_succ,
      unpackInt, unpackInt, Nat.mul_zero, Nat.add_zero]
    have hpos : 0 < 256 ^ bs.length := by positivity
    constructor
    · intro h
      have := Nat.mul_le_mul_left (256 ^ bs.length) h
      omega
    · intro h
      by_contra hb
      have := Nat.mul_le_mul_left (256 ^ bs.length) (show b.toNat ≤ 127 by omega)
      omega

/-- The word a row of bytes, highest first, is read into, as a signed number. -/
def readInt (w : Nat) (signed : Bool) (bs : List UInt8) : Int :=
  let val := if signed && (bs.headD 0) &&& 0x80 ≠ 0 then 2 ^ w - 1 else 0
  (foldBytes w val bs : Int).bmod (2 ^ w)

theorem bmod_lower {P u : Nat} (h : 2 * u < P) : (u : Int).bmod P = u := Int.bmod_eq_of_le (by omega) (by omega)

theorem bmod_upper {P u k : Nat} (hu : u < P) (h : P ≤ 2 * u) (hk : P = 2 * k) : (u : Int).bmod P = u - P := by
  rw [← Int.sub_bmod_right]
  exact Int.bmod_eq_of_le (by omega) (by omega)

theorem ones_above {M P u : Nat} (hPM : P ≤ M) (hu : u < P) : ((M - 1) * P + u) % M = M - P + u := by
  have hsplit : (M - 1) * P + u = (M - P + u) + M * (P - 1) := by
    obtain ⟨m, rfl⟩ : ∃ m, M = m + 1 := ⟨M - 1, by omega⟩
    obtain ⟨p, rfl⟩ : ∃ p, P = p + 1 := ⟨P - 1, by omega⟩
    rw [Nat.add_sub_cancel, Nat.add_sub_cancel]
    have hle : p ≤ m := by omega
    obtain ⟨d, rfl⟩ := Nat.exists_eq_add_of_le hle
    rw [show p + d + 1 - (p + 1) = d by omega]
    ring
  rw [hsplit, Nat.add_mul_mod_self_left, Nat.mod_eq_of_lt (by omega)]

theorem pow256_le (h : 8 * n ≤ w) : 256 ^ n ≤ 2 ^ w := by
  have hpow : (256 : Nat) ^ n = 2 ^ (8 * n) := by rw [Nat.pow_mul]
  rw [hpow]
  exact Nat.pow_le_pow_right (by decide) h

theorem pow256_even (hn : 0 < n) : ∃ k, 256 ^ n = 2 * k := by
  obtain ⟨j, rfl⟩ := Nat.exists_eq_add_of_le' hn
  exact ⟨128 * 256 ^ j, by rw [Nat.pow_succ]; ring⟩

/-- Under a sign the number is read with its sign. -/
theorem readInt_signed (hn : 0 < bs.length) (hw : 8 * bs.length ≤ w) :
    readInt w true bs = (unpackInt bs.reverse : Int).bmod (256 ^ bs.length : Nat) := by
  have hlt := unpackInt_lt bs.reverse
  rw [List.length_reverse] at hlt
  have hle := pow256_le hw
  obtain ⟨k, hk⟩ := pow256_even hn
  have hhead := head_topBit hn
  have hpos : 0 < 2 ^ w := by positivity
  obtain ⟨j, hj⟩ : ∃ j, 2 ^ w = 2 * j := ⟨2 ^ (w - 1), by rw [← Nat.pow_succ']; congr 1; omega⟩
  rw [readInt]
  by_cases htop : (bs.headD 0) &&& 0x80 ≠ 0
  · have hhigh := hhead.mp htop
    rw [if_pos (by rw [decide_eq_true htop]; rfl)]
    rw [foldBytes_eq (by omega) _ _ (Nat.sub_lt hpos Nat.one_pos), ones_above hle hlt, bmod_upper hlt hhigh hk,
      bmod_upper (u := 2 ^ w - 256 ^ bs.length + unpackInt bs.reverse) (by omega) (by omega) hj]
    omega
  · have hlow : ¬ 256 ^ bs.length ≤ 2 * unpackInt bs.reverse := fun h => htop (hhead.mpr h)
    rw [if_neg (by rw [decide_eq_false htop]; decide)]
    rw [foldBytes_eq (by omega) _ _ hpos, Nat.zero_mul, Nat.zero_add, Nat.mod_eq_of_lt (by omega),
      bmod_lower (show 2 * unpackInt bs.reverse < 256 ^ bs.length by omega), bmod_lower (show 2 * unpackInt bs.reverse < 2 ^ w by omega)]

theorem readInt_unsigned (hn : 0 < bs.length) (hw : 8 * bs.length ≤ w) : readInt w false bs % (2 ^ w : Nat) = unpackInt bs.reverse := by
  have hlt := unpackInt_lt bs.reverse
  rw [List.length_reverse] at hlt
  have hle := pow256_le hw
  rw [readInt, if_neg (by rw [Bool.false_and]; decide), foldBytes_eq (by omega) _ _ (by positivity), Nat.zero_mul, Nat.zero_add,
    Nat.mod_eq_of_lt (by omega), Int.bmod_emod]
  exact Int.emod_eq_of_lt (by omega) (by omega)

/-- What is read of an integer's bytes is the integer, wrapped to their number. -/
theorem readInt_ordered (hn : 0 < n) (hw : 8 * n ≤ w) (x : Int) :
    readInt w true (intBytes n x).reverse = wrap true n x ∧ readInt w false (intBytes n x).reverse % (2 ^ w : Nat) = wrap false n x := by
  have hl : (intBytes n x).reverse.length = n := by rw [List.length_reverse, length_intBytes]
  have hcast : ((256 ^ n : Nat) : Int) = 256 ^ n := Nat.cast_pow 256 n
  constructor
  · rw [readInt_signed (by omega) (by omega), hl, List.reverse_reverse, unpackInt_intBytes, wrap, if_pos rfl, ← hcast, Int.emod_bmod]
  · rw [readInt_unsigned (by omega) (by omega), List.reverse_reverse, unpackInt_intBytes]
    rfl

end PythonUltra.Lib.Struct
