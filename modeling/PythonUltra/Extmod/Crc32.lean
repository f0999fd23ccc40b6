/-
  PythonUltra.Extmod.Crc32 — binascii.crc32 (extmod/modbinascii.c, lib/uzlib/crc32.c).

  The table's words are four steps of the division by the polynomial, one bit a time
  (`shiftBit`), so a turn of the loop is eight (`uzlibCrc32_bits`). A step loses nothing, so
  two messages that differ in at most four bytes in a row have different sums
  (`crc32_detects`).
-/

import Mathlib.Data.Nat.Digits.Defs
import Mathlib.Logic.Function.Iterate

namespace PythonUltra.Extmod.Crc32

/-! ## The code -/

def tinfCrc32tab : List (BitVec 32) :=
  [0x00000000, 0x1db71064, 0x3b6e20c8, 0x26d930ac, 0x76dc4190, 0x6b6b51f4, 0x4db26158, 0x5005713c, 0xedb88320, 0xf00f9344, 0xd6d6a3e8,
    0xcb61b38c, 0x9b64c2b0, 0x86d3d2d4, 0xa00ae278, 0xbdbdf21c]

/-- Half of a turn of the loop in `uzlib_crc32`. -/
def nibble (crc : BitVec 32) : BitVec 32 := tinfCrc32tab.getD (crc &&& 0x0f#32).toNat 0 ^^^ (crc >>> 4)

def uzlibCrc32 (data : List (BitVec 8)) (crc : BitVec 32) : BitVec 32 :=
  data.foldl (fun crc byte => nibble (nibble (crc ^^^ byte.setWidth 32))) crc

/-- `mod_binascii_crc32`, with the second argument if there is one. -/
def crc32 (data : List (BitVec 8)) (start : Option Int) : BitVec 32 :=
  let crc := start.elim 0 (BitVec.ofInt 32)
  uzlibCrc32 data (crc ^^^ 0xffffffff#32) ^^^ 0xffffffff#32

/-! ## Division by the polynomial -/

def poly : BitVec 32 := 0xedb88320

/-- One bit of the message less. -/
def shiftBit (c : BitVec 32) : BitVec 32 := if c.getLsbD 0 then (c >>> 1) ^^^ poly else c >>> 1

/-- The remainder of a message, bit by bit. -/
def remainder (data : List (BitVec 8)) (crc : BitVec 32) : BitVec 32 := data.foldl (fun crc byte => shiftBit^[8] (crc ^^^ byte.setWidth 32)) crc

variable {a b c x : BitVec 32} {n : Nat} {data data' rest : List (BitVec 8)}

theorem shiftBit_xor (a b : BitVec 32) : shiftBit (a ^^^ b) = shiftBit a ^^^ shiftBit b := by
  have hcancel : a >>> 1 ^^^ poly ^^^ (b >>> 1 ^^^ poly) = a >>> 1 ^^^ b >>> 1 := by
    rw [BitVec.xor_comm (b >>> 1), BitVec.xor_assoc, ← BitVec.xor_assoc poly, BitVec.xor_self, BitVec.zero_xor]
  unfold shiftBit
  rw [BitVec.getLsbD_xor, BitVec.ushiftRight_xor_distrib]
  cases a.getLsbD 0 <;> cases b.getLsbD 0
  · rfl
  · exact BitVec.xor_assoc _ _ _
  · simp only [Bool.true_bne, Bool.not_false, if_true, Bool.false_eq_true, if_false]
    ac_rfl
  · exact hcancel.symm

theorem iterate_xor (n : Nat) (a b : BitVec 32) : shiftBit^[n] (a ^^^ b) = shiftBit^[n] a ^^^ shiftBit^[n] b := by
  induction n generalizing a b with
  | zero => rfl
  | succ n ih => rw [Function.iterate_succ_apply, shiftBit_xor, ih, Function.iterate_succ_apply, Function.iterate_succ_apply]

/-- Bits that are clear are shifted out. -/
theorem iterate_clear (n : Nat) : ∀ {c : BitVec 32}, 2 ^ n ∣ c.toNat → shiftBit^[n] c = c >>> n := by
  induction n with
  | zero =>
    intro c _
    simp
  | succ n ih =>
    intro c h
    obtain ⟨q, hq⟩ := h
    have hhalf : c.toNat = 2 * (2 ^ n * q) := by
      rw [hq, Nat.pow_succ, Nat.mul_comm (2 ^ n), Nat.mul_assoc]
    have hlow : c.getLsbD 0 = false := by
      simp [BitVec.getLsbD, hhalf]
    have hstep : shiftBit c = c >>> 1 := by
      rw [shiftBit, hlow, if_neg Bool.false_ne_true]
    have hdvd : 2 ^ n ∣ (c >>> 1).toNat := by
      rw [BitVec.toNat_ushiftRight, Nat.shiftRight_eq_div_pow, hhalf, Nat.pow_one, Nat.mul_div_cancel_left _ (by decide)]
      exact Nat.dvd_mul_right _ _
    rw [Function.iterate_succ_apply, hstep, ih hdvd, ← BitVec.shiftRight_add, Nat.add_comm]

theorem shiftBit_injective : Function.Injective shiftBit := by
  have hzero : ∀ c, shiftBit c = 0 → c = 0 := by
    intro c h
    unfold shiftBit at h
    split at h
    · have htop := congrArg (BitVec.getLsbD · 31) h
      simp [poly] at htop
    · next hlow =>
      have hshift := congrArg BitVec.toNat h
      rw [BitVec.toNat_ushiftRight, Nat.shiftRight_eq_div_pow] at hshift
      have hbit : c.toNat % 2 = 0 := by
        simpa [BitVec.getLsbD] using hlow
      apply BitVec.eq_of_toNat_eq
      simp at hshift ⊢
      omega
  intro a b h
  have hxor : shiftBit (a ^^^ b) = 0 := by
    rw [shiftBit_xor, h, BitVec.xor_self]
    rfl
  exact BitVec.xor_eq_zero_iff.mp (hzero _ hxor)

/-- The low bits are divided, and the others move down. -/
theorem iterate_split (n : Nat) (c : BitVec 32) : shiftBit^[n] c = shiftBit^[n] (BitVec.ofNat 32 (c.toNat % 2 ^ n)) ^^^ c >>> n := by
  have hsplit : c = BitVec.ofNat 32 (c.toNat % 2 ^ n) ^^^ (c >>> n) <<< n := by
    ext i hi
    rw [BitVec.getElem_xor, BitVec.getElem_shiftLeft, ← BitVec.getLsbD_eq_getElem, ← BitVec.getLsbD_eq_getElem, BitVec.getLsbD_ofNat, Nat.testBit_mod_two_pow]
    by_cases hlt : i < n
    · simp [hlt, hi, BitVec.getLsbD]
    · simp [hlt, show n + (i - n) = i by omega]
  have hback : ((c >>> n) <<< n).toNat = c.toNat / 2 ^ n * 2 ^ n := by
    rw [BitVec.toNat_shiftLeft, BitVec.toNat_ushiftRight, Nat.shiftRight_eq_div_pow, Nat.shiftLeft_eq]
    exact Nat.mod_eq_of_lt (Nat.lt_of_le_of_lt (Nat.div_mul_le_self _ _) c.isLt)
  have hmoved : ((c >>> n) <<< n) >>> n = c >>> n := by
    apply BitVec.eq_of_toNat_eq
    rw [BitVec.toNat_ushiftRight, hback, BitVec.toNat_ushiftRight, Nat.shiftRight_eq_div_pow, Nat.shiftRight_eq_div_pow,
      Nat.mul_div_cancel _ (Nat.two_pow_pos n)]
  calc shiftBit^[n] c = shiftBit^[n] (BitVec.ofNat 32 (c.toNat % 2 ^ n) ^^^ (c >>> n) <<< n) := by rw [← hsplit]
    _ = shiftBit^[n] (BitVec.ofNat 32 (c.toNat % 2 ^ n)) ^^^ c >>> n := by
      have hhigh : shiftBit^[n] ((c >>> n) <<< n) = c >>> n := by
        rw [iterate_clear n ⟨c.toNat / 2 ^ n, by rw [hback, Nat.mul_comm]⟩, hmoved]
      rw [iterate_xor, hhigh]

theorem nibble_eq (c : BitVec 32) : nibble c = shiftBit^[4] c := by
  have htable : ∀ i < 2 ^ 4, tinfCrc32tab.getD i 0 = shiftBit^[4] (BitVec.ofNat 32 i) := by
    decide
  have hlow : (c &&& 0x0f#32).toNat = c.toNat % 2 ^ 4 := by
    rw [BitVec.toNat_and]
    exact Nat.and_two_pow_sub_one_eq_mod _ 4
  rw [nibble, hlow, htable _ (Nat.mod_lt _ (by decide)), ← iterate_split]

theorem uzlibCrc32_bits (data : List (BitVec 8)) (crc : BitVec 32) : uzlibCrc32 data crc = remainder data crc := by
  have hturn : (fun (crc : BitVec 32) (byte : BitVec 8) => nibble (nibble (crc ^^^ byte.setWidth 32))) =
      fun crc byte => shiftBit^[8] (crc ^^^ byte.setWidth 32) := by
    funext crc byte
    rw [nibble_eq, nibble_eq, ← Function.iterate_add_apply]
  rw [uzlibCrc32, hturn, remainder]

/-! ## Messages that differ -/

theorem remainder_injective (data : List (BitVec 8)) : Function.Injective (remainder data) := by
  induction data with
  | nil => exact Function.injective_id
  | cons byte data ih =>
    intro a b h
    have hstep : a ^^^ byte.setWidth 32 = b ^^^ byte.setWidth 32 := shiftBit_injective.iterate 8 (ih h)
    exact (BitVec.xor_left_inj _).mp hstep

/-- The bytes as one number, the first one lowest. -/
def word (data : List (BitVec 8)) : Nat := Nat.ofDigits 256 (data.map BitVec.toNat)

theorem remainder_word (data : List (BitVec 8)) : ∀ (c : BitVec 32), data.length ≤ 4 →
    word data < 2 ^ (8 * data.length) ∧ remainder data c = shiftBit^[8 * data.length] (c ^^^ BitVec.ofNat 32 (word data)) := by
  induction data with
  | nil =>
    intro c _
    simp [word, remainder]
  | cons byte data ih =>
    intro c hle
    have hbyte := byte.isLt
    obtain ⟨hlt, hrest⟩ := ih (shiftBit^[8] (c ^^^ byte.setWidth 32)) (Nat.le_of_succ_le hle)
    have hsmall : word data < 2 ^ 24 := Nat.lt_of_lt_of_le hlt (Nat.pow_le_pow_right (by decide) (by rw [List.length_cons] at hle; omega))
    have hword : word (byte :: data) = byte.toNat + 256 * word data := by
      simp [word, Nat.ofDigits_cons]
    have hnat : (BitVec.ofNat 32 (byte.toNat + 256 * word data)).toNat = byte.toNat + 256 * word data := by
      rw [BitVec.toNat_ofNat]
      omega
    have hlow : BitVec.ofNat 32 ((byte.toNat + 256 * word data) % 2 ^ 8) = byte.setWidth 32 := by
      apply BitVec.eq_of_toNat_eq
      simp
      omega
    have hhigh : BitVec.ofNat 32 (byte.toNat + 256 * word data) >>> 8 = BitVec.ofNat 32 (word data) := by
      apply BitVec.eq_of_toNat_eq
      rw [BitVec.toNat_ushiftRight, hnat, Nat.shiftRight_eq_div_pow, BitVec.toNat_ofNat]
      omega
    have hturn := iterate_split 8 (BitVec.ofNat 32 (byte.toNat + 256 * word data))
    rw [hnat, hlow, hhigh] at hturn
    rw [hword, List.length_cons]
    constructor
    · rw [Nat.mul_succ, Nat.pow_add]
      omega
    · rw [Nat.mul_succ, Function.iterate_add_apply, iterate_xor, hturn, ← BitVec.xor_assoc, ← iterate_xor]
      exact hrest

theorem word_injective (hlen : data.length = data'.length) (h : word data = word data') : data = data' := by
  have hdigit : ∀ (data : List (BitVec 8)), ∀ d ∈ data.map BitVec.toNat, d < 256 := by
    intro data d hd
    obtain ⟨byte, -, rfl⟩ := List.mem_map.mp hd
    exact byte.isLt
  have hmap := Nat.ofDigits_inj_of_len_eq (by decide) (by simpa using hlen) (hdigit data) (hdigit data') h
  exact (List.map_inj_right fun a b => BitVec.eq_of_toNat_eq).mp hmap

theorem remainder_append (data data' : List (BitVec 8)) (crc : BitVec 32) : remainder (data ++ data') crc = remainder data' (remainder data crc) :=
  List.foldl_append

/-- The table divides as bit by bit, and a sum goes on from another. -/
theorem crc32_divides (data data' : List (BitVec 8)) (start : Option Int) :
    crc32 data start = remainder data (start.elim 0 (BitVec.ofInt 32) ^^^ 0xffffffff#32) ^^^ 0xffffffff#32 ∧
      crc32 (data ++ data') start = crc32 data' (some (crc32 data start).toNat) := by
  have hself : ∀ c : BitVec 32, c ^^^ 0xffffffff#32 ^^^ 0xffffffff#32 = c := by
    intro c
    rw [BitVec.xor_assoc, BitVec.xor_self, BitVec.xor_zero]
  constructor
  · rw [crc32, uzlibCrc32_bits]
  · simp [crc32, uzlibCrc32_bits, remainder_append, hself]

/-- Messages that differ in at most four bytes in a row have different sums. -/
theorem crc32_detects {start : Option Int} {head data data' rest : List (BitVec 8)} (hlen : data.length = data'.length) (hle : data.length ≤ 4)
    (h : data ≠ data') : crc32 (head ++ data ++ rest) start ≠ crc32 (head ++ data' ++ rest) start := by
  intro heq
  rw [crc32, crc32, uzlibCrc32_bits, uzlibCrc32_bits, BitVec.xor_left_inj, remainder_append, remainder_append, remainder_append, remainder_append] at heq
  have hwords := remainder_injective rest heq
  obtain ⟨hlt, hdata⟩ := remainder_word data (remainder head (start.elim 0 (BitVec.ofInt 32) ^^^ 0xffffffff#32)) hle
  obtain ⟨hlt', hdata'⟩ := remainder_word data' (remainder head (start.elim 0 (BitVec.ofInt 32) ^^^ 0xffffffff#32)) (hlen ▸ hle)
  rw [hdata, hdata', ← hlen] at hwords
  have hbits := (BitVec.xor_right_inj _).mp (shiftBit_injective.iterate (8 * data.length) hwords)
  have hbound : ∀ {w : Nat}, w < 2 ^ (8 * data.length) → (BitVec.ofNat 32 w).toNat = w := by
    intro w hw
    rw [BitVec.toNat_ofNat]
    exact Nat.mod_eq_of_lt (Nat.lt_of_lt_of_le hw (Nat.pow_le_pow_right (by decide) (by omega)))
  have hword := congrArg BitVec.toNat hbits
  rw [hbound hlt, hbound (hlen ▸ hlt')] at hword
  exact h (word_injective hlen hword)

theorem crc32_detects_swap : crc32 ([0x61] ++ [0x62, 0x63] ++ [0x64]) none ≠ crc32 ([0x61] ++ [0x63, 0x62] ++ [0x64]) none :=
  crc32_detects rfl (by decide) (by decide)

end PythonUltra.Extmod.Crc32
