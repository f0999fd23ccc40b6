/-
  PythonUltra.Py.BinarySpec — a field holds an integer wrapped to its width.

  A machine word, a word put into a wider field with its sign, and the digits of an `mpz_t`
  all leave the bytes of the integer (`setInt_eq`, `wideInt_eq`, `asBytes_eq`), so every
  integer does (`valBytes_int`); what is read from them is the integer, wrapped
  (`intVal_getInt`).
-/

import PythonUltra.Py.Binary
import PythonUltra.Py.MpzBits

namespace PythonUltra.Py.Binary

open PythonUltra.Lib PythonUltra.Lib.Struct PythonUltra.Py.Mpz PythonUltra.Py.Smallint

variable {abi : Abi} {n len size : Nat} {x : Int} {z : MpzT abi.toConfig}

/-! ## Words -/

theorem wordImage_eq (val : Nat) : wordImage abi val = ordered abi.bigEndian (packInt abi.wordBytes val) := by
  unfold wordImage ordered
  rfl

theorem setInt_eq (hn : n ≤ abi.wordBytes) (b : Bool) (val : Nat) : setInt abi n b val = ordered b (packInt n val) := by
  have htake := take_packInt hn val
  have hl := length_packInt abi.wordBytes val
  have hrev : (packInt n val).reverse.length = n := by rw [List.length_reverse, length_packInt]
  rw [setInt, wordImage_eq]
  cases hb : abi.bigEndian with
  | false =>
    cases b with
    | false => exact htake
    | true =>
      show ((packInt abi.wordBytes val).take n).reverse.take n = (packInt n val).reverse
      rw [htake, List.take_of_length_le (Nat.le_of_eq hrev)]
  | true =>
    cases b with
    | false =>
      show (packInt abi.wordBytes val).reverse.reverse.take n = packInt n val
      rw [List.reverse_reverse, htake]
    | true =>
      show (packInt abi.wordBytes val).reverse.drop (abi.wordBytes - n) = (packInt n val).reverse
      rw [← htake, List.reverse_take, hl]

theorem word_pow : ((2 ^ abi.wordBits : Nat) : Int) = 256 ^ abi.wordBytes := by
  rw [abi.wordBits_eq, Nat.pow_mul, Nat.cast_pow]
  rfl

theorem uword_pow (x : Int) : uword abi.toConfig x = (x % 256 ^ abi.wordBytes).toNat := by
  rw [uword, ← word_pow, Nat.cast_pow]
  rfl

theorem packInt_uword (hn : n ≤ abi.wordBytes) (x : Int) : packInt n (uword abi.toConfig x) = intBytes n x := by
  refine eq_intBytes (length_packInt _ _) ?_
  have hdvd : (256 : Int) ^ n ∣ 256 ^ abi.wordBytes := pow_dvd_pow 256 hn
  rw [unpackInt_packInt, uword_pow, Int.natCast_emod, toNat_emod_pow, Nat.cast_pow]
  exact Int.emod_emod_of_dvd x hdvd

/-- The lower bytes of a number, and above them its sign. -/
theorem intBytes_extend {m : Nat} (hmn : m ≤ n) (hlo : -256 ^ m ≤ x) (hhi : x < 256 ^ m) :
    intBytes m x ++ List.replicate (n - m) (if x < 0 then 0xff else 0) = intBytes n x := by
  refine eq_intBytes ?_ ?_
  · rw [List.length_append, length_intBytes, List.length_replicate]
    omega
  have hle : (256 : Int) ^ m ≤ 256 ^ n := pow_le_pow_right₀ (by norm_num) hmn
  have hsplit : (256 : Int) ^ m * 256 ^ (n - m) = 256 ^ n := by
    rw [← pow_add, Nat.add_sub_cancel' hmn]
  rw [unpackInt_append, length_intBytes, Nat.cast_add, Nat.cast_mul, Nat.cast_pow, unpackInt_intBytes]
  by_cases hx : x < 0
  · have hones := unpackInt_ones (n - m)
    have hcast : (unpackInt (List.replicate (n - m) 0xff) : Int) = 256 ^ (n - m) - 1 := by
      have h := congrArg (Nat.cast (R := Int)) hones
      rw [Nat.cast_add, Nat.cast_one, Nat.cast_pow] at h
      exact eq_sub_of_add_eq h
    rw [if_pos hx, hcast, ← Int.add_emod_right x (256 ^ m), ← Int.add_emod_right x (256 ^ n), Int.emod_eq_of_lt (by omega) (by omega),
      Int.emod_eq_of_lt (by omega) (by omega), mul_sub, mul_one, Nat.cast_ofNat, hsplit]
    ring
  · rw [if_neg hx, unpackInt_zeros, Nat.cast_zero, mul_zero, add_zero, Int.emod_eq_of_lt (by omega) hhi, Int.emod_eq_of_lt (by omega) (by omega)]

/-- A value of a machine word, in a field of any width. -/
theorem wideInt_eq (hlo : -256 ^ abi.wordBytes ≤ x) (hhi : x < 256 ^ abi.wordBytes) (h8 : size ≤ 8) (b : Bool) :
    wideInt abi size b x = ordered b (intBytes size x) := by
  have hlow : setInt abi (min size abi.wordBytes) b (uword abi.toConfig x) = ordered b (intBytes (min size abi.wordBytes) x) := by
    rw [setInt_eq (Nat.min_le_right _ _), packInt_uword (Nat.min_le_right _ _)]
  rw [wideInt, hlow]
  by_cases hwide : abi.wordBytes < 8 ∧ size > abi.wordBytes
  · have hmin : min size abi.wordBytes = abi.wordBytes := Nat.min_eq_right (Nat.le_of_lt hwide.2)
    have hext := intBytes_extend (Nat.le_of_lt hwide.2) hlo hhi
    rw [if_pos hwide, hmin, ← hext]
    cases b with
    | false => rfl
    | true =>
      show _ ++ (intBytes abi.wordBytes x).reverse = (intBytes abi.wordBytes x ++ _).reverse
      rw [List.reverse_append, List.reverse_replicate]
  · have hmin : min size abi.wordBytes = size := by
      rcases abi.wordBytes_eq with h | h <;> omega
    rw [if_neg hwide, hmin]

/-! ## Digits -/

/-- What the bytes of a digit are made from: the digit, or its complement and the carry. -/
def turnedDigit (neg : Bool) (B carry d : Nat) : Nat := if neg then B - 1 - d + carry else d

/-- The carry that goes on from it. -/
def nextCarry (neg : Bool) (B carry d : Nat) : Nat := if neg then turnedDigit neg B carry d / B else carry

theorem nextCarry_le {neg : Bool} {B carry d : Nat} (hc : carry ≤ 1) (hB : 0 < B) : nextCarry neg B carry d ≤ 1 := by
  unfold nextCarry turnedDigit
  cases neg with
  | false => exact hc
  | true =>
    have hlt : B - 1 - d + carry < 2 * B := by omega
    exact Nat.lt_succ_iff.mp ((Nat.div_lt_iff_lt_mul hB).mpr (by simpa using hlt))

/-- The complement of a number, with a carry: its lowest digit, and the rest with the next carry. -/
theorem turnedDigit_split (neg : Bool) {A P : Nat} (carry : Nat) {d : Nat} (hd : d < A * P) :
    turnedDigit neg (A * P) carry d % A = turnedDigit neg A carry (d % A) % A ∧
      turnedDigit neg (A * P) carry d / A = turnedDigit neg P (nextCarry neg A carry (d % A)) (d / A) := by
  have hA : 0 < A := Nat.pos_of_ne_zero fun h => by simp [h] at hd
  unfold nextCarry turnedDigit
  cases neg with
  | false => exact ⟨(Nat.mod_mod _ _).symm, rfl⟩
  | true =>
    simp only [if_true]
    have hlow : d % A < A := Nat.mod_lt _ hA
    have hhigh : d / A < P := Nat.div_lt_of_lt_mul hd
    have hsplit : A * P - 1 - d + carry = (A - 1 - d % A + carry) + A * (P - 1 - d / A) := by
      have hmul : A * (P - 1 - d / A) + A * (d / A) + A = A * P := by
        rw [← Nat.mul_add, ← Nat.mul_succ]
        congr 1
        omega
      have hdm := Nat.mod_add_div d A
      omega
    rw [hsplit, Nat.add_mul_mod_self_left, Nat.add_mul_div_left _ _ hA]
    exact ⟨rfl, Nat.add_comm _ _⟩

theorem nextCarry_split {neg : Bool} {A P carry d : Nat} (hd : d < A * P) :
    nextCarry neg P (nextCarry neg A carry (d % A)) (d / A) = nextCarry neg (A * P) carry d := by
  have hsplit := (turnedDigit_split neg carry hd).2
  unfold nextCarry at hsplit ⊢
  cases neg with
  | false => rfl
  | true =>
    simp only [if_true] at hsplit ⊢
    rw [← hsplit, Nat.div_div_eq_div_mul]

theorem sixteen_le_digBits : 16 ≤ abi.digBits := by
  rw [abi.digBits_eq]
  rcases abi.digSize_eq with h | h <;> omega

theorem take_snoc {out : List UInt8} {b : UInt8} :
    (if (out.take len).length < len then out.take len ++ [b] else out.take len) = (out ++ [b]).take len := by
  rw [List.length_take]
  by_cases h : out.length < len
  · rw [if_pos (by omega), List.take_of_length_le (Nat.le_of_lt h), List.take_of_length_le (by simpa using h)]
  · rw [if_neg (by omega), List.take_append_of_le_length (by omega)]

/-- A byte, and the carry out of it. -/
theorem emitByte_eq (neg : Bool) (len : Nat) (out : List UInt8) {carry d : Nat} (hc : carry ≤ 1) (hfits : d < 2 ^ abi.digBits) :
    emitByte abi neg len (out.take len) carry d =
      ((out ++ [UInt8.ofNat (turnedDigit neg 256 carry (d % 256) % 256)]).take len, nextCarry neg 256 carry (d % 256)) := by
  have hbig : 2 ^ 16 ≤ 2 ^ abi.digBits := Nat.pow_le_pow_right (by decide) sixteen_le_digBits
  rw [emitByte, show abi.dig d = d from Nat.mod_eq_of_lt hfits]
  cases neg with
  | false =>
    have hofNat : UInt8.ofNat d = UInt8.ofNat (d % 256 % 256) := by
      rw [Nat.mod_mod]
      exact (UInt8.ofNat_mod_size).symm
    simp only [Bool.false_eq_true, if_false, turnedDigit, nextCarry]
    rw [take_snoc, hofNat]
  | true =>
    have hval : abi.dig (255 - d % 256 + carry) = 255 - d % 256 + carry := Nat.mod_eq_of_lt (by omega)
    have hofNat : UInt8.ofNat (255 - d % 256 + carry) = UInt8.ofNat ((255 - d % 256 + carry) % 256) := (UInt8.ofNat_mod_size).symm
    simp only [if_true, turnedDigit, nextCarry, hval, Nat.shiftRight_eq_div_pow]
    rw [take_snoc, hofNat]

/-- Bytes one after the other: the turned digits of base 256, with a carry. -/
theorem emitBytes_spec (neg : Bool) (len : Nat) (out : List UInt8) {carry d : Nat} (n : Nat) (hc : carry ≤ 1) (hd : d < 256 ^ n) (hfits : d < 2 ^ abi.digBits) :
    ∃ bytes : List UInt8, bytes.length = n ∧ unpackInt bytes = turnedDigit neg (256 ^ n) carry d % 256 ^ n ∧
      emitBytes abi neg len n (out.take len, carry) d = ((out ++ bytes).take len, nextCarry neg (256 ^ n) carry d) := by
  induction n generalizing out carry d with
  | zero =>
    obtain rfl : d = 0 := by simpa using hd
    refine ⟨[], rfl, by simp [unpackInt, Nat.mod_one], ?_⟩
    rw [List.append_nil, emitBytes]
    cases neg <;> simp [nextCarry, turnedDigit]
  | succ n ih =>
    have hrest : d >>> 8 = d / 256 := Nat.shiftRight_eq_div_pow d 8
    have hdiv : d / 256 < 256 ^ n := by
      rw [Nat.pow_succ] at hd
      exact Nat.div_lt_of_lt_mul (by omega)
    have hpow : 256 ^ (n + 1) = 256 * 256 ^ n := by rw [Nat.pow_succ, Nat.mul_comm]
    have hbyte := emitByte_eq neg len out hc hfits
    have hcarry : nextCarry neg 256 carry (d % 256) ≤ 1 := nextCarry_le hc (by decide)
    obtain ⟨bytes, hl, hv, hrun⟩ := ih (out ++ [UInt8.ofNat (turnedDigit neg 256 carry (d % 256) % 256)]) hcarry hdiv
      (Nat.lt_of_le_of_lt (Nat.div_le_self _ _) hfits)
    refine ⟨UInt8.ofNat (turnedDigit neg 256 carry (d % 256) % 256) :: bytes, by rw [List.length_cons, hl], ?_, ?_⟩
    · have hb : (UInt8.ofNat (turnedDigit neg 256 carry (d % 256) % 256)).toNat = turnedDigit neg 256 carry (d % 256) % 256 := by
        rw [UInt8.toNat_ofNat']
        exact Nat.mod_eq_of_lt (Nat.mod_lt _ (by decide))
      rw [unpackInt, hb, hv, hpow, Nat.mod_mul]
      obtain ⟨hlow, hhigh⟩ := turnedDigit_split neg carry (hpow ▸ hd)
      rw [hlow, hhigh]
    · rw [emitBytes, hbyte, hrest, hrun, List.append_assoc, nextCarry_split (hpow ▸ hd), hpow]
      rfl

theorem base_eq : abi.base = 256 ^ (abi.digSize / 8) := by
  rw [Config.base, show (256 : Nat) = 2 ^ 8 from rfl, ← Nat.pow_mul]
  congr 1
  rcases abi.digSize_eq with h | h <;> omega

/-- A row of digits is turned digit by digit, the lowest one first. -/
theorem turned_lowest (neg : Bool) (carry : Nat) {dig : Nat → Nat} {i m : Nat} (hdig : ∀ q < m + 1, dig (i + q) < abi.base) :
    turnedDigit neg (abi.base * abi.base ^ m) carry (Digits.num abi.base (fun q => dig (i + q)) (m + 1)) % abi.base =
        turnedDigit neg abi.base carry (dig i) % abi.base ∧
      turnedDigit neg (abi.base * abi.base ^ m) carry (Digits.num abi.base (fun q => dig (i + q)) (m + 1)) / abi.base =
        turnedDigit neg (abi.base ^ m) (nextCarry neg abi.base carry (dig i)) (Digits.num abi.base (fun q => dig (i + 1 + q)) m) := by
  have h0 : dig i < abi.base := hdig 0 (Nat.succ_pos m)
  have hnum : Digits.num abi.base (fun q => dig (i + q)) (m + 1) =
      dig i + abi.base * Digits.num abi.base (fun q => dig (i + 1 + q)) m := by
    have h := Digits.num_add (B := abi.base) (fun q => dig (i + q)) 1 m
    have hone : Digits.num abi.base (fun q => dig (i + q)) 1 = dig i := by
      rw [Digits.num_succ, Digits.num_zero, pow_zero, mul_one, zero_add]
      rfl
    rw [Nat.add_comm 1 m, pow_one, hone] at h
    rw [h]
    congr 2
    exact Digits.num_congr fun q _ => congrArg dig (by omega)
  have hlt : Digits.num abi.base (fun q => dig (i + q)) (m + 1) < abi.base * abi.base ^ m := by
    rw [← Nat.pow_succ']
    exact Digits.num_lt abi.base_pos hdig
  obtain ⟨hlow, hhigh⟩ := turnedDigit_split neg carry hlt
  rw [hlow, hhigh, hnum, Nat.add_mul_mod_self_left, Nat.mod_eq_of_lt h0, Nat.add_mul_div_left _ _ abi.base_pos, Nat.div_eq_of_lt h0, Nat.zero_add]
  exact ⟨rfl, rfl⟩

/-- Each turn over the digits starts with no bits left over, and takes all of its digit. -/
theorem digit_alone {d : Nat} (hd : d < abi.base) :
    ((0 + abi.digSize) / 8 = abi.digSize / 8 ∧ (0 + abi.digSize) % 8 = 0 ∧ 8 * (abi.digSize / 8) = abi.digSize) ∧
      abi.dbl (0 <<< abi.digSize) ||| d = d ∧ d >>> abi.digSize = 0 := by
  refine ⟨by rcases abi.digSize_eq with h | h <;> omega, ?_, ?_⟩
  · rw [Nat.zero_shiftLeft, show abi.dbl 0 = 0 from Nat.zero_mod _, Nat.zero_or]
  · rw [Nat.shiftRight_eq_div_pow]
    exact Nat.div_eq_of_lt hd

/-- The bytes of the digits from the `i`th on. -/
theorem asBytesLoop_spec (neg : Bool) (len : Nat) (dig : Nat → Nat) (out : List UInt8) {carry : Nat} (m i : Nat) (hc : carry ≤ 1)
    (hdig : ∀ q < m, dig (i + q) < abi.base) :
    ∃ bytes : List UInt8, bytes.length = abi.digSize / 8 * m ∧
      unpackInt bytes = turnedDigit neg (abi.base ^ m) carry (Digits.num abi.base (fun q => dig (i + q)) m) % abi.base ^ m ∧
      (asBytesLoop abi neg len dig m i (out.take len, carry) 0 0).1 = (out ++ bytes).take len := by
  induction m generalizing i out carry with
  | zero => exact ⟨[], rfl, by simp [unpackInt, Nat.mod_one], by rw [List.append_nil, asBytesLoop]⟩
  | succ m ih =>
    have hbase : abi.base = 256 ^ (abi.digSize / 8) := base_eq
    have h0 : dig i < abi.base := hdig 0 (Nat.succ_pos m)
    have hfits : dig i < 2 ^ abi.digBits := Nat.lt_of_lt_of_le h0 abi.base_le_dig
    obtain ⟨hbits, hdigit, hgone⟩ := digit_alone h0
    obtain ⟨bytes, hl, hv, hrun⟩ := emitBytes_spec neg len out (abi.digSize / 8) hc (hbase ▸ h0) hfits
    have hcarry : nextCarry neg abi.base carry (dig i) ≤ 1 := nextCarry_le hc abi.base_pos
    obtain ⟨more, hl', hv', hrun'⟩ := ih (out ++ bytes) (i + 1) hcarry fun q hq => by
      have h := hdig (q + 1) (by omega)
      rwa [show i + (q + 1) = i + 1 + q by omega] at h
    obtain ⟨hlow, hhigh⟩ := turned_lowest neg carry hdig
    refine ⟨bytes ++ more, by rw [List.length_append, hl, hl', Nat.mul_succ, Nat.add_comm], ?_, ?_⟩
    · rw [unpackInt_append, hl, hv, hv', Nat.pow_succ', Nat.mod_mul, hlow, hhigh, ← hbase]
    · rw [asBytesLoop]
      simp only [hbits.1, hbits.2.1, hbits.2.2, hdigit, hgone]
      rw [hrun, ← hbase, hrun', List.append_assoc]

/-- The digits of an `mpz_t` leave the bytes of its value. -/
theorem asBytes_eq (hz : z.Normal) (b : Bool) : asBytes abi z b len = ordered b (intBytes len z.value) := by
  obtain ⟨bytes, hl, hv, hrun⟩ := asBytesLoop_spec z.neg len z.dig [] z.len 0 (Nat.le_refl 1)
    fun q hq => by rw [Nat.zero_add]; exact hz.digits.below q hq
  have hmag : Digits.num abi.base (fun q => z.dig (0 + q)) z.len = z.mag := Digits.num_congr fun q _ => congrArg z.dig (Nat.zero_add q)
  have hlt : z.mag < abi.base ^ z.len := Digits.num_lt abi.base_pos hz.digits.below
  have hpow : 256 ^ bytes.length = abi.base ^ z.len := by rw [hl, Nat.pow_mul, ← base_eq]
  rw [hmag] at hv
  -- the row that all of the digits make
  have hrow : bytes = intBytes bytes.length z.value := by
    refine eq_intBytes rfl ?_
    have hcast : (256 : Int) ^ bytes.length = ((abi.base ^ z.len : Nat) : Int) := by rw [← hpow, Nat.cast_pow]; rfl
    rw [hv, hcast, MpzT.value, signed, turnedDigit]
    cases hneg : z.neg with
    | false => rw [if_neg (by decide), if_neg (by decide), Int.natCast_emod]
    | true =>
      have hflip : abi.base ^ z.len - 1 - z.mag + 1 = abi.base ^ z.len - z.mag := by omega
      rw [if_pos rfl, if_pos rfl, hflip, Int.natCast_emod, Nat.cast_sub (Nat.le_of_lt hlt)]
      exact Int.emod_eq_emod_iff_emod_sub_eq_zero.mpr (by
        rw [show ((abi.base ^ z.len : Nat) : Int) - z.mag - -(z.mag : Int) = ((abi.base ^ z.len : Nat) : Int) by omega]
        exact Int.emod_self)
  have hstart : ([] : List UInt8) = List.take len [] := (List.take_nil).symm
  have hout : (asBytesLoop abi z.neg len z.dig z.len 0 ([], 1) 0 0).1 = bytes.take len := by
    have h := hrun
    rwa [List.take_nil, List.nil_append] at h
  have hbytes : bytes.take len ++ List.replicate (len - (bytes.take len).length) (if z.neg then (0xff : UInt8) else 0) = intBytes len z.value := by
    rw [List.length_take]
    by_cases hlen : len ≤ bytes.length
    · rw [Nat.min_eq_left hlen, Nat.sub_self, List.replicate_zero, List.append_nil, hrow, intBytes, take_packInt hlen]
      refine eq_intBytes (length_packInt _ _) ?_
      have hdvd : (256 : Int) ^ len ∣ 256 ^ bytes.length := pow_dvd_pow 256 hlen
      rw [unpackInt_packInt, Int.natCast_emod, toNat_emod_pow, Nat.cast_pow]
      exact Int.emod_emod_of_dvd _ hdvd
    · have hcast : (256 : Int) ^ bytes.length = ((abi.base ^ z.len : Nat) : Int) := by rw [← hpow, Nat.cast_pow]; rfl
      have hsign : (if z.neg then (0xff : UInt8) else 0) = if z.value < 0 then 0xff else 0 := by
        rw [MpzT.value, signed]
        cases hneg : z.neg with
        | false =>
          rw [if_neg (by decide)]
          simp only [Bool.false_eq_true, if_false]
          rw [if_neg (by omega)]
        | true =>
          have hpos := hz.mag_pos hneg
          rw [if_pos rfl, if_pos rfl, if_pos (by omega)]
      rw [Nat.min_eq_right (by omega), List.take_of_length_le (by omega), hsign]
      conv_lhs => rw [hrow, length_intBytes]
      refine intBytes_extend (by omega) ?_ ?_
      · rw [hcast, MpzT.value, signed]
        split <;> omega
      · rw [hcast, MpzT.value, signed]
        split <;> omega
  rw [asBytes, hout]
  simp only [hbytes]
  cases b <;> rfl

/-! ## Fields -/

/-- An int object, or a bool, is the integer `x`. -/
def Arg.IsInt : Arg abi → Int → Prop
  | .small v, x => InSmall abi.toConfig v ∧ v = x
  | .int z, x => Holds z x
  | .bool b, x => (if b then 1 else 0) = x
  | .buffer _, _ => False
  | .other _, _ => False

theorem standardSize_le {c : Char} (h : standardSize abi c = some size) : 0 < size ∧ size ≤ 8 := by
  have hw := abi.wordBytes_eq
  unfold standardSize at h
  split at h <;> first | (obtain rfl := Option.some.inj h; omega) | exact absurd h (by simp)

theorem CType.size_le (t : CType) : 0 < t.size abi ∧ t.size abi ≤ 8 := by
  have hw := abi.wordBytes_eq
  have hl := abi.longBytes_eq
  cases t <;> simp only [CType.size] <;> omega

theorem CType.alignment_pow (t : CType) : ∃ k < 8, t.alignment abi = 2 ^ k := by
  cases t with
  | char => exact ⟨0, by decide, rfl⟩
  | half => exact ⟨1, by decide, rfl⟩
  | _ => exact abi.align_pow _

/-- A field is of one to eight bytes, and aligned to a power of two. -/
theorem getSize_ok {o c : Char} {align : Nat} (h : getSize abi o c = .ok (size, align)) :
    0 < size ∧ size ≤ 8 ∧ ∃ k < 8, align = 2 ^ k := by
  have hstandard : getSize abi '<' c = .ok (size, align) → 0 < size ∧ size ≤ 8 ∧ ∃ k < 8, align = 2 ^ k := by
    intro h
    unfold getSize at h
    cases hs : standardSize abi c with
    | none =>
      rw [hs] at h
      cases h
    | some n =>
      rw [hs] at h
      cases h
      exact ⟨(standardSize_le hs).1, (standardSize_le hs).2, 0, by decide, rfl⟩
  unfold getSize at h
  split at h
  · exact hstandard h
  · exact hstandard h
  · cases ht : ctype c with
    | none =>
      rw [ht] at h
      cases h
    | some t =>
      rw [ht] at h
      cases h
      exact ⟨t.size_le.1, t.size_le.2, t.alignment_pow⟩
  · cases h

/-! ## How much is written -/

theorem length_setInt (hn : n ≤ abi.wordBytes) (b : Bool) (val : Nat) : (setInt abi n b val).length = n := by
  rw [setInt_eq hn, length_ordered, length_packInt]

theorem emitByte_le {neg : Bool} {out : List UInt8} {carry d : Nat} (h : out.length ≤ len) : (emitByte abi neg len out carry d).1.length ≤ len := by
  simp only [emitByte]
  split
  · rw [List.length_append]
    exact ‹out.length < len›
  · exact h

theorem emitBytes_le {neg : Bool} {st : List UInt8 × Nat} {d : Nat} (n : Nat) (h : st.1.length ≤ len) :
    (emitBytes abi neg len n st d).1.length ≤ len := by
  induction n generalizing st d with
  | zero => exact h
  | succ n ih => exact ih (emitByte_le h)

theorem asBytesLoop_le {neg : Bool} {dig : Nat → Nat} {st : List UInt8 × Nat} {d bits : Nat} (m i : Nat) (h : st.1.length ≤ len) :
    (asBytesLoop abi neg len dig m i st d bits).1.length ≤ len := by
  induction m generalizing i st d bits with
  | zero => exact h
  | succ m ih => exact ih _ (emitBytes_le _ h)

theorem length_asBytes (b : Bool) : (asBytes abi z b len).length = len := by
  have hle : (asBytesLoop abi z.neg len z.dig z.len 0 ([], 1) 0 0).1.length ≤ len := asBytesLoop_le _ _ (Nat.zero_le _)
  cases b <;> simp only [asBytes, if_true, Bool.false_eq_true, if_false, List.length_reverse, List.length_append, List.length_replicate] <;> omega

theorem length_wideInt (h8 : size ≤ 8) (b : Bool) : (wideInt abi size b x).length = size := by
  have hlow := length_setInt (Nat.min_le_right size abi.wordBytes) b (uword abi.toConfig x)
  have hw := abi.wordBytes_eq
  rw [wideInt]
  split
  · cases b <;> simp only [if_true, Bool.false_eq_true, if_false, List.length_append, List.length_replicate, hlow] <;> omega
  · rw [hlow]
    omega

theorem length_floatBytes {c : Char} {bits : Nat} (b : Bool) (h4 : c ≠ 'd' → size ≤ 4) (hd : c = 'd' → size = 8) :
    (floatBytes abi b c size bits).length = size := by
  have hw := abi.wordBytes_eq
  have hhalf (v : Nat) : (setInt abi 4 b v).length = 4 := length_setInt (by omega) b v
  rw [floatBytes]
  split
  · rename_i h
    have h8 := hd h.1
    cases b <;> simp [hhalf, h8]
  · rename_i h
    rw [length_setInt (Nat.min_le_right _ _)]
    by_cases hc : c = 'd'
    · have h8 := hd hc
      have hwide : abi.wordBytes = 8 := Decidable.byContradiction fun hne => h ⟨hc, hne⟩
      omega
    · have hsmall := h4 hc
      omega

theorem getSize_other {o c : Char} {align : Nat} (h : getSize abi o c = .ok (size, align)) :
    (c = 'O' ∨ c = 'S' → size = abi.wordBytes) ∧ (c = 'e' → size = 2) ∧ (c = 'f' → size = 4) ∧ (c = 'd' → size = 8) := by
  refine ⟨?_, ?_, ?_, ?_⟩
  · rintro (rfl | rfl) <;> (unfold getSize at h; split at h <;> cases h <;> rfl)
  all_goals
    rintro rfl
    unfold getSize at h
    split at h <;> cases h <;> rfl

/-- A field is written in full. -/
theorem length_valBytes {host : Host abi} {b : Bool} {o c : Char} {align : Nat} {arg : Arg abi} {bytes : List UInt8}
    (hs : getSize abi o c = .ok (size, align)) (h : valBytes host b c size arg = .ok bytes) : bytes.length = size := by
  obtain ⟨hO, he, hf, hd⟩ := getSize_other hs
  obtain ⟨-, h8, -⟩ := getSize_ok hs
  unfold valBytes at h
  split at h
  · rename_i hc
    cases h
    rw [length_setInt (Nat.min_le_right _ _), hO (.inl hc), Nat.min_self]
  · split at h
    · rename_i hc
      cases hbits : host.floatBits c arg with
      | none =>
        rw [hbits] at h
        cases h
      | some bits =>
        rw [hbits] at h
        cases h
        refine length_floatBytes b (fun hne => ?_) hd
        rcases hc with hc | hc | hc
        · exact Nat.le_trans (Nat.le_of_eq (he hc)) (by decide)
        · exact Nat.le_of_eq (hf hc)
        · exact absurd hc hne
    · cases arg with
      | int z =>
        cases h
        exact length_asBytes b
      | small v =>
        cases h
        exact length_wideInt h8 b
      | bool v =>
        cases h
        exact length_wideInt h8 b
      | buffer _ => cases h
      | other _ => cases h

/-- A code whose field holds an integer. -/
def intCodes : List Char := ['b', 'B', 'h', 'H', 'i', 'I', 'l', 'L', 'q', 'Q', 'P']

theorem intCodes_other {c : Char} (hc : c ∈ intCodes) : c ≠ 'O' ∧ c ≠ 'S' ∧ c ≠ 'e' ∧ c ≠ 'f' ∧ c ≠ 'd' ∧ c ≠ 'x' ∧ c ≠ 's' := by
  simp only [intCodes, List.mem_cons, List.not_mem_nil, or_false] at hc
  rcases hc with rfl | rfl | rfl | rfl | rfl | rfl | rfl | rfl | rfl | rfl | rfl <;> decide

/-- Every integer leaves its bytes in a field. -/
theorem valBytes_int {host : Host abi} {b : Bool} {c : Char} {arg : Arg abi} (hc : c ∈ intCodes) (h8 : size ≤ 8) (harg : arg.IsInt x) :
    valBytes host b c size arg = .ok (ordered b (intBytes size x)) := by
  obtain ⟨hO, -, he, hf, hd, -, -⟩ := intCodes_other hc
  have hhalf := half_ge (c := abi.toConfig)
  have hword := word_eq (c := abi.toConfig)
  rw [word_pow] at hword
  rw [valBytes, if_neg hO, if_neg (by simp [he, hf, hd])]
  cases arg with
  | small v =>
    obtain ⟨hv, rfl⟩ := harg
    obtain ⟨h1, h2⟩ := inSmall_iff.mp hv
    have hbytes : wideInt abi size b v = ordered b (intBytes size v) := wideInt_eq (by omega) (by omega) h8 b
    exact congrArg Except.ok hbytes
  | int z =>
    have hbytes : asBytes abi z b size = ordered b (intBytes size z.value) := asBytes_eq harg.normal b
    rw [harg.value] at hbytes
    exact congrArg Except.ok hbytes
  | bool v =>
    obtain rfl := harg
    have hbytes : wideInt abi size b (if v then 1 else 0) = ordered b (intBytes size (if v then 1 else 0)) :=
      wideInt_eq (by split <;> omega) (by split <;> omega) h8 b
    exact congrArg Except.ok hbytes
  | buffer _ => exact absurd harg id
  | other _ => exact absurd harg id

theorem intVal_getInt {b : Bool} {c : Char} (hpos : 0 < size) (h8 : size ≤ 8) (x : Int) :
    intVal c (getInt (isSigned c) b (ordered b (intBytes size x))) = .int (wrap (isSigned c) size x) := by
  have hrow : (if b then ordered b (intBytes size x) else (ordered b (intBytes size x)).reverse) = (intBytes size x).reverse := by
    cases b <;> rfl
  obtain ⟨hs, hu⟩ := readInt_ordered (w := 64) hpos (by omega) x
  rw [intVal, getInt, hrow]
  cases isSigned c with
  | true => exact congrArg Val.int hs
  | false => exact congrArg Val.int hu

end PythonUltra.Py.Binary
