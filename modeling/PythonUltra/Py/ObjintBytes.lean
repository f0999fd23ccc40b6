/-
  PythonUltra.Py.ObjintBytes — int.to_bytes and int.from_bytes (py/objint.c, with mpz_as_bytes
  and mpz_set_from_bytes of py/mpz.c).

  What is written into the buffer is always the lower bytes of the integer. Whether they
  are all of it is told in two ways: a small int counts its bytes first; an `mpz_t` looks at
  the bytes that are left over when the buffer is full, and at the sign bit. Those bytes
  have to be zero, also of a negative number (`MpzFits`).
-/

import PythonUltra.Py.BinarySpec
import PythonUltra.Py.ObjintExact

namespace PythonUltra.Py.ObjintBytes

open PythonUltra.Lib PythonUltra.Lib.Struct PythonUltra.Py.Mpz PythonUltra.Py.Smallint PythonUltra.Py.Binary

/-! ## mpz_as_bytes -/

section
variable (abi : Abi)

/-- `ok` after a byte of mpz_as_bytes: where the buffer is full, the byte has to be zero. -/
def byteFits (neg : Bool) (len : Nat) (out : List UInt8) (carry d : Nat) : Bool :=
  let val := abi.dig d
  let val := if neg then abi.dig (255 - val % 256 + carry) else val
  decide (out.length < len) || decide (val % 256 = 0)

/-- After the bytes of a digit. -/
def bytesFit (neg : Bool) (len : Nat) : Nat → List UInt8 × Nat → Nat → Bool
  | 0, _, _ => true
  | n + 1, st, d => byteFits abi neg len st.1 st.2 d && bytesFit neg len n (emitByte abi neg len st.1 st.2 d) (d >>> 8)

/-- After the digits from the `i`th on. -/
def digitsFit (neg : Bool) (len : Nat) (dig : Nat → Nat) : Nat → Nat → List UInt8 × Nat → Nat → Nat → Bool
  | 0, _, _, _, _ => true
  | zlen + 1, i, st, d, bits =>
    let bits := bits + abi.digSize
    let d := abi.dbl (d <<< abi.digSize) ||| dig i
    bytesFit abi neg len (bits / 8) st d &&
      digitsFit neg len dig zlen (i + 1) (emitBytes abi neg len (bits / 8) st d) (d >>> (8 * (bits / 8))) (bits % 8)

/-- What `mpz_as_bytes` returns, and the buffer. -/
def mpzAsBytes (z : MpzT abi.toConfig) (bigEndian asSigned : Bool) (len : Nat) : Bool × List UInt8 :=
  let ok := digitsFit abi z.neg len z.dig z.len 0 ([], 1) 0 0
  let olen := len - (asBytesLoop abi z.neg len z.dig z.len 0 ([], 1) 0 0).1.length
  let buf := asBytes abi z bigEndian len
  if asSigned && decide (olen = 0) && decide (len > 0) then
    -- there has to be space for the sign bit
    let mostSig := if bigEndian then buf.getD 0 0 else buf.getD (len - 1) 0
    (ok && (decide (mostSig &&& 0x80 ≠ 0) == z.neg), buf)
  else (ok, buf)

/-! ## int.to_bytes -/

/-- An int object. -/
inductive IntObj where
  | small (v : Int)
  | mpz (z : MpzT abi.toConfig)

/-- `mp_clz_mpi` -/
def clz (val : Nat) : Nat := abi.wordBits - val.size

/-- The number of bytes to represent a small int. -/
def smallLen (val : Int) : Int :=
  if val > 0 then ((abi.wordBits - clz abi val.toNat + 7) / 8 : Nat)
  else if val < -1 then ((abi.wordBits - clz abi (-val - 1).toNat + 8) / 8 : Nat)
  else -val

/-- The buffer for a small int of `slen` bytes. -/
def smallBytes (bigEndian : Bool) (dlen slen : Nat) (val : Int) : List UInt8 :=
  let fill := List.replicate (dlen - slen) (if val < 0 then (0xff : UInt8) else 0)
  let low := setInt abi slen bigEndian (uword abi.toConfig val)
  if bigEndian then fill ++ low else low ++ fill

/-- The arguments that are left out are `none`. -/
def intToBytes (host : Host abi) (self : IntObj abi) (length : Option Int) (order : Option String) : Except Exc (List UInt8) :=
  let dlen := length.getD 1
  if dlen < 0 then .error (.valueError "")
  else
    let bigEndian := decide (order ≠ some "little")
    if host.allocates (dlen.toNat + 1) = false then .error .memoryError
    else
      match self with
      | .mpz z =>
        let r := mpzAsBytes abi z bigEndian z.neg dlen.toNat
        if r.1 then .ok r.2 else .error (.overflowError "buffer too small")
      | .small val =>
        let slen := smallLen abi val
        if slen ≤ dlen then .ok (smallBytes abi bigEndian dlen.toNat slen.toNat val) else .error (.overflowError "buffer too small")

end

/-! ## int.from_bytes -/

section
variable {ι : Type} [DecidableEq ι] {abi : Abi}

/-- The bytes of a digit: `d`, `num_bits`, and what is left. -/
def takeBytes (abi : Abi) : List UInt8 → Nat → Int → Nat × Int × List UInt8
  | [], d, numBits => (d, numBits, [])
  | b :: bs, d, numBits =>
    if numBits < abi.digSize then takeBytes abi bs (d ||| abi.dig (b.toNat <<< numBits.toNat)) (numBits + 8) else (d, numBits, b :: bs)

/-- The loop of `mpz_set_from_bytes`, which takes at least a byte each turn. -/
def bytesDigits (z : Ref ι) : Nat → Int → List UInt8 → M abi.toConfig ι Unit
  | _, _, [] => pure ()
  | 0, _, _ :: _ => Prog.throw .stuck
  | fuel + 1, numBits, b :: bs => do
    let ⟨d, numBits, bs⟩ := takeBytes abi (b :: bs) 0 numBits
    let len ← look z MpzT.len
    writeDig z len (d &&& abi.mask)
    setLen z (len + 1)
    bytesDigits z fuel (numBits - abi.digSize) bs

/-- The digits asked for are counted in an `mp_uint_t`. -/
def mpzSetFromBytes (z : Ref ι) (bigEndian : Bool) (buf : List UInt8) : M abi.toConfig ι Unit := do
  mpzNeedDig z (abi.word (buf.length * 8 + abi.digSize - 1) / abi.digSize)
  setNeg z false
  setLen z 0
  bytesDigits z buf.length 0 (if bigEndian then buf.reverse else buf)
  setLen z (← mpnRemoveTrailingZeros z (← look z MpzT.len))

/-- The loop of int.from_bytes over the bytes, the highest first; `none` where a small int would
overflow. -/
def fromBytesLoop (abi : Abi) : Nat → List UInt8 → Option Nat
  | value, [] => some value
  | value, b :: bs =>
    if value > (2 ^ (abi.wordBits - 2) - 1) >>> 8 then none else fromBytesLoop abi (abi.word (value <<< 8) ||| b.toNat) bs

/-- `mp_obj_new_int_from_uint` -/
def newIntFromUint (value : Nat) : M abi.toConfig ι (Objint.Obj ι) :=
  if value &&& (3 <<< (abi.wordBits - 2)) = 0 then pure (.small (newSmallInt abi.toConfig value)) else Objint.newIntFromLl .res value

def intFromBytes (buf : List UInt8) (order : Option String) : M abi.toConfig ι (Objint.Obj ι) :=
  let bigEndian := decide (order ≠ some "little")
  match fromBytesLoop abi 0 (if bigEndian then buf else buf.reverse) with
  | some value => newIntFromUint value
  | none => do
    Objint.intNewMpz .res
    mpzSetFromBytes (.temp .res) bigEndian buf
    pure (.int (.temp .res))

end

/-! ## The bytes left over -/

variable {abi : Abi} {len : Nat}

theorem packInt_congr {w v v' : Nat} (h : v % 256 ^ w = v' % 256 ^ w) : packInt w v = packInt w v' := by
  refine eq_packInt (length_packInt _ _) ?_
  rw [unpackInt_packInt, h]

theorem packInt_add (w k v : Nat) : packInt (w + k) v = packInt w v ++ packInt k (v / 256 ^ w) := by
  induction w generalizing v with
  | zero => rw [Nat.zero_add, Nat.pow_zero, Nat.div_one, packInt, List.nil_append]
  | succ w ih => rw [Nat.succ_add, packInt, packInt, ih, Nat.div_div_eq_div_mul, ← Nat.pow_succ', List.cons_append]

theorem unpackInt_drop (bs : List UInt8) (n : Nat) : unpackInt (bs.drop n) = unpackInt bs / 256 ^ n := by
  by_cases hn : n ≤ bs.length
  · have hl : (bs.take n).length = n := by
      rw [List.length_take]
      omega
    have hlt := unpackInt_lt (bs.take n)
    rw [hl] at hlt
    conv_rhs => rw [← List.take_append_drop n bs, unpackInt_append, hl, Nat.add_mul_div_left _ _ (show 0 < 256 ^ n by positivity),
      Nat.div_eq_of_lt hlt, Nat.zero_add]
  · have hlt : unpackInt bs < 256 ^ n := Nat.lt_of_lt_of_le (unpackInt_lt bs) (Nat.pow_le_pow_right (show 0 < 256 by decide) (by omega))
    rw [List.drop_of_length_le (by omega), Nat.div_eq_of_lt hlt]
    rfl

theorem rest_append (bs cs : List UInt8) (n : Nat) :
    unpackInt ((bs ++ cs).drop n) = 0 ↔ unpackInt (bs.drop n) = 0 ∧ unpackInt (cs.drop (n - bs.length)) = 0 := by
  have hpos : 0 < 256 ^ (bs.drop n).length := by positivity
  rw [List.drop_append, unpackInt_append, Nat.add_eq_zero_iff, Nat.mul_eq_zero, or_iff_right hpos.ne']

theorem byteFits_eq (neg : Bool) (out : List UInt8) {carry d : Nat} (hc : carry ≤ 1) (hfits : d < 2 ^ abi.digBits) :
    byteFits abi neg len (out.take len) carry d =
      decide (unpackInt ([UInt8.ofNat (turnedDigit neg 256 carry (d % 256) % 256)].drop (len - out.length)) = 0) := by
  have hbig : 2 ^ 16 ≤ 2 ^ abi.digBits := Nat.pow_le_pow_right (by decide) sixteen_le_digBits
  have hval : (if neg then abi.dig (255 - abi.dig d % 256 + carry) else abi.dig d) % 256 = turnedDigit neg 256 carry (d % 256) % 256 := by
    rw [show abi.dig d = d from Nat.mod_eq_of_lt hfits]
    unfold turnedDigit
    cases neg with
    | false => exact (Nat.mod_mod _ _).symm
    | true =>
      have hdig : abi.dig (255 - d % 256 + carry) = 255 - d % 256 + carry := Nat.mod_eq_of_lt (by omega)
      rw [if_pos rfl, if_pos rfl, hdig]
  have hbyte : (UInt8.ofNat (turnedDigit neg 256 carry (d % 256) % 256)).toNat = turnedDigit neg 256 carry (d % 256) % 256 := by
    rw [UInt8.toNat_ofNat']
    exact Nat.mod_eq_of_lt (Nat.mod_lt _ (by decide))
  rw [byteFits, hval, List.length_take]
  by_cases hroom : out.length < len
  · obtain ⟨k, hk⟩ := Nat.exists_eq_add_of_lt hroom
    rw [decide_eq_true (by omega), Bool.true_or, show len - out.length = k + 1 by omega, List.drop_succ_cons, List.drop_nil]
    rfl
  · rw [decide_eq_false (by omega), Bool.false_or, Nat.sub_eq_zero_of_le (by omega), List.drop_zero, unpackInt, unpackInt, hbyte, Nat.mul_zero, Nat.add_zero]

theorem bytesFit_eq (neg : Bool) (out : List UInt8) {carry d : Nat} (n : Nat) (hc : carry ≤ 1) (hd : d < 256 ^ n) (hfits : d < 2 ^ abi.digBits) :
    bytesFit abi neg len n (out.take len, carry) d =
      decide (unpackInt ((packInt n (turnedDigit neg (256 ^ n) carry d)).drop (len - out.length)) = 0) := by
  induction n generalizing out carry d with
  | zero =>
    rw [bytesFit, packInt, List.drop_nil]
    rfl
  | succ n ih =>
    have hpow : 256 ^ (n + 1) = 256 * 256 ^ n := by rw [Nat.pow_succ, Nat.mul_comm]
    have hdiv : d / 256 < 256 ^ n := by
      rw [Nat.pow_succ] at hd
      exact Nat.div_lt_of_lt_mul (by omega)
    obtain ⟨hlow, hhigh⟩ := turnedDigit_split neg carry (hpow ▸ hd)
    have hcarry : nextCarry neg 256 carry (d % 256) ≤ 1 := nextCarry_le hc (by decide)
    have hrest := ih (out ++ [UInt8.ofNat (turnedDigit neg 256 carry (d % 256) % 256)]) hcarry hdiv
      (Nat.lt_of_le_of_lt (Nat.div_le_self _ _) hfits)
    have hsplit : packInt (n + 1) (turnedDigit neg (256 ^ (n + 1)) carry d) = [UInt8.ofNat (turnedDigit neg 256 carry (d % 256) % 256)] ++
        packInt n (turnedDigit neg (256 ^ n) (nextCarry neg 256 carry (d % 256)) (d / 256)) := by
      rw [packInt, hpow, hlow, hhigh]
      rfl
    rw [bytesFit]
    simp only
    rw [byteFits_eq neg out hc hfits, emitByte_eq neg len out hc hfits, Nat.shiftRight_eq_div_pow, hrest, hsplit, ← Bool.decide_and]
    refine decide_eq_decide.mpr ?_
    rw [rest_append, List.length_append, List.length_singleton, Nat.sub_sub]

theorem digitsFit_eq (neg : Bool) (dig : Nat → Nat) (out : List UInt8) {carry : Nat} (m i : Nat) (hc : carry ≤ 1)
    (hdig : ∀ q < m, dig (i + q) < abi.base) :
    digitsFit abi neg len dig m i (out.take len, carry) 0 0 = decide (unpackInt ((packInt (abi.digSize / 8 * m)
      (turnedDigit neg (abi.base ^ m) carry (Digits.num abi.base (fun q => dig (i + q)) m))).drop (len - out.length)) = 0) := by
  induction m generalizing i out carry with
  | zero =>
    rw [digitsFit, Nat.mul_zero, packInt, List.drop_nil]
    rfl
  | succ m ih =>
    have hbase : abi.base = 256 ^ (abi.digSize / 8) := base_eq
    have h0 : dig i < abi.base := hdig 0 (Nat.succ_pos m)
    have hfits : dig i < 2 ^ abi.digBits := Nat.lt_of_lt_of_le h0 abi.base_le_dig
    obtain ⟨hbits, hdigit, hgone⟩ := digit_alone h0
    obtain ⟨bytes, hl, -, hrun⟩ := emitBytes_spec neg len out (abi.digSize / 8) hc (hbase ▸ h0) hfits
    have hcarry : nextCarry neg abi.base carry (dig i) ≤ 1 := nextCarry_le hc abi.base_pos
    have hrest := ih (out ++ bytes) (i + 1) hcarry fun q hq => by
      have h := hdig (q + 1) (by omega)
      rwa [show i + (q + 1) = i + 1 + q by omega] at h
    obtain ⟨hlow, hhigh⟩ := turned_lowest neg carry hdig
    have hfirst : packInt (abi.digSize / 8) (turnedDigit neg (abi.base ^ (m + 1)) carry (Digits.num abi.base (fun q => dig (i + q)) (m + 1))) =
        packInt (abi.digSize / 8) (turnedDigit neg abi.base carry (dig i)) := by
      apply packInt_congr
      rw [← hbase, Nat.pow_succ', hlow]
    rw [digitsFit]
    simp only [hbits.1, hbits.2.1, hbits.2.2, hdigit, hgone]
    rw [bytesFit_eq neg out _ hc (hbase ▸ h0) hfits, hrun, ← hbase, hrest, Nat.mul_succ,
      Nat.add_comm (abi.digSize / 8 * m), packInt_add, hfirst, ← hbase,
      Nat.pow_succ' (m := abi.base), hhigh, ← Bool.decide_and]
    refine decide_eq_decide.mpr ?_
    rw [rest_append, List.length_append, length_packInt, hl, Nat.sub_sub]

/-! ## Whether an integer fits -/

/-- In `n` bytes, with a sign or without. -/
def InBytes (n : Nat) (v : Int) : Prop := -256 ^ n ≤ 2 * v ∧ v < 256 ^ n

instance (n : Nat) (v : Int) : Decidable (InBytes n v) := inferInstanceAs (Decidable (_ ∧ _))

theorem digitsFit_iff {z : MpzT abi.toConfig} (hz : z.Normal) :
    digitsFit abi z.neg len z.dig z.len 0 ([], 1) 0 0 = true ↔ (if z.neg then abi.base ^ z.len - z.mag else z.mag) < 256 ^ len := by
  have hbelow : ∀ q < z.len, z.dig (0 + q) < abi.base := by
    intro q hq
    rw [Nat.zero_add]
    exact hz.digits.below q hq
  have hfit : digitsFit abi z.neg len z.dig z.len 0 (([] : List UInt8).take len, 1) 0 0 = _ :=
    digitsFit_eq z.neg z.dig [] z.len 0 (Nat.le_refl 1) hbelow
  have hmag : Digits.num abi.base (fun q => z.dig (0 + q)) z.len = z.mag := Digits.num_congr fun q _ => congrArg z.dig (Nat.zero_add q)
  have hlt : z.mag < abi.base ^ z.len := hz.mag_lt
  have hpow : 256 ^ (abi.digSize / 8 * z.len) = abi.base ^ z.len := by rw [Nat.pow_mul, ← base_eq]
  have hturned : turnedDigit z.neg (abi.base ^ z.len) 1 z.mag % abi.base ^ z.len = if z.neg then abi.base ^ z.len - z.mag else z.mag := by
    unfold turnedDigit
    cases hneg : z.neg with
    | false =>
      rw [if_neg Bool.false_ne_true, if_neg Bool.false_ne_true]
      exact Nat.mod_eq_of_lt hlt
    | true =>
      have hpos := hz.mag_ne_zero hneg
      rw [if_pos rfl, if_pos rfl, Nat.mod_eq_of_lt (by omega)]
      omega
  rw [hmag, List.take_nil] at hfit
  rw [hfit, decide_eq_true_iff, List.length_nil, Nat.sub_zero, unpackInt_drop, unpackInt_packInt, hpow, hturned, Nat.div_eq_zero_iff_lt (by positivity)]

theorem written_length {z : MpzT abi.toConfig} (hz : z.Normal) :
    (asBytesLoop abi z.neg len z.dig z.len 0 ([], 1) 0 0).1.length = min len (abi.digSize / 8 * z.len) := by
  have hbelow : ∀ q < z.len, z.dig (0 + q) < abi.base := by
    intro q hq
    rw [Nat.zero_add]
    exact hz.digits.below q hq
  obtain ⟨bytes, hl, -, hrun⟩ := asBytesLoop_spec z.neg len z.dig [] z.len 0 (Nat.le_refl 1) hbelow
  rw [List.take_nil, List.nil_append] at hrun
  rw [hrun, List.length_take, hl]

theorem packInt_last (n v : Nat) : ((packInt (n + 1) v).getD n 0).toNat = v / 256 ^ n % 256 := by
  have hrow := packInt_add n 1 v
  have hlast : packInt 1 (v / 256 ^ n) = [UInt8.ofNat (v / 256 ^ n % 256)] := rfl
  rw [hrow, List.getD_append_right _ _ _ _ (Nat.le_of_eq (length_packInt n v)), length_packInt, Nat.sub_self, hlast, List.getD_cons_zero,
    UInt8.toNat_ofNat']
  exact Nat.mod_eq_of_lt (Nat.mod_lt _ (by decide))

theorem mostSig_iff {n : Nat} (b : Bool) (x : Int) :
    (if b then (ordered b (intBytes (n + 1) x)).getD 0 0 else (ordered b (intBytes (n + 1) x)).getD (n + 1 - 1) 0) &&& 0x80 ≠ 0 ↔
      256 ^ (n + 1) ≤ 2 * (x % 256 ^ (n + 1)).toNat := by
  have hbyte : (if b then (ordered b (intBytes (n + 1) x)).getD 0 0 else (ordered b (intBytes (n + 1) x)).getD (n + 1 - 1) 0) =
      (intBytes (n + 1) x).getD n 0 := by
    cases b with
    | false => rfl
    | true =>
      have hne : intBytes (n + 1) x ≠ [] := by
        intro h
        have := congrArg List.length h
        rw [length_intBytes] at this
        cases this
      rw [if_pos rfl, ordered, if_pos rfl, List.getD_eq_getElem?_getD, List.getD_eq_getElem?_getD, List.getElem?_reverse (by rw [length_intBytes]; omega),
        length_intBytes]
      rfl
  have hlt : (x % 256 ^ (n + 1)).toNat < 256 ^ (n + 1) := by
    have hpos : (0 : Int) < 256 ^ (n + 1) := by positivity
    have hmod := Int.emod_lt_of_pos x hpos
    have hcast : ((256 ^ (n + 1) : Nat) : Int) = 256 ^ (n + 1) := Nat.cast_pow 256 _
    omega
  rw [hbyte, topBit_iff, intBytes, packInt_last]
  generalize (x % 256 ^ (n + 1)).toNat = v at hlt ⊢
  rw [Nat.pow_succ] at hlt ⊢
  have hdiv : v / 256 ^ n < 256 := Nat.div_lt_of_lt_mul hlt
  rw [Nat.mod_eq_of_lt hdiv, Nat.le_div_iff_mul_le (by positivity)]
  omega

/-- The verdict on an `mpz_t`, by its complement in all of its digits where it is negative. -/
theorem mpzAsBytes_fits {z : MpzT abi.toConfig} (hz : z.Normal) (b : Bool) :
    (mpzAsBytes abi z b z.neg len).1 = true ↔
      if z.neg then abi.base ^ z.len - z.mag < 256 ^ len ∧ (0 < len → len ≤ abi.digSize / 8 * z.len → 256 ^ len ≤ 2 * (abi.base ^ z.len - z.mag))
      else z.mag < 256 ^ len := by
  have hfit := @digitsFit_iff abi len z hz
  have hwritten := @written_length abi len z hz
  unfold mpzAsBytes
  simp only [hwritten, asBytes_eq hz]
  cases hneg : z.neg with
  | false =>
    rw [hneg, if_neg Bool.false_ne_true] at hfit
    rw [Bool.false_and, Bool.false_and, if_neg Bool.false_ne_true, if_neg Bool.false_ne_true]
    exact hfit
  | true =>
    rw [hneg, if_pos rfl] at hfit
    rw [if_pos rfl, Bool.true_and]
    by_cases hfull : 0 < len ∧ len ≤ abi.digSize / 8 * z.len
    · obtain ⟨n, rfl⟩ := Nat.exists_eq_succ_of_ne_zero hfull.1.ne'
      have hcond : (decide (n.succ - min n.succ (abi.digSize / 8 * z.len) = 0) && decide (n.succ > 0)) = true := by
        rw [Bool.and_eq_true, decide_eq_true_iff, decide_eq_true_iff]
        omega
      have hlast := mostSig_iff (n := n) b z.value
      rw [if_pos hcond, Bool.and_eq_true, hfit, beq_iff_eq, decide_eq_true_iff, hlast]
      refine and_congr_right fun hlt => ?_
      -- the lower bytes are the complement, since nothing is left over
      have hlow : (z.value % 256 ^ (n + 1)).toNat = abi.base ^ z.len - z.mag := by
        have hpow : 256 ^ (abi.digSize / 8 * z.len) = abi.base ^ z.len := by rw [Nat.pow_mul, ← base_eq]
        have hdvd : 256 ^ (n + 1) ∣ abi.base ^ z.len := hpow ▸ Nat.pow_dvd_pow 256 hfull.2
        have hle : z.mag ≤ abi.base ^ z.len := Nat.le_of_lt hz.mag_lt
        have hcast : ((256 ^ (n + 1) : Nat) : Int) = 256 ^ (n + 1) := Nat.cast_pow 256 _
        have hvalue : z.value = ((abi.base ^ z.len - z.mag : Nat) : Int) - (abi.base ^ z.len : Nat) := by
          rw [MpzT.value, hneg, signed]
          simp only [if_true]
          omega
        have hmod : z.value % ((256 ^ (n + 1) : Nat) : Int) = ((abi.base ^ z.len - z.mag : Nat) : Int) := by
          rw [hvalue, Int.sub_emod, Int.emod_eq_zero_of_dvd (Int.natCast_dvd_natCast.mpr hdvd), sub_zero, Int.emod_emod_of_dvd _ (dvd_refl _)]
          exact Int.emod_eq_of_lt (by omega) (by exact_mod_cast hlt)
        rw [← hcast, hmod, Int.toNat_natCast]
      rw [hlow]
      exact ⟨fun h _ _ => h, fun h => h hfull.1 hfull.2⟩
    · have hcond : ¬ (decide (len - min len (abi.digSize / 8 * z.len) = 0) && decide (len > 0)) = true := by
        rw [Bool.and_eq_true, decide_eq_true_iff, decide_eq_true_iff]
        omega
      rw [if_neg hcond, hfit]
      exact ⟨fun h => ⟨h, fun h1 h2 => absurd ⟨h1, h2⟩ hfull⟩, fun h => h.1⟩

theorem mpzAsBytes_bytes {z : MpzT abi.toConfig} (hz : z.Normal) (b s : Bool) : (mpzAsBytes abi z b s len).2 = ordered b (intBytes len z.value) := by
  rw [← asBytes_eq hz]
  unfold mpzAsBytes
  simp only
  split <;> rfl

/-- An `mpz_t` for which the verdict is right: a negative one whose digits have more bytes than the
buffer has to be too large for it, and the bytes left over of it must not all be zero. -/
def MpzFits (z : MpzT abi.toConfig) (n : Nat) : Prop :=
  z.neg = false ∨ abi.digSize / 8 * z.len ≤ n ∨ n = 0 ∨
    256 ^ n < 2 * z.mag ∧ ¬ (abi.base ^ z.len < z.mag + 256 ^ n ∧ 2 * z.mag + 256 ^ n ≤ 2 * abi.base ^ z.len)

theorem mpzFits_iff {z : MpzT abi.toConfig} (hz : z.Normal) (b : Bool) :
    ((mpzAsBytes abi z b z.neg len).1 = true ↔ InBytes len z.value) ↔ MpzFits z len := by
  have hpow : 256 ^ (abi.digSize / 8 * z.len) = abi.base ^ z.len := by rw [Nat.pow_mul, ← base_eq]
  have hcast : ((256 ^ len : Nat) : Int) = 256 ^ len := Nat.cast_pow 256 _
  have hpos : 0 < 256 ^ len := by positivity
  have hlt : z.mag < abi.base ^ z.len := hz.mag_lt
  rw [mpzAsBytes_fits hz b]
  unfold MpzFits InBytes
  rw [← hcast, MpzT.value]
  cases hneg : z.neg with
  | false =>
    simp only [signed, Bool.false_eq_true, if_false, true_or, iff_true]
    omega
  | true =>
    have hmag := hz.mag_ne_zero hneg
    simp only [signed, if_true, Bool.true_eq_false, false_or]
    rcases Nat.lt_trichotomy len (abi.digSize / 8 * z.len) with hless | heq | hmore
    · have hfactor : 256 ^ len * 256 ≤ abi.base ^ z.len := by
        rw [← hpow, ← Nat.pow_succ]
        exact Nat.pow_le_pow_right (by decide) hless
      by_cases hzero : len = 0
      · simp only [hzero, Nat.pow_zero, Nat.lt_irrefl, false_imp_iff, and_true, true_or, or_true, iff_true]
        omega
      · have hlen : 0 < len := Nat.pos_of_ne_zero hzero
        simp only [hlen, hzero, hless.le, true_imp_iff, false_or, Nat.not_le.mpr hless]
        omega
    · have hsame : abi.base ^ z.len = 256 ^ len := by rw [← hpow, heq]
      by_cases hzero : len = 0
      · simp only [hzero, Nat.pow_zero, Nat.lt_irrefl, false_imp_iff, and_true, true_or, or_true, iff_true]
        rw [hzero, Nat.pow_zero] at hsame
        omega
      · have hlen : 0 < len := Nat.pos_of_ne_zero hzero
        simp only [hlen, heq.le, heq.ge, true_imp_iff, true_or, iff_true]
        omega
    · have hfactor : abi.base ^ z.len * 256 ≤ 256 ^ len := by
        rw [← hpow, ← Nat.pow_succ]
        exact Nat.pow_le_pow_right (by decide) hmore
      simp only [hmore.le, Nat.not_le.mpr hmore, false_imp_iff, imp_true_iff, and_true, true_or, iff_true]
      omega

/-! ## Small ints -/

theorem clz_eq {val : Nat} (h : val < 2 ^ abi.wordBits) : abi.wordBits - clz abi val = val.size := by
  have hle : val.size ≤ abi.wordBits := Nat.size_le.mpr h
  unfold clz
  omega

theorem smallLen_le_iff {v : Int} (hv : InSmall abi.toConfig v) (n : Nat) : smallLen abi v ≤ n ↔ InBytes n v := by
  have hhalf := half_ge (c := abi.toConfig)
  have hword := word_eq (c := abi.toConfig)
  have hin := inSmall_iff.mp hv
  have hcast : ((256 ^ n : Nat) : Int) = 256 ^ n := Nat.cast_pow 256 n
  have hbits : 256 ^ n = 2 ^ (8 * n) := by rw [Nat.pow_mul]
  have hpos : 0 < 256 ^ n := by positivity
  unfold smallLen InBytes
  rw [← hcast]
  by_cases hup : v > 0
  · have hsize := Nat.size_le (m := v.toNat) (n := 8 * n)
    rw [if_pos hup, clz_eq (by omega)]
    omega
  rw [if_neg hup]
  by_cases hlow : v < -1
  · rw [if_pos hlow, clz_eq (by omega)]
    cases n with
    | zero =>
      rw [Nat.pow_zero]
      omega
    | succ n =>
      have hsize := Nat.size_le (m := (-v - 1).toNat) (n := 8 * n + 7)
      have hpow : 2 ^ (8 * (n + 1)) = 2 * 2 ^ (8 * n + 7) := by rw [← Nat.pow_succ', Nat.mul_succ]
      omega
  · rw [if_neg hlow]
    cases n with
    | zero =>
      rw [Nat.pow_zero]
      omega
    | succ n =>
      rw [Nat.pow_succ] at *
      omega

theorem smallBytes_eq {v : Int} {n slen : Nat} (hv : InSmall abi.toConfig v) (b : Bool) (hs : smallLen abi v = slen) (hn : slen ≤ n) :
    smallBytes abi b n slen v = ordered b (intBytes n v) := by
  have hfits : InBytes slen v := (smallLen_le_iff hv slen).mp (Int.le_of_eq hs)
  have hpos : (0 : Int) < 256 ^ slen := by positivity
  have hword : slen ≤ abi.wordBytes := by
    have hall : InBytes abi.wordBytes v := by
      have hin := inSmall_iff.mp hv
      have hhalf := half_ge (c := abi.toConfig)
      have hpow := word_eq (c := abi.toConfig)
      rw [word_pow] at hpow
      unfold InBytes
      omega
    have hle := (smallLen_le_iff hv abi.wordBytes).mpr hall
    omega
  have hext := intBytes_extend hn (show -256 ^ slen ≤ v by unfold InBytes at hfits; omega) hfits.2
  unfold smallBytes
  rw [setInt_eq hword, packInt_uword hword, ← hext]
  cases b with
  | false => rfl
  | true =>
    show _ ++ (intBytes slen v).reverse = (intBytes slen v ++ _).reverse
    rw [List.reverse_append, List.reverse_replicate]

/-! ## to_bytes -/

/-- The value of an int object, a small int or a normal `mpz_t`. -/
def IntObj.Is : IntObj abi → Int → Prop
  | .small w, v => InSmall abi.toConfig w ∧ w = v
  | .mpz z, v => Holds z v

/-- The objects for which to_bytes tells whether they fit. -/
def ToBytesRight (self : IntObj abi) (n : Nat) : Prop :=
  match self with
  | .small _ => True
  | .mpz z => MpzFits z n

/-- What Python says, where there is memory for the bytes. -/
def exactToBytes (host : Host abi) (v : Int) (n : Nat) (bigEndian : Bool) : Except Exc (List UInt8) :=
  if host.allocates (n + 1) = false then .error .memoryError
  else if InBytes n v then .ok (ordered bigEndian (intBytes n v)) else .error (.overflowError "buffer too small")

theorem intToBytes_iff {host : Host abi} {self : IntObj abi} {v : Int} {n : Nat} {order : Option String} (hself : self.Is v) :
    intToBytes abi host self (some n) order = exactToBytes host v n (decide (order ≠ some "little")) ↔
      host.allocates (n + 1) = false ∨ ToBytesRight self n := by
  unfold intToBytes exactToBytes
  simp only [Option.getD_some, Int.toNat_natCast]
  rw [if_neg (by omega)]
  by_cases hmem : host.allocates (n + 1) = false
  · rw [if_pos hmem, if_pos hmem]
    exact iff_of_true rfl (.inl hmem)
  rw [if_neg hmem, if_neg hmem, or_iff_right hmem]
  cases self with
  | small w =>
    obtain ⟨hin, rfl⟩ := hself
    refine iff_of_true ?_ trivial
    have hiff := smallLen_le_iff hin n
    by_cases hfits : InBytes n w
    · have hle := hiff.mpr hfits
      obtain ⟨slen, hs⟩ : ∃ slen : Nat, smallLen abi w = slen := by
        refine ⟨(smallLen abi w).toNat, ?_⟩
        unfold smallLen
        split
        · rfl
        · split
          · rfl
          · omega
      show (if smallLen abi w ≤ n then _ else _) = _
      rw [if_pos hle, if_pos hfits, hs, Int.toNat_natCast, smallBytes_eq hin _ hs (by omega)]
    · show (if smallLen abi w ≤ n then _ else _) = _
      rw [if_neg (mt hiff.mp hfits), if_neg hfits]
  | mpz z =>
    have hvalue := hself.value
    show (if (mpzAsBytes abi z _ z.neg n).1 = true then _ else _) = _ ↔ MpzFits z n
    rw [← mpzFits_iff hself.normal (decide (order ≠ some "little")), hvalue, mpzAsBytes_bytes hself.normal, hvalue]
    by_cases hfits : InBytes n v
    · rw [if_pos hfits]
      split
      · rename_i hok
        exact iff_of_true rfl (iff_of_true hok hfits)
      · rename_i hok
        exact iff_of_false (by simp) fun h => hok (h.mpr hfits)
    · rw [if_neg hfits]
      split
      · rename_i hok
        exact iff_of_false (by simp) fun h => hfits (h.mp hok)
      · rename_i hok
        exact iff_of_true rfl (iff_of_false hok hfits)

/-! ## from_bytes -/

section
variable {ι : Type} [DecidableEq ι] {h : Heap abi.toConfig ι} {z : Ref ι}

omit [DecidableEq ι] in
theorem wp_of_run {α : Type} {x y : M abi.toConfig ι α} {h₁ : Heap abi.toConfig ι} {Q : α → Heap abi.toConfig ι → Prop}
    {R : Fault → Heap abi.toConfig ι → Prop} (hrun : x h = y h₁) (hy : Prog.wp y Q R h₁) : Prog.wp x Q R h := by
  unfold Prog.wp at *
  rwa [hrun]

theorem unpackInt_take_mod (bs : List UInt8) (n : Nat) : unpackInt (bs.take n) = unpackInt bs % 256 ^ n := by
  by_cases hn : n ≤ bs.length
  · exact unpackInt_take hn
  · have hlt : unpackInt bs < 256 ^ n := Nat.lt_of_lt_of_le (unpackInt_lt bs) (Nat.pow_le_pow_right (show 0 < 256 by decide) (by omega))
    rw [List.take_of_length_le (by omega), Nat.mod_eq_of_lt hlt]

/-- The bytes that a digit has room for. -/
theorem takeBytes_eq (bs : List UInt8) {k d w : Nat} (hw : abi.digSize = 8 * (k + w)) (hd : d < 256 ^ k) :
    ∃ numBits : Int, takeBytes abi bs d ((8 * k : Nat) : Int) = (d + 256 ^ k * unpackInt (bs.take w), numBits, bs.drop w) ∧
      (bs.drop w ≠ [] → numBits = abi.digSize) := by
  induction bs generalizing k d w with
  | nil =>
    refine ⟨((8 * k : Nat) : Int), ?_, fun h => absurd (List.drop_nil (i := w)) h⟩
    rw [takeBytes, List.take_nil, List.drop_nil, unpackInt, Nat.mul_zero, Nat.add_zero]
  | cons b bs ih =>
    cases w with
    | zero =>
      refine ⟨((8 * k : Nat) : Int), ?_, fun _ => by omega⟩
      rw [takeBytes, if_neg (by omega), List.take_zero, unpackInt, Nat.mul_zero, Nat.add_zero]
      rfl
    | succ w =>
      have hb : b.toNat < 256 := b.toNat_lt
      have hpow : 2 ^ (8 * k) = 256 ^ k := by rw [Nat.pow_mul]
      have hfull : 256 ^ (k + (w + 1)) ≤ 2 ^ abi.digBits := by
        rw [abi.digBits_eq, hw, Nat.pow_mul]
      have hle : 256 ^ (k + 1) ≤ 256 ^ (k + (w + 1)) := Nat.pow_le_pow_right (by decide) (by omega)
      have hbyte : b.toNat * 256 ^ k < 256 ^ (k + 1) := by
        rw [Nat.pow_succ, Nat.mul_comm (256 ^ k)]
        exact Nat.mul_lt_mul_of_pos_right hb (by positivity)
      have hdig : d ||| abi.dig (b.toNat <<< (((8 * k : Nat) : Int)).toNat) = d + 256 ^ k * b.toNat := by
        rw [Int.toNat_natCast, Nat.shiftLeft_eq, hpow, Config.dig, Nat.mod_eq_of_lt (by omega), ← hpow, ← Nat.shiftLeft_eq, Nat.lor_comm,
          shl_or (by rw [hpow]; exact hd), Nat.mul_comm]
      have hnext : d + 256 ^ k * b.toNat < 256 ^ (k + 1) := by
        have hstep : 256 ^ k * (b.toNat + 1) ≤ 256 ^ k * 256 := Nat.mul_le_mul_left _ hb
        rw [Nat.mul_succ] at hstep
        rw [Nat.pow_succ]
        omega
      obtain ⟨numBits, hrun, hend⟩ := ih (k := k + 1) (d := d + 256 ^ k * b.toNat) (w := w) (by omega) hnext
      refine ⟨numBits, ?_, hend⟩
      have hbits : ((8 * k : Nat) : Int) + 8 = ((8 * (k + 1) : Nat) : Int) := by push_cast; ring
      rw [takeBytes, if_pos (by omega), hdig, hbits, hrun, List.take_succ_cons, List.drop_succ_cons, unpackInt, Nat.pow_succ]
      congr 1
      ring

/-- The digits that `len` bytes take. -/
def digitsFor (abi : Abi) (len : Nat) : Nat := (len + abi.digSize / 8 - 1) / (abi.digSize / 8)

theorem digitsFor_succ (len : Nat) : digitsFor abi (len + 1) = digitsFor abi (len + 1 - abi.digSize / 8) + 1 := by
  unfold digitsFor
  rcases abi.digSize_eq with h | h
  all_goals
    rw [h]
    omega

/-- The digits that were there, and the bytes' after them. -/
structure Taken (h : Heap abi.toConfig ι) (z : Ref ι) (bs : List UInt8) (f : Nat → Nat) : Prop where
  same : ∀ q < (h z).len, f q = (h z).dig q
  below : ∀ q, (h z).len ≤ q → q < (h z).len + digitsFor abi bs.length → f q < abi.base
  num : Digits.num abi.base f ((h z).len + digitsFor abi bs.length) = Digits.num abi.base (h z).dig (h z).len + abi.base ^ (h z).len * unpackInt bs

/-- The next digit. -/
theorem bytesDigits_succ {fuel : Nat} {b : UInt8} {bs : List UInt8} (hspace : (h z).len < (h z).alloc) :
    ∃ numBits : Int, ((b :: bs).drop (abi.digSize / 8) ≠ [] → numBits = 0) ∧ bytesDigits z (fuel + 1) 0 (b :: bs) h =
      bytesDigits z fuel numBits ((b :: bs).drop (abi.digSize / 8)) (pushed h z (unpackInt (b :: bs) % abi.base)) := by
  have hbits : abi.digSize = 8 * (0 + abi.digSize / 8) := by rcases abi.digSize_eq with h | h <;> omega
  obtain ⟨numBits, htake, hend⟩ := takeBytes_eq (b :: bs) hbits (show 0 < 256 ^ 0 by decide)
  rw [Nat.mul_zero, Nat.cast_zero, Nat.pow_zero, Nat.one_mul, Nat.zero_add, unpackInt_take_mod, ← base_eq] at htake
  refine ⟨numBits - abi.digSize, fun hne => by rw [hend hne, Int.sub_self], ?_⟩
  have hwrite := writeDig_of_lt (h := h) (i := z) (p := (h z).len) (x := unpackInt (b :: bs) % abi.base &&& abi.mask) hspace
  rw [Config.and_mask, Nat.mod_mod, Config.dig_of_lt (Nat.mod_lt _ abi.base_pos)] at hwrite
  rw [bytesDigits, htake]
  simp only
  rw [Config.and_mask, Nat.mod_mod]
  show (writeDig z (h z).len (unpackInt (b :: bs) % abi.base) >>= _) h = _
  rw [Prog.bind_of_ok hwrite]
  exact congrArg (bytesDigits z fuel (numBits - abi.digSize) ((b :: bs).drop (abi.digSize / 8))) (putLen_withDig _ _)

theorem bytesDigits_nil {fuel : Nat} {numBits : Int} (hlen : (h z).len ≤ (h z).alloc) :
    Prog.wp (bytesDigits z fuel numBits [])
      (fun _ h' => (h z).len + digitsFor abi 0 ≤ (h z).alloc ∧ ∃ f, h' = stored h z f ((h z).len + digitsFor abi 0) (h z).neg ∧ Taken h z [] f)
      (fun e _ => e = .bounds ∧ (h z).alloc < (h z).len + digitsFor abi 0) h := by
  have hnone : digitsFor abi 0 = 0 := by
    unfold digitsFor
    rcases abi.digSize_eq with h | h
    all_goals
      rw [h]
  rw [bytesDigits, hnone]
  refine ⟨hlen, (h z).dig, (Function.update_eq_self z h).symm, fun _ _ => rfl, fun q h1 h2 => ?_, ?_⟩
  · rw [List.length_nil, hnone] at h2
    omega
  · rw [List.length_nil, hnone, unpackInt, Nat.mul_zero, Nat.add_zero]
    rfl

theorem Taken.cons {b : UInt8} {bs : List UInt8} {f : Nat → Nat}
    (hf : Taken (pushed h z (unpackInt (b :: bs) % abi.base)) z ((b :: bs).drop (abi.digSize / 8)) f) : Taken h z (b :: bs) f := by
  have hcount : digitsFor abi (b :: bs).length = digitsFor abi ((b :: bs).drop (abi.digSize / 8)).length + 1 := by
    rw [List.length_drop]
    exact digitsFor_succ bs.length
  have hsame := hf.same
  have hbelow := hf.below
  have hnum := hf.num
  rw [pushed_self] at hsame hbelow hnum
  simp only at hsame hbelow hnum
  have hlast : f (h z).len = unpackInt (b :: bs) % abi.base := (hsame _ (Nat.lt_succ_self _)).trans (Function.update_self _ _ _)
  have hlow : ∀ q < (h z).len, f q = (h z).dig q := fun q hq =>
    (hsame q (by omega)).trans (Function.update_of_ne (Nat.ne_of_lt hq) _ _)
  refine ⟨hlow, fun q h1 h2 => ?_, ?_⟩
  · rcases Nat.eq_or_lt_of_le h1 with heq | hlt
    · rw [← heq, hlast]
      exact Nat.mod_lt _ abi.base_pos
    · exact hbelow q hlt (by omega)
  · rw [hcount, ← Nat.add_assoc, Nat.add_right_comm, hnum, ← Digits.num_congr hsame, Digits.num_succ, hlast, Digits.num_congr hlow,
      unpackInt_drop, ← base_eq]
    conv_rhs => rw [← Nat.mod_add_div (unpackInt (b :: bs)) abi.base]
    ring

theorem bytesDigits_spec {fuel : Nat} {bs : List UInt8} {numBits : Int} (hfuel : bs.length ≤ fuel) (hbits : bs ≠ [] → numBits = 0)
    (hlen : (h z).len ≤ (h z).alloc) :
    Prog.wp (bytesDigits z fuel numBits bs)
      (fun _ h' => (h z).len + digitsFor abi bs.length ≤ (h z).alloc ∧
        ∃ f, h' = stored h z f ((h z).len + digitsFor abi bs.length) (h z).neg ∧ Taken h z bs f)
      (fun e _ => e = .bounds ∧ (h z).alloc < (h z).len + digitsFor abi bs.length) h := by
  have hW : 0 < abi.digSize / 8 := by rcases abi.digSize_eq with h | h <;> omega
  induction fuel generalizing bs numBits h with
  | zero =>
    obtain rfl : bs = [] := List.eq_nil_of_length_eq_zero (by omega)
    exact bytesDigits_nil hlen
  | succ fuel ih =>
    cases bs with
    | nil => exact bytesDigits_nil hlen
    | cons b bs =>
      have hcount : digitsFor abi (b :: bs).length = digitsFor abi ((b :: bs).drop (abi.digSize / 8)).length + 1 := by
        rw [List.length_drop]
        exact digitsFor_succ bs.length
      rw [hbits (List.cons_ne_nil b bs)]
      by_cases hspace : (h z).len < (h z).alloc
      · obtain ⟨numBits', hbits', hrun⟩ := @bytesDigits_succ abi ι _ h z fuel b bs hspace
        have hshort : ((b :: bs).drop (abi.digSize / 8)).length ≤ fuel := by
          rw [List.length_drop]
          rw [List.length_cons] at *
          omega
        have hrest := ih (h := pushed h z (unpackInt (b :: bs) % abi.base)) hshort hbits' (by rw [pushed_self]; exact hspace)
        refine wp_of_run hrun (Prog.wp_mono hrest (fun _ h' hq => ?_) fun e _ he => ?_)
        · obtain ⟨hroom, f, rfl, hf⟩ := hq
          rw [pushed_self] at hroom
          simp only at hroom
          refine ⟨by omega, f, ?_, hf.cons⟩
          rw [pushed_self]
          simp only
          rw [stored_pushed, hcount, Nat.add_right_comm, Nat.add_assoc]
        · rw [pushed_self] at he
          simp only at he
          exact ⟨he.1, by omega⟩
      · rw [bytesDigits]
        simp only
        have hwrite : ∀ x, writeDig z (h z).len x h = (.error .bounds, h) := fun x => if_neg hspace
        show Prog.wp (writeDig z (h z).len _ >>= _) _ _ h
        refine Prog.wp_bind.mpr ?_
        unfold Prog.wp
        rw [hwrite]
        exact ⟨rfl, by omega⟩

/-- The count of digits asked for does not overflow. -/
def CountFits (abi : Abi) (len : Nat) : Prop := len * 8 + abi.digSize - 1 < 2 ^ abi.wordBits

theorem need_eq {len : Nat} (hc : CountFits abi len) : abi.word (len * 8 + abi.digSize - 1) / abi.digSize = digitsFor abi len := by
  unfold CountFits at hc
  rw [Config.word, Nat.mod_eq_of_lt hc]
  unfold digitsFor
  rcases abi.digSize_eq with h | h
  all_goals
    rw [h]
    omega

theorem need_short {len : Nat} (hc : ¬ CountFits abi len) :
    abi.word (len * 8 + abi.digSize - 1) / abi.digSize < digitsFor abi len ∧ 2 < digitsFor abi len := by
  unfold CountFits at hc
  have hword : 2 ^ 32 ≤ 2 ^ abi.wordBits := Nat.pow_le_pow_right (by decide) (by have := abi.wordBits_eq; have := abi.wordBytes_eq; omega)
  have hmod := Nat.mod_add_div (len * 8 + abi.digSize - 1) (2 ^ abi.wordBits)
  have hdiv : 1 ≤ (len * 8 + abi.digSize - 1) / 2 ^ abi.wordBits := Nat.div_pos (by omega) (by omega)
  have hmul : 2 ^ abi.wordBits ≤ 2 ^ abi.wordBits * ((len * 8 + abi.digSize - 1) / 2 ^ abi.wordBits) := Nat.le_mul_of_pos_right _ hdiv
  unfold Config.word digitsFor
  rcases abi.digSize_eq with h | h
  all_goals
    rw [h] at hc hmod hmul hdiv ⊢
    omega

omit [DecidableEq ι] in
theorem holds_of_digits {y : MpzT abi.toConfig} {f : Nat → Nat} {n v : Nat} (hn : n ≤ y.alloc) (hf : Digits.Normal abi.base f n)
    (hv : Digits.num abi.base f n = v) : Holds { y with neg := false, len := n, dig := f } v :=
  ⟨⟨hn, hf, fun _ => rfl⟩, congrArg Int.ofNat hv⟩

theorem mpzSetFromBytes_spec {bigEndian : Bool} {buf : List UInt8} (hz : h z = initZero) :
    Prog.wp (mpzSetFromBytes z bigEndian buf)
      (fun _ h' => CountFits abi buf.length ∧ Holds (h' z) (unpackInt (ordered bigEndian buf)) ∧ ∀ r, r ≠ z → h' r = h r)
      (fun e _ => e = .memory ∨ e = .bounds ∧ ¬ CountFits abi buf.length) h := by
  have hl : (ordered bigEndian buf).length = buf.length := length_ordered bigEndian buf
  unfold mpzSetFromBytes
  rw [← ordered]
  have hroom : abi.word (buf.length * 8 + abi.digSize - 1) / abi.digSize ≤ max 2 (abi.word (buf.length * 8 + abi.digSize - 1) / abi.digSize) :=
    Nat.le_max_right _ _
  refine Prog.wp_bind.mpr (Prog.wp_mono (wp_mpzNeedDig (by rw [hz]; rfl) hroom (Nat.le_max_left _ _) fun h₁ hg => ?_)
    (fun _ _ hq => hq) fun e _ he => .inl he.1)
  have halloc := hg.le (by rw [hz]; exact Nat.zero_le _) hroom (Nat.le_max_left _ _)
  rw [wp_setNeg_bind, wp_setLen_bind]
  have hself : putLen (putNeg h₁ z false) z 0 z = { h₁ z with neg := false, len := 0 } := by
    rw [putLen, Function.update_self, putNeg, Function.update_self]
  have hloop := @bytesDigits_spec abi ι _ (putLen (putNeg h₁ z false) z 0) z _ (ordered bigEndian buf) 0
    (Nat.le_of_eq hl) (fun _ => rfl) (by rw [hself]; exact Nat.zero_le _)
  rw [hself, hl] at hloop
  simp only [Nat.zero_add] at hloop
  refine Prog.wp_then hloop (fun _ h₂ hq => ?_) fun e _ he => .inr ⟨he.1, fun hc => ?_⟩
  · obtain ⟨hroom, f, rfl, hf⟩ := hq
    have hcount : CountFits abi buf.length := by
      by_contra hc
      have hshort := need_short hc
      omega
    have hsame := hf.same
    have hbelow := hf.below
    have hnum := hf.num
    rw [hself, hl] at hbelow hnum
    simp only [Nat.zero_add, Nat.pow_zero, Nat.one_mul, Digits.num_zero] at hbelow hnum
    have hself₂ : stored (putLen (putNeg h₁ z false) z 0) z f (digitsFor abi buf.length) false z =
        { h₁ z with neg := false, len := digitsFor abi buf.length, dig := f } := by
      rw [stored, Function.update_self, hself]
    obtain ⟨n, hrun, hle, hnormal, hn⟩ := mpnRemoveTrailingZeros_spec
      (h := stored (putLen (putNeg h₁ z false) z 0) z f (digitsFor abi buf.length) false) (i := z) (n := digitsFor abi buf.length)
      (by rw [hself₂]; exact hroom) (by rw [hself₂]; exact fun q hq => hbelow q (Nat.zero_le q) hq)
    rw [hself₂] at hnormal hn
    rw [wp_look_bind, hself₂, wp_ok_bind hrun]
    have hend : putLen (stored (putLen (putNeg h₁ z false) z 0) z f (digitsFor abi buf.length) false) z n z =
        { h₁ z with neg := false, len := n, dig := f } := by
      rw [putLen, Function.update_self, hself₂]
    refine ⟨hcount, ?_, fun r hr => ?_⟩
    · rw [← hnum, ← hn]
      show Holds (putLen _ z n z) _
      rw [hend]
      exact holds_of_digits (Nat.le_trans hle hroom) hnormal rfl
    · show putLen _ z n r = h r
      rw [putLen, Function.update_of_ne hr, stored, Function.update_of_ne hr, putLen, Function.update_of_ne hr, putNeg, Function.update_of_ne hr]
      exact hg.others r hr
  · have hneed := hg.need_le
    rw [need_eq hc] at hneed
    have hlt := he.2
    omega

theorem fromBytesLoop_eq (value : Nat) (bs : List UInt8) (hv : value < 2 ^ (abi.wordBits - 2)) :
    fromBytesLoop abi value bs = if value * 256 ^ bs.length + unpackInt bs.reverse < 2 ^ (abi.wordBits - 2)
      then some (value * 256 ^ bs.length + unpackInt bs.reverse) else none := by
  have hwords : 32 ≤ abi.wordBits := by
    have := abi.wordBits_eq
    have := abi.wordBytes_eq
    omega
  have hsplit : 2 ^ (abi.wordBits - 2) = 2 ^ 8 * 2 ^ (abi.wordBits - 2 - 8) := by
    rw [← Nat.pow_add]
    congr 1
    omega
  have hword : 2 ^ abi.wordBits = 4 * 2 ^ (abi.wordBits - 2) := by
    rw [show (4 : Nat) = 2 ^ 2 by decide, ← Nat.pow_add]
    congr 1
    omega
  have hpos : 0 < 2 ^ (abi.wordBits - 2 - 8) := Nat.two_pow_pos _
  induction bs generalizing value with
  | nil =>
    rw [fromBytesLoop, List.length_nil, Nat.pow_zero, Nat.mul_one, List.reverse_nil, unpackInt, Nat.add_zero, if_pos hv]
  | cons b bs ih =>
    have hb : b.toNat < 256 := b.toNat_lt
    have hnext : value * 256 ^ (b :: bs).length + unpackInt (b :: bs).reverse = (value * 256 + b.toNat) * 256 ^ bs.length + unpackInt bs.reverse := by
      rw [List.reverse_cons, unpackInt_append, List.length_reverse, unpackInt, unpackInt, List.length_cons]
      ring
    rw [fromBytesLoop, Nat.shiftRight_eq_div_pow, hnext]
    by_cases hover : value > (2 ^ (abi.wordBits - 2) - 1) / 2 ^ 8
    · have hmul : value * 256 + b.toNat ≤ (value * 256 + b.toNat) * 256 ^ bs.length := Nat.le_mul_of_pos_right _ (by positivity)
      rw [if_pos hover, if_neg (by omega)]
    · have hshift : abi.word (value <<< 8) ||| b.toNat = value * 256 + b.toNat := by
        have hor : value <<< 8 ||| b.toNat = value * 256 + b.toNat := (shl_or hb).trans (Nat.add_comm _ _)
        rw [Config.word, Nat.mod_eq_of_lt (by rw [Nat.shiftLeft_eq]; omega), hor]
      rw [if_neg hover, hshift]
      exact ih _ (by omega)

omit [DecidableEq ι] in
theorem newIntFromUint_spec [DecidableEq ι] {value : Nat} (hv : value < 2 ^ (abi.wordBits - 2)) :
    ∃ o, newIntFromUint value h = (.ok o, h) ∧ Objint.Canonical h o value := by
  have hmask : value &&& 3 <<< (abi.wordBits - 2) = 0 := by
    refine Nat.eq_of_testBit_eq fun i => ?_
    rw [Nat.testBit_and, Nat.testBit_shiftLeft, Nat.zero_testBit]
    by_cases hi : i ≥ abi.wordBits - 2
    · rw [Nat.testBit_lt_two_pow (Nat.lt_of_lt_of_le hv (Nat.pow_le_pow_right (by decide) hi)), Bool.false_and]
    · rw [decide_eq_false hi, Bool.false_and, Bool.and_false]
  have hhalf : half abi.toConfig = ((2 ^ (abi.wordBits - 2) : Nat) : Int) := (Nat.cast_pow 2 _).symm
  have hin : InSmall abi.toConfig value := inSmall_iff.mpr ⟨by omega, by omega⟩
  refine ⟨_, congrFun (if_pos hmask) h, ?_⟩
  exact Objint.canonical_small hin

/-- The bytes that from_bytes reads. -/
def FromBytesFits (abi : Abi) (len v : Nat) : Prop := CountFits abi len ∨ v < 2 ^ (abi.wordBits - 2)

theorem intFromBytes_spec (buf : List UInt8) (order : Option String) :
    Prog.wp (intFromBytes buf order)
      (fun o h' => FromBytesFits abi buf.length (unpackInt (ordered (decide (order ≠ some "little")) buf)) ∧
        Objint.Canonical h' o (unpackInt (ordered (decide (order ≠ some "little")) buf)) ∧ Objint.Kept h h')
      (fun e _ => e = .memory ∨ e = .bounds ∧ ¬ FromBytesFits abi buf.length (unpackInt (ordered (decide (order ≠ some "little")) buf))) h := by
  generalize hbig : decide (order ≠ some "little") = bigEndian
  have hloop := @fromBytesLoop_eq abi 0 (if bigEndian then buf else buf.reverse) (Nat.two_pow_pos _)
  have hrev : (if bigEndian then buf else buf.reverse).reverse = ordered bigEndian buf := by
    cases bigEndian with
    | false => exact List.reverse_reverse buf
    | true => rfl
  rw [Nat.zero_mul, Nat.zero_add, hrev] at hloop
  unfold intFromBytes
  rw [hbig]
  simp only [hloop]
  by_cases hfits : unpackInt (ordered bigEndian buf) < 2 ^ (abi.wordBits - 2)
  · obtain ⟨o, hrun, ho⟩ := newIntFromUint_spec (h := h) hfits
    rw [if_pos hfits]
    simp only
    unfold Prog.wp
    rw [hrun]
    exact ⟨.inr hfits, ho, .refl⟩
  · have hlen : (ordered bigEndian buf).length = buf.length := length_ordered bigEndian buf
    have hself : Function.update h (.temp .res) (initZero : MpzT abi.toConfig) (.temp .res) = initZero := Function.update_self _ _ _
    rw [if_neg hfits]
    simp only
    show Prog.wp (change _ _ >>= _) _ _ h
    rw [wp_change_bind]
    refine Prog.wp_then (mpzSetFromBytes_spec hself) (fun _ h' hq => ?_) fun e _ he => ?_
    · refine ⟨.inl hq.1, ⟨hq.2.1, fun hin => ?_⟩, fun i => ?_⟩
      · rw [inSmall_iff] at hin
        have hhalf : half abi.toConfig = ((2 ^ (abi.wordBits - 2) : Nat) : Int) := (Nat.cast_pow 2 _).symm
        omega
      · have hne : (Ref.obj i : Ref ι) ≠ .temp .res := by
          intro e
          cases e
        rw [hq.2.2 _ hne]
        exact Function.update_of_ne hne _ _
    · exact he.imp_right fun h => ⟨h.1, fun hf => hf.elim h.2 hfits⟩

/-! ## Both ways -/

/-- An integer as bytes: to_bytes is right about small ints and about an `mpz_t` that is told apart
by its left-over bytes, which is where the two paths agree; from_bytes gives back what the bytes hold,
where its count of digits does not overflow. -/
theorem int_bytes_iff {host : Host abi} {self : IntObj abi} {v : Int} {n : Nat} {order : Option String} (hself : self.Is v) :
    (intToBytes abi host self (some n) order = exactToBytes host v n (decide (order ≠ some "little")) ↔
      host.allocates (n + 1) = false ∨ ToBytesRight self n) ∧
    (∀ y : MpzT abi.toConfig, Holds y v → InSmall abi.toConfig v →
      (intToBytes abi host (.mpz y) (some n) order = intToBytes abi host (.small v) (some n) order ↔ host.allocates (n + 1) = false ∨ MpzFits y n)) ∧
    Prog.wp (intFromBytes (ordered (decide (order ≠ some "little")) (intBytes n v)) order)
      (fun o h' => FromBytesFits abi n (v % 256 ^ n).toNat ∧ Objint.Canonical h' o (v % 256 ^ n) ∧ Objint.Kept h h')
      (fun e _ => e = .memory ∨ e = .bounds ∧ ¬ FromBytesFits abi n (v % 256 ^ n).toNat) h := by
  refine ⟨intToBytes_iff hself, fun y hy hin => ?_, ?_⟩
  · have hsmall : intToBytes abi host (.small v) (some n) order = exactToBytes host v n (decide (order ≠ some "little")) :=
      (@intToBytes_iff abi host (.small v) v n order ⟨hin, rfl⟩).mpr (.inr trivial)
    rw [hsmall]
    exact @intToBytes_iff abi host (.mpz y) v n order hy
  · have hback : ordered (decide (order ≠ some "little")) (ordered (decide (order ≠ some "little")) (intBytes n v)) = intBytes n v := by
      cases decide (order ≠ some "little") with
      | false => rfl
      | true => exact List.reverse_reverse _
    have hvalue : unpackInt (intBytes n v) = (v % 256 ^ n).toNat := by
      have h := unpackInt_intBytes n v
      omega
    have hrun := @intFromBytes_spec abi ι _ h (ordered (decide (order ≠ some "little")) (intBytes n v)) order
    rw [hback, hvalue, length_ordered, length_intBytes, toNat_emod_pow] at hrun
    exact hrun

end

/-! ## On a 32-bit machine -/

theorem int_bytes_iff_thousand :
    intToBytes abi32 host32 (.small 1000) (some 2) (some "little") = .ok [0xe8, 0x03] ∧
    Prog.wp (intFromBytes [0xe8, 0x03] (some "little")) (fun o h' => Objint.Canonical h' o 1000) (fun e _ => e = .memory)
      (fun _ => initZero : Heap abi32.toConfig Unit) := by
  have hin : InSmall abi32.toConfig 1000 := by decide
  obtain ⟨hto, -, hfrom⟩ := @int_bytes_iff abi32 Unit _ (fun _ => initZero) host32 (.small 1000) 1000 2 (some "little") ⟨hin, rfl⟩
  have hfits : FromBytesFits abi32 2 1000 := .inl (by unfold CountFits; decide)
  refine ⟨(hto.mpr (.inr trivial)).trans (by decide), Prog.wp_mono hfrom (fun _ _ hq => hq.2.1) fun _ _ he => ?_⟩
  exact he.resolve_right fun h => h.2 hfits

theorem three_digits : 3 < 2 ^ (abi32.wordBits - 2) := by decide

/-- -2^32 -/
def minusTwo32 : MpzT abi32.toConfig := ⟨true, false, 3, 3, fun q => if q = 2 then 1 else 0, three_digits⟩

/-- -0xff123456 -/
def minusFf123456 : MpzT abi32.toConfig := ⟨true, false, 3, 2, fun q => if q = 0 then 0x3456 else 0xff12, three_digits⟩

/-- A number that fits is refused, and one that does not fit is cut. -/
theorem bytes_left_over :
    minusTwo32.value = -2 ^ 32 ∧ intToBytes abi32 host32 (.mpz minusTwo32) (some 5) (some "big") = .error (.overflowError "buffer too small") ∧
    exactToBytes host32 (-2 ^ 32) 5 true = .ok [0xff, 0, 0, 0, 0] ∧
    minusFf123456.value = -0xff123456 ∧ intToBytes abi32 host32 (.mpz minusFf123456) (some 3) (some "big") = .ok [0xed, 0xcb, 0xaa] ∧
    exactToBytes host32 (-0xff123456) 3 true = .error (.overflowError "buffer too small") := by
  refine ⟨by decide, by decide, by decide, by decide, by decide, by decide⟩

end PythonUltra.Py.ObjintBytes
