/-
  PythonUltra.Py.Bc — the variable-length fields of bytecode, in machine words (py/bc.h,
  py/bc.c, py/emitbc.c, py/vm.c).

  `Prelude` has the layouts of the fields; here are the sizes of what the code computes them in:
  numbers are words, the buffer they are made in has an end, and the bits of the prelude's
  counters are shifted as `int`s before they are put in a `size_t`. `none` is a write or a read
  outside of what there is.
-/

import Mathlib.Algebra.GroupWithZero.Nat
import Mathlib.Algebra.Order.Ring.Int
import Mathlib.Tactic.LinearCombination
import Mathlib.Tactic.Ring
import PythonUltra.Py.Prelude

namespace PythonUltra.Py.Bc

section
variable (wordBits : Nat)

/-- `mp_uint_t` -/
def word (n : Nat) : Nat := n % 2 ^ wordBits

/-- `MP_ENCODE_UINT_MAX_BYTES` -/
def encodeUintMaxBytes : Nat := (wordBits + 6) / 7

/-! ## mp_encode_uint, mp_decode_uint, mp_decode_uint_skip -/

/-- `*--p = b`, where `p` are the bytes from there to the end of `buf`. -/
def push (p : List Nat) (b : Nat) : Option (List Nat) := if p.length < encodeUintMaxBytes wordBits then some (b :: p) else none

/-- The groups of seven bits; `fuel` is more than the loop needs. -/
def fill : Nat → Nat → List Nat → Option (List Nat)
  | 0, _, _ => none
  | fuel + 1, val, p => do
    let p ← push wordBits p (val &&& 0x7f)
    let val := val >>> 7
    if val ≠ 0 then fill fuel val p else pure p

/-- What is written to the place that the allocator gives, if it gives one. -/
def mpEncodeUint (allocator : Nat → Bool) (val : Nat) : Option (List Nat) := do
  let p ← fill wordBits (val + 1) val []
  pure (if allocator p.length then mark p else [])

/-- The loop, with the number read so far. -/
def mpDecodeFrom (unum : Nat) : List Nat → Option (Nat × List Nat)
  | [] => none
  | val :: p =>
    let unum := word wordBits (unum <<< 7) ||| (val &&& 0x7f)
    if val &&& 0x80 ≠ 0 then mpDecodeFrom unum p else some (unum, p)

def mpDecodeUint (ptr : List Nat) : Option (Nat × List Nat) := mpDecodeFrom wordBits 0 ptr

def mpDecodeUintSkip : List Nat → Option (List Nat)
  | [] => none
  | val :: ptr => if val &&& 0x80 ≠ 0 then mpDecodeUintSkip ptr else some ptr

/-! ## Small ints -/

/-- The groups of a signed number, and its sign, which is left. -/
def fillInt : Nat → Int → List Nat → Option (Int × List Nat)
  | 0, _, _ => none
  | fuel + 1, num, p => do
    let p ← push wordBits p (num % 128).toNat
    let num := num >>> (7 : Nat)
    if num ≠ 0 ∧ num ≠ -1 then fillInt fuel num p else pure (num, p)

/-- The byte for the sign, where the highest bit stored does not tell it. -/
def pushSign (num : Int) (p : List Nat) : Option (List Nat) :=
  if num = -1 ∧ p.headD 0 &&& 0x40 = 0 then push wordBits p 0x7f
  else if num = 0 ∧ p.headD 0 &&& 0x40 ≠ 0 then push wordBits p 0
  else some p

/-- `emit_write_bytecode_byte_int`, the stack's size apart. -/
def emitByteInt (b1 : Nat) (num : Int) : Option (List Nat) := do
  let (num, p) ← fillInt wordBits (num.natAbs + 1) num []
  let p ← pushSign wordBits num p
  pure (b1 :: mark p)

/-- `MP_BC_LOAD_CONST_SMALL_INT`: `num`, before it is made an object, and where `ip` is. -/
def loadConstSmallInt (ip : List Nat) : Option (Nat × List Nat) :=
  match ip with
  | [] => none
  | b :: _ => mpDecodeFrom wordBits (if b &&& 0x40 ≠ 0 then 2 ^ wordBits - 1 else 0) ip

end

/-! ## The prelude -/

/-- `int << unsigned`. Where C leaves it undefined it is up to the compiler. -/
structure IntShift where
  shl : Nat → Nat → Int
  shl_eq {x n : Nat} : n < 32 → x * 2 ^ n < 2 ^ 31 → shl x n = x * 2 ^ n

section
variable (wordBits : Nat) (sh : IntShift)

/-- `r |= x << n` for a `size_t` -/
def orShl (r x n : Nat) : Nat := r ||| (sh.shl x n % 2 ^ wordBits).toNat

/-- The loop of `MP_BC_PRELUDE_SIG_DECODE_INTO`: `z` is the byte read last. -/
def sigDecodeLoop : List Nat → Nat → Nat → Sig → Option (Sig × List Nat)
  | [], _, z, x => if z &&& 0x80 ≠ 0 then none else some (x, [])
  | z' :: ip, n, z, x =>
    if z &&& 0x80 ≠ 0 then
      sigDecodeLoop ip (n + 1) z'
        { nState := orShl wordBits sh x.nState (z' &&& 0x30) (2 * n)
          nExcStack := orShl wordBits sh x.nExcStack (z' &&& 0x02) n
          scopeFlags := orShl wordBits sh x.scopeFlags ((z' &&& 0x40) >>> 6) n
          nPosArgs := orShl wordBits sh x.nPosArgs (z' &&& 0x4) n
          nKwonlyArgs := orShl wordBits sh x.nKwonlyArgs ((z' &&& 0x08) >>> 3) n
          nDefPosArgs := orShl wordBits sh x.nDefPosArgs (z' &&& 0x1) n }
    else some (x, z' :: ip)

/-- `MP_BC_PRELUDE_SIG_DECODE_INTO` -/
def sigDecodeInto : List Nat → Option (Sig × List Nat)
  | [] => none
  | z :: ip => do
    let (x, ip) ← sigDecodeLoop wordBits sh ip 0 z ⟨(z >>> 3) &&& 0xf, (z >>> 2) &&& 0x1, 0, z &&& 0x3, 0, 0⟩
    pure ({ x with nState := word wordBits (x.nState + 1) }, ip)

/-- The loop of `MP_BC_PRELUDE_SIZE_DECODE_INTO`. -/
def sizeDecodeLoop : List Nat → Nat → Nat → Nat → Option ((Nat × Nat) × List Nat)
  | [], _, _, _ => none
  | z :: ip, n, i, c =>
    let c := orShl wordBits sh c (z &&& 1) n
    let i := orShl wordBits sh i ((z &&& 0x7e) >>> 1) (6 * n)
    if z &&& 0x80 = 0 then some ((i, c), ip) else sizeDecodeLoop ip (n + 1) i c

/-- `MP_BC_PRELUDE_SIZE_DECODE_INTO` -/
def sizeDecodeInto (ip : List Nat) : Option ((Nat × Nat) × List Nat) := sizeDecodeLoop wordBits sh ip 0 0 0

end

/-! ## Numbers are read as they are written -/

section
variable {wordBits : Nat} {p rest : List Nat}

theorem push_eq {b : Nat} (h : p.length < encodeUintMaxBytes wordBits) : push wordBits p b = some (b :: p) := if_pos h

/-- There is place for the groups of a word. -/
theorem fill_eq {fuel val m : Nat} (hfuel : val < fuel) (hval : val < 2 ^ (7 * m)) (hm : 1 ≤ m) (hroom : p.length + m ≤ encodeUintMaxBytes wordBits) :
    fill wordBits fuel val p = some (groups fuel val ++ p) := by
  induction fuel generalizing val m p with
  | zero => exact absurd hfuel (Nat.not_lt_zero val)
  | succ fuel ih =>
    have hdiv := shiftRight_seven val
    rw [fill, groups, push_eq (by omega)]
    show (if val >>> 7 ≠ 0 then fill wordBits fuel (val >>> 7) _ else _) = _
    by_cases hmore : val >>> 7 ≠ 0
    · have hm' : 2 ≤ m := by
        by_contra hone
        obtain rfl : m = 1 := by omega
        exact hmore (hdiv.trans (Nat.div_eq_of_lt hval))
      have hless : val >>> 7 < 2 ^ (7 * (m - 1)) := by
        rw [hdiv]
        refine Nat.div_lt_of_lt_mul ?_
        rw [show (128 : Nat) = 2 ^ 7 from rfl, ← Nat.pow_add, show 7 + 7 * (m - 1) = 7 * m by omega]
        exact hval
      rw [if_pos hmore, if_pos hmore, ih (by omega) hless (by omega) (by rw [List.length_cons]; omega), List.append_assoc]
      rfl
    · rw [if_neg hmore, if_neg hmore]
      rfl

theorem mpEncodeUint_eq (hw : 1 ≤ wordBits) {val : Nat} (hval : val < 2 ^ wordBits) (allocator : Nat → Bool) :
    mpEncodeUint wordBits allocator val = some (if allocator (groups (val + 1) val).length then encodeUint val else []) := by
  have hmax : wordBits ≤ 7 * encodeUintMaxBytes wordBits := by
    unfold encodeUintMaxBytes
    omega
  have hlt : val < 2 ^ (7 * encodeUintMaxBytes wordBits) := Nat.lt_of_lt_of_le hval (Nat.pow_le_pow_right (by decide) hmax)
  unfold mpEncodeUint
  rw [fill_eq (Nat.lt_succ_self val) hlt (by omega) (by rw [List.length_nil]; omega), List.append_nil]
  rfl

/-- The word of a number. -/
def wordOf (wordBits : Nat) (n : Int) : Nat := (n % 2 ^ wordBits).toNat

theorem wordOf_natCast {n : Nat} (hn : n < 2 ^ wordBits) : wordOf wordBits n = n := by
  unfold wordOf
  rw [Int.emod_eq_of_lt (by omega) (by exact_mod_cast hn)]
  exact Int.toNat_natCast n

/-- A group more. -/
theorem wordOf_next (hw : 7 ≤ wordBits) {u : Int} {b : Nat} (hb : b < 128) :
    word wordBits (wordOf wordBits u <<< 7) ||| b = wordOf wordBits (u * 128 + b) := by
  obtain ⟨k, rfl⟩ := Nat.exists_eq_add_of_le hw
  have hpos : (0 : Int) < 2 ^ k := pow_pos (by decide) k
  have hpow : (2 : Int) ^ (7 + k) = 128 * 2 ^ k := by rw [pow_add]; rfl
  have hword : word (7 + k) (wordOf (7 + k) u <<< 7) = wordOf k u * 2 ^ 7 := by
    unfold word wordOf
    rw [Nat.shiftLeft_eq, Nat.pow_add, Nat.mul_comm, Nat.mul_mod_mul_left, Nat.mul_comm]
    congr 1
    have hcast : (((u % 2 ^ (7 + k)).toNat % 2 ^ k : Nat) : Int) = u % 2 ^ k := by
      rw [Int.natCast_mod, Int.toNat_of_nonneg (Int.emod_nonneg _ (ne_of_gt (pow_pos (by decide) _))), hpow]
      push_cast
      exact Int.emod_emod_of_dvd u ⟨128, by ring⟩
    rw [← hcast]
    rfl
  rw [hword, show wordOf k u * 2 ^ 7 = wordOf k u <<< 7 from (Nat.shiftLeft_eq _ _).symm, shiftLeft_or (by omega)]
  unfold wordOf
  have hmod : (u * 128 + b) % 2 ^ (7 + k) = u % 2 ^ k * 128 + b := by
    have hdiv := Int.emod_add_mul_ediv u (2 ^ k)
    have hnn := Int.emod_nonneg u (ne_of_gt hpos)
    have hlt := Int.emod_lt_of_pos u hpos
    rw [hpow]
    have hsplit : u * 128 + b = (u % 2 ^ k * 128 + b) + 128 * 2 ^ k * (u / 2 ^ k) := by
      linear_combination (-128 : Int) * hdiv
    rw [hsplit, Int.add_mul_emod_self_left]
    exact Int.emod_eq_of_lt (by omega) (by omega)
  rw [hmod]
  have hnn := Int.emod_nonneg u (ne_of_gt hpos)
  omega

/-- The number that groups stand for after `u`. -/
def valueAfter : Int → List Nat → Int
  | u, [] => u
  | u, b :: l => valueAfter (u * 128 + b) l

theorem mpDecodeFrom_mark (hw : 7 ≤ wordBits) {l : List Nat} (hne : l ≠ []) (hl : ∀ b ∈ l, b < 128) (u : Int) :
    mpDecodeFrom wordBits (wordOf wordBits u) (mark l ++ rest) = some (wordOf wordBits (valueAfter u l), rest) := by
  induction l generalizing u with
  | nil => exact absurd rfl hne
  | cons b l ih =>
    have hb := hl b List.mem_cons_self
    obtain ⟨hlow, hlast, hlow', hmore⟩ := group_bits b hb
    cases l with
    | nil =>
      show mpDecodeFrom wordBits _ (b :: rest) = _
      rw [mpDecodeFrom, hlow, hlast, wordOf_next hw hb]
      exact if_neg (not_not.mpr rfl)
    | cons c l =>
      show mpDecodeFrom wordBits _ ((b ||| 0x80) :: (mark (c :: l) ++ rest)) = _
      rw [mpDecodeFrom, hlow', wordOf_next hw hb]
      refine (if_pos hmore).trans ?_
      exact ih (List.cons_ne_nil c l) (fun x hx => hl x (List.mem_cons_of_mem b hx)) _

theorem valueAfter_natCast (u : Nat) (l : List Nat) : valueAfter u l = (l.foldl (fun n b => n * 128 + b) u : Nat) := by
  induction l generalizing u with
  | nil => rfl
  | cons b l ih =>
    have hstep : ((u : Int) * 128 + b) = ((u * 128 + b : Nat) : Int) := by push_cast; ring
    show valueAfter ((u : Int) * 128 + b) l = _
    rw [hstep, ih]
    rfl

theorem mpDecodeUint_encodeUint (hw : 7 ≤ wordBits) {val : Nat} (hval : val < 2 ^ wordBits) :
    mpDecodeUint wordBits (encodeUint val ++ rest) = some (val, rest) := by
  obtain ⟨hlt, hsum⟩ := groups_spec (val + 1) val (Nat.lt_succ_self val)
  have hrun := @mpDecodeFrom_mark wordBits rest hw _ (groups_ne_nil val val) hlt 0
  have hvalue := valueAfter_natCast 0 (groups (val + 1) val)
  have hzero : wordOf wordBits 0 = 0 := by
    unfold wordOf
    rw [Int.zero_emod]
    rfl
  rw [hsum] at hvalue
  rw [hzero, show (0 : Int) = ((0 : Nat) : Int) from rfl, hvalue, wordOf_natCast hval] at hrun
  exact hrun

theorem mpDecodeUintSkip_eq (ptr : List Nat) : mpDecodeUintSkip ptr = (mpDecodeUint wordBits ptr).map Prod.snd := by
  have hgen : ∀ u, mpDecodeUintSkip ptr = (mpDecodeFrom wordBits u ptr).map Prod.snd := by
    induction ptr with
    | nil => exact fun _ => rfl
    | cons val ptr ih =>
      intro u
      rw [mpDecodeUintSkip, mpDecodeFrom]
      split
      · exact ih _
      · rfl
  exact hgen 0

end

/-! ## Small ints are read as they are written -/

section
variable {wordBits : Nat} {p rest l : List Nat}

theorem valueAfter_concat (u : Int) (l : List Nat) (b : Nat) : valueAfter u (l ++ [b]) = valueAfter u l * 128 + b := by
  induction l generalizing u with
  | nil => rfl
  | cons c l ih => exact ih (u * 128 + c)

/-- Groups are below the next number of so many. -/
theorem valueAfter_bounds (hl : ∀ b ∈ l, b < 128) (u : Int) : u * 128 ^ l.length ≤ valueAfter u l ∧ valueAfter u l < (u + 1) * 128 ^ l.length := by
  induction l generalizing u with
  | nil =>
    simp only [List.length_nil, pow_zero, mul_one, valueAfter]
    omega
  | cons b l ih =>
    have hb := hl b List.mem_cons_self
    obtain ⟨hlow, hhigh⟩ := ih (fun x hx => hl x (List.mem_cons_of_mem b hx)) (u * 128 + b)
    have hpos : (0 : Int) ≤ 128 ^ l.length := pow_nonneg (by decide) _
    have hfirst : u * 128 * 128 ^ l.length ≤ (u * 128 + b) * 128 ^ l.length := Int.mul_le_mul_of_nonneg_right (by omega) hpos
    have hlast : (u * 128 + b + 1) * 128 ^ l.length ≤ (u + 1) * 128 * 128 ^ l.length := Int.mul_le_mul_of_nonneg_right (by omega) hpos
    rw [List.length_cons, pow_succ, valueAfter]
    constructor
    · calc u * (128 ^ l.length * 128) = u * 128 * 128 ^ l.length := by ring
        _ ≤ _ := Int.le_trans hfirst hlow
    · calc valueAfter (u * 128 + b) l < (u * 128 + b + 1) * 128 ^ l.length := hhigh
        _ ≤ (u + 1) * 128 * 128 ^ l.length := hlast
        _ = _ := by ring

theorem shiftRight_seven_int (n : Int) : n >>> (7 : Nat) = n / 128 := Int.shiftRight_eq_div_pow n 7

/-- What the loop leaves: the groups, and the sign they are after. -/
theorem fillInt_spec {fuel m : Nat} {num : Int} (hfuel : num.natAbs < fuel) (hlow : -2 ^ (7 * m) ≤ num) (hhigh : num < 2 ^ (7 * m)) (hm : 1 ≤ m)
    (hroom : p.length + m ≤ encodeUintMaxBytes wordBits) :
    ∃ s l, fillInt wordBits fuel num p = some (s, l ++ p) ∧ (s = 0 ∨ s = -1) ∧ l ≠ [] ∧ (∀ b ∈ l, b < 128) ∧ valueAfter s l = num ∧ l.length ≤ m := by
  induction fuel generalizing num m p with
  | zero => exact absurd hfuel (Nat.not_lt_zero _)
  | succ fuel ih =>
    have hdiv := shiftRight_seven_int num
    have hgroup : (((num % 128).toNat : Nat) : Int) = num % 128 := Int.toNat_of_nonneg (Int.emod_nonneg _ (by decide))
    have hlt : (num % 128).toNat < 128 := by omega
    rw [fillInt, push_eq (by omega)]
    show ∃ s l, (if num >>> (7 : Nat) ≠ 0 ∧ num >>> (7 : Nat) ≠ -1 then fillInt wordBits fuel (num >>> (7 : Nat)) _ else _) = _ ∧ _
    by_cases hmore : num >>> (7 : Nat) ≠ 0 ∧ num >>> (7 : Nat) ≠ -1
    · have hm' : 2 ≤ m := by
        by_contra hone
        obtain rfl : m = 1 := by omega
        norm_num at hlow hhigh
        omega
      have hpow : (2 : Int) ^ (7 * m) = 128 * 2 ^ (7 * (m - 1)) := by
        rw [show 7 * m = 7 + 7 * (m - 1) by omega, pow_add]
        rfl
      rw [if_pos hmore]
      obtain ⟨s, l, hrun, hs, hne, hl, hvalue, hlen⟩ := @ih ((num % 128).toNat :: p) (m - 1) (num >>> (7 : Nat)) (by omega) (by omega) (by omega) (by omega)
        (by rw [List.length_cons]; omega)
      refine ⟨s, l ++ [(num % 128).toNat], by rw [hrun, List.append_assoc]; rfl, hs, by simp, fun b hb => ?_, ?_, by rw [List.length_append]; exact Nat.add_le_of_le_sub hm hlen⟩
      · rcases List.mem_append.mp hb with hb | hb
        · exact hl b hb
        · rw [List.mem_singleton.mp hb]
          exact hlt
      · rw [valueAfter_concat, hvalue]
        omega
    · rw [if_neg hmore]
      refine ⟨num >>> (7 : Nat), [(num % 128).toNat], rfl, by omega, by simp, fun b hb => ?_, ?_, hm⟩
      · rw [List.mem_singleton.mp hb]
        exact hlt
      · show num >>> (7 : Nat) * 128 + ((num % 128).toNat : Int) = num
        omega

theorem sign_bit : ∀ b < 128, (b &&& 0x40 = 0 ↔ b < 64) ∧ (b ||| 0x80) &&& 0x40 = b &&& 0x40 := by
  decide

/-- The sign that the decoder starts from. -/
def signOf (l : List Nat) : Int := if l.headD 0 &&& 0x40 ≠ 0 then -1 else 0

/-- A small int's bytes are groups that stand for it after the sign in the first of them. -/
theorem emitByteInt_spec (hw : 1 ≤ wordBits) {num : Int} (hlow : -2 ^ (wordBits - 1) ≤ num) (hhigh : num < 2 ^ (wordBits - 1)) (b1 : Nat) :
    ∃ l, emitByteInt wordBits b1 num = some (b1 :: mark l) ∧ l ≠ [] ∧ (∀ b ∈ l, b < 128) ∧ valueAfter (signOf l) l = num := by
  obtain ⟨m, hm⟩ : ∃ m, m = encodeUintMaxBytes wordBits := ⟨_, rfl⟩
  have hmax : 1 ≤ m ∧ wordBits ≤ 7 * m := by
    rw [hm]
    unfold encodeUintMaxBytes
    omega
  have hpow : (2 : Int) ^ (wordBits - 1) ≤ 2 ^ (7 * m - 1) := pow_le_pow_right₀ (by decide) (by omega)
  have hpow' : (2 : Int) ^ (7 * m - 1) ≤ 2 ^ (7 * m) := pow_le_pow_right₀ (by decide) (by omega)
  obtain ⟨s, l, hrun, hs, hne, hl, hvalue, hlen⟩ := @fillInt_spec wordBits [] (num.natAbs + 1) m num (by omega) (by omega) (by omega) hmax.1
    (by rw [List.length_nil]; omega)
  obtain ⟨h, t, rfl⟩ := List.exists_cons_of_ne_nil hne
  obtain ⟨hsign, -⟩ := sign_bit h (hl h List.mem_cons_self)
  obtain ⟨hbelow, habove⟩ := valueAfter_bounds (fun x hx => hl x (List.mem_cons_of_mem h hx)) (s * 128 + h)
  change _ ≤ valueAfter s (h :: t) at hbelow
  change valueAfter s (h :: t) < _ at habove
  rw [hvalue] at hbelow habove
  -- where the sign is not told there is place for it
  have hplace : ((s = -1 ∧ h < 64) ∨ (s = 0 ∧ 64 ≤ h)) → (h :: t).length < encodeUintMaxBytes wordBits := by
    intro hcase
    by_contra hfull
    rw [List.length_cons] at hfull hlen
    have htop : (2 : Int) ^ (7 * m - 1) = 64 * 128 ^ t.length := by
      rw [show 7 * m - 1 = 6 + 7 * t.length by omega, pow_add, pow_mul]
      rfl
    have hpos : (0 : Int) ≤ 128 ^ t.length := pow_nonneg (by decide) _
    rcases hcase with ⟨rfl, hsmall⟩ | ⟨rfl, hlarge⟩
    · have hle : (-1 * 128 + (h : Int) + 1) * 128 ^ t.length ≤ -64 * 128 ^ t.length := Int.mul_le_mul_of_nonneg_right (by omega) hpos
      omega
    · have hle : 64 * 128 ^ t.length ≤ (0 * 128 + (h : Int)) * 128 ^ t.length := Int.mul_le_mul_of_nonneg_right (by omega) hpos
      omega
  unfold emitByteInt
  rw [hrun, List.append_nil]
  show ∃ l, (pushSign wordBits s (h :: t) >>= fun p => pure (b1 :: mark p)) = _ ∧ _
  unfold pushSign
  rw [List.headD_cons]
  by_cases hneg : s = -1 ∧ h &&& 0x40 = 0
  · rw [if_pos hneg, push_eq (hplace (.inl ⟨hneg.1, hsign.mp hneg.2⟩))]
    refine ⟨0x7f :: h :: t, rfl, by simp, fun b hb => ?_, ?_⟩
    · rcases List.mem_cons.mp hb with rfl | hb
      · decide
      · exact hl b hb
    · have hsame : signOf (0x7f :: h :: t) = -1 := if_pos (show 0x7f &&& 0x40 ≠ 0 by decide)
      rw [← hvalue, hneg.1, hsame]
      rfl
  · rw [if_neg hneg]
    by_cases hzero : s = 0 ∧ h &&& 0x40 ≠ 0
    · rw [if_pos hzero, push_eq (hplace (.inr ⟨hzero.1, Nat.le_of_not_lt (mt hsign.mpr hzero.2)⟩))]
      refine ⟨0 :: h :: t, rfl, by simp, fun b hb => ?_, ?_⟩
      · rcases List.mem_cons.mp hb with rfl | hb
        · decide
        · exact hl b hb
      · have hsame : signOf (0 :: h :: t) = 0 := if_neg (show ¬ 0 &&& 0x40 ≠ 0 by decide)
        rw [← hvalue, hzero.1, hsame]
        rfl
    · rw [if_neg hzero]
      refine ⟨h :: t, rfl, by simp, hl, ?_⟩
      have hsame : signOf (h :: t) = s := by
        unfold signOf
        rw [List.headD_cons]
        split
        · rename_i hbit
          exact (hs.resolve_left fun h0 => hzero ⟨h0, hbit⟩).symm
        · rename_i hbit
          exact (hs.resolve_right fun h1 => hneg ⟨h1, not_not.mp hbit⟩).symm
      rw [hsame]
      exact hvalue

theorem loadConstSmallInt_mark (hw : 7 ≤ wordBits) (hne : l ≠ []) (hl : ∀ b ∈ l, b < 128) :
    loadConstSmallInt wordBits (mark l ++ rest) = some (wordOf wordBits (valueAfter (signOf l) l), rest) := by
  have hstart : ∀ b, b &&& 0x40 = l.headD 0 &&& 0x40 → (if b &&& 0x40 ≠ 0 then 2 ^ wordBits - 1 else 0) = wordOf wordBits (signOf l) := by
    intro b hb
    unfold signOf wordOf
    rw [hb]
    split
    · have hpos : (1 : Int) ≤ 2 ^ wordBits := one_le_pow₀ (by decide)
      have hmod : (-1 : Int) % 2 ^ wordBits = 2 ^ wordBits - 1 := by
        rw [← Int.add_emod_right, Int.emod_eq_of_lt (by omega) (by omega)]
        ring
      rw [hmod]
      have hcast : ((2 ^ wordBits : Nat) : Int) = 2 ^ wordBits := by push_cast; rfl
      omega
    · rw [Int.zero_emod]
      rfl
  have hrun := @mpDecodeFrom_mark wordBits rest hw _ hne hl (signOf l)
  obtain ⟨h, t, rfl⟩ := List.exists_cons_of_ne_nil hne
  obtain ⟨-, hbit⟩ := sign_bit h (hl h List.mem_cons_self)
  cases t with
  | nil =>
    show mpDecodeFrom wordBits _ _ = _
    rw [hstart h rfl]
    exact hrun
  | cons c t =>
    show mpDecodeFrom wordBits _ _ = _
    rw [hstart (h ||| 0x80) hbit]
    exact hrun

end

end PythonUltra.Py.Bc
