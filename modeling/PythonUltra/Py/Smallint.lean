/-
  PythonUltra.Py.Smallint — small integers (py/smallint.h, py/smallint.c).

  A small int is a machine word less its lowest bit, so its range is half that of an
  `mp_int_t`: `MP_OBJ_NEW_SMALL_INT` of a value outside of it loses the highest bit.
  The functions take and give values of `mp_int_t`; each is compared with what Python
  says (`mulOverflow_iff`, `floorDivide_eq`, `modulo_eq`, `smallPower_spec`).
-/

import PythonUltra.Py.MpzPow

namespace PythonUltra.Py.Smallint

open PythonUltra.Py.Mpz

variable (c : Config)

/-- `MP_SMALL_INT_MIN` -/
def smallMin : Int := -2 ^ (c.wordBits - 2)

/-- `MP_SMALL_INT_MAX` -/
def smallMax : Int := 2 ^ (c.wordBits - 2) - 1

/-- An `mp_int_t` as an `mp_uint_t`. -/
def uword (n : Int) : Nat := (n % 2 ^ c.wordBits).toNat

/-- `MP_SMALL_INT_FITS` -/
def smallIntFits (n : Int) : Bool := (uword c n ^^^ c.word (uword c n <<< 1)) &&& 2 ^ (c.wordBits - 1) == 0

/-- What `MP_OBJ_SMALL_INT_VALUE` reads from `MP_OBJ_NEW_SMALL_INT(n)`. -/
def newSmallInt (n : Int) : Int := c.sword (2 * n + 1) >>> (1 : Nat)

/-- `mp_small_int_mul_overflow` -/
def mulOverflow (x y : Int) : Bool :=
  if x > 0 then
    if y > 0 then x > (smallMax c).tdiv y else y < (smallMin c).tdiv x
  else
    if y > 0 then x < (smallMin c).tdiv y else x ≠ 0 ∧ y < (smallMax c).tdiv x

/-- `mp_small_int_modulo` -/
def modulo (dividend divisor : Int) : Int :=
  let dividend := dividend.tmod divisor
  if (dividend < 0 ∧ divisor > 0) ∨ (dividend > 0 ∧ divisor < 0) then c.sword (dividend + divisor) else dividend

/-- `mp_small_int_floor_divide` -/
def floorDivide (num denom : Int) : Int :=
  let num :=
    if num ≥ 0 then
      if denom < 0 then c.sword (num + (-denom - 1)) else num
    else
      if denom ≥ 0 then c.sword (num + (-denom + 1)) else num
  num.tdiv denom

/-- The loop of `**` in mp_binary_op; `none` where it goes to `power_overflow`. -/
def smallPower (ans lhs : Int) (rhs : Nat) : Option Int :=
  if rhs > 0 then
    if rhs &&& 1 ≠ 0 ∧ mulOverflow c ans lhs then none
    else
      let ans := if rhs &&& 1 ≠ 0 then c.sword (ans * lhs) else ans
      if rhs = 1 then some ans
      else if mulOverflow c lhs lhs then none
      else smallPower ans (c.sword (lhs * lhs)) (rhs / 2)
  else some ans

/-! ## Ranges -/

/-- In the range of small ints. -/
def InSmall (v : Int) : Prop := smallMin c ≤ v ∧ v ≤ smallMax c

instance (v : Int) : Decidable (InSmall c v) := inferInstanceAs (Decidable (_ ∧ _))

/-- Half the range. -/
def half : Int := 2 ^ (c.wordBits - 2)

variable {c} {n x y : Int}

theorem half_ge : 8 ≤ half c := by
  have h4 := c.four_le_digSize
  have hw := c.digSize_lt_wordBits
  have hpow : 2 ^ 3 ≤ 2 ^ (c.wordBits - 2) := Nat.pow_le_pow_right (by decide) (by omega)
  have hcast : half c = ((2 ^ (c.wordBits - 2) : Nat) : Int) := (Nat.cast_pow 2 _).symm
  omega

theorem inSmall_iff : InSmall c n ↔ -half c ≤ n ∧ n < half c := by
  unfold InSmall smallMin smallMax
  change -half c ≤ n ∧ n ≤ half c - 1 ↔ _
  omega

theorem word_eq : ((2 ^ c.wordBits : Nat) : Int) = 4 * half c := by
  have hw := c.digSize_lt_wordBits
  have h4 := c.four_le_digSize
  have hsplit : c.wordBits = (c.wordBits - 2) + 2 := by omega
  rw [half, Nat.cast_pow]
  conv_lhs => rw [hsplit, pow_add]
  rw [Int.mul_comm]
  rfl

/-- No wrap in the range of `mp_int_t`. -/
theorem sword_of (h1 : -(2 * half c) ≤ n) (h2 : n < 2 * half c) : c.sword n = n := by
  have hw := word_eq (c := c)
  exact Int.bmod_eq_of_le (by omega) (by omega)

theorem small_eq : ((2 ^ (c.wordBits - 1) : Nat) : Int) = 2 * half c := by
  have hw := c.digSize_lt_wordBits
  have h4 := c.four_le_digSize
  have hsplit : c.wordBits - 1 = (c.wordBits - 2) + 1 := by omega
  rw [half, Nat.cast_pow, hsplit, pow_succ, Int.mul_comm]
  rfl

/-- The highest bit is lost. -/
theorem newSmallInt_eq : newSmallInt c n = n.bmod (2 ^ (c.wordBits - 1)) := by
  have hw := word_eq (c := c)
  have hs := small_eq (c := c)
  have hpos := half_ge (c := c)
  have hsplit : n.bmod (2 ^ (c.wordBits - 1)) + 2 * half c * n.bdiv (2 ^ (c.wordBits - 1)) = n := by
    rw [← hs]
    exact Int.bmod_add_bdiv n _
  have hle := Int.le_bmod (x := n) (show 0 < 2 ^ (c.wordBits - 1) by positivity)
  have hlt := Int.bmod_lt (x := n) (show 0 < 2 ^ (c.wordBits - 1) by positivity)
  generalize n.bmod (2 ^ (c.wordBits - 1)) = b at hsplit hle hlt ⊢
  generalize n.bdiv (2 ^ (c.wordBits - 1)) = q at hsplit
  have hodd : 2 * n + 1 = 2 * b + 1 + (2 ^ c.wordBits : Nat) * q := by
    rw [hw, ← hsplit]
    ring
  rw [newSmallInt, Config.sword, hodd, Int.add_mul_bmod_self_left, Int.bmod_eq_of_le (by omega) (by omega), Int.shiftRight_eq_div_pow]
  omega

theorem newSmallInt_of (hn : InSmall c n) : newSmallInt c n = n := by
  have hw := word_eq (c := c)
  obtain ⟨h1, h2⟩ := inSmall_iff.mp hn
  rw [newSmallInt, sword_of (by omega) (by omega), Int.shiftRight_eq_div_pow]
  omega

theorem and_two_pow_eq_zero {u k : Nat} : u &&& 2 ^ k = 0 ↔ u.testBit k = false := by
  rw [Nat.and_two_pow]
  cases u.testBit k <;> simp

theorem smallIntFits_iff (h1 : -(2 * half c) ≤ n) (h2 : n < 2 * half c) : smallIntFits c n = true ↔ InSmall c n := by
  have hw := word_eq (c := c)
  have hs := small_eq (c := c)
  have hpos := half_ge (c := c)
  have h4 := c.four_le_digSize
  have hb := c.digSize_lt_wordBits
  obtain ⟨M, hM⟩ : ∃ M : Nat, M = 2 ^ (c.wordBits - 2) := ⟨_, rfl⟩
  have hMh : (M : Int) = half c := by rw [hM]; exact Nat.cast_pow 2 _
  have hshift : c.word (uword c n <<< 1) = (uword c n <<< 1) % 2 ^ c.wordBits := rfl
  -- the two highest bits of the word are the same
  have hbits : smallIntFits c n = true ↔ (uword c n).testBit (c.wordBits - 1) = (uword c n).testBit (c.wordBits - 2) := by
    rw [smallIntFits, beq_iff_eq, and_two_pow_eq_zero, Nat.testBit_xor, hshift, Nat.testBit_mod_two_pow, Nat.testBit_shiftLeft]
    have e1 : decide (c.wordBits - 1 < c.wordBits) = true := by simp; omega
    have e2 : decide (c.wordBits - 1 ≥ 1) = true := by simp; omega
    have e3 : c.wordBits - 1 - 1 = c.wordBits - 2 := by omega
    rw [e1, e2, e3]
    simp
  have hu : (uword c n : Int) = if 0 ≤ n then n else n + 4 * half c := by
    rw [uword, Int.toNat_of_nonneg (Int.emod_nonneg _ (by positivity)), show (2 ^ c.wordBits : Int) = 4 * half c by rw [← hw]; simp]
    split
    · exact Int.emod_eq_of_lt (by omega) (by omega)
    · rw [← Int.add_emod_right, Int.emod_eq_of_lt (by omega) (by omega)]
  rw [hbits, inSmall_iff, Nat.testBit_eq_decide_div_mod_eq, Nat.testBit_eq_decide_div_mod_eq]
  have hpow1 : 2 ^ (c.wordBits - 1) = 2 * M := by
    rw [hM, ← pow_succ']
    congr 1
    omega
  rw [hpow1, ← hM]
  generalize uword c n = u at hu ⊢
  rw [decide_eq_decide]
  have hdd : u / (2 * M) = u / M / 2 := by rw [Nat.mul_comm, Nat.div_div_eq_div_mul]
  have hM0 : 0 < M := by
    clear * - hMh hpos
    omega
  have hu4 : u < M * 4 := by
    clear * - hu hMh h1 h2
    split at hu <;> omega
  have hq := Nat.div_add_mod u M
  have hr := Nat.mod_lt u hM0
  rw [hdd]
  have hquo : u / M < 4 := Nat.div_lt_of_lt_mul hu4
  generalize u / M = q at hq hquo ⊢
  generalize u % M = r at hq hr
  clear hs hw hshift hpow1 hdd hM hu4
  have hcases : q = 0 ∨ q = 1 ∨ q = 2 ∨ q = 3 := by
    clear * - hquo
    omega
  rcases hcases with rfl | rfl | rfl | rfl <;> split at hu <;> omega

/-! ## Arithmetic -/

theorem mul_le_iff_le_tdiv {a b k : Int} (hb : 0 < b) (hk : 0 ≤ k) : a ≤ k.tdiv b ↔ a * b ≤ k := by
  rw [Int.tdiv_eq_ediv_of_nonneg hk]
  exact Int.le_ediv_iff_mul_le hb

theorem mulOverflow_iff : mulOverflow c x y = true ↔ ¬ InSmall c (x * y) := by
  have hpos := half_ge (c := c)
  have hmax : smallMax c = half c - 1 := rfl
  have hmin : smallMin c = -half c := rfl
  rw [inSmall_iff]
  unfold mulOverflow
  rw [hmax, hmin]
  split
  case isTrue hx0 =>
    split
    case isTrue hy0 =>
      have hle := mul_le_iff_le_tdiv (a := x) hy0 (show 0 ≤ half c - 1 by omega)
      have hxy := Int.mul_pos hx0 hy0
      rw [decide_eq_true_iff]
      omega
    case isFalse hy0 =>
      have hle := mul_le_iff_le_tdiv (a := -y) hx0 (show 0 ≤ half c by omega)
      have hxy := Int.mul_nonpos_of_nonneg_of_nonpos (Int.le_of_lt hx0) (show y ≤ 0 by omega)
      rw [Int.neg_mul, Int.mul_comm y x] at hle
      rw [decide_eq_true_iff, Int.neg_tdiv]
      omega
  case isFalse hx0 =>
    split
    case isTrue hy0 =>
      have hle := mul_le_iff_le_tdiv (a := -x) hy0 (show 0 ≤ half c by omega)
      have hxy := Int.mul_nonpos_of_nonpos_of_nonneg (show x ≤ 0 by omega) (Int.le_of_lt hy0)
      rw [Int.neg_mul] at hle
      rw [decide_eq_true_iff, Int.neg_tdiv]
      omega
    case isFalse hy0 =>
      rw [decide_eq_true_iff]
      by_cases hzero : x = 0
      · rw [hzero, Int.zero_mul]
        omega
      · have hle := mul_le_iff_le_tdiv (a := -y) (show 0 < -x by omega) (show 0 ≤ half c - 1 by omega)
        have hxy := Int.mul_nonneg_of_nonpos_of_nonpos (show x ≤ 0 by omega) (show y ≤ 0 by omega)
        rw [Int.neg_mul_neg, Int.mul_comm y x, Int.tdiv_neg] at hle
        omega
theorem modulo_eq (hy : InSmall c y) (hy0 : y ≠ 0) : modulo c x y = x.fmod y := by
  have hdef := Int.tmod_add_tdiv_mul x y
  have hlt : (x.tmod y).natAbs < y.natAbs := by
    rw [Int.natAbs_tmod]
    exact Nat.mod_lt _ (by omega)
  rw [inSmall_iff] at hy
  unfold modulo
  simp only
  generalize x.tmod y = r at hdef hlt ⊢
  generalize x.tdiv y = q at hdef
  have hself : x = q * y + r := by rw [← hdef, Int.add_comm]
  split
  · rename_i hfar
    rw [sword_of (by omega) (by omega)]
    refine (floor_unique (q := q - 1) (by rw [hself]; ring) ?_).2.symm
    clear * - hfar hlt
    omega
  · rename_i hnear
    have hrem : 0 ≤ r ∧ r < y ∨ y < r ∧ r ≤ 0 := by
      clear * - hnear hlt hy0
      omega
    exact (floor_unique hself hrem).2.symm

theorem floorDivide_eq (hx : InSmall c x) (hy : InSmall c y) (hy0 : y ≠ 0) : floorDivide c x y = x.fdiv y := by
  rw [inSmall_iff] at hx hy
  -- `num` is moved to the far side of the multiple of `denom` the quotient is rounded to
  obtain ⟨k, hnum, hk⟩ : ∃ k, floorDivide c x y = (x + k).tdiv y ∧
      (0 ≤ x ∧ y < 0 ∧ k = -y - 1 ∨ x < 0 ∧ 0 < y ∧ k = -y + 1 ∨ (0 ≤ x ∧ 0 < y ∨ x < 0 ∧ y < 0) ∧ k = 0) := by
    unfold floorDivide
    simp only
    by_cases hx0 : x ≥ 0
    · rw [if_pos hx0]
      by_cases hyn : y < 0
      · rw [if_pos hyn, sword_of (by omega) (by omega)]
        exact ⟨-y - 1, rfl, .inl ⟨hx0, hyn, rfl⟩⟩
      · have hyp : 0 < y := lt_of_le_of_ne (Int.not_lt.mp hyn) hy0.symm
        rw [if_neg hyn]
        exact ⟨0, by rw [Int.add_zero], .inr (.inr ⟨.inl ⟨hx0, hyp⟩, rfl⟩)⟩
    · have hxn : x < 0 := Int.not_le.mp hx0
      rw [if_neg hx0]
      by_cases hyn : y ≥ 0
      · rw [if_pos hyn, sword_of (by omega) (by omega)]
        exact ⟨-y + 1, rfl, .inr (.inl ⟨hxn, lt_of_le_of_ne hyn hy0.symm, rfl⟩)⟩
      · rw [if_neg hyn]
        exact ⟨0, by rw [Int.add_zero], .inr (.inr ⟨.inr ⟨hxn, Int.not_le.mp hyn⟩, rfl⟩)⟩
  have hdef := Int.tmod_add_tdiv_mul (x + k) y
  have hlt : ((x + k).tmod y).natAbs < y.natAbs := by
    rw [Int.natAbs_tmod]
    exact Nat.mod_lt _ (by omega)
  have hsign : 0 ≤ x + k → 0 ≤ (x + k).tmod y := Int.tmod_nonneg y
  have hsign' : x + k ≤ 0 → (x + k).tmod y ≤ 0 := by
    intro hle
    have hneg := Int.tmod_nonneg y (show 0 ≤ -(x + k) by omega)
    rw [Int.neg_tmod] at hneg
    omega
  rw [hnum]
  generalize (x + k).tmod y = r at hdef hlt hsign hsign'
  generalize (x + k).tdiv y = q at hdef ⊢
  have hrem : 0 ≤ r - k ∧ r - k < y ∨ y < r - k ∧ r - k ≤ 0 := by
    clear * - hk hlt hsign hsign'
    rcases hk with ⟨hx, hyn, rfl⟩ | ⟨hx, hyp, rfl⟩ | ⟨⟨hx, hyp⟩ | ⟨hx, hyn⟩, rfl⟩
    · have hr := hsign (Int.add_nonneg hx (Int.sub_nonneg_of_le (Int.add_one_le_of_lt (Int.neg_pos_of_neg hyn))))
      clear hsign hsign'
      right
      omega
    · have hr := hsign' (by clear hsign hsign' hlt; omega)
      clear hsign hsign'
      left
      omega
    · have hr := hsign (Int.add_nonneg hx (Int.le_refl 0))
      clear hsign hsign'
      left
      omega
    · have hr := hsign' (by clear hsign hsign' hlt; omega)
      clear hsign hsign'
      right
      omega
  exact (floor_unique (show x = q * y + (r - k) by linarith only [hdef]) hrem).1.symm

theorem smallPower_spec {ans lhs v : Int} {rhs : Nat} (hans : InSmall c ans) (hlhs : InSmall c lhs) (hv : smallPower c ans lhs rhs = some v) :
    v = ans * lhs ^ rhs ∧ InSmall c v := by
  have hword : ∀ {m : Int}, InSmall c m → c.sword m = m := by
    intro m hm
    rw [inSmall_iff] at hm
    exact sword_of (by omega) (by omega)
  induction rhs using Nat.strong_induction_on generalizing ans lhs with
  | _ rhs ih =>
    rw [smallPower] at hv
    by_cases hpos : rhs > 0
    · rw [if_pos hpos] at hv
      by_cases hover : rhs &&& 1 ≠ 0 ∧ mulOverflow c ans lhs
      · rw [if_pos hover] at hv
        cases hv
      · rw [if_neg hover] at hv
        have hodd : InSmall c (ans * lhs ^ (rhs % 2)) ∧ (if rhs &&& 1 ≠ 0 then c.sword (ans * lhs) else ans) = ans * lhs ^ (rhs % 2) := by
          rw [Nat.and_one_is_mod] at hover ⊢
          by_cases hbit : rhs % 2 ≠ 0
          · have h1 : rhs % 2 = 1 := by omega
            have hfit : InSmall c (ans * lhs) := by
              by_contra hbig
              exact hover ⟨hbit, mulOverflow_iff.mpr hbig⟩
            rw [if_pos hbit, h1, pow_one]
            exact ⟨hfit, hword hfit⟩
          · rw [if_neg hbit, not_not.mp hbit, pow_zero, Int.mul_one]
            exact ⟨hans, rfl⟩
        obtain ⟨hfit, hacc⟩ := hodd
        simp only [hacc] at hv
        by_cases hone : rhs = 1
        · rw [if_pos hone] at hv
          cases hv
          subst hone
          exact ⟨rfl, hfit⟩
        · rw [if_neg hone] at hv
          by_cases hsq : mulOverflow c lhs lhs = true
          · rw [if_pos hsq] at hv
            cases hv
          · have hfit' : InSmall c (lhs * lhs) := not_not.mp (mt mulOverflow_iff.mpr hsq)
            rw [if_neg hsq, hword hfit'] at hv
            rw [pow_halve lhs rhs, ← Int.mul_assoc]
            exact ih (rhs / 2) (by omega) hfit hfit' hv
    · rw [if_neg hpos] at hv
      cases hv
      obtain rfl : rhs = 0 := by omega
      exact ⟨by rw [pow_zero, Int.mul_one], hans⟩
end PythonUltra.Py.Smallint
