/-
  PythonUltra.Py.MpzFloat — integers from floats (mpz_set_from_float).

  A float is given by its bit fields. From two on, the fraction with its hidden bit is laid
  over the digits from the place that the exponent names; below that the value is a
  constant. `FloatBits.toRat` is what the fields stand for.
-/

import PythonUltra.Py.MpzPow
import Mathlib.Data.Rat.Floor
import Mathlib.Algebra.Order.Field.Power

namespace PythonUltra.Py.Mpz

open PythonUltra.Lib PythonUltra.Lib.Digits

/-- `MICROPY_FLOAT_IMPL` -/
inductive FloatImpl where
  | float
  | double
deriving DecidableEq, Repr

namespace FloatImpl

/-- `MP_FLOAT_FRAC_BITS` -/
def fracBits : FloatImpl → Nat
  | float => 23
  | double => 52

/-- `MP_FLOAT_EXP_BITS` -/
def expBits : FloatImpl → Nat
  | float => 8
  | double => 11

/-- bits of `mp_float_uint_t` -/
def uintBits : FloatImpl → Nat
  | float => 32
  | double => 64

/-- `MP_FLOAT_EXP_BIAS` -/
def bias (f : FloatImpl) : Nat := 2 ^ (f.expBits - 1) - 1

end FloatImpl

/-- A machine with floats. `MPZ_DIG_SIZE` is a power of two on all of them. -/
structure FloatMachine extends Config where
  impl : FloatImpl
  digSize_le : digSize ≤ 32
  digSize_dvd : digSize ∣ 2 ^ 32

/-- `mp_float_union_t`, by its fields. -/
structure FloatBits (f : FloatImpl) where
  sgn : Bool
  exp : Nat
  frc : Nat
  exp_lt : exp < 2 ^ f.expBits
  frc_lt : frc < 2 ^ f.fracBits

variable {ι : Type} [DecidableEq ι] {m : FloatMachine}

/-- The loop that lays the rest of the fraction over the digits. -/
def frcDigits (z : Ref ι) (digCnt : Nat) : Nat → Nat → Nat → M m.toConfig ι Unit
  | 0, digInd, _ => if digInd = digCnt then pure () else Prog.throw .stuck
  | n + 1, digInd, frc =>
    if digInd = digCnt then pure ()
    else do
      writeDig z digInd (frc &&& m.mask)
      frcDigits z digCnt n (digInd + 1) (frc >>> m.digSize)

/-- `shft`, `dig_ind` and `frc` for an exponent of at least one. The difference that `shft` is a
remainder of is that of an `unsigned int`. -/
def placeFrc (m : FloatMachine) (adjExp frc : Nat) : Nat × Nat × Nat :=
  if adjExp < m.impl.fracBits then (0, 0, frc >>> (m.impl.fracBits - adjExp))
  else ((adjExp % m.digSize + (2 ^ 32 - m.impl.fracBits)) % 2 ^ 32 % m.digSize, (adjExp - m.impl.fracBits) / m.digSize, frc)

/-- The whole digits below the fraction. -/
def clearLow (z : Ref ι) (digInd : Nat) : M m.toConfig ι Unit := if digInd ≠ 0 then zeroDig z digInd else pure ()

/-- The digit that is not filled from its lowest bit on. -/
def firstFrc (z : Ref ι) (shft digInd frc : Nat) : M m.toConfig ι (Nat × Nat) :=
  if shft ≠ 0 then do
    writeDig z digInd ((frc <<< shft) % 2 ^ m.impl.uintBits &&& m.mask)
    pure (digInd + 1, frc >>> (m.digSize - shft))
  else pure (digInd, frc)

/-- From two on. -/
def floatDigits (z : Ref ι) (adjExp frc : Nat) : M m.toConfig ι Unit := do
  let digCnt := (adjExp + 1 + (m.digSize - 1)) / m.digSize
  let ⟨shft, digInd, frc⟩ := placeFrc m adjExp (frc ||| 1 <<< m.impl.fracBits)
  mpzNeedDig z digCnt
  setLen z digCnt
  clearLow z digInd
  let ⟨digInd, frc⟩ ← firstFrc z shft digInd frc
  if m.digSize < m.impl.fracBits + 1 then frcDigits z digCnt digCnt digInd frc
  else if digInd ≠ digCnt then writeDig z digInd frc

def mpzSetFromFloat (z : Ref ι) (u : FloatBits m.impl) : M m.toConfig ι Unit := do
  setNeg z u.sgn
  if u.exp = 0 then mpzSetFromInt z 0
  else if u.exp = 2 ^ m.impl.expBits - 1 then mpzSetFromInt z 0
  else
    let adjExp : Int := u.exp - m.impl.bias
    if adjExp < 0 then mpzSetFromInt z 0
    else if adjExp = 0 then mpzSetFromInt z 1
    else floatDigits z adjExp.toNat u.frc

/-! ## What the fields stand for -/

namespace FloatBits

variable {f : FloatImpl} (u : FloatBits f)

/-- Neither an infinity nor a NaN. -/
def Finite : Prop := u.exp ≠ 2 ^ f.expBits - 1

/-- The value without its sign: with a hidden bit, or below the least exponent. -/
def magnitude : Rat :=
  if u.exp = 0 then u.frc * 2 ^ (1 - f.bias - f.fracBits : Int) else (2 ^ f.fracBits + u.frc) * 2 ^ (u.exp - f.bias - f.fracBits : Int)

def toRat : Rat := if u.sgn then -u.magnitude else u.magnitude

/-- The whole part of the magnitude. -/
def whole : Nat :=
  if u.exp < f.bias then 0
  else if u.exp - f.bias < f.fracBits then (2 ^ f.fracBits + u.frc) / 2 ^ (f.fracBits - (u.exp - f.bias))
  else (2 ^ f.fracBits + u.frc) * 2 ^ (u.exp - f.bias - f.fracBits)

end FloatBits

/-- Towards zero. -/
def truncated (q : Rat) : Int := if 0 ≤ q then ⌊q⌋ else ⌈q⌉

namespace FloatBits

variable {f : FloatImpl} (u : FloatBits f)

theorem bias_pos (f : FloatImpl) : 0 < f.bias := by cases f <;> decide

/-- A fraction with as much as a hidden bit, below the point. -/
theorem small_floor {n k : Nat} {e : Int} (hn : n < 2 ^ k) (he : e ≤ -k) : 0 ≤ (n : Rat) * 2 ^ e ∧ ⌊(n : Rat) * 2 ^ e⌋ = 0 := by
  have hpos : (0 : Rat) < 2 ^ e := by positivity
  have hlt : (n : Rat) < 2 ^ k := by exact_mod_cast hn
  have hle : (2 : Rat) ^ e ≤ 2 ^ (-k : Int) := zpow_le_zpow_right₀ (by norm_num) he
  have hone : (2 : Rat) ^ k * 2 ^ (-k : Int) = 1 := by
    rw [zpow_neg, zpow_natCast]
    exact mul_inv_cancel₀ (by positivity)
  have hbelow : (n : Rat) * 2 ^ e < 1 := by
    calc (n : Rat) * 2 ^ e < 2 ^ k * 2 ^ e := mul_lt_mul_of_pos_right hlt hpos
      _ ≤ 2 ^ k * 2 ^ (-k : Int) := mul_le_mul_of_nonneg_left hle (by positivity)
      _ = 1 := hone
  have hnonneg : 0 ≤ (n : Rat) * 2 ^ e := by positivity
  exact ⟨hnonneg, Int.floor_eq_zero_iff.mpr ⟨hnonneg, hbelow⟩⟩

theorem magnitude_floor : 0 ≤ u.magnitude ∧ ⌊u.magnitude⌋ = (u.whole : Int) := by
  have hbias := bias_pos f
  have hcast : ((2 ^ f.fracBits + u.frc : Nat) : Rat) = 2 ^ f.fracBits + u.frc := by push_cast; rfl
  unfold magnitude whole
  by_cases hzero : u.exp = 0
  · rw [if_pos hzero, if_pos (by omega)]
    exact small_floor u.frc_lt (by omega)
  · rw [if_neg hzero, ← hcast]
    by_cases hlow : u.exp < f.bias
    · rw [if_pos hlow]
      refine small_floor (k := f.fracBits + 1) ?_ (by omega)
      have := u.frc_lt
      rw [Nat.pow_succ]
      omega
    · rw [if_neg hlow]
      obtain ⟨k, hk⟩ := Nat.exists_eq_add_of_le (Nat.le_of_not_lt hlow)
      have hexp : (u.exp - f.bias - f.fracBits : Int) = k - f.fracBits := by omega
      have hsub : u.exp - f.bias = k := by omega
      rw [hexp, hsub]
      refine ⟨by positivity, ?_⟩
      by_cases hfrac : k < f.fracBits
      · have hneg : (k - f.fracBits : Int) = -((f.fracBits - k : Nat) : Int) := by omega
        have hden : ((2 ^ (f.fracBits - k) : Nat) : Rat) = 2 ^ (f.fracBits - k) := by push_cast; rfl
        rw [if_pos hfrac, hneg, zpow_neg, zpow_natCast, ← div_eq_mul_inv, ← hden]
        exact Rat.floor_intCast_div_natCast (2 ^ f.fracBits + u.frc : Nat) _
      · have hpos : (k - f.fracBits : Int) = ((k - f.fracBits : Nat) : Int) := by omega
        have hprod : ((2 ^ f.fracBits + u.frc : Nat) : Rat) * 2 ^ (k - f.fracBits) = (((2 ^ f.fracBits + u.frc) * 2 ^ (k - f.fracBits) : Nat) : Rat) := by
          push_cast
          rfl
        rw [if_neg hfrac, hpos, zpow_natCast, hprod, Int.floor_natCast]

theorem truncated_toRat : truncated u.toRat = signed u.sgn u.whole := by
  obtain ⟨hnonneg, hfloor⟩ := u.magnitude_floor
  unfold truncated toRat
  cases u.sgn with
  | false =>
    rw [if_neg Bool.false_ne_true, if_pos hnonneg]
    exact hfloor
  | true =>
    rw [if_pos rfl]
    change _ = -(u.whole : Int)
    by_cases hzero : 0 ≤ -u.magnitude
    · have hmag : u.magnitude = 0 := le_antisymm (neg_nonneg.mp hzero) hnonneg
      rw [hmag, Int.floor_zero] at hfloor
      rw [if_pos hzero, hmag, ← hfloor]
      rfl
    · rw [if_neg hzero, Int.ceil_neg, hfloor]

end FloatBits

/-! ## The digits -/

variable {h : Heap m.toConfig ι} {z : Ref ι}

theorem frcDigits_spec {digCnt fuel digInd frc : Nat} {d : Nat → Nat} (hind : digInd ≤ digCnt) (hfuel : digCnt - digInd ≤ fuel)
    (halloc : digCnt ≤ (h z).alloc) (hd : ∀ j < digCnt - digInd, d (digInd + j) = frc / m.base ^ j % m.base) :
    frcDigits z digCnt fuel digInd frc (paint h z 0 digInd d) = (.ok (), paint h z 0 digCnt d) := by
  induction fuel generalizing digInd frc with
  | zero =>
    obtain rfl : digInd = digCnt := by omega
    rw [frcDigits, if_pos rfl]
    rfl
  | succ fuel ih =>
    by_cases hend : digInd = digCnt
    · subst hend
      rw [frcDigits, if_pos rfl]
      rfl
    · have hdig : m.dig (frc &&& m.mask) = d (0 + digInd) := by
        have hfirst := hd 0 (by omega)
        rw [Nat.add_zero, Nat.pow_zero, Nat.div_one] at hfirst
        rw [Config.and_mask, Config.dig_of_lt (Nat.mod_lt _ m.base_pos), Nat.zero_add, hfirst]
      have hwrite := writeDig_paint (h := h) (i := z) (p := 0) (n := digInd) (by omega) hdig
      rw [Nat.zero_add] at hwrite
      rw [frcDigits, if_neg hend, Prog.bind_of_ok hwrite, Config.shiftRight_digSize]
      refine ih (by omega) (by omega) fun j hj => ?_
      have hnext := hd (j + 1) (by omega)
      rw [Nat.add_assoc, Nat.add_comm 1 j, hnext, Nat.div_div_eq_div_mul, ← Nat.pow_succ']

/-- The lowest digit of a number shifted left by part of a digit, and the ones above it. -/
theorem shifted_digits {g s : Nat} (hs : s ≤ m.digSize) (j : Nat) :
    g * 2 ^ s / m.base ^ (j + 1) = g / 2 ^ (m.digSize - s) / m.base ^ j := by
  have hbase : m.base = 2 ^ (m.digSize - s) * 2 ^ s := by
    rw [Config.base, ← Nat.pow_add, Nat.sub_add_cancel hs]
  rw [Nat.pow_succ', ← Nat.div_div_eq_div_mul]
  congr 1
  conv_lhs => rw [hbase]
  exact Nat.mul_div_mul_right _ _ (Nat.two_pow_pos s)

/-- A fraction in place: `g` from bit `s` of digit `i` on. -/
structure Placed (m : FloatMachine) (adjExp frc s i g : Nat) : Prop where
  shift_lt : s < m.digSize
  ind_lt : i < adjExp / m.digSize + 1
  value : g * 2 ^ s * m.base ^ i = if adjExp < m.impl.fracBits then frc / 2 ^ (m.impl.fracBits - adjExp) else frc * 2 ^ (adjExp - m.impl.fracBits)
  short : ¬ m.digSize < m.impl.fracBits + 1 → g < m.base ∧ adjExp / m.digSize + 1 ≤ i + if s ≠ 0 then 2 else 1

theorem sub_mod_word {a b d w : Nat} (hd : d ∣ w) (hb : b ≤ w) (hab : b ≤ a) : (a % d + (w - b)) % w % d = (a - b) % d := by
  obtain ⟨k, rfl⟩ := Nat.exists_eq_add_of_le hab
  obtain ⟨q, hq⟩ := hd
  rw [Nat.mod_mod_of_dvd _ ⟨q, hq⟩, Nat.mod_add_mod, Nat.add_sub_cancel_left, show b + k + (w - b) = k + w by omega, hq, Nat.add_mul_mod_self_left]

theorem placeFrc_spec {adjExp frc : Nat} (hfrc : frc < 2 ^ (m.impl.fracBits + 1)) :
    Placed m adjExp frc (placeFrc m adjExp frc).1 (placeFrc m adjExp frc).2.1 (placeFrc m adjExp frc).2.2 := by
  have hD : 0 < m.digSize := by have := m.four_le_digSize; omega
  have hbelow : ∀ n, n ≤ m.impl.fracBits + 1 → ¬ m.digSize < m.impl.fracBits + 1 → 2 ^ n ≤ m.base := fun n hn hlong =>
    Nat.pow_le_pow_right (by decide) (by omega)
  unfold placeFrc
  by_cases hlow : adjExp < m.impl.fracBits
  · rw [if_pos hlow]
    refine ⟨hD, Nat.succ_pos _, ?_, fun hlong => ⟨?_, ?_⟩⟩
    · rw [if_pos hlow, Nat.pow_zero, Nat.mul_one, Nat.pow_zero, Nat.mul_one, Nat.shiftRight_eq_div_pow]
    · refine Nat.lt_of_le_of_lt (Nat.shiftRight_le _ _) (Nat.lt_of_lt_of_le hfrc (hbelow _ (Nat.le_refl _) hlong))
    · rw [Nat.div_eq_of_lt (by omega)]
      exact Nat.le_refl 1
  · obtain ⟨k, rfl⟩ := Nat.exists_eq_add_of_le (Nat.le_of_not_lt hlow)
    have hword : m.impl.fracBits ≤ 2 ^ 32 := by cases m.impl <;> decide
    have hshift := sub_mod_word m.digSize_dvd hword (Nat.le_add_right m.impl.fracBits k)
    rw [Nat.add_sub_cancel_left] at hshift
    rw [if_neg hlow, hshift, Nat.add_sub_cancel_left]
    refine ⟨Nat.mod_lt _ hD, Nat.lt_succ_of_le (Nat.div_le_div_right (by omega)), ?_, fun hlong => ⟨?_, ?_⟩⟩
    · rw [if_neg hlow, Nat.add_sub_cancel_left, Config.base, ← Nat.pow_mul, Nat.mul_assoc, ← Nat.pow_add, Nat.mod_add_div]
    · exact Nat.lt_of_lt_of_le hfrc (hbelow _ (Nat.le_refl _) hlong)
    · have hk := Nat.div_add_mod k m.digSize
      have hmod := Nat.mod_lt k hD
      show (m.impl.fracBits + k) / m.digSize + 1 ≤ k / m.digSize + if k % m.digSize ≠ 0 then 2 else 1
      by_cases hpart : k % m.digSize = 0
      · rw [if_neg (not_not.mpr hpart)]
        have hsum : m.impl.fracBits + k = m.impl.fracBits + m.digSize * (k / m.digSize) := by omega
        rw [hsum, Nat.add_mul_div_left _ _ hD, Nat.div_eq_of_lt (by omega), Nat.zero_add]
      · rw [if_pos hpart]
        have hle : (m.impl.fracBits + k) / m.digSize ≤ (k + m.digSize) / m.digSize := Nat.div_le_div_right (by omega)
        rw [Nat.add_div_right _ hD] at hle
        omega

/-- The digits of a number at their places, from `digInd` on in what is left of the fraction. -/
def Rest (m : FloatMachine) (v digInd frc : Nat) : Prop := ∀ j, v / m.base ^ (digInd + j) % m.base = frc / m.base ^ j % m.base

theorem firstFrc_spec {g s i v : Nat} (hs : s < m.digSize) (hv : g * 2 ^ s * m.base ^ i = v) (hi : i < (h z).alloc) :
    ∃ i' g', firstFrc z s i g (paint h z 0 i fun q => v / m.base ^ q % m.base) = (.ok (i', g'), paint h z 0 i' fun q => v / m.base ^ q % m.base) ∧
      Rest m v i' g' ∧ i' = i + (if s ≠ 0 then 1 else 0) ∧ g' ≤ g := by
  have hat : ∀ j, v / m.base ^ (i + j) = g * 2 ^ s / m.base ^ j := by
    intro j
    rw [← hv, Nat.pow_add, ← Nat.div_div_eq_div_mul, Nat.mul_div_cancel _ (Nat.pow_pos m.base_pos)]
  by_cases hzero : s = 0
  · refine ⟨i, g, ?_, fun j => ?_, by rw [if_neg (not_not.mpr hzero)]; rfl, Nat.le_refl g⟩
    · rw [firstFrc, if_neg (not_not.mpr hzero)]
      rfl
    · rw [hat, hzero, Nat.pow_zero, Nat.mul_one]
  · have hword : m.base ∣ 2 ^ m.impl.uintBits := by
      have hle : 32 ≤ m.impl.uintBits := by cases m.impl <;> decide
      exact Nat.pow_dvd_pow 2 (Nat.le_trans m.digSize_le hle)
    have hdig : m.dig ((g <<< s) % 2 ^ m.impl.uintBits &&& m.mask) = v / m.base ^ (0 + i) % m.base := by
      have hfirst := hat 0
      rw [Nat.add_zero, Nat.pow_zero, Nat.div_one] at hfirst
      rw [Config.and_mask, Config.dig_of_lt (Nat.mod_lt _ m.base_pos), Nat.mod_mod_of_dvd _ hword, Nat.zero_add, hfirst, Nat.shiftLeft_eq]
    have hwrite := writeDig_paint (h := h) (i := z) (p := 0) (n := i) (d := fun q => v / m.base ^ q % m.base) (by omega) hdig
    rw [Nat.zero_add] at hwrite
    refine ⟨i + 1, g >>> (m.digSize - s), ?_, fun j => ?_, by rw [if_pos hzero], Nat.shiftRight_le _ _⟩
    · rw [firstFrc, if_pos hzero, Prog.bind_of_ok hwrite]
      rfl
    · rw [Nat.add_assoc, Nat.add_comm 1 j, hat, shifted_digits (Nat.le_of_lt hs), Nat.shiftRight_eq_div_pow]

theorem clearLow_spec {g s i v : Nat} (hv : g * 2 ^ s * m.base ^ i = v) (hi : i ≤ (h z).alloc) :
    clearLow z i h = (.ok (), paint h z 0 i fun q => v / m.base ^ q % m.base) := by
  unfold clearLow
  by_cases hzero : i = 0
  · rw [if_neg (not_not.mpr hzero), hzero, paint_zero]
    rfl
  · rw [if_pos hzero, zeroDig_eq hi]
    refine congrArg (fun f => (Except.ok (), withDig h z f)) (funext fun q => ?_)
    by_cases hq : q < i
    · obtain ⟨k, rfl⟩ := Nat.exists_eq_add_of_lt hq
      rw [overlay_low hq, overlay_low hq, ← hv]
      have hsplit : g * 2 ^ s * m.base ^ (q + k + 1) = m.base * (g * 2 ^ s * m.base ^ k) * m.base ^ q := by ring
      rw [hsplit, Nat.mul_div_cancel _ (Nat.pow_pos m.base_pos), Nat.mul_mod_right]
    · rw [overlay_of_not (by omega), overlay_of_not (by omega)]

/-- The fraction laid over `n` digits. -/
theorem restDigits_spec {g i n v : Nat} (hrest : Rest m v i g) (hi : i ≤ n) (hn : n ≤ (h z).alloc)
    (hshort : ¬ m.digSize < m.impl.fracBits + 1 → g < m.base ∧ n ≤ i + 1) :
    (if m.digSize < m.impl.fracBits + 1 then frcDigits z n n i g else if i ≠ n then writeDig z i g else pure () : M m.toConfig ι Unit)
      (paint h z 0 i fun q => v / m.base ^ q % m.base) = (.ok (), paint h z 0 n fun q => v / m.base ^ q % m.base) := by
  by_cases hlong : m.digSize < m.impl.fracBits + 1
  · rw [if_pos hlong]
    exact frcDigits_spec hi (by omega) hn fun j _ => hrest j
  · obtain ⟨hg, hle⟩ := hshort hlong
    rw [if_neg hlong]
    by_cases hend : i = n
    · rw [if_neg (not_not.mpr hend), hend]
      rfl
    · obtain rfl : n = i + 1 := by omega
      have hdig : m.dig g = v / m.base ^ (0 + i) % m.base := by
        have hfirst := hrest 0
        rw [Nat.add_zero, Nat.pow_zero, Nat.div_one, Nat.mod_eq_of_lt hg] at hfirst
        rw [Config.dig_of_lt hg, Nat.zero_add, hfirst]
      have hwrite := writeDig_paint (h := h) (i := z) (p := 0) (n := i) (d := fun q => v / m.base ^ q % m.base) (by omega) hdig
      rw [Nat.zero_add] at hwrite
      rw [if_pos hend]
      exact hwrite

/-- The whole part of a fraction with its hidden bit. -/
def laid (m : FloatMachine) (adjExp frc : Nat) : Nat :=
  if adjExp < m.impl.fracBits then (2 ^ m.impl.fracBits + frc) / 2 ^ (m.impl.fracBits - adjExp)
  else (2 ^ m.impl.fracBits + frc) * 2 ^ (adjExp - m.impl.fracBits)

theorem laid_bounds {adjExp frc : Nat} (hfrc : frc < 2 ^ m.impl.fracBits) :
    2 ^ adjExp ≤ laid m adjExp frc ∧ laid m adjExp frc < 2 ^ (adjExp + 1) := by
  have hhigh : 2 ^ m.impl.fracBits + frc < 2 ^ (m.impl.fracBits + 1) := by
    rw [Nat.pow_succ]
    omega
  unfold laid
  by_cases hlow : adjExp < m.impl.fracBits
  · obtain ⟨k, hk⟩ := Nat.exists_eq_add_of_le (Nat.le_of_lt hlow)
    rw [if_pos hlow, hk, Nat.add_sub_cancel_left, Nat.le_div_iff_mul_le (Nat.two_pow_pos k), Nat.div_lt_iff_lt_mul (Nat.two_pow_pos k),
      ← Nat.pow_add, ← Nat.pow_add, Nat.add_right_comm, ← hk]
    exact ⟨Nat.le_add_right _ _, hhigh⟩
  · obtain ⟨k, rfl⟩ := Nat.exists_eq_add_of_le (Nat.le_of_not_lt hlow)
    rw [if_neg hlow, Nat.add_sub_cancel_left, Nat.add_right_comm, Nat.pow_add, Nat.pow_add]
    exact ⟨Nat.mul_le_mul_right _ (Nat.le_add_right _ _), Nat.mul_lt_mul_of_pos_right hhigh (Nat.two_pow_pos k)⟩

/-- A number of `e + 1` bits has `e / DIG_SIZE + 1` digits. -/
theorem laid_normal {v e : Nat} (hlow : 2 ^ e ≤ v) (hhigh : v < 2 ^ (e + 1)) :
    Digits.Normal m.base (fun q => v / m.base ^ q % m.base) (e / m.digSize + 1) ∧
      num m.base (fun q => v / m.base ^ q % m.base) (e / m.digSize + 1) = v := by
  have hD : 0 < m.digSize := by have := m.four_le_digSize; omega
  have hdiv := Nat.div_add_mod e m.digSize
  have hmod := Nat.mod_lt e hD
  have hfirst : m.base ^ (e / m.digSize) ≤ v := by
    rw [Config.base, ← Nat.pow_mul]
    exact Nat.le_trans (Nat.pow_le_pow_right (by decide) (by omega)) hlow
  have hlast : v < m.base ^ (e / m.digSize + 1) := by
    rw [Config.base, ← Nat.pow_mul, Nat.mul_succ]
    exact Nat.lt_of_lt_of_le hhigh (Nat.pow_le_pow_right (by decide) (by omega))
  have htop : v / m.base ^ (e / m.digSize) < m.base := by
    rw [Nat.div_lt_iff_lt_mul (Nat.pow_pos m.base_pos), ← Nat.pow_succ']
    exact hlast
  have hpos : 0 < v / m.base ^ (e / m.digSize) := Nat.div_pos hfirst (Nat.pow_pos m.base_pos)
  refine ⟨⟨fun q _ => Nat.mod_lt _ m.base_pos, fun _ => ?_⟩, ?_⟩
  · rw [Nat.add_sub_cancel, Nat.mod_eq_of_lt htop]
    exact hpos.ne'
  · rw [num_low, Nat.mod_eq_of_lt hlast]

theorem paint_putLen {n : Nat} (d : Nat → Nat) : paint (putLen h z n) z 0 n d = stored h z (overlay 0 n d (h z).dig) n (h z).neg := by
  unfold paint putLen stored withDig
  simp

theorem floatDigits_gives {adjExp frc room : Nat} (hfrc : frc < 2 ^ m.impl.fracBits) (hfixed : (h z).fixedDig = false) (hd : (h z).alloc ≤ room)
    (hroom : adjExp / m.digSize + 2 ≤ room) :
    Gives (floatDigits z adjExp frc) h z (signed (h z).neg (laid m adjExp frc)) room := by
  have hD : 0 < m.digSize := by have := m.four_le_digSize; omega
  have hcnt : (adjExp + 1 + (m.digSize - 1)) / m.digSize = adjExp / m.digSize + 1 := by
    rw [show adjExp + 1 + (m.digSize - 1) = adjExp + m.digSize by omega, Nat.add_div_right _ hD]
  have hhidden : frc ||| 1 <<< m.impl.fracBits = 2 ^ m.impl.fracBits + frc := by
    rw [Nat.lor_comm, shl_or hfrc, Nat.one_mul, Nat.add_comm]
  obtain ⟨hlow, hhigh⟩ : 2 ^ adjExp ≤ laid m adjExp frc ∧ laid m adjExp frc < 2 ^ (adjExp + 1) := laid_bounds hfrc
  obtain ⟨hnormal, hnum⟩ := laid_normal hlow hhigh
  have hplaced : Placed m adjExp (2 ^ m.impl.fracBits + frc) (placeFrc m adjExp (2 ^ m.impl.fracBits + frc)).1
      (placeFrc m adjExp (2 ^ m.impl.fracBits + frc)).2.1 (placeFrc m adjExp (2 ^ m.impl.fracBits + frc)).2.2 :=
    placeFrc_spec (by rw [Nat.pow_succ]; omega)
  unfold Gives floatDigits
  rw [hcnt, hhidden]
  generalize placeFrc m adjExp (2 ^ m.impl.fracBits + frc) = placed at hplaced ⊢
  obtain ⟨s, i, g⟩ := placed
  have hv : g * 2 ^ s * m.base ^ i = laid m adjExp frc := hplaced.value
  have hi : i < adjExp / m.digSize + 1 := hplaced.ind_lt
  refine Prog.wp_bind.mpr (wp_mpzNeedDig hfixed (by omega) (by omega) fun h₁ hg => ?_)
  have hn := hg.need_le
  rw [wp_setLen_bind]
  have halloc : adjExp / m.digSize + 1 ≤ (putLen h₁ z (adjExp / m.digSize + 1) z).alloc := by
    rw [putLen_alloc]
    exact hn
  obtain ⟨i', g', hfirst, hrest, hi', hg'⟩ := firstFrc_spec (h := putLen h₁ z (adjExp / m.digSize + 1)) (z := z) hplaced.shift_lt hv
    (Nat.lt_of_lt_of_le hi halloc)
  have hlast := restDigits_spec (n := adjExp / m.digSize + 1) hrest (by rw [hi']; split <;> omega) halloc fun hlong => by
    have hshort : g < m.base ∧ adjExp / m.digSize + 1 ≤ i + if s ≠ 0 then 2 else 1 := hplaced.short hlong
    refine ⟨Nat.lt_of_le_of_lt hg' hshort.1, ?_⟩
    rw [hi']
    have hle := hshort.2
    by_cases hs : s ≠ 0
    · rw [if_pos hs] at hle ⊢
      exact hle
    · rw [if_neg hs] at hle ⊢
      exact hle
  rw [wp_ok_bind (clearLow_spec hv (Nat.le_trans (Nat.le_of_lt hi) halloc)), wp_ok_bind hfirst]
  show Prog.wp (if m.digSize < m.impl.fracBits + 1 then _ else _) _ _ _
  unfold Prog.wp
  rw [hlast, paint_putLen, ← hg.neg]
  have hlaid : ∀ q < adjExp / m.digSize + 1, overlay 0 (adjExp / m.digSize + 1) (fun q => laid m adjExp frc / m.base ^ q % m.base) (h₁ z).dig q =
      laid m adjExp frc / m.base ^ q % m.base := by
    intro q hq
    exact overlay_low (d := fun q => laid m adjExp frc / m.base ^ q % m.base) hq
  refine hg.stored ⟨hd, by omega, by omega⟩ hn (hnormal.congr fun q hq => (hlaid q hq).symm) (fun e => absurd e (Nat.succ_ne_zero _)) ?_
  rw [num_congr hlaid, hnum]

/-! ## Where the integer is the truncated float -/

theorem mpzSetFromFloat_gives {u : FloatBits m.impl} (hfin : u.Finite) (hfixed : (h z).fixedDig = false) :
    ∃ room, Gives (mpzSetFromFloat z u) h z (if u.exp = m.impl.bias then 1 else signed u.sgn u.whole) room := by
  have hbias := FloatBits.bias_pos m.impl
  have hself : putNeg h z u.sgn z = { h z with neg := u.sgn } := Function.update_self _ _ _
  have hfixed' : (putNeg h z u.sgn z).fixedDig = false := by
    rw [hself]
    exact hfixed
  have hafter : ∀ {h' v room}, Stored (putNeg h z u.sgn) h' z v room → Stored h h' z v room := by
    intro h' v room hs
    refine ⟨hs.holds, ?_, hs.within, fun r e hr => (hs.others r e hr).trans (Function.update_of_ne e _ _)⟩
    rw [hs.fixed, hself]
  obtain ⟨room, hzero⟩ := mpzSetFromInt_small z (h := putNeg h z u.sgn) (k := 0) (Nat.zero_le 1) hfixed'
  obtain ⟨room', hone⟩ := mpzSetFromInt_small z (h := putNeg h z u.sgn) (k := 1) (Nat.le_refl 1) hfixed'
  have hsmall : u.exp < m.impl.bias → Gives (mpzSetFromInt z 0) (putNeg h z u.sgn) z (if u.exp = m.impl.bias then 1 else signed u.sgn u.whole) room := by
    intro hlt
    rw [if_neg (by omega), FloatBits.whole, if_pos hlt, signed_zero]
    exact hzero
  have hrun : ∃ room, Gives (if u.exp = 0 then mpzSetFromInt z 0
      else if u.exp = 2 ^ m.impl.expBits - 1 then mpzSetFromInt z 0
      else if (u.exp - m.impl.bias : Int) < 0 then mpzSetFromInt z 0
      else if (u.exp - m.impl.bias : Int) = 0 then mpzSetFromInt z 1
      else floatDigits z (u.exp - m.impl.bias : Int).toNat u.frc) (putNeg h z u.sgn) z (if u.exp = m.impl.bias then 1 else signed u.sgn u.whole) room := by
    by_cases hexp : u.exp = 0
    · rw [if_pos hexp]
      exact ⟨room, hsmall (by omega)⟩
    rw [if_neg hexp, if_neg hfin]
    by_cases hlow : (u.exp - m.impl.bias : Int) < 0
    · rw [if_pos hlow]
      exact ⟨room, hsmall (by omega)⟩
    rw [if_neg hlow]
    by_cases hunit : (u.exp - m.impl.bias : Int) = 0
    · rw [if_pos hunit, if_pos (by omega)]
      exact ⟨room', hone⟩
    · have hsub : (u.exp - m.impl.bias : Int).toNat = u.exp - m.impl.bias := by omega
      have hd : (putNeg h z u.sgn z).alloc ≤ (h z).alloc + ((u.exp - m.impl.bias) / m.digSize + 2) := by
        rw [hself]
        exact Nat.le_add_right _ _
      have hroom : (u.exp - m.impl.bias) / m.digSize + 2 ≤ (h z).alloc + ((u.exp - m.impl.bias) / m.digSize + 2) := Nat.le_add_left _ _
      have hgives := floatDigits_gives u.frc_lt hfixed' hd hroom
      have hwhole : u.whole = laid m (u.exp - m.impl.bias) u.frc := by
        rw [FloatBits.whole, if_neg (by omega)]
        rfl
      rw [if_neg hunit, if_neg (by omega), hsub, hwhole]
      rw [hself] at hgives
      exact ⟨_, hgives⟩
  obtain ⟨room, hgives⟩ := hrun
  exact ⟨room, Prog.wp_mono hgives (fun _ _ hs => hafter hs) fun _ _ he => he⟩

/-- The truncated value of a finite float, in a normal object: always, but for the negative ones above
-2 and up to -1, which come out as 1. -/
theorem mpz_set_from_float_iff {u : FloatBits m.impl} (hfin : u.Finite) (hfixed : (h z).fixedDig = false) :
    Prog.wp (mpzSetFromFloat z u)
      (fun _ h' => (Holds (h' z) (truncated u.toRat) ↔ ¬ (u.sgn = true ∧ u.exp = m.impl.bias)) ∧ ∀ r, r ≠ z → ¬ Scratch r → h' r = h r)
      (fun e _ => e = .memory) h := by
  obtain ⟨room, hgives⟩ := mpzSetFromFloat_gives (z := z) hfin hfixed
  refine Prog.wp_mono hgives (fun _ h' hs => ⟨?_, hs.others⟩) fun _ _ he => he.1
  have hiff : ∀ w, Holds (h' z) w ↔ (if u.exp = m.impl.bias then 1 else signed u.sgn u.whole) = w := fun w =>
    ⟨fun hw => hs.holds.value.symm.trans hw.value, fun e => e ▸ hs.holds⟩
  rw [hiff, u.truncated_toRat]
  by_cases hunit : u.exp = m.impl.bias
  · have hfrac : 0 < m.impl.fracBits := by cases m.impl <;> decide
    have hone : u.whole = 1 := by
      have hfrc := u.frc_lt
      rw [FloatBits.whole, if_neg (by omega), hunit, Nat.sub_self, if_pos hfrac, Nat.sub_zero]
      exact Nat.div_eq_of_lt_le (by omega) (by omega)
    rw [if_pos hunit, hone]
    cases hsgn : u.sgn with
    | false => simp [signed]
    | true => simp [signed, hunit]
  · rw [if_neg hunit]
    exact iff_of_true rfl fun hand => hunit hand.2

/-- The calculator, with floats of 64 bits. -/
def sh4Float : FloatMachine := { sh4 with impl := .double, digSize_le := by decide, digSize_dvd := by decide }

def oneEmpty : Heap sh4Float.toConfig Unit := fun _ => initZero

/-- `-2.5` -/
def minusTwoAndHalf : FloatBits .double := ⟨true, 1024, 2 ^ 50, by decide, by decide⟩

/-- `-1.5` -/
def minusOneAndHalf : FloatBits .double := ⟨true, 1023, 2 ^ 51, by decide, by decide⟩

theorem mpz_set_from_float_iff_negative :
    Prog.wp (mpzSetFromFloat (m := sh4Float) (.obj ()) minusTwoAndHalf) (fun _ h' => (h' (.obj ())).value = -2) (fun e _ => e = .memory) oneEmpty := by
  refine Prog.wp_mono (mpz_set_from_float_iff (m := sh4Float) (u := minusTwoAndHalf) (by unfold FloatBits.Finite; decide) rfl) (fun _ h' hs => ?_)
    fun _ _ he => he
  have hwhole : truncated minusTwoAndHalf.toRat = -2 := by
    rw [FloatBits.truncated_toRat]
    decide
  exact (hs.1.mpr (by decide)).value.trans hwhole

/-- `int(-1.5)` is 1. -/
theorem negative_unit_float : ∃ h', mpzSetFromFloat (m := sh4Float) (.obj ()) minusOneAndHalf oneEmpty = (.ok (), h') ∧
    (h' (.obj ())).value = 1 ∧ truncated minusOneAndHalf.toRat = -1 := by
  refine ⟨_, rfl, by decide, ?_⟩
  rw [FloatBits.truncated_toRat]
  decide

end PythonUltra.Py.Mpz
