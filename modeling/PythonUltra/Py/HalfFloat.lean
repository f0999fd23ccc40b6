/-
  PythonUltra.Py.HalfFloat — half floats (mp_decode_half_float and mp_encode_half_float of
  py/binary.c).

  A float of 32 bits is taken for its pattern. `singleMag` and `halfMag` are what the
  patterns stand for, without their signs, in units of the least float of 32 bits;
  the nearest half has a formula (`nearestHalf`), and `mp_encode_half_float` is compared
  with it for each range of exponents (`encode_iff`).
-/

import PythonUltra.Lib.Nearest
import Mathlib.Algebra.Order.Ring.Int
import Mathlib.Data.Int.ConditionallyCompleteOrder
import Mathlib.Data.Nat.Bitwise
import Mathlib.Tactic.IntervalCases
import Mathlib.Tactic.Ring

namespace PythonUltra.Py.HalfFloat

open PythonUltra.Lib

/-! ## mp_decode_half_float -/

/-- The loop that makes a subnormal normal, for no more turns than a mantissa has bits. -/
def normalLoop : Nat → Nat → Nat → Nat × Nat
  | 0, m, e => (m, e)
  | n + 1, m, e => if m &&& 0x400 = 0 then normalLoop n ((m <<< 1) % 2 ^ 16) (e - 1) else (m, e)

def decodeExp (e m : Nat) : Nat × Nat :=
  if e = 0x1f then (0xff, m)
  else if e ≠ 0 then (e + (127 - 15), m)
  else if m ≠ 0 then
    let ⟨m, e⟩ := normalLoop 10 m (127 - 15)
    (e + 1, m - 0x400)
  else (e, m)

def decodeHalfFloat (hf : Nat) : Nat :=
  let m := hf &&& 0x3ff
  let e := (hf >>> 10) &&& 0x1f
  let ⟨e, m⟩ := decodeExp e m
  ((hf &&& 0x8000) <<< 16) ||| (e <<< 23) ||| (m <<< 13)

/-! ## mp_encode_half_float -/

/-- The exponent and the mantissa, which has been rounded. -/
def encodeExp (e m : Nat) : Nat × Nat :=
  if e = 0xff then (0x1f, m)
  else if e ≠ 0 then
    let e' : Int := e - (127 - 15)
    if e' < 0 then
      if e' ≥ -11 then
        let m := (m ||| 0x400) >>> (-e').toNat
        (0, if m &&& 1 ≠ 0 then (m >>> 1) + 1 else m >>> 1)
      else (0, 0)
    else if e' > 0x3f then (0x1f, 0)
    else (e'.toNat, m)
  else (e, m)

def encodeHalfFloat (i : Nat) : Nat :=
  let m := (i >>> 13) &&& 0x3ff
  let m := if i &&& (1 <<< 12) ≠ 0 then m + 1 else m
  let e := (i >>> 23) &&& 0xff
  let ⟨e, m⟩ := encodeExp e m
  (((i >>> 16) &&& 0x8000) ||| (e <<< 10) ||| m) % 2 ^ 16

/-! ## What the patterns stand for -/

def singleSign (i : Nat) : Nat := i / 2 ^ 31

def singleExp (i : Nat) : Nat := i / 2 ^ 23 % 2 ^ 8

def singleFrac (i : Nat) : Nat := i % 2 ^ 23

def singleMag (e m : Nat) : Nat := if e = 0 then m else (2 ^ 23 + m) * 2 ^ (e - 1)

def halfSign (h : Nat) : Nat := h / 2 ^ 15

def halfExp (h : Nat) : Nat := h / 2 ^ 10 % 2 ^ 5

def halfFrac (h : Nat) : Nat := h % 2 ^ 10

/-- The pattern without its sign; an infinity stands for the power of two that is too large. -/
def halfMag (p : Nat) : Nat := if p / 2 ^ 10 = 0 then p % 2 ^ 10 * 2 ^ 125 else (2 ^ 10 + p % 2 ^ 10) * 2 ^ (p / 2 ^ 10 + 124)

/-- Infinity. -/
def halfInf : Nat := 0x7c00

/-- `out` is the half for the float `i`: the sign, and the nearest magnitude. -/
def HalfFor (i out : Nat) : Prop :=
  if singleExp i = 0xff then
    if singleFrac i = 0 then out = singleSign i * 2 ^ 15 + halfInf else halfExp out = 0x1f ∧ halfFrac out ≠ 0
  else ∃ p, IsNearest (fun p => (halfMag p : Int)) halfInf (singleMag (singleExp i) (singleFrac i)) p ∧ out = singleSign i * 2 ^ 15 + p

/-! ## The nearest half -/

theorem halfMag_binade {e k : Nat} (hk : k ≤ 2 ^ 10) : halfMag ((e + 1) * 2 ^ 10 + k) = (2 ^ 10 + k) * 2 ^ (e + 125) := by
  unfold halfMag
  rcases Nat.lt_or_eq_of_le hk with hlt | rfl
  · have hdiv : ((e + 1) * 2 ^ 10 + k) / 2 ^ 10 = e + 1 := by omega
    have hmod : ((e + 1) * 2 ^ 10 + k) % 2 ^ 10 = k := by omega
    rw [hdiv, hmod, if_neg (Nat.succ_ne_zero e), Nat.add_assoc]
  · have hdiv : ((e + 1) * 2 ^ 10 + 2 ^ 10) / 2 ^ 10 = e + 2 := by omega
    have hmod : ((e + 1) * 2 ^ 10 + 2 ^ 10) % 2 ^ 10 = 0 := by omega
    rw [hdiv, hmod, if_neg (by omega), show e + 2 + 124 = (e + 125) + 1 by omega, Nat.pow_succ]
    ring

theorem halfMag_low {p : Nat} (hp : p ≤ 2 ^ 11) : halfMag p = p * 2 ^ 125 := by
  by_cases hlt : p < 2 ^ 10
  · have hdiv : p / 2 ^ 10 = 0 := by omega
    rw [halfMag, if_pos hdiv, Nat.mod_eq_of_lt hlt]
  · obtain ⟨k, rfl⟩ := Nat.exists_eq_add_of_le (Nat.le_of_not_lt hlt)
    have hbin := halfMag_binade (e := 0) (k := k) (by omega)
    rwa [Nat.zero_add, Nat.one_mul, Nat.zero_add] at hbin

theorem halfMag_strictMono : StrictMono halfMag := by
  refine strictMono_nat_of_lt_succ fun p => ?_
  by_cases hlt : p < 2 ^ 10
  · rw [halfMag_low (by omega), halfMag_low (by omega)]
    exact Nat.mul_lt_mul_of_pos_right (Nat.lt_succ_self p) (Nat.two_pow_pos _)
  · obtain ⟨e, k, hk, rfl⟩ : ∃ e k, k < 2 ^ 10 ∧ p = (e + 1) * 2 ^ 10 + k := ⟨p / 2 ^ 10 - 1, p % 2 ^ 10, by omega, by omega⟩
    rw [halfMag_binade hk.le, Nat.add_assoc, halfMag_binade (show k + 1 ≤ 2 ^ 10 from hk)]
    exact Nat.mul_lt_mul_of_pos_right (by omega) (Nat.two_pow_pos _)

theorem halfMag_cast_strictMono : StrictMono fun p => (halfMag p : Int) := fun _ _ hpq => Int.ofNat_lt.mpr (halfMag_strictMono hpq)

/-- The nearest half to a finite float, without its sign. -/
def nearestHalf (e m : Nat) : Nat :=
  if 143 ≤ e then halfInf else if 113 ≤ e then (e - 112) * 2 ^ 10 + (m + 2 ^ 12) / 2 ^ 13 else (singleMag e m + 2 ^ 124) / 2 ^ 125

theorem singleMag_lt {e m : Nat} (hm : m < 2 ^ 23) : singleMag e m < 2 ^ (e + 23) := by
  unfold singleMag
  split
  · rename_i he
    rw [he]
    exact hm
  · obtain ⟨k, rfl⟩ := Nat.exists_eq_succ_of_ne_zero ‹_›
    rw [Nat.succ_sub_one, show k.succ + 23 = k + 24 by omega, Nat.pow_add, Nat.mul_comm]
    exact Nat.mul_lt_mul_of_pos_left (by omega) (Nat.two_pow_pos k)

theorem isNearest_nat {v p N : Nat} :
    IsNearest (fun p => (halfMag p : Int)) N v p ↔
      p ≤ N ∧ (∀ q, q + 1 = p → halfMag q + halfMag p ≤ 2 * v) ∧ (p < N → 2 * v < halfMag p + halfMag (p + 1)) := by
  rw [isNearest_iff halfMag_cast_strictMono]
  exact_mod_cast Iff.rfl

theorem nearestHalf_spec {e m : Nat} (hm : m < 2 ^ 23) :
    IsNearest (fun p => (halfMag p : Int)) halfInf (singleMag e m) (nearestHalf e m) := by
  rw [isNearest_nat]
  unfold nearestHalf
  by_cases hover : 143 ≤ e
  · rw [if_pos hover]
    refine ⟨Nat.le_refl _, fun q hq => ?_, fun hlt => absurd hlt (Nat.lt_irrefl _)⟩
    have hinf : halfMag halfInf = 2 ^ 10 * 2 ^ 155 := halfMag_binade (e := 30) (k := 0) (by decide)
    have hless : halfMag q < halfMag halfInf := halfMag_strictMono (by omega)
    have hlarge : 2 ^ 10 * 2 ^ 155 ≤ singleMag e m := by
      rw [singleMag, if_neg (by omega)]
      calc 2 ^ 10 * 2 ^ 155 = 2 ^ 23 * 2 ^ 142 := by norm_num
        _ ≤ (2 ^ 23 + m) * 2 ^ (e - 1) := Nat.mul_le_mul (Nat.le_add_right _ _) (Nat.pow_le_pow_right (by decide) (by omega))
    omega
  · rw [if_neg hover]
    by_cases hnormal : 113 ≤ e
    · rw [if_pos hnormal]
      obtain ⟨b, rfl⟩ := Nat.exists_eq_add_of_le hnormal
      generalize hk : (m + 2 ^ 12) / 2 ^ 13 = k
      have hk10 : k ≤ 2 ^ 10 := by omega
      have hexp : 113 + b - 112 = b + 1 := by omega
      have hmag : singleMag (113 + b) m = (2 ^ 23 + m) * 2 ^ (b + 112) := by
        rw [singleMag, if_neg (by omega), show 113 + b - 1 = b + 112 by omega]
      -- in units of the float's own binade
      have hunit : ∀ j, j ≤ 2 ^ 10 → halfMag ((b + 1) * 2 ^ 10 + j) = (2 ^ 10 + j) * 2 ^ 13 * 2 ^ (b + 112) := by
        intro j hj
        rw [halfMag_binade hj, Nat.mul_assoc, ← Nat.pow_add, show 13 + (b + 112) = b + 125 by omega]
      have hscale : ∀ x y, x ≤ y → x * 2 ^ (b + 112) ≤ y * 2 ^ (b + 112) := fun x y hxy => Nat.mul_le_mul_right _ hxy
      have hscale' : ∀ x y, x < y → x * 2 ^ (b + 112) < y * 2 ^ (b + 112) := fun x y hxy => Nat.mul_lt_mul_of_pos_right hxy (Nat.two_pow_pos _)
      rw [hexp, hmag, hunit k hk10]
      refine ⟨?_, fun q hq => ?_, fun _ => ?_⟩
      · unfold halfInf
        omega
      · by_cases hzero : k = 0
        · have hless : halfMag q < halfMag ((b + 1) * 2 ^ 10 + k) := halfMag_strictMono (by omega)
          rw [hunit k hk10] at hless
          have hle := hscale ((2 ^ 10 + k) * 2 ^ 13) (2 ^ 23 + m) (by omega)
          omega
        · obtain ⟨j, rfl⟩ := Nat.exists_eq_succ_of_ne_zero hzero
          obtain rfl : q = (b + 1) * 2 ^ 10 + j := by omega
          rw [hunit j (by omega)]
          have hle := hscale ((2 ^ 10 + j) * 2 ^ 13 + (2 ^ 10 + (j + 1)) * 2 ^ 13) (2 * (2 ^ 23 + m)) (by omega)
          rw [Nat.add_mul, Nat.mul_assoc 2] at hle
          exact hle
      · by_cases htop : k = 2 ^ 10
        · have hless : halfMag ((b + 1) * 2 ^ 10 + k) < halfMag ((b + 1) * 2 ^ 10 + k + 1) := halfMag_strictMono (Nat.lt_succ_self _)
          rw [hunit k hk10] at hless
          have hle := hscale (2 ^ 23 + m) ((2 ^ 10 + k) * 2 ^ 13) (by omega)
          omega
        · rw [Nat.add_assoc, hunit (k + 1) (by omega)]
          have hlt := hscale' (2 * (2 ^ 23 + m)) ((2 ^ 10 + k) * 2 ^ 13 + (2 ^ 10 + (k + 1)) * 2 ^ 13) (by omega)
          rw [Nat.add_mul, Nat.mul_assoc 2] at hlt
          exact hlt
    · rw [if_neg hnormal]
      have hsmall : singleMag e m < 2 ^ 135 := Nat.lt_of_lt_of_le (singleMag_lt hm) (Nat.pow_le_pow_right (by decide) (by omega))
      generalize singleMag e m = v at hsmall ⊢
      have hle : (v + 2 ^ 124) / 2 ^ 125 ≤ 2 ^ 10 := by omega
      refine ⟨?_, fun q hq => ?_, fun _ => ?_⟩
      · unfold halfInf
        omega
      · rw [halfMag_low (by omega), halfMag_low (by omega)]
        omega
      · rw [halfMag_low (by omega), halfMag_low (by omega)]
        omega

/-! ## The fields of the result -/

theorem and_bit (n k : Nat) : n &&& 2 ^ k = n / 2 ^ k % 2 * 2 ^ k := by
  rw [Nat.and_two_pow, Nat.testBit_eq_decide_div_mod_eq]
  rcases Nat.mod_two_eq_zero_or_one (n / 2 ^ k) with h | h <;> simp [h]

/-- The fields are put together by `|`: a mantissa that was rounded up to the next power of two is
carried into an even exponent, and an exponent past the field into the sign. -/
theorem join_bits {s e m : Nat} (hs : s < 2) (he : e < 64) (hm : m ≤ 2 ^ 10) :
    (s * 2 ^ 15 ||| e <<< 10 ||| m) % 2 ^ 16 = (max s (e / 32) * 32 + e % 32 + m / 2 ^ 10 * (1 - e % 2)) * 2 ^ 10 + m % 2 ^ 10 := by
  have htable : ∀ s < 2, ∀ e < 64, ∀ c < 2, s <<< 5 ||| e ||| c = max s (e / 32) * 32 + e % 32 + c * (1 - e % 2) := by decide
  have hc : m / 2 ^ 10 < 2 := by omega
  have hrest : m % 2 ^ 10 < 2 ^ 10 := Nat.mod_lt _ (by decide)
  have hsplit : m = (m / 2 ^ 10) <<< 10 ||| m % 2 ^ 10 := by
    rw [← Nat.shiftLeft_add_eq_or_of_lt hrest, Nat.shiftLeft_eq]
    omega
  have hsign : s * 2 ^ 15 = (s <<< 5) <<< 10 := by
    rw [Nat.shiftLeft_eq, Nat.shiftLeft_eq, Nat.mul_assoc, ← Nat.pow_add]
  have hjoin : s * 2 ^ 15 ||| e <<< 10 ||| m = (s <<< 5 ||| e ||| m / 2 ^ 10) <<< 10 + m % 2 ^ 10 := by
    rw [Nat.shiftLeft_add_eq_or_of_lt hrest, Nat.shiftLeft_or_distrib, Nat.shiftLeft_or_distrib, ← hsign, Nat.or_assoc _ _ (m % 2 ^ 10), ← hsplit]
  have hmax : max s (e / 32) ≤ 1 := by omega
  rw [hjoin, htable s hs e he _ hc, Nat.shiftLeft_eq]
  apply Nat.mod_eq_of_lt
  have hcarry : m / 2 ^ 10 * (1 - e % 2) ≤ 1 - e % 2 := by
    calc m / 2 ^ 10 * (1 - e % 2) ≤ 1 * (1 - e % 2) := Nat.mul_le_mul_right _ (by omega)
      _ = 1 - e % 2 := Nat.one_mul _
  omega

theorem encode_cases {i e m : Nat} (hi : i < 2 ^ 32) (hexp : encodeExp (singleExp i) ((singleFrac i + 2 ^ 12) / 2 ^ 13) = (e, m)) (he : e < 64)
    (hm : m ≤ 2 ^ 10) :
    m < 2 ^ 10 ∧ encodeHalfFloat i = (max (singleSign i) (e / 32) * 32 + e % 32) * 2 ^ 10 + m ∨
      m = 2 ^ 10 ∧ encodeHalfFloat i = (max (singleSign i) (e / 32) * 32 + e % 32 + (1 - e % 2)) * 2 ^ 10 := by
  have hsign : (i >>> 16) &&& 0x8000 = singleSign i * 2 ^ 15 := by
    refine (and_bit _ 15).trans ?_
    rw [Nat.shiftRight_eq_div_pow, Nat.div_div_eq_div_mul, singleSign]
    omega
  have hround : (if i &&& (1 <<< 12) ≠ 0 then ((i >>> 13) &&& 0x3ff) + 1 else (i >>> 13) &&& 0x3ff) = (singleFrac i + 2 ^ 12) / 2 ^ 13 := by
    have hlow : (i >>> 13) &&& 0x3ff = i / 2 ^ 13 % 2 ^ 10 := by
      rw [← Nat.shiftRight_eq_div_pow]
      exact Nat.and_two_pow_sub_one_eq_mod _ 10
    have hbit : i &&& (1 <<< 12) = i / 2 ^ 12 % 2 * 2 ^ 12 := and_bit i 12
    have hlow' : i / 2 ^ 13 % 2 ^ 10 = i % 2 ^ 23 / 2 ^ 13 := (Nat.mod_mul_right_div_self i (2 ^ 13) (2 ^ 10)).symm
    have hbit' : i / 2 ^ 12 % 2 = i % 2 ^ 23 / 2 ^ 12 % 2 := by
      clear * -
      omega
    rw [hlow, hbit, singleFrac, hlow', hbit']
    clear * -
    generalize i % 2 ^ 23 = f
    split <;> omega
  have hfield : (i >>> 23) &&& 0xff = singleExp i := by
    rw [singleExp, ← Nat.shiftRight_eq_div_pow]
    exact Nat.and_two_pow_sub_one_eq_mod _ 8
  have hs : singleSign i < 2 := by
    unfold singleSign
    omega
  unfold encodeHalfFloat
  simp only [hround, hfield, hexp, hsign]
  rw [join_bits hs he hm]
  rcases Nat.lt_or_eq_of_le hm with hlt | rfl
  · rw [Nat.div_eq_of_lt hlt, Nat.mod_eq_of_lt hlt, Nat.zero_mul, Nat.add_zero]
    exact .inl ⟨hlt, rfl⟩
  · rw [Nat.div_self (by decide), Nat.mod_self, Nat.one_mul, Nat.add_zero]
    exact .inr ⟨rfl, rfl⟩

/-! ## Where the half is the nearest -/

/-- Right for a float with these fields. Wrong are: a mantissa rounded up to the next power of two,
where the exponent is odd or is then lost; a second rounding of what the first has rounded up to a
tie; the binade below the least normal half; and from 2 ** 17 on what the fields make of an
exponent too large for them, to which floats below the least normal one add their mantissa. -/
def EncodesRight (s e m : Nat) : Prop :=
  if e = 0xff then m = 0 ∨ 0x1000 ≤ m ∧ m < 0x7ff000
  else if e = 0 then m < 0x1000
  else if e ≤ 100 then True
  else if e ≤ 111 then
    if m < 0x7ff000 then ¬ (2 ^ (125 - e) ≤ (2 ^ 23 + m) % 2 ^ (126 - e) + 0x1000 ∧ (2 ^ 23 + m) % 2 ^ (126 - e) < 2 ^ (125 - e))
    else e ≤ 102
  else if e = 112 then 0x7fd000 ≤ m ∧ m < 0x7fe000 ∨ 0x7ff000 ≤ m
  else if e ≤ 142 then m < 0x7ff000 ∨ e % 2 = 0
  else if e = 143 then m < 0x1000 ∨ 0x7ff000 ≤ m
  else if e ≤ 175 then s = 1 ∧ (e = 175 ∧ (m < 0x1000 ∨ 0x7ff000 ≤ m) ∨ e = 174 ∧ 0x7ff000 ≤ m)
  else True

theorem halfFor_iff {i out : Nat} (he : singleExp i ≠ 0xff) :
    HalfFor i out ↔ out = singleSign i * 2 ^ 15 + nearestHalf (singleExp i) (singleFrac i) := by
  have hm : singleFrac i < 2 ^ 23 := Nat.mod_lt _ (by decide)
  have hnear := nearestHalf_spec (e := singleExp i) hm
  rw [HalfFor, if_neg he]
  constructor
  · rintro ⟨p, hp, hout⟩
    rwa [hp.unique halfMag_cast_strictMono hnear] at hout
  · intro hout
    exact ⟨_, hnear, hout⟩

theorem nearestHalf_low {e m : Nat} (h1 : 1 ≤ e) (h112 : e ≤ 112) : nearestHalf e m = (2 ^ 23 + m + 2 ^ (125 - e)) / 2 ^ (126 - e) := by
  have hhalf : 2 ^ 124 = 2 ^ (125 - e) * 2 ^ (e - 1) := by
    rw [← Nat.pow_add]
    congr 1
    omega
  have hunit : 2 ^ 125 = 2 ^ (126 - e) * 2 ^ (e - 1) := by
    rw [← Nat.pow_add]
    congr 1
    omega
  rw [nearestHalf, if_neg (by omega), if_neg (by omega), singleMag, if_neg (by omega), hhalf, hunit, ← Nat.add_mul,
    Nat.mul_div_mul_right _ _ (Nat.two_pow_pos _)]

/-- An addition crosses a multiple of `d` just where the remainder reaches it. -/
theorem add_div_eq_iff {x a d : Nat} (ha : a < d) : (x + a) / d = x / d ↔ x % d + a < d := by
  have hd : 0 < d := by omega
  have hx := Nat.div_add_mod x d
  have hr := Nat.mod_lt x hd
  rw [show x + a = d * (x / d) + (x % d + a) by omega, Nat.mul_add_div hd]
  constructor
  · intro h
    exact Nat.lt_of_div_eq_zero hd (by omega)
  · intro h
    rw [Nat.div_eq_of_lt h, Nat.add_zero]

/-- A remainder that reaches `d` with half of `d` and `a`. -/
theorem half_crossed_iff {x a t : Nat} (ht : 0 < t) (ha : a ≤ t) :
    (x + t) % (2 * t) + a < 2 * t ↔ ¬ (t ≤ x % (2 * t) + a ∧ x % (2 * t) < t) := by
  have hlt := Nat.mod_lt x (show 0 < 2 * t by omega)
  rw [Nat.add_mod, Nat.mod_eq_of_lt (show t < 2 * t by omega)]
  rcases Nat.lt_or_ge (x % (2 * t)) t with h | h
  · rw [Nat.mod_eq_of_lt (by omega)]
    omega
  · rw [Nat.mod_eq_sub_mod (by omega), Nat.mod_eq_of_lt (by omega)]
    omega

theorem or_hidden {m : Nat} (hm : m ≤ 2 ^ 10) : m ||| 0x400 = if m < 2 ^ 10 then 2 ^ 10 + m else 2 ^ 10 := by
  split
  · rename_i hlt
    rw [Nat.lor_comm]
    exact (Nat.two_pow_add_eq_or_of_lt hlt 1).symm
  · obtain rfl : m = 2 ^ 10 := by omega
    rfl

theorem round_last (x : Nat) : (if x &&& 1 ≠ 0 then (x >>> 1) + 1 else x >>> 1) = (x + 1) / 2 := by
  rw [Nat.and_one_is_mod, Nat.shiftRight_eq_div_pow, Nat.pow_one]
  split <;> omega

/-- A shift of the rounded mantissa and a second rounding: once more than the one rounding there
should be. -/
theorem shifted_right_iff {e m : Nat} (h1 : 101 ≤ e) (h2 : e ≤ 111) (hm : m < 2 ^ 23) :
    ((((m + 2 ^ 12) / 2 ^ 13 ||| 0x400) >>> (112 - e)) + 1) / 2 = nearestHalf e m ↔ EncodesRight 0 e m := by
  obtain ⟨k, hk⟩ : ∃ k, k + e = 112 := ⟨112 - e, by omega⟩
  have hshift : 112 - e = k := by omega
  have hunit : 2 ^ (126 - e) = 2 * 2 ^ (13 + k) := by
    rw [← Nat.pow_succ', show 126 - e = (13 + k).succ by omega]
  have hhalf : 125 - e = 13 + k := by omega
  have hright : EncodesRight 0 e m ↔ if m < 0x7ff000 then ¬ (2 ^ (13 + k) ≤ (2 ^ 23 + m) % (2 * 2 ^ (13 + k)) + 0x1000 ∧
      (2 ^ 23 + m) % (2 * 2 ^ (13 + k)) < 2 ^ (13 + k)) else e ≤ 102 := by
    rw [EncodesRight, if_neg (by omega), if_neg (by omega), if_neg (by omega), if_pos h2, hhalf, hunit]
  have htwo : 2 ^ (13 + k) = 2 ^ 13 * 2 ^ k := Nat.pow_add 2 13 k
  have hpos := Nat.two_pow_pos (13 + k)
  have hk14 : 2 ^ 14 ≤ 2 ^ (13 + k) := Nat.pow_le_pow_right (by decide) (by omega)
  rw [hright, nearestHalf_low (by omega) (by omega), hhalf, hunit, hshift, or_hidden (by omega), Nat.shiftRight_eq_div_pow]
  by_cases hlow : m < 0x7ff000
  · rw [if_pos hlow, if_pos (by omega), ← half_crossed_iff hpos (by omega), ← add_div_eq_iff (by omega)]
    have hmant : 2 ^ 10 + (m + 2 ^ 12) / 2 ^ 13 = (2 ^ 23 + m + 0x1000) / 2 ^ 13 := by omega
    rw [hmant, Nat.div_div_eq_div_mul, ← htwo]
    have hround : ((2 ^ 23 + m + 0x1000) / 2 ^ (13 + k) + 1) / 2 = (2 ^ 23 + m + 2 ^ (13 + k) + 0x1000) / (2 * 2 ^ (13 + k)) := by
      rw [← Nat.add_div_right _ hpos, Nat.div_div_eq_div_mul, Nat.mul_comm (2 ^ (13 + k)), Nat.add_right_comm]
    rw [hround]
  · rw [if_neg hlow, if_neg (by omega)]
    -- up to the ninth place the carry was worth something
    obtain ⟨d, hd, hd'⟩ : ∃ d, m + d = 2 ^ 23 ∧ d ≤ 2 ^ 12 := ⟨2 ^ 23 - m, by omega, by omega⟩
    have hk1 : 1 ≤ k := by omega
    have hk11 : k ≤ 11 := by omega
    clear * - hm hk hk1 hk11 hd hd'
    interval_cases k <;> omega

theorem encodeExp_low {e m : Nat} (h1 : 101 ≤ e) (h2 : e ≤ 111) : encodeExp e m = (0, (((m ||| 0x400) >>> (112 - e)) + 1) / 2) := by
  have hshift : (-((e : Int) - (127 - 15))).toNat = 112 - e := by omega
  rw [encodeExp, if_neg (by omega), if_pos (by omega)]
  simp only [hshift, round_last]
  rw [if_pos (by omega), if_pos (by omega)]

theorem encodeExp_normal {e m : Nat} (h1 : 112 ≤ e) (h2 : e ≤ 175) : encodeExp e m = (e - 112, m) := by
  have hexp : ((e : Int) - (127 - 15)).toNat = e - 112 := by omega
  rw [encodeExp, if_neg (by omega), if_pos (by omega)]
  simp only [hexp]
  rw [if_neg (by omega), if_neg (by omega)]

theorem field_within {s e : Nat} (h143 : e ≤ 143) : max s ((e - 112) / 32) * 32 + (e - 112) % 32 = s * 32 + (e - 112) := by
  rw [Nat.div_eq_of_lt (by omega), Nat.mod_eq_of_lt (by omega), Nat.max_zero]

theorem field_past {s e : Nat} (hs : s < 2) (h144 : 144 ≤ e) (h175 : e ≤ 175) : max s ((e - 112) / 32) * 32 + (e - 112) % 32 = 32 + (e - 144) := by
  obtain ⟨k, rfl⟩ := Nat.exists_eq_add_of_le h144
  rw [show 144 + k - 112 = k + 32 by omega, Nat.add_div_right _ (by decide), Nat.add_mod_right, Nat.div_eq_of_lt (by omega),
    Nat.mod_eq_of_lt (by omega), Nat.max_eq_right (Nat.le_of_lt_succ hs), Nat.add_sub_cancel_left]

theorem carry_iff {m : Nat} (hm : m < 2 ^ 23) : (m + 2 ^ 12) / 2 ^ 13 = 2 ^ 10 ↔ 0x7ff000 ≤ m := by omega

theorem round_zero_iff {m : Nat} : (m + 2 ^ 12) / 2 ^ 13 = 0 ↔ m < 0x1000 := by omega

theorem encode_iff {i : Nat} (hi : i < 2 ^ 32) :
    HalfFor i (encodeHalfFloat i) ↔ EncodesRight (singleSign i) (singleExp i) (singleFrac i) := by
  have hs : singleSign i < 2 := by
    unfold singleSign
    omega
  have hm : singleFrac i < 2 ^ 23 := Nat.mod_lt _ (by decide)
  have he : singleExp i < 2 ^ 8 := Nat.mod_lt _ (by decide)
  have hround : (singleFrac i + 2 ^ 12) / 2 ^ 13 ≤ 2 ^ 10 := by omega
  by_cases hnan : singleExp i = 0xff
  · have hrun := encode_cases hi (e := 0x1f) (by rw [encodeExp, if_pos hnan]) (by decide) hround
    rw [HalfFor, if_pos hnan, EncodesRight, if_pos hnan]
    unfold halfInf halfExp halfFrac
    clear * - hrun hs hm
    split <;> omega
  rw [halfFor_iff hnan, EncodesRight, if_neg hnan]
  by_cases hzero : singleExp i = 0
  · have hrun := encode_cases hi (e := 0) (by rw [encodeExp, if_neg hnan, if_neg (by omega), hzero]) (by decide) hround
    have hnear : nearestHalf (singleExp i) (singleFrac i) = 0 := by
      rw [hzero, nearestHalf, if_neg (by decide), if_neg (by decide), singleMag, if_pos rfl]
      clear * - hm
      omega
    rw [if_pos hzero, hnear, ← round_zero_iff]
    clear * - hrun
    omega
  rw [if_neg hzero]
  by_cases h100 : singleExp i ≤ 100
  · have hrun := encode_cases hi (e := 0) (m := 0) (by
      rw [encodeExp, if_neg hnan, if_pos hzero]
      simp only
      rw [if_pos (by omega), if_neg (by omega)]) (by decide) (Nat.zero_le _)
    have hnear : nearestHalf (singleExp i) (singleFrac i) = 0 := by
      have hsmall : singleMag (singleExp i) (singleFrac i) < 2 ^ 124 :=
        Nat.lt_of_lt_of_le (singleMag_lt hm) (Nat.pow_le_pow_right (by decide) (by omega))
      rw [nearestHalf, if_neg (by omega), if_neg (by omega)]
      clear * - hsmall
      omega
    rw [if_pos h100, hnear, iff_true]
    clear * - hrun
    omega
  rw [if_neg h100]
  by_cases h111 : singleExp i ≤ 111
  · have hiff := shifted_right_iff (by omega) h111 hm
    rw [EncodesRight, if_neg hnan, if_neg hzero, if_neg h100, if_pos h111] at hiff
    have hrun := encode_cases hi (encodeExp_low (by omega) h111) (by decide) (by
      have hle := or_hidden hround
      have hshift : ((singleFrac i + 2 ^ 12) / 2 ^ 13 ||| 0x400) >>> (112 - singleExp i) ≤ (singleFrac i + 2 ^ 12) / 2 ^ 13 ||| 0x400 :=
        Nat.shiftRight_le _ _
      split at hle <;> omega)
    rw [if_pos h111, ← hiff]
    clear * - hrun
    omega
  rw [if_neg h111]
  have hcode := fun h175 : singleExp i ≤ 175 => encode_cases hi (encodeExp_normal (by omega) h175) (by omega) hround
  by_cases h112 : singleExp i = 112
  · have hrun := hcode (h112.trans_le (by decide))
    rw [h112, field_within (by decide)] at hrun
    rw [if_pos h112, h112, nearestHalf_low (by decide) (by decide)]
    have hout : encodeHalfFloat i = singleSign i * 2 ^ 15 + (singleFrac i + 2 ^ 12) / 2 ^ 13 := by
      clear * - hrun
      omega
    rw [hout, Nat.add_left_cancel_iff]
    clear * - hm
    omega
  rw [if_neg h112]
  have heven : (singleExp i - 112) % 2 = singleExp i % 2 := by
    clear * - h111
    omega
  rw [heven] at hcode
  by_cases h142 : singleExp i ≤ 142
  · have hrun := hcode (Nat.le_trans h142 (by decide))
    clear hcode
    rw [field_within (Nat.le_trans h142 (by decide))] at hrun
    rw [if_pos h142, nearestHalf, if_neg (by clear hrun; omega), if_pos (by clear hrun; omega), ← Nat.not_le, ← carry_iff hm]
    generalize (singleFrac i + 2 ^ 12) / 2 ^ 13 = r, singleExp i - 112 = e' at hrun ⊢
    clear * - hrun
    omega
  rw [if_neg h142]
  have hinf : nearestHalf (singleExp i) (singleFrac i) = 0x7c00 := if_pos (Nat.lt_of_not_le h142)
  rw [hinf]
  by_cases h143 : singleExp i = 143
  · have hrun := hcode (h143.trans_le (by decide))
    rw [h143, field_within (by decide)] at hrun
    rw [if_pos h143, ← carry_iff hm, ← round_zero_iff]
    generalize (singleFrac i + 2 ^ 12) / 2 ^ 13 = r at hrun ⊢
    clear * - hrun
    omega
  rw [if_neg h143]
  by_cases h175 : singleExp i ≤ 175
  · have hrun := hcode h175
    have h144 : 144 ≤ singleExp i := by
      clear * - h142 h143
      omega
    rw [field_past hs h144 h175] at hrun
    rw [if_pos h175, ← carry_iff hm, ← round_zero_iff]
    generalize (singleFrac i + 2 ^ 12) / 2 ^ 13 = r at hrun ⊢
    obtain ⟨k, hk⟩ := Nat.exists_eq_add_of_le h144
    rw [hk] at hrun h175 ⊢
    rw [Nat.add_sub_cancel_left] at hrun
    clear * - hrun hs h175
    rcases hrun with ⟨hlt, hout⟩ | ⟨heq, hout⟩
    · omega
    · omega
  · have hrun := encode_cases hi (e := 0x1f) (m := 0) (by
      rw [encodeExp, if_neg hnan, if_pos hzero]
      simp only
      rw [if_neg (by omega), if_pos (by omega)]) (by decide) (Nat.zero_le _)
    rw [if_neg h175, iff_true]
    omega

/-! ## Decoding is exact -/

/-- A shift by the places that are missing to the hidden bit. -/
theorem normalLoop_spec {n d m e : Nat} (hd : d ≤ n) (hlow : 2 ^ 10 ≤ m * 2 ^ d) (hhigh : m * 2 ^ d < 2 ^ 11) :
    normalLoop n m e = (m * 2 ^ d, e - d) := by
  induction n generalizing d m e with
  | zero =>
    obtain rfl : d = 0 := by omega
    rw [normalLoop, Nat.pow_zero, Nat.mul_one]
    rfl
  | succ n ih =>
    have hbit : m &&& 0x400 = m / 2 ^ 10 % 2 * 2 ^ 10 := and_bit m 10
    rw [normalLoop, hbit]
    cases d with
    | zero =>
      rw [Nat.pow_zero, Nat.mul_one] at hlow hhigh ⊢
      rw [if_neg (by omega)]
      rfl
    | succ d =>
      have htwice : m * 2 ^ (d + 1) = 2 * m * 2 ^ d := by
        rw [Nat.pow_succ]
        ring
      have hle : m * 2 ^ 1 ≤ m * 2 ^ (d + 1) := Nat.mul_le_mul_left m (Nat.pow_le_pow_right (by decide) (by omega))
      have hshift : (m <<< 1) % 2 ^ 16 = 2 * m := by
        rw [Nat.shiftLeft_eq]
        omega
      rw [htwice] at hlow hhigh ⊢
      rw [if_pos (by omega), hshift, ih (by omega) hlow hhigh, Nat.sub_sub, Nat.add_comm 1 d]

theorem decode_eq {h e m : Nat} (hh : h < 2 ^ 16) (hexp : decodeExp (halfExp h) (halfFrac h) = (e, m)) (he : e < 2 ^ 8) (hm : m < 2 ^ 10) :
    decodeHalfFloat h = halfSign h * 2 ^ 31 + e * 2 ^ 23 + m * 2 ^ 13 := by
  have hsign : (h &&& 0x8000) <<< 16 = (halfSign h) <<< 31 := by
    have hbit : h &&& 0x8000 = h / 2 ^ 15 % 2 * 2 ^ 15 := and_bit h 15
    rw [hbit, halfSign, Nat.shiftLeft_eq, Nat.shiftLeft_eq]
    omega
  have hfrac : h &&& 0x3ff = halfFrac h := Nat.and_two_pow_sub_one_eq_mod h 10
  have hfield : (h >>> 10) &&& 0x1f = halfExp h := by
    rw [halfExp, ← Nat.shiftRight_eq_div_pow]
    exact Nat.and_two_pow_sub_one_eq_mod _ 5
  have hlow : m <<< 13 < 2 ^ 23 := by
    rw [Nat.shiftLeft_eq]
    omega
  have hmid : e <<< 23 + m <<< 13 < 2 ^ 31 := by
    rw [Nat.shiftLeft_eq, Nat.shiftLeft_eq]
    omega
  unfold decodeHalfFloat
  simp only [hfrac, hfield, hexp, hsign]
  rw [Nat.or_assoc, ← Nat.shiftLeft_add_eq_or_of_lt hlow, ← Nat.shiftLeft_add_eq_or_of_lt hmid, Nat.shiftLeft_eq, Nat.shiftLeft_eq,
    Nat.shiftLeft_eq, Nat.add_assoc]

theorem decode_fields {h e m : Nat} (hh : h < 2 ^ 16) (hexp : decodeExp (halfExp h) (halfFrac h) = (e, m)) (he : e < 2 ^ 8) (hm : m < 2 ^ 10) :
    decodeHalfFloat h < 2 ^ 32 ∧ singleSign (decodeHalfFloat h) = halfSign h ∧ singleExp (decodeHalfFloat h) = e ∧
      singleFrac (decodeHalfFloat h) = m * 2 ^ 13 := by
  rw [decode_eq hh hexp he hm]
  have hs : halfSign h < 2 := by
    unfold halfSign
    omega
  unfold singleSign singleExp singleFrac
  refine ⟨?_, ?_, ?_, ?_⟩ <;> omega

theorem HalfFor.unique {i a b : Nat} (hi : singleExp i = 0xff → singleFrac i = 0) (ha : HalfFor i a) (hb : HalfFor i b) : a = b := by
  by_cases he : singleExp i = 0xff
  · rw [HalfFor, if_pos he, if_pos (hi he)] at ha hb
    rw [ha, hb]
  · rw [halfFor_iff he] at ha hb
    rw [ha, hb]

theorem halfFor_exact {i h : Nat} (he : singleExp i ≠ 0xff) (hsign : singleSign i = halfSign h) (hp : h % 2 ^ 15 ≤ halfInf)
    (hmag : singleMag (singleExp i) (singleFrac i) = halfMag (h % 2 ^ 15)) : HalfFor i h := by
  rw [HalfFor, if_neg he, hmag, hsign]
  refine ⟨h % 2 ^ 15, isNearest_self halfMag_cast_strictMono hp, ?_⟩
  unfold halfSign
  omega

/-- With the fields known, all that is left is whether they are encoded right. -/
theorem inverse_iff_right {h e m : Nat} (hh : h < 2 ^ 16) (hexp : decodeExp (halfExp h) (halfFrac h) = (e, m)) (he : e < 2 ^ 8) (hm : m < 2 ^ 10)
    (hinf : e = 0xff → m = 0) (hfor : HalfFor (decodeHalfFloat h) h) :
    encodeHalfFloat (decodeHalfFloat h) = h ↔ EncodesRight (halfSign h) e (m * 2 ^ 13) := by
  obtain ⟨hlt, h1, h2, h3⟩ := decode_fields hh hexp he hm
  have hiff := encode_iff hlt
  rw [h1, h2, h3] at hiff
  rw [← hiff]
  constructor
  · intro hsame
    rwa [hsame]
  · intro hother
    refine hother.unique ?_ hfor
    rw [h2, h3]
    intro hff
    rw [hinf hff, Nat.zero_mul]

theorem missing_places {m : Nat} (hm : m < 2 ^ 10) (hne : m ≠ 0) : ∃ d, 1 ≤ d ∧ d ≤ 10 ∧ 2 ^ 10 ≤ m * 2 ^ d ∧ m * 2 ^ d < 2 ^ 11 := by
  have hlow := Nat.log2_self_le hne
  have hhigh := Nat.lt_log2_self (n := m)
  have hten : m.log2 < 10 := (Nat.log2_lt hne).mpr hm
  obtain ⟨d, hd⟩ : ∃ d, m.log2 + d = 10 := ⟨10 - m.log2, by omega⟩
  refine ⟨d, by omega, by omega, ?_, ?_⟩
  · rw [← hd, Nat.pow_add]
    exact Nat.mul_le_mul_right _ hlow
  · rw [show 11 = m.log2 + 1 + d by omega, Nat.pow_add]
    exact Nat.mul_lt_mul_of_pos_right hhigh (Nat.two_pow_pos d)

theorem decode_normal {h : Nat} (hh : h < 2 ^ 16) (h0 : halfExp h ≠ 0) (h31 : halfExp h ≠ 0x1f) : encodeHalfFloat (decodeHalfFloat h) = h := by
  have hm : halfFrac h < 2 ^ 10 := Nat.mod_lt _ (by decide)
  have he : halfExp h < 2 ^ 5 := Nat.mod_lt _ (by decide)
  have hp : h % 2 ^ 15 = halfExp h * 2 ^ 10 + halfFrac h := by
    unfold halfExp halfFrac
    omega
  have hexp : decodeExp (halfExp h) (halfFrac h) = (halfExp h + 112, halfFrac h) := by
    rw [decodeExp, if_neg h31, if_pos h0]
  obtain ⟨-, h1, h2, h3⟩ := decode_fields hh hexp (by omega) hm
  have hmag : singleMag (singleExp (decodeHalfFloat h)) (singleFrac (decodeHalfFloat h)) = halfMag (h % 2 ^ 15) := by
    obtain ⟨b, hb⟩ := Nat.exists_eq_succ_of_ne_zero h0
    rw [h2, h3, singleMag, if_neg (by omega), hp, hb, Nat.succ_eq_add_one, halfMag_binade (Nat.le_of_lt hm),
      show b + 1 + 112 - 1 = b + 112 by omega, show b + 125 = 13 + (b + 112) by omega, Nat.pow_add 2 13, ← Nat.mul_assoc]
    congr 1
    ring
  rw [inverse_iff_right hh hexp (by omega) hm (by omega) (halfFor_exact (by omega) h1 (by unfold halfInf; omega) hmag), EncodesRight,
    if_neg (by omega), if_neg (by omega), if_neg (by omega), if_neg (by omega), if_neg (by omega), if_pos (by omega)]
  omega

theorem decode_subnormal {h : Nat} (hh : h < 2 ^ 16) (h0 : halfExp h = 0) (hne : halfFrac h ≠ 0) :
    encodeHalfFloat (decodeHalfFloat h) = h ↔ halfFrac h < 2 ^ 9 := by
  have hm : halfFrac h < 2 ^ 10 := Nat.mod_lt _ (by decide)
  have hp : h % 2 ^ 15 = halfFrac h := by
    unfold halfExp at h0
    unfold halfFrac
    omega
  obtain ⟨d, hd1, hd, hlow, hhigh⟩ := missing_places hm hne
  have hexp : decodeExp (halfExp h) (halfFrac h) = (113 - d, halfFrac h * 2 ^ d - 2 ^ 10) := by
    rw [decodeExp, if_neg (by omega), if_neg (by omega), if_pos hne]
    simp only [normalLoop_spec hd hlow hhigh]
    congr 1
    omega
  obtain ⟨-, h1, h2, h3⟩ := decode_fields hh hexp (by omega) (by omega)
  have hmant : 2 ^ 23 + (halfFrac h * 2 ^ d - 2 ^ 10) * 2 ^ 13 = halfFrac h * 2 ^ (13 + d) := by
    rw [Nat.pow_add, Nat.mul_comm (2 ^ 13), ← Nat.mul_assoc]
    omega
  have hmag : singleMag (singleExp (decodeHalfFloat h)) (singleFrac (decodeHalfFloat h)) = halfMag (h % 2 ^ 15) := by
    rw [h2, h3, singleMag, if_neg (by omega), hmant, hp, halfMag_low (by omega), Nat.mul_assoc, ← Nat.pow_add,
      show 13 + d + (113 - d - 1) = 125 by omega]
  rw [inverse_iff_right hh hexp (by omega) (by omega) (by omega) (halfFor_exact (by omega) h1 (by unfold halfInf; omega) hmag), EncodesRight,
    if_neg (by omega), if_neg (by omega), if_neg (by omega)]
  rcases Nat.lt_or_eq_of_le hd1 with hlt | rfl
  · -- no bit is lost
    have hexact : (2 ^ 23 + (halfFrac h * 2 ^ d - 2 ^ 10) * 2 ^ 13) % 2 ^ (126 - (113 - d)) = 0 := by
      rw [hmant, show 126 - (113 - d) = 13 + d by omega, Nat.mul_mod_left]
    have hpow : 2 ^ 14 ≤ 2 ^ (125 - (113 - d)) := Nat.pow_le_pow_right (by decide) (by omega)
    have hquarter : halfFrac h * 2 ^ 2 ≤ halfFrac h * 2 ^ d := Nat.mul_le_mul_left _ (Nat.pow_le_pow_right (by decide) hlt)
    rw [if_pos (by omega), if_pos (by omega), hexact]
    omega
  · rw [if_neg (by decide), if_pos rfl]
    omega

theorem decode_inverse_iff {h : Nat} (hh : h < 2 ^ 16) (hnan : ¬ (halfExp h = 0x1f ∧ halfFrac h ≠ 0)) :
    encodeHalfFloat (decodeHalfFloat h) = h ↔ ¬ (halfExp h = 0 ∧ 2 ^ 9 ≤ halfFrac h) := by
  by_cases hinf : halfExp h = 0x1f
  · have hzero : halfFrac h = 0 := by
      by_contra hne
      exact hnan ⟨hinf, hne⟩
    have hexp : decodeExp (halfExp h) (halfFrac h) = (0xff, 0) := by
      rw [decodeExp, if_pos hinf, hzero]
    obtain ⟨-, h1, h2, h3⟩ := decode_fields hh hexp (by decide) (by decide)
    have hfor : HalfFor (decodeHalfFloat h) h := by
      rw [HalfFor, if_pos h2, if_pos (by rw [h3, Nat.zero_mul]), h1]
      unfold halfInf halfSign
      unfold halfExp at hinf
      unfold halfFrac at hzero
      omega
    rw [inverse_iff_right hh hexp (by decide) (by decide) (fun _ => rfl) hfor, EncodesRight, if_pos rfl]
    omega
  by_cases hexp0 : halfExp h = 0
  · by_cases hzero : halfFrac h = 0
    · have hexp : decodeExp (halfExp h) (halfFrac h) = (0, 0) := by
        rw [hexp0, hzero]
        rfl
      obtain ⟨-, h1, h2, h3⟩ := decode_fields hh hexp (by decide) (by decide)
      have hp : h % 2 ^ 15 = 0 := by
        unfold halfExp at hexp0
        unfold halfFrac at hzero
        omega
      have hfor : HalfFor (decodeHalfFloat h) h := by
        refine halfFor_exact (by omega) h1 (by rw [hp]; exact Nat.zero_le _) ?_
        rw [h2, h3, hp]
        rfl
      rw [inverse_iff_right hh hexp (by decide) (by decide) (fun _ => rfl) hfor, EncodesRight, if_neg (by decide), if_pos rfl]
      omega
    · rw [decode_subnormal hh hexp0 hzero]
      omega
  · exact iff_of_true (decode_normal hh hexp0 hinf) fun hand => hexp0 hand.1

/-- A float is encoded as the half it should be just where its fields are among the right ones, and a
half is got back just where it is not in the upper half of the subnormal ones. -/
theorem half_float_iff {i h : Nat} (hi : i < 2 ^ 32) (hh : h < 2 ^ 16) :
    (HalfFor i (encodeHalfFloat i) ↔ EncodesRight (singleSign i) (singleExp i) (singleFrac i)) ∧
    (¬ (halfExp h = 0x1f ∧ halfFrac h ≠ 0) → (encodeHalfFloat (decodeHalfFloat h) = h ↔ ¬ (halfExp h = 0 ∧ 2 ^ 9 ≤ halfFrac h))) :=
  ⟨encode_iff hi, decode_inverse_iff hh⟩

/-- 1.0, and the least normal half. -/
theorem half_float_iff_one : HalfFor 0x3f800000 (encodeHalfFloat 0x3f800000) ∧ encodeHalfFloat (decodeHalfFloat 0x400) = 0x400 := by
  have hiff := @half_float_iff 0x3f800000 0x400 (by decide) (by decide)
  exact ⟨hiff.1.mpr (by unfold EncodesRight; decide), (hiff.2 (by decide)).mpr (by decide)⟩

/-- 131072.0 becomes -0.0, 1.9999 (0x3ffff972) becomes 1.0, and the subnormal half 0x200 does not come back. -/
theorem half_float_astray : encodeHalfFloat 0x48000000 = 0x8000 ∧ encodeHalfFloat 0x3ffff972 = 0x3c00 ∧
    ¬ HalfFor 0x48000000 (encodeHalfFloat 0x48000000) ∧ encodeHalfFloat (decodeHalfFloat 0x200) = 0 := by
  refine ⟨by decide, by decide, ?_, by decide⟩
  rw [encode_iff (by decide)]
  unfold EncodesRight
  decide

end PythonUltra.Py.HalfFloat
