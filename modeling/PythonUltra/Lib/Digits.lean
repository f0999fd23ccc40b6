/-
  PythonUltra.Lib.Digits — numbers as digits at positions.

  `num B f n` is what the first `n` digits of `f` stand for to the base `B`. What a pass
  with a carry makes is said once (`num_carry`): where every position gives out, as a digit
  and a carry, what it takes in, so does the pass. `Normal`: the digits are below the base
  and the leading one is not zero, so a value has one length.
-/

import Mathlib.Algebra.BigOperators.Intervals
import Mathlib.Algebra.BigOperators.Ring.Finset
import Mathlib.Algebra.Order.BigOperators.Group.Finset
import Mathlib.Data.Nat.Bitwise
import Mathlib.Tactic.Ring
import Mathlib.Tactic.Linarith

namespace PythonUltra.Lib.Digits

open Finset

section Semiring

variable {R : Type} [CommSemiring R] {B : R}

/-- The number with the digits `f 0`, …, `f (n - 1)`. -/
def num (B : R) (f : Nat → R) (n : Nat) : R := ∑ q ∈ range n, f q * B ^ q

@[simp] theorem num_zero (f : Nat → R) : num B f 0 = 0 := rfl

theorem num_succ (f : Nat → R) (n : Nat) : num B f (n + 1) = num B f n + f n * B ^ n := sum_range_succ _ _

theorem num_add (f : Nat → R) (m n : Nat) : num B f (m + n) = num B f m + B ^ m * num B (fun q => f (m + q)) n := by
  unfold num
  rw [sum_range_add, mul_sum]
  refine congrArg _ (sum_congr rfl fun q _ => ?_)
  rw [pow_add]
  ring

theorem num_congr {f g : Nat → R} {n : Nat} (h : ∀ q < n, f q = g q) : num B f n = num B g n :=
  sum_congr rfl fun q hq => by rw [h q (mem_range.mp hq)]

theorem num_add_digits (f g : Nat → R) (n : Nat) : num B (fun q => f q + g q) n = num B f n + num B g n := by
  unfold num
  rw [← sum_add_distrib]
  exact sum_congr rfl fun q _ => add_mul _ _ _

theorem num_mul_digits (f : Nat → R) (k : R) (n : Nat) : num B (fun q => f q * k) n = num B f n * k := by
  unfold num
  rw [sum_mul]
  exact sum_congr rfl fun q _ => by ring

/-- Nothing above the first `m` digits. -/
theorem num_pad {f : Nat → R} {m n : Nat} (hmn : m ≤ n) (h : ∀ q, m ≤ q → q < n → f q = 0) : num B f n = num B f m := by
  obtain ⟨k, rfl⟩ := Nat.exists_eq_add_of_le hmn
  rw [num_add]
  have hzero : num B (fun q => f (m + q)) k = 0 :=
    sum_eq_zero fun q hq => by
      have hq := h (m + q) (Nat.le_add_right m q) (Nat.add_lt_add_left (mem_range.mp hq) m)
      exact (congrArg (· * B ^ q) hq).trans (zero_mul _)
  rw [hzero, mul_zero, add_zero]

/-- A pass with a carry gives out what it takes in. -/
theorem num_carry {d x c : Nat → R} {n : Nat} (h : ∀ q < n, d q + B * c (q + 1) = c q + x q) :
    num B d n + B ^ n * c n = c 0 + num B x n := by
  induction n with
  | zero => rw [num_zero, num_zero, pow_zero, one_mul, zero_add, add_zero]
  | succ n ih =>
    calc num B d (n + 1) + B ^ (n + 1) * c (n + 1) = num B d n + B ^ n * (d n + B * c (n + 1)) := by
          rw [num_succ]
          ring
      _ = (num B d n + B ^ n * c n) + x n * B ^ n := by
          rw [h n (Nat.lt_succ_self n)]
          ring
      _ = c 0 + num B x (n + 1) := by
          rw [ih fun q hq => h q (Nat.lt_succ_of_lt hq), num_succ, add_assoc]

end Semiring

theorem num_sub_digits (B : Int) (f g : Nat → Int) (n : Nat) : num B (fun q => f q - g q) n = num B f n - num B g n := by
  unfold num
  rw [← sum_sub_distrib]
  exact sum_congr rfl fun q _ => sub_mul _ _ _

theorem num_cast (B : Nat) (f : Nat → Nat) (n : Nat) : ((num B f n : Nat) : Int) = num (B : Int) (fun q => (f q : Int)) n := by
  unfold num
  rw [Nat.cast_sum]
  exact sum_congr rfl fun q _ => by push_cast; rfl

variable {B : Nat} {f g : Nat → Nat} {n : Nat}

theorem num_mask (hB : 0 < B) (n : Nat) : num B (fun _ => B - 1) n + 1 = B ^ n := by
  induction n with
  | zero => rfl
  | succ n ih =>
    have hstep : (B - 1) * B ^ n + B ^ n = B ^ n * B := by
      rw [← Nat.succ_mul, Nat.succ_eq_add_one, Nat.sub_add_cancel hB, Nat.mul_comm]
    rw [num_succ, Nat.pow_succ]
    omega

theorem num_lt (hB : 0 < B) (h : ∀ q < n, f q < B) : num B f n < B ^ n := by
  rw [← num_mask hB n]
  refine Nat.lt_succ_of_le (sum_le_sum fun q hq => ?_)
  exact Nat.mul_le_mul_right _ (Nat.le_sub_one_of_lt (h q (mem_range.mp hq)))

theorem num_div (hB : 0 < B) (h : ∀ q < n, f q < B) {p : Nat} (hp : p ≤ n) :
    num B f n / B ^ p = num B (fun q => f (p + q)) (n - p) := by
  obtain ⟨m, rfl⟩ := Nat.exists_eq_add_of_le hp
  have hlow : num B f p < B ^ p := num_lt hB fun q hq => h q (by omega)
  rw [num_add, Nat.add_mul_div_left _ _ (Nat.pow_pos hB), Nat.div_eq_of_lt hlow, Nat.zero_add, Nat.add_sub_cancel_left]

theorem num_mod (h : ∀ q < n, f q < B) (hn : 0 < n) : num B f n % B = f 0 := by
  obtain ⟨m, rfl⟩ := Nat.exists_eq_add_of_le' hn
  rw [Nat.add_comm m 1, num_add, num_succ, num_zero, Nat.pow_zero, Nat.pow_one, Nat.mul_one, Nat.zero_add,
    Nat.add_mul_mod_self_left, Nat.mod_eq_of_lt (h 0 hn)]

theorem num_digit (hB : 0 < B) (h : ∀ q < n, f q < B) {p : Nat} (hp : p < n) : num B f n / B ^ p % B = f p := by
  rw [num_div hB h (Nat.le_of_lt hp), num_mod (fun q hq => h (p + q) (by omega)) (Nat.sub_pos_of_lt hp)]
  rfl

theorem num_low (v n : Nat) : num B (fun q => v / B ^ q % B) n = v % B ^ n := by
  induction n with
  | zero => rw [num_zero, Nat.pow_zero, Nat.mod_one]
  | succ n ih => rw [num_succ, ih, Nat.pow_succ, Nat.mod_mul, Nat.mul_comm (B ^ n)]

/-- The first `n` digits, and nothing past them. -/
def upTo (n : Nat) (f : Nat → Nat) (q : Nat) : Nat := if q < n then f q else 0

theorem num_upTo {m : Nat} (f : Nat → Nat) (hnm : n ≤ m) : num B (upTo n f) m = num B f n := by
  have hpad : num B (upTo n f) m = num B (upTo n f) n := num_pad hnm fun q hq _ => if_neg (by omega)
  exact hpad.trans (num_congr fun q hq => if_pos hq)

theorem upTo_lt (hB : 0 < B) (hf : ∀ q < n, f q < B) (q : Nat) : upTo n f q < B := by
  unfold upTo
  split
  · exact hf q ‹_›
  · exact hB

theorem num_digit_upTo (hB : 0 < B) (h : ∀ q < n, f q < B) (p : Nat) : num B f n / B ^ p % B = upTo n f p := by
  unfold upTo
  split
  · exact num_digit hB h ‹_›
  · have hlt : num B f n < B ^ p := Nat.lt_of_lt_of_le (num_lt hB h) (Nat.pow_le_pow_right hB (by omega))
    rw [Nat.div_eq_of_lt hlt, Nat.zero_mod]

theorem num_two_digits (hB : 0 < B) (h : ∀ q < n, f q < B) (p : Nat) :
    num B f n / B ^ p % (B * B) = upTo n f p + B * upTo n f (p + 1) := by
  rw [Nat.mod_mul, num_digit_upTo hB h, Nat.div_div_eq_div_mul, ← Nat.pow_succ, num_digit_upTo hB h]

theorem shift_congr {b t x y : Nat} (ht : t ≤ b) (h : x % (2 ^ b * 2 ^ b) = y % (2 ^ b * 2 ^ b)) :
    x / 2 ^ t % 2 ^ b = y / 2 ^ t % 2 ^ b := by
  have hdvd : 2 ^ t * 2 ^ b ∣ 2 ^ b * 2 ^ b := Nat.mul_dvd_mul_right (Nat.pow_dvd_pow 2 ht) _
  rw [← Nat.mod_mul_right_div_self, ← Nat.mod_mul_right_div_self, ← Nat.mod_mod_of_dvd x hdvd, h, Nat.mod_mod_of_dvd y hdvd]

/-- `d` at `n` positions from `p` on, `f` elsewhere. -/
def overlay (p n : Nat) (d f : Nat → Nat) (q : Nat) : Nat := if p ≤ q ∧ q < p + n then d q else f q

theorem overlay_of_mem {p q : Nat} {d : Nat → Nat} (h : p ≤ q ∧ q < p + n) : overlay p n d f q = d q := if_pos h

theorem overlay_of_not {p q : Nat} {d : Nat → Nat} (h : ¬ (p ≤ q ∧ q < p + n)) : overlay p n d f q = f q := if_neg h

theorem overlay_low {q : Nat} {d : Nat → Nat} (h : q < n) : overlay 0 n d f q = d q := overlay_of_mem (by omega)

theorem overlay_zero (p : Nat) (d f : Nat → Nat) : overlay p 0 d f = f := funext fun _ => overlay_of_not (by omega)

theorem overlay_overlay (p m n : Nat) (d f : Nat → Nat) : overlay (p + m) n d (overlay p m d f) = overlay p (m + n) d f := by
  funext q
  by_cases hq : p ≤ q ∧ q < p + (m + n)
  · rw [overlay_of_mem hq]
    by_cases hhigh : p + m ≤ q ∧ q < p + m + n
    · exact overlay_of_mem hhigh
    · rw [overlay_of_not hhigh]
      exact overlay_of_mem (by omega)
  · rw [overlay_of_not hq, overlay_of_not (by omega), overlay_of_not (by omega)]

/-! ## Carries -/

/-- What is carried into a position, where position `q` adds `x q`. -/
def carry (B : Nat) (x : Nat → Nat) (a : Nat) : Nat → Nat
  | 0 => a
  | q + 1 => (carry B x a q + x q) / B

/-- The digit left there. -/
def sumDigit (B : Nat) (x : Nat → Nat) (a q : Nat) : Nat := (carry B x a q + x q) % B

theorem num_sumDigit (x : Nat → Nat) (a n : Nat) :
    num B (sumDigit B x a) n + B ^ n * carry B x a n = a + num B x n :=
  num_carry (c := carry B x a) fun _ _ => Nat.mod_add_div _ _

theorem num_sumDigit_mod (hB : 0 < B) (x : Nat → Nat) (a n : Nat) : num B (sumDigit B x a) n = (a + num B x n) % B ^ n := by
  have hlt : num B (sumDigit B x a) n < B ^ n := num_lt hB fun _ _ => Nat.mod_lt _ hB
  rw [← num_sumDigit, Nat.add_mul_mod_self_left, Nat.mod_eq_of_lt hlt]

theorem carry_le {x : Nat → Nat} {a m : Nat} (ha : a ≤ m) (hx : ∀ q < n, m + x q < B * (m + 1)) {q : Nat} (hq : q ≤ n) :
    carry B x a q ≤ m := by
  induction q with
  | zero => exact ha
  | succ q ih =>
    have hm := ih (by omega)
    have hlt : carry B x a q + x q < B * (m + 1) := Nat.lt_of_le_of_lt (Nat.add_le_add_right hm _) (hx q (by omega))
    exact Nat.le_of_lt_succ (Nat.div_lt_of_lt_mul hlt)

/-- The digits a pass leaves, and the carry past them. -/
def sumDigits (B : Nat) (x : Nat → Nat) (a n q : Nat) : Nat := if q < n then sumDigit B x a q else carry B x a n

theorem sumDigits_of_lt {x : Nat → Nat} {a q : Nat} (hq : q < n) : sumDigits B x a n q = sumDigit B x a q := if_pos hq

@[simp] theorem sumDigits_last (x : Nat → Nat) (a n : Nat) : sumDigits B x a n n = carry B x a n := if_neg (Nat.lt_irrefl n)

theorem sumDigits_lt {x : Nat → Nat} {a : Nat} (hB : 0 < B) (hcarry : carry B x a n < B) (q : Nat) : sumDigits B x a n q < B := by
  unfold sumDigits
  split
  · exact Nat.mod_lt _ hB
  · exact hcarry

theorem num_sumDigits (x : Nat → Nat) (a n : Nat) : num B (sumDigits B x a n) (n + 1) = a + num B x n := by
  rw [num_succ, sumDigits_last, num_congr fun q hq => sumDigits_of_lt hq, Nat.mul_comm, num_sumDigit]

/-- The same where positions also take away. -/
def borrow (B : Nat) (x : Nat → Int) (a : Int) : Nat → Int
  | 0 => a
  | q + 1 => (borrow B x a q + x q) / B

def diffDigit (B : Nat) (x : Nat → Int) (a : Int) (q : Nat) : Nat := ((borrow B x a q + x q) % B).toNat

theorem diffDigit_cast (hB : 0 < B) (x : Nat → Int) (a : Int) (q : Nat) :
    (diffDigit B x a q : Int) = (borrow B x a q + x q) % B :=
  Int.toNat_of_nonneg (Int.emod_nonneg _ (by omega))

theorem diffDigit_lt (hB : 0 < B) (x : Nat → Int) (a : Int) (q : Nat) : diffDigit B x a q < B := by
  have hlt := Int.emod_lt_of_pos (borrow B x a q + x q) (show (0 : Int) < B by omega)
  have hcast := diffDigit_cast hB x a q
  omega

theorem num_diffDigit (hB : 0 < B) (x : Nat → Int) (a : Int) (n : Nat) :
    ((num B (diffDigit B x a) n : Nat) : Int) + (B : Int) ^ n * borrow B x a n = a + num (B : Int) x n := by
  rw [num_cast]
  refine num_carry (c := borrow B x a) fun q _ => ?_
  rw [diffDigit_cast hB]
  exact Int.emod_add_mul_ediv _ _

theorem borrow_mem {x : Nat → Int} {a l u : Int} (ha : l ≤ a ∧ a ≤ u) (hB : 0 < B)
    (hx : ∀ q < n, l * B ≤ l + x q ∧ u + x q < (u + 1) * B) {q : Nat} (hq : q ≤ n) :
    l ≤ borrow B x a q ∧ borrow B x a q ≤ u := by
  induction q with
  | zero => exact ha
  | succ q ih =>
    obtain ⟨hl, hu⟩ := ih (by omega)
    obtain ⟨hxl, hxu⟩ := hx q (by omega)
    have hBpos : (0 : Int) < B := by omega
    constructor
    · exact Int.le_ediv_of_mul_le hBpos (by omega)
    · exact Int.le_of_lt_add_one (Int.ediv_lt_of_lt_mul hBpos (by omega))

/-! ## Leading digits -/

/-- Digits below the base, the leading one not zero. -/
structure Normal (B : Nat) (f : Nat → Nat) (n : Nat) : Prop where
  below : ∀ q < n, f q < B
  leading : n ≠ 0 → f (n - 1) ≠ 0

namespace Normal

theorem congr (h : Normal B f n) (hfg : ∀ q < n, f q = g q) : Normal B g n where
  below q hq := hfg q hq ▸ h.below q hq
  leading hn := hfg (n - 1) (by omega) ▸ h.leading hn

theorem lt (h : Normal B f n) (hB : 0 < B) : num B f n < B ^ n := num_lt hB h.below

theorem pow_le (h : Normal B f n) (hn : n ≠ 0) : B ^ (n - 1) ≤ num B f n := by
  obtain ⟨m, rfl⟩ := Nat.exists_eq_succ_of_ne_zero hn
  have hpos : 0 < f m := Nat.pos_of_ne_zero (h.leading hn)
  rw [num_succ]
  exact Nat.le_trans (Nat.le_mul_of_pos_left _ hpos) (Nat.le_add_left _ _)

theorem num_eq_zero (h : Normal B f n) (hB : 0 < B) : num B f n = 0 ↔ n = 0 := by
  constructor
  · intro hnum
    by_contra hn
    have hle := h.pow_le hn
    have hpos : 0 < B ^ (n - 1) := Nat.pow_pos hB
    omega
  · intro hn
    rw [hn, num_zero]

theorem lt_of_length {m : Nat} (hf : Normal B f m) (hg : Normal B g n) (hB : 0 < B) (hmn : m < n) :
    num B f m < num B g n :=
  calc num B f m < B ^ m := hf.lt hB
    _ ≤ B ^ (n - 1) := Nat.pow_le_pow_right hB (by omega)
    _ ≤ num B g n := hg.pow_le (by omega)

end Normal

theorem normal_of_le (hB : 0 < B) (h : ∀ q < n, f q < B) (hle : n ≠ 0 → B ^ (n - 1) ≤ num B f n) : Normal B f n := by
  refine ⟨h, fun hn hzero => ?_⟩
  obtain ⟨m, rfl⟩ := Nat.exists_eq_succ_of_ne_zero hn
  have hlt : num B f m < B ^ m := num_lt hB fun q hq => h q (by omega)
  have hnum := hle hn
  rw [num_succ] at hnum
  change f m = 0 at hzero
  rw [hzero, Nat.zero_mul] at hnum
  change B ^ m ≤ _ at hnum
  omega

/-! ## Shifts by part of a digit -/

section Shift

variable {b s : Nat}

theorem carry_shift_lt (hf : ∀ q < n, f q < 2 ^ b) {q : Nat} (hq : q ≤ n) : carry (2 ^ b) (fun q => f q * 2 ^ s) 0 q < 2 ^ s := by
  have hpos : 0 < 2 ^ s := Nat.two_pow_pos s
  refine Nat.lt_of_le_pred hpos (carry_le (Nat.zero_le _) (fun q hq => ?_) hq)
  rw [Nat.pred_eq_sub_one, Nat.sub_add_cancel hpos]
  have hle := Nat.mul_le_mul_right (2 ^ s) (Nat.succ_le_of_lt (hf q hq))
  rw [Nat.succ_mul] at hle
  omega

theorem carry_shift (hs : s ≤ b) (hf : ∀ q < n, f q < 2 ^ b) {q : Nat} (hq : q < n) :
    carry (2 ^ b) (fun q => f q * 2 ^ s) 0 (q + 1) = f q / 2 ^ (b - s) := by
  have hsplit : 2 ^ b = 2 ^ s * 2 ^ (b - s) := by rw [← Nat.pow_add, Nat.add_sub_cancel' hs]
  rw [carry, hsplit, ← Nat.div_div_eq_div_mul, ← hsplit, Nat.add_mul_div_right _ _ (Nat.two_pow_pos s),
    Nat.div_eq_of_lt (carry_shift_lt hf (Nat.le_of_lt hq)), Nat.zero_add]

end Shift

/-! ## Long division -/

theorem div_le_estimate {N D P : Nat} (hD : 0 < D / P) : N / D ≤ N / P / (D / P) := by
  rw [Nat.div_div_eq_div_mul]
  refine Nat.div_le_div_left (Nat.mul_div_le D P) (Nat.mul_pos ?_ hD)
  refine Nat.pos_of_ne_zero fun hP => ?_
  rw [hP, Nat.div_zero] at hD
  exact Nat.lt_irrefl 0 hD

theorem estimate_lt {N D P : Nat} (hP : 0 < P) (hlead : B ≤ 2 * (D / P)) (hN : N < D * B) : N / P / (D / P) < B + 2 := by
  refine Nat.div_lt_of_lt_mul (Nat.div_lt_of_lt_mul ?_)
  have hD : D ≤ P * (D / P + 1) := Nat.le_of_lt (Nat.lt_mul_div_succ D hP)
  calc N < D * B := hN
    _ ≤ P * (D / P + 1) * B := Nat.mul_le_mul_right B hD
    _ = P * (D / P * B + B) := by ring
    _ ≤ P * (D / P * B + 2 * (D / P)) := Nat.mul_le_mul_left P (Nat.add_le_add_left hlead _)
    _ = P * (D / P * (B + 2)) := by ring

/-- A division of `A` by `D` on the way: `f` is what is left of `A`, in `l + n` digits, and `g` has
the digits of the quotient from `n` up to `m`. -/
structure Divides (B A D l m n : Nat) (f g : Nat → Nat) : Prop where
  below : ∀ q < l + n, f q < B
  quo_below : ∀ q, n ≤ q → q < m → g q < B
  lt : num B f (l + n) < D * B ^ n
  value : A = num B f (l + n) + D * (B ^ n * num B (fun q => g (n + q)) (m - n))

namespace Divides

variable {A D l m : Nat}

theorem window_lt (h : Divides B A D l m (n + 1) f g) : num B (fun q => f (n + q)) (l + 1) < D * B := by
  have hlt := h.lt
  rw [show l + (n + 1) = n + (l + 1) by omega, num_add, Nat.pow_succ] at hlt
  refine Nat.lt_of_mul_lt_mul_left (a := B ^ n) ?_
  calc B ^ n * num B (fun q => f (n + q)) (l + 1) ≤ num B f n + B ^ n * num B (fun q => f (n + q)) (l + 1) := Nat.le_add_left _ _
    _ < D * (B ^ n * B) := hlt
    _ = B ^ n * (D * B) := by ring

/-- One digit of the quotient: the window becomes what it leaves. -/
theorem step {d : Nat → Nat} {q : Nat} (h : Divides B A D l m (n + 1) f g) (hB : 0 < B) (hnm : n < m) (hd : ∀ p < l, d p < B)
    (hq : num B (fun p => f (n + p)) (l + 1) = q * D + num B d l) (hr : num B d l < D) :
    Divides B A D l m n (overlay n l (fun p => d (p - n)) f) (Function.update g n q) := by
  have hnum : num B (overlay n l (fun p => d (p - n)) f) (l + n) = num B f n + B ^ n * num B d l := by
    rw [Nat.add_comm l n, num_add]
    have hlow : num B (overlay n l (fun p => d (p - n)) f) n = num B f n := num_congr fun p hp => overlay_of_not (by omega)
    have hhigh : num B (fun p => overlay n l (fun p => d (p - n)) f (n + p)) l = num B d l := by
      refine num_congr fun p hp => ?_
      rw [overlay_of_mem (by omega), Nat.add_sub_cancel_left]
    rw [hlow, hhigh]
  have hlow : num B f n < B ^ n := num_lt hB fun p hp => h.below p (by omega)
  have hsmall : q < B := by
    have hwindow := h.window_lt
    rw [hq, Nat.mul_comm D B] at hwindow
    refine Nat.lt_of_mul_lt_mul_right (a := D) ?_
    omega
  refine ⟨fun p hp => ?_, fun p hp hm => ?_, ?_, ?_⟩
  · by_cases hin : n ≤ p ∧ p < n + l
    · rw [overlay_of_mem hin]
      exact hd _ (by omega)
    · rw [overlay_of_not hin]
      exact h.below p (by omega)
  · by_cases e : p = n
    · rw [e, Function.update_self]
      exact hsmall
    · rw [Function.update_of_ne e]
      exact h.quo_below p (by omega) hm
  · rw [hnum]
    have hstep := Nat.mul_le_mul_left (B ^ n) (Nat.succ_le_of_lt hr)
    rw [Nat.mul_succ] at hstep
    calc num B f n + B ^ n * num B d l < B ^ n * num B d l + B ^ n := by omega
      _ ≤ B ^ n * D := hstep
      _ = D * B ^ n := Nat.mul_comm _ _
  · have hquo : num B (fun p => Function.update g n q (n + p)) (m - n) = q + B * num B (fun p => g (n + 1 + p)) (m - (n + 1)) := by
      rw [show m - n = 1 + (m - (n + 1)) by omega, num_add, num_succ, num_zero]
      have hhigh : ∀ p < m - (n + 1), Function.update g n q (n + (1 + p)) = g (n + 1 + p) := fun p _ => by
        rw [Function.update_of_ne (by omega), Nat.add_assoc]
      rw [num_congr hhigh, Nat.add_zero, Function.update_self]
      ring
    rw [hquo, hnum, h.value, show l + (n + 1) = n + (l + 1) by omega, num_add, hq]
    ring

theorem result (h : Divides B A D l m 0 f g) : num B g m = A / D ∧ num B f l = A % D := by
  have hlt : num B f l < D := by simpa using h.lt
  have hvalue : A = num B f l + D * num B g m := by simpa using h.value
  have hD : 0 < D := Nat.lt_of_le_of_lt (Nat.zero_le _) hlt
  constructor
  · rw [hvalue, Nat.add_mul_div_left _ _ hD, Nat.div_eq_of_lt hlt, Nat.zero_add]
  · rw [hvalue, Nat.add_mul_mod_self_left, Nat.mod_eq_of_lt hlt]

end Divides

/-! ## Bits -/

/-- A bitwise operation on numbers is one on their digits to a power of two. -/
theorem num_bitwise {o : Bool → Bool → Bool} (ho : o false false = false) {b : Nat} (hf : ∀ q, f q < 2 ^ b)
    (hg : ∀ q, g q < 2 ^ b) :
    num (2 ^ b) (fun q => Nat.bitwise o (f q) (g q)) n = Nat.bitwise o (num (2 ^ b) f n) (num (2 ^ b) g n) := by
  induction n with
  | zero =>
    rw [num_zero, num_zero, num_zero, Nat.bitwise_zero_left]
    split <;> rfl
  | succ n ih =>
    have hsplit : ∀ u : Nat → Nat, num (2 ^ b) u (n + 1) = 2 ^ (b * n) * u n + num (2 ^ b) u n := by
      intro u
      rw [num_succ, ← Nat.pow_mul, Nat.add_comm, Nat.mul_comm]
    have hlow : ∀ u : Nat → Nat, (∀ q, u q < 2 ^ b) → num (2 ^ b) u n < 2 ^ (b * n) := by
      intro u hu
      rw [Nat.pow_mul]
      exact num_lt (Nat.two_pow_pos b) fun q _ => hu q
    rw [hsplit, hsplit, hsplit, ih]
    refine Nat.eq_of_testBit_eq fun i => ?_
    rw [Nat.testBit_two_pow_mul_add _ (Nat.bitwise_lt_two_pow (hlow f hf) (hlow g hg)), Nat.testBit_bitwise ho,
      Nat.testBit_bitwise ho, Nat.testBit_bitwise ho, Nat.testBit_two_pow_mul_add _ (hlow f hf),
      Nat.testBit_two_pow_mul_add _ (hlow g hg)]
    split <;> rfl

end PythonUltra.Lib.Digits
