/-
  PythonUltra.Lib.TwosComplement — integers as infinite rows of bits.

  `ofPattern m a s` is the integer whose low `m` bits are those of `a` and whose higher
  bits are all `s`. A bitwise operation on integers is one on the patterns and on the
  bits above (`bitwise_ofPattern`).
-/

import Mathlib.Data.Int.Bitwise

namespace PythonUltra.Lib.TwosComplement

variable {m a b : Nat} {s t : Bool}

theorem testBit_far (x y : Nat) : x.testBit (x + y) = false ∧ y.testBit (x + y) = false :=
  ⟨Nat.testBit_lt_two_pow (Nat.lt_of_le_of_lt (Nat.le_add_right x y) Nat.lt_two_pow_self),
    Nat.testBit_lt_two_pow (Nat.lt_of_le_of_lt (Nat.le_add_left y x) Nat.lt_two_pow_self)⟩

theorem eq_of_testBit {x y : Int} (h : ∀ i, x.testBit i = y.testBit i) : x = y := by
  cases x with
  | ofNat x =>
    cases y with
    | ofNat y => exact congrArg Int.ofNat (Nat.eq_of_testBit_eq h)
    | negSucc y =>
      have hbit := h (x + y)
      change x.testBit (x + y) = !y.testBit (x + y) at hbit
      rw [(testBit_far x y).1, (testBit_far x y).2] at hbit
      exact absurd hbit (by decide)
  | negSucc x =>
    cases y with
    | ofNat y =>
      have hbit := h (x + y)
      change (!x.testBit (x + y)) = y.testBit (x + y) at hbit
      rw [(testBit_far x y).1, (testBit_far x y).2] at hbit
      exact absurd hbit (by decide)
    | negSucc y => exact congrArg Int.negSucc (Nat.eq_of_testBit_eq fun i => Bool.not_inj (h i))

/-- The integer with the low bits of `a`, and `s` above them. -/
def ofPattern (m a : Nat) (s : Bool) : Int := if s then (a : Int) - 2 ^ m else a

theorem testBit_ofPattern (ha : a < 2 ^ m) (i : Nat) : (ofPattern m a s).testBit i = if i < m then a.testBit i else s := by
  cases s with
  | false =>
    show a.testBit i = _
    split
    · rfl
    · exact Nat.testBit_lt_two_pow (Nat.lt_of_lt_of_le ha (Nat.pow_le_pow_right (by decide) (by omega)))
  | true =>
    have hneg : ofPattern m a true = Int.negSucc (2 ^ m - (a + 1)) := by
      show (a : Int) - 2 ^ m = _
      have hpow : ((2 ^ m : Nat) : Int) = 2 ^ m := Nat.cast_pow 2 m
      omega
    rw [hneg]
    show (!(2 ^ m - (a + 1)).testBit i) = _
    rw [Nat.testBit_two_pow_sub_succ ha]
    split
    · rw [decide_eq_true ‹_›, Bool.true_and, Bool.not_not]
    · rw [decide_eq_false ‹_›, Bool.false_and, Bool.not_false]

theorem bitwise_ofPattern {f : Bool → Bool → Bool} (hf : f false false = false) (ha : a < 2 ^ m) (hb : b < 2 ^ m) :
    Int.bitwise f (ofPattern m a s) (ofPattern m b t) = ofPattern m (Nat.bitwise f a b) (f s t) := by
  refine eq_of_testBit fun i => ?_
  rw [Int.testBit_bitwise, testBit_ofPattern ha, testBit_ofPattern hb, testBit_ofPattern (Nat.bitwise_lt_two_pow ha hb),
    Nat.testBit_bitwise hf]
  split <;> rfl

theorem xor_mask (ha : a < 2 ^ m) : a ^^^ (2 ^ m - 1) = 2 ^ m - 1 - a := by
  refine Nat.eq_of_testBit_eq fun i => ?_
  rw [Nat.testBit_xor, Nat.testBit_two_pow_sub_one, Nat.sub_sub, Nat.add_comm 1 a, Nat.testBit_two_pow_sub_succ ha]
  by_cases hi : i < m
  · rw [decide_eq_true hi, Bool.true_and, Bool.xor_true]
  · have hbit : a.testBit i = false := Nat.testBit_lt_two_pow (Nat.lt_of_lt_of_le ha (Nat.pow_le_pow_right (by decide) (by omega)))
    rw [decide_eq_false hi, hbit]
    rfl

end PythonUltra.Lib.TwosComplement
