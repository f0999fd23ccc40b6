/-
  PythonUltra.Numpy.Rational — numbers for the elements of an array, with rational numbers for
  floats (ports/sh/modules/numpy/__init__.py).
-/

import Mathlib.Algebra.Order.Ring.Rat
import Mathlib.Data.Rat.Floor
import PythonUltra.Numpy.Operations

namespace PythonUltra.Numpy

inductive Dtype where
  | int
  | float
  | bool
  deriving DecidableEq

/-- Numbers whose floats are exact. -/
def ratNums : Reals ℚ Dtype where
  ofInt i := i
  add x y := .ok (x + y)
  sub x y := .ok (x - y)
  mul x y := .ok (x * y)
  neg x := .ok (-x)
  lt x y := .ok (decide (x < y))
  eq x y := decide (x = y)
  convert
    | .int, x => .ok (if 0 ≤ x then ⌊x⌋ else ⌈x⌉)
    | .float, x => .ok x
    | .bool, x => .ok (if x = 0 then 0 else 1)
  real i := i
  truediv x y := if y = 0 then .error .zeroDivisionError else .ok (x / y)
  float := .float

theorem ratNums_abs (x : ℚ) : ratNums.toNums.abs x = .ok |x| := by
  have hlt : ratNums.lt x (ratNums.ofInt 0) = .ok (decide (x < 0)) := by
    show Except.ok (decide (x < ((0 : Int) : ℚ))) = _
    rw [Int.cast_zero]
  rw [Nums.abs, hlt]
  show (if decide (x < 0) = true then Except.ok (-x) else Except.ok x) = _
  by_cases h : x < 0
  · rw [if_pos (decide_eq_true h), abs_of_neg h]
  · rw [if_neg (by rw [decide_eq_true_iff]; exact h), abs_of_nonneg (not_lt.mp h)]

end PythonUltra.Numpy
