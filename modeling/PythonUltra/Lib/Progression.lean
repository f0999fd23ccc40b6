/-
  PythonUltra.Lib.Progression — an arithmetic progression up to a limit.

  `count` is how many of `start`, `start + step`, .. come before `stop`, downwards when
  the step is negative; `terms` are the first of them.
-/

import Mathlib.Algebra.Order.Ring.Int
import Mathlib.Data.List.Range
import Mathlib.Tactic.Linarith
import Mathlib.Tactic.Ring

namespace PythonUltra.Lib.Progression

def count (start stop step : Int) : Nat :=
  if 0 < step then ((stop - start + step - 1) / step).toNat else ((start - stop - step - 1) / -step).toNat

def term (start step : Int) (n : Nat) : Int := start + n * step

def terms (start step : Int) (n : Nat) : List Int := (List.range n).map (term start step)

variable {start stop step : Int} {n : Nat}

theorem lt_ediv_round {d k : Int} (hk : 0 < k) : n < ((d + k - 1) / k).toNat ↔ n * k < d := by
  rw [Int.lt_toNat, Int.lt_iff_add_one_le, Int.le_ediv_iff_mul_le hk, add_mul, one_mul]
  constructor <;> intro h <;> linarith

theorem lt_count_up (hstep : 0 < step) : n < count start stop step ↔ term start step n < stop := by
  rw [count, if_pos hstep, lt_ediv_round hstep, term]
  constructor <;> intro h <;> linarith

theorem lt_count_down (hstep : step < 0) : n < count start stop step ↔ stop < term start step n := by
  have hround := @lt_ediv_round n (start - stop) (-step) (by omega)
  rw [count, if_neg (by omega), term]
  rw [show start - stop - step - 1 = start - stop + -step - 1 by ring, hround, mul_neg]
  constructor <;> intro h <;> linarith

@[simp] theorem term_zero (start step : Int) : term start step 0 = start := by simp [term]

theorem term_succ (start step : Int) (n : Nat) : term start step (n + 1) = term start step n + step := by
  unfold term
  push_cast
  ring

@[simp] theorem terms_zero (start step : Int) : terms start step 0 = [] := rfl

@[simp] theorem length_terms (start step : Int) (n : Nat) : (terms start step n).length = n := by simp [terms]

theorem terms_succ (start step : Int) (n : Nat) : terms start step (n + 1) = terms start step n ++ [term start step n] := by
  rw [terms, List.range_succ, List.map_append]
  rfl

theorem getElem?_terms (start step : Int) (n i : Nat) : (terms start step n)[i]? = if i < n then some (term start step i) else none := by
  rw [terms, List.getElem?_map]
  by_cases hi : i < n
  · rw [List.getElem?_range hi, if_pos hi]
    rfl
  · rw [List.getElem?_eq_none (by simpa using hi), if_neg hi]
    rfl

theorem mem_terms {v : Int} : v ∈ terms start step n ↔ ∃ i < n, v = term start step i := by
  simp [terms, eq_comm]

theorem count_self (hstep : step ≠ 0) : count start start step = 0 := by
  apply Nat.eq_zero_of_not_pos
  intro h
  rcases lt_or_gt_of_ne hstep with hneg | hpos
  · rw [lt_count_down hneg, term_zero] at h
    exact lt_irrefl _ h
  · rw [lt_count_up hpos, term_zero] at h
    exact lt_irrefl _ h

theorem count_eq_one_iff (hstep : step ≠ 0) :
    count start stop step = 1 ↔ (0 < step ∧ start < stop ∧ stop ≤ start + step) ∨ (step < 0 ∧ stop < start ∧ start + step ≤ stop) := by
  have hone : count start stop step = 1 ↔ 0 < count start stop step ∧ ¬ 1 < count start stop step := by omega
  have hnext : term start step 1 = start + step := by simp [term]
  rw [hone]
  rcases lt_or_gt_of_ne hstep with hneg | hpos
  · rw [lt_count_down hneg, lt_count_down hneg, term_zero, hnext]
    omega
  · rw [lt_count_up hpos, lt_count_up hpos, term_zero, hnext]
    omega

theorem term_scale (start step a k : Int) (n : Nat) : term (start + a * step) (k * step) n = start + term a k n * step := by
  unfold term
  ring

theorem map_terms (start step a k : Int) (n : Nat) : (terms a k n).map (fun i => start + i * step) = terms (start + a * step) (k * step) n := by
  rw [terms, terms, List.map_map]
  apply List.map_congr_left
  intro i _
  exact (term_scale start step a k i).symm

theorem count_scale {start step a b k : Int} (hstep : step ≠ 0) (hk : k ≠ 0) :
    count (start + a * step) (start + b * step) (k * step) = count a b k := by
  apply eq_of_forall_lt_iff
  intro n
  rcases lt_or_gt_of_ne hstep with hneg | hpos
  · rcases lt_or_gt_of_ne hk with hk | hk
    · rw [lt_count_up (mul_pos_of_neg_of_neg hk hneg), lt_count_down hk, term_scale, Int.add_lt_add_iff_left, mul_lt_mul_right_of_neg hneg]
    · rw [lt_count_down (mul_neg_of_pos_of_neg hk hneg), lt_count_up hk, term_scale, Int.add_lt_add_iff_left, mul_lt_mul_right_of_neg hneg]
  · rcases lt_or_gt_of_ne hk with hk | hk
    · rw [lt_count_down (mul_neg_of_neg_of_pos hk hpos), lt_count_down hk, term_scale, Int.add_lt_add_iff_left, mul_lt_mul_iff_left₀ hpos]
    · rw [lt_count_up (mul_pos hk hpos), lt_count_up hk, term_scale, Int.add_lt_add_iff_left, mul_lt_mul_iff_left₀ hpos]

/-- Two progressions are the same when they have as many terms, the first ones are the
same and so are the second ones. -/
theorem terms_eq_iff {start' step' : Int} {n' : Nat} :
    terms start step n = terms start' step' n' ↔ n = n' ∧ (n = 0 ∨ start = start' ∧ (n = 1 ∨ step = step')) := by
  constructor
  · intro h
    have hlength := congrArg List.length h
    rw [length_terms, length_terms] at hlength
    subst hlength
    have hat : ∀ i < n, term start step i = term start' step' i := by
      intro i hi
      have := congrArg (fun l : List Int => l[i]?) h
      simpa only [getElem?_terms, if_pos hi, Option.some.injEq] using this
    refine ⟨rfl, ?_⟩
    rcases Nat.eq_zero_or_pos n with hzero | hpos
    · exact .inl hzero
    · have hfirst := hat 0 hpos
      rw [term_zero, term_zero] at hfirst
      refine .inr ⟨hfirst, ?_⟩
      rcases Nat.lt_or_ge 1 n with hmany | hone
      · have hsecond := hat 1 hmany
        unfold term at hsecond
        exact .inr (by omega)
      · exact .inl (by omega)
  · rintro ⟨rfl, rfl | ⟨rfl, rfl | rfl⟩⟩
    · rfl
    · simp [terms]
    · rfl

end PythonUltra.Lib.Progression
