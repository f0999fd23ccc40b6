/-
  PythonUltra.Py.Range — ranges (py/objrange.c), on a machine with words of 32 bits.

  The length, the iterator, the subscript and the slices of a range are each computed on
  their own, with words that wrap; values are given out as small ints, of 31 bits. Each is
  compared with the arithmetic progression from `start` by `step` up to `stop`
  (`range_compared`). They agree as long as the span, which is `stop - start` rounded up to
  whole steps, fits a word, and with it what each of them computes beyond that.
-/

import Mathlib.Algebra.Order.Ring.Abs
import PythonUltra.Py.Sequence

open PythonUltra.Lib.CMem PythonUltra.Lib.Progression PythonUltra.Py.Slice PythonUltra.Py.Sequence

namespace PythonUltra.Py.Range

/-! ## The code -/

/-- `mp_obj_range_t`, and with `start` for `cur` `mp_obj_range_it_t` -/
structure RangeObj where
  start : Int
  stop : Int
  step : Int
  deriving DecidableEq

/-- What `MP_OBJ_SMALL_INT_VALUE` reads from `MP_OBJ_NEW_SMALL_INT(n)`. -/
def newSmallInt (n : Int) : Int := (n + 1073741824) % 2147483648 - 1073741824

/-- `range_len` -/
def rangeLen (self : RangeObj) : Int :=
  let len := i32 (i32 (self.stop - self.start) + self.step)
  let len := if self.step > 0 then i32 (len - 1) else i32 (len + 1)
  let len := i32 (len.tdiv self.step)
  if len < 0 then 0 else len

/-- `range_unary_op`: `bool(self)` -/
def rangeBool (self : RangeObj) : Bool := rangeLen self > 0

/-- `range_unary_op`: `len(self)` -/
def rangeLenOp (self : RangeObj) : Int := newSmallInt (rangeLen self)

/-- `range_it_iternext`: the value and the iterator after it -/
def rangeItIternext (o : RangeObj) : Option (Int × RangeObj) :=
  if (o.step > 0 ∧ o.start < o.stop) ∨ (o.step < 0 ∧ o.start > o.stop) then
    some (newSmallInt o.start, { o with start := i32 (o.start + o.step) })
  else none

/-- A loop over the range, with what it has had so far. none: out of turns. -/
def iterate : Nat → RangeObj → List Int → Option (List Int)
  | 0, _, _ => none
  | fuel + 1, o, out =>
    match rangeItIternext o with
    | none => some out
    | some (v, o) => iterate fuel o (out ++ [v])

/-- `range_binary_op`: `lhs == rhs` -/
def rangeEq (lhs rhs : RangeObj) : Bool :=
  rangeLen lhs == rangeLen rhs &&
    (rangeLen lhs == 0 || (lhs.start == rhs.start && (rangeLen lhs == 1 || lhs.step == rhs.step)))

/-- `range_subscr`: `self[index]` -/
def rangeSubscr (self : RangeObj) (index : Int) : Except Err Int := do
  let indexVal ← mpGetIndex "range" (rangeLen self) index
  return newSmallInt (i32 (self.start + i32 (indexVal * self.step)))

/-- `range_subscr`: `self[slice]` -/
def rangeSlice (self : RangeObj) (slice : SliceObj) : Except Exc RangeObj := do
  let (slice, _) ← mpSeqGetFastSliceIndexes (rangeLen self) slice
  let start := i32 (self.start + i32 (slice.start * self.step))
  let stop := i32 (self.start + i32 (slice.stop * self.step))
  let step := i32 (slice.step * self.step)
  return ⟨start, if slice.step < 0 then i32 (stop - self.step) else stop, step⟩

/-! ## The progression -/

namespace RangeObj

/-- The words of a range, as `range_make_new` has them. -/
structure Valid (r : RangeObj) : Prop where
  start : IsWord r.start
  stop : IsWord r.stop
  step : IsWord r.step
  step_ne : r.step ≠ 0

def length (r : RangeObj) : Nat := count r.start r.stop r.step

def values (r : RangeObj) : List Int := terms r.start r.step r.length

/-- From the start to the stop, rounded up to whole steps. -/
def span (r : RangeObj) : Int := if 0 < r.step then r.stop - r.start + r.step - 1 else r.stop - r.start + r.step + 1

/-- The span and the length are words. There is one other range whose length is right: of
an empty one two wraps cancel. -/
def LenFits (r : RangeObj) : Prop := (IsWord r.span ∧ r.length ≤ 2147483647) ∨ (r.span = 2147483648 ∧ r.step = -1)

end RangeObj

/-! ## The length -/

variable {r : RangeObj}

/-- How many whole steps there are in `y`, none if it goes the other way. -/
def steps (step y : Int) : Nat := if 0 < step then (y / step).toNat else (-y / -step).toNat

theorem length_eq (r : RangeObj) : r.length = steps r.step r.span := by
  unfold RangeObj.length count steps RangeObj.span
  split
  · rfl
  · rw [show -(r.stop - r.start + r.step + 1) = r.start - r.stop - r.step - 1 by omega]

theorem steps_pos {step y : Int} (hstep : step ≠ 0) : 0 < steps step y ↔ if 0 < step then step ≤ y else y ≤ step := by
  unfold steps
  split
  · rename_i h
    rw [Int.lt_toNat, Int.natCast_zero, Int.lt_iff_add_one_le, Int.le_ediv_iff_mul_le h]
    omega
  · rw [Int.lt_toNat, Int.natCast_zero, Int.lt_iff_add_one_le, Int.le_ediv_iff_mul_le (by omega)]
    omega

/-- They make up no more than `y`. -/
theorem steps_mul_le {step y : Int} (hstep : step ≠ 0) (hpos : 0 < steps step y) :
    if 0 < step then steps step y * step ≤ y else y ≤ steps step y * step := by
  unfold steps at *
  split
  · rename_i h
    rw [if_pos h] at hpos
    rw [Int.toNat_of_nonneg (by omega)]
    exact Int.ediv_mul_le y hstep
  · rename_i h
    rw [if_neg h] at hpos
    rw [Int.toNat_of_nonneg (by omega)]
    have := Int.ediv_mul_le (-y) (show -step ≠ 0 by omega)
    linarith

theorem steps_le {step y : Int} (hstep : step ≠ 0) (hpos : 0 < steps step y) : if 0 < step then steps step y ≤ y else steps step y ≤ -y := by
  have hmul := steps_mul_le hstep hpos
  split at hmul
  · rename_i h
    have : (steps step y : Int) * 1 ≤ steps step y * step := mul_le_mul_of_nonneg_left (by omega) (by omega)
    rw [if_pos h]
    omega
  · rename_i h
    have : (steps step y : Int) * 1 ≤ steps step y * -step := mul_le_mul_of_nonneg_left (by omega) (by omega)
    rw [if_neg h]
    linarith

theorem tdiv_clip {a d : Int} (hd : 0 < d) : max 0 (a.tdiv d) = ((a / d).toNat : Int) := by
  rcases le_or_gt 0 a with h | h
  · rw [Int.tdiv_eq_ediv_of_nonneg h]
    omega
  · have hneg := Int.ediv_neg_of_neg_of_pos h hd
    have htrunc : a.tdiv d ≤ 0 := by
      have := Int.tdiv_nonneg (show 0 ≤ -a by omega) hd.le
      rw [Int.neg_tdiv] at this
      omega
    omega

theorem steps_eq_tdiv {step a : Int} (hstep : step ≠ 0) : (steps step a : Int) = max 0 (a.tdiv step) := by
  unfold steps
  split
  · rename_i h
    exact (tdiv_clip h).symm
  · rw [← Int.neg_tdiv_neg, tdiv_clip (show 0 < -step by omega)]

theorem rangeLen_eq (hr : r.Valid) : rangeLen r = if steps r.step (i32 r.span) = 2147483648 then 0 else (steps r.step (i32 r.span) : Int) := by
  have hspan : (if r.step > 0 then i32 (i32 (i32 (r.stop - r.start) + r.step) - 1) else i32 (i32 (i32 (r.stop - r.start) + r.step) + 1)) =
      i32 r.span := by
    unfold RangeObj.span i32
    clear * -
    split <;> omega
  have hquot := @steps_eq_tdiv r.step (i32 r.span) hr.step_ne
  have hrange : -2147483648 ≤ i32 r.span ∧ i32 r.span ≤ 2147483647 := by
    unfold i32
    omega
  have hsmaller := Int.natAbs_tdiv_le_natAbs (i32 r.span) r.step
  simp only [rangeLen, hspan]
  generalize (i32 r.span).tdiv r.step = q at hquot hsmaller
  clear hspan
  by_cases hmost : q = 2147483648
  · rw [if_pos (show i32 q < 0 by unfold i32; omega), if_pos (show steps r.step (i32 r.span) = 2147483648 by omega)]
  · rw [i32_of_range (by omega) (by omega), if_neg (show ¬ steps r.step (i32 r.span) = 2147483648 by omega)]
    split <;> omega

theorem rangeLen_of_fits (hr : r.Valid) (h : r.LenFits) : rangeLen r = r.length := by
  rw [rangeLen_eq hr, length_eq]
  rcases h with ⟨hword, hlength⟩ | ⟨hspan, hstep⟩
  · rw [length_eq] at hlength
    rw [i32_of_range hword.1 hword.2, if_neg (by omega)]
  · rw [hspan, hstep]
    rfl

/-- Another is that of an empty range, and that of an empty range is not. -/
theorem rangeLen_of_not (hr : r.Valid) (h : ¬ r.LenFits) : (0 < r.length ∧ rangeLen r = 0) ∨ (r.length = 0 ∧ 0 < rangeLen r) := by
  have hpos := @steps_pos r.step r.span hr.step_ne
  have hpos' := @steps_pos r.step (i32 r.span) hr.step_ne
  rw [rangeLen_eq hr]
  obtain ⟨⟨h1, h2⟩, ⟨h3, h4⟩, ⟨h5, h6⟩, hne⟩ := hr
  unfold RangeObj.LenFits IsWord at h
  rw [length_eq] at h ⊢
  obtain ⟨hlong, hpast⟩ := not_or.mp h
  clear h
  have hspan : r.span = if 0 < r.step then r.stop - r.start + r.step - 1 else r.stop - r.start + r.step + 1 := rfl
  by_cases hup : 0 < r.step
  · simp only [if_pos hup] at hpos hpos' hspan
    rcases Nat.eq_zero_or_pos (steps r.step r.span) with hzero | hsome
    · have hlow : r.span < r.step := Int.not_le.mp fun hle => Nat.ne_of_gt (hpos.mpr hle) hzero
      have hout : r.span < -2147483648 := by
        by_contra hge
        exact hlong ⟨⟨Int.not_lt.mp hge, Int.le_trans (Int.le_of_lt hlow) h6⟩, by rw [hzero]; decide⟩
      have hwrap := i32_below (x := r.span) (by clear * - hspan h2 h3 hup; omega) hout
      have hsome : 0 < steps r.step (i32 r.span) := hpos'.mpr (by rw [hwrap]; clear * - hspan h2 h3; omega)
      have hmost : ¬ steps r.step (i32 r.span) = 2147483648 := by
        intro hmost
        have hle := steps_le hne hsome
        rw [if_pos hup, hmost, hwrap] at hle
        clear * - hle hout
        omega
      rw [if_neg hmost]
      exact .inr ⟨hzero, Int.natCast_pos.mpr hsome⟩
    · have hle := steps_le hne hsome
      rw [if_pos hup] at hle
      have hout : 2147483648 ≤ r.span := by
        by_contra hlt
        refine hlong ⟨⟨?_, ?_⟩, ?_⟩
        all_goals clear * - hle hlt
        all_goals omega
      have hwrap := i32_above hout (by clear * - hspan h1 h4 h6; omega)
      have hnone : steps r.step (i32 r.span) = 0 := by
        refine Nat.eq_zero_of_not_pos fun hsome => ?_
        have hle := hpos'.mp hsome
        rw [hwrap] at hle
        clear * - hle hspan h1 h4
        omega
      rw [hnone]
      exact .inl ⟨hsome, rfl⟩
  · simp only [if_neg hup] at hpos hpos' hspan
    rcases Nat.eq_zero_or_pos (steps r.step r.span) with hzero | hsome
    · have hhigh : r.step < r.span := Int.not_le.mp fun hle => Nat.ne_of_gt (hpos.mpr hle) hzero
      have hout : 2147483648 ≤ r.span := by
        by_contra hlt
        exact hlong ⟨⟨Int.le_trans h5 (Int.le_of_lt hhigh), Int.le_of_lt_add_one (Int.not_le.mp hlt)⟩, by rw [hzero]; decide⟩
      have hwrap := i32_above hout (by clear * - hspan h1 h4 hup; omega)
      have hsome : 0 < steps r.step (i32 r.span) := hpos'.mpr (by rw [hwrap]; clear * - hspan h1 h4; omega)
      have hmost : ¬ steps r.step (i32 r.span) = 2147483648 := by
        intro hmost
        have hle := steps_le hne hsome
        have hmul := steps_mul_le hne hsome
        rw [if_neg hup, hmost, hwrap] at hle hmul
        refine hpast ⟨?_, ?_⟩
        all_goals clear * - hle hmul hup hne hout
        all_goals omega
      rw [if_neg hmost]
      exact .inr ⟨hzero, Int.natCast_pos.mpr hsome⟩
    · have hlow := hpos.mp hsome
      by_cases hword : -2147483648 ≤ r.span
      · have hle := steps_le hne hsome
        rw [if_neg hup] at hle
        have hsmall : r.span ≤ 2147483647 := by
          clear * - hlow hup
          omega
        have hmost : steps r.step r.span = 2147483648 := by
          have hnot : ¬ steps r.step r.span ≤ 2147483647 := fun hle => hlong ⟨⟨hword, hsmall⟩, hle⟩
          clear * - hnot hle hword
          omega
        rw [i32_of_range hword hsmall, if_pos hmost]
        exact .inl ⟨hsome, rfl⟩
      · have hwrap := i32_below (x := r.span) (by clear * - hspan h2 h3 h5; omega) (Int.not_le.mp hword)
        have hnone : steps r.step (i32 r.span) = 0 := by
          refine Nat.eq_zero_of_not_pos fun hsome => ?_
          have hle := hpos'.mp hsome
          rw [hwrap] at hle
          clear * - hle hspan h2 h3
          omega
        rw [hnone]
        exact .inl ⟨hsome, rfl⟩

/-- The range of small ints. -/
def Small (v : Int) : Prop := -1073741824 ≤ v ∧ v < 1073741824

theorem newSmallInt_eq_iff {v : Int} : newSmallInt v = v ↔ Small v := by
  unfold newSmallInt Small
  omega

theorem rangeLen_le (r : RangeObj) : rangeLen r ≤ 2147483647 := by
  unfold rangeLen i32
  dsimp only
  split <;> omega

theorem length_le_word (h : r.LenFits) (hr : r.Valid) : r.length ≤ 2147483647 := by
  have hlen := rangeLen_of_fits hr h
  have hword := rangeLen_le r
  omega

theorem len_iff (hr : r.Valid) : rangeLenOp r = r.length ↔ r.LenFits ∧ r.length < 1073741824 := by
  unfold rangeLenOp
  constructor
  · intro h
    have hsmall : r.length < 1073741824 := by
      unfold newSmallInt at h
      omega
    refine ⟨?_, hsmall⟩
    by_contra hfits
    have hword := rangeLen_le r
    unfold newSmallInt at h
    rcases rangeLen_of_not hr hfits with ⟨hsome, hzero⟩ | ⟨hzero, hsome⟩ <;> omega
  · rintro ⟨hfits, hsmall⟩
    rw [rangeLen_of_fits hr hfits, newSmallInt_eq_iff]
    unfold Small
    omega

theorem bool_iff (hr : r.Valid) : rangeBool r = decide (0 < r.length) ↔ r.LenFits := by
  constructor
  · intro h
    by_contra hfits
    unfold rangeBool at h
    rcases rangeLen_of_not hr hfits with ⟨hsome, hzero⟩ | ⟨hzero, hsome⟩
    · rw [decide_eq_decide] at h
      omega
    · rw [decide_eq_decide] at h
      omega
  · intro hfits
    rw [rangeBool, rangeLen_of_fits hr hfits, decide_eq_decide]
    omega

/-! ## The iterator -/

/-- The values are in between the start and the stop. -/
theorem term_word (hr : r.Valid) {n : Nat} (hn : n < r.length) : IsWord (term r.start r.step n) := by
  obtain ⟨⟨h1, h2⟩, ⟨h3, h4⟩, -, hne⟩ := hr
  unfold RangeObj.length at hn
  unfold IsWord
  rcases lt_or_gt_of_ne hne with hneg | hpos
  · rw [lt_count_down hneg] at hn
    have : n * r.step ≤ 0 := mul_nonpos_of_nonneg_of_nonpos (by omega) (by omega)
    unfold term at *
    omega
  · rw [lt_count_up hpos] at hn
    have : 0 ≤ n * r.step := mul_nonneg (by omega) (by omega)
    unfold term at *
    omega

theorem iternext_iff (hne : r.step ≠ 0) {n : Nat} :
    ((r.step > 0 ∧ term r.start r.step n < r.stop) ∨ (r.step < 0 ∧ term r.start r.step n > r.stop)) ↔ n < r.length := by
  unfold RangeObj.length
  rcases lt_or_gt_of_ne hne with hneg | hpos
  · rw [lt_count_down hneg]
    omega
  · rw [lt_count_up hpos]
    omega

/-- The iterator at its value `n`. -/
def iterAt (r : RangeObj) (n : Nat) : RangeObj := { r with start := i32 (term r.start r.step n) }

theorem turns_spec (hr : r.Valid) (fuel n k : Nat) (hle : n + k ≤ r.length) :
    iterate (k + fuel) (iterAt r n) ((terms r.start r.step n).map newSmallInt) =
      iterate fuel (iterAt r (n + k)) ((terms r.start r.step (n + k)).map newSmallInt) := by
  induction k generalizing n with
  | zero => rw [Nat.zero_add, Nat.add_zero]
  | succ k ih =>
    have hword := term_word hr (show n < r.length by omega)
    have hstart : i32 (term r.start r.step n) = term r.start r.step n := i32_of_range hword.1 hword.2
    have hnext : rangeItIternext (iterAt r n) = some (newSmallInt (term r.start r.step n), iterAt r (n + 1)) := by
      unfold rangeItIternext iterAt
      rw [hstart, if_pos ((iternext_iff hr.step_ne).mpr (by omega)), ← term_succ]
    have hout : (terms r.start r.step n).map newSmallInt ++ [newSmallInt (term r.start r.step n)] =
        (terms r.start r.step (n + 1)).map newSmallInt := by
      rw [terms_succ, List.map_append]
      rfl
    rw [Nat.add_right_comm, iterate, hnext]
    dsimp only
    rw [hout, ih (n + 1) (by omega), Nat.add_right_comm]
    rfl

theorem iterate_iff (hr : r.Valid) :
    (∀ fuel, r.length < fuel → iterate fuel r [] = some r.values) ↔
      (∀ v ∈ r.values, Small v) ∧ (r.length = 0 ∨ IsWord (term r.start r.step r.length)) := by
  have hfirst : iterAt r 0 = r := by
    unfold iterAt
    rw [term_zero, i32_of_range hr.start.1 hr.start.2]
  have hturns : ∀ fuel, iterate (r.length + fuel) r [] = iterate fuel (iterAt r r.length) (r.values.map newSmallInt) := by
    intro fuel
    have h := turns_spec hr fuel 0 r.length (by omega)
    rwa [hfirst, Nat.zero_add] at h
  have hsmall : r.values.map newSmallInt = r.values ↔ ∀ v ∈ r.values, Small v := by
    constructor
    · intro h v hv
      have hsame := List.map_inj_left.mp (h.trans (List.map_id _).symm) v hv
      exact newSmallInt_eq_iff.mp hsame
    · intro h
      exact (List.map_congr_left fun v hv => newSmallInt_eq_iff.mpr (h v hv)).trans (List.map_id _)
  by_cases hfits : r.length = 0 ∨ IsWord (term r.start r.step r.length)
  · have hend : rangeItIternext (iterAt r r.length) = none := by
      have hstart : i32 (term r.start r.step r.length) = term r.start r.step r.length := by
        rcases hfits with hzero | hword
        · rw [hzero, term_zero, i32_of_range hr.start.1 hr.start.2]
        · exact i32_of_range hword.1 hword.2
      unfold rangeItIternext iterAt
      rw [hstart, if_neg fun h => Nat.lt_irrefl _ ((iternext_iff hr.step_ne).mp h)]
    have hrun : ∀ fuel, r.length < fuel → iterate fuel r [] = some (r.values.map newSmallInt) := by
      intro fuel hfuel
      obtain ⟨more, rfl⟩ : ∃ more, fuel = r.length + (more + 1) := ⟨fuel - r.length - 1, by omega⟩
      rw [hturns, iterate, hend]
    constructor
    · intro h
      have hlast := (hrun (r.length + 1) (by omega)).symm.trans (h (r.length + 1) (by omega))
      exact ⟨hsmall.mp (Option.some.inj hlast), hfits⟩
    · rintro ⟨hall, -⟩ fuel hfuel
      rw [hrun fuel hfuel, hsmall.mpr hall]
  · -- the word after the last value is past the stop the other way round, and the loop goes on
    rw [not_or] at hfits
    have hmore : ∃ v o, rangeItIternext (iterAt r r.length) = some (v, o) := by
      obtain ⟨n, hn⟩ : ∃ n, r.length = n + 1 := ⟨r.length - 1, by omega⟩
      have hlast := (@iternext_iff r hr.step_ne n).mpr (by omega)
      have hword := term_word hr (show n < r.length by omega)
      have hnext := term_succ r.start r.step n
      rw [← hn] at hnext
      have hstep := hr.step
      have hover := hfits.2
      unfold rangeItIternext iterAt
      unfold IsWord at *
      refine ⟨_, _, if_pos ?_⟩
      unfold i32
      dsimp only
      omega
    obtain ⟨v, o, hmore⟩ := hmore
    constructor
    · intro h
      have hrun := h (r.length + 1) (by omega)
      rw [hturns, iterate, hmore] at hrun
      cases hrun
    · rintro ⟨-, hno⟩
      exact absurd hno (not_or.mpr hfits)

/-! ## The subscript -/

/-- `r[i]` is the value at `i`, or raises where there is none. -/
def IndexOk (r : RangeObj) (i : Int) : Prop :=
  match place r.length i with
  | some k => rangeSubscr r i = .ok (term r.start r.step k)
  | none => ∃ e, rangeSubscr r i = .error e

theorem rangeSubscr_value {i : Int} {k : Nat} (h : mpGetIndex "range" (rangeLen r) i = .ok k) :
    rangeSubscr r i = .ok (newSmallInt (term r.start r.step k)) := by
  have hwrap : newSmallInt (i32 (r.start + i32 (k * r.step))) = newSmallInt (term r.start r.step k) := by
    unfold newSmallInt i32 term
    omega
  rw [rangeSubscr, h, ← hwrap]
  rfl

theorem place_nat {len k : Nat} (h : k < len) : place len k = some k := by
  have hsame : SliceObj.fromEnd len k = k := if_neg (by omega)
  rw [place, hsame, if_pos (by omega)]
  rfl

theorem index_iff (hr : r.Valid) : (∀ i, IsWord i → IndexOk r i) ↔ r.LenFits ∧ ∀ v ∈ r.values, Small v := by
  have hlow : IsWord 0 := by decide
  constructor
  · intro h
    have hfits : r.LenFits := by
      by_contra hfits
      have hzero := h 0 hlow
      unfold IndexOk at hzero
      rcases rangeLen_of_not hr hfits with ⟨hsome, hnone⟩ | ⟨hnone, hsome⟩
      · rw [show (0 : Int) = (0 : Nat) from rfl, place_nat hsome] at hzero
        simp only [rangeSubscr, hnone] at hzero
        cases hzero
      · rw [hnone] at hzero
        have hplace : place 0 0 = none := rfl
        rw [hplace] at hzero
        obtain ⟨e, he⟩ := hzero
        have hget : mpGetIndex "range" (rangeLen r) 0 = .ok 0 := by
          unfold mpGetIndex mpObjGetInt
          rw [if_pos hlow]
          exact if_neg (by omega)
        rw [rangeSubscr_value hget] at he
        cases he
    refine ⟨hfits, fun v hv => ?_⟩
    obtain ⟨k, hk, rfl⟩ := mem_terms.mp hv
    have hword := length_le_word hfits hr
    have hat := h k (by unfold IsWord; omega)
    have hget := (@mpGetIndex_spec "range" r.length k hword).1 k (place_nat hk)
    unfold IndexOk at hat
    rw [place_nat hk] at hat
    rw [← rangeLen_of_fits hr hfits] at hget
    rw [rangeSubscr_value hget] at hat
    exact newSmallInt_eq_iff.mp (Except.ok.inj hat)
  · rintro ⟨hfits, hall⟩ i -
    have hget := @mpGetIndex_spec "range" r.length i (length_le_word hfits hr)
    rw [← rangeLen_of_fits hr hfits] at hget
    unfold IndexOk
    cases hplace : place r.length i with
    | some k =>
      have hsmall := hall _ (mem_terms.mpr ⟨k, place_lt hplace, rfl⟩)
      exact (rangeSubscr_value (hget.1 k hplace)).trans (congrArg Except.ok (newSmallInt_eq_iff.mpr hsmall))
    | none =>
      obtain ⟨e, he, -⟩ := hget.2 hplace
      exact ⟨e, by rw [rangeSubscr, he]; rfl⟩

/-! ## Equality -/

theorem rangeEq_of_fits {s : RangeObj} (hr : r.Valid) (hs : s.Valid) (hfits : r.LenFits) (hfits' : s.LenFits) :
    rangeEq r s = decide (r.values = s.values) := by
  unfold rangeEq RangeObj.values
  rw [rangeLen_of_fits hr hfits, rangeLen_of_fits hs hfits', Bool.eq_iff_iff, decide_eq_true_iff, terms_eq_iff]
  simp

/-- The range without a value. -/
def emptyRange : RangeObj := ⟨0, 0, 1⟩

theorem emptyRange_valid : emptyRange.Valid := ⟨by decide, by decide, by decide, by decide⟩

theorem eq_iff (hr : r.Valid) : (∀ s, s.Valid → s.LenFits → rangeEq r s = decide (r.values = s.values)) ↔ r.LenFits := by
  constructor
  · intro h
    by_contra hfits
    have hempty := h emptyRange emptyRange_valid (.inl (by decide))
    have hlen : rangeLen emptyRange = 0 := by decide
    have hvalues : emptyRange.values = [] := rfl
    unfold rangeEq at hempty
    rw [hlen, hvalues] at hempty
    rcases rangeLen_of_not hr hfits with ⟨hsome, hnone⟩ | ⟨hnone, hsome⟩
    · have hne : r.values ≠ [] := by
        intro hnil
        have := congrArg List.length hnil
        rw [RangeObj.values, length_terms] at this
        simp at this
        omega
      rw [hnone, decide_eq_false hne] at hempty
      cases hempty
    · have hnil : r.values = [] := by rw [RangeObj.values, hnone, terms_zero]
      have hfalse : (rangeLen r == 0) = false := beq_eq_false_iff_ne.mpr (by omega)
      rw [hfalse, decide_eq_true hnil] at hempty
      cases hempty
  · intro hfits s hs hfits'
    exact rangeEq_of_fits hr hs hfits hfits'

/-! ## Slices -/

/-- `r[slice]` is a range of the values that the slice selects. -/
def SliceOk (r : RangeObj) (slice : SliceObj) : Prop :=
  ∃ o, rangeSlice r slice = .ok o ∧ o.step ≠ 0 ∧ o.values = (slice.indices r.length).map fun i => r.start + i * r.step

/-- From `x` a step of `d` leads to `e` or past it. -/
def Reaches (x e d : Int) : Prop := (0 < d ∧ x < e ∧ e ≤ x + d) ∨ (d < 0 ∧ e < x ∧ x + d ≤ e)

/-- With no value selected, the step of the new range does not wrap to 0. With one, the new
step, as it wraps, leads from it past the new stop, as it wraps. With more, the new stop is a
word. -/
def SliceFits (r : RangeObj) (slice : SliceObj) : Prop :=
  match slice.size r.length with
  | 0 => i32 (slice.stride * r.step) ≠ 0
  | 1 => Reaches (r.start + slice.first r.length * r.step) (i32 (r.start + slice.limit r.length * r.step)) (i32 (slice.stride * r.step))
  | _ + 2 => IsWord (r.start + slice.limit r.length * r.step)

variable {slice : SliceObj}

/-- The stop of a slice that selects something, and of one that does not. -/
theorem sliceStop_eq (hslice : slice.Fits) {length : Int} (r : RangeObj) :
    r.start + fastStop slice length * r.step - (if slice.stride < 0 then r.step else 0) =
      if 0 < slice.size length then r.start + slice.limit length * r.step else r.start + slice.first length * r.step := by
  have hne := stride_ne_zero hslice
  unfold fastStop SliceObj.size
  rcases lt_or_gt_of_ne hne with hneg | hpos
  · rw [if_neg (by omega), if_pos hneg]
    have hiff := @lt_count_down (slice.first length) (slice.limit length) slice.stride 0 hneg
    rw [term_zero] at hiff
    by_cases hsome : slice.limit length < slice.first length
    · rw [if_pos (hiff.mpr hsome), min_eq_right (by omega)]
      ring
    · rw [if_neg fun h => hsome (hiff.mp h), min_eq_left (by omega)]
      ring
  · rw [if_pos hpos, if_neg (by omega)]
    have hiff := @lt_count_up (slice.first length) (slice.limit length) slice.stride 0 hpos
    rw [term_zero] at hiff
    by_cases hsome : slice.first length < slice.limit length
    · rw [if_pos (hiff.mpr hsome), max_eq_right (by omega)]
      ring
    · rw [if_neg fun h => hsome (hiff.mp h), max_eq_left (by omega)]
      ring

theorem rangeSlice_eq {n : Nat} (hlen : rangeLen r = n) (hn : n ≤ 2147483647) (hslice : slice.Fits) :
    rangeSlice r slice = .ok ⟨i32 (r.start + slice.first n * r.step),
      i32 (if 0 < slice.size n then r.start + slice.limit n * r.step else r.start + slice.first n * r.step), i32 (slice.stride * r.step)⟩ := by
  have hfast := @fastSlice_spec slice n ⟨by omega, by unfold IsWord; omega⟩ hslice
  have hstart : i32 (r.start + i32 (slice.first n * r.step)) = i32 (r.start + slice.first n * r.step) := by
    unfold i32
    omega
  have hstop : (if slice.stride < 0 then i32 (i32 (r.start + i32 (fastStop slice n * r.step)) - r.step)
      else i32 (r.start + i32 (fastStop slice n * r.step))) =
      i32 (r.start + fastStop slice n * r.step - if slice.stride < 0 then r.step else 0) := by
    split
    · unfold i32
      omega
    · unfold i32
      omega
  rw [sliceStop_eq hslice] at hstop
  simp only [rangeSlice, hlen, hfast, bind, Except.bind, hstart, hstop]
  rfl

theorem sliceOk_iff (hr : r.Valid) (hfits : r.LenFits) (hslice : slice.Fits) :
    SliceOk r slice ↔ i32 (slice.stride * r.step) ≠ 0 ∧
      (count (i32 (r.start + slice.first r.length * r.step)) (i32 (if 0 < slice.size r.length then r.start + slice.limit r.length * r.step
        else r.start + slice.first r.length * r.step)) (i32 (slice.stride * r.step)) = slice.size r.length ∧
      (slice.size r.length = 0 ∨ i32 (r.start + slice.first r.length * r.step) = r.start + slice.first r.length * r.step ∧
        (slice.size r.length = 1 ∨ i32 (slice.stride * r.step) = slice.stride * r.step))) := by
  have hvalues : (slice.indices r.length).map (fun i => r.start + i * r.step) =
      terms (r.start + slice.first r.length * r.step) (slice.stride * r.step) (slice.size r.length) := map_terms _ _ _ _ _
  unfold SliceOk
  rw [rangeSlice_eq (rangeLen_of_fits hr hfits) (length_le_word hfits hr) hslice, hvalues]
  constructor
  · rintro ⟨o, ho, hne, hall⟩
    cases ho
    refine ⟨hne, ?_⟩
    have h := terms_eq_iff.mp hall
    unfold RangeObj.length at h
    refine ⟨h.1, ?_⟩
    have h2 := h.2
    rw [h.1] at h2
    exact h2
  · rintro ⟨hne, hcount, hrest⟩
    refine ⟨_, rfl, hne, ?_⟩
    have hlen : RangeObj.length ⟨i32 (r.start + slice.first r.length * r.step), i32 (if 0 < slice.size r.length then
        r.start + slice.limit r.length * r.step else r.start + slice.first r.length * r.step), i32 (slice.stride * r.step)⟩ =
        slice.size r.length := hcount
    unfold RangeObj.values
    rw [hlen]
    exact terms_eq_iff.mpr ⟨rfl, hrest⟩

theorem length_mul_le (hr : r.Valid) (hfits : r.LenFits) (hsome : 0 < r.length) : r.length * |r.step| ≤ 2147483648 := by
  rcases hfits with ⟨⟨hlow, hhigh⟩, -⟩ | ⟨hspan, hstep⟩
  · have hmul := @steps_mul_le r.step r.span hr.step_ne (by rw [← length_eq]; exact hsome)
    rw [← length_eq] at hmul
    split at hmul
    · rename_i hup
      rw [abs_of_pos hup]
      omega
    · rename_i hup
      rw [abs_of_nonpos (by omega)]
      linarith
  · rw [length_eq, hspan, hstep] at hsome
    exact absurd hsome (by decide)

/-- A slice that selects something begins at a value, and goes no further than the range is long. -/
theorem slice_reach (hr : r.Valid) (hfits : r.LenFits) (hslice : slice.Fits) (hsome : 0 < slice.size r.length) :
    IsWord (r.start + slice.first r.length * r.step) ∧ |(slice.limit r.length - slice.first r.length) * r.step| ≤ 2147483648 := by
  have hstep := stride_ne_zero hslice
  obtain ⟨h0, hlt⟩ := @term_in_range slice r.length (by omega) hstep 0 hsome
  rw [term_zero] at h0 hlt
  constructor
  · have hword := @term_word r hr (slice.first r.length).toNat (by omega)
    unfold term at hword
    rwa [Int.toNat_of_nonneg h0] at hword
  · have hmul := length_mul_le hr hfits (by omega)
    have habs : |slice.limit r.length - slice.first r.length| ≤ r.length := by
      obtain ⟨hup, hdown⟩ := @first_limit slice r.length (by omega)
      rw [abs_le]
      rcases lt_or_gt_of_ne hstep with hneg | hpos
      · have := hdown hneg
        omega
      · have := hup hpos
        omega
    rw [abs_mul]
    have := mul_le_mul_of_nonneg_right habs (abs_nonneg r.step)
    omega

/-- Where two values are selected the step of the new range is a word. -/
theorem slice_step_word (hr : r.Valid) (hfits : r.LenFits) (hslice : slice.Fits) (hmany : 1 < slice.size r.length) :
    IsWord (slice.stride * r.step) := by
  have hstep := stride_ne_zero hslice
  obtain ⟨h0, hlt⟩ := @term_in_range slice r.length (by omega) hstep 0 (by omega)
  obtain ⟨h0', hlt'⟩ := @term_in_range slice r.length (by omega) hstep 1 hmany
  rw [term_zero] at h0 hlt
  unfold term at h0' hlt'
  have hmul := length_mul_le hr hfits (by omega)
  have habs : |slice.stride| ≤ r.length - 1 := by
    rw [abs_le]
    omega
  have hprod := mul_le_mul_of_nonneg_right habs (abs_nonneg r.step)
  rw [← abs_mul, sub_mul, one_mul] at hprod
  have hone := Int.one_le_abs hr.step_ne
  have hbounds := abs_le.mp hprod
  unfold IsWord
  omega

theorem slice_iff (hr : r.Valid) (hfits : r.LenFits) (hslice : slice.Fits) : SliceOk r slice ↔ SliceFits r slice := by
  rw [sliceOk_iff hr hfits hslice]
  unfold SliceFits
  cases hsize : slice.size r.length with
  | zero =>
    simp only [Nat.lt_irrefl, if_false, true_or, and_true]
    constructor
    · intro h
      exact h.1
    · intro h
      exact ⟨h, count_self h⟩
  | succ n =>
    obtain ⟨hword, hreach⟩ := slice_reach hr hfits hslice (show 0 < slice.size r.length by omega)
    rw [if_pos (Nat.succ_pos n), i32_of_range hword.1 hword.2]
    cases n with
    | zero =>
      dsimp only
      constructor
      · rintro ⟨hne, hcount, -⟩
        exact (count_eq_one_iff hne).mp hcount
      · intro h
        have hne : i32 (slice.stride * r.step) ≠ 0 := by
          unfold Reaches at h
          omega
        exact ⟨hne, (count_eq_one_iff hne).mpr h, .inr ⟨rfl, .inl rfl⟩⟩
    | succ n =>
      dsimp only
      have hstep := slice_step_word hr hfits hslice (show 1 < slice.size r.length by omega)
      have hne := mul_ne_zero (stride_ne_zero hslice) hr.step_ne
      have hcount : count (r.start + slice.first r.length * r.step) (r.start + slice.limit r.length * r.step) (slice.stride * r.step) = n + 1 + 1 := by
        rw [count_scale hr.step_ne (stride_ne_zero hslice)]
        exact hsize
      rw [i32_of_range hstep.1 hstep.2]
      constructor
      · rintro ⟨-, hwrapped, -⟩
        by_contra hover
        have hbounds := abs_le.mp hreach
        have hpos : 0 < count (r.start + slice.first r.length * r.step) (r.start + slice.limit r.length * r.step) (slice.stride * r.step) := by omega
        have hpos' : 0 < count (r.start + slice.first r.length * r.step) (i32 (r.start + slice.limit r.length * r.step)) (slice.stride * r.step) := by
          omega
        rw [sub_mul] at hbounds
        unfold IsWord at hover hword
        rcases lt_or_gt_of_ne hne with hneg | hup
        · rw [lt_count_down hneg, term_zero] at hpos hpos'
          unfold i32 at hpos'
          omega
        · rw [lt_count_up hup, term_zero] at hpos hpos'
          unfold i32 at hpos'
          omega
      · intro hstop
        rw [i32_of_range hstop.1 hstop.2]
        exact ⟨hne, hcount, .inr ⟨rfl, .inr rfl⟩⟩

/-- A range whose length is taken for 0 has no slice with a value. -/
theorem slice_of_lost (hr : r.Valid) (hfits : ¬ r.LenFits) (hsome : 0 < r.length) (hslice : slice.Fits) :
    SliceOk r slice ↔ slice.size r.length = 0 ∧ i32 (slice.stride * r.step) ≠ 0 := by
  have hlen : rangeLen r = (0 : Nat) := by
    rcases rangeLen_of_not hr hfits with ⟨-, hzero⟩ | ⟨hnone, -⟩
    · exact hzero
    · omega
  have hsize : ¬ 0 < slice.size (0 : Nat) := by
    intro h
    have := @term_in_range slice (0 : Nat) (le_refl _) (stride_ne_zero hslice) 0 h
    omega
  have hvalues : ∀ x d, d ≠ 0 → RangeObj.values ⟨x, x, d⟩ = [] := by
    intro x d hd
    rw [RangeObj.values, RangeObj.length, count_self hd, terms_zero]
  unfold SliceOk
  rw [rangeSlice_eq hlen (by omega) hslice, if_neg hsize]
  constructor
  · rintro ⟨o, ho, hne, hall⟩
    cases ho
    rw [hvalues _ _ hne, eq_comm, List.map_eq_nil_iff] at hall
    have := congrArg List.length hall
    rw [SliceObj.indices, length_terms] at this
    exact ⟨this, hne⟩
  · rintro ⟨hnone, hne⟩
    refine ⟨_, rfl, hne, ?_⟩
    rw [hvalues _ _ hne, SliceObj.indices, hnone, terms_zero, List.map_nil]

/-- `r[0::-1]` of an empty range whose length is wrong is not empty. -/
theorem slice_of_found (hr : r.Valid) (hfits : ¬ r.LenFits) (hnone : r.length = 0) (hstep : r.step ≠ -2147483648) :
    ¬ SliceOk r ⟨some 0, none, some (-1)⟩ := by
  obtain ⟨n, hlen, hn, hword⟩ : ∃ n : Nat, rangeLen r = n ∧ 0 < n ∧ n ≤ 2147483647 := by
    have hword := rangeLen_le r
    rcases rangeLen_of_not hr hfits with ⟨hsome, -⟩ | ⟨-, hpos⟩
    · omega
    · exact ⟨(rangeLen r).toNat, by omega, by omega, by omega⟩
  have hslice : SliceObj.Fits ⟨some 0, none, some (-1)⟩ :=
    ⟨fun x hx => (by cases hx; decide), fun x hx => (by cases hx), fun x hx => (by cases hx; decide)⟩
  have hfirst : SliceObj.first ⟨some 0, none, some (-1)⟩ n = 0 := by
    show min ((n : Int) - 1) (max (-1) 0) = 0
    omega
  have hsize : SliceObj.size ⟨some 0, none, some (-1)⟩ n = 1 := by
    rw [SliceObj.size, hfirst]
    rfl
  rintro ⟨o, ho, hne, hall⟩
  rw [rangeSlice_eq hlen hword hslice, hfirst, hsize] at ho
  cases ho
  -- the start is a word, and so is the word one step in front of it
  have hspan := @steps_pos r.step r.span hr.step_ne
  rw [← length_eq, hnone] at hspan
  have hempty : count (i32 (r.start + 0 * r.step)) (i32 (r.start + -1 * r.step)) (i32 (-1 * r.step)) = 0 := by
    rw [hnone] at hall
    have := congrArg List.length hall
    rwa [RangeObj.values, length_terms] at this
  obtain ⟨⟨h1, h2⟩, ⟨h3, h4⟩, ⟨h5, h6⟩, hstep0⟩ := hr
  unfold RangeObj.LenFits IsWord at hfits
  have hdef : r.span = if 0 < r.step then r.stop - r.start + r.step - 1 else r.stop - r.start + r.step + 1 := rfl
  rcases lt_or_gt_of_ne hstep0 with hneg | hpos
  · rw [if_neg (Int.not_lt.mpr (Int.le_of_lt hneg))] at hspan hdef
    have hhigh : r.step < r.span := Int.not_le.mp fun hle => Nat.lt_irrefl 0 (hspan.mpr hle)
    have hout : 2147483647 < r.span := Int.not_le.mp fun hle =>
      hfits (.inl ⟨⟨Int.le_trans h5 (Int.le_of_lt hhigh), hle⟩, by rw [hnone]; decide⟩)
    clear hspan hfits hall hlen hslice hfirst hsize
    rw [i32_of_range (by omega) (by omega), i32_of_range (by omega) (by omega), i32_of_range (by omega) (by omega)] at hempty
    have hsome := (@lt_count_up (r.start + 0 * r.step) (r.start + -1 * r.step) (-1 * r.step) 0 (by omega)).mpr (by rw [term_zero]; omega)
    omega
  · rw [if_pos hpos] at hspan hdef
    have hlow : r.span < r.step := Int.not_le.mp fun hle => Nat.lt_irrefl 0 (hspan.mpr hle)
    have hout : r.span < -2147483648 := Int.not_le.mp fun hge =>
      hfits (.inl ⟨⟨hge, Int.le_trans (Int.le_of_lt hlow) h6⟩, by rw [hnone]; decide⟩)
    clear hspan hfits hall hlen hslice hfirst hsize
    rw [i32_of_range (by omega) (by omega), i32_of_range (by omega) (by omega), i32_of_range (by omega) (by omega)] at hempty
    have hsome := (@lt_count_down (r.start + 0 * r.step) (r.start + -1 * r.step) (-1 * r.step) 0 (by omega)).mpr (by rw [term_zero]; omega)
    omega

/-! ## All of it -/

/-- Where each operation on a range agrees with the progression. -/
structure Compared (r : RangeObj) : Prop where
  len : rangeLenOp r = r.length ↔ r.LenFits ∧ r.length < 1073741824
  bool : rangeBool r = decide (0 < r.length) ↔ r.LenFits
  index : (∀ i, IsWord i → IndexOk r i) ↔ r.LenFits ∧ ∀ v ∈ r.values, Small v
  iter : (∀ fuel, r.length < fuel → iterate fuel r [] = some r.values) ↔
    (∀ v ∈ r.values, Small v) ∧ (r.length = 0 ∨ IsWord (term r.start r.step r.length))
  eq : (∀ s, s.Valid → s.LenFits → rangeEq r s = decide (r.values = s.values)) ↔ r.LenFits
  slice : r.LenFits → ∀ slice, slice.Fits → (SliceOk r slice ↔ SliceFits r slice)
  /-- A range with values, whose length does not fit, has no slice with one. -/
  slice_lost : ¬ r.LenFits → 0 < r.length → ∀ slice, slice.Fits →
    (SliceOk r slice ↔ slice.size r.length = 0 ∧ i32 (slice.stride * r.step) ≠ 0)
  /-- An empty one has a slice that is not. -/
  slice_found : ¬ r.LenFits → r.length = 0 → r.step ≠ -2147483648 → ¬ SliceOk r ⟨some 0, none, some (-1)⟩

end PythonUltra.Py.Range
