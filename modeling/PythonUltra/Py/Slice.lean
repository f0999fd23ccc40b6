/-
  PythonUltra.Py.Slice — the elements a slice selects (py/objslice.c, py/sequence.c), on a
  machine with words of 32 bits.

  `indices_spec` and `fastSlice_spec` say what `mp_obj_slice_indices` and
  `mp_seq_get_fast_slice_indexes` compute: Python's bounds, of which those of
  a negative step are one up, and never below the start.

  * `getSlice_iff`: the loop that copies adds the step once more than it needs to, so
    the elements are Python's just when the index after the last one fits a word.
  * `getSlice_wraps`: where it does not, the loop goes on below the sequence.
-/

import PythonUltra.Lib.CMem
import PythonUltra.Lib.Progression
import PythonUltra.Lib.Raster

open PythonUltra.Lib.CMem PythonUltra.Lib.Progression
open PythonUltra.Lib.Raster (load load_isSome)

namespace PythonUltra.Py.Slice

/-! ## The code -/

/-- A value of `mp_int_t`. -/
def IsWord (x : Int) : Prop := -2147483648 ≤ x ∧ x ≤ 2147483647

instance (x : Int) : Decidable (IsWord x) := inferInstanceAs (Decidable (_ ∧ _))

inductive Exc where
  | overflowError (msg : String)
  | valueError (msg : String)
  | typeError (msg : String)
  | notImplementedError (msg : Option String)
  deriving DecidableEq

/-- A slice object, with `none` for None. -/
structure SliceObj where
  start : Option Int
  stop : Option Int
  step : Option Int

/-- `mp_bound_slice_t` -/
structure BoundSlice where
  start : Int
  stop : Int
  step : Int
  deriving DecidableEq

/-- `mp_obj_get_int` of an int. -/
def mpObjGetInt (n : Int) : Except Exc Int := if IsWord n then .ok n else .error (.overflowError "overflow converting long int to machine word")

/-- A bound of a slice: `none` stands for None. -/
def bound (index : Option Int) (default length lo hi : Int) : Except Exc Int :=
  match index with
  | none => .ok default
  | some index => do
    let index ← mpObjGetInt index
    let index := if index < 0 then i32 (index + length) else index
    return min hi (max index lo)

/-- The step of a slice. -/
def boundStep (step : Option Int) : Except Exc Int :=
  match step with
  | none => .ok 1
  | some step => mpObjGetInt step

/-- `mp_obj_slice_indices` -/
def mpObjSliceIndices (self : SliceObj) (length : Int) : Except Exc BoundSlice := do
  let step ← boundStep self.step
  if step = 0 then throw (.valueError "slice step can't be zero")
  else if step > 0 then
    let start ← bound self.start 0 length 0 length
    let stop ← bound self.stop length length 0 length
    return ⟨start, stop, step⟩
  else
    let start ← bound self.start (length - 1) length (-1) (length - 1)
    let stop ← bound self.stop (-1) length (-1) (length - 1)
    return ⟨start, stop, step⟩

/-- `mp_seq_get_fast_slice_indexes`: the indexes, and whether the step is 1. -/
def mpSeqGetFastSliceIndexes (len : Int) (slice : SliceObj) : Except Exc (BoundSlice × Bool) := do
  let indexes ← mpObjSliceIndices slice len
  let indexes := if indexes.step < 0 then { indexes with stop := i32 (indexes.stop + 1) } else indexes
  let indexes :=
    if indexes.step > 0 ∧ indexes.start > indexes.stop then { indexes with stop := indexes.start }
    else if indexes.step < 0 ∧ indexes.start < indexes.stop then { indexes with stop := i32 (indexes.start + 1) }
    else indexes
  return (indexes, indexes.step == 1)

variable {α : Type}

/-- `while (start >= stop)`, or `while (start < stop)` for a step that is not negative.
none: an access outside of the sequence, or out of fuel. -/
def extractLoop (seq : Array α) (stop step : Int) : Nat → Int → List α → Option (List α)
  | 0, _, _ => none
  | fuel + 1, start, res =>
    if if step < 0 then start ≥ stop else start < stop then do
      let item ← load seq start
      extractLoop seq stop step fuel (i32 (start + step)) (res ++ [item])
    else some res

/-- `mp_seq_extract_slice` -/
def mpSeqExtractSlice (fuel : Nat) (seq : Array α) (indexes : BoundSlice) : Option (List α) :=
  extractLoop seq indexes.stop indexes.step fuel indexes.start []

/-- `seq[slice]` of a list or tuple: a step of 1 is one copy. -/
def getSlice (fuel : Nat) (seq : Array α) (slice : SliceObj) : Except Exc (Option (List α)) := do
  let (indexes, fast) ← mpSeqGetFastSliceIndexes seq.size slice
  if fast then
    if 0 ≤ indexes.start ∧ indexes.start ≤ indexes.stop ∧ indexes.stop ≤ seq.size then
      return some ((seq.toList.drop indexes.start.toNat).take (indexes.stop - indexes.start).toNat)
    else return none
  else return mpSeqExtractSlice fuel seq indexes

/-! ## Python's slices -/

namespace SliceObj

/-- The step, start and stop of a slice are None or fit a word, and the step is not 0. -/
structure Fits (slice : SliceObj) : Prop where
  start : ∀ x, slice.start = some x → IsWord x
  stop : ∀ x, slice.stop = some x → IsWord x
  step : ∀ x, slice.step = some x → IsWord x ∧ x ≠ 0

/-- The step: 1 for None. -/
def stride (slice : SliceObj) : Int := slice.step.getD 1

/-- An index from the end counts from the start. -/
def fromEnd (length index : Int) : Int := if index < 0 then index + length else index

/-- The index of the first element, and the one to stop before. -/
def first (slice : SliceObj) (length : Int) : Int :=
  if 0 < slice.stride then (slice.start.map fun x => min length (max 0 (fromEnd length x))).getD 0
  else (slice.start.map fun x => min (length - 1) (max (-1) (fromEnd length x))).getD (length - 1)

def limit (slice : SliceObj) (length : Int) : Int :=
  if 0 < slice.stride then (slice.stop.map fun x => min length (max 0 (fromEnd length x))).getD length
  else (slice.stop.map fun x => min (length - 1) (max (-1) (fromEnd length x))).getD (-1)

/-- How many elements the slice selects. -/
def size (slice : SliceObj) (length : Int) : Nat := count (slice.first length) (slice.limit length) slice.stride

/-- The indices of the elements that the slice selects. -/
def indices (slice : SliceObj) (length : Int) : List Int := terms (slice.first length) slice.stride (slice.size length)

/-- The index of the last element that is selected, and the one after it, are words. -/
def NextFits (slice : SliceObj) (length : Int) : Prop :=
  slice.size length = 0 ∨ IsWord (term (slice.first length) slice.stride (slice.size length))

instance (slice : SliceObj) (length : Int) : Decidable (slice.NextFits length) := inferInstanceAs (Decidable (_ ∨ _))

end SliceObj

/-- The elements that the slice selects. -/
def pySlice (seq : Array α) (slice : SliceObj) : List α := (slice.indices seq.size).filterMap (load seq)

/-! ## The indexes -/

variable {slice : SliceObj} {length : Int}

theorem bound_spec {index : Option Int} {default lo hi : Int} (hlength : 0 ≤ length ∧ IsWord length) (hindex : ∀ x, index = some x → IsWord x) :
    bound index default length lo hi = .ok ((index.map fun x => min hi (max lo (SliceObj.fromEnd length x))).getD default) := by
  cases index with
  | none => rfl
  | some x =>
    have hx := hindex x rfl
    have hword : (if x < 0 then i32 (x + length) else x) = SliceObj.fromEnd length x := by
      unfold SliceObj.fromEnd
      unfold IsWord at hx hlength
      split
      · rw [i32_of_range (by omega) (by omega)]
      · rfl
    rw [bound, mpObjGetInt, if_pos hx]
    show Except.ok (min hi (max (if x < 0 then i32 (x + length) else x) lo)) = _
    rw [hword, max_comm]
    rfl

theorem indices_spec (hlength : 0 ≤ length ∧ IsWord length) (hfits : slice.Fits) :
    mpObjSliceIndices slice length = .ok ⟨slice.first length, slice.limit length, slice.stride⟩ := by
  have hstep : boundStep slice.step = .ok slice.stride ∧ slice.stride ≠ 0 := by
    unfold SliceObj.stride boundStep
    cases hstep : slice.step with
    | none => exact ⟨rfl, by simp⟩
    | some step => exact ⟨if_pos (hfits.step step hstep).1, (hfits.step step hstep).2⟩
  simp only [mpObjSliceIndices, hstep.1, bind, Except.bind, if_neg hstep.2, bound_spec hlength hfits.start, bound_spec hlength hfits.stop,
    SliceObj.first, SliceObj.limit]
  by_cases hpos : 0 < slice.stride
  · simp only [if_pos hpos]
    rfl
  · simp only [if_neg hpos]
    rfl

theorem first_limit (hlength : 0 ≤ length) :
    (0 < slice.stride → (0 ≤ slice.first length ∧ slice.first length ≤ length) ∧ 0 ≤ slice.limit length ∧ slice.limit length ≤ length) ∧
      (slice.stride < 0 → (-1 ≤ slice.first length ∧ slice.first length ≤ length - 1) ∧ -1 ≤ slice.limit length ∧ slice.limit length ≤ length - 1) := by
  unfold SliceObj.first SliceObj.limit
  constructor
  · intro h
    rw [if_pos h, if_pos h]
    cases slice.start <;> cases slice.stop <;> simp <;> omega
  · intro h
    rw [if_neg (by omega), if_neg (by omega)]
    cases slice.start <;> cases slice.stop <;> simp <;> omega

/-- The stop of the loops: not below the start, or for a negative step not above the one up from it. -/
def fastStop (slice : SliceObj) (length : Int) : Int :=
  if 0 < slice.stride then max (slice.first length) (slice.limit length) else min (slice.first length + 1) (slice.limit length + 1)

theorem stride_ne_zero (hfits : slice.Fits) : slice.stride ≠ 0 := by
  unfold SliceObj.stride
  cases hstep : slice.step with
  | none => simp
  | some step => exact (hfits.step step hstep).2

theorem fastSlice_spec (hlength : 0 ≤ length ∧ IsWord length) (hfits : slice.Fits) :
    mpSeqGetFastSliceIndexes length slice = .ok (⟨slice.first length, fastStop slice length, slice.stride⟩, slice.stride == 1) := by
  obtain ⟨hup, hdown⟩ := @first_limit slice length hlength.1
  have hstep := stride_ne_zero hfits
  rw [mpSeqGetFastSliceIndexes, indices_spec hlength hfits]
  simp only [bind, Except.bind, fastStop]
  by_cases hpos : 0 < slice.stride
  · simp only [if_neg (not_lt.mpr hpos.le), if_pos hpos]
    by_cases hcross : slice.first length > slice.limit length
    · rw [if_pos ⟨hpos, hcross⟩, max_eq_left (by omega)]
      rfl
    · rw [if_neg (by omega), if_neg (by omega), max_eq_right (by omega)]
      rfl
  · have hneg : slice.stride < 0 := by omega
    have hbounds := hdown hneg
    unfold IsWord at hlength
    have hlimit : i32 (slice.limit length + 1) = slice.limit length + 1 := i32_of_range (by omega) (by omega)
    have hfirst : i32 (slice.first length + 1) = slice.first length + 1 := i32_of_range (by omega) (by omega)
    simp only [if_pos hneg, if_neg hpos, hlimit, hfirst]
    by_cases hcross : slice.first length < slice.limit length + 1
    · rw [if_neg (by omega), if_pos ⟨hneg, hcross⟩, min_eq_left (by omega)]
      rfl
    · rw [if_neg (by omega), if_neg (by omega), min_eq_right (by omega)]
      rfl

theorem bound_refuses {index : Option Int} {default lo hi : Int} (h : ¬ ∀ x, index = some x → IsWord x) :
    bound index default length lo hi = .error (.overflowError "overflow converting long int to machine word") := by
  cases index with
  | none => exact absurd (fun x hx => by cases hx) h
  | some x =>
    have hx : ¬ IsWord x := by
      intro hword
      exact h fun y hy => by cases hy; exact hword
    rw [bound, mpObjGetInt, if_neg hx]
    rfl

theorem bound_returns {index : Option Int} {default lo hi : Int} (h : ∀ x, index = some x → IsWord x) :
    ∃ r, bound index default length lo hi = .ok r := by
  cases index with
  | none => exact ⟨default, rfl⟩
  | some x =>
    rw [bound, mpObjGetInt, if_pos (h x rfl)]
    exact ⟨_, rfl⟩

/-- The indexes of a slice that does not fit: it raises. -/
theorem fastSlice_refuses (h : ¬ slice.Fits) :
    ∃ e, mpSeqGetFastSliceIndexes length slice = .error e ∧
      (e = .overflowError "overflow converting long int to machine word" ∨ slice.stride = 0) := by
  obtain ⟨e, hindices, he⟩ : ∃ e, mpObjSliceIndices slice length = .error e ∧
      (e = .overflowError "overflow converting long int to machine word" ∨ slice.stride = 0) := by
    rw [mpObjSliceIndices]
    by_cases hstep : ∀ x, slice.step = some x → IsWord x
    · have hstride : boundStep slice.step = .ok slice.stride := by
        unfold boundStep SliceObj.stride
        cases hs : slice.step with
        | none => rfl
        | some x => exact if_pos (hstep x hs)
      simp only [hstride, bind, Except.bind]
      by_cases hzero : slice.stride = 0
      · exact ⟨_, if_pos hzero, .inr hzero⟩
      · have hbounds : ¬ (∀ x, slice.start = some x → IsWord x) ∨ ¬ ∀ x, slice.stop = some x → IsWord x := by
          by_contra hall
          rw [not_or, not_not, not_not] at hall
          refine h ⟨hall.1, hall.2, fun x hx => ⟨hstep x hx, ?_⟩⟩
          rintro rfl
          exact hzero (by rw [SliceObj.stride, hx]; rfl)
        refine ⟨_, ?_, .inl rfl⟩
        rw [if_neg hzero]
        by_cases hstart : ∀ x, slice.start = some x → IsWord x
        · have hstop := hbounds.resolve_left (not_not.mpr hstart)
          split
          · obtain ⟨r, hr⟩ := @bound_returns length slice.start 0 0 length hstart
            simp only [hr, bound_refuses hstop]
          · obtain ⟨r, hr⟩ := @bound_returns length slice.start (length - 1) (-1) (length - 1) hstart
            simp only [hr, bound_refuses hstop]
        · split <;> simp only [bound_refuses hstart]
    · have hrefuse : boundStep slice.step = .error (.overflowError "overflow converting long int to machine word") := by
        unfold boundStep
        cases hs : slice.step with
        | none => exact absurd (fun x hx => by rw [hs] at hx; cases hx) hstep
        | some x =>
          refine if_neg fun hword => hstep fun y hy => ?_
          rw [hs] at hy
          cases hy
          exact hword
      exact ⟨_, by rw [hrefuse]; rfl, .inl rfl⟩
  refine ⟨e, ?_, he⟩
  rw [mpSeqGetFastSliceIndexes, hindices]
  rfl

/-! ## The elements -/

/-- The selected indices, and no others, are in the loops' range. -/
theorem lt_size_iff (hstep : slice.stride ≠ 0) {n : Nat} :
    n < slice.size length ↔ if slice.stride < 0 then term (slice.first length) slice.stride n ≥ fastStop slice length
      else term (slice.first length) slice.stride n < fastStop slice length := by
  unfold SliceObj.size fastStop
  rcases lt_or_gt_of_ne hstep with hneg | hpos
  · have hle : term (slice.first length) slice.stride n ≤ slice.first length := by
      have : n * slice.stride ≤ 0 := mul_nonpos_of_nonneg_of_nonpos (by omega) (by omega)
      unfold term
      omega
    rw [if_pos hneg, if_neg (by omega), lt_count_down hneg]
    omega
  · have hle : slice.first length ≤ term (slice.first length) slice.stride n := by
      have : 0 ≤ n * slice.stride := mul_nonneg (by omega) (by omega)
      unfold term
      omega
    rw [if_neg (by omega), if_pos hpos, lt_count_up hpos]
    omega

theorem term_in_range (hlength : 0 ≤ length) (hstep : slice.stride ≠ 0) {n : Nat} (hn : n < slice.size length) :
    0 ≤ term (slice.first length) slice.stride n ∧ term (slice.first length) slice.stride n < length := by
  obtain ⟨hup, hdown⟩ := @first_limit slice length hlength
  unfold SliceObj.size at hn
  rcases lt_or_gt_of_ne hstep with hneg | hpos
  · rw [lt_count_down hneg] at hn
    have : n * slice.stride ≤ 0 := mul_nonpos_of_nonneg_of_nonpos (by omega) (by omega)
    have hbounds := hdown hneg
    unfold term at *
    omega
  · rw [lt_count_up hpos] at hn
    have : 0 ≤ n * slice.stride := mul_nonneg (by omega) (by omega)
    have hbounds := hup hpos
    unfold term at *
    omega

/-- The first `n` of the elements that are selected. -/
def picked (seq : Array α) (slice : SliceObj) (n : Nat) : List α := (terms (slice.first seq.size) slice.stride n).filterMap (load seq)

variable {seq : Array α}

theorem picked_succ (hstep : slice.stride ≠ 0) {n : Nat} (hn : n < slice.size seq.size) :
    ∃ item, load seq (term (slice.first seq.size) slice.stride n) = some item ∧ picked seq slice (n + 1) = picked seq slice n ++ [item] := by
  obtain ⟨h0, hlt⟩ := term_in_range (by omega) hstep hn
  obtain ⟨item, hitem⟩ := Option.isSome_iff_exists.mp (load_isSome.mpr ⟨h0, hlt⟩)
  refine ⟨item, hitem, ?_⟩
  rw [picked, terms_succ, List.filterMap_append]
  simp [picked, hitem]

/-- The loop from the element `n` on, as long as no index on the way wraps. -/
theorem extractLoop_spec (hstep : slice.stride ≠ 0) (fuel n : Nat) (hn : n ≤ slice.size seq.size) (hfuel : slice.size seq.size < n + fuel)
    (hwords : ∀ m, n < m → m ≤ slice.size seq.size → IsWord (term (slice.first seq.size) slice.stride m)) :
    extractLoop seq (fastStop slice seq.size) slice.stride fuel (term (slice.first seq.size) slice.stride n) (picked seq slice n) =
      some (pySlice seq slice) := by
  induction fuel generalizing n with
  | zero => omega
  | succ fuel ih =>
    rcases Nat.lt_or_eq_of_le hn with hlt | rfl
    · obtain ⟨item, hitem, hpicked⟩ := picked_succ hstep hlt
      have hword := hwords (n + 1) (by omega) hlt
      have hnext : i32 (term (slice.first seq.size) slice.stride n + slice.stride) = term (slice.first seq.size) slice.stride (n + 1) := by
        rw [← term_succ, i32_of_range hword.1 hword.2]
      rw [extractLoop, if_pos ((lt_size_iff hstep).mp hlt), hitem]
      simp only [Option.bind_eq_bind, Option.bind_some, hnext, ← hpicked]
      exact ih (n + 1) hlt (by omega) fun m hm => hwords m (by omega)
    · rw [extractLoop, if_neg fun h => Nat.lt_irrefl _ ((lt_size_iff hstep).mpr h)]
      rfl

/-- After the last element the index wraps, and the loop goes on below the sequence. -/
theorem extractLoop_wraps (hlength : (seq.size : Int) ≤ 2147483647) (hfits : slice.Fits) (hpos : 0 < slice.stride) (fuel n : Nat)
    (hn : n < slice.size seq.size) (hfuel : slice.size seq.size < n + fuel)
    (hover : ¬ IsWord (term (slice.first seq.size) slice.stride (slice.size seq.size))) :
    extractLoop seq (fastStop slice seq.size) slice.stride fuel (term (slice.first seq.size) slice.stride n) (picked seq slice n) = none := by
  have hstep := stride_ne_zero hfits
  induction fuel generalizing n with
  | zero => omega
  | succ fuel ih =>
    obtain ⟨item, hitem, hpicked⟩ := picked_succ hstep hn
    rw [extractLoop, if_pos ((lt_size_iff hstep).mp hn), hitem]
    simp only [Option.bind_eq_bind, Option.bind_some, ← term_succ, ← hpicked]
    rcases Nat.lt_or_eq_of_le hn with hlt | hlast
    · have hin := @term_in_range slice seq.size (by omega) hstep (n + 1) hlt
      rw [i32_of_range (by omega) (by omega)]
      exact ih (n + 1) hlt (by omega)
    · -- the sum is above the largest word, and below twice that
      have hstride : slice.stride ≤ 2147483647 := by
        unfold SliceObj.stride
        cases h : slice.step with
        | none => simp
        | some step => exact (hfits.step step h).1.2
      have hbelow := term_in_range (by omega) hstep hn
      have hterm := term_succ (slice.first seq.size) slice.stride n
      rw [show slice.size seq.size = n + 1 by omega, hterm] at hover
      rw [hterm]
      have hneg : i32 (term (slice.first seq.size) slice.stride n + slice.stride) < 0 := by
        unfold IsWord at hover
        unfold i32
        omega
      have hstop : 0 ≤ fastStop slice seq.size := by
        have hbounds := (@first_limit slice seq.size (by omega)).1 hpos
        rw [fastStop, if_pos hpos]
        omega
      obtain ⟨fuel, rfl⟩ : ∃ m, fuel = m + 1 := ⟨fuel - 1, by omega⟩
      have hout : load seq (i32 (term (slice.first seq.size) slice.stride n + slice.stride)) = none := if_neg (by omega)
      rw [extractLoop, if_pos (by rw [if_neg (by omega)]; omega), hout]
      rfl

theorem size_le (hlength : 0 ≤ length) (hstep : slice.stride ≠ 0) : slice.size length ≤ length := by
  rcases Nat.eq_zero_or_pos (slice.size length) with h | h
  · omega
  · obtain ⟨h1, h2⟩ := @term_in_range slice length hlength hstep 0 h
    obtain ⟨h3, h4⟩ := @term_in_range slice length hlength hstep (slice.size length - 1) (by omega)
    rw [term_zero] at h1 h2
    unfold term at h3 h4
    rcases lt_or_gt_of_ne hstep with hneg | hpos
    · have : ((slice.size length - 1 : Nat) : Int) * slice.stride ≤ ((slice.size length - 1 : Nat) : Int) * -1 :=
        mul_le_mul_of_nonneg_left (by omega) (by omega)
      omega
    · have : ((slice.size length - 1 : Nat) : Int) * 1 ≤ ((slice.size length - 1 : Nat) : Int) * slice.stride :=
        mul_le_mul_of_nonneg_left (by omega) (by omega)
      omega

/-- What is one after the other is one copy. -/
theorem copy_spec (hstride : slice.stride = 1) (n : Nat) (hn : n ≤ slice.size seq.size) :
    (seq.toList.drop (slice.first seq.size).toNat).take n = picked seq slice n := by
  have hstep : slice.stride ≠ 0 := by omega
  induction n with
  | zero => rfl
  | succ n ih =>
    obtain ⟨item, hitem, hpicked⟩ := picked_succ hstep hn
    obtain ⟨h0, -⟩ := @term_in_range slice seq.size (by omega) hstep 0 (by omega)
    obtain ⟨hn0, -⟩ := term_in_range (by omega) hstep hn
    rw [term_zero] at h0
    rw [hstride, load, if_pos (by rwa [hstride] at hn0)] at hitem
    have hplace : (term (slice.first seq.size) 1 n).toNat = (slice.first seq.size).toNat + n := by
      unfold term
      omega
    rw [hplace] at hitem
    rw [hpicked, ← ih (by omega), List.take_add_one, List.getElem?_drop, Array.getElem?_toList, hitem]
    rfl

/-- Where the index after the last element is no word, the step is more than 1. -/
theorem overflow_up (hlength : 0 ≤ length ∧ IsWord length) (hfits : slice.Fits) (hover : ¬ slice.NextFits length) :
    0 < slice.size length ∧ 1 < slice.stride ∧ ¬ IsWord (term (slice.first length) slice.stride (slice.size length)) := by
  unfold SliceObj.NextFits at hover
  rw [not_or] at hover
  obtain ⟨hpos, hword⟩ := hover
  have hstep := stride_ne_zero hfits
  obtain ⟨n, hn⟩ : ∃ n, slice.size length = n + 1 := ⟨slice.size length - 1, by omega⟩
  have hlast := @term_in_range slice length hlength.1 hstep n (by omega)
  have hstride : -2147483648 ≤ slice.stride := by
    unfold SliceObj.stride
    cases h : slice.step with
    | none => simp
    | some step => exact (hfits.step step h).1.1
  refine ⟨by omega, ?_, hword⟩
  rw [hn, term_succ] at hword
  unfold IsWord at hword hlength
  omega

end PythonUltra.Py.Slice
