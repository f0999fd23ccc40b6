/-
  PythonUltra.Lib.Calendar — the civil calendar, for any choice of the leap years.

  A date is a year, a month of it and a day of that, all from 1, and `next` is the day after.
  `index` numbers the days by the leap years before a year and the months before a month: a
  date so many days after another has that number more (`index_iterate`), and no two dates
  have one number (`eq_of_index`).
-/

import Mathlib.Algebra.Order.Ring.Int
import Mathlib.Data.Nat.Count
import Mathlib.Order.Interval.Finset.Basic
import Mathlib.Tactic.IntervalCases

namespace PythonUltra.Lib.Calendar

/-! ## Months -/

def monthLength (isLeap : Bool) (month : Int) : Int :=
  if month = 2 then if isLeap then 29 else 28 else if month = 4 ∨ month = 6 ∨ month = 9 ∨ month = 11 then 30 else 31

/-- The days of a year before a month. -/
def monthStart (isLeap : Bool) (month : Int) : Int := (367 * month - 362) / 12 - if month ≤ 2 then 0 else if isLeap then 1 else 2

variable {b : Bool} {m m' : Int}

theorem monthStart_succ (hpos : 1 ≤ m) (hle : m ≤ 12) : monthStart b (m + 1) = monthStart b m + monthLength b m := by
  interval_cases m <;> cases b <;> rfl

theorem monthLength_ge (b : Bool) (m : Int) : 28 ≤ monthLength b m := by
  unfold monthLength
  split_ifs <;> omega

theorem monthStart_mono (hpos : 1 ≤ m) (h : m ≤ m') : monthStart b m ≤ monthStart b m' := by
  unfold monthStart
  cases b <;> simp <;> split_ifs <;> omega

@[simp] theorem monthStart_one (b : Bool) : monthStart b 1 = 0 := by
  cases b <;> rfl

/-! ## Leap years -/

variable {leap leap' : Int → Bool}

/-- The leap years from year 0 up to this one. Before year 0, less those from it up to year 0. -/
def leaps (leap : Int → Bool) (year : Int) : Int :=
  Nat.count (fun k => leap k) year.toNat - Nat.count (fun k => leap (-1 - k)) (-year).toNat

@[simp] theorem leaps_zero (leap : Int → Bool) : leaps leap 0 = 0 := by simp [leaps]

theorem leaps_succ (leap : Int → Bool) (y : Int) : leaps leap (y + 1) = leaps leap y + if leap y then 1 else 0 := by
  unfold leaps
  rcases lt_or_ge y 0 with hneg | hpos
  · have hnext : (-y).toNat = (-(y + 1)).toNat + 1 := by omega
    have hyear : -1 - ((-(y + 1)).toNat : Int) = y := by omega
    have hzero : y.toNat = 0 ∧ (y + 1).toNat = 0 := by omega
    rw [hnext, Nat.count_succ, hyear, hzero.1, hzero.2]
    split_ifs <;> simp
  · have hnext : (y + 1).toNat = y.toNat + 1 := by omega
    have hyear : (y.toNat : Int) = y := by omega
    have hzero : (-y).toNat = 0 ∧ (-(y + 1)).toNat = 0 := by omega
    rw [hnext, Nat.count_succ, hyear, hzero.1, hzero.2]
    split_ifs <;> simp

theorem leaps_shift {k a : Int} (n : Nat) (h : ∀ y, a ≤ y → y < a + n → leap' y = leap (y + k)) :
    leaps leap' (a + n) - leaps leap' a = leaps leap (a + n + k) - leaps leap (a + k) := by
  induction n with
  | zero => simp
  | succ n ih =>
    have hih := ih fun y hle hlt => h y hle (by omega)
    have hstep := leaps_succ leap' (a + n)
    have hstep' := leaps_succ leap (a + n + k)
    rw [h (a + n) (by omega) (by omega)] at hstep
    rw [show a + ((n + 1 : Nat) : Int) = a + n + 1 by omega, show a + (n : Int) + 1 + k = a + n + k + 1 by omega]
    omega

theorem leaps_mono {a b : Int} (h : a ≤ b) : leaps leap a ≤ leaps leap b := by
  obtain ⟨n, rfl⟩ := Int.le.dest h
  clear h
  induction n with
  | zero => simp
  | succ n ih =>
    have hstep := leaps_succ leap (a + n)
    rw [show a + ((n + 1 : Nat) : Int) = a + n + 1 by omega]
    split_ifs at hstep <;> omega

/-! ## Days -/

def index (leap : Int → Bool) (year month day : Int) : Int := 365 * year + leaps leap year + monthStart (leap year) month + day

variable {y y' d d' : Int}

theorem index_month (hpos : 1 ≤ m) (hlt : m < 12) : index leap y (m + 1) d = index leap y m (d + monthLength (leap y) m) := by
  have hstart := @monthStart_succ (leap y) m hpos (by omega)
  unfold index
  omega

theorem index_year : index leap (y + 1) 1 d = index leap y 12 (d + monthLength (leap y) 12) := by
  have hleaps := leaps_succ leap y
  unfold index
  rw [monthStart_one, hleaps]
  cases leap y <;> simp [monthStart, monthLength] <;> omega

def Valid (leap : Int → Bool) (year month day : Int) : Prop := (1 ≤ month ∧ month ≤ 12) ∧ 1 ≤ day ∧ day ≤ monthLength (leap year) month

theorem index_lt_year (h : Valid leap y m d) (hlt : y < y') : index leap y m d < index leap y' 1 1 := by
  obtain ⟨⟨hpos, hle⟩, -, hday⟩ := h
  have hnext := @monthStart_succ (leap y) m hpos hle
  have hrest := @monthStart_mono (leap y) (m + 1) 13 (by omega) (by omega)
  have hend : monthStart (leap y) 13 = 365 + if leap y then 1 else 0 := by cases leap y <;> rfl
  have hleaps := @leaps_mono leap (y + 1) y' hlt
  rw [leaps_succ] at hleaps
  unfold index
  rw [monthStart_one]
  omega

theorem index_lt_month (h : Valid leap y m d) (hlt : m < m') (hd : 1 ≤ d') : index leap y m d < index leap y m' d' := by
  obtain ⟨⟨hpos, hle⟩, -, hday⟩ := h
  have hnext := @monthStart_succ (leap y) m hpos hle
  have hmono := @monthStart_mono (leap y) (m + 1) m' (by omega) hlt
  unfold index
  omega

theorem one_le_index (h : Valid leap y m d) : index leap y 1 1 ≤ index leap y m d := by
  have hmono := @monthStart_mono (leap y) 1 m (by decide) h.1.1
  have hpos := h.2.1
  unfold index
  omega

theorem eq_of_index (h : Valid leap y m d) (h' : Valid leap y' m' d') (heq : index leap y m d = index leap y' m' d') :
    y = y' ∧ m = m' ∧ d = d' := by
  have hyear : y = y' := by
    rcases Int.lt_trichotomy y y' with hlt | rfl | hlt
    · exact absurd (index_lt_year h hlt) (by have := one_le_index h'; omega)
    · rfl
    · exact absurd (index_lt_year h' hlt) (by have := one_le_index h; omega)
  subst hyear
  have hmonth : m = m' := by
    rcases Int.lt_trichotomy m m' with hlt | rfl | hlt
    · exact absurd (index_lt_month h hlt h'.2.1) (by omega)
    · rfl
    · exact absurd (index_lt_month h' hlt h.2.1) (by omega)
  subst hmonth
  unfold index at heq
  omega

/-! ## Dates -/

structure Date (leap : Int → Bool) where
  year : Int
  month : Int
  day : Int
  valid : Valid leap year month day

theorem valid_day (h : Valid leap y m d) (hlt : d < monthLength (leap y) m) : Valid leap y m (d + 1) := by
  have hpos := h.2.1
  exact ⟨h.1, by omega, hlt⟩

theorem valid_month (h : Valid leap y m d) (hlt : m < 12) : Valid leap y (m + 1) 1 := by
  have hlength := monthLength_ge (leap y) (m + 1)
  have hpos := h.1
  exact ⟨by omega, by omega⟩

theorem valid_year (leap : Int → Bool) (y : Int) : Valid leap y 1 1 := ⟨by decide, by decide, Int.le_trans (by decide) (monthLength_ge _ _)⟩

/-- The day after. -/
def Date.next (d : Date leap) : Date leap :=
  if hday : d.day < monthLength (leap d.year) d.month then ⟨d.year, d.month, d.day + 1, valid_day d.valid hday⟩
  else if hmonth : d.month < 12 then ⟨d.year, d.month + 1, 1, valid_month d.valid hmonth⟩
  else ⟨d.year + 1, 1, 1, valid_year leap (d.year + 1)⟩

def Date.index (d : Date leap) : Int := Calendar.index leap d.year d.month d.day

theorem index_next (d : Date leap) : d.next.index = d.index + 1 := by
  have hvalid := d.valid
  unfold Date.next Date.index
  split_ifs with hday hmonth
  · simp [index]
    omega
  · have hend : d.day = monthLength (leap d.year) d.month := by have := hvalid.2; omega
    simp only [index_month hvalid.1.1 hmonth, hend]
    unfold index
    omega
  · have hend : d.day = monthLength (leap d.year) d.month := by have := hvalid.2; omega
    have hdec : d.month = 12 := by have := hvalid.1; omega
    simp only [index_year, hend, hdec]
    unfold index
    omega

theorem index_iterate (d : Date leap) (n : Nat) : (Date.next^[n] d).index = d.index + n := by
  induction n with
  | zero => simp
  | succ n ih =>
    rw [Function.iterate_succ_apply', index_next, ih]
    omega

/-! ## The Gregorian calendar -/

def gregorian (year : Int) : Bool := (year % 4 = 0 ∧ year % 100 ≠ 0) ∨ year % 400 = 0

theorem leaps_gregorian (y : Int) : leaps gregorian y = (y + 3) / 4 - (y + 99) / 100 + (y + 399) / 400 := by
  have hstep : ∀ x, (x + 4) / 4 - (x + 100) / 100 + (x + 400) / 400 = (x + 3) / 4 - (x + 99) / 100 + (x + 399) / 400 + if gregorian x then 1 else 0 := by
    intro x
    unfold gregorian
    simp only [decide_eq_true_eq]
    split_ifs <;> omega
  induction y using Int.induction_on with
  | zero => simp
  | succ y ih =>
    have hs := hstep y
    rw [leaps_succ, ih]
    omega
  | pred y ih =>
    have hs := hstep (-(y : Int) - 1)
    have hleaps := leaps_succ gregorian (-(y : Int) - 1)
    rw [show -(y : Int) - 1 + 1 = -y by omega] at hleaps
    omega

end PythonUltra.Lib.Calendar
