/-
  PythonUltra.Shared.Timeutils — seconds and civil dates (src/shared/timeutils/timeutils.c), on words of 32 bits.

  The code numbers the seconds from 2000-01-01 in a word without a sign, but takes the days from
  2000-03-01 in one with a sign: so the date of a number of seconds is the right one exactly up
  to 2^31 seconds after that day (`timeutils_iff`). `mktime2000` walks over the months with the
  year in a word without a sign, so a year before year 0 is read as one far ahead, and not
  every one of these has as many days.
-/

import Mathlib.Algebra.GroupWithZero.Nat
import Mathlib.Data.Int.ConditionallyCompleteOrder
import PythonUltra.Lib.Calendar

namespace PythonUltra.Shared.Timeutils

open Lib.Calendar

/-! ## The code -/

/-- `mp_uint_t` -/
def word (x : Int) : Int := x % 4294967296

/-- `mp_int_t`, of a word. -/
def signed (x : Int) : Int := (x + 2147483648) % 4294967296 - 2147483648

/-- 2000-03-01 -/
def leapoch : Int := (31 + 29) * 86400

def daysPer400y : Int := 365 * 400 + 97
def daysPer100y : Int := 365 * 100 + 24
def daysPer4y : Int := 365 * 4 + 1

/-- `days_since_jan1` -/
def daysSinceJan1 : List Int := [0, 31, 59, 90, 120, 151, 181, 212, 243, 273, 304, 334, 365]

/-- `timeutils_is_leap_year` -/
def isLeapYear (year : Int) : Bool := (year % 4 = 0 ∧ year % 100 ≠ 0) ∨ year % 400 = 0

/-- `timeutils_days_in_month`. None, here and below: a read outside a table. -/
def daysInMonth (year month : Int) : Option Int := do
  let mdays := (← daysSinceJan1[(word month).toNat]?) - (← daysSinceJan1[(word (month - 1)).toNat]?)
  if month = 2 ∧ isLeapYear year then some (mdays + 1) else some mdays

/-- `timeutils_year_day` -/
def yearDay (year month date : Int) : Option Int := do
  let yday := word ((← daysSinceJan1[(word (month - 1)).toNat]?) + date)
  if month ≥ 3 ∧ isLeapYear year then some (word (yday + 1)) else some yday

/-- The quotient and the rest by a divisor, and a rest below 0 made up from the quotient. -/
def floored (x n : Int) : Int × Int := if x.tmod n < 0 then (x.tdiv n - 1, x.tmod n + n) else (x.tdiv n, x.tmod n)

/-- The cycles in so many days, the day over in the last of them counted to it, and the days left. -/
def cycles (days n top : Int) : Int × Int :=
  let q := if days.tdiv n = top then days.tdiv n - 1 else days.tdiv n
  (q, days - q * n)

/-- `days_in_month`, from March. -/
def marchDays : List Int := [31, 30, 31, 30, 31, 31, 30, 31, 30, 31, 31, 29]

def monthOf : List Int → Int → Int → Option (Int × Int)
  | [], _, _ => none
  | length :: table, month, days => if length ≤ days then monthOf table (month + 1) (days - length) else some (month, days)

structure StructTime where
  year : Int
  mon : Int
  mday : Int
  hour : Int
  min : Int
  sec : Int
  wday : Int
  yday : Int
  deriving DecidableEq

/-- `timeutils_seconds_since_2000_to_struct_time` -/
def toStructTime (t : Int) : Option StructTime := do
  let (days, seconds) := floored (signed (word (t - leapoch))) 86400
  let wday := (floored (days + 2) 7).2
  let (qcCycles, days) := floored days daysPer400y
  let (cCycles, days) := cycles days daysPer100y 4
  let (qCycles, days) := cycles days daysPer4y 25
  let (years, days) := cycles days 365 4
  let year := (2000 + years + 4 * qCycles + 100 * cCycles + 400 * qcCycles) % 65536
  let (month, days) ← monthOf marchDays 0 days
  let (mon, year) := if month + 2 ≥ 12 then (month + 2 - 12, (year + 1) % 65536) else (month + 2, year)
  let mon := (mon + 1) % 256
  let mday := (days + 1) % 256
  let yday ← yearDay year mon mday
  some {
    year, mon, mday, wday := wday % 256, yday := yday % 65536
    hour := seconds.tdiv 3600 % 256
    min := (seconds.tdiv 60).tmod 60 % 256
    sec := seconds.tmod 60 % 256 }

/-- `timeutils_seconds_since_2000` -/
def secondsSince2000 (year month date hour minute second : Int) : Option Int := do
  let days := (← yearDay year month date) - 1 + word (year - 2000 + 3) / 4 - word (year - 2000 + 99) / 100 + word (year - 2000 + 399) / 400
  some (word (second + minute * 60 + hour * 3600 + days * 86400 + (year - 2000) * 31536000))

/-- `while (mday < 1)`, by so many turns at most. -/
def back : Nat → Int → Int → Int → Option (Int × Int × Int)
  | 0, _, _, _ => none
  | turns + 1, year, month, mday =>
    if mday < 1 then do
      let (year, month) := if month - 1 = 0 then (word (year - 1), 12) else (year, month - 1)
      back turns year month (mday + (← daysInMonth year month))
    else some (year, month, mday)

/-- `while ((mp_uint_t)mday > timeutils_days_in_month(year, month))` -/
def forth : Nat → Int → Int → Int → Option (Int × Int × Int)
  | 0, _, _, _ => none
  | turns + 1, year, month, mday => do
    let length ← daysInMonth year month
    if word mday > length then
      let (year, month) := if month + 1 = 13 then (word (year + 1), 1) else (year, month + 1)
      forth turns year month (mday - length)
    else some (year, month, mday)

/-- `timeutils_mktime_2000`, its loops by so many turns at most. -/
def mktime2000 (turns : Nat) (year month mday hours minutes seconds : Int) : Option Int := do
  let (carried, seconds) := floored seconds 60
  let (carried, minutes) := floored (minutes + carried) 60
  let (carried, hours) := floored (hours + carried) 24
  let mday := mday + carried
  let (carried, month) := floored (month - 1) 12
  let (year, month, mday) ← back turns (word (year + carried)) (month + 1) mday
  let (year, month, mday) ← forth turns year month mday
  secondsSince2000 year month mday hours minutes seconds

/-- `timeutils_calc_weekday` -/
def calcWeekday (y m d : Int) : Int :=
  let d := d + if m < 3 then y else y - 2
  let y := if m < 3 then y - 1 else y
  ((23 * m).tdiv 9 + d + 4 + y.tdiv 4 - y.tdiv 100 + y.tdiv 400 + 6).tmod 7

/-! ## Quotients and tables -/

variable {x n q r t y m d h mi s : Int}

theorem floored_eq (hn : 0 < n) : floored x n = (x / n, x % n) := by
  have hpos := Int.emod_nonneg x (Int.ne_of_gt hn)
  have hlt := Int.emod_lt_of_pos x hn
  have habs := abs_of_pos hn
  unfold floored
  rw [Int.tmod_eq_emod, Int.tdiv_eq_ediv, Int.sign_eq_one_of_pos hn]
  split_ifs with hdvd hneg hneg
  · omega
  · simp
  · simp
    omega
  · omega

theorem cycles_eq {days top : Int} (hn : 0 < n) (hpos : 0 ≤ days) (hle : days ≤ top * n) (htop : 0 < top) :
    ∃ q r, cycles days n top = (q, r) ∧ days = q * n + r ∧ 0 ≤ q ∧ q < top ∧ 0 ≤ r ∧ (r < n ∨ r = n ∧ q = top - 1) := by
  have hdiv := Int.mul_ediv_add_emod days n
  have hrest := Int.emod_nonneg days (Int.ne_of_gt hn)
  have hlt := Int.emod_lt_of_pos days hn
  have hq : 0 ≤ days / n := Int.ediv_nonneg hpos (Int.le_of_lt hn)
  rw [Int.mul_comm] at hdiv
  refine ⟨_, _, rfl, (add_sub_cancel _ _).symm, ?_⟩
  rw [Int.tdiv_eq_ediv_of_nonneg hpos]
  split_ifs with hall
  · rw [hall] at hdiv
    rw [hall, Int.sub_mul]
    omega
  · have hle' : days / n ≤ top := Int.ediv_le_of_le_mul hn hle
    omega

theorem daysInMonth_eq (hpos : 1 ≤ m) (hle : m ≤ 12) : daysInMonth y m = some (monthLength (isLeapYear y) m) := by
  unfold daysInMonth
  generalize isLeapYear y = b
  interval_cases m <;> cases b <;> rfl

theorem yearDay_eq (hm : 1 ≤ m ∧ m ≤ 12) (hd : 1 ≤ d ∧ d ≤ 31) : yearDay y m d = some (monthStart (isLeapYear y) m + d) := by
  obtain ⟨hpos, hle⟩ := hm
  have hword : ∀ k, 0 ≤ k → k ≤ 400 → word (k + d) = k + d := by
    intro k _ _
    unfold word
    omega
  have hword' : ∀ k, 0 ≤ k → k ≤ 400 → word (k + d + 1) = k + 1 + d := by
    intro k _ _
    unfold word
    omega
  have htable : daysSinceJan1[(word (m - 1)).toNat]? = some (monthStart false m) := by interval_cases m <;> rfl
  have hstart : 0 ≤ monthStart false m ∧ monthStart false m ≤ 365 ∧
      monthStart (isLeapYear y) m = monthStart false m + if m ≥ 3 ∧ isLeapYear y then 1 else 0 := by
    generalize isLeapYear y = b
    interval_cases m <;> cases b <;> decide
  unfold yearDay
  rw [htable, Option.bind_eq_bind, Option.bind_some, hword _ hstart.1 (by omega), hstart.2.2]
  dsimp only
  rw [hword' _ hstart.1 (by omega)]
  split_ifs
  · rfl
  · simp

/-! ## Dates -/

theorem monthOf_run : ∀ (table : List Int) (month : Int) {d : Int}, 0 ≤ d → d < table.sum →
    ∃ (k : Nat) (rest : Int), monthOf table month d = some (month + k, rest) ∧ k < table.length ∧ d = (table.take k).sum + rest ∧
      0 ≤ rest ∧ rest < table.getD k 0
  | [], _, d, hpos, hlt => by
    rw [List.sum_nil] at hlt
    omega
  | length :: table, month, d, hpos, hlt => by
    rw [List.sum_cons] at hlt
    unfold monthOf
    split_ifs with hle
    · obtain ⟨k, rest, heq, hk, hsum, hrest⟩ := monthOf_run table (month + 1) (d := d - length) (by omega) (by omega)
      refine ⟨k + 1, rest, ?_, Nat.succ_lt_succ hk, ?_, hrest⟩
      · rw [heq]
        push_cast
        rw [add_assoc, add_comm 1 (k : Int)]
      · rw [List.take_succ_cons, List.sum_cons]
        omega
    · exact ⟨0, d, by simp, Nat.zero_lt_succ _, by simp, hpos, by simpa using hle⟩

/-- The month and the day of it, so many days after the first of March. Day 365 is one in a leap year only. -/
theorem monthOf_eq (hpos : 0 ≤ d) (hle : d ≤ 365) (hleap : d = 365 → gregorian (y + 1) = true) :
    ∃ month rest, monthOf marchDays 0 d = some (month, rest) ∧ 0 ≤ month ∧ month < 12 ∧
      (month + 2 < 12 → Valid gregorian y (month + 3) (rest + 1) ∧
        index gregorian y (month + 3) (rest + 1) = 365 * y + leaps gregorian (y + 1) + 60 + d) ∧
      (12 ≤ month + 2 → Valid gregorian (y + 1) (month - 9) (rest + 1) ∧
        index gregorian (y + 1) (month - 9) (rest + 1) = 365 * y + leaps gregorian (y + 1) + 60 + d) := by
  have hleaps := leaps_succ gregorian y
  obtain ⟨k, rest, heq, hk, hsum, hrest, hlt⟩ := monthOf_run marchDays 0 hpos (show d < 366 by omega)
  refine ⟨0 + k, rest, heq, by omega, by change k < 12 at hk; omega, ?_⟩
  change k < 12 at hk
  unfold Valid index monthStart
  interval_cases k <;> norm_num [marchDays, monthLength] at hsum hlt ⊢ <;> grind

theorem valid_day_le (hv : Valid gregorian y m d) : 1 ≤ d ∧ d ≤ 31 := by
  obtain ⟨-, hpos, hle⟩ := hv
  unfold monthLength at hle
  split_ifs at hle <;> omega

theorem yearDay_valid (hv : Valid gregorian y m d) : yearDay y m d = some (index gregorian y m d - index gregorian y 1 1 + 1) := by
  rw [yearDay_eq hv.1 (valid_day_le hv)]
  have hleap : isLeapYear y = gregorian y := rfl
  unfold index
  rw [hleap, monthStart_one]
  congr 1
  omega

theorem yday_range (hv : Valid gregorian y m d) :
    1 ≤ index gregorian y m d - index gregorian y 1 1 + 1 ∧ index gregorian y m d - index gregorian y 1 1 + 1 ≤ 366 := by
  have hpos := one_le_index hv
  have hlt := index_lt_year hv (Int.lt_succ y)
  have hyear : index gregorian (y + 1) 1 1 ≤ index gregorian y 1 1 + 366 := by
    unfold index
    rw [leaps_succ, monthStart_one, monthStart_one]
    split_ifs <;> omega
  omega

/-- The days from the epoch to a date. -/
def daysTo (year month day : Int) : Int := index gregorian year month day - index gregorian 2000 1 1

theorem leaps_since (y : Int) : (y - 2000 + 3) / 4 - (y - 2000 + 99) / 100 + (y - 2000 + 399) / 400 = leaps gregorian y - leaps gregorian 2000 := by
  have hquarter : (y - 2000 + 3) / 4 = (y + 3) / 4 - 500 := by omega
  have hcentury : (y - 2000 + 99) / 100 = (y + 99) / 100 - 20 := by omega
  have hcycle : (y - 2000 + 399) / 400 = (y + 399) / 400 - 5 := by omega
  have hepoch : leaps gregorian 2000 = 485 := by rw [leaps_gregorian]; rfl
  rw [leaps_gregorian y, hepoch, hquarter, hcentury, hcycle]
  clear * -
  omega

theorem secondsSince2000_eq (hv : Valid gregorian y m d) (hpos : 1999 ≤ y) (hlt : y < 2147483648) :
    secondsSince2000 y m d h mi s = some (word (daysTo y m d * 86400 + h * 3600 + mi * 60 + s)) := by
  have hfour : word (y - 2000 + 3) = y - 2000 + 3 := by unfold word; omega
  have hhundred : word (y - 2000 + 99) = y - 2000 + 99 := by unfold word; omega
  have hall : word (y - 2000 + 399) = y - 2000 + 399 := by unfold word; omega
  unfold secondsSince2000
  rw [yearDay_valid hv, Option.bind_eq_bind, Option.bind_some, hfour, hhundred, hall]
  dsimp only
  congr 2
  have hleaps := leaps_since y
  unfold daysTo index
  rw [monthStart_one, monthStart_one]
  clear * - hleaps
  generalize (y - 2000 + 3) / 4 = q, (y - 2000 + 99) / 100 = c, (y - 2000 + 399) / 400 = r at *
  omega

theorem leaps_epoch : leaps gregorian 2000 = 485 := by rw [leaps_gregorian]; rfl

theorem leaps_cycles (y : Int) : leaps gregorian y = (y - 1) / 4 - (y - 1) / 100 + (y - 1) / 400 + 1 ∧
    leaps gregorian (y + 1) = y / 4 - y / 100 + y / 400 + 1 := by
  rw [leaps_gregorian, leaps_gregorian]
  omega

theorem calcWeekday_eq (hv : Valid gregorian y m d) (hpos : 1 ≤ y) : calcWeekday y m d = (daysTo y m d + 5) % 7 := by
  obtain ⟨hlow, hhigh⟩ := valid_day_le hv
  obtain ⟨⟨hm, hm'⟩, -⟩ := hv
  obtain ⟨hbefore, hupto⟩ := leaps_cycles y
  rw [leaps_succ] at hupto
  have hy : 0 ≤ if m < 3 then y - 1 else y := by split_ifs <;> omega
  unfold calcWeekday
  dsimp only
  rw [Int.tdiv_eq_ediv_of_nonneg hy, Int.tdiv_eq_ediv_of_nonneg hy, Int.tdiv_eq_ediv_of_nonneg hy, Int.tdiv_eq_ediv_of_nonneg (by clear * - hm; omega),
    Int.tmod_eq_emod_of_nonneg (by clear hbefore hupto; split_ifs <;> omega)]
  unfold daysTo index
  rw [leaps_epoch, monthStart_one (gregorian 2000)]
  clear hy
  by_cases hearly : m < 3
  · rw [if_pos hearly, if_pos hearly, hbefore]
    clear hbefore hupto
    generalize (y - 1) / 4 = q, (y - 1) / 100 = c, (y - 1) / 400 = r
    obtain rfl | rfl : m = 1 ∨ m = 2 := by omega
    · norm_num [monthStart]
      omega
    · norm_num [monthStart]
      omega
  · rw [if_neg hearly, if_neg hearly]
    generalize y / 4 = q, y / 100 = c, y / 400 = r at hupto ⊢
    clear hbefore
    have hstart : monthStart (gregorian y) m = (367 * m - 362) / 12 - 2 + if gregorian y then 1 else 0 := by
      unfold monthStart
      rw [if_neg (by omega)]
      split_ifs <;> omega
    rw [hstart]
    generalize (if gregorian y then (1 : Int) else 0) = l at *
    -- the code's months are those of the calendar, up to a constant and whole weeks
    have hmonths : 23 * m / 9 % 7 = ((367 * m - 362) / 12 + 2) % 7 := by
      have hlate : 3 ≤ m := Int.not_lt.mp hearly
      clear * - hlate hm'
      interval_cases m <;> rfl
    clear * - hupto hmonths
    generalize 23 * m / 9 = a, (367 * m - 362) / 12 = b at *
    omega

theorem leaps_of_cycles {years q c qc : Int} (hyears : 0 ≤ years ∧ years < 4) (hq : 0 ≤ q ∧ q < 25) (hc : 0 ≤ c ∧ c < 4) :
    leaps gregorian (2000 + years + 4 * q + 100 * c + 400 * qc + 1) = 486 + q + 24 * c + 97 * qc := by
  have hquarter : (2000 + years + 4 * q + 100 * c + 400 * qc) / 4 = 500 + q + 25 * c + 100 * qc := by
    clear hq hc
    omega
  have hcentury : (2000 + years + 4 * q + 100 * c + 400 * qc) / 100 = 20 + c + 4 * qc := by
    clear hc
    omega
  have hcycle : (2000 + years + 4 * q + 100 * c + 400 * qc) / 400 = 5 + qc := by omega
  rw [(leaps_cycles _).2, hquarter, hcentury, hcycle]
  clear * -
  omega

theorem gregorian_of_cycles {q c qc : Int} (hq : 0 ≤ q ∧ q < 25) (h : q < 24 ∨ c = 3) :
    gregorian (2000 + 3 + 4 * q + 100 * c + 400 * qc + 1) = true := by
  unfold gregorian
  rw [decide_eq_true_eq]
  omega

theorem index_epoch : index gregorian 2000 1 1 = 730486 := by
  unfold index
  rw [leaps_epoch, monthStart_one]
  rfl

theorem fields_eq (hv : Valid gregorian y m d) (hpos : 0 ≤ y) (hlt : y < 65536) : y % 65536 = y ∧ m % 256 = m ∧ d % 256 = d ∧
    ∃ yday, yearDay y m d = some yday ∧ yday % 65536 = index gregorian y m d - index gregorian y 1 1 + 1 := by
  have hrange := yday_range hv
  have hd := valid_day_le hv
  have hm := hv.1
  exact ⟨by omega, by omega, by omega, _, yearDay_valid hv, by omega⟩

/-- The cycles that days are taken apart into, and the day of the year from March. -/
theorem cycles_run {days : Int} (hlow : -24856 ≤ days) (hhigh : days < 24856) :
    ∃ qc c q years r₀ r₁ r₂ left, floored days daysPer400y = (qc, r₀) ∧ cycles r₀ daysPer100y 4 = (c, r₁) ∧ cycles r₁ daysPer4y 25 = (q, r₂) ∧
      cycles r₂ 365 4 = (years, left) ∧ (0 ≤ left ∧ left ≤ 365) ∧
      (left = 365 → gregorian (2000 + years + 4 * q + 100 * c + 400 * qc + 1) = true) ∧
      365 * (2000 + years + 4 * q + 100 * c + 400 * qc) + leaps gregorian (2000 + years + 4 * q + 100 * c + 400 * qc + 1) + 60 + left = 730546 + days ∧
      1900 ≤ 2000 + years + 4 * q + 100 * c + 400 * qc ∧ 2000 + years + 4 * q + 100 * c + 400 * qc < 2099 := by
  have hdiv := Int.mul_ediv_add_emod days daysPer400y
  have hrest := Int.emod_nonneg days (show daysPer400y ≠ 0 by decide)
  have hlt := Int.emod_lt_of_pos days (show 0 < daysPer400y by decide)
  rw [floored_eq (by decide)]
  generalize days / daysPer400y = qc, days % daysPer400y = r₀ at *
  unfold daysPer400y at hdiv hlt
  obtain ⟨c, r₁, heq₁, hsum₁, hc, hc', hr₁, hlt₁⟩ := @cycles_eq daysPer100y r₀ 4 (by decide) hrest (by unfold daysPer100y; omega) (by decide)
  unfold daysPer100y at hsum₁ hlt₁
  obtain ⟨q, r₂, heq₂, hsum₂, hq, hq', hr₂, hlt₂⟩ := @cycles_eq daysPer4y r₁ 25 (by decide) hr₁ (by unfold daysPer4y; omega) (by decide)
  unfold daysPer4y at hsum₂ hlt₂
  obtain ⟨years, left, heq₃, hsum₃, hyears, hyears', hleft, hlt₃⟩ := @cycles_eq 365 r₂ 4 (by decide) hr₂ (by omega) (by decide)
  refine ⟨qc, c, q, years, r₀, r₁, r₂, left, rfl, heq₁, heq₂, heq₃, by omega, ?_, ?_, ?_⟩
  · intro hlast
    obtain rfl : years = 3 := by omega
    exact gregorian_of_cycles ⟨hq, hq'⟩ (by omega)
  · rw [leaps_of_cycles ⟨hyears, hyears'⟩ ⟨hq, hq'⟩ ⟨hc, hc'⟩]
    omega
  · have hyear : left ≤ 365 := by omega
    clear hlt₁ hlt₂ hlt₃
    constructor <;> omega

/-- The seconds from 2000-03-01 as the code has them, turned into a date and a time of day. -/
theorem toStructTime_run {x : Int} (hx : signed (word (t - leapoch)) = x) :
    ∃ tm, toStructTime t = some tm ∧ Valid gregorian tm.year tm.mon tm.mday ∧ daysTo tm.year tm.mon tm.mday = x / 86400 + 60 ∧
      (1900 ≤ tm.year ∧ tm.year < 2100) ∧ tm.hour = x % 86400 / 3600 ∧ tm.min = x % 86400 / 60 % 60 ∧ tm.sec = x % 86400 % 60 ∧ tm.wday = (x / 86400 + 2) % 7 ∧
      tm.yday = index gregorian tm.year tm.mon tm.mday - index gregorian tm.year 1 1 + 1 := by
  have hrange : -24856 ≤ x / 86400 ∧ x / 86400 < 24856 := by
    unfold signed at hx
    omega
  have hday : 0 ≤ x % 86400 := Int.emod_nonneg x (by decide)
  have hday' : x % 86400 < 86400 := Int.emod_lt_of_pos x (by decide)
  obtain ⟨qc, c, q, years, r₀, r₁, r₂, left, hqc, hc, hq, hyears, hleft, hlast, hdays, hyear⟩ := cycles_run hrange.1 hrange.2
  unfold toStructTime
  rw [hx, floored_eq (by decide)]
  dsimp only
  rw [@floored_eq (x / 86400 + 2) 7 (by decide), hqc]
  dsimp only
  rw [hc]
  dsimp only
  rw [hq]
  dsimp only
  rw [hyears]
  dsimp only
  clear hx hqc hc hq hyears hrange
  generalize 2000 + years + 4 * q + 100 * c + 400 * qc = year at *
  obtain ⟨month, rest, heq, hmonth, hmonth', hsame, hnext⟩ := monthOf_eq hleft.1 hleft.2 hlast
  obtain ⟨y, m, hpair, hy, hy', hv, hindex⟩ : ∃ y m,
      (if month + 2 ≥ 12 then (month + 2 - 12, (year % 65536 + 1) % 65536) else (month + 2, year % 65536)) = (m - 1, y) ∧
      1900 ≤ y ∧ y < 2100 ∧ Valid gregorian y m (rest + 1) ∧ index gregorian y m (rest + 1) = 730546 + x / 86400 := by
    rw [hdays] at hsame hnext
    by_cases hnew : month + 2 ≥ 12
    · refine ⟨year + 1, month - 9, ?_, by omega, by omega, hnext hnew⟩
      rw [if_pos hnew]
      congr 1 <;> omega
    · refine ⟨year, month + 3, ?_, by omega, by omega, hsame (by omega)⟩
      rw [if_neg hnew]
      congr 1 <;> omega
  obtain ⟨hyear, hmon, hmday, yday, hyday, hfield⟩ := fields_eq hv (by omega) (by omega)
  rw [heq, Option.bind_eq_bind, Option.bind_some]
  dsimp only
  rw [hpair]
  dsimp only
  rw [show m - 1 + 1 = m by omega, hmon, hmday, hyday, Option.bind_eq_bind, Option.bind_some]
  refine ⟨_, rfl, hv, ?_, ⟨hy, hy'⟩, ?_, ?_, ?_, ?_, hfield⟩
  all_goals dsimp only
  all_goals clear hsame hnext hdays hpair heq hlast
  · unfold daysTo
    rw [index_epoch]
    omega
  all_goals clear * - hday hday'
  · rw [Int.tdiv_eq_ediv_of_nonneg hday]
    omega
  · rw [Int.tdiv_eq_ediv_of_nonneg hday, Int.tmod_eq_emod_of_nonneg (Int.ediv_nonneg hday (by decide))]
    omega
  · rw [Int.tmod_eq_emod_of_nonneg hday]
    omega
  · omega

/-! ## From seconds to a date -/

def epoch : Date gregorian := ⟨2000, 1, 1, valid_year gregorian 2000⟩

/-- The date after so many days. -/
def dateAfter (days : Int) : Date gregorian := Date.next^[days.toNat] epoch

/-- A number of seconds is turned into its civil date and time of day, and back. -/
def Converts (t : Int) : Prop :=
  ∃ tm, toStructTime t = some tm ∧
    tm.year = (dateAfter (t / 86400)).year ∧ tm.mon = (dateAfter (t / 86400)).month ∧ tm.mday = (dateAfter (t / 86400)).day ∧
    tm.hour = t / 3600 % 24 ∧ tm.min = t / 60 % 60 ∧ tm.sec = t % 60 ∧
    tm.wday = (5 + t / 86400) % 7 ∧ tm.wday = calcWeekday tm.year tm.mon tm.mday ∧
    tm.yday = index gregorian tm.year tm.mon tm.mday - index gregorian tm.year 1 1 + 1 ∧
    secondsSince2000 tm.year tm.mon tm.mday tm.hour tm.min tm.sec = some t

theorem daysTo_dateAfter {days : Int} (hpos : 0 ≤ days) : daysTo (dateAfter days).year (dateAfter days).month (dateAfter days).day = days := by
  have hindex := index_iterate epoch days.toNat
  unfold daysTo dateAfter
  unfold Date.index at hindex
  rw [hindex]
  unfold epoch
  dsimp only
  omega

theorem parts_eq (t : Int) : t / 86400 * 86400 + t / 3600 % 24 * 3600 + t / 60 % 60 * 60 + t % 60 = t := by omega

theorem day_of_leapoch (t : Int) : (t - leapoch) / 86400 = t / 86400 - 60 := by
  unfold leapoch
  omega

theorem rest_of_leapoch (t : Int) : (t - leapoch) % 86400 = t % 86400 := Int.sub_mul_emod_self_left t 86400 60

theorem hour_of_day (t : Int) : t % 86400 / 3600 = t / 3600 % 24 := by omega

theorem minute_of_day (t : Int) : t % 86400 / 60 % 60 = t / 60 % 60 := by omega

theorem second_of_day (t : Int) : t % 86400 % 60 = t % 60 := Int.emod_emod_of_dvd t (by decide)

theorem signed_of_leapoch (hpos : 0 ≤ t) (hfits : t < 2147483648 + leapoch) : signed (word (t - leapoch)) = t - leapoch := by
  unfold signed word leapoch at *
  omega

/-- What the conversion gives where the seconds fit the signed number. -/
theorem toStructTime_fits (hpos : 0 ≤ t) (hfits : t < 2147483648 + leapoch) :
    ∃ tm, toStructTime t = some tm ∧ Valid gregorian tm.year tm.mon tm.mday ∧ daysTo tm.year tm.mon tm.mday = t / 86400 ∧
      (1900 ≤ tm.year ∧ tm.year < 2100) ∧ tm.hour = t / 3600 % 24 ∧ tm.min = t / 60 % 60 ∧ tm.sec = t % 60 ∧ tm.wday = (5 + t / 86400) % 7 ∧
      tm.yday = index gregorian tm.year tm.mon tm.mday - index gregorian tm.year 1 1 + 1 := by
  obtain ⟨tm, heq, hv, hdays, hyear, hhour, hmin, hsec, hwday, hyday⟩ := toStructTime_run (signed_of_leapoch hpos hfits)
  rw [day_of_leapoch] at hdays hwday
  rw [rest_of_leapoch] at hhour hmin hsec
  rw [hour_of_day] at hhour
  rw [minute_of_day] at hmin
  rw [second_of_day] at hsec
  rw [Int.sub_add_cancel] at hdays
  refine ⟨tm, heq, hv, hdays, hyear, hhour, hmin, hsec, ?_, hyday⟩
  rw [hwday]
  clear * -
  omega

theorem converts_iff (hpos : 0 ≤ t) (hlt : t < 4294967296) : Converts t ↔ t < 2147483648 + leapoch := by
  have hafter := daysTo_dateAfter (Int.ediv_nonneg hpos (show (0 : Int) ≤ 86400 by decide))
  constructor
  · rintro ⟨tm', heq', hy, hm, hd, -⟩
    obtain ⟨tm, heq, -, hdays, -⟩ := @toStructTime_run t _ rfl
    obtain rfl := Option.some.inj (heq'.symm.trans heq)
    rw [← hy, ← hm, ← hd, hdays] at hafter
    by_contra hge
    clear heq heq' hdays hy hm hd
    unfold signed word leapoch at *
    omega
  · intro hfits
    obtain ⟨tm, heq, hv, hdays, hyear, hhour, hmin, hsec, hwday, hyday⟩ := toStructTime_fits hpos hfits
    have heqs := eq_of_index hv (dateAfter (t / 86400)).valid (by
      unfold daysTo at hdays hafter
      clear * - hdays hafter
      omega)
    refine ⟨tm, heq, heqs.1, heqs.2.1, heqs.2.2, hhour, hmin, hsec, hwday, ?_, hyday, ?_⟩
    · rw [calcWeekday_eq hv (Int.le_trans (by decide) hyear.1), hdays, hwday, Int.add_comm]
    · have hepoch : 2000 ≤ tm.year := by
        by_contra hbefore
        have hold := index_lt_year hv (Int.not_le.mp hbefore)
        have hday : 0 ≤ t / 86400 := Int.ediv_nonneg hpos (by decide)
        unfold daysTo at hdays
        clear * - hold hday hdays
        omega
      rw [secondsSince2000_eq hv (by clear * - hepoch; omega) (by clear * - hyear; omega), hdays, hhour, hmin, hsec, parts_eq]
      congr 1
      exact Int.emod_eq_of_lt hpos hlt

theorem parts_of_seconds {days hour minute second : Int} (hhour : 0 ≤ hour ∧ hour < 24) (hminute : 0 ≤ minute ∧ minute < 60)
    (hsecond : 0 ≤ second ∧ second < 60) (ht : t = days * 86400 + hour * 3600 + minute * 60 + second) :
    t / 86400 = days ∧ t / 3600 % 24 = hour ∧ t / 60 % 60 = minute ∧ t % 60 = second := by
  obtain ⟨hminutes, hsec⟩ : t / 60 = (days * 24 + hour) * 60 + minute ∧ t % 60 = second :=
    (Int.ediv_emod_unique (by decide)).mpr ⟨by rw [ht]; omega, hsecond⟩
  obtain ⟨hhours, hmin⟩ : t / 60 / 60 = days * 24 + hour ∧ t / 60 % 60 = minute :=
    (Int.ediv_emod_unique (by decide)).mpr ⟨by rw [hminutes]; clear ht hminutes hsec; omega, hminute⟩
  obtain ⟨hdays, hhour'⟩ : t / 60 / 60 / 24 = days ∧ t / 60 / 60 % 24 = hour :=
    (Int.ediv_emod_unique (by decide)).mpr ⟨by rw [hhours]; clear * -; omega, hhour⟩
  rw [Int.ediv_ediv_of_nonneg (by decide), Int.ediv_ediv_of_nonneg (by decide)] at hdays
  rw [Int.ediv_ediv_of_nonneg (by decide)] at hhour'
  exact ⟨hdays, hhour', hmin, hsec⟩

/-- A date and a time of day, through the seconds and back. -/
theorem toStructTime_of_fields {hour minute second : Int} (hv : Valid gregorian y m d) (hpos : 2000 ≤ y) (hhour : 0 ≤ hour ∧ hour < 24)
    (hminute : 0 ≤ minute ∧ minute < 60) (hsecond : 0 ≤ second ∧ second < 60)
    (hfits : daysTo y m d * 86400 + hour * 3600 + minute * 60 + second < 2147483648 + leapoch) :
    ∃ t, secondsSince2000 y m d hour minute second = some t ∧
      toStructTime t = some ⟨y, m, d, hour, minute, second, calcWeekday y m d, index gregorian y m d - index gregorian y 1 1 + 1⟩ := by
  have hfirst := one_le_index hv
  have hleaps := @leaps_mono gregorian 2000 y hpos
  have hdays : 0 ≤ daysTo y m d := by
    have hstart : index gregorian y 1 1 - index gregorian 2000 1 1 = 365 * (y - 2000) + (leaps gregorian y - leaps gregorian 2000) := by
      unfold index
      rw [monthStart_one, monthStart_one]
      clear * -
      omega
    unfold daysTo
    clear * - hstart hfirst hleaps hpos
    omega
  obtain ⟨t, ht⟩ : ∃ t, t = daysTo y m d * 86400 + hour * 3600 + minute * 60 + second := ⟨_, rfl⟩
  rw [← ht] at hfits
  have hnonneg : 0 ≤ t := by
    clear * - ht hdays hhour hminute hsecond
    omega
  obtain ⟨hday, hh, hmin, hsec⟩ := parts_of_seconds hhour hminute hsecond ht
  obtain ⟨tm, heq, hv', hdays', hyear, hhour', hmin', hsec', hwday, hyday⟩ := toStructTime_fits hnonneg hfits
  rw [hday] at hdays' hwday
  obtain ⟨rfl, hmon, hmday⟩ := eq_of_index hv' hv (by unfold daysTo at hdays'; exact sub_left_inj.mp hdays')
  rw [hmon, hmday] at hyday
  refine ⟨t, ?_, ?_⟩
  · rw [secondsSince2000_eq hv (Int.le_trans (by decide) hpos) (Int.lt_trans hyear.2 (by decide)), ← ht]
    congr 1
    exact Int.emod_eq_of_lt hnonneg (Int.lt_trans hfits (by decide))
  · rw [heq, calcWeekday_eq hv (Int.le_trans (by decide) hpos), Int.add_comm, ← hwday, ← hyday, ← hmon, ← hmday, ← hh, ← hmin, ← hsec,
      ← hhour', ← hmin', ← hsec']

/-- 29 February 2024. -/
theorem toStructTime_of_fields_leap : ∃ t, secondsSince2000 2024 2 29 23 59 58 = some t ∧
    toStructTime t = some ⟨2024, 2, 29, 23, 59, 58, calcWeekday 2024 2 29, index gregorian 2024 2 29 - index gregorian 2024 1 1 + 1⟩ :=
  toStructTime_of_fields ⟨by decide, by decide⟩ (by decide) (by decide) (by decide) (by decide)
    (by rw [daysTo, index, index, leaps_gregorian, leaps_gregorian]; decide)

/-! ## From fields to seconds -/

/-- A year is leap, as the code reads it off its word. -/
def readLeap (year : Int) : Bool := isLeapYear (word year)

theorem word_add (x k : Int) : word (word x + k) = word (x + k) := Int.emod_add_emod x 4294967296 k

theorem daysInMonth_read (hm : 1 ≤ m ∧ m ≤ 12) : daysInMonth (word y) m = some (monthLength (readLeap y) m) := daysInMonth_eq hm.1 hm.2

theorem back_month (hm : 1 ≤ m ∧ m ≤ 12) : ∃ y' m', (if m - 1 = 0 then (word (word y - 1), 12) else (word y, m - 1)) = (word y', m') ∧
    (1 ≤ m' ∧ m' ≤ 12) ∧ ∀ d, index readLeap y' m' (d + monthLength (readLeap y') m') = index readLeap y m d := by
  split_ifs with hjan
  · obtain rfl : m = 1 := by omega
    refine ⟨y - 1, 12, ?_, by decide, ?_⟩
    · rw [show word (word y - 1) = word (y - 1) from word_add y (-1)]
    · intro d
      rw [← index_year, Int.sub_add_cancel]
  · refine ⟨y, m - 1, rfl, by omega, ?_⟩
    intro d
    rw [← index_month (by omega) (by omega), Int.sub_add_cancel]

theorem forth_month (hm : 1 ≤ m ∧ m ≤ 12) : ∃ y' m', (if m + 1 = 13 then (word (word y + 1), 1) else (word y, m + 1)) = (word y', m') ∧
    (1 ≤ m' ∧ m' ≤ 12) ∧ ∀ d, index readLeap y' m' (d - monthLength (readLeap y) m) = index readLeap y m d := by
  split_ifs with hdec
  · obtain rfl : m = 12 := by omega
    refine ⟨y + 1, 1, ?_, by decide, ?_⟩
    · rw [word_add]
    · intro d
      rw [index_year, Int.sub_add_cancel]
  · refine ⟨y, m + 1, rfl, by omega, ?_⟩
    intro d
    rw [index_month hm.1 (by omega), Int.sub_add_cancel]

theorem monthLength_le (b : Bool) (m : Int) : monthLength b m ≤ 31 := by
  unfold monthLength
  split_ifs <;> omega

theorem back_run : ∀ (turns : Nat) {y m d : Int}, 1 ≤ m ∧ m ≤ 12 → 1 - d ≤ turns →
    ∃ y' m' d', back (turns + 1) (word y) m d = some (word y', m', d') ∧ (1 ≤ m' ∧ m' ≤ 12) ∧ 1 ≤ d' ∧ (d' ≤ d ∨ d' ≤ 31) ∧
      index readLeap y' m' d' = index readLeap y m d := by
  intro turns
  induction turns with
  | zero =>
    intro y m d hm hturns
    refine ⟨y, m, d, ?_, hm, by omega, by omega, rfl⟩
    unfold back
    rw [if_neg (by omega)]
  | succ turns ih =>
    intro y m d hm hturns
    unfold back
    by_cases hbefore : d < 1
    · obtain ⟨y₁, m₁, hmonth, hm₁, hindex⟩ := @back_month y m hm
      have hpos := monthLength_ge (readLeap y₁) m₁
      have hle := monthLength_le (readLeap y₁) m₁
      obtain ⟨y', m', d', heq, hm', hd', hle', hindex'⟩ := @ih y₁ m₁ (d + monthLength (readLeap y₁) m₁) hm₁ (by omega)
      refine ⟨y', m', d', ?_, hm', hd', by omega, hindex'.trans (hindex d)⟩
      rw [if_pos hbefore, hmonth]
      dsimp only
      rw [daysInMonth_read hm₁, Option.bind_eq_bind, Option.bind_some, heq]
    · rw [if_neg hbefore]
      exact ⟨y, m, d, rfl, hm, by omega, by omega, rfl⟩

theorem forth_run : ∀ (turns : Nat) {y m d : Int}, 1 ≤ m ∧ m ≤ 12 → 1 ≤ d → d ≤ turns → d < 4294967296 →
    ∃ y' m' d', forth turns (word y) m d = some (word y', m', d') ∧ Valid readLeap y' m' d' ∧ index readLeap y' m' d' = index readLeap y m d := by
  intro turns
  induction turns with
  | zero =>
    intro y m d hm hd hturns hsmall
    omega
  | succ turns ih =>
    intro y m d hm hd hturns hsmall
    have hword : word d = d := Int.emod_eq_of_lt (by omega) hsmall
    unfold forth
    rw [daysInMonth_read hm, Option.bind_eq_bind, Option.bind_some, hword]
    have hpos := monthLength_ge (readLeap y) m
    by_cases hpast : d > monthLength (readLeap y) m
    · obtain ⟨y₁, m₁, hmonth, hm₁, hindex⟩ := @forth_month y m hm
      obtain ⟨y', m', d', heq, hv, hindex'⟩ := @ih y₁ m₁ (d - monthLength (readLeap y) m) hm₁ (by omega) (by omega) (by omega)
      refine ⟨y', m', d', ?_, hv, hindex'.trans (hindex d)⟩
      rw [if_pos hpast, hmonth]
      exact heq
    · rw [if_neg hpast]
      exact ⟨y, m, d, rfl, ⟨hm, hd, by omega⟩, rfl⟩

/-- What the leap years that the code reads before a year add to the days up to it. -/
def slip (year : Int) : Int := leaps readLeap year - leaps gregorian year

/-- Between a year before year 0 and year 0 the code reads as many leap years as there are. -/
def LeapsRead (year : Int) : Prop :=
  Nat.count (fun k => readLeap (-1 - k)) (-year).toNat = Nat.count (fun k => gregorian (-1 - k)) (-year).toNat

theorem leaps_ahead {a : Int} (hpos : 0 ≤ a) (hlt : a < 4294967296) : leaps readLeap a = leaps gregorian a := by
  have hshift := @leaps_shift gregorian readLeap 0 0 a.toNat (by
    intro y hy hy'
    have hword : word y = y + 0 := Int.emod_eq_of_lt hy (by omega) |>.trans (Int.add_zero y).symm
    unfold readLeap
    rw [hword]
    rfl)
  rw [show 0 + (a.toNat : Int) = a by omega, Int.add_zero, Int.add_zero, leaps_zero, leaps_zero] at hshift
  omega

theorem slip_small {a : Int} (hlow : -2147483648 ≤ a) (hhigh : a < 2147483648) : -2 ≤ slip a ∧ slip a ≤ 2 := by
  unfold slip
  by_cases hpos : 0 ≤ a
  · rw [leaps_ahead hpos (by omega)]
    omega
  · have hshift := @leaps_shift gregorian readLeap 4294967296 a (-a).toNat (by
      intro y hy hy'
      have hword : word y = y + 4294967296 := by
        unfold word
        omega
      unfold readLeap
      rw [hword]
      rfl)
    rw [show a + ((-a).toNat : Int) = 0 by omega, leaps_zero, leaps_gregorian, leaps_gregorian] at hshift
    rw [leaps_gregorian]
    omega

theorem slip_eq_zero_iff {a : Int} (hlt : a < 4294967296) : slip a = 0 ↔ LeapsRead a := by
  have hahead : Nat.count (fun k => readLeap k) a.toNat = Nat.count (fun k => gregorian k) a.toNat := by
    have heq := @leaps_ahead a.toNat (by omega) (by omega)
    unfold leaps at heq
    rw [Int.toNat_natCast, show (-(a.toNat : Int)).toNat = 0 by omega, Nat.count_zero, Nat.count_zero] at heq
    omega
  unfold slip LeapsRead leaps
  omega

theorem index_read : index readLeap y m d = index gregorian y m d + slip (if m ≤ 2 then y else y + 1) := by
  unfold slip index monthStart
  have hread := leaps_succ readLeap y
  have htrue := leaps_succ gregorian y
  split_ifs at * <;> omega

/-- The seconds from the epoch, each field carried into the next. -/
def exactSeconds (year month mday hours minutes seconds : Int) : Int :=
  daysTo (year + (month - 1) / 12) ((month - 1) % 12 + 1) mday * 86400 + hours * 3600 + minutes * 60 + seconds

/-- A date that the code's calendar and the true one have but some days apart. -/
theorem year_near {D k : Int} (hv : Valid readLeap y m d) (hindex : index readLeap y m d = index gregorian 2000 1 1 + D + k) (hk : -2 ≤ k ∧ k ≤ 2)
    (hD : 0 ≤ D) (hend : D < daysTo 2137 1 1) : 1999 ≤ y ∧ y < 2138 := by
  have hahead : ∀ {a : Int}, 1999 ≤ a → a < 4294967296 → index readLeap a 1 1 = 365 * a + leaps gregorian a + 1 := by
    intro a hlow hhigh
    unfold index
    rw [monthStart_one, leaps_ahead (by omega) hhigh]
    omega
  have hbegin := hahead (show (1999 : Int) ≤ 1999 by decide) (by decide)
  have hlast := hahead (show (1999 : Int) ≤ 2138 by decide) (by decide)
  have hnear : leaps gregorian 1999 = 485 ∧ leaps gregorian 2138 = 519 := by
    rw [leaps_gregorian, leaps_gregorian]
    decide
  have hspan : daysTo 2137 1 1 = 50039 := by
    unfold daysTo index
    rw [leaps_gregorian, leaps_gregorian, monthStart_one, monthStart_one]
    rfl
  rw [index_epoch] at hindex
  constructor
  · by_contra hbefore
    have hlt := index_lt_year hv (show y < 1999 by omega)
    omega
  · by_contra hafter
    have hle : index readLeap 2138 1 1 ≤ index readLeap y 1 1 := by
      have hmono := @leaps_mono readLeap 2138 y (by omega)
      unfold index
      rw [monthStart_one, monthStart_one]
      omega
    have hpos := one_le_index hv
    omega

theorem exactSeconds_carried (year month mday hours minutes seconds : Int) :
    exactSeconds year month mday hours minutes seconds =
      daysTo (year + (month - 1) / 12) ((month - 1) % 12 + 1) (mday + (hours + (minutes + seconds / 60) / 60) / 24) * 86400 +
        (hours + (minutes + seconds / 60) / 60) % 24 * 3600 + (minutes + seconds / 60) % 60 * 60 + seconds % 60 := by
  unfold exactSeconds daysTo index
  omega

theorem mktime2000_eq {turns : Nat} {year month mday hours minutes seconds : Int} (hturns : 2097152 ≤ turns)
    (hfields : ∀ field ∈ [year, month, mday, hours, minutes, seconds], |field| < 1048576)
    (hpos : 0 ≤ exactSeconds year month mday hours minutes seconds) (hlt : exactSeconds year month mday hours minutes seconds < daysTo 2137 1 1 * 86400) :
    mktime2000 turns (word year) month mday hours minutes seconds =
      some (word (exactSeconds year month mday hours minutes seconds + slip (year + (month + 9) / 12) * 86400)) := by
  simp only [List.forall_mem_cons, abs_lt] at hfields
  obtain ⟨⟨_, _⟩, ⟨_, _⟩, ⟨_, _⟩, ⟨_, _⟩, ⟨_, _⟩, ⟨_, _⟩, -⟩ := hfields
  rw [exactSeconds_carried] at hpos hlt ⊢
  unfold mktime2000
  rw [floored_eq (by decide)]
  dsimp only
  rw [floored_eq (by decide)]
  dsimp only
  rw [floored_eq (by decide)]
  dsimp only
  rw [floored_eq (by decide)]
  dsimp only
  rw [word_add]
  have hfeb : year + (month + 9) / 12 = if (month - 1) % 12 + 1 ≤ 2 then year + (month - 1) / 12 else year + (month - 1) / 12 + 1 := by
    clear * -
    split_ifs <;> omega
  have hm : 1 ≤ (month - 1) % 12 + 1 ∧ (month - 1) % 12 + 1 ≤ 12 := by omega
  have hfew : -1200000 ≤ mday + (hours + (minutes + seconds / 60) / 60) / 24 ∧ mday + (hours + (minutes + seconds / 60) / 60) / 24 ≤ 1200000 := by omega
  have hslip : -2 ≤ slip (year + (month + 9) / 12) ∧ slip (year + (month + 9) / 12) ≤ 2 := slip_small (by omega) (by omega)
  rw [hfeb] at hslip ⊢
  have hday : ∀ {h mi s D : Int}, 0 ≤ D * 86400 + h % 24 * 3600 + mi % 60 * 60 + s % 60 →
      D * 86400 + h % 24 * 3600 + mi % 60 * 60 + s % 60 < daysTo 2137 1 1 * 86400 → 0 ≤ D ∧ D < daysTo 2137 1 1 := by
    intro h mi s D _ _
    omega
  obtain ⟨hD, hend⟩ := hday hpos hlt
  generalize mday + (hours + (minutes + seconds / 60) / 60) / 24 = days at *
  generalize year + (month - 1) / 12 = y₀, (month - 1) % 12 + 1 = m₀ at *
  obtain ⟨turns, rfl⟩ := Nat.exists_eq_add_of_lt (show 0 < turns by omega)
  rw [Nat.zero_add]
  obtain ⟨y₁, m₁, d₁, hback, hm₁, hd₁, hle₁, hindex₁⟩ := @back_run turns y₀ m₀ days hm (by omega)
  obtain ⟨y₂, m₂, d₂, hforth, hv, hindex₂⟩ := @forth_run (turns + 1) y₁ m₁ d₁ hm₁ hd₁ (by omega) (by omega)
  rw [hback, Option.bind_eq_bind, Option.bind_some]
  dsimp only
  rw [hforth, Option.bind_some]
  have hindex := hindex₂.trans (hindex₁.trans index_read)
  obtain ⟨hlow, hhigh⟩ := year_near hv (by rw [hindex, daysTo, add_sub_cancel]) hslip hD hend
  have hword : word y₂ = y₂ := Int.emod_eq_of_lt (by omega) (by omega)
  have hleap : readLeap y₂ = gregorian y₂ := by
    unfold readLeap
    rw [hword]
    rfl
  have hv' : Valid gregorian y₂ m₂ d₂ := by
    unfold Valid at hv ⊢
    rwa [hleap] at hv
  have hdays : daysTo y₂ m₂ d₂ = daysTo y₀ m₀ days + slip (if m₀ ≤ 2 then y₀ else y₀ + 1) := by
    have hahead := leaps_ahead (show 0 ≤ y₂ by omega) (by omega)
    unfold daysTo
    unfold index at hindex ⊢
    rw [hahead, hleap] at hindex
    clear * - hindex
    omega
  rw [hword, secondsSince2000_eq hv' hlow (by omega), hdays]
  congr 2
  omega

instance (year : Int) : Decidable (LeapsRead year) := inferInstanceAs (Decidable (_ = _))

theorem mktime2000_iff {turns : Nat} {year month mday hours minutes seconds : Int} (hturns : 2097152 ≤ turns)
    (hfields : ∀ field ∈ [year, month, mday, hours, minutes, seconds], |field| < 1048576)
    (hpos : 0 ≤ exactSeconds year month mday hours minutes seconds) (hlt : exactSeconds year month mday hours minutes seconds < daysTo 2137 1 1 * 86400) :
    mktime2000 turns (word year) month mday hours minutes seconds = some (exactSeconds year month mday hours minutes seconds) ↔
      exactSeconds year month mday hours minutes seconds < 4294967296 ∧ LeapsRead (year + (month + 9) / 12) := by
  have hfields' := hfields
  simp only [List.forall_mem_cons, abs_lt] at hfields'
  obtain ⟨⟨_, _⟩, ⟨_, _⟩, -⟩ := hfields'
  have hslip := @slip_small (year + (month + 9) / 12) (by omega) (by omega)
  rw [mktime2000_eq hturns hfields hpos hlt, ← slip_eq_zero_iff (by omega), Option.some_inj]
  generalize exactSeconds year month mday hours minutes seconds = exact at *
  unfold word
  constructor
  · intro h
    refine ⟨by rw [← h]; exact Int.emod_lt_of_pos _ (by decide), ?_⟩
    clear * - h hslip
    omega
  · rintro ⟨hfits, hslip⟩
    clear * - hpos hfits hslip
    omega

theorem timeutils_iff {turns : Nat} {t year month mday hours minutes seconds : Int} (hturns : 2097152 ≤ turns) (ht : 0 ≤ t ∧ t < 4294967296)
    (hfields : ∀ field ∈ [year, month, mday, hours, minutes, seconds], |field| < 1048576)
    (hpos : 0 ≤ exactSeconds year month mday hours minutes seconds) (hlt : exactSeconds year month mday hours minutes seconds < daysTo 2137 1 1 * 86400) :
    (Converts t ↔ t < 2147483648 + leapoch) ∧
      (mktime2000 turns (word year) month mday hours minutes seconds = some (exactSeconds year month mday hours minutes seconds) ↔
        exactSeconds year month mday hours minutes seconds < 4294967296 ∧ LeapsRead (year + (month + 9) / 12)) :=
  ⟨converts_iff ht.1 ht.2, mktime2000_iff hturns hfields hpos hlt⟩

theorem timeutils_iff_epoch : Converts 0 ∧ mktime2000 2097152 (word 2000) 1 1 0 0 0 = some (exactSeconds 2000 1 1 0 0 0) := by
  have hzero : exactSeconds 2000 1 1 0 0 0 = 0 := by
    simp [exactSeconds, daysTo]
  have hend : 0 < daysTo 2137 1 1 * 86400 := by
    rw [daysTo, index, index, leaps_gregorian, leaps_gregorian]
    decide
  obtain ⟨hdate, hcount⟩ := @timeutils_iff 2097152 0 2000 1 1 0 0 0 (Nat.le_refl _) (by decide) (by decide) (by rw [hzero]) (by rwa [hzero])
  exact ⟨hdate.mpr (by decide), hcount.mpr ⟨by rw [hzero]; decide, by decide⟩⟩

/-- 19 March 2068, and a count of days from the first of January of the year -100. -/
theorem timeutils_counterexample :
    ¬ Converts 2152667648 ∧ mktime2000 2097152 (word 0) (-1199) 767374 0 0 0 ≠ some (exactSeconds 0 (-1199) 767374 0 0 0) := by
  constructor
  · rw [converts_iff (by decide) (by decide)]
    decide
  · rw [Ne, mktime2000_iff (Nat.le_refl _) (by decide) (by simp only [exactSeconds, daysTo, index, leaps_gregorian]; decide)
      (by simp only [exactSeconds, daysTo, index, leaps_gregorian]; decide)]
    rintro ⟨-, hread⟩
    revert hread
    decide

end PythonUltra.Shared.Timeutils
