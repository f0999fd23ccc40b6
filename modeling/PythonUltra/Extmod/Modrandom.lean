/-
  PythonUltra.Extmod.Modrandom — the random integers (extmod/modrandom.c), whatever the generator yields.

  An integer is a word of `w` bits, 32 or more, whose sums wrap, and the bound that a value is
  drawn below is narrowed to 32 bits. The generator is the list of the values it yields: where
  they run out before one is accepted, the call is still running. A call draws from a range
  exactly where its bound is not narrowed to 0 and, with a step, the sum that is divided by it
  fits the word (`random_iff`).
-/

import Mathlib.Algebra.GroupWithZero.Nat
import Mathlib.Data.Int.ConditionallyCompleteOrder
import Mathlib.Data.Nat.Bitwise

namespace PythonUltra.Extmod.Modrandom

/-! ## The code -/

variable (w : Nat)

/-- A machine word. -/
def IsWord (x : Int) : Prop := -2 ^ (w - 1) ≤ x ∧ x < 2 ^ (w - 1)

/-- `mp_int_t`, which wraps. -/
def wrap (x : Int) : Int := (x + 2 ^ (w - 1)) % 2 ^ w - 2 ^ (w - 1)

/-- `(uint32_t)x` -/
def narrow (x : Int) : Nat := (x % 4294967296).toNat

/-- What a call does: still running where the values have run out. The division of the least word by -1 traps. -/
inductive Outcome (α : Type) where
  | value (x : α)
  | valueError
  | indexError
  | running
  | trap
  deriving DecidableEq

/-- The loop of `yasmarang_randbelow` that widens the mask, by so many turns at most. -/
def widen (n : Nat) : Nat → Nat → Option Nat
  | 0, _ => none
  | turns + 1, mask => if n &&& mask < n then widen n turns ((mask <<< 1 ||| 1) % 4294967296) else some mask

/-- The loop that draws. -/
def accept (n mask : Nat) : List (BitVec 32) → Option Nat
  | [] => none
  | value :: values => if value.toNat &&& mask ≥ n then accept n mask values else some (value.toNat &&& mask)

/-- `yasmarang_randbelow` -/
def randbelow (values : List (BitVec 32)) (n : Nat) : Option Nat := (widen n 32 1).bind fun mask => accept n mask values

/-- `mp_obj_new_int(start + step * yasmarang_randbelow(n))` -/
def drawn (values : List (BitVec 32)) (start step : Int) (n : Nat) : Outcome Int :=
  match randbelow values n with
  | some r => .value (wrap w (start + step * r))
  | none => .running

/-- `mod_random_randrange` of one argument, -/
def randrangeStop (values : List (BitVec 32)) (stop : Int) : Outcome Int := if stop > 0 then drawn w values 0 1 (narrow stop) else .valueError

/-- of two -/
def randrangeStart (values : List (BitVec 32)) (start stop : Int) : Outcome Int :=
  if start < stop then drawn w values start 1 (narrow (wrap w (stop - start))) else .valueError

/-- and of three. -/
def randrangeStep (values : List (BitVec 32)) (start stop step : Int) : Outcome Int :=
  if step > 0 then
    let n := (wrap w (stop - start + step - 1)).tdiv step
    if n > 0 then drawn w values start step (narrow n) else .valueError
  else if step < 0 then
    let size := wrap w (stop - start + step + 1)
    if size = -2 ^ (w - 1) ∧ step = -1 then .trap
    else if size.tdiv step > 0 then drawn w values start step (narrow (size.tdiv step)) else .valueError
  else .valueError

/-- `mod_random_randint` -/
def randint (values : List (BitVec 32)) (a b : Int) : Outcome Int :=
  if a ≤ b then drawn w values a 1 (narrow (wrap w (b - a + 1))) else .valueError

/-- `mod_random_choice` -/
def choice {α : Type} (values : List (BitVec 32)) (seq : List α) : Outcome α :=
  if seq.length > 0 then
    match randbelow values (narrow seq.length) with
    | some r => (seq[r]?).elim .indexError .value
    | none => .running
  else .indexError

/-! ## Ranges -/

/-- An element of Python's range. A step of 0 has none. -/
def InRange (start stop step x : Int) : Prop :=
  (0 < step ∧ start ≤ x ∧ x < stop ∧ step ∣ x - start) ∨ (step < 0 ∧ stop < x ∧ x ≤ start ∧ step ∣ x - start)

/-- The call raises where there is no element. Else it only returns elements, and does so for some values. -/
def Draws {α : Type} (element : α → Prop) (empty : Outcome α) (call : List (BitVec 32) → Outcome α) : Prop :=
  ((∀ x, ¬ element x) → ∀ values, call values = empty) ∧
    ((∃ x, element x) → (∀ values, call values = .running ∨ ∃ x, element x ∧ call values = .value x) ∧ ∃ values x, call values = .value x)

/-- A number that is not positive, or that 32 bits do not take for 0. -/
def NarrowFits (n : Int) : Prop := n ≤ 0 ∨ n % 4294967296 ≠ 0

/-- Where the sum that is divided by the step fits the word, and its quotient 32 bits. -/
def StepFits (start stop step : Int) : Prop :=
  (0 < step → IsWord w (stop - start + step - 1) ∧ NarrowFits ((stop - start + step - 1) / step)) ∧
    (step < 0 → IsWord w (stop - start + step + 1) ∧ ¬ (stop - start = -2 ^ (w - 1) ∧ step = -1) ∧
      NarrowFits ((start - stop - step - 1) / -step))

section
variable {w} {n mask r : Nat} {x start stop step : Int} {values : List (BitVec 32)}

/-! ## Below a bound -/

theorem mask_step : ∀ k < 31, ((2 ^ (k + 1) - 1) <<< 1 ||| 1) % 4294967296 = 2 ^ (k + 2) - 1 := by decide

/-- The mask is widened to all ones, as many as the bound takes. -/
theorem widen_spec (hn : n < 2 ^ 32) : ∀ {turns k : Nat}, k < 32 → 31 ≤ turns + k →
    ∃ j, widen n (turns + 1) (2 ^ (k + 1) - 1) = some (2 ^ j - 1) ∧ n < 2 ^ j
  | turns, k, hk, hturns => by
    rw [widen, Nat.and_two_pow_sub_one_eq_mod]
    by_cases hlt : n < 2 ^ (k + 1)
    · rw [Nat.mod_eq_of_lt hlt, if_neg (Nat.lt_irrefl n)]
      exact ⟨k + 1, rfl, hlt⟩
    · have hmod : n % 2 ^ (k + 1) < n := Nat.lt_of_lt_of_le (Nat.mod_lt n (Nat.two_pow_pos _)) (Nat.le_of_not_lt hlt)
      have hk' : k < 31 := by
        by_contra hlast
        obtain rfl : k = 31 := by omega
        exact hlt hn
      obtain ⟨turns, rfl⟩ : ∃ turns', turns = turns' + 1 := ⟨turns - 1, by omega⟩
      rw [if_pos hmod, mask_step k hk']
      exact @widen_spec hn turns (k + 1) (by omega) (by omega)

theorem randbelow_eq (hn : n < 2 ^ 32) : ∃ j, n < 2 ^ j ∧ ∀ values, randbelow values n = accept n (2 ^ j - 1) values := by
  obtain ⟨j, hwiden, hlt⟩ := @widen_spec n hn 31 0 (by omega) (by omega)
  refine ⟨j, hlt, fun values => ?_⟩
  have hone : 2 ^ (0 + 1) - 1 = 1 := rfl
  rw [hone] at hwiden
  rw [randbelow, hwiden]
  rfl

theorem accept_lt (h : accept n mask values = some r) : r < n := by
  induction values with
  | nil => cases h
  | cons value values ih =>
    unfold accept at h
    split at h
    · exact ih h
    · rename_i hlt
      rw [← Option.some.inj h]
      exact Nat.lt_of_not_le hlt

theorem randbelow_lt (h : randbelow values n = some r) : r < n := by
  obtain ⟨mask, -, haccept⟩ := Option.bind_eq_some_iff.mp h
  exact accept_lt haccept

/-- Every value below the bound is drawn, at the first turn, where the generator yields it. -/
theorem randbelow_reaches (hn : n < 2 ^ 32) (hr : r < n) : randbelow [BitVec.ofNat 32 r] n = some r := by
  obtain ⟨j, hlt, heq⟩ := randbelow_eq hn
  have hvalue : (BitVec.ofNat 32 r).toNat &&& (2 ^ j - 1) = r := by
    rw [BitVec.toNat_ofNat, Nat.mod_eq_of_lt (by omega), Nat.and_two_pow_sub_one_eq_mod, Nat.mod_eq_of_lt (by omega)]
  rw [heq, accept, hvalue, if_neg (Nat.not_le.mpr hr)]

theorem randbelow_zero : randbelow values 0 = none := by
  rcases h : randbelow values 0 with _ | r
  · rfl
  · exact absurd (randbelow_lt h) (Nat.not_lt_zero r)

/-! ## Words -/

theorem word_eq (hw : 32 ≤ w) : ∃ c : Int, 1 ≤ c ∧ (2 : Int) ^ (w - 1) = 2147483648 * c ∧ (2 : Int) ^ w = 4294967296 * c := by
  have hpos : (0 : Int) < 2 ^ (w - 32) := Int.pow_pos (by decide)
  refine ⟨2 ^ (w - 32), by omega, ?_, ?_⟩
  · rw [show (2147483648 : Int) = 2 ^ 31 by decide, ← pow_add]
    congr 1
    omega
  · rw [show (4294967296 : Int) = 2 ^ 32 by decide, ← pow_add]
    congr 1
    omega

theorem wrap_of_isWord (hw : 32 ≤ w) (h : IsWord w x) : wrap w x = x := by
  obtain ⟨c, hc, hhalf, hword⟩ := word_eq hw
  unfold IsWord at h
  rw [hhalf] at h
  rw [wrap, hhalf, hword, Int.emod_eq_of_lt (by omega) (by omega)]
  omega

theorem wrap_above (hw : 32 ≤ w) (h1 : 2 ^ (w - 1) ≤ x) (h2 : x < 2 ^ (w - 1) + 2 ^ w) : wrap w x = x - 2 ^ w := by
  obtain ⟨c, hc, hhalf, hword⟩ := word_eq hw
  rw [hhalf] at h1
  rw [hhalf, hword] at h2
  rw [wrap, hhalf, hword, ← Int.sub_emod_right, Int.emod_eq_of_lt (by omega) (by omega)]
  omega

theorem wrap_below (hw : 32 ≤ w) (h1 : -2 ^ (w - 1) - 2 ^ w ≤ x) (h2 : x < -2 ^ (w - 1)) : wrap w x = x + 2 ^ w := by
  obtain ⟨c, hc, hhalf, hword⟩ := word_eq hw
  rw [hhalf, hword] at h1
  rw [hhalf] at h2
  rw [wrap, hhalf, hword, ← Int.add_emod_right, Int.emod_eq_of_lt (by omega) (by omega)]
  omega

theorem narrow_wrap (hw : 32 ≤ w) : narrow (wrap w x) = narrow x := by
  obtain ⟨c, hc, hhalf, hword⟩ := word_eq hw
  have hdvd : (4294967296 : Int) ∣ wrap w x - x := by
    have hsub := Int.emod_add_mul_ediv (x + 2 ^ (w - 1)) (2 ^ w)
    refine ⟨-(c * ((x + 2 ^ (w - 1)) / 2 ^ w)), ?_⟩
    rw [wrap]
    rw [hword] at hsub ⊢
    rw [mul_assoc] at hsub
    generalize c * ((x + 2 ^ (w - 1)) / (4294967296 * c)) = q at hsub ⊢
    omega
  unfold narrow
  rw [Int.emod_eq_emod_iff_emod_sub_eq_zero.mpr (Int.emod_eq_zero_of_dvd hdvd)]

theorem narrow_lt : narrow x < 2 ^ 32 := by
  unfold narrow
  omega

/-! ## Ranges -/

/-- The elements of a range whose step is positive, one for each number below the count. -/
theorem inRange_up (hstep : 0 < step) : InRange start stop step x ↔ ∃ i, 0 ≤ i ∧ i < (stop - start + step - 1) / step ∧ x = start + step * i := by
  have hlt : ∀ i : Int, i < (stop - start + step - 1) / step ↔ start + step * i < stop := by
    intro i
    rw [← Int.add_one_le_iff, Int.le_ediv_iff_mul_le hstep, Int.add_mul, Int.mul_comm i step]
    omega
  unfold InRange
  constructor
  · rintro (⟨-, hstart, hstop, i, hi⟩ | ⟨hneg, -⟩)
    · refine ⟨i, ?_, (hlt i).mpr (by omega), by omega⟩
      by_contra hneg
      have : step * i < 0 := Int.mul_neg_of_pos_of_neg hstep (by omega)
      omega
    · omega
  · rintro ⟨i, hi, hcount, rfl⟩
    have := Int.mul_nonneg (Int.le_of_lt hstep) hi
    exact .inl ⟨hstep, by omega, (hlt i).mp hcount, i, by omega⟩

theorem inRange_neg : InRange start stop step x ↔ InRange (-start) (-stop) (-step) (-x) := by
  have hdvd : -step ∣ -x - -start ↔ step ∣ x - start := by
    rw [Int.neg_dvd, show -x - -start = -(x - start) by omega, Int.dvd_neg]
  unfold InRange
  rw [hdvd]
  constructor
  · rintro (⟨h1, h2, h3, h4⟩ | ⟨h1, h2, h3, h4⟩)
    · exact .inr ⟨by omega, by omega, by omega, h4⟩
    · exact .inl ⟨by omega, by omega, by omega, h4⟩
  · rintro (⟨h1, h2, h3, h4⟩ | ⟨h1, h2, h3, h4⟩)
    · exact .inr ⟨by omega, by omega, by omega, h4⟩
    · exact .inl ⟨by omega, by omega, by omega, h4⟩

theorem inRange_down (hstep : step < 0) :
    InRange start stop step x ↔ ∃ i, 0 ≤ i ∧ i < (start - stop - step - 1) / -step ∧ x = start + step * i := by
  rw [inRange_neg, inRange_up (by omega), show -stop - -start + -step - 1 = start - stop - step - 1 by omega]
  refine exists_congr fun i => and_congr_right fun _ => and_congr_right fun _ => ?_
  rw [Int.neg_mul]
  omega

theorem drawn_some (h : randbelow values n = some r) : drawn w values start step n = .value (wrap w (start + step * r)) := by
  rw [drawn, h]

theorem drawn_none (h : randbelow values n = none) : drawn w values start step n = .running := by
  rw [drawn, h]

/-- A draw from so many elements, where their number is narrowed to 32 bits. -/
theorem draws_iff (hw : 32 ≤ w) {count : Int} (hcount : 0 < count) {element : Int → Prop}
    (helement : ∀ x, element x ↔ ∃ i, 0 ≤ i ∧ i < count ∧ x = start + step * i) (hwords : ∀ x, element x → IsWord w x) {empty : Outcome Int} :
    Draws element empty (fun values => drawn w values start step (narrow count)) ↔ NarrowFits count := by
  have hfirst : element start := (helement start).mpr ⟨0, by omega, hcount, by omega⟩
  have hle : (narrow count : Int) ≤ count := by
    unfold narrow
    omega
  constructor
  · rintro ⟨-, hdraws⟩
    obtain ⟨-, values, x, hvalue⟩ := hdraws ⟨start, hfirst⟩
    refine .inr fun hzero => ?_
    have hnarrow : narrow count = 0 := by
      unfold narrow
      rw [hzero]
      rfl
    have hrunning : drawn w values start step (narrow count) = .running := drawn_none (by rw [hnarrow, randbelow_zero])
    cases hrunning.symm.trans hvalue
  · intro hfits
    have hpos : 0 < narrow count := by
      have := hfits.resolve_left (by omega)
      unfold narrow
      omega
    refine ⟨fun hnone => absurd hfirst (hnone start), fun _ => ⟨fun values => ?_, [BitVec.ofNat 32 0], start, ?_⟩⟩
    · rcases hdraw : randbelow values (narrow count) with _ | r
      · exact .inl (drawn_none hdraw)
      · have hlt := randbelow_lt hdraw
        have hmem : element (start + step * r) := (helement _).mpr ⟨r, by omega, by omega, rfl⟩
        refine .inr ⟨_, hmem, (drawn_some hdraw).trans ?_⟩
        rw [wrap_of_isWord hw (hwords _ hmem)]
    · have hstart : start + step * (0 : Nat) = start := by
        rw [Int.natCast_zero, Int.mul_zero, Int.add_zero]
      refine (drawn_some (randbelow_reaches narrow_lt hpos)).trans ?_
      rw [hstart, wrap_of_isWord hw (hwords _ hfirst)]

theorem draws_empty {α : Type} {element : α → Prop} {empty : Outcome α} {call : List (BitVec 32) → Outcome α} (hnone : ∀ x, ¬ element x)
    (hcall : ∀ values, call values = empty) : Draws element empty call :=
  ⟨fun _ => hcall, fun ⟨x, hx⟩ => absurd hx (hnone x)⟩

/-! ## The calls -/

theorem randrangeStart_iff (hw : 32 ≤ w) (hstart : IsWord w start) (hstop : stop ≤ 2 ^ (w - 1)) :
    Draws (InRange start stop 1) .valueError (fun values => randrangeStart w values start stop) ↔ NarrowFits (stop - start) := by
  have hcount : (stop - start + 1 - 1) / 1 = stop - start := by omega
  have hmem : ∀ x, InRange start stop 1 x ↔ ∃ i, 0 ≤ i ∧ i < stop - start ∧ x = start + 1 * i := by
    intro x
    rw [inRange_up (by decide), hcount]
  by_cases hlt : start < stop
  · have hcall : (fun values => randrangeStart w values start stop) = fun values => drawn w values start 1 (narrow (stop - start)) := by
      funext values
      rw [randrangeStart, if_pos hlt, narrow_wrap hw]
    rw [hcall]
    refine draws_iff hw (by omega) hmem fun x hx => ?_
    obtain ⟨i, h1, h2, rfl⟩ := (hmem x).mp hx
    unfold IsWord at *
    omega
  · refine iff_of_true (draws_empty (fun x hx => ?_) fun values => if_neg hlt) (.inl (by omega))
    obtain ⟨i, h1, h2, -⟩ := (hmem x).mp hx
    omega

theorem randrangeStop_iff (hw : 32 ≤ w) (hstop : IsWord w stop) :
    Draws (InRange 0 stop 1) .valueError (fun values => randrangeStop w values stop) ↔ NarrowFits stop := by
  have hzero : IsWord w 0 := by
    obtain ⟨c, hc, hhalf, -⟩ := word_eq hw
    rw [IsWord, hhalf]
    omega
  have hcall : (fun values => randrangeStop w values stop) = fun values => randrangeStart w values 0 stop := by
    funext values
    rw [randrangeStop, randrangeStart, narrow_wrap hw, Int.sub_zero]
  have hiff := @randrangeStart_iff w 0 stop hw hzero (Int.le_of_lt hstop.2)
  rw [Int.sub_zero] at hiff
  rw [hcall]
  exact hiff

theorem randint_iff {a b : Int} (hw : 32 ≤ w) (ha : IsWord w a) (hb : IsWord w b) :
    Draws (InRange a (b + 1) 1) .valueError (fun values => randint w values a b) ↔ NarrowFits (b - a + 1) := by
  have hsize : b + 1 - a = b - a + 1 := by omega
  have hcall : (fun values => randint w values a b) = fun values => randrangeStart w values a (b + 1) := by
    funext values
    rw [randint, randrangeStart, hsize]
    simp only [Int.lt_add_one_iff]
  rw [hcall, randrangeStart_iff hw ha (Int.add_one_le_of_lt hb.2), hsize]

/-- A quotient of C is positive, and rounded down, exactly from the divisor on. -/
theorem tdiv_pos_iff {d s : Int} (hs : 0 < s) : 0 < d.tdiv s ↔ s ≤ d := by
  constructor
  · intro hpos
    by_contra hlt
    rcases Int.lt_or_le d 0 with hneg | hnonneg
    · have hle : d.tdiv s ≤ 0 := by
        have := Int.tdiv_nonneg (a := -d) (b := s) (by omega) (by omega)
        rw [Int.neg_tdiv] at this
        omega
      omega
    · rw [Int.tdiv_eq_ediv_of_nonneg hnonneg, Int.ediv_eq_zero_of_lt hnonneg (by omega)] at hpos
      omega
  · intro hle
    have hone : 1 ≤ d / s := (Int.le_ediv_iff_mul_le hs).mpr (by omega)
    rw [Int.tdiv_eq_ediv_of_nonneg (by omega)]
    omega

/-- The call with a step of either sign, once the step is taken to be positive. -/
theorem counted_iff (hw : 32 ≤ w) {d s : Int} (hs : 0 < s) {element : Int → Prop}
    (helement : ∀ x, element x ↔ ∃ i, 0 ≤ i ∧ i < d / s ∧ x = start + step * i) (hwords : ∀ x, element x → IsWord w x) :
    Draws element .valueError (fun values => if d.tdiv s > 0 then drawn w values start step (narrow (d.tdiv s)) else .valueError) ↔
      NarrowFits (d / s) := by
  by_cases hle : s ≤ d
  · have hpos := (tdiv_pos_iff hs).mpr hle
    rw [Int.tdiv_eq_ediv_of_nonneg (show 0 ≤ d by omega)] at hpos ⊢
    simp only [gt_iff_lt, hpos, if_true]
    exact draws_iff hw hpos helement hwords
  · have hcount : d / s ≤ 0 := by
      have := Int.ediv_lt_of_lt_mul hs (show d < 1 * s by omega)
      omega
    refine iff_of_true (draws_empty (fun x hx => ?_) fun values => if_neg fun hpos => hle ((tdiv_pos_iff hs).mp hpos)) (.inl hcount)
    obtain ⟨i, h1, h2, -⟩ := (helement x).mp hx
    omega

/-- A call that raises, or traps, where there is an element, or does not raise where there is none. -/
theorem not_draws_of_refused {element : Int → Prop} {empty : Outcome Int} {call : List (BitVec 32) → Outcome Int} (hx : element x)
    (hcall : ∀ values y, call values ≠ .value y) : ¬ Draws element empty call := by
  rintro ⟨-, hdraws⟩
  obtain ⟨-, values, y, hvalue⟩ := hdraws ⟨x, hx⟩
  exact hcall values y hvalue

theorem not_draws_of_ne {element : Int → Prop} {empty : Outcome Int} {call : List (BitVec 32) → Outcome Int} (hnone : ∀ x, ¬ element x)
    (hcall : call values ≠ empty) : ¬ Draws element empty call := fun hdraws => hcall (hdraws.1 hnone values)

theorem drawn_nil {n : Nat} : drawn w [] start step n = .running := by
  apply drawn_none
  rw [randbelow]
  rcases widen n 32 1 with _ | mask <;> rfl

theorem inRange_empty_up (hstep : 0 < step) (h : stop ≤ start) (x : Int) : ¬ InRange start stop step x := by
  unfold InRange
  omega

theorem inRange_empty_down (hstep : step < 0) (h : start ≤ stop) (x : Int) : ¬ InRange start stop step x := by
  unfold InRange
  omega

theorem inRange_first (h : (0 < step ∧ start < stop) ∨ (step < 0 ∧ stop < start)) : InRange start stop step start := by
  have hdvd : step ∣ start - start := by
    rw [Int.sub_self]
    exact Int.dvd_zero step
  rcases h with ⟨hstep, hlt⟩ | ⟨hstep, hlt⟩
  · exact .inl ⟨hstep, Int.le_refl _, hlt, hdvd⟩
  · exact .inr ⟨hstep, hlt, Int.le_refl _, hdvd⟩

theorem randrangeStep_up (hw : 32 ≤ w) (hstart : IsWord w start) (hstop : IsWord w stop) (hword : IsWord w step) (hstep : 0 < step) :
    Draws (InRange start stop step) .valueError (fun values => randrangeStep w values start stop step) ↔
      IsWord w (stop - start + step - 1) ∧ NarrowFits ((stop - start + step - 1) / step) := by
  have hcall : (fun values => randrangeStep w values start stop step) = fun values =>
      if (wrap w (stop - start + step - 1)).tdiv step > 0 then drawn w values start step (narrow ((wrap w (stop - start + step - 1)).tdiv step))
      else .valueError := by
    funext values
    rw [randrangeStep, if_pos hstep]
  rw [hcall]
  obtain ⟨c, hc, hhalf, hpow⟩ := word_eq hw
  have hwords : ∀ x, InRange start stop step x → IsWord w x := by
    intro x hx
    unfold IsWord InRange at *
    omega
  by_cases hfits : IsWord w (stop - start + step - 1)
  · rw [wrap_of_isWord hw hfits, counted_iff hw hstep (fun x => inRange_up hstep) hwords]
    exact (and_iff_right hfits).symm
  · refine iff_of_false ?_ fun h => hfits h.1
    unfold IsWord at hfits hstart hstop hword
    by_cases hbig : 2 ^ (w - 1) ≤ stop - start + step - 1
    · rw [wrap_above hw hbig (by omega)]
      have hneg := (tdiv_pos_iff hstep).not.mpr (show ¬ step ≤ stop - start + step - 1 - 2 ^ w by omega)
      refine not_draws_of_refused (inRange_first (.inl ⟨hstep, by omega⟩)) fun values y hvalue => ?_
      cases (if_neg hneg).symm.trans hvalue
    · rw [wrap_below hw (by omega) (by omega)]
      have hpos := (tdiv_pos_iff hstep).mpr (show step ≤ stop - start + step - 1 + 2 ^ w by omega)
      refine @not_draws_of_ne [] _ _ _ (inRange_empty_up hstep (by omega)) fun hraised => ?_
      cases drawn_nil.symm.trans ((if_pos hpos).symm.trans hraised)

theorem randrangeStep_down (hw : 32 ≤ w) (hstart : IsWord w start) (hstop : IsWord w stop) (hword : IsWord w step) (hstep : step < 0) :
    Draws (InRange start stop step) .valueError (fun values => randrangeStep w values start stop step) ↔
      IsWord w (stop - start + step + 1) ∧ ¬ (stop - start = -2 ^ (w - 1) ∧ step = -1) ∧ NarrowFits ((start - stop - step - 1) / -step) := by
  have hsign : ∀ d : Int, d.tdiv step = (-d).tdiv (-step) := fun d => (Int.neg_tdiv_neg d step).symm
  have hcall : (fun values => randrangeStep w values start stop step) = fun values =>
      if wrap w (stop - start + step + 1) = -2 ^ (w - 1) ∧ step = -1 then .trap
      else if (-wrap w (stop - start + step + 1)).tdiv (-step) > 0 then
        drawn w values start step (narrow ((-wrap w (stop - start + step + 1)).tdiv (-step)))
      else .valueError := by
    funext values
    rw [randrangeStep, if_neg (Int.not_lt.mpr (Int.le_of_lt hstep)), if_pos hstep, ← hsign]
  rw [hcall]
  obtain ⟨c, hc, hhalf, hpow⟩ := word_eq hw
  have hwords : ∀ x, InRange start stop step x → IsWord w x := by
    intro x hx
    unfold IsWord InRange at *
    omega
  have hneg : 0 < -step := by omega
  by_cases hfits : IsWord w (stop - start + step + 1)
  · rw [wrap_of_isWord hw hfits]
    by_cases htrap : stop - start = -2 ^ (w - 1) ∧ step = -1
    · refine iff_of_false ?_ fun h => h.2.1 htrap
      refine not_draws_of_refused (inRange_first (.inr ⟨hstep, by omega⟩)) fun values y hvalue => ?_
      cases (if_pos (show stop - start + step + 1 = -2 ^ (w - 1) ∧ step = -1 by omega)).symm.trans hvalue
    · simp only [if_neg (show ¬ (stop - start + step + 1 = -2 ^ (w - 1) ∧ step = -1) by omega),
        show -(stop - start + step + 1) = start - stop - step - 1 by omega]
      rw [counted_iff hw hneg (fun x => inRange_down hstep) hwords]
      exact ⟨fun h => ⟨hfits, htrap, h⟩, fun h => h.2.2⟩
  · refine iff_of_false ?_ fun h => hfits h.1
    unfold IsWord at hfits hstart hstop hword
    by_cases hbig : 2 ^ (w - 1) ≤ stop - start + step + 1
    · rw [wrap_above hw hbig (by omega)]
      refine @not_draws_of_ne [] _ _ _ (inRange_empty_down hstep (by omega)) fun hraised => ?_
      by_cases htrap : stop - start + step + 1 - 2 ^ w = -2 ^ (w - 1) ∧ step = -1
      · cases (if_pos htrap).symm.trans hraised
      · have hpos := (tdiv_pos_iff hneg).mpr (show -step ≤ -(stop - start + step + 1 - 2 ^ w) by omega)
        cases drawn_nil.symm.trans ((if_pos hpos).symm.trans ((if_neg htrap).symm.trans hraised))
    · rw [wrap_below hw (by omega) (by omega)]
      have hnot := (tdiv_pos_iff hneg).not.mpr (show ¬ -step ≤ -(stop - start + step + 1 + 2 ^ w) by omega)
      refine not_draws_of_refused (inRange_first (.inr ⟨hstep, by omega⟩)) fun values y hvalue => ?_
      have htrap : ¬ (stop - start + step + 1 + 2 ^ w = -2 ^ (w - 1) ∧ step = -1) := by omega
      cases (if_neg hnot).symm.trans ((if_neg htrap).symm.trans hvalue)

theorem randrangeStep_iff (hw : 32 ≤ w) (hstart : IsWord w start) (hstop : IsWord w stop) (hword : IsWord w step) :
    Draws (InRange start stop step) .valueError (fun values => randrangeStep w values start stop step) ↔ StepFits w start stop step := by
  unfold StepFits
  rcases Int.lt_trichotomy step 0 with hneg | rfl | hpos
  · rw [randrangeStep_down hw hstart hstop hword hneg]
    exact ⟨fun h => ⟨fun hpos => by omega, fun _ => h⟩, fun h => h.2 hneg⟩
  · refine iff_of_true (draws_empty (fun x hx => ?_) fun values => ?_) ⟨fun h => absurd h (Int.lt_irrefl 0), fun h => absurd h (Int.lt_irrefl 0)⟩
    · unfold InRange at hx
      omega
    · rw [randrangeStep, if_neg (Int.lt_irrefl 0), if_neg (Int.lt_irrefl 0)]
  · rw [randrangeStep_up hw hstart hstop hword hpos]
    exact ⟨fun h => ⟨fun _ => h, fun hneg => by omega⟩, fun h => h.1 hpos⟩

theorem choice_iff {α : Type} (seq : List α) : Draws (· ∈ seq) .indexError (fun values => choice values seq) ↔ NarrowFits seq.length := by
  by_cases hlen : seq.length > 0
  · have hrunning : ∀ {values : List (BitVec 32)}, randbelow values (narrow seq.length) = none → choice values seq = .running := by
      intro values hdraw
      rw [choice, if_pos hlen, hdraw]
    have hle : narrow seq.length ≤ seq.length := by
      unfold narrow
      omega
    have hitem : ∀ {values : List (BitVec 32)} {r : Nat} (hr : r < seq.length), randbelow values (narrow seq.length) = some r →
        choice values seq = .value seq[r] := by
      intro values r hr hdraw
      rw [choice, if_pos hlen, hdraw]
      dsimp only
      rw [List.getElem?_eq_getElem hr]
      rfl
    constructor
    · rintro ⟨-, hdraws⟩
      obtain ⟨-, values, x, hvalue⟩ := hdraws ⟨seq[0], List.getElem_mem hlen⟩
      refine .inr fun hzero => ?_
      have hnarrow : narrow seq.length = 0 := by
        unfold narrow
        rw [hzero]
        rfl
      cases (hrunning (by rw [hnarrow, randbelow_zero])).symm.trans hvalue
    · intro hfits
      have hpos : 0 < narrow seq.length := by
        have := hfits.resolve_left (by omega)
        unfold narrow
        omega
      refine ⟨fun hnone => absurd (List.getElem_mem hlen) (hnone seq[0]), fun _ =>
        ⟨fun values => ?_, [BitVec.ofNat 32 0], seq[0], hitem hlen (randbelow_reaches narrow_lt hpos)⟩⟩
      rcases hdraw : randbelow values (narrow seq.length) with _ | r
      · exact .inl (hrunning hdraw)
      · have hr := randbelow_lt hdraw
        exact .inr ⟨seq[r], List.getElem_mem _, hitem (by omega) hdraw⟩
  · obtain rfl : seq = [] := List.eq_nil_of_length_eq_zero (by omega)
    exact iff_of_true (draws_empty (fun x => List.not_mem_nil) fun _ => rfl) (.inl (Int.le_refl 0))

end

end PythonUltra.Extmod.Modrandom
