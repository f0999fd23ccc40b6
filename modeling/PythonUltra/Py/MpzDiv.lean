/-
  PythonUltra.Py.MpzDiv — division in mpz.c gives Python's quotient and remainder.

  mpn_div is long division. Numerator and denominator are shifted so that the denominator
  leads with half the base or more, the denominator as it is read (`nextNorm`). A digit of
  the quotient is estimated from the leading digits; what is left after the subtraction is
  the window less `quo * den`, a borrow included, and the estimate is never too small
  (`div_le_estimate`), so adding back ends when the borrow is gone. `Divides` is the
  invariant from digit to digit. mpz_divmod_inpl then turns quotient and remainder of the
  magnitudes into those of a floor division.
-/

import PythonUltra.Py.MpzExact

namespace PythonUltra.Py.Mpz

open PythonUltra.Lib PythonUltra.Lib.Digits

variable {ι : Type} [DecidableEq ι] {c : Config} {h h' : Heap c ι} {num den quo : Ref ι}

/-! ## Shifting on the way -/

theorem shl_or {x k s : Nat} (hk : k < 2 ^ s) : x <<< s ||| k = k + x * 2 ^ s := by
  rw [Nat.shiftLeft_eq, Nat.mul_comm x, ← Nat.two_pow_add_eq_or_of_lt hk, Nat.add_comm]

theorem dbl_shl {x s : Nat} (hx : x < c.base) (hs : s ≤ c.digSize) : c.dbl (x <<< s) = x <<< s := by
  refine Config.dbl_of_lt ?_
  rw [Nat.shiftLeft_eq]
  exact Nat.mul_lt_mul_of_lt_of_le hx (Nat.pow_le_pow_right (by decide) hs) c.base_pos

theorem and_msb_eq_zero {d : Nat} (hd : d < c.base) : d &&& c.msb = 0 ↔ d < c.msb := by
  have hb := c.four_le_digSize
  have hmsb : 0 < c.msb := Nat.two_pow_pos _
  rw [Config.msb, Nat.and_two_pow]
  by_cases hlow : d < 2 ^ (c.digSize - 1)
  · simp [Nat.testBit_lt_two_pow hlow, hlow]
  · have hbit : d.testBit (c.digSize - 1) = true :=
      Nat.testBit_of_two_pow_le_and_two_pow_add_one_gt (Nat.not_lt.mp hlow) (by rwa [Nat.sub_add_cancel (by omega)])
    simp [hbit, hlow]

omit [DecidableEq ι] in
/-- A leading bit is found, at most `digSize - 1` bits down. -/
theorem normShift_spec {d : Nat} (hd : d ≠ 0) (hlt : d < c.base) :
    ∃ s, normShift d h = (.ok s, h) ∧ s < c.digSize ∧ c.msb ≤ d * 2 ^ s ∧ d * 2 ^ s < c.base := by
  have hb := c.four_le_digSize
  have hbase : c.base = 2 * c.msb := by
    rw [Config.base, Config.msb, ← Nat.pow_succ', Nat.succ_eq_add_one, Nat.sub_add_cancel (by omega)]
  suffices hloop : ∀ fuel e shift, e ≠ 0 → e < c.base → c.base ≤ e * 2 ^ fuel →
      ∃ s, Prog.loop Fault.stuck (fun t : Nat × Nat => pure (if t.1 &&& c.msb = 0 then .inl (c.dig (t.1 <<< 1), t.2 + 1) else .inr t.2))
        fuel (e, shift) h = (.ok (shift + s), h) ∧ s < fuel ∧ c.msb ≤ e * 2 ^ s ∧ e * 2 ^ s < c.base by
    obtain ⟨s, hrun, hs⟩ := hloop c.digSize d 0 hd hlt (Nat.le_mul_of_pos_left _ (Nat.pos_of_ne_zero hd))
    rw [Nat.zero_add] at hrun
    exact ⟨s, hrun, hs⟩
  intro fuel
  induction fuel with
  | zero =>
    intro e shift _ hlt hle
    rw [Nat.pow_zero, Nat.mul_one] at hle
    omega
  | succ fuel ih =>
    intro e shift he hlt hle
    by_cases hlow : e < c.msb
    · have htwo : c.dig (e <<< 1) = e * 2 := by
        rw [Nat.shiftLeft_eq, Nat.pow_one, Config.dig_of_lt (by omega)]
      obtain ⟨s, hrun, hs, hl, hu⟩ := ih (e * 2) (shift + 1) (by omega) (by omega) (by rw [Nat.mul_assoc, ← Nat.pow_succ']; exact hle)
      refine ⟨s + 1, ?_, by omega, ?_, ?_⟩
      · rw [Prog.loop_next (congrArg (fun x => (Except.ok x, h)) (if_pos ((and_msb_eq_zero hlt).mpr hlow))), htwo, hrun,
          Nat.add_assoc, Nat.add_comm 1 s]
      · rw [Nat.pow_succ', ← Nat.mul_assoc]
        exact hl
      · rw [Nat.pow_succ', ← Nat.mul_assoc]
        exact hu
    · refine ⟨0, ?_, Nat.succ_pos _, by omega, by omega⟩
      exact Prog.loop_done (congrArg (fun x => (Except.ok x, h)) (if_neg (mt (and_msb_eq_zero hlt).mp hlow)))

/-! ## The denominator as it is read -/

/-- What digit `q` of `den` adds to the shifted denominator. -/
def shifted (h : Heap c ι) (den : Ref ι) (s q : Nat) : Nat := (h den).dig q * 2 ^ s

/-- `d_norm` before position `q`. -/
def dNormAt (h : Heap c ι) (den : Ref ι) (s : Nat) : Nat → Nat
  | 0 => 0
  | q + 1 => carry c.base (shifted h den s) 0 q + shifted h den s q

/-- The digits of the shifted denominator. -/
def normDig (h : Heap c ι) (den : Ref ι) (s q : Nat) : Nat := sumDigit c.base (shifted h den s) 0 q

omit [DecidableEq ι] in
theorem dNormAt_div (s q : Nat) : dNormAt h den s q / c.base = carry c.base (shifted h den s) 0 q := by
  cases q with
  | zero => exact Nat.zero_div _
  | succ q => rfl

omit [DecidableEq ι] in
theorem and_mask_dNormAt (s q : Nat) : dNormAt h den s (q + 1) &&& c.mask = normDig h den s q := Config.and_mask _

omit [DecidableEq ι] in
theorem normDig_lt (s q : Nat) : normDig h den s q < c.base := Nat.mod_lt _ c.base_pos

/-- The denominator of a division: below the base, its top digit shifted up to the top of a digit. -/
structure Denom (h : Heap c ι) (den : Ref ι) (l s : Nat) : Prop where
  pos : 0 < l
  fits : l ≤ (h den).alloc
  below : ∀ q < l, (h den).dig q < c.base
  shift_lt : s < c.digSize
  high : c.msb ≤ (h den).dig (l - 1) * 2 ^ s
  room : (h den).dig (l - 1) * 2 ^ s < c.base

namespace Denom

variable {l s : Nat} (hd : Denom h den l s)
include hd

omit [DecidableEq ι]

theorem carry_lt {q : Nat} (hq : q ≤ l) : carry c.base (shifted h den s) 0 q < 2 ^ s := carry_shift_lt hd.below hq

/-- Reading the next digit on the way of a pass over `num`. -/
theorem nextNorm_eq {p q : Nat} (hq : q < l) (hne : den ≠ num) (ha : Above h h' num p) :
    nextNorm den s q (dNormAt h den s q) h' = (.ok (dNormAt h den s (q + 1)), h') := by
  have hread : readDig den q h' = (.ok ((h den).dig q), h') := ha.readDig (by have := hd.fits; omega) fun e => absurd e hne
  rw [nextNorm, Prog.bind_of_ok hread]
  rw [dbl_shl (hd.below q hq) (Nat.le_of_lt hd.shift_lt), Config.shiftRight_digSize, dNormAt_div, shl_or (hd.carry_lt (Nat.le_of_lt hq))]
  rfl

/-- Nothing is shifted out at the top. -/
theorem carry_top : carry c.base (shifted h den s) 0 l = 0 := by
  obtain ⟨m, rfl⟩ := Nat.exists_eq_succ_of_ne_zero hd.pos.ne'
  have hroom := hd.room
  have hcarry := hd.carry_lt (q := m) (Nat.le_succ m)
  have hdvd : 2 ^ s ∣ c.base := Nat.pow_dvd_pow 2 (Nat.le_of_lt hd.shift_lt)
  -- the top digit is a multiple of the power shifted by, and so is the base
  obtain ⟨k, hk⟩ := hdvd
  rw [Nat.succ_sub_one, hk, Nat.mul_comm] at hroom
  have hle := Nat.mul_le_mul_left (2 ^ s) (Nat.succ_le_of_lt (Nat.lt_of_mul_lt_mul_left hroom))
  rw [← hk, Nat.mul_succ] at hle
  show (carry c.base (shifted h den s) 0 m + shifted h den s m) / c.base = 0
  refine Nat.div_eq_of_lt ?_
  rw [shifted, Nat.mul_comm]
  omega

theorem num_normDig : Digits.num c.base (normDig h den s) l = Digits.num c.base (h den).dig l * 2 ^ s := by
  have hsum := num_sumDigit (B := c.base) (shifted h den s) 0 l
  rw [hd.carry_top, Nat.mul_zero, Nat.add_zero, Nat.zero_add] at hsum
  refine Eq.trans ?_ (hsum.trans (num_mul_digits _ _ _))
  rfl

theorem top_eq : Digits.num c.base (h den).dig l * 2 ^ s / c.base ^ (l - 1) = dNormAt h den s l := by
  have hpos := hd.pos
  obtain ⟨m, rfl⟩ := Nat.exists_eq_succ_of_ne_zero hpos.ne'
  rw [← hd.num_normDig, num_div c.base_pos (fun q _ => normDig_lt s q) (Nat.sub_le _ _), Nat.succ_sub_one,
    show m.succ - m = 0 + 1 by omega, num_succ, num_zero, Nat.zero_add, Nat.pow_zero, Nat.mul_one, Nat.add_zero]
  have htop : (carry c.base (shifted h den s) 0 m + shifted h den s m) / c.base = 0 := hd.carry_top
  exact Nat.mod_eq_of_lt ((Nat.div_eq_zero_iff_lt c.base_pos).mp htop)

theorem base_le_top : c.base ≤ 2 * dNormAt h den s l := by
  have hb := c.four_le_digSize
  have hbase : c.base = 2 * c.msb := by
    rw [Config.base, Config.msb, ← Nat.pow_succ', Nat.succ_eq_add_one, Nat.sub_add_cancel (by omega)]
  have hhigh := hd.high
  obtain ⟨m, rfl⟩ := Nat.exists_eq_succ_of_ne_zero hd.pos.ne'
  rw [Nat.succ_sub_one] at hhigh
  have hle : shifted h den s m ≤ dNormAt h den s m.succ := Nat.le_add_left _ _
  have hshift : c.msb ≤ shifted h den s m := hhigh
  omega

/-- `lead_den_digit` -/
theorem lead_eq (h2 : 2 ≤ l) : (h den).dig (l - 1) <<< s ||| (h den).dig (l - 2) >>> (c.digSize - s) = dNormAt h den s l := by
  obtain ⟨m, rfl⟩ := Nat.exists_eq_add_of_le' h2
  have hcarry : carry c.base (shifted h den s) 0 (m + 1) = (h den).dig m / 2 ^ (c.digSize - s) :=
    carry_shift (Nat.le_of_lt hd.shift_lt) hd.below (by omega)
  have hlt := hd.carry_lt (q := m + 1) (by omega)
  rw [Nat.add_sub_cancel, show m + 2 - 1 = m + 1 by omega, Nat.shiftRight_eq_div_pow, ← hcarry, shl_or hlt]
  rfl

end Denom

/-! ## One digit of the quotient -/

/-- The digits of `num` a digit of the quotient is taken from. -/
def window (h : Heap c ι) (num : Ref ι) (n q : Nat) : Nat := (h num).dig (n + q)

omit [DecidableEq ι] in

theorem lowDig_lt (a : Int) : c.lowDig a < c.base := by
  have hpos : (0 : Int) < 2 ^ c.digSize := by positivity
  have hlt := Int.emod_lt_of_pos a hpos
  have hnonneg := Int.emod_nonneg a hpos.ne'
  rw [Config.lowDig, Config.base]
  zify
  rwa [Int.toNat_of_nonneg hnonneg]

/-- The borrow kept in two parts is the borrow. -/
theorem split_borrow {a : Int} {w x : Nat} :
    (a >>> c.digSize) - (x >>> c.digSize : Nat) + ((c.lowDig a + w - (x &&& c.mask : Nat) : Int) >>> c.digSize) = (a + (w - x)) / c.base ∧
      c.lowDig (c.lowDig a + w - (x &&& c.mask : Nat)) = ((a + (w - x)) % c.base).toNat := by
  have hbase : ((2 : Int) ^ c.digSize) = (c.base : Int) := by
    rw [Config.base]
    push_cast
    rfl
  have hpos : (0 : Int) < c.base := by exact_mod_cast c.base_pos
  have hlow : (c.lowDig a : Int) = a % c.base := by
    rw [Config.lowDig, hbase]
    exact Int.toNat_of_nonneg (Int.emod_nonneg _ hpos.ne')
  have hx : ((x &&& c.mask : Nat) : Int) = (x : Int) % c.base := by
    rw [Config.and_mask]
    exact Int.natCast_mod _ _
  have hdivx : ((x >>> c.digSize : Nat) : Int) = (x : Int) / c.base := by
    rw [Config.shiftRight_digSize]
    exact Int.natCast_div _ _
  have hsum : a + (w - x) = (a % c.base + w - (x : Int) % c.base) + c.base * (a / c.base - (x : Int) / c.base) := by
    have h1 := Int.emod_add_mul_ediv a c.base
    have h2 := Int.emod_add_mul_ediv (x : Int) c.base
    rw [mul_sub]
    linarith
  rw [Config.int_shiftRight_digSize, Config.int_shiftRight_digSize, hlow, hx, hdivx, hsum, Int.add_mul_ediv_left _ _ hpos.ne',
    Int.add_mul_emod_self_left, Config.lowDig, hbase]
  exact ⟨by ring, rfl⟩

section Digit

variable {l s n : Nat}

theorem mpnDivSub_spec (hd : Denom h den l s) (hne : den ≠ num) (hroom : n + l ≤ (h num).alloc)
    (hw : ∀ q < l, window h num n q < c.base) {v : Nat} (hv : v < c.base + 2) :
    ∃ (a : Nat × Int) (d : Nat → Nat), mpnDivSub num den l s v n h = (.ok a, paint h num n l fun q => d (q - n)) ∧ (∀ q < l, d q < c.base) ∧
      ((Digits.num c.base d l : Nat) : Int) + (c.base : Int) ^ l * a.2 =
        (Digits.num c.base (window h num n) l : Nat) - (v * (Digits.num c.base (h den).dig l * 2 ^ s) : Nat) ∧ -(v : Int) ≤ a.2 ∧ a.2 ≤ 0 := by
  let x := fun q => (window h num n q : Int) - (v * normDig h den s q : Nat)
  have hprod : ∀ q, v * normDig h den s q < c.base * c.base := by
    intro q
    have hlt : normDig h den s q < c.base := normDig_lt s q
    calc v * normDig h den s q ≤ (c.base + 1) * (c.base - 1) := Nat.mul_le_mul (by omega) (by omega)
      _ < c.base * c.base := by
        obtain ⟨k, hk⟩ := Nat.exists_eq_add_of_le' c.base_pos
        rw [hk, Nat.add_sub_cancel]
        nlinarith
  have hx : ∀ q < l, -(v : Int) * c.base ≤ -v + x q ∧ 0 + x q < (0 + 1) * c.base := by
    intro q hq
    have hlt : normDig h den s q < c.base := normDig_lt s q
    have hle := Nat.mul_le_mul_left v (Nat.le_sub_one_of_lt hlt)
    have hfull : v * (c.base - 1) + v = v * c.base := by
      rw [← Nat.mul_succ, Nat.succ_eq_add_one, Nat.sub_add_cancel c.base_pos]
    have hwq := hw q hq
    have hcast : -(v : Int) * c.base = -((v * c.base : Nat) : Int) := by
      push_cast
      ring
    rw [hcast]
    show _ ≤ -(v : Int) + ((window h num n q : Int) - (v * normDig h den s q : Nat)) ∧
      0 + ((window h num n q : Int) - (v * normDig h den s q : Nat)) < _
    omega
  have hborrow : ∀ q ≤ l, -(v : Int) ≤ borrow c.base x 0 q ∧ borrow c.base x 0 q ≤ 0 := fun q hq =>
    borrow_mem ⟨by omega, Int.le_refl 0⟩ c.base_pos hx hq
  refine ⟨(dNormAt h den s l, borrow c.base x 0 l), diffDigit c.base x 0, ?_, fun q _ => diffDigit_lt c.base_pos x 0 q, ?_, hborrow l (Nat.le_refl l)⟩
  · refine (sweep_above (fun q => (dNormAt h den s q, borrow c.base x 0 q)) (diffDigit c.base x 0) (fun q h' _ hq ha => ?_)
      (fun q _ _ => diffDigit_lt c.base_pos x 0 q) (by omega)).trans ?_
    · rw [Nat.zero_add] at hq
      have hread : readDig num (n + q) h' = (.ok (window h num n q), h') := ha.readDig (by omega) fun _ => Nat.le_refl _
      obtain ⟨hbl, hbu⟩ := hborrow q (Nat.le_of_lt hq)
      obtain ⟨hbl', hbu'⟩ := hborrow (q + 1) hq
      obtain ⟨hnext, hdigit⟩ := split_borrow (c := c) (a := borrow c.base x 0 q) (w := window h num n q) (x := v * normDig h den s q)
      have hlow : c.lowDig (borrow c.base x 0 q) < c.base := lowDig_lt _
      have hmask : v * normDig h den s q &&& c.mask < c.base := by
        rw [Config.and_mask]
        exact Nat.mod_lt _ c.base_pos
      have hwq := hw q hq
      have hfit : c.sdbl (c.lowDig (borrow c.base x 0 q) + window h num n q - (v * normDig h den s q &&& c.mask : Nat)) =
          c.lowDig (borrow c.base x 0 q) + window h num n q - (v * normDig h den s q &&& c.mask : Nat) :=
        Config.sdbl_of_bounds (by omega) (by omega)
      rw [Prog.bind_of_ok (hd.nextNorm_eq hq hne ha), Prog.bind_of_ok hread]
      simp only [and_mask_dNormAt, Config.dbl_of_lt (hprod q), hfit, hnext, hdigit]
      rw [Config.sdbl_of_bounds]
      · rfl
      · show _ ≤ borrow c.base x 0 (q + 1)
        omega
      · show borrow c.base x 0 (q + 1) < _
        have := c.base_pos
        omega
    · rw [Nat.zero_add, Nat.add_zero]
  · have hnum := num_diffDigit c.base_pos x 0 l
    rw [hnum, Int.zero_add, num_sub_digits, ← num_cast, ← num_cast, ← hd.num_normDig, Nat.mul_comm v, ← num_mul_digits]
    simp only [Nat.mul_comm]

theorem mpnDivAdd_spec (hd : Denom h den l s) (hne : den ≠ num) (hroom : n + l ≤ (h num).alloc)
    (hw : ∀ q < l, window h num n q < c.base) :
    ∃ (a : Nat × Nat) (d : Nat → Nat), mpnDivAdd num den l s n h = (.ok a, paint h num n l fun q => d (q - n)) ∧ (∀ q < l, d q < c.base) ∧
      Digits.num c.base d l + c.base ^ l * a.2 = Digits.num c.base (window h num n) l + Digits.num c.base (h den).dig l * 2 ^ s ∧
      a.2 ≤ 1 := by
  let x := fun q => window h num n q + normDig h den s q
  have hx : ∀ q < l, 1 + x q < c.base * (1 + 1) := by
    intro q hq
    have hlt : normDig h den s q < c.base := normDig_lt s q
    have hwq := hw q hq
    show 1 + (window h num n q + normDig h den s q) < _
    omega
  refine ⟨(dNormAt h den s l, carry c.base x 0 l), sumDigit c.base x 0, ?_, fun q _ => Nat.mod_lt _ c.base_pos, ?_,
    carry_le (Nat.zero_le 1) hx (Nat.le_refl l)⟩
  · refine (sweep_above (fun q => (dNormAt h den s q, carry c.base x 0 q)) (sumDigit c.base x 0) (fun q h' _ hq ha => ?_)
      (fun q _ _ => Nat.mod_lt _ c.base_pos) (by omega)).trans ?_
    · rw [Nat.zero_add] at hq
      have hread : readDig num (n + q) h' = (.ok (window h num n q), h') := ha.readDig (by omega) fun _ => Nat.le_refl _
      have hfit : c.dbl (carry c.base x 0 q + x q) = carry c.base x 0 q + x q := by
        have hcarry := carry_le (Nat.zero_le 1) hx (Nat.le_of_lt hq)
        have hbound := hx q hq
        refine Config.dbl_of_lt (Nat.lt_of_lt_of_le (Nat.lt_of_le_of_lt (Nat.add_le_add_right hcarry _) hbound) ?_)
        exact Nat.mul_le_mul_left _ c.one_lt_base
      rw [Prog.bind_of_ok (hd.nextNorm_eq hq hne ha), Prog.bind_of_ok hread]
      simp only [and_mask_dNormAt]
      rw [show window h num n q + normDig h den s q = x q from rfl, hfit, Config.shiftRight_digSize, Config.and_mask]
      rfl
    · rw [Nat.zero_add, Nat.add_zero]
  · rw [num_sumDigit, Nat.zero_add, num_add_digits, hd.num_normDig]

theorem paint_again (p m : Nat) (d d' : Nat → Nat) : paint (paint h num p m d) num p m d' = paint h num p m d' := by
  unfold paint
  rw [withDig_withDig, withDig_self]
  refine congrArg (withDig h num) (funext fun q => ?_)
  by_cases hq : p ≤ q ∧ q < p + m
  · rw [overlay_of_mem hq, overlay_of_mem hq]
  · rw [overlay_of_not hq, overlay_of_not hq]
    exact overlay_of_not hq

theorem paint_window : paint h num n l (fun q => window h num n (q - n)) = h := by
  unfold paint
  refine Eq.trans (congrArg (withDig h num) (funext fun q => ?_)) withDig_dig_self
  by_cases hq : n ≤ q ∧ q < n + l
  · rw [overlay_of_mem hq, window, Nat.add_sub_cancel' hq.1]
  · exact overlay_of_not hq

theorem window_paint {q : Nat} {d : Nat → Nat} (hq : q < l) : window (paint h num n l fun q => d (q - n)) num n q = d q := by
  unfold window paint
  rw [withDig_self]
  show overlay n l (fun q => d (q - n)) (h num).dig (n + q) = d q
  rw [overlay_of_mem (by omega), Nat.add_sub_cancel_left]

omit [DecidableEq ι] in
theorem Denom.congr (hd : Denom h den l s) (hsame : h' den = h den) : Denom h' den l s := by
  refine ⟨hd.pos, ?_, ?_, hd.shift_lt, ?_, ?_⟩
  all_goals rw [hsame]
  · exact hd.fits
  · exact hd.below
  · exact hd.high
  · exact hd.room

/-- Adding back ends, with the quotient of the window: `N` is what the window held, and the
estimate was not too small. -/
theorem mpnDivBack_spec {fuel v N : Nat} {b : Int} (hd : Denom h den l s) (hne : den ≠ num) (hroom : n + l ≤ (h num).alloc)
    (hw : ∀ q < l, window h num n q < c.base) (hv : v < c.base + 2) (hb : -(c.base * 2 : Nat) < b) (hfuel : v < fuel)
    (hvalue : ((Digits.num c.base (window h num n) l : Nat) : Int) + (c.base : Int) ^ l * b =
      N - (v * (Digits.num c.base (h den).dig l * 2 ^ s) : Nat))
    (hlt : (N : Int) - (v * (Digits.num c.base (h den).dig l * 2 ^ s) : Nat) < (Digits.num c.base (h den).dig l * 2 ^ s : Nat)) :
    ∃ (v' : Nat) (d : Nat → Nat),
      Prog.loop Fault.stuck (mpnDivBackTurn num den l s n) fuel (v, b) h = (.ok v', paint h num n l fun q => d (q - n)) ∧
      (∀ q < l, d q < c.base) ∧ N = v' * (Digits.num c.base (h den).dig l * 2 ^ s) + Digits.num c.base d l ∧
      Digits.num c.base d l < Digits.num c.base (h den).dig l * 2 ^ s := by
  induction fuel generalizing v b h with
  | zero => omega
  | succ fuel ih =>
    by_cases hzero : b = 0
    · have hrun : mpnDivBackTurn num den l s n (v, b) h = (.ok (.inr v), h) := by
        rw [mpnDivBackTurn, if_neg (by simpa using hzero)]
        rfl
      rw [hzero, Int.mul_zero, Int.add_zero] at hvalue
      refine ⟨v, window h num n, (Prog.loop_done hrun).trans ?_, hw, by omega, by omega⟩
      rw [paint_window]
    · obtain ⟨a, d, hadd, hbelow, hsum, hcarry⟩ := mpnDivAdd_spec hd hne hroom hw
      have hden : paint h num n l (fun q => d (q - n)) den = h den := withDig_of_ne hne
      have hpow : Digits.num c.base (window h num n) l < c.base ^ l := num_lt c.base_pos hw
      have hD : Digits.num c.base (h den).dig l * 2 ^ s < c.base ^ l := by
        rw [← hd.num_normDig]
        exact num_lt c.base_pos fun q _ => normDig_lt s q
      have hcast : ((c.base ^ l : Nat) : Int) = (c.base : Int) ^ l := Int.natCast_pow _ _
      -- with a borrow left, too much has been taken
      have hneg : b < 0 := by
        by_contra hge
        have hone := Int.mul_le_mul_of_nonneg_left (show 1 ≤ b by omega) (show 0 ≤ (c.base : Int) ^ l by omega)
        omega
      have hless : (N : Int) - (v * (Digits.num c.base (h den).dig l * 2 ^ s) : Nat) < 0 := by
        have hone := Int.mul_le_mul_of_nonneg_left (show b ≤ -1 by omega) (show 0 ≤ (c.base : Int) ^ l by omega)
        omega
      obtain ⟨u, rfl⟩ : ∃ u, v = u + 1 := by
        refine Nat.exists_eq_add_one.mpr (Nat.pos_of_ne_zero fun hv0 => ?_)
        rw [hv0, Nat.zero_mul] at hless
        omega
      rw [Nat.succ_mul] at hvalue hless
      have hquo : c.dbl (u + 1 + (2 ^ c.dblBits - 1)) = u := by
        have hpos := Nat.two_pow_pos c.dblBits
        have hsq := c.base_sq_le_dbl
        have hbase := Nat.mul_le_mul_left c.base c.one_lt_base
        have hbase2 := c.one_lt_base
        rw [Config.dbl, show u + 1 + (2 ^ c.dblBits - 1) = u + 2 ^ c.dblBits by omega, Nat.add_mod_right]
        exact Nat.mod_eq_of_lt (by omega)
      have hrun : mpnDivBackTurn num den l s n (u + 1, b) h =
          (.ok (.inl (u, b + a.2)), paint h num n l fun q => d (q - n)) := by
        rw [mpnDivBackTurn, if_pos hzero, Prog.bind_of_ok hadd, hquo, Config.sdbl_of_bounds (by omega) (by omega)]
        rfl
      have hsum' : ((Digits.num c.base d l : Nat) : Int) + (c.base : Int) ^ l * a.2 =
          (Digits.num c.base (window h num n) l : Nat) + (Digits.num c.base (h den).dig l * 2 ^ s : Nat) := by
        rw [← hcast]
        exact_mod_cast hsum
      have hwin : Digits.num c.base (window (paint h num n l fun q => d (q - n)) num n) l = Digits.num c.base d l :=
        num_congr fun q hq => window_paint hq
      obtain ⟨v', d', hrun', hbelow', hN, hr⟩ := ih (h := paint h num n l fun q => d (q - n)) (v := u) (b := b + a.2)
        (hd.congr hden) (by rwa [paint_alloc]) (fun q hq => by rw [window_paint hq]; exact hbelow q hq) (by omega) (by omega)
        (by omega) (by rw [hwin, hden, mul_add]; omega) (by rw [hden]; omega)
      rw [hden] at hN hr
      refine ⟨v', d', (Prog.loop_next hrun).trans (hrun'.trans ?_), hbelow', hN, hr⟩
      rw [paint_again]

/-- What one digit leaves: the window, and the digit in `quo`. -/
theorem mpnDivStep_spec (hd : Denom h den l s) (hdn : den ≠ num) (hqn : quo ≠ num) (hroom : n + l < (h num).alloc)
    (hquo : n < (h quo).alloc) (hw : ∀ q < l + 1, window h num n q < c.base)
    (hlt : Digits.num c.base (window h num n) (l + 1) < Digits.num c.base (h den).dig l * 2 ^ s * c.base) :
    ∃ (v : Nat) (d : Nat → Nat), mpnDivStep num den l quo s (dNormAt h den s l) n h =
        (.ok (), withDig (paint h num n l fun q => d (q - n)) quo (Function.update (h quo).dig n v)) ∧
      (∀ q < l, d q < c.base) ∧
      Digits.num c.base (window h num n) (l + 1) = v * (Digits.num c.base (h den).dig l * 2 ^ s) + Digits.num c.base d l ∧
      Digits.num c.base d l < Digits.num c.base (h den).dig l * 2 ^ s := by
  obtain ⟨m, rfl⟩ := Nat.exists_eq_succ_of_ne_zero hd.pos.ne'
  rw [Nat.succ_eq_add_one] at *
  have hpow : 0 < c.base ^ m := Nat.pow_pos c.base_pos
  have hB := c.one_lt_base
  -- the estimate is from the two leading digits of the window and the leading one of the denominator
  have htop : Digits.num c.base (window h num n) (m + 1 + 1) / c.base ^ m = window h num n m + c.base * window h num n (m + 1) := by
    rw [num_div c.base_pos hw (by omega), show m + 1 + 1 - m = 0 + 1 + 1 by omega, num_succ, num_succ, num_zero]
    rw [Nat.zero_add, Nat.pow_zero, Nat.mul_one, Nat.pow_one, Nat.mul_comm c.base]
    rfl
  have hlead := hd.top_eq
  rw [Nat.add_sub_cancel] at hlead
  have hhalf := hd.base_le_top
  obtain ⟨v, hguess⟩ : ∃ v, (window h num n m + c.base * window h num n (m + 1)) / dNormAt h den s (m + 1) = v := ⟨_, rfl⟩
  have hover : Digits.num c.base (window h num n) (m + 1 + 1) / (Digits.num c.base (h den).dig (m + 1) * 2 ^ s) ≤ v := by
    have hle := div_le_estimate (N := Digits.num c.base (window h num n) (m + 1 + 1))
      (D := Digits.num c.base (h den).dig (m + 1) * 2 ^ s) (P := c.base ^ m) (by have := c.base_pos; omega)
    rwa [htop, hlead, hguess] at hle
  have hv : v < c.base + 2 := by
    have hest := estimate_lt hpow (by rwa [hlead]) hlt
    rwa [htop, hlead, hguess] at hest
  have hread : readDig num (m + 1 + n) h = (.ok (window h num n (m + 1)), h) := by
    rw [Nat.add_comm]
    exact readDig_of_lt hroom
  have hread' : readDig num (m + 1 + n - 1) h = (.ok (window h num n m), h) := by
    rw [show m + 1 + n - 1 = n + m by omega]
    exact readDig_of_lt (by omega)
  have hlead2 : c.dbl (window h num n (m + 1) <<< c.digSize) ||| window h num n m = window h num n m + c.base * window h num n (m + 1) := by
    rw [dbl_shl (hw _ (by omega)) (Nat.le_refl _), shl_or (hw m (by omega)), Nat.mul_comm]
    rfl
  obtain ⟨a, d, hsub, hbelow, hsum, hal, hau⟩ := mpnDivSub_spec hd hdn (by omega) (fun q hq => hw q (by omega)) hv
  have hden : paint h num n (m + 1) (fun q => d (q - n)) den = h den := withDig_of_ne hdn
  have hread'' : readDig num (m + 1 + n) (paint h num n (m + 1) fun q => d (q - n)) =
      (.ok (window h num n (m + 1)), paint h num n (m + 1) fun q => d (q - n)) := by
    rw [Nat.add_comm]
    exact readDig_paint hroom fun _ => by omega
  have hwin : Digits.num c.base (window (paint h num n (m + 1) fun q => d (q - n)) num n) (m + 1) = Digits.num c.base d (m + 1) :=
    num_congr fun q hq => window_paint hq
  have hwtop := hw (m + 1) (by omega)
  have hDpos : 0 < Digits.num c.base (h den).dig (m + 1) * 2 ^ s := by
    refine Nat.pos_of_ne_zero fun hzero => ?_
    rw [hzero, Nat.zero_mul] at hlt
    omega
  have hcast : ((window h num n (m + 1) * c.base ^ (m + 1) : Nat) : Int) = (c.base : Int) ^ (m + 1) * window h num n (m + 1) := by
    push_cast
    ring
  have hless := Nat.lt_mul_of_div_lt (Nat.lt_succ_of_le hover) hDpos
  rw [Nat.succ_mul] at hless
  obtain ⟨v', d', hback, hbelow', hN, hr⟩ := mpnDivBack_spec (h := paint h num n (m + 1) fun q => d (q - n)) (l := m + 1) (n := n)
    (b := a.2 + window h num n (m + 1)) (N := Digits.num c.base (window h num n) (m + 1 + 1)) (hd.congr hden) hdn
    (by rw [paint_alloc]; omega) (fun q hq => by rw [window_paint hq]; exact hbelow q hq) hv (by omega) (Nat.lt_succ_self v)
    (by rw [hwin, hden, num_succ _ (m + 1), mul_add]; omega) (by rw [hden]; omega)
  rw [hden] at hN hr
  have hsmall : v' < c.base := by
    rw [hN, Nat.mul_comm _ c.base] at hlt
    refine Nat.lt_of_mul_lt_mul_right (a := Digits.num c.base (h den).dig (m + 1) * 2 ^ s) ?_
    omega
  have hsame : paint h num n (m + 1) (fun q => d' (q - n)) quo = h quo := withDig_of_ne hqn
  refine ⟨v', d', ?_, hbelow', hN, hr⟩
  rw [mpnDivStep, Prog.bind_of_ok hread, Prog.bind_of_ok hread', hlead2, hguess, Prog.bind_of_ok hsub, Prog.bind_of_ok hread'',
    Config.sdbl_of_bounds (by omega) (by omega), mpnDivBack, Prog.bind_of_ok hback, paint_again,
    writeDig_of_lt (by rwa [paint_alloc]), Config.and_mask, Nat.mod_eq_of_lt hsmall, Config.dig_of_lt hsmall, hsame]

end Digit

/-! ## All digits -/

section Division

variable {l s m : Nat}

/-- A heap on the way of a division. -/
def divAt (h : Heap c ι) (num quo : Ref ι) (f g : Nat → Nat) : Heap c ι := withDig (withDig h num f) quo g

theorem divAt_num (hqn : quo ≠ num) (f g : Nat → Nat) : divAt h num quo f g num = { h num with dig := f } := by
  rw [divAt, withDig_of_ne hqn.symm, withDig_self]

theorem divAt_quo (hqn : quo ≠ num) (f g : Nat → Nat) : divAt h num quo f g quo = { h quo with dig := g } := by
  rw [divAt, withDig_self, withDig_of_ne hqn]

theorem divAt_of_ne {r : Ref ι} (hn : r ≠ num) (hq : r ≠ quo) (f g : Nat → Nat) : divAt h num quo f g r = h r := by
  rw [divAt, withDig_of_ne hq, withDig_of_ne hn]

theorem withDig_num_divAt (hqn : quo ≠ num) (f f' g : Nat → Nat) : withDig (divAt h num quo f g) num f' = divAt h num quo f' g := by
  funext r
  by_cases hn : r = num
  · rw [hn, withDig_self, divAt_num hqn, divAt_num hqn]
  · rw [withDig_of_ne hn]
    by_cases hq : r = quo
    · rw [hq, divAt_quo hqn, divAt_quo hqn]
    · rw [divAt_of_ne hn hq, divAt_of_ne hn hq]

theorem withDig_quo_divAt (f g g' : Nat → Nat) : withDig (divAt h num quo f g) quo g' = divAt h num quo f g' := withDig_withDig g g'

omit [DecidableEq ι] in
theorem dNormAt_congr (hsame : h' den = h den) (s q : Nat) : dNormAt h' den s q = dNormAt h den s q := by
  have hshift : shifted h' den s = shifted h den s := by
    funext q
    rw [shifted, shifted, hsame]
  cases q with
  | zero => rfl
  | succ q => rw [dNormAt, dNormAt, hshift]

theorem mpnDivLoop_spec {n A : Nat} {f g : Nat → Nat} (hd : Denom h den l s) (hdn : den ≠ num) (hqn : quo ≠ num) (hdq : den ≠ quo)
    (hroom : l + m ≤ (h num).alloc) (hquo : m ≤ (h quo).alloc) (hnm : n ≤ m)
    (hdiv : Divides c.base A (Digits.num c.base (h den).dig l * 2 ^ s) l m n f g) :
    ∃ f' g', mpnDivLoop num den l quo s (dNormAt h den s l) n (divAt h num quo f g) = (.ok (), divAt h num quo f' g') ∧
      Divides c.base A (Digits.num c.base (h den).dig l * 2 ^ s) l m 0 f' g' := by
  induction n generalizing f g with
  | zero => exact ⟨f, g, rfl, hdiv⟩
  | succ n ih =>
    have hden : divAt h num quo f g den = h den := divAt_of_ne hdn hdq f g
    have hwin : window (divAt h num quo f g) num n = fun q => f (n + q) := by
      funext q
      rw [window, divAt_num hqn]
    obtain ⟨v, d, hrun, hbelow, hN, hr⟩ := mpnDivStep_spec (h := divAt h num quo f g) (n := n) (hd.congr hden) hdn hqn
      (by rw [divAt_num hqn]; show n + l < (h num).alloc; omega) (by rw [divAt_quo hqn]; exact Nat.lt_of_lt_of_le hnm hquo)
      (fun q hq => by rw [hwin]; exact hdiv.below _ (by omega)) (by rw [hwin, hden]; exact hdiv.window_lt)
    rw [hden, hwin] at hN
    rw [hden] at hr
    rw [dNormAt_congr hden] at hrun
    have hstep := hdiv.step c.base_pos hnm hbelow hN hr
    obtain ⟨f', g', hrun', hend⟩ := ih (by omega) hstep
    refine ⟨f', g', (Prog.bind_of_ok hrun).trans ?_, hend⟩
    rw [paint, withDig_num_divAt hqn, withDig_quo_divAt, divAt_num hqn, divAt_quo hqn]
    exact hrun'

theorem unshift_digit {x y : Nat} (hs : s < c.digSize) (hx : x < c.base) (hy : y < c.base) :
    (x >>> s ||| c.dig (c.dbl (y <<< (c.digSize - s)))) &&& c.mask = (x + c.base * y) / 2 ^ s % c.base := by
  have hsplit : c.base = 2 ^ s * 2 ^ (c.digSize - s) := by rw [Config.base, ← Nat.pow_add, Nat.add_sub_cancel' (Nat.le_of_lt hs)]
  have hdig : ∀ k, c.dig k % 2 ^ c.digSize = k % 2 ^ c.digSize := fun k =>
    Nat.mod_mod_of_dvd k (Nat.pow_dvd_pow 2 c.digSize_le_digBits)
  have hlow : x / 2 ^ s < 2 ^ (c.digSize - s) := Nat.div_lt_of_lt_mul (by rwa [← hsplit])
  have hor : x >>> s ||| y <<< (c.digSize - s) = (x + c.base * y) / 2 ^ s := by
    rw [Nat.lor_comm, Nat.shiftRight_eq_div_pow, shl_or hlow, hsplit, Nat.mul_assoc, Nat.add_mul_div_left _ _ (Nat.two_pow_pos s),
      Nat.mul_comm y]
  rw [← hor, Config.and_mask, Config.base, Nat.or_mod_two_pow, hdig, ← Nat.or_mod_two_pow, dbl_shl hy (Nat.sub_le _ _)]

variable (num) in
theorem mpnDivUnnorm_spec (hs : s < c.digSize) (hroom : l ≤ (h num).alloc) (hbelow : ∀ q < l, (h num).dig q < c.base) :
    ∃ d, mpnDivUnnorm num s l 0 h = (.ok (), paint h num 0 l d) ∧ (∀ q < l, d q < c.base) ∧
      Digits.num c.base d l = Digits.num c.base (h num).dig l / 2 ^ s := by
  let d := fun q => Digits.num c.base (h num).dig l / 2 ^ s / c.base ^ q % c.base
  have hd : ∀ q, d q = (upTo l (h num).dig q + c.base * upTo l (h num).dig (q + 1)) / 2 ^ s % c.base := by
    intro q
    show Digits.num c.base (h num).dig l / 2 ^ s / c.base ^ q % c.base = _
    rw [Nat.div_right_comm]
    refine shift_congr (Nat.le_of_lt hs) ?_
    change _ % (c.base * c.base) = _ % (c.base * c.base)
    rw [num_two_digits c.base_pos hbelow]
    refine (Nat.mod_eq_of_lt ?_).symm
    have h1 := upTo_lt c.base_pos hbelow q
    have h2 := Nat.mul_le_mul_left c.base (Nat.succ_le_of_lt (upTo_lt c.base_pos hbelow (q + 1)))
    rw [Nat.mul_succ] at h2
    omega
  have hloop : ∀ n ≤ l, mpnDivUnnorm num s n (c.dig (c.dbl (upTo l (h num).dig n <<< (c.digSize - s)))) (paint h num n (l - n) d) =
      (.ok (), paint h num 0 l d) := by
    intro n hn
    induction n with
    | zero => rfl
    | succ n ih =>
      have hup : upTo l (h num).dig n = (h num).dig n := if_pos (by omega)
      have hread : readDig num n (paint h num (n + 1) (l - (n + 1)) d) = (.ok ((h num).dig n), paint h num (n + 1) (l - (n + 1)) d) :=
        readDig_paint (by omega) fun _ => by omega
      have hdigit := unshift_digit hs (hbelow n (by omega)) (upTo_lt c.base_pos hbelow (n + 1))
      have hwrite := writeDig_paint_down (h := h) (i := num) (p := n) (n := l - (n + 1)) (d := d)
        (x := ((h num).dig n >>> s ||| c.dig (c.dbl (upTo l (h num).dig (n + 1) <<< (c.digSize - s)))) &&& c.mask) (by omega)
        (by rw [hdigit, hd n, hup]; exact Config.dig_of_lt (Nat.mod_lt _ c.base_pos))
      rw [mpnDivUnnorm, Prog.bind_of_ok hread, Prog.bind_of_ok hwrite, show l - (n + 1) + 1 = l - n by omega, ← hup]
      exact ih (by omega)
  have hlast : c.dig (c.dbl (upTo l (h num).dig l <<< (c.digSize - s))) = 0 := by
    rw [upTo, if_neg (Nat.lt_irrefl l), Nat.zero_shiftLeft]
    simp [Config.dig, Config.dbl]
  have hrun := hloop l (Nat.le_refl l)
  rw [hlast, Nat.sub_self, paint_zero] at hrun
  refine ⟨d, hrun, fun q _ => Nat.mod_lt _ c.base_pos, (num_low _ l).trans (Nat.mod_eq_of_lt ?_)⟩
  exact Nat.lt_of_le_of_lt (Nat.div_le_self _ _) (num_lt c.base_pos hbelow)

/-- The numerator, shifted with room for a digit more. -/
theorem mpnDivNorm_spec {n : Nat} (hs : s < c.digSize) (hroom : n + 1 ≤ (h num).alloc)
    (hbelow : ∀ q < n, (h num).dig q < c.base) (hlast : (h num).dig n = 0) :
    ∃ d, mpnDivNorm num s (n + 1) h = (.ok 0, paint h num 0 (n + 1) d) ∧ (∀ q < n + 1, d q < c.base) ∧
      Digits.num c.base d (n + 1) = Digits.num c.base (h num).dig n * 2 ^ s := by
  have hall : ∀ q < n + 1, (h num).dig q < c.base := by
    intro q hq
    by_cases e : q = n
    · rw [e, hlast]
      exact c.base_pos
    · exact hbelow q (by omega)
  have hcarry : ∀ q < n + 1, carry c.base (shifted h num s) 0 (q + 1) = (h num).dig q / 2 ^ (c.digSize - s) := fun q hq =>
    carry_shift (Nat.le_of_lt hs) hall hq
  have htop : carry c.base (shifted h num s) 0 (n + 1) = 0 := by rw [hcarry n (by omega), hlast, Nat.zero_div]
  refine ⟨sumDigit c.base (shifted h num s) 0, ?_, fun q _ => Nat.mod_lt _ c.base_pos, ?_⟩
  · refine (sweep_above (carry c.base (shifted h num s) 0) (sumDigit c.base (shifted h num s) 0) (fun q h' _ hq ha => ?_)
      (fun q _ _ => Nat.mod_lt _ c.base_pos) (by omega)).trans ?_
    · rw [Nat.zero_add] at hq ha
      have hread : readDig num q h' = (.ok ((h num).dig q), h') := ha.readDig (by omega) fun _ => Nat.le_refl _
      have hsmall : (h num).dig q / 2 ^ (c.digSize - s) < c.base := Nat.lt_of_le_of_lt (Nat.div_le_self _ _) (hall q hq)
      have hlow : carry c.base (shifted h num s) 0 q < 2 ^ s := carry_shift_lt hall (Nat.le_of_lt hq)
      rw [Prog.bind_of_ok hread, Nat.shiftRight_eq_div_pow, Config.dig_of_lt hsmall, ← hcarry q hq, shl_or hlow, Config.and_mask]
      rfl
    · rw [Nat.zero_add, htop, paint_base]
  · have hsum := num_sumDigit (B := c.base) (shifted h num s) 0 (n + 1)
    rw [htop, Nat.mul_zero, Nat.add_zero, Nat.zero_add] at hsum
    refine hsum.trans ((num_mul_digits _ _ _).trans ?_)
    rw [num_succ, hlast, Nat.zero_mul, Nat.add_zero]

theorem divAt_start (hqn : quo ≠ num) (f : Nat → Nat) : divAt h num quo f (h quo).dig = withDig h num f := by
  have hsame : (withDig h num f quo).dig = (h quo).dig := by rw [withDig_of_ne hqn]
  rw [divAt, ← hsame, withDig_dig_self]

omit [DecidableEq ι] in
theorem Denom.leadDenDigit_eq (hd : Denom h den l s) (hread : ∀ q < l, readDig den q h' = (.ok ((h den).dig q), h')) :
    leadDenDigit den l s h' = (.ok (dNormAt h den s l), h') := by
  have hpos := hd.pos
  rw [leadDenDigit, Prog.bind_of_ok (hread _ (by omega)), dbl_shl (hd.below _ (by omega)) (Nat.le_of_lt hd.shift_lt)]
  by_cases h2 : l ≥ 2
  · rw [if_pos h2, Prog.bind_of_ok (hread _ (by omega)), hd.lead_eq h2]
    rfl
  · obtain rfl : l = 1 := by omega
    rw [if_neg h2, Nat.shiftLeft_eq, dNormAt, carry, Nat.zero_add]
    rfl

omit [DecidableEq ι] in
/-- A division begins with all digits of the quotient to come. -/
theorem Denom.divides_start {n : Nat} {f : Nat → Nat} (hd : Denom h den l s) (hnum : Digits.Normal c.base (h num).dig n) (hlong : l ≤ n)
    (hf : ∀ q < n + 1, f q < c.base) (hvalue : Digits.num c.base f (n + 1) = Digits.num c.base (h num).dig n * 2 ^ s) (g : Nat → Nat) :
    Divides c.base (Digits.num c.base (h num).dig n * 2 ^ s) (Digits.num c.base (h den).dig l * 2 ^ s) l (n + 1 - l) (n + 1 - l) f g := by
  have hpos := hd.pos
  have hlen : l + (n + 1 - l) = n + 1 := by omega
  have hshift : 2 ^ s ≤ c.msb := Nat.pow_le_pow_right (by decide) (Nat.le_sub_one_of_lt hd.shift_lt)
  have hlead : (h den).dig (l - 1) * c.base ^ (l - 1) ≤ Digits.num c.base (h den).dig l := by
    obtain ⟨k, rfl⟩ := Nat.exists_eq_succ_of_ne_zero hpos.ne'
    rw [num_succ]
    exact Nat.le_add_left _ _
  refine ⟨fun q hq => hf q (by omega), fun q h1 h2 => absurd h1 (by omega), ?_, ?_⟩
  · rw [hlen, hvalue]
    calc Digits.num c.base (h num).dig n * 2 ^ s < c.base ^ n * 2 ^ s := Nat.mul_lt_mul_of_pos_right (hnum.lt c.base_pos) (Nat.two_pow_pos s)
      _ ≤ c.base ^ n * ((h den).dig (l - 1) * 2 ^ s) := Nat.mul_le_mul_left _ (Nat.le_trans hshift hd.high)
      _ = (h den).dig (l - 1) * c.base ^ (l - 1) * 2 ^ s * c.base ^ (n + 1 - l) := by
        rw [show n = (l - 1) + (n + 1 - l) by omega, Nat.pow_add, show l - 1 + (n + 1 - l) + 1 - l = n + 1 - l by omega]
        ring
      _ ≤ Digits.num c.base (h den).dig l * 2 ^ s * c.base ^ (n + 1 - l) :=
        Nat.mul_le_mul_right _ (Nat.mul_le_mul_right _ hlead)
  · rw [hlen, hvalue, Nat.sub_self, num_zero, Nat.mul_zero, Nat.mul_zero, Nat.add_zero]

/-- Quotient and remainder of the magnitudes. -/
theorem mpnDiv_spec {n : Nat} (hdn : den ≠ num) (hqn : quo ≠ num) (hdq : den ≠ quo) (hnum : Digits.Normal c.base (h num).dig n)
    (hden : Digits.Normal c.base (h den).dig l) (hl : l ≠ 0) (hdl : l ≤ (h den).alloc) (hroom : n + 1 ≤ (h num).alloc)
    (hquo : n + 1 ≤ (h quo).alloc) :
    ∃ nl ql f g, mpnDiv num n den l quo h = (.ok (nl, ql), divAt h num quo f g) ∧ nl ≤ (h num).alloc ∧ ql ≤ (h quo).alloc ∧
      Digits.Normal c.base f nl ∧ Digits.Normal c.base g ql ∧
      Digits.num c.base f nl = Digits.num c.base (h num).dig n % Digits.num c.base (h den).dig l ∧
      Digits.num c.base g ql = Digits.num c.base (h num).dig n / Digits.num c.base (h den).dig l := by
  have hDpos : 0 < Digits.num c.base (h den).dig l := Nat.pos_of_ne_zero (mt (hden.num_eq_zero c.base_pos).mp hl)
  have hzero : ∀ f : Nat → Nat, Digits.Normal c.base f 0 := fun f => ⟨fun q hq => absurd hq (Nat.not_lt_zero q), fun h => absurd rfl h⟩
  obtain ⟨t, hcmp, hlt, hgt⟩ := mpnCmp_spec (by omega) hdl hnum hden
  unfold mpnDiv
  rw [Prog.bind_of_ok hcmp]
  by_cases heq : t = 0
  · have hsame : Digits.num c.base (h num).dig n = Digits.num c.base (h den).dig l := by omega
    rw [if_pos heq, Prog.bind_of_ok (writeDig_of_lt (by omega)), Config.dig_of_lt c.one_lt_base]
    refine ⟨0, 1, (h num).dig, Function.update (h quo).dig 0 1, ?_, Nat.zero_le _, by omega, hzero _, ⟨fun q hq => ?_, fun _ => ?_⟩, ?_, ?_⟩
    · rw [divAt, withDig_dig_self]
      rfl
    · rw [show q = 0 by omega, Function.update_self]
      exact c.one_lt_base
    · rw [Function.update_self]
      exact Nat.one_ne_zero
    · rw [hsame, Nat.mod_self, num_zero]
    · rw [hsame, Nat.div_self hDpos, num_succ, num_zero, Function.update_self]
      rfl
  rw [if_neg heq]
  by_cases hless : t < 0
  · rw [if_pos hless]
    have hsmall := hlt.mp hless
    refine ⟨n, 0, (h num).dig, (h quo).dig, ?_, by omega, Nat.zero_le _, hnum, hzero _, (Nat.mod_eq_of_lt hsmall).symm, ?_⟩
    · rw [divAt, withDig_dig_self, withDig_dig_self]
      rfl
    · rw [Nat.div_eq_of_lt hsmall, num_zero]
  rw [if_neg hless]
  have hlong : l ≤ n := by
    by_contra hshort
    have := hnum.lt_of_length hden c.base_pos (by omega)
    omega
  obtain ⟨s, hshift, hs, hhigh, htop⟩ := normShift_spec (h := h) (hden.leading hl) (hden.below (l - 1) (by omega))
  have hread : readDig den (l - 1) h = (.ok ((h den).dig (l - 1)), h) := readDig_of_lt (by omega)
  have hd : Denom h den l s := ⟨Nat.pos_of_ne_zero hl, hdl, hden.below, hs, hhigh, htop⟩
  -- the numerator, shifted
  have hlow : ∀ q < n, (withDig h num (Function.update (h num).dig n 0) num).dig q = (h num).dig q := fun q hq => by
    rw [withDig_self]
    exact Function.update_of_ne (by omega) _ _
  have hlast : (withDig h num (Function.update (h num).dig n 0) num).dig n = 0 := by
    rw [withDig_self]
    exact Function.update_self _ _ _
  obtain ⟨d, hnorm, hdlt, hdnum⟩ := mpnDivNorm_spec hs (by rwa [withDig_alloc]) (fun q hq => hlow q hq ▸ hnum.below q hq) hlast
  have hstart : paint (withDig h num (Function.update (h num).dig n 0)) num 0 (n + 1) d =
      divAt h num quo (overlay 0 (n + 1) d (Function.update (h num).dig n 0)) (h quo).dig := by
    rw [paint, withDig_withDig, withDig_self, divAt_start hqn]
  rw [num_congr hlow] at hdnum
  rw [hstart] at hnorm
  generalize hf : overlay 0 (n + 1) d (Function.update (h num).dig n 0) = f at hnorm
  have hfd : ∀ q < n + 1, f q = d q := fun q hq => by rw [← hf, overlay_low hq]
  have hden2 : divAt h num quo f (h quo).dig den = h den := divAt_of_ne hdn hdq _ _
  have hread2 : ∀ q < l, readDig den q (divAt h num quo f (h quo).dig) = (.ok ((h den).dig q), divAt h num quo f (h quo).dig) := by
    intro q hq
    rw [readDig_of_lt (by rw [hden2]; omega), hden2]
  have hlead := hd.leadDenDigit_eq hread2
  have hdiv := hd.divides_start hnum hlong (fun q hq => hfd q hq ▸ hdlt q hq) ((num_congr hfd).trans hdnum) (h quo).dig
  obtain ⟨f', g', hloop, hend⟩ := mpnDivLoop_spec hd hdn hqn hdq (m := n + 1 - l) (by omega) (by omega) (Nat.le_refl _) hdiv
  obtain ⟨hQ, hR⟩ := hend.result
  -- the remainder, shifted back
  have hself : (divAt h num quo f' g' num).dig = f' := by rw [divAt_num hqn]
  obtain ⟨e, hunnorm, helt, henum⟩ := mpnDivUnnorm_spec num (h := divAt h num quo f' g') (l := l) hs
    (by rw [divAt_num hqn]; show l ≤ (h num).alloc; omega) (fun q hq => by rw [hself]; exact hend.below q hq)
  rw [paint, withDig_num_divAt hqn, hself] at hunnorm
  rw [hself, hR, Nat.mul_mod_mul_right, Nat.mul_div_cancel _ (Nat.two_pow_pos s)] at henum
  rw [Nat.mul_div_mul_right _ _ (Nat.two_pow_pos s)] at hQ
  have hself' : (divAt h num quo (overlay 0 l e f') g' num).dig = overlay 0 l e f' := by rw [divAt_num hqn]
  have hquo' : (divAt h num quo (overlay 0 l e f') g' quo).dig = g' := by rw [divAt_quo hqn]
  have helow : ∀ q < l, overlay 0 l e f' q = e q := fun q hq => overlay_low hq
  obtain ⟨ql, htrimq, hqle, hqn', hqnum⟩ := mpnRemoveTrailingZeros_spec (h := divAt h num quo (overlay 0 l e f') g') (i := quo)
    (n := n + 1 - l) (by rw [divAt_quo hqn]; show _ ≤ (h quo).alloc; omega)
    (fun q hq => by rw [hquo']; exact hend.quo_below q (Nat.zero_le q) hq)
  obtain ⟨nl, htrimn, hnle, hnn', hnnum⟩ := mpnRemoveTrailingZeros_spec (h := divAt h num quo (overlay 0 l e f') g') (i := num)
    (n := l) (by rw [divAt_num hqn]; show _ ≤ (h num).alloc; omega)
    (fun q hq => by rw [hself', helow q hq]; exact helt q hq)
  rw [hquo'] at hqn' hqnum
  rw [hself'] at hnn' hnnum
  refine ⟨nl, ql, overlay 0 l e f', g', ?_, by omega, by omega, hnn', hqn', ?_, hqnum.trans hQ⟩
  · rw [Prog.bind_of_ok hread, Prog.bind_of_ok hshift, Prog.bind_of_ok (writeDig_of_lt (by omega)), Config.dig_of_lt c.base_pos,
      Prog.bind_of_ok hnorm, Prog.bind_of_ok hlead, Prog.bind_of_ok hloop,
      Prog.bind_of_ok hunnorm, Prog.bind_of_ok htrimq, Prog.bind_of_ok htrimn]
    rfl
  · rw [hnnum, num_congr helow, henum]

end Division

/-! ## Signs -/

variable {rem lhs rhs : Ref ι}

/-- The dividend stands where the remainder will be, and there is room for the quotient. -/
structure Prepared (h h' : Heap c ι) (quo rem lhs : Ref ι) (room : Nat) : Prop where
  others : ∀ r, r ≠ quo → r ≠ rem → h' r = h r
  fixed : (h' quo).fixedDig = (h quo).fixedDig ∧ (h' rem).fixedDig = (h rem).fixedDig
  within : (h' quo).alloc ≤ room ∧ (h' rem).alloc ≤ room
  fits : (h lhs).len + 1 ≤ (h' quo).alloc ∧ (h lhs).len + 1 ≤ (h' rem).alloc
  quo_neg : (h' quo).neg = false
  neg : (h' rem).neg = (h lhs).neg
  len : (h' rem).len = (h lhs).len
  dig : ∀ q < (h lhs).len, (h' rem).dig q = (h lhs).dig q

theorem wp_divPrepare {room : Nat} (hl : (h lhs).Normal) (hqr : quo ≠ rem) (hlq : lhs ≠ quo)
    (hfixed : (h quo).fixedDig = false ∧ (h rem).fixedDig = false) (hd : (h quo).alloc ≤ room ∧ (h rem).alloc ≤ room)
    (hroom : (h lhs).len + 2 ≤ room) :
    Prog.wp (divPrepare quo rem lhs) (fun _ h' => Prepared h h' quo rem lhs room) (fun e _ => Refused c room e) h := by
  unfold divPrepare
  rw [wp_look_bind]
  refine Prog.wp_bind.mpr (wp_mpzNeedDig hfixed.1 (by omega) (by omega) fun h₁ hg => ?_)
  have hlhs₁ : h₁ lhs = h lhs := hg.others lhs hlq
  rw [wp_look_bind, hlhs₁]
  refine Prog.wp_bind.mpr ?_
  unfold Prog.wp
  rw [zeroDig_eq hg.need_le]
  show Prog.wp _ _ _ _
  rw [wp_setNeg_bind, wp_setLen_bind, wp_look_bind]
  obtain ⟨h₂, hh₂⟩ : ∃ h₂, putLen (putNeg (paint h₁ quo 0 ((h lhs).len + 1) fun _ => 0) quo false) quo 0 = h₂ := ⟨_, rfl⟩
  have hother₂ : ∀ r, r ≠ quo → h₂ r = h r := by
    intro r hr
    rw [← hh₂, putLen, Function.update_of_ne hr, putNeg, Function.update_of_ne hr, paint, withDig_of_ne hr, hg.others r hr]
  have hquo₂ : (h₂ quo).alloc = (h₁ quo).alloc ∧ (h₂ quo).fixedDig = (h quo).fixedDig ∧ (h₂ quo).neg = false := by
    rw [← hh₂, putLen, Function.update_self, putNeg, Function.update_self, paint, withDig_self]
    exact ⟨rfl, hg.fixed, rfl⟩
  rw [hh₂, hother₂ lhs hlq]
  refine Prog.wp_bind.mpr (wp_mpzNeedDig (by rw [hother₂ rem hqr.symm]; exact hfixed.2) (by omega) (by omega) fun h₃ hg' => ?_)
  have hlhs₂ := hother₂ lhs hlq
  have hlen₃ : (h₃ lhs).len = (h lhs).len := by rw [hg'.len_eq, hlhs₂]
  have hneg₃ : (h₃ lhs).neg = (h lhs).neg := by rw [hg'.neg_eq, hlhs₂]
  have hnormal₃ : (h₃ lhs).Normal := hg'.normal (by rw [hlhs₂]; exact hl)
  have hquo₃ : h₃ quo = h₂ quo := hg'.others quo hqr
  have hfits : (h₃ lhs).len ≤ (h₃ rem).alloc := by
    rw [hlen₃]
    exact Nat.le_of_succ_le hg'.need_le
  have hset : mpzSet rem lhs h₃ = (.ok (), stored h₃ rem (overlay 0 (h₃ lhs).len (h₃ lhs).dig (h₃ rem).dig) (h₃ lhs).len (h₃ lhs).neg) :=
    (Prog.bind_of_ok (mpzNeedDig_of_le hfits hg'.two_le)).trans (copyInto_eq hfits hnormal₃.fits)
  unfold Prog.wp
  rw [hset]
  have hself : stored h₃ rem (overlay 0 (h₃ lhs).len (h₃ lhs).dig (h₃ rem).dig) (h₃ lhs).len (h₃ lhs).neg rem =
      { h₃ rem with dig := overlay 0 (h₃ lhs).len (h₃ lhs).dig (h₃ rem).dig, len := (h₃ lhs).len, neg := (h₃ lhs).neg } :=
    Function.update_self _ _ _
  have hkeep : ∀ r, r ≠ rem → stored h₃ rem (overlay 0 (h₃ lhs).len (h₃ lhs).dig (h₃ rem).dig) (h₃ lhs).len (h₃ lhs).neg r = h₃ r :=
    fun r hr => Function.update_of_ne hr _ _
  show Prepared _ _ _ _ _ _
  refine ⟨fun r h1 h2 => ?_, ⟨?_, ?_⟩, ⟨?_, ?_⟩, ⟨?_, ?_⟩, ?_, ?_, ?_, fun q hq => ?_⟩
  · rw [hkeep r h2, hg'.others r h2, hother₂ r h1]
  · rw [hkeep quo hqr, hquo₃, hquo₂.2.1]
  · rw [hself]
    exact hg'.fixed.trans (by rw [hother₂ rem hqr.symm])
  · rw [hkeep quo hqr, hquo₃, hquo₂.1]
    exact hg.le hd.1 (by omega) (by omega)
  · rw [hself]
    exact hg'.le (by rw [hother₂ rem hqr.symm]; exact hd.2) (by omega) (by omega)
  · rw [hkeep quo hqr, hquo₃, hquo₂.1]
    exact hg.need_le
  · rw [hself]
    exact hg'.need_le
  · rw [hkeep quo hqr, hquo₃, hquo₂.2.2]
  · rw [hself, hneg₃]
  · rw [hself, hlen₃]
  · rw [hself]
    have hlow : q < (h₂ lhs).alloc := by
      rw [hlhs₂]
      exact Nat.lt_of_lt_of_le hq hl.fits
    exact (overlay_low (by rw [hlen₃]; exact hq)).trans ((hg'.dig_eq hlow).trans (by rw [hlhs₂]))

theorem floor_unique {x y q r : Int} (h : x = q * y + r) (hr : 0 ≤ r ∧ r < y ∨ y < r ∧ r ≤ 0) : x.fdiv y = q ∧ x.fmod y = r := by
  have hdiv : x.fdiv y = q := by
    rcases hr with ⟨h0, hlt⟩ | ⟨hlt, h0⟩
    · rw [Int.fdiv_eq_ediv_of_nonneg _ (by omega), h, Int.add_comm, Int.add_mul_ediv_right _ _ (by omega), Int.ediv_eq_zero_of_lt h0 hlt,
        Int.zero_add]
    · rw [← Int.neg_fdiv_neg, Int.fdiv_eq_ediv_of_nonneg _ (by omega), show -x = -r + q * -y by rw [h]; ring,
        Int.add_mul_ediv_right _ _ (by omega), Int.ediv_eq_zero_of_lt (by omega) (by omega), Int.zero_add]
  refine ⟨hdiv, ?_⟩
  rw [Int.fmod_def, hdiv, h]
  ring

/-- The remainder is zero or has the divisor's sign and less magnitude. -/
theorem fmod_spec {x y : Int} (hy : y ≠ 0) : x.fmod y = 0 ∨ |x.fmod y| < |y| ∧ (x.fmod y).sign = y.sign := by
  by_cases hzero : x.fmod y = 0
  · exact .inl hzero
  right
  rcases Int.lt_or_gt_of_ne hy with hneg | hpos
  · have hturn : x.fmod y = -(-x).fmod (-y) := by rw [Int.neg_fmod_neg, Int.neg_neg]
    have hlt := Int.fmod_lt_of_pos (-x) (show 0 < -y by omega)
    have hge := Int.fmod_nonneg_of_pos (-x) (show 0 < -y by omega)
    rw [abs_of_nonpos (by omega), abs_of_neg hneg, Int.sign_eq_neg_one_of_neg (by omega), Int.sign_eq_neg_one_of_neg hneg]
    exact ⟨by omega, rfl⟩
  · have hlt := Int.fmod_lt_of_pos x hpos
    have hge := Int.fmod_nonneg_of_pos x hpos
    rw [abs_of_nonneg hge, abs_of_pos hpos, Int.sign_eq_one_of_pos (by omega), Int.sign_eq_one_of_pos hpos]
    exact ⟨hlt, rfl⟩

theorem signed_floor {b e : Bool} {A D Q R : Nat} (hA : A = Q * D + R) (hR : R < D) :
    (b = e → (signed b A).fdiv (signed e D) = Q ∧ (signed b A).fmod (signed e D) = signed b R) ∧
      (b ≠ e → R = 0 → (signed b A).fdiv (signed e D) = -Q ∧ (signed b A).fmod (signed e D) = signed b R) ∧
      (b ≠ e → R ≠ 0 → (signed b A).fdiv (signed e D) = -Q + -1 ∧ (signed b A).fmod (signed e D) = signed b R + signed e D) := by
  have hcast : (A : Int) = Q * D + R := by exact_mod_cast hA
  refine ⟨fun he => ?_, fun hne h0 => ?_, fun hne h0 => ?_⟩
  · subst he
    refine floor_unique ?_ ?_
    · cases b with
      | false => exact hcast
      | true =>
        show -(A : Int) = Q * -(D : Int) + -(R : Int)
        rw [hcast]
        ring
    · cases b with
      | false => exact .inl ⟨Int.natCast_nonneg R, Int.ofNat_lt.mpr hR⟩
      | true => exact .inr ⟨Int.neg_lt_neg (Int.ofNat_lt.mpr hR), by show -(R : Int) ≤ 0; omega⟩
  · obtain rfl : b = !e := Bool.eq_not.mpr hne
    rw [h0] at hcast ⊢
    refine floor_unique ?_ ?_
    · rw [signed_zero, Int.add_zero, signed_not]
      cases e with
      | false =>
        show -(A : Int) = -Q * D
        rw [hcast]
        push_cast
        ring
      | true =>
        show -(-(A : Int)) = -Q * -(D : Int)
        rw [hcast]
        push_cast
        ring
    · rw [signed_zero]
      cases e with
      | false => exact .inl ⟨Int.le_refl 0, by show (0 : Int) < D; omega⟩
      | true => exact .inr ⟨by show -(D : Int) < 0; omega, Int.le_refl 0⟩
  · obtain rfl : b = !e := Bool.eq_not.mpr hne
    refine floor_unique ?_ ?_
    · rw [signed_not, signed_not]
      cases e with
      | false =>
        show -(A : Int) = (-Q + -1) * D + (-(R : Int) + D)
        rw [hcast]
        ring
      | true =>
        show -(-(A : Int)) = (-Q + -1) * -(D : Int) + (-(-(R : Int)) + -(D : Int))
        rw [hcast]
        ring
    · rw [signed_not]
      cases e with
      | false =>
        left
        show 0 ≤ -(R : Int) + D ∧ -(R : Int) + D < D
        omega
      | true =>
        right
        show -(D : Int) < - -(R : Int) + -(D : Int) ∧ - -(R : Int) + -(D : Int) ≤ 0
        omega

/-- What a division does that gives `q` and `r`. -/
structure DivStored (h h' : Heap c ι) (quo rem : Ref ι) (q r : Int) (room : Nat) : Prop where
  quotient : Holds (h' quo) q
  remainder : Holds (h' rem) r
  fixed : (h' quo).fixedDig = (h quo).fixedDig ∧ (h' rem).fixedDig = (h rem).fixedDig
  within : (h' quo).alloc ≤ room ∧ (h' rem).alloc ≤ room
  others : ∀ i, i ≠ quo → i ≠ rem → ¬ Scratch i → i ≠ .temp .mpzone → h' i = h i

theorem Holds.len_le {z : MpzT c} {v : Int} {n : Nat} (hz : Holds z v) (hlt : v.natAbs < c.base ^ n) : z.len ≤ n := by
  by_contra hgt
  have hle := hz.normal.digits.pow_le (by omega)
  have hpow : c.base ^ n ≤ c.base ^ (z.len - 1) := Nat.pow_le_pow_right c.base_pos (by omega)
  have hmag : Digits.num c.base z.dig z.len = v.natAbs := hz.mag
  omega

theorem mpzInitFromInt_gives {z : Ref ι} {val : Int} {room : Nat} (hval : val.natAbs < 2 ^ c.wordBits)
    (hroom : c.numDigFor c.wordBits + 2 ≤ room) :
    Prog.wp (mpzInitFromInt z val) (fun _ h' => Stored (Function.update h z initZero) h' z val room) (fun e _ => Refused c room e) h := by
  unfold mpzInitFromInt
  rw [wp_change_bind]
  refine mpzSetFromInt_gives hval ?_ ?_ hroom
  · rw [Function.update_self]
    rfl
  · rw [Function.update_self]
    exact Nat.zero_le _

theorem wp_pythonModulo {A D Q R n room : Nat} {e : Bool} (hQ : Holds (h quo) Q) (hR : Holds (h rem) (signed (h lhs).neg R))
    (hy : Holds (h rhs) (signed e D)) (he : (h rhs).neg = e) (hA : A = Q * D + R) (hlt : R < D) (hAlt : A < c.base ^ n) (hqr : quo ≠ rem)
    (hrq : rhs ≠ quo) (hsq : ¬ Scratch quo) (hsr : ¬ Scratch rem) (hsy : ¬ Scratch rhs)
    (hone : quo ≠ .temp .mpzone ∧ rem ≠ .temp .mpzone ∧ rhs ≠ .temp .mpzone)
    (hfixed : (h quo).fixedDig = false ∧ (h rem).fixedDig = false) (hd : (h quo).alloc ≤ room ∧ (h rem).alloc ≤ room)
    (hroom : n + (h rhs).len + c.numDigFor c.wordBits + 3 ≤ room) :
    Prog.wp (pythonModulo quo rem lhs rhs) (fun _ h' => DivStored h h' quo rem ((signed (h lhs).neg A).fdiv (signed e D))
      ((signed (h lhs).neg A).fmod (signed e D)) room) (fun e _ => Refused c room e) h := by
  obtain ⟨hsame, hexact, hrest⟩ := signed_floor (b := (h lhs).neg) (e := e) hA hlt
  unfold pythonModulo
  rw [wp_look_bind, wp_look_bind, he]
  by_cases hsign : (h lhs).neg = e
  · obtain ⟨hq, hr⟩ := hsame hsign
    rw [if_neg (not_not.mpr hsign), hq, hr]
    exact ⟨hQ, hR, ⟨rfl, rfl⟩, hd, fun _ _ _ _ _ => rfl⟩
  rw [if_pos hsign, wp_look_bind, wp_setNeg_bind, wp_look_bind]
  have hneg : Stored h (putNeg h quo (decide ((h quo).len ≠ 0))) quo (-Q) room := by
    refine (Stored.refl hQ hd.1).putNeg (fun hz => decide_eq_false (not_not.mpr hz)) ?_
    have hmag : (h quo).mag = Q := hQ.mag
    by_cases hz : (h quo).len = 0
    · rw [decide_eq_false (not_not.mpr hz), ← hmag, MpzT.mag, hz, num_zero]
      rfl
    · rw [decide_eq_true hz, hmag]
      rfl
  generalize putNeg h quo (decide ((h quo).len ≠ 0)) = h₁ at hneg
  have hkeep : ∀ r, r ≠ quo → ¬ Scratch r → h₁ r = h r := hneg.others
  rw [hkeep rem hqr.symm hsr]
  have hmagR : (h rem).mag = R := hR.mag.trans (natAbs_signed _ _)
  by_cases hzero : (h rem).len = 0
  · have hR0 : R = 0 := by rw [← hmagR, MpzT.mag, hzero, num_zero]
    obtain ⟨hq, hr⟩ := hexact hsign hR0
    rw [if_neg (not_not.mpr hzero), hq, hr]
    refine ⟨hneg.holds, (hkeep rem hqr.symm hsr).symm ▸ hR, ⟨hneg.fixed, ?_⟩, ⟨hneg.within, ?_⟩, fun i h1 _ h3 _ => hkeep i h1 h3⟩
    · rw [hkeep rem hqr.symm hsr]
    · rw [hkeep rem hqr.symm hsr]
      exact hd.2
  have hR0 : R ≠ 0 := by
    rw [← hmagR]
    exact mt (hR.normal.digits.num_eq_zero c.base_pos).mp hzero
  obtain ⟨hq, hr⟩ := hrest hsign hR0
  rw [if_pos hzero, hq, hr]
  -- one less, and the divisor more
  refine Prog.wp_then (mpzInitFromInt_gives (by have := c.digSize_lt_wordBits; exact Nat.one_lt_two_pow (by omega)) (by omega))
    (fun _ h₂ hs₂ => ?_) fun _ _ he => he
  have hkeep₂ : ∀ r, r ≠ .temp .mpzone → ¬ Scratch r → h₂ r = h₁ r := fun r hr hs =>
    (hs₂.others r hr hs).trans (Function.update_of_ne hr _ _)
  have hquo₂ : h₂ quo = h₁ quo := hkeep₂ quo hone.1 hsq
  have hrem₂ : h₂ rem = h rem := (hkeep₂ rem hone.2.1 hsr).trans (hkeep rem hqr.symm hsr)
  have hrhs₂ : h₂ rhs = h rhs := (hkeep₂ rhs hone.2.2 hsy).trans (hkeep rhs hrq hsy)
  have hlenQ : (h₂ quo).len ≤ n := by
    rw [hquo₂]
    refine hneg.holds.len_le (Nat.lt_of_le_of_lt ?_ hAlt)
    rw [Int.natAbs_neg, Int.natAbs_natCast, hA]
    exact Nat.le_trans (Nat.le_mul_of_pos_right Q (by omega)) (Nat.le_add_right _ _)
  have hlenR : (h rem).len ≤ n := by
    refine hR.len_le (Nat.lt_of_le_of_lt ?_ hAlt)
    rw [natAbs_signed, hA]
    exact Nat.le_add_left _ _
  have hlen1 : (h₂ (.temp .mpzone)).len ≤ 1 := hs₂.holds.len_le (by rw [Nat.pow_one]; exact c.one_lt_base)
  refine Prog.wp_then (mpzAddInpl_gives (hquo₂ ▸ hneg.holds) hs₂.holds (by rw [hquo₂, hneg.fixed]; exact hfixed.1)
    (by rw [hquo₂]; exact hneg.within) (by omega)) (fun _ h₃ hs₃ => ?_) fun _ _ he => he
  have hrem₃ : h₃ rem = h rem := (hs₃.others rem hqr.symm hsr).trans hrem₂
  have hrhs₃ : h₃ rhs = h rhs := (hs₃.others rhs hrq hsy).trans hrhs₂
  refine Prog.wp_mono (mpzAddInpl_gives (hrem₃.symm ▸ hR) (hrhs₃.symm ▸ hy) (by rw [hrem₃]; exact hfixed.2) (by rw [hrem₃]; exact hd.2)
    (by rw [hrem₃, hrhs₃]; omega)) (fun _ h₄ hs₄ => ?_) fun _ _ he => he
  have hquo₄ : h₄ quo = h₃ quo := hs₄.others quo hqr hsq
  refine ⟨hquo₄.symm ▸ hs₃.holds, hs₄.holds, ⟨?_, ?_⟩, ⟨?_, hs₄.within⟩, fun i h1 h2 h3 h4 => ?_⟩
  · rw [hquo₄, hs₃.fixed, hquo₂, hneg.fixed]
  · rw [hs₄.fixed, hrem₃]
  · rw [hquo₄]
    exact hs₃.within
  · rw [hs₄.others i h2 h3, hs₃.others i h1 h3, hkeep₂ i h4 h3, hkeep i h1 h3]

/-- Not an object of the division's own. -/
def Apart (r : Ref ι) : Prop := ¬ Scratch r ∧ r ≠ .temp .mpzone

/-- The remainder, from the number with a sign that is right where there is one. -/
theorem fmod_of_signs {b b' e : Bool} {A D : Nat} (h : signed b (A % D) = signed b' (A % D)) :
    (signed b A).fmod (signed e D) = (signed b' A).fmod (signed e D) := by
  by_cases hrest : A % D = 0
  · have hdvd : ∀ b : Bool, (signed b A).fmod (signed e D) = 0 := by
      intro b
      have hD : (D : Int) ∣ (A : Int) := Int.natCast_dvd_natCast.mpr (Nat.dvd_of_mod_eq_zero hrest)
      apply Int.fmod_eq_zero_of_dvd
      cases b <;> cases e <;> simpa [signed] using hD
    rw [hdvd, hdvd]
  · have hsame : b = b' := by
      cases b <;> cases b' <;> simp [signed] at h ⊢ <;> omega
    rw [hsame]

/-- The dividend may stand where the remainder will: then, where there is no remainder, its sign is
lost before the quotient takes one from it. -/
theorem mpzDivmodInpl_leaves {x y : Int} {room : Nat} (hx : Holds (h lhs) x) (hy : Holds (h rhs) y) (hy0 : y ≠ 0) (hqr : quo ≠ rem)
    (hlq : lhs ≠ quo) (hrq : rhs ≠ quo) (hrr : rhs ≠ rem) (har : Apart rhs) (haq : Apart quo)
    (harem : Apart rem) (hfixed : (h quo).fixedDig = false ∧ (h rem).fixedDig = false)
    (hd : (h quo).alloc ≤ room ∧ (h rem).alloc ≤ room) (hroom : (h lhs).len + (h rhs).len + c.numDigFor c.wordBits + 3 ≤ room) :
    Prog.wp (mpzDivmodInpl quo rem lhs rhs)
      (fun _ h' => ∃ q, DivStored h h' quo rem q (x.fmod y) room ∧ (lhs ≠ rem → q = x.fdiv y)) (fun e _ => Refused c room e) h := by
  have hlen : (h rhs).len ≠ 0 := by
    intro hz
    have hmag := hy.mag
    rw [MpzT.mag, hz, num_zero] at hmag
    exact hy0 (Int.natAbs_eq_zero.mp hmag.symm)
  unfold mpzDivmodInpl
  rw [wp_look_bind, decide_eq_true hlen]
  show Prog.wp (divPrepare quo rem lhs >>= _) _ _ h
  refine Prog.wp_then (wp_divPrepare hx.normal hqr hlq hfixed hd (by omega)) (fun _ h₁ hp => ?_) fun _ _ he => he
  have hrhs₁ : h₁ rhs = h rhs := hp.others rhs hrq hrr
  have hnum : Digits.Normal c.base (h₁ rem).dig (h₁ rem).len := by
    rw [hp.len]
    exact hx.normal.digits.congr fun q hq => (hp.dig q hq).symm
  have hmag : Digits.num c.base (h₁ rem).dig (h₁ rem).len = (h lhs).mag := by
    rw [hp.len]
    exact num_congr hp.dig
  obtain ⟨nl, ql, f, g, hrun, hnl, hql, hfn, hgn, hfv, hgv⟩ := mpnDiv_spec hrr hqr hrq hnum (hrhs₁.symm ▸ hy.normal.digits)
    (by rw [hrhs₁]; exact hlen) (by rw [hrhs₁]; exact hy.normal.fits) (by rw [hp.len]; exact hp.fits.2) (by rw [hp.len]; exact hp.fits.1)
  have hmag' : Digits.num c.base (h₁ rhs).dig (h₁ rhs).len = (h rhs).mag := by
    rw [hrhs₁]
    rfl
  rw [hmag, hmag'] at hfv hgv
  rw [wp_look_bind, wp_look_bind]
  refine Prog.wp_bind.mpr ?_
  unfold Prog.wp
  rw [hrun]
  show Prog.wp _ _ _ _
  rw [wp_setLen_bind, wp_setLen_bind, wp_look_bind, wp_look_bind, wp_setNeg_bind]
  obtain ⟨h₂, hh₂⟩ : ∃ h₂, putLen (putLen (divAt h₁ rem quo f g) rem nl) quo ql = h₂ := ⟨_, rfl⟩
  have hrem₂ : h₂ rem = { h₁ rem with dig := f, len := nl } := by
    rw [← hh₂, putLen, Function.update_of_ne hqr.symm, putLen, Function.update_self, divAt_num hqr]
  rw [hh₂, hrem₂]
  obtain ⟨h₃, hh₃⟩ : ∃ h₃, putNeg h₂ rem ((h₁ rem).neg && decide (nl ≠ 0)) = h₃ := ⟨_, rfl⟩
  have hrem₃ : h₃ rem = { h₁ rem with dig := f, len := nl, neg := (h₁ rem).neg && decide (nl ≠ 0) } := by
    rw [← hh₃, putNeg_self, hrem₂]
  have hquo₃ : h₃ quo = { h₁ quo with dig := g, len := ql } := by
    rw [← hh₃, putNeg, Function.update_of_ne hqr, ← hh₂, putLen, Function.update_self, putLen, Function.update_of_ne hqr, divAt_quo hqr]
  have hkeep : ∀ r, r ≠ quo → r ≠ rem → h₃ r = h r := by
    intro r h1 h2
    rw [← hh₃, putNeg, Function.update_of_ne h2, ← hh₂, putLen, Function.update_of_ne h1, putLen, Function.update_of_ne h2,
      divAt_of_ne h2 h1, hp.others r h1 h2]
  show Prog.wp (pythonModulo quo rem lhs rhs) _ _ (putNeg h₂ rem ((h₁ rem).neg && decide (nl ≠ 0)))
  rw [hh₃]
  have hrhs₃ := hkeep rhs hrq hrr
  have hQ : Holds (h₃ quo) ((h lhs).mag / (h rhs).mag : Nat) := by
    rw [hquo₃]
    refine ⟨⟨hql, hgn, fun _ => hp.quo_neg⟩, ?_⟩
    show signed (h₁ quo).neg (Digits.num c.base g ql) = _
    rw [hp.quo_neg, hgv]
    rfl
  have hlhs₃ : lhs ≠ rem → (h₃ lhs).neg = (h lhs).neg := fun hlr => by rw [hkeep lhs hlq hlr]
  have hsign : signed (h₃ lhs).neg ((h lhs).mag % (h rhs).mag) = signed (h lhs).neg ((h lhs).mag % (h rhs).mag) := by
    by_cases hlr : lhs = rem
    · have hlost : (h₃ lhs).neg = ((h₁ rem).neg && decide (nl ≠ 0)) := by rw [hlr, hrem₃]
      rw [hlost, ← hfv, signed_of_digits, hp.neg]
    · rw [hlhs₃ hlr]
  have hR : Holds (h₃ rem) (signed (h₃ lhs).neg ((h lhs).mag % (h rhs).mag)) := by
    rw [hsign, hrem₃, ← hfv]
    refine ⟨⟨hnl, hfn, fun hz => ?_⟩, ?_⟩
    · show ((h₁ rem).neg && decide (nl ≠ 0)) = false
      rw [decide_eq_false (not_not.mpr hz), Bool.and_false]
    · show signed ((h₁ rem).neg && decide (nl ≠ 0)) (Digits.num c.base f nl) = _
      rw [signed_of_digits, hp.neg]
  have hxv : x = signed (h lhs).neg (h lhs).mag := hx.value.symm
  have hyv : y = signed (h rhs).neg (h rhs).mag := hy.value.symm
  have hpos : 0 < (h rhs).mag := Nat.pos_of_ne_zero (mt (hy.normal.digits.num_eq_zero c.base_pos).mp hlen)
  rw [hxv, hyv, ← fmod_of_signs hsign]
  refine Prog.wp_mono (wp_pythonModulo (n := (h lhs).len) hQ hR (by rw [hrhs₃, ← hyv]; exact hy) (by rw [hrhs₃])
    (by rw [Nat.mul_comm]; exact (Nat.div_add_mod _ _).symm) (Nat.mod_lt _ hpos) hx.normal.mag_lt hqr hrq haq.1 harem.1 har.1
    ⟨haq.2, harem.2, har.2⟩ ?_ ?_ (by rw [hrhs₃]; omega)) (fun _ h' hs => ?_) fun _ _ he => he
  · rw [hquo₃, hrem₃]
    exact ⟨hp.fixed.1.trans hfixed.1, hp.fixed.2.trans hfixed.2⟩
  · rw [hquo₃, hrem₃]
    exact hp.within
  · refine ⟨_, ⟨hs.quotient, hs.remainder, ⟨?_, ?_⟩, hs.within, fun i h1 h2 h3 h4 => ?_⟩, fun hlr => ?_⟩
    · rw [hs.fixed.1, hquo₃]
      exact hp.fixed.1
    · rw [hs.fixed.2, hrem₃]
      exact hp.fixed.2
    · rw [hs.others i h1 h2 h3 h4, hkeep i h1 h2]
    · rw [hlhs₃ hlr]

theorem mpzDivmodInpl_gives {x y : Int} {room : Nat} (hx : Holds (h lhs) x) (hy : Holds (h rhs) y) (hy0 : y ≠ 0) (hqr : quo ≠ rem)
    (hlq : lhs ≠ quo) (hlr : lhs ≠ rem) (hrq : rhs ≠ quo) (hrr : rhs ≠ rem) (har : Apart rhs) (haq : Apart quo)
    (harem : Apart rem) (hfixed : (h quo).fixedDig = false ∧ (h rem).fixedDig = false)
    (hd : (h quo).alloc ≤ room ∧ (h rem).alloc ≤ room) (hroom : (h lhs).len + (h rhs).len + c.numDigFor c.wordBits + 3 ≤ room) :
    Prog.wp (mpzDivmodInpl quo rem lhs rhs) (fun _ h' => DivStored h h' quo rem (x.fdiv y) (x.fmod y) room) (fun e _ => Refused c room e) h := by
  refine Prog.wp_mono (mpzDivmodInpl_leaves hx hy hy0 hqr hlq hrq hrr har haq harem hfixed hd hroom) (fun _ h' hs => ?_) fun _ _ he => he
  obtain ⟨q, hstored, hq⟩ := hs
  rwa [← hq hlr]

/-- Division of normal objects, the divisor not zero: quotient and remainder are normal, they are
those of Python's floor division, and the operands stay. The one other outcome is an array refused. -/
theorem mpz_divmod_exact (hl : (h lhs).Normal) (hr : (h rhs).Normal) (hzero : (h rhs).value ≠ 0) (hqr : quo ≠ rem) (hlq : lhs ≠ quo)
    (hlr : lhs ≠ rem) (hrq : rhs ≠ quo) (hrr : rhs ≠ rem) (hal : Apart lhs) (har : Apart rhs) (haq : Apart quo) (harem : Apart rem)
    (hfixed : (h quo).fixedDig = false ∧ (h rem).fixedDig = false) :
    Prog.wp (mpzDivmodInpl quo rem lhs rhs)
      (fun _ h' => (h' quo).Normal ∧ (h' rem).Normal ∧ (h lhs).value = (h' quo).value * (h rhs).value + (h' rem).value ∧
        ((h' rem).value = 0 ∨ |(h' rem).value| < |(h rhs).value| ∧ (h' rem).value.sign = (h rhs).value.sign) ∧
        (h' quo).value = (h lhs).value.fdiv (h rhs).value ∧ (h' rem).value = (h lhs).value.fmod (h rhs).value ∧
        h' lhs = h lhs ∧ h' rhs = h rhs)
      (fun e _ => Refused c ((h quo).alloc + (h rem).alloc + (h lhs).len + (h rhs).len + c.numDigFor c.wordBits + 3) e) h := by
  have hx : Holds (h lhs) (h lhs).value := ⟨hl, rfl⟩
  have hy : Holds (h rhs) (h rhs).value := ⟨hr, rfl⟩
  refine Prog.wp_mono (mpzDivmodInpl_gives hx hy hzero hqr hlq hlr hrq hrr har haq harem hfixed ⟨by omega, by omega⟩ (by omega))
    (fun _ h' hs => ?_) fun _ _ he => he
  have hq := hs.quotient.value
  have hrem := hs.remainder.value
  refine ⟨hs.quotient.normal, hs.remainder.normal, ?_, ?_, hq, hrem, hs.others lhs hlq hlr hal.1 hal.2, hs.others rhs hrq hrr har.1 har.2⟩
  · rw [hq, hrem, Int.mul_comm]
    exact (Int.mul_fdiv_add_fmod _ _).symm
  · rw [hrem]
    exact fmod_spec hzero


/-- `-(2 ** 16 + 1)`, `2 ** 16 - 1` and two objects to divide into. -/
def divObjects : Heap sh4 (Fin 4)
  | .obj 0 => ⟨true, false, 2, 2, fun _ => 1, two_granted⟩
  | .obj 1 => ⟨false, false, 2, 1, fun _ => 0xffff, two_granted⟩
  | _ => initZero

theorem divObjects_value : (divObjects (.obj 0)).value = -65537 ∧ (divObjects (.obj 1)).value = 65535 := by decide

theorem divObjects_normal : (divObjects (.obj 0)).Normal ∧ (divObjects (.obj 1)).Normal :=
  ⟨⟨by decide, ⟨fun _ _ => (by decide : 1 < sh4.base), fun _ => by decide⟩, by decide⟩,
    ⟨by decide, ⟨fun _ _ => (by decide : 0xffff < sh4.base), fun _ => by decide⟩, by decide⟩⟩

theorem mpz_divmod_exact_mixed : ∃ h, h = divObjects ∧ (h (.obj 0)).value = -65537 ∧ (h (.obj 1)).value = 65535 ∧
    Prog.wp (mpzDivmodInpl (.obj 2) (.obj 3) (.obj 0) (.obj 1))
      (fun _ h' => (h' (.obj 2)).value = -2 ∧ (h' (.obj 3)).value = 65533) (fun e _ => e = .memory) h := by
  obtain ⟨h, hh⟩ : ∃ h, h = divObjects := ⟨_, rfl⟩
  have hx : (h (.obj 0)).value = -65537 := hh ▸ divObjects_value.1
  have hy : (h (.obj 1)).value = 65535 := hh ▸ divObjects_value.2
  have hfixed : (h (.obj 2)).fixedDig = false ∧ (h (.obj 3)).fixedDig = false := by
    rw [hh]
    exact ⟨rfl, rfl⟩
  have hapart : ∀ i : Fin 4, Apart (.obj i : Ref (Fin 4)) := fun i => ⟨fun e => by cases e <;> contradiction, by simp⟩
  refine ⟨h, hh, hx, hy, ?_⟩
  refine Prog.wp_mono (mpz_divmod_exact (hh ▸ divObjects_normal.1) (hh ▸ divObjects_normal.2) (by rw [hy]; decide) (by decide) (by decide)
    (by decide) (by decide) (by decide) (hapart 0) (hapart 1) (hapart 2) (hapart 3) hfixed) (fun _ h' hs => ?_) fun _ _ he => he.1
  obtain ⟨-, -, -, -, hq, hm, -, -⟩ := hs
  rw [hq, hm, hx, hy]
  decide

end PythonUltra.Py.Mpz
