/-
  PythonUltra.Py.MpzPow — what int objects use of mpz.c besides: shifts to the right,
  powers, comparison, and the way to and from machine integers.

  A shift to the right of a negative number rounds down: one is added to the magnitude
  when a bit that is shifted out is set. The loop of mpz_pow_inpl keeps
  `dest * x ** n` (`powTurn_spec`).
-/

import PythonUltra.Py.MpzDiv

namespace PythonUltra.Py.Mpz

open PythonUltra.Lib PythonUltra.Lib.Digits

variable {ι : Type} [DecidableEq ι] {c : Config} {h h' : Heap c ι} {dest lhs rhs z : Ref ι}

/-! ## Shifts to the right -/

omit [DecidableEq ι] in
theorem anyDig_spec {p n : Nat} (hn : p + n ≤ (h z).alloc) :
    ∃ b, anyDig z n p h = (.ok b, h) ∧ (b = true ↔ ∃ q, p ≤ q ∧ q < p + n ∧ (h z).dig q ≠ 0) := by
  induction n generalizing p with
  | zero => exact ⟨false, rfl, by simp; omega⟩
  | succ n ih =>
    have hread : readDig z p h = (.ok ((h z).dig p), h) := readDig_of_lt (by omega)
    rw [anyDig, Prog.bind_of_ok hread]
    by_cases hne : (h z).dig p ≠ 0
    · rw [if_pos hne]
      exact ⟨true, rfl, fun _ => ⟨p, Nat.le_refl p, by omega, hne⟩, fun _ => rfl⟩
    · rw [if_neg hne]
      obtain ⟨b, hb, hiff⟩ := ih (p := p + 1) (by omega)
      refine ⟨b, hb, hiff.trans ⟨?_, ?_⟩⟩
      · intro ⟨q, h1, h2, hq⟩
        exact ⟨q, by omega, by omega, hq⟩
      · intro ⟨q, h1, h2, hq⟩
        have hqp : q ≠ p := fun e => hne (e ▸ hq)
        exact ⟨q, by omega, by omega, hq⟩

theorem num_ne_zero {B n : Nat} {f : Nat → Nat} (hB : 0 < B) : num B f n ≠ 0 ↔ ∃ q, 0 ≤ q ∧ q < 0 + n ∧ f q ≠ 0 := by
  unfold num
  rw [ne_eq, Finset.sum_eq_zero_iff]
  simp [hB.ne']

theorem num_mod_pow {B len w : Nat} {f : Nat → Nat} (hB : 0 < B) (hf : ∀ q < len, f q < B) : num B f len % B ^ w = num B f (min len w) := by
  rcases Nat.le_total len w with hle | hle
  · rw [Nat.min_eq_left hle]
    exact Nat.mod_eq_of_lt (Nat.lt_of_lt_of_le (num_lt hB hf) (Nat.pow_le_pow_right hB hle))
  · obtain ⟨m, rfl⟩ := Nat.exists_eq_add_of_le hle
    rw [Nat.min_eq_right hle, num_add, Nat.add_mul_mod_self_left]
    exact Nat.mod_eq_of_lt (num_lt hB fun q hq => hf q (by omega))

theorem num_mod_shift {len w p : Nat} {f : Nat → Nat} (hf : ∀ q < len, f q < c.base) (hp : p < c.digSize) :
    num c.base f len % (c.base ^ w * 2 ^ p) ≠ 0 ↔ num c.base f (min len w) ≠ 0 ∨ upTo len f w % 2 ^ p ≠ 0 := by
  have hdvd : 2 ^ p ∣ c.base := Nat.pow_dvd_pow 2 (Nat.le_of_lt hp)
  have hpos : 0 < c.base ^ w := Nat.pow_pos c.base_pos
  rw [Nat.mod_mul, num_mod_pow c.base_pos hf, ← Nat.mod_mod_of_dvd _ hdvd, num_digit_upTo c.base_pos hf]
  rw [ne_eq, Nat.add_eq_zero_iff, Nat.mul_eq_zero, not_and_or, not_or]
  exact or_congr_right (and_iff_right hpos.ne')

/-- Rounding down a negative number. -/
theorem neg_ediv_pow (m n : Nat) : -(m : Int) / 2 ^ n = -((m / 2 ^ n + if m % 2 ^ n ≠ 0 then 1 else 0 : Nat) : Int) := by
  have hpos : (0 : Int) < 2 ^ n := by positivity
  have hcast : ((2 ^ n : Nat) : Int) = 2 ^ n := Nat.cast_pow 2 n
  have hsplit : (m : Int) = 2 ^ n * (m / 2 ^ n : Nat) + (m % 2 ^ n : Nat) := by
    rw [← hcast]
    exact_mod_cast (Nat.div_add_mod m (2 ^ n)).symm
  have hlt : ((m % 2 ^ n : Nat) : Int) < 2 ^ n := by
    rw [← hcast]
    exact_mod_cast Nat.mod_lt m (Nat.two_pow_pos n)
  by_cases hz : m % 2 ^ n = 0
  · rw [if_neg (not_not.mpr hz), Nat.add_zero, hsplit, hz]
    refine Int.ediv_eq_of_eq_mul_right hpos.ne' ?_
    push_cast
    ring
  · rw [if_pos hz]
    have hone : -(m : Int) = (2 ^ n - (m % 2 ^ n : Nat)) + 2 ^ n * -((m / 2 ^ n + 1 : Nat) : Int) := by
      push_cast at hsplit ⊢
      linarith
    rw [hone, Int.add_mul_ediv_left _ _ hpos.ne', Int.ediv_eq_zero_of_lt (by omega) (by omega), Int.zero_add]

omit [DecidableEq ι] in
theorem wp_ok_bind {α β : Type} {x : M c ι α} {a : α} {k : α → M c ι β} {Q : β → Heap c ι → Prop} {R : Fault → Heap c ι → Prop}
    (hx : x h = (.ok a, h')) : Prog.wp (x >>= k) Q R h = Prog.wp (k a) Q R h' := by
  unfold Prog.wp
  rw [Prog.bind_of_ok hx]

omit [DecidableEq ι] in
theorem roundUp_spec {n : Nat} (hfits : (h z).len ≤ (h z).alloc) (hz : Digits.Normal c.base (h z).dig (h z).len) :
    ∃ b, roundUp z n h = (.ok b, h) ∧ (b = true ↔ (h z).mag % 2 ^ n ≠ 0) := by
  have hb := c.four_le_digSize
  have hpow : 2 ^ n = c.base ^ (n / c.digSize) * 2 ^ (n % c.digSize) := by
    rw [Config.base, ← Nat.pow_mul, ← Nat.pow_add, Nat.div_add_mod]
  have hmod := num_mod_shift (w := n / c.digSize) hz.below (Nat.mod_lt n (show 0 < c.digSize by omega))
  rw [← hpow] at hmod
  obtain ⟨b, hany, hiff⟩ := anyDig_spec (h := h) (z := z) (p := 0) (n := min (h z).len (n / c.digSize)) (by omega)
  rw [← num_ne_zero c.base_pos] at hiff
  have hmask : ∀ x, x &&& (1 <<< (n % c.digSize) - 1) = x % 2 ^ (n % c.digSize) := by
    intro x
    rw [Nat.one_shiftLeft]
    exact Nat.and_two_pow_sub_one_eq_mod x _
  have hrun : roundUp z n h = (if n / c.digSize < (h z).len then do
      pure (b || (← readDig z (n / c.digSize)) &&& (1 <<< (n % c.digSize) - 1) != 0) else pure b : M c ι Bool) h := Prog.bind_of_ok hany
  rw [hrun]
  by_cases hlt : n / c.digSize < (h z).len
  · have hup : upTo (h z).len (h z).dig (n / c.digSize) = (h z).dig (n / c.digSize) := if_pos hlt
    rw [hup] at hmod
    refine ⟨b || (h z).dig (n / c.digSize) % 2 ^ (n % c.digSize) != 0, ?_, ?_⟩
    · rw [if_pos hlt, Prog.bind_of_ok (readDig_of_lt (by omega)), hmask]
      rfl
    · rw [Bool.or_eq_true, hiff, bne_iff_ne]
      exact hmod.symm
  · have hup : upTo (h z).len (h z).dig (n / c.digSize) = 0 := if_neg hlt
    rw [hup, Nat.zero_mod] at hmod
    refine ⟨b, ?_, ?_⟩
    · rw [if_neg hlt]
      rfl
    · rw [hiff, MpzT.mag, hmod]
      simp

variable (dest) in
/-- A magnitude with one added to it, where there is room. -/
theorem addRoundUp_makes (hd : Digits.Normal c.base (h dest).dig (h dest).len) (hfits : (h dest).len ≤ (h dest).alloc)
    (h1 : 1 ≤ (h dest).alloc) (hscratch : ¬ Scratch dest) (hroom : num c.base (h dest).dig (h dest).len + 1 < c.base ^ (h dest).alloc) :
    ∃ h₁ n f, addRoundUp dest h = (.ok (), stored h₁ dest f n (h dest).neg) ∧ n ≤ (h dest).alloc ∧ Digits.Normal c.base f n ∧
      num c.base f n = num c.base (h dest).dig (h dest).len + 1 ∧ ∀ r, ¬ Scratch r → h₁ r = h r := by
  by_cases hlen : (h dest).len = 0
  · have hdigit : ∀ q < 1, Function.update (h dest).dig 0 (c.dig 1) q = 1 := by
      intro q hq
      obtain rfl : q = 0 := by omega
      rw [Function.update_self, Config.dig_of_lt c.one_lt_base]
    refine ⟨h, 1, Function.update (h dest).dig 0 (c.dig 1), ?_, h1,
      ⟨fun q hq => (hdigit q hq).symm ▸ c.one_lt_base, fun _ => (hdigit 0 Nat.one_pos).symm ▸ Nat.one_ne_zero⟩, ?_, fun _ _ => rfl⟩
    · rw [addRoundUp]
      show (if (h dest).len = 0 then _ else _ : M c ι Unit) h = _
      rw [if_pos hlen, Prog.bind_of_ok (writeDig_of_lt h1), ← putLen_withDig]
      rfl
    · rw [num_congr hdigit, num_succ, num_zero, hlen, num_zero]
      rfl
  · have hdest : withOne h dest = h dest := withOne_of_not hscratch
    have hone : Digits.Normal c.base (withOne h (.temp .k)).dig 1 := withOne_k (h := h) ▸ ofDig_normal.1
    have hadd := mpnAdd_spec (h := withOne h) (i := dest) (j := dest) (by rw [hdest]; exact hd) hone (by omega) (by rw [hdest]; exact hfits)
      (by rw [withOne_k]; exact Nat.le_refl 1) (by rw [hdest]; exact hfits) (by rw [hdest, withOne_k, ofDig_normal.2]; exact hroom)
    rw [hdest, withOne_k, ofDig_normal.2] at hadd
    obtain ⟨n, f, hrun, hn, hf, hnum⟩ := hadd
    rw [hdest] at hn
    refine ⟨withOne h, n, f, ?_, hn, hf, hnum, fun r hr => withOne_of_not hr⟩
    rw [addRoundUp]
    show (if (h dest).len = 0 then _ else _ : M c ι Unit) h = _
    rw [if_neg hlen]
    show (mpnAdd dest dest (withOne h dest).len (.temp .k) 1 >>= _) (withOne h) = _
    rw [hdest, Prog.bind_of_ok hrun, ← hdest, ← putLen_withDig]
    rfl

theorem halve_lt {m n len alloc : Nat} (hn : n ≠ 0) (hm : m < c.base ^ len) (hlen : len ≤ alloc) (h2 : 2 ≤ alloc) :
    m / 2 ^ n + 1 < c.base ^ alloc := by
  have hle : c.base ^ len ≤ c.base ^ alloc := Nat.pow_le_pow_right c.base_pos hlen
  have hbig : 2 ^ 2 ≤ c.base ^ alloc :=
    Nat.le_trans (Nat.pow_le_pow_left c.one_lt_base 2) (Nat.pow_le_pow_right c.base_pos h2)
  have hhalf : m / 2 ^ n ≤ m / 2 := Nat.div_le_div_left (Nat.le_self_pow hn 2) (by decide)
  omega

omit [DecidableEq ι] in
theorem MpzT.Normal.mag_ne_zero {z : MpzT c} (hz : z.Normal) (hneg : z.neg = true) : z.mag ≠ 0 := by
  intro hmag
  have hlen := (hz.digits.num_eq_zero c.base_pos).mp hmag
  rw [hz.zero hlen] at hneg
  cases hneg

omit [DecidableEq ι] in
theorem Holds.neg_eq {z : MpzT c} {v : Int} (hz : Holds z v) : z.neg = decide (v < 0) := by
  have hmag := hz.mag
  have hv := hz.value
  unfold MpzT.value at hv
  cases hneg : z.neg with
  | false =>
    rw [hneg] at hv
    change (z.mag : Int) = v at hv
    exact (decide_eq_false (by omega)).symm
  | true =>
    rw [hneg] at hv
    change -(z.mag : Int) = v at hv
    have hlen : z.len ≠ 0 := fun hzero => Bool.false_ne_true ((hz.normal.zero hzero).symm.trans hneg)
    have hpos : z.mag ≠ 0 := mt (hz.normal.digits.num_eq_zero c.base_pos).mp hlen
    exact (decide_eq_true (by omega)).symm

/-- What is left of a magnitude, under its sign. -/
structure Shifted (h h' : Heap c ι) (dest : Ref ι) (neg : Bool) (m room : Nat) : Prop where
  digits : Digits.Normal c.base (h' dest).dig (h' dest).len
  fits : (h' dest).len ≤ (h' dest).alloc
  neg : (h' dest).neg = neg
  mag : (h' dest).mag = m
  fixed : (h' dest).fixedDig = (h dest).fixedDig
  within : (h' dest).alloc ≤ room
  others : ∀ r, r ≠ dest → ¬ Scratch r → h' r = h r

/-- What mpz_shr_inpl takes `round_up` from: the number, or what is left of it where it was
shifted in place. -/
def roundedFrom (shared : Bool) (m n : Nat) : Nat := if shared then m / 2 ^ n else m

def shiftedMag (shared neg : Bool) (m n : Nat) : Nat := m / 2 ^ n + if neg = true ∧ roundedFrom shared m n % 2 ^ n ≠ 0 then 1 else 0

theorem shiftedMag_ne_zero {m n : Nat} (hm : m ≠ 0) : shiftedMag false true m n ≠ 0 := by
  intro hzero
  have hsplit := Nat.div_add_mod m (2 ^ n)
  simp only [shiftedMag, roundedFrom, Bool.false_eq_true, if_false, true_and] at hzero
  split at hzero
  · exact Nat.succ_ne_zero _ hzero
  · rename_i hexact
    rw [Nat.add_zero] at hzero
    rw [hzero, not_not.mp hexact, Nat.mul_zero] at hsplit
    exact hm hsplit.symm

theorem signed_inj {neg : Bool} {m n : Nat} (h : signed neg m = signed neg n) : m = n := by
  cases neg with
  | false => exact Int.ofNat.inj h
  | true => exact Int.ofNat.inj (Int.neg_inj.mp h)

theorem shiftedMag_zero (shared neg : Bool) (m : Nat) : shiftedMag shared neg m 0 = m := by
  simp [shiftedMag, Nat.mod_one]

omit [DecidableEq ι] in
theorem Shifted.stored {m room : Nat} {neg : Bool} {v : Int} (hs : Shifted h h' dest neg m room) (hzero : m = 0 → neg = false) (hv : signed neg m = v) :
    Stored h h' dest v room := by
  refine ⟨⟨⟨hs.fits, hs.digits, fun hlen => ?_⟩, ?_⟩, hs.fixed, hs.within, hs.others⟩
  · rw [hs.neg]
    apply hzero
    rw [← hs.mag]
    exact (hs.digits.num_eq_zero c.base_pos).mpr hlen
  · rw [MpzT.value, hs.neg, hs.mag, hv]

omit [DecidableEq ι] in
theorem Stored.shifted {m room : Nat} {neg : Bool} {v : Int} (hs : Stored h h' dest v room) (hneg : neg = decide (v < 0)) (hm : m = v.natAbs) :
    Shifted h h' dest neg m room :=
  ⟨hs.holds.normal.digits, hs.holds.normal.fits, hs.holds.neg_eq.trans hneg.symm, hs.holds.mag.trans hm.symm, hs.fixed, hs.within, hs.others⟩

theorem mpzShrInpl_leaves {n room : Nat} (hl : (h lhs).Normal) (hfixed : (h dest).fixedDig = false)
    (hscratch : ¬ Scratch dest) (hd : (h dest).alloc ≤ room) (hroom : (h lhs).len + 2 ≤ room) :
    Prog.wp (mpzShrInpl dest lhs n)
      (fun _ h' => Shifted h h' dest (h lhs).neg (shiftedMag (decide (lhs = dest)) (h lhs).neg (h lhs).mag n) room)
      (fun e _ => Refused c room e) h := by
  unfold mpzShrInpl
  rw [wp_look_bind]
  by_cases hzero : (h lhs).len = 0 ∨ n = 0
  · rw [if_pos hzero]
    have hx : Holds (h lhs) (h lhs).value := ⟨hl, rfl⟩
    have hsame : shiftedMag (decide (lhs = dest)) (h lhs).neg (h lhs).mag n = (h lhs).mag := by
      rcases hzero with hlen | rfl
      · have hmag : (h lhs).mag = 0 := by
          rw [MpzT.mag, hlen, num_zero]
        rw [hmag, shiftedMag, hl.zero hlen, Nat.zero_div]
        rfl
      · exact shiftedMag_zero _ _ _
    rw [hsame]
    refine Prog.wp_mono (mpzSet_gives hx hfixed hd hroom) (fun _ h' hs => ?_) fun _ _ he => he
    exact hs.shifted hx.neg_eq hx.mag
  · obtain ⟨hlen, hpos⟩ := not_or.mp hzero
    rw [if_neg hzero, wp_look_bind]
    refine Prog.wp_bind.mpr (wp_mpzNeedDig hfixed (by omega) (by omega) fun h₁ hg => ?_)
    have hl₁ := hg.normal hl
    have hmag₁ : num c.base (h₁ lhs).dig (h₁ lhs).len = (h lhs).mag := hg.mag_eq hl
    have hlen₁ := hg.len_eq lhs
    rw [wp_look_bind]
    refine wp_makes (mpnShr_spec hl₁.digits hl₁.fits (by rw [hlen₁]; exact hg.need_le)) fun m f hm hf hnum => ?_
    rw [hmag₁] at hnum
    rw [wp_setLen_bind, wp_look_bind, wp_setNeg_bind, wp_look_bind, putNeg_putLen, putLen_neg, withDig_neg, hg.neg_eq]
    have hself : stored h₁ dest f m (h lhs).neg dest = { h₁ dest with dig := f, len := m, neg := (h lhs).neg } := Function.update_self _ _ _
    have hother : ∀ r, r ≠ dest → stored h₁ dest f m (h lhs).neg r = h₁ r := fun r hr => Function.update_of_ne hr _ _
    -- the number that the digits for `round_up` are now of
    have hfrom : (stored h₁ dest f m (h lhs).neg lhs).mag = roundedFrom (decide (lhs = dest)) (h lhs).mag n := by
      by_cases hshared : lhs = dest
      · subst hshared
        rw [decide_eq_true rfl, MpzT.mag, hself]
        exact hnum
      · rw [hother lhs hshared, decide_eq_false hshared]
        exact hmag₁
    have hread : (stored h₁ dest f m (h lhs).neg lhs).len ≤ (stored h₁ dest f m (h lhs).neg lhs).alloc ∧
        Digits.Normal c.base (stored h₁ dest f m (h lhs).neg lhs).dig (stored h₁ dest f m (h lhs).neg lhs).len := by
      by_cases hshared : lhs = dest
      · subst hshared
        rw [hself]
        exact ⟨hm, hf⟩
      · rw [hother lhs hshared]
        exact ⟨hl₁.fits, hl₁.digits⟩
    have hunrounded : Shifted h (stored h₁ dest f m (h lhs).neg) dest (h lhs).neg ((h lhs).mag / 2 ^ n) room := by
      refine ⟨?_, ?_, ?_, ?_, ?_, ?_, fun r e _ => (hother r e).trans (hg.others r e)⟩
      · rw [hself]
        exact hf
      · rw [hself]
        exact hm
      · rw [hself]
      · rw [hself, MpzT.mag]
        exact hnum
      · rw [hself]
        exact hg.fixed
      · rw [hself]
        exact hg.le hd (by omega) (by omega)
    rw [hself]
    by_cases hneg : (h lhs).neg = true
    · rw [if_pos hneg]
      obtain ⟨b, hround, hb⟩ := roundUp_spec (n := n) hread.1 hread.2
      rw [hfrom] at hb
      rw [wp_ok_bind hround]
      by_cases hup : b = true
      · rw [if_pos hup]
        have hresult : shiftedMag (decide (lhs = dest)) (h lhs).neg (h lhs).mag n = (h lhs).mag / 2 ^ n + 1 := by
          rw [shiftedMag, if_pos ⟨hneg, hb.mp hup⟩]
        have hself' : (stored h₁ dest f m (h lhs).neg dest).alloc = (h₁ dest).alloc := by rw [hself]
        obtain ⟨h₃, m', f', hrun, hm₃, hf₃, hnum₃, hkeep⟩ := addRoundUp_makes dest hunrounded.digits hunrounded.fits
          (by rw [hself']; have := hg.two_le; omega) hscratch (by
            change (stored h₁ dest f m (h lhs).neg dest).mag + 1 < _
            rw [hunrounded.mag, hself']
            exact halve_lt hpos hl.mag_lt hg.need_le hg.two_le)
        change num c.base f' m' = (stored h₁ dest f m (h lhs).neg dest).mag + 1 at hnum₃
        rw [hunrounded.mag] at hnum₃
        unfold Prog.wp
        rw [hrun, hresult, hunrounded.neg]
        have hlast : stored h₃ dest f' m' (h lhs).neg dest = { h₃ dest with dig := f', len := m', neg := (h lhs).neg } := Function.update_self _ _ _
        refine ⟨?_, ?_, ?_, ?_, ?_, ?_, fun r e hr => ?_⟩
        · rw [hlast]
          exact hf₃
        · rw [hlast, hkeep dest hscratch]
          exact hm₃
        · rw [hlast]
        · rw [hlast, MpzT.mag]
          exact hnum₃
        · rw [hlast, hkeep dest hscratch]
          exact hunrounded.fixed
        · rw [hlast, hkeep dest hscratch]
          exact hunrounded.within
        · exact (Function.update_of_ne e _ _).trans ((hkeep r hr).trans (hunrounded.others r e hr))
      · rw [if_neg hup]
        have hresult : shiftedMag (decide (lhs = dest)) (h lhs).neg (h lhs).mag n = (h lhs).mag / 2 ^ n := by
          rw [shiftedMag, if_neg fun hand => hup (hb.mpr hand.2), Nat.add_zero]
        rw [hresult]
        exact hunrounded
    · rw [if_neg hneg]
      have hresult : shiftedMag (decide (lhs = dest)) (h lhs).neg (h lhs).mag n = (h lhs).mag / 2 ^ n := by
        rw [shiftedMag, if_neg fun hand => hneg hand.1, Nat.add_zero]
      rw [hresult]
      exact hunrounded

theorem ediv_signed (neg : Bool) (m n : Nat) : signed neg m / 2 ^ n = signed neg (shiftedMag false neg m n) := by
  cases neg with
  | false =>
    change (m : Int) / 2 ^ n = ((m / 2 ^ n + 0 : Nat) : Int)
    push_cast
    rw [Int.add_zero]
  | true =>
    refine (neg_ediv_pow m n).trans ?_
    simp [signed, shiftedMag, roundedFrom]

theorem mpzShrInpl_gives {x : Int} {n room : Nat} (hx : Holds (h lhs) x) (hne : lhs ≠ dest) (hfixed : (h dest).fixedDig = false)
    (hscratch : ¬ Scratch dest) (hd : (h dest).alloc ≤ room) (hroom : (h lhs).len + 2 ≤ room) :
    Gives (mpzShrInpl dest lhs n) h dest (x / 2 ^ n) room := by
  refine Prog.wp_mono (mpzShrInpl_leaves hx.normal hfixed hscratch hd hroom) (fun _ h' hs => ?_) fun _ _ he => he
  rw [decide_eq_false hne] at hs
  apply hs.stored
  · intro hzero
    by_contra hneg
    rw [Bool.not_eq_false] at hneg
    rw [hneg] at hzero
    exact shiftedMag_ne_zero (hx.normal.mag_ne_zero hneg) hzero
  · rw [← ediv_signed, ← MpzT.value, hx.value]

/-- The floor of `lhs / 2 ** n`, in a normal object: just when the shift is into another object, or
no bit is lost of a negative number, or one both of the number and of what is left of it. No digit
past an array is read or written, and other objects stay. -/
theorem mpz_shr_floor_iff {n : Nat} (hl : (h lhs).Normal) (hfixed : (h dest).fixedDig = false) (hscratch : ¬ Scratch dest) :
    Prog.wp (mpzShrInpl dest lhs n)
      (fun _ h' => (Holds (h' dest) ((h lhs).value / 2 ^ n) ↔ lhs ≠ dest ∨ 0 ≤ (h lhs).value ∨
          ((h lhs).mag / 2 ^ n % 2 ^ n = 0 ↔ (h lhs).mag % 2 ^ n = 0)) ∧ ∀ r, r ≠ dest → ¬ Scratch r → h' r = h r)
      (fun e _ => Refused c ((h dest).alloc + (h lhs).len + 2) e) h := by
  refine Prog.wp_mono (mpzShrInpl_leaves hl hfixed hscratch (by omega) (by omega)) (fun _ h' hs => ⟨?_, hs.others⟩) fun _ _ he => he
  have hx : Holds (h lhs) (h lhs).value := ⟨hl, rfl⟩
  have hmag := hx.mag
  constructor
  · intro hgives
    by_contra hno
    obtain ⟨hshared, hnegative, hlost⟩ : lhs = dest ∧ (h lhs).value < 0 ∧
        ¬ ((h lhs).mag / 2 ^ n % 2 ^ n = 0 ↔ (h lhs).mag % 2 ^ n = 0) := by
      simpa only [not_or, not_not, not_le] using hno
    have hneg : (h lhs).neg = true := hx.neg_eq.trans (decide_eq_true hnegative)
    -- both are under the sign, and one of them is rounded
    have hvalue := hgives.value
    rw [MpzT.value, hs.neg, hs.mag, ← show signed (h lhs).neg (h lhs).mag = (h lhs).value from rfl, ediv_signed, hneg] at hvalue
    have hsame := signed_inj hvalue
    rw [decide_eq_true hshared] at hsame
    simp only [shiftedMag, roundedFrom, true_and, if_true, Bool.false_eq_true, if_false] at hsame
    split at hsame <;> split at hsame <;> omega
  · intro hcond
    have hsame : shiftedMag (decide (lhs = dest)) (h lhs).neg (h lhs).mag n = shiftedMag false (h lhs).neg (h lhs).mag n := by
      rcases hcond with hne | hpos | hlost
      · rw [decide_eq_false hne]
      · rw [hx.neg_eq, decide_eq_false (Int.not_lt.mpr hpos)]
        simp [shiftedMag]
      · simp only [shiftedMag, roundedFrom]
        split <;> simp [hlost]
    rw [hsame] at hs
    refine (hs.stored (fun hzero => ?_) (ediv_signed _ _ _).symm).holds
    by_contra hneg
    rw [Bool.not_eq_false] at hneg
    rw [hneg] at hzero
    exact shiftedMag_ne_zero (hl.mag_ne_zero hneg) hzero

theorem mpz_shr_floor_iff_apart :
    Prog.wp (mpzShrInpl (.obj false) (.obj true) 1)
      (fun _ h' => (Holds (h' (.obj false)) ((twoObjects (.obj true)).value / 2 ^ 1) ↔ (.obj true : Ref Bool) ≠ .obj false ∨
          0 ≤ (twoObjects (.obj true)).value ∨
          ((twoObjects (.obj true)).mag / 2 ^ 1 % 2 ^ 1 = 0 ↔ (twoObjects (.obj true)).mag % 2 ^ 1 = 0)) ∧
        ∀ r, r ≠ .obj false → ¬ Scratch r → h' r = twoObjects r)
      (fun e _ => Refused sh4 ((twoObjects (.obj false)).alloc + (twoObjects (.obj true)).len + 2) e) twoObjects :=
  mpz_shr_floor_iff (twoObjects_normal true) rfl (fun e => by cases e <;> contradiction)

/-- `-(2 ** 16 + 1) >> 1` in place is `-2 ** 15`. -/
theorem mpz_shr_shared : ∃ h', mpzShrInpl (.obj true) (.obj true) 1 twoObjects = (.ok (), h') ∧ (h' (.obj true)).value = -32768 ∧
    (twoObjects (.obj true)).value / 2 ^ 1 = -32769 :=
  ⟨_, rfl, by decide, by decide⟩

/-! ## Comparison -/

omit [DecidableEq ι] in
theorem look_bind {α β : Type} {f : MpzT c → α} {k : α → M c ι β} : (look z f >>= k) h = k (f (h z)) h := rfl

omit [DecidableEq ι] in
theorem mpzCmp_spec {x y : Int} (hx : Holds (h lhs) x) (hy : Holds (h rhs) y) :
    ∃ s, mpzCmp lhs rhs h = (.ok s, h) ∧ (s < 0 ↔ x < y) ∧ (0 < s ↔ y < x) := by
  obtain ⟨s, hrun, hs⟩ := mpnCmp_spec hx.normal.fits hy.normal.fits hx.normal.digits hy.normal.digits
  have hxm : (h lhs).mag = x.natAbs := hx.mag
  have hym : (h rhs).mag = y.natAbs := hy.mag
  change IsCmp s (h lhs).mag (h rhs).mag at hs
  have hxv := hx.value
  have hyv := hy.value
  have hpos : ∀ {r : Ref ι} {v : Int}, Holds (h r) v → (h r).neg = true → v < 0 := by
    intro r v hv hneg
    have hlen : (h r).len ≠ 0 := fun hz => Bool.false_ne_true ((hv.normal.zero hz).symm.trans hneg)
    have hmag : (h r).mag ≠ 0 := mt (hv.normal.digits.num_eq_zero c.base_pos).mp hlen
    rw [← hv.value, MpzT.value, hneg]
    show -((h r).mag : Int) < 0
    omega
  have hnonneg : ∀ {r : Ref ι} {v : Int}, Holds (h r) v → (h r).neg = false → 0 ≤ v := by
    intro r v hv hneg
    rw [← hv.value, MpzT.value, hneg]
    exact Int.natCast_nonneg _
  have hlast : ∀ b, (h lhs).neg = b → (h rhs).neg = b → mpzCmp lhs rhs h = (.ok (if b then -s else s), h) := by
    intro b hl hr
    rw [mpzCmp, look_bind, look_bind, hl, hr, if_neg (by omega), look_bind, look_bind, Prog.bind_of_ok hrun, look_bind, hl]
    cases b <;> rfl
  have hdiffer : ∀ b, (h lhs).neg = !b → (h rhs).neg = b → mpzCmp lhs rhs h = (.ok (b.toNat - (!b).toNat), h) := by
    intro b hl hr
    rw [mpzCmp, look_bind, look_bind, hl, hr, if_pos (by cases b <;> decide)]
    rfl
  cases hl : (h lhs).neg with
  | false =>
    have hx0 := hnonneg hx hl
    cases hr : (h rhs).neg with
    | false =>
      have hy0 := hnonneg hy hr
      refine ⟨s, hlast false hl hr, ?_⟩
      rw [hs.1, hs.2]
      omega
    | true =>
      have hy0 := hpos hy hr
      exact ⟨1, hdiffer true hl hr, by omega, by omega⟩
  | true =>
    have hx0 := hpos hx hl
    cases hr : (h rhs).neg with
    | false =>
      have hy0 := hnonneg hy hr
      exact ⟨-1, by rw [hdiffer false hl hr]; rfl, by omega, by omega⟩
    | true =>
      have hy0 := hpos hy hr
      refine ⟨-s, hlast true hl hr, ?_⟩
      have h1 := hs.1
      have h2 := hs.2
      omega

/-! ## Machine integers -/

theorem next_over {val k d : Nat} (hk : c.digSize ≤ k) (hval : val > 2 ^ (k - c.digSize) - 1) : 2 ^ k ≤ val * c.base + d := by
  have hsplit : 2 ^ k = 2 ^ (k - c.digSize) * c.base := by
    rw [Config.base, ← Nat.pow_add, Nat.sub_add_cancel hk]
  have hle := Nat.mul_le_mul_right c.base (show 2 ^ (k - c.digSize) ≤ val by omega)
  omega

theorem next_fits {val k d : Nat} (hk : c.digSize ≤ k) (hkw : k ≤ c.wordBits) (hd : d < c.base) (hval : ¬ val > 2 ^ (k - c.digSize) - 1) :
    c.word (val <<< c.digSize) ||| d = val * c.base + d ∧ val * c.base + d < 2 ^ k := by
  have hpos := Nat.two_pow_pos (k - c.digSize)
  have hsplit : 2 ^ k = 2 ^ (k - c.digSize) * c.base := by
    rw [Config.base, ← Nat.pow_add, Nat.sub_add_cancel hk]
  have hword : 2 ^ k ≤ 2 ^ c.wordBits := Nat.pow_le_pow_right (by decide) hkw
  have hle := Nat.mul_le_mul_right c.base (show val + 1 ≤ 2 ^ (k - c.digSize) by omega)
  rw [← hsplit, Nat.succ_mul] at hle
  constructor
  · rw [Config.word, Nat.mod_eq_of_lt (by rw [Nat.shiftLeft_eq]; change val * c.base < _; omega), shl_or hd, Nat.add_comm]
    rfl
  · omega

omit [DecidableEq ι] in
/-- The digits from the highest down, in a loop that stops where the next one would not fit in `k` bits. -/
theorem checkedLoop_spec {loop : Nat → Nat → M c ι (Option Nat)} {k : Nat} (hk : c.digSize ≤ k) (hkw : k ≤ c.wordBits)
    (hzero : ∀ val, loop 0 val = pure (some val))
    (hsucc : ∀ n val, loop (n + 1) val =
      if val > 2 ^ (k - c.digSize) - 1 then pure none else do loop n (c.word (val <<< c.digSize) ||| (← readDig z n)))
    {n : Nat} (val : Nat) (hn : n ≤ (h z).alloc) (hbelow : ∀ q < n, (h z).dig q < c.base) (hval : val < 2 ^ k) :
    loop n val h = (.ok (if val * c.base ^ n + num c.base (h z).dig n < 2 ^ k
      then some (val * c.base ^ n + num c.base (h z).dig n) else none), h) := by
  induction n generalizing val with
  | zero =>
    rw [num_zero, Nat.pow_zero, Nat.mul_one, Nat.add_zero, if_pos hval, hzero]
    rfl
  | succ n ih =>
    have hread : readDig z n h = (.ok ((h z).dig n), h) := readDig_of_lt (by omega)
    have hdig := hbelow n (Nat.lt_succ_self n)
    have hnext : val * c.base ^ (n + 1) + num c.base (h z).dig (n + 1) = (val * c.base + (h z).dig n) * c.base ^ n + num c.base (h z).dig n := by
      rw [num_succ]
      ring
    rw [hsucc, hnext]
    by_cases hover : val > 2 ^ (k - c.digSize) - 1
    · -- the next digit would not fit, so neither do all of them
      have hle := next_over (d := (h z).dig n) hk hover
      have hmul : val * c.base + (h z).dig n ≤ (val * c.base + (h z).dig n) * c.base ^ n := Nat.le_mul_of_pos_right _ (Nat.pow_pos c.base_pos)
      rw [if_pos hover, if_neg (by omega)]
      rfl
    · obtain ⟨hval', hfit⟩ := next_fits hk hkw hdig hover
      rw [if_neg hover, Prog.bind_of_ok hread, hval']
      exact ih _ (by omega) (fun q hq => hbelow q (by omega)) hfit

omit [DecidableEq ι] in
theorem asIntLoop_spec {n : Nat} (val : Nat) (hn : n ≤ (h z).alloc) (hbelow : ∀ q < n, (h z).dig q < c.base) (hval : val < 2 ^ (c.wordBits - 1)) :
    asIntLoop z n val h = (.ok (if val * c.base ^ n + num c.base (h z).dig n < 2 ^ (c.wordBits - 1)
      then some (val * c.base ^ n + num c.base (h z).dig n) else none), h) := by
  have hw := c.digSize_lt_wordBits
  have hsplit : 2 ^ (c.wordBits - 1) = 2 ^ (c.wordBits - 1 - c.digSize) * c.base := by
    rw [Config.base, ← Nat.pow_add, Nat.sub_add_cancel (by omega)]
  have hlimit : (2 ^ (c.wordBits - 1) - 1) >>> c.digSize = 2 ^ (c.wordBits - 1 - c.digSize) - 1 := by
    rw [Config.shiftRight_digSize, hsplit, Nat.mul_comm, Nat.mul_sub_div 0 c.base _ (Nat.mul_pos c.base_pos (Nat.two_pow_pos _)), Nat.zero_div]
  exact checkedLoop_spec (by omega) (Nat.sub_le _ _) (fun _ => rfl) (fun n val => by rw [asIntLoop, hlimit]) val hn hbelow hval

omit [DecidableEq ι] in
/-- The value, where it is a machine integer other than the least one. -/
theorem mpzAsIntChecked_spec {x : Int} (hx : Holds (h z) x) :
    mpzAsIntChecked z h = (.ok (if x.natAbs < 2 ^ (c.wordBits - 1) then some x else none), h) := by
  have hloop := asIntLoop_spec 0 hx.normal.fits hx.normal.digits.below (Nat.two_pow_pos _)
  rw [Nat.zero_mul, Nat.zero_add, ← MpzT.mag] at hloop
  rw [mpzAsIntChecked, look_bind, Prog.bind_of_ok hloop, ← hx.mag]
  by_cases hlt : (h z).mag < 2 ^ (c.wordBits - 1)
  · have hpow : 2 ^ c.wordBits = 2 * 2 ^ (c.wordBits - 1) := by
      rw [← Nat.pow_succ', Nat.succ_eq_add_one, Nat.sub_add_cancel (by have := c.digSize_lt_wordBits; omega)]
    rw [if_pos hlt, if_pos hlt]
    show (if (h z).neg then pure (some (c.sword (-((h z).mag : Int)))) else pure (some (c.sword (h z).mag)) : M c ι (Option Int)) h = _
    have hv : signed (h z).neg (h z).mag = x := hx.value
    cases hneg : (h z).neg with
    | false =>
      rw [hneg] at hv
      change ((h z).mag : Int) = x at hv
      rw [if_neg Bool.false_ne_true, Config.sword, Int.bmod_eq_of_le (by omega) (by omega), hv]
      rfl
    | true =>
      rw [hneg] at hv
      change -((h z).mag : Int) = x at hv
      rw [if_pos rfl, Config.sword, Int.bmod_eq_of_le (by omega) (by omega), hv]
      rfl
  · rw [if_neg hlt, if_neg hlt]
    rfl

omit [DecidableEq ι] in
theorem hashLoop_spec {n v : Nat} (hn : n ≤ (h z).alloc) (hbelow : ∀ q < n, (h z).dig q < c.base) :
    hashLoop z n (v % 2 ^ c.wordBits) h = (.ok ((v * c.base ^ n + num c.base (h z).dig n) % 2 ^ c.wordBits), h) := by
  have hsplit : 2 ^ c.wordBits = c.base * 2 ^ (c.wordBits - c.digSize) := by
    rw [Config.base, ← Nat.pow_add, Nat.add_sub_cancel' (Nat.le_of_lt c.digSize_lt_wordBits)]
  induction n generalizing v with
  | zero =>
    rw [num_zero, Nat.pow_zero, Nat.mul_one, Nat.add_zero]
    rfl
  | succ n ih =>
    have hread : readDig z n h = (.ok ((h z).dig n), h) := readDig_of_lt (by omega)
    have hdig := hbelow n (Nat.lt_succ_self n)
    have hval : c.word ((v % 2 ^ c.wordBits) <<< c.digSize) ||| (h z).dig n = (v * c.base + (h z).dig n) % 2 ^ c.wordBits := by
      have hlow : (v * c.base + (h z).dig n) % c.base = (h z).dig n := by
        rw [Nat.add_comm, Nat.add_mul_mod_self_right, Nat.mod_eq_of_lt hdig]
      have hhigh : (v * c.base + (h z).dig n) / c.base = v := by
        rw [Nat.add_comm, Nat.add_mul_div_right _ _ c.base_pos, Nat.div_eq_of_lt hdig, Nat.zero_add]
      rw [Config.word, Nat.shiftLeft_eq]
      change v % 2 ^ c.wordBits * c.base % 2 ^ c.wordBits ||| _ = _
      rw [Nat.mod_mul_mod, hsplit, Nat.mul_comm v, Nat.mul_mod_mul_left, or_digit hdig, Nat.mul_comm c.base v, Nat.mod_mul, hlow, hhigh,
        Nat.add_comm]
    have hnext : v * c.base ^ (n + 1) + num c.base (h z).dig (n + 1) = (v * c.base + (h z).dig n) * c.base ^ n + num c.base (h z).dig n := by
      rw [num_succ]
      ring
    rw [hashLoop, Prog.bind_of_ok hread, hval, hnext]
    exact ih (by omega) fun q hq => hbelow q (by omega)

omit [DecidableEq ι] in
theorem mpzHash_spec {x : Int} (hx : Holds (h z) x) : mpzHash z h = (.ok (c.sword x), h) := by
  have hloop := hashLoop_spec (v := 0) hx.normal.fits hx.normal.digits.below
  rw [Nat.zero_mod, Nat.zero_mul, Nat.zero_add, ← MpzT.mag] at hloop
  have hv : signed (h z).neg (h z).mag = x := hx.value
  have hcast : (((h z).mag % 2 ^ c.wordBits : Nat) : Int) = ((h z).mag : Int) % (2 ^ c.wordBits : Nat) := Int.natCast_mod _ _
  rw [mpzHash, look_bind, Prog.bind_of_ok hloop, look_bind, hcast]
  cases hneg : (h z).neg with
  | false =>
    rw [hneg] at hv
    change ((h z).mag : Int) = x at hv
    rw [if_neg Bool.false_ne_true, Config.sword, Config.sword, hv, Int.emod_bmod]
    rfl
  | true =>
    rw [hneg] at hv
    change -((h z).mag : Int) = x at hv
    rw [if_pos rfl, Config.sword, Config.sword, ← hv, ← Int.bmod_neg_bmod (n := 2 ^ c.wordBits), Int.emod_bmod, Int.bmod_neg_bmod]
    rfl

theorem mpzSetFromLl_gives {val : Int} {room : Nat} (hval : val.natAbs < 2 ^ 64) (hfixed : (h dest).fixedDig = false)
    (hd : (h dest).alloc ≤ room) (hroom : c.numDigFor 64 + 2 ≤ room) : Gives (mpzSetFromLl dest val) h dest val room := by
  unfold Gives mpzSetFromLl
  refine Prog.wp_bind.mpr (wp_mpzNeedDig hfixed (by omega) (by omega) fun h' hg => ?_)
  refine setDigits_stored hg.fixed (hg.le hd (by omega) (by omega)) (fun r e _ => hg.others r e) ?_
  calc val.natAbs < 2 ^ 64 := hval
    _ ≤ c.base ^ c.numDigFor 64 := pow_le_numDigFor _
    _ ≤ c.base ^ (h' dest).alloc := Nat.pow_le_pow_right c.base_pos hg.need_le

/-- A machine integer in digits on the stack, which are enough. -/
theorem mpzInitFixedFromInt_gives {val : Int} (hval : val.natAbs < 2 ^ c.wordBits) :
    Prog.wp (mpzInitFixedFromInt z val) (fun _ h' => Stored (Function.update h z .fixed) h' z val (c.numDigFor c.wordBits))
      (fun e _ => Refused c (c.numDigFor c.wordBits) e) h := by
  unfold mpzInitFixedFromInt
  rw [wp_change_bind]
  have hself : Function.update h z (.fixed : MpzT c) z = .fixed := Function.update_self _ _ _
  have h2 : 2 ≤ c.numDigFor c.wordBits := by
    have hb := c.four_le_digSize
    have hw := c.digSize_lt_wordBits
    refine (Nat.le_div_iff_mul_le (by omega)).mpr ?_
    omega
  unfold mpzSetFromInt
  by_cases hzero : val = 0
  · rw [if_pos hzero, hzero]
    exact setZero_gives (by rw [hself]; exact Nat.le_refl _)
  · rw [if_neg hzero]
    have hneed : mpzNeedDig z (c.numDigFor c.wordBits) (Function.update h z .fixed) = (.ok (), Function.update h z .fixed) :=
      mpzNeedDig_of_le (by rw [hself]; exact Nat.le_refl _) (by rw [hself]; exact h2)
    rw [wp_ok_bind hneed]
    refine setDigits_stored rfl (by rw [hself]; exact Nat.le_refl _) (fun _ _ _ => rfl) ?_
    rw [hself]
    exact Nat.lt_of_lt_of_le hval (pow_le_numDigFor _)

/-! ## Powers -/

omit [DecidableEq ι] in
theorem Holds.neg_eq_false {z : MpzT c} {n : Nat} (hz : Holds z n) : z.neg = false := by
  by_contra hneg
  rw [Bool.not_eq_false] at hneg
  have hlen : z.len ≠ 0 := fun hzero => Bool.false_ne_true ((hz.normal.zero hzero).symm.trans hneg)
  have hmag : z.mag ≠ 0 := mt (hz.normal.digits.num_eq_zero c.base_pos).mp hlen
  have hv := hz.value
  rw [MpzT.value, hneg] at hv
  change -(z.mag : Int) = n at hv
  omega

/-- `mpz_pow_inpl` on its way: `dest` holds `acc`, and the clones `x` and `n`. -/
structure Powering (h₀ h : Heap c ι) (dest : Ref ι) (acc x : Int) (n : Nat) : Prop where
  acc : Holds (h dest) acc
  base : Holds (h (.temp .powX)) x
  exp : Holds (h (.temp .powN)) n
  fixed : (h dest).fixedDig = false
  fixedX : (h (.temp .powX)).fixedDig = false
  others : ∀ r, r ≠ dest → r ≠ .temp .powX → r ≠ .temp .powN → ¬ Scratch r → h r = h₀ r

/-- `dest` is none of the objects pow has of its own. -/
structure PowDest (dest : Ref ι) : Prop where
  scratch : ¬ Scratch dest
  ne_x : dest ≠ .temp .powX
  ne_n : dest ≠ .temp .powN

omit [DecidableEq ι] in
theorem not_scratch_powX : ¬ Scratch (.temp .powX : Ref ι) := by
  rintro (h | h) <;> cases h

omit [DecidableEq ι] in
theorem not_scratch_powN : ¬ Scratch (.temp .powN : Ref ι) := by
  rintro (h | h) <;> cases h

omit [DecidableEq ι] in
theorem powX_ne_powN : (.temp .powX : Ref ι) ≠ .temp .powN := by
  intro h
  cases h

theorem pow_halve (x : Int) (n : Nat) : x ^ n = x ^ (n % 2) * (x * x) ^ (n / 2) := by
  rw [← pow_two, ← pow_mul, ← pow_add, Nat.mod_add_div]

omit [DecidableEq ι] in
theorem Gives.memory [DecidableEq ι] {x : M c ι Unit} {v : Int} {room : Nat} (hx : Gives x h dest v room) :
    Prog.wp x (fun _ h' => Stored h h' dest v room) (fun e _ => e = .memory) h :=
  Prog.wp_mono hx (fun _ _ hs => hs) fun _ _ he => he.1

omit [DecidableEq ι] in
theorem Holds.len_ne_zero {z : MpzT c} {v : Int} (hz : Holds z v) (hv : v ≠ 0) : z.len ≠ 0 := by
  intro hlen
  have hmag := hz.mag
  rw [MpzT.mag, hlen, num_zero] at hmag
  exact hv (Int.natAbs_eq_zero.mp hmag.symm)

omit [DecidableEq ι] in
theorem low_bit {n : Nat} (hz : Holds (h z) n) (hn : n ≠ 0) : ∃ d, readDig z 0 h = (.ok d, h) ∧ d &&& 1 = n % 2 := by
  have hmag : (h z).mag = n := hz.mag
  have hlen : (h z).len ≠ 0 := hz.len_ne_zero (Int.natCast_ne_zero.mpr hn)
  have hfits := hz.normal.fits
  refine ⟨(h z).dig 0, readDig_of_lt (by omega), ?_⟩
  obtain ⟨l, hl⟩ := Nat.exists_eq_succ_of_ne_zero hlen
  have hdvd : 2 ∣ c.base := dvd_pow_self 2 (by have := c.four_le_digSize; omega)
  have hone := num_add (B := c.base) (h z).dig 1 l
  rw [Nat.pow_one, num_succ, num_zero, Nat.pow_zero, Nat.mul_one, Nat.zero_add, Nat.add_comm 1 l, ← Nat.succ_eq_add_one, ← hl, ← MpzT.mag, hmag] at hone
  rw [Nat.and_one_is_mod, hone, Nat.add_mod, Nat.mod_eq_zero_of_dvd (Dvd.dvd.mul_right hdvd _), Nat.add_zero, Nat.mod_mod]

/-- An exponent is halved in place. -/
theorem wp_halve {β : Type} {n : Nat} {k : M c ι β} {Q : β → Heap c ι → Prop} {R : Fault → Heap c ι → Prop} (hz : Holds (h z) n)
    (hk : ∀ h', Holds (h' z) (n / 2 : Nat) → (∀ r, r ≠ z → h' r = h r) → ((h' z).len = 0 ↔ n / 2 = 0) → Prog.wp k Q R h') :
    Prog.wp (do
      setLen z (← mpnShr z z (← look z MpzT.len) 1)
      k) Q R h := by
  rw [wp_look_bind]
  have hmag : num c.base (h z).dig (h z).len = n := hz.mag
  refine wp_makes (mpnShr_spec hz.normal.digits hz.normal.fits hz.normal.fits) fun m f hm hf hnum => ?_
  rw [hmag, Nat.pow_one] at hnum
  rw [wp_setLen_bind, putLen_withDig, hz.neg_eq_false]
  have hself : stored h z f m false z = { h z with dig := f, len := m, neg := false } := Function.update_self _ _ _
  apply hk
  · rw [hself]
    refine ⟨⟨hm, hf, fun _ => rfl⟩, ?_⟩
    show ((num c.base f m : Nat) : Int) = _
    rw [hnum]
  · intro r hr
    exact Function.update_of_ne hr _ _
  · rw [hself, ← hnum]
    exact (hf.num_eq_zero c.base_pos).symm

theorem powOdd_spec {h₀ : Heap c ι} {acc x : Int} {n : Nat} (hp : Powering h₀ h dest acc x n) (hd : PowDest dest) (hn : n ≠ 0) :
    Prog.wp (powOdd dest (.temp .powX) (.temp .powN)) (fun _ h' => Powering h₀ h' dest (acc * x ^ (n % 2)) x n) (fun e _ => e = .memory) h := by
  obtain ⟨d, hread, hodd⟩ := low_bit hp.exp hn
  rw [powOdd, wp_ok_bind hread, hodd]
  by_cases hone : n % 2 ≠ 0
  · have h1 : n % 2 = 1 := by omega
    rw [if_pos hone, h1, Int.pow_one]
    refine Prog.wp_mono (mpzMulInpl_gives hp.acc hp.base hp.fixed hd.scratch not_scratch_powX hd.scratch (Nat.le_add_right _ _)
      (Nat.le_add_left _ _)).memory (fun _ h' hs => ?_) fun _ _ he => he
    have hx' := hs.others _ hd.ne_x.symm not_scratch_powX
    have hn' := hs.others _ hd.ne_n.symm not_scratch_powN
    refine ⟨hs.holds, hx' ▸ hp.base, hn' ▸ hp.exp, hs.fixed.trans hp.fixed, hx' ▸ hp.fixedX, fun r h1 h2 h3 h4 => ?_⟩
    rw [hs.others r h1 h4]
    exact hp.others r h1 h2 h3 h4
  · rw [if_neg hone, not_not.mp hone, Int.pow_zero, Int.mul_one]
    exact hp

/-- One turn: the product `acc * x ** n` is kept. -/
theorem powTurn_spec {h₀ : Heap c ι} {acc x : Int} {n : Nat} (hp : Powering h₀ h dest acc x n) (hd : PowDest dest) (hn : n ≠ 0) :
    Prog.wp (powTurn dest (.temp .powX) (.temp .powN))
      (fun more h' => if more then n / 2 ≠ 0 ∧ Powering h₀ h' dest (acc * x ^ (n % 2)) (x * x) (n / 2)
        else n / 2 = 0 ∧ Powering h₀ h' dest (acc * x ^ (n % 2)) x (n / 2)) (fun e _ => e = .memory) h := by
  have hlen : (h (.temp .powN)).len > 0 := Nat.pos_of_ne_zero (hp.exp.len_ne_zero (Int.natCast_ne_zero.mpr hn))
  unfold powTurn
  rw [wp_look_bind, if_pos hlen]
  refine Prog.wp_then (powOdd_spec hp hd hn) (fun _ h₁ hp₁ => ?_) fun _ _ he => he
  refine wp_halve hp₁.exp fun h₂ hexp hother hzero => ?_
  have hp₂ : Powering h₀ h₂ dest (acc * x ^ (n % 2)) x (n / 2) := by
    refine ⟨?_, ?_, hexp, ?_, ?_, fun r h1 h2 h3 h4 => ?_⟩
    · rw [hother dest hd.ne_n]
      exact hp₁.acc
    · rw [hother _ powX_ne_powN]
      exact hp₁.base
    · rw [hother dest hd.ne_n]
      exact hp₁.fixed
    · rw [hother _ powX_ne_powN]
      exact hp₁.fixedX
    · rw [hother r h3]
      exact hp₁.others r h1 h2 h3 h4
  rw [wp_look_bind]
  by_cases hend : (h₂ (.temp .powN)).len = 0
  · rw [if_pos hend]
    exact ⟨hzero.mp hend, hp₂⟩
  · rw [if_neg hend]
    refine Prog.wp_then (mpzMulInpl_gives hp₂.base hp₂.base hp₂.fixedX not_scratch_powX not_scratch_powX not_scratch_powX (Nat.le_add_right _ _)
      (Nat.le_add_left _ _)).memory (fun _ h₃ hs => ?_) fun _ _ he => he
    have hd' := hs.others dest hd.ne_x hd.scratch
    have hn' := hs.others _ powX_ne_powN.symm not_scratch_powN
    refine ⟨mt hzero.mpr hend, hd' ▸ hp₂.acc, hs.holds, hn' ▸ hp₂.exp, hd' ▸ hp₂.fixed, hs.fixed.trans hp₂.fixedX, fun r h1 h2 h3 h4 => ?_⟩
    rw [hs.others r h2 h4]
    exact hp₂.others r h1 h2 h3 h4

theorem powLoop_spec {h₀ : Heap c ι} {acc x : Int} {n turns : Nat} (hp : Powering h₀ h dest acc x n) (hd : PowDest dest) (hn : n ≠ 0)
    (hturns : n < 2 ^ turns) :
    Prog.wp (powLoop dest (.temp .powX) (.temp .powN) turns) (fun _ h' => ∃ y m, Powering h₀ h' dest (acc * x ^ n) y m) (fun e _ => e = .memory) h := by
  induction turns generalizing h acc x n with
  | zero =>
    rw [Nat.pow_zero] at hturns
    omega
  | succ turns ih =>
    unfold powLoop Prog.loop
    rw [Prog.wp_bind, Prog.wp_bind]
    refine Prog.wp_mono (powTurn_spec hp hd hn) (fun more h' hq => ?_) fun _ _ he => he
    rw [Prog.wp_pure]
    have hhalf := pow_halve x n
    cases more with
    | true =>
      obtain ⟨hne, hp'⟩ := hq
      rw [hhalf, ← Int.mul_assoc]
      refine ih hp' hne ?_
      rw [Nat.pow_succ] at hturns
      omega
    | false =>
      obtain ⟨hz, hp'⟩ := hq
      rw [hhalf, hz, Int.pow_zero, Int.mul_one]
      exact ⟨x, _, hp'⟩

/-- What is left to say when a function used objects of its own. -/
structure Computed (h h' : Heap c ι) (dest : Ref ι) (v : Int) : Prop where
  holds : Holds (h' dest) v
  objects : ∀ i, .obj i ≠ dest → h' (.obj i) = h (.obj i)

omit [DecidableEq ι] in
theorem not_scratch_obj (i : ι) : ¬ Scratch (.obj i) := by
  rintro (h | h) <;> cases h

omit [DecidableEq ι] in
theorem Stored.computed {v : Int} {room : Nat} (hs : Stored h h' dest v room) : Computed h h' dest v :=
  ⟨hs.holds, fun i hne => hs.others _ hne (not_scratch_obj i)⟩

omit [DecidableEq ι] in
theorem Powering.computed {acc x : Int} {n : Nat} (hp : Powering h h' dest acc x n) : Computed h h' dest acc :=
  ⟨hp.acc, fun i hne => hp.others _ hne (fun e => nomatch e) (fun e => nomatch e) (not_scratch_obj i)⟩

theorem Gives.computed {x : M c ι Unit} {v : Int} {room : Nat} (hx : Gives x h dest v room) :
    Prog.wp x (fun _ h' => Computed h h' dest v) (fun e _ => e = .memory) h :=
  Prog.wp_mono hx.memory (fun _ _ hs => hs.computed) fun _ _ he => he

variable (dest) in
theorem mpzSetFromInt_small {k : Int} (hk : k.natAbs ≤ 1) (hfixed : (h dest).fixedDig = false) :
    ∃ room, Gives (mpzSetFromInt dest k) h dest k room := by
  have hword : 1 < 2 ^ c.wordBits := Nat.one_lt_two_pow (by have := c.digSize_lt_wordBits; omega)
  exact ⟨(h dest).alloc + (c.numDigFor c.wordBits + 2), mpzSetFromInt_gives (by omega) hfixed (Nat.le_add_right _ _) (Nat.le_add_left _ _)⟩

variable (dest) in
/-- The power, but for a base of zero: that gives zero whatever the exponent. -/
theorem mpzPowInpl_spec {x : Int} {n : Nat} (hx : Holds (h lhs) x) (hn : Holds (h rhs) n) (hfixed : (h dest).fixedDig = false)
    (hd : PowDest dest) (hr : rhs ≠ .temp .powX) :
    Prog.wp (mpzPowInpl dest lhs rhs) (fun _ h' => Computed h h' dest (if x = 0 then 0 else x ^ n)) (fun e _ => e = .memory) h := by
  have hmagx : (h lhs).mag = x.natAbs := hx.mag
  have hmagn : (h rhs).mag = n := hn.mag
  have hzerox : (h lhs).len = 0 ↔ x = 0 := by
    rw [← hx.normal.digits.num_eq_zero c.base_pos, ← MpzT.mag, hmagx, Int.natAbs_eq_zero]
  have hzeron : (h rhs).len = 0 ↔ n = 0 := by
    rw [← hn.normal.digits.num_eq_zero c.base_pos, ← MpzT.mag, hmagn]
  have hneg : (h rhs).neg = false := hn.neg_eq_false
  unfold mpzPowInpl
  rw [wp_look_bind, wp_look_bind, hneg]
  by_cases hx0 : x = 0
  · obtain ⟨room, hset⟩ := mpzSetFromInt_small _ (k := 0) (Nat.zero_le 1) hfixed
    rw [if_pos (.inl (hzerox.mpr hx0)), if_pos hx0]
    exact hset.computed
  · rw [if_neg (by simp [hzerox, hx0]), if_neg hx0, wp_look_bind]
    by_cases hn0 : n = 0
    · obtain ⟨room, hset⟩ := mpzSetFromInt_small _ (k := 1) (Nat.le_refl 1) hfixed
      rw [if_pos (hzeron.mpr hn0), hn0, Int.pow_zero]
      exact hset.computed
    · rw [if_neg (mt hzeron.mp hn0)]
      refine Prog.wp_then (mpzClone_gives hx (mt hzerox.mp hx0) (Nat.le_refl _)) (fun _ h₁ hq => ?_) fun _ _ he => he.1
      obtain ⟨rfl, hx₁⟩ := hq
      have hn₁ : h₁ rhs = h rhs := hx₁.others rhs hr
      refine Prog.wp_then (mpzClone_gives (z := rhs) (hn₁ ▸ hn) (by rw [hn₁]; exact mt hzeron.mp hn0) (Nat.le_refl _)) (fun _ h₂ hq => ?_)
        fun _ _ he => he.1
      obtain ⟨rfl, hn₂⟩ := hq
      have hd₂ : h₂ dest = h dest := (hn₂.others dest hd.ne_n).trans (hx₁.others dest hd.ne_x)
      have hx₂ : h₂ (.temp .powX) = h₁ (.temp .powX) := hn₂.others _ powX_ne_powN
      obtain ⟨room, hset⟩ := mpzSetFromInt_small dest (h := h₂) (k := 1) (Nat.le_refl 1) (hd₂ ▸ hfixed)
      refine Prog.wp_then hset.memory (fun _ h₃ hs => ?_) fun _ _ he => he
      have hx₃ := (hs.others _ hd.ne_x.symm not_scratch_powX).trans hx₂
      have hn₃ := hs.others _ hd.ne_n.symm not_scratch_powN
      have hp : Powering h h₃ dest 1 x n := by
        refine ⟨hs.holds, hx₃ ▸ hx₁.holds, hn₃ ▸ hn₂.holds, ?_, hx₃ ▸ hx₁.fixed, fun r h1 h2 h3 h4 => ?_⟩
        · rw [hs.fixed, hd₂]
          exact hfixed
        · rw [hs.others r h1 h4, hn₂.others r h3, hx₁.others r h2]
      have hbits : n < 2 ^ ((h₃ (.temp .powN)).len * c.digSize) := by
        have hlt := hp.exp.normal.mag_lt
        rw [hp.exp.mag, Config.base, ← Nat.pow_mul, Nat.mul_comm] at hlt
        exact hlt
      rw [wp_look_bind]
      refine Prog.wp_mono (powLoop_spec hp hd hn0 hbits) (fun _ h' hq => ?_) fun _ _ he => he
      obtain ⟨y, m, hp'⟩ := hq
      rw [Int.one_mul] at hp'
      exact hp'.computed

end PythonUltra.Py.Mpz
