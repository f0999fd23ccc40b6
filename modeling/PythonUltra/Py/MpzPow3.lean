/-
  PythonUltra.Py.MpzPow3 — powers to a modulus (mpz_pow3_inpl), and where those of mpz.c are
  Python's.

  The loop is that of mpz_pow_inpl with a division after each product, into the place of the
  dividend: the accumulator and the base stay what they were, modulo `mod` (`pow3Turn_spec`).
  The early exits come before it, and `dest` is 1 before the operands are read: what that
  does to a zero base, a zero exponent and shared places is `pow3Value`.
-/

import PythonUltra.Py.MpzPow
import Mathlib.Data.Int.ModEq

namespace PythonUltra.Py.Mpz

open PythonUltra.Lib PythonUltra.Lib.Digits

variable {ι : Type} [DecidableEq ι] {c : Config} {h h' : Heap c ι}

/-! ## mpz_pow3_inpl -/

def pow3Odd (dest x n quo mod : Ref ι) : M c ι Unit := do
  if (← readDig n 0) &&& 1 ≠ 0 then
    mpzMulInpl dest dest x
    mpzDivmodInpl quo dest dest mod

/-- A turn of the loop: `true` to go on. -/
def pow3Turn (dest x n quo mod : Ref ι) : M c ι Bool := do
  if (← look n MpzT.len) > 0 then
    pow3Odd dest x n quo mod
    setLen n (← mpnShr n n (← look n MpzT.len) 1)
    if (← look n MpzT.len) = 0 then pure false
    else
      mpzMulInpl x x x
      mpzDivmodInpl quo x x mod
      pure true
  else pure false

/-- The loop, for no more turns than the exponent has bits. -/
def pow3Loop (dest x n quo mod : Ref ι) (turns : Nat) : M c ι Unit :=
  Prog.loop .stuck (fun _ => do pure (if ← pow3Turn dest x n quo mod then .inl () else .inr ())) turns ()

/-- `mod->len == 1 && mod->dig[0] == 1` -/
def isUnit (mod : Ref ι) : M c ι Bool := do
  if (← look mod MpzT.len) = 1 then pure (decide ((← readDig mod 0) = 1)) else pure false

/-- The quotient is an object of the function's own. -/
def mpzPow3Inpl (dest lhs rhs mod : Ref ι) : M c ι Unit := do
  if (← look lhs MpzT.len) = 0 ∨ (← look rhs MpzT.neg) ∨ (← isUnit mod) then mpzSetFromInt dest 0
  else
    mpzSetFromInt dest 1
    if (← look rhs MpzT.len) = 0 then pure ()
    else
      let x ← mpzClone .powX lhs
      let n ← mpzClone .powN rhs
      change (.temp .quo) fun _ => initZero
      pow3Loop dest x n (.temp .quo) mod ((← look n MpzT.len) * c.digSize)

/-! ## The loop -/

theorem fmod_eq_of_modEq {m a b : Int} (h : a ≡ b [ZMOD m]) : a.fmod m = b.fmod m := by
  have hdvd : m ∣ a ↔ m ∣ b := by
    rw [← Int.modEq_zero_iff_dvd, ← Int.modEq_zero_iff_dvd]
    exact ⟨fun ha => h.symm.trans ha, fun hb => h.trans hb⟩
  rw [Int.fmod_eq_emod, Int.fmod_eq_emod, h.eq]
  simp only [hdvd]

theorem modEq_of_fmod_eq {m a b : Int} (h : a.fmod m = b.fmod m) : a ≡ b [ZMOD m] := by
  have hself : ∀ a : Int, a.fmod m ≡ a [ZMOD m] := by
    intro a
    refine (Int.modEq_iff_dvd.mpr ⟨a.fdiv m, ?_⟩)
    have := Int.mul_fdiv_add_fmod a m
    linarith
  exact (hself a).symm.trans (h ▸ hself b)

theorem fmod_modEq (a m : Int) : a.fmod m ≡ a [ZMOD m] := modEq_of_fmod_eq (by rw [Int.fmod_fmod])

omit [DecidableEq ι] in
theorem quo_apart : Apart (.temp .quo : Ref ι) := by
  refine ⟨?_, by simp⟩
  intro h
  rcases h with h | h <;> cases h

omit [DecidableEq ι] in
theorem powX_apart : Apart (.temp .powX : Ref ι) := ⟨not_scratch_powX, by simp⟩

omit [DecidableEq ι] in
theorem powN_apart : Apart (.temp .powN : Ref ι) := ⟨not_scratch_powN, by simp⟩

omit [DecidableEq ι] in
theorem obj_apart (i : ι) : Apart (.obj i : Ref ι) := ⟨not_scratch_obj i, by simp⟩

/-- A product in place, reduced. -/
structure Reduced (h h' : Heap c ι) (z : Ref ι) (v : Int) : Prop where
  holds : Holds (h' z) v
  fixed : (h' z).fixedDig = false
  fixedQuo : (h' (.temp .quo)).fixedDig = false
  others : ∀ r, r ≠ z → r ≠ .temp .quo → Apart r → h' r = h r

theorem wp_mulMod {z y : Ref ι} {k : ι} {v w m : Int} (hv : Holds (h z) v) (hw : Holds (h y) w) (hm : Holds (h (.obj k)) m) (hm0 : m ≠ 0)
    (hz : Apart z) (hy : Apart y) (hzq : z ≠ .temp .quo) (hzk : .obj k ≠ z) (hfixed : (h z).fixedDig = false)
    (hquo : (h (.temp .quo)).fixedDig = false) :
    Prog.wp (do
      mpzMulInpl z z y
      mpzDivmodInpl (.temp .quo) z z (.obj k)) (fun _ h' => Reduced h h' z ((v * w).fmod m)) (fun e _ => e = .memory) h := by
  refine Prog.wp_then (mpzMulInpl_gives hv hw hfixed hz.1 hy.1 hz.1 (Nat.le_add_right _ _) (Nat.le_add_left _ _)).memory
    (fun _ h₁ hs => ?_) fun _ _ he => he
  have hm₁ : h₁ (.obj k) = h (.obj k) := hs.others _ hzk (not_scratch_obj k)
  have hq₁ : h₁ (.temp .quo) = h (.temp .quo) := hs.others _ hzq.symm quo_apart.1
  have hroom : (h₁ z).len + (h₁ (.obj k)).len + c.numDigFor c.wordBits + 3 ≤
      (h₁ (.temp .quo)).alloc + (h₁ z).alloc + (h₁ z).len + (h₁ (.obj k)).len + c.numDigFor c.wordBits + 3 := by omega
  refine Prog.wp_mono (mpzDivmodInpl_leaves hs.holds (hm₁ ▸ hm) hm0 hzq.symm hzq (by simp) hzk (obj_apart k) quo_apart hz
      ⟨by rw [hq₁, hquo], hs.fixed.trans hfixed⟩ ⟨by omega, by omega⟩ hroom) (fun _ h₂ hdiv => ?_) fun _ _ he => he.1
  obtain ⟨q, hdiv, -⟩ := hdiv
  refine ⟨hdiv.remainder, ?_, ?_, fun r h1 h2 h3 => ?_⟩
  · rw [hdiv.fixed.2, hs.fixed, hfixed]
  · rw [hdiv.fixed.1, hq₁, hquo]
  · rw [hdiv.others r h2 h1 h3.1 h3.2, hs.others r h1 h3.1]

/-- `mpz_pow3_inpl` on its way. -/
structure Reducing (h₀ h : Heap c ι) (d k : ι) (acc x : Int) (n : Nat) (m : Int) : Prop where
  acc : Holds (h (.obj d)) acc
  base : Holds (h (.temp .powX)) x
  exp : Holds (h (.temp .powN)) n
  mod : Holds (h (.obj k)) m
  fixed : (h (.obj d)).fixedDig = false
  fixedX : (h (.temp .powX)).fixedDig = false
  fixedQuo : (h (.temp .quo)).fixedDig = false
  others : ∀ i, i ≠ d → h (.obj i) = h₀ (.obj i)

section
variable {h₀ : Heap c ι} {d k : ι} {acc x m : Int} {n : Nat} (hdk : k ≠ d) (hm0 : m ≠ 0)
include hdk hm0

theorem pow3Odd_spec (hp : Reducing h₀ h d k acc x n m) (hn : n ≠ 0) :
    Prog.wp (pow3Odd (.obj d) (.temp .powX) (.temp .powN) (.temp .quo) (.obj k))
      (fun _ h' => Reducing h₀ h' d k (if n % 2 = 0 then acc else (acc * x).fmod m) x n m) (fun e _ => e = .memory) h := by
  obtain ⟨b, hread, hodd⟩ := low_bit hp.exp hn
  rw [pow3Odd, wp_ok_bind hread, hodd]
  by_cases hone : n % 2 = 0
  · rw [if_neg (not_not.mpr hone), if_pos hone]
    exact hp
  · rw [if_pos hone, if_neg hone]
    refine Prog.wp_mono (wp_mulMod hp.acc hp.base hp.mod hm0 (obj_apart d) powX_apart (by simp) (by simpa using hdk) hp.fixed hp.fixedQuo)
      (fun _ h' hs => ?_) fun _ _ he => he
    have hx' := hs.others (.temp .powX) (by simp) (by simp) powX_apart
    have hn' := hs.others (.temp .powN) (by simp) (by simp) powN_apart
    have hobj : ∀ i, i ≠ d → h' (.obj i) = h (.obj i) := fun i hi => hs.others _ (by simpa using hi) (by simp) (obj_apart i)
    refine ⟨hs.holds, hx' ▸ hp.base, hn' ▸ hp.exp, hobj k hdk ▸ hp.mod, hs.fixed, hx' ▸ hp.fixedX, hs.fixedQuo, fun i hi => ?_⟩
    rw [hobj i hi, hp.others i hi]

/-- One turn: modulo `m` the product `acc * x ** n` is kept, and the last turn reduces it. -/
theorem pow3Turn_spec (hp : Reducing h₀ h d k acc x n m) (hn : n ≠ 0) :
    Prog.wp (pow3Turn (.obj d) (.temp .powX) (.temp .powN) (.temp .quo) (.obj k))
      (fun more h' => if more then n / 2 ≠ 0 ∧ ∃ acc' x', acc' * x' ^ (n / 2) ≡ acc * x ^ n [ZMOD m] ∧ Reducing h₀ h' d k acc' x' (n / 2) m
        else Reducing h₀ h' d k ((acc * x ^ n).fmod m) x 0 m) (fun e _ => e = .memory) h := by
  have hlen : (h (.temp .powN)).len > 0 := Nat.pos_of_ne_zero (hp.exp.len_ne_zero (Int.natCast_ne_zero.mpr hn))
  unfold pow3Turn
  rw [wp_look_bind, if_pos hlen]
  refine Prog.wp_then (pow3Odd_spec hdk hm0 hp hn) (fun _ h₁ hp₁ => ?_) fun _ _ he => he
  refine wp_halve hp₁.exp fun h₂ hexp hother hzero => ?_
  have hobj : ∀ i : ι, h₂ (.obj i) = h₁ (.obj i) := fun i => hother _ (by simp)
  have hx₂ := hother (.temp .powX) powX_ne_powN
  have hp₂ : Reducing h₀ h₂ d k (if n % 2 = 0 then acc else (acc * x).fmod m) x (n / 2) m :=
    ⟨hobj d ▸ hp₁.acc, hx₂ ▸ hp₁.base, hexp, hobj k ▸ hp₁.mod, hobj d ▸ hp₁.fixed, hx₂ ▸ hp₁.fixedX,
      hother (.temp .quo) (by simp) ▸ hp₁.fixedQuo, fun i hi => (hobj i).trans (hp₁.others i hi)⟩
  rw [wp_look_bind]
  by_cases hend : (h₂ (.temp .powN)).len = 0
  · have hn1 : n = 1 := by
      have := hzero.mp hend
      omega
    rw [if_pos hend]
    subst hn1
    rw [Int.pow_one]
    exact hp₂
  · rw [if_neg hend]
    have hmul := wp_mulMod hp₂.base hp₂.base hp₂.mod hm0 powX_apart powX_apart (by simp) (by simp) hp₂.fixedX hp₂.fixedQuo
    rw [Prog.wp_bind] at hmul ⊢
    refine Prog.wp_mono hmul (fun _ h₃ hdiv => ?_) fun _ _ he => he
    refine Prog.wp_then hdiv (fun _ h₃ hs => ?_) fun _ _ he => he
    have hn₃ := hs.others (.temp .powN) (by simp) (by simp) powN_apart
    have hobj₃ : ∀ i : ι, h₃ (.obj i) = h₂ (.obj i) := fun i => hs.others _ (by simp) (by simp) (obj_apart i)
    refine ⟨mt hzero.mpr hend, _, _, ?_, hobj₃ d ▸ hp₂.acc, hs.holds, hn₃ ▸ hp₂.exp, hobj₃ k ▸ hp₂.mod, hobj₃ d ▸ hp₂.fixed, hs.fixed,
      hs.fixedQuo, fun i hi => (hobj₃ i).trans (hp₂.others i hi)⟩
    have hacc : (if n % 2 = 0 then acc else (acc * x).fmod m) ≡ acc * x ^ (n % 2) [ZMOD m] := by
      split
      · rename_i heven
        rw [heven, Int.pow_zero, Int.mul_one]
      · have h1 : n % 2 = 1 := by omega
        rw [h1, Int.pow_one]
        exact fmod_modEq _ _
    rw [pow_halve x n, ← Int.mul_assoc]
    exact hacc.mul ((fmod_modEq _ _).pow _)

theorem pow3Loop_spec {turns : Nat} (hp : Reducing h₀ h d k acc x n m) (hn : n ≠ 0) (hturns : n < 2 ^ turns) :
    Prog.wp (pow3Loop (.obj d) (.temp .powX) (.temp .powN) (.temp .quo) (.obj k) turns)
      (fun _ h' => ∃ y, Reducing h₀ h' d k ((acc * x ^ n).fmod m) y 0 m) (fun e _ => e = .memory) h := by
  induction turns generalizing h acc x n with
  | zero =>
    rw [Nat.pow_zero] at hturns
    omega
  | succ turns ih =>
    unfold pow3Loop Prog.loop
    rw [Prog.wp_bind, Prog.wp_bind]
    refine Prog.wp_mono (pow3Turn_spec hdk hm0 hp hn) (fun more h' hq => ?_) fun _ _ he => he
    rw [Prog.wp_pure]
    cases more with
    | true =>
      obtain ⟨hne, acc', x', hmod, hp'⟩ := hq
      rw [← fmod_eq_of_modEq hmod]
      refine ih hp' hne ?_
      rw [Nat.pow_succ] at hturns
      omega
    | false => exact ⟨x, hq⟩

end

omit [DecidableEq ι] in
theorem Holds.len_eq_zero {z : MpzT c} {v : Int} (hz : Holds z v) : z.len = 0 ↔ v = 0 := by
  rw [← hz.normal.digits.num_eq_zero c.base_pos, ← MpzT.mag, hz.mag, Int.natAbs_eq_zero]

omit [DecidableEq ι] in
theorem isUnit_spec {z : Ref ι} {v : Int} (hz : Holds (h z) v) : isUnit z h = (.ok (decide (v.natAbs = 1)), h) := by
  have hmag : num c.base (h z).dig (h z).len = v.natAbs := hz.mag
  have hfits := hz.normal.fits
  have hone : v.natAbs = 1 → (h z).len = 1 := by
    intro h1
    have hle := hz.len_le (n := 1) (by rw [h1, Nat.pow_one]; exact c.one_lt_base)
    have hne := hz.len_ne_zero (by omega)
    omega
  rw [isUnit]
  show (if (h z).len = 1 then _ else _ : M c ι Bool) h = _
  by_cases hlen : (h z).len = 1
  · have hread : readDig z 0 h = (.ok ((h z).dig 0), h) := readDig_of_lt (by omega)
    rw [hlen, num_succ, num_zero, Nat.pow_zero, Nat.mul_one, Nat.zero_add] at hmag
    rw [if_pos hlen, Prog.bind_of_ok hread, hmag]
    rfl
  · rw [if_neg hlen, decide_eq_false (mt hone hlen)]
    rfl

/-- What `dest` is left with, from operands of which one may be at its place. -/
def pow3Value (x : Int) (n : Nat) (m : Int) (sharedX sharedN : Bool) : Int :=
  if x = 0 ∨ m.natAbs = 1 then 0
  else if n = 0 ∧ sharedN = false then 1
  else ((if sharedX then 1 else x) ^ (if sharedN then 1 else n)).fmod m

theorem mpzPow3Inpl_spec {d l r k : ι} {x m : Int} {n : Nat} (hx : Holds (h (.obj l)) x) (hn : Holds (h (.obj r)) n) (hm : Holds (h (.obj k)) m)
    (hm0 : m ≠ 0) (hdk : k ≠ d) (hfixed : (h (.obj d)).fixedDig = false) :
    Prog.wp (mpzPow3Inpl (.obj d) (.obj l) (.obj r) (.obj k))
      (fun _ h' => Computed h h' (.obj d) (pow3Value x n m (decide (l = d)) (decide (r = d)))) (fun e _ => e = .memory) h := by
  have hneg : (h (.obj r)).neg = false := hn.neg_eq_false
  have hunit := isUnit_spec hm
  unfold mpzPow3Inpl pow3Value
  rw [wp_look_bind, wp_look_bind, hneg, wp_ok_bind hunit]
  by_cases hout : x = 0 ∨ m.natAbs = 1
  · obtain ⟨room, hset⟩ := mpzSetFromInt_small (.obj d) (h := h) (k := 0) (Nat.zero_le 1) hfixed
    rw [if_pos hout, if_pos (by simpa [hx.len_eq_zero] using hout)]
    exact hset.computed
  · obtain ⟨room, hset⟩ := mpzSetFromInt_small (.obj d) (h := h) (k := 1) (Nat.le_refl 1) hfixed
    rw [if_neg hout, if_neg (by simpa [hx.len_eq_zero] using hout)]
    refine Prog.wp_then hset.memory (fun _ h₁ hs => ?_) fun _ _ he => he
    have hobj : ∀ i, i ≠ d → h₁ (.obj i) = h (.obj i) := fun i hi => hs.others _ (by simpa using hi) (not_scratch_obj i)
    have hx0 : x ≠ 0 := fun e => hout (.inl e)
    -- the operands as they are now
    have hx₁ : Holds (h₁ (.obj l)) (if decide (l = d) then 1 else x) := by
      by_cases hld : l = d
      · rw [decide_eq_true hld, hld]
        exact hs.holds
      · rw [decide_eq_false hld, hobj l hld]
        exact hx
    have hn₁ : Holds (h₁ (.obj r)) (if decide (r = d) then 1 else n : Nat) := by
      by_cases hrd : r = d
      · rw [decide_eq_true hrd, hrd]
        exact hs.holds
      · rw [decide_eq_false hrd, hobj r hrd]
        exact hn
    rw [wp_look_bind]
    by_cases hzero : n = 0 ∧ decide (r = d) = false
    · rw [if_pos hzero, if_pos (hn₁.len_eq_zero.mpr (by simp [hzero]))]
      exact hs.computed
    · have hn0 : (if decide (r = d) then 1 else n) ≠ 0 := by
        cases hrd : decide (r = d) with
        | true => exact Nat.one_ne_zero
        | false => exact fun e => hzero ⟨e, hrd⟩
      have hnlen := hn₁.len_ne_zero (Int.natCast_ne_zero.mpr hn0)
      have hxlen : (h₁ (.obj l)).len ≠ 0 := by
        apply hx₁.len_ne_zero
        split
        · exact Int.one_ne_zero
        · exact hx0
      rw [if_neg hzero, if_neg hnlen]
      refine Prog.wp_then (mpzClone_gives hx₁ hxlen (Nat.le_refl _)) (fun _ h₂ hq => ?_) fun _ _ he => he.1
      obtain ⟨rfl, hx₂⟩ := hq
      have hobj₂ : ∀ i : ι, h₂ (.obj i) = h₁ (.obj i) := fun i => hx₂.others _ (by simp)
      refine Prog.wp_then (mpzClone_gives (z := .obj r) (hobj₂ r ▸ hn₁) (by rw [hobj₂]; exact hnlen) (Nat.le_refl _)) (fun _ h₃ hq => ?_)
        fun _ _ he => he.1
      obtain ⟨rfl, hn₃⟩ := hq
      have hobj₃ : ∀ i : ι, h₃ (.obj i) = h₁ (.obj i) := fun i => (hn₃.others _ (by simp)).trans (hobj₂ i)
      have hx₃ := hn₃.others (.temp .powX) powX_ne_powN
      rw [wp_change_bind]
      have hkeep : ∀ r : Ref ι, r ≠ .temp .quo → Function.update h₃ (.temp .quo) (initZero : MpzT c) r = h₃ r := fun r hr =>
        Function.update_of_ne hr _ _
      have hp : Reducing h (Function.update h₃ (.temp .quo) initZero) d k 1 (if decide (l = d) then 1 else x) (if decide (r = d) then 1 else n) m := by
        refine ⟨?_, ?_, ?_, ?_, ?_, ?_, ?_, fun i hi => ?_⟩
        · rw [hkeep _ (by simp), hobj₃]
          exact hs.holds
        · rw [hkeep _ (by simp), hx₃]
          exact hx₂.holds
        · rw [hkeep _ (by simp)]
          exact hn₃.holds
        · rw [hkeep _ (by simp), hobj₃, hobj k hdk]
          exact hm
        · rw [hkeep _ (by simp), hobj₃, hs.fixed, hfixed]
        · rw [hkeep _ (by simp), hx₃]
          exact hx₂.fixed
        · rw [Function.update_self]
          rfl
        · rw [hkeep _ (by simp), hobj₃, hobj i hi]
      rw [wp_look_bind]
      have hbits := hp.exp.normal.mag_lt
      rw [hp.exp.mag, Config.base, ← Nat.pow_mul, Nat.mul_comm] at hbits
      refine Prog.wp_mono (pow3Loop_spec hdk hm0 hp hn0 hbits) (fun _ h' hq => ?_) fun _ _ he => he
      obtain ⟨y, hp'⟩ := hq
      rw [Int.one_mul] at hp'
      exact ⟨hp'.acc, fun i hi => hp'.others i (by simpa using hi)⟩

/-! ## Where the powers are Python's -/

/-- A base of zero takes the exit of zero and an exponent of zero that of 1, both before the
modulus; an operand at the place of the result is read as 1. -/
def Pow3Right (x : Int) (n : Nat) (m : Int) (sharedX sharedN : Bool) : Prop :=
  m.natAbs = 1 ∨ x = 0 ∧ n ≠ 0 ∨
    x ≠ 0 ∧ if n = 0 ∧ sharedN = false then 0 < m else if sharedX then m ∣ x ^ n - 1 else sharedN = true → m ∣ x ^ n - x

theorem fmod_unit {m : Int} (hm : m.natAbs = 1) (a : Int) : a.fmod m = 0 := by
  apply Int.fmod_eq_zero_of_dvd
  rw [← Int.natAbs_dvd, hm]
  exact one_dvd a

theorem fmod_one {m : Int} (hm : m.natAbs ≠ 1) : Int.fmod 1 m ≠ 0 := by
  intro hzero
  have hdvd := Int.dvd_of_fmod_eq_zero hzero
  exact hm (Int.natAbs_dvd_natAbs.mpr hdvd |> Nat.dvd_one.mp)

theorem fmod_one_eq {m : Int} (hm : m.natAbs ≠ 1) (hm0 : m ≠ 0) : 1 = Int.fmod 1 m ↔ 0 < m := by
  constructor
  · intro hone
    rcases fmod_spec (x := 1) hm0 with hzero | ⟨-, hsign⟩
    · exact absurd hzero (fmod_one hm)
    · rw [← hone, Int.sign_one] at hsign
      exact Int.sign_eq_one_iff_pos.mp hsign.symm
  · intro hpos
    exact (Int.fmod_eq_of_lt (by omega) (by omega)).symm

theorem fmod_eq_iff {m a b : Int} : a.fmod m = b.fmod m ↔ m ∣ b - a :=
  ⟨fun h => (modEq_of_fmod_eq h).dvd, fun h => fmod_eq_of_modEq (Int.modEq_iff_dvd.mpr h)⟩

theorem pow3Value_iff {x m : Int} {n : Nat} {sharedX sharedN : Bool} (hm0 : m ≠ 0) :
    pow3Value x n m sharedX sharedN = (x ^ n).fmod m ↔ Pow3Right x n m sharedX sharedN := by
  unfold pow3Value Pow3Right
  by_cases hunit : m.natAbs = 1
  · rw [if_pos (.inr hunit), fmod_unit hunit]
    exact iff_of_true rfl (.inl hunit)
  by_cases hx : x = 0
  · subst hx
    rw [if_pos (.inl rfl)]
    by_cases hn : n = 0
    · rw [hn, Int.pow_zero]
      simpa [hunit, eq_comm] using fmod_one hunit
    · rw [zero_pow hn, Int.zero_fmod]
      exact iff_of_true rfl (.inr (.inl ⟨rfl, hn⟩))
  rw [if_neg (by simp [hx, hunit])]
  simp only [hunit, hx, false_and, false_or, ne_eq, not_false_eq_true, true_and]
  by_cases hzero : n = 0 ∧ sharedN = false
  · rw [if_pos hzero, if_pos hzero, hzero.1, Int.pow_zero]
    exact fmod_one_eq hunit hm0
  · rw [if_neg hzero, if_neg hzero, fmod_eq_iff]
    cases sharedX with
    | true =>
      rw [if_pos rfl, if_pos rfl, one_pow]
    | false =>
      rw [if_neg Bool.false_ne_true, if_neg Bool.false_ne_true]
      cases sharedN with
      | true => simp
      | false => simp

omit [DecidableEq ι] in
theorem Holds.iff_eq {z : MpzT c} {v w : Int} (hz : Holds z v) : Holds z w ↔ v = w :=
  ⟨fun hw => hz.value.symm.trans hw.value, fun e => e ▸ hz⟩

/-- The power, but for `0 ** 0`; the power to a modulus, where neither the exits nor the shared places
are in its way. Objects other than the destination stay, and a refused array is the one other
outcome. -/
theorem mpz_pow_right_iff {d l r k : ι} {n : Nat} (hl : (h (.obj l)).Normal) (hr : (h (.obj r)).Normal) (hk : (h (.obj k)).Normal)
    (hn : (h (.obj r)).value = n) (hm0 : (h (.obj k)).value ≠ 0) (hdk : k ≠ d) (hfixed : (h (.obj d)).fixedDig = false) :
    Prog.wp (mpzPowInpl (.obj d) (.obj l) (.obj r))
      (fun _ h' => (Holds (h' (.obj d)) ((h (.obj l)).value ^ n) ↔ (h (.obj l)).value ≠ 0 ∨ n ≠ 0) ∧ ∀ i, i ≠ d → h' (.obj i) = h (.obj i))
      (fun e _ => e = .memory) h ∧
    Prog.wp (mpzPow3Inpl (.obj d) (.obj l) (.obj r) (.obj k))
      (fun _ h' => (Holds (h' (.obj d)) (((h (.obj l)).value ^ n).fmod (h (.obj k)).value) ↔
          Pow3Right (h (.obj l)).value n (h (.obj k)).value (decide (l = d)) (decide (r = d))) ∧ ∀ i, i ≠ d → h' (.obj i) = h (.obj i))
      (fun e _ => e = .memory) h := by
  have hx : Holds (h (.obj l)) (h (.obj l)).value := ⟨hl, rfl⟩
  have hexp : Holds (h (.obj r)) n := ⟨hr, hn⟩
  have hm : Holds (h (.obj k)) (h (.obj k)).value := ⟨hk, rfl⟩
  constructor
  · refine Prog.wp_mono (mpzPowInpl_spec (.obj d) hx hexp hfixed ⟨not_scratch_obj d, by simp, by simp⟩ (by simp)) (fun _ h' hc => ⟨?_, ?_⟩)
      fun _ _ he => he
    · rw [hc.holds.iff_eq]
      by_cases hx0 : (h (.obj l)).value = 0
      · rw [if_pos hx0, hx0]
        by_cases hn0 : n = 0
        · simp [hn0]
        · simp [hn0]
      · rw [if_neg hx0]
        exact iff_of_true rfl (.inl hx0)
    · intro i hi
      exact hc.objects i (by simpa using hi)
  · refine Prog.wp_mono (mpzPow3Inpl_spec hx hexp hm hm0 hdk hfixed) (fun _ h' hc => ⟨?_, ?_⟩) fun _ _ he => he
    · rw [hc.holds.iff_eq]
      exact pow3Value_iff hm0
    · intro i hi
      exact hc.objects i (by simpa using hi)

/-- A destination, 3, 2, 0 and -5. -/
def powObjects : Heap sh4 (Fin 5)
  | .obj 1 => ⟨false, false, 2, 1, fun _ => 3, two_granted⟩
  | .obj 2 => ⟨false, false, 2, 1, fun _ => 2, two_granted⟩
  | .obj 4 => ⟨true, false, 2, 1, fun _ => 5, two_granted⟩
  | _ => initZero

theorem mpz_pow_right_iff_negative : ∃ h, h = powObjects ∧ (h (.obj 1)).value = 3 ∧ (h (.obj 2)).value = (2 : Nat) ∧ (h (.obj 4)).value = -5 ∧
    Prog.wp (mpzPow3Inpl (.obj 0) (.obj 1) (.obj 2) (.obj 4)) (fun _ h' => Holds (h' (.obj 0)) (-1)) (fun e _ => e = .memory) h := by
  obtain ⟨h, hh⟩ : ∃ h, h = powObjects := ⟨_, rfl⟩
  have hx : (h (.obj 1)).value = 3 := by
    rw [hh]
    decide
  have hn : (h (.obj 2)).value = (2 : Nat) := by
    rw [hh]
    decide
  have hm : (h (.obj 4)).value = -5 := by
    rw [hh]
    decide
  have hnormal : ∀ i : Fin 5, i = 1 ∨ i = 2 ∨ i = 4 → (h (.obj i)).Normal := by
    intro i hi
    rw [hh]
    rcases hi with rfl | rfl | rfl
    · exact ⟨by decide, ⟨fun _ _ => (by decide : 3 < sh4.base), fun _ => by decide⟩, by decide⟩
    · exact ⟨by decide, ⟨fun _ _ => (by decide : 2 < sh4.base), fun _ => by decide⟩, by decide⟩
    · exact ⟨by decide, ⟨fun _ _ => (by decide : 5 < sh4.base), fun _ => by decide⟩, by decide⟩
  refine ⟨h, hh, hx, hn, hm, ?_⟩
  refine Prog.wp_mono (mpz_pow_right_iff (k := 4) (d := 0) (hnormal 1 (by simp)) (hnormal 2 (by simp)) (hnormal 4 (by simp)) hn (by rw [hm]; decide)
    (by decide) (by rw [hh]; rfl)).2 (fun _ h' hs => ?_) fun _ _ he => he
  have hright := hs.1.mpr (by
    rw [hx, hm]
    exact .inr (.inr ⟨by decide, by simp⟩))
  rwa [hx, hm] at hright

/-- `0 ** 0` is 0, and `pow(3, 0, -5)` is 1. -/
theorem mpz_pow_early : (∃ h', mpzPowInpl (.obj 0) (.obj 3) (.obj 3) powObjects = (.ok (), h') ∧ (h' (.obj 0)).value = 0) ∧
    (∃ h', mpzPow3Inpl (.obj 0) (.obj 1) (.obj 3) (.obj 4) powObjects = (.ok (), h') ∧ (h' (.obj 0)).value = 1) ∧
    Int.fmod (3 ^ 0) (-5) = -4 :=
  ⟨⟨_, rfl, by decide⟩, ⟨_, rfl, by decide⟩, by decide⟩

end PythonUltra.Py.Mpz
