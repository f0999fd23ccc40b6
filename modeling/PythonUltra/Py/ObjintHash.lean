/-
  PythonUltra.Py.ObjintHash — integers as machine words (mpz_hash, mpz_as_int_checked and
  mpz_as_uint_checked of mpz.c), and the hash of int objects.

  The checked conversions look at the high part before each digit: below `2 ** wordBits`
  all is well, and of the signed range the least number is taken for too large.
-/

import PythonUltra.Py.ObjintExact

namespace PythonUltra.Py.Objint

open PythonUltra.Lib PythonUltra.Lib.Digits PythonUltra.Py.Mpz PythonUltra.Py.Smallint

variable {ι : Type} [DecidableEq ι] {c : Config} {h : Heap c ι} {z : Ref ι}

/-! ## mpz_as_uint_checked -/

def asUintLoop (i : Ref ι) : Nat → Nat → M c ι (Option Nat)
  | 0, val => pure (some val)
  | n + 1, val => do
    if val > (2 ^ (c.wordBits - 1) - 1) >>> (c.digSize - 1) then pure none
    else asUintLoop i n (c.word (val <<< c.digSize) ||| (← readDig i n))

def mpzAsUintChecked (i : Ref ι) : M c ι (Option Nat) := do
  if ← look i MpzT.neg then pure none else asUintLoop i (← look i MpzT.len) 0

omit [DecidableEq ι] in
theorem asUintLoop_spec {n : Nat} (val : Nat) (hn : n ≤ (h z).alloc) (hbelow : ∀ q < n, (h z).dig q < c.base) (hval : val < 2 ^ c.wordBits) :
    asUintLoop z n val h = (.ok (if val * c.base ^ n + num c.base (h z).dig n < 2 ^ c.wordBits
      then some (val * c.base ^ n + num c.base (h z).dig n) else none), h) := by
  have hw := c.digSize_lt_wordBits
  have hlimit : (2 ^ (c.wordBits - 1) - 1) >>> (c.digSize - 1) = 2 ^ (c.wordBits - c.digSize) - 1 := by
    have h4 := c.four_le_digSize
    have hsplit : 2 ^ (c.wordBits - 1) = 2 ^ (c.digSize - 1) * 2 ^ (c.wordBits - c.digSize) := by
      rw [← Nat.pow_add]
      congr 1
      omega
    rw [Nat.shiftRight_eq_div_pow, hsplit, Nat.mul_sub_div 0 _ _ (Nat.mul_pos (Nat.two_pow_pos _) (Nat.two_pow_pos _)), Nat.zero_div]
  exact checkedLoop_spec (Nat.le_of_lt hw) (Nat.le_refl _) (fun _ => rfl) (fun n val => by rw [asUintLoop, hlimit]) val hn hbelow hval

omit [DecidableEq ι] in
theorem mpzAsUintChecked_spec {x : Int} (hx : Holds (h z) x) :
    mpzAsUintChecked z h = (.ok (if 0 ≤ x ∧ x < 2 ^ c.wordBits then some x.toNat else none), h) := by
  have hv : signed (h z).neg (h z).mag = x := hx.value
  have hsign := hx.neg_eq
  have hcast : ((2 ^ c.wordBits : Nat) : Int) = 2 ^ c.wordBits := Nat.cast_pow 2 _
  rw [mpzAsUintChecked, look_bind]
  cases hneg : (h z).neg with
  | true =>
    have hx0 : x < 0 := of_decide_eq_true (hsign.symm.trans hneg)
    rw [if_pos rfl, if_neg (by omega)]
    rfl
  | false =>
    rw [hneg] at hv
    change ((h z).mag : Int) = x at hv
    have hloop := asUintLoop_spec 0 hx.normal.fits hx.normal.digits.below (Nat.two_pow_pos _)
    rw [Nat.zero_mul, Nat.zero_add, ← MpzT.mag] at hloop
    rw [if_neg Bool.false_ne_true, look_bind, hloop, ← hv]
    by_cases hlt : (h z).mag < 2 ^ c.wordBits
    · rw [if_pos hlt, if_pos (by omega), Int.toNat_natCast]
    · rw [if_neg hlt, if_neg (by omega)]

/-! ## Hashes -/

omit [DecidableEq ι] in
theorem inWord_iff {v : Int} : InWord c v ↔ -2 ^ (c.wordBits - 1) ≤ v ∧ v < 2 ^ (c.wordBits - 1) := by
  have hs := small_eq (c := c)
  have hcast : ((2 ^ (c.wordBits - 1) : Nat) : Int) = 2 ^ (c.wordBits - 1) := Nat.cast_pow 2 _
  unfold InWord
  omega

theorem hash_spec {o : Obj ι} {x : Int} (ho : Denotes h o x) :
    mpUnaryOp .hash o h = (.ok (.obj (.small (newSmallInt c (c.sword x)))), h) := by
  cases o with
  | small v =>
    obtain ⟨rfl, hin⟩ := ho
    have hword := InWord.of_small hin
    rw [sword_of hword.1 hword.2, newSmallInt_of hin]
    rfl
  | int r =>
    change intUnaryOp .hash r h = _
    rw [intUnaryOp, Prog.bind_of_ok (mpzHash_spec ho)]
    rfl

/-- An `mpz_t` as a machine integer: the two conversions give its value where it is in range, but for
the least of the signed range, and so does the hash. Ints that are equal have one hash, whatever
they are made of. -/
theorem int_words_iff (hz : (h z).Normal) :
    (∃ r, mpzAsIntChecked z h = (.ok r, h) ∧
      (r = (if -2 ^ (c.wordBits - 1) ≤ (h z).value ∧ (h z).value < 2 ^ (c.wordBits - 1) then some (h z).value else none) ↔
        (h z).value ≠ -2 ^ (c.wordBits - 1))) ∧
    mpzAsUintChecked z h = (.ok (if 0 ≤ (h z).value ∧ (h z).value < 2 ^ c.wordBits then some (h z).value.toNat else none), h) ∧
    (-2 ^ (c.wordBits - 1) ≤ (h z).value ∧ (h z).value < 2 ^ (c.wordBits - 1) → mpzHash z h = (.ok (h z).value, h)) ∧
    ∀ lhs rhs x y, IsOperand lhs → IsOperand rhs → Denotes h lhs x → Denotes h rhs y →
      Prog.wp (mpBinaryOp .equal lhs rhs)
        (fun r _ => (r = .bool true ↔ x = y) ∧ (r = .bool true →
          ∃ v, mpUnaryOp .hash lhs h = (.ok (.obj (.small v)), h) ∧ mpUnaryOp .hash rhs h = (.ok (.obj (.small v)), h)))
        (fun e _ => e = .memory) h := by
  have hx : Holds (h z) (h z).value := ⟨hz, rfl⟩
  have hpos : 0 < 2 ^ (c.wordBits - 1) := Nat.two_pow_pos _
  have hcast : ((2 ^ (c.wordBits - 1) : Nat) : Int) = 2 ^ (c.wordBits - 1) := Nat.cast_pow 2 _
  refine ⟨⟨_, mpzAsIntChecked_spec hx, ?_⟩, mpzAsUintChecked_spec hx, ?_, ?_⟩
  · by_cases hlt : (h z).value.natAbs < 2 ^ (c.wordBits - 1)
    · rw [if_pos hlt, if_pos (by omega)]
      exact iff_of_true rfl (by omega)
    · rw [if_neg hlt]
      by_cases hleast : (h z).value = -2 ^ (c.wordBits - 1)
      · rw [if_pos (by omega)]
        exact iff_of_false (by simp) (not_not.mpr hleast)
      · have hout : ¬ (-2 ^ (c.wordBits - 1) ≤ (h z).value ∧ (h z).value < 2 ^ (c.wordBits - 1)) := by omega
        rw [if_neg hout]
        exact iff_of_true rfl hleast
  · intro hin
    obtain ⟨h1, h2⟩ := inWord_iff.mpr hin
    rw [mpzHash_spec hx, sword_of h1 h2]
  · intro lhs rhs x y hl hr hlx hry
    refine Prog.wp_mono (objEqualNotEqual_spec false (hlx.arg hl) (hry.arg hr)) (fun r h' hq => ?_) fun _ _ he => he
    obtain ⟨rfl, -⟩ := hq
    have htrue : (Result.bool (if false then !decide (x = y) else decide (x = y)) : Result ι) = .bool true ↔ x = y := by simp
    refine ⟨htrue, fun hsame => ?_⟩
    obtain rfl := htrue.mp hsame
    exact ⟨_, hash_spec hlx, hash_spec hry⟩

theorem int_words_iff_negative :
    mpzAsIntChecked (.obj true) twoObjects = (.ok (some (-65537)), twoObjects) ∧ mpzAsUintChecked (.obj true) twoObjects = (.ok none, twoObjects) := by
  obtain ⟨⟨r, hrun, hr⟩, huint, -, -⟩ := int_words_iff (twoObjects_normal true)
  have hvalue : (twoObjects (.obj true)).value = -65537 := by decide
  rw [hvalue] at hr huint
  rw [hr.mpr (by decide)] at hrun
  exact ⟨hrun, huint⟩

/-- `-2 ** 31` where an `mp_int_t` has 32 bits. -/
theorem least_int_refused : ∃ h : Heap sh4 Unit, (h (.obj ())).Normal ∧ (h (.obj ())).value = -2 ^ 31 ∧ mpzAsIntChecked (.obj ()) h = (.ok none, h) := by
  refine ⟨fun _ => ⟨true, false, 2, 2, fun q => if q = 1 then 0x8000 else 0, two_granted⟩, ⟨by decide, ⟨?_, by decide⟩, by decide⟩, by decide, rfl⟩
  intro q _
  show (if q = 1 then 0x8000 else 0) < sh4.base
  split <;> decide

end PythonUltra.Py.Objint
