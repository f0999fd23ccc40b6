/-
  PythonUltra.Py.MpzExact — the arithmetic of mpz.c is exact.

  `MpzT.value` reads an object as the signed integer of its digits. Every function leaves
  in its destination a normal object of the exact value, touches no digit outside an
  array, fails no assertion and changes no other object (`Gives`), wherever its operands
  stand, the destination included. The one way not to return is an allocation refused.
-/

import PythonUltra.Py.Mpn

namespace PythonUltra.Py.Mpz

open PythonUltra.Lib PythonUltra.Lib.Digits

variable {ι α : Type} [DecidableEq ι] {c : Config} {h h' : Heap c ι} {dest lhs rhs r z : Ref ι}

/-- What the digits of an `mpz_t` stand for. -/
def MpzT.mag (z : MpzT c) : Nat := num c.base z.dig z.len

def signed (neg : Bool) (m : Nat) : Int := if neg then -(m : Int) else m

/-- The integer an `mpz_t` stands for. -/
def MpzT.value (z : MpzT c) : Int := signed z.neg z.mag

/-- Its digits are within its array, no leading one is zero, and zero is not negative. -/
structure MpzT.Normal (z : MpzT c) : Prop where
  fits : z.len ≤ z.alloc
  digits : Digits.Normal c.base z.dig z.len
  zero : z.len = 0 → z.neg = false

structure Holds (z : MpzT c) (v : Int) : Prop where
  normal : z.Normal
  value : z.value = v

/-- Objects the functions use for themselves. -/
def Scratch (r : Ref ι) : Prop := r = .temp .k ∨ r = .temp .mulTemp

/-- What a function with destination `dest` does, if it gives `v` and no array it asks for is
longer than `room`. -/
structure Stored (h h' : Heap c ι) (dest : Ref ι) (v : Int) (room : Nat) : Prop where
  holds : Holds (h' dest) v
  fixed : (h' dest).fixedDig = (h dest).fixedDig
  within : (h' dest).alloc ≤ room
  others : ∀ r, r ≠ dest → ¬ Scratch r → h' r = h r

/-- An array of at most so many digits was refused. -/
def Refused (c : Config) (room : Nat) (e : Fault) : Prop := e = .memory ∧ ∃ n ≤ room, c.granted n = false

def Gives (x : M c ι Unit) (h : Heap c ι) (dest : Ref ι) (v : Int) (room : Nat) : Prop :=
  Prog.wp x (fun _ h' => Stored h h' dest v room) (fun e _ => Refused c room e) h

/-! ## Fields -/

omit [DecidableEq ι] in
@[simp] theorem wp_look_bind {β : Type} {f : MpzT c → α} {k : α → M c ι β} {Q : β → Heap c ι → Prop} {R : Fault → Heap c ι → Prop} :
    Prog.wp (look r f >>= k) Q R h = Prog.wp (k (f (h r))) Q R h := rfl

@[simp] theorem wp_change_bind {β : Type} {f : MpzT c → MpzT c} {k : Unit → M c ι β} {Q : β → Heap c ι → Prop}
    {R : Fault → Heap c ι → Prop} :
    Prog.wp (change r f >>= k) Q R h = Prog.wp (k ()) Q R (Function.update h r (f (h r))) := rfl

def putLen (h : Heap c ι) (r : Ref ι) (n : Nat) : Heap c ι := Function.update h r { h r with len := n }

def putNeg (h : Heap c ι) (r : Ref ι) (b : Bool) : Heap c ι := Function.update h r { h r with neg := b }

@[simp] theorem wp_setLen_bind {β : Type} {n : Nat} {k : Unit → M c ι β} {Q : β → Heap c ι → Prop} {R : Fault → Heap c ι → Prop} :
    Prog.wp (setLen r n >>= k) Q R h = Prog.wp (k ()) Q R (putLen h r n) := rfl

@[simp] theorem wp_setNeg_bind {β : Type} {b : Bool} {k : Unit → M c ι β} {Q : β → Heap c ι → Prop} {R : Fault → Heap c ι → Prop} :
    Prog.wp (setNeg r b >>= k) Q R h = Prog.wp (k ()) Q R (putNeg h r b) := rfl

@[simp] theorem wp_setLen {n : Nat} {Q : Unit → Heap c ι → Prop} {R : Fault → Heap c ι → Prop} :
    Prog.wp (setLen r n) Q R h = Q () (putLen h r n) := rfl

@[simp] theorem wp_setNeg {b : Bool} {Q : Unit → Heap c ι → Prop} {R : Fault → Heap c ι → Prop} :
    Prog.wp (setNeg r b) Q R h = Q () (putNeg h r b) := rfl

theorem update_field {g : MpzT c → MpzT c} {p : MpzT c → α} (hp : p (g (h z)) = p (h z)) :
    p (Function.update h z (g (h z)) r) = p (h r) := by
  by_cases e : r = z
  · subst e
    rw [Function.update_self, hp]
  · rw [Function.update_of_ne e]

@[simp] theorem putLen_neg (n : Nat) : (putLen h z n r).neg = (h r).neg :=
  update_field (g := fun z => { z with len := n }) (p := MpzT.neg) rfl

@[simp] theorem putLen_dig (n : Nat) : (putLen h z n r).dig = (h r).dig :=
  update_field (g := fun z => { z with len := n }) (p := MpzT.dig) rfl

@[simp] theorem putLen_alloc (n : Nat) : (putLen h z n r).alloc = (h r).alloc :=
  update_field (g := fun z => { z with len := n }) (p := MpzT.alloc) rfl

@[simp] theorem putNeg_dig (b : Bool) : (putNeg h z b r).dig = (h r).dig :=
  update_field (g := fun z => { z with neg := b }) (p := MpzT.dig) rfl

@[simp] theorem putNeg_alloc (b : Bool) : (putNeg h z b r).alloc = (h r).alloc :=
  update_field (g := fun z => { z with neg := b }) (p := MpzT.alloc) rfl

@[simp] theorem putNeg_len (b : Bool) : (putNeg h z b r).len = (h r).len :=
  update_field (g := fun z => { z with neg := b }) (p := MpzT.len) rfl

@[simp] theorem putLen_len (n : Nat) : (putLen h r n r).len = n := by
  unfold putLen
  rw [Function.update_self]

theorem wp_makes {β : Type} {x : M c ι Nat} {v : Nat} {k : Nat → M c ι β} {Q : β → Heap c ι → Prop} {R : Fault → Heap c ι → Prop}
    (hx : Makes x h dest v)
    (hk : ∀ n f, n ≤ (h dest).alloc → Digits.Normal c.base f n → num c.base f n = v → Prog.wp (k n) Q R (withDig h dest f)) :
    Prog.wp (x >>= k) Q R h := by
  obtain ⟨n, f, hrun, hn, hnormal, hnum⟩ := hx
  unfold Prog.wp
  rw [Prog.bind_of_ok hrun]
  exact hk n f hn hnormal hnum

/-! ## Room for digits -/

/-- `z` with room for `need` digits. -/
structure Grown (h h' : Heap c ι) (z : Ref ι) (need : Nat) : Prop where
  others : ∀ r, r ≠ z → h' r = h r
  neg : (h' z).neg = (h z).neg
  len : (h' z).len = (h z).len
  fixed : (h' z).fixedDig = (h z).fixedDig
  dig : ∀ q < (h z).alloc, (h' z).dig q = (h z).dig q
  alloc : (h z).alloc ≤ (h' z).alloc
  need_le : need ≤ (h' z).alloc
  two_le : 2 ≤ (h' z).alloc
  le {room : Nat} : (h z).alloc ≤ room → need ≤ room → 2 ≤ room → (h' z).alloc ≤ room

namespace Grown

variable {need : Nat} (hg : Grown h h' z need)
include hg

theorem len_eq (r : Ref ι) : (h' r).len = (h r).len := by
  by_cases e : r = z
  · rw [e, hg.len]
  · rw [hg.others r e]

theorem neg_eq (r : Ref ι) : (h' r).neg = (h r).neg := by
  by_cases e : r = z
  · rw [e, hg.neg]
  · rw [hg.others r e]

theorem alloc_le (r : Ref ι) : (h r).alloc ≤ (h' r).alloc := by
  by_cases e : r = z
  · rw [e]
    exact hg.alloc
  · rw [hg.others r e]

theorem dig_eq {r : Ref ι} {q : Nat} (hq : q < (h r).alloc) : (h' r).dig q = (h r).dig q := by
  by_cases e : r = z
  · subst e
    exact hg.dig q hq
  · rw [hg.others r e]

theorem num_eq {r : Ref ι} {n : Nat} (hn : n ≤ (h r).alloc) : num c.base (h' r).dig n = num c.base (h r).dig n :=
  num_congr fun q hq => hg.dig_eq (by omega)

theorem normal {r : Ref ι} (hr : (h r).Normal) : (h' r).Normal where
  fits := by
    rw [hg.len_eq]
    exact Nat.le_trans hr.fits (hg.alloc_le r)
  digits := by
    rw [hg.len_eq]
    exact hr.digits.congr fun q hq => (hg.dig_eq (Nat.lt_of_lt_of_le hq hr.fits)).symm
  zero := by
    rw [hg.len_eq, hg.neg_eq]
    exact hr.zero

theorem mag_eq {r : Ref ι} (hr : (h r).Normal) : (h' r).mag = (h r).mag := by
  unfold MpzT.mag
  rw [hg.len_eq, hg.num_eq hr.fits]

theorem holds {r : Ref ι} {v : Int} (hr : Holds (h r) v) : Holds (h' r) v where
  normal := hg.normal hr.normal
  value := by
    rw [← hr.value]
    unfold MpzT.value
    rw [hg.neg_eq, hg.mag_eq hr.normal]

end Grown

theorem wp_mpzNeedDig {need room : Nat} {Q : Unit → Heap c ι → Prop} (hfixed : (h z).fixedDig = false) (hneed : need ≤ room)
    (hroom : 2 ≤ room) (hQ : ∀ h', Grown h h' z need → Q () h') :
    Prog.wp (mpzNeedDig z need) Q (fun e _ => Refused c room e) h := by
  unfold mpzNeedDig
  rw [wp_look_bind]
  obtain ⟨m, hm, hge, h2, hmax⟩ : ∃ m, (if need < minAlloc then minAlloc else need) = m ∧ need ≤ m ∧ 2 ≤ m ∧ (m = need ∨ m = 2) := by
    unfold minAlloc
    refine ⟨_, rfl, ?_⟩
    split <;> omega
  rw [hm]
  by_cases hlt : (h z).alloc < m
  · rw [if_pos hlt, wp_look_bind, hfixed]
    by_cases hgrant : c.granted m = true
    · rw [dif_pos hgrant]
      refine hQ _ ⟨fun r e => Function.update_of_ne e _ _, ?_, ?_, ?_, ?_, ?_, ?_, ?_, ?_⟩
      all_goals simp [MpzT.grown]
      all_goals omega
    · rw [dif_neg hgrant]
      exact ⟨rfl, m, by omega, by simpa using hgrant⟩
  · rw [if_neg hlt]
    exact hQ h ⟨fun _ _ => rfl, rfl, rfl, rfl, fun _ _ => rfl, Nat.le_refl _, by omega, by omega, fun hr _ _ => hr⟩

theorem mpzNeedDig_of_le {need : Nat} (hneed : need ≤ (h z).alloc) (h2 : 2 ≤ (h z).alloc) : mpzNeedDig z need h = (.ok (), h) := by
  show (if (h z).alloc < (if need < minAlloc then minAlloc else need) then _ else pure () : M c ι Unit) h = _
  refine congrFun (if_neg ?_) h
  unfold minAlloc
  split <;> omega

/-! ## Signs -/

theorem signed_zero (b : Bool) : signed b 0 = 0 := by cases b <;> rfl

theorem signed_of_digits (b : Bool) (f : Nat → Nat) (n : Nat) :
    signed (b && decide (n ≠ 0)) (num c.base f n) = signed b (num c.base f n) := by
  by_cases hn : n = 0
  · rw [hn, num_zero, signed_zero, signed_zero]
  · rw [decide_eq_true hn, Bool.and_true]

theorem signed_add (b : Bool) (m n : Nat) : signed b m + signed b n = signed b (m + n) := by
  cases b with
  | false => exact (Int.natCast_add m n).symm
  | true =>
    show -(m : Int) + -(n : Int) = -((m + n : Nat) : Int)
    omega

theorem signed_not (b : Bool) (m : Nat) : signed (!b) m = -signed b m := by
  cases b with
  | false => rfl
  | true => exact (Int.neg_neg _).symm

theorem signed_sub (b : Bool) {m n : Nat} (h : n ≤ m) : signed b m - signed b n = signed b (m - n) := by
  cases b with
  | false => exact (Int.natCast_sub h).symm
  | true =>
    show -(m : Int) - -(n : Int) = -((m - n : Nat) : Int)
    omega

theorem signed_mul (a b : Bool) (m n : Nat) : signed (a != b) (m * n) = signed a m * signed b n := by
  cases a <;> cases b <;> simp [signed]

theorem signed_abs (b : Bool) (m : Nat) : signed false m = |signed b m| := by
  cases b with
  | false => exact (abs_of_nonneg (Int.natCast_nonneg m)).symm
  | true => exact ((abs_neg _).trans (abs_of_nonneg (Int.natCast_nonneg m))).symm

/-! ## Storing a number -/

/-- `dest` with a number and a sign. -/
def stored (h : Heap c ι) (dest : Ref ι) (f : Nat → Nat) (n : Nat) (b : Bool) : Heap c ι :=
  Function.update h dest { h dest with dig := f, len := n, neg := b }

theorem putNeg_putLen (f : Nat → Nat) (n : Nat) (b : Bool) : putNeg (putLen (withDig h dest f) dest n) dest b = stored h dest f n b := by
  unfold putNeg putLen withDig stored
  simp

theorem withDig_putLen (f : Nat → Nat) (n : Nat) (b : Bool) : withDig (putLen (putNeg h dest b) dest n) dest f = stored h dest f n b := by
  unfold putNeg putLen withDig stored
  simp

theorem putLen_withDig (f : Nat → Nat) (n : Nat) : putLen (withDig h dest f) dest n = stored h dest f n (h dest).neg := by
  unfold putLen withDig stored
  simp

/-- A heap that other objects left alone, with the number stored. -/
theorem stored_of {h₁ : Heap c ι} {f : Nat → Nat} {n room : Nat} {b : Bool} {v : Int} (hfixed : (h₁ dest).fixedDig = (h dest).fixedDig)
    (hroom : (h₁ dest).alloc ≤ room) (hothers : ∀ r, r ≠ dest → ¬ Scratch r → h₁ r = h r) (hn : n ≤ (h₁ dest).alloc)
    (hf : Digits.Normal c.base f n) (hb : n = 0 → b = false) (hv : signed b (num c.base f n) = v) :
    Stored h (stored h₁ dest f n b) dest v room := by
  have hself : Mpz.stored h₁ dest f n b dest = { h₁ dest with dig := f, len := n, neg := b } := Function.update_self _ _ _
  refine ⟨⟨?_, ?_⟩, ?_, ?_, fun r e hr => ?_⟩
  · rw [hself]
    exact ⟨hn, hf, hb⟩
  · rw [hself]
    exact hv
  · rw [hself]
    exact hfixed
  · rw [hself]
    exact hroom
  · rw [Mpz.stored, Function.update_of_ne e]
    exact hothers r e hr

theorem Grown.stored {need room : Nat} {f : Nat → Nat} {n : Nat} {b : Bool} {v : Int} (hg : Grown h h' dest need)
    (hroom : (h dest).alloc ≤ room ∧ need ≤ room ∧ 2 ≤ room) (hn : n ≤ (h' dest).alloc) (hf : Digits.Normal c.base f n)
    (hb : n = 0 → b = false) (hv : signed b (num c.base f n) = v) : Stored h (stored h' dest f n b) dest v room :=
  stored_of hg.fixed (hg.le hroom.1 hroom.2.1 hroom.2.2) (fun r e _ => hg.others r e) hn hf hb hv

/-! ## Addition and subtraction -/

theorem MpzT.Normal.mag_lt {z : MpzT c} (hz : z.Normal) : z.mag < c.base ^ z.len := hz.digits.lt c.base_pos

theorem len_le_of_mag_le {y z : MpzT c} (hy : y.Normal) (hz : z.Normal) (hle : y.mag ≤ z.mag) : y.len ≤ z.len := by
  by_contra hlt
  exact absurd (hz.digits.lt_of_length hy.digits c.base_pos (by omega)) (Nat.not_lt.mpr hle)

/-- `dest` has the magnitude `m` and still its old sign. -/
def Sized (h h' : Heap c ι) (dest : Ref ι) (m room : Nat) : Prop :=
  ∃ h₁ need n f, Grown h h₁ dest need ∧ need ≤ room ∧ n ≤ (h₁ dest).alloc ∧ Digits.Normal c.base f n ∧ num c.base f n = m ∧
    h' = putLen (withDig h₁ dest f) dest n

theorem addMag_sized {room : Nat} (hl : (h lhs).Normal) (hr : (h rhs).Normal) (hle : (h rhs).mag ≤ (h lhs).mag)
    (hfixed : (h dest).fixedDig = false) (hroom : (h lhs).len + 2 ≤ room) :
    Prog.wp (addMag dest lhs rhs) (fun _ h' => Sized h h' dest ((h lhs).mag + (h rhs).mag) room) (fun e _ => Refused c room e) h := by
  unfold addMag
  rw [wp_look_bind]
  refine Prog.wp_bind.mpr (wp_mpzNeedDig hfixed (by omega) (by omega) fun h' hg => ?_)
  have hlen : (h lhs).len + 1 ≤ (h' dest).alloc := hg.need_le
  have hle' := len_le_of_mag_le hr hl hle
  have hnl := hg.normal hl
  have hnr := hg.normal hr
  rw [wp_look_bind, wp_look_bind]
  refine wp_makes (mpnAdd_spec hnl.digits hnr.digits ?_ hnl.fits hnr.fits ?_ ?_) fun n f hn hf hnum => ?_
  · rwa [hg.len_eq, hg.len_eq]
  · rw [hg.len_eq]
    omega
  · have hlt := hl.mag_lt
    calc (h' lhs).mag + (h' rhs).mag < 2 * c.base ^ (h lhs).len := by
          rw [hg.mag_eq hl, hg.mag_eq hr]
          omega
      _ ≤ c.base * c.base ^ (h lhs).len := Nat.mul_le_mul_right _ c.one_lt_base
      _ = c.base ^ ((h lhs).len + 1) := by rw [Nat.pow_succ, Nat.mul_comm]
      _ ≤ c.base ^ (h' dest).alloc := Nat.pow_le_pow_right c.base_pos hlen
  · refine ⟨h', _, n, f, hg, by omega, hn, hf, ?_, rfl⟩
    rw [hnum, ← hg.mag_eq hl, ← hg.mag_eq hr]
    rfl

theorem subMag_sized {room : Nat} (hl : (h lhs).Normal) (hr : (h rhs).Normal) (hle : (h rhs).mag ≤ (h lhs).mag)
    (hfixed : (h dest).fixedDig = false) (hroom : (h lhs).len + 2 ≤ room) :
    Prog.wp (subMag dest lhs rhs) (fun _ h' => Sized h h' dest ((h lhs).mag - (h rhs).mag) room) (fun e _ => Refused c room e) h := by
  unfold subMag
  rw [wp_look_bind]
  refine Prog.wp_bind.mpr (wp_mpzNeedDig hfixed (by omega) (by omega) fun h' hg => ?_)
  have hnl := hg.normal hl
  have hnr := hg.normal hr
  rw [wp_look_bind, wp_look_bind]
  refine wp_makes (mpnSub_spec hnl.digits.below hnr.digits.below ?_ hnl.fits hnr.fits ?_ ?_) fun n f hn hf hnum => ?_
  · rw [hg.len_eq, hg.len_eq]
    exact len_le_of_mag_le hr hl hle
  · rw [hg.len_eq]
    exact hg.need_le
  · show (h' rhs).mag ≤ (h' lhs).mag
    rwa [hg.mag_eq hl, hg.mag_eq hr]
  · refine ⟨h', _, n, f, hg, by omega, hn, hf, ?_, rfl⟩
    rw [hnum, ← hg.mag_eq hl, ← hg.mag_eq hr]
    rfl

theorem Sized.stored {m room : Nat} {b : Bool} {v : Int} (hs : Sized h h' dest m room) (hd : (h dest).alloc ≤ room) (h2 : 2 ≤ room)
    (hb : (h' dest).len = 0 → b = false) (hv : signed b m = v) : Stored h (putNeg h' dest b) dest v room := by
  obtain ⟨h₁, need, n, f, hg, hneed, hn, hf, hnum, rfl⟩ := hs
  rw [putLen_len] at hb
  rw [putNeg_putLen]
  exact hg.stored ⟨hd, hneed, h2⟩ hn hf hb (hnum ▸ hv)

theorem Sized.neg_eq {m room : Nat} (hs : Sized h h' dest m room) (r : Ref ι) : (h' r).neg = (h r).neg := by
  obtain ⟨h₁, need, n, f, hg, -, -, -, -, rfl⟩ := hs
  rw [putLen_neg, withDig_neg, hg.neg_eq]

theorem Sized.len_eq_zero {m room : Nat} (hs : Sized h h' dest m room) : (h' dest).len = 0 ↔ m = 0 := by
  obtain ⟨h₁, need, n, f, -, -, -, hf, rfl, rfl⟩ := hs
  rw [putLen_len, hf.num_eq_zero c.base_pos]

theorem mpzAddOrdered_gives {x y : Int} {room : Nat} (hx : Holds (h lhs) x) (hy : Holds (h rhs) y)
    (hle : (h rhs).mag ≤ (h lhs).mag) (hfixed : (h dest).fixedDig = false) (hd : (h dest).alloc ≤ room)
    (hl : (h lhs).len + 2 ≤ room) : Gives (mpzAddOrdered dest lhs rhs) h dest (x + y) room := by
  -- the sign of the greater magnitude, if any is left
  have hsign : ∀ {m : Nat} {h' : Heap c ι}, Sized h h' dest m room → signed (h lhs).neg m = x + y →
      Stored h (putNeg h' dest ((h' lhs).neg && decide ((h' dest).len ≠ 0))) dest (x + y) room := by
    intro m h' hs hv
    refine hs.stored hd (by omega) (fun hz => by simp [hz]) ?_
    by_cases hm : m = 0
    · rw [hm, signed_zero] at hv ⊢
      exact hv
    · rw [decide_eq_true (mt hs.len_eq_zero.mp hm), Bool.and_true, hs.neg_eq]
      exact hv
  unfold Gives mpzAddOrdered
  rw [wp_look_bind, wp_look_bind]
  by_cases hneg : (h lhs).neg = (h rhs).neg
  · rw [if_pos hneg]
    refine Prog.wp_then (addMag_sized hx.normal hy.normal hle hfixed hl) (fun _ h' hs => hsign hs ?_) fun _ _ he => he
    rw [← hx.value, ← hy.value, MpzT.value, MpzT.value, ← hneg, signed_add]
  · rw [if_neg hneg]
    refine Prog.wp_then (subMag_sized hx.normal hy.normal hle hfixed hl) (fun _ h' hs => hsign hs ?_) fun _ _ he => he
    rw [← hx.value, ← hy.value, MpzT.value, MpzT.value, Bool.eq_not.mpr (Ne.symm hneg), signed_not, ← signed_sub _ hle]
    rfl

omit [DecidableEq ι] in
theorem wp_mpnCmp {β : Type} {k : Int → M c ι β} {Q : β → Heap c ι → Prop} {R : Fault → Heap c ι → Prop} (hl : (h lhs).Normal)
    (hr : (h rhs).Normal) (hk : ∀ s, IsCmp s (h lhs).mag (h rhs).mag → Prog.wp (k s) Q R h) :
    Prog.wp (mpnCmp lhs (h lhs).len rhs (h rhs).len >>= k) Q R h := by
  obtain ⟨s, hs, hcmp⟩ := mpnCmp_spec hl.fits hr.fits hl.digits hr.digits
  unfold Prog.wp
  rw [Prog.bind_of_ok hs]
  exact hk s hcmp

theorem mpzAddInpl_gives {x y : Int} {room : Nat} (hx : Holds (h lhs) x) (hy : Holds (h rhs) y) (hfixed : (h dest).fixedDig = false)
    (hd : (h dest).alloc ≤ room) (hroom : (h lhs).len + (h rhs).len + 2 ≤ room) :
    Gives (mpzAddInpl dest lhs rhs) h dest (x + y) room := by
  unfold Gives mpzAddInpl
  rw [wp_look_bind, wp_look_bind]
  refine wp_mpnCmp hx.normal hy.normal fun s hs => ?_
  by_cases hlt : s < 0
  · rw [if_pos hlt, Int.add_comm]
    exact mpzAddOrdered_gives hy hx (by have := hs.1.mp hlt; omega) hfixed hd (by omega)
  · rw [if_neg hlt]
    exact mpzAddOrdered_gives hx hy (by have := mt hs.1.mpr hlt; omega) hfixed hd (by omega)

theorem mpzSubOrdered_gives {x y : Int} {room : Nat} (neg : Bool) (hx : Holds (h lhs) x) (hy : Holds (h rhs) y)
    (hle : (h rhs).mag ≤ (h lhs).mag) (hfixed : (h dest).fixedDig = false) (hd : (h dest).alloc ≤ room)
    (hl : (h lhs).len + 2 ≤ room) : Gives (mpzSubOrdered dest lhs rhs neg) h dest (if neg then y - x else x - y) room := by
  have hsign : ∀ {m : Nat} {h' : Heap c ι}, Sized h h' dest m room → signed (h lhs).neg m = x - y →
      Prog.wp (do
        if (← look dest MpzT.len) = 0 then setNeg dest false
        else if neg then setNeg dest !(← look lhs MpzT.neg)
        else setNeg dest (← look lhs MpzT.neg) : M c ι Unit)
        (fun _ h'' => Stored h h'' dest (if neg then y - x else x - y) room) (fun e _ => Refused c room e) h' := by
    intro m h' hs hv
    rw [wp_look_bind]
    by_cases hz : (h' dest).len = 0
    · rw [hs.len_eq_zero.mp hz, signed_zero] at hv
      rw [if_pos hz, wp_setNeg]
      refine hs.stored hd (by omega) (fun _ => rfl) ?_
      rw [hs.len_eq_zero.mp hz, signed_zero]
      split <;> omega
    · rw [if_neg hz]
      cases neg with
      | true =>
        refine hs.stored hd (by omega) (fun he => absurd he hz) ?_
        rw [hs.neg_eq, signed_not, hv, if_pos rfl, Int.neg_sub]
      | false =>
        refine hs.stored hd (by omega) (fun he => absurd he hz) ?_
        rw [hs.neg_eq, hv]
        rfl
  unfold Gives mpzSubOrdered
  rw [wp_look_bind, wp_look_bind]
  by_cases hneg : (h lhs).neg = (h rhs).neg
  · rw [if_neg (not_not.mpr hneg)]
    refine Prog.wp_then (subMag_sized hx.normal hy.normal hle hfixed hl) (fun _ h' hs => hsign hs ?_) fun _ _ he => he
    rw [← hx.value, ← hy.value, MpzT.value, MpzT.value, ← hneg, signed_sub _ hle]
  · rw [if_pos hneg]
    refine Prog.wp_then (addMag_sized hx.normal hy.normal hle hfixed hl) (fun _ h' hs => hsign hs ?_) fun _ _ he => he
    rw [← hx.value, ← hy.value, MpzT.value, MpzT.value, Bool.eq_not.mpr (Ne.symm hneg), signed_not, ← signed_add, Int.sub_neg]

theorem mpzSubInpl_gives {x y : Int} {room : Nat} (hx : Holds (h lhs) x) (hy : Holds (h rhs) y) (hfixed : (h dest).fixedDig = false)
    (hd : (h dest).alloc ≤ room) (hroom : (h lhs).len + (h rhs).len + 2 ≤ room) :
    Gives (mpzSubInpl dest lhs rhs) h dest (x - y) room := by
  unfold Gives mpzSubInpl
  rw [wp_look_bind, wp_look_bind]
  refine wp_mpnCmp hx.normal hy.normal fun s hs => ?_
  by_cases hlt : s < 0
  · rw [if_pos hlt]
    exact mpzSubOrdered_gives true hy hx (by have := hs.1.mp hlt; omega) hfixed hd (by omega)
  · rw [if_neg hlt]
    exact mpzSubOrdered_gives false hx hy (by have := mt hs.1.mpr hlt; omega) hfixed hd (by omega)

/-! ## Machine integers -/

/-- `z` with one more digit. -/
def pushed (h : Heap c ι) (z : Ref ι) (d : Nat) : Heap c ι :=
  stored h z (Function.update (h z).dig (h z).len d) ((h z).len + 1) (h z).neg

theorem pushed_self (d : Nat) :
    pushed h z d z = { h z with dig := Function.update (h z).dig (h z).len d, len := (h z).len + 1 } := Function.update_self _ _ _

theorem stored_pushed (d : Nat) (f : Nat → Nat) (n : Nat) : stored (pushed h z d) z f n (h z).neg = stored h z f n (h z).neg := by
  unfold pushed stored
  simp

theorem setDigits_succ {fuel uval : Nat} (hpos : uval > 0) (hspace : (h z).len < (h z).alloc) :
    setDigits z (fuel + 1) uval h = setDigits z fuel (uval / c.base) (pushed h z (uval % c.base)) := by
  have hwrite := writeDig_of_lt (h := h) (i := z) (p := (h z).len) (x := uval &&& c.mask) hspace
  rw [Config.and_mask, Config.dig_of_lt (Nat.mod_lt _ c.base_pos)] at hwrite
  rw [setDigits, if_pos hpos, Config.and_mask, Config.shiftRight_digSize]
  show (writeDig z (h z).len (uval % c.base) >>= _) h = _
  rw [Prog.bind_of_ok hwrite]
  exact congrArg (setDigits z fuel (uval / c.base)) (putLen_withDig _ _)

theorem setDigits_spec {fuel uval : Nat} (hfuel : uval < fuel) (hroom : uval < c.base ^ ((h z).alloc - (h z).len))
    (hlen : (h z).len ≤ (h z).alloc) :
    ∃ n f, setDigits z fuel uval h = (.ok (), stored h z f n (h z).neg) ∧ (h z).len ≤ n ∧ n ≤ (h z).alloc ∧
      (∀ q < (h z).len, f q = (h z).dig q) ∧ (∀ q, (h z).len ≤ q → q < n → f q < c.base) ∧
      num c.base f n = num c.base (h z).dig (h z).len + c.base ^ (h z).len * uval ∧
      ((h z).len < n → f (n - 1) ≠ 0) := by
  induction fuel generalizing uval h with
  | zero => omega
  | succ fuel ih =>
    by_cases hpos : uval > 0
    · have hspace : (h z).len < (h z).alloc := by
        by_contra hfull
        rw [Nat.sub_eq_zero_of_le (by omega), Nat.pow_zero] at hroom
        omega
      have hless : uval / c.base < uval := Nat.div_lt_self hpos c.one_lt_base
      have hroom' : uval / c.base < c.base ^ ((h z).alloc - ((h z).len + 1)) := by
        refine Nat.div_lt_of_lt_mul ?_
        rw [← Nat.pow_succ', show ((h z).alloc - ((h z).len + 1)).succ = (h z).alloc - (h z).len by omega]
        exact hroom
      obtain ⟨n, f, hrun, hle, hn, hsame, hbelow, hnum, hlead⟩ := ih (h := pushed h z (uval % c.base))
        (show uval / c.base < fuel by omega) (by rw [pushed_self]; exact hroom') (by rw [pushed_self]; exact hspace)
      rw [pushed_self] at hrun hle hn hsame hbelow hnum hlead
      simp only at hrun hle hn hsame hbelow hnum hlead
      have hlast : f (h z).len = uval % c.base := (hsame _ (Nat.lt_succ_self _)).trans (Function.update_self _ _ _)
      have hlow : ∀ q < (h z).len, f q = (h z).dig q := fun q hq =>
        (hsame q (by omega)).trans (Function.update_of_ne (Nat.ne_of_lt hq) _ _)
      rw [← num_congr hsame, num_succ, hlast, num_congr hlow] at hnum
      refine ⟨n, f, ?_, Nat.le_of_succ_le hle, hn, hlow, fun q h1 h2 => ?_, ?_, fun _ => ?_⟩
      · rw [setDigits_succ hpos hspace, hrun, stored_pushed]
      · rcases Nat.eq_or_lt_of_le h1 with heq | hlt
        · rw [← heq, hlast]
          exact Nat.mod_lt _ c.base_pos
        · exact hbelow q hlt h2
      · rw [hnum]
        conv_rhs => rw [← Nat.mod_add_div uval c.base]
        ring
      · rcases Nat.eq_or_lt_of_le hle with heq | hlt
        · -- this digit was all that was left
          subst heq
          rw [num_succ, hlast, num_congr hlow] at hnum
          have hzero : c.base ^ ((h z).len + 1) * (uval / c.base) = 0 := by omega
          have hrest := (Nat.mul_eq_zero.mp hzero).resolve_left (Nat.pow_pos c.base_pos).ne'
          have hmod := Nat.mod_add_div uval c.base
          rw [hrest, Nat.mul_zero] at hmod
          rw [Nat.add_sub_cancel, hlast]
          omega
        · exact hlead hlt
    · obtain rfl : uval = 0 := by omega
      refine ⟨(h z).len, (h z).dig, ?_, Nat.le_refl _, hlen, fun _ _ => rfl, fun q h1 h2 => absurd h2 (by omega), by ring,
        fun hlt => absurd hlt (Nat.lt_irrefl _)⟩
      rw [setDigits, if_neg hpos]
      refine congrArg (Prod.mk _) ?_
      exact (Function.update_eq_self z h).symm

theorem pow_le_numDigFor (bits : Nat) : 2 ^ bits ≤ c.base ^ c.numDigFor bits := by
  have hb := c.four_le_digSize
  rw [Config.base, ← Nat.pow_mul]
  refine Nat.pow_le_pow_right (by decide) ?_
  have hmod := Nat.mod_add_div (bits + c.digSize - 1) c.digSize
  have hlt := Nat.mod_lt (bits + c.digSize - 1) (show 0 < c.digSize by omega)
  unfold Config.numDigFor
  omega

/-- The sign and the digits of a machine integer, stored from the low end on. -/
theorem setDigits_stored {val : Int} {room : Nat} {h₁ : Heap c ι} (hfixed : (h₁ dest).fixedDig = (h dest).fixedDig)
    (hroom : (h₁ dest).alloc ≤ room) (hothers : ∀ r, r ≠ dest → ¬ Scratch r → h₁ r = h r)
    (hval : val.natAbs < c.base ^ (h₁ dest).alloc) :
    Prog.wp (do
      setNeg dest (val < 0)
      setLen dest 0
      setDigits dest (val.natAbs + 1) val.natAbs : M c ι Unit)
      (fun _ h' => Stored h h' dest val room) (fun e _ => Refused c room e) h₁ := by
  let h₂ := putLen (putNeg h₁ dest (decide (val < 0))) dest 0
  have hself : h₂ dest = { h₁ dest with neg := decide (val < 0), len := 0 } := by
    show putLen _ _ _ _ = _
    rw [putLen, Function.update_self, putNeg, Function.update_self]
  obtain ⟨n, f, hrun, -, hn, -, hbelow, hnum, hlead⟩ := setDigits_spec (h := h₂) (z := dest) (Nat.lt_succ_self val.natAbs)
    (by rw [hself]; exact hval) (by rw [hself]; exact Nat.zero_le _)
  rw [hself] at hrun hn hbelow hnum hlead
  simp only [num_zero, Nat.pow_zero, Nat.one_mul, Nat.zero_add] at hrun hn hbelow hnum hlead
  have hstored : stored h₂ dest f n (decide (val < 0)) = stored h₁ dest f n (decide (val < 0)) := by
    show stored (putLen (putNeg _ _ _) _ _) _ _ _ _ = _
    unfold stored putLen putNeg
    simp
  rw [wp_setNeg_bind, wp_setLen_bind]
  unfold Prog.wp
  rw [hrun, hstored]
  refine stored_of hfixed hroom hothers hn ⟨fun q hq => hbelow q (Nat.zero_le q) hq, fun hne => hlead (Nat.pos_of_ne_zero hne)⟩
    (fun hz => ?_) ?_
  · rw [hz, num_zero] at hnum
    exact decide_eq_false (by omega)
  · rw [hnum]
    by_cases hneg : val < 0
    · rw [decide_eq_true hneg]
      show -((val.natAbs : Nat) : Int) = val
      omega
    · rw [decide_eq_false hneg]
      show ((val.natAbs : Nat) : Int) = val
      omega

theorem setZero_gives {room : Nat} (hd : (h dest).alloc ≤ room) :
    Gives (do
      setNeg dest false
      setLen dest 0 : M c ι Unit) h dest 0 room := by
  have hzero : putLen (putNeg h dest false) dest 0 = stored h dest (h dest).dig 0 false := by
    unfold putLen putNeg stored
    simp
  show Stored h (putLen (putNeg h dest false) dest 0) dest 0 room
  rw [hzero]
  exact stored_of rfl hd (fun _ _ _ => rfl) (Nat.zero_le _)
    ⟨fun q hq => absurd hq (Nat.not_lt_zero q), fun hne => absurd rfl hne⟩ (fun _ => rfl) rfl

theorem mpzSetFromInt_gives {val : Int} {room : Nat} (hval : val.natAbs < 2 ^ c.wordBits) (hfixed : (h dest).fixedDig = false)
    (hd : (h dest).alloc ≤ room) (hroom : c.numDigFor c.wordBits + 2 ≤ room) : Gives (mpzSetFromInt dest val) h dest val room := by
  unfold Gives mpzSetFromInt
  by_cases hzero : val = 0
  · rw [if_pos hzero, hzero]
    exact setZero_gives hd
  · rw [if_neg hzero]
    refine Prog.wp_bind.mpr (wp_mpzNeedDig hfixed (by omega) (by omega) fun h' hg => ?_)
    refine setDigits_stored hg.fixed (hg.le hd (by omega) (by omega)) (fun r e _ => hg.others r e) ?_
    calc val.natAbs < 2 ^ c.wordBits := hval
      _ ≤ c.base ^ c.numDigFor c.wordBits := pow_le_numDigFor _
      _ ≤ c.base ^ (h' dest).alloc := Nat.pow_le_pow_right c.base_pos hg.need_le

/-! ## Copies, signs -/

omit [DecidableEq ι] in
theorem Stored.refl {v : Int} {room : Nat} (hv : Holds (h dest) v) (hd : (h dest).alloc ≤ room) : Stored h h dest v room :=
  ⟨hv, rfl, hd, fun _ _ _ => rfl⟩

omit [DecidableEq ι] in
theorem Stored.trans {h₁ h₂ : Heap c ι} {v w : Int} {room : Nat} (h12 : Stored h h₁ dest v room) (h23 : Stored h₁ h₂ dest w room) :
    Stored h h₂ dest w room :=
  ⟨h23.holds, h23.fixed.trans h12.fixed, h23.within, fun r e hr => (h23.others r e hr).trans (h12.others r e hr)⟩

theorem Stored.putNeg {v w : Int} {room : Nat} {b : Bool} (hs : Stored h h' dest v room) (hb : (h' dest).len = 0 → b = false)
    (hw : signed b (h' dest).mag = w) : Stored h (putNeg h' dest b) dest w room := by
  have hself : Mpz.putNeg h' dest b dest = { h' dest with neg := b } := Function.update_self _ _ _
  refine ⟨⟨?_, ?_⟩, ?_, ?_, fun r e hr => ?_⟩
  · rw [hself]
    exact ⟨hs.holds.normal.fits, hs.holds.normal.digits, hb⟩
  · rw [hself]
    exact hw
  · rw [hself]
    exact hs.fixed
  · rw [hself]
    exact hs.within
  · rw [Mpz.putNeg, Function.update_of_ne e]
    exact hs.others r e hr

theorem copyDig_eq {n : Nat} (hr : n ≤ (h r).alloc) (hz : n ≤ (h z).alloc) :
    copyDig r z n h = (.ok (), withDig h r (overlay 0 n (h z).dig (h r).dig)) := by
  refine (if_pos ⟨hr, hz⟩).trans (congrArg (fun f => (Except.ok (), withDig h r f)) (funext fun q => ?_))
  by_cases hq : q < n
  · rw [if_pos hq, overlay_low hq]
  · rw [if_neg hq, overlay_of_not (by omega)]

/-- mpz_set, once there is room. -/
theorem copyInto_eq (hroom : (h z).len ≤ (h dest).alloc) (hz : (h z).len ≤ (h z).alloc) :
    (do
      setNeg dest (← look z MpzT.neg)
      setLen dest (← look z MpzT.len)
      copyDig dest z (← look z MpzT.len) : M c ι Unit) h =
      (.ok (), stored h dest (overlay 0 (h z).len (h z).dig (h dest).dig) (h z).len (h z).neg) := by
  -- the length is the source's, also where it was just stored
  have hlen : (putLen (putNeg h dest (h z).neg) dest (h z).len z).len = (h z).len := by
    by_cases e : z = dest
    · rw [e, putLen_len]
    · rw [putLen, Function.update_of_ne e, putNeg_len]
  have hcopy : copyDig dest z (h z).len (putLen (putNeg h dest (h z).neg) dest (h z).len) =
      (.ok (), stored h dest (overlay 0 (h z).len (h z).dig (h dest).dig) (h z).len (h z).neg) := by
    rw [copyDig_eq (by simpa using hroom) (by simpa using hz), putLen_dig, putLen_dig, putNeg_dig, putNeg_dig, withDig_putLen]
  show copyDig dest z (putLen (putNeg h dest (h z).neg) dest (putNeg h dest (h z).neg z).len z).len
    (putLen (putNeg h dest (h z).neg) dest (putNeg h dest (h z).neg z).len) = _
  rw [putNeg_len, hlen, hcopy]

theorem mpzSet_gives {x : Int} {room : Nat} (hx : Holds (h z) x) (hfixed : (h dest).fixedDig = false) (hd : (h dest).alloc ≤ room)
    (hroom : (h z).len + 2 ≤ room) : Gives (mpzSet dest z) h dest x room := by
  unfold Gives mpzSet
  rw [wp_look_bind]
  refine Prog.wp_bind.mpr (wp_mpzNeedDig hfixed (by omega) (by omega) fun h' hg => ?_)
  have hnz := hg.normal hx.normal
  have hfits : (h' z).len ≤ (h' dest).alloc := by
    rw [hg.len_eq]
    exact hg.need_le
  unfold Prog.wp
  rw [copyInto_eq hfits hnz.fits]
  have hlow : ∀ q < (h' z).len, (h' z).dig q = overlay 0 (h' z).len (h' z).dig (h' dest).dig q := fun q hq => (overlay_low hq).symm
  refine hg.stored ⟨hd, by omega, by omega⟩ hfits (hnz.digits.congr hlow) hnz.zero ?_
  rw [← num_congr hlow]
  exact (hg.holds hx).value

theorem copyTo_gives {x : Int} {room : Nat} (hx : Holds (h z) x) (hfixed : (h dest).fixedDig = false) (hd : (h dest).alloc ≤ room)
    (hroom : (h z).len + 2 ≤ room) : Gives (copyTo dest z) h dest x room := by
  unfold copyTo
  by_cases e : dest = z
  · rw [if_neg (not_not.mpr e)]
    exact Stored.refl (e ▸ hx) hd
  · rw [if_pos e]
    exact mpzSet_gives hx hfixed hd hroom

theorem mpzAbsInpl_gives {x : Int} {room : Nat} (hx : Holds (h z) x) (hfixed : (h dest).fixedDig = false) (hd : (h dest).alloc ≤ room)
    (hroom : (h z).len + 2 ≤ room) : Gives (mpzAbsInpl dest z) h dest |x| room := by
  refine Prog.wp_then (copyTo_gives hx hfixed hd hroom) (fun _ h' hs => ?_) fun _ _ he => he
  rw [wp_setNeg]
  refine hs.putNeg (fun _ => rfl) ?_
  rw [← hs.holds.value]
  exact signed_abs _ _

theorem mpzNegInpl_gives {x : Int} {room : Nat} (hx : Holds (h z) x) (hfixed : (h dest).fixedDig = false) (hd : (h dest).alloc ≤ room)
    (hroom : (h z).len + 2 ≤ room) : Gives (mpzNegInpl dest z) h dest (-x) room := by
  refine Prog.wp_then (copyTo_gives hx hfixed hd hroom) (fun _ h' hs => ?_) fun _ _ he => he
  rw [wp_look_bind]
  by_cases hlen : (h' dest).len = 0
  · -- zero has no sign to change
    have hzero : x = 0 := by
      rw [← hs.holds.value, MpzT.value, MpzT.mag, hlen, num_zero, signed_zero]
    rw [if_neg (not_not.mpr hlen), Prog.wp_pure, show -x = x by omega]
    exact hs
  · rw [if_pos hlen, wp_look_bind, wp_setNeg]
    refine hs.putNeg (fun e => absurd e hlen) ?_
    rw [signed_not, ← hs.holds.value]
    rfl

/-! ## Complement -/

theorem natAbs_signed (b : Bool) (m : Nat) : (signed b m).natAbs = m := by
  cases b with
  | false => exact Int.natAbs_natCast m
  | true => exact (Int.natAbs_neg _).trans (Int.natAbs_natCast m)

theorem Holds.mag {y : MpzT c} {x : Int} (hy : Holds y x) : y.mag = x.natAbs := by
  rw [← hy.value, MpzT.value, natAbs_signed]

theorem Holds.len_eq {y z : MpzT c} {x : Int} (hy : Holds y x) (hz : Holds z x) : y.len = z.len :=
  Nat.le_antisymm (len_le_of_mag_le hy.normal hz.normal (Nat.le_of_eq (hy.mag.trans hz.mag.symm)))
    (len_le_of_mag_le hz.normal hy.normal (Nat.le_of_eq (hz.mag.trans hy.mag.symm)))

theorem putNeg_self (b : Bool) : putNeg h dest b dest = { h dest with neg := b } := Function.update_self _ _ _

/-- The digit 1 in the function's own memory. -/
def withOne (h : Heap c ι) : Heap c ι := Function.update h (.temp .k) (.ofDig 1)

theorem withOne_of_not {r : Ref ι} (hr : ¬ Scratch r) : withOne h r = h r := Function.update_of_ne (fun e => hr (.inl e)) _ _

theorem withOne_k : withOne h (.temp .k) = .ofDig 1 := Function.update_self _ _ _

theorem ofDig_normal : Digits.Normal c.base (MpzT.ofDig (c := c) 1).dig 1 ∧ num c.base (MpzT.ofDig (c := c) 1).dig 1 = 1 := by
  refine ⟨⟨fun q _ => c.one_lt_base, fun _ => Nat.one_ne_zero⟩, ?_⟩
  rw [num_succ, num_zero]
  simp [MpzT.ofDig]

theorem wp_addOne {β : Type} {k : Nat → M c ι β} {Q : β → Heap c ι → Prop} {R : Fault → Heap c ι → Prop} (hd : (h dest).Normal)
    (hscratch : ¬ Scratch dest) (hlen : (h dest).len ≠ 0) (hroom : (h dest).mag + 1 < c.base ^ (h dest).alloc)
    (hk : ∀ n f, n ≤ (h dest).alloc → Digits.Normal c.base f n → num c.base f n = (h dest).mag + 1 →
      Prog.wp (k n) Q R (withDig (withOne h) dest f)) :
    Prog.wp (mpnAdd dest dest (h dest).len (.temp .k) 1 >>= k) Q R (withOne h) := by
  have hdest : withOne h dest = h dest := withOne_of_not hscratch
  refine wp_makes (v := (h dest).mag + 1) ?_ fun n f hn hf hnum => hk n f (hdest ▸ hn) hf hnum
  have hdigits : Digits.Normal c.base (withOne h dest).dig (h dest).len := hdest ▸ hd.digits
  have hfits : (h dest).len ≤ (withOne h dest).alloc := hdest ▸ hd.fits
  have hone : Digits.Normal c.base (withOne h (.temp .k)).dig 1 := withOne_k (h := h) ▸ ofDig_normal.1
  have hadd := mpnAdd_spec hdigits hone (by omega) hfits (by rw [withOne_k]; exact Nat.le_refl 1) hfits
    (by rw [hdest, withOne_k, ofDig_normal.2]; exact hroom)
  rw [hdest, withOne_k, ofDig_normal.2] at hadd
  exact hadd

theorem wp_subOne {β : Type} {k : Nat → M c ι β} {Q : β → Heap c ι → Prop} {R : Fault → Heap c ι → Prop} (hd : (h dest).Normal)
    (hscratch : ¬ Scratch dest) (hlen : (h dest).len ≠ 0)
    (hk : ∀ n f, n ≤ (h dest).alloc → Digits.Normal c.base f n → num c.base f n = (h dest).mag - 1 →
      Prog.wp (k n) Q R (withDig (withOne h) dest f)) :
    Prog.wp (mpnSub dest dest (h dest).len (.temp .k) 1 >>= k) Q R (withOne h) := by
  have hdest : withOne h dest = h dest := withOne_of_not hscratch
  have hpos : 1 ≤ (h dest).mag := Nat.pos_of_ne_zero (mt (hd.digits.num_eq_zero c.base_pos).mp hlen)
  refine wp_makes (v := (h dest).mag - 1) ?_ fun n f hn hf hnum => hk n f (hdest ▸ hn) hf hnum
  have hdigits : ∀ q < (h dest).len, (withOne h dest).dig q < c.base := hdest ▸ hd.digits.below
  have hfits : (h dest).len ≤ (withOne h dest).alloc := hdest ▸ hd.fits
  have hone : ∀ q < 1, (withOne h (.temp .k)).dig q < c.base := withOne_k (h := h) ▸ ofDig_normal.1.below
  have hsub := mpnSub_spec hdigits hone (by omega) hfits (by rw [withOne_k]; exact Nat.le_refl 1) hfits
    (by rw [hdest, withOne_k, ofDig_normal.2]; exact hpos)
  rw [hdest, withOne_k, ofDig_normal.2] at hsub
  exact hsub

theorem mpzNotInpl_gives {x : Int} {room : Nat} (hx : Holds (h z) x) (hfixed : (h dest).fixedDig = false)
    (hscratch : ¬ Scratch dest) (hd : (h dest).alloc ≤ room) (hroom : (h z).len + 2 ≤ room) :
    Gives (mpzNotInpl dest z) h dest (-x - 1) room := by
  refine Prog.wp_then (copyTo_gives hx hfixed hd hroom) (fun _ h' hs => ?_) fun _ _ he => he
  have hnd := hs.holds.normal
  have hfixed' : (h' dest).fixedDig = false := hs.fixed.trans hfixed
  have hvalue : signed (h' dest).neg (h' dest).mag = x := hs.holds.value
  rw [wp_look_bind]
  by_cases hlen : (h' dest).len = 0
  · rw [if_pos hlen]
    refine Prog.wp_bind.mpr (wp_mpzNeedDig hfixed' (by omega) (by omega) fun h'' hg => ?_)
    have hwrite := writeDig_of_lt (h := h'') (i := dest) (p := 0) (x := 1) hg.need_le
    have hdigit : ∀ q < 1, Function.update (h'' dest).dig 0 (c.dig 1) q = 1 := by
      intro q hq
      obtain rfl : q = 0 := by omega
      rw [Function.update_self, Config.dig_of_lt c.one_lt_base]
    have hzero : x = 0 := by rw [← hvalue, MpzT.mag, hlen, num_zero, signed_zero]
    unfold Prog.wp
    rw [Prog.bind_of_ok hwrite]
    show Stored h (putNeg (putLen _ dest 1) dest true) dest _ room
    rw [putNeg_putLen]
    refine hs.trans (hg.stored ⟨hs.within, by omega, by omega⟩ hg.need_le ?_ (fun e => absurd e Nat.one_ne_zero) ?_)
    · exact ⟨fun q hq => (hdigit q hq).symm ▸ c.one_lt_base, fun _ => (hdigit 0 Nat.one_pos).symm ▸ Nat.one_ne_zero⟩
    · rw [num_congr hdigit, num_succ, num_zero, hzero]
      rfl
  · rw [if_neg hlen, wp_look_bind]
    have hpos : (h' dest).mag ≠ 0 := mt (hnd.digits.num_eq_zero c.base_pos).mp hlen
    cases hneg : (h' dest).neg with
    | true =>
      have hnormal : (putNeg h' dest false dest).Normal := by
        rw [putNeg_self]
        exact ⟨hnd.fits, hnd.digits, fun _ => rfl⟩
      show Prog.wp (mpnSub dest dest (withOne (putNeg h' dest false) dest).len (.temp .k) 1 >>= _) _ _ (withOne (putNeg h' dest false))
      rw [withOne_of_not hscratch]
      refine wp_subOne hnormal hscratch (by rwa [putNeg_len]) fun n f hn hf hnum => ?_
      rw [wp_setLen, putLen_withDig, withOne_of_not hscratch, putNeg_self]
      refine hs.trans (stored_of ?_ ?_ (fun r e hr => ?_) ?_ hf (fun _ => rfl) ?_)
      · rw [withOne_of_not hscratch, putNeg_self]
      · rw [withOne_of_not hscratch, putNeg_self]
        exact hs.within
      · rw [withOne_of_not hr, putNeg, Function.update_of_ne e]
      · rwa [withOne_of_not hscratch]
      · rw [putNeg_self] at hnum
        change num c.base f n = (h' dest).mag - 1 at hnum
        rw [hneg] at hvalue
        change -((h' dest).mag : Int) = x at hvalue
        rw [hnum]
        show ((_ - 1 : Nat) : Int) = _
        omega
    | false =>
      rw [if_neg Bool.false_ne_true, wp_look_bind]
      have hlen' : (h' dest).len = (h z).len := hs.holds.len_eq hx
      refine Prog.wp_bind.mpr (wp_mpzNeedDig hfixed' (by omega) (by omega) fun h'' hg => ?_)
      show Prog.wp (mpnAdd dest dest (withOne h'' dest).len (.temp .k) 1 >>= _) _ _ (withOne h'')
      rw [withOne_of_not hscratch]
      refine wp_addOne (hg.normal hnd) hscratch (by rwa [hg.len_eq]) ?_ fun n f hn hf hnum => ?_
      · have hlt := hnd.mag_lt
        rw [hg.mag_eq hnd]
        calc (h' dest).mag + 1 ≤ c.base ^ (h' dest).len := hlt
          _ < c.base ^ (h'' dest).alloc := Nat.pow_lt_pow_right c.one_lt_base hg.need_le
      · rw [wp_setLen_bind, wp_setNeg, putNeg_putLen]
        refine hs.trans (stored_of ?_ ?_ (fun r e hr => ?_) ?_ hf (fun e => ?_) ?_)
        · rw [withOne_of_not hscratch, hg.fixed]
        · rw [withOne_of_not hscratch]
          exact hg.le hs.within (by omega) (by omega)
        · rw [withOne_of_not hr, hg.others r e]
        · rwa [withOne_of_not hscratch]
        · rw [e, num_zero] at hnum
          omega
        · rw [hneg] at hvalue
          change ((h' dest).mag : Int) = x at hvalue
          rw [hnum, hg.mag_eq hnd]
          show -((_ + 1 : Nat) : Int) = _
          omega

/-! ## Shift to the left -/

theorem mpzShlInpl_gives {x : Int} {n room : Nat} (hx : Holds (h lhs) x) (hn : n < 2 ^ (c.wordBits - 1))
    (hfixed : (h dest).fixedDig = false) (hd : (h dest).alloc ≤ room) (hroom : (h lhs).len + n + 2 ≤ room) :
    Gives (mpzShlInpl dest lhs n) h dest (x * 2 ^ n) room := by
  unfold Gives mpzShlInpl
  rw [wp_look_bind]
  by_cases hzero : (h lhs).len = 0 ∨ n = 0
  · rw [if_pos hzero]
    have hsame : x * 2 ^ n = x := by
      rcases hzero with hlen | rfl
      · have hmag := hx.mag
        rw [MpzT.mag, hlen, num_zero] at hmag
        rw [Int.natAbs_eq_zero.mp hmag.symm, Int.zero_mul]
      · rw [Int.pow_zero, Int.mul_one]
    rw [hsame]
    exact mpzSet_gives hx hfixed hd (by omega)
  · obtain ⟨hlen, hpos⟩ := not_or.mp hzero
    have hword : n + c.digSize ≤ 2 ^ c.wordBits := by
      have hdig : c.digSize < 2 ^ (c.wordBits - 1) :=
        Nat.lt_of_le_of_lt (Nat.le_sub_one_of_lt c.digSize_lt_wordBits) Nat.lt_two_pow_self
      have hdouble : 2 ^ c.wordBits = 2 ^ (c.wordBits - 1) * 2 := by
        rw [← Nat.pow_succ, Nat.succ_eq_add_one, Nat.sub_add_cancel (Nat.one_le_of_lt c.digSize_lt_wordBits)]
      omega
    obtain ⟨w, p, hw, -, hp, hsplit⟩ := shl_split (c := c) (Nat.pos_of_ne_zero hpos) hword
    have hneed : w + 1 ≤ n + 1 := by
      have := Nat.le_mul_of_pos_left w (show 0 < c.digSize by have := c.four_le_digSize; omega)
      omega
    rw [if_neg hzero, wp_look_bind]
    refine Prog.wp_bind.mpr (wp_mpzNeedDig hfixed (by omega) (by omega) fun h' hg => ?_)
    have hnl := hg.normal hx.normal
    rw [wp_look_bind]
    refine wp_makes (mpnShl_spec hnl.digits.below (Nat.pos_of_ne_zero hpos) hword hnl.fits ?_) fun m f hm hf hnum => ?_
    · rw [hg.len_eq]
      exact hg.need_le
    · rw [wp_setLen_bind, wp_look_bind, wp_setNeg, putNeg_putLen, putLen_neg, withDig_neg, hg.neg_eq]
      have hmag : num c.base f m = (h lhs).mag * 2 ^ n := by
        rw [hnum, ← hg.mag_eq hx.normal]
        rfl
      refine hg.stored ⟨hd, by omega, by omega⟩ hm hf (fun e => ?_) ?_
      · rw [e, num_zero] at hmag
        have hmag0 : (h lhs).mag = 0 := (Nat.mul_eq_zero.mp hmag.symm).resolve_right (Nat.two_pow_pos n).ne'
        exact absurd ((hx.normal.digits.num_eq_zero c.base_pos).mp hmag0) hlen
      · have hmul := signed_mul (h lhs).neg false (h lhs).mag (2 ^ n)
        rw [Bool.bne_false] at hmul
        rw [hmag, hmul, ← hx.value]
        exact congrArg (_ * ·) (Nat.cast_pow 2 n)

/-! ## Multiplication -/

theorem mpzMulApart_gives {x y : Int} {room : Nat} (hx : Holds (h lhs) x) (hy : Holds (h rhs) y) (hx0 : (h lhs).len ≠ 0)
    (hy0 : (h rhs).len ≠ 0) (hl : lhs ≠ dest) (hr : rhs ≠ dest) (hfixed : (h dest).fixedDig = false)
    (hd : (h dest).alloc ≤ room) (hroom : (h lhs).len + (h rhs).len ≤ room) :
    Gives (mpzMulApart dest lhs rhs) h dest (x * y) room := by
  unfold Gives mpzMulApart
  rw [wp_look_bind, wp_look_bind]
  refine Prog.wp_bind.mpr (wp_mpzNeedDig hfixed (by omega) (by omega) fun h' hg => ?_)
  have hzero := zeroDig_eq (h := h') (i := dest) (n := (h' dest).alloc) (Nat.le_refl _)
  have hlh : paint h' dest 0 (h' dest).alloc (fun _ => 0) lhs = h lhs := (withDig_of_ne hl).trans (hg.others lhs hl)
  have hrh : paint h' dest 0 (h' dest).alloc (fun _ => 0) rhs = h rhs := (withDig_of_ne hr).trans (hg.others rhs hr)
  rw [wp_look_bind]
  unfold Prog.wp
  rw [Prog.bind_of_ok hzero]
  show Prog.wp (mpnMul dest lhs (paint h' dest 0 (h' dest).alloc (fun _ => 0) lhs).len rhs
    (paint h' dest 0 (h' dest).alloc (fun _ => 0) rhs).len >>= _) _ _ _
  refine wp_makes (mpnMul_spec hl hr ?_ ?_ ?_ ?_ ?_ ?_ ?_ fun q hq => ?_) fun n f hn hf hnum => ?_
  · rw [hlh]
    exact hx.normal.digits
  · rwa [hlh]
  · rw [hlh]
    exact hx.normal.fits
  · rw [hrh]
    exact hy.normal.digits
  · rwa [hrh]
  · rw [hrh]
    exact hy.normal.fits
  · rw [hlh, hrh, paint_alloc]
    exact hg.need_le
  · rw [paint_alloc] at hq
    exact paint_dig_low hq
  · have hmag : num c.base f n = (h lhs).mag * (h rhs).mag := by
      rw [hnum, hlh, hrh]
      rfl
    have hl0 : (h lhs).mag ≠ 0 := mt (hx.normal.digits.num_eq_zero c.base_pos).mp hx0
    have hr0 : (h rhs).mag ≠ 0 := mt (hy.normal.digits.num_eq_zero c.base_pos).mp hy0
    have hback : withDig (paint h' dest 0 (h' dest).alloc fun _ => 0) dest f = withDig h' dest f := withDig_withDig _ _
    rw [hback, wp_setLen_bind, wp_look_bind, wp_look_bind, wp_setNeg, putNeg_putLen, putLen_neg, putLen_neg, withDig_neg, withDig_neg,
      hg.neg_eq, hg.neg_eq]
    rw [paint_alloc] at hn
    refine hg.stored ⟨hd, by omega, by omega⟩ hn hf (fun e => ?_) ?_
    · rw [e, num_zero] at hmag
      exact absurd hmag.symm (Nat.mul_ne_zero hl0 hr0)
    · rw [hmag, signed_mul, ← hx.value, ← hy.value]
      rfl

/-- A clone holds what its source does. -/
structure Cloned (h h' : Heap c ι) (t : Temp) (z : Ref ι) (x : Int) : Prop where
  others : ∀ r, r ≠ .temp t → h' r = h r
  holds : Holds (h' (.temp t)) x
  len : (h' (.temp t)).len = (h z).len
  alloc : (h' (.temp t)).alloc = (h z).alloc
  fixed : (h' (.temp t)).fixedDig = false

theorem mpzClone_gives {t : Temp} {x : Int} {room : Nat} (hz : Holds (h z) x) (hlen : (h z).len ≠ 0) (hroom : (h z).alloc ≤ room) :
    Prog.wp (mpzClone t z) (fun r h' => r = .temp t ∧ Cloned h h' t z x) (fun e _ => Refused c room e) h := by
  have halloc : (h z).alloc ≠ 0 := by
    have := hz.normal.fits
    omega
  unfold mpzClone
  rw [wp_look_bind, decide_eq_true halloc]
  show Prog.wp (if c.granted (h z).alloc = true then _ else _) _ _ h
  by_cases hgrant : c.granted (h z).alloc = true
  · rw [if_pos hgrant]
    have hself : Function.update h (.temp t) { h z with fixedDig := false } (.temp t) = { h z with fixedDig := false } :=
      Function.update_self _ _ _
    show _ ∧ Cloned h (Function.update h (.temp t) { h z with fixedDig := false }) t z x
    refine ⟨rfl, fun r e => Function.update_of_ne e _ _, ?_, ?_, ?_, ?_⟩
    · rw [hself]
      exact ⟨⟨hz.normal.fits, hz.normal.digits, hz.normal.zero⟩, hz.value⟩
    · rw [hself]
    · rw [hself]
    · rw [hself]
  · rw [if_neg hgrant]
    exact ⟨rfl, _, hroom, by simpa using hgrant⟩

omit [DecidableEq ι] in
theorem Stored.of_scratch {h₁ : Heap c ι} {v : Int} {room : Nat} {t : Temp} (hs : Stored h₁ h' dest v room) (hsd : ¬ Scratch dest)
    (ht : Scratch (.temp t : Ref ι)) (hsame : ∀ r, r ≠ .temp t → h₁ r = h r) : Stored h h' dest v room := by
  have hne : ∀ {r : Ref ι}, ¬ Scratch r → r ≠ .temp t := fun hr e => hr (e ▸ ht)
  refine ⟨hs.holds, ?_, hs.within, fun r e hr => (hs.others r e hr).trans (hsame r (hne hr))⟩
  rw [hs.fixed, hsame dest (hne hsd)]

theorem mpzMulInpl_gives {x y : Int} {room : Nat} (hx : Holds (h lhs) x) (hy : Holds (h rhs) y) (hfixed : (h dest).fixedDig = false)
    (hsl : ¬ Scratch lhs) (hsr : ¬ Scratch rhs) (hsd : ¬ Scratch dest) (hd : (h dest).alloc ≤ room)
    (hroom : (h lhs).len + (h rhs).len ≤ room) : Gives (mpzMulInpl dest lhs rhs) h dest (x * y) room := by
  have ht : Scratch (.temp .mulTemp : Ref ι) := .inr rfl
  have hne : ∀ {r : Ref ι}, ¬ Scratch r → r ≠ .temp .mulTemp := fun hr e => hr (e ▸ ht)
  have hmag0 : ∀ {r : Ref ι} {v : Int}, Holds (h r) v → (h r).len = 0 → v = 0 := by
    intro r v hv hlen
    have hmag := hv.mag
    rw [MpzT.mag, hlen, num_zero] at hmag
    exact Int.natAbs_eq_zero.mp hmag.symm
  unfold Gives mpzMulInpl
  rw [wp_look_bind, wp_look_bind]
  by_cases hzero : (h lhs).len = 0 ∨ (h rhs).len = 0
  · rw [if_pos hzero]
    have hprod : x * y = 0 := by
      rcases hzero with hl | hr
      · rw [hmag0 hx hl, Int.zero_mul]
      · rw [hmag0 hy hr, Int.mul_zero]
    rw [hprod]
    exact setZero_gives hd
  · obtain ⟨hx0, hy0⟩ := not_or.mp hzero
    rw [if_neg hzero]
    by_cases hld : lhs = dest
    · subst hld
      rw [if_pos rfl]
      refine Prog.wp_then (mpzClone_gives hx hx0 hd) (fun _ h' hclone => ?_) fun _ _ he => he
      obtain ⟨rfl, hsame, htemp, hlen, -, -⟩ := hclone
      have hdest : h' lhs = h lhs := hsame lhs (hne hsd)
      refine Prog.wp_mono ?_ (fun _ _ hs => Stored.of_scratch hs hsd ht hsame) fun _ _ he => he
      by_cases hrd : rhs = lhs
      · subst hrd
        have hxy := hx.value.symm.trans hy.value
        rw [if_pos rfl, ← hxy]
        exact mpzMulApart_gives htemp htemp (by rwa [hlen]) (by rwa [hlen]) (hne hsd).symm (hne hsd).symm (by rwa [hdest])
          (by rwa [hdest]) (by rwa [hlen])
      · have hrhs : h' rhs = h rhs := hsame rhs (hne hsr)
        rw [if_neg hrd]
        exact mpzMulApart_gives htemp (hrhs ▸ hy) (by rwa [hlen]) (by rwa [hrhs]) (hne hsd).symm hrd (by rwa [hdest])
          (by rwa [hdest]) (by rwa [hlen, hrhs])
    · rw [if_neg hld]
      by_cases hrd : rhs = dest
      · subst hrd
        rw [if_pos rfl]
        refine Prog.wp_then (mpzClone_gives hy hy0 hd) (fun _ h' hclone => ?_) fun _ _ he => he
        obtain ⟨rfl, hsame, htemp, hlen, -, -⟩ := hclone
        have hdest : h' rhs = h rhs := hsame rhs (hne hsd)
        have hlhs : h' lhs = h lhs := hsame lhs (hne hsl)
        refine Prog.wp_mono ?_ (fun _ _ hs => Stored.of_scratch hs hsd ht hsame) fun _ _ he => he
        exact mpzMulApart_gives (hlhs ▸ hx) htemp (by rwa [hlhs]) (by rwa [hlen]) hld (hne hsd).symm (by rwa [hdest])
          (by rwa [hdest]) (by rwa [hlen, hlhs])
      · rw [if_neg hrd]
        exact mpzMulApart_gives hx hy hx0 hy0 hld hrd hfixed hd hroom

/-! ## The operations together -/

/-- Room for whatever the operations ask for. -/
def roomFor (h : Heap c ι) (dest lhs rhs : Ref ι) (n : Nat) : Nat := (h dest).alloc + (h lhs).alloc + (h rhs).alloc + n + 2

/-- Sum, difference, product, negation, absolute value, complement and left shift, whichever of the
three places are one object. A shift count is a non-negative `mp_int_t`. -/
theorem mpz_inpl_exact {n : Nat} (hl : (h lhs).Normal) (hr : (h rhs).Normal) (hfixed : (h dest).fixedDig = false)
    (hsl : ¬ Scratch lhs) (hsr : ¬ Scratch rhs) (hsd : ¬ Scratch dest) (hn : n < 2 ^ (c.wordBits - 1)) :
    Gives (mpzAddInpl dest lhs rhs) h dest ((h lhs).value + (h rhs).value) (roomFor h dest lhs rhs n) ∧
      Gives (mpzSubInpl dest lhs rhs) h dest ((h lhs).value - (h rhs).value) (roomFor h dest lhs rhs n) ∧
      Gives (mpzMulInpl dest lhs rhs) h dest ((h lhs).value * (h rhs).value) (roomFor h dest lhs rhs n) ∧
      Gives (mpzNegInpl dest lhs) h dest (-(h lhs).value) (roomFor h dest lhs rhs n) ∧
      Gives (mpzAbsInpl dest lhs) h dest |(h lhs).value| (roomFor h dest lhs rhs n) ∧
      Gives (mpzNotInpl dest lhs) h dest (-(h lhs).value - 1) (roomFor h dest lhs rhs n) ∧
      Gives (mpzShlInpl dest lhs n) h dest ((h lhs).value * 2 ^ n) (roomFor h dest lhs rhs n) := by
  have hx : Holds (h lhs) (h lhs).value := ⟨hl, rfl⟩
  have hy : Holds (h rhs) (h rhs).value := ⟨hr, rfl⟩
  have hfl := hl.fits
  have hfr := hr.fits
  have hd : (h dest).alloc ≤ roomFor h dest lhs rhs n := by
    unfold roomFor
    omega
  have hroom : (h lhs).len + (h rhs).len + n + 2 ≤ roomFor h dest lhs rhs n := by
    unfold roomFor
    omega
  refine ⟨?_, ?_, ?_, ?_, ?_, ?_, ?_⟩
  · exact mpzAddInpl_gives hx hy hfixed hd (by omega)
  · exact mpzSubInpl_gives hx hy hfixed hd (by omega)
  · exact mpzMulInpl_gives hx hy hfixed hsl hsr hsd hd (by omega)
  · exact mpzNegInpl_gives hx hfixed hd (by omega)
  · exact mpzAbsInpl_gives hx hfixed hd (by omega)
  · exact mpzNotInpl_gives hx hfixed hsd hd (by omega)
  · exact mpzShlInpl_gives hx hn hfixed hd (by omega)

def sh4 : Config := .sh4 fun _ _ => 0xffff

theorem two_granted : 2 < 2 ^ (sh4.wordBits - 2) := by decide

/-- `-(2 ** 16 + 1)` and `2 ** 16 - 1`. -/
def twoObjects : Heap sh4 Bool
  | .obj true => ⟨true, false, 2, 2, fun _ => 1, two_granted⟩
  | .obj false => ⟨false, false, 2, 1, fun _ => 0xffff, two_granted⟩
  | .temp _ => initZero

theorem twoObjects_normal (b : Bool) : (twoObjects (.obj b)).Normal := by
  cases b with
  | true => exact ⟨by decide, ⟨fun _ _ => (by decide : 1 < sh4.base), fun _ => by decide⟩, by decide⟩
  | false => exact ⟨by decide, ⟨fun _ _ => (by decide : 0xffff < sh4.base), fun _ => by decide⟩, by decide⟩

theorem mpz_inpl_exact_accumulate : (twoObjects (.obj true)).value = -65537 ∧
    Gives (mpzAddInpl (.obj true) (.obj true) (.obj false)) twoObjects (.obj true) (-65537 + 65535)
      (roomFor twoObjects (.obj true) (.obj true) (.obj false) 3) :=
  ⟨by decide, (mpz_inpl_exact (n := 3) (twoObjects_normal true) (twoObjects_normal false) rfl (fun e => by cases e <;> contradiction)
    (fun e => by cases e <;> contradiction) (fun e => by cases e <;> contradiction) (by decide)).1⟩

end PythonUltra.Py.Mpz
