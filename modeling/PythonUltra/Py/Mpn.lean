/-
  PythonUltra.Py.Mpn — what the digit passes of mpz.c compute.

  A pass stores a digit at a position after reading there and above, so it may run over
  its own operands: `sweep_eq` says what it leaves, and asks of the body only what it does
  where the digits below have been overwritten. The functions on numbers without a sign
  follow, each with the number it makes; they hold for operands in any places, the
  destination included.
-/

import PythonUltra.Py.Mpz
import PythonUltra.Lib.Digits

namespace PythonUltra.Py.Mpz

open PythonUltra.Lib PythonUltra.Lib.Digits

variable {ι α : Type} [DecidableEq ι] {c : Config} {h : Heap c ι} {i j k r : Ref ι}

/-! ## Machine arithmetic -/

namespace Config

variable (c)

theorem base_pos : 0 < c.base := Nat.two_pow_pos _

theorem one_lt_base : 1 < c.base := Nat.one_lt_two_pow (by have := c.four_le_digSize; omega)

theorem base_le_dig : c.base ≤ 2 ^ c.digBits := Nat.pow_le_pow_right (by decide) c.digSize_le_digBits

theorem base_sq_le_dbl : c.base * c.base ≤ 2 ^ c.dblBits := by
  rw [base, ← Nat.pow_add]
  exact Nat.pow_le_pow_right (by decide) (by have := c.two_digSize_le_dblBits; omega)

variable {c}

theorem dig_of_lt {d : Nat} (h : d < c.base) : c.dig d = d := Nat.mod_eq_of_lt (Nat.lt_of_lt_of_le h c.base_le_dig)

theorem dbl_of_lt {x : Nat} (h : x < c.base * c.base) : c.dbl x = x :=
  Nat.mod_eq_of_lt (Nat.lt_of_lt_of_le h c.base_sq_le_dbl)

theorem and_mask (x : Nat) : x &&& c.mask = x % c.base := Nat.and_two_pow_sub_one_eq_mod x c.digSize

theorem shiftRight_digSize (x : Nat) : x >>> c.digSize = x / c.base := Nat.shiftRight_eq_div_pow x c.digSize

theorem mask_eq : c.mask = c.base - 1 := rfl

theorem sdbl_of_bounds {x : Int} (hl : -(c.base * 2 : Nat) ≤ x) (hu : x < (c.base * 2 : Nat)) : c.sdbl x = x := by
  have hsq := c.base_sq_le_dbl
  have hfour : 16 ≤ c.base := Nat.pow_le_pow_right (n := 2) (by decide) c.four_le_digSize
  have hbase := Nat.mul_le_mul_left c.base hfour
  exact Int.bmod_eq_of_le (by omega) (by omega)

theorem int_shiftRight_digSize (x : Int) : x >>> c.digSize = x / c.base := Int.shiftRight_eq_div_pow x c.digSize

end Config

/-! ## Digits in memory -/

/-- `r` with other digits. -/
def withDig (h : Heap c ι) (r : Ref ι) (f : Nat → Nat) : Heap c ι := Function.update h r { h r with dig := f }

/-- `r` with the digits `d` at `n` positions from `p` on. -/
def paint (h : Heap c ι) (r : Ref ι) (p n : Nat) (d : Nat → Nat) : Heap c ι := withDig h r (overlay p n d (h r).dig)

@[simp] theorem withDig_self (f : Nat → Nat) : withDig h r f r = { h r with dig := f } := Function.update_self _ _ _

theorem withDig_of_ne {f : Nat → Nat} (e : r ≠ i) : withDig h i f r = h r := Function.update_of_ne e _ _

@[simp] theorem withDig_alloc (f : Nat → Nat) : (withDig h i f r).alloc = (h r).alloc := by
  by_cases e : r = i
  · subst e
    rw [withDig_self]
  · rw [withDig_of_ne e]

@[simp] theorem withDig_neg (f : Nat → Nat) : (withDig h i f r).neg = (h r).neg := by
  by_cases e : r = i
  · subst e
    rw [withDig_self]
  · rw [withDig_of_ne e]

@[simp] theorem withDig_withDig (f g : Nat → Nat) : withDig (withDig h i f) i g = withDig h i g := by
  unfold withDig
  rw [Function.update_idem, Function.update_self]

theorem withDig_dig_self : withDig h i (h i).dig = h := Function.update_eq_self i h

@[simp] theorem paint_alloc (p n : Nat) (d : Nat → Nat) : (paint h i p n d r).alloc = (h r).alloc := withDig_alloc _

theorem paint_dig_of_not {p n q : Nat} {d : Nat → Nat} (hq : r = i → ¬ (p ≤ q ∧ q < p + n)) :
    (paint h i p n d r).dig q = (h r).dig q := by
  unfold paint
  by_cases e : r = i
  · subst e
    rw [withDig_self]
    exact overlay_of_not (hq rfl)
  · rw [withDig_of_ne e]

@[simp] theorem paint_zero (p : Nat) (d : Nat → Nat) : paint h i p 0 d = h := by
  unfold paint
  rw [overlay_zero, withDig_dig_self]

theorem paint_paint (p m n : Nat) (d : Nat → Nat) : paint (paint h i p m d) i (p + m) n d = paint h i p (m + n) d := by
  unfold paint
  rw [withDig_withDig, withDig_self]
  exact congrArg (withDig h i) (overlay_overlay p m n d _)

theorem paint_low {m n : Nat} {d : Nat → Nat} : paint (paint h i 0 m d) i m n d = paint h i 0 (m + n) d := by
  have hpaint := paint_paint (h := h) (i := i) 0 m n d
  rwa [Nat.zero_add] at hpaint

omit [DecidableEq ι] in
theorem readDig_of_lt {p : Nat} (hp : p < (h r).alloc) : readDig r p h = (.ok ((h r).dig p), h) := if_pos hp

theorem readDig_paint {p n q : Nat} {d : Nat → Nat} (hq : q < (h r).alloc) (hfree : r = i → ¬ (p ≤ q ∧ q < p + n)) :
    readDig r q (paint h i p n d) = (.ok ((h r).dig q), paint h i p n d) := by
  rw [readDig_of_lt (by rwa [paint_alloc]), paint_dig_of_not hfree]

theorem paint_dig_low {m q : Nat} {d : Nat → Nat} (hq : q < m) : (paint h i 0 m d i).dig q = d q := by
  unfold paint
  rw [withDig_self]
  exact overlay_low hq

theorem readDig_low {m q : Nat} {d : Nat → Nat} (hq : q < m) (hm : m ≤ (h i).alloc) :
    readDig i q (paint h i 0 m d) = (.ok (d q), paint h i 0 m d) := by
  rw [readDig_of_lt (by rw [paint_alloc]; omega), paint_dig_low hq]

theorem writeDig_of_lt {p x : Nat} (hp : p < (h i).alloc) :
    writeDig i p x h = (.ok (), withDig h i (Function.update (h i).dig p (c.dig x))) := if_pos hp

theorem writeDig_eq_paint {p x : Nat} {d : Nat → Nat} (hp : p < (h i).alloc) (hd : c.dig x = d p) :
    writeDig i p x h = (.ok (), paint h i p 1 d) := by
  rw [writeDig_of_lt hp, hd]
  refine congrArg (fun f => (Except.ok (), withDig h i f)) (funext fun q => ?_)
  by_cases e : q = p
  · subst e
    rw [Function.update_self, overlay_of_mem (by omega)]
  · rw [Function.update_of_ne e, overlay_of_not (by omega)]

theorem writeDig_paint {p n x : Nat} {d : Nat → Nat} (hp : p + n < (h i).alloc) (hd : c.dig x = d (p + n)) :
    writeDig i (p + n) x (paint h i p n d) = (.ok (), paint h i p (n + 1) d) := by
  rw [writeDig_eq_paint (by rwa [paint_alloc]) hd, paint_paint]

/-- A pass whose state at position `q` is `st q` and whose digit there is `d q`. -/
theorem sweep_eq {o n p : Nat} {body : Nat → α → M c ι (α × Nat)} (st : Nat → α) (d : Nat → Nat)
    (hbody : ∀ q h', p ≤ q → q < p + n → (∀ r, (h' r).alloc = (h r).alloc) →
      (∀ r q', (r = i → o + q ≤ q' ∨ q' < o + p) → (h' r).dig q' = (h r).dig q') → body q (st q) h' = (.ok (st (q + 1), d q), h'))
    (hd : ∀ q, p ≤ q → q < p + n → d q < c.base) (hroom : o + p + n ≤ (h i).alloc) :
    sweep i o body n p (st p) h = (.ok (st (p + n)), paint h i (o + p) n fun q => d (q - o)) := by
  suffices hmid : ∀ m, m ≤ n → sweep i o body (n - m) (p + m) (st (p + m)) (paint h i (o + p) m fun q => d (q - o)) =
      (.ok (st (p + n)), paint h i (o + p) n fun q => d (q - o)) by
    simpa using hmid 0 (Nat.zero_le n)
  intro m hm
  -- from the last position down
  induction hk : n - m generalizing m with
  | zero =>
    obtain rfl : m = n := by omega
    rfl
  | succ k ih =>
    have hstep := hbody (p + m) (paint h i (o + p) m fun q => d (q - o)) (by omega) (by omega) (fun r => paint_alloc _ _ _)
      fun r q' hq => paint_dig_of_not fun e => by have := hq e; omega
    have hwrite : writeDig i (o + (p + m)) (d (p + m)) (paint h i (o + p) m fun q => d (q - o)) =
        (.ok (), paint h i (o + p) (m + 1) fun q => d (q - o)) := by
      rw [← Nat.add_assoc]
      refine writeDig_paint (by omega) ?_
      rw [Config.dig_of_lt (hd (p + m) (by omega) (by omega)), show o + p + m - o = p + m by omega]
    show (body (p + m) (st (p + m)) >>= _) _ = _
    rw [Prog.bind_of_ok hstep]
    show (writeDig i (o + (p + m)) (d (p + m)) >>= _) _ = _
    rw [Prog.bind_of_ok hwrite]
    exact ih (m + 1) (by omega) (by omega)

/-- A heap on the way of a pass over `i`: it has the digits of `h` at `q` and above. -/
structure Above (h h' : Heap c ι) (i : Ref ι) (q : Nat) : Prop where
  alloc : ∀ r, (h' r).alloc = (h r).alloc
  dig : ∀ r q', (r = i → q ≤ q') → (h' r).dig q' = (h r).dig q'

omit [DecidableEq ι] in
theorem Above.readDig {h' : Heap c ι} {q q' : Nat} (ha : Above h h' i q) (hr : q' < (h r).alloc) (hq : r = i → q ≤ q') :
    readDig r q' h' = (.ok ((h r).dig q'), h') := by
  rw [readDig_of_lt (by rwa [ha.alloc]), ha.dig r q' hq]

theorem above_paint (p n : Nat) (d : Nat → Nat) : Above h (paint h i p n d) i (p + n) where
  alloc _ := paint_alloc _ _ _
  dig _ _ hq := paint_dig_of_not fun e => by have := hq e; omega

omit [DecidableEq ι] in
theorem Above.trans {h' h'' : Heap c ι} {p q : Nat} (h1 : Above h h' i p) (h2 : Above h' h'' i q) (hpq : p ≤ q) : Above h h'' i q where
  alloc r := (h2.alloc r).trans (h1.alloc r)
  dig r q' hq := (h2.dig r q' hq).trans (h1.dig r q' fun e => Nat.le_trans hpq (hq e))

theorem sweep_above {o n p : Nat} {body : Nat → α → M c ι (α × Nat)} (st : Nat → α) (d : Nat → Nat)
    (hbody : ∀ q h', p ≤ q → q < p + n → Above h h' i (o + q) → body q (st q) h' = (.ok (st (q + 1), d q), h'))
    (hd : ∀ q, p ≤ q → q < p + n → d q < c.base) (hroom : o + p + n ≤ (h i).alloc) :
    sweep i o body n p (st p) h = (.ok (st (p + n)), paint h i (o + p) n fun q => d (q - o)) := by
  refine sweep_eq st d (fun q h' hp hq halloc hdig => hbody q h' hp hq ⟨halloc, fun r q' e => ?_⟩) hd hroom
  exact hdig r q' fun er => .inl (e er)

theorem sweep_bind {β : Type} {o n p : Nat} {body : Nat → α → M c ι (α × Nat)} {a : α} {f : α → M c ι β} (st : Nat → α)
    (d : Nat → Nat) (ha : a = st p)
    (hbody : ∀ q h', p ≤ q → q < p + n → Above h h' i (o + q) → body q (st q) h' = (.ok (st (q + 1), d q), h'))
    (hd : ∀ q, p ≤ q → q < p + n → d q < c.base) (hroom : o + p + n ≤ (h i).alloc) :
    (sweep i o body n p a >>= f) h = f (st (p + n)) (paint h i (o + p) n fun q => d (q - o)) := by
  subst ha
  exact Prog.bind_of_ok (sweep_above st d hbody hd hroom)

/-- A pass with a carry: position `q` adds `x q`, and no carry is above `m`. -/
theorem carry_bind {β : Type} {o n p : Nat} {body : Nat → Nat → M c ι (Nat × Nat)} {a : Nat} {f : Nat → M c ι β} {x : Nat → Nat}
    {a₀ m : Nat} (d : Nat → Nat) (ha : a = carry c.base x a₀ p) (ha₀ : a₀ ≤ m) (hm : m < c.base)
    (hx : ∀ q < p + n, m + x q < c.base * (m + 1)) (hd : ∀ q < p + n, d q = sumDigit c.base x a₀ q)
    (hbody : ∀ q a h', p ≤ q → q < p + n → Above h h' i (o + q) →
      body q a h' = (.ok (c.dbl (a + x q) >>> c.digSize, c.dbl (a + x q) &&& c.mask), h'))
    (hroom : o + p + n ≤ (h i).alloc) :
    (sweep i o body n p a >>= f) h = f (carry c.base x a₀ (p + n)) (paint h i (o + p) n fun q => d (q - o)) := by
  refine sweep_bind (carry c.base x a₀) d ha (fun q h' hp hq habove => ?_) (fun q _ hq => ?_) hroom
  · have hcarry := carry_le ha₀ hx (Nat.le_of_lt hq)
    have hsmall : carry c.base x a₀ q + x q < c.base * c.base :=
      calc carry c.base x a₀ q + x q ≤ m + x q := Nat.add_le_add_right hcarry _
        _ < c.base * (m + 1) := hx q hq
        _ ≤ c.base * c.base := Nat.mul_le_mul_left _ hm
    rw [hbody q _ h' hp hq habove, Config.dbl_of_lt hsmall, Config.shiftRight_digSize, Config.and_mask, hd q hq]
    rfl
  · rw [hd q hq]
    exact Nat.mod_lt _ c.base_pos

theorem paint_base (p n : Nat) (d : Nat → Nat) : paint h i (0 + p) n (fun q => d (q - 0)) = paint h i p n d := by
  rw [Nat.zero_add]
  rfl

/-! ## Comparing and trimming -/

/-- `x` leaves the number `v` in `i`, within its memory and without leading zeros, gives its
length and changes no other digit. -/
def Makes (x : M c ι Nat) (h : Heap c ι) (i : Ref ι) (v : Nat) : Prop :=
  ∃ n f, x h = (.ok n, withDig h i f) ∧ n ≤ (h i).alloc ∧ Normal c.base f n ∧ num c.base f n = v

omit [DecidableEq ι] in
theorem mpnRemoveTrailingZeros_spec {n : Nat} (hn : n ≤ (h i).alloc) (hdig : ∀ q < n, (h i).dig q < c.base) :
    ∃ m, mpnRemoveTrailingZeros i n h = (.ok m, h) ∧ m ≤ n ∧ Normal c.base (h i).dig m ∧
      num c.base (h i).dig m = num c.base (h i).dig n := by
  induction n with
  | zero => exact ⟨0, rfl, Nat.le_refl 0, ⟨fun q hq => absurd hq (Nat.not_lt_zero q), fun h => absurd rfl h⟩, rfl⟩
  | succ n ih =>
    have hread : readDig i n h = (.ok ((h i).dig n), h) := readDig_of_lt hn
    have hstep : mpnRemoveTrailingZeros i (n + 1) h =
        (if (h i).dig n = 0 then mpnRemoveTrailingZeros i n else pure (n + 1) : M c ι Nat) h := Prog.bind_of_ok hread
    rw [hstep]
    by_cases hzero : (h i).dig n = 0
    · obtain ⟨m, hm, hle, hnormal, hnum⟩ := ih (by omega) fun q hq => hdig q (by omega)
      rw [if_pos hzero]
      refine ⟨m, hm, by omega, hnormal, ?_⟩
      rw [hnum, num_succ, hzero, Nat.zero_mul, Nat.add_zero]
    · rw [if_neg hzero]
      exact ⟨n + 1, rfl, Nat.le_refl _, ⟨hdig, fun _ => hzero⟩, rfl⟩

theorem makes_of_paint {x : M c ι Nat} {d : Nat → Nat} {m n v : Nat} (hx : x h = (.ok n, paint h i 0 m d)) (hnm : n ≤ m)
    (hm : m ≤ (h i).alloc) (hd : Normal c.base d n) (hv : num c.base d n = v) : Makes x h i v := by
  have hlow : ∀ q < n, d q = overlay 0 m d (h i).dig q := fun q hq => (overlay_low (by omega)).symm
  exact ⟨n, _, hx, by omega, hd.congr hlow, (num_congr hlow).symm.trans hv⟩

theorem makes_of_trim {x : M c ι Nat} {d : Nat → Nat} {n v : Nat} (hx : x h = mpnRemoveTrailingZeros i n (paint h i 0 n d))
    (hn : n ≤ (h i).alloc) (hdig : ∀ q < n, d q < c.base) (hv : num c.base d n = v) : Makes x h i v := by
  have hlow : ∀ q < n, (paint h i 0 n d i).dig q = d q := fun q hq => paint_dig_low hq
  obtain ⟨m, hm, hle, hnormal, hnum⟩ := mpnRemoveTrailingZeros_spec (h := paint h i 0 n d) (i := i) (n := n)
    (by rwa [paint_alloc]) fun q hq => hlow q hq ▸ hdig q hq
  refine makes_of_paint (hx.trans hm) hle hn (hnormal.congr fun q hq => hlow q (by omega)) ?_
  rw [← hv, ← num_congr hlow, ← hnum]
  exact num_congr fun q hq => (hlow q (by omega)).symm

/-- What a comparison of `a` with `b` gives. -/
def IsCmp (s : Int) (a b : Nat) : Prop := (s < 0 ↔ a < b) ∧ (0 < s ↔ b < a)

theorem isCmp_of_lt {a b : Nat} (h : a < b) : IsCmp (-1) a b := ⟨by omega, by omega⟩

theorem isCmp_of_gt {a b : Nat} (h : b < a) : IsCmp 1 a b := ⟨by omega, by omega⟩

omit [DecidableEq ι] in
theorem mpnCmpLoop_spec {n : Nat} (hi : n ≤ (h i).alloc) (hj : n ≤ (h j).alloc) (hdi : ∀ q < n, (h i).dig q < c.base)
    (hdj : ∀ q < n, (h j).dig q < c.base) :
    ∃ s, mpnCmpLoop i j n h = (.ok s, h) ∧ IsCmp s (num c.base (h i).dig n) (num c.base (h j).dig n) := by
  induction n with
  | zero => exact ⟨0, rfl, by simp [IsCmp]⟩
  | succ n ih =>
    have hx : readDig i n h = (.ok ((h i).dig n), h) := readDig_of_lt hi
    have hy : readDig j n h = (.ok ((h j).dig n), h) := readDig_of_lt hj
    have hstep : mpnCmpLoop i j (n + 1) h =
        (if c.sdbl ((h i).dig n - (h j).dig n) < 0 then pure (-1)
          else if c.sdbl ((h i).dig n - (h j).dig n) > 0 then pure 1 else mpnCmpLoop i j n : M c ι Int) h := by
      rw [mpnCmpLoop, Prog.bind_of_ok hx, Prog.bind_of_ok hy]
    have hlow : num c.base (h i).dig n < c.base ^ n := num_lt c.base_pos fun q hq => hdi q (by omega)
    have hlow' : num c.base (h j).dig n < c.base ^ n := num_lt c.base_pos fun q hq => hdj q (by omega)
    rw [hstep, Config.sdbl_of_bounds (by have := hdj n (by omega); omega) (by have := hdi n (by omega); omega), num_succ, num_succ]
    rcases Nat.lt_trichotomy ((h i).dig n) ((h j).dig n) with hlt | heq | hgt
    · rw [if_pos (by omega)]
      have hle := Nat.mul_le_mul_right (c.base ^ n) (Nat.succ_le_of_lt hlt)
      rw [Nat.succ_mul] at hle
      exact ⟨-1, rfl, isCmp_of_lt (by omega)⟩
    · obtain ⟨s, hs, hcmp⟩ := ih (by omega) (by omega) (fun q hq => hdi q (by omega)) fun q hq => hdj q (by omega)
      rw [if_neg (by omega), if_neg (by omega), heq]
      refine ⟨s, hs, ?_, ?_⟩
      · rw [hcmp.1, Nat.add_lt_add_iff_right]
      · rw [hcmp.2, Nat.add_lt_add_iff_right]
    · rw [if_neg (by omega), if_pos (by omega)]
      have hle := Nat.mul_le_mul_right (c.base ^ n) (Nat.succ_le_of_lt hgt)
      rw [Nat.succ_mul] at hle
      exact ⟨1, rfl, isCmp_of_gt (by omega)⟩

omit [DecidableEq ι] in
theorem mpnCmp_spec {m n : Nat} (hi : m ≤ (h i).alloc) (hj : n ≤ (h j).alloc) (hni : Normal c.base (h i).dig m)
    (hnj : Normal c.base (h j).dig n) :
    ∃ s, mpnCmp i m j n h = (.ok s, h) ∧ IsCmp s (num c.base (h i).dig m) (num c.base (h j).dig n) := by
  unfold mpnCmp
  rcases Nat.lt_trichotomy m n with hlt | rfl | hgt
  · rw [if_pos hlt]
    exact ⟨-1, rfl, isCmp_of_lt (hni.lt_of_length hnj c.base_pos hlt)⟩
  · rw [if_neg (Nat.lt_irrefl m), if_neg (Nat.lt_irrefl m)]
    exact mpnCmpLoop_spec hi hj hni.below hnj.below
  · rw [if_neg (by omega), if_pos hgt]
    exact ⟨1, rfl, isCmp_of_gt (hnj.lt_of_length hni c.base_pos hgt)⟩

/-! ## Addition and subtraction -/

theorem mpnAdd_spec {jlen klen : Nat} (hj : Normal c.base (h j).dig jlen) (hk : Normal c.base (h k).dig klen)
    (hkj : klen ≤ jlen) (hjl : jlen ≤ (h j).alloc) (hkl : klen ≤ (h k).alloc) (hil : jlen ≤ (h i).alloc)
    (hroom : num c.base (h j).dig jlen + num c.base (h k).dig klen < c.base ^ (h i).alloc) :
    Makes (mpnAdd i j jlen k klen) h i (num c.base (h j).dig jlen + num c.base (h k).dig klen) := by
  have hB := c.one_lt_base
  let x := fun q => (h j).dig q + upTo klen (h k).dig q
  let d := sumDigits c.base x 0 jlen
  have hx : ∀ q < jlen, 1 + x q < c.base * (1 + 1) := by
    intro q hq
    have := hj.below q hq
    have := upTo_lt c.base_pos hk.below q
    show 1 + ((h j).dig q + upTo klen (h k).dig q) < _
    omega
  have hcarry : carry c.base x 0 jlen ≤ 1 := carry_le (Nat.zero_le 1) hx (Nat.le_refl _)
  have hbelow : ∀ q, d q < c.base := sumDigits_lt c.base_pos (by omega)
  have hd : ∀ q < jlen, d q = sumDigit c.base x 0 q := fun q hq => sumDigits_of_lt hq
  have hlast : d jlen = carry c.base x 0 jlen := sumDigits_last x 0 jlen
  have hsum : num c.base d (jlen + 1) = num c.base (h j).dig jlen + num c.base (h k).dig klen := by
    rw [num_sumDigits, Nat.zero_add, num_add_digits, num_upTo _ hkj]
  have hrun : mpnAdd i j jlen k klen h =
      (if carry c.base x 0 jlen ≠ 0 then do
        writeDig i jlen (carry c.base x 0 jlen)
        pure (jlen + 1)
      else pure jlen : M c ι Nat) (paint h i 0 jlen d) := by
    unfold mpnAdd
    refine (carry_bind (x := x) (m := 1) d rfl (Nat.zero_le 1) hB (fun q hq => hx q (by omega)) (fun q hq => hd q (by omega))
      (fun q a h' _ hq habove => ?_) (by omega)).trans ?_
    · have hxq : x q = (h j).dig q + (h k).dig q := congrArg _ (if_pos (by omega))
      have hsmall : x q < c.base * c.base := by
        have := hx q (by omega)
        have := Nat.mul_le_mul_left c.base hB
        omega
      rw [Prog.bind_of_ok (habove.readDig (by omega) fun _ => by omega),
        Prog.bind_of_ok (habove.readDig (by omega) fun _ => by omega), ← hxq, Config.dbl_of_lt hsmall]
      rfl
    rw [paint_base]
    refine (carry_bind (x := x) (m := 1) d (by rw [Nat.zero_add]) (Nat.zero_le 1) hB (fun q hq => hx q (by omega))
      (fun q hq => hd q (by omega)) (fun q a h' hp hq habove => ?_) (by rw [paint_alloc]; omega)).trans ?_
    · have hxq : x q = (h j).dig q := congrArg _ (if_neg (by omega))
      have hfrom := (above_paint (h := h) (i := i) 0 klen d).trans habove (by omega)
      rw [Prog.bind_of_ok (hfrom.readDig (by omega) fun _ => by omega), ← hxq]
      rfl
    rw [paint_base, paint_low, Nat.add_sub_cancel' hkj]
  by_cases hzero : carry c.base x 0 jlen = 0
  · have hvalue : num c.base d jlen = num c.base (h j).dig jlen + num c.base (h k).dig klen := by
      rw [← hsum, num_succ, hlast, hzero, Nat.zero_mul, Nat.add_zero]
    rw [if_neg (not_not.mpr hzero)] at hrun
    refine makes_of_paint hrun (Nat.le_refl _) hil (normal_of_le c.base_pos (fun q _ => hbelow q) fun hne => ?_) hvalue
    exact Nat.le_trans (hj.pow_le hne) (hvalue ▸ Nat.le_add_right _ _)
  · have hone : carry c.base x 0 jlen = 1 := by omega
    have hge : c.base ^ jlen ≤ num c.base d (jlen + 1) := by
      rw [num_succ, hlast, hone, Nat.one_mul]
      exact Nat.le_add_left _ _
    have hspace : jlen < (h i).alloc := (Nat.pow_lt_pow_iff_right hB).mp (by omega)
    have hwrite : writeDig i jlen (carry c.base x 0 jlen) (paint h i 0 jlen d) = (.ok (), paint h i 0 (jlen + 1) d) := by
      rw [writeDig_eq_paint (d := d) (by rwa [paint_alloc]) (by rw [hlast, hone, Config.dig_of_lt hB]), paint_low]
    rw [if_pos hzero, Prog.bind_of_ok hwrite] at hrun
    exact makes_of_paint hrun (Nat.le_refl _) hspace (normal_of_le c.base_pos (fun q _ => hbelow q) fun _ => hge) hsum

theorem mpnSub_spec {jlen klen : Nat} (hj : ∀ q < jlen, (h j).dig q < c.base) (hk : ∀ q < klen, (h k).dig q < c.base)
    (hkj : klen ≤ jlen) (hjl : jlen ≤ (h j).alloc) (hkl : klen ≤ (h k).alloc) (hil : jlen ≤ (h i).alloc)
    (hle : num c.base (h k).dig klen ≤ num c.base (h j).dig jlen) :
    Makes (mpnSub i j jlen k klen) h i (num c.base (h j).dig jlen - num c.base (h k).dig klen) := by
  let x := fun q => ((h j).dig q : Int) - upTo klen (h k).dig q
  let d := diffDigit c.base x 0
  have hx : ∀ q < jlen, -1 * (c.base : Int) ≤ -1 + x q ∧ 0 + x q < (0 + 1) * c.base := by
    intro q hq
    have := hj q hq
    have := upTo_lt c.base_pos hk q
    show _ ≤ -1 + (((h j).dig q : Int) - upTo klen (h k).dig q) ∧ 0 + (((h j).dig q : Int) - upTo klen (h k).dig q) < _
    omega
  have hborrow : ∀ q ≤ jlen, -1 ≤ borrow c.base x 0 q ∧ borrow c.base x 0 q ≤ 0 := fun q hq =>
    borrow_mem (by omega) c.base_pos hx hq
  have hstep : ∀ q < jlen, (c.sdbl (borrow c.base x 0 q + x q) >>> c.digSize, c.lowDig (c.sdbl (borrow c.base x 0 q + x q))) =
      (borrow c.base x 0 (q + 1), d q) := by
    intro q hq
    have hx := hx q hq
    have hb := hborrow q (by omega)
    rw [Config.sdbl_of_bounds (by omega) (by omega), Config.int_shiftRight_digSize]
    rfl
  have hbelow : ∀ q, d q < c.base := diffDigit_lt c.base_pos x 0
  have hrun : mpnSub i j jlen k klen h = mpnRemoveTrailingZeros i jlen (paint h i 0 jlen d) := by
    unfold mpnSub
    refine (sweep_bind (borrow c.base x 0) d rfl (fun q h' _ hq habove => ?_) (fun q _ _ => hbelow q) (by omega)).trans ?_
    · have hxq : x q = (h j).dig q - (h k).dig q := by
        show ((h j).dig q : Int) - upTo klen (h k).dig q = _
        rw [upTo, if_pos (by omega)]
      rw [Prog.bind_of_ok (habove.readDig (by omega) fun _ => by omega),
        Prog.bind_of_ok (habove.readDig (by omega) fun _ => by omega), ← hxq, ← hstep q (by omega)]
      rfl
    rw [paint_base]
    refine (sweep_bind (borrow c.base x 0) d (by rw [Nat.zero_add]) (fun q h' hp hq habove => ?_) (fun q _ _ => hbelow q)
      (by rw [paint_alloc]; omega)).trans ?_
    · have hxq : x q = (h j).dig q := by
        show ((h j).dig q : Int) - upTo klen (h k).dig q = _
        rw [upTo, if_neg (by omega)]
        exact Int.sub_zero _
      have hfrom := (above_paint (h := h) (i := i) 0 klen d).trans habove (by omega)
      rw [Prog.bind_of_ok (hfrom.readDig (by omega) fun _ => by omega), ← hxq, ← hstep q (by omega)]
      rfl
    rw [paint_base, paint_low, Nat.add_sub_cancel' hkj]
  refine makes_of_trim hrun hil (fun q _ => hbelow q) ?_
  have hnum : ((num c.base d jlen : Nat) : Int) + (c.base : Int) ^ jlen * borrow c.base x 0 jlen =
      (num c.base (h j).dig jlen : Nat) - (num c.base (h k).dig klen : Nat) := by
    rw [num_diffDigit c.base_pos, Int.zero_add, num_sub_digits, ← num_cast, ← num_cast, num_upTo _ hkj]
  -- a borrow left over would take the number below zero
  have hzero : borrow c.base x 0 jlen = 0 := by
    by_contra hne
    have hminus : borrow c.base x 0 jlen = -1 := by have := hborrow jlen (Nat.le_refl _); omega
    have hlt : num c.base d jlen < c.base ^ jlen := num_lt c.base_pos fun q _ => hbelow q
    rw [hminus] at hnum
    have hpow : ((c.base ^ jlen : Nat) : Int) = (c.base : Int) ^ jlen := Nat.cast_pow _ _
    omega
  rw [hzero, Int.mul_zero, Int.add_zero] at hnum
  omega

/-! ## Multiplication -/

/-- A row adds its digit times `j`, at its place, and gives the length it leaves. -/
theorem mpnMulRow_spec {jlen q : Nat} (hij : j ≠ i) (hik : k ≠ i) (hj : ∀ p < jlen, (h j).dig p < c.base)
    (hjl : jlen ≤ (h j).alloc) (hk : (h k).dig q < c.base) (hkl : q < (h k).alloc) (hi : ∀ p < q + jlen, (h i).dig p < c.base)
    (hzero : (h i).dig (q + jlen) = 0) (hil : q + jlen < (h i).alloc) :
    ∃ f, mpnMulRow i j jlen k q h = (.ok (if f (q + jlen) = 0 then q + jlen else q + jlen + 1), withDig h i f) ∧
      (∀ p ≤ q + jlen, f p < c.base) ∧ (∀ p, q + jlen < p → f p = (h i).dig p) ∧
      num c.base f (q + jlen + 1) = num c.base (h i).dig (q + jlen) + c.base ^ q * (num c.base (h j).dig jlen * (h k).dig q) := by
  have hB := c.one_lt_base
  let x := fun p => (h i).dig (q + p) + (h j).dig p * (h k).dig q
  let d := sumDigits c.base x 0 jlen
  let f := overlay q (jlen + 1) (fun p => d (p - q)) (h i).dig
  have hx : ∀ p < jlen, c.base - 1 + x p < c.base * (c.base - 1 + 1) := by
    intro p hp
    obtain ⟨m, hm⟩ : ∃ m, c.base = m + 1 := ⟨c.base - 1, by omega⟩
    have hprod : (h j).dig p * (h k).dig q ≤ m * m :=
      Nat.mul_le_mul (by have := hj p hp; omega) (by omega)
    have hip := hi (q + p) (by omega)
    have hsq : (m + 1) * (m + 1) = m * m + 2 * m + 1 := by ring
    show c.base - 1 + ((h i).dig (q + p) + (h j).dig p * (h k).dig q) < _
    rw [hm] at hip ⊢
    rw [Nat.add_sub_cancel, hsq]
    omega
  have hcarry : carry c.base x 0 jlen ≤ c.base - 1 := carry_le (Nat.zero_le _) hx (Nat.le_refl _)
  have hbelow : ∀ p, d p < c.base := sumDigits_lt c.base_pos (by omega)
  have hmem : ∀ p ≤ jlen, f (q + p) = d p := by
    intro p hp
    have hf : f (q + p) = d (q + p - q) := overlay_of_mem (by omega)
    rw [hf, Nat.add_sub_cancel_left]
  have hlast : f (q + jlen) = carry c.base x 0 jlen := (hmem jlen (Nat.le_refl _)).trans (sumDigits_last x 0 jlen)
  have hrun : mpnMulRow i j jlen k q h =
      (if carry c.base x 0 jlen ≠ 0 then do
        writeDig i (q + jlen) (carry c.base x 0 jlen)
        pure (q + jlen + 1)
      else pure (q + jlen) : M c ι Nat) (paint h i q jlen fun p => d (p - q)) := by
    unfold mpnMulRow
    refine (carry_bind (x := x) (m := c.base - 1) d rfl (Nat.zero_le _) (by omega) (fun p hp => hx p (by omega))
      (fun p hp => sumDigits_of_lt (by omega)) (fun p a h' _ hp habove => ?_) (by omega)).trans ?_
    · have hsmall : x p < c.base * c.base := by
        have := hx p (by omega)
        rw [Nat.sub_add_cancel (by omega)] at this
        omega
      have hprod : (h j).dig p * (h k).dig q < c.base * c.base := Nat.lt_of_le_of_lt (Nat.le_add_left _ _) hsmall
      rw [Prog.bind_of_ok (habove.readDig (r := i) (by omega) fun _ => by omega),
        Prog.bind_of_ok (habove.readDig (r := j) (by omega) fun e => absurd e hij),
        Prog.bind_of_ok (habove.readDig (r := k) hkl fun e => absurd e hik), Config.dbl_of_lt hprod, Config.dbl_of_lt hsmall]
      rfl
    rw [Nat.zero_add]
    rfl
  have hf : mpnMulRow i j jlen k q h = (.ok (if f (q + jlen) = 0 then q + jlen else q + jlen + 1), withDig h i f) := by
    rw [hrun, hlast]
    by_cases hno : carry c.base x 0 jlen = 0
    · rw [if_neg (not_not.mpr hno), if_pos hno]
      refine congrArg (fun f => (Except.ok (q + jlen), withDig h i f)) (funext fun p => ?_)
      by_cases hp : p = q + jlen
      · rw [hp, overlay_of_not (by omega), hzero, hlast, hno]
      · by_cases hin : q ≤ p ∧ p < q + jlen
        · obtain ⟨r, rfl⟩ := Nat.exists_eq_add_of_le hin.1
          rw [overlay_of_mem hin, Nat.add_sub_cancel_left, hmem r (by omega)]
        · rw [overlay_of_not hin]
          exact (overlay_of_not (by omega)).symm
    · rw [if_pos hno, if_neg hno]
      have hwrite := writeDig_paint (h := h) (i := i) (p := q) (n := jlen) (x := carry c.base x 0 jlen) (d := fun p => d (p - q))
        hil (by rw [Nat.add_sub_cancel_left, Config.dig_of_lt (by omega)]; exact (sumDigits_last x 0 jlen).symm)
      rw [Prog.bind_of_ok hwrite]
      rfl
  refine ⟨f, hf, fun p hp => ?_, fun p hp => overlay_of_not (by omega), ?_⟩
  · by_cases hqp : q ≤ p
    · obtain ⟨r, rfl⟩ := Nat.exists_eq_add_of_le hqp
      rw [hmem r (by omega)]
      exact hbelow r
    · have hf : f p = (h i).dig p := overlay_of_not (by omega)
      rw [hf]
      exact hi p (by omega)
  · have hlow : num c.base f q = num c.base (h i).dig q := num_congr fun p hp => overlay_of_not (by omega)
    have hhigh : num c.base (fun p => f (q + p)) (jlen + 1) = num c.base d (jlen + 1) :=
      num_congr fun p hp => hmem p (by omega)
    rw [Nat.add_assoc, num_add, hlow, hhigh, num_sumDigits, Nat.zero_add, num_add_digits, num_mul_digits, num_add _ q jlen]
    ring

/-- `q` rows are done. -/
structure RowsDone (h : Heap c ι) (i j : Ref ι) (jlen : Nat) (k : Ref ι) (q : Nat) : Prop where
  below : ∀ p < q + jlen, (h i).dig p < c.base
  clear : ∀ p, q + jlen ≤ p → p < (h i).alloc → (h i).dig p = 0
  value : num c.base (h i).dig (q + jlen) = num c.base (h j).dig jlen * num c.base (h k).dig q

theorem RowsDone.step {jlen q : Nat} (hrows : RowsDone h i j jlen k q) (hij : j ≠ i) (hik : k ≠ i)
    (hj : ∀ p < jlen, (h j).dig p < c.base) (hjl : jlen ≤ (h j).alloc) (hk : (h k).dig q < c.base) (hkl : q < (h k).alloc)
    (hil : q + jlen < (h i).alloc) :
    ∃ f, mpnMulRow i j jlen k q h = (.ok (if f (q + jlen) = 0 then q + jlen else q + jlen + 1), withDig h i f) ∧
      RowsDone (withDig h i f) i j jlen k (q + 1) ∧
      c.base ^ q * (num c.base (h j).dig jlen * (h k).dig q) ≤ num c.base f (q + 1 + jlen) := by
  obtain ⟨f, hrow, hbelow, hsame, hnum⟩ := mpnMulRow_spec hij hik hj hjl hk hkl hrows.below
    (hrows.clear _ (Nat.le_refl _) hil) hil
  rw [Nat.add_right_comm] at hnum
  refine ⟨f, hrow, ⟨?_, ?_, ?_⟩, by omega⟩
  · intro p hp
    rw [withDig_self]
    exact hbelow p (by omega)
  · intro p hp hlt
    rw [withDig_alloc] at hlt
    rw [withDig_self]
    exact (hsame p (by omega)).trans (hrows.clear p (by omega) hlt)
  · rw [withDig_self, withDig_of_ne hij, withDig_of_ne hik, num_succ]
    show num c.base f _ = _
    rw [hnum, hrows.value]
    ring

theorem mpnMulLoop_spec {jlen q n : Nat} (ilen : Nat) (hij : j ≠ i) (hik : k ≠ i) (hj : Normal c.base (h j).dig jlen) (hj0 : jlen ≠ 0)
    (hjl : jlen ≤ (h j).alloc) (hk : Normal c.base (h k).dig (q + (n + 1))) (hkl : q + (n + 1) ≤ (h k).alloc)
    (hil : q + (n + 1) + jlen ≤ (h i).alloc) (hrows : RowsDone h i j jlen k q) :
    Makes (mpnMulLoop i j jlen k (n + 1) q ilen) h i (num c.base (h j).dig jlen * num c.base (h k).dig (q + (n + 1))) := by
  induction n generalizing q h ilen with
  | zero =>
    obtain ⟨f, hrow, hdone, hle⟩ := hrows.step hij hik hj.below hjl (hk.below q (by omega)) (by omega) (by omega)
    have hbelow : ∀ p < q + 1 + jlen, f p < c.base := by simpa using hdone.below
    have hvalue : num c.base f (q + 1 + jlen) = num c.base (h j).dig jlen * num c.base (h k).dig (q + 1) := by
      simpa [withDig_of_ne hij, withDig_of_ne hik] using hdone.value
    have hlen : q + 1 + jlen = q + jlen + 1 := by omega
    rw [hlen] at hbelow hvalue hle
    refine ⟨_, f, Prog.bind_of_ok hrow, ?_, ?_, ?_⟩
    · split <;> omega
    · split
      · -- the leading digits of both factors need the place before the last
        refine normal_of_le c.base_pos (fun p hp => hbelow p (by omega)) fun _ => ?_
        have hlead : 0 < (h k).dig q := Nat.pos_of_ne_zero (hk.leading (by omega))
        have hfull : num c.base f (q + jlen) = num c.base f (q + jlen + 1) := by
          rw [num_succ, ‹f (q + jlen) = 0›, Nat.zero_mul, Nat.add_zero]
        rw [hfull, Nat.add_sub_assoc (by omega), Nat.pow_add]
        refine Nat.le_trans (Nat.mul_le_mul_left _ ?_) hle
        exact Nat.le_trans (hj.pow_le hj0) (Nat.le_mul_of_pos_right _ hlead)
      · exact ⟨fun p hp => hbelow p (by omega), fun _ => ‹_›⟩
    · rw [← hvalue]
      split
      · rw [num_succ, ‹f (q + jlen) = 0›, Nat.zero_mul, Nat.add_zero]
      · rfl
  | succ n ih =>
    obtain ⟨f, hrow, hdone, -⟩ := hrows.step hij hik hj.below hjl (hk.below q (by omega)) (by omega) (by omega)
    have hsj : withDig h i f j = h j := withDig_of_ne hij
    have hsk : withDig h i f k = h k := withDig_of_ne hik
    have hq : q + 1 + (n + 1) = q + (n + 1 + 1) := by omega
    obtain ⟨m, g, hrun, hm, hnormal, hg⟩ := ih (if f (q + jlen) = 0 then q + jlen else q + jlen + 1) (hsj ▸ hj) (hsj ▸ hjl)
      (by rwa [hsk, hq]) (by rwa [hsk, hq]) (by rw [withDig_alloc]; omega) hdone
    refine ⟨m, g, (Prog.bind_of_ok hrow).trans (hrun.trans ?_), ?_, hnormal, ?_⟩
    · rw [withDig_withDig]
    · rwa [withDig_alloc] at hm
    · rw [hg, hsj, hsk, hq]

theorem mpnMul_spec {jlen klen : Nat} (hij : j ≠ i) (hik : k ≠ i) (hj : Normal c.base (h j).dig jlen) (hj0 : jlen ≠ 0)
    (hjl : jlen ≤ (h j).alloc) (hk : Normal c.base (h k).dig klen) (hk0 : klen ≠ 0) (hkl : klen ≤ (h k).alloc)
    (hil : jlen + klen ≤ (h i).alloc) (hzero : ∀ p < (h i).alloc, (h i).dig p = 0) :
    Makes (mpnMul i j jlen k klen) h i (num c.base (h j).dig jlen * num c.base (h k).dig klen) := by
  obtain ⟨n, rfl⟩ := Nat.exists_eq_succ_of_ne_zero hk0
  have hdone : RowsDone h i j jlen k 0 := by
    refine ⟨fun p hp => ?_, fun p _ hlt => hzero p hlt, ?_⟩
    · rw [hzero p (by omega)]
      exact c.base_pos
    · rw [num_zero, Nat.mul_zero]
      exact Finset.sum_eq_zero fun p hp => by rw [hzero p (by have := Finset.mem_range.mp hp; omega), Nat.zero_mul]
  have hloop := mpnMulLoop_spec (q := 0) (n := n) 0 hij hik hj hj0 hjl (by rwa [Nat.zero_add]) (by omega) (by omega) hdone
  rwa [Nat.zero_add] at hloop

/-! ## Shifts -/

theorem writeDig_paint_down {p n x : Nat} {d : Nat → Nat} (hp : p < (h i).alloc) (hd : c.dig x = d p) :
    writeDig i p x (paint h i (p + 1) n d) = (.ok (), paint h i p (n + 1) d) := by
  rw [writeDig_eq_paint (d := d) (by rwa [paint_alloc]) hd]
  unfold paint
  rw [withDig_withDig, withDig_self, Nat.add_comm n 1]
  refine congrArg (fun f => (Except.ok (), withDig h i f)) (funext fun q => ?_)
  by_cases hq : q = p
  · rw [hq, overlay_of_mem (by omega), overlay_of_mem (by omega)]
  · rw [overlay_of_not (by omega)]
    by_cases hin : p + 1 ≤ q ∧ q < p + 1 + n
    · exact (overlay_of_mem hin).trans (overlay_of_mem (by omega)).symm
    · exact (overlay_of_not hin).trans (overlay_of_not (by omega)).symm

theorem base_dvd_of_mod {d y : Nat} (hd : d % (c.base * c.base) = c.base * y) : ∃ k, d = c.base * k := by
  refine ⟨c.base * (d / (c.base * c.base)) + y, ?_⟩
  have hdiv := Nat.div_add_mod d (c.base * c.base)
  rw [hd] at hdiv
  rw [Nat.mul_add, ← Nat.mul_assoc]
  exact hdiv.symm

theorem or_digit {x k : Nat} (hx : x < c.base) : c.base * k ||| x = c.base * k + x :=
  (Nat.two_pow_add_eq_or_of_lt hx k).symm

theorem shiftDigit_eq {x y d t : Nat} (ht : t ≤ c.digSize) (hx : x < c.base) (hd : d % (c.base * c.base) = c.base * y) :
    ((d ||| x) >>> t) &&& c.mask = (x + c.base * y) / 2 ^ t % c.base := by
  obtain ⟨k, rfl⟩ := base_dvd_of_mod hd
  rw [or_digit hx, Config.and_mask, Nat.shiftRight_eq_div_pow]
  refine shift_congr ht ?_
  change _ % (c.base * c.base) = _ % (c.base * c.base)
  rw [← Nat.mod_add_mod, hd, Nat.add_comm]

theorem mpnShlLoop_spec {jlen nWhole nPart n d : Nat} {f : Nat → Nat} (hj : ∀ q < jlen, (h j).dig q < c.base) (hn : n ≤ jlen)
    (hpart : nPart ≤ c.digSize) (hjl : jlen ≤ (h j).alloc) (hil : jlen + nWhole ≤ (h i).alloc)
    (hf : ∀ p < jlen, f (p + nWhole) = (upTo jlen (h j).dig p + c.base * upTo jlen (h j).dig (p + 1)) / 2 ^ (c.digSize - nPart) % c.base)
    (hd : d % (c.base * c.base) = c.base * upTo jlen (h j).dig n) :
    ∃ d', mpnShlLoop i j nWhole nPart n d (paint h i (n + nWhole) (jlen - n) f) = (.ok d', paint h i nWhole jlen f) ∧
      d' % (c.base * c.base) = c.base * upTo jlen (h j).dig 0 := by
  induction n generalizing d with
  | zero =>
    rw [Nat.zero_add, Nat.sub_zero]
    exact ⟨d, rfl, hd⟩
  | succ n ih =>
    have hread : readDig j n (paint h i (n + 1 + nWhole) (jlen - (n + 1)) f) =
        (.ok ((h j).dig n), paint h i (n + 1 + nWhole) (jlen - (n + 1)) f) :=
      readDig_paint (by omega) fun _ => by omega
    have hup : upTo jlen (h j).dig n = (h j).dig n := if_pos (by omega)
    have hwrite : writeDig i (n + nWhole) (((d ||| (h j).dig n) >>> (c.digSize - nPart)) &&& c.mask)
        (paint h i (n + 1 + nWhole) (jlen - (n + 1)) f) = (.ok (), paint h i (n + nWhole) (jlen - n) f) := by
      have hdigit := shiftDigit_eq (t := c.digSize - nPart) (by omega) (hj n (by omega)) hd
      rw [hdigit, Nat.add_right_comm n 1 nWhole, writeDig_paint_down (by omega), show jlen - (n + 1) + 1 = jlen - n by omega]
      rw [Config.dig_of_lt (Nat.mod_lt _ c.base_pos), hf n (by omega), hup]
    have hnext : c.dbl ((d ||| (h j).dig n) <<< c.digSize) % (c.base * c.base) = c.base * upTo jlen (h j).dig n := by
      obtain ⟨k, rfl⟩ := base_dvd_of_mod hd
      have hdvd : c.base * c.base ∣ 2 ^ c.dblBits := by
        rw [Config.base, ← Nat.pow_add]
        exact Nat.pow_dvd_pow 2 (by have := c.two_digSize_le_dblBits; omega)
      rw [Config.dbl, Nat.mod_mod_of_dvd _ hdvd, or_digit (hj n (by omega)), Nat.shiftLeft_eq, hup]
      change (c.base * k + _) * c.base % _ = _
      rw [Nat.mul_mod_mul_right, Nat.mul_add_mod, Nat.mod_eq_of_lt (hj n (by omega)), Nat.mul_comm]
    obtain ⟨d', hrun, hd'⟩ := ih (by omega) hnext
    refine ⟨d', ?_, hd'⟩
    rw [mpnShlLoop, Prog.bind_of_ok hread]
    show (writeDig _ _ _ >>= _) _ = _
    rw [Prog.bind_of_ok hwrite]
    exact hrun

theorem zeroDig_eq {n : Nat} (hn : n ≤ (h i).alloc) : zeroDig i n h = (.ok (), paint h i 0 n fun _ => 0) := by
  refine (if_pos hn).trans (congrArg (fun f => (Except.ok (), withDig h i f)) (funext fun q => ?_))
  by_cases hq : q < n
  · rw [if_pos hq, overlay_low hq]
  · rw [if_neg hq, overlay_of_not (by omega)]

/-- A shift by whole digits and a part, as mpn_shl splits it. -/
theorem shl_split {n : Nat} (hn : 0 < n) (hword : n + c.digSize ≤ 2 ^ c.wordBits) :
    ∃ w p, c.word (n + c.digSize - 1) / c.digSize = w + 1 ∧ (if n % c.digSize = 0 then c.digSize else n % c.digSize) = p ∧
      p ≤ c.digSize ∧ n = c.digSize * w + p := by
  have hb := c.four_le_digSize
  have hdiv := Nat.div_add_mod (n - 1) c.digSize
  have hlt := Nat.mod_lt (n - 1) (show 0 < c.digSize by omega)
  have hsplit : n = c.digSize * ((n - 1) / c.digSize) + ((n - 1) % c.digSize + 1) := by omega
  refine ⟨(n - 1) / c.digSize, (n - 1) % c.digSize + 1, ?_, ?_, hlt, hsplit⟩
  · rw [Config.word, Nat.mod_eq_of_lt (by omega), show n + c.digSize - 1 = n - 1 + c.digSize by omega,
      Nat.add_div_right _ (by omega)]
  · rcases Nat.lt_or_eq_of_le (show (n - 1) % c.digSize + 1 ≤ c.digSize from hlt) with hpart | hpart
    · have hmod : n % c.digSize = (n - 1) % c.digSize + 1 := by
        conv_lhs => rw [hsplit]
        rw [Nat.mul_add_mod, Nat.mod_eq_of_lt hpart]
      rw [if_neg (by omega), hmod]
    · have hmod : n % c.digSize = 0 := by
        conv_lhs => rw [hsplit]
        rw [Nat.mul_add_mod, hpart, Nat.mod_self]
      rw [if_pos hmod]
      exact hpart.symm

/-- The digits of a shifted number. -/
theorem shl_digits {f : Nat → Nat} {m w p : Nat} (hf : ∀ q < m, f q < c.base) (hp : p ≤ c.digSize) :
    (∀ q < w, num c.base f m * 2 ^ (c.digSize * w + p) / c.base ^ q % c.base = 0) ∧
      num c.base f m * 2 ^ (c.digSize * w + p) / c.base ^ w % c.base = c.base * upTo m f 0 / 2 ^ (c.digSize - p) % c.base ∧
      ∀ q, num c.base f m * 2 ^ (c.digSize * w + p) / c.base ^ (q + (w + 1)) % c.base =
        (upTo m f q + c.base * upTo m f (q + 1)) / 2 ^ (c.digSize - p) % c.base := by
  have hpow : 2 ^ (c.digSize * w + p) = c.base ^ w * 2 ^ p := by rw [Config.base, ← Nat.pow_mul, Nat.pow_add]
  have hbase : c.base = 2 ^ (c.digSize - p) * 2 ^ p := by rw [Config.base, ← Nat.pow_add, Nat.sub_add_cancel hp]
  refine ⟨?_, ?_, ?_⟩
  · intro q hq
    obtain ⟨k, rfl⟩ : ∃ k, w = q + (k + 1) := ⟨w - q - 1, by omega⟩
    have hfact : num c.base f m * (c.base ^ (q + (k + 1)) * 2 ^ p) =
        c.base ^ q * (c.base * (num c.base f m * c.base ^ k * 2 ^ p)) := by ring
    rw [hpow, hfact, Nat.mul_div_cancel_left _ (Nat.pow_pos c.base_pos), Nat.mul_mod_right]
  · have hlow : num c.base f m % c.base = upTo m f 0 := by
      have := num_digit_upTo c.base_pos hf 0
      rwa [Nat.pow_zero, Nat.div_one] at this
    have hleft : num c.base f m * (c.base ^ w * 2 ^ p) / c.base ^ w = num c.base f m * 2 ^ p := by
      rw [Nat.mul_left_comm, Nat.mul_div_cancel_left _ (Nat.pow_pos c.base_pos)]
    have hright : c.base * upTo m f 0 / 2 ^ (c.digSize - p) = upTo m f 0 * 2 ^ p := by
      conv_lhs => rw [hbase]
      rw [Nat.mul_assoc, Nat.mul_div_cancel_left _ (Nat.two_pow_pos _), Nat.mul_comm]
    rw [hpow, hleft, hright, ← hlow, Nat.mod_mul_mod]
  · intro q
    have hdiv : num c.base f m * 2 ^ (c.digSize * w + p) / c.base ^ (q + (w + 1)) =
        num c.base f m / c.base ^ q / 2 ^ (c.digSize - p) := by
      have hden : c.base ^ (q + (w + 1)) = c.base ^ q * 2 ^ (c.digSize - p) * (c.base ^ w * 2 ^ p) := by
        calc c.base ^ (q + (w + 1)) = c.base ^ q * c.base ^ w * c.base := by ring
          _ = c.base ^ q * c.base ^ w * (2 ^ (c.digSize - p) * 2 ^ p) := by rw [← hbase]
          _ = _ := by ring
      rw [hpow, hden, Nat.mul_div_mul_right _ _ (Nat.mul_pos (Nat.pow_pos c.base_pos) (Nat.two_pow_pos _)),
        Nat.div_div_eq_div_mul]
    have htwo := num_two_digits c.base_pos hf q
    rw [hdiv]
    refine shift_congr (Nat.sub_le _ _) ?_
    change _ % (c.base * c.base) = _ % (c.base * c.base)
    rw [← htwo, Nat.mod_mod]

theorem mpnShl_spec {jlen n : Nat} (hj : ∀ q < jlen, (h j).dig q < c.base) (hn : 0 < n) (hword : n + c.digSize ≤ 2 ^ c.wordBits)
    (hjl : jlen ≤ (h j).alloc) (hil : jlen + c.word (n + c.digSize - 1) / c.digSize ≤ (h i).alloc) :
    Makes (mpnShl i j jlen n) h i (num c.base (h j).dig jlen * 2 ^ n) := by
  obtain ⟨w, p, hw, hpart, hp, rfl⟩ := shl_split hn hword
  obtain ⟨hzeros, hfirst, hrest⟩ := shl_digits (w := w) hj hp
  let f := fun q => num c.base (h j).dig jlen * 2 ^ (c.digSize * w + p) / c.base ^ q % c.base
  have hbelow : ∀ q, f q < c.base := fun q => Nat.mod_lt _ c.base_pos
  rw [hw] at hil
  obtain ⟨d, hloop, hd⟩ := mpnShlLoop_spec (h := h) (i := i) (f := f) (n := jlen) (d := 0) hj (Nat.le_refl _) hp hjl hil
    (fun q _ => hrest q) (by rw [upTo, if_neg (Nat.lt_irrefl _), Nat.mul_zero, Nat.zero_mod])
  rw [Nat.sub_self, paint_zero] at hloop
  have hrun : mpnShl i j jlen (c.digSize * w + p) h = mpnRemoveTrailingZeros i (jlen + (w + 1)) (paint h i 0 (jlen + (w + 1)) f) := by
    unfold mpnShl
    have hwrite : writeDig i w ((d >>> (c.digSize - p)) &&& c.mask) (paint h i (w + 1) jlen f) =
        (.ok (), paint h i w (jlen + 1) f) := by
      have hdigit := shiftDigit_eq (x := 0) (Nat.sub_le c.digSize p) c.base_pos hd
      rw [Nat.or_zero, Nat.zero_add] at hdigit
      rw [hdigit, writeDig_paint_down (by omega)]
      rw [Config.dig_of_lt (Nat.mod_lt _ c.base_pos)]
      exact hfirst.symm
    have hclear : zeroDig i w (paint h i w (jlen + 1) f) = (.ok (), paint h i 0 (jlen + (w + 1)) f) := by
      rw [zeroDig_eq (by rw [paint_alloc]; omega)]
      unfold paint
      rw [withDig_withDig, withDig_self]
      refine congrArg (fun f => (Except.ok (), withDig h i f)) (funext fun q => ?_)
      by_cases hq : q < w
      · rw [overlay_low hq, overlay_low (by omega)]
        exact (hzeros q hq).symm
      · rw [overlay_of_not (by omega)]
        show overlay w (jlen + 1) f (h i).dig q = _
        by_cases hin : w ≤ q ∧ q < w + (jlen + 1)
        · rw [overlay_low (show q < jlen + (w + 1) by omega)]
          exact overlay_of_mem hin
        · rw [overlay_of_not (show ¬ (0 ≤ q ∧ q < 0 + (jlen + (w + 1))) by omega)]
          exact overlay_of_not hin
    rw [hw, hpart, Nat.add_sub_cancel, Prog.bind_of_ok hloop, Prog.bind_of_ok hwrite, Prog.bind_of_ok hclear]
  refine makes_of_trim hrun hil (fun q _ => hbelow q) ?_
  rw [num_low]
  refine Nat.mod_eq_of_lt ?_
  calc num c.base (h j).dig jlen * 2 ^ (c.digSize * w + p) < c.base ^ jlen * 2 ^ (c.digSize * w + p) :=
        Nat.mul_lt_mul_of_pos_right (num_lt c.base_pos hj) (Nat.two_pow_pos _)
    _ ≤ c.base ^ jlen * c.base ^ (w + 1) := by
        refine Nat.mul_le_mul_left _ ?_
        rw [Config.base, ← Nat.pow_mul]
        exact Nat.pow_le_pow_right (by decide) (by rw [Nat.mul_succ]; omega)
    _ = c.base ^ (jlen + (w + 1)) := (Nat.pow_add _ _ _).symm

theorem mpnShr_spec {jlen n : Nat} (hj : Normal c.base (h j).dig jlen) (hjl : jlen ≤ (h j).alloc) (hil : jlen ≤ (h i).alloc) :
    Makes (mpnShr i j jlen n) h i (num c.base (h j).dig jlen / 2 ^ n) := by
  have hb := c.four_le_digSize
  obtain ⟨w, p, hw, hpart, hp, hpow⟩ : ∃ w p, n / c.digSize = w ∧ n % c.digSize = p ∧ p < c.digSize ∧ 2 ^ n = c.base ^ w * 2 ^ p := by
    refine ⟨_, _, rfl, rfl, Nat.mod_lt _ (by omega), ?_⟩
    rw [Config.base, ← Nat.pow_mul, ← Nat.pow_add, Nat.div_add_mod]
  let f := fun q => num c.base (h j).dig jlen / 2 ^ n / c.base ^ q % c.base
  have hbelow : ∀ q, f q < c.base := fun q => Nat.mod_lt _ c.base_pos
  have hdigit : ∀ q, f q = (upTo jlen (h j).dig (w + q) + c.base * upTo jlen (h j).dig (w + q + 1)) / 2 ^ p % c.base := by
    intro q
    have hdiv : num c.base (h j).dig jlen / 2 ^ n / c.base ^ q = num c.base (h j).dig jlen / c.base ^ (w + q) / 2 ^ p := by
      rw [hpow, Nat.div_div_eq_div_mul, Nat.div_div_eq_div_mul, Nat.pow_add, Nat.mul_right_comm]
    show _ / 2 ^ n / c.base ^ q % c.base = _
    rw [hdiv]
    refine shift_congr (Nat.le_of_lt hp) ?_
    change _ % (c.base * c.base) = _ % (c.base * c.base)
    rw [← num_two_digits c.base_pos hj.below, Nat.mod_mod]
  have hlt : num c.base (h j).dig jlen < c.base ^ jlen := hj.lt c.base_pos
  by_cases hwj : w ≥ jlen
  · have hzero : num c.base (h j).dig jlen / 2 ^ n = 0 := by
      refine Nat.div_eq_of_lt (Nat.lt_of_lt_of_le hlt ?_)
      rw [hpow]
      exact Nat.le_trans (Nat.pow_le_pow_right c.base_pos hwj) (Nat.le_mul_of_pos_right _ (Nat.two_pow_pos p))
    refine ⟨0, (h i).dig, ?_, Nat.zero_le _, ⟨fun q hq => absurd hq (Nat.not_lt_zero q), fun hne => absurd rfl hne⟩, ?_⟩
    · unfold mpnShr
      rw [hw, if_pos hwj, withDig_dig_self]
      rfl
    · rw [hzero, num_zero]
  · obtain ⟨m, hm⟩ : ∃ m, jlen = w + (m + 1) := ⟨jlen - w - 1, by omega⟩
    have hvalue : num c.base f (m + 1) = num c.base (h j).dig jlen / 2 ^ n := by
      rw [num_low]
      refine Nat.mod_eq_of_lt (Nat.div_lt_of_lt_mul (Nat.lt_of_lt_of_le hlt ?_))
      rw [hpow, hm, Nat.pow_add, Nat.mul_right_comm]
      exact Nat.le_mul_of_pos_right _ (Nat.two_pow_pos p)
    have hrun : mpnShr i j jlen n h = (.ok (if f m = 0 then m else m + 1), paint h i 0 (m + 1) f) := by
      unfold mpnShr
      rw [hw, hpart, if_neg hwj, show jlen - w = m + 1 by omega]
      refine (sweep_bind (fun _ => ()) f rfl (fun q h' _ hq habove => ?_) (fun q _ _ => hbelow q) (by omega)).trans ?_
      · have hx : upTo jlen (h j).dig (w + q) = (h j).dig (w + q) := if_pos (by omega)
        rw [Prog.bind_of_ok (habove.readDig (r := j) (by omega) fun _ => by omega), hdigit q, hx]
        by_cases hmore : m + 1 - q > 1
        · have hy : upTo jlen (h j).dig (w + q + 1) = (h j).dig (w + q + 1) := if_pos (by omega)
          have hdbl : c.dbl ((h j).dig (w + q + 1) <<< c.digSize) = c.base * (h j).dig (w + q + 1) := by
            rw [Nat.shiftLeft_eq, Nat.mul_comm]
            exact Config.dbl_of_lt (Nat.mul_lt_mul_of_pos_left (hj.below _ (by omega)) c.base_pos)
          rw [if_pos hmore, hy, Prog.bind_of_ok (habove.readDig (r := j) (by omega) fun _ => by omega), hdbl, Nat.or_comm,
            or_digit (hj.below _ (by omega)), ← Config.and_mask, ← Nat.shiftRight_eq_div_pow, Nat.add_comm]
          rfl
        · have hy : upTo jlen (h j).dig (w + q + 1) = 0 := if_neg (by omega)
          rw [if_neg hmore, hy, Nat.mul_zero, Nat.add_zero, ← Config.and_mask, ← Nat.shiftRight_eq_div_pow]
          rfl
      · rw [paint_base, Nat.add_sub_cancel, Prog.bind_of_ok (readDig_low (by omega) (by omega))]
        split <;> rfl
    have hfull : f m = 0 → num c.base f m = num c.base f (m + 1) := by
      intro hzero
      rw [num_succ, hzero, Nat.zero_mul, Nat.add_zero]
    refine makes_of_paint hrun (by split <;> omega) (by omega) ?_ ?_
    · split
      · -- at most the leading digit has gone
        refine normal_of_le c.base_pos (fun q _ => hbelow q) fun hne => ?_
        rw [hfull ‹_›, hvalue, Nat.le_div_iff_mul_le (Nat.two_pow_pos n)]
        calc c.base ^ (m - 1) * 2 ^ n = c.base ^ (m - 1) * c.base ^ w * 2 ^ p := by rw [hpow, Nat.mul_assoc]
          _ ≤ c.base ^ (m - 1) * c.base ^ w * c.base :=
              Nat.mul_le_mul_left _ (Nat.pow_le_pow_right (by decide) (Nat.le_of_lt hp))
          _ = c.base ^ (jlen - 1) := by
              rw [← Nat.pow_add, ← Nat.pow_succ]
              exact congrArg _ (by omega)
          _ ≤ num c.base (h j).dig jlen := hj.pow_le (by omega)
      · exact ⟨fun q _ => hbelow q, fun _ => ‹_›⟩
    · rw [← hvalue]
      split
      · exact hfull ‹_›
      · rfl

end PythonUltra.Py.Mpz
