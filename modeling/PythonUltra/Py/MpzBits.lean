/-
  PythonUltra.Py.MpzBits — the bitwise operations of mpz.c.

  A negative operand is met as the low digits of its two's complement, made on the way by
  a carry of its own; the result is turned back the same way. So the loop with negative
  operands is three carries side by side (`mpnNegLoop_eq`), and what they leave is a bitwise
  operation on patterns (`Lib.TwosComplement`).
-/

import PythonUltra.Py.MpzExact
import PythonUltra.Lib.TwosComplement

namespace PythonUltra.Py.Mpz

open PythonUltra.Lib PythonUltra.Lib.Digits PythonUltra.Lib.TwosComplement

variable {ι α : Type} [DecidableEq ι] {c : Config} {h h' : Heap c ι} {dest lhs rhs i j k r z : Ref ι}

/-! ## The loop with negative operands -/

/-- `klen` after `q` turns: it wraps when it runs out. -/
def klenAt (c : Config) (klen q : Nat) : Nat := if q ≤ klen then klen - q else 2 ^ c.wordBits + klen - q

theorem klenAt_succ {klen q : Nat} (hk : klen < 2 ^ c.wordBits) (hq : q < 2 ^ c.wordBits) :
    c.word (klenAt c klen q + (2 ^ c.wordBits - 1)) = klenAt c klen (q + 1) := by
  unfold Config.word klenAt
  by_cases h1 : q + 1 ≤ klen
  · rw [if_pos (by omega), if_pos h1, show klen - q + (2 ^ c.wordBits - 1) = klen - (q + 1) + 2 ^ c.wordBits by omega,
      Nat.add_mod_right, Nat.mod_eq_of_lt (by omega)]
  · rw [if_neg h1]
    by_cases h2 : q ≤ klen
    · rw [if_pos h2, Nat.mod_eq_of_lt (by omega)]
      omega
    · rw [if_neg h2, show 2 ^ c.wordBits + klen - q + (2 ^ c.wordBits - 1) = 2 ^ c.wordBits + klen - (q + 1) + 2 ^ c.wordBits by omega,
        Nat.add_mod_right, Nat.mod_eq_of_lt (by omega)]

/-- So the comparison says whether `k` has a digit left. -/
theorem klenAt_le_iff {jlen klen q : Nat} (hkj : klen ≤ jlen) (hj : jlen < 2 ^ c.wordBits) (hq : q < jlen) :
    klenAt c klen (q + 1) ≤ jlen - (q + 1) ↔ q < klen := by
  unfold klenAt
  split <;> omega

/-- Three carries side by side. -/
theorem mpnNegLoop_eq (fj fk : Nat → Nat) (op : Nat → Nat → Nat) {jlen klen carryi carryj carryk : Nat} {x y : Nat → Nat}
    (hkj : klen ≤ jlen) (hjl : jlen ≤ (h j).alloc) (hkl : klen ≤ (h k).alloc) (hil : jlen ≤ (h i).alloc)
    (hi1 : carryi ≤ 1) (hj1 : carryj ≤ 1) (hk1 : carryk ≤ 1) (hx : ∀ q, x q = fj ((h j).dig q))
    (hy : ∀ q, y q = fk (upTo klen (h k).dig q)) (hxb : ∀ q < jlen, 1 + x q < c.base * (1 + 1))
    (hyb : ∀ q < jlen, 1 + y q < c.base * (1 + 1)) :
    ∃ a : Carries, mpnNegLoop fj fk (fk 0) op i j jlen k klen carryi carryj carryk h =
        (.ok a, paint h i 0 jlen (sumDigit c.base
          (fun q => op (carry c.base x carryj q + x q) (carry c.base y carryk q + y q) % c.base) carryi)) ∧
      a.carryi = carry c.base (fun q => op (carry c.base x carryj q + x q) (carry c.base y carryk q + y q) % c.base) carryi jlen := by
  have hB := c.one_lt_base
  let w := fun q => op (carry c.base x carryj q + x q) (carry c.base y carryk q + y q) % c.base
  let st : Nat → Carries := fun q =>
    ⟨klenAt c klen q, min q klen, carry c.base w carryi q, carry c.base x carryj q, carry c.base y carryk q⟩
  have hword : jlen < 2 ^ c.wordBits := by
    have halloc := (h j).alloc_lt
    have hpow : 2 ^ (c.wordBits - 2) ≤ 2 ^ c.wordBits := Nat.pow_le_pow_right (by decide) (Nat.sub_le _ _)
    omega
  have hsmall : 2 * c.base ≤ c.base * c.base := Nat.mul_le_mul_right _ hB
  have hwb : ∀ q < jlen, 1 + w q < c.base * (1 + 1) := by
    intro q _
    have hlt : w q < c.base := Nat.mod_lt _ c.base_pos
    omega
  have hfit : ∀ {u : Nat → Nat} {a q : Nat}, a ≤ 1 → (∀ q < jlen, 1 + u q < c.base * (1 + 1)) → q < jlen →
      c.dbl (carry c.base u a q + u q) = carry c.base u a q + u q := by
    intro u a q ha hu hq
    have hcarry := carry_le ha hu (Nat.le_of_lt hq)
    have hbound := hu q hq
    exact Config.dbl_of_lt (by omega)
  refine ⟨st jlen, ?_, rfl⟩
  have hstart : (⟨klen, 0, carryi, carryj, carryk⟩ : Carries) = st 0 := by
    show _ = Carries.mk (klenAt c klen 0) (min 0 klen) _ _ _
    rw [klenAt, if_pos (Nat.zero_le _), Nat.zero_min]
    rfl
  unfold mpnNegLoop
  rw [hstart]
  refine (sweep_eq st (sumDigit c.base w carryi) (fun q h' _ hq halloc hdig => ?_) (fun q _ _ => Nat.mod_lt _ c.base_pos)
    (by omega)).trans ?_
  · have hq' : q < jlen := by omega
    have habove : Above h h' i q := ⟨halloc, fun r q' e => hdig r q' fun er => .inl (by have := e er; omega)⟩
    have hmore := klenAt_le_iff hkj hword hq'
    have hklen : c.word ((st q).klen + (2 ^ c.wordBits - 1)) = klenAt c klen (q + 1) := klenAt_succ (by omega) (by omega)
    have hcj : c.dbl ((st q).carryj + fj ((h j).dig q)) = carry c.base x carryj q + x q := by
      rw [← hx]
      exact hfit hj1 hxb hq'
    -- what is left of the body, once the digit of `k` is known
    have hrest : ∀ v n, v = y q → n = min (q + 1) klen →
        ((Except.ok (Carries.mk (klenAt c klen (q + 1)) n
          (c.dbl (carry c.base w carryi q + (op (carry c.base x carryj q + x q) (c.dbl (carry c.base y carryk q + v)) &&& c.mask)) >>> c.digSize)
          ((carry c.base x carryj q + x q) >>> c.digSize) (c.dbl (carry c.base y carryk q + v) >>> c.digSize),
          c.dbl (carry c.base w carryi q + (op (carry c.base x carryj q + x q) (c.dbl (carry c.base y carryk q + v)) &&& c.mask)) &&& c.mask), h') :
          Except Fault (Carries × Nat) × Heap c ι) = (.ok (st (q + 1), sumDigit c.base w carryi q), h') := by
      intro v n hv hn
      have hw : op (carry c.base x carryj q + x q) (carry c.base y carryk q + y q) % c.base = w q := rfl
      rw [hv, hn, hfit hk1 hyb hq', Config.and_mask, Config.and_mask, hw, hfit hi1 hwb hq', Config.shiftRight_digSize,
        Config.shiftRight_digSize, Config.shiftRight_digSize]
      rfl
    rw [Prog.bind_of_ok (habove.readDig (r := j) (by omega) fun _ => Nat.le_refl q), hklen, hcj]
    by_cases hlt : q < klen
    · have hpos : (st q).kdig = q := Nat.min_eq_left (Nat.le_of_lt hlt)
      rw [decide_eq_true (hmore.mpr hlt), if_pos rfl, if_pos rfl, hpos,
        Prog.bind_of_ok (habove.readDig (r := k) (by omega) fun _ => Nat.le_refl q)]
      refine hrest (fk ((h k).dig q)) (q + 1) ?_ (Nat.min_eq_left hlt).symm
      rw [hy, upTo, if_pos hlt]
    · rw [decide_eq_false (mt hmore.mp hlt), if_neg Bool.false_ne_true, if_neg Bool.false_ne_true]
      refine hrest (fk 0) (min q klen) ?_ (by omega)
      rw [hy, upTo, if_neg hlt]
  · rw [Nat.zero_add, paint_base]

/-! ## Operands and results as patterns -/

/-- The low `n` digits of an operand's two's complement. -/
def pattern (c : Config) (n : Nat) (neg : Bool) (v : Nat) : Nat := if neg then c.base ^ n - v else v

theorem pattern_lt {n v : Nat} {neg : Bool} (hv : v < c.base ^ n) (hpos : neg = true → 0 < v) : pattern c n neg v < c.base ^ n := by
  cases neg with
  | false => exact hv
  | true => exact Nat.sub_lt (Nat.pow_pos c.base_pos) (hpos rfl)

theorem pow_base (c : Config) (n : Nat) : c.base ^ n = 2 ^ (c.digSize * n) := (Nat.pow_mul 2 c.digSize n).symm

theorem ofPattern_pattern {n v : Nat} {neg : Bool} (hv : v < c.base ^ n) :
    ofPattern (c.digSize * n) (pattern c n neg v) neg = signed neg v := by
  cases neg with
  | false => rfl
  | true =>
    show ((c.base ^ n - v : Nat) : Int) - 2 ^ (c.digSize * n) = -(v : Int)
    have hpow : ((2 ^ (c.digSize * n) : Nat) : Int) = 2 ^ (c.digSize * n) := Nat.cast_pow 2 _
    rw [← hpow, ← pow_base, Nat.cast_sub (Nat.le_of_lt hv)]
    omega

theorem maskOf_toNat (neg : Bool) : c.maskOf neg.toNat = if neg then c.mask else 0 := by cases neg <;> rfl

theorem num_turned {f : Nat → Nat} {n : Nat} (hf : ∀ q < n, f q < c.base) :
    num c.base (fun q => f q ^^^ c.mask) n = c.base ^ n - 1 - num c.base f n := by
  have hsum : num c.base (fun q => f q ^^^ c.mask) n + num c.base f n = num c.base (fun _ => c.base - 1) n := by
    rw [← num_add_digits]
    refine num_congr fun q hq => ?_
    have hxor : f q ^^^ c.mask = c.base - 1 - f q := xor_mask (hf q hq)
    have hlt := hf q hq
    rw [hxor]
    omega
  have hmask := num_mask c.base_pos n
  omega

/-- What the carry of an operand leaves. -/
theorem num_operand {f : Nat → Nat} {n : Nat} {neg : Bool} (hf : ∀ q < n, f q < c.base) (hpos : neg = true → 0 < num c.base f n) :
    num c.base (sumDigit c.base (fun q => f q ^^^ c.maskOf neg.toNat) neg.toNat) n = pattern c n neg (num c.base f n) := by
  have hlt := num_lt c.base_pos hf
  rw [num_sumDigit_mod c.base_pos, maskOf_toNat]
  cases neg with
  | false =>
    show (0 + num c.base (fun q => f q ^^^ 0) n) % _ = _
    rw [Nat.zero_add, num_congr fun q _ => Nat.xor_zero (f q), Nat.mod_eq_of_lt hlt]
    rfl
  | true =>
    have := hpos rfl
    show (1 + num c.base (fun q => f q ^^^ c.mask) n) % _ = c.base ^ n - num c.base f n
    rw [num_turned hf, Nat.mod_eq_of_lt (by omega)]
    omega

/-- The same in mpn_xor_neg, which takes one from a negative operand instead. -/
theorem num_operand_xor {f : Nat → Nat} {n : Nat} {neg : Bool} (hf : ∀ q < n, f q < c.base) (hpos : neg = true → 0 < num c.base f n) :
    num c.base (sumDigit c.base (fun q => f q + c.mask) (!neg).toNat) n = num c.base f n - neg.toNat := by
  have hlt := num_lt c.base_pos hf
  have hmask := num_mask c.base_pos n
  have hsum : num c.base (fun q => f q + c.mask) n = num c.base f n + num c.base (fun _ => c.base - 1) n := num_add_digits _ _ _
  rw [num_sumDigit_mod c.base_pos, hsum]
  cases neg with
  | false =>
    show (1 + _) % _ = _ - 0
    rw [show 1 + (num c.base f n + num c.base (fun _ => c.base - 1) n) = num c.base f n + c.base ^ n by omega, Nat.add_mod_right,
      Nat.mod_eq_of_lt hlt, Nat.sub_zero]
  | true =>
    have := hpos rfl
    show (0 + _) % _ = _ - 1
    rw [show 0 + (num c.base f n + num c.base (fun _ => c.base - 1) n) = num c.base f n - 1 + c.base ^ n by omega, Nat.add_mod_right,
      Nat.mod_eq_of_lt (by omega)]

/-- What the carry of the result takes in, if the result is to be turned. -/
theorem num_result {f : Nat → Nat} {n : Nat} {neg : Bool} (hf : ∀ q < n, f q < c.base) :
    neg.toNat + num c.base (fun q => f q ^^^ c.maskOf neg.toNat) n = if neg then c.base ^ n - num c.base f n else num c.base f n := by
  have hlt := num_lt c.base_pos hf
  rw [maskOf_toNat]
  cases neg with
  | false =>
    show 0 + num c.base (fun q => f q ^^^ 0) n = _
    rw [Nat.zero_add, num_congr fun q _ => Nat.xor_zero (f q)]
    rfl
  | true =>
    show 1 + num c.base (fun q => f q ^^^ c.mask) n = c.base ^ n - num c.base f n
    rw [num_turned hf]
    omega

/-! ## The functions with negative operands -/

theorem paint_congr {p n : Nat} {d e : Nat → Nat} (hde : ∀ q, p ≤ q → q < p + n → d q = e q) : paint h i p n d = paint h i p n e := by
  refine congrArg (withDig h i) (funext fun q => ?_)
  by_cases hq : p ≤ q ∧ q < p + n
  · rw [overlay_of_mem hq, overlay_of_mem hq, hde q hq.1 hq.2]
  · rw [overlay_of_not hq, overlay_of_not hq]

/-- The end of mpn_and_neg and mpn_xor_neg: a carry left over is one more digit. -/
theorem makes_of_carry {x : M c ι Nat} {w : Nat → Nat} {a jlen : Nat} (ha : a ≤ 1) (hw : ∀ q < jlen, w q < c.base)
    (hil : jlen ≤ (h i).alloc) (hroom : a + num c.base w jlen < c.base ^ (h i).alloc)
    (hx : x h = (if 0 ≠ carry c.base w a jlen then do
        writeDig i jlen (carry c.base w a jlen)
        mpnRemoveTrailingZeros i (jlen + 1)
      else mpnRemoveTrailingZeros i jlen : M c ι Nat) (paint h i 0 jlen (sumDigit c.base w a))) :
    Makes x h i (a + num c.base w jlen) := by
  have hB := c.one_lt_base
  have hcarry : carry c.base w a jlen ≤ 1 := carry_le ha (fun q hq => by have := hw q hq; omega) (Nat.le_refl _)
  have hsum := num_sumDigits (B := c.base) w a jlen
  have hsame : paint h i 0 jlen (sumDigit c.base w a) = paint h i 0 jlen (sumDigits c.base w a jlen) :=
    paint_congr fun q _ hq => (sumDigits_of_lt (by omega)).symm
  have hbelow : ∀ q, sumDigits c.base w a jlen q < c.base := sumDigits_lt c.base_pos (by omega)
  rw [hsame] at hx
  by_cases hzero : carry c.base w a jlen = 0
  · rw [hzero, if_neg (not_not.mpr rfl)] at hx
    rw [num_succ, sumDigits_last, hzero, Nat.zero_mul, Nat.add_zero] at hsum
    exact makes_of_trim hx hil (fun q _ => hbelow q) hsum
  · have hone : carry c.base w a jlen = 1 := by omega
    have hge : c.base ^ jlen ≤ a + num c.base w jlen := by
      rw [← hsum, num_succ, sumDigits_last, hone, Nat.one_mul]
      exact Nat.le_add_left _ _
    have hspace : jlen < (h i).alloc := (Nat.pow_lt_pow_iff_right hB).mp (by omega)
    have hwrite : writeDig i jlen (carry c.base w a jlen) (paint h i 0 jlen (sumDigits c.base w a jlen)) =
        (.ok (), paint h i 0 (jlen + 1) (sumDigits c.base w a jlen)) := by
      rw [writeDig_eq_paint (d := sumDigits c.base w a jlen) (by rwa [paint_alloc]) (by rw [sumDigits_last, hone, Config.dig_of_lt hB]),
        paint_low]
    rw [if_pos (Ne.symm hzero), Prog.bind_of_ok hwrite] at hx
    exact makes_of_trim hx hspace (fun q _ => hbelow q) hsum

section Neg

variable {jlen klen : Nat} {si sj sk : Bool} (hj : ∀ q < jlen, (h j).dig q < c.base) (hk : ∀ q < klen, (h k).dig q < c.base)
  (hkj : klen ≤ jlen) (hjl : jlen ≤ (h j).alloc) (hkl : klen ≤ (h k).alloc) (hil : jlen ≤ (h i).alloc)
  (hjp : sj = true → 0 < num c.base (h j).dig jlen) (hkp : sk = true → 0 < num c.base (h k).dig klen)
include hj hk hkj hjl hkl hil hjp hkp

variable (si) in
/-- The loop of mpn_and_neg and mpn_or_neg: what goes into the result is the operation on patterns,
turned if the result is. -/
theorem mpnNegLoop_mask {o : Bool → Bool → Bool} (ho : o false false = false) :
    ∃ (a : Carries) (w : Nat → Nat), mpnNegLoop (· ^^^ c.maskOf sj.toNat) (· ^^^ c.maskOf sk.toNat) (c.maskOf sk.toNat)
        (fun x y => Nat.bitwise o x y ^^^ c.maskOf si.toNat) i j jlen k klen si.toNat sj.toNat sk.toNat h =
        (.ok a, paint h i 0 jlen (sumDigit c.base w si.toNat)) ∧ a.carryi = carry c.base w si.toNat jlen ∧
      (∀ q < jlen, w q < c.base) ∧
      si.toNat + num c.base w jlen =
        if si then c.base ^ jlen - Nat.bitwise o (pattern c jlen sj (num c.base (h j).dig jlen)) (pattern c jlen sk (num c.base (h k).dig klen))
        else Nat.bitwise o (pattern c jlen sj (num c.base (h j).dig jlen)) (pattern c jlen sk (num c.base (h k).dig klen)) := by
  have hmask : ∀ s : Bool, c.maskOf s.toNat < c.base := by
    intro s
    rw [maskOf_toNat]
    split
    · exact Nat.sub_lt c.base_pos Nat.one_pos
    · exact c.base_pos
  have hxor : ∀ {u : Nat} {s : Bool}, u < c.base → u ^^^ c.maskOf s.toNat < c.base := fun hu => Nat.xor_lt_two_pow hu (hmask _)
  have hone : ∀ s : Bool, s.toNat ≤ 1 := fun s => by cases s <;> decide
  have hfit : ∀ {u : Nat}, u < c.base → 1 + u < c.base * (1 + 1) := fun hu => by omega
  let x := fun q => (h j).dig q ^^^ c.maskOf sj.toNat
  let y := fun q => upTo klen (h k).dig q ^^^ c.maskOf sk.toNat
  have hkup := upTo_lt c.base_pos hk
  have hloop := mpnNegLoop_eq (h := h) (i := i) (j := j) (k := k) (· ^^^ c.maskOf sj.toNat) (· ^^^ c.maskOf sk.toNat)
    (fun x y => Nat.bitwise o x y ^^^ c.maskOf si.toNat) (x := x) (y := y) hkj hjl hkl hil (hone si) (hone sj) (hone sk)
    (fun _ => rfl) (fun _ => rfl) (fun q hq => hfit (hxor (hj q hq))) (fun q _ => hfit (hxor (hkup q)))
  rw [Nat.zero_xor] at hloop
  obtain ⟨a, hrun, hcarry⟩ := hloop
  refine ⟨a, _, hrun, hcarry, fun q _ => Nat.mod_lt _ c.base_pos, ?_⟩
  -- on each digit the operation is on digits of the patterns
  have hdigit : ∀ q < jlen, (Nat.bitwise o (carry c.base x sj.toNat q + x q) (carry c.base y sk.toNat q + y q) ^^^ c.maskOf si.toNat) % c.base =
      Nat.bitwise o (sumDigit c.base x sj.toNat q) (sumDigit c.base y sk.toNat q) ^^^ c.maskOf si.toNat := by
    intro q _
    have hmod := Nat.bitwise_mod_two_pow (f := o) (x := carry c.base x sj.toNat q + x q) (y := carry c.base y sk.toNat q + y q)
      (n := c.digSize) ho
    refine Nat.xor_mod_two_pow.trans ?_
    rw [hmod]
    exact congrArg (_ ^^^ ·) (Nat.mod_eq_of_lt (hmask si))
  have hbound : ∀ q, Nat.bitwise o (sumDigit c.base x sj.toNat q) (sumDigit c.base y sk.toNat q) < c.base := fun q =>
    Nat.bitwise_lt_two_pow (Nat.mod_lt _ c.base_pos) (Nat.mod_lt _ c.base_pos)
  rw [num_congr hdigit, num_result fun q _ => hbound q]
  have hnum : num c.base (fun q => Nat.bitwise o (sumDigit c.base x sj.toNat q) (sumDigit c.base y sk.toNat q)) jlen =
      Nat.bitwise o (pattern c jlen sj (num c.base (h j).dig jlen)) (pattern c jlen sk (num c.base (h k).dig klen)) := by
    have hbits := num_bitwise (n := jlen) ho (f := sumDigit c.base x sj.toNat) (g := sumDigit c.base y sk.toNat) (b := c.digSize)
      (fun q => Nat.mod_lt _ c.base_pos) (fun q => Nat.mod_lt _ c.base_pos)
    refine hbits.trans ?_
    change Nat.bitwise o (num c.base _ jlen) (num c.base _ jlen) = _
    rw [num_operand hj hjp, num_operand (fun q _ => hkup q) (by rwa [num_upTo _ hkj]), num_upTo _ hkj]
  rw [hnum]

theorem mpnAndNeg_makes {v : Nat}
    (hv : v = if si then c.base ^ jlen - (pattern c jlen sj (num c.base (h j).dig jlen) &&& pattern c jlen sk (num c.base (h k).dig klen))
      else pattern c jlen sj (num c.base (h j).dig jlen) &&& pattern c jlen sk (num c.base (h k).dig klen))
    (hroom : v < c.base ^ (h i).alloc) :
    Makes (mpnAndNeg i j jlen k klen si.toNat sj.toNat sk.toNat) h i v := by
  obtain ⟨a, w, hrun, hcarry, hw, hnum⟩ := mpnNegLoop_mask si hj hk hkj hjl hkl hil hjp hkp (o := and) rfl
  have hv' : si.toNat + num c.base w jlen = v := hnum.trans hv.symm
  rw [← hv'] at hroom ⊢
  refine makes_of_carry (by cases si <;> decide) hw hil hroom ?_
  unfold mpnAndNeg
  refine (Prog.bind_of_ok hrun).trans ?_
  rw [hcarry]

theorem mpnOrNeg_makes {v : Nat}
    (hv : v = if si then c.base ^ jlen - (pattern c jlen sj (num c.base (h j).dig jlen) ||| pattern c jlen sk (num c.base (h k).dig klen))
      else pattern c jlen sj (num c.base (h j).dig jlen) ||| pattern c jlen sk (num c.base (h k).dig klen))
    (hlt : v < c.base ^ jlen) :
    Makes (mpnOrNeg i j jlen k klen si.toNat sj.toNat sk.toNat) h i v := by
  obtain ⟨a, w, hrun, hcarry, hw, hnum⟩ := mpnNegLoop_mask si hj hk hkj hjl hkl hil hjp hkp (o := or) rfl
  have hv' : si.toNat + num c.base w jlen = v := hnum.trans hv.symm
  have hsum := num_sumDigit (B := c.base) w si.toNat jlen
  rw [hv'] at hsum
  have hzero : carry c.base w si.toNat jlen = 0 := by
    by_contra hne
    have := Nat.le_mul_of_pos_right (c.base ^ jlen) (Nat.pos_of_ne_zero hne)
    omega
  rw [hzero, Nat.mul_zero, Nat.add_zero] at hsum
  refine makes_of_trim (d := sumDigit c.base w si.toNat) ?_ hil (fun q _ => Nat.mod_lt _ c.base_pos) hsum
  unfold mpnOrNeg
  refine (Prog.bind_of_ok hrun).trans ?_
  rw [hcarry, hzero]
  rfl

theorem mpnXorNeg_makes {v : Nat}
    (hv : v = si.toNat + ((num c.base (h j).dig jlen - sj.toNat) ^^^ (num c.base (h k).dig klen - sk.toNat)))
    (hroom : v < c.base ^ (h i).alloc) :
    Makes (mpnXorNeg i j jlen k klen si.toNat (!sj).toNat (!sk).toNat) h i v := by
  have hone : ∀ s : Bool, s.toNat ≤ 1 := fun s => by cases s <;> decide
  have hfit : ∀ {u : Nat}, u < c.base → 1 + (u + c.mask) < c.base * (1 + 1) := by
    intro u hu
    rw [Config.mask_eq]
    omega
  have hkup := upTo_lt c.base_pos hk
  let x := fun q => (h j).dig q + c.mask
  let y := fun q => upTo klen (h k).dig q + c.mask
  have hloop := mpnNegLoop_eq (h := h) (i := i) (j := j) (k := k) (· + c.mask) (· + c.mask) (· ^^^ ·) (x := x)
    (y := y) hkj hjl hkl hil (hone si) (hone (!sj)) (hone (!sk)) (fun _ => rfl) (fun _ => rfl) (fun q hq => hfit (hj q hq))
    (fun q _ => hfit (hkup q))
  rw [Nat.zero_add] at hloop
  obtain ⟨a, hrun, hcarry⟩ := hloop
  have hdigit : ∀ q < jlen, ((carry c.base x (!sj).toNat q + x q) ^^^ (carry c.base y (!sk).toNat q + y q)) % c.base =
      Nat.bitwise bne (sumDigit c.base x (!sj).toNat q) (sumDigit c.base y (!sk).toNat q) := fun q _ => Nat.xor_mod_two_pow
  have hnum : num c.base (fun q => ((carry c.base x (!sj).toNat q + x q) ^^^ (carry c.base y (!sk).toNat q + y q)) % c.base) jlen =
      (num c.base (h j).dig jlen - sj.toNat) ^^^ (num c.base (h k).dig klen - sk.toNat) := by
    have hbits := num_bitwise (n := jlen) (o := bne) rfl (f := sumDigit c.base x (!sj).toNat) (g := sumDigit c.base y (!sk).toNat)
      (b := c.digSize) (fun q => Nat.mod_lt _ c.base_pos) (fun q => Nat.mod_lt _ c.base_pos)
    rw [num_congr hdigit]
    refine hbits.trans ?_
    change Nat.bitwise bne (num c.base _ jlen) (num c.base _ jlen) = _
    rw [num_operand_xor hj hjp, num_operand_xor (fun q _ => hkup q) (by rwa [num_upTo _ hkj]), num_upTo _ hkj]
    rfl
  rw [hv, ← hnum] at hroom ⊢
  refine makes_of_carry (hone si) (fun q _ => Nat.mod_lt _ c.base_pos) hil hroom ?_
  unfold mpnXorNeg
  refine (Prog.bind_of_ok hrun).trans ?_
  rw [hcarry]

end Neg

/-! ## The functions for operands that are not negative -/

theorem num_bitwise_upTo {o : Bool → Bool → Bool} (ho : o false false = false) {f g : Nat → Nat} {m n : Nat} (hmn : m ≤ n)
    (hf : ∀ q < n, f q < c.base) (hg : ∀ q < m, g q < c.base) :
    num c.base (fun q => Nat.bitwise o (f q) (upTo m g q)) n = Nat.bitwise o (num c.base f n) (num c.base g m) := by
  have hbits := num_bitwise (n := n) ho (f := upTo n f) (g := upTo m g) (b := c.digSize) (upTo_lt c.base_pos hf) (upTo_lt c.base_pos hg)
  have hsame : ∀ q < n, Nat.bitwise o (f q) (upTo m g q) = Nat.bitwise o (upTo n f q) (upTo m g q) := by
    intro q hq
    have hup : upTo n f q = f q := if_pos hq
    rw [hup]
  rw [num_congr hsame]
  refine hbits.trans ?_
  change Nat.bitwise o (num c.base _ n) (num c.base _ n) = _
  rw [num_upTo _ (Nat.le_refl n), num_upTo _ hmn]

section Plain

variable {jlen klen : Nat} (hj : ∀ q < jlen, (h j).dig q < c.base) (hk : ∀ q < klen, (h k).dig q < c.base)
  (hkj : klen ≤ jlen) (hjl : jlen ≤ (h j).alloc) (hkl : klen ≤ (h k).alloc) (hil : jlen ≤ (h i).alloc)
include hj hk hkj hjl hkl hil

theorem mpnAnd_makes : Makes (mpnAnd i j k klen) h i (num c.base (h j).dig jlen &&& num c.base (h k).dig klen) := by
  let d := fun q => (h j).dig q &&& upTo klen (h k).dig q
  have hbelow : ∀ q < klen, d q < c.base := fun q hq => Nat.bitwise_lt_two_pow (hj q (by omega)) (upTo_lt c.base_pos hk q)
  have hrun : mpnAnd i j k klen h = mpnRemoveTrailingZeros i klen (paint h i 0 klen d) := by
    unfold mpnAnd
    refine (sweep_bind (fun _ => ()) d rfl (fun q h' _ hq habove => ?_) (fun q _ hq => hbelow q (by omega)) (by omega)).trans ?_
    · have hup : upTo klen (h k).dig q = (h k).dig q := if_pos (by omega)
      rw [Prog.bind_of_ok (habove.readDig (r := j) (by omega) fun _ => by omega),
        Prog.bind_of_ok (habove.readDig (r := k) (by omega) fun _ => by omega)]
      show _ = (Except.ok ((), (h j).dig q &&& upTo klen (h k).dig q), h')
      rw [hup]
      rfl
    · rw [paint_base]
  refine makes_of_trim hrun (by omega) hbelow ?_
  -- past the end of `k` there is nothing
  have hpad : num c.base d jlen = num c.base d klen := by
    refine num_pad hkj fun q hq _ => ?_
    show (h j).dig q &&& upTo klen (h k).dig q = 0
    rw [upTo, if_neg (by omega), Nat.and_zero]
  rw [← hpad]
  exact num_bitwise_upTo (o := and) rfl hkj hj hk

theorem mpnMerge_eq {o : Bool → Bool → Bool} (ho : ∀ b, o b false = b) :
    mpnMerge (Nat.bitwise o) i j jlen k klen h =
      (.ok jlen, paint h i 0 jlen fun q => Nat.bitwise o ((h j).dig q) (upTo klen (h k).dig q)) := by
  let d := fun q => Nat.bitwise o ((h j).dig q) (upTo klen (h k).dig q)
  have hbelow : ∀ q < jlen, d q < c.base := fun q hq => Nat.bitwise_lt_two_pow (hj q hq) (upTo_lt c.base_pos hk q)
  unfold mpnMerge
  refine (sweep_bind (fun _ => ()) d rfl (fun q h' _ hq habove => ?_) (fun q _ hq => hbelow q (by omega)) (by omega)).trans ?_
  · have hup : upTo klen (h k).dig q = (h k).dig q := if_pos (by omega)
    rw [Prog.bind_of_ok (habove.readDig (r := j) (by omega) fun _ => by omega),
      Prog.bind_of_ok (habove.readDig (r := k) (by omega) fun _ => by omega)]
    show _ = (Except.ok ((), Nat.bitwise o ((h j).dig q) (upTo klen (h k).dig q)), h')
    rw [hup]
    rfl
  rw [paint_base]
  refine (sweep_bind (fun _ => ()) d rfl (fun q h' hp hq habove => ?_) (fun q _ hq => hbelow q (by omega))
    (by rw [paint_alloc]; omega)).trans ?_
  · have hfrom := (above_paint (h := h) (i := i) 0 klen d).trans habove (by omega)
    have hright : Nat.bitwise o ((h j).dig q) 0 = (h j).dig q := by
      rw [Nat.bitwise_zero_right, ho, if_pos rfl]
    rw [Prog.bind_of_ok (hfrom.readDig (r := j) (by omega) fun _ => by omega)]
    show _ = (Except.ok ((), Nat.bitwise o ((h j).dig q) (upTo klen (h k).dig q)), h')
    rw [upTo, if_neg (by omega), hright]
    rfl
  · rw [paint_base, paint_low, Nat.add_sub_cancel' hkj]
    rfl

theorem mpnOr_makes (hlead : jlen ≠ 0 → c.base ^ (jlen - 1) ≤ num c.base (h j).dig jlen) :
    Makes (mpnOr i j jlen k klen) h i (num c.base (h j).dig jlen ||| num c.base (h k).dig klen) := by
  have hnum := num_bitwise_upTo (o := or) rfl hkj hj hk
  refine makes_of_paint (mpnMerge_eq (o := or) hj hk hkj hjl hkl hil (by decide)) (Nat.le_refl _) hil ?_ hnum
  refine normal_of_le c.base_pos (fun q hq => Nat.bitwise_lt_two_pow (hj q hq) (upTo_lt c.base_pos hk q)) fun hne => ?_
  rw [hnum]
  exact Nat.le_trans (hlead hne) Nat.left_le_or

theorem mpnXor_makes : Makes (mpnXor i j jlen k klen) h i (num c.base (h j).dig jlen ^^^ num c.base (h k).dig klen) := by
  refine makes_of_trim ?_ hil (fun q hq => Nat.bitwise_lt_two_pow (hj q hq) (upTo_lt c.base_pos hk q))
    (num_bitwise_upTo (o := bne) rfl hkj hj hk)
  unfold mpnXor
  exact Prog.bind_of_ok (mpnMerge_eq (o := bne) hj hk hkj hjl hkl hil (by decide))

end Plain

/-! ## Numbers with a sign -/

/-- The magnitude of a result with the given pattern. -/
def unpattern (c : Config) (n : Nat) (neg : Bool) (a : Nat) : Nat := if neg then c.base ^ n - a else a

theorem signed_unpattern {n a : Nat} {neg : Bool} (ha : a < c.base ^ n) :
    signed neg (unpattern c n neg a) = ofPattern (c.digSize * n) a neg := by
  cases neg with
  | false => rfl
  | true =>
    show -((c.base ^ n - a : Nat) : Int) = (a : Int) - 2 ^ (c.digSize * n)
    have hpow : ((2 ^ (c.digSize * n) : Nat) : Int) = 2 ^ (c.digSize * n) := Nat.cast_pow 2 _
    rw [← hpow, ← pow_base, Nat.cast_sub (Nat.le_of_lt ha)]
    omega

theorem unpattern_pos {n a : Nat} {neg : Bool} (ha : a < c.base ^ n) (hzero : unpattern c n neg a = 0) : neg = false := by
  cases neg with
  | false => rfl
  | true =>
    change c.base ^ n - a = 0 at hzero
    omega

theorem unpattern_le {n a : Nat} {neg : Bool} (ha : a < c.base ^ n) : unpattern c n neg a ≤ c.base ^ n := by
  unfold unpattern
  split <;> omega

/-- The bits of an operation on objects with at most `n` digits. -/
theorem bitwise_value {o : Bool → Bool → Bool} (ho : o false false = false) {n u v : Nat} {s t : Bool} (hu : u < c.base ^ n)
    (hv : v < c.base ^ n) (hsu : s = true → 0 < u) (htv : t = true → 0 < v) :
    Int.bitwise o (signed s u) (signed t v) =
      signed (o s t) (unpattern c n (o s t) (Nat.bitwise o (pattern c n s u) (pattern c n t v))) ∧
      Nat.bitwise o (pattern c n s u) (pattern c n t v) < c.base ^ n := by
  have hpu := pattern_lt hu hsu
  have hpv := pattern_lt hv htv
  have hlt : Nat.bitwise o (pattern c n s u) (pattern c n t v) < c.base ^ n := by
    rw [pow_base] at hpu hpv ⊢
    exact Nat.bitwise_lt_two_pow hpu hpv
  refine ⟨?_, hlt⟩
  rw [signed_unpattern hlt, ← ofPattern_pattern hu, ← ofPattern_pattern hv]
  rw [pow_base] at hpu hpv
  exact bitwise_ofPattern ho hpu hpv

theorem wp_sized {β : Type} {x : M c ι Nat} {need v : Nat} (room : Nat) {k : Unit → M c ι β} {Q : β → Heap c ι → Prop}
    {R : Fault → Heap c ι → Prop} (hg : Grown h h' dest need) (hneed : need ≤ room) (hx : Makes x h' dest v)
    (hk : ∀ h'', Sized h h'' dest v room → Prog.wp (k ()) Q R h'') : Prog.wp (x >>= fun n => setLen dest n >>= k) Q R h' := by
  refine wp_makes hx fun n f hn hf hnum => ?_
  rw [wp_setLen_bind]
  exact hk _ ⟨h', need, n, f, hg, hneed, hn, hf, hnum, rfl⟩

theorem MpzT.Normal.mag_pos {z : MpzT c} (hz : z.Normal) (hneg : z.neg = true) : 0 < z.mag := by
  refine Nat.pos_of_ne_zero fun hmag => ?_
  have hlen := (hz.digits.num_eq_zero c.base_pos).mp hmag
  rw [hz.zero hlen] at hneg
  exact Bool.false_ne_true hneg

/-- A bitwise result stored. -/
theorem Sized.bits {o : Bool → Bool → Bool} (ho : o false false = false) {n room v : Nat} {h'' : Heap c ι} (hl : (h lhs).Normal)
    (hr : (h rhs).Normal) (hlen : (h lhs).len ≤ n ∧ (h rhs).len ≤ n) (hd : (h dest).alloc ≤ room) (h2 : 2 ≤ room)
    (hv : v = unpattern c n (o (h lhs).neg (h rhs).neg)
      (Nat.bitwise o (pattern c n (h lhs).neg (h lhs).mag) (pattern c n (h rhs).neg (h rhs).mag)))
    (hs : Sized h h'' dest v room) :
    Stored h (putNeg h'' dest (o (h lhs).neg (h rhs).neg)) dest (Int.bitwise o (h lhs).value (h rhs).value) room := by
  have hu := Nat.lt_of_lt_of_le hl.mag_lt (Nat.pow_le_pow_right c.base_pos hlen.1)
  have hw := Nat.lt_of_lt_of_le hr.mag_lt (Nat.pow_le_pow_right c.base_pos hlen.2)
  obtain ⟨hvalue, hlt⟩ := bitwise_value ho hu hw hl.mag_pos hr.mag_pos
  refine hs.stored hd h2 (fun hz => ?_) ?_
  · rw [hs.len_eq_zero, hv] at hz
    exact unpattern_pos hlt hz
  · rw [hv]
    exact hvalue.symm

theorem xor_all {n a : Nat} (ha : a < c.base ^ n) : a ^^^ (c.base ^ n - 1) = c.base ^ n - 1 - a := by
  rw [pow_base] at ha ⊢
  exact xor_mask ha

theorem sub_eq_turned {n v : Nat} {s : Bool} (hv : v < c.base ^ n) (hpos : s = true → 0 < v) :
    v - s.toNat = pattern c n s v ^^^ (if s then c.base ^ n - 1 else 0) := by
  cases s with
  | false => exact (Nat.xor_zero v).symm
  | true =>
    have := hpos rfl
    show v - 1 = (c.base ^ n - v) ^^^ (c.base ^ n - 1)
    rw [xor_all (by omega)]
    omega

/-- So what mpn_xor_neg makes is the exclusive or of the patterns, turned if the signs differ. -/
theorem xor_turned {n u v : Nat} {s t : Bool} (hu : u < c.base ^ n) (hv : v < c.base ^ n) (hsu : s = true → 0 < u)
    (htv : t = true → 0 < v) :
    (s != t).toNat + ((u - s.toNat) ^^^ (v - t.toNat)) = unpattern c n (s != t) (pattern c n s u ^^^ pattern c n t v) := by
  have hlt := (bitwise_value (o := bne) rfl hu hv hsu htv).2
  change pattern c n s u ^^^ pattern c n t v < _ at hlt
  have hmask : ((if s then c.base ^ n - 1 else 0) ^^^ (if t then c.base ^ n - 1 else 0)) = if s != t then c.base ^ n - 1 else 0 := by
    cases s <;> cases t <;> simp
  have hswap : (u - s.toNat) ^^^ (v - t.toNat) = (pattern c n s u ^^^ pattern c n t v) ^^^ (if s != t then c.base ^ n - 1 else 0) := by
    rw [sub_eq_turned hu hsu, sub_eq_turned hv htv, ← hmask]
    ac_rfl
  rw [hswap]
  cases s != t with
  | false =>
    show 0 + (_ ^^^ 0) = _
    rw [Nat.zero_add, Nat.xor_zero]
    rfl
  | true =>
    show 1 + (_ ^^^ (c.base ^ n - 1)) = c.base ^ n - _
    rw [xor_all hlt]
    omega

/-! Each function on magnitudes, in a destination that room was made in. -/

section Grown

variable {need : Nat} (hl : (h lhs).Normal) (hr : (h rhs).Normal) (hlen : (h rhs).len ≤ (h lhs).len) (hg : Grown h h' dest need)
include hl hr hlen hg

theorem mpnAndNeg_grown (hneed : (h lhs).len + ((h lhs).neg && (h rhs).neg).toNat ≤ need) :
    Makes (mpnAndNeg dest lhs (h' lhs).len rhs (h' rhs).len ((h lhs).neg && (h rhs).neg).toNat (h lhs).neg.toNat (h rhs).neg.toNat)
      h' dest (unpattern c (h lhs).len ((h lhs).neg && (h rhs).neg)
        (pattern c (h lhs).len (h lhs).neg (h lhs).mag &&& pattern c (h lhs).len (h rhs).neg (h rhs).mag)) := by
  have hnl := hg.normal hl
  have hnr := hg.normal hr
  have hml : num c.base (h' lhs).dig (h' lhs).len = (h lhs).mag := hg.mag_eq hl
  have hmr : num c.base (h' rhs).dig (h' rhs).len = (h rhs).mag := hg.mag_eq hr
  have hspace : (h lhs).len + ((h lhs).neg && (h rhs).neg).toNat ≤ (h' dest).alloc := Nat.le_trans hneed hg.need_le
  have hw := Nat.lt_of_lt_of_le hr.mag_lt (Nat.pow_le_pow_right c.base_pos hlen)
  have hlt := (bitwise_value (o := and) rfl hl.mag_lt hw hl.mag_pos hr.mag_pos).2
  refine mpnAndNeg_makes hnl.digits.below hnr.digits.below (by rwa [hg.len_eq, hg.len_eq]) hnl.fits hnr.fits
    (by rw [hg.len_eq]; omega) (by rw [hml]; exact hl.mag_pos) (by rw [hmr]; exact hr.mag_pos) ?_ ?_
  · rw [hml, hmr, hg.len_eq]
    rfl
  · cases hboth : (h lhs).neg && (h rhs).neg with
    | false => exact Nat.lt_of_lt_of_le hlt (Nat.pow_le_pow_right c.base_pos (by omega))
    | true =>
      rw [hboth] at hspace
      exact Nat.lt_of_le_of_lt (unpattern_le hlt) (Nat.pow_lt_pow_right c.one_lt_base hspace)

theorem mpnOrNeg_grown (hneed : (h lhs).len ≤ need) :
    Makes (mpnOrNeg dest lhs (h' lhs).len rhs (h' rhs).len ((h lhs).neg || (h rhs).neg).toNat (h lhs).neg.toNat (h rhs).neg.toNat)
      h' dest (unpattern c (h lhs).len ((h lhs).neg || (h rhs).neg)
        (pattern c (h lhs).len (h lhs).neg (h lhs).mag ||| pattern c (h lhs).len (h rhs).neg (h rhs).mag)) := by
  have hnl := hg.normal hl
  have hnr := hg.normal hr
  have hml : num c.base (h' lhs).dig (h' lhs).len = (h lhs).mag := hg.mag_eq hl
  have hmr : num c.base (h' rhs).dig (h' rhs).len = (h rhs).mag := hg.mag_eq hr
  have hspace : (h lhs).len ≤ (h' dest).alloc := Nat.le_trans hneed hg.need_le
  have hu := hl.mag_lt
  have hw := Nat.lt_of_lt_of_le hr.mag_lt (Nat.pow_le_pow_right c.base_pos hlen)
  have hlt := (bitwise_value (o := or) rfl hu hw hl.mag_pos hr.mag_pos).2
  refine mpnOrNeg_makes hnl.digits.below hnr.digits.below (by rwa [hg.len_eq, hg.len_eq]) hnl.fits hnr.fits
    (by rwa [hg.len_eq]) (by rw [hml]; exact hl.mag_pos) (by rw [hmr]; exact hr.mag_pos) ?_ ?_
  · rw [hml, hmr, hg.len_eq]
    rfl
  · -- the pattern of a negative operand is not zero, so nothing is carried out
    rw [hg.len_eq]
    cases heither : (h lhs).neg || (h rhs).neg with
    | false => exact hlt
    | true =>
      refine Nat.sub_lt (Nat.pow_pos c.base_pos) ?_
      rcases Bool.or_eq_true _ _ ▸ heither with hneg | hneg
      · rw [hneg]
        exact Nat.lt_of_lt_of_le (Nat.sub_pos_of_lt hu) Nat.left_le_or
      · rw [hneg]
        exact Nat.lt_of_lt_of_le (Nat.sub_pos_of_lt hw) Nat.right_le_or

theorem mpnXorNeg_grown (hneed : (h lhs).len + ((h lhs).neg != (h rhs).neg).toNat ≤ need) :
    Makes (mpnXorNeg dest lhs (h' lhs).len rhs (h' rhs).len ((h lhs).neg != (h rhs).neg).toNat (!(h lhs).neg).toNat (!(h rhs).neg).toNat)
      h' dest (unpattern c (h lhs).len ((h lhs).neg != (h rhs).neg)
        (pattern c (h lhs).len (h lhs).neg (h lhs).mag ^^^ pattern c (h lhs).len (h rhs).neg (h rhs).mag)) := by
  have hnl := hg.normal hl
  have hnr := hg.normal hr
  have hml : num c.base (h' lhs).dig (h' lhs).len = (h lhs).mag := hg.mag_eq hl
  have hmr : num c.base (h' rhs).dig (h' rhs).len = (h rhs).mag := hg.mag_eq hr
  have hspace : (h lhs).len + ((h lhs).neg != (h rhs).neg).toNat ≤ (h' dest).alloc := Nat.le_trans hneed hg.need_le
  have hw := Nat.lt_of_lt_of_le hr.mag_lt (Nat.pow_le_pow_right c.base_pos hlen)
  have hlt := (bitwise_value (o := bne) rfl hl.mag_lt hw hl.mag_pos hr.mag_pos).2
  refine mpnXorNeg_makes hnl.digits.below hnr.digits.below (by rwa [hg.len_eq, hg.len_eq]) hnl.fits hnr.fits
    (by rw [hg.len_eq]; omega) (by rw [hml]; exact hl.mag_pos) (by rw [hmr]; exact hr.mag_pos) ?_ ?_
  · rw [hml, hmr]
    exact (xor_turned hl.mag_lt hw hl.mag_pos hr.mag_pos).symm
  · cases hdiff : (h lhs).neg != (h rhs).neg with
    | false => exact Nat.lt_of_lt_of_le hlt (Nat.pow_le_pow_right c.base_pos (by omega))
    | true =>
      rw [hdiff] at hspace
      exact Nat.lt_of_le_of_lt (unpattern_le hlt) (Nat.pow_lt_pow_right c.one_lt_base hspace)

variable (hneed : (h lhs).len ≤ need)
include hneed

theorem mpnAnd_grown : Makes (mpnAnd dest lhs rhs (h' rhs).len) h' dest ((h lhs).mag &&& (h rhs).mag) := by
  have hnl := hg.normal hl
  have hnr := hg.normal hr
  have hmake := mpnAnd_makes (h := h') (i := dest) hnl.digits.below hnr.digits.below (by rwa [hg.len_eq, hg.len_eq]) hnl.fits hnr.fits
    (by rw [hg.len_eq]; exact Nat.le_trans hneed hg.need_le)
  rwa [← hg.mag_eq hl, ← hg.mag_eq hr]

theorem mpnOr_grown : Makes (mpnOr dest lhs (h' lhs).len rhs (h' rhs).len) h' dest ((h lhs).mag ||| (h rhs).mag) := by
  have hnl := hg.normal hl
  have hnr := hg.normal hr
  have hmake := mpnOr_makes (h := h') (i := dest) hnl.digits.below hnr.digits.below (by rwa [hg.len_eq, hg.len_eq]) hnl.fits hnr.fits
    (by rw [hg.len_eq]; exact Nat.le_trans hneed hg.need_le) hnl.digits.pow_le
  rwa [← hg.mag_eq hl, ← hg.mag_eq hr]

theorem mpnXor_grown : Makes (mpnXor dest lhs (h' lhs).len rhs (h' rhs).len) h' dest ((h lhs).mag ^^^ (h rhs).mag) := by
  have hnl := hg.normal hl
  have hnr := hg.normal hr
  have hmake := mpnXor_makes (h := h') (i := dest) hnl.digits.below hnr.digits.below (by rwa [hg.len_eq, hg.len_eq]) hnl.fits hnr.fits
    (by rw [hg.len_eq]; exact Nat.le_trans hneed hg.need_le)
  rwa [← hg.mag_eq hl, ← hg.mag_eq hr]

end Grown

section Ordered

variable {room : Nat} (hl : (h lhs).Normal) (hr : (h rhs).Normal) (hlen : (h rhs).len ≤ (h lhs).len)
  (hfixed : (h dest).fixedDig = false) (hd : (h dest).alloc ≤ room) (hroom : (h lhs).len + 2 ≤ room)
include hl hr hlen hfixed hd hroom

theorem mpzAndOrdered_gives : Gives (mpzAndOrdered dest lhs rhs) h dest (Int.bitwise and (h lhs).value (h rhs).value) room := by
  have hle : ((h lhs).neg || (h rhs).neg).toNat ≤ 1 := Bool.toNat_le _
  have hle' : ((h lhs).neg && (h rhs).neg).toNat ≤ ((h lhs).neg || (h rhs).neg).toNat := by
    cases (h lhs).neg <;> cases (h rhs).neg <;> decide
  unfold Gives mpzAndOrdered
  rw [wp_look_bind, wp_look_bind]
  by_cases hopt : c.optBitwise
  · rw [if_pos hopt]
    by_cases hplain : (!(h lhs).neg && !(h rhs).neg) = true
    · have hsl : (h lhs).neg = false := by cases hs : (h lhs).neg <;> simp_all
      have hsr : (h rhs).neg = false := by cases hs : (h rhs).neg <;> simp_all
      rw [if_pos hplain, wp_look_bind]
      refine Prog.wp_bind.mpr (wp_mpzNeedDig hfixed (by omega) (by omega) fun h' hg => ?_)
      rw [wp_look_bind]
      refine wp_sized room hg (by omega) (mpnAnd_grown hl hr hlen hg (Nat.le_refl _)) fun h'' hs => ?_
      have hbits := hs.bits (o := and) rfl hl hr ⟨Nat.le_refl _, hlen⟩ hd (by omega) (by rw [hsl, hsr]; rfl)
      rw [hsl, hsr] at hbits
      exact hbits
    · have hcarry : ((h lhs).neg == (h rhs).neg).toNat = ((h lhs).neg && (h rhs).neg).toNat := by
        cases hs : (h lhs).neg <;> cases ht : (h rhs).neg <;> simp_all
      rw [if_neg hplain, wp_look_bind]
      refine Prog.wp_bind.mpr (wp_mpzNeedDig hfixed (by omega) (by omega) fun h' hg => ?_)
      rw [wp_look_bind, wp_look_bind, hcarry]
      refine wp_sized room hg (by omega) (mpnAndNeg_grown hl hr hlen hg (by omega)) fun h'' hs => ?_
      rw [wp_look_bind, wp_look_bind, wp_setNeg, hs.neg_eq, hs.neg_eq]
      exact hs.bits rfl hl hr ⟨Nat.le_refl _, hlen⟩ hd (by omega) rfl
  · have hcarry : (if (h lhs).neg = (h rhs).neg then (h lhs).neg.toNat else 0) = ((h lhs).neg && (h rhs).neg).toNat := by
      cases (h lhs).neg <;> cases (h rhs).neg <;> rfl
    rw [if_neg hopt, wp_look_bind]
    refine Prog.wp_bind.mpr (wp_mpzNeedDig hfixed (by omega) (by omega) fun h' hg => ?_)
    rw [wp_look_bind, wp_look_bind, hcarry]
    refine wp_sized room hg (by omega) (mpnAndNeg_grown hl hr hlen hg (by omega)) fun h'' hs => ?_
    rw [wp_look_bind, wp_look_bind, wp_setNeg, hs.neg_eq, hs.neg_eq]
    exact hs.bits rfl hl hr ⟨Nat.le_refl _, hlen⟩ hd (by omega) rfl

theorem mpzOrOrdered_gives : Gives (mpzOrOrdered dest lhs rhs) h dest (Int.bitwise or (h lhs).value (h rhs).value) room := by
  have hle : ((h lhs).neg || (h rhs).neg).toNat ≤ 1 := Bool.toNat_le _
  unfold Gives mpzOrOrdered
  rw [wp_look_bind, wp_look_bind]
  by_cases hopt : c.optBitwise
  · rw [if_pos hopt]
    by_cases hplain : (!(h lhs).neg && !(h rhs).neg) = true
    · have hsl : (h lhs).neg = false := by cases hs : (h lhs).neg <;> simp_all
      have hsr : (h rhs).neg = false := by cases hs : (h rhs).neg <;> simp_all
      rw [if_pos hplain, wp_look_bind]
      refine Prog.wp_bind.mpr (wp_mpzNeedDig hfixed (by omega) (by omega) fun h' hg => ?_)
      rw [wp_look_bind, wp_look_bind]
      refine wp_sized room hg (by omega) (mpnOr_grown hl hr hlen hg (Nat.le_refl _)) fun h'' hs => ?_
      have hbits := hs.bits (o := or) rfl hl hr ⟨Nat.le_refl _, hlen⟩ hd (by omega) (by rw [hsl, hsr]; rfl)
      rw [hsl, hsr] at hbits
      exact hbits
    · have hone : ((h lhs).neg || (h rhs).neg) = true := by
        cases hs : (h lhs).neg <;> cases ht : (h rhs).neg <;> simp_all
      rw [if_neg hplain, wp_look_bind]
      refine Prog.wp_bind.mpr (wp_mpzNeedDig hfixed (by omega) (by omega) fun h' hg => ?_)
      have hmake := mpnOrNeg_grown hl hr hlen hg (Nat.le_succ _)
      rw [hone] at hmake
      rw [wp_look_bind, wp_look_bind]
      refine wp_sized room hg (by omega) hmake fun h'' hs => ?_
      have hbits := hs.bits (o := or) rfl hl hr ⟨Nat.le_refl _, hlen⟩ hd (by omega) (by rw [hone]; rfl)
      rw [hone] at hbits
      exact hbits
  · rw [if_neg hopt, wp_look_bind]
    refine Prog.wp_bind.mpr (wp_mpzNeedDig hfixed (by omega) (by omega) fun h' hg => ?_)
    rw [wp_look_bind, wp_look_bind]
    refine wp_sized room hg (by omega) (mpnOrNeg_grown hl hr hlen hg (by omega)) fun h'' hs => ?_
    rw [wp_look_bind, wp_look_bind, wp_setNeg, hs.neg_eq, hs.neg_eq]
    exact hs.bits rfl hl hr ⟨Nat.le_refl _, hlen⟩ hd (by omega) rfl

theorem mpzXorOrdered_gives : Gives (mpzXorOrdered dest lhs rhs) h dest (Int.bitwise bne (h lhs).value (h rhs).value) room := by
  have hle : ((h lhs).neg || (h rhs).neg).toNat ≤ 1 := Bool.toNat_le _
  have hle' : ((h lhs).neg != (h rhs).neg).toNat ≤ ((h lhs).neg || (h rhs).neg).toNat := by
    cases (h lhs).neg <;> cases (h rhs).neg <;> decide
  unfold Gives mpzXorOrdered
  rw [wp_look_bind, wp_look_bind]
  by_cases hopt : c.optBitwise
  · rw [if_pos hopt]
    by_cases hsame : (h lhs).neg = (h rhs).neg
    · have hdiff : ((h lhs).neg != (h rhs).neg) = false := by rw [hsame, bne_self_eq_false]
      rw [if_pos hsame, wp_look_bind]
      refine Prog.wp_bind.mpr (wp_mpzNeedDig hfixed (by omega) (by omega) fun h' hg => ?_)
      rw [wp_look_bind, hg.neg_eq]
      have hstore : ∀ {h''}, Sized h h'' dest (unpattern c (h lhs).len ((h lhs).neg != (h rhs).neg)
          (pattern c (h lhs).len (h lhs).neg (h lhs).mag ^^^ pattern c (h lhs).len (h rhs).neg (h rhs).mag)) room →
          Stored h (putNeg h'' dest false) dest (Int.bitwise bne (h lhs).value (h rhs).value) room := by
        intro h'' hs
        have hbits := hs.bits (o := bne) rfl hl hr ⟨Nat.le_refl _, hlen⟩ hd (by omega) rfl
        rwa [hdiff] at hbits
      cases hsl : (h lhs).neg with
      | false =>
        have hsr : (h rhs).neg = false := by rw [← hsame, hsl]
        rw [hsl, hsr] at hstore
        show Prog.wp (look lhs MpzT.len >>= _) _ _ h'
        rw [wp_look_bind, wp_look_bind]
        exact wp_sized room hg (by omega) (mpnXor_grown hl hr hlen hg (Nat.le_refl _)) fun h'' hs => hstore hs
      | true =>
        have hsr : (h rhs).neg = true := by rw [← hsame, hsl]
        have hmake := mpnXorNeg_grown hl hr hlen hg (by rw [hdiff]; exact Nat.le_refl _)
        rw [hsl, hsr] at hstore hmake
        show Prog.wp (look lhs MpzT.len >>= _) _ _ h'
        rw [wp_look_bind, wp_look_bind]
        exact wp_sized room hg (by omega) hmake fun h'' hs => hstore hs
    · have hdiff : ((h lhs).neg != (h rhs).neg) = true := bne_iff_ne.mpr hsame
      rw [if_neg hsame, wp_look_bind]
      refine Prog.wp_bind.mpr (wp_mpzNeedDig hfixed (by omega) (by omega) fun h' hg => ?_)
      have hmake := mpnXorNeg_grown hl hr hlen hg (by omega)
      rw [hdiff] at hmake
      rw [wp_look_bind, wp_look_bind]
      refine wp_sized room hg (by omega) hmake fun h'' hs => ?_
      have hbits := hs.bits (o := bne) rfl hl hr ⟨Nat.le_refl _, hlen⟩ hd (by omega) (by rw [hdiff]; rfl)
      rw [hdiff] at hbits
      exact hbits
  · rw [if_neg hopt, wp_look_bind]
    refine Prog.wp_bind.mpr (wp_mpzNeedDig hfixed (by omega) (by omega) fun h' hg => ?_)
    rw [wp_look_bind, wp_look_bind]
    refine wp_sized room hg (by omega) (mpnXorNeg_grown hl hr hlen hg (by omega)) fun h'' hs => ?_
    rw [wp_look_bind, wp_look_bind, wp_setNeg, hs.neg_eq, hs.neg_eq]
    exact hs.bits rfl hl hr ⟨Nat.le_refl _, hlen⟩ hd (by omega) rfl

end Ordered

/-! ## The operations together -/

theorem bitwise_comm {o : Bool → Bool → Bool} (ho : ∀ a b, o a b = o b a) (x y : Int) : Int.bitwise o x y = Int.bitwise o y x := by
  refine eq_of_testBit fun n => ?_
  rw [Int.testBit_bitwise, Int.testBit_bitwise, ho]

omit [DecidableEq ι] in
/-- An operation whose order does not matter, given the longer operand first. -/
theorem mostDigits_gives {op : Ref ι → Ref ι → M c ι Unit} {o : Bool → Bool → Bool} {room : Nat} (ho : ∀ a b, o a b = o b a)
    (hl : (h lhs).Normal) (hr : (h rhs).Normal)
    (hop : ∀ {l r}, (h l).Normal → (h r).Normal → (h r).len ≤ (h l).len → (h l).len + 2 ≤ room →
      Gives (op l r) h dest (Int.bitwise o (h l).value (h r).value) room)
    (hroom : (h lhs).len + (h rhs).len + 2 ≤ room) :
    Gives (mostDigits op lhs rhs) h dest (Int.bitwise o (h lhs).value (h rhs).value) room := by
  unfold Gives mostDigits
  rw [wp_look_bind, wp_look_bind]
  by_cases hlt : (h lhs).len < (h rhs).len
  · rw [if_pos hlt, bitwise_comm ho]
    exact hop hr hl (by omega) (by omega)
  · rw [if_neg hlt]
    exact hop hl hr (by omega) (by omega)

variable (dest) in
theorem mpzAndInpl_gives {room : Nat} (hl : (h lhs).Normal) (hr : (h rhs).Normal) (hfixed : (h dest).fixedDig = false)
    (hd : (h dest).alloc ≤ room) (hroom : (h lhs).len + (h rhs).len + 2 ≤ room) :
    Gives (mpzAndInpl dest lhs rhs) h dest (Int.land (h lhs).value (h rhs).value) room := by
  rw [← Int.bitwise_and]
  exact mostDigits_gives Bool.and_comm hl hr (fun hl hr hlen => mpzAndOrdered_gives hl hr hlen hfixed hd) hroom

variable (dest) in
theorem mpzOrInpl_gives {room : Nat} (hl : (h lhs).Normal) (hr : (h rhs).Normal) (hfixed : (h dest).fixedDig = false)
    (hd : (h dest).alloc ≤ room) (hroom : (h lhs).len + (h rhs).len + 2 ≤ room) :
    Gives (mpzOrInpl dest lhs rhs) h dest (Int.lor (h lhs).value (h rhs).value) room := by
  rw [← Int.bitwise_or]
  exact mostDigits_gives Bool.or_comm hl hr (fun hl hr hlen => mpzOrOrdered_gives hl hr hlen hfixed hd) hroom

variable (dest) in
theorem mpzXorInpl_gives {room : Nat} (hl : (h lhs).Normal) (hr : (h rhs).Normal) (hfixed : (h dest).fixedDig = false)
    (hd : (h dest).alloc ≤ room) (hroom : (h lhs).len + (h rhs).len + 2 ≤ room) :
    Gives (mpzXorInpl dest lhs rhs) h dest (Int.xor (h lhs).value (h rhs).value) room := by
  rw [← Int.bitwise_xor]
  exact mostDigits_gives Bool.xor_comm hl hr (fun hl hr hlen => mpzXorOrdered_gives hl hr hlen hfixed hd) hroom

/-- And, or and exclusive or of the infinite two's complements, whichever of the three places are one
object and whichever is longer. -/
theorem mpz_bits_exact (hl : (h lhs).Normal) (hr : (h rhs).Normal) (hfixed : (h dest).fixedDig = false) :
    Gives (mpzAndInpl dest lhs rhs) h dest (Int.land (h lhs).value (h rhs).value) (roomFor h dest lhs rhs 0) ∧
      Gives (mpzOrInpl dest lhs rhs) h dest (Int.lor (h lhs).value (h rhs).value) (roomFor h dest lhs rhs 0) ∧
      Gives (mpzXorInpl dest lhs rhs) h dest (Int.xor (h lhs).value (h rhs).value) (roomFor h dest lhs rhs 0) := by
  have hfl := hl.fits
  have hfr := hr.fits
  have hd : (h dest).alloc ≤ roomFor h dest lhs rhs 0 := by
    unfold roomFor
    omega
  have hroom : (h lhs).len + (h rhs).len + 2 ≤ roomFor h dest lhs rhs 0 := by
    unfold roomFor
    omega
  exact ⟨mpzAndInpl_gives _ hl hr hfixed hd hroom, mpzOrInpl_gives _ hl hr hfixed hd hroom, mpzXorInpl_gives _ hl hr hfixed hd hroom⟩

theorem mpz_bits_exact_mixed : (twoObjects (.obj true)).value = -65537 ∧ (twoObjects (.obj false)).value = 65535 ∧
    Gives (mpzAndInpl (.obj false) (.obj false) (.obj true)) twoObjects (.obj false) (Int.land 65535 (-65537))
      (roomFor twoObjects (.obj false) (.obj false) (.obj true) 0) :=
  ⟨by decide, by decide, (mpz_bits_exact (twoObjects_normal false) (twoObjects_normal true) rfl).1⟩

end PythonUltra.Py.Mpz
