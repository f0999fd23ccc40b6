/-
  PythonUltra.Py.ParsenumSpec — what integers a text is read as.

  Both loops read digits of one alphabet (`ascii`). The first goes over digits and
  underscores until a small int would not hold the number; the second goes over digits only,
  so a large number with an underscore is refused, and where underscores stand is looked at
  by neither.
-/

import PythonUltra.Lib.Numeral
import PythonUltra.Py.Parsenum
import PythonUltra.Py.ObjintExact
import Mathlib.Data.List.TakeWhile

namespace PythonUltra.Py.Parsenum

open PythonUltra.Lib PythonUltra.Lib.Digits PythonUltra.Py.Mpz PythonUltra.Py.Smallint PythonUltra.Py.Binary
open PythonUltra.Lib.Numeral (Alphabet)

theorem digitOf_underscore {c : UInt8} (hc : (c == '_'.toUInt8) = true) : digitOf c = none := by
  rw [eq_of_beq hc]
  decide

def ascii : Alphabet UInt8 where
  digit := digitOf
  isSep c := c == '_'.toUInt8
  digit_of_isSep := digitOf_underscore

theorem strDigit_eq (c : UInt8) : strDigit c = digitOf c := by
  have key : ∀ v : BitVec 8, strDigit ⟨v⟩ = digitOf ⟨v⟩ := by decide
  exact key c.toBitVec

theorem not_isspace_of_isBody {b : Nat} {c : UInt8} (hc : ascii.isBody b c = true) : isspace c = false := by
  have key : ∀ v : BitVec 8, (digitOf ⟨v⟩).isSome = true ∨ ((⟨v⟩ : UInt8) == '_'.toUInt8) = true → isspace ⟨v⟩ = false := by decide
  refine key c.toBitVec ?_
  rcases Bool.or_eq_true_iff.mp hc with hd | hs
  · obtain ⟨d, -, hd⟩ := Alphabet.isDigit_iff.mp hd
    exact Or.inl (by rw [show digitOf ⟨c.toBitVec⟩ = some d from hd]; rfl)
  · exact Or.inr hs

section
variable {abi : Abi} {b : Nat}

theorem half_cast (abi : Abi) : half abi.toConfig = ((2 ^ (abi.wordBits - 2) : Nat) : Int) := (Nat.cast_pow 2 _).symm

theorem half_large (abi : Abi) : 2 ^ 30 ≤ 2 ^ (abi.wordBits - 2) := by
  have hw := abi.wordBits_eq
  have hb := abi.wordBytes_eq
  exact Nat.pow_le_pow_right (by decide) (by omega)

theorem large_base (abi : Abi) : 2 ^ 16 ≤ abi.base := by
  have hd := abi.digSize_eq
  exact Nat.pow_le_pow_right (by decide) (by omega)

/-! ## The loop on a machine word -/

variable (abi) in
theorem scanDigits_eq (hb : 0 < b) (hb' : b ≤ 36) {v : Nat} (hv : v < 2 ^ (abi.wordBits - 2)) (l : List UInt8) :
    scanDigits abi b v l = if ascii.read b v (l.takeWhile (ascii.isBody b)) < 2 ^ (abi.wordBits - 2)
      then .ended (ascii.read b v (l.takeWhile (ascii.isBody b)) : Nat) (l.dropWhile (ascii.isBody b)) else .overflow := by
  have hhalf := half_cast abi
  have hlarge := half_large abi
  induction l generalizing v with
  | nil =>
    rw [List.takeWhile_nil, Alphabet.read_nil, if_pos hv]
    rfl
  | cons c l ih =>
    rw [scanDigits]
    by_cases hsep : c = '_'.toUInt8
    · have hs : ascii.isSep c = true := beq_iff_eq.mpr hsep
      have hbody : ascii.isBody b c = true := Alphabet.isBody_of_sep hs
      rw [if_pos hsep, ih hv, List.takeWhile_cons_of_pos hbody, List.dropWhile_cons_of_pos hbody, Alphabet.read_cons, Alphabet.next_sep hs]
    · have hs : ascii.isSep c = false := beq_eq_false_iff_ne.mpr hsep
      have hdigit : ascii.digit c = digitOf c := rfl
      have hend : ascii.isDigit b c = false → ¬ ascii.isBody b c = true := by
        intro hno
        unfold Alphabet.isBody
        rw [hno, hs]
        exact Bool.false_ne_true
      rw [if_neg hsep]
      cases hd : digitOf c with
      | none =>
        have hno := hend (by unfold Alphabet.isDigit; rw [hdigit, hd]; rfl)
        rw [List.takeWhile_cons_of_neg hno, List.dropWhile_cons_of_neg hno, Alphabet.read_nil, if_pos hv]
      | some d =>
        simp only
        by_cases hlt : d ≥ b
        · have hno := hend (by unfold Alphabet.isDigit; rw [hdigit, hd]; exact decide_eq_false (by omega))
          rw [if_pos hlt, List.takeWhile_cons_of_neg hno, List.dropWhile_cons_of_neg hno, Alphabet.read_nil, if_pos hv]
        · have hbody : ascii.isBody b c = true := Alphabet.isBody_of_digit (Alphabet.isDigit_iff.mpr ⟨d, by omega, hd⟩)
          have hnext : ascii.next b v c = v * b + d := Alphabet.next_digit hd
          have hgrow : v * b + d ≤ ascii.read b (v * b + d) (l.takeWhile (ascii.isBody b)) := Alphabet.le_read hb
          rw [if_neg hlt, List.takeWhile_cons_of_pos hbody, List.dropWhile_cons_of_pos hbody, Alphabet.read_cons, hnext]
          have hmul : mulOverflow abi.toConfig (v : Int) (b : Int) = true ↔ ¬ v * b < 2 ^ (abi.wordBits - 2) := by
            rw [mulOverflow_iff, inSmall_iff, ← Nat.cast_mul]
            omega
          by_cases hover : v * b < 2 ^ (abi.wordBits - 2)
          · have hsum : abi.sword ((v : Int) * b + d) = ((v * b + d : Nat) : Int) := by
              rw [← Nat.cast_mul, ← Nat.cast_add]
              exact sword_of (by omega) (by omega)
            have hfits : smallIntFits abi.toConfig ((v * b + d : Nat) : Int) = true ↔ v * b + d < 2 ^ (abi.wordBits - 2) := by
              rw [smallIntFits_iff (by omega) (by omega), inSmall_iff]
              omega
            rw [if_neg (by rw [hmul]; omega), hsum]
            by_cases hnew : v * b + d < 2 ^ (abi.wordBits - 2)
            · rw [if_pos (hfits.mpr hnew)]
              exact ih hnew
            · rw [if_neg (mt hfits.mp hnew), if_neg (by omega)]
          · rw [if_pos (hmul.mpr hover), if_neg (by omega)]

/-! ## The loop on an `mpz_t` -/

variable {ι : Type} [DecidableEq ι] {h : Heap abi.toConfig ι} {i z : Ref ι}

/-- It stays normal, and where there is no place for the last carry it writes past its digits. -/
theorem mpnMulDigAddDig_spec {ilen : Nat} (dmul dadd : Nat) (hi : Normal abi.base (h i).dig ilen) (hl : ilen ≤ (h i).alloc) (hmul : dmul < abi.base)
    (hadd : dadd < dmul) :
    Prog.wp (mpnMulDigAddDig i ilen dmul dadd)
      (fun n h' => num abi.base (h i).dig ilen * dmul + dadd < abi.base ^ (h i).alloc ∧ ∃ f, h' = withDig h i f ∧ n ≤ (h i).alloc ∧
        Normal abi.base f n ∧ num abi.base f n = num abi.base (h i).dig ilen * dmul + dadd)
      (fun e _ => e = .bounds ∧ abi.base ^ (h i).alloc ≤ num abi.base (h i).dig ilen * dmul + dadd) h := by
  have hB := abi.one_lt_base
  let x := fun p => (h i).dig p * dmul
  let d := sumDigits abi.base x dadd ilen
  have hx : ∀ p < ilen, dmul - 1 + x p < abi.base * (dmul - 1 + 1) := by
    intro p hp
    have hprod : (h i).dig p * dmul ≤ (abi.base - 1) * dmul := Nat.mul_le_mul_right _ (by have := hi.below p hp; omega)
    rw [Nat.sub_mul, Nat.one_mul] at hprod
    have hle : dmul ≤ abi.base * dmul := Nat.le_mul_of_pos_left _ (by omega)
    show dmul - 1 + (h i).dig p * dmul < _
    rw [Nat.sub_add_cancel (by omega)]
    omega
  have hcarry : carry abi.base x dadd ilen ≤ dmul - 1 := carry_le (by omega) hx (Nat.le_refl _)
  have hbelow : ∀ p, d p < abi.base := sumDigits_lt abi.base_pos (by omega)
  have hlast : d ilen = carry abi.base x dadd ilen := sumDigits_last x dadd ilen
  have hsum : num abi.base d (ilen + 1) = num abi.base (h i).dig ilen * dmul + dadd := by
    rw [num_sumDigits, num_mul_digits, Nat.add_comm]
  have hpos : ilen ≠ 0 → abi.base ^ (ilen - 1) ≤ num abi.base (h i).dig ilen * dmul + dadd := by
    intro hne
    have hle := hi.pow_le hne
    have hgrow : num abi.base (h i).dig ilen ≤ num abi.base (h i).dig ilen * dmul := Nat.le_mul_of_pos_right _ (by omega)
    omega
  have hrun : mpnMulDigAddDig i ilen dmul dadd h =
      (if carry abi.base x dadd ilen ≠ 0 then do
        writeDig i ilen (carry abi.base x dadd ilen)
        pure (ilen + 1)
      else pure ilen : M abi.toConfig ι Nat) (paint h i 0 ilen d) := by
    unfold mpnMulDigAddDig
    refine (carry_bind (x := x) (m := dmul - 1) d rfl (by omega) (by omega) (fun p hp => hx p (by omega))
      (fun p hp => sumDigits_of_lt (by omega)) (fun p a h' _ hp habove => ?_) (by omega)).trans ?_
    · have hsmall : x p < abi.base * abi.base := by
        have hxp := hx p (by omega)
        have hle : abi.base * (dmul - 1 + 1) ≤ abi.base * abi.base := Nat.mul_le_mul_left _ (by omega)
        omega
      have hprod : abi.dbl ((h i).dig p * dmul) = x p := Config.dbl_of_lt hsmall
      rw [Prog.bind_of_ok (habove.readDig (r := i) (by omega) fun _ => by omega), hprod]
      rfl
    rw [paint_base, Nat.zero_add]
  unfold Prog.wp
  rw [hrun]
  by_cases hno : carry abi.base x dadd ilen = 0
  · have hvalue : num abi.base d ilen = num abi.base (h i).dig ilen * dmul + dadd := by
      rw [← hsum, num_succ, hlast, hno, Nat.zero_mul, Nat.add_zero]
    rw [if_neg (not_not.mpr hno)]
    refine ⟨?_, overlay 0 ilen d (h i).dig, rfl, hl, ?_, ?_⟩
    · rw [← hvalue]
      exact Nat.lt_of_lt_of_le (num_lt abi.base_pos fun q _ => hbelow q) (Nat.pow_le_pow_right abi.base_pos hl)
    · refine (normal_of_le abi.base_pos (fun q _ => hbelow q) fun hne => ?_).congr fun q hq => (overlay_low hq).symm
      rw [hvalue]
      exact hpos hne
    · rw [num_congr fun q hq => overlay_low hq, hvalue]
  · have hge : abi.base ^ ilen ≤ num abi.base d (ilen + 1) := by
      rw [num_succ, hlast]
      exact Nat.le_trans (Nat.le_mul_of_pos_left _ (Nat.pos_of_ne_zero hno)) (Nat.le_add_left _ _)
    rw [if_pos hno]
    by_cases hspace : ilen < (h i).alloc
    · have hwrite : writeDig i ilen (carry abi.base x dadd ilen) (paint h i 0 ilen d) = (.ok (), paint h i 0 (ilen + 1) d) := by
        rw [writeDig_eq_paint (d := d) (by rwa [paint_alloc]) (by rw [hlast, Config.dig_of_lt (by omega)]), paint_low]
      rw [Prog.bind_of_ok hwrite]
      refine ⟨?_, overlay 0 (ilen + 1) d (h i).dig, rfl, hspace, ?_, ?_⟩
      · rw [← hsum]
        exact Nat.lt_of_lt_of_le (num_lt abi.base_pos fun q _ => hbelow q) (Nat.pow_le_pow_right abi.base_pos hspace)
      · refine (normal_of_le abi.base_pos (fun q _ => hbelow q) fun _ => ?_).congr fun q hq => (overlay_low hq).symm
        rw [Nat.add_sub_cancel]
        exact hge
      · rw [num_congr fun q hq => overlay_low hq, hsum]
    · have hwrite : writeDig i ilen (carry abi.base x dadd ilen) (paint h i 0 ilen d) = (.error .bounds, paint h i 0 ilen d) :=
        if_neg (by rwa [paint_alloc])
      rw [Prog.bind_of_error hwrite]
      refine ⟨rfl, ?_⟩
      rw [← hsum, show (h i).alloc = ilen by omega]
      exact hge

/-- The digits up to the first character that is none. -/
theorem setFromStr_spec (hb : 0 < b) (hb' : b ≤ 36) {v : Nat} (hz : Normal abi.base (h z).dig (h z).len) (hl : (h z).len ≤ (h z).alloc)
    (hv : num abi.base (h z).dig (h z).len = v) (l : List UInt8) (n : Nat) :
    Prog.wp (setFromStr z b l n)
      (fun m h' => m = n + (l.takeWhile (ascii.isDigit b)).length ∧ ascii.read b v (l.takeWhile (ascii.isDigit b)) < abi.base ^ (h z).alloc ∧
        ∃ f k, h' = stored h z f k (h z).neg ∧ k ≤ (h z).alloc ∧ Normal abi.base f k ∧
          num abi.base f k = ascii.read b v (l.takeWhile (ascii.isDigit b)))
      (fun e _ => e = .bounds ∧ abi.base ^ (h z).alloc ≤ ascii.read b v (l.takeWhile (ascii.isDigit b))) h := by
  have hlarge := large_base abi
  have hsmall : v < abi.base ^ (h z).alloc := by
    rw [← hv]
    exact Nat.lt_of_lt_of_le (hz.lt abi.base_pos) (Nat.pow_le_pow_right abi.base_pos hl)
  have hstop : n = n + ([] : List UInt8).length ∧ ascii.read b v [] < abi.base ^ (h z).alloc ∧
      ∃ f k, h = stored h z f k (h z).neg ∧ k ≤ (h z).alloc ∧ Normal abi.base f k ∧ num abi.base f k = ascii.read b v [] :=
    ⟨rfl, hsmall, (h z).dig, (h z).len, (Function.update_eq_self z h).symm, hl, hz, hv⟩
  induction l generalizing h v n with
  | nil => exact hstop
  | cons c l ih =>
    have hdigit : ascii.digit c = digitOf c := rfl
    rw [setFromStr, strDigit_eq]
    cases hd : digitOf c with
    | none =>
      have hno : ¬ ascii.isDigit b c = true := by
        unfold Alphabet.isDigit
        rw [hdigit, hd]
        exact Bool.false_ne_true
      rw [List.takeWhile_cons_of_neg hno]
      exact hstop
    | some d =>
      simp only
      by_cases hlt : d ≥ b
      · have hno : ¬ ascii.isDigit b c = true := by
          unfold Alphabet.isDigit
          rw [hdigit, hd]
          exact Bool.eq_false_iff.mp (decide_eq_false (by omega))
        rw [if_pos hlt, List.takeWhile_cons_of_neg hno]
        exact hstop
      · have hyes : ascii.isDigit b c = true := Alphabet.isDigit_iff.mpr ⟨d, by omega, hd⟩
        have hnext : ascii.next b v c = v * b + d := Alphabet.next_digit hd
        have hstep := mpnMulDigAddDig_spec (h := h) (i := z) b d hz hl (by omega) (by omega)
        rw [hv] at hstep
        rw [if_neg hlt, List.takeWhile_cons_of_pos hyes, Alphabet.read_cons, hnext, wp_look_bind]
        refine Prog.wp_then hstep (fun len h₁ hq => ?_) fun e _ he => ⟨he.1, Nat.le_trans he.2 (Alphabet.le_read hb)⟩
        obtain ⟨hroom, f, rfl, hlen, hf, hnum⟩ := hq
        rw [wp_setLen_bind]
        have hself : putLen (withDig h z f) z len z = { h z with dig := f, len := len } := by
          rw [putLen, Function.update_self, withDig, Function.update_self]
        have hrest := ih (h := putLen (withDig h z f) z len) (v := v * b + d) (n := n + 1) (by rw [hself]; exact hf) (by rw [hself]; exact hlen)
          (by rw [hself]; exact hnum) (by rw [hself]; exact hroom) ?_
        · rw [hself] at hrest
          refine Prog.wp_mono hrest (fun m h' hq => ?_) fun _ _ he => he
          obtain ⟨rfl, hlast, g, k, rfl, hk, hg, hgnum⟩ := hq
          refine ⟨by rw [List.length_cons]; omega, hlast, g, k, ?_, hk, hg, hgnum⟩
          unfold stored
          rw [hself]
          unfold putLen withDig
          simp
        · rw [hself]
          refine ⟨rfl, hroom, f, len, ?_, hlen, hf, hnum⟩
          unfold stored
          rw [hself]
          exact (Function.update_eq_self_iff.mpr hself.symm).symm

variable (abi) in
/-- The digits that are asked for, for a text of `n` characters. -/
def strRoom (n : Nat) : Nat := max 2 (abi.word (n * 8) / abi.digSize + 1)

theorem mpzSetFromStr_spec (hb : 0 < b) (hb' : b ≤ 36) {l : List UInt8} (neg : Bool) (hz : h z = initZero) :
    Prog.wp (mpzSetFromStr z l neg b)
      (fun m h' => m = (l.takeWhile (ascii.isDigit b)).length ∧ ascii.value b (l.takeWhile (ascii.isDigit b)) < abi.base ^ strRoom abi l.length ∧
        (0 < ascii.value b (l.takeWhile (ascii.isDigit b)) → Holds (h' z) (signed neg (ascii.value b (l.takeWhile (ascii.isDigit b))))) ∧
        ∀ r, r ≠ z → h' r = h r)
      (fun e _ => e = .memory ∨ e = .bounds ∧ abi.base ^ strRoom abi l.length ≤ ascii.value b (l.takeWhile (ascii.isDigit b))) h := by
  unfold mpzSetFromStr assert
  rw [if_pos (decide_eq_true hb')]
  show Prog.wp (mpzNeedDig z _ >>= _) _ _ h
  have hroom : abi.word (l.length * 8) / abi.digSize + 1 ≤ strRoom abi l.length := Nat.le_max_right _ _
  have htwo : 2 ≤ strRoom abi l.length := Nat.le_max_left _ _
  refine Prog.wp_bind.mpr (Prog.wp_mono (wp_mpzNeedDig (by rw [hz]; rfl) hroom htwo fun h₁ hg => ?_) (fun _ _ hq => hq) fun e _ he => .inl he.1)
  have halloc : (h₁ z).alloc = strRoom abi l.length :=
    Nat.le_antisymm (hg.le (by rw [hz]; exact Nat.zero_le _) hroom htwo) (Nat.max_le.mpr ⟨hg.two_le, hg.need_le⟩)
  rw [wp_setNeg_bind, wp_setLen_bind]
  have hself : putLen (putNeg h₁ z neg) z 0 z = { h₁ z with neg := neg, len := 0 } := by
    rw [putLen, Function.update_self, putNeg, Function.update_self]
  have hloop := setFromStr_spec (h := putLen (putNeg h₁ z neg) z 0) (z := z) hb hb' (v := 0)
    (by rw [hself]; exact ⟨fun q hq => absurd hq (Nat.not_lt_zero q), fun hne => absurd rfl hne⟩) (by rw [hself]; exact Nat.zero_le _)
    (by rw [hself]; rfl) l 0
  rw [hself] at hloop
  simp only [halloc] at hloop
  refine Prog.wp_mono hloop (fun m h₂ hq => ?_) fun e _ he => .inr he
  obtain ⟨rfl, hfits, f, k, rfl, hk, hf, hnum⟩ := hq
  have hend : stored (putLen (putNeg h₁ z neg) z 0) z f k neg z = { h₁ z with neg := neg, len := k, dig := f } := by
    rw [stored, Function.update_self, hself]
  refine ⟨Nat.zero_add _, hfits, fun hpos => ?_, fun r hr => ?_⟩
  · show Holds (stored (putLen (putNeg h₁ z neg) z 0) z f k neg z) _
    rw [hend]
    refine ⟨⟨by rw [halloc]; exact hk, hf, fun hzero => ?_⟩, congrArg (signed neg) hnum⟩
    change k = 0 at hzero
    rw [hzero, num_zero] at hnum
    exact absurd hnum (Nat.ne_of_lt hpos)
  · rw [← hg.others r hr]
    exact (Function.update_of_ne hr _ _).trans ((Function.update_of_ne hr _ _).trans (Function.update_of_ne hr _ _))

end

/-! ## Literals -/

inductive Sign : List UInt8 → Bool → Prop where
  | none : Sign [] false
  | plus : Sign ['+'.toUInt8] false
  | minus : Sign ['-'.toUInt8] true

/-- `0x`, `0X` and so on. -/
def Marks (x : UInt8) (b : Nat) : Prop :=
  (b = 16 ∧ (x = 'x'.toUInt8 ∨ x = 'X'.toUInt8)) ∨ (b = 8 ∧ (x = 'o'.toUInt8 ∨ x = 'O'.toUInt8)) ∨ (b = 2 ∧ (x = 'b'.toUInt8 ∨ x = 'B'.toUInt8))

/-- `Radix base pre body b`: the digits `body` after the prefix `pre` are to the base `b`. To base 0 a
number without a prefix is decimal, and if it starts with 0 there are zeros only. -/
inductive Radix (base : Nat) : List UInt8 → List UInt8 → Nat → Prop where
  | marked {x : UInt8} {body : List UInt8} {b : Nat} (hx : Marks x b) (hb : base = 0 ∨ base = b) : Radix base ['0'.toUInt8, x] body b
  | given {body : List UInt8} (hb : base ≠ 0) : Radix base [] body base
  | decimal {body : List UInt8} (hb : base = 0) (hzero : ∀ r, body = '0'.toUInt8 :: r → r = []) : Radix base [] body 10
  | zeros {body : List UInt8} (hb : base = 0) : Radix base [] body 1

def ValidBase (base : Int) : Prop := base = 0 ∨ 2 ≤ base ∧ base ≤ 36

/-- Blanks, a sign, a prefix, digits with single underscores between them, and blanks. -/
def Literal (base : Int) (s : List UInt8) (v : Int) : Prop :=
  ValidBase base ∧ ∃ lead sign pre body trail neg b, s = lead ++ (sign ++ (pre ++ (body ++ trail))) ∧ (∀ c ∈ lead, isspace c = true) ∧
    (∀ c ∈ trail, isspace c = true) ∧ Sign sign neg ∧ Radix base.toNat pre body b ∧ ascii.Grouped b body ∧ v = signed neg (ascii.value b body)

theorem lower_x (d : UInt8) : d ||| 32 = 'x'.toUInt8 ↔ d = 'x'.toUInt8 ∨ d = 'X'.toUInt8 := by
  have key : ∀ v : BitVec 8, (⟨v⟩ : UInt8) ||| 32 = 'x'.toUInt8 ↔ (⟨v⟩ : UInt8) = 'x'.toUInt8 ∨ (⟨v⟩ : UInt8) = 'X'.toUInt8 := by decide
  exact key d.toBitVec

theorem lower_o (d : UInt8) : d ||| 32 = 'o'.toUInt8 ↔ d = 'o'.toUInt8 ∨ d = 'O'.toUInt8 := by
  have key : ∀ v : BitVec 8, (⟨v⟩ : UInt8) ||| 32 = 'o'.toUInt8 ↔ (⟨v⟩ : UInt8) = 'o'.toUInt8 ∨ (⟨v⟩ : UInt8) = 'O'.toUInt8 := by decide
  exact key d.toBitVec

theorem lower_b (d : UInt8) : d ||| 32 = 'b'.toUInt8 ↔ d = 'b'.toUInt8 ∨ d = 'B'.toUInt8 := by
  have key : ∀ v : BitVec 8, (⟨v⟩ : UInt8) ||| 32 = 'b'.toUInt8 ↔ (⟨v⟩ : UInt8) = 'b'.toUInt8 ∨ (⟨v⟩ : UInt8) = 'B'.toUInt8 := by decide
  exact key d.toBitVec

section
variable {base b : Nat} {a d x : UInt8} {rest : List UInt8}

theorem numBase_marked (hx : Marks x b) (hb : base = 0 ∨ base = b) : mpParseNumBase ('0'.toUInt8 :: x :: rest) base = (2, b) := by
  rw [mpParseNumBase, if_pos rfl]
  rcases hx with ⟨rfl, hx⟩ | ⟨rfl, hx⟩ | ⟨rfl, hx⟩
  · rw [if_pos ⟨(lower_x x).mpr hx, hb⟩]
  · have hno : ¬ x ||| 32 = 'x'.toUInt8 := by
      rcases hx with rfl | rfl
      · decide
      · decide
    rw [if_neg fun h => hno h.1, if_pos ⟨(lower_o x).mpr hx, hb⟩]
  · have hno : ¬ x ||| 32 = 'x'.toUInt8 ∧ ¬ x ||| 32 = 'o'.toUInt8 := by
      rcases hx with rfl | rfl
      · decide
      · decide
    rw [if_neg fun h => hno.1 h.1, if_neg fun h => hno.2 h.1, if_pos ⟨(lower_b x).mpr hx, hb⟩]

/-- No prefix is seen. -/
theorem numBase_plain (hrest : ∀ d r, rest = d :: r → ∀ b, Marks d b → ¬ (base = 0 ∨ base = b)) :
    mpParseNumBase (a :: rest) base = (0, if base = 0 then (if a = '0'.toUInt8 ∧ rest ≠ [] then 1 else 10) else base) := by
  cases rest with
  | nil =>
    have hsingle : mpParseNumBase [a] base = (0, if base = 0 then 10 else base) := rfl
    rw [hsingle, if_neg (fun h : a = '0'.toUInt8 ∧ [] ≠ [] => h.2 rfl)]
  | cons d r =>
    have hno := hrest d r rfl
    rw [mpParseNumBase]
    by_cases ha : a = '0'.toUInt8
    · rw [if_pos ha, if_neg fun h => hno 16 (.inl ⟨rfl, (lower_x d).mp h.1⟩) h.2, if_neg fun h => hno 8 (.inr (.inl ⟨rfl, (lower_o d).mp h.1⟩)) h.2,
        if_neg fun h => hno 2 (.inr (.inr ⟨rfl, (lower_b d).mp h.1⟩)) h.2]
      simp [ha]
    · rw [if_neg ha]
      simp [ha]

theorem digit_of_marks (hx : Marks x b) : ∃ d, digitOf x = some d ∧ b ≤ d := by
  rcases hx with ⟨rfl, rfl | rfl⟩ | ⟨rfl, rfl | rfl⟩ | ⟨rfl, rfl | rfl⟩
  all_goals exact ⟨_, rfl, by decide⟩

/-- What stands in a number to the base itself, or is a blank, marks no base. -/
theorem not_marks (hx : ascii.isBody b x = true ∨ isspace x = true) : ¬ Marks x b := by
  intro hm
  obtain ⟨d, hd, hle⟩ := digit_of_marks hm
  rcases hx with hbody | hblank
  · rcases Bool.or_eq_true_iff.mp hbody with hdig | hsep
    · obtain ⟨e, he, hde⟩ := Alphabet.isDigit_iff.mp hdig
      cases hd.symm.trans hde
      omega
    · exact absurd (hd.symm.trans (digitOf_underscore hsep)) (by simp)
  · have hbody : ascii.isBody (d + 1) x = true := Alphabet.isBody_of_digit (Alphabet.isDigit_iff.mpr ⟨d, Nat.lt_succ_self d, hd⟩)
    rw [not_isspace_of_isBody hbody] at hblank
    cases hblank

theorem isDigit_one (ha : ascii.isDigit 1 a = true) : a = '0'.toUInt8 := by
  obtain ⟨d, hd, hda⟩ := Alphabet.isDigit_iff.mp ha
  obtain rfl : d = 0 := by omega
  have key : ∀ v : BitVec 8, digitOf ⟨v⟩ = some 0 → (⟨v⟩ : UInt8) = '0'.toUInt8 := by decide
  exact key a.toBitVec hda

/-- A number is read to its base. A single 0 may be read to another: its value is the same. -/
theorem numBase_of_radix {pre body trail : List UInt8} (hradix : Radix base pre body b) (hbody : ascii.Grouped b body)
    (htrail : ∀ c ∈ trail, isspace c = true) :
    ∃ b', mpParseNumBase (pre ++ (body ++ trail)) base = (pre.length, b') ∧ ascii.Grouped b' body ∧ ascii.value b' body = ascii.value b body := by
  obtain ⟨a, r, rfl, ha⟩ := hbody.head
  -- no prefix is seen where what follows the first digit is to the base itself
  have hnext : ∀ d t, r ++ trail = d :: t → ¬ Marks d b := by
    intro d t hd
    refine not_marks ?_
    have hmem : d ∈ r ++ trail := hd ▸ List.mem_cons_self
    rcases List.mem_append.mp hmem with hin | hin
    · exact Or.inl (hbody.body d (List.mem_cons_of_mem a hin))
    · exact Or.inr (htrail d hin)
  have hzero : '0'.toUInt8 = a → ∀ n, ascii.isDigit (n + 1) a = true := by
    intro h n
    rw [← h]
    exact Alphabet.isDigit_iff.mpr ⟨0, Nat.succ_pos n, rfl⟩
  have hvalue : '0'.toUInt8 = a → ∀ n, ascii.value n [a] = 0 := by
    intro h n
    rw [← h]
    show 0 * n + 0 = 0
    omega
  cases hradix with
  | marked hx hb => exact ⟨b, numBase_marked hx hb, hbody, rfl⟩
  | given hb =>
    refine ⟨base, ?_, hbody, rfl⟩
    show mpParseNumBase (a :: (r ++ trail)) base = _
    rw [numBase_plain (fun d t hd b' hm hb' => hnext d t hd ((hb'.resolve_left hb) ▸ hm)), if_neg hb]
    rfl
  | decimal hb hz =>
    subst hb
    show ∃ b', mpParseNumBase (a :: (r ++ trail)) 0 = _ ∧ _
    by_cases h0 : a = '0'.toUInt8
    · obtain rfl := hz r (by rw [h0])
      have hblank : ∀ d t, [] ++ trail = d :: t → ∀ b', Marks d b' → ¬ (0 = 0 ∨ 0 = b') := fun d t hd b' hm _ =>
        not_marks (Or.inr (htrail d (by rw [← List.nil_append trail, hd]; exact List.mem_cons_self))) hm
      rw [numBase_plain hblank, if_pos rfl]
      refine ⟨_, rfl, .one ?_, ?_⟩
      · split
        · exact hzero h0.symm 0
        · exact hzero h0.symm 9
      · rw [hvalue h0.symm, hvalue h0.symm]
    · refine ⟨10, ?_, hbody, rfl⟩
      by_cases hrest : r ++ trail = []
      · rw [hrest]
        rfl
      · obtain ⟨d, t, hd⟩ := List.exists_cons_of_ne_nil hrest
        rw [hd, mpParseNumBase, if_neg h0]
        rfl
  | zeros hb =>
    subst hb
    obtain rfl := isDigit_one ha
    have hblank : ∀ d t, r ++ trail = d :: t → ∀ b', Marks d b' → ¬ (0 = 0 ∨ 0 = b') := by
      intro d t hd b' hm _
      refine not_marks ?_ hm
      have hmem : d ∈ r ++ trail := hd ▸ List.mem_cons_self
      rcases List.mem_append.mp hmem with hin | hin
      · refine Or.inl ?_
        rcases Bool.or_eq_true_iff.mp (hbody.body d (List.mem_cons_of_mem _ hin)) with hdig | hsep
        · obtain ⟨e, he, hde⟩ := Alphabet.isDigit_iff.mp hdig
          have hpos : 0 < b' := by
            rcases hm with ⟨rfl, -⟩ | ⟨rfl, -⟩ | ⟨rfl, -⟩
            all_goals decide
          exact Alphabet.isBody_of_digit (Alphabet.isDigit_iff.mpr ⟨e, by omega, hde⟩)
        · exact Alphabet.isBody_of_sep hsep
      · exact Or.inr (htrail d hin)
    show ∃ b', mpParseNumBase ('0'.toUInt8 :: (r ++ trail)) 0 = _ ∧ _
    rw [numBase_plain hblank, if_pos rfl]
    by_cases hrest : r ++ trail = []
    · obtain ⟨rfl, -⟩ := List.append_eq_nil_iff.mp hrest
      rw [if_neg fun h => h.2 hrest]
      exact ⟨10, rfl, .one (hzero rfl 9), by rw [hvalue rfl, hvalue rfl]⟩
    · rw [if_pos ⟨rfl, hrest⟩]
      exact ⟨1, rfl, hbody, rfl⟩

/-- The base that is read is one the number may be to. -/
theorem radix_of_numBase (t : List UInt8) (base : Nat) :
    Radix base (t.take (mpParseNumBase t base).1) ((t.drop (mpParseNumBase t base).1).takeWhile (ascii.isBody (mpParseNumBase t base).2))
      (mpParseNumBase t base).2 := by
  have hshort : ∀ body : List UInt8, body.length ≤ 1 → Radix base [] body (if base = 0 then 10 else base) := by
    intro body hlen
    by_cases hb : base = 0
    · rw [if_pos hb]
      refine .decimal hb fun r hr => ?_
      rw [hr, List.length_cons] at hlen
      exact List.eq_nil_of_length_eq_zero (by omega)
    · rw [if_neg hb]
      exact .given hb
  cases t with
  | nil => exact hshort _ (Nat.zero_le 1)
  | cons c t =>
    cases t with
    | nil => exact hshort _ ((List.takeWhile_sublist _).length_le)
    | cons d t =>
      by_cases hc : c = '0'.toUInt8
      · subst hc
        by_cases hm : ∃ b, Marks d b ∧ (base = 0 ∨ base = b)
        · obtain ⟨b, hm, hb⟩ := hm
          rw [numBase_marked hm hb]
          exact .marked hm hb
        · have hno : ∀ d' r, d :: t = d' :: r → ∀ b, Marks d' b → ¬ (base = 0 ∨ base = b) := by
            intro d' r hd b hmark hb
            cases hd
            exact hm ⟨b, hmark, hb⟩
          rw [numBase_plain hno]
          by_cases hb : base = 0
          · rw [if_pos hb, if_pos ⟨rfl, List.cons_ne_nil d t⟩]
            exact .zeros hb
          · rw [if_neg hb]
            exact .given hb
      · rw [mpParseNumBase, if_neg hc]
        by_cases hb : base = 0
        · rw [if_pos hb]
          refine .decimal hb fun r hr => ?_
          rw [List.drop_zero, List.takeWhile_cons] at hr
          split at hr
          · cases hr
            exact absurd rfl hc
          · cases hr
        · rw [if_neg hb]
          exact .given hb

end

/-! ## The parts of a text -/

section
variable (s : List UInt8) (base : Int)

def isNeg : Bool := (optSign (s.dropWhile isspace)).1

def unsignedText : List UInt8 := (optSign (s.dropWhile isspace)).2

def baseOf : Nat := (mpParseNumBase (unsignedText s) base.toNat).2

/-- From the first digit on. -/
def start : List UInt8 := (unsignedText s).drop (mpParseNumBase (unsignedText s) base.toNat).1

/-- Digits and underscores. -/
def number : List UInt8 := (start s base).takeWhile (ascii.isBody (baseOf s base))

def afterNumber : List UInt8 := (start s base).dropWhile (ascii.isBody (baseOf s base))

def numberValue : Nat := ascii.value (baseOf s base) (number s base)

end

section
variable {s : List UInt8} {base : Int} {v : Int}

theorem Radix.bounds {m b : Nat} {pre body : List UInt8} (h : Radix m pre body b) (hm : m ≤ 36) : 0 < b ∧ b ≤ 36 := by
  cases h with
  | marked hx =>
    rcases hx with ⟨h, -⟩ | ⟨h, -⟩ | ⟨h, -⟩
    all_goals omega
  | given => omega
  | decimal => omega
  | zeros => omega

theorem baseOf_bounds (hbase : ValidBase base) : 0 < baseOf s base ∧ baseOf s base ≤ 36 := by
  refine (radix_of_numBase (unsignedText s) base.toNat).bounds ?_
  unfold ValidBase at hbase
  omega

theorem dropWhile_blank {t : List UInt8} : t.dropWhile isspace = [] ↔ ∀ c ∈ t, isspace c = true := List.dropWhile_eq_nil_iff

/-- Blanks and a sign, and what they are before. -/
theorem optSign_spec (t : List UInt8) : ∃ sign, Sign sign (optSign t).1 ∧ t = sign ++ (optSign t).2 := by
  cases t with
  | nil => exact ⟨[], .none, rfl⟩
  | cons c t =>
    rw [optSign]
    by_cases hplus : c = '+'.toUInt8
    · rw [if_pos hplus, hplus]
      exact ⟨_, .plus, rfl⟩
    · rw [if_neg hplus]
      by_cases hminus : c = '-'.toUInt8
      · rw [if_pos hminus, hminus]
        exact ⟨_, .minus, rfl⟩
      · rw [if_neg hminus]
        exact ⟨[], .none, rfl⟩

theorem unsigned_of_parts {lead sign t : List UInt8} {neg : Bool} {a : UInt8} {r : List UInt8} (hs : s = lead ++ (sign ++ t))
    (hlead : ∀ c ∈ lead, isspace c = true) (hsign : Sign sign neg) (ht : t = a :: r) (ha : (digitOf a).isSome = true) :
    isNeg s = neg ∧ unsignedText s = t := by
  have key : ∀ v : BitVec 8, (digitOf ⟨v⟩).isSome = true → (⟨v⟩ : UInt8) ≠ '+'.toUInt8 ∧ (⟨v⟩ : UInt8) ≠ '-'.toUInt8 ∧ isspace ⟨v⟩ = false := by
    decide
  obtain ⟨hplus, hminus, hblank⟩ := key a.toBitVec ha
  have hdrop : s.dropWhile isspace = sign ++ t := by
    rw [hs, List.dropWhile_append_of_pos hlead]
    cases hsign with
    | none =>
      rw [List.nil_append, ht]
      exact List.dropWhile_cons_of_neg (by rw [hblank]; exact Bool.false_ne_true)
    | plus => exact List.dropWhile_cons_of_neg (by decide)
    | minus => exact List.dropWhile_cons_of_neg (by decide)
  have hopt : optSign (sign ++ t) = (neg, t) := by
    cases hsign with
    | none =>
      rw [List.nil_append, ht, optSign, if_neg hplus, if_neg hminus]
    | plus => rfl
    | minus => rfl
  unfold isNeg unsignedText
  rw [hdrop, hopt]
  exact ⟨rfl, rfl⟩

/-- The parts of a literal are those that are read. -/
theorem parts_of_literal {lead sign pre body trail : List UInt8} {neg : Bool} {b : Nat} (hs : s = lead ++ (sign ++ (pre ++ (body ++ trail))))
    (hlead : ∀ c ∈ lead, isspace c = true) (htrail : ∀ c ∈ trail, isspace c = true) (hsign : Sign sign neg) (hradix : Radix base.toNat pre body b)
    (hbody : ascii.Grouped b body) :
    isNeg s = neg ∧ number s base = body ∧ afterNumber s base = trail ∧ ascii.Grouped (baseOf s base) body ∧
      ascii.value (baseOf s base) body = ascii.value b body := by
  obtain ⟨b', hnum, hbody', hvalue⟩ := numBase_of_radix hradix hbody htrail
  have hhead : ∃ a r, pre ++ (body ++ trail) = a :: r ∧ (digitOf a).isSome = true := by
    obtain ⟨a, r, rfl, ha⟩ := hbody.head
    obtain ⟨d, -, hd⟩ := Alphabet.isDigit_iff.mp ha
    have hsome : (digitOf a).isSome = true := by
      rw [show digitOf a = some d from hd]
      rfl
    cases hradix with
    | marked => exact ⟨_, _, rfl, rfl⟩
    | given => exact ⟨_, _, rfl, hsome⟩
    | decimal => exact ⟨_, _, rfl, hsome⟩
    | zeros => exact ⟨_, _, rfl, hsome⟩
  obtain ⟨a, r, har, ha⟩ := hhead
  obtain ⟨hneg, htext⟩ := unsigned_of_parts hs hlead hsign har ha
  have hb : baseOf s base = b' := by
    unfold baseOf
    rw [htext, hnum]
  have hstart : start s base = body ++ trail := by
    unfold start
    rw [htext, hnum, List.drop_left]
  have hstop : trail.takeWhile (ascii.isBody b') = [] ∧ trail.dropWhile (ascii.isBody b') = trail := by
    cases trail with
    | nil => exact ⟨rfl, rfl⟩
    | cons c t =>
      have hno : ¬ ascii.isBody b' c = true := by
        intro hc
        have hblank := htrail c List.mem_cons_self
        rw [not_isspace_of_isBody hc] at hblank
        cases hblank
      exact ⟨List.takeWhile_cons_of_neg hno, List.dropWhile_cons_of_neg hno⟩
  have hnumber : number s base = body := by
    unfold number
    rw [hstart, hb, List.takeWhile_append_of_pos hbody'.body, hstop.1, List.append_nil]
  have hafter : afterNumber s base = trail := by
    unfold afterNumber
    rw [hstart, hb, List.dropWhile_append_of_pos hbody'.body, hstop.2]
  rw [hb]
  exact ⟨hneg, hnumber, hafter, hbody', hvalue⟩

/-- A text is a literal in one way. -/
theorem literal_iff : Literal base s v ↔ ValidBase base ∧ ascii.Grouped (baseOf s base) (number s base) ∧
    (∀ c ∈ afterNumber s base, isspace c = true) ∧ v = signed (isNeg s) (numberValue s base) := by
  constructor
  · intro h
    obtain ⟨hbase, lead, sign, pre, body, trail, neg, b, hs, hlead, htrail, hsign, hradix, hbody, rfl⟩ := h
    obtain ⟨hneg, hnumber, hafter, hgrouped, hvalue⟩ := parts_of_literal hs hlead htrail hsign hradix hbody
    unfold numberValue
    rw [hnumber, hafter, hneg, hvalue]
    exact ⟨hbase, hgrouped, htrail, rfl⟩
  · intro h
    obtain ⟨hbase, hbody, htrail, rfl⟩ := h
    obtain ⟨sign, hsign, htext⟩ := optSign_spec (s.dropWhile isspace)
    have hradix := radix_of_numBase (unsignedText s) base.toNat
    refine ⟨hbase, s.takeWhile isspace, sign, _, number s base, afterNumber s base, isNeg s, baseOf s base, ?_, fun c hc => List.mem_takeWhile_imp hc,
      htrail, hsign, hradix, hbody, rfl⟩
    have hnumber : number s base ++ afterNumber s base = start s base := List.takeWhile_append_dropWhile
    have hstart : (unsignedText s).take (mpParseNumBase (unsignedText s) base.toNat).1 ++ start s base = unsignedText s := List.take_append_drop _ _
    have hunsigned : sign ++ unsignedText s = s.dropWhile isspace := htext.symm
    rw [hnumber, hstart, hunsigned, List.takeWhile_append_dropWhile]

end

/-! ## What is read -/

section
variable (abi : Abi) (s : List UInt8) (base : Int)

def leadingDigits : List UInt8 := (start s base).takeWhile (ascii.isDigit (baseOf s base))

/-- It is a small int, or its digits are within the places asked for. -/
def RoomFor : Prop :=
  numberValue s base < 2 ^ (abi.wordBits - 2) ∨ ascii.value (baseOf s base) (leadingDigits s base) < abi.base ^ strRoom abi (start s base).length

def Underscored : Prop := ∃ c ∈ number s base, ascii.isSep c = true

/-- The texts that are read as they should be: what is no literal because of what is after the number;
with underscores, a small int if they stand where they may, a large one if not; and without them all
but the least small int, which is read as a large one. -/
def ReadRight : Prop :=
  ¬ ValidBase base ∨ RoomFor abi s base ∧ ((∃ c ∈ afterNumber s base, isspace c = false) ∨
    (Underscored s base → (ascii.Grouped (baseOf s base) (number s base) ↔ numberValue s base < 2 ^ (abi.wordBits - 2))) ∧
    (¬ Underscored s base → ¬ (isNeg s = true ∧ numberValue s base = 2 ^ (abi.wordBits - 2))))

end

section
variable {abi : Abi} {ι : Type} [DecidableEq ι] {h h' : Heap abi.toConfig ι} {s : List UInt8} {base : Int} {lex : Bool}

/-- The value of a literal in its own representation, or an exception where there is none. -/
def Parsed (h' : Heap abi.toConfig ι) (s : List UInt8) (base : Int) : Except Exc (Objint.Obj ι) → Prop
  | .ok o => ∃ v, Literal base s v ∧ Objint.Canonical h' o v
  | .error _ => ∀ v, ¬ Literal base s v

omit [DecidableEq ι] in
theorem haveRetVal_error (lex : Bool) (b : Nat) (t : List UInt8) (o : Objint.Obj ι) {str : List UInt8} (hstop : str.length = t.length ∨ ∃ c ∈ str, isspace c = false) :
    ∃ e, haveRetVal lex b t str o = .error e := by
  unfold haveRetVal
  by_cases hlen : str.length = t.length
  · exact ⟨_, if_pos hlen⟩
  · obtain ⟨c, hc, hno⟩ := hstop.resolve_left hlen
    have hne : str.dropWhile isspace ≠ [] := by
      intro h
      have hblank := dropWhile_blank.mp h c hc
      rw [hno] at hblank
      cases hblank
    exact ⟨_, (if_neg hlen).trans (if_pos hne)⟩

omit [DecidableEq ι] in
theorem haveRetVal_ok {b : Nat} {t str : List UInt8} {o : Objint.Obj ι} (hlen : str.length ≠ t.length) (hblank : ∀ c ∈ str, isspace c = true) :
    haveRetVal lex b t str o = .ok o :=
  (if_neg hlen).trans (if_neg (not_not.mpr (dropWhile_blank.mpr hblank)))

theorem parse_valid (hbase : ValidBase base) : ¬ ((base ≠ 0 ∧ base < 2) ∨ base > 36) := by
  unfold ValidBase at hbase
  omega

theorem parse_small {v : Int} {r : List UInt8} (lex : Bool) (hbase : ValidBase base) (hscan : scanDigits abi (baseOf s base) 0 (start s base) = .ended v r) :
    mpParseNumInteger s base lex h = (.ok (haveRetVal lex (baseOf s base) (start s base) r
      (.small (newSmallInt abi.toConfig (if isNeg s then abi.sword (-v) else v)))), h) := by
  unfold mpParseNumInteger
  rw [if_neg (parse_valid hbase)]
  unfold baseOf start unsignedText at *
  simp only [hscan]
  rfl

theorem parse_large (lex : Bool) (hbase : ValidBase base) (hscan : scanDigits abi (baseOf s base) 0 (start s base) = .overflow) :
    mpParseNumInteger s base lex h = (newIntFromStrLen (start s base) (isNeg s) (baseOf s base) >>= fun r =>
      pure (haveRetVal lex (baseOf s base) (start s base) ((start s base).drop r.1) r.2)) h := by
  unfold mpParseNumInteger
  rw [if_neg (parse_valid hbase)]
  unfold baseOf start unsignedText at *
  simp only [hscan]
  rfl

variable (s base) in
theorem number_append : number s base ++ afterNumber s base = start s base := List.takeWhile_append_dropWhile

theorem afterNumber_length : (afterNumber s base).length = (start s base).length ↔ number s base = [] := by
  rw [← number_append s base, List.length_append, ← List.length_eq_zero_iff]
  omega

theorem grouped_ne_nil {b : Nat} {l : List UInt8} (hl : ascii.Grouped b l) : l ≠ [] := by
  obtain ⟨a, r, rfl, -⟩ := hl.head
  exact List.cons_ne_nil a r

theorem number_digits (hno : ¬ Underscored s base) : ∀ c ∈ number s base, ascii.isDigit (baseOf s base) c = true := by
  intro c hc
  have hbody := List.mem_takeWhile_imp hc
  rcases Bool.or_eq_true_iff.mp hbody with hdig | hsep
  · exact hdig
  · exact absurd ⟨c, hc, hsep⟩ hno

/-- What reading comes to: a number that a small int holds, or one that is read again. -/
inductive Read (lex : Bool) (h' : Heap abi.toConfig ι) (s : List UInt8) (base : Int) : Except Exc (Objint.Obj ι) → Prop where
  | small (hsmall : numberValue s base < 2 ^ (abi.wordBits - 2)) : Read lex h' s base (haveRetVal lex (baseOf s base) (start s base) (afterNumber s base)
      (.small (newSmallInt abi.toConfig (signed (isNeg s) (numberValue s base)))))
  | large (hlarge : ¬ numberValue s base < 2 ^ (abi.wordBits - 2))
      (hholds : 0 < ascii.value (baseOf s base) (leadingDigits s base) →
        Holds (h' (.temp .res)) (signed (isNeg s) (ascii.value (baseOf s base) (leadingDigits s base)))) :
      Read lex h' s base (haveRetVal lex (baseOf s base) (start s base) ((start s base).drop (leadingDigits s base).length) (.int (.temp .res)))

theorem parse_spec (lex : Bool) (hbase : ValidBase base) (h : Heap abi.toConfig ι) :
    Prog.wp (mpParseNumInteger s base lex) (fun out h' => RoomFor abi s base ∧ Objint.Kept h h' ∧ Read lex h' s base out)
      (fun e _ => e = .memory ∨ e = .bounds ∧ ¬ RoomFor abi s base) h := by
  obtain ⟨hpos, hle⟩ := baseOf_bounds (s := s) hbase
  have hscan := scanDigits_eq abi hpos hle (v := 0) (Nat.two_pow_pos _) (start s base)
  rw [Nat.cast_zero] at hscan
  change scanDigits abi (baseOf s base) 0 (start s base) =
    if numberValue s base < 2 ^ (abi.wordBits - 2) then .ended (numberValue s base : Nat) (afterNumber s base) else .overflow at hscan
  by_cases hsmall : numberValue s base < 2 ^ (abi.wordBits - 2)
  · have hhalf := half_cast abi
    have hneg : abi.sword (-(numberValue s base : Int)) = -(numberValue s base : Int) := sword_of (by omega) (by omega)
    rw [if_pos hsmall] at hscan
    have hrun := parse_small (h := h) lex hbase hscan
    rw [hneg] at hrun
    unfold Prog.wp
    rw [hrun]
    exact ⟨.inl hsmall, .refl, .small hsmall⟩
  · rw [if_neg hsmall] at hscan
    have hrun := parse_large (h := h) lex hbase hscan
    unfold Prog.wp
    rw [hrun]
    show Prog.wp (newIntFromStrLen (start s base) (isNeg s) (baseOf s base) >>= _) _ _ h
    have hself : Function.update h (.temp .res) (initZero : MpzT abi.toConfig) (.temp .res) = initZero := Function.update_self _ _ _
    have hset := mpzSetFromStr_spec (l := start s base) hpos hle (isNeg s) hself
    unfold newIntFromStrLen
    refine Prog.wp_bind.mpr ?_
    show Prog.wp (change _ _ >>= _) _ _ h
    rw [wp_change_bind]
    refine Prog.wp_then hset (fun n h₁ hq => ?_) fun e _ he => he.imp_right fun hb => ⟨hb.1, fun hr => ?_⟩
    · obtain ⟨rfl, hfits, hholds, hothers⟩ := hq
      refine ⟨.inr hfits, fun i => ?_, .large hsmall hholds⟩
      have hne : (Ref.obj i : Ref ι) ≠ .temp .res := by
        intro e
        cases e
      rw [hothers _ hne]
      exact Function.update_of_ne hne _ _
    · rcases hr with hs | hfits
      · exact hsmall hs
      · exact absurd hb.2 (Nat.not_le_of_lt hfits)

omit [DecidableEq ι] in
theorem small_right (hbase : ValidBase base) (hsmall : numberValue s base < 2 ^ (abi.wordBits - 2)) :
    Parsed h s base (haveRetVal lex (baseOf s base) (start s base) (afterNumber s base)
      (.small (newSmallInt abi.toConfig (signed (isNeg s) (numberValue s base))))) ↔ ReadRight abi s base := by
  have hhalf := half_cast abi
  have hlarge := half_large abi
  have hin : InSmall abi.toConfig (signed (isNeg s) (numberValue s base)) := by
    rw [inSmall_iff]
    unfold signed
    split <;> omega
  have hroom : RoomFor abi s base := Or.inl hsmall
  unfold ReadRight
  rw [or_iff_right (not_not.mpr hbase), and_iff_right hroom]
  by_cases hafter : ∃ c ∈ afterNumber s base, isspace c = false
  · obtain ⟨e, he⟩ := haveRetVal_error lex (baseOf s base) (start s base)
      (.small (newSmallInt abi.toConfig (signed (isNeg s) (numberValue s base))) : Objint.Obj ι) (.inr hafter)
    rw [he]
    refine iff_of_true (fun v hv => ?_) (.inl hafter)
    obtain ⟨c, hc, hno⟩ := hafter
    rw [(literal_iff.mp hv).2.2.1 c hc] at hno
    cases hno
  · have hblank : ∀ c ∈ afterNumber s base, isspace c = true := by
      intro c hc
      by_contra hno
      exact hafter ⟨c, hc, Bool.eq_false_iff.mpr hno⟩
    rw [or_iff_right hafter]
    by_cases hempty : number s base = []
    · obtain ⟨e, he⟩ := haveRetVal_error lex (baseOf s base) (start s base)
        (.small (newSmallInt abi.toConfig (signed (isNeg s) (numberValue s base))) : Objint.Obj ι) (.inl (afterNumber_length.mpr hempty))
      have hno : ¬ Underscored s base := by
        intro hu
        obtain ⟨c, hc, -⟩ := hu
        rw [hempty] at hc
        cases hc
      rw [he]
      exact iff_of_true (fun v hv => grouped_ne_nil (literal_iff.mp hv).2.1 hempty) ⟨fun hu => absurd hu hno, fun _ => by omega⟩
    · rw [haveRetVal_ok (mt afterNumber_length.mp hempty) hblank]
      constructor
      · intro hp
        obtain ⟨v, hv, -⟩ := hp
        exact ⟨fun _ => iff_of_true (literal_iff.mp hv).2.1 hsmall, fun _ => by omega⟩
      · intro hr
        have hgrouped : ascii.Grouped (baseOf s base) (number s base) := by
          by_cases hu : Underscored s base
          · exact (hr.1 hu).mpr hsmall
          · exact Alphabet.grouped_of_digits hempty (number_digits hu)
        exact ⟨_, literal_iff.mpr ⟨hbase, hgrouped, hblank, rfl⟩, Objint.canonical_small hin⟩

theorem dropWhile_head {p : UInt8 → Bool} {l t : List UInt8} {c : UInt8} (hl : l.dropWhile p = c :: t) : p c = false := by
  have hne : l.dropWhile p ≠ [] := by
    rw [hl]
    exact List.cons_ne_nil c t
  have hhead := List.head_dropWhile_not p hne
  simp only [hl, List.head_cons] at hhead
  exact hhead

theorem leadingDigits_append : leadingDigits s base ++ (start s base).drop (leadingDigits s base).length = start s base := by
  have happ : leadingDigits s base ++ (start s base).dropWhile (ascii.isDigit (baseOf s base)) = start s base := List.takeWhile_append_dropWhile
  conv_lhs => rw [← happ, List.drop_left]
  exact happ

theorem leadingDigits_eq (hno : ¬ Underscored s base) : leadingDigits s base = number s base := by
  have hstop : (afterNumber s base).takeWhile (ascii.isDigit (baseOf s base)) = [] := by
    cases hr : afterNumber s base with
    | nil => rfl
    | cons c t =>
      have hc : ¬ ascii.isBody (baseOf s base) c = true := Bool.eq_false_iff.mp (dropWhile_head hr)
      exact List.takeWhile_cons_of_neg fun h => hc (Alphabet.isBody_of_digit h)
  unfold leadingDigits
  rw [← number_append s base, List.takeWhile_append_of_pos (number_digits hno), hstop, List.append_nil]

theorem rest_underscored (hu : Underscored s base) : ∃ c ∈ (start s base).drop (leadingDigits s base).length, isspace c = false := by
  obtain ⟨c, hc, hsep⟩ := hu
  refine ⟨c, ?_, not_isspace_of_isBody (Alphabet.isBody_of_sep (b := baseOf s base) hsep)⟩
  have hin : c ∈ start s base := by
    rw [← number_append s base]
    exact List.mem_append_left _ hc
  rw [← leadingDigits_append] at hin
  rcases List.mem_append.mp hin with hd | hr
  · have hdig := List.mem_takeWhile_imp hd
    rw [Alphabet.isDigit_eq_false hsep] at hdig
    cases hdig
  · exact hr

omit [DecidableEq ι] in
theorem large_right (hbase : ValidBase base) (hlarge : ¬ numberValue s base < 2 ^ (abi.wordBits - 2)) (hroom : RoomFor abi s base)
    (hholds : 0 < ascii.value (baseOf s base) (leadingDigits s base) →
      Holds (h (.temp .res)) (signed (isNeg s) (ascii.value (baseOf s base) (leadingDigits s base)))) :
    Parsed h s base (haveRetVal lex (baseOf s base) (start s base) ((start s base).drop (leadingDigits s base).length) (.int (.temp .res))) ↔
      ReadRight abi s base := by
  have hhalf := half_cast abi
  have hpow := half_large abi
  unfold ReadRight
  rw [or_iff_right (not_not.mpr hbase), and_iff_right hroom]
  by_cases hu : Underscored s base
  · obtain ⟨e, he⟩ := haveRetVal_error lex (baseOf s base) (start s base) (.int (.temp .res) : Objint.Obj ι)
      (.inr (rest_underscored hu))
    rw [he]
    constructor
    · intro hp
      by_cases hafter : ∃ c ∈ afterNumber s base, isspace c = false
      · exact .inl hafter
      · refine .inr ⟨fun _ => iff_of_false (fun hg => ?_) hlarge, fun hno => absurd hu hno⟩
        refine hp _ (literal_iff.mpr ⟨hbase, hg, fun c hc => ?_, rfl⟩)
        by_contra hno
        exact hafter ⟨c, hc, Bool.eq_false_iff.mpr hno⟩
    · intro hr v hv
      obtain ⟨-, hg, hblank, -⟩ := literal_iff.mp hv
      rcases hr with hafter | hsame
      · obtain ⟨c, hc, hno⟩ := hafter
        rw [hblank c hc] at hno
        cases hno
      · exact hlarge ((hsame.1 hu).mp hg)
  · have hdigits := leadingDigits_eq hu
    have hrest : (start s base).drop (leadingDigits s base).length = afterNumber s base := by
      rw [hdigits, ← number_append s base, List.drop_left]
    have hempty : number s base ≠ [] := by
      intro hnil
      have hzero : numberValue s base = 0 := by
        unfold numberValue
        rw [hnil]
        rfl
      omega
    rw [hrest]
    by_cases hafter : ∃ c ∈ afterNumber s base, isspace c = false
    · obtain ⟨e, he⟩ := haveRetVal_error lex (baseOf s base) (start s base) (.int (.temp .res) : Objint.Obj ι) (.inr hafter)
      rw [he]
      refine iff_of_true (fun v hv => ?_) (.inl hafter)
      obtain ⟨c, hc, hno⟩ := hafter
      rw [(literal_iff.mp hv).2.2.1 c hc] at hno
      cases hno
    · have hblank : ∀ c ∈ afterNumber s base, isspace c = true := by
        intro c hc
        by_contra hno
        exact hafter ⟨c, hc, Bool.eq_false_iff.mpr hno⟩
      have hlit : Literal base s (signed (isNeg s) (numberValue s base)) :=
        literal_iff.mpr ⟨hbase, Alphabet.grouped_of_digits hempty (number_digits hu), hblank, rfl⟩
      have hvalue : ascii.value (baseOf s base) (leadingDigits s base) = numberValue s base := by rw [hdigits, numberValue]
      rw [hvalue] at hholds
      have hcan := Objint.canonical_int_iff (hholds (by omega))
      have hout : ¬ InSmall abi.toConfig (signed (isNeg s) (numberValue s base)) ↔ ¬ (isNeg s = true ∧ numberValue s base = 2 ^ (abi.wordBits - 2)) := by
        rw [inSmall_iff]
        unfold signed
        cases isNeg s with
        | false =>
          refine iff_of_true ?_ fun h => Bool.false_ne_true h.1
          rw [if_neg Bool.false_ne_true]
          omega
        | true =>
          rw [if_pos rfl, and_iff_right rfl]
          omega
      rw [haveRetVal_ok (mt afterNumber_length.mp hempty) hblank, or_iff_right hafter]
      constructor
      · intro hp
        obtain ⟨v, hv, ho⟩ := hp
        obtain rfl := (literal_iff.mp hv).2.2.2
        exact ⟨fun h => absurd h hu, fun _ => hout.mp (hcan.mp ho)⟩
      · intro hr
        exact ⟨_, hlit, hcan.mpr (hout.mpr (hr.2 hu))⟩

/-- A literal without underscores is read, also where it should have been a small int. -/
theorem parse_denotes {v : Int} (lex : Bool) (hlit : Literal base s v) (hno : ¬ Underscored s base) (h : Heap abi.toConfig ι) :
    Prog.wp (mpParseNumInteger s base lex) (fun out h' => RoomFor abi s base ∧ ∃ o, out = .ok o ∧ Objint.Denotes h' o v)
      (fun e _ => e = .memory ∨ e = .bounds ∧ ¬ RoomFor abi s base) h := by
  obtain ⟨hbase, hgrouped, hblank, rfl⟩ := literal_iff.mp hlit
  have hhalf := half_cast abi
  have hpow := half_large abi
  have hempty := mt afterNumber_length.mp (grouped_ne_nil hgrouped)
  refine Prog.wp_mono (parse_spec lex hbase h) (fun out h' hq => ⟨hq.1, ?_⟩) fun _ _ he => he
  cases hq.2.2 with
  | small hsmall =>
    have hin : InSmall abi.toConfig (signed (isNeg s) (numberValue s base)) := by
      rw [inSmall_iff]
      unfold signed
      split <;> omega
    exact ⟨_, haveRetVal_ok hempty hblank, (Objint.canonical_small hin).denotes⟩
  | large hlarge hholds =>
    have hdigits := leadingDigits_eq hno
    have hvalue : ascii.value (baseOf s base) (leadingDigits s base) = numberValue s base := by rw [hdigits, numberValue]
    have hrest : (start s base).drop (leadingDigits s base).length = afterNumber s base := by
      rw [hdigits, ← number_append s base, List.drop_left]
    rw [hvalue] at hholds
    rw [hrest]
    exact ⟨_, haveRetVal_ok hempty hblank, hholds (by omega)⟩

/-- Every text is read as it should be, or refused as it should be, just where it is as `ReadRight` says. Past the
end of the digits it writes only where the count of digits asked for wraps. -/
theorem parse_num_integer_iff (s : List UInt8) (base : Int) (lex : Bool) (h : Heap abi.toConfig ι) :
    Prog.wp (mpParseNumInteger s base lex) (fun out h' => (Parsed h' s base out ↔ ReadRight abi s base) ∧ Objint.Kept h h')
      (fun e _ => e = .memory ∨ e = .bounds ∧ ¬ ReadRight abi s base) h := by
  by_cases hbase : ValidBase base
  · refine Prog.wp_mono (parse_spec lex hbase h) (fun out h' hq => ⟨?_, hq.2.1⟩) fun e _ he => he.imp_right fun hb => ⟨hb.1, fun hr => ?_⟩
    · cases hq.2.2 with
      | small hsmall => exact small_right hbase hsmall
      | large hlarge hholds => exact large_right hbase hlarge hq.1 hholds
    · exact hb.2 (hr.resolve_left (not_not.mpr hbase)).1
  · have hinvalid : (base ≠ 0 ∧ base < 2) ∨ base > 36 := by
      unfold ValidBase at hbase
      omega
    unfold mpParseNumInteger
    rw [if_pos hinvalid]
    exact ⟨iff_of_true (fun v hv => hbase hv.1) (.inl hbase), .refl⟩

end

def bytesOf (l : List Char) : List UInt8 := l.map Char.toUInt8

def parsed32 (l : List Char) : Except Fault (Except Exc (Objint.Obj Unit)) :=
  (mpParseNumInteger (bytesOf l) 10 false (fun _ => initZero : Heap abi32.toConfig Unit)).1

/-- An underscore is 0; ten milliards with an underscore are nothing; the least small int is an `mpz_t`. -/
theorem underscores_by_size :
    parsed32 ['_'] = .ok (.ok (.small 0)) ∧ (∀ v, ¬ Literal 10 (bytesOf ['_']) v) ∧
    (∃ e, parsed32 ['1', '_', '0', '0', '0', '0', '0', '0', '0', '0', '0', '0'] = .ok (.error e)) ∧
    Literal 10 (bytesOf ['1', '_', '0', '0', '0', '0', '0', '0', '0', '0', '0', '0']) (10 ^ 10) ∧
    parsed32 ['-', '1', '0', '7', '3', '7', '4', '1', '8', '2', '4'] = .ok (.ok (.int (.temp .res))) ∧
    Literal 10 (bytesOf ['-', '1', '0', '7', '3', '7', '4', '1', '8', '2', '4']) (-2 ^ 30) ∧ InSmall abi32.toConfig (-2 ^ 30) := by
  have hdigit : ∀ n, ascii.Grouped 10 (List.replicate (n + 1) '0'.toUInt8) := by
    intro n
    refine Alphabet.grouped_of_digits (by simp) fun c hc => ?_
    rw [List.eq_of_mem_replicate hc]
    decide
  refine ⟨by rfl, fun v hv => ?_, ⟨_, by rfl⟩, literal_iff.mpr ⟨.inr (by decide), .sep (by decide) (by decide) (hdigit 9), by decide +kernel, by decide +kernel⟩,
    by decide +kernel, literal_iff.mpr ⟨.inr (by decide), Alphabet.grouped_of_digits (by decide) (by decide +kernel), by decide +kernel, by decide +kernel⟩,
    by decide +kernel⟩
  have hgrouped := (literal_iff.mp hv).2.1
  obtain ⟨a, r, har, ha⟩ := hgrouped.head
  cases har
  exact absurd ha (by decide)

end PythonUltra.Py.Parsenum
