/-
  PythonUltra.Py.ObjintFormatSpec — the text an integer is written as.

  Both paths make the digits from the lowest up (`body`), with separators where they fall,
  then the prefix and the sign. The size asked for is an upper bound on the length of the text,
  unless it does not fit a word, and then it is none.
-/

import PythonUltra.Lib.Numeral
import PythonUltra.Py.ObjintFormat
import PythonUltra.Py.ParsenumSpec
import Mathlib.Data.Nat.Digits.Lemmas

namespace PythonUltra.Py.ObjintFormat

open PythonUltra.Lib PythonUltra.Lib.Digits PythonUltra.Py.Mpz PythonUltra.Py.Smallint PythonUltra.Py.Binary PythonUltra.Py.ObjintBytes
open PythonUltra.Lib.Numeral (Alphabet figures spaced)

/-! ## The text -/

section
variable (fmt : Format)

def seps : List UInt8 := if fmt.comma ≠ 0 then [fmt.comma] else []

/-- The digits, the lowest first, in groups of three. -/
def body (n : Nat) : List UInt8 := spaced (seps fmt) 3 0 ((figures fmt.base n).map (smallDigit fmt))

/-- Sign, prefix and digits. -/
def text (v : Int) : List UInt8 := (if v < 0 then ['-'.toUInt8] else []) ++ fmt.pre ++ (body fmt v.natAbs).reverse

end

section
variable {abi : Abi} {fmt : Format} {n j : Nat}

theorem mpzDigit_eq (a : Nat) : mpzDigit fmt a = smallDigit fmt a := by
  have h0 : '0'.toNat = 48 := rfl
  have h9 : '9'.toNat = 57 := rfl
  unfold mpzDigit smallDigit
  simp only [h0, h9]
  by_cases ha : a ≥ 10
  · rw [if_pos (by omega), if_pos ha]
    congr 1
    omega
  · rw [if_neg (by omega), if_neg ha]

theorem spaced_cons {α : Type} {sep l : List α} (a : α) (hl : l ≠ []) :
    spaced sep n j (a :: l) = if j + 1 = n then a :: (sep ++ spaced sep n 0 l) else a :: spaced sep n (j + 1) l := by
  obtain ⟨c, t, rfl⟩ := List.exists_cons_of_ne_nil hl
  rfl

theorem spaced_nil {α : Type} {l : List α} : spaced [] n j l = l := by
  have h : (spaced [] n j l).filter (fun _ => true) = l := Numeral.filter_spaced (fun _ ha => absurd ha List.not_mem_nil) fun _ _ => rfl
  rwa [List.filter_true] at h

theorem seps_none (hc : fmt.comma = 0) : seps fmt = [] := if_neg (not_not.mpr hc)

theorem seps_some (hc : fmt.comma ≠ 0) : seps fmt = [fmt.comma] := if_pos hc

/-- The digits that are left to write. -/
def rest (fmt : Format) (j n : Nat) : List UInt8 := spaced (seps fmt) 3 j ((Nat.digits fmt.base n).map (smallDigit fmt))

theorem body_eq (hn : n ≠ 0) : body fmt n = rest fmt 0 n := by
  unfold body rest figures
  rw [if_neg hn]

theorem rest_step (hb : 1 < fmt.base) (hn : n ≠ 0) : rest fmt j n = if n / fmt.base = 0 then [smallDigit fmt (n % fmt.base)]
    else if j + 1 = 3 then smallDigit fmt (n % fmt.base) :: (seps fmt ++ rest fmt 0 (n / fmt.base))
    else smallDigit fmt (n % fmt.base) :: rest fmt (j + 1) (n / fmt.base) := by
  unfold rest
  rw [Nat.digits_def' hb (Nat.pos_of_ne_zero hn), List.map_cons]
  by_cases hlast : n / fmt.base = 0
  · rw [if_pos hlast, hlast, Nat.digits_zero]
    rfl
  · have hne : (Nat.digits fmt.base (n / fmt.base)).map (smallDigit fmt) ≠ [] := by
      rw [ne_eq, List.map_eq_nil_iff]
      exact Nat.digits_ne_nil_iff_ne_zero.mpr hlast
    rw [if_neg hlast, spaced_cons _ hne]

theorem rest_of_none (hc : fmt.comma = 0) (k : Nat) : rest fmt j n = rest fmt k n := by
  unfold rest
  rw [seps_none hc, spaced_nil, spaced_nil]

/-! ## From the end down -/

theorem put_eq {w : Back} {c : UInt8} (hw : w.b ≠ 0) : w.put c = .ok ⟨w.b - 1, c :: w.out⟩ := if_neg hw

theorem backDigits_succ {fuel lastComma : Nat} {w : Back} (hw : w.b ≠ 0) :
    backDigits fmt (fuel + 1) n w lastComma = (backComma fmt (n / fmt.base) ⟨w.b - 1, smallDigit fmt (n % fmt.base) :: w.out⟩ lastComma >>= fun r =>
      if r.1.b > 0 ∧ n / fmt.base ≠ 0 then backDigits fmt fuel (n / fmt.base) r.1 r.2 else pure r.1) := by
  rw [backDigits, put_eq hw]
  rfl

/-- The loop writes the digits that are left, where there is place for one character more. -/
theorem backDigits_eq (hb : 1 < fmt.base) {fuel lastComma : Nat} {w : Back} (hn : n ≠ 0) (hfuel : n < fuel) (hj : j < 3)
    (hcomma : fmt.comma ≠ 0 → lastComma = w.b + j) (hroom : (rest fmt j n).length < w.b) :
    backDigits fmt fuel n w lastComma = .ok ⟨w.b - (rest fmt j n).length, (rest fmt j n).reverse ++ w.out⟩ := by
  induction fuel generalizing n j w lastComma with
  | zero => omega
  | succ fuel ih =>
    have hstep := rest_step (j := j) hb hn
    have hless : n / fmt.base < n := Nat.div_lt_self (Nat.pos_of_ne_zero hn) hb
    rw [backDigits_succ (by omega)]
    by_cases hlast : n / fmt.base = 0
    · rw [if_pos hlast] at hstep
      unfold backComma
      rw [if_neg fun h => h.2.1 hlast, hstep]
      exact if_neg fun h => h.2 hlast
    · rw [if_neg hlast] at hstep
      by_cases hc : fmt.comma = 0
      · have hsame : rest fmt j n = smallDigit fmt (n % fmt.base) :: rest fmt 0 (n / fmt.base) := by
          rw [hstep, seps_none hc, rest_of_none (j := j + 1) hc 0, List.nil_append, ite_self]
        have hlen : (rest fmt j n).length = (rest fmt 0 (n / fmt.base)).length + 1 := congrArg List.length hsame
        have hnext := @ih (n / fmt.base) 0 lastComma ⟨w.b - 1, smallDigit fmt (n % fmt.base) :: w.out⟩ hlast (by omega)
          (by decide) (fun h => absurd hc h) (show _ < w.b - 1 by omega)
        unfold backComma
        rw [if_neg fun h => h.1 hc]
        refine (if_pos ⟨show w.b - 1 > 0 by omega, hlast⟩).trans (hnext.trans ?_)
        rw [hlen, hsame, List.reverse_cons, List.append_assoc, Nat.sub_sub, Nat.add_comm 1]
        rfl
      · have hplace := hcomma hc
        by_cases hfull : j + 1 = 3
        · rw [if_pos hfull, seps_some hc] at hstep
          have hlen : (rest fmt j n).length = (rest fmt 0 (n / fmt.base)).length + 2 := congrArg List.length hstep
          have hput : (⟨w.b - 1, smallDigit fmt (n % fmt.base) :: w.out⟩ : Back).put fmt.comma =
              .ok ⟨w.b - 2, fmt.comma :: smallDigit fmt (n % fmt.base) :: w.out⟩ := put_eq (show w.b - 1 ≠ 0 by omega)
          have hnext := @ih (n / fmt.base) 0 (w.b - 2) ⟨w.b - 2, fmt.comma :: smallDigit fmt (n % fmt.base) :: w.out⟩ hlast
            (by omega) (by decide) (fun _ => rfl) (show _ < w.b - 2 by omega)
          unfold backComma
          rw [if_pos ⟨hc, hlast, show w.b - 1 > 0 by omega, show lastComma - (w.b - 1) = 3 by omega⟩, hput]
          refine (if_pos ⟨show w.b - 2 > 0 by omega, hlast⟩).trans (hnext.trans ?_)
          rw [hlen, hstep, List.reverse_cons, List.reverse_append, List.append_assoc, List.append_assoc, Nat.sub_sub, Nat.add_comm 2]
          rfl
        · rw [if_neg hfull] at hstep
          have hlen : (rest fmt j n).length = (rest fmt (j + 1) (n / fmt.base)).length + 1 := congrArg List.length hstep
          have hnext := @ih (n / fmt.base) (j + 1) lastComma ⟨w.b - 1, smallDigit fmt (n % fmt.base) :: w.out⟩ hlast
            (by omega) (by omega) (fun _ => show lastComma = w.b - 1 + (j + 1) by omega) (show _ < w.b - 1 by omega)
          unfold backComma
          rw [if_neg fun h => hfull (by have := h.2.2.2; change lastComma - (w.b - 1) = 3 at this; omega)]
          refine (if_pos ⟨show w.b - 1 > 0 by omega, hlast⟩).trans (hnext.trans ?_)
          rw [hlen, hstep, List.reverse_cons, List.append_assoc, Nat.sub_sub, Nat.add_comm 1]
          rfl

theorem backNum_eq (hb : 1 < fmt.base) {w : Back} (hroom : (body fmt n).length < w.b) :
    backNum fmt n w = .ok ⟨w.b - (body fmt n).length, (body fmt n).reverse ++ w.out⟩ := by
  unfold backNum
  by_cases hn : n = 0
  · subst hn
    rw [if_pos rfl, put_eq (by omega)]
    rfl
  · rw [body_eq hn] at hroom ⊢
    rw [if_neg hn]
    exact backDigits_eq hb hn (Nat.lt_succ_self n) (by decide) (fun _ => rfl) hroom

theorem backPre_eq {w : Back} (hroom : fmt.pre.length < w.b) : backPre fmt w = ⟨w.b - fmt.pre.length, fmt.pre ++ w.out⟩ := if_pos hroom

theorem uword_abs {num : Int} (hnum : InSmall abi.toConfig num) :
    uword abi.toConfig (if num < 0 then abi.sword (-num) else num) = num.natAbs := by
  have hin := inSmall_iff.mp hnum
  have hhalf := half_ge (c := abi.toConfig)
  have hw := word_eq (c := abi.toConfig)
  have habs : (if num < 0 then abi.sword (-num) else num) = (num.natAbs : Int) := by
    split
    · rw [sword_of (by omega) (by omega)]
      omega
    · omega
  rw [habs, uword, Int.emod_eq_of_lt (by omega) (by push_cast at hw; omega)]
  exact Int.toNat_natCast _

theorem smallFormatted_eq (hb : 1 < fmt.base) {num : Int} (hnum : InSmall abi.toConfig num)
    (hroom : (body fmt num.natAbs).length + fmt.pre.length + 2 ≤ intFormatSize abi fmt abi.wordBits) :
    smallFormatted abi fmt num = .ok (text fmt num, (text fmt num).length) := by
  have hdigits := backNum_eq (n := num.natAbs) hb (w := ⟨intFormatSize abi fmt abi.wordBits - 1, [0]⟩)
    (show _ < intFormatSize abi fmt abi.wordBits - 1 by omega)
  have hpre := @backPre_eq fmt ⟨intFormatSize abi fmt abi.wordBits - 1 - (body fmt num.natAbs).length, (body fmt num.natAbs).reverse ++ [0]⟩
    (show _ < intFormatSize abi fmt abi.wordBits - 1 - (body fmt num.natAbs).length by omega)
  have hnull : (⟨intFormatSize abi fmt abi.wordBits, []⟩ : Back).put 0 = .ok ⟨intFormatSize abi fmt abi.wordBits - 1, [0]⟩ :=
    put_eq (show intFormatSize abi fmt abi.wordBits ≠ 0 by omega)
  have hsign : ∃ b out, backSign (decide (num < 0)) ⟨intFormatSize abi fmt abi.wordBits - 1 - (body fmt num.natAbs).length - fmt.pre.length,
      fmt.pre ++ ((body fmt num.natAbs).reverse ++ [0])⟩ = .ok ⟨b, out⟩ ∧ out = text fmt num ++ [0] ∧
      b = intFormatSize abi fmt abi.wordBits - 1 - (text fmt num).length := by
    unfold backSign text
    by_cases hneg : num < 0
    · rw [decide_eq_true hneg, if_pos ⟨rfl, by simp only; omega⟩, put_eq (by simp only; omega), if_pos hneg]
      refine ⟨_, _, rfl, by simp, ?_⟩
      simp only [List.length_append, List.length_reverse, List.length_cons, List.length_nil]
      omega
    · rw [decide_eq_false hneg, if_neg fun h => Bool.false_ne_true h.1, if_neg hneg]
      refine ⟨_, _, rfl, by simp, ?_⟩
      simp only [List.length_append, List.length_reverse, List.length_nil]
      omega
  have hlen : (text fmt num).length + 1 ≤ intFormatSize abi fmt abi.wordBits := by
    unfold text
    simp only [List.length_append, List.length_reverse]
    split <;> simp <;> omega
  obtain ⟨b, out, hrun, rfl, rfl⟩ := hsign
  unfold smallFormatted
  simp only [uword_abs hnum, hnull]
  show (backNum fmt num.natAbs _ >>= _) = _
  rw [hdigits]
  show ((backSign (decide (num < 0)) (backPre fmt _) : Except Fault Back) >>= _) = _
  rw [hpre, hrun]
  refine congrArg Except.ok (Prod.ext List.dropLast_concat ?_)
  show intFormatSize abi fmt abi.wordBits - (intFormatSize abi fmt abi.wordBits - 1 - (text fmt num).length) - 1 = _
  omega

/-! ## From the start up -/

/-- Division of a row of digits by one digit. -/
theorem divPass_spec {m a : Nat} {dig : Nat → Nat} (hm : 0 < m) (hm' : m < abi.base) (ha : a < m) (hdig : ∀ q < n, dig q < abi.base) :
    (divPass abi m n a dig).1 < m ∧ (∀ q < n, (divPass abi m n a dig).2 q < abi.base) ∧ (∀ q, n ≤ q → (divPass abi m n a dig).2 q = dig q) ∧
      a * abi.base ^ n + num abi.base dig n = m * num abi.base (divPass abi m n a dig).2 n + (divPass abi m n a dig).1 := by
  induction n generalizing a dig with
  | zero =>
    refine ⟨ha, fun q hq => absurd hq (Nat.not_lt_zero q), fun _ _ => rfl, ?_⟩
    show a * abi.base ^ 0 + 0 = m * 0 + a
    rw [Nat.pow_zero]
    omega
  | succ n ih =>
    have hd := hdig n (Nat.lt_succ_self n)
    have hlow : a * abi.base + dig n < m * abi.base := by
      have hle : (a + 1) * abi.base ≤ m * abi.base := Nat.mul_le_mul_right _ ha
      rw [Nat.succ_mul] at hle
      omega
    have hshift : abi.dbl (a <<< abi.digSize) ||| dig n = a * abi.base + dig n := by
      have hsmall : a * abi.base < abi.base * abi.base := Nat.mul_lt_mul_of_pos_right (by omega) abi.base_pos
      have hdbl : abi.dbl (a <<< abi.digSize) = abi.base * a := by
        rw [Nat.shiftLeft_eq, ← Config.base, Config.dbl_of_lt hsmall, Nat.mul_comm]
      rw [hdbl, or_digit hd, Nat.mul_comm]
    have hquo : abi.dig ((a * abi.base + dig n) / m) = (a * abi.base + dig n) / m :=
      Config.dig_of_lt (Nat.div_lt_of_lt_mul hlow)
    have hrun : divPass abi m (n + 1) a dig =
        divPass abi m n ((a * abi.base + dig n) % m) (Function.update dig n ((a * abi.base + dig n) / m)) := by
      rw [divPass]
      simp only [hshift, hquo]
    obtain ⟨hrem, hbelow, hsame, hnum⟩ := @ih ((a * abi.base + dig n) % m) (Function.update dig n ((a * abi.base + dig n) / m))
      (Nat.mod_lt _ hm) (fun q hq => by rw [Function.update_of_ne (Nat.ne_of_lt hq)]; exact hdig q (by omega))
    have hlow' : num abi.base (Function.update dig n ((a * abi.base + dig n) / m)) n = num abi.base dig n :=
      num_congr fun q hq => Function.update_of_ne (Nat.ne_of_lt hq) _ _
    have hlast : (divPass abi m (n + 1) a dig).2 n = (a * abi.base + dig n) / m := by
      rw [hrun, hsame n (Nat.le_refl n), Function.update_self]
    refine ⟨by rw [hrun]; exact hrem, fun q hq => ?_, fun q hq => ?_, ?_⟩
    · by_cases hqn : q = n
      · rw [hqn, hlast]
        exact Nat.div_lt_of_lt_mul hlow
      · rw [hrun]
        exact hbelow q (by omega)
    · rw [hrun, hsame q (by omega), Function.update_of_ne (by omega)]
    · rw [num_succ, num_succ, hlast, hrun]
      rw [hlow'] at hnum
      have hdiv := Nat.div_add_mod (a * abi.base + dig n) m
      calc a * abi.base ^ (n + 1) + (num abi.base dig n + dig n * abi.base ^ n)
          = (a * abi.base + dig n) * abi.base ^ n + num abi.base dig n := by ring
        _ = (m * ((a * abi.base + dig n) / m) + (a * abi.base + dig n) % m) * abi.base ^ n + num abi.base dig n := by rw [hdiv]
        _ = m * ((a * abi.base + dig n) / m) * abi.base ^ n + ((a * abi.base + dig n) % m * abi.base ^ n + num abi.base dig n) := by ring
        _ = _ := by
          rw [hnum]
          ring

theorem all_zero_iff {dig : Nat → Nat} (hdig : ∀ q < n, dig q < abi.base) :
    ((List.range n).all fun d => dig d == 0) = true ↔ num abi.base dig n = 0 := by
  rw [List.all_eq_true]
  constructor
  · intro hall
    have hzero : num abi.base dig n = num abi.base (fun _ => 0) n := num_congr fun q hq => eq_of_beq (hall q (List.mem_range.mpr hq))
    rw [hzero]
    unfold num
    simp
  · intro hnum q hq
    have hq := List.mem_range.mp hq
    have hdigit := num_digit abi.base_pos hdig hq
    rw [hnum, Nat.zero_div, Nat.zero_mod] at hdigit
    exact beq_iff_eq.mpr hdigit.symm

section
variable {size : Nat} {s : List UInt8} {c : UInt8}

theorem push_bind {β : Type} {f g : List UInt8 → Except Fault β} (h : f (c :: s) = g (c :: s)) : (push size s c >>= f) = (push size s c >>= g) := by
  unfold push
  split
  · exact h
  · rfl

theorem pushAll_cons (cs : List UInt8) : pushAll size s (c :: cs) = push size s c >>= fun s => pushAll size s cs := rfl

theorem pushAll_append (cs ds : List UInt8) : pushAll size s (cs ++ ds) = pushAll size s cs >>= fun s => pushAll size s ds := by
  induction cs generalizing s with
  | nil => rfl
  | cons c cs ih =>
    rw [List.cons_append, pushAll_cons, pushAll_cons]
    unfold push
    split
    · exact ih
    · rfl

theorem pushAll_eq (hs : s.length ≤ size) (cs : List UInt8) :
    pushAll size s cs = if s.length + cs.length ≤ size then .ok (cs.reverse ++ s) else .error .bounds := by
  induction cs generalizing s with
  | nil =>
    exact (if_pos (show s.length + [].length ≤ size from hs)).symm
  | cons c cs ih =>
    rw [pushAll_cons, push, List.length_cons]
    by_cases hroom : s.length < size
    · rw [if_pos hroom]
      refine (ih (s := c :: s) hroom).trans ?_
      rw [List.length_cons, List.reverse_cons, List.append_assoc, show s.length + 1 + cs.length = s.length + (cs.length + 1) by omega]
      rfl
    · rw [if_neg hroom, if_neg (by omega)]
      rfl

theorem asStrLoop_succ {ilen fuel lastComma : Nat} {dig : Nat → Nat} :
    asStrLoop abi fmt size ilen (fuel + 1) dig s lastComma = push size s (mpzDigit fmt (divPass abi fmt.base ilen 0 dig).1) >>= fun s =>
      if (List.range ilen).all fun d => (divPass abi fmt.base ilen 0 dig).2 d == 0 then pure s
      else pushComma fmt size s lastComma >>= fun r => asStrLoop abi fmt size ilen fuel (divPass abi fmt.base ilen 0 dig).2 r.1 r.2 := rfl

/-- The loop pushes the digits that are left. -/
theorem asStrLoop_eq (hb : 1 < fmt.base) (hb' : fmt.base < abi.base) {ilen fuel m lastComma : Nat} {dig : Nat → Nat}
    (hdig : ∀ q < ilen, dig q < abi.base) (hm : num abi.base dig ilen = m) (hm0 : m ≠ 0) (hfuel : m < 2 ^ fuel) (hj : j < 3)
    (hcomma : fmt.comma ≠ 0 → s.length = lastComma + j) :
    asStrLoop abi fmt size ilen fuel dig s lastComma = pushAll size s (rest fmt j m) := by
  induction fuel generalizing dig m s j lastComma with
  | zero =>
    rw [Nat.pow_zero] at hfuel
    omega
  | succ fuel ih =>
    obtain ⟨hrem, hbelow, -, hnum⟩ := divPass_spec (n := ilen) (a := 0) (by omega) hb' (by omega) hdig
    rw [Nat.zero_mul, Nat.zero_add, hm] at hnum
    have hmod : (divPass abi fmt.base ilen 0 dig).1 = m % fmt.base := by
      rw [hnum, Nat.mul_add_mod, Nat.mod_eq_of_lt hrem]
    have hquo : num abi.base (divPass abi fmt.base ilen 0 dig).2 ilen = m / fmt.base := by
      rw [hnum, Nat.mul_add_div (by omega), Nat.div_eq_of_lt hrem, Nat.add_zero]
    have hless : m / fmt.base < 2 ^ fuel := by
      rw [Nat.pow_succ] at hfuel
      exact Nat.div_lt_of_lt_mul (Nat.lt_of_lt_of_le hfuel (by rw [Nat.mul_comm]; exact Nat.mul_le_mul_right _ hb))
    have hdone := all_zero_iff hbelow
    rw [hquo] at hdone
    rw [asStrLoop_succ, hmod, mpzDigit_eq, rest_step hb hm0]
    by_cases hlast : m / fmt.base = 0
    · rw [if_pos hlast]
      refine push_bind ?_
      rw [if_pos (hdone.mpr hlast)]
      rfl
    · rw [if_neg hlast]
      have hgo := fun s lastComma j => @ih j s (m / fmt.base) lastComma (divPass abi fmt.base ilen 0 dig).2 hbelow hquo hlast hless
      by_cases hc : fmt.comma = 0
      · rw [seps_none hc, List.nil_append, rest_of_none (j := j + 1) hc 0, ite_self, pushAll_cons]
        refine push_bind ?_
        rw [if_neg (mt hdone.mp hlast), pushComma, if_neg fun h => h.1 hc]
        exact hgo _ _ 0 (by decide) fun h => absurd hc h
      · have hplace := hcomma hc
        by_cases hfull : j + 1 = 3
        · rw [if_pos hfull, seps_some hc, pushAll_cons]
          refine push_bind ?_
          rw [if_neg (mt hdone.mp hlast), pushComma, if_pos ⟨hc, by rw [List.length_cons]; omega⟩]
          show _ = pushAll _ _ (fmt.comma :: rest fmt 0 (m / fmt.base))
          rw [pushAll_cons, bind_assoc]
          exact push_bind (hgo _ _ 0 (by decide) fun _ => rfl)
        · rw [if_neg hfull, pushAll_cons]
          refine push_bind ?_
          rw [if_neg (mt hdone.mp hlast), pushComma, if_neg fun h => hfull (by have := h.2; rw [List.length_cons] at this; omega)]
          exact hgo _ _ (j + 1) (by omega) fun _ => by rw [List.length_cons]; omega

end

theorem text_length (v : Int) : (text fmt v).length = (if v < 0 then 1 else 0) + fmt.pre.length + (body fmt v.natAbs).length := by
  unfold text
  simp only [List.length_append, List.length_reverse]
  split <;> rfl

/-- What is pushed is the text from its end, and the null byte. -/
theorem mpzAsStrInpl_eq (hb : 1 < fmt.base) (hb' : fmt.base < abi.base) {z : MpzT abi.toConfig} {v : Int} (hz : Holds z v)
    (hmem : z.len = 0 ∨ abi.granted z.len = true) (size : Nat) :
    mpzAsStrInpl abi fmt z size = if (text fmt v).length < size then .ok (text fmt v, (text fmt v).length) else .error .bounds := by
  have hvalue := hz.value
  have hend : ∀ s t : List UInt8, s.length ≤ size → terminated size s t = if s.length < size then .ok (t, s.length) else .error .bounds := by
    intro s t _
    unfold terminated push
    split
    · rfl
    · rfl
  unfold mpzAsStrInpl
  by_cases hlen : z.len = 0
  · have hzero : v = 0 := by
      rw [← hvalue, MpzT.value, MpzT.mag, hlen]
      unfold signed
      split <;> rfl
    have htext : text fmt v = fmt.pre ++ ['0'.toUInt8] := by
      rw [hzero]
      rfl
    rw [if_pos hlen, htext]
    show (pushAll size [] fmt.pre >>= fun s => push size s '0'.toUInt8 >>= fun s => terminated size s s.reverse) = _
    have hall : pushAll size [] fmt.pre >>= (fun s => push size s '0'.toUInt8) = pushAll size [] (fmt.pre ++ ['0'.toUInt8]) := by
      rw [pushAll_append]
      refine congrArg _ (funext fun s => ?_)
      rw [pushAll_cons]
      unfold push
      split
      · rfl
      · rfl
    rw [← bind_assoc, hall, pushAll_eq (Nat.zero_le size), List.append_nil, List.length_nil, Nat.zero_add]
    by_cases hfit : (fmt.pre ++ ['0'.toUInt8]).length ≤ size
    · rw [if_pos hfit]
      show terminated size _ _ = _
      rw [hend _ _ (by rw [List.length_reverse]; exact hfit), List.reverse_reverse, List.length_reverse]
    · rw [if_neg hfit, if_neg (by omega)]
      rfl
  · have hmag : num abi.base z.dig z.len ≠ 0 := by
      rw [ne_eq, hz.normal.digits.num_eq_zero abi.base_pos]
      exact hlen
    have habs : v.natAbs = num abi.base z.dig z.len := by
      rw [← hvalue]
      show (signed z.neg (num abi.base z.dig z.len)).natAbs = _
      unfold signed
      split <;> omega
    have hneg : (if z.neg then ['-'.toUInt8] else [] : List UInt8) = if v < 0 then ['-'.toUInt8] else [] := by
      have hsign : z.neg = true ↔ v < 0 := by
        rw [← hvalue]
        show _ ↔ signed z.neg (num abi.base z.dig z.len) < 0
        unfold signed
        cases z.neg with
        | true =>
          rw [if_pos rfl]
          exact iff_of_true rfl (by omega)
        | false =>
          rw [if_neg Bool.false_ne_true]
          exact iff_of_false Bool.false_ne_true (by omega)
      by_cases hv : v < 0
      · rw [if_pos (hsign.mpr hv), if_pos hv]
      · rw [if_neg (mt hsign.mp hv), if_neg hv]
    have hloop := @asStrLoop_eq abi fmt 0 size [] hb hb' z.len (z.len * abi.digSize) _ 0 _
      hz.normal.digits.below rfl hmag ?_ (by decide) (fun _ => rfl)
    · have htext : text fmt v = ((body fmt v.natAbs ++ fmt.pre.reverse) ++ (if v < 0 then ['-'.toUInt8] else [])).reverse := by
        unfold text
        rw [List.reverse_append, List.reverse_append, List.reverse_reverse, ← List.append_assoc]
        split <;> rfl
      rw [if_neg hlen, if_neg (by rw [hmem.resolve_left hlen]; exact Bool.false_ne_true.symm), hloop, hneg, ← habs,
        ← body_eq (by rw [habs]; exact hmag), ← bind_assoc, ← pushAll_append, ← bind_assoc, ← pushAll_append, pushAll_eq (Nat.zero_le size),
        List.append_nil, List.length_nil, Nat.zero_add, ← htext]
      have hlength : (body fmt v.natAbs ++ fmt.pre.reverse ++ (if v < 0 then ['-'.toUInt8] else [])).length = (text fmt v).length := by
        rw [htext, List.length_reverse]
      rw [hlength]
      by_cases hfit : (text fmt v).length ≤ size
      · rw [if_pos hfit]
        exact hend _ _ hfit
      · rw [if_neg hfit, if_neg (by omega)]
        rfl
    · rw [Nat.mul_comm, Nat.pow_mul]
      exact num_lt abi.base_pos hz.normal.digits.below

/-! ## Sizes -/

/-- The bits of a digit at least. -/
def digitBits (fmt : Format) : Nat := logBase2Floor.getD (fmt.base - 1) 0

def commas (fmt : Format) (k : Nat) : Nat := if fmt.comma ≠ 0 then k / 3 else 0

/-- The size for so many bits, were there no end to a word. -/
def formatBound (fmt : Format) (bits : Nat) : Nat :=
  bits / digitBits fmt + 1 + commas fmt (bits / digitBits fmt + 1) + fmt.pre.length + 2

/-- Between a power of two and the next; five digits have no more than eight times those bits. -/
theorem digitBits_spec (hb : 2 ≤ fmt.base) (hb' : fmt.base ≤ 16) :
    1 ≤ digitBits fmt ∧ digitBits fmt ≤ 4 ∧ 2 ^ digitBits fmt ≤ fmt.base ∧ fmt.base ^ 5 ≤ 2 ^ (8 * digitBits fmt) := by
  have key : ∀ b < 17, 2 ≤ b → 1 ≤ logBase2Floor.getD (b - 1) 0 ∧ logBase2Floor.getD (b - 1) 0 ≤ 4 ∧ 2 ^ logBase2Floor.getD (b - 1) 0 ≤ b ∧
      b ^ 5 ≤ 2 ^ (8 * logBase2Floor.getD (b - 1) 0) := by decide
  exact key fmt.base (by omega) hb

theorem intFormatSize_eq {bits : Nat} (hfits : formatBound fmt bits < 2 ^ abi.wordBits) : intFormatSize abi fmt bits = formatBound fmt bits := by
  have hdigits : abi.word (bits / digitBits fmt + 1) = bits / digitBits fmt + 1 := by
    unfold formatBound at hfits
    exact Nat.mod_eq_of_lt (by omega)
  unfold intFormatSize
  rw [← digitBits]
  simp only [hdigits]
  exact Nat.mod_eq_of_lt hfits

theorem commas_le (fmt : Format) {j k : Nat} (h : j ≤ k) : commas fmt j ≤ commas fmt k := by
  unfold commas
  split
  · exact Nat.div_le_div_right h
  · exact Nat.le_refl 0

theorem commas_bound (fmt : Format) (k : Nat) : commas fmt k ≤ k / 3 := by
  unfold commas
  split
  · exact Nat.le_refl _
  · exact Nat.zero_le _

theorem figures_ne_nil {b : Nat} : figures b n ≠ [] := by
  unfold figures
  split
  · exact List.cons_ne_nil 0 []
  · rename_i h
    exact Nat.digits_ne_nil_iff_ne_zero.mpr h

theorem body_length : (body fmt n).length = (figures fmt.base n).length + commas fmt ((figures fmt.base n).length - 1) := by
  have hne : (figures fmt.base n).map (smallDigit fmt) ≠ [] := by
    rw [ne_eq, List.map_eq_nil_iff]
    exact figures_ne_nil
  have hlen := @Numeral.length_spaced UInt8 (seps fmt) _ 3 0 (by decide) hne
  rw [List.length_map, Nat.zero_add] at hlen
  unfold body commas
  rw [hlen]
  by_cases hc : fmt.comma = 0
  · rw [seps_none hc, if_neg (not_not.mpr hc), List.length_nil, Nat.zero_mul]
  · rw [seps_some hc, if_pos hc, List.length_singleton, Nat.one_mul]

theorem length_figures_pos (fmt : Format) (n : Nat) : 1 ≤ (figures fmt.base n).length := List.length_pos_of_ne_nil figures_ne_nil

/-- The text of a number of so many bits. -/
theorem body_le (hb : 2 ≤ fmt.base) (hb' : fmt.base ≤ 16) {bits : Nat} (hn : n < 2 ^ bits) :
    (body fmt n).length + fmt.pre.length + 2 ≤ formatBound fmt bits := by
  obtain ⟨hpos, -, hpow, -⟩ := digitBits_spec hb hb'
  have hcount : (figures fmt.base n).length ≤ bits / digitBits fmt + 1 := by
    unfold figures
    split
    · exact Nat.le_add_left 1 _
    · rw [Nat.digits_length_le_iff (by omega)]
      calc n < 2 ^ bits := hn
        _ ≤ 2 ^ (digitBits fmt * (bits / digitBits fmt + 1)) :=
          Nat.pow_le_pow_right (by decide) (Nat.le_of_lt (Nat.lt_mul_div_succ bits (by omega)))
        _ = (2 ^ digitBits fmt) ^ (bits / digitBits fmt + 1) := Nat.pow_mul 2 _ _
        _ ≤ fmt.base ^ (bits / digitBits fmt + 1) := Nat.pow_le_pow_left hpow _
  have hcommas := commas_le fmt (show (figures fmt.base n).length - 1 ≤ bits / digitBits fmt + 1 by omega)
  unfold formatBound
  rw [body_length]
  omega

/-- A number with a bit at this place has so many digits. -/
theorem figures_ge (hb : 2 ≤ fmt.base) (hb' : fmt.base ≤ 16) {k : Nat} (hn : 2 ^ k ≤ n) : 5 * k < 8 * digitBits fmt * (figures fmt.base n).length := by
  obtain ⟨-, -, -, hfive⟩ := digitBits_spec hb hb'
  have hlt : n < fmt.base ^ (figures fmt.base n).length := by
    have h := Nat.ofDigits_lt_base_pow_length (b := fmt.base) (l := figures fmt.base n) (by omega) fun d hd => Numeral.figures_lt (by omega) d hd
    rwa [Numeral.ofDigits_figures] at h
  have hpow : 2 ^ (5 * k) < 2 ^ (8 * digitBits fmt * (figures fmt.base n).length) := by
    calc 2 ^ (5 * k) = (2 ^ k) ^ 5 := by rw [← Nat.pow_mul, Nat.mul_comm]
      _ ≤ n ^ 5 := Nat.pow_le_pow_left hn 5
      _ < (fmt.base ^ (figures fmt.base n).length) ^ 5 := Nat.pow_lt_pow_left hlt (by decide)
      _ = (fmt.base ^ 5) ^ (figures fmt.base n).length := by rw [← Nat.pow_mul, ← Nat.pow_mul, Nat.mul_comm]
      _ ≤ (2 ^ (8 * digitBits fmt)) ^ (figures fmt.base n).length := Nat.pow_le_pow_left hfive _
      _ = _ := (Nat.pow_mul 2 _ _).symm
  exact (Nat.pow_lt_pow_iff_right (by decide)).mp hpow

/-- A sum that wraps has lost a whole word. -/
theorem intFormatSize_le (abi : Abi) (fmt : Format) (bits : Nat) : intFormatSize abi fmt bits ≤ formatBound fmt bits ∧
    (2 ^ abi.wordBits ≤ formatBound fmt bits → bits / digitBits fmt + 1 < 2 ^ abi.wordBits →
      intFormatSize abi fmt bits + 2 ^ abi.wordBits ≤ formatBound fmt bits) ∧
    (bits / digitBits fmt + 1 = 2 ^ abi.wordBits → intFormatSize abi fmt bits ≤ fmt.pre.length + 2) := by
  have hsize : intFormatSize abi fmt bits =
      abi.word (abi.word (bits / digitBits fmt + 1) + commas fmt (abi.word (bits / digitBits fmt + 1)) + fmt.pre.length + 2) := rfl
  have hword : abi.word (bits / digitBits fmt + 1) ≤ bits / digitBits fmt + 1 := Nat.mod_le _ _
  have hcommas := commas_le fmt hword
  rw [hsize]
  unfold formatBound
  refine ⟨Nat.le_trans (Nat.mod_le _ _) (by omega), fun hwrap hdigits => ?_, fun hfull => ?_⟩
  · have hsame : abi.word (bits / digitBits fmt + 1) = bits / digitBits fmt + 1 := Nat.mod_eq_of_lt hdigits
    rw [hsame]
    have hmod := Nat.mod_add_div (bits / digitBits fmt + 1 + commas fmt (bits / digitBits fmt + 1) + fmt.pre.length + 2) (2 ^ abi.wordBits)
    have hdiv := Nat.div_pos hwrap (Nat.two_pow_pos abi.wordBits)
    have hmul : 2 ^ abi.wordBits ≤ 2 ^ abi.wordBits *
        ((bits / digitBits fmt + 1 + commas fmt (bits / digitBits fmt + 1) + fmt.pre.length + 2) / 2 ^ abi.wordBits) := Nat.le_mul_of_pos_right _ hdiv
    unfold Config.word
    omega
  · have hzero : abi.word (bits / digitBits fmt + 1) = 0 := by
      rw [hfull]
      exact Nat.mod_self _
    rw [hzero]
    have hnone : commas fmt 0 = 0 := Nat.le_zero.mp (commas_bound fmt 0)
    rw [hnone, Nat.zero_add]
    exact Nat.mod_le _ _

/-- Where the size wraps, it is too small for a number with that many bits. -/
theorem size_wraps (hb : 2 ≤ fmt.base) (hb' : fmt.base ≤ 16) {bits : Nat} (hn : 5 * (bits - abi.digSize) < 8 * digitBits fmt * (figures fmt.base n).length)
    (hwrap : ¬ (bits < 2 ^ abi.wordBits ∧ formatBound fmt bits < 2 ^ abi.wordBits)) :
    intFormatSize abi fmt (abi.word bits) ≤ fmt.pre.length + (body fmt n).length := by
  obtain ⟨hpos, hfour, -, -⟩ := digitBits_spec hb hb'
  obtain ⟨hle, hlost, hfull⟩ := intFormatSize_le abi fmt (abi.word bits)
  have hone := length_figures_pos fmt n
  have hsize : abi.digSize ≤ 32 := by
    have h := abi.digSize_eq
    omega
  have hword : 2 ^ 32 ≤ 2 ^ abi.wordBits := by
    have h := abi.wordBits_eq
    have h' := abi.wordBytes_eq
    exact Nat.pow_le_pow_right (by decide) (by omega)
  have hmod : abi.word bits = bits % 2 ^ abi.wordBits := rfl
  rw [body_length]
  by_cases hbits : bits < 2 ^ abi.wordBits
  · have hsame : abi.word bits = bits := Nat.mod_eq_of_lt hbits
    rw [hsame] at hle hlost hfull ⊢
    have hlarge : 2 ^ abi.wordBits ≤ formatBound fmt bits := Nat.le_of_not_lt fun h => hwrap ⟨hbits, h⟩
    have hlost := hlost hlarge
    have hcommas := commas_bound fmt (bits / digitBits fmt + 1)
    unfold formatBound at hlost
    generalize (figures fmt.base n).length = D at *
    generalize 2 ^ abi.wordBits = W at *
    -- the sum loses a word, or it is the count of digits that does
    interval_cases digitBits fmt <;> omega
  · have hrest : abi.word bits + 2 ^ abi.wordBits ≤ bits := by
      have hdiv := Nat.mod_add_div bits (2 ^ abi.wordBits)
      have hpart : 2 ^ abi.wordBits ≤ 2 ^ abi.wordBits * (bits / 2 ^ abi.wordBits) :=
        Nat.le_mul_of_pos_right _ (Nat.div_pos (Nat.le_of_not_lt hbits) (Nat.two_pow_pos _))
      omega
    have hlow : abi.word bits < 2 ^ abi.wordBits := Nat.mod_lt _ (Nat.two_pow_pos _)
    generalize abi.word bits = b at *
    generalize (figures fmt.base n).length = D at *
    generalize 2 ^ abi.wordBits = W at *
    have hcount : b / digitBits fmt + 3 ≤ D := by
      clear hle hlost hfull hwrap
      interval_cases digitBits fmt <;> omega
    have hcommas := commas_le fmt (show b / digitBits fmt + 1 ≤ D - 1 by omega)
    unfold formatBound at hle
    omega

/-- A prefix that is too long for a word is too long for the size. -/
theorem pre_wraps (hb : 2 ≤ fmt.base) (hb' : fmt.base ≤ 16) {bits : Nat} (hbits : bits ≤ 64) (hwrap : 2 ^ abi.wordBits ≤ formatBound fmt bits) :
    intFormatSize abi fmt bits ≤ fmt.pre.length := by
  obtain ⟨hpos, -, -, -⟩ := digitBits_spec hb hb'
  obtain ⟨-, hlost, -⟩ := intFormatSize_le abi fmt bits
  have hcount : bits / digitBits fmt ≤ bits := Nat.div_le_self _ _
  have hcommas := commas_bound fmt (bits / digitBits fmt + 1)
  have hword : 2 ^ 32 ≤ 2 ^ abi.wordBits := by
    have h := abi.wordBits_eq
    have h' := abi.wordBytes_eq
    exact Nat.pow_le_pow_right (by decide) (by omega)
  have hlost := hlost hwrap (by omega)
  unfold formatBound at hlost
  omega

/-! ## mp_obj_int_formatted -/

/-- The bits that the size is asked for. -/
def numBits : IntObj abi → Nat
  | .small _ => abi.wordBits
  | .mpz z => z.len * abi.digSize

/-- A word holds the count of bits and the size. -/
def SizeFits (fmt : Format) (self : IntObj abi) : Prop := numBits self < 2 ^ abi.wordBits ∧ formatBound fmt (numBits self) < 2 ^ abi.wordBits

/-- The digits of an `mpz_t` are copied before they are divided. -/
def copied : IntObj abi → Bool
  | .small _ => true
  | .mpz z => z.len == 0 || abi.granted z.len

/-- The text, where there is memory. -/
noncomputable def exactFormat (abi : Abi) (fmt : Format) (host : Host abi) (bufSize : Nat) (self : IntObj abi) (v : Int) : Except Fault (List UInt8 × Nat) :=
  if neededSize abi fmt self > bufSize ∧ host.allocates (neededSize abi fmt self) = false then .error .memory
  else if copied self then .ok (text fmt v, (text fmt v).length) else .error .memory

theorem text_fits {v : Int} {bits : Nat} (hsize : (body fmt v.natAbs).length + fmt.pre.length + 2 ≤ bits) : (text fmt v).length < bits := by
  rw [text_length]
  split
  · omega
  · omega

theorem pre_le_text (fmt : Format) (v : Int) : fmt.pre.length + (body fmt v.natAbs).length ≤ (text fmt v).length := by
  rw [text_length]
  omega

/-- The number is within its bits. -/
theorem natAbs_lt {self : IntObj abi} {v : Int} (hself : self.Is v) : v.natAbs < 2 ^ numBits self := by
  cases self with
  | small w =>
    obtain ⟨hin, rfl⟩ := hself
    have hin := inSmall_iff.mp hin
    have hhalf := half_ge (c := abi.toConfig)
    have hw := word_eq (c := abi.toConfig)
    show w.natAbs < 2 ^ abi.wordBits
    omega
  | mpz z =>
    have hz : Holds z v := hself
    have hlt := num_lt (n := z.len) abi.base_pos hz.normal.digits.below
    have hmag : num abi.base z.dig z.len = v.natAbs := hz.mag
    rw [hmag] at hlt
    show v.natAbs < 2 ^ (z.len * abi.digSize)
    rw [Nat.mul_comm, Nat.pow_mul]
    exact hlt

/-- Where the size does not fit a word the text does not fit the size. -/
theorem neededSize_le (hb : 2 ≤ fmt.base) (hb' : fmt.base ≤ 16) {self : IntObj abi} {v : Int} (hself : self.Is v) (hwrap : ¬ SizeFits fmt self) :
    neededSize abi fmt self ≤ (text fmt v).length := by
  have hpre := pre_le_text fmt v
  have hword : abi.wordBits ≤ 64 ∧ 64 < 2 ^ abi.wordBits := by
    have h := abi.wordBits_eq
    have h' := abi.wordBytes_eq
    have h32 : 2 ^ 32 ≤ 2 ^ abi.wordBits := Nat.pow_le_pow_right (by decide) (by omega)
    omega
  cases self with
  | small w =>
    have hlarge : 2 ^ abi.wordBits ≤ formatBound fmt abi.wordBits := Nat.le_of_not_lt fun h => hwrap ⟨Nat.lt_two_pow_self, h⟩
    have hsize := pre_wraps hb hb' hword.1 hlarge
    show intFormatSize abi fmt abi.wordBits ≤ _
    omega
  | mpz z =>
    have hz : Holds z v := hself
    by_cases hlen : z.len = 0
    · have hnone : z.len * abi.digSize = 0 := by rw [hlen, Nat.zero_mul]
      have hlarge : 2 ^ abi.wordBits ≤ formatBound fmt 0 := Nat.le_of_not_lt fun h => hwrap (by
        show z.len * abi.digSize < _ ∧ formatBound fmt (z.len * abi.digSize) < _
        rw [hnone]
        exact ⟨by omega, h⟩)
      have hsize := pre_wraps hb hb' (Nat.zero_le 64) hlarge
      have hzero : neededSize abi fmt (.mpz z) = intFormatSize abi fmt 0 := by
        show intFormatSize abi fmt (abi.word (z.len * abi.digSize)) = _
        rw [hnone, Config.word, Nat.zero_mod]
      rw [hzero]
      omega
    · have hle := hz.normal.digits.pow_le (by omega)
      have hmag : num abi.base z.dig z.len = v.natAbs := hz.mag
      rw [hmag, Config.base, ← Nat.pow_mul] at hle
      have hbits : abi.digSize * (z.len - 1) = z.len * abi.digSize - abi.digSize := by rw [Nat.mul_sub_one, Nat.mul_comm]
      have hcount := figures_ge hb hb' hle
      rw [hbits] at hcount
      have hsize := size_wraps hb hb' hcount hwrap
      show intFormatSize abi fmt (abi.word (z.len * abi.digSize)) ≤ _
      omega

theorem neededSize_eq {self : IntObj abi} (hfits : SizeFits fmt self) : neededSize abi fmt self = formatBound fmt (numBits self) := by
  cases self with
  | small w => exact intFormatSize_eq hfits.2
  | mpz z =>
    show intFormatSize abi fmt (abi.word (z.len * abi.digSize)) = _
    have hword : abi.word (z.len * abi.digSize) = z.len * abi.digSize := Nat.mod_eq_of_lt hfits.1
    rw [hword]
    exact intFormatSize_eq hfits.2

theorem intFormatted_eq (hb : 2 ≤ fmt.base) (hb' : fmt.base ≤ 16) {host : Host abi} {bufSize : Nat} {self : IntObj abi} {v : Int} (hself : self.Is v)
    (hfits : SizeFits fmt self) : intFormatted abi fmt host bufSize self = exactFormat abi fmt host bufSize self v := by
  have hroom := body_le hb hb' (natAbs_lt hself)
  rw [← neededSize_eq hfits] at hroom
  have hlen := text_fits hroom
  unfold intFormatted exactFormat
  split
  · rfl
  · cases self with
    | small w =>
      obtain ⟨hin, rfl⟩ := hself
      exact smallFormatted_eq hb hin hroom
    | mpz z =>
      have hz : Holds z v := hself
      have hbase : fmt.base < abi.base := by
        have h : 2 ^ 16 ≤ abi.base := Nat.pow_le_pow_right (by decide) (by have := abi.digSize_eq; omega)
        omega
      show mpzAsStrInpl abi fmt z _ = if copied (.mpz z) then _ else _
      by_cases hmem : copied (.mpz z) = true
      · have hgranted : z.len = 0 ∨ abi.granted z.len = true := (Bool.or_eq_true_iff.mp hmem).imp_left eq_of_beq
        rw [if_pos hmem, mpzAsStrInpl_eq hb hbase hz hgranted, if_pos (by split <;> omega)]
      · have hnone : z.len ≠ 0 ∧ abi.granted z.len = false := by
          unfold copied at hmem
          simpa using hmem
        rw [if_neg hmem, mpzAsStrInpl, if_neg hnone.1, if_pos hnone.2]

end

/-! ## Read again -/

/-- A text that `int` reads: the prefix is the mark of the base, if any, the digits over nine are
letters from a or A on, and the separator is no digit and no sign. -/
structure Readable (fmt : Format) : Prop where
  pre : fmt.pre = [] ∨ ∃ x, Parsenum.Marks x fmt.base ∧ fmt.pre = ['0'.toUInt8, x]
  letters : fmt.base ≤ 10 ∨ fmt.baseChar = 'a'.toUInt8 ∨ fmt.baseChar = 'A'.toUInt8
  comma : Parsenum.digitOf fmt.comma = none ∧ fmt.comma ≠ '-'.toUInt8

def unseparated (fmt : Format) (v : Int) : List UInt8 := (text fmt v).filter (· != fmt.comma)

section
variable {abi : Abi} {fmt : Format} {v : Int} {ι : Type} [DecidableEq ι]

theorem digitOf_smallDigit (hb : fmt.base ≤ 16) (hread : Readable fmt) : ∀ d < fmt.base, Parsenum.digitOf (smallDigit fmt d) = some d := by
  intro d hd
  unfold smallDigit
  rcases hread.letters with hten | hlow | hhigh
  · have key : ∀ d < 10, Parsenum.digitOf (UInt8.ofNat (d + '0'.toNat)) = some d := by decide
    rw [if_neg (by omega)]
    exact key d (by omega)
  · have key : ∀ d < 16, Parsenum.digitOf (UInt8.ofNat (if d ≥ 10 then d + 'a'.toUInt8.toNat - 10 else d + '0'.toNat)) = some d := by decide
    rw [hlow]
    exact key d (by omega)
  · have key : ∀ d < 16, Parsenum.digitOf (UInt8.ofNat (if d ≥ 10 then d + 'A'.toUInt8.toNat - 10 else d + '0'.toNat)) = some d := by decide
    rw [hhigh]
    exact key d (by omega)

theorem ne_comma (hread : Readable fmt) {c : UInt8} (hc : (Parsenum.digitOf c).isSome = true) : (c != fmt.comma) = true := by
  refine bne_iff_ne.mpr fun h => ?_
  rw [h, hread.comma.1] at hc
  cases hc

/-- The text without its separators is a literal. -/
theorem unseparated_eq (hb : 2 ≤ fmt.base) (hb' : fmt.base ≤ 16) (hread : Readable fmt) :
    unseparated fmt v = (if v < 0 then ['-'.toUInt8] else []) ++ (fmt.pre ++ ((figures fmt.base v.natAbs).map (smallDigit fmt)).reverse) := by
  have hdigit : ∀ c ∈ (figures fmt.base v.natAbs).map (smallDigit fmt), (c != fmt.comma) = true := by
    intro c hc
    obtain ⟨d, hd, rfl⟩ := List.mem_map.mp hc
    refine ne_comma hread ?_
    rw [digitOf_smallDigit hb' hread d (Numeral.figures_lt hb d hd)]
    rfl
  have hbody : (body fmt v.natAbs).reverse.filter (· != fmt.comma) = ((figures fmt.base v.natAbs).map (smallDigit fmt)).reverse := by
    rw [List.filter_reverse]
    refine congrArg List.reverse (Numeral.filter_spaced (fun c hc => ?_) hdigit)
    unfold seps at hc
    split at hc
    · rw [List.mem_singleton.mp hc]
      exact bne_self_eq_false _
    · cases hc
  have hpre : fmt.pre.filter (· != fmt.comma) = fmt.pre := by
    refine List.filter_eq_self.mpr fun c hc => ne_comma hread ?_
    rcases hread.pre with hnone | ⟨x, hx, hmark⟩
    · rw [hnone] at hc
      cases hc
    · obtain ⟨d, hd, -⟩ := Parsenum.digit_of_marks hx
      rw [hmark] at hc
      rcases List.mem_cons.mp hc with rfl | hc
      · rfl
      · rw [List.mem_singleton.mp hc, hd]
        rfl
  have hsign : (if v < 0 then ['-'.toUInt8] else [] : List UInt8).filter (· != fmt.comma) = if v < 0 then ['-'.toUInt8] else [] := by
    split
    · exact List.filter_eq_self.mpr fun c hc => by
        rw [List.mem_singleton.mp hc]
        exact bne_iff_ne.mpr hread.comma.2.symm
    · rfl
  unfold unseparated text
  rw [List.filter_append, List.filter_append, hsign, hpre, hbody, List.append_assoc]

/-- Sign, mark and digits. -/
theorem literal_parts (hb : 2 ≤ fmt.base) (hb' : fmt.base ≤ 16) (hread : Readable fmt) :
    ∃ sign neg, Parsenum.Sign sign neg ∧ v = signed neg v.natAbs ∧ Parsenum.Radix fmt.base fmt.pre ((figures fmt.base v.natAbs).map (smallDigit fmt)).reverse fmt.base ∧
      unseparated fmt v = [] ++ (sign ++ (fmt.pre ++ (((figures fmt.base v.natAbs).map (smallDigit fmt)).reverse ++ []))) ∧
      (∀ c ∈ ((figures fmt.base v.natAbs).map (smallDigit fmt)).reverse, Parsenum.ascii.isDigit fmt.base c = true) ∧
      Parsenum.ascii.value fmt.base ((figures fmt.base v.natAbs).map (smallDigit fmt)).reverse = v.natAbs := by
  have hch := digitOf_smallDigit hb' hread
  have hradix : Parsenum.Radix fmt.base fmt.pre ((figures fmt.base v.natAbs).map (smallDigit fmt)).reverse fmt.base := by
    rcases hread.pre with hnone | ⟨x, hx, hmark⟩
    · rw [hnone]
      exact .given (by omega)
    · rw [hmark]
      exact .marked hx (.inr rfl)
  have hdigits : ∀ c ∈ ((figures fmt.base v.natAbs).map (smallDigit fmt)).reverse, Parsenum.ascii.isDigit fmt.base c = true := by
    intro c hc
    obtain ⟨d, hd, rfl⟩ := List.mem_map.mp (List.mem_reverse.mp hc)
    exact Alphabet.isDigit_iff.mpr ⟨d, Numeral.figures_lt hb d hd, hch d (Numeral.figures_lt hb d hd)⟩
  have hvalue := Numeral.value_figures (A := Parsenum.ascii) (n := v.natAbs) hb hch
  have htext := unseparated_eq (v := v) hb hb' hread
  by_cases hneg : v < 0
  · rw [if_pos hneg] at htext
    refine ⟨_, true, .minus, ?_, hradix, ?_, hdigits, hvalue⟩
    · show v = -(v.natAbs : Int)
      omega
    · rw [List.append_nil]
      exact htext
  · rw [if_neg hneg] at htext
    refine ⟨_, false, .none, ?_, hradix, ?_, hdigits, hvalue⟩
    · show v = (v.natAbs : Int)
      omega
    · rw [List.append_nil]
      exact htext

/-- It is read again as the same integer, where there is room for its digits. -/
theorem reads_back (hb : 2 ≤ fmt.base) (hb' : fmt.base ≤ 16) (hread : Readable fmt) (h : Heap abi.toConfig ι) :
    Prog.wp (Parsenum.mpParseNumInteger (unseparated fmt v) fmt.base false)
      (fun out h' => Parsenum.RoomFor abi (unseparated fmt v) fmt.base ∧ ∃ o, out = .ok o ∧ Objint.Denotes h' o v)
      (fun e _ => e = .memory ∨ e = .bounds ∧ ¬ Parsenum.RoomFor abi (unseparated fmt v) fmt.base) h := by
  obtain ⟨sign, neg, hsign, hv, hradix, htext, hdigits, hvalue⟩ := literal_parts (v := v) hb hb' hread
  have hne : ((figures fmt.base v.natAbs).map (smallDigit fmt)).reverse ≠ [] := by
    rw [ne_eq, List.reverse_eq_nil_iff, List.map_eq_nil_iff]
    exact figures_ne_nil
  have hgrouped := Alphabet.grouped_of_digits hne hdigits
  have hnil : ∀ c ∈ ([] : List UInt8), Parsenum.isspace c = true := fun c hc => absurd hc List.not_mem_nil
  have hradix' : Parsenum.Radix (fmt.base : Int).toNat fmt.pre ((figures fmt.base v.natAbs).map (smallDigit fmt)).reverse fmt.base := hradix
  have hlit : Parsenum.Literal fmt.base (unseparated fmt v) v :=
    ⟨.inr (by omega), [], sign, fmt.pre, _, [], neg, fmt.base, htext, hnil, hnil, hsign, hradix', hgrouped, by rw [hvalue]; exact hv⟩
  refine Parsenum.parse_denotes false hlit (fun hu => ?_) h
  obtain ⟨-, hnumber, -⟩ := Parsenum.parts_of_literal htext hnil hnil hsign hradix' hgrouped
  obtain ⟨c, hc, hsep⟩ := hu
  rw [hnumber] at hc
  rw [Alphabet.isSep_eq_false (hdigits c hc)] at hsep
  cases hsep

/-- The text, the same for a small int and an `mpz_t` of one value, and its null byte are in a buffer
of the size asked for, as long as a word holds that size; and without the separators the text is read
as that integer. -/
theorem int_format_iff (host : Host abi) (bufSize : Nat) (self : IntObj abi) (hb : 2 ≤ fmt.base) (hb' : fmt.base ≤ 16) (hself : self.Is v) :
    (intFormatted abi fmt host bufSize self = exactFormat abi fmt host bufSize self v ∧ (text fmt v).length < neededSize abi fmt self ↔ SizeFits fmt self) ∧
    (Readable fmt → ∀ h : Heap abi.toConfig ι, Prog.wp (Parsenum.mpParseNumInteger (unseparated fmt v) fmt.base false)
      (fun out h' => Parsenum.RoomFor abi (unseparated fmt v) fmt.base ∧ ∃ o, out = .ok o ∧ Objint.Denotes h' o v)
      (fun e _ => e = .memory ∨ e = .bounds ∧ ¬ Parsenum.RoomFor abi (unseparated fmt v) fmt.base) h) := by
  refine ⟨⟨fun hright => ?_, fun hfits => ⟨intFormatted_eq hb hb' hself hfits, ?_⟩⟩, fun hread h => reads_back hb hb' hread h⟩
  · by_contra hwrap
    exact absurd (neededSize_le hb hb' hself hwrap) (Nat.not_le_of_lt hright.2)
  · rw [neededSize_eq hfits]
    exact text_fits (body_le hb hb' (natAbs_lt hself))

end

def decimal : Format := ⟨10, [], 'a'.toUInt8, ','.toUInt8⟩

theorem int_format_iff_thousand :
    (intFormatted abi32 decimal host32 0 (.small (-1000)) = exactFormat abi32 decimal host32 0 (.small (-1000)) (-1000) ∧
      (text decimal (-1000)).length < neededSize abi32 decimal (.small (-1000)) ↔ SizeFits decimal (.small (-1000) : IntObj abi32)) ∧
    (Readable decimal → ∀ h : Heap abi32.toConfig Unit, Prog.wp (Parsenum.mpParseNumInteger (unseparated decimal (-1000)) 10 false)
      (fun out h' => Parsenum.RoomFor abi32 (unseparated decimal (-1000)) 10 ∧ ∃ o, out = .ok o ∧ Objint.Denotes h' o (-1000))
      (fun e _ => e = .memory ∨ e = .bounds ∧ ¬ Parsenum.RoomFor abi32 (unseparated decimal (-1000)) 10) h) :=
  @int_format_iff abi32 decimal (-1000) Unit _ host32 0 (.small (-1000)) (by decide) (by decide) ⟨by decide, rfl⟩

/-- 2²⁸ digits, of which only the leading one is not zero. -/
def wide : MpzT abi32.toConfig := ⟨false, false, 2 ^ 28, 2 ^ 28, fun q => if q = 2 ^ 28 - 1 then 1 else 0, by decide⟩

theorem wide_holds : Holds wide wide.value := by
  refine ⟨⟨Nat.le_refl _, ⟨fun q _ => ?_, fun _ => ?_⟩, fun _ => rfl⟩, rfl⟩
  · show (if q = 2 ^ 28 - 1 then 1 else 0) < 2 ^ 16
    split
    · decide
    · decide
  · show (if 2 ^ 28 - 1 = 2 ^ 28 - 1 then 1 else 0) ≠ 0
    rw [if_pos rfl]
    decide

/-- The count of bits, 2³², is 0 in a word: there are three bytes for the text. -/
theorem bits_wrap : neededSize abi32 decimal (.mpz wide) = 3 ∧ intFormatted abi32 decimal host32 0 (.mpz wide) = .error .bounds ∧
    exactFormat abi32 decimal host32 0 (.mpz wide) wide.value = .ok (text decimal wide.value, (text decimal wide.value).length) := by
  have hsize : neededSize abi32 decimal (.mpz wide) = 3 := by decide
  have hwrap : ¬ SizeFits decimal (.mpz wide : IntObj abi32) := by
    intro h
    exact absurd h.1 (by decide)
  have hle := @neededSize_le abi32 decimal (by decide) (by decide) (.mpz wide) wide.value wide_holds hwrap
  have hhost : ¬ (3 > 0 ∧ host32.allocates 3 = false) := by decide
  have hgranted : abi32.granted wide.len = true := by decide
  rw [hsize] at hle
  refine ⟨hsize, ?_, ?_⟩
  · unfold intFormatted
    rw [hsize, if_neg hhost]
    show mpzAsStrInpl abi32 decimal wide 3 = _
    rw [mpzAsStrInpl_eq (by decide) (by decide) wide_holds (.inr hgranted), if_neg (by omega)]
  · have hcopied : copied (.mpz wide) = true := hgranted
    unfold exactFormat
    rw [hsize, if_neg hhost, if_pos hcopied]

end PythonUltra.Py.ObjintFormat
