/-
  PythonUltra.Lib.Numeral — numbers written in a positional notation.

  An alphabet gives the values of its digits; other characters may be separators. `read`
  goes on from a number already read, and passes by what is no digit, so a text in two
  parts is read part by part. `Grouped`: digits, with single separators between them.
  `figures` are the digits to write, the lowest first, and `spaced` sets them in groups.
-/

import Mathlib.Data.Nat.Digits.Defs

namespace PythonUltra.Lib.Numeral

structure Alphabet (α : Type) where
  digit : α → Option Nat
  isSep : α → Bool
  digit_of_isSep {a : α} : isSep a = true → digit a = none

namespace Alphabet

variable {α : Type} (A : Alphabet α) (b : Nat)

/-- A digit of base `b`. -/
def isDigit (a : α) : Bool := (A.digit a).any (· < b)

/-- What a number may consist of. -/
def isBody (a : α) : Bool := A.isDigit b a || A.isSep a

def next (v : Nat) (a : α) : Nat := (A.digit a).elim v fun d => v * b + d

def read (v : Nat) (l : List α) : Nat := l.foldl (A.next b) v

def value (l : List α) : Nat := A.read b 0 l

/-- Digits, with single separators between them. -/
inductive Grouped : List α → Prop where
  | one {a : α} (ha : A.isDigit b a = true) : Grouped [a]
  | digit {a : α} {l : List α} (ha : A.isDigit b a = true) (hl : Grouped l) : Grouped (a :: l)
  | sep {a s : α} {l : List α} (ha : A.isDigit b a = true) (hs : A.isSep s = true) (hl : Grouped l) : Grouped (a :: s :: l)

variable {A b} {a : α} {l : List α}

theorem isDigit_iff : A.isDigit b a = true ↔ ∃ d < b, A.digit a = some d := by
  unfold isDigit
  cases A.digit a with
  | none => simp
  | some d => simp

theorem isSep_eq_false (ha : A.isDigit b a = true) : A.isSep a = false := by
  obtain ⟨d, -, hd⟩ := isDigit_iff.mp ha
  cases hs : A.isSep a with
  | false => rfl
  | true =>
    rw [A.digit_of_isSep hs] at hd
    cases hd

theorem isDigit_eq_false (ha : A.isSep a = true) : A.isDigit b a = false := by
  unfold isDigit
  rw [A.digit_of_isSep ha]
  rfl

theorem isBody_of_digit (ha : A.isDigit b a = true) : A.isBody b a = true := by
  unfold isBody
  rw [ha, Bool.true_or]

theorem isBody_of_sep (ha : A.isSep a = true) : A.isBody b a = true := by
  unfold isBody
  rw [ha, Bool.or_true]

/-! ## Reading -/

variable {v w d : Nat}

@[simp] theorem read_nil : A.read b v [] = v := rfl

theorem read_cons : A.read b v (a :: l) = A.read b (A.next b v a) l := rfl

theorem read_append (l r : List α) : A.read b v (l ++ r) = A.read b (A.read b v l) r := List.foldl_append

theorem next_digit (hd : A.digit a = some d) : A.next b v a = v * b + d := by
  unfold next
  rw [hd]
  rfl

theorem next_sep (ha : A.isSep a = true) : A.next b v a = v := by
  unfold next
  rw [A.digit_of_isSep ha]
  rfl

theorem le_next (hb : 0 < b) : v ≤ A.next b v a := by
  unfold next
  cases A.digit a with
  | none => exact Nat.le_refl v
  | some d => exact Nat.le_trans (Nat.le_mul_of_pos_right v hb) (Nat.le_add_right _ d)

theorem le_read (hb : 0 < b) : v ≤ A.read b v l := by
  induction l generalizing v with
  | nil => exact Nat.le_refl v
  | cons a l ih => exact Nat.le_trans (le_next hb) ih

/-! ## Well-formed numbers -/

theorem Grouped.body (h : A.Grouped b l) : ∀ a ∈ l, A.isBody b a = true := by
  induction h with
  | one ha =>
    intro x hx
    rw [List.mem_singleton.mp hx]
    exact isBody_of_digit ha
  | digit ha _ ih =>
    intro x hx
    rcases List.mem_cons.mp hx with rfl | hx
    · exact isBody_of_digit ha
    · exact ih x hx
  | sep ha hs _ ih =>
    intro x hx
    rcases List.mem_cons.mp hx with rfl | hx
    · exact isBody_of_digit ha
    · rcases List.mem_cons.mp hx with rfl | hx
      · exact isBody_of_sep hs
      · exact ih x hx

theorem Grouped.head (h : A.Grouped b l) : ∃ a r, l = a :: r ∧ A.isDigit b a = true := by
  cases h with
  | one ha => exact ⟨_, _, rfl, ha⟩
  | digit ha _ => exact ⟨_, _, rfl, ha⟩
  | sep ha _ _ => exact ⟨_, _, rfl, ha⟩

theorem grouped_of_digits (hne : l ≠ []) (hl : ∀ a ∈ l, A.isDigit b a = true) : A.Grouped b l := by
  induction l with
  | nil => exact absurd rfl hne
  | cons a l ih =>
    have ha := hl a List.mem_cons_self
    cases l with
    | nil => exact .one ha
    | cons c l => exact .digit ha (ih (List.cons_ne_nil c l) fun x hx => hl x (List.mem_cons_of_mem a hx))

end Alphabet

/-! ## Writing -/

/-- The digits of a number, the lowest first; of zero there is one. -/
def figures (b n : Nat) : List Nat := if n = 0 then [0] else Nat.digits b n

section
variable {α : Type} {sep l : List α} {n j : Nat}

/-- In groups of `n`, with `sep` between them; `j` of the first group are there already. -/
def spaced (sep : List α) (n : Nat) : Nat → List α → List α
  | _, [] => []
  | _, [a] => [a]
  | j, a :: c :: l => if j + 1 = n then a :: (sep ++ spaced sep n 0 (c :: l)) else a :: spaced sep n (j + 1) (c :: l)

theorem length_spaced (hn : j < n) (hl : l ≠ []) : (spaced sep n j l).length = l.length + sep.length * ((j + (l.length - 1)) / n) := by
  induction l generalizing j with
  | nil => exact absurd rfl hl
  | cons a l ih =>
    cases l with
    | nil =>
      have hzero : (j + ([a].length - 1)) / n = 0 := Nat.div_eq_of_lt hn
      rw [hzero]
      rfl
    | cons c l =>
      rw [spaced]
      by_cases hfull : j + 1 = n
      · have hgroups : (j + ((a :: c :: l).length - 1)) / n = ((0 + ((c :: l).length - 1)) / n) + 1 := by
          have hsum : j + ((a :: c :: l).length - 1) = (0 + ((c :: l).length - 1)) + n := by
            simp only [List.length_cons]
            omega
          rw [hsum, Nat.add_div_right _ (by omega)]
        rw [if_pos hfull, List.length_cons, List.length_append, ih (by omega) (List.cons_ne_nil c l), hgroups, Nat.mul_succ]
        simp only [List.length_cons]
        omega
      · have hsum : j + ((a :: c :: l).length - 1) = j + 1 + ((c :: l).length - 1) := by
          simp only [List.length_cons]
          omega
        rw [if_neg hfull, List.length_cons, ih (by omega) (List.cons_ne_nil c l), hsum]
        simp only [List.length_cons]
        omega

/-- Without the separators. -/
theorem filter_spaced {p : α → Bool} (hsep : ∀ a ∈ sep, p a = false) (hl : ∀ a ∈ l, p a = true) : (spaced sep n j l).filter p = l := by
  have hnone : sep.filter p = [] := List.filter_eq_nil_iff.mpr fun a ha h => by
    rw [hsep a ha] at h
    cases h
  induction l generalizing j with
  | nil => rfl
  | cons a l ih =>
    have ha := hl a List.mem_cons_self
    have hrest := fun k => ih (j := k) fun x hx => hl x (List.mem_cons_of_mem a hx)
    cases l with
    | nil => exact List.filter_cons_of_pos ha
    | cons c l =>
      rw [spaced]
      split
      · rw [List.filter_cons_of_pos ha, List.filter_append, hnone, List.nil_append, hrest]
      · rw [List.filter_cons_of_pos ha, hrest]

end

section
variable {α : Type} {A : Alphabet α} {b n : Nat} {ch : Nat → α}

theorem figures_lt (hb : 1 < b) : ∀ d ∈ figures b n, d < b := by
  intro d hd
  unfold figures at hd
  split at hd
  · rw [List.mem_singleton.mp hd]
    omega
  · exact Nat.digits_lt_base hb hd

theorem ofDigits_figures : Nat.ofDigits b (figures b n) = n := by
  unfold figures
  split
  · rename_i h
    rw [h, Nat.ofDigits_singleton]
  · exact Nat.ofDigits_digits b n

theorem value_reverse (l : List Nat) (hl : ∀ d ∈ l, A.digit (ch d) = some d) : A.value b (l.map ch).reverse = Nat.ofDigits b l := by
  induction l with
  | nil => rfl
  | cons d l ih =>
    have hrest := ih fun x hx => hl x (List.mem_cons_of_mem d hx)
    rw [List.map_cons, List.reverse_cons, Alphabet.value, Alphabet.read_append, ← Alphabet.value, hrest, Alphabet.read_cons,
      Alphabet.next_digit (hl d List.mem_cons_self), Alphabet.read_nil, Nat.ofDigits_cons, Nat.mul_comm, Nat.add_comm]

theorem value_figures (hb : 1 < b) (hch : ∀ d < b, A.digit (ch d) = some d) : A.value b ((figures b n).map ch).reverse = n := by
  rw [value_reverse _ fun d hd => hch d (figures_lt hb d hd), ofDigits_figures]

end

end PythonUltra.Lib.Numeral
