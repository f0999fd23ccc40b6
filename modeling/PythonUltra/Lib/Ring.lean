/-
  PythonUltra.Lib.Ring — a rotating array: entry number `a` of an unbounded sequence
  lives in slot `a % cap`.

  The numbers held at one time span at most `cap`, so distinct ones have distinct slots
  (`slot_inj`), and one sweep over the slots visits the entries of any such span
  (`sweep_perm`). A row that starts at any cell of the ring (`Row`) grows and shrinks at both
  ends.
-/

import Mathlib.Data.List.Basic
import Mathlib.Data.List.Perm.Basic
import Mathlib.Data.Nat.ModEq

namespace PythonUltra.Lib.Ring

theorem slot_inj (lo cap : Nat) {a b : Nat} (ha : lo ≤ a) (ha' : a < lo + cap) (hb : lo ≤ b) (hb' : b < lo + cap)
    (h : a % cap = b % cap) : a = b := by
  have key : ∀ x y : Nat, lo ≤ x → y < lo + cap → x ≤ y → x % cap = y % cap → x = y := by
    intro x y hx hy hxy hm
    have hdvd : cap ∣ y - x := (Nat.modEq_iff_dvd' hxy).mp hm
    have : y - x = 0 := Nat.eq_zero_of_dvd_of_lt hdvd (by omega)
    omega
  rcases Nat.le_total a b with hab | hab
  · exact key a b ha hb' hab h
  · exact (key b a hb ha' hab h.symm).symm

/-- The rotating index as C computes it, with the array's length added first. -/
theorem add_cap_mod (start count cap : Nat) : (start % cap + count + cap) % cap = (start + count) % cap := by
  rw [Nat.add_mod_right, Nat.mod_add_mod]

theorem exists_number (cap lo : Nat) {j : Nat} (hj : j < cap) : ∃ a, lo ≤ a ∧ a < lo + cap ∧ a % cap = j := by
  induction lo with
  | zero => exact ⟨j, Nat.zero_le _, by omega, Nat.mod_eq_of_lt hj⟩
  | succ lo ih =>
    obtain ⟨a, h1, h2, h3⟩ := ih
    rcases Nat.eq_or_lt_of_le h1 with rfl | hlt
    · exact ⟨lo + cap, by omega, by omega, by rw [Nat.add_mod_right]; exact h3⟩
    · exact ⟨a, hlt, by omega, h3⟩

variable {α : Type}

/-- A sweep over the slots is a sweep over the numbers of any span of `cap` entries. -/
theorem sweep_perm (f : Nat → α) (cap lo : Nat) :
    List.Perm ((List.range cap).map f) ((List.range' lo cap).map fun a => f (a % cap)) := by
  induction lo with
  | zero =>
    rw [← List.range_eq_range']
    apply List.Perm.of_eq
    apply List.map_congr_left
    intro a ha
    rw [Nat.mod_eq_of_lt (List.mem_range.mp ha)]
  | succ lo ih =>
    refine ih.trans ?_
    cases cap with
    | zero => simp
    | succ cap =>
      -- the span moves up by one: its first entry leaves, one in the same slot joins
      rw [List.range'_succ, List.range'_concat, List.map_cons, List.map_append, List.map_singleton]
      have : (lo + 1 + 1 * cap) % (cap + 1) = lo % (cap + 1) := by
        rw [show lo + 1 + 1 * cap = lo + (cap + 1) by omega, Nat.add_mod_right]
      rw [this]
      exact (List.perm_append_singleton _ _).symm

/-! ## A row in the ring -/

/-- The cell that is `k` behind `start`. -/
def cell (cap start k : Nat) : Nat := if start + k < cap then start + k else start + k - cap

def advance (cap i : Nat) : Nat := if i + 1 = cap then 0 else i + 1

def retreat (cap i : Nat) : Nat := if i = 0 then cap - 1 else i - 1

/-- From `start` on, the cells have these values. -/
def Row (cells : List (Option α)) (start : Nat) (l : List α) : Prop := ∀ k x, l[k]? = some x → cells[cell cells.length start k]? = some (some x)

variable {cap start k j : Nat} {cells : List (Option α)} {l l' : List α} {x : α} {y : Option α}

theorem cell_lt (hstart : start < cap) (hk : k ≤ cap) : cell cap start k < cap := by
  unfold cell
  split <;> omega

theorem cell_zero (hstart : start < cap) : cell cap start 0 = start := if_pos hstart

theorem cell_cap : cell cap start cap = start := by
  unfold cell
  split <;> omega

theorem advance_lt (hstart : start < cap) : advance cap start < cap := by
  unfold advance
  split <;> omega

theorem retreat_lt (hstart : start < cap) : retreat cap start < cap := by
  unfold retreat
  split <;> omega

theorem advance_retreat (hstart : start < cap) : advance cap (retreat cap start) = start := by
  unfold advance retreat
  split <;> split <;> omega

theorem retreat_advance : retreat cap (advance cap start) = start := by
  unfold advance retreat
  split <;> split <;> omega

theorem advance_cell (hstart : start < cap) (hk : k < cap) : advance cap (cell cap start k) = cell cap start (k + 1) := by
  unfold advance cell
  split <;> split <;> split <;> omega

theorem retreat_cell (hstart : start < cap) (hk : k < cap) : retreat cap (cell cap start (k + 1)) = cell cap start k := by
  unfold retreat cell
  split <;> split <;> split <;> omega

theorem cell_advance (hk : k < cap) : cell cap (advance cap start) k = cell cap start (k + 1) := by
  unfold advance cell
  split <;> split <;> split <;> omega

theorem cell_inj (hj : j < cap) (hk : k < cap) (h : cell cap start j = cell cap start k) : j = k := by
  unfold cell at h
  split at h <;> split at h <;> omega

theorem Row.set_other (h : Row cells start l) (hl : l.length ≤ k) (hk : k < cells.length) :
    Row (cells.set (cell cells.length start k) y) start l := by
  intro j x hx
  have hj := (List.getElem?_eq_some_iff.mp hx).1
  rw [List.length_set, List.getElem?_set_ne]
  · exact h j x hx
  · intro heq
    have := cell_inj hk (by omega) heq
    omega

theorem Row.push (h : Row cells start l) (hstart : start < cells.length) (hl : l.length < cells.length) :
    Row (cells.set (cell cells.length start l.length) (some x)) start (l ++ [x]) := by
  intro j x' hx
  rcases Nat.lt_or_ge j l.length with hj | hj
  · rw [List.getElem?_append_left hj] at hx
    exact h.set_other (Nat.le_refl _) hl j x' hx
  · rw [List.getElem?_append_right hj] at hx
    obtain ⟨hj', hx⟩ := List.getElem?_eq_some_iff.mp hx
    obtain rfl : j = l.length := by
      rw [List.length_singleton] at hj'
      omega
    rw [List.length_set, List.getElem?_set_self (cell_lt hstart (Nat.le_of_lt hl)), ← hx, List.getElem_singleton]

theorem Row.set (h : Row cells start l) (hstart : start < cells.length) (hk : k < l.length) (hl : l.length ≤ cells.length) :
    Row (cells.set (cell cells.length start k) (some x)) start (l.set k x) := by
  intro j x' hx
  have hj := (List.getElem?_eq_some_iff.mp hx).1
  rw [List.length_set] at hj
  rw [List.length_set]
  by_cases heq : j = k
  · subst heq
    rw [List.getElem?_set_self hj] at hx
    rw [List.getElem?_set_self (cell_lt hstart (by omega)), hx]
  · rw [List.getElem?_set_ne (fun h => heq h.symm)] at hx
    rw [List.getElem?_set_ne (fun hcell => heq (cell_inj (by omega) (by omega) hcell).symm)]
    exact h j x' hx

theorem Row.tail (h : Row cells start l) (hl : l.length ≤ cells.length) : Row cells (advance cells.length start) l.tail := by
  intro k x hx
  rw [List.getElem?_tail] at hx
  have hk := (List.getElem?_eq_some_iff.mp hx).1
  rw [cell_advance (by omega)]
  exact h (k + 1) x hx

theorem Row.cons (h : Row cells (advance cells.length start) l) (hstart : start < cells.length) (hl : l.length < cells.length) :
    Row (cells.set start (some x)) start (x :: l) := by
  intro k x' hx
  rw [List.length_set]
  rcases k with _ | k
  · rw [cell_zero hstart, List.getElem?_set_self hstart]
    rw [List.getElem?_cons_zero] at hx
    rw [hx]
  · rw [List.getElem?_cons_succ] at hx
    have hk := (List.getElem?_eq_some_iff.mp hx).1
    rw [← cell_advance (by omega), List.getElem?_set_ne]
    · exact h k x' hx
    · rw [cell_advance (by omega)]
      nth_rewrite 1 [← cell_zero hstart]
      intro heq
      have := cell_inj (by omega) (by omega) heq
      omega

theorem Row.left (h : Row cells start l) (hl : l' <+: l) : Row cells start l' := by
  intro k x hx
  have hk := (List.getElem?_eq_some_iff.mp hx).1
  obtain ⟨rest, rfl⟩ := hl
  exact h k x (by rw [List.getElem?_append_left hk]; exact hx)

end PythonUltra.Lib.Ring
