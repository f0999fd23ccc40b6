/-
  PythonUltra.Lib.Slots — values side by side in a row of cells.

  `put` writes over part of a list. Slots are stacked when each begins where the one before
  it ends, or later. Written one after the other into a list that holds them all, they keep
  its length, each is read back (`slice_fill`), and what lies in none of them stays
  (`fill_outside`).
-/

import Mathlib.Data.List.Basic

namespace PythonUltra.Lib.Slots

variable {α : Type} {l : List α} {off n i : Nat} {xs : List α}

/-- `l` with `xs` from position `off` on. -/
def put (l : List α) (off : Nat) (xs : List α) : List α := l.take off ++ xs ++ l.drop (off + xs.length)

/-- `n` values of `l` from position `off` on. -/
def slice (l : List α) (off n : Nat) : List α := (l.drop off).take n

@[simp] theorem put_nil (l : List α) (off : Nat) : put l off [] = l := by simp [put]

theorem length_put (h : off + xs.length ≤ l.length) : (put l off xs).length = l.length := by
  simp only [put, List.length_append, List.length_take, List.length_drop]
  omega

theorem length_slice (h : off + n ≤ l.length) : (slice l off n).length = n := by
  simp only [slice, List.length_take, List.length_drop]
  omega

theorem getElem?_slice (l : List α) (off n i : Nat) : (slice l off n)[i]? = if i < n then l[off + i]? else none := by
  rw [slice, List.getElem?_take]
  split
  · rw [List.getElem?_drop]
  · rfl

theorem getElem?_put (h : off ≤ l.length) : (put l off xs)[i]? = if off ≤ i ∧ i < off + xs.length then xs[i - off]? else l[i]? := by
  have htake : (l.take off).length = off := by
    rw [List.length_take]
    omega
  rw [put, List.append_assoc]
  by_cases h1 : i < off
  · rw [if_neg (by omega), List.getElem?_append_left (by omega), List.getElem?_take, if_pos h1]
  · rw [List.getElem?_append_right (by omega), htake]
    by_cases h2 : i < off + xs.length
    · rw [if_pos (by omega), List.getElem?_append_left (by omega)]
    · rw [if_neg (by omega), List.getElem?_append_right (by omega), List.getElem?_drop]
      congr 1
      omega

/-- Two writes, one behind the other, are one. -/
theorem put_put_append {ys : List α} (h : off + xs.length ≤ l.length) :
    put (put l off xs) (off + xs.length) ys = put l off (xs ++ ys) := by
  apply List.ext_getElem?
  intro i
  rw [getElem?_put (by rw [length_put h]; exact h), getElem?_put (by omega), getElem?_put (by omega), List.length_append]
  by_cases h1 : off + xs.length ≤ i ∧ i < off + xs.length + ys.length
  · rw [if_pos h1, if_pos (by omega), List.getElem?_append_right (by omega)]
    congr 1
    omega
  · rw [if_neg h1]
    by_cases h2 : off ≤ i ∧ i < off + xs.length
    · rw [if_pos h2, if_pos (by omega), List.getElem?_append_left (by omega)]
    · rw [if_neg h2, if_neg (by omega)]

theorem put_append (m : List α) (h : off + xs.length ≤ l.length) : put (l ++ m) off xs = put l off xs ++ m := by
  simp [put, List.take_append_of_le_length (show off ≤ l.length by omega), List.drop_append_of_le_length h]

structure Slot (α : Type) where
  off : Nat
  data : List α

namespace Slot

def stop (s : Slot α) : Nat := s.off + s.data.length

/-- Position `i` is in the slot. -/
def Covers (s : Slot α) (i : Nat) : Prop := s.off ≤ i ∧ i < s.stop

end Slot

variable {slots : List (Slot α)} {s : Slot α} {start stop : Nat}

/-- Slots between `start` and `stop`, none of which begins before the end of the one before it. -/
def Stacked : Nat → List (Slot α) → Nat → Prop
  | start, [], stop => start ≤ stop
  | start, s :: slots, stop => start ≤ s.off ∧ Stacked s.stop slots stop

def fill (l : List α) (slots : List (Slot α)) : List α := slots.foldl (fun l s => put l s.off s.data) l

theorem Stacked.le (h : Stacked start slots stop) : start ≤ stop := by
  induction slots generalizing start with
  | nil => exact h
  | cons s slots ih =>
    obtain ⟨h1, h2⟩ := h
    have hstop := ih h2
    rw [Slot.stop] at hstop
    omega

theorem Stacked.mem (h : Stacked start slots stop) (hs : s ∈ slots) : start ≤ s.off ∧ s.stop ≤ stop := by
  induction slots generalizing start with
  | nil => exact absurd hs List.not_mem_nil
  | cons t slots ih =>
    obtain ⟨h1, h2⟩ := h
    rcases List.mem_cons.mp hs with rfl | hs
    · exact ⟨h1, h2.le⟩
    · obtain ⟨h3, h4⟩ := ih h2 hs
      rw [Slot.stop] at h3
      exact ⟨by omega, h4⟩

theorem length_fill (h : Stacked start slots stop) (hl : stop ≤ l.length) : (fill l slots).length = l.length := by
  induction slots generalizing start l with
  | nil => rfl
  | cons s slots ih =>
    have hs : s.off + s.data.length ≤ l.length := Nat.le_trans h.2.le hl
    have hput := length_put hs
    exact (ih h.2 (by rw [hput]; exact hl)).trans hput

theorem fill_append (m : List α) (h : Stacked start slots stop) (hl : stop ≤ l.length) : fill (l ++ m) slots = fill l slots ++ m := by
  induction slots generalizing start l with
  | nil => rfl
  | cons s slots ih =>
    have hs : s.off + s.data.length ≤ l.length := Nat.le_trans h.2.le hl
    have hput := put_append m hs
    have hrest := ih h.2 (l := put l s.off s.data) (by rw [length_put hs]; exact hl)
    rw [← hput] at hrest
    exact hrest

theorem fill_outside (h : Stacked start slots stop) (hl : stop ≤ l.length) (hi : ∀ s ∈ slots, ¬ s.Covers i) :
    (fill l slots)[i]? = l[i]? := by
  induction slots generalizing start l with
  | nil => rfl
  | cons s slots ih =>
    have hs : s.off + s.data.length ≤ l.length := Nat.le_trans h.2.le hl
    have hstep := ih h.2 (by rw [length_put hs]; exact hl) fun t ht => hi t (List.mem_cons_of_mem _ ht)
    have hnot := hi s List.mem_cons_self
    rw [Slot.Covers, Slot.stop] at hnot
    exact hstep.trans ((getElem?_put (by omega)).trans (if_neg hnot))

theorem fill_inside (h : Stacked start slots stop) (hl : stop ≤ l.length) (hs : s ∈ slots) (hi : s.Covers i) :
    (fill l slots)[i]? = s.data[i - s.off]? := by
  induction slots generalizing start l with
  | nil => exact absurd hs List.not_mem_nil
  | cons t slots ih =>
    have ht : t.off + t.data.length ≤ l.length := Nat.le_trans h.2.le hl
    rcases List.mem_cons.mp hs with rfl | hs
    · -- the slots that follow lie behind this one
      have hrest := fill_outside h.2 (l := put l s.off s.data) (i := i) (by rw [length_put ht]; exact hl) fun t ht => by
        have hle := (h.2.mem ht).1
        simp only [Slot.Covers] at hi ⊢
        omega
      exact hrest.trans ((getElem?_put (by omega)).trans (if_pos hi))
    · exact ih h.2 (by rw [length_put ht]; exact hl) hs

theorem slice_fill (h : Stacked start slots stop) (hl : stop ≤ l.length) (hs : s ∈ slots) :
    slice (fill l slots) s.off s.data.length = s.data := by
  apply List.ext_getElem?
  intro i
  rw [getElem?_slice]
  split
  · rename_i hi
    rw [fill_inside h hl hs ⟨Nat.le_add_right _ _, Nat.add_lt_add_left hi _⟩, Nat.add_sub_cancel_left]
  · rename_i hi
    exact (List.getElem?_eq_none (by omega)).symm

end PythonUltra.Lib.Slots
