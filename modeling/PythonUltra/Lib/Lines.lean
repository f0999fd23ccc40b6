/-
  PythonUltra.Lib.Lines — a text kept as its lines, and the flat text it stands for.

  `unlines` joins the lines, `offset` turns a row and a column into a place of the joined
  text, and `Flat` is a text with a place in it. One fact carries the rest: where the last
  line of one text meets the first line of another the two become one line
  (`unlines_merge`). So lines given around a place, `A ++ (x ++ y) :: B` at row `A.length`
  and column `x.length`, are the flat text `unlines (A ++ [x]) ++ unlines (y :: B)` with
  its place at the seam (`flatten_seam`), and what an edit does to the lines is read off
  there.
-/

import Mathlib.Data.List.Basic
import Mathlib.Algebra.GroupWithZero.Nat

namespace PythonUltra.Lib

variable {α : Type}

/-- The lines, joined by the separator. -/
def unlines (sep : α) (ls : List (List α)) : List α := [sep].intercalate ls

/-- The place of a row and a column in the joined text. -/
def offset (ls : List (List α)) (row col : Nat) : Nat := ((ls.take row).map fun l => l.length + 1).sum + col

variable {sep : α}

@[simp] theorem unlines_singleton (x : List α) : unlines sep [x] = x := by
  simp [unlines, List.intercalate]

theorem unlines_cons (x : List α) {ls : List (List α)} (h : ls ≠ []) :
    unlines sep (x :: ls) = x ++ sep :: unlines sep ls := by
  cases ls with
  | nil => exact absurd rfl h
  | cons y ls => simp [unlines, List.intercalate]

theorem unlines_head (x y : List α) (B : List (List α)) : unlines sep ((x ++ y) :: B) = x ++ unlines sep (y :: B) := by
  cases B with
  | nil => simp
  | cons b B => rw [unlines_cons _ (List.cons_ne_nil _ _), unlines_cons _ (List.cons_ne_nil _ _), List.append_assoc]

theorem unlines_merge (A : List (List α)) (x y : List α) (B : List (List α)) :
    unlines sep (A ++ (x ++ y) :: B) = unlines sep (A ++ [x]) ++ unlines sep (y :: B) := by
  induction A with
  | nil => rw [List.nil_append, List.nil_append, unlines_singleton, unlines_head]
  | cons a A ih =>
    rw [List.cons_append, List.cons_append, unlines_cons _ (by simp), unlines_cons _ (by simp), ih]
    simp

theorem unlines_append {A B : List (List α)} (hA : A ≠ []) (hB : B ≠ []) :
    unlines sep (A ++ B) = unlines sep A ++ sep :: unlines sep B := by
  induction A with
  | nil => exact absurd rfl hA
  | cons a A ih =>
    by_cases hn : A = []
    · rw [hn, List.singleton_append, unlines_cons _ hB, unlines_singleton]
    · rw [List.cons_append, unlines_cons _ (by simp [hn]), unlines_cons _ hn, ih hn]
      simp

theorem length_unlines_seam (A : List (List α)) (x : List α) :
    (unlines sep (A ++ [x])).length = (A.map fun l => l.length + 1).sum + x.length := by
  induction A with
  | nil => simp
  | cons a A ih =>
    rw [List.cons_append, unlines_cons _ (by simp), List.length_append, List.length_cons, ih, List.map_cons,
      List.sum_cons]
    omega

theorem count_unlines [DecidableEq α] {ls : List (List α)} (hne : ls ≠ []) (h : ∀ l ∈ ls, sep ∉ l) :
    (unlines sep ls).count sep + 1 = ls.length := by
  induction ls with
  | nil => exact absurd rfl hne
  | cons l ls ih =>
    have hl : l.count sep = 0 := List.count_eq_zero.mpr (h l List.mem_cons_self)
    by_cases hn : ls = []
    · rw [hn, unlines_singleton, hl]; rfl
    · rw [unlines_cons _ hn, List.count_append, List.count_cons_self, hl, List.length_cons,
        ← ih hn fun m hm => h m (List.mem_cons_of_mem _ hm)]
      omega

theorem mem_unlines {c : α} {ls : List (List α)} (hc : c ≠ sep) (h : ∀ l ∈ ls, c ∉ l) : c ∉ unlines sep ls := by
  induction ls with
  | nil => simp [unlines, List.intercalate]
  | cons l ls ih =>
    by_cases hn : ls = []
    · rw [hn, unlines_singleton]; exact h l List.mem_cons_self
    · rw [unlines_cons _ hn, List.mem_append, List.mem_cons]
      rintro (hm | hm | hm)
      · exact h l List.mem_cons_self hm
      · exact hc hm
      · exact ih (fun m hm => h m (List.mem_cons_of_mem _ hm)) hm

/-! ## The flat text -/

/-- A text and a place in it. -/
@[ext] structure Flat (α : Type) where
  text : List α
  off : Nat
  le : off ≤ text.length

namespace Flat

/-- The text with `s` put in at the place, and the place after it. -/
def insert (f : Flat α) (s : List α) : Flat α where
  text := f.text.take f.off ++ s ++ f.text.drop f.off
  off := f.off + s.length
  le := by
    have := f.le
    simp only [List.length_append, List.length_take, List.length_drop]
    omega

/-- The text without the character before the place, if there is one. -/
def backspace (f : Flat α) : Flat α where
  text := f.text.take (f.off - 1) ++ f.text.drop f.off
  off := f.off - 1
  le := by
    have := f.le
    simp only [List.length_append, List.length_take, List.length_drop]
    omega

/-- A text given on both sides of its place. -/
def seam (p q : List α) : Flat α := ⟨p ++ q, p.length, by simp⟩

@[simp] theorem seam_text (p q : List α) : (seam p q).text = p ++ q := rfl

@[simp] theorem seam_off (p q : List α) : (seam p q).off = p.length := rfl

theorem insert_seam (p q s : List α) : (seam p q).insert s = seam (p ++ s) q := by
  ext1
  · simp [insert]
  · simp [insert]

theorem backspace_seam (p q : List α) (c : α) : (seam (p ++ [c]) q).backspace = seam p q := by
  ext1
  · simp [backspace]
  · simp [backspace]

theorem backspace_of_off {f : Flat α} (h : f.off = 0) : f.backspace = f := by
  ext1
  · simp [backspace, h]
  · simp [backspace, h]

theorem insert_nil (f : Flat α) : f.insert [] = f := by
  ext1
  · simp [insert]
  · simp [insert]

end Flat

/-! ## Places -/

/-- A row of the lines, and a column from the start of that line to its end. -/
def Place (ls : List (List α)) (row col : Nat) : Prop := ∃ l, ls[row]? = some l ∧ col ≤ l.length

section

variable {ls : List (List α)} {row col : Nat}

theorem Place.around (h : Place ls row col) :
    ∃ A x y B, ls = A ++ (x ++ y) :: B ∧ A.length = row ∧ x.length = col := by
  obtain ⟨l, hl, hcol⟩ := h
  obtain ⟨hrow, rfl⟩ := List.getElem?_eq_some_iff.mp hl
  refine ⟨ls.take row, ls[row].take col, ls[row].drop col, ls.drop (row + 1), ?_,
    List.length_take_of_le (Nat.le_of_lt hrow), List.length_take_of_le hcol⟩
  rw [List.take_append_drop, ← List.drop_eq_getElem_cons hrow, List.take_append_drop]

theorem place_seam (A : List (List α)) (x y : List α) (B : List (List α)) :
    Place (A ++ (x ++ y) :: B) A.length x.length := ⟨x ++ y, by simp, by simp⟩

theorem Place.row_lt (h : Place ls row col) : row < ls.length := by
  obtain ⟨l, hl, -⟩ := h
  exact (List.getElem?_eq_some_iff.mp hl).1

theorem offset_seam (A : List (List α)) (x y : List α) (B : List (List α)) :
    offset (A ++ (x ++ y) :: B) A.length x.length = (unlines sep (A ++ [x])).length := by
  rw [length_unlines_seam, offset, List.take_left]

theorem Place.offset_le (h : Place ls row col) : offset ls row col ≤ (unlines sep ls).length := by
  obtain ⟨A, x, y, B, rfl, rfl, rfl⟩ := h.around
  rw [@offset_seam α sep, unlines_merge, List.length_append]
  omega

end

/-- Lines and a place in them, as a flat text. -/
def flatten (sep : α) (ls : List (List α)) (row col : Nat) (h : Place ls row col) : Flat α :=
  ⟨unlines sep ls, offset ls row col, h.offset_le⟩

theorem flatten_seam (A : List (List α)) (x y : List α) (B : List (List α)) :
    flatten sep (A ++ (x ++ y) :: B) A.length x.length (place_seam A x y B) =
      Flat.seam (unlines sep (A ++ [x])) (unlines sep (y :: B)) := by
  ext1
  · exact unlines_merge A x y B
  · exact offset_seam A x y B

end PythonUltra.Lib
