/-
  PythonUltra.Lib.Splice — reads, writes and moves in a block of memory.

  A block is a list of cells, and an access that is not inside of it is `none`. A block
  that is put together of stretches is read and written by the stretch (`readAt_mid`,
  `writeAt_mid`); the two moves of a splice open a gap behind a stretch (`move_open`) and
  close one (`move_close`).
-/

import PythonUltra.Lib.Slots

open PythonUltra.Lib.Slots

namespace PythonUltra.Lib.Splice

variable {β : Type}

/-- `n` cells from `pos` on. None are read anywhere. -/
def readAt (block : List β) (pos n : Nat) : Option (List β) :=
  if n = 0 ∨ pos + n ≤ block.length then some (slice block pos n) else none

def writeAt (block : List β) (pos : Nat) (cells : List β) : Option (List β) :=
  if cells.length = 0 ∨ pos + cells.length ≤ block.length then some (put block pos cells) else none

/-- `n` cells from `src` on, to `dst`; the two may overlap. -/
def move (block : List β) (dst src n : Nat) : Option (List β) := do
  let cells ← readAt block src n
  writeAt block dst cells

/-- `a - b` as a size. Below 0 it is a size that no block has. -/
def sizeDiff (a b : Nat) : Option Nat := if b ≤ a then some (a - b) else none

/-- The cells from `start` to `stop` are all `z`. -/
def wipe (z : β) (block : List β) (start stop : Nat) : Option (List β) := do
  let n ← sizeDiff stop start
  writeAt block start (List.replicate n z)

/-- The block with `n` cells: its own, and ones that nothing is known of. -/
def resize (unknown : β) (block : List β) (n : Nat) : List β := block.take n ++ List.replicate (n - block.length) unknown

variable {a b b' c rest : List β} {pos n : Nat}

theorem readAt_of_le (h : pos + n ≤ a.length) : readAt a pos n = some (slice a pos n) := if_pos (.inr h)

theorem writeAt_of_le (h : pos + b.length ≤ a.length) : writeAt a pos b = some (put a pos b) := if_pos (.inr h)

@[simp] theorem sizeDiff_of_le {x y : Nat} (h : y ≤ x) : sizeDiff x y = some (x - y) := if_pos h

theorem readAt_mid (hpos : pos = a.length) (hn : n = b.length) : readAt (a ++ b ++ c) pos n = some b := by
  subst hpos hn
  rw [readAt_of_le (by simp), slice, List.append_assoc, List.drop_left, List.take_left]

theorem writeAt_mid (hpos : pos = a.length) (hlen : b'.length = b.length) : writeAt (a ++ b ++ c) pos b' = some (a ++ b' ++ c) := by
  subst hpos
  rw [writeAt_of_le (by simp [hlen]), put, hlen, ← List.length_append, List.drop_left, List.append_assoc a b c, List.take_left]

theorem readAt_front (hn : n ≤ a.length) : readAt (a ++ b) 0 n = some (a.take n) := by
  rw [readAt_of_le (by rw [List.length_append]; omega), slice, List.drop_zero, List.take_append_of_le_length hn]

theorem wipe_mid {z : β} {stop : Nat} (hpos : pos = a.length) (hstop : stop = a.length + b.length) :
    wipe z (a ++ b ++ c) pos stop = some (a ++ List.replicate b.length z ++ c) := by
  subst hpos hstop
  rw [wipe, sizeDiff_of_le (Nat.le_add_right _ _), Nat.add_sub_cancel_left]
  exact writeAt_mid rfl (List.length_replicate ..)

/-- No cells, also where the block does not reach. -/
@[simp] theorem wipe_self {z : β} : wipe z a n n = some a := by
  have h : writeAt a n (List.replicate 0 z) = some (put a n []) := if_pos (.inl rfl)
  rw [wipe, sizeDiff_of_le (Nat.le_refl n), Nat.sub_self]
  rw [put_nil] at h
  exact h

theorem wipe_tail {z : β} {stop : Nat} (hpos : a.length ≤ pos) (hle : pos ≤ stop) (hstop : stop = a.length + rest.length) :
    ∃ rest', rest'.length = rest.length ∧ wipe z (a ++ rest) pos stop = some (a ++ rest') := by
  refine ⟨rest.take (pos - a.length) ++ List.replicate (rest.drop (pos - a.length)).length z, ?_, ?_⟩
  · simp only [List.length_append, List.length_take, List.length_replicate, List.length_drop]
    omega
  · have hfront : pos = (a ++ rest.take (pos - a.length)).length := by
      rw [List.length_append, List.length_take]
      omega
    have h := @wipe_mid β (a ++ rest.take (pos - a.length)) (rest.drop (pos - a.length)) [] pos z stop hfront (by
      rw [← hfront, List.length_drop]
      omega)
    simpa using h

theorem resize_append {z : β} (hn : a.length ≤ n) : ∃ rest', resize z (a ++ rest) n = a ++ rest' ∧ a.length + rest'.length = n := by
  refine ⟨rest.take (n - a.length) ++ List.replicate (n - (a ++ rest).length) z, ?_, ?_⟩
  · rw [resize, List.take_append, List.take_of_length_le hn, List.append_assoc]
  · rw [List.length_append, List.length_take, List.length_replicate, List.length_append]
    omega

theorem split_part {l : List β} {start stop : Nat} (hle : start ≤ stop) (hstop : stop ≤ l.length) :
    ∃ a b c, l = a ++ b ++ c ∧ start = a.length ∧ stop = a.length + b.length := by
  refine ⟨l.take start, (l.drop start).take (stop - start), l.drop stop, ?_, ?_, ?_⟩
  · have hdrop : l.drop stop = (l.drop start).drop (stop - start) := by
      rw [List.drop_drop]
      congr 1
      omega
    rw [hdrop, List.append_assoc, List.take_append_drop, List.take_append_drop]
  · rw [List.length_take]
    omega
  · rw [List.length_take, List.length_take, List.length_drop]
    omega

/-- `c` moves up, so that `n` cells are between `a` and it. -/
theorem move_open (hn : b.length ≤ n) (hrest : n ≤ b.length + rest.length) :
    move (a ++ b ++ c ++ rest) (a.length + n) (a.length + b.length) c.length =
      some ((a ++ b ++ c ++ rest).take (a.length + n) ++ c ++ rest.drop (n - b.length)) := by
  rw [move, readAt_mid (by simp) rfl]
  obtain ⟨block, hblock⟩ : ∃ block, block = a ++ b ++ c ++ rest := ⟨_, rfl⟩
  have hlength : block.length = a.length + b.length + c.length + rest.length := by
    rw [hblock]
    simp only [List.length_append]
  have hfront : (block.take (a.length + n)).length = a.length + n := by
    rw [List.length_take]
    omega
  have hbehind : (block.drop (a.length + n)).drop c.length = rest.drop (n - b.length) := by
    rw [List.drop_drop, hblock, show a.length + n + c.length = (a ++ b ++ c).length + (n - b.length) by simp only [List.length_append]; omega,
      List.drop_length_add_append]
  have hmid : c.length = ((block.drop (a.length + n)).take c.length).length := by
    rw [List.length_take, List.length_drop]
    omega
  have hsplit : block = block.take (a.length + n) ++ (block.drop (a.length + n)).take c.length ++ rest.drop (n - b.length) := by
    rw [← hbehind, List.append_assoc, List.take_append_drop, List.take_append_drop]
  rw [← hblock]
  conv_lhs => rw [hsplit]
  exact writeAt_mid hfront.symm hmid

/-- `c` moves down to right after `a`. -/
theorem move_close : move (a ++ b ++ c ++ rest) a.length (a.length + b.length) c.length = some (a ++ c ++ (b ++ c).drop c.length ++ rest) := by
  rw [move, readAt_mid (by simp) rfl]
  have hmid : c.length = ((b ++ c).take c.length).length := by
    rw [List.length_take, List.length_append]
    omega
  have hsplit : a ++ b ++ c ++ rest = a ++ (b ++ c).take c.length ++ ((b ++ c).drop c.length ++ rest) := by
    rw [List.append_assoc a b c, ← List.append_assoc _ _ rest, List.append_assoc a (List.take _ _), List.take_append_drop]
  rw [hsplit, List.append_assoc (a ++ c)]
  exact writeAt_mid rfl hmid

/-- `c` moves up, and `s` is written into the gap. -/
theorem move_write {s : List β} (hrest : s.length ≤ rest.length) :
    (do
      let raw ← move (a ++ c ++ rest) (a.length + s.length) a.length c.length
      writeAt raw a.length s) = some (a ++ s ++ c ++ rest.drop s.length) := by
  have hopen := @move_open β a [] c rest s.length (Nat.zero_le _) (by simpa using hrest)
  rw [List.append_nil, List.length_nil, Nat.add_zero, Nat.sub_zero] at hopen
  rw [hopen, Option.bind_eq_bind, Option.bind_some]
  have hfront : (a ++ c ++ rest).take (a.length + s.length) = a ++ (c ++ rest).take s.length := by
    rw [List.append_assoc, List.take_length_add_append]
  rw [hfront, List.append_assoc _ _ (rest.drop s.length)]
  have hgap : s.length = ((c ++ rest).take s.length).length := by
    rw [List.length_take, List.length_append]
    omega
  rw [writeAt_mid rfl hgap, List.append_assoc (a ++ s)]

end PythonUltra.Lib.Splice
