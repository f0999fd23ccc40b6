/-
  PythonUltra.Py.GcTable — what the edits of an allocation table do, block by block, and
  the chains of blocks.

  `Area.Chain a block n`: the allocation that starts at `block` has `n` blocks. The loops of
  gc.c find this number by reading the table (`chain_spec`); it is unique.
-/

import PythonUltra.Py.Gc

namespace PythonUltra.Py.Gc

/-! ## Two bits of a byte -/

def lane (x : Byte) (s : Nat) : Byte := (x >>> s) &&& 3

theorem lane_and (x m : Byte) (s : Nat) : lane (x &&& m) s = lane x s &&& lane m s := by
  simp only [lane, BitVec.ushiftRight_and_distrib]
  ac_rfl

theorem lane_or (x m : Byte) (s : Nat) : lane (x ||| m) s = lane x s ||| lane m s := by
  simp only [lane, BitVec.ushiftRight_or_distrib, BitVec.and_comm _ 3, BitVec.and_or_distrib_left]

theorem lane_cases (x : Byte) (s : Nat) : lane x s = 0 ∨ lane x s = 1 ∨ lane x s = 2 ∨ lane x s = 3 := by
  have hall : ∀ v : Byte, v &&& 3 = 0 ∨ v &&& 3 = 1 ∨ v &&& 3 = 2 ∨ v &&& 3 = 3 := by decide
  exact hall (x >>> s)

theorem lane_clear (x : Byte) (i j : Fin 4) :
    lane (x &&& ~~~((3 : Byte) <<< (2 * i.val))) (2 * j.val) = (if i = j then 0 else lane x (2 * j.val)) ∧
    lane (x &&& ~~~((2 : Byte) <<< (2 * i.val))) (2 * j.val) = (if i = j then lane x (2 * j.val) &&& 1 else lane x (2 * j.val)) := by
  have hmask : ∀ i j : Fin 4, lane (~~~((3 : Byte) <<< (2 * i.val))) (2 * j.val) = (if i = j then 0 else 3) ∧
      lane (~~~((2 : Byte) <<< (2 * i.val))) (2 * j.val) = if i = j then 1 else 3 := by decide
  rw [lane_and, lane_and, (hmask i j).1, (hmask i j).2]
  rcases lane_cases x (2 * j.val) with h | h | h | h <;> rw [h] <;> split <;> decide

theorem lane_set (x : Byte) (i j : Fin 4) {k : Byte} (hk : k = 1 ∨ k = 2 ∨ k = 3) :
    lane (x ||| k <<< (2 * i.val)) (2 * j.val) = (if i = j then lane x (2 * j.val) ||| k else lane x (2 * j.val)) := by
  have hmask : ∀ i j : Fin 4, lane ((1 : Byte) <<< (2 * i.val)) (2 * j.val) = (if i = j then 1 else 0) ∧
      lane ((2 : Byte) <<< (2 * i.val)) (2 * j.val) = (if i = j then 2 else 0) ∧
      lane ((3 : Byte) <<< (2 * i.val)) (2 * j.val) = if i = j then 3 else 0 := by decide
  have hlane : lane (k <<< (2 * i.val)) (2 * j.val) = if i = j then k else 0 := by
    rcases hk with rfl | rfl | rfl
    · exact (hmask i j).1
    · exact (hmask i j).2.1
    · exact (hmask i j).2.2
  rw [lane_or, hlane]
  split
  · rfl
  · exact BitVec.or_zero

theorem kindOf_lane (x : Byte) (j : Fin 4) :
    (kindOf (lane x (2 * j.val)) = .free → kindOf (lane x (2 * j.val) ||| 1) = .head ∧ kindOf (lane x (2 * j.val) ||| 2) = .tail) ∧
    (kindOf (lane x (2 * j.val)) = .head → kindOf (lane x (2 * j.val) ||| 3) = .mark) ∧
    (kindOf (lane x (2 * j.val)) = .mark → kindOf (lane x (2 * j.val) &&& 1) = .head) := by
  rcases lane_cases x (2 * j.val) with h | h | h | h <;> rw [h] <;> decide

/-- The number of a block's lane. -/
def laneOf (block : Nat) : Fin 4 := ⟨block % 4, Nat.mod_lt _ (by decide)⟩

theorem blockShift_eq (block : Nat) : blockShift block = 2 * (laneOf block).val := by
  rw [blockShift, laneOf, show (3 : Nat) = 2 ^ 2 - 1 from rfl, Nat.and_two_pow_sub_one_eq_mod]

namespace Area

variable {a a' : Area} {b block n : Nat}

theorem getKind_eq : a.getKind b = kindOf (lane (a.allocTable (b / 4)) (2 * (laneOf b).val)) := by
  rw [getKind, blockShift_eq]
  rfl

/-- An edit of one block's bits. -/
theorem getKind_edit {f : Byte → Byte} {g : Byte → Byte}
    (hf : ∀ x j, lane (f x) (2 * j.val) = if laneOf block = j then g (lane x (2 * j.val)) else lane x (2 * j.val)) :
    (a.edit block f).getKind b = if b = block then kindOf (g (lane (a.allocTable (b / 4)) (2 * (laneOf b).val))) else a.getKind b := by
  rw [getKind_eq, getKind_eq, edit]
  show kindOf (lane (Function.update a.allocTable (block / 4) (f (a.allocTable (block / 4))) (b / 4)) (2 * (laneOf b).val)) = _
  by_cases hbyte : b / 4 = block / 4
  · rw [hbyte, Function.update_self, hf]
    by_cases hsame : b = block
    · rw [if_pos hsame, hsame, if_pos rfl]
    · have hlane : laneOf block ≠ laneOf b := by
        intro e
        have hmod : block % 4 = b % 4 := Fin.mk.inj e
        omega
      rw [if_neg hsame, if_neg hlane]
  · have hne : b ≠ block := fun e => hbyte (e ▸ rfl)
    rw [Function.update_of_ne hbyte, if_neg hne]

@[simp] theorem getKind_anyToFree : (a.anyToFree block).getKind b = if b = block then .free else a.getKind b := by
  rw [anyToFree, blockShift_eq, getKind_edit (g := fun _ => 0) fun x j => (lane_clear x _ j).1]
  rfl

theorem getKind_freeToHead (h : a.getKind block = .free) : (a.freeToHead block).getKind b = if b = block then .head else a.getKind b := by
  rw [freeToHead, blockShift_eq, getKind_edit (g := (· ||| 1)) fun x j => lane_set x _ j (.inl rfl)]
  by_cases hb : b = block
  · rw [getKind_eq] at h
    rw [if_pos hb, if_pos hb, hb]
    exact ((kindOf_lane _ _).1 h).1
  · rw [if_neg hb, if_neg hb]

theorem getKind_freeToTail (h : a.getKind block = .free) : (a.freeToTail block).getKind b = if b = block then .tail else a.getKind b := by
  rw [freeToTail, blockShift_eq, getKind_edit (g := (· ||| 2)) fun x j => lane_set x _ j (.inr (.inl rfl))]
  by_cases hb : b = block
  · rw [getKind_eq] at h
    rw [if_pos hb, if_pos hb, hb]
    exact ((kindOf_lane _ _).1 h).2
  · rw [if_neg hb, if_neg hb]

theorem getKind_headToMark (h : a.getKind block = .head) : (a.headToMark block).getKind b = if b = block then .mark else a.getKind b := by
  rw [headToMark, blockShift_eq, getKind_edit (g := (· ||| 3)) fun x j => lane_set x _ j (.inr (.inr rfl))]
  by_cases hb : b = block
  · rw [getKind_eq] at h
    rw [if_pos hb, if_pos hb, hb]
    exact (kindOf_lane _ _).2.1 h
  · rw [if_neg hb, if_neg hb]

theorem getKind_markToHead (h : a.getKind block = .mark) : (a.markToHead block).getKind b = if b = block then .head else a.getKind b := by
  rw [markToHead, blockShift_eq, getKind_edit (g := (· &&& 1)) fun x j => (lane_clear x _ j).2]
  by_cases hb : b = block
  · rw [getKind_eq] at h
    rw [if_pos hb, if_pos hb, hb]
    exact (kindOf_lane _ _).2.2 h
  · rw [if_neg hb, if_neg hb]

/-! ## The other fields -/

/-- The same area, but for its table and what is kept about it. -/
structure Same (a a' : Area) : Prop where
  len : a'.allocTableByteLen = a.allocTableByteLen
  poolStart : a'.poolStart = a.poolStart
  poolEnd : a'.poolEnd = a.poolEnd

theorem Same.refl : Same a a := ⟨rfl, rfl, rfl⟩

theorem Same.trans {a'' : Area} (h1 : Same a a') (h2 : Same a' a'') : Same a a'' :=
  ⟨h2.len.trans h1.len, h2.poolStart.trans h1.poolStart, h2.poolEnd.trans h1.poolEnd⟩

theorem Same.numBlocks (h : Same a a') : a'.numBlocks = a.numBlocks := by rw [Area.numBlocks, Area.numBlocks, h.len]

theorem edit_same {f : Byte → Byte} : Same a (a.edit block f) := ⟨rfl, rfl, rfl⟩

theorem getKind_congr (h : a'.allocTable = a.allocTable) : a'.getKind b = a.getKind b := by rw [getKind, getKind, h]

/-! ## Chains -/

/-- An allocation of `n` blocks. -/
structure Chain (a : Area) (block n : Nat) : Prop where
  pos : 0 < n
  tail : ∀ b, block < b → b < block + n → a.getKind b = .tail
  stop : a.getKind (block + n) ≠ .tail

theorem Chain.unique {m : Nat} (h : a.Chain block n) (h' : a.Chain block m) : n = m := by
  rcases Nat.lt_trichotomy n m with hlt | rfl | hlt
  · exact absurd (h'.tail (block + n) (by have := h.pos; omega) (by omega)) h.stop
  · rfl
  · exact absurd (h.tail (block + m) (by have := h'.pos; omega) (by omega)) h'.stop

theorem tails_spec {fuel : Nat} (hstop : ∃ b, block ≤ b ∧ b < block + fuel ∧ a.getKind b ≠ .tail) :
    (∀ b, block ≤ b → b < block + a.tails fuel block → a.getKind b = .tail) ∧ a.getKind (block + a.tails fuel block) ≠ .tail ∧
      a.tails fuel block < fuel := by
  induction fuel generalizing block with
  | zero =>
    obtain ⟨b, h1, h2, -⟩ := hstop
    omega
  | succ fuel ih =>
    rw [tails]
    by_cases htail : a.getKind block = .tail
    · rw [if_pos htail]
      have hstop' : ∃ b, block + 1 ≤ b ∧ b < block + 1 + fuel ∧ a.getKind b ≠ .tail := by
        obtain ⟨b, h1, h2, h3⟩ := hstop
        have hne : b ≠ block := fun e => h3 (e ▸ htail)
        exact ⟨b, by omega, by omega, h3⟩
      obtain ⟨hall, hend, hlt⟩ := ih hstop'
      refine ⟨fun b h1 h2 => ?_, ?_, by omega⟩
      · by_cases hb : b = block
        · rw [hb]
          exact htail
        · exact hall b (by omega) (by omega)
      · rw [show block + (a.tails fuel (block + 1) + 1) = block + 1 + a.tails fuel (block + 1) by omega]
        exact hend
    · rw [if_neg htail]
      exact ⟨fun b h1 h2 => by omega, htail, Nat.succ_pos _⟩

theorem chain_spec (hgap : a.getKind a.numBlocks = .free) (hb : block < a.numBlocks) :
    a.Chain block (a.chain block) ∧ block + a.chain block ≤ a.numBlocks := by
  have hstop : ∃ b, block + 1 ≤ b ∧ b < block + 1 + (a.numBlocks - block) ∧ a.getKind b ≠ .tail :=
    ⟨a.numBlocks, by omega, by omega, by rw [hgap]; decide⟩
  obtain ⟨hall, hend, hlt⟩ := tails_spec hstop
  refine ⟨⟨Nat.succ_pos _, fun b h1 h2 => hall b (by omega) ?_, ?_⟩, ?_⟩
  · rw [chain] at h2
    omega
  · rw [chain, show block + (a.tails (a.numBlocks - block) (block + 1) + 1) = block + 1 + a.tails (a.numBlocks - block) (block + 1) by omega]
    exact hend
  · rw [chain]
    omega

theorem chain_eq (hgap : a.getKind a.numBlocks = .free) (hb : block < a.numBlocks) (h : a.Chain block n) : a.chain block = n :=
  (chain_spec hgap hb).1.unique h

theorem Chain.congr (h : a.Chain block n) (hk : ∀ b, block < b → b ≤ block + n → (a'.getKind b = .tail ↔ a.getKind b = .tail)) :
    a'.Chain block n := by
  have hpos := h.pos
  exact ⟨h.pos, fun b h1 h2 => (hk b h1 (by omega)).mpr (h.tail b h1 h2), mt (hk _ (by omega) (Nat.le_refl _)).mp h.stop⟩

end Area

end PythonUltra.Py.Gc
