/-
  PythonUltra.Py.GcOps — what gc_alloc, gc_free and gc_realloc do to an area.

  Two kinds of edits: blocks that are free are filled (`Filled`: a new chain, or more tails
  for one that ends there), and the last blocks of a chain, or all of them, become free
  (`Cleared`). Both leave the area in order, and every other chain as it is.
-/

import PythonUltra.Lib.RunScan
import PythonUltra.Py.GcHeap

namespace PythonUltra.Py.Gc

open Lib.RunScan

namespace Area

variable {c : Config} {a a' : Area} {b block n s t : Nat}

/-! ## Chains of one area -/

theorem Ok.not_tail_after (h : a.Ok c) (hk : a.getKind b = .free) (hb : b + 1 ≤ a.numBlocks) : a.getKind (b + 1) ≠ .tail := by
  intro htail
  rcases Nat.lt_or_ge (b + 1) a.numBlocks with hlt | hge
  · obtain ⟨b', hb', hk'⟩ := h.tail (b + 1) hlt htail
    obtain rfl : b = b' := by omega
    rw [hk] at hk'
    exact absurd hk' (by decide)
  · rw [show b + 1 = a.numBlocks by omega, h.gap] at htail
    exact absurd htail (by decide)

theorem Chain.used (h : a.Chain block n) (hk : a.getKind block = .head) (h1 : block ≤ b) (h2 : b < block + n) :
    a.getKind b = .head ∨ a.getKind b = .tail := by
  by_cases hb : b = block
  · rw [hb]
    exact .inl hk
  · exact .inr (h.tail b (by omega) h2)

theorem Chain.inside (h : a.Chain block n) (hok : a.Ok c) (hb : block < a.numBlocks) : block + n ≤ a.numBlocks := by
  obtain ⟨hch, hle⟩ := chain_spec hok.gap hb
  rw [h.unique hch]
  exact hle

theorem Chain.disjoint {block' n' : Nat} (h : a.Chain block n) (h' : a.Chain block' n') (hk : a.getKind block = .head)
    (hk' : a.getKind block' = .head) (hne : block ≠ block') : block + n ≤ block' ∨ block' + n' ≤ block := by
  have key : ∀ {x y m : Nat}, a.Chain x m → a.getKind y = .head → x < y → x + m ≤ y := by
    intro x y m hx hy hlt
    by_contra hin
    have := hx.tail y hlt (by omega)
    rw [hy] at this
    exact absurd this (by decide)
  rcases Nat.lt_or_gt_of_ne hne with hlt | hlt
  · exact .inl (key h hk' hlt)
  · exact .inr (key h' hk hlt)

/-! ## Filling -/

/-- The blocks from `s` to `t`, which were free, are one of the kind `first` and tails. -/
structure Filled (a a' : Area) (first : Kind) (s t : Nat) : Prop where
  same : Same a a'
  kind : ∀ b, a'.getKind b = if s ≤ b ∧ b < t then (if b = s then first else .tail) else a.getKind b
  used : a'.lastUsedBlock = max a.lastUsedBlock (t - 1) ∨ a'.lastUsedBlock = max a.lastUsedBlock t

variable {first : Kind}

theorem Filled.use (h : Filled a a' first s t) (hfirst : first ≠ .free) (hb : a.getKind b ≠ .free) : a'.getKind b ≠ .free := by
  rw [h.kind]
  by_cases hin : s ≤ b ∧ b < t
  · rw [if_pos hin]
    by_cases hs : b = s
    · rw [if_pos hs]
      exact hfirst
    · rw [if_neg hs]
      decide
  · rw [if_neg hin]
    exact hb

theorem Filled.ok (h : Filled a a' first s t) (hok : a.Ok c) (ht : t ≤ a.numBlocks)
    (hfirst : first = .head ∨ first = .tail ∧ ∃ b, s = b + 1 ∧ (a.getKind b = .head ∨ a.getKind b = .tail))
    (hfree : ∀ b, s ≤ b → b < t → a.getKind b = .free) : a'.Ok c := by
  have hnum := h.same.numBlocks
  have hused := h.used
  have hlast := hok.last
  have hout : ∀ b, ¬ (s ≤ b ∧ b < t) → a'.getKind b = a.getKind b := fun b hb => by rw [h.kind, if_neg hb]
  -- a block before the filled ones that is in use stays what it is
  have hkeep : ∀ b, a.getKind b = .head ∨ a.getKind b = .tail → a'.getKind b = a.getKind b := by
    intro b hb
    refine hout b fun hin => ?_
    rw [hfree b hin.1 hin.2] at hb
    exact absurd hb (by decide)
  refine ⟨?_, fun b hb ht' => ?_, fun b hb hne => ?_, ?_, fun b hb hm => ?_, ?_, ?_⟩
  · rw [hnum, hout _ (by omega)]
    exact hok.gap
  · rw [hnum] at hb
    by_cases hin : s ≤ b ∧ b < t
    · by_cases hs : b = s
      · rw [h.kind, if_pos hin, if_pos hs] at ht'
        rcases hfirst with hf | ⟨-, b', hb', hk⟩
        · rw [ht'] at hf
          exact absurd hf (by decide)
        · exact ⟨b', hs.trans hb', by rw [hkeep b' hk]; exact hk⟩
      · have hin' : s ≤ b - 1 ∧ b - 1 < t := ⟨by omega, by omega⟩
        refine ⟨b - 1, by omega, ?_⟩
        rw [h.kind, if_pos hin']
        by_cases hs' : b - 1 = s
        · rw [if_pos hs']
          exact hfirst.imp id And.left
        · rw [if_neg hs']
          exact .inr rfl
    · rw [hout b hin] at ht'
      obtain ⟨b', hb', hk⟩ := hok.tail b hb ht'
      exact ⟨b', hb', by rw [hkeep b' hk]; exact hk⟩
  · rw [hnum] at hb
    by_cases hin : s ≤ b ∧ b < t
    · rcases hused with hu | hu <;> omega
    · rw [hout b hin] at hne
      have := hok.used b hb hne
      rcases hused with hu | hu <;> omega
  · rw [hnum]
    rcases hused with hu | hu <;> omega
  · rw [hnum] at hb
    by_cases hin : s ≤ b ∧ b < t
    · rw [h.kind, if_pos hin] at hm
      by_cases hs : b = s
      · rw [if_pos hs] at hm
        rcases hfirst with hf | ⟨hf, -⟩ <;> rw [hf] at hm <;> exact absurd hm (by decide)
      · rw [if_neg hs] at hm
        exact absurd hm (by decide)
    · rw [hout b hin] at hm
      exact hok.noMark b hb hm
  · rw [h.same.poolStart]
    exact hok.aligned
  · rw [h.same.poolEnd, h.same.poolStart, hnum]
    exact hok.pool

/-- Every chain that does not end where a tail is added. -/
theorem Filled.chain (h : Filled a a' first s t) (hfree : ∀ b, s ≤ b → b < t → a.getKind b = .free) (hk : a.getKind block = .head)
    (hch : a.Chain block n) (hend : first = .head ∨ block + n ≠ s) : a'.getKind block = .head ∧ a'.Chain block n := by
  have hin : ∀ b, block ≤ b → b < block + n → ¬ (s ≤ b ∧ b < t) := by
    intro b h1 h2 hb
    have := hch.used hk h1 h2
    rw [hfree b hb.1 hb.2] at this
    exact absurd this (by decide)
  have hpos := hch.pos
  refine ⟨by rw [h.kind, if_neg (hin block (Nat.le_refl _) (by omega))]; exact hk, hch.congr fun b h1 h2 => ?_⟩
  by_cases hlt : b < block + n
  · rw [h.kind, if_neg (hin b (Nat.le_of_lt h1) hlt)]
  · obtain rfl : b = block + n := by omega
    rw [h.kind]
    by_cases hb : s ≤ block + n ∧ block + n < t
    · -- the filled blocks start right after the chain, since its last block is in use
      have hs : block + n = s := by
        have := hin (block + n - 1) (by omega) (by omega)
        omega
      rw [if_pos hb, if_pos hs, hfree _ hb.1 hb.2]
      rcases hend with hf | hne
      · rw [hf]
        decide
      · exact absurd hs hne
    · rw [if_neg hb]

theorem Filled.new (h : Filled a a' .head s t) (hok : a.Ok c) (hst : s < t) (ht : t ≤ a.numBlocks)
    (hfree : ∀ b, s ≤ b → b < t → a.getKind b = .free) : a'.getKind s = .head ∧ a'.Chain s (t - s) := by
  refine ⟨by rw [h.kind, if_pos ⟨Nat.le_refl _, hst⟩, if_pos rfl], by omega, fun b h1 h2 => ?_, ?_⟩
  · rw [h.kind, if_pos ⟨by omega, by omega⟩, if_neg (by omega)]
  · rw [show s + (t - s) = t by omega, h.kind, if_neg (by omega)]
    rw [show t = t - 1 + 1 by omega]
    exact hok.not_tail_after (hfree _ (by omega) (by omega)) (by omega)

/-- The chain that is made longer. -/
theorem Filled.longer (h : Filled a a' .tail s t) (hok : a.Ok c) (hst : s < t) (ht : t ≤ a.numBlocks)
    (hfree : ∀ b, s ≤ b → b < t → a.getKind b = .free) (hk : a.getKind block = .head) (hch : a.Chain block n) (hs : block + n = s) :
    a'.getKind block = .head ∧ a'.Chain block (t - block) := by
  have hpos := hch.pos
  refine ⟨by rw [h.kind, if_neg (by omega)]; exact hk, by omega, fun b h1 h2 => ?_, ?_⟩
  · rw [h.kind]
    by_cases hin : s ≤ b ∧ b < t
    · rw [if_pos hin]
      simp
    · rw [if_neg hin]
      exact hch.tail b h1 (by omega)
  · rw [show block + (t - block) = t by omega, h.kind, if_neg (by omega)]
    rw [show t = t - 1 + 1 by omega]
    exact hok.not_tail_after (hfree _ (by omega) (by omega)) (by omega)

/-! ## Clearing -/

/-- The blocks from `s` to `t` are free. -/
structure Cleared (a a' : Area) (s t : Nat) : Prop where
  same : Same a a'
  kind : ∀ b, a'.getKind b = if s ≤ b ∧ b < t then .free else a.getKind b
  used : a'.lastUsedBlock = a.lastUsedBlock

theorem Cleared.ok (h : Cleared a a' s t) (hok : a.Ok c) (hst : s ≤ t) (hend : a.getKind t ≠ .tail) : a'.Ok c := by
  have hnum := h.same.numBlocks
  have hsub : ∀ b, a'.getKind b ≠ .free → a'.getKind b = a.getKind b := by
    intro b hb
    rw [h.kind] at hb ⊢
    by_cases hin : s ≤ b ∧ b < t
    · rw [if_pos hin] at hb
      exact absurd rfl hb
    · rw [if_neg hin]
  refine ⟨?_, fun b hb ht => ?_, fun b hb hne => ?_, ?_, fun b hb hm => ?_, ?_, ?_⟩
  · rw [hnum, h.kind, hok.gap, ite_self]
  · have hk := hsub b (by rw [ht]; decide)
    rw [hnum] at hb
    have ht' := hk ▸ ht
    obtain ⟨b', hb', hk'⟩ := hok.tail b hb ht'
    refine ⟨b', hb', ?_⟩
    rw [h.kind, if_neg]
    · exact hk'
    · -- else `b` is cleared too, or is the block after
      rintro ⟨h1, h2⟩
      by_cases hbt : b < t
      · rw [h.kind, if_pos ⟨by omega, hbt⟩] at ht
        exact absurd ht (by decide)
      · obtain rfl : b = t := by omega
        exact hend ht'
  · rw [hsub b hne] at hne
    rw [h.used]
    exact hok.used b (hnum ▸ hb) hne
  · rw [h.used, hnum]
    exact hok.last
  · rw [hsub b (by rw [hm]; decide)] at hm
    exact hok.noMark b (hnum ▸ hb) hm
  · rw [h.same.poolStart]
    exact hok.aligned
  · rw [h.same.poolEnd, h.same.poolStart, hnum]
    exact hok.pool

theorem Cleared.chain (h : Cleared a a' s t) (hk : a.getKind block = .head) (hch : a.Chain block n) (hout : block + n ≤ s ∨ t ≤ block) :
    a'.getKind block = .head ∧ a'.Chain block n := by
  have hpos := hch.pos
  refine ⟨by rw [h.kind, if_neg (by omega)]; exact hk, hch.pos, fun b h1 h2 => ?_, ?_⟩
  · rw [h.kind, if_neg (by omega)]
    exact hch.tail b h1 h2
  · rw [h.kind]
    by_cases hin : s ≤ block + n ∧ block + n < t
    · rw [if_pos hin]
      decide
    · rw [if_neg hin]
      exact hch.stop

theorem Cleared.shorter (h : Cleared a a' s t) (hk : a.getKind block = .head) (hch : a.Chain block n) (h1 : block < s) (h2 : s < t)
    (ht : t = block + n) : a'.getKind block = .head ∧ a'.Chain block (s - block) := by
  refine ⟨by rw [h.kind, if_neg (by omega)]; exact hk, by omega, fun b hb hb' => ?_, ?_⟩
  · rw [h.kind, if_neg (by omega)]
    exact hch.tail b hb (by omega)
  · rw [show block + (s - block) = s by omega, h.kind, if_pos ⟨Nat.le_refl _, h2⟩]
    decide

/-! ## The loops -/

/-- A block that is free. -/
def isFree (a : Area) (b : Nat) : Bool := a.getKind b = .free

theorem lane_free : ∀ x : Byte, (x &&& 0x03 = 0 ↔ kindOf (lane x 0) = .free) ∧ (x &&& 0x0c = 0 ↔ kindOf (lane x 2) = .free) ∧
    (x &&& 0x30 = 0 ↔ kindOf (lane x 4) = .free) ∧ (x &&& 0xc0 = 0 ↔ kindOf (lane x 6) = .free) := by
  decide

theorem getKind_byte (i j : Nat) (hj : j < 4) : a.getKind (4 * i + j) = kindOf (lane (a.allocTable i) (2 * j)) := by
  have hdiv : (4 * i + j) / 4 = i := by omega
  have hmod : (4 * i + j) % 4 = j := by omega
  rw [getKind_eq, hdiv]
  simp only [laneOf, hmod]

/-- The search looks at one block after the other. -/
theorem scanTable_eq (need m i nFree : Nat) : scanTable a need m i nFree = scan a.isFree need (4 * m) (4 * i) nFree := by
  induction m generalizing i nFree with
  | zero => rfl
  | succ m ih =>
    obtain ⟨f0, f1, f2, f3⟩ := lane_free (a.allocTable i)
    have h0 : (a.allocTable i &&& 0x03 = 0) ↔ a.isFree (4 * i) = true := by
      rw [f0, isFree, decide_eq_true_eq, ← getKind_byte i 0 (by decide), Nat.add_zero]
    have h1 : (a.allocTable i &&& 0x0c = 0) ↔ a.isFree (4 * i + 1) = true := by
      rw [f1, isFree, decide_eq_true_eq, getKind_byte i 1 (by decide)]
    have h2 : (a.allocTable i &&& 0x30 = 0) ↔ a.isFree (4 * i + 1 + 1) = true := by
      rw [f2, isFree, decide_eq_true_eq, getKind_byte i 2 (by decide)]
    have h3 : (a.allocTable i &&& 0xc0 = 0) ↔ a.isFree (4 * i + 1 + 1 + 1) = true := by
      rw [f3, isFree, decide_eq_true_eq, getKind_byte i 3 (by decide)]
    have hnext : 4 * i + 1 + 1 + 1 + 1 = 4 * (i + 1) := by omega
    rw [scanTable, show 4 * (m + 1) = 4 * m + 1 + 1 + 1 + 1 by omega]
    simp only [scan_succ, scanByte, h0, h1, h2, h3, hnext]
    by_cases c0 : a.isFree (4 * i) = true ∧ (if a.isFree (4 * i) = true then nFree + 1 else 0) ≥ need
    · rw [if_pos c0, if_pos c0]
      simp [Nat.mul_comm]
    · rw [if_neg c0, if_neg c0]
      generalize (if a.isFree (4 * i) = true then nFree + 1 else 0) = n0
      by_cases c1 : a.isFree (4 * i + 1) = true ∧ (if a.isFree (4 * i + 1) = true then n0 + 1 else 0) ≥ need
      · rw [if_pos c1, if_pos c1]
        simp [Nat.mul_comm]
      · rw [if_neg c1, if_neg c1]
        generalize (if a.isFree (4 * i + 1) = true then n0 + 1 else 0) = n1
        by_cases c2 : a.isFree (4 * i + 1 + 1) = true ∧ (if a.isFree (4 * i + 1 + 1) = true then n1 + 1 else 0) ≥ need
        · rw [if_pos c2, if_pos c2]
          simp [Nat.mul_comm]
        · rw [if_neg c2, if_neg c2]
          generalize (if a.isFree (4 * i + 1 + 1) = true then n1 + 1 else 0) = n2
          by_cases c3 : a.isFree (4 * i + 1 + 1 + 1) = true ∧ (if a.isFree (4 * i + 1 + 1 + 1) = true then n2 + 1 else 0) ≥ need
          · rw [if_pos c3, if_pos c3]
            simp [Nat.mul_comm]
          · rw [if_neg c3, if_neg c3]
            exact ih (i + 1) _

/-- No search starts past a free block. -/
def HintOk (a : Area) : Prop := ∀ b < a.numBlocks, b < 4 * a.lastFreeAtbIndex → a.getKind b ≠ .free

/-- Every block of the area is in use. -/
def Full (a : Area) : Prop := ∀ b < a.numBlocks, a.getKind b ≠ .free

/-- So many free blocks in a row. -/
def Room (a : Area) (need : Nat) : Prop := ∃ s, s + need ≤ a.numBlocks ∧ Run a.isFree need s

variable {need e f : Nat}

theorem Run.free {p : Area} (h : Run p.isFree need s) (h1 : s ≤ b) (h2 : b < s + need) : p.getKind b = .free := by
  simpa [isFree] using h b h1 h2

theorem scanArea_some (hneed : 0 < need) (h : scanArea a need = some (e, f)) :
    f = need ∧ e < a.numBlocks ∧ need ≤ e + 1 ∧ (∀ b, e + 1 - need ≤ b → b < e + 1 → a.getKind b = .free) ∧
      (need = 1 → a.HintOk → ∀ b < e, a.getKind b ≠ .free) := by
  rw [scanArea, scanTable_eq] at h
  obtain ⟨h1, h2, h3, h4, h5, h6⟩ := scan_some (.start hneed) h
  rw [numBlocks]
  refine ⟨h1, by omega, by omega, fun b hb hb' => Run.free h5 hb (by omega), fun hone hhint b hb hfree => ?_⟩
  by_cases hbelow : b < 4 * a.lastFreeAtbIndex
  · exact hhint b (by rw [numBlocks]; omega) hbelow hfree
  · refine h6 b (by omega) (by omega) fun y hy hy' => ?_
    obtain rfl : y = b := by omega
    simp [isFree, hfree]

theorem scanArea_none (hneed : 0 < need) (hhint : a.HintOk) (h : scanArea a need = none) : ¬ a.Room need := by
  rw [scanArea, scanTable_eq] at h
  have hno := scan_none (.start hneed) h
  rintro ⟨s, hs, hrun⟩
  by_cases hbelow : s < 4 * a.lastFreeAtbIndex
  · exact hhint s (by omega) hbelow (Run.free hrun (Nat.le_refl _) (by omega))
  · refine hno s (by omega) ?_ hrun
    rw [numBlocks] at hs
    omega

theorem full_of_no_room (h : ¬ a.Room 1) : a.Full := by
  intro b hb hfree
  refine h ⟨b, hb, fun y hy hy' => ?_⟩
  obtain rfl : y = b := by omega
  simp [isFree, hfree]

theorem freeToTail_fold {m : Nat} (hfree : ∀ b, s ≤ b → b < s + m → a.getKind b = .free) :
    Same a ((List.range' s m).foldl freeToTail a) ∧ ((List.range' s m).foldl freeToTail a).lastFreeAtbIndex = a.lastFreeAtbIndex ∧
      ((List.range' s m).foldl freeToTail a).lastUsedBlock = a.lastUsedBlock ∧
      ∀ b, ((List.range' s m).foldl freeToTail a).getKind b = if s ≤ b ∧ b < s + m then .tail else a.getKind b := by
  induction m generalizing a s with
  | zero => exact ⟨.refl, rfl, rfl, fun b => (if_neg (by omega)).symm⟩
  | succ m ih =>
    have hs := hfree s (Nat.le_refl _) (by omega)
    obtain ⟨h1, h2, h3, h4⟩ := ih (a := a.freeToTail s) (s := s + 1) (by
      intro b hb hb'
      rw [getKind_freeToTail hs, if_neg (by omega)]
      exact hfree b (by omega) (by omega))
    rw [List.range'_succ, List.foldl_cons]
    refine ⟨edit_same.trans h1, h2, h3, fun b => ?_⟩
    rw [h4, getKind_freeToTail hs]
    by_cases hb : b = s
    · rw [if_neg (by omega), if_pos hb, if_pos (by omega)]
    · rw [if_neg hb]
      simp only [show s + 1 ≤ b ∧ b < s + 1 + m ↔ s ≤ b ∧ b < s + (m + 1) by omega]

/-- The blocks found become a chain. -/
theorem place_spec (hneed : 0 < need) (hle : need ≤ e + 1) (hfree : ∀ b, e + 1 - need ≤ b → b < e + 1 → a.getKind b = .free) :
    Filled a (a.place e need) .head (e + 1 - need) (e + 1) ∧
      (a.place e need).lastFreeAtbIndex = if need = 1 then (e + 1) / 4 else a.lastFreeAtbIndex := by
  rw [place]
  obtain ⟨a₁, ha₁⟩ : ∃ a₁ : Area, a₁ = if need = 1 then { a with lastFreeAtbIndex := (e + 1) / 4 } else a := ⟨_, rfl⟩
  have hsame : Same a a₁ ∧ a₁.allocTable = a.allocTable ∧ a₁.lastUsedBlock = a.lastUsedBlock ∧
      a₁.lastFreeAtbIndex = if need = 1 then (e + 1) / 4 else a.lastFreeAtbIndex := by
    rw [ha₁]
    by_cases h1 : need = 1
    · simp only [if_pos h1]
      exact ⟨⟨rfl, rfl, rfl⟩, trivial, trivial, trivial⟩
    · simp only [if_neg h1]
      exact ⟨.refl, trivial, trivial, trivial⟩
  simp only [← ha₁]
  obtain ⟨hsame, htable, hused, hhint⟩ := hsame
  have hhead : ∀ b, e + 1 - need ≤ b → b < e + 1 → ({ a₁ with lastUsedBlock := max a₁.lastUsedBlock e } : Area).getKind b = .free := by
    intro b h1 h2
    exact (getKind_congr htable).trans (hfree b h1 h2)
  obtain ⟨a₂, ha₂⟩ : ∃ a₂ : Area, a₂ = { a₁ with lastUsedBlock := max a₁.lastUsedBlock e } := ⟨_, rfl⟩
  rw [← ha₂] at hhead ⊢
  have hs := hhead (e + 1 - need) (Nat.le_refl _) (by omega)
  obtain ⟨h1, h2, h3, h4⟩ := freeToTail_fold (a := a₂.freeToHead (e + 1 - need)) (s := e + 1 - need + 1) (m := e - (e + 1 - need)) (by
    intro b hb hb'
    rw [getKind_freeToHead hs, if_neg (by omega)]
    exact hhead b (by omega) (by omega))
  have hsame₂ : Same a a₂ := by
    rw [ha₂]
    exact ⟨hsame.len, hsame.poolStart, hsame.poolEnd⟩
  refine ⟨⟨hsame₂.trans (edit_same.trans h1), fun b => ?_, .inl ?_⟩, ?_⟩
  · rw [h4, getKind_freeToHead hs]
    have hk : a₂.getKind b = a.getKind b := by
      rw [ha₂]
      exact getKind_congr htable
    rw [hk]
    by_cases hb : b = e + 1 - need
    · rw [if_neg (by omega), if_pos hb, if_pos (by omega), if_pos hb]
    · rw [if_neg hb, if_neg hb]
      simp only [show (e + 1 - need + 1 ≤ b ∧ b < e + 1 - need + 1 + (e - (e + 1 - need))) ↔ (e + 1 - need ≤ b ∧ b < e + 1) by omega]
  · rw [h3]
    show a₂.lastUsedBlock = _
    rw [ha₂, Nat.add_sub_cancel]
    show max a₁.lastUsedBlock e = _
    rw [hused]
  · rw [h2]
    show a₂.lastFreeAtbIndex = _
    rw [ha₂]
    exact hhint

theorem freeBlocks_spec (a : Area) (s m : Nat) :
    Cleared a (freeBlocks a s m) s (s + m) ∧ (freeBlocks a s m).lastFreeAtbIndex = a.lastFreeAtbIndex := by
  rw [freeBlocks]
  induction m generalizing a s with
  | zero => exact ⟨⟨.refl, fun b => (if_neg (by omega)).symm, rfl⟩, rfl⟩
  | succ m ih =>
    obtain ⟨h1, h2⟩ := ih (a.anyToFree s) (s + 1)
    rw [List.range'_succ, List.foldl_cons]
    refine ⟨⟨edit_same.trans h1.same, fun b => ?_, h1.used⟩, h2⟩
    rw [h1.kind, getKind_anyToFree]
    by_cases hb : b = s
    · rw [if_neg (by omega), if_pos hb, if_pos (by omega)]
    · rw [if_neg hb]
      simp only [show s + 1 ≤ b ∧ b < s + 1 + m ↔ s ≤ b ∧ b < s + (m + 1) by omega]

/-- gc_realloc counts the blocks of the chain, and free blocks that follow it. -/
theorem countBlocks_spec (new n₀ f₀ : Nat) {m : Nat} (hok : a.Ok c) (hch : a.Chain block n) (hend : block + n₀ + f₀ + m = a.numBlocks) (hpos : 0 < n₀)
    (hle : n₀ ≤ n) (hn : block + n ≤ a.numBlocks) (hall : 0 < f₀ → n₀ = n) (hfree : ∀ b, block + n₀ ≤ b → b < block + n₀ + f₀ → a.getKind b = .free) :
    ∃ f, countBlocks a new m (block + n₀ + f₀) n₀ f₀ = (n, f) ∧ block + n + f ≤ a.numBlocks ∧ ∀ b, block + n ≤ b → b < block + n + f → a.getKind b = .free := by
  induction m generalizing n₀ f₀ with
  | zero =>
    obtain rfl : n₀ = n := by
      rcases Nat.eq_zero_or_pos f₀ with h0 | h0
      · omega
      · exact hall h0
    exact ⟨f₀, rfl, by omega, hfree⟩
  | succ m ih =>
    rw [countBlocks]
    have hstop : a.getKind (block + n₀ + f₀) ≠ .tail → n₀ = n := by
      intro hk
      rcases Nat.eq_zero_or_pos f₀ with h0 | h0
      · by_contra hne
        exact hk (hch.tail _ (by omega) (by omega))
      · exact hall h0
    cases hk : a.getKind (block + n₀ + f₀) with
    | tail =>
      -- no tail comes after the free blocks
      have hf : f₀ = 0 := by
        by_contra hf
        have := hok.not_tail_after (hfree (block + n₀ + f₀ - 1) (by omega) (by omega)) (by omega)
        rw [show block + n₀ + f₀ - 1 + 1 = block + n₀ + f₀ by omega] at this
        exact this hk
      subst hf
      have hlt : n₀ ≠ n := by
        rintro rfl
        exact hch.stop hk
      have hnext := ih (n₀ + 1) 0 (by omega) (by omega) (by omega) (by omega) (fun b hb hb' => by omega)
      rw [show block + n₀ + 0 + 1 = block + (n₀ + 1) + 0 by omega]
      exact hnext
    | free =>
      obtain rfl := hstop (by rw [hk]; decide)
      have hmore : ∀ b, block + n₀ ≤ b → b < block + n₀ + (f₀ + 1) → a.getKind b = .free := by
        intro b h1 h2
        by_cases hb : b = block + n₀ + f₀
        · rw [hb]
          exact hk
        · exact hfree b h1 (by omega)
      by_cases henough : n₀ + (f₀ + 1) ≥ new
      · simp only [if_pos henough]
        exact ⟨f₀ + 1, rfl, by omega, hmore⟩
      · simp only [if_neg henough]
        exact ih _ _ (by omega) hpos hle (fun _ => rfl) hmore
    | head =>
      obtain rfl := hstop (by rw [hk]; decide)
      exact ⟨f₀, rfl, by omega, hfree⟩
    | mark =>
      obtain rfl := hstop (by rw [hk]; decide)
      exact ⟨f₀, rfl, by omega, hfree⟩

theorem growTail_spec {m : Nat} (hfree : ∀ b, s ≤ b → b < s + m → a.getKind b = .free) :
    growTail a m s = some ((List.range' s m).foldl freeToTail a) := by
  induction m generalizing a s with
  | zero => rfl
  | succ m ih =>
    have hs := hfree s (Nat.le_refl _) (by omega)
    rw [growTail, if_pos hs, List.range'_succ, List.foldl_cons]
    apply ih
    intro b hb hb'
    rw [getKind_freeToTail hs, if_neg (by omega)]
    exact hfree b (by omega) (by omega)

end Area

end PythonUltra.Py.Gc
