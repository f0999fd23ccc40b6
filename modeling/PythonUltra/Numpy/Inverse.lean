/-
  PythonUltra.Numpy.Inverse — `I`, with rational numbers for floats
  (ports/sh/modules/numpy/__init__.py).

  The rows of `work` are those of the matrix with the identity beside it. A turn over a pivot
  is a swap, a division and an elimination, each known entry by entry (`setRow_spec`,
  `swapRows_spec`), so a turn keeps what the rows make zero and gives one more column of the
  identity (`Reduced`). Without a pivot the columns before make the column zero.
-/

import Mathlib.Data.List.GetD
import Mathlib.LinearAlgebra.Matrix.ZPow
import PythonUltra.Lib.Elimination
import PythonUltra.Numpy.Calls
import PythonUltra.Numpy.Product
import PythonUltra.Numpy.Rational

open PythonUltra.Lib.Blocks PythonUltra.Lib.Elimination

namespace PythonUltra.Numpy

theorem exact_ratNums : Exact ratNums.toNums := ⟨fun _ => rfl, fun _ _ => rfl, fun _ _ => rfl⟩

/-! ## Entries -/

def entry (work : List (List ℚ)) (i j : Nat) : ℚ := (work.getD i []).getD j 0

/-- As many rows, each with both halves. -/
structure Wide (n : Nat) (work : List (List ℚ)) : Prop where
  rows : work.length = n
  width : ∀ row ∈ work, row.length = n * 2

variable {n i j r c k : Nat} {work : List (List ℚ)}

theorem Wide.row (h : Wide n work) (hi : i < n) : ∃ row, work[i]? = some row ∧ row.length = n * 2 ∧ ∀ j, row.getD j 0 = entry work i j := by
  have hlt : i < work.length := by rw [h.rows]; exact hi
  refine ⟨work[i], List.getElem?_eq_getElem hlt, h.width _ (List.getElem_mem hlt), fun j => ?_⟩
  rw [entry, List.getD_eq_getElem?_getD (l := work), List.getElem?_eq_getElem hlt, Option.getD_some]

theorem cell_spec (h : Wide n work) (hi : i < n) (hj : j < n * 2) : Ndarray.cell work i j = .ok (entry work i j) := by
  obtain ⟨row, hrow, hlength, hentry⟩ := h.row hi
  have hget : row[j]? = some (entry work i j) := by
    rw [← hentry, List.getD_eq_getElem?_getD, List.getElem?_eq_getElem (by omega), Option.getD_some]
  rw [Ndarray.cell, hrow, Option.bind_some, hget]

theorem setCell_wide (h : Wide n work) (value : ℚ) : Wide n (Ndarray.setCell work r c value) := by
  refine ⟨by rw [Ndarray.setCell, List.length_modify, h.rows], fun row hrow => ?_⟩
  obtain ⟨i, hi⟩ := List.mem_iff_getElem?.mp hrow
  rw [Ndarray.setCell, List.getElem?_modify] at hi
  obtain ⟨old, hold, rfl⟩ := Option.map_eq_some_iff.mp hi
  have hlength := h.width old (List.mem_of_getElem? hold)
  split
  · rw [List.length_set, hlength]
  · exact hlength

theorem setCell_entry (h : Wide n work) (hr : r < n) (hc : c < n * 2) (value : ℚ) (i j : Nat) :
    entry (Ndarray.setCell work r c value) i j = if i = r ∧ j = c then value else entry work i j := by
  obtain ⟨row, hrow, hlength, hentry⟩ := h.row hr
  unfold entry Ndarray.setCell
  rw [List.getD_eq_getElem?_getD (l := work.modify r (·.set c value)), List.getElem?_modify, Option.map_eq_map,
    List.getD_eq_getElem?_getD (l := work)]
  by_cases hi : i = r
  · subst hi
    rw [hrow, Option.map_some, Option.getD_some, if_pos rfl, Option.getD_some, List.getD_eq_getElem?_getD, List.getElem?_set,
      List.getD_eq_getElem?_getD]
    by_cases hj : j = c
    · rw [if_pos hj.symm, if_pos (by omega), if_pos ⟨rfl, hj⟩, Option.getD_some]
    · rw [if_neg (Ne.symm hj), if_neg fun h => hj h.2]
  · rw [if_neg fun h => hi h.1]
    rcases work[i]? with _ | row'
    · rfl
    · rw [Option.map_some, if_neg (Ne.symm hi)]

/-- A loop over the columns of a row: what it stores may read what it has not stored to yet. -/
theorem setRow_spec {value : List (List ℚ) → Nat → Except Exc ℚ} (g : Nat → ℚ) (h : Wide n work) (hr : r < n)
    (hvalue : ∀ work' col, Wide n work' → col < n * 2 → (∀ i j, i ≠ r ∨ col ≤ j → entry work' i j = entry work i j) → value work' col = .ok (g col)) :
    ∃ work', Ndarray.setRow work r (n * 2) value = .ok work' ∧ Wide n work' ∧ ∀ i j, j < n * 2 →
      entry work' i j = if i = r then g j else entry work i j := by
  have hloop : ∀ m ≤ n * 2, ∃ work', Ndarray.setRow work r m value = .ok work' ∧ Wide n work' ∧
      ∀ i j, entry work' i j = if i = r ∧ j < m then g j else entry work i j := by
    intro m
    induction m with
    | zero => exact fun _ => ⟨work, rfl, h, fun i j => (if_neg fun h => j.not_lt_zero h.2).symm⟩
    | succ m ih =>
      intro hm
      obtain ⟨work', hrun, hwide, hentry⟩ := ih (Nat.le_of_succ_le hm)
      refine ⟨Ndarray.setCell work' r m (g m), ?_, setCell_wide hwide _, fun i j => ?_⟩
      · have hread : value work' m = .ok (g m) := hvalue work' m hwide hm fun i j hij => by
          rw [hentry, if_neg fun h => hij.elim (fun hi => hi h.1) fun hj => absurd h.2 (Nat.not_lt.mpr hj)]
        unfold Ndarray.setRow at hrun ⊢
        rw [List.range_succ, List.foldlM_append, hrun]
        show (do
          let value ← value work' m
          pure (Ndarray.setCell work' r m value)) >>= pure = _
        rw [hread]
        rfl
      · rw [setCell_entry hwide hr hm, hentry]
        by_cases hi : i = r
        · by_cases hj : j = m
          · rw [if_pos ⟨hi, hj⟩, if_pos ⟨hi, by omega⟩, hj]
          · rw [if_neg fun h => hj h.2]
            exact if_congr (and_congr_right fun _ => by omega) rfl rfl
        · rw [if_neg fun h => hi h.1, if_neg fun h => hi h.1, if_neg fun h => hi h.1]
  obtain ⟨work', hrun, hwide, hentry⟩ := hloop (n * 2) (Nat.le_refl _)
  refine ⟨work', hrun, hwide, fun i j hj => ?_⟩
  rw [hentry]
  exact if_congr (and_iff_left hj) rfl rfl

theorem swapRows_spec (h : Wide n work) {p q : Nat} (hp : p < n) (hq : q < n) :
    Wide n (Ndarray.swapRows work p q) ∧ ∀ i j, entry (Ndarray.swapRows work p q) i j = entry work (Equiv.swap p q i) j := by
  have hrow : ∀ i, (Ndarray.swapRows work p q).getD i [] = work.getD (Equiv.swap p q i) [] := by
    intro i
    rw [Ndarray.swapRows, List.getD_eq_getElem?_getD, List.getElem?_set, List.length_set, h.rows, Equiv.swap_apply_def]
    by_cases hiq : i = q
    · rw [if_pos hiq.symm, if_pos (by omega), Option.getD_some]
      by_cases hip : i = p
      · rw [if_pos hip, ← hiq, hip]
      · rw [if_neg hip, if_pos hiq]
    · rw [if_neg (Ne.symm hiq), List.getElem?_set, h.rows]
      by_cases hip : i = p
      · rw [if_pos hip.symm, if_pos (by omega), Option.getD_some, if_pos hip]
      · rw [if_neg (Ne.symm hip), if_neg hip, if_neg hiq, List.getD_eq_getElem?_getD]
  have hwide : ∀ i < n, (work.getD i []).length = n * 2 := fun i hi => by
    obtain ⟨row, hget, hlength, -⟩ := h.row hi
    rw [List.getD_eq_getElem?_getD, hget, Option.getD_some, hlength]
  refine ⟨⟨by rw [Ndarray.swapRows, List.length_set, List.length_set, h.rows], fun row hmem => ?_⟩, fun i j => by rw [entry, hrow, entry]⟩
  rcases List.mem_or_eq_of_mem_set hmem with hmem | rfl
  · rcases List.mem_or_eq_of_mem_set hmem with hmem | rfl
    · exact h.width row hmem
    · exact hwide q hq
  · exact hwide p hp

/-- The search finds a row below with the largest entry. -/
theorem findPivot_spec (h : Wide n work) (hk : k < n) :
    ∃ p, Ndarray.findPivot ratNums.toNums n work k = .ok (p, |entry work p k|) ∧ k ≤ p ∧ p < n ∧
      ∀ i, k ≤ i → i < n → |entry work i k| ≤ |entry work p k| := by
  have hloop : ∀ m, k + 1 + m ≤ n → ∃ p, (List.range' (k + 1) m).foldlM (Ndarray.candidateTurn ratNums.toNums work k) (k, |entry work k k|) =
        .ok (p, |entry work p k|) ∧ k ≤ p ∧ p < n ∧ ∀ i, k ≤ i → i < k + 1 + m → |entry work i k| ≤ |entry work p k| := by
    intro m
    induction m with
    | zero =>
      refine fun _ => ⟨k, rfl, Nat.le_refl k, hk, fun i hki hi => ?_⟩
      obtain rfl : i = k := by omega
      exact le_refl _
    | succ m ih =>
      intro hm
      obtain ⟨p, hrun, hkp, hp, hmax⟩ := ih (by omega)
      have hturn : Ndarray.candidateTurn ratNums.toNums work k (p, |entry work p k|) (k + 1 + m) =
          .ok (if |entry work p k| < |entry work (k + 1 + m) k| then (k + 1 + m, |entry work (k + 1 + m) k|) else (p, |entry work p k|)) := by
        rw [Ndarray.candidateTurn, cell_spec h (by omega) (by omega)]
        show (ratNums.toNums.abs (entry work (k + 1 + m) k) >>= _) = _
        rw [ratNums_abs]
        show Except.ok (if decide (|entry work p k| < |entry work (k + 1 + m) k|) = true then _ else _) = _
        exact congrArg Except.ok (if_congr decide_eq_true_iff rfl rfl)
      have hrun' : (List.range' (k + 1) (m + 1)).foldlM (Ndarray.candidateTurn ratNums.toNums work k) (k, |entry work k k|) =
          .ok (if |entry work p k| < |entry work (k + 1 + m) k| then (k + 1 + m, |entry work (k + 1 + m) k|) else (p, |entry work p k|)) := by
        rw [List.range'_concat, Nat.one_mul, List.foldlM_append, hrun]
        show Ndarray.candidateTurn _ _ _ _ _ >>= pure = _
        rw [hturn]
        rfl
      rw [hrun']
      by_cases hlarger : |entry work p k| < |entry work (k + 1 + m) k|
      · rw [if_pos hlarger]
        refine ⟨k + 1 + m, rfl, by omega, by omega, fun i hki hi => ?_⟩
        by_cases hlast : i = k + 1 + m
        · rw [hlast]
        · exact (hmax i hki (by omega)).trans hlarger.le
      · rw [if_neg hlarger]
        refine ⟨p, rfl, hkp, hp, fun i hki hi => ?_⟩
        by_cases hlast : i = k + 1 + m
        · rw [hlast]
          exact not_lt.mp hlarger
        · exact hmax i hki (by omega)
  obtain ⟨p, hrun, hkp, hp, hmax⟩ := hloop (n - (k + 1)) (by omega)
  refine ⟨p, ?_, hkp, hp, fun i hki hi => hmax i hki (by omega)⟩
  rw [Ndarray.findPivot, cell_spec h hk (by omega)]
  show (ratNums.toNums.abs (entry work k k) >>= _) = _
  rw [ratNums_abs]
  exact hrun

/-! ## A turn over a pivot -/

theorem divideRow_spec (h : Wide n work) (hk : k < n) {pivot : ℚ} (hpivot : pivot ≠ 0) :
    ∃ work', Ndarray.divideRow ratNums n work k pivot = .ok work' ∧ Wide n work' ∧ ∀ i j, j < n * 2 →
      entry work' i j = if i = k then entry work k j / pivot else entry work i j := by
  refine setRow_spec (fun j => entry work k j / pivot) h hk fun work' col hwide hcol hsame => ?_
  rw [cell_spec hwide hk hcol, hsame k col (Or.inr (Nat.le_refl col))]
  exact if_neg hpivot

theorem clearTurn_spec (h : Wide n work) (hk : k < n) (hr : r < n) (hrk : r ≠ k) :
    ∃ work', Ndarray.clearTurn ratNums.toNums n k work r = .ok work' ∧ Wide n work' ∧ ∀ i j, j < n * 2 →
      entry work' i j = if i = r then entry work r j - entry work r k * entry work k j else entry work i j := by
  have hcell : Ndarray.cell work r k = .ok (entry work r k) := cell_spec h hr (by omega)
  rw [Ndarray.clearTurn, if_neg hrk, hcell]
  show ∃ work', (if decide (entry work r k = ((0 : Int) : ℚ)) = true then Except.ok work else _) = .ok work' ∧ _
  rw [Int.cast_zero]
  by_cases hzero : entry work r k = 0
  · rw [if_pos (decide_eq_true hzero), hzero]
    refine ⟨work, rfl, h, fun i j _ => ?_⟩
    by_cases hi : i = r
    · rw [if_pos hi, hi, zero_mul, sub_zero]
    · rw [if_neg hi]
  · rw [if_neg (by rw [decide_eq_true_iff]; exact hzero)]
    refine setRow_spec (fun j => entry work r j - entry work r k * entry work k j) h hr fun work' col hwide hcol hsame => ?_
    rw [cell_spec hwide hr hcol, cell_spec hwide hk hcol, hsame r col (Or.inr (Nat.le_refl col)), hsame k col (Or.inl (Ne.symm hrk))]
    rfl

/-- The loop that clears the column, but for the pivot's row. -/
theorem clear_spec (h : Wide n work) (hk : k < n) :
    ∃ work', (List.range n).foldlM (Ndarray.clearTurn ratNums.toNums n k) work = .ok work' ∧ Wide n work' ∧ ∀ i < n, ∀ j < n * 2,
      entry work' i j = if i = k then entry work k j else entry work i j - entry work i k * entry work k j := by
  have hloop : ∀ m ≤ n, ∃ work', (List.range m).foldlM (Ndarray.clearTurn ratNums.toNums n k) work = .ok work' ∧ Wide n work' ∧
      ∀ i j, j < n * 2 → entry work' i j = if i < m ∧ i ≠ k then entry work i j - entry work i k * entry work k j else entry work i j := by
    intro m
    induction m with
    | zero => exact fun _ => ⟨work, rfl, h, fun i j _ => (if_neg fun h => i.not_lt_zero h.1).symm⟩
    | succ m ih =>
      intro hm
      obtain ⟨work', hrun, hwide, hentry⟩ := ih (Nat.le_of_succ_le hm)
      rw [List.range_succ, List.foldlM_append, hrun]
      show ∃ work'', (Ndarray.clearTurn ratNums.toNums n k work' m >>= pure) = .ok work'' ∧ _
      rw [bind_pure]
      by_cases hmk : m = k
      · refine ⟨work', by rw [Ndarray.clearTurn, if_pos hmk]; rfl, hwide, fun i j hj => ?_⟩
        rw [hentry i j hj]
        exact if_congr (and_congr_left fun hik => by omega) rfl rfl
      · obtain ⟨work'', hturn, hwide', hentry'⟩ := clearTurn_spec hwide hk hm hmk
        refine ⟨work'', hturn, hwide', fun i j hj => ?_⟩
        have hrow : ∀ j < n * 2, entry work' m j = entry work m j := fun j hj => by
          rw [hentry m j hj, if_neg fun h => Nat.lt_irrefl m h.1]
        have hpivot : ∀ j < n * 2, entry work' k j = entry work k j := fun j hj => by
          rw [hentry k j hj, if_neg fun h => h.2 rfl]
        rw [hentry' i j hj, hrow j hj, hrow k (by omega), hpivot j hj]
        by_cases him : i = m
        · rw [if_pos him, if_pos ⟨by omega, fun hik => hmk (him.symm.trans hik)⟩, him]
        · rw [if_neg him, hentry i j hj]
          exact if_congr (and_congr_left fun _ => by omega) rfl rfl
  obtain ⟨work', hrun, hwide, hentry⟩ := hloop n (Nat.le_refl n)
  refine ⟨work', hrun, hwide, fun i hi j hj => ?_⟩
  rw [hentry i j hj]
  by_cases hik : i = k
  · rw [if_neg fun h => h.2 hik, if_pos hik, hik]
  · rw [if_pos ⟨hi, hik⟩, if_neg hik]

theorem pivotTurn_singular (h : Wide n work) (hk : k < n) (hzero : ∀ i, k ≤ i → i < n → entry work i k = 0) :
    Ndarray.pivotTurn ratNums n work k = .error (.valueError "singular matrix") := by
  obtain ⟨p, hfind, hkp, hp, -⟩ := findPivot_spec h hk
  rw [Ndarray.pivotTurn, hfind, hzero p hkp hp, abs_zero]
  rfl

/-- With one, its row is divided by it and taken from the others. -/
theorem pivotTurn_spec (h : Wide n work) (hk : k < n) (hsome : ∃ i, k ≤ i ∧ i < n ∧ entry work i k ≠ 0) :
    ∃ work' p, Ndarray.pivotTurn ratNums n work k = .ok work' ∧ Wide n work' ∧ k ≤ p ∧ p < n ∧ entry work p k ≠ 0 ∧ ∀ i < n, ∀ j < n * 2,
      entry work' i j = if i = k then entry work p j / entry work p k
        else entry work (Equiv.swap k p i) j - entry work (Equiv.swap k p i) k * (entry work p j / entry work p k) := by
  obtain ⟨p, hfind, hkp, hp, hmax⟩ := findPivot_spec h hk
  have hpivot : entry work p k ≠ 0 := by
    intro hzero
    obtain ⟨i, hki, hi, hne⟩ := hsome
    have hle := hmax i hki hi
    rw [hzero, abs_zero] at hle
    exact hne (abs_eq_zero.mp (le_antisymm hle (abs_nonneg _)))
  obtain ⟨hswapWide, hswap⟩ := swapRows_spec h hk hp
  -- the rows, in their order for this turn
  obtain ⟨swapped, hswapped, hwide, hentry⟩ : ∃ swapped, (if p ≠ k then Ndarray.swapRows work k p else work) = swapped ∧ Wide n swapped ∧
      ∀ i j, entry swapped i j = entry work (Equiv.swap k p i) j := by
    by_cases hpk : p = k
    · rw [if_neg (not_not.mpr hpk)]
      exact ⟨work, rfl, h, fun i j => by rw [hpk, Equiv.swap_self, Equiv.refl_apply]⟩
    · rw [if_pos hpk]
      exact ⟨_, rfl, hswapWide, hswap⟩
  have hpivotRow : ∀ j, entry swapped k j = entry work p j := fun j => by rw [hentry, Equiv.swap_apply_left]
  obtain ⟨divided, hdivide, hwide', hdivided⟩ := divideRow_spec hwide hk hpivot
  have hdividedRow : ∀ j < n * 2, entry divided k j = entry work p j / entry work p k := fun j hj => by
    rw [hdivided k j hj, if_pos rfl, hpivotRow]
  obtain ⟨work', hclear, hwide'', hcleared⟩ := clear_spec hwide' hk
  refine ⟨work', p, ?_, hwide'', hkp, hp, hpivot, fun i hi j hj => ?_⟩
  · have hsize : ¬ decide (|entry work p k| = ((0 : Int) : ℚ)) = true := by
      rw [decide_eq_true_iff, Int.cast_zero]
      exact fun hzero => hpivot (abs_eq_zero.mp hzero)
    rw [Ndarray.pivotTurn, hfind]
    show (if decide (|entry work p k| = ((0 : Int) : ℚ)) = true then _ else _) = _
    rw [if_neg hsize]
    show (do
      let pivot ← Ndarray.cell (if p ≠ k then Ndarray.swapRows work k p else work) k k
      let work ← Ndarray.divideRow ratNums n (if p ≠ k then Ndarray.swapRows work k p else work) k pivot
      (List.range n).foldlM (Ndarray.clearTurn ratNums.toNums n k) work) = _
    rw [hswapped, cell_spec hwide hk (by omega), hpivotRow]
    show (Ndarray.divideRow ratNums n swapped k (entry work p k) >>= _) = _
    rw [hdivide]
    exact hclear
  · rw [hcleared i hi j hj, hdividedRow j hj]
    by_cases hik : i = k
    · rw [if_pos hik, if_pos hik]
    · rw [if_neg hik, if_neg hik, hdivided i j hj, hdivided i k (by omega), if_neg hik, if_neg hik, hentry, hentry]

/-! ## The loop over the pivots -/

open Matrix

/-- The column of both halves. -/
def place (n : Nat) (s : Fin n ⊕ Fin n) : Nat := Sum.elim Fin.val (fun j => n + j) s

theorem place_lt (s : Fin n ⊕ Fin n) : place n s < n * 2 := by
  rcases s with j | j
  · show (j : Nat) < n * 2
    omega
  · show n + (j : Nat) < n * 2
    omega

def augmented (n : Nat) (work : List (List ℚ)) : Matrix (Fin n) (Fin n ⊕ Fin n) ℚ := fun i s => entry work i (place n s)

def left (n : Nat) (work : List (List ℚ)) : Matrix (Fin n) (Fin n) ℚ := fun i j => entry work i j

def right (n : Nat) (work : List (List ℚ)) : Matrix (Fin n) (Fin n) ℚ := fun i j => entry work i (n + j)

theorem augmented_eq (n : Nat) (work : List (List ℚ)) : augmented n work = fromCols (left n work) (right n work) := by
  ext i s
  rcases s with j | j <;> rfl

/-- After the turns before `k`: the rows make zero what those of M with the identity do, and
the first columns are the identity's. -/
structure Reduced (M : Matrix (Fin n) (Fin n) ℚ) (k : Nat) (work : List (List ℚ)) : Prop where
  wide : Wide n work
  kernel : Kernel (augmented n work) = Kernel (fromCols M 1)
  column : ∀ i < n, ∀ c < k, entry work i c = if i = c then 1 else 0

variable {M : Matrix (Fin n) (Fin n) ℚ}

theorem swap_val (a b i : Fin n) : ((Equiv.swap a b i : Fin n) : Nat) = Equiv.swap (a : Nat) b i := by
  rw [Equiv.swap_apply_def, Equiv.swap_apply_def]
  simp only [Fin.ext_iff]
  split
  · rfl
  · split <;> rfl

theorem reduced_turn (h : Reduced M k work) (hk : k < n) (hsome : ∃ i, k ≤ i ∧ i < n ∧ entry work i k ≠ 0) :
    ∃ work', Ndarray.pivotTurn ratNums n work k = .ok work' ∧ Reduced M (k + 1) work' := by
  obtain ⟨work', p, hturn, hwide, hkp, hp, hpivot, hentry⟩ := pivotTurn_spec h.wide hk hsome
  refine ⟨work', hturn, ⟨hwide, ?_, fun i hi c hc => ?_⟩⟩
  · rw [← h.kernel]
    let swapped : Matrix (Fin n) (Fin n ⊕ Fin n) ℚ := fun i => augmented n work (Equiv.swap ⟨k, hk⟩ ⟨p, hp⟩ i)
    have hswapped : ∀ i s, swapped i s = entry work (Equiv.swap k p i) (place n s) := fun i s => by
      show entry work _ _ = _
      rw [swap_val]
    have hrow : swapped ⟨k, hk⟩ = fun s => entry work p (place n s) := funext fun s => by rw [hswapped, Equiv.swap_apply_left]
    have hkernel : Kernel swapped = Kernel (augmented n work) := kernel_permute (Equiv.swap ⟨k, hk⟩ ⟨p, hp⟩) fun _ => rfl
    rw [← hkernel]
    refine kernel_pivot (p := ⟨k, hk⟩) (c := (entry work p k)⁻¹) (f := fun i => entry work (Equiv.swap k p i) k * (entry work p k)⁻¹)
      (inv_ne_zero hpivot) ?_ fun i hi => ?_
    · rw [hrow]
      funext s
      show entry work' k (place n s) = (entry work p k)⁻¹ * entry work p (place n s)
      rw [hentry k hk _ (place_lt s), if_pos rfl, div_eq_inv_mul]
    · rw [hrow]
      funext s
      show entry work' i (place n s) = swapped i s - entry work (Equiv.swap k p i) k * (entry work p k)⁻¹ * entry work p (place n s)
      rw [hentry i i.isLt _ (place_lt s), if_neg fun he => hi (Fin.ext he), hswapped, mul_assoc, div_eq_inv_mul]
  · rw [hentry i hi c (by omega)]
    by_cases hck : c = k
    · subst hck
      by_cases hic : i = c
      · rw [if_pos hic, if_pos hic, div_self hpivot]
      · rw [if_neg hic, if_neg hic, div_self hpivot, mul_one, sub_self]
    · have hcolumn := fun j hj => h.column j hj c (by omega)
      have hpc : entry work p c = 0 := by rw [hcolumn p hp, if_neg (by omega)]
      rw [hpc, zero_div, mul_zero, sub_zero]
      by_cases hik : i = k
      · rw [if_pos hik, if_neg (by omega)]
      · rw [if_neg hik, Equiv.swap_apply_def, if_neg hik]
        by_cases hip : i = p
        · rw [if_pos hip, hcolumn k hk, if_neg (by omega), if_neg (by omega)]
        · rw [if_neg hip, hcolumn i hi]

/-- The columns before make a column without a pivot zero. -/
theorem not_isUnit_of_zero (h : Reduced M k work) (hk : k < n) (hzero : ∀ i, k ≤ i → i < n → entry work i k = 0) : ¬ IsUnit M := by
  let w : Fin n → ℚ := fun j => if (j : Nat) < k then entry work j k else 0
  have hw : left n work *ᵥ w = w := by
    funext i
    show ∑ j, left n work i j * w j = w i
    rw [Finset.sum_eq_single i]
    · by_cases hi : (i : Nat) < k
      · show entry work i i * w i = w i
        rw [h.column i i.isLt i hi, if_pos rfl, one_mul]
      · have hwi : w i = 0 := if_neg hi
        rw [hwi, mul_zero]
    · intro j _ hj
      by_cases hjk : (j : Nat) < k
      · show entry work i j * w j = 0
        rw [h.column i i.isLt j hjk, if_neg fun he => hj (Fin.ext he.symm), zero_mul]
      · have hwj : w j = 0 := if_neg hjk
        rw [hwj, mul_zero]
    · exact fun hi => absurd (Finset.mem_univ i) hi
  have hcolumn : left n work *ᵥ Pi.single ⟨k, hk⟩ 1 = w := by
    funext i
    rw [mulVec_single_one]
    show entry work i k = w i
    by_cases hi : (i : Nat) < k
    · exact (if_pos hi).symm
    · rw [hzero i (by omega) i.isLt]
      exact (if_neg hi).symm
  refine not_isUnit_of_kernel (L := left n work) (R := right n work) (v := w - Pi.single ⟨k, hk⟩ 1) ?_ ?_ ?_
  · rw [← h.kernel, augmented_eq]
  · intro hv
    have hat := congrFun hv ⟨k, hk⟩
    have hwk : w ⟨k, hk⟩ = 0 := if_neg (Nat.lt_irrefl k)
    rw [Pi.sub_apply, hwk, Pi.single_eq_same, Pi.zero_apply] at hat
    norm_num at hat
  · rw [mulVec_sub, hw, hcolumn, sub_self]

/-- The whole loop: the identity in the left half, or no inverse. -/
theorem pivots_spec (h : Reduced M 0 work) : ∀ m ≤ n,
    (∃ work', (List.range m).foldlM (Ndarray.pivotTurn ratNums n) work = .ok work' ∧ Reduced M m work') ∨
      (List.range m).foldlM (Ndarray.pivotTurn ratNums n) work = .error (.valueError "singular matrix") ∧ ¬ IsUnit M
  | 0, _ => Or.inl ⟨work, rfl, h⟩
  | m + 1, hm => by
    rw [List.range_succ, List.foldlM_append]
    rcases pivots_spec h m (Nat.le_of_succ_le hm) with ⟨work', hrun, hreduced⟩ | ⟨hrun, hsingular⟩
    · rw [hrun]
      show (∃ work'', (Ndarray.pivotTurn ratNums n work' m >>= pure) = .ok work'' ∧ _) ∨ (Ndarray.pivotTurn ratNums n work' m >>= pure) = _ ∧ _
      rw [bind_pure]
      by_cases hsome : ∃ i, m ≤ i ∧ i < n ∧ entry work' i m ≠ 0
      · exact Or.inl (reduced_turn hreduced hm hsome)
      · have hzero : ∀ i, m ≤ i → i < n → entry work' i m = 0 := fun i hmi hi => by
          by_contra hne
          exact hsome ⟨i, hmi, hi, hne⟩
        exact Or.inr ⟨pivotTurn_singular hreduced.wide hm hzero, not_isUnit_of_zero hreduced hm hzero⟩
    · exact Or.inr ⟨by rw [hrun]; rfl, hsingular⟩

/-! ## `I` -/

variable {a : Ndarray ℚ Dtype}

/-- The rows that the loop begins with. -/
def beginning (a : Ndarray ℚ Dtype) (n : Nat) : List (List ℚ) :=
  (List.range n).map fun i => (List.range n).map (fun j => a.data.getD (i * n + j) 0) ++ (List.range n).map fun j => if i = j then 1 else 0

theorem beginning_entry (a : Ndarray ℚ Dtype) {i j : Nat} (hi : i < n) (hj : j < n) :
    entry (beginning a n) i j = a.data.getD (i * n + j) 0 ∧ entry (beginning a n) i (n + j) = if i = j then 1 else 0 := by
  have hrow : (beginning a n).getD i [] =
      (List.range n).map (fun j => a.data.getD (i * n + j) 0) ++ (List.range n).map fun j => if i = j then 1 else 0 := by
    rw [beginning, List.getD_eq_getElem?_getD, List.getElem?_map, List.getElem?_range hi, Option.map_some, Option.getD_some]
  have hlength : ((List.range n).map fun j => a.data.getD (i * n + j) 0).length = n := by rw [List.length_map, List.length_range]
  rw [entry, entry, hrow]
  constructor
  · rw [List.getD_append _ _ _ _ (by omega), List.getD_eq_getElem?_getD, List.getElem?_map, List.getElem?_range hj, Option.map_some, Option.getD_some]
  · rw [List.getD_append_right _ _ _ _ (by omega), hlength, Nat.add_sub_cancel_left, List.getD_eq_getElem?_getD, List.getElem?_map,
      List.getElem?_range hj, Option.map_some, Option.getD_some]

theorem beginning_reduced (a : Ndarray ℚ Dtype) (n : Nat) : Reduced (toMatrix a n n) 0 (beginning a n) := by
  refine ⟨⟨by rw [beginning, List.length_map, List.length_range], fun row hrow => ?_⟩, ?_, fun i _ c hc => absurd hc c.not_lt_zero⟩
  · obtain ⟨i, -, rfl⟩ := List.mem_map.mp hrow
    rw [List.length_append, List.length_map, List.length_map, List.length_range, Nat.mul_two]
  · have hsame : augmented n (beginning a n) = fromCols (toMatrix a n n) 1 := by
      ext i s
      rcases s with j | j
      · exact (beginning_entry a i.isLt j.isLt).1
      · rw [fromCols_apply_inr, one_apply]
        refine ((beginning_entry a i.isLt j.isLt).2).trans (if_congr ?_ rfl rfl)
        exact Fin.ext_iff.symm
    rw [hsame]

/-- The rows are made without an error. -/
theorem beginning_run (hshape : a.shape = [(n : Int), (n : Int)]) : (List.range n).mapM (fun (row : Nat) => do
      let values ← (List.range n).mapM fun (col : Nat) => do
        let value ← item a.data (row * (n : Int) + col)
        ratNums.convert ratNums.float value
      pure (values ++ (List.range n).map fun col => if row = col then ratNums.real 1 else ratNums.real 0)) = .ok (beginning a n) := by
  refine mapM_ok fun i hi => ?_
  have hvalues : (List.range n).mapM (fun (col : Nat) => do
      let value ← item a.data (i * (n : Int) + col)
      ratNums.convert ratNums.float value) = .ok ((List.range n).map fun j => a.data.getD (i * n + j) 0) := by
    refine mapM_ok fun j hj => ?_
    have hlt : i * n + j < a.data.length := by
      rw [length_of_shape hshape]
      exact index_lt ⟨i, List.mem_range.mp hi⟩ ⟨j, List.mem_range.mp hj⟩
    have hindex : (i : Int) * n + j = ((i * n + j : Nat) : Int) := by rw [Int.natCast_add, Int.natCast_mul]
    obtain ⟨x, hitem, hx⟩ := item_of_inside (Int.natCast_nonneg (i * n + j)) (Int.ofNat_lt.mpr hlt)
    rw [Int.toNat_natCast] at hx
    rw [hindex, hitem, List.getD_eq_getElem?_getD, hx, Option.getD_some]
    rfl
  rw [hvalues]
  have hliterals : ((List.range n).map fun col => if i = col then ratNums.real 1 else ratNums.real 0) = (List.range n).map fun j => if i = j then 1 else 0 := by
    refine List.map_congr_left fun j _ => if_congr Iff.rfl ?_ ?_
    · exact Int.cast_one
    · exact Int.cast_zero
  rw [hliterals]
  rfl

theorem inverse_eq (hshape : a.shape = [(n : Int), (n : Int)]) : a.inverse ratNums = (do
    let work ← (List.range n).foldlM (Ndarray.pivotTurn ratNums n) (beginning a n)
    Ndarray.matrixFlat ((List.range n).flatMap fun row => (work.getD row []).drop n) (some Dtype.float) [(n : Int), (n : Int)]) := by
  unfold Ndarray.inverse
  rw [hshape]
  show (if (n : Int) ≠ n then _ else _) = _
  rw [if_neg fun h => h rfl, Int.toNat_natCast]
  show (do
    let work ← (List.range n).mapM fun (row : Nat) => do
      let values ← (List.range n).mapM fun (col : Nat) => do
        let value ← item a.data (row * (n : Int) + col)
        ratNums.convert ratNums.float value
      pure (values ++ (List.range n).map fun col => if row = col then ratNums.real 1 else ratNums.real 0)
    let work ← (List.range n).foldlM (Ndarray.pivotTurn ratNums n) work
    Ndarray.matrixFlat ((List.range n).flatMap fun row => (work.getD row []).drop n) (some Dtype.float) [(n : Int), (n : Int)]) = _
  rw [beginning_run hshape]
  rfl

/-- The right half is returned. -/
theorem rightHalf_shows (h : Wide n work) : ∃ b : Ndarray ℚ Dtype,
    Ndarray.matrixFlat ((List.range n).flatMap fun row => (work.getD row []).drop n) (some Dtype.float) [(n : Int), (n : Int)] = .ok b ∧
      Shows b (right n work) := by
  have hrow : ∀ i ∈ List.range n, ((work.getD i []).drop n).length = n := fun i hi => by
    obtain ⟨row, hget, hlength, -⟩ := h.row (List.mem_range.mp hi)
    rw [List.getD_eq_getElem?_getD, hget, Option.getD_some, List.length_drop]
    omega
  have hdata : ((List.range n).flatMap fun row => (work.getD row []).drop n) = rowMajor n n fun i j => entry work i (n + j) := by
    refine List.flatMap_congr fun i hi => List.ext_getElem? fun j => ?_
    by_cases hj : j < n
    · have hlt : n + j < (work.getD i []).length := by
        have := hrow i hi
        rw [List.length_drop] at this
        omega
      rw [List.getElem?_drop, List.getElem?_map, List.getElem?_range hj, Option.map_some, List.getElem?_eq_getElem hlt]
      show _ = some ((work.getD i []).getD (n + j) 0)
      rw [List.getD_eq_getElem _ _ hlt]
    · rw [List.getElem?_eq_none (by rw [hrow i hi]; omega), List.getElem?_eq_none (by rw [List.length_map, List.length_range]; omega)]
  exact ⟨_, by rw [hdata]; exact init_rowMajor n n _ _ _, shows_ofEntries fun _ _ => rfl⟩

theorem inverse_spec (ha : IsMat a n n) :
    (∃ b, a.inverse ratNums = .ok b ∧ IsUnit (toMatrix a n n) ∧ Shows b (toMatrix a n n)⁻¹) ∨
      a.inverse ratNums = .error (.valueError "singular matrix") ∧ ¬ IsUnit (toMatrix a n n) := by
  rw [inverse_eq ha.2]
  rcases pivots_spec (beginning_reduced a n) n (Nat.le_refl n) with ⟨work, hrun, hreduced⟩ | ⟨hrun, hsingular⟩
  · obtain ⟨b, hb, hshows⟩ := rightHalf_shows hreduced.wide
    have hleft : left n work = 1 := by
      ext i j
      rw [one_apply]
      exact (hreduced.column i i.isLt j j.isLt).trans (if_congr Fin.ext_iff.symm rfl rfl)
    have hinverse : toMatrix a n n * right n work = 1 := by
      refine inverse_of_kernel ?_
      rw [← hreduced.kernel, augmented_eq, hleft]
    refine Or.inl ⟨b, by rw [hrun]; exact hb, IsUnit.of_mul_eq_one _ hinverse, ?_⟩
    rwa [inv_eq_right_inv hinverse]
  · exact Or.inr ⟨by rw [hrun]; rfl, hsingular⟩

theorem toMatrix_eq {M : Matrix (Fin n) (Fin n) ℚ} (ha : Shows a M) : toMatrix a n n = M := by
  ext i j
  rw [toMatrix, List.getD_eq_getElem?_getD, ha.entry, Option.getD_some]

/-- What `I` does with a square matrix. The array that it takes stays, with the others. -/
structure InverseLaws (M : Matrix (Fin n) (Fin n) ℚ) (a : Ndarray ℚ Dtype) : Prop where
  singular : a.inverse ratNums = .error (.valueError "singular matrix") ↔ ¬ IsUnit M
  inverts : IsUnit M → ∃ b N, a.inverse ratNums = .ok b ∧ Shows b N ∧ M * N = 1 ∧ N * M = 1 ∧
    (∃ p, a.matrixTimes ratNums.toNums b = .ok p ∧ Shows p (1 : Matrix (Fin n) (Fin n) ℚ)) ∧
    (∃ q, b.matrixTimes ratNums.toNums a = .ok q ∧ Shows q (1 : Matrix (Fin n) (Fin n) ℚ)) ∧
    ∀ ops arrays, Run ratNums ops arrays → a ∈ arrays → Run ratNums (ops ++ [.inverse a]) (arrays ++ [b])

theorem inverseLaws (M : Matrix (Fin n) (Fin n) ℚ) (a : Ndarray ℚ Dtype) (ha : Shows a M) : InverseLaws M a := by
  have hspec := inverse_spec ⟨ha.isMatrix, ha.shape⟩
  rw [toMatrix_eq ha] at hspec
  rcases hspec with ⟨b, hinverse, hunit, hb⟩ | ⟨hraises, hsingular⟩
  · have hdet : IsUnit M.det := (isUnit_iff_isUnit_det M).mp hunit
    refine ⟨⟨fun hraises => ?_, fun hsingular => absurd hunit hsingular⟩, fun _ => ?_⟩
    · rw [hinverse] at hraises
      exact nomatch hraises
    · have hright : M * M⁻¹ = 1 := mul_nonsing_inv M hdet
      have hleft : M⁻¹ * M = 1 := nonsing_inv_mul M hdet
      obtain ⟨p, hp, hproduct⟩ := matrixTimes_shows exact_ratNums ha hb
      obtain ⟨q, hq, hproduct'⟩ := matrixTimes_shows exact_ratNums hb ha
      refine ⟨b, M⁻¹, hinverse, hb, hright, hleft, ⟨p, hp, hright ▸ hproduct⟩, ⟨q, hq, hleft ▸ hproduct'⟩, fun ops arrays hrun hmem => ?_⟩
      refine Run.make hrun (fun c hc => ?_) (by rw [Op.run, Op.one, hinverse]; rfl)
      obtain rfl := List.mem_singleton.mp hc
      exact hmem
  · exact ⟨⟨fun _ => hsingular, fun _ => hraises⟩, fun hunit => absurd hunit hsingular⟩

def testMatrix : Matrix (Fin 2) (Fin 2) ℚ := fun i j => if i = 0 then if j = 0 then 4 else 7 else if j = 0 then 2 else 6

theorem inverseLaws_test : InverseLaws testMatrix (ofEntries 2 2 (entryAt testMatrix) none true : Ndarray ℚ Dtype) :=
  inverseLaws testMatrix _ (shows_ofEntries (entryAt_fin testMatrix))

/-! ## Powers -/

theorem inverse_dtype {b : Ndarray ℚ Dtype} (ha : IsMat a n n) (h : a.inverse ratNums = .ok b) : b.dtype = some .float := by
  rw [inverse_eq ha.2] at h
  cases hrun : (List.range n).foldlM (Ndarray.pivotTurn ratNums n) (beginning a n) with
  | error e =>
    rw [hrun] at h
    cases h
  | ok work =>
    rw [hrun] at h
    have hinit : Ndarray.init ((List.range n).flatMap fun row => (work.getD row []).drop n) [(n : Int), (n : Int)] (some Dtype.float) true = .ok b := h
    unfold Ndarray.init at hinit
    split at hinit
    · cases hinit
      rfl
    · cases hinit

theorem keeps_float : Keeps ratNums.toNums (some Dtype.float) := ⟨congrArg Except.ok Int.cast_zero, congrArg Except.ok Int.cast_one⟩

end PythonUltra.Numpy
