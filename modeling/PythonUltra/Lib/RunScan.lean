/-
  PythonUltra.Lib.RunScan — the search for a run of cells that satisfy a predicate.

  `scan p need m x n` looks at `m` cells from `x` on, when the `n` cells before `x` satisfy
  `p` already; it stops at the first cell that ends a run of `need`. `Before` is what is
  known in between: no run has ended yet, and the cell before the `n` does not satisfy `p`.
-/

namespace PythonUltra.Lib.RunScan

/-- The last cell of the run, and how many it has. -/
def scan (p : Nat → Bool) (need : Nat) : Nat → Nat → Nat → Option (Nat × Nat)
  | 0, _, _ => none
  | m + 1, x, n => if p x then (if n + 1 ≥ need then some (x, n + 1) else scan p need m (x + 1) (n + 1)) else scan p need m (x + 1) 0

theorem scan_succ (p : Nat → Bool) (need m x n : Nat) :
    scan p need (m + 1) x n =
      if p x = true ∧ (if p x = true then n + 1 else 0) ≥ need then some (x, if p x = true then n + 1 else 0)
      else scan p need m (x + 1) (if p x = true then n + 1 else 0) := by
  cases hx : p x <;> simp [scan, hx]

/-- Cells `x` to `x + need` satisfy the predicate. -/
def Run (p : Nat → Bool) (need x : Nat) : Prop := ∀ y, x ≤ y → y < x + need → p y = true

/-- From cell `lo` on, before cell `x`. -/
structure Before (p : Nat → Bool) (need lo x n : Nat) : Prop where
  le : lo + n ≤ x
  short : n < need
  run : Run p n (x - n)
  longest : lo + n = x ∨ p (x - n - 1) = false
  none : ∀ s, lo ≤ s → s + need ≤ x → ¬ Run p need s

variable {p : Nat → Bool} {need lo m x n : Nat}

theorem Before.start (hneed : 0 < need) : Before p need lo lo 0 :=
  ⟨Nat.le_refl _, hneed, fun y h1 h2 => by omega, .inl rfl, fun s h1 h2 => by omega⟩

theorem Before.miss (h : Before p need lo x n) (hx : p x = false) : Before p need lo (x + 1) 0 := by
  have hle := h.le
  have hshort := h.short
  refine ⟨by omega, by omega, fun y h1 h2 => by omega, .inr hx, fun s h1 h2 hrun => ?_⟩
  by_cases hs : s + need ≤ x
  · exact h.none s h1 hs hrun
  · have := hrun x (by omega) (by omega)
    rw [hx] at this
    exact absurd this (by decide)

theorem Before.hit (h : Before p need lo x n) (hx : p x = true) (hn : n + 1 < need) : Before p need lo (x + 1) (n + 1) := by
  have hle := h.le
  have hsub : x + 1 - (n + 1) = x - n := by omega
  refine ⟨by omega, hn, fun y h1 h2 => ?_, ?_, fun s h1 h2 hrun => ?_⟩
  · by_cases hy : y = x
    · rw [hy]
      exact hx
    · exact h.run y (by omega) (by omega)
  · rw [hsub]
    exact h.longest.imp (by omega) id
  · by_cases hs : s + need ≤ x
    · exact h.none s h1 hs hrun
    · rcases h.longest with hlo | hstop
      · omega
      · have := hrun (x - n - 1) (by omega) (by omega)
        rw [hstop] at this
        exact absurd this (by decide)

/-- The run found is the first one, and has no more cells than needed. -/
theorem scan_some {e f : Nat} (h : Before p need lo x n) (hs : scan p need m x n = some (e, f)) :
    f = need ∧ x ≤ e ∧ e < x + m ∧ lo + need ≤ e + 1 ∧ Run p need (e + 1 - need) ∧ ∀ s, lo ≤ s → s + need ≤ e → ¬ Run p need s := by
  induction m generalizing x n with
  | zero => exact absurd hs (by simp [scan])
  | succ m ih =>
    have hle := h.le
    have hshort := h.short
    rw [scan] at hs
    cases hx : p x with
    | false =>
      rw [hx, if_neg (by decide)] at hs
      obtain ⟨h1, h2, h3, h4⟩ := ih (h.miss hx) hs
      exact ⟨h1, by omega, by omega, h4⟩
    | true =>
      rw [hx, if_pos rfl] at hs
      by_cases hn : n + 1 ≥ need
      · rw [if_pos hn] at hs
        obtain ⟨rfl, rfl⟩ := Prod.mk.inj (Option.some.inj hs)
        obtain rfl : need = n + 1 := by omega
        refine ⟨rfl, Nat.le_refl _, by omega, by omega, fun y h1 h2 => ?_, h.none⟩
        by_cases hy : y = x
        · rw [hy]
          exact hx
        · exact h.run y (by omega) (by omega)
      · rw [if_neg hn] at hs
        obtain ⟨h1, h2, h3, h4⟩ := ih (h.hit hx (by omega)) hs
        exact ⟨h1, by omega, by omega, h4⟩

/-- Nothing found: there is no run. -/
theorem scan_none (h : Before p need lo x n) (hs : scan p need m x n = none) : ∀ s, lo ≤ s → s + need ≤ x + m → ¬ Run p need s := by
  induction m generalizing x n with
  | zero => exact h.none
  | succ m ih =>
    rw [scan] at hs
    intro s h1 h2
    cases hx : p x with
    | false =>
      rw [hx, if_neg (by decide)] at hs
      exact ih (h.miss hx) hs s h1 (by omega)
    | true =>
      rw [hx, if_pos rfl] at hs
      by_cases hn : n + 1 ≥ need
      · rw [if_pos hn] at hs
        exact absurd hs (by simp)
      · rw [if_neg hn] at hs
        exact ih (h.hit hx (by omega)) hs s h1 (by omega)

end PythonUltra.Lib.RunScan
