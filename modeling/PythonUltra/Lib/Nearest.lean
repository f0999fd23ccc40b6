/-
  PythonUltra.Lib.Nearest — the nearest of the values that a format has.

  The values are those of an increasing sequence up to `N`; a tie goes to the higher one.
  Nearest to all of them is what is on the right side of two midpoints (`isNearest_iff`), so
  there is at most one (`IsNearest.unique`).
-/

import Mathlib.Algebra.Order.Ring.Abs
import Mathlib.Tactic.Linarith

namespace PythonUltra.Lib

variable {α : Type} [CommRing α] [LinearOrder α] [IsStrictOrderedRing α] {f : Nat → α} {N p q : Nat} {v : α}

/-- `f p` is the nearest to `v` of `f 0`, …, `f N`, and the highest such. -/
def IsNearest (f : Nat → α) (N : Nat) (v : α) (p : Nat) : Prop :=
  p ≤ N ∧ ∀ q ≤ N, |v - f p| ≤ |v - f q| ∧ (|v - f p| = |v - f q| → f q ≤ f p)

/-- Of two values the higher one is at least as near from their midpoint on. -/
theorem abs_sub_le_iff_mid {a b : α} (hab : a < b) : |v - b| ≤ |v - a| ↔ a + b ≤ 2 * v := by
  constructor
  · intro h
    by_contra hmid
    rcases abs_cases (v - b) with ⟨hb, hb'⟩ | ⟨hb, hb'⟩ <;> rcases abs_cases (v - a) with ⟨ha, ha'⟩ | ⟨ha, ha'⟩ <;> linarith
  · intro h
    rcases abs_cases (v - b) with ⟨hb, hb'⟩ | ⟨hb, hb'⟩ <;> rcases abs_cases (v - a) with ⟨ha, ha'⟩ | ⟨ha, ha'⟩ <;> linarith

theorem isNearest_iff (hf : StrictMono f) :
    IsNearest f N v p ↔ p ≤ N ∧ (∀ q, q + 1 = p → f q + f p ≤ 2 * v) ∧ (p < N → 2 * v < f p + f (p + 1)) := by
  constructor
  · rintro ⟨hp, hnear⟩
    refine ⟨hp, ?_, ?_⟩
    · intro q hq
      exact (abs_sub_le_iff_mid (hf (by omega))).mp (hnear q (by omega)).1
    · intro hlt
      by_contra hmid
      have hup : f p < f (p + 1) := hf (Nat.lt_succ_self p)
      obtain ⟨hle, htie⟩ := hnear (p + 1) hlt
      have hge := (abs_sub_le_iff_mid hup).mpr (not_lt.mp hmid)
      exact absurd (htie (le_antisymm hle hge)) (not_le.mpr hup)
  · rintro ⟨hp, hlow, hhigh⟩
    refine ⟨hp, fun q hq => ?_⟩
    rcases Nat.lt_trichotomy q p with hlt | rfl | hgt
    · obtain ⟨k, rfl⟩ := Nat.exists_eq_add_of_lt hlt
      have hmono : f q ≤ f (q + k) := hf.monotone (Nat.le_add_right q k)
      have hmid := hlow (q + k) rfl
      exact ⟨(abs_sub_le_iff_mid (hf hlt)).mpr (by linarith), fun _ => (hf hlt).le⟩
    · exact ⟨le_refl _, fun _ => le_refl _⟩
    · have hmono : f (p + 1) ≤ f q := hf.monotone hgt
      have hmid := hhigh (by omega)
      have hless : ¬ |v - f q| ≤ |v - f p| := by
        rw [abs_sub_le_iff_mid (hf hgt)]
        exact not_le.mpr (by linarith)
      exact ⟨(not_le.mp hless).le, fun htie => absurd htie.ge hless⟩

omit [IsStrictOrderedRing α] in
theorem IsNearest.unique (hf : StrictMono f) (hp : IsNearest f N v p) (hq : IsNearest f N v q) : p = q := by
  obtain ⟨hple, hp'⟩ := hp
  obtain ⟨hqle, hq'⟩ := hq
  have htie : |v - f p| = |v - f q| := le_antisymm (hp' q hqle).1 (hq' p hple).1
  exact hf.injective (le_antisymm ((hq' p hple).2 htie.symm) ((hp' q hqle).2 htie))

theorem isNearest_self (hf : StrictMono f) (hp : p ≤ N) : IsNearest f N (f p) p := by
  refine (isNearest_iff hf).mpr ⟨hp, ?_, ?_⟩
  · intro q hq
    have hlt : f q < f p := hf (by omega)
    linarith
  · intro _
    have hlt : f p < f (p + 1) := hf (Nat.lt_succ_self p)
    linarith

end PythonUltra.Lib
