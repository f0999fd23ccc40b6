/-
  PythonUltra.Pygame.Line — _draw_line (ports/sh/modules/pygame/__init__.py).

  The loop ends when both coordinates are those of the end point. On the longer axis it
  moves at every turn, on the other to the nearest pixel (`rounded`, halves upwards), so
  the two become equal at one turn; the shorter axis is the longer one of the line with its
  coordinates swapped (`drawLine_swap`).
-/

import Mathlib.Algebra.Order.Field.Basic
import Mathlib.Algebra.Order.Ring.Rat
import Mathlib.Data.List.Range
import Mathlib.Tactic.FieldSimp
import Mathlib.Tactic.Linarith
import Mathlib.Tactic.Positivity
import Mathlib.Tactic.Ring

namespace PythonUltra.Pygame

variable {σ ε : Type}

/-- `while True` in `_draw_line`, where `put` is `surface._put565` with the colour. none: out of fuel. -/
def drawLineLoop (put : σ → Int → Int → Except ε σ) (x1 y1 dx dy sx sy : Int) : Nat → Int → Int → Int → σ → Option (Except ε σ)
  | 0, _, _, _, _ => none
  | fuel + 1, x0, y0, err, surface =>
    match put surface x0 y0 with
    | .error e => some (.error e)
    | .ok surface =>
      if x0 = x1 ∧ y0 = y1 then some (.ok surface)
      else
        let twice := 2 * err
        let (err, x0) := if twice ≥ dy then (err + dy, x0 + sx) else (err, x0)
        let (err, y0) := if twice ≤ dx then (err + dx, y0 + sy) else (err, y0)
        drawLineLoop put x1 y1 dx dy sx sy fuel x0 y0 err surface

/-- `_draw_line` -/
def drawLine (put : σ → Int → Int → Except ε σ) (fuel : Nat) (surface : σ) (start finish : Int × Int) : Option (Except ε σ) :=
  let (x0, y0) := start
  let (x1, y1) := finish
  let dx := |x1 - x0|
  let sx := if x0 < x1 then 1 else -1
  let dy := -|y1 - y0|
  let sy := if y0 < y1 then 1 else -1
  let err := dx + dy
  drawLineLoop put x1 y1 dx dy sx sy fuel x0 y0 err surface

/-- The pixels of a list, plotted one after the other. -/
def plotAll (put : σ → Int → Int → Except ε σ) (surface : σ) (points : List (Int × Int)) : Except ε σ :=
  points.foldlM (fun surface p => put surface p.1 p.2) surface

/-- Chebyshev distance -/
def chebyshev (p q : Int × Int) : Int := max |q.1 - p.1| |q.2 - p.2|

/-- `p` is within a half, on the shorter axis, of the point of the segment that is at its place on the longer one. -/
def NearSegment (start finish p : Int × Int) : Prop :=
  ∃ t : ℚ, 0 ≤ t ∧ t ≤ 1 ∧
    if |finish.2 - start.2| ≤ |finish.1 - start.1| then
      (p.1 : ℚ) = start.1 + t * (finish.1 - start.1) ∧ |(p.2 : ℚ) - (start.2 + t * (finish.2 - start.2))| ≤ 1 / 2
    else
      (p.2 : ℚ) = start.2 + t * (finish.2 - start.2) ∧ |(p.1 : ℚ) - (start.1 + t * (finish.1 - start.1))| ≤ 1 / 2

/-- What `points` have to be for a line from `start` to `finish`. -/
structure Traces (start finish : Int × Int) (points : List (Int × Int)) : Prop where
  count : (points.length : Int) = chebyshev start finish + 1
  first : points.head? = some start
  last : points.getLast? = some finish
  next : points.IsChain fun p q => chebyshev p q = 1
  near : ∀ p ∈ points, NearSegment start finish p

/-! ## Swapped coordinates -/

theorem drawLineLoop_swap (put : σ → Int → Int → Except ε σ) (x1 y1 dx dy sx sy : Int) (fuel : Nat) (x0 y0 err : Int) (surface : σ) :
    drawLineLoop put x1 y1 dx dy sx sy fuel x0 y0 err surface =
      drawLineLoop (fun s x y => put s y x) y1 x1 (-dy) (-dx) sy sx fuel y0 x0 (-err) surface := by
  induction fuel generalizing x0 y0 err surface with
  | zero => rfl
  | succ fuel ih =>
    unfold drawLineLoop
    rcases put surface x0 y0 with e | surface
    · rfl
    · by_cases hend : x0 = x1 ∧ y0 = y1
      · simp [hend]
      · have hend' : ¬(y0 = y1 ∧ x0 = x1) := fun h => hend ⟨h.2, h.1⟩
        have hx : 2 * -err ≤ -dy ↔ 2 * err ≥ dy := by omega
        have hy : 2 * -err ≥ -dx ↔ 2 * err ≤ dx := by omega
        simp only [if_neg hend, if_neg hend', hx, hy, ih]
        by_cases hx : 2 * err ≥ dy <;> by_cases hy : 2 * err ≤ dx
        all_goals simp only [hx, hy, if_true, if_false, neg_add, add_right_comm]

theorem drawLine_swap (put : σ → Int → Int → Except ε σ) (fuel : Nat) (surface : σ) (start finish : Int × Int) :
    drawLine put fuel surface start finish = drawLine (fun s x y => put s y x) fuel surface start.swap finish.swap := by
  obtain ⟨x0, y0⟩ := start
  obtain ⟨x1, y1⟩ := finish
  simp only [drawLine, Prod.swap_prod_mk]
  rw [drawLineLoop_swap, neg_neg, neg_add, neg_neg, add_comm (-_)]

/-! ## The nearest pixel -/

/-- How far a line of `b` pixels for `a` has got on the shorter axis after `i` on the longer one. -/
def rounded (a b i : Nat) : Nat := (2 * (b * i) + a) / (2 * a)

variable {a b i : Nat}

theorem rounded_bounds (ha : 0 < a) : 2 * (a * rounded a b i) ≤ 2 * (b * i) + a ∧ 2 * (b * i) + a < 2 * (a * rounded a b i) + 2 * a := by
  have hle := Nat.mul_div_le (2 * (b * i) + a) (2 * a)
  have hlt := Nat.lt_mul_div_succ (2 * (b * i) + a) (show 0 < 2 * a by omega)
  rw [Nat.mul_add, Nat.mul_one] at hlt
  rw [Nat.mul_assoc] at hle hlt
  exact ⟨hle, hlt⟩

theorem rounded_eq {r : Nat} (hle : 2 * (a * r) ≤ 2 * (b * i) + a) (hlt : 2 * (b * i) + a < 2 * (a * r) + 2 * a) : rounded a b i = r := by
  apply Nat.div_eq_of_lt_le
  · calc r * (2 * a) = 2 * (a * r) := by ring
      _ ≤ _ := hle
  · calc _ < 2 * (a * r) + 2 * a := hlt
      _ = (r + 1) * (2 * a) := by ring

theorem rounded_zero (ha : 0 < a) : rounded a b 0 = 0 := by
  apply rounded_eq <;> omega

theorem rounded_last (ha : 0 < a) : rounded a b a = b := by
  apply rounded_eq <;> rw [Nat.mul_comm b a] <;> omega

theorem rounded_succ (ha : 0 < a) (hba : b ≤ a) :
    rounded a b (i + 1) = if 2 * (a * rounded a b i) + a ≤ 2 * (b * i) + 2 * b then rounded a b i + 1 else rounded a b i := by
  obtain ⟨hle, hlt⟩ := @rounded_bounds a b i ha
  apply rounded_eq <;> rw [Nat.mul_succ] <;> split <;> (try rw [Nat.mul_succ]) <;> omega

/-- The pixel of a line from `p` after `i` on the longer axis, which is `x`. -/
def pixelAt (p : Int × Int) (sx sy : Int) (a b i : Nat) : Int × Int := (p.1 + sx * i, p.2 + sy * rounded a b i)

/-- What the loop has for `err` at the pixel `i`. -/
def errAt (a b i : Nat) : Int := a * (rounded a b i + 1) - b * (i + 1)

variable {sx : Int}

/-- One turn on the way: to the next pixel. -/
theorem drawLineLoop_turn (put : σ → Int → Int → Except ε σ) (p : Int × Int) (sy : Int) (hsx : sx ≠ 0) (hba : b ≤ a) (hi : i < a)
    (fuel : Nat) {surface surface' : σ} (hput : put surface (pixelAt p sx sy a b i).1 (pixelAt p sx sy a b i).2 = .ok surface') :
    drawLineLoop put (p.1 + sx * a) (p.2 + sy * b) a (-b) sx sy (fuel + 1) (pixelAt p sx sy a b i).1 (pixelAt p sx sy a b i).2 (errAt a b i) surface =
      drawLineLoop put (p.1 + sx * a) (p.2 + sy * b) a (-b) sx sy fuel (pixelAt p sx sy a b (i + 1)).1 (pixelAt p sx sy a b (i + 1)).2
        (errAt a b (i + 1)) surface' := by
  have ha : 0 < a := by omega
  have hne : ¬((pixelAt p sx sy a b i).1 = p.1 + sx * a ∧ (pixelAt p sx sy a b i).2 = p.2 + sy * b) := by
    rintro ⟨he, -⟩
    have : (i : Int) = a := mul_left_cancel₀ hsx (add_left_cancel he)
    omega
  obtain ⟨hle, hlt⟩ := @rounded_bounds a b i ha
  have herr : errAt a b i = a * rounded a b i + a - (b * i + b) := by
    unfold errAt
    ring
  have hx : 2 * errAt a b i ≥ -b := by
    rw [herr]
    zify at hle hlt
    omega
  have hy : 2 * errAt a b i ≤ a ↔ 2 * (a * rounded a b i) + a ≤ 2 * (b * i) + 2 * b := by
    rw [herr]
    zify
    omega
  rw [drawLineLoop, hput]
  simp only [if_neg hne, if_pos hx]
  by_cases hup : 2 * (a * rounded a b i) + a ≤ 2 * (b * i) + 2 * b
  · have hnext : rounded a b (i + 1) = rounded a b i + 1 := by rw [rounded_succ ha hba, if_pos hup]
    rw [if_pos (hy.mpr hup)]
    simp only [pixelAt, errAt, hnext]
    congr 1 <;> push_cast <;> ring
  · have hnext : rounded a b (i + 1) = rounded a b i := by rw [rounded_succ ha hba, if_neg hup]
    rw [if_neg fun h => hup (hy.mp h)]
    simp only [pixelAt, errAt, hnext]
    congr 1 <;> push_cast <;> ring

/-- From the pixel `i` the loop plots the others, and ends at the last one. -/
theorem drawLineLoop_points (put : σ → Int → Int → Except ε σ) (p : Int × Int) (sy : Int) (hsx : sx ≠ 0) (ha : 0 < a) (hba : b ≤ a)
    (n : Nat) (hi : i + n = a) (extra : Nat) (surface : σ) :
    drawLineLoop put (p.1 + sx * a) (p.2 + sy * b) a (-b) sx sy (n + 1 + extra) (pixelAt p sx sy a b i).1 (pixelAt p sx sy a b i).2
        (errAt a b i) surface =
      some (plotAll put surface ((List.range' i (n + 1)).map (pixelAt p sx sy a b))) := by
  induction n generalizing i surface with
  | zero =>
    obtain rfl : i = a := hi
    have hlast : pixelAt p sx sy i b i = (p.1 + sx * i, p.2 + sy * b) := by rw [pixelAt, rounded_last ha]
    rw [Nat.add_comm (0 + 1), drawLineLoop, List.range'_one, List.map_singleton, plotAll, hlast]
    simp only [List.foldlM_cons]
    cases put surface (p.1 + sx * i) (p.2 + sy * b) with
    | error e => rfl
    | ok surface => simp
  | succ n ih =>
    rw [List.range'_succ, List.map_cons, plotAll, List.foldlM_cons, Nat.add_right_comm]
    cases hput : put surface (pixelAt p sx sy a b i).1 (pixelAt p sx sy a b i).2 with
    | error e =>
      rw [drawLineLoop, hput]
      rfl
    | ok surface =>
      rw [drawLineLoop_turn put p sy hsx hba (by omega) _ hput]
      exact ih (by omega) surface

/-! ## The line -/

/-- The pixels of a line that goes `a` along x and `b` along y. -/
def pixels (p : Int × Int) (sx sy : Int) (a b : Nat) : List (Int × Int) := (List.range (a + 1)).map (pixelAt p sx sy a b)

theorem pixelAt_near {p : Int × Int} {sy : Int} (hsx : |sx| = 1) (hsy : |sy| = 1) (ha : 0 < a) (hba : b ≤ a) (hi : i ≤ a) :
    NearSegment p (p.1 + sx * a, p.2 + sy * b) (pixelAt p sx sy a b i) := by
  have hlong : |p.2 + sy * b - p.2| ≤ |p.1 + sx * a - p.1| := by
    rw [add_sub_cancel_left, add_sub_cancel_left, abs_mul, abs_mul, hsx, hsy, one_mul, one_mul, Nat.abs_cast, Nat.abs_cast]
    exact_mod_cast hba
  have ha' : (0 : ℚ) < a := by exact_mod_cast ha
  obtain ⟨hle, hlt⟩ := @rounded_bounds a b i ha
  have hsy' : |(sy : ℚ)| = 1 := by exact_mod_cast hsy
  refine ⟨i / a, by positivity, ?_, ?_⟩
  · rw [div_le_one ha']
    exact_mod_cast hi
  · rw [if_pos hlong]
    constructor
    · simp only [pixelAt]
      push_cast
      field_simp
      ring
    · have he : ((pixelAt p sx sy a b i).2 : ℚ) - (p.2 + i / a * (((p.2 + sy * b : Int) : ℚ) - p.2)) =
          sy * ((a * rounded a b i - b * i) / a) := by
        simp only [pixelAt]
        push_cast
        field_simp
        ring
      rw [he, abs_mul, hsy', one_mul, abs_div, abs_of_pos ha', div_le_iff₀ ha', abs_le]
      have hle' : 2 * ((a : ℚ) * rounded a b i) ≤ 2 * (b * i) + a := by exact_mod_cast hle
      have hlt' : 2 * ((b : ℚ) * i) + a < 2 * (a * rounded a b i) + 2 * a := by exact_mod_cast hlt
      constructor <;> linarith

theorem pixelAt_next {p : Int × Int} {sy : Int} (hsx : |sx| = 1) (hsy : |sy| = 1) (ha : 0 < a) (hba : b ≤ a) :
    chebyshev (pixelAt p sx sy a b i) (pixelAt p sx sy a b (i + 1)) = 1 := by
  have hx : (pixelAt p sx sy a b (i + 1)).1 - (pixelAt p sx sy a b i).1 = sx := by
    simp only [pixelAt]
    push_cast
    ring
  have hy : |(pixelAt p sx sy a b (i + 1)).2 - (pixelAt p sx sy a b i).2| ≤ 1 := by
    simp only [pixelAt, rounded_succ ha hba]
    split
    · rw [show p.2 + sy * ((rounded a b i + 1 : Nat) : Int) - (p.2 + sy * rounded a b i) = sy by push_cast; ring, hsy]
    · simp
  rw [chebyshev, hx, hsx]
  exact max_eq_left hy

theorem chebyshev_along {p : Int × Int} {sy : Int} (hsx : |sx| = 1) (hsy : |sy| = 1) (hba : b ≤ a) :
    chebyshev p (p.1 + sx * a, p.2 + sy * b) = a := by
  rw [chebyshev, add_sub_cancel_left, add_sub_cancel_left, abs_mul, abs_mul, hsx, hsy, one_mul, one_mul, Nat.abs_cast, Nat.abs_cast]
  exact max_eq_left (by exact_mod_cast hba)

theorem pixels_traces {p : Int × Int} {sy : Int} (hsx : |sx| = 1) (hsy : |sy| = 1) (ha : 0 < a) (hba : b ≤ a) :
    Traces p (p.1 + sx * a, p.2 + sy * b) (pixels p sx sy a b) where
  count := by
    rw [chebyshev_along hsx hsy hba, pixels, List.length_map, List.length_range]
    push_cast
    rfl
  first := by
    rw [pixels, List.head?_map, List.head?_range, if_neg (Nat.succ_ne_zero a)]
    simp [pixelAt, rounded_zero ha]
  last := by
    rw [pixels, List.getLast?_map, List.getLast?_range, if_neg (Nat.succ_ne_zero a)]
    simp [pixelAt, rounded_last ha]
  next := by
    rw [pixels, List.isChain_map, List.isChain_range]
    intro i _
    exact pixelAt_next hsx hsy ha hba
  near := by
    intro q hq
    obtain ⟨i, hi, rfl⟩ := List.mem_map.mp hq
    exact pixelAt_near hsx hsy ha hba (by have := List.mem_range.mp hi; omega)

theorem point_traces (p : Int × Int) : Traces p p [p] where
  count := by simp [chebyshev]
  first := rfl
  last := rfl
  next := List.IsChain.singleton p
  near := by
    intro q hq
    rw [List.mem_singleton] at hq
    subst hq
    exact ⟨0, le_refl 0, zero_le_one, by simp⟩

theorem toward (c d : Int) : |(if c < d then 1 else -1 : Int)| = 1 ∧ c + (if c < d then 1 else -1) * ((d - c).natAbs : Int) = d := by
  split <;> constructor <;> first | rfl | omega

/-- A line that is at least as long along x as along y. -/
theorem drawLine_long {start finish : Int × Int} (hlong : |finish.2 - start.2| ≤ |finish.1 - start.1|) :
    ∃ points, Traces start finish points ∧
      ∀ {σ ε : Type} (put : σ → Int → Int → Except ε σ) (surface : σ) (fuel : Nat), chebyshev start finish < fuel →
        drawLine put fuel surface start finish = some (plotAll put surface points) := by
  have hba : (finish.2 - start.2).natAbs ≤ (finish.1 - start.1).natAbs := by
    rw [Int.abs_eq_natAbs, Int.abs_eq_natAbs] at hlong
    omega
  rcases Nat.eq_zero_or_pos (finish.1 - start.1).natAbs with ha | ha
  · have hsame : finish = start := by
      apply Prod.ext <;> omega
    subst hsame
    refine ⟨[finish], point_traces finish, fun put surface fuel hfuel => ?_⟩
    rw [chebyshev, sub_self, sub_self, abs_zero, max_self] at hfuel
    obtain ⟨fuel, rfl⟩ : ∃ n, fuel = n + 1 := ⟨fuel - 1, by omega⟩
    simp only [drawLine, drawLineLoop, plotAll, List.foldlM_cons, List.foldlM_nil]
    cases put surface finish.1 finish.2 with
    | error e => rfl
    | ok surface => simp
  · obtain ⟨x0, y0⟩ := start
    obtain ⟨x1, y1⟩ := finish
    obtain ⟨hsx, hx1⟩ := toward x0 x1
    obtain ⟨hsy, hy1⟩ := toward y0 y1
    have htraces := @pixels_traces _ _ _ (x0, y0) _ hsx hsy ha hba
    have hdist := chebyshev_along (p := (x0, y0)) hsx hsy hba
    simp only [hx1, hy1] at htraces hdist
    refine ⟨_, htraces, fun put surface fuel hfuel => ?_⟩
    obtain ⟨extra, rfl⟩ : ∃ extra, fuel = (x1 - x0).natAbs + 1 + extra := ⟨fuel - ((x1 - x0).natAbs + 1), by omega⟩
    have hne : (if x0 < x1 then 1 else -1 : Int) ≠ 0 := by split <;> simp
    have hrun := drawLineLoop_points put (x0, y0) (if y0 < y1 then 1 else -1) hne ha hba _ (Nat.zero_add _) extra surface
    simp only [hx1, hy1, pixelAt, errAt, rounded_zero ha, Nat.cast_zero, mul_zero, add_zero, zero_add, mul_one] at hrun
    simp only [drawLine, Int.abs_eq_natAbs, pixels, List.range_eq_range', ← Int.sub_eq_add_neg]
    exact hrun

theorem Traces.swap {start finish : Int × Int} {points : List (Int × Int)} (hsteep : |finish.1 - start.1| < |finish.2 - start.2|)
    (h : Traces start.swap finish.swap points) : Traces start finish (points.map Prod.swap) where
  count := by
    rw [List.length_map, h.count, chebyshev, chebyshev, max_comm]
    rfl
  first := by
    rw [List.head?_map, h.first]
    rfl
  last := by
    rw [List.getLast?_map, h.last]
    rfl
  next := by
    rw [List.isChain_map]
    refine h.next.imp fun p q hpq => ?_
    rw [← hpq, chebyshev, chebyshev, max_comm]
    rfl
  near := by
    intro q hq
    obtain ⟨p, hp, rfl⟩ := List.mem_map.mp hq
    obtain ⟨t, h0, h1, ht⟩ := h.near p hp
    rw [if_pos (show |finish.swap.2 - start.swap.2| ≤ |finish.swap.1 - start.swap.1| from le_of_lt hsteep)] at ht
    exact ⟨t, h0, h1, by rwa [if_neg (not_le.mpr hsteep)]⟩

/-- The line plots the pixels one after the other, with any fuel that is more than the distance. -/
theorem drawLine_traces (start finish : Int × Int) :
    ∃ points, Traces start finish points ∧
      ∀ {σ ε : Type} (put : σ → Int → Int → Except ε σ) (surface : σ) (fuel : Nat), chebyshev start finish < fuel →
        drawLine put fuel surface start finish = some (plotAll put surface points) := by
  rcases le_or_gt |finish.2 - start.2| |finish.1 - start.1| with hlong | hsteep
  · exact drawLine_long hlong
  · obtain ⟨points, htraces, hrun⟩ := @drawLine_long start.swap finish.swap (le_of_lt hsteep)
    refine ⟨points.map Prod.swap, htraces.swap hsteep, fun put surface fuel hfuel => ?_⟩
    rw [drawLine_swap, hrun _ _ _ (by rwa [chebyshev, max_comm]), plotAll, plotAll, List.foldlM_map]
    rfl

end PythonUltra.Pygame
