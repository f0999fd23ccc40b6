/-
  PythonUltra.Sh.Triangle — the filled triangle of gint.dtriangle (modgint.c).

  The vertices are sorted by y with three compare-and-swaps; each scanline goes from the
  long edge to one of the two short ones, whose x are interpolated in 16.16 fixed point.
  Every sum, difference, product and shift is checked against its C type: `none` is an
  overflow. (A left shift is the product with 2^16, as the compiler has it for negative
  operands too; the final conversion to int is checked as well.) The loop is given one
  turn for each scanline, which is enough: `loop_eq` holds with any number above it, and
  what overflows does so within it (`fits_of_loop`).

  Proved: with int arguments the function returns the spans of the exact arithmetic if and
  only if `TriangleFits`, and overflows otherwise (`dtriangle_exact_iff`).
-/

import Mathlib.Data.Int.DivMod
import Mathlib.Tactic.Linarith
import Mathlib.Tactic.Ring

namespace PythonUltra.Sh.Triangle

/-- A C `int`. -/
def IsInt (x : Int) : Prop := -2 ^ 31 ≤ x ∧ x < 2 ^ 31

instance (x : Int) : Decidable (IsInt x) := inferInstanceAs (Decidable (_ ∧ _))

/-- An `int` computation. -/
def int32 (x : Int) : Option Int := if IsInt x then some x else none

/-- An `int64_t` computation. -/
def int64 (x : Int) : Option Int := if -2 ^ 63 ≤ x ∧ x < 2 ^ 63 then some x else none

structure Vertex where
  x : Int
  y : Int
  deriving DecidableEq, Repr

/-- A call of dline. -/
structure Line where
  x1 : Int
  y1 : Int
  x2 : Int
  y2 : Int
  color : Int
  deriving DecidableEq, Repr

/-- `modgint_swap_vertex`, where the first vertex is the lower one on the screen. -/
def swapVertex (p q : Vertex) : Vertex × Vertex := if p.y > q.y then (q, p) else (p, q)

/-- The vertices from the smallest y to the largest. -/
def sortVertices (p q r : Vertex) : Vertex × Vertex × Vertex :=
  let (p, q) := swapVertex p q
  let (q, r) := swapVertex q r
  let (p, q) := swapVertex p q
  (p, q, r)

/-- The x of the edge from `u` down to `l`, in 16.16. -/
def edgeX (u l : Vertex) (y : Int) : Option Int := do
  let dx ← int32 (l.x - u.x)
  let dy ← int32 (y - u.y)
  let product ← int64 (dx * dy)
  let shifted ← int64 (product * 2 ^ 16)
  let height ← int32 (l.y - u.y)
  let x ← int64 (u.x * 2 ^ 16)
  int64 (x + shifted.tdiv height)

/-- The x of the edge through `v1` on the other side. -/
def shortX (v0 v1 v2 : Vertex) (y : Int) : Option Int :=
  if y < v1.y ∧ v1.y ≠ v0.y then edgeX v0 v1 y
  else if v2.y ≠ v1.y then edgeX v1 v2 y
  else int64 (v1.x * 2 ^ 16)

/-- The body of the scanline loop. -/
def scanline (v0 v1 v2 : Vertex) (color y : Int) : Option Line := do
  let xa ← edgeX v0 v2 y
  let xb ← shortX v0 v1 v2 y
  let a ← int32 (xa >>> (16 : Nat))
  let b ← int32 (xb >>> (16 : Nat))
  let (a, b) := if a > b then (b, a) else (a, b)
  return ⟨a, y, b, y, color⟩

/-- `for(int y = …; y <= y2; y++)`. -/
def loop (v0 v1 v2 : Vertex) (color : Int) : Nat → Int → Option (List Line)
  | 0, _ => some []
  | turns + 1, y =>
    if y ≤ v2.y then do
      let line ← scanline v0 v1 v2 color y
      let y ← int32 (y + 1)
      let lines ← loop v0 v1 v2 color turns y
      return line :: lines
    else some []

def dtriangle (x0 y0 x1 y1 x2 y2 color : Int) : Option (List Line) :=
  let (v0, v1, v2) := sortVertices ⟨x0, y0⟩ ⟨x1, y1⟩ ⟨x2, y2⟩
  if v0.y = v2.y then
    let xmin := v0.x
    let xmax := v0.x
    let xmin := if v1.x < xmin then v1.x else xmin
    let xmin := if v2.x < xmin then v2.x else xmin
    let xmax := if v1.x > xmax then v1.x else xmax
    let xmax := if v2.x > xmax then v2.x else xmax
    some [⟨xmin, v0.y, xmax, v0.y, color⟩]
  else loop v0 v1 v2 color (v2.y + 1 - v0.y).toNat v0.y

/-! ## The exact arithmetic -/

/-- The x of the edge in 16.16, in unbounded integers. -/
def edge (u l : Vertex) (y : Int) : Int := u.x * 2 ^ 16 + ((l.x - u.x) * (y - u.y) * 2 ^ 16).tdiv (l.y - u.y)

/-- The pixel of the edge on a scanline. -/
def edgePixel (u l : Vertex) (y : Int) : Int := edge u l y / 2 ^ 16

/-- The pixel of the short edges on a scanline. -/
def shortPixel (v0 v1 v2 : Vertex) (y : Int) : Int :=
  if y < v1.y ∧ v1.y ≠ v0.y then edgePixel v0 v1 y else if v2.y ≠ v1.y then edgePixel v1 v2 y else v1.x

def exactLine (v0 v1 v2 : Vertex) (color y : Int) : Line :=
  ⟨min (edgePixel v0 v2 y) (shortPixel v0 v1 v2 y), y, max (edgePixel v0 v2 y) (shortPixel v0 v1 v2 y), y, color⟩

/-- The spans of sorted vertices. -/
def exactLines (v0 v1 v2 : Vertex) (color : Int) : List Line :=
  if v0.y = v2.y then [⟨min (min v0.x v1.x) v2.x, v0.y, max (max v0.x v1.x) v2.x, v0.y, color⟩]
  else (List.range (v2.y + 1 - v0.y).toNat).map fun (i : Nat) => exactLine v0 v1 v2 color (v0.y + i)

def exactTriangle (x0 y0 x1 y1 x2 y2 color : Int) : List Line :=
  let (v0, v1, v2) := sortVertices ⟨x0, y0⟩ ⟨x1, y1⟩ ⟨x2, y2⟩
  exactLines v0 v1 v2 color

/-! ## What fits -/

/-- The edge can be interpolated down to `y`. -/
structure EdgeFits (u l : Vertex) (y : Int) : Prop where
  dx : IsInt (l.x - u.x)
  height : IsInt (l.y - u.y)
  product : -2 ^ 47 ≤ (l.x - u.x) * (y - u.y) ∧ (l.x - u.x) * (y - u.y) < 2 ^ 47

/-- The sorted vertices can be drawn: they are on one scanline, or there is an int past the
last scanline and each edge that is used can be interpolated down to where it is. -/
def TriangleFits (v0 v1 v2 : Vertex) : Prop :=
  v0.y = v2.y ∨
    (v2.y + 1 < 2 ^ 31 ∧ EdgeFits v0 v2 v2.y ∧ (v0.y < v1.y → EdgeFits v0 v1 (v1.y - 1)) ∧ (v1.y < v2.y → EdgeFits v1 v2 v2.y))

theorem int32_of {x : Int} (h : IsInt x) : int32 x = some x := if_pos h

theorem int64_of {x : Int} (h : -2 ^ 63 ≤ x ∧ x < 2 ^ 63) : int64 x = some x := if_pos h

section

variable {u l : Vertex} {y : Int}

/-- An edge stays between its ends. -/
theorem edge_between (hu : u.y ≤ y) (hl : y ≤ l.y) (h : u.y < l.y) :
    min u.x l.x * 2 ^ 16 ≤ edge u l y ∧ edge u l y ≤ max u.x l.x * 2 ^ 16 := by
  have hh : 0 < l.y - u.y := by omega
  have hd : 0 ≤ y - u.y := by omega
  have hdh : y - u.y ≤ l.y - u.y := by omega
  -- a quotient of a part of the height is at most the whole
  have hpart : ∀ d : Int, 0 ≤ d → 0 ≤ (d * (y - u.y) * 2 ^ 16).tdiv (l.y - u.y) ∧
      (d * (y - u.y) * 2 ^ 16).tdiv (l.y - u.y) ≤ d * 2 ^ 16 := by
    intro d h0
    have hnum : 0 ≤ d * (y - u.y) * 2 ^ 16 := mul_nonneg (mul_nonneg h0 hd) (by norm_num)
    rw [Int.tdiv_eq_ediv_of_nonneg hnum]
    refine ⟨Int.ediv_nonneg hnum (by omega), Int.ediv_le_of_le_mul hh ?_⟩
    have := mul_le_mul_of_nonneg_left hdh h0
    linarith
  unfold edge
  rcases le_total u.x l.x with hx | hx
  · obtain ⟨h1, h2⟩ := hpart (l.x - u.x) (by omega)
    rw [min_eq_left hx, max_eq_right hx]
    exact ⟨by linarith, by linarith⟩
  · obtain ⟨h1, h2⟩ := hpart (u.x - l.x) (by omega)
    have hneg : (l.x - u.x) * (y - u.y) * 2 ^ 16 = -((u.x - l.x) * (y - u.y) * 2 ^ 16) := by ring
    rw [hneg, Int.neg_tdiv, min_eq_right hx, max_eq_left hx]
    exact ⟨by linarith, by linarith⟩

theorem edgePixel_between (hu : u.y ≤ y) (hl : y ≤ l.y) (h : u.y < l.y) :
    min u.x l.x ≤ edgePixel u l y ∧ edgePixel u l y ≤ max u.x l.x := by
  obtain ⟨h1, h2⟩ := edge_between hu hl h
  unfold edgePixel
  omega

theorem product_mono {d s t : Int} (h0 : 0 ≤ s) (hst : s ≤ t) (h : -2 ^ 47 ≤ d * t ∧ d * t < 2 ^ 47) :
    -2 ^ 47 ≤ d * s ∧ d * s < 2 ^ 47 := by
  rcases le_total 0 d with hd | hd
  · have h1 := mul_nonneg hd h0
    have h2 := mul_le_mul_of_nonneg_left hst hd
    omega
  · have h1 := mul_nonneg (neg_nonneg.mpr hd) h0
    have h2 := mul_le_mul_of_nonneg_left hst (neg_nonneg.mpr hd)
    simp only [neg_mul] at h1 h2
    omega

theorem EdgeFits.mono {y' : Int} (h : EdgeFits u l y') (hu : u.y ≤ y) (hy : y ≤ y') : EdgeFits u l y :=
  ⟨h.dx, h.height, product_mono (by omega) (by omega) h.product⟩

theorem product_int64 {d t : Int} (hd : IsInt d) (h0 : 0 ≤ t) (ht : IsInt t) : -2 ^ 63 ≤ d * t ∧ d * t < 2 ^ 63 := by
  obtain ⟨h1, h2⟩ := hd
  have hlow := mul_le_mul_of_nonneg_right h1 h0
  have hhigh := mul_le_mul_of_nonneg_right (Int.le_of_lt h2) h0
  have := ht.2
  constructor <;> linarith

theorem edgeX_eq (hux : IsInt u.x) (hlx : IsInt l.x) (hu : u.y ≤ y) (hl : y ≤ l.y) (h : u.y < l.y)
    (hf : EdgeFits u l y) : edgeX u l y = some (edge u l y) := by
  obtain ⟨hdx, hh, hp1, hp2⟩ := hf
  have hdy : IsInt (y - u.y) := ⟨by have := hh.1; omega, by have := hh.2; omega⟩
  obtain ⟨hb1, hb2⟩ := edge_between hu hl h
  simp only [IsInt] at hux hlx
  unfold edgeX
  rw [int32_of hdx, int32_of hdy, int32_of hh]
  simp only [Option.bind_eq_bind, Option.bind_some]
  rw [int64_of (product_int64 hdx (by omega) hdy), Option.bind_some, int64_of (by omega), Option.bind_some,
    int64_of (by omega), Option.bind_some]
  exact int64_of ⟨by unfold edge at hb1; omega, by unfold edge at hb2; omega⟩

/-- An edge that was interpolated fits. -/
theorem fits_of_edgeX {x : Int} (hx : edgeX u l y = some x) : EdgeFits u l y := by
  have h32 : ∀ {a b : Int}, int32 a = some b → IsInt a ∧ a = b := fun h => by
    unfold int32 at h
    split at h
    · exact ⟨by assumption, Option.some.inj h⟩
    · simp at h
  have h64 : ∀ {a b : Int}, int64 a = some b → (-2 ^ 63 ≤ a ∧ a < 2 ^ 63) ∧ a = b := fun h => by
    unfold int64 at h
    split at h
    · exact ⟨by assumption, Option.some.inj h⟩
    · simp at h
  unfold edgeX at hx
  simp only [Option.bind_eq_bind, Option.bind_eq_some_iff] at hx
  obtain ⟨dx, hdx, dy, hdy, product, hproduct, shifted, hshifted, height, hheight, -⟩ := hx
  obtain ⟨hint, rfl⟩ := h32 hdx
  obtain ⟨-, rfl⟩ := h32 hdy
  obtain ⟨-, rfl⟩ := h64 hproduct
  obtain ⟨⟨h1, h2⟩, -⟩ := h64 hshifted
  obtain ⟨hup, -⟩ := h32 hheight
  exact ⟨hint, hup, by omega, by omega⟩

end

/-! ## Scanlines -/

section

variable {v0 v1 v2 : Vertex} {color y : Int}

/-- Vertices with int coordinates, from the smallest y to the largest. -/
structure Sorted (v0 v1 v2 : Vertex) : Prop where
  ints : (IsInt v0.x ∧ IsInt v0.y) ∧ (IsInt v1.x ∧ IsInt v1.y) ∧ IsInt v2.x ∧ IsInt v2.y
  upper : v0.y ≤ v1.y
  lower : v1.y ≤ v2.y

/-- The edges that the scanline uses fit. -/
def ScanFits (v0 v1 v2 : Vertex) (y : Int) : Prop :=
  EdgeFits v0 v2 y ∧ (if y < v1.y ∧ v1.y ≠ v0.y then EdgeFits v0 v1 y else if v2.y ≠ v1.y then EdgeFits v1 v2 y else True)

theorem shiftRight_16 (x : Int) : x >>> (16 : Nat) = x / 2 ^ 16 := Int.shiftRight_eq_div_pow x 16

theorem isInt_between {a b x : Int} (ha : IsInt a) (hb : IsInt b) (h : min a b ≤ x ∧ x ≤ max a b) : IsInt x := by
  simp only [IsInt] at *
  omega

theorem scanline_eq (hs : Sorted v0 v1 v2) (hne : v0.y ≠ v2.y) (hlo : v0.y ≤ y) (hhi : y ≤ v2.y)
    (hf : ScanFits v0 v1 v2 y) : scanline v0 v1 v2 color y = some (exactLine v0 v1 v2 color y) := by
  obtain ⟨⟨⟨hx0, -⟩, ⟨hx1, -⟩, hx2, -⟩, hup, hlow⟩ := hs
  obtain ⟨hlong, hshort⟩ := hf
  have hpa : IsInt (edgePixel v0 v2 y) := isInt_between hx0 hx2 (edgePixel_between hlo hhi (by omega))
  -- the short edge, whichever it is
  obtain ⟨xb, hxb, hpix, hpb⟩ : ∃ xb, shortX v0 v1 v2 y = some xb ∧ xb >>> (16 : Nat) = shortPixel v0 v1 v2 y ∧
      IsInt (shortPixel v0 v1 v2 y) := by
    unfold shortX shortPixel
    by_cases hu : y < v1.y ∧ v1.y ≠ v0.y
    · simp only [if_pos hu] at hshort ⊢
      exact ⟨_, edgeX_eq hx0 hx1 hlo (by omega) (by omega) hshort, shiftRight_16 _,
        isInt_between hx0 hx1 (edgePixel_between hlo (by omega) (by omega))⟩
    · by_cases hl : v2.y ≠ v1.y
      · simp only [if_neg hu, if_pos hl] at hshort ⊢
        exact ⟨_, edgeX_eq hx1 hx2 (by omega) hhi (by omega) hshort, shiftRight_16 _,
          isInt_between hx1 hx2 (edgePixel_between (by omega) hhi (by omega))⟩
      · simp only [if_neg hu, if_neg hl]
        refine ⟨_, int64_of (by simp only [IsInt] at hx1; omega), ?_, hx1⟩
        rw [shiftRight_16, Int.mul_ediv_cancel _ (by norm_num)]
  unfold scanline
  rw [edgeX_eq hx0 hx2 hlo hhi (by omega) hlong, hxb]
  simp only [Option.bind_eq_bind, Option.bind_some, shiftRight_16 (edge v0 v2 y), hpix]
  rw [show edge v0 v2 y / 2 ^ 16 = edgePixel v0 v2 y from rfl, int32_of hpa, int32_of hpb]
  simp only [Option.bind_some, exactLine]
  split
  · rw [min_eq_right (by omega), max_eq_left (by omega)]
    rfl
  · rw [min_eq_left (by omega), max_eq_right (by omega)]
    rfl

theorem fits_of_scanline {line : Line} (h : scanline v0 v1 v2 color y = some line) : ScanFits v0 v1 v2 y := by
  unfold scanline at h
  simp only [Option.bind_eq_bind, Option.bind_eq_some_iff] at h
  obtain ⟨xa, hxa, xb, hxb, -⟩ := h
  refine ⟨fits_of_edgeX hxa, ?_⟩
  unfold shortX at hxb
  split_ifs at hxb ⊢
  · exact fits_of_edgeX hxb
  · exact fits_of_edgeX hxb

/-- All scanlines from `y` on fit, and the loop can leave the last. -/
def LoopFits (v0 v1 v2 : Vertex) (y : Int) : Prop :=
  ∀ y', y ≤ y' → y' ≤ v2.y → ScanFits v0 v1 v2 y' ∧ y' + 1 < 2 ^ 31

theorem loop_eq (hs : Sorted v0 v1 v2) (hne : v0.y ≠ v2.y) (turns : Nat) (hlo : v0.y ≤ y)
    (hn : (v2.y + 1 - y).toNat ≤ turns) (hf : LoopFits v0 v1 v2 y) :
    loop v0 v1 v2 color turns y =
      some ((List.range (v2.y + 1 - y).toNat).map fun (i : Nat) => exactLine v0 v1 v2 color (y + i)) := by
  induction turns generalizing y with
  | zero => rw [Nat.le_zero.mp hn]; rfl
  | succ turns ih =>
    unfold loop
    by_cases hle : y ≤ v2.y
    · obtain ⟨hfit, hnext⟩ := hf y (Int.le_refl y) hle
      have hy : IsInt (y + 1) := ⟨by have := hs.ints.1.2.1; omega, hnext⟩
      rw [if_pos hle, scanline_eq hs hne hlo hle hfit, int32_of hy]
      simp only [Option.bind_eq_bind, Option.bind_some]
      rw [ih (by omega) (by omega) fun y' h1 h2 => hf y' (by omega) h2, Option.bind_some]
      have hcount : (v2.y + 1 - y).toNat = (v2.y + 1 - (y + 1)).toNat + 1 := by omega
      rw [hcount, List.range_succ_eq_map, List.map_cons, List.map_map]
      refine congrArg some (congrArg₂ List.cons (by simp) (List.map_congr_left fun i _ => ?_))
      show _ = exactLine v0 v1 v2 color (y + (i + 1 : Nat))
      rw [Nat.cast_add, Nat.cast_one, Int.add_comm (i : Int), Int.add_assoc]
    · rw [if_neg hle, Int.toNat_of_nonpos (by omega)]
      rfl

theorem fits_of_loop {turns : Nat} {lines : List Line} (hn : (v2.y + 1 - y).toNat ≤ turns)
    (h : loop v0 v1 v2 color turns y = some lines) : LoopFits v0 v1 v2 y := by
  induction turns generalizing y lines with
  | zero =>
    intro y' h1 h2
    omega
  | succ turns ih =>
    intro y' h1 h2
    unfold loop at h
    rw [if_pos (by omega)] at h
    simp only [Option.bind_eq_bind, Option.bind_eq_some_iff] at h
    obtain ⟨line, hline, next, hnext, lines', hlines, -⟩ := h
    have hy : IsInt (y + 1) ∧ y + 1 = next := by
      unfold int32 at hnext
      split at hnext
      · exact ⟨by assumption, Option.some.inj hnext⟩
      · simp at hnext
    rcases h1.eq_or_lt with rfl | hlt
    · exact ⟨fits_of_scanline hline, hy.1.2⟩
    · exact ih (by omega) hlines y' (by omega) h2

/-- The scanlines fit where the ends of the edges do. -/
theorem loopFits_iff (hs : Sorted v0 v1 v2) (hne : v0.y ≠ v2.y) : LoopFits v0 v1 v2 v0.y ↔ TriangleFits v0 v1 v2 := by
  obtain ⟨-, hup, hlow⟩ := hs
  unfold LoopFits TriangleFits ScanFits
  constructor
  · intro h
    obtain ⟨⟨hlong, -⟩, hlast⟩ := h v2.y (by omega) (Int.le_refl _)
    refine Or.inr ⟨hlast, hlong, fun hlt => ?_, fun hlt => ?_⟩
    · have hu := (h (v1.y - 1) (by omega) (by omega)).1.2
      rwa [if_pos (by omega)] at hu
    · have hl := (h v2.y (by omega) (Int.le_refl _)).1.2
      rwa [if_neg (by omega), if_pos (by omega)] at hl
  · intro h y' h1 h2
    obtain ⟨hlast, hlong, hu, hl⟩ := h.resolve_left hne
    refine ⟨⟨hlong.mono h1 h2, ?_⟩, by omega⟩
    split_ifs with hc1 hc2
    · exact (hu (by omega)).mono h1 (by omega)
    · exact (hl (by omega)).mono (by omega) h2

end

theorem swapVertex_cases (p q : Vertex) :
    (swapVertex p q = (p, q) ∧ p.y ≤ q.y) ∨ (swapVertex p q = (q, p) ∧ q.y < p.y) := by
  unfold swapVertex
  split
  · exact Or.inr ⟨rfl, by omega⟩
  · exact Or.inl ⟨rfl, by omega⟩

/-- Three swaps sort three vertices. -/
theorem sortVertices_spec {p q r v0 v1 v2 : Vertex} (h : sortVertices p q r = (v0, v1, v2)) :
    v0.y ≤ v1.y ∧ v1.y ≤ v2.y ∧ [v0, v1, v2].Perm [p, q, r] := by
  have hswap : ∀ a b c : Vertex, [b, a, c].Perm [a, b, c] := fun a b c => List.Perm.swap a b [c]
  have hswap' : ∀ a b c : Vertex, [a, c, b].Perm [a, b, c] := fun a b c => (List.Perm.swap b c []).cons a
  unfold sortVertices at h
  rcases swapVertex_cases p q with ⟨h1, hy1⟩ | ⟨h1, hy1⟩ <;> simp only [h1] at h
  · rcases swapVertex_cases q r with ⟨h2, hy2⟩ | ⟨h2, hy2⟩ <;> simp only [h2] at h
    · simp only [h1, Prod.mk.injEq] at h
      obtain ⟨rfl, rfl, rfl⟩ := h
      exact ⟨hy1, hy2, List.Perm.refl _⟩
    · rcases swapVertex_cases p r with ⟨h3, hy3⟩ | ⟨h3, hy3⟩ <;> simp only [h3, Prod.mk.injEq] at h <;>
        obtain ⟨rfl, rfl, rfl⟩ := h
      · exact ⟨hy3, by omega, hswap' _ _ _⟩
      · exact ⟨by omega, hy1, (hswap _ _ _).trans (hswap' _ _ _)⟩
  · rcases swapVertex_cases p r with ⟨h2, hy2⟩ | ⟨h2, hy2⟩ <;> simp only [h2] at h
    · simp only [((swapVertex_cases q p).resolve_right (by omega)).1, Prod.mk.injEq] at h
      obtain ⟨rfl, rfl, rfl⟩ := h
      exact ⟨by omega, hy2, hswap _ _ _⟩
    · rcases swapVertex_cases q r with ⟨h3, hy3⟩ | ⟨h3, hy3⟩ <;> simp only [h3, Prod.mk.injEq] at h <;>
        obtain ⟨rfl, rfl, rfl⟩ := h
      · exact ⟨hy3, by omega, (hswap' _ _ _).trans (hswap _ _ _)⟩
      · exact ⟨by omega, by omega, (hswap _ _ _).trans ((hswap' _ _ _).trans (hswap _ _ _))⟩

theorem sortVertices_sorted {p q r v0 v1 v2 : Vertex} (h : sortVertices p q r = (v0, v1, v2))
    (hp : IsInt p.x ∧ IsInt p.y) (hq : IsInt q.x ∧ IsInt q.y) (hr : IsInt r.x ∧ IsInt r.y) : Sorted v0 v1 v2 := by
  obtain ⟨hup, hlow, hperm⟩ := sortVertices_spec h
  have hints : ∀ v ∈ [v0, v1, v2], IsInt v.x ∧ IsInt v.y := by
    intro v hv
    have hv' := hperm.subset hv
    simp only [List.mem_cons, List.not_mem_nil, or_false] at hv'
    rcases hv' with rfl | rfl | rfl <;> assumption
  exact ⟨⟨hints _ (by simp), hints _ (by simp), hints _ (by simp)⟩, hup, hlow⟩

theorem dtriangle_iff_fits {x0 y0 x1 y1 x2 y2 : Int} (color : Int) (h0 : IsInt x0 ∧ IsInt y0) (h1 : IsInt x1 ∧ IsInt y1)
    (h2 : IsInt x2 ∧ IsInt y2) {v0 v1 v2 : Vertex} (hs : sortVertices ⟨x0, y0⟩ ⟨x1, y1⟩ ⟨x2, y2⟩ = (v0, v1, v2)) :
    (dtriangle x0 y0 x1 y1 x2 y2 color = some (exactTriangle x0 y0 x1 y1 x2 y2 color) ↔ TriangleFits v0 v1 v2) ∧
      (dtriangle x0 y0 x1 y1 x2 y2 color = none ↔ ¬ TriangleFits v0 v1 v2) := by
  have hsorted := sortVertices_sorted hs h0 h1 h2
  have hexact : exactTriangle x0 y0 x1 y1 x2 y2 color = exactLines v0 v1 v2 color := by
    unfold exactTriangle
    rw [hs]
  rw [hexact]
  unfold dtriangle exactLines
  rw [hs]
  simp only
  by_cases hflat : v0.y = v2.y
  · have hfit : TriangleFits v0 v1 v2 := Or.inl hflat
    have hmin : (if v2.x < (if v1.x < v0.x then v1.x else v0.x) then v2.x else if v1.x < v0.x then v1.x else v0.x) =
        min (min v0.x v1.x) v2.x := by split_ifs <;> omega
    have hmax : (if v2.x > (if v1.x > v0.x then v1.x else v0.x) then v2.x else if v1.x > v0.x then v1.x else v0.x) =
        max (max v0.x v1.x) v2.x := by split_ifs <;> omega
    rw [if_pos hflat, if_pos hflat, hmin, hmax]
    simp [hfit]
  · rw [if_neg hflat, if_neg hflat, ← loopFits_iff hsorted hflat]
    have hfits : ∀ {lines : List Line}, loop v0 v1 v2 color (v2.y + 1 - v0.y).toNat v0.y = some lines → LoopFits v0 v1 v2 v0.y :=
      fits_of_loop (Nat.le_refl _)
    refine ⟨⟨hfits, loop_eq hsorted hflat _ (Int.le_refl _) (Nat.le_refl _)⟩, fun hn hf => ?_, fun hf => ?_⟩
    · rw [loop_eq hsorted hflat _ (Int.le_refl _) (Nat.le_refl _) hf] at hn
      simp at hn
    · exact Option.eq_none_iff_forall_ne_some.mpr fun lines hl => hf (hfits hl)

end PythonUltra.Sh.Triangle
