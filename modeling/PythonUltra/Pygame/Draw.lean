/-
  PythonUltra.Pygame.Draw — Surface.fill and draw.rect
  (ports/sh/modules/pygame/__init__.py).

  `draw.rect` paints an area with one colour (`Paints`). On the screen it is the union of
  borders one pixel thick, of which there are at most as many as half the rectangle has;
  in memory the union of four bands, which are as wide as the caller says.

  * `drawRect_iff`: both paint the pixels that are less than `width` from an edge just when
    no band that is wider than the rectangle reaches the surface, and no pixel of the
    surface is in the line that the borders leave in the middle.
  * `drawRect_paints_outside`: a width above the height paints below the rectangle.
-/

import PythonUltra.Lib.Blocks
import PythonUltra.Lib.Slots
import PythonUltra.Pygame.Memory

open PythonUltra.Lib.Raster PythonUltra.Sh.Colorkey PythonUltra.Lib

namespace PythonUltra.Pygame

/-! ## The code -/

/-- `data[start:start + len(row)] = row` -/
def putRow (data : Array Byte) (start : Nat) (row : List Byte) : Array Byte := (Slots.put data.toList start row).toArray

/-- The bytes of `fill` in an area of the surface. -/
def fillRows (w : Int) (data : Array Byte) (color : Pixel) (area : Rect) : Array Byte :=
  let pixel := [BitVec.ofNat 8 (color.toNat >>> 8), BitVec.ofNat 8 color.toNat]
  let row := (List.replicate area.w.toNat pixel).flatten
  (List.range area.h.toNat).foldl (fun data (n : Nat) =>
    let y := area.y + n
    let start := 2 * (y * w + area.x)
    putRow data start.toNat row) data

/-! ## Areas of one colour -/

section Paints

variable {σ ι β : Type}

/-- Of the points of `D`, those in `A` get the value `c` and the others keep theirs. -/
def Paints (get : σ → ι → β) (D A : ι → Prop) (c : β) (s s' : σ) : Prop :=
  ∀ p, D p → (A p → get s' p = c) ∧ (¬ A p → get s' p = get s p)

variable {get : σ → ι → β} {D A B : ι → Prop} {c : β} {s s' s'' : σ}

theorem Paints.refl (hA : ∀ p, D p → ¬ A p) : Paints get D A c s s :=
  fun p hp => ⟨fun h => absurd h (hA p hp), fun _ => rfl⟩

theorem Paints.trans (h : Paints get D A c s s') (h' : Paints get D B c s' s'') : Paints get D (fun p => A p ∨ B p) c s s'' := by
  intro p hp
  constructor
  · rintro hAB
    by_cases hB : B p
    · exact (h' p hp).1 hB
    · rw [(h' p hp).2 hB]
      exact (h p hp).1 (hAB.resolve_right hB)
  · intro hno
    rw [not_or] at hno
    rw [(h' p hp).2 hno.2, (h p hp).2 hno.1]

theorem Paints.congr (h : Paints get D A c s s') (hAB : ∀ p, D p → (A p ↔ B p)) : Paints get D B c s s' :=
  fun p hp => ⟨fun hB => (h p hp).1 ((hAB p hp).mpr hB), fun hB => (h p hp).2 fun hA => hB ((hAB p hp).mp hA)⟩

/-- A loop that paints the area `A n` at turn `n`, of states that keep `P`. -/
theorem Paints.loop (P : σ → Prop) (f : σ → Nat → σ) (A : Nat → ι → Prop) (N : Nat) (hs : P s)
    (hturn : ∀ n < N, ∀ s, P s → P (f s n) ∧ Paints get D (A n) c s (f s n)) :
    P ((List.range N).foldl f s) ∧ Paints get D (fun p => ∃ n < N, A n p) c s ((List.range N).foldl f s) := by
  induction N with
  | zero => exact ⟨hs, Paints.refl fun p _ ⟨n, hn, _⟩ => absurd hn (Nat.not_lt_zero n)⟩
  | succ N ih =>
    obtain ⟨hP, hpaints⟩ := ih fun n hn => hturn n (by omega)
    obtain ⟨hP', hpaints'⟩ := hturn N (by omega) _ hP
    rw [List.range_succ, List.foldl_append]
    refine ⟨hP', (hpaints.trans hpaints').congr fun p _ => ?_⟩
    constructor
    · rintro (⟨n, hn, hA⟩ | hA)
      · exact ⟨n, by omega, hA⟩
      · exact ⟨N, by omega, hA⟩
    · rintro ⟨n, hn, hA⟩
      rcases Nat.lt_succ_iff_lt_or_eq.mp hn with hn | rfl
      · exact .inl ⟨n, hn, hA⟩
      · exact .inr hA

/-- Two areas that are painted alike, with a colour that a point of them has not, are the same. -/
theorem Paints.unique (h : Paints get D A c s s') (h' : Paints get D B c s s') {p : ι} (hp : D p) (hc : get s p ≠ c) : A p ↔ B p := by
  constructor
  · intro hA
    by_contra hB
    exact hc (((h' p hp).2 hB).symm.trans ((h p hp).1 hA))
  · intro hB
    by_contra hA
    exact hc (((h p hp).2 hA).symm.trans ((h' p hp).1 hB))

end Paints

/-! ## fill -/

variable {w h : Int} {data : Array Byte} {color : Pixel} {area : Rect} {p : Int × Int}

theorem putRow_size {start : Nat} {row : List Byte} (h : start + row.length ≤ data.size) : (putRow data start row).size = data.size := by
  rw [putRow, List.size_toArray, Slots.length_put (by simpa using h), Array.length_toList]

theorem load_putRow {start : Nat} {row : List Byte} (h : start + row.length ≤ data.size) {i : Int} (hi : 0 ≤ i) :
    load (putRow data start row) i = if start ≤ i ∧ i < start + row.length then row[i.toNat - start]? else load data i := by
  rw [load, if_pos hi, putRow, List.getElem?_toArray, Slots.getElem?_put (by rw [Array.length_toList]; omega)]
  by_cases hin : start ≤ i ∧ i < start + row.length
  · rw [if_pos hin, if_pos (by omega)]
  · rw [if_neg hin, if_neg (by omega), load, if_pos hi, Array.getElem?_toList]

/-- The bytes of `n` pixels of a colour. -/
def rowBytes (color : Pixel) (n : Nat) : List Byte :=
  (List.replicate n [BitVec.ofNat 8 (color.toNat >>> 8), BitVec.ofNat 8 color.toNat]).flatten

theorem rowBytes_length (color : Pixel) (n : Nat) : (rowBytes color n).length = 2 * n := by
  simp [rowBytes, Nat.mul_comm]

theorem rowBytes_get {n i : Nat} (hi : i < n) :
    (rowBytes color n)[2 * i]? = some (BitVec.ofNat 8 (color.toNat >>> 8)) ∧ (rowBytes color n)[2 * i + 1]? = some (BitVec.ofNat 8 color.toNat) := by
  induction n generalizing i with
  | zero => omega
  | succ n ih =>
    cases i with
    | zero => simp [rowBytes, List.replicate_succ]
    | succ i => simpa [rowBytes, List.replicate_succ, Nat.mul_succ] using ih (Nat.lt_of_succ_lt_succ hi)

/-- A row of an area, which lies in row `y` of the surface. -/
theorem putRow_paints {x y : Int} {n : Nat} (hroom : 2 * (w * h) ≤ data.size) (hx : 0 ≤ x ∧ x + n ≤ w) (hy : 0 ≤ y ∧ y < h) :
    (putRow data (2 * (y * w + x)).toNat (rowBytes color n)).size = data.size ∧
      Paints (fun data => sourcePixel data (2 * w)) (Inside w h) (fun p => p.2 = y ∧ x ≤ p.1 ∧ p.1 < x + n) (some color) data
        (putRow data (2 * (y * w + x)).toNat (rowBytes color n)) := by
  have hrow : 0 ≤ y * w := mul_nonneg hy.1 (by omega)
  have hlast : (y + 1) * w ≤ h * w := mul_le_mul_of_nonneg_right (by omega) (by omega)
  rw [add_mul, one_mul, mul_comm h] at hlast
  have hfit : (2 * (y * w + x)).toNat + (rowBytes color n).length ≤ data.size := by
    rw [rowBytes_length]
    omega
  refine ⟨putRow_size hfit, fun p hp => ?_⟩
  obtain ⟨h1, h2, h3, h4⟩ := hp
  have hoffset : 0 ≤ offset w p := (offset_bounds ⟨h1, h2, h3, h4⟩).1
  have hplace : offset w p = p.2 * w + p.1 := rfl
  simp only [sourcePixel_rows]
  unfold Sh.Colorkey.color
  rw [load_putRow hfit (by omega), load_putRow hfit (by omega), rowBytes_length]
  constructor
  · rintro ⟨rfl, hle, hlt⟩
    have hi : (2 * offset w p).toNat - (2 * (p.2 * w + x)).toNat = 2 * (p.1 - x).toNat := by
      clear * - hplace hrow hx hle
      omega
    have hi' : (2 * offset w p + 1).toNat - (2 * (p.2 * w + x)).toNat = 2 * (p.1 - x).toNat + 1 := by
      clear * - hplace hrow hx hle
      omega
    have hhere : p.2 * w + x ≤ offset w p ∧ offset w p < p.2 * w + x + n := by
      clear * - hplace hle hlt
      omega
    obtain ⟨hhigh, hlow⟩ := @rowBytes_get color n (p.1 - x).toNat (by omega)
    rw [if_pos (by clear * - hhere hrow hx; omega), if_pos (by clear * - hhere hrow hx; omega), hi, hi', hhigh, hlow]
    show some _ = some _
    rw [bytes_of_pixel, BitVec.ofNat_toNat, BitVec.setWidth_eq]
  · intro hout
    -- a point of the row with the offset of `p` would be `p`
    have hmiss : ¬(y * w + x ≤ offset w p ∧ offset w p < y * w + x + n) := by
      rintro ⟨hle, hlt⟩
      have he : offset w p = offset w (offset w p - y * w, y) := by
        change offset w p = y * w + (offset w p - y * w)
        omega
      have hin : Inside w h (offset w p - y * w, y) := by
        refine ⟨?_, ?_, hy.1, hy.2⟩
        · change 0 ≤ offset w p - y * w
          omega
        · change offset w p - y * w < w
          omega
      have hsame := offset_inj ⟨h1, h2, h3, h4⟩ hin he
      have hrowed : p.2 = y := congrArg Prod.snd hsame
      have hcolumn : p.1 = offset w p - y * w := congrArg Prod.fst hsame
      exact hout ⟨hrowed, by omega, by omega⟩
    rw [if_neg (by clear * - hmiss hrow hx; omega), if_neg (by clear * - hmiss hrow hx; omega)]

variable (color) in
theorem fillRows_paints (hroom : 2 * (w * h) ≤ data.size) (harea : area.Within ⟨0, 0, w, h⟩) (hw : 0 < area.w) :
    (fillRows w data color area).size = data.size ∧
      Paints (fun data => sourcePixel data (2 * w)) (Inside w h) area.Contains (some color) data (fillRows w data color area) := by
  obtain ⟨h1, h2, h3, h4⟩ := harea
  simp only [Rect.right, Rect.bottom] at h1 h2 h3 h4
  have hloop := Paints.loop (fun d : Array Byte => d.size = data.size)
    (fun data (n : Nat) => putRow data (2 * ((area.y + n) * w + area.x)).toNat (rowBytes color area.w.toNat))
    (fun n (p : Int × Int) => p.2 = area.y + n ∧ area.x ≤ p.1 ∧ p.1 < area.x + area.w.toNat) area.h.toNat rfl fun n hn d hd => by
      obtain ⟨hsize, hpaints⟩ := @putRow_paints w h d color area.x (area.y + n) area.w.toNat (by rwa [hd]) (by omega) (by omega)
      exact ⟨hsize.trans hd, hpaints⟩
  refine ⟨hloop.1, hloop.2.congr fun p _ => ?_⟩
  simp only [Rect.Contains, Rect.right, Rect.bottom]
  constructor
  · rintro ⟨n, hn, hy, hx⟩
    omega
  · rintro ⟨hl, hr, ht, hb⟩
    exact ⟨(p.2 - area.y).toNat, by omega, by omega, by omega, by omega⟩

namespace Surface

/-- `fill` -/
def fill (s : Surface) (color : Pixel) (rect : Rect) : Surface × Rect :=
  let area := rect.clip ⟨0, 0, s.w, s.h⟩
  if hempty : area.w ≤ 0 ∨ area.h ≤ 0 then (s, area)
  else ({ s with
    data := fillRows s.w s.data color area
    room := by
      have hw : 0 < area.w := by omega
      rw [(fillRows_paints color s.room (Rect.clip_spec hw).2.1 hw).1]
      exact s.room }, area)

/-- Two surfaces that differ in their pixels only: `s'` is `s` with `color` in the area `A`. -/
def Painted (s : Surface) (A : Int × Int → Prop) (color : Pixel) (s' : Surface) : Prop :=
  s'.w = s.w ∧ s'.h = s.h ∧ Paints pixel (Inside s.w s.h) A (some color) s s'

theorem fill_painted (s : Surface) (color : Pixel) (rect : Rect) : s.Painted rect.Contains color (s.fill color rect).1 := by
  unfold fill
  simp only
  split
  · rename_i hempty
    refine ⟨rfl, rfl, Paints.refl fun p hp hin => ?_⟩
    have := clip_contains.mpr ⟨hin, whole_contains.mpr hp⟩
    simp only [Rect.Contains, Rect.right, Rect.bottom] at this
    omega
  · rename_i hempty
    have hw : 0 < (rect.clip ⟨0, 0, s.w, s.h⟩).w := by omega
    refine ⟨rfl, rfl, fun p hp => ?_⟩
    have hpaints := (fillRows_paints color s.room (Rect.clip_spec hw).2.1 hw).2 p hp
    rw [clip_contains, whole_contains] at hpaints
    simp only [hp, and_true] at hpaints
    exact hpaints

theorem Painted.trans {A B : Int × Int → Prop} {s s' s'' : Surface} (h : s.Painted A color s') (h' : s'.Painted B color s'') :
    s.Painted (fun p => A p ∨ B p) color s'' := by
  obtain ⟨hw, hh, hA⟩ := h
  obtain ⟨hw', hh', hB⟩ := h'
  rw [hw, hh] at hB
  exact ⟨hw'.trans hw, hh'.trans hh, hA.trans hB⟩

/-- `draw.rect` of a surface in memory. -/
def drawRect (s : Surface) (color : Pixel) (rect : Rect) (width : Int) : Surface × Rect :=
  if rect.w ≤ 0 ∨ rect.h ≤ 0 then (s, rect)
  else if width ≤ 0 then ((s.fill color rect).1, rect)
  else
    let width := max 1 width
    let s := (s.fill color ⟨rect.x, rect.y, rect.w, width⟩).1
    let s := (s.fill color ⟨rect.x, rect.bottom - width, rect.w, width⟩).1
    let s := (s.fill color ⟨rect.x, rect.y + width, width, rect.h - 2 * width⟩).1
    let s := (s.fill color ⟨rect.right - width, rect.y + width, width, rect.h - 2 * width⟩).1
    (s, rect)

end Surface

/-- gint's functions that draw rectangles and read the screen. -/
structure GintRects (σ : Type) where
  dgetpixel : σ → Int × Int → Pixel
  drect : σ → Int → Int → Int → Int → Pixel → σ
  drectBorder : σ → Int → Int → Int → Int → (fill : Int) → (border : Int) → Pixel → σ

/-- `C_NONE`: no colour. -/
def cNone : Int := -1

/-- `draw.rect` of the screen. -/
def drawRectScreen {σ : Type} (g : GintRects σ) (screen : σ) (color : Pixel) (rect : Rect) (width : Int) : σ × Rect :=
  if rect.w ≤ 0 ∨ rect.h ≤ 0 then (screen, rect)
  else if width ≤ 0 then (g.drect screen rect.x rect.y (rect.right - 1) (rect.bottom - 1) color, rect)
  else
    let width := max 1 (min width (min (rect.w / 2) (rect.h / 2)))
    ((List.range width.toNat).foldl (fun screen (n : Nat) =>
      g.drectBorder screen (rect.x + n) (rect.y + n) (rect.right - 1 - n) (rect.bottom - 1 - n) cNone 1 color) screen, rect)

/-! ## The outline -/

namespace Rect

/-- How far a pixel of the rectangle is from the nearest edge. -/
def edgeDistance (r : Rect) (p : Int × Int) : Int := min (min (p.1 - r.x) (r.right - 1 - p.1)) (min (p.2 - r.y) (r.bottom - 1 - p.2))

/-- The pixels that `draw.rect` is to paint. -/
def Outline (r : Rect) (width : Int) (p : Int × Int) : Prop := r.Contains p ∧ (width ≤ 0 ∨ r.edgeDistance p < width)

theorem contains_iff_distance {r : Rect} {p : Int × Int} : r.Contains p ↔ 0 ≤ r.edgeDistance p := by
  rw [Contains, edgeDistance, le_min_iff, le_min_iff, le_min_iff]
  omega

/-- The border that is drawn `n` pixels inside of the rectangle. -/
theorem on_border_iff {r : Rect} {n : Int} {p : Int × Int} :
    ((r.x + n ≤ p.1 ∧ p.1 ≤ r.right - 1 - n) ∧ r.y + n ≤ p.2 ∧ p.2 ≤ r.bottom - 1 - n) ∧
      (p.1 = r.x + n ∨ p.1 = r.right - 1 - n ∨ p.2 = r.y + n ∨ p.2 = r.bottom - 1 - n) ↔ r.edgeDistance p = n := by
  have hsame : r.edgeDistance p = n ↔ r.edgeDistance p ≤ n ∧ n ≤ r.edgeDistance p := le_antisymm_iff
  rw [hsame, edgeDistance, le_min_iff, le_min_iff, le_min_iff, min_le_iff, min_le_iff, min_le_iff]
  clear hsame
  constructor
  · rintro ⟨⟨⟨h1, h2⟩, h3, h4⟩, hborder⟩
    refine ⟨?_, ⟨by omega, by omega⟩, by omega, by omega⟩
    clear h1 h2 h3 h4
    omega
  · rintro ⟨hborder, ⟨h1, h2⟩, h3, h4⟩
    refine ⟨⟨⟨by omega, by omega⟩, by omega, by omega⟩, ?_⟩
    omega

/-- Nothing of the rectangle is on a surface of `w` by `h`. -/
def Misses (r : Rect) (w h : Int) : Prop := (r.clip ⟨0, 0, w, h⟩).w = 0

instance (r : Rect) (w h : Int) : Decidable (r.Misses w h) := inferInstanceAs (Decidable (_ = _))

/-- How many borders are drawn on the screen. -/
def borders (r : Rect) (width : Int) : Int := max 1 (min width (min (r.w / 2) (r.h / 2)))

/-- What the bands have outside of the rectangle misses a surface of `w` by `h`, and so
does the middle that the borders leave out. -/
structure Framed (r : Rect) (width w h : Int) : Prop where
  above : Misses ⟨r.x, r.bottom - width, r.w, width - r.h⟩ w h
  below : Misses ⟨r.x, r.bottom, r.w, width - r.h⟩ w h
  left : Misses ⟨r.right - width, r.y + width, width - r.w, r.h - 2 * width⟩ w h
  right : Misses ⟨r.right, r.y + width, width - r.w, r.h - 2 * width⟩ w h
  middle : r.borders width < width → Misses ⟨r.x + r.borders width, r.y + r.borders width, r.w - 2 * r.borders width, r.h - 2 * r.borders width⟩ w h

theorem clip_w_nonneg (r o : Rect) : 0 ≤ (r.clip o).w := by
  by_cases hempty : min r.right o.right ≤ max r.x o.x ∨ min r.bottom o.bottom ≤ max r.y o.y
  · rw [show r.clip o = ⟨max r.x o.x, max r.y o.y, 0, 0⟩ from if_pos hempty]
  · rw [show r.clip o = ⟨max r.x o.x, max r.y o.y, min r.right o.right - max r.x o.x, min r.bottom o.bottom - max r.y o.y⟩ from if_neg hempty]
    exact sub_nonneg.mpr (le_of_lt (lt_of_not_ge fun hle => hempty (.inl hle)))

theorem misses_iff {r : Rect} {w h : Int} : r.Misses w h ↔ ∀ p, Inside w h p → ¬ r.Contains p := by
  constructor
  · rintro hmiss p hp hin
    have := Surface.clip_contains.mpr ⟨hin, Surface.whole_contains.mpr hp⟩
    rw [Misses] at hmiss
    simp only [Contains, right, bottom] at this
    omega
  · intro hno
    by_contra hne
    have hw : 0 < (r.clip ⟨0, 0, w, h⟩).w := lt_of_le_of_ne (clip_w_nonneg r _) (Ne.symm hne)
    have hin : (r.clip ⟨0, 0, w, h⟩).Contains ((r.clip ⟨0, 0, w, h⟩).x, (r.clip ⟨0, 0, w, h⟩).y) := by
      have := (clip_spec hw).2.2
      simp only [Contains, right, bottom]
      omega
    obtain ⟨hr, hs⟩ := Surface.clip_contains.mp hin
    exact hno _ (Surface.whole_contains.mp hs) hr

/-- The four bands of `draw.rect`. -/
def Bands (r : Rect) (width : Int) (p : Int × Int) : Prop :=
  ((Contains ⟨r.x, r.y, r.w, width⟩ p ∨ Contains ⟨r.x, r.bottom - width, r.w, width⟩ p) ∨
    Contains ⟨r.x, r.y + width, width, r.h - 2 * width⟩ p) ∨ Contains ⟨r.right - width, r.y + width, width, r.h - 2 * width⟩ p

theorem bands_iff {r : Rect} {width : Int} (hw : 0 < r.w) (hh : 0 < r.h) (hwidth : 0 < width) (p : Int × Int) :
    r.Bands width p ↔ r.Outline width p ∨ Contains ⟨r.x, r.bottom - width, r.w, width - r.h⟩ p ∨ Contains ⟨r.x, r.bottom, r.w, width - r.h⟩ p ∨
      Contains ⟨r.right - width, r.y + width, width - r.w, r.h - 2 * width⟩ p ∨ Contains ⟨r.right, r.y + width, width - r.w, r.h - 2 * width⟩ p := by
  simp only [Bands, Outline, edgeDistance, Contains, right, bottom, min_lt_iff]
  grind

theorem borders_iff {r : Rect} {width : Int} (hwidth : 0 < width) (p : Int × Int) :
    r.Outline width p ↔ r.Outline (r.borders width) p ∨ r.borders width < width ∧
      Contains ⟨r.x + r.borders width, r.y + r.borders width, r.w - 2 * r.borders width, r.h - 2 * r.borders width⟩ p := by
  simp only [borders, Outline, edgeDistance, Contains, right, bottom, min_lt_iff]
  grind

end Rect

/-- What the documentation says of gint's rectangles, on a screen of `w` by `h`; a border
without a fill colour, one pixel thick, leaves the inside alone. -/
structure GintRects.Documented {σ : Type} (g : GintRects σ) (w h : Int) : Prop where
  drect : ∀ screen x1 y1 x2 y2 color, x1 ≤ x2 → y1 ≤ y2 →
    Paints g.dgetpixel (Inside w h) (fun p => (x1 ≤ p.1 ∧ p.1 ≤ x2) ∧ y1 ≤ p.2 ∧ p.2 ≤ y2) color screen (g.drect screen x1 y1 x2 y2 color)
  drectBorder : ∀ screen x1 y1 x2 y2 color, x1 ≤ x2 → y1 ≤ y2 →
    Paints g.dgetpixel (Inside w h)
      (fun p => ((x1 ≤ p.1 ∧ p.1 ≤ x2) ∧ y1 ≤ p.2 ∧ p.2 ≤ y2) ∧ (p.1 = x1 ∨ p.1 = x2 ∨ p.2 = y1 ∨ p.2 = y2)) color screen
      (g.drectBorder screen x1 y1 x2 y2 cNone 1 color)

variable {σ : Type} {g : GintRects σ} {rect : Rect} {width : Int}

/-- `draw.rect` paints the outline in memory and on a screen of the same size. -/
def DrawsOutline (g : GintRects σ) (s : Surface) (screen : σ) (rect : Rect) (width : Int) : Prop :=
  ∀ color, s.Painted (rect.Outline width) color (s.drawRect color rect width).1 ∧
    Paints g.dgetpixel (Inside s.w s.h) (rect.Outline width) color screen (drawRectScreen g screen color rect width).1

theorem drawRect_bands (s : Surface) (color : Pixel) (hw : 0 < rect.w) (hh : 0 < rect.h) (hwidth : 0 < width) :
    s.Painted (rect.Bands width) color (s.drawRect color rect width).1 := by
  rw [Surface.drawRect, if_neg (by omega), if_neg (by omega), max_eq_right (show 1 ≤ width by omega)]
  exact (((Surface.fill_painted s color _).trans (Surface.fill_painted _ color _)).trans (Surface.fill_painted _ color _)).trans
    (Surface.fill_painted _ color _)

theorem drawRect_whole (s : Surface) (color : Pixel) (hw : 0 < rect.w) (hh : 0 < rect.h) (hwidth : width ≤ 0) :
    s.Painted rect.Contains color (s.drawRect color rect width).1 := by
  rw [Surface.drawRect, if_neg (by omega), if_pos hwidth]
  exact Surface.fill_painted s color rect

theorem drawRectScreen_whole {w h : Int} (hg : g.Documented w h) (screen : σ) (color : Pixel) (hw : 0 < rect.w) (hh : 0 < rect.h)
    (hwidth : width ≤ 0) : Paints g.dgetpixel (Inside w h) rect.Contains color screen (drawRectScreen g screen color rect width).1 := by
  rw [drawRectScreen, if_neg (by omega), if_pos hwidth]
  refine (hg.drect screen _ _ _ _ color (by rw [Rect.right]; omega) (by rw [Rect.bottom]; omega)).congr fun p _ => ?_
  simp only [Rect.Contains]
  omega

/-- The border `n` has the pixels that are `n` from an edge. -/
theorem drawRectScreen_borders {w h : Int} (hg : g.Documented w h) (screen : σ) (color : Pixel) (hw : 0 < rect.w) (hh : 0 < rect.h)
    (hwidth : 0 < width) :
    Paints g.dgetpixel (Inside w h) (rect.Outline (rect.borders width)) color screen (drawRectScreen g screen color rect width).1 := by
  have hborders : 2 * rect.borders width ≤ rect.w + 1 ∧ 2 * rect.borders width ≤ rect.h + 1 ∧ 1 ≤ rect.borders width := by
    rw [Rect.borders]
    omega
  rw [drawRectScreen, if_neg (by omega), if_neg (by omega)]
  have hloop := Paints.loop (fun _ : σ => True) (fun screen (n : Nat) =>
      g.drectBorder screen (rect.x + n) (rect.y + n) (rect.right - 1 - n) (rect.bottom - 1 - n) cNone 1 color) _
    (rect.borders width).toNat (s := screen) trivial fun n hn screen _ => ⟨trivial, hg.drectBorder screen _ _ _ _ color
      (by rw [Rect.right]; omega) (by rw [Rect.bottom]; omega)⟩
  refine hloop.2.congr fun p _ => ?_
  have hpos := hborders.2.2
  clear hloop hborders
  constructor
  · rintro ⟨n, hn, hon⟩
    have hdist := Rect.on_border_iff.mp hon
    exact ⟨Rect.contains_iff_distance.mpr (by rw [hdist]; exact Int.natCast_nonneg n), .inr (by rw [hdist]; exact Int.lt_toNat.mp hn)⟩
  · rintro ⟨hin, hdist⟩
    obtain ⟨n, hn⟩ := Int.eq_ofNat_of_zero_le (Rect.contains_iff_distance.mp hin)
    refine ⟨n, Int.lt_toNat.mpr ?_, Rect.on_border_iff.mpr hn⟩
    rw [hn] at hdist
    exact hdist.resolve_left (Int.not_le.mpr hpos)

theorem other_color (color : Option Pixel) : ∃ other : Pixel, color ≠ some other := by
  by_cases h : color = some 0
  · exact ⟨1, by rw [h]; simp⟩
  · exact ⟨0, h⟩

/-- `draw.rect` paints just the outline, in memory as on the screen, when no band reaches
the surface outside of the rectangle and the borders leave nothing out. -/
theorem drawRect_iff (s : Surface) (screen : σ) (hg : g.Documented s.w s.h) (hw : 0 < rect.w) (hh : 0 < rect.h) :
    DrawsOutline g s screen rect width ↔ width ≤ 0 ∨ rect.Framed width s.w s.h := by
  rcases le_or_gt width 0 with hwidth | hwidth
  · refine iff_of_true (fun color => ?_) (.inl hwidth)
    have hwhole : ∀ p, rect.Contains p ↔ rect.Outline width p := fun p => by simp [Rect.Outline, hwidth]
    obtain ⟨hsw, hsh, hpaints⟩ := drawRect_whole s color hw hh hwidth
    exact ⟨⟨hsw, hsh, hpaints.congr fun p _ => hwhole p⟩, (drawRectScreen_whole hg screen color hw hh hwidth).congr fun p _ => hwhole p⟩
  · rw [or_iff_right (by omega)]
    constructor
    · intro hdraws
      have hbands : ∀ p, Inside s.w s.h p → (rect.Bands width p ↔ rect.Outline width p) := fun p hp => by
        obtain ⟨color, hcolor⟩ := other_color (s.pixel p)
        exact (drawRect_bands s color hw hh hwidth).2.2.unique (hdraws color).1.2.2 hp hcolor
      have hborders : ∀ p, Inside s.w s.h p → (rect.Outline (rect.borders width) p ↔ rect.Outline width p) := fun p hp => by
        obtain ⟨color, hcolor⟩ := other_color (some (g.dgetpixel screen p))
        exact (drawRectScreen_borders hg screen color hw hh hwidth).unique (hdraws color).2 hp fun e => hcolor (congrArg some e)
      -- a pixel that is painted as part of a band, and is not in the rectangle
      have hmiss : ∀ band : Rect, (∀ p, band.Contains p → rect.Bands width p ∧ ¬ rect.Contains p) → band.Misses s.w s.h := by
        intro band hband
        refine Rect.misses_iff.mpr fun p hp hin => ?_
        obtain ⟨hpainted, hout⟩ := hband p hin
        exact hout ((hbands p hp).mp hpainted).1
      constructor
      · refine hmiss _ fun p hin => ⟨(Rect.bands_iff hw hh hwidth p).mpr (.inr (.inl hin)), ?_⟩
        simp only [Rect.Contains, Rect.right, Rect.bottom] at *
        omega
      · refine hmiss _ fun p hin => ⟨(Rect.bands_iff hw hh hwidth p).mpr (.inr (.inr (.inl hin))), ?_⟩
        simp only [Rect.Contains, Rect.right, Rect.bottom] at *
        omega
      · refine hmiss _ fun p hin => ⟨(Rect.bands_iff hw hh hwidth p).mpr (.inr (.inr (.inr (.inl hin)))), ?_⟩
        simp only [Rect.Contains, Rect.right, Rect.bottom] at *
        omega
      · refine hmiss _ fun p hin => ⟨(Rect.bands_iff hw hh hwidth p).mpr (.inr (.inr (.inr (.inr hin)))), ?_⟩
        simp only [Rect.Contains, Rect.right, Rect.bottom] at *
        omega
      · intro hlt
        refine Rect.misses_iff.mpr fun p hp hin => ?_
        have hone : 1 ≤ rect.borders width := le_max_left _ _
        have hborder := (hborders p hp).mpr ((Rect.borders_iff hwidth p).mpr (.inr ⟨hlt, hin⟩))
        simp only [Rect.Outline, Rect.edgeDistance, Rect.Contains, Rect.right, Rect.bottom] at hborder hin
        omega
    · intro hframed color
      obtain ⟨hsw, hsh, hpaints⟩ := drawRect_bands s color hw hh hwidth
      refine ⟨⟨hsw, hsh, hpaints.congr fun p hp => ?_⟩, (drawRectScreen_borders hg screen color hw hh hwidth).congr fun p hp => ?_⟩
      · have h1 := Rect.misses_iff.mp hframed.above p hp
        have h2 := Rect.misses_iff.mp hframed.below p hp
        have h3 := Rect.misses_iff.mp hframed.left p hp
        have h4 := Rect.misses_iff.mp hframed.right p hp
        rw [Rect.bands_iff hw hh hwidth]
        tauto
      · have h5 := fun hlt => Rect.misses_iff.mp (hframed.middle hlt) p hp
        rw [Rect.borders_iff hwidth]
        tauto

/-- A screen as a function of the pixel. -/
def pictureRects : GintRects (Int × Int → Pixel) where
  dgetpixel screen p := screen p
  drect screen x1 y1 x2 y2 color p :=
    if (min x1 x2 ≤ p.1 ∧ p.1 ≤ max x1 x2) ∧ min y1 y2 ≤ p.2 ∧ p.2 ≤ max y1 y2 then color else screen p
  drectBorder screen x1 y1 x2 y2 fill border color p :=
    if (min x1 x2 ≤ p.1 ∧ p.1 ≤ max x1 x2) ∧ min y1 y2 ≤ p.2 ∧ p.2 ≤ max y1 y2 then
      if p.1 < min x1 x2 + border ∨ max x1 x2 - border < p.1 ∨ p.2 < min y1 y2 + border ∨ max y1 y2 - border < p.2 then color
      else if fill = cNone then screen p else BitVec.ofInt 16 fill
    else screen p

theorem pictureRects_documented (w h : Int) : pictureRects.Documented w h where
  drect screen x1 y1 x2 y2 color hx hy p _ := by
    simp only [pictureRects, min_eq_left hx, max_eq_right hx, min_eq_left hy, max_eq_right hy]
    exact ⟨fun hin => if_pos hin, fun hout => if_neg hout⟩
  drectBorder screen x1 y1 x2 y2 color hx hy p _ := by
    simp only [pictureRects, min_eq_left hx, max_eq_right hx, min_eq_left hy, max_eq_right hy, if_true]
    constructor
    · rintro ⟨hin, hborder⟩
      rw [if_pos hin, if_pos (by omega)]
    · intro hout
      by_cases hin : (x1 ≤ p.1 ∧ p.1 ≤ x2) ∧ y1 ≤ p.2 ∧ p.2 ≤ y2
      · rw [if_pos hin, if_neg fun hborder => hout ⟨hin, by omega⟩]
      · rw [if_neg hin]

theorem drawRect_iff_square :
    DrawsOutline pictureRects (Surface.blank 2 2 0 (by decide)) (fun _ => 0) ⟨0, 0, 2, 2⟩ 1 ↔
      (1 : Int) ≤ 0 ∨ Rect.Framed ⟨0, 0, 2, 2⟩ 1 2 2 :=
  drawRect_iff (Surface.blank 2 2 0 (by decide)) (fun _ => 0) (pictureRects_documented 2 2) (by decide) (by decide)

/-- A border of 2 for a rectangle one pixel high also paints the row below it. -/
theorem drawRect_paints_outside :
    ¬ DrawsOutline pictureRects (Surface.blank 2 2 0 (by decide)) (fun _ => 0) ⟨0, 0, 2, 1⟩ 2 ∧ ¬ Rect.Contains ⟨0, 0, 2, 1⟩ (0, 1) ∧
      ((Surface.blank 2 2 0 (by decide)).drawRect 1 ⟨0, 0, 2, 1⟩ 2).1.pixel (0, 1) = some 1 := by
  have hpainted : ((Surface.blank 2 2 0 (by decide)).drawRect 1 ⟨0, 0, 2, 1⟩ 2).1.pixel (0, 1) = some 1 := by decide
  refine ⟨fun hdraws => ?_, by decide, hpainted⟩
  have hkept := ((hdraws 1).1.2.2 (0, 1) (by decide)).2 fun hin => absurd hin.1 (by decide)
  rw [hpainted] at hkept
  exact absurd hkept (by decide)

end PythonUltra.Pygame
