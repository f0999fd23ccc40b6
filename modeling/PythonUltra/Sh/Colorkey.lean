/-
  PythonUltra.Sh.Colorkey — the colour-key blit (ports/sh/colorkey.h).

  pe_blit_rgb565_key draws a rectangle of an RGB565 image into a frame buffer, but for the
  pixels that have the key's colour. The rectangle is clipped against the source, the clip
  window and the frame, each axis by itself (`clipAxis`), in 64-bit arithmetic; what is left
  is copied by two loops that trust the result. Every read and write is checked in the
  model: `none` is an access outside a buffer.

  Proved: for all int arguments the pixels changed are those of the intersection whose
  colour is not the key, taken as a uint16_t, and every access is inside (`blit_exact`).
-/

import PythonUltra.Lib.Raster
import Mathlib.Tactic.Ring

namespace PythonUltra.Sh.Colorkey

open Lib.Raster

abbrev Byte : Type := BitVec 8
abbrev Pixel : Type := BitVec 16

def int32 (x : Int) : Int := x.bmod (2 ^ 32)
def int64 (x : Int) : Int := x.bmod (2 ^ 64)

/-- What is left of `length` places, from place `s` of the source, at place `d` of a frame of `size`. -/
def clipAxis (size clipStart clipEnd source d s length : Int) : Int × Int :=
  let start := 0
  let stop := length
  let clipStart := if clipStart < 0 then 0 else clipStart
  let clipEnd := if clipEnd > size then size else clipEnd
  let start := if int64 (-s) > start then int64 (-s) else start
  let start := if int64 (clipStart - d) > start then int64 (clipStart - d) else start
  let stop := if int64 (source - s) < stop then int64 (source - s) else stop
  let stop := if int64 (clipEnd - d) < stop then int64 (clipEnd - d) else stop
  (start, stop)

/-- A pixel of the image, high byte first. -/
def color (source : Array Byte) (i : Int) : Option Pixel := do
  let high ← load source i
  let low ← load source (i + 1)
  pure (high.zeroExtend 16 <<< 8 ||| low.zeroExtend 16)

/-- The body of the inner loop. -/
def blitPixel (source : Array Byte) (stride dw src dst : Int) (key : Pixel) (dest : Array Pixel) (yx : Nat × Nat) : Option (Array Pixel) := do
  let color ← color source (src + yx.1 * stride + 2 * yx.2)
  if color ≠ key then store dest (dst + yx.1 * dw + yx.2) color else some dest

def peBlitRgb565Key (dest : Array Pixel) (dw dh clipLeft clipTop clipRight clipBottom : Int) (source : Array Byte) (sw sh stride : Int)
    (dx dy sx sy width height key : Int) : Option (Array Pixel) :=
  let (left, right) := clipAxis dw clipLeft clipRight sw dx sx width
  let (top, bottom) := clipAxis dh clipTop clipBottom sh dy sy height
  if left ≥ right ∨ top ≥ bottom then some dest
  else
    let count := int32 (int64 (right - left))
    let rows := int32 (int64 (bottom - top))
    let srcX := int32 (int64 (sx + left))
    let srcY := int32 (int64 (sy + top))
    let dstX := int32 (int64 (dx + left))
    let dstY := int32 (int64 (dy + top))
    let src := srcY * stride + int32 (2 * srcX)
    let dst := dstY * dw + dstX
    (List.range rows.toNat).foldlM (fun dest y =>
      (List.range count.toNat).foldlM (fun dest x => blitPixel source stride dw src dst (BitVec.ofInt 16 key) dest (y, x)) dest) dest

/-! ## Clipping -/

/-- A C `int`. -/
def IsInt (x : Int) : Prop := -2 ^ 31 ≤ x ∧ x < 2 ^ 31

instance (x : Int) : Decidable (IsInt x) := inferInstanceAs (Decidable (_ ∧ _))

theorem int32_eq {x : Int} (h1 : -2 ^ 31 ≤ x) (h2 : x < 2 ^ 31) : int32 x = x := Int.bmod_eq_of_le (by omega) (by omega)

theorem int64_eq {x : Int} (h1 : -2 ^ 33 ≤ x) (h2 : x ≤ 2 ^ 33) : int64 x = x := Int.bmod_eq_of_le (by omega) (by omega)

variable {size clipStart clipEnd source d s length : Int}

/-- The place is in the frame, in the window, in the rectangle and in the source. -/
def Visible (size clipStart clipEnd source d s length p : Int) : Prop :=
  (0 ≤ p ∧ p < size) ∧ (clipStart ≤ p ∧ p < clipEnd) ∧ (0 ≤ p - d ∧ p - d < length) ∧ 0 ≤ p - d + s ∧ p - d + s < source

instance (size clipStart clipEnd source d s length p : Int) : Decidable (Visible size clipStart clipEnd source d s length p) :=
  inferInstanceAs (Decidable (_ ∧ _ ∧ _ ∧ _ ∧ _))

theorem clipAxis_eq (h1 : IsInt size) (h2 : IsInt clipStart) (h3 : IsInt clipEnd) (h4 : IsInt source) (h5 : IsInt d) (h6 : IsInt s) :
    clipAxis size clipStart clipEnd source d s length =
      (max (max 0 (-s)) (max clipStart 0 - d), min (min length (source - s)) (min clipEnd size - d)) := by
  simp only [IsInt] at h1 h2 h3 h4 h5 h6
  have hs : int64 (-s) = -s := int64_eq (by omega) (by omega)
  have hsource : int64 (source - s) = source - s := int64_eq (by omega) (by omega)
  have hstart : int64 ((if clipStart < 0 then 0 else clipStart) - d) = max clipStart 0 - d := by
    by_cases hneg : clipStart < 0
    · rw [if_pos hneg, max_eq_right (Int.le_of_lt hneg), int64_eq (by omega) (by omega)]
    · rw [if_neg hneg, max_eq_left (Int.not_lt.mp hneg), int64_eq (by omega) (by omega)]
  have hend : int64 ((if clipEnd > size then size else clipEnd) - d) = min clipEnd size - d := by
    by_cases hlarge : clipEnd > size
    · rw [if_pos hlarge, min_eq_right (Int.le_of_lt hlarge), int64_eq (by omega) (by omega)]
    · rw [if_neg hlarge, min_eq_left (Int.not_lt.mp hlarge), int64_eq (by omega) (by omega)]
  simp only [clipAxis, hs, hsource, hstart, hend]
  clear hs hsource hstart hend h1 h2 h3 h4 h5 h6
  generalize max clipStart 0 - d = start, min clipEnd size - d = stop
  refine Prod.ext ?_ ?_
  · show (if start > (if -s > 0 then -s else 0) then start else if -s > 0 then -s else 0) = _
    grind
  · show (if stop < (if source - s < length then source - s else length) then stop else if source - s < length then source - s else length) = _
    grind

/-- What is left, and where it is. -/
theorem clipAxis_spec (h1 : IsInt size) (h2 : IsInt clipStart) (h3 : IsInt clipEnd) (h4 : IsInt source) (h5 : IsInt d) (h6 : IsInt s) (h7 : IsInt length) :
    ∃ start stop, clipAxis size clipStart clipEnd source d s length = (start, stop) ∧
      (∀ p, start ≤ p - d ∧ p - d < stop ↔ Visible size clipStart clipEnd source d s length p) ∧
      (start < stop → int32 (int64 (stop - start)) = stop - start ∧ int32 (int64 (s + start)) = s + start ∧ int32 (int64 (d + start)) = d + start) := by
  refine ⟨_, _, clipAxis_eq h1 h2 h3 h4 h5 h6, fun p => ?_, fun hlt => ?_⟩
  · simp only [Visible, max_le_iff, lt_min_iff, sub_le_sub_iff_right, sub_lt_sub_iff_right]
    grind
  · have hlow : 0 ≤ max (max 0 (-s)) (max clipStart 0 - d) ∧ -s ≤ max (max 0 (-s)) (max clipStart 0 - d) ∧ -d ≤ max (max 0 (-s)) (max clipStart 0 - d) :=
      ⟨le_max_of_le_left (le_max_left _ _), le_max_of_le_left (le_max_right _ _), le_max_of_le_right (by have := le_max_right clipStart 0; omega)⟩
    have hhigh : min (min length (source - s)) (min clipEnd size - d) ≤ length ∧ min (min length (source - s)) (min clipEnd size - d) ≤ source - s ∧
        min (min length (source - s)) (min clipEnd size - d) ≤ size - d :=
      ⟨min_le_of_left_le (min_le_left _ _), min_le_of_left_le (min_le_right _ _), min_le_of_right_le (by have := min_le_right clipEnd size; omega)⟩
    generalize max (max 0 (-s)) (max clipStart 0 - d) = start, min (min length (source - s)) (min clipEnd size - d) = stop at *
    have hsize := h1.2
    have hsource := h4.2
    have hlength := h7.2
    clear h1 h2 h3 h4 h5 h6 h7
    rw [int64_eq (by omega) (by omega), int64_eq (by omega) (by omega), int64_eq (by omega) (by omega)]
    exact ⟨int32_eq (by omega) (by omega), int32_eq (by omega) (by omega), int32_eq (by omega) (by omega)⟩

/-! ## The copy -/

variable {dest : Array Pixel} {pixels : Array Byte} {dw dh clipLeft clipTop clipRight clipBottom sw sh stride dx dy sx sy width height key : Int}

/-- The pixel of the image at a point. -/
def sourcePixel (pixels : Array Byte) (stride : Int) (q : Int × Int) : Option Pixel := color pixels (q.2 * stride + 2 * q.1)

theorem sourcePixel_some {q : Int × Int} (hstride : 2 * sw ≤ stride) (hlarge : 0 < sw → 0 < sh → (sh - 1) * stride + 2 * sw ≤ pixels.size)
    (hq : Inside sw sh q) : ∃ v, sourcePixel pixels stride q = some v := by
  obtain ⟨h1, h2, h3, h4⟩ := hq
  have hroom := hlarge (by omega) (by omega)
  have hrow : 0 ≤ q.2 * stride := mul_nonneg h3 (by omega)
  have hlast : q.2 * stride ≤ (sh - 1) * stride := mul_le_mul_of_nonneg_right (by omega) (by omega)
  obtain ⟨high, hhigh⟩ := Option.isSome_iff_exists.mp (load_isSome.mpr ⟨by omega, by omega⟩ : (load pixels (q.2 * stride + 2 * q.1)).isSome = true)
  obtain ⟨low, hlow⟩ := Option.isSome_iff_exists.mp (load_isSome.mpr ⟨by omega, by omega⟩ : (load pixels (q.2 * stride + 2 * q.1 + 1)).isSome = true)
  exact ⟨_, by rw [sourcePixel, color, hhigh, hlow]; rfl⟩

/-- The buffers are as large as they are said to be. -/
structure Buffers (dest : Array Pixel) (dw dh : Int) (pixels : Array Byte) (sw sh stride : Int) : Prop where
  frameWidth : 0 ≤ dw ∧ IsInt dw
  frameHeight : 0 ≤ dh ∧ IsInt dh
  frameSize : (dest.size : Int) = dw * dh
  sourceWidth : IsInt sw
  sourceHeight : IsInt sh
  rowSize : 2 * sw ≤ stride ∧ IsInt stride
  sourceSize : 0 < sw → 0 < sh → (sh - 1) * stride + 2 * sw ≤ pixels.size

theorem frame_get (hdest : (dest.size : Int) = dw * dh) {p : Int × Int} (hp : Inside dw dh p) :
    (frame dw dh).get dest p = load dest (offset dw p) ∧ (load dest (offset dw p)).isSome = true := by
  obtain ⟨h1, h2⟩ := offset_bounds hp
  exact ⟨if_pos hp, load_isSome.mpr ⟨h1, by omega⟩⟩

/-- The two loops paint the pixels of a rectangle, when it lies in both pictures. -/
theorem copy_spec (rows count : Nat) (srcX srcY dstX dstY : Int) {k : Pixel} (hb : Buffers dest dw dh pixels sw sh stride)
    (hsrc : ∀ y < rows, ∀ x < count, Inside sw sh (srcX + x, srcY + y)) (hdst : ∀ y < rows, ∀ x < count, Inside dw dh (dstX + x, dstY + y)) :
    ∃ dest', (List.range rows).foldlM (fun dest y => (List.range count).foldlM
        (fun dest x => blitPixel pixels stride dw (srcY * stride + 2 * srcX) (dstY * dw + dstX) k dest (y, x)) dest) dest = some dest' ∧
      dest'.size = dest.size ∧
      (∀ y < rows, ∀ x < count, ∃ v, sourcePixel pixels stride (srcX + x, srcY + y) = some v ∧
        load dest' (offset dw (dstX + x, dstY + y)) = if v ≠ k then some v else load dest (offset dw (dstX + x, dstY + y))) ∧
      ∀ p, Inside dw dh p → (∀ y < rows, ∀ x < count, p ≠ (dstX + x, dstY + y)) → load dest' (offset dw p) = load dest (offset dw p) := by
  have hcolor : ∀ y < rows, ∀ x < count, ∃ v, sourcePixel pixels stride (srcX + x, srcY + y) = some v := fun y hy x hx =>
    sourcePixel_some hb.rowSize.1 hb.sourceSize (hsrc y hy x hx)
  -- each turn of the inner loop is a point that is painted
  let op (yx : Nat × Nat) : (Int × Int) × Option Pixel :=
    ((dstX + yx.2, dstY + yx.1), (sourcePixel pixels stride (srcX + yx.2, srcY + yx.1)).filter (· ≠ k))
  have hturn : ∀ y < rows, ∀ x < count, ∀ dest,
      blitPixel pixels stride dw (srcY * stride + 2 * srcX) (dstY * dw + dstX) k dest (y, x) = (frame dw dh).paint dest (op (y, x)) := by
    intro y hy x hx dest
    obtain ⟨v, hv⟩ := hcolor y hy x hx
    have hread : color pixels (srcY * stride + 2 * srcX + y * stride + 2 * x) = some v := by
      rw [← hv, sourcePixel]
      congr 1
      ring
    have hwrite : dstY * dw + dstX + y * dw + x = offset dw (dstX + x, dstY + y) := by
      rw [offset]
      ring
    rw [blitPixel, hread, hwrite]
    by_cases hvk : v = k
    · simp [op, hv, hvk, Canvas.paint, Option.filter]
    · simp [op, hv, hvk, Canvas.paint, Option.filter, frame]
  have hinj : ∀ yx yx', (op yx).1 = (op yx').1 → yx = yx' := by
    intro yx yx' he
    obtain ⟨h1, h2⟩ := Prod.mk.inj he
    exact Prod.ext (by omega) (by omega)
  have hget : ∀ {dest : Array Pixel} {p : Int × Int}, Inside dw dh p → (frame dw dh).get dest p = load dest (offset dw p) := fun hp => if_pos hp
  obtain ⟨dest', hrun, hpainted, hrest, hkeeps⟩ := (frame dw dh).paint_loops _ op hturn hinj (s := dest) fun y hy x hx => by
    obtain ⟨h1, h2⟩ := frame_get hb.frameSize (hdst y hy x hx)
    exact h1 ▸ h2
  refine ⟨dest', hrun, hkeeps (fun d => d.size = dest.size) (fun d o d' hd hsize => ?_) rfl, fun y hy x hx => ?_, fun p hp hout => ?_⟩
  · obtain ⟨p, v⟩ := o
    cases v with
    | none => exact Option.some.inj hd ▸ hsize
    | some v => exact (store_size hd).trans hsize
  · obtain ⟨v, hv⟩ := hcolor y hy x hx
    have hp := hpainted y hy x hx
    rw [hget (hdst y hy x hx), hget (hdst y hy x hx)] at hp
    refine ⟨v, hv, hp.trans ?_⟩
    by_cases hvk : v = k
    · simp [op, hv, hvk, Option.filter]
    · simp [op, hv, hvk, Option.filter]
  · rw [← hget hp, ← hget hp]
    exact hrest p hout

/-! ## The blit -/

/-- All arguments. -/
structure Ints (clipLeft clipTop clipRight clipBottom dx dy sx sy width height : Int) : Prop where
  clip : IsInt clipLeft ∧ IsInt clipTop ∧ IsInt clipRight ∧ IsInt clipBottom
  place : IsInt dx ∧ IsInt dy ∧ IsInt sx ∧ IsInt sy
  size : IsInt width ∧ IsInt height

/-- What the blit leaves at each point. -/
theorem blit_pixels (key : Int) (hb : Buffers dest dw dh pixels sw sh stride) (hi : Ints clipLeft clipTop clipRight clipBottom dx dy sx sy width height) :
    ∃ dest', peBlitRgb565Key dest dw dh clipLeft clipTop clipRight clipBottom pixels sw sh stride dx dy sx sy width height key = some dest' ∧
      dest'.size = dest.size ∧ ∀ X Y, Inside dw dh (X, Y) → load dest' (offset dw (X, Y)) =
        if Visible dw clipLeft clipRight sw dx sx width X ∧ Visible dh clipTop clipBottom sh dy sy height Y ∧
            sourcePixel pixels stride (X - dx + sx, Y - dy + sy) ≠ some (BitVec.ofInt 16 key) then
          sourcePixel pixels stride (X - dx + sx, Y - dy + sy)
        else load dest (offset dw (X, Y)) := by
  obtain ⟨⟨hcl, hct, hcr, hcb⟩, ⟨hdx, hdy, hsx, hsy⟩, hwidth, hheight⟩ := hi
  obtain ⟨left, right, hx, hvx, hexactx⟩ := clipAxis_spec hb.frameWidth.2 hcl hcr hb.sourceWidth hdx hsx hwidth
  obtain ⟨top, bottom, hy, hvy, hexacty⟩ := clipAxis_spec hb.frameHeight.2 hct hcb hb.sourceHeight hdy hsy hheight
  rw [peBlitRgb565Key, hx, hy]
  by_cases hempty : left ≥ right ∨ top ≥ bottom
  · refine ⟨dest, if_pos hempty, rfl, fun X Y _ => ?_⟩
    rw [if_neg]
    rintro ⟨h1, h2, -⟩
    have h1 := (hvx X).mpr h1
    have h2 := (hvy Y).mpr h2
    omega
  · simp only [if_neg hempty]
    rw [not_or, not_le, not_le] at hempty
    obtain ⟨hcount, hsrcX, hdstX⟩ := hexactx hempty.1
    obtain ⟨hrows, hsrcY, hdstY⟩ := hexacty hempty.2
    rw [hcount, hsrcX, hdstX, hrows, hsrcY, hdstY]
    have hvisX : ∀ x < (right - left).toNat, Visible dw clipLeft clipRight sw dx sx width (dx + left + x) := fun x hlt => (hvx _).mp (by omega)
    have hvisY : ∀ y < (bottom - top).toNat, Visible dh clipTop clipBottom sh dy sy height (dy + top + y) := fun y hlt => (hvy _).mp (by omega)
    have hdouble : int32 (2 * (sx + left)) = 2 * (sx + left) := by
      obtain ⟨-, -, -, h1, h2⟩ := hvisX 0 (by omega)
      have hs := hb.rowSize
      simp only [IsInt] at hs
      exact int32_eq (by omega) (by omega)
    rw [hdouble]
    obtain ⟨dest', hrun, hsize, hin, hout⟩ := copy_spec (bottom - top).toNat (right - left).toNat (sx + left) (sy + top)
      (dx + left) (dy + top) (k := BitVec.ofInt 16 key) hb (fun y hlt x hlt' => by
        have h1 := hvisX x hlt'
        have h2 := hvisY y hlt
        simp only [Visible] at h1 h2
        simp only [Inside]
        omega) fun y hlt x hlt' => by
        have h1 := hvisX x hlt'
        have h2 := hvisY y hlt
        simp only [Visible] at h1 h2
        simp only [Inside]
        omega
    refine ⟨dest', hrun, hsize, fun X Y hXY => ?_⟩
    by_cases hvis : Visible dw clipLeft clipRight sw dx sx width X ∧ Visible dh clipTop clipBottom sh dy sy height Y
    · have h1 := (hvx X).mpr hvis.1
      have h2 := (hvy Y).mpr hvis.2
      obtain ⟨v, hv, hload⟩ := hin (Y - dy - top).toNat (by omega) (X - dx - left).toNat (by omega)
      rw [show dx + left + ((X - dx - left).toNat : Int) = X by omega, show dy + top + ((Y - dy - top).toNat : Int) = Y by omega] at hload
      rw [show sx + left + ((X - dx - left).toNat : Int) = X - dx + sx by omega, show sy + top + ((Y - dy - top).toNat : Int) = Y - dy + sy by omega] at hv
      rw [hload, hv]
      by_cases hk : v = BitVec.ofInt 16 key
      · rw [if_neg (not_not_intro hk), if_neg fun h => h.2.2 (congrArg some hk)]
      · rw [if_pos hk, if_pos ⟨hvis.1, hvis.2, fun h => hk (Option.some.inj h)⟩]
    · rw [if_neg fun h => hvis ⟨h.1, h.2.1⟩]
      refine hout (X, Y) hXY fun y hlt x hlt' he => ?_
      obtain ⟨rfl, rfl⟩ := Prod.mk.inj he
      exact hvis ⟨hvisX x hlt', hvisY y hlt⟩

/-- The blit ends with every access in bounds. A pixel is changed when it is visible and the source
pixel there has not the key's colour, and has that pixel's value then. -/
theorem blit_exact (hb : Buffers dest dw dh pixels sw sh stride) (hi : Ints clipLeft clipTop clipRight clipBottom dx dy sx sy width height) :
    ∃ dest', peBlitRgb565Key dest dw dh clipLeft clipTop clipRight clipBottom pixels sw sh stride dx dy sx sy width height key = some dest' ∧
      dest'.size = dest.size ∧ ∀ X Y, Inside dw dh (X, Y) → load dest' (offset dw (X, Y)) =
        if Visible dw clipLeft clipRight sw dx sx width X ∧ Visible dh clipTop clipBottom sh dy sy height Y ∧
            sourcePixel pixels stride (X - dx + sx, Y - dy + sy) ≠ some (BitVec.ofInt 16 key) then
          sourcePixel pixels stride (X - dx + sx, Y - dy + sy)
        else load dest (offset dw (X, Y)) :=
  blit_pixels key hb hi

theorem onePixel_buffers : Buffers #[5] 1 1 #[0, 0] 1 1 2 :=
  ⟨⟨by decide, by decide⟩, ⟨by decide, by decide⟩, by decide, by decide, by decide, ⟨by decide, by decide⟩, fun _ _ => by decide⟩

theorem onePixel_ints : Ints 0 0 1 1 0 0 0 0 1 1 :=
  ⟨⟨by decide, by decide, by decide, by decide⟩, ⟨by decide, by decide, by decide, by decide⟩, by decide, by decide⟩

theorem blit_exact_one_pixel :
    ∃ dest', peBlitRgb565Key #[5] 1 1 0 0 1 1 #[0, 0] 1 1 2 0 0 0 0 1 1 7 = some dest' ∧
      dest'.size = #[(5 : Pixel)].size ∧ ∀ X Y, Inside 1 1 (X, Y) → load dest' (offset 1 (X, Y)) =
        if Visible 1 0 1 1 0 0 1 X ∧ Visible 1 0 1 1 0 0 1 Y ∧ sourcePixel #[0, 0] 2 (X - 0 + 0, Y - 0 + 0) ≠ some (BitVec.ofInt 16 7) then
          sourcePixel #[0, 0] 2 (X - 0 + 0, Y - 0 + 0)
        else load #[5] (offset 1 (X, Y)) :=
  blit_exact onePixel_buffers onePixel_ints

/-- A black pixel is not drawn with the key 65536, though its colour is not 65536. -/
theorem black_is_key_65536 :
    Visible 1 0 1 1 0 0 1 0 ∧ sourcePixel #[0, 0] 2 (0, 0) = some 0 ∧ ((0 : Pixel).toNat : Int) ≠ 65536 ∧
      peBlitRgb565Key #[5] 1 1 0 0 1 1 #[0, 0] 1 1 2 0 0 0 0 1 1 65536 = some #[5] := by
  decide

end PythonUltra.Sh.Colorkey
