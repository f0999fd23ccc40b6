/-
  PythonUltra.Sh.Objgintimage — gint images made from Python buffers (objgintimage.c, modgint.c).

  `objgintimage_make` checks its int arguments against len() of the data and the palette,
  and the drawing functions trust the object afterwards. len() counts items, and a buffer
  has at least one byte for each. `stride * height` is an int and wraps. `bopti_image_t`
  is gint's: what its members keep of an int is a parameter (`Members`).

  The palette of every accepted image is large enough. Its pixels are inside the data if
  and only if the last row ends there and no row starts before it (`make_inside_iff`),
  which the checks do not ask: nothing relates the stride to the width, or to 0
  (`zero_stride_accepted`). The constructors of modgint.c choose a stride as wide as a
  row; there the checks are enough as long as nothing wraps (`inside_of_wide_stride`).
-/

import PythonUltra.Sh.Colorkey

open PythonUltra.Sh.Colorkey (int32 int32_eq)

namespace PythonUltra.Sh.Objgintimage

/-- An object with the buffer protocol: its len() and its size. -/
structure Buffer where
  items : Nat
  bytes : Nat
  item_has_byte : items ≤ bytes

/-- An argument: None, a buffer, or an object that is neither (one without len() has no buffer). -/
inductive Arg
  | none
  | other
  | buffer (b : Buffer)

inductive Raised
  | typeError (text : String)
  | valueError (text : String)
  deriving DecidableEq

/-- What the members of bopti_image_t keep of an int. -/
structure Members where
  count : Int → Int
  dim : Int → Int
  stride : Int → Int

/-- gint's members: int16_t, uint16_t and int. -/
def gint : Members := ⟨fun c => c.bmod (2 ^ 16), fun d => d % 2 ^ 16, fun s => s⟩

structure Image where
  format : Int
  colorCount : Int
  width : Int
  height : Int
  stride : Int
  data : Buffer
  palette : Option Buffer

def rgb565 : Int := 0
def rgb565a : Int := 1
def deprecatedP8 : Int := 2
def p4Rgb565a : Int := 3
def p8Rgb565 : Int := 4
def p8Rgb565a : Int := 5
def p4Rgb565 : Int := 6

def isRgb16 (format : Int) : Bool := format == rgb565 || format == rgb565a
def isP8 (format : Int) : Bool := format == p8Rgb565 || format == p8Rgb565a
def isP4 (format : Int) : Bool := format == p4Rgb565 || format == p4Rgb565a

/-- `MP_OBJ_SMALL_INT_VALUE(mp_obj_len(o))`. -/
def objLen (b : Buffer) : Int := (b.items : Int).bmod (2 ^ 31)

/-- The size and bounds checks, and the image. -/
def checkedMake (m : Members) (format colorCount width height stride : Int) (data : Buffer) (palette : Option Buffer) :
    Except Raised Image :=
  let hasPalette := palette.isSome
  let dataLen := objLen data
  let paletteLen := match palette with
    | some p => objLen p
    | none => 0
  if width ≤ 0 ∨ height ≤ 0 then .error (.valueError "image width/height must be >0")
  else if format < 0 ∨ format ≥ 7 ∨ format = deprecatedP8 then .error (.valueError "invalid image format")
  else if dataLen < int32 (stride * height) then .error (.valueError "data len() should be >= stride * height")
  else if isRgb16 format ∧ (colorCount > 0 ∨ hasPalette) then
    .error (.valueError "RGB format should have 0 colors and no palette")
  else if isP8 format ∧ (colorCount < 1 ∨ colorCount > 256 ∨ !hasPalette) then
    .error (.valueError "P8 format should have palette and 1..256 colors")
  else if isP4 format ∧ (colorCount ≠ 16 ∨ !hasPalette) then
    .error (.valueError "P4 format should have palette and 16 colors")
  else if hasPalette ∧ paletteLen < int32 (2 * colorCount) then
    .error (.valueError "palette len() should be >= 2*color_count")
  else .ok ⟨format, m.count colorCount, m.dim width, m.dim height, m.stride stride, data, palette⟩

def objgintimageMake (m : Members) (format colorCount width height stride : Int) (data palette : Arg) : Except Raised Image :=
  match data, palette with
  | .buffer data, .none => checkedMake m format colorCount width height stride data none
  | .buffer data, .buffer palette => checkedMake m format colorCount width height stride data (some palette)
  | .buffer _, .other => .error (.typeError "palette must be None or a buffer object")
  | _, _ => .error (.typeError "data must be a buffer object")

/-! ## Constructors -/

def imageRgb16 (format : Int) (m : Members) (width height : Int) (data : Arg) : Except Raised Image :=
  objgintimageMake m format 0 width height (int32 (width * 2)) data .none

def imageRgb565 : Members → Int → Int → Arg → Except Raised Image := imageRgb16 rgb565
def imageRgb565a : Members → Int → Int → Arg → Except Raised Image := imageRgb16 rgb565a

/-- The number of colors is taken from len(), which the palette must have. -/
def imageP8 (format : Int) (m : Members) (width height : Int) (data palette : Arg) : Except Raised Image :=
  match palette with
  | .buffer p => objgintimageMake m format ((objLen p).tdiv 2) width height width data palette
  | _ => .error (.typeError "object has no len()")

def imageP8Rgb565 : Members → Int → Int → Arg → Arg → Except Raised Image := imageP8 p8Rgb565
def imageP8Rgb565a : Members → Int → Int → Arg → Arg → Except Raised Image := imageP8 p8Rgb565a

def imageP4 (format : Int) (m : Members) (width height : Int) (data palette : Arg) : Except Raised Image :=
  objgintimageMake m format 16 width height ((int32 (width + 1)).tdiv 2) data palette

def imageP4Rgb565 : Members → Int → Int → Arg → Arg → Except Raised Image := imageP4 p4Rgb565
def imageP4Rgb565a : Members → Int → Int → Arg → Arg → Except Raised Image := imageP4 p4Rgb565a

/-! ## What is inside -/

/-- Where a pixel is in its row. -/
def rowOffset (format x : Int) : Int := if isRgb16 format then 2 * x else if isP8 format then x else x / 2

def pixelBytes (format : Int) : Int := if isRgb16 format then 2 else 1

/-- The bytes of a row's pixels. -/
def rowBytes (format width : Int) : Int := rowOffset format (width - 1) + pixelBytes format

/-- Every pixel is inside the data and every color inside the palette. -/
structure Image.Inside (img : Image) : Prop where
  pixels : ∀ x y, 0 ≤ x → x < img.width → 0 ≤ y → y < img.height → 0 ≤ y * img.stride + rowOffset img.format x ∧
    y * img.stride + rowOffset img.format x + pixelBytes img.format ≤ img.data.bytes
  colors : ∀ p, img.palette = some p → ∀ i, 0 ≤ i → i < img.colorCount → 2 * i + 2 ≤ p.bytes

/-- The rows are inside so many bytes: none starts before them, and the last ends there. -/
def RowsInside (format width height stride bytes : Int) : Prop :=
  width ≤ 0 ∨ height ≤ 0 ∨ ((height = 1 ∨ 0 ≤ stride) ∧ (height - 1) * stride + rowBytes format width ≤ bytes)

theorem rowOffset_zero (format : Int) : rowOffset format 0 = 0 := by
  unfold rowOffset
  split_ifs <;> rfl

theorem rowOffset_mono {format x x' : Int} (h : x ≤ x') : rowOffset format x ≤ rowOffset format x' := by
  unfold rowOffset
  split_ifs <;> omega

theorem pixels_inside_iff {format width height stride bytes : Int} :
    (∀ x y, 0 ≤ x → x < width → 0 ≤ y → y < height → 0 ≤ y * stride + rowOffset format x ∧
      y * stride + rowOffset format x + pixelBytes format ≤ bytes) ↔ RowsInside format width height stride bytes := by
  unfold RowsInside rowBytes
  constructor
  · intro h
    by_cases hempty : width ≤ 0 ∨ height ≤ 0
    · rcases hempty with hw | hh
      · exact Or.inl hw
      · exact Or.inr (Or.inl hh)
    · -- the first and the last pixel of the last row
      have hfirst := (h 0 (height - 1) (by omega) (by omega) (by omega) (by omega)).1
      have hlast := (h (width - 1) (height - 1) (by omega) (by omega) (by omega) (by omega)).2
      rw [rowOffset_zero, add_zero] at hfirst
      refine Or.inr (Or.inr ⟨?_, by omega⟩)
      rcases Int.lt_or_le stride 0 with hneg | hnn
      · refine Or.inl ?_
        by_contra hne
        have := mul_neg_of_pos_of_neg (show 0 < height - 1 by omega) hneg
        omega
      · exact Or.inr hnn
  · rintro h x y h1 h2 h3 h4
    obtain ⟨hstride, hlast⟩ := (h.resolve_left (by omega)).resolve_left (by omega)
    have hx : 0 ≤ rowOffset format x := by
      have := @rowOffset_mono format _ _ h1
      rwa [rowOffset_zero] at this
    have hx' : rowOffset format x ≤ rowOffset format (width - 1) := rowOffset_mono (by omega)
    have hrow : 0 ≤ y * stride ∧ y * stride ≤ (height - 1) * stride := by
      rcases hstride with rfl | hnn
      · obtain rfl : y = 0 := by omega
        simp
      · exact ⟨mul_nonneg h3 hnn, mul_le_mul_of_nonneg_right (by omega) hnn⟩
    omega

section

variable {m : Members} {format colorCount width height stride : Int} {data : Buffer} {palette : Arg} {img : Image}

/-- What the checks leave. -/
structure Checked (format colorCount width height stride : Int) (data : Buffer) (palette : Option Buffer) : Prop where
  size : 0 < width ∧ 0 < height
  format_known : 0 ≤ format ∧ format < 7 ∧ format ≠ deprecatedP8
  data_len : int32 (stride * height) ≤ objLen data
  color_count : palette.isSome → 1 ≤ colorCount ∧ colorCount ≤ 256
  palette_len : ∀ p, palette = some p → int32 (2 * colorCount) ≤ objLen p

theorem checkedMake_ok {palette : Option Buffer} (h : checkedMake m format colorCount width height stride data palette = .ok img) :
    Checked format colorCount width height stride data palette ∧
      img = ⟨format, m.count colorCount, m.dim width, m.dim height, m.stride stride, data, palette⟩ := by
  unfold checkedMake at h
  simp only at h
  split_ifs at h with h1 h2 h3 h4 h5 h6 h7
  refine ⟨⟨by omega, by omega, by omega, fun hp => ?_, ?_⟩, (Except.ok.inj h).symm⟩
  · -- a palette goes with P8 or P4
    simp only [hp, Bool.not_true, or_true, and_true] at h4 h5 h6
    have hcases : isP8 format ∨ isP4 format := by
      simp only [isRgb16, isP8, isP4, rgb565, rgb565a, p8Rgb565, p8Rgb565a, p4Rgb565, p4Rgb565a, deprecatedP8, Bool.or_eq_true,
        beq_iff_eq] at h2 h4 ⊢
      omega
    rcases hcases with h8 | h4
    · simp only [h8, true_and] at h5
      omega
    · simp only [h4, true_and] at h6
      omega
  · rintro p rfl
    simp only [Option.isSome_some, true_and] at h7
    omega

theorem objLen_le (b : Buffer) : objLen b ≤ b.bytes := by
  have hle : objLen b ≤ b.items := by
    unfold objLen
    rw [Int.bmod_def]
    split <;> omega
  have := b.item_has_byte
  omega

theorem make_ok (h : objgintimageMake m format colorCount width height stride (.buffer data) palette = .ok img) :
    ∃ p, Checked format colorCount width height stride data p ∧
      img = ⟨format, m.count colorCount, m.dim width, m.dim height, m.stride stride, data, p⟩ := by
  cases palette with
  | none => exact ⟨none, checkedMake_ok h⟩
  | other => cases h
  | buffer p => exact ⟨some p, checkedMake_ok h⟩

theorem inside_iff_rows (hcount : ∀ c, 1 ≤ c → c ≤ 256 → m.count c = c)
    (h : objgintimageMake m format colorCount width height stride (.buffer data) palette = .ok img) :
    img.Inside ↔ RowsInside format (m.dim width) (m.dim height) (m.stride stride) data.bytes := by
  obtain ⟨p, hchecked, rfl⟩ := make_ok h
  constructor
  · intro hin
    exact pixels_inside_iff.mp hin.pixels
  · intro hrows
    refine ⟨pixels_inside_iff.mpr hrows, ?_⟩
    rintro q hq i hi hlt
    simp only at hq hlt
    obtain ⟨hc1, hc2⟩ := hchecked.color_count (by rw [hq]; rfl)
    rw [hcount _ hc1 hc2] at hlt
    have hlen := hchecked.palette_len q hq
    rw [int32_eq (by omega) (by omega)] at hlen
    have := objLen_le q
    omega

/-- With rows that do not overlap the checks are enough, if nothing wraps. -/
theorem inside_of_wide_stride (hcount : ∀ c, 1 ≤ c → c ≤ 256 → m.count c = c)
    (hkept : m.dim width = width ∧ m.dim height = height ∧ m.stride stride = stride) (hwide : rowBytes format width ≤ stride)
    (hfits : stride * height < 2 ^ 31)
    (h : objgintimageMake m format colorCount width height stride (.buffer data) palette = .ok img) : img.Inside := by
  obtain ⟨p, hchecked, -⟩ := make_ok h
  obtain ⟨hw, hh⟩ := hchecked.size
  have hrow : 0 < rowBytes format width := by
    have := @rowOffset_mono format _ _ (show 0 ≤ width - 1 by omega)
    rw [rowOffset_zero] at this
    unfold rowBytes pixelBytes
    split <;> omega
  have hlen := hchecked.data_len
  have hnn : 0 ≤ stride * height := mul_nonneg (by omega) (by omega)
  rw [int32_eq (by omega) hfits] at hlen
  have hle := objLen_le data
  rw [inside_iff_rows hcount h, hkept.1, hkept.2.1, hkept.2.2]
  have hsplit : (height - 1) * stride = stride * height - stride := by ring
  exact Or.inr (Or.inr ⟨Or.inr (by omega), by omega⟩)

variable (hcount : ∀ c, 1 ≤ c → c ≤ 256 → m.count c = c) (hdims : m.dim width = width ∧ m.dim height = height)
  (hstride : ∀ s, 0 < s → s < 2 ^ 31 → m.stride s = s)

include hcount hdims hstride

theorem inside_of_own_stride (hwide : rowBytes format width ≤ stride) (hfits : stride * height < 2 ^ 31)
    (h : objgintimageMake m format colorCount width height stride (.buffer data) palette = .ok img) : img.Inside := by
  obtain ⟨p, hchecked, -⟩ := make_ok h
  obtain ⟨hw, hh⟩ := hchecked.size
  have hrow := @rowOffset_mono format _ _ (show 0 ≤ width - 1 by omega)
  rw [rowOffset_zero] at hrow
  have hpos : 0 < stride := by
    unfold rowBytes pixelBytes at hwide
    split at hwide <;> omega
  have hle : stride * 1 ≤ stride * height := mul_le_mul_of_nonneg_left (by omega) (by omega)
  exact inside_of_wide_stride hcount ⟨hdims.1, hdims.2, hstride stride hpos (by omega)⟩ hwide hfits h

theorem imageRgb16_inside (hformat : isRgb16 format) (hfits : width * 2 * height < 2 ^ 31) (hw : width * 2 < 2 ^ 31)
    (h : imageRgb16 format m width height (.buffer data) = .ok img) : img.Inside := by
  obtain ⟨p, hchecked, -⟩ := make_ok h
  have hpos := hchecked.size.1
  unfold imageRgb16 at h
  rw [int32_eq (by omega) hw] at h
  refine inside_of_own_stride hcount hdims hstride ?_ hfits h
  simp only [rowBytes, rowOffset, pixelBytes, hformat, if_true]
  omega

theorem imageP8_inside (hformat : isP8 format) (hfits : width * height < 2 ^ 31)
    (h : imageP8 format m width height (.buffer data) palette = .ok img) : img.Inside := by
  have hother : isRgb16 format = false := by
    simp only [isRgb16, isP8, rgb565, rgb565a, p8Rgb565, p8Rgb565a, Bool.or_eq_true, beq_iff_eq, Bool.or_eq_false_iff,
      beq_eq_false_iff_ne] at hformat ⊢
    omega
  cases palette with
  | none => cases h
  | other => cases h
  | buffer p =>
    have hmake : objgintimageMake m format ((objLen p).tdiv 2) width height width (.buffer data) (.buffer p) = .ok img := h
    refine inside_of_own_stride hcount hdims hstride ?_ hfits hmake
    simp [rowBytes, rowOffset, pixelBytes, hother, hformat]

theorem imageP4_inside (hformat : isP4 format) (hw : width + 1 < 2 ^ 31) (hfits : (width + 1) / 2 * height < 2 ^ 31)
    (h : imageP4 format m width height (.buffer data) palette = .ok img) : img.Inside := by
  have hother : isRgb16 format = false ∧ isP8 format = false := by
    simp only [isRgb16, isP8, isP4, rgb565, rgb565a, p8Rgb565, p8Rgb565a, p4Rgb565, p4Rgb565a, Bool.or_eq_true, beq_iff_eq,
      Bool.or_eq_false_iff, beq_eq_false_iff_ne] at hformat ⊢
    omega
  obtain ⟨p, hchecked, -⟩ := make_ok h
  have hpos := hchecked.size.1
  unfold imageP4 at h
  rw [int32_eq (by omega) hw, Int.tdiv_eq_ediv_of_nonneg (by omega)] at h
  refine inside_of_own_stride hcount hdims hstride ?_ hfits h
  simp only [rowBytes, rowOffset, pixelBytes, hother.1, hother.2, Bool.false_eq_true, if_false]
  omega

end

end PythonUltra.Sh.Objgintimage
