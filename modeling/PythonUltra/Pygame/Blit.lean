/-
  PythonUltra.Pygame.Blit — drawing with the native colour-key blit and pixel by pixel.

  Both ways crop alike, and what is left is drawn point by point of one rectangle of the
  clip rectangle (`Composed`), natively from the image and else from what `_get565` reads
  of its data. So the two agree on every display, clip rectangle, place and area just when
  `_get565` reads the image's pixels (`blits_agree_iff`), as it does where the data is bytes
  and the rows are not padded (`readsImage_of_rows`).
-/

import PythonUltra.Pygame.Surface

open PythonUltra.Lib.Raster PythonUltra.Sh.Colorkey

namespace PythonUltra.Pygame

/-! ## Rectangles -/

/-- One rectangle lies in another. -/
def Rect.Within (r o : Rect) : Prop := o.x ≤ r.x ∧ r.right ≤ o.right ∧ o.y ≤ r.y ∧ r.bottom ≤ o.bottom

theorem Rect.clip_spec {r o : Rect} (h : 0 < (r.clip o).w) : (r.clip o).Within r ∧ (r.clip o).Within o ∧ 0 < (r.clip o).h := by
  by_cases hempty : min r.right o.right ≤ max r.x o.x ∨ min r.bottom o.bottom ≤ max r.y o.y
  · have heq : r.clip o = ⟨max r.x o.x, max r.y o.y, 0, 0⟩ := if_pos hempty
    rw [heq] at h
    exact absurd h (by simp)
  · have heq : r.clip o = ⟨max r.x o.x, max r.y o.y, min r.right o.right - max r.x o.x, min r.bottom o.bottom - max r.y o.y⟩ :=
      if_neg hempty
    have hright : (r.clip o).right = min r.right o.right := by
      rw [heq]
      exact add_sub_cancel _ _
    have hbottom : (r.clip o).bottom = min r.bottom o.bottom := by
      rw [heq]
      exact add_sub_cancel _ _
    have hx : (r.clip o).x = max r.x o.x := by rw [heq]
    have hy : (r.clip o).y = max r.y o.y := by rw [heq]
    refine ⟨?_, ?_, ?_⟩
    · rw [Rect.Within, hright, hbottom, hx, hy]
      exact ⟨le_max_left _ _, min_le_left _ _, le_max_left _ _, min_le_left _ _⟩
    · rw [Rect.Within, hright, hbottom, hx, hy]
      exact ⟨le_max_right _ _, min_le_right _ _, le_max_right _ _, min_le_right _ _⟩
    · rw [heq]
      exact sub_pos.mpr (lt_of_not_ge fun h => hempty (.inr h))

variable {dw dh : Int} {clip area result src : Rect} {source : Source} {dest place : Int × Int}

/-- A rectangle that is left lies in the clip rectangle, and so on the surface. -/
structure Cropped (dw dh sw sh : Int) (clip result src : Rect) : Prop where
  size : src.w = result.w ∧ src.h = result.h ∧ 0 < result.w ∧ 0 < result.h
  inClip : result.Within clip
  onTarget : result.Within ⟨0, 0, dw, dh⟩
  inSource : src.Within ⟨0, 0, sw, sh⟩

theorem Rect.Within.trans {r o q : Rect} (h : r.Within o) (h' : o.Within q) : r.Within q := by
  obtain ⟨h1, h2, h3, h4⟩ := h
  obtain ⟨g1, g2, g3, g4⟩ := h'
  exact ⟨g1.trans h1, h2.trans g2, g3.trans h3, h4.trans g4⟩

theorem setClip_within {rect : Option Rect} (h : clip = setClip dw dh rect) (hw : 0 < clip.w) : clip.Within ⟨0, 0, dw, dh⟩ := by
  subst h
  cases rect with
  | none => exact ⟨le_refl _, le_refl _, le_refl _, le_refl _⟩
  | some rect => exact (Rect.clip_spec hw).2.1

theorem shifted_within {part whole bounded : Rect} {x y : Int} (hpart : part.Within whole) (hw : whole.w = bounded.w ∧ whole.h = bounded.h)
    (hx : x = bounded.x + (part.x - whole.x)) (hy : y = bounded.y + (part.y - whole.y)) : Rect.Within ⟨x, y, part.w, part.h⟩ bounded := by
  obtain ⟨h1, h2, h3, h4⟩ := hpart
  simp only [Rect.Within, Rect.right, Rect.bottom] at *
  omega

theorem crop_spec {rect area : Option Rect} {uncropped : Int × Int} (hclip : clip = setClip dw dh rect)
    (h : crop clip source dest area = (result, some (uncropped, place, src))) :
    place = (result.x, result.y) ∧ Cropped dw dh source.w source.h clip result src := by
  unfold crop at h
  simp only at h
  generalize area.getD ⟨0, 0, source.w, source.h⟩ = wanted at h
  obtain ⟨bounded, hbounded⟩ : ∃ bounded, bounded = wanted.clip ⟨0, 0, source.w, source.h⟩ := ⟨_, rfl⟩
  rw [← hbounded] at h
  obtain ⟨whole, hwhole⟩ : ∃ whole : Rect, whole = ⟨dest.1 + (bounded.x - wanted.x), dest.2 + (bounded.y - wanted.y), bounded.w, bounded.h⟩ :=
    ⟨_, rfl⟩
  rw [← hwhole] at h
  split at h
  · simp at h
  rename_i hsome
  obtain ⟨rfl, hrest⟩ := Prod.mk.inj h
  obtain ⟨-, hrest⟩ := Prod.mk.inj (Option.some.inj hrest)
  obtain ⟨rfl, rfl⟩ := Prod.mk.inj hrest
  have hw : 0 < (whole.clip clip).w := by omega
  have hbw : 0 < (wanted.clip ⟨0, 0, source.w, source.h⟩).w := by
    rw [← hbounded]
    omega
  obtain ⟨hinWhole, hinClip, hh⟩ := Rect.clip_spec hw
  have hinSource := (Rect.clip_spec hbw).2.1
  rw [← hbounded] at hinSource
  have hclipw : 0 < clip.w := by
    obtain ⟨h1, h2, -⟩ := hinClip
    simp only [Rect.right] at h2
    omega
  refine ⟨rfl, ⟨rfl, rfl, hw, hh⟩, hinClip, hinClip.trans (setClip_within hclip hclipw), ?_⟩
  refine Rect.Within.trans (shifted_within hinWhole ?_ ?_ ?_) hinSource
  · rw [hwhole]
    exact ⟨rfl, rfl⟩
  · rw [hwhole]
  · rw [hwhole]

/-! ## A surface in memory -/

variable {w h : Int} {data data' : Array Byte} {p : Int × Int}

theorem sourcePixel_rows (data : Array Byte) (w : Int) (p : Int × Int) : sourcePixel data (2 * w) p = color data (2 * offset w p) := by
  unfold sourcePixel offset
  congr 1
  ring

theorem bytes_of_pixel (n : Nat) :
    (BitVec.ofNat 8 (n >>> 8)).zeroExtend 16 <<< 8 ||| (BitVec.ofNat 8 n).zeroExtend 16 = BitVec.ofNat 16 n := by
  apply BitVec.eq_of_getLsbD_eq
  intro i hi
  simp only [BitVec.getLsbD_or, BitVec.getLsbD_shiftLeft, BitVec.truncate_eq_setWidth, BitVec.getLsbD_setWidth, BitVec.getLsbD_ofNat,
    Nat.testBit_shiftRight]
  by_cases h : i < 8
  · simp [h, hi]
  · have h1 : i - 8 < 8 := by omega
    have h1' : i - 8 < 16 := by omega
    have h2 : 8 + (i - 8) = i := by omega
    simp [h, hi, h1, h1', h2]

theorem color_isSome {i : Int} : (color data i).isSome = true ↔ 0 ≤ i ∧ i + 1 < data.size := by
  have h1 := load_isSome (a := data) (i := i)
  have h2 := load_isSome (a := data) (i := i + 1)
  unfold color
  cases hi : load data i with
  | none =>
    rw [hi] at h1
    simp only [Option.isSome_none, Bool.false_eq_true, false_iff] at h1
    simp only [bind, Option.bind, Option.isSome_none, Bool.false_eq_true, false_iff]
    omega
  | some high =>
    rw [hi] at h1
    simp only [Option.isSome_some, true_iff] at h1
    cases hi' : load data (i + 1) with
    | none =>
      rw [hi'] at h2
      simp only [Option.isSome_none, Bool.false_eq_true, false_iff] at h2
      simp only [bind, Option.bind, Option.isSome_none, Bool.false_eq_true, false_iff]
      omega
    | some low =>
      rw [hi'] at h2
      simp only [Option.isSome_some, true_iff] at h2
      simp only [bind, Option.bind, pure, Option.isSome_some, true_iff]
      omega

/-- A pixel put into memory. -/
theorem put565_spec (hp : Inside w h p) (hsome : (sourcePixel data (2 * w) p).isSome = true) (n : Nat) :
    ∃ data', put565 w h data p.1 p.2 n = some data' ∧ data'.size = data.size ∧
      ∀ q, Inside w h q → sourcePixel data' (2 * w) q = if q = p then some (BitVec.ofNat 16 n) else sourcePixel data (2 * w) q := by
  rw [sourcePixel_rows, color_isSome] at hsome
  have hindex : 2 * (p.2 * w + p.1) = 2 * offset w p := rfl
  have hin : ¬ (p.1 < 0 ∨ p.2 < 0 ∨ p.1 ≥ w ∨ p.2 ≥ h) := by
    obtain ⟨h1, h2, h3, h4⟩ := hp
    omega
  obtain ⟨data₁, hstore₁, hsize₁, hload₁⟩ := store_spec (a := data) (i := 2 * offset w p) (v := BitVec.ofNat 8 (n >>> 8))
    (load_isSome.mpr (by omega))
  obtain ⟨data₂, hstore₂, hsize₂, hload₂⟩ := store_spec (a := data₁) (i := 2 * offset w p + 1) (v := BitVec.ofNat 8 n)
    (load_isSome.mpr (by omega))
  refine ⟨data₂, ?_, by rw [hsize₂, hsize₁], fun q hq => ?_⟩
  · rw [put565, if_neg hin]
    simp only [hindex, hstore₁, Option.bind_eq_bind, Option.bind_some, hstore₂]
  · rw [sourcePixel_rows, sourcePixel_rows]
    unfold color
    simp only [hload₂, hload₁]
    by_cases e : q = p
    · subst e
      rw [if_pos rfl, if_neg (by omega), if_pos rfl, if_pos rfl]
      exact congrArg some (bytes_of_pixel n)
    · have hne : offset w q ≠ offset w p := fun he => e (offset_inj hq hp he)
      rw [if_neg e, if_neg (by omega), if_neg (by omega), if_neg (by omega), if_neg (by omega)]

/-- The pixels of a surface in memory. -/
def memory (w h : Int) : Canvas (Array Byte) (Int × Int) Pixel where
  get data p := if Inside w h p then sourcePixel data (2 * w) p else none
  put data p v := put565 w h data p.1 p.2 v.toNat
  put_some data p v hsome := by
    have hp : Inside w h p := by
      by_contra hout
      rw [if_neg hout] at hsome
      exact absurd hsome (by simp)
    rw [if_pos hp] at hsome
    obtain ⟨data', hput, -, hget⟩ := put565_spec hp hsome v.toNat
    refine ⟨data', hput, fun q => ?_⟩
    by_cases hq : Inside w h q
    · rw [if_pos hq, if_pos hq, hget q hq, BitVec.ofNat_toNat, BitVec.setWidth_eq]
    · have hne : q ≠ p := fun e => hq (e ▸ hp)
      rw [if_neg hq, if_neg hq, if_neg hne]

/-! ## Drawing a rectangle -/

/-- What is drawn of a value. -/
def drawnPixel (colorkey : Option Pixel) (n : Nat) : Option Pixel := (drawn colorkey n).map (BitVec.ofNat 16)

/-- The rectangle `result` of a picture has got what `pixel` gives for the points of `src`,
where it gives something; nothing else has changed. -/
def Composed (w h : Int) (old new : Int × Int → Option Pixel) (result src : Rect) (pixel : Int × Int → Option Pixel) : Prop :=
  ∀ p, Inside w h p → new p = if result.Contains p then pixel (p.1 - result.x + src.x, p.2 - result.y + src.y) <|> old p else old p

theorem put565_drawn {target : Array Byte} {x y : Int} (colorkey : Option Pixel) (n : Nat) :
    (match drawn colorkey n with
      | some color => put565 w h target x y color
      | none => pure target) = (memory w h).paint target ((x, y), drawnPixel colorkey n) := by
  unfold drawnPixel Canvas.paint
  cases drawn colorkey n with
  | none => rfl
  | some color =>
    simp only [memory, Option.map_some, put565, BitVec.toNat_ofNat]
    split
    · rfl
    · have h1 : BitVec.ofNat 8 (color >>> 8) = BitVec.ofNat 8 ((color % 2 ^ 16) >>> 8) := by
        apply BitVec.eq_of_toNat_eq
        simp only [BitVec.toNat_ofNat, Nat.shiftRight_eq_div_pow]
        omega
      have h2 : BitVec.ofNat 8 color = BitVec.ofNat 8 (color % 2 ^ 16) := by
        apply BitVec.eq_of_toNat_eq
        simp only [BitVec.toNat_ofNat]
        omega
      rw [h1, h2]

/-- A picture in memory: each point has a pixel. -/
def Picture (w h : Int) (data : Array Byte) : Prop := ∀ p, Inside w h p → (sourcePixel data (2 * w) p).isSome = true

theorem picture_of_size (hsize : (data.size : Int) = 2 * (w * h)) : Picture w h data := by
  intro p hp
  obtain ⟨h1, h2⟩ := offset_bounds hp
  rw [sourcePixel_rows, color_isSome]
  omega

theorem Rect.contains_iff {r : Rect} {q : Int × Int} :
    r.Contains q ↔ ∃ sy < r.h.toNat, ∃ sx < r.w.toNat, q = (r.x + (sx : Nat), r.y + (sy : Nat)) := by
  simp only [Rect.Contains, Rect.right, Rect.bottom]
  constructor
  · intro hq
    exact ⟨(q.2 - r.y).toNat, by omega, (q.1 - r.x).toNat, by omega, Prod.ext (by simp only; omega) (by simp only; omega)⟩
  · rintro ⟨sy, hsy, sx, hsx, rfl⟩
    simp only
    omega

/-- The loops draw the rectangle, if no read fails. -/
theorem softwareCopy_spec (value : Int × Int → Nat) {sw sh : Int} (hcrop : Cropped w h sw sh clip result src) (hdata : Picture w h data)
    (hread : ∀ q, src.Contains q → source.get565 q.1 q.2 = some (value q)) :
    ∃ data', softwareCopy (put565 w h) source result.x result.y src data = some data' ∧
      Composed w h (sourcePixel data (2 * w)) (sourcePixel data' (2 * w)) result src fun q => drawnPixel source.colorkey (value q) := by
  obtain ⟨hw, hh, -, -⟩ := hcrop.size
  -- each turn of the inner loop is a point that is painted
  let op (yx : Nat × Nat) : (Int × Int) × Option Pixel :=
    ((result.x + yx.2, result.y + yx.1), drawnPixel source.colorkey (value (src.x + yx.2, src.y + yx.1)))
  have hturn : ∀ y < src.h.toNat, ∀ x < src.w.toNat, ∀ target,
      (do let color ← source.get565 (src.x + (x : Nat)) (src.y + (y : Nat))
          match drawn source.colorkey color with
          | some color => put565 w h target (result.x + (x : Nat)) (result.y + (y : Nat)) color
          | none => pure target) = (memory w h).paint target (op (y, x)) := by
    intro y hy x hx target
    have hin : src.Contains (src.x + (x : Nat), src.y + (y : Nat)) := Rect.contains_iff.mpr ⟨y, hy, x, hx, rfl⟩
    have hvalue := hread _ hin
    simp only at hvalue
    rw [hvalue, Option.bind_eq_bind, Option.bind_some, put565_drawn]
  have hinside : ∀ y < src.h.toNat, ∀ x < src.w.toNat, Inside w h (op (y, x)).1 := by
    intro y hy x hx
    obtain ⟨g1, g2, g3, g4⟩ := hcrop.onTarget
    simp only [Rect.right, Rect.bottom] at g1 g2 g3 g4
    simp only [op, Inside]
    omega
  have hinj : ∀ yx yx', (op yx).1 = (op yx').1 → yx = yx' := by
    intro yx yx' he
    obtain ⟨h1, h2⟩ := Prod.mk.inj he
    exact Prod.ext (by omega) (by omega)
  have hget : ∀ {data : Array Byte} {p : Int × Int}, Inside w h p → (memory w h).get data p = sourcePixel data (2 * w) p := fun hp => if_pos hp
  obtain ⟨data', hrun, hpainted, hrest, -⟩ := (memory w h).paint_loops (fun target yx => do
      let color ← source.get565 (src.x + (yx.2 : Nat)) (src.y + (yx.1 : Nat))
      match drawn source.colorkey color with
      | some color => put565 w h target (result.x + (yx.2 : Nat)) (result.y + (yx.1 : Nat)) color
      | none => pure target) op hturn hinj (s := data) fun y hy x hx => by
    rw [hget (hinside y hy x hx)]
    exact hdata _ (hinside y hy x hx)
  refine ⟨data', hrun, fun p hp => ?_⟩
  rw [← hget hp, ← hget hp]
  by_cases hin : result.Contains p
  · obtain ⟨sy, hsy, sx, hsx, rfl⟩ := Rect.contains_iff.mp hin
    have hop := hpainted sy (hh ▸ hsy) sx (hw ▸ hsx)
    rw [if_pos hin]
    have hpoint : (result.x + (sx : Int) - result.x + src.x, result.y + (sy : Int) - result.y + src.y) = (src.x + (sx : Int), src.y + (sy : Int)) :=
      Prod.ext (by simp only; omega) (by simp only; omega)
    simp only [hpoint]
    exact hop
  · rw [if_neg hin]
    refine hrest p fun y hy x hx he => ?_
    exact hin (Rect.contains_iff.mpr ⟨y, hh ▸ hy, x, hw ▸ hx, he⟩)

/-! ## The native ways -/

/-- An RGB565 image whose rows are in its buffer. -/
structure Image.Valid (image : Image) : Prop where
  format : image.format = 0
  width : 0 < image.width ∧ IsInt image.width
  height : 0 < image.height ∧ IsInt image.height
  stride : image.width * 2 ≤ image.stride ∧ IsInt image.stride
  size : (image.height - 1) * image.stride + image.width * 2 ≤ image.data.raw.size

/-- A frame buffer of `dw` by `dh`. -/
structure Screen (dw dh : Int) (vram : Array Pixel) : Prop where
  width : 0 ≤ dw ∧ IsInt dw
  height : 0 ≤ dh ∧ IsInt dh
  size : (vram.size : Int) = dw * dh

def screenPixel (dw : Int) (vram : Array Pixel) (p : Int × Int) : Option Pixel := load vram (offset dw p)

/-- What gint's documentation says of dsubimage, for a part of a valid image that is drawn
on the screen as a whole: the part is copied. -/
def Gint.Draws (g : Gint) (dw dh : Int) : Prop := ∀ vram (image : Image) (result src : Rect), Screen dw dh vram → image.Valid →
  src.w = result.w ∧ src.h = result.h → result.Within ⟨0, 0, dw, dh⟩ → src.Within ⟨0, 0, image.width, image.height⟩ →
  Composed dw dh (screenPixel dw vram) (screenPixel dw (g.dsubimage vram result.x result.y image src.x src.y src.w src.h)) result src
    (sourcePixel image.data.raw image.stride)

variable {image : Image} {vram : Array Pixel} {g : Gint}

/-- A pixel of the image, or nothing for the key. -/
def imagePixel (image : Image) (colorkey : Option Pixel) (q : Int × Int) : Option Pixel :=
  (sourcePixel image.data.raw image.stride q).bind fun a => drawnPixel colorkey a.toNat

theorem drawnPixel_key (key a : Pixel) : drawnPixel (some key) a.toNat = if a = key then none else some a := by
  unfold drawnPixel drawn
  by_cases e : a = key
  · simp [e]
  · have : a.toNat ≠ key.toNat := fun h => e (BitVec.eq_of_toNat_eq h)
    simp [e, this]

theorem drawnPixel_none (a : Pixel) : drawnPixel none a.toNat = some a := by
  simp [drawnPixel, drawn]

theorem Image.Valid.buffers (hvalid : image.Valid) (hscreen : Screen dw dh vram) :
    Buffers vram dw dh image.data.raw image.width image.height image.stride := by
  obtain ⟨-, hwidth, hheight, hstride, hsize⟩ := hvalid
  refine ⟨hscreen.width, hscreen.height, hscreen.size, hwidth.2, hheight.2, ⟨by omega, hstride.2⟩, fun _ _ => ?_⟩
  rw [mul_comm 2]
  exact hsize

theorem Image.Valid.pixel (hvalid : image.Valid) {q : Int × Int} (hq : Inside image.width image.height q) :
    ∃ a, sourcePixel image.data.raw image.stride q = some a := by
  have hstride : 2 * image.width ≤ image.stride := by
    have := hvalid.stride
    omega
  refine sourcePixel_some hstride (fun _ _ => ?_) hq
  rw [mul_comm 2]
  exact hvalid.size

/-- The native blit draws the rectangle. -/
theorem dsubimageColorkey_spec (key : Pixel) (hvalid : image.Valid) (hscreen : Screen dw dh vram)
    (hcrop : Cropped dw dh image.width image.height clip result src) :
    ∃ vram', dsubimageColorkey vram dw dh result.x result.y image src.x src.y src.w src.h key = .ok vram' ∧
      Composed dw dh (screenPixel dw vram) (screenPixel dw vram') result src (imagePixel image (some key)) := by
  obtain ⟨hw, hh, hpos, hpos'⟩ := hcrop.size
  obtain ⟨g1, g2, g3, g4⟩ := hcrop.onTarget
  obtain ⟨s1, s2, s3, s4⟩ := hcrop.inSource
  simp only [Rect.right, Rect.bottom] at g1 g2 g3 g4 s1 s2 s3 s4
  have hdw := hscreen.width
  have hdh := hscreen.height
  have hiw := hvalid.width
  have hih := hvalid.height
  simp only [IsInt] at hdw hdh hiw hih
  have hints : Ints 0 0 dw dh result.x result.y src.x src.y src.w src.h := by
    refine ⟨⟨by decide, by decide, hscreen.width.2, hscreen.height.2⟩, ?_, ?_⟩
    · simp only [IsInt]
      omega
    · simp only [IsInt]
      omega
  obtain ⟨vram', hrun, -, hpixels⟩ := blit_pixels key.toNat (hvalid.buffers hscreen) hints
  refine ⟨vram', ?_, fun p hp => ?_⟩
  · have hstride := hvalid.stride
    have hsize := hvalid.size
    rw [dsubimageColorkey, if_neg (by rw [hvalid.format]; simp), if_neg (by omega), hrun]
  · obtain ⟨X, Y⟩ := p
    have hpixel := hpixels X Y hp
    have hkey : BitVec.ofInt 16 (key.toNat : Int) = key := by
      rw [BitVec.ofInt_natCast, BitVec.ofNat_toNat, BitVec.setWidth_eq]
    rw [hkey] at hpixel
    show load vram' (offset dw (X, Y)) = if result.Contains (X, Y) then
      imagePixel image (some key) (X - result.x + src.x, Y - result.y + src.y) <|> load vram (offset dw (X, Y)) else load vram (offset dw (X, Y))
    rw [hpixel]
    by_cases hin : result.Contains (X, Y)
    · have hvisible : Visible dw 0 dw image.width result.x src.x src.w X ∧ Visible dh 0 dh image.height result.y src.y src.h Y := by
        obtain ⟨h1, h2, h3, h4⟩ := hp
        obtain ⟨c1, c2, c3, c4⟩ := hin
        simp only [Rect.right, Rect.bottom] at c1 c2 c3 c4 h1 h2 h3 h4
        simp only [Visible]
        omega
      obtain ⟨a, ha⟩ := hvalid.pixel (q := (X - result.x + src.x, Y - result.y + src.y)) (by
        obtain ⟨⟨-, -, -, h1⟩, ⟨-, -, -, h2⟩⟩ := hvisible
        exact ⟨h1.1, h1.2, h2.1, h2.2⟩)
      rw [if_pos hin, ha, imagePixel, ha, Option.bind_some, drawnPixel_key]
      by_cases e : a = key
      · rw [if_neg fun h => h.2.2 (congrArg some e), if_pos e]
        rfl
      · rw [if_pos ⟨hvisible.1, hvisible.2, fun h => e (Option.some.inj h)⟩, if_neg e]
        rfl
    · rw [if_neg hin, if_neg]
      rintro ⟨⟨-, -, h1, -⟩, ⟨-, -, h2, -⟩, -⟩
      apply hin
      simp only [Rect.Contains, Rect.right, Rect.bottom]
      omega

/-! ## The two blits -/

/-- The frame buffer and the memory show the same. -/
def SamePicture (dw dh : Int) (vram : Array Pixel) (data : Array Byte) : Prop :=
  ∀ p, Inside dw dh p → screenPixel dw vram p = sourcePixel data (2 * dw) p

/-- Drawn on the screen and on a surface in memory that shows the same, the source changes
both alike, the rectangle returned is the same, and nothing changes beside `clip`. -/
def BlitsAgree (g : Gint) (dw dh : Int) (clip : Rect) (vram : Array Pixel) (data : Array Byte) (source : Source) (dest : Int × Int)
    (area : Option Rect) : Prop :=
  ∃ vram' data' result, blitScreen g dw dh clip vram source dest area = .ok (vram', result) ∧
    blitMemory dw dh clip data source dest area = .ok (data', result) ∧ SamePicture dw dh vram' data' ∧
      ∀ p, Inside dw dh p → ¬ clip.Contains p →
        screenPixel dw vram' p = screenPixel dw vram p ∧ sourcePixel data' (2 * dw) p = sourcePixel data (2 * dw) p

/-- At every point `_get565` reads a value that is drawn as the image's pixel there. -/
def ReadsImage (image : Image) (colorkey : Option Pixel) : Prop :=
  ∀ q, Inside image.width image.height q → ∃ n, (Source.ofImage image colorkey).get565 q.1 q.2 = some n ∧
    drawnPixel colorkey n = imagePixel image colorkey q

/-- The native drawing of an image with or without a key. -/
theorem blitScreen_image {colorkey : Option Pixel} {rect area : Option Rect} {uncropped : Int × Int} (hg : g.Draws dw dh)
    (hvalid : image.Valid) (hscreen : Screen dw dh vram) (hclip : clip = setClip dw dh rect)
    (hcrop : crop clip (Source.ofImage image colorkey) dest area = (result, some (uncropped, place, src))) :
    ∃ vram', blitScreen g dw dh clip vram (Source.ofImage image colorkey) dest area = .ok (vram', result) ∧
      Composed dw dh (screenPixel dw vram) (screenPixel dw vram') result src (imagePixel image colorkey) := by
  obtain ⟨rfl, hcropped⟩ := crop_spec hclip hcrop
  have htext : (Source.ofImage image colorkey).text = false := rfl
  have himage : (Source.ofImage image colorkey).image = some image := rfl
  have hkey : (Source.ofImage image colorkey).colorkey = colorkey := rfl
  unfold blitScreen
  rw [hcrop]
  simp only [htext, himage, hkey, Bool.false_eq_true, if_false]
  cases colorkey with
  | none =>
    refine ⟨_, rfl, ?_⟩
    have hdraws := hg vram image result src hscreen hvalid ⟨hcropped.size.1, hcropped.size.2.1⟩ hcropped.onTarget hcropped.inSource
    have hpixel : imagePixel image none = sourcePixel image.data.raw image.stride := by
      funext q
      unfold imagePixel
      cases sourcePixel image.data.raw image.stride q with
      | none => rfl
      | some a => exact drawnPixel_none a
    rw [hpixel]
    exact hdraws
  | some key =>
    obtain ⟨vram', hrun, hcomposed⟩ := dsubimageColorkey_spec key hvalid hscreen hcropped
    refine ⟨vram', ?_, hcomposed⟩
    simp only [hvalid.format, if_true, hrun]
    rfl

/-- Drawing with the native functions and pixel by pixel come to the same. -/
theorem blits_agree {colorkey : Option Pixel} {rect : Option Rect} (hg : g.Draws dw dh) (hvalid : image.Valid) (hscreen : Screen dw dh vram)
    (hdata : Picture dw dh data) (hsame : SamePicture dw dh vram data) (hreads : ReadsImage image colorkey) (dest : Int × Int)
    (area : Option Rect) : BlitsAgree g dw dh (setClip dw dh rect) vram data (Source.ofImage image colorkey) dest area := by
  obtain ⟨clip, hclip⟩ : ∃ clip, clip = setClip dw dh rect := ⟨_, rfl⟩
  rw [← hclip]
  obtain ⟨result, hcrop | ⟨uncropped, place, src, hcrop⟩⟩ : ∃ result, crop clip (Source.ofImage image colorkey) dest area = (result, none) ∨
      ∃ uncropped place src, crop clip (Source.ofImage image colorkey) dest area = (result, some (uncropped, place, src)) := by
    obtain ⟨result, rest⟩ := crop clip (Source.ofImage image colorkey) dest area
    cases rest with
    | none => exact ⟨result, .inl rfl⟩
    | some rest => exact ⟨result, .inr ⟨rest.1, rest.2.1, rest.2.2, rfl⟩⟩
  · refine ⟨vram, data, result, ?_, ?_, hsame, fun _ _ _ => ⟨rfl, rfl⟩⟩
    · rw [blitScreen, hcrop]
    · rw [blitMemory, hcrop]
  · obtain ⟨vram', hnative, hvram'⟩ := blitScreen_image hg hvalid hscreen hclip hcrop
    obtain ⟨rfl, hcropped⟩ := crop_spec hclip hcrop
    have hinside : ∀ q, src.Contains q → Inside image.width image.height q := by
      intro q hq
      obtain ⟨h1, h2, h3, h4⟩ := hcropped.inSource
      simp only [Rect.Contains, Rect.right, Rect.bottom, Inside, Source.ofImage] at *
      omega
    have hvalue : ∀ q, ∃ n, src.Contains q → (Source.ofImage image colorkey).get565 q.1 q.2 = some n ∧
        drawnPixel colorkey n = imagePixel image colorkey q := by
      intro q
      by_cases hq : src.Contains q
      · obtain ⟨n, hn⟩ := hreads q (hinside q hq)
        exact ⟨n, fun _ => hn⟩
      · exact ⟨0, fun h => absurd h hq⟩
    choose value hvalue using hvalue
    obtain ⟨data', hrun, hdata'⟩ := softwareCopy_spec _ hcropped hdata fun q hq => (hvalue q hq).1
    refine ⟨vram', data', result, hnative, ?_, fun p hp => ?_, fun p hp hout => ?_⟩
    · rw [blitMemory, hcrop]
      simp only [hrun, orIndexError]
    · rw [hvram' p hp, hdata' p hp, hsame p hp]
      by_cases hin : result.Contains p
      · have hq : src.Contains (p.1 - result.x + src.x, p.2 - result.y + src.y) := by
          obtain ⟨hw, hh, -, -⟩ := hcropped.size
          simp only [Rect.Contains, Rect.right, Rect.bottom] at *
          omega
        have hdrawn := (hvalue _ hq).2
        rw [if_pos hin, if_pos hin, ← hdrawn]
        rfl
      · rw [if_neg hin, if_neg hin]
    · have hin : ¬ result.Contains p := by
        intro hin
        apply hout
        obtain ⟨h1, h2, h3, h4⟩ := hcropped.inClip
        simp only [Rect.Contains] at *
        omega
      rw [hvram' p hp, hdata' p hp, if_neg hin, if_neg hin]
      exact ⟨rfl, rfl⟩

/-! ## One point -/

/-- A picture of one colour. -/
def plainData (n : Nat) (d : Pixel) : Array Byte :=
  Array.ofFn fun i : Fin (2 * n) => if i.val % 2 = 0 then BitVec.ofNat 8 (d.toNat >>> 8) else BitVec.ofNat 8 d.toNat

theorem color_plainData {n : Nat} {k : Int} (d : Pixel) (h0 : 0 ≤ k) (h1 : k < n) : color (plainData n d) (2 * k) = some d := by
  have hload : ∀ i : Int, 0 ≤ i → i < 2 * n → load (plainData n d) i =
      some (if i.toNat % 2 = 0 then BitVec.ofNat 8 (d.toNat >>> 8) else BitVec.ofNat 8 d.toNat) := by
    intro i hi hlt
    unfold load plainData
    rw [if_pos hi, Array.getElem?_ofFn, dif_pos (by omega)]
  unfold color
  rw [hload _ (by omega) (by omega), hload _ (by omega) (by omega), if_pos (by omega), if_neg (by omega)]
  refine congrArg some ((bytes_of_pixel d.toNat).trans ?_)
  rw [BitVec.ofNat_toNat, BitVec.setWidth_eq]

theorem plain_same (d : Pixel) :
    SamePicture dw dh (Array.replicate (dw * dh).toNat d) (plainData (dw * dh).toNat d) := by
  intro p hp
  obtain ⟨h1, h2⟩ := offset_bounds hp
  rw [sourcePixel_rows, color_plainData d h1 (by omega), screenPixel, load, if_pos h1, Array.getElem?_replicate, if_pos (by omega)]

variable (source) in
/-- One point of the image, drawn at the corner of the screen. -/
theorem crop_one {q : Int × Int} (hdw : 0 < dw) (hdh : 0 < dh) (hq : Inside source.w source.h q) :
    crop (setClip dw dh none) source (0, 0) (some ⟨q.1, q.2, 1, 1⟩) = (⟨0, 0, 1, 1⟩, some ((0, 0), (0, 0), ⟨q.1, q.2, 1, 1⟩)) := by
  obtain ⟨h1, h2, h3, h4⟩ := hq
  have hclip : ∀ x y w h : Int, 0 ≤ x → x < w → 0 ≤ y → y < h → Rect.clip ⟨x, y, 1, 1⟩ ⟨0, 0, w, h⟩ = ⟨x, y, 1, 1⟩ := by
    intro x y w h hx hxw hy hyh
    have hleft : ¬ (min (x + 1) (0 + w) ≤ max x 0 ∨ min (y + 1) (0 + h) ≤ max y 0) := by omega
    have heq : Rect.clip ⟨x, y, 1, 1⟩ ⟨0, 0, w, h⟩ = ⟨max x 0, max y 0, min (x + 1) (0 + w) - max x 0, min (y + 1) (0 + h) - max y 0⟩ :=
      if_neg hleft
    rw [heq, Rect.mk.injEq]
    omega
  unfold crop setClip
  simp only [Option.getD_some, hclip q.1 q.2 source.w source.h h1 h2 h3 h4, sub_self, add_zero,
    hclip 0 0 dw dh (le_refl 0) hdw (le_refl 0) hdh]
  rw [if_neg (by omega)]

theorem eq_of_orElse {a b : Option Pixel} (h : ∀ d, (a <|> some d) = (b <|> some d)) : a = b := by
  cases a with
  | none =>
    cases b with
    | none => rfl
    | some v =>
      have hv : some (v + 1) = some v := h (v + 1)
      exact absurd (Option.some.inj hv) (by simp)
  | some v =>
    cases b with
    | none =>
      have hv : some v = some (v + 1) := h (v + 1)
      exact absurd (Option.some.inj hv) (by simp)
    | some u => exact h 0

/-- Where the two agree about each single point, the image's pixels are read. -/
theorem readsImage_of_agree {colorkey : Option Pixel} (hg : g.Draws dw dh) (hvalid : image.Valid) (hdw : 0 < dw ∧ IsInt dw) (hdh : 0 < dh ∧ IsInt dh)
    (h : ∀ vram data rect dest area, Screen dw dh vram → (data.size : Int) = 2 * (dw * dh) → SamePicture dw dh vram data →
      BlitsAgree g dw dh (setClip dw dh rect) vram data (Source.ofImage image colorkey) dest area) : ReadsImage image colorkey := by
  intro q hq
  have hpos : 0 < dw * dh := mul_pos hdw.1 hdh.1
  have hcrop := crop_one (Source.ofImage image colorkey) hdw.1 hdh.1 hq
  have horigin : Inside dw dh (0, 0) := ⟨le_refl 0, hdw.1, le_refl 0, hdh.1⟩
  have hone : (⟨0, 0, 1, 1⟩ : Rect).Contains (0, 0) := by decide
  have hscreen : ∀ d, Screen dw dh (Array.replicate (dw * dh).toNat d) := by
    intro d
    refine ⟨⟨by omega, hdw.2⟩, ⟨by omega, hdh.2⟩, ?_⟩
    rw [Array.size_replicate]
    omega
  have hdata : ∀ d, ((plainData (dw * dh).toNat d).size : Int) = 2 * (dw * dh) := by
    intro d
    rw [plainData, Array.size_ofFn]
    omega
  have hagree := fun d => h _ _ none (0, 0) (some ⟨q.1, q.2, 1, 1⟩) (hscreen d) (hdata d) (plain_same d)
  -- the read does not fail
  obtain ⟨n, hn⟩ : ∃ n, (Source.ofImage image colorkey).get565 q.1 q.2 = some n := by
    obtain ⟨vram', data', result, -, hmemory, -⟩ := hagree 0
    cases hread : (Source.ofImage image colorkey).get565 q.1 q.2 with
    | some n => exact ⟨n, rfl⟩
    | none =>
      have hfails : softwareCopy (put565 dw dh) (Source.ofImage image colorkey) 0 0 ⟨q.1, q.2, 1, 1⟩ (plainData (dw * dh).toNat 0) = none := by
        simp [softwareCopy, hread]
      rw [blitMemory, hcrop] at hmemory
      simp only [hfails, orIndexError] at hmemory
      exact absurd hmemory (by simp)
  refine ⟨n, hn, eq_of_orElse fun d => ?_⟩
  obtain ⟨vram', data', result, hnative, hmemory, hsame, -⟩ := hagree d
  obtain ⟨vram₁, hrun₁, hvram₁⟩ := blitScreen_image hg hvalid (hscreen d) rfl hcrop
  obtain ⟨-, hcropped⟩ := crop_spec rfl hcrop
  obtain ⟨data₁, hrun₂, hdata₁⟩ := softwareCopy_spec (fun _ => n) hcropped (picture_of_size (hdata d)) fun q' hq' => by
    have : q' = q := by
      simp only [Rect.Contains, Rect.right, Rect.bottom] at hq'
      exact Prod.ext (by omega) (by omega)
    rw [this, hn]
  have hvram : vram' = vram₁ := by
    rw [hrun₁] at hnative
    exact (Prod.mk.inj (Except.ok.inj hnative)).1.symm
  have hdata' : data' = data₁ := by
    rw [blitMemory, hcrop] at hmemory
    simp only [hrun₂, orIndexError] at hmemory
    exact (Prod.mk.inj (Except.ok.inj hmemory)).1.symm
  have hold := plain_same d (0, 0) horigin
  have hbefore : sourcePixel (plainData (dw * dh).toNat d) (2 * dw) (0, 0) = some d := by
    rw [sourcePixel_rows]
    exact color_plainData d (offset_bounds horigin).1 (by have := (offset_bounds horigin).2; omega)
  have hpoint := hsame (0, 0) horigin
  rw [hvram, hdata', hvram₁ _ horigin, hdata₁ _ horigin, if_pos hone, if_pos hone, hold, hbefore] at hpoint
  simp only [sub_self, zero_add, Prod.mk.eta] at hpoint
  exact hpoint.symm

/-- For any image, the native blit and the copy in memory agree everywhere just when the
surface reads the image's own pixels. -/
theorem blits_agree_iff {colorkey : Option Pixel} (hg : g.Draws dw dh) (hvalid : image.Valid) (hdw : 0 < dw ∧ IsInt dw) (hdh : 0 < dh ∧ IsInt dh) :
    (∀ vram data rect dest area, Screen dw dh vram → (data.size : Int) = 2 * (dw * dh) → SamePicture dw dh vram data →
      BlitsAgree g dw dh (setClip dw dh rect) vram data (Source.ofImage image colorkey) dest area) ↔ ReadsImage image colorkey :=
  ⟨readsImage_of_agree hg hvalid hdw hdh, fun hreads _ _ _ dest area hscreen hsize hsame =>
    blits_agree hg hvalid hscreen (picture_of_size hsize) hsame hreads dest area⟩

/-! ## Rows without padding -/

theorem toNat_color (high low : Byte) : (high.zeroExtend 16 <<< 8 ||| low.zeroExtend 16).toNat = high.toNat <<< 8 ||| low.toNat := by
  have h1 := high.isLt
  have h2 := low.isLt
  simp only [BitVec.toNat_or, BitVec.toNat_shiftLeft, BitVec.truncate_eq_setWidth, BitVec.toNat_setWidth, Nat.shiftLeft_eq]
  rw [Nat.mod_eq_of_lt (a := high.toNat) (by omega), Nat.mod_eq_of_lt (a := low.toNat) (by omega), Nat.mod_eq_of_lt (by omega)]

/-- A source that reads bytes, in rows of `2 * w`. -/
theorem get565_of_bytes {raw : Array Byte} {q : Int × Int} {a : Pixel} (hitem : ∀ i, source.data.item i = (load raw i).map BitVec.toNat)
    (hq : Inside source.w source.h q) (ha : sourcePixel raw (2 * source.w) q = some a) : source.get565 q.1 q.2 = some a.toNat := by
  rw [sourcePixel_rows] at ha
  obtain ⟨high, hhigh, hrest⟩ := Option.bind_eq_some_iff.mp ha
  obtain ⟨low, hlow, hpixel⟩ := Option.bind_eq_some_iff.mp hrest
  have hin : ¬ (q.1 < 0 ∨ q.2 < 0 ∨ q.1 ≥ source.w ∨ q.2 ≥ source.h) := by
    obtain ⟨h1, h2, h3, h4⟩ := hq
    omega
  have hindex : 2 * (q.2 * source.w + q.1) = 2 * offset source.w q := rfl
  rw [Source.get565, if_neg hin]
  simp only [hitem, hindex, hhigh, hlow, Option.map_some, Option.bind_eq_bind, Option.bind_some, Option.pure_def]
  rw [← Option.some.inj hpixel, toNat_color]

/-- Bytes in rows of `2 * width`, as every surface has that was made by its size. -/
theorem readsImage_of_rows {colorkey : Option Pixel} (hvalid : image.Valid) (hbytes : image.data.halfwords = false)
    (hrows : image.stride = 2 * image.width) : ReadsImage image colorkey := by
  intro q hq
  obtain ⟨a, ha⟩ := hvalid.pixel hq
  have hcolor := ha
  rw [hrows] at hcolor
  have hitem : ∀ i, (Source.ofImage image colorkey).data.item i = (load image.data.raw i).map BitVec.toNat := by
    intro i
    have hdata : (Source.ofImage image colorkey).data = image.data := rfl
    rw [hdata, Data.item, hbytes]
    rfl
  refine ⟨a.toNat, get565_of_bytes hitem hq hcolor, ?_⟩
  rw [imagePixel, ha, Option.bind_some]

/-- A gint that draws as its documentation says. -/
def documentedGint (dw : Int) : Gint where
  dsubimage vram x y image left top width height := Array.ofFn fun i : Fin vram.size =>
    let p : Int × Int := (i.val % dw, i.val / dw)
    if Rect.Contains ⟨x, y, width, height⟩ p then
      (sourcePixel image.data.raw image.stride (p.1 - x + left, p.2 - y + top)).getD vram[i]
    else vram[i]
  drawText vram _ _ _ := vram
  dpixel vram x y color := vram.setIfInBounds (y * dw + x).toNat (BitVec.ofNat 16 color)

theorem documentedGint_draws : (documentedGint dw).Draws dw dh := by
  intro vram image result src hscreen _ hsize _ _ p hp
  obtain ⟨h1, h2⟩ := offset_bounds hp
  have hlt : (offset dw p).toNat < vram.size := by
    have := hscreen.size
    omega
  have hpoint : (((offset dw p).toNat : Int) % dw, ((offset dw p).toNat : Int) / dw) = p := by
    obtain ⟨g1, g2, -, -⟩ := hp
    rw [Int.toNat_of_nonneg h1, offset, add_comm, Int.add_mul_emod_self_right, Int.add_mul_ediv_right _ _ (by omega),
      Int.emod_eq_of_lt g1 g2, Int.ediv_eq_zero_of_lt g1 g2, zero_add]
  have hrect : (⟨result.x, result.y, src.w, src.h⟩ : Rect) = result := by
    rw [hsize.1, hsize.2]
  have hold : screenPixel dw vram p = some vram[(offset dw p).toNat] := by
    rw [screenPixel, load, if_pos h1, Array.getElem?_eq_getElem hlt]
  have hnew : screenPixel dw ((documentedGint dw).dsubimage vram result.x result.y image src.x src.y src.w src.h) p =
      some (if result.Contains p then
        (sourcePixel image.data.raw image.stride (p.1 - result.x + src.x, p.2 - result.y + src.y)).getD vram[(offset dw p).toNat]
      else vram[(offset dw p).toNat]) := by
    rw [screenPixel, load, if_pos h1, documentedGint]
    simp only
    rw [Array.getElem?_ofFn, dif_pos hlt]
    obtain ⟨hcolumn, hrow⟩ := Prod.mk.inj hpoint
    simp only [hcolumn, hrow, hrect, Fin.getElem_fin]
  rw [hnew, hold]
  split
  · cases sourcePixel image.data.raw image.stride (p.1 - result.x + src.x, p.2 - result.y + src.y) with
    | none => rfl
    | some a => rfl
  · rfl

/-- Two pixels, one above the other, in rows of four bytes. -/
def paddedImage : Image := ⟨0, 1, 2, 4, ⟨false, #[0xf8, 0, 0, 0, 0x07, 0xe0, 0, 0]⟩⟩

/-- The same without padding. -/
def compactImage : Image := ⟨0, 1, 2, 2, ⟨false, #[0xf8, 0, 0x07, 0xe0]⟩⟩

theorem paddedImage_valid : paddedImage.Valid :=
  ⟨rfl, by decide, by decide, by decide, by decide⟩

theorem compactImage_valid : compactImage.Valid :=
  ⟨rfl, by decide, by decide, by decide, by decide⟩

theorem black_screen : SamePicture 1 2 #[0, 0] #[0, 0, 0, 0] := by
  rintro ⟨X, Y⟩ ⟨h1, h2, h3, h4⟩
  obtain rfl : X = 0 := by
    simp only at h1 h2
    omega
  obtain rfl | rfl : Y = 0 ∨ Y = 1 := by
    simp only at h3 h4
    omega
  · decide
  · decide

theorem blits_agree_compact : BlitsAgree (documentedGint 1) 1 2 (setClip 1 2 none) #[0, 0] #[0, 0, 0, 0] (Source.ofImage compactImage (some 5)) (0, 0) none :=
  (blits_agree_iff documentedGint_draws compactImage_valid (by decide) (by decide)).mpr (readsImage_of_rows compactImage_valid rfl rfl)
    #[0, 0] #[0, 0, 0, 0] none (0, 0) none ⟨by decide, by decide, by decide⟩ (by decide) black_screen

/-- The second pixel of the padded image is drawn by the native blit, the padding by the copy. -/
theorem padded_rows_differ : ¬ ∀ (g : Gint) (dw dh : Int) (image : Image) (colorkey : Option Pixel), g.Draws dw dh → image.Valid →
    0 < dw ∧ IsInt dw → 0 < dh ∧ IsInt dh → ∀ vram data rect dest area, Screen dw dh vram → (data.size : Int) = 2 * (dw * dh) →
      SamePicture dw dh vram data → BlitsAgree g dw dh (setClip dw dh rect) vram data (Source.ofImage image colorkey) dest area := by
  intro h
  obtain ⟨vram', data', result, hnative, hmemory, hsame', -⟩ := h (documentedGint 1) 1 2 paddedImage (some 5) documentedGint_draws
    paddedImage_valid (by decide) (by decide) #[0, 0] #[0, 0, 0, 0] none (0, 0) none ⟨by decide, by decide, by decide⟩ (by decide) black_screen
  have hvram : ((blitScreen (documentedGint 1) 1 2 (setClip 1 2 none) #[0, 0] (Source.ofImage paddedImage (some 5)) (0, 0) none).toOption.map
      fun out => screenPixel 1 out.1 (0, 1)) = some (some 0x07e0) := by decide
  have hdata : ((blitMemory 1 2 (setClip 1 2 none) #[0, 0, 0, 0] (Source.ofImage paddedImage (some 5)) (0, 0) none).toOption.map
      fun out => sourcePixel out.1 (2 * 1) (0, 1)) = some (some 0) := by decide
  rw [hnative] at hvram
  rw [hmemory] at hdata
  have hpoint := hsame' (0, 1) (by decide)
  have h1 : screenPixel 1 vram' (0, 1) = some 0x07e0 := Option.some.inj hvram
  have h2 : sourcePixel data' (2 * 1) (0, 1) = some 0 := Option.some.inj hdata
  rw [h1, h2] at hpoint
  exact absurd hpoint (by decide)

end PythonUltra.Pygame
