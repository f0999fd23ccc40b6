/-
  PythonUltra.Pygame.Surface — Surface.blit to the screen and to a surface in memory
  (ports/sh/modules/pygame/__init__.py, modgint_dsubimage_colorkey of ports/sh/modgint.c).

  The screen is gint's frame buffer; a surface in memory has two bytes for a pixel, high
  byte first, and rows without padding. Its image, which the native drawing reads, may be
  any gint image: then its rows are `stride` bytes apart, and `data` may be a buffer of
  halfwords, which Python indexes by halfwords. A colour key is what `_color565` returns.
  gint's own drawing functions are parameters (`Gint`). Its window is the whole screen.
-/

import PythonUltra.Sh.Colorkey

open PythonUltra.Lib.Raster PythonUltra.Sh.Colorkey

namespace PythonUltra.Pygame

structure Rect where
  x : Int
  y : Int
  w : Int
  h : Int
  deriving DecidableEq

namespace Rect

def right (r : Rect) : Int := r.x + r.w

def bottom (r : Rect) : Int := r.y + r.h

def clip (r other : Rect) : Rect :=
  let left := max r.x other.x
  let top := max r.y other.y
  let right := min r.right other.right
  let bottom := min r.bottom other.bottom
  if right ≤ left ∨ bottom ≤ top then ⟨left, top, 0, 0⟩ else ⟨left, top, right - left, bottom - top⟩

def Contains (r : Rect) (p : Int × Int) : Prop := r.x ≤ p.1 ∧ p.1 < r.right ∧ r.y ≤ p.2 ∧ p.2 < r.bottom

instance (r : Rect) (p : Int × Int) : Decidable (r.Contains p) := inferInstanceAs (Decidable (_ ∧ _ ∧ _ ∧ _))

end Rect

/-- A buffer object: bytes, or halfwords (`array('H')`), big-endian as the machine. -/
structure Data where
  halfwords : Bool
  raw : Array Byte

/-- `data[index]`. none: IndexError. -/
def Data.item (data : Data) (index : Int) : Option Nat :=
  if data.halfwords then do
    let high ← load data.raw (2 * index)
    let low ← load data.raw (2 * index + 1)
    pure (high.toNat * 256 + low.toNat)
  else (load data.raw index).map BitVec.toNat

/-- What gint knows of an image; format 0 is IMAGE_RGB565. -/
structure Image where
  format : Int
  width : Int
  height : Int
  stride : Int
  data : Data

/-- A surface that is drawn. -/
structure Source where
  w : Int
  h : Int
  data : Data
  image : Option Image
  colorkey : Option Pixel
  /-- made by Font.render, and drawn as text on the screen -/
  text : Bool

/-- `Surface._from_gint_image` -/
def Source.ofImage (image : Image) (colorkey : Option Pixel) : Source :=
  ⟨image.width, image.height, image.data, some image, colorkey, false⟩

/-- `Surface((w, h))`, with pixels set since. -/
def Source.ofSize (w h : Int) (raw : Array Byte) (colorkey : Option Pixel) : Source :=
  ⟨w, h, ⟨false, raw⟩, some ⟨0, w, h, w * 2, ⟨false, raw⟩⟩, colorkey, false⟩

/-- `_get565` of a surface in memory. none: IndexError. -/
def Source.get565 (source : Source) (x y : Int) : Option Nat :=
  if x < 0 ∨ y < 0 ∨ x ≥ source.w ∨ y ≥ source.h then none
  else do
    let index := 2 * (y * source.w + x)
    let high ← source.data.item index
    let low ← source.data.item (index + 1)
    pure (high <<< 8 ||| low)

/-- Drawing functions of gint, on a frame buffer of its width and height. -/
structure Gint where
  dsubimage : Array Pixel → Int → Int → Image → Int → Int → Int → Int → Array Pixel
  /-- `drect` of the background and `dtext` -/
  drawText : Array Pixel → Source → Int → Int → Array Pixel
  dpixel : Array Pixel → Int → Int → Nat → Array Pixel

inductive BlitExc where
  | indexError
  | valueError (msg : String)
  /-- an access outside of a buffer -/
  | crash
  deriving DecidableEq

/-- `modgint_dsubimage_colorkey` -/
def dsubimageColorkey (vram : Array Pixel) (dw dh x y : Int) (image : Image) (left top width height : Int) (key : Pixel) :
    Except BlitExc (Array Pixel) :=
  if image.format ≠ 0 then .error (.valueError "color-key blit requires RGB565 image")
  else if image.width ≤ 0 ∨ image.height ≤ 0 ∨ image.stride < image.width * 2 ∨
      (image.height - 1) * image.stride + image.width * 2 > image.data.raw.size then
    .error (.valueError "invalid RGB565 image buffer")
  else match peBlitRgb565Key vram dw dh 0 0 dw dh image.data.raw image.width image.height image.stride x y left top width height key.toNat with
    | some vram => .ok vram
    | none => .error .crash

/-- What `blit` draws and returns: the rectangle, and where it is not empty the place of
`src` with the part of the source, before and after it is cropped. -/
def crop (clip : Rect) (source : Source) (dest : Int × Int) (area : Option Rect) :
    Rect × Option ((Int × Int) × (Int × Int) × Rect) :=
  let src := area.getD ⟨0, 0, source.w, source.h⟩
  let bounded := src.clip ⟨0, 0, source.w, source.h⟩
  let dx := dest.1 + (bounded.x - src.x)
  let dy := dest.2 + (bounded.y - src.y)
  let src := bounded
  let result := Rect.clip ⟨dx, dy, src.w, src.h⟩ clip
  if src.w ≤ 0 ∨ src.h ≤ 0 ∨ result.w ≤ 0 ∨ result.h ≤ 0 then (result, none)
  else (result, some ((dx, dy), (result.x, result.y), ⟨src.x + (result.x - dx), src.y + (result.y - dy), result.w, result.h⟩))

/-- What is put for a pixel value read: nothing for the key. -/
def drawn (colorkey : Option Pixel) (color : Nat) : Option Nat :=
  match colorkey with
  | none => some color
  | some key => if color ≠ key.toNat then some color else none

/-- The loops that copy pixel by pixel. none: IndexError. -/
def softwareCopy {σ : Type} (put565 : σ → Int → Int → Nat → Option σ) (source : Source) (dx dy : Int) (src : Rect) (target : σ) : Option σ :=
  (List.range src.h.toNat).foldlM (fun target (sy : Nat) =>
    (List.range src.w.toNat).foldlM (fun target (sx : Nat) => do
      let color ← source.get565 (src.x + sx) (src.y + sy)
      match drawn source.colorkey color with
      | some color => put565 target (dx + sx) (dy + sy) color
      | none => pure target) target) target

/-- `_put565` of a surface of `w` by `h` in memory. none: IndexError. -/
def put565 (w h : Int) (data : Array Byte) (x y : Int) (color : Nat) : Option (Array Byte) :=
  if x < 0 ∨ y < 0 ∨ x ≥ w ∨ y ≥ h then some data
  else do
    let index := 2 * (y * w + x)
    let data ← store data index (BitVec.ofNat 8 (color >>> 8))
    store data (index + 1) (BitVec.ofNat 8 color)

/-- `_put565` of the screen. -/
def put565Screen (g : Gint) (w h : Int) (vram : Array Pixel) (x y : Int) (color : Nat) : Option (Array Pixel) :=
  if x < 0 ∨ y < 0 ∨ x ≥ w ∨ y ≥ h then some vram else some (g.dpixel vram x y color)

def orIndexError {σ : Type} (result : Rect) (target : Option σ) : Except BlitExc (σ × Rect) :=
  match target with
  | some target => .ok (target, result)
  | none => .error .indexError

/-- `blit` of the screen. -/
def blitScreen (g : Gint) (dw dh : Int) (clip : Rect) (vram : Array Pixel) (source : Source) (dest : Int × Int) (area : Option Rect) :
    Except BlitExc (Array Pixel × Rect) :=
  match crop clip source dest area with
  | (result, none) => .ok (vram, result)
  | (result, some ((x, y), (dx, dy), src)) =>
    if source.text then .ok (g.drawText vram source x y, result)
    else match source.image with
      | some image =>
        match source.colorkey with
        | none => .ok (g.dsubimage vram dx dy image src.x src.y src.w src.h, result)
        | some key =>
          if image.format = 0 then do
            let vram ← dsubimageColorkey vram dw dh dx dy image src.x src.y src.w src.h key
            pure (vram, result)
          else orIndexError result (softwareCopy (put565Screen g dw dh) source dx dy src vram)
      | none => orIndexError result (softwareCopy (put565Screen g dw dh) source dx dy src vram)

/-- `blit` of a surface of `w` by `h` in memory. -/
def blitMemory (w h : Int) (clip : Rect) (data : Array Byte) (source : Source) (dest : Int × Int) (area : Option Rect) :
    Except BlitExc (Array Byte × Rect) :=
  match crop clip source dest area with
  | (result, none) => .ok (data, result)
  | (result, some (_, (dx, dy), src)) => orIndexError result (softwareCopy (put565 w h) source dx dy src data)

/-- The clip rectangle of a surface after `set_clip(rect)`. -/
def setClip (w h : Int) (rect : Option Rect) : Rect := match rect with
  | none => ⟨0, 0, w, h⟩
  | some rect => rect.clip ⟨0, 0, w, h⟩

end PythonUltra.Pygame
