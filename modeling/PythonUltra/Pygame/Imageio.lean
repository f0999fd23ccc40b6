/-
  PythonUltra.Pygame.Imageio — `image.tostring` and `image.fromstring` of surfaces in memory
  (ports/sh/modules/pygame/__init__.py).

  The string has the pixels row after row, from the last row if flipped, each as three or
  four bytes. `tostring_spec` gives the string as a whole; a slice of it is one pixel
  (`drop_flatMap`, by rows and then by columns), so `fromstring` reads what was written.
-/

import PythonUltra.Lib.Blocks
import PythonUltra.Pygame.Memory

open PythonUltra.Lib.Blocks PythonUltra.Lib.Raster PythonUltra.Sh.Colorkey

namespace PythonUltra.Pygame

def SRCALPHA : Int := 0x00010000

/-- Formats with a byte for alpha. -/
def hasAlpha (fmt : String) : Bool := fmt ∈ ["RGBA", "ARGB", "BGRA"]

def components (fmt : String) : Nat := if hasAlpha fmt then 4 else 3

/-- What `tostring` appends for a pixel. -/
def pixelBytes (fmt : String) (color : Color) : List Byte :=
  let rgb := if fmt.startsWith "B" then [color.b, color.g, color.r] else [color.r, color.g, color.b]
  (if hasAlpha fmt then rgb ++ [color.a] else rgb).map (BitVec.ofNat 8)

/-- What `fromstring` makes of a pixel's bytes. none: IndexError. -/
def pixelValue (fmt : String) (values : List Byte) : Option Nat := do
  let first ← values[0]?
  let second ← values[1]?
  let third ← values[2]?
  if fmt.startsWith "B" then pure (color565 third.toNat second.toNat first.toNat)
  else pure (color565 first.toNat second.toNat third.toNat)

namespace Surface

/-- `get_at` -/
def getAt (s : Surface) (x y : Int) : Option Color := (s.source.get565 x y).map colorFrom565

def rows (h : Int) (flipped : Bool) : List Nat := if flipped then (List.range h.toNat).reverse else List.range h.toNat

/-- `image.tostring`. none: IndexError. -/
def tostring (s : Surface) (format : String) (flipped : Bool) : Option (List Byte) :=
  let fmt := format.toUpper
  (rows s.h flipped).foldlM (fun output (y : Nat) => (List.range s.w.toNat).foldlM (fun output (x : Nat) => do
    let color ← s.getAt x y
    pure (output ++ pixelBytes fmt color)) output) []

/-- `image.fromstring` -/
def fromstring (string : List Byte) (size : Int × Int) (format : String) (flipped : Bool) : Except BlitExc Surface :=
  let (width, height) := size
  let fmt := format.toUpper
  let components := components fmt
  if string.length < width * height * components then .error (.valueError "not enough image data")
  else do
    let result ← new width height (if components = 4 then SRCALPHA else 0)
    result.plotted (fun x y => (x, if flipped then height - 1 - y else y)) fun x y =>
      let pos := ((y * width + x) * components).toNat
      pixelValue fmt ((string.drop pos).take components)

variable {s : Surface}

/-! ## Bytes of a pixel -/

theorem pixelBytes_length (fmt : String) (color : Color) : (pixelBytes fmt color).length = components fmt := by
  unfold pixelBytes components
  rw [List.length_map]
  split
  · rw [List.length_append]
    split <;> rfl
  · split <;> rfl

theorem byte_toNat {c : Nat} (h : c ≤ 255) : (BitVec.ofNat 8 c).toNat = c := by
  rw [BitVec.toNat_ofNat, Nat.mod_eq_of_lt (by omega)]

theorem pixelValue_pixelBytes (fmt : String) {value : Nat} (h : value < 2 ^ 16) :
    pixelValue fmt (pixelBytes fmt (colorFrom565 value)) = some value := by
  obtain ⟨hr, hg, hb⟩ := channels_le value
  have hback := color565_colorFrom565 h
  unfold pixelValue pixelBytes
  split
  · split <;>
      simp [List.getElem?_cons_zero, byte_toNat hr, byte_toNat hg, byte_toNat hb, hback]
  · split <;>
      simp [List.getElem?_cons_zero, byte_toNat hr, byte_toNat hg, byte_toNat hb, hback]

/-! ## The string -/

theorem foldlM_append {α β : Type} {f : α → Option (List β)} {g : α → List β} : ∀ (l : List α) (output : List β), (∀ a ∈ l, f a = some (g a)) →
    l.foldlM (fun output a => do pure (output ++ (← f a))) output = some (output ++ l.flatMap g)
  | [], output, _ => by simp
  | a :: l, output, h => by
    rw [List.foldlM_cons, h a List.mem_cons_self, List.flatMap_cons, ← List.append_assoc]
    exact foldlM_append l _ fun b hb => h b (List.mem_cons_of_mem _ hb)

/-- The colour of a pixel of the surface. -/
def colorAt (s : Surface) (x y : Nat) : Color := colorFrom565 ((s.pixel (x, y)).getD 0).toNat

theorem getAt_eq {x y : Nat} (hx : x < s.w.toNat) (hy : y < s.h.toNat) : s.getAt x y = some (s.colorAt x y) := by
  have hp : Inside s.w s.h ((x : Int), (y : Int)) := ⟨by omega, by simp only; omega, by omega, by simp only; omega⟩
  obtain ⟨a, ha⟩ := pixel_some hp
  rw [getAt, get565_pixel hp ha, colorAt, ha]
  rfl

theorem mem_rows {h : Int} {flipped : Bool} {y : Nat} : y ∈ rows h flipped ↔ y < h.toNat := by
  unfold rows
  split
  · rw [List.mem_reverse, List.mem_range]
  · exact List.mem_range

theorem rows_length (h : Int) (flipped : Bool) : (rows h flipped).length = h.toNat := by
  unfold rows
  split
  · rw [List.length_reverse, List.length_range]
  · exact List.length_range

theorem rows_get {h : Int} {flipped : Bool} {y : Nat} (hy : y < h.toNat) :
    (rows h flipped)[y]? = some (if flipped then h.toNat - 1 - y else y) := by
  unfold rows
  split
  · rw [List.getElem?_reverse (by rw [List.length_range]; exact hy), List.length_range, List.getElem?_range (by omega)]
  · exact List.getElem?_range hy

/-- A row of the string. -/
def rowBytes (s : Surface) (fmt : String) (y : Nat) : List Byte := (List.range s.w.toNat).flatMap fun x => pixelBytes fmt (s.colorAt x y)

theorem tostring_spec (s : Surface) (format : String) (flipped : Bool) :
    s.tostring format flipped = some ((rows s.h flipped).flatMap (s.rowBytes format.toUpper)) := by
  have hrow : ∀ y ∈ rows s.h flipped, ∀ output : List Byte, (List.range s.w.toNat).foldlM (fun output (x : Nat) => do
      let color ← s.getAt x y
      pure (output ++ pixelBytes format.toUpper color)) output = some (output ++ s.rowBytes format.toUpper y) := by
    intro y hy output
    have hbytes : ∀ x ∈ List.range s.w.toNat,
        (s.getAt x y).map (pixelBytes format.toUpper) = some (pixelBytes format.toUpper (s.colorAt x y)) := fun x hx => by
      rw [getAt_eq (List.mem_range.mp hx) (mem_rows.mp hy), Option.map_some]
    rw [rowBytes, ← foldlM_append _ output hbytes]
    congr 1
    funext output x
    cases s.getAt x y <;> rfl
  have hrows := foldlM_append (f := fun y => some (s.rowBytes format.toUpper y)) (rows s.h flipped) [] fun _ _ => rfl
  rw [List.nil_append] at hrows
  rw [← hrows]
  exact foldlM_congr (fun y hy output => hrow y hy output) []

theorem rowBytes_length (s : Surface) (fmt : String) (y : Nat) : (s.rowBytes fmt y).length = s.w.toNat * components fmt := by
  rw [rowBytes, flatMap_length fun x _ => pixelBytes_length fmt _, List.length_range]

/-- A slice of the string is a pixel. -/
theorem slice (s : Surface) (fmt : String) {flipped : Bool} {x y : Nat} (hx : x < s.w.toNat) (hy : y < s.h.toNat) :
    (((rows s.h flipped).flatMap (s.rowBytes fmt)).drop ((y * s.w.toNat + x) * components fmt)).take (components fmt) =
      pixelBytes fmt (s.colorAt x (if flipped then s.h.toNat - 1 - y else y)) := by
  have hrow : (rows s.h flipped)[y]? = some _ := rows_get hy
  obtain ⟨below, hbelow⟩ := drop_flatMap (fun y _ => s.rowBytes_length fmt y) hrow
  obtain ⟨right, hright⟩ := drop_flatMap (f := fun x => pixelBytes fmt (s.colorAt x (if flipped then s.h.toNat - 1 - y else y)))
    (fun x _ => pixelBytes_length fmt _) (List.getElem?_range hx)
  have hstart : (y * s.w.toNat + x) * components fmt = y * (s.w.toNat * components fmt) + x * components fmt := by
    rw [Nat.add_mul, Nat.mul_assoc]
  have hlength : x * components fmt ≤ (s.rowBytes fmt (if flipped then s.h.toNat - 1 - y else y)).length := by
    rw [rowBytes_length]
    exact Nat.mul_le_mul_right _ hx.le
  rw [hstart, ← List.drop_drop, hbelow, List.drop_append_of_le_length hlength, rowBytes, hright, List.append_assoc,
    List.take_append_of_le_length (pixelBytes_length fmt _).ge, List.take_of_length_le (pixelBytes_length fmt _).le]

end Surface

end PythonUltra.Pygame
