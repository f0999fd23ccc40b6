/-
  PythonUltra.Sh.Kandinsky — pixels of the NumWorks screen (numworks/modkandinsky.c).

  The NumWorks screen is 320 by 222 pixels, centred in the 396 by 224 of gint; the margins
  are added to every coordinate, in wide mode too, where the whole of gint's screen is
  drawn on. `set_pixel` leaves the clipping to gint's window, `get_pixel` has bounds of
  its own, which it tests after the margins were added. gint's dpixel is a parameter
  (`Draws`), its window is the whole screen between two calls.

  Proved for each mode: exactly where a pixel that was set is read back, and which
  coordinates touch the frame buffer (`round_trip_iff`).
-/

import PythonUltra.Sh.Colorkey
import Mathlib.Logic.Function.Basic

open PythonUltra.Sh.Colorkey (Pixel IsInt int32 int32_eq)

namespace PythonUltra.Sh.Kandinsky

def dwidth : Int := 396
def dheight : Int := 224
def nwMaxX : Int := 320
def nwMaxY : Int := 222
def deltaX : Int := (dwidth - nwMaxX).tdiv 2
def deltaY : Int := (dheight - nwMaxY).tdiv 2

structure Window where
  left : Int
  top : Int
  right : Int
  bottom : Int
  deriving DecidableEq

def Window.Contains (w : Window) (x y : Int) : Prop := (w.left ≤ x ∧ x < w.right) ∧ w.top ≤ y ∧ y < w.bottom

instance (w : Window) (x y : Int) : Decidable (w.Contains x y) := inferInstanceAs (Decidable (_ ∧ _))

/-- The memory from `gint_vram` on. -/
abbrev Vram : Type := Int → Pixel

structure State where
  windowed : Bool
  window : Window
  vram : Vram

def fullWindow : Window := ⟨0, 0, dwidth, dheight⟩
def nwWindow : Window := ⟨deltaX, deltaY, 320 + deltaX, 222 + deltaY⟩

def setWindow (s : State) : State := if s.windowed then { s with window := nwWindow } else s
def resetWindow (s : State) : State := if s.windowed then { s with window := fullWindow } else s

/-! ## Colors -/

/-- `NW_RGB`, of ints. -/
def nwRgb (r g b : Int) : Int :=
  (((BitVec.ofInt 32 r).sshiftRight 3 <<< 11) ||| ((BitVec.ofInt 32 g).sshiftRight 2 <<< 5) ||| (BitVec.ofInt 32 b).sshiftRight 3).toInt

/-- gint's `C_NONE`: draw nothing. -/
def cNone : Int := -1

/-- The colors with a name. -/
def palette : List (String × Nat × Nat × Nat) :=
  [("red", 0xFF, 0x00, 0x0C), ("r", 0xFF, 0x00, 0x0C), ("green", 0x50, 0xC1, 0x02), ("g", 0x50, 0xC1, 0x02),
   ("blue", 0x50, 0x75, 0xF2), ("b", 0x50, 0x75, 0xF2), ("black", 0x00, 0x00, 0x00), ("k", 0x00, 0x00, 0x00),
   ("white", 0xFF, 0xFF, 0xFF), ("w", 0xFF, 0xFF, 0xFF), ("yellow", 0xFF, 0xCC, 0x7B), ("y", 0xFF, 0xCC, 0x7B),
   ("pink", 0xFF, 0xAB, 0xB6), ("magenta", 0xFF, 0x05, 0x88), ("grey", 0xA7, 0xA7, 0xA7), ("gray", 0xA7, 0xA7, 0xA7),
   ("purple", 0x6E, 0x2D, 0x79), ("orange", 0xFE, 0x87, 0x1F), ("cyan", 0x00, 0xFF, 0xFF), ("brown", 0x8D, 0x73, 0x50)]

def getColorFromString (name : String) : Int :=
  match palette.lookup name with
  | some (r, g, b) => nwRgb r g b
  | none => cNone

inductive ColorArg
  | str (name : String)
  | int (n : Int)
  | tuple (items : List Int)
  | other
  deriving DecidableEq

/-- `Internal_Treat_Color`. none: a tuple is read past its end. -/
def treatColor : ColorArg → Option Int
  | .str name => some (getColorFromString name)
  | .int n => some n
  | .tuple (r :: g :: b :: _) => some (nwRgb r g b)
  | .tuple _ => none
  | .other => some (nwRgb 0x00 0x00 0x00)

/-- `Kandinsky_make_color` -/
def makeColor (color : Pixel) : Nat × Nat × Nat :=
  ((color.toNat >>> 8) &&& 0xf8, (color.toNat >>> 3) &&& 0xfc, (color.toNat <<< 3) &&& 0xfc)

/-! ## Pixels -/

section

variable (dpixel : Window → Vram → Int → Int → Int → Vram)

/-- `Kandinsky_set_pixel`; it is registered with three arguments, so that there is a color. -/
def setPixel (s : State) (x y : Int) (c : ColorArg) : Option State := do
  let x := int32 (x + deltaX)
  let y := int32 (y + deltaY)
  let color ← treatColor c
  let s := setWindow s
  return resetWindow { s with vram := dpixel s.window s.vram x y color }

/-- `Kandinsky_get_pixel` -/
def getPixel (s : State) (x y : Int) : Nat × Nat × Nat :=
  let x := int32 (x + deltaX)
  let y := int32 (y + deltaY)
  if (!s.windowed ∧ x ≥ 0 ∧ x < dwidth ∧ y ≥ 0 ∧ y < dheight) ∨ (s.windowed ∧ x ≥ 0 ∧ x < nwMaxX ∧ y ≥ 0 ∧ y < nwMaxY) then
    makeColor (s.vram (dwidth * y + x))
  else makeColor 0x0000

/-- gint's dpixel, for a window on the screen and a color of 16 bits. -/
def Draws : Prop := ∀ (w : Window) (vram : Vram) (x y color : Int), 0 ≤ w.left → w.right ≤ dwidth → 0 ≤ w.top → w.bottom ≤ dheight →
  0 ≤ color → color < 2 ^ 16 →
    dpixel w vram x y color = if w.Contains x y then Function.update vram (dwidth * y + x) (BitVec.ofInt 16 color) else vram

end

/-! ## What a color is -/

/-- Components cut to 5, 6 and 5 bits. -/
def quantise (r g b : Nat) : Nat × Nat × Nat := (r / 8 * 8, g / 4 * 4, b / 8 * 8)

/-- The color that an argument stands for, as far as RGB565 has it: a known name, an RGB565
value, or components up to 255. -/
def quantised : ColorArg → Option (Nat × Nat × Nat)
  | .str name => (palette.lookup name).map fun (r, g, b) => quantise r g b
  | .int n => if 0 ≤ n ∧ n < 2 ^ 16 then some (n.toNat / 2048 * 8, n.toNat / 32 % 64 * 4, n.toNat % 32 * 8) else none
  | .tuple (r :: g :: b :: _) =>
    if (0 ≤ r ∧ r < 256) ∧ (0 ≤ g ∧ g < 256) ∧ 0 ≤ b ∧ b < 256 then some (quantise r.toNat g.toNat b.toNat) else none
  | .tuple _ => none
  | .other => none

theorem nwRgb_eq {r g b : Nat} (hr : r < 256) (hg : g < 256) (hb : b < 256) :
    nwRgb r g b = (r / 8 * 2048 + g / 4 * 32 + b / 8 : Nat) := by
  have hmsb : ∀ {n : Nat}, n < 256 → (BitVec.ofNat 32 n).msb = false := by
    intro n hn
    rw [BitVec.msb_eq_false_iff_two_mul_lt, BitVec.toNat_ofNat]
    omega
  have hpack : ((r >>> 3) <<< 11 ||| (g >>> 2) <<< 5) ||| b >>> 3 = r / 8 * 2048 + g / 4 * 32 + b / 8 := by
    have hlow : (g >>> 2) <<< 5 < 2 ^ 11 := by
      rw [Nat.shiftLeft_eq, Nat.shiftRight_eq_div_pow]
      omega
    have hsum : (r >>> 3) <<< 11 + (g >>> 2) <<< 5 = ((r >>> 3) * 64 + (g >>> 2)) <<< 5 := by
      simp only [Nat.shiftLeft_eq]
      omega
    rw [← Nat.shiftLeft_add_eq_or_of_lt hlow, hsum, ← Nat.shiftLeft_add_eq_or_of_lt (by rw [Nat.shiftRight_eq_div_pow]; omega)]
    simp only [Nat.shiftLeft_eq, Nat.shiftRight_eq_div_pow]
    omega
  have hnat : ((((BitVec.ofNat 32 r) >>> 3 <<< 11) ||| ((BitVec.ofNat 32 g) >>> 2 <<< 5)) ||| (BitVec.ofNat 32 b) >>> 3).toNat =
      r / 8 * 2048 + g / 4 * 32 + b / 8 := by
    simp only [BitVec.toNat_or, BitVec.toNat_shiftLeft, BitVec.toNat_ushiftRight, BitVec.toNat_ofNat]
    rw [Nat.mod_eq_of_lt (show r < 2 ^ 32 by omega), Nat.mod_eq_of_lt (show g < 2 ^ 32 by omega),
      Nat.mod_eq_of_lt (show b < 2 ^ 32 by omega), Nat.mod_eq_of_lt, Nat.mod_eq_of_lt, hpack]
    · rw [Nat.shiftLeft_eq, Nat.shiftRight_eq_div_pow]
      omega
    · rw [Nat.shiftLeft_eq, Nat.shiftRight_eq_div_pow]
      omega
  unfold nwRgb
  simp only [BitVec.ofInt_natCast]
  rw [BitVec.sshiftRight_eq_of_msb_false (hmsb hr), BitVec.sshiftRight_eq_of_msb_false (hmsb hg),
    BitVec.sshiftRight_eq_of_msb_false (hmsb hb), BitVec.toInt_eq_toNat_of_lt (by omega), hnat]

theorem and_byte {mask : Nat} (h : 255 &&& mask = mask) (x : Nat) : x &&& mask = x % 256 &&& mask := by
  rw [← h, ← Nat.and_assoc, ← Nat.and_assoc, show (255 : Nat) = 2 ^ 8 - 1 from rfl, Nat.and_two_pow_sub_one_eq_mod,
    Nat.and_two_pow_sub_one_eq_mod, Nat.mod_mod]

theorem makeColor_eq (color : Pixel) :
    makeColor color = (color.toNat / 2048 * 8, color.toNat / 32 % 64 * 4, color.toNat % 32 * 8) := by
  have hf8 : ∀ x < 256, x &&& 0xf8 = x / 8 * 8 := by decide +kernel
  have hfc : ∀ x < 256, x &&& 0xfc = x / 4 * 4 := by decide +kernel
  have hf8' : ∀ x, x &&& 0xf8 = x % 256 / 8 * 8 := fun x => by rw [and_byte rfl, hf8 _ (Nat.mod_lt _ (by decide))]
  have hfc' : ∀ x, x &&& 0xfc = x % 256 / 4 * 4 := fun x => by rw [and_byte rfl, hfc _ (Nat.mod_lt _ (by decide))]
  have hlt := color.isLt
  unfold makeColor
  rw [hf8', hfc', hfc']
  simp only [Nat.shiftRight_eq_div_pow, Nat.shiftLeft_eq, Prod.mk.injEq]
  omega

theorem palette_bytes {name : String} {r g b : Nat} (h : palette.lookup name = some (r, g, b)) : r < 256 ∧ g < 256 ∧ b < 256 := by
  have hall : ∀ e ∈ palette, e.2.1 < 256 ∧ e.2.2.1 < 256 ∧ e.2.2.2 < 256 := by decide
  obtain ⟨before, after, hsplit, -⟩ := List.lookup_eq_some_iff.mp h
  exact hall (name, r, g, b) (by rw [hsplit]; simp)

/-- An accepted color is drawn as 16 bits, and read back quantised. -/
theorem treatColor_quantised {c : ColorArg} {q : Nat × Nat × Nat} (h : quantised c = some q) :
    ∃ color, treatColor c = some color ∧ 0 ≤ color ∧ color < 2 ^ 16 ∧ makeColor (BitVec.ofInt 16 color) = q := by
  have hpack : ∀ {r g b : Nat}, r < 256 → g < 256 → b < 256 →
      0 ≤ nwRgb r g b ∧ nwRgb r g b < 2 ^ 16 ∧ makeColor (BitVec.ofInt 16 (nwRgb r g b)) = quantise r g b := by
    intro r g b hr hg hb
    rw [nwRgb_eq hr hg hb, BitVec.ofInt_natCast, makeColor_eq, BitVec.toNat_ofNat, Nat.mod_eq_of_lt (by omega)]
    refine ⟨by omega, by omega, ?_⟩
    simp only [quantise, Prod.mk.injEq]
    omega
  cases c with
  | str name =>
    obtain ⟨⟨r, g, b⟩, hp, rfl⟩ := Option.map_eq_some_iff.mp h
    obtain ⟨hr, hg, hb⟩ := palette_bytes hp
    refine ⟨nwRgb r g b, ?_, hpack hr hg hb⟩
    simp [treatColor, getColorFromString, hp]
  | int n =>
    simp only [quantised] at h
    split at h
    · next hn =>
      obtain ⟨k, rfl⟩ := Int.eq_ofNat_of_zero_le hn.1
      refine ⟨k, rfl, hn.1, hn.2, ?_⟩
      rw [BitVec.ofInt_natCast, makeColor_eq, BitVec.toNat_ofNat, Nat.mod_eq_of_lt (by omega)]
      exact Option.some.inj h
    · cases h
  | tuple items =>
    match items, h with
    | r :: g :: b :: rest, h =>
      simp only [quantised] at h
      split at h
      · next hn =>
        obtain ⟨⟨hr, hr'⟩, ⟨hg, hg'⟩, hb, hb'⟩ := hn
        obtain ⟨r', rfl⟩ := Int.eq_ofNat_of_zero_le hr
        obtain ⟨g', rfl⟩ := Int.eq_ofNat_of_zero_le hg
        obtain ⟨b', rfl⟩ := Int.eq_ofNat_of_zero_le hb
        obtain rfl := Option.some.inj h
        exact ⟨_, rfl, hpack (by omega) (by omega) (by omega)⟩
      · cases h
  | other => cases h

/-! ## Where pixels are -/

/-- The coordinates that get_pixel takes from the frame buffer. -/
def Reads (windowed : Bool) (x y : Int) : Prop :=
  if windowed then (-38 ≤ x ∧ x < 282) ∧ -1 ≤ y ∧ y < 221 else (-38 ≤ x ∧ x < 358) ∧ -1 ≤ y ∧ y < 223

/-- The coordinates that set_pixel draws. -/
def Writes (windowed : Bool) (x y : Int) : Prop :=
  if windowed then (0 ≤ x ∧ x < 320) ∧ 0 ≤ y ∧ y < 222 else (-38 ≤ x ∧ x < 358) ∧ -1 ≤ y ∧ y < 223

instance (windowed : Bool) (x y : Int) : Decidable (Reads windowed x y) := by
  unfold Reads
  infer_instance

instance (windowed : Bool) (x y : Int) : Decidable (Writes windowed x y) := by
  unfold Writes
  infer_instance

/-- The place of a coordinate. -/
def place (x y : Int) : Int := dwidth * (y + deltaY) + (x + deltaX)

theorem deltaX_eq : deltaX = 38 := rfl

theorem deltaY_eq : deltaY = 1 := rfl

theorem int32_margin {x d : Int} (hx : IsInt x) (h0 : 0 ≤ d) (h1 : d ≤ 38) :
    int32 (x + d) = x + d ∨ (int32 (x + d) < 0 ∧ 2 ^ 31 ≤ x + d) := by
  obtain ⟨hlo, hhi⟩ := hx
  rcases Int.lt_or_le (x + d) (2 ^ 31) with hlt | hle
  · exact Or.inl (int32_eq (by omega) hlt)
  · refine Or.inr ⟨?_, hle⟩
    unfold int32
    rw [Int.bmod_def]
    omega

section

variable {dpixel : Window → Vram → Int → Int → Int → Vram} {s : State} {x y : Int} {c : ColorArg}

theorem getPixel_eq (s : State) (hx : IsInt x) (hy : IsInt y) :
    getPixel s x y = if Reads s.windowed x y then makeColor (s.vram (place x y)) else (0, 0, 0) := by
  have hmx := int32_margin (d := deltaX) hx (by decide) (by decide)
  have hmy := int32_margin (d := deltaY) hy (by decide) (by decide)
  unfold getPixel Reads place
  simp only [deltaX_eq, deltaY_eq, dwidth, dheight, nwMaxX, nwMaxY] at hmx hmy ⊢
  cases s.windowed
  · simp only [Bool.not_false, true_and, Bool.false_eq_true, false_and, or_false, if_false]
    split_ifs with h1 h2 h2
    · rw [hmx.resolve_right (by omega), hmy.resolve_right (by omega)]
    · omega
    · omega
    · rfl
  · simp only [Bool.not_true, true_and, Bool.false_eq_true, false_and, false_or, if_true]
    split_ifs with h1 h2 h2
    · rw [hmx.resolve_right (by omega), hmy.resolve_right (by omega)]
    · omega
    · omega
    · rfl

/-- dpixel with the margins added. -/
theorem dpixel_margins (hd : Draws dpixel) {w : Window} (vram : Vram) {color : Int} (hleft : 0 ≤ w.left) (hright : w.right ≤ dwidth)
    (htop : 0 ≤ w.top) (hbottom : w.bottom ≤ dheight) (h0 : 0 ≤ color) (h1 : color < 2 ^ 16) (hx : IsInt x) (hy : IsInt y) :
    dpixel w vram (int32 (x + deltaX)) (int32 (y + deltaY)) color =
      if w.Contains (x + deltaX) (y + deltaY) then Function.update vram (place x y) (BitVec.ofInt 16 color) else vram := by
  have hmx := int32_margin (d := deltaX) hx (by decide) (by decide)
  have hmy := int32_margin (d := deltaY) hy (by decide) (by decide)
  rw [hd w vram _ _ color hleft hright htop hbottom h0 h1]
  simp only [dwidth, dheight] at hright hbottom
  by_cases h : w.Contains (x + deltaX) (y + deltaY)
  · obtain ⟨⟨hl, hr⟩, ht, hb⟩ := h
    rw [hmx.resolve_right (by omega), hmy.resolve_right (by omega)]
    rfl
  · rw [if_neg h, if_neg]
    rintro ⟨⟨hl, hr⟩, ht, hb⟩
    have hx' : int32 (x + deltaX) = x + deltaX := hmx.resolve_right (by omega)
    have hy' : int32 (y + deltaY) = y + deltaY := hmy.resolve_right (by omega)
    rw [hx'] at hl hr
    rw [hy'] at ht hb
    exact h ⟨⟨hl, hr⟩, ht, hb⟩

theorem setPixel_eq (hd : Draws dpixel) (hw : s.window = fullWindow) {q : Nat × Nat × Nat} (hc : quantised c = some q)
    (hx : IsInt x) (hy : IsInt y) : ∃ color : Pixel, makeColor color = q ∧
      setPixel dpixel s x y c =
        some { s with vram := if Writes s.windowed x y then Function.update s.vram (place x y) color else s.vram } := by
  obtain ⟨color, htreat, h0, h1, hmake⟩ := treatColor_quantised hc
  refine ⟨BitVec.ofInt 16 color, hmake, ?_⟩
  obtain ⟨windowed, window, vram⟩ := s
  obtain rfl : window = fullWindow := hw
  unfold setPixel
  rw [htreat]
  simp only [Option.bind_eq_bind, Option.bind_some, Option.pure_def]
  cases windowed
  · have hregion : fullWindow.Contains (x + deltaX) (y + deltaY) ↔ Writes false x y := by
      simp only [Window.Contains, fullWindow, Writes, deltaX_eq, deltaY_eq, dwidth, dheight, Bool.false_eq_true, if_false]
      omega
    have hdraw := dpixel_margins hd (w := fullWindow) vram (by decide) (by decide) (by decide) (by decide) h0 h1 hx hy
    simp only [hregion] at hdraw
    exact congrArg (fun v => some (State.mk false fullWindow v)) hdraw
  · have hregion : nwWindow.Contains (x + deltaX) (y + deltaY) ↔ Writes true x y := by
      simp only [Window.Contains, nwWindow, Writes, deltaX_eq, deltaY_eq, if_true]
      omega
    have hdraw := dpixel_margins hd (w := nwWindow) vram (by decide) (by decide) (by decide) (by decide) h0 h1 hx hy
    simp only [hregion] at hdraw
    exact congrArg (fun v => some (State.mk true fullWindow v)) hdraw

theorem place_inj {windowed : Bool} {x' y' : Int} (h : Reads windowed x y) (hr : Writes windowed x' y')
    (he : place x y = place x' y') : x = x' ∧ y = y' := by
  unfold place at he
  simp only [deltaX_eq, deltaY_eq, dwidth] at he
  unfold Reads at h
  unfold Writes at hr
  cases windowed <;> simp only [Bool.false_eq_true, if_true, if_false] at h hr <;> omega

end

/-! ## Screens -/

/-- What the pair of functions should do at a coordinate: on the screen the pixel is drawn
and read back, and no other changes; outside nothing is drawn and nothing read. -/
structure RoundTrip (dpixel : Window → Vram → Int → Int → Int → Vram) (screen : Int → Int → Prop) (s : State) (c : ColorArg) (x y : Int) : Prop where
  drawn : screen x y → ∃ s', setPixel dpixel s x y c = some s' ∧ quantised c = some (getPixel s' x y) ∧
    ∀ x' y', IsInt x' → IsInt y' → (x', y') ≠ (x, y) → getPixel s' x' y' = getPixel s x' y'
  outside : ¬ screen x y → (∃ s', setPixel dpixel s x y c = some s' ∧ s'.vram = s.vram) ∧
    ∀ vram, getPixel { s with vram := vram } x y = getPixel s x y

/-- The NumWorks screen. -/
def nwScreen (x y : Int) : Prop := (0 ≤ x ∧ x < 320) ∧ 0 ≤ y ∧ y < 222

/-- The 396 by 224 pixels of wide mode, around the NumWorks screen. -/
def wideScreen (x y : Int) : Prop := (-38 ≤ x ∧ x < 358) ∧ -1 ≤ y ∧ y < 223

/-- As many pixels counted from (0, 0). -/
def wideFromOrigin (x y : Int) : Prop := (0 ≤ x ∧ x < 396) ∧ 0 ≤ y ∧ y < 224

instance (x y : Int) : Decidable (nwScreen x y) := inferInstanceAs (Decidable (_ ∧ _))

/-- For a screen that is drawn wherever it is read. -/
theorem roundTrip_iff {dpixel : Window → Vram → Int → Int → Int → Vram} (hd : Draws dpixel) {screen : Int → Int → Prop} {s : State}
    (hw : s.window = fullWindow) {c : ColorArg} {q : Nat × Nat × Nat} (hc : quantised c = some q) {x y : Int} (hx : IsInt x)
    (hy : IsInt y) (hin : screen x y → Reads s.windowed x y → Writes s.windowed x y)
    (hout : ¬ screen x y → Writes s.windowed x y → Reads s.windowed x y) :
    RoundTrip dpixel screen s c x y ↔
      (screen x y → Reads s.windowed x y ∨ q = (0, 0, 0)) ∧ (¬ screen x y → ¬ Reads s.windowed x y) := by
  obtain ⟨color, hmake, hset⟩ := setPixel_eq hd hw hc hx hy
  constructor
  · intro h
    refine ⟨fun hs => ?_, fun hs hr => ?_⟩
    · obtain ⟨s', hs', hread, -⟩ := h.drawn hs
      rw [hset] at hs'
      obtain rfl := Option.some.inj hs'
      rw [getPixel_eq _ hx hy, hc] at hread
      by_cases hr : Reads s.windowed x y
      · exact Or.inl hr
      · rw [if_neg hr] at hread
        exact Or.inr (Option.some.inj hread)
    · -- what is read outside depends on the frame buffer
      have hall := (h.outside hs).2
      have hwhite := hall (fun _ => 0xFFFF)
      have hblack := hall (fun _ => 0)
      rw [← hblack, getPixel_eq _ hx hy, getPixel_eq _ hx hy, if_pos hr, if_pos hr] at hwhite
      have hsame : makeColor 0xFFFF = makeColor 0 := hwhite
      exact absurd hsame (by decide)
  · rintro ⟨hon, hoff⟩
    refine ⟨fun hs => ⟨_, hset, ?_, ?_⟩, fun hs => ⟨⟨_, hset, if_neg fun hwr => hoff hs (hout hs hwr)⟩, fun vram => ?_⟩⟩
    · rw [getPixel_eq _ hx hy, hc]
      by_cases hr : Reads s.windowed x y
      · rw [if_pos hr]
        simp [if_pos (hin hs hr), hmake]
      · rw [if_neg hr, (hon hs).resolve_left hr]
    · intro x' y' hx' hy' hne
      rw [getPixel_eq _ hx' hy', getPixel_eq _ hx' hy']
      simp only
      by_cases hr : Reads s.windowed x' y'
      · rw [if_pos hr, if_pos hr]
        by_cases hwr : Writes s.windowed x y
        · rw [if_pos hwr, Function.update_of_ne]
          intro he
          obtain ⟨rfl, rfl⟩ := place_inj hr hwr he
          exact hne rfl
        · rw [if_neg hwr]
      · rw [if_neg hr, if_neg hr]
    · rw [getPixel_eq _ hx hy, getPixel_eq _ hx hy]
      simp only [if_neg (hoff hs)]

/-- Where the two functions agree: in windowed mode left of 282 and above 221, or with a
color that is read as black; outside of the screen beyond the margins. In wide mode
everywhere, with the screen around the NumWorks one. -/
theorem round_trip_iff {dpixel : Window → Vram → Int → Int → Int → Vram} (hd : Draws dpixel) (vram : Vram) {c : ColorArg}
    {q : Nat × Nat × Nat} (hc : quantised c = some q) {x y : Int} (hx : IsInt x) (hy : IsInt y) :
    (RoundTrip dpixel nwScreen ⟨true, fullWindow, vram⟩ c x y ↔
      (nwScreen x y → (x < 282 ∧ y < 221) ∨ q = (0, 0, 0)) ∧ (¬ nwScreen x y → ¬ ((-38 ≤ x ∧ x < 282) ∧ -1 ≤ y ∧ y < 221))) ∧
    RoundTrip dpixel wideScreen ⟨false, fullWindow, vram⟩ c x y ∧
    (RoundTrip dpixel wideFromOrigin ⟨false, fullWindow, vram⟩ c x y ↔
      (wideFromOrigin x y → (x < 358 ∧ y < 223) ∨ q = (0, 0, 0)) ∧
        (¬ wideFromOrigin x y → ¬ ((-38 ≤ x ∧ x < 358) ∧ -1 ≤ y ∧ y < 223))) := by
  refine ⟨?_, ?_, ?_⟩
  · rw [roundTrip_iff hd rfl hc hx hy]
    · simp only [Reads, if_true, nwScreen]
      refine and_congr (imp_congr_right fun hs => or_congr ?_ Iff.rfl) Iff.rfl
      omega
    · exact fun hs _ => hs
    · exact fun hs hwr => absurd hwr hs
  · rw [roundTrip_iff hd rfl hc hx hy]
    · exact ⟨fun hs => Or.inl hs, fun hs => hs⟩
    · exact fun hs _ => hs
    · exact fun hs hwr => absurd hwr hs
  · rw [roundTrip_iff hd rfl hc hx hy]
    · simp only [Reads, Bool.false_eq_true, if_false, wideFromOrigin]
      refine and_congr (imp_congr_right fun hs => or_congr ?_ Iff.rfl) Iff.rfl
      omega
    · exact fun _ hr => hr
    · exact fun _ hwr => hwr

/-- dpixel with its clipping. -/
def drawPixel (w : Window) (vram : Vram) (x y color : Int) : Vram :=
  if w.Contains x y then Function.update vram (dwidth * y + x) (BitVec.ofInt 16 color) else vram

theorem draws_drawPixel : Draws drawPixel := fun _ _ _ _ _ _ _ _ _ _ _ => rfl

/-- A red pixel in the last column of the screen is read as black, and one left of the
screen is read from the margin. -/
theorem last_column_lost : nwScreen 319 0 ∧
    (setPixel drawPixel ⟨true, fullWindow, fun _ => 0⟩ 319 0 (.int 0xF800)).map (fun s => getPixel s 319 0) = some (0, 0, 0) ∧
    quantised (.int 0xF800) = some (248, 0, 0) ∧ ¬ nwScreen (-1) 0 ∧
    getPixel ⟨true, fullWindow, fun _ => 0xFFFF⟩ (-1) 0 = (248, 252, 248) := by
  refine ⟨by decide, by decide, by decide, by decide, by decide⟩

theorem round_trip_iff_origin :
    RoundTrip drawPixel nwScreen ⟨true, fullWindow, fun _ => 0⟩ (.str "red") 0 0 := by
  refine (round_trip_iff draws_drawPixel (fun _ => 0) (c := .str "red") rfl (by decide) (by decide)).1.mpr ⟨?_, ?_⟩
  · exact fun _ => Or.inl (by decide)
  · exact fun h => absurd (show nwScreen 0 0 by decide) h

end PythonUltra.Sh.Kandinsky
