/-
  PythonUltra.Pygame.Color — colours of eight bits a channel and of RGB565
  (ports/sh/modules/pygame/__init__.py).

  A channel of five or six bits is expanded to eight by a quotient that truncates, and cut
  back by a mask. The upper bits of the expanded channel are the channel (`expand5`,
  `expand6`), so every RGB565 value comes back (`color565_ofInt`).
-/

import PythonUltra.Pygame.Surface

namespace PythonUltra.Pygame

/-- `_clamp8` -/
def clamp8 (value : Int) : Nat := if value < 0 then 0 else if value > 255 then 255 else value.toNat

structure Color where
  r : Nat
  g : Nat
  b : Nat
  a : Nat
  deriving DecidableEq, Repr

/-- `Color(value)` of an int. -/
def Color.ofInt (value : Int) : Color :=
  if 0 ≤ value ∧ value ≤ 0xffff then
    let value := value.toNat
    ⟨(value >>> 11 &&& 31) * 255 / 31, (value >>> 5 &&& 63) * 255 / 63, (value &&& 31) * 255 / 31, 255⟩
  else
    let byte (value : Int) : Nat := (value % 256).toNat
    ⟨byte (value >>> (16 : Nat)), byte (value >>> (8 : Nat)), byte value, if value > 0xffffff then byte (value >>> (24 : Nat)) else 255⟩

/-- `Color(parts)` of three components. -/
def Color.ofParts (red green blue : Int) : Color := ⟨clamp8 red, clamp8 green, clamp8 blue, 255⟩

/-- `_color565` of a Color. -/
def Color.to565 (color : Color) : Nat := (color.r &&& 0xf8) <<< 8 ||| (color.g &&& 0xfc) <<< 3 ||| color.b >>> 3

/-- `_color565` of a tuple. -/
def color565 (red green blue : Int) : Nat := (Color.ofParts red green blue).to565

/-- `_color_from_565` -/
def colorFrom565 (value : Nat) : Color := Color.ofInt (value &&& 0xffff : Nat)

theorem clamp8_of_le {value : Nat} (h : value ≤ 255) : clamp8 value = value := by
  rw [clamp8, if_neg (by omega), if_neg (by omega), Int.toNat_natCast]

/-! ## Channels -/

theorem expand5 : ∀ c < 32, (c * 255 / 31 &&& 0xf8) = c <<< 3 ∧ (c * 255 / 31) >>> 3 = c ∧ c * 255 / 31 ≤ 255 := by decide

theorem expand6 : ∀ c < 64, (c * 255 / 63 &&& 0xfc) = c <<< 2 ∧ c * 255 / 63 ≤ 255 := by decide

theorem fields565 {value : Nat} (h : value < 2 ^ 16) :
    (value >>> 11 &&& 31) <<< 11 ||| (value >>> 5 &&& 63) <<< 5 ||| (value &&& 31) = value := by
  have hmask5 : ∀ n : Nat, n &&& 31 = n % 32 := fun n => Nat.and_two_pow_sub_one_eq_mod n 5
  have hmask6 : ∀ n : Nat, n &&& 63 = n % 64 := fun n => Nat.and_two_pow_sub_one_eq_mod n 6
  rw [hmask5, hmask6, hmask5, Nat.shiftRight_eq_div_pow, Nat.shiftRight_eq_div_pow, Nat.or_assoc,
    ← Nat.shiftLeft_add_eq_or_of_lt (b := value % 32) (i := 5) (by omega), ← Nat.shiftLeft_add_eq_or_of_lt (i := 11), Nat.shiftLeft_eq,
    Nat.shiftLeft_eq]
  · omega
  · rw [Nat.shiftLeft_eq]
    omega

theorem colorFrom565_eq (value : Nat) : colorFrom565 value =
    ⟨((value &&& 0xffff) >>> 11 &&& 31) * 255 / 31, ((value &&& 0xffff) >>> 5 &&& 63) * 255 / 63, (value &&& 0xffff &&& 31) * 255 / 31, 255⟩ := by
  have hle : value &&& 0xffff ≤ 0xffff := Nat.and_le_right
  rw [colorFrom565, Color.ofInt, if_pos (by omega), Int.toNat_natCast]

theorem channels_le (value : Nat) :
    (colorFrom565 value).r ≤ 255 ∧ (colorFrom565 value).g ≤ 255 ∧ (colorFrom565 value).b ≤ 255 := by
  rw [colorFrom565_eq]
  exact ⟨(expand5 _ (Nat.and_lt_two_pow _ (n := 5) (by decide))).2.2, (expand6 _ (Nat.and_lt_two_pow _ (n := 6) (by decide))).2,
    (expand5 _ (Nat.and_lt_two_pow _ (n := 5) (by decide))).2.2⟩

theorem color565_colorFrom565 {value : Nat} (h : value < 2 ^ 16) :
    color565 (colorFrom565 value).r (colorFrom565 value).g (colorFrom565 value).b = value := by
  obtain ⟨hr, hg, hb⟩ := channels_le value
  have hmask : value &&& 0xffff = value := (Nat.and_two_pow_sub_one_eq_mod value 16).trans (Nat.mod_eq_of_lt h)
  rw [color565, Color.ofParts, clamp8_of_le hr, clamp8_of_le hg, clamp8_of_le hb, Color.to565, colorFrom565_eq, hmask]
  have hred := (expand5 (value >>> 11 &&& 31) (Nat.and_lt_two_pow _ (n := 5) (by decide))).1
  have hgreen := (expand6 (value >>> 5 &&& 63) (Nat.and_lt_two_pow _ (n := 6) (by decide))).1
  have hblue := (expand5 (value &&& 31) (Nat.and_lt_two_pow _ (n := 5) (by decide))).2.1
  simp only [hred, hgreen, hblue, ← Nat.shiftLeft_add]
  exact fields565 h

end PythonUltra.Pygame
