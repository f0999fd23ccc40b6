/-
  PythonUltra.Pygame.Memory — surfaces in memory and what is made of their pixels
  (ports/sh/modules/pygame/__init__.py).

  A surface has its bytes, with room for its pixels. `blit_pixels` is the one rule of blit:
  a point gets the source's pixel if it is in the clip rectangle, the pixel is in the area
  and is not the colour key; `plot_spec` is that of the loops that put every pixel anew.

  `copy` and `flip` are exact. `subsurface` and `scroll` are blits, and leave out what a
  blit leaves out: the pixels of the key and, for `scroll`, the points outside the clip
  rectangle. `copies_iff` says when that makes no difference.
-/

import PythonUltra.Pygame.Blit
import PythonUltra.Pygame.Color

open PythonUltra.Lib.Raster PythonUltra.Sh.Colorkey

namespace PythonUltra.Pygame

/-- A surface in memory. -/
structure Surface where
  w : Int
  h : Int
  flags : Int
  data : Array Byte
  alpha : Option Int
  colorkey : Option Pixel
  clip : Rect
  text : Option String
  textColor : Option Nat
  textBackground : Option Nat
  pos : 0 < w ∧ 0 < h
  room : 2 * (w * h) ≤ data.size
  clipped : ∃ rect, clip = setClip w h rect

namespace Surface

/-- `Surface((w, h), flags)` of a size that passes the check. -/
def blank (w h flags : Int) (pos : 0 < w ∧ 0 < h) : Surface where
  w := w
  h := h
  flags := flags
  data := Array.replicate (w * h * 2).toNat 0
  alpha := none
  colorkey := none
  clip := ⟨0, 0, w, h⟩
  text := none
  textColor := none
  textBackground := none
  pos := pos
  room := by
    rw [Array.size_replicate]
    omega
  clipped := ⟨none, rfl⟩

/-- `Surface((w, h), flags)` -/
def new (w h flags : Int) : Except BlitExc Surface :=
  if pos : 0 < w ∧ 0 < h then .ok (blank w h flags pos) else .error (.valueError "Surface dimensions must be positive")

/-- The surface as it is drawn. -/
def source (s : Surface) : Source := { Source.ofSize s.w s.h s.data s.colorkey with text := s.text.isSome }

def pixel (s : Surface) (p : Int × Int) : Option Pixel := sourcePixel s.data (2 * s.w) p

/-- `set_clip` -/
def setClip (s : Surface) (rect : Option Rect) : Surface :=
  { s with clip := Pygame.setClip s.w s.h rect, clipped := ⟨rect, rfl⟩ }

end Surface

theorem put565_size {w h x y : Int} {data data' : Array Byte} {color : Nat} (hput : put565 w h data x y color = some data') :
    data'.size = data.size := by
  unfold put565 at hput
  split at hput
  · rw [Option.some.inj hput]
  · obtain ⟨data₁, hstore₁, hstore₂⟩ := Option.bind_eq_some_iff.mp hput
    rw [store_size hstore₂, store_size hstore₁]

theorem softwareCopy_size {w h dx dy : Int} {source : Source} {src : Rect} {data data' : Array Byte}
    (hrun : softwareCopy (put565 w h) source dx dy src data = some data') : data'.size = data.size := by
  refine foldlM_keeps (P := fun d => d.size = data.size) (fun d sy d' hrow hd => ?_) hrun rfl
  refine foldlM_keeps (P := fun d => d.size = data.size) (fun d sx d' hone hd => ?_) hrow hd
  obtain ⟨color, -, hput⟩ := Option.bind_eq_some_iff.mp hone
  split at hput
  · rw [put565_size hput, hd]
  · rw [← Option.some.inj hput, hd]

theorem blitMemory_size {w h : Int} {clip result : Rect} {source : Source} {dest : Int × Int} {area : Option Rect} {data data' : Array Byte}
    (hrun : blitMemory w h clip data source dest area = .ok (data', result)) : data'.size = data.size := by
  unfold blitMemory at hrun
  split at hrun
  · cases hrun
    rfl
  · unfold orIndexError at hrun
    split at hrun
    · rename_i hcopy
      cases hrun
      exact softwareCopy_size hcopy
    · cases hrun

/-- Loops that put a pixel for every column and row. none: IndexError. -/
def plot (w h : Int) (place : Nat → Nat → Int × Int) (value : Nat → Nat → Option Nat) (data : Array Byte) : Option (Array Byte) :=
  (List.range h.toNat).foldlM (fun data y =>
    (List.range w.toNat).foldlM (fun data x => do put565 w h data (place x y).1 (place x y).2 (← value x y)) data) data

theorem plot_size {w h : Int} {place : Nat → Nat → Int × Int} {value : Nat → Nat → Option Nat} {data data' : Array Byte}
    (hrun : plot w h place value data = some data') : data'.size = data.size := by
  refine foldlM_keeps (P := fun d => d.size = data.size) (fun d y d' hrow hd => ?_) hrun rfl
  refine foldlM_keeps (P := fun d => d.size = data.size) (fun d x d' hone hd => ?_) hrow hd
  obtain ⟨color, -, hput⟩ := Option.bind_eq_some_iff.mp hone
  rw [put565_size hput, hd]

namespace Surface

/-- `blit` -/
def blit (s : Surface) (source : Source) (dest : Int × Int) (area : Option Rect) : Except BlitExc (Surface × Rect) :=
  match hrun : blitMemory s.w s.h s.clip s.data source dest area with
  | .error e => .error e
  | .ok (data, result) => .ok ({ s with data := data, room := blitMemory_size hrun ▸ s.room }, result)

/-- The surface with every pixel put anew. -/
def plotted (s : Surface) (place : Nat → Nat → Int × Int) (value : Nat → Nat → Option Nat) : Except BlitExc Surface :=
  match hrun : plot s.w s.h place value s.data with
  | none => .error .indexError
  | some data => .ok { s with data := data, room := plot_size hrun ▸ s.room }

def copy (s : Surface) : Surface :=
  { blank s.w s.h s.flags s.pos with
    alpha := s.alpha
    colorkey := s.colorkey
    text := s.text
    textColor := s.textColor
    textBackground := s.textBackground
    data := s.data
    room := s.room }

def subsurface (s : Surface) (rect : Rect) : Except BlitExc Surface := do
  let rect := rect.clip ⟨0, 0, s.w, s.h⟩
  let result ← new rect.w rect.h s.flags
  let (result, _) ← result.blit s.source (0, 0) (some rect)
  return result

def scroll (s : Surface) (dx dy : Int) : Except BlitExc Surface := do
  let (s, _) ← s.blit s.copy.source (dx, dy) none
  return s

/-- `transform.flip` -/
def flip (s : Surface) (flipX flipY : Bool) : Except BlitExc Surface :=
  { blank s.w s.h s.flags s.pos with colorkey := s.colorkey, alpha := s.alpha }.plotted (fun x y => (x, y)) fun x y =>
    s.source.get565 (if flipX then s.w - 1 - x else x) (if flipY then s.h - 1 - y else y)

variable {s t : Surface} {p : Int × Int}

/-! ## Pixels -/

theorem picture (s : Surface) : Picture s.w s.h s.data := fun p hp => by
  obtain ⟨h1, h2⟩ := offset_bounds hp
  have := s.room
  rw [sourcePixel_rows, color_isSome]
  omega

theorem pixel_some (hp : Inside s.w s.h p) : ∃ a, s.pixel p = some a := Option.isSome_iff_exists.mp (s.picture p hp)

/-- `_get565` reads the pixel. -/
theorem get565_pixel {a : Pixel} (hp : Inside s.w s.h p) (ha : s.pixel p = some a) : s.source.get565 p.1 p.2 = some a.toNat := by
  have hitem : ∀ i, s.source.data.item i = (load s.data i).map BitVec.toNat := fun _ => rfl
  exact get565_of_bytes hitem hp ha

theorem plot_spec {w h : Int} {place : Nat → Nat → Int × Int} {value : Nat → Nat → Option Nat} {data : Array Byte} (v : Nat → Nat → Nat)
    (hdata : Picture w h data) (hplace : ∀ x < w.toNat, ∀ y < h.toNat, Inside w h (place x y))
    (hinj : ∀ x y x' y', place x y = place x' y' → x = x' ∧ y = y') (hvalue : ∀ x < w.toNat, ∀ y < h.toNat, value x y = some (v x y)) :
    ∃ data', plot w h place value data = some data' ∧
      ∀ x < w.toNat, ∀ y < h.toNat, sourcePixel data' (2 * w) (place x y) = some (BitVec.ofNat 16 (v x y)) := by
  let op (yx : Nat × Nat) : (Int × Int) × Option Pixel := (place yx.2 yx.1, some (BitVec.ofNat 16 (v yx.2 yx.1)))
  have hturn : ∀ y < h.toNat, ∀ x < w.toNat, ∀ target,
      (do put565 w h target (place x y).1 (place x y).2 (← value x y)) = (memory w h).paint target (op (y, x)) := by
    intro y hy x hx target
    rw [hvalue x hx y hy, Option.bind_eq_bind, Option.bind_some]
    exact put565_drawn none (v x y)
  have hget : ∀ {data : Array Byte} {p : Int × Int}, Inside w h p → (memory w h).get data p = sourcePixel data (2 * w) p := fun hp => if_pos hp
  have hpoints : ∀ yx yx', (op yx).1 = (op yx').1 → yx = yx' := by
    intro yx yx' he
    obtain ⟨h1, h2⟩ := hinj _ _ _ _ he
    exact Prod.ext h2 h1
  obtain ⟨data', hrun, hpainted, -, -⟩ := (memory w h).paint_loops (fun target yx => do
      put565 w h target (place yx.2 yx.1).1 (place yx.2 yx.1).2 (← value yx.2 yx.1)) op hturn hpoints (s := data) fun y hy x hx => by
    rw [hget (hplace x hx y hy)]
    exact hdata _ (hplace x hx y hy)
  refine ⟨data', hrun, fun x hx y hy => ?_⟩
  rw [← hget (hplace x hx y hy)]
  exact hpainted y hy x hx

/-- The surface with every pixel put anew. -/
theorem plotted_spec {place : Nat → Nat → Int × Int} {value : Nat → Nat → Option Nat} (s : Surface) (v : Nat → Nat → Nat)
    (hplace : ∀ x < s.w.toNat, ∀ y < s.h.toNat, Inside s.w s.h (place x y)) (hinj : ∀ x y x' y', place x y = place x' y' → x = x' ∧ y = y')
    (hvalue : ∀ x < s.w.toNat, ∀ y < s.h.toNat, value x y = some (v x y)) :
    ∃ t, s.plotted place value = .ok t ∧ t.w = s.w ∧ t.h = s.h ∧
      ∀ x < s.w.toNat, ∀ y < s.h.toNat, t.pixel (place x y) = some (BitVec.ofNat 16 (v x y)) := by
  obtain ⟨data, hplot, hpixels⟩ := plot_spec v s.picture hplace hinj hvalue
  unfold plotted
  split
  · rename_i hrun
    rw [hplot] at hrun
    cases hrun
  · rename_i data' hrun
    rw [hplot] at hrun
    cases hrun
    exact ⟨_, rfl, rfl, rfl, hpixels⟩

theorem clip_contains {r o : Rect} : (r.clip o).Contains p ↔ r.Contains p ∧ o.Contains p := by
  by_cases hempty : min r.right o.right ≤ max r.x o.x ∨ min r.bottom o.bottom ≤ max r.y o.y
  · have heq : r.clip o = ⟨max r.x o.x, max r.y o.y, 0, 0⟩ := if_pos hempty
    rw [heq]
    simp only [Rect.Contains, Rect.right, Rect.bottom] at hempty ⊢
    omega
  · have heq : r.clip o = ⟨max r.x o.x, max r.y o.y, min r.right o.right - max r.x o.x, min r.bottom o.bottom - max r.y o.y⟩ :=
      if_neg hempty
    rw [heq]
    simp only [Rect.Contains, Rect.right, Rect.bottom]
    omega

theorem whole_contains {w h : Int} : (⟨0, 0, w, h⟩ : Rect).Contains p ↔ Inside w h p := by
  simp only [Rect.Contains, Rect.right, Rect.bottom, Inside]
  omega

/-- The point of the source that blit puts at a point. -/
def blitFrom (dest : Int × Int) (area : Rect) (p : Int × Int) : Int × Int := (p.1 - dest.1 + area.x, p.2 - dest.2 + area.y)

/-- What a blit covers of its target, and what it takes for it. -/
theorem crop_cases (clip : Rect) (source : Source) (dest : Int × Int) (area : Option Rect) :
    ∃ result, (∀ p, result.Contains p ↔ clip.Contains p ∧
        (area.getD ⟨0, 0, source.w, source.h⟩).Contains (blitFrom dest (area.getD ⟨0, 0, source.w, source.h⟩) p) ∧
        Inside source.w source.h (blitFrom dest (area.getD ⟨0, 0, source.w, source.h⟩) p)) ∧
      (crop clip source dest area = (result, none) ∧ (∀ p, ¬ result.Contains p) ∨
        ∃ uncropped place src, crop clip source dest area = (result, some (uncropped, place, src)) ∧
          ∀ p : Int × Int, (p.1 - result.x + src.x, p.2 - result.y + src.y) = blitFrom dest (area.getD ⟨0, 0, source.w, source.h⟩) p) := by
  unfold crop
  simp only
  generalize area.getD ⟨0, 0, source.w, source.h⟩ = whole
  obtain ⟨bounded, hbounded⟩ : ∃ bounded, bounded = whole.clip ⟨0, 0, source.w, source.h⟩ := ⟨_, rfl⟩
  rw [← hbounded]
  have hcontains : ∀ q, bounded.Contains q ↔ whole.Contains q ∧ Inside source.w source.h q := fun q => by
    rw [hbounded, clip_contains, whole_contains]
  obtain ⟨moved, hmoved⟩ : ∃ moved : Rect, moved = ⟨dest.1 + (bounded.x - whole.x), dest.2 + (bounded.y - whole.y), bounded.w, bounded.h⟩ :=
    ⟨_, rfl⟩
  rw [← hmoved]
  have hshift : ∀ p, moved.Contains p ↔ bounded.Contains (blitFrom dest whole p) := fun p => by
    rw [hmoved]
    simp only [Rect.Contains, Rect.right, Rect.bottom, blitFrom]
    omega
  refine ⟨moved.clip clip, fun p => ?_, ?_⟩
  · rw [clip_contains, hshift, hcontains]
    tauto
  · split
    · rename_i hempty
      refine Or.inl ⟨rfl, fun p hp => ?_⟩
      rcases hempty with hw | hh | hw | hh
      · have hin := (hshift p).mp (clip_contains.mp hp).1
        simp only [Rect.Contains, Rect.right, Rect.bottom] at hin
        omega
      · have hin := (hshift p).mp (clip_contains.mp hp).1
        simp only [Rect.Contains, Rect.right, Rect.bottom] at hin
        omega
      · simp only [Rect.Contains, Rect.right, Rect.bottom] at hp
        omega
      · simp only [Rect.Contains, Rect.right, Rect.bottom] at hp
        omega
    · refine Or.inr ⟨_, _, _, rfl, fun p => Prod.ext ?_ ?_⟩
      · rw [hmoved]
        simp only [blitFrom]
        omega
      · rw [hmoved]
        simp only [blitFrom]
        omega

/-- A blit puts the source's pixels, but for the key, in the clip rectangle. -/
theorem blit_pixels (s t : Surface) (dest : Int × Int) (area : Option Rect) :
    ∃ s' result, s.blit t.source dest area = .ok (s', result) ∧ s'.w = s.w ∧ s'.h = s.h ∧
      ∀ p, Inside s.w s.h p →
        s'.pixel p = if (s.clip.Contains p ∧ (area.getD ⟨0, 0, t.w, t.h⟩).Contains (blitFrom dest (area.getD ⟨0, 0, t.w, t.h⟩) p) ∧
            Inside t.w t.h (blitFrom dest (area.getD ⟨0, 0, t.w, t.h⟩) p)) ∧
            t.colorkey ≠ t.pixel (blitFrom dest (area.getD ⟨0, 0, t.w, t.h⟩) p) then
          t.pixel (blitFrom dest (area.getD ⟨0, 0, t.w, t.h⟩) p) else s.pixel p := by
  obtain ⟨result, hcovers, hcrop⟩ := crop_cases s.clip t.source dest area
  have hdata : ∃ data, blitMemory s.w s.h s.clip s.data t.source dest area = .ok (data, result) ∧ ∀ p, Inside s.w s.h p →
      sourcePixel data (2 * s.w) p = if result.Contains p ∧ t.colorkey ≠ t.pixel (blitFrom dest (area.getD ⟨0, 0, t.w, t.h⟩) p) then
        t.pixel (blitFrom dest (area.getD ⟨0, 0, t.w, t.h⟩) p) else s.pixel p := by
    rcases hcrop with ⟨hnone, hempty⟩ | ⟨uncropped, place, src, hsome, hfrom⟩
    · refine ⟨s.data, by rw [blitMemory, hnone], fun p _ => ?_⟩
      rw [if_neg fun h => hempty p h.1]
      rfl
    · obtain ⟨rect, hclip⟩ := s.clipped
      obtain ⟨rfl, hcropped⟩ := crop_spec hclip hsome
      have hinside : ∀ q, src.Contains q → Inside t.w t.h q := fun q hq => by
        have hin : src.Within ⟨0, 0, t.w, t.h⟩ := hcropped.inSource
        simp only [Rect.Contains, Rect.Within, Rect.right, Rect.bottom, Inside] at *
        omega
      have hread : ∀ q, src.Contains q → t.source.get565 q.1 q.2 = some ((t.pixel q).getD 0).toNat := fun q hq => by
        obtain ⟨a, ha⟩ := pixel_some (hinside q hq)
        rw [get565_pixel (hinside q hq) ha, ha, Option.getD_some]
      obtain ⟨data, hrun, hcomposed⟩ := softwareCopy_spec _ hcropped s.picture hread
      refine ⟨data, ?_, fun p hp => ?_⟩
      · rw [blitMemory, hsome]
        simp only [hrun, orIndexError]
      · rw [hcomposed p hp]
        by_cases hin : result.Contains p
        · have hfromIn := ((hcovers p).mp hin).2.2
          obtain ⟨a, ha⟩ : ∃ a, t.pixel (blitFrom dest (area.getD ⟨0, 0, t.w, t.h⟩) p) = some a := pixel_some hfromIn
          have hat : t.pixel (p.1 - result.x + src.x, p.2 - result.y + src.y) = some a := by rw [hfrom p]; exact ha
          rw [if_pos hin]
          simp only [hat, Option.getD_some]
          have hkey : t.source.colorkey = t.colorkey := rfl
          rw [hkey, ha]
          cases hcolorkey : t.colorkey with
          | none =>
            rw [drawnPixel_none, if_pos ⟨hin, (Option.some_ne_none a).symm⟩]
            rfl
          | some key =>
            rw [drawnPixel_key]
            by_cases e : a = key
            · rw [if_pos e, if_neg fun h => h.2 (congrArg some e.symm)]
              rfl
            · rw [if_neg e, if_pos ⟨hin, fun h => e (Option.some.inj h).symm⟩]
              rfl
        · rw [if_neg hin, if_neg fun h => hin h.1]
          rfl
  obtain ⟨data, hrun, hpixels⟩ := hdata
  unfold blit
  split
  · rename_i hfail
    rw [hrun] at hfail
    cases hfail
  · rename_i hok
    rw [hrun] at hok
    cases hok
    refine ⟨_, _, rfl, rfl, rfl, fun p hp => (hpixels p hp).trans ?_⟩
    exact if_congr (and_congr_left fun _ => hcovers p) rfl rfl

theorem blank_pixel {w h flags : Int} {pos : 0 < w ∧ 0 < h} (hp : Inside w h p) : (blank w h flags pos).pixel p = some 0 := by
  obtain ⟨h1, h2⟩ := offset_bounds hp
  have hload : ∀ i : Int, 0 ≤ i → i < 2 * (w * h) → load (Array.replicate (w * h * 2).toNat (0 : Byte)) i = some 0 := fun i h1 h2 => by
    rw [load, if_pos h1, Array.getElem?_replicate, if_pos (by omega)]
  rw [pixel, sourcePixel_rows]
  show color (Array.replicate (w * h * 2).toNat 0) (2 * offset w p) = some 0
  rw [color, hload _ (by omega) (by omega), hload _ (by omega) (by omega)]
  rfl

/-! ## Exact copies -/

/-- The second surface has the pixels of the first. -/
structure SamePixels (s t : Surface) : Prop where
  size : t.w = s.w ∧ t.h = s.h
  pixels : ∀ p, Inside s.w s.h p → t.pixel p = s.pixel p

theorem copy_same (s : Surface) : SamePixels s s.copy := ⟨⟨rfl, rfl⟩, fun _ _ => rfl⟩

/-- Where flip reads. -/
def flipped (s : Surface) (flipX flipY : Bool) (p : Int × Int) : Int × Int :=
  (if flipX then s.w - 1 - p.1 else p.1, if flipY then s.h - 1 - p.2 else p.2)

theorem flipped_inside (flipX flipY : Bool) (hp : Inside s.w s.h p) : Inside s.w s.h (s.flipped flipX flipY p) := by
  obtain ⟨h1, h2, h3, h4⟩ := hp
  unfold flipped Inside
  rcases flipX with _ | _ <;> rcases flipY with _ | _ <;> simp only [Bool.false_eq_true, if_true, if_false] <;> omega

theorem flipped_flipped (s : Surface) (flipX flipY : Bool) (p : Int × Int) : s.flipped flipX flipY (s.flipped flipX flipY p) = p := by
  unfold flipped
  rcases flipX with _ | _ <;> rcases flipY with _ | _ <;> simp

theorem flip_spec (s : Surface) (flipX flipY : Bool) :
    ∃ t, s.flip flipX flipY = .ok t ∧ t.w = s.w ∧ t.h = s.h ∧
      ∀ p, Inside s.w s.h p → t.pixel p = s.pixel (s.flipped flipX flipY p) := by
  have hin : ∀ x < s.w.toNat, ∀ y < s.h.toNat, Inside s.w s.h ((x : Int), (y : Int)) := fun x hx y hy =>
    ⟨by omega, by simp only; omega, by omega, by simp only; omega⟩
  have hvalue : ∀ x < s.w.toNat, ∀ y < s.h.toNat,
      s.source.get565 (if flipX then s.w - 1 - (x : Int) else x) (if flipY then s.h - 1 - (y : Int) else y) =
        some ((s.pixel (s.flipped flipX flipY (x, y))).getD 0).toNat := fun x hx y hy => by
    obtain ⟨a, ha⟩ := pixel_some (flipped_inside flipX flipY (hin x hx y hy))
    rw [ha, Option.getD_some]
    exact get565_pixel (flipped_inside flipX flipY (hin x hx y hy)) ha
  obtain ⟨t, hrun, hw, hh, hpixels⟩ := plotted_spec { blank s.w s.h s.flags s.pos with colorkey := s.colorkey, alpha := s.alpha } _ hin
    (fun x y x' y' h => by obtain ⟨h1, h2⟩ := Prod.mk.inj h; omega) hvalue
  refine ⟨t, hrun, hw, hh, fun p hp => ?_⟩
  obtain ⟨a, ha⟩ := pixel_some (flipped_inside flipX flipY hp)
  obtain ⟨h1, h2, h3, h4⟩ := hp
  have hpoint : ((p.1.toNat : Int), (p.2.toNat : Int)) = p := Prod.ext (Int.toNat_of_nonneg h1) (Int.toNat_of_nonneg h3)
  have hx : p.1.toNat < s.w.toNat := by omega
  have hy : p.2.toNat < s.h.toNat := by omega
  have hpixel := hpixels p.1.toNat hx p.2.toNat hy
  rw [hpoint, ha, Option.getD_some, BitVec.ofNat_toNat, BitVec.setWidth_eq] at hpixel
  rw [hpixel, ha]

theorem flip_twice (s : Surface) (flipX flipY : Bool) :
    ∃ t u, s.flip flipX flipY = .ok t ∧ t.flip flipX flipY = .ok u ∧ SamePixels s u := by
  obtain ⟨t, hflip, hw, hh, hpixels⟩ := flip_spec s flipX flipY
  obtain ⟨u, hback, hw', hh', hpixels'⟩ := flip_spec t flipX flipY
  refine ⟨t, u, hflip, hback, ⟨hw'.trans hw, hh'.trans hh⟩, fun p hp => ?_⟩
  have hsame : t.flipped flipX flipY p = s.flipped flipX flipY p := by rw [flipped, flipped, hw, hh]
  rw [hpixels' p (by rw [hw, hh]; exact hp), hsame, hpixels _ (flipped_inside flipX flipY hp), flipped_flipped]

/-- The part of the surface that a rectangle has. -/
def part (s : Surface) (rect : Rect) : Rect := rect.clip ⟨0, 0, s.w, s.h⟩

theorem part_contains {rect : Rect} : (s.part rect).Contains p ↔ rect.Contains p ∧ Inside s.w s.h p := by
  rw [part, clip_contains, whole_contains]

theorem subsurface_spec {rect : Rect} (hpos : 0 < (s.part rect).w ∧ 0 < (s.part rect).h) :
    ∃ t, s.subsurface rect = .ok t ∧ t.w = (s.part rect).w ∧ t.h = (s.part rect).h ∧
      ∀ p, Inside (s.part rect).w (s.part rect).h p →
        t.pixel p = if s.colorkey = s.pixel ((s.part rect).x + p.1, (s.part rect).y + p.2) then some 0
          else s.pixel ((s.part rect).x + p.1, (s.part rect).y + p.2) := by
  obtain ⟨t, result, hblit, hw, hh, hpixels⟩ := blit_pixels (blank (s.part rect).w (s.part rect).h s.flags hpos) s (0, 0) (some (s.part rect))
  refine ⟨t, ?_, hw, hh, fun p hp => ?_⟩
  · have hnew : new (s.part rect).w (s.part rect).h s.flags = .ok (blank (s.part rect).w (s.part rect).h s.flags hpos) := dif_pos hpos
    show (do
      let result ← new (s.part rect).w (s.part rect).h s.flags
      let (result, _) ← result.blit s.source (0, 0) (some (s.part rect))
      return result) = _
    rw [hnew]
    show (do
      let (result, _) ← (blank (s.part rect).w (s.part rect).h s.flags hpos).blit s.source (0, 0) (some (s.part rect))
      return result) = _
    rw [hblit]
    rfl
  · have hfrom : blitFrom (0, 0) (s.part rect) p = ((s.part rect).x + p.1, (s.part rect).y + p.2) := by
      unfold blitFrom
      exact Prod.ext (by simp only; omega) (by simp only; omega)
    have hin : (s.part rect).Contains ((s.part rect).x + p.1, (s.part rect).y + p.2) := by
      obtain ⟨h1, h2, h3, h4⟩ := hp
      simp only [Rect.Contains, Rect.right, Rect.bottom]
      omega
    have hpixel := hpixels p hp
    rw [Option.getD_some, hfrom, blank_pixel hp] at hpixel
    rw [hpixel]
    by_cases hkey : s.colorkey = s.pixel ((s.part rect).x + p.1, (s.part rect).y + p.2)
    · rw [if_neg fun h => h.2 hkey, if_pos hkey]
    · rw [if_pos ⟨⟨whole_contains.mpr hp, hin, (part_contains.mp hin).2⟩, hkey⟩, if_neg hkey]

theorem scroll_spec (s : Surface) (dx dy : Int) :
    ∃ t, s.scroll dx dy = .ok t ∧ t.w = s.w ∧ t.h = s.h ∧ ∀ p, Inside s.w s.h p →
      t.pixel p = if (s.clip.Contains p ∧ Inside s.w s.h (p.1 - dx, p.2 - dy)) ∧ s.colorkey ≠ s.pixel (p.1 - dx, p.2 - dy) then
        s.pixel (p.1 - dx, p.2 - dy) else s.pixel p := by
  obtain ⟨t, result, hblit, hw, hh, hpixels⟩ := blit_pixels s s.copy (dx, dy) none
  refine ⟨t, ?_, hw, hh, fun p hp => (hpixels p hp).trans ?_⟩
  · show (do
      let (s, _) ← s.blit s.copy.source (dx, dy) none
      return s) = _
    rw [hblit]
    rfl
  · have hfrom : blitFrom (dx, dy) ⟨0, 0, s.w, s.h⟩ p = (p.1 - dx, p.2 - dy) := by
      unfold blitFrom
      exact Prod.ext (by simp only; omega) (by simp only; omega)
    show (if (s.clip.Contains p ∧ (⟨0, 0, s.w, s.h⟩ : Rect).Contains (blitFrom (dx, dy) ⟨0, 0, s.w, s.h⟩ p) ∧
        Inside s.w s.h (blitFrom (dx, dy) ⟨0, 0, s.w, s.h⟩ p)) ∧ s.colorkey ≠ s.pixel (blitFrom (dx, dy) ⟨0, 0, s.w, s.h⟩ p) then
      s.pixel (blitFrom (dx, dy) ⟨0, 0, s.w, s.h⟩ p) else s.pixel p) = _
    rw [hfrom]
    exact if_congr (and_congr_left fun _ => and_congr_right fun _ => by rw [whole_contains, and_self]) rfl rfl

/-- `subsurface`, `copy`, two flips and `scroll` give exactly the pixels they should. -/
structure CopiesExactly (s : Surface) (rect : Rect) (dx dy : Int) (flipX flipY : Bool) : Prop where
  part : ∃ t, s.subsurface rect = .ok t ∧ t.w = (s.part rect).w ∧ t.h = (s.part rect).h ∧
    ∀ p, Inside t.w t.h p → t.pixel p = s.pixel ((s.part rect).x + p.1, (s.part rect).y + p.2)
  copied : SamePixels s s.copy
  flipped : ∃ t u, s.flip flipX flipY = .ok t ∧ t.flip flipX flipY = .ok u ∧ SamePixels s u
  scrolled : ∃ t, s.scroll dx dy = .ok t ∧ t.w = s.w ∧ t.h = s.h ∧ ∀ p, Inside s.w s.h p →
    t.pixel p = if Inside s.w s.h (p.1 - dx, p.2 - dy) then s.pixel (p.1 - dx, p.2 - dy) else s.pixel p

/-- The pixels that a blit leaves out make no difference. -/
structure NothingLeftOut (s : Surface) (rect : Rect) (dx dy : Int) : Prop where
  meets : ∃ p, Inside s.w s.h p ∧ rect.Contains p
  part : ∀ p, Inside s.w s.h p → rect.Contains p → s.colorkey = s.pixel p → s.pixel p = some 0
  scroll : ∀ p, Inside s.w s.h p → Inside s.w s.h (p.1 - dx, p.2 - dy) →
    ¬ s.clip.Contains p ∨ s.colorkey = s.pixel (p.1 - dx, p.2 - dy) → s.pixel p = s.pixel (p.1 - dx, p.2 - dy)

theorem part_pos {rect : Rect} : (0 < (s.part rect).w ∧ 0 < (s.part rect).h) ↔ ∃ p, Inside s.w s.h p ∧ rect.Contains p := by
  constructor
  · intro hpos
    refine ⟨((s.part rect).x, (s.part rect).y), ?_⟩
    refine And.symm (part_contains.mp ?_)
    simp only [Rect.Contains, Rect.right, Rect.bottom]
    omega
  · rintro ⟨p, hp, hrect⟩
    have hin := part_contains.mpr ⟨hrect, hp⟩
    simp only [Rect.Contains, Rect.right, Rect.bottom] at hin
    omega

theorem copies_iff (s : Surface) (rect : Rect) (dx dy : Int) (flipX flipY : Bool) :
    s.CopiesExactly rect dx dy flipX flipY ↔ s.NothingLeftOut rect dx dy := by
  obtain ⟨scrolled, hscroll, hsw, hsh, hscrolled⟩ := scroll_spec s dx dy
  constructor
  · intro h
    obtain ⟨t, hsub, htw, hth, hpart⟩ := h.part
    have hpos : 0 < (s.part rect).w ∧ 0 < (s.part rect).h := ⟨htw ▸ t.pos.1, hth ▸ t.pos.2⟩
    refine ⟨part_pos.mp hpos, fun p hp hrect hkey => ?_, fun p hp hfrom hout => ?_⟩
    · obtain ⟨t', hsub', -, -, hpixels⟩ := subsurface_spec hpos
      rw [hsub] at hsub'
      cases hsub'
      have hin := part_contains.mpr ⟨hrect, hp⟩
      have hq : Inside (s.part rect).w (s.part rect).h (p.1 - (s.part rect).x, p.2 - (s.part rect).y) := by
        simp only [Rect.Contains, Rect.right, Rect.bottom] at hin
        simp only [Inside]
        omega
      have hpoint : ((s.part rect).x + (p.1 - (s.part rect).x), (s.part rect).y + (p.2 - (s.part rect).y)) = p :=
        Prod.ext (by simp only; omega) (by simp only; omega)
      have hwant := hpart _ (by rw [htw, hth]; exact hq)
      have hgot := hpixels _ hq
      simp only [hpoint] at hwant hgot
      rw [if_pos hkey] at hgot
      rw [← hwant, hgot]
    · obtain ⟨t', hscroll', -, -, hwant⟩ := h.scrolled
      rw [hscroll] at hscroll'
      cases hscroll'
      have hgot := hscrolled p hp
      rw [hwant p hp, if_pos hfrom] at hgot
      rw [hgot, if_neg]
      rintro ⟨⟨hclip, -⟩, hkey⟩
      exact hout.elim (fun h => h hclip) hkey
  · intro h
    have hpos := part_pos.mpr h.meets
    obtain ⟨t, hsub, htw, hth, hpixels⟩ := subsurface_spec hpos
    refine ⟨⟨t, hsub, htw, hth, fun p hp => ?_⟩, copy_same s, flip_twice s flipX flipY, scrolled, hscroll, hsw, hsh, fun p hp => ?_⟩
    · rw [htw, hth] at hp
      have hin : (s.part rect).Contains ((s.part rect).x + p.1, (s.part rect).y + p.2) := by
        obtain ⟨h1, h2, h3, h4⟩ := hp
        simp only [Rect.Contains, Rect.right, Rect.bottom]
        omega
      obtain ⟨hrect, hinside⟩ := part_contains.mp hin
      rw [hpixels p hp]
      by_cases hkey : s.colorkey = s.pixel ((s.part rect).x + p.1, (s.part rect).y + p.2)
      · rw [if_pos hkey, h.part _ hinside hrect hkey]
      · rw [if_neg hkey]
    · rw [hscrolled p hp]
      by_cases hfrom : Inside s.w s.h (p.1 - dx, p.2 - dy)
      · rw [if_pos hfrom]
        by_cases hdrawn : s.clip.Contains p ∧ s.colorkey ≠ s.pixel (p.1 - dx, p.2 - dy)
        · rw [if_pos ⟨⟨hdrawn.1, hfrom⟩, hdrawn.2⟩]
        · rw [if_neg fun h => hdrawn ⟨h.1.1, h.2⟩]
          refine h.scroll p hp hfrom ?_
          by_cases hclip : s.clip.Contains p
          · exact Or.inr (not_not.mp fun hkey => hdrawn ⟨hclip, hkey⟩)
          · exact Or.inl hclip
      · rw [if_neg hfrom, if_neg fun h => hfrom h.1.2]

theorem row_pos : (0 : Int) < 2 ∧ (0 : Int) < 1 := by decide

theorem row_room : 2 * ((2 : Int) * 1) ≤ (#[0x00, 0x00, 0xf8, 0x1f] : Array Byte).size := by decide

/-- A black pixel and one of the key. -/
def keyed : Surface := { blank 2 1 0 row_pos with data := #[0x00, 0x00, 0xf8, 0x1f], room := row_room, colorkey := some 0xf81f#16 }

theorem key_is_lost : ¬ keyed.CopiesExactly ⟨0, 0, 2, 1⟩ 0 0 true true := by
  intro h
  obtain ⟨t, hsub, htw, hth, hpart⟩ := h.part
  have hpos : 0 < (keyed.part ⟨0, 0, 2, 1⟩).w ∧ 0 < (keyed.part ⟨0, 0, 2, 1⟩).h := ⟨htw ▸ t.pos.1, hth ▸ t.pos.2⟩
  obtain ⟨t', hsub', -, -, hpixels⟩ := subsurface_spec hpos
  rw [hsub] at hsub'
  cases hsub'
  have hin : Inside (keyed.part ⟨0, 0, 2, 1⟩).w (keyed.part ⟨0, 0, 2, 1⟩).h (1, 0) := ⟨by decide, by decide, by decide, by decide⟩
  have hgot := hpixels (1, 0) hin
  rw [hpart (1, 0) (by rw [htw, hth]; exact hin), if_pos (by decide)] at hgot
  exact absurd hgot (by decide)

end Surface

end PythonUltra.Pygame
