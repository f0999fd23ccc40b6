/-
  PythonUltra.Lib.Raster — loops that write points of a picture, each at most once.

  A `Canvas` is any state with points that can be read and written. Painting writes some of
  a list of points, from values that do not depend on the picture; when no point comes
  twice, each written point has its value and the others what they had (`paint_spec`).
  `frame` is the canvas of an array that holds a picture row by row.
-/

import Mathlib.Data.List.Nodup
import Mathlib.Data.List.ProdSigma
import Mathlib.Tactic.Linarith

namespace PythonUltra.Lib.Raster

structure Canvas (σ ι α : Type) [DecidableEq ι] where
  get : σ → ι → Option α
  put : σ → ι → α → Option σ
  put_some : ∀ s i v, (get s i).isSome = true → ∃ s', put s i v = some s' ∧ ∀ j, get s' j = if j = i then some v else get s j

variable {σ ι α β γ : Type} [DecidableEq ι]

/-- A point that is written, if there is a value for it. -/
def Canvas.paint (C : Canvas σ ι α) (s : σ) (op : ι × Option α) : Option σ :=
  match op.2 with
  | some v => C.put s op.1 v
  | none => some s

theorem Canvas.paint_spec (C : Canvas σ ι α) (ops : List (ι × Option α)) {s : σ} (hnodup : (ops.map Prod.fst).Nodup)
    (hin : ∀ op ∈ ops, (C.get s op.1).isSome = true) :
    ∃ s', ops.foldlM C.paint s = some s' ∧ (∀ op ∈ ops, C.get s' op.1 = (op.2 <|> C.get s op.1)) ∧
      ∀ j, j ∉ ops.map Prod.fst → C.get s' j = C.get s j := by
  induction ops generalizing s with
  | nil => exact ⟨s, rfl, fun op h => absurd h List.not_mem_nil, fun _ _ => rfl⟩
  | cons op ops ih =>
    rw [List.map_cons, List.nodup_cons] at hnodup
    obtain ⟨s₁, hpaint, hget⟩ : ∃ s₁, C.paint s op = some s₁ ∧ ∀ j, C.get s₁ j = if j = op.1 then (op.2 <|> C.get s op.1) else C.get s j := by
      obtain ⟨i, v⟩ := op
      cases v with
      | none =>
        refine ⟨s, rfl, fun j => ?_⟩
        by_cases hj : j = i
        · rw [if_pos hj, hj]
          rfl
        · rw [if_neg hj]
      | some v => exact C.put_some s i v (hin _ List.mem_cons_self)
    have hother : ∀ op' ∈ ops, C.get s₁ op'.1 = C.get s op'.1 := by
      intro op' hop'
      rw [hget, if_neg]
      rintro e
      exact hnodup.1 (e ▸ List.mem_map_of_mem hop')
    obtain ⟨s', hrun, hsame, hrest⟩ := ih hnodup.2 fun op' hop' => by
      rw [hother op' hop']
      exact hin op' (List.mem_cons_of_mem _ hop')
    refine ⟨s', by rw [List.foldlM_cons, hpaint]; exact hrun, fun op' hop' => ?_, fun j hj => ?_⟩
    · rcases List.mem_cons.mp hop' with rfl | hop'
      · rw [hrest _ hnodup.1, hget, if_pos rfl]
      · rw [hsame op' hop', hother op' hop']
    · rw [List.map_cons, List.mem_cons, not_or] at hj
      rw [hrest j hj.2, hget, if_neg hj.1]

theorem foldlM_product {m : Type → Type} [Monad m] [LawfulMonad m] (f : σ → β × γ → m σ) (l : List β) (l' : List γ) (s : σ) :
    l.foldlM (fun s y => l'.foldlM (fun s x => f s (y, x)) s) s = (l ×ˢ l').foldlM f s := by
  induction l generalizing s with
  | nil => rfl
  | cons y l ih =>
    rw [List.foldlM_cons, List.product_cons, List.foldlM_append, List.foldlM_map]
    exact bind_congr fun s => ih s

theorem foldlM_congr {f g : σ → β → Option σ} {l : List β} (h : ∀ x ∈ l, ∀ s, f s x = g s x) (s : σ) : l.foldlM f s = l.foldlM g s := by
  induction l generalizing s with
  | nil => rfl
  | cons x l ih =>
    rw [List.foldlM_cons, List.foldlM_cons, h x List.mem_cons_self]
    exact bind_congr fun s => ih (fun y hy => h y (List.mem_cons_of_mem _ hy)) s

theorem foldlM_keeps {f : σ → β → Option σ} {P : σ → Prop} {l : List β} {s s' : σ} (hstep : ∀ s x s', f s x = some s' → P s → P s')
    (hrun : l.foldlM f s = some s') (hP : P s) : P s' := by
  induction l generalizing s with
  | nil => exact Option.some.inj hrun ▸ hP
  | cons x l ih =>
    rw [List.foldlM_cons] at hrun
    obtain ⟨s₁, hone, hrun⟩ := Option.bind_eq_some_iff.mp hrun
    exact ih hrun (hstep s x s₁ hone hP)

/-- Two loops that paint a point at each turn, and never one point twice. -/
theorem Canvas.paint_loops (C : Canvas σ ι α) (turn : σ → Nat × Nat → Option σ) (op : Nat × Nat → ι × Option α) {m n : Nat} {s : σ}
    (hturn : ∀ y < m, ∀ x < n, ∀ s, turn s (y, x) = C.paint s (op (y, x))) (hinj : ∀ yx yx', (op yx).1 = (op yx').1 → yx = yx')
    (hin : ∀ y < m, ∀ x < n, (C.get s (op (y, x)).1).isSome = true) :
    ∃ s', (List.range m).foldlM (fun s y => (List.range n).foldlM (fun s x => turn s (y, x)) s) s = some s' ∧
      (∀ y < m, ∀ x < n, C.get s' (op (y, x)).1 = ((op (y, x)).2 <|> C.get s (op (y, x)).1)) ∧
      (∀ j, (∀ y < m, ∀ x < n, j ≠ (op (y, x)).1) → C.get s' j = C.get s j) ∧
      ∀ P : σ → Prop, (∀ s o s', C.paint s o = some s' → P s → P s') → P s → P s' := by
  have hmem : ∀ yx ∈ List.range m ×ˢ List.range n, yx.1 < m ∧ yx.2 < n := fun yx hyx => by
    obtain ⟨hy, hx⟩ := List.mem_product.mp hyx
    exact ⟨List.mem_range.mp hy, List.mem_range.mp hx⟩
  have hnodup : (((List.range m ×ˢ List.range n).map op).map Prod.fst).Nodup := by
    rw [List.map_map]
    exact List.Nodup.map (fun yx yx' he => hinj yx yx' he) (List.nodup_range.product List.nodup_range)
  obtain ⟨s', hrun, hpainted, hrest⟩ := C.paint_spec ((List.range m ×ˢ List.range n).map op) hnodup fun o ho => by
    obtain ⟨yx, hyx, rfl⟩ := List.mem_map.mp ho
    exact hin yx.1 (hmem yx hyx).1 yx.2 (hmem yx hyx).2
  refine ⟨s', ?_, fun y hy x hx => ?_, fun j hj => ?_, fun P hP => foldlM_keeps hP hrun⟩
  · rw [foldlM_product, ← hrun, List.foldlM_map]
    exact foldlM_congr (fun yx hyx s => hturn yx.1 (hmem yx hyx).1 yx.2 (hmem yx hyx).2 s) s
  · exact hpainted _ (List.mem_map_of_mem (List.mem_product.mpr ⟨List.mem_range.mpr hy, List.mem_range.mpr hx⟩))
  · refine hrest j fun hmap => ?_
    rw [List.map_map] at hmap
    obtain ⟨yx, hyx, he⟩ := List.mem_map.mp hmap
    exact hj yx.1 (hmem yx hyx).1 yx.2 (hmem yx hyx).2 he.symm

/-! ## A picture in an array -/

/-- An element at an offset, which must be one of the array's. -/
def load (a : Array α) (i : Int) : Option α := if 0 ≤ i then a[i.toNat]? else none

def store (a : Array α) (i : Int) (v : α) : Option (Array α) := if h : 0 ≤ i ∧ i.toNat < a.size then some (a.set i.toNat v h.2) else none

variable {a a' : Array α} {i j : Int} {v : α}

theorem load_isSome : (load a i).isSome = true ↔ 0 ≤ i ∧ i < a.size := by
  unfold load
  by_cases hi : 0 ≤ i
  · rw [if_pos hi]
    simp
    omega
  · rw [if_neg hi]
    simp [hi]

theorem store_spec (h : (load a i).isSome = true) :
    ∃ a', store a i v = some a' ∧ a'.size = a.size ∧ ∀ j, load a' j = if j = i then some v else load a j := by
  obtain ⟨h0, hlt⟩ := load_isSome.mp h
  have hcond : 0 ≤ i ∧ i.toNat < a.size := ⟨h0, by omega⟩
  refine ⟨a.set i.toNat v hcond.2, dif_pos hcond, Array.size_set _, fun j => ?_⟩
  unfold load
  by_cases hj : 0 ≤ j
  · rw [if_pos hj, if_pos hj, Array.getElem?_set]
    by_cases hji : j = i
    · rw [if_pos (by rw [hji]), if_pos hji]
    · rw [if_neg (by omega), if_neg hji]
  · have hne : j ≠ i := fun e => hj (e ▸ h0)
    rw [if_neg hj, if_neg hj, if_neg hne]

theorem store_size (h : store a i v = some a') : a'.size = a.size := by
  unfold store at h
  by_cases hi : 0 ≤ i ∧ i.toNat < a.size
  · rw [dif_pos hi] at h
    rw [← Option.some.inj h, Array.size_set]
  · rw [dif_neg hi] at h
    exact absurd h (by simp)

def Inside (w h : Int) (p : Int × Int) : Prop := 0 ≤ p.1 ∧ p.1 < w ∧ 0 ≤ p.2 ∧ p.2 < h

instance (w h : Int) (p : Int × Int) : Decidable (Inside w h p) := inferInstanceAs (Decidable (_ ∧ _ ∧ _ ∧ _))

/-- The place of a point. -/
def offset (w : Int) (p : Int × Int) : Int := p.2 * w + p.1

theorem offset_inj {w h h' : Int} {p q : Int × Int} (hp : Inside w h p) (hq : Inside w h' q) (he : offset w p = offset w q) : p = q := by
  obtain ⟨x, y⟩ := p
  obtain ⟨x', y'⟩ := q
  obtain ⟨h1, h2, h3, h4⟩ := hp
  obtain ⟨h5, h6, h7, h8⟩ := hq
  simp only [offset] at h1 h2 h5 h6 he
  have hy : y = y' := by
    rcases lt_trichotomy y y' with hlt | rfl | hlt
    · have : (y + 1) * w ≤ y' * w := mul_le_mul_of_nonneg_right (by omega) (by omega)
      linarith
    · rfl
    · have : (y' + 1) * w ≤ y * w := mul_le_mul_of_nonneg_right (by omega) (by omega)
      linarith
  subst hy
  rw [show x = x' by omega]

theorem offset_bounds {w h : Int} {p : Int × Int} (hp : Inside w h p) : 0 ≤ offset w p ∧ offset w p < w * h := by
  obtain ⟨h1, h2, h3, h4⟩ := hp
  have hrow : 0 ≤ p.2 * w := mul_nonneg h3 (by omega)
  have hlast : (p.2 + 1) * w ≤ h * w := mul_le_mul_of_nonneg_right (by omega) (by omega)
  refine ⟨by simp only [offset]; omega, ?_⟩
  simp only [offset]
  linarith

/-- A picture of `w` by `h` points, one row after the other. -/
def frame (w h : Int) : Canvas (Array α) (Int × Int) α where
  get a p := if Inside w h p then load a (offset w p) else none
  put a p v := store a (offset w p) v
  put_some a p v hp := by
    have hin : Inside w h p := by
      by_contra hno
      rw [if_neg hno] at hp
      exact absurd hp Bool.false_ne_true
    rw [if_pos hin] at hp
    obtain ⟨a', hs, -, hload⟩ := store_spec (v := v) hp
    refine ⟨a', hs, fun q => ?_⟩
    by_cases hq : Inside w h q
    · rw [if_pos hq, if_pos hq, hload]
      by_cases hqp : q = p
      · rw [if_pos hqp, if_pos (by rw [hqp])]
      · rw [if_neg hqp, if_neg fun e => hqp (offset_inj hq hin e)]
    · have hne : q ≠ p := fun e => hq (e ▸ hin)
      rw [if_neg hq, if_neg hq, if_neg hne]

end PythonUltra.Lib.Raster
