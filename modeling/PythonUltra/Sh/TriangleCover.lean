/-
  PythonUltra.Sh.TriangleCover — the pixels that the filled triangles of a mesh paint.

  `dline(a, y, b, y)` paints the closed span from a to b. On each scanline a triangle
  paints from one crossing of its outline to another (`mem_painted_exactLines`): the
  pixels of the edges that reach the scanline and the vertices that lie on it. `Crosses`
  names the set of vertices only, so neither the sort nor the branches of the loop show
  in what is painted, and a shared edge crosses both of its triangles in the same pixel.

  Proved for every mesh with coordinates up to 2^20: it is drawn without an overflow, no
  order of a triangle's vertices changes its pixels, and every shared edge is a `Seam`
  (`mesh_painted`).
-/

import PythonUltra.Sh.Triangle
import Mathlib.Algebra.Order.Ring.Abs
import Mathlib.Data.Set.Basic
import Mathlib.Data.List.Forall2

namespace PythonUltra.Sh.Triangle

/-- The pixels of horizontal lines. -/
def painted (lines : List Line) : Set (Int × Int) := {p | ∃ line ∈ lines, line.y1 = p.2 ∧ line.x1 ≤ p.1 ∧ p.1 ≤ line.x2}

/-- The outline through these vertices meets the scanline in this pixel. -/
def Crosses (corners : List Vertex) (y x : Int) : Prop :=
  (∃ u ∈ corners, ∃ l ∈ corners, u.y < l.y ∧ u.y ≤ y ∧ y ≤ l.y ∧ x = edgePixel u l y) ∨ ∃ v ∈ corners, v.y = y ∧ x = v.x

/-- The pixels between two crossings. -/
def covered (corners : List Vertex) : Set (Int × Int) :=
  {p | ∃ a b, Crosses corners p.2 a ∧ Crosses corners p.2 b ∧ a ≤ p.1 ∧ p.1 ≤ b}

/-- A triangle of a mesh. -/
structure Face where
  v0 : Vertex
  v1 : Vertex
  v2 : Vertex
  color : Int
  deriving DecidableEq, Repr

def Face.corners (f : Face) : List Vertex := [f.v0, f.v1, f.v2]

/-- The calls of draw_mesh. -/
def drawMesh (faces : List Face) : Option (List (List Line)) :=
  faces.mapM fun f => dtriangle f.v0.x f.v0.y f.v1.x f.v1.y f.v2.x f.v2.y f.color

/-- Coordinates up to 2^20. -/
def Vertex.Small (v : Vertex) : Prop := (-2 ^ 20 ≤ v.x ∧ v.x ≤ 2 ^ 20) ∧ -2 ^ 20 ≤ v.y ∧ v.y ≤ 2 ^ 20

/-- Two sets of pixels meet along the edge from `u` down to `l`. -/
structure Seam (u l : Vertex) (A B : Set (Int × Int)) : Prop where
  /-- Both paint the pixel of the edge. -/
  shared : ∀ y, u.y < l.y → u.y ≤ y → y ≤ l.y → (edgePixel u l y, y) ∈ A ∧ (edgePixel u l y, y) ∈ B
  /-- Both paint an edge along a scanline. -/
  level : u.y = l.y → ∀ x, min u.x l.x ≤ x → x ≤ max u.x l.x → (x, u.y) ∈ A ∧ (x, u.y) ∈ B
  /-- No pixel is left between them. -/
  closed : ∀ y a b x, u.y ≤ y → y ≤ l.y → (a, y) ∈ A → (b, y) ∈ B → (a ≤ x ∧ x ≤ b ∨ b ≤ x ∧ x ≤ a) → (x, y) ∈ A ∪ B

/-! ## Crossings -/

section

variable {v0 v1 v2 u l : Vertex} {y x : Int} {corners : List Vertex}

theorem edgePixel_upper (u l : Vertex) : edgePixel u l u.y = u.x := by
  unfold edgePixel edge
  rw [Int.sub_self, mul_zero, zero_mul, Int.zero_tdiv, add_zero]
  exact Int.mul_ediv_cancel _ (by norm_num)

theorem edgePixel_lower (h : u.y < l.y) : edgePixel u l l.y = l.x := by
  have hquot : ((l.x - u.x) * (l.y - u.y) * 2 ^ 16).tdiv (l.y - u.y) = (l.x - u.x) * 2 ^ 16 := by
    rw [mul_right_comm]
    exact Int.mul_tdiv_cancel _ (by omega)
  unfold edgePixel edge
  rw [hquot, ← add_mul, add_sub_cancel]
  exact Int.mul_ediv_cancel _ (by norm_num)

theorem Crosses.of_subset {others : List Vertex} (h : Crosses corners y x) (hsub : corners ⊆ others) : Crosses others y x := by
  rcases h with ⟨u, hu, l, hl, h⟩ | ⟨v, hv, h⟩
  · exact Or.inl ⟨u, hsub hu, l, hsub hl, h⟩
  · exact Or.inr ⟨v, hsub hv, h⟩

theorem covered_congr {others : List Vertex} (h : corners.Perm others) : covered corners = covered others := by
  apply Set.ext
  intro p
  constructor
  · rintro ⟨a, b, ha, hb, hab⟩
    exact ⟨a, b, ha.of_subset h.subset, hb.of_subset h.subset, hab⟩
  · rintro ⟨a, b, ha, hb, hab⟩
    exact ⟨a, b, ha.of_subset h.symm.subset, hb.of_subset h.symm.subset, hab⟩

/-- The short edge starts and ends at `v1` on its scanline. -/
theorem shortPixel_at (v0 v1 v2 : Vertex) : shortPixel v0 v1 v2 v1.y = v1.x := by
  unfold shortPixel
  rw [if_neg (by omega)]
  split
  · exact edgePixel_upper _ _
  · rfl

/-- The outline of sorted vertices crosses a scanline on the long edge and on a short one. -/
theorem crosses_iff (hup : v0.y ≤ v1.y) (hlow : v1.y ≤ v2.y) (hne : v0.y ≠ v2.y) (hlo : v0.y ≤ y) (hhi : y ≤ v2.y) :
    Crosses [v0, v1, v2] y x ↔ x = edgePixel v0 v2 y ∨ x = shortPixel v0 v1 v2 y := by
  constructor
  · rintro (⟨u, hu, l, hl, hlt, h1, h2, rfl⟩ | ⟨v, hv, rfl, rfl⟩)
    · simp only [List.mem_cons, List.not_mem_nil, or_false] at hu hl
      rcases hu with rfl | rfl | rfl <;> rcases hl with rfl | rfl | rfl <;> try (exfalso; omega)
      · -- the upper short edge
        refine Or.inr ?_
        rcases h2.eq_or_lt with rfl | hy
        · rw [edgePixel_lower hlt, shortPixel_at _ _ _]
        · unfold shortPixel
          rw [if_pos ⟨hy, by omega⟩]
      · exact Or.inl rfl
      · -- the lower short edge
        refine Or.inr ?_
        unfold shortPixel
        rw [if_neg (by omega), if_pos (by omega)]
    · simp only [List.mem_cons, List.not_mem_nil, or_false] at hv
      rcases hv with rfl | rfl | rfl
      · exact Or.inl (edgePixel_upper _ _).symm
      · exact Or.inr (shortPixel_at _ _ _).symm
      · exact Or.inl (edgePixel_lower (by omega)).symm
  · rintro (rfl | rfl)
    · exact Or.inl ⟨v0, by simp, v2, by simp, by omega, hlo, hhi, rfl⟩
    · unfold shortPixel
      split_ifs with hu hl
      · exact Or.inl ⟨v0, by simp, v1, by simp, by omega, hlo, by omega, rfl⟩
      · exact Or.inl ⟨v1, by simp, v2, by simp, by omega, by omega, hhi, rfl⟩
      · exact Or.inr ⟨v1, by simp, by omega, rfl⟩

theorem Crosses.range (hup : v0.y ≤ v1.y) (hlow : v1.y ≤ v2.y) (h : Crosses [v0, v1, v2] y x) : v0.y ≤ y ∧ y ≤ v2.y := by
  have hmem : ∀ v ∈ [v0, v1, v2], v0.y ≤ v.y ∧ v.y ≤ v2.y := by
    intro v hv
    simp only [List.mem_cons, List.not_mem_nil, or_false] at hv
    rcases hv with rfl | rfl | rfl <;> omega
  rcases h with ⟨u, hu, l, hl, -, h1, h2, -⟩ | ⟨v, hv, rfl, -⟩
  · have := hmem u hu
    have := hmem l hl
    omega
  · exact hmem v hv

/-- What the spans paint lies between two crossings, and is all of it. -/
theorem mem_painted_exactLines (color : Int) (hup : v0.y ≤ v1.y) (hlow : v1.y ≤ v2.y) :
    painted (exactLines v0 v1 v2 color) = covered [v0, v1, v2] := by
  apply Set.ext
  rintro ⟨x, y⟩
  unfold exactLines
  split_ifs with hflat
  · -- the vertices are on one scanline: each of them is a crossing
    have hcross : ∀ a, Crosses [v0, v1, v2] v0.y a ↔ a = v0.x ∨ a = v1.x ∨ a = v2.x := by
      intro a
      constructor
      · rintro (⟨u, hu, l, hl, hlt, -⟩ | ⟨v, hv, -, rfl⟩)
        · simp only [List.mem_cons, List.not_mem_nil, or_false] at hu hl
          rcases hu with rfl | rfl | rfl <;> rcases hl with rfl | rfl | rfl <;> omega
        · simp only [List.mem_cons, List.not_mem_nil, or_false] at hv
          rcases hv with rfl | rfl | rfl <;> simp
      · rintro (rfl | rfl | rfl)
        · exact Or.inr ⟨v0, by simp, rfl, rfl⟩
        · exact Or.inr ⟨v1, by simp, by omega, rfl⟩
        · exact Or.inr ⟨v2, by simp, by omega, rfl⟩
    constructor
    · rintro ⟨line, hline, rfl, h1, h2⟩
      rw [List.mem_singleton.mp hline] at h1 h2 ⊢
      simp only at h1 h2
      refine ⟨min (min v0.x v1.x) v2.x, max (max v0.x v1.x) v2.x, (hcross _).mpr ?_, (hcross _).mpr ?_, h1, h2⟩ <;> omega
    · rintro ⟨a, b, ha, hb, h1, h2⟩
      obtain rfl : y = v0.y := by
        have : v0.y ≤ y ∧ y ≤ v2.y := ha.range hup hlow
        omega
      have ha' := (hcross a).mp ha
      have hb' := (hcross b).mp hb
      refine ⟨_, List.mem_singleton_self _, rfl, ?_, ?_⟩ <;> simp only at h1 h2 ⊢ <;> omega
  · constructor
    · rintro ⟨line, hline, hy, h1, h2⟩
      obtain ⟨i, hi, rfl⟩ := List.mem_map.mp hline
      rw [List.mem_range] at hi
      simp only [exactLine] at hy h1 h2
      subst hy
      have hiff : ∀ a, Crosses [v0, v1, v2] (v0.y + i) a ↔
          a = edgePixel v0 v2 (v0.y + i) ∨ a = shortPixel v0 v1 v2 (v0.y + i) :=
        fun a => crosses_iff hup hlow hflat (by omega) (by omega)
      refine ⟨_, _, (hiff _).mpr ?_, (hiff _).mpr ?_, h1, h2⟩ <;> omega
    · rintro ⟨a, b, ha, hb, h1, h2⟩
      obtain ⟨hlo, hhi⟩ : v0.y ≤ y ∧ y ≤ v2.y := ha.range hup hlow
      have ha' := (crosses_iff hup hlow hflat hlo hhi).mp ha
      have hb' := (crosses_iff hup hlow hflat hlo hhi).mp hb
      have hy : v0.y + ((y - v0.y).toNat : Int) = y := by omega
      refine ⟨_, List.mem_map.mpr ⟨(y - v0.y).toNat, List.mem_range.mpr (by omega), rfl⟩, hy, ?_, ?_⟩ <;>
        simp only [exactLine, hy] at h1 h2 ⊢ <;> omega

end

/-! ## Seams -/

section

variable {corners others : List Vertex} {u l : Vertex}

theorem covered_interval {y a b x : Int} (ha : (a, y) ∈ covered corners) (hb : (b, y) ∈ covered corners) (h1 : a ≤ x)
    (h2 : x ≤ b) : (x, y) ∈ covered corners := by
  obtain ⟨c, -, hc, -, hca, -⟩ := ha
  obtain ⟨-, d, -, hd, -, hbd⟩ := hb
  exact ⟨c, d, hc, hd, Int.le_trans hca h1, Int.le_trans h2 hbd⟩

theorem covered_of_crosses {y x : Int} (h : Crosses corners y x) : (x, y) ∈ covered corners :=
  ⟨x, x, h, h, Int.le_refl x, Int.le_refl x⟩

/-- Two outlines through the same two vertices meet in a seam. -/
theorem covered_seam (hule : u.y ≤ l.y) (hu : u ∈ corners) (hl : l ∈ corners) (hu' : u ∈ others) (hl' : l ∈ others) :
    Seam u l (covered corners) (covered others) := by
  have hedge : ∀ {vs : List Vertex}, u ∈ vs → l ∈ vs → u.y < l.y → ∀ y, u.y ≤ y → y ≤ l.y → (edgePixel u l y, y) ∈ covered vs := by
    intro vs hu hl hlt y h1 h2
    exact covered_of_crosses (Or.inl ⟨u, hu, l, hl, hlt, h1, h2, rfl⟩)
  have hlevel : ∀ {vs : List Vertex}, u ∈ vs → l ∈ vs → u.y = l.y → ∀ x, min u.x l.x ≤ x → x ≤ max u.x l.x → (x, u.y) ∈ covered vs := by
    intro vs hu hl heq x h1 h2
    have hcu : Crosses vs u.y u.x := Or.inr ⟨u, hu, rfl, rfl⟩
    have hcl : Crosses vs u.y l.x := Or.inr ⟨l, hl, heq.symm, rfl⟩
    rcases le_total u.x l.x with hx | hx
    · exact ⟨u.x, l.x, hcu, hcl, by simp only; omega, by simp only; omega⟩
    · exact ⟨l.x, u.x, hcl, hcu, by simp only; omega, by simp only; omega⟩
  refine ⟨fun y hlt h1 h2 => ⟨hedge hu hl hlt y h1 h2, hedge hu' hl' hlt y h1 h2⟩,
    fun heq x h1 h2 => ⟨hlevel hu hl heq x h1 h2, hlevel hu' hl' heq x h1 h2⟩, ?_⟩
  intro y a b x h1 h2 ha hb hx
  -- a pixel that both paint on this scanline joins the two rows
  obtain ⟨c, hc, hc'⟩ : ∃ c, (c, y) ∈ covered corners ∧ (c, y) ∈ covered others := by
    rcases hule.eq_or_lt with heq | hlt
    · obtain rfl : y = u.y := by omega
      exact ⟨u.x, hlevel hu hl heq u.x (min_le_left _ _) (le_max_left _ _), hlevel hu' hl' heq u.x (min_le_left _ _) (le_max_left _ _)⟩
    · exact ⟨_, hedge hu hl hlt y h1 h2, hedge hu' hl' hlt y h1 h2⟩
  rcases hx with ⟨hax, hxb⟩ | ⟨hbx, hxa⟩
  · rcases le_total x c with hxc | hcx
    · exact Or.inl (covered_interval ha hc hax hxc)
    · exact Or.inr (covered_interval hc' hb hcx hxb)
  · rcases le_total x c with hxc | hcx
    · exact Or.inr (covered_interval hb hc' hbx hxc)
    · exact Or.inl (covered_interval hc ha hcx hxa)

end

/-! ## Meshes -/

/-- Small coordinates fit whatever their order. -/
theorem fits_of_small {v0 v1 v2 : Vertex} (h0 : v0.Small) (h1 : v1.Small) (h2 : v2.Small) (hup : v0.y ≤ v1.y) (hlow : v1.y ≤ v2.y) :
    TriangleFits v0 v1 v2 := by
  have hedge : ∀ {u l : Vertex} {y : Int}, u.Small → l.Small → u.y ≤ y → y ≤ l.y → EdgeFits u l y := by
    intro u l y hu hl huy hyl
    obtain ⟨⟨hu1, hu2⟩, hu3, hu4⟩ := hu
    obtain ⟨⟨hl1, hl2⟩, hl3, hl4⟩ := hl
    have hprod := abs_mul (l.x - u.x) (y - u.y)
    have hx : |l.x - u.x| ≤ 2 ^ 21 := abs_le.mpr ⟨by omega, by omega⟩
    have hy : |y - u.y| ≤ 2 ^ 21 := abs_le.mpr ⟨by omega, by omega⟩
    have hle : |(l.x - u.x) * (y - u.y)| ≤ 2 ^ 21 * 2 ^ 21 := by
      rw [hprod]
      exact mul_le_mul hx hy (abs_nonneg _) (by norm_num)
    obtain ⟨hp1, hp2⟩ := abs_le.mp hle
    exact ⟨⟨by omega, by omega⟩, ⟨by omega, by omega⟩, by omega, by omega⟩
  have hbound := h2.2.2
  exact Or.inr ⟨by omega, hedge h0 h2 (by omega) (Int.le_refl _), fun _ => hedge h0 h1 (by omega) (by omega),
    fun _ => hedge h1 h2 (by omega) (Int.le_refl _)⟩

/-- A small face is drawn, and covers what lies between the crossings of its outline. -/
theorem draw_face (f : Face) (h : ∀ v ∈ f.corners, v.Small) : ∃ lines,
    dtriangle f.v0.x f.v0.y f.v1.x f.v1.y f.v2.x f.v2.y f.color = some lines ∧ painted lines = covered f.corners := by
  have hint : ∀ {v : Vertex}, v.Small → IsInt v.x ∧ IsInt v.y := by
    rintro v ⟨⟨h1, h2⟩, h3, h4⟩
    exact ⟨⟨by omega, by omega⟩, ⟨by omega, by omega⟩⟩
  obtain ⟨⟨w0, w1, w2⟩, hw⟩ : ∃ w, sortVertices f.v0 f.v1 f.v2 = w := ⟨_, rfl⟩
  obtain ⟨hup, hlow, hperm⟩ := sortVertices_spec hw
  have hsmall : ∀ w ∈ [w0, w1, w2], w.Small := fun w hw => h w (hperm.subset hw)
  have hfit := fits_of_small (hsmall w0 (by simp)) (hsmall w1 (by simp)) (hsmall w2 (by simp)) hup hlow
  refine ⟨_, (dtriangle_iff_fits f.color (hint (h f.v0 (by simp [Face.corners]))) (hint (h f.v1 (by simp [Face.corners])))
    (hint (h f.v2 (by simp [Face.corners]))) hw).1.mpr hfit, ?_⟩
  have hexact : exactTriangle f.v0.x f.v0.y f.v1.x f.v1.y f.v2.x f.v2.y f.color = exactLines w0 w1 w2 f.color := by
    show exactLines (sortVertices f.v0 f.v1 f.v2).1 (sortVertices f.v0 f.v1 f.v2).2.1 (sortVertices f.v0 f.v1 f.v2).2.2 f.color = _
    rw [hw]
  rw [hexact, mem_painted_exactLines _ hup hlow]
  exact covered_congr hperm

theorem drawMesh_eq {mesh : List Face} (h : ∀ f ∈ mesh, ∀ v ∈ f.corners, v.Small) :
    ∃ drawn, drawMesh mesh = some drawn ∧ drawn.map painted = mesh.map fun f => covered f.corners := by
  induction mesh with
  | nil => exact ⟨[], rfl, rfl⟩
  | cons f rest ih =>
    obtain ⟨lines, hlines, hpaint⟩ := draw_face f (h f (by simp))
    obtain ⟨drawn, hdrawn, hrest⟩ := ih fun g hg => h g (by simp [hg])
    refine ⟨lines :: drawn, ?_, by rw [List.map_cons, List.map_cons, hpaint, hrest]⟩
    unfold drawMesh at hdrawn ⊢
    rw [List.mapM_cons, hlines, hdrawn]
    rfl

theorem covered_reordered {mesh mesh' : List Face} (h : List.Forall₂ (fun f g => f.corners.Perm g.corners) mesh mesh') :
    (mesh.map fun f => covered f.corners) = mesh'.map fun f => covered f.corners := by
  induction h with
  | nil => rfl
  | cons hperm _ ih => rw [List.map_cons, List.map_cons, covered_congr hperm, ih]

theorem small_reordered {mesh mesh' : List Face} (h : List.Forall₂ (fun f g => f.corners.Perm g.corners) mesh mesh')
    (hsmall : ∀ f ∈ mesh, ∀ v ∈ f.corners, v.Small) : ∀ f ∈ mesh', ∀ v ∈ f.corners, v.Small := by
  induction h with
  | nil => simp
  | cons hperm _ ih =>
    intro f hf v hv
    rcases List.mem_cons.mp hf with rfl | hf
    · exact hsmall _ (by simp) v (hperm.symm.subset hv)
    · exact ih (fun g hg => hsmall g (by simp [hg])) f hf v hv

/-- A mesh is drawn whole; the order in which a face names its vertices does not change
its pixels; and two faces with a common edge meet in a seam. -/
theorem mesh_painted (mesh : List Face) (h : ∀ f ∈ mesh, ∀ v ∈ f.corners, v.Small) :
    ∃ drawn, drawMesh mesh = some drawn ∧
      (∀ mesh', List.Forall₂ (fun f g => f.corners.Perm g.corners) mesh mesh' →
        ∃ drawn', drawMesh mesh' = some drawn' ∧ drawn.map painted = drawn'.map painted) ∧
      ∀ (i j : Nat) (f g : Face) (A B : List Line) (u l : Vertex), mesh[i]? = some f → mesh[j]? = some g → drawn[i]? = some A →
        drawn[j]? = some B → u ∈ f.corners → l ∈ f.corners → u ∈ g.corners → l ∈ g.corners → u.y ≤ l.y →
        Seam u l (painted A) (painted B) := by
  obtain ⟨drawn, hdrawn, hpaint⟩ := drawMesh_eq h
  refine ⟨drawn, hdrawn, ?_, ?_⟩
  · intro mesh' hperm
    obtain ⟨drawn', hdrawn', hpaint'⟩ := drawMesh_eq (small_reordered hperm h)
    exact ⟨drawn', hdrawn', by rw [hpaint, hpaint', covered_reordered hperm]⟩
  · intro i j f g A B u l hf hg hA hB huf hlf hug hlg hle
    -- the spans drawn for a face are its covered pixels
    have hat : ∀ {k : Nat} {e : Face} {L : List Line}, mesh[k]? = some e → drawn[k]? = some L → painted L = covered e.corners := by
      intro k e L he hL
      have hk := congrArg (·[k]?) hpaint
      simp only [List.getElem?_map, he, hL, Option.map_some] at hk
      exact Option.some.inj hk
    rw [hat hf hA, hat hg hB]
    exact covered_seam hle huf hlf hug hlg

/-- Two triangles over the edge from (4, 0) down to (2, 9). -/
theorem mesh_painted_two : ∃ drawn, drawMesh [⟨⟨0, 3⟩, ⟨4, 0⟩, ⟨2, 9⟩, 1⟩, ⟨⟨2, 9⟩, ⟨8, 5⟩, ⟨4, 0⟩, 2⟩] = some drawn ∧
    ∃ A ∈ drawn, ∃ B ∈ drawn, Seam ⟨4, 0⟩ ⟨2, 9⟩ (painted A) (painted B) := by
  have hsmall : ∀ f ∈ [(⟨⟨0, 3⟩, ⟨4, 0⟩, ⟨2, 9⟩, 1⟩ : Face), ⟨⟨2, 9⟩, ⟨8, 5⟩, ⟨4, 0⟩, 2⟩], ∀ v ∈ f.corners, v.Small := by
    simp [Face.corners, Vertex.Small]
  obtain ⟨drawn, hdrawn, -, hseam⟩ := mesh_painted _ hsmall
  have hlen : ∀ {f g : Face}, drawMesh [f, g] = some drawn → ∃ A B, drawn = [A, B] := by
    intro f g h
    unfold drawMesh at h
    simp only [List.mapM_cons, List.mapM_nil, Option.bind_eq_bind, Option.bind_eq_some_iff] at h
    obtain ⟨A, -, rest, ⟨B, -, tail, ⟨rfl⟩, ⟨rfl⟩⟩, ⟨rfl⟩⟩ := h
    exact ⟨A, B, rfl⟩
  obtain ⟨A, B, rfl⟩ := hlen hdrawn
  exact ⟨_, hdrawn, A, by simp, B, by simp, hseam 0 1 _ _ A B ⟨4, 0⟩ ⟨2, 9⟩ rfl rfl rfl rfl (by simp [Face.corners])
    (by simp [Face.corners]) (by simp [Face.corners]) (by simp [Face.corners]) (by decide)⟩

end PythonUltra.Sh.Triangle
