/-
  PythonUltra.Py3d.Triangles — prepare_triangles (ports/sh/modules/py3d/__init__.py), with
  exact numbers.

  The normal of a face is at right angles to its edges, so the test that culls it does not
  depend on the vertex it starts from; the reverse face has the opposite normal. What
  `math` computes, a square root and the default focal length, is a parameter and may be
  anything: the tests use it on the normal only, which a rotation leaves as it is.

  * `prepareFaces_rotated`: faces with their vertices rotated are kept or not as before.
  * `not_both`: a face and its reverse are not both kept, with culling on.
-/

import PythonUltra.Py.Quicksort
import PythonUltra.Py3d.Transform
import Mathlib.Data.Rat.Floor
import Mathlib.Tactic.Linarith

open PythonUltra.Py.Quicksort

namespace PythonUltra.Py3d

/-! ## The code -/

def add (a b : Vec3) : Vec3 := ⟨a.x + b.x, a.y + b.y, a.z + b.z⟩
def sub (a b : Vec3) : Vec3 := ⟨a.x - b.x, a.y - b.y, a.z - b.z⟩
def scale (v : Vec3) (amount : ℚ) : Vec3 := ⟨v.x * amount, v.y * amount, v.z * amount⟩
def dot (a b : Vec3) : ℚ := a.x * b.x + a.y * b.y + a.z * b.z
def cross (a b : Vec3) : Vec3 := ⟨a.y * b.z - a.z * b.y, a.z * b.x - a.x * b.z, a.x * b.y - a.y * b.x⟩

/-- `math.sqrt`, and what `focal_length()` returns. -/
structure MathFns where
  sqrt : ℚ → ℚ
  focalLength : ℚ

variable (math : MathFns)

def length (v : Vec3) : ℚ := math.sqrt (dot v v)

def normalize (v : Vec3) : Vec3 :=
  let magnitude := length math v
  if magnitude = 0 then ⟨0, 0, 0⟩ else scale v (1 / magnitude)

inductive Exc where
  | indexError
  | zeroDivisionError
  deriving DecidableEq

def truediv (a b : ℚ) : Except Exc ℚ := if b = 0 then .error .zeroDivisionError else .ok (a / b)

/-- `int` of a number. -/
def toInt (a : ℚ) : Int := if 0 ≤ a then ⌊a⌋ else ⌈a⌉

/-- `values[index]` -/
def getItem {α : Type} (values : List α) (index : Int) : Except Exc α :=
  let index := if index < 0 then index + values.length else index
  if index < 0 then .error .indexError
  else match values[index.toNat]? with
    | some value => .ok value
    | none => .error .indexError

/-- `project`. none: the vertex is not beyond the near plane. -/
def project (vertex : Vec3) (focal : ℚ) (center : ℚ × ℚ) (near : ℚ) : Except Exc (Option (Int × Int × ℚ)) :=
  if vertex.z ≤ near then .ok none
  else do
    let right ← truediv (vertex.x * focal) vertex.z
    let up ← truediv (vertex.y * focal) vertex.z
    return some (toInt (center.1 + right), toInt (center.2 - up), vertex.z)

def shadeRgb565 (color : Int) (amount : ℚ) : Nat :=
  let amount := max 0 (min 1 amount)
  let r := (toInt (((color >>> (11 : Nat)) % 32 : Int) * amount)).toNat
  let g := (toInt (((color >>> (5 : Nat)) % 64 : Int) * amount)).toNat
  let b := (toInt ((color % 32 : Int) * amount)).toNat
  r <<< 11 ||| g <<< 5 ||| b

/-- `(i0, i1, i2)` or `(i0, i1, i2, color)` -/
structure Face where
  i0 : Int
  i1 : Int
  i2 : Int
  color : Option Int

structure Triangle where
  depth : ℚ
  pa : Int × Int
  pb : Int × Int
  pc : Int × Int
  color : Nat
  deriving DecidableEq

/-- The arguments of `prepare_triangles`, but for the faces. -/
structure Scene where
  vertices : List Vec3
  model : Option Matrix4
  position : Vec3
  focal : Option ℚ
  center : Option (ℚ × ℚ)
  near : ℚ
  cull : Bool
  ambient : ℚ
  lightDir : Vec3
  defaultColor : Int

def Scene.transformed (scene : Scene) : List Vec3 := scene.vertices.map fun vertex => add (transform vertex (scene.model.getD identity)) scene.position

/-- The body of the loop over the faces. none: the face is left out. -/
def prepareFace (scene : Scene) (face : Face) : Except Exc (Option Triangle) := do
  let focal := scene.focal.getD math.focalLength
  let center := scene.center.getD (198, 112)
  let light := normalize math scene.lightDir
  let a ← getItem scene.transformed face.i0
  let b ← getItem scene.transformed face.i1
  let c ← getItem scene.transformed face.i2
  if a.z ≤ scene.near ∨ b.z ≤ scene.near ∨ c.z ≤ scene.near then return none
  else
    let normal := cross (sub b a) (sub c a)
    let normalLength := length math normal
    if normalLength = 0 then return none
    else if scene.cull = true ∧ dot normal a ≥ 0 then return none
    else
      match ← project a focal center scene.near, ← project b focal center scene.near, ← project c focal center scene.near with
      | some pa, some pb, some pc =>
        let baseColor := face.color.getD scene.defaultColor
        let unitNormal := scale normal (1 / normalLength)
        let diffuse := dot unitNormal light
        let diffuse := if diffuse < 0 then 0 else diffuse
        let intensity := scene.ambient + (1 - scene.ambient) * diffuse
        let color := shadeRgb565 baseColor intensity
        let depth := (a.z + b.z + c.z) / 3
        return some ⟨depth, (pa.1, pa.2.1), (pb.1, pb.2.1), (pc.1, pc.2.1), color⟩
      | _, _, _ => return none

/-- The objects that `triangles.sort` handles. -/
inductive Obj where
  | bool (b : Bool)
  | float (q : ℚ)
  | tuple (t : Triangle)
  deriving DecidableEq

def Obj.triangle : Obj → Option Triangle
  | .tuple t => some t
  | _ => none

def consts : Consts Obj := ⟨.bool false, .bool true, by decide⟩

/-- `lambda triangle: triangle[0]` -/
def depthKey (x : Obj) (s : Unit) : Obj × Unit :=
  match x with
  | .tuple t => (.float t.depth, s)
  | x => (x, s)

def objLess (x y : Obj) (s : Unit) : Obj × Unit :=
  match x, y with
  | .float a, .float b => (.bool (a < b), s)
  | _, _ => (.bool false, s)

/-- `triangles.sort(key=lambda triangle: triangle[0], reverse=True)`. none: out of fuel. -/
def sortTriangles (triangles : List Triangle) : Option (List Triangle) := do
  let items := (triangles.map Obj.tuple).toArray
  let (items, _) ← mpObjListSort consts (items.size + 1) (items.size + 1) (some depthKey) objLess true items ()
  return items.toList.filterMap Obj.triangle

/-- What becomes of each face. -/
def prepareFaces (scene : Scene) (faces : List Face) : Except Exc (List (Option Triangle)) := faces.mapM (prepareFace math scene)

/-- `prepare_triangles` -/
def prepareTriangles (scene : Scene) (faces : List Face) : Except Exc (Option (List Triangle)) := do
  let triangles ← prepareFaces math scene faces
  return sortTriangles (triangles.filterMap id)

/-! ## The normal -/

variable {a b c : Vec3}

theorem normal_rotate (a b c : Vec3) : cross (sub c b) (sub a b) = cross (sub b a) (sub c a) := by
  simp only [cross, sub, Vec3.mk.injEq]
  refine ⟨?_, ?_, ?_⟩ <;> ring

theorem normal_reverse (a b c : Vec3) : cross (sub c a) (sub b a) = scale (cross (sub b a) (sub c a)) (-1) := by
  simp only [cross, sub, scale, Vec3.mk.injEq]
  refine ⟨?_, ?_, ?_⟩ <;> ring

theorem dot_normal (a b c : Vec3) : dot (cross (sub b a) (sub c a)) b = dot (cross (sub b a) (sub c a)) a := by
  simp only [cross, sub, dot]
  ring

theorem dot_scale_neg (n v : Vec3) : dot (scale n (-1)) v = -dot n v := by
  simp only [scale, dot]
  ring

/-! ## What is kept -/

namespace Face

/-- The next vertex first. -/
def rotate (face : Face) : Face := ⟨face.i1, face.i2, face.i0, face.color⟩

/-- The other way round. -/
def reversed (face : Face) : Face := ⟨face.i0, face.i2, face.i1, face.color⟩

end Face

/-- A face is kept, or not, or the call raises an exception. -/
def kept (result : Except Exc (Option Triangle)) : Except Exc Bool := result.map Option.isSome

/-- The face of three vertices is kept. -/
def Visible (scene : Scene) (a b c : Vec3) : Prop :=
  (scene.near < a.z ∧ scene.near < b.z ∧ scene.near < c.z) ∧ length math (cross (sub b a) (sub c a)) ≠ 0 ∧
    (scene.cull = true → dot (cross (sub b a) (sub c a)) a < 0)

instance (scene : Scene) (a b c : Vec3) : Decidable (Visible math scene a b c) := inferInstanceAs (Decidable (_ ∧ _ ∧ (_ → _)))

theorem visible_rotate (scene : Scene) (a b c : Vec3) : Visible math scene b c a ↔ Visible math scene a b c := by
  unfold Visible
  rw [normal_rotate, dot_normal]
  tauto

theorem not_visible_both {scene : Scene} (hcull : scene.cull = true) (h : Visible math scene a b c) : ¬ Visible math scene a c b := by
  rintro ⟨-, -, hfront⟩
  have hback := hfront hcull
  rw [normal_reverse, dot_scale_neg] at hback
  have := h.2.2 hcull
  linarith

theorem project_beyond {near focal : ℚ} {center : ℚ × ℚ} {v : Vec3} (h : near < v.z) :
    project v focal center near = if v.z = 0 then .error .zeroDivisionError
      else .ok (some (toInt (center.1 + v.x * focal / v.z), toInt (center.2 - v.y * focal / v.z), v.z)) := by
  unfold project truediv
  rw [if_neg (not_le.mpr h)]
  by_cases hz : v.z = 0
  · simp only [if_pos hz]
    rfl
  · simp only [if_neg hz]
    rfl

theorem prepareFace_kept {scene : Scene} {face : Face} (ha : getItem scene.transformed face.i0 = .ok a)
    (hb : getItem scene.transformed face.i1 = .ok b) (hc : getItem scene.transformed face.i2 = .ok c) :
    kept (prepareFace math scene face) =
      if Visible math scene a b c then if a.z = 0 ∨ b.z = 0 ∨ c.z = 0 then .error .zeroDivisionError else .ok true else .ok false := by
  simp only [prepareFace, ha, hb, hc, bind, Except.bind]
  by_cases hnear : scene.near < a.z ∧ scene.near < b.z ∧ scene.near < c.z
  · rw [if_neg (by rw [not_or, not_or, not_le, not_le, not_le]; exact hnear)]
    by_cases hlength : length math (cross (sub b a) (sub c a)) = 0
    · rw [if_pos hlength, if_neg fun h : Visible math scene a b c => h.2.1 hlength]
      rfl
    · rw [if_neg hlength]
      by_cases hback : scene.cull = true ∧ dot (cross (sub b a) (sub c a)) a ≥ 0
      · rw [if_pos hback, if_neg fun h : Visible math scene a b c => absurd (h.2.2 hback.1) (not_lt.mpr hback.2)]
        rfl
      · have hvisible : Visible math scene a b c := ⟨hnear, hlength, fun hcull => not_le.mp fun h => hback ⟨hcull, h⟩⟩
        rw [if_neg hback, if_pos hvisible, project_beyond hnear.1, project_beyond hnear.2.1, project_beyond hnear.2.2]
        by_cases ha0 : a.z = 0
        · simp [ha0, kept, Except.map]
        · by_cases hb0 : b.z = 0
          · simp [ha0, hb0, kept, Except.map]
          · by_cases hc0 : c.z = 0
            · simp [ha0, hb0, hc0, kept, Except.map]
            · simp [ha0, hb0, hc0, kept, Except.map, pure, Except.pure]
  · rw [if_pos (by rw [not_and_or, not_and_or, not_lt, not_lt, not_lt] at hnear; exact hnear), if_neg fun h : Visible math scene a b c => hnear h.1]
    rfl

theorem getItem_error {α : Type} {values : List α} {index : Int} {e : Exc} (h : getItem values index = .error e) : e = .indexError := by
  unfold getItem at h
  simp only at h
  generalize (if index < 0 then index + values.length else index) = place at h
  split at h
  · exact (Except.error.inj h).symm
  · split at h
    · cases h
    · exact (Except.error.inj h).symm

/-- A vertex that is not there: the call raises IndexError. -/
theorem prepareFace_missing {scene : Scene} {face : Face} {e : Exc} (h : getItem scene.transformed face.i0 = .error e ∨
      getItem scene.transformed face.i1 = .error e ∨ getItem scene.transformed face.i2 = .error e) :
    kept (prepareFace math scene face) = .error .indexError := by
  unfold prepareFace
  cases ha : getItem scene.transformed face.i0 with
  | error e' => rw [getItem_error ha]; rfl
  | ok a =>
    cases hb : getItem scene.transformed face.i1 with
    | error e' => rw [getItem_error hb]; rfl
    | ok b =>
      cases hc : getItem scene.transformed face.i2 with
      | error e' => rw [getItem_error hc]; rfl
      | ok c => simp [ha, hb, hc] at h

/-- The next vertex first makes no difference. -/
theorem prepareFace_rotate (scene : Scene) (face : Face) : kept (prepareFace math scene face.rotate) = kept (prepareFace math scene face) := by
  cases ha : getItem scene.transformed face.i0 with
  | error e =>
    rw [prepareFace_missing math (.inl ha), prepareFace_missing math (e := e)]
    exact .inr (.inr ha)
  | ok a =>
    cases hb : getItem scene.transformed face.i1 with
    | error e =>
      rw [prepareFace_missing math (.inr (.inl hb)), prepareFace_missing math (e := e)]
      exact .inl hb
    | ok b =>
      cases hc : getItem scene.transformed face.i2 with
      | error e =>
        rw [prepareFace_missing math (.inr (.inr hc)), prepareFace_missing math (e := e)]
        exact .inr (.inl hc)
      | ok c =>
        have hzero : (b.z = 0 ∨ c.z = 0 ∨ a.z = 0) ↔ (a.z = 0 ∨ b.z = 0 ∨ c.z = 0) := by tauto
        have hrotated : kept (prepareFace math scene face.rotate) = _ := prepareFace_kept math hb hc ha
        rw [prepareFace_kept math ha hb hc, hrotated]
        simp only [visible_rotate, hzero]

theorem prepareFace_rotations (scene : Scene) (face : Face) (n : Nat) :
    kept (prepareFace math scene (Face.rotate^[n] face)) = kept (prepareFace math scene face) := by
  induction n generalizing face with
  | zero => rfl
  | succ n ih => rw [Function.iterate_succ_apply, ih, prepareFace_rotate]

/-- With culling on, a face and its reverse are not both kept. -/
theorem not_both {scene : Scene} (hcull : scene.cull = true) (face : Face) :
    ¬ (kept (prepareFace math scene face) = .ok true ∧ kept (prepareFace math scene face.reversed) = .ok true) := by
  rintro ⟨hfront, hback⟩
  cases ha : getItem scene.transformed face.i0 with
  | error e => rw [prepareFace_missing math (.inl ha)] at hfront; cases hfront
  | ok a =>
    cases hb : getItem scene.transformed face.i1 with
    | error e => rw [prepareFace_missing math (.inr (.inl hb))] at hfront; cases hfront
    | ok b =>
      cases hc : getItem scene.transformed face.i2 with
      | error e => rw [prepareFace_missing math (.inr (.inr hc))] at hfront; cases hfront
      | ok c =>
        have hreversed : kept (prepareFace math scene face.reversed) = _ := prepareFace_kept math ha hc hb
        rw [prepareFace_kept math ha hb hc] at hfront
        rw [hreversed] at hback
        by_cases hv : Visible math scene a b c
        · rw [if_neg (not_visible_both math hcull hv)] at hback
          cases hback
        · rw [if_neg hv] at hfront
          cases hfront

/-! ## All the faces -/

theorem mapM_map {α β γ : Type} (f : α → Except Exc β) (g : β → γ) (l : List α) : (l.mapM f).map (List.map g) = l.mapM fun x => (f x).map g := by
  induction l with
  | nil => rfl
  | cons x l ih =>
    rw [List.mapM_cons, List.mapM_cons, ← ih]
    cases f x with
    | error e => rfl
    | ok y => cases l.mapM f <;> rfl

/-- Every face is kept or not as before when the vertices of each are rotated, each any
number of times; and the call raises what it did before. -/
theorem prepareFaces_rotated (scene : Scene) (faces : List Face) (r : Face → Nat) :
    (prepareFaces math scene (faces.map fun face => Face.rotate^[r face] face)).map (List.map Option.isSome) =
      (prepareFaces math scene faces).map (List.map Option.isSome) := by
  rw [prepareFaces, prepareFaces, mapM_map, mapM_map, List.mapM_map]
  exact congrArg (faces.mapM ·) (funext fun face => prepareFace_rotations math scene face (r face))

/-- The order of the depths. -/
def depthLt (x y : Obj) : Prop := ∃ a b, x = .float a ∧ y = .float b ∧ a < b

theorem depths_compare (triangles : List Triangle) :
    Compares consts (sortOps consts (some depthKey) objLess true) (triangles.map Obj.tuple).toArray (fun x => (depthKey x ()).1) depthLt := by
  have htuple : ∀ x ∈ (triangles.map Obj.tuple).toArray, ∃ t : Triangle, x = .tuple t := by
    intro x hx
    obtain ⟨t, -, rfl⟩ := List.mem_map.mp (List.mem_toArray.mp hx)
    exact ⟨t, rfl⟩
  have hkey : ∀ a, (∃ x ∈ (triangles.map Obj.tuple).toArray, a = (depthKey x ()).1) → ∃ q, a = .float q := by
    rintro a ⟨x, hx, rfl⟩
    obtain ⟨t, rfl⟩ := htuple x hx
    exact ⟨t.depth, rfl⟩
  have hlt : ∀ p q : ℚ, depthLt (.float p) (.float q) ↔ p < q := by
    intro p q
    constructor
    · rintro ⟨a, b, ha, hb, hab⟩
      cases ha
      cases hb
      exact hab
    · intro h
      exact ⟨p, q, rfl, rfl, h⟩
  refine ⟨fun x _ _ => by cases x <;> rfl, ?_, ?_, ⟨?_, ?_, ?_⟩⟩
  · intro x hx y hy h _
    obtain ⟨t, rfl⟩ := htuple x hx
    obtain ⟨t', rfl⟩ := htuple y hy
    simp only [depthKey, hlt] at h
    simp [sortOps, depthKey, objLess, consts, h]
  · intro x hx y hy h _
    obtain ⟨t, rfl⟩ := htuple x hx
    obtain ⟨t', rfl⟩ := htuple y hy
    simp only [depthKey, hlt] at h
    simp only [sortOps, depthKey, objLess, consts, decide_eq_false h]
  · intro a ha h
    obtain ⟨p, rfl⟩ := hkey a ha
    exact lt_irrefl p ((hlt p p).mp h)
  · intro a b c ha hb hc hab hbc
    obtain ⟨p, rfl⟩ := hkey a ha
    obtain ⟨q, rfl⟩ := hkey b hb
    obtain ⟨r, rfl⟩ := hkey c hc
    rw [hlt] at hab hbc ⊢
    exact hab.trans hbc
  · intro a b c ha hb hc h1 h2 h3 h4
    obtain ⟨p, rfl⟩ := hkey a ha
    obtain ⟨q, rfl⟩ := hkey b hb
    obtain ⟨r, rfl⟩ := hkey c hc
    rw [hlt, not_lt] at h1 h2 h3 h4
    rw [hlt, hlt, not_lt, not_lt]
    exact ⟨h3.trans h1, h2.trans h4⟩

/-- The triangles are drawn from far to near. -/
theorem sortTriangles_spec (triangles : List Triangle) :
    ∃ sorted, sortTriangles triangles = some sorted ∧ sorted.Perm triangles ∧ sorted.Pairwise fun t t' => t'.depth ≤ t.depth := by
  obtain ⟨items', s', hrun, hperm, hsorted⟩ := mpObjListSort_spec consts (some depthKey) objLess true (triangles.map Obj.tuple).toArray ()
    ((triangles.map Obj.tuple).toArray.size + 1) ((triangles.map Obj.tuple).toArray.size + 1) (Nat.lt_succ_self _)
    (Nat.lt_of_lt_of_le (Nat.lt_succ_self _) (Nat.le_of_lt Nat.lt_two_pow_self))
  have hback : (triangles.map Obj.tuple).filterMap Obj.triangle = triangles := by
    rw [List.filterMap_map]
    exact List.filterMap_some
  refine ⟨items'.toList.filterMap Obj.triangle, ?_, ?_, ?_⟩
  · simp only [sortTriangles, hrun]
    rfl
  · have hlist := hperm.toList.filterMap Obj.triangle
    rwa [List.toList_toArray, hback] at hlist
  · rw [List.pairwise_filterMap]
    refine (hsorted _ _ (depths_compare triangles)).imp fun {x y} hxy t ht t' ht' => ?_
    have hx : x = .tuple t := by
      cases x <;> simp_all [Obj.triangle]
    have hy : y = .tuple t' := by
      cases y <;> simp_all [Obj.triangle]
    subst hx hy
    by_contra hlt
    exact hxy ⟨t.depth, t'.depth, rfl, rfl, not_le.mp hlt⟩

/-- `prepare_triangles` returns the triangles of the faces it keeps, from far to near. -/
theorem prepareTriangles_spec (scene : Scene) (faces : List Face) : ∃ sorted : List (Option Triangle) → List Triangle,
    prepareTriangles math scene faces = (prepareFaces math scene faces).map (fun triangles => some (sorted triangles)) ∧
      ∀ triangles, (sorted triangles).Perm (triangles.filterMap id) ∧ (sorted triangles).Pairwise fun t t' => t'.depth ≤ t.depth := by
  choose sorted hsorted using fun triangles : List (Option Triangle) => sortTriangles_spec (triangles.filterMap id)
  refine ⟨sorted, ?_, fun triangles => (hsorted triangles).2⟩
  rw [prepareTriangles]
  cases prepareFaces math scene faces with
  | error e => rfl
  | ok triangles =>
    show Except.ok (sortTriangles (triangles.filterMap id)) = _
    rw [(hsorted triangles).1]
    rfl

/-- Matrices are applied in the order they are composed in, a face is kept whichever of its
vertices is first, and never with its reverse when culling is on. -/
theorem compose_and_cull (math : MathFns) :
    (∀ matrices : List Matrix4, (∀ m ∈ matrices, Affine m) → ∀ v, transform v (compose matrices) = matrices.foldl transform v) ∧
      (∀ scene faces (r : Face → Nat), (prepareFaces math scene (faces.map fun face => Face.rotate^[r face] face)).map (List.map Option.isSome) =
        (prepareFaces math scene faces).map (List.map Option.isSome)) ∧
      ∀ scene face, scene.cull = true →
        ¬ (kept (prepareFace math scene face) = .ok true ∧ kept (prepareFace math scene face.reversed) = .ok true) :=
  ⟨fun _ h v => transform_compose h v, prepareFaces_rotated math, fun _ face hcull => not_both math hcull face⟩

/-- A triangle that faces the camera. -/
def frontScene : Scene where
  vertices := [⟨0, 0, 2⟩, ⟨0, 1, 2⟩, ⟨1, 0, 2⟩]
  model := none
  position := ⟨0, 0, 0⟩
  focal := none
  center := none
  near := 1 / 10
  cull := true
  ambient := 7 / 25
  lightDir := ⟨-7 / 20, -9 / 20, -1⟩
  defaultColor := 0xffff

theorem compose_and_cull_front :
    transform ⟨1, 2, 3⟩ (compose [identity, identity]) = [identity, identity].foldl transform ⟨1, 2, 3⟩ ∧
      ¬ (kept (prepareFace ⟨id, 280⟩ frontScene ⟨0, 1, 2, none⟩) = .ok true ∧
        kept (prepareFace ⟨id, 280⟩ frontScene (Face.reversed ⟨0, 1, 2, none⟩)) = .ok true) :=
  ⟨(compose_and_cull ⟨id, 280⟩).1 [identity, identity] (by simp [identity_affine]) ⟨1, 2, 3⟩,
    (compose_and_cull ⟨id, 280⟩).2.2 frontScene ⟨0, 1, 2, none⟩ rfl⟩

end PythonUltra.Py3d
