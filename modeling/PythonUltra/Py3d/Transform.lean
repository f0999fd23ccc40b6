/-
  PythonUltra.Py3d.Transform — 4x4 matrices and what they do to a vertex
  (ports/sh/modules/py3d/__init__.py), with exact numbers.

  `compose` multiplies each matrix from the left, the opposite of the order of its
  arguments; a vertex goes through the product as through one matrix after the other
  (`transform_compose`).
-/

import Mathlib.Data.Rat.Defs
import Mathlib.Algebra.Order.Ring.Rat
import Mathlib.Tactic.Ring

namespace PythonUltra.Py3d

structure Vec3 where
  x : ℚ
  y : ℚ
  z : ℚ
  deriving DecidableEq

/-- A matrix, one row after the other. -/
abbrev Matrix4 := Vector ℚ 16

/-- `matrix[4 * row + col]` -/
def entry (m : Matrix4) (row col : Fin 4) : ℚ := m[4 * row.val + col.val]

def identity : Matrix4 := #v[1, 0, 0, 0, 0, 1, 0, 0, 0, 0, 1, 0, 0, 0, 0, 1]

def matmul4 (a b : Matrix4) : Matrix4 := Vector.ofFn fun i : Fin 16 =>
  let row : Fin 4 := ⟨i / 4, by omega⟩
  let col : Fin 4 := ⟨i % 4, by omega⟩
  entry a row 0 * entry b 0 col + entry a row 1 * entry b 1 col + entry a row 2 * entry b 2 col + entry a row 3 * entry b 3 col

def compose (matrices : List Matrix4) : Matrix4 := matrices.foldl (fun result matrix => matmul4 matrix result) identity

def transform (vertex : Vec3) (m : Matrix4) : Vec3 :=
  let ⟨x, y, z⟩ := vertex
  let tx := entry m 0 0 * x + entry m 0 1 * y + entry m 0 2 * z + entry m 0 3
  let ty := entry m 1 0 * x + entry m 1 1 * y + entry m 1 2 * z + entry m 1 3
  let tz := entry m 2 0 * x + entry m 2 1 * y + entry m 2 2 * z + entry m 2 3
  let tw := entry m 3 0 * x + entry m 3 1 * y + entry m 3 2 * z + entry m 3 3
  if tw ≠ 0 ∧ tw ≠ 1 then ⟨tx / tw, ty / tw, tz / tw⟩ else ⟨tx, ty, tz⟩

/-- The last row is 0, 0, 0, 1. -/
structure Affine (m : Matrix4) : Prop where
  x : entry m 3 0 = 0
  y : entry m 3 1 = 0
  z : entry m 3 2 = 0
  w : entry m 3 3 = 1

variable {a b m : Matrix4}

@[simp] theorem entry_matmul4 (a b : Matrix4) (row col : Fin 4) : entry (matmul4 a b) row col =
    entry a row 0 * entry b 0 col + entry a row 1 * entry b 1 col + entry a row 2 * entry b 2 col + entry a row 3 * entry b 3 col := by
  have hrow : (4 * row.val + col.val) / 4 = row.val := by omega
  have hcol : (4 * row.val + col.val) % 4 = col.val := by omega
  rw [entry, matmul4, Vector.getElem_ofFn]
  simp only [hrow, hcol]

theorem entry_identity : ∀ row col : Fin 4, entry identity row col = if row = col then 1 else 0 := by decide

theorem identity_affine : Affine identity := ⟨rfl, rfl, rfl, rfl⟩

theorem Affine.matmul4 (ha : Affine a) (hb : Affine b) : Affine (matmul4 a b) := by
  constructor <;> simp [ha.x, ha.y, ha.z, ha.w, hb.x, hb.y, hb.z, hb.w]

theorem transform_affine (hm : Affine m) (v : Vec3) : transform v m =
    ⟨entry m 0 0 * v.x + entry m 0 1 * v.y + entry m 0 2 * v.z + entry m 0 3, entry m 1 0 * v.x + entry m 1 1 * v.y + entry m 1 2 * v.z + entry m 1 3,
      entry m 2 0 * v.x + entry m 2 1 * v.y + entry m 2 2 * v.z + entry m 2 3⟩ := by
  simp [transform, hm.x, hm.y, hm.z, hm.w]

theorem transform_identity (v : Vec3) : transform v identity = v := by
  rw [transform_affine identity_affine]
  simp [entry_identity]

theorem transform_matmul4 (ha : Affine a) (hb : Affine b) (v : Vec3) : transform v (matmul4 a b) = transform (transform v b) a := by
  rw [transform_affine (ha.matmul4 hb), transform_affine hb, transform_affine ha]
  simp only [entry_matmul4, hb.x, hb.y, hb.z, hb.w, Vec3.mk.injEq]
  refine ⟨?_, ?_, ?_⟩ <;> ring

/-- The order of the matrices is the order they are applied in. -/
theorem transform_compose {matrices : List Matrix4} (h : ∀ m ∈ matrices, Affine m) (v : Vec3) :
    transform v (compose matrices) = matrices.foldl transform v := by
  have hfold : ∀ (rest : List Matrix4) (result : Matrix4), (∀ m ∈ rest, Affine m) → Affine result →
      transform v (rest.foldl (fun result matrix => matmul4 matrix result) result) = rest.foldl transform (transform v result) := by
    intro rest
    induction rest with
    | nil => exact fun _ _ _ => rfl
    | cons m rest ih =>
      intro result haffine hresult
      have hm := haffine m List.mem_cons_self
      rw [List.foldl_cons, List.foldl_cons, ← transform_matmul4 hm hresult]
      exact ih _ (fun m' hm' => haffine m' (List.mem_cons_of_mem _ hm')) (hm.matmul4 hresult)
  rw [compose, hfold matrices identity h identity_affine, transform_identity]

end PythonUltra.Py3d
