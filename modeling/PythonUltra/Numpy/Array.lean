/-
  PythonUltra.Numpy.Array — the ndarray of numpy (ports/sh/modules/numpy/__init__.py).

  An array is a list of elements with a shape. The elements are of any type, but none is a
  list, a tuple or an array; a dtype has a name, and what it makes of an element is the
  numbers' (`Nums.convert`). That the shape fits the elements is what `ndarray.__init__`
  checks last, so an array carries it (`fits`).
-/

import Mathlib.Algebra.Group.Int.Defs

namespace PythonUltra.Numpy

inductive Exc where
  | valueError (msg : String)
  | indexError (msg : String)
  | typeError (msg : String)
  | zeroDivisionError
  | notImplementedError (msg : String)
  deriving DecidableEq, Repr

/-- `_product` -/
def product (shape : List Int) : Int := shape.foldl (fun total value => total * value) 1

structure Ndarray (α δ : Type) where
  data : List α
  shape : List Int
  dtype : Option δ
  isMatrix : Bool
  fits : product shape = data.length

variable {α δ : Type}

/-- What an array is made of. -/
inductive Value (α δ : Type) where
  | leaf (a : α)
  | list (items : List (Value α δ))
  | tuple (items : List (Value α δ))
  | array (a : Ndarray α δ)

/-! ## Shapes -/

mutual

/-- `_infer_shape` -/
def inferShape : Value α δ → Except Exc (List Int)
  | .array a => .ok a.shape
  | .leaf _ => .ok []
  | .list items => inferItems items
  | .tuple items => inferItems items

def inferItems : List (Value α δ) → Except Exc (List Int)
  | [] => .ok [0]
  | value :: items => do
    let child ← inferShape value
    inferSame child items
    pure ((items.length + 1 : Int) :: child)

def inferSame (child : List Int) : List (Value α δ) → Except Exc Unit
  | [] => pure ()
  | item :: items => do
    let shape ← inferShape item
    if shape ≠ child then .error (.valueError "ragged arrays are not supported") else inferSame child items

end

mutual

/-- `_flatten` -/
def flatten : Value α δ → List α
  | .array a => a.data
  | .leaf a => [a]
  | .list items => flattenItems items
  | .tuple items => flattenItems items

def flattenItems : List (Value α δ) → List α
  | [] => []
  | item :: items => flatten item ++ flattenItems items

end

/-- A bound of a slice. -/
def clamp (length : Nat) (i : Int) : Nat := if i < 0 then (i + length).toNat else min i.toNat length

/-- `data[start:stop]` -/
def slice (data : List α) (start stop : Int) : List α := (data.take (clamp data.length stop)).drop (clamp data.length start)

/-- `data[i]` of a list. -/
def item (data : List α) (i : Int) : Except Exc α :=
  let i := if i < 0 then i + data.length else i
  if i < 0 then .error (.indexError "list index out of range")
  else match data[i.toNat]? with
    | some a => .ok a
    | none => .error (.indexError "list index out of range")

/-- `_unflatten` -/
def unflatten (data : List α) : List Int → Int → Except Exc (Value α δ × Int)
  | [], offset => do
    let a ← item data offset
    pure (.leaf a, offset + 1)
  | [n], offset =>
    let stop := offset + n
    .ok (.list ((slice data offset stop).map .leaf), stop)
  | n :: dim :: shape, offset => do
    let (result, offset) ← (List.range n.toNat).foldlM (fun (result, offset) _ => do
      let (item, offset) ← unflatten data (dim :: shape) offset
      pure (result ++ [item], offset)) ([], offset)
    pure (.list result, offset)

/-! ## Arrays -/

namespace Ndarray

/-- The end of `ndarray.__init__`. -/
def init (data : List α) (shape : List Int) (dtype : Option δ) (isMatrix : Bool) : Except Exc (Ndarray α δ) :=
  if fits : product shape = data.length then .ok ⟨data, shape, dtype, isMatrix, fits⟩
  else .error (.valueError "array size does not match shape")

/-- `ndarray(value, shape, dtype, True)` -/
def flat (data : List α) (shape : List Int) (dtype : Option δ) : Except Exc (Ndarray α δ) := init data shape dtype false

/-- `ndarray(value, shape, dtype)` -/
def new (value : Value α δ) (shape : Option (List Int)) (dtype : Option δ) : Except Exc (Ndarray α δ) :=
  match value with
  | .array a => init a.data (shape.getD a.shape) (dtype.or a.dtype) false
  | value => do
    let inferred ← inferShape value
    init (flatten value) (shape.getD inferred) dtype false

/-- `array(value, dtype)` -/
def array (value : Value α δ) (dtype : Option δ) : Except Exc (Ndarray α δ) := new value none dtype

def size (a : Ndarray α δ) : Int := a.data.length

def ndim (a : Ndarray α δ) : Nat := a.shape.length

/-- The loop of `_flat_index`. -/
def flatLoop : List (Int × Int) → Int → Int → Except Exc Int
  | [], _, offset => .ok offset
  | (dim, item) :: axes, stride, offset =>
    if dim = 0 then .error .zeroDivisionError
    else
      let stride := stride.fdiv dim
      let item := if item < 0 then item + dim else item
      if item < 0 ∨ item ≥ dim then .error (.indexError "array index out of range")
      else flatLoop axes stride (offset + item * stride)

/-- `_flat_index` -/
def flatIndex (a : Ndarray α δ) (index : List Int) : Except Exc Int :=
  if index.length ≠ a.ndim then .error (.indexError "incorrect number of indices") else flatLoop (a.shape.zip index) a.size 0

/-- `a[i0, ..., ik]` -/
def getItem (a : Ndarray α δ) (index : List Int) : Except Exc α := do
  let offset ← a.flatIndex index
  item a.data offset

/-- `a[i]` of an array of more than one axis. -/
def row (a : Ndarray α δ) (index : Int) : Except Exc (Ndarray α δ) :=
  let dim := a.shape.headD 0
  let index := if index < 0 then index + dim else index
  if index < 0 ∨ index ≥ dim then .error (.indexError "array index out of range")
  else
    let stride := product a.shape.tail
    let start := index * stride
    flat (slice a.data start (start + stride)) a.shape.tail a.dtype

/-- What an index gives. -/
inductive Item (α δ : Type) where
  | element (a : α)
  | array (a : Ndarray α δ)

/-- `a[i]` -/
def getInt (a : Ndarray α δ) (index : Int) : Except Exc (Item α δ) :=
  if a.ndim ≤ 1 then (a.getItem [index]).map .element else (a.row index).map .array

/-- `a[i0][i1]...[ik]` -/
def chain : Item α δ → List Int → Except Exc (Item α δ)
  | result, [] => .ok result
  | .element _, _ :: _ => .error (.typeError "object isn't subscriptable")
  | .array a, i :: index => do
    let result ← a.getInt i
    chain result index

/-- `a[i0, ..., ik] = value` -/
def setItem (a : Ndarray α δ) (index : List Int) (value : α) : Except Exc (Ndarray α δ) := do
  let offset ← a.flatIndex index
  if h : 0 ≤ offset ∧ offset < a.data.length then
    pure { a with data := a.data.set offset.toNat value, fits := by rw [List.length_set]; exact a.fits }
  else .error (.indexError "list index out of range")

/-- `tolist` -/
def tolist (a : Ndarray α δ) : Except Exc (Value α δ) := do
  let (result, _) ← unflatten a.data a.shape 0
  pure result

end Ndarray

end PythonUltra.Numpy
