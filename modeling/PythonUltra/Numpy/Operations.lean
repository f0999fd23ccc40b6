/-
  PythonUltra.Numpy.Operations — what makes arrays and matrices (ports/sh/modules/numpy/__init__.py).

  What the elements can do is a parameter (`Nums`, and `Reals` where floats come in). A matrix is
  an array of the class matrix; a method of that class is named after it.
-/

import PythonUltra.Numpy.Array

namespace PythonUltra.Numpy

variable {α δ : Type}

/-- The elements' own operations. -/
structure Nums (α δ : Type) where
  ofInt : Int → α
  add : α → α → Except Exc α
  sub : α → α → Except Exc α
  mul : α → α → Except Exc α
  neg : α → Except Exc α
  lt : α → α → Except Exc Bool
  eq : α → α → Bool
  /-- `dtype(value)` -/
  convert : δ → α → Except Exc α

/-- Elements that may be floats. -/
structure Reals (α δ : Type) extends Nums α δ where
  /-- a float literal -/
  real : Int → α
  truediv : α → α → Except Exc α
  float : δ

namespace Nums

/-- `dtype(value)`, where the dtype may be None. -/
def call (P : Nums α δ) (dtype : Option δ) (value : α) : Except Exc α :=
  match dtype with
  | some dtype => P.convert dtype value
  | none => .error (.typeError "'NoneType' object isn't callable")

/-- `abs` of a number -/
def abs (P : Nums α δ) (value : α) : Except Exc α := do
  if ← P.lt value (P.ofInt 0) then P.neg value else pure value

end Nums

/-- `data[i] = value` of a list. -/
def store (data : List α) (i : Int) (value : α) : Except Exc (List α) :=
  let i := if i < 0 then i + data.length else i
  if i < 0 ∨ i ≥ data.length then .error (.indexError "list index out of range") else .ok (data.set i.toNat value)

namespace Ndarray

/-! ## Constructors -/

/-- `ndarray(values)` of a list of elements. -/
def ofList (values : List α) (dtype : Option δ) : Except Exc (Ndarray α δ) := new (.list (values.map .leaf)) none dtype

def zeros (P : Nums α δ) (shape : List Int) (dtype : Option δ) : Except Exc (Ndarray α δ) := do
  let zero ← P.call dtype (P.ofInt 0)
  flat (List.replicate (product shape).toNat zero) shape dtype

def ones (P : Nums α δ) (shape : List Int) (dtype : Option δ) : Except Exc (Ndarray α δ) := do
  let one ← P.call dtype (P.ofInt 1)
  flat (List.replicate (product shape).toNat one) shape dtype

def full (P : Nums α δ) (shape : List Int) (value : α) (dtype : Option δ) : Except Exc (Ndarray α δ) := do
  let value ← if dtype.isSome then P.call dtype value else pure value
  flat (List.replicate (product shape).toNat value) shape dtype

def identity (P : Nums α δ) (n : Int) (dtype : Option δ) : Except Exc (Ndarray α δ) := do
  let zero ← P.call dtype (P.ofInt 0)
  let values ← (List.range n.toNat).foldlM (fun values (index : Nat) => do
    let one ← P.call dtype (P.ofInt 1)
    store values (index * n + index) one) (List.replicate (n * n).toNat zero)
  flat values [n, n] dtype

def eye (P : Nums α δ) (n : Int) (m : Option Int) (k : Int) (dtype : Option δ) : Except Exc (Ndarray α δ) := do
  let m := m.getD n
  let zero ← P.call dtype (P.ofInt 0)
  let values ← (List.range n.toNat).foldlM (fun values (row : Nat) => do
    let col := row + k
    if 0 ≤ col ∧ col < m then
      let one ← P.call dtype (P.ofInt 1)
      store values (row * m + col) one
    else pure values) (List.replicate (n * m).toNat zero)
  flat values [n, m] dtype

/-- The loop of `arange`, as far as the fuel goes. none: it goes on. -/
def arangeLoop (P : Nums α δ) (goes : α → Except Exc Bool) (step : α) (dtype : Option δ) :
    Nat → α → List α → Except Exc (Option (List α))
  | 0, _, _ => pure none
  | fuel + 1, current, values => do
    if ← goes current then
      let value ← if dtype.isSome then P.call dtype current else pure current
      let next ← P.add current step
      arangeLoop P goes step dtype fuel next (values ++ [value])
    else pure (some values)

/-- `arange(start, stop, step, dtype)` -/
def arange (P : Nums α δ) (fuel : Nat) (start stop step : α) (dtype : Option δ) : Except Exc (Option (Ndarray α δ)) := do
  if P.eq step (P.ofInt 0) then .error (.valueError "step must not be zero")
  else
    let up ← P.lt (P.ofInt 0) step
    let values ← arangeLoop P (fun current => if up then P.lt current stop else P.lt stop current) step dtype fuel start []
    match values with
    | some values => do
      let result ← ofList values dtype
      pure (some result)
    | none => pure none

def linspace (P : Reals α δ) (start stop : α) (num : Int) : Except Exc (Ndarray α δ) := do
  if num ≤ 0 then ofList [] none
  else if num = 1 then
    let start ← P.convert P.float start
    ofList [start] none
  else
    let length ← P.sub stop start
    let step ← P.truediv length (P.ofInt (num - 1))
    let values ← (List.range num.toNat).mapM fun (index : Nat) => do
      let offset ← P.mul step (P.ofInt index)
      P.add start offset
    ofList values none

/-- `asarray`: an array is the same, if the dtype is. -/
def asarray [DecidableEq δ] (value : Value α δ) (dtype : Option δ) : Except Exc (Ndarray α δ) :=
  match value with
  | .array a => if dtype = none ∨ dtype = a.dtype then .ok a else new (.array a) none dtype
  | value => new value none dtype

/-- A shape as a matrix has it. -/
def matrixShape (shape : List Int) : Except Exc (List Int) :=
  match shape with
  | [n] => .ok [1, n]
  | [rows, cols] => .ok [rows, cols]
  | _ => .error (.valueError "matrix must be 2-dimensional")

/-- `matrix(data, dtype, True, shape, True)` -/
def matrixFlat (data : List α) (dtype : Option δ) (shape : List Int) : Except Exc (Ndarray α δ) := do
  let shape ← matrixShape shape
  init data shape dtype true

/-- `matrix(value, dtype)` of an array. -/
def matrixOf (value : Ndarray α δ) (dtype : Option δ) : Except Exc (Ndarray α δ) := do
  let shape ← if value.shape = [] then pure [1, 1] else matrixShape value.shape
  init value.data shape (dtype.or value.dtype) true

/-- `list(value)` -/
def items : Value α δ → List (Value α δ)
  | .list items => items
  | .tuple items => items
  | value => [value]

/-- `matrix(value, dtype)` -/
def matrix (value : Value α δ) (dtype : Option δ) : Except Exc (Ndarray α δ) :=
  match value with
  | .array a => matrixOf a dtype
  | value => do
    let inferred ← inferShape value
    let value ← match inferred with
      | [] => pure (.list [.list [value]])
      | [_] => pure (.list [.list (items value)])
      | [_, _] => pure value
      | _ => .error (.valueError "matrix must be 2-dimensional")
    let inferred ← inferShape value
    init (flatten value) inferred dtype true

/-! ## Shapes -/

/-- `copy` -/
def copy (a : Ndarray α δ) : Except Exc (Ndarray α δ) :=
  if a.isMatrix then matrixFlat a.data a.dtype a.shape else flat a.data a.shape a.dtype

/-- `flatten` -/
def flattened (a : Ndarray α δ) : Except Exc (Ndarray α δ) :=
  if a.isMatrix then matrixFlat a.data a.dtype [1, a.size] else flat a.data [a.size] a.dtype

/-- `A` -/
def toArray (a : Ndarray α δ) : Except Exc (Ndarray α δ) := flat a.data a.shape a.dtype

/-- `A1` -/
def toArray1 (a : Ndarray α δ) : Except Exc (Ndarray α δ) := flat a.data [a.size] a.dtype

/-- A turn of the loop of `reshape` over the dimensions. -/
def knownTurn (state : Option Nat × Int) (dim : Int × Nat) : Except Exc (Option Nat × Int) :=
  if dim.1 = -1 then
    if state.1.isSome then .error (.valueError "only one unknown dimension is allowed") else .ok (some dim.2, state.2)
  else .ok (state.1, state.2 * dim.1)

/-- The shape with its unknown dimension. -/
def resolveShape (size : Int) (shape : List Int) : Except Exc (List Int) := do
  let (missing, known) ← shape.zipIdx.foldlM knownTurn (none, 1)
  match missing with
  | some index =>
    if known = 0 ∨ size.fmod known ≠ 0 then .error (.valueError "cannot infer reshape dimension")
    else pure (shape.set index (size.fdiv known))
  | none => pure shape

/-- The shape that a matrix is given. -/
def matrixDims (shape : List Int) : Except Exc (List Int) :=
  match shape with
  | [n] => .ok [1, n]
  | [rows, cols] => .ok [rows, cols]
  | _ => .error (.valueError "matrix must remain 2-dimensional")

/-- `ndarray.reshape` -/
def reshapeArray (a : Ndarray α δ) (shape : List Int) : Except Exc (Ndarray α δ) := do
  let shape ← resolveShape a.size shape
  if product shape ≠ a.size then .error (.valueError "cannot reshape array") else flat a.data shape a.dtype

/-- `reshape` -/
def reshape (a : Ndarray α δ) (shape : List Int) : Except Exc (Ndarray α δ) :=
  if a.isMatrix then do
    let shape ← matrixDims shape
    let result ← a.reshapeArray shape
    matrixOf result none
  else a.reshapeArray shape

/-- The elements column by column. -/
def columns (data : List α) (rows cols : Int) : Except Exc (List α) := do
  let output ← (List.range cols.toNat).mapM fun (col : Nat) => (List.range rows.toNat).mapM fun (row : Nat) => item data (row * cols + col)
  pure output.flatten

/-- What unpacking a shape that is not of two axes raises. -/
def unpackError : Exc := .valueError "requested length 2"

/-- `matrix.transpose`, which is T and H of a matrix. -/
def matrixTranspose (a : Ndarray α δ) : Except Exc (Ndarray α δ) :=
  match a.shape with
  | [rows, cols] => do
    let output ← columns a.data rows cols
    matrixFlat output a.dtype [cols, rows]
  | _ => .error unpackError

/-- `transpose`, which is T of an array. -/
def transpose (a : Ndarray α δ) : Except Exc (Ndarray α δ) :=
  match a.shape with
  | [] => a.copy
  | [_] => a.copy
  | [rows, cols] => do
    let output ← columns a.data rows cols
    let result ← flat output [cols, rows] a.dtype
    if a.isMatrix then matrixOf result none else pure result
  | _ => .error (.notImplementedError "transpose currently supports 1-D and 2-D arrays")

/-- `__iter__` of an array of more than one axis. -/
def rows (a : Ndarray α δ) : Except Exc (List (Ndarray α δ)) :=
  let stride := product a.shape.tail
  (List.range (a.shape.headD 0).toNat).mapM fun (index : Nat) =>
    let start := index * stride
    flat (slice a.data start (start + stride)) a.shape.tail a.dtype

/-! ## Slices -/

structure Slice where
  start : Option Int
  stop : Option Int
  step : Option Int
  deriving DecidableEq

namespace Slice

/-- A bound of a slice that goes up or down. -/
def bound (length : Nat) (step i : Int) : Int :=
  let i := if i < 0 then i + length else i
  if step < 0 then max (-1) (min i (length - 1)) else max 0 (min i length)

/-- The indices of a slice. -/
def indices (s : Slice) (length : Nat) : List Nat :=
  let step := s.step.getD 1
  let first := (s.start.map (bound length step)).getD (if step < 0 then length - 1 else 0)
  let last := (s.stop.map (bound length step)).getD (if step < 0 then -1 else length)
  let count := if step < 0 then (first - last - step - 1) / -step else (last - first + step - 1) / step
  (List.range count.toNat).map fun (k : Nat) => (first + k * step).toNat

end Slice

/-- `a[start:stop:step]` -/
def getSlice (a : Ndarray α δ) (s : Slice) : Except Exc (Ndarray α δ) :=
  if a.ndim ≠ 1 then .error (.typeError "slicing is supported for 1-D arrays")
  else if s.step = some 0 then .error (.valueError "slice step can't be zero")
  else ofList ((s.indices a.data.length).filterMap fun i => a.data[i]?) a.dtype

/-- `a[start:stop:step] = replacement`; of lists only slices of step 1 are assigned. -/
def setSlice (a : Ndarray α δ) (s : Slice) (replacement : List α) : Except Exc (Ndarray α δ) :=
  if a.ndim ≠ 1 then .error (.typeError "slicing is supported for 1-D arrays")
  else if s.step.getD 1 ≠ 1 then .error (.notImplementedError "")
  else
    let first := (s.start.map (Slice.bound a.data.length 1)).getD 0
    let last := max first ((s.stop.map (Slice.bound a.data.length 1)).getD a.data.length)
    let data := a.data.take first.toNat ++ replacement ++ a.data.drop last.toNat
    .ok { a with data := data, shape := [(data.length : Int)], fits := by rw [product, List.foldl_cons, List.foldl_nil, Int.one_mul] }

/-! ## Arithmetic -/

inductive Operand (α δ : Type) where
  | scalar (value : α)
  | array (a : Ndarray α δ)

/-- `matrix(result)` of a result of a matrix. -/
def asMatrix (a result : Ndarray α δ) : Except Exc (Ndarray α δ) := if a.isMatrix then matrixOf result none else pure result

/-- `_binary` -/
def binary (a : Ndarray α δ) (other : Operand α δ) (operation : α → α → Except Exc α) : Except Exc (Ndarray α δ) := do
  let values ← match other with
    | .array b =>
      if a.shape ≠ b.shape then .error (.valueError "array shapes must match")
      else (a.data.zip b.data).mapM fun (x, y) => operation x y
    | .scalar b => a.data.mapM fun x => operation x b
  let result ← flat values a.shape a.dtype
  a.asMatrix result

/-- `__rsub__`: of a matrix the result is one. -/
def rsub (P : Nums α δ) (a : Ndarray α δ) (other : α) : Except Exc (Ndarray α δ) := do
  let values ← a.data.mapM fun value => P.sub other value
  if a.isMatrix then matrixFlat values a.dtype a.shape else flat values a.shape a.dtype

/-- `__rtruediv__` -/
def rtruediv (P : Reals α δ) (a : Ndarray α δ) (other : α) : Except Exc (Ndarray α δ) := do
  let values ← a.data.mapM fun value => P.truediv other value
  flat values a.shape a.dtype

/-- `__neg__` -/
def neg (P : Nums α δ) (a : Ndarray α δ) : Except Exc (Ndarray α δ) := do
  let values ← a.data.mapM P.neg
  flat values a.shape a.dtype

/-- `astype` -/
def astype (P : Nums α δ) (a : Ndarray α δ) (converter : δ) : Except Exc (Ndarray α δ) := do
  let values ← a.data.mapM (P.convert converter)
  flat values a.shape (some converter)

/-- `_unary` -/
def unary (a : Ndarray α δ) (function : α → Except Exc α) : Except Exc (Ndarray α δ) := do
  let values ← a.data.mapM function
  let result ← flat values a.shape a.dtype
  a.asMatrix result

/-- `concatenate` -/
def concatenate [DecidableEq δ] (values : List (Value α δ)) : Except Exc (Ndarray α δ) := do
  let parts ← values.mapM fun value => do
    let a ← asarray value none
    let a ← a.flattened
    pure a.data
  ofList parts.flatten none

/-! ## Products -/

/-- The sum of the products, a turn for each index. -/
def total (P : Nums α δ) (length : Int) (a b : Int → Except Exc α) : Except Exc α :=
  (List.range length.toNat).foldlM (fun total (index : Nat) => do
    let x ← a index
    let y ← b index
    let product ← P.mul x y
    P.add total product) (P.ofInt 0)

/-- A result that is a matrix if an operand is. -/
def orMatrix (isMatrix : Bool) (output : Ndarray α δ) : Except Exc (Item α δ) := do
  let output ← if isMatrix then matrixOf output none else pure output
  pure (.array output)

/-- `matmul` -/
def matmul (P : Nums α δ) (a b : Ndarray α δ) : Except Exc (Item α δ) :=
  match a.shape, b.shape with
  | [_], [_] =>
    if a.size ≠ b.size then .error (.valueError "vectors must have the same length")
    else do
      let total ← total P a.size (item a.data) (item b.data)
      pure (.element total)
  | [rows, cols], [_] =>
    if cols ≠ b.size then .error (.valueError "shapes are not aligned")
    else do
      let result ← (List.range rows.toNat).mapM fun (row : Nat) => total P cols (fun col => item a.data (row * cols + col)) (item b.data)
      let output ← ofList result none
      orMatrix a.isMatrix output
  | [_], [rows, cols] =>
    if a.size ≠ rows then .error (.valueError "shapes are not aligned")
    else do
      let result ← (List.range cols.toNat).mapM fun (col : Nat) => total P rows (item a.data) (fun row => item b.data (row * cols + col))
      let output ← ofList result none
      orMatrix b.isMatrix output
  | [aRows, aCols], [bRows, bCols] =>
    if aCols ≠ bRows then .error (.valueError "shapes are not aligned")
    else do
      let result ← (List.range aRows.toNat).mapM fun (row : Nat) => (List.range bCols.toNat).mapM fun (col : Nat) =>
        total P aCols (fun index => item a.data (row * aCols + index)) (fun index => item b.data (index * bCols + col))
      let output ← flat result.flatten [aRows, bCols] none
      orMatrix (a.isMatrix || b.isMatrix) output
  | _, _ => .error (.notImplementedError "matmul currently supports 1-D and 2-D arrays")

/-- `matrix(result)`, if it is an array. -/
def matrixResult : Item α δ → Except Exc (Item α δ)
  | .element value => .ok (.element value)
  | .array result => (matrixOf result none).map .array

/-- `matrix.__matmul__`, and `matrix.__mul__` with an array. -/
def matrixMatmul (P : Nums α δ) (a b : Ndarray α δ) : Except Exc (Item α δ) := do
  let result ← matmul P a b
  matrixResult result

/-- `__mul__` -/
def mul (P : Nums α δ) (a : Ndarray α δ) (other : Operand α δ) : Except Exc (Item α δ) :=
  match other with
  | .array b => if a.isMatrix then matrixMatmul P a b else (a.binary (.array b) P.mul).map .array
  | .scalar b => (a.binary (.scalar b) P.mul).map .array

/-- `__rmul__` with a scalar. -/
def rmul (P : Nums α δ) (a : Ndarray α δ) (other : α) : Except Exc (Ndarray α δ) :=
  if a.isMatrix then a.binary (.scalar other) fun x y => P.mul y x else a.binary (.scalar other) P.mul

/-- The result of a product of two matrices. -/
def matrixTimes (P : Nums α δ) (a b : Ndarray α δ) : Except Exc (Ndarray α δ) := do
  match ← a.mul P (.array b) with
  | .array result => pure result
  | .element _ => .error (.typeError "unsupported types for __mul__")

/-- `if condition: a = a * b` -/
def timesIf (P : Nums α δ) (condition : Bool) (a b : Ndarray α δ) : Except Exc (Ndarray α δ) :=
  if condition then matrixTimes P a b else pure a

/-- The loop of `__pow__`. -/
def powLoop (P : Nums α δ) (result base : Ndarray α δ) (exponent : Nat) : Except Exc (Ndarray α δ) :=
  if exponent = 0 then pure result
  else do
    let result ← timesIf P (exponent &&& 1 ≠ 0) result base
    let base ← timesIf P (exponent >>> 1 ≠ 0) base base
    powLoop P result base (exponent >>> 1)
termination_by exponent
decreasing_by
  rw [Nat.shiftRight_one]
  omega

/-- `dot` of arrays -/
def dot (P : Nums α δ) (a b : Ndarray α δ) : Except Exc (Item α δ) :=
  if a.ndim = 1 ∧ b.ndim = 1 then
    if a.size ≠ b.size then .error (.valueError "vectors must have the same length")
    else do
      let total ← total P a.size (item a.data) (item b.data)
      pure (.element total)
  else matmul P a b

/-! ## The inverse -/

/-- `work[row][col]` -/
def cell (work : List (List α)) (row col : Nat) : Except Exc α :=
  match work[row]?.bind (·[col]?) with
  | some value => .ok value
  | none => .error (.indexError "list index out of range")

/-- `work[row][col] = value` -/
def setCell (work : List (List α)) (row col : Nat) (value : α) : List (List α) := work.modify row (·.set col value)

/-- Every column of a row anew, one after the other. -/
def setRow (work : List (List α)) (row width : Nat) (value : List (List α) → Nat → Except Exc α) : Except Exc (List (List α)) :=
  (List.range width).foldlM (fun work col => do
    let value ← value work col
    pure (setCell work row col value)) work

/-- A turn of the search for the pivot: the best row so far with its size. -/
def candidateTurn (P : Nums α δ) (work : List (List α)) (col : Nat) (best : Nat × α) (candidate : Nat) : Except Exc (Nat × α) := do
  let value ← cell work candidate col
  let candidateSize ← P.abs value
  let larger ← P.lt best.2 candidateSize
  pure (if larger then (candidate, candidateSize) else best)

def findPivot (P : Nums α δ) (n : Nat) (work : List (List α)) (col : Nat) : Except Exc (Nat × α) := do
  let value ← cell work col col
  let size ← P.abs value
  (List.range' (col + 1) (n - (col + 1))).foldlM (candidateTurn P work col) (col, size)

/-- `work[i], work[j] = work[j], work[i]` -/
def swapRows (work : List (List α)) (i j : Nat) : List (List α) := (work.set i (work.getD j [])).set j (work.getD i [])

/-- The pivot's row divided by the pivot. -/
def divideRow (P : Reals α δ) (n : Nat) (work : List (List α)) (pivotCol : Nat) (pivot : α) : Except Exc (List (List α)) :=
  setRow work pivotCol (n * 2) fun work col => do
    let value ← cell work pivotCol col
    P.truediv value pivot

/-- A turn of the loop that clears the pivot's column. -/
def clearTurn (P : Nums α δ) (n pivotCol : Nat) (work : List (List α)) (row : Nat) : Except Exc (List (List α)) :=
  if row = pivotCol then pure work
  else do
    let factor ← cell work row pivotCol
    if P.eq factor (P.ofInt 0) then pure work
    else setRow work row (n * 2) fun work col => do
      let value ← cell work row col
      let pivotValue ← cell work pivotCol col
      let product ← P.mul factor pivotValue
      P.sub value product

/-- A turn of the loop over the pivots. -/
def pivotTurn (P : Reals α δ) (n : Nat) (work : List (List α)) (pivotCol : Nat) : Except Exc (List (List α)) := do
  let (pivotRow, pivotSize) ← findPivot P.toNums n work pivotCol
  if P.eq pivotSize (P.ofInt 0) then .error (.valueError "singular matrix")
  else
    let work := if pivotRow ≠ pivotCol then swapRows work pivotCol pivotRow else work
    let pivot ← cell work pivotCol pivotCol
    let work ← divideRow P n work pivotCol pivot
    (List.range n).foldlM (clearTurn P.toNums n pivotCol) work

/-- `I` -/
def inverse (P : Reals α δ) (a : Ndarray α δ) : Except Exc (Ndarray α δ) :=
  match a.shape with
  | [rows, cols] =>
    if rows ≠ cols then .error (.valueError "inverse requires a square matrix")
    else do
      let n := rows.toNat
      let work ← (List.range n).mapM fun (row : Nat) => do
        let values ← (List.range n).mapM fun (col : Nat) => do
          let value ← item a.data (row * rows + col)
          P.convert P.float value
        pure (values ++ (List.range n).map fun col => if row = col then P.real 1 else P.real 0)
      let work ← (List.range n).foldlM (pivotTurn P n) work
      matrixFlat ((List.range n).flatMap fun row => (work.getD row []).drop n) (some P.float) [rows, rows]
  | _ => .error unpackError

/-- `__pow__` of a square matrix to an exponent that is not negative. -/
def powNat (P : Nums α δ) (a : Ndarray α δ) (exponent : Nat) : Except Exc (Ndarray α δ) := do
  let one ← identity P (a.shape.headD 0) a.dtype
  let result ← matrixOf one none
  let base ← a.copy
  powLoop P result base exponent

/-- `__pow__` -/
def pow (P : Reals α δ) (a : Ndarray α δ) (exponent : Int) : Except Exc (Ndarray α δ) :=
  if a.shape.headD 0 ≠ a.shape.getD 1 0 then .error (.valueError "matrix power requires a square matrix")
  else if exponent = -1 then inverse P a
  else if exponent < 0 then do
    let b ← inverse P a
    powNat P.toNums b (-exponent).toNat
  else powNat P.toNums a exponent.toNat

end Ndarray

end PythonUltra.Numpy
