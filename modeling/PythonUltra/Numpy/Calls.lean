/-
  PythonUltra.Numpy.Calls — a program that calls the module, one call after the other
  (ports/sh/modules/numpy/__init__.py).

  A call takes arrays that the program has and makes new ones, or assigns to one in place. A
  call that raises makes nothing.
-/

import PythonUltra.Numpy.Operations

namespace PythonUltra.Numpy

variable {α δ : Type}

mutual

/-- The arrays in a value. -/
def Value.arrays : Value α δ → List (Ndarray α δ)
  | .leaf _ => []
  | .list items => arraysOf items
  | .tuple items => arraysOf items
  | .array a => [a]

def arraysOf : List (Value α δ) → List (Ndarray α δ)
  | [] => []
  | item :: items => item.arrays ++ arraysOf items

end

namespace Ndarray

def Operand.arrays : Operand α δ → List (Ndarray α δ)
  | .scalar _ => []
  | .array a => [a]

def Item.arrays : Item α δ → List (Ndarray α δ)
  | .element _ => []
  | .array a => [a]

end Ndarray

open Ndarray

/-- A call that makes arrays. `array` is ndarray without a shape, `mat` and `asmatrix` are
matrix; the operators that are `_binary` with a function are binary, and `sqrt`, `sin`, `cos`,
`tan` and `abs` are unary. A function that takes a list for an array makes the array first. -/
inductive Op (α δ : Type) where
  | ndarray (value : Value α δ) (shape : Option (List Int)) (dtype : Option δ)
  | asarray (value : Value α δ) (dtype : Option δ)
  | matrix (value : Value α δ) (dtype : Option δ)
  | zeros (shape : List Int) (dtype : Option δ)
  | ones (shape : List Int) (dtype : Option δ)
  | full (shape : List Int) (value : α) (dtype : Option δ)
  | identity (n : Int) (dtype : Option δ)
  | eye (n : Int) (m : Option Int) (k : Int) (dtype : Option δ)
  | arange (fuel : Nat) (start stop step : α) (dtype : Option δ)
  | linspace (start stop : α) (num : Int)
  | copy (a : Ndarray α δ)
  | flatten (a : Ndarray α δ)
  | toArray (a : Ndarray α δ)
  | toArray1 (a : Ndarray α δ)
  | iter (a : Ndarray α δ)
  | getInt (a : Ndarray α δ) (index : Int)
  | getSlice (a : Ndarray α δ) (s : Slice)
  | reshape (a : Ndarray α δ) (shape : List Int)
  | transpose (a : Ndarray α δ)
  | matrixTranspose (a : Ndarray α δ)
  | binary (a : Ndarray α δ) (other : Operand α δ) (operation : α → α → Except Exc α)
  | rsub (a : Ndarray α δ) (other : α)
  | rtruediv (a : Ndarray α δ) (other : α)
  | neg (a : Ndarray α δ)
  | astype (a : Ndarray α δ) (converter : δ)
  | unary (a : Ndarray α δ) (function : α → Except Exc α)
  | mul (a : Ndarray α δ) (other : Operand α δ)
  | rmul (a : Ndarray α δ) (other : α)
  | concatenate (values : List (Value α δ))
  | matmul (a b : Ndarray α δ)
  | matrixMatmul (a b : Ndarray α δ)
  | dot (a b : Ndarray α δ)
  | inverse (a : Ndarray α δ)
  | pow (a : Ndarray α δ) (exponent : Int)

namespace Op

/-- The arrays that the call takes. -/
def operands : Op α δ → List (Ndarray α δ)
  | ndarray value _ _ | asarray value _ | matrix value _ => value.arrays
  | zeros _ _ | ones _ _ | full _ _ _ | identity _ _ | eye _ _ _ _ | arange _ _ _ _ _ | linspace _ _ _ => []
  | copy a | flatten a | toArray a | toArray1 a | iter a | getInt a _ | getSlice a _ | reshape a _ => [a]
  | transpose a | matrixTranspose a | rsub a _ | rtruediv a _ | neg a | astype a _ | unary a _ | rmul a _ | inverse a | pow a _ => [a]
  | binary a other _ | mul a other => a :: other.arrays
  | concatenate values => arraysOf values
  | matmul a b | matrixMatmul a b | dot a b => [a, b]

def one (result : Except Exc (Ndarray α δ)) : Except Exc (List (Ndarray α δ)) := result.map ([·])

/-- `asarray` gives an array itself, if it has the dtype. -/
def isSame [DecidableEq δ] : Value α δ → Option δ → Bool
  | .array a, dtype => dtype = none ∨ dtype = a.dtype
  | _, _ => false

/-- The arrays that the call makes. -/
def run [DecidableEq δ] (P : Reals α δ) : Op α δ → Except Exc (List (Ndarray α δ))
  | ndarray value shape dtype => one (Ndarray.new value shape dtype)
  | asarray value dtype => if isSame value dtype then .ok [] else one (Ndarray.asarray value dtype)
  | matrix value dtype => one (Ndarray.matrix value dtype)
  | zeros shape dtype => one (Ndarray.zeros P.toNums shape dtype)
  | ones shape dtype => one (Ndarray.ones P.toNums shape dtype)
  | full shape value dtype => one (Ndarray.full P.toNums shape value dtype)
  | identity n dtype => one (Ndarray.identity P.toNums n dtype)
  | eye n m k dtype => one (Ndarray.eye P.toNums n m k dtype)
  | arange fuel start stop step dtype => (Ndarray.arange P.toNums fuel start stop step dtype).map Option.toList
  | linspace start stop num => one (Ndarray.linspace P start stop num)
  | copy a => one a.copy
  | flatten a => one a.flattened
  | toArray a => one a.toArray
  | toArray1 a => one a.toArray1
  | iter a => if a.ndim ≤ 1 then .ok [] else a.rows
  | getInt a index => (a.getInt index).map Item.arrays
  | getSlice a s => one (a.getSlice s)
  | reshape a shape => one (a.reshape shape)
  | transpose a => one a.transpose
  | matrixTranspose a => one a.matrixTranspose
  | binary a other operation => one (a.binary other operation)
  | rsub a other => one (a.rsub P.toNums other)
  | rtruediv a other => one (a.rtruediv P other)
  | neg a => one (a.neg P.toNums)
  | astype a converter => one (a.astype P.toNums converter)
  | unary a function => one (a.unary function)
  | mul a other => (a.mul P.toNums other).map Item.arrays
  | rmul a other => one (a.rmul P.toNums other)
  | concatenate values => one (Ndarray.concatenate values)
  | matmul a b => (Ndarray.matmul P.toNums a b).map Item.arrays
  | matrixMatmul a b => (a.matrixMatmul P.toNums b).map Item.arrays
  | dot a b => (a.dot P.toNums b).map Item.arrays
  | inverse a => one (a.inverse P)
  | pow a exponent => one (a.pow P exponent)

end Op

/-- The calls that a program has made, and the arrays that it has. The operations of matrices
are taken of any array here, though only a matrix has them. -/
inductive Run [DecidableEq δ] (P : Reals α δ) : List (Op α δ) → List (Ndarray α δ) → Prop
  | start : Run P [] []
  | make {ops : List (Op α δ)} {arrays made : List (Ndarray α δ)} {op : Op α δ} :
    Run P ops arrays → (∀ a ∈ op.operands, a ∈ arrays) → op.run P = .ok made → Run P (ops ++ [op]) (arrays ++ made)
  | setItem {ops : List (Op α δ)} {arrays : List (Ndarray α δ)} {i : Nat} {a b : Ndarray α δ} {index : List Int} {value : α} :
    Run P ops arrays → arrays[i]? = some a → a.setItem index value = .ok b → Run P ops (arrays.set i b)
  | setSlice {ops : List (Op α δ)} {arrays : List (Ndarray α δ)} {i : Nat} {a b : Ndarray α δ} {s : Slice} {replacement : List α} :
    Run P ops arrays → arrays[i]? = some a → a.setSlice s replacement = .ok b → Run P ops (arrays.set i b)

end PythonUltra.Numpy
