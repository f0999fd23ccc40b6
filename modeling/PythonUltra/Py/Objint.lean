/-
  PythonUltra.Py.Objint — the operators of int objects (mp_unary_op and mp_binary_op of
  py/runtime.c, py/objint_mpz.c, and mp_obj_equal_not_equal of py/obj.c).

  An int object is a small int or a place of an `mpz_t`. An operator on small ints works
  on machine words and turns to the other kind where the result may be too large; with an
  `mpz_t` among the operands a small one is made into digits on the stack (`zInt`). What an
  operator makes anew stands in places of its own; the heads of these objects and the tuple
  of `divmod` are taken to find memory, the digits may not.

  Left out are operands that are no ints, and what gives a float: `/`, and a negative
  exponent (`Result.float`).
-/

import PythonUltra.Py.Smallint
import PythonUltra.Py.MpzBits

namespace PythonUltra.Py.Objint

open PythonUltra.Lib PythonUltra.Py.Mpz PythonUltra.Py.Smallint

/-- A machine whose `mp_int_t` is no wider than its `long long`. -/
structure Machine extends Config where
  wordBits_le : wordBits ≤ 64

inductive Obj (ι : Type) where
  | small (v : Int)
  | int (r : Ref ι)
deriving DecidableEq, Repr

inductive Exc where
  | valueError (msg : String)
  | zeroDivisionError (msg : String)
  | overflowError (msg : String)
deriving DecidableEq, Repr

inductive Result (ι : Type) where
  | obj (o : Obj ι)
  | bool (b : Bool)
  | tuple (quo rem : Obj ι)
  | raises (e : Exc)
  /-- the call goes to the code for floats -/
  | float
deriving DecidableEq, Repr

/-- The operators with an in-place form. -/
inductive ArithOp where
  | or | xor | and | lshift | rshift | add | subtract | multiply | floorDivide | modulo | power
deriving DecidableEq, Repr

inductive CmpOp where
  | less | more | lessEqual | moreEqual
deriving DecidableEq, Repr

inductive BinaryOp where
  | arith (op : ArithOp) (inplace : Bool)
  | divmod
  | cmp (op : CmpOp)
  | equal
  | notEqual
deriving DecidableEq, Repr

inductive UnaryOp where
  | bool | hash | positive | intMaybe | negative | abs | invert | not
deriving DecidableEq, Repr

variable {ι : Type} [DecidableEq ι] {c : Config}

def negativeShift : Exc := .valueError "negative shift count"

def divideByZero : Exc := .zeroDivisionError "divide by zero"

def wordOverflow : Exc := .overflowError "overflow converting long int to machine word"

/-! ## Objects -/

/-- `mp_obj_int_new_mpz` -/
def intNewMpz (t : Temp) : M c ι Unit := change (.temp t) fun _ => initZero

/-- `mp_obj_new_int_from_ll` -/
def newIntFromLl (t : Temp) (val : Int) : M c ι (Obj ι) := do
  intNewMpz t
  mpzSetFromLl (.temp t) val
  pure (.int (.temp t))

/-- `mp_obj_new_int`, and its inlined version at the end of mp_binary_op -/
def newInt (value : Int) : M c ι (Obj ι) :=
  if smallIntFits c value then pure (.small (newSmallInt c value)) else newIntFromLl .res value

/-- `mp_obj_int_get_checked`, `none` for its OverflowError -/
def intGetChecked (o : Obj ι) : M c ι (Option Int) :=
  match o with
  | .small v => pure (some v)
  | .int r => mpzAsIntChecked r

/-- `mpz_is_zero` -/
def mpzIsZero (z : Ref ι) : M c ι Bool := do pure (decide ((← look z MpzT.len) = 0))

/-! ## mp_obj_int_unary_op and mp_obj_int_binary_op -/

def intUnaryOp (op : UnaryOp) (o : Ref ι) : M c ι (Result ι) :=
  match op with
  | .bool => do pure (.bool !(← mpzIsZero o))
  | .hash => do pure (.obj (.small (newSmallInt c (← mpzHash o))))
  | .positive => pure (.obj (.int o))
  | .negative => do
    intNewMpz .res
    mpzNegInpl (.temp .res) o
    pure (.obj (.int (.temp .res)))
  | .invert => do
    intNewMpz .res
    mpzNotInpl (.temp .res) o
    pure (.obj (.int (.temp .res)))
  | .abs => do
    if (← look o MpzT.neg) = false then pure (.obj (.int o))
    else
      intNewMpz .res
      mpzAbsInpl (.temp .res) o
      pure (.obj (.int (.temp .res)))
  | .intMaybe => pure (.obj (.int o))
  | .not => do pure (.bool (← mpzIsZero o))

/-- A small operand in digits on the stack. -/
def operand (o : Obj ι) : M c ι (Ref ι) :=
  match o with
  | .small v => do
    mpzInitFixedFromInt (.temp .zInt) v
    pure (.temp .zInt)
  | .int r => pure r

/-- `res` from the operands; what is given back is returned as it is. -/
def intArith (op : ArithOp) (zlhs zrhs : Ref ι) (rhs : Obj ι) : M c ι (Option (Result ι)) :=
  match op with
  | .add => do
    mpzAddInpl (.temp .res) zlhs zrhs
    pure none
  | .subtract => do
    mpzSubInpl (.temp .res) zlhs zrhs
    pure none
  | .multiply => do
    mpzMulInpl (.temp .res) zlhs zrhs
    pure none
  | .floorDivide => do
    if ← mpzIsZero zrhs then pure (some (.raises divideByZero))
    else
      change (.temp .rem) fun _ => initZero
      mpzDivmodInpl (.temp .res) (.temp .rem) zlhs zrhs
      pure none
  | .modulo => do
    if ← mpzIsZero zrhs then pure (some (.raises divideByZero))
    else
      change (.temp .quo) fun _ => initZero
      mpzDivmodInpl (.temp .quo) (.temp .res) zlhs zrhs
      pure none
  | .and => do
    mpzAndInpl (.temp .res) zlhs zrhs
    pure none
  | .or => do
    mpzOrInpl (.temp .res) zlhs zrhs
    pure none
  | .xor => do
    mpzXorInpl (.temp .res) zlhs zrhs
    pure none
  | .lshift => do
    match ← intGetChecked rhs with
    | none => pure (some (.raises wordOverflow))
    | some irhs =>
      if irhs < 0 then pure (some (.raises negativeShift))
      else
        mpzShlInpl (.temp .res) zlhs irhs.toNat
        pure none
  | .rshift => do
    match ← intGetChecked rhs with
    | none => pure (some (.raises wordOverflow))
    | some irhs =>
      if irhs < 0 then pure (some (.raises negativeShift))
      else
        mpzShrInpl (.temp .res) zlhs irhs.toNat
        pure none
  | .power => do
    if ← look zrhs MpzT.neg then pure (some .float)
    else
      mpzPowInpl (.temp .res) zlhs zrhs
      pure none

/-- Check if the result fits in a small-int, and if so just return that. -/
def shrinkResult : M c ι (Obj ι) := do
  match ← mpzAsIntChecked (.temp .res) with
  | some resSmall =>
    if smallIntFits c resSmall then pure (.small (newSmallInt c resSmall)) else pure (.int (.temp .res))
  | none => pure (.int (.temp .res))

def CmpOp.of (op : CmpOp) (cmp : Int) : Bool :=
  match op with
  | .less => decide (cmp < 0)
  | .more => decide (cmp > 0)
  | .lessEqual => decide (cmp ≤ 0)
  | .moreEqual => decide (cmp ≥ 0)

def intArithOp (op : ArithOp) (lhs rhs : Obj ι) : M c ι (Result ι) := do
  let zlhs ← operand lhs
  let zrhs ← operand rhs
  intNewMpz .res
  match ← intArith op zlhs zrhs rhs with
  | some r => pure r
  | none => do pure (.obj (← shrinkResult))

def intDivmod (lhs rhs : Obj ι) : M c ι (Result ι) := do
  let zlhs ← operand lhs
  let zrhs ← operand rhs
  intNewMpz .res
  if ← mpzIsZero zrhs then pure (.raises divideByZero)
  else
    intNewMpz .quo
    mpzDivmodInpl (.temp .quo) (.temp .res) zlhs zrhs
    pure (.tuple (.int (.temp .quo)) (.int (.temp .res)))

/-- `mpz_cmp` of the operands -/
def intCmp (lhs rhs : Obj ι) : M c ι Int := do
  let zlhs ← operand lhs
  let zrhs ← operand rhs
  mpzCmp zlhs zrhs

/-! ## mp_obj_equal_not_equal -/

/-- The comparison by the type's binary_op; `ne` is `op == MP_BINARY_OP_NOT_EQUAL`. -/
def equalByType (ne : Bool) (o1 o2 : Obj ι) : M c ι (Result ι) := do
  let r := decide ((← intCmp o1 o2) = 0)
  pure (.bool (if ne then !r else r))

def objEqualNotEqual (ne : Bool) (o1 o2 : Obj ι) : M c ι (Result ι) :=
  if o1 = o2 then pure (.bool !ne)
  else
    match o1, o2 with
    | .small _, .small _ => pure (.bool ne)
    | .small _, .int _ => equalByType ne o2 o1
    | .int _, _ => equalByType ne o1 o2

/-! ## Small ints -/

/-- `generic_binary_op`, with the left operand made an object with digits -/
def promoted (op : ArithOp) (lhs rhs : Int) : M c ι (Result ι) := do
  let o ← newIntFromLl .newLhs lhs
  intArithOp op o (.small rhs)

def newIntResult (value : Int) : M c ι (Result ι) := do pure (.obj (← newInt value))

def smallArithOp (op : ArithOp) (lhs rhs : Int) : M c ι (Result ι) :=
  match op with
  | .or => newIntResult (Int.lor lhs rhs)
  | .xor => newIntResult (Int.xor lhs rhs)
  | .and => newIntResult (Int.land lhs rhs)
  | .lshift =>
    if rhs < 0 then pure (.raises negativeShift)
    else if rhs ≥ c.wordBits ∨ lhs > smallMax c >>> rhs.toNat ∨ lhs < smallMin c >>> rhs.toNat then promoted .lshift lhs rhs
    else newIntResult (c.sword (uword c lhs <<< rhs.toNat : Nat))
  | .rshift =>
    if rhs < 0 then pure (.raises negativeShift)
    else newIntResult (lhs >>> (if rhs ≥ c.wordBits then c.wordBits - 1 else rhs.toNat))
  | .add => newIntResult (c.sword (lhs + rhs))
  | .subtract => newIntResult (c.sword (lhs - rhs))
  | .multiply =>
    if mulOverflow c lhs rhs then promoted .multiply lhs rhs
    else pure (.obj (.small (newSmallInt c (c.sword (lhs * rhs)))))
  | .floorDivide => if rhs = 0 then pure (.raises divideByZero) else newIntResult (Smallint.floorDivide c lhs rhs)
  | .modulo => if rhs = 0 then pure (.raises divideByZero) else newIntResult (Smallint.modulo c lhs rhs)
  | .power =>
    if rhs < 0 then pure .float
    else
      match smallPower c 1 lhs rhs.toNat with
      | some ans => newIntResult ans
      | none => promoted .power lhs rhs

def smallDivmod (lhs rhs : Int) : Result ι :=
  if rhs = 0 then .raises divideByZero
  else .tuple (.small (newSmallInt c (Smallint.floorDivide c lhs rhs))) (.small (newSmallInt c (Smallint.modulo c lhs rhs)))

def smallCmp (op : CmpOp) (lhs rhs : Int) : Bool :=
  match op with
  | .less => decide (lhs < rhs)
  | .more => decide (lhs > rhs)
  | .lessEqual => decide (lhs ≤ rhs)
  | .moreEqual => decide (lhs ≥ rhs)

def smallUnaryOp (op : UnaryOp) (val : Int) : M c ι (Result ι) :=
  match op with
  | .bool => pure (.bool (decide (val ≠ 0)))
  | .hash => pure (.obj (.small val))
  | .positive => pure (.obj (.small val))
  | .intMaybe => pure (.obj (.small val))
  | .negative => if val = smallMin c then newIntResult (c.sword (-val)) else pure (.obj (.small (newSmallInt c (-val))))
  | .abs =>
    if val ≥ 0 then pure (.obj (.small val))
    else if val = smallMin c then newIntResult (c.sword (-val))
    else pure (.obj (.small (newSmallInt c (-val))))
  | .invert => pure (.obj (.small (newSmallInt c (-val - 1))))
  | .not => pure (.bool (decide (val = 0)))

/-! ## The operators -/

def mpUnaryOp (op : UnaryOp) (arg : Obj ι) : M c ι (Result ι) :=
  match arg with
  | .small val => smallUnaryOp op val
  | .int r => intUnaryOp op r

def mpBinaryOp (op : BinaryOp) (lhs rhs : Obj ι) : M c ι (Result ι) :=
  match op with
  | .equal => objEqualNotEqual false lhs rhs
  | .notEqual => objEqualNotEqual true lhs rhs
  | .arith op _ =>
    match lhs, rhs with
    | .small a, .small b => smallArithOp op a b
    | _, _ => intArithOp op lhs rhs
  | .divmod =>
    match lhs, rhs with
    | .small a, .small b => pure (smallDivmod (c := c) a b)
    | _, _ => intDivmod lhs rhs
  | .cmp op =>
    match lhs, rhs with
    | .small a, .small b => pure (.bool (smallCmp op a b))
    | _, _ => do pure (.bool (op.of (← intCmp lhs rhs)))

end PythonUltra.Py.Objint
