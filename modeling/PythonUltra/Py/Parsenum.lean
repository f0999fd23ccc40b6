/-
  PythonUltra.Py.Parsenum — integers read from text (py/parsenum.c, py/parsenumbase.c, with
  mpz_set_from_str of py/mpz.c).

  Digits are added up in a machine word; where that may be too much for a small int the text
  is read again from its first digit, into an `mpz_t`. The text of a message is its format,
  with what is put into it.
-/

import PythonUltra.Py.Binary
import PythonUltra.Py.Objint

namespace PythonUltra.Py.Parsenum

open PythonUltra.Lib PythonUltra.Py.Mpz PythonUltra.Py.Smallint PythonUltra.Py.Binary

inductive Msg where
  /-- "int() arg 2 must be >= 2 and <= 36" -/
  | badBase
  /-- `"invalid syntax for integer with base %d: "`, and the text quoted -/
  | badSyntax (base : Nat) (text : List UInt8)
  deriving DecidableEq, Repr

inductive Exc where
  | valueError (msg : Msg)
  | syntaxError (msg : Msg)
  deriving DecidableEq, Repr

/-- `raise_exc` -/
def raiseExc (lex : Bool) (msg : Msg) : Exc := if lex then .syntaxError msg else .valueError msg

/-- `unichar_isspace` -/
def isspace (c : UInt8) : Bool := (9 ≤ c && c ≤ 13) || c == 32

/-- `mp_parse_num_base`: the bytes of the prefix, and the base. -/
def mpParseNumBase (str : List UInt8) (base : Nat) : Nat × Nat :=
  match str with
  | c :: d :: _ =>
    if c = '0'.toUInt8 then
      if d ||| 32 = 'x'.toUInt8 ∧ (base = 0 ∨ base = 16) then (2, 16)
      else if d ||| 32 = 'o'.toUInt8 ∧ (base = 0 ∨ base = 8) then (2, 8)
      else if d ||| 32 = 'b'.toUInt8 ∧ (base = 0 ∨ base = 2) then (2, 2)
      -- only zeros may follow
      else (0, if base = 0 then 1 else base)
    else (0, if base = 0 then 10 else base)
  | _ => (0, if base = 0 then 10 else base)

/-- The digit of a character, whatever the base. -/
def digitOf (c : UInt8) : Option Nat :=
  if 48 ≤ c ∧ c ≤ 57 then some (c.toNat - 48)
  else
    let dig := c ||| 0x20
    if 97 ≤ dig ∧ dig ≤ 122 then some (dig.toNat - 87) else none

/-- The same in mpz_set_from_str. A `char` that is negative is no digit either way. -/
def strDigit (c : UInt8) : Option Nat :=
  if 48 ≤ c ∧ c ≤ 57 then some (c.toNat - 48)
  else if 65 ≤ c ∧ c ≤ 90 then some (c.toNat - 55)
  else if 97 ≤ c ∧ c ≤ 122 then some (c.toNat - 87)
  else none

/-- Where the loop over the digits comes to. -/
inductive Scan where
  | ended (intVal : Int) (rest : List UInt8)
  | overflow
  deriving DecidableEq, Repr

section
variable {ι : Type} [DecidableEq ι] {abi : Abi}

variable (abi) in
def scanDigits (base : Nat) : Int → List UInt8 → Scan
  | intVal, [] => .ended intVal []
  | intVal, c :: str =>
    if c = '_'.toUInt8 then scanDigits base intVal str
    else
      match digitOf c with
      | none => .ended intVal (c :: str)
      | some dig =>
        if dig ≥ base then .ended intVal (c :: str)
        else if mulOverflow abi.toConfig intVal base then .overflow
        else if smallIntFits abi.toConfig (abi.sword (intVal * base + dig)) then scanDigits base (abi.sword (intVal * base + dig)) str
        else .overflow

def mpnMulDigAddDig (i : Ref ι) (ilen dmul dadd : Nat) : M abi.toConfig ι Nat := do
  let carry ← sweep i 0 (fun q carry => do
    let carry := abi.dbl (carry + abi.dbl ((← readDig i q) * dmul))
    pure (carry >>> abi.digSize, carry &&& abi.mask)) ilen 0 dadd
  if carry ≠ 0 then
    writeDig i ilen carry
    pure (ilen + 1)
  else pure ilen

/-- The loop of `mpz_set_from_str`; `n` characters are done. -/
def setFromStr (z : Ref ι) (base : Nat) : List UInt8 → Nat → M abi.toConfig ι Nat
  | [], n => pure n
  | c :: str, n =>
    match strDigit c with
    | none => pure n
    | some v =>
      if v ≥ base then pure n
      else do
        let len ← look z MpzT.len
        setLen z (← mpnMulDigAddDig z len base v)
        setFromStr z base str (n + 1)

def mpzSetFromStr (z : Ref ι) (str : List UInt8) (neg : Bool) (base : Nat) : M abi.toConfig ι Nat := do
  assert (decide (base ≤ 36))
  mpzNeedDig z (abi.word (str.length * 8) / abi.digSize + 1)
  setNeg z neg
  setLen z 0
  setFromStr z base str 0

/-- `mp_obj_new_int_from_str_len` -/
def newIntFromStrLen (str : List UInt8) (neg : Bool) (base : Nat) : M abi.toConfig ι (Nat × Objint.Obj ι) := do
  Objint.intNewMpz .res
  let n ← mpzSetFromStr (.temp .res) str neg base
  pure (n, .int (.temp .res))

/-- From `have_ret_val` on: `start` are the digits and what is after them, `str` what is left. -/
def haveRetVal (lex : Bool) (base : Nat) (start str : List UInt8) (retVal : Objint.Obj ι) : Except Exc (Objint.Obj ι) :=
  let err := raiseExc lex (.badSyntax (if base = 1 then 0 else base) start)
  if str.length = start.length then .error err
  else if str.dropWhile isspace ≠ [] then .error err
  else .ok retVal

/-- The sign, and what is after it. -/
def optSign : List UInt8 → Bool × List UInt8
  | [] => (false, [])
  | c :: str => if c = '+'.toUInt8 then (false, str) else if c = '-'.toUInt8 then (true, str) else (false, c :: str)

def mpParseNumInteger (str : List UInt8) (base : Int) (lex : Bool) : M abi.toConfig ι (Except Exc (Objint.Obj ι)) :=
  if (base ≠ 0 ∧ base < 2) ∨ base > 36 then pure (.error (.valueError .badBase))
  else
    let (neg, str) := optSign (str.dropWhile isspace)
    let (n, base) := mpParseNumBase str base.toNat
    let start := str.drop n
    match scanDigits abi base 0 start with
    | .ended intVal str =>
      pure (haveRetVal lex base start str (.small (newSmallInt abi.toConfig (if neg then abi.sword (-intVal) else intVal))))
    | .overflow => do
      let (n, retVal) ← newIntFromStrLen start neg base
      pure (haveRetVal lex base start (start.drop n) retVal)

end

end PythonUltra.Py.Parsenum
