/-
  PythonUltra.Py.ObjintFormat — integers written as text (py/objint.c, py/objint_mpz.c, and
  mpz_as_str_inpl of py/mpz.c).

  A small int is written from the end of the buffer down, an `mpz_t` from its start up and
  then turned round. `prefix` is a C string, and `NULL` does what the empty one does; a
  `comma` of 0 is none. Writing outside of the buffer is a fault.
-/

import PythonUltra.Py.ObjintBytes

namespace PythonUltra.Py.ObjintFormat

open PythonUltra.Lib PythonUltra.Py.Mpz PythonUltra.Py.Smallint PythonUltra.Py.Binary PythonUltra.Py.ObjintBytes

/-- `log_base2_floor` -/
def logBase2Floor : List Nat := [0, 1, 1, 2, 2, 2, 2, 3, 3, 3, 3, 3, 3, 3, 3, 4]

/-- How an integer is to be written. -/
structure Format where
  base : Nat
  pre : List UInt8
  baseChar : UInt8
  comma : UInt8

section
variable (abi : Abi) (fmt : Format)

/-- `mp_int_format_size`, in `size_t` -/
def intFormatSize (numBits : Nat) : Nat :=
  let numDigits := abi.word (numBits / logBase2Floor.getD (fmt.base - 1) 0 + 1)
  let numCommas := if fmt.comma ≠ 0 then numDigits / 3 else 0
  abi.word (numDigits + numCommas + fmt.pre.length + 2)

/-! ## Small ints -/

/-- `b`, as a place in the buffer, and what is written from there on. -/
structure Back where
  b : Nat
  out : List UInt8

/-- `*(--b) = c` -/
def Back.put (w : Back) (c : UInt8) : Except Fault Back := if w.b = 0 then .error .bounds else .ok ⟨w.b - 1, c :: w.out⟩

def smallDigit (c : Nat) : UInt8 := UInt8.ofNat (if c ≥ 10 then c + fmt.baseChar.toNat - 10 else c + '0'.toNat)

/-- After a digit: a separator, if there are three digits before it and more to come. -/
def backComma (num : Nat) (w : Back) (lastComma : Nat) : Except Fault (Back × Nat) :=
  if fmt.comma ≠ 0 ∧ num ≠ 0 ∧ w.b > 0 ∧ lastComma - w.b = 3 then do
    let w ← w.put fmt.comma
    pure (w, w.b)
  else pure (w, lastComma)

/-- The loop over the digits, which divides `num`; `fuel` is more than it needs. -/
def backDigits : Nat → Nat → Back → Nat → Except Fault Back
  | 0, _, _, _ => .error .stuck
  | fuel + 1, num, w, lastComma => do
    let w ← w.put (smallDigit fmt (num % fmt.base))
    let num := num / fmt.base
    let (w, lastComma) ← backComma fmt num w lastComma
    if w.b > 0 ∧ num ≠ 0 then backDigits fuel num w lastComma else pure w

def backNum (num : Nat) (w : Back) : Except Fault Back := if num = 0 then w.put '0'.toUInt8 else backDigits fmt (num + 1) num w w.b

/-- The prefix, if there is a place for it and one before it. -/
def backPre (w : Back) : Back := if fmt.pre.length < w.b then ⟨w.b - fmt.pre.length, fmt.pre ++ w.out⟩ else w

def backSign (sign : Bool) (w : Back) : Except Fault Back := if sign ∧ w.b > 0 then w.put '-'.toUInt8 else pure w

/-- What is before the null byte, and `*fmt_size`. -/
def smallFormatted (num : Int) : Except Fault (List UInt8 × Nat) := do
  let sign := decide (num < 0)
  let num := (uword abi.toConfig (if num < 0 then abi.sword (-num) else num))
  let neededSize := intFormatSize abi fmt abi.wordBits
  let w ← (⟨neededSize, []⟩ : Back).put 0
  let w ← backNum fmt num w
  let w ← backSign sign (backPre fmt w)
  pure (w.out.dropLast, neededSize - w.b - 1)

/-! ## mpz_as_str_inpl -/

/-- `*s++ = c`: what is written, the last first, in a buffer of `size`. -/
def push (size : Nat) (s : List UInt8) (c : UInt8) : Except Fault (List UInt8) := if s.length < size then .ok (c :: s) else .error .bounds

def pushAll (size : Nat) (s : List UInt8) : List UInt8 → Except Fault (List UInt8)
  | [] => .ok s
  | c :: cs => do pushAll size (← push size s c) cs

/-- A division of the digits by the base, from the high end: the remainder and the quotient. -/
def divPass (base : Nat) : Nat → Nat → (Nat → Nat) → Nat × (Nat → Nat)
  | 0, a, dig => (a, dig)
  | n + 1, a, dig =>
    let a := abi.dbl (a <<< abi.digSize) ||| dig n
    divPass base n (a % base) (Function.update dig n (abi.dig (a / base)))

def mpzDigit (a : Nat) : UInt8 :=
  let a := a + '0'.toNat
  UInt8.ofNat (if a > '9'.toNat then a + fmt.baseChar.toNat - '9'.toNat - 1 else a)

def pushComma (size : Nat) (s : List UInt8) (lastComma : Nat) : Except Fault (List UInt8 × Nat) :=
  if fmt.comma ≠ 0 ∧ s.length - lastComma = 3 then do
    let s ← push size s fmt.comma
    pure (s, s.length)
  else pure (s, lastComma)

/-- The loop over the digits of the text; `fuel` is more than it needs. -/
def asStrLoop (size ilen : Nat) : Nat → (Nat → Nat) → List UInt8 → Nat → Except Fault (List UInt8)
  | 0, _, _, _ => .error .stuck
  | fuel + 1, dig, s, lastComma =>
    let (a, dig) := divPass abi fmt.base ilen 0 dig
    do
    let s ← push size s (mpzDigit fmt a)
    if (List.range ilen).all fun d => dig d == 0 then pure s
    else do
      let (s, lastComma) ← pushComma fmt size s lastComma
      asStrLoop size ilen fuel dig s lastComma

/-- The text, after the null byte is written. -/
def terminated (size : Nat) (s text : List UInt8) : Except Fault (List UInt8 × Nat) := do
  let _ ← push size s 0
  pure (text, s.length)

def mpzAsStrInpl (i : MpzT abi.toConfig) (size : Nat) : Except Fault (List UInt8 × Nat) :=
  if i.len = 0 then do
    let s ← pushAll size [] fmt.pre
    let s ← push size s '0'.toUInt8
    terminated size s s.reverse
  else if abi.granted i.len = false then .error .memory
  else do
    let s ← asStrLoop abi fmt size i.len (i.len * abi.digSize) i.dig [] 0
    let s ← pushAll size s fmt.pre.reverse
    let s ← pushAll size s (if i.neg then ['-'.toUInt8] else [])
    -- reversed, the last is the first
    terminated size s s

/-! ## mp_obj_int_formatted -/

/-- `mpz_max_num_bits` -/
def mpzMaxNumBits (z : MpzT abi.toConfig) : Nat := abi.word (z.len * abi.digSize)

/-- The size that is asked for. -/
def neededSize : IntObj abi → Nat
  | .small _ => intFormatSize abi fmt abi.wordBits
  | .mpz z => intFormatSize abi fmt (mpzMaxNumBits abi z)

/-- Into a buffer of `bufSize` bytes, or one of the size needed. -/
def intFormatted (host : Host abi) (bufSize : Nat) (self : IntObj abi) : Except Fault (List UInt8 × Nat) :=
  if neededSize abi fmt self > bufSize ∧ host.allocates (neededSize abi fmt self) = false then .error .memory
  else
    match self with
    | .small num => smallFormatted abi fmt num
    | .mpz z => mpzAsStrInpl abi fmt z (if neededSize abi fmt self > bufSize then neededSize abi fmt self else bufSize)

end

end PythonUltra.Py.ObjintFormat
