/-
  PythonUltra.Py.Binary — numbers in bytes (py/binary.c, and mpz_as_bytes of py/mpz.c).

  A value to pack is an object; only what its conversion reads is kept of it. What the
  codes e, f and d make of a number, and the address that O stores, are the machine's
  (`floatBits`, `address`). Objects with an `__int__` or a `__float__` of their own are
  left out.
-/

import PythonUltra.Lib.Bytes
import PythonUltra.Py.Smallint

namespace PythonUltra.Py.Binary

open PythonUltra.Lib.Struct PythonUltra.Py.Mpz PythonUltra.Py.Smallint

/-- The C types of native fields. -/
inductive CType where
  | char | short | int | long | longLong | pointer | half | float | double
  deriving DecidableEq

/-- A machine: `mp_uint_t` is as wide as a pointer, mpz.h takes digits of 16 or 32 bits. -/
structure Abi extends Config where
  wordBytes : Nat
  wordBytes_eq : wordBytes = 4 ∨ wordBytes = 8
  wordBits_eq : wordBits = 8 * wordBytes
  /-- `MP_ENDIANNESS_BIG` -/
  bigEndian : Bool
  longBytes : Nat
  longBytes_eq : longBytes = 4 ∨ longBytes = 8
  /-- `alignof` -/
  align : CType → Nat
  align_pow : ∀ t, ∃ k < 8, align t = 2 ^ k
  digSize_eq : digSize = 16 ∨ digSize = 32
  digBits_eq : digBits = digSize

variable (abi : Abi)

inductive Exc where
  | valueError (msg : String)
  | typeError (msg : String)
  | overflowError (msg : String)
  | memoryError
  deriving DecidableEq, Repr

inductive Arg where
  | small (v : Int)
  | int (z : MpzT abi.toConfig)
  | bool (b : Bool)
  /-- an object with a buffer: bytes, a bytearray, a str -/
  | buffer (data : List UInt8)
  /-- any other object -/
  | other (id : Nat)

/-- What is asked of the machine and of its objects beside integers. -/
structure Host where
  /-- the pattern of an argument for e, f or d; none: TypeError -/
  floatBits : Char → Arg abi → Option Nat
  address : Arg abi → Nat
  /-- so many bytes are allocated -/
  allocates : Nat → Bool
  /-- what stands in them -/
  junk : Nat → UInt8

/-! ## Sizes -/

def badTypecode : Exc := .valueError "bad typecode"

/-- `mp_binary_get_size` for `<` and `>`. -/
def standardSize : Char → Option Nat
  | 'b' | 'B' => some 1
  | 'h' | 'H' => some 2
  | 'i' | 'I' => some 4
  | 'l' | 'L' => some 4
  | 'q' | 'Q' => some 8
  | 'P' | 'O' | 'S' => some abi.wordBytes
  | 'e' => some 2
  | 'f' => some 4
  | 'd' => some 8
  | _ => none

/-- `BYTEARRAY_TYPECODE` -/
def bytearrayTypecode : Char := '\x01'

/-- The C type of a code, for `@`. -/
def ctype : Char → Option CType
  | '\x01' | 'b' | 'B' => some .char
  | 'h' | 'H' => some .short
  | 'i' | 'I' => some .int
  | 'l' | 'L' => some .long
  | 'q' | 'Q' => some .longLong
  | 'P' | 'O' | 'S' => some .pointer
  | 'e' => some .half
  | 'f' => some .float
  | 'd' => some .double
  | _ => none

/-- `sizeof` -/
def CType.size : CType → Nat
  | .char => 1
  | .short => 2
  | .int => 4
  | .long => abi.longBytes
  | .longLong => 8
  | .pointer => abi.wordBytes
  | .half => 2
  | .float => 4
  | .double => 8

/-- `align` of a code for `@`: that of its type, but for chars and half floats. -/
def CType.alignment : CType → Nat
  | .char => 1
  | .half => 2
  | t => abi.align t

/-- `mp_binary_get_size`: the size and the alignment. -/
def getSize (structType valType : Char) : Except Exc (Nat × Nat) :=
  match structType with
  | '<' | '>' => match standardSize abi valType with
    | some size => .ok (size, 1)
    | none => .error badTypecode
  | '@' => match ctype valType with
    | some t => .ok (t.size abi, t.alignment abi)
    | none => .error badTypecode
  | _ => .error badTypecode

/-- `(x + (align - 1)) & ~(align - 1)` of words. -/
def alignUp (x align : Nat) : Nat := abi.word (x + (align - 1)) &&& (2 ^ abi.wordBits - align)

/-- The byte order of a field: `@` is the machine's. -/
def isBig (structType : Char) : Bool := if structType = '@' then abi.bigEndian else structType = '>'

/-! ## Reading -/

/-- `is_signed` -/
def isSigned (typecode : Char) : Bool := typecode > 'Z'

/-- `mp_binary_get_int`, of the bytes at `src`, which go into a `long long` the highest first. -/
def getInt (signed bigEndian : Bool) (src : List UInt8) : Int :=
  readInt 64 signed (if bigEndian then src else src.reverse)

/-- What is read from a field. -/
inductive Val where
  | int (v : Int)
  | bytes (data : List UInt8)
  | str (data : List UInt8)
  | object (word : Nat)
  | float (valType : Char) (bits : Nat)
  deriving DecidableEq, Repr

/-- The end of `mp_binary_get_val`, for a code other than O, S, e, f and d. The bounds of a
small int only choose between constructors of one value. -/
def intVal (valType : Char) (val : Int) : Val := if isSigned valType then .int val else .int (val % (2 ^ 64 : Nat))

/-! ## Writing -/

/-- The bytes of an `mp_uint_t` in memory. -/
def wordImage (val : Nat) : List UInt8 :=
  if abi.bigEndian then (packInt abi.wordBytes val).reverse else packInt abi.wordBytes val

/-- `mp_binary_set_int` -/
def setInt (valSz : Nat) (bigEndian : Bool) (val : Nat) : List UInt8 :=
  if !abi.bigEndian && !bigEndian then (wordImage abi val).take valSz
  else if abi.bigEndian && bigEndian then (wordImage abi val).drop (abi.wordBytes - valSz)
  else
    let src := if abi.bigEndian then wordImage abi val else (wordImage abi val).take valSz
    src.reverse.take valSz

/-- A byte of `mpz_as_bytes`: `out` is what is written, the lowest first. -/
def emitByte (neg : Bool) (len : Nat) (out : List UInt8) (carry d : Nat) : List UInt8 × Nat :=
  let val := abi.dig d
  let val := if neg then abi.dig (255 - val % 256 + carry) else val
  let carry := if neg then val >>> 8 else carry
  (if out.length < len then out ++ [UInt8.ofNat val] else out, carry)

/-- `for (; bits >= 8; bits -= 8, d >>= 8)`, of `n` turns. -/
def emitBytes (neg : Bool) (len : Nat) : Nat → List UInt8 × Nat → Nat → List UInt8 × Nat
  | 0, st, _ => st
  | n + 1, st, d => emitBytes neg len n (emitByte abi neg len st.1 st.2 d) (d >>> 8)

/-- The loop of `mpz_as_bytes` over the digits, from the `i`th on. -/
def asBytesLoop (neg : Bool) (len : Nat) (dig : Nat → Nat) : Nat → Nat → List UInt8 × Nat → Nat → Nat → List UInt8 × Nat
  | 0, _, st, _, _ => st
  | zlen + 1, i, st, d, bits =>
    let bits := bits + abi.digSize
    let d := abi.dbl (d <<< abi.digSize) ||| dig i
    asBytesLoop neg len dig zlen (i + 1) (emitBytes abi neg len (bits / 8) st d) (d >>> (8 * (bits / 8))) (bits % 8)

/-- The bytes `mpz_as_bytes` writes. -/
def asBytes (z : MpzT abi.toConfig) (bigEndian : Bool) (len : Nat) : List UInt8 :=
  let out := (asBytesLoop abi z.neg len z.dig z.len 0 ([], 1) 0 0).1
  let out := out ++ List.replicate (len - out.length) (if z.neg then 0xff else 0)
  if bigEndian then out.reverse else out

variable {abi}

def cannotConvert : Exc := .typeError "can't convert to int"

/-- `mp_obj_get_int`. A long int is read by `mpz_as_int_checked`. -/
def objGetInt : Arg abi → Except Exc Int
  | .small v => .ok v
  | .bool b => .ok (if b then 1 else 0)
  | .int z => if z.value.natAbs < 2 ^ (abi.wordBits - 1) then .ok z.value else .error (.overflowError "overflow converting long int to machine word")
  | .buffer _ => .error cannotConvert
  | .other _ => .error cannotConvert

/-- An integer of the machine's width, with its sign before or behind it in a wider field. -/
def wideInt (abi : Abi) (size : Nat) (bigEndian : Bool) (val : Int) : List UInt8 :=
  let low := setInt abi (min size abi.wordBytes) bigEndian (uword abi.toConfig val)
  if abi.wordBytes < 8 ∧ size > abi.wordBytes then
    let sign := List.replicate (size - abi.wordBytes) (if val < 0 then (0xff : UInt8) else 0)
    if bigEndian then sign ++ low else low ++ sign
  else low

/-- The bytes of an integer in a field of `size`. -/
def intArgBytes (bigEndian : Bool) (size : Nat) : Arg abi → Except Exc (List UInt8)
  | .int z => .ok (asBytes abi z bigEndian size)
  | val => do return wideInt abi size bigEndian (← objGetInt val)

/-- The bytes of a float, from its pattern. A double is written in two halves where a word is not as wide. -/
def floatBytes (abi : Abi) (bigEndian : Bool) (valType : Char) (size bits : Nat) : List UInt8 :=
  if valType = 'd' ∧ abi.wordBytes ≠ 8 then
    let low := setInt abi 4 bigEndian (bits % 2 ^ 32)
    let high := setInt abi 4 bigEndian (bits / 2 ^ 32)
    if bigEndian then high ++ low else low ++ high
  else setInt abi (min size abi.wordBytes) bigEndian bits

/-- The bytes `mp_binary_set_val` writes, of which there are `size`. -/
def valBytes (host : Host abi) (bigEndian : Bool) (valType : Char) (size : Nat) (val : Arg abi) : Except Exc (List UInt8) :=
  if valType = 'O' then .ok (setInt abi (min size abi.wordBytes) bigEndian (host.address val))
  else if valType = 'e' ∨ valType = 'f' ∨ valType = 'd' then
    match host.floatBits valType val with
    | some bits => .ok (floatBytes abi bigEndian valType size bits)
    | none => .error (.typeError "can't convert to float")
  else intArgBytes bigEndian size val

/-! ## A 32-bit machine -/

def abi32 : Abi where
  toConfig := .sh4 fun _ _ => 0
  wordBytes := 4
  wordBytes_eq := .inl rfl
  wordBits_eq := rfl
  bigEndian := false
  longBytes := 4
  longBytes_eq := .inl rfl
  align
    | .char => 1
    | .short => 2
    | .half => 2
    | .longLong => 8
    | .double => 8
    | _ => 4
  align_pow t := by
    cases t with
    | char => exact ⟨0, by decide, rfl⟩
    | short => exact ⟨1, by decide, rfl⟩
    | half => exact ⟨1, by decide, rfl⟩
    | longLong => exact ⟨3, by decide, rfl⟩
    | double => exact ⟨3, by decide, rfl⟩
    | _ => exact ⟨2, by decide, rfl⟩
  digSize_eq := .inl rfl
  digBits_eq := rfl

def host32 : Host abi32 where
  floatBits _ _ := none
  address _ := 0
  allocates n := decide (n < 2 ^ 20)
  junk _ := 0xaa

end PythonUltra.Py.Binary
