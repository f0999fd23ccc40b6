/-
  PythonUltra.Py.Modstruct — the struct module (py/modstruct.c).

  A buffer is its bytes and the address of the first. A pointer into it is a word: how far
  it is from there. An access that leaves the bytes stops the run (`Stop.outside`), and so
  does a repeat count taken from an object that is no small int (`Stop.notSmallInt`);
  every other way to stop is an exception.

  A format ends at its first zero. It is read here once, as the codes with the digits
  before each (`items`); the three walks over it go along these.
-/

import PythonUltra.Lib.Prog
import PythonUltra.Lib.Slots
import PythonUltra.Py.Binary

namespace PythonUltra.Py.Modstruct

open PythonUltra.Lib PythonUltra.Lib.Slots PythonUltra.Py.Smallint PythonUltra.Py.Binary

inductive Stop where
  | raise (e : Exc)
  | outside
  | notSmallInt
  deriving DecidableEq, Repr

structure Buffer where
  address : Nat
  data : List UInt8
  deriving DecidableEq, Repr

/-- A code, and the digits before it. -/
structure Item where
  num : List Char
  code : Char
  deriving DecidableEq, Repr

/-- `unichar_isdigit` -/
def isDigit (c : Char) : Bool := '0' ≤ c && c ≤ '9'

/-- The items of a format; `num` is read already. Digits at the end stand before the
terminating zero. -/
def itemsFrom (num : List Char) : List Char → List Item
  | [] => if num = [] then [] else [⟨num, '\x00'⟩]
  | c :: fmt => if isDigit c then itemsFrom (num ++ [c]) fmt else ⟨num, c⟩ :: itemsFrom [] fmt

def items (fmt : List Char) : List Item := itemsFrom [] fmt

/-- `mp_obj_str_get_str` -/
def cstr (text : List Char) : List Char := text.takeWhile (· ≠ '\x00')

/-- `get_fmt_type`: the byte order, and what follows it. -/
def getFmtType : List Char → Char × List Char
  | '!' :: fmt => ('>', fmt)
  | '@' :: fmt => ('@', fmt)
  | '=' :: fmt => ('=', fmt)
  | '<' :: fmt => ('<', fmt)
  | '>' :: fmt => ('>', fmt)
  | fmt => ('@', fmt)

def orderOf (text : List Char) : Char := (getFmtType (cstr text)).1

def itemsOf (text : List Char) : List Item := items (getFmtType (cstr text)).2

/-- The number that decimal digits make. -/
def decimal (num : List Char) : Nat := num.foldl (fun v c => v * 10 + (c.toNat - '0'.toNat)) 0

variable (abi : Abi)

/-- The repeat count of an item: 1, or `get_fmt_num`. -/
def Item.count (it : Item) : Except Stop Nat :=
  if it.num = [] then .ok 1
  else if (decimal it.num : Int) ≤ smallMax abi.toConfig then .ok (decimal it.num)
  else .error .notSmallInt

def raises {α : Type} : Except Exc α → Except Stop α
  | .ok a => .ok a
  | .error e => .error (.raise e)

/-! ## calcsize -/

/-- `while (cnt--)` of `calc_size_items`. -/
def grow (sz align : Nat) : Nat → Nat → Nat
  | 0, size => size
  | cnt + 1, size => grow sz align cnt (abi.word (alignUp abi size align + sz))

/-- The loop of `calc_size_items`. -/
def calcLoop (fmtType : Char) : List Item → Nat → Nat → Except Stop (Nat × Nat)
  | [], totalCnt, size => .ok (totalCnt, size)
  | it :: fmt, totalCnt, size => do
    let cnt ← it.count abi
    if it.code = 'x' then calcLoop fmtType fmt totalCnt (abi.word (size + cnt))
    else if it.code = 's' then calcLoop fmtType fmt (abi.word (totalCnt + 1)) (abi.word (size + cnt))
    else
      let (sz, align) ← raises (getSize abi fmtType it.code)
      calcLoop fmtType fmt (abi.word (totalCnt + cnt)) (grow abi sz align cnt size)

/-- `calc_size_items`: the number of values, and the size. -/
def calcSizeItems (text : List Char) : Except Stop (Nat × Nat) := calcLoop abi (orderOf text) (itemsOf text) 0 0

/-- `MP_OBJ_SMALL_INT_VALUE(struct_calcsize(fmt))` -/
def structCalcsize (text : List Char) : Except Stop Int := do
  let (_, size) ← calcSizeItems abi text
  return newSmallInt abi.toConfig size

variable {abi}

/-! ## unpack, unpack_from -/

/-- A read of `n` bytes. -/
def load (buf : List UInt8) (p n : Nat) : Except Stop (List UInt8) :=
  if n = 0 ∨ p + n ≤ buf.length then .ok (slice buf p n) else .error .outside

/-- The string at an address. -/
def loadStr (buf : Buffer) (address : Nat) : Except Stop (List UInt8) :=
  if buf.address ≤ address ∧ 0 ∈ buf.data.drop (address - buf.address) then
    .ok ((buf.data.drop (address - buf.address)).takeWhile (· ≠ 0))
  else .error .outside

variable (abi) in
/-- `MP_ALIGN(p - p_base, align)` for `@`. -/
def aligned (structType : Char) (p base align : Nat) : Nat :=
  if structType = '@' then abi.word (base + alignUp abi (abi.word (2 ^ abi.wordBits + p - base)) align) else p

variable (abi) in
/-- `mp_binary_get_val`: the value, and where the next one begins. -/
def getVal (structType valType : Char) (buf : Buffer) (base p : Nat) : Except Stop (Val × Nat) := do
  let (size, align) ← raises (getSize abi structType valType)
  let p := aligned abi structType p base align
  let next := abi.word (p + size)
  let src ← load buf.data p size
  let val := getInt (isSigned valType) (isBig abi structType) src
  if valType = 'O' then return (.object (uword abi.toConfig val), next)
  else if valType = 'S' then return (.str (← loadStr buf (uword abi.toConfig val)), next)
  else if valType = 'e' ∨ valType = 'f' ∨ valType = 'd' then
    return (.float valType (val % (2 ^ (8 * size) : Nat)).toNat, next)
  else return (intVal valType val, next)

/-- `res->items[i++] = item`, of a tuple with so many slots. -/
def push (slots : Nat) (res : List Val) (item : Val) : Except Stop (List Val) :=
  if res.length < slots then .ok (res ++ [item]) else .error .outside

variable (abi) in
/-- `while (cnt--)` of `struct_unpack_from`. -/
def unpackVals (slots : Nat) (fmtType code : Char) (buf : Buffer) (base : Nat) : Nat → Nat → List Val → Except Stop (Nat × List Val)
  | 0, p, res => .ok (p, res)
  | cnt + 1, p, res => do
    let (item, p) ← getVal abi fmtType code buf base p
    unpackVals slots fmtType code buf base cnt p (← push slots res item)

/-- The loop of `struct_unpack_from`. At the end of the format it reads the zero there. -/
def unpackLoop (host : Host abi) (slots numItems : Nat) (fmtType : Char) (buf : Buffer) (base : Nat) :
    List Item → Nat → List Val → Except Stop (List Val)
  | [], p, res =>
    if res.length < numItems then do
      let (item, _) ← getVal abi fmtType '\x00' buf base p
      push slots res item
    else .ok res
  | it :: fmt, p, res =>
    if res.length < numItems then do
      let cnt ← it.count abi
      if it.code = 'x' then unpackLoop host slots numItems fmtType buf base fmt (abi.word (p + cnt)) res
      else if it.code = 's' then do
        if !host.allocates cnt then throw (.raise .memoryError)
        let data ← load buf.data p cnt
        unpackLoop host slots numItems fmtType buf base fmt (abi.word (p + cnt)) (← push slots res (.bytes data))
      else do
        let (p, res) ← unpackVals abi slots fmtType it.code buf base cnt p res
        unpackLoop host slots numItems fmtType buf base fmt p res
    else .ok res

/-- `mp_obj_new_tuple(n, NULL)`: the slots there is memory for behind its two words. -/
def newTuple (host : Host abi) (n : Nat) : Except Stop Nat :=
  let bytes := abi.word (2 * abi.wordBytes + abi.wordBytes * n)
  if n = 0 then .ok 0
  else if !host.allocates bytes then .error (.raise .memoryError)
  else if bytes < 2 * abi.wordBytes then .error .outside
  else .ok ((bytes - 2 * abi.wordBytes) / abi.wordBytes)

def bufferTooSmall : Stop := .raise (.valueError "buffer too small")

variable (abi) in
/-- An offset from the start of a buffer of `len` bytes; a negative one is from its end. -/
def offsetIn (len : Nat) (offset : Int) : Except Stop Nat :=
  if offset < 0 then
    let offset := abi.sword (len + offset)
    if offset < 0 then .error bufferTooSmall else .ok offset.toNat
  else .ok offset.toNat

variable (abi) in
/-- `p + n > end_p`, `p` being `offset` bytes behind the start of the buffer. -/
def tooSmall (buf : Buffer) (offset n : Nat) : Bool := abi.word (buf.address + offset + n) > buf.address + buf.data.length

/-- `struct.unpack` and `struct.unpack_from`; `args` are those behind the buffer. -/
def structUnpackFrom (host : Host abi) (text : List Char) (buf : Buffer) (args : List (Arg abi)) : Except Stop (List Val) := do
  if args.length > 1 then throw (.raise (.typeError "function expected at most 3 arguments"))
  let (numItems, totalSz) ← calcSizeItems abi text
  let slots ← newTuple host numItems
  let offset ← match args with
    | [] => .ok 0
    | arg :: _ => do offsetIn abi buf.data.length (← raises (objGetInt arg))
  if tooSmall abi buf offset totalSz then throw bufferTooSmall
  unpackLoop host slots numItems (orderOf text) buf offset (itemsOf text) offset []

/-! ## pack, pack_into -/

/-- A run that writes to a buffer. -/
abbrev Write (α : Type) := Prog (List UInt8) Stop α

/-- `memcpy` of bytes to `p`. -/
def memcpy (p : Nat) (bytes : List UInt8) : Write Unit := fun buf =>
  if bytes = [] ∨ p + bytes.length ≤ buf.length then (.ok (), put buf p bytes) else (.error .outside, buf)

/-- `memset` of `n` bytes at `p` to zero. -/
def memzero (p n : Nat) : Write Unit := fun buf =>
  if n = 0 ∨ p + n ≤ buf.length then (.ok (), put buf p (List.replicate n 0)) else (.error .outside, buf)

/-- `mp_binary_set_val`: where the next value goes. -/
def setVal (host : Host abi) (structType valType : Char) (arg : Arg abi) (base p : Nat) : Write Nat := do
  let (size, align) ← Prog.ofExcept (raises (getSize abi structType valType))
  let p := aligned abi structType p base align
  memcpy p (← Prog.ofExcept (raises (valBytes host (isBig abi structType) valType size arg)))
  return abi.word (p + size)

/-- `while (cnt-- && i < n_args)`. -/
def packVals (host : Host abi) (fmtType code : Char) (base : Nat) : Nat → Nat → List (Arg abi) → Write (Nat × List (Arg abi))
  | 0, p, args => pure (p, args)
  | _ + 1, p, [] => pure (p, [])
  | cnt + 1, p, arg :: args => do packVals host fmtType code base cnt (← setVal host fmtType code arg base p) args

/-- `mp_get_buffer_raise` -/
def getBuffer : Arg abi → Except Stop (List UInt8)
  | .buffer data => .ok data
  | _ => .error (.raise (.typeError "object with buffer protocol required"))

/-- The loop of `struct_pack_into_internal`. -/
def packLoop (host : Host abi) (fmtType : Char) (base : Nat) : List Item → Nat → List (Arg abi) → Write Unit
  | _, _, [] => pure ()
  | [], _, _ => pure ()
  | it :: fmt, p, arg :: args => do
    let cnt ← Prog.ofExcept (it.count abi)
    if it.code = 'x' then
      memzero p cnt
      packLoop host fmtType base fmt (abi.word (p + cnt)) (arg :: args)
    else if it.code = 's' then
      let data ← Prog.ofExcept (getBuffer arg)
      memcpy p (data.take cnt)
      memzero (abi.word (p + (data.take cnt).length)) (cnt - (data.take cnt).length)
      packLoop host fmtType base fmt (abi.word (p + cnt)) args
    else
      let (p, args) ← packVals host fmtType it.code base cnt p (arg :: args)
      packLoop host fmtType base fmt p args

/-- `MP_OBJ_FUN_ARGS_MAX` -/
def funArgsMax : Nat := 0xffff

def tooManyArgs : Stop := .raise (.typeError "function expected at most 65535 arguments")

variable (abi) in
/-- The bytes `vstr_init_len` allocates: one more than asked for, and one at least. -/
def vstrAlloc (len : Nat) : Nat := max 1 (abi.word (len + 1))

/-- `struct.pack` -/
def structPack (host : Host abi) (text : List Char) (args : List (Arg abi)) : Except Stop (List UInt8) := do
  if args.length + 1 > funArgsMax then throw tooManyArgs
  let size := uword abi.toConfig (← structCalcsize abi text)
  if !host.allocates (vstrAlloc abi size) then throw (.raise .memoryError)
  let vstr := (List.range (vstrAlloc abi size)).map host.junk
  match (do memzero 0 size; packLoop host (orderOf text) 0 (itemsOf text) 0 args : Write Unit) vstr with
  | (.ok (), vstr) => return vstr.take size
  | (.error e, _) => throw e

/-- `struct.pack_into`; the buffer is left as it is where the run stops. -/
def structPackInto (host : Host abi) (text : List Char) (address : Nat) (offset : Arg abi) (args : List (Arg abi)) : Write Unit := do
  if args.length + 3 > funArgsMax then Prog.throw tooManyArgs
  let data ← Prog.get
  let offset ← Prog.ofExcept (do offsetIn abi data.length (← raises (objGetInt offset)))
  let sz ← Prog.ofExcept (structCalcsize abi text)
  if tooSmall abi ⟨address, data⟩ offset (uword abi.toConfig sz) then Prog.throw bufferTooSmall
  packLoop host (orderOf text) offset (itemsOf text) offset args

end PythonUltra.Py.Modstruct
