/-
  PythonUltra.Py.CallArgs — flattening `*` and `**` operands into one argument array
  (mp_call_prepare_args_n_kw_var in py/runtime.c).

  Objects are a parameter (`Values`): which are tuples or lists, what the others yield,
  what len() hints, the table of a dict, the keys and items of another mapping, which keys
  are strings. The argument array of a call is taken apart into its operands (`CallVar`);
  a keyword operand with key MP_OBJ_NULL is a `**` operand.

  The new array is what has been written to it and its allocation; every write is at
  args2_len. A write at or past the allocation, an assert that fails, and what C leaves
  undefined (a shift by 32 or more of the 32-bit star_args, a size below zero) end the call
  in a failure of their own, apart from the TypeError.
-/

import Mathlib.Data.List.ReduceOption
import Mathlib.Data.Nat.Bitwise

namespace PythonUltra.Py

structure Values (κ : Type) where
  /-- The items of a tuple or list. -/
  items : κ → Option (List κ)
  /-- `mp_obj_len_maybe`. -/
  len : κ → Option Int
  /-- What any other iterable yields. -/
  iter : κ → List κ
  /-- The table of a dict, with its holes. -/
  slots : κ → Option (List (Option (κ × κ)))
  /-- What the keys() of any other mapping yields. -/
  keys : κ → List κ
  getitem : κ → κ → κ
  isQstr : κ → Bool
  /-- A str that is not interned. -/
  isStr : κ → Bool
  isBytes : κ → Bool
  /-- The qstr of the text of a str or bytes object. -/
  intern : κ → κ
  len_items : ∀ x l, items x = some l → len x = some (l.length : Int)

structure CallVar (κ : Type) where
  fn : κ
  self : Option κ
  args : List κ
  kws : List (Option κ × κ)
  starArgs : Nat

inductive Failure where
  | typeError
  | assertFailed
  | overflow
  | undefined
  deriving DecidableEq, Repr

/-- `args2`, up to `args2_len`, and `args2_alloc`. -/
structure Args2 (κ : Type) where
  buf : List κ
  alloc : Nat
  deriving DecidableEq, Repr

/-- `mp_call_args_t`. -/
structure CallArgs (κ : Type) where
  fn : κ
  args : List κ
  nArgs : Nat
  nKw : Nat
  nAlloc : Nat
  deriving DecidableEq, Repr

namespace CallVar

variable {κ : Type} (v : Values κ)

/-- `mp_obj_str_intern_checked`, for what is not a qstr. -/
def checkKey (key : κ) : Except Failure κ :=
  if v.isQstr key then .ok key
  else if v.isStr key || v.isBytes key then .ok (v.intern key)
  else .error .typeError

/-- `args2[args2_len++] = item`. -/
def push (a : Args2 κ) (item : κ) : Except Failure (Args2 κ) :=
  if a.buf.length < a.alloc then .ok { a with buf := a.buf ++ [item] } else .error .overflow

/-- A copy of items behind the assert that there is room for them. -/
def copy (a : Args2 κ) (items : List κ) : Except Failure (Args2 κ) :=
  if a.buf.length + items.length ≤ a.alloc then .ok { a with buf := a.buf ++ items } else .error .assertFailed

/-- The array doubled if `left` more items would not leave a slot free. -/
def reserve (a : Args2 κ) (left : Nat) : Args2 κ :=
  if a.buf.length + left ≥ a.alloc then { a with alloc := a.alloc * 2 } else a

/-- The positional operands from the `i`th on. -/
def copyPos (nArgs starArgs : Nat) : Nat → List κ → Args2 κ → Except Failure (Args2 κ)
  | _, [], a => .ok a
  | i, arg :: rest, a => do
    let a ←
      if starArgs.testBit i then
        match v.items arg with
        | some items => copy a items
        | none => (v.iter arg).foldlM (fun a item => push (reserve a (nArgs - i)) item) a
      else copy a [arg]
    copyPos nArgs starArgs (i + 1) rest a

/-- A key and its value. -/
def pushPair (a : Args2 κ) (key value : κ) : Except Failure (Args2 κ) := do
  let a ← push a key
  push a value

/-- A slot of a dict's table. -/
def copySlot (a : Args2 κ) : Option (κ × κ) → Except Failure (Args2 κ)
  | some (key, value) => do
    let key ← checkKey v key
    pushPair a key value
  | none => .ok a

/-- A key of another mapping. -/
def copyEntry (m : κ) (a : Args2 κ) (key : κ) : Except Failure (Args2 κ) := do
  let a := reserve a 1
  let key ← checkKey v key
  pushPair a key (v.getitem m key)

/-- One keyword operand. -/
def copyKw (a : Args2 κ) : Option κ × κ → Except Failure (Args2 κ)
  | (none, value) =>
    match v.slots value with
    | some slots =>
      if a.buf.length + 2 * slots.reduceOption.length ≤ a.alloc then
        slots.foldlM (copySlot v) a
      else .error .assertFailed
    | none => (v.keys value).foldlM (copyEntry v value) a
  | (some key, value) =>
    if a.buf.length + 2 ≤ a.alloc then pushPair a key value else .error .assertFailed

/-- `list_len`: the operands with a length, less the place each has in `n_args`. -/
def listLen (starArgs : Nat) : Nat → List κ → Int
  | _, [] => 0
  | i, arg :: rest =>
    (if starArgs.testBit i then ((v.len arg).map (· - 1)).getD 0 else 0) + listLen starArgs (i + 1) rest

/-- `kw_dict_len`. -/
def kwDictLen : List (Option κ × κ) → Int
  | [] => 0
  | (none, value) :: rest =>
    ((v.slots value).map fun slots => (slots.reduceOption.length : Int) - 1).getD 0 + kwDictLen rest
  | (some _, _) :: rest => kwDictLen rest

/-- `2 * (n_kw + kw_dict_len)`. -/
def kwRoom (c : CallVar κ) : Int := 2 * (c.kws.length + kwDictLen v c.kws)

/-- The first `args2_alloc`. -/
def firstAlloc (c : CallVar κ) : Int :=
  if c.starArgs = 0 then 1 + c.args.length + kwRoom v c
  else 1 + c.args.length + listLen v c.starArgs 0 c.args + kwRoom v c

def copySelf (a : Args2 κ) : Option κ → Except Failure (Args2 κ)
  | some self => push a self
  | none => .ok a

/-- The positional operands, with a star among them or not. -/
def copyArgs (c : CallVar κ) (a : Args2 κ) : Except Failure (Args2 κ) :=
  if c.starArgs = 0 then copy a c.args else copyPos v c.args.length c.starArgs 0 c.args a

/-- "ensure there is still enough room for kw args". -/
def ensureKwRoom (c : CallVar κ) (a : Args2 κ) : Args2 κ :=
  if a.buf.length + kwRoom v c > a.alloc then { a with alloc := (a.buf.length + kwRoom v c).toNat } else a

def prepareArgs (c : CallVar κ) : Except Failure (CallArgs κ) :=
  if c.starArgs ≠ 0 ∧ 32 < c.args.length then .error .undefined
  else if firstAlloc v c < 0 then .error .undefined
  else do
    let a ← copySelf ⟨[], (firstAlloc v c).toNat⟩ c.self
    let a ← copyArgs v c a
    let nArgs := a.buf.length
    let a ← c.kws.foldlM (copyKw v) (ensureKwRoom v c a)
    return ⟨c.fn, a.buf, nArgs, (a.buf.length - nArgs) / 2, a.alloc⟩

end CallVar

end PythonUltra.Py
