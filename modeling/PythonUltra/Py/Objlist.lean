/-
  PythonUltra.Py.Objlist — lists (py/objlist.c), each operation beside what Python's does.

  A list object is a block of `alloc` slots, the first `len` of them in use. An access
  outside of the block is a fault. `gc` answers the requests for memory.
-/

import PythonUltra.Lib.Prog
import PythonUltra.Py.Sequence

open PythonUltra.Lib PythonUltra.Lib.CMem PythonUltra.Lib.Splice PythonUltra.Py.Slice PythonUltra.Py.Sequence

namespace PythonUltra.Py.Objlist

variable {α : Type}

/-! ## The code -/

/-- `mp_obj_list_t`. A slot is `none` when it is MP_OBJ_NULL, or nothing was stored in it. -/
structure ListObj (α : Type) where
  alloc : Nat
  len : Nat
  items : List (Option α)
  deriving DecidableEq

/-- `LIST_MIN_ALLOC` -/
def listMinAlloc : Nat := 4

/-- What a list is extended or assigned from: itself, or the items of another object. -/
inductive Source (α : Type) where
  | self
  | block (len : Nat) (items : List (Option α))

def Source.len (self : ListObj α) : Source α → Nat
  | .self => self.len
  | .block len _ => len

/-- The slots behind the pointer of `mp_obj_get_array`, with the list's own block as it is
now. A block that moved is no longer there. -/
def Source.read (moved : Bool) (len : Nat) : Source α → List (Option α) → Option (List (Option α))
  | .self, items => if moved then none else readAt items 0 len
  | .block _ items, _ => readAt items 0 len

/-- A change of the slots. -/
def onItems (f : List (Option α) → Option (List (Option α))) : Prog (ListObj α) Err Unit := fun self =>
  match f self.items with
  | none => (.error .fault, self)
  | some items => (.ok (), { self with items })

def loadItem (i : Nat) : Prog (ListObj α) Err (Option α) := fun self =>
  match self.items[i]? with
  | none => (.error .fault, self)
  | some item => (.ok item, self)

/-- `self->items = m_renew(mp_obj_t, self->items, self->alloc, num)`: whether the block moved. -/
def renewItems (gc : Allocator) (num : Nat) : Prog (ListObj α) Err Bool := fun self =>
  match gc.renew (4 * self.alloc) (sizeT (4 * num)) with
  | .refused => (.error .memoryError, self)
  | .inPlace => (.ok false, { self with items := resize none self.items (sizeT (4 * num) / 4) })
  | .moved => (.ok true, { self with items := resize none self.items (sizeT (4 * num) / 4) })

/-- The new block, of `num` slots, is the list's. -/
def realloc (gc : Allocator) (num : Nat) : Prog (ListObj α) Err Bool := do
  let moved ← renewItems gc num
  Prog.modify fun self => { self with alloc := num }
  return moved

def setLen (len : Nat) : Prog (ListObj α) Err Unit := Prog.modify fun self => { self with len }

/-- `mp_obj_list_append` -/
def mpObjListAppend (gc : Allocator) (arg : α) : Prog (ListObj α) Err Unit := do
  let self ← Prog.get
  if self.len ≥ self.alloc then
    let _ ← realloc gc (self.alloc * 2)
    onItems fun items => wipe none items (self.len + 1) (self.alloc * 2)
  onItems fun items => writeAt items self.len [some arg]
  setLen (self.len + 1)

/-- `list_extend_from_iter`, of an iterator that gives these items. -/
def listExtendFromIter (gc : Allocator) : List α → Prog (ListObj α) Err Unit
  | [] => pure ()
  | item :: items => do
    mpObjListAppend gc item
    listExtendFromIter gc items

/-- `list_extend`, from a list -/
def listExtend (gc : Allocator) (arg : Source α) : Prog (ListObj α) Err Unit := do
  let self ← Prog.get
  let argLen := arg.len self
  if self.len + argLen > self.alloc then
    let _ ← realloc gc (self.len + argLen + 4)
    onItems fun items => wipe none items (self.len + argLen) (self.len + argLen + 4)
  onItems fun items => do
    let cells ← arg.read false argLen items
    writeAt items self.len cells
  setLen (self.len + argLen)

/-- `list_pop` -/
def listPop (gc : Allocator) (index : Option IntObj) : Prog (ListObj α) Err (Option α) := do
  let self ← Prog.get
  if self.len = 0 then Prog.throw (.indexError "pop from empty list")
  else
    let index ← Prog.ofExcept (mpGetIndex "list" self.len ((index.map IntObj.value).getD (-1)))
    let ret ← loadItem index
    let len := self.len - 1
    setLen len
    onItems fun items => move items index (index + 1) (len - index)
    onItems fun items => writeAt items len [none]
    if self.alloc > listMinAlloc ∧ self.alloc > 2 * len then
      let _ ← realloc gc (self.alloc / 2)
      return ret
    else return ret

/-- `list_subscr`: `del self[slice]` -/
def listDelSlice (slice : SliceObj) : Prog (ListObj α) Err Unit := do
  let self ← Prog.get
  let slice ← Prog.ofExcept (fastIndexes none self.len slice)
  let len := (self.len + (slice.start - slice.stop)).toNat
  onItems fun items => mpSeqReplaceSliceNoGrow items self.len slice.start.toNat slice.stop.toNat (fun items => readAt items 0 0) 0 1
  onItems fun items => wipe none items len self.len
  setLen len

/-- `list_subscr`: `self[slice] = value` -/
def listSetSlice (gc : Allocator) (slice : SliceObj) (value : Source α) : Prog (ListObj α) Err Unit := do
  let self ← Prog.get
  let valueLen := value.len self
  let slice ← Prog.ofExcept (fastIndexes none self.len slice)
  let lenAdj := valueLen - (slice.stop - slice.start)
  let len := (self.len + lenAdj).toNat
  if lenAdj > 0 then
    let moved ← (if len > self.alloc then realloc gc len else pure false)
    onItems fun items => mpSeqReplaceSliceGrowInplace items self.len slice.start.toNat slice.stop.toNat
      (value.read moved valueLen) valueLen lenAdj.toNat 1
  else
    onItems fun items => mpSeqReplaceSliceNoGrow items self.len slice.start.toNat slice.stop.toNat (value.read false valueLen) valueLen 1
    onItems fun items => wipe none items len self.len
  setLen len

/-- Where `list_insert` puts an item: its own index logic. -/
def insertIndex (len : Nat) (index : Int) : Nat :=
  let index := if index < 0 then i32 (index + len) else index
  let index := if index < 0 then 0 else index.toNat
  if index > len then len else index

/-- `for (mp_int_t i = ..; i > index; i--)` -/
def shiftUp (index : Nat) : Nat → Prog (ListObj α) Err Unit
  | 0 => pure ()
  | i + 1 =>
    if i + 1 > index then do
      let item ← loadItem i
      onItems fun items => writeAt items (i + 1) [item]
      shiftUp index i
    else pure ()

/-- `list_insert` -/
def listInsert (gc : Allocator) (mpConstNone : α) (idx : IntObj) (obj : α) : Prog (ListObj α) Err Unit := do
  let self ← Prog.get
  let index := insertIndex self.len idx.smallIntValue
  mpObjListAppend gc mpConstNone
  shiftUp index self.len
  onItems fun items => writeAt items index [some obj]

/-- A turn of `list_reverse`. -/
def swapItems (len i : Nat) : Prog (ListObj α) Err Unit := do
  let a ← loadItem i
  let b ← loadItem (len - i - 1)
  onItems fun items => writeAt items i [b]
  onItems fun items => writeAt items (len - i - 1) [a]

/-- `list_reverse` -/
def listReverse : Prog (ListObj α) Err Unit := do
  let self ← Prog.get
  (List.range (self.len / 2)).foldlM (fun _ i => swapItems self.len i) ()

/-- `list_clear` -/
def listClear (gc : Allocator) : Prog (ListObj α) Err Unit := do
  setLen 0
  let _ ← realloc gc listMinAlloc
  onItems fun items => wipe none items 0 listMinAlloc

/-- `list_new`, then `mp_obj_list_init` -/
def listNew (gc : Allocator) (n : Nat) : Except Err (ListObj α) := do
  let alloc := if n < listMinAlloc then listMinAlloc else n
  let items ← mNew gc none 4 alloc
  match wipe none items n alloc with
  | none => .error .fault
  | some items => .ok ⟨alloc, n, items⟩

/-- `list_copy`, by `mp_obj_new_list` -/
def listCopy (gc : Allocator) (self : ListObj α) : Except Err (ListObj α) := do
  let o ← listNew gc self.len
  match (do let cells ← readAt self.items 0 self.len; writeAt o.items 0 cells : Option (List (Option α))) with
  | none => .error .fault
  | some items => .ok { o with items }

/-! ## Python's lists -/

/-- Where Python puts an item that is inserted. -/
def pyInsertPlace (len : Nat) (index : Int) : Nat := (max 0 (min (len : Int) (SliceObj.fromEnd len index))).toNat

def pyInsert (l : List α) (index : Int) (x : α) : List α := l.take (pyInsertPlace l.length index) ++ x :: l.drop (pyInsertPlace l.length index)

/-- none: raises IndexError. -/
def pyPop (l : List α) (index : Int) : Option (List α) := (place l.length index).map fun i => l.take i ++ l.drop (i + 1)

/-- `l[slice] = v`, of a slice with a step of 1. -/
def pyReplace (l : List α) (slice : SliceObj) (v : List α) : Option (List α) :=
  if slice.stride = 1 then some (l.take (slice.first l.length).toNat ++ v ++ l.drop (fastStop slice l.length).toNat) else none

end PythonUltra.Py.Objlist
