/-
  PythonUltra.Py.Map — mp_map_t, the hash table behind dicts, modules, classes and
  instances (py/map.c).

  Objects are a parameter (`Objects`): what mp_obj_equal and the hash say of them, which
  are interned strings (qstr) and which other strings, with what is assumed of these.
  Object pointers are compared with `=`. MP_OBJ_NULL and MP_OBJ_SENTINEL as a key are the
  empty and the deleted slot; MP_OBJ_NULL as a value is `none`. A pointer to a slot is its
  position, NULL is `none`.

  `lookup` and `rehash` call each other and the probe loop has no bound, so all three take
  fuel; the outer `none` is fuel that ran out. The port sets neither
  MICROPY_OPT_MAP_LOOKUP_CACHE nor MICROPY_PY_COLLECTIONS_ORDEREDDICT, so there is no
  cache and an ordered map is only looked up in.
-/

import PythonUltra.Lib.Probe

namespace PythonUltra.Py

open PythonUltra.Lib.Probe

/-- Objects as keys. -/
structure Objects (κ : Type) where
  /-- `mp_obj_equal`. -/
  equal : κ → κ → Bool
  isQstr : κ → Bool
  /-- The exact type is str and the string is not interned. -/
  isStr : κ → Bool
  qstrHash : κ → Nat
  /-- `mp_unary_op(MP_UNARY_OP_HASH, _)`. -/
  unaryHash : κ → Nat
  equal_equiv : Equivalence fun a b => equal a b = true
  unaryHash_eq : ∀ a b, equal a b = true → unaryHash a = unaryHash b
  /-- A qstr and an equal string that is not interned hash alike. -/
  qstrHash_eq : ∀ a, isQstr a = true → qstrHash a = unaryHash a
  /-- A string is interned once. -/
  qstr_unique : ∀ a b, isQstr a = true → isQstr b = true → equal a b = true → a = b

/-- The kinds of lookup of a map. -/
inductive LookupKind where
  | lookup
  | addIfNotFound
  | removeIfFound
  deriving DecidableEq, Repr

/-- `hash_allocation_sizes`. -/
def hashAllocationSizes : List Nat :=
  [0, 2, 4, 6, 8, 10, 12, 17, 23, 29, 37, 47, 59, 73, 97, 127, 167, 223, 293, 389, 521, 691, 919, 1223, 1627, 2161,
    3229, 4831, 7243, 10861, 16273, 24407, 36607, 54907]

def getHashAllocGreaterOrEqualTo (x : Nat) : Nat :=
  match hashAllocationSizes.find? (· ≥ x) with
  | some size => size
  | none => (x + x / 2) ||| 1

theorem le_getHashAlloc (x : Nat) : x ≤ getHashAllocGreaterOrEqualTo x := by
  unfold getHashAllocGreaterOrEqualTo
  split
  · rename_i size h
    simpa using List.find?_some h
  · have := Nat.left_le_or (n := x + x / 2) (m := 1)
    omega

variable {κ ν : Type}

structure MpMapElem (κ ν : Type) where
  key : Slot κ
  value : Option ν
  deriving DecidableEq, Repr

structure MpMap (κ ν : Type) where
  alloc : Nat
  used : Nat
  allKeysAreQstrs : Bool
  isFixed : Bool
  isOrdered : Bool
  table : List (MpMapElem κ ν)
  deriving DecidableEq, Repr

namespace MpMap

/-- A slot as `m_new0` leaves it. -/
def blank : MpMapElem κ ν := ⟨.empty, none⟩

def init (n : Nat) : MpMap κ ν where
  alloc := n
  used := 0
  allKeysAreQstrs := true
  isFixed := false
  isOrdered := false
  table := List.replicate n blank

def clear (m : MpMap κ ν) : MpMap κ ν :=
  { m with alloc := 0, used := 0, allKeysAreQstrs := true, isFixed := false, table := [] }

def keys (m : MpMap κ ν) : List (Slot κ) := m.table.map MpMapElem.key

def elem (m : MpMap κ ν) (pos : Nat) : MpMapElem κ ν := m.table.getD pos blank

/-- `slot->key = key`. -/
def setKey (m : MpMap κ ν) (pos : Nat) (key : Slot κ) : MpMap κ ν :=
  { m with table := m.table.set pos { m.elem pos with key := key } }

/-- `slot->value = value`; the slot is not NULL. -/
def store (m : MpMap κ ν) (slot : Option Nat) (value : Option ν) : MpMap κ ν :=
  match slot with
  | some pos => { m with table := m.table.set pos { m.elem pos with value := value } }
  | none => m

variable [DecidableEq κ] (o : Objects κ)

/-- `index` put into a slot. -/
def occupy (m : MpMap κ ν) (pos : Nat) (index : κ) : MpMap κ ν :=
  { m with
    used := m.used + 1, allKeysAreQstrs := m.allKeysAreQstrs && o.isQstr index,
    table := m.table.set pos ⟨.live index, none⟩ }

/-- The element of a slot deleted; its value stays for the caller. -/
def vacate (m : MpMap κ ν) (pos : Nat) : MpMap κ ν :=
  { m.setKey pos (if (m.elem ((pos + 1) % m.alloc)).key = .empty then .empty else .deleted) with used := m.used - 1 }

/-- `compare_only_ptrs`, or nothing where the lookup fails straight away. -/
def compareOnlyPtrs (m : MpMap κ ν) (index : κ) (kind : LookupKind) : Option Bool :=
  if m.allKeysAreQstrs then
    if o.isQstr index then some true
    else if o.isStr index then some false
    else if kind ≠ .addIfNotFound then none
    else some true
  else some false

/-- The test for the key of a slot. -/
def same (ptrs : Bool) (key index : κ) : Bool := key = index || (!ptrs && o.equal key index)

/-- The linear search of an ordered map. -/
def findOrdered (m : MpMap κ ν) (index : κ) (ptrs : Bool) : Option Nat :=
  (m.table.take m.used).findIdx? fun e => match e.key with
    | .live key => same o ptrs key index
    | _ => false

/-- What one turn of the probe loop comes to. -/
inductive Turn (κ ν : Type) where
  | done (m : MpMap κ ν) (slot : Option Nat)
  | next (pos : Nat) (avail : Option Nat)
  | rehash

/-- The end of a turn: on to the next slot, or around. -/
def advance (m : MpMap κ ν) (index : κ) (kind : LookupKind) (pos start : Nat) (avail : Option Nat) : Turn κ ν :=
  if (pos + 1) % m.alloc = start then
    if kind = .addIfNotFound then
      match avail with
      | some slot => .done (m.occupy o slot index) (some slot)
      | none => .rehash
    else .done m none
  else .next ((pos + 1) % m.alloc) avail

def turn (m : MpMap κ ν) (index : κ) (kind : LookupKind) (ptrs : Bool) (pos start : Nat) (avail : Option Nat) :
    Turn κ ν :=
  match (m.elem pos).key with
  | .empty =>
    if kind = .addIfNotFound then .done (m.occupy o (avail.getD pos) index) (some (avail.getD pos)) else .done m none
  | .deleted => m.advance o index kind pos start (avail.or (some pos))
  | .live key =>
    if same o ptrs key index then .done (if kind = .removeIfFound then m.vacate pos else m) (some pos)
    else m.advance o index kind pos start avail

def hash (index : κ) : Nat := if o.isQstr index then o.qstrHash index else o.unaryHash index

mutual

def rehash : Nat → MpMap κ ν → Option (MpMap κ ν)
  | 0, _ => none
  | fuel + 1, m =>
    let alloc := getHashAllocGreaterOrEqualTo (m.alloc + 1)
    m.table.foldlM (fun map old => match old.key with
        | .live key => do
          let (map, slot) ← lookup fuel map key .addIfNotFound
          return map.store slot old.value
        | _ => some map)
      { m with alloc := alloc, used := 0, allKeysAreQstrs := true, table := List.replicate alloc blank }

/-- The probe loop of `mp_map_lookup`. -/
def probe : Nat → MpMap κ ν → κ → LookupKind → Bool → Nat → Nat → Option Nat → Option (MpMap κ ν × Option Nat)
  | 0, _, _, _, _, _, _, _ => none
  | fuel + 1, m, index, kind, ptrs, pos, start, avail =>
    match m.turn o index kind ptrs pos start avail with
    | .done m slot => some (m, slot)
    | .next pos avail => probe fuel m index kind ptrs pos start avail
    | .rehash => do
      let m ← rehash fuel m
      let pos := hash o index % m.alloc
      probe fuel m index kind ptrs pos pos none

def lookup : Nat → MpMap κ ν → κ → LookupKind → Option (MpMap κ ν × Option Nat)
  | 0, _, _, _ => none
  | fuel + 1, m, index, kind =>
    match m.compareOnlyPtrs o index kind with
    | none => some (m, none)
    | some ptrs =>
      if m.isOrdered then some (m, m.findOrdered o index ptrs)
      else if m.alloc = 0 then
        if kind = .addIfNotFound then do
          let m ← rehash fuel m
          let pos := hash o index % m.alloc
          probe fuel m index kind ptrs pos pos none
        else some (m, none)
      else
        let pos := hash o index % m.alloc
        probe fuel m index kind ptrs pos pos none

end

/-! ## Callers -/

/-- A call of the map functions as their callers make it. After a lookup that adds, the
caller stores a value through the pointer it got. -/
inductive Op (κ ν : Type) where
  | lookup (k : κ)
  | add (k : κ) (value : Option ν)
  | remove (k : κ)
  | clear

/-- What a caller sees: NULL, or the value behind the pointer. -/
abbrev Seen (ν : Type) := Option (Option ν)

def seen (m : MpMap κ ν) (slot : Option Nat) : Seen ν := slot.map fun pos => (m.elem pos).value

def exec (fuel : Nat) (m : MpMap κ ν) : Op κ ν → Option (MpMap κ ν × Seen ν)
  | .lookup k => do
    let (m, slot) ← lookup o fuel m k .lookup
    return (m, m.seen slot)
  | .add k value => do
    let (m, slot) ← lookup o fuel m k .addIfNotFound
    return (m.store slot value, m.seen slot)
  | .remove k => do
    let (m, slot) ← lookup o fuel m k .removeIfFound
    return (m, m.seen slot)
  | .clear => some (m.clear, none)

/-- A run of calls, and what its callers see. -/
def run (fuel : Nat) : MpMap κ ν → List (Op κ ν) → Option (MpMap κ ν × List (Seen ν))
  | m, [] => some (m, [])
  | m, op :: ops => do
    let (m, out) ← exec o fuel m op
    let (m, outs) ← run fuel m ops
    return (m, out :: outs)

end MpMap

end PythonUltra.Py
