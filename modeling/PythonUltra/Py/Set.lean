/-
  PythonUltra.Py.Set — mp_set_t, the hash table behind sets (py/map.c).

  As in `Py.Map`: MP_OBJ_NULL and MP_OBJ_SENTINEL in the table are the empty and the
  deleted slot, a returned MP_OBJ_NULL is `none`, and what may loop takes fuel. A set
  compares with mp_obj_equal throughout.
-/

import PythonUltra.Py.Map

namespace PythonUltra.Py

open PythonUltra.Lib.Probe

variable {κ : Type}

/-- The kinds of lookup of a set: `mp_map_lookup_kind_t`, read bit by bit. -/
inductive SetLookupKind where
  | lookup
  | addIfNotFound
  | removeIfFound
  | addIfNotFoundOrRemoveIfFound
  deriving DecidableEq, Repr

/-- `lookup_kind & MP_MAP_LOOKUP_ADD_IF_NOT_FOUND`. -/
def SetLookupKind.adds : SetLookupKind → Bool
  | .addIfNotFound => true
  | .addIfNotFoundOrRemoveIfFound => true
  | _ => false

/-- `lookup_kind & MP_MAP_LOOKUP_REMOVE_IF_FOUND`. -/
def SetLookupKind.removes : SetLookupKind → Bool
  | .removeIfFound => true
  | .addIfNotFoundOrRemoveIfFound => true
  | _ => false

structure MpSet (κ : Type) where
  alloc : Nat
  used : Nat
  table : List (Slot κ)
  deriving DecidableEq, Repr

namespace MpSet

def init (n : Nat) : MpSet κ := ⟨n, 0, List.replicate n .empty⟩

def clear (_ : MpSet κ) : MpSet κ := ⟨0, 0, []⟩

/-- `*avail_slot = index`. -/
def occupy (s : MpSet κ) (pos : Nat) (index : κ) : MpSet κ :=
  { s with used := s.used + 1, table := s.table.set pos (.live index) }

/-- The element of a slot deleted. -/
def vacate (s : MpSet κ) (pos : Nat) : MpSet κ :=
  let slot := match slotAt s.table ((pos + 1) % s.alloc) with
    | .empty => .empty
    | _ => .deleted
  { s with used := s.used - 1, table := s.table.set pos slot }

variable (o : Objects κ)

/-- What one turn of the probe loop comes to. -/
inductive Turn (κ : Type) where
  | done (s : MpSet κ) (elem : Option κ)
  | next (pos : Nat) (avail : Option Nat)
  | rehash

/-- The end of a turn: on to the next slot, or around. -/
def advance (s : MpSet κ) (index : κ) (kind : SetLookupKind) (pos start : Nat) (avail : Option Nat) : Turn κ :=
  if (pos + 1) % s.alloc = start then
    if kind.adds then
      match avail with
      | some slot => .done (s.occupy slot index) (some index)
      | none => .rehash
    else .done s none
  else .next ((pos + 1) % s.alloc) avail

def turn (s : MpSet κ) (index : κ) (kind : SetLookupKind) (pos start : Nat) (avail : Option Nat) : Turn κ :=
  match slotAt s.table pos with
  | .empty => if kind.adds then .done (s.occupy (avail.getD pos) index) (some index) else .done s none
  | .deleted => s.advance index kind pos start (avail.or (some pos))
  | .live elem =>
    if o.equal elem index then .done (if kind.removes then s.vacate pos else s) (some elem)
    else s.advance index kind pos start avail

mutual

def rehash : Nat → MpSet κ → Option (MpSet κ)
  | 0, _ => none
  | fuel + 1, s =>
    let alloc := getHashAllocGreaterOrEqualTo (s.alloc + 1)
    s.table.foldlM (fun set old => match old with
        | .live elem => do
          let (set, _) ← lookup fuel set elem .addIfNotFound
          return set
        | _ => some set)
      ⟨alloc, 0, List.replicate alloc .empty⟩

/-- The probe loop of `mp_set_lookup`. -/
def probe : Nat → MpSet κ → κ → SetLookupKind → Nat → Nat → Option Nat → Option (MpSet κ × Option κ)
  | 0, _, _, _, _, _, _ => none
  | fuel + 1, s, index, kind, pos, start, avail =>
    match s.turn o index kind pos start avail with
    | .done s elem => some (s, elem)
    | .next pos avail => probe fuel s index kind pos start avail
    | .rehash => do
      let s ← rehash fuel s
      let pos := o.unaryHash index % s.alloc
      probe fuel s index kind pos pos none

def lookup : Nat → MpSet κ → κ → SetLookupKind → Option (MpSet κ × Option κ)
  | 0, _, _, _ => none
  | fuel + 1, s, index, kind =>
    if s.alloc = 0 then
      if kind.adds then do
        let s ← rehash fuel s
        let pos := o.unaryHash index % s.alloc
        probe fuel s index kind pos pos none
      else some (s, none)
    else
      let pos := o.unaryHash index % s.alloc
      probe fuel s index kind pos pos none

end

/-- The first filled slot from `pos` on, `n` slots being left. -/
def firstFilled (s : MpSet κ) : Nat → Nat → Option (Nat × κ)
  | 0, _ => none
  | n + 1, pos => match slotAt s.table pos with
    | .live elem => some (pos, elem)
    | _ => firstFilled s n (pos + 1)

def removeFirst (s : MpSet κ) : MpSet κ × Option κ :=
  match s.firstFilled s.alloc 0 with
  | some (pos, elem) => (s.vacate pos, some elem)
  | none => (s, none)

/-! ## Callers -/

inductive Op (κ : Type) where
  | lookup (kind : SetLookupKind) (index : κ)
  | removeFirst
  | clear

def exec (fuel : Nat) (s : MpSet κ) : Op κ → Option (MpSet κ × Option κ)
  | .lookup kind index => lookup o fuel s index kind
  | .removeFirst => some s.removeFirst
  | .clear => some (s.clear, none)

/-- A run of calls, and the objects they return. -/
def run (fuel : Nat) : MpSet κ → List (Op κ) → Option (MpSet κ × List (Option κ))
  | s, [] => some (s, [])
  | s, op :: ops => do
    let (s, out) ← exec o fuel s op
    let (s, outs) ← run fuel s ops
    return (s, out :: outs)

end MpSet

end PythonUltra.Py
