/-
  PythonUltra.Py.Growth — maps and sets whose tables cannot grow (py/map.c).

  The functions of `Py.Map` and `Py.Set` once more, as programs over the container they
  change, with an allocator: `fits n` says that a table of `n` slots can be had. Where it
  cannot, m_new0 and m_renew raise MemoryError and leave the container as it is at that
  point. Ordered maps are modelled with MICROPY_PY_COLLECTIONS_ORDEREDDICT. `fuel` bounds
  the probing, as in `Py.Map`.

  mp_map_rehash allocates before it edits the map, and a map that is rehashed has room for
  all its keys, so a hashed map is left as it was (`wp_lookupIn`). The growth of an
  ordered map and mp_set_rehash set `alloc` first (`failed_insert_intact_iff`).
-/

import PythonUltra.Lib.Prog
import PythonUltra.Py.MapRuns
import PythonUltra.Py.SetRefine

namespace PythonUltra.Py

open PythonUltra.Lib PythonUltra.Lib.Prog PythonUltra.Lib.Probe

variable {κ ν : Type}

/-- How a call ends without returning: MemoryError, or the fuel has run out. -/
inductive Raise where
  | memoryError
  | fuel
  deriving DecidableEq, Repr

/-- The memory for a table of `n` slots. -/
def allocate {σ : Type} (fits : Nat → Bool) (n : Nat) : Prog σ Raise Unit :=
  if fits n then pure () else throw .memoryError

/-! ## Maps -/

namespace MpMap

/-- The element in place `i` of an ordered map taken out; its value is put after the end. -/
def takeOut (m : MpMap κ ν) (i : Nat) : MpMap κ ν :=
  { m with
    used := m.used - 1,
    table := m.table.take i ++ (m.table.take m.used).drop (i + 1) ++ ⟨.empty, (m.elem i).value⟩ :: m.table.drop m.used }

/-- The growth of an ordered map. -/
def growOrdered (fits : Nat → Bool) : Prog (MpMap κ ν) Raise Unit := do
  modify fun m => { m with alloc := m.alloc + 4 }
  allocate fits (← get).alloc
  modify fun m => { m with table := m.table.take m.used ++ List.replicate (m.alloc - m.used) blank }

variable [DecidableEq κ] (o : Objects κ) (fits : Nat → Bool)

/-- The branch of `mp_map_lookup` for an ordered map. -/
def lookupOrdered (index : κ) (kind : LookupKind) (ptrs : Bool) : Prog (MpMap κ ν) Raise (Option Nat) := do
  match (← get).findOrdered o index ptrs with
  | some i =>
    if kind = .removeIfFound then
      modify fun m => m.takeOut i
      return some (← get).used
    else return some i
  | none =>
    if kind ≠ .addIfNotFound then return none
    else
      if (← get).used = (← get).alloc then growOrdered fits
      let pos := (← get).used
      modify fun m => m.occupy o pos index
      return some pos

mutual

/-- `mp_map_rehash`. -/
def rehashIn : Nat → Prog (MpMap κ ν) Raise Unit
  | 0 => throw .fuel
  | fuel + 1 => do
    let old ← get
    let alloc := getHashAllocGreaterOrEqualTo (old.alloc + 1)
    allocate fits alloc
    modify fun m => { m with alloc := alloc, used := 0, allKeysAreQstrs := true, table := List.replicate alloc blank }
    old.table.forM fun elem => match elem.key with
      | .live key => do
        let slot ← lookupIn fuel key .addIfNotFound
        modify fun m => m.store slot elem.value
      | _ => return

def probeIn : Nat → κ → LookupKind → Bool → Nat → Nat → Option Nat → Prog (MpMap κ ν) Raise (Option Nat)
  | 0, _, _, _, _, _, _ => throw .fuel
  | fuel + 1, index, kind, ptrs, pos, start, avail => do
    match (← get).turn o index kind ptrs pos start avail with
    | .done m slot =>
      modify fun _ => m
      return slot
    | .next pos avail => probeIn fuel index kind ptrs pos start avail
    | .rehash =>
      rehashIn fuel
      let pos := hash o index % (← get).alloc
      probeIn fuel index kind ptrs pos pos none

/-- `mp_map_lookup`. -/
def lookupIn : Nat → κ → LookupKind → Prog (MpMap κ ν) Raise (Option Nat)
  | 0, _, _ => throw .fuel
  | fuel + 1, index, kind => do
    let m ← get
    match m.compareOnlyPtrs o index kind with
    | none => return none
    | some ptrs =>
      if m.isOrdered then lookupOrdered o fits index kind ptrs
      else
        if m.alloc = 0 then
          if kind = .addIfNotFound then
            rehashIn fuel
            let pos := hash o index % (← get).alloc
            probeIn fuel index kind ptrs pos pos none
          else return none
        else
          let pos := hash o index % m.alloc
          probeIn fuel index kind ptrs pos pos none

end

/-- A call as its caller makes it, and what the caller sees. -/
def execIn (fuel : Nat) : Op κ ν → Prog (MpMap κ ν) Raise (Seen ν)
  | .lookup k => do
    let slot ← lookupIn o fits fuel k .lookup
    return (← get).seen slot
  | .add k value => do
    let slot ← lookupIn o fits fuel k .addIfNotFound
    let out := (← get).seen slot
    modify fun m => m.store slot value
    return out
  | .remove k => do
    let slot ← lookupIn o fits fuel k .removeIfFound
    return (← get).seen slot
  | .clear => do
    modify clear
    return none

end MpMap

/-! ## Sets -/

namespace MpSet

variable (o : Objects κ) (fits : Nat → Bool)

mutual

/-- `mp_set_rehash`. -/
def rehashIn : Nat → Prog (MpSet κ) Raise Unit
  | 0 => throw .fuel
  | fuel + 1 => do
    let old ← get
    let alloc := getHashAllocGreaterOrEqualTo (old.alloc + 1)
    modify fun s => { s with alloc := alloc, used := 0 }
    allocate fits alloc
    modify fun s => { s with table := List.replicate alloc .empty }
    old.table.forM fun slot => match slot with
      | .live elem => do let _ ← lookupIn fuel elem .addIfNotFound
      | _ => return

def probeIn : Nat → κ → SetLookupKind → Nat → Nat → Option Nat → Prog (MpSet κ) Raise (Option κ)
  | 0, _, _, _, _, _ => throw .fuel
  | fuel + 1, index, kind, pos, start, avail => do
    match (← get).turn o index kind pos start avail with
    | .done s elem =>
      modify fun _ => s
      return elem
    | .next pos avail => probeIn fuel index kind pos start avail
    | .rehash =>
      rehashIn fuel
      let pos := o.unaryHash index % (← get).alloc
      probeIn fuel index kind pos pos none

/-- `mp_set_lookup`. -/
def lookupIn : Nat → κ → SetLookupKind → Prog (MpSet κ) Raise (Option κ)
  | 0, _, _ => throw .fuel
  | fuel + 1, index, kind => do
    if (← get).alloc = 0 then
      if kind.adds then
        rehashIn fuel
        let pos := o.unaryHash index % (← get).alloc
        probeIn fuel index kind pos pos none
      else return none
    else
      let pos := o.unaryHash index % (← get).alloc
      probeIn fuel index kind pos pos none

end

def execIn (fuel : Nat) : Op κ → Prog (MpSet κ) Raise (Option κ)
  | .lookup kind index => lookupIn o fits fuel index kind
  | .removeFirst => do
    let s ← get
    modify fun _ => s.removeFirst.1
    return s.removeFirst.2
  | .clear => do
    modify clear
    return none

end MpSet

/-! ## A map that has room does not grow -/

namespace MpMap

/-- `alloc` is the size of the table, and `used` the number of its keys. -/
structure Sized (m : MpMap κ ν) : Prop where
  length : m.table.length = m.alloc
  used : m.used = size m.keys

/-- At most one key more, in the same table. -/
structure Next (m m' : MpMap κ ν) : Prop where
  sized : m'.Sized
  alloc : m'.alloc = m.alloc
  isOrdered : m'.isOrdered = m.isOrdered
  keys : size m'.keys ≤ size m.keys + 1

section

variable {m : MpMap κ ν} {i : Nat}

theorem Sized.store (hm : m.Sized) (slot : Option Nat) (value : Option ν) : (m.store slot value).Sized := by
  cases slot with
  | none => exact hm
  | some i =>
    have hkeys : (m.store (some i) value).keys = m.keys.set i (m.elem i).key :=
      keys_set (e := { m.elem i with value := value }) rfl
    have hsame : m.keys.set i (m.elem i).key = m.keys := by
      by_cases hi : i < m.keys.length
      · rw [← slotAt_keys, ← getElem_eq_slotAt hi, List.set_getElem_self]
      · exact List.set_eq_of_length_le (by omega)
    refine ⟨List.length_set.trans hm.length, ?_⟩
    rw [hkeys, hsame]
    exact hm.used

theorem store_keys (hm : m.Sized) (slot : Option Nat) (value : Option ν) :
    size (m.store slot value).keys = size m.keys := by
  rw [← (hm.store slot value).used, ← hm.used]
  cases slot <;> rfl

theorem store_alloc (slot : Option Nat) (value : Option ν) :
    (m.store slot value).alloc = m.alloc ∧ (m.store slot value).isOrdered = m.isOrdered := by
  cases slot <;> exact ⟨rfl, rfl⟩

theorem next_occupy {index : κ} {o : Objects κ} (hm : m.Sized) (hv : Vacancy (hash o) m.keys index i) :
    Next m (m.occupy o i index) := by
  have hkeys : (m.occupy o i index).keys = m.keys.set i (.live index) := keys_set (e := ⟨.live index, none⟩) rfl
  have hsize := size_put (k := index) hv.lt hv.free
  rw [← hkeys] at hsize
  refine ⟨⟨List.length_set.trans hm.length, ?_⟩, rfl, rfl, by omega⟩
  show m.used + 1 = _
  rw [hsize, hm.used]

variable [DecidableEq κ]

theorem next_vacate {k : κ} (hm : m.Sized) (hi : i < m.alloc) (hlive : (m.elem i).key = .live k) : Next m (m.vacate i) := by
  obtain ⟨x, htable, hx, _⟩ := m.vacate_table i
  have hkeys : (m.vacate i).keys = m.keys.set i x := keys_set htable
  have hi' : i < m.keys.length := by
    rw [length_keys, hm.length]
    exact hi
  have hsize := size_drop (x := x) hi' (by rw [slotAt_keys, hlive]; rfl) hx
  rw [← hkeys] at hsize
  refine ⟨⟨?_, ?_⟩, rfl, rfl, by omega⟩
  · rw [htable, List.length_set]
    exact hm.length
  · show m.used - 1 = _
    rw [hsize, hm.used]

end

section

variable {o : Objects κ} {m : MpMap κ ν} {index : κ} {kind : LookupKind} {ptrs : Bool} {d : Nat} {avail : Option Nat}

/-- The slots passed before turn `d`, whatever their keys. -/
abbrev Passed (o : Objects κ) (m : MpMap κ ν) (index : κ) (d : Nat) (avail : Option Nat) : Prop :=
  Search (hash o) m.keys (fun _ _ => False) index d avail

/-- The end of a turn: a key put in at most, the next turn, or a table that is full. -/
theorem advance_sized (hm : m.Sized) (hd : d < m.alloc) (hs : Passed o m index (d + 1) avail) :
    (∃ m' slot, m.advance o index kind ((hash o index + d) % m.alloc) (hash o index % m.alloc) avail = .done m' slot ∧
      Next m m') ∨
    (d + 1 < m.alloc ∧ m.advance o index kind ((hash o index + d) % m.alloc) (hash o index % m.alloc) avail =
      .next ((hash o index + (d + 1)) % m.alloc) avail) ∨
    (kind = .addIfNotFound ∧ size m.keys = m.alloc ∧
      m.advance o index kind ((hash o index + d) % m.alloc) (hash o index % m.alloc) avail = .rehash) := by
  have hlen : m.keys.length = m.alloc := by rw [length_keys]; exact hm.length
  have hpos : ((hash o index + d) % m.alloc + 1) % m.alloc = (hash o index + (d + 1)) % m.alloc := by
    rw [Nat.mod_add_mod, Nat.add_assoc]
  have haround := around_iff (hash o index) hd
  unfold advance
  split
  · rename_i hround
    have hall := haround.mp hround
    rw [hall] at hs
    split
    · rename_i hkind
      cases avail with
      | some p => exact .inl ⟨_, _, rfl, next_occupy hm (hs.vacancy (by omega))⟩
      | none =>
        have hfull := Search.full (r := fun _ _ => False) (by rw [hlen]; exact hs)
        exact .inr (.inr ⟨hkind, hfull.trans hlen, rfl⟩)
    · exact .inl ⟨_, _, rfl, hm, rfl, rfl, by omega⟩
  · rename_i hround
    rw [haround] at hround
    exact .inr (.inl ⟨by omega, by rw [hpos]⟩)

variable [DecidableEq κ]

theorem turn_sized (kind : LookupKind) (ptrs : Bool) (hm : m.Sized) (hd : d < m.alloc) (hs : Passed o m index d avail) :
    (∃ m' slot, m.turn o index kind ptrs ((hash o index + d) % m.alloc) (hash o index % m.alloc) avail = .done m' slot ∧
      Next m m') ∨
    (d + 1 < m.alloc ∧ ∃ avail', Passed o m index (d + 1) avail' ∧
      m.turn o index kind ptrs ((hash o index + d) % m.alloc) (hash o index % m.alloc) avail =
        .next ((hash o index + (d + 1)) % m.alloc) avail') ∨
    (kind = .addIfNotFound ∧ size m.keys = m.alloc ∧
      m.turn o index kind ptrs ((hash o index + d) % m.alloc) (hash o index % m.alloc) avail = .rehash) := by
  have hlen : m.keys.length = m.alloc := by rw [length_keys]; exact hm.length
  have hslot : slotAt m.keys ((hash o index + d) % m.keys.length) = (m.elem ((hash o index + d) % m.alloc)).key := by
    rw [slotAt_keys, hlen]
  have hpos : (hash o index + d) % m.alloc < m.alloc := Nat.mod_lt _ (by omega)
  have hadvance : ∀ {avail'}, Passed o m index (d + 1) avail' →
      (∃ m' slot, m.advance o index kind ((hash o index + d) % m.alloc) (hash o index % m.alloc) avail' = .done m' slot ∧
        Next m m') ∨
      (d + 1 < m.alloc ∧ ∃ avail'', Passed o m index (d + 1) avail'' ∧
        m.advance o index kind ((hash o index + d) % m.alloc) (hash o index % m.alloc) avail' =
          .next ((hash o index + (d + 1)) % m.alloc) avail'') ∨
      (kind = .addIfNotFound ∧ size m.keys = m.alloc ∧
        m.advance o index kind ((hash o index + d) % m.alloc) (hash o index % m.alloc) avail' = .rehash) := by
    intro avail' hs'
    rcases advance_sized hm hd hs' with h | ⟨hlt, h⟩ | h
    · exact .inl h
    · exact .inr (.inl ⟨hlt, avail', hs', h⟩)
    · exact .inr (.inr h)
  unfold turn
  cases hkey : (m.elem ((hash o index + d) % m.alloc)).key with
  | empty =>
    rw [hkey] at hslot
    left
    dsimp only
    split
    · refine ⟨_, _, rfl, next_occupy hm ?_⟩
      cases avail with
      | some p => exact hs.vacancy (by omega)
      | none =>
        have hv := hs.vacancy_empty (by omega) hslot
        rw [hlen] at hv
        exact hv
    · exact ⟨_, _, rfl, hm, rfl, rfl, by omega⟩
  | deleted =>
    rw [hkey] at hslot
    have hs' := hs.pass hslot
    rw [hlen] at hs'
    exact hadvance hs'
  | live k =>
    rw [hkey] at hslot
    dsimp only
    split
    · left
      refine ⟨_, _, rfl, ?_⟩
      split
      · exact next_vacate hm hpos hkey
      · exact ⟨hm, rfl, rfl, by omega⟩
    · exact hadvance (hs.skip hslot id)

variable {fits : Nat → Bool}

/-- A map with a free slot is not rehashed. -/
theorem probeIn_room (hm : m.Sized) (hroom : size m.keys < m.alloc) (fuel : Nat) :
    ∀ {d avail}, d < m.alloc → Passed o m index d avail →
      wp (probeIn o fits fuel index kind ptrs ((hash o index + d) % m.alloc) (hash o index % m.alloc) avail)
        (fun _ m' => Next m m') (fun e _ => e = .fuel) m := by
  induction fuel with
  | zero =>
    intro d avail _ _
    exact rfl
  | succ fuel ih =>
    intro d avail hd hs
    rw [probeIn, wp_bind, wp_get]
    rcases turn_sized kind ptrs hm hd hs with ⟨m', slot, hturn, hnext⟩ | ⟨hlt, avail', hs', hturn⟩ | ⟨_, hfull, _⟩
    · rw [hturn]
      exact hnext
    · rw [hturn]
      exact ih hlt hs'
    · omega

theorem lookupIn_room (hm : m.Sized) (hord : m.isOrdered = false) (hroom : size m.keys < m.alloc) (fuel : Nat) :
    wp (lookupIn o fits fuel index kind) (fun _ m' => Next m m') (fun e _ => e = .fuel) m := by
  cases fuel with
  | zero => exact rfl
  | succ fuel =>
    rw [lookupIn, wp_bind, wp_get]
    split
    · exact ⟨hm, rfl, rfl, by omega⟩
    · rw [hord, if_neg Bool.false_ne_true, if_neg (by omega)]
      exact probeIn_room hm hroom fuel (d := 0) (by omega) Search.start

/-! ## A map that cannot grow -/

/-- The keys of the old table put into the new one: it has room for them all. -/
theorem wp_refill (fuel : Nat) (rest : List (MpMapElem κ ν)) : ∀ {m : MpMap κ ν}, m.Sized → m.isOrdered = false →
    size m.keys + rest.length < m.alloc →
    wp (rest.forM fun elem => match elem.key with
        | .live key => do
          let slot ← lookupIn o fits fuel key .addIfNotFound
          modify fun m => m.store slot elem.value
        | _ => return)
      (fun _ m' => m'.Sized ∧ m'.alloc = m.alloc ∧ m'.isOrdered = false ∧ size m'.keys < m'.alloc)
      (fun e _ => e = .fuel) m := by
  induction rest with
  | nil =>
    intro m hm hord hroom
    exact ⟨hm, rfl, hord, hroom⟩
  | cons elem rest ih =>
    intro m hm hord hroom
    rw [List.length_cons] at hroom
    rw [List.forM_eq_forM, List.forM_cons]
    cases elem.key with
    | empty => exact wp_bind.mpr (ih hm hord (by omega))
    | deleted => exact wp_bind.mpr (ih hm hord (by omega))
    | live key =>
      refine wp_bind.mpr (wp_then (lookupIn_room hm hord (by omega) fuel) (fun slot m₁ hnext => ?_) fun _ _ h => h)
      have hkeys := store_keys hnext.sized slot elem.value
      obtain ⟨halloc, hord₁⟩ := store_alloc (m := m₁) slot elem.value
      rw [hnext.alloc] at halloc
      rw [hnext.isOrdered, hord] at hord₁
      have hle := hnext.keys
      rw [wp_modify]
      refine wp_mono (ih (hnext.sized.store slot elem.value) hord₁ ?_) (fun _ m' h => ?_) fun _ _ h => h
      · rw [hkeys, halloc]
        omega
      · rw [halloc] at h
        exact h

/-- The MemoryError of a rehash finds the map as it was. -/
def Kept (m : MpMap κ ν) (e : Raise) (m' : MpMap κ ν) : Prop := e = .memoryError → m' = m

theorem wp_rehashIn (hm : m.Sized) (hord : m.isOrdered = false) (fuel : Nat) :
    wp (rehashIn o fits fuel) (fun _ m' => m'.Sized ∧ m'.isOrdered = false ∧ size m'.keys < m'.alloc) (Kept m) m := by
  cases fuel with
  | zero =>
    intro h
    cases h
  | succ fuel =>
    have hgrow : m.alloc + 1 ≤ getHashAllocGreaterOrEqualTo (m.alloc + 1) := le_getHashAlloc _
    rw [rehashIn, wp_bind, wp_get, wp_bind]
    unfold allocate
    split
    · rw [wp_pure, wp_bind, wp_modify]
      have hkeys : ∀ n, (List.replicate n (blank : MpMapElem κ ν)).map MpMapElem.key = List.replicate n .empty := by
        intro n
        rw [List.map_replicate]
        rfl
      refine wp_mono (wp_refill fuel m.table ⟨List.length_replicate, ?_⟩ hord ?_) (fun _ m' h => ⟨h.1, h.2.2⟩) fun e _ h => ?_
      · show 0 = size ((List.replicate _ blank).map MpMapElem.key)
        rw [hkeys, size_replicate]
      · show size ((List.replicate _ blank).map MpMapElem.key) + _ < _
        rw [hkeys, size_replicate, hm.length, Nat.zero_add]
        exact hgrow
      · intro he
        rw [h] at he
        cases he
    · exact fun _ => rfl

theorem wp_regrown {n : MpMap κ ν} (hm : m.Sized ∧ m.isOrdered = false ∧ size m.keys < m.alloc) (fuel : Nat) :
    wp (probeIn o fits fuel index kind ptrs (hash o index % m.alloc) (hash o index % m.alloc) none)
      (fun _ m' => m'.Sized ∧ m'.isOrdered = false) (Kept n) m := by
  obtain ⟨hsized, hord, hroom⟩ := hm
  refine wp_mono (probeIn_room hsized hroom fuel (d := 0) (by omega) Search.start) (fun _ m' h => ?_) fun e m' h he => ?_
  · exact ⟨h.sized, h.isOrdered.trans hord⟩
  · rw [h] at he
    cases he

theorem wp_probeIn (hm : m.Sized) (hord : m.isOrdered = false) (fuel : Nat) :
    ∀ {d avail}, d < m.alloc → Passed o m index d avail →
      wp (probeIn o fits fuel index kind ptrs ((hash o index + d) % m.alloc) (hash o index % m.alloc) avail)
        (fun _ m' => m'.Sized ∧ m'.isOrdered = false) (Kept m) m := by
  induction fuel with
  | zero =>
    intro d avail _ _ h
    cases h
  | succ fuel ih =>
    intro d avail hd hs
    rw [probeIn, wp_bind, wp_get]
    rcases turn_sized kind ptrs hm hd hs with ⟨m', slot, hturn, hnext⟩ | ⟨hlt, avail', hs', hturn⟩ | ⟨_, _, hturn⟩
    · rw [hturn]
      exact ⟨hnext.sized, hnext.isOrdered.trans hord⟩
    · rw [hturn]
      exact ih hlt hs'
    · rw [hturn]
      exact wp_then (wp_rehashIn hm hord fuel) (fun _ m₁ h => wp_regrown h fuel) fun _ _ h => h

theorem wp_lookupIn (hm : m.Sized) (hord : m.isOrdered = false) (fuel : Nat) :
    wp (lookupIn o fits fuel index kind) (fun _ m' => m'.Sized ∧ m'.isOrdered = false) (Kept m) m := by
  cases fuel with
  | zero =>
    intro h
    cases h
  | succ fuel =>
    rw [lookupIn, wp_bind, wp_get]
    split
    · exact ⟨hm, hord⟩
    rw [hord, if_neg Bool.false_ne_true]
    split
    · split
      · exact wp_then (wp_rehashIn hm hord fuel) (fun _ m₁ h => wp_regrown h fuel) fun _ _ h => h
      · exact ⟨hm, hord⟩
    · exact wp_probeIn hm hord fuel (d := 0) (by omega) Search.start

end

/-! ## Ordered maps -/

section

variable {m : MpMap κ ν}

/-- The table of an ordered map holds its elements. -/
structure Fitted (m : MpMap κ ν) : Prop where
  length : m.table.length = m.alloc
  used : m.used ≤ m.alloc
  isOrdered : m.isOrdered = true

/-- MemoryError leaves an ordered map with an `alloc` that is not the size of its table. -/
def Overstated (m m' : MpMap κ ν) : Prop := m'.table = m.table ∧ m'.alloc = m.alloc + 4

theorem wp_growOrdered (hm : m.Fitted) (hfull : m.used = m.alloc) (fits : Nat → Bool) :
    wp (growOrdered fits) (fun _ m' => m'.Fitted ∧ m'.used < m'.alloc) (fun _ m' => Overstated m m') m := by
  unfold growOrdered allocate
  rw [wp_bind, wp_modify, wp_bind, wp_get, wp_bind]
  split
  · refine ⟨⟨?_, ?_, hm.isOrdered⟩, ?_⟩
    · show (m.table.take m.used ++ List.replicate (m.alloc + 4 - m.used) blank).length = m.alloc + 4
      have := hm.length
      rw [List.length_append, List.length_take, List.length_replicate]
      omega
    · show m.used ≤ m.alloc + 4
      omega
    · show m.used < m.alloc + 4
      omega
  · exact ⟨rfl, rfl⟩

variable [DecidableEq κ] {o : Objects κ} {fits : Nat → Bool} {index : κ} {kind : LookupKind} {ptrs : Bool}

omit [DecidableEq κ] in
theorem fitted_occupy (hm : m.Fitted) (hroom : m.used < m.alloc) : (m.occupy o m.used index).Fitted :=
  ⟨List.length_set.trans hm.length, hroom, hm.isOrdered⟩

omit [DecidableEq κ] in
theorem fitted_takeOut (hm : m.Fitted) {i : Nat} (hi : i < m.used) : (m.takeOut i).Fitted := by
  have hlen := hm.length
  have hle := hm.used
  refine ⟨?_, ?_, hm.isOrdered⟩
  · show (m.table.take i ++ (m.table.take m.used).drop (i + 1) ++ _ :: m.table.drop m.used).length = m.alloc
    simp only [List.length_append, List.length_take, List.length_drop, List.length_cons]
    omega
  · show m.used - 1 ≤ m.alloc
    omega

theorem wp_lookupOrdered (hm : m.Fitted) :
    wp (lookupOrdered o fits index kind ptrs) (fun _ m' => m'.Fitted) (fun _ m' => Overstated m m') m := by
  unfold lookupOrdered
  rw [wp_bind, wp_get]
  split
  · rename_i i hfind
    have hi : i < m.used := by
      obtain ⟨hi, _⟩ := List.findIdx?_eq_some_iff_getElem.mp hfind
      rw [List.length_take] at hi
      omega
    split
    · exact fitted_takeOut hm hi
    · exact hm
  · split
    · exact hm
    · refine wp_bind.mpr (wp_bind.mpr ?_)
      simp only [wp_get]
      split
      · rename_i hfull
        exact wp_then (wp_growOrdered hm hfull fits) (fun _ m₁ h => fitted_occupy h.1 h.2) fun _ _ h => h
      · exact fitted_occupy hm (Nat.lt_of_le_of_ne hm.used ‹_›)

end

/-! ## Memory that does not run out -/

section

variable [DecidableEq κ] {o : Objects κ}

/-- Where every table fits, a lookup is that of `Py.Map`. -/
def Agrees (o : Objects κ) (ν : Type) (fuel : Nat) : Prop :=
  ∀ (m m' : MpMap κ ν) index kind slot, m.isOrdered = false → lookup o fuel m index kind = some (m', slot) →
    m'.isOrdered = false ∧ lookupIn o (fun _ => true) fuel index kind m = (.ok slot, m')

theorem refill_of_fits {fuel : Nat} (hl : Agrees o ν fuel) (rest : List (MpMapElem κ ν)) :
    ∀ m m' : MpMap κ ν, m.isOrdered = false →
      rest.foldlM (fun map old => match old.key with
        | .live key => do
          let (map, slot) ← lookup o fuel map key .addIfNotFound
          return map.store slot old.value
        | _ => some map) m = some m' →
      m'.isOrdered = false ∧ (rest.forM fun elem => match elem.key with
        | .live key => do
          let slot ← lookupIn o (fun _ => true) fuel key .addIfNotFound
          modify fun m => m.store slot elem.value
        | _ => return : Prog (MpMap κ ν) Raise Unit) m = (.ok (), m') := by
  induction rest with
  | nil =>
    intro m m' hord h
    cases h
    exact ⟨hord, rfl⟩
  | cons elem rest ih =>
    intro m m' hord h
    rw [List.foldlM_cons] at h
    rw [List.forM_eq_forM, List.forM_cons]
    cases hkey : elem.key with
    | empty =>
      rw [hkey] at h
      exact ih m m' hord h
    | deleted =>
      rw [hkey] at h
      exact ih m m' hord h
    | live key =>
      rw [hkey] at h
      dsimp only at h
      rcases hlook : lookup o fuel m key .addIfNotFound with _ | ⟨m₁, slot⟩
      · rw [hlook] at h
        cases h
      · rw [hlook] at h
        obtain ⟨hord₁, hin⟩ := hl m m₁ key .addIfNotFound slot hord hlook
        have hstore : (m₁.store slot elem.value).isOrdered = false := by
          rw [(store_alloc slot elem.value).2]
          exact hord₁
        obtain ⟨hord', hrest⟩ := ih _ m' hstore h
        refine ⟨hord', ?_⟩
        have hstep : (do
            let slot ← lookupIn o (fun _ => true) fuel key .addIfNotFound
            modify fun m => m.store slot elem.value : Prog (MpMap κ ν) Raise Unit) m = (.ok (), m₁.store slot elem.value) := by
          rw [bind_of_ok hin]
          rfl
        dsimp only
        rw [bind_of_ok hstep]
        exact hrest

theorem rehash_of_fits {fuel : Nat} (hl : Agrees o ν fuel) {m m' : MpMap κ ν} (hord : m.isOrdered = false)
    (h : rehash o (fuel + 1) m = some m') :
    m'.isOrdered = false ∧ rehashIn o (fun _ => true) (fuel + 1) m = (.ok (), m') := by
  rw [rehash] at h
  rw [rehashIn]
  exact refill_of_fits hl m.table _ m' hord h

theorem turn_isOrdered {m m' : MpMap κ ν} {index : κ} {kind : LookupKind} {ptrs : Bool} {pos start : Nat}
    {avail slot : Option Nat} (h : m.turn o index kind ptrs pos start avail = .done m' slot) :
    m'.isOrdered = m.isOrdered := by
  have hadvance : ∀ avail, m.advance o index kind pos start avail = .done m' slot → m'.isOrdered = m.isOrdered := by
    intro avail h
    unfold advance at h
    split at h
    · split at h
      · cases avail with
        | none => cases h
        | some p =>
          cases h
          rfl
      · cases h
        rfl
    · cases h
  unfold turn at h
  split at h
  · split at h
    · cases h
      rfl
    · cases h
      rfl
  · exact hadvance _ h
  · split at h
    · cases h
      split
      · rfl
      · rfl
    · exact hadvance _ h

theorem lookup_of_fits (fuel : Nat) :
    (∀ m m' : MpMap κ ν, m.isOrdered = false → rehash o fuel m = some m' →
      m'.isOrdered = false ∧ rehashIn o (fun _ => true) fuel m = (.ok (), m')) ∧
    (∀ (m m' : MpMap κ ν) index kind ptrs pos start avail slot, m.isOrdered = false →
      probe o fuel m index kind ptrs pos start avail = some (m', slot) →
      m'.isOrdered = false ∧ probeIn o (fun _ => true) fuel index kind ptrs pos start avail m = (.ok slot, m')) ∧
    Agrees o ν fuel := by
  induction fuel with
  | zero =>
    refine ⟨fun m m' _ h => ?_, fun m m' index kind ptrs pos start avail slot _ h => ?_, fun m m' index kind slot _ h => ?_⟩
    · cases h
    · cases h
    · cases h
  | succ fuel ih =>
    obtain ⟨ihr, ihp, ihl⟩ := ih
    -- the search after a rehash, which the probe loop and a lookup in an empty table make alike
    have hregrown : ∀ (m m' : MpMap κ ν) index kind ptrs slot, m.isOrdered = false →
        ((rehash o fuel m).bind fun m => probe o fuel m index kind ptrs (hash o index % m.alloc) (hash o index % m.alloc) none) =
          some (m', slot) →
        m'.isOrdered = false ∧ (do
          rehashIn o (fun _ => true) fuel
          let pos := hash o index % (← get).alloc
          probeIn o (fun _ => true) fuel index kind ptrs pos pos none : Prog (MpMap κ ν) Raise (Option Nat)) m = (.ok slot, m') := by
      intro m m' index kind ptrs slot hord h
      obtain ⟨m₁, hrehash, hprobe⟩ := Option.bind_eq_some_iff.mp h
      obtain ⟨hord₁, hin⟩ := ihr m m₁ hord hrehash
      obtain ⟨hord', hprobe'⟩ := ihp m₁ m' index kind ptrs _ _ none slot hord₁ hprobe
      refine ⟨hord', ?_⟩
      rw [bind_of_ok hin]
      exact hprobe'
    refine ⟨fun m m' hord h => rehash_of_fits ihl hord h, fun m m' index kind ptrs pos start avail slot hord h => ?_,
      fun m m' index kind slot hord h => ?_⟩
    · rw [probe] at h
      rw [probeIn, get_bind]
      cases hturn : m.turn o index kind ptrs pos start avail with
      | done m₁ slot₁ =>
        rw [hturn] at h
        cases h
        exact ⟨(turn_isOrdered hturn).trans hord, rfl⟩
      | next pos avail =>
        rw [hturn] at h
        exact ihp m m' index kind ptrs pos start avail slot hord h
      | rehash =>
        rw [hturn] at h
        exact hregrown m m' index kind ptrs slot hord h
    · rw [lookup] at h
      rw [lookupIn, get_bind]
      cases hptrs : m.compareOnlyPtrs o index kind with
      | none =>
        rw [hptrs] at h
        cases h
        exact ⟨hord, rfl⟩
      | some ptrs =>
        rw [hptrs] at h
        dsimp only at h ⊢
        rw [hord, if_neg Bool.false_ne_true] at h ⊢
        split at h
        · rename_i hempty
          rw [if_pos hempty]
          split at h
          · rename_i hkind
            rw [if_pos hkind]
            exact hregrown m m' index kind ptrs slot hord h
          · rename_i hkind
            rw [if_neg hkind]
            cases h
            exact ⟨hord, rfl⟩
        · rename_i hempty
          rw [if_neg hempty]
          exact ihp m m' index kind ptrs _ _ none slot hord h

end

end MpMap

/-! ## Sets -/

namespace MpSet

section

variable {o : Objects κ} {s : MpSet κ} {index : κ} {kind : SetLookupKind} {fits : Nat → Bool}

/-- At most one element more, in the same table. -/
structure Next (o : Objects κ) (s s' : MpSet κ) : Prop where
  inv : s'.Inv o
  alloc : s'.alloc = s.alloc
  elems : size s'.table ≤ size s.table + 1

theorem Outcome.next {r : MpSet κ × Option κ} (hinv : s.Inv o) (h : Outcome o s index kind r) : Next o s r.1 := by
  cases h with
  | found => exact ⟨hinv, rfl, Nat.le_succ _⟩
  | missing => exact ⟨hinv, rfl, Nat.le_succ _⟩
  | added hk habs hv =>
    refine ⟨occupy_inv hinv habs hv, rfl, ?_⟩
    exact Nat.le_of_eq (size_put hv.lt hv.free)
  | @removed i k hk hi hlive heq =>
    have hvac := vacate_inv hinv hi hlive
    refine ⟨hvac, rfl, ?_⟩
    rw [← hvac.used, ← hinv.used]
    show s.used - 1 ≤ s.used + 1
    omega

/-- A set with a free slot is not rehashed. -/
theorem probeIn_room (hinv : s.Inv o) (hroom : size s.table < s.alloc) (fuel : Nat) :
    ∀ {d avail}, d < s.alloc → Search o.unaryHash s.table o.Eqv index d avail →
      wp (probeIn o fits fuel index kind ((o.unaryHash index + d) % s.alloc) (o.unaryHash index % s.alloc) avail)
        (fun _ s' => Next o s s') (fun e _ => e = .fuel) s := by
  induction fuel with
  | zero =>
    intro d avail _ _
    exact rfl
  | succ fuel ih =>
    intro d avail hd hs
    rw [probeIn, wp_bind, wp_get]
    rcases turn_cases hinv hd hs with ⟨r, hturn, hout⟩ | ⟨hlt, avail', hs', hturn⟩ | ⟨_, hfull, _⟩
    · rw [hturn]
      exact hout.next hinv
    · rw [hturn]
      exact ih hlt hs'
    · rw [← hinv.length] at hfull hroom
      have := hfull.full
      omega

theorem lookupIn_room (hinv : s.Inv o) (hroom : size s.table < s.alloc) (fuel : Nat) :
    wp (lookupIn o fits fuel index kind) (fun _ s' => Next o s s') (fun e _ => e = .fuel) s := by
  cases fuel with
  | zero => exact rfl
  | succ fuel =>
    rw [lookupIn, wp_bind, wp_get, if_neg (by omega)]
    exact probeIn_room hinv hroom fuel (d := 0) (by omega) Search.start

theorem wp_refill (fuel : Nat) (rest : List (Slot κ)) : ∀ {s : MpSet κ}, s.Inv o →
    size s.table + rest.length < s.alloc →
    wp (rest.forM fun slot => match slot with
        | .live elem => do let _ ← lookupIn o fits fuel elem .addIfNotFound
        | _ => return)
      (fun _ s' => s'.Inv o ∧ size s'.table < s'.alloc) (fun e _ => e = .fuel) s := by
  induction rest with
  | nil =>
    intro s hinv hroom
    exact ⟨hinv, hroom⟩
  | cons slot rest ih =>
    intro s hinv hroom
    rw [List.length_cons] at hroom
    rw [List.forM_eq_forM, List.forM_cons]
    cases slot with
    | empty => exact wp_bind.mpr (ih hinv (by omega))
    | deleted => exact wp_bind.mpr (ih hinv (by omega))
    | live elem =>
      refine wp_bind.mpr (wp_then (lookupIn_room hinv (by omega) fuel) (fun _ s₁ hnext => ?_) fun _ _ h => h)
      refine ih hnext.inv ?_
      have hle := hnext.elems
      rw [hnext.alloc]
      omega

/-- MemoryError leaves a set with an `alloc` that is not the size of its table. -/
def Overstated (s : MpSet κ) (e : Raise) (s' : MpSet κ) : Prop :=
  e = .memoryError → s'.table = s.table ∧ s.alloc < s'.alloc

theorem wp_rehashIn (hinv : s.Inv o) (fuel : Nat) :
    wp (rehashIn o fits fuel) (fun _ s' => s'.Inv o ∧ size s'.table < s'.alloc) (Overstated s) s := by
  cases fuel with
  | zero =>
    intro h
    cases h
  | succ fuel =>
    have hgrow : s.alloc + 1 ≤ getHashAllocGreaterOrEqualTo (s.alloc + 1) := le_getHashAlloc _
    rw [rehashIn, wp_bind, wp_get, wp_bind, wp_modify, wp_bind]
    unfold allocate
    split
    · rw [wp_pure, wp_bind, wp_modify]
      refine wp_mono (wp_refill fuel s.table (init_inv _) ?_) (fun _ s' h => h) fun e _ h he => ?_
      · rw [hinv.length]
        show size (List.replicate _ _) + s.alloc < _
        rw [size_replicate, Nat.zero_add]
        exact hgrow
      · rw [h] at he
        cases he
    · exact fun _ => ⟨rfl, hgrow⟩

theorem wp_regrown {t : MpSet κ} (hs : s.Inv o ∧ size s.table < s.alloc) (fuel : Nat) :
    wp (probeIn o fits fuel index kind (o.unaryHash index % s.alloc) (o.unaryHash index % s.alloc) none)
      (fun _ s' => s'.Inv o) (Overstated t) s := by
  obtain ⟨hinv, hroom⟩ := hs
  refine wp_mono (probeIn_room hinv hroom fuel (d := 0) (by omega) Search.start) (fun _ s' h => h.inv) fun e s' h he => ?_
  rw [h] at he
  cases he

theorem wp_probeIn (hinv : s.Inv o) (fuel : Nat) :
    ∀ {d avail}, d < s.alloc → Search o.unaryHash s.table o.Eqv index d avail →
      wp (probeIn o fits fuel index kind ((o.unaryHash index + d) % s.alloc) (o.unaryHash index % s.alloc) avail)
        (fun _ s' => s'.Inv o) (Overstated s) s := by
  induction fuel with
  | zero =>
    intro d avail _ _ h
    cases h
  | succ fuel ih =>
    intro d avail hd hs
    rw [probeIn, wp_bind, wp_get]
    rcases turn_cases hinv hd hs with ⟨r, hturn, hout⟩ | ⟨hlt, avail', hs', hturn⟩ | ⟨_, _, hturn⟩
    · rw [hturn]
      exact (hout.next hinv).inv
    · rw [hturn]
      exact ih hlt hs'
    · rw [hturn]
      exact wp_then (wp_rehashIn hinv fuel) (fun _ s₁ h => wp_regrown h fuel) fun _ _ h => h

theorem wp_lookupIn (hinv : s.Inv o) (fuel : Nat) :
    wp (lookupIn o fits fuel index kind) (fun _ s' => s'.Inv o) (Overstated s) s := by
  cases fuel with
  | zero =>
    intro h
    cases h
  | succ fuel =>
    rw [lookupIn, wp_bind, wp_get]
    split
    · split
      · exact wp_then (wp_rehashIn hinv fuel) (fun _ s₁ h => wp_regrown h fuel) fun _ _ h => h
      · exact hinv
    · exact wp_probeIn hinv fuel (d := 0) (by omega) Search.start

theorem wp_execIn (hinv : s.Inv o) (fuel : Nat) (op : Op κ) :
    wp (execIn o fits fuel op) (fun _ s' => s'.Inv o) (Overstated s) s := by
  cases op with
  | lookup kind index => exact wp_lookupIn hinv fuel
  | clear => exact init_inv 0
  | removeFirst =>
    show (s.removeFirst.1).Inv o
    unfold removeFirst
    rcases firstFilled_spec s s.alloc 0 with ⟨i, k, hfirst, hi, hlive⟩ | ⟨hfirst, _⟩
    · rw [hfirst]
      exact vacate_inv hinv (by omega) hlive
    · rw [hfirst]
      exact hinv

end

end MpSet

namespace MpMap

variable [DecidableEq κ] {o : Objects κ} {fits : Nat → Bool} {m : MpMap κ ν}

/-- A map as its callers can have it. -/
def Whole (m : MpMap κ ν) : Prop := (m.isOrdered = false ∧ m.Sized) ∨ m.Fitted

omit [DecidableEq κ] in
theorem Whole.store (hm : m.Whole) (slot : Option Nat) (value : Option ν) : (m.store slot value).Whole := by
  obtain ⟨_, hord⟩ := store_alloc (m := m) slot value
  rcases hm with ⟨h, hs⟩ | hf
  · exact .inl ⟨hord.trans h, hs.store slot value⟩
  · refine .inr ?_
    cases slot with
    | none => exact hf
    | some i => exact ⟨List.length_set.trans hf.length, hf.used, hf.isOrdered⟩

omit [DecidableEq κ] in
theorem Whole.clear (hm : m.Whole) : m.clear.Whole := by
  rcases hm with ⟨h, _⟩ | hf
  · exact .inl ⟨h, rfl, rfl⟩
  · exact .inr ⟨rfl, Nat.le_refl 0, hf.isOrdered⟩

/-- What MemoryError leaves of a map. -/
def Raised (m : MpMap κ ν) (e : Raise) (m' : MpMap κ ν) : Prop :=
  e = .memoryError → if m.isOrdered then Overstated m m' else m' = m

theorem wp_lookupIn_whole (hm : m.Whole) (fuel : Nat) (index : κ) (kind : LookupKind) :
    wp (lookupIn o fits fuel index kind) (fun _ m' => m'.Whole) (Raised m) m := by
  rcases hm with ⟨hord, hs⟩ | hf
  · refine wp_mono (wp_lookupIn hs hord fuel) (fun _ m' h => .inl ⟨h.2, h.1⟩) fun e m' h he => ?_
    rw [hord]
    exact h he
  · cases fuel with
    | zero =>
      intro h
      cases h
    | succ fuel =>
      rw [lookupIn, wp_bind, wp_get]
      split
      · exact .inr hf
      rw [if_pos hf.isOrdered]
      refine wp_mono (wp_lookupOrdered hf) (fun _ m' h => .inr h) fun e m' h _ => ?_
      rw [if_pos hf.isOrdered]
      exact h

theorem wp_execIn (hm : m.Whole) (fuel : Nat) (op : Op κ ν) :
    wp (execIn o fits fuel op) (fun _ m' => m'.Whole) (Raised m) m := by
  cases op with
  | lookup k => exact wp_then (wp_lookupIn_whole hm fuel k .lookup) (fun _ m' h => h) fun _ _ h => h
  | add k value => exact wp_then (wp_lookupIn_whole hm fuel k .addIfNotFound) (fun slot m' h => h.store slot value) fun _ _ h => h
  | remove k => exact wp_then (wp_lookupIn_whole hm fuel k .removeIfFound) (fun _ m' h => h) fun _ _ h => h
  | clear => exact hm.clear

end MpMap

/-! ## A failed insertion -/

/-- A map or a set. -/
inductive Container (κ ν : Type) where
  | map (m : MpMap κ ν)
  | set (s : MpSet κ)

/-- A call with the allocator it finds. -/
structure Call (α : Type) where
  fits : Nat → Bool
  fuel : Nat
  op : α

/-- The element of a slot of a map. -/
def MpMapElem.entry (e : MpMapElem κ ν) : Option (κ × Option ν) := match e.key with
  | .live k => some (k, e.value)
  | _ => none

namespace Container

def alloc : Container κ ν → Nat
  | .map m => m.alloc
  | .set s => s.alloc

def used : Container κ ν → Nat
  | .map m => m.used
  | .set s => s.used

/-- The number of slots the table has. -/
def slots : Container κ ν → Nat
  | .map m => m.table.length
  | .set s => s.table.length

/-- The keys and their values; an element of a set has none. -/
def contents : Container κ ν → List (κ × Option ν)
  | .map m => m.table.filterMap MpMapElem.entry
  | .set s => s.table.filterMap fun slot => match slot with
    | .live k => some (k, none)
    | _ => none

/-- A hash table of keys with values. -/
def IsHashedMap : Container κ ν → Prop
  | .map m => m.isOrdered = false
  | .set _ => False

variable [DecidableEq κ] (o : Objects κ)

/-- The results of later calls. -/
def mapResults : MpMap κ ν → List (Call (MpMap.Op κ ν)) → List (Except Raise (MpMap.Seen ν))
  | _, [] => []
  | m, c :: calls => match MpMap.execIn o c.fits c.fuel c.op m with
    | (r, m) => r :: mapResults m calls

def setResults : MpSet κ → List (Call (MpSet.Op κ)) → List (Except Raise (Option κ))
  | _, [] => []
  | s, c :: calls => match MpSet.execIn o c.fits c.fuel c.op s with
    | (r, s) => r :: setResults s calls

/-- No later call tells the two apart. -/
def Alike : Container κ ν → Container κ ν → Prop
  | .map m, .map m' => ∀ calls, mapResults o m' calls = mapResults o m calls
  | .set s, .set s' => ∀ calls, setResults o s' calls = setResults o s calls
  | _, _ => False

/-- A container made empty, and calls on it. A call that raises leaves a hashed map that is used on. -/
inductive Reach : Container κ ν → Prop where
  | newMap (n : Nat) (ordered : Bool) : Reach (.map { MpMap.init n with isOrdered := ordered })
  | newSet (n : Nat) : Reach (.set (MpSet.init n))
  | mapCall {m m' : MpMap κ ν} (h : Reach (.map m)) (c : Call (MpMap.Op κ ν)) (out : MpMap.Seen ν)
      (hx : MpMap.execIn o c.fits c.fuel c.op m = (.ok out, m')) : Reach (.map m')
  | mapRaise {m m' : MpMap κ ν} (h : Reach (.map m)) (c : Call (MpMap.Op κ ν)) (hord : m.isOrdered = false)
      (hx : MpMap.execIn o c.fits c.fuel c.op m = (.error .memoryError, m')) : Reach (.map m')
  | setCall {s s' : MpSet κ} (h : Reach (.set s)) (c : Call (MpSet.Op κ)) (out : Option κ)
      (hx : MpSet.execIn o c.fits c.fuel c.op s = (.ok out, s')) : Reach (.set s')

/-- An insertion that raises MemoryError. -/
inductive FailedInsert : Container κ ν → Container κ ν → Prop where
  | map {m m' : MpMap κ ν} (fits : Nat → Bool) (fuel : Nat) (k : κ) (value : Option ν)
      (hx : MpMap.execIn o fits fuel (.add k value) m = (.error .memoryError, m')) : FailedInsert (.map m) (.map m')
  | set {s s' : MpSet κ} (fits : Nat → Bool) (fuel : Nat) (kind : SetLookupKind) (k : κ) (hk : kind.adds = true)
      (hx : MpSet.execIn o fits fuel (.lookup kind k) s = (.error .memoryError, s')) : FailedInsert (.set s) (.set s')

/-- The container is what it was before. -/
structure Intact (c c' : Container κ ν) : Prop where
  contents : c'.contents = c.contents
  alloc : c'.alloc = c'.slots
  used : c'.used = c'.contents.length
  later : Alike o c c'

variable {o}

variable (o) in
/-- What a container keeps to between calls. -/
def Sound : Container κ ν → Prop
  | .map m => m.Whole
  | .set s => s.Inv o

theorem Reach.sound {c : Container κ ν} (h : Reach o c) : Sound o c := by
  induction h with
  | newMap n ordered =>
    cases ordered with
    | false =>
      refine .inl ⟨rfl, List.length_replicate, ?_⟩
      show 0 = size ((List.replicate n MpMap.blank).map MpMapElem.key)
      rw [List.map_replicate]
      exact (size_replicate n).symm
    | true => exact .inr ⟨List.length_replicate, Nat.zero_le n, rfl⟩
  | newSet n => exact MpSet.init_inv n
  | @mapCall m m' h c out hx ih =>
    have hm : m.Whole := ih
    exact wp_ok (Q := fun _ m' => m'.Whole) (MpMap.wp_execIn hm c.fuel c.op) hx
  | @mapRaise m m' h c hord hx ih =>
    have hm : m.Whole := ih
    have hraised := wp_error (MpMap.wp_execIn hm c.fuel c.op) hx rfl
    rw [hord] at hraised
    cases hraised
    exact ih
  | @setCall s s' h c out hx ih =>
    have hs : s.Inv o := ih
    exact wp_ok (Q := fun _ s' => s'.Inv o) (MpSet.wp_execIn hs c.fuel c.op) hx

omit [DecidableEq κ] in
/-- `used` is the number of elements. -/
theorem length_contents (m : MpMap κ ν) : (contents (.map m)).length = size m.keys := by
  show (m.table.filterMap MpMapElem.entry).length = (m.table.map MpMapElem.key).countP Slot.isLive
  rw [List.length_filterMap_eq_countP, List.countP_map]
  refine List.countP_congr fun e _ => ?_
  unfold MpMapElem.entry
  cases hkey : e.key <;> simp [hkey, Slot.isLive]

/-- An insertion for which the table cannot grow leaves the container as it was just where it is a hashed map. -/
theorem failed_insert_intact_iff {c c' : Container κ ν} (hc : Reach o c) (hfail : FailedInsert o c c') :
    Intact o c c' ↔ c.IsHashedMap := by
  have hsound := hc.sound
  cases hfail with
  | @map m m' fits fuel k value hx =>
    have hraised := wp_error (MpMap.wp_execIn hsound fuel _) hx rfl
    constructor
    · intro hintact
      by_contra hord
      have hord : m.isOrdered = true := by simpa [IsHashedMap] using hord
      rw [if_pos hord] at hraised
      obtain ⟨htable, halloc⟩ := hraised
      have hfitted : m.table.length = m.alloc := by
        rcases hsound with ⟨_, hs⟩ | hf
        · exact hs.length
        · exact hf.length
      have hsize : m'.alloc = m'.table.length := hintact.alloc
      rw [htable, halloc, hfitted] at hsize
      omega
    · intro hord
      have hord : m.isOrdered = false := hord
      rw [hord] at hraised
      cases hraised
      rcases hsound with ⟨_, hs⟩ | hf
      · refine ⟨rfl, hs.length.symm, ?_, fun _ => rfl⟩
        rw [length_contents]
        exact hs.used
      · rw [hf.isOrdered] at hord
        cases hord
  | @set s s' fits fuel kind k hk hx =>
    obtain ⟨htable, hlt⟩ := wp_error (MpSet.wp_execIn hsound fuel _) hx rfl
    constructor
    · intro hintact
      have hsize : s'.alloc = s'.table.length := hintact.alloc
      rw [htable, hsound.length] at hsize
      omega
    · exact False.elim

end Container

/-! ## One of each -/

open MpMap (SampleKey sample)

/-- A map for one key that has one. -/
def oneKey : MpMap SampleKey Nat := ⟨1, 1, true, false, false, [⟨.live .interned, some 1⟩]⟩

theorem reach_oneKey : Container.Reach sample (.map oneKey) :=
  .mapCall (.newMap 1 false) ⟨fun _ => true, 3, .add .interned (some 1)⟩ (some none) rfl

theorem failed_insert_intact_oneKey : Container.Reach sample (.map oneKey) ∧
    Container.FailedInsert sample (.map oneKey) (.map oneKey) ∧ Container.Intact sample (.map oneKey) (.map oneKey) := by
  have hfail : Container.FailedInsert sample (.map oneKey) (.map oneKey) := .map (fun _ => false) 3 .number (some 2) rfl
  exact ⟨reach_oneKey, hfail, (Container.failed_insert_intact_iff reach_oneKey hfail).mpr rfl⟩

/-- A set is left with room for two elements that it does not have, and none in use. -/
theorem failed_insert_torn :
    Container.Reach sample (.set ⟨1, 1, [.live .interned]⟩ : Container SampleKey Nat) ∧
    Container.FailedInsert sample (.set ⟨1, 1, [.live .interned]⟩ : Container SampleKey Nat) (.set ⟨2, 0, [.live .interned]⟩) ∧
    ¬ Container.Intact sample (.set ⟨1, 1, [.live .interned]⟩ : Container SampleKey Nat) (.set ⟨2, 0, [.live .interned]⟩) := by
  refine ⟨.setCall (.newSet 1) ⟨fun _ => true, 3, .lookup .addIfNotFound .interned⟩ (some .interned) rfl,
    .set (fun _ => false) 3 .addIfNotFound .number rfl rfl, fun hintact => ?_⟩
  have hsize : 2 = 1 := hintact.alloc
  omega

end PythonUltra.Py
