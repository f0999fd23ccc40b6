/-
  PythonUltra.Py.MapRefine — mp_map_t is a finite partial function up to mp_obj_equal.

  The keys of the abstract map are the classes of equal objects, and the map is Mathlib's
  `Finmap` over them. `Inv` is what every table reached keeps, `Holds` says which finite
  map it stands for. A lookup ends in one of four ways (`Outcome`), each of them a step of
  the finite map; a table without room is first moved to a larger one, which holds the
  same (`rehash_spec`). The probe loop ends by itself: what `lookup` returns does not
  depend on the fuel, once there is enough.

  A map whose keys are all qstrs takes for granted that an object that is no string is
  equal to none of them. `Trusts` says that the index of a lookup keeps to that.
-/

import PythonUltra.Py.Map
import Mathlib.Data.Finmap

namespace PythonUltra.Py

open PythonUltra.Lib.Probe

variable {κ ν : Type}

namespace Objects

variable (o : Objects κ)

/-- `mp_obj_equal` as a relation. -/
abbrev Eqv (a b : κ) : Prop := o.equal a b = true

abbrev setoid : Setoid κ := ⟨o.Eqv, o.equal_equiv⟩

/-- A key up to equality. -/
abbrev Class : Type := Quotient o.setoid

instance : DecidableEq o.Class :=
  @Quotient.decidableEq κ o.setoid fun a b => inferInstanceAs (Decidable (o.Eqv a b))

/-- The class of a key. -/
def cls (k : κ) : o.Class := Quotient.mk o.setoid k

theorem cls_eq {a b : κ} : o.cls a = o.cls b ↔ o.equal a b = true := Quotient.eq (r := o.setoid)

theorem equal_symm {a b : κ} (h : o.equal a b = true) : o.equal b a = true := o.equal_equiv.symm h

end Objects

namespace MpMap

variable {o : Objects κ}

theorem hash_eq {a b : κ} (h : o.equal a b = true) : hash o a = hash o b := by
  have qstr : ∀ x, hash o x = o.unaryHash x := by
    intro x
    unfold hash
    split
    · rename_i hq
      exact o.qstrHash_eq x hq
    · rfl
  rw [qstr, qstr]
  exact o.unaryHash_eq a b h

/-! ## Tables -/

@[simp] theorem length_keys (m : MpMap κ ν) : m.keys.length = m.table.length := List.length_map _

theorem slotAt_keys (m : MpMap κ ν) (i : Nat) : slotAt m.keys i = (m.elem i).key := by
  unfold slotAt elem keys
  rw [List.getD_eq_getElem?_getD, List.getD_eq_getElem?_getD, List.getElem?_map]
  cases m.table[i]? <;> rfl

/-- The entry of a slot. -/
def Entry (m : MpMap κ ν) (i : Nat) (k : κ) (v : Option ν) : Prop := i < m.table.length ∧ m.elem i = ⟨.live k, v⟩

variable (o) in
structure Inv (m : MpMap κ ν) : Prop where
  length : m.table.length = m.alloc
  unordered : m.isOrdered = false
  chained : Chained (hash o) m.keys
  distinct : Distinct m.keys o.Eqv
  used : m.used = size m.keys
  qstrs : m.allKeysAreQstrs = true → ∀ i k, i < m.alloc → (m.elem i).key = .live k → o.isQstr k = true

variable (o) in
/-- The finite map a table stands for. -/
structure Holds (m : MpMap κ ν) (F : Finmap fun _ : o.Class => Option ν) : Prop where
  lookup : ∀ q v, F.lookup q = some v ↔ ∃ i k, m.Entry i k v ∧ o.cls k = q
  card : F.keys.card = m.used

variable [DecidableEq κ]

/-- Where a search may end. -/
inductive Outcome (o : Objects κ) (m : MpMap κ ν) (index : κ) : LookupKind → MpMap κ ν × Option Nat → Prop where
  | found {kind : LookupKind} {i : Nat} {k : κ} (hk : kind ≠ .removeIfFound) (hi : i < m.alloc)
      (hlive : (m.elem i).key = .live k) (heq : o.equal k index = true) : Outcome o m index kind (m, some i)
  | removed {i : Nat} {k : κ} (hi : i < m.alloc) (hlive : (m.elem i).key = .live k)
      (heq : o.equal k index = true) : Outcome o m index .removeIfFound (m.vacate i, some i)
  | missing {kind : LookupKind} (hk : kind ≠ .addIfNotFound) (habs : Absent m.keys o.Eqv index) :
      Outcome o m index kind (m, none)
  | added {p : Nat} (habs : Absent m.keys o.Eqv index)
      (hv : Vacancy (hash o) m.keys index p) : Outcome o m index .addIfNotFound (m.occupy o p index, some p)

/-! ## One turn -/

section

variable {m : MpMap κ ν} {index : κ} {kind : LookupKind} {ptrs : Bool} {d : Nat} {avail : Option Nat}

variable (o) in
/-- While all keys are qstrs, an index that is no string is equal to none of them. -/
def Trusts (m : MpMap κ ν) (index : κ) : Prop :=
  m.allKeysAreQstrs = true → o.isQstr index = false → o.isStr index = false → Absent m.keys o.Eqv index

variable (o) in
/-- Comparing pointers is enough. -/
def PtrsEnough (m : MpMap κ ν) (index : κ) (ptrs : Bool) : Prop :=
  ptrs = true → ∀ i k, i < m.alloc → (m.elem i).key = .live k → o.Eqv k index → k = index

omit [DecidableEq κ] in
theorem ptrsEnough (hinv : m.Inv o) (htrust : m.Trusts o index)
    (hptrs : m.compareOnlyPtrs o index kind = some ptrs) : m.PtrsEnough o index ptrs := by
  intro htrue i k hi hk heq
  subst htrue
  unfold compareOnlyPtrs at hptrs
  split at hptrs
  · rename_i hall
    have hq := hinv.qstrs hall i k hi hk
    split at hptrs
    · rename_i hindex
      exact o.qstr_unique k index hq hindex heq
    · rename_i hindex
      split at hptrs
      · simp at hptrs
      · rename_i hstr
        -- not a string, so equal to no qstr
        refine absurd heq (htrust hall (by simpa using hindex) (by simpa using hstr) i ?_ k ?_)
        · rw [length_keys, hinv.length]
          exact hi
        · rw [slotAt_keys]
          exact hk
  · simp at hptrs

theorem same_iff (hptrs : m.PtrsEnough o index ptrs) {i : Nat} {k : κ} (hi : i < m.alloc)
    (hk : (m.elem i).key = .live k) : same o ptrs k index = true ↔ o.Eqv k index := by
  unfold same
  cases ptrs with
  | false =>
    simp only [Bool.not_false, Bool.true_and, Bool.or_eq_true, decide_eq_true_eq, or_iff_right_iff_imp]
    intro h
    rw [h]
    exact o.equal_equiv.refl index
  | true =>
    simp only [Bool.not_true, Bool.false_and, Bool.or_false, decide_eq_true_eq]
    constructor
    · intro h
      rw [h]
      exact o.equal_equiv.refl index
    · exact hptrs rfl i k hi hk

/-- What the end of a turn comes to. -/
theorem advance_cases (hinv : m.Inv o) (hd : d < m.alloc)
    (hs : Search (hash o) m.keys o.Eqv index (d + 1) avail) :
    (∃ r, m.advance o index kind ((hash o index + d) % m.alloc) (hash o index % m.alloc) avail = .done r.1 r.2 ∧
      Outcome o m index kind r) ∨
    (d + 1 < m.alloc ∧ m.advance o index kind ((hash o index + d) % m.alloc) (hash o index % m.alloc) avail =
      .next ((hash o index + (d + 1)) % m.alloc) avail) ∨
    (kind = .addIfNotFound ∧ Search (hash o) m.keys o.Eqv index m.alloc none ∧
      m.advance o index kind ((hash o index + d) % m.alloc) (hash o index % m.alloc) avail = .rehash) := by
  have hlen : m.keys.length = m.alloc := by rw [length_keys]; exact hinv.length
  have hpos : ((hash o index + d) % m.alloc + 1) % m.alloc = (hash o index + (d + 1)) % m.alloc := by
    rw [Nat.mod_add_mod, Nat.add_assoc]
  have haround := around_iff (hash o index) hd
  unfold advance
  split
  · rename_i hround
    have hall := haround.mp hround
    rw [hall] at hs
    split
    · rename_i hkind
      subst hkind
      cases avail with
      | some p =>
        left
        refine ⟨_, rfl, .added (Search.absent_round (by rw [hlen]; exact hs)) (hs.vacancy (by omega))⟩
      | none => exact Or.inr (Or.inr ⟨rfl, hs, rfl⟩)
    · rename_i hkind
      left
      exact ⟨(m, none), rfl, .missing hkind (Search.absent_round (by rw [hlen]; exact hs))⟩
  · rename_i hround
    right; left
    rw [haround] at hround
    exact ⟨by omega, by rw [hpos]⟩

/-- What a turn comes to: an end, the next turn, or a full table. -/
theorem turn_cases (hinv : m.Inv o) (hptrs : m.PtrsEnough o index ptrs) (hd : d < m.alloc)
    (hs : Search (hash o) m.keys o.Eqv index d avail) :
    (∃ r, m.turn o index kind ptrs ((hash o index + d) % m.alloc) (hash o index % m.alloc) avail = .done r.1 r.2 ∧
      Outcome o m index kind r) ∨
    (d + 1 < m.alloc ∧ ∃ avail', Search (hash o) m.keys o.Eqv index (d + 1) avail' ∧
      m.turn o index kind ptrs ((hash o index + d) % m.alloc) (hash o index % m.alloc) avail =
        .next ((hash o index + (d + 1)) % m.alloc) avail') ∨
    (kind = .addIfNotFound ∧ Search (hash o) m.keys o.Eqv index m.alloc none ∧
      m.turn o index kind ptrs ((hash o index + d) % m.alloc) (hash o index % m.alloc) avail = .rehash) := by
  have hlen : m.keys.length = m.alloc := by rw [length_keys]; exact hinv.length
  have hslot : slotAt m.keys ((hash o index + d) % m.keys.length) = (m.elem ((hash o index + d) % m.alloc)).key := by
    rw [slotAt_keys, hlen]
  have hpos : (hash o index + d) % m.alloc < m.alloc := Nat.mod_lt _ (by omega)
  unfold turn
  cases hkey : (m.elem ((hash o index + d) % m.alloc)).key with
  | empty =>
    rw [hkey] at hslot
    have habs := hs.absent hinv.chained (fun a ha => hash_eq ha) hslot
    left
    simp only
    split
    · rename_i hkind
      subst hkind
      refine ⟨_, rfl, .added habs ?_⟩
      cases avail with
      | some p => exact hs.vacancy (by omega)
      | none =>
        have := hs.vacancy_empty (by omega) hslot
        rwa [hlen] at this
    · rename_i hkind
      exact ⟨(m, none), rfl, .missing hkind habs⟩
  | deleted =>
    rw [hkey] at hslot
    have hs' := hs.pass hslot
    rw [hlen] at hs'
    rcases advance_cases hinv hd hs' with h | ⟨hlt, h⟩ | h
    · exact Or.inl h
    · exact Or.inr (Or.inl ⟨hlt, _, hs', h⟩)
    · exact Or.inr (Or.inr h)
  | live k =>
    rw [hkey] at hslot
    simp only
    split
    · rename_i hsame
      left
      have heq := (same_iff hptrs hpos hkey).mp hsame
      by_cases hkind : kind = .removeIfFound
      · subst hkind
        exact ⟨_, by rw [if_pos rfl], .removed hpos hkey heq⟩
      · exact ⟨(m, _), by rw [if_neg hkind], .found hkind hpos hkey heq⟩
    · rename_i hsame
      have hne : ¬ o.equal k index = true := fun h => hsame ((same_iff hptrs hpos hkey).mpr h)
      have hs' := hs.skip hslot hne
      rcases advance_cases hinv hd hs' with h | ⟨hlt, h⟩ | h
      · exact Or.inl h
      · exact Or.inr (Or.inl ⟨hlt, _, hs', h⟩)
      · exact Or.inr (Or.inr h)

/-- The probe loop ends within a round, or the table is full. -/
theorem probe_round (hinv : m.Inv o) (hptrs : m.PtrsEnough o index ptrs) (hd : d < m.alloc)
    (hs : Search (hash o) m.keys o.Eqv index d avail) :
    (∃ r, Outcome o m index kind r ∧ ∀ fuel, m.alloc - d ≤ fuel →
      probe o fuel m index kind ptrs ((hash o index + d) % m.alloc) (hash o index % m.alloc) avail = some r) ∨
    (kind = .addIfNotFound ∧ Search (hash o) m.keys o.Eqv index m.alloc none ∧
      ∃ n, ∀ fuel,
        probe o (fuel + n + 1) m index kind ptrs ((hash o index + d) % m.alloc) (hash o index % m.alloc) avail =
          (rehash o fuel m).bind fun m => probe o fuel m index kind ptrs (hash o index % m.alloc) (hash o index % m.alloc) none) := by
  -- by the turns left in the round
  obtain ⟨n, hn⟩ : ∃ n, m.alloc - d = n := ⟨_, rfl⟩
  induction n generalizing d avail with
  | zero => omega
  | succ n ih =>
    rcases turn_cases hinv hptrs hd hs with ⟨r, hr, ho⟩ | ⟨hlt, avail', hs', hr⟩ | ⟨hk, hs', hr⟩
    · left
      refine ⟨r, ho, fun fuel hf => ?_⟩
      obtain ⟨fuel, rfl⟩ : ∃ f, fuel = f + 1 := ⟨fuel - 1, by omega⟩
      rw [probe, hr]
    · rcases ih hlt hs' (by omega) with ⟨r, ho, hrun⟩ | ⟨hk, hs'', n', hrun⟩
      · left
        refine ⟨r, ho, fun fuel hf => ?_⟩
        obtain ⟨fuel, rfl⟩ : ∃ f, fuel = f + 1 := ⟨fuel - 1, by omega⟩
        rw [probe, hr]
        exact hrun fuel (by omega)
      · right
        refine ⟨hk, hs'', n' + 1, fun fuel => ?_⟩
        rw [probe, hr]
        exact hrun fuel
    · right
      refine ⟨hk, hs', 0, fun fuel => ?_⟩
      rw [probe, hr]
      rfl

end

/-! ## Changing a slot -/

section

variable {m : MpMap κ ν} {i : Nat} {e : MpMapElem κ ν}

omit [DecidableEq κ] in
theorem keys_set {n : MpMap κ ν} (ht : n.table = m.table.set i e) : n.keys = m.keys.set i e.key := by
  unfold keys
  rw [ht, List.map_set]

omit [DecidableEq κ] in
theorem elem_set {n : MpMap κ ν} (hi : i < m.table.length) (ht : n.table = m.table.set i e) (j : Nat) :
    n.elem j = if j = i then e else m.elem j := by
  unfold elem
  rw [ht, List.getD_eq_getElem?_getD, List.getD_eq_getElem?_getD, List.getElem?_set]
  by_cases hj : i = j
  · subst hj
    simp [hi]
  · rw [if_neg hj, if_neg (Ne.symm hj)]

omit [DecidableEq κ] in
theorem entry_set {n : MpMap κ ν} (hi : i < m.table.length) (ht : n.table = m.table.set i e) {j : Nat} {k : κ}
    {v : Option ν} : n.Entry j k v ↔ (j = i ∧ e = ⟨.live k, v⟩) ∨ (j ≠ i ∧ m.Entry j k v) := by
  unfold Entry
  rw [elem_set hi ht, ht, List.length_set]
  by_cases hj : j = i
  · subst hj
    simp [hi]
  · simp [hj]

omit [DecidableEq κ] in
theorem occupy_inv {index : κ} {p : Nat} (hinv : m.Inv o) (habs : Absent m.keys o.Eqv index)
    (hv : Vacancy (hash o) m.keys index p) : (m.occupy o p index).Inv o := by
  have hp : p < m.table.length := by simpa using hv.lt
  have hkeys : (m.occupy o p index).keys = m.keys.set p (.live index) :=
    keys_set (e := ⟨.live index, none⟩) rfl
  have helem := elem_set (n := m.occupy o p index) hp rfl
  refine ⟨List.length_set.trans hinv.length, hinv.unordered, ?_, ?_, ?_, ?_⟩
  · rw [hkeys]
    exact hinv.chained.put hv
  · rw [hkeys]
    exact hinv.distinct.put (fun a b => o.equal_symm) hv.lt habs
  · rw [hkeys, size_put hv.lt hv.free, ← hinv.used]
    rfl
  · intro hall j k hj hk
    have hall' : m.allKeysAreQstrs = true ∧ o.isQstr index = true := by simpa [occupy] using hall
    rw [helem] at hk
    split at hk
    · rw [← Slot.live.inj hk]
      exact hall'.2
    · exact hinv.qstrs hall'.1 j k hj hk

/-- What `vacate` makes of a slot. -/
theorem vacate_table (m : MpMap κ ν) (i : Nat) : ∃ x : Slot κ,
    (m.vacate i).table = m.table.set i { m.elem i with key := x } ∧ x.isLive = false ∧
      (x = .empty ∧ (m.elem ((i + 1) % m.alloc)).key = .empty ∨ x = .deleted) := by
  by_cases hnext : (m.elem ((i + 1) % m.alloc)).key = .empty
  · exact ⟨.empty, by simp [vacate, setKey, hnext], rfl, Or.inl ⟨rfl, hnext⟩⟩
  · exact ⟨.deleted, by simp [vacate, setKey, hnext], rfl, Or.inr rfl⟩

theorem vacate_inv {k : κ} (hinv : m.Inv o) (hi : i < m.alloc) (hlive : (m.elem i).key = .live k) :
    (m.vacate i).Inv o := by
  have hi' : i < m.table.length := by rw [hinv.length]; exact hi
  have hlen : m.keys.length = m.alloc := by rw [length_keys]; exact hinv.length
  have hslot : slotAt m.keys i = .live k := by rw [slotAt_keys]; exact hlive
  have hik : i < m.keys.length := by rw [hlen]; exact hi
  obtain ⟨x, hx, hdead, hcase⟩ := m.vacate_table i
  have hch : Chained (hash o) (m.keys.set i x) := by
    rcases hcase with ⟨rfl, hnext⟩ | rfl
    · exact hinv.chained.clear hik (by rw [slotAt_keys, hlen]; exact hnext)
    · exact hinv.chained.delete hik
  have hkeys : (m.vacate i).keys = m.keys.set i x := keys_set hx
  have helem := elem_set hi' hx
  have keep : ∀ j a, ((m.vacate i).elem j).key = .live a → (m.elem j).key = .live a := by
    intro j a ha
    rw [helem] at ha
    split at ha
    · simp only at ha
      rw [ha] at hdead
      simp [Slot.isLive] at hdead
    · exact ha
  refine ⟨?_, hinv.unordered, by rw [hkeys]; exact hch, ?_, ?_, ?_⟩
  · rw [hx, List.length_set]
    exact hinv.length
  · rw [hkeys]
    exact hinv.distinct.drop hik hdead
  · rw [hkeys, size_drop hik (by rw [hslot]; rfl) hdead, ← hinv.used]
    rfl
  · intro hall j a hj ha
    exact hinv.qstrs hall j a hj (keep j a ha)

omit [DecidableEq κ] in
theorem store_inv {v : Option ν} (hinv : m.Inv o) (hi : i < m.alloc) : (m.store (some i) v).Inv o := by
  have hi' : i < m.table.length := by rw [hinv.length]; exact hi
  have helem := elem_set (n := m.store (some i) v) hi' rfl
  have hkey : ∀ j, ((m.store (some i) v).elem j).key = (m.elem j).key := by
    intro j
    rw [helem]
    split
    · rename_i e
      rw [e]
    · rfl
  have hkeys : (m.store (some i) v).keys = m.keys := by
    refine List.ext_getElem? fun j => ?_
    unfold keys
    show ((m.table.set i _).map _)[j]? = _
    rw [List.getElem?_map, List.getElem?_map, List.getElem?_set]
    split
    · rename_i e
      subst e
      rw [List.getElem?_eq_getElem hi']
      simp [hi', elem]
    · rfl
  refine ⟨?_, hinv.unordered, by rw [hkeys]; exact hinv.chained, by rw [hkeys]; exact hinv.distinct,
    by rw [hkeys]; exact hinv.used, ?_⟩
  · exact List.length_set.trans hinv.length
  · intro hall j k hj hk
    rw [hkey] at hk
    exact hinv.qstrs hall j k hj hk

/-! ## The finite map -/

omit [DecidableEq κ] in
theorem Entry.key_eq {k a : κ} {w : Option ν} (he : m.Entry i a w) (hlive : (m.elem i).key = .live k) : a = k := by
  rw [he.2] at hlive
  exact Slot.live.inj hlive

omit [DecidableEq κ] in
theorem Inv.only_slot {k a : κ} {w : Option ν} {j : Nat} (hinv : m.Inv o) (hi : i < m.alloc)
    (hlive : (m.elem i).key = .live k) (he : m.Entry j a w) (hcls : o.cls a = o.cls k) : j = i := by
  refine hinv.distinct j (by rw [length_keys]; exact he.1) i (by rw [length_keys, hinv.length]; exact hi) a k ?_ ?_
    (o.cls_eq.mp hcls)
  · rw [slotAt_keys, he.2]
  · rw [slotAt_keys]
    exact hlive

section

variable {F : Finmap fun _ : o.Class => Option ν} {k index : κ} {v w : Option ν}

omit [DecidableEq κ] in
theorem Holds.lookup_at (hf : m.Holds o F) (hinv : m.Inv o) (hi : i < m.alloc) (hlive : (m.elem i).key = .live k) :
    F.lookup (o.cls k) = some (m.elem i).value := by
  refine (hf.lookup _ _).mpr ⟨i, k, ⟨by rw [hinv.length]; exact hi, ?_⟩, rfl⟩
  rw [← hlive]

omit [DecidableEq κ] in
theorem Holds.lookup_absent (hf : m.Holds o F) (habs : Absent m.keys o.Eqv index) : F.lookup (o.cls index) = none := by
  rw [Option.eq_none_iff_forall_not_mem]
  intro v hv
  obtain ⟨i, k, ⟨hi, he⟩, hcls⟩ := (hf.lookup _ v).mp hv
  refine habs i (by rw [length_keys]; exact hi) k ?_ (o.cls_eq.mp hcls)
  rw [slotAt_keys, he]

omit [DecidableEq κ] in
theorem keys_insert (F : Finmap fun _ : o.Class => Option ν) (q : o.Class) (v : Option ν) :
    (F.insert q v).keys = insert q F.keys := by
  ext x
  rw [Finmap.mem_keys, Finmap.mem_insert, Finset.mem_insert, Finmap.mem_keys]

omit [DecidableEq κ] in
/-- A key put into a slot, with its value. -/
theorem Holds.occupy {p : Nat} (hf : m.Holds o F) (habs : Absent m.keys o.Eqv index)
    (hv : Vacancy (hash o) m.keys index p) :
    ((m.occupy o p index).store (some p) v).Holds o (F.insert (o.cls index) v) := by
  have hp : p < m.table.length := by simpa using hv.lt
  have habsent := hf.lookup_absent habs
  have hfree : ∀ k v, ¬ m.Entry p k v := by
    intro k v he
    have := hv.free
    rw [slotAt_keys, he.2] at this
    simp [Slot.isLive] at this
  have ht : ((m.occupy o p index).store (some p) v).table = m.table.set p ⟨.live index, v⟩ := by
    simp [MpMap.occupy, store, elem, hp]
  constructor
  · intro q w
    by_cases hq : q = o.cls index
    · subst hq
      rw [Finmap.lookup_insert]
      constructor
      · intro h
        exact ⟨p, index, (entry_set hp ht).mpr (Or.inl ⟨rfl, by rw [Option.some.inj h]⟩), rfl⟩
      · intro h
        obtain ⟨j, k, he, hcls⟩ := h
        rcases (entry_set hp ht).mp he with ⟨-, h⟩ | ⟨-, h⟩
        · simp only [MpMapElem.mk.injEq] at h
          rw [h.2]
        · have : F.lookup (o.cls index) = some w := (hf.lookup _ _).mpr ⟨j, k, h, hcls⟩
          rw [habsent] at this
          simp at this
    · rw [Finmap.lookup_insert_of_ne _ hq, hf.lookup]
      constructor
      · intro h
        obtain ⟨j, k, he, hcls⟩ := h
        exact ⟨j, k, (entry_set hp ht).mpr (Or.inr ⟨fun e => hfree k w (e ▸ he), he⟩), hcls⟩
      · intro h
        obtain ⟨j, k, he, hcls⟩ := h
        rcases (entry_set hp ht).mp he with ⟨-, h⟩ | ⟨-, h⟩
        · simp only [MpMapElem.mk.injEq, Slot.live.injEq] at h
          exact absurd (by rw [← hcls, h.1]) hq
        · exact ⟨j, k, h, hcls⟩
  · have hnot : o.cls index ∉ F.keys := by
      rw [Finmap.mem_keys, ← Finmap.lookup_eq_none]
      exact habsent
    rw [keys_insert, Finset.card_insert_of_notMem hnot, hf.card]
    rfl

omit [DecidableEq κ] in
/-- A value stored in the slot of a key. -/
theorem Holds.store (hf : m.Holds o F) (hinv : m.Inv o) (hi : i < m.alloc) (hlive : (m.elem i).key = .live k)
    (heq : o.Eqv k index) : (m.store (some i) v).Holds o (F.insert (o.cls index) v) := by
  have hi' : i < m.table.length := by rw [hinv.length]; exact hi
  have hcls : o.cls k = o.cls index := o.cls_eq.mpr heq
  have ht : (m.store (some i) v).table = m.table.set i ⟨.live k, v⟩ := by
    simp [MpMap.store, hlive]
  constructor
  · intro q w
    by_cases hq : q = o.cls index
    · subst hq
      rw [Finmap.lookup_insert]
      constructor
      · intro h
        exact ⟨i, k, (entry_set hi' ht).mpr (Or.inl ⟨rfl, by rw [Option.some.inj h]⟩), hcls⟩
      · intro h
        obtain ⟨j, a, he, ha⟩ := h
        rcases (entry_set hi' ht).mp he with ⟨-, h⟩ | ⟨hne, h⟩
        · simp only [MpMapElem.mk.injEq] at h
          rw [h.2]
        · exact absurd (hinv.only_slot hi hlive h (ha.trans hcls.symm)) hne
    · rw [Finmap.lookup_insert_of_ne _ hq, hf.lookup]
      constructor
      · intro h
        obtain ⟨j, a, he, ha⟩ := h
        refine ⟨j, a, (entry_set hi' ht).mpr (Or.inr ⟨fun e => hq ?_, he⟩), ha⟩
        subst e
        rw [← ha, ← hcls, he.key_eq hlive]
      · intro h
        obtain ⟨j, a, he, ha⟩ := h
        rcases (entry_set hi' ht).mp he with ⟨-, h⟩ | ⟨-, h⟩
        · simp only [MpMapElem.mk.injEq, Slot.live.injEq] at h
          exact absurd (by rw [← ha, ← h.1, hcls]) hq
        · exact ⟨j, a, h, ha⟩
  · have hmem : o.cls index ∈ F.keys := by
      rw [Finmap.mem_keys, ← Finmap.lookup_isSome, ← hcls, hf.lookup_at hinv hi hlive]
      rfl
    rw [keys_insert, Finset.insert_eq_of_mem hmem, hf.card]
    rfl

/-- The slot of a key given up. -/
theorem Holds.vacate (hf : m.Holds o F) (hinv : m.Inv o) (hi : i < m.alloc) (hlive : (m.elem i).key = .live k)
    (heq : o.Eqv k index) : (m.vacate i).Holds o (F.erase (o.cls index)) := by
  have hi' : i < m.table.length := by rw [hinv.length]; exact hi
  have hcls : o.cls k = o.cls index := o.cls_eq.mpr heq
  obtain ⟨x, hx, hdead, -⟩ := m.vacate_table i
  have hentry : ∀ j a w, (m.vacate i).Entry j a w ↔ j ≠ i ∧ m.Entry j a w := by
    intro j a w
    rw [entry_set hi' hx]
    constructor
    · intro h
      rcases h with ⟨-, h⟩ | h
      · simp only [MpMapElem.mk.injEq] at h
        rw [h.1] at hdead
        simp [Slot.isLive] at hdead
      · exact h
    · exact Or.inr
  constructor
  · intro q w
    by_cases hq : q = o.cls index
    · subst hq
      rw [Finmap.lookup_erase]
      constructor
      · intro h
        simp at h
      · intro h
        obtain ⟨j, a, he, ha⟩ := h
        obtain ⟨hne, he⟩ := (hentry j a w).mp he
        exact absurd (hinv.only_slot hi hlive he (ha.trans hcls.symm)) hne
    · rw [Finmap.lookup_erase_ne hq, hf.lookup]
      constructor
      · intro h
        obtain ⟨j, a, he, ha⟩ := h
        refine ⟨j, a, (hentry j a w).mpr ⟨fun e => hq ?_, he⟩, ha⟩
        subst e
        rw [← ha, ← hcls, he.key_eq hlive]
      · intro h
        obtain ⟨j, a, he, ha⟩ := h
        exact ⟨j, a, ((hentry j a w).mp he).2, ha⟩
  · have hmem : o.cls index ∈ F.keys := by
      rw [Finmap.mem_keys, ← Finmap.lookup_isSome, ← hcls, hf.lookup_at hinv hi hlive]
      rfl
    rw [Finmap.keys_erase, Finset.card_erase_of_mem hmem, hf.card]
    rfl

end

end

/-! ## Growing -/

/-- The same keys with the same values. -/
def SameEntries (m n : MpMap κ ν) : Prop := ∀ k v, (∃ i, n.Entry i k v) ↔ ∃ i, m.Entry i k v

omit [DecidableEq κ] in
theorem Holds.same {m n : MpMap κ ν} {F : Finmap fun _ : o.Class => Option ν} (hf : m.Holds o F)
    (hs : SameEntries m n) (hused : n.used = m.used) : n.Holds o F := by
  refine ⟨fun q v => ?_, by rw [hused]; exact hf.card⟩
  rw [hf.lookup]
  constructor
  · intro h
    obtain ⟨i, k, he, hq⟩ := h
    obtain ⟨j, he⟩ := (hs k v).mpr ⟨i, he⟩
    exact ⟨j, k, he, hq⟩
  · intro h
    obtain ⟨i, k, he, hq⟩ := h
    obtain ⟨j, he⟩ := (hs k v).mp ⟨i, he⟩
    exact ⟨j, k, he, hq⟩

theorem probe_room {m : MpMap κ ν} {index : κ} {kind : LookupKind} {ptrs : Bool} (hinv : m.Inv o)
    (hptrs : m.PtrsEnough o index ptrs) (hroom : m.used < m.alloc) : ∃ r, Outcome o m index kind r ∧
      ∀ fuel, m.alloc ≤ fuel →
        probe o fuel m index kind ptrs (hash o index % m.alloc) (hash o index % m.alloc) none = some r := by
  have hd : 0 < m.alloc := by omega
  have hround := @probe_round _ _ o _ m index kind ptrs 0 none hinv hptrs hd Search.start
  rcases hround with ⟨r, ho, hrun⟩ | ⟨-, hs, -⟩
  · exact ⟨r, ho, fun fuel hf => hrun fuel (by omega)⟩
  · have hlen : m.keys.length = m.alloc := by rw [length_keys]; exact hinv.length
    have hfull := Search.full (by rw [hlen]; exact hs)
    rw [← hinv.used, hlen] at hfull
    omega

omit [DecidableEq κ] in
variable (o) in
theorem compareOnlyPtrs_add (m : MpMap κ ν) (index : κ) :
    ∃ ptrs, m.compareOnlyPtrs o index .addIfNotFound = some ptrs := by
  unfold compareOnlyPtrs
  split
  · split
    · exact ⟨_, rfl⟩
    · split
      · exact ⟨_, rfl⟩
      · rw [if_neg (by simp)]
        exact ⟨_, rfl⟩
  · exact ⟨_, rfl⟩

/-- An entry moved to a table with room that does not have its key. -/
theorem add_room {m : MpMap κ ν} {k : κ} (v : Option ν) (hinv : m.Inv o) 
    (hroom : m.used < m.alloc) (habs : Absent m.keys o.Eqv k) : ∃ n : MpMap κ ν, n.Inv o ∧ n.alloc = m.alloc ∧
      n.used = m.used + 1 ∧ (∀ a w, (∃ i, n.Entry i a w) ↔ (a = k ∧ w = v) ∨ ∃ i, m.Entry i a w) ∧
      ∀ fuel, m.alloc + 1 ≤ fuel → ((lookup o fuel m k .addIfNotFound).bind fun r => some (r.1.store r.2 v)) = some n := by
  obtain ⟨ptrs, hptrs⟩ := m.compareOnlyPtrs_add o k
  have hroom := @probe_room _ _ o _ m k .addIfNotFound ptrs hinv (ptrsEnough hinv (fun _ _ _ => habs) hptrs) hroom
  obtain ⟨r, ho, hrun⟩ := hroom
  have hlookup : ∀ fuel, m.alloc + 1 ≤ fuel → lookup o fuel m k .addIfNotFound = some r := by
    intro fuel hf
    obtain ⟨fuel, rfl⟩ : ∃ f, fuel = f + 1 := ⟨fuel - 1, by omega⟩
    rw [lookup, hptrs]
    simp only [hinv.unordered, Bool.false_eq_true, if_false]
    rw [if_neg (by omega)]
    exact hrun fuel (by omega)
  cases ho with
  | @found _ i a _ hi hlive heq =>
    refine absurd heq (habs i ?_ a ?_)
    · rw [length_keys, hinv.length]
      exact hi
    · rw [slotAt_keys]
      exact hlive
  | missing hk => exact absurd rfl hk
  | @added p _ hv =>
    have hp : p < m.table.length := by simpa using hv.lt
    have ht : ((m.occupy o p k).store (some p) v).table = m.table.set p ⟨.live k, v⟩ := by
      simp [occupy, store, elem, hp]
    refine ⟨(m.occupy o p k).store (some p) v, store_inv (occupy_inv hinv habs hv) ?_, rfl, rfl, fun a w => ?_,
      fun fuel hf => by rw [hlookup fuel hf]; rfl⟩
    · rw [hinv.length] at hp
      exact hp
    · constructor
      · intro h
        obtain ⟨i, he⟩ := h
        rcases (entry_set hp ht).mp he with ⟨-, h⟩ | ⟨-, h⟩
        · simp only [MpMapElem.mk.injEq, Slot.live.injEq] at h
          exact Or.inl ⟨h.1.symm, h.2.symm⟩
        · exact Or.inr ⟨i, h⟩
      · intro h
        rcases h with ⟨rfl, rfl⟩ | ⟨i, he⟩
        · exact ⟨p, (entry_set hp ht).mpr (Or.inl ⟨rfl, rfl⟩)⟩
        · refine ⟨i, (entry_set hp ht).mpr (Or.inr ⟨fun e => ?_, he⟩)⟩
          have hfree := hv.free
          rw [slotAt_keys, ← e, he.2] at hfree
          simp [Slot.isLive] at hfree

/-- The loop of `rehash`: what has been moved is in the new table. -/
theorem rehash_loop {m : MpMap κ ν} (hinv : m.Inv o) (rest : List (MpMapElem κ ν)) :
    ∀ (pre : List (MpMapElem κ ν)) (n : MpMap κ ν), m.table = pre ++ rest → n.Inv o → m.alloc < n.alloc →
      n.used = size (pre.map MpMapElem.key) →
      (∀ k v, (∃ i, n.Entry i k v) ↔ ∃ i < pre.length, m.Entry i k v) →
      ∃ n' : MpMap κ ν, n'.Inv o ∧ n'.alloc = n.alloc ∧ n'.used = m.used ∧ SameEntries m n' ∧
        ∀ fuel, n.alloc + 1 ≤ fuel → rest.foldlM (fun map old => match old.key with
          | .live key => do
            let (map, slot) ← lookup o fuel map key .addIfNotFound
            return map.store slot old.value
          | _ => some map) n = some n' := by
  induction rest with
  | nil =>
    intro pre n ht hn _ hused hentries
    rw [List.append_nil] at ht
    refine ⟨n, hn, rfl, ?_, fun k v => ?_, fun fuel _ => rfl⟩
    · rw [hused, hinv.used, ← ht]
      rfl
    · rw [hentries]
      constructor
      · intro h
        obtain ⟨i, -, he⟩ := h
        exact ⟨i, he⟩
      · intro h
        obtain ⟨i, he⟩ := h
        exact ⟨i, by rw [← ht]; exact he.1, he⟩
  | cons e rest ih =>
    intro pre n ht hn halloc hused hentries
    have ht' : m.table = (pre ++ [e]) ++ rest := by rw [ht]; simp
    have hpre : pre.length < m.table.length := by rw [ht]; simp
    have helem : m.elem pre.length = e := by
      unfold elem
      rw [ht]
      simp
    have hnext : ∀ k v, (∃ i < (pre ++ [e]).length, m.Entry i k v) ↔
        (e = ⟨.live k, v⟩) ∨ ∃ i < pre.length, m.Entry i k v := by
      intro k v
      rw [List.length_append, List.length_singleton]
      constructor
      · intro h
        obtain ⟨i, hi, he⟩ := h
        rcases Nat.lt_succ_iff_lt_or_eq.mp hi with hi | rfl
        · exact Or.inr ⟨i, hi, he⟩
        · exact Or.inl (by rw [← helem]; exact he.2)
      · intro h
        rcases h with h | ⟨i, hi, he⟩
        · exact ⟨pre.length, by omega, hpre, by rw [helem]; exact h⟩
        · exact ⟨i, by omega, he⟩
    have hskip : e.key.isLive = false → ∃ n' : MpMap κ ν, n'.Inv o ∧ n'.alloc = n.alloc ∧ n'.used = m.used ∧
        SameEntries m n' ∧ ∀ fuel, n.alloc + 1 ≤ fuel → rest.foldlM (fun map old => match old.key with
          | .live key => do
            let (map, slot) ← lookup o fuel map key .addIfNotFound
            return map.store slot old.value
          | _ => some map) n = some n' := by
      intro hdead
      refine ih (pre ++ [e]) n ht' hn halloc ?_ fun k v => ?_
      · rw [hused]
        simp [size, hdead]
      · rw [hentries, hnext]
        constructor
        · exact Or.inr
        · intro h
          rcases h with h | h
          · rw [h] at hdead
            simp [Slot.isLive] at hdead
          · exact h
    cases hkey : e.key with
    | empty =>
      obtain ⟨n', h1, h2, h3, h4, hrun⟩ := hskip (by rw [hkey]; rfl)
      refine ⟨n', h1, h2, h3, h4, fun fuel hf => ?_⟩
      rw [List.foldlM_cons, hkey]
      exact hrun fuel hf
    | deleted =>
      obtain ⟨n', h1, h2, h3, h4, hrun⟩ := hskip (by rw [hkey]; rfl)
      refine ⟨n', h1, h2, h3, h4, fun fuel hf => ?_⟩
      rw [List.foldlM_cons, hkey]
      exact hrun fuel hf
    | live k =>
      have he : e = ⟨.live k, e.value⟩ := by rw [← hkey]
      have hentry : m.Entry pre.length k e.value := ⟨hpre, by rw [helem]; exact he⟩
      have hroom : n.used < n.alloc := by
        have := size_le (pre.map MpMapElem.key)
        rw [List.length_map] at this
        rw [hinv.length] at hpre
        omega
      -- a key already moved comes from another slot
      have habs : Absent n.keys o.Eqv k := by
        intro i hi a ha heq
        rw [slotAt_keys] at ha
        obtain ⟨j, hj, hja⟩ := (hentries a (n.elem i).value).mp ⟨i, by simpa using hi, by rw [← ha]⟩
        have := hinv.only_slot (by rw [← hinv.length]; exact hpre) (by rw [helem]; exact hkey) hja (o.cls_eq.mpr heq)
        omega
      obtain ⟨n₁, hn₁, halloc₁, hused₁, hentries₁, hrun₁⟩ := add_room e.value hn hroom habs
      obtain ⟨n', h1, h2, h3, h4, hrun⟩ := ih (pre ++ [e]) n₁ ht' hn₁ (by omega) (by
          rw [hused₁, hused]
          simp [size, hkey, Slot.isLive]) fun a w => by
        rw [hentries₁, hentries, hnext, he]
        simp only [MpMapElem.mk.injEq, Slot.live.injEq]
        constructor
        · intro h
          rcases h with ⟨h1, h2⟩ | h
          · exact Or.inl ⟨h1.symm, h2.symm⟩
          · exact Or.inr h
        · intro h
          rcases h with ⟨h1, h2⟩ | h
          · exact Or.inl ⟨h1.symm, h2.symm⟩
          · exact Or.inr h
      refine ⟨n', h1, by omega, h3, h4, fun fuel hf => ?_⟩
      rw [List.foldlM_cons, hkey]
      have hstep := hrun₁ fuel hf
      simp only [Option.bind_eq_bind, Option.pure_def]
      rw [hstep]
      exact hrun fuel (by omega)

theorem rehash_spec {m : MpMap κ ν} (hinv : m.Inv o) : ∃ n : MpMap κ ν, n.Inv o ∧
    m.alloc < n.alloc ∧ n.used = m.used ∧ SameEntries m n ∧ ∃ c, ∀ fuel, c ≤ fuel → rehash o fuel m = some n := by
  have hgrow := le_getHashAlloc (m.alloc + 1)
  let n₀ : MpMap κ ν :=
    { m with
      alloc := getHashAllocGreaterOrEqualTo (m.alloc + 1), used := 0, allKeysAreQstrs := true,
      table := List.replicate (getHashAllocGreaterOrEqualTo (m.alloc + 1)) blank }
  have hblank : ∀ i, n₀.elem i = blank := by
    intro i
    show (List.replicate _ _).getD i _ = _
    rw [List.getD_eq_getElem?_getD, List.getElem?_replicate]
    split <;> rfl
  have hkeys : n₀.keys = List.replicate (getHashAllocGreaterOrEqualTo (m.alloc + 1)) .empty := by
    show (List.replicate _ _).map _ = _
    rw [List.map_replicate]
    rfl
  have hn₀ : n₀.Inv o := by
    refine ⟨List.length_replicate, hinv.unordered, by rw [hkeys]; exact chained_replicate _,
      by rw [hkeys]; exact distinct_replicate _, by rw [hkeys, size_replicate], ?_⟩
    intro _ i k _ hk
    rw [hblank] at hk
    simp [blank] at hk
  obtain ⟨n, h1, h2, h3, h4, hrun⟩ := rehash_loop hinv m.table [] n₀ rfl hn₀ hgrow rfl fun k v => by
    constructor
    · intro h
      obtain ⟨i, he⟩ := h
      have := he.2
      rw [hblank] at this
      simp [blank] at this
    · intro h
      obtain ⟨i, hi, -⟩ := h
      exact absurd hi (Nat.not_lt_zero i)
  refine ⟨n, h1, by rw [h2]; exact hgrow, h3, h4, n₀.alloc + 2, fun fuel hf => ?_⟩
  obtain ⟨fuel, rfl⟩ : ∃ f, fuel = f + 1 := ⟨fuel - 1, by omega⟩
  rw [rehash]
  exact hrun fuel (by omega)

/-! ## A lookup -/

section

variable {m n : MpMap κ ν} {index : κ} {kind : LookupKind} {ptrs : Bool}

omit [DecidableEq κ] in
theorem PtrsEnough.same (hptrs : m.PtrsEnough o index ptrs) (hm : m.Inv o) (hn : n.Inv o) (hs : SameEntries m n) :
    n.PtrsEnough o index ptrs := by
  intro htrue i k hi hk heq
  obtain ⟨j, hj⟩ := (hs k (n.elem i).value).mp ⟨i, by rw [hn.length]; exact hi, by rw [← hk]⟩
  exact hptrs htrue j k (by rw [← hm.length]; exact hj.1) (by rw [hj.2]) heq

omit [DecidableEq κ] in
/-- The lookup that fails straight away. -/
theorem absent_of_none (htrust : m.Trusts o index) (hnone : m.compareOnlyPtrs o index kind = none) :
    kind ≠ .addIfNotFound ∧ Absent m.keys o.Eqv index := by
  unfold compareOnlyPtrs at hnone
  split at hnone
  · rename_i hall
    split at hnone
    · simp at hnone
    · rename_i hq
      split at hnone
      · simp at hnone
      · rename_i hstr
        split at hnone
        · rename_i hkind
          exact ⟨hkind, htrust hall (by simpa using hq) (by simpa using hstr)⟩
        · simp at hnone
  · simp at hnone

omit [DecidableEq κ] in
theorem SameEntries.refl (m : MpMap κ ν) : SameEntries m m := fun _ _ => Iff.rfl

/-- A search that found no room, after the table has grown. -/
theorem probe_grown (hinv : m.Inv o) (hptrs : m.PtrsEnough o index ptrs) : ∃ n r, n.Inv o ∧ SameEntries m n ∧
    n.used = m.used ∧ Outcome o n index kind r ∧ ∃ c, ∀ fuel, c ≤ fuel →
      ((rehash o fuel m).bind fun m =>
        probe o fuel m index kind ptrs (hash o index % m.alloc) (hash o index % m.alloc) none) = some r := by
  obtain ⟨n, hn, halloc, hused, hsame, c, hrehash⟩ := rehash_spec hinv
  have hroom : n.used < n.alloc := by
    have := size_le m.keys
    rw [length_keys, hinv.length, ← hinv.used] at this
    omega
  obtain ⟨r, ho, hrun⟩ := probe_room hn (hptrs.same hinv hn hsame) hroom
  refine ⟨n, r, hn, hsame, hused, ho, c + n.alloc, fun fuel hf => ?_⟩
  rw [hrehash fuel (by omega)]
  exact hrun fuel (by omega)

/-- A lookup ends, in the table or in a larger one with the same entries. -/
theorem lookup_spec (hinv : m.Inv o) (htrust : m.Trusts o index) : ∃ n r, n.Inv o ∧ SameEntries m n ∧
    n.used = m.used ∧ Outcome o n index kind r ∧ ∃ c, ∀ fuel, c ≤ fuel → lookup o fuel m index kind = some r := by
  cases hc : m.compareOnlyPtrs o index kind with
  | none =>
    obtain ⟨hkind, habs⟩ := absent_of_none htrust hc
    refine ⟨m, (m, none), hinv, .refl m, rfl, .missing hkind habs, 1, fun fuel hf => ?_⟩
    obtain ⟨fuel, rfl⟩ : ∃ f, fuel = f + 1 := ⟨fuel - 1, by omega⟩
    rw [lookup, hc]
  | some ptrs =>
    have hptrs := ptrsEnough hinv htrust hc
    by_cases halloc : m.alloc = 0
    · by_cases hkind : kind = .addIfNotFound
      · obtain ⟨n, r, hn, hsame, hused, ho, c, hrun⟩ := probe_grown hinv hptrs
        refine ⟨n, r, hn, hsame, hused, ho, c + 1, fun fuel hf => ?_⟩
        obtain ⟨fuel, rfl⟩ : ∃ f, fuel = f + 1 := ⟨fuel - 1, by omega⟩
        rw [lookup, hc]
        simp only [hinv.unordered, Bool.false_eq_true, if_false, halloc, if_true, hkind]
        rw [← hrun fuel (by omega), hkind]
        rfl
      · refine ⟨m, (m, none), hinv, .refl m, rfl, .missing hkind ?_, 1, fun fuel hf => ?_⟩
        · intro i hi
          rw [length_keys, hinv.length, halloc] at hi
          exact absurd hi (Nat.not_lt_zero i)
        · obtain ⟨fuel, rfl⟩ : ∃ f, fuel = f + 1 := ⟨fuel - 1, by omega⟩
          rw [lookup, hc]
          simp [hinv.unordered, halloc, hkind]
    · have hlookup : ∀ fuel, lookup o (fuel + 1) m index kind =
          probe o fuel m index kind ptrs (hash o index % m.alloc) (hash o index % m.alloc) none := by
        intro fuel
        rw [lookup, hc]
        simp [hinv.unordered, halloc]
      rcases probe_round hinv hptrs (Nat.pos_of_ne_zero halloc) Search.start with
        ⟨r, ho, hrun⟩ | ⟨hkind, hs, e, hfull⟩
      · refine ⟨m, r, hinv, .refl m, rfl, ho, m.alloc + 1, fun fuel hf => ?_⟩
        obtain ⟨fuel, rfl⟩ : ∃ f, fuel = f + 1 := ⟨fuel - 1, by omega⟩
        rw [hlookup]
        exact hrun fuel (by omega)
      · obtain ⟨n, r, hn, hsame, hused, ho, c, hrun⟩ := probe_grown hinv hptrs
        refine ⟨n, r, hn, hsame, hused, ho, c + e + 2, fun fuel hf => ?_⟩
        obtain ⟨fuel, rfl⟩ : ∃ f, fuel = f + e + 2 := ⟨fuel - e - 2, by omega⟩
        rw [hlookup]
        exact (hfull fuel).trans (hrun fuel (by omega))

end

end MpMap

end PythonUltra.Py
