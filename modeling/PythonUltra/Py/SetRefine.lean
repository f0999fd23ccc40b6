/-
  PythonUltra.Py.SetRefine — mp_set_t is a finite set up to mp_obj_equal.

  The members of the abstract set are the classes of equal objects. `Inv` and `Outcome`
  are those of the map without values; a set compares in full, so nothing is asked of the
  objects beyond their laws. `Step` is a call on the finite set: which element
  `mp_set_remove_first` takes is up to the table.
-/

import PythonUltra.Py.MapRefine
import PythonUltra.Py.Set
import Mathlib.Data.Finset.Card

namespace PythonUltra.Py.MpSet

open PythonUltra.Lib.Probe

variable {κ : Type} {o : Objects κ}

/-- An element of the table. -/
def Live (s : MpSet κ) (k : κ) : Prop := ∃ i < s.table.length, slotAt s.table i = .live k

variable (o) in
structure Inv (s : MpSet κ) : Prop where
  length : s.table.length = s.alloc
  chained : Chained o.unaryHash s.table
  distinct : Distinct s.table o.Eqv
  used : s.used = size s.table

variable (o) in
/-- The finite set a table stands for. -/
structure Holds (s : MpSet κ) (S : Finset o.Class) : Prop where
  mem : ∀ q, q ∈ S ↔ ∃ k, s.Live k ∧ o.cls k = q
  card : S.card = s.used

/-- Where a search may end. -/
inductive Outcome (o : Objects κ) (s : MpSet κ) (index : κ) (kind : SetLookupKind) : MpSet κ × Option κ → Prop where
  | found {i : Nat} {k : κ} (hk : kind.removes = false) (hi : i < s.alloc) (hlive : slotAt s.table i = .live k)
      (heq : o.equal k index = true) : Outcome o s index kind (s, some k)
  | removed {i : Nat} {k : κ} (hk : kind.removes = true) (hi : i < s.alloc) (hlive : slotAt s.table i = .live k)
      (heq : o.equal k index = true) : Outcome o s index kind (s.vacate i, some k)
  | missing (hk : kind.adds = false) (habs : Absent s.table o.Eqv index) : Outcome o s index kind (s, none)
  | added {p : Nat} (hk : kind.adds = true) (habs : Absent s.table o.Eqv index)
      (hv : Vacancy o.unaryHash s.table index p) : Outcome o s index kind (s.occupy p index, some index)

section

variable {s : MpSet κ} {index : κ} {kind : SetLookupKind} {d : Nat} {avail : Option Nat}

/-! ## The probe loop -/

/-- What the end of a turn comes to. -/
theorem advance_cases (hinv : s.Inv o) (hd : d < s.alloc)
    (hs : Search o.unaryHash s.table o.Eqv index (d + 1) avail) :
    (∃ r, s.advance index kind ((o.unaryHash index + d) % s.alloc) (o.unaryHash index % s.alloc) avail =
      .done r.1 r.2 ∧ Outcome o s index kind r) ∨
    (d + 1 < s.alloc ∧ s.advance index kind ((o.unaryHash index + d) % s.alloc) (o.unaryHash index % s.alloc) avail =
      .next ((o.unaryHash index + (d + 1)) % s.alloc) avail) ∨
    (kind.adds = true ∧ Search o.unaryHash s.table o.Eqv index s.alloc none ∧
      s.advance index kind ((o.unaryHash index + d) % s.alloc) (o.unaryHash index % s.alloc) avail = .rehash) := by
  have hlen := hinv.length
  have hpos : ((o.unaryHash index + d) % s.alloc + 1) % s.alloc = (o.unaryHash index + (d + 1)) % s.alloc := by
    rw [Nat.mod_add_mod, Nat.add_assoc]
  have haround := around_iff (o.unaryHash index) hd
  unfold advance
  split
  · rename_i hround
    rw [haround.mp hround] at hs
    have habs : Absent s.table o.Eqv index := Search.absent_round (by rw [hlen]; exact hs)
    split
    · rename_i hkind
      cases avail with
      | some p =>
        left
        exact ⟨_, rfl, .added hkind habs (hs.vacancy (by omega))⟩
      | none => exact Or.inr (Or.inr ⟨hkind, hs, rfl⟩)
    · rename_i hkind
      left
      exact ⟨(s, none), rfl, .missing (by simpa using hkind) habs⟩
  · rename_i hround
    right; left
    rw [haround] at hround
    exact ⟨by omega, by rw [hpos]⟩

/-- What a turn comes to: an end, the next turn, or a full table. -/
theorem turn_cases (hinv : s.Inv o) (hd : d < s.alloc) (hs : Search o.unaryHash s.table o.Eqv index d avail) :
    (∃ r, s.turn o index kind ((o.unaryHash index + d) % s.alloc) (o.unaryHash index % s.alloc) avail =
      .done r.1 r.2 ∧ Outcome o s index kind r) ∨
    (d + 1 < s.alloc ∧ ∃ avail', Search o.unaryHash s.table o.Eqv index (d + 1) avail' ∧
      s.turn o index kind ((o.unaryHash index + d) % s.alloc) (o.unaryHash index % s.alloc) avail =
        .next ((o.unaryHash index + (d + 1)) % s.alloc) avail') ∨
    (kind.adds = true ∧ Search o.unaryHash s.table o.Eqv index s.alloc none ∧
      s.turn o index kind ((o.unaryHash index + d) % s.alloc) (o.unaryHash index % s.alloc) avail = .rehash) := by
  have hlen := hinv.length
  have hpos : (o.unaryHash index + d) % s.alloc < s.alloc := Nat.mod_lt _ (by omega)
  unfold turn
  cases hslot : slotAt s.table ((o.unaryHash index + d) % s.alloc) with
  | empty =>
    have habs := hs.absent hinv.chained (fun a ha => o.unaryHash_eq a index ha) (by rw [hlen]; exact hslot)
    left
    simp only
    split
    · rename_i hkind
      refine ⟨_, rfl, .added hkind habs ?_⟩
      cases avail with
      | some p => exact hs.vacancy (by omega)
      | none =>
        have hv := hs.vacancy_empty (by omega) (by rw [hlen]; exact hslot)
        rwa [hlen] at hv
    · rename_i hkind
      exact ⟨(s, none), rfl, .missing (by simpa using hkind) habs⟩
  | deleted =>
    have hs' := hs.pass (by rw [hlen]; exact hslot)
    rw [hlen] at hs'
    rcases advance_cases hinv hd hs' with h | ⟨hlt, h⟩ | h
    · exact Or.inl h
    · exact Or.inr (Or.inl ⟨hlt, _, hs', h⟩)
    · exact Or.inr (Or.inr h)
  | live k =>
    simp only
    split
    · rename_i heq
      left
      cases hkind : kind.removes with
      | true => exact ⟨_, by rw [if_pos rfl], .removed hkind hpos hslot heq⟩
      | false => exact ⟨(s, _), by rw [if_neg (by simp)], .found hkind hpos hslot heq⟩
    · rename_i hne
      have hs' := hs.skip (by rw [hlen]; exact hslot) hne
      rcases advance_cases hinv hd hs' with h | ⟨hlt, h⟩ | h
      · exact Or.inl h
      · exact Or.inr (Or.inl ⟨hlt, _, hs', h⟩)
      · exact Or.inr (Or.inr h)

/-- The probe loop ends within a round, or the table is full. -/
theorem probe_round (hinv : s.Inv o) (hd : d < s.alloc) (hs : Search o.unaryHash s.table o.Eqv index d avail) :
    (∃ r, Outcome o s index kind r ∧ ∀ fuel, s.alloc - d ≤ fuel →
      probe o fuel s index kind ((o.unaryHash index + d) % s.alloc) (o.unaryHash index % s.alloc) avail = some r) ∨
    (kind.adds = true ∧ Search o.unaryHash s.table o.Eqv index s.alloc none ∧
      ∃ n, ∀ fuel, probe o (fuel + n + 1) s index kind ((o.unaryHash index + d) % s.alloc)
          (o.unaryHash index % s.alloc) avail =
        (rehash o fuel s).bind fun s =>
          probe o fuel s index kind (o.unaryHash index % s.alloc) (o.unaryHash index % s.alloc) none) := by
  -- by the turns left in the round
  obtain ⟨n, hn⟩ : ∃ n, s.alloc - d = n := ⟨_, rfl⟩
  induction n generalizing d avail with
  | zero => omega
  | succ n ih =>
    rcases turn_cases hinv hd hs with ⟨r, hr, ho⟩ | ⟨hlt, avail', hs', hr⟩ | ⟨hk, hs', hr⟩
    · left
      refine ⟨r, ho, fun fuel hf => ?_⟩
      obtain ⟨fuel, rfl⟩ : ∃ f, fuel = f + 1 := ⟨fuel - 1, by omega⟩
      rw [probe, hr]
    · rcases ih hlt hs' (by omega) with ⟨r, ho, hrun⟩ | ⟨hk, hs'', n', hrun⟩
      · left
        refine ⟨r, ho, fun fuel hf => ?_⟩
        obtain ⟨fuel, rfl⟩ : ∃ f, fuel = f + 1 := ⟨fuel - 1, by omega⟩
        rw [probe, hr]
        exact hrun fuel (by omega)
      · right
        refine ⟨hk, hs'', n' + 1, fun fuel => ?_⟩
        rw [probe, hr]
        exact hrun fuel
    · right
      refine ⟨hk, hs', 0, fun fuel => ?_⟩
      rw [probe, hr]
      rfl

theorem probe_room (hinv : s.Inv o) (hroom : s.used < s.alloc) : ∃ r, Outcome o s index kind r ∧
    ∀ fuel, s.alloc ≤ fuel →
      probe o fuel s index kind (o.unaryHash index % s.alloc) (o.unaryHash index % s.alloc) none = some r := by
  have hd : 0 < s.alloc := by omega
  have hround := @probe_round _ o s index kind 0 none hinv hd Search.start
  rcases hround with ⟨r, ho, hrun⟩ | ⟨-, hs, -⟩
  · exact ⟨r, ho, fun fuel hf => hrun fuel (by omega)⟩
  · have hfull := Search.full (by rw [hinv.length]; exact hs)
    rw [← hinv.used, hinv.length] at hfull
    omega

end

/-! ## Changing a slot -/

section

variable {s : MpSet κ} {index k : κ} {i p : Nat} {S : Finset o.Class}

theorem occupy_inv (hinv : s.Inv o) (habs : Absent s.table o.Eqv index) (hv : Vacancy o.unaryHash s.table index p) :
    (s.occupy p index).Inv o := by
  refine ⟨List.length_set.trans hinv.length, hinv.chained.put hv,
    hinv.distinct.put (fun a b => o.equal_symm) hv.lt habs, ?_⟩
  show s.used + 1 = size (s.table.set p (.live index))
  rw [size_put hv.lt hv.free, ← hinv.used]

/-- What `vacate` makes of a slot. -/
theorem vacate_table (s : MpSet κ) (i : Nat) : ∃ x : Slot κ, (s.vacate i).table = s.table.set i x ∧ x.isLive = false ∧
    (x = .empty ∧ slotAt s.table ((i + 1) % s.alloc) = .empty ∨ x = .deleted) := by
  unfold vacate
  cases hnext : slotAt s.table ((i + 1) % s.alloc) with
  | empty => exact ⟨.empty, rfl, rfl, Or.inl ⟨rfl, rfl⟩⟩
  | deleted => exact ⟨.deleted, rfl, rfl, Or.inr rfl⟩
  | live a => exact ⟨.deleted, rfl, rfl, Or.inr rfl⟩

theorem vacate_inv (hinv : s.Inv o) (hi : i < s.alloc) (hlive : slotAt s.table i = .live k) : (s.vacate i).Inv o := by
  have hi' : i < s.table.length := by rw [hinv.length]; exact hi
  obtain ⟨x, hx, hdead, hcase⟩ := s.vacate_table i
  refine ⟨?_, ?_, ?_, ?_⟩
  · rw [hx, List.length_set]
    exact hinv.length
  · rw [hx]
    rcases hcase with ⟨rfl, hnext⟩ | rfl
    · exact hinv.chained.clear hi' (by rw [hinv.length]; exact hnext)
    · exact hinv.chained.delete hi'
  · rw [hx]
    exact hinv.distinct.drop hi' hdead
  · rw [hx, size_drop hi' (by rw [hlive]; rfl) hdead, ← hinv.used]
    rfl

theorem live_occupy (hv : Vacancy o.unaryHash s.table index p) {a : κ} :
    (s.occupy p index).Live a ↔ a = index ∨ s.Live a := by
  constructor
  · intro h
    obtain ⟨j, hj, ha⟩ := h
    rw [show (s.occupy p index).table = s.table.set p (.live index) from rfl] at hj ha
    rw [List.length_set] at hj
    rw [slotAt_set hv.lt] at ha
    split at ha
    · exact Or.inl (Slot.live.inj ha).symm
    · exact Or.inr ⟨j, hj, ha⟩
  · intro h
    show ∃ j < (s.table.set p (.live index)).length, slotAt (s.table.set p (.live index)) j = .live a
    rw [List.length_set]
    rcases h with rfl | ⟨j, hj, ha⟩
    · exact ⟨p, hv.lt, by rw [slotAt_set hv.lt, if_pos rfl]⟩
    · refine ⟨j, hj, ?_⟩
      rw [slotAt_set hv.lt, if_neg]
      · exact ha
      · intro e
        have hfree := hv.free
        rw [← e, ha] at hfree
        simp [Slot.isLive] at hfree

theorem live_vacate (hinv : s.Inv o) (hi : i < s.alloc) (hlive : slotAt s.table i = .live k) {a : κ} :
    (s.vacate i).Live a ↔ s.Live a ∧ o.cls a ≠ o.cls k := by
  have hi' : i < s.table.length := by rw [hinv.length]; exact hi
  obtain ⟨x, hx, hdead, -⟩ := s.vacate_table i
  unfold Live
  rw [hx, List.length_set]
  constructor
  · intro h
    obtain ⟨j, hj, ha⟩ := h
    rw [slotAt_set hi'] at ha
    split at ha
    · rw [ha] at hdead
      simp [Slot.isLive] at hdead
    · rename_i hne
      exact ⟨⟨j, hj, ha⟩, fun hcls => hne (hinv.distinct j hj i hi' a k ha hlive (o.cls_eq.mp hcls))⟩
  · intro h
    obtain ⟨⟨j, hj, ha⟩, hne⟩ := h
    refine ⟨j, hj, ?_⟩
    rw [slotAt_set hi', if_neg]
    · exact ha
    · intro e
      rw [e, hlive] at ha
      exact hne (by rw [Slot.live.inj ha])

theorem Holds.mem_of_live (hf : s.Holds o S) (hinv : s.Inv o) (hi : i < s.alloc) (hlive : slotAt s.table i = .live k) :
    o.cls k ∈ S :=
  (hf.mem _).mpr ⟨k, ⟨i, by rw [hinv.length]; exact hi, hlive⟩, rfl⟩

theorem Holds.notMem_of_absent (hf : s.Holds o S) (habs : Absent s.table o.Eqv index) : o.cls index ∉ S := by
  intro h
  obtain ⟨k, ⟨i, hi, hlive⟩, hcls⟩ := (hf.mem _).mp h
  exact habs i hi k hlive (o.cls_eq.mp hcls)

theorem Holds.occupy (hf : s.Holds o S) (habs : Absent s.table o.Eqv index)
    (hv : Vacancy o.unaryHash s.table index p) : (s.occupy p index).Holds o (insert (o.cls index) S) := by
  constructor
  · intro q
    rw [Finset.mem_insert, hf.mem]
    constructor
    · intro h
      rcases h with rfl | ⟨k, hk, hq⟩
      · exact ⟨index, (live_occupy hv).mpr (Or.inl rfl), rfl⟩
      · exact ⟨k, (live_occupy hv).mpr (Or.inr hk), hq⟩
    · intro h
      obtain ⟨k, hk, hq⟩ := h
      rcases (live_occupy hv).mp hk with rfl | hk
      · exact Or.inl hq.symm
      · exact Or.inr ⟨k, hk, hq⟩
  · rw [Finset.card_insert_of_notMem (hf.notMem_of_absent habs), hf.card]
    rfl

theorem Holds.vacate (hf : s.Holds o S) (hinv : s.Inv o) (hi : i < s.alloc) (hlive : slotAt s.table i = .live k) :
    (s.vacate i).Holds o (S.erase (o.cls k)) := by
  constructor
  · intro q
    rw [Finset.mem_erase, hf.mem]
    constructor
    · intro h
      obtain ⟨hne, a, ha, rfl⟩ := h
      exact ⟨a, (live_vacate hinv hi hlive).mpr ⟨ha, hne⟩, rfl⟩
    · intro h
      obtain ⟨a, ha, rfl⟩ := h
      obtain ⟨ha, hne⟩ := (live_vacate hinv hi hlive).mp ha
      exact ⟨hne, a, ha, rfl⟩
  · rw [Finset.card_erase_of_mem (hf.mem_of_live hinv hi hlive), hf.card]
    rfl

end

/-! ## Growing -/

/-- The same elements. -/
def SameElems (s t : MpSet κ) : Prop := ∀ k, t.Live k ↔ s.Live k

theorem SameElems.refl (s : MpSet κ) : SameElems s s := fun _ => Iff.rfl

theorem Holds.same {s t : MpSet κ} {S : Finset o.Class} (hf : s.Holds o S) (hs : SameElems s t)
    (hused : t.used = s.used) : t.Holds o S := by
  refine ⟨fun q => ?_, by rw [hused]; exact hf.card⟩
  rw [hf.mem]
  constructor
  · intro h
    obtain ⟨k, hk, hq⟩ := h
    exact ⟨k, (hs k).mpr hk, hq⟩
  · intro h
    obtain ⟨k, hk, hq⟩ := h
    exact ⟨k, (hs k).mp hk, hq⟩

/-- An element moved to a table with room that does not have it. -/
theorem add_room {s : MpSet κ} {k : κ} (hinv : s.Inv o) (hroom : s.used < s.alloc) (habs : Absent s.table o.Eqv k) :
    ∃ t : MpSet κ, t.Inv o ∧ t.alloc = s.alloc ∧ t.used = s.used + 1 ∧ (∀ a, t.Live a ↔ a = k ∨ s.Live a) ∧
      ∀ fuel, s.alloc + 1 ≤ fuel → lookup o fuel s k .addIfNotFound = some (t, some k) := by
  have hroom := @probe_room _ o s k .addIfNotFound hinv hroom
  obtain ⟨r, ho, hrun⟩ := hroom
  have hlookup : ∀ fuel, s.alloc + 1 ≤ fuel → lookup o fuel s k .addIfNotFound = some r := by
    intro fuel hf
    obtain ⟨fuel, rfl⟩ : ∃ f, fuel = f + 1 := ⟨fuel - 1, by omega⟩
    rw [lookup, if_neg (by omega)]
    exact hrun fuel (by omega)
  cases ho with
  | @found i a _ hi hlive heq => exact absurd heq (habs i (by rw [hinv.length]; exact hi) a hlive)
  | removed hk => simp [SetLookupKind.removes] at hk
  | missing hk => simp [SetLookupKind.adds] at hk
  | @added p _ _ hv =>
    exact ⟨s.occupy p k, occupy_inv hinv habs hv, rfl, rfl, fun a => live_occupy hv, hlookup⟩

/-- The loop of `rehash`: what has been moved is in the new table. -/
theorem rehash_loop {s : MpSet κ} (hinv : s.Inv o) (rest : List (Slot κ)) :
    ∀ (pre : List (Slot κ)) (t : MpSet κ), s.table = pre ++ rest → t.Inv o → s.alloc < t.alloc →
      t.used = size pre → (∀ k, t.Live k ↔ ∃ i < pre.length, slotAt s.table i = .live k) →
      ∃ t' : MpSet κ, t'.Inv o ∧ t'.alloc = t.alloc ∧ t'.used = s.used ∧ SameElems s t' ∧
        ∀ fuel, t.alloc + 1 ≤ fuel → rest.foldlM (fun set old => match old with
          | .live elem => do
            let (set, _) ← lookup o fuel set elem .addIfNotFound
            return set
          | _ => some set) t = some t' := by
  induction rest with
  | nil =>
    intro pre t ht hinv' _ hused hlive
    rw [List.append_nil] at ht
    refine ⟨t, hinv', rfl, by rw [hused, hinv.used, ht], fun k => ?_, fun fuel _ => rfl⟩
    rw [hlive, ← ht]
    rfl
  | cons e rest ih =>
    intro pre t ht hinv' halloc hused hlive
    have ht' : s.table = (pre ++ [e]) ++ rest := by rw [ht]; simp
    have hpre : pre.length < s.table.length := by rw [ht]; simp
    have helem : slotAt s.table pre.length = e := by
      unfold slotAt
      rw [ht]
      simp
    have hnext : ∀ k, (∃ i < (pre ++ [e]).length, slotAt s.table i = .live k) ↔
        e = .live k ∨ ∃ i < pre.length, slotAt s.table i = .live k := by
      intro k
      rw [List.length_append, List.length_singleton]
      constructor
      · intro h
        obtain ⟨i, hi, he⟩ := h
        rcases Nat.lt_succ_iff_lt_or_eq.mp hi with hi | rfl
        · exact Or.inr ⟨i, hi, he⟩
        · exact Or.inl (by rw [← helem]; exact he)
      · intro h
        rcases h with h | ⟨i, hi, he⟩
        · exact ⟨pre.length, by omega, by rw [helem]; exact h⟩
        · exact ⟨i, by omega, he⟩
    cases e with
    | live k =>
      have hroom : t.used < t.alloc := by
        have := size_le pre
        rw [hinv.length] at hpre
        omega
      -- an equal element already moved would come from another slot
      have habs : Absent t.table o.Eqv k := by
        intro i hi a ha heq
        obtain ⟨j, hj, hja⟩ := (hlive a).mp ⟨i, hi, ha⟩
        have := hinv.distinct j (by omega) pre.length hpre a k hja helem heq
        omega
      obtain ⟨t₁, hinv₁, halloc₁, hused₁, hlive₁, hrun₁⟩ := add_room hinv' hroom habs
      obtain ⟨t', h1, h2, h3, h4, hrun⟩ := ih (pre ++ [.live k]) t₁ ht' hinv₁ (by omega)
        (by rw [hused₁, hused]; simp [size, Slot.isLive]) fun a => by
          rw [hlive₁, hlive, hnext]
          simp only [Slot.live.injEq]
          exact or_congr_left eq_comm
      refine ⟨t', h1, by omega, h3, h4, fun fuel hf => ?_⟩
      rw [List.foldlM_cons]
      simp only [hrun₁ fuel hf, Option.bind_eq_bind, Option.bind_some, Option.pure_def]
      exact hrun fuel (by omega)
    | empty =>
      exact ih (pre ++ [.empty]) t ht' hinv' halloc (by rw [hused]; simp [size, Slot.isLive]) fun a => by
        rw [hlive, hnext]
        simp
    | deleted =>
      exact ih (pre ++ [.deleted]) t ht' hinv' halloc (by rw [hused]; simp [size, Slot.isLive]) fun a => by
        rw [hlive, hnext]
        simp

theorem init_inv (n : Nat) : (init n : MpSet κ).Inv o :=
  ⟨List.length_replicate, chained_replicate n, distinct_replicate n, (size_replicate n).symm⟩

theorem not_live_init (n : Nat) (k : κ) : ¬ (init n : MpSet κ).Live k := by
  intro h
  obtain ⟨i, -, hk⟩ := h
  rw [show (init n : MpSet κ).table = List.replicate n .empty from rfl, slotAt_replicate] at hk
  simp at hk

theorem rehash_spec {s : MpSet κ} (hinv : s.Inv o) : ∃ t : MpSet κ, t.Inv o ∧ s.alloc < t.alloc ∧ t.used = s.used ∧
    SameElems s t ∧ ∃ c, ∀ fuel, c ≤ fuel → rehash o fuel s = some t := by
  have hgrow := le_getHashAlloc (s.alloc + 1)
  obtain ⟨t, h1, h2, h3, h4, hrun⟩ := rehash_loop hinv s.table []
    (init (getHashAllocGreaterOrEqualTo (s.alloc + 1))) rfl (init_inv _) hgrow rfl fun k => by
      constructor
      · intro h
        exact absurd h (not_live_init _ k)
      · intro h
        obtain ⟨i, hi, -⟩ := h
        exact absurd hi (Nat.not_lt_zero i)
  refine ⟨t, h1, by rw [h2]; exact hgrow, h3, h4, getHashAllocGreaterOrEqualTo (s.alloc + 1) + 2, fun fuel hf => ?_⟩
  obtain ⟨fuel, rfl⟩ : ∃ f, fuel = f + 1 := ⟨fuel - 1, by omega⟩
  rw [rehash]
  refine hrun fuel ?_
  show getHashAllocGreaterOrEqualTo (s.alloc + 1) + 1 ≤ fuel
  omega

/-! ## A lookup -/

section

variable {s : MpSet κ} {index : κ} {kind : SetLookupKind}

theorem probe_grown (hinv : s.Inv o) : ∃ t r, t.Inv o ∧ SameElems s t ∧ t.used = s.used ∧ Outcome o t index kind r ∧
    ∃ c, ∀ fuel, c ≤ fuel → ((rehash o fuel s).bind fun s =>
      probe o fuel s index kind (o.unaryHash index % s.alloc) (o.unaryHash index % s.alloc) none) = some r := by
  obtain ⟨t, ht, halloc, hused, hsame, c, hrehash⟩ := rehash_spec hinv
  have hroom : t.used < t.alloc := by
    have := size_le s.table
    rw [hinv.length, ← hinv.used] at this
    omega
  obtain ⟨r, ho, hrun⟩ := probe_room ht hroom
  refine ⟨t, r, ht, hsame, hused, ho, c + t.alloc, fun fuel hf => ?_⟩
  rw [hrehash fuel (by omega)]
  exact hrun fuel (by omega)

/-- A lookup ends in the table, or, where it has no such element and no room, in a larger one. -/
theorem lookup_cases (hinv : s.Inv o) :
    (∃ r, Outcome o s index kind r ∧ ∃ c, ∀ fuel, c ≤ fuel → lookup o fuel s index kind = some r) ∨
    (kind.adds = true ∧ Absent s.table o.Eqv index ∧ ∃ t r, t.Inv o ∧ SameElems s t ∧ t.used = s.used ∧ Outcome o t index kind r ∧
      ∃ c, ∀ fuel, c ≤ fuel → lookup o fuel s index kind = some r) := by
  by_cases halloc : s.alloc = 0
  · have habs : Absent s.table o.Eqv index := by
      intro i hi
      rw [hinv.length, halloc] at hi
      exact absurd hi (Nat.not_lt_zero i)
    cases hkind : kind.adds with
    | true =>
      obtain ⟨t, r, ht, hsame, hused, ho, c, hrun⟩ := @probe_grown _ o s index kind hinv
      refine Or.inr ⟨rfl, habs, t, r, ht, hsame, hused, ho, c + 1, fun fuel hf => ?_⟩
      obtain ⟨fuel, rfl⟩ : ∃ f, fuel = f + 1 := ⟨fuel - 1, by omega⟩
      rw [lookup, if_pos halloc, if_pos hkind]
      exact hrun fuel (by omega)
    | false =>
      refine Or.inl ⟨(s, none), .missing hkind habs, 1, fun fuel hf => ?_⟩
      obtain ⟨fuel, rfl⟩ : ∃ f, fuel = f + 1 := ⟨fuel - 1, by omega⟩
      rw [lookup, if_pos halloc, if_neg (by rw [hkind]; simp)]
  · have hlookup : ∀ fuel, lookup o (fuel + 1) s index kind =
        probe o fuel s index kind (o.unaryHash index % s.alloc) (o.unaryHash index % s.alloc) none := by
      intro fuel
      rw [lookup, if_neg halloc]
    have hround := @probe_round _ o s index kind 0 none hinv (Nat.pos_of_ne_zero halloc) Search.start
    rcases hround with ⟨r, ho, hrun⟩ | ⟨hkind, hs, e, hfull⟩
    · refine Or.inl ⟨r, ho, s.alloc + 1, fun fuel hf => ?_⟩
      obtain ⟨fuel, rfl⟩ : ∃ f, fuel = f + 1 := ⟨fuel - 1, by omega⟩
      rw [hlookup]
      exact hrun fuel (by omega)
    · have habs : Absent s.table o.Eqv index := Search.absent_round (by rw [hinv.length]; exact hs)
      obtain ⟨t, r, ht, hsame, hused, ho, c, hrun⟩ := @probe_grown _ o s index kind hinv
      refine Or.inr ⟨hkind, habs, t, r, ht, hsame, hused, ho, c + e + 2, fun fuel hf => ?_⟩
      obtain ⟨fuel, rfl⟩ : ∃ f, fuel = f + e + 2 := ⟨fuel - e - 2, by omega⟩
      rw [hlookup]
      exact (hfull fuel).trans (hrun fuel (by omega))

theorem lookup_spec (hinv : s.Inv o) : ∃ t r, t.Inv o ∧ SameElems s t ∧ t.used = s.used ∧ Outcome o t index kind r ∧
    ∃ c, ∀ fuel, c ≤ fuel → lookup o fuel s index kind = some r := by
  have hcases := @lookup_cases _ o s index kind hinv
  rcases hcases with ⟨r, ho, hrun⟩ | ⟨-, -, hgrown⟩
  · exact ⟨s, r, hinv, .refl s, rfl, ho, hrun⟩
  · exact hgrown

/-- The first filled slot: there is one unless the rest of the table has no element. -/
theorem firstFilled_spec (s : MpSet κ) (n : Nat) : ∀ pos,
    (∃ i k, s.firstFilled n pos = some (i, k) ∧ i < pos + n ∧ slotAt s.table i = .live k) ∨
    (s.firstFilled n pos = none ∧ ∀ i, pos ≤ i → i < pos + n → (slotAt s.table i).isLive = false) := by
  induction n with
  | zero =>
    intro pos
    exact Or.inr ⟨rfl, fun i h1 h2 => absurd h2 (by omega)⟩
  | succ n ih =>
    intro pos
    unfold firstFilled
    cases hslot : slotAt s.table pos with
    | live k => exact Or.inl ⟨pos, k, rfl, by omega, hslot⟩
    | empty =>
      rcases ih (pos + 1) with ⟨i, k, h, hi, hk⟩ | ⟨h, hdead⟩
      · exact Or.inl ⟨i, k, h, by omega, hk⟩
      · refine Or.inr ⟨h, fun i h1 h2 => ?_⟩
        rcases Nat.eq_or_lt_of_le h1 with rfl | h1
        · rw [hslot]; rfl
        · exact hdead i h1 (by omega)
    | deleted =>
      rcases ih (pos + 1) with ⟨i, k, h, hi, hk⟩ | ⟨h, hdead⟩
      · exact Or.inl ⟨i, k, h, by omega, hk⟩
      · refine Or.inr ⟨h, fun i h1 h2 => ?_⟩
        rcases Nat.eq_or_lt_of_le h1 with rfl | h1
        · rw [hslot]; rfl
        · exact hdead i h1 (by omega)

end

/-! ## Runs -/

/-- A call on a finite set, and the member it returns. -/
inductive Step {α : Type} [DecidableEq α] : Finset α → Op α → Option α → Finset α → Prop where
  | hit {S : Finset α} {q : α} (h : q ∈ S) : Step S (.lookup .lookup q) (some q) S
  | miss {S : Finset α} {q : α} (h : q ∉ S) : Step S (.lookup .lookup q) none S
  | add {S : Finset α} {q : α} : Step S (.lookup .addIfNotFound q) (some q) (insert q S)
  | remove {S : Finset α} {q : α} (h : q ∈ S) : Step S (.lookup .removeIfFound q) (some q) (S.erase q)
  | nothing {S : Finset α} {q : α} (h : q ∉ S) : Step S (.lookup .removeIfFound q) none S
  | toggle {S : Finset α} {q : α} :
      Step S (.lookup .addIfNotFoundOrRemoveIfFound q) (some q) (if q ∈ S then S.erase q else insert q S)
  | first {S : Finset α} {q : α} (h : q ∈ S) : Step S .removeFirst (some q) (S.erase q)
  | none : Step ∅ .removeFirst none ∅
  | clear {S : Finset α} : Step S .clear none ∅

inductive Steps {α : Type} [DecidableEq α] : Finset α → List (Op α) → List (Option α) → Finset α → Prop where
  | nil {S : Finset α} : Steps S [] [] S
  | cons {S T U : Finset α} {op : Op α} {ops : List (Op α)} {out : Option α} {outs : List (Option α)}
      (h : Step S op out T) (hs : Steps T ops outs U) : Steps S (op :: ops) (out :: outs) U

def Op.map {α β : Type} (f : α → β) : Op α → Op β
  | .lookup kind index => .lookup kind (f index)
  | .removeFirst => .removeFirst
  | .clear => .clear

theorem lookup_step {s : MpSet κ} {S : Finset o.Class} {index : κ} {kind : SetLookupKind} {r : MpSet κ × Option κ}
    (hinv : s.Inv o) (hf : s.Holds o S) (ho : Outcome o s index kind r) :
    ∃ T, r.1.Inv o ∧ r.1.Holds o T ∧ Step S (.lookup kind (o.cls index)) (r.2.map o.cls) T := by
  cases ho with
  | @found i k hk hi hlive heq =>
    have hcls : o.cls k = o.cls index := o.cls_eq.mpr heq
    have hmem : o.cls index ∈ S := hcls ▸ hf.mem_of_live hinv hi hlive
    refine ⟨S, hinv, hf, ?_⟩
    rw [Option.map_some, hcls]
    cases kind with
    | lookup => exact .hit hmem
    | addIfNotFound =>
      have := Step.add (S := S) (q := o.cls index)
      rwa [Finset.insert_eq_of_mem hmem] at this
    | removeIfFound => simp [SetLookupKind.removes] at hk
    | addIfNotFoundOrRemoveIfFound => simp [SetLookupKind.removes] at hk
  | @removed i k hk hi hlive heq =>
    have hcls : o.cls k = o.cls index := o.cls_eq.mpr heq
    have hmem : o.cls index ∈ S := hcls ▸ hf.mem_of_live hinv hi hlive
    refine ⟨S.erase (o.cls index), vacate_inv hinv hi hlive, hcls ▸ hf.vacate hinv hi hlive, ?_⟩
    rw [Option.map_some, hcls]
    cases kind with
    | lookup => simp [SetLookupKind.removes] at hk
    | addIfNotFound => simp [SetLookupKind.removes] at hk
    | removeIfFound => exact .remove hmem
    | addIfNotFoundOrRemoveIfFound =>
      have := Step.toggle (S := S) (q := o.cls index)
      rwa [if_pos hmem] at this
  | missing hk habs =>
    have hnot := hf.notMem_of_absent habs
    refine ⟨S, hinv, hf, ?_⟩
    cases kind with
    | lookup => exact .miss hnot
    | addIfNotFound => simp [SetLookupKind.adds] at hk
    | removeIfFound => exact .nothing hnot
    | addIfNotFoundOrRemoveIfFound => simp [SetLookupKind.adds] at hk
  | added hk habs hv =>
    have hnot := hf.notMem_of_absent habs
    refine ⟨insert (o.cls index) S, occupy_inv hinv habs hv, hf.occupy habs hv, ?_⟩
    cases kind with
    | lookup => simp [SetLookupKind.adds] at hk
    | addIfNotFound => exact .add
    | removeIfFound => simp [SetLookupKind.adds] at hk
    | addIfNotFoundOrRemoveIfFound =>
      have := Step.toggle (S := S) (q := o.cls index)
      rwa [if_neg hnot] at this

/-- One call: it returns, and the finite set makes the same step. -/
theorem exec_spec {s : MpSet κ} {S : Finset o.Class} (hinv : s.Inv o) (hf : s.Holds o S) (op : Op κ) :
    ∃ (t : MpSet κ) (out : Option κ) (T : Finset o.Class), t.Inv o ∧ t.Holds o T ∧
      Step S (op.map o.cls) (out.map o.cls) T ∧ ∃ c, ∀ fuel, c ≤ fuel → exec o fuel s op = some (t, out) := by
  cases op with
  | lookup kind index =>
    obtain ⟨t, r, ht, hsame, hused, ho, c, hrun⟩ := @lookup_spec _ o s index kind hinv
    obtain ⟨T, hinv', hf', hstep⟩ := lookup_step ht (hf.same hsame hused) ho
    exact ⟨r.1, r.2, T, hinv', hf', hstep, c, hrun⟩
  | removeFirst =>
    rcases s.firstFilled_spec s.alloc 0 with ⟨i, k, h, hi, hk⟩ | ⟨h, hdead⟩
    · have hi' : i < s.alloc := by omega
      refine ⟨s.vacate i, some k, S.erase (o.cls k), vacate_inv hinv hi' hk, hf.vacate hinv hi' hk,
        .first (hf.mem_of_live hinv hi' hk), 0, fun fuel _ => ?_⟩
      simp only [exec, removeFirst, h]
    · have hempty : S = ∅ := by
        rw [Finset.eq_empty_iff_forall_notMem]
        intro q hq
        obtain ⟨k, ⟨i, hi, hlive⟩, -⟩ := (hf.mem q).mp hq
        have := hdead i (Nat.zero_le i) (by rw [hinv.length] at hi; omega)
        rw [hlive] at this
        simp [Slot.isLive] at this
      subst hempty
      refine ⟨s, none, ∅, hinv, hf, .none, 0, fun fuel _ => ?_⟩
      simp only [exec, removeFirst, h]
  | clear =>
    refine ⟨s.clear, none, ∅, init_inv 0, ⟨fun q => ?_, rfl⟩, .clear, 0, fun _ _ => rfl⟩
    constructor
    · intro h
      simp at h
    · intro h
      obtain ⟨k, hk, -⟩ := h
      exact absurd hk (not_live_init 0 k)

theorem run_spec (ops : List (Op κ)) : ∀ (s : MpSet κ) (S : Finset o.Class), s.Inv o → s.Holds o S →
    ∃ (t : MpSet κ) (outs : List (Option κ)) (T : Finset o.Class), t.Inv o ∧ t.Holds o T ∧
      Steps S (ops.map (Op.map o.cls)) (outs.map (Option.map o.cls)) T ∧
      ∃ c, ∀ fuel, c ≤ fuel → run o fuel s ops = some (t, outs) := by
  induction ops with
  | nil =>
    intro s S hinv hf
    exact ⟨s, [], S, hinv, hf, .nil, 0, fun _ _ => rfl⟩
  | cons op ops ih =>
    intro s S hinv hf
    obtain ⟨s₁, out, S₁, hinv₁, hf₁, hstep, c₁, hexec⟩ := exec_spec hinv hf op
    obtain ⟨t, outs, T, ht, hft, hsteps, c, hrun⟩ := ih s₁ S₁ hinv₁ hf₁
    refine ⟨t, out :: outs, T, ht, hft, .cons hstep hsteps, c + c₁, fun fuel hc => ?_⟩
    simp only [run, hexec fuel (by omega), Option.bind_eq_bind, Option.bind_some, hrun fuel (by omega)]
    rfl

/-- Every run of calls on a new set of any size returns, and what it returns is a run of the finite set. In the
table it leaves `used` counts the elements, no two are equal, and growing it changes no element. -/
theorem set_refines (o : Objects κ) (n : Nat) (ops : List (Op κ)) :
    ∃ (s : MpSet κ) (outs : List (Option κ)) (S : Finset o.Class),
      (∃ c, ∀ fuel, c ≤ fuel → run o fuel (init n) ops = some (s, outs)) ∧
      Steps ∅ (ops.map (Op.map o.cls)) (outs.map (Option.map o.cls)) S ∧ s.Holds o S ∧ s.used = size s.table ∧
      Distinct s.table o.Eqv ∧
      ∃ g : MpSet κ, (∃ c, ∀ fuel, c ≤ fuel → rehash o fuel s = some g) ∧ SameElems s g ∧ g.used = s.used ∧
        Distinct g.table o.Eqv := by
  have hf : (init n : MpSet κ).Holds o ∅ := by
    refine ⟨fun q => ?_, rfl⟩
    constructor
    · intro h
      simp at h
    · intro h
      obtain ⟨k, hk, -⟩ := h
      exact absurd hk (not_live_init n k)
  obtain ⟨s, outs, S, hs, hfs, hsteps, hrun⟩ := run_spec ops (init n) ∅ (init_inv n) hf
  obtain ⟨g, hg, -, hused, hsame, hgrow⟩ := rehash_spec hs
  exact ⟨s, outs, S, hrun, hsteps, hfs, hs.used, hs.distinct, g, hgrow, hsame, hused, hg.distinct⟩

end PythonUltra.Py.MpSet
