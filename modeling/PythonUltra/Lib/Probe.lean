/-
  PythonUltra.Lib.Probe — open addressing with linear probing.

  A table is a list of slots: empty, deleted (a tombstone) or live with a key. The search
  for a key visits the slots from its hash on, around the end of the table, until an empty
  one. `Chained` is what makes that right: no empty slot stands between a live key's hash
  and its slot. `Distinct`: no two live slots hold equal keys. `Search` is what a search
  knows after some turns; its ends say where the key is, that it is nowhere, or where it
  may be put (`Vacancy`).
-/

import Mathlib.Data.List.Basic

namespace PythonUltra.Lib.Probe

inductive Slot (κ : Type) where
  | empty
  | deleted
  | live (k : κ)
  deriving DecidableEq, Repr

variable {κ : Type}

def Slot.isLive : Slot κ → Bool
  | .live _ => true
  | _ => false

/-- The slot at a position; there is nothing past the end. -/
def slotAt (t : List (Slot κ)) (i : Nat) : Slot κ := t.getD i .empty

/-- The live slots of a table. -/
def size (t : List (Slot κ)) : Nat := t.countP Slot.isLive

theorem slotAt_set {t : List (Slot κ)} {i : Nat} (hi : i < t.length) (x : Slot κ) (j : Nat) :
    slotAt (t.set i x) j = if j = i then x else slotAt t j := by
  unfold slotAt
  rw [List.getD_eq_getElem?_getD, List.getD_eq_getElem?_getD, List.getElem?_set]
  by_cases e : i = j
  · subst e
    simp [hi]
  · rw [if_neg e, if_neg (Ne.symm e)]

theorem exists_turn {n i : Nat} (s : Nat) (hi : i < n) : ∃ d < n, (s + d) % n = i := by
  refine ⟨(i + (n - s % n)) % n, Nat.mod_lt _ (by omega), ?_⟩
  have hs : s % n < n := Nat.mod_lt _ (by omega)
  have hsum : s % n + (i + (n - s % n)) = i + n := by omega
  rw [← Nat.mod_add_mod, Nat.add_mod_mod, hsum, Nat.add_mod_right, Nat.mod_eq_of_lt hi]

/-- Going on from turn `d` is back at the start after the whole round, and not before. -/
theorem around_iff {n d : Nat} (s : Nat) (hd : d < n) : ((s + d) % n + 1) % n = s % n ↔ d + 1 = n := by
  have hnext : ((s + d) % n + 1) % n = (s % n + (d + 1)) % n := by
    rw [Nat.mod_add_mod, Nat.mod_add_mod, Nat.add_assoc]
  have hs : s % n < n := Nat.mod_lt _ (by omega)
  rw [hnext]
  constructor
  · intro h
    by_contra hne
    rcases Nat.lt_or_ge (s % n + (d + 1)) n with hlt | hge
    · rw [Nat.mod_eq_of_lt hlt] at h
      omega
    · rw [Nat.mod_eq_sub_mod hge, Nat.mod_eq_of_lt (by omega)] at h
      omega
  · intro h
    rw [h, Nat.add_mod_right, Nat.mod_mod]

section

variable (h : κ → Nat) (t : List (Slot κ))

/-- The slots from the hash of a key up to turn `d` are in use. -/
def Busy (k : κ) (d : Nat) : Prop := ∀ e < d, slotAt t ((h k + e) % t.length) ≠ .empty

def Chained : Prop :=
  ∀ i < t.length, ∀ k, slotAt t i = .live k → ∃ d < t.length, i = (h k + d) % t.length ∧ Busy h t k d

variable (r : κ → κ → Prop)

def Distinct : Prop :=
  ∀ i < t.length, ∀ j < t.length, ∀ a b, slotAt t i = .live a → slotAt t j = .live b → r a b → i = j

/-- No live key is equal to `k`. -/
def Absent (k : κ) : Prop := ∀ i < t.length, ∀ a, slotAt t i = .live a → ¬ r a k

/-- A slot `k` may be put in: not live, and reached from the hash of `k` over slots in use. -/
structure Vacancy (k : κ) (p : Nat) : Prop where
  lt : p < t.length
  free : (slotAt t p).isLive = false
  reached : ∃ d < t.length, p = (h k + d) % t.length ∧ Busy h t k d

/-- The search for `k` before turn `d`: nothing found, `avail` a deleted slot passed by, if any. -/
structure Search (k : κ) (d : Nat) (avail : Option Nat) : Prop where
  busy : Busy h t k d
  other : ∀ e < d, ∀ a, slotAt t ((h k + e) % t.length) = .live a → ¬ r a k
  fresh : avail = none → ∀ e < d, slotAt t ((h k + e) % t.length) ≠ .deleted
  passed : ∀ p, avail = some p → ∃ e < d, p = (h k + e) % t.length ∧ slotAt t p = .deleted

end

section

variable {h : κ → Nat} {t : List (Slot κ)} {r : κ → κ → Prop} {k : κ} {d i : Nat} {avail : Option Nat}

theorem size_le (t : List (Slot κ)) : size t ≤ t.length := List.countP_le_length

theorem getElem_eq_slotAt (hi : i < t.length) : t[i] = slotAt t i := by
  unfold slotAt
  rw [List.getD_eq_getElem?_getD, List.getElem?_eq_getElem hi]
  rfl

/-! ## Searching -/

theorem Search.start : Search h t r k 0 none :=
  ⟨fun e he => absurd he (Nat.not_lt_zero e), fun e he => absurd he (Nat.not_lt_zero e),
    fun _ e he => absurd he (Nat.not_lt_zero e), fun p hp => by simp at hp⟩

theorem Busy.next (hb : Busy h t k d) (hd : slotAt t ((h k + d) % t.length) ≠ .empty) : Busy h t k (d + 1) := by
  intro e he
  rcases Nat.lt_succ_iff_lt_or_eq.mp he with he | rfl
  · exact hb e he
  · exact hd

/-- A live slot with another key is passed. -/
theorem Search.skip {a : κ} (hs : Search h t r k d avail) (ha : slotAt t ((h k + d) % t.length) = .live a)
    (hne : ¬ r a k) : Search h t r k (d + 1) avail := by
  refine ⟨hs.busy.next (by rw [ha]; simp), ?_, ?_, ?_⟩
  · intro e he b hb
    rcases Nat.lt_succ_iff_lt_or_eq.mp he with he | rfl
    · exact hs.other e he b hb
    · rw [ha] at hb
      rw [← Slot.live.inj hb]
      exact hne
  · intro hn e he
    rcases Nat.lt_succ_iff_lt_or_eq.mp he with he | rfl
    · exact hs.fresh hn e he
    · rw [ha]; simp
  · intro p hp
    obtain ⟨e, he, h'⟩ := hs.passed p hp
    exact ⟨e, Nat.lt_succ_of_lt he, h'⟩

/-- A deleted slot is passed, and kept in mind if it is the first. -/
theorem Search.pass (hs : Search h t r k d avail) (hd : slotAt t ((h k + d) % t.length) = .deleted) :
    Search h t r k (d + 1) (avail.or (some ((h k + d) % t.length))) := by
  refine ⟨hs.busy.next (by rw [hd]; simp), ?_, ?_, ?_⟩
  · intro e he b hb
    rcases Nat.lt_succ_iff_lt_or_eq.mp he with he | rfl
    · exact hs.other e he b hb
    · rw [hd] at hb
      simp at hb
  · intro hn
    cases avail <;> simp at hn
  · intro p hp
    cases avail with
    | none =>
      obtain rfl := Option.some.inj hp
      exact ⟨d, Nat.lt_succ_self d, rfl, hd⟩
    | some q =>
      obtain ⟨e, he, h'⟩ := hs.passed p hp
      exact ⟨e, Nat.lt_succ_of_lt he, h'⟩

theorem Search.absent (hs : Search h t r k d avail) (hc : Chained h t) (hash : ∀ a, r a k → h a = h k)
    (he : slotAt t ((h k + d) % t.length) = .empty) : Absent t r k := by
  intro i hi a ha hak
  obtain ⟨d', -, hi', hb⟩ := hc i hi a ha
  unfold Busy at hb
  rw [hash a hak] at hi' hb
  rcases Nat.lt_trichotomy d' d with hlt | heq | hgt
  · exact hs.other d' hlt a (by rw [← hi']; exact ha) hak
  · rw [heq] at hi'
    rw [← hi', ha] at he
    simp at he
  · exact hb d hgt he

theorem Search.absent_round (hs : Search h t r k t.length avail) : Absent t r k := by
  intro i hi a ha
  obtain ⟨d', hd', e⟩ := exists_turn (h k) hi
  exact hs.other d' hd' a (by rw [e]; exact ha)

theorem Search.vacancy {p : Nat} (hs : Search h t r k d (some p)) (hd : d ≤ t.length) : Vacancy h t k p := by
  obtain ⟨e, he, hp, hdel⟩ := hs.passed p rfl
  refine ⟨?_, by rw [hdel]; rfl, e, by omega, hp, fun e' he' => hs.busy e' (by omega)⟩
  rw [hp]
  exact Nat.mod_lt _ (by omega)

theorem Search.vacancy_empty (hs : Search h t r k d avail) (hd : d < t.length)
    (he : slotAt t ((h k + d) % t.length) = .empty) : Vacancy h t k ((h k + d) % t.length) :=
  ⟨Nat.mod_lt _ (by omega), by rw [he]; rfl, d, hd, rfl, hs.busy⟩

theorem Search.full (hs : Search h t r k t.length none) : size t = t.length := by
  refine List.countP_eq_length.mpr fun x hx => ?_
  obtain ⟨i, hi, rfl⟩ := List.mem_iff_getElem.mp hx
  obtain ⟨d', hd', e⟩ := exists_turn (h k) hi
  have h1 := hs.busy d' hd'
  have h2 := hs.fresh rfl d' hd'
  rw [e, ← getElem_eq_slotAt hi] at h1 h2
  cases hx : t[i] with
  | empty => exact absurd hx h1
  | deleted => exact absurd hx h2
  | live a => rfl

/-! ## Changing a slot -/

theorem busy_set {x : Slot κ} (hi : i < t.length) (hx : x ≠ .empty) {a : κ} (hb : Busy h t a d) :
    Busy h (t.set i x) a d := by
  intro e he
  rw [List.length_set, slotAt_set hi]
  split
  · exact hx
  · exact hb e he

theorem Chained.put (hc : Chained h t) (hv : Vacancy h t k i) : Chained h (t.set i (.live k)) := by
  intro j hj a ha
  rw [List.length_set] at hj ⊢
  rw [slotAt_set hv.lt] at ha
  by_cases e : j = i
  · subst e
    rw [if_pos rfl] at ha
    obtain ⟨d, hd, hp, hb⟩ := hv.reached
    rw [← Slot.live.inj ha]
    exact ⟨d, hd, hp, busy_set hv.lt (by simp) hb⟩
  · rw [if_neg e] at ha
    obtain ⟨d, hd, hp, hb⟩ := hc j hj a ha
    exact ⟨d, hd, hp, busy_set hv.lt (by simp) hb⟩

theorem Chained.delete (hc : Chained h t) (hi : i < t.length) : Chained h (t.set i .deleted) := by
  intro j hj a ha
  rw [List.length_set] at hj ⊢
  rw [slotAt_set hi] at ha
  by_cases e : j = i
  · rw [if_pos e] at ha
    simp at ha
  · rw [if_neg e] at ha
    obtain ⟨d, hd, hp, hb⟩ := hc j hj a ha
    exact ⟨d, hd, hp, busy_set hi (by simp) hb⟩

/-- A slot before an empty one is on no other key's way. -/
theorem Chained.clear (hc : Chained h t) (hi : i < t.length) (hnext : slotAt t ((i + 1) % t.length) = .empty) :
    Chained h (t.set i .empty) := by
  intro j hj a ha
  rw [List.length_set] at hj ⊢
  rw [slotAt_set hi] at ha
  by_cases e : j = i
  · rw [if_pos e] at ha
    simp at ha
  · rw [if_neg e] at ha
    obtain ⟨d, hd, hp, hb⟩ := hc j hj a ha
    refine ⟨d, hd, hp, fun f hf => ?_⟩
    rw [List.length_set, slotAt_set hi]
    split
    · rename_i hfi
      -- the slot after `i` would be on the way too, or be the key's own
      have hstep : (h a + (f + 1)) % t.length = (i + 1) % t.length := by
        rw [← Nat.add_assoc, ← Nat.mod_add_mod, hfi]
      rcases Nat.lt_or_ge (f + 1) d with hlt | hge
      · exact absurd hnext (by rw [← hstep]; exact hb (f + 1) hlt)
      · have hd' : f + 1 = d := by omega
        rw [← hstep, hd', ← hp, ha] at hnext
        simp at hnext
    · exact hb f hf

theorem Distinct.put (hd : Distinct t r) (hsymm : ∀ a b, r a b → r b a) (hi : i < t.length) (ha : Absent t r k) :
    Distinct (t.set i (.live k)) r := by
  intro x hx y hy a b hxa hyb hab
  rw [List.length_set] at hx hy
  rw [slotAt_set hi] at hxa hyb
  by_cases ex : x = i
  · by_cases ey : y = i
    · rw [ex, ey]
    · rw [if_pos ex] at hxa
      rw [if_neg ey] at hyb
      rw [← Slot.live.inj hxa] at hab
      exact absurd (hsymm _ _ hab) (ha y hy b hyb)
  · rw [if_neg ex] at hxa
    by_cases ey : y = i
    · rw [if_pos ey] at hyb
      rw [← Slot.live.inj hyb] at hab
      exact absurd hab (ha x hx a hxa)
    · rw [if_neg ey] at hyb
      exact hd x hx y hy a b hxa hyb hab

theorem Distinct.drop {x : Slot κ} (hd : Distinct t r) (hi : i < t.length) (hx : x.isLive = false) :
    Distinct (t.set i x) r := by
  have keep : ∀ j a, slotAt (t.set i x) j = .live a → slotAt t j = .live a := by
    intro j a ha
    rw [slotAt_set hi] at ha
    split at ha
    · rw [ha] at hx
      simp [Slot.isLive] at hx
    · exact ha
  intro y hy z hz a b hya hzb hab
  rw [List.length_set] at hy hz
  exact hd y hy z hz a b (keep y a hya) (keep z b hzb) hab

theorem size_put (hi : i < t.length) (hfree : (slotAt t i).isLive = false) : size (t.set i (.live k)) = size t + 1 := by
  unfold size
  rw [List.countP_set hi, getElem_eq_slotAt hi, hfree]
  rfl

theorem size_drop {x : Slot κ} (hi : i < t.length) (hlive : (slotAt t i).isLive = true) (hx : x.isLive = false) :
    size (t.set i x) = size t - 1 := by
  unfold size
  rw [List.countP_set hi, getElem_eq_slotAt hi, hlive, hx]
  rfl

/-! ## A table of empty slots -/

theorem slotAt_replicate (n i : Nat) : slotAt (List.replicate n (.empty : Slot κ)) i = .empty := by
  unfold slotAt
  rw [List.getD_eq_getElem?_getD, List.getElem?_replicate]
  split <;> rfl

theorem chained_replicate (n : Nat) : Chained h (List.replicate n (.empty : Slot κ)) := by
  intro i _ k hk
  rw [slotAt_replicate] at hk
  simp at hk

theorem distinct_replicate (n : Nat) : Distinct (List.replicate n (.empty : Slot κ)) r := by
  intro i _ j _ a b ha
  rw [slotAt_replicate] at ha
  simp at ha

theorem size_replicate (n : Nat) : size (List.replicate n (.empty : Slot κ)) = 0 := by
  unfold size
  rw [List.countP_replicate]
  rfl

end

end PythonUltra.Lib.Probe
