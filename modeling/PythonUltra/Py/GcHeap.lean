/-
  PythonUltra.Py.GcHeap — well-formed heaps, and which words point to a block.

  `Area.Ok` is what holds of an area between two calls, `WellFormed` what holds of a heap.
  A word is a pointer when it is the address of a block (`target_iff`); which words are does
  not depend on the tables (`target_congr`). `Live` says what a collection keeps.
-/

import PythonUltra.Py.GcTable

namespace PythonUltra.Py.Gc

/-- What never changes of an area. -/
def Area.frame (a : Area) : Nat × Nat × Nat := (a.allocTableByteLen, a.poolStart, a.poolEnd)

theorem Area.Same.frame {a a' : Area} (h : Area.Same a a') : a'.frame = a.frame := by
  rw [Area.frame, Area.frame, h.len, h.poolStart, h.poolEnd]

theorem Area.same_of_frame {a a' : Area} (h : a'.frame = a.frame) : Area.Same a a' := by
  obtain ⟨h1, h2⟩ := Prod.mk.inj h
  obtain ⟨h2, h3⟩ := Prod.mk.inj h2
  exact ⟨h1, h2, h3⟩

section
variable (c : Config)

structure Area.Ok (a : Area) : Prop where
  /-- the byte after the table -/
  gap : a.getKind a.numBlocks = .free
  tail : ∀ b < a.numBlocks, a.getKind b = .tail → ∃ b', b = b' + 1 ∧ (a.getKind b' = .head ∨ a.getKind b' = .tail)
  used : ∀ b < a.numBlocks, a.getKind b ≠ .free → b ≤ a.lastUsedBlock
  last : a.lastUsedBlock ≤ a.numBlocks
  noMark : ∀ b < a.numBlocks, a.getKind b ≠ .mark
  aligned : a.poolStart % c.bytesPerBlock = 0
  pool : a.poolEnd = a.poolStart + a.numBlocks * c.bytesPerBlock

/-- The pools of two areas. -/
def Apart (f f' : Nat × Nat × Nat) : Prop := f.2.2 ≤ f'.2.1 ∨ f'.2.2 ≤ f.2.1

instance : DecidableRel Apart := fun f f' => inferInstanceAs (Decidable (f.2.2 ≤ f'.2.1 ∨ f'.2.2 ≤ f.2.1))

structure WellFormed (areas : List Area) : Prop where
  area : ∀ a ∈ areas, a.Ok c
  apart : (areas.map Area.frame).Pairwise Apart

/-- The address of a block. -/
def AddressOf (areas : List Area) (r : Ref) (ptr : Nat) : Prop :=
  ∃ a, areas[r.1]? = some a ∧ r.2 < a.numBlocks ∧ ptr = a.ptrFromBlock c r.2

/-- The address of a block that is a head. -/
def HeadAt (areas : List Area) (r : Ref) (ptr : Nat) : Prop := AddressOf c areas r ptr ∧ kindAt areas r = .head

/-- A word of the allocation that starts at a block. -/
def WordOf (mem : Nat → Nat) (areas : List Area) (r : Ref) (w : Nat) : Prop :=
  ∃ a n k, areas[r.1]? = some a ∧ a.Chain r.2 n ∧ k < 4 * n ∧ w = mem (a.ptrFromBlock c r.2 + k * c.wordBytes)

/-- The heads that can be reached from the roots, through words equal to the address of a head. -/
inductive Live (env : Env) (areas : List Area) : Ref → Prop
  | root {w : Nat} {r : Ref} : w ∈ env.roots → HeadAt c areas r w → Live env areas r
  | word {w : Nat} {r r' : Ref} : Live env areas r → WordOf c env.mem areas r w → HeadAt c areas r' w → Live env areas r'

end

variable {c : Config} {areas areas' : List Area} {a a' : Area} {i b : Nat} {ptr : Nat} {r r' : Ref}

namespace Config

theorem wordBytes_pos : 0 < c.wordBytes := Nat.two_pow_pos _

theorem bytesPerBlock_pos : 0 < c.bytesPerBlock := Nat.mul_pos (by decide) wordBytes_pos

end Config

theorem kindAt_eq (ha : areas[i]? = some a) : kindAt areas (i, b) = a.getKind b := by
  simp only [kindAt, ha]

theorem WellFormed.ok (h : WellFormed c areas) (ha : areas[i]? = some a) : a.Ok c := h.area a (List.mem_of_getElem? ha)

/-- Two pools have no address in common. -/
theorem WellFormed.index_unique {j : Nat} (h : WellFormed c areas) (ha : areas[i]? = some a) (ha' : areas[j]? = some a')
    (hc : a.contains ptr = true) (hc' : a'.contains ptr = true) : i = j := by
  have key : ∀ {i j : Nat} {a a' : Area}, areas[i]? = some a → areas[j]? = some a' → a.contains ptr = true → a'.contains ptr = true → ¬ i < j := by
    intro i j a a' ha ha' hc hc' hlt
    obtain ⟨hi, rfl⟩ := List.getElem?_eq_some_iff.mp ha
    obtain ⟨hj, rfl⟩ := List.getElem?_eq_some_iff.mp ha'
    have hap := List.pairwise_iff_getElem.mp h.apart i j (by simpa using hi) (by simpa using hj) hlt
    rw [List.getElem_map, List.getElem_map] at hap
    simp only [Area.contains, Bool.and_eq_true, decide_eq_true_eq, ge_iff_le] at hc hc'
    simp only [Apart, Area.frame] at hap
    omega
  have h1 := key ha ha' hc hc'
  have h2 := key ha' ha hc' hc
  omega

theorem contains_ptr (hok : a.Ok c) (hb : b < a.numBlocks) : a.contains (a.ptrFromBlock c b) = true := by
  have hlt : b * c.bytesPerBlock < a.numBlocks * c.bytesPerBlock := Nat.mul_lt_mul_of_pos_right hb Config.bytesPerBlock_pos
  have hpool := hok.pool
  rw [Area.contains, Area.ptrFromBlock, Bool.and_eq_true]
  exact ⟨decide_eq_true (by omega), decide_eq_true (by omega)⟩

theorem blockFromPtr_ptr : a.blockFromPtr c (a.ptrFromBlock c b) = b := by
  rw [Area.blockFromPtr, Area.ptrFromBlock, Nat.add_sub_cancel, Nat.mul_div_cancel _ Config.bytesPerBlock_pos]

/-- A word points to a block when it is the block's address. -/
theorem target_iff (h : WellFormed c areas) : target c areas ptr = some r ↔ AddressOf c areas r ptr := by
  have hpos : 0 < c.bytesPerBlock := Config.bytesPerBlock_pos
  constructor
  · intro ht
    simp only [target, gcGetPtrArea] at ht
    by_cases halign : ptr % c.bytesPerBlock = 0
    · rw [if_neg (not_not_intro halign)] at ht
      obtain ⟨i, hi, ht⟩ := Option.bind_eq_some_iff.mp ht
      obtain ⟨a, ha, ht⟩ := Option.bind_eq_some_iff.mp ht
      obtain rfl : (i, a.blockFromPtr c ptr) = r := Option.some.inj ht
      have hok := h.ok ha
      obtain ⟨hlt, hcon, -⟩ := List.findIdx?_eq_some_iff_getElem.mp hi
      obtain ⟨_, rfl⟩ := List.getElem?_eq_some_iff.mp ha
      simp only [Area.contains, Bool.and_eq_true, decide_eq_true_eq, ge_iff_le] at hcon
      have hpool := hok.pool
      have hdvd : c.bytesPerBlock ∣ ptr - areas[i].poolStart :=
        Nat.dvd_sub (Nat.dvd_of_mod_eq_zero halign) (Nat.dvd_of_mod_eq_zero hok.aligned)
      have hmul : areas[i].blockFromPtr c ptr * c.bytesPerBlock = ptr - areas[i].poolStart := Nat.div_mul_cancel hdvd
      refine ⟨areas[i], ha, ?_, ?_⟩
      · exact (Nat.div_lt_iff_lt_mul hpos).mpr (by omega)
      · show ptr = areas[i].blockFromPtr c ptr * c.bytesPerBlock + areas[i].poolStart
        omega
    · rw [if_pos halign] at ht
      exact absurd ht (by simp)
  · rintro ⟨a, ha, hb, rfl⟩
    have hok := h.ok ha
    have halign : a.ptrFromBlock c r.2 % c.bytesPerBlock = 0 := by
      rw [Area.ptrFromBlock, Nat.mul_add_mod_self_right]
      exact hok.aligned
    have hcon := contains_ptr hok hb
    have hidx : areas.findIdx? (·.contains (a.ptrFromBlock c r.2)) = some r.1 := by
      obtain ⟨hlt, hget⟩ := List.getElem?_eq_some_iff.mp ha
      refine List.findIdx?_eq_some_iff_getElem.mpr ⟨hlt, by rw [hget]; exact hcon, fun j hj hcj => ?_⟩
      have := h.index_unique (List.getElem?_eq_getElem (Nat.lt_trans hj hlt)) ha hcj hcon
      omega
    simp [target, gcGetPtrArea, halign, hidx, ha, blockFromPtr_ptr]

/-- Only the pools matter. -/
theorem target_congr (h : areas'.map Area.frame = areas.map Area.frame) : target c areas' ptr = target c areas ptr := by
  have hidx : gcGetPtrArea c areas' ptr = gcGetPtrArea c areas ptr := by
    have hcon : ∀ a : Area, a.contains ptr = (fun f : Nat × Nat × Nat => decide (ptr ≥ f.2.1) && decide (ptr < f.2.2)) a.frame := fun a => rfl
    have hmap := congrArg (List.findIdx? fun f : Nat × Nat × Nat => decide (ptr ≥ f.2.1) && decide (ptr < f.2.2)) h
    rw [List.findIdx?_map, List.findIdx?_map] at hmap
    simp only [gcGetPtrArea]
    by_cases halign : ptr % c.bytesPerBlock = 0
    · rw [if_neg (not_not_intro halign), if_neg (not_not_intro halign)]
      exact hmap
    · rw [if_pos halign, if_pos halign]
  simp only [target, hidx]
  cases gcGetPtrArea c areas ptr with
  | none => rfl
  | some i =>
    have hi := congrArg (·[i]?) h
    simp only [List.getElem?_map] at hi
    cases ha : areas[i]? with
    | none =>
      rw [ha] at hi
      simp [Option.map_eq_none_iff.mp hi, ha]
    | some a =>
      rw [ha] at hi
      obtain ⟨a', ha', hf⟩ := Option.map_eq_some_iff.mp hi
      have hsame := Area.same_of_frame hf
      simp [ha', ha, Area.blockFromPtr, hsame.poolStart]

theorem AddressOf.unique (h : WellFormed c areas) (hr : AddressOf c areas r ptr) (hr' : AddressOf c areas r' ptr) : r = r' :=
  Option.some.inj (((target_iff h).mpr hr).symm.trans ((target_iff h).mpr hr'))

theorem AddressOf.ptr_unique {ptr' : Nat} (hr : AddressOf c areas r ptr) (hr' : AddressOf c areas r ptr') : ptr = ptr' := by
  obtain ⟨a, ha, -, rfl⟩ := hr
  obtain ⟨a', ha', -, rfl⟩ := hr'
  rw [Option.some.inj (ha.symm.trans ha')]

theorem Live.headAt {env : Env} (h : Live c env areas r) : ∃ w, HeadAt c areas r w := by
  cases h with
  | root _ hw => exact ⟨_, hw⟩
  | word _ _ hw => exact ⟨_, hw⟩

end PythonUltra.Py.Gc
