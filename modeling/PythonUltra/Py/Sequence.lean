/-
  PythonUltra.Py.Sequence — what the sequence types share: the checked index of py/obj.c,
  the splices of py/obj.h and the blocks of py/gc.c, on a machine with words of 32 bits.

  `mp_seq_replace_slice_grow_inplace` and `mp_seq_replace_slice_no_grow` put the slice in
  the place of what they replace, also where the slice is in the block that they move
  (`replaceSliceGrowInplace_spec`, `replaceSliceNoGrow_spec`).
-/

import PythonUltra.Lib.Splice
import PythonUltra.Py.Slice

open PythonUltra.Lib.CMem PythonUltra.Lib.Slots PythonUltra.Lib.Splice PythonUltra.Py.Slice

namespace PythonUltra.Py.Sequence

inductive Err where
  | indexError (msg : String)
  | memoryError
  | raised (exc : Exc)
  /-- an access outside of a block -/
  | fault
  deriving DecidableEq

/-! ## Indices -/

/-- An int object: a small int, of 31 bits, or a pointer to an object with its value. -/
inductive IntObj where
  | small (n : BitVec 31)
  | big (n : Int) (address : BitVec 32)

def IntObj.value : IntObj → Int
  | .small n => n.toInt
  | .big n _ => n

/-- `MP_OBJ_SMALL_INT_VALUE` -/
def IntObj.smallIntValue : IntObj → Int
  | .small n => n.toInt
  | .big _ address => address.toInt / 2

/-- `mp_get_index`, not of a slice -/
def mpGetIndex (name : String) (len : Int) (index : Int) : Except Err Nat :=
  match mpObjGetInt index with
  | .error exc => .error (.raised exc)
  | .ok i =>
    let i := if i < 0 then i32 (i + len) else i
    if i < 0 ∨ i ≥ len then .error (.indexError (name ++ " index out of range")) else .ok i.toNat

/-- Python's place of an index in a sequence. -/
def place (len : Nat) (index : Int) : Option Nat :=
  if 0 ≤ SliceObj.fromEnd len index ∧ SliceObj.fromEnd len index < len then some (SliceObj.fromEnd len index).toNat else none

theorem mpGetIndex_spec {name : String} {len : Nat} {index : Int} (hlen : len ≤ 2147483647) :
    (∀ i, place len index = some i → mpGetIndex name len index = .ok i) ∧
      (place len index = none → ∃ e, mpGetIndex name len index = .error e ∧ e ≠ .fault ∧ e ≠ .memoryError) := by
  unfold place mpGetIndex mpObjGetInt
  by_cases hword : IsWord index
  · have hwrap : (if index < 0 then i32 (index + len) else index) = SliceObj.fromEnd len index := by
      unfold SliceObj.fromEnd
      unfold IsWord at hword
      split
      · rw [i32_of_range (by omega) (by omega)]
      · rfl
    simp only [if_pos hword, hwrap]
    by_cases hin : 0 ≤ SliceObj.fromEnd len index ∧ SliceObj.fromEnd len index < len
    · rw [if_pos hin]
      refine ⟨fun i hi => ?_, fun h => by cases h⟩
      cases hi
      exact if_neg (by omega)
    · rw [if_neg hin]
      exact ⟨fun i hi => (by cases hi), fun _ => ⟨_, if_pos (by omega), by simp⟩⟩
  · have hout : ¬ (0 ≤ SliceObj.fromEnd len index ∧ SliceObj.fromEnd len index < len) := by
      unfold SliceObj.fromEnd
      unfold IsWord at hword
      split <;> omega
    rw [if_neg hword, if_neg hout]
    exact ⟨fun i hi => (by cases hi), fun _ => ⟨_, rfl, by simp⟩⟩

theorem place_lt {len : Nat} {index : Int} {i : Nat} (h : place len index = some i) : i < len := by
  unfold place at h
  split at h
  · cases h
    omega
  · cases h

/-! ## Slices -/

/-- `mp_seq_get_fast_slice_indexes`, where only a step of 1 is implemented. -/
def fastIndexes (msg : Option String) (len : Nat) (slice : SliceObj) : Except Err BoundSlice :=
  match mpSeqGetFastSliceIndexes len slice with
  | .error exc => .error (.raised exc)
  | .ok (indexes, fast) => if fast then .ok indexes else .error (.raised (.notImplementedError msg))

/-- The code does not take the request, which Python does: there is no memory for it, or a
bound of a slice is no machine word. -/
def Refuses (e : Err) : Prop := e = .memoryError ∨ e = .raised (.overflowError "overflow converting long int to machine word")

theorem fastIndexes_spec (msg : Option String) {len : Nat} (hlen : len ≤ 2147483647) (slice : SliceObj) :
    (slice.stride = 1 ∧ fastIndexes msg len slice = .ok ⟨slice.first len, fastStop slice len, 1⟩ ∧ 0 ≤ slice.first len ∧
        slice.first len ≤ fastStop slice len ∧ fastStop slice len ≤ len) ∨
      ∃ e, fastIndexes msg len slice = .error e ∧ e ≠ .fault ∧ (Refuses e ∨ slice.stride ≠ 1) := by
  by_cases hfits : slice.Fits
  · have hword : 0 ≤ (len : Int) ∧ IsWord len := by
      unfold IsWord
      omega
    by_cases hone : slice.stride = 1
    · have hbounds := (@first_limit slice len (by omega)).1 (by omega)
      have hstop : fastStop slice len = max (slice.first len) (slice.limit len) := if_pos (by omega)
      refine .inl ⟨hone, ?_, by omega, by omega, by omega⟩
      simp only [fastIndexes, fastSlice_spec hword hfits, hone]
      rfl
    · refine .inr ⟨.raised (.notImplementedError msg), ?_, by simp, .inr hone⟩
      have hfast : (slice.stride == 1) = false := beq_eq_false_iff_ne.mpr hone
      simp only [fastIndexes, fastSlice_spec hword hfits, hfast]
      rfl
  · obtain ⟨e, he, hcase⟩ := @fastSlice_refuses slice len hfits
    refine .inr ⟨.raised e, by simp only [fastIndexes, he], by simp, ?_⟩
    rcases hcase with rfl | hzero
    · exact .inl (.inr rfl)
    · exact .inr (by omega)

/-! ## Memory -/

/-- A `size_t`. -/
def sizeT (n : Nat) : Nat := n % 4294967296

theorem sizeT_of_lt {n : Nat} (h : n < 4294967296) : sizeT n = n := Nat.mod_eq_of_lt h

inductive Grant where
  | refused
  | inPlace
  | moved
  deriving DecidableEq

/-- What the heap answers to requests for bytes, unlocked. With its tables it is below
2 ** 31 bytes. A block that need not have more of the 16 byte blocks of the heap stays. -/
structure Allocator where
  alloc : Nat → Bool
  renew : Nat → Nat → Grant
  alloc_lt : ∀ n, alloc n = true → n + 16 ≤ 2147483648
  renew_lt : ∀ old n, renew old n ≠ .refused → n + 16 ≤ 2147483648
  renew_stays : ∀ old n, 0 < n → old + 16 ≤ 2147483648 → (n + 15) / 16 ≤ (old + 15) / 16 → renew old n = .inPlace

variable {β : Type}

/-- No bytes are NULL, which is no error. -/
def Allocator.Grants (gc : Allocator) (bytes : Nat) : Prop := bytes = 0 ∨ gc.alloc bytes = true

instance (gc : Allocator) (bytes : Nat) : Decidable (gc.Grants bytes) := inferInstanceAs (Decidable (_ ∨ _))

theorem Allocator.Grants.bound {gc : Allocator} {bytes : Nat} (h : gc.Grants bytes) : bytes = 0 ∨ bytes + 16 ≤ 2147483648 :=
  h.imp_right (gc.alloc_lt bytes)

/-- A heap with room, where a block that grows moves. -/
def roomyHeap : Allocator where
  alloc n := decide (n + 16 ≤ 2147483648)
  renew old n := if n + 16 ≤ 2147483648 then (if (n + 15) / 16 ≤ (old + 15) / 16 then .inPlace else .moved) else .refused
  alloc_lt n h := by simpa using h
  renew_lt old n h := by
    by_contra hlarge
    exact h (if_neg hlarge)
  renew_stays old n hpos hold hle := by
    rw [if_pos (by omega), if_pos hle]

/-- `m_new`: a block for `num` items of `size` bytes each. -/
def mNew (gc : Allocator) (unknown : β) (size num : Nat) : Except Err (List β) :=
  if gc.Grants (sizeT (size * num)) then .ok (List.replicate (sizeT (size * num) / size) unknown) else .error .memoryError

/-! ## Splices -/

/-- `mp_seq_replace_slice_no_grow`. `slice` reads from the block as it is. -/
def mpSeqReplaceSliceNoGrow (dest : List β) (destLen start stop : Nat) (slice : List β → Option (List β)) (sliceLen itemSz : Nat) :
    Option (List β) := do
  let cells ← slice dest
  let dest ← writeAt dest (start * itemSz) cells
  let tail ← sizeDiff destLen stop
  move dest ((start + sliceLen) * itemSz) (stop * itemSz) (tail * itemSz)

/-- `mp_seq_replace_slice_grow_inplace` -/
def mpSeqReplaceSliceGrowInplace (dest : List β) (destLen start stop : Nat) (slice : List β → Option (List β))
    (sliceLen lenAdj itemSz : Nat) : Option (List β) := do
  let tail ← sizeDiff (destLen + lenAdj) (start + sliceLen)
  let dest ← move dest ((start + sliceLen) * itemSz) (stop * itemSz) (tail * itemSz)
  let cells ← slice dest
  writeAt dest (start * itemSz) cells

variable {a b c v rest : List β} {slice : List β → Option (List β)} {start stop destLen sliceLen lenAdj itemSz : Nat}

theorem replaceSliceNoGrow_spec (hstart : start * itemSz = a.length) (hstop : stop * itemSz = a.length + b.length) (hle : stop ≤ destLen)
    (hlen : destLen * itemSz = a.length + b.length + c.length) (hv : sliceLen * itemSz = v.length) (hshrink : v.length ≤ b.length)
    (hslice : slice (a ++ b ++ c ++ rest) = some v) :
    ∃ junk, junk.length + v.length = b.length ∧
      mpSeqReplaceSliceNoGrow (a ++ b ++ c ++ rest) destLen start stop slice sliceLen itemSz = some (a ++ v ++ c ++ junk ++ rest) := by
  have htail : (destLen - stop) * itemSz = c.length := by
    rw [Nat.sub_mul]
    omega
  have hwrite : writeAt (a ++ b ++ c ++ rest) (start * itemSz) v = some (a ++ v ++ b.drop v.length ++ c ++ rest) := by
    have h := @writeAt_mid β a (b.take v.length) v (b.drop v.length ++ c ++ rest) (start * itemSz) hstart (by rw [List.length_take]; omega)
    simpa only [List.append_assoc, ← List.append_assoc (List.take _ _) (List.drop _ _), List.take_append_drop] using h
  have hdrop : (a ++ v).length + (b.drop v.length).length = stop * itemSz := by
    rw [List.length_append, List.length_drop]
    omega
  refine ⟨(b.drop v.length ++ c).drop c.length, ?_, ?_⟩
  · simp only [List.length_drop, List.length_append]
    omega
  · rw [mpSeqReplaceSliceNoGrow, hslice]
    simp only [Option.bind_eq_bind, Option.bind_some, hwrite, sizeDiff_of_le hle, htail]
    rw [Nat.add_mul, hstart, hv, ← List.length_append, ← hdrop]
    exact move_close

theorem replaceSliceGrowInplace_spec (hstart : start * itemSz = a.length) (hstop : stop * itemSz = a.length + b.length) (hle : stop ≤ destLen)
    (hlen : destLen * itemSz = a.length + b.length + c.length) (hv : sliceLen * itemSz = v.length) (hadj : start + sliceLen = stop + lenAdj)
    (hroom : lenAdj * itemSz ≤ rest.length)
    (hslice : slice ((a ++ b ++ c ++ rest).take (a.length + v.length) ++ c ++ rest.drop (v.length - b.length)) = some v) :
    mpSeqReplaceSliceGrowInplace (a ++ b ++ c ++ rest) destLen start stop slice sliceLen lenAdj itemSz =
      some (a ++ v ++ c ++ rest.drop (v.length - b.length)) := by
  have hadj' : a.length + v.length = a.length + b.length + lenAdj * itemSz := by
    rw [← hstart, ← hv, ← Nat.add_mul, hadj, Nat.add_mul, hstop, ← hstart]
  have htail : (destLen + lenAdj - (start + sliceLen)) * itemSz = c.length := by
    rw [hadj, Nat.add_sub_add_right, Nat.sub_mul]
    omega
  have hmove := @move_open β a b c rest v.length (by omega) (by omega)
  rw [mpSeqReplaceSliceGrowInplace, sizeDiff_of_le (by omega)]
  simp only [Option.bind_eq_bind, Option.bind_some]
  rw [htail, Nat.add_mul, hstart, hv, hstop, hmove]
  simp only [Option.bind_some, hslice]
  have hfront : (a ++ b ++ c ++ rest).take (a.length + v.length) = a ++ (b ++ c ++ rest).take v.length := by
    rw [List.append_assoc, List.append_assoc, List.take_length_add_append, List.append_assoc]
  rw [hfront, List.append_assoc (a ++ List.take _ _), List.append_assoc (a ++ v)]
  refine writeAt_mid rfl ?_
  rw [List.length_take, List.length_append, List.length_append]
  omega

end PythonUltra.Py.Sequence
