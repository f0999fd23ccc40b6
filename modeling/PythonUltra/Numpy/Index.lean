/-
  PythonUltra.Numpy.Index — indices, nested lists and elements of an array agree
  (ports/sh/modules/numpy/__init__.py).

  An index is in range at every axis (`InRange`) or an error at the first one where it is
  not: an IndexError, but a ZeroDivisionError if the axis is of length zero (`ZeroAxis`),
  since `_flat_index` divides by the length before it looks at the index. `getItem_iff`: this is
  all that goes wrong.
-/

import Mathlib.Data.List.Forall2
import PythonUltra.Numpy.Array

namespace PythonUltra.Numpy

variable {α δ : Type} {shape index : List Int}

/-! ## Products -/

theorem foldl_product (shape : List Int) (total : Int) : shape.foldl (fun total value => total * value) total = total * product shape := by
  unfold product
  induction shape generalizing total with
  | nil => exact (Int.mul_one total).symm
  | cons dim shape ih => rw [List.foldl_cons, List.foldl_cons, ih, ih (1 * dim), Int.one_mul, Int.mul_assoc]

@[simp] theorem product_nil : product [] = 1 := rfl

@[simp] theorem product_cons (dim : Int) (shape : List Int) : product (dim :: shape) = dim * product shape := by
  rw [product, List.foldl_cons, foldl_product, Int.one_mul]

/-! ## Where an index points -/

/-- The index counted from the start of its axis. -/
def norm (dim i : Int) : Int := if i < 0 then i + dim else i

/-- The index is inside of its axis. -/
def Fits (dim i : Int) : Prop := -dim ≤ i ∧ i < dim

theorem fits_iff {dim i : Int} : Fits dim i ↔ ¬ (norm dim i < 0 ∨ norm dim i ≥ dim) := by
  unfold Fits norm
  split <;> omega

theorem fits_zero {i : Int} : ¬ Fits 0 i := by
  unfold Fits
  omega

theorem norm_bounds {dim i : Int} (h : Fits dim i) : 0 ≤ norm dim i ∧ norm dim i < dim := by
  unfold Fits at h
  unfold norm
  split <;> omega

/-- All indices are inside of their axes. -/
def InRange (shape index : List Int) : Prop := List.Forall₂ Fits shape index

/-- The first index that is not inside of its axis is at one of length zero. -/
def ZeroAxis : List Int → List Int → Prop
  | dim :: shape, i :: index => dim = 0 ∨ Fits dim i ∧ ZeroAxis shape index
  | _, _ => False

/-- The place of an element in the data. -/
def position : List Int → List Int → Int
  | dim :: shape, i :: index => norm dim i * product shape + position shape index
  | _, _ => 0

theorem position_one (n i : Int) : position [n] [i] = norm n i := by
  show norm n i * 1 + 0 = norm n i
  omega

theorem axis_pos (h : InRange shape index) : ∀ dim ∈ shape, 0 < dim := by
  induction h with
  | nil => exact fun _ hdim => absurd hdim List.not_mem_nil
  | cons hfits hrest ih =>
    intro d hd
    rcases List.mem_cons.mp hd with rfl | hd
    · obtain ⟨h1, h2⟩ := hfits
      omega
    · exact ih d hd

theorem product_positive : ∀ {shape : List Int}, (∀ dim ∈ shape, 0 < dim) → 0 < product shape
  | [], _ => Int.one_pos
  | dim :: shape, h => by
    rw [product_cons]
    exact Int.mul_pos (h dim List.mem_cons_self) (product_positive fun d hd => h d (List.mem_cons_of_mem _ hd))

theorem product_pos (h : InRange shape index) : 0 < product shape := product_positive (axis_pos h)

theorem position_bounds (h : InRange shape index) : 0 ≤ position shape index ∧ position shape index < product shape := by
  induction h with
  | nil => exact ⟨Int.le_refl 0, Int.one_pos⟩
  | @cons dim i shape index hfits hrest ih =>
    obtain ⟨h1, h2⟩ := norm_bounds hfits
    have hpos := product_pos hrest
    have hlow : 0 ≤ norm dim i * product shape := Int.mul_nonneg h1 (Int.le_of_lt hpos)
    have hhigh : (norm dim i + 1) * product shape ≤ dim * product shape := Int.mul_le_mul_of_nonneg_right (by omega) (Int.le_of_lt hpos)
    rw [Int.add_mul, Int.one_mul] at hhigh
    rw [position, product_cons]
    omega

/-- Two places are the same only for the same indices from the start. -/
theorem position_inj {index' : List Int} (h : InRange shape index) (h' : InRange shape index') :
    position shape index = position shape index' ↔ List.zipWith norm shape index = List.zipWith norm shape index' := by
  induction h generalizing index' with
  | nil =>
    cases h'
    exact iff_of_true rfl rfl
  | @cons dim i shape index hfits hrest ih =>
    cases h' with
    | @cons _ i' _ index' hfits' hrest' =>
      obtain ⟨h1, h2⟩ := position_bounds hrest
      obtain ⟨h3, h4⟩ := position_bounds hrest'
      rw [List.zipWith_cons_cons, List.zipWith_cons_cons, List.cons.injEq, ← ih hrest', position, position]
      constructor
      · intro heq
        have hnorm : norm dim i = norm dim i' := by
          have hdiv : ∀ n r : Int, 0 ≤ r → r < product shape → (n * product shape + r) / product shape = n := fun n r hr hlt => by
            rw [Int.add_comm, Int.add_mul_ediv_right _ _ (by omega), Int.ediv_eq_zero_of_lt hr hlt, Int.zero_add]
          rw [← hdiv (norm dim i) _ h1 h2, heq, hdiv _ _ h3 h4]
        rw [hnorm] at heq
        exact ⟨hnorm, by omega⟩
      · rintro ⟨hnorm, hrest⟩
        rw [hnorm, hrest]

/-! ## `_flat_index` -/

theorem flatLoop_fits {dim i : Int} (hfits : Fits dim i) (stride offset : Int) : Ndarray.flatLoop ((dim :: shape).zip (i :: index)) stride offset =
    Ndarray.flatLoop (shape.zip index) (stride.fdiv dim) (offset + norm dim i * stride.fdiv dim) :=
  (if_neg fun h => fits_zero (h ▸ hfits)).trans (if_neg (fits_iff.mp hfits))

theorem flatLoop_inRange (h : InRange shape index) (offset : Int) :
    Ndarray.flatLoop (shape.zip index) (product shape) offset = .ok (offset + position shape index) := by
  induction h generalizing offset with
  | nil => exact congrArg Except.ok (Int.add_zero offset).symm
  | @cons dim i shape index hfits hrest ih =>
    have hdim : dim ≠ 0 := fun h => fits_zero (h ▸ hfits)
    have hstride : (dim * product shape).fdiv dim = product shape := Int.mul_fdiv_cancel_left _ hdim
    rw [flatLoop_fits hfits, product_cons, hstride, ih, position, Int.add_assoc]

theorem flatLoop_zeroAxis (h : ZeroAxis shape index) (stride offset : Int) :
    Ndarray.flatLoop (shape.zip index) stride offset = .error .zeroDivisionError := by
  induction shape generalizing index stride offset with
  | nil => cases h
  | cons dim shape ih =>
    rcases index with _ | ⟨i, index⟩
    · cases h
    · rcases h with hdim | ⟨hfits, hrest⟩
      · exact if_pos hdim
      · rw [flatLoop_fits hfits]
        exact ih hrest _ _

theorem flatLoop_outside (hlength : index.length = shape.length) (hout : ¬ InRange shape index) (hzero : ¬ ZeroAxis shape index) (stride offset : Int) :
    Ndarray.flatLoop (shape.zip index) stride offset = .error (.indexError "array index out of range") := by
  induction shape generalizing index stride offset with
  | nil =>
    rcases index with _ | ⟨i, index⟩
    · exact absurd List.Forall₂.nil hout
    · cases hlength
  | cons dim shape ih =>
    rcases index with _ | ⟨i, index⟩
    · cases hlength
    · by_cases hfits : Fits dim i
      · rw [flatLoop_fits hfits]
        exact ih (Nat.succ.inj hlength) (fun h => hout (List.Forall₂.cons hfits h)) (fun h => hzero (Or.inr ⟨hfits, h⟩)) _ _
      · exact (if_neg fun h => hzero (Or.inl h)).trans (if_pos (not_not.mp fun h => hfits (fits_iff.mpr h)))

/-! ## Elements -/

theorem item_of_inside {data : List α} {i : Int} (h0 : 0 ≤ i) (hi : i < data.length) : ∃ a, item data i = .ok a ∧ data[i.toNat]? = some a := by
  obtain ⟨a, ha⟩ : ∃ a, data[i.toNat]? = some a := ⟨_, List.getElem?_eq_getElem (by omega)⟩
  refine ⟨a, ?_, ha⟩
  have hneg : ¬ i < 0 := by omega
  unfold item
  simp only [if_neg hneg, ha]

theorem slice_eq {data : List α} {start length : Int} (h0 : 0 ≤ start) (hlength : 0 ≤ length) (h : start + length ≤ data.length) :
    slice data start (start + length) = (data.drop start.toNat).take length.toNat := by
  have hstart : clamp data.length start = start.toNat := by
    rw [clamp, if_neg (by omega)]
    omega
  have hstop : clamp data.length (start + length) = start.toNat + length.toNat := by
    rw [clamp, if_neg (by omega)]
    omega
  rw [slice, hstart, hstop, List.drop_take, Nat.add_sub_cancel_left]

namespace Ndarray

variable {a : Ndarray α δ}

theorem position_lt (h : InRange a.shape index) : position a.shape index < a.data.length := a.fits ▸ (position_bounds h).2

theorem flatIndex_eq (hfull : index.length = a.ndim) : a.flatIndex index = flatLoop (a.shape.zip index) (product a.shape) 0 := by
  rw [flatIndex, if_neg (not_not.mpr hfull), size, a.fits]

theorem flatIndex_inRange (hfull : index.length = a.ndim) (h : InRange a.shape index) : a.flatIndex index = .ok (position a.shape index) := by
  rw [flatIndex_eq hfull, flatLoop_inRange h, Int.zero_add]

theorem getItem_inRange (hfull : index.length = a.ndim) (h : InRange a.shape index) :
    ∃ value, a.getItem index = .ok value ∧ a.data[(position a.shape index).toNat]? = some value := by
  obtain ⟨value, hitem, hdata⟩ := item_of_inside (position_bounds h).1 (position_lt h)
  refine ⟨value, ?_, hdata⟩
  rw [getItem, flatIndex_inRange hfull h]
  exact hitem

theorem getItem_zeroAxis (hfull : index.length = a.ndim) (h : ZeroAxis a.shape index) : a.getItem index = .error .zeroDivisionError := by
  rw [getItem, flatIndex_eq hfull, flatLoop_zeroAxis h]
  rfl

theorem getItem_outside (hfull : index.length = a.ndim) (hout : ¬ InRange a.shape index) (hzero : ¬ ZeroAxis a.shape index) :
    a.getItem index = .error (.indexError "array index out of range") := by
  rw [getItem, flatIndex_eq hfull, flatLoop_outside hfull hout hzero]
  rfl

theorem setItem_inRange (hfull : index.length = a.ndim) (h : InRange a.shape index) (value : α) :
    ∃ b, a.setItem index value = .ok b ∧ b.shape = a.shape ∧ b.data = a.data.set (position a.shape index).toNat value := by
  have hinside : 0 ≤ position a.shape index ∧ position a.shape index < a.data.length := ⟨(position_bounds h).1, position_lt h⟩
  refine ⟨{ a with data := a.data.set (position a.shape index).toNat value, fits := by rw [List.length_set]; exact a.fits }, ?_, rfl, rfl⟩
  rw [setItem, flatIndex_inRange hfull h]
  exact dif_pos hinside

/-- Assigning through an index changes the element it points to, and no other. -/
theorem setItem_getItem (hfull : index.length = a.ndim) (h : InRange a.shape index) (value : α) :
    ∃ b, a.setItem index value = .ok b ∧ b.shape = a.shape ∧ ∀ index', InRange a.shape index' →
      b.getItem index' = if List.zipWith norm a.shape index' = List.zipWith norm a.shape index then .ok value else a.getItem index' := by
  obtain ⟨b, hset, hshape, hdata⟩ := setItem_inRange hfull h value
  refine ⟨b, hset, hshape, fun index' h' => ?_⟩
  have hfull' : index'.length = a.ndim := h'.length_eq.symm
  obtain ⟨old, hget, hold⟩ := getItem_inRange hfull' h'
  obtain ⟨new, hgetb, hnew⟩ := getItem_inRange (a := b) (by rw [ndim, hshape]; exact hfull') (hshape ▸ h')
  have hb := position_bounds h
  have hb' := position_bounds h'
  rw [hshape, hdata] at hnew
  rw [hgetb, hget]
  by_cases hplace : List.zipWith norm a.shape index' = List.zipWith norm a.shape index
  · rw [if_pos hplace]
    rw [(position_inj h' h).mpr hplace, List.getElem?_set_self (by have := position_lt h; omega)] at hnew
    exact congrArg Except.ok (Option.some.inj hnew).symm
  · rw [if_neg hplace]
    have hne : position a.shape index' ≠ position a.shape index := fun he => hplace ((position_inj h' h).mp he)
    rw [List.getElem?_set_ne (by omega), hold] at hnew
    exact congrArg Except.ok (Option.some.inj hnew).symm

/-! ## Row by row -/

/-- A row has the elements of its part of the data. -/
theorem row_spec {dim i : Int} (hshape : a.shape = dim :: shape) (hfits : Fits dim i) :
    ∃ b, a.row i = .ok b ∧ b.shape = shape ∧
      ∀ j : Int, 0 ≤ j → j < product shape → b.data[j.toNat]? = a.data[(norm dim i * product shape + j).toNat]? := by
  obtain ⟨h1, h2⟩ := norm_bounds hfits
  have hdata : dim * product shape = a.data.length := by rw [← product_cons, ← hshape, a.fits]
  have hpos : 0 ≤ product shape := by
    by_contra hneg
    have := Int.mul_neg_of_pos_of_neg (show 0 < dim by omega) (Int.not_le.mp hneg)
    omega
  have hstart : 0 ≤ norm dim i * product shape := Int.mul_nonneg h1 hpos
  have hstop : norm dim i * product shape + product shape ≤ a.data.length := by
    have hle : (norm dim i + 1) * product shape ≤ dim * product shape := Int.mul_le_mul_of_nonneg_right (by omega) hpos
    rw [Int.add_mul, Int.one_mul] at hle
    omega
  have hslice := slice_eq hstart hpos hstop
  have hfit : product shape = (slice a.data (norm dim i * product shape) (norm dim i * product shape + product shape)).length := by
    rw [hslice, List.length_take, List.length_drop]
    omega
  refine ⟨⟨_, shape, a.dtype, false, hfit⟩, ?_, rfl, fun j hj hlt => ?_⟩
  · unfold row
    rw [hshape]
    show (if norm dim i < 0 ∨ norm dim i ≥ dim then _ else _) = _
    rw [if_neg (fits_iff.mp hfits)]
    exact dif_pos hfit
  · show (slice a.data _ _)[j.toNat]? = _
    rw [hslice, List.getElem?_take_of_lt (by omega), List.getElem?_drop]
    congr 1
    omega

theorem row_outside {dim i : Int} (hshape : a.shape = dim :: shape) (hout : ¬ Fits dim i) :
    a.row i = .error (.indexError "array index out of range") := by
  unfold row
  rw [hshape]
  show (if norm dim i < 0 ∨ norm dim i ≥ dim then _ else _) = _
  rw [if_pos (not_not.mp fun h => hout (fits_iff.mpr h))]

theorem getInt_one {dim i : Int} (hshape : a.shape = [dim]) : a.getInt i = (a.getItem [i]).map .element := by
  rw [getInt, if_pos (by rw [ndim, hshape]; exact Nat.le_refl 1)]

theorem getInt_more {dim next i : Int} (hshape : a.shape = dim :: next :: shape) : a.getInt i = (a.row i).map .array := by
  rw [getInt, if_neg (by rw [ndim, hshape]; simp)]

/-- Indices one by one are the index as a whole. -/
theorem chain_inRange : ∀ {shape index : List Int} {a : Ndarray α δ}, a.shape = shape → index ≠ [] → InRange shape index →
    ∃ value, chain (.array a) index = .ok (.element value) ∧ a.data[(position shape index).toNat]? = some value
  | [], _, _, _, hne, h => by
    cases h
    exact absurd rfl hne
  | [dim], _, a, hshape, _, h => by
    cases h with
    | @cons _ i _ index hfits hrest =>
      cases hrest
      have hin : InRange a.shape [i] := hshape ▸ List.Forall₂.cons hfits List.Forall₂.nil
      obtain ⟨value, hget, hdata⟩ := getItem_inRange (by rw [ndim, hshape]; rfl) hin
      rw [hshape] at hdata
      refine ⟨value, ?_, hdata⟩
      rw [chain, getInt_one hshape, hget]
      rfl
  | dim :: next :: shape, _, a, hshape, _, h => by
    cases h with
    | @cons _ i _ index hfits hrest =>
      obtain ⟨b, hrow, hb, hread⟩ := row_spec hshape hfits
      have hne : index ≠ [] := by
        rintro rfl
        cases hrest
      obtain ⟨value, hchain, hdata⟩ := chain_inRange hb hne hrest
      obtain ⟨h0, hlt⟩ := position_bounds hrest
      refine ⟨value, ?_, (hread _ h0 hlt).symm.trans hdata⟩
      rw [chain, getInt_more hshape, hrow]
      exact hchain

theorem chain_outside : ∀ {shape index : List Int} {a : Ndarray α δ}, a.shape = shape → index.length = shape.length → ¬ InRange shape index →
    ¬ ZeroAxis shape index → chain (.array a) index = .error (.indexError "array index out of range")
  | [], [], _, _, _, hout, _ => absurd List.Forall₂.nil hout
  | [dim], [i], a, hshape, _, hout, hzero => by
    have hget : a.getItem [i] = _ := getItem_outside (by rw [ndim, hshape]; rfl) (hshape ▸ hout) (hshape ▸ hzero)
    rw [chain, getInt_one hshape, hget]
    rfl
  | dim :: next :: shape, i :: index, a, hshape, hlength, hout, hzero => by
    rw [chain, getInt_more hshape]
    by_cases hfits : Fits dim i
    · obtain ⟨b, hrow, hb, -⟩ := row_spec hshape hfits
      rw [hrow]
      exact chain_outside hb (Nat.succ.inj hlength) (fun h => hout (List.Forall₂.cons hfits h)) fun h => hzero (Or.inr ⟨hfits, h⟩)
    · rw [row_outside hshape hfits]
      rfl

end Ndarray

/-! ## Nested lists -/

/-- `value[i0][i1]...[ik]` of nested lists. none: IndexError. -/
def reach : Value α δ → List Int → Option α
  | .leaf a, [] => some a
  | .list items, i :: index =>
    if norm items.length i < 0 then none else items[(norm items.length i).toNat]?.bind fun item => reach item index
  | _, _ => none

theorem reach_list {items : List (Value α δ)} {i : Int} {value : Value α δ} (hfits : Fits items.length i)
    (hitem : items[(norm items.length i).toNat]? = some value) : reach (.list items) (i :: index) = reach value index := by
  obtain ⟨h1, -⟩ := norm_bounds hfits
  rw [reach, if_neg (by omega), hitem, Option.bind_some]

theorem reach_outside {items : List (Value α δ)} {i : Int} (hout : ¬ Fits items.length i) :
    reach (.list items) (i :: index) = none := by
  rw [reach]
  split
  · rfl
  · have hge : norm items.length i ≥ items.length := by
      have hout := not_not.mp fun h => hout (fits_iff.mpr h)
      omega
    rw [List.getElem?_eq_none (by omega), Option.bind_none]

/-- The loop of `_unflatten`: as many items, each from where the last one ended. -/
theorem unflatten_loop {data : List α} {shape : List Int} {P : Nat → Value α δ → Prop} (start : Nat → Int) :
    ∀ n : Nat, (∀ k < n, ∃ v, unflatten data shape (start k) = .ok (v, start (k + 1)) ∧ P k v) →
      ∃ items : List (Value α δ), items.length = n ∧ (∀ k < n, ∃ v, items[k]? = some v ∧ P k v) ∧
        (List.range n).foldlM (fun (result, offset) _ => do
          let (item, offset) ← unflatten data shape offset
          pure (result ++ [item], offset)) (([] : List (Value α δ)), start 0) = .ok (items, start n)
  | 0, _ => ⟨[], rfl, fun k hk => absurd hk k.not_lt_zero, rfl⟩
  | n + 1, h => by
    obtain ⟨items, hlength, hitems, hrun⟩ := unflatten_loop start n fun k hk => h k (Nat.lt_succ_of_lt hk)
    obtain ⟨v, hv, hP⟩ := h n n.lt_succ_self
    refine ⟨items ++ [v], by rw [List.length_append, hlength]; rfl, fun k hk => ?_, ?_⟩
    · rcases Nat.lt_succ_iff_lt_or_eq.mp hk with hk | rfl
      · obtain ⟨w, hw, hPw⟩ := hitems k hk
        exact ⟨w, by rw [List.getElem?_append_left (by omega), hw], hPw⟩
      · exact ⟨v, by rw [← hlength, List.getElem?_concat_length], hP⟩
    · rw [List.range_succ, List.foldlM_append, hrun]
      show (do
        let (item, offset) ← unflatten data shape (start n)
        pure (items ++ [item], offset)) >>= pure = _
      rw [hv]
      rfl

theorem unflatten_more {data : List α} {n dim offset : Int} {items : List (Value α δ)} {stop : Int}
    (hloop : (List.range n.toNat).foldlM (fun (result, offset) _ => do
      let (item, offset) ← unflatten data (dim :: shape) offset
      pure (result ++ [item], offset)) (([] : List (Value α δ)), offset) = .ok (items, stop)) :
    unflatten data (n :: dim :: shape) offset = .ok (.list items, stop) := by
  rw [unflatten, hloop]
  rfl

/-- With an axis that is not positive there are no elements. -/
theorem unflatten_empty {data : List α} : ∀ {shape : List Int} (offset : Int), 0 ≤ product shape → (∃ dim ∈ shape, dim ≤ 0) →
    ∃ v : Value α δ, unflatten data shape offset = .ok (v, offset) ∧ ∀ index : List Int, index.length = shape.length → reach v index = none
  | [], _, _, h => by
    obtain ⟨dim, hdim, -⟩ := h
    cases hdim
  | [n], offset, hproduct, h => by
    obtain ⟨dim, hdim, hle⟩ := h
    obtain rfl : dim = n := List.mem_singleton.mp hdim
    rw [product_cons, product_nil, Int.mul_one] at hproduct
    obtain rfl : dim = 0 := by omega
    refine ⟨.list [], ?_, fun index hlength => ?_⟩
    · rw [unflatten, Int.add_zero, slice, List.drop_take, Nat.sub_self, List.take_zero, List.map_nil]
    · obtain ⟨i, rfl⟩ := List.length_eq_one_iff.mp hlength
      exact reach_outside fits_zero
  | n :: next :: shape, offset, hproduct, h => by
    by_cases hn : n ≤ 0
    · refine ⟨.list [], ?_, fun index hlength => ?_⟩
      · refine unflatten_more ?_
        rw [Int.toNat_of_nonpos hn, List.range_zero]
        rfl
      · obtain ⟨i, index, rfl⟩ := List.exists_cons_of_length_eq_add_one hlength
        exact reach_outside fits_zero
    · have hrest : 0 ≤ product (next :: shape) := by
        by_contra hneg
        rw [product_cons] at hproduct
        have := Int.mul_neg_of_pos_of_neg (show 0 < n by omega) (Int.not_le.mp hneg)
        omega
      have hdim : ∃ dim ∈ next :: shape, dim ≤ 0 := by
        obtain ⟨dim, hdim, hle⟩ := h
        rcases List.mem_cons.mp hdim with rfl | hdim
        · exact absurd hle hn
        · exact ⟨dim, hdim, hle⟩
      obtain ⟨items, hlength, hitems, hrun⟩ := unflatten_loop (fun _ => offset) n.toNat fun _ _ => unflatten_empty offset hrest hdim
      refine ⟨.list items, unflatten_more hrun, fun index hindex => ?_⟩
      obtain ⟨i, index, rfl⟩ := List.exists_cons_of_length_eq_add_one hindex
      by_cases hfits : Fits items.length i
      · obtain ⟨h1, h2⟩ := norm_bounds hfits
        obtain ⟨v, hv, hnone⟩ := hitems (norm items.length i).toNat (by omega)
        rw [reach_list hfits hv]
        exact hnone index (Nat.succ.inj hindex)
      · exact reach_outside hfits

/-- With positive axes the indices in range reach the elements, in their order. -/
theorem unflatten_positive {data : List α} : ∀ {shape : List Int} (offset : Int), (∀ dim ∈ shape, 0 < dim) → 0 ≤ offset →
    offset + product shape ≤ data.length →
    ∃ v : Value α δ, unflatten data shape offset = .ok (v, offset + product shape) ∧
      (∀ index, InRange shape index → reach v index = data[(offset + position shape index).toNat]?) ∧
      ∀ index : List Int, index.length = shape.length → ¬ InRange shape index → reach v index = none
  | [], offset, _, h0, hlength => by
    rw [product_nil] at hlength
    obtain ⟨a, hitem, ha⟩ := item_of_inside h0 (show offset < data.length by omega)
    refine ⟨.leaf a, by rw [unflatten, hitem]; rfl, fun index h => ?_, fun index hindex hout => ?_⟩
    · cases h
      exact (Int.add_zero offset).symm ▸ ha.symm
    · obtain rfl := List.length_eq_zero_iff.mp hindex
      exact absurd List.Forall₂.nil hout
  | [n], offset, hpos, h0, hlength => by
    have hn : 0 < n := hpos n List.mem_cons_self
    rw [product_cons, product_nil, Int.mul_one] at hlength ⊢
    have hslice := slice_eq h0 (Int.le_of_lt hn) hlength
    have hitems : ((slice data offset (offset + n)).map (.leaf : α → Value α δ)).length = n := by
      rw [List.length_map, hslice, List.length_take, List.length_drop]
      omega
    refine ⟨.list ((slice data offset (offset + n)).map .leaf), rfl, fun index h => ?_, fun index hindex hout => ?_⟩
    · cases h with
      | @cons _ i _ _ hfits hrest =>
        cases hrest
        obtain ⟨h1, h2⟩ := norm_bounds hfits
        have hitem : ∃ value, data[(offset + norm n i).toNat]? = some value := ⟨_, List.getElem?_eq_getElem (by omega)⟩
        obtain ⟨value, hvalue⟩ := hitem
        have hread : ((slice data offset (offset + n)).map (.leaf : α → Value α δ))[(norm n i).toNat]? = some (.leaf value) := by
          rw [List.getElem?_map, hslice, List.getElem?_take_of_lt (by omega), List.getElem?_drop,
            show offset.toNat + (norm n i).toNat = (offset + norm n i).toNat by omega, hvalue, Option.map_some]
        rw [reach_list (by rw [hitems]; exact hfits) (by rw [hitems]; exact hread), reach, position_one, hvalue]
    · obtain ⟨i, rfl⟩ := List.length_eq_one_iff.mp hindex
      refine reach_outside fun hfits => hout (List.Forall₂.cons ?_ List.Forall₂.nil)
      rwa [hitems] at hfits
  | n :: next :: shape, offset, hpos, h0, hlength => by
    have hn : 0 < n := hpos n List.mem_cons_self
    have hrest : ∀ dim ∈ next :: shape, 0 < dim := fun dim hdim => hpos dim (List.mem_cons_of_mem _ hdim)
    rw [product_cons n] at hlength ⊢
    have hproduct : 0 ≤ product (next :: shape) := Int.le_of_lt (product_positive hrest)
    have hturn : ∀ k < n.toNat, ∃ v : Value α δ, unflatten data (next :: shape) (offset + k * product (next :: shape)) =
          .ok (v, offset + (k + 1 : Nat) * product (next :: shape)) ∧
        (∀ index, InRange (next :: shape) index →
          reach v index = data[(offset + k * product (next :: shape) + position (next :: shape) index).toNat]?) ∧
        ∀ index : List Int, index.length = (next :: shape).length → ¬ InRange (next :: shape) index → reach v index = none := by
      intro k hk
      have hstart : 0 ≤ (k : Int) * product (next :: shape) := Int.mul_nonneg (Int.natCast_nonneg k) hproduct
      have hstop : ((k + 1 : Nat) : Int) * product (next :: shape) ≤ n * product (next :: shape) :=
        Int.mul_le_mul_of_nonneg_right (by omega) hproduct
      have hnext : ((k + 1 : Nat) : Int) * product (next :: shape) = k * product (next :: shape) + product (next :: shape) := by
        rw [Int.natCast_add, Int.add_mul]
        omega
      rw [hnext] at hstop ⊢
      have hroom : offset + k * product (next :: shape) + product (next :: shape) ≤ data.length := by omega
      obtain ⟨v, hv, hin, hout⟩ := unflatten_positive (offset + k * product (next :: shape)) hrest (by omega) hroom
      exact ⟨v, by rw [hv, Int.add_assoc], hin, hout⟩
    obtain ⟨items, hitems, hread, hrun⟩ := unflatten_loop (fun k => offset + k * product (next :: shape)) n.toNat hturn
    have hlen : (items.length : Int) = n := by omega
    refine ⟨.list items, ?_, fun index h => ?_, fun index hindex hout => ?_⟩
    · refine unflatten_more ?_
      have hzero : offset + ((0 : Nat) : Int) * product (next :: shape) = offset := by
        rw [Int.natCast_zero, Int.zero_mul, Int.add_zero]
      rw [hzero, Int.toNat_of_nonneg (Int.le_of_lt hn)] at hrun
      exact hrun
    · cases h with
      | @cons _ i _ index hfits hin =>
        obtain ⟨h1, h2⟩ := norm_bounds hfits
        obtain ⟨v, hv, hreach, -⟩ := hread (norm n i).toNat (by omega)
        rw [reach_list (by rw [hlen]; exact hfits) (by rw [hlen]; exact hv), hreach index hin, Int.toNat_of_nonneg h1, position, Int.add_assoc]
    · obtain ⟨i, index, rfl⟩ := List.exists_cons_of_length_eq_add_one hindex
      by_cases hfits : Fits items.length i
      · obtain ⟨h1, h2⟩ := norm_bounds hfits
        obtain ⟨v, hv, -, hnone⟩ := hread (norm items.length i).toNat (by omega)
        rw [reach_list hfits hv]
        rw [hlen] at hfits
        exact hnone index (Nat.succ.inj hindex) fun h => hout (List.Forall₂.cons hfits h)
      · exact reach_outside hfits

/-- The nested lists have the elements at the indices in range, and none elsewhere. -/
theorem Ndarray.tolist_spec (a : Ndarray α δ) : ∃ v, a.tolist = .ok v ∧
    (∀ index, InRange a.shape index → reach v index = a.data[(position a.shape index).toNat]?) ∧
    ∀ index : List Int, index.length = a.ndim → ¬ InRange a.shape index → reach v index = none := by
  by_cases hpos : ∀ dim ∈ a.shape, 0 < dim
  · have hroom : 0 + product a.shape ≤ a.data.length := Int.le_of_eq (by rw [a.fits, Int.zero_add])
    obtain ⟨v, hv, hin, hout⟩ := unflatten_positive 0 hpos (Int.le_refl 0) hroom
    refine ⟨v, by rw [tolist, hv]; rfl, fun index h => ?_, hout⟩
    rw [hin index h, Int.zero_add]
  · simp only [not_forall, Int.not_lt] at hpos
    obtain ⟨dim, hdim, hle⟩ := hpos
    have hproduct : 0 ≤ product a.shape := a.fits ▸ Int.natCast_nonneg _
    obtain ⟨v, hv, hnone⟩ : ∃ v : Value α δ, unflatten a.data a.shape 0 = .ok (v, 0) ∧ _ := unflatten_empty 0 hproduct ⟨dim, hdim, hle⟩
    refine ⟨v, by rw [tolist, hv]; rfl, fun index h => ?_, fun index hfull _ => hnone index hfull⟩
    exact absurd (axis_pos h dim hdim) (Int.not_lt.mpr hle)

/-! ## Rectangular lists -/

/-- Lists of one length at each depth. -/
inductive Rect : List Nat → Value α δ → Prop where
  | leaf (a : α) : Rect [] (.leaf a)
  | list {items : List (Value α δ)} {shape : List Nat} (hitems : ∀ item ∈ items, Rect shape item) : Rect (items.length :: shape) (.list items)

/-- The shape that is inferred: an empty list has one axis. -/
def cut : List Nat → List Int
  | [] => []
  | 0 :: _ => [0]
  | (n + 1) :: shape => (n + 1 : Int) :: cut shape

theorem inferSame_ok {child : List Int} : ∀ {items : List (Value α δ)}, (∀ item ∈ items, inferShape item = .ok child) → inferSame child items = .ok ()
  | [], _ => by rw [inferSame]; rfl
  | item :: items, h => by
    rw [inferSame, h item List.mem_cons_self]
    show (if child ≠ child then _ else _) = _
    rw [if_neg fun h => h rfl]
    exact inferSame_ok fun v hv => h v (List.mem_cons_of_mem _ hv)

theorem inferShape_rect {shape : List Nat} {v : Value α δ} (h : Rect shape v) : inferShape v = .ok (cut shape) := by
  induction h with
  | leaf a => rw [inferShape, cut]
  | @list items shape hitems ih =>
    rcases items with _ | ⟨item, items⟩
    · rw [inferShape, inferItems]
      rfl
    · rw [inferShape, inferItems, ih item List.mem_cons_self]
      show (do
        inferSame (cut shape) items
        pure ((items.length + 1 : Int) :: cut shape)) = _
      rw [inferSame_ok fun v hv => ih v (List.mem_cons_of_mem _ hv)]
      rfl

theorem flattenItems_length {n : Int} : ∀ {items : List (Value α δ)}, (∀ item ∈ items, ((flatten item).length : Int) = n) →
    ((flattenItems items).length : Int) = items.length * n
  | [], _ => by rw [flattenItems, List.length_nil, List.length_nil, Int.natCast_zero, Int.zero_mul]
  | item :: items, h => by
    rw [flattenItems, List.length_append, Int.natCast_add, h item List.mem_cons_self,
      flattenItems_length fun v hv => h v (List.mem_cons_of_mem _ hv), List.length_cons, Int.natCast_add, Int.add_mul, Int.natCast_one,
      Int.one_mul, Int.add_comm]

theorem flattenItems_append (items items' : List (Value α δ)) : flattenItems (items ++ items') = flattenItems items ++ flattenItems items' := by
  induction items with
  | nil => rw [flattenItems, List.nil_append, List.nil_append]
  | cons item items ih => rw [List.cons_append, flattenItems, flattenItems, ih, List.append_assoc]

theorem flatten_rect {shape : List Nat} {v : Value α δ} (h : Rect shape v) : ((flatten v).length : Int) = product (cut shape) := by
  induction h with
  | leaf a => rw [flatten, cut]; rfl
  | @list items shape hitems ih =>
    rw [flatten, flattenItems_length ih]
    rcases items with _ | ⟨item, items⟩
    · rw [List.length_nil, cut, product_cons, Int.natCast_zero, Int.zero_mul, Int.zero_mul]
    · rw [List.length_cons, cut, product_cons, Int.natCast_add, Int.natCast_one]

theorem cut_cons (n : Nat) (shape : List Nat) : ∃ next more, cut (n :: shape) = next :: more := by
  rcases n with _ | n
  · exact ⟨0, [], rfl⟩
  · exact ⟨_, _, rfl⟩

theorem slice_flat (before middle after : List α) :
    slice (before ++ middle ++ after) before.length (before.length + middle.length) = middle := by
  rw [slice_eq (Int.natCast_nonneg _) (Int.natCast_nonneg _), Int.toNat_natCast, Int.toNat_natCast, List.append_assoc, List.drop_left,
    List.take_left]
  rw [List.length_append, List.length_append]
  omega

theorem map_leaf : ∀ {items : List (Value α δ)}, (∀ item ∈ items, Rect [] item) → (flattenItems items).map Value.leaf = items
  | [], _ => by rw [flattenItems, List.map_nil]
  | item :: items, h => by
    have hrest := map_leaf fun v hv => h v (List.mem_cons_of_mem _ hv)
    cases h item List.mem_cons_self with
    | leaf a => rw [flattenItems, flatten, List.map_append, hrest, List.map_singleton, List.singleton_append]

/-- What was flattened comes back, wherever it is in the data. -/
theorem unflatten_rect {shape : List Nat} {v : Value α δ} (h : Rect shape v) (before after : List α) :
    unflatten (before ++ flatten v ++ after) (cut shape) before.length = .ok (v, before.length + product (cut shape)) := by
  induction h generalizing before after with
  | leaf a =>
    have hroom : (before.length : Int) < (before ++ [a] ++ after).length := by
      rw [List.length_append, List.length_append, List.length_singleton]
      omega
    obtain ⟨b, hitem, hb⟩ := item_of_inside (Int.natCast_nonneg _) hroom
    rw [Int.toNat_natCast, List.append_assoc, List.getElem?_append_right (Nat.le_refl _), Nat.sub_self] at hb
    obtain rfl : a = b := Option.some.inj hb
    rw [flatten, cut, unflatten, hitem]
    rfl
  | @list items shape hitems ih =>
    have hlength : ((flatten (.list items)).length : Int) = product (cut (items.length :: shape)) := flatten_rect (Rect.list hitems)
    rw [flatten] at hlength ⊢
    rcases items with _ | ⟨item, items⟩
    · rw [List.length_nil, cut, unflatten, slice, Int.add_zero, List.drop_take, Nat.sub_self, List.take_zero, List.map_nil, product_cons,
        Int.zero_mul, Int.add_zero]
    rcases shape with _ | ⟨d, shape⟩
    · rw [List.length_cons, cut, cut, product_cons, product_nil, Int.mul_one] at hlength ⊢
      rw [unflatten, ← hlength, slice_flat, map_leaf hitems]
    · obtain ⟨next, more, hcut⟩ := cut_cons d shape
      rw [List.length_cons, cut, hcut]
      have hsub : 0 ≤ product (next :: more) := by
        rw [← hcut, ← flatten_rect (hitems item List.mem_cons_self)]
        exact Int.natCast_nonneg _
      have hturn : ∀ k < items.length + 1, ∃ v, unflatten (before ++ flattenItems (item :: items) ++ after) (next :: more)
            (before.length + k * product (next :: more)) = .ok (v, before.length + (k + 1 : Nat) * product (next :: more)) ∧
          (item :: items)[k]? = some v := by
        intro k hk
        obtain ⟨v, hv⟩ : ∃ v, (item :: items)[k]? = some v := ⟨_, List.getElem?_eq_getElem hk⟩
        refine ⟨v, ?_, hv⟩
        -- the items before, this one, and the items after
        have hsplit : flattenItems (item :: items) =
            flattenItems ((item :: items).take k) ++ flatten v ++ flattenItems ((item :: items).drop (k + 1)) := by
          have hget : (item :: items)[k] = v := Option.some.inj ((List.getElem?_eq_getElem hk).symm.trans hv)
          rw [List.append_assoc, ← flattenItems, ← flattenItems_append, ← hget, ← List.drop_eq_getElem_cons hk, List.take_append_drop]
        have hbefore : ((flattenItems ((item :: items).take k)).length : Int) = k * product (next :: more) := by
          rw [flattenItems_length fun w hw => by rw [flatten_rect (hitems w (List.mem_of_mem_take hw)), hcut], List.length_take,
            Nat.min_eq_left (by rw [List.length_cons]; omega)]
        have hone := ih v (List.mem_of_getElem? hv) (before ++ flattenItems ((item :: items).take k))
          (flattenItems ((item :: items).drop (k + 1)) ++ after)
        have hdata : before ++ flattenItems ((item :: items).take k) ++ flatten v ++ (flattenItems ((item :: items).drop (k + 1)) ++ after) =
            before ++ flattenItems (item :: items) ++ after := by
          rw [hsplit]
          simp
        rw [hdata, hcut, List.length_append, Int.natCast_add, hbefore, Int.add_assoc] at hone
        rw [hone, Int.natCast_add, Int.add_mul, Int.natCast_one, Int.one_mul]
      obtain ⟨result, hresult, hitem, hrun⟩ := unflatten_loop (fun k => before.length + k * product (next :: more)) (items.length + 1) hturn
      have hsame : result = item :: items := by
        refine List.ext_getElem? fun k => ?_
        by_cases hk : k < items.length + 1
        · obtain ⟨v, hv, hw⟩ := hitem k hk
          rw [hv, hw]
        · rw [List.getElem?_eq_none (by omega), List.getElem?_eq_none (by rw [List.length_cons]; omega)]
      have hzero : (before.length : Int) + ((0 : Nat) : Int) * product (next :: more) = before.length := by
        rw [Int.natCast_zero, Int.zero_mul, Int.add_zero]
      have hnat : (items.length + 1 : Int).toNat = items.length + 1 := by omega
      rw [hzero, hsame, ← hnat] at hrun
      refine (unflatten_more hrun).trans ?_
      rw [hnat, product_cons (items.length + 1 : Int), Int.natCast_add, Int.natCast_one]


theorem tolist_array {shape : List Nat} {v : Value α δ} (h : Rect shape v) (dtype : Option δ) :
    ∃ a, Ndarray.array v dtype = .ok a ∧ a.tolist = .ok v := by
  have hfits : product (cut shape) = (flatten v).length := (flatten_rect h).symm
  have hrun := unflatten_rect h [] []
  rw [List.nil_append, List.append_nil] at hrun
  refine ⟨⟨flatten v, cut shape, dtype, false, hfits⟩, ?_, by rw [Ndarray.tolist]; exact congrArg (· >>= _) hrun⟩
  have hnew : Ndarray.new v none dtype = (do
      let inferred ← inferShape v
      Ndarray.init (flatten v) inferred dtype false) := by
    cases h <;> rfl
  rw [Ndarray.array, hnew, inferShape_rect h]
  exact dif_pos hfits

/-! ## They agree -/

/-- A full index as a whole, its indices one by one and in the nested lists give the same,
an IndexError just where an index is out of range, and assigning changes what they give. -/
structure Agrees (a : Ndarray α δ) (index : List Int) : Prop where
  chain : index ≠ [] → (a.getItem index).map .element = Ndarray.chain (.array a) index
  nested : ∃ v, a.tolist = .ok v ∧ (a.getItem index).toOption = reach v index
  raises : (∃ msg, a.getItem index = .error (.indexError msg)) ↔ ¬ InRange a.shape index
  assign : InRange a.shape index → ∀ value, ∃ b, a.setItem index value = .ok b ∧ b.shape = a.shape ∧ ∀ index', InRange a.shape index' →
    b.getItem index' = if List.zipWith norm a.shape index' = List.zipWith norm a.shape index then .ok value else a.getItem index'

/-- Rectangular lists come back from an array. -/
def RoundTrips (α δ : Type) : Prop :=
  ∀ (shape : List Nat) (v : Value α δ) (dtype : Option δ), Rect shape v → ∃ a, Ndarray.array v dtype = .ok a ∧ a.tolist = .ok v

theorem not_zeroAxis_of_inRange (h : InRange shape index) : ¬ ZeroAxis shape index := by
  induction h with
  | nil => exact id
  | cons hfits hrest ih =>
    rintro (hdim | ⟨-, hzero⟩)
    · exact fits_zero (hdim ▸ hfits)
    · exact ih hzero

theorem agrees_inRange {a : Ndarray α δ} (hfull : index.length = a.ndim) (h : InRange a.shape index) : Agrees a index := by
  obtain ⟨value, hget, hdata⟩ := Ndarray.getItem_inRange hfull h
  obtain ⟨v, hlist, hin, -⟩ := a.tolist_spec
  refine ⟨fun hne => ?_, ⟨v, hlist, ?_⟩, ?_, fun _ => Ndarray.setItem_getItem hfull h⟩
  · obtain ⟨value', hchain, hdata'⟩ := Ndarray.chain_inRange rfl hne h
    rw [hdata] at hdata'
    rw [hget, hchain, Option.some.inj hdata']
    rfl
  · rw [hin index h, hdata, hget]
    rfl
  · rw [hget]
    exact iff_of_false (fun ⟨msg, he⟩ => nomatch he) (not_not.mpr h)

theorem agrees_outside {a : Ndarray α δ} (hfull : index.length = a.ndim) (hout : ¬ InRange a.shape index) (hzero : ¬ ZeroAxis a.shape index) :
    Agrees a index := by
  have hget := Ndarray.getItem_outside hfull hout hzero
  obtain ⟨v, hlist, -, hnone⟩ := a.tolist_spec
  refine ⟨fun _ => ?_, ⟨v, hlist, ?_⟩, iff_of_true ⟨_, hget⟩ hout, fun h => absurd h hout⟩
  · rw [hget, Ndarray.chain_outside rfl hfull hout hzero]
    rfl
  · rw [hget, hnone index hfull hout]
    rfl

theorem getItem_iff (a : Ndarray α δ) (index : List Int) (hfull : index.length = a.ndim) :
    Agrees a index ∧ RoundTrips α δ ↔ ¬ ZeroAxis a.shape index := by
  constructor
  · rintro ⟨hagrees, -⟩ hzero
    have hout : ¬ InRange a.shape index := fun h => not_zeroAxis_of_inRange h hzero
    obtain ⟨msg, herror⟩ := hagrees.raises.mpr hout
    rw [Ndarray.getItem_zeroAxis hfull hzero] at herror
    cases herror
  · intro hzero
    refine ⟨?_, fun shape v dtype hrect => tolist_array hrect dtype⟩
    by_cases h : InRange a.shape index
    · exact agrees_inRange hfull h
    · exact agrees_outside hfull h hzero

theorem grid_fits : product [2, 3] = ([0, 1, 2, 3, 4, 5] : List Int).length := by decide

def grid : Ndarray Int Unit := ⟨[0, 1, 2, 3, 4, 5], [2, 3], none, false, grid_fits⟩

theorem last_of_first_row : Agrees grid [0, -1] ∧ RoundTrips Int Unit ↔ ¬ ZeroAxis [2, 3] [0, -1] := getItem_iff grid [0, -1] rfl

theorem empty_fits : product [0] = ([] : List Int).length := by decide

/-- `array([])` -/
def empty : Ndarray Int Unit := ⟨[], [0], none, false, empty_fits⟩

theorem empty_divides_by_zero : ¬ Agrees empty [0] := by
  intro h
  have hout : ¬ InRange empty.shape [0] := by
    intro h
    cases h with
    | cons hfits hrest => exact fits_zero hfits
  obtain ⟨msg, herror⟩ := h.raises.mpr hout
  have hget : empty.getItem [0] = .error .zeroDivisionError := rfl
  rw [hget] at herror
  cases herror

end PythonUltra.Numpy
