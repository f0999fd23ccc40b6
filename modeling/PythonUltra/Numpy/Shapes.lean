/-
  PythonUltra.Numpy.Shapes — the shape and the data of every array in a run of calls
  (ports/sh/modules/numpy/__init__.py).

  What an operation gives is `WellShaped` if what it takes is (`Op.run_wellShaped`), and an
  assignment in place keeps it so. But a shape comes from the caller too, and of it only the
  product is compared with the number of elements: two negative dimensions slip through
  (`Op.Slips`). `shapes_iff`: nothing else goes wrong, and what slips through stays.
-/

import Mathlib.Algebra.Order.Group.Int
import PythonUltra.Lib.Outcome
import PythonUltra.Numpy.Calls
import PythonUltra.Numpy.Index
import PythonUltra.Numpy.Rational

open PythonUltra.Lib.Outcome

namespace PythonUltra.Numpy

variable {α δ : Type} {shape shape' : List Int} {data : List α} {dtype : Option δ} {a b : Ndarray α δ}

/-- No dimension is negative. -/
def Natural (shape : List Int) : Prop := ∀ dim ∈ shape, 0 ≤ dim

structure WellShaped (a : Ndarray α δ) : Prop where
  natural : Natural a.shape
  fits : product a.shape = a.data.length
  two : a.isMatrix = true → a.shape.length = 2

/-- The shape, with a dimension for its -1, is of this size. -/
def Fills (size : Int) (shape : List Int) : Prop :=
  -1 ∉ shape ∧ product shape = size ∨
    ∃ before after dim, shape = before ++ -1 :: after ∧ -1 ∉ before ∧ -1 ∉ after ∧
      product (before ++ after) ≠ 0 ∧ product (before ++ dim :: after) = size

/-- The shape that `reshape` is asked for: a matrix takes one dimension for a row. -/
def Ndarray.asked (a : Ndarray α δ) (shape : List Int) : List Int := if a.isMatrix = true ∧ shape.length = 1 then 1 :: shape else shape

/-- The call is given a shape with a negative dimension whose product is as it should be. -/
def Op.Slips : Op α δ → Prop
  | .ndarray value (some shape) _ => ¬ Natural shape ∧ product shape = (Numpy.flatten value).length
  | .zeros shape _ | .ones shape _ | .full shape _ _ => ¬ Natural shape ∧ 0 ≤ product shape
  | .identity n _ => n < 0
  | .eye n m _ _ => ¬ Natural [n, m.getD n] ∧ 0 ≤ product [n, m.getD n]
  | .reshape a shape => (∃ dim ∈ a.asked shape, dim < -1) ∧ Fills a.size (a.asked shape) ∧ (a.isMatrix = true → (a.asked shape).length = 2)
  | _ => False

/-! ## Shapes -/

theorem natural_nil : Natural [] := fun _ h => absurd h List.not_mem_nil

theorem natural_cons {dim : Int} (hdim : 0 ≤ dim) (hshape : Natural shape) : Natural (dim :: shape) := by
  intro d hd
  rcases List.mem_cons.mp hd with rfl | hmem
  · exact hdim
  · exact hshape d hmem

theorem Natural.head {dim : Int} (h : Natural (dim :: shape)) : 0 ≤ dim := h dim List.mem_cons_self

theorem Natural.tail (h : Natural shape) : Natural shape.tail := fun d hd => h d (List.mem_of_mem_tail hd)

theorem natural_one (n : Nat) : Natural [(n : Int)] := natural_cons (Int.natCast_nonneg n) natural_nil

theorem natural_two {rows cols : Int} (hrows : 0 ≤ rows) (hcols : 0 ≤ cols) : Natural [rows, cols] := natural_cons hrows (natural_cons hcols natural_nil)

theorem Natural.headD (h : Natural shape) : 0 ≤ shape.headD 0 := by
  rcases shape with _ | ⟨dim, shape⟩
  · exact Int.le_refl 0
  · exact h.head

theorem product_nonneg (h : Natural shape) : 0 ≤ product shape := by
  induction shape with
  | nil => exact Int.one_nonneg
  | cons dim shape ih =>
    rw [product_cons]
    exact Int.mul_nonneg h.head (ih h.tail)

/-! ## The end of every constructor -/

theorem init_yields {isMatrix : Bool} (hnatural : product shape = data.length → Natural shape) (htwo : isMatrix = true → shape.length = 2) :
    Yields (Ndarray.init data shape dtype isMatrix) WellShaped := by
  unfold Ndarray.init
  split
  · exact yields_ok ⟨hnatural ‹_›, ‹_›, htwo⟩
  · exact yields_error

theorem flat_yields (hnatural : product shape = data.length → Natural shape) : Yields (Ndarray.flat data shape dtype) WellShaped :=
  init_yields hnatural fun h => nomatch h

theorem init_shape {isMatrix : Bool} : Yields (Ndarray.init data shape dtype isMatrix) fun a => a.shape = shape ∧ a.isMatrix = isMatrix := by
  unfold Ndarray.init
  split
  · exact yields_ok ⟨rfl, rfl⟩
  · exact yields_error

theorem flat_shape : Yields (Ndarray.flat data shape dtype) fun a => a.shape = shape := init_shape.imp fun _ h => h.1

theorem matrixShape_yields : Yields (Ndarray.matrixShape shape) fun shape' => shape'.length = 2 ∧ (Natural shape' ↔ Natural shape) := by
  unfold Ndarray.matrixShape
  split
  · exact yields_ok ⟨rfl, Natural.tail, natural_cons Int.one_nonneg⟩
  · exact yields_ok ⟨rfl, Iff.rfl⟩
  · exact yields_error

theorem matrixFlat_yields (hnatural : Natural shape) : Yields (Ndarray.matrixFlat data dtype shape) WellShaped := by
  refine matrixShape_yields.bind fun shape' h => ?_
  exact init_yields (fun _ => h.2.mpr hnatural) fun _ => h.1

theorem matrixOf_yields (ha : WellShaped a) : Yields (Ndarray.matrixOf a dtype) WellShaped := by
  unfold Ndarray.matrixOf
  refine yields_ite (fun _ => ?_) fun _ => ?_
  · exact init_yields (fun _ => natural_two Int.one_nonneg Int.one_nonneg) fun _ => rfl
  · exact matrixShape_yields.bind fun shape' h => init_yields (fun _ => h.2.mpr ha.natural) fun _ => h.1

theorem matrixOf_negative (ha : ¬ Natural a.shape) : Yields (Ndarray.matrixOf a dtype) fun b => ¬ Natural b.shape := by
  unfold Ndarray.matrixOf
  refine yields_ite (fun hnil => ?_) fun _ => ?_
  · rw [hnil] at ha
    exact absurd natural_nil ha
  · refine matrixShape_yields.bind fun shape' h => init_shape.imp fun b hb => ?_
    rw [hb.1, h.2]
    exact ha

theorem asMatrix_yields (hb : WellShaped b) : Yields (a.asMatrix b) WellShaped :=
  yields_ite (fun _ => matrixOf_yields hb) fun _ => yields_ok hb

/-! ## Inferred shapes -/

mutual

theorem inferShape_yields : ∀ value : Value α δ, (∀ a ∈ value.arrays, WellShaped a) → Yields (inferShape value) Natural
  | .leaf _, _ => yields_ok natural_nil
  | .array a, h => yields_ok (h a List.mem_cons_self).natural
  | .list items, h => inferItems_yields items h
  | .tuple items, h => inferItems_yields items h

theorem inferItems_yields : ∀ items : List (Value α δ), (∀ a ∈ arraysOf items, WellShaped a) → Yields (inferItems items) Natural
  | [], _ => yields_ok (natural_one 0)
  | value :: items, h => by
    unfold inferItems
    refine (inferShape_yields value fun a ha => h a (List.mem_append_left _ ha)).bind fun child hchild => ?_
    exact yields_then fun _ => yields_ok (natural_cons (Int.natCast_nonneg (items.length + 1)) hchild)

end

theorem arraysOf_leaves (values : List α) : arraysOf (values.map .leaf : List (Value α δ)) = [] := by
  induction values with
  | nil => rfl
  | cons value values ih => exact ih

/-! ## Constructors -/

theorem new_yields {value : Value α δ} {asked : Option (List Int)} (hvalue : ∀ a ∈ value.arrays, WellShaped a)
    (hasked : ∀ shape, asked = some shape → product shape = (flatten value).length → Natural shape) : Yields (Ndarray.new value asked dtype) WellShaped := by
  have hinferred : ∀ inferred, Natural inferred → product (asked.getD inferred) = (flatten value).length → Natural (asked.getD inferred) := by
    intro inferred hinferred hfits
    rcases asked with _ | shape
    · exact hinferred
    · exact hasked shape rfl hfits
  have hinit : ∀ inferred, Natural inferred → Yields (Ndarray.init (flatten value) (asked.getD inferred) dtype false) WellShaped :=
    fun inferred h => init_yields (hinferred inferred h) fun h => nomatch h
  rcases value with value | items | items | a
  · exact (inferShape_yields _ hvalue).bind hinit
  · exact (inferShape_yields _ hvalue).bind hinit
  · exact (inferShape_yields _ hvalue).bind hinit
  · exact init_yields (hinferred a.shape (hvalue a List.mem_cons_self).natural) fun h => nomatch h

theorem ofList_yields (values : List α) : Yields (Ndarray.ofList values dtype) WellShaped := by
  refine new_yields (fun a ha => ?_) fun _ h => nomatch h
  rw [Value.arrays, arraysOf_leaves] at ha
  exact absurd ha List.not_mem_nil

theorem asked_yields (h : ¬ (¬ Natural shape ∧ 0 ≤ product shape)) : Yields (Ndarray.flat data shape dtype) WellShaped := by
  refine flat_yields fun hfits => ?_
  by_contra hnatural
  exact h ⟨hnatural, by rw [hfits]; exact Int.natCast_nonneg _⟩

theorem asked_negative (h : ¬ Natural shape) : Yields (Ndarray.flat data shape dtype) fun a => ¬ Natural a.shape :=
  flat_shape.imp fun _ ha => by rwa [ha]

section
variable {P : Nums α δ}

theorem identity_asked {n : Int} (h : ¬ n < 0) : ¬ (¬ Natural [n, n] ∧ 0 ≤ product [n, n]) := fun hslips =>
  hslips.1 (natural_two (Int.not_lt.mp h) (Int.not_lt.mp h))

theorem arange_yields (fuel : Nat) (start stop step : α) : Yields (Ndarray.arange P fuel start stop step dtype) fun result => ∀ a ∈ result, WellShaped a := by
  unfold Ndarray.arange
  refine yields_ite (fun _ => yields_error) fun _ => ?_
  refine yields_then fun up => yields_then fun values => ?_
  rcases values with _ | values
  · exact yields_ok fun _ h => nomatch h
  · refine (ofList_yields values).bind fun result hresult => yields_ok fun a ha => ?_
    obtain rfl : result = a := Option.some.inj ha
    exact hresult

end

theorem linspace_yields (P : Reals α δ) (start stop : α) (num : Int) : Yields (Ndarray.linspace P start stop num) WellShaped := by
  unfold Ndarray.linspace
  refine yields_ite (fun _ => ofList_yields []) fun _ => ?_
  refine yields_ite (fun _ => ?_) fun _ => ?_
  · exact yields_then fun start => ofList_yields [start]
  · exact yields_then fun _ => yields_then fun _ => yields_then fun values => ofList_yields values

theorem asarray_yields [DecidableEq δ] {value : Value α δ} (hvalue : ∀ a ∈ value.arrays, WellShaped a) :
    Yields (Ndarray.asarray value dtype) WellShaped := by
  have hnew : Yields (Ndarray.new value none dtype) WellShaped := new_yields hvalue fun _ h => nomatch h
  rcases value with value | items | items | a
  · exact hnew
  · exact hnew
  · exact hnew
  · exact yields_ite (fun _ => yields_ok (hvalue a List.mem_cons_self)) fun _ => hnew

theorem inferred_yields {value : Value α δ} (h : inferShape value = .ok shape) (htwo : shape.length = 2) (hnatural : Natural shape) :
    Yields (inferShape value >>= fun inferred => Ndarray.init (flatten value) inferred dtype true) WellShaped := by
  rw [h]
  exact init_yields (fun _ => hnatural) fun _ => htwo

theorem inferShape_wrap (value : Value α δ) : inferShape (.list [value]) = (inferShape value).map (1 :: ·) := by
  show (inferShape value >>= fun child => inferSame child [] >>= fun _ => pure (1 :: child)) = _
  rcases inferShape value with e | child
  · rfl
  · rfl

theorem inferShape_items {value : Value α δ} {n : Int} (h : inferShape value = .ok [n]) (harray : ∀ a, value ≠ .array a) :
    inferShape (.list (Ndarray.items value)) = .ok [n] := by
  rcases value with value | items | items | a
  · exact nomatch h
  · exact h
  · exact h
  · exact absurd rfl (harray a)

/-- A value that is no array is put into lists until it has two axes. -/
theorem matrix_yields {value : Value α δ} (hvalue : ∀ a ∈ value.arrays, WellShaped a) : Yields (Ndarray.matrix value dtype) WellShaped := by
  unfold Ndarray.matrix
  split
  · exact matrixOf_yields (hvalue _ List.mem_cons_self)
  · rename_i _ harray
    have hnatural := inferShape_yields value hvalue
    rcases hinferred : inferShape value with e | inferred
    · exact yields_error
    · have hshape := hnatural inferred hinferred
      rcases inferred with _ | ⟨n, _ | ⟨cols, _ | ⟨dim, shape⟩⟩⟩
      · refine inferred_yields ?_ rfl (natural_two Int.one_nonneg Int.one_nonneg)
        rw [inferShape_wrap, inferShape_wrap, hinferred]
        rfl
      · refine inferred_yields ?_ rfl (natural_two Int.one_nonneg hshape.head)
        rw [inferShape_wrap, inferShape_items hinferred harray]
        rfl
      · exact inferred_yields hinferred rfl hshape
      · exact yields_error

/-! ## `reshape` -/

/-- The shape, with what is left of the size for its -1. -/
def Resolved (size : Int) (shape shape' : List Int) : Prop :=
  -1 ∉ shape ∧ shape' = shape ∨
    ∃ before after, shape = before ++ -1 :: after ∧ -1 ∉ before ∧ -1 ∉ after ∧
      product (before ++ after) ≠ 0 ∧ shape' = before ++ size.fdiv (product (before ++ after)) :: after

theorem knownLoop_yields : ∀ (shape : List Int) (k : Nat) (missing : Option Nat) (known : Int),
    Yields ((shape.zipIdx k).foldlM Ndarray.knownTurn (missing, known)) fun state =>
      -1 ∉ shape ∧ state = (missing, known * product shape) ∨
        missing = none ∧ ∃ before after, shape = before ++ -1 :: after ∧ -1 ∉ before ∧ -1 ∉ after ∧
          state = (some (k + before.length), known * product (before ++ after))
  | [], _, missing, known => yields_ok (Or.inl ⟨List.not_mem_nil, by rw [product_nil, Int.mul_one]⟩)
  | dim :: shape, k, missing, known => by
    rw [List.zipIdx_cons, List.foldlM_cons, Ndarray.knownTurn]
    by_cases hdim : dim = -1
    · rw [if_pos hdim]
      refine Yields.bind (Q := fun state => missing = none ∧ state = (some k, known)) ?_ ?_
      · refine yields_ite (fun _ => yields_error) fun hnone => yields_ok ⟨?_, rfl⟩
        exact Option.not_isSome_iff_eq_none.mp hnone
      · rintro _ ⟨hnone, rfl⟩
        refine (knownLoop_yields shape (k + 1) (some k) known).imp fun state h => ?_
        rcases h with ⟨hmem, rfl⟩ | ⟨h, -⟩
        · exact Or.inr ⟨hnone, [], shape, by rw [hdim]; rfl, List.not_mem_nil, hmem, rfl⟩
        · exact nomatch h
    · rw [if_neg hdim]
      refine (knownLoop_yields shape (k + 1) missing (known * dim)).imp fun state h => ?_
      rcases h with ⟨hmem, rfl⟩ | ⟨hnone, before, after, rfl, hbefore, hafter, rfl⟩
      · refine Or.inl ⟨List.not_mem_cons_of_ne_of_not_mem (Ne.symm hdim) hmem, ?_⟩
        rw [product_cons, Int.mul_assoc]
      · refine Or.inr ⟨hnone, dim :: before, after, rfl, List.not_mem_cons_of_ne_of_not_mem (Ne.symm hdim) hbefore, hafter, ?_⟩
        rw [List.length_cons, List.cons_append, product_cons, Int.mul_assoc, Nat.add_right_comm, Nat.add_assoc]

theorem resolveShape_yields (size : Int) (shape : List Int) : Yields (Ndarray.resolveShape size shape) (Resolved size shape) := by
  refine (knownLoop_yields shape 0 none 1).bind fun state h => ?_
  rcases h with ⟨hmem, rfl⟩ | ⟨-, before, after, rfl, hbefore, hafter, rfl⟩
  · exact yields_ok (Or.inl ⟨hmem, rfl⟩)
  · rw [Int.one_mul, Nat.zero_add]
    refine yields_ite (fun _ => yields_error) fun hknown => yields_ok (Or.inr ⟨before, after, rfl, hbefore, hafter, ?_, ?_⟩)
    · exact fun hzero => hknown (Or.inl hzero)
    · rw [List.set_append_right _ _ (Nat.le_refl _), Nat.sub_self, List.set_cons_zero]

theorem Resolved.fills {size : Int} (h : Resolved size shape shape') (hproduct : product shape' = size) : Fills size shape := by
  rcases h with ⟨hmem, rfl⟩ | ⟨before, after, rfl, hbefore, hafter, hknown, rfl⟩
  · exact Or.inl ⟨hmem, hproduct⟩
  · exact Or.inr ⟨before, after, _, rfl, hbefore, hafter, hknown, hproduct⟩

theorem Resolved.natural {size : Int} (h : Resolved size shape shape') (hsize : 0 ≤ size) (hlow : ∀ dim ∈ shape, -1 ≤ dim) : Natural shape' := by
  have hdim : ∀ dim ∈ shape, dim ≠ -1 → 0 ≤ dim := fun dim hmem hne => by
    have := hlow dim hmem
    omega
  rcases h with ⟨hmem, rfl⟩ | ⟨before, after, rfl, hbefore, hafter, -, rfl⟩
  · exact fun dim hd => hdim dim hd fun he => hmem (he ▸ hd)
  · have hothers : Natural (before ++ after) := by
      intro dim hd
      rcases List.mem_append.mp hd with hd | hd
      · exact hdim dim (List.mem_append_left _ hd) fun he => hbefore (he ▸ hd)
      · exact hdim dim (List.mem_append_right _ (List.mem_cons_of_mem _ hd)) fun he => hafter (he ▸ hd)
    intro dim hd
    rcases List.mem_append.mp hd with hd | hd
    · exact hothers dim (List.mem_append_left _ hd)
    · rcases List.mem_cons.mp hd with rfl | hd
      · exact Int.fdiv_nonneg hsize (product_nonneg hothers)
      · exact hothers dim (List.mem_append_right _ hd)

theorem Resolved.negative {size dim : Int} (h : Resolved size shape shape') (hmem : dim ∈ shape) (hdim : dim < -1) : ¬ Natural shape' := by
  have hstays : dim ∈ shape' := by
    rcases h with ⟨-, rfl⟩ | ⟨before, after, rfl, -, -, -, rfl⟩
    · exact hmem
    · rcases List.mem_append.mp hmem with hd | hd
      · exact List.mem_append_left _ hd
      · rcases List.mem_cons.mp hd with rfl | hd
        · exact absurd hdim (Int.lt_irrefl _)
        · exact List.mem_append_right _ (List.mem_cons_of_mem _ hd)
  intro hnatural
  have := hnatural dim hstays
  omega

theorem reshapeArray_yields (h : ¬ ((∃ dim ∈ shape, dim < -1) ∧ Fills a.size shape)) : Yields (a.reshapeArray shape) WellShaped := by
  refine (resolveShape_yields a.size shape).bind fun shape' hresolved => ?_
  refine yields_ite (fun _ => yields_error) fun hproduct => flat_yields fun _ => ?_
  refine hresolved.natural (Int.natCast_nonneg _) fun dim hmem => ?_
  by_contra hlow
  exact h ⟨⟨dim, hmem, by omega⟩, hresolved.fills (not_not.mp hproduct)⟩

theorem reshapeArray_negative {dim : Int} (hmem : dim ∈ shape) (hdim : dim < -1) : Yields (a.reshapeArray shape) fun b => ¬ Natural b.shape := by
  refine (resolveShape_yields a.size shape).bind fun shape' hresolved => ?_
  exact yields_ite (fun _ => yields_error) fun _ => asked_negative (hresolved.negative hmem hdim)

theorem matrixDims_yields (hmatrix : a.isMatrix = true) : Yields (Ndarray.matrixDims shape) fun shape' => shape' = a.asked shape ∧ shape'.length = 2 := by
  unfold Ndarray.matrixDims
  split
  · exact yields_ok ⟨(if_pos ⟨hmatrix, rfl⟩).symm, rfl⟩
  · exact yields_ok ⟨(if_neg fun h => nomatch h.2).symm, rfl⟩
  · exact yields_error

theorem asked_array (harray : ¬ a.isMatrix = true) (shape : List Int) : a.asked shape = shape := if_neg fun h => harray h.1

theorem reshape_yields (h : ¬ (Op.reshape a shape).Slips) : Yields (a.reshape shape) WellShaped := by
  refine yields_ite (fun hmatrix => ?_) fun harray => ?_
  · refine (matrixDims_yields hmatrix).bind ?_
    rintro _ ⟨rfl, htwo⟩
    refine (reshapeArray_yields fun hslips => ?_).bind fun b hb => matrixOf_yields hb
    exact h ⟨hslips.1, hslips.2, fun _ => htwo⟩
  · refine reshapeArray_yields fun hslips => h ?_
    rw [← asked_array harray shape] at hslips
    exact ⟨hslips.1, hslips.2, fun hmatrix => absurd hmatrix harray⟩

theorem reshape_negative (h : (Op.reshape a shape).Slips) : Yields (a.reshape shape) fun b => ¬ Natural b.shape := by
  obtain ⟨⟨dim, hmem, hdim⟩, -, -⟩ := h
  refine yields_ite (fun hmatrix => ?_) fun harray => ?_
  · refine (matrixDims_yields hmatrix).bind ?_
    rintro _ ⟨rfl, -⟩
    exact (reshapeArray_negative hmem hdim).bind fun b hb => matrixOf_negative hb
  · rw [asked_array harray] at hmem
    exact reshapeArray_negative hmem hdim

/-! ## Arrays from arrays -/

theorem copy_yields (ha : WellShaped a) : Yields a.copy WellShaped :=
  yields_ite (fun _ => matrixFlat_yields ha.natural) fun _ => flat_yields fun _ => ha.natural

theorem flattened_yields : Yields a.flattened WellShaped :=
  yields_ite (fun _ => matrixFlat_yields (natural_two Int.one_nonneg (Int.natCast_nonneg _))) fun _ => flat_yields fun _ => natural_one _

theorem toArray1_yields : Yields a.toArray1 WellShaped := flat_yields fun _ => natural_one _

theorem toArray_yields (ha : WellShaped a) : Yields a.toArray WellShaped := flat_yields fun _ => ha.natural

theorem WellShaped.axes {rows cols : Int} (ha : WellShaped a) (hshape : a.shape = [rows, cols]) : 0 ≤ rows ∧ 0 ≤ cols := by
  have hnatural := ha.natural
  rw [hshape] at hnatural
  exact ⟨hnatural.head, hnatural.tail.head⟩

theorem matrixTranspose_yields (ha : WellShaped a) : Yields a.matrixTranspose WellShaped := by
  unfold Ndarray.matrixTranspose
  split
  · rename_i rows cols hshape
    exact yields_then fun output => matrixFlat_yields (natural_two (ha.axes hshape).2 (ha.axes hshape).1)
  · exact yields_error

theorem transpose_yields (ha : WellShaped a) : Yields a.transpose WellShaped := by
  unfold Ndarray.transpose
  split
  · exact copy_yields ha
  · exact copy_yields ha
  · rename_i rows cols hshape
    refine yields_then fun output => ?_
    refine (flat_yields fun _ => natural_two (ha.axes hshape).2 (ha.axes hshape).1).bind fun result hresult => ?_
    exact yields_ite (fun _ => matrixOf_yields hresult) fun _ => yields_ok hresult
  · exact yields_error

theorem rows_yields (ha : WellShaped a) : Yields a.rows fun rows => ∀ row ∈ rows, WellShaped row :=
  yields_mapM fun _ _ => flat_yields fun _ => ha.natural.tail

/-- What an index or a product gives is no array, or one of a good shape. -/
def Fine (result : Ndarray.Item α δ) : Prop := ∀ a ∈ result.arrays, WellShaped a

theorem fine_element (value : α) : Fine (.element value : Ndarray.Item α δ) := fun _ h => nomatch h

theorem fine_array (ha : WellShaped a) : Fine (.array a) := by
  rintro b hb
  obtain rfl := List.mem_singleton.mp hb
  exact ha

theorem getInt_yields (ha : WellShaped a) (index : Int) : Yields (a.getInt index) Fine := by
  refine yields_ite (fun _ => Yields.map fun value _ => fine_element value) fun _ => Yields.map ?_
  refine yields_ite (fun _ => yields_error) fun _ => ?_
  exact (flat_yields fun _ => ha.natural.tail).imp fun _ hrow => fine_array hrow

theorem getSlice_yields (s : Ndarray.Slice) : Yields (a.getSlice s) WellShaped :=
  yields_ite (fun _ => yields_error) fun _ => yields_ite (fun _ => yields_error) fun _ => ofList_yields _

theorem setItem_yields (ha : WellShaped a) (index : List Int) (value : α) : Yields (a.setItem index value) WellShaped := by
  refine yields_then fun offset => ?_
  split
  · exact yields_ok ⟨ha.natural, Ndarray.fits _, ha.two⟩
  · exact yields_error

theorem setSlice_yields (ha : WellShaped a) (s : Ndarray.Slice) (replacement : List α) : Yields (a.setSlice s replacement) WellShaped := by
  refine yields_ite (fun _ => yields_error) fun hndim => yields_ite (fun _ => yields_error) fun _ => ?_
  refine yields_ok ⟨natural_one _, Ndarray.fits _, fun hmatrix => ?_⟩
  have hone : a.shape.length = 1 := not_not.mp hndim
  rw [ha.two hmatrix] at hone
  exact nomatch hone

/-! ## Arithmetic -/

section
variable {P : Nums α δ}

theorem binary_yields (ha : WellShaped a) (other : Ndarray.Operand α δ) (operation : α → α → Except Exc α) : Yields (a.binary other operation) WellShaped := by
  have hresult : ∀ values, Yields (Ndarray.flat values a.shape a.dtype >>= fun result => a.asMatrix result) WellShaped := fun values =>
    (flat_yields fun _ => ha.natural).bind fun result hresult => asMatrix_yields hresult
  rcases other with b | b
  · exact yields_then hresult
  · exact yields_ite (fun _ => yields_error) fun _ => yields_then hresult

theorem rsub_yields (ha : WellShaped a) (other : α) : Yields (a.rsub P other) WellShaped :=
  yields_then fun _ => yields_ite (fun _ => matrixFlat_yields ha.natural) fun _ => flat_yields fun _ => ha.natural

theorem each_yields (ha : WellShaped a) {x : Except Exc (List α)} : Yields (x >>= fun values => Ndarray.flat values a.shape dtype) WellShaped :=
  yields_then fun _ => flat_yields fun _ => ha.natural

theorem unary_yields (ha : WellShaped a) (function : α → Except Exc α) : Yields (a.unary function) WellShaped :=
  yields_then fun _ => (flat_yields fun _ => ha.natural).bind fun _ hresult => asMatrix_yields hresult

theorem concatenate_yields [DecidableEq δ] (values : List (Value α δ)) : Yields (Ndarray.concatenate values) WellShaped :=
  yields_then fun parts => ofList_yields parts.flatten

/-! ## Products -/

theorem orMatrix_yields (isMatrix : Bool) (ha : WellShaped a) : Yields (Ndarray.orMatrix isMatrix a) Fine :=
  yields_ite (fun _ => (matrixOf_yields ha).bind fun _ hresult => yields_ok (fine_array hresult)) fun _ => yields_ok (fine_array ha)

theorem matmul_yields (ha : WellShaped a) (hb : WellShaped b) : Yields (Ndarray.matmul P a b) Fine := by
  unfold Ndarray.matmul
  split
  · exact yields_ite (fun _ => yields_error) fun _ => yields_then fun total => yields_ok (fine_element total)
  · exact yields_ite (fun _ => yields_error) fun _ => yields_then fun result => (ofList_yields result).bind fun _ h => orMatrix_yields _ h
  · exact yields_ite (fun _ => yields_error) fun _ => yields_then fun result => (ofList_yields result).bind fun _ h => orMatrix_yields _ h
  · rename_i aRows aCols bRows bCols hshape hshape'
    have hnatural : Natural [aRows, bCols] := natural_two (ha.axes hshape).1 (hb.axes hshape').2
    refine yields_ite (fun _ => yields_error) fun _ => yields_then fun result => ?_
    exact (flat_yields fun _ => hnatural).bind fun _ h => orMatrix_yields _ h
  · exact yields_error

theorem matrixMatmul_yields (ha : WellShaped a) (hb : WellShaped b) : Yields (a.matrixMatmul P b) Fine := by
  refine (matmul_yields ha hb).bind fun result hresult => ?_
  rcases result with value | result
  · exact yields_ok (fine_element value)
  · exact Yields.map ((matrixOf_yields (hresult result List.mem_cons_self)).imp fun _ h => fine_array h)

theorem dot_yields (ha : WellShaped a) (hb : WellShaped b) : Yields (a.dot P b) Fine := by
  refine yields_ite (fun _ => ?_) fun _ => matmul_yields ha hb
  exact yields_ite (fun _ => yields_error) fun _ => yields_then fun total => yields_ok (fine_element total)

theorem mul_yields (ha : WellShaped a) {other : Ndarray.Operand α δ} (hother : ∀ b ∈ other.arrays, WellShaped b) : Yields (a.mul P other) Fine := by
  rcases other with b | b
  · exact Yields.map ((binary_yields ha _ _).imp fun _ h => fine_array h)
  · refine yields_ite (fun _ => matrixMatmul_yields ha (hother b List.mem_cons_self)) fun _ => ?_
    exact Yields.map ((binary_yields ha _ _).imp fun _ h => fine_array h)

theorem rmul_yields (ha : WellShaped a) (other : α) : Yields (a.rmul P other) WellShaped :=
  yields_ite (fun _ => binary_yields ha _ _) fun _ => binary_yields ha _ _

theorem matrixTimes_yields (ha : WellShaped a) (hb : WellShaped b) : Yields (a.matrixTimes P b) WellShaped := by
  refine (mul_yields ha fun c hc => ?_).bind fun result hresult => ?_
  · obtain rfl := List.mem_singleton.mp hc
    exact hb
  · rcases result with value | result
    · exact yields_error
    · exact yields_ok (hresult result List.mem_cons_self)

theorem timesIf_yields (condition : Bool) (ha : WellShaped a) (hb : WellShaped b) : Yields (Ndarray.timesIf P condition a b) WellShaped :=
  yields_ite (fun _ => matrixTimes_yields ha hb) fun _ => yields_ok ha

theorem powLoop_yields (exponent : Nat) {result base : Ndarray α δ} (hresult : WellShaped result) (hbase : WellShaped base) :
    Yields (Ndarray.powLoop P result base exponent) WellShaped := by
  induction exponent using Nat.strongRecOn generalizing result base with
  | _ exponent ih =>
    rw [Ndarray.powLoop]
    refine yields_ite (fun _ => yields_ok hresult) fun hpos => ?_
    refine (timesIf_yields _ hresult hbase).bind fun result' hresult' => ?_
    refine (timesIf_yields _ hbase hbase).bind fun base' hbase' => ih (exponent >>> 1) ?_ hresult' hbase'
    rw [Nat.shiftRight_one]
    omega

theorem powNat_yields (ha : WellShaped a) (exponent : Nat) : Yields (a.powNat P exponent) WellShaped := by
  have hidentity : Yields (Ndarray.identity P (a.shape.headD 0) a.dtype) WellShaped :=
    yields_then fun _ => yields_then fun _ => flat_yields fun _ => natural_two ha.natural.headD ha.natural.headD
  refine hidentity.bind fun one hone => (matrixOf_yields hone).bind fun result hresult => ?_
  exact (copy_yields ha).bind fun base hbase => powLoop_yields exponent hresult hbase

end

section
variable {P : Reals α δ}

theorem inverse_yields (ha : WellShaped a) : Yields (a.inverse P) WellShaped := by
  unfold Ndarray.inverse
  split
  · rename_i rows cols hshape
    have hrows := (ha.axes hshape).1
    exact yields_ite (fun _ => yields_error) fun _ => yields_then fun _ => yields_then fun _ => matrixFlat_yields (natural_two hrows hrows)
  · exact yields_error

theorem pow_yields (ha : WellShaped a) (exponent : Int) : Yields (a.pow P exponent) WellShaped := by
  refine yields_ite (fun _ => yields_error) fun _ => yields_ite (fun _ => inverse_yields ha) fun _ => ?_
  exact yields_ite (fun _ => (inverse_yields ha).bind fun b hb => powNat_yields hb _) fun _ => powNat_yields ha _

end

/-! ## Calls -/

theorem one_yields {x : Except Exc (Ndarray α δ)} (h : Yields x WellShaped) : Yields (Op.one x) fun made => ∀ b ∈ made, WellShaped b := by
  refine Yields.map (h.imp fun a ha b hb => ?_)
  obtain rfl := List.mem_singleton.mp hb
  exact ha

theorem one_negative {x : Except Exc (Ndarray α δ)} (h : Yields x fun a => ¬ Natural a.shape) :
    Yields (Op.one x) fun made => ∃ b ∈ made, ¬ Natural b.shape :=
  Yields.map (h.imp fun a ha => ⟨a, List.mem_cons_self, ha⟩)

theorem setItem_shape (index : List Int) (value : α) : Yields (a.setItem index value) fun b => b.shape = a.shape := by
  refine yields_then fun offset => ?_
  split
  · exact yields_ok rfl
  · exact yields_error

/-- Slices are assigned to arrays of one axis, which is as long as the data. -/
theorem setSlice_natural (s : Ndarray.Slice) (replacement : List α) : Yields (a.setSlice s replacement) fun _ => Natural a.shape := by
  refine yields_ite (fun _ => yields_error) fun hndim _ _ => ?_
  obtain ⟨n, hshape⟩ := List.length_eq_one_iff.mp (not_not.mp hndim)
  have hfits := a.fits
  rw [hshape, product_cons, product_nil, Int.mul_one] at hfits
  rw [hshape, hfits]
  exact natural_one _

theorem mem_set_of_ne {arrays : List (Ndarray α δ)} {i : Nat} {c : Ndarray α δ} (ha : arrays[i]? = some a) (hc : c ∈ arrays) (hne : c ≠ a) : c ∈ arrays.set i b := by
  obtain ⟨j, hj⟩ := List.mem_iff_getElem?.mp hc
  refine List.mem_iff_getElem?.mpr ⟨j, ?_⟩
  rw [List.getElem?_set_ne fun hij => hne ?_, hj]
  rw [hij, hj] at ha
  exact Option.some.inj ha

section
variable [DecidableEq δ] {P : Reals α δ} {ops : List (Op α δ)} {arrays : List (Ndarray α δ)}

/-- What a call makes of good arrays, if it does not slip. -/
theorem Op.run_wellShaped (op : Op α δ) (h : ∀ a ∈ op.operands, WellShaped a) (hslips : ¬ op.Slips) :
    Yields (op.run P) fun made => ∀ b ∈ made, WellShaped b := by
  cases op with
  | ndarray value asked dtype =>
    refine one_yields (new_yields h fun shape hasked hfits => ?_)
    subst hasked
    by_contra hnatural
    exact hslips ⟨hnatural, hfits⟩
  | asarray value dtype => exact yields_ite (fun _ => yields_ok fun _ hb => nomatch hb) fun _ => one_yields (asarray_yields h)
  | matrix value dtype => exact one_yields (matrix_yields h)
  | zeros shape dtype => exact one_yields (yields_then fun _ => asked_yields hslips)
  | ones shape dtype => exact one_yields (yields_then fun _ => asked_yields hslips)
  | full shape value dtype =>
    exact one_yields (yields_ite (fun _ => yields_then fun _ => asked_yields hslips) fun _ => asked_yields hslips)
  | identity n dtype => exact one_yields (yields_then fun _ => yields_then fun _ => asked_yields (identity_asked hslips))
  | eye n m k dtype => exact one_yields (yields_then fun _ => yields_then fun _ => asked_yields hslips)
  | arange fuel start stop step dtype =>
    exact Yields.map ((arange_yields fuel start stop step).imp fun result hresult b hb => hresult b (Option.mem_toList.mp hb))
  | linspace start stop num => exact one_yields (linspace_yields P start stop num)
  | copy a => exact one_yields (copy_yields (h a List.mem_cons_self))
  | flatten a => exact one_yields flattened_yields
  | toArray a => exact one_yields (toArray_yields (h a List.mem_cons_self))
  | toArray1 a => exact one_yields toArray1_yields
  | iter a => exact yields_ite (fun _ => yields_ok fun _ hb => nomatch hb) fun _ => rows_yields (h a List.mem_cons_self)
  | getInt a index => exact Yields.map (getInt_yields (h a List.mem_cons_self) index)
  | getSlice a s => exact one_yields (getSlice_yields s)
  | reshape a shape => exact one_yields (reshape_yields hslips)
  | transpose a => exact one_yields (transpose_yields (h a List.mem_cons_self))
  | matrixTranspose a => exact one_yields (matrixTranspose_yields (h a List.mem_cons_self))
  | binary a other operation => exact one_yields (binary_yields (h a List.mem_cons_self) other operation)
  | rsub a other => exact one_yields (rsub_yields (h a List.mem_cons_self) other)
  | rtruediv a other => exact one_yields (each_yields (h a List.mem_cons_self))
  | neg a => exact one_yields (each_yields (h a List.mem_cons_self))
  | astype a converter => exact one_yields (each_yields (h a List.mem_cons_self))
  | unary a function => exact one_yields (unary_yields (h a List.mem_cons_self) function)
  | mul a other => exact Yields.map (mul_yields (h a List.mem_cons_self) fun b hb => h b (List.mem_cons_of_mem _ hb))
  | rmul a other => exact one_yields (rmul_yields (h a List.mem_cons_self) other)
  | concatenate values => exact one_yields (concatenate_yields values)
  | matmul a b => exact Yields.map (matmul_yields (h a List.mem_cons_self) (h b (List.mem_cons_of_mem _ List.mem_cons_self)))
  | matrixMatmul a b => exact Yields.map (matrixMatmul_yields (h a List.mem_cons_self) (h b (List.mem_cons_of_mem _ List.mem_cons_self)))
  | dot a b => exact Yields.map (dot_yields (h a List.mem_cons_self) (h b (List.mem_cons_of_mem _ List.mem_cons_self)))
  | inverse a => exact one_yields (inverse_yields (h a List.mem_cons_self))
  | pow a exponent => exact one_yields (pow_yields (h a List.mem_cons_self) exponent)

/-- A call that slips makes an array with a negative dimension. -/
theorem Op.run_slips (op : Op α δ) (hslips : op.Slips) : Yields (op.run P) fun made => ∃ b ∈ made, ¬ Natural b.shape := by
  cases op with
  | ndarray value asked dtype =>
    rcases asked with _ | shape
    · exact hslips.elim
    · refine one_negative ?_
      rcases value with value | items | items | a
      · exact yields_then fun _ => init_shape.imp fun a ha => ha.1 ▸ hslips.1
      · exact yields_then fun _ => init_shape.imp fun a ha => ha.1 ▸ hslips.1
      · exact yields_then fun _ => init_shape.imp fun a ha => ha.1 ▸ hslips.1
      · exact init_shape.imp fun a ha => ha.1 ▸ hslips.1
  | zeros shape dtype => exact one_negative (yields_then fun _ => asked_negative hslips.1)
  | ones shape dtype => exact one_negative (yields_then fun _ => asked_negative hslips.1)
  | full shape value dtype => exact one_negative (yields_ite (fun _ => yields_then fun _ => asked_negative hslips.1) fun _ => asked_negative hslips.1)
  | identity n dtype =>
    have hnegative : ¬ Natural [n, n] := fun h => Int.not_lt.mpr h.head hslips
    exact one_negative (yields_then fun _ => yields_then fun _ => asked_negative hnegative)
  | eye n m k dtype => exact one_negative (yields_then fun _ => yields_then fun _ => asked_negative hslips.1)
  | reshape a shape => exact one_negative (reshape_negative hslips)
  | _ => exact hslips.elim

/-! ## Runs -/

theorem run_wellShaped (h : Run P ops arrays) (hops : ∀ op ∈ ops, ¬ op.Slips) : ∀ a ∈ arrays, WellShaped a := by
  have hset : ∀ {arrays : List (Ndarray α δ)} {i : Nat} {b : Ndarray α δ}, (∀ a ∈ arrays, WellShaped a) → WellShaped b →
      ∀ a ∈ arrays.set i b, WellShaped a := by
    intro arrays i b harrays hb a ha
    rcases List.mem_or_eq_of_mem_set ha with hmem | rfl
    · exact harrays a hmem
    · exact hb
  induction h with
  | start => exact fun a ha => nomatch ha
  | make _ hoperands hrun ih =>
    have harrays := ih fun op hop => hops op (List.mem_append_left _ hop)
    have hmade := Op.run_wellShaped _ (fun a ha => harrays a (hoperands a ha)) (hops _ List.mem_concat_self) _ hrun
    exact fun a ha => (List.mem_append.mp ha).elim (harrays a) (hmade a)
  | setItem _ ha hrun ih => exact hset (ih hops) (setItem_yields (ih hops _ (List.mem_of_getElem? ha)) _ _ _ hrun)
  | setSlice _ ha hrun ih => exact hset (ih hops) (setSlice_yields (ih hops _ (List.mem_of_getElem? ha)) _ _ _ hrun)

theorem run_negative (h : Run P ops arrays) {op : Op α δ} (hop : op ∈ ops) (hslips : op.Slips) : ∃ a ∈ arrays, ¬ Natural a.shape := by
  induction h with
  | start => exact nomatch hop
  | make _ _ hrun ih =>
    rcases List.mem_append.mp hop with hop | hop
    · obtain ⟨a, ha, hnegative⟩ := ih hop
      exact ⟨a, List.mem_append_left _ ha, hnegative⟩
    · obtain rfl := List.mem_singleton.mp hop
      obtain ⟨a, ha, hnegative⟩ := Op.run_slips op hslips _ hrun
      exact ⟨a, List.mem_append_right _ ha, hnegative⟩
  | @setItem _ _ i a b _ _ _ ha hrun ih =>
    obtain ⟨c, hc, hnegative⟩ := ih hop
    by_cases hca : c = a
    · refine ⟨b, List.mem_set (List.getElem?_eq_some_iff.mp ha).1 b, ?_⟩
      rw [setItem_shape _ _ b hrun, ← hca]
      exact hnegative
    · exact ⟨c, mem_set_of_ne ha hc hca, hnegative⟩
  | @setSlice _ _ i a b _ _ _ ha hrun ih =>
    obtain ⟨c, hc, hnegative⟩ := ih hop
    refine ⟨c, mem_set_of_ne ha hc ?_, hnegative⟩
    rintro rfl
    exact hnegative (setSlice_natural _ _ b hrun)

/-- Every array that a program has is as it should be, unless a call slipped. -/
theorem shapes_iff (h : Run P ops arrays) : (∀ a ∈ arrays, Natural a.shape ∧ product a.shape = a.data.length ∧ (a.isMatrix = true → a.shape.length = 2)) ↔
    ∀ op ∈ ops, ¬ op.Slips := by
  constructor
  · intro harrays op hop hslips
    obtain ⟨a, ha, hnegative⟩ := run_negative h hop hslips
    exact hnegative (harrays a ha).1
  · intro hops a ha
    have hwell := run_wellShaped h hops a ha
    exact ⟨hwell.natural, hwell.fits, hwell.two⟩

end

theorem zeros_fits {shape : List Int} {n : Nat} (h : product shape = n) : product shape = (List.replicate n (0 : ℚ)).length := by
  rw [h, List.length_replicate]

/-- `zeros((2, 3))` -/
def wide : Ndarray ℚ Dtype := ⟨List.replicate 6 0, [2, 3], some .float, false, zeros_fits rfl⟩

/-- `zeros((2, 3)).reshape(3, -1)` -/
def tall : Ndarray ℚ Dtype := ⟨List.replicate 6 0, [3, 2], some .float, false, zeros_fits rfl⟩

theorem tall_run : Run ratNums [.zeros [2, 3] (some .float), .reshape wide [3, -1]] [wide, tall] := by
  have hwide : Run ratNums ([] ++ [.zeros [2, 3] (some .float)]) ([] ++ [wide]) := Run.make Run.start (fun _ h => nomatch h) rfl
  exact Run.make hwide (fun _ h => h) rfl

theorem tall_shapes : (∀ a ∈ [wide, tall], Natural a.shape ∧ product a.shape = a.data.length ∧ (a.isMatrix = true → a.shape.length = 2)) ↔
    ∀ op ∈ [Op.zeros [2, 3] (some .float), Op.reshape wide [3, -1]], ¬ op.Slips := shapes_iff tall_run

/-- `zeros((-2, -3))` -/
def backwards : Ndarray ℚ Dtype := ⟨List.replicate 6 0, [-2, -3], some .float, false, zeros_fits rfl⟩

theorem zeros_backwards : Run ratNums [.zeros [-2, -3] (some .float)] [backwards] ∧
    ¬ ∀ a ∈ [backwards], Natural a.shape ∧ product a.shape = a.data.length ∧ (a.isMatrix = true → a.shape.length = 2) := by
  constructor
  · have hrun : Run ratNums ([] ++ [.zeros [-2, -3] (some .float)]) ([] ++ [backwards]) := Run.make Run.start (fun _ h => nomatch h) rfl
    exact hrun
  · intro h
    exact absurd (h backwards List.mem_cons_self).1.head (by decide)

end PythonUltra.Numpy
