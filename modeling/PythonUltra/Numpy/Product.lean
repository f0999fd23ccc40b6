/-
  PythonUltra.Numpy.Product — products, transposes and powers of matrices of integers
  (ports/sh/modules/numpy/__init__.py).

  A matrix of the code `Shows` a matrix of Mathlib's. `matrixTimes_shows` and
  `matrixTranspose_shows` are the code's product and transpose, over any commutative ring whose
  operations the elements have (`Exact`), and `powLoop_shows` is the loop of `__pow__`: the
  result times the base to the exponent does not change.

  `pow_iff`: the laws hold, but a matrix without a dtype has no powers, since `__pow__` asks
  `identity` for ones and zeros of its dtype.
-/

import Mathlib.Algebra.BigOperators.Fin
import Mathlib.Data.Matrix.Mul
import PythonUltra.Lib.Blocks
import PythonUltra.Numpy.Index
import PythonUltra.Numpy.Operations

open PythonUltra.Lib.Blocks

namespace PythonUltra.Numpy

variable {α δ R : Type}

/-! ## Row-major data -/

def rowMajor (r c : Nat) (f : Nat → Nat → α) : List α := (List.range r).flatMap fun i => (List.range c).map (f i)

theorem rowMajor_length (r c : Nat) (f : Nat → Nat → α) : (rowMajor r c f).length = r * c := by
  rw [rowMajor, flatMap_length fun i _ => by rw [List.length_map, List.length_range], List.length_range]

theorem rowMajor_get {r c i j : Nat} {f : Nat → Nat → α} (hi : i < r) (hj : j < c) : (rowMajor r c f)[i * c + j]? = some (f i j) := by
  rw [rowMajor, getElem?_flatMap (fun i _ => by rw [List.length_map, List.length_range]) (List.getElem?_range hi) hj, List.getElem?_map,
    List.getElem?_range hj, Option.map_some]

theorem exists_place {r c k : Nat} (hk : k < r * c) : ∃ (i : Fin r) (j : Fin c), (i * c + j : Nat) = k := by
  have hc : 0 < c := Nat.pos_of_ne_zero fun h => by rw [h, Nat.mul_zero] at hk; exact k.not_lt_zero hk
  have hi : k / c < r := Nat.div_lt_of_lt_mul (by rw [Nat.mul_comm]; exact hk)
  exact ⟨⟨k / c, hi⟩, ⟨k % c, Nat.mod_lt k hc⟩, by rw [Nat.mul_comm]; exact Nat.div_add_mod k c⟩

theorem place_inj {c i j i' j' : Nat} (hj : j < c) (hj' : j' < c) (h : i * c + j = i' * c + j') : i = i' ∧ j = j' := by
  have hdiv : ∀ i j : Nat, j < c → (i * c + j) / c = i := fun i j hj => by
    rw [Nat.add_comm, Nat.add_mul_div_right _ _ (Nat.zero_lt_of_lt hj), Nat.div_eq_of_lt hj, Nat.zero_add]
  have hi : i = i' := by rw [← hdiv i j hj, h, hdiv i' j' hj']
  subst hi
  exact ⟨rfl, Nat.add_left_cancel h⟩

theorem product_two (r c : Nat) : product [(r : Int), (c : Int)] = ((r * c : Nat) : Int) := by
  rw [product_cons, product_cons, product_nil, Int.mul_one, Int.natCast_mul]

/-- The array of these entries. -/
def ofEntries (r c : Nat) (f : Nat → Nat → α) (dtype : Option δ) (isMatrix : Bool) : Ndarray α δ :=
  ⟨rowMajor r c f, [(r : Int), (c : Int)], dtype, isMatrix, by rw [product_two, rowMajor_length]⟩

theorem init_rowMajor (r c : Nat) (f : Nat → Nat → α) (dtype : Option δ) (isMatrix : Bool) :
    Ndarray.init (rowMajor r c f) [(r : Int), (c : Int)] dtype isMatrix = .ok (ofEntries r c f dtype isMatrix) :=
  dif_pos (by rw [product_two, rowMajor_length])

theorem matrixOf_ofEntries (r c : Nat) (f : Nat → Nat → α) (dtype : Option δ) (isMatrix : Bool) :
    Ndarray.matrixOf (ofEntries r c f dtype isMatrix) none = .ok (ofEntries r c f dtype true) := init_rowMajor r c f dtype true

/-! ## Matrices -/

/-- The array is a matrix of these entries. -/
structure Shows {r c : Nat} (a : Ndarray R δ) (A : Matrix (Fin r) (Fin c) R) : Prop where
  isMatrix : a.isMatrix = true
  shape : a.shape = [(r : Int), (c : Int)]
  entry : ∀ (i : Fin r) (j : Fin c), a.data[(i * c + j : Nat)]? = some (A i j)

/-- Arrays of one shape with the same elements. -/
def Same (a b : Ndarray α δ) : Prop := a.shape = b.shape ∧ a.data = b.data

section
variable {r c k : Nat} {a b : Ndarray R δ} {A : Matrix (Fin r) (Fin c) R} {P : Nums R δ}

theorem length_of_shape (hshape : a.shape = [(r : Int), (c : Int)]) : a.data.length = r * c := by
  have hfits := a.fits
  rw [hshape, product_two] at hfits
  omega

theorem Shows.same (ha : Shows a A) (hb : Shows b A) : Same a b := by
  refine ⟨ha.shape.trans hb.shape.symm, List.ext_getElem? fun k => ?_⟩
  have hla := length_of_shape ha.shape
  have hlb := length_of_shape hb.shape
  by_cases hk : k < r * c
  · obtain ⟨i, j, rfl⟩ := exists_place hk
    rw [ha.entry, hb.entry]
  · rw [List.getElem?_eq_none (by omega), List.getElem?_eq_none (by omega)]

/-- The matrix of an array of two axes. -/
def toMatrix [Zero R] (a : Ndarray R δ) (r c : Nat) : Matrix (Fin r) (Fin c) R := fun i j => a.data.getD (i * c + j) 0

theorem index_lt (i : Fin r) (j : Fin c) : (i * c + j : Nat) < r * c := by
  have hle : (i + 1 : Nat) * c ≤ r * c := Nat.mul_le_mul_right c i.isLt
  rw [Nat.succ_mul] at hle
  have := j.isLt
  omega

theorem shows_toMatrix [Zero R] (hmatrix : a.isMatrix = true) (hshape : a.shape = [(r : Int), (c : Int)]) : Shows a (toMatrix a r c) := by
  refine ⟨hmatrix, hshape, fun i j => ?_⟩
  have hlt : (i * c + j : Nat) < a.data.length := by
    rw [length_of_shape hshape]
    exact index_lt i j
  rw [toMatrix, List.getD_eq_getElem?_getD, List.getElem?_eq_getElem hlt, Option.getD_some]

theorem shows_ofEntries {f : Nat → Nat → R} {dtype : Option δ} (hf : ∀ (i : Fin r) (j : Fin c), f i j = A i j) :
    Shows (ofEntries r c f dtype true) A := by
  refine ⟨rfl, rfl, fun i j => ?_⟩
  show (rowMajor r c f)[(i * c + j : Nat)]? = _
  rw [rowMajor_get i.isLt j.isLt, hf]

theorem matrixCopy_shows (ha : Shows a A) : ∃ m, a.copy = .ok m ∧ Shows m A := by
  have hfits : product [(r : Int), (c : Int)] = a.data.length := ha.shape ▸ a.fits
  refine ⟨⟨a.data, [(r : Int), (c : Int)], a.dtype, true, hfits⟩, ?_, ⟨rfl, rfl, ha.entry⟩⟩
  rw [Ndarray.copy, if_pos ha.isMatrix, Ndarray.matrixFlat, ha.shape]
  exact dif_pos hfits

theorem powNat_none (hdtype : a.dtype = none) (exponent : Nat) :
    a.powNat P exponent = .error (.typeError "'NoneType' object isn't callable") := by
  rw [Ndarray.powNat, hdtype]
  rfl

theorem Shows.item (h : Shows a A) (i : Fin r) (j : Fin c) : item a.data ((i : Nat) * (c : Int) + (j : Nat)) = .ok (A i j) := by
  have hlt := index_lt i j
  have hindex : ((i : Nat) * (c : Int) + (j : Nat)) = ((i * c + j : Nat) : Int) := by rw [Int.natCast_add, Int.natCast_mul]
  obtain ⟨x, hitem, hx⟩ := item_of_inside (show (0 : Int) ≤ ((i * c + j : Nat) : Int) from Int.natCast_nonneg _)
    (show ((i * c + j : Nat) : Int) < a.data.length by rw [length_of_shape h.shape]; exact_mod_cast hlt)
  rw [Int.toNat_natCast, h.entry] at hx
  rw [hindex, hitem, Option.some.inj hx]

end

/-! ## Products -/

/-- The elements are of a ring, with its operations. -/
structure Exact [CommRing R] (P : Nums R δ) : Prop where
  ofInt : ∀ i, P.ofInt i = i
  add : ∀ x y, P.add x y = .ok (x + y)
  mul : ∀ x y, P.mul x y = .ok (x * y)

section
variable [CommRing R] {r c k : Nat} {a b : Ndarray R δ} {P : Nums R δ}

theorem total_spec (hP : Exact P) {n : Nat} {x y : Int → Except Exc R} {f g : Fin n → R} (hx : ∀ i : Fin n, x (i : Nat) = .ok (f i))
    (hy : ∀ i : Fin n, y (i : Nat) = .ok (g i)) : Ndarray.total P n x y = .ok (∑ i, f i * g i) := by
  induction n with
  | zero =>
    rw [Finset.univ_eq_empty, Finset.sum_empty]
    show Except.ok (P.ofInt 0) = _
    rw [hP.ofInt, Int.cast_zero]
  | succ n ih =>
    have hrest := ih (fun i => hx i.castSucc) (fun i => hy i.castSucc)
    unfold Ndarray.total at hrest ⊢
    rw [Int.toNat_natCast] at hrest ⊢
    rw [List.range_succ, List.foldlM_append, hrest, Fin.sum_univ_castSucc]
    have hlastx : x (n : Nat) = .ok (f (Fin.last n)) := hx (Fin.last n)
    have hlasty : y (n : Nat) = .ok (g (Fin.last n)) := hy (Fin.last n)
    show (do
      let x ← x (n : Nat)
      let y ← y (n : Nat)
      let product ← P.mul x y
      P.add (∑ i : Fin n, f i.castSucc * g i.castSucc) product) >>= pure = _
    rw [hlastx, hlasty]
    show (P.mul _ _ >>= fun product => P.add _ product) >>= pure = _
    rw [hP.mul]
    show P.add _ _ >>= pure = _
    rw [hP.add]
    rfl

theorem mapM_rows {f : Nat → Nat → Except Exc α} {r c : Nat} {g : Nat → Nat → α} (h : ∀ i < r, ∀ j < c, f i j = .ok (g i j)) :
    ∃ output, ((List.range r).mapM fun i => (List.range c).mapM (f i)) = .ok output ∧ output.flatten = rowMajor r c g := by
  refine ⟨(List.range r).map fun i => (List.range c).map (g i), ?_, by rw [rowMajor, List.flatMap_def]⟩
  exact mapM_ok fun i hi => mapM_ok fun j hj => h i (List.mem_range.mp hi) j (List.mem_range.mp hj)

/-- An entry by numbers that need not be inside. -/
def entryAt (A : Matrix (Fin r) (Fin c) R) (i j : Nat) : R := if h : i < r ∧ j < c then A ⟨i, h.1⟩ ⟨j, h.2⟩ else 0

theorem entryAt_fin (A : Matrix (Fin r) (Fin c) R) (i : Fin r) (j : Fin c) : entryAt A i j = A i j := dif_pos ⟨i.isLt, j.isLt⟩

theorem matmul_shows (hP : Exact P) {A : Matrix (Fin r) (Fin k) R} {B : Matrix (Fin k) (Fin c) R} (ha : Shows a A) (hb : Shows b B) :
    Ndarray.matmul P a b = .ok (.array (ofEntries r c (entryAt (A * B)) none true)) := by
  have hentry : ∀ i < r, ∀ j < c, Ndarray.total P k (fun index => item a.data ((i : Nat) * (k : Int) + index))
      (fun index => item b.data (index * (c : Int) + (j : Nat))) = .ok (entryAt (A * B) i j) := by
    intro i hi j hj
    rw [total_spec hP (fun index => ha.item ⟨i, hi⟩ index) (fun index => hb.item index ⟨j, hj⟩), entryAt, dif_pos ⟨hi, hj⟩, Matrix.mul_apply]
  obtain ⟨result, hrun, hflat⟩ := mapM_rows hentry
  unfold Ndarray.matmul
  rw [ha.shape, hb.shape]
  show (if (k : Int) ≠ k then _ else _) = _
  rw [if_neg fun h => h rfl, Int.toNat_natCast, Int.toNat_natCast]
  show (do
    let result ← (List.range r).mapM fun (row : Nat) => (List.range c).mapM fun (col : Nat) =>
      Ndarray.total P k (fun index => item a.data (row * (k : Int) + index)) (fun index => item b.data (index * (c : Int) + col))
    let output ← Ndarray.flat result.flatten [(r : Int), (c : Int)] none
    Ndarray.orMatrix (a.isMatrix || b.isMatrix) output) = _
  rw [hrun]
  show (do
    let output ← Ndarray.flat result.flatten [(r : Int), (c : Int)] none
    Ndarray.orMatrix (a.isMatrix || b.isMatrix) output) = _
  rw [hflat, Ndarray.flat, init_rowMajor, ha.isMatrix]
  show (do
    let output ← Ndarray.matrixOf (ofEntries r c (entryAt (A * B)) none false) none
    pure (Ndarray.Item.array output)) = _
  rw [matrixOf_ofEntries]
  rfl

theorem matrixTimes_shows (hP : Exact P) {A : Matrix (Fin r) (Fin k) R} {B : Matrix (Fin k) (Fin c) R} (ha : Shows a A) (hb : Shows b B) :
    ∃ m, Ndarray.matrixTimes P a b = .ok m ∧ Shows m (A * B) := by
  refine ⟨ofEntries r c (entryAt (A * B)) none true, ?_, shows_ofEntries (entryAt_fin _)⟩
  have hmul : a.mul P (.array b) = .ok (.array (ofEntries r c (entryAt (A * B)) none true)) := by
    unfold Ndarray.mul
    show (if a.isMatrix then Ndarray.matrixMatmul P a b else _) = _
    rw [if_pos ha.isMatrix, Ndarray.matrixMatmul, matmul_shows hP ha hb]
    show (Ndarray.matrixOf (ofEntries r c (entryAt (A * B)) none true) none).map _ = _
    rw [matrixOf_ofEntries]
    rfl
  rw [Ndarray.matrixTimes, hmul]
  rfl

/-- T -/
theorem matrixTranspose_shows {A : Matrix (Fin r) (Fin c) R} (ha : Shows a A) : ∃ m, a.matrixTranspose = .ok m ∧ Shows m A.transpose := by
  refine ⟨ofEntries c r (entryAt A.transpose) a.dtype true, ?_, shows_ofEntries (entryAt_fin _)⟩
  have hentry : ∀ j < c, ∀ i < r, item a.data ((i : Nat) * (c : Int) + (j : Nat)) = .ok (entryAt A.transpose j i) := by
    intro j hj i hi
    rw [entryAt, dif_pos ⟨hj, hi⟩, Matrix.transpose_apply]
    exact ha.item ⟨i, hi⟩ ⟨j, hj⟩
  obtain ⟨output, hrun, hflat⟩ := mapM_rows hentry
  unfold Ndarray.matrixTranspose
  rw [ha.shape]
  show (do
    let output ← (do
      let output ← (List.range ((c : Int)).toNat).mapM fun (col : Nat) => (List.range ((r : Int)).toNat).mapM fun (row : Nat) =>
        item a.data (row * (c : Int) + col)
      pure output.flatten)
    Ndarray.matrixFlat output a.dtype [(c : Int), (r : Int)]) = _
  rw [Int.toNat_natCast, Int.toNat_natCast, hrun]
  show Ndarray.matrixFlat output.flatten a.dtype [(c : Int), (r : Int)] = _
  rw [hflat]
  exact init_rowMajor c r _ a.dtype true

end

/-! ## Powers -/

section
variable [CommRing R] {n : Nat} {a b : Ndarray R δ} {P : Nums R δ}

/-- The loop of `identity`. -/
theorem identity_loop (n : Nat) : ∀ m ≤ n, ∃ values : List R, (List.range m).foldlM (fun values (index : Nat) =>
      store values ((index : Int) * n + index) (1 : R)) (List.replicate (n * n) (0 : R)) = .ok values ∧ values.length = n * n ∧
    ∀ i j : Fin n, values[(i * n + j : Nat)]? = some (if i = j ∧ (i : Nat) < m then 1 else 0)
  | 0, _ => by
    refine ⟨_, rfl, List.length_replicate, fun i j => ?_⟩
    rw [List.getElem?_replicate_of_lt (index_lt i j), if_neg fun h => (i : Nat).not_lt_zero h.2]
  | m + 1, hm => by
    obtain ⟨values, hrun, hlength, hvalues⟩ := identity_loop n m (Nat.le_of_succ_le hm)
    have hplace : m * n + m < n * n := index_lt ⟨m, hm⟩ ⟨m, hm⟩
    have hstore : store values ((m : Int) * n + m) (1 : R) = .ok (values.set (m * n + m) 1) := by
      have hindex : (m : Int) * n + m = ((m * n + m : Nat) : Int) := by rw [Int.natCast_add, Int.natCast_mul]
      have hin : ¬ ((m * n + m : Nat) : Int) < 0 := by omega
      have hroom : ¬ (((m * n + m : Nat) : Int) < 0 ∨ ((m * n + m : Nat) : Int) ≥ values.length) := by omega
      rw [hindex, store]
      simp only [if_neg hin, if_neg hroom, Int.toNat_natCast]
    refine ⟨values.set (m * n + m) 1, ?_, by rw [List.length_set, hlength], fun i j => ?_⟩
    · rw [List.range_succ, List.foldlM_append, hrun]
      show store values ((m : Int) * n + m) (1 : R) >>= pure = _
      rw [hstore]
      rfl
    · by_cases hat : m * n + m = i * n + j
      · obtain ⟨hi, hj⟩ := place_inj (show m < n from hm) j.isLt hat
        have hij : i = j := Fin.ext (hi.symm.trans hj)
        rw [← hat, List.getElem?_set_self (by rw [hlength]; exact hplace), if_pos ⟨hij, by omega⟩]
      · rw [List.getElem?_set_ne hat, hvalues]
        refine congrArg some (if_congr (and_congr_right fun hij => ?_) rfl rfl)
        have hne : (i : Nat) ≠ m := by
          rintro rfl
          exact hat (by rw [hij])
        omega

/-- The dtype is there and makes zeros and ones. -/
structure Keeps (P : Nums R δ) (dtype : Option δ) : Prop where
  zero : P.call dtype (P.ofInt 0) = .ok 0
  one : P.call dtype (P.ofInt 1) = .ok 1

theorem identity_shows {dtype : Option δ} (hdtype : Keeps P dtype) (n : Nat) :
    ∃ one m, Ndarray.identity P n dtype = .ok one ∧ Ndarray.matrixOf one none = .ok m ∧ Shows m (1 : Matrix (Fin n) (Fin n) R) := by
  obtain ⟨values, hrun, hlength, hvalues⟩ := identity_loop (R := R) n n (Nat.le_refl n)
  have hfits : product [(n : Int), (n : Int)] = values.length := by rw [product_two, hlength]
  have hvalues' : ∀ i j : Fin n, values[(i * n + j : Nat)]? = some ((1 : Matrix (Fin n) (Fin n) R) i j) := fun i j => by
    rw [hvalues, Matrix.one_apply]
    exact congrArg some (if_congr (and_iff_left i.isLt) rfl rfl)
  refine ⟨⟨values, _, dtype, false, hfits⟩, ⟨values, _, dtype, true, hfits⟩, ?_, dif_pos hfits, ⟨rfl, rfl, hvalues'⟩⟩
  have hones : (List.range n).foldlM (fun values (index : Nat) => do
      let one ← P.call dtype (P.ofInt 1)
      store values ((index : Int) * n + index) one) (List.replicate (n * n) (0 : R)) = .ok values := by
    rw [hdtype.one]
    exact hrun
  have hcount : ((n : Int) * n).toNat = n * n := by rw [← Int.natCast_mul, Int.toNat_natCast]
  rw [Ndarray.identity, hdtype.zero]
  show (do
    let values ← (List.range ((n : Int)).toNat).foldlM (fun values (index : Nat) => do
      let one ← P.call dtype (P.ofInt 1)
      store values ((index : Int) * n + index) one) (List.replicate ((n : Int) * n).toNat (0 : R))
    Ndarray.flat values [(n : Int), (n : Int)] dtype) = _
  rw [hcount, Int.toNat_natCast, hones]
  exact dif_pos hfits

/-- The result times the base to the exponent stays the same. -/
theorem powLoop_shows (hP : Exact P) {A B : Matrix (Fin n) (Fin n) R} (exponent : Nat) {result base : Ndarray R δ} (hresult : Shows result A)
    (hbase : Shows base B) : ∃ m, Ndarray.powLoop P result base exponent = .ok m ∧ Shows m (A * B ^ exponent) := by
  induction exponent using Nat.strong_induction_on generalizing A B result base with
  | _ exponent ih =>
    by_cases hzero : exponent = 0
    · subst hzero
      refine ⟨result, by rw [Ndarray.powLoop, if_pos rfl]; rfl, ?_⟩
      rwa [pow_zero, mul_one]
    · have hhalf : exponent >>> 1 < exponent := by
        rw [Nat.shiftRight_one]
        omega
      have hbits : exponent &&& 1 = exponent % 2 := Nat.and_one_is_mod exponent
      have hshift : exponent >>> 1 = exponent / 2 := Nat.shiftRight_one exponent
      obtain ⟨result', hresultRun, hresult'⟩ : ∃ m, Ndarray.timesIf P (exponent &&& 1 ≠ 0) result base = .ok m ∧ Shows m (A * B ^ (exponent &&& 1)) := by
        by_cases hbit : exponent &&& 1 = 0
        · rw [Ndarray.timesIf, if_neg (by simpa using hbit), hbit, pow_zero, mul_one]
          exact ⟨result, rfl, hresult⟩
        · have hone : exponent &&& 1 = 1 := by omega
          rw [Ndarray.timesIf, if_pos (by simpa using hbit), hone, pow_one]
          exact matrixTimes_shows hP hresult hbase
      obtain ⟨base', hbaseRun, hbase'⟩ : ∃ m, Ndarray.timesIf P (exponent >>> 1 ≠ 0) base base = .ok m ∧
          Shows m (if exponent >>> 1 ≠ 0 then B * B else B) := by
        by_cases hmore : exponent >>> 1 = 0
        · rw [Ndarray.timesIf, if_neg (by simpa using hmore), if_neg (not_not.mpr hmore)]
          exact ⟨base, rfl, hbase⟩
        · rw [Ndarray.timesIf, if_pos (by simpa using hmore), if_pos hmore]
          exact matrixTimes_shows hP hbase hbase
      obtain ⟨m, hrun, hm⟩ := ih (exponent >>> 1) hhalf hresult' hbase'
      refine ⟨m, ?_, ?_⟩
      · rw [Ndarray.powLoop, if_neg hzero, hresultRun]
        show (Ndarray.timesIf P (exponent >>> 1 ≠ 0) base base >>= fun base => Ndarray.powLoop P result' base (exponent >>> 1)) = _
        rw [hbaseRun]
        exact hrun
      · have hpower : B ^ (exponent &&& 1) * (if exponent >>> 1 ≠ 0 then B * B else B) ^ (exponent >>> 1) = B ^ exponent := by
          by_cases hmore : exponent >>> 1 = 0
          · rw [hmore, pow_zero, mul_one, show exponent &&& 1 = exponent by omega]
          · rw [if_pos hmore, ← pow_two, ← pow_mul, ← pow_add]
            congr 1
            omega
        rwa [mul_assoc, hpower] at hm

theorem powNat_shows (hP : Exact P) (hdtype : Keeps P a.dtype) {A : Matrix (Fin n) (Fin n) R} (ha : Shows a A) (exponent : Nat) :
    ∃ m, a.powNat P exponent = .ok m ∧ Shows m (A ^ exponent) := by
  obtain ⟨one, result, hidentity, hmatrix, hresult⟩ := identity_shows hdtype n
  obtain ⟨base, hcopy, hbase⟩ := matrixCopy_shows ha
  obtain ⟨m, hloop, hm⟩ := powLoop_shows hP exponent hresult hbase
  rw [one_mul] at hm
  refine ⟨m, ?_, hm⟩
  rw [Ndarray.powNat, ha.shape, List.headD_cons, hidentity]
  show (do
    let result ← Ndarray.matrixOf one none
    let base ← a.copy
    Ndarray.powLoop P result base exponent) = _
  rw [hmatrix]
  show (do
    let base ← a.copy
    Ndarray.powLoop P result base exponent) = _
  rw [hcopy]
  exact hloop

end

/-! ## Integers -/

/-- The dtypes that make ints. -/
inductive IntDtype where
  | int
  | bool
  deriving DecidableEq

/-- Ints; True and False are the ints 1 and 0. -/
def intNums : Nums Int IntDtype where
  ofInt i := i
  add x y := .ok (x + y)
  sub x y := .ok (x - y)
  mul x y := .ok (x * y)
  neg x := .ok (-x)
  lt x y := .ok (decide (x < y))
  eq x y := decide (x = y)
  convert
    | .int, x => .ok x
    | .bool, x => .ok (if x = 0 then 0 else 1)

theorem exact_intNums : Exact intNums := ⟨fun _ => rfl, fun _ _ => rfl, fun _ _ => rfl⟩

theorem keeps_intNums (dtype : IntDtype) : Keeps intNums (some dtype) := by
  cases dtype
  · exact ⟨rfl, rfl⟩
  · exact ⟨rfl, rfl⟩

/-- A matrix of the code, of r by c. -/
def IsMat (a : Ndarray α δ) (r c : Nat) : Prop := a.isMatrix = true ∧ a.shape = [(r : Int), (c : Int)]

/-- A power of a matrix is the product of as many of it, and exponents add up. -/
structure PowLaws (a : Ndarray Int IntDtype) (n : Nat) : Prop where
  power : ∀ e : Nat, ∃ p, a.powNat intNums e = .ok p ∧ Shows p (toMatrix a n n ^ e)
  sum : ∀ k l : Nat, ∃ p x y q, a.powNat intNums (k + l) = .ok p ∧ a.powNat intNums k = .ok x ∧ a.powNat intNums l = .ok y ∧
    x.matrixTimes intNums y = .ok q ∧ Same p q

/-- Products are associative, and a transpose turns them around. -/
structure ProductLaws : Prop where
  assoc : ∀ (r k l c : Nat) (a b d : Ndarray Int IntDtype), IsMat a r k → IsMat b k l → IsMat d l c →
    ∃ ab bd p q, a.matrixTimes intNums b = .ok ab ∧ b.matrixTimes intNums d = .ok bd ∧ ab.matrixTimes intNums d = .ok p ∧
      a.matrixTimes intNums bd = .ok q ∧ Same p q
  transposed : ∀ (r k c : Nat) (a b : Ndarray Int IntDtype), IsMat a r k → IsMat b k c →
    ∃ ab at' bt p q, a.matrixTimes intNums b = .ok ab ∧ a.matrixTranspose = .ok at' ∧ b.matrixTranspose = .ok bt ∧ ab.matrixTranspose = .ok p ∧
      bt.matrixTimes intNums at' = .ok q ∧ Same p q

theorem productLaws : ProductLaws := by
  constructor
  · rintro r k l c a b d ⟨ha, hashape⟩ ⟨hb, hbshape⟩ ⟨hd, hdshape⟩
    have hA := shows_toMatrix ha hashape
    have hB := shows_toMatrix hb hbshape
    have hD := shows_toMatrix hd hdshape
    obtain ⟨ab, hab, hAB⟩ := matrixTimes_shows exact_intNums hA hB
    obtain ⟨bd, hbd, hBD⟩ := matrixTimes_shows exact_intNums hB hD
    obtain ⟨p, hp, hP⟩ := matrixTimes_shows exact_intNums hAB hD
    obtain ⟨q, hq, hQ⟩ := matrixTimes_shows exact_intNums hA hBD
    rw [← Matrix.mul_assoc] at hQ
    exact ⟨ab, bd, p, q, hab, hbd, hp, hq, hP.same hQ⟩
  · rintro r k c a b ⟨ha, hashape⟩ ⟨hb, hbshape⟩
    have hA := shows_toMatrix ha hashape
    have hB := shows_toMatrix hb hbshape
    obtain ⟨ab, hab, hAB⟩ := matrixTimes_shows exact_intNums hA hB
    obtain ⟨at', hat, hAT⟩ := matrixTranspose_shows hA
    obtain ⟨bt, hbt, hBT⟩ := matrixTranspose_shows hB
    obtain ⟨p, hp, hP⟩ := matrixTranspose_shows hAB
    obtain ⟨q, hq, hQ⟩ := matrixTimes_shows exact_intNums hBT hAT
    rw [Matrix.transpose_mul] at hP
    exact ⟨ab, at', bt, p, q, hab, hat, hbt, hp, hq, hP.same hQ⟩

theorem powLaws {a : Ndarray Int IntDtype} {n : Nat} (ha : IsMat a n n) (hdtype : a.dtype ≠ none) : PowLaws a n := by
  obtain ⟨dtype, hdtype⟩ := Option.ne_none_iff_exists'.mp hdtype
  have hkeeps : Keeps intNums a.dtype := hdtype ▸ keeps_intNums dtype
  have hpower := fun e => powNat_shows exact_intNums hkeeps (shows_toMatrix ha.1 ha.2) e
  refine ⟨hpower, fun k l => ?_⟩
  obtain ⟨p, hp, hP⟩ := hpower (k + l)
  obtain ⟨x, hx, hX⟩ := hpower k
  obtain ⟨y, hy, hY⟩ := hpower l
  obtain ⟨q, hq, hQ⟩ := matrixTimes_shows exact_intNums hX hY
  rw [← pow_add] at hQ
  exact ⟨p, x, y, q, hp, hx, hy, hq, hP.same hQ⟩

theorem not_powLaws {a : Ndarray Int IntDtype} {n : Nat} (hdtype : a.dtype = none) : ¬ PowLaws a n := by
  intro h
  obtain ⟨p, hp, -⟩ := h.power 0
  rw [powNat_none hdtype] at hp
  cases hp

/-- `matrix([[1, 1], [1, 0]], dtype)` -/
def steps (dtype : Option IntDtype) : Ndarray Int IntDtype := ofEntries 2 2 (fun i j => if i + j < 2 then 1 else 0) dtype true

end PythonUltra.Numpy
