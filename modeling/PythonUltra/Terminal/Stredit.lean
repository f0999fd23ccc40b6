/-
  PythonUltra.Terminal.Stredit — the string editor behind the console's last line
  (stredit.c, stredit.h).

  The editor owns one heap block: a few reserved bytes, then the text and its NUL. The
  console reads the reserved bytes as the header of a `console_fline_t`, so a block is
  modelled as that record (`Fline`): its address, the header, and the bytes of `data[]`
  up to the end of the allocation. Addresses are the order of allocation. A grown or
  shrunk block keeps its address here: `realloc` may move it, but the editor holds the
  only pointer to it. Fresh bytes are zero; nothing reads them. Allocation succeeds.

  `Edits ed t`: the editor is live and holds the text `t`. Every operation is stated as
  what it does to `t`.
-/

import PythonUltra.Lib.CMem

namespace PythonUltra.Terminal

open PythonUltra.Lib.CMem

/-- `PE_CONSOLE_LINE_MAX_LENGTH`. -/
def lineMaxLength : Nat := 1024

/-- `CONSOLE_FLINE_SIZE`. -/
def flineSize : Nat := 3

/-- `console_fline_t` at the address `ptr`. -/
structure Fline where
  ptr : Nat
  size : Nat
  renderLines : Nat
  data : List UInt8
  deriving DecidableEq, Repr

/-- `stredit_t`; `raw = none` is the NULL pointer. -/
structure Stredit where
  raw : Option Fline
  maxSize : Nat
  reserved : Nat
  size : Nat
  allocSize : Nat
  prefixLen : Nat
  deriving DecidableEq, Repr

/-- `memset(ed, 0, sizeof *ed)`. -/
def Stredit.zero : Stredit := ⟨none, 0, 0, 0, 0, 0⟩

/-- `stredit_init`; `ptr` is the address `malloc` returns. -/
def streditInit (ptr prealloc reserved maxSize : Nat) : Stredit :=
  if maxSize = 0 then .zero
  else
    { raw := some ⟨ptr, 0, 0, List.replicate (prealloc + 1) 0⟩
      reserved := u16 reserved
      maxSize := u16 maxSize
      size := 0
      allocSize := u16 (reserved + prealloc + 1)
      prefixLen := 0 }

/-- `stredit_freeze_and_reset`: the block, and the editor without it. -/
def streditFreezeAndReset (ed : Stredit) : Option Fline × Stredit :=
  let sizeNeeded := ed.reserved + ed.size + 1
  let raw := if sizeNeeded + 4 ≤ ed.allocSize then
      ed.raw.map fun r => { r with data := r.data.take (sizeNeeded - ed.reserved) }
    else ed.raw
  (raw, .zero)

/-- `stredit_capacity`. -/
def streditCapacity (ed : Stredit) : Int := (ed.maxSize : Int) - ed.size

/-- `stredit_alloc`. -/
def streditAlloc (ed : Stredit) (n : Nat) : Stredit :=
  if ed.reserved + n + 1 ≤ ed.allocSize then ed
  else
    let newsize := max (ed.allocSize + 16) (ed.reserved + n + 1)
    { ed with
      raw := ed.raw.map fun r =>
        { r with data := r.data ++ List.replicate (newsize - ed.reserved - r.data.length) 0 }
      allocSize := u16 newsize }

/-- `stredit_set_prefix`. -/
def streditSetPrefix (ed : Stredit) (prefixSize : Int) : Stredit :=
  { ed with prefixLen := (min (max 0 prefixSize) ed.size).toNat }

/-- `stredit_insert` of the `n = s.length` bytes of `s` at `p`. -/
def streditInsert (ed : Stredit) (p : Int) (s : List UInt8) : Bool × Stredit :=
  if p < 0 ∨ p > ed.size ∨ ed.size + s.length > ed.maxSize then (false, ed)
  else
    let ed' := streditAlloc ed (ed.size + s.length)
    let q := p.toNat
    (true,
      { ed' with
        raw := ed'.raw.map fun r =>
          { r with data := memcpy (memmove r.data (q + s.length) q (ed.size - q + 1)) q s }
        size := u16 (ed.size + s.length) })

/-- `stredit_delete`: the bytes removed, and the editor after. -/
def streditDelete (ed : Stredit) (p n : Int) : Int × Stredit :=
  let unremovable := if p < ed.prefixLen then ed.prefixLen - p else 0
  let p := p + unremovable
  let n := min (n - unremovable) (ed.size - p)
  if n < 0 then (0, ed)
  else
    (n,
      { ed with
        raw := ed.raw.map fun r =>
          { r with data := memmove r.data p.toNat (p + n).toNat (ed.size - n - p + 1).toNat }
        size := ed.size - n.toNat })

/-! ## The text an editor holds -/

/-- The editor is live, holds `t`, and its block is `r`. -/
structure Edits (ed : Stredit) (r : Fline) (t : List UInt8) : Prop where
  raw : ed.raw = some r
  holds : Holds 0 r.data t
  size : ed.size = t.length
  maxSize : ed.maxSize = lineMaxLength
  reserved : ed.reserved = flineSize
  alloc : ed.allocSize = flineSize + r.data.length
  allocLe : ed.allocSize ≤ 1043
  sizeLe : t.length ≤ lineMaxLength
  prefixLe : ed.prefixLen ≤ ed.size

theorem edits_init (ptr : Nat) :
    Edits (streditInit ptr 16 flineSize lineMaxLength) ⟨ptr, 0, 0, List.replicate 17 0⟩ [] where
  raw := rfl
  holds := ⟨List.replicate 16 0, rfl⟩
  size := rfl
  maxSize := rfl
  reserved := rfl
  alloc := rfl
  allocLe := (by decide : u16 (3 + 16 + 1) ≤ 1043)
  sizeLe := Nat.zero_le _
  prefixLe := Nat.le_refl _

namespace Edits

variable {ed : Stredit} {r : Fline} {t : List UInt8}

theorem size_le (h : Edits ed r t) : ed.size ≤ lineMaxLength := h.size ▸ h.sizeLe

/-- `stredit_alloc` keeps the text and makes room for `n` bytes of it. -/
theorem streditAlloc (h : Edits ed r t) {n : Nat} (hn : n ≤ lineMaxLength) :
    ∃ d, Edits (streditAlloc ed n) { r with data := d } t ∧ n + 1 ≤ d.length ∧
      (Terminal.streditAlloc ed n).prefixLen = ed.prefixLen := by
  obtain ⟨rest, hd⟩ := h.holds
  have ha := h.alloc
  have hr := h.reserved
  simp only [lineMaxLength, flineSize] at *
  unfold Terminal.streditAlloc
  split
  · exact ⟨r.data, h, by omega, rfl⟩
  · rename_i hlt
    set newsize := max (ed.allocSize + 16) (ed.reserved + n + 1) with hnew
    refine ⟨r.data ++ List.replicate (newsize - ed.reserved - r.data.length) 0, ?_, ?_, rfl⟩
    · refine ⟨by simp [h.raw], ⟨rest ++ List.replicate (newsize - ed.reserved - r.data.length) 0, by simp [hd]⟩,
        h.size, h.maxSize, h.reserved, ?_, ?_, h.sizeLe, h.prefixLe⟩
      · simp only [u16, List.length_append, List.length_replicate, flineSize]; omega
      · simp only [u16]; omega
    · simp only [List.length_append, List.length_replicate]; omega

/-- An insertion at a position of the text, within the line's limit, splices it in. -/
theorem insert (h : Edits ed r t) {q : Nat} {s : List UInt8} (hq : q ≤ t.length)
    (hs : t.length + s.length ≤ lineMaxLength) :
    ∃ d, (streditInsert ed q s).1 = true ∧
      Edits (streditInsert ed q s).2 { r with data := d } (t.take q ++ s ++ t.drop q) ∧
      (streditInsert ed q s).2.prefixLen = ed.prefixLen := by
  have hsz := h.size
  have hcond : ¬ ((q : Int) < 0 ∨ (q : Int) > ed.size ∨ ed.size + s.length > ed.maxSize) := by
    rw [h.maxSize]; omega
  obtain ⟨d, he, hroom, hp⟩ := h.streditAlloc (n := ed.size + s.length) (by omega)
  obtain ⟨rest, hd⟩ : Holds 0 d t := he.holds
  have hrest : s.length ≤ rest.length := by
    have := congrArg List.length hd
    simp only [List.length_append, List.length_cons] at this; omega
  -- the block after the move and the copy
  have hsplice : memcpy (memmove d (q + s.length) q (ed.size - q + 1)) q s =
      t.take q ++ s ++ t.drop q ++ 0 :: rest.drop s.length := by
    have hlt : (t.take q).length = q := List.length_take_of_le hq
    have := splice_in (t.take q) (t.drop q) s 0 rest hrest
    rw [List.take_append_drop, hlt, List.length_drop] at this
    rw [hd, hsz, this]
  have hlen : (t.take q ++ s ++ t.drop q).length = t.length + s.length := by
    simp only [List.length_append, List.length_take, List.length_drop]; omega
  refine ⟨t.take q ++ s ++ t.drop q ++ 0 :: rest.drop s.length, ?_, ?_, ?_⟩
  · unfold streditInsert; rw [if_neg hcond]
  · unfold streditInsert; rw [if_neg hcond]
    refine ⟨?_, ⟨_, rfl⟩, ?_, he.maxSize, he.reserved, ?_, he.allocLe, ?_, ?_⟩
    · simp [he.raw, hsplice]
    · simp only [hlen, u16, hsz]; simp only [lineMaxLength] at hs; omega
    · have ha : (Terminal.streditAlloc ed (ed.size + s.length)).allocSize = flineSize + d.length := he.alloc
      have hdl := congrArg List.length hd
      rw [List.length_append, hlen]
      simp only [List.length_append, List.length_cons, List.length_drop] at hdl ⊢; omega
    · rw [hlen]; exact hs
    · have := he.prefixLe
      have := he.size
      simp only [u16]; simp only [lineMaxLength] at hs; omega
  · unfold streditInsert; rw [if_neg hcond]; exact hp

/-- A deletion removes the part of `[p, p + n)` that lies in the text past the prefix. -/
theorem delete (h : Edits ed r t) (p n : Int) :
    ∃ d a k, Edits (streditDelete ed p n).2 { r with data := d } (t.take a ++ t.drop (a + k)) ∧
      (streditDelete ed p n).1 = k ∧ (streditDelete ed p n).2.prefixLen = ed.prefixLen ∧
      ed.prefixLen ≤ a ∧ a + k ≤ t.length ∧ (0 < k → (a : Int) = max p ed.prefixLen) ∧
      (k : Int) = max 0 (min (n - max 0 (ed.prefixLen - p)) (t.length - max p ed.prefixLen)) := by
  have hsz := h.size
  have hpl := h.prefixLe
  have hun : (if p < ed.prefixLen then ed.prefixLen - p else 0 : Int) = max 0 (ed.prefixLen - p) := by split <;> omega
  have hmax : p + max 0 ((ed.prefixLen : Int) - p) = max p ed.prefixLen := by omega
  simp only [streditDelete, hun]
  simp only [hmax]
  split
  · rename_i hneg
    refine ⟨r.data, ed.prefixLen, 0, ?_, rfl, rfl, Nat.le_refl _, by omega, by omega, by omega⟩
    simpa using h
  · rename_i hnn
    obtain ⟨rest, hd⟩ := h.holds
    obtain ⟨a, ha⟩ : ∃ a : Nat, (a : Int) = max p ed.prefixLen := ⟨(max p ed.prefixLen).toNat, by omega⟩
    have hafter : ed.prefixLen ≤ a := by
      have hle := Int.le_max_right p (ed.prefixLen : Int)
      omega
    simp only [← ha] at hnn ⊢
    clear hun hmax ha
    generalize max 0 ((ed.prefixLen : Int) - p) = u at *
    obtain ⟨j, hj⟩ : ∃ j : Nat, (j : Int) = min (n - u) (ed.size - a) := ⟨(min (n - u) (ed.size - a)).toNat, by omega⟩
    have hcount : (j : Int) = max 0 (min (n - u) (t.length - a)) := by rw [← hsz, ← hj, Int.max_eq_right (Int.natCast_nonneg j)]
    have hajt : a + j ≤ t.length := by
      have hle := Int.min_le_right (n - u) ((ed.size : Int) - a)
      omega
    simp only [← hj]
    clear hnn hj
    have hat : (t.take a).length = a := List.length_take_of_le (by omega)
    have hsplit : t = t.take a ++ (t.drop a).take j ++ t.drop (a + j) := by
      rw [List.append_assoc, ← List.drop_drop, List.take_append_drop, List.take_append_drop]
    have hjlen : ((t.drop a).take j).length = j := by
      rw [List.length_take_of_le]
      rw [List.length_drop]
      omega
    -- the block after the move
    have hmove := splice_out (t.take a) ((t.drop a).take j) (t.drop (a + j)) 0 rest
    rw [← hsplit, ← hd, hat, hjlen, List.length_drop] at hmove
    have e3 : ((ed.size : Int) - j - a + 1).toNat = t.length - (a + j) + 1 := by
      clear * - hsz hajt
      omega
    have e4 : ((a : Int) + j).toNat = a + j := Int.toNat_natCast (a + j)
    have hleft : (t.take a ++ t.drop (a + j)).length = t.length - j := by
      rw [List.length_append, List.length_drop, hat]
      clear * - hajt
      omega
    refine ⟨memmove r.data a (a + j) (t.length - (a + j) + 1), a, j, ⟨?_, ⟨_, hmove⟩, ?_, h.maxSize, h.reserved, ?_, h.allocLe, ?_, ?_⟩, rfl, trivial, hafter,
      hajt, fun _ => rfl, hcount⟩
    · simp [h.raw, e3, e4]
    · rw [hleft]
      exact congrArg (· - j) hsz
    · have hl := congrArg List.length hd
      have halloc := h.alloc
      rw [hmove]
      simp only [List.length_append, List.length_cons, List.length_drop, hat, hjlen] at hl ⊢
      clear * - hl halloc hajt
      omega
    · rw [hleft]
      exact Nat.le_trans (Nat.sub_le _ _) h.sizeLe
    · clear * - hafter hajt hsz
      simp only [Int.toNat_natCast]
      omega

/-- `stredit_set_prefix` at a position of the text. -/
theorem setPrefix (h : Edits ed r t) {q : Nat} (hq : q ≤ t.length) :
    Edits (streditSetPrefix ed q) r t ∧ (streditSetPrefix ed q).prefixLen = q := by
  have hsz := h.size
  have hq' : (min (max 0 (q : Int)) (ed.size : Int)).toNat = q := by omega
  refine ⟨⟨h.raw, h.holds, h.size, h.maxSize, h.reserved, h.alloc, h.allocLe, h.sizeLe, ?_⟩, hq'⟩
  show (streditSetPrefix ed q).prefixLen ≤ ed.size
  simp only [streditSetPrefix, hq']; omega

theorem freeze (h : Edits ed r t) :
    ∃ d, (streditFreezeAndReset ed).1 = some { r with data := d } ∧ Holds 0 d t := by
  obtain ⟨rest, hd⟩ := h.holds
  unfold streditFreezeAndReset
  simp only
  split
  · refine ⟨t ++ [0], ?_, [], rfl⟩
    have : ed.reserved + ed.size + 1 - ed.reserved = (t ++ [(0 : UInt8)]).length := by simp [h.size]; omega
    rw [h.raw, Option.map_some, this, hd, show t ++ 0 :: rest = (t ++ [0]) ++ rest by simp, List.take_left]
  · exact ⟨r.data, h.raw, h.holds⟩

end Edits

end PythonUltra.Terminal
