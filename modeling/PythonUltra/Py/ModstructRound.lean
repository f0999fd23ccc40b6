/-
  PythonUltra.Py.ModstructRound — what is packed is unpacked.

  Over integers and bytes, pack leaves calcsize bytes, unpack gives the arguments back, each
  integer wrapped to its field and each row of bytes cut or filled to its count, and
  pack_into leaves the same bytes in the buffer up to the last value (`struct_round`). What
  follows the last value, and the bytes between aligned fields, pack_into does not write
  (`struct_round_fails`).
-/

import PythonUltra.Py.ModstructSafe

namespace PythonUltra.Py.Modstruct

open PythonUltra.Lib PythonUltra.Lib.Slots PythonUltra.Lib.Struct PythonUltra.Py.Mpz PythonUltra.Py.Smallint PythonUltra.Py.Binary

variable {abi : Abi} {host : Host abi} {o : Char} {text : List Char} {cs : List Cell} {base r : Nat} {args : List (Arg abi)} {arg : Arg abi}

/-- A format over the integer codes, x and s; `=` has no integers. -/
def IntFormat (text : List Char) : Prop :=
  ∀ it ∈ itemsOf text, it.code = 'x' ∨ it.code = 's' ∨ it.code ∈ intCodes ∧ orderOf text ≠ '='

def layout (abi : Abi) (text : List Char) : List Cell :=
  match cellsOf abi (orderOf text) (itemsOf text) with
  | .ok cs => cs
  | .error _ => []

/-- The integer that an argument is. -/
def intOf : Arg abi → Int
  | .small v => v
  | .int z => z.value
  | .bool b => if b then 1 else 0
  | _ => 0

def bytesOf : Arg abi → List UInt8
  | .buffer data => data
  | _ => []

/-- The argument is of the cell's kind. -/
def Cell.Takes : Cell → Arg abi → Prop
  | .pad _, _ => False
  | .chars _, arg => ∃ data, arg = .buffer data
  | .field _ _ _, arg => ∃ x, arg.IsInt x

/-- The argument, in the width of the cell. -/
def Cell.returned : Cell → Arg abi → Val
  | .field code size _, arg => .int (wrap (isSigned code) size (intOf arg))
  | c, arg => .bytes ((bytesOf arg).take c.width ++ List.replicate (c.width - (bytesOf arg).length) 0)

/-- Where the cells lie, up to the last value. -/
def written : List Cell → Nat → List (Nat × Nat)
  | [], _ => []
  | c :: cs, r => if valueCount (c :: cs) = 0 then [] else (c.start r, c.width) :: written cs (c.stop r)

/-! ## The format -/

theorem orderOf_mem (text : List Char) : orderOf text = '<' ∨ orderOf text = '>' ∨ orderOf text = '@' ∨ orderOf text = '=' := by
  unfold orderOf getFmtType
  split <;> simp

theorem getSize_int {c : Char} (hc : c ∈ intCodes) (ho : o = '<' ∨ o = '>' ∨ o = '@') : ∃ p, getSize abi o c = .ok p := by
  simp only [intCodes, List.mem_cons, List.not_mem_nil, or_false] at hc
  rcases ho with rfl | rfl | rfl <;> rcases hc with rfl | rfl | rfl | rfl | rfl | rfl | rfl | rfl | rfl | rfl | rfl <;> exact ⟨_, rfl⟩

theorem cells_int {it : Item} (h : it.code = 'x' ∨ it.code = 's' ∨ it.code ∈ intCodes ∧ orderOf text ≠ '=') :
    ∃ cs, it.cells abi (orderOf text) = .ok cs := by
  unfold Item.cells
  split
  · exact ⟨_, rfl⟩
  · rename_i hx
    split
    · exact ⟨_, rfl⟩
    · rename_i hs
      rcases h with h | h | ⟨hc, ho⟩
      · exact absurd h hx
      · exact absurd h hs
      · have horder : orderOf text = '<' ∨ orderOf text = '>' ∨ orderOf text = '@' := by
          rcases orderOf_mem text with h | h | h | h
          · exact .inl h
          · exact .inr (.inl h)
          · exact .inr (.inr h)
          · exact absurd h ho
        obtain ⟨p, hp⟩ := @getSize_int abi _ _ hc horder
        rw [hp]
        exact ⟨_, rfl⟩

theorem cellsOf_int {fmt : List Item} (h : ∀ it ∈ fmt, it.code = 'x' ∨ it.code = 's' ∨ it.code ∈ intCodes ∧ orderOf text ≠ '=') :
    ∃ cs, cellsOf abi (orderOf text) fmt = .ok cs := by
  induction fmt with
  | nil => exact ⟨[], rfl⟩
  | cons it fmt ih =>
    obtain ⟨c, hc⟩ := @cells_int abi _ _ (h it List.mem_cons_self)
    obtain ⟨ds, hd⟩ := ih fun it hit => h it (List.mem_cons_of_mem _ hit)
    rw [cellsOf, hc, hd]
    exact ⟨_, rfl⟩

theorem layout_eq (h : IntFormat text) : cellsOf abi (orderOf text) (itemsOf text) = .ok (layout abi text) := by
  obtain ⟨cs, hcs⟩ := @cellsOf_int abi _ _ h
  rw [layout, hcs]

theorem extent_replicate {code : Char} {size align : Nat} (hs : getSize abi o code = .ok (size, align)) (n r : Nat) :
    r + n ≤ extent (List.replicate n (.field code size align)) r := by
  induction n generalizing r with
  | zero => exact Nat.le_refl r
  | succ n ih =>
    obtain ⟨hpos, -, k, -, rfl⟩ := getSize_ok hs
    have hle := le_up r (Nat.two_pow_pos k)
    have hrest := ih (up r (2 ^ k) + size)
    exact Nat.le_trans (by omega) hrest

theorem times_le {it : Item} (h : it.cells abi o = .ok cs) (r : Nat) : r + it.times ≤ extent cs r := by
  unfold Item.cells at h
  split at h
  · cases h
    exact Nat.le_refl _
  · split at h
    · cases h
      exact Nat.le_refl _
    · cases hg : getSize abi o it.code with
      | error e =>
        rw [hg] at h
        cases h
      | ok p =>
        rw [hg] at h
        cases h
        exact extent_replicate hg _ _

/-- No count is more than the size. -/
theorem times_le_extent {fmt : List Item} (h : cellsOf abi o fmt = .ok cs) (r : Nat) : ∀ it ∈ fmt, r + it.times ≤ extent cs r := by
  induction fmt generalizing cs r with
  | nil => exact fun it hit => absurd hit List.not_mem_nil
  | cons it fmt ih =>
    obtain ⟨c, ds, hc, hd, rfl⟩ := cellsOf_cons h
    have hle := times_le hc r
    have hrest := le_extent (cellsOf_ok hd) (extent c r)
    intro it' hit
    rw [extent_append]
    rcases List.mem_cons.mp hit with rfl | hit
    · omega
    · have htail := ih hd (extent c r) it' hit
      omega

theorem small_of_extent {fmt : List Item} (h : cellsOf abi o fmt = .ok cs) (hsize : extent cs 0 < 2 ^ 30) : SmallCounts abi fmt := by
  intro it hit
  have hle := times_le_extent h 0 it hit
  have hw : 30 ≤ abi.wordBits - 2 := by
    have h1 := abi.wordBits_eq
    rcases abi.wordBytes_eq with h2 | h2 <;> omega
  have hpow : (2 : Int) ^ 30 ≤ 2 ^ (abi.wordBits - 2) := pow_le_pow_right₀ (by norm_num) hw
  rw [smallMax]
  omega

/-- Every field of the cell holds an integer. -/
def Cell.IsInt : Cell → Prop
  | .field code _ _ => code ∈ intCodes
  | _ => True

theorem cells_isInt {it : Item} (h : it.cells abi o = .ok cs) (hcode : it.code = 'x' ∨ it.code = 's' ∨ it.code ∈ intCodes) : ∀ c ∈ cs, c.IsInt := by
  unfold Item.cells at h
  split at h
  · cases h
    intro c hc
    rw [List.mem_singleton.mp hc]
    trivial
  · rename_i hx
    split at h
    · cases h
      intro c hc
      rw [List.mem_singleton.mp hc]
      trivial
    · rename_i hs
      cases hg : getSize abi o it.code with
      | error e =>
        rw [hg] at h
        cases h
      | ok p =>
        rw [hg] at h
        cases h
        intro c hc
        rw [List.eq_of_mem_replicate hc]
        rcases hcode with hc | hc | hc
        · exact absurd hc hx
        · exact absurd hc hs
        · exact hc

theorem cellsOf_isInt {fmt : List Item} (h : cellsOf abi o fmt = .ok cs) (hcode : ∀ it ∈ fmt, it.code = 'x' ∨ it.code = 's' ∨ it.code ∈ intCodes) :
    ∀ c ∈ cs, c.IsInt := by
  induction fmt generalizing cs with
  | nil =>
    cases h
    exact fun c hc => absurd hc List.not_mem_nil
  | cons it fmt ih =>
    obtain ⟨c, ds, hc, hd, rfl⟩ := cellsOf_cons h
    intro x hx
    rcases List.mem_append.mp hx with hx | hx
    · exact cells_isInt hc (hcode it List.mem_cons_self) x hx
    · exact ih hd (fun it hit => hcode it (List.mem_cons_of_mem _ hit)) x hx

/-! ## Values -/

/-- The bytes a cell leaves of an argument of its kind. -/
def Cell.bytes (abi : Abi) (o : Char) (arg : Arg abi) : Cell → List UInt8
  | .pad n => List.replicate n 0
  | .chars n => (bytesOf arg).take n ++ List.replicate (n - (bytesOf arg).length) 0
  | .field _ size _ => ordered (isBig abi o) (intBytes size (intOf arg))

theorem isInt_intOf {x : Int} (h : arg.IsInt x) : intOf arg = x := by
  cases arg with
  | small v => exact h.2
  | int z => exact h.value
  | bool b => exact h
  | buffer _ => exact absurd h id
  | other _ => exact absurd h id

theorem packed_takes (host : Host abi) {c : Cell} (hok : c.Ok abi o) (hint : c.IsInt) (h : c.Takes arg) : c.packed host o arg = .ok (c.bytes abi o arg) := by
  cases c with
  | pad n => exact absurd h id
  | chars n =>
    obtain ⟨data, rfl⟩ := h
    rfl
  | field code size align =>
    obtain ⟨x, hx⟩ := h
    have hbytes : valBytes host (isBig abi o) code size arg = .ok (ordered (isBig abi o) (intBytes size x)) :=
      valBytes_int hint (getSize_ok hok.1).2.1 hx
    rw [← isInt_intOf hx] at hbytes
    exact hbytes

/-- What is read from those bytes. -/
theorem read_takes {c : Cell} {buf : List UInt8} {start : Nat} (hok : c.Ok abi o) (hint : c.IsInt) (h : c.Takes arg)
    (hbuf : slice buf start c.width = c.bytes abi o arg) : c.read abi o buf start = [c.returned arg] := by
  cases c with
  | pad n => exact absurd h id
  | chars n => exact congrArg (fun data => [Val.bytes data]) hbuf
  | field code size align =>
    obtain ⟨hpos, h8, -⟩ := getSize_ok hok.1
    obtain ⟨hO, -, he, hf, hd, -, -⟩ := intCodes_other hint
    have hval : fieldVal abi o code (ordered (isBig abi o) (intBytes size (intOf arg))) = .int (wrap (isSigned code) size (intOf arg)) := by
      simp only [fieldVal, if_neg hO, if_neg (show ¬ (code = 'e' ∨ code = 'f' ∨ code = 'd') by simp [he, hf, hd])]
      exact intVal_getInt hpos h8 _
    change slice buf start size = ordered (isBig abi o) (intBytes size (intOf arg)) at hbuf
    rw [Cell.read, hbuf, hval]
    rfl

theorem isValue_false {c : Cell} (h : c.isValue = false) : ∃ n, c = .pad n := by
  cases c with
  | pad n => exact ⟨n, rfl⟩
  | chars n => cases h
  | field code size align => cases h

theorem readCells_none (h : cs.filter Cell.isValue = []) {buf : List UInt8} : readCells abi o buf base cs r = [] :=
  List.eq_nil_of_length_eq_zero (by rw [length_readCells, valueCount, List.countP_eq_length_filter, h]; rfl)

/-- Arguments of the cells' kinds are all packed, in the cells up to the last value. -/
theorem packCells_takes (host : Host abi) (r : Nat) (hok : ∀ c ∈ cs, c.Ok abi o) (hint : ∀ c ∈ cs, c.IsInt) (h : List.Forall₂ Cell.Takes (cs.filter Cell.isValue) args) :
    (packCells host o cs r args).2 = none ∧ (packCells host o cs r args).1.map (fun s => (s.off, s.data.length)) = written cs r := by
  induction cs generalizing r args with
  | nil => exact ⟨rfl, rfl⟩
  | cons c cs ih =>
    have hok' := fun c hc => hok c (List.mem_cons_of_mem _ hc)
    have hint' := fun c hc => hint c (List.mem_cons_of_mem _ hc)
    have hcount : valueCount (c :: cs) = args.length := by rw [valueCount, List.countP_eq_length_filter, h.length_eq]
    cases args with
    | nil =>
      refine ⟨rfl, ?_⟩
      rw [written, if_pos (show valueCount (c :: cs) = 0 from hcount)]
      rfl
    | cons arg args =>
      rw [written, if_neg (by rw [hcount]; simp)]
      cases hv : c.isValue with
      | false =>
        rw [List.filter_cons_of_neg (by rw [hv]; decide)] at h
        obtain ⟨n, rfl⟩ := isValue_false hv
        obtain ⟨h1, h2⟩ := ih (r := r + n) hok' hint' h
        have hp : (Cell.pad n).packed host o arg = .ok (List.replicate n 0) := rfl
        have hstop : (Cell.pad n).stop r = r + n := rfl
        rw [packCells, hp]
        simp only [hv, hstop, Bool.false_eq_true, if_false, List.map_cons, h1, h2, List.length_replicate, Cell.width]
        exact ⟨trivial, trivial⟩
      | true =>
        rw [List.filter_cons_of_pos hv] at h
        obtain ⟨hc, hcs⟩ := List.forall₂_cons.mp h
        have hp := packed_takes host (hok c List.mem_cons_self) (hint c List.mem_cons_self) hc
        have hl := length_packed (hok c List.mem_cons_self) hp
        obtain ⟨h1, h2⟩ := ih (r := c.stop r) hok' hint' hcs
        rw [packCells, hp]
        simp only [hv, if_true, List.map_cons, h1, h2, hl]
        exact ⟨trivial, trivial⟩

/-- Bytes that hold the slots of a pack give its arguments back. -/
theorem readCells_takes (host : Host abi) {buf : List UInt8} (hok : ∀ c ∈ cs, c.Ok abi o) (hint : ∀ c ∈ cs, c.IsInt)
    (h : List.Forall₂ Cell.Takes (cs.filter Cell.isValue) args)
    (hbuf : ∀ s ∈ (packCells host o cs r args).1, slice buf (base + s.off) s.data.length = s.data) :
    readCells abi o buf base cs r = List.zipWith Cell.returned (cs.filter Cell.isValue) args := by
  induction cs generalizing r args with
  | nil => rfl
  | cons c cs ih =>
    have hok' := fun c hc => hok c (List.mem_cons_of_mem _ hc)
    have hint' := fun c hc => hint c (List.mem_cons_of_mem _ hc)
    cases args with
    | nil =>
      have hnone : (c :: cs).filter Cell.isValue = [] := List.forall₂_nil_right_iff.mp h
      rw [readCells_none hnone, hnone]
      rfl
    | cons arg args =>
      cases hv : c.isValue with
      | false =>
        rw [List.filter_cons_of_neg (by rw [hv]; decide)] at h ⊢
        obtain ⟨n, rfl⟩ := isValue_false hv
        exact ih hok' hint' h fun s hs => hbuf s (List.mem_cons_of_mem _ hs)
      | true =>
        rw [List.filter_cons_of_pos hv] at h ⊢
        obtain ⟨hc, hcs⟩ := List.forall₂_cons.mp h
        have hp := packed_takes host (hok c List.mem_cons_self) (hint c List.mem_cons_self) hc
        have hl := length_packed (hok c List.mem_cons_self) hp
        have hslots : (packCells host o (c :: cs) r (arg :: args)).1 = ⟨c.start r, c.bytes abi o arg⟩ :: (packCells host o cs (c.stop r) args).1 := by
          rw [packCells, hp]
          simp [hv]
        rw [hslots] at hbuf
        have hread := hbuf _ List.mem_cons_self
        simp only [hl] at hread
        rw [readCells, read_takes (hok c List.mem_cons_self) (hint c List.mem_cons_self) hc hread,
          ih hok' hint' hcs fun s hs => hbuf s (List.mem_cons_of_mem _ hs)]
        rfl

/-! ## The round trip -/

/-- An offset that lies in the buffer, from its start or, negative, from its end. -/
theorem offsetOf_valid {len off : Nat} {x : Int} (hlen : len < 2 ^ (abi.wordBits - 1)) (hx : arg.IsInt x)
    (hoff : (off : Int) = if x < 0 then len + x else x) (hle : off ≤ len) : offsetOf abi len arg = .ok off := by
  have hcast : ((2 ^ (abi.wordBits - 1) : Nat) : Int) = 2 ^ (abi.wordBits - 1) := Nat.cast_pow 2 _
  obtain ⟨h1, -⟩ := word_halves abi
  have hget : objGetInt arg = .ok x := by
    cases arg with
    | small v => exact congrArg Except.ok hx.2
    | bool b => exact congrArg Except.ok hx
    | int z =>
      have habs : z.value.natAbs < 2 ^ (abi.wordBits - 1) := by
        rw [hx.value]
        split at hoff <;> omega
      rw [objGetInt, if_pos habs, hx.value]
    | buffer _ => exact absurd hx id
    | other _ => exact absurd hx id
  have hin : offsetIn abi len x = .ok off := by
    unfold offsetIn
    by_cases hneg : x < 0
    · rw [if_pos hneg] at hoff
      have hsword : abi.sword (len + x) = len + x := by
        rw [← hoff]
        exact bmod_lower (by omega)
      rw [if_pos hneg, hsword, if_neg (by omega), ← hoff]
      rfl
    · rw [if_neg hneg] at hoff
      rw [if_neg hneg, ← hoff]
      rfl
  rw [offsetOf, hget]
  exact hin

/-- A record that arguments of its cells' kinds fill. -/
structure Filled (abi : Abi) (o : Char) (cs : List Cell) (args : List (Arg abi)) : Prop where
  ok : ∀ c ∈ cs, c.Ok abi o
  int : ∀ c ∈ cs, c.IsInt
  takes : List.Forall₂ Cell.Takes (cs.filter Cell.isValue) args

variable (host) in
theorem Filled.length_record (h : Filled abi o cs args) : (record host o cs args (extent cs 0)).length = extent cs 0 := by
  have hzeros : (List.replicate (extent cs 0) (0 : UInt8)).length = extent cs 0 := List.length_replicate
  rw [record, length_fill (packCells_stacked h.ok) (Nat.le_of_eq hzeros.symm), hzeros]

variable (host) in
theorem Filled.slice_record (h : Filled abi o cs args) {s : Slot UInt8} (hs : s ∈ (packCells host o cs 0 args).1) :
    slice (record host o cs args (extent cs 0)) s.off s.data.length = s.data :=
  slice_fill (packCells_stacked h.ok) (by rw [List.length_replicate]) hs

variable (host) in
theorem Filled.read_record (h : Filled abi o cs args) :
    readCells abi o (record host o cs args (extent cs 0)) 0 cs 0 = List.zipWith Cell.returned (cs.filter Cell.isValue) args := by
  refine readCells_takes host h.ok h.int h.takes fun s hs => ?_
  rw [Nat.zero_add]
  exact h.slice_record host hs

variable (host) in
/-- In a buffer, the record changes nothing outside, and up to the last value it is the same. -/
theorem Filled.into (h : Filled abi o cs args) {data : List UInt8} {off : Nat} (hroom : off + extent cs 0 ≤ data.length) :
    ∃ out, packRun host o off cs 0 args data = (.ok (), out) ∧ out.length = data.length ∧
      (∀ i, i < off ∨ off + extent cs 0 ≤ i → out[i]? = data[i]?) ∧
      ∀ s ∈ written cs 0, slice out (off + s.1) s.2 = slice (record host o cs args (extent cs 0)) s.1 s.2 := by
  obtain ⟨hnone, hwritten⟩ := packCells_takes host 0 h.ok h.int h.takes
  have hstacked : Stacked 0 (packCells host o cs 0 args).1 (extent cs 0) := packCells_stacked h.ok
  have hshift := stacked_shift off hstacked
  refine ⟨fill data ((packCells host o cs 0 args).1.map (Slot.shift off)), ?_, ?_, ?_, ?_⟩
  · rw [packRun, hnone]
    rfl
  · exact length_fill hshift hroom
  · intro i hi
    refine fill_outside hshift hroom fun s hs hcover => ?_
    obtain ⟨hlo, hhi⟩ := hshift.mem hs
    obtain ⟨hge, hlt⟩ := hcover
    omega
  · intro s hs
    rw [← hwritten] at hs
    obtain ⟨t, ht, rfl⟩ := List.mem_map.mp hs
    exact (slice_fill hshift hroom (List.mem_map_of_mem ht)).trans (h.slice_record host ht).symm

theorem tuple_word {n : Nat} (h : n ≤ funArgsMax) : 2 * abi.wordBytes + abi.wordBytes * n < 2 ^ abi.wordBits := by
  have hmax : funArgsMax = 65535 := rfl
  have hw := abi.wordBits_eq
  rcases abi.wordBytes_eq with hb | hb <;> rw [hw, hb] <;> omega

/-- pack gives calcsize bytes, unpack the arguments in the width of their fields, and
pack_into the same bytes up to the last value, at any place in a buffer. -/
theorem struct_round (host : Host abi) (text : List Char) (args : List (Arg abi)) (hcode : IntFormat text) (hsize : extent (layout abi text) 0 < 2 ^ 30)
    (hargs : List.Forall₂ Cell.Takes ((layout abi text).filter Cell.isValue) args) (hcount : args.length + 3 ≤ funArgsMax)
    (hmem : ∀ n, host.allocates n = true) :
    ∃ bytes, structPack host text args = .ok bytes ∧ structCalcsize abi text = .ok (bytes.length : Int) ∧
      (∀ address, address + bytes.length < 2 ^ abi.wordBits →
        structUnpackFrom host text ⟨address, bytes⟩ [] = .ok (List.zipWith Cell.returned ((layout abi text).filter Cell.isValue) args)) ∧
      ∀ (buf : Buffer) (offset : Arg abi) (x : Int) (off : Nat), buf.data.length < 2 ^ (abi.wordBits - 1) →
        buf.address + buf.data.length < 2 ^ abi.wordBits → offset.IsInt x → (off : Int) = (if x < 0 then buf.data.length + x else x) →
        off + bytes.length ≤ buf.data.length →
        ∃ data, structPackInto host text buf.address offset args buf.data = (.ok (), data) ∧ data.length = buf.data.length ∧
          (∀ i, i < off ∨ off + bytes.length ≤ i → data[i]? = buf.data[i]?) ∧
          ∀ s ∈ written (layout abi text) 0, slice data (off + s.1) s.2 = slice bytes s.1 s.2 := by
  have hcells : cellsOf abi (orderOf text) (itemsOf text) = .ok (layout abi text) := layout_eq hcode
  have hfilled : Filled abi (orderOf text) (layout abi text) args :=
    ⟨cellsOf_ok hcells, cellsOf_isInt hcells fun it hit => (hcode it hit).imp_right (Or.imp_right And.left), hargs⟩
  have hsmall := small_of_extent hcells hsize
  have hlen := hfilled.length_record host
  obtain ⟨h1, h2⟩ := word_halves abi
  have hquarter : 2 ^ 30 ≤ 2 ^ (abi.wordBits - 2) := by
    have hw := abi.wordBits_eq
    exact Nat.pow_le_pow_right (by decide) (by rcases abi.wordBytes_eq with h | h <;> omega)
  have hfits : extent (layout abi text) 0 < 2 ^ (abi.wordBits - 2) := by omega
  obtain ⟨hcalcsize, hpackSize⟩ := size_small hfits
  refine ⟨record host (orderOf text) (layout abi text) args (extent (layout abi text) 0), ?_, ?_, ?_, ?_⟩
  · obtain ⟨hnone, -⟩ := packCells_takes host 0 hfilled.ok hfilled.int hargs
    rw [structPack_cells hsmall hcells (by omega) (by omega), if_pos (hmem _), hnone, packSize, hpackSize]
  · rw [structCalcsize, calc_cells hsmall hcells (by omega), hlen]
    exact congrArg Except.ok hcalcsize
  · intro address hfit
    have hvalues : valueCount (layout abi text) = args.length := by rw [valueCount, List.countP_eq_length_filter, hargs.length_eq]
    have hvals : 2 * abi.wordBytes + abi.wordBytes * valueCount (layout abi text) < 2 ^ abi.wordBits := tuple_word (by omega)
    have hS : ∀ it ∈ itemsOf text, it.code ≠ 'S' := by
      intro it hit
      rcases hcode it hit with h | h | ⟨h, -⟩
      · rw [h]
        decide
      · rw [h]
        decide
      · exact (intCodes_other h).2.1
    have hnoArgs : ([] : List (Arg abi)).length ≤ 1 := Nat.zero_le 1
    have hend : address + 0 + extent (layout abi text) 0 < 2 ^ abi.wordBits := by rwa [hlen] at hfit
    rcases structUnpackFrom_cells host ⟨address, record host (orderOf text) (layout abi text) args (extent (layout abi text) 0)⟩ hsmall hcells hS hnoArgs
      rfl hvals hfit hend with ⟨-, m, hm⟩ | ⟨hshort, -⟩ | ⟨-, hrun⟩
    · rw [hmem m] at hm
      cases hm
    · rw [hlen, Nat.zero_add] at hshort
      exact absurd hshort (Nat.lt_irrefl _)
    · rw [hrun]
      exact congrArg Except.ok (hfilled.read_record host)
  · intro buf offset x off hbound hbuf hx hoff hroom
    rw [hlen] at hroom ⊢
    rw [structPackInto_cells hsmall hcells hcount (offsetOf_valid hbound hx hoff (by omega)) hfits hbuf (by omega), if_pos hroom]
    exact hfilled.into host hroom

/-- Integers have no `=`, and what follows the last value is not written by pack_into. -/
theorem struct_round_fails :
    structPack host32 "=I".toList [.small 1] = .error (.raise (.valueError "bad typecode")) ∧
      structPack host32 "Bx".toList [.small 5] = .ok [5, 0] ∧
      structPackInto host32 "Bx".toList 4096 (.small 0) [.small 5] [9, 9, 9] = (.ok (), [5, 9, 9]) := by
  refine ⟨?_, ?_, ?_⟩ <;> decide

def hostFree : Host abi32 := { host32 with allocates _ := true }

theorem struct_round_record :
    ∃ bytes, structPack hostFree "<h3sx".toList [.small (-2), .buffer [1, 2]] = .ok bytes ∧ bytes.length = 6 ∧
      structUnpackFrom hostFree "<h3sx".toList ⟨4096, bytes⟩ [] = .ok [.int (-2), .bytes [1, 2, 0]] := by
  have hlayout : layout abi32 "<h3sx".toList = [.field 'h' 2 1, .chars 3, .pad 1] := by decide
  have hitems : itemsOf "<h3sx".toList = [⟨[], 'h'⟩, ⟨['3'], 's'⟩, ⟨[], 'x'⟩] := by decide
  obtain ⟨bytes, hpack, hcalc, hunpack, -⟩ := struct_round hostFree "<h3sx".toList [.small (-2), .buffer [1, 2]]
    (by
      intro it hit
      rw [hitems] at hit
      revert it
      decide)
    (by rw [hlayout]; decide)
    (by
      rw [hlayout]
      exact .cons ⟨-2, by decide, rfl⟩ (.cons ⟨[1, 2], rfl⟩ .nil))
    (by decide) fun _ => rfl
  have hsize : structCalcsize abi32 "<h3sx".toList = .ok 6 := by decide
  have hlen : bytes.length = 6 := by
    rw [hsize] at hcalc
    exact (Int.ofNat.inj (Except.ok.inj hcalc)).symm
  have hread := hunpack 4096 (by rw [hlen]; decide)
  rw [hlayout] at hread
  exact ⟨bytes, hpack, hlen, hread⟩

end PythonUltra.Py.Modstruct
