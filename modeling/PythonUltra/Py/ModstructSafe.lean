/-
  PythonUltra.Py.ModstructSafe — where no size wraps, struct stays inside its buffers.

  `struct_contained`: under formats whose counts are small ints, and whose sizes and
  positions are words (`PackFits`, `PackIntoFits`, `UnpackFits`), every run returns or
  raises. calcsize converts its word to a small int, so the bound of pack is half of the
  words and that of pack_into a quarter. A size beyond its bound passes the length check
  (`struct_wraps`), and so does unpacking an address.
-/

import PythonUltra.Py.ModstructWalks

namespace PythonUltra.Py.Modstruct

open PythonUltra.Lib PythonUltra.Lib.Slots PythonUltra.Lib.Struct PythonUltra.Py.Mpz PythonUltra.Py.Smallint PythonUltra.Py.Binary

variable {abi : Abi} {host : Host abi} {text : List Char} {cs : List Cell} {args : List (Arg abi)} {buf : Buffer}

/-- A run returns or raises. -/
def Contained {α : Type} (r : Except Stop α) : Prop := ∀ s, r = .error s → ∃ e, s = .raise e

theorem contained_ok {α : Type} (a : α) : Contained (.ok a : Except Stop α) := fun _ h => nomatch h

theorem contained_raise {α : Type} (e : Exc) : Contained (.error (.raise e) : Except Stop α) := by
  intro s h
  cases h
  exact ⟨e, rfl⟩

/-! ## Sizes -/

theorem calc_cells (hsmall : SmallCounts abi (itemsOf text)) (hcells : cellsOf abi (orderOf text) (itemsOf text) = .ok cs)
    (h : extent cs 0 < 2 ^ abi.wordBits) : calcSizeItems abi text = .ok (abi.word (valueCount cs), extent cs 0) := by
  have hcalc := calcLoop_cells hsmall hcells h (Nat.two_pow_pos _)
  rwa [Nat.zero_add] at hcalc

theorem calc_bad {e : Exc} (hsmall : SmallCounts abi (itemsOf text)) (hcells : cellsOf abi (orderOf text) (itemsOf text) = .error e) :
    calcSizeItems abi text = .error (.raise e) := calcLoop_bad 0 0 hsmall hcells

theorem word_halves (abi : Abi) : 2 ^ abi.wordBits = 2 * 2 ^ (abi.wordBits - 1) ∧ 2 ^ (abi.wordBits - 1) = 2 * 2 ^ (abi.wordBits - 2) := by
  have hw : 32 ≤ abi.wordBits := by
    have h1 := abi.wordBits_eq
    rcases abi.wordBytes_eq with h2 | h2 <;> omega
  refine ⟨?_, ?_⟩ <;> rw [← Nat.pow_succ'] <;> congr 1 <;> omega

theorem size_small {n : Nat} (h : n < 2 ^ (abi.wordBits - 2)) : newSmallInt abi.toConfig n = n ∧ uword abi.toConfig (newSmallInt abi.toConfig n) = n := by
  obtain ⟨h1, h2⟩ := word_halves abi
  have hn : newSmallInt abi.toConfig n = n := by
    rw [newSmallInt_eq]
    exact bmod_lower (by omega)
  refine ⟨hn, ?_⟩
  rw [hn, uword]
  have hmod : (n : Int) % 2 ^ abi.wordBits = n := Int.emod_eq_of_lt (by omega) (by exact_mod_cast (by omega : n < 2 ^ abi.wordBits))
  rw [hmod]
  rfl

/-- As a word, calcsize is no less than a size under half of the words. -/
theorem size_half (abi : Abi) {n : Nat} (h : n < 2 ^ (abi.wordBits - 1)) :
    n ≤ uword abi.toConfig (newSmallInt abi.toConfig n) ∧ uword abi.toConfig (newSmallInt abi.toConfig n) ≤ n + 2 ^ (abi.wordBits - 1) := by
  by_cases hn : n < 2 ^ (abi.wordBits - 2)
  · have hsize := (size_small hn).2
    omega
  · obtain ⟨h1, h2⟩ := word_halves abi
    have hcast : ((2 ^ abi.wordBits : Nat) : Int) = 2 ^ abi.wordBits := Nat.cast_pow 2 _
    have hb : newSmallInt abi.toConfig n = n - (2 ^ (abi.wordBits - 1) : Nat) := by
      rw [newSmallInt_eq]
      exact bmod_upper (k := 2 ^ (abi.wordBits - 2)) h (by omega) (by omega)
    have hmod : ((n : Int) - (2 ^ (abi.wordBits - 1) : Nat)) % 2 ^ abi.wordBits = (n + 2 ^ (abi.wordBits - 1) : Nat) := by
      rw [← hcast, ← Int.add_emod_right, Int.emod_eq_of_lt (by omega) (by omega)]
      omega
    rw [hb, uword, hmod]
    omega

/-! ## pack -/

/-- The record of `size` bytes that pack makes. -/
def record (host : Host abi) (o : Char) (cs : List Cell) (args : List (Arg abi)) (size : Nat) : List UInt8 :=
  fill (List.replicate size 0) (packCells host o cs 0 args).1

theorem shift_zero (slots : List (Slot UInt8)) : slots.map (Slot.shift 0) = slots := by
  induction slots with
  | nil => rfl
  | cons s slots ih => rw [List.map_cons, ih, Slot.shift, Nat.zero_add]

/-- The size pack allocates. -/
def packSize (abi : Abi) (cs : List Cell) : Nat := uword abi.toConfig (newSmallInt abi.toConfig (extent cs 0))

variable (host args) in
/-- The walk of pack, over the bytes it has allocated. -/
theorem pack_run {o : Char} {fmt : List Item} {size : Nat} {vstr : List UInt8} (hsmall : SmallCounts abi fmt) (hcells : cellsOf abi o fmt = .ok cs)
    (hl : vstr.length = size + 1) (hsize : extent cs 0 ≤ size) (hw : size + 1 < 2 ^ abi.wordBits) :
    ∃ out, (do memzero 0 size; packLoop host o 0 fmt 0 args : Write Unit) vstr = (outcome (packCells host o cs 0 args).2, out) ∧
      out.take size = record host o cs args size := by
  have hzeros : (List.replicate size (0 : UInt8)).length = size := List.length_replicate
  have hput : put vstr 0 (List.replicate size 0) = List.replicate size 0 ++ vstr.drop size := by simp [put]
  have hput' : (put vstr 0 (List.replicate size 0)).length = vstr.length := length_put (by omega)
  have hstacked : Stacked 0 (packCells host o cs 0 args).1 (extent cs 0) := packCells_stacked (cellsOf_ok hcells)
  have hpack := packLoop_cells host args (r := 0) hsmall hcells (show 0 + extent cs 0 ≤ (put vstr 0 (List.replicate size 0)).length by omega)
    (by omega)
  refine ⟨_, (Prog.bind_of_ok (memzero_run (by omega))).trans hpack, ?_⟩
  rw [shift_zero, hput, fill_append _ hstacked (by omega)]
  exact List.take_left' (by rw [length_fill hstacked (by omega), hzeros])

/-- What `struct.pack` makes of the buffer it has filled. -/
def finished (size : Nat) : Except Stop Unit × List UInt8 → Except Stop (List UInt8)
  | (.ok (), vstr) => .ok (vstr.take size)
  | (.error e, _) => .error e

theorem structPack_cells (hsmall : SmallCounts abi (itemsOf text)) (hcells : cellsOf abi (orderOf text) (itemsOf text) = .ok cs)
    (h : extent cs 0 + 1 < 2 ^ (abi.wordBits - 1)) (hargs : args.length + 1 ≤ funArgsMax) :
    structPack host text args =
      if host.allocates (packSize abi cs + 1) then
        match (packCells host (orderOf text) cs 0 args).2 with
        | none => .ok (record host (orderOf text) cs args (packSize abi cs))
        | some e => .error (.raise e)
      else .error (.raise .memoryError) := by
  obtain ⟨h1, h2⟩ := word_halves abi
  obtain ⟨hlo, hhi⟩ := size_half abi (n := extent cs 0) (by omega)
  change extent cs 0 ≤ packSize abi cs at hlo
  change packSize abi cs ≤ _ at hhi
  have halloc : vstrAlloc abi (packSize abi cs) = packSize abi cs + 1 := by
    rw [vstrAlloc, Config.word, Nat.mod_eq_of_lt (by omega)]
    omega
  obtain ⟨out, hrun, hout⟩ := pack_run host args hsmall hcells
    (show ((List.range (packSize abi cs + 1)).map host.junk).length = packSize abi cs + 1 by simp) hlo (by omega)
  rw [structPack, if_neg (by omega), structCalcsize, calc_cells hsmall hcells (by omega)]
  change (if (!host.allocates (vstrAlloc abi (packSize abi cs))) = true then _ else _) = _
  rw [halloc]
  cases host.allocates (packSize abi cs + 1) with
  | false => rfl
  | true =>
    change finished (packSize abi cs) ((do memzero 0 (packSize abi cs); packLoop host (orderOf text) 0 (itemsOf text) 0 args : Write Unit)
      ((List.range (vstrAlloc abi (packSize abi cs))).map host.junk)) = _
    rw [halloc, hrun]
    cases (packCells host (orderOf text) cs 0 args).2 with
    | none => exact congrArg Except.ok hout
    | some e => rfl

/-- The size of a format is half of the words or less. -/
def PackFits (abi : Abi) (text : List Char) : Prop :=
  ∀ cs, cellsOf abi (orderOf text) (itemsOf text) = .ok cs → extent cs 0 + 1 < 2 ^ (abi.wordBits - 1)

theorem structPack_contained (hsmall : SmallCounts abi (itemsOf text)) (hfits : PackFits abi text) : Contained (structPack host text args) := by
  by_cases hargs : args.length + 1 > funArgsMax
  · rw [structPack, if_pos hargs]
    exact contained_raise _
  cases hcells : cellsOf abi (orderOf text) (itemsOf text) with
  | error e =>
    rw [structPack, if_neg hargs, structCalcsize, calc_bad hsmall hcells]
    exact contained_raise e
  | ok cs =>
    rw [structPack_cells hsmall hcells (hfits cs hcells) (by omega)]
    split
    · cases (packCells host (orderOf text) cs 0 args).2 with
      | none => exact contained_ok _
      | some e => exact contained_raise e
    · exact contained_raise _

/-! ## pack_into -/

/-- An offset argument, from the start of a buffer of `len` bytes. -/
def offsetOf (abi : Abi) (len : Nat) (arg : Arg abi) : Except Stop Nat := do offsetIn abi len (← raises (objGetInt arg))

theorem offsetIn_contained (len : Nat) (v : Int) : Contained (offsetIn abi len v) := by
  unfold offsetIn
  split
  · dsimp only
    split
    · exact contained_raise _
    · exact contained_ok _
  · exact contained_ok _

theorem offsetOf_contained (len : Nat) (arg : Arg abi) : Contained (offsetOf abi len arg) := by
  rw [offsetOf]
  cases objGetInt arg with
  | error e => exact contained_raise e
  | ok v => exact offsetIn_contained len v

theorem tooSmall_eq {off n : Nat} (h : buf.address + off + n < 2 ^ abi.wordBits) : tooSmall abi buf off n = decide (buf.data.length < off + n) := by
  rw [tooSmall, Config.word, Nat.mod_eq_of_lt h]
  exact decide_eq_decide.mpr (by omega)

variable (host text) in
/-- pack_into, step by step. -/
theorem structPackInto_eq (offset : Arg abi) (address : Nat) (data : List UInt8) (hargs : args.length + 3 ≤ funArgsMax) :
    structPackInto host text address offset args data =
      match offsetOf abi data.length offset with
      | .error s => (.error s, data)
      | .ok off => match structCalcsize abi text with
        | .error s => (.error s, data)
        | .ok sz =>
          if tooSmall abi ⟨address, data⟩ off (uword abi.toConfig sz) then (.error bufferTooSmall, data)
          else packLoop host (orderOf text) off (itemsOf text) off args data := by
  rw [structPackInto, if_neg (by omega)]
  change (Prog.ofExcept (offsetOf abi data.length offset) >>= _) data = _
  cases offsetOf abi data.length offset with
  | error s => rfl
  | ok off =>
    rw [Prog.ofExcept_bind]
    cases structCalcsize abi text with
    | error s => rfl
    | ok sz =>
      rw [Prog.ofExcept_bind]
      simp only
      split <;> rfl

theorem structPackInto_cells {offset : Arg abi} {address off : Nat} {data : List UInt8} (hsmall : SmallCounts abi (itemsOf text))
    (hcells : cellsOf abi (orderOf text) (itemsOf text) = .ok cs) (hargs : args.length + 3 ≤ funArgsMax)
    (hoff : offsetOf abi data.length offset = .ok off) (h : extent cs 0 < 2 ^ (abi.wordBits - 2)) (hbuf : address + data.length < 2 ^ abi.wordBits)
    (hfit : address + off + extent cs 0 < 2 ^ abi.wordBits) :
    structPackInto host text address offset args data =
      if off + extent cs 0 ≤ data.length then packRun host (orderOf text) off cs 0 args data else (.error bufferTooSmall, data) := by
  obtain ⟨h1, h2⟩ := word_halves abi
  have hsize := (size_small h).2
  have hsmallBuf : tooSmall abi ⟨address, data⟩ off (extent cs 0) = decide (data.length < off + extent cs 0) := tooSmall_eq hfit
  have hcalc : structCalcsize abi text = .ok (newSmallInt abi.toConfig (extent cs 0)) := by
    rw [structCalcsize, calc_cells hsmall hcells (by omega)]
    rfl
  rw [structPackInto_eq host text offset address data hargs, hoff, hcalc]
  simp only
  rw [hsize, hsmallBuf]
  by_cases hroom : off + extent cs 0 ≤ data.length
  · rw [if_neg (by rw [decide_eq_false (by omega)]; decide), if_pos hroom]
    exact packLoop_cells host args (r := 0) hsmall hcells hroom (by omega)
  · rw [if_pos (decide_eq_true (by omega)), if_neg hroom]

/-- The size is under a quarter of the words, and the record ends within them. -/
def PackIntoFits (abi : Abi) (text : List Char) (buf : Buffer) (offset : Arg abi) : Prop :=
  ∀ cs off, cellsOf abi (orderOf text) (itemsOf text) = .ok cs → offsetOf abi buf.data.length offset = .ok off →
    extent cs 0 < 2 ^ (abi.wordBits - 2) ∧ buf.address + off + extent cs 0 < 2 ^ abi.wordBits

theorem structPackInto_contained {offset : Arg abi} (hsmall : SmallCounts abi (itemsOf text)) (hbuf : buf.address + buf.data.length < 2 ^ abi.wordBits)
    (hfits : PackIntoFits abi text buf offset) : Contained (structPackInto host text buf.address offset args buf.data).1 := by
  by_cases hargs : args.length + 3 > funArgsMax
  · rw [structPackInto, if_pos hargs]
    exact contained_raise _
  have heq := structPackInto_eq host text offset buf.address buf.data (show args.length + 3 ≤ funArgsMax by omega)
  cases hoff : offsetOf abi buf.data.length offset with
  | error s =>
    obtain ⟨e, rfl⟩ := offsetOf_contained buf.data.length offset s hoff
    rw [heq, hoff]
    exact contained_raise e
  | ok off =>
    cases hcells : cellsOf abi (orderOf text) (itemsOf text) with
    | error e =>
      rw [heq, hoff, structCalcsize, calc_bad hsmall hcells]
      exact contained_raise e
    | ok cs =>
      obtain ⟨h1, h2⟩ := hfits cs off hcells hoff
      rw [structPackInto_cells hsmall hcells (by omega) hoff h1 hbuf h2]
      split
      · rw [packRun]
        cases (packCells host (orderOf text) cs 0 args).2 with
        | none => exact contained_ok _
        | some e => exact contained_raise e
      · exact contained_raise _

/-! ## unpack -/

/-- The offset of unpack_from, 0 where none is given. -/
def offsetArg (abi : Abi) (len : Nat) : List (Arg abi) → Except Stop Nat
  | [] => .ok 0
  | arg :: _ => offsetOf abi len arg

theorem offsetArg_contained (len : Nat) (args : List (Arg abi)) : Contained (offsetArg abi len args) := by
  cases args with
  | nil => exact contained_ok 0
  | cons arg args => exact offsetOf_contained len arg

variable (host) in
/-- A tuple of so many slots, or no memory for it. -/
theorem newTuple_run {n : Nat} (h : 2 * abi.wordBytes + abi.wordBytes * n < 2 ^ abi.wordBits) :
    newTuple host n = .ok n ∨ newTuple host n = .error (.raise .memoryError) ∧ ∃ m, host.allocates m = false := by
  have hpos : 0 < abi.wordBytes := by rcases abi.wordBytes_eq with h | h <;> omega
  have hword : abi.word (2 * abi.wordBytes + abi.wordBytes * n) = 2 * abi.wordBytes + abi.wordBytes * n := Nat.mod_eq_of_lt h
  rw [newTuple]
  simp only [hword]
  by_cases hn : n = 0
  · rw [if_pos hn, hn]
    exact .inl rfl
  · rw [if_neg hn]
    cases hall : host.allocates (2 * abi.wordBytes + abi.wordBytes * n) with
    | false => exact .inr ⟨rfl, _, hall⟩
    | true =>
      rw [if_neg (by decide), if_neg (by omega), Nat.add_sub_cancel_left, Nat.mul_div_cancel_left _ hpos]
      exact .inl rfl

theorem valueCount_word (hvals : 2 * abi.wordBytes + abi.wordBytes * valueCount cs < 2 ^ abi.wordBits) : abi.word (valueCount cs) = valueCount cs := by
  have hpos : 0 < abi.wordBytes := by rcases abi.wordBytes_eq with h | h <;> omega
  have hcount : valueCount cs ≤ abi.wordBytes * valueCount cs := Nat.le_mul_of_pos_left _ hpos
  exact Nat.mod_eq_of_lt (by omega)

/-- unpack_from, step by step. -/
theorem structUnpackFrom_eq (hsmall : SmallCounts abi (itemsOf text)) (hcells : cellsOf abi (orderOf text) (itemsOf text) = .ok cs)
    (hsize : extent cs 0 < 2 ^ abi.wordBits) (hvals : 2 * abi.wordBytes + abi.wordBytes * valueCount cs < 2 ^ abi.wordBits) (hargs : args.length ≤ 1) :
    structUnpackFrom host text buf args = (do
      let slots ← newTuple host (valueCount cs)
      let offset ← offsetArg abi buf.data.length args
      if tooSmall abi buf offset (extent cs 0) then throw bufferTooSmall
      unpackLoop host slots (valueCount cs) (orderOf text) buf offset (itemsOf text) offset []) := by
  rw [structUnpackFrom, if_neg (by omega), calc_cells hsmall hcells hsize, valueCount_word hvals]
  change (newTuple host (valueCount cs) >>= _) = _
  congr 1
  funext slots
  cases args with
  | nil => rfl
  | cons arg args =>
    simp only [offsetArg, offsetOf]
    cases objGetInt arg with
    | error e => rfl
    | ok v => cases offsetIn abi buf.data.length v <;> rfl

variable (host buf) in
/-- Unpacking runs out of memory, finds the buffer too small, or reads the values. -/
theorem structUnpackFrom_cells {off : Nat} (hsmall : SmallCounts abi (itemsOf text)) (hcells : cellsOf abi (orderOf text) (itemsOf text) = .ok cs)
    (hS : ∀ it ∈ itemsOf text, it.code ≠ 'S') (hargs : args.length ≤ 1) (hoff : offsetArg abi buf.data.length args = .ok off)
    (hvals : 2 * abi.wordBytes + abi.wordBytes * valueCount cs < 2 ^ abi.wordBits) (hbuf : buf.address + buf.data.length < 2 ^ abi.wordBits)
    (hfit : buf.address + off + extent cs 0 < 2 ^ abi.wordBits) :
    structUnpackFrom host text buf args = .error (.raise .memoryError) ∧ (∃ m, host.allocates m = false) ∨
      buf.data.length < off + extent cs 0 ∧ structUnpackFrom host text buf args = .error bufferTooSmall ∨
      off + extent cs 0 ≤ buf.data.length ∧ structUnpackFrom host text buf args = .ok (readCells abi (orderOf text) buf.data off cs 0) := by
  rw [structUnpackFrom_eq hsmall hcells (by omega) hvals hargs]
  rcases newTuple_run host hvals with htuple | ⟨htuple, hall⟩
  · rw [htuple, hoff]
    change (if tooSmall abi buf off (extent cs 0) = true then _ else _) = _ ∧ _ ∨ _ ∧ (if tooSmall abi buf off (extent cs 0) = true then _ else _) = _ ∨
      _ ∧ (if tooSmall abi buf off (extent cs 0) = true then _ else _) = _
    rw [tooSmall_eq hfit]
    by_cases hroom : off + extent cs 0 ≤ buf.data.length
    · rw [if_neg (by rw [decide_eq_false (by omega)]; decide)]
      have hnone : ([] : List Val).length + valueCount cs = valueCount cs := Nat.zero_add _
      have hloop := unpackLoop_cells host (r := 0) hsmall hcells hS hroom (by omega) hnone (Nat.le_refl _)
      rcases hloop with hloop | ⟨hloop, m, -, hall⟩
      · exact .inr (.inr ⟨hroom, hloop⟩)
      · exact .inl ⟨hloop, m, hall⟩
    · rw [if_pos (decide_eq_true (by omega))]
      exact .inr (.inl ⟨by omega, rfl⟩)
  · rw [htuple]
    exact .inl ⟨rfl, hall⟩

/-- The size is a word, and so are the bytes of the tuple and the end of the record. -/
def UnpackFits (abi : Abi) (text : List Char) (buf : Buffer) (args : List (Arg abi)) : Prop :=
  ∀ cs, cellsOf abi (orderOf text) (itemsOf text) = .ok cs →
    extent cs 0 < 2 ^ abi.wordBits ∧ 2 * abi.wordBytes + abi.wordBytes * valueCount cs < 2 ^ abi.wordBits ∧
      ∀ off, offsetArg abi buf.data.length args = .ok off → buf.address + off + extent cs 0 < 2 ^ abi.wordBits

theorem structUnpackFrom_contained (hsmall : SmallCounts abi (itemsOf text)) (hS : ∀ it ∈ itemsOf text, it.code ≠ 'S')
    (hbuf : buf.address + buf.data.length < 2 ^ abi.wordBits) (hfits : UnpackFits abi text buf args) : Contained (structUnpackFrom host text buf args) := by
  by_cases hargs : args.length > 1
  · rw [structUnpackFrom, if_pos hargs]
    exact contained_raise _
  cases hcells : cellsOf abi (orderOf text) (itemsOf text) with
  | error e =>
    rw [structUnpackFrom, if_neg hargs, calc_bad hsmall hcells]
    exact contained_raise e
  | ok cs =>
    obtain ⟨hsize, hvals, hoffs⟩ := hfits cs hcells
    cases hoff : offsetArg abi buf.data.length args with
    | error s =>
      obtain ⟨e, rfl⟩ := offsetArg_contained buf.data.length args s hoff
      rcases newTuple_run host hvals with htuple | ⟨htuple, -⟩
      · rw [structUnpackFrom_eq hsmall hcells hsize hvals (by omega), htuple, hoff]
        exact contained_raise e
      · rw [structUnpackFrom_eq hsmall hcells hsize hvals (by omega), htuple]
        exact contained_raise _
    | ok off =>
      rcases structUnpackFrom_cells host buf hsmall hcells hS (by omega) hoff hvals hbuf (hoffs off hoff) with ⟨hrun, -⟩ | ⟨-, hrun⟩ | ⟨-, hrun⟩
      · rw [hrun]
        exact contained_raise _
      · rw [hrun]
        exact contained_raise _
      · rw [hrun]
        exact contained_ok _

/-- Where no count leaves the small ints and no sum wraps, pack, pack_into and, without
addresses to follow, unpack and unpack_from return or raise. -/
theorem struct_contained (host : Host abi) (text : List Char) (args : List (Arg abi)) (buf : Buffer) (hsmall : SmallCounts abi (itemsOf text))
    (hbuf : buf.address + buf.data.length < 2 ^ abi.wordBits) :
    (PackFits abi text → Contained (structPack host text args)) ∧
      (∀ offset, PackIntoFits abi text buf offset → Contained (structPackInto host text buf.address offset args buf.data).1) ∧
      ((∀ it ∈ itemsOf text, it.code ≠ 'S') → UnpackFits abi text buf args → Contained (structUnpackFrom host text buf args)) := by
  refine ⟨fun hfits => ?_, fun offset hfits => ?_, fun hS hfits => ?_⟩
  · exact structPack_contained hsmall hfits
  · exact structPackInto_contained hsmall hbuf hfits
  · exact structUnpackFrom_contained hsmall hS hbuf hfits

/-! ## On a 32-bit machine -/

/-- A size that wraps to 1, a count that is no small int, and an address that is followed. -/
theorem struct_wraps :
    structPack host32 "1073741823x1073741823x3s".toList [.buffer [1, 2, 3]] = .error .outside ∧
      structPack host32 "1073741824x".toList [] = .error .notSmallInt ∧
      structUnpackFrom host32 "S".toList ⟨4096, [0xff, 0xff, 0xff, 0xff]⟩ [] = .error .outside := by
  refine ⟨?_, ?_, ?_⟩ <;> decide +kernel

theorem struct_contained_record :
    Contained (structPack host32 "<h3s".toList [.small 5, .buffer [1, 2]]) ∧
      Contained (structPackInto host32 "<h3s".toList 4096 (.small 1) [.small 5, .buffer [1, 2]] [0, 0, 0, 0, 0, 0]).1 := by
  have hsmall : SmallCounts abi32 (itemsOf "<h3s".toList) := by
    intro it hit
    revert it
    decide
  have hcells : cellsOf abi32 (orderOf "<h3s".toList) (itemsOf "<h3s".toList) = .ok [.field 'h' 2 1, .chars 3] := by decide
  obtain ⟨hpack, hinto, -⟩ := struct_contained host32 "<h3s".toList [.small 5, .buffer [1, 2]] ⟨4096, [0, 0, 0, 0, 0, 0]⟩ hsmall (by decide)
  refine ⟨hpack fun cs hcs => ?_, hinto (.small 1) fun cs off hcs hoff => ?_⟩
  · rw [hcells] at hcs
    cases hcs
    decide
  · rw [hcells] at hcs
    cases hcs
    cases hoff
    decide

end PythonUltra.Py.Modstruct
