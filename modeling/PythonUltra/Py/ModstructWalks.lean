/-
  PythonUltra.Py.ModstructWalks — packing and unpacking go along the cells.

  With no more than `extent` bytes to go and no more arguments than there are, packing
  leaves one slot of bytes for each cell it comes to (`packCells`) and writes them one after
  the other (`packLoop_cells`); unpacking reads one value for each cell that has one
  (`unpackLoop_cells`).
-/

import PythonUltra.Py.ModstructCells

namespace PythonUltra.Py.Modstruct

open PythonUltra.Lib PythonUltra.Lib.Slots PythonUltra.Lib.Struct PythonUltra.Py.Mpz PythonUltra.Py.Smallint PythonUltra.Py.Binary

variable {abi : Abi} {host : Host abi} {o : Char} {cs ds : List Cell} {base r : Nat} {args : List (Arg abi)} {arg : Arg abi}
  {buf data : List UInt8}

/-! ## The slots a pack leaves -/

def noBuffer : Exc := .typeError "object with buffer protocol required"

/-- The bytes of a cell, of the argument it comes to. -/
def Cell.packed (host : Host abi) (o : Char) (arg : Arg abi) : Cell → Except Exc (List UInt8)
  | .pad n => .ok (List.replicate n 0)
  | .chars n => match arg with
    | .buffer data => .ok (data.take n ++ List.replicate (n - data.length) 0)
    | _ => .error noBuffer
  | .field code size _ => valBytes host (isBig abi o) code size arg

/-- The slots of the cells that begin at `r`, up to the last argument or an exception. -/
def packCells (host : Host abi) (o : Char) : List Cell → Nat → List (Arg abi) → List (Slot UInt8) × Option Exc
  | [], _, _ => ([], none)
  | _ :: _, _, [] => ([], none)
  | c :: cs, r, arg :: args =>
    match c.packed host o arg with
    | .error e => ([], some e)
    | .ok data =>
      let rest := packCells host o cs (c.stop r) (if c.isValue then args else arg :: args)
      (⟨c.start r, data⟩ :: rest.1, rest.2)

theorem length_packed {c : Cell} (hc : c.Ok abi o) (h : c.packed host o arg = .ok data) : data.length = c.width := by
  cases c with
  | pad n =>
    cases h
    exact List.length_replicate
  | chars n =>
    cases arg with
    | buffer text =>
      cases h
      show (text.take n ++ List.replicate (n - text.length) 0).length = n
      rw [List.length_append, List.length_take, List.length_replicate]
      omega
    | _ => cases h
  | field code size align => exact length_valBytes hc.1 h

theorem packCells_stacked (hok : ∀ c ∈ cs, c.Ok abi o) : Stacked r (packCells host o cs r args).1 (extent cs r) := by
  induction cs generalizing r args with
  | nil => exact Nat.le_refl r
  | cons c cs ih =>
    have hcs := fun c hc => hok c (List.mem_cons_of_mem _ hc)
    cases args with
    | nil => exact le_extent hok r
    | cons arg args =>
      rw [packCells]
      cases hp : c.packed host o arg with
      | error e => exact le_extent hok r
      | ok data =>
        have hl := length_packed (hok c List.mem_cons_self) hp
        obtain ⟨hstop, hstart⟩ := (hok c List.mem_cons_self).le_stop r
        refine ⟨hstart, ?_⟩
        rw [Slot.stop, hl, hstop]
        exact ih hcs

/-- The slots, from `base` on. -/
def Slot.shift (base : Nat) (s : Slot UInt8) : Slot UInt8 := ⟨base + s.off, s.data⟩

theorem stacked_shift {slots : List (Slot UInt8)} {start stop : Nat} (base : Nat) (h : Stacked start slots stop) :
    Stacked (base + start) (slots.map (Slot.shift base)) (base + stop) := by
  induction slots generalizing start with
  | nil => exact Nat.add_le_add_left h base
  | cons s slots ih =>
    refine ⟨Nat.add_le_add_left h.1 base, ?_⟩
    have hrest := ih h.2
    rwa [Slot.stop, ← Nat.add_assoc] at hrest

/-! ## Packing -/

def outcome : Option Exc → Except Stop Unit
  | none => .ok ()
  | some e => .error (.raise e)

/-- A pack of cells that begin `r` bytes behind `base`: its outcome, and the buffer. -/
def packRun (host : Host abi) (o : Char) (base : Nat) (cs : List Cell) (r : Nat) (args : List (Arg abi)) (buf : List UInt8) :
    Except Stop Unit × List UInt8 :=
  (outcome (packCells host o cs r args).2, fill buf ((packCells host o cs r args).1.map (Slot.shift base)))

theorem packRun_done : packRun host o base cs r [] buf = (.ok (), buf) := by
  cases cs <;> rfl

theorem packRun_ok {c : Cell} (h : c.packed host o arg = .ok data) :
    packRun host o base (c :: cs) r (arg :: args) buf =
      packRun host o base cs (c.stop r) (if c.isValue then args else arg :: args) (put buf (base + c.start r) data) := by
  rw [packRun, packCells, h]
  rfl

theorem packRun_error {c : Cell} {e : Exc} (h : c.packed host o arg = .error e) :
    packRun host o base (c :: cs) r (arg :: args) buf = (.error (.raise e), buf) := by
  rw [packRun, packCells, h]
  rfl

/-- A field begins at its alignment from `base` on. -/
theorem aligned_eq {code : Char} {size align : Nat} (hs : getSize abi o code = .ok (size, align)) (h : base + up r align < 2 ^ abi.wordBits) :
    aligned abi o (base + r) base align = base + up r align := by
  obtain ⟨-, -, k, hk, halign⟩ := getSize_ok hs
  have hle := le_up r (halign ▸ Nat.two_pow_pos k)
  unfold aligned
  split
  · have hback : abi.word (2 ^ abi.wordBits + (base + r) - base) = r := by
      rw [Config.word, show 2 ^ abi.wordBits + (base + r) - base = r + 2 ^ abi.wordBits by omega, Nat.add_mod_right]
      exact Nat.mod_eq_of_lt (by omega)
    subst halign
    rw [hback, alignUp_eq hk (by omega)]
    exact Nat.mod_eq_of_lt h
  · rename_i ho
    -- only native fields are aligned
    have hone : align = 1 := by
      unfold getSize at hs
      split at hs
      · split at hs <;> cases hs
        rfl
      · split at hs <;> cases hs
        rfl
      · exact absurd rfl ho
      · cases hs
    rw [hone, up_one]

theorem memcpy_run {p : Nat} {bytes : List UInt8} (h : p + bytes.length ≤ buf.length) : memcpy p bytes buf = (.ok (), put buf p bytes) :=
  if_pos (.inr h)

theorem memzero_run {p n : Nat} (h : p + n ≤ buf.length) : memzero p n buf = (.ok (), put buf p (List.replicate n 0)) :=
  if_pos (.inr h)

theorem setVal_run {code : Char} {size align : Nat} (host : Host abi) (arg : Arg abi) (hs : getSize abi o code = .ok (size, align)) (h : base + up r align + size ≤ buf.length)
    (hw : buf.length < 2 ^ abi.wordBits) :
    setVal host o code arg base (base + r) buf = match valBytes host (isBig abi o) code size arg with
      | .ok data => (.ok (base + up r align + size), put buf (base + up r align) data)
      | .error e => (.error (.raise e), buf) := by
  rw [setVal, hs, raises, Prog.ofExcept_bind]
  simp only
  rw [aligned_eq hs (by omega)]
  cases hv : valBytes host (isBig abi o) code size arg with
  | error e => rfl
  | ok data =>
    have hl := length_valBytes hs hv
    rw [raises, Prog.ofExcept_bind, Prog.bind_of_ok (memcpy_run (by omega)), Config.word, Nat.mod_eq_of_lt (by omega)]
    rfl

/-- `while (cnt-- && i < n_args)`, and then a walk along the cells that follow. -/
theorem packVals_cells {code : Char} {size align : Nat} {k : Nat × List (Arg abi) → Write Unit} (n : Nat)
    (hs : getSize abi o code = .ok (size, align)) (hw : buf.length < 2 ^ abi.wordBits) (hx : code ≠ 'x') (hs' : code ≠ 's')
    (hds : ∀ d ∈ ds, d.Ok abi o) (hdone : ∀ p buf, k (p, []) buf = (.ok (), buf))
    (hk : ∀ r args buf', base + extent ds r ≤ buf'.length → buf'.length = buf.length → k (base + r, args) buf' = packRun host o base ds r args buf')
    (h : base + extent (List.replicate n (.field code size align) ++ ds) r ≤ buf.length) :
    (packVals host o code base n (base + r) args >>= k) buf =
      packRun host o base (List.replicate n (.field code size align) ++ ds) r args buf := by
  induction n generalizing r args buf with
  | zero => exact hk r args buf h rfl
  | succ n ih =>
    cases args with
    | nil =>
      rw [packRun_done]
      exact hdone _ _
    | cons arg args =>
      have hok : ∀ c ∈ List.replicate n (Cell.field code size align) ++ ds, c.Ok abi o := fun c hc => by
        rcases List.mem_append.mp hc with hc | hc
        · rw [List.eq_of_mem_replicate hc]
          exact ⟨hs, hx, hs'⟩
        · exact hds c hc
      have hle := le_extent hok (up r align + size)
      change base + extent (List.replicate n _ ++ ds) (up r align + size) ≤ _ at h
      have hset := setVal_run host arg hs (show base + up r align + size ≤ buf.length by omega) hw
      rw [packVals, Prog.bind_assoc, List.replicate_succ, List.cons_append]
      cases hv : valBytes host (isBig abi o) code size arg with
      | error e =>
        rw [hv] at hset
        rw [packRun_error (c := .field code size align) hv]
        exact Prog.bind_of_error hset
      | ok data =>
        rw [hv] at hset
        have hl := length_valBytes hs hv
        have hput : (put buf (base + up r align) data).length = buf.length := length_put (by omega)
        rw [packRun_ok (c := .field code size align) hv, Prog.bind_of_ok hset, Nat.add_assoc]
        exact ih (by omega) (fun r args buf' hb hl' => hk r args buf' hb (hl'.trans hput)) (by rw [hput]; exact h)

theorem packLoop_done (fmt : List Item) (p : Nat) : packLoop host o base fmt p [] buf = (.ok (), buf) := by
  cases fmt <;> rfl

variable (host args) in
/-- Packing goes along the cells. -/
theorem packLoop_cells {fmt : List Item} (hsmall : SmallCounts abi fmt) (hcells : cellsOf abi o fmt = .ok cs)
    (h : base + extent cs r ≤ buf.length) (hw : buf.length < 2 ^ abi.wordBits) :
    packLoop host o base fmt (base + r) args buf = packRun host o base cs r args buf := by
  induction fmt generalizing cs r args buf with
  | nil =>
    cases hcells
    cases args <;> rfl
  | cons it fmt ih =>
    obtain ⟨c, ds, hc, hd, rfl⟩ := cellsOf_cons hcells
    have hds := cellsOf_ok hd
    have hsmall' : SmallCounts abi fmt := fun it hit => hsmall it (List.mem_cons_of_mem _ hit)
    rw [extent_append] at h
    have hle := le_extent hds (extent c r)
    cases args with
    | nil => rw [packLoop_done, packRun_done]
    | cons arg args =>
      rw [packLoop, count_eq (hsmall it List.mem_cons_self), Prog.ofExcept_bind]
      by_cases hx : it.code = 'x'
      · rw [Item.cells, if_pos hx] at hc
        cases hc
        change base + extent ds (r + it.times) ≤ _ at h
        change r + it.times ≤ extent ds (r + it.times) at hle
        have hput : (put buf (base + r) (List.replicate it.times 0)).length = buf.length :=
          length_put (by rw [List.length_replicate]; omega)
        rw [if_pos hx, Prog.bind_of_ok (memzero_run (by omega)), List.singleton_append, packRun_ok (c := .pad it.times) rfl, Config.word,
          Nat.mod_eq_of_lt (by omega), Nat.add_assoc]
        exact ih _ hsmall' hd (by rw [hput]; exact h) (by rw [hput]; exact hw)
      · by_cases hs : it.code = 's'
        · rw [Item.cells, if_neg hx, if_pos hs] at hc
          cases hc
          change base + extent ds (r + it.times) ≤ _ at h
          change r + it.times ≤ extent ds (r + it.times) at hle
          rw [if_neg hx, if_pos hs, List.singleton_append]
          cases arg with
          | buffer data =>
            have hl : (data.take it.times).length = min it.times data.length := List.length_take
            have hzeros : it.times - (data.take it.times).length = it.times - data.length := by omega
            have hput : (put buf (base + r) (data.take it.times)).length = buf.length := length_put (by omega)
            have hrow : (data.take it.times ++ List.replicate (it.times - data.length) 0).length = it.times := by
              rw [List.length_append, hl, List.length_replicate]
              omega
            have hput' : (put buf (base + r) (data.take it.times ++ List.replicate (it.times - data.length) 0)).length = buf.length :=
              length_put (by omega)
            have hpacked : (Cell.chars it.times).packed host o (.buffer data) = .ok (data.take it.times ++ List.replicate (it.times - data.length) 0) :=
              rfl
            rw [packRun_ok hpacked, getBuffer, Prog.ofExcept_bind, Prog.bind_of_ok (memcpy_run (by omega)), hzeros, Config.word, Nat.mod_eq_of_lt (by omega),
              Prog.bind_of_ok (memzero_run (by rw [hput]; omega)), put_put_append (by omega), Config.word, Nat.mod_eq_of_lt (by omega),
              Nat.add_assoc]
            exact ih _ hsmall' hd (by rw [hput']; exact h) (by rw [hput']; exact hw)
          | _ =>
            rw [packRun_error (c := .chars it.times) (e := noBuffer) rfl]
            rfl
        · rw [Item.cells, if_neg hx, if_neg hs] at hc
          cases hg : getSize abi o it.code with
          | error e =>
            rw [hg] at hc
            cases hc
          | ok p =>
            rw [hg] at hc
            cases hc
            rw [← extent_append] at h
            rw [if_neg hx, if_neg hs]
            exact packVals_cells it.times hg hw hx hs hds (fun p buf => packLoop_done fmt p) (fun r args buf' hb hl => ih _ hsmall' hd hb (by omega)) h

/-! ## Unpacking -/

/-- What is read from the bytes of a field, for a code other than S. -/
def fieldVal (abi : Abi) (o code : Char) (src : List UInt8) : Val :=
  let val := getInt (isSigned code) (isBig abi o) src
  if code = 'O' then .object (uword abi.toConfig val)
  else if code = 'e' ∨ code = 'f' ∨ code = 'd' then .float code (val % (2 ^ (8 * src.length) : Nat)).toNat
  else intVal code val

def Cell.read (abi : Abi) (o : Char) (buf : List UInt8) (start : Nat) : Cell → List Val
  | .pad _ => []
  | .chars n => [.bytes (slice buf start n)]
  | .field code size _ => [fieldVal abi o code (slice buf start size)]

/-- The values of the cells that begin `r` bytes behind `base`. -/
def readCells (abi : Abi) (o : Char) (buf : List UInt8) (base : Nat) : List Cell → Nat → List Val
  | [], _ => []
  | c :: cs, r => c.read abi o buf (base + c.start r) ++ readCells abi o buf base cs (c.stop r)

theorem readCells_append : readCells abi o buf base (cs ++ ds) r = readCells abi o buf base cs r ++ readCells abi o buf base ds (extent cs r) := by
  induction cs generalizing r with
  | nil => rfl
  | cons c cs ih =>
    rw [List.cons_append, readCells, readCells, ih, List.append_assoc]
    rfl

theorem length_readCells : (readCells abi o buf base cs r).length = valueCount cs := by
  induction cs generalizing r with
  | nil => rfl
  | cons c cs ih =>
    rw [readCells, List.length_append, ih, valueCount, valueCount, List.countP_cons, Nat.add_comm]
    cases c <;> rfl

theorem load_run {p n : Nat} (h : p + n ≤ buf.length) : load buf p n = .ok (slice buf p n) := if_pos (.inr h)

theorem push_run {slots : Nat} {res : List Val} (item : Val) (h : res.length < slots) : push slots res item = .ok (res ++ [item]) := if_pos h

theorem getVal_run {buf : Buffer} {code : Char} {size align : Nat} (hs : getSize abi o code = .ok (size, align)) (hS : code ≠ 'S')
    (h : base + up r align + size ≤ buf.data.length) (hw : buf.data.length < 2 ^ abi.wordBits) :
    getVal abi o code buf base (base + r) =
      .ok (fieldVal abi o code (slice buf.data (base + up r align) size), base + up r align + size) := by
  have hl : (slice buf.data (base + up r align) size).length = size := length_slice h
  have hnext : abi.word (base + up r align + size) = base + up r align + size := Nat.mod_eq_of_lt (by omega)
  rw [getVal, hs]
  simp only [raises, bind, Except.bind]
  rw [aligned_eq hs (by omega), load_run h]
  simp only [hnext, fieldVal, hl, if_neg hS]
  by_cases hO : code = 'O'
  · rw [if_pos hO, if_pos hO]
    rfl
  · rw [if_neg hO, if_neg hO]
    split <;> rfl

/-- `while (cnt--)` of `struct_unpack_from`. -/
theorem unpackVals_cells {buf : Buffer} {code : Char} {size align slots : Nat} {res : List Val} (n : Nat)
    (hs : getSize abi o code = .ok (size, align)) (hx : code ≠ 'x') (hs' : code ≠ 's') (hS : code ≠ 'S')
    (h : base + extent (List.replicate n (.field code size align)) r ≤ buf.data.length) (hw : buf.data.length < 2 ^ abi.wordBits)
    (hn : res.length + n ≤ slots) :
    unpackVals abi slots o code buf base n (base + r) res =
      .ok (base + extent (List.replicate n (.field code size align)) r,
        res ++ readCells abi o buf.data base (List.replicate n (.field code size align)) r) := by
  induction n generalizing r res with
  | zero =>
    rw [List.replicate_zero, readCells, List.append_nil]
    rfl
  | succ n ih =>
    have hok : ∀ c ∈ List.replicate n (Cell.field code size align), c.Ok abi o := fun c hc => by
      rw [List.eq_of_mem_replicate hc]
      exact ⟨hs, hx, hs'⟩
    have hle := le_extent hok (up r align + size)
    change base + extent (List.replicate n _) (up r align + size) ≤ _ at h
    rw [unpackVals, getVal_run hs hS (by omega) hw]
    simp only [bind, Except.bind]
    rw [push_run _ (by omega)]
    simp only
    rw [Nat.add_assoc, ih h (by rw [List.length_append, List.length_singleton]; omega), List.append_assoc]
    rfl

variable (host) in
/-- Unpacking goes along the cells, unless there is no memory for the bytes of an `s`. -/
theorem unpackLoop_cells {buf : Buffer} {fmt : List Item} {slots n : Nat} {res : List Val} (hsmall : SmallCounts abi fmt)
    (hcells : cellsOf abi o fmt = .ok cs) (hS : ∀ it ∈ fmt, it.code ≠ 'S') (h : base + extent cs r ≤ buf.data.length)
    (hw : buf.data.length < 2 ^ abi.wordBits) (hn : res.length + valueCount cs = n) (hslots : n ≤ slots) :
    unpackLoop host slots n o buf base fmt (base + r) res = .ok (res ++ readCells abi o buf.data base cs r) ∨
      unpackLoop host slots n o buf base fmt (base + r) res = .error (.raise .memoryError) ∧ ∃ m, Cell.chars m ∈ cs ∧ host.allocates m = false := by
  induction fmt generalizing cs r res with
  | nil =>
    cases hcells
    refine .inl ?_
    rw [unpackLoop, if_neg (by rw [← hn]; exact Nat.lt_irrefl _), readCells, List.append_nil]
  | cons it fmt ih =>
    obtain ⟨c, ds, hc, hd, rfl⟩ := cellsOf_cons hcells
    have hsmall' : SmallCounts abi fmt := fun it hit => hsmall it (List.mem_cons_of_mem _ hit)
    have hS' : ∀ it ∈ fmt, it.code ≠ 'S' := fun it hit => hS it (List.mem_cons_of_mem _ hit)
    rw [unpackLoop]
    by_cases hmore : res.length < n
    · rw [if_pos hmore, count_eq (hsmall it List.mem_cons_self)]
      simp only [bind, Except.bind]
      have hle := le_extent (cellsOf_ok hd) (extent c r)
      rw [extent_append] at h
      rw [valueCount_append] at hn
      rw [readCells_append]
      -- the cells that follow, from what the item leaves
      have hrest : ∀ {p : Nat} {res' : List Val}, p = base + extent c r → res' = res ++ readCells abi o buf.data base c r →
          unpackLoop host slots n o buf base fmt p res' = .ok (res ++ (readCells abi o buf.data base c r ++
            readCells abi o buf.data base ds (extent c r))) ∨
          unpackLoop host slots n o buf base fmt p res' = .error (.raise .memoryError) ∧ ∃ m, Cell.chars m ∈ c ++ ds ∧ host.allocates m = false := by
        rintro p res' rfl rfl
        have hlen : (res ++ readCells abi o buf.data base c r).length + valueCount ds = n := by
          rw [List.length_append, length_readCells]
          omega
        rcases ih hsmall' hd hS' h hlen with hrun | ⟨hrun, m, hm, hall⟩
        · exact .inl (hrun.trans (by rw [List.append_assoc]))
        · exact .inr ⟨hrun, m, List.mem_append_right c hm, hall⟩
      by_cases hx : it.code = 'x'
      · rw [Item.cells, if_pos hx] at hc
        cases hc
        change base + extent ds (r + it.times) ≤ _ at h
        change r + it.times ≤ extent ds (r + it.times) at hle
        rw [if_pos hx]
        exact hrest (by rw [Config.word, Nat.mod_eq_of_lt (by omega), Nat.add_assoc]; rfl) (List.append_nil res).symm
      · by_cases hs : it.code = 's'
        · rw [Item.cells, if_neg hx, if_pos hs] at hc
          cases hc
          change base + extent ds (r + it.times) ≤ _ at h
          change r + it.times ≤ extent ds (r + it.times) at hle
          rw [if_neg hx, if_pos hs]
          cases hall : host.allocates it.times with
          | false => exact .inr ⟨rfl, it.times, List.mem_append_left _ (List.mem_singleton.mpr rfl), hall⟩
          | true =>
            rw [load_run (show base + r + it.times ≤ buf.data.length by omega)]
            simp only [Bool.not_true, Bool.false_eq_true, if_false]
            rw [push_run _ (by omega)]
            exact hrest (by rw [Config.word, Nat.mod_eq_of_lt (by omega), Nat.add_assoc]; rfl) rfl
        · rw [Item.cells, if_neg hx, if_neg hs] at hc
          cases hg : getSize abi o it.code with
          | error e =>
            rw [hg] at hc
            cases hc
          | ok p =>
            rw [hg] at hc
            cases hc
            have hcount : valueCount (List.replicate it.times (Cell.field it.code p.1 p.2)) = it.times := valueCount_replicate _ _ _ _
            rw [if_neg hx, if_neg hs, unpackVals_cells it.times hg hx hs (hS it List.mem_cons_self) (by omega) hw (by omega)]
            exact hrest rfl rfl
    · have hnone : valueCount (c ++ ds) = 0 := by omega
      have hnil : readCells abi o buf.data base (c ++ ds) r = [] := List.eq_nil_of_length_eq_zero (length_readCells.trans hnone)
      rw [if_neg hmore, hnil, List.append_nil]
      exact .inl rfl

end PythonUltra.Py.Modstruct
