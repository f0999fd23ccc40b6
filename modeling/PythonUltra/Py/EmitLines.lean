/-
  PythonUltra.Py.EmitLines — the line table of a function (py/emitbc.c, py/bc.h).

  mp_emit_bc_set_source_line writes a gap in bytes and lines whenever the line goes up;
  mp_bytecode_get_source_line adds the gaps up as far as an offset. A gap that is split gives
  its bytes first, so that a sum short of it has none of its lines.
-/

import PythonUltra.Py.EmitPasses

namespace PythonUltra.Py.EmitBc

/-- `mp_bytecode_get_source_line`, from a place in the table on. -/
def getSourceLineFrom : List Nat → Nat → Nat → Option Nat
  | [], _, sourceLine => some sourceLine
  | c :: lineInfo, bcOffset, sourceLine =>
    if c &&& 0x80 = 0 then
      -- 0b0LLBBBBB
      let b := c &&& 0x1f
      let l := c >>> 5
      if bcOffset ≥ b then getSourceLineFrom lineInfo (bcOffset - b) (sourceLine + l) else some sourceLine
    else
      match lineInfo with
      | [] => none
      | c1 :: lineInfo =>
        -- 0b1LLLBBBB 0bLLLLLLLL
        let b := c &&& 0xf
        let l := ((c <<< 4) &&& 0x700) ||| c1
        if bcOffset ≥ b then getSourceLineFrom lineInfo (bcOffset - b) (sourceLine + l) else some sourceLine

/-- `mp_bytecode_get_source_line`; none if it reads past the table. -/
def getSourceLine (lineInfo : List Nat) (bcOffset : Nat) : Option Nat := getSourceLineFrom lineInfo bcOffset 1

/-! ## The lines that are set -/

def eventOf (e : Emit) : Call → List (Nat × Nat)
  | .setSourceLine line => [(e.code.length, line)]
  | _ => []

/-- Where in the bytecode each line is set. -/
def events (sc : Scope) : Emit → List Call → List (Nat × Nat)
  | _, [] => []
  | e, c :: calls => eventOf e c ++ events sc (step sc e c) calls

/-- The line of the last event at an offset or before it. -/
def lineAt (first : Nat) (events : List (Nat × Nat)) (bcOffset : Nat) : Nat :=
  ((events.filter fun ev => ev.1 ≤ bcOffset).getLast?.map Prod.snd).getD first

def linesOf : Call → List Nat
  | .setSourceLine line => [line]
  | _ => []

/-- No line is before the first or before one that is set earlier. -/
def Ascending (first : Nat) (calls : List Call) : Prop := (first :: calls.flatMap linesOf).Pairwise (· ≤ ·)

section
variable {sc : Scope} {e : Emit} {c : Call} {calls : List Call} {rest : List Nat}

/-! ## One gap -/

theorem short_record : ∀ b < 32, ∀ l < 4, (b ||| l <<< 5) &&& 0x80 = 0 ∧ (b ||| l <<< 5) &&& 0x1f = b ∧ (b ||| l <<< 5) >>> 5 = l := by
  decide

theorem long_record : ∀ b < 16, ∀ h < 8, (0x80 ||| b ||| h <<< 4) &&& 0x80 ≠ 0 ∧ (0x80 ||| b ||| h <<< 4) &&& 0xf = b ∧
    ((0x80 ||| b ||| h <<< 4) <<< 4) &&& 0x700 = h <<< 8 := by
  decide

theorem long_lines {l : Nat} (hl : l < 0x800) : (l >>> 4) &&& 0x70 = (l / 256) <<< 4 ∧ (l / 256) <<< 8 ||| l % 256 = l := by
  have hhigh : l / 256 < 8 := Nat.div_lt_of_lt_mul hl
  have hlow : l % 256 < 2 ^ 8 := Nat.mod_lt l (by decide)
  constructor
  · have hsplit : l >>> 4 = (l / 256) * 2 ^ 4 + l % 256 / 16 := by
      rw [Nat.shiftRight_eq_div_pow]
      omega
    have key : ∀ h < 8, ∀ r < 16, (h <<< 4 ||| r) &&& 0x70 = h <<< 4 := by decide
    rw [hsplit, ← shiftLeft_or (show l % 256 / 16 < 2 ^ 4 by omega)]
    exact key _ hhigh _ (by omega)
  · rw [shiftLeft_or hlow]
    omega

theorem getSourceLineFrom_short {b l bc line : Nat} (hb : b < 32) (hl : l < 4) :
    getSourceLineFrom ((b ||| l <<< 5) :: rest) bc line = if bc ≥ b then getSourceLineFrom rest (bc - b) (line + l) else some line := by
  obtain ⟨hkind, hbytes, hlines⟩ := short_record b hb l hl
  cases rest with
  | nil => rw [getSourceLineFrom.eq_2, if_pos hkind, hbytes, hlines]
  | cons c1 rest => rw [getSourceLineFrom, if_pos hkind, hbytes, hlines]

theorem getSourceLineFrom_long {b l bc line : Nat} (hb : b < 16) (hl : l < 0x800) :
    getSourceLineFrom ((0x80 ||| b ||| ((l >>> 4) &&& 0x70)) :: l % 256 :: rest) bc line =
      if bc ≥ b then getSourceLineFrom rest (bc - b) (line + l) else some line := by
  obtain ⟨hhigh, hwhole⟩ := long_lines hl
  obtain ⟨hkind, hbytes, hlines⟩ := long_record b hb (l / 256) (Nat.div_lt_of_lt_mul hl)
  rw [hhigh, getSourceLineFrom, if_neg hkind]
  show (if bc ≥ _ then getSourceLineFrom rest (bc - _) (line + _) else _) = _
  rw [hbytes, hlines, hwhole]

/-- The records of a gap are one record of it. -/
theorem getSourceLineFrom_bytesLines {fuel b l bc line : Nat} (hfuel : b + l < fuel) :
    getSourceLineFrom (bytesLines fuel b l ++ rest) bc line = if bc ≥ b then getSourceLineFrom rest (bc - b) (line + l) else some line := by
  induction fuel generalizing b l bc line with
  | zero => exact absurd hfuel (Nat.not_lt_zero _)
  | succ fuel ih =>
    rw [bytesLines]
    by_cases hmore : b > 0 ∨ l > 0
    · rw [if_pos hmore]
      by_cases hshort : l ≤ 6 ∨ b > 0xf
      · rw [if_pos hshort]
        by_cases hsplit : min b 0x1f < b
        · -- bytes only
          have hb : min b 0x1f = 0x1f := by omega
          show getSourceLineFrom ((min b 0x1f ||| (if min b 0x1f < b then 0 else min l 0x3) <<< 5) ::
            (bytesLines fuel (b - min b 0x1f) (l - if min b 0x1f < b then 0 else min l 0x3) ++ rest)) bc line = _
          rw [if_pos hsplit, hb, getSourceLineFrom_short (by decide) (by decide), ih (by omega)]
          by_cases hreach : bc ≥ b
          · rw [if_pos hreach, if_pos (by omega), if_pos (by omega)]
            congr 1
            omega
          · rw [if_neg hreach, if_neg (by omega : ¬ bc - 0x1f ≥ b - 0x1f), Nat.add_zero, ite_self]
        · show getSourceLineFrom ((min b 0x1f ||| (if min b 0x1f < b then 0 else min l 0x3) <<< 5) ::
            (bytesLines fuel (b - min b 0x1f) (l - if min b 0x1f < b then 0 else min l 0x3) ++ rest)) bc line = _
          have hb : min b 0x1f = b := by omega
          rw [if_neg hsplit, hb, getSourceLineFrom_short (by omega) (by omega), ih (by omega), Nat.sub_self, if_pos (Nat.zero_le _)]
          congr 2
          omega
      · rw [if_neg hshort]
        show getSourceLineFrom ((0x80 ||| min b 0xf ||| ((min l 0x7ff >>> 4) &&& 0x70)) :: min l 0x7ff % 256 ::
          (bytesLines fuel (b - min b 0xf) (l - min l 0x7ff) ++ rest)) bc line = _
        have hb : min b 0xf = b := by omega
        rw [hb, getSourceLineFrom_long (by omega) (by omega), ih (by omega), Nat.sub_self, if_pos (Nat.zero_le _)]
        congr 2
        omega
    · obtain ⟨rfl, rfl⟩ : b = 0 ∧ l = 0 := by omega
      rw [if_neg hmore, List.nil_append, if_pos (Nat.zero_le bc)]
      rfl

/-! ## A pass -/

theorem step_code_length : e.code.length ≤ (step sc e c).code.length := by
  rw [step_eq]
  exact (List.prefix_append _ _).length_le

theorem events_ge (sc : Scope) (e : Emit) (calls : List Call) : ∀ ev ∈ events sc e calls, e.code.length ≤ ev.1 := by
  induction calls generalizing e with
  | nil => exact fun ev hev => absurd hev List.not_mem_nil
  | cons c calls ih =>
    intro ev hev
    rcases List.mem_append.mp hev with hev | hev
    · cases c with
      | setSourceLine line =>
        rw [List.mem_singleton.mp hev]
      | _ => cases hev
    · exact Nat.le_trans step_code_length (ih _ ev hev)

theorem lineAt_early {first bc : Nat} {evs : List (Nat × Nat)} (h : ∀ ev ∈ evs, bc < ev.1) : lineAt first evs bc = first := by
  have hnone : (evs.filter fun ev => ev.1 ≤ bc) = [] := by
    refine List.filter_eq_nil_iff.mpr fun ev hev hle => ?_
    have hlt := h ev hev
    have hle := of_decide_eq_true hle
    omega
  unfold lineAt
  rw [hnone]
  rfl

theorem lineAt_cons {first line pos bc : Nat} {evs : List (Nat × Nat)} (h : pos ≤ bc) : lineAt first ((pos, line) :: evs) bc = lineAt line evs bc := by
  unfold lineAt
  rw [List.filter_cons_of_pos (by exact decide_eq_true h), List.getLast?_cons]
  cases (evs.filter fun ev => ev.1 ≤ bc).getLast? with
  | none => rfl
  | some ev => rfl

/-- From any state on, the table of the calls gives the lines set by them. -/
theorem table_of_calls (h : Ascending e.lastSourceLine calls) (hoff : e.lastSourceLineOffset ≤ e.code.length) :
    ∃ table, (calls.foldl (step sc) e).info = e.info ++ table ∧ ∀ bc, e.lastSourceLineOffset ≤ bc →
      getSourceLineFrom table (bc - e.lastSourceLineOffset) e.lastSourceLine = some (lineAt e.lastSourceLine (events sc e calls) bc) := by
  induction calls generalizing e with
  | nil => exact ⟨[], (List.append_nil _).symm, fun bc _ => rfl⟩
  | cons c calls ih =>
    have hcode : e.code.length ≤ (step sc e c).code.length := step_code_length
    have hline : (step sc e c).lastSourceLine = lineOf e c := by rw [step_eq]
    have hplace : (step sc e c).lastSourceLineOffset = lineOffsetOf e c := by rw [step_eq]
    have hinfo : (step sc e c).info = e.info ++ infoOf e c := by rw [step_eq]
    have hle := lineOffsetOf_le hoff c
    have hcalls : ∀ l ∈ linesOf c, e.lastSourceLine ≤ l := by
      intro l hl
      exact (List.pairwise_cons.mp h).1 l (List.mem_flatMap.mpr ⟨c, List.mem_cons_self, hl⟩)
    have hlast : lineOf e c = (linesOf c).getLastD e.lastSourceLine := by
      cases c with
      | setSourceLine line =>
        have hge := hcalls line (List.mem_singleton_self line)
        show (if line > e.lastSourceLine then line else e.lastSourceLine) = line
        split
        · rfl
        · omega
      | _ => rfl
    have hrest : Ascending (lineOf e c) calls := by
      unfold Ascending at h ⊢
      rw [hlast]
      cases c with
      | setSourceLine line => exact (List.pairwise_cons.mp h).2
      | _ => exact h
    obtain ⟨table, htable, hdecode⟩ := @ih (step sc e c) (by rw [hline]; exact hrest) (by rw [hplace]; exact Nat.le_trans hle hcode)
    rw [hline, hplace] at hdecode
    refine ⟨infoOf e c ++ table, by rw [List.foldl_cons, htable, hinfo, List.append_assoc], fun bc hbc => ?_⟩
    have hlater := events_ge sc (step sc e c) calls
    cases c with
    | setSourceLine line =>
      show getSourceLineFrom (infoOf e (.setSourceLine line) ++ table) _ _ =
        some (lineAt _ ((e.code.length, line) :: events sc (step sc e (.setSourceLine line)) calls) bc)
      have hge := hcalls line (List.mem_singleton_self line)
      by_cases hup : line > e.lastSourceLine
      · have hnew : lineOf e (.setSourceLine line) = line := if_pos hup
        have hhere : lineOffsetOf e (.setSourceLine line) = e.code.length := if_pos hup
        have hgap : infoOf e (.setSourceLine line) = bytesLines _ _ _ := if_pos hup
        rw [hnew, hhere] at hdecode
        rw [hgap, getSourceLineFrom_bytesLines (Nat.lt_succ_self _)]
        by_cases hreach : e.code.length ≤ bc
        · rw [if_pos (by omega), lineAt_cons hreach, ← hdecode bc hreach]
          congr 1
          · omega
          · omega
        · rw [if_neg (by omega), lineAt_early]
          intro ev hev
          rcases List.mem_cons.mp hev with rfl | hev
          · exact Nat.lt_of_not_le hreach
          · have := hlater ev hev
            omega
      · obtain rfl : line = e.lastSourceLine := by omega
        have hnew : lineOf e (.setSourceLine e.lastSourceLine) = e.lastSourceLine := if_neg hup
        have hhere : lineOffsetOf e (.setSourceLine e.lastSourceLine) = e.lastSourceLineOffset := if_neg hup
        have hnone : infoOf e (.setSourceLine e.lastSourceLine) = [] := if_neg hup
        rw [hnew, hhere] at hdecode
        rw [hnone, List.nil_append, hdecode bc hbc]
        by_cases hreach : e.code.length ≤ bc
        · rw [lineAt_cons hreach]
        · have hearly : ∀ ev ∈ events sc (step sc e (.setSourceLine e.lastSourceLine)) calls, bc < ev.1 := by
            intro ev hev
            have := hlater ev hev
            omega
          rw [lineAt_early hearly, lineAt_early]
          intro ev hev
          rcases List.mem_cons.mp hev with rfl | hev
          · exact Nat.lt_of_not_le hreach
          · exact hearly ev hev
    | _ => exact hdecode bc hbc

theorem startPass_line (sc : Scope) (pass : Pass) (e : Emit) :
    (startPass sc pass e).lastSourceLine = 1 ∧ (startPass sc pass e).lastSourceLineOffset = 0 ∧ (startPass sc pass e).code = [] := by
  unfold startPass
  split
  · exact ⟨rfl, rfl, rfl⟩
  · exact ⟨rfl, rfl, rfl⟩

theorem endPass_info (sc : Scope) (e : Emit) : (endPass sc e).info = e.info ++ sc.cells := by rw [endPass_eq]

/-- Between the names and the closure section stands a table from which every offset in the bytecode
gets the line of the last event at it or before it. -/
theorem source_line_of_offset (sc : Scope) (pass : Pass) (e : Emit) (h : Ascending 1 calls) :
    ∃ table, (compileScope sc calls pass e).info = (startPass sc pass e).info ++ table ++ sc.cells ∧
      ∀ bc, getSourceLine table bc = some (lineAt 1 (events sc (startPass sc pass e) calls) bc) := by
  obtain ⟨hline, hplace, hcode⟩ := startPass_line sc pass e
  obtain ⟨table, htable, hdecode⟩ := @table_of_calls sc (startPass sc pass e) calls (by rw [hline]; exact h) (by rw [hplace]; exact Nat.zero_le _)
  refine ⟨table, ?_, fun bc => ?_⟩
  · unfold compileScope
    rw [endPass_info, htable]
  · have hbc := hdecode bc (by rw [hplace]; exact Nat.zero_le bc)
    rw [hline, hplace, Nat.sub_zero] at hbc
    exact hbc

end

def twoLines : Scope where
  sigs _ := ⟨1, 0, 0, 0, 0, 0⟩
  sigs_eq := rfl
  nState_pos := by decide
  name := 0
  params := []
  cells := []
  maxNumLabels := 0

/-- A line, 40 bytes, and a line 3000 further on. -/
def longGap : List Call := [.setSourceLine 2, .write 0 (List.replicate 40 0), .setSourceLine 3002]

theorem source_line_of_offset_gap : ∃ table, (compileScope twoLines longGap .emit init).info = (startPass twoLines .emit init).info ++ table ++ twoLines.cells ∧
    ∀ bc, getSourceLine table bc = some (lineAt 1 (events twoLines (startPass twoLines .emit init) longGap) bc) :=
  source_line_of_offset twoLines .emit init (by unfold Ascending; decide)

end PythonUltra.Py.EmitBc
