/-
  PythonUltra.Py.LexerQueue — what next_char makes of the source (py/lexer.c).

  Outside of f-string arguments the three characters at hand and what the reader has left are a
  row of characters (`Queue`): the source with its newlines as LF, and with one at its end.
  next_char takes the first of them.
-/

import PythonUltra.Py.Lexer

namespace PythonUltra.Py.Lexer

/-! ## The characters of a source -/

/-- CR LF and CR are LF. -/
def unixNewlines : List Nat → List Nat
  | [] => []
  | [c] => [if c = 13 then 10 else c]
  | c :: d :: l => if c = 13 then (if d = 10 then 10 :: unixNewlines l else 10 :: unixNewlines (d :: l)) else c :: unixNewlines (d :: l)

/-- With a newline at the end. -/
def ended : List Nat → List Nat
  | [] => []
  | [c] => if c = 10 then [10] else [c, 10]
  | c :: d :: l => c :: ended (d :: l)

/-- What follows in a source that is not at its start. -/
def logical (l : List Nat) : List Nat := ended (unixNewlines l)

/-- The characters of a source, of which there is a newline at least. -/
def chars (source : List UInt8) : List Nat := if source = [] then [10] else logical (source.map UInt8.toNat)

theorem unixNewlines_cons (c d : Nat) (l : List Nat) : unixNewlines (c :: d :: l) =
    if c = 13 then (if d = 10 then 10 :: unixNewlines l else 10 :: unixNewlines (d :: l)) else c :: unixNewlines (d :: l) := rfl

theorem unixNewlines_ne_nil {l : List Nat} (hl : l ≠ []) : unixNewlines l ≠ [] := by
  cases l with
  | nil => exact absurd rfl hl
  | cons c l =>
    cases l with
    | nil => exact List.cons_ne_nil _ _
    | cons d l =>
      rw [unixNewlines_cons]
      split
      · split
        · exact List.cons_ne_nil _ _
        · exact List.cons_ne_nil _ _
      · exact List.cons_ne_nil _ _

theorem ended_cons {c : Nat} {l : List Nat} (hl : l ≠ []) : ended (c :: l) = c :: ended l := by
  cases l with
  | nil => exact absurd rfl hl
  | cons d l => rfl

@[simp] theorem ended_newline (l : List Nat) : ended (10 :: l) = 10 :: ended l := by
  cases l with
  | nil => rfl
  | cons d l => rfl

theorem logical_single (c : Nat) : logical [c] = if c = 10 ∨ c = 13 then [10] else [c, 10] := by
  unfold logical
  rw [show unixNewlines [c] = [if c = 13 then 10 else c] from rfl]
  by_cases hcr : c = 13
  · rw [if_pos hcr, if_pos (.inr hcr)]
    rfl
  · rw [if_neg hcr, ended]
    by_cases hlf : c = 10
    · rw [if_pos hlf, if_pos (.inl hlf)]
    · rw [if_neg hlf, if_neg (fun h => h.elim hlf hcr)]

theorem logical_cons {c d : Nat} {l : List Nat} (hc : c ≠ 13) : logical (c :: d :: l) = c :: logical (d :: l) := by
  unfold logical
  rw [unixNewlines_cons, if_neg hc, ended_cons (unixNewlines_ne_nil (List.cons_ne_nil d l))]

theorem logical_crlf (l : List Nat) : logical (13 :: 10 :: l) = 10 :: logical l := by
  unfold logical
  rw [unixNewlines_cons, if_pos rfl, if_pos rfl, ended_newline]

theorem logical_cr {d : Nat} {l : List Nat} (hd : d ≠ 10) : logical (13 :: d :: l) = 10 :: logical (d :: l) := by
  unfold logical
  rw [unixNewlines_cons, if_pos rfl, if_neg hd, ended_newline]

theorem logical_line {l : List Nat} (hl : l ≠ []) (hplain : ∀ c ∈ l, c ≠ 10 ∧ c ≠ 13) : logical l = l ++ [10] := by
  induction l with
  | nil => exact absurd rfl hl
  | cons c l ih =>
    obtain ⟨hlf, hcr⟩ := hplain c List.mem_cons_self
    cases l with
    | nil => rw [logical_single, if_neg fun h => h.elim hlf hcr, List.singleton_append]
    | cons d l =>
      rw [logical_cons hcr, ih (List.cons_ne_nil d l) fun c' hc' => hplain c' (List.mem_cons_of_mem c hc')]
      rfl

theorem chars_line {source : List UInt8} (hsource : source ≠ []) (hplain : ∀ b ∈ source, b.toNat ≠ 10 ∧ b.toNat ≠ 13) :
    chars source = source.map UInt8.toNat ++ [10] := by
  unfold chars
  rw [if_neg hsource]
  refine logical_line (fun h => hsource (List.map_eq_nil_iff.mp h)) ?_
  intro c hc
  obtain ⟨b, hb, rfl⟩ := List.mem_map.mp hc
  exact hplain b hb

/-! ## The queue -/

/-- The three characters at hand, and what the reader has left. -/
structure Window where
  chr0 : Nat
  chr1 : Nat
  chr2 : Nat
  stream : List UInt8

def window (lex : Lexer) : Window := ⟨lex.chr0, lex.chr1, lex.chr2, lex.stream⟩

namespace Window

/-- What is behind the first two characters. -/
def pending (w : Window) : List Nat := if w.chr2 = eof then [] else w.chr2 :: w.stream.map UInt8.toNat

/-- The row of characters that starts with the window. -/
def Row (w : Window) : List Nat → Prop
  | [] => w = ⟨eof, eof, eof, []⟩
  | [c] => w = ⟨c, eof, eof, []⟩
  | c :: d :: l => w.chr0 = c ∧ w.chr1 = d ∧ (w.chr2 = eof → w.stream = [] ∧ d = 10) ∧ l = logical w.pending

/-- With the next byte of the reader in the third place. -/
def fill (c0 c1 : Nat) : List UInt8 → Window
  | [] => ⟨c0, c1, eof, []⟩
  | b :: s => ⟨c0, c1, b.toNat, s⟩

/-- A character further, outside of f-string arguments. -/
def next : Window → Window
  | ⟨_, c1, c2, []⟩ => if c2 = 13 then ⟨c1, 10, eof, []⟩ else if c2 ≠ eof ∧ c2 ≠ 10 then ⟨c1, c2, 10, []⟩ else ⟨c1, c2, eof, []⟩
  | ⟨_, c1, c2, b :: s⟩ => if c2 = 13 then (if b.toNat = 10 then fill c1 10 s else ⟨c1, 10, b.toNat, s⟩) else ⟨c1, c2, b.toNat, s⟩

end Window

theorem byte_ne_eof (b : UInt8) : b.toNat ≠ eof := by
  have := b.toNat_lt
  unfold eof
  omega

namespace Window

variable {w : Window} {c d : Nat} {l : List Nat}

theorem pending_byte {c0 c1 : Nat} (b : UInt8) (s : List UInt8) : pending ⟨c0, c1, b.toNat, s⟩ = (b :: s).map UInt8.toNat := if_neg (byte_ne_eof b)

theorem Row.chr0_nil (h : w.Row []) : w.chr0 = eof := by rw [h]

theorem Row.chr0 (h : w.Row (c :: l)) : w.chr0 = c := by
  cases l with
  | nil => rw [h]
  | cons d l => exact h.1

theorem Row.chr1 (h : w.Row (c :: d :: l)) : w.chr1 = d := h.2.1

/-- The row from its second character on. -/
theorem Row.next (h : w.Row (c :: l)) : w.next.Row l := by
  have heof : eof ≠ 13 ∧ eof ≠ 10 := by decide
  obtain ⟨c0, c1, c2, stream⟩ := w
  cases l with
  | nil =>
    obtain ⟨rfl, rfl, rfl, rfl⟩ := Window.mk.inj h
    rw [Window.next, if_neg heof.1, if_neg fun hn => hn.1 rfl]
    rfl
  | cons d l =>
    obtain ⟨-, rfl, hend, hrest⟩ := h
    simp only at hend hrest
    cases stream with
    | nil =>
      rw [Window.next]
      by_cases hcr : c2 = 13
      · subst hcr
        rw [if_pos rfl, hrest]
        exact ⟨rfl, rfl, fun _ => ⟨rfl, rfl⟩, rfl⟩
      · rw [if_neg hcr]
        by_cases h2 : c2 = eof
        · subst h2
          obtain ⟨-, rfl⟩ := hend rfl
          rw [if_neg fun hn => hn.1 rfl, hrest]
          rfl
        · have hrow : l = logical [c2] := hrest.trans (congrArg logical (if_neg h2))
          rw [logical_single] at hrow
          by_cases hlf : c2 = 10
          · subst hlf
            rw [if_neg fun hn => hn.2 rfl, hrow, if_pos (.inl rfl)]
            exact ⟨rfl, rfl, fun _ => ⟨rfl, rfl⟩, rfl⟩
          · rw [if_pos ⟨h2, hlf⟩, hrow, if_neg fun hn => hn.elim hlf hcr]
            exact ⟨rfl, rfl, fun h => absurd h.symm heof.2, rfl⟩
    | cons b s =>
      by_cases h2 : c2 = eof
      · exact absurd (hend h2).1 (List.cons_ne_nil b s)
      · have hrow : l = logical (c2 :: b.toNat :: s.map UInt8.toNat) := hrest.trans (congrArg logical (if_neg h2))
        rw [Window.next]
        by_cases hcr : c2 = 13
        · subst hcr
          rw [if_pos rfl]
          by_cases hlf : b.toNat = 10
          · -- CR LF: a character more is read
            rw [hlf, logical_crlf] at hrow
            rw [if_pos hlf, hrow]
            cases s with
            | nil => exact ⟨rfl, rfl, fun _ => ⟨rfl, rfl⟩, rfl⟩
            | cons b' s => exact ⟨rfl, rfl, fun h => absurd h (byte_ne_eof b'), congrArg logical (pending_byte b' s).symm⟩
          · rw [logical_cr hlf] at hrow
            rw [if_neg hlf, hrow]
            exact ⟨rfl, rfl, fun h => absurd h (byte_ne_eof b), congrArg logical (pending_byte b s).symm⟩
        · rw [logical_cons hcr] at hrow
          rw [if_neg hcr, hrow]
          exact ⟨rfl, rfl, fun h => absurd h (byte_ne_eof b), congrArg logical (pending_byte b s).symm⟩

end Window

/-! ## next_char -/

/-- What next_char leaves as it is. -/
structure Kept where
  chr0Saved : Nat
  chr1Saved : Nat
  chr2Saved : Nat
  emitDent : Int
  nestedBracketLevel : Int
  indentLevel : List Nat
  tokLine : Nat
  tokColumn : Int
  tokKind : TokenKind
  vstr : List UInt8
  raised : Bool
  stuck : Bool

def kept (lex : Lexer) : Kept where
  chr0Saved := lex.chr0Saved
  chr1Saved := lex.chr1Saved
  chr2Saved := lex.chr2Saved
  emitDent := lex.emitDent
  nestedBracketLevel := lex.nestedBracketLevel
  indentLevel := lex.indentLevel
  tokLine := lex.tokLine
  tokColumn := lex.tokColumn
  tokKind := lex.tokKind
  vstr := lex.vstr
  raised := lex.raised
  stuck := lex.stuck

section
variable (lex : Lexer)

theorem position_kept : lex.position.kept = lex.kept := by
  unfold position
  split
  · rfl
  · split
    · rfl
    · rfl

theorem read_kept : lex.read.kept = lex.kept := by
  unfold read
  split
  · rfl
  · rfl

theorem inject_kept : lex.inject.kept = lex.kept := by
  unfold inject restore
  dsimp only
  split
  · split
    · rfl
    · rfl
  · split
    · rfl
    · rfl

theorem joinCr_kept : lex.joinCr.kept = lex.kept := by
  unfold joinCr
  split
  · split
    · exact read_kept { lex with chr1 := 10 }
    · rfl
  · rfl

theorem endWithNewline_kept : lex.endWithNewline.kept = lex.kept := by
  unfold endWithNewline
  split
  · rfl
  · rfl

/-- The queue is shifted, and filled from the arguments or from the reader. -/
def fed (lex : Lexer) : Lexer :=
  if lex.fstringArgsIdx ≠ 0 then { lex with chr0 := lex.chr1, chr1 := lex.chr2 }.inject else { lex with chr0 := lex.chr1, chr1 := lex.chr2 }.read

theorem nextChar_eq : lex.nextChar = lex.position.fed.joinCr.endWithNewline := rfl

theorem fed_kept : lex.fed.kept = lex.kept := by
  unfold fed
  split
  · exact inject_kept { lex with chr0 := lex.chr1, chr1 := lex.chr2 }
  · exact read_kept { lex with chr0 := lex.chr1, chr1 := lex.chr2 }

/-- The line and the column are counted before the queue is shifted. -/
theorem nextChar_place : lex.nextChar.line = lex.position.line ∧ lex.nextChar.column = lex.position.column := by
  have hread : ∀ lex : Lexer, lex.read.line = lex.line ∧ lex.read.column = lex.column := by
    intro lex
    unfold read
    split
    · exact ⟨rfl, rfl⟩
    · exact ⟨rfl, rfl⟩
  have hinject : ∀ lex : Lexer, lex.inject.line = lex.line ∧ lex.inject.column = lex.column := by
    intro lex
    unfold inject restore
    dsimp only
    split
    · split
      · exact ⟨rfl, rfl⟩
      · exact ⟨rfl, rfl⟩
    · split
      · exact ⟨rfl, rfl⟩
      · exact ⟨rfl, rfl⟩
  have hfed : ∀ lex : Lexer, lex.fed.line = lex.line ∧ lex.fed.column = lex.column := by
    intro lex
    unfold fed
    split
    · exact hinject { lex with chr0 := lex.chr1, chr1 := lex.chr2 }
    · exact hread { lex with chr0 := lex.chr1, chr1 := lex.chr2 }
  have hjoin : ∀ lex : Lexer, lex.joinCr.line = lex.line ∧ lex.joinCr.column = lex.column := by
    intro lex
    unfold joinCr
    split
    · split
      · exact hread { lex with chr1 := 10 }
      · exact ⟨rfl, rfl⟩
    · exact ⟨rfl, rfl⟩
  have hend : ∀ lex : Lexer, lex.endWithNewline.line = lex.line ∧ lex.endWithNewline.column = lex.column := by
    intro lex
    unfold endWithNewline
    split
    · exact ⟨rfl, rfl⟩
    · exact ⟨rfl, rfl⟩
  rw [nextChar_eq, (hend _).1, (hjoin _).1, (hfed _).1, (hend _).2, (hjoin _).2, (hfed _).2]
  exact ⟨rfl, rfl⟩

theorem nextChar_kept : lex.nextChar.kept = lex.kept := by
  rw [nextChar_eq, endWithNewline_kept, joinCr_kept, fed_kept, position_kept]

@[simp] theorem nextChar_raised : lex.nextChar.raised = lex.raised := congrArg Kept.raised (nextChar_kept lex)
@[simp] theorem nextChar_stuck : lex.nextChar.stuck = lex.stuck := congrArg Kept.stuck (nextChar_kept lex)
@[simp] theorem nextChar_emitDent : lex.nextChar.emitDent = lex.emitDent := congrArg Kept.emitDent (nextChar_kept lex)
@[simp] theorem nextChar_nestedBracketLevel : lex.nextChar.nestedBracketLevel = lex.nestedBracketLevel := congrArg Kept.nestedBracketLevel (nextChar_kept lex)
@[simp] theorem nextChar_indentLevel : lex.nextChar.indentLevel = lex.indentLevel := congrArg Kept.indentLevel (nextChar_kept lex)

end

section
variable {lex : Lexer} {c d : Nat} {l : List Nat}

theorem position_eq : lex.position = { lex with line := lex.position.line, column := lex.position.column } := by
  unfold position
  split
  · rfl
  · split
    · rfl
    · rfl

theorem fed_window (hidx : lex.fstringArgsIdx = 0) : lex.fed.joinCr.endWithNewline.window = lex.window.next ∧
    lex.fed.joinCr.endWithNewline.fstringArgsIdx = 0 ∧ lex.fed.joinCr.endWithNewline.fstringArgs = lex.fstringArgs := by
  have heof : eof ≠ 13 ∧ eof ≠ 10 := by decide
  have hfed : lex.fed = { lex with chr0 := lex.chr1, chr1 := lex.chr2 }.read := if_neg (not_not.mpr hidx)
  rw [hfed]
  obtain ⟨stream, c0, c1, c2, s0, s1, s2, line, column, dent, level, levels, tline, tcolumn, kind, vstr, args, idx, raised, stuck⟩ := lex
  change idx = 0 at hidx
  subst hidx
  cases stream with
  | nil =>
    by_cases hcr : c2 = 13
    · subst hcr
      simp [read, joinCr, endWithNewline, window, Window.next, heof.2]
    · by_cases hend : c2 ≠ eof ∧ c2 ≠ 10
      · simp [read, joinCr, endWithNewline, window, Window.next, hcr, hend]
      · by_cases h2 : c2 = eof
        · subst h2
          simp [read, joinCr, endWithNewline, window, Window.next, heof.1]
        · obtain rfl : c2 = 10 := by
            by_contra hlf
            exact hend ⟨h2, hlf⟩
          simp [read, joinCr, endWithNewline, window, Window.next]
  | cons b s =>
    have hb := byte_ne_eof b
    by_cases hcr : c2 = 13
    · subst hcr
      by_cases hlf : b.toNat = 10
      · cases s with
        | nil => simp [read, joinCr, endWithNewline, window, Window.next, Window.fill, hlf]
        | cons b' s => simp [read, joinCr, endWithNewline, window, Window.next, Window.fill, hlf]
      · simp [read, joinCr, endWithNewline, window, Window.next, hlf, hb]
    · simp [read, joinCr, endWithNewline, window, Window.next, hcr, hb]

theorem nextChar_window (hidx : lex.fstringArgsIdx = 0) :
    lex.nextChar.window = lex.window.next ∧ lex.nextChar.fstringArgsIdx = 0 ∧ lex.nextChar.fstringArgs = lex.fstringArgs := by
  have hpos := @position_eq lex
  have hwindow : lex.position.window = lex.window := by rw [hpos]; rfl
  have hargs : lex.position.fstringArgs = lex.fstringArgs := by rw [hpos]
  have hidx' : lex.position.fstringArgsIdx = 0 := by rw [hpos]; exact hidx
  rw [nextChar_eq, ← hwindow, ← hargs]
  exact fed_window hidx'

/-! ## Rows of a lexer -/

/-- The row of characters that a lexer is at the start of, outside of f-string arguments. -/
structure At (lex : Lexer) (l : List Nat) : Prop where
  row : lex.window.Row l
  idx : lex.fstringArgsIdx = 0

namespace At

theorem next (h : lex.At (c :: l)) : lex.nextChar.At l := by
  obtain ⟨hnext, hidx, -⟩ := nextChar_window h.idx
  exact ⟨by rw [hnext]; exact h.row.next, hidx⟩

theorem next_args (h : lex.At l) : lex.nextChar.fstringArgs = lex.fstringArgs := (nextChar_window h.idx).2.2

theorem next_line (h : lex.At (c :: l)) : lex.nextChar.line = lex.line + if c = 10 then 1 else 0 := by
  have hchr : lex.chr0 = c := h.row.chr0
  rw [(nextChar_place lex).1]
  unfold position
  rw [hchr]
  split
  · rfl
  · split
    · rfl
    · rfl

theorem congr {lex' : Lexer} (h : lex.At l) (hwindow : lex'.window = lex.window) (hidx : lex'.fstringArgsIdx = lex.fstringArgsIdx) : lex'.At l :=
  ⟨by rw [hwindow]; exact h.row, hidx.trans h.idx⟩

theorem chr0_nil (h : lex.At []) : lex.chr0 = eof := h.row.chr0_nil
theorem chr0 (h : lex.At (c :: l)) : lex.chr0 = c := h.row.chr0
theorem chr1 (h : lex.At (c :: d :: l)) : lex.chr1 = d := h.row.chr1

end At

theorem first_row (source : List UInt8) : (Window.next ⟨0, 0, 0, source⟩).Row (0 :: 0 :: chars source) := by
  have hzero : 0 ≠ eof := by decide
  cases source with
  | nil => exact ⟨rfl, rfl, fun h => absurd h (by decide), rfl⟩
  | cons b s => exact ⟨rfl, rfl, fun h => absurd h (byte_ne_eof b), congrArg logical (Window.pending_byte b s).symm⟩

/-- What the lexer is before it has read a character of the source. -/
def blank (source : List UInt8) : Lexer where
  stream := source
  chr0 := 0
  chr1 := 0
  chr2 := 0
  chr0Saved := 0
  chr1Saved := 0
  chr2Saved := 0
  line := 1
  column := -2
  emitDent := 0
  nestedBracketLevel := 0
  indentLevel := [0]
  tokLine := 0
  tokColumn := 0
  tokKind := .end
  vstr := []
  fstringArgs := []
  fstringArgsIdx := 0
  raised := false
  stuck := false

theorem start_eq (source : List UInt8) : start source = (blank source).nextChar.nextChar.nextChar := rfl

theorem blank_next (source : List UInt8) : (blank source).nextChar.At (0 :: 0 :: chars source) := by
  obtain ⟨hnext, hidx, -⟩ := @nextChar_window (blank source) rfl
  exact ⟨by rw [hnext]; exact first_row source, hidx⟩

theorem start_at (source : List UInt8) : (start source).At (chars source) := (blank_next source).next.next

theorem start_emitDent (source : List UInt8) : (start source).emitDent = 0 := by simp only [start_eq, nextChar_emitDent]; rfl
theorem start_nestedBracketLevel (source : List UInt8) : (start source).nestedBracketLevel = 0 := by simp only [start_eq, nextChar_nestedBracketLevel]; rfl
theorem start_indentLevel (source : List UInt8) : (start source).indentLevel = [0] := by simp only [start_eq, nextChar_indentLevel]; rfl
theorem start_raised (source : List UInt8) : (start source).raised = false := by simp only [start_eq, nextChar_raised]; rfl
theorem start_stuck (source : List UInt8) : (start source).stuck = false := by simp only [start_eq, nextChar_stuck]; rfl

theorem start_args (source : List UInt8) : (start source).fstringArgs = [] := by
  rw [start_eq, (blank_next source).next.next_args, (blank_next source).next_args]
  exact (@nextChar_window (blank source) rfl).2.2

theorem start_place (source : List UInt8) : (start source).line = 1 ∧ (start source).column = 1 := by
  have hzero : ∀ lex : Lexer, lex.chr0 = 0 → lex.nextChar.line = lex.line ∧ lex.nextChar.column = lex.column + 1 := by
    intro lex hchr
    rw [(nextChar_place lex).1, (nextChar_place lex).2]
    unfold position
    rw [hchr]
    exact ⟨rfl, rfl⟩
  have h0 := hzero (blank source) rfl
  have h1 := hzero _ (blank_next source).chr0
  have h2 := hzero _ (blank_next source).next.chr0
  rw [start_eq, h2.1, h2.2, h1.1, h1.2, h0.1, h0.2]
  exact ⟨rfl, rfl⟩

/-! ## Steps through a row -/

/-- From `lex` to `lex'` characters are taken, and bytes added to the token; the state is otherwise
as it was. -/
structure Reads (lex : Lexer) (used : List Nat) (out : List UInt8) (lex' : Lexer) (rest : List Nat) : Prop where
  at_rest : lex'.At rest
  kept : lex'.kept = { lex.kept with vstr := lex.vstr ++ out }
  args : lex'.fstringArgs = lex.fstringArgs
  line : lex'.line = lex.line + used.count 10

namespace Reads

variable {lex' lex'' : Lexer} {used used' rest rest' : List Nat} {out out' : List UInt8}

theorem refl (h : lex.At rest) : Reads lex [] [] lex rest := ⟨h, by rw [List.append_nil]; rfl, rfl, rfl⟩

theorem trans (h : Reads lex used out lex' rest) (h' : Reads lex' used' out' lex'' rest') : Reads lex (used ++ used') (out ++ out') lex'' rest' := by
  have hvstr : lex'.vstr = lex.vstr ++ out := congrArg Kept.vstr h.kept
  refine ⟨h'.at_rest, ?_, h'.args.trans h.args, ?_⟩
  · rw [h'.kept, h.kept, hvstr, List.append_assoc]
  · rw [h'.line, h.line, List.count_append, Nat.add_assoc]

theorem tokKind (h : Reads lex used out lex' rest) : lex'.tokKind = lex.tokKind := congrArg Kept.tokKind h.kept
theorem raised (h : Reads lex used out lex' rest) : lex'.raised = lex.raised := congrArg Kept.raised h.kept
theorem stuck (h : Reads lex used out lex' rest) : lex'.stuck = lex.stuck := congrArg Kept.stuck h.kept
theorem vstr (h : Reads lex used out lex' rest) : lex'.vstr = lex.vstr ++ out := congrArg Kept.vstr h.kept

end Reads

theorem reads_next (h : lex.At (c :: l)) : Reads lex [c] [] lex.nextChar l := by
  refine ⟨h.next, ?_, h.next_args, ?_⟩
  · rw [nextChar_kept, List.append_nil]
    rfl
  · rw [h.next_line, List.count_singleton]
    by_cases hc : c = 10
    · rw [if_pos hc, if_pos (beq_iff_eq.mpr hc)]
    · rw [if_neg hc, if_neg (fun h => hc (beq_iff_eq.mp h))]

theorem reads_add (h : lex.At l) (out : List UInt8) : Reads lex [] out { lex with vstr := lex.vstr ++ out } l := ⟨h.congr rfl rfl, rfl, rfl, rfl⟩

/-- A row is no longer than what a loop has turns for. -/
theorem logical_length (l : List Nat) : (logical l).length ≤ l.length + 1 := by
  have hunix : ∀ n, ∀ l : List Nat, l.length ≤ n → (unixNewlines l).length ≤ l.length := by
    intro n
    induction n with
    | zero =>
      intro l hl
      rw [List.eq_nil_of_length_eq_zero (Nat.le_zero.mp hl)]
      exact Nat.le_refl _
    | succ n ih =>
      intro l hl
      cases l with
      | nil => exact Nat.le_refl _
      | cons c l =>
        cases l with
        | nil => exact Nat.le_refl _
        | cons d l =>
          rw [List.length_cons] at hl
          have htail := ih (d :: l) (by omega)
          have hrest := ih l (by rw [List.length_cons] at hl; omega)
          rw [unixNewlines_cons]
          split
          · split
            · rw [List.length_cons, List.length_cons, List.length_cons]
              omega
            · rw [List.length_cons, List.length_cons]
              omega
          · rw [List.length_cons, List.length_cons]
            omega
  have hended : ∀ l : List Nat, (ended l).length ≤ l.length + 1 := by
    intro l
    induction l with
    | nil => exact Nat.zero_le _
    | cons c l ih =>
      cases l with
      | nil =>
        rw [ended]
        split
        · exact Nat.le_succ 1
        · exact Nat.le_refl _
      | cons d l =>
        rw [ended, List.length_cons, List.length_cons]
        omega
  exact Nat.le_trans (hended _) (Nat.add_le_add_right (hunix _ l (Nat.le_refl _)) 1)

theorem At.length_le (h : lex.At l) : l.length < lex.fuel - 3 := by
  have hrow := h.row
  unfold fuel
  cases l with
  | nil =>
    rw [List.length_nil]
    omega
  | cons c l =>
    cases l with
    | nil =>
      rw [List.length_singleton]
      omega
    | cons d l =>
      obtain ⟨-, -, hend, hl⟩ := hrow
      have hlen : l.length ≤ lex.window.pending.length + 1 := by
        rw [hl]
        exact logical_length _
      have hpending : lex.window.pending.length ≤ lex.stream.length + 1 := by
        unfold Window.pending
        split
        · exact Nat.zero_le _
        · rw [List.length_cons, List.length_map]
          exact Nat.le_refl _
      rw [List.length_cons, List.length_cons]
      omega

end

end PythonUltra.Py.Lexer
