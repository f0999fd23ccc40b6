/-
  PythonUltra.Py.LexerLiteral — a literal without prefix or with b, in one pair of quotes
  (py/lexer.c).

  Between its quotes is a row of pieces, each of which the loop of parse_string_literal takes in
  one turn (`Piece`): a character that stands for itself, or an escape.
-/

import PythonUltra.Py.LexerQueue

namespace PythonUltra.Py.Lexer

variable {lex : Lexer} {c d : Nat} {l rest : List Nat}

/-! ## The character at hand -/

theorem At.isChar (h : lex.At (c :: l)) (k : Char) : lex.isChar k = (c == k.toNat) := by
  unfold Lexer.isChar
  rw [h.chr0]

theorem At.isEnd (h : lex.At (c :: l)) : lex.isEnd = (c == eof) := by
  unfold Lexer.isEnd
  rw [h.chr0]

theorem At.isPhysicalNewline (h : lex.At (c :: l)) : lex.isPhysicalNewline = (c == 10) := by
  unfold Lexer.isPhysicalNewline
  rw [h.chr0]

theorem At.end_of_nil (h : lex.At []) : lex.isEnd = true := beq_iff_eq.mpr h.chr0_nil

theorem At.of_eq {l' : List Nat} (h : lex.At l) (hl : l = l') : lex.At l' := hl ▸ h

/-! ## Escapes -/

/-- The characters of an escape up to its last, for `v`. -/
def Escape (kind : TokenKind) (t : List UInt8) (v : Nat) : Prop :=
  ∀ (lex : Lexer) (rest : List Nat), lex.At (t.map UInt8.toNat ++ rest) → lex.tokKind = kind →
    ∃ used last lex', lex.unescape = (v, lex') ∧ used ++ [last] = t.map UInt8.toNat ∧ Reads lex used [] lex' (last :: rest)

theorem Escape.of_char {kind : TokenKind} {x : UInt8} {v : Nat} (h : ∀ lex : Lexer, lex.chr0 = x.toNat → lex.unescape = (v, lex)) : Escape kind [x] v :=
  fun lex _ hat _ => ⟨[], x.toNat, lex, h lex hat.chr0, rfl, .refl hat⟩

theorem getHex_reads (digits : List UInt8) (hdigits : ∀ d ∈ digits, isXdigit d.toNat = true) (num : Nat) {lex : Lexer}
    (h : lex.At (c :: (digits.map UInt8.toNat ++ rest))) :
    ∃ used last lex', lex.getHex digits.length num = (some (digits.foldl (fun num d => num <<< 4 + xdigitValue d.toNat) num), lex') ∧
      used ++ [last] = c :: digits.map UInt8.toNat ∧ Reads lex used [] lex' (last :: rest) := by
  induction digits generalizing c num lex with
  | nil => exact ⟨[], c, lex, rfl, rfl, .refl h⟩
  | cons x digits ih =>
    have hx : isXdigit lex.nextChar.chr0 = true := by
      rw [h.next.chr0]
      exact hdigits x List.mem_cons_self
    obtain ⟨used, last, lex', hget, hused, hreads⟩ := ih (fun d hd => hdigits d (List.mem_cons_of_mem x hd)) (num <<< 4 + xdigitValue x.toNat) h.next
    refine ⟨c :: used, last, lex', ?_, by rw [List.cons_append, hused, List.map_cons], (reads_next h).trans hreads⟩
    rw [List.length_cons, getHex, if_pos hx, h.next.chr0, hget, List.foldl_cons]

theorem Escape.of_hex {kind : TokenKind} {x : UInt8} {digits : List UInt8} (hdigits : ∀ d ∈ digits, isXdigit d.toNat = true)
    (h : ∀ lex : Lexer, lex.chr0 = x.toNat → lex.tokKind = kind → lex.unescape = lex.hexEscape digits.length) :
    Escape kind (x :: digits) (digits.foldl (fun num d => num <<< 4 + xdigitValue d.toNat) 0) := by
  intro lex rest hat hkind
  obtain ⟨used, last, lex', hget, hused, hreads⟩ := getHex_reads digits hdigits 0 hat
  refine ⟨used, last, lex', ?_, hused, hreads⟩
  rw [h lex hat.chr0 hkind, hexEscape, hget]

/-! ## Pieces -/

/-- `t`, which does not start with the quote, is taken in a turn, for `out`. -/
structure Piece (quote : Char) (kind : TokenKind) (t out : List UInt8) : Prop where
  head : ∃ b s, t = b :: s ∧ b.toNat ≠ quote.toNat
  turn : ∀ (lex : Lexer) (rest : List Nat) (fuel : Nat), lex.At (t.map UInt8.toNat ++ rest) → lex.tokKind = kind → lex.raised = false →
    ∃ lex', literalLoop quote 1 false false (fuel + 1) 0 lex = literalLoop quote 1 false false fuel 0 lex' ∧ Reads lex (t.map UInt8.toNat) out lex' rest

theorem literalChar_eq (isRaw : Bool) (lex : Lexer) :
    lex.literalChar isRaw false = if lex.isChar '\\' then lex.escape isRaw else lex.addByte lex.chr0 := rfl

theorem literal_turn {quote : Char} {isRaw isFstring : Bool} {fuel : Nat} {b : UInt8} (h : lex.At (b.toNat :: l)) (hlf : b.toNat ≠ 10)
    (hquote : b.toNat ≠ quote.toNat) (hraised : (lex.literalChar isRaw isFstring).raised = false) :
    literalLoop quote 1 isRaw isFstring (fuel + 1) 0 lex = literalLoop quote 1 isRaw isFstring fuel 0 (lex.literalChar isRaw isFstring).nextChar := by
  have hrun : (!lex.isEnd && (decide (1 > 1) || !lex.isPhysicalNewline) && decide (0 < 1)) = true := by
    rw [h.isEnd, h.isPhysicalNewline]
    simp [byte_ne_eof b, hlf]
  have hno : ¬ lex.isChar quote = true := by
    rw [h.isChar]
    simp [hquote]
  rw [literalLoop, if_pos hrun, if_neg hno]
  dsimp only
  rw [if_neg (by rw [hraised]; decide)]

/-- A character that stands for itself. -/
theorem Piece.plain {quote : Char} {kind : TokenKind} {b : UInt8} (hlf : b.toNat ≠ 10) (hquote : b.toNat ≠ quote.toNat) (hback : b.toNat ≠ '\\'.toNat) :
    Piece quote kind [b] [b] where
  head := ⟨b, [], rfl, hquote⟩
  turn := by
    intro lex rest fuel hat hkind hraised
    have hno : ¬ lex.isChar '\\' = true := by
      rw [hat.isChar]
      simpa using hback
    have hchar : lex.literalChar false false = { lex with vstr := lex.vstr ++ [b] } := by
      have hb : UInt8.ofNat lex.chr0 = b := by rw [hat.chr0, UInt8.ofNat_toNat]
      rw [literalChar_eq, if_neg hno]
      unfold addByte
      rw [hb]
    have hadd := reads_add hat [b]
    refine ⟨_, literal_turn hat hlf hquote (by rw [hchar]; exact hraised), ?_⟩
    rw [hchar]
    exact hadd.trans (reads_next hadd.at_rest)

/-- What is added for the character of an escape. -/
inductive Escaped : TokenKind → Nat → List UInt8 → Prop
  | string {v : Nat} : v < 0x110000 → Escaped .string v (utf8 v)
  | bytes {v : Nat} : v < 0x100 → Escaped .bytes v [UInt8.ofNat v]

theorem Escaped.add {kind : TokenKind} {v : Nat} {out : List UInt8} (h : Escaped kind v out) (hkind : lex.tokKind = kind) :
    addEscaped v lex = { lex with vstr := lex.vstr ++ out } := by
  unfold addEscaped eof
  cases h with
  | string hv =>
    rw [if_neg (by omega), if_pos ⟨hv, hkind⟩]
    rfl
  | bytes hv =>
    have hno : ¬ (v < 0x110000 ∧ lex.tokKind = .string) := by
      intro hn
      rw [hkind] at hn
      exact absurd hn.2 (by decide)
    rw [if_neg (by omega), if_neg hno, if_pos ⟨hv, hkind⟩]
    rfl

/-- A backslash and an escape. -/
theorem Piece.escape {quote : Char} {kind : TokenKind} {t out : List UInt8} {v : Nat} (ht : Escape kind t v) (hv : Escaped kind v out)
    (hquote : '\\'.toNat ≠ quote.toNat) : Piece quote kind ('\\'.toUInt8 :: t) out where
  head := ⟨_, t, rfl, hquote⟩
  turn := by
    intro lex rest fuel hat hkind hraised
    have hnext := reads_next (c := '\\'.toUInt8.toNat) hat
    obtain ⟨used, last, lex', hun, hused, hreads⟩ := ht lex.nextChar rest hnext.at_rest (hnext.tokKind.trans hkind)
    have hraised' : lex'.raised = false := (hreads.raised.trans hnext.raised).trans hraised
    have hchar : lex.literalChar false false = { lex' with vstr := lex'.vstr ++ out } := by
      have hback : lex.isChar '\\' = true := by
        rw [hat.isChar]
        decide
      rw [literalChar_eq, if_pos hback]
      unfold Lexer.escape
      dsimp only
      rw [if_neg (by decide), hun]
      dsimp only
      rw [if_neg (by rw [hraised']; decide)]
      exact hv.add ((hreads.tokKind.trans hnext.tokKind).trans hkind)
    refine ⟨_, literal_turn (b := '\\'.toUInt8) hat (by decide) hquote (by rw [hchar]; exact hraised'), ?_⟩
    have hadd := reads_add hreads.at_rest out
    have hall := ((hnext.trans hreads).trans hadd).trans (reads_next hadd.at_rest)
    rw [hchar]
    have hrow : [('\\'.toUInt8).toNat] ++ used ++ [] ++ [last] = ('\\'.toUInt8 :: t).map UInt8.toNat := by
      rw [List.append_nil, List.append_assoc, hused]
      rfl
    rw [hrow] at hall
    rw [List.nil_append, List.nil_append, List.append_nil] at hall
    exact hall

/-- The pieces between the quotes, one after the other. -/
theorem literal_run {α : Type} {quote : Char} {kind : TokenKind} {printed meant : α → List UInt8} (xs : List α)
    (hxs : ∀ x ∈ xs, Piece quote kind (printed x) (meant x)) {lex : Lexer} (fuel : Nat) (hat : lex.At ((xs.flatMap printed).map UInt8.toNat ++ rest))
    (hkind : lex.tokKind = kind) (hraised : lex.raised = false) :
    ∃ lex', literalLoop quote 1 false false (fuel + xs.length) 0 lex = literalLoop quote 1 false false fuel 0 lex' ∧
      Reads lex ((xs.flatMap printed).map UInt8.toNat) (xs.flatMap meant) lex' rest := by
  induction xs generalizing lex with
  | nil => exact ⟨lex, rfl, .refl hat⟩
  | cons x xs ih =>
    rw [List.flatMap_cons, List.map_append, List.append_assoc] at hat
    obtain ⟨lex', hturn, hreads⟩ := (hxs x List.mem_cons_self).turn lex _ (fuel + xs.length) hat hkind hraised
    obtain ⟨lex'', hrun, hreads'⟩ :=
      ih (fun y hy => hxs y (List.mem_cons_of_mem x hy)) hreads.at_rest (hreads.tokKind.trans hkind) (hreads.raised.trans hraised)
    refine ⟨lex'', ?_, ?_⟩
    · rw [List.length_cons, ← Nat.add_assoc, hturn, hrun]
    · rw [List.flatMap_cons, List.map_append, List.flatMap_cons]
      exact hreads.trans hreads'

/-! ## A literal -/

/-- The quotes that end a literal: the turn in which one is counted is the last. -/
theorem literal_close {quote : Char} (hquote : quote = '"' ∨ quote = '\'') (fuel : Nat) (h : lex.At (quote.toNat :: l)) :
    literalLoop quote 1 false false (fuel + 2) 0 lex = (1, ({ lex with vstr := lex.vstr ++ [quote.toUInt8] } : Lexer).nextChar) := by
  have hplain : quote.toNat ≠ 10 ∧ quote.toNat ≠ eof ∧ utf8 quote.toNat = [quote.toUInt8] := by
    rcases hquote with rfl | rfl
    · decide
    · decide
  have hrun : (!lex.isEnd && (decide (1 > 1) || !lex.isPhysicalNewline) && decide (0 < 1)) = true := by
    rw [h.isEnd, h.isPhysicalNewline]
    simp [hplain.1, hplain.2.1]
  have hyes : lex.isChar quote = true := by
    rw [h.isChar]
    exact beq_self_eq_true _
  have hadd : lex.addChar lex.chr0 = { lex with vstr := lex.vstr ++ [quote.toUInt8] } := by
    have hq : utf8 lex.chr0 = [quote.toUInt8] := by rw [h.chr0, hplain.2.2]
    unfold addChar
    rw [hq]
  rw [literalLoop, if_pos hrun, if_pos hyes, hadd, literalLoop]
  exact if_neg (by simp)

theorem Reads.cut {lex' : Lexer} {used : List Nat} {out : List UInt8} {b : UInt8} (h : Reads lex used (out ++ [b]) lex' rest) :
    Reads lex used out { lex' with vstr := lex'.vstr.take (lex'.vstr.length - 1) } rest := by
  have hcut : lex'.vstr.take (lex'.vstr.length - 1) = lex.vstr ++ out := by
    rw [h.vstr, ← List.append_assoc, List.length_append, List.length_singleton, Nat.add_sub_cancel, List.take_left']
    rfl
  have hkept : ({ lex' with vstr := lex'.vstr.take (lex'.vstr.length - 1) } : Lexer).kept =
      { lex'.kept with vstr := lex'.vstr.take (lex'.vstr.length - 1) } := rfl
  refine ⟨h.at_rest.congr rfl rfl, ?_, h.args, h.line⟩
  rw [hkept, hcut, h.kept]

theorem parseStringLiteral_single {quote : Char} {lex' : Lexer} (hquote : (if lex.isChar '"' then '"' else '\'') = quote)
    (hsingle : lex.nextChar.isCharAnd quote quote = false) (hrun : literalLoop quote 1 false false lex.nextChar.fuel 0 lex.nextChar = (1, lex'))
    (hraised : lex'.raised = false) :
    lex.parseStringLiteral false false = { lex' with vstr := lex'.vstr.take (lex'.vstr.length - 1) } := by
  unfold parseStringLiteral
  simp [hquote, hsingle, hrun, hraised]

theorem quote_of_isChar {quote : Char} (hquote : quote = '"' ∨ quote = '\'') (h : lex.At (quote.toNat :: l)) :
    (if lex.isChar '"' then '"' else '\'') = quote := by
  rw [h.isChar]
  rcases hquote with rfl | rfl
  · decide
  · decide

/-- A literal of pieces in one pair of quotes. -/
theorem parseStringLiteral_reads {α : Type} {quote : Char} {kind : TokenKind} {printed meant : α → List UInt8} (hquote : quote = '"' ∨ quote = '\'')
    (xs : List α) (hxs : ∀ x ∈ xs, Piece quote kind (printed x) (meant x)) (hd : d ≠ quote.toNat)
    (hat : lex.At (quote.toNat :: ((xs.flatMap printed).map UInt8.toNat ++ quote.toNat :: d :: rest))) (hkind : lex.tokKind = kind)
    (hraised : lex.raised = false) :
    ∃ used, Reads lex used (xs.flatMap meant) (lex.parseStringLiteral false false) (d :: rest) := by
  have hopen := reads_next hat
  have hsingle : lex.nextChar.isCharAnd quote quote = false := by
    unfold isCharAnd
    cases xs with
    | nil =>
      have h1 : lex.nextChar.chr1 = d := hopen.at_rest.chr1
      rw [h1, Bool.and_eq_false_iff]
      exact .inr (beq_eq_false_iff_ne.mpr hd)
    | cons x xs =>
      obtain ⟨b, s, heq, hb⟩ := (hxs x List.mem_cons_self).head
      have h0 := hopen.at_rest
      rw [List.flatMap_cons, heq] at h0
      have hchr : lex.nextChar.chr0 = b.toNat := h0.chr0
      rw [hchr, Bool.and_eq_false_iff]
      exact .inl (beq_eq_false_iff_ne.mpr hb)
  obtain ⟨fuel, hfuel⟩ : ∃ fuel, lex.nextChar.fuel = fuel + 2 + xs.length := by
    have hlen := hopen.at_rest.length_le
    have hmany : xs.length ≤ ((xs.flatMap printed).map UInt8.toNat).length := by
      rw [List.length_map]
      clear hat hopen hsingle hlen
      induction xs with
      | nil => exact Nat.le_refl 0
      | cons x xs ih =>
        obtain ⟨b, s, heq, -⟩ := (hxs x List.mem_cons_self).head
        have htail := ih fun y hy => hxs y (List.mem_cons_of_mem x hy)
        rw [List.flatMap_cons, heq, List.length_append, List.length_cons, List.length_cons]
        omega
    rw [List.length_append, List.length_cons] at hlen
    exact ⟨lex.nextChar.fuel - (2 + xs.length), by omega⟩
  obtain ⟨lex', hrun, hbody⟩ := literal_run xs hxs (fuel + 2) hopen.at_rest (hopen.tokKind.trans hkind) (hopen.raised.trans hraised)
  have hadd := reads_add hbody.at_rest [quote.toUInt8]
  have hclose := reads_next hadd.at_rest
  have hall := (hopen.trans hbody).trans (hadd.trans hclose)
  have hnot : ({ lex' with vstr := lex'.vstr ++ [quote.toUInt8] } : Lexer).nextChar.raised = false := by rw [hall.raised, hraised]
  rw [List.nil_append, List.append_nil] at hall
  refine ⟨[quote.toNat] ++ (xs.flatMap printed).map UInt8.toNat ++ ([] ++ [quote.toNat]), ?_⟩
  rw [parseStringLiteral_single (quote_of_isChar hquote hat) hsingle (by rw [hfuel, hrun, literal_close hquote fuel hbody.at_rest]) hnot]
  exact hall.cut

/-! ## White space -/

/-- There is no white space at a character that is none. -/
theorem skip_none (stop : Bool) (h : lex.At (c :: l)) (heof : c ≠ eof) (hspace : isSpace c = false) (hhash : c ≠ '#'.toNat) (hback : c ≠ '\\'.toNat) :
    lex.skipWhitespace stop = (false, lex) := by
  have hnewline : c ≠ 10 := by
    rintro rfl
    cases hspace
  have hslash : lex.isCharAnd '\\' '\n' = false := by
    unfold isCharAnd
    rw [h.chr0]
    simp only [Bool.and_eq_false_iff]
    exact .inl (beq_eq_false_iff_ne.mpr hback)
  have hend : lex.isEnd = false := by rw [h.isEnd]; exact beq_eq_false_iff_ne.mpr heof
  have hline : lex.isPhysicalNewline = false := by rw [h.isPhysicalNewline]; exact beq_eq_false_iff_ne.mpr hnewline
  have hcomment : lex.isChar '#' = false := by rw [h.isChar]; exact beq_eq_false_iff_ne.mpr hhash
  have hchr : isSpace lex.chr0 = false := by rw [h.chr0]; exact hspace
  unfold skipWhitespace fuel
  rw [skipLoop]
  simp [hend, hline, hcomment, hchr, hslash]

theorem skipLoop_end (stop : Bool) (fuel : Nat) (hend : lex.isEnd = true) : skipLoop stop (fuel + 1) lex = (false, lex) := if_pos hend

theorem skipLoop_line (stop : Bool) (fuel : Nat) (h : lex.At (10 :: l)) : skipLoop stop (fuel + 1) lex =
    if stop ∧ lex.nestedBracketLevel = 0 then (true, lex) else skipLoop stop fuel lex.nextChar := by
  have hend : ¬ lex.isEnd = true := by rw [h.isEnd]; decide
  have hline : lex.isPhysicalNewline = true := by rw [h.isPhysicalNewline]; decide
  exact (if_neg hend).trans (if_pos hline)

theorem skip_newline (h : lex.At (10 :: l)) (hlevel : lex.nestedBracketLevel = 0) : lex.skipWhitespace true = (true, lex) :=
  (skipLoop_line true _ h).trans (if_pos ⟨rfl, hlevel⟩)

theorem skip_end (stop : Bool) (h : lex.At []) : lex.skipWhitespace stop = (false, lex) := skipLoop_end stop _ h.end_of_nil

theorem skip_last (h : lex.At [10]) : lex.skipWhitespace false = (false, lex.nextChar) :=
  ((skipLoop_line false _ h).trans (if_neg fun hstop => absurd hstop.1 Bool.false_ne_true)).trans (skipLoop_end false _ h.next.end_of_nil)

/-! ## Its token -/

/-- The letters before a literal, for its kind. -/
inductive Lead : List UInt8 → TokenKind → Prop
  | string : Lead [] .string
  | bytes : Lead ['b'.toUInt8] .bytes

/-- Where a token starts. -/
def opened (lex : Lexer) (kind : TokenKind) : Lexer := { lex with vstr := [], tokLine := lex.line, tokColumn := lex.column, tokKind := kind }

@[simp] theorem opened_tokKind (lex : Lexer) (kind : TokenKind) : (lex.opened kind).tokKind = kind := rfl
@[simp] theorem opened_raised (lex : Lexer) (kind : TokenKind) : (lex.opened kind).raised = lex.raised := rfl
@[simp] theorem opened_stuck (lex : Lexer) (kind : TokenKind) : (lex.opened kind).stuck = lex.stuck := rfl

/-- What a token leaves as it was, and what it is. -/
structure Frame (lex : Lexer) (kind : TokenKind) (text : List UInt8) (lex' : Lexer) : Prop where
  tokKind : lex'.tokKind = kind
  vstr : lex'.vstr = text
  tokColumn : lex'.tokColumn = lex.column
  args : lex'.fstringArgs = lex.fstringArgs
  emitDent : lex'.emitDent = lex.emitDent
  nestedBracketLevel : lex'.nestedBracketLevel = lex.nestedBracketLevel
  indentLevel : lex'.indentLevel = lex.indentLevel
  raised : lex'.raised = lex.raised
  stuck : lex'.stuck = lex.stuck

theorem Reads.frame {lex' : Lexer} {kind : TokenKind} {used : List Nat} {text : List UInt8} (h : Reads (lex.opened kind) used text lex' rest) :
    Frame lex kind text lex' where
  tokKind := h.tokKind
  vstr := h.vstr
  tokColumn := congrArg Kept.tokColumn h.kept
  args := h.args
  emitDent := congrArg Kept.emitDent h.kept
  nestedBracketLevel := congrArg Kept.nestedBracketLevel h.kept
  indentLevel := congrArg Kept.indentLevel h.kept
  raised := h.raised
  stuck := h.stuck

theorem stringLoop_single {lex' : Lexer} {kind : TokenKind} {nChar : Nat} (hcode : lex.typeCode = (false, false, kind, nChar)) (hend : lex.tokKind = .end)
    (hopen : (if nChar ≠ 0 then ({ lex with tokKind := kind } : Lexer).nextChar else { lex with tokKind := kind }) = lex') (htwo : nChar ≠ 2)
    (hraised : (lex'.parseStringLiteral false false).raised = false)
    (hskip : ((lex'.parseStringLiteral false false).skipWhitespace true).2 = lex'.parseStringLiteral false false)
    (hlast : (lex'.parseStringLiteral false false).isStringOrBytes = false) (fuel : Nat) :
    stringLoop (fuel + 1) lex = lex'.parseStringLiteral false false := by
  rw [stringLoop, hcode]
  dsimp only
  rw [if_neg (fun h => h.1 hend), hopen, if_neg htwo, if_neg (by rw [hraised]; exact Bool.false_ne_true), hskip,
    if_neg (by rw [hlast]; exact Bool.false_ne_true)]

theorem At.not_string (h : lex.At (10 :: l)) : lex.isStringOrBytes = false := by
  unfold isStringOrBytes isCharAnd Lexer.isChar
  rw [h.chr0]
  rfl

theorem begin_none (hargs : lex.fstringArgs = []) : lex.beginInjection = lex := by
  unfold beginInjection
  rw [if_neg fun h => h.1 hargs]

section
variable {α : Type} {quote : Char} {kind : TokenKind} {lead : List UInt8} {printed meant : α → List UInt8} {xs : List α}

/-- At a literal outside of brackets and f-string arguments. -/
theorem toNext_string (optimise : Nat) (hargs : lex.fstringArgs = []) (hdent : lex.emitDent = 0)
    (hskip : ({ lex with vstr := [] } : Lexer).skipWhitespace true = (false, { lex with vstr := [] })) (hend : lex.isEnd = false)
    (hstring : lex.isStringOrBytes = true) : lex.toNext optimise = stringLoop lex.fuel (lex.opened .end) := by
  unfold toNext
  rw [begin_none hargs]
  dsimp only
  rw [hskip]
  dsimp only
  rw [if_neg (by rw [hdent]; decide), if_neg (by rw [hdent]; decide), if_neg Bool.false_ne_true]
  have hend' : ¬ ({ lex with vstr := [], tokLine := lex.line, tokColumn := lex.column } : Lexer).isEnd = true := by
    rw [Bool.not_eq_true]
    exact hend
  have hstring' : ({ lex with vstr := [], tokLine := lex.line, tokColumn := lex.column } : Lexer).isStringOrBytes = true := hstring
  rw [if_neg hend', if_pos hstring']
  rfl

/-- The literal as a token, the line's newline being next. -/
theorem toNext_literal (optimise : Nat) (hlead : Lead lead kind) (hquote : quote = '"' ∨ quote = '\'')
    (hxs : ∀ x ∈ xs, Piece quote kind (printed x) (meant x))
    (hat : lex.At (lead.map UInt8.toNat ++ quote.toNat :: ((xs.flatMap printed).map UInt8.toNat ++ quote.toNat :: 10 :: rest)))
    (hargs : lex.fstringArgs = []) (hdent : lex.emitDent = 0) (hlevel : lex.nestedBracketLevel = 0) (hraised : lex.raised = false) :
    ∃ used, Reads (lex.opened kind) used (xs.flatMap meant) (lex.toNext optimise) (10 :: rest) := by
  have hnewline : 10 ≠ quote.toNat := by
    rcases hquote with rfl | rfl
    · decide
    · decide
  -- what the loop over literals does from the quote on
  have hbody : ∀ (lex' : Lexer) (used : List Nat), Reads (lex.opened kind) used [] lex' (quote.toNat :: ((xs.flatMap printed).map UInt8.toNat ++ quote.toNat :: 10 :: rest)) →
      ∃ used, Reads (lex.opened kind) used (xs.flatMap meant) (lex'.parseStringLiteral false false) (10 :: rest) ∧
        (lex'.parseStringLiteral false false).raised = false ∧
        ((lex'.parseStringLiteral false false).skipWhitespace true).2 = lex'.parseStringLiteral false false ∧
        (lex'.parseStringLiteral false false).isStringOrBytes = false := by
    intro lex' used hopen
    obtain ⟨used', hreads⟩ := parseStringLiteral_reads hquote xs hxs hnewline hopen.at_rest hopen.tokKind (hopen.raised.trans hraised)
    have hall := hopen.trans hreads
    rw [List.nil_append] at hall
    have hlevel' : (lex'.parseStringLiteral false false).nestedBracketLevel = 0 := (congrArg Kept.nestedBracketLevel hall.kept).trans hlevel
    exact ⟨used ++ used', hall, hall.raised.trans hraised, by rw [skip_newline hall.at_rest hlevel'], hall.at_rest.not_string⟩
  cases hlead with
  | string =>
    have hchr : lex.chr0 = quote.toNat := hat.chr0
    have hvalue : quote.toNat ≠ eof ∧ isSpace quote.toNat = false ∧ quote.toNat ≠ '#'.toNat ∧ quote.toNat ≠ '\\'.toNat ∧ isQuote quote.toNat = true := by
      rcases hquote with rfl | rfl
      · decide
      · decide
    have hcode : (lex.opened .end).typeCode = (false, false, .string, 0) := by
      have hopened : (lex.opened .end).chr0 = quote.toNat := hchr
      unfold typeCode Lexer.isChar
      rw [hopened]
      rcases hquote with rfl | rfl
      · rfl
      · rfl
    have hskip : ({ lex with vstr := [] } : Lexer).skipWhitespace true = (false, { lex with vstr := [] }) :=
      skip_none true (hat.congr rfl rfl) hvalue.1 hvalue.2.1 hvalue.2.2.1 hvalue.2.2.2.1
    have hend : lex.isEnd = false := by
      rw [hat.isEnd]
      exact beq_eq_false_iff_ne.mpr hvalue.1
    have hstring : lex.isStringOrBytes = true := by
      unfold isStringOrBytes
      rw [hchr, hvalue.2.2.2.2]
      rfl
    obtain ⟨used, hreads, h1, h2, h3⟩ := hbody (lex.opened .string) [] (.refl (hat.congr rfl rfl))
    refine ⟨used, ?_⟩
    rw [toNext_string optimise hargs hdent hskip hend hstring]
    unfold fuel
    rw [stringLoop_single hcode rfl rfl (by decide) h1 h2 h3]
    exact hreads
  | bytes =>
    have hchr : lex.chr0 = 98 := hat.chr0
    have hchr1 : lex.chr1 = quote.toNat := hat.chr1
    have hcode : (lex.opened .end).typeCode = (false, false, .bytes, 1) := by
      have hopened : (lex.opened .end).chr0 = 98 := hchr
      have hopened1 : (lex.opened .end).chr1 = quote.toNat := hchr1
      unfold typeCode Lexer.isChar isCharFollowing
      rw [hopened, hopened1]
      rcases hquote with rfl | rfl
      · rfl
      · rfl
    have hskip : ({ lex with vstr := [] } : Lexer).skipWhitespace true = (false, { lex with vstr := [] }) :=
      skip_none (c := 98) true (hat.congr rfl rfl) (by decide) (by decide) (by decide) (by decide)
    have hend : lex.isEnd = false := by
      rw [hat.isEnd]
      decide
    have hstring : lex.isStringOrBytes = true := by
      unfold isStringOrBytes isCharAnd Lexer.isChar
      rw [hchr, hchr1]
      rcases hquote with rfl | rfl
      · rfl
      · rfl
    have hnext := @reads_next (lex.opened .bytes) 98 _ (hat.congr rfl rfl)
    obtain ⟨used, hreads, h1, h2, h3⟩ := hbody (lex.opened .bytes).nextChar [98] hnext
    refine ⟨used, ?_⟩
    rw [toNext_string optimise hargs hdent hskip hend hstring]
    unfold fuel
    rw [stringLoop_single hcode rfl rfl (by decide) h1 h2 h3]
    exact hreads

end

/-- The last newline of a source without indentation. -/
theorem toNext_newline (optimise : Nat) (hat : lex.At [10]) (hargs : lex.fstringArgs = []) (hdent : lex.emitDent = 0) (hlevel : lex.nestedBracketLevel = 0)
    (hindent : lex.indentLevel = [0]) : ∃ used, Reads (lex.opened .newline) used [] (lex.toNext optimise) [] := by
  have hskip : ({ lex with vstr := [] } : Lexer).skipWhitespace true = (true, { lex with vstr := [] }) := skip_newline (hat.congr rfl rfl) hlevel
  have hopened : ({ lex with vstr := [], tokLine := lex.line, tokColumn := lex.column } : Lexer).At [10] := hat.congr rfl rfl
  have hnext := reads_next hopened
  have hcolumn : ({ lex with vstr := [], tokLine := lex.line, tokColumn := lex.column } : Lexer).nextChar.column = 1 := by
    rw [(nextChar_place _).2]
    unfold position
    rw [if_pos hopened.chr0]
  have htop : ({ lex with vstr := [], tokLine := lex.line, tokColumn := lex.column } : Lexer).nextChar.indentLevel = [0] := by
    rw [nextChar_indentLevel]
    exact hindent
  have htoken : ({ lex with vstr := [], tokLine := lex.line, tokColumn := lex.column } : Lexer).newlineToken =
      { ({ lex with vstr := [], tokLine := lex.line, tokColumn := lex.column } : Lexer).nextChar with tokKind := .newline } := by
    unfold newlineToken indentTop
    rw [skip_last hopened]
    simp only [hcolumn, htop]
    rfl
  refine ⟨[10], ?_⟩
  unfold toNext
  rw [begin_none hargs]
  dsimp only
  rw [hskip]
  dsimp only
  rw [if_neg (by rw [hdent]; decide), if_neg (by rw [hdent]; decide), if_pos rfl, htoken]
  refine ⟨hnext.at_rest.congr rfl rfl, ?_, hnext.args, hnext.line⟩
  have hkept := nextChar_kept { lex with vstr := [], tokLine := lex.line, tokColumn := lex.column }
  exact congrArg (fun kept : Kept => { kept with tokKind := .newline }) hkept

theorem toNext_end (optimise : Nat) (hat : lex.At []) (hargs : lex.fstringArgs = []) (hdent : lex.emitDent = 0) : lex.toNext optimise = lex.opened .end := by
  have hskip : ({ lex with vstr := [] } : Lexer).skipWhitespace true = (false, { lex with vstr := [] }) := skip_end true (hat.congr rfl rfl)
  have hend : ({ lex with vstr := [], tokLine := lex.line, tokColumn := lex.column } : Lexer).isEnd = true := hat.end_of_nil
  unfold toNext
  rw [begin_none hargs]
  dsimp only
  rw [hskip]
  dsimp only
  rw [if_neg (by rw [hdent]; decide), if_neg (by rw [hdent]; decide), if_neg Bool.false_ne_true, if_pos hend]
  rfl

/-- A source that is one token, after which there are only the NEWLINE and the END. -/
structure OneToken (optimise : Nat) (source : List UInt8) (kind : TokenKind) (text : List UInt8) : Prop where
  kind : (states optimise source 0).tokKind = kind
  text : (states optimise source 0).vstr = text
  newline : (states optimise source 1).tokKind = .newline
  last : (states optimise source 2).tokKind = .end
  raised : (states optimise source 2).raised = false
  stuck : (states optimise source 2).stuck = false

theorem oneToken_literal {α : Type} {quote : Char} {kind : TokenKind} {lead : List UInt8} {printed meant : α → List UInt8} {xs : List α}
    (optimise : Nat) (hlead : Lead lead kind) (hquote : quote = '"' ∨ quote = '\'') (hxs : ∀ x ∈ xs, Piece quote kind (printed x) (meant x))
    (hchars : chars (lead ++ quote.toUInt8 :: (xs.flatMap printed ++ [quote.toUInt8])) =
      (lead ++ quote.toUInt8 :: (xs.flatMap printed ++ [quote.toUInt8])).map UInt8.toNat ++ [10]) :
    OneToken optimise (lead ++ quote.toUInt8 :: (xs.flatMap printed ++ [quote.toUInt8])) kind (xs.flatMap meant) := by
  generalize hsource : lead ++ quote.toUInt8 :: (xs.flatMap printed ++ [quote.toUInt8]) = source at hchars ⊢
  have hq : quote.toUInt8.toNat = quote.toNat := by
    rcases hquote with rfl | rfl
    · decide
    · decide
  have hsplit : source.map UInt8.toNat ++ [10] =
      lead.map UInt8.toNat ++ quote.toNat :: ((xs.flatMap printed).map UInt8.toNat ++ [quote.toNat, 10]) := by
    rw [← hsource]
    simp [hq]
  have hat := (start_at source).of_eq (hchars.trans hsplit)
  obtain ⟨used0, h0⟩ := toNext_literal optimise hlead hquote hxs hat (start_args source) (start_emitDent source) (start_nestedBracketLevel source)
    (start_raised source)
  have hfirst := h0.frame
  obtain ⟨used1, h1⟩ := toNext_newline optimise h0.at_rest (hfirst.args.trans (start_args source)) (hfirst.emitDent.trans (start_emitDent source))
    (hfirst.nestedBracketLevel.trans (start_nestedBracketLevel source)) (hfirst.indentLevel.trans (start_indentLevel source))
  have hsecond := h1.frame
  have hnew : states optimise source 0 = (start source).toNext optimise := by
    have hcolumn : ((start source).toNext optimise).tokColumn = 1 := hfirst.tokColumn.trans (start_place source).2
    unfold states new
    exact if_neg fun h => h.1 hcolumn
  have hnext : states optimise source 1 = ((start source).toNext optimise).toNext optimise := by rw [states, hnew]
  have hlast := toNext_end optimise h1.at_rest (hsecond.args.trans (hfirst.args.trans (start_args source)))
    (hsecond.emitDent.trans (hfirst.emitDent.trans (start_emitDent source)))
  have hthird : states optimise source 2 = (((start source).toNext optimise).toNext optimise).opened .end := by rw [states, hnext, hlast]
  refine ⟨?_, ?_, ?_, ?_, ?_, ?_⟩
  · rw [hnew]
    exact hfirst.tokKind
  · rw [hnew]
    exact hfirst.vstr
  · rw [hnext]
    exact hsecond.tokKind
  · rw [hthird, opened_tokKind]
  · rw [hthird, opened_raised]
    exact hsecond.raised.trans (hfirst.raised.trans (start_raised source))
  · rw [hthird, opened_stuck]
    exact hsecond.stuck.trans (hfirst.stuck.trans (start_stuck source))

end PythonUltra.Py.Lexer
