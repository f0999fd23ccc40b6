/-
  PythonUltra.Py.QuotedSpec — a printed str or bytes is read back (py/objstrunicode.c,
  py/objstr.c, py/lexer.c).

  What is printed between the quotes is a row of pieces, each of which the loop of
  parse_string_literal takes in one turn (`Piece`).
-/

import PythonUltra.Py.LexerLiteral
import PythonUltra.Py.Quoted
import Mathlib.Data.Nat.Bitwise

namespace PythonUltra.Py.Quoted

open Lexer

/-! ## Decoding -/

theorem utf8_one {c : Nat} (hc : c < 0x80) : utf8 c = [UInt8.ofNat c] := if_pos hc

/-- A byte that goes on with six bits of a character. -/
def cont (n : Nat) : UInt8 := UInt8.ofNat ((n &&& 0x3F) ||| 0x80)

theorem and_low (n : Nat) : n &&& 0x3F = n % 64 := Nat.and_two_pow_sub_one_eq_mod n 6

theorem cont_bits : ∀ n < 64, isCont (UInt8.ofNat (n ||| 0x80)) = true ∧ (UInt8.ofNat (n ||| 0x80)).toNat &&& 0x3F = n := by decide

theorem isCont_cont (n : Nat) : isCont (cont n) = true := by
  unfold cont
  rw [and_low n]
  exact (cont_bits _ (Nat.mod_lt n (by decide))).1

theorem cont_low (n : Nat) : (cont n).toNat &&& 0x3F = n % 64 := by
  unfold cont
  rw [and_low n]
  exact (cont_bits _ (Nat.mod_lt n (by decide))).2

theorem contLoop_cont (ord n : Nat) (s : List UInt8) : contLoop ord (cont n :: s) = contLoop (ord * 64 + n % 64) s := by
  have hor : (ord <<< 6) ||| (n % 64) = ord * 64 + n % 64 := by
    rw [← Nat.shiftLeft_add_eq_or_of_lt (Nat.mod_lt n (by decide : 0 < 2 ^ 6)), Nat.shiftLeft_eq]
  rw [contLoop, if_pos (isCont_cont n), cont_low, hor]

/-- No continuation: the first byte of a character, or the end. -/
def Boundary (s : List UInt8) : Prop := s.dropWhile isCont = s

theorem contLoop_boundary (ord : Nat) {s : List UInt8} (hs : Boundary s) : contLoop ord s = ord := by
  cases s with
  | nil => rfl
  | cons b s =>
    rw [contLoop]
    split
    · rename_i hb
      have hlen := congrArg List.length (hs : (b :: s).dropWhile isCont = b :: s)
      rw [List.dropWhile_cons_of_pos hb, List.length_cons] at hlen
      have := (List.dropWhile_suffix isCont (l := s)).length_le
      omega
    · rfl

theorem utf8_two {c : Nat} (h1 : 0x80 ≤ c) (h2 : c < 0x800) : utf8 c = [UInt8.ofNat ((c / 64) ||| 0xC0), cont c] := by
  unfold utf8
  rw [if_neg (by omega), if_pos h2, Nat.shiftRight_eq_div_pow]
  rfl

theorem utf8_three {c : Nat} (h1 : 0x800 ≤ c) (h2 : c < 0x10000) : utf8 c = [UInt8.ofNat ((c / 4096) ||| 0xE0), cont (c / 64), cont c] := by
  unfold utf8
  rw [if_neg (by omega), if_neg (by omega), if_pos h2, Nat.shiftRight_eq_div_pow, Nat.shiftRight_eq_div_pow]
  rfl

theorem utf8_four {c : Nat} (h1 : 0x10000 ≤ c) : utf8 c = [UInt8.ofNat ((c / 262144) ||| 0xF0), cont (c / 4096), cont (c / 64), cont c] := by
  unfold utf8
  rw [if_neg (by omega), if_neg (by omega), if_neg (by omega), Nat.shiftRight_eq_div_pow, Nat.shiftRight_eq_div_pow, Nat.shiftRight_eq_div_pow]
  rfl

/-- A first byte: it is no continuation, and its own bits are left. -/
def Lead (b : UInt8) (n : Nat) : Prop := isCont b = false ∧ b.toNat &&& 0x80 ≠ 0 ∧ clearLead 7 0x40 (b.toNat &&& 0x7F) = n

instance (b : UInt8) (n : Nat) : Decidable (Lead b n) := inferInstanceAs (Decidable (_ ∧ _ ∧ _))

theorem lead_two : ∀ n < 32, Lead (UInt8.ofNat (n ||| 0xC0)) n := by decide
theorem lead_three : ∀ n < 16, Lead (UInt8.ofNat (n ||| 0xE0)) n := by decide
theorem lead_four : ∀ n < 8, Lead (UInt8.ofNat (n ||| 0xF0)) n := by decide

theorem small_bytes : ∀ c < 0x80, isCont (UInt8.ofNat c) = false ∧ (UInt8.ofNat c).toNat &&& 0x80 = 0 ∧ (UInt8.ofNat c).toNat = c := by decide

theorem Lead.getChar {b : UInt8} {n : Nat} (h : Lead b n) (s : List UInt8) : utf8GetChar (b :: s) = contLoop n s := by
  rw [utf8GetChar, if_neg h.2.1, h.2.2]

theorem nextChar_conts (b : UInt8) (conts : List Nat) {rest : List UInt8} (hrest : Boundary rest) :
    utf8NextChar (b :: (conts.map cont ++ rest)) = rest := by
  unfold utf8NextChar
  rw [List.tail_cons]
  induction conts with
  | nil => exact hrest
  | cons n conts ih => rw [List.map_cons, List.cons_append, List.dropWhile_cons_of_pos (isCont_cont n), ih]

/-- The first character is taken off. -/
theorem decode_char {c : Nat} (hc : c < 0x110000) {rest : List UInt8} (hrest : Boundary rest) :
    utf8GetChar (utf8 c ++ rest) = c ∧ utf8NextChar (utf8 c ++ rest) = rest := by
  by_cases h1 : c < 0x80
  · obtain ⟨-, hascii, hval⟩ := small_bytes c h1
    rw [utf8_one h1, List.singleton_append]
    refine ⟨?_, nextChar_conts _ [] hrest⟩
    rw [utf8GetChar, if_pos hascii, hval]
  · by_cases h2 : c < 0x800
    · rw [utf8_two (by omega) h2]
      refine ⟨?_, nextChar_conts _ [c] hrest⟩
      rw [List.cons_append, (lead_two (c / 64) (by omega)).getChar, List.singleton_append, contLoop_cont, contLoop_boundary _ hrest]
      omega
    · by_cases h3 : c < 0x10000
      · rw [utf8_three (by omega) h3]
        refine ⟨?_, nextChar_conts _ [c / 64, c] hrest⟩
        rw [List.cons_append, (lead_three (c / 4096) (by omega)).getChar, List.cons_append, contLoop_cont, List.singleton_append, contLoop_cont,
          contLoop_boundary _ hrest]
        omega
      · rw [utf8_four (by omega)]
        refine ⟨?_, nextChar_conts _ [c / 4096, c / 64, c] hrest⟩
        rw [List.cons_append, (lead_four (c / 262144) (by omega)).getChar, List.cons_append, contLoop_cont, List.cons_append, contLoop_cont,
          List.singleton_append, contLoop_cont, contLoop_boundary _ hrest]
        omega

theorem utf8_cons {c : Nat} (hc : c < 0x110000) : ∃ b s, utf8 c = b :: s ∧ isCont b = false := by
  by_cases h1 : c < 0x80
  · exact ⟨_, _, utf8_one h1, (small_bytes c h1).1⟩
  · by_cases h2 : c < 0x800
    · exact ⟨_, _, utf8_two (by omega) h2, (lead_two (c / 64) (by omega)).1⟩
    · by_cases h3 : c < 0x10000
      · exact ⟨_, _, utf8_three (by omega) h3, (lead_three (c / 4096) (by omega)).1⟩
      · exact ⟨_, _, utf8_four (by omega), (lead_four (c / 262144) (by omega)).1⟩

theorem boundary_text : ∀ text : List Nat, (∀ c ∈ text, c < 0x110000) → Boundary (text.flatMap utf8)
  | [], _ => rfl
  | c :: text, h => by
    obtain ⟨b, s, heq, hb⟩ := utf8_cons (h c List.mem_cons_self)
    rw [List.flatMap_cons, heq, List.cons_append]
    exact List.dropWhile_cons_of_neg (Bool.eq_false_iff.mp hb)

/-- The loop over a str takes its characters one by one. -/
theorem uniLoop_text (quote : Char) (text : List Nat) (htext : ∀ c ∈ text, c < 0x110000) {fuel : Nat} (hfuel : (text.flatMap utf8).length < fuel) :
    uniLoop quote fuel (text.flatMap utf8) = text.flatMap (uniChar quote) := by
  induction text generalizing fuel with
  | nil =>
    cases fuel with
    | zero => rfl
    | succ fuel => rfl
  | cons c text ih =>
    have hc := htext c List.mem_cons_self
    have htext' : ∀ c ∈ text, c < 0x110000 := fun c' hc' => htext c' (List.mem_cons_of_mem c hc')
    obtain ⟨b, s, heq, -⟩ := utf8_cons hc
    obtain ⟨hget, hnext⟩ := decode_char hc (boundary_text text htext')
    cases fuel with
    | zero => omega
    | succ fuel =>
      have hlen : (text.flatMap utf8).length < fuel := by
        rw [List.flatMap_cons, heq, List.length_append, List.length_cons] at hfuel
        omega
      have hne : (c :: text).flatMap utf8 ≠ [] := by
        rw [List.flatMap_cons, heq]
        exact List.cons_ne_nil _ _
      rw [uniLoop, if_neg hne, List.flatMap_cons, hget, hnext, ih htext' hlen, List.flatMap_cons]

/-! ## Digits -/

def hexDigit (n : Nat) : UInt8 := UInt8.ofNat (if n % 16 ≥ 10 then n % 16 + 'a'.toNat - 10 else n % 16 + '0'.toNat)

theorem hex_succ (width n : Nat) : hex (width + 1) n = hex width (n / 16) ++ [hexDigit n] := rfl

theorem hexDigit_mod (n : Nat) : hexDigit n = hexDigit (n % 16) := by
  unfold hexDigit
  rw [Nat.mod_mod]

theorem hexDigit_small : ∀ n < 16, isXdigit (hexDigit n).toNat = true ∧ xdigitValue (hexDigit n).toNat = n := by decide

theorem hexDigit_value (n : Nat) : isXdigit (hexDigit n).toNat = true ∧ xdigitValue (hexDigit n).toNat = n % 16 := by
  rw [hexDigit_mod]
  exact hexDigit_small (n % 16) (Nat.mod_lt n (by decide))

theorem hex_length (width n : Nat) : (hex width n).length = width := by
  induction width generalizing n with
  | zero => rfl
  | succ width ih => rw [hex_succ, List.length_append, ih, List.length_singleton]

theorem hex_digits (width n : Nat) : ∀ d ∈ hex width n, isXdigit d.toNat = true := by
  induction width generalizing n with
  | zero =>
    intro d hd
    cases hd
  | succ width ih =>
    intro d hd
    rw [hex_succ, List.mem_append, List.mem_singleton] at hd
    rcases hd with hd | rfl
    · exact ih (n / 16) d hd
    · exact (hexDigit_value n).1

theorem hex_value {width n : Nat} (hn : n < 16 ^ width) : (hex width n).foldl (fun num d => num <<< 4 + xdigitValue d.toNat) 0 = n := by
  induction width generalizing n with
  | zero =>
    rw [Nat.pow_zero] at hn
    exact (Nat.lt_one_iff.mp hn).symm
  | succ width ih =>
    rw [Nat.pow_succ] at hn
    rw [hex_succ, List.foldl_append, ih (by omega), List.foldl_cons, List.foldl_nil, (hexDigit_value n).2, Nat.shiftLeft_eq]
    omega

/-! ## Pieces -/

section
variable {quote : Char} {kind : TokenKind}

theorem escape_self (hquote : quote = '"' ∨ quote = '\'') : Escape kind [quote.toUInt8] quote.toNat := by
  refine Escape.of_char ?_
  intro lex hchr
  unfold unescape
  rcases hquote with rfl | rfl
  · rw [hchr]
    rfl
  · rw [hchr]
    rfl

theorem escape_backslash : Escape kind ['\\'.toUInt8] '\\'.toNat := by
  refine Escape.of_char ?_
  intro lex hchr
  unfold unescape
  rw [hchr]
  rfl

/-- `\\n`, `\\r` and `\\t` -/
theorem escape_control {c : Char} {v : Nat} (hc : (c, v) ∈ [('n', 10), ('r', 13), ('t', 9)]) : Escape kind [c.toUInt8] v := by
  refine Escape.of_char ?_
  intro lex hchr
  unfold unescape
  simp only [List.mem_cons, List.not_mem_nil, or_false, Prod.mk.injEq] at hc
  rcases hc with ⟨rfl, rfl⟩ | ⟨rfl, rfl⟩ | ⟨rfl, rfl⟩
  · rw [hchr]
    rfl
  · rw [hchr]
    rfl
  · rw [hchr]
    rfl

theorem escape_x {v : Nat} (hv : v < 0x100) : Escape kind ('x'.toUInt8 :: hex 2 v) v := by
  have h := @Escape.of_hex kind 'x'.toUInt8 _ (hex_digits 2 v) ?_
  · rwa [hex_value (by omega)] at h
  · intro lex hchr _
    rw [hex_length]
    unfold unescape
    rw [hchr]
    rfl

/-- `\\u` and `\\U`, of a str -/
theorem escape_u {c : Char} {width v : Nat} (hc : (c, width) ∈ [('u', 4), ('U', 8)]) (hv : v < 16 ^ width) : Escape .string (c.toUInt8 :: hex width v) v := by
  have h := @Escape.of_hex .string c.toUInt8 _ (hex_digits width v) ?_
  · rwa [hex_value hv] at h
  · intro lex hchr hkind
    rw [hex_length]
    have hno : lex.tokKind ≠ .bytes := by rw [hkind]; decide
    unfold unescape
    simp only [List.mem_cons, List.not_mem_nil, or_false, Prod.mk.injEq] at hc
    rcases hc with ⟨rfl, rfl⟩ | ⟨rfl, rfl⟩
    · rw [hchr, show 'u'.toUInt8.toNat = 117 from rfl]
      simp [hno]
    · rw [hchr, show 'U'.toUInt8.toNat = 85 from rfl]
      simp [hno]

theorem backslash_ne (hquote : quote = '"' ∨ quote = '\'') : '\\'.toNat ≠ quote.toNat := by
  rcases hquote with rfl | rfl
  · decide
  · decide

/-- A character of a str is printed as a piece. -/
theorem uniChar_piece (hquote : quote = '"' ∨ quote = '\'') {c : Nat} (hc : c < 0x110000) : Piece quote .string (uniChar quote c) (utf8 c) := by
  have hback := backslash_ne hquote
  have hstring := Escaped.string hc
  unfold uniChar
  split
  · rename_i h
    subst h
    exact .escape (escape_self hquote) hstring hback
  · rename_i hne
    split
    · rename_i h
      subst h
      exact .escape escape_backslash hstring hback
    · rename_i hslash
      split
      · rename_i h
        have hval : (UInt8.ofNat c).toNat = c := (small_bytes c (by omega)).2.2
        rw [utf8_one (by omega)]
        exact .plain (by omega) (by rwa [hval]) (by rwa [hval])
      · rename_i hvisible
        split
        · rename_i h
          subst h
          exact .escape (escape_control (c := 'n') (by decide)) hstring hback
        · split
          · rename_i h
            subst h
            exact .escape (escape_control (c := 'r') (by decide)) hstring hback
          · split
            · rename_i h
              subst h
              exact .escape (escape_control (c := 't') (by decide)) hstring hback
            · split
              · rename_i h
                exact .escape (escape_x h) hstring hback
              · split
                · rename_i h
                  exact .escape (@escape_u 'u' 4 _ (by decide) h) hstring hback
                · exact .escape (@escape_u 'U' 8 _ (by decide) (by omega)) hstring hback

/-- A byte of bytes is printed as a piece. -/
theorem strChar_piece (hquote : quote = '"' ∨ quote = '\'') (b : UInt8) : Piece quote .bytes (strChar true quote b) [b] := by
  have hback := backslash_ne hquote
  have hbytes : Escaped .bytes b.toNat [b] := by
    have h := Escaped.bytes b.toNat_lt
    rwa [UInt8.ofNat_toNat] at h
  have hself : quote.toUInt8.toNat = quote.toNat := by
    rcases hquote with rfl | rfl
    · decide
    · decide
  unfold strChar
  split
  · rename_i h
    subst h
    rw [hself] at hbytes
    exact .escape (escape_self hquote) hbytes hback
  · rename_i hne
    split
    · rename_i h
      subst h
      exact .escape escape_backslash hbytes hback
    · rename_i hslash
      split
      · rename_i h
        have hlow : 0x20 ≤ b.toNat := UInt8.le_iff_toNat_le.mp h.1
        refine .plain (by omega) (fun hq => hne ?_) (fun hb => hslash ?_)
        · exact UInt8.toNat_inj.mp (hq.trans hself.symm)
        · exact UInt8.toNat_inj.mp hb
      · split
        · rename_i h
          subst h
          exact .escape (escape_control (c := 'n') (by decide)) hbytes hback
        · split
          · rename_i h
            subst h
            exact .escape (escape_control (c := 'r') (by decide)) hbytes hback
          · split
            · rename_i h
              subst h
              exact .escape (escape_control (c := 't') (by decide)) hbytes hback
            · exact .escape (escape_x b.toNat_lt) hbytes hback

end

/-! ## A line of print -/

/-- A byte that is printed is in the line. -/
def InLine (s : List UInt8) : Prop := ∀ b ∈ s, b.toNat ≠ 10 ∧ b.toNat ≠ 13

theorem InLine.append {s t : List UInt8} (hs : InLine s) (ht : InLine t) : InLine (s ++ t) := by
  intro b hb
  rcases List.mem_append.mp hb with hb | hb
  · exact hs b hb
  · exact ht b hb

theorem InLine.flatMap {α : Type} {f : α → List UInt8} {xs : List α} (h : ∀ x ∈ xs, InLine (f x)) : InLine (xs.flatMap f) := by
  intro b hb
  obtain ⟨x, hx, hb⟩ := List.mem_flatMap.mp hb
  exact h x hx b hb

instance (s : List UInt8) : Decidable (InLine s) := List.decidableBAll (fun b : UInt8 => b.toNat ≠ 10 ∧ b.toNat ≠ 13) s

theorem inLine_hexDigit : ∀ n < 16, InLine [hexDigit n] := by decide

theorem inLine_hex (width n : Nat) : InLine (hex width n) := by
  induction width generalizing n with
  | zero =>
    intro b hb
    cases hb
  | succ width ih =>
    rw [hex_succ, hexDigit_mod]
    exact (ih (n / 16)).append (inLine_hexDigit _ (Nat.mod_lt n (by decide)))

theorem inLine_uniChar {quote : Char} (hquote : quote = '"' ∨ quote = '\'') (c : Nat) : InLine (uniChar quote c) := by
  have hself : InLine ['\\'.toUInt8, quote.toUInt8] := by
    rcases hquote with rfl | rfl
    · decide
    · decide
  unfold uniChar
  split
  · exact hself
  · split
    · decide
    · split
      · rename_i h
        intro b hb
        obtain rfl := List.mem_singleton.mp hb
        have hval := (small_bytes c (by omega)).2.2
        omega
      · split
        · decide
        · split
          · decide
          · split
            · decide
            · split
              · exact .append (by decide) (inLine_hex 2 c)
              · split
                · exact .append (by decide) (inLine_hex 4 c)
                · exact .append (by decide) (inLine_hex 8 c)

theorem inLine_strChar {quote : Char} (hquote : quote = '"' ∨ quote = '\'') (b : UInt8) : InLine (strChar true quote b) := by
  have hself : InLine ['\\'.toUInt8, quote.toUInt8] := by
    rcases hquote with rfl | rfl
    · decide
    · decide
  unfold strChar
  split
  · exact hself
  · split
    · decide
    · split
      · rename_i h
        have hlow : 0x20 ≤ b.toNat := UInt8.le_iff_toNat_le.mp h.1
        intro b' hb'
        obtain rfl := List.mem_singleton.mp hb'
        omega
      · split
        · decide
        · split
          · decide
          · split
            · decide
            · exact .append (by decide) (inLine_hex 2 b.toNat)

theorem quoteChar_cases (s : List UInt8) : quoteChar s = '"' ∨ quoteChar s = '\'' := by
  unfold quoteChar
  dsimp only
  split
  · exact .inl rfl
  · exact .inr rfl

/-- A str and bytes are the token that their repr is read as. -/
theorem repr_read (optimise : Nat) (text : List Nat) (htext : ∀ c ∈ text, c < 0x110000) (bytes : List UInt8) :
    OneToken optimise (reprStr (text.flatMap utf8)) .string (text.flatMap utf8) ∧ OneToken optimise (reprBytes bytes) .bytes bytes := by
  have hline : ∀ {quote : Char} {lead : List UInt8} {body : List UInt8}, quote = '"' ∨ quote = '\'' → InLine lead → InLine body →
      chars (lead ++ quote.toUInt8 :: (body ++ [quote.toUInt8])) = (lead ++ quote.toUInt8 :: (body ++ [quote.toUInt8])).map UInt8.toNat ++ [10] := by
    intro quote lead body hquote hlead hbody
    have hself : InLine [quote.toUInt8] := by
      rcases hquote with rfl | rfl
      · decide
      · decide
    refine chars_line ?_ (hlead.append (hself.append (hbody.append hself)))
    intro h
    cases (List.append_eq_nil_iff.mp h).2
  constructor
  · have hquote := quoteChar_cases (text.flatMap utf8)
    have hprint : reprStr (text.flatMap utf8) =
        [] ++ (quoteChar (text.flatMap utf8)).toUInt8 :: (text.flatMap (uniChar (quoteChar (text.flatMap utf8))) ++ [(quoteChar (text.flatMap utf8)).toUInt8]) := by
      unfold reprStr uniPrintQuoted
      dsimp only
      rw [uniLoop_text _ text htext (Nat.lt_succ_self _), List.nil_append]
    rw [hprint]
    refine oneToken_literal optimise .string hquote (fun c hc => uniChar_piece hquote (htext c hc)) ?_
    exact hline hquote (by decide) (.flatMap fun c _ => inLine_uniChar hquote c)
  · have hquote := quoteChar_cases bytes
    have hprint : reprBytes bytes =
        ['b'.toUInt8] ++ (quoteChar bytes).toUInt8 :: (bytes.flatMap (strChar true (quoteChar bytes)) ++ [(quoteChar bytes).toUInt8]) := rfl
    have htoken := @oneToken_literal _ _ _ ['b'.toUInt8] _ (fun b => [b]) _ optimise .bytes hquote (fun b _ => strChar_piece hquote b)
      (hline hquote (by decide) (.flatMap fun b (_ : b ∈ bytes) => inLine_strChar hquote b))
    rw [List.flatMap_singleton'] at htoken
    rw [hprint]
    exact htoken

/-- A quote of each kind, a backslash, control characters and one of four bytes. -/
theorem repr_read_mixed : OneToken 0 (reprStr ([39, 34, 92, 10, 0, 0xe9, 0x1f600].flatMap utf8)) .string ([39, 34, 92, 10, 0, 0xe9, 0x1f600].flatMap utf8) ∧
    OneToken 0 (reprBytes [39, 34, 92, 10, 0, 0xe9]) .bytes [39, 34, 92, 10, 0, 0xe9] :=
  repr_read 0 [39, 34, 92, 10, 0, 0xe9, 0x1f600] (by decide) [39, 34, 92, 10, 0, 0xe9]

end PythonUltra.Py.Quoted
