/-
  PythonUltra.Py.Lexer — the tokeniser (py/lexer.c, py/reader.c), with f-strings, async and
  await, and unicode.

  A character is an `unichar`: a byte of the source, or `eof`. Each function of the source takes
  a lexer to the next. Loops have fuel; one that ends for want of it sets `stuck`, which is not in
  the source, and the escape for unicode names sets `raised`, after which nothing is done.
-/

import Mathlib.Algebra.GroupWithZero.Nat
import Mathlib.Data.List.Basic

namespace PythonUltra.Py

inductive Lexer.TokenKind where
  | end | invalid | dedentMismatch | lonelyStringOpen | malformedFstring
  | newline | indent | dedent
  | name | integer | floatOrImag | string | bytes
  | ellipsis
  | kwFalse | kwNone | kwTrue | kwDebug | kwAnd | kwAs | kwAssert | kwAsync | kwAwait | kwBreak | kwClass | kwContinue | kwDef | kwDel | kwElif | kwElse
  | kwExcept | kwFinally | kwFor | kwFrom | kwGlobal | kwIf | kwImport | kwIn | kwIs | kwLambda | kwNonlocal | kwNot | kwOr | kwPass | kwRaise | kwReturn
  | kwTry | kwWhile | kwWith | kwYield
  | opAssign | opTilde
  | opLess | opMore | opDblEqual | opLessEqual | opMoreEqual | opNotEqual
  | opPipe | opCaret | opAmpersand | opDblLess | opDblMore | opPlus | opMinus | opStar | opAt | opDblSlash | opSlash | opPercent | opDblStar
  | delPipeEqual | delCaretEqual | delAmpersandEqual | delDblLessEqual | delDblMoreEqual | delPlusEqual | delMinusEqual | delStarEqual | delAtEqual
  | delDblSlashEqual | delSlashEqual | delPercentEqual | delDblStarEqual
  | delParenOpen | delParenClose | delBracketOpen | delBracketClose | delBraceOpen | delBraceClose
  | delComma | delColon | delPeriod | delSemicolon | delEqual | delMinusMore
deriving DecidableEq, Repr

/-- `mp_lexer_t`; `stream` is what the reader has left, and the top of `indentLevel` is its head. -/
structure Lexer where
  stream : List UInt8
  chr0 : Nat
  chr1 : Nat
  chr2 : Nat
  chr0Saved : Nat
  chr1Saved : Nat
  chr2Saved : Nat
  line : Nat
  column : Int
  emitDent : Int
  nestedBracketLevel : Int
  indentLevel : List Nat
  tokLine : Nat
  tokColumn : Int
  tokKind : Lexer.TokenKind
  vstr : List UInt8
  fstringArgs : List UInt8
  fstringArgsIdx : Nat
  raised : Bool
  stuck : Bool
deriving DecidableEq

namespace Lexer

/-- `MP_LEXER_EOF` -/
def eof : Nat := 0xffffffff

/-! ## Characters -/

def isSpace (c : Nat) : Bool := c == 32 || (9 ≤ c && c ≤ 13)
def isAlpha (c : Nat) : Bool := (65 ≤ c && c ≤ 90) || (97 ≤ c && c ≤ 122)
def isDigit (c : Nat) : Bool := 48 ≤ c && c ≤ 57
def isXdigit (c : Nat) : Bool := isDigit c || (65 ≤ c && c ≤ 70) || (97 ≤ c && c ≤ 102)

/-- `unichar_xdigit_value`, of a hexadecimal digit -/
def xdigitValue (c : Nat) : Nat := if c - 48 > 9 then ((c - 48) &&& 0xdf) - 7 else c - 48

/-- `vstr_add_char` -/
def utf8 (c : Nat) : List UInt8 :=
  if c < 0x80 then [UInt8.ofNat c]
  else if c < 0x800 then [UInt8.ofNat ((c >>> 6) ||| 0xC0), UInt8.ofNat ((c &&& 0x3F) ||| 0x80)]
  else if c < 0x10000 then [UInt8.ofNat ((c >>> 12) ||| 0xE0), UInt8.ofNat (((c >>> 6) &&& 0x3F) ||| 0x80), UInt8.ofNat ((c &&& 0x3F) ||| 0x80)]
  else [UInt8.ofNat ((c >>> 18) ||| 0xF0), UInt8.ofNat (((c >>> 12) &&& 0x3F) ||| 0x80), UInt8.ofNat (((c >>> 6) &&& 0x3F) ||| 0x80),
    UInt8.ofNat ((c &&& 0x3F) ||| 0x80)]

/-! ## Lexers -/

section
variable (lex : Lexer)

def isEnd : Bool := lex.chr0 == eof
def isPhysicalNewline : Bool := lex.chr0 == 10
def isChar (c : Char) : Bool := lex.chr0 == c.toNat
def isCharFollowing (c : Char) : Bool := lex.chr1 == c.toNat
def isCharAnd (c1 c2 : Char) : Bool := lex.chr0 == c1.toNat && lex.chr1 == c2.toNat
def isQuote (c : Nat) : Bool := c == 39 || c == 34

def isStringOrBytes : Bool :=
  isQuote lex.chr0 || ((lex.isChar 'r' || lex.isChar 'u' || lex.isChar 'b' || lex.isChar 'f') && isQuote lex.chr1) ||
    ((lex.isCharAnd 'r' 'f' || lex.isCharAnd 'f' 'r') && isQuote lex.chr2) || ((lex.isCharAnd 'r' 'b' || lex.isCharAnd 'b' 'r') && isQuote lex.chr2)

/-- Any byte with the high bit set may be in an identifier; so may `eof`, which `is_end` is asked about before. -/
def isHeadOfIdentifier : Bool := isAlpha lex.chr0 || lex.isChar '_' || decide (lex.chr0 ≥ 0x80)
def isTailOfIdentifier : Bool := lex.isHeadOfIdentifier || isDigit lex.chr0

/-! ## next_char -/

/-- The line and the column of the character after the current one. -/
def position : Lexer :=
  if lex.chr0 = 10 then { lex with line := lex.line + 1, column := 1 }
  else if lex.chr0 = 9 then { lex with column := (lex.column - 1 + 8) / 8 * 8 + 1 }
  else { lex with column := lex.column + 1 }

/-- `reader.readbyte`, into the last place of the queue. -/
def read : Lexer :=
  match lex.stream with
  | [] => { lex with chr2 := eof }
  | b :: stream => { lex with chr2 := b.toNat, stream := stream }

/-- The end of the f-string arguments: what they were put in front of is restored. -/
def restore : Lexer :=
  { lex with chr0 := lex.chr0Saved, chr1 := lex.chr1Saved, chr2 := lex.chr2Saved, fstringArgs := [], fstringArgsIdx := 0 }

def inject : Lexer :=
  let lex := if lex.fstringArgsIdx < lex.fstringArgs.length then
      { lex with chr2 := (lex.fstringArgs.getD lex.fstringArgsIdx 0).toNat, fstringArgsIdx := lex.fstringArgsIdx + 1 }
    else { lex with chr2 := 0 }
  if lex.chr0 = 0 then lex.restore else lex

/-- CR and CR LF are LF. -/
def joinCr : Lexer :=
  if lex.chr1 = 13 then
    if lex.chr2 = 10 then { lex with chr1 := 10 }.read else { lex with chr1 := 10 }
  else lex

/-- A newline is put at the end of the file. -/
def endWithNewline : Lexer := if lex.chr2 = eof ∧ lex.chr1 ≠ eof ∧ lex.chr1 ≠ 10 then { lex with chr2 := 10 } else lex

def nextChar : Lexer :=
  let lex := lex.position
  let lex := { lex with chr0 := lex.chr1, chr1 := lex.chr2 }
  let lex := if lex.fstringArgsIdx ≠ 0 then lex.inject else lex.read
  lex.joinCr.endWithNewline

/-! ## Indentation -/

/-- The level is a `uint16_t`. -/
def indentPush (indent : Nat) : Lexer := { lex with indentLevel := indent % 2 ^ 16 :: lex.indentLevel }

def indentTop : Nat := lex.indentLevel.headD 0

def indentPop : Lexer := { lex with indentLevel := lex.indentLevel.tail }

/-! ## String literals -/

def addByte (c : Nat) : Lexer := { lex with vstr := lex.vstr ++ [UInt8.ofNat c] }
def addChar (c : Nat) : Lexer := { lex with vstr := lex.vstr ++ utf8 c }
def addArg (l : List UInt8) : Lexer := { lex with fstringArgs := lex.fstringArgs ++ l }

/-- Turns for a loop that takes a character in each. -/
def fuel : Nat := lex.stream.length + lex.fstringArgs.length + 8

end

/-- `get_hex`: the number, if all are hexadecimal digits. -/
def getHex : Nat → Nat → Lexer → Option Nat × Lexer
  | 0, num, lex => (some num, lex)
  | numDigits + 1, num, lex =>
    let lex := lex.nextChar
    if isXdigit lex.chr0 then getHex numDigits (num <<< 4 + xdigitValue lex.chr0) lex else (none, lex)

/-- `\\x`, `\\u` and `\\U` -/
def hexEscape (numDigits : Nat) (lex : Lexer) : Nat × Lexer :=
  match lex.getHex numDigits 0 with
  | (some num, lex) => (num, lex)
  | (none, lex) => (0, { lex with tokKind := .invalid })

/-- The digits of an octal escape after the first. -/
def octalLoop : Nat → Nat → Lexer → Nat × Lexer
  | 0, num, lex => (num, lex)
  | digits + 1, num, lex =>
    if 48 ≤ lex.chr1 ∧ lex.chr1 ≤ 55 then
      let lex := lex.nextChar
      octalLoop digits (num * 8 + (lex.chr0 - 48)) lex
    else (num, lex)

/-- The character that an escape stands for, `eof` for none; the current one is after the backslash. -/
def unescape (lex : Lexer) : Nat × Lexer :=
  let c := lex.chr0
  if c = '\n'.toNat then (eof, lex)
  else if c = '\\'.toNat ∨ c = '\''.toNat ∨ c = '"'.toNat then (c, lex)
  else if c = 'a'.toNat then (0x07, lex)
  else if c = 'b'.toNat then (0x08, lex)
  else if c = 't'.toNat then (0x09, lex)
  else if c = 'n'.toNat then (0x0a, lex)
  else if c = 'v'.toNat then (0x0b, lex)
  else if c = 'f'.toNat then (0x0c, lex)
  else if c = 'r'.toNat then (0x0d, lex)
  else if (c = 'u'.toNat ∨ c = 'U'.toNat) ∧ lex.tokKind = .bytes then (c, lex.addChar '\\'.toNat)
  else if c = 'x'.toNat then lex.hexEscape 2
  else if c = 'u'.toNat then lex.hexEscape 4
  else if c = 'U'.toNat then lex.hexEscape 8
  else if c = 'N'.toNat then (c, { lex with raised := true })
  else if 48 ≤ c ∧ c ≤ 55 then lex.octalLoop 2 (c - 48)
  else (c, lex.addChar '\\'.toNat)

/-- The character of an escape is added, where it is one of the literal's kind. -/
def addEscaped (c : Nat) (lex : Lexer) : Lexer :=
  if c = eof then lex
  else if c < 0x110000 ∧ lex.tokKind = .string then lex.addChar c
  else if c < 0x100 ∧ lex.tokKind = .bytes then lex.addByte c
  else { lex with tokKind := .invalid }

def escape (isRaw : Bool) (lex : Lexer) : Lexer :=
  let lex := lex.nextChar
  if isRaw then addEscaped lex.chr0 (lex.addChar '\\'.toNat)
  else
    let (c, lex) := lex.unescape
    if lex.raised then lex else addEscaped c lex

/-- An argument ends at `:` or a closing brace outside of brackets, or at a conversion before one. -/
def argEnds (lex : Lexer) : Bool :=
  lex.isChar ':' || lex.isChar '}' || (lex.isChar '!' && (lex.isCharFollowing 'r' || lex.isCharFollowing 's') &&
    (lex.chr2 == ':'.toNat || lex.chr2 == '}'.toNat))

/-- The characters of an argument; the bracket level is an `unsigned int`. -/
def argLoop : Nat → Nat → Lexer → Lexer
  | 0, _, lex => { lex with stuck := true }
  | fuel + 1, nested, lex =>
    if !lex.isEnd && (nested != 0 || !lex.argEnds) then
      let c := lex.chr0
      let nested := if c = '['.toNat ∨ c = '{'.toNat then (nested + 1) % 2 ^ 32
        else if c = ']'.toNat ∨ c = '}'.toNat then (nested + 2 ^ 32 - 1) % 2 ^ 32 else nested
      argLoop fuel nested (lex.addArg [UInt8.ofNat c]).nextChar
    else lex

/-- A replacement field, whose brace is past: its argument, in parentheses, without a last `=`. -/
def field (lex : Lexer) : Lexer :=
  let lex := lex.addArg ['('.toUInt8]
  let i := lex.fstringArgs.length
  let lex := argLoop lex.fuel 0 lex
  let lex := if lex.fstringArgs.getLastD 0 = '='.toUInt8 then
      { lex with vstr := lex.vstr ++ lex.fstringArgs.drop i, fstringArgs := lex.fstringArgs.dropLast }
    else lex
  lex.addArg [')'.toUInt8, ','.toUInt8]

/-- The opening braces of an f-string, one after the other. -/
def bracesLoop : Nat → Lexer → Lexer
  | 0, lex => { lex with stuck := true }
  | fuel + 1, lex =>
    if lex.isChar '{' then
      let lex := lex.nextChar
      let lex := if lex.isChar '{' then (lex.addByte '{'.toNat).nextChar else lex.field
      bracesLoop fuel (lex.addByte '{'.toNat)
    else lex

/-- A character of a literal that is no quote of it. -/
def literalChar (isRaw isFstring : Bool) (lex : Lexer) : Lexer :=
  let lex := if isFstring then bracesLoop lex.fuel lex else lex
  if lex.isChar '\\' then lex.escape isRaw else lex.addByte lex.chr0

/-- The loop over a literal, to its closing quotes, or to the end of its line or of the source. -/
def literalLoop (quoteChar : Char) (numQuotes : Nat) (isRaw isFstring : Bool) : Nat → Nat → Lexer → Nat × Lexer
  | 0, nClosing, lex => (nClosing, { lex with stuck := true })
  | fuel + 1, nClosing, lex =>
    if !lex.isEnd && (decide (numQuotes > 1) || !lex.isPhysicalNewline) && decide (nClosing < numQuotes) then
      if lex.isChar quoteChar then
        literalLoop quoteChar numQuotes isRaw isFstring fuel (nClosing + 1) (lex.addChar lex.chr0).nextChar
      else
        let lex := lex.literalChar isRaw isFstring
        if lex.raised then (0, lex) else literalLoop quoteChar numQuotes isRaw isFstring fuel 0 lex.nextChar
    else (nClosing, lex)

def formatCall : List UInt8 := ['.', 'f', 'o', 'r', 'm', 'a', 't', '('].map Char.toUInt8

/-- `parse_string_literal` -/
def parseStringLiteral (isRaw isFstring : Bool) (lex : Lexer) : Lexer :=
  let quoteChar := if lex.isChar '"' then '"' else '\''
  let lex := lex.nextChar
  let triple := lex.isCharAnd quoteChar quoteChar
  let lex := if triple then lex.nextChar.nextChar else lex
  let numQuotes := if triple then 3 else 1
  let lex := if isFstring ∧ lex.fstringArgs = [] then lex.addArg formatCall else lex
  let (nClosing, lex) := literalLoop quoteChar numQuotes isRaw isFstring lex.fuel 0 lex
  if lex.raised then lex
  else
    let lex := if nClosing < numQuotes then { lex with tokKind := .lonelyStringOpen } else lex
    { lex with vstr := lex.vstr.take (lex.vstr.length - nClosing) }

/-! ## White space -/

/-- To the end of a comment's line. -/
def commentLoop : Nat → Lexer → Lexer
  | 0, lex => { lex with stuck := true }
  | fuel + 1, lex => if !lex.isEnd && !lex.isPhysicalNewline then commentLoop fuel lex.nextChar else lex

def skipLoop (stopAtNewline : Bool) : Nat → Lexer → Bool × Lexer
  | 0, lex => (false, { lex with stuck := true })
  | fuel + 1, lex =>
    if lex.isEnd then (false, lex)
    else if lex.isPhysicalNewline then
      if stopAtNewline ∧ lex.nestedBracketLevel = 0 then (true, lex) else skipLoop stopAtNewline fuel lex.nextChar
    else if isSpace lex.chr0 then skipLoop stopAtNewline fuel lex.nextChar
    else if lex.isChar '#' then
      let lex := lex.nextChar
      skipLoop stopAtNewline fuel (commentLoop lex.fuel lex)
    else if lex.isCharAnd '\\' '\n' then skipLoop stopAtNewline fuel lex.nextChar.nextChar
    else (false, lex)

/-- `skip_whitespace`: whether it has crossed a newline. -/
def skipWhitespace (stopAtNewline : Bool) (lex : Lexer) : Bool × Lexer := skipLoop stopAtNewline lex.fuel lex

/-! ## Tokens -/

/-- After a literal with f-string arguments these come before what is left of the source. -/
def beginInjection (lex : Lexer) : Lexer :=
  if lex.fstringArgs ≠ [] ∧ lex.fstringArgsIdx = 0 then
    let lex := lex.addArg [')'.toUInt8]
    { lex with
      chr0Saved := lex.chr0, chr1Saved := lex.chr1, chr2Saved := lex.chr2
      chr0 := (lex.fstringArgs.getD 0 0).toNat, chr1 := (lex.fstringArgs.getD 1 0).toNat, chr2 := (lex.fstringArgs.getD 2 0).toNat
      fstringArgsIdx := 3 }
  else lex

/-- The levels that are closed by a line of so many blanks. -/
def dedentLoop (numSpaces : Nat) : List Nat → Lexer → Lexer
  | [], lex => lex
  | _ :: levels, lex =>
    if numSpaces < lex.indentTop then dedentLoop numSpaces levels { lex.indentPop with emitDent := lex.emitDent - 1 } else lex

def newlineToken (lex : Lexer) : Lexer :=
  let lex := { (lex.skipWhitespace false).2 with tokKind := .newline }
  let numSpaces := (lex.column - 1).toNat
  if numSpaces = lex.indentTop then lex
  else if numSpaces > lex.indentTop then { lex.indentPush numSpaces with emitDent := lex.emitDent + 1 }
  else
    let lex := dedentLoop numSpaces lex.indentLevel lex
    if numSpaces ≠ lex.indentTop then { lex with tokKind := .dedentMismatch } else lex

/-- What the letters before a literal say: raw, f-string, its kind and how many letters they are. -/
def typeCode (lex : Lexer) : Bool × Bool × TokenKind × Nat :=
  if lex.isChar 'u' then (false, false, .string, 1)
  else if lex.isChar 'b' then if lex.isCharFollowing 'r' then (true, false, .bytes, 2) else (false, false, .bytes, 1)
  else if lex.isChar 'r' then
    if lex.isCharFollowing 'f' then (true, true, .string, 2) else if lex.isCharFollowing 'b' then (true, false, .bytes, 2) else (true, false, .string, 1)
  else if lex.isChar 'f' then if lex.isCharFollowing 'r' then (true, true, .string, 2) else (false, true, .string, 1)
  else (false, false, .string, 0)

/-- Literals side by side are one token, as long as they are of one kind. -/
def stringLoop : Nat → Lexer → Lexer
  | 0, lex => { lex with stuck := true }
  | fuel + 1, lex =>
    let (isRaw, isFstring, kind, nChar) := lex.typeCode
    if lex.tokKind ≠ .end ∧ lex.tokKind ≠ kind then lex
    else
      let lex := { lex with tokKind := kind }
      let lex := if nChar ≠ 0 then lex.nextChar else lex
      let lex := if nChar = 2 then lex.nextChar else lex
      let lex := lex.parseStringLiteral isRaw isFstring
      if lex.raised then lex
      else
        let lex := (lex.skipWhitespace true).2
        if lex.isStringOrBytes then stringLoop fuel lex else lex

def stringToken (lex : Lexer) : Lexer := stringLoop lex.fuel { lex with tokKind := .end }

def nameLoop : Nat → Lexer → Lexer
  | 0, lex => { lex with stuck := true }
  | fuel + 1, lex => if !lex.isEnd && lex.isTailOfIdentifier then nameLoop fuel (lex.addByte lex.chr0).nextChar else lex

/-- `strcmp` -/
def strcmp : List UInt8 → List UInt8 → Ordering
  | [], [] => .eq
  | [], _ => .lt
  | _, [] => .gt
  | a :: s, b :: t => if a = b then strcmp s t else compare a b

/-- `tok_kw`, with the kinds that follow `MP_TOKEN_KW_FALSE` -/
def tokKw : List (String × TokenKind) :=
  [("False", .kwFalse), ("None", .kwNone), ("True", .kwTrue), ("__debug__", .kwDebug), ("and", .kwAnd), ("as", .kwAs), ("assert", .kwAssert),
   ("async", .kwAsync), ("await", .kwAwait), ("break", .kwBreak), ("class", .kwClass), ("continue", .kwContinue), ("def", .kwDef), ("del", .kwDel),
   ("elif", .kwElif), ("else", .kwElse), ("except", .kwExcept), ("finally", .kwFinally), ("for", .kwFor), ("from", .kwFrom), ("global", .kwGlobal),
   ("if", .kwIf), ("import", .kwImport), ("in", .kwIn), ("is", .kwIs), ("lambda", .kwLambda), ("nonlocal", .kwNonlocal), ("not", .kwNot), ("or", .kwOr),
   ("pass", .kwPass), ("raise", .kwRaise), ("return", .kwReturn), ("try", .kwTry), ("while", .kwWhile), ("with", .kwWith), ("yield", .kwYield)]

/-- The kind of a name. -/
def nameKind (optimise : Nat) (s : List UInt8) : List (String × TokenKind) → TokenKind
  | [] => .name
  | (kw, kind) :: table =>
    match strcmp s (kw.toList.map Char.toUInt8) with
    | .eq => if kind = .kwDebug then (if optimise = 0 then .kwTrue else .kwFalse) else kind
    | .lt => .name
    | .gt => nameKind optimise s table

def nameToken (optimise : Nat) (lex : Lexer) : Lexer :=
  let lex := ({ lex with tokKind := .name }.addByte lex.chr0).nextChar
  let lex := nameLoop lex.fuel lex
  { lex with tokKind := nameKind optimise lex.vstr tokKw }

def numberLoop (forcedInteger : Bool) : Nat → Lexer → Lexer
  | 0, lex => { lex with stuck := true }
  | fuel + 1, lex =>
    if lex.isEnd then lex
    else if !forcedInteger && (lex.isChar 'e' || lex.isChar 'E') then
      let lex := ({ lex with tokKind := .floatOrImag }.addChar 'e'.toNat).nextChar
      let lex := if lex.isChar '+' || lex.isChar '-' then (lex.addChar lex.chr0).nextChar else lex
      numberLoop forcedInteger fuel lex
    else if isAlpha lex.chr0 || isDigit lex.chr0 || lex.isChar '.' then
      let lex := if lex.isChar '.' || lex.isChar 'j' || lex.isChar 'J' then { lex with tokKind := .floatOrImag } else lex
      numberLoop forcedInteger fuel (lex.addChar lex.chr0).nextChar
    else if lex.isChar '_' then numberLoop forcedInteger fuel lex.nextChar
    else lex

/-- `is_following_base_char` -/
def isFollowingBaseChar (lex : Lexer) : Bool :=
  let chr1 := lex.chr1 ||| 0x20
  chr1 == 'b'.toNat || chr1 == 'o'.toNat || chr1 == 'x'.toNat

def numberToken (lex : Lexer) : Lexer :=
  let forcedInteger := !lex.isChar '.' && lex.isChar '0' && lex.isFollowingBaseChar
  let lex := ({ lex with tokKind := if lex.isChar '.' then .floatOrImag else .integer }.addChar lex.chr0).nextChar
  numberLoop forcedInteger lex.fuel lex

/-- `tok_enc` -/
def tokEnc : List Char :=
  ['(', ')', '[', ']', '{', '}', ',', ';', '~',
   ':', 'e', '=',
   '<', 'e', '=', 'c', '<', 'e', '=',
   '>', 'e', '=', 'c', '>', 'e', '=',
   '*', 'e', '=', 'c', '*', 'e', '=',
   '+', 'e', '=',
   '-', 'e', '=', 'e', '>',
   '&', 'e', '=',
   '|', 'e', '=',
   '/', 'e', '=', 'c', '/', 'e', '=',
   '%', 'e', '=',
   '^', 'e', '=',
   '@', 'e', '=',
   '=', 'e', '=',
   '!', '.']

/-- `tok_enc_kind` -/
def tokEncKind : List TokenKind :=
  [.delParenOpen, .delParenClose, .delBracketOpen, .delBracketClose, .delBraceOpen, .delBraceClose, .delComma, .delSemicolon, .opTilde,
   .delColon, .opAssign,
   .opLess, .opLessEqual, .opDblLess, .delDblLessEqual,
   .opMore, .opMoreEqual, .opDblMore, .delDblMoreEqual,
   .opStar, .delStarEqual, .opDblStar, .delDblStarEqual,
   .opPlus, .delPlusEqual,
   .opMinus, .delMinusEqual, .delMinusMore,
   .opAmpersand, .delAmpersandEqual,
   .opPipe, .delPipeEqual,
   .opSlash, .delSlashEqual, .opDblSlash, .delDblSlashEqual,
   .opPercent, .delPercentEqual,
   .opCaret, .delCaretEqual,
   .opAt, .delAtEqual,
   .delEqual, .opDblEqual]

/-- Where the current character stands in the encoding, and the index of its token. -/
def findOp (c : Nat) : List Char → Nat → List Char × Nat
  | [], i => ([], i)
  | [t], i => if c = t.toNat then ([t], i) else ([], i + 1)
  | t :: t1 :: ts, i =>
    if c = t.toNat then (t :: t1 :: ts, i)
    else if t = 'e' ∨ t = 'c' then findOp c ts (i + 1) else findOp c (t1 :: ts) (i + 1)

/-- The longest token of those that start so. -/
def matchOp : List Char → Nat → Nat → Lexer → Nat × Lexer
  | t :: t1 :: ts, tIndex, i, lex =>
    if t = 'c' ∨ t = 'e' then
      if lex.isChar t1 then
        if t = 'e' then (tIndex + 1, lex.nextChar) else matchOp ts (tIndex + 1) (tIndex + 1) lex.nextChar
      else if t = 'c' then (i, lex)
      else matchOp ts (tIndex + 1) i lex
    else (i, lex)
  | _, _, i, lex => (i, lex)

/-- The bracket level, for lines that are joined. -/
def bracket (kind : TokenKind) (level : Int) : Int :=
  if kind = .delParenOpen ∨ kind = .delBracketOpen ∨ kind = .delBraceOpen then level + 1
  else if kind = .delParenClose ∨ kind = .delBracketClose ∨ kind = .delBraceClose then level - 1
  else level

def opToken (lex : Lexer) : Lexer :=
  let (t, i) := findOp lex.chr0 tokEnc 0
  let lex := lex.nextChar
  match t with
  | [] => { lex with tokKind := .invalid }
  | t :: ts =>
    if t = '!' then
      if lex.isChar '=' then { lex.nextChar with tokKind := .opNotEqual } else { lex with tokKind := .invalid }
    else if t = '.' then
      if lex.isCharAnd '.' '.' then { lex.nextChar.nextChar with tokKind := .ellipsis } else { lex with tokKind := .delPeriod }
    else
      let (i, lex) := matchOp ts i i lex
      let kind := tokEncKind.getD i .invalid
      { lex with tokKind := kind, nestedBracketLevel := bracket kind lex.nestedBracketLevel }

/-- `mp_lexer_to_next` -/
def toNext (optimise : Nat) (lex : Lexer) : Lexer :=
  let lex := { lex.beginInjection with vstr := [] }
  let (hadPhysicalNewline, lex) := lex.skipWhitespace true
  let lex := { lex with tokLine := lex.line, tokColumn := lex.column }
  if lex.emitDent < 0 then { lex with tokKind := .dedent, emitDent := lex.emitDent + 1 }
  else if lex.emitDent > 0 then { lex with tokKind := .indent, emitDent := lex.emitDent - 1 }
  else if hadPhysicalNewline then lex.newlineToken
  else if lex.isEnd then { lex with tokKind := .end }
  else if lex.isStringOrBytes then lex.stringToken
  else if lex.isHeadOfIdentifier then lex.nameToken optimise
  else if isDigit lex.chr0 || (lex.isChar '.' && isDigit lex.chr1) then lex.numberToken
  else lex.opToken

/-- The lexer before the first token. -/
def start (source : List UInt8) : Lexer :=
  let lex : Lexer :=
    { stream := source, chr0 := 0, chr1 := 0, chr2 := 0, chr0Saved := 0, chr1Saved := 0, chr2Saved := 0, line := 1, column := -2, emitDent := 0,
      nestedBracketLevel := 0, indentLevel := [0], tokLine := 0, tokColumn := 0, tokKind := .end, vstr := [], fstringArgs := [], fstringArgsIdx := 0,
      raised := false, stuck := false }
  lex.nextChar.nextChar.nextChar

/-- `mp_lexer_new`: at the first token, which is an INDENT if it is not in the first column. -/
def new (optimise : Nat) (source : List UInt8) : Lexer :=
  let lex := (start source).toNext optimise
  if lex.tokColumn ≠ 1 ∧ lex.tokKind ≠ .newline then { lex with tokKind := .indent } else lex

/-- The lexer at its first token, its second, and so on. -/
def states (optimise : Nat) (source : List UInt8) : Nat → Lexer
  | 0 => new optimise source
  | n + 1 => (states optimise source n).toNext optimise

end Lexer

end PythonUltra.Py
