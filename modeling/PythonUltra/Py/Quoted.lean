/-
  PythonUltra.Py.Quoted — str and bytes as they are printed for repr (py/objstrunicode.c,
  py/objstr.c, py/unicode.c).

  A str is its bytes, after which memory has a null byte. A number in hexadecimal digits is
  printed where it has no more than the width.
-/

import Mathlib.Data.List.Basic

namespace PythonUltra.Py.Quoted

/-! ## utf8_get_char, utf8_next_char -/

/-- `UTF8_IS_CONT` -/
def isCont (b : UInt8) : Bool := b &&& 0xC0 == 0x80

/-- The bits of the first byte that count its followers are cleared. -/
def clearLead : Nat → Nat → Nat → Nat
  | 0, _, ord => ord
  | fuel + 1, mask, ord => if ord &&& mask ≠ 0 then clearLead fuel (mask >>> 1) (ord - mask) else ord

def contLoop : Nat → List UInt8 → Nat
  | ord, [] => ord
  | ord, b :: s => if isCont b then contLoop ((ord <<< 6) ||| (b.toNat &&& 0x3F)) s else ord

def utf8GetChar : List UInt8 → Nat
  | [] => 0
  | b :: s => if b.toNat &&& 0x80 = 0 then b.toNat else contLoop (clearLead 7 0x40 (b.toNat &&& 0x7F)) s

def utf8NextChar (s : List UInt8) : List UInt8 := s.tail.dropWhile isCont

/-! ## Printing -/

/-- The loop that looks for quotes, up to the first double one: whether there are single and double ones. -/
def findQuotes (hasSingleQuote : Bool) : List UInt8 → Bool × Bool
  | [] => (hasSingleQuote, false)
  | b :: s => if b = '\''.toUInt8 then findQuotes true s else if b = '"'.toUInt8 then (hasSingleQuote, true) else findQuotes hasSingleQuote s

def quoteChar (strData : List UInt8) : Char :=
  let (hasSingleQuote, hasDoubleQuote) := findQuotes false strData
  if hasSingleQuote ∧ ¬ hasDoubleQuote then '"' else '\''

/-- `%02x`, `%04x` and `%08x` -/
def hex : Nat → Nat → List UInt8
  | 0, _ => []
  | width + 1, n => hex width (n / 16) ++ [UInt8.ofNat (if n % 16 ≥ 10 then n % 16 + 'a'.toNat - 10 else n % 16 + '0'.toNat)]

/-- A character of a str. -/
def uniChar (quote : Char) (ch : Nat) : List UInt8 :=
  if ch = quote.toNat then ['\\'.toUInt8, quote.toUInt8]
  else if ch = '\\'.toNat then ['\\'.toUInt8, '\\'.toUInt8]
  else if 32 ≤ ch ∧ ch ≤ 126 then [UInt8.ofNat ch]
  else if ch = '\n'.toNat then ['\\'.toUInt8, 'n'.toUInt8]
  else if ch = '\r'.toNat then ['\\'.toUInt8, 'r'.toUInt8]
  else if ch = '\t'.toNat then ['\\'.toUInt8, 't'.toUInt8]
  else if ch < 0x100 then ['\\'.toUInt8, 'x'.toUInt8] ++ hex 2 ch
  else if ch < 0x10000 then ['\\'.toUInt8, 'u'.toUInt8] ++ hex 4 ch
  else ['\\'.toUInt8, 'U'.toUInt8] ++ hex 8 ch

/-- The loop over the characters; it takes a byte at least in a turn. -/
def uniLoop (quote : Char) : Nat → List UInt8 → List UInt8
  | 0, _ => []
  | fuel + 1, s => if s = [] then [] else uniChar quote (utf8GetChar s) ++ uniLoop quote fuel (utf8NextChar s)

/-- `uni_print_quoted` -/
def uniPrintQuoted (strData : List UInt8) : List UInt8 :=
  let quote := quoteChar strData
  quote.toUInt8 :: (uniLoop quote (strData.length + 1) strData ++ [quote.toUInt8])

/-- A byte of bytes, or of a str without unicode. -/
def strChar (isBytes : Bool) (quote : Char) (b : UInt8) : List UInt8 :=
  if b = quote.toUInt8 then ['\\'.toUInt8, quote.toUInt8]
  else if b = '\\'.toUInt8 then ['\\'.toUInt8, '\\'.toUInt8]
  else if b ≥ 0x20 ∧ b ≠ 0x7f ∧ (isBytes = false ∨ b < 0x80) then [b]
  else if b = '\n'.toUInt8 then ['\\'.toUInt8, 'n'.toUInt8]
  else if b = '\r'.toUInt8 then ['\\'.toUInt8, 'r'.toUInt8]
  else if b = '\t'.toUInt8 then ['\\'.toUInt8, 't'.toUInt8]
  else ['\\'.toUInt8, 'x'.toUInt8] ++ hex 2 b.toNat

/-- `mp_str_print_quoted` -/
def strPrintQuoted (strData : List UInt8) (isBytes : Bool) : List UInt8 :=
  let quote := quoteChar strData
  quote.toUInt8 :: (strData.flatMap (strChar isBytes quote) ++ [quote.toUInt8])

/-- repr of a str and of bytes. -/
def reprStr (s : List UInt8) : List UInt8 := uniPrintQuoted s
def reprBytes (b : List UInt8) : List UInt8 := 'b'.toUInt8 :: strPrintQuoted b true

end PythonUltra.Py.Quoted
