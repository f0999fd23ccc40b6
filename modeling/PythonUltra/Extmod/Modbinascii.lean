/-
  PythonUltra.Extmod.Modbinascii — base64 (extmod/modbinascii.c) and hexadecimal text (py/objstr.c).

  What is written goes to a block whose size was computed before, in words of `w` bits that
  wrap; a write past it is `none`. The decoder of base64 is told apart from its memory
  (`decode_eq`): it undoes the encoder (`run_firstPass`), and writes no more than three bytes
  for four characters (`run_length`). What is encoded is decoded again, and every text is
  decoded inside of the block, exactly where the sizes do not wrap (`binascii_iff`); the text
  of no bytes is no str.
-/

import Mathlib.Algebra.GroupWithZero.Nat
import Mathlib.Data.Int.ConditionallyCompleteOrder
import Mathlib.Data.List.Basic

namespace PythonUltra.Extmod.Modbinascii

variable (w : Nat)

/-- The block of `vstr_init`. -/
def vstrInit (alloc : Nat) : Nat := max 1 (alloc % 2 ^ w)

/-! ## Base64 -/

/-- `mod_binascii_sextet`, with `none` for -1 -/
def sextet (ch : UInt8) : Option Nat :=
  if ch ≥ 65 ∧ ch ≤ 90 then some (ch.toNat - 65)
  else if ch ≥ 97 ∧ ch ≤ 122 then some (ch.toNat - 97 + 26)
  else if ch ≥ 48 ∧ ch ≤ 57 then some (ch.toNat - 48 + 52)
  else if ch = 43 then some 62
  else if ch = 47 then some 63
  else none

structure Decoder where
  shift : Nat
  nbits : Nat
  hadpad : Bool
  out : List UInt8
  deriving DecidableEq

/-- A sextet, and the byte that it makes up. -/
def Decoder.feed (s : Decoder) (value : Nat) : Decoder :=
  let shift := (s.shift <<< 6 ||| value) % 2 ^ 32
  if s.nbits + 6 ≥ 8 then ⟨shift, s.nbits + 6 - 8, false, s.out ++ [UInt8.ofNat (shift >>> (s.nbits + 6 - 8) &&& 255)]⟩
  else ⟨shift, s.nbits + 6, false, s.out⟩

/-- The decoder stops at a pad that ends a group. -/
def Decoder.Stops (s : Decoder) (ch : UInt8) : Prop := ch = 61 ∧ (s.nbits = 2 ∨ s.nbits = 4 ∧ s.hadpad = true)

instance (s : Decoder) (ch : UInt8) : Decidable (s.Stops ch) := inferInstanceAs (Decidable (_ ∧ _))

/-- The loop of `mod_binascii_a2b_base64`, which writes to a block of `alloc` bytes. -/
def decode (alloc : Nat) : List UInt8 → Decoder → Option Decoder
  | [], s => some s
  | ch :: text, s =>
    if s.Stops ch then some { s with nbits := 0 }
    else
      let s := if ch = 61 then { s with hadpad := true } else s
      match sextet ch with
      | none => decode alloc text s
      | some value => if (s.feed value).out.length ≤ alloc then decode alloc text (s.feed value) else none

/-- `mod_binascii_a2b_base64`: the bytes, or a ValueError. -/
def a2bBase64 (text : List UInt8) : Option (Except String (List UInt8)) :=
  (decode (vstrInit w (text.length * 3 % 2 ^ w / 4 + 1)) text ⟨0, 0, false, []⟩).map fun s =>
    if s.nbits ≠ 0 then .error "incorrect padding" else .ok s.out

/-- The first pass of `mod_binascii_b2a_base64`. -/
def firstPass : List UInt8 → List Nat
  | a :: b :: c :: rest =>
    [(a.toNat &&& 0xfc) >>> 2, (a.toNat &&& 0x03) <<< 4 ||| (b.toNat &&& 0xf0) >>> 4,
      (b.toNat &&& 0x0f) <<< 2 ||| (c.toNat &&& 0xc0) >>> 6, c.toNat &&& 0x3f] ++ firstPass rest
  | [a, b] => [(a.toNat &&& 0xfc) >>> 2, (a.toNat &&& 0x03) <<< 4 ||| (b.toNat &&& 0xf0) >>> 4, (b.toNat &&& 0x0f) <<< 2, 64]
  | [a] => [(a.toNat &&& 0xfc) >>> 2, (a.toNat &&& 0x03) <<< 4, 64, 64]
  | [] => []

/-- A number in the second pass. -/
def ascii (n : Nat) : UInt8 :=
  UInt8.ofNat (if n < 26 then n + 65 else if n < 52 then n + 71 else if n < 62 then n - 4 else if n = 62 then 43 else if n = 63 then 47 else 61)

/-- `mod_binascii_b2a_base64`, of what is written of the first `len` bytes. -/
def b2aBase64 (newline : Bool) (bytes : List UInt8) : Option (List UInt8) :=
  let len := ((if bytes.length ≠ 0 then ((bytes.length - 1) / 3 + 1) * 4 else 0) + newline.toNat) % 2 ^ w
  let text := (firstPass bytes).map ascii ++ (if newline then [10] else [])
  if text.length ≤ vstrInit w (len + 1) then some (text.take len) else none

/-! ## Hexadecimal -/

inductive Obj where
  | bytes (data : List UInt8)
  | str (data : List UInt8)
  deriving DecidableEq

/-- A digit of `mp_obj_bytes_hex`. -/
def hexDigit (d : Nat) : UInt8 := UInt8.ofNat ((if d > 9 then d + 39 else d) + 48)

def hexText (sep : Option UInt8) : List UInt8 → List UInt8
  | [] => []
  | [b] => [hexDigit (b.toNat >>> 4), hexDigit (b.toNat &&& 0xf)]
  | b :: c :: rest => [hexDigit (b.toNat >>> 4), hexDigit (b.toNat &&& 0xf)] ++ sep.toList ++ hexText sep (c :: rest)

/-- `mp_obj_bytes_hex`, where `type` makes the object of the text. -/
def mpObjBytesHex (type : List UInt8 → Obj) (sep : Option UInt8) (bytes : List UInt8) : Option Obj :=
  if bytes.length = 0 then some (.bytes [])
  else
    let outLen := (bytes.length * 2 + (if sep.isSome then bytes.length - 1 else 0)) % 2 ^ w
    if (hexText sep bytes).length ≤ vstrInit w (outLen + 1) then some (type ((hexText sep bytes).take outLen)) else none

/-- `unichar_isspace` -/
def isSpace (c : UInt8) : Bool := (9 ≤ c ∧ c ≤ 13) ∨ c = 32

/-- `unichar_isxdigit` -/
def isXdigit (c : UInt8) : Bool := (48 ≤ c ∧ c ≤ 57) ∨ (65 ≤ c ∧ c ≤ 70) ∨ (97 ≤ c ∧ c ≤ 102)

/-- `unichar_xdigit_value` -/
def xdigitValue (c : UInt8) : Nat := if c.toNat - 48 > 9 then ((c.toNat - 48) &&& 4294967263) - 7 else c.toNat - 48

/-- The loop of `mp_obj_bytes_fromhex`, which writes to a block of `alloc` bytes. -/
def unhex (alloc : Nat) : List UInt8 → List UInt8 → Option (Except String (List UInt8))
  | [], out => some (.ok out)
  | [c], out => if isSpace c then some (.ok out) else some (.error "non-hex digit")
  | c :: d :: text, out =>
    if isSpace c then unhex alloc (d :: text) out
    else if ¬ isXdigit c ∨ ¬ isXdigit d then some (.error "non-hex digit")
    else if out.length < alloc then unhex alloc text (out ++ [UInt8.ofNat (xdigitValue c <<< 4 ||| xdigitValue d)])
    else none

/-- `mp_obj_bytes_fromhex` -/
def mpObjBytesFromhex (text : List UInt8) : Option (Except String (List UInt8)) := unhex (vstrInit w (text.length / 2 + 1)) text []

/-! ## The decoder -/

section
variable {w}

/-- Another character. -/
def Decoder.next (s : Decoder) (ch : UInt8) : Decoder :=
  match sextet ch with
  | none => if ch = 61 then { s with hadpad := true } else s
  | some value => s.feed value

/-- The loop, where there is memory for all that it writes. -/
def run : List UInt8 → Decoder → Decoder
  | [], s => s
  | ch :: text, s => if s.Stops ch then { s with nbits := 0 } else run text (s.next ch)

variable {s : Decoder} {ch : UInt8} {text out : List UInt8} {value alloc : Nat}

theorem length_next : s.out.length ≤ (s.next ch).out.length ∧ 8 * (s.next ch).out.length + (s.next ch).nbits ≤ 8 * s.out.length + s.nbits + 6 := by
  unfold Decoder.next
  split
  · split
    · exact ⟨Nat.le_refl _, Nat.le_add_right _ _⟩
    · exact ⟨Nat.le_refl _, Nat.le_add_right _ _⟩
  · unfold Decoder.feed
    dsimp only
    split
    · simp only [List.length_append, List.length_singleton]
      omega
    · exact ⟨Nat.le_refl _, Nat.le_refl _⟩

theorem run_length : ∀ {text : List UInt8} {s : Decoder}, s.out.length ≤ (run text s).out.length ∧
    8 * (run text s).out.length + (run text s).nbits ≤ 8 * s.out.length + s.nbits + 6 * text.length
  | [], s => ⟨Nat.le_refl _, Nat.le_refl _⟩
  | ch :: text, s => by
    rw [run, List.length_cons]
    split
    · dsimp only
      omega
    · have hnext := @length_next s ch
      have hrest := @run_length text (s.next ch)
      omega

/-- Memory apart, it is that loop. -/
theorem decode_eq : ∀ {text : List UInt8} {s : Decoder}, s.out.length ≤ alloc →
    decode alloc text s = if (run text s).out.length ≤ alloc then some (run text s) else none
  | [], s, h => (if_pos h).symm
  | ch :: text, s, h => by
    rw [decode, run]
    by_cases hstop : s.Stops ch
    · rw [if_pos hstop, if_pos hstop, if_pos h]
    · rw [if_neg hstop, if_neg hstop]
      unfold Decoder.next
      dsimp only
      rcases hsextet : sextet ch with _ | value
      · dsimp only
        split
        · exact decode_eq h
        · exact decode_eq h
      · have hne : ch ≠ 61 := by
          rintro rfl
          cases hsextet
        dsimp only
        rw [if_neg hne]
        split
        · rename_i hfits
          exact decode_eq hfits
        · rename_i hfull
          have hgrown := (@run_length text (s.feed value)).1
          rw [if_neg (by omega)]

/-! ## The encoder -/

theorem run_sextet (h : sextet ch = some value) : run (ch :: text) s = run text (s.feed value) := by
  have hne : ¬ s.Stops ch := by
    rintro ⟨rfl, -⟩
    cases h
  rw [run, if_neg hne, Decoder.next, h]

theorem sextet_ascii : ∀ n < 64, sextet (ascii n) = some n := by decide

theorem ascii_pad : ascii 64 = 61 := by decide

theorem shift_or {x v : Nat} (h : v < 64) : x <<< 6 ||| v = x * 64 + v := by
  rw [← Nat.shiftLeft_add_eq_or_of_lt (show v < 2 ^ 6 from h), Nat.shiftLeft_eq]

theorem byte_eq (x k : Nat) : x >>> k &&& 255 = x / 2 ^ k % 256 := by
  rw [Nat.shiftRight_eq_div_pow]
  exact Nat.and_two_pow_sub_one_eq_mod _ 8

theorem feed_empty {shift : Nat} {hadpad : Bool} (h : value < 64) :
    (Decoder.mk shift 0 hadpad out).feed value = ⟨(shift * 64 + value) % 2 ^ 32, 6, false, out⟩ := by
  rw [Decoder.feed, shift_or h]
  rfl

/-- With `k + 2` bits at hand, a sextet makes up a byte and leaves `k`. -/
theorem feed_byte {shift k : Nat} {hadpad : Bool} (h : value < 64) :
    (Decoder.mk shift (k + 2) hadpad out).feed value =
      ⟨(shift * 64 + value) % 2 ^ 32, k, false, out ++ [UInt8.ofNat ((shift * 64 + value) % 2 ^ 32 / 2 ^ k % 256)]⟩ := by
  rw [Decoder.feed, shift_or h]
  dsimp only
  rw [if_pos (by omega), show k + 2 + 6 - 8 = k by omega, byte_eq]

/-- Two sextets make up a byte, three make up two and four three, whatever was shifted before. -/
theorem feed_group {v1 v2 v3 v4 shift : Nat} {hadpad : Bool} (h1 : v1 < 64) (h2 : v2 < 64) (h3 : v3 < 64) (h4 : v4 < 64) :
    ∃ a b c, ((Decoder.mk shift 0 hadpad out).feed v1).feed v2 = ⟨a, 4, false, out ++ [UInt8.ofNat (v1 * 4 + v2 / 16)]⟩ ∧
      (((Decoder.mk shift 0 hadpad out).feed v1).feed v2).feed v3 =
        ⟨b, 2, false, out ++ [UInt8.ofNat (v1 * 4 + v2 / 16), UInt8.ofNat (v2 % 16 * 16 + v3 / 4)]⟩ ∧
      ((((Decoder.mk shift 0 hadpad out).feed v1).feed v2).feed v3).feed v4 =
        ⟨c, 0, false, out ++ [UInt8.ofNat (v1 * 4 + v2 / 16), UInt8.ofNat (v2 % 16 * 16 + v3 / 4), UInt8.ofNat (v3 % 4 * 64 + v4)]⟩ := by
  rw [feed_empty h1, feed_byte h2, feed_byte h3, feed_byte h4]
  have hfirst : ((shift * 64 + v1) % 2 ^ 32 * 64 + v2) % 2 ^ 32 / 2 ^ 4 % 256 = v1 * 4 + v2 / 16 := by omega
  have hsecond : (((shift * 64 + v1) % 2 ^ 32 * 64 + v2) % 2 ^ 32 * 64 + v3) % 2 ^ 32 / 2 ^ 2 % 256 = v2 % 16 * 16 + v3 / 4 := by omega
  have hthird : ((((shift * 64 + v1) % 2 ^ 32 * 64 + v2) % 2 ^ 32 * 64 + v3) % 2 ^ 32 * 64 + v4) % 2 ^ 32 / 2 ^ 0 % 256 = v3 % 4 * 64 + v4 := by
    omega
  rw [hfirst, hsecond, hthird, List.append_assoc, List.append_assoc]
  exact ⟨_, _, _, rfl, rfl, rfl⟩

set_option maxRecDepth 4000 in
theorem sextets (n : Nat) (hn : n < 256) :
    (n &&& 0xfc) >>> 2 = n / 4 ∧ (n &&& 0x03) <<< 4 = n % 4 * 16 ∧ (n &&& 0xf0) >>> 4 = n / 16 ∧ (n &&& 0x0f) <<< 2 = n % 16 * 4 ∧
      (n &&& 0xc0) >>> 6 = n / 64 ∧ n &&& 0x3f = n % 64 := by
  have hall : ∀ n < 256, (n &&& 0xfc) >>> 2 = n / 4 ∧ (n &&& 0x03) <<< 4 = n % 4 * 16 ∧ (n &&& 0xf0) >>> 4 = n / 16 ∧
      (n &&& 0x0f) <<< 2 = n % 16 * 4 ∧ (n &&& 0xc0) >>> 6 = n / 64 ∧ n &&& 0x3f = n % 64 := by decide
  exact hall n hn

theorem beside : (∀ x < 4, ∀ y < 16, x * 16 ||| y = x * 16 + y) ∧ ∀ x < 16, ∀ y < 4, x * 4 ||| y = x * 4 + y := by decide

theorem run_ascii {n : Nat} (h : n < 64) : run (ascii n :: text) s = run text (s.feed n) := run_sextet (sextet_ascii n h)

theorem ofNat_eq {b : UInt8} {n : Nat} (h : n = b.toNat) : UInt8.ofNat n = b := by
  rw [h, UInt8.ofNat_toNat]

/-- What is encoded is decoded again, after anything that was decoded before it. -/
theorem run_firstPass {tail : List UInt8} (htail : tail = [] ∨ tail = [10]) : ∀ {bytes out : List UInt8} {shift : Nat} {hadpad : Bool},
    (run ((firstPass bytes).map ascii ++ tail) ⟨shift, 0, hadpad, out⟩).nbits = 0 ∧
      (run ((firstPass bytes).map ascii ++ tail) ⟨shift, 0, hadpad, out⟩).out = out ++ bytes
  | [], out, shift, hadpad => by
    rcases htail with rfl | rfl
    · exact ⟨rfl, (List.append_nil out).symm⟩
    · exact ⟨rfl, (List.append_nil out).symm⟩
  | [a], out, shift, hadpad => by
    have ha := sextets a.toNat a.toNat_lt
    have hlt := a.toNat_lt
    have hpass : firstPass [a] = [a.toNat / 4, a.toNat % 4 * 16, 64, 64] := by
      rw [firstPass, ha.1, ha.2.1]
    clear ha
    obtain ⟨x, -, -, hfed, -⟩ := @feed_group out (a.toNat / 4) (a.toNat % 4 * 16) 0 0 shift hadpad (by omega) (by omega) (by omega) (by omega)
    rw [hpass]
    simp only [List.map_cons, List.map_nil, List.cons_append, List.nil_append, ascii_pad]
    rw [run_ascii (by omega), run_ascii (by omega), hfed, ofNat_eq (show a.toNat / 4 * 4 + a.toNat % 4 * 16 / 16 = a.toNat by omega)]
    -- the first of two pads is counted, and the second ends the group
    exact ⟨rfl, rfl⟩
  | [a, b], out, shift, hadpad => by
    have ha := sextets a.toNat a.toNat_lt
    have hb := sextets b.toNat b.toNat_lt
    have hlt := And.intro a.toNat_lt b.toNat_lt
    have hmid := beside.1 (a.toNat % 4) (Nat.mod_lt _ (by decide)) (b.toNat / 16) (Nat.div_lt_of_lt_mul b.toNat_lt)
    have hpass : firstPass [a, b] = [a.toNat / 4, a.toNat % 4 * 16 + b.toNat / 16, b.toNat % 16 * 4, 64] := by
      rw [firstPass, ha.1, ha.2.1, hb.2.2.1, hb.2.2.2.1, hmid]
    clear ha hb hmid
    obtain ⟨-, x, -, -, hfed, -⟩ := @feed_group out (a.toNat / 4) (a.toNat % 4 * 16 + b.toNat / 16) (b.toNat % 16 * 4) 0 shift hadpad
      (by omega) (by omega) (by omega) (by omega)
    rw [hpass]
    simp only [List.map_cons, List.map_nil, List.cons_append, List.nil_append, ascii_pad]
    rw [run_ascii (by omega), run_ascii (by omega), run_ascii (by omega), hfed,
      ofNat_eq (show a.toNat / 4 * 4 + (a.toNat % 4 * 16 + b.toNat / 16) / 16 = a.toNat by omega),
      ofNat_eq (show (a.toNat % 4 * 16 + b.toNat / 16) % 16 * 16 + b.toNat % 16 * 4 / 4 = b.toNat by omega)]
    exact ⟨rfl, rfl⟩
  | a :: b :: c :: rest, out, shift, hadpad => by
    have ha := sextets a.toNat a.toNat_lt
    have hb := sextets b.toNat b.toNat_lt
    have hc := sextets c.toNat c.toNat_lt
    have hlt := And.intro a.toNat_lt (And.intro b.toNat_lt c.toNat_lt)
    have hmid := beside.1 (a.toNat % 4) (Nat.mod_lt _ (by decide)) (b.toNat / 16) (Nat.div_lt_of_lt_mul b.toNat_lt)
    have hmid' := beside.2 (b.toNat % 16) (Nat.mod_lt _ (by decide)) (c.toNat / 64) (Nat.div_lt_of_lt_mul c.toNat_lt)
    have hpass : firstPass (a :: b :: c :: rest) =
        [a.toNat / 4, a.toNat % 4 * 16 + b.toNat / 16, b.toNat % 16 * 4 + c.toNat / 64, c.toNat % 64] ++ firstPass rest := by
      rw [firstPass, ha.1, ha.2.1, hb.2.2.1, hb.2.2.2.1, hc.2.2.2.2.1, hc.2.2.2.2.2, hmid, hmid']
    clear ha hb hc hmid hmid'
    obtain ⟨-, -, x, -, -, hfed⟩ := @feed_group out (a.toNat / 4) (a.toNat % 4 * 16 + b.toNat / 16) (b.toNat % 16 * 4 + c.toNat / 64)
      (c.toNat % 64) shift hadpad (by omega) (by omega) (by omega) (by omega)
    rw [hpass]
    simp only [List.map_cons, List.cons_append, List.nil_append]
    rw [run_ascii (by omega), run_ascii (by omega), run_ascii (by omega), run_ascii (by omega), hfed,
      ofNat_eq (show a.toNat / 4 * 4 + (a.toNat % 4 * 16 + b.toNat / 16) / 16 = a.toNat by omega),
      ofNat_eq (show (a.toNat % 4 * 16 + b.toNat / 16) % 16 * 16 + (b.toNat % 16 * 4 + c.toNat / 64) / 4 = b.toNat by omega),
      ofNat_eq (show (b.toNat % 16 * 4 + c.toNat / 64) % 4 * 64 + c.toNat % 64 = c.toNat by omega)]
    obtain ⟨hbits, hout⟩ := @run_firstPass tail htail rest (out ++ [a, b, c]) x false
    refine ⟨hbits, ?_⟩
    rw [hout, List.append_assoc]
    rfl

/-! ## Sizes -/

variable {n x : Nat} {bytes : List UInt8} {newline : Bool}

theorem firstPass_length : ∀ {bytes : List UInt8}, (firstPass bytes).length = 4 * ((bytes.length + 2) / 3)
  | [] => rfl
  | [a] => by simp [firstPass]
  | [a, b] => by simp [firstPass]
  | a :: b :: c :: rest => by
    rw [firstPass, List.length_append, @firstPass_length rest]
    simp only [List.length_cons, List.length_nil]
    omega

theorem word_eq (hw : 32 ≤ w) : ∃ q, 1 ≤ q ∧ 2 ^ w = 4294967296 * q := by
  refine ⟨2 ^ (w - 32), Nat.one_le_two_pow, ?_⟩
  rw [show 4294967296 = 2 ^ 32 by decide, ← Nat.pow_add]
  congr 1
  omega

theorem vstrInit_of_lt (h : n + 1 < 2 ^ w) : vstrInit w (n + 1) = n + 1 := by
  rw [vstrInit, Nat.mod_eq_of_lt h]
  omega

theorem vstrInit_lt (hw : 32 ≤ w) : vstrInit w n < 2 ^ w := by
  obtain ⟨q, hq, hword⟩ := word_eq hw
  have hlt := Nat.mod_lt n (Nat.two_pow_pos w)
  unfold vstrInit
  omega

theorem vstrInit_le : vstrInit w n ≤ max 1 n := by
  have hle := Nat.mod_le n (2 ^ w)
  unfold vstrInit
  omega

theorem mod_le_sub (h : 2 ^ w ≤ x) : x % 2 ^ w ≤ x - 2 ^ w := by
  rw [Nat.mod_eq_sub_mod h]
  exact Nat.mod_le _ _

theorem a2b_eq : a2bBase64 w text =
    if (run text ⟨0, 0, false, []⟩).out.length ≤ vstrInit w (text.length * 3 % 2 ^ w / 4 + 1) then
      some (if (run text ⟨0, 0, false, []⟩).nbits ≠ 0 then .error "incorrect padding" else .ok (run text ⟨0, 0, false, []⟩).out)
    else none := by
  rw [a2bBase64, decode_eq (Nat.zero_le _)]
  split
  · rfl
  · rfl

theorem alloc_of_wrapped (hx : 2 ^ w ≤ x) : vstrInit w (x % 2 ^ w / 4 + 1) ≤ (x - 2 ^ w) / 4 + 1 := by
  have hle := @mod_le_sub w x hx
  have hinit := @vstrInit_le w (x % 2 ^ w / 4 + 1)
  omega

/-- So many sextets that are all zero. -/
theorem run_zeros : ∀ {n : Nat} {s : Decoder}, s.nbits < 8 → (run (List.replicate n 65) s).nbits < 8 ∧
    8 * (run (List.replicate n 65) s).out.length + (run (List.replicate n 65) s).nbits = 8 * s.out.length + s.nbits + 6 * n
  | 0, s, hbits => ⟨hbits, rfl⟩
  | n + 1, s, hbits => by
    have hzero : sextet 65 = some 0 := by decide
    have hfed : (s.feed 0).nbits < 8 ∧ 8 * (s.feed 0).out.length + (s.feed 0).nbits = 8 * s.out.length + s.nbits + 6 := by
      unfold Decoder.feed
      dsimp only
      split
      · simp only [List.length_append, List.length_singleton]
        omega
      · dsimp only
        omega
    obtain ⟨hbits', hlen⟩ := @run_zeros n (s.feed 0) hfed.1
    rw [List.replicate_succ, run_sextet hzero]
    exact ⟨hbits', by omega⟩

/-- Every text of a length is decoded inside of the block exactly where three times that length does not wrap. -/
theorem a2b_safe_iff (hw : 32 ≤ w) (hn : n < 2 ^ w) : (∀ text : List UInt8, text.length = n → a2bBase64 w text ≠ none) ↔ 3 * n < 2 ^ w := by
  obtain ⟨q, hq, hword⟩ := word_eq hw
  constructor
  · intro hsafe
    by_contra hlong
    obtain ⟨hbits, hlen⟩ := @run_zeros n ⟨0, 0, false, []⟩ (by decide)
    have halloc := @alloc_of_wrapped w (n * 3) (by omega)
    refine hsafe (List.replicate n 65) List.length_replicate ?_
    rw [a2b_eq, List.length_replicate, if_neg]
    rw [List.length_nil] at hlen
    omega
  · rintro hfits text rfl
    have hlen := (@run_length text ⟨0, 0, false, []⟩).2
    rw [List.length_nil] at hlen
    rw [a2b_eq, Nat.mod_eq_of_lt (by omega), vstrInit_of_lt (by omega), if_pos (by dsimp only at hlen; omega)]
    exact Option.some_ne_none _

theorem text_length : ((firstPass bytes).map ascii ++ (if newline then [10] else [])).length = 4 * ((bytes.length + 2) / 3) + newline.toNat := by
  rw [List.length_append, List.length_map, firstPass_length]
  cases newline <;> rfl

theorem size_eq : (if bytes.length ≠ 0 then ((bytes.length - 1) / 3 + 1) * 4 else 0) = 4 * ((bytes.length + 2) / 3) := by
  split <;> omega

theorem b2a_eq (hw : 32 ≤ w) (hfits : 4 * ((bytes.length + 2) / 3) < 2 ^ w) :
    b2aBase64 w newline bytes = some ((firstPass bytes).map ascii ++ (if newline then [10] else [])) := by
  obtain ⟨q, hq, hword⟩ := word_eq hw
  have hnewline := Bool.toNat_le newline
  unfold b2aBase64
  dsimp only
  rw [size_eq, Nat.mod_eq_of_lt (show 4 * ((bytes.length + 2) / 3) + newline.toNat < 2 ^ w by omega), vstrInit_of_lt (by omega), text_length,
    if_pos (by omega), ← @text_length bytes newline, List.take_length]

theorem b2a_none (hw : 32 ≤ w) (hlong : 2 ^ w ≤ 4 * ((bytes.length + 2) / 3)) : b2aBase64 w newline bytes = none := by
  refine if_neg fun hfits => ?_
  have halloc := Nat.lt_of_le_of_lt hfits (vstrInit_lt hw)
  rw [text_length] at halloc
  omega

/-- What is encoded is decoded again exactly where three times the longer text does not wrap. -/
theorem base64_iff (hw : 32 ≤ w) :
    (∀ (bytes : List UInt8) (newline : Bool), bytes.length = n →
      ∃ text, b2aBase64 w newline bytes = some text ∧ a2bBase64 w text = some (.ok bytes)) ↔ 3 * (4 * ((n + 2) / 3) + 1) < 2 ^ w := by
  obtain ⟨q, hq, hword⟩ := word_eq hw
  have hround : ∀ (bytes : List UInt8) (newline : Bool),
      (run ((firstPass bytes).map ascii ++ (if newline then [10] else [])) ⟨0, 0, false, []⟩).nbits = 0 ∧
        (run ((firstPass bytes).map ascii ++ (if newline then [10] else [])) ⟨0, 0, false, []⟩).out = bytes := by
    intro bytes newline
    exact @run_firstPass (if newline then [10] else []) (by cases newline <;> simp) bytes [] 0 false
  constructor
  · intro hall
    by_contra hlong
    obtain ⟨text, henc, hdec⟩ := hall (List.replicate n 0) true List.length_replicate
    by_cases hfits : 4 * ((n + 2) / 3) < 2 ^ w
    · rw [b2a_eq hw (by rw [List.length_replicate]; exact hfits)] at henc
      obtain rfl := Option.some.inj henc
      obtain ⟨hbits, hout⟩ := hround (List.replicate n 0) true
      have halloc := @alloc_of_wrapped w ((4 * ((n + 2) / 3) + 1) * 3) (by omega)
      rw [a2b_eq, text_length, List.length_replicate, hout, List.length_replicate, if_neg] at hdec
      · cases hdec
      · rw [Bool.toNat_true]
        omega
    · rw [b2a_none hw (by rw [List.length_replicate]; omega)] at henc
      cases henc
  · rintro hfits bytes newline rfl
    obtain ⟨hbits, hout⟩ := hround bytes newline
    have hnewline := Bool.toNat_le newline
    refine ⟨_, b2a_eq hw (by omega), ?_⟩
    rw [a2b_eq, text_length, hbits, hout, if_neg (not_not.mpr rfl), Nat.mod_eq_of_lt (by omega), vstrInit_of_lt (by omega), if_pos (by omega)]

/-! ## Hexadecimal text -/

theorem hexDigit_facts : ∀ d < 16, isSpace (hexDigit d) = false ∧ isXdigit (hexDigit d) = true ∧ xdigitValue (hexDigit d) = d := by decide

set_option maxRecDepth 4000 in
theorem nibbles : ∀ n < 256, n >>> 4 < 16 ∧ n &&& 0xf < 16 ∧ (n >>> 4) <<< 4 ||| (n &&& 0xf) = n := by decide

theorem unhex_byte {b : UInt8} : unhex alloc (hexDigit (b.toNat >>> 4) :: hexDigit (b.toNat &&& 0xf) :: text) out =
    if out.length < alloc then unhex alloc text (out ++ [b]) else none := by
  obtain ⟨hhigh, hlow, hboth⟩ := nibbles b.toNat b.toNat_lt
  obtain ⟨hspace, hdigit, hvalue⟩ := hexDigit_facts _ hhigh
  obtain ⟨-, hdigit', hvalue'⟩ := hexDigit_facts _ hlow
  rw [unhex, if_neg (by rw [hspace]; decide), if_neg (by rw [hdigit, hdigit']; decide), hvalue, hvalue', hboth, UInt8.ofNat_toNat]

theorem isSpace_blank : ∀ c ∈ some (32 : UInt8), isSpace c = true := by
  rintro c ⟨⟩
  rfl

theorem unhex_space {c : UInt8} (h : isSpace c = true) : unhex alloc (c :: text) out = unhex alloc text out := by
  cases text with
  | nil => rw [unhex, unhex, if_pos h]
  | cons d text => rw [unhex, if_pos h]

theorem unhex_hexText {sep : Option UInt8} (hsep : ∀ c ∈ sep, isSpace c = true) : ∀ {bytes out : List UInt8}, out.length + bytes.length ≤ alloc →
    unhex alloc (hexText sep bytes) out = some (.ok (out ++ bytes))
  | [], out, _ => by rw [hexText, unhex, List.append_nil]
  | [b], out, h => by
    rw [List.length_singleton] at h
    rw [hexText, unhex_byte, if_pos (show out.length < alloc from h), unhex]
  | b :: c :: rest, out, h => by
    simp only [List.length_cons] at h
    have hrest := @unhex_hexText sep hsep (c :: rest) (out ++ [b]) (by
      simp only [List.length_append, List.length_cons, List.length_nil]
      omega)
    have hskip : unhex alloc (sep.toList ++ hexText sep (c :: rest)) (out ++ [b]) = unhex alloc (hexText sep (c :: rest)) (out ++ [b]) := by
      cases sep with
      | none => rfl
      | some s => exact unhex_space (hsep s rfl)
    have hfirst : hexText sep (b :: c :: rest) = hexDigit (b.toNat >>> 4) :: hexDigit (b.toNat &&& 0xf) :: (sep.toList ++ hexText sep (c :: rest)) := by
      rw [hexText, List.append_assoc]
      rfl
    rw [hfirst, unhex_byte, if_pos (by omega), hskip, hrest, List.append_assoc]
    rfl

theorem hexText_length {sep : Option UInt8} : ∀ {bytes : List UInt8},
    (hexText sep bytes).length = bytes.length * 2 + (if sep.isSome then bytes.length - 1 else 0)
  | [] => by cases sep <;> rfl
  | [b] => by cases sep <;> rfl
  | b :: c :: rest => by
    have hrest := @hexText_length sep (c :: rest)
    simp only [List.length_cons] at hrest
    rw [hexText]
    simp only [List.length_append, List.length_cons, List.length_nil, hrest]
    cases sep with
    | none =>
      simp
      omega
    | some s =>
      simp
      omega

/-- Any text is decoded inside of the block: two digits for a byte. -/
theorem unhex_safe : ∀ {text out : List UInt8}, 2 * out.length + text.length < 2 * alloc → unhex alloc text out ≠ none
  | [], out, _ => by
    rw [unhex]
    exact Option.some_ne_none _
  | [c], out, _ => by
    rw [unhex]
    split
    · exact Option.some_ne_none _
    · exact Option.some_ne_none _
  | c :: d :: text, out, h => by
    simp only [List.length_cons] at h
    rw [unhex]
    split
    · refine unhex_safe ?_
      rw [List.length_cons]
      omega
    · split
      · exact Option.some_ne_none _
      · rw [if_pos (by omega)]
        refine unhex_safe ?_
        rw [List.length_append, List.length_singleton]
        omega

theorem fromhex_safe (hw : 32 ≤ w) (h : text.length < 2 ^ w) : mpObjBytesFromhex w text ≠ none := by
  obtain ⟨q, hq, hword⟩ := word_eq hw
  rw [mpObjBytesFromhex, vstrInit_of_lt (by omega)]
  refine unhex_safe ?_
  rw [List.length_nil]
  omega

/-- The text of so many bytes, and more than none, is a str and is decoded again exactly where its length does not wrap. -/
theorem hex_iff (hw : 32 ≤ w) :
    (∀ (bytes : List UInt8) (sep : Option UInt8), bytes.length = n → (∀ c ∈ sep, isSpace c = true) →
      ∃ text, mpObjBytesHex w .str sep bytes = some (.str text) ∧ mpObjBytesFromhex w text = some (.ok bytes)) ↔ n ≠ 0 ∧ 3 * n < 2 ^ w := by
  obtain ⟨q, hq, hword⟩ := word_eq hw
  constructor
  · intro hall
    obtain ⟨text, hhex, -⟩ := hall (List.replicate n 0) (some 32) List.length_replicate isSpace_blank
    by_cases hzero : n = 0
    · subst hzero
      cases hhex
    · refine ⟨hzero, Nat.lt_of_not_le fun hlong => ?_⟩
      have hlen : n * 2 + (n - 1) = 2 ^ w - 1 ∨ 2 ^ w ≤ n * 2 + (n - 1) := by
        clear hword
        omega
      unfold mpObjBytesHex at hhex
      rw [if_neg (by rw [List.length_replicate]; exact hzero)] at hhex
      dsimp only at hhex
      rw [hexText_length, List.length_replicate, Option.isSome_some, if_pos rfl, if_neg] at hhex
      · cases hhex
      · -- a length of all ones asks for a block of 0 bytes, any other that wraps for one of less than a word
        rcases hlen with hones | hwrap
        · rw [hones, Nat.mod_eq_of_lt (by omega), Nat.sub_add_cancel (by omega), vstrInit, Nat.mod_self]
          omega
        · exact Nat.not_le.mpr (Nat.lt_of_lt_of_le (vstrInit_lt hw) hwrap)
  · rintro ⟨hzero, hfits⟩ bytes sep rfl hsep
    have hlen := @hexText_length sep bytes
    have hle : (if sep.isSome then bytes.length - 1 else 0) ≤ bytes.length - 1 := by
      split
      · exact Nat.le_refl _
      · exact Nat.zero_le _
    refine ⟨hexText sep bytes, ?_, ?_⟩
    · unfold mpObjBytesHex
      rw [if_neg hzero]
      dsimp only
      rw [← hlen, Nat.mod_eq_of_lt (by omega), vstrInit_of_lt (by omega), if_pos (Nat.le_succ _), List.take_length]
    · rw [mpObjBytesFromhex, vstrInit_of_lt (by omega), unhex_hexText hsep (by rw [List.length_nil]; omega)]
      rfl

/-- For the inputs of each length: what is encoded is decoded again, and any text is decoded inside of the block. -/
theorem binascii_iff (hw : 32 ≤ w) (hn : n < 2 ^ w) :
    ((∀ (bytes : List UInt8) (newline : Bool), bytes.length = n →
      ∃ text, b2aBase64 w newline bytes = some text ∧ a2bBase64 w text = some (.ok bytes)) ↔ 3 * (4 * ((n + 2) / 3) + 1) < 2 ^ w) ∧
    ((∀ (bytes : List UInt8) (sep : Option UInt8), bytes.length = n → (∀ c ∈ sep, isSpace c = true) →
      ∃ text, mpObjBytesHex w .str sep bytes = some (.str text) ∧ mpObjBytesFromhex w text = some (.ok bytes)) ↔ n ≠ 0 ∧ 3 * n < 2 ^ w) ∧
    ((∀ text : List UInt8, text.length = n → a2bBase64 w text ≠ none) ↔ 3 * n < 2 ^ w) ∧
    ∀ text : List UInt8, text.length = n → mpObjBytesFromhex w text ≠ none :=
  ⟨base64_iff hw, hex_iff hw, a2b_safe_iff hw hn, fun _ hlen => fromhex_safe hw (hlen ▸ hn)⟩

end

theorem binascii_iff_one :
    (∃ text, b2aBase64 32 true [255] = some text ∧ a2bBase64 32 text = some (.ok [255])) ∧
      ∃ text, mpObjBytesHex 32 .str (some 32) [255] = some (.str text) ∧ mpObjBytesFromhex 32 text = some (.ok [255]) := by
  obtain ⟨hbase64, hhex, -, -⟩ := @binascii_iff 32 1 (Nat.le_refl 32) (by decide)
  exact ⟨hbase64.mpr (by decide) [255] true rfl, hhex.mpr (by decide) [255] (some 32) rfl isSpace_blank⟩

/-- The text of no bytes is bytes. -/
theorem hex_counterexample : ¬ ∃ text, mpObjBytesHex 32 .str none [] = some (.str text) := by
  rintro ⟨text, h⟩
  cases h

end PythonUltra.Extmod.Modbinascii
