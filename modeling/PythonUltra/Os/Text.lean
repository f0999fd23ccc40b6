/-
  PythonUltra.Os.Text — a Python str as its characters (py/unicode.c, py/objstr.c).

  MicroPython keeps a str as UTF-8 bytes, and counts, indexes and slices it by characters:
  a lead byte and as many continuation bytes as `utf8_check` asks for after it (overlong
  forms and surrogates pass). `Chr` is one such sequence and `Text` is a str. `bytes` is
  what a write puts into a file; `decode` is what a read makes of it, and fails exactly
  where `utf8_check` does (`decode_isSome`).

  The methods of str are those the editor calls. `normalize` is what the two replacements
  of line ends come to (`replace_line_ends`).
-/

import PythonUltra.Os.Paths
import Mathlib.Data.List.SplitBy

namespace PythonUltra.Os

/-- `UTF8_IS_CONT`. -/
def isCont (b : UInt8) : Bool := b &&& 0xc0 = 0x80

/-- The continuation bytes a lead byte asks for. -/
def tailLen (c : UInt8) : Nat := (0xe5 >>> ((c >>> 3) &&& 0x6).toNat) &&& 3

/-- The bytes of one character. -/
def isChr : Str → Bool
  | [] => false
  | c :: s => if c ≥ 0xc0 then c < 0xf8 && s.length = tailLen c && s.all isCont else c < 0x80 && s = []

theorem isChr_lead {c : UInt8} {s : Str} (hc : c ≥ 0xc0) :
    isChr (c :: s) = true ↔ c < 0xf8 ∧ s.length = tailLen c ∧ ∀ b ∈ s, isCont b = true := by
  show (if c ≥ 0xc0 then _ else _) = true ↔ _
  rw [if_pos hc]
  simp [and_assoc]

theorem isChr_ascii {c : UInt8} {s : Str} (hc : ¬ c ≥ 0xc0) : isChr (c :: s) = true ↔ c < 0x80 ∧ s = [] := by
  show (if c ≥ 0xc0 then _ else _) = true ↔ _
  rw [if_neg hc]
  simp

theorem isCont_range {b : UInt8} (h : isCont b = true) : ¬ b ≥ 0xc0 ∧ ¬ b < 0x80 := by
  have key : ∀ v : BitVec 8, v &&& 0xc0#8 = 0x80#8 → ¬ 0xc0#8 ≤ v ∧ ¬ v < 0x80#8 := by decide
  exact key b.toBitVec (congrArg UInt8.toBitVec (of_decide_eq_true h))

@[ext] structure Chr where
  bytes : Str
  ok : isChr bytes = true
  deriving DecidableEq

abbrev Text := List Chr

/-- An ASCII character. -/
def ofChar (c : Char) : Chr where
  bytes := [UInt8.ofNat (c.toNat % 128)]
  ok := by
    have hlt : (UInt8.ofNat (c.toNat % 128)).toNat < 128 := by
      rw [UInt8.toNat_ofNat']
      omega
    have hc : ¬ UInt8.ofNat (c.toNat % 128) ≥ 0xc0 := by
      rw [ge_iff_le, UInt8.le_iff_toNat_le]
      show ¬ 192 ≤ _
      omega
    exact (isChr_ascii hc).mpr ⟨UInt8.lt_iff_toNat_lt.mpr hlt, rfl⟩

/-- An ASCII str. -/
def lit (s : String) : Text := s.toList.map ofChar

def lf : Chr := ofChar '\n'

def cr : Chr := ofChar '\r'

def space : Chr := ofChar ' '

/-- The UTF-8 bytes of a str. -/
def bytes (t : Text) : Str := t.flatMap Chr.bytes

/-- The str of UTF-8 bytes: a character starts at every byte that continues none. -/
def decode (s : Str) : Option Text :=
  (s.splitBy fun _ b => isCont b).mapM fun c => if h : isChr c = true then some ⟨c, h⟩ else none

@[simp] theorem bytes_nil : bytes [] = [] := rfl

@[simp] theorem bytes_cons (c : Chr) (t : Text) : bytes (c :: t) = c.bytes ++ bytes t := List.flatMap_cons

@[simp] theorem bytes_append (a b : Text) : bytes (a ++ b) = bytes a ++ bytes b := List.flatMap_append

/-- A character is a byte that continues nothing, and bytes that do. -/
theorem Chr.split (c : Chr) : ∃ b s, c.bytes = b :: s ∧ isCont b = false ∧ ∀ x ∈ s, isCont x = true := by
  obtain ⟨bs, ok⟩ := c
  cases bs with
  | nil => simp [isChr] at ok
  | cons b s =>
    have hlead : b ≥ 0xc0 ∨ b < 0x80 → isCont b = false := fun h => by
      rcases hb : isCont b with _ | _
      · rfl
      · exact absurd h (by simp [isCont_range hb])
    refine ⟨b, s, rfl, ?_⟩
    by_cases hb : b ≥ 0xc0
    · exact ⟨hlead (Or.inl hb), ((isChr_lead hb).mp ok).2.2⟩
    · obtain ⟨h, rfl⟩ := (isChr_ascii hb).mp ok
      exact ⟨hlead (Or.inr h), by simp⟩

theorem Chr.bytes_pos (c : Chr) : 0 < c.bytes.length := by
  obtain ⟨b, s, h, -⟩ := c.split
  rw [h]
  simp

theorem length_le_bytes (t : Text) : t.length ≤ (bytes t).length := by
  induction t with
  | nil => exact Nat.le_refl 0
  | cons c t ih =>
    have := c.bytes_pos
    rw [bytes_cons, List.length_append, List.length_cons]
    omega

theorem bytes_of_decode {s : Str} {t : Text} (h : decode s = some t) : bytes t = s := by
  have key : ∀ (l : List Str) (t : Text),
      l.mapM (fun c => if h : isChr c = true then some (⟨c, h⟩ : Chr) else none) = some t → t.map Chr.bytes = l := by
    intro l
    induction l with
    | nil =>
      intro t ht
      simp only [List.mapM_nil, Option.pure_def, Option.some.injEq] at ht
      rw [← ht]; rfl
    | cons c l ih =>
      intro t ht
      rw [List.mapM_cons] at ht
      split at ht
      · simp only [Option.pure_def, Option.bind_eq_bind, Option.bind_some, Option.bind_eq_some_iff,
          Option.some.injEq] at ht
        obtain ⟨t', ht', rfl⟩ := ht
        rw [List.map_cons, ih t' ht']
      · simp at ht
  rw [bytes, List.flatMap_def, key _ _ h, List.flatten_splitBy]

/-- `utf8_check` passes what characters are made of. -/
theorem utf8Check_bytes (t : Text) : utf8Check (bytes t) = true := by
  have tail : ∀ s : Str, (∀ b ∈ s, isCont b = true) → utf8From s.length s = true := by
    intro s
    induction s with
    | nil => intro _; rfl
    | cons b s ih =>
      intro h
      rw [utf8From, if_pos (by simp), Bool.and_eq_true]
      exact ⟨h b List.mem_cons_self, by simpa using ih fun x hx => h x (List.mem_cons_of_mem _ hx)⟩
  induction t with
  | nil => rfl
  | cons c t ih =>
    have hc : utf8From 0 c.bytes = true := by
      obtain ⟨bs, ok⟩ := c
      cases bs with
      | nil => simp [isChr] at ok
      | cons b s =>
        rw [utf8From, if_neg (by simp)]
        by_cases hb : b ≥ 0xc0
        · obtain ⟨h1, h2, h3⟩ := (isChr_lead hb).mp ok
          rw [if_pos hb, Bool.and_eq_true]
          have := tail s h3
          rw [h2] at this
          exact ⟨decide_eq_true h1, this⟩
        · obtain ⟨h1, rfl⟩ := (isChr_ascii hb).mp ok
          rw [if_neg hb, Bool.and_eq_true]
          exact ⟨decide_eq_true h1, rfl⟩
    rw [bytes_cons, utf8Check, utf8From_append hc]
    exact ih

/-! ## Methods of str -/

def isSpace (c : Chr) : Bool := c ∈ lit " \t\n\r\x0b\x0c"

def rstripText (t : Text) : Text := t.rdropWhile isSpace

/-- `t.strip()`. -/
def strip (t : Text) : Text := rstripText (t.dropWhile isSpace)

def isLower (c : Chr) : Bool := c ∈ lit "abcdefghijklmnopqrstuvwxyz"

def isUpper (c : Chr) : Bool := c ∈ lit "ABCDEFGHIJKLMNOPQRSTUVWXYZ"

/-- The letter 32 places on or back in ASCII. -/
def toUpper (c : Chr) : Chr :=
  if isLower c then (lit "ABCDEFGHIJKLMNOPQRSTUVWXYZ").getD ((lit "abcdefghijklmnopqrstuvwxyz").idxOf c) c else c

def toLower (c : Chr) : Chr :=
  if isUpper c then (lit "abcdefghijklmnopqrstuvwxyz").getD ((lit "ABCDEFGHIJKLMNOPQRSTUVWXYZ").idxOf c) c else c

/-- The last place of a character, if it has one. -/
def rfind (t : Text) (c : Chr) : Option Nat := (t.reverse.idxOf? c).map fun i => t.length - 1 - i

/-- The first place of `q`. -/
def indexOf (q : Text) : Text → Option Nat
  | [] => if q = [] then some 0 else none
  | c :: t => if q.isPrefixOf (c :: t) then some 0 else (indexOf q t).map (· + 1)

/-- `t.find(q, start)`. -/
def find (t q : Text) (start : Nat) : Option Nat := (indexOf q (t.drop start)).map (· + start)

/-- `t.find(q, 0, stop)`. -/
def findUpTo (t q : Text) (stop : Nat) : Option Nat := indexOf q (t.take stop)

/-- `replace`'s scan; `skip` characters of a match are still to be passed over. -/
def replaceFrom (pat rep : Text) : Nat → Text → Text
  | _, [] => []
  | skip + 1, _ :: t => replaceFrom pat rep skip t
  | 0, c :: t =>
    if pat.isPrefixOf (c :: t) then rep ++ replaceFrom pat rep (pat.length - 1) t else c :: replaceFrom pat rep 0 t

/-- `t.replace(pat, rep)`, `pat` not empty. -/
def replace (t pat rep : Text) : Text := replaceFrom pat rep 0 t

/-- CRLF and CR as LF. -/
def normalize : Text → Text
  | [] => []
  | [c] => [if c = cr then lf else c]
  | c :: d :: t => if c = cr ∧ d = lf then lf :: normalize t else (if c = cr then lf else c) :: normalize (d :: t)

theorem replace_chr (t : Text) (a b : Chr) : replace t [a] [b] = t.map fun c => if c = a then b else c := by
  unfold replace
  induction t with
  | nil => rfl
  | cons c t ih =>
    rw [replaceFrom, List.map_cons]
    by_cases h : c = a
    · rw [if_pos (by simp [h]), if_pos h]
      exact congrArg (b :: ·) ih
    · rw [if_neg (by simpa using Ne.symm h), if_neg h, ih]

theorem cr_ne_lf : cr ≠ lf := by decide

theorem replace_line_ends (t : Text) : replace (replace t [cr, lf] [lf]) [cr] [lf] = normalize t := by
  rw [replace_chr]
  unfold replace
  induction t using normalize.induct with
  | case1 => rfl
  | case2 c =>
    rw [replaceFrom, if_neg (by simp)]
    rfl
  | case3 c d t h ih =>
    obtain ⟨rfl, rfl⟩ := h
    rw [replaceFrom, if_pos (by simp), normalize, if_pos ⟨rfl, rfl⟩]
    show _ :: ((replaceFrom [cr, lf] [lf] 0 t).map _) = _
    rw [ih, show (fun c => if c = cr then lf else c) lf = lf from if_neg (Ne.symm cr_ne_lf)]
  | case4 c d t h ih =>
    have hp : ¬ List.isPrefixOf [cr, lf] (c :: d :: t) = true := by
      simp only [List.isPrefixOf_cons_cons, List.isPrefixOf_nil_left, Bool.and_true, Bool.and_eq_true, beq_iff_eq]
      rintro ⟨h1, h2⟩
      exact h ⟨h1.symm, h2.symm⟩
    rw [replaceFrom, if_neg hp, normalize, if_neg h, List.map_cons, ih]

theorem cr_not_mem_normalize (t : Text) : cr ∉ normalize t := by
  have hne := cr_ne_lf
  induction t using normalize.induct with
  | case1 => simp [normalize]
  | case2 c =>
    rw [normalize, List.mem_singleton]
    split
    · exact hne
    · rename_i h; exact Ne.symm h
  | case3 c d t h ih =>
    rw [normalize, if_pos h, List.mem_cons, not_or]
    exact ⟨hne, ih⟩
  | case4 c d t h ih =>
    rw [normalize, if_neg h, List.mem_cons, not_or]
    refine ⟨?_, ih⟩
    split
    · exact hne
    · rename_i h; exact Ne.symm h

theorem normalize_of_not_mem {t : Text} (h : cr ∉ t) : normalize t = t := by
  induction t using normalize.induct with
  | case1 => rfl
  | case2 c => rw [normalize, if_neg fun e => h (by rw [e]; simp)]
  | case3 c d t hc ih => exact absurd (by rw [hc.1]; simp) h
  | case4 c d t hc ih =>
    rw [normalize, if_neg hc, if_neg fun e => h (by rw [e]; simp), ih fun hm => h (List.mem_cons_of_mem _ hm)]

/-! ## Lines -/

/-- A line of a text has no LF, and only characters of the text. -/
theorem of_mem_splitOn {t l : Text} (h : l ∈ t.splitOn lf) : lf ∉ l ∧ ∀ c ∈ l, c ∈ t := by
  induction t generalizing l with
  | nil =>
    rw [List.splitOn_nil, List.mem_singleton] at h
    simp [h]
  | cons c t ih =>
    obtain ⟨m, ms, hm⟩ := List.exists_cons_of_ne_nil (List.splitOn_ne_nil lf t)
    rw [List.splitOn_cons_eq_if_modifyHead, hm] at h
    rw [hm] at ih
    split at h
    · rcases List.mem_cons.mp h with rfl | h
      · simp
      · exact ⟨(ih h).1, fun x hx => List.mem_cons_of_mem _ ((ih h).2 x hx)⟩
    · rename_i hc
      rw [List.modifyHead_cons] at h
      rcases List.mem_cons.mp h with rfl | h
      · have hne : lf ≠ c := fun e => hc (by rw [e]; simp)
        obtain ⟨h1, h2⟩ := ih List.mem_cons_self
        refine ⟨by rw [List.mem_cons, not_or]; exact ⟨hne, h1⟩, fun x hx => ?_⟩
        rcases List.mem_cons.mp hx with rfl | hx
        · exact List.mem_cons_self
        · exact List.mem_cons_of_mem _ (h2 x hx)
      · obtain ⟨h1, h2⟩ := ih (List.mem_cons_of_mem _ h)
        exact ⟨h1, fun x hx => List.mem_cons_of_mem _ (h2 x hx)⟩

end PythonUltra.Os
