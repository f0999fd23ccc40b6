/-
  PythonUltra.Pygame.Ppm — `_load_ppm` (ports/sh/modules/pygame/__init__.py).

  The index of the source is the data from it on. `Tokens` is the header's grammar: what the
  loop of `_load_ppm` reads is what it derives (`tokenize_tokens`, `tokenize_sound`).

  `loadPpm_iff`: images load, and malformed or short data is an `error`, but for a text that
  is no number, which is a ValueError, and for pixels that begin with blanks: all of these
  are skipped, where one should be.
-/

import Mathlib.Data.List.TakeWhile
import Mathlib.Data.Nat.Digits.Defs
import PythonUltra.Pygame.Memory

open PythonUltra.Lib.Raster PythonUltra.Sh.Colorkey

namespace PythonUltra.Pygame

/-! ## Numbers -/

/-- `unichar_isspace` -/
def isSpace (c : Byte) : Bool := c = 32 || 9 ≤ c && c ≤ 13

def isDigit (c : Byte) : Bool := 48 ≤ c && c < 58

/-- The number of digits and underscores; only digits count. -/
def decValue (digits : List Byte) : Nat := (digits.filter isDigit).foldl (fun v c => v * 10 + (c.toNat - 48)) 0

/-- `int(text)` of bytes (mp_parse_num_integer). A number that is no small int is read anew
by `mpz_set_from_str`, which stops at an underscore. none: ValueError. -/
def intDecimal (text : List Byte) : Option Int :=
  let text := text.dropWhile isSpace
  let neg := text.head? = some 45
  let text := if text.head? = some 43 ∨ text.head? = some 45 then text.tail else text
  let digits := text.takeWhile fun c => isDigit c || c = 95
  let digits := if 2 ^ 30 ≤ decValue digits then text.takeWhile isDigit else digits
  let rest := text.drop digits.length
  if digits = [] ∨ ¬ rest.all isSpace then none
  else if neg then some (-decValue digits) else some (decValue digits)

/-! ## The source -/

inductive LoadExc where
  | error (msg : String)
  /-- ValueError of `int(text)` -/
  | intError (text : List Byte)
  | exc (e : BlitExc)

def isBlank (c : Byte) : Bool := c = 32 || c = 9 || c = 13 || c = 10

/-- The byte does not end a line. -/
def inLine (c : Byte) : Bool := c ≠ 13 && c ≠ 10

/-- The byte does not end a token. -/
def inToken (c : Byte) : Bool := !isBlank c

/-- Of data that is not empty, less is left after a comment or a token. -/
theorem shorter {data : List Byte} (hdata : data ≠ []) : ((data.dropWhile isBlank).head? = some 35 →
      ((data.dropWhile isBlank).dropWhile inLine).length < data.length) ∧
    ((data.dropWhile isBlank).dropWhile inToken).length < data.length := by
  have hle := (List.dropWhile_suffix isBlank (l := data)).length_le
  rcases hskipped : data.dropWhile isBlank with _ | ⟨c, rest⟩
  · refine ⟨nofun, ?_⟩
    rw [List.dropWhile_nil]
    exact List.length_pos_iff.mpr hdata
  · have hc : isBlank c = false := by
      have hhead := List.head?_dropWhile_not isBlank data
      rw [hskipped] at hhead
      exact hhead
    rw [hskipped, List.length_cons] at hle
    refine ⟨fun hcomment => ?_, ?_⟩
    · obtain rfl : c = 35 := Option.some.inj hcomment
      rw [List.dropWhile_cons_of_pos (by decide)]
      exact Nat.lt_of_le_of_lt (List.dropWhile_suffix inLine).length_le hle
    · rw [List.dropWhile_cons_of_pos (by rw [inToken, hc]; rfl)]
      exact Nat.lt_of_le_of_lt (List.dropWhile_suffix _).length_le hle

/-- The loop of `_load_ppm` that reads the tokens. -/
def tokenize (tokens : List (List Byte)) (data : List Byte) : List (List Byte) × List Byte :=
  if tokens.length < 4 ∧ data ≠ [] then
    let start := data.dropWhile isBlank
    if start.head? = some 35 then tokenize tokens (start.dropWhile inLine)
    else tokenize (tokens ++ [start.takeWhile inToken]) (start.dropWhile inToken)
  else (tokens, data)
termination_by data.length
decreasing_by
  · exact (shorter (by tauto)).1 (by assumption)
  · exact (shorter (by tauto)).2

def magic : List Byte := [0x50, 0x36]

def intOf (text : List Byte) : Except LoadExc Int :=
  match intDecimal text with
  | some value => .ok value
  | none => .error (.intError text)

/-- The value put for three bytes. -/
def ppmColor (maximum : Int) (red green blue : Byte) : Nat :=
  if maximum ≠ 255 then color565 (red.toNat * 255 / maximum) (green.toNat * 255 / maximum) (blue.toNat * 255 / maximum)
  else color565 red.toNat green.toNat blue.toNat

/-- A turn of the loops over the pixels. none: IndexError. -/
def ppmTurn (w h maximum : Int) (y : Nat) (state : List Byte × Array Byte) (x : Nat) : Option (List Byte × Array Byte) :=
  match state with
  | (red :: green :: blue :: data, raw) => do
    let raw ← put565 w h raw x y (ppmColor maximum red green blue)
    pure (data, raw)
  | _ => none

def ppmLoops (w h maximum : Int) (state : List Byte × Array Byte) : Option (List Byte × Array Byte) :=
  (List.range h.toNat).foldlM (fun state y => (List.range w.toNat).foldlM (ppmTurn w h maximum y) state) state

theorem ppmLoops_size {w h maximum : Int} {state state' : List Byte × Array Byte} (hrun : ppmLoops w h maximum state = some state') :
    state'.2.size = state.2.size := by
  refine foldlM_keeps (P := fun s => s.2.size = state.2.size) (fun s y s' hrow hs => ?_) hrun rfl
  refine foldlM_keeps (P := fun s => s.2.size = state.2.size) (fun s x s' hone hs => ?_) hrow hs
  unfold ppmTurn at hone
  split at hone
  · obtain ⟨raw, hput, hstate⟩ := Option.bind_eq_some_iff.mp hone
    rw [← Option.some.inj hstate]
    exact (put565_size hput).trans hs
  · cases hone

/-- The surface with the pixels of the data. -/
def ppmSurface (w h maximum : Int) (pos : 0 < w ∧ 0 < h) (data : List Byte) : Except LoadExc Surface :=
  match hrun : ppmLoops w h maximum (data, (Surface.blank w h 0 pos).data) with
  | none => .error (.exc .indexError)
  | some (_, raw) => .ok { Surface.blank w h 0 pos with data := raw, room := ppmLoops_size hrun ▸ (Surface.blank w h 0 pos).room }

/-- `_load_ppm` from its tokens on, the first of which is P6. -/
def ppmImage (width height maximum data : List Byte) : Except LoadExc Surface := do
  let width ← intOf width
  let height ← intOf height
  let maximum ← intOf maximum
  if width ≤ 0 ∨ height ≤ 0 ∨ maximum ≤ 0 ∨ maximum > 255 then .error (.error "unsupported PPM dimensions or color depth")
  else
    let data := data.dropWhile isBlank
    if data.length < width * height * 3 then .error (.error "truncated PPM image")
    else if pos : 0 < width ∧ 0 < height then ppmSurface width height maximum pos data
    else .error (.exc (.valueError "Surface dimensions must be positive"))

/-- `_load_ppm` -/
def loadPpm (data : List Byte) : Except LoadExc Surface :=
  match tokenize [] data with
  | ([first, width, height, maximum], data) =>
    if first ≠ magic then .error (.error "not a binary PPM image") else ppmImage width height maximum data
  | _ => .error (.error "not a binary PPM image")

/-! ## The grammar of a header -/

/-- Blanks, and comments up to the end of a line. -/
inductive Gap : List Byte → Prop where
  | nil : Gap []
  | blank {c : Byte} {gap : List Byte} (hc : isBlank c) (hgap : Gap gap) : Gap (c :: gap)
  | comment {text gap : List Byte} {c : Byte} (htext : ∀ b ∈ text, inLine b) (hc : inLine c = false) (hgap : Gap (c :: gap)) :
      Gap (35 :: text ++ c :: gap)

/-- Text that is one token. -/
structure IsToken (text : List Byte) : Prop where
  ne : text ≠ []
  noComment : text.head? ≠ some 35
  noBlank : ∀ c ∈ text, isBlank c = false

/-- A token ends where this is. -/
def Ends (data : List Byte) : Prop := ∀ c ∈ data.head?, isBlank c

/-- Tokens at the beginning of the data, and the rest of it. -/
inductive Tokens : List (List Byte) → List Byte → List Byte → Prop where
  | nil {rest : List Byte} : Tokens [] rest rest
  | cons {gap text data rest : List Byte} {tokens : List (List Byte)} (hgap : Gap gap) (htext : IsToken text) (hends : Ends data)
      (htokens : Tokens tokens data rest) : Tokens (text :: tokens) (gap ++ text ++ data) rest

variable {tokens ts : List (List Byte)} {data rest gap text : List Byte} {c : Byte}

/-! ## The loop reads what the grammar derives -/

theorem tokenize_done (hlength : ¬ tokens.length < 4) : tokenize tokens data = (tokens, data) := by
  rw [tokenize, if_neg fun h => hlength h.1]

theorem tokenize_turn (tokens : List (List Byte)) (data : List Byte) (hlength : tokens.length < 4) (hdata : data ≠ []) : tokenize tokens data =
    if (data.dropWhile isBlank).head? = some 35 then tokenize tokens ((data.dropWhile isBlank).dropWhile inLine)
    else tokenize (tokens ++ [(data.dropWhile isBlank).takeWhile inToken]) ((data.dropWhile isBlank).dropWhile inToken) := by
  rw [tokenize, if_pos ⟨hlength, hdata⟩]

theorem isBlank_of_eol : ∀ c : Byte, inLine c = false → isBlank c = true := by decide

theorem tokenize_blank (hlength : tokens.length < 4) (hc : isBlank c) (hdata : data ≠ []) :
    tokenize tokens (c :: data) = tokenize tokens data := by
  rw [tokenize_turn _ _ hlength (List.cons_ne_nil _ _), tokenize_turn _ _ hlength hdata, List.dropWhile_cons_of_pos hc]

theorem dropWhile_line (htext : ∀ b ∈ text, inLine b) (hc : inLine c = false) : (35 :: text ++ c :: data).dropWhile inLine = c :: data := by
  rw [List.dropWhile_append_of_pos, List.dropWhile_cons_of_neg (by rw [hc]; decide)]
  intro b hb
  rcases List.mem_cons.mp hb with rfl | hb
  · decide
  · exact htext b hb

theorem tokenize_comment (hlength : tokens.length < 4) (htext : ∀ b ∈ text, inLine b) (hc : inLine c = false) :
    tokenize tokens (35 :: text ++ c :: data) = tokenize tokens (c :: data) := by
  have hstart : (35 :: text ++ c :: data).dropWhile isBlank = 35 :: text ++ c :: data := List.dropWhile_cons_of_neg (by decide)
  rw [tokenize_turn _ (35 :: text ++ c :: data) hlength (List.cons_ne_nil _ _), hstart, if_pos (show (35 :: text ++ c :: data).head? = some 35 from rfl),
    dropWhile_line htext hc]

theorem tokenize_gap (hlength : tokens.length < 4) (hgap : Gap gap) (hdata : data ≠ []) : tokenize tokens (gap ++ data) = tokenize tokens data := by
  induction hgap with
  | nil => rfl
  | blank hc hgap ih => rw [List.cons_append, tokenize_blank hlength hc (List.append_ne_nil_of_right_ne_nil _ hdata), ih]
  | comment htext hc hgap ih =>
    rw [List.append_assoc]
    exact (tokenize_comment hlength htext hc).trans ih

theorem tokenize_end (hlength : tokens.length < 4) (hgap : Gap gap) (hne : gap ≠ []) : tokenize tokens gap = (tokens ++ [[]], []) := by
  induction hgap with
  | nil => exact absurd rfl hne
  | @blank c gap hc hgap ih =>
    by_cases hmore : gap = []
    · subst hmore
      rw [tokenize_turn _ _ hlength hne, List.dropWhile_cons_of_pos hc, List.dropWhile_nil, List.head?_nil, if_neg nofun, List.takeWhile_nil,
        List.dropWhile_nil, tokenize, if_neg fun h => h.2 rfl]
    · rw [tokenize_blank hlength hc hmore, ih hmore]
  | comment htext hc hgap ih => rw [tokenize_comment hlength htext hc, ih (List.cons_ne_nil _ _)]

theorem IsToken.start (htext : IsToken text) : ∃ c more, text = c :: more ∧ isBlank c = false ∧ c ≠ 35 := by
  obtain ⟨hne, hcomment, hblank⟩ := htext
  rcases text with _ | ⟨c, more⟩
  · exact absurd rfl hne
  · exact ⟨c, more, rfl, hblank c List.mem_cons_self, fun h => hcomment (congrArg some h)⟩

theorem token_cut (htext : ∀ c ∈ text, isBlank c = false) (hends : Ends data) :
    ((text ++ data).takeWhile inToken) = text ∧ ((text ++ data).dropWhile inToken) = data := by
  have hall : ∀ c ∈ text, inToken c = true := fun c hc => by rw [inToken, htext c hc]; rfl
  rw [List.takeWhile_append_of_pos hall, List.dropWhile_append_of_pos hall]
  rcases data with _ | ⟨c, more⟩
  · exact ⟨List.append_nil _, rfl⟩
  · have hc : ¬ inToken c = true := by rw [inToken, hends c rfl]; decide
    rw [List.takeWhile_cons_of_neg hc, List.dropWhile_cons_of_neg hc, List.append_nil]
    exact ⟨rfl, rfl⟩

theorem tokenize_token (hlength : tokens.length < 4) (htext : IsToken text) (hends : Ends data) :
    tokenize tokens (text ++ data) = tokenize (tokens ++ [text]) data := by
  obtain ⟨htake, hdrop⟩ := token_cut htext.noBlank hends
  obtain ⟨c, more, rfl, hc, hcomment⟩ := htext.start
  have hstart : (c :: more ++ data).dropWhile isBlank = c :: more ++ data := List.dropWhile_cons_of_neg (by rw [hc]; decide)
  rw [tokenize_turn _ (c :: more ++ data) hlength (List.cons_ne_nil _ _), hstart,
    if_neg fun h : (c :: more ++ data).head? = some 35 => hcomment (Option.some.inj h), htake, hdrop]

theorem tokenize_tokens (htokens : Tokens tokens data rest) : ∀ ts : List (List Byte), ts.length + tokens.length ≤ 4 →
    tokenize ts data = tokenize (ts ++ tokens) rest := by
  induction htokens with
  | nil => exact fun ts _ => by rw [List.append_nil]
  | @cons gap text data rest tokens hgap htext hends htokens ih =>
    intro ts hlength
    rw [List.length_cons] at hlength
    have hmore : ts.length < 4 := by omega
    rw [List.append_assoc, tokenize_gap hmore hgap (List.append_ne_nil_of_left_ne_nil htext.ne _), tokenize_token hmore htext hends,
      ih (ts ++ [text]) (by rw [List.length_append, List.length_singleton]; omega), List.append_assoc, List.singleton_append]

theorem tokenize_four (htokens : Tokens tokens data rest) (hlength : tokens.length = 4) : tokenize [] data = (tokens, rest) := by
  rw [tokenize_tokens htokens [] (by rw [List.length_nil]; omega), List.nil_append, tokenize_done (by omega)]

/-! ## And nothing else -/

theorem Gap.blanks (hblank : ∀ c ∈ text, isBlank c) (hgap : Gap gap) : Gap (text ++ gap) := by
  induction text with
  | nil => exact hgap
  | cons c text ih => exact Gap.blank (hblank c List.mem_cons_self) (ih fun b hb => hblank b (List.mem_cons_of_mem _ hb))

theorem Tokens.blanks (hblank : ∀ c ∈ text, isBlank c) (htokens : Tokens tokens data rest) (hne : tokens ≠ []) :
    Tokens tokens (text ++ data) rest := by
  cases htokens with
  | nil => exact absurd rfl hne
  | cons hgap htext hends htokens =>
    rw [← List.append_assoc, ← List.append_assoc]
    exact Tokens.cons (hgap.blanks hblank) htext hends htokens

theorem Tokens.comment (htext : ∀ b ∈ text, inLine b) (hc : inLine c = false) (htokens : Tokens tokens (c :: data) rest) (hne : tokens ≠ []) :
    Tokens tokens (35 :: text ++ c :: data) rest := by
  generalize hall : c :: data = all at htokens
  cases htokens with
  | nil => exact absurd rfl hne
  | @cons gap token data' rest tokens hgap htoken hends htokens =>
    rcases gap with _ | ⟨b, gap⟩
    · obtain ⟨d, more, rfl, hd, -⟩ := htoken.start
      have hcd : c = d := (List.cons.inj hall).1
      rw [← hcd, isBlank_of_eol c hc] at hd
      exact absurd hd nofun
    · have hcb : c = b := (List.cons.inj hall).1
      subst hcb
      rw [← List.append_assoc, ← List.append_assoc]
      exact Tokens.cons (Gap.comment htext hc hgap) htoken hends htokens

/-- Four tokens that the loop has read: the grammar's, or an empty one at the end. -/
def Read (ts : List (List Byte)) (data : List Byte) (result : List (List Byte) × List Byte) : Prop :=
  (∃ tokens, result.1 = ts ++ tokens ∧ Tokens tokens data result.2) ∨
    ∃ tokens gap, result.1 = ts ++ tokens ++ [[]] ∧ Tokens tokens data gap ∧ Gap gap ∧ gap ≠ []

theorem Read.comment {blanks : List Byte} {result : List (List Byte) × List Byte} (hblank : ∀ c ∈ blanks, isBlank c)
    (htext : ∀ b ∈ text, inLine b) (hc : inLine c = false) (hts : ts.length < 4) (hresult : result.1.length = 4)
    (hread : Read ts (c :: data) result) : Read ts (blanks ++ (35 :: text ++ c :: data)) result := by
  rcases hread with ⟨tokens, heq, htokens⟩ | ⟨tokens, gap, heq, htokens, hgap, hne⟩
  · have htokensNe : tokens ≠ [] := by
      rintro rfl
      rw [heq, List.append_nil] at hresult
      omega
    exact Or.inl ⟨tokens, heq, (htokens.comment htext hc htokensNe).blanks hblank htokensNe⟩
  · by_cases htokensNe : tokens = []
    · subst htokensNe
      cases htokens
      exact Or.inr ⟨[], _, heq, Tokens.nil, (Gap.comment htext hc hgap).blanks hblank, List.append_ne_nil_of_right_ne_nil _ (List.cons_ne_nil _ _)⟩
    · exact Or.inr ⟨tokens, gap, heq, (htokens.comment htext hc htokensNe).blanks hblank htokensNe, hgap, hne⟩

theorem Read.token {blanks : List Byte} {result : List (List Byte) × List Byte} (hblank : ∀ c ∈ blanks, isBlank c)
    (htext : IsToken text) (hends : Ends data) (hread : Read (ts ++ [text]) data result) : Read ts (blanks ++ (text ++ data)) result := by
  have hgap : Gap blanks := by
    have hall := Gap.nil.blanks hblank
    rwa [List.append_nil] at hall
  rw [← List.append_assoc]
  rcases hread with ⟨tokens, heq, htokens⟩ | ⟨tokens, gap, heq, htokens, hrest, hne⟩
  · exact Or.inl ⟨text :: tokens, by rw [heq, List.append_assoc, List.singleton_append], Tokens.cons hgap htext hends htokens⟩
  · refine Or.inr ⟨text :: tokens, gap, ?_, Tokens.cons hgap htext hends htokens, hrest, hne⟩
    rw [heq, List.append_assoc ts [text], List.singleton_append]

theorem isToken_takeWhile {c : Byte} {more : List Byte} (hc : isBlank c = false) (hcomment : (c :: more).head? ≠ some 35) :
    IsToken ((c :: more).takeWhile inToken) := by
  have htoken : inToken c = true := by rw [inToken, hc]; rfl
  refine ⟨?_, ?_, fun b hb => ?_⟩
  · rw [List.takeWhile_cons_of_pos htoken]
    exact List.cons_ne_nil _ _
  · rw [List.takeWhile_cons_of_pos htoken]
    exact hcomment
  · have hb' := List.mem_takeWhile_imp hb
    rw [inToken] at hb'
    exact Bool.not_eq_true' _ ▸ hb'

theorem ends_dropWhile (data : List Byte) : Ends (data.dropWhile inToken) := by
  intro b hb
  have hhead := List.head?_dropWhile_not inToken data
  rw [hb] at hhead
  have hnot : (!isBlank b) = false := hhead
  exact Bool.not_eq_false' _ ▸ hnot

theorem tokenize_sound (hresult : (tokenize tokens data).1.length = 4) (hlength : tokens.length ≤ 4) : Read tokens data (tokenize tokens data) := by
  induction tokens, data using tokenize.induct with
  | case1 tokens data hmore start hcomment ih =>
    have hstep : tokenize tokens data = tokenize tokens (start.dropWhile inLine) := by rw [tokenize_turn _ _ hmore.1 hmore.2, if_pos hcomment]
    have hdata : data = data.takeWhile isBlank ++ start := List.takeWhile_append_dropWhile.symm
    have hblank : ∀ c ∈ data.takeWhile isBlank, isBlank c := fun c hc => List.mem_takeWhile_imp hc
    obtain ⟨line, hstart⟩ : ∃ line, start = 35 :: line := ⟨start.tail, (List.cons_head?_tail hcomment).symm⟩
    rw [hstep] at hresult ⊢
    have hdrop : start.dropWhile inLine = line.dropWhile inLine := by rw [hstart, List.dropWhile_cons_of_pos (by decide)]
    have hline : line = line.takeWhile inLine ++ line.dropWhile inLine := List.takeWhile_append_dropWhile.symm
    rcases htail : line.dropWhile inLine with _ | ⟨c, more⟩
    · rw [hdrop, htail, tokenize, if_neg fun h => h.2 rfl] at hresult
      exact absurd hresult (Nat.ne_of_lt hmore.1)
    · have hc : inLine c = false := by
        have hhead := List.head?_dropWhile_not inLine line
        rw [htail] at hhead
        exact hhead
      rw [hdrop, htail] at ih hresult ⊢
      rw [hdata, hstart, hline, htail]
      exact (ih hresult hlength).comment hblank (fun b hb => List.mem_takeWhile_imp hb) hc hmore.1 hresult
  | case2 tokens data hmore start hcomment ih =>
    have hstep : tokenize tokens data = tokenize (tokens ++ [start.takeWhile inToken]) (start.dropWhile inToken) := by
      rw [tokenize_turn _ _ hmore.1 hmore.2, if_neg hcomment]
    have hdata : data = data.takeWhile isBlank ++ start := List.takeWhile_append_dropWhile.symm
    have hblank : ∀ c ∈ data.takeWhile isBlank, isBlank c := fun c hc => List.mem_takeWhile_imp hc
    rw [hstep] at hresult ⊢
    have hread := ih hresult (by rw [List.length_append, List.length_singleton]; omega)
    rcases hstart : start with _ | ⟨c, more⟩
    · rw [List.takeWhile_nil, List.dropWhile_nil, tokenize, if_neg fun h => h.2 rfl]
      rw [hstart, List.append_nil] at hdata
      have hgap := Gap.nil.blanks hblank
      rw [List.append_nil, ← hdata] at hgap
      exact Or.inr ⟨[], data, by rw [List.append_nil], Tokens.nil, hgap, hmore.2⟩
    · have hc : isBlank c = false := by
        have hhead := List.head?_dropWhile_not isBlank data
        rw [show data.dropWhile isBlank = c :: more from hstart] at hhead
        exact hhead
      have htext : IsToken (start.takeWhile inToken) := by
        rw [hstart] at hcomment ⊢
        exact isToken_takeWhile hc hcomment
      rw [← hstart]
      have hall : data = data.takeWhile isBlank ++ (start.takeWhile inToken ++ start.dropWhile inToken) := by
        rw [List.takeWhile_append_dropWhile]
        exact hdata
      have hdone := hread.token hblank htext (ends_dropWhile start)
      rwa [← hall] at hdone
  | case3 tokens data hdone =>
    rw [tokenize, if_neg hdone]
    exact Or.inl ⟨[], by rw [List.append_nil], Tokens.nil⟩

/-! ## The pixels -/

theorem foldlM_counting {α σ : Type} {f : α × σ → Nat → Option (α × σ)} {g : σ → Nat → Option σ} (count : Nat → α) :
    ∀ n : Nat, (∀ i < n, ∀ s, f (count i, s) i = (g s i).map (Prod.mk (count (i + 1)))) →
      ∀ s, (List.range n).foldlM f (count 0, s) = ((List.range n).foldlM g s).map (Prod.mk (count n))
  | 0, _, s => rfl
  | n + 1, h, s => by
    have ih := foldlM_counting count n (fun i hi => h i (Nat.lt_succ_of_lt hi)) s
    rw [List.range_succ, List.foldlM_append, List.foldlM_append, ih]
    rcases (List.range n).foldlM g s with _ | s'
    · rfl
    · show (f (count n, s') n).bind pure = ((g s' n).bind pure).map _
      rw [h n n.lt_succ_self]
      rcases g s' n with _ | s'' <;> rfl

/-- A byte of the pixels. -/
def byteAt (data : List Byte) (i : Nat) : Byte := data.getD i 0

def ppmPixel (w maximum : Int) (data : List Byte) (x y : Nat) : Nat :=
  ppmColor maximum (byteAt data (3 * (y * w.toNat + x))) (byteAt data (3 * (y * w.toNat + x) + 1)) (byteAt data (3 * (y * w.toNat + x) + 2))

theorem drop_three {i : Nat} (h : i + 3 ≤ data.length) :
    data.drop i = byteAt data i :: byteAt data (i + 1) :: byteAt data (i + 2) :: data.drop (i + 3) := by
  have hget : ∀ j, j < data.length → data.drop j = byteAt data j :: data.drop (j + 1) := fun j hj => by
    rw [List.drop_eq_getElem_cons hj, byteAt, List.getD_eq_getElem?_getD, List.getElem?_eq_getElem hj, Option.getD_some]
  rw [hget i (by omega), hget (i + 1) (by omega), hget (i + 2) (by omega)]

theorem ppmLoops_spec {w h maximum : Int} (raw : Array Byte) (hdata : 3 * (h.toNat * w.toNat) ≤ data.length) :
    ppmLoops w h maximum (data, raw) =
      (plot w h (fun x y => (x, y)) (fun x y => some (ppmPixel w maximum data x y)) raw).map (Prod.mk (data.drop (3 * (h.toNat * w.toNat)))) := by
  have hrow : ∀ y < h.toNat, ∀ raw, (List.range w.toNat).foldlM (ppmTurn w h maximum y) (data.drop (3 * (y * w.toNat)), raw) =
      ((List.range w.toNat).foldlM (fun raw (x : Nat) => do put565 w h raw x y (← some (ppmPixel w maximum data x y))) raw).map
        (Prod.mk (data.drop (3 * ((y + 1) * w.toNat)))) := by
    intro y hy raw
    have hrows : (y + 1) * w.toNat ≤ h.toNat * w.toNat := Nat.mul_le_mul_right _ hy
    have hnext : (y + 1) * w.toNat = y * w.toNat + w.toNat := Nat.succ_mul _ _
    rw [hnext] at hrows ⊢
    refine foldlM_counting (fun x => data.drop (3 * (y * w.toNat + x))) w.toNat (fun x hx raw => ?_) raw
    show ppmTurn w h maximum y (data.drop (3 * (y * w.toNat + x)), raw) x = _
    rw [drop_three (by omega)]
    show (do
      let raw ← put565 w h raw x y (ppmPixel w maximum data x y)
      pure (data.drop (3 * (y * w.toNat + x) + 3), raw)) = _
    show _ = (put565 w h raw x y (ppmPixel w maximum data x y)).map _
    rcases put565 w h raw x y (ppmPixel w maximum data x y) with _ | raw' <;> rfl
  have hall := foldlM_counting (f := fun state y => (List.range w.toNat).foldlM (ppmTurn w h maximum y) state)
    (g := fun raw (y : Nat) => (List.range w.toNat).foldlM (fun raw (x : Nat) => do put565 w h raw x y (← some (ppmPixel w maximum data x y))) raw)
    (fun y => data.drop (3 * (y * w.toNat))) h.toNat hrow raw
  rw [Nat.zero_mul, Nat.mul_zero, List.drop_zero] at hall
  exact hall

/-- Enough data are a surface of its pixels. -/
theorem ppmSurface_spec {w h maximum : Int} (pos : 0 < w ∧ 0 < h) (hdata : 3 * (h.toNat * w.toNat) ≤ data.length) :
    ∃ s, ppmSurface w h maximum pos data = .ok s ∧ s.w = w ∧ s.h = h ∧
      ∀ x < w.toNat, ∀ y < h.toNat, s.pixel (x, y) = some (BitVec.ofNat 16 (ppmPixel w maximum data x y)) := by
  have hplace : ∀ x < w.toNat, ∀ y < h.toNat, Inside w h ((x : Int), (y : Int)) := fun x hx y hy =>
    ⟨by omega, by simp only; omega, by omega, by simp only; omega⟩
  obtain ⟨raw, hplot, hpixels⟩ := Surface.plot_spec (ppmPixel w maximum data) (Surface.blank w h 0 pos).picture hplace
    (fun x y x' y' h => by obtain ⟨h1, h2⟩ := Prod.mk.inj h; omega) fun x _ y _ => rfl
  have hrun : ppmLoops w h maximum (data, (Surface.blank w h 0 pos).data) = _ := ppmLoops_spec (Surface.blank w h 0 pos).data hdata
  rw [show plot w h _ _ (Surface.blank w h 0 pos).data = _ from hplot] at hrun
  unfold ppmSurface
  split
  · rename_i hfail
    rw [hrun] at hfail
    cases hfail
  · rename_i hok
    rw [hrun] at hok
    cases hok
    exact ⟨_, rfl, rfl, rfl, hpixels⟩

/-! ## Headers -/

/-- The data are a header and what is after the one blank that ends it. -/
def Header (data : List Byte) (w h maximum : Int) (body : List Byte) : Prop :=
  ∃ width height depth rest, Tokens [magic, width, height, depth] data rest ∧
    intDecimal width = some w ∧ intDecimal height = some h ∧ intDecimal depth = some maximum ∧
    (0 < w ∧ 0 < h ∧ 0 < maximum ∧ maximum ≤ 255) ∧ body = rest.tail

def Malformed (data : List Byte) : Prop := ¬ ∃ w h maximum body, Header data w h maximum body

/-- Fewer bytes than the pixels need. -/
def Short (data : List Byte) : Prop := ∃ w h maximum body, Header data w h maximum body ∧ body.length < 3 * w * h

/-- A token after the first is no number, or the last one is missing after blanks. -/
def BadNumber (data : List Byte) : Prop :=
  (∃ width height depth rest, Tokens [magic, width, height, depth] data rest ∧
    (intDecimal width = none ∨ intDecimal height = none ∨ intDecimal depth = none)) ∨
  ∃ width height gap, Tokens [magic, width, height] data gap ∧ Gap gap ∧ gap ≠ []

/-- The blanks that the pixels begin with are needed. -/
def Skipped (data : List Byte) : Prop :=
  ∃ w h maximum body, Header data w h maximum body ∧ 3 * w * h ≤ body.length ∧ (body.dropWhile isBlank).length < 3 * w * h

theorem Tokens.ends (htokens : Tokens tokens data rest) (hne : tokens ≠ []) : Ends rest := by
  induction htokens with
  | nil => exact absurd rfl hne
  | @cons gap text data rest tokens hgap htext hends htokens ih =>
    by_cases hlast : tokens = []
    · subst hlast
      cases htokens
      exact hends
    · exact ih hlast

theorem dropWhile_ends (hends : Ends rest) : rest.dropWhile isBlank = rest.tail.dropWhile isBlank := by
  rcases rest with _ | ⟨c, rest⟩
  · rfl
  · exact List.dropWhile_cons_of_pos (hends c rfl)

theorem intOf_some {value : Int} (h : intDecimal text = some value) : intOf text = .ok value := by rw [intOf, h]

theorem intOf_none (h : intDecimal text = none) : intOf text = .error (.intError text) := by rw [intOf, h]

theorem loadPpm_four {width height depth : List Byte} (hread : tokenize [] data = ([magic, width, height, depth], rest)) :
    loadPpm data = ppmImage width height depth rest := by
  rw [loadPpm, hread]
  exact if_neg fun h => h rfl

theorem Header.load {w h maximum : Int} {body : List Byte} (hheader : Header data w h maximum body) :
    ∃ pos, loadPpm data = if (body.dropWhile isBlank).length < w * h * 3 then .error (.error "truncated PPM image")
      else ppmSurface w h maximum pos (body.dropWhile isBlank) := by
  obtain ⟨width, height, depth, rest, htokens, hwidth, hheight, hdepth, ⟨hw, hh, hpos, hle⟩, rfl⟩ := hheader
  refine ⟨⟨hw, hh⟩, ?_⟩
  rw [loadPpm_four (tokenize_four htokens rfl), ppmImage, intOf_some hwidth, intOf_some hheight, intOf_some hdepth,
    ← dropWhile_ends (htokens.ends (List.cons_ne_nil _ _))]
  show (if w ≤ 0 ∨ h ≤ 0 ∨ maximum ≤ 0 ∨ maximum > 255 then _ else _) = _
  rw [if_neg (by omega), dif_pos ⟨hw, hh⟩]

theorem Header.unique {w h maximum w' h' maximum' : Int} {body body' : List Byte} (hheader : Header data w h maximum body)
    (hheader' : Header data w' h' maximum' body') : w = w' ∧ h = h' ∧ body = body' := by
  obtain ⟨width, height, depth, rest, htokens, hwidth, hheight, -, -, rfl⟩ := hheader
  obtain ⟨width', height', depth', rest', htokens', hwidth', hheight', -, -, rfl⟩ := hheader'
  have hsame := (tokenize_four htokens rfl).symm.trans (tokenize_four htokens' rfl)
  simp only [Prod.mk.injEq, List.cons.injEq, and_true, true_and] at hsame
  obtain ⟨⟨rfl, rfl, -⟩, rfl⟩ := hsame
  rw [hwidth] at hwidth'
  rw [hheight] at hheight'
  exact ⟨Option.some.inj hwidth', Option.some.inj hheight', rfl⟩

/-- `error` is raised. -/
def Raises (data : List Byte) : Prop := ∃ msg, loadPpm data = .error (.error msg)

theorem intError_of_none {width height depth : List Byte} (hread : tokenize [] data = ([magic, width, height, depth], rest))
    (hnone : intDecimal width = none ∨ intDecimal height = none ∨ intDecimal depth = none) : ∃ text, loadPpm data = .error (.intError text) := by
  rw [loadPpm_four hread, ppmImage]
  rcases hwidth : intDecimal width with _ | w
  · exact ⟨width, by rw [intOf_none hwidth]; rfl⟩
  · rcases hheight : intDecimal height with _ | h
    · exact ⟨height, by rw [intOf_some hwidth, intOf_none hheight]; rfl⟩
    · have hdepth : intDecimal depth = none := by
        rcases hnone with hnone | hnone | hnone
        · rw [hwidth] at hnone
          cases hnone
        · rw [hheight] at hnone
          cases hnone
        · exact hnone
      exact ⟨depth, by rw [intOf_some hwidth, intOf_some hheight, intOf_none hdepth]; rfl⟩

theorem BadNumber.load (hbad : BadNumber data) : ∃ text, loadPpm data = .error (.intError text) := by
  rcases hbad with ⟨width, height, depth, rest, htokens, hnone⟩ | ⟨width, height, gap, htokens, hgap, hne⟩
  · exact intError_of_none (tokenize_four htokens rfl) hnone
  · have hread : tokenize [] data = ([magic, width, height, []], []) := by
      have hend : tokenize [magic, width, height] gap = _ := tokenize_end (show 3 < 4 by decide) hgap hne
      rw [tokenize_tokens htokens [] (show 3 ≤ 4 by decide), List.nil_append, hend]
      rfl
    exact intError_of_none hread (Or.inr (Or.inr rfl))

theorem Raises.good (hraises : Raises data) : ¬ BadNumber data := by
  intro hbad
  obtain ⟨msg, herror⟩ := hraises
  obtain ⟨text, hload⟩ := hbad.load
  rw [hload] at herror
  cases herror

/-- What is neither a header nor a number that is none is an `error`. -/
theorem raises_of_malformed (hmalformed : Malformed data) (hgood : ¬ BadNumber data) : Raises data := by
  rcases hread : tokenize [] data with ⟨ts, rest⟩
  have hnot : Raises data ∨ ∃ width height depth, ts = [magic, width, height, depth] := by
    rcases ts with _ | ⟨first, _ | ⟨width, _ | ⟨height, _ | ⟨depth, _ | ⟨more, ts⟩⟩⟩⟩⟩
    case cons.cons.cons.cons.nil =>
      by_cases hfirst : first = magic
      · exact Or.inr ⟨width, height, depth, by rw [hfirst]⟩
      · exact Or.inl ⟨"not a binary PPM image", by rw [loadPpm, hread]; exact if_pos hfirst⟩
    all_goals exact Or.inl ⟨"not a binary PPM image", by rw [loadPpm, hread]⟩
  rcases hnot with hraises | ⟨width, height, depth, rfl⟩
  · exact hraises
  · have hsound : Read [] data (tokenize [] data) := tokenize_sound (by rw [hread]; rfl) (by decide)
    rw [hread] at hsound
    rcases hsound with ⟨tokens, htokens, hgrammar⟩ | ⟨tokens, gap, htokens, hgrammar, hgap, hne⟩
    · obtain rfl : [magic, width, height, depth] = tokens := htokens
      rcases hwidth : intDecimal width with _ | w
      · exact absurd (Or.inl ⟨_, _, _, _, hgrammar, Or.inl hwidth⟩) hgood
      · rcases hheight : intDecimal height with _ | h
        · exact absurd (Or.inl ⟨_, _, _, _, hgrammar, Or.inr (Or.inl hheight)⟩) hgood
        · rcases hdepth : intDecimal depth with _ | maximum
          · exact absurd (Or.inl ⟨_, _, _, _, hgrammar, Or.inr (Or.inr hdepth)⟩) hgood
          · have hdims : w ≤ 0 ∨ h ≤ 0 ∨ maximum ≤ 0 ∨ maximum > 255 := by
              by_contra hdims
              exact hmalformed ⟨w, h, maximum, _, width, height, depth, rest, hgrammar, hwidth, hheight, hdepth, by omega, rfl⟩
            refine ⟨"unsupported PPM dimensions or color depth", ?_⟩
            rw [loadPpm_four hread, ppmImage, intOf_some hwidth, intOf_some hheight, intOf_some hdepth]
            show (if w ≤ 0 ∨ h ≤ 0 ∨ maximum ≤ 0 ∨ maximum > 255 then _ else _) = _
            rw [if_pos hdims]
    · refine absurd (Or.inr ⟨width, height, gap, ?_, hgap, hne⟩) hgood
      have hsame : [magic, width, height] ++ [depth] = tokens ++ [[]] := htokens
      obtain rfl : [magic, width, height] = tokens := List.append_inj_left' hsame rfl
      exact hgrammar

/-! ## Files as they are written -/

/-- A positive number in decimal. -/
def decimal (n : Nat) : List Byte := (Nat.digits 10 n).reverse.map fun d => BitVec.ofNat 8 (48 + d)

/-- Comment lines. -/
def comments (lines : List (List Byte)) : List Byte := lines.flatMap fun text => 35 :: text ++ [10]

/-- A binary image of eight bits, with comment lines after its first lines. -/
def ppmFile (before between : List (List Byte)) (w h : Nat) (pixels : List Byte) : List Byte :=
  magic ++ 10 :: comments before ++ decimal w ++ 32 :: decimal h ++ 10 :: comments between ++ [0x32, 0x35, 0x35] ++ 10 :: pixels

theorem digit_facts : ∀ d < 10, isDigit (BitVec.ofNat 8 (48 + d)) = true ∧ (BitVec.ofNat 8 (48 + d)).toNat - 48 = d := by decide

theorem isDigit_facts : ∀ c : Byte, isDigit c = true → isBlank c = false ∧ isSpace c = false ∧ c ≠ 35 ∧ c ≠ 43 ∧ c ≠ 45 := by decide

theorem decimal_digit {n : Nat} (hc : c ∈ decimal n) : isDigit c = true := by
  obtain ⟨d, hd, rfl⟩ := List.mem_map.mp hc
  exact (digit_facts d (Nat.digits_lt_base (by decide) (List.mem_reverse.mp hd))).1

theorem decValue_decimal (n : Nat) : decValue (decimal n) = n := by
  have hall : (decimal n).filter isDigit = decimal n := List.filter_eq_self.mpr fun c hc => decimal_digit hc
  have hfold : ∀ digits : List Nat, (∀ d ∈ digits, d < 10) →
      digits.foldr (fun d v => v * 10 + ((BitVec.ofNat 8 (48 + d)).toNat - 48)) 0 = Nat.ofDigits 10 digits := by
    intro digits
    induction digits with
    | nil => exact fun _ => rfl
    | cons d digits ih =>
      intro hdigits
      rw [List.foldr_cons, ih fun e he => hdigits e (List.mem_cons_of_mem _ he), (digit_facts d (hdigits d List.mem_cons_self)).2,
        Nat.ofDigits_cons, Nat.mul_comm, Nat.add_comm]
  rw [decValue, hall, decimal, List.foldl_map, List.foldl_reverse, hfold _ fun d => Nat.digits_lt_base (by decide), Nat.ofDigits_digits]

theorem decimal_ne {n : Nat} (hn : 0 < n) : decimal n ≠ [] := by
  rw [decimal, Ne, List.map_eq_nil_iff, List.reverse_eq_nil_iff]
  exact Nat.digits_ne_nil_iff_ne_zero.mpr hn.ne'

theorem decimal_start {n : Nat} (hn : 0 < n) : ∃ c more, decimal n = c :: more ∧ isDigit c = true := by
  rcases hdigits : decimal n with _ | ⟨c, more⟩
  · exact absurd hdigits (decimal_ne hn)
  · exact ⟨c, more, rfl, decimal_digit (hdigits ▸ List.mem_cons_self)⟩

theorem decimal_isToken {n : Nat} (hn : 0 < n) : IsToken (decimal n) := by
  refine ⟨decimal_ne hn, ?_, fun c hc => (isDigit_facts c (decimal_digit hc)).1⟩
  obtain ⟨c, more, heq, hc⟩ := decimal_start hn
  rw [heq]
  exact fun h => (isDigit_facts c hc).2.2.1 (Option.some.inj h)

theorem intDecimal_decimal {n : Nat} (hn : 0 < n) : intDecimal (decimal n) = some (n : Int) := by
  obtain ⟨c, more, heq, hc⟩ := decimal_start hn
  obtain ⟨-, hspace, -, hplus, hminus⟩ := isDigit_facts c hc
  have hstart : (decimal n).dropWhile isSpace = decimal n := by
    rw [heq]
    exact List.dropWhile_cons_of_neg (by rw [hspace]; decide)
  have hsign : ¬ ((decimal n).head? = some 43 ∨ (decimal n).head? = some 45) := by
    rw [heq]
    rintro (h | h)
    · exact hplus (Option.some.inj h)
    · exact hminus (Option.some.inj h)
  have hneg : ¬ (decimal n).head? = some 45 := fun h => hsign (Or.inr h)
  have hdigits : (decimal n).takeWhile (fun c => isDigit c || c = 95) = decimal n :=
    List.takeWhile_eq_self_iff.mpr fun c hc => by rw [decimal_digit hc]; rfl
  have hagain : (decimal n).takeWhile isDigit = decimal n := List.takeWhile_eq_self_iff.mpr fun c hc => decimal_digit hc
  unfold intDecimal
  simp only [hstart, if_neg hsign, hdigits, hagain, ite_self, List.drop_length, decValue_decimal, List.all_nil]
  have hok : ¬ (decimal n = [] ∨ ¬ True) := by
    rintro (h | h)
    · exact decimal_ne hn h
    · exact h trivial
  rw [if_neg hok, if_neg (by simpa using hneg)]

theorem comments_gap {lines : List (List Byte)} (hlines : ∀ text ∈ lines, ∀ b ∈ text, inLine b) (hgap : Gap gap) :
    Gap (comments lines ++ gap) := by
  induction lines with
  | nil => exact hgap
  | cons text lines ih =>
    have hrest := ih fun t ht => hlines t (List.mem_cons_of_mem _ ht)
    have hone := Gap.comment (hlines text List.mem_cons_self) (show inLine 10 = false by decide) (Gap.blank (by decide) hrest)
    rw [comments, List.flatMap_cons, List.append_assoc, List.append_assoc]
    exact hone

theorem ppmFile_header {before between : List (List Byte)} {w h : Nat} {pixels : List Byte}
    (hbefore : ∀ text ∈ before, ∀ b ∈ text, inLine b) (hbetween : ∀ text ∈ between, ∀ b ∈ text, inLine b) (hw : 0 < w) (hh : 0 < h) :
    Header (ppmFile before between w h pixels) w h 255 pixels := by
  refine ⟨decimal w, decimal h, [0x32, 0x35, 0x35], 10 :: pixels, ?_, intDecimal_decimal hw, intDecimal_decimal hh, by decide, by omega, rfl⟩
  have hdepth : IsToken [0x32, 0x35, 0x35] := ⟨List.cons_ne_nil _ _, by decide, by decide⟩
  have hmagic : IsToken magic := ⟨List.cons_ne_nil _ _, by decide, by decide⟩
  have hends : ∀ c : Byte, ∀ more, isBlank c → Ends (c :: more) := fun c more hc b hb => Option.some.inj hb ▸ hc
  have hnewline : ∀ lines : List (List Byte), (∀ text ∈ lines, ∀ b ∈ text, inLine b) → Gap (10 :: comments lines) := fun lines hlines => by
    have hgap := Gap.blank (show isBlank 10 by decide) (comments_gap hlines Gap.nil)
    rwa [List.append_nil] at hgap
  have hfile : ppmFile before between w h pixels = [] ++ magic ++ (10 :: comments before ++ decimal w ++
      ([32] ++ decimal h ++ (10 :: comments between ++ [0x32, 0x35, 0x35] ++ 10 :: pixels))) := by
    simp [ppmFile]
  rw [hfile]
  exact Tokens.cons Gap.nil hmagic (hends 10 _ (by decide)) <|
    Tokens.cons (hnewline before hbefore) (decimal_isToken hw) (hends 32 _ (by decide)) <|
    Tokens.cons (Gap.blank (by decide) Gap.nil) (decimal_isToken hh) (hends 10 _ (by decide)) <|
    Tokens.cons (hnewline between hbetween) hdepth (hends 10 _ (by decide)) Tokens.nil

/-! ## What it should do -/

/-- The surface has the pixels of these bytes. -/
def Shows (s : Surface) (w h : Nat) (pixels : List Byte) : Prop :=
  s.w = w ∧ s.h = h ∧ ∀ x < w, ∀ y < h, s.pixel (x, y) =
    some (BitVec.ofNat 16 (color565 (byteAt pixels (3 * (y * w + x))).toNat (byteAt pixels (3 * (y * w + x) + 1)).toNat
      (byteAt pixels (3 * (y * w + x) + 2)).toNat))

/-- Files of eight bits load, and an `error` means that the header is malformed or the data
too short. -/
structure Right (data : List Byte) : Prop where
  image : ∀ before between w h pixels, (∀ text ∈ before, ∀ b ∈ text, inLine b) → (∀ text ∈ between, ∀ b ∈ text, inLine b) → 0 < w → 0 < h →
    pixels.length = 3 * w * h → data = ppmFile before between w h pixels → ∃ s, loadPpm data = .ok s ∧ Shows s w h pixels
  errors : Raises data ↔ Malformed data ∨ Short data

/-- A header with enough data after all of its blanks is loaded. -/
theorem Header.ok {w h maximum : Int} {body : List Byte} (hheader : Header data w h maximum body)
    (henough : 3 * w * h ≤ (body.dropWhile isBlank).length) :
    ∃ s, loadPpm data = .ok s ∧ s.w = w ∧ s.h = h ∧
      ∀ x < w.toNat, ∀ y < h.toNat, s.pixel (x, y) = some (BitVec.ofNat 16 (ppmPixel w maximum (body.dropWhile isBlank) x y)) := by
  obtain ⟨pos, hload⟩ := hheader.load
  have hproduct : 3 * w * h = w * h * 3 := by rw [Int.mul_assoc, Int.mul_comm]
  have hdata : 3 * (h.toNat * w.toNat) ≤ (body.dropWhile isBlank).length := by
    have hw : (w.toNat : Int) = w := Int.toNat_of_nonneg pos.1.le
    have hh : (h.toNat : Int) = h := Int.toNat_of_nonneg pos.2.le
    zify
    rw [hw, hh, Int.mul_comm h w, ← Int.mul_assoc]
    exact henough
  rw [if_neg (by omega)] at hload
  obtain ⟨s, hrun, hspec⟩ : ∃ s, ppmSurface w h maximum pos (body.dropWhile isBlank) = .ok s ∧ _ := ppmSurface_spec pos hdata
  exact ⟨s, hload.trans hrun, hspec⟩

theorem Header.truncated {w h maximum : Int} {body : List Byte} (hheader : Header data w h maximum body)
    (hshort : (body.dropWhile isBlank).length < 3 * w * h) : Raises data := by
  obtain ⟨pos, hload⟩ := hheader.load
  have hproduct : 3 * w * h = w * h * 3 := by rw [Int.mul_assoc, Int.mul_comm]
  exact ⟨_, by rw [hload, if_pos (by omega)]⟩

theorem Header.good {w h maximum : Int} {body : List Byte} (hheader : Header data w h maximum body) : ¬ BadNumber data := by
  intro hbad
  by_cases henough : 3 * w * h ≤ (body.dropWhile isBlank).length
  · obtain ⟨s, hok, -⟩ := hheader.ok henough
    obtain ⟨text, hload⟩ := hbad.load
    rw [hload] at hok
    cases hok
  · exact (hheader.truncated (by omega)).good hbad

theorem errors_iff (data : List Byte) : (Raises data ↔ Malformed data ∨ Short data) ↔ ¬ BadNumber data ∧ ¬ Skipped data := by
  constructor
  · intro herrors
    refine ⟨fun hbad => ?_, fun hskipped => ?_⟩
    · have hmalformed : Malformed data := by
        rintro ⟨w, h, maximum, body, hheader⟩
        exact hheader.good hbad
      exact (herrors.mpr (Or.inl hmalformed)).good hbad
    · obtain ⟨w, h, maximum, body, hheader, henough, hshort⟩ := hskipped
      rcases herrors.mp (hheader.truncated hshort) with hmalformed | ⟨w', h', maximum', body', hheader', hshort'⟩
      · exact hmalformed ⟨_, _, _, _, hheader⟩
      · obtain ⟨rfl, rfl, rfl⟩ := hheader.unique hheader'
        omega
  · rintro ⟨hgood, hskipped⟩
    constructor
    · rintro ⟨msg, herror⟩
      by_cases hmalformed : Malformed data
      · exact Or.inl hmalformed
      · obtain ⟨w, h, maximum, body, hheader⟩ := not_not.mp hmalformed
        refine Or.inr ⟨w, h, maximum, body, hheader, ?_⟩
        by_contra hlong
        have henough : 3 * w * h ≤ (body.dropWhile isBlank).length := by
          by_contra hshort
          exact hskipped ⟨w, h, maximum, body, hheader, by omega, by omega⟩
        obtain ⟨s, hok, -⟩ := hheader.ok henough
        rw [hok] at herror
        cases herror
    · rintro (hmalformed | ⟨w, h, maximum, body, hheader, hshort⟩)
      · exact raises_of_malformed hmalformed hgood
      · have hle := (List.dropWhile_suffix isBlank (l := body)).length_le
        exact hheader.truncated (by omega)

theorem loadPpm_iff (data : List Byte) : Right data ↔ ¬ BadNumber data ∧ ¬ Skipped data := by
  refine ⟨fun hright => (errors_iff data).mp hright.errors, fun hwhen => ⟨?_, (errors_iff data).mpr hwhen⟩⟩
  rintro before between w h pixels hbefore hbetween hw hh hlength rfl
  have hheader : Header (ppmFile before between w h pixels) w h 255 pixels := ppmFile_header hbefore hbetween hw hh
  have hcast : 3 * (w : Int) * h = pixels.length := by rw [hlength]; push_cast; rfl
  have henough : 3 * (w : Int) * h ≤ (pixels.dropWhile isBlank).length := by
    by_contra hshort
    exact hwhen.2 ⟨w, h, 255, pixels, hheader, hcast.le, by omega⟩
  have hnone : pixels.dropWhile isBlank = pixels :=
    (List.dropWhile_suffix isBlank).eq_of_length (Nat.le_antisymm (List.dropWhile_suffix isBlank).length_le (by omega))
  obtain ⟨s, hok, hsw, hsh, hpixels⟩ := hheader.ok henough
  refine ⟨s, hok, hsw, hsh, fun x hx y hy => ?_⟩
  rw [hpixels x hx y hy, hnone, ppmPixel, Int.toNat_natCast, ppmColor, if_neg fun h => h rfl]

/-- One pixel whose first byte is a newline. -/
theorem newline_pixel : ¬ Right (ppmFile [] [] 1 1 [10, 1, 2]) := by
  intro hright
  obtain ⟨s, hok, -⟩ := hright.image [] [] 1 1 [10, 1, 2] nofun nofun (by decide) (by decide) rfl rfl
  have hheader : Header (ppmFile [] [] 1 1 [10, 1, 2]) (1 : Nat) (1 : Nat) 255 [10, 1, 2] := ppmFile_header nofun nofun Nat.one_pos Nat.one_pos
  obtain ⟨msg, herror⟩ := hheader.truncated (by decide)
  rw [hok] at herror
  cases herror

end PythonUltra.Pygame
