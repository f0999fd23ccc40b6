/-
  PythonUltra.Pyterm.Split — the words of a line (`_split`, modules/pyterm/__init__.py).

  `split_joined`: arguments written with a backslash before every character, or between two
  quotes of one kind, come back as they were, whatever blanks stand between them.
  `split_errors_iff`: `_split` fails on the lines that end inside an open quote
  (`Unterminated`) and on no other. A backslash at the end of a line is no error: it escapes
  nothing and stands for itself, inside a quote as well.

  The scan of the model is over bytes; `scan_chr` is the turn of it for a whole character.
-/

import PythonUltra.Os.Text
import PythonUltra.Pyterm.Model

namespace PythonUltra.Pyterm

open PythonUltra.Lib PythonUltra.Os PythonUltra.Pyperm PythonUltra.Zipfile

def backslashChr : Chr := ofChar '\\'

def quoteChrs : List Chr := [ofChar '\'', ofChar '"']

def blankChrs : List Chr := [Os.space, ofChar '\t']

def scan (s : Splitting) (line : Text) : Splitting := (bytes line).foldl splitChar s

theorem scan_append (s : Splitting) (a b : Text) : scan s (a ++ b) = scan (scan s a) b := by
  simp [scan, bytes_append]

theorem scan_cons (s : Splitting) (c : Chr) (line : Text) : scan s (c :: line) = scan (scan s [c]) line :=
  scan_append s [c] line

/-! ## A turn of the scan -/

/-- `current.append(char)` -/
def Splitting.take (s : Splitting) (c : Chr) : Splitting := { s with current := s.current ++ c.bytes }

/-- A turn of the loop of `_split`, over characters. -/
def splitTurn (s : Splitting) (c : Chr) : Splitting :=
  if s.escape then { s.take c with escape := false }
  else if c = backslashChr then { s with escape := true }
  else if s.quote ≠ none then
    if s.quote.map (fun q => [q]) = some c.bytes then { s with quote := none } else s.take c
  else if c ∈ quoteChrs then { s with quote := c.bytes.head? }
  else if c ∈ blankChrs then { s with result := s.words, current := [] }
  else s.take c

/-- The open quote is one. -/
def Splitting.Quoting (s : Splitting) : Prop := ∀ q, s.quote = some q → q ∈ quotes

/-- The byte is none that the scan looks for. -/
def Inert (b : UInt8) : Prop := b ≠ backslash ∧ b ∉ quotes ∧ b ≠ space ∧ b ≠ tab

theorem inert_of_high {b : UInt8} (h : ¬ b < 0x80) : Inert b := by
  have hne : ∀ c : UInt8, c < 0x80 → b ≠ c := fun c hc hbc => h (hbc ▸ hc)
  refine ⟨hne _ (by decide), fun hq => ?_, hne _ (by decide), hne _ (by decide)⟩
  rcases List.mem_pair.mp hq with hb | hb
  · exact hne _ (by decide) hb
  · exact hne _ (by decide) hb

theorem splitChar_inert {s : Splitting} {b : UInt8} (hs : s.Quoting) (hb : Inert b) :
    splitChar s b = { s with current := s.current ++ [b], escape := false } := by
  obtain ⟨result, current, quote, escape⟩ := s
  obtain ⟨hslash, hquote, hspace, htab⟩ := hb
  rcases escape with _ | _
  · rcases quote with _ | q
    · simp [splitChar, hslash, hquote, hspace, htab]
    · have hne : q ≠ b := fun h => hquote (h ▸ hs q rfl)
      simp [splitChar, hslash, hne]
  · rfl

theorem foldl_inert {s : Splitting} {t : Str} (hs : s.Quoting) (hescape : s.escape = false) (ht : ∀ b ∈ t, Inert b) :
    t.foldl splitChar s = { s with current := s.current ++ t } := by
  induction t generalizing s with
  | nil => rw [List.append_nil]; rfl
  | cons b t ih =>
    rw [List.foldl_cons, splitChar_inert hs (ht b List.mem_cons_self), ih]
    · rw [List.append_assoc, hescape]
      rfl
    · exact hs
    · rfl
    · exact fun x hx => ht x (List.mem_cons_of_mem _ hx)

theorem inert_or_ascii (c : Chr) : (∀ b ∈ c.bytes, Inert b) ∨ ∃ b, c.bytes = [b] ∧ b < 0x80 := by
  obtain ⟨bs, ok⟩ := c
  cases bs with
  | nil => simp [isChr] at ok
  | cons b t =>
    by_cases hb : b ≥ 0xc0
    · refine Or.inl fun x hx => inert_of_high ?_
      rcases List.mem_cons.mp hx with rfl | hx
      · exact fun h => by have := UInt8.lt_of_le_of_lt hb h; revert this; decide
      · exact (isCont_range (((isChr_lead hb).mp ok).2.2 x hx)).2
    · obtain ⟨hlow, rfl⟩ := (isChr_ascii hb).mp ok
      exact Or.inr ⟨b, rfl, hlow⟩

theorem bytes_ofChar_iff {c : Chr} {b : UInt8} (x : Char) (hx : (ofChar x).bytes = [b]) : c = ofChar x ↔ c.bytes = [b] := by
  constructor
  · rintro rfl
    exact hx
  · intro h
    exact Chr.ext (h.trans hx.symm)

theorem eq_backslashChr_iff {c : Chr} : c = backslashChr ↔ c.bytes = [backslash] := bytes_ofChar_iff _ rfl

theorem mem_quoteChrs_iff {c : Chr} : c ∈ quoteChrs ↔ ∃ q ∈ quotes, c.bytes = [q] := by
  rw [quoteChrs, List.mem_pair, bytes_ofChar_iff (b := 39) _ rfl, bytes_ofChar_iff (b := 34) _ rfl, quotes]
  simp [List.mem_pair]

theorem mem_blankChrs_iff {c : Chr} : c ∈ blankChrs ↔ c.bytes = [space] ∨ c.bytes = [tab] := by
  rw [blankChrs, List.mem_pair, Os.space, bytes_ofChar_iff (b := space) _ rfl, bytes_ofChar_iff (b := tab) _ rfl]

/-- A character of inert bytes is taken in every state. -/
theorem splitTurn_inert {s : Splitting} {c : Chr} (hs : s.Quoting) (hc : ∀ b ∈ c.bytes, Inert b) :
    splitTurn s c = { s.take c with escape := false } := by
  have hne : ∀ b : UInt8, ¬ Inert b → c.bytes ≠ [b] := fun b hb h => hb (hc b (h ▸ List.mem_singleton_self b))
  have hslash : c ≠ backslashChr := fun h => hne backslash (fun h => h.1 rfl) (eq_backslashChr_iff.mp h)
  have hquote : c ∉ quoteChrs := fun h => by
    obtain ⟨q, hq, hcq⟩ := mem_quoteChrs_iff.mp h
    exact hne q (fun h => h.2.1 hq) hcq
  have hblank : c ∉ blankChrs := fun h => by
    rcases mem_blankChrs_iff.mp h with h | h
    · exact hne space (fun h => h.2.2.1 rfl) h
    · exact hne tab (fun h => h.2.2.2 rfl) h
  obtain ⟨result, current, quote, escape⟩ := s
  rcases escape with _ | _
  · rcases quote with _ | q
    · simp [splitTurn, Splitting.take, hslash, hquote, hblank]
    · have hq : [q] ≠ c.bytes := fun h => hne q (fun h => h.2.1 (hs q rfl)) h.symm
      simp [splitTurn, Splitting.take, hslash, hq]
  · rfl

theorem scan_chr {s : Splitting} (hs : s.Quoting) (c : Chr) : scan s [c] = splitTurn s c := by
  rw [scan, bytes_cons, bytes_nil, List.append_nil]
  rcases inert_or_ascii c with hc | ⟨b, hc, -⟩
  · rw [splitTurn_inert hs hc]
    obtain ⟨b, t, hbt, -, -⟩ := c.split
    rw [hbt] at hc
    rw [Splitting.take, hbt, List.foldl_cons, splitChar_inert hs (hc b List.mem_cons_self), foldl_inert]
    · rw [List.append_assoc, List.singleton_append]
    · exact hs
    · rfl
    · exact fun x hx => hc x (List.mem_cons_of_mem _ hx)
  · obtain ⟨result, current, quote, escape⟩ := s
    simp only [splitTurn, eq_backslashChr_iff, mem_quoteChrs_iff, mem_blankChrs_iff, hc, Splitting.take, List.foldl_cons,
      List.foldl_nil, splitChar, List.cons.injEq, and_true, exists_eq_right', List.head?_cons]
    rcases quote with _ | q
    · simp
    · simp

theorem quoting_scan {s : Splitting} (hs : s.Quoting) (c : Chr) : (scan s [c]).Quoting := by
  rw [scan_chr hs]
  intro q hq
  unfold splitTurn at hq
  split at hq
  · exact hs q hq
  · split at hq
    · exact hs q hq
    · split at hq
      · split at hq
        · cases hq
        · exact hs q hq
      · split at hq
        · rename_i hc
          obtain ⟨x, hx, hcx⟩ := mem_quoteChrs_iff.mp hc
          have heq : c.bytes.head? = some q := hq
          rw [hcx] at heq
          cases heq
          exact hx
        · split at hq
          · exact hs q hq
          · exact hs q hq

/-! ## Where the scan stands -/

/-- Between two characters, outside a quote. -/
def outside (result : List Str) (current : Str) : Splitting := ⟨result, current, none, false⟩

/-- Between two characters, in a quote. -/
def inside (q : UInt8) (result : List Str) (current : Str) : Splitting := ⟨result, current, some q, false⟩

section Turns

variable {result : List Str} {current : Str} {c q : Chr} {b : UInt8}

theorem quoting_outside : (outside result current).Quoting := fun _ h => nomatch h

theorem quoting_inside (hb : b ∈ quotes) : (inside b result current).Quoting := by
  rintro _ ⟨⟩
  exact hb

theorem words_outside (h : current ≠ []) : (outside result current).words = result ++ [current] := if_neg h

theorem outside_escape (c : Chr) :
    scan (outside result current) [backslashChr, c] = outside result (current ++ c.bytes) := by
  rw [scan_cons, scan_chr (quoting_scan quoting_outside _), scan_chr quoting_outside]
  rfl

theorem inside_escape (hb : b ∈ quotes) (c : Chr) :
    scan (inside b result current) [backslashChr, c] = inside b result (current ++ c.bytes) := by
  rw [scan_cons, scan_chr (quoting_scan (quoting_inside hb) _), scan_chr (quoting_inside hb)]
  rfl

theorem backslash_not_quote : backslashChr ∉ quoteChrs := by decide

theorem backslash_not_blank : backslashChr ∉ blankChrs := by decide

theorem quote_not_blank {c : Chr} (h : c ∈ quoteChrs) : c ∉ blankChrs := by
  rcases List.mem_pair.mp h with rfl | rfl <;> decide

theorem outside_quote (hc : c.bytes = [b]) (hb : b ∈ quotes) :
    scan (outside result current) [c] = inside b result current := by
  have hquote : c ∈ quoteChrs := mem_quoteChrs_iff.mpr ⟨b, hb, hc⟩
  have hslash : c ≠ backslashChr := fun h => backslash_not_quote (h ▸ hquote)
  rw [scan_chr quoting_outside]
  simp [splitTurn, outside, inside, hslash, hquote, hc]

theorem outside_blank (hc : c ∈ blankChrs) :
    scan (outside result current) [c] = outside (outside result current).words [] := by
  have hslash : c ≠ backslashChr := fun h => backslash_not_blank (h ▸ hc)
  have hquote : c ∉ quoteChrs := fun h => quote_not_blank h hc
  rw [scan_chr quoting_outside]
  simp [splitTurn, outside, hslash, hquote, hc]

theorem outside_take (hslash : c ≠ backslashChr) (hquote : c ∉ quoteChrs) (hblank : c ∉ blankChrs) :
    scan (outside result current) [c] = outside result (current ++ c.bytes) := by
  rw [scan_chr quoting_outside]
  simp [splitTurn, Splitting.take, outside, hslash, hquote, hblank]

theorem inside_close (hb : b ∈ quotes) (hc : c.bytes = [b]) :
    scan (inside b result current) [c] = outside result current := by
  have hslash : c ≠ backslashChr := fun h => backslash_not_quote (h ▸ mem_quoteChrs_iff.mpr ⟨b, hb, hc⟩)
  rw [scan_chr (quoting_inside hb)]
  simp [splitTurn, outside, inside, hslash, hc]

theorem inside_take (hb : b ∈ quotes) (hslash : c ≠ backslashChr) (hc : c.bytes ≠ [b]) :
    scan (inside b result current) [c] = inside b result (current ++ c.bytes) := by
  rw [scan_chr (quoting_inside hb)]
  simp [splitTurn, Splitting.take, inside, hslash, Ne.symm hc]

end Turns

/-! ## Lines -/

/-- What stands between the quotes `q`. -/
inductive Quoted (q : Chr) : Text → Prop
  | nil : Quoted q []
  | take (c : Chr) {rest : Text} : c ≠ backslashChr → c ≠ q → Quoted q rest → Quoted q (c :: rest)
  | escape (c : Chr) {rest : Text} : Quoted q rest → Quoted q (backslashChr :: c :: rest)

/-- Every quote is closed, and every backslash has its character. -/
inductive Closed : Text → Prop
  | nil : Closed []
  | take (c : Chr) {rest : Text} : c ≠ backslashChr → c ∉ quoteChrs → Closed rest → Closed (c :: rest)
  | escape (c : Chr) {rest : Text} : Closed rest → Closed (backslashChr :: c :: rest)
  | quote (q : Chr) {body rest : Text} : q ∈ quoteChrs → Quoted q body → Closed rest → Closed (q :: (body ++ q :: rest))

/-- What may follow at the end: nothing, or a backslash that escapes nothing. -/
def Tail (tail : Text) : Prop := tail = [] ∨ tail = [backslashChr]

/-- The line ends inside an open quote. -/
def Unterminated (line : Text) : Prop :=
  ∃ before q body tail, line = before ++ q :: (body ++ tail) ∧ Closed before ∧ q ∈ quoteChrs ∧ Quoted q body ∧ Tail tail

theorem Quoted.scan {q : Chr} {b : UInt8} {body : Text} (h : Quoted q body) (hb : b ∈ quotes) (hq : q.bytes = [b])
    (result : List Str) (current : Str) : ∃ current', scan (inside b result current) body = inside b result current' := by
  induction h generalizing current with
  | nil => exact ⟨current, rfl⟩
  | take c hslash hne _ ih =>
    have hc : c.bytes ≠ [b] := fun h => hne (Chr.ext (h.trans hq.symm))
    rw [scan_cons, inside_take hb hslash hc]
    exact ih _
  | @escape c rest _ ih =>
    rw [show backslashChr :: c :: rest = [backslashChr, c] ++ rest from rfl, scan_append, inside_escape hb]
    exact ih _

theorem Closed.scan {line : Text} (h : Closed line) (result : List Str) (current : Str) :
    ∃ result' current', scan (outside result current) line = outside result' current' := by
  induction h generalizing result current with
  | nil => exact ⟨result, current, rfl⟩
  | take c hslash hquote _ ih =>
    rw [scan_cons]
    by_cases hblank : c ∈ blankChrs
    · rw [outside_blank hblank]
      exact ih _ _
    · rw [outside_take hslash hquote hblank]
      exact ih _ _
  | @escape c rest _ ih =>
    rw [show backslashChr :: c :: rest = [backslashChr, c] ++ rest from rfl, scan_append, outside_escape]
    exact ih _ _
  | @quote q body rest hq hbody _ ih =>
    obtain ⟨b, hb, hqb⟩ := mem_quoteChrs_iff.mp hq
    obtain ⟨current', hscan⟩ := hbody.scan hb hqb result current
    rw [scan_cons, outside_quote hqb hb, scan_append, hscan, scan_cons, inside_close hb hqb]
    exact ih _ _

/-- After an opening quote the line has the closing one, or ends in the quote. -/
theorem quoted_or_open (q : Chr) (hq : q ∈ quoteChrs) (line : Text) :
    (∃ body rest, line = body ++ q :: rest ∧ Quoted q body) ∨ ∃ body tail, line = body ++ tail ∧ Quoted q body ∧ Tail tail := by
  match line with
  | [] => exact Or.inr ⟨[], [], rfl, .nil, Or.inl rfl⟩
  | c :: line =>
    by_cases hc : c = q
    · exact Or.inl ⟨[], line, hc ▸ rfl, .nil⟩
    · by_cases hslash : c = backslashChr
      · subst hslash
        match line with
        | [] => exact Or.inr ⟨[], [backslashChr], rfl, .nil, Or.inr rfl⟩
        | d :: line =>
          rcases quoted_or_open q hq line with ⟨body, rest, rfl, hbody⟩ | ⟨body, tail, rfl, hbody, htail⟩
          · exact Or.inl ⟨_, rest, rfl, .escape d hbody⟩
          · exact Or.inr ⟨_, tail, rfl, .escape d hbody, htail⟩
      · rcases quoted_or_open q hq line with ⟨body, rest, rfl, hbody⟩ | ⟨body, tail, rfl, hbody, htail⟩
        · exact Or.inl ⟨_, rest, rfl, .take c hslash hc hbody⟩
        · exact Or.inr ⟨_, tail, rfl, .take c hslash hc hbody, htail⟩

theorem Closed.append {a b : Text} (ha : Closed a) (hb : Closed b) : Closed (a ++ b) := by
  induction ha with
  | nil => exact hb
  | take c hslash hquote _ ih => exact .take c hslash hquote ih
  | escape c _ ih => exact .escape c ih
  | quote q hq hbody _ ih =>
    rw [List.cons_append, List.append_assoc]
    exact .quote q hq hbody ih

def Ends (line : Text) : Prop := (∃ before tail, line = before ++ tail ∧ Closed before ∧ Tail tail) ∨ Unterminated line

theorem Closed.ends {a b : Text} (ha : Closed a) (hb : Ends b) : Ends (a ++ b) := by
  rcases hb with ⟨before, tail, rfl, hbefore, htail⟩ | ⟨before, q, body, tail, rfl, hbefore, hq, hbody, htail⟩
  · exact Or.inl ⟨a ++ before, tail, (List.append_assoc ..).symm, ha.append hbefore, htail⟩
  · exact Or.inr ⟨a ++ before, q, body, tail, (List.append_assoc ..).symm, ha.append hbefore, hq, hbody, htail⟩

/-- A line is closed up to its tail, or ends in an open quote. -/
theorem closed_or_unterminated (line : Text) : Ends line := by
  match line with
  | [] => exact Or.inl ⟨[], [], rfl, .nil, Or.inl rfl⟩
  | c :: line =>
    by_cases hslash : c = backslashChr
    · subst hslash
      match line with
      | [] => exact Or.inl ⟨[], [backslashChr], rfl, .nil, Or.inr rfl⟩
      | d :: line => exact (Closed.escape d .nil).ends (closed_or_unterminated line)
    · by_cases hquote : c ∈ quoteChrs
      · rcases quoted_or_open c hquote line with ⟨body, rest, rfl, hbody⟩ | ⟨body, tail, rfl, hbody, htail⟩
        · have hrest := (Closed.quote c hquote hbody .nil).ends (closed_or_unterminated rest)
          rwa [List.cons_append, List.append_assoc] at hrest
        · exact Or.inr ⟨[], c, body, tail, rfl, .nil, hquote, hbody, htail⟩
      · exact (Closed.take c hslash hquote .nil).ends (closed_or_unterminated line)
termination_by line.length

theorem scan_tail {s : Splitting} {tail : Text} (hs : s.Quoting) (hescape : s.escape = false) (h : Tail tail) :
    (scan s tail).quote = s.quote := by
  rcases h with rfl | rfl
  · rfl
  · rw [scan_chr hs, splitTurn, hescape]
    rfl

/-- What `_split` does after its loop. -/
def Splitting.finish (s : Splitting) : Except Exc (List Str) :=
  let s := if s.escape then { s with current := s.current ++ [backslash] } else s
  if s.quote ≠ none then .error (.valueError "unterminated quote" []) else .ok s.words

theorem split_scan (line : Text) : split (bytes line) = (scan (outside [] []) line).finish := rfl

theorem finish_error_iff (s : Splitting) : s.finish = .error (.valueError "unterminated quote" []) ↔ s.quote ≠ none := by
  obtain ⟨result, current, quote, escape⟩ := s
  rcases quote with _ | q
  · rcases escape with _ | _ <;> exact ⟨nofun, fun h => absurd rfl h⟩
  · rcases escape with _ | _ <;> exact ⟨fun _ => nofun, fun _ => rfl⟩

theorem scan_unterminated {line : Text} (h : Unterminated line) : (scan (outside [] []) line).quote ≠ none := by
  obtain ⟨before, q, body, tail, rfl, hbefore, hq, hbody, htail⟩ := h
  obtain ⟨b, hb, hqb⟩ := mem_quoteChrs_iff.mp hq
  obtain ⟨result, current, hscan⟩ := hbefore.scan [] []
  obtain ⟨current', hbodyScan⟩ := hbody.scan hb hqb result current
  rw [scan_append, hscan, scan_cons, outside_quote hqb hb, scan_append, hbodyScan, scan_tail (quoting_inside hb) rfl htail]
  exact nofun

theorem scan_closed {before tail : Text} (h : Closed before) (htail : Tail tail) :
    (scan (outside [] []) (before ++ tail)).quote = none := by
  obtain ⟨result, current, hscan⟩ := h.scan [] []
  rw [scan_append, hscan, scan_tail quoting_outside rfl htail]
  rfl

theorem split_errors_iff (line : Text) :
    split (bytes line) = .error (.valueError "unterminated quote" []) ↔ Unterminated line := by
  rw [split_scan, finish_error_iff]
  constructor
  · intro h
    rcases closed_or_unterminated line with ⟨before, tail, rfl, hbefore, htail⟩ | hline
    · exact absurd (scan_closed hbefore htail) h
    · exact hline
  · exact scan_unterminated

/-! ## Arguments -/

inductive Rendering where
  | escaped
  | quoted (q : Chr)

def render : Rendering → Text → Text
  | .escaped, arg => arg.flatMap fun c => [backslashChr, c]
  | .quoted q, arg => q :: (arg ++ [q])

/-- The argument can stand on a line so. -/
def Rendering.Fits : Rendering → Text → Prop
  | .escaped, _ => True
  | .quoted q, arg => q ∈ quoteChrs ∧ q ∉ arg ∧ backslashChr ∉ arg

/-- An argument as it is written. -/
structure Word where
  arg : Text
  rendering : Rendering
  nonempty : arg ≠ []
  fits : rendering.Fits arg

def Word.text (w : Word) : Text := render w.rendering w.arg

/-- The words, with blanks between them. -/
inductive Joined : List Word → Text → Prop
  | nil : Joined [] []
  | last (w : Word) : Joined [w] w.text
  | cons (w : Word) {gap : Text} {v : Word} {words : List Word} {line : Text} : gap ≠ [] → (∀ c ∈ gap, c ∈ blankChrs) →
      Joined (v :: words) line → Joined (w :: v :: words) (w.text ++ (gap ++ line))

theorem scan_escaped (arg : Text) (result : List Str) (current : Str) :
    scan (outside result current) (render .escaped arg) = outside result (current ++ bytes arg) := by
  induction arg generalizing current with
  | nil => rw [bytes_nil, List.append_nil]; rfl
  | cons c arg ih =>
    rw [show render .escaped (c :: arg) = [backslashChr, c] ++ render .escaped arg from rfl, scan_append, outside_escape, ih,
      bytes_cons, List.append_assoc]

theorem scan_verbatim {q : Chr} {b : UInt8} (hb : b ∈ quotes) (hq : q.bytes = [b]) {arg : Text} (hquote : q ∉ arg)
    (hslash : backslashChr ∉ arg) (result : List Str) (current : Str) :
    scan (inside b result current) arg = inside b result (current ++ bytes arg) := by
  induction arg generalizing current with
  | nil => rw [bytes_nil, List.append_nil]; rfl
  | cons c arg ih =>
    obtain ⟨hcq, hquote⟩ := not_or.mp (List.mem_cons.not.mp hquote)
    obtain ⟨hcs, hslash⟩ := not_or.mp (List.mem_cons.not.mp hslash)
    have hc : c.bytes ≠ [b] := fun h => hcq (Chr.ext (hq.trans h.symm))
    rw [scan_cons, inside_take hb (Ne.symm hcs) hc, ih hquote hslash, bytes_cons, List.append_assoc]

theorem Word.scan (w : Word) (result : List Str) (current : Str) :
    scan (outside result current) w.text = outside result (current ++ bytes w.arg) := by
  obtain ⟨arg, rendering, nonempty, fits⟩ := w
  cases rendering with
  | escaped => exact scan_escaped arg result current
  | quoted q =>
    obtain ⟨hq, hquote, hslash⟩ := fits
    obtain ⟨b, hb, hqb⟩ := mem_quoteChrs_iff.mp hq
    rw [show Word.text _ = q :: (arg ++ [q]) from rfl, scan_cons, outside_quote hqb hb, scan_append,
      scan_verbatim hb hqb hquote hslash, inside_close hb hqb]

theorem Word.bytes_ne (w : Word) : bytes w.arg ≠ [] := by
  intro h
  have hlen := length_le_bytes w.arg
  rw [h, List.length_nil, Nat.le_zero, List.length_eq_zero_iff] at hlen
  exact w.nonempty hlen

/-- The first blank ends the word, the others do nothing. -/
theorem scan_gap {gap : Text} (hne : gap ≠ []) (hgap : ∀ c ∈ gap, c ∈ blankChrs) (result : List Str) {current : Str}
    (hcurrent : current ≠ []) : scan (outside result current) gap = outside (result ++ [current]) [] := by
  have rest : ∀ (gap : Text) (result : List Str), (∀ c ∈ gap, c ∈ blankChrs) →
      scan (outside result []) gap = outside result [] := by
    intro gap result
    induction gap with
    | nil => exact fun _ => rfl
    | cons c gap ih =>
      intro h
      rw [scan_cons, outside_blank (h c List.mem_cons_self)]
      exact ih fun d hd => h d (List.mem_cons_of_mem _ hd)
  cases gap with
  | nil => exact absurd rfl hne
  | cons c gap =>
    rw [scan_cons, outside_blank (hgap c List.mem_cons_self), rest _ _ fun d hd => hgap d (List.mem_cons_of_mem _ hd),
      words_outside hcurrent]

theorem Joined.scan {words : List Word} {line : Text} (h : Joined words line) (result : List Str) :
    ∃ result' current', scan (outside result []) line = outside result' current' ∧
      (outside result' current').words = result ++ words.map fun w => bytes w.arg := by
  induction h generalizing result with
  | nil => exact ⟨result, [], rfl, (List.append_nil _).symm⟩
  | last w => exact ⟨result, bytes w.arg, w.scan result [], words_outside w.bytes_ne⟩
  | @cons w gap v words line hne hgap _ ih =>
    rw [scan_append, w.scan, List.nil_append, scan_append, scan_gap hne hgap _ w.bytes_ne]
    obtain ⟨result', current', hscan, hwords⟩ := ih (result ++ [bytes w.arg])
    refine ⟨result', current', hscan, hwords.trans ?_⟩
    rw [List.append_assoc]
    rfl

/-- The arguments written on a line are its words, and only a line that ends in an open quote has none. -/
theorem split_words :
    (∀ words line, Joined words line → split (bytes line) = .ok (words.map fun w => bytes w.arg)) ∧
    ∀ line, split (bytes line) = .error (.valueError "unterminated quote" []) ↔ Unterminated line := by
  refine ⟨fun words line h => ?_, split_errors_iff⟩
  obtain ⟨result, current, hscan, hwords⟩ := h.scan []
  rw [split_scan, hscan]
  exact congrArg Except.ok hwords

/-- A word in quotes, a tab and a space, and a word with a backslash before each character. -/
theorem split_words_of_two : split (ascii "'a b' \t\\c\\'") = .ok [ascii "a b", ascii "c'"] :=
  split_words.1 [⟨lit "a b", .quoted (ofChar '\''), by decide, by decide, by decide, by decide⟩,
      ⟨lit "c'", .escaped, by decide, trivial⟩] (lit "'a b' \t\\c\\'")
    (@Joined.cons _ (lit " \t") _ _ _ (by decide) (by decide) (.last _))

end PythonUltra.Pyterm
