/-
  PythonUltra.Pyeditor.Find — the search of the editor finds the next occurrence, going
  around.

  Seen from the cursor the places of a text come in three laps: those after it, those
  before it, and its own place last (`lap`). `find` scans the rows from the cursor's on
  and around, the cursor's row only past the cursor, and then that row up to the cursor;
  so what it stops at comes before every other occurrence (`FirstMatch`).
-/

import PythonUltra.Pyeditor.Runs

namespace PythonUltra.Pyeditor

open PythonUltra.Lib PythonUltra.Lib.Prog PythonUltra.Os

/-- `query` starts at a row and a column. -/
def Occurs (lines : List Text) (query : Text) (p : Nat × Nat) : Prop :=
  ∃ line, lines[p.1]? = some line ∧ query <+: line.drop p.2

/-- The places after the cursor, those before it, the cursor's own. -/
def lap (cursor p : Nat × Nat) : Nat := if after p cursor then 0 else if p = cursor then 2 else 1

/-- `p` is read before `q`, from the cursor on and around. -/
def Sooner (cursor p q : Nat × Nat) : Prop := lap cursor p < lap cursor q ∨ lap cursor p = lap cursor q ∧ after q p

/-- `p` is the first occurrence from the cursor on and around. -/
structure FirstMatch (lines : List Text) (query : Text) (cursor p : Nat × Nat) : Prop where
  occurs : Occurs lines query p
  first : ∀ q, Occurs lines query q → q = p ∨ Sooner cursor p q

/-! ## Searching a line -/

section

variable {query : Text}

theorem not_prefix_nil (hq : query ≠ []) : ¬ query <+: [] := fun h => hq (List.prefix_nil.mp h)

theorem indexOf_some (hq : query ≠ []) {t : Text} {i : Nat} (h : indexOf query t = some i) :
    query <+: t.drop i ∧ ∀ j < i, ¬ query <+: t.drop j := by
  induction t generalizing i with
  | nil => simp [indexOf, hq] at h
  | cons c t ih =>
    unfold indexOf at h
    split at h
    · rename_i hp
      obtain rfl : 0 = i := by simpa using h
      exact ⟨by simpa using hp, fun j hj => absurd hj (Nat.not_lt_zero j)⟩
    · rename_i hp
      obtain ⟨k, hk, rfl⟩ := Option.map_eq_some_iff.mp h
      obtain ⟨h1, h2⟩ := ih hk
      refine ⟨by simpa using h1, fun j hj => ?_⟩
      cases j with
      | zero => simpa using hp
      | succ j => simpa using h2 j (by omega)

theorem indexOf_none (hq : query ≠ []) {t : Text} (h : indexOf query t = none) (j : Nat) : ¬ query <+: t.drop j := by
  induction t generalizing j with
  | nil => rw [List.drop_nil]; exact not_prefix_nil hq
  | cons c t ih =>
    unfold indexOf at h
    split at h
    · simp at h
    · rename_i hp
      cases j with
      | zero => simpa using hp
      | succ j => simpa using ih (Option.map_eq_none_iff.mp h) j

theorem find_some (hq : query ≠ []) {t : Text} {start i : Nat} (h : find t query start = some i) :
    start ≤ i ∧ query <+: t.drop i ∧ ∀ j, start ≤ j → j < i → ¬ query <+: t.drop j := by
  obtain ⟨k, hk, rfl⟩ := Option.map_eq_some_iff.mp h
  obtain ⟨h1, h2⟩ := indexOf_some hq hk
  rw [List.drop_drop, Nat.add_comm] at h1
  refine ⟨Nat.le_add_left _ _, h1, fun j hj hjk => ?_⟩
  have := h2 (j - start) (by omega)
  rw [List.drop_drop] at this
  rwa [show start + (j - start) = j by omega] at this

theorem find_none (hq : query ≠ []) {t : Text} {start : Nat} (h : find t query start = none) {j : Nat} (hj : start ≤ j) :
    ¬ query <+: t.drop j := by
  have := indexOf_none hq (Option.map_eq_none_iff.mp h) (j - start)
  rw [List.drop_drop] at this
  rwa [show start + (j - start) = j by omega] at this

/-- Up to `stop` there is room for the starts at most `stop - query.length`. -/
theorem prefix_take (hq : query ≠ []) {t : Text} {cx j : Nat} :
    query <+: (t.take (cx + query.length)).drop j ↔ j ≤ cx ∧ query <+: t.drop j := by
  have hpos : 0 < query.length := List.length_pos_of_ne_nil hq
  rw [List.drop_take, List.prefix_take_iff]
  constructor
  · rintro ⟨h1, h2⟩
    exact ⟨by omega, h1⟩
  · rintro ⟨h1, h2⟩
    exact ⟨h2, by omega⟩

theorem findUpTo_some (hq : query ≠ []) {t : Text} {cx i : Nat} (h : findUpTo t query (cx + query.length) = some i) :
    i ≤ cx ∧ query <+: t.drop i ∧ ∀ j < i, ¬ query <+: t.drop j := by
  obtain ⟨h1, h2⟩ := indexOf_some hq h
  obtain ⟨hle, hi⟩ := (prefix_take hq).mp h1
  exact ⟨hle, hi, fun j hj hp => h2 j hj ((prefix_take hq).mpr ⟨by omega, hp⟩)⟩

theorem findUpTo_none (hq : query ≠ []) {t : Text} {cx j : Nat} (h : findUpTo t query (cx + query.length) = none)
    (hj : j ≤ cx) : ¬ query <+: t.drop j :=
  fun hp => indexOf_none hq h j ((prefix_take hq).mpr ⟨hj, hp⟩)

end

/-! ## Going around -/

/-- One turn of the scan: the row `offset` rows on, and where it starts in it. -/
def scanRow (query : Text) (e : Editor) (offset : Nat) : Option (Nat × Nat) :=
  let row := (e.cy + offset) % e.lines.length
  let start := if row = e.cy then e.cx + 1 else 0
  (find (e.lines.getD row []) query start).map fun position => (row, position)

/-- How many rows on a row is. -/
def turnsTo (e : Editor) (row : Nat) : Nat := if e.cy ≤ row then row - e.cy else row + e.lines.length - e.cy

section

variable {query : Text} {e : Editor}

theorem turnsTo_spec (hcy : e.cy < e.lines.length) {row : Nat} (hrow : row < e.lines.length) :
    turnsTo e row < e.lines.length ∧ (e.cy + turnsTo e row) % e.lines.length = row := by
  unfold turnsTo
  split
  · rw [show e.cy + (row - e.cy) = row by omega]
    exact ⟨by omega, Nat.mod_eq_of_lt hrow⟩
  · rw [show e.cy + (row + e.lines.length - e.cy) = row + e.lines.length by omega, Nat.add_mod_right]
    exact ⟨by omega, Nat.mod_eq_of_lt hrow⟩

/-- Where a scan starts in a row. -/
def startOf (e : Editor) (row : Nat) : Nat := if row = e.cy then e.cx + 1 else 0

/-- From the start of its row on a place is after the cursor, unless its row is before the cursor's. -/
theorem lap_of_start {p : Nat × Nat} (h : startOf e p.1 ≤ p.2) : lap (e.cy, e.cx) p = if e.cy ≤ p.1 then 0 else 1 := by
  unfold startOf at h
  unfold lap
  rcases Nat.lt_trichotomy p.1 e.cy with hlt | heq | hgt
  · have hnot : ¬ after p (e.cy, e.cx) := by
      rintro (hgt | ⟨heq, -⟩)
      · exact Nat.lt_asymm hlt hgt
      · exact Nat.ne_of_lt hlt heq
    have hne : p ≠ (e.cy, e.cx) := fun hp => Nat.ne_of_lt hlt (congrArg Prod.fst hp)
    rw [if_neg hnot, if_neg hne, if_neg (Nat.not_le.mpr hlt)]
  · rw [if_pos heq] at h
    have hafter : after p (e.cy, e.cx) := .inr ⟨heq, h⟩
    rw [if_pos hafter, if_pos heq.ge]
  · have hafter : after p (e.cy, e.cx) := .inl hgt
    rw [if_pos hafter, if_pos (Nat.le_of_lt hgt)]

/-- Before the start of its row a place is in the row of the cursor, and not after the cursor. -/
theorem lap_before_start {q : Nat × Nat} (h : q.2 < startOf e q.1) : q.1 = e.cy ∧ 1 ≤ lap (e.cy, e.cx) q := by
  unfold startOf at h
  by_cases heq : q.1 = e.cy
  · rw [if_pos heq] at h
    have hnot : ¬ after q (e.cy, e.cx) := by
      rintro (hgt | ⟨-, hgt⟩)
      · exact Nat.ne_of_gt hgt heq
      · exact Nat.not_lt.mpr (Nat.lt_succ_iff.mp h) hgt
    refine ⟨heq, ?_⟩
    unfold lap
    rw [if_neg hnot]
    split <;> decide
  · rw [if_neg heq] at h
    exact absurd h (Nat.not_lt_zero _)

/-- In the order of the scan the rows from the cursor's on come first. -/
theorem rows_of_turns {r r' : Nat} (hcy : e.cy < e.lines.length) (hr' : r' < e.lines.length) (h : turnsTo e r ≤ turnsTo e r') :
    (if e.cy ≤ r then 0 else 1) < (if e.cy ≤ r' then 0 else 1) ∨
      (if e.cy ≤ r then 0 else 1) = (if e.cy ≤ r' then 0 else 1) ∧ r ≤ r' := by
  unfold turnsTo at h
  by_cases hle : e.cy ≤ r <;> by_cases hle' : e.cy ≤ r'
  · rw [if_pos hle, if_pos hle'] at h
    rw [if_pos hle, if_pos hle']
    exact .inr ⟨rfl, by omega⟩
  · rw [if_pos hle, if_neg hle']
    exact .inl Nat.zero_lt_one
  · rw [if_neg hle, if_pos hle'] at h
    omega
  · rw [if_neg hle, if_neg hle'] at h
    rw [if_neg hle, if_neg hle']
    exact .inr ⟨rfl, by omega⟩

theorem scanRow_some (hq : query ≠ []) {offset : Nat} {p : Nat × Nat} (hpos : 0 < e.lines.length)
    (h : scanRow query e offset = some p) :
    p.1 = (e.cy + offset) % e.lines.length ∧ startOf e p.1 ≤ p.2 ∧ Occurs e.lines query p ∧
      ∀ q, Occurs e.lines query q → q.1 = p.1 → startOf e q.1 ≤ q.2 → p.2 ≤ q.2 := by
  obtain ⟨i, hi, rfl⟩ := Option.map_eq_some_iff.mp h
  obtain ⟨h1, h2, h3⟩ := find_some hq hi
  have hrow : (e.cy + offset) % e.lines.length < e.lines.length := Nat.mod_lt _ hpos
  have hget := List.getElem?_eq_getElem hrow
  rw [List.getD_eq_getElem?_getD, hget, Option.getD_some] at h2 h3
  refine ⟨rfl, h1, ⟨_, hget, h2⟩, ?_⟩
  rintro ⟨r, c⟩ ⟨line, hline, hp⟩ rfl hstart
  obtain rfl : e.lines[(e.cy + offset) % e.lines.length] = line := Option.some.inj (hget.symm.trans hline)
  exact Nat.le_of_not_lt fun hlt => h3 c hstart hlt hp

theorem scanRow_none (hq : query ≠ []) (hcy : e.cy < e.lines.length) {q : Nat × Nat} (ho : Occurs e.lines query q)
    (h : scanRow query e (turnsTo e q.1) = none) : q.2 < startOf e q.1 := by
  obtain ⟨line, hline, hp⟩ := ho
  have hrow := (List.getElem?_eq_some_iff.mp hline).1
  obtain ⟨-, hmod⟩ := turnsTo_spec hcy hrow
  have hnone := Option.map_eq_none_iff.mp h
  rw [hmod, List.getD_eq_getElem?_getD, hline, Option.getD_some] at hnone
  exact Nat.lt_of_not_le fun hle => find_none hq hnone hle hp

/-- The scan stops at the first row that has a match. -/
theorem scan_some {n : Nat} {p : Nat × Nat} (h : (List.range n).findSome? (scanRow query e) = some p) :
    ∃ o < n, scanRow query e o = some p ∧ ∀ o' < o, scanRow query e o' = none := by
  obtain ⟨l₁, o, l₂, hl, ho, hbefore⟩ := List.findSome?_eq_some_iff.mp h
  have hlen : l₁.length < n := by
    have := congrArg List.length hl
    simp only [List.length_range, List.length_append, List.length_cons] at this
    omega
  have hat : ∀ i, i < n → (l₁ ++ o :: l₂)[i]? = some i := fun i hi => by rw [← hl, List.getElem?_range hi]
  obtain rfl : o = l₁.length := by
    have := hat l₁.length hlen
    rw [List.getElem?_append_right (Nat.le_refl _), Nat.sub_self] at this
    simpa using this
  refine ⟨l₁.length, hlen, ho, fun o' ho' => hbefore o' ?_⟩
  have := hat o' (by omega)
  rw [List.getElem?_append_left ho'] at this
  exact List.mem_of_getElem? this

/-- A match of the scan is the first. -/
theorem firstMatch_scan (hq : query ≠ []) (hcy : e.cy < e.lines.length) {p : Nat × Nat}
    (h : (List.range e.lines.length).findSome? (scanRow query e) = some p) :
    FirstMatch e.lines query (e.cy, e.cx) p := by
  obtain ⟨o, hon, ho, hbefore⟩ := scan_some h
  obtain ⟨hrow, hstart, hocc, hleast⟩ := scanRow_some hq (by omega) ho
  refine ⟨hocc, fun q hqo => ?_⟩
  have hq1 : q.1 < e.lines.length := by
    obtain ⟨line, hline, -⟩ := hqo
    exact (List.getElem?_eq_some_iff.mp hline).1
  obtain ⟨hqn, hqmod⟩ := turnsTo_spec hcy hq1
  -- either the scan comes to the place of `q` no earlier than to `p`, or passes it by
  have hlater : q.2 < startOf e q.1 ∨ o ≤ turnsTo e q.1 := by
    by_cases hlt : turnsTo e q.1 < o
    · exact Or.inl (scanRow_none hq hcy hqo (hbefore _ hlt))
    · exact Or.inr (by omega)
  have hsame : q.1 = p.1 → startOf e q.1 ≤ q.2 → p.2 ≤ q.2 := hleast q hqo
  have hp1 : p.1 < e.lines.length := by rw [hrow]; exact Nat.mod_lt _ (by omega)
  -- the rows in order
  have hpo : o = turnsTo e p.1 := by
    unfold turnsTo
    rcases Nat.lt_or_ge (e.cy + o) e.lines.length with hlt | hge
    · rw [Nat.mod_eq_of_lt hlt] at hrow
      rw [if_pos (by omega)]
      omega
    · rw [Nat.mod_eq_sub_mod hge, Nat.mod_eq_of_lt (by omega)] at hrow
      rw [if_neg (by omega)]
      clear * - hrow hge hcy
      omega
  rw [hpo] at hlater
  unfold Sooner
  rw [lap_of_start hstart]
  rcases Nat.lt_or_ge q.2 (startOf e q.1) with hover | hq2
  · obtain ⟨hcursor, hlap⟩ := lap_before_start hover
    right
    split
    · exact .inl hlap
    · rename_i hlt
      rcases Nat.eq_or_lt_of_le hlap with heq | hgt
      · exact .inr ⟨heq, .inl (by rw [hcursor]; exact Nat.not_le.mp hlt)⟩
      · exact .inl hgt
  · rw [lap_of_start hq2]
    rcases rows_of_turns hcy hq1 (hlater.resolve_left (Nat.not_lt.mpr hq2)) with hlt | ⟨heq, hle⟩
    · exact .inr (.inl hlt)
    · rcases Nat.eq_or_lt_of_le hle with hsamerow | hlt
      · rcases Nat.eq_or_lt_of_le (hsame hsamerow.symm hq2) with hcol | hlt
        · exact .inl (Prod.ext hsamerow.symm hcol.symm)
        · exact .inr (.inr ⟨heq, .inr ⟨hsamerow.symm, hlt⟩⟩)
      · exact .inr (.inr ⟨heq, .inl hlt⟩)

/-- A match the scan does not find is in the row of the cursor, at most at the cursor. -/
theorem occurs_of_scan_none (hq : query ≠ []) (hcy : e.cy < e.lines.length)
    (h : (List.range e.lines.length).findSome? (scanRow query e) = none) {q : Nat × Nat} (ho : Occurs e.lines query q) :
    q.1 = e.cy ∧ q.2 ≤ e.cx := by
  have hrow : q.1 < e.lines.length := by
    obtain ⟨line, hline, -⟩ := ho
    exact (List.getElem?_eq_some_iff.mp hline).1
  have hnone := List.findSome?_eq_none_iff.mp h _ (List.mem_range.mpr (turnsTo_spec hcy hrow).1)
  have hlt := scanRow_none hq hcy ho hnone
  unfold startOf at hlt
  split at hlt
  · exact ⟨by assumption, by omega⟩
  · omega

/-- What `find` finds. -/
theorem findPlace_spec (hq : query ≠ []) (hcy : e.cy < e.lines.length) :
    ∃ place, findPlace query e = .ok place ∧ (∀ p, place = some p → FirstMatch e.lines query (e.cy, e.cx) p) ∧
      (place = none → ∀ p, ¬ Occurs e.lines query p) := by
  unfold findPlace
  dsimp only
  generalize hscan : (List.range e.lines.length).findSome? _ = around
  change (List.range e.lines.length).findSome? (scanRow query e) = around at hscan
  rcases around with _ | p
  · rw [lineAt_of_lt hcy]
    refine ⟨_, rfl, fun p hp => ?_, fun hp q hqo => ?_⟩
    · obtain ⟨i, hi, rfl⟩ := Option.map_eq_some_iff.mp hp
      obtain ⟨hle, hocc, hleast⟩ := findUpTo_some hq hi
      refine ⟨⟨_, List.getElem?_eq_getElem hcy, hocc⟩, fun q hqo => ?_⟩
      obtain ⟨hrow, hcol⟩ := occurs_of_scan_none hq hcy hscan hqo
      obtain ⟨q1, q2⟩ := q
      obtain rfl : q1 = e.cy := hrow
      have hge : i ≤ q2 := by
        obtain ⟨line, hline, hp⟩ := hqo
        obtain rfl : e.lines[e.cy] = line := Option.some.inj ((List.getElem?_eq_getElem hcy).symm.trans hline)
        exact Nat.le_of_not_lt fun hlt => hleast q2 hlt hp
      show (e.cy, q2) = (e.cy, i) ∨ Sooner (e.cy, e.cx) (e.cy, i) (e.cy, q2)
      simp only [Sooner, lap, after, Prod.mk.injEq, true_and] at hcol ⊢
      split_ifs <;> omega
    · obtain ⟨hrow, hcol⟩ := occurs_of_scan_none hq hcy hscan hqo
      obtain ⟨line, hline, hp'⟩ := hqo
      rw [hrow] at hline
      obtain rfl : e.lines[e.cy] = line := Option.some.inj ((List.getElem?_eq_getElem hcy).symm.trans hline)
      exact findUpTo_none hq (Option.map_eq_none_iff.mp hp) hcol hp'
  · refine ⟨_, rfl, fun p' hp' => ?_, fun hp => by simp at hp⟩
    obtain rfl : p = p' := by simpa using hp'
    exact firstMatch_scan hq hcy hscan

theorem Occurs.place (hq : query ≠ []) {lines : List Text} {p : Nat × Nat} (h : Occurs lines query p) :
    Place lines p.1 p.2 := by
  obtain ⟨line, hline, hp⟩ := h
  refine ⟨line, hline, Nat.le_of_lt (Nat.lt_of_not_le fun hle => ?_)⟩
  rw [List.drop_eq_nil_of_le hle] at hp
  exact not_prefix_nil hq hp

end

/-- What `find` leaves of an editor: the cursor at the first occurrence, or a message. -/
structure Searched (query : Text) (e e' : Editor) : Prop where
  lines : e'.lines = e.lines
  found : (∃ p, Occurs e.lines query p) →
    e'.msg = .text "Found" ∧ FirstMatch e.lines query (e.cy, e.cx) (e'.cy, e'.cx)
  notFound : (¬ ∃ p, Occurs e.lines query p) → e'.msg = .text "Not found" ∧ e'.cy = e.cy ∧ e'.cx = e.cx

theorem SameText.searched {query : Text} {e e₁ e' : Editor} (h : SameText e e₁) (hs : Searched query e₁ e') :
    Searched query e e' := by
  obtain ⟨hl, hf, hn⟩ := hs
  rw [h.lines, h.cy, h.cx] at hf hn
  rw [h.lines] at hl
  exact ⟨hl, hf, hn⟩

theorem findQuery_searched (h : Host) {e : Editor} (hv : Valid e) {query : Text} (hq : query ≠ []) :
    ∃ e', findQuery h query e = .ok e' ∧ Searched query e e' := by
  obtain ⟨place, hplace, hsome, hnone⟩ := findPlace_spec (e := { e with lastSearch := query }) hq hv.place.row_lt
  unfold findQuery
  simp only [hplace]
  rcases place with _ | p
  · have hno : ¬ ∃ p, Occurs e.lines query p := fun ⟨p, hp⟩ => hnone rfl p hp
    exact ⟨_, rfl, rfl, fun hp => absurd hp hno, fun _ => ⟨rfl, rfl, rfl⟩⟩
  · have hfirst := hsome p rfl
    have hsame := ensureVisible_same h (e := { e with
      lastSearch := query, cy := p.1, cx := p.2, goalX := p.2, msg := .text "Found" }) (hfirst.occurs.place hq)
    refine ⟨_, rfl, hsame.lines, fun _ => ⟨rfl, ?_⟩, fun hno => absurd ⟨p, hfirst.occurs⟩ hno⟩
    rw [hsame.cy, hsame.cx]
    exact hfirst

/-- A valid editor stays valid and keeps its text and cursor. -/
def Steady (s s' : Session) : Prop := Valid s.ed → Valid s'.ed ∧ SameText s.ed s'.ed

instance : IsPreorder Session Steady where
  refl _ hv := ⟨hv, rfl, rfl, rfl⟩
  trans _ _ _ h1 h2 hv := by
    obtain ⟨hv', hs⟩ := h1 hv
    obtain ⟨hv'', hs'⟩ := h2 hv'
    exact ⟨hv'', hs'.lines.trans hs.lines, hs'.cy.trans hs.cy, hs'.cx.trans hs.cx⟩

theorem calm_steady (h : Host) : Calm h Steady where
  aside _ _ ha hv := ⟨ha.text.valid hv, ha.text⟩
  view _ hv := by
    have hsame := ensureVisible_same h hv.place
    exact ⟨hsame.valid hv, hsame⟩

/-! ## The prompt, and what is done with its answer -/

section

variable {h : Host} {s s₁ : Session}

theorem findText_error {stop : Stop} (hbar : inputBar h s.ed.lastSearch s = (.error stop, s₁)) : findText h s = (.error stop, s₁) := by
  unfold findText
  rw [bind_of_ok (show editor s = (.ok s.ed, s) from rfl)]
  exact bind_of_error hbar

theorem findText_none (hbar : inputBar h s.ed.lastSearch s = (.ok none, s₁)) : findText h s = (.ok (), s₁) := by
  unfold findText
  rw [bind_of_ok (show editor s = (.ok s.ed, s) from rfl), bind_of_ok hbar]
  rfl

theorem findText_some {query : Text} (hbar : inputBar h s.ed.lastSearch s = (.ok (some query), s₁)) :
    findText h s = (if query ≠ [] then edit (findQuery h query) else pure ()) s₁ := by
  unfold findText
  rw [bind_of_ok (show editor s = (.ok s.ed, s) from rfl), bind_of_ok hbar]

end

/-- For every text, cursor and query the search goes to the first occurrence past the
cursor, around to the cursor itself, or reports that there is none; and the whole method
is its prompt, which leaves text and cursor alone, and then that search. -/
theorem find_finds_next (h : Host) {s : Session} (hv : Valid s.ed) :
    (∀ query, query ≠ [] → ∃ e', findQuery h query s.ed = .ok e' ∧ Searched query s.ed e') ∧
    ∃ answer s₁, inputBar h s.ed.lastSearch s = (answer, s₁) ∧ SameText s.ed s₁.ed ∧
      match answer with
      | .error stop => findText h s = (.error stop, s₁)
      | .ok none => findText h s = (.ok (), s₁)
      | .ok (some query) =>
        if query = [] then findText h s = (.ok (), s₁)
        else ∃ e', findText h s = (.ok (), { s₁ with ed := e' }) ∧ Searched query s.ed e' := by
  refine ⟨fun query hq => findQuery_searched h hv hq, ?_⟩
  obtain ⟨hv₁, hsame⟩ := within_inputBar (calm_steady h) s.ed.lastSearch s hv
  rcases hbar : inputBar h s.ed.lastSearch s with ⟨answer, s₁⟩
  rw [hbar] at hv₁ hsame
  refine ⟨answer, s₁, rfl, hsame, ?_⟩
  cases answer with
  | error stop => exact findText_error hbar
  | ok answer =>
    cases answer with
    | none => exact findText_none hbar
    | some query =>
      have hfind := findText_some hbar
      by_cases hq : query = []
      · simp only [hq] at hfind ⊢
        exact hfind
      · obtain ⟨e', he', hsearched⟩ := findQuery_searched h hv₁ hq
        rw [if_pos hq] at hfind
        simp only [hq]
        refine ⟨e', hfind.trans ?_, hsame.searched hsearched⟩
        unfold edit
        rw [he']

/-- Two matches, the cursor at the second. -/
def twoMatches : Editor := { blank [] .githubDark with lines := [lit "ab", lit "xab"], cy := 1, cx := 1 }

theorem find_finds_next_twoMatches : ∃ e', findQuery idleHost (lit "ab") twoMatches = .ok e' ∧
    Searched (lit "ab") twoMatches e' :=
  (find_finds_next idleHost (s := ⟨⟨Fs.empty, [], fun _ => none, nofun, 0, []⟩, ∅, twoMatches, [], []⟩)
    ⟨by unfold Clean CleanLine; decide, lit "xab", rfl, by decide⟩).1 _ (by decide)

end PythonUltra.Pyeditor
