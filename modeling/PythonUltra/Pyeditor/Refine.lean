/-
  PythonUltra.Pyeditor.Refine — the editor's lines as one flat text.

  A `Valid` editor has no line end inside a line and its cursor in the text; `flat` is
  the text it shows with the cursor as an offset. An edit is followed on the lines around
  the cursor (`At`), from which the flat text is read off (`At.flat_eq`): insert, backspace
  and newline are the edits of `Lib.Flat`, and everything else leaves the text alone.
-/

import PythonUltra.Lib.Lines
import PythonUltra.Pyeditor.Model

namespace PythonUltra.Pyeditor

open PythonUltra.Lib PythonUltra.Os

/-- No line end. -/
def CleanLine (l : Text) : Prop := lf ∉ l ∧ cr ∉ l

/-- No line holds a line end. -/
def Clean (lines : List Text) : Prop := ∀ l ∈ lines, CleanLine l

theorem cleanLine_append {a b : Text} : CleanLine (a ++ b) ↔ CleanLine a ∧ CleanLine b := by
  unfold CleanLine
  rw [List.mem_append, List.mem_append]
  tauto

theorem clean_append {P Q : List Text} : Clean (P ++ Q) ↔ Clean P ∧ Clean Q := List.forall_mem_append

theorem clean_cons {l : Text} {P : List Text} : Clean (l :: P) ↔ CleanLine l ∧ Clean P := List.forall_mem_cons

theorem clean_nil : Clean [] := fun _ h => absurd h List.not_mem_nil

theorem cleanLine_nil : CleanLine [] := ⟨List.not_mem_nil, List.not_mem_nil⟩

theorem CleanLine.sub {a b : Text} (h : CleanLine b) (hs : ∀ c ∈ a, c ∈ b) : CleanLine a :=
  ⟨fun hm => h.1 (hs _ hm), fun hm => h.2 (hs _ hm)⟩

structure Valid (e : Editor) : Prop where
  clean : Clean e.lines
  place : Place e.lines e.cy e.cx

/-- The text of a valid editor, and the cursor in it. -/
def flat (e : Editor) (hv : Valid e) : Flat Chr := flatten lf e.lines e.cy e.cx hv.place

/-- Same lines, same cursor. -/
structure SameText (e e' : Editor) : Prop where
  lines : e'.lines = e.lines
  cy : e'.cy = e.cy
  cx : e'.cx = e.cx

theorem SameText.valid {e e' : Editor} (h : SameText e e') (hv : Valid e) : Valid e' :=
  ⟨by rw [h.lines]; exact hv.clean, by rw [h.lines, h.cy, h.cx]; exact hv.place⟩

theorem SameText.flat {e e' : Editor} (h : SameText e e') (hv : Valid e) (hv' : Valid e') : flat e' hv' = flat e hv := by
  ext1
  · show unlines lf e'.lines = unlines lf e.lines
    rw [h.lines]
  · show offset e'.lines e'.cy e'.cx = offset e.lines e.cy e.cx
    rw [h.lines, h.cy, h.cx]

/-- The lines around the cursor. -/
structure At (e : Editor) (A : List Text) (x y : Text) (B : List Text) : Prop where
  lines : e.lines = A ++ (x ++ y) :: B
  cy : e.cy = A.length
  cx : e.cx = x.length

section

variable {e : Editor} {A B : List Text} {x y : Text}

theorem Valid.at (hv : Valid e) : ∃ A x y B, At e A x y B := by
  obtain ⟨A, x, y, B, h, hrow, hcol⟩ := hv.place.around
  exact ⟨A, x, y, B, h, hrow.symm, hcol.symm⟩

theorem At.place (h : At e A x y B) : Place e.lines e.cy e.cx := by
  rw [h.lines, h.cy, h.cx]
  exact place_seam A x y B

theorem At.flat_eq (h : At e A x y B) (hv : Valid e) :
    flat e hv = Flat.seam (unlines lf (A ++ [x])) (unlines lf (y :: B)) := by
  rw [← flatten_seam]
  ext1
  · show unlines lf e.lines = _
    rw [h.lines]; rfl
  · show offset e.lines e.cy e.cx = _
    rw [h.lines, h.cy, h.cx]; rfl

theorem At.lineAt (h : At e A x y B) : lineAt e e.cy = .ok (x ++ y) := by
  unfold Pyeditor.lineAt
  rw [h.lines, h.cy]
  simp

theorem At.take (h : At e A x y B) : (x ++ y).take e.cx = x := by rw [h.cx, List.take_left]

theorem At.drop (h : At e A x y B) : (x ++ y).drop e.cx = y := by rw [h.cx, List.drop_left]

theorem At.set (h : At e A x y B) (l : Text) : e.lines.set e.cy l = A ++ l :: B := by
  rw [h.lines, h.cy, List.set_append_right _ _ (Nat.le_refl _), Nat.sub_self]
  rfl

theorem insertAt_append (P Q : List Text) (l : Text) : insertAt P.length l (P ++ Q) = P ++ l :: Q := by
  unfold insertAt
  rw [List.take_left, List.drop_left]

end

/-! ## The view -/

/-- The cursor is put into the text. -/
theorem ensureVisible_place (h : Host) (e : Editor) :
    Place (ensureVisible h e).lines (ensureVisible h e).cy (ensureVisible h e).cx := by
  have hne : (if e.lines = [] then [[]] else e.lines) ≠ [] := by
    split
    · simp
    · assumption
  have hlt : min ((if e.lines = [] then [[]] else e.lines).length - 1) e.cy <
      (if e.lines = [] then [[]] else e.lines).length := by
    have := List.length_pos_of_ne_nil hne
    omega
  refine ⟨_, List.getElem?_eq_getElem hlt, ?_⟩
  show min ((if e.lines = [] then [[]] else e.lines).getD _ []).length e.cx ≤ _
  rw [List.getD_eq_getElem?_getD, List.getElem?_eq_getElem hlt]
  exact Nat.min_le_left _ _

theorem ensureVisible_clean (h : Host) {e : Editor} (hc : Clean e.lines) : Clean (ensureVisible h e).lines := by
  show Clean (if e.lines = [] then [[]] else e.lines)
  split
  · exact clean_cons.mpr ⟨cleanLine_nil, clean_nil⟩
  · exact hc

theorem ensureVisible_valid (h : Host) {e : Editor} (hc : Clean e.lines) : Valid (ensureVisible h e) :=
  ⟨ensureVisible_clean h hc, ensureVisible_place h e⟩

/-- A cursor in the text stays where it is. -/
theorem ensureVisible_same (h : Host) {e : Editor} (hp : Place e.lines e.cy e.cx) : SameText e (ensureVisible h e) := by
  obtain ⟨l, hl, hcol⟩ := hp
  obtain ⟨hrow, rfl⟩ := List.getElem?_eq_some_iff.mp hl
  have hne : e.lines ≠ [] := List.ne_nil_of_length_pos (Nat.lt_of_le_of_lt (Nat.zero_le _) hrow)
  have hlines : (if e.lines = [] then [[]] else e.lines) = e.lines := if_neg hne
  have hcy : min (e.lines.length - 1) e.cy = e.cy := by omega
  refine ⟨hlines, ?_, ?_⟩
  · show min ((if e.lines = [] then [[]] else e.lines).length - 1) e.cy = e.cy
    rw [hlines, hcy]
  · show min ((if e.lines = [] then [[]] else e.lines).getD
      (min ((if e.lines = [] then [[]] else e.lines).length - 1) e.cy) []).length e.cx = e.cx
    rw [hlines, hcy, List.getD_eq_getElem?_getD, List.getElem?_eq_getElem hrow]
    exact Nat.min_eq_right hcol

theorem At.shown {h : Host} {e : Editor} {A B : List Text} {x y : Text} (ha : At e A x y B) (hc : Clean e.lines) :
    ∃ hv : Valid (ensureVisible h e),
      flat (ensureVisible h e) hv = Flat.seam (unlines lf (A ++ [x])) (unlines lf (y :: B)) := by
  have hsame := ensureVisible_same h ha.place
  refine ⟨ensureVisible_valid h hc, ?_⟩
  rw [hsame.flat ⟨hc, ha.place⟩, ha.flat_eq]

/-! ## Edits of the text -/

/-- Lines put in one after the other, each below the one before. -/
theorem foldl_insertAt (A C B : List Text) (l : Text) (parts : List Text) :
    (parts.zipIdx (C.length + 1)).foldl (fun lines part => insertAt (A.length + part.2) part.1 lines)
      (A ++ l :: (C ++ B)) = A ++ l :: (C ++ (parts ++ B)) := by
  induction parts generalizing C with
  | nil => rfl
  | cons part parts ih =>
    rw [List.zipIdx_cons, List.foldl_cons]
    have hput : insertAt (A.length + (C.length + 1)) part (A ++ l :: (C ++ B)) = A ++ l :: (C ++ [part] ++ B) := by
      have := insertAt_append (A ++ l :: C) B part
      simpa using this
    have := ih (C ++ [part])
    rw [List.length_append, List.length_singleton] at this
    rw [hput, this]
    simp

/-- The cursor after a splice of several lines: past the last of them. -/
theorem At.past_parts {e : Editor} {A B : List Text} {x y : Text} (ha : At e A x y B) (p q : Text) (mids : List Text) :
    At (spliceParts e (x ++ y) (p :: (mids ++ [q]))) (A ++ (x ++ p) :: mids) q y B := by
  have hlast : (p :: (mids ++ [q])).getLastD [] = q := by
    rw [← List.cons_append, List.getLastD_eq_getLast?, List.getLast?_concat, Option.getD_some]
  have hmids : ((mids ++ [q]).dropLast.zipIdx 1).foldl (fun lines part => insertAt (e.cy + part.2) part.1 lines)
      (e.lines.set e.cy ((x ++ y).take e.cx ++ p)) = A ++ (x ++ p) :: (mids ++ B) := by
    rw [ha.set, ha.take, ha.cy, List.dropLast_concat]
    exact foldl_insertAt A [] B (x ++ p) mids
  have hput := insertAt_append (A ++ (x ++ p) :: mids) B (q ++ y)
  rw [List.length_append, List.length_cons] at hput
  refine ⟨?_, ?_, ?_⟩
  · show insertAt _ ((p :: (mids ++ [q])).getLastD [] ++ (x ++ y).drop e.cx) _ = _
    rw [hlast, ha.drop]
    show insertAt (e.cy + (p :: (mids ++ [q])).length - 1) (q ++ y) (List.foldl _
      (e.lines.set e.cy ((x ++ y).take e.cx ++ p)) ((mids ++ [q]).dropLast.zipIdx 1)) = _
    rw [hmids, ha.cy]
    simpa [Nat.add_assoc] using hput
  · show e.cy + ((p :: (mids ++ [q])).length - 1) = _
    rw [ha.cy]
    simp
  · show ((p :: (mids ++ [q])).getLastD []).length = _
    rw [hlast]

theorem one_or_more {α : Type} (parts : List α) (h : parts ≠ []) :
    (∃ p, parts = [p]) ∨ ∃ p mids q, parts = p :: (mids ++ [q]) := by
  cases parts with
  | nil => exact absurd rfl h
  | cons p rest =>
    rcases List.eq_nil_or_concat rest with rfl | ⟨mids, q, rfl⟩
    · exact Or.inl ⟨p, rfl⟩
    · exact Or.inr ⟨p, mids, q, by rw [List.concat_eq_append]⟩

theorem clean_linesOf (t : Text) : Clean ((normalize t).splitOn lf) := fun _ hl =>
  ⟨(of_mem_splitOn hl).1, fun hc => cr_not_mem_normalize t ((of_mem_splitOn hl).2 _ hc)⟩

section

variable {h : Host} {e : Editor}

theorem At.clean {A B : List Text} {x y : Text} (ha : At e A x y B) (hv : Valid e) :
    Clean A ∧ CleanLine x ∧ CleanLine y ∧ Clean B := by
  have := hv.clean
  rw [ha.lines, clean_append, clean_cons, cleanLine_append] at this
  tauto

theorem At.clean_lines {A B : List Text} {x y : Text} (ha : At e A x y B) (hA : Clean A) (hx : CleanLine x)
    (hy : CleanLine y) (hB : Clean B) : Clean e.lines := by
  rw [ha.lines, clean_append, clean_cons, cleanLine_append]
  exact ⟨hA, ⟨hx, hy⟩, hB⟩

/-- A splice puts its text before the cursor. -/
theorem At.splice_text {A B : List Text} {x y text : Text} (ha : At e A x y B) (hv : Valid e)
    (hc : Clean (text.splitOn lf)) : ∃ A' x', At (splice e (x ++ y) text) A' x' y B ∧
      Clean (splice e (x ++ y) text).lines ∧ unlines lf (A' ++ [x']) = unlines lf (A ++ [x]) ++ text := by
  obtain ⟨hA, hx, hy, hB⟩ := ha.clean hv
  have htext : unlines lf (text.splitOn lf) = text := List.intercalate_splitOn lf
  unfold splice
  rcases one_or_more _ (List.splitOn_ne_nil lf text) with ⟨p, hp⟩ | ⟨p, mids, q, hp⟩
  · -- within the line
    have hpt : p = text := by rw [← htext, hp, unlines_singleton]
    rw [hp, clean_cons, hpt] at hc
    simp only [hp, List.length_singleton, if_true]
    have ha' : At { e with
        lines := e.lines.set e.cy ((x ++ y).take e.cx ++ text ++ (x ++ y).drop e.cx),
        cx := e.cx + text.length } A (x ++ text) y B :=
      ⟨by rw [ha.set, ha.take, ha.drop], ha.cy, by show e.cx + _ = _; rw [ha.cx, List.length_append]⟩
    refine ⟨A, x ++ text, ha', ha'.clean_lines hA (cleanLine_append.mpr ⟨hx, hc.1⟩) hy hB, ?_⟩
    rw [unlines_merge A x text [], unlines_singleton]
  · -- over several lines
    rw [hp] at htext hc ⊢
    rw [clean_cons, clean_append, clean_cons] at hc
    have ha' := ha.past_parts p q mids
    simp only
    rw [if_neg (by simp)]
    have hA' : Clean (A ++ (x ++ p) :: mids) :=
      clean_append.mpr ⟨hA, clean_cons.mpr ⟨cleanLine_append.mpr ⟨hx, hc.1⟩, hc.2.1⟩⟩
    refine ⟨A ++ (x ++ p) :: mids, q, ha', ha'.clean_lines hA' hc.2.2.1 hy hB, ?_⟩
    rw [List.append_assoc, List.cons_append, unlines_merge A x p (mids ++ [q]), htext]

/-- The end of an edit that has moved the cursor past `s`. -/
theorem At.inserted {e' : Editor} {A B A' : List Text} {x y x' : Text} {s : Text} (ha : At e A x y B)
    (ha' : At e' A' x' y B) (hv : Valid e) (hc : Clean e'.lines)
    (hs : unlines lf (A' ++ [x']) = unlines lf (A ++ [x]) ++ s) :
    ∃ hv' : Valid (ensureVisible h e'), flat (ensureVisible h e') hv' = (flat e hv).insert s := by
  obtain ⟨hv', hflat⟩ := ha'.shown hc
  exact ⟨hv', by rw [hflat, ha.flat_eq hv, Flat.insert_seam, hs]⟩

theorem insert_spec (hv : Valid e) (t : Text) : ∃ (e' : Editor) (hv' : Valid e'), insert h t e = .ok e' ∧
    flat e' hv' = if t ≠ [] ∧ sizeRefused e (normalize t) then flat e hv else (flat e hv).insert (normalize t) := by
  by_cases ht : t = []
  · refine ⟨e, hv, by rw [insert, if_pos ht], ?_⟩
    rw [if_neg (by simp [ht]), ht]
    exact (Flat.insert_nil _).symm
  unfold insert
  rw [if_neg ht]
  simp only [replace_line_ends]
  by_cases hr : sizeRefused e (normalize t)
  · have hsame : SameText e { e with msg := .text "Editor size limit" } := ⟨rfl, rfl, rfl⟩
    refine ⟨_, hsame.valid hv, if_pos hr, ?_⟩
    rw [if_pos ⟨ht, hr⟩]
    exact hsame.flat hv _
  rw [if_neg hr, if_neg fun hn => hr hn.2]
  obtain ⟨A, x, y, B, ha⟩ := hv.at
  obtain ⟨A', x', ha', hc, htext⟩ := ha.splice_text hv (clean_linesOf t)
  have hgoal : At { splice e (x ++ y) (normalize t) with
      goalX := (splice e (x ++ y) (normalize t)).cx, dirty := true } A' x' y B := ⟨ha'.lines, ha'.cy, ha'.cx⟩
  obtain ⟨hv', hflat⟩ := ha.inserted hgoal hv hc htext
  exact ⟨_, hv', by rw [ha.lineAt]; rfl, hflat⟩

theorem backspace_spec (hv : Valid e) :
    ∃ (e' : Editor) (hv' : Valid e'), backspace h e = .ok e' ∧ flat e' hv' = (flat e hv).backspace := by
  obtain ⟨A, x, y, B, ha⟩ := hv.at
  obtain ⟨hA, hx, hy, hB⟩ := ha.clean hv
  unfold backspace
  rcases List.eq_nil_or_concat x with rfl | ⟨x', c, rfl⟩
  · have hcx : ¬ e.cx > 0 := by rw [ha.cx]; simp
    rcases List.eq_nil_or_concat A with rfl | ⟨A', p, rfl⟩
    · -- at the start of the text
      have hcy : ¬ e.cy > 0 := by rw [ha.cy]; simp
      rw [if_neg hcx, if_neg hcy]
      have ha' : At { e with goalX := e.cx } [] [] y B := ⟨ha.lines, ha.cy, ha.cx⟩
      obtain ⟨hv', hflat⟩ := ha'.shown (h := h) hv.clean
      refine ⟨_, hv', rfl, ?_⟩
      rw [hflat, ha.flat_eq hv, Flat.backspace_of_off]
      simp [unlines, List.intercalate]
    · -- at the start of a line: it joins the line before
      rw [List.concat_eq_append] at ha hA
      have hlen : e.cy = A'.length + 1 := by rw [ha.cy]; simp
      have hlines : e.lines = A' ++ p :: y :: B := by rw [ha.lines]; simp
      have hprev : lineAt e (e.cy - 1) = .ok p := by
        unfold lineAt
        rw [hlines, hlen]
        simp
      have herase : (e.lines.eraseIdx e.cy).set (e.cy - 1) (p ++ y) = A' ++ (p ++ y) :: B := by
        rw [hlines, hlen, List.eraseIdx_append_of_length_le (by omega), Nat.add_sub_cancel_left, Nat.add_sub_cancel,
          List.set_append_right _ _ (Nat.le_refl _), Nat.sub_self]
        rfl
      rw [if_neg hcx, if_pos (by omega), hprev, ha.lineAt]
      have ha' : At { e with
          lines := (e.lines.eraseIdx e.cy).set (e.cy - 1) (p ++ y), cy := e.cy - 1, cx := p.length, dirty := true,
          goalX := p.length } A' p y B := ⟨herase, by show e.cy - 1 = _; omega, rfl⟩
      have hp : Clean A' ∧ CleanLine p := by
        rw [clean_append, clean_cons] at hA
        exact ⟨hA.1, hA.2.1⟩
      obtain ⟨hv', hflat⟩ := ha'.shown (h := h) (ha'.clean_lines hp.1 hp.2 hy hB)
      refine ⟨_, hv', rfl, ?_⟩
      rw [hflat, ha.flat_eq hv, @unlines_append _ lf (A' ++ [p]) [[]] (by simp) (by simp), unlines_singleton,
        Flat.backspace_seam]
  · -- within a line
    rw [List.concat_eq_append] at ha hx
    have hcx : e.cx = x'.length + 1 := by rw [ha.cx]; simp
    rw [if_pos (by omega), ha.lineAt]
    have ha' : At { e with
        lines := e.lines.set e.cy ((x' ++ [c] ++ y).take (e.cx - 1) ++ (x' ++ [c] ++ y).drop e.cx), cx := e.cx - 1,
        dirty := true, goalX := e.cx - 1 } A x' y B := by
      refine ⟨?_, ha.cy, by show e.cx - 1 = _; omega⟩
      show e.lines.set e.cy _ = _
      rw [ha.set, ha.drop, hcx, Nat.add_sub_cancel, List.append_assoc, List.take_left]
    obtain ⟨hv', hflat⟩ := ha'.shown (h := h) (ha'.clean_lines hA (cleanLine_append.mp hx).1 hy hB)
    refine ⟨_, hv', rfl, ?_⟩
    rw [hflat, ha.flat_eq hv, unlines_merge A x' [c] [], unlines_singleton, Flat.backspace_seam]

/-- The text before the cursor in its line. -/
def beforeCursor (e : Editor) : Text := (e.lines.getD e.cy []).take e.cx

theorem At.beforeCursor {A B : List Text} {x y : Text} (ha : At e A x y B) : beforeCursor e = x := by
  unfold Pyeditor.beforeCursor
  rw [ha.lines, ha.cy, ha.cx]
  simp

theorem cleanLine_indentAfter {x : Text} : CleanLine (indentAfter x) := by
  have hspace : ∀ c ∈ indentAfter x, c = space := by
    unfold indentAfter
    intro c hc
    rcases List.mem_append.mp hc with hc | hc
    · simpa using List.mem_takeWhile_imp hc
    · split at hc
      · simpa using hc
      · simp at hc
  exact ⟨fun hm => absurd (hspace _ hm) (by decide), fun hm => absurd (hspace _ hm) (by decide)⟩

theorem newline_spec (hv : Valid e) : ∃ (e' : Editor) (hv' : Valid e'), newline h e = .ok e' ∧
    flat e' hv' = if e.lines.length ≥ maxEditLines then flat e hv
      else (flat e hv).insert (lf :: indentAfter (beforeCursor e)) := by
  obtain ⟨A, x, y, B, ha⟩ := hv.at
  obtain ⟨hA, hx, hy, hB⟩ := ha.clean hv
  unfold newline
  by_cases hr : e.lines.length ≥ maxEditLines
  · have hsame : SameText e { e with msg := .text "Editor line limit" } := ⟨rfl, rfl, rfl⟩
    exact ⟨_, hsame.valid hv, if_pos hr, by rw [if_pos hr]; exact hsame.flat hv _⟩
  rw [if_neg hr, if_neg hr, ha.lineAt, ha.beforeCursor]
  have hput : insertAt (e.cy + 1) (indentAfter ((x ++ y).take e.cx) ++ (x ++ y).drop e.cx)
      (e.lines.set e.cy ((x ++ y).take e.cx)) = A ++ [x] ++ (indentAfter x ++ y) :: B := by
    have := insertAt_append (A ++ [x]) B (indentAfter x ++ y)
    rw [List.length_append, List.length_singleton, ← ha.cy] at this
    rw [ha.set, ha.take, ha.drop, ← this]
    simp
  have ha' : At { e with
      lines := insertAt (e.cy + 1) (indentAfter ((x ++ y).take e.cx) ++ (x ++ y).drop e.cx)
        (e.lines.set e.cy ((x ++ y).take e.cx)), cy := e.cy + 1, cx := (indentAfter ((x ++ y).take e.cx)).length,
      goalX := (indentAfter ((x ++ y).take e.cx)).length, dirty := true } (A ++ [x]) (indentAfter x) y B :=
    ⟨hput, by show e.cy + 1 = _; rw [ha.cy]; simp, by show (indentAfter _).length = _; rw [ha.take]⟩
  obtain ⟨hv', hflat⟩ := ha.inserted (h := h) (s := lf :: indentAfter x) ha' hv
    (ha'.clean_lines (clean_append.mpr ⟨hA, clean_cons.mpr ⟨hx, clean_nil⟩⟩) cleanLine_indentAfter hy hB)
    (by rw [@unlines_append _ lf (A ++ [x]) [indentAfter x] (by simp) (by simp), unlines_singleton])
  exact ⟨_, hv', rfl, hflat⟩

/-! ## What leaves the text alone, and cutting -/

/-- Nothing but the cursor has moved in the text. -/
structure OffOnly (e e' : Editor) : Prop where
  lines : e'.lines = e.lines
  valid : Valid e'

theorem SameText.offOnly {e' : Editor} (h : SameText e e') (hv : Valid e) : OffOnly e e' := ⟨h.lines, h.valid hv⟩

theorem shown_offOnly (hv : Valid e) {e' : Editor} (hl : e'.lines = e.lines) : OffOnly e (ensureVisible h e') := by
  have hne : e'.lines ≠ [] := by
    rw [hl]
    exact List.ne_nil_of_length_pos (Nat.lt_of_le_of_lt (Nat.zero_le _) hv.place.row_lt)
  refine ⟨?_, ensureVisible_valid h (by rw [hl]; exact hv.clean)⟩
  show (if e'.lines = [] then [[]] else e'.lines) = _
  rw [if_neg hne, hl]

theorem lineAt_of_lt {row : Nat} (hrow : row < e.lines.length) : lineAt e row = .ok e.lines[row] := by
  unfold lineAt
  rw [List.getElem?_eq_getElem hrow]

theorem move_spec (hv : Valid e) (dy dx : Int) : ∃ e', move h dy dx e = .ok e' ∧ OffOnly e e' := by
  have hrow := hv.place.row_lt
  unfold move
  by_cases hdy : dy ≠ 0
  · have hlt : (min ((e.lines.length : Int) - 1) (e.cy + dy)).toNat < e.lines.length := by omega
    rw [if_pos hdy]
    simp only [lineAt_of_lt hlt]
    exact ⟨_, rfl, shown_offOnly hv rfl⟩
  · rw [if_neg hdy, lineAt_of_lt hrow]
    exact ⟨_, rfl, shown_offOnly hv rfl⟩

theorem findQuery_spec (hv : Valid e) (query : Text) : ∃ e', findQuery h query e = .ok e' ∧ OffOnly e e' := by
  have hrow : e.cy < { e with lastSearch := query }.lines.length := hv.place.row_lt
  obtain ⟨place, hplace⟩ : ∃ place, findPlace query { e with lastSearch := query } = .ok place := by
    unfold findPlace
    simp only
    split
    · exact ⟨_, rfl⟩
    · rw [lineAt_of_lt hrow]
      exact ⟨_, rfl⟩
  unfold findQuery
  simp only [hplace]
  rcases place with _ | ⟨row, position⟩
  · exact ⟨_, rfl, rfl, hv.clean, hv.place⟩
  · exact ⟨_, rfl, shown_offOnly hv rfl⟩

theorem clean_foldl_eraseIdx {lines : List Text} (hc : Clean lines) (k : Nat) (turns : List Nat) :
    Clean (turns.foldl (fun lines _ => lines.eraseIdx k) lines) := by
  induction turns generalizing lines with
  | nil => exact hc
  | cons _ turns ih =>
    rw [List.foldl_cons]
    exact ih fun l hl => hc l (List.mem_of_mem_eraseIdx hl)

theorem cutLines_clean {e' : Editor} {first last : Nat × Nat} (hc : Clean e.lines)
    (hcut : cutLines e first last = .ok e') : Clean e'.lines := by
  have hline : ∀ {row : Nat} {line : Text}, lineAt e row = .ok line → CleanLine line := by
    intro row line hl
    unfold lineAt at hl
    split at hl
    · rename_i l hget
      obtain rfl : l = line := by simpa using hl
      exact hc l (List.mem_of_getElem? hget)
    · simp at hl
  unfold cutLines at hcut
  rcases h1 : lineAt e first.1 with _ | head
  · simp [h1, bind, Except.bind] at hcut
  rcases h2 : lineAt e last.1 with _ | tail
  · simp [h1, h2, bind, Except.bind] at hcut
  obtain rfl := by simpa [h1, h2, bind, Except.bind, pure, Except.pure] using hcut
  refine clean_foldl_eraseIdx (fun l hl => ?_) _ _
  rcases List.mem_or_eq_of_mem_set hl with hl | rfl
  · exact hc l hl
  · exact cleanLine_append.mpr ⟨(hline h1).sub fun _ => List.mem_of_mem_take, (hline h2).sub fun _ => List.mem_of_mem_drop⟩

theorem copyRange_valid {e' : Editor} {cut : Bool} {first last : Nat × Nat} (hc : Clean e.lines)
    (hcopy : copyRange h cut first last e = .ok e') : Valid e' := by
  unfold copyRange at hcopy
  rcases hch : chunks e first last with _ | parts
  · simp [hch, bind, Except.bind] at hcopy
  simp only [hch, bind, Except.bind] at hcopy
  cases cut with
  | false =>
    obtain rfl := by simpa [pure, Except.pure] using hcopy
    exact ensureVisible_valid h hc
  | true =>
    simp only [if_true] at hcopy
    rcases hcut : cutLines { e with clipboard := [lf].intercalate parts } first last with _ | e₁
    · simp [hcut] at hcopy
    · have hc₁ : Clean e₁.lines := cutLines_clean (e := { e with clipboard := [lf].intercalate parts }) hc hcut
      obtain rfl := by simpa [hcut, pure, Except.pure] using hcopy
      exact ensureVisible_valid h hc₁

theorem copySelection_valid {e' : Editor} {cut : Bool} (hv : Valid e) (hcopy : copySelection h cut e = .ok e') :
    Valid e' := by
  unfold copySelection at hcopy
  split at hcopy
  · obtain rfl : e = e' := by simpa using hcopy
    exact hv
  · split at hcopy
    · exact copyRange_valid hv.clean hcopy
    · exact copyRange_valid hv.clean hcopy

end

end PythonUltra.Pyeditor
