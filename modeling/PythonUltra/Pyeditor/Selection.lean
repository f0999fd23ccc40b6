/-
  PythonUltra.Pyeditor.Selection — what `copy_selection` takes, and that `insert` puts a
  cut back.

  A selection (`Span`) parts the lines into what is before it, the parts it takes of its
  lines, and what is after it. `copy_selection` puts the parts, joined, on the clipboard;
  a cut leaves the lines around the seam. As one flat text that is `P ++ clip ++ Q` and
  `P ++ Q` with the cursor at the seam, so inserting the clipboard gives the text back
  (`insert_spec`), and clean lines are determined by their text (`unlines_inj`).
-/

import PythonUltra.Pyeditor.Keys
import PythonUltra.Pyeditor.Refine

namespace PythonUltra.Pyeditor

open PythonUltra.Lib PythonUltra.Os

/-- The buffer is within the size `insert` allows, a character more than each line has. -/
structure WithinLimits (e : Editor) : Prop where
  bytes : (e.lines.map fun line => line.length + 1).sum ≤ maxEditBytes
  lines : e.lines.length ≤ maxEditLines

theorem unlines_inj {A B : List Text} (hA : A ≠ []) (hB : B ≠ []) (hcA : Clean A) (hcB : Clean B)
    (h : unlines lf A = unlines lf B) : A = B := by
  have hsplit : ∀ {ls : List Text}, ls ≠ [] → Clean ls → (unlines lf ls).splitOn lf = ls := fun hne hc =>
    List.splitOn_intercalate lf (fun l hl => (hc l hl).1) hne
  rw [← hsplit hA hcA, ← hsplit hB hcB, h]

theorem sum_length_succ {ls : List Text} (h : ls ≠ []) :
    (ls.map fun line => line.length + 1).sum = (unlines lf ls).length + 1 := by
  obtain ⟨A, x, rfl⟩ := List.eq_nil_or_concat ls |>.resolve_left h
  rw [List.concat_eq_append, length_unlines_seam, List.map_append, List.sum_append]
  exact (Nat.add_assoc _ _ _).symm

/-- `parts` of the lines are selected from `first` to the cell `last`: they lie between the
lines `A` and the start `x` of a line, and the rest `y` of a line and the lines `B`. -/
structure Span (e : Editor) (first last : Nat × Nat) (A : List Text) (x : Text) (parts : List Text) (y : Text)
    (B : List Text) : Prop where
  row : first.1 = A.length
  col : first.2 = x.length
  text : unlines lf e.lines = unlines lf (A ++ [x]) ++ unlines lf parts ++ unlines lf (y :: B)
  chunks : chunks e first last = .ok parts
  cut : ∀ clip, cutLines { e with clipboard := clip } first last = .ok { e with
    clipboard := clip, lines := A ++ (x ++ y) :: B, cy := first.1, cx := first.2, goalX := first.2, dirty := true }

section

variable {e : Editor}

theorem lineAt_append {A B : List Text} {l : Text} (hl : e.lines = A ++ l :: B) {row : Nat} (hr : row = A.length) :
    lineAt e row = .ok l := by
  unfold lineAt
  rw [hl, hr, List.getElem?_append_right (Nat.le_refl _), Nat.sub_self]
  rfl

/-- What a cut of existing lines leaves. -/
def cutTo (e : Editor) (first : Nat × Nat) (lines : List Text) : Editor :=
  { e with lines := lines, cy := first.1, cx := first.2, goalX := first.2, dirty := true }

theorem cutLines_eq {first last : Nat × Nat} {head tail : Text} (h1 : lineAt e first.1 = .ok head)
    (h2 : lineAt e last.1 = .ok tail) : cutLines e first last = .ok (cutTo e first
      ((List.range (last.1 - first.1)).foldl (fun lines _ => lines.eraseIdx (first.1 + 1))
        (e.lines.set first.1 (head.take first.2 ++ tail.drop (last.2 + 1))))) := by
  unfold cutLines
  rw [h1, h2]
  rfl

/-- A selection within one line. -/
theorem span_one {A B : List Text} {l : Text} (hl : e.lines = A ++ l :: B) {first last : Nat × Nat}
    (hrow : first.1 = A.length) (hrow' : last.1 = A.length) (hcol : first.2 ≤ last.2) (hlen : first.2 ≤ l.length) :
    ∃ x p y, Span e first last A x [p] y B := by
  obtain ⟨r, c⟩ := first
  obtain ⟨r', c'⟩ := last
  obtain rfl : r = A.length := hrow
  obtain rfl : r' = A.length := hrow'
  have hline : lineAt e A.length = .ok l := lineAt_append hl rfl
  have hparts : l = l.take c ++ (slice l c (c' + 1) ++ l.drop (c' + 1)) := by
    have htake : (l.take (c' + 1)).take c = l.take c := by rw [List.take_take, Nat.min_eq_left (by simp only at hcol; omega)]
    unfold slice
    rw [← List.append_assoc, ← htake, List.take_append_drop, List.take_append_drop]
  refine ⟨l.take c, slice l c (c' + 1), l.drop (c' + 1), rfl, (List.length_take_of_le hlen).symm, ?_, ?_, ?_⟩
  · rw [hl]
    conv_lhs => rw [hparts]
    rw [unlines_merge, unlines_head, unlines_singleton, List.append_assoc]
  · unfold chunks
    rw [show A.length + 1 - A.length = 1 by omega, List.range'_one, List.mapM_cons, List.mapM_nil, hline]
    simp [bind, Except.bind, pure, Except.pure]
  · have hset : e.lines.set A.length (l.take c ++ l.drop (c' + 1)) = A ++ (l.take c ++ l.drop (c' + 1)) :: B := by
      rw [hl, List.set_append_right _ _ (Nat.le_refl _), Nat.sub_self]
      rfl
    intro clip
    rw [@cutLines_eq { e with clipboard := clip } (A.length, c) (A.length, c') _ _ hline hline]
    simp only [Nat.sub_self, List.range_zero, List.foldl_nil, hset, cutTo]

theorem foldl_eraseIdx (A : List Text) (l : Text) (M B : List Text) (turns : List Nat) (h : turns.length = M.length) :
    turns.foldl (fun lines _ => lines.eraseIdx (A.length + 1)) (A ++ l :: (M ++ B)) = A ++ l :: B := by
  induction M generalizing turns with
  | nil =>
    obtain rfl : turns = [] := List.length_eq_zero_iff.mp h
    rfl
  | cons m M ih =>
    obtain ⟨t, turns, rfl⟩ := List.exists_cons_of_length_eq_add_one h
    rw [List.foldl_cons, List.eraseIdx_append_of_length_le (by omega), Nat.add_sub_cancel_left]
    exact ih turns (Nat.add_right_cancel h)

theorem mapM_rows {f : Nat → Except Exc Text} {M : List Text} {row : Nat}
    (hf : ∀ (i : Nat) (m : Text), M[i]? = some m → f (row + i) = .ok m) : (List.range' row M.length).mapM f = .ok M := by
  induction M generalizing row with
  | nil => rfl
  | cons m M ih =>
    have hhead : f row = .ok m := hf 0 m rfl
    have htail := @ih (row + 1) fun i m' hm => by
      rw [Nat.add_assoc, Nat.add_comm 1 i]
      exact hf (i + 1) m' (by simpa using hm)
    rw [List.length_cons, List.range'_succ, List.mapM_cons, hhead, htail]
    rfl

/-- A selection over several lines. -/
theorem span_more {A M B : List Text} {l l' : Text} (hl : e.lines = A ++ l :: (M ++ l' :: B)) {first last : Nat × Nat}
    (hrow : first.1 = A.length) (hrow' : last.1 = A.length + M.length + 1) (hlen : first.2 ≤ l.length) :
    ∃ x p q y, Span e first last A x (p :: (M ++ [q])) y B := by
  obtain ⟨r, c⟩ := first
  obtain ⟨r', c'⟩ := last
  obtain rfl : r = A.length := hrow
  obtain rfl : r' = A.length + M.length + 1 := hrow'
  have hfirst : lineAt e A.length = .ok l := lineAt_append hl rfl
  have hlast : lineAt e (A.length + M.length + 1) = .ok l' :=
    lineAt_append (A := A ++ l :: M) (B := B) (by rw [hl]; simp) (by simp; omega)
  have hmid : ∀ (i : Nat) (m : Text), M[i]? = some m → lineAt e (A.length + 1 + i) = .ok m := by
    intro i m hm
    obtain ⟨hi, rfl⟩ := List.getElem?_eq_some_iff.mp hm
    have hM : M = M.take i ++ M[i] :: M.drop (i + 1) := by rw [← List.drop_eq_getElem_cons hi, List.take_append_drop]
    refine lineAt_append (A := A ++ l :: M.take i) (B := M.drop (i + 1) ++ l' :: B) ?_ ?_
    · calc e.lines = A ++ l :: (M ++ l' :: B) := hl
        _ = A ++ l :: ((M.take i ++ M[i] :: M.drop (i + 1)) ++ l' :: B) := by rw [← hM]
        _ = (A ++ l :: M.take i) ++ M[i] :: (M.drop (i + 1) ++ l' :: B) := by
          simp only [List.append_assoc, List.cons_append]
    · rw [List.length_append, List.length_cons, List.length_take_of_le (Nat.le_of_lt hi)]
      omega
  refine ⟨l.take c, l.drop c, l'.take (c' + 1), l'.drop (c' + 1), rfl, (List.length_take_of_le hlen).symm, ?_, ?_, ?_⟩
  · have hjoin := @unlines_merge _ lf (A ++ l :: M) (l'.take (c' + 1)) (l'.drop (c' + 1)) B
    have hstart := @unlines_merge _ lf A (l.take c) (l.drop c) (M ++ [l'.take (c' + 1)])
    rw [List.take_append_drop] at hjoin hstart
    rw [hl, ← hstart]
    simpa using hjoin
  · unfold chunks
    rw [show A.length + M.length + 1 + 1 - A.length = (M.length + 1) + 1 by omega, List.range'_succ,
      List.range'_1_concat, List.mapM_cons, List.mapM_append]
    have hrows := @mapM_rows
      (fun row => do
        let line ← lineAt e row
        let left := if row = A.length then c else 0
        let right := if row = A.length + M.length + 1 then c' + 1 else line.length
        return slice line left right) M (A.length + 1) fun i m hm => by
          have hi := (List.getElem?_eq_some_iff.mp hm).1
          simp only [hmid i m hm, bind, Except.bind, pure, Except.pure]
          rw [if_neg (by omega), if_neg (by omega), slice, List.take_length, List.drop_zero]
    rw [hrows]
    have hend : A.length + 1 + M.length = A.length + M.length + 1 := by omega
    have hne : A.length ≠ A.length + M.length + 1 := by omega
    simp [hfirst, hlast, hend, hne, hne.symm, bind, Except.bind, pure, Except.pure, slice]
  · have hset : e.lines.set A.length (l.take c ++ l'.drop (c' + 1)) =
        A ++ (l.take c ++ l'.drop (c' + 1)) :: (M ++ [l'] ++ B) := by
      rw [hl, List.set_append_right _ _ (Nat.le_refl _), Nat.sub_self]
      simp
    have herase := foldl_eraseIdx A (l.take c ++ l'.drop (c' + 1)) (M ++ [l']) B
      (List.range (A.length + M.length + 1 - A.length)) (by simp; omega)
    rw [← hset] at herase
    intro clip
    rw [@cutLines_eq { e with clipboard := clip } (A.length, c) (A.length + M.length + 1, c') _ _ hfirst hlast]
    simp only [herase, cutTo]

/-- Every selection in the text is a span. -/
theorem exists_span {first last : Nat × Nat} (hfirst : Place e.lines first.1 first.2)
    (hlast : Place e.lines last.1 last.2) (hle : ¬ after first last) :
    ∃ A x parts y B, Span e first last A x parts y B := by
  obtain ⟨l, hget, hcol⟩ := hfirst
  obtain ⟨l', hget', -⟩ := hlast
  obtain ⟨hr, rfl⟩ := List.getElem?_eq_some_iff.mp hget
  obtain ⟨hr', rfl⟩ := List.getElem?_eq_some_iff.mp hget'
  have hlen : (e.lines.take first.1).length = first.1 := List.length_take_of_le (Nat.le_of_lt hr)
  have hsplit : e.lines = e.lines.take first.1 ++ e.lines[first.1] :: e.lines.drop (first.1 + 1) := by
    rw [← List.drop_eq_getElem_cons hr, List.take_append_drop]
  unfold after at hle
  by_cases hrow : first.1 = last.1
  · obtain ⟨x, p, y, hs⟩ := @span_one _ _ _ _ hsplit _ last hlen.symm (by rw [hlen, hrow]) (by omega) hcol
    exact ⟨_, x, [p], y, _, hs⟩
  · have hlt : last.1 - (first.1 + 1) < (e.lines.drop (first.1 + 1)).length := by rw [List.length_drop]; omega
    have hrest : e.lines.drop (first.1 + 1) = (e.lines.drop (first.1 + 1)).take (last.1 - (first.1 + 1)) ++
        (e.lines.drop (first.1 + 1))[last.1 - (first.1 + 1)] :: (e.lines.drop (first.1 + 1)).drop (last.1 - (first.1 + 1) + 1) := by
      rw [← List.drop_eq_getElem_cons hlt, List.take_append_drop]
    rw [hrest] at hsplit
    obtain ⟨x, p, q, y, hs⟩ := @span_more _ _ _ _ _ _ hsplit _ last hlen.symm
      (by rw [hlen, List.length_take_of_le (Nat.le_of_lt hlt)]; omega) hcol
    exact ⟨_, x, _, y, _, hs⟩

end

/-! ## Cutting and putting back -/

section

variable {h : Host} {e : Editor} {first last : Nat × Nat} {A B : List Text} {x y : Text} {parts : List Text}

theorem Span.clean_cut (hs : Span e first last A x parts y B) (hc : Clean e.lines) : Clean (A ++ (x ++ y) :: B) :=
  cutLines_clean hc (hs.cut e.clipboard)

theorem Span.cr_not_mem (hs : Span e first last A x parts y B) (hc : Clean e.lines) : cr ∉ unlines lf parts := by
  have hno : cr ∉ unlines lf e.lines := mem_unlines (by decide) fun l hl => (hc l hl).2
  rw [hs.text] at hno
  exact fun hm => hno (List.mem_append_left _ (List.mem_append_right _ hm))

/-- A cut leaves the text around the seam; a copy leaves the text; the clipboard is the same. -/
theorem Span.copyRange (hs : Span e first last A x parts y B) (hv : Valid e) :
    (∃ cut, copyRange h true first last e = .ok cut ∧ cut.lines = A ++ (x ++ y) :: B ∧ cut.cy = A.length ∧
      cut.cx = x.length ∧ cut.clipboard = unlines lf parts) ∧
    ∃ copied, copyRange h false first last e = .ok copied ∧ copied.lines = e.lines ∧
      copied.clipboard = unlines lf parts := by
  constructor
  · have hsame := ensureVisible_same h (e := { e with
        clipboard := [lf].intercalate parts, lines := A ++ (x ++ y) :: B, cy := first.1, cx := first.2,
        goalX := first.2, dirty := true, mode := .normal, selStart := none, msg := .text "Cut" })
      (by show Place (A ++ (x ++ y) :: B) first.1 first.2; rw [hs.row, hs.col]; exact place_seam A x y B)
    refine ⟨_, ?_, hsame.lines, hsame.cy.trans hs.row, hsame.cx.trans hs.col, rfl⟩
    unfold Pyeditor.copyRange
    simp only [hs.chunks, bind, Except.bind, if_true, hs.cut]
    rfl
  · have hoff := @shown_offOnly h _ hv { e with
        clipboard := [lf].intercalate parts, mode := .normal, selStart := none, msg := .text "Copied" } rfl
    refine ⟨_, ?_, hoff.lines, rfl⟩
    unfold Pyeditor.copyRange
    simp only [hs.chunks, bind, Except.bind]
    rfl

/-- The cut text fits where it was. -/
theorem Span.not_refused (hs : Span e first last A x parts y B) (hv : Valid e)
    (hw : WithinLimits e) {cut : Editor} (hcut : cut.lines = A ++ (x ++ y) :: B) :
    ¬ sizeRefused cut (unlines lf parts) := by
  have hne : e.lines ≠ [] := List.ne_nil_of_length_pos (Nat.lt_of_le_of_lt (Nat.zero_le _) hv.place.row_lt)
  have hcc := hs.clean_cut hv.clean
  have hseam := @unlines_merge _ lf A x y B
  have hbytes := hw.bytes
  have hlines := hw.lines
  rw [sum_length_succ hne, hs.text] at hbytes
  rw [← count_unlines hne fun l hl => (hv.clean l hl).1, hs.text] at hlines
  unfold sizeRefused
  rw [hcut, sum_length_succ (by simp), ← @count_unlines _ lf _ (A ++ (x ++ y) :: B) (by simp)
    fun l hl => (hcc l hl).1, hseam]
  simp only [List.length_append, List.count_append] at hbytes hlines ⊢
  omega

/-- Inserting the clipboard after a cut gives the lines back. -/
theorem Span.insert_back (hs : Span e first last A x parts y B) (hv : Valid e) (hw : WithinLimits e)
    {cut : Editor} (hl : cut.lines = A ++ (x ++ y) :: B) (hcy : cut.cy = A.length) (hcx : cut.cx = x.length) :
    ∃ e', insert h (unlines lf parts) cut = .ok e' ∧ e'.lines = e.lines := by
  have hat : At cut A x y B := ⟨hl, hcy, hcx⟩
  have hvc : Valid cut := ⟨by rw [hl]; exact hs.clean_cut hv.clean, hat.place⟩
  have hnorm : normalize (unlines lf parts) = unlines lf parts := normalize_of_not_mem (hs.cr_not_mem hv.clean)
  obtain ⟨e', hv', hins, hflat⟩ := insert_spec (h := h) hvc (unlines lf parts)
  refine ⟨e', hins, ?_⟩
  rw [hnorm, if_neg fun hn => hs.not_refused hv hw hl hn.2, hat.flat_eq hvc, Flat.insert_seam] at hflat
  have htext : unlines lf e'.lines = unlines lf e.lines := by
    have := congrArg Flat.text hflat
    rw [Flat.seam_text] at this
    exact this.trans hs.text.symm
  have hne : ∀ {e₁ : Editor}, Valid e₁ → e₁.lines ≠ [] := fun hv₁ =>
    List.ne_nil_of_length_pos (Nat.lt_of_le_of_lt (Nat.zero_le _) hv₁.place.row_lt)
  exact unlines_inj (hne hv') (hne hv) hv'.clean hv.clean htext

end

/-- Whatever is selected, in either order: a cut followed by an insertion of the clipboard
restores the lines, and a copy leaves them and fills the clipboard the same way. -/
theorem cut_insert_restores (h : Host) {e : Editor} (hv : Valid e) (hw : WithinLimits e) {start : Nat × Nat}
    (hsel : e.selStart = some start) (hstart : Place e.lines start.1 start.2) :
    ∃ cut e' copied, copySelection h true e = .ok cut ∧ insert h cut.clipboard cut = .ok e' ∧ e'.lines = e.lines ∧
      copySelection h false e = .ok copied ∧ copied.lines = e.lines ∧ copied.clipboard = cut.clipboard := by
  obtain ⟨first, last, hfirst, hlast, hle, hcopy⟩ : ∃ first last, Place e.lines first.1 first.2 ∧
      Place e.lines last.1 last.2 ∧ ¬ after first last ∧ ∀ cut, copySelection h cut e = copyRange h cut first last e := by
    by_cases hord : after start (e.cy, e.cx)
    · refine ⟨(e.cy, e.cx), start, hv.place, hstart, ?_, fun cut => by rw [copySelection, hsel]; exact if_pos hord⟩
      unfold after at hord ⊢
      simp only at hord ⊢
      omega
    · exact ⟨start, (e.cy, e.cx), hstart, hv.place, hord, fun cut => by rw [copySelection, hsel]; exact if_neg hord⟩
  obtain ⟨A, x, parts, y, B, hs⟩ := exists_span hfirst hlast hle
  obtain ⟨⟨cut, hcut, hl, hcy, hcx, hclip⟩, copied, hcopied, hl', hclip'⟩ := hs.copyRange (h := h) hv
  obtain ⟨e', hins, hback⟩ := hs.insert_back (h := h) hv hw hl hcy hcx
  exact ⟨cut, e', copied, by rw [hcopy, hcut], by rw [hclip, hins], hback, by rw [hcopy, hcopied], hl',
    hclip'.trans hclip.symm⟩

/-- The second letter of a line, an empty line and what is past it, selected backwards. -/
def threeLines : Editor :=
  { blank [] .githubDark with
    lines := [lit "ab", [], lit "c"], cy := 0, cx := 1, mode := .visual, selStart := some (2, 1) }

theorem cut_insert_restores_threeLines :
    ∃ cut e' copied, copySelection idleHost true threeLines = .ok cut ∧ insert idleHost cut.clipboard cut = .ok e' ∧
      e'.lines = threeLines.lines ∧ copySelection idleHost false threeLines = .ok copied ∧
      copied.lines = threeLines.lines ∧ copied.clipboard = cut.clipboard :=
  cut_insert_restores idleHost
    ⟨by unfold Clean CleanLine; decide, lit "ab", rfl, by decide⟩ ⟨by decide, by decide⟩ rfl ⟨lit "c", rfl, by decide⟩

end PythonUltra.Pyeditor
