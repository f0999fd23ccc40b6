/-
  PythonUltra.Terminal.Views — the lazy layout of console_compute_view against the full
  one.

  A view lays out every held line, or, when the width is the last view's, only the lines
  past `absolute_rendered`. That is right as long as the lines up to there have their
  rows for the font and width of the view at hand (`Laid`). The width is compared, the
  font is not: a view at the last width with another font leaves old rows in place
  (`font_change_leaves_old_rows`). `ViewOk` is what a step must meet for the lazy layout
  to be the full one.
-/

import PythonUltra.Terminal.Invariant

namespace PythonUltra.Terminal

open PythonUltra.Lib PythonUltra.Lib.CMem PythonUltra.Lib.Machine

variable (d : Drsize)

/-- The line's stored rows are those of its text for `font` and `width`. -/
def RowsOf (font : Font) (width : Int) (FL : Fline) : Prop :=
  FL.renderLines = u8 (flineRows d font (viewParams width) FL.data)

instance (font : Font) (width : Int) (FL : Fline) : Decidable (RowsOf d font width FL) :=
  inferInstanceAs (Decidable (_ = _))

/-- A view whose width the 16-bit field keeps and that, taken lazily, has the last view's
    font; a new line with an `int` left to number it. -/
def ViewOk (cons : Console) : Act → Prop
  | .newline => cons.lines.absolute + cons.lines.size < 2147483647
  | .computeView font width _ => i16 width = width ∧ (isLazy cons width = true → font = cons.renderFont)
  | _ => True

instance (cons : Console) : (a : Act) → Decidable (ViewOk cons a)
  | .newline => inferInstanceAs (Decidable (_ < _))
  | .computeView _ _ _ => inferInstanceAs (Decidable (_ ∧ _))
  | .insert _ | .backspace | .eraseToEnd | .cursorLeft | .cursorRight | .touch | .setCursor _ | .deleteAtCursor _
  | .clearCurrentLine | .lockPrefix => isTrue trivial

/-- What the views so far leave: the lines numbered up to `absolute_rendered` are frozen
    and have their rows for the last view's font and width. -/
structure Laid (cons : Console) (doc : Doc) : Prop extends Wf cons doc where
  numbers : NumbersFit doc
  renderedLe : cons.lines.absoluteRendered ≤ doc.dropped + doc.frozen.length
  rows : ∀ (i : Nat) FL, doc.held[i]? = some FL → (doc.dropped + i + 1 : Nat) ≤ cons.lines.absoluteRendered →
    RowsOf d cons.renderFont cons.renderWidth FL

section

variable {d} {cons : Console} {doc : Doc}

/-- Laying out a line that has its rows changes nothing. -/
theorem updateRenderLine_id {buf : Linebuf} (h : Rep buf doc) {font : Font} {width abs : Int} {j : Nat} {FL : Fline}
    (hj : (j : Int) = abs - buf.absolute) (hFL : doc.held[j]? = some FL) (hr : RowsOf d font width FL) :
    updateRenderLine d font (viewParams width) buf abs = buf := by
  have hsame : consoleFlineUpdateRenderLines d font FL (viewParams width) = FL := by
    unfold consoleFlineUpdateRenderLines; rw [← hr]
  have htot : i16 (i16 (buf.totalRendered - FL.renderLines) + FL.renderLines) = buf.totalRendered := by
    rw [i16_add, h.rendered, Int.sub_add_cancel]
    have := i16_range ((((doc.frozen.map Fline.renderLines).sum + doc.last.renderLines : Nat)) : Int)
    exact i16_of_range this.1 this.2
  have hput : buf.putNthLine j FL = buf := by
    have hlen := doc.held_length
    have hlt := (List.getElem?_eq_some_iff.mp hFL).1
    have hsz := h.size
    unfold Linebuf.putNthLine
    rcases Nat.lt_or_ge j doc.frozen.length with hl | hg
    · rw [Doc.held, List.getElem?_append_left hl] at hFL
      have hat := h.slots j FL hFL
      have hin : (doc.dropped + j) % buf.capacity.toNat < buf.lines.length :=
        Nat.lt_of_lt_of_le (Nat.mod_lt _ (by have := h.capPos; omega)) h.room
      rw [if_neg (by omega), h.nthToIndex, Int.toNat_natCast, ← hat, Linebuf.at, List.getElem?_eq_getElem hin]
      simp
    · obtain rfl : j = doc.frozen.length := by omega
      have := h.getNth hFL
      rw [h.getNth_last, Option.some.injEq] at this
      rw [if_pos (by omega), ← this, ← h.edit.raw]
  unfold updateRenderLine
  rw [← hj, h.getNth hFL]
  simp only [hsame, htot, hput]

theorem layout_id {buf : Linebuf} (h : Rep buf doc) (font : Font) (width : Int) {m : Nat} (hm : m ≤ doc.held.length)
    (hr : ∀ (i : Nat) FL, i < m → doc.held[i]? = some FL → RowsOf d font width FL) :
    (List.range m).foldl (fun b (i : Nat) => updateRenderLine d font (viewParams width) b (buf.absolute + i)) buf =
      buf := by
  induction m with
  | zero => rfl
  | succ m ih =>
    rw [List.range_succ, List.foldl_append, ih (by omega) (fun i FL hi => hr i FL (by omega))]
    have hFL : doc.held[m]? = some (doc.held.get ⟨m, by omega⟩) := List.getElem?_eq_getElem (by omega)
    exact updateRenderLine_id h (by omega) hFL (hr m _ (by omega) hFL)

/-- The lazy layout is the full one when the lines it skips have their rows. -/
theorem updateRender_lazy_eq {buf : Linebuf} (h : Rep buf doc) (hn : NumbersFit doc)
    (hle : buf.absoluteRendered ≤ doc.dropped + doc.frozen.length) {font : Font} {width : Int}
    (hr : ∀ (i : Nat) FL, doc.held[i]? = some FL → (doc.dropped + i + 1 : Nat) ≤ buf.absoluteRendered →
      RowsOf d font width FL) :
    linebufUpdateRender d font buf width true = linebufUpdateRender d font buf width false := by
  have hab := h.absolute_eq hn
  have hend := h.end_eq hn
  have hlen := doc.held_length
  -- the number of lines skipped
  obtain ⟨m, hm⟩ : ∃ m : Nat, max (linebufStart buf) (buf.absoluteRendered + 1) = buf.absolute + m :=
    ⟨(max (linebufStart buf) (buf.absoluteRendered + 1) - buf.absolute).toNat, by unfold linebufStart; omega⟩
  have hskip := layout_id (m := m) h font width (by unfold linebufStart at hm; omega)
    (fun i FL hi hFL => hr i FL hFL (by unfold linebufStart at hm; omega))
  have hcount : (linebufEnd buf - linebufStart buf).toNat = m + (linebufEnd buf - (buf.absolute + m)).toNat := by
    unfold linebufStart at *; omega
  have hfold : (List.range (linebufEnd buf - linebufStart buf).toNat).foldl
        (fun b (i : Nat) => updateRenderLine d font (viewParams width) b (linebufStart buf + i)) buf =
      (List.range (linebufEnd buf - (buf.absolute + m)).toNat).foldl
        (fun b (i : Nat) => updateRenderLine d font (viewParams width) b (buf.absolute + m + i)) buf := by
    rw [hcount, List.range_add, List.foldl_append, List.foldl_map]
    unfold linebufStart
    rw [hskip]
    simp [Int.add_assoc]
  unfold linebufUpdateRender
  simp [hm, hfold]

theorem computeView_eq_full (h : Laid d cons doc) {font : Font} {width lines : Int}
    (hok : ViewOk cons (.computeView font width lines)) :
    (consoleComputeView d cons font width lines).lines = linebufUpdateRender d font cons.lines width false := by
  show linebufUpdateRender d font cons.lines width (isLazy cons width) = _
  cases hl : isLazy cons width with
  | false => rfl
  | true =>
    have hw : cons.renderWidth = width := (of_decide_eq_true hl).2
    have hf := hok.2 hl
    refine updateRender_lazy_eq h.rep h.numbers h.renderedLe fun i FL hFL hi => ?_
    have := h.rows i FL hFL hi
    rwa [hw, ← hf] at this

/-! ## Every view of every run -/

/-- A view gives every held line its rows. -/
theorem Laid.view {font : Font} {width lines : Int} (h : Laid d cons doc)
    (hok : ViewOk cons (.computeView font width lines)) :
    ∃ doc', Laid d (consoleComputeView d cons font width lines) doc' ∧ ∀ FL ∈ doc'.held, RowsOf d font width FL := by
  obtain ⟨doc', hw, hv, -, har⟩ := computeView_step d h.toWf font width lines
  have hab := h.rep.absolute_eq h.numbers
  have hend := h.rep.end_eq h.numbers
  have hfl := hv.frozen_length
  have hall : ∀ (i : Nat) FL, doc'.held[i]? = some FL → RowsOf d font width FL := by
    intro i FL' hi
    rw [hv.held] at hi
    split at hi
    · obtain ⟨FL, -, rfl⟩ := Option.map_eq_some_iff.mp hi
      rfl
    · -- a line the view skipped: it was laid out with the same font and width
      rename_i hskip
      have hlt := (List.getElem?_eq_some_iff.mp hi).1
      have := doc.held_length
      cases hl : isLazy cons width with
      | false =>
        rw [hl] at hskip
        simp only [renderStart, Bool.false_eq_true, if_false, linebufStart] at hskip
        omega
      | true =>
        rw [hl] at hskip
        simp only [renderStart, if_true, linebufStart] at hskip
        have hwd : cons.renderWidth = width := (of_decide_eq_true hl).2
        have := h.rows i FL' hi (by omega)
        rwa [hwd, ← hok.2 hl] at this
  have hnum : NumbersFit doc' := by
    have := h.numbers
    unfold NumbersFit at *; rw [hv.dropped, hfl]; exact this
  refine ⟨doc', ⟨hw, hnum, ?_, fun i FL hi _ => ?_⟩, fun FL hFL => ?_⟩
  · have := h.renderedLe
    rw [har, hv.dropped, hfl]; omega
  · show RowsOf d font (i16 width) FL
    rw [hok.1]; exact hall i FL hi
  · obtain ⟨i, hi⟩ := List.getElem?_of_mem hFL
    exact hall i FL hi

theorem Laid.step (h : Laid d cons doc) {a : Act} (hok : ViewOk cons a) : ∃ doc', Laid d (act d cons a) doc' := by
  rcases act_cases d h.toWf a with ⟨t, r, he⟩ | ⟨rfl, doc', F, k, hw, hnl, hf⟩ | ⟨font, width, lines, -, rfl, -⟩
  · have hle := h.renderedLe
    refine ⟨_, ⟨he.wf, h.numbers, ?_, fun i FL hi hir => ?_⟩⟩
    · rw [he.frame.absoluteRendered]; exact hle
    · -- only the last line changed, and it is past those laid out
      rw [he.frame.absoluteRendered] at hir
      rw [he.renderFont, he.renderWidth]
      have hlt : i < doc.frozen.length := by simp only at hir; omega
      refine h.rows i FL ?_ hir
      rw [Doc.held, List.getElem?_append_left hlt] at hi ⊢
      exact hi
  · have hle := h.renderedLe
    have hc := hnl.count
    have hd := hnl.dropped
    refine ⟨doc', ⟨hw, ?_, ?_, fun i FL hi hir => ?_⟩⟩
    · have hab := h.rep.absolute_eq h.numbers
      have hsz := h.rep.size
      simp only [ViewOk] at hok
      unfold NumbersFit; omega
    · rw [hf.absoluteRendered]; omega
    · rw [hf.absoluteRendered] at hir
      have hlt : i < doc'.frozen.length := by omega
      rw [Doc.held, List.getElem?_append_left hlt, hnl.frozen, List.getElem?_drop] at hi
      rw [List.getElem?_append_left (by omega)] at hi
      refine h.rows (overflow cons.lines + k + i) FL ?_ (by omega)
      rw [Doc.held, List.getElem?_append_left (by omega)]; exact hi
  · obtain ⟨doc', h', -⟩ := h.view hok
    exact ⟨doc', h'⟩

theorem create_laid {backlog count : Int} (hc : 0 < i16 (max count 1)) {cons : Console}
    (h : consoleCreate backlog count = some cons) : ∃ doc, Laid d cons doc := by
  obtain ⟨cons0, hcr, hwf, -, -, har⟩ := create_wf backlog count hc
  obtain rfl : cons0 = cons := Option.some.inj (hcr.symm.trans h)
  exact ⟨_, ⟨hwf, by simp [NumbersFit], by rw [har]; simp, fun i FL _ hir => by rw [har] at hir; omega⟩⟩

end

/-- From a creation whose line count the capacity can hold, in every run whose steps meet
    `ViewOk`, every view leaves the buffer the full layout would, and each held line with
    the rows of its text for the view's font and width. -/
theorem view_eq_full_layout (backlog count : Int) (hc : 0 < i16 (max count 1)) {cons : Console}
    (h : consoleCreate backlog count = some cons) (ops : List Op)
    (hok : Along (act d) ViewOk cons (runActs d cons ops)) (as bs : List Act) (font : Font) (width lines : Int)
    (hab : runActs d cons ops = as ++ .computeView font width lines :: bs) :
    (consoleComputeView d (run (act d) cons as) font width lines).lines =
        linebufUpdateRender d font (run (act d) cons as).lines width false ∧
      ∀ FL ∈ heldLines (consoleComputeView d (run (act d) cons as) font width lines).lines,
        FL.renderLines = u8 (flineRows d font (viewParams width) FL.data) := by
  rw [hab] at hok
  obtain ⟨h1, h2, -⟩ := along_append.mp hok
  obtain ⟨doc, hl⟩ := h1.inv (P := fun c => ∃ doc, Laid d c doc) (fun _ _ ⟨_, hl⟩ ha => hl.step ha)
    (create_laid hc h)
  refine ⟨computeView_eq_full hl h2, ?_⟩
  obtain ⟨doc', hl', hrows⟩ := hl.view h2
  rw [hl'.rep.heldLines_eq]
  exact hrows

/-- A line typed, viewed, ended, and viewed again at the same width and font. -/
theorem view_eq_full_layout_twice :
    ∃ cons, consoleCreate 8192 200 = some cons ∧
      ∀ FL ∈ heldLines (consoleComputeView oneByteRows (run (act oneByteRows) cons
          (.insert [97, 98] :: .computeView 1 100 4 :: [.newline])) 1 100 4).lines,
        FL.renderLines = u8 (flineRows oneByteRows 1 (viewParams 100) FL.data) := by
  refine ⟨_, rfl, (view_eq_full_layout oneByteRows 8192 200 (by decide) rfl
    [.writeRaw [97, 98], .computeView 1 100 4, .newline, .computeView 1 100 4] ?_
    (.insert [97, 98] :: .computeView 1 100 4 :: [.newline]) [] 1 100 4 ?_).2⟩
  · decide
  · decide

/-- Fonts that fit one byte more a row, each than the last. -/
def wideningFonts : Drsize := ⟨fun font _ _ => font + 1, fun _ _ _ _ => Nat.succ_pos _⟩

/-- Four rows of one byte stay four rows in a font that fits the line on one. -/
theorem font_change_leaves_old_rows :
    ∃ cons, consoleCreate 8192 200 = some cons ∧
      ¬ ∀ FL ∈ heldLines (run (exec wideningFonts) cons
          [.writeRaw [97, 97, 97, 97], .newline, .computeView 0 100 4, .computeView 3 100 4]).lines,
        FL.renderLines = u8 (flineRows wideningFonts 3 (viewParams 100) FL.data) := by
  refine ⟨_, rfl, ?_⟩
  decide

end PythonUltra.Terminal
