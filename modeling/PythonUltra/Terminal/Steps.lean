/-
  PythonUltra.Terminal.Steps — what each primitive action of the console does to the
  text it stands for.

  `Wf cons doc`: the line buffer stands for `doc` and the cursor is a position of the
  last line. An action either edits the last line (`Edited`), starts a new one
  (`newline_step`) or lays lines out (`computeView_step`); `act_wf` puts the cases
  together, and `create_wf` starts every run: a console whose line count the 16-bit
  capacity can hold is well formed from its creation on.
-/

import PythonUltra.Terminal.Console
import PythonUltra.Terminal.Rep

namespace PythonUltra.Terminal

open PythonUltra.Lib PythonUltra.Lib.CMem PythonUltra.Lib.Machine

structure Wf (cons : Console) (doc : Doc) : Prop where
  rep : Rep cons.lines doc
  cursorNonneg : 0 ≤ cons.cursor
  cursorLe : cons.cursor ≤ doc.text.length

/-- `cons'` is `cons` with the text of its last line replaced by `t`. -/
structure Edited (cons : Console) (doc : Doc) (cons' : Console) (t : List UInt8) (r : Fline) : Prop where
  wf : Wf cons' { doc with last := r, text := t }
  ptr : r.ptr = doc.last.ptr
  renderLines : r.renderLines = doc.last.renderLines
  lines : ∃ ed, cons'.lines = { cons.lines with edit := ed }
  renderFont : cons'.renderFont = cons.renderFont
  renderWidth : cons'.renderWidth = cons.renderWidth

section Edits

variable {cons : Console} {doc : Doc}

theorem Wf.lastLine (h : Wf cons doc) : lastLine cons = some cons.lines.edit := h.rep.getLastLine

theorem Wf.textLe (h : Wf cons doc) : doc.text.length ≤ 1024 := h.rep.edit.sizeLe

theorem Wf.prefixLe (h : Wf cons doc) : cons.lines.edit.prefixLen ≤ doc.text.length :=
  h.rep.edit.size ▸ h.rep.edit.prefixLe

theorem Wf.cursor_cast (h : Wf cons doc) : ∃ q : Nat, cons.cursor = q ∧ q ≤ doc.text.length :=
  ⟨cons.cursor.toNat, by have := h.cursorNonneg; omega, by have := h.cursorLe; omega⟩

/-- The editor replaced by one that holds `t` in the same block. -/
theorem Wf.edited (h : Wf cons doc) {ed : Stredit} {r : Fline} {t : List UInt8} {c : Int} {b : Bool}
    (he : Edits ed r t) (hp : r.ptr = doc.last.ptr) (hr : r.renderLines = doc.last.renderLines) (h0 : 0 ≤ c)
    (hc : c ≤ t.length) : Edited cons doc { cons.withEdit ed with cursor := c, renderNeeded := b } t r :=
  ⟨⟨h.rep.withEdit he hp hr, h0, hc⟩, hp, hr, ⟨ed, rfl⟩, rfl, rfl⟩

theorem Wf.moved (h : Wf cons doc) {c : Int} {b : Bool} (h0 : 0 ≤ c) (hc : c ≤ doc.text.length) :
    Edited cons doc { cons with cursor := c, renderNeeded := b } doc.text doc.last :=
  ⟨⟨h.rep, h0, hc⟩, rfl, rfl, ⟨cons.lines.edit, rfl⟩, rfl, rfl⟩

theorem insert_spec (h : Wf cons doc) {s : List UInt8} (hs : doc.text.length + s.length ≤ lineMaxLength) :
    (insertRound cons s).1 = true ∧
      (∃ r, Edited cons doc (insertRound cons s).2
        (doc.text.take cons.cursor.toNat ++ s ++ doc.text.drop cons.cursor.toNat) r) ∧
      (insertRound cons s).2.cursor = cons.cursor + s.length ∧
      (insertRound cons s).2.lines.edit.prefixLen = cons.lines.edit.prefixLen := by
  obtain ⟨q, hq, hqt⟩ := h.cursor_cast
  obtain ⟨d, hok, he, hp⟩ := h.rep.edit.insert hqt hs
  have hcur : i16 ((q : Int) + s.length) = q + s.length :=
    i16_of_range (by omega) (by simp only [lineMaxLength] at hs; omega)
  have heq : insertRound cons s = (true, { cons.withEdit (streditInsert cons.lines.edit q s).2 with
      cursor := (q : Int) + s.length, renderNeeded := true }) := by
    simp [insertRound, h.lastLine, hq, hok, hcur]
  rw [heq, hq, Int.toNat_natCast]
  refine ⟨rfl, ⟨_, h.edited he rfl rfl (by omega) ?_⟩, rfl, hp⟩
  simp only [List.length_append, List.length_take, List.length_drop]; omega

theorem insert_full (h : Wf cons doc) {s : List UInt8} (hs : lineMaxLength < doc.text.length + s.length) :
    insertRound cons s = (false, cons) := by
  have hsz := h.rep.edit.size
  have hm := h.rep.edit.maxSize
  have : streditInsert cons.lines.edit cons.cursor s = (false, cons.lines.edit) := by
    unfold streditInsert; rw [if_pos (by omega)]
  simp [insertRound, h.lastLine, this]

theorem drop_self_append (t : List UInt8) (a : Nat) : t.take a ++ t.drop (a + 0) = t := by simp

theorem backspace_spec (h : Wf cons doc) (hc : 0 < cons.cursor) :
    (∃ r, Edited cons doc (backspace cons)
      (if (cons.lines.edit.prefixLen : Int) < cons.cursor
        then doc.text.take (cons.cursor.toNat - 1) ++ doc.text.drop cons.cursor.toNat else doc.text) r) ∧
      (backspace cons).cursor = cons.cursor - 1 ∧
      (backspace cons).lines.edit.prefixLen = cons.lines.edit.prefixLen := by
  obtain ⟨q, hq, hqt⟩ := h.cursor_cast
  have hpl := h.prefixLe
  have htl := h.textLe
  obtain ⟨d, a, k, he, -, hp, hpa, hak, ha, hk⟩ := h.rep.edit.delete (cons.cursor - 1) 1
  have hcur : i16 (cons.cursor - 1) = cons.cursor - 1 := i16_of_range (by omega) (by omega)
  have heq : backspace cons = { cons.withEdit (streditDelete cons.lines.edit (cons.cursor - 1) 1).2 with
      cursor := cons.cursor - 1, renderNeeded := cons.renderNeeded } := by
    simp only [backspace, hc, if_true, h.lastLine, hcur]
    rfl
  rw [heq]
  refine ⟨⟨{ doc.last with data := d }, ?_⟩, rfl, hp⟩
  split
  · rename_i hpre
    have hk1 : k = 1 := by
      clear * - hk hc hq hqt hpre
      omega
    have ha1 : a = q - 1 := by
      have := ha (by rw [hk1]; decide)
      clear * - this hpre hq
      omega
    clear hk ha hpa hak
    subst hk1 ha1
    rw [show q - 1 + 1 = q by omega] at he
    rw [show cons.cursor.toNat = q by omega]
    refine h.edited he rfl rfl (by omega) ?_
    simp only [List.length_append, List.length_take, List.length_drop]; omega
  · rename_i hpre
    have hk0 : k = 0 := by
      clear * - hk hc hpre
      omega
    subst hk0
    rw [drop_self_append] at he
    clear hk ha hpa hak
    exact h.edited he rfl rfl (by omega) (by omega)

theorem eraseToEnd_spec (h : Wf cons doc) :
    (∃ r, Edited cons doc (eraseToEnd cons) (doc.text.take (max cons.cursor.toNat cons.lines.edit.prefixLen)) r) ∧
      (eraseToEnd cons).cursor = cons.cursor ∧
      (eraseToEnd cons).lines.edit.prefixLen = cons.lines.edit.prefixLen := by
  obtain ⟨q, hq, hqt⟩ := h.cursor_cast
  have hpl := h.prefixLe
  have hsz := h.rep.edit.size
  obtain ⟨d, a, k, he, -, hp, hpa, hak, ha, hk⟩ :=
    h.rep.edit.delete cons.cursor (cons.lines.edit.size - cons.cursor)
  have heq : eraseToEnd cons =
      { cons.withEdit (streditDelete cons.lines.edit cons.cursor (cons.lines.edit.size - cons.cursor)).2 with
        cursor := cons.cursor, renderNeeded := cons.renderNeeded } := by
    simp only [eraseToEnd, h.lastLine]; rfl
  have hk' : (k : Int) = doc.text.length - max cons.cursor cons.lines.edit.prefixLen := by
    rw [hk, hsz]
    clear * - hq hqt hpl
    omega
  clear hk
  have ht : doc.text.take a ++ doc.text.drop (a + k) =
      doc.text.take (max cons.cursor.toNat cons.lines.edit.prefixLen) := by
    rcases Nat.eq_zero_or_pos k with h0 | h0
    · subst h0
      rw [drop_self_append, List.take_of_length_le (by omega)]
    · have := ha h0
      rw [List.drop_of_length_le (by omega), List.append_nil]
      congr 1; omega
  rw [heq]
  rw [ht] at he
  refine ⟨⟨_, h.edited he rfl rfl h.cursorNonneg ?_⟩, rfl, hp⟩
  rw [List.length_take]; omega

/-- The stretch between the prefix (or `n` bytes back) and the cursor goes. -/
theorem deleteAtCursor_spec (h : Wf cons doc) (n : Int) :
    ∃ k : Nat, (∃ r, Edited cons doc (consoleDeleteAtCursor cons n)
      (doc.text.take (cons.cursor.toNat - k) ++ doc.text.drop cons.cursor.toNat) r) ∧
      (k : Int) = max 0 (cons.cursor - max (cons.cursor - n) cons.lines.edit.prefixLen) ∧
      (consoleDeleteAtCursor cons n).cursor = cons.cursor - k ∧
      (consoleDeleteAtCursor cons n).lines.edit.prefixLen = cons.lines.edit.prefixLen := by
  obtain ⟨q, hq, hqt⟩ := h.cursor_cast
  have hpl := h.prefixLe
  have htl := h.textLe
  obtain ⟨d, a, k, he, hr, hp, hpa, hak, ha, hk⟩ := h.rep.edit.delete (cons.cursor - n) n
  have hleft : n - max 0 (cons.lines.edit.prefixLen - (cons.cursor - n)) = cons.cursor - max (cons.cursor - n) cons.lines.edit.prefixLen := by
    clear * -
    omega
  have hk' : (k : Int) = max 0 (cons.cursor - max (cons.cursor - n) cons.lines.edit.prefixLen) := by
    rw [hk, hleft, Int.min_eq_left (Int.sub_le_sub_right (hq.trans_le (Int.ofNat_le.mpr hqt)) _)]
  clear hk hleft
  have hkq : k ≤ q := by
    clear * - hk' hq
    omega
  have hcur : i16 (cons.cursor - k) = cons.cursor - k := i16_of_range (by clear * - hq hkq; omega) (by clear * - hq hqt htl; omega)
  have heq : consoleDeleteAtCursor cons n =
      { cons.withEdit (streditDelete cons.lines.edit (cons.cursor - n) n).2 with
        cursor := cons.cursor - k, renderNeeded := true } := by
    simp only [consoleDeleteAtCursor, h.lastLine, hr, hcur]
  have ht : doc.text.take a ++ doc.text.drop (a + k) = doc.text.take (q - k) ++ doc.text.drop q := by
    rcases Nat.eq_zero_or_pos k with h0 | h0
    · subst h0; simp
    · have hat := ha h0
      have hsum : a + k = q := by
        clear * - hat hk' h0 hq
        omega
      rw [hsum, show q - k = a by rw [← hsum, Nat.add_sub_cancel]]
  have hnonneg : (0 : Int) ≤ cons.cursor - k := by
    rw [hq]
    exact Int.sub_nonneg_of_le (Int.ofNat_le.mpr hkq)
  have hend : cons.cursor - k ≤ (doc.text.take (q - k) ++ doc.text.drop q).length := by
    simp only [List.length_append, List.length_take, List.length_drop, hq]
    clear * - hkq hqt
    omega
  rw [heq, show cons.cursor.toNat = q by rw [hq, Int.toNat_natCast]]
  rw [ht] at he
  exact ⟨k, ⟨_, h.edited he rfl rfl hnonneg hend⟩, hk', rfl, hp⟩

theorem clearCurrentLine_spec (h : Wf cons doc) :
    (∃ r, Edited cons doc (consoleClearCurrentLine cons) (doc.text.take cons.lines.edit.prefixLen) r) ∧
      (consoleClearCurrentLine cons).cursor = cons.lines.edit.prefixLen ∧
      (consoleClearCurrentLine cons).lines.edit.prefixLen = cons.lines.edit.prefixLen := by
  have hpl := h.prefixLe
  have hsz := h.rep.edit.size
  obtain ⟨d, a, k, he, -, hp, hpa, hak, ha, hk⟩ :=
    h.rep.edit.delete cons.lines.edit.prefixLen ((cons.lines.edit.size : Int) - cons.lines.edit.prefixLen)
  have heq : consoleClearCurrentLine cons =
      { cons.withEdit (streditDelete cons.lines.edit cons.lines.edit.prefixLen
          ((cons.lines.edit.size : Int) - cons.lines.edit.prefixLen)).2 with
        cursor := cons.lines.edit.prefixLen, renderNeeded := true } := by
    simp only [consoleClearCurrentLine, h.lastLine]
  have ht : doc.text.take a ++ doc.text.drop (a + k) = doc.text.take cons.lines.edit.prefixLen := by
    rcases Nat.eq_zero_or_pos k with h0 | h0
    · subst h0
      rw [drop_self_append, List.take_of_length_le (by omega)]
    · have := ha h0
      rw [List.drop_of_length_le (by omega), List.append_nil]
      congr 1; omega
  rw [heq]
  rw [ht] at he
  refine ⟨⟨_, h.edited he rfl rfl (by omega) ?_⟩, rfl, hp⟩
  rw [List.length_take]; omega

theorem lockPrefix_spec (h : Wf cons doc) :
    Edited cons doc (consoleLockPrefix cons) doc.text doc.last ∧ (consoleLockPrefix cons).cursor = cons.cursor ∧
      ((consoleLockPrefix cons).lines.edit.prefixLen : Int) = cons.cursor := by
  obtain ⟨q, hq, hqt⟩ := h.cursor_cast
  obtain ⟨he, hp⟩ := h.rep.edit.setPrefix hqt
  have heq : consoleLockPrefix cons = { cons.withEdit (streditSetPrefix cons.lines.edit q) with
      cursor := cons.cursor, renderNeeded := cons.renderNeeded } := by
    simp only [consoleLockPrefix, h.lastLine, ← hq]; rfl
  rw [heq, hq]
  exact ⟨h.edited he rfl rfl (by omega) (by omega), rfl, congrArg Nat.cast hp⟩

/-- The cursor moves to a position between the prefix and the end, or stays. -/
theorem setCursor_spec (h : Wf cons doc) (pos : Int) :
    Edited cons doc (consoleSetCursor cons pos).2 doc.text doc.last ∧
      (consoleSetCursor cons pos).2.lines.edit.prefixLen = cons.lines.edit.prefixLen ∧
      (consoleSetCursor cons pos).2.cursor =
        if cons.lines.edit.prefixLen ≤ pos ∧ pos ≤ doc.text.length then pos else cons.cursor := by
  have hsz := h.rep.edit.size
  have htl := h.textLe
  simp only [consoleSetCursor, h.lastLine]
  by_cases hin : cons.lines.edit.prefixLen ≤ pos ∧ pos ≤ doc.text.length
  · have hcur : i16 pos = pos := i16_of_range (by omega) (by omega)
    rw [if_neg (by omega), if_pos hin, hcur]
    exact ⟨h.moved (b := cons.renderNeeded) (by omega) hin.2, rfl, rfl⟩
  · rw [if_pos (by omega), if_neg hin]
    exact ⟨h.moved (b := cons.renderNeeded) h.cursorNonneg h.cursorLe, rfl, rfl⟩

theorem cursorLeft_spec (h : Wf cons doc) :
    Edited cons doc (cursorLeft cons) doc.text doc.last ∧ (cursorLeft cons).lines = cons.lines ∧
      (cursorLeft cons).cursor = max 0 (cons.cursor - 1) := by
  have h0 := h.cursorNonneg
  have hle := h.cursorLe
  have htl := h.textLe
  have hcur : i16 (cons.cursor - if cons.cursor > 0 then 1 else 0) = max 0 (cons.cursor - 1) := by
    split <;> rw [i16_of_range (by omega) (by omega)] <;> omega
  rw [cursorLeft, hcur]
  exact ⟨h.moved (b := cons.renderNeeded) (by omega) (by omega), rfl, rfl⟩

theorem cursorRight_spec (h : Wf cons doc) :
    Edited cons doc (cursorRight cons) doc.text doc.last ∧ (cursorRight cons).lines = cons.lines ∧
      (cursorRight cons).cursor = min (cons.cursor + 1) doc.text.length := by
  have h0 := h.cursorNonneg
  have hle := h.cursorLe
  have htl := h.textLe
  have hsz := h.rep.edit.size
  have hcur : i16 (cons.cursor + if cons.cursor < cons.lines.edit.size then 1 else 0) =
      min (cons.cursor + 1) doc.text.length := by
    split <;> rw [i16_of_range (by omega) (by omega)] <;> omega
  simp only [cursorRight, h.lastLine, hcur]
  exact ⟨h.moved (b := cons.renderNeeded) (by omega) (by omega), trivial, trivial⟩

end Edits

/-! ## New lines and views -/

/-- The parameters of a line buffer that only its creation and its layout set. -/
structure Frame (buf buf' : Linebuf) : Prop where
  capacity : buf'.capacity = buf.capacity
  backlogSize : buf'.backlogSize = buf.backlogSize
  absoluteRendered : buf'.absoluteRendered = buf.absoluteRendered

theorem Frame.refl (buf : Linebuf) : Frame buf buf := ⟨rfl, rfl, rfl⟩

theorem Frame.trans {a b c : Linebuf} (h1 : Frame a b) (h2 : Frame b c) : Frame a c :=
  ⟨h2.1.trans h1.1, h2.2.trans h1.2, h2.3.trans h1.3⟩

theorem Edited.frame {cons cons' : Console} {doc : Doc} {t : List UInt8} {r : Fline} (h : Edited cons doc cons' t r) :
    Frame cons.lines cons'.lines := by
  obtain ⟨ed, hl⟩ := h.lines
  rw [hl]; exact ⟨rfl, rfl, rfl⟩

theorem recycleLine_frame (buf : Linebuf) (nth : Nat) : Frame buf (recycleLine buf nth) := by
  unfold recycleLine
  split <;> exact ⟨rfl, rfl, rfl⟩

theorem recycle_frame (buf : Linebuf) (count : Int) : Frame buf (linebufRecycleOldestLines buf count) := by
  have hfold : ∀ (l : List Nat) (b : Linebuf), Frame b (l.foldl recycleLine b) := by
    intro l
    induction l with
    | nil => exact Frame.refl
    | cons n l ih => intro b; exact (recycleLine_frame b n).trans (ih _)
  unfold linebufRecycleOldestLines
  simp only
  split
  · exact Frame.refl buf
  · have := hfold (List.range (min count buf.size).toNat) buf
    exact ⟨this.1, this.2, this.3⟩

theorem newline_frame (buf : Linebuf) : Frame buf (linebufNewline buf) := by
  rw [newline_eq]
  refine (recycle_frame buf (buf.size - buf.capacity + 1)).trans ?_
  unfold addLine freezeLast
  split <;> exact ⟨rfl, rfl, rfl⟩

theorem cleanBacklog_frame (buf : Linebuf) : Frame buf (linebufCleanBacklog buf) := by
  unfold linebufCleanBacklog
  split
  · exact Frame.refl buf
  · exact recycle_frame buf _

section Lines

variable {cons : Console} {doc : Doc}

/-- What `console_newline` leaves of the lines held: the last one frozen as `F`, and the
    `overflow + k` oldest gone: one if the buffer was full, and the fewest more that
    bring the text within the backlog. -/
structure NewLine (cons : Console) (doc doc' : Doc) (F : Fline) (k : Nat) : Prop where
  frozenOf : FrozenOf doc F
  dropped : doc'.dropped = doc.dropped + (overflow cons.lines + k)
  frozen : doc'.frozen = (doc.frozen ++ [F]).drop (overflow cons.lines + k)
  count : doc'.dropped + doc'.frozen.length = doc.dropped + doc.frozen.length + 1
  last : doc'.last = freshLine (doc.dropped + doc.frozen.length + 2)
  text : doc'.text = []
  within : (((doc'.frozen).map Fline.size).sum : Int) ≤ cons.lines.backlogSize
  fewest : ∀ j < k, cons.lines.backlogSize < (((doc.frozen ++ [F]).drop (overflow cons.lines + j)).map Fline.size).sum

theorem newline_step (h : Wf cons doc) :
    ∃ doc' F k, Wf (consoleNewline cons) doc' ∧ NewLine cons doc doc' F k ∧
      Frame cons.lines (consoleNewline cons).lines := by
  obtain ⟨F, hF, hrep⟩ := newline_rep h.rep
  obtain ⟨k, hk, -, hclean, hle, hmin⟩ := cleanBacklog_rep hrep
  have hfr := (newline_frame cons.lines).backlogSize
  have hlen : doc.dropped + overflow cons.lines + k + ((doc.frozen ++ [F]).drop (overflow cons.lines + k)).length =
      doc.dropped + doc.frozen.length + 1 := by
    simp only [List.length_drop, List.length_append, List.length_singleton] at hk ⊢
    have := h.rep.size_le; have := h.rep.size; unfold overflow at *; split at hk <;> simp_all <;> omega
  refine ⟨_, F, k, ⟨hclean, Int.le_refl 0, Int.natCast_nonneg _⟩, ?_, (newline_frame _).trans (cleanBacklog_frame _)⟩
  refine ⟨hF, ?_, ?_, ?_, rfl, rfl, ?_, fun j hj => ?_⟩
  · simp only; omega
  · simp
  · simp only [List.drop_drop]; exact hlen
  · rw [hfr] at hle; simpa [Doc.bytesFrom] using hle
  · have := hmin j hj
    rw [hfr] at this
    simpa [Doc.bytesFrom, List.drop_drop] using this

/-- `console_compute_view` changes row counts only: of the held lines from where the
    layout starts to the end. -/
structure Viewed (d : Drsize) (cons : Console) (doc doc' : Doc) (font : Font) (width : Int) (lazy : Bool) : Prop where
  dropped : doc'.dropped = doc.dropped
  text : doc'.text = doc.text
  held : ∀ i : Nat, doc'.held[i]? =
    if renderStart cons.lines lazy ≤ cons.lines.absolute + i ∧ cons.lines.absolute + i < linebufEnd cons.lines
      then (doc.held[i]?).map (consoleFlineUpdateRenderLines d font · (viewParams width)) else doc.held[i]?

theorem Viewed.frozen_length {d : Drsize} {doc' : Doc} {font : Font} {width : Int} {lazy : Bool}
    (hv : Viewed d cons doc doc' font width lazy) : doc'.frozen.length = doc.frozen.length := by
  have hnone : ∀ i : Nat, doc'.held[i]? = none ↔ doc.held[i]? = none := by
    intro i; rw [hv.held]; split <;> simp
  have h1 := hnone doc'.held.length
  have h2 := hnone doc.held.length
  simp only [List.getElem?_eq_none_iff] at h1 h2
  have := doc.held_length
  have := doc'.held_length
  omega

/-- Whether `console_compute_view` lays out only the lines changed since the last view. -/
def isLazy (cons : Console) (width : Int) : Bool := width ≠ 0 ∧ cons.renderWidth = width

theorem computeView_step (d : Drsize) (h : Wf cons doc) (font : Font) (width lines : Int) :
    ∃ doc', Wf (consoleComputeView d cons font width lines) doc' ∧
      Viewed d cons doc doc' font width (isLazy cons width) ∧
      (consoleComputeView d cons font width lines).lines.capacity = cons.lines.capacity ∧
      (consoleComputeView d cons font width lines).lines.absoluteRendered =
        max cons.lines.absoluteRendered (linebufEnd cons.lines - 2) := by
  obtain ⟨doc', h', hd, ht, hr, hc, hh⟩ := updateRender_rep d font h.rep width (isLazy cons width)
  exact ⟨doc', ⟨h', h.cursorNonneg, ht ▸ h.cursorLe⟩, ⟨hd, ht, hh⟩, hc, hr⟩

/-! ## Every action, every run -/

/-- An action other than a new line and a view edits the last line. -/
theorem edit_step (d : Drsize) (h : Wf cons doc) (a : Act) (hn : a ≠ .newline)
    (hv : ∀ font width lines, a ≠ .computeView font width lines) : ∃ t r, Edited cons doc (act d cons a) t r := by
  have same : ∀ b : Bool, Edited cons doc { cons with cursor := cons.cursor, renderNeeded := b } doc.text doc.last :=
    fun b => h.moved h.cursorNonneg h.cursorLe
  cases a with
  | newline => exact absurd rfl hn
  | insert s =>
    by_cases hs : doc.text.length + s.length ≤ lineMaxLength
    · exact ⟨_, (insert_spec h hs).2.1⟩
    · refine ⟨doc.text, doc.last, ?_⟩
      rw [act, insert_full h (by omega)]
      exact same cons.renderNeeded
  | backspace =>
    by_cases hc : 0 < cons.cursor
    · exact ⟨_, (backspace_spec h hc).1⟩
    · refine ⟨doc.text, doc.last, ?_⟩
      rw [act, backspace, if_neg hc]
      exact same cons.renderNeeded
  | eraseToEnd => exact ⟨_, (eraseToEnd_spec h).1⟩
  | cursorLeft => exact ⟨_, _, (cursorLeft_spec h).1⟩
  | cursorRight => exact ⟨_, _, (cursorRight_spec h).1⟩
  | touch => exact ⟨_, _, same true⟩
  | setCursor pos => exact ⟨_, _, (setCursor_spec h pos).1⟩
  | deleteAtCursor n =>
    obtain ⟨k, he, -⟩ := deleteAtCursor_spec h n
    exact ⟨_, he⟩
  | clearCurrentLine => exact ⟨_, (clearCurrentLine_spec h).1⟩
  | lockPrefix => exact ⟨_, _, (lockPrefix_spec h).1⟩
  | computeView font width lines => exact absurd rfl (hv font width lines)

/-- What an action does: it edits the last line, starts a new one, or lays lines out. -/
theorem act_cases (d : Drsize) (h : Wf cons doc) (a : Act) :
    (∃ t r, Edited cons doc (act d cons a) t r) ∨
    (a = .newline ∧ ∃ doc' F k, Wf (act d cons a) doc' ∧ NewLine cons doc doc' F k ∧
      Frame cons.lines (act d cons a).lines) ∨
    (∃ font width lines doc', a = .computeView font width lines ∧ Wf (act d cons a) doc' ∧
      Viewed d cons doc doc' font width (isLazy cons width) ∧
      (act d cons a).lines.capacity = cons.lines.capacity ∧
      (act d cons a).lines.absoluteRendered = max cons.lines.absoluteRendered (linebufEnd cons.lines - 2)) := by
  by_cases hn : a = .newline
  · subst hn; exact Or.inr (Or.inl ⟨rfl, newline_step h⟩)
  by_cases hv : ∃ font width lines, a = .computeView font width lines
  · obtain ⟨font, width, lines, rfl⟩ := hv
    obtain ⟨doc', h'⟩ := computeView_step d h font width lines
    exact Or.inr (Or.inr ⟨font, width, lines, doc', rfl, h'⟩)
  · exact Or.inl (edit_step d h a hn fun f w l e => hv ⟨f, w, l, e⟩)

theorem act_wf (d : Drsize) (h : Wf cons doc) (a : Act) :
    ∃ doc', Wf (act d cons a) doc' ∧ (act d cons a).lines.capacity = cons.lines.capacity := by
  rcases act_cases d h a with ⟨t, r, he⟩ | ⟨-, doc', F, k, hw, -, hf⟩ | ⟨f, w, l, doc', -, hw, -, hc, -⟩
  · obtain ⟨ed, hl⟩ := he.lines
    exact ⟨_, he.wf, by rw [hl]⟩
  · exact ⟨doc', hw, hf.capacity⟩
  · exact ⟨doc', hw, hc⟩

end Lines

/-- The empty line buffer `linebuf_init` leaves. -/
theorem init_shelf (count backlog : Int) (hc : 0 < i16 count) (hpos : 0 < count) (hb : (lineMaxLength : Int) ≤ backlog) :
    ∃ buf, linebufInit count backlog = some buf ∧ Shelf buf 0 [] ∧ buf.size = 0 ∧ buf.heap.next = 1 ∧
      buf.totalRendered = 0 ∧ buf.capacity = i16 count := by
  have hr := i16_range count
  have hle : i16 count ≤ count := by unfold i16 at *; omega
  refine ⟨_, if_neg (by omega), ⟨hc, hr.2, ?_, hb, rfl, ?_, ?_, ?_, ?_, ?_, ?_, rfl, ?_, rfl⟩, rfl, rfl, rfl, rfl⟩
  · simp only [List.length_replicate]; omega
  · simp only [List.length_nil]; omega
  · intro i FL hi; simp at hi
  · intro a _ h2; omega
  · intro a _ h2
    have : a % (i16 count).toNat < count.toNat :=
      Nat.lt_of_lt_of_le (Nat.mod_lt _ (by omega)) (by omega)
    simp [Linebuf.at, this]
  · intro FL hFL; simp at hFL
  · intro i FL hi; simp at hi
  · show (1 : Int) = i32 (0 + 1)
    decide

/-- A console whose line count the capacity can hold is well formed when created. -/
theorem create_wf (backlog count : Int) (hc : 0 < i16 (max count 1)) :
    ∃ cons, consoleCreate backlog count = some cons ∧ Wf cons ⟨0, [], freshLine 1, []⟩ ∧
      cons.lines.capacity = i16 (max count 1) ∧ cons.renderWidth = 0 ∧ cons.lines.absoluteRendered = 0 := by
  obtain ⟨buf, hinit, hsh, hs, hn, hr, hcap⟩ := 
    init_shelf (max count 1) (max backlog lineMaxLength) hc (by omega) (by omega)
  have hnl : linebufNewline buf = addLine buf := by
    rw [newline_eq]
    have : linebufRecycleOldestLines buf (buf.size - buf.capacity + 1) = buf := by
      unfold linebufRecycleOldestLines; rw [if_pos (by omega)]
    rw [this]; unfold freezeLast; rw [if_neg (by omega)]
  have hrep := hsh.addLine_rep hs hn (by simp [hr]; decide)
  rw [← hnl] at hrep
  obtain ⟨k, hk, -, hclean, -, -⟩ := cleanBacklog_rep hrep
  obtain rfl : k = 0 := by simpa using hk
  have hfr := (newline_frame buf).trans (cleanBacklog_frame _)
  have har : buf.absoluteRendered = 0 := by
    unfold linebufInit at hinit
    rw [if_neg (by omega), Option.some.injEq] at hinit
    rw [← hinit]
  refine ⟨consoleNewline ⟨buf, -1, true, 0, 0, 0⟩, ?_, ⟨hclean, Int.le_refl 0, Int.natCast_nonneg _⟩,
    hfr.capacity.trans hcap, rfl, hfr.absoluteRendered.trans har⟩
  simp [consoleCreate, hinit]

theorem run_wf (d : Drsize) {backlog count : Int} (hc : 0 < i16 (max count 1)) {cons : Console}
    (h : consoleCreate backlog count = some cons) (as : List Act) :
    ∃ doc, Wf (run (act d) cons as) doc ∧ (run (act d) cons as).lines.capacity = i16 (max count 1) := by
  obtain ⟨cons0, hcr, hwf, hcap, -⟩ := create_wf backlog count hc
  obtain rfl : cons0 = cons := Option.some.inj (hcr.symm.trans h)
  refine run_inv (P := fun c => ∃ doc, Wf c doc ∧ c.lines.capacity = i16 (max count 1)) ?_ ⟨_, hwf, hcap⟩ as
  rintro c a ⟨doc, hw, hcc⟩
  obtain ⟨doc', hw', hc'⟩ := act_wf d hw a
  exact ⟨doc', hw', hc'.trans hcc⟩

end PythonUltra.Terminal
