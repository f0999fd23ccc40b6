/-
  PythonUltra.Terminal.Backlog — how much text the console holds, and what
  `linebuf_clean_backlog` removes.

  Every newline ends in a cleaning, so between two of them only the last line grows, and
  a line stays within its 1024 bytes (`backlog_bounded`). A cleaning drops the fewest
  oldest lines that bring the text within the backlog, and never the last one
  (`CleansOldest`).

  A line count whose 16-bit capacity is zero or negative has no ring of lines: there each
  newline first drops every line (`Single`), and the bounds hold with nothing to clean.
-/

import PythonUltra.Terminal.Invariant

namespace PythonUltra.Terminal

open PythonUltra.Lib PythonUltra.Lib.CMem PythonUltra.Lib.Machine

/-- The bytes of text held: the total of the frozen lines, and the last line. -/
def totalSize (buf : Linebuf) : Int :=
  buf.totalSizeExceptLast + (linebufGetLastLine buf).elim 0 fun ed => (ed.size : Int)

/-- The bytes of the `k` oldest lines. -/
def oldestSize (buf : Linebuf) (k : Nat) : Int := (((heldLines buf).take k).map Fline.size).sum

/-- `linebuf_clean_backlog` drops oldest lines only, not the last one, and no more than
    needed: it stops where the rest is within the backlog or one line is left. -/
structure CleansOldest (buf : Linebuf) : Prop where
  last : linebufGetLastLine (linebufCleanBacklog buf) = linebufGetLastLine buf
  fewest : ∃ k : Nat,
    linebufCleanBacklog buf = linebufRecycleOldestLines buf k ∧
    (k : Int) < buf.size ∧
    heldLines (linebufCleanBacklog buf) = (heldLines buf).drop k ∧
    totalSize (linebufCleanBacklog buf) = totalSize buf - oldestSize buf k ∧
    (totalSize (linebufCleanBacklog buf) ≤ buf.backlogSize ∨ (linebufCleanBacklog buf).size = 1) ∧
    ∀ j < k, buf.backlogSize < totalSize buf - oldestSize buf j

/-- What holds of the text of a console created with `backlog`. -/
structure BacklogOk (backlog : Int) (buf : Linebuf) : Prop where
  backlogSize : buf.backlogSize = max backlog lineMaxLength
  counted : buf.totalSizeExceptLast = ((heldLines buf).dropLast.map Fline.size).sum
  bounded : totalSize buf ≤ buf.backlogSize + lineMaxLength
  cleans : CleansOldest buf
  /-- Where `console_newline` calls it. -/
  cleansNew : CleansOldest (linebufNewline buf)

/-! ## What an action leaves of the counts -/

/-- Same parameters, same counts. -/
structure Counts (buf buf' : Linebuf) : Prop where
  capacity : buf'.capacity = buf.capacity
  size : buf'.size = buf.size
  backlogSize : buf'.backlogSize = buf.backlogSize
  total : buf'.totalSizeExceptLast = buf.totalSizeExceptLast
  editSize : buf'.edit.size = buf.edit.size
  editMax : buf'.edit.maxSize = buf.edit.maxSize

theorem Counts.refl (buf : Linebuf) : Counts buf buf := ⟨rfl, rfl, rfl, rfl, rfl, rfl⟩

theorem Counts.trans {a b c : Linebuf} (h1 : Counts a b) (h2 : Counts b c) : Counts a c :=
  ⟨h2.1.trans h1.1, h2.2.trans h1.2, h2.3.trans h1.3, h2.4.trans h1.4, h2.5.trans h1.5, h2.6.trans h1.6⟩

variable (d : Drsize)

theorem updateRenderLine_counts (font : Font) (w : Int) (buf : Linebuf) (abs : Int) :
    Counts buf (updateRenderLine d font w buf abs) := by
  unfold updateRenderLine Linebuf.putNthLine
  split
  · exact Counts.refl buf
  · split <;> exact ⟨rfl, rfl, rfl, rfl, rfl, rfl⟩

theorem computeView_counts (cons : Console) (font : Font) (width lines : Int) :
    Counts cons.lines (consoleComputeView d cons font width lines).lines := by
  have hfold : ∀ (l : List Nat) (w s : Int) (buf : Linebuf),
      Counts buf (l.foldl (fun buf (i : Nat) => updateRenderLine d font w buf (s + i)) buf) := by
    intro l w s
    induction l with
    | nil => exact Counts.refl
    | cons n l ih => intro buf; exact (updateRenderLine_counts d font w buf (s + n)).trans (ih _)
  have h := fun l s => hfold l (viewParams width) s cons.lines
  exact ⟨(h _ _).1, (h _ _).2, (h _ _).3, (h _ _).4, (h _ _).5, (h _ _).6⟩

/-- An editor with another's limit, and within it when the other is. -/
structure Keeps (ed ed' : Stredit) : Prop where
  maxSize : ed'.maxSize = ed.maxSize
  size : ed.size ≤ ed.maxSize → ed'.size ≤ ed'.maxSize

theorem Keeps.refl (ed : Stredit) : Keeps ed ed := ⟨rfl, id⟩

theorem insert_keeps (ed : Stredit) (p : Int) (s : List UInt8) : Keeps ed (streditInsert ed p s).2 := by
  have hal : (streditAlloc ed (ed.size + s.length)).maxSize = ed.maxSize := by
    unfold streditAlloc; split <;> rfl
  unfold streditInsert
  split
  · exact Keeps.refl ed
  · rename_i hc
    refine ⟨hal, fun _ => ?_⟩
    show u16 (ed.size + s.length) ≤ _
    rw [hal]
    have : u16 (ed.size + s.length) ≤ ed.size + s.length := Nat.mod_le _ _
    omega

theorem delete_keeps (ed : Stredit) (p n : Int) : Keeps ed (streditDelete ed p n).2 := by
  unfold streditDelete
  simp only
  generalize hm : min (n - _) ((ed.size : Int) - _) = m
  split
  · exact Keeps.refl ed
  · refine ⟨rfl, fun h => ?_⟩
    show ed.size - m.toNat ≤ ed.maxSize
    omega

/-- Every action but a newline and a view works on the last line's editor alone. -/
theorem edit_keeps (cons : Console) (a : Act) (hn : a ≠ .newline)
    (hv : ∀ font width lines, a ≠ .computeView font width lines) :
    ∃ ed, (act d cons a).lines = { cons.lines with edit := ed } ∧ Keeps cons.lines.edit ed := by
  have same : ∃ ed, cons.lines = { cons.lines with edit := ed } ∧ Keeps cons.lines.edit ed :=
    ⟨cons.lines.edit, rfl, Keeps.refl _⟩
  have hlast : lastLine cons = none ∨ lastLine cons = some cons.lines.edit := by
    unfold lastLine linebufGetLastLine
    split
    · exact Or.inr rfl
    · exact Or.inl rfl
  cases a with
  | newline => exact absurd rfl hn
  | computeView font width lines => exact absurd rfl (hv font width lines)
  | touch => exact same
  | cursorLeft => exact same
  | setCursor pos =>
    rcases hlast with h | h
    · simpa [act, consoleSetCursor, h] using same
    · simp only [act, consoleSetCursor, h]
      split <;> exact same
  | cursorRight =>
    rcases hlast with h | h <;> simpa [act, cursorRight, h] using same
  | insert s =>
    rcases hlast with h | h
    · simpa [act, insertRound, h] using same
    · simp only [act, insertRound, h]
      split
      · exact ⟨_, rfl, insert_keeps _ _ _⟩
      · exact same
  | backspace =>
    simp only [act, backspace]
    split
    · rcases hlast with h | h
      · simpa [h] using same
      · simp only [h]; exact ⟨_, rfl, delete_keeps _ _ _⟩
    · exact same
  | eraseToEnd =>
    rcases hlast with h | h
    · simpa [act, eraseToEnd, h] using same
    · simp only [act, eraseToEnd, h]; exact ⟨_, rfl, delete_keeps _ _ _⟩
  | deleteAtCursor n =>
    rcases hlast with h | h
    · simpa [act, consoleDeleteAtCursor, h] using same
    · simp only [act, consoleDeleteAtCursor, h]; exact ⟨_, rfl, delete_keeps _ _ _⟩
  | clearCurrentLine =>
    rcases hlast with h | h
    · simpa [act, consoleClearCurrentLine, h] using same
    · simp only [act, consoleClearCurrentLine, h]; exact ⟨_, rfl, delete_keeps _ _ _⟩
  | lockPrefix =>
    rcases hlast with h | h
    · simpa [act, consoleLockPrefix, h] using same
    · simp only [act, consoleLockPrefix, h]; exact ⟨_, rfl, rfl, id⟩

/-! ## A ring of lines -/

section Ring

variable {buf : Linebuf} {doc : Doc}

theorem Rep.totalSize_eq (h : Rep buf doc) : totalSize buf = (doc.bytesFrom 0 : Nat) := by
  unfold totalSize
  rw [h.getLastLine, h.total]
  simp [Doc.bytesFrom, h.edit.size]

theorem Rep.oldestSize_eq (h : Rep buf doc) {k : Nat} (hk : k ≤ doc.frozen.length) :
    oldestSize buf k + (doc.bytesFrom k : Nat) = (doc.bytesFrom 0 : Nat) := by
  unfold oldestSize
  rw [h.heldLines_eq, Doc.held, List.take_append_of_le_length hk]
  have hsum : (doc.frozen.map Fline.size).sum = ((doc.frozen.take k).map Fline.size).sum + ((doc.frozen.drop k).map Fline.size).sum := by
    rw [← List.sum_append, ← List.map_append, List.take_append_drop]
  simp only [Doc.bytesFrom, List.drop_zero]
  omega

theorem recycle_zero (buf : Linebuf) : linebufRecycleOldestLines buf (0 : Nat) = buf := by
  unfold linebufRecycleOldestLines
  exact if_pos (by simp only [Nat.cast_zero]; omega)

theorem Rep.cleansOldest (h : Rep buf doc) : CleansOldest buf := by
  obtain ⟨k, hk, heq, hrep, hle, hmin⟩ := cleanBacklog_rep h
  have hsz := h.size
  have hedit : (linebufCleanBacklog buf).edit = buf.edit := by
    rw [heq]
    rcases Nat.eq_zero_or_pos k with rfl | hpos
    · rw [recycle_zero]
    · rw [h.recycle_eq (by rw [doc.held_length]; omega) hpos]
  refine ⟨?_, k, heq, by omega, ?_, ?_, Or.inl ?_, fun j hj => ?_⟩
  · rw [hrep.getLastLine, h.getLastLine, hedit]
  · rw [hrep.heldLines_eq, h.heldLines_eq, Doc.held, Doc.held, List.drop_append_of_le_length hk]
  · have := h.oldestSize_eq hk
    rw [hrep.totalSize_eq, h.totalSize_eq]
    simp only [Doc.bytesFrom, List.drop_zero] at *
    omega
  · rw [hrep.totalSize_eq]
    simpa [Doc.bytesFrom] using hle
  · have := h.oldestSize_eq (k := j) (by omega)
    have := hmin j hj
    rw [h.totalSize_eq]
    omega

end Ring

/-- A console with a ring of lines, the frozen ones within the backlog. -/
def Ringed (backlog : Int) (cons : Console) : Prop :=
  cons.lines.backlogSize = max backlog lineMaxLength ∧ cons.lines.totalSizeExceptLast ≤ cons.lines.backlogSize ∧
    ∃ doc, Wf cons doc

theorem Ringed.step {backlog : Int} {cons : Console} (h : Ringed backlog cons) (a : Act) :
    Ringed backlog (act d cons a) := by
  obtain ⟨hb, ht, doc, hw⟩ := h
  rcases act_cases d hw a with ⟨t, r, he⟩ | ⟨rfl, doc', F, k, hw', hnl, hf⟩ | ⟨font, width, lines, doc', rfl, hw', -⟩
  · obtain ⟨ed, hl⟩ := he.lines
    exact ⟨by rw [hl]; exact hb, by rw [hl]; exact ht, _, he.wf⟩
  · refine ⟨hf.backlogSize.trans hb, ?_, doc', hw'⟩
    rw [hw'.rep.total, hf.backlogSize]
    exact hnl.within
  · have hc := computeView_counts d cons font width lines
    refine ⟨hc.backlogSize.trans hb, ?_, doc', hw'⟩
    show (consoleComputeView d cons font width lines).lines.totalSizeExceptLast ≤ _
    rw [hc.total]
    exact ht.trans (Int.le_of_eq hc.backlogSize.symm)

theorem Ringed.ok {backlog : Int} {cons : Console} (h : Ringed backlog cons) : BacklogOk backlog cons.lines := by
  obtain ⟨hb, ht, doc, hw⟩ := h
  obtain ⟨F, -, hnew⟩ := newline_rep hw.rep
  refine ⟨hb, ?_, ?_, hw.rep.cleansOldest, hnew.cleansOldest⟩
  · rw [hw.rep.heldLines_eq, hw.rep.total]
    simp [Doc.held]
  · have := hw.rep.edit.size_le
    unfold totalSize
    rw [hw.rep.getLastLine, Option.elim_some]
    omega

/-! ## No ring -/

/-- A buffer without a ring: the last line is its only one. -/
structure Single (backlog : Int) (buf : Linebuf) : Prop where
  capacity : buf.capacity ≤ 0
  backlogSize : buf.backlogSize = max backlog lineMaxLength
  size : buf.size = 1
  total : buf.totalSizeExceptLast = 0
  editSize : buf.edit.size ≤ buf.edit.maxSize
  editMax : buf.edit.maxSize = lineMaxLength

theorem Counts.single {backlog : Int} {buf buf' : Linebuf} (hc : Counts buf buf') (h : Single backlog buf) :
    Single backlog buf' :=
  ⟨by rw [hc.capacity]; exact h.capacity, hc.backlogSize.trans h.backlogSize, hc.size.trans h.size,
    hc.total.trans h.total, by rw [hc.editSize, hc.editMax]; exact h.editSize, hc.editMax.trans h.editMax⟩

theorem Single.cleanBacklog_eq {backlog : Int} {buf : Linebuf} (h : Single backlog buf) : linebufCleanBacklog buf = buf := by
  have hz : ∀ n : Int, cleanCount buf 1 0 n = 0 := by
    intro n
    unfold cleanCount
    rw [if_neg (by rw [h.size]; omega)]
  unfold linebufCleanBacklog linebufGetLastLine
  rw [h.size]
  simp only [gt_iff_lt, Int.zero_lt_one, if_true]
  rw [show (1 : Int).toNat = 1 from rfl, hz]
  exact recycle_zero buf

theorem Single.heldLines_eq {backlog : Int} {buf : Linebuf} (h : Single backlog buf) :
    heldLines buf = buf.edit.raw.toList := by
  have hnth : linebufGetNthLine buf (0 : Nat) = buf.edit.raw := by
    unfold linebufGetNthLine
    rw [h.size]
    rfl
  unfold heldLines
  rw [h.size]
  show [0].filterMap (fun (i : Nat) => linebufGetNthLine buf i) = _
  rw [List.filterMap_cons, hnth]
  cases buf.edit.raw <;> rfl

theorem Single.cleansOldest {backlog : Int} {buf : Linebuf} (h : Single backlog buf) : CleansOldest buf := by
  refine ⟨by rw [h.cleanBacklog_eq], 0, ?_, by rw [h.size]; decide, ?_, ?_, Or.inr ?_, fun j hj => absurd hj (Nat.not_lt_zero j)⟩
  · rw [h.cleanBacklog_eq, recycle_zero]
  · rw [h.cleanBacklog_eq, List.drop_zero]
  · rw [h.cleanBacklog_eq]
    simp [oldestSize]
  · rw [h.cleanBacklog_eq, h.size]

/-- A newline drops the only line and starts another. -/
theorem Single.newline {backlog : Int} {buf : Linebuf} (hc : buf.capacity ≤ 0)
    (hb : buf.backlogSize = max backlog lineMaxLength) (hs : buf.size = 0 ∨ buf.size = 1)
    (ht : buf.totalSizeExceptLast = 0) : Single backlog (linebufNewline buf) := by
  have hfr := newline_frame buf
  have hdrop : (linebufRecycleOldestLines buf (buf.size - buf.capacity + 1)).size = 0 ∧
      (linebufRecycleOldestLines buf (buf.size - buf.capacity + 1)).totalSizeExceptLast = 0 := by
    unfold linebufRecycleOldestLines
    rcases hs with hs | hs
    · rw [if_pos (by rw [hs]; omega)]
      exact ⟨hs, ht⟩
    · have hmin : min (buf.size - buf.capacity + 1) buf.size = 1 := by omega
      simp only [hmin]
      rw [if_neg (by decide)]
      show i16 (_ - 1) = 0 ∧ (recycleLine buf 0).totalSizeExceptLast = 0
      have hsz : (recycleLine buf 0).size = 1 := by
        unfold recycleLine
        split
        · exact hs
        · exact hs
      refine ⟨by show i16 ((recycleLine buf 0).size - 1) = 0; rw [hsz]; decide, ?_⟩
      unfold recycleLine
      split
      · exact ht
      · show (if _ then _ else _) = (0 : Int)
        rw [if_neg (by rw [hs]; decide)]
        exact ht
  have hfreeze : freezeLast (linebufRecycleOldestLines buf (buf.size - buf.capacity + 1)) =
      linebufRecycleOldestLines buf (buf.size - buf.capacity + 1) := by
    unfold freezeLast
    rw [if_neg (by rw [hdrop.1]; decide)]
  have heq : linebufNewline buf = addLine (linebufRecycleOldestLines buf (buf.size - buf.capacity + 1)) := by
    rw [newline_eq, hfreeze]
  refine ⟨by rw [hfr.capacity]; exact hc, hfr.backlogSize.trans hb, ?_, ?_, ?_, ?_⟩
  · rw [heq]
    show i16 (_ + 1) = 1
    rw [hdrop.1]
    decide
  · rw [heq]; exact hdrop.2
  · rw [heq]; exact Nat.zero_le _
  · rw [heq]; rfl

theorem Single.step {backlog : Int} {cons : Console} (h : Single backlog cons.lines) (a : Act) :
    Single backlog (act d cons a).lines := by
  by_cases hn : a = .newline
  · subst hn
    have hnew := Single.newline h.capacity h.backlogSize (Or.inr h.size) h.total
    show Single backlog (linebufCleanBacklog (linebufNewline cons.lines))
    rw [hnew.cleanBacklog_eq]
    exact hnew
  by_cases hv : ∃ font width lines, a = .computeView font width lines
  · obtain ⟨font, width, lines, rfl⟩ := hv
    exact (computeView_counts d cons font width lines).single h
  · obtain ⟨ed, hl, hk⟩ := edit_keeps d cons a hn fun f w l e => hv ⟨f, w, l, e⟩
    rw [hl]
    exact ⟨h.capacity, h.backlogSize, h.size, h.total, hk.size h.editSize, hk.maxSize.trans h.editMax⟩

theorem Single.ok {backlog : Int} {buf : Linebuf} (h : Single backlog buf) : BacklogOk backlog buf := by
  refine ⟨h.backlogSize, ?_, ?_, h.cleansOldest,
    (Single.newline h.capacity h.backlogSize (Or.inr h.size) h.total).cleansOldest⟩
  · rw [h.heldLines_eq, h.total]
    cases buf.edit.raw <;> rfl
  · unfold totalSize linebufGetLastLine
    have := h.editSize
    have := h.editMax
    have := h.backlogSize
    rw [h.size, h.total, if_pos (by decide), Option.elim_some]
    omega

/-! ## Every run -/

theorem create_ok (backlog count : Int) {cons : Console} (h : consoleCreate backlog count = some cons) :
    Ringed backlog cons ∨ Single backlog cons.lines := by
  by_cases hc : 0 < i16 (max count 1)
  · obtain ⟨cons0, hcr, hwf, -⟩ := create_wf backlog count hc
    obtain rfl : cons0 = cons := Option.some.inj (hcr.symm.trans h)
    have hb : cons0.lines.backlogSize = max backlog lineMaxLength := by
      unfold consoleCreate linebufInit at h
      simp only at h
      rw [if_neg (by omega), Option.map_some, Option.some.injEq] at h
      rw [← h]
      exact ((newline_frame _).trans (cleanBacklog_frame _)).backlogSize
    refine Or.inl ⟨hb, ?_, _, hwf⟩
    rw [hwf.rep.total, hb]
    simp
  · unfold consoleCreate linebufInit at h
    simp only at h
    rw [if_neg (by omega), Option.map_some, Option.some.injEq] at h
    have hnew := @Single.newline backlog
      ⟨List.replicate (max count 1).toNat none, streditInit 0 0 0 0, i16 (max count 1), 0, 0, 0, 1,
        max backlog lineMaxLength, 0, 0, ⟨1, []⟩⟩ (by show i16 _ ≤ 0; omega) rfl (Or.inl rfl) rfl
    refine Or.inr ?_
    rw [← h]
    show Single backlog (linebufCleanBacklog (linebufNewline _))
    rw [hnew.cleanBacklog_eq]
    exact hnew

theorem act_ok {backlog : Int} {cons : Console} (h : Ringed backlog cons ∨ Single backlog cons.lines) (a : Act) :
    Ringed backlog (act d cons a) ∨ Single backlog (act d cons a).lines := by
  rcases h with h | h
  · exact Or.inl (h.step d a)
  · exact Or.inr (h.step d a)

/-- In every run of every console, between operations and at every moment inside one, the
    text held is at most the backlog and one line of 1024 bytes, and a cleaning drops the
    fewest oldest lines. -/
theorem backlog_bounded (backlog count : Int) {cons : Console} (h : consoleCreate backlog count = some cons)
    (ops : List Op) :
    BacklogOk backlog (run (exec d) cons ops).lines ∧
      ∀ as bs, runActs d cons ops = as ++ bs → BacklogOk backlog (run (act d) cons as).lines := by
  have hall : ∀ as, BacklogOk backlog (run (act d) cons as).lines := by
    intro as
    have hrun := run_inv (P := fun c => Ringed backlog c ∨ Single backlog c.lines) (fun _ a hc => act_ok d hc a)
      (create_ok backlog count h) as
    rcases hrun with hr | hs
    · exact hr.ok
    · exact hs.ok
  refine ⟨?_, fun as _ _ => hall as⟩
  rw [run_exec_eq]
  exact hall _

/-- 1030 bytes in a backlog of 1024: the second line's newline drops the first. -/
theorem backlog_bounded_two_lines :
    ∃ cons, consoleCreate 1024 200 = some cons ∧
      BacklogOk 1024 (run (exec oneByteRows) cons [.writeRaw (List.replicate 1030 97), .newline]).lines :=
  ⟨_, rfl, (backlog_bounded oneByteRows 1024 200 rfl _).1⟩

end PythonUltra.Terminal
