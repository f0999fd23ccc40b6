/-
  PythonUltra.Terminal.Prompt — the protected start of the line being edited.

  console_lock_prefix makes the text before the cursor the prompt: stredit_delete does not
  remove it and console_set_cursor does not enter it. `Locked` is the invariant this is
  for, with the prompt's bytes. Two paths of console_write move the cursor without asking
  the editor: a BS steps back whenever the cursor is not at 0, and so does `ESC 01 D`;
  from the prompt's end they enter it, and the next insertion changes it
  (`backspace_enters_prompt`). `PromptOk` rules out that one case, and every other action
  keeps the prompt.
-/

import PythonUltra.Terminal.Writes

namespace PythonUltra.Terminal

open PythonUltra.Lib PythonUltra.Lib.CMem PythonUltra.Lib.Machine

/-- The text of the line being edited. -/
def currentText (cons : Console) : List UInt8 := nthText cons.lines (cons.lines.size - 1)

/-- The prompt of `cons` as `cons'` has it: as long, with the same bytes, and the cursor
    between its end and the end of the line. -/
structure PromptKept (cons cons' : Console) : Prop where
  prefixLen : cons'.lines.edit.prefixLen = cons.lines.edit.prefixLen
  bytes : (currentText cons').take cons.lines.edit.prefixLen = (currentText cons).take cons.lines.edit.prefixLen
  cursorGe : cons.lines.edit.prefixLen ≤ cons'.cursor
  cursorLe : cons'.cursor ≤ cons'.lines.edit.size

/-- A step back is not taken from the end of a prompt. -/
def PromptOk (cons : Console) : Act → Prop
  | .backspace | .cursorLeft => cons.cursor ≠ cons.lines.edit.prefixLen ∨ cons.lines.edit.prefixLen = 0
  | _ => True

instance (cons : Console) : (a : Act) → Decidable (PromptOk cons a)
  | .backspace | .cursorLeft => inferInstanceAs (Decidable (_ ∨ _))
  | .newline | .insert _ | .eraseToEnd | .cursorRight | .touch | .setCursor _ | .deleteAtCursor _ | .clearCurrentLine
  | .lockPrefix | .computeView _ _ _ => isTrue trivial

/-- The line's first `p` bytes are `prompt`, locked, and the cursor is past them. -/
structure Locked (cons : Console) (doc : Doc) (p : Nat) (prompt : List UInt8) : Prop extends Wf cons doc where
  prefixLen : cons.lines.edit.prefixLen = p
  bytes : doc.text.take p = prompt
  cursorGe : (p : Int) ≤ cons.cursor

theorem take_splice {t s : List UInt8} {p a b : Nat} (h : p ≤ a) (ht : a ≤ t.length) :
    (t.take a ++ s ++ t.drop b).take p = t.take p := by
  rw [List.append_assoc, List.take_append_of_le_length (by rw [List.length_take]; omega), List.take_take,
    Nat.min_eq_left h]

section

variable {cons : Console} {doc : Doc} {p : Nat} {prompt : List UInt8} (d : Drsize)

theorem Rep.currentText_eq (h : Rep cons.lines doc) : currentText cons = doc.text := by
  have hlast := h.getNth_last
  have hsz := h.size
  rw [show (doc.frozen.length : Int) = cons.lines.size - 1 by omega] at hlast
  simp only [currentText, nthText, hlast, Option.elim_some, if_true]
  exact holds_take h.edit.holds h.edit.size

/-- A layout stores row counts: the editor's own fields stay. -/
theorem updateRender_prefixLen (font : Font) (buf : Linebuf) (width : Int) (lazy : Bool) :
    (linebufUpdateRender d font buf width lazy).edit.prefixLen = buf.edit.prefixLen := by
  have hline : ∀ (w : Int) (b : Linebuf) (abs : Int), (updateRenderLine d font w b abs).edit.prefixLen = b.edit.prefixLen := by
    intro w b abs
    unfold updateRenderLine Linebuf.putNthLine
    split
    · rfl
    · simp only; split <;> rfl
  have hfold : ∀ (w start : Int) (l : List Nat) (b : Linebuf),
      (l.foldl (fun b (i : Nat) => updateRenderLine d font w b (start + i)) b).edit.prefixLen = b.edit.prefixLen := by
    intro w start l
    induction l with
    | nil => intro b; rfl
    | cons n l ih => intro b; rw [List.foldl_cons, ih, hline]
  exact hfold _ _ _ _

/-- An edit of the last line that leaves its first `p` bytes and the cursor past them. -/
theorem Locked.edited (h : Locked cons doc p prompt) {cons' : Console} {t : List UInt8} {r : Fline}
    (he : Edited cons doc cons' t r) (hp : cons'.lines.edit.prefixLen = cons.lines.edit.prefixLen)
    (ht : t.take p = doc.text.take p) (hc : (p : Int) ≤ cons'.cursor) : ∃ doc', Locked cons' doc' p prompt :=
  ⟨_, ⟨he.wf, hp.trans h.prefixLen, ht.trans h.bytes, hc⟩⟩

theorem Locked.step (h : Locked cons doc p prompt) {a : Act} (hn : a ≠ .newline) (hl : a ≠ .lockPrefix)
    (hok : PromptOk cons a) : ∃ doc', Locked (act d cons a) doc' p prompt := by
  have hpl := h.prefixLen
  have hge := h.cursorGe
  have hle := h.cursorLe
  have hpt := h.toWf.prefixLe
  cases a with
  | newline => exact absurd rfl hn
  | lockPrefix => exact absurd rfl hl
  | insert s =>
    by_cases hs : doc.text.length + s.length ≤ lineMaxLength
    · obtain ⟨-, ⟨r, he⟩, hc, hp⟩ := insert_spec h.toWf hs
      exact h.edited he hp (take_splice (by omega) (by omega)) (by rw [act, hc]; omega)
    · rw [act, insert_full h.toWf (by omega)]
      exact ⟨doc, h⟩
  | backspace =>
    by_cases hc : 0 < cons.cursor
    · obtain ⟨⟨r, he⟩, hcur, hp⟩ := backspace_spec h.toWf hc
      simp only [PromptOk] at hok
      rw [if_pos (by omega)] at he
      refine h.edited he hp ?_ (by rw [act, hcur]; omega)
      have := take_splice (s := []) (t := doc.text) (p := p) (a := cons.cursor.toNat - 1) (b := cons.cursor.toNat)
        (by omega) (by omega)
      rwa [List.append_nil] at this
    · rw [act, backspace, if_neg hc]
      exact ⟨doc, h⟩
  | eraseToEnd =>
    obtain ⟨⟨r, he⟩, hcur, hp⟩ := eraseToEnd_spec h.toWf
    exact h.edited he hp (by rw [List.take_take, Nat.min_eq_left (by omega)]) (by rw [act, hcur]; omega)
  | cursorLeft =>
    obtain ⟨he, hlines, hcur⟩ := cursorLeft_spec h.toWf
    simp only [PromptOk] at hok
    exact h.edited he (by rw [act, hlines]) rfl (by rw [act, hcur]; omega)
  | cursorRight =>
    obtain ⟨he, hlines, hcur⟩ := cursorRight_spec h.toWf
    exact h.edited he (by rw [act, hlines]) rfl (by rw [act, hcur]; omega)
  | touch => exact ⟨doc, ⟨⟨h.rep, h.cursorNonneg, h.cursorLe⟩, hpl, h.bytes, hge⟩⟩
  | setCursor pos =>
    obtain ⟨he, hp, hcur⟩ := setCursor_spec h.toWf pos
    exact h.edited he hp rfl (by rw [act, hcur]; split <;> omega)
  | deleteAtCursor n =>
    obtain ⟨k, ⟨r, he⟩, hk, hcur, hp⟩ := deleteAtCursor_spec h.toWf n
    refine h.edited he hp ?_ (by rw [act, hcur]; omega)
    have := take_splice (s := []) (t := doc.text) (p := p) (a := cons.cursor.toNat - k) (b := cons.cursor.toNat)
      (by omega) (by omega)
    rwa [List.append_nil] at this
  | clearCurrentLine =>
    obtain ⟨⟨r, he⟩, hcur, hp⟩ := clearCurrentLine_spec h.toWf
    exact h.edited he hp (by rw [List.take_take, Nat.min_eq_left (by omega)]) (by rw [act, hcur]; omega)
  | computeView font width lines =>
    obtain ⟨doc', hw, hv, -⟩ := computeView_step d h.toWf font width lines
    exact ⟨doc', ⟨hw, (updateRender_prefixLen d font cons.lines width (isLazy cons width)).trans hpl,
      by rw [hv.text]; exact h.bytes, hge⟩⟩

theorem Locked.run (h : Locked cons doc p prompt) {as : List Act} (hn : .newline ∉ as) (hl : .lockPrefix ∉ as)
    (hok : Along (act d) PromptOk cons as) : ∃ doc', Locked (run (act d) cons as) doc' p prompt := by
  induction as generalizing cons doc with
  | nil => exact ⟨doc, h⟩
  | cons a as ih =>
    obtain ⟨doc1, h1⟩ := h.step d (fun e => hn (e ▸ List.mem_cons_self)) (fun e => hl (e ▸ List.mem_cons_self)) hok.1
    exact ih h1 (fun hm => hn (List.mem_cons_of_mem _ hm)) (fun hm => hl (List.mem_cons_of_mem _ hm)) hok.2

theorem lockPrefix_locked (h : Wf cons doc) :
    ∃ p, Locked (consoleLockPrefix cons) doc p (doc.text.take p) := by
  obtain ⟨he, hc, hp⟩ := lockPrefix_spec h
  exact ⟨_, ⟨he.wf, rfl, rfl, by rw [hc, hp]⟩⟩

end

/-- After console_lock_prefix in a console a run reached: along every list of actions
    without a new line whose steps meet `PromptOk`, so at every moment of every sequence
    of operations up to the next new line and at its end, the prompt's bytes are as they
    were locked and the cursor is between their end and the line's. -/
theorem prompt_kept (d : Drsize) (backlog count : Int) (hc : 0 < i16 (max count 1)) {cons : Console}
    (h : consoleCreate backlog count = some cons) (before : List Op) {locked : Console}
    (hlk : locked = consoleLockPrefix (run (exec d) cons before)) (as : List Act) (hn : .newline ∉ as)
    (hl : .lockPrefix ∉ as) (hok : Along (act d) PromptOk locked as) :
    PromptKept locked (run (act d) locked as) ∧
      ∀ ops, runActs d locked ops = as → PromptKept locked (run (exec d) locked ops) := by
  obtain ⟨doc, hw, -⟩ := run_wf d hc h (runActs d cons before)
  rw [← run_exec_eq] at hw
  obtain ⟨p, h0⟩ := lockPrefix_locked hw
  rw [← hlk] at h0
  obtain ⟨doc', h1⟩ := h0.run d hn hl hok
  have hkept : PromptKept locked (run (act d) locked as) := by
    refine ⟨h1.prefixLen.trans h0.prefixLen.symm, ?_, ?_, ?_⟩
    · rw [h1.rep.currentText_eq, h0.rep.currentText_eq, h0.prefixLen, h1.bytes, h0.bytes]
    · rw [h0.prefixLen]; exact h1.cursorGe
    · rw [h1.rep.edit.size]; exact h1.cursorLe
  refine ⟨hkept, fun ops hops => ?_⟩
  rw [run_exec_eq, hops]; exact hkept

/-- A prompt of two bytes, a letter typed and taken back. -/
theorem prompt_kept_typing :
    ∃ cons, consoleCreate 8192 200 = some cons ∧
      PromptKept (consoleLockPrefix (run (exec oneByteRows) cons [.write [62, 32] 2]))
        (run (exec oneByteRows) (consoleLockPrefix (run (exec oneByteRows) cons [.write [62, 32] 2]))
          [.write [120, 8] 2]) := by
  refine ⟨_, rfl, (prompt_kept oneByteRows 8192 200 (by decide) rfl [.write [62, 32] 2] rfl
    [.insert [120], .backspace, .touch] (by decide) (by decide) (by decide)).2 _ (by decide)⟩

/-- A BS at the end of the prompt, then a letter: it lands inside the prompt. -/
theorem backspace_enters_prompt :
    ∃ cons, consoleCreate 8192 200 = some cons ∧
      let locked := consoleLockPrefix (run (exec oneByteRows) cons [.write [62, 32] 2])
      .newline ∉ runActs oneByteRows locked [.write [8, 120] 2] ∧
        ¬ PromptKept locked (run (exec oneByteRows) locked [.write [8, 120] 2]) := by
  refine ⟨_, rfl, by decide, fun hk => ?_⟩
  exact absurd hk.bytes (by decide)

end PythonUltra.Terminal
