/-
  PythonUltra.Terminal.Writes — console_write_raw stores what it is given.

  A write is cut where a line is full: the first part goes to the line being edited, at
  the cursor, and each further part to a line of its own (`Stored`). A new line may drop
  old ones, from the oldest end only, and only while the lines from there on exceed the
  line count or the backlog (`Exceeds`). The loop's fuel is enough: every round but one
  on a full line takes at least a byte. Neither write ever fails (`write_runs`).
-/

import PythonUltra.Terminal.Steps

namespace PythonUltra.Terminal

open PythonUltra.Lib PythonUltra.Lib.CMem PythonUltra.Lib.Machine

/-- The text of the `nth` line: of the line being edited, as long as the editor says; of
    a frozen one, as long as its header says. -/
def nthText (buf : Linebuf) (nth : Int) : List UInt8 :=
  (linebufGetNthLine buf nth).elim [] fun FL => FL.data.take (if nth = buf.size - 1 then buf.edit.size else FL.size)

/-- The texts of the lines held, oldest first. -/
def lineTexts (buf : Linebuf) : List (List UInt8) := (List.range buf.size.toNat).map fun (i : Nat) => nthText buf i

/-- These lines are more than the buffer may hold. -/
def Exceeds (buf : Linebuf) (texts : List (List UInt8)) : Prop :=
  buf.capacity < texts.length ∨ buf.backlogSize < texts.flatten.length

def Doc.frozenTexts (doc : Doc) : List (List UInt8) := doc.frozen.map fun FL => FL.data.take FL.size

def Doc.texts (doc : Doc) : List (List UInt8) := doc.frozenTexts ++ [doc.text]

theorem holds_take {l t : List UInt8} {n : Nat} (h : Holds 0 l t) (hn : n = t.length) : l.take n = t := by
  obtain ⟨rest, rfl⟩ := h
  rw [hn, List.take_left]

section

variable {buf : Linebuf} {cons : Console} {doc : Doc}

theorem Rep.lineTexts_eq (h : Rep buf doc) : lineTexts buf = doc.texts := by
  have hsz := h.size
  have hlen : doc.frozenTexts.length = doc.frozen.length := List.length_map _
  apply List.ext_getElem?
  intro i
  rw [lineTexts, List.getElem?_map, Doc.texts]
  rcases Nat.lt_trichotomy i doc.frozen.length with hlt | heq | hgt
  · have hi := List.getElem?_eq_getElem hlt
    rw [List.getElem?_range (by omega), Option.map_some, nthText, h.getNth_frozen hi, Option.elim_some,
      if_neg (by omega), List.getElem?_append_left (by omega), Doc.frozenTexts, List.getElem?_map, hi, Option.map_some]
  · subst heq
    rw [List.getElem?_range (by omega), Option.map_some, nthText, h.getNth_last, Option.elim_some, if_pos (by omega),
      List.getElem?_append_right (by omega), hlen, Nat.sub_self, List.getElem?_cons_zero,
      holds_take h.edit.holds h.edit.size]
  · rw [List.getElem?_eq_none (by simp only [List.length_range]; omega), Option.map_none,
      List.getElem?_eq_none (by simp only [List.length_append, hlen, List.length_singleton]; omega)]

/-! ## One new line -/

/-- `console_newline`, on texts: an empty line after the others, less the oldest `k`. -/
theorem newline_texts (h : Wf cons doc) :
    ∃ doc' k, Wf (consoleNewline cons) doc' ∧ Frame cons.lines (consoleNewline cons).lines ∧ doc'.text = [] ∧
      k ≤ doc.texts.length ∧ doc'.frozenTexts = doc.texts.drop k ∧
      ∀ j < k, Exceeds cons.lines ((doc.texts ++ [[]]).drop j) := by
  obtain ⟨doc', F, k, hw, hnl, hf⟩ := newline_step h
  have hsz := h.rep.size
  have hcl := h.rep.size_le
  have hF : F.data.take F.size = doc.text := holds_take hnl.frozenOf.holds hnl.frozenOf.size
  have hmap : (doc.frozen ++ [F]).map (fun FL => FL.data.take FL.size) = doc.texts := by
    simp only [List.map_append, List.map_cons, List.map_nil, hF]; rfl
  have hlen : doc.texts.length = doc.frozen.length + 1 := by simp [Doc.texts, Doc.frozenTexts]
  have hbytes : ∀ j, (doc.texts.drop j).flatten.length = (((doc.frozen ++ [F]).drop j).map Fline.size).sum := by
    intro j
    rw [List.length_flatten, ← hmap, ← List.map_drop, List.map_map]
    congr 1
    apply List.map_congr_left
    intro FL hFL
    rcases List.mem_append.mp (List.mem_of_mem_drop hFL) with hFL | hFL
    · obtain ⟨t, ht, hs, -⟩ := h.rep.frozenOk FL hFL
      rw [Function.comp_apply, holds_take ht hs, hs]
    · rw [List.mem_singleton.mp hFL, Function.comp_apply, hF, hnl.frozenOf.size]
  have hle : overflow cons.lines + k ≤ doc.texts.length := by
    have h1 := hnl.count
    have h2 := hnl.dropped
    omega
  refine ⟨doc', overflow cons.lines + k, hw, hf, hnl.text, hle, ?_, ?_⟩
  · rw [Doc.frozenTexts, hnl.frozen, List.map_drop, hmap]
  · intro j hj
    by_cases hov : j < overflow cons.lines
    · -- the line that made room for the new one
      unfold overflow at hov
      split at hov
      · obtain rfl : j = 0 := by omega
        left
        rw [List.drop_zero, List.length_append, hlen, List.length_singleton]; push_cast; omega
      · omega
    · right
      have := hnl.fewest (j - overflow cons.lines) (by omega)
      rw [show overflow cons.lines + (j - overflow cons.lines) = j by omega, ← hbytes] at this
      rw [List.drop_append_of_le_length (by omega), List.flatten_append, List.length_append]; push_cast; omega

/-! ## The loop -/

/-- What a write of `s` at the cursor leaves: `first` in the line that was being edited,
    the parts `created` in lines of their own, and the `k` oldest lines gone. -/
structure Stored (cons : Console) (doc : Doc) (s : List UInt8) (cons' : Console) (doc' : Doc) (first : List UInt8)
    (created : List (List UInt8)) (k : Nat) : Prop where
  wf : Wf cons' doc'
  frame : Frame cons.lines cons'.lines
  bytes : first ++ created.flatten = s
  texts : doc'.texts = (doc.frozenTexts ++
    (doc.text.take cons.cursor.toNat ++ first ++ doc.text.drop cons.cursor.toNat) :: created).drop k
  kept : k ≤ doc.frozen.length + created.length
  short : ∀ t ∈ created, t.length ≤ lineMaxLength
  fits : doc.text.length + first.length ≤ lineMaxLength
  full : created ≠ [] → doc.text.length + first.length = lineMaxLength
  exceeds : ∀ j < k, Exceeds cons.lines ((doc.frozenTexts ++
    (doc.text.take cons.cursor.toNat ++ first ++ doc.text.drop cons.cursor.toNat) :: created).drop j)
  cursor : cons.cursor = doc.text.length ∨ created ≠ [] → cons'.cursor = doc'.text.length

theorem roundSize_eq (h : Wf cons doc) (n : Nat) : roundSize cons n = min n (lineMaxLength - doc.text.length) := by
  have hs := h.rep.edit.size
  have hm := h.rep.edit.maxSize
  have hl := h.rep.edit.sizeLe
  rw [roundSize, h.lastLine, Option.elim_some, streditCapacity, hm, hs]
  omega

/-- Lines exceed the limits still when the last of them grows or more follow. -/
theorem Exceeds.mono {buf : Linebuf} {a b : List (List UInt8)} (h : Exceeds buf a) (hl : a.length ≤ b.length)
    (hb : a.flatten.length ≤ b.flatten.length) : Exceeds buf b := by
  rcases h with h | h
  · left; omega
  · right; omega

theorem Frame.exceeds {buf buf' : Linebuf} (h : Frame buf buf') {texts : List (List UInt8)} :
    Exceeds buf' texts ↔ Exceeds buf texts := by
  unfold Exceeds; rw [h.capacity, h.backlogSize]

theorem Stored.none (h : Wf cons doc) : Stored cons doc [] cons doc [] [] 0 where
  wf := h
  frame := Frame.refl _
  bytes := rfl
  texts := by rw [List.append_nil, List.take_append_drop]; rfl
  kept := Nat.zero_le _
  short := by simp
  fits := h.rep.edit.sizeLe
  full := by simp
  exceeds := by simp
  cursor := by simp

theorem Stored.one (h : Wf cons doc) {s : List UInt8} (hs : doc.text.length + s.length ≤ lineMaxLength) :
    ∃ doc', Stored cons doc s (insertRound cons s).2 doc' s [] 0 := by
  obtain ⟨-, ⟨r, he⟩, hc, -⟩ := insert_spec h hs
  refine ⟨_, he.wf, he.frame, List.append_nil s, rfl, Nat.zero_le _, by simp, hs, by simp,
    by simp, ?_⟩
  intro hcur
  rw [hc]
  have h0 := h.cursorNonneg
  have h1 := h.cursorLe
  rcases hcur with hcur | hcur
  · simp only [List.length_append, List.length_take, List.length_drop]; omega
  · exact absurd rfl hcur

/-- A round that fills the line, a new line, and the rest of the write. -/
theorem Stored.more {s1 s2 first : List UInt8} {cons' : Console} {doc1 doc' : Doc}
    {created : List (List UInt8)} {k1 k : Nat} (hs : doc.text.length + s1.length = lineMaxLength)
    (hw1 : Frame cons.lines (consoleNewline (insertRound cons s1).2).lines) (ht1 : doc1.text = [])
    (hk1 : k1 ≤ doc.frozen.length + 1)
    (hf1 : doc1.frozenTexts = (doc.frozenTexts ++
      [doc.text.take cons.cursor.toNat ++ s1 ++ doc.text.drop cons.cursor.toNat]).drop k1)
    (hx1 : ∀ j < k1, Exceeds cons.lines ((doc.frozenTexts ++
      [doc.text.take cons.cursor.toNat ++ s1 ++ doc.text.drop cons.cursor.toNat] ++ [[]]).drop j))
    (hrest : Stored (consoleNewline (insertRound cons s1).2) doc1 s2 cons' doc' first created k) :
    Stored cons doc (s1 ++ s2) cons' doc' s1 (first :: created) (k1 + k) := by
  set x := doc.text.take cons.cursor.toNat ++ s1 ++ doc.text.drop cons.cursor.toNat with hx
  have hlen : (doc.frozenTexts ++ [x]).length = doc.frozen.length + 1 := by simp [Doc.frozenTexts]
  have hl1 : doc1.frozen.length = doc.frozen.length + 1 - k1 := by
    have := congrArg List.length hf1
    rw [List.length_drop, hlen] at this
    simpa [Doc.frozenTexts] using this
  -- the lines of the rest, seen from the start of the write
  have hjoin : ∀ j, ((doc1.frozenTexts ++ (doc1.text.take (consoleNewline (insertRound cons s1).2).cursor.toNat ++ first ++
        doc1.text.drop (consoleNewline (insertRound cons s1).2).cursor.toNat) :: created).drop j) =
      (doc.frozenTexts ++ x :: first :: created).drop (k1 + j) := by
    intro j
    rw [ht1, hf1, List.take_nil, List.drop_nil, List.nil_append, List.append_nil,
      ← List.drop_append_of_le_length (by omega), List.drop_drop]
    simp
  refine ⟨hrest.wf, hw1.trans hrest.frame, ?_, ?_, ?_, ?_, by omega, fun _ => hs, ?_, fun _ => ?_⟩
  · rw [List.flatten_cons, hrest.bytes]
  · rw [hrest.texts, hjoin]
  · have := hrest.kept
    rw [List.length_cons]; omega
  · intro t ht
    rcases List.mem_cons.mp ht with rfl | ht
    · have := hrest.fits; omega
    · exact hrest.short t ht
  · intro j hj
    by_cases hlt : j < k1
    · have h1 : ∀ l : List (List UInt8), (doc.frozenTexts ++ x :: l).drop j = (doc.frozenTexts ++ [x]).drop j ++ l := by
        intro l
        rw [← List.drop_append_of_le_length (by omega)]; simp
      refine (hx1 j hlt).mono ?_ ?_
      · rw [h1, List.drop_append_of_le_length (by omega)]; simp
      · rw [h1, List.drop_append_of_le_length (by omega)]; simp
    · have := hrest.exceeds (j - k1) (by omega)
      rw [hjoin, show k1 + (j - k1) = j by omega] at this
      exact hw1.exceeds.mp this
  · refine hrest.cursor (Or.inl ?_)
    rw [ht1]; rfl

/-- The rounds left, with the fuel they need: a round on a full line takes no byte. -/
theorem rawLoop_stores {fuel : Nat} {s : List UInt8} (h : Wf cons doc)
    (hf : s.length + (if doc.text.length = lineMaxLength then 1 else 0) ≤ fuel ∨ s = []) :
    (writeRawLoop fuel cons s).1 = true ∧
      ∃ doc' first created k, Stored cons doc s (writeRawLoop fuel cons s).2 doc' first created k := by
  induction fuel generalizing cons doc s with
  | zero =>
    obtain rfl : s = [] := by
      rcases hf with hf | hf
      · exact List.length_eq_zero_iff.mp (by omega)
      · exact hf
    exact ⟨rfl, doc, [], [], 0, .none h⟩
  | succ fuel ih =>
    by_cases hs : s = []
    · subst hs
      exact ⟨rfl, doc, [], [], 0, .none h⟩
    have hpos := List.length_pos_iff.mpr hs
    have htl := h.rep.edit.sizeLe
    have hk := roundSize_eq h s.length
    have hf := hf.resolve_right hs
    simp only [writeRawLoop, if_neg hs]
    set k := roundSize cons s.length with hkdef
    have hkl : (s.take k).length = k := List.length_take_of_le (by omega)
    obtain ⟨hok, ⟨r, he⟩, -⟩ := insert_spec h (s := s.take k) (by omega)
    rw [if_pos hok]
    by_cases hlt : k < s.length
    · rw [if_pos hlt]
      obtain ⟨doc1, k1, hw1, hf1, ht1, hk1, hfz, hex⟩ := newline_texts he.wf
      have hfr := he.frame
      have hfull : doc.text.length + (s.take k).length = lineMaxLength := by omega
      obtain ⟨hok', doc', first, created, k2, hst⟩ := ih (s := s.drop k) hw1 (by
        left
        rw [ht1, List.length_drop, if_neg (by decide)]
        split at hf <;> omega)
      have hk1' : k1 ≤ doc.frozen.length + 1 := by simpa [Doc.texts, Doc.frozenTexts] using hk1
      have := Stored.more hfull (hfr.trans hf1) ht1 hk1' hfz (fun j hj => hfr.exceeds.mp (hex j hj)) hst
      rw [List.take_append_drop] at this
      exact ⟨hok', doc', _, _, _, this⟩
    · have hks : k = s.length := by omega
      rw [if_neg hlt, hks, List.drop_length, List.take_length]
      obtain ⟨doc', hst⟩ := Stored.one h (s := s) (by omega)
      have hnil : writeRawLoop fuel (insertRound cons s).2 [] = (true, (insertRound cons s).2) := by
        cases fuel <;> rfl
      rw [hnil]
      exact ⟨rfl, doc', _, _, _, hst⟩

theorem writeRaw_stores (h : Wf cons doc) (s : List UInt8) :
    (consoleWriteRaw cons s).1 = true ∧
      ∃ doc' first created k, Stored cons doc s (consoleWriteRaw cons s).2 doc' first created k := by
  unfold consoleWriteRaw
  rw [if_neg (by have := h.rep.size_pos; omega)]
  exact rawLoop_stores h (Or.inl (by split <;> omega))

/-- Every byte of the write is held, once and in order: what the line being edited held
    and what was written, cut into lines of at most 1024 bytes. `k` lines are gone from
    the oldest end, each because the lines from it on broke `limit`. -/
def Stores (limit : List (List UInt8) → Prop) (buf buf' : Linebuf) (s : List UInt8) : Prop :=
  ∃ old last first created k,
    lineTexts buf = old ++ [last] ∧
    lineTexts buf' = (old ++ (last ++ first) :: created).drop k ∧
    ((last ++ first) :: created).flatten = last ++ s ∧
    (∀ t ∈ (last ++ first) :: created, t.length ≤ lineMaxLength) ∧
    k ≤ old.length + created.length ∧
    ∀ j < k, limit ((old ++ (last ++ first) :: created).drop j)

/-- In every console a run reaches, with the cursor at the end of the last line, a write
    of any bytes is stored whole; lines go for the line count or the backlog only. -/
theorem writeRaw_stores_every_byte (d : Drsize) (backlog count : Int) (hc : 0 < i16 (max count 1)) {cons : Console}
    (h : consoleCreate backlog count = some cons) (ops : List Op)
    (hcur : (run (exec d) cons ops).cursor = (run (exec d) cons ops).lines.edit.size) (s : List UInt8) :
    (consoleWriteRaw (run (exec d) cons ops) s).1 = true ∧
      Stores (Exceeds (run (exec d) cons ops).lines) (run (exec d) cons ops).lines
        (consoleWriteRaw (run (exec d) cons ops) s).2.lines s := by
  obtain ⟨doc, hw, -⟩ := run_wf d hc h (runActs d cons ops)
  rw [← run_exec_eq] at hw
  generalize run (exec d) cons ops = c at hw hcur
  obtain ⟨hok, doc', first, created, k, hst⟩ := writeRaw_stores hw s
  have hq : c.cursor.toNat = doc.text.length := by rw [hcur, hw.rep.edit.size, Int.toNat_natCast]
  have hend : doc.text.take c.cursor.toNat ++ first ++ doc.text.drop c.cursor.toNat = doc.text ++ first := by
    rw [hq, List.take_length, List.drop_length, List.append_nil]
  refine ⟨hok, doc.frozenTexts, doc.text, first, created, k, hw.rep.lineTexts_eq, ?_, ?_, ?_, ?_, ?_⟩
  · rw [hst.wf.rep.lineTexts_eq, hst.texts, hend]
  · rw [List.flatten_cons, List.append_assoc, hst.bytes]
  · intro t ht
    rcases List.mem_cons.mp ht with rfl | ht
    · rw [List.length_append]; exact hst.fits
    · exact hst.short t ht
  · have := hst.kept
    simpa [Doc.frozenTexts] using this
  · intro j hj
    have := hst.exceeds j hj
    rwa [hend] at this

/-- 1030 bytes after two: the rest of a line, and eight bytes of a second. -/
theorem writeRaw_stores_two_lines :
    ∃ cons, consoleCreate 8192 200 = some cons ∧
      (consoleWriteRaw (run (exec oneByteRows) cons [.writeRaw [104, 105]]) (List.replicate 1030 97)).1 = true ∧
      Stores (Exceeds (run (exec oneByteRows) cons [.writeRaw [104, 105]]).lines)
        (run (exec oneByteRows) cons [.writeRaw [104, 105]]).lines
        (consoleWriteRaw (run (exec oneByteRows) cons [.writeRaw [104, 105]]) (List.replicate 1030 97)).2.lines
        (List.replicate 1030 97) :=
  ⟨_, rfl, writeRaw_stores_every_byte oneByteRows 8192 200 (by decide) rfl [.writeRaw [104, 105]]
    (by decide) _⟩

/-- A one-line console drops what it held though the text is well within the backlog. -/
theorem line_count_drops_within_backlog :
    ∃ cons, consoleCreate 4096 1 = some cons ∧ cons.cursor = cons.lines.edit.size ∧
      ¬ Stores (fun texts => cons.lines.backlogSize < texts.flatten.length) cons.lines
        (consoleWriteRaw cons (List.replicate 1025 97)).2.lines (List.replicate 1025 97) := by
  refine ⟨_, rfl, by decide, ?_⟩
  rintro ⟨old, last, first, created, k, h1, h2, h3, -, -, h6⟩
  have hbefore : old ++ [last] = [[]] := h1.symm.trans (by decide)
  obtain ⟨rfl, rfl⟩ : old = [] ∧ last = [] := by
    rcases old with _ | ⟨a, old⟩
    · exact ⟨rfl, by simpa using hbefore⟩
    · simp at hbefore
  have hafter : [[97]] = ((first :: created).drop k : List (List UInt8)) := Eq.trans (by decide +kernel) h2
  have hlen : (first :: created).flatten.length = 1025 := by
    rw [List.nil_append, List.nil_append] at h3
    rw [h3, List.length_replicate]
  have hk : k = 0 := by
    by_contra hk
    have := h6 0 (Nat.pos_of_ne_zero hk)
    rw [List.nil_append, List.nil_append, List.drop_zero, hlen] at this
    exact absurd this (by decide)
  rw [hk, List.drop_zero] at hafter
  rw [← hafter] at hlen
  exact absurd hlen (by decide)

/-! ## console_write -/

theorem control_length (cons : Console) (b : UInt8) (rest : List UInt8) :
    (consoleControl cons b rest).2.length ≤ rest.length := by
  unfold consoleControl
  by_cases h1 : b = 10
  · simp [h1]
  by_cases h2 : b = 8
  · simp [h2]
  by_cases h3 : b = 27
  · by_cases hk : rest.take 2 = [91, 75] <;> simp [h3, hk]
  · simp [h1, h2, h3]

theorem writeLoop_runs (d : Drsize) {fuel : Nat} {s : List UInt8} (h : Wf cons doc) (hf : s.length ≤ fuel) :
    (writeLoop fuel cons s).1 = true := by
  induction fuel generalizing cons doc s with
  | zero =>
    rw [List.length_eq_zero_iff.mp (by omega : s.length = 0)]; rfl
  | succ fuel ih =>
    unfold writeLoop
    split
    · rfl
    · obtain ⟨hok, doc1, first, created, k, hst⟩ := writeRaw_stores h (s.takeWhile plain)
      simp only [hok, if_true]
      have hsplit := congrArg List.length (List.takeWhile_append_dropWhile (p := plain) (l := s))
      rcases hd : s.dropWhile plain with _ | ⟨b, rest⟩
      · rfl
      · rw [hd, List.length_append, List.length_cons] at hsplit
        have hlen := control_length (consoleWriteRaw cons (s.takeWhile plain)).2 b rest
        -- the control byte's actions, and the render flag, keep the console well formed
        obtain ⟨doc2, hw2⟩ : ∃ doc, Wf (consoleControl (consoleWriteRaw cons (s.takeWhile plain)).2 b rest).1 doc := by
          rw [control_eq_run d]
          exact run_inv (P := fun c => ∃ doc, Wf c doc)
            (fun c a ⟨_, hw⟩ => (act_wf d hw a).imp fun _ h => h.1) ⟨_, hst.wf⟩ _
        have hw3 : Wf { (consoleControl (consoleWriteRaw cons (s.takeWhile plain)).2 b rest).1 with
            renderNeeded := true } doc2 := ⟨hw2.rep, hw2.cursorNonneg, hw2.cursorLe⟩
        exact ih hw3 (by omega)

/-- `console_write` handles every byte it is given. -/
theorem write_runs (d : Drsize) (h : Wf cons doc) (buf : List UInt8) (n : Int) : (consoleWrite cons buf n).1 = true :=
  writeLoop_runs d h (Nat.le_succ _)

end

end PythonUltra.Terminal
