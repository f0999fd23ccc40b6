/-
  PythonUltra.Terminal.Invariant — the line buffer's representation invariant over runs,
  and who frees its lines.

  `LinebufInv` is the invariant linebuf_t's comments state, on the record alone: the
  capacity, the window, the two totals, and the absolute numbers. A line block's address
  is its rank of creation, so `absolute + i` being the address of the `i`th held line
  says that the numbers are given in creation order, without gaps and never twice.

  The window, the total of sizes and the slots are right in every run. Three counters
  are narrower than what they count: the capacity (16 bits of an int line count), the
  total of rows (16 bits) and the absolute numbers (32 bits). `StepFits` says when a
  step stays within the last two.

  At the end `linebuf_deinit` frees the editor's block and whatever the slots point to.
  Dropped lines leave their pointer in the slot until the rotation comes round to it, so
  the sweep is right exactly for a buffer that is full, or that never dropped a line.
-/

import PythonUltra.Terminal.Steps
import Mathlib.Data.List.Induction

namespace PythonUltra.Terminal

open PythonUltra.Lib PythonUltra.Lib.CMem PythonUltra.Lib.Machine

/-- The lines a buffer holds, oldest first. -/
def heldLines (buf : Linebuf) : List Fline :=
  (List.range buf.size.toNat).filterMap fun (i : Nat) => linebufGetNthLine buf i

structure LinebufInv (buf : Linebuf) : Prop where
  capacity : 0 < buf.capacity
  size : 0 ≤ buf.size ∧ buf.size ≤ buf.capacity
  start : 0 ≤ buf.start ∧ buf.start < buf.capacity
  /-- Every line of the window is there. -/
  held : ((heldLines buf).length : Int) = buf.size
  sizes : ∀ FL ∈ (heldLines buf).dropLast, FrozenOk FL
  totalSize : buf.totalSizeExceptLast = ((heldLines buf).dropLast.map Fline.size).sum
  totalRendered : buf.totalRendered = ((heldLines buf).map Fline.renderLines).sum
  absolute : ∀ (i : Nat) FL, (heldLines buf)[i]? = some FL → (FL.ptr : Int) = buf.absolute + i
  /-- The next line created gets the next number. -/
  created : (buf.heap.next : Int) = buf.absolute + buf.size

theorem filterMap_range_getElem? {α : Type} (l : List α) : (List.range l.length).filterMap (l[·]?) = l := by
  induction l using List.reverseRecOn with
  | nil => rfl
  | append_singleton l x ih =>
    rw [List.length_append, List.length_singleton, List.range_succ, List.filterMap_append]
    congr 1
    · conv_rhs => rw [← ih]
      apply List.filterMap_congr
      intro i hi
      exact List.getElem?_append_left (List.mem_range.mp hi)
    · simp

section

variable {buf : Linebuf} {doc : Doc}

theorem Rep.heldLines_eq (h : Rep buf doc) : heldLines buf = doc.held := by
  have hlen := doc.held_length
  have hsz := h.size
  conv_rhs => rw [← filterMap_range_getElem? doc.held]
  unfold heldLines
  rw [show buf.size.toNat = doc.held.length by omega]
  apply List.filterMap_congr
  intro i hi
  have hi' : doc.held[i]? = some (doc.held.get ⟨i, List.mem_range.mp hi⟩) :=
    List.getElem?_eq_getElem (List.mem_range.mp hi)
  rw [hi']; exact h.getNth hi'

/-- The absolute numbers have not left the range of an `int`. -/
def NumbersFit (doc : Doc) : Prop := doc.dropped + doc.frozen.length + 2 ≤ 2147483647

/-- The rows of the held lines, added up, fit the 16-bit total. -/
def RowsFit (doc : Doc) : Prop := (doc.held.map Fline.renderLines).sum ≤ 32767

theorem Rep.absolute_eq (h : Rep buf doc) (hn : NumbersFit doc) : buf.absolute = doc.dropped + 1 := by
  unfold NumbersFit at hn
  rw [h.absolute]; exact i32_of_range (by omega) (by omega)

theorem Rep.end_eq (h : Rep buf doc) (hn : NumbersFit doc) : linebufEnd buf = doc.dropped + doc.frozen.length + 2 := by
  unfold linebufEnd
  have := h.size
  rw [h.absolute_eq hn, i32_of_range] <;> unfold NumbersFit at hn <;> omega

theorem Rep.linebufInv (h : Rep buf doc) (hn : NumbersFit doc) (hr : RowsFit doc) : LinebufInv buf := by
  have hcc := h.cap_cast
  have hsz := h.size
  have hab := h.absolute_eq hn
  have hdl : (heldLines buf).dropLast = doc.frozen := by rw [h.heldLines_eq]; simp [Doc.held]
  refine ⟨h.capPos, ⟨by omega, h.size_le⟩, ?_, ?_, ?_, ?_, ?_, ?_, ?_⟩
  · have := Nat.mod_lt doc.dropped (y := buf.capacity.toNat) (by have := h.capPos; omega)
    rw [h.start]; omega
  · rw [h.heldLines_eq, doc.held_length]; omega
  · rw [hdl]; exact h.frozenOk
  · rw [hdl]; exact h.total
  · unfold RowsFit at hr
    rw [h.rendered, h.heldLines_eq, i16_of_range]
    · simp [Doc.held]
    · omega
    · simp only [Doc.held, List.map_append, List.sum_append, List.map_cons, List.map_nil, List.sum_singleton] at hr
      omega
  · intro i FL hi
    rw [h.heldLines_eq] at hi
    rw [h.held_ptr hi, hab]; push_cast; ring
  · rw [h.next, hab, hsz]; push_cast; ring

end

/-! ## The invariant over runs -/

variable (d : Drsize)

/-- The rows of the held lines after a view: laid out anew from where the layout starts,
    as stored before it. -/
def viewRows (cons : Console) (font : Font) (width : Int) : List Nat :=
  (heldLines cons.lines).mapIdx fun i FL =>
    if renderStart cons.lines (isLazy cons width) ≤ cons.lines.absolute + i
      then u8 (flineRows d font (viewParams width) FL.data) else FL.renderLines

/-- The step stays within the counters' widths: a view, when the rows of the lines add
    up to at most 32767; a new line, when there is an `int` left to number it. -/
def StepFits (cons : Console) : Act → Prop
  | .newline => cons.lines.absolute + cons.lines.size < 2147483647
  | .computeView font width _ => (viewRows d cons font width).sum ≤ 32767
  | _ => True

instance (cons : Console) : (a : Act) → Decidable (StepFits d cons a)
  | .newline => inferInstanceAs (Decidable (_ < _))
  | .computeView _ _ _ => inferInstanceAs (Decidable (_ ≤ _))
  | .insert _ | .backspace | .eraseToEnd | .cursorLeft | .cursorRight | .touch | .setCursor _ | .deleteAtCursor _
  | .clearCurrentLine | .lockPrefix => isTrue trivial

/-- What a run that stays within the widths keeps. -/
structure Fits (cons : Console) (doc : Doc) : Prop extends Wf cons doc where
  numbers : NumbersFit doc
  rows : RowsFit doc

theorem sum_drop_le (l : List Nat) (k : Nat) : (l.drop k).sum ≤ l.sum := by
  conv_rhs => rw [← List.take_append_drop k l, List.sum_append]
  omega

theorem Fits.step {cons : Console} {doc : Doc} (h : Fits cons doc) {a : Act} (hok : StepFits d cons a) :
    ∃ doc', Fits (act d cons a) doc' := by
  have hn := h.numbers
  have hr := h.rows
  rcases act_cases d h.toWf a with ⟨t, r, he⟩ | ⟨rfl, doc', F, k, hw, hnl, -⟩ | ⟨font, width, lines, doc', rfl, hw, hv, -⟩
  · refine ⟨_, ⟨he.wf, hn, ?_⟩⟩
    simpa [RowsFit, Doc.held, he.renderLines] using hr
  · refine ⟨doc', ⟨hw, ?_, ?_⟩⟩
    · have hab := h.rep.absolute_eq hn
      have hsz := h.rep.size
      have := hnl.count
      simp only [StepFits] at hok
      unfold NumbersFit; omega
    · -- the fresh line has no rows yet, and dropping lines only lowers the sum
      have hsum : (doc'.held.map Fline.renderLines).sum ≤ (doc.held.map Fline.renderLines).sum := by
        have h1 := sum_drop_le ((doc.frozen ++ [F]).map Fline.renderLines) (overflow cons.lines + k)
        rw [← List.map_drop, ← hnl.frozen] at h1
        simpa [Doc.held, hnl.last, freshLine, hnl.frozenOf.renderLines] using h1
      unfold RowsFit at *; omega
  · refine ⟨doc', ⟨hw, ?_, ?_⟩⟩
    · unfold NumbersFit at *; rw [hv.dropped, hv.frozen_length]; exact hn
    · have hmap : doc'.held.map Fline.renderLines = viewRows d cons font width := by
        apply List.ext_getElem?
        intro i
        unfold viewRows
        rw [h.rep.heldLines_eq, List.getElem?_map, hv.held, List.getElem?_mapIdx]
        rcases hi : doc.held[i]? with _ | FL
        · simp
        · have hlt := (List.getElem?_eq_some_iff.mp hi).1
          have hend := h.rep.end_eq hn
          have hab := h.rep.absolute_eq hn
          have := doc.held_length
          by_cases hs : renderStart cons.lines (isLazy cons width) ≤ cons.lines.absolute + i
          · rw [if_pos ⟨hs, by omega⟩]; simp [hs, consoleFlineUpdateRenderLines]
          · rw [if_neg (fun hc => hs hc.1)]; simp [hs]
      unfold RowsFit
      rw [hmap]; exact hok

theorem create_fits {backlog count : Int} (hc : 0 < i16 (max count 1)) {cons : Console}
    (h : consoleCreate backlog count = some cons) : ∃ doc, Fits cons doc := by
  obtain ⟨cons0, hcr, hwf, -⟩ := create_wf backlog count hc
  obtain rfl : cons0 = cons := Option.some.inj (hcr.symm.trans h)
  exact ⟨_, ⟨hwf, by simp [NumbersFit], by simp [RowsFit, Doc.held, freshLine]⟩⟩

theorem run_fits {cons : Console} (h : ∃ doc, Fits cons doc) {as : List Act}
    (hok : Along (act d) (StepFits d) cons as) : ∃ doc, Fits (run (act d) cons as) doc :=
  hok.inv (P := fun c => ∃ doc, Fits c doc) (fun _ _ ⟨_, hf⟩ ha => hf.step d ha) h

/-- From a creation whose line count the capacity can hold, in every run whose steps stay
    within the counters' widths, the representation invariant holds after every
    operation, and after every action inside one. -/
theorem linebuf_invariant (backlog count : Int) (hc : 0 < i16 (max count 1)) {cons : Console}
    (h : consoleCreate backlog count = some cons) (ops : List Op)
    (hok : Along (act d) (StepFits d) cons (runActs d cons ops)) :
    LinebufInv (run (exec d) cons ops).lines ∧
      ∀ as bs, runActs d cons ops = as ++ bs → LinebufInv (run (act d) cons as).lines := by
  have hfits : ∀ as bs, runActs d cons ops = as ++ bs → LinebufInv (run (act d) cons as).lines := by
    intro as bs hab
    rw [hab] at hok
    obtain ⟨doc, hf⟩ := run_fits d (create_fits hc h) (along_append.mp hok).1
    exact hf.rep.linebufInv hf.numbers hf.rows
  refine ⟨?_, hfits⟩
  rw [run_exec_eq]
  exact hfits _ [] (List.append_nil _).symm

/-- A line typed, a new one, both laid out. -/
theorem linebuf_invariant_two_lines :
    ∃ cons, consoleCreate 8192 200 = some cons ∧
      LinebufInv (run (exec oneByteRows) cons [.writeRaw [104, 105], .newline, .computeView 1 100 4]).lines := by
  refine ⟨_, rfl, (linebuf_invariant oneByteRows 8192 200 (by decide) rfl _ ?_).1⟩
  decide

theorem create_capacity (backlog count : Int) {cons : Console} (h : consoleCreate backlog count = some cons) :
    cons.lines.capacity = i16 (max count 1) := by
  unfold consoleCreate linebufInit at h
  simp only at h
  rw [if_neg (by omega), Option.map_some, Option.some.injEq] at h
  rw [← h]
  exact ((newline_frame _).trans (cleanBacklog_frame _)).capacity

/-- A line count of 32768 becomes a capacity of -32768. -/
theorem large_line_count_breaks_capacity :
    ∃ cons, consoleCreate 8192 32768 = some cons ∧ ¬ LinebufInv (run (exec oneByteRows) cons []).lines := by
  refine ⟨_, rfl, fun hinv => ?_⟩
  have hpos := hinv.capacity
  rw [run_nil, create_capacity 8192 32768 rfl] at hpos
  exact absurd hpos (by decide)

/-! ## Freeing the lines -/

/-- No slot outside the window points anywhere. -/
def SlotsClear (buf : Linebuf) : Prop :=
  ∀ j < buf.capacity.toNat, (∀ i < buf.size.toNat, linebufNthToIndex buf (i : Nat) ≠ (j : Nat)) → buf.slot (j : Nat) = none

instance (buf : Linebuf) : Decidable (SlotsClear buf) := inferInstanceAs (Decidable (∀ j < buf.capacity.toNat, _))

/-- When the console is destroyed, each line block ever allocated has been freed once. -/
def FreedOnce (cons : Console) : Prop :=
  List.Perm (consoleDestroy cons).freed (List.range' 1 (cons.lines.heap.next - 1))

instance (cons : Console) : Decidable (FreedOnce cons) := inferInstanceAs (Decidable (List.Perm _ _))

section Destroy

variable {buf : Linebuf} {doc : Doc}

/-- The first line whose slot was not given to a later one. -/
def Doc.firstSlot (doc : Doc) (buf : Linebuf) : Nat := doc.dropped + doc.frozen.length + 1 - buf.capacity.toNat

theorem Rep.firstSlot_le (h : Rep buf doc) : doc.firstSlot buf ≤ doc.dropped := by
  have := h.lenLt; unfold Doc.firstSlot; omega

theorem foldl_free (l : List (Option Fline)) (hp : Heap) :
    (l.foldl Heap.free hp).freed = hp.freed ++ l.flatMap fun r => r.toList.map Fline.ptr := by
  induction l generalizing hp with
  | nil => simp
  | cons r l ih => rw [List.foldl_cons, ih]; simp [Heap.free]

theorem flatMap_numbers (f : Nat → List Nat) (lo n : Nat) (h : ∀ a, lo ≤ a → a < lo + n → f a = [a + 1]) :
    (List.range' lo n).flatMap f = List.range' (lo + 1) n := by
  induction n generalizing lo with
  | zero => rfl
  | succ n ih =>
    rw [List.range'_succ, List.flatMap_cons, h lo (Nat.le_refl _) (by omega),
      ih (lo + 1) (fun a h1 h2 => h a (by omega) (by omega)), List.range'_succ]
    rfl

/-- What the sweep over the slots frees: the stale pointers and the frozen lines. -/
theorem Rep.sweep (h : Rep buf doc) :
    List.Perm ((buf.lines.take buf.capacity.toNat).flatMap fun r => r.toList.map Fline.ptr)
      (List.range' (doc.firstSlot buf + 1) (doc.dropped - doc.firstSlot buf) ++
        List.range' (doc.dropped + 1) doc.frozen.length) := by
  have hlt := h.lenLt
  have hfs := h.firstSlot_le
  set c := buf.capacity.toNat with hc
  set lo := doc.firstSlot buf with hlo
  have hslots : buf.lines.take c = (List.range c).map fun j => (buf.lines[j]?).join := by
    apply List.ext_getElem
    · simp only [List.length_take, List.length_map, List.length_range]; have := h.room; omega
    · intro i h1 h2
      simp only [List.length_map, List.length_range] at h2
      have : i < buf.lines.length := by have := h.room; omega
      simp [this]
  have hperm := Ring.sweep_perm (fun j => (buf.lines[j]?).join) c lo
  rw [hslots]
  refine (hperm.flatMap_right _).trans (List.Perm.of_eq ?_)
  rw [List.flatMap_map]
  -- the span of numbers, cut at the window
  have hcut : List.range' lo c = List.range' lo (doc.dropped - lo) ++ (List.range' doc.dropped doc.frozen.length ++
      List.range' (doc.dropped + doc.frozen.length) (lo + c - (doc.dropped + doc.frozen.length))) := by
    have e1 : doc.frozen.length + (lo + c - (doc.dropped + doc.frozen.length)) = c - (doc.dropped - lo) := by
      unfold Doc.firstSlot at hlo; omega
    have e2 : List.range' doc.dropped (c - (doc.dropped - lo)) = List.range' (lo + (doc.dropped - lo)) (c - (doc.dropped - lo)) := by
      congr 1; omega
    rw [List.range'_append_1, e1, e2, List.range'_append_1]
    congr 1; unfold Doc.firstSlot at hlo; omega
  have hat : ∀ a, (buf.lines[a % c]?).join = buf.at a := fun _ => rfl
  rw [hcut, List.flatMap_append, List.flatMap_append]
  simp only [hat]
  rw [flatMap_numbers _ lo, flatMap_numbers _ doc.dropped]
  · have hnil : ∀ a ∈ List.range' (doc.dropped + doc.frozen.length) (lo + c - (doc.dropped + doc.frozen.length)),
        (buf.at a).toList.map Fline.ptr = [] := by
      intro a ha
      rw [List.mem_range'_1] at ha
      rcases Nat.eq_or_lt_of_le ha.1 with rfl | hgt
      · rw [h.lastSlot]; rfl
      · rw [h.unused a hgt (by unfold Doc.firstSlot at hlo; omega)]; rfl
    rw [List.flatMap_eq_nil_iff.mpr hnil, List.append_nil]
  · intro a h1 h2
    obtain ⟨FL, hFL⟩ : ∃ FL, doc.frozen[a - doc.dropped]? = some FL := ⟨_, List.getElem?_eq_getElem (by omega)⟩
    have e1 := h.slots _ FL hFL
    have e2 := h.ptrs _ FL hFL
    rw [show doc.dropped + (a - doc.dropped) = a by omega] at e1 e2
    rw [e1]; simp [e2]
  · intro a h1 h2
    obtain ⟨FL, e1, e2⟩ := h.stale a (by unfold Doc.firstSlot at hlo; omega) (by omega)
    rw [e1]; simp [e2]

/-- Everything freed by the end: the lines dropped, the last one, and the sweep. -/
theorem Rep.deinit_freed (h : Rep buf doc) :
    List.Perm (linebufDeinit buf).freed
      (List.range' 1 (doc.dropped + doc.frozen.length + 1) ++
        List.range' (doc.firstSlot buf + 1) (doc.dropped - doc.firstSlot buf)) := by
  unfold linebufDeinit
  rw [foldl_free]
  refine (h.sweep.append_left _).trans ?_
  have hl := h.lastPtr
  simp only [Heap.free, h.freed, h.edit.raw, Option.toList_some, List.map_cons, List.map_nil]
  rw [show doc.dropped + doc.frozen.length + 1 = doc.dropped + (doc.frozen.length + 1) by omega,
    ← List.range'_append_1, ← List.range'_append_1, List.append_assoc, List.append_assoc]
  refine List.Perm.append_left _ ?_
  rw [hl, show doc.dropped + doc.frozen.length + 1 = 1 + doc.dropped + doc.frozen.length by omega, Nat.add_comm 1 doc.dropped,
    show List.range' (doc.dropped + 1 + doc.frozen.length) 1 = [doc.dropped + 1 + doc.frozen.length] from rfl]
  refine List.perm_append_comm.trans ?_
  rw [List.append_assoc]
  exact List.perm_append_comm

/-- The slots outside the window are clear when no stale number is left. -/
theorem Rep.slotsClear_iff (h : Rep buf doc) : SlotsClear buf ↔ doc.firstSlot buf = doc.dropped := by
  have hfs := h.firstSlot_le
  have hlt := h.lenLt
  have hcc := h.cap_cast
  constructor
  · intro hclear
    by_contra hne
    -- a stale line's slot lies outside the window and is not NULL
    obtain ⟨FL, hat, -⟩ := h.stale (doc.firstSlot buf) (by unfold Doc.firstSlot; omega) (by omega)
    have hslot := hclear (doc.firstSlot buf % buf.capacity.toNat)
      (by have := Nat.mod_lt (doc.firstSlot buf) (y := buf.capacity.toNat) (by omega); omega) (fun i hi heq => ?_)
    · have : buf.slot ((doc.firstSlot buf % buf.capacity.toNat : Nat) : Int) = buf.at (doc.firstSlot buf) := rfl
      rw [this, hat] at hslot; cases hslot
    · rw [h.nthToIndex, Int.natCast_inj] at heq
      have hsz := h.size
      have := Ring.slot_inj (doc.firstSlot buf) buf.capacity.toNat (a := doc.dropped + i)
        (b := doc.firstSlot buf) (by omega) (by unfold Doc.firstSlot at *; omega) (Nat.le_refl _) (by omega) heq
      omega
  · intro hfs j hj hout
    obtain ⟨a, h1, h2, h3⟩ := Ring.exists_number buf.capacity.toNat doc.dropped (j := j) (by omega)
    have hat : buf.slot j = buf.at a := by rw [Linebuf.at, h3]; rfl
    rcases Nat.lt_or_ge a (doc.dropped + doc.frozen.length + 1) with hin | hge
    · exact absurd (by rw [h.nthToIndex, show doc.dropped + (a - doc.dropped) = a by omega, h3])
        (hout (a - doc.dropped) (by rw [h.size]; omega))
    · rw [hat]; exact h.unused a (by omega) (by unfold Doc.firstSlot at hfs; omega)

end Destroy

/-- In every run, `console_destroy` finds the slots outside the window clear if and only
    if the buffer is full then, or no line was freed before; and in the same cases it
    frees each line block exactly once. -/
theorem destroy_frees_once_iff (backlog count : Int) (hc : 0 < i16 (max count 1)) {cons : Console}
    (h : consoleCreate backlog count = some cons) (ops : List Op) :
    let c := run (exec d) cons ops
    (SlotsClear c.lines ↔ c.lines.size = c.lines.capacity ∨ c.lines.heap.freed = []) ∧
      (FreedOnce c ↔ c.lines.size = c.lines.capacity ∨ c.lines.heap.freed = []) := by
  intro c
  obtain ⟨doc, hw, -⟩ := run_wf d hc h (runActs d cons ops)
  rw [← run_exec_eq] at hw
  have hrep : Rep c.lines doc := hw.rep
  have hfs := hrep.firstSlot_le
  have hcc := hrep.cap_cast
  have hlt := hrep.lenLt
  -- the condition says that no stale pointer is left
  have hcond : (c.lines.size = c.lines.capacity ∨ c.lines.heap.freed = []) ↔ doc.firstSlot c.lines = doc.dropped := by
    rw [hrep.size, hrep.freed, List.range'_eq_nil_iff]
    unfold Doc.firstSlot; omega
  rw [hcond]
  refine ⟨hrep.slotsClear_iff, ?_⟩
  have hperm := hrep.deinit_freed
  unfold FreedOnce consoleDestroy
  rw [hrep.next]
  constructor
  · intro hp
    have := (hperm.symm.trans hp).length_eq
    simp only [List.length_append, List.length_range'] at this
    omega
  · intro hf
    rw [hf, Nat.sub_self, List.range'_zero, List.append_nil] at hperm
    exact hperm

/-- Two lines typed, none dropped: each is freed once. -/
theorem destroy_frees_two_lines_once :
    ∃ cons, consoleCreate 8192 200 = some cons ∧
      SlotsClear (run (exec oneByteRows) cons [.writeRaw [104, 105], .newline]).lines ∧
      FreedOnce (run (exec oneByteRows) cons [.writeRaw [104, 105], .newline]) := by
  refine ⟨_, rfl, ?_⟩
  have h := destroy_frees_once_iff oneByteRows 8192 200 (by decide) rfl
    [.writeRaw [104, 105], .newline]
  exact ⟨h.1.mpr (Or.inr (by decide)), h.2.mpr (Or.inr (by decide))⟩

/-- 1030 bytes and a new line overrun a backlog of 1024: the first line goes, its slot
    keeps the pointer, and the sweep frees it again. -/
theorem destroy_frees_a_dropped_line_twice :
    ∃ cons, consoleCreate 1024 200 = some cons ∧
      ¬ SlotsClear (run (exec oneByteRows) cons [.writeRaw (List.replicate 1030 97), .newline]).lines ∧
      ¬ FreedOnce (run (exec oneByteRows) cons [.writeRaw (List.replicate 1030 97), .newline]) := by
  refine ⟨_, rfl, ?_, ?_⟩ <;> decide +kernel

end PythonUltra.Terminal
