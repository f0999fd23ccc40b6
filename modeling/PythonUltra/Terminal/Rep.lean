/-
  PythonUltra.Terminal.Rep — what a line buffer stands for, and what its operations do
  to that.

  A `Doc` is the console's text as a reader sees it: how many lines were dropped from
  the oldest end, the frozen lines held, and the line being edited. Lines are numbered
  from 0 in the order they were created, over the buffer's whole life; line `a` lives in
  slot `a % capacity` (`Linebuf.at`). `Rep buf doc` relates the two. It fixes every
  counter of the buffer, what each slot holds (those outside the window too: a dropped
  line's slot still points to the freed block until the rotation reaches it), and what
  the allocator was asked to free.

  `newline_rep` and `recycle_rep` are the two operations that move lines: they drop from
  the oldest end only.
-/

import PythonUltra.Terminal.Linebuf
import PythonUltra.Lib.Ring
import Mathlib.Tactic.Ring

namespace PythonUltra.Terminal

open PythonUltra.Lib PythonUltra.Lib.CMem

structure Doc where
  dropped : Nat
  frozen : List Fline
  last : Fline
  text : List UInt8

/-- The slot of line number `a`. -/
def Linebuf.at (buf : Linebuf) (a : Nat) : Option Fline := (buf.lines[a % buf.capacity.toNat]?).join

/-- A frozen line's header agrees with its text, which is within the limit. -/
def FrozenOk (FL : Fline) : Prop :=
  ∃ t, Holds 0 FL.data t ∧ FL.size = t.length ∧ t.length ≤ lineMaxLength

/-- The frozen lines of a buffer, in their slots, with room for one more line. -/
structure Shelf (buf : Linebuf) (dropped : Nat) (frozen : List Fline) : Prop where
  capPos : 0 < buf.capacity
  capLe : buf.capacity ≤ 32767
  room : buf.capacity.toNat ≤ buf.lines.length
  backlog : (lineMaxLength : Int) ≤ buf.backlogSize
  start : buf.start = (dropped % buf.capacity.toNat : Nat)
  lenLt : frozen.length < buf.capacity.toNat
  slots : ∀ i FL, frozen[i]? = some FL → buf.at (dropped + i) = some FL
  stale : ∀ a, dropped + frozen.length < a + buf.capacity.toNat → a < dropped →
    ∃ FL, buf.at a = some FL ∧ FL.ptr = a + 1
  unused : ∀ a, dropped + frozen.length < a → a < buf.capacity.toNat → buf.at a = none
  frozenOk : ∀ FL ∈ frozen, FrozenOk FL
  ptrs : ∀ i FL, frozen[i]? = some FL → FL.ptr = dropped + i + 1
  freed : buf.heap.freed = List.range' 1 dropped
  absolute : buf.absolute = i32 (dropped + 1)
  total : buf.totalSizeExceptLast = ((frozen.map Fline.size).sum : Nat)

structure Rep (buf : Linebuf) (doc : Doc) : Prop extends Shelf buf doc.dropped doc.frozen where
  size : buf.size = doc.frozen.length + 1
  lastSlot : buf.at (doc.dropped + doc.frozen.length) = none
  edit : Edits buf.edit doc.last doc.text
  lastPtr : doc.last.ptr = doc.dropped + doc.frozen.length + 1
  next : buf.heap.next = doc.dropped + doc.frozen.length + 2
  rendered : buf.totalRendered = i16 (((doc.frozen.map Fline.renderLines).sum + doc.last.renderLines : Nat))

/-- The lines held, oldest first. -/
def Doc.held (doc : Doc) : List Fline := doc.frozen ++ [doc.last]

theorem Doc.held_length (doc : Doc) : doc.held.length = doc.frozen.length + 1 := by simp [Doc.held]

/-! ## Slots and indices -/

section Slots

variable {buf : Linebuf} {dropped : Nat} {frozen : List Fline}

theorem Shelf.cap_cast (h : Shelf buf dropped frozen) : (buf.capacity.toNat : Int) = buf.capacity := by
  have := h.capPos; omega

theorem Shelf.nthToIndex (h : Shelf buf dropped frozen) (i : Nat) :
    linebufNthToIndex buf i = ((dropped + i) % buf.capacity.toNat : Nat) := by
  unfold linebufNthToIndex
  rw [h.start, ← h.cap_cast, ← Int.natCast_add, Int.toNat_natCast, ← Int.ofNat_tmod, Nat.mod_add_mod]

theorem Shelf.indexAdd (h : Shelf buf dropped frozen) (k : Nat) :
    linebufIndexAdd buf buf.start k = ((dropped + k) % buf.capacity.toNat : Nat) := by
  unfold linebufIndexAdd
  rw [h.start, ← h.cap_cast, ← Int.natCast_add, ← Int.natCast_add, Int.toNat_natCast, ← Int.ofNat_tmod,
    Ring.add_cap_mod]

theorem Shelf.slot_eq_at (h : Shelf buf dropped frozen) (i : Nat) :
    buf.slot (linebufNthToIndex buf i) = buf.at (dropped + i) := by
  rw [h.nthToIndex]; rfl

/-- A store to the slot of line `b` is seen at the lines that share its slot. -/
theorem at_set (buf buf' : Linebuf) (hc : buf'.capacity = buf.capacity) (hpos : 0 < buf.capacity)
    (hroom : buf.capacity.toNat ≤ buf.lines.length) {b : Nat} {v : Option Fline}
    (hl : buf'.lines = buf.lines.set (b % buf.capacity.toNat) v) (a : Nat) :
    buf'.at a = if a % buf.capacity.toNat = b % buf.capacity.toNat then v else buf.at a := by
  unfold Linebuf.at
  have hb : b % buf.capacity.toNat < buf.lines.length :=
    Nat.lt_of_lt_of_le (Nat.mod_lt _ (by omega)) hroom
  rw [hl, hc, List.getElem?_set]
  by_cases e : a % buf.capacity.toNat = b % buf.capacity.toNat
  · simp [e, hb]
  · simp [e, Ne.symm e]

end Slots

namespace Rep

variable {buf : Linebuf} {doc : Doc}

theorem getNth_frozen (h : Rep buf doc) {i : Nat} {FL : Fline} (hi : doc.frozen[i]? = some FL) :
    linebufGetNthLine buf i = some FL := by
  have hlt : i < doc.frozen.length := (List.getElem?_eq_some_iff.mp hi).1
  unfold linebufGetNthLine
  rw [if_neg (by rw [h.size]; omega), if_neg (by rw [h.size]; omega), h.slot_eq_at]
  exact h.slots i FL hi

theorem getNth_last (h : Rep buf doc) : linebufGetNthLine buf doc.frozen.length = some doc.last := by
  unfold linebufGetNthLine
  rw [if_neg (by rw [h.size]; omega), if_pos (by rw [h.size]; omega)]
  exact h.edit.raw

theorem getNth (h : Rep buf doc) {i : Nat} {FL : Fline} (hi : doc.held[i]? = some FL) :
    linebufGetNthLine buf i = some FL := by
  rcases Nat.lt_or_ge i doc.frozen.length with hlt | hge
  · rw [Doc.held, List.getElem?_append_left hlt] at hi
    exact h.getNth_frozen hi
  · have hlen : i < doc.held.length := (List.getElem?_eq_some_iff.mp hi).1
    simp only [Doc.held, List.length_append, List.length_singleton] at hlen
    obtain rfl : i = doc.frozen.length := by omega
    simp only [Doc.held, List.getElem?_append_right (Nat.le_refl _), Nat.sub_self, List.getElem?_cons_zero,
      Option.some.injEq] at hi
    rw [h.getNth_last, hi]

theorem size_pos (h : Rep buf doc) : 0 < buf.size := by rw [h.size]; omega

theorem size_le (h : Rep buf doc) : buf.size ≤ buf.capacity := by
  have := h.lenLt; have := h.cap_cast; rw [h.size]; omega

theorem getLastLine (h : Rep buf doc) : linebufGetLastLine buf = some buf.edit := if_pos h.size_pos

theorem withEdit (h : Rep buf doc) {ed : Stredit} {r : Fline} {t : List UInt8} (he : Edits ed r t)
    (hp : r.ptr = doc.last.ptr) (hr : r.renderLines = doc.last.renderLines) :
    Rep { buf with edit := ed } { doc with last := r, text := t } where
  toShelf := ⟨h.capPos, h.capLe, h.room, h.backlog, h.start, h.lenLt, h.slots, h.stale, h.unused, h.frozenOk,
    h.ptrs, h.freed, h.absolute, h.total⟩
  size := h.size
  lastSlot := h.lastSlot
  edit := he
  lastPtr := hp ▸ h.lastPtr
  next := h.next
  rendered := by rw [hr]; exact h.rendered

end Rep

/-! ## Dropping the oldest lines -/

section Recycle

variable {buf : Linebuf} {doc : Doc}

theorem Rep.held_ptr (h : Rep buf doc) {i : Nat} {FL : Fline} (hi : doc.held[i]? = some FL) :
    FL.ptr = doc.dropped + i + 1 := by
  rcases Nat.lt_or_ge i doc.frozen.length with hlt | hge
  · rw [Doc.held, List.getElem?_append_left hlt] at hi
    exact h.ptrs i FL hi
  · have hlen : i < doc.held.length := (List.getElem?_eq_some_iff.mp hi).1
    simp only [Doc.held, List.length_append, List.length_singleton] at hlen
    obtain rfl : i = doc.frozen.length := by omega
    simp only [Doc.held, List.getElem?_append_right (Nat.le_refl _), Nat.sub_self, List.getElem?_cons_zero,
      Option.some.injEq] at hi
    rw [← hi, h.lastPtr]

theorem Rep.held_ptrs (h : Rep buf doc) (k : Nat) (hk : k ≤ doc.held.length) :
    (doc.held.take k).map Fline.ptr = List.range' (doc.dropped + 1) k := by
  apply List.ext_getElem
  · simp only [List.length_map, List.length_take, List.length_range']; omega
  · intro i h1 h2
    simp only [List.length_range'] at h2
    rw [List.getElem_map, List.getElem_take, List.getElem_range',
      h.held_ptr (List.getElem?_eq_getElem (by omega))]
    omega

theorem take_succ_sum (f : Fline → Nat) {l : List Fline} {k : Nat} {x : Fline} (hk : l[k]? = some x) :
    ((l.take (k + 1)).map f).sum = ((l.take k).map f).sum + f x := by
  rw [List.take_add_one, hk]; simp

/-- The loop of `linebuf_recycle_oldest_lines`, after `k` turns. -/
theorem Rep.recycle_fold (h : Rep buf doc) (k : Nat) (hk : k ≤ doc.held.length) :
    (List.range k).foldl recycleLine buf =
      { buf with
        totalRendered := i16 ((doc.held.map Fline.renderLines).sum - ((doc.held.take k).map Fline.renderLines).sum)
        totalSizeExceptLast := buf.totalSizeExceptLast - ((doc.frozen.take k).map Fline.size).sum
        heap := { buf.heap with freed := buf.heap.freed ++ (doc.held.take k).map Fline.ptr } } := by
  induction k with
  | zero =>
    have hr : i16 (doc.held.map Fline.renderLines).sum = buf.totalRendered := by
      rw [h.rendered]; simp [Doc.held]
    simp only [List.range_zero, List.foldl_nil, List.take_zero, List.map_nil, List.sum_nil, Nat.cast_zero, Int.sub_zero, List.append_nil, hr]
  | succ k ih =>
    obtain ⟨FL, hFL⟩ : ∃ FL, doc.held[k]? = some FL := ⟨_, List.getElem?_eq_getElem (by omega)⟩
    have hget := h.getNth hFL
    have hr := take_succ_sum Fline.renderLines hFL
    have hlen := doc.held_length
    rw [List.range_succ, List.foldl_append, ih (by omega)]
    simp only [List.foldl_cons, List.foldl_nil, recycleLine]
    -- the counters changed so far are not read by the lookup
    generalize hb : Linebuf.mk _ _ _ _ _ _ _ _ _ _ _ = X
    have hX : linebufGetNthLine X k = some FL := by rw [← hget, ← hb]; rfl
    simp only [hX]
    subst hb
    congr 1
    · simp only [i16_sub]; congr 1; rw [hr]; push_cast; ring
    · by_cases hl : k = doc.frozen.length
      · subst hl
        rw [if_neg (by simp [h.size]), List.take_of_length_le (Nat.le_refl _), List.take_of_length_le (by omega)]
      · have hf : doc.frozen[k]? = some FL := by
          rw [← hFL, Doc.held, List.getElem?_append_left (by omega)]
        have hs := take_succ_sum Fline.size hf
        rw [if_pos (by rw [h.size]; omega), hs]; push_cast; ring
    · simp only [Heap.free, List.take_add_one, hFL]; simp

/-- What `linebuf_recycle_oldest_lines` leaves, when it drops `k` held lines. -/
theorem Rep.recycle_eq (h : Rep buf doc) {k : Nat} (hk : k ≤ doc.held.length) (h0 : 0 < k) :
    linebufRecycleOldestLines buf k =
      { buf with
        totalRendered := i16 ((doc.held.map Fline.renderLines).sum - ((doc.held.take k).map Fline.renderLines).sum)
        totalSizeExceptLast := buf.totalSizeExceptLast - ((doc.frozen.take k).map Fline.size).sum
        heap := { buf.heap with freed := List.range' 1 (doc.dropped + k) }
        start := ((doc.dropped + k) % buf.capacity.toNat : Nat)
        size := doc.frozen.length + 1 - k
        absolute := i32 (doc.dropped + k + 1) } := by
  have hlen := doc.held_length
  have hcap := h.size_le
  have hcl := h.capLe
  have hsz := h.size
  unfold linebufRecycleOldestLines
  rw [Int.min_eq_left (by omega), if_neg (by omega), Int.toNat_natCast, h.recycle_fold k hk]
  simp only [linebufIndexAdd]
  have hi := h.indexAdd k
  unfold linebufIndexAdd at hi
  rw [hi, h.freed, h.held_ptrs k hk, h.absolute, i32_add, hsz, i16_of_range (by omega) (by omega)]
  congr 2
  · ring
  · rw [← List.range'_append_1, Nat.add_comm 1]

/-- The slots after `k` frozen lines are dropped: they join the stale ones. -/
theorem Rep.recycle_shelf (h : Rep buf doc) {k : Nat} (hk : k ≤ doc.frozen.length) (h0 : 0 < k) :
    Shelf (linebufRecycleOldestLines buf k) (doc.dropped + k) (doc.frozen.drop k) := by
  have hlt := h.lenLt
  rw [h.recycle_eq (by simp [Doc.held]; omega) h0]
  refine ⟨h.capPos, h.capLe, h.room, h.backlog, rfl, ?_, ?_, ?_, ?_, ?_, ?_, rfl, ?_, ?_⟩
  · simp only [List.length_drop]; omega
  · intro i FL hi
    rw [List.getElem?_drop] at hi
    have := h.slots _ FL hi
    rw [← Nat.add_assoc] at this
    exact this
  · intro a ha1 ha2
    simp only [List.length_drop] at ha1
    rcases Nat.lt_or_ge a doc.dropped with hlt | hge
    · exact h.stale a (by omega) hlt
    · -- one of the lines just dropped: its slot was not cleared
      obtain ⟨FL, hFL⟩ : ∃ FL, doc.frozen[a - doc.dropped]? = some FL :=
        ⟨_, List.getElem?_eq_getElem (by omega)⟩
      have h1 := h.slots _ FL hFL
      have h2 := h.ptrs _ FL hFL
      rw [show doc.dropped + (a - doc.dropped) = a by omega] at h1 h2
      exact ⟨FL, h1, h2⟩
  · intro a ha1 ha2
    simp only [List.length_drop] at ha1
    exact h.unused a (by omega) ha2
  · intro FL hFL; exact h.frozenOk FL (List.mem_of_mem_drop hFL)
  · intro i FL hi
    rw [List.getElem?_drop] at hi
    rw [h.ptrs _ FL hi]; omega
  · simp only; congr 1
  · have := h.total
    have hs : (doc.frozen.map Fline.size).sum =
        ((doc.frozen.take k).map Fline.size).sum + ((doc.frozen.drop k).map Fline.size).sum := by
      rw [← List.sum_append, ← List.map_append, List.take_append_drop]
    simp only [this, hs]; push_cast; ring

/-- Dropping `k` frozen lines from the oldest end. -/
theorem recycle_rep (h : Rep buf doc) {k : Nat} (hk : k ≤ doc.frozen.length) :
    Rep (linebufRecycleOldestLines buf k)
      { doc with dropped := doc.dropped + k, frozen := doc.frozen.drop k } := by
  rcases Nat.eq_zero_or_pos k with rfl | h0
  · have : linebufRecycleOldestLines buf (0 : Nat) = buf := by
      unfold linebufRecycleOldestLines
      rw [if_pos (by have := h.size_pos; omega)]
    rw [this]; simpa using h
  · have hlen := doc.held_length
    refine { toShelf := h.recycle_shelf hk h0, size := ?_, lastSlot := ?_, edit := ?_, lastPtr := ?_, next := ?_,
             rendered := ?_ }
    all_goals try rw [h.recycle_eq (by omega) h0]
    · simp only [List.length_drop]; omega
    · have := h.lastSlot
      simp only [List.length_drop]
      rw [show doc.dropped + k + (doc.frozen.length - k) = doc.dropped + doc.frozen.length by omega]
      exact this
    · exact h.edit
    · have := h.lastPtr; simp only [List.length_drop]; omega
    · have := h.next; simp only [List.length_drop]; omega
    · simp only [Doc.held, List.map_append, List.sum_append, List.take_append_of_le_length hk, List.map_cons,
        List.map_nil, List.sum_singleton]
      have hs : (doc.frozen.map Fline.renderLines).sum =
          ((doc.frozen.take k).map Fline.renderLines).sum + ((doc.frozen.drop k).map Fline.renderLines).sum := by
        rw [← List.sum_append, ← List.map_append, List.take_append_drop]
      rw [hs]; congr 1; push_cast; ring

end Recycle

/-! ## A new line -/

section Newline

variable {buf : Linebuf} {doc : Doc}

/-- The block `stredit_init` allocates for a new line. -/
def freshLine (ptr : Nat) : Fline := ⟨ptr, 0, 0, List.replicate 17 0⟩

/-- The last line, frozen: its address and rows kept, its header's size now its text's. -/
structure FrozenOf (doc : Doc) (F : Fline) : Prop where
  ptr : F.ptr = doc.last.ptr
  renderLines : F.renderLines = doc.last.renderLines
  holds : Holds 0 F.data doc.text
  size : F.size = doc.text.length

/-- Freezing the last line puts it in its slot, which was NULL (the source asserts it). -/
theorem Rep.freezeLast_shelf (h : Rep buf doc) (hlt : buf.size < buf.capacity) :
    ∃ F, FrozenOf doc F ∧ Shelf (freezeLast buf) doc.dropped (doc.frozen ++ [F]) ∧
      buf.slot (linebufNthToIndex buf (buf.size - 1)) = none ∧ (freezeLast buf).size = buf.size ∧
      (freezeLast buf).heap = buf.heap ∧ (freezeLast buf).totalRendered = buf.totalRendered := by
  obtain ⟨d, hd, hholds⟩ := h.edit.freeze
  have hsz := h.size
  have hcc := h.cap_cast
  have hes : u16 buf.edit.size = doc.text.length := by
    have := h.edit.sizeLe
    rw [h.edit.size]; simp only [lineMaxLength] at this; exact u16_of_lt (by omega)
  have hidx : linebufNthToIndex buf (buf.size - 1) =
      ((doc.dropped + doc.frozen.length) % buf.capacity.toNat : Nat) := by
    rw [hsz, show (doc.frozen.length : Int) + 1 - 1 = (doc.frozen.length : Nat) by omega]; exact h.nthToIndex _
  set F : Fline := { doc.last with data := d, size := doc.text.length } with hF
  have heq : freezeLast buf =
      { buf with
        totalSizeExceptLast := buf.totalSizeExceptLast + buf.edit.size
        edit := .zero
        lines := buf.lines.set ((doc.dropped + doc.frozen.length) % buf.capacity.toNat) (some F) } := by
    unfold freezeLast
    rw [if_pos h.size_pos]
    simp only [hd, hes, hidx, Int.toNat_natCast, Option.map_some, hF]
    rfl
  have hat := at_set buf (freezeLast buf) (by rw [heq]) h.capPos h.room
    (b := doc.dropped + doc.frozen.length) (v := some F) (by rw [heq])
  -- lines of the window other than the last keep their slot
  have hne : ∀ a, doc.dropped + doc.frozen.length < a + buf.capacity.toNat → a < doc.dropped + doc.frozen.length →
      (freezeLast buf).at a = buf.at a := by
    intro a h1 h2
    rw [hat, if_neg]
    intro e
    have := Ring.slot_inj (doc.dropped + doc.frozen.length + 1 - buf.capacity.toNat) buf.capacity.toNat
      (by omega) (by omega) (by omega) (by have := h.capPos; omega) e
    omega
  have hfc : (freezeLast buf).capacity = buf.capacity := by rw [heq]
  refine ⟨F, ⟨rfl, rfl, hholds, rfl⟩, ?_, ?_, by rw [heq], by rw [heq], by rw [heq]⟩
  · refine ⟨hfc ▸ h.capPos, hfc ▸ h.capLe, ?_, ?_, ?_, ?_, ?_, ?_, ?_, ?_, ?_, ?_, ?_, ?_⟩
    · have := h.room; rw [heq]; simpa using this
    · rw [heq]; exact h.backlog
    · rw [heq]; exact h.start
    · rw [hfc]; simp only [List.length_append, List.length_singleton]; omega
    · intro i FL hi
      rcases Nat.lt_or_ge i doc.frozen.length with hl | hg
      · rw [List.getElem?_append_left hl] at hi
        rw [hne _ (by omega) (by omega)]
        exact h.slots i FL hi
      · have hil := (List.getElem?_eq_some_iff.mp hi).1
        simp only [List.length_append, List.length_singleton] at hil
        obtain rfl : i = doc.frozen.length := by omega
        simp only [List.getElem?_append_right (Nat.le_refl _), Nat.sub_self, List.getElem?_cons_zero] at hi
        rw [hat, if_pos rfl, hi]
    · intro a h1 h2
      simp only [hfc, List.length_append, List.length_singleton] at h1
      rw [hne a (by omega) (by omega)]
      exact h.stale a (by omega) h2
    · intro a h1 h2
      simp only [List.length_append, List.length_singleton] at h1
      rw [hfc] at h2
      have hmod : a % buf.capacity.toNat ≠ (doc.dropped + doc.frozen.length) % buf.capacity.toNat := by
        rw [Nat.mod_eq_of_lt h2, Nat.mod_eq_of_lt (by omega)]; omega
      rw [hat, if_neg hmod]
      exact h.unused a (by omega) h2
    · intro FL hFL
      rcases List.mem_append.mp hFL with hFL | hFL
      · exact h.frozenOk FL hFL
      · obtain rfl := List.mem_singleton.mp hFL
        exact ⟨doc.text, hholds, rfl, h.edit.sizeLe⟩
    · intro i FL hi
      rcases Nat.lt_or_ge i doc.frozen.length with hl | hg
      · rw [List.getElem?_append_left hl] at hi
        exact h.ptrs i FL hi
      · have hil := (List.getElem?_eq_some_iff.mp hi).1
        simp only [List.length_append, List.length_singleton] at hil
        obtain rfl : i = doc.frozen.length := by omega
        simp only [List.getElem?_append_right (Nat.le_refl _), Nat.sub_self, List.getElem?_cons_zero,
          Option.some.injEq] at hi
        rw [← hi]; exact h.lastPtr
    · rw [heq]; exact h.freed
    · rw [heq]; exact h.absolute
    · rw [heq]
      simp only [h.total, h.edit.size, List.map_append, List.sum_append, List.map_cons, List.map_nil,
        List.sum_singleton, hF]
      push_cast; ring
  · rw [hidx]; exact h.lastSlot

/-- The end of `linebuf_newline`: a fresh line after the frozen ones. -/
def addLine (buf : Linebuf) : Linebuf :=
  let buf := { buf with size := i16 (buf.size + 1) }
  { buf with
    lines := buf.lines.set (linebufNthToIndex buf (buf.size - 1)).toNat none
    edit := streditInit buf.heap.next 16 flineSize lineMaxLength
    heap := { buf.heap with next := buf.heap.next + 1 } }

theorem newline_eq (buf : Linebuf) :
    linebufNewline buf = addLine (freezeLast (linebufRecycleOldestLines buf (buf.size - buf.capacity + 1))) := rfl

theorem Shelf.addLine_rep {dropped : Nat} {frozen : List Fline} (h : Shelf buf dropped frozen)
    (hsize : buf.size = frozen.length) (hnext : buf.heap.next = dropped + frozen.length + 1)
    (hrend : buf.totalRendered = i16 ((frozen.map Fline.renderLines).sum : Nat)) :
    Rep (addLine buf) ⟨dropped, frozen, freshLine (dropped + frozen.length + 1), []⟩ := by
  have hcc := h.cap_cast
  have hcl := h.capLe
  have hlt := h.lenLt
  have hsz : i16 (buf.size + 1) = frozen.length + 1 := by rw [hsize]; exact i16_of_range (by omega) (by omega)
  have heq : addLine buf =
      { buf with
        size := frozen.length + 1
        lines := buf.lines.set ((dropped + frozen.length) % buf.capacity.toNat) none
        edit := streditInit (dropped + frozen.length + 1) 16 flineSize lineMaxLength
        heap := { buf.heap with next := dropped + frozen.length + 2 } } := by
    have hidx := h.nthToIndex frozen.length
    unfold addLine
    simp only [hsz, hnext, linebufNthToIndex] at hidx ⊢
    rw [show (frozen.length : Int) + 1 - 1 = (frozen.length : Nat) by omega, hidx, Int.toNat_natCast]
  have hat := at_set buf (addLine buf) (by rw [heq]) h.capPos h.room
    (b := dropped + frozen.length) (v := none) (by rw [heq])
  have hne : ∀ a, dropped + frozen.length < a + buf.capacity.toNat → a < dropped + frozen.length →
      (addLine buf).at a = buf.at a := by
    intro a h1 h2
    rw [hat, if_neg]
    intro e
    have := Ring.slot_inj (dropped + frozen.length + 1 - buf.capacity.toNat) buf.capacity.toNat
      (by omega) (by omega) (by omega) (by have := h.capPos; omega) e
    omega
  have hfc : (addLine buf).capacity = buf.capacity := by rw [heq]
  refine { toShelf := ⟨hfc ▸ h.capPos, hfc ▸ h.capLe, ?_, ?_, ?_, ?_, ?_, ?_, ?_, h.frozenOk, h.ptrs, ?_, ?_, ?_⟩,
           size := ?_, lastSlot := ?_, edit := ?_, lastPtr := rfl, next := ?_, rendered := ?_ }
  · have := h.room; rw [heq]; simpa using this
  · rw [heq]; exact h.backlog
  · rw [heq]; exact h.start
  · rw [hfc]; exact hlt
  · intro i FL hi
    have hil := (List.getElem?_eq_some_iff.mp hi).1
    rw [hne _ (by simp only at hil ⊢; omega) (by simp only at hil ⊢; omega)]
    exact h.slots i FL hi
  · intro a h1 h2
    simp only [hfc] at h1 h2
    rw [hne a h1 (by omega)]
    exact h.stale a h1 h2
  · intro a h1 h2
    simp only [hfc] at h1 h2
    have hmod : a % buf.capacity.toNat ≠ (dropped + frozen.length) % buf.capacity.toNat := by
      rw [Nat.mod_eq_of_lt h2, Nat.mod_eq_of_lt (by omega)]; omega
    rw [hat, if_neg hmod]
    exact h.unused a h1 h2
  · rw [heq]; exact h.freed
  · rw [heq]; exact h.absolute
  · rw [heq]; exact h.total
  · rw [heq]
  · rw [hat, if_pos rfl]
  · rw [heq]; exact edits_init _
  · rw [heq]
  · rw [heq]; simp [hrend, freshLine]

/-- How many lines `linebuf_newline` drops: one, when the buffer is full. -/
def overflow (buf : Linebuf) : Nat := if buf.size = buf.capacity then 1 else 0

/-- A new line: the last one is frozen, and the oldest held goes when the buffer is full,
    be it the line just edited (a buffer of one line). -/
theorem newline_rep (h : Rep buf doc) :
    ∃ F, FrozenOf doc F ∧ Rep (linebufNewline buf)
      ⟨doc.dropped + overflow buf, (doc.frozen ++ [F]).drop (overflow buf),
        freshLine (doc.dropped + doc.frozen.length + 2), []⟩ := by
  have hsz := h.size
  have hle := h.size_le
  have hcc := h.cap_cast
  rw [newline_eq]
  by_cases hfull : buf.size = buf.capacity
  · rw [show buf.size - buf.capacity + 1 = (1 : Nat) by omega, overflow, if_pos hfull]
    rcases Nat.eq_zero_or_pos doc.frozen.length with hz | hpos
    · -- one slot: the line being edited is the oldest, and is freed in the editor
      have hnil : doc.frozen = [] := List.length_eq_zero_iff.mp hz
      obtain ⟨d, -, hholds⟩ := h.edit.freeze
      have heq := h.recycle_eq (k := 1) (by simp [Doc.held]) (by omega)
      have hcap1 : buf.capacity.toNat = 1 := by omega
      have hfr : freezeLast (linebufRecycleOldestLines buf (1 : Nat)) = linebufRecycleOldestLines buf (1 : Nat) := by
        unfold freezeLast; rw [if_neg]; rw [heq]; simp only; omega
      have hshelf : Shelf (linebufRecycleOldestLines buf (1 : Nat)) (doc.dropped + 1) [] := by
        rw [heq]
        refine ⟨h.capPos, h.capLe, h.room, h.backlog, rfl, ?_, ?_, ?_, ?_, ?_, ?_, rfl, rfl, ?_⟩
        · simp only [List.length_nil]; omega
        · intro i FL hi; simp at hi
        · intro a h1 h2; simp only [List.length_nil] at h1; omega
        · intro a h1 h2; simp only at h2; omega
        · intro FL hFL; simp at hFL
        · intro i FL hi; simp at hi
        · simp [h.total, hnil]
      refine ⟨{ doc.last with data := d, size := doc.text.length }, ⟨rfl, rfl, hholds, rfl⟩, ?_⟩
      rw [hfr]
      have := hshelf.addLine_rep (by rw [heq]; simp only [List.length_nil]; omega)
        (by rw [heq]; simp only [List.length_nil, h.next]; omega)
        (by rw [heq]; simp [Doc.held, hnil])
      simpa [hnil] using this
    · have h1 := recycle_rep h (k := 1) (by omega)
      have hrs : (linebufRecycleOldestLines buf (1 : Nat)).size < (linebufRecycleOldestLines buf (1 : Nat)).capacity := by
        rw [h.recycle_eq (k := 1) (by simp [Doc.held]) (by omega)]; simp only; omega
      obtain ⟨F, hF, hsh, -, es, eh, er⟩ := h1.freezeLast_shelf hrs
      refine ⟨F, ⟨hF.ptr, hF.renderLines, hF.holds, hF.size⟩, ?_⟩
      have hdrop : (doc.frozen ++ [F]).drop 1 = doc.frozen.drop 1 ++ [F] :=
        List.drop_append_of_le_length (by omega)
      rw [hdrop]
      have := hsh.addLine_rep (by rw [es, h1.size]; simp)
        (by rw [eh, h1.next]; simp only [List.length_append, List.length_singleton]; omega)
        (by rw [er, h1.rendered]; simp [hF.renderLines])
      simp only [List.length_append, List.length_drop, List.length_singleton] at this
      rw [show doc.dropped + 1 + (doc.frozen.length - 1 + 1) + 1 = doc.dropped + doc.frozen.length + 2 by omega] at this
      exact this
  · have hrec : linebufRecycleOldestLines buf (buf.size - buf.capacity + 1) = buf := by
      unfold linebufRecycleOldestLines; rw [if_pos (by omega)]
    rw [hrec, overflow, if_neg hfull]
    obtain ⟨F, hF, hsh, -, es, eh, er⟩ := h.freezeLast_shelf (by omega)
    refine ⟨F, hF, ?_⟩
    have := hsh.addLine_rep (by rw [es, hsz]; simp)
      (by rw [eh, h.next]; simp only [List.length_append, List.length_singleton]; omega)
      (by rw [er, h.rendered]; simp [hF.renderLines])
    simp only [List.length_append, List.length_singleton] at this
    exact this

end Newline

/-! ## Cleaning the backlog -/

section Backlog

variable {buf : Linebuf} {doc : Doc}

/-- The bytes of text held without the `k` oldest lines. -/
def Doc.bytesFrom (doc : Doc) (k : Nat) : Nat := ((doc.frozen.drop k).map Fline.size).sum + doc.text.length

theorem Doc.bytesFrom_succ {k : Nat} {FL : Fline} (hk : doc.frozen[k]? = some FL) :
    doc.bytesFrom k = FL.size + doc.bytesFrom (k + 1) := by
  unfold Doc.bytesFrom
  have hlt := (List.getElem?_eq_some_iff.mp hk).1
  rw [List.drop_eq_getElem_cons hlt, (List.getElem?_eq_some_iff.mp hk).2]
  simp only [List.map_cons, List.sum_cons]; omega

/-- The loop of `linebuf_clean_backlog` stops at the first line from which the text held
    is within the backlog. -/
theorem Rep.cleanCount_spec (h : Rep buf doc) (fuel : Nat) :
    ∀ remove, remove ≤ doc.frozen.length → doc.frozen.length < fuel + remove →
      let k := cleanCount buf fuel remove (doc.bytesFrom remove : Nat)
      remove ≤ k ∧ k ≤ doc.frozen.length ∧ (doc.bytesFrom k : Int) ≤ buf.backlogSize ∧
        ∀ j, remove ≤ j → j < k → buf.backlogSize < doc.bytesFrom j := by
  have hsz := h.size
  induction fuel with
  | zero => intro remove h1 h2; omega
  | succ fuel ih =>
    intro remove h1 h2
    simp only [cleanCount]
    split
    · rename_i hc
      have hlt : remove < doc.frozen.length := by omega
      obtain ⟨FL, hFL⟩ : ∃ FL, doc.frozen[remove]? = some FL := ⟨_, List.getElem?_eq_getElem hlt⟩
      have hb := Doc.bytesFrom_succ hFL
      have hn : (doc.bytesFrom remove : Int) - ((linebufGetNthLine buf remove).elim 0 fun FL => (FL.size : Int)) =
          (doc.bytesFrom (remove + 1) : Nat) := by
        rw [h.getNth_frozen hFL]; simp only [Option.elim_some]; omega
      rw [hn]
      obtain ⟨k1, k2, k3, k4⟩ := ih (remove + 1) (by omega) (by omega)
      refine ⟨by omega, k2, k3, fun j hj1 hj2 => ?_⟩
      rcases Nat.eq_or_lt_of_le hj1 with rfl | hj
      · exact hc.2
      · exact k4 j hj hj2
    · rename_i hc
      refine ⟨Nat.le_refl _, h1, ?_, fun j hj1 hj2 => by omega⟩
      rcases Nat.eq_or_lt_of_le h1 with heq | hlt
      · -- only the last line is left: one line is within every backlog
        have : doc.bytesFrom remove = doc.text.length := by
          simp [Doc.bytesFrom, heq]
        have := h.edit.sizeLe; have := h.backlog
        omega
      · by_contra hgt
        exact hc ⟨by omega, by omega⟩

/-- `linebuf_clean_backlog` drops the fewest oldest lines that bring the text held within
    the backlog. -/
theorem cleanBacklog_rep (h : Rep buf doc) :
    ∃ k, k ≤ doc.frozen.length ∧ linebufCleanBacklog buf = linebufRecycleOldestLines buf (k : Nat) ∧
      Rep (linebufCleanBacklog buf) { doc with dropped := doc.dropped + k, frozen := doc.frozen.drop k } ∧
      (doc.bytesFrom k : Int) ≤ buf.backlogSize ∧ ∀ j < k, buf.backlogSize < doc.bytesFrom j := by
  have hn : buf.totalSizeExceptLast + buf.edit.size = (doc.bytesFrom 0 : Nat) := by
    rw [h.total, h.edit.size]; simp [Doc.bytesFrom]
  obtain ⟨-, h2, h3, h4⟩ := h.cleanCount_spec buf.size.toNat 0 (Nat.zero_le _) (by rw [h.size]; omega)
  have heq : linebufCleanBacklog buf =
      linebufRecycleOldestLines buf (cleanCount buf buf.size.toNat 0 (doc.bytesFrom 0 : Nat) : Nat) := by
    unfold linebufCleanBacklog; rw [h.getLastLine]; simp only [hn]
  exact ⟨_, h2, heq, heq ▸ recycle_rep h h2, h3, fun j hj => h4 j (Nat.zero_le _) hj⟩

end Backlog

/-! ## Laying lines out -/

section Layout

variable {buf : Linebuf} {doc : Doc} (d : Drsize) (font : Font)

/-- The counters a layout does not touch. -/
structure LayoutFrame (buf buf' : Linebuf) : Prop where
  capacity : buf'.capacity = buf.capacity
  size : buf'.size = buf.size
  absolute : buf'.absolute = buf.absolute
  backlogSize : buf'.backlogSize = buf.backlogSize
  absoluteRendered : buf'.absoluteRendered = buf.absoluteRendered

theorem Edits.lay {ed : Stredit} {r : Fline} {t : List UInt8} (h : Edits ed r t) (n : Nat) :
    Edits { ed with raw := some { r with renderLines := n } } { r with renderLines := n } t :=
  ⟨rfl, h.holds, h.size, h.maxSize, h.reserved, h.alloc, h.allocLe, h.sizeLe, h.prefixLe⟩

theorem sum_set (f : Fline → Nat) {l : List Fline} {i : Nat} {x : Fline} (hi : l[i]? = some x) (y : Fline) :
    ((l.set i y).map f).sum + f x = (l.map f).sum + f y := by
  induction l generalizing i with
  | nil => simp at hi
  | cons a l ih =>
    cases i with
    | zero => simp only [List.getElem?_cons_zero, Option.some.injEq] at hi; subst hi; simp; omega
    | succ i =>
      simp only [List.getElem?_cons_succ] at hi
      have := ih hi
      simp only [List.set_cons_succ, List.map_cons, List.sum_cons]; omega

/-- A frozen line's row count stored through its slot. -/
theorem Rep.putFrozen (h : Rep buf doc) {i : Nat} {FL : Fline} (hi : doc.frozen[i]? = some FL) (n : Nat) :
    Rep { buf.putNthLine i { FL with renderLines := n } with
            totalRendered := i16 (i16 (buf.totalRendered - FL.renderLines) + n) }
      { doc with frozen := doc.frozen.set i { FL with renderLines := n } } := by
  have hlt := (List.getElem?_eq_some_iff.mp hi).1
  have hcc := h.cap_cast
  have hll := h.lenLt
  have heq : buf.putNthLine i { FL with renderLines := n } =
      { buf with lines := buf.lines.set ((doc.dropped + i) % buf.capacity.toNat) (some { FL with renderLines := n }) } := by
    unfold Linebuf.putNthLine
    rw [if_neg (by rw [h.size]; omega), h.nthToIndex, Int.toNat_natCast]
  have hat := at_set buf (buf.putNthLine i { FL with renderLines := n }) (by rw [heq]) h.capPos h.room
    (b := doc.dropped + i) (v := some { FL with renderLines := n }) (by rw [heq])
  have hne : ∀ a, a ≠ doc.dropped + i → doc.dropped + doc.frozen.length < a + buf.capacity.toNat →
      (a ≤ doc.dropped + doc.frozen.length ∨ a < buf.capacity.toNat) →
      (buf.putNthLine i { FL with renderLines := n }).at a = buf.at a := by
    intro a h1 h2 h3
    rw [hat, if_neg]
    intro e
    apply h1
    exact Ring.slot_inj (doc.dropped + doc.frozen.length + 1 - buf.capacity.toNat) buf.capacity.toNat
      (by omega) (by omega) (by omega) (by omega) e
  have hset : ∀ j G, (doc.frozen.set i { FL with renderLines := n })[j]? = some G →
      (j = i ∧ G = { FL with renderLines := n }) ∨ (j ≠ i ∧ doc.frozen[j]? = some G) := by
    intro j G hj
    by_cases e : j = i
    · subst e; rw [List.getElem?_set_self hlt, Option.some.injEq] at hj; exact Or.inl ⟨rfl, hj.symm⟩
    · rw [List.getElem?_set_ne (Ne.symm e)] at hj; exact Or.inr ⟨e, hj⟩
  rw [heq] at hat hne ⊢
  refine { toShelf := ⟨h.capPos, h.capLe, ?_, h.backlog, h.start, ?_, ?_, ?_, ?_, ?_, ?_, h.freed, h.absolute, ?_⟩,
           size := ?_, lastSlot := ?_, edit := h.edit, lastPtr := ?_, next := ?_, rendered := ?_ }
  · simpa using h.room
  · simpa using hll
  · intro j G hj
    rcases hset j G hj with ⟨rfl, rfl⟩ | ⟨e, hj⟩
    · exact (hat _).trans (if_pos rfl)
    · have hjl := (List.getElem?_eq_some_iff.mp hj).1
      exact (hne (doc.dropped + j) (by omega) (by omega) (by omega)).trans (h.slots j G hj)
  · intro a h1 h2
    simp only [List.length_set] at h1 h2
    obtain ⟨G, hG, hp⟩ := h.stale a h1 h2
    exact ⟨G, (hne a (by omega) h1 (by omega)).trans hG, hp⟩
  · intro a h1 h2
    simp only [List.length_set] at h1
    exact (hne a (by omega) (by omega) (Or.inr h2)).trans (h.unused a h1 h2)
  · intro G hG
    rcases List.mem_or_eq_of_mem_set hG with hG | rfl
    · exact h.frozenOk G hG
    · exact h.frozenOk FL (List.mem_of_getElem? hi)
  · intro j G hj
    rcases hset j G hj with ⟨rfl, rfl⟩ | ⟨-, hj⟩
    · exact h.ptrs j FL hi
    · exact h.ptrs j G hj
  · have := sum_set Fline.size hi { FL with renderLines := n }
    simp only at this
    rw [show ((doc.frozen.set i { FL with renderLines := n }).map Fline.size).sum = (doc.frozen.map Fline.size).sum by
      omega]
    exact h.total
  · simpa using h.size
  · simp only [List.length_set]
    exact (hne _ (by omega) (by omega) (Or.inl (Nat.le_refl _))).trans h.lastSlot
  · simpa using h.lastPtr
  · simpa using h.next
  · have := sum_set Fline.renderLines hi { FL with renderLines := n }
    simp only at this ⊢
    rw [h.rendered, i16_sub, i16_add]; congr 1; omega

/-- The last line's row count stored in the editor's block. -/
theorem Rep.putLast (h : Rep buf doc) (n : Nat) :
    Rep { buf.putNthLine (doc.frozen.length : Nat) { doc.last with renderLines := n } with
            totalRendered := i16 (i16 (buf.totalRendered - doc.last.renderLines) + n) }
      { doc with last := { doc.last with renderLines := n } } := by
  have heq : buf.putNthLine (doc.frozen.length : Nat) { doc.last with renderLines := n } =
      { buf with edit := { buf.edit with raw := some { doc.last with renderLines := n } } } := by
    unfold Linebuf.putNthLine
    rw [if_pos (by rw [h.size]; omega)]
  rw [heq]
  refine { toShelf := ⟨h.capPos, h.capLe, h.room, h.backlog, h.start, h.lenLt, h.slots, h.stale, h.unused, h.frozenOk,
             h.ptrs, h.freed, h.absolute, h.total⟩,
           size := h.size, lastSlot := h.lastSlot, edit := h.edit.lay n, lastPtr := h.lastPtr, next := h.next,
           rendered := ?_ }
  simp only
  rw [h.rendered, i16_sub, i16_add]; congr 1; omega

/-- One line laid out: the line with the absolute number `abs`, if it is held. -/
theorem updateRenderLine_rep (h : Rep buf doc) (w abs : Int) :
    ∃ doc', Rep (updateRenderLine d font w buf abs) doc' ∧ doc'.dropped = doc.dropped ∧ doc'.text = doc.text ∧
      LayoutFrame buf (updateRenderLine d font w buf abs) ∧
      ∀ i : Nat, doc'.held[i]? = if (i : Int) = abs - buf.absolute
        then (doc.held[i]?).map (consoleFlineUpdateRenderLines d font · w) else doc.held[i]? := by
  have hlen := doc.held_length
  have hsz := h.size
  by_cases hin : 0 ≤ abs - buf.absolute ∧ abs - buf.absolute < buf.size
  · obtain ⟨j, hj⟩ : ∃ j : Nat, (j : Int) = abs - buf.absolute := ⟨(abs - buf.absolute).toNat, by omega⟩
    obtain ⟨FL, hFL⟩ : ∃ FL, doc.held[j]? = some FL := ⟨_, List.getElem?_eq_getElem (by omega)⟩
    have heq : updateRenderLine d font w buf abs =
        { buf.putNthLine j (consoleFlineUpdateRenderLines d font FL w) with
          totalRendered := i16 (i16 (buf.totalRendered - FL.renderLines) +
            (consoleFlineUpdateRenderLines d font FL w).renderLines) } := by
      unfold updateRenderLine; rw [← hj, h.getNth hFL]
    have hframe : LayoutFrame buf (updateRenderLine d font w buf abs) := by
      rw [heq]; unfold Linebuf.putNthLine; split <;> exact ⟨rfl, rfl, rfl, rfl, rfl⟩
    -- the held lines after a store at `j`
    have hheld : ∀ (l : List Fline) (i : Nat), l[j]? = some FL →
        (l.set j (consoleFlineUpdateRenderLines d font FL w))[i]? =
          if (i : Int) = abs - buf.absolute then (l[i]?).map (consoleFlineUpdateRenderLines d font · w) else l[i]? := by
      intro l i hl
      have hjl := (List.getElem?_eq_some_iff.mp hl).1
      by_cases e : i = j
      · subst e; rw [if_pos hj, List.getElem?_set_self hjl, hl]; rfl
      · rw [if_neg (by omega), List.getElem?_set_ne (Ne.symm e)]
    rcases Nat.lt_or_ge j doc.frozen.length with hlt | hge
    · have hf : doc.frozen[j]? = some FL := by rw [← hFL, Doc.held, List.getElem?_append_left hlt]
      refine ⟨{ doc with frozen := doc.frozen.set j (consoleFlineUpdateRenderLines d font FL w) }, ?_, rfl, rfl, hframe,
        fun i => ?_⟩
      · rw [heq]; exact h.putFrozen hf (u8 (flineRows d font w FL.data))
      · rw [← hheld doc.held i hFL]; simp only [Doc.held, List.set_append_left _ _ hlt]
    · obtain rfl : j = doc.frozen.length := by omega
      have hFL' : FL = doc.last := by
        rw [Doc.held, List.getElem?_append_right (Nat.le_refl _)] at hFL
        simpa using hFL.symm
      subst hFL'
      refine ⟨{ doc with last := consoleFlineUpdateRenderLines d font doc.last w }, ?_, rfl, rfl, hframe, fun i => ?_⟩
      · rw [heq]; exact h.putLast (u8 (flineRows d font w doc.last.data))
      · rw [← hheld doc.held i hFL]
        simp [Doc.held, List.set_append_right _ _ (Nat.le_refl _)]
  · have heq : updateRenderLine d font w buf abs = buf := by
      unfold updateRenderLine linebufGetNthLine
      rw [if_pos (by omega)]
    rw [heq]
    refine ⟨doc, h, rfl, rfl, ⟨rfl, rfl, rfl, rfl, rfl⟩, fun i => ?_⟩
    split
    · rename_i e
      have : doc.held[i]? = none := List.getElem?_eq_none (by omega)
      rw [this]; rfl
    · rfl

/-- The layout loop over the `m` absolute numbers from `start`. -/
theorem layout_fold (h : Rep buf doc) (w start : Int) (m : Nat) :
    ∃ doc', Rep ((List.range m).foldl (fun buf (i : Nat) => updateRenderLine d font w buf (start + i)) buf) doc' ∧
      doc'.dropped = doc.dropped ∧ doc'.text = doc.text ∧
      LayoutFrame buf ((List.range m).foldl (fun buf (i : Nat) => updateRenderLine d font w buf (start + i)) buf) ∧
      ∀ i : Nat, doc'.held[i]? = if start ≤ buf.absolute + i ∧ buf.absolute + i < start + m
        then (doc.held[i]?).map (consoleFlineUpdateRenderLines d font · w) else doc.held[i]? := by
  induction m with
  | zero => exact ⟨doc, h, rfl, rfl, ⟨rfl, rfl, rfl, rfl, rfl⟩, fun i => by rw [if_neg (by omega)]⟩
  | succ m ih =>
    obtain ⟨doc1, h1, hd1, ht1, hf1, hh1⟩ := ih
    obtain ⟨doc2, h2, hd2, ht2, hf2, hh2⟩ := updateRenderLine_rep d font h1 w (start + m)
    rw [List.range_succ, List.foldl_append]
    refine ⟨doc2, h2, hd2.trans hd1, ht2.trans ht1,
      ⟨hf2.1.trans hf1.1, hf2.2.trans hf1.2, hf2.3.trans hf1.3, hf2.4.trans hf1.4, hf2.5.trans hf1.5⟩, fun i => ?_⟩
    rw [hh2, hh1, hf1.absolute]
    by_cases e : (i : Int) = start + m - buf.absolute
    · rw [if_pos e, if_neg (by omega), if_pos (by push_cast; omega)]
    · rw [if_neg e]
      by_cases e2 : start ≤ buf.absolute + i ∧ buf.absolute + i < start + m
      · rw [if_pos e2, if_pos (by push_cast; omega)]
      · rw [if_neg e2, if_neg (by push_cast; omega)]

/-- Where `linebuf_update_render` starts. -/
def renderStart (buf : Linebuf) (lazy : Bool) : Int :=
  if lazy then max (linebufStart buf) (buf.absoluteRendered + 1) else linebufStart buf

theorem updateRender_rep (h : Rep buf doc) (width : Int) (lazy : Bool) :
    ∃ doc', Rep (linebufUpdateRender d font buf width lazy) doc' ∧ doc'.dropped = doc.dropped ∧ doc'.text = doc.text ∧
      (linebufUpdateRender d font buf width lazy).absoluteRendered = max buf.absoluteRendered (linebufEnd buf - 2) ∧
      (linebufUpdateRender d font buf width lazy).capacity = buf.capacity ∧
      ∀ i : Nat, doc'.held[i]? = if renderStart buf lazy ≤ buf.absolute + i ∧ buf.absolute + i < linebufEnd buf
        then (doc.held[i]?).map (consoleFlineUpdateRenderLines d font · (viewParams width)) else doc.held[i]? := by
  obtain ⟨doc', h', hd, ht, hf, hh⟩ :=
    layout_fold d font h (viewParams width) (renderStart buf lazy) (linebufEnd buf - renderStart buf lazy).toNat
  refine ⟨doc', ?_, hd, ht, ?_, hf.capacity, fun i => ?_⟩
  · exact { toShelf := ⟨h'.capPos, h'.capLe, h'.room, h'.backlog, h'.start, h'.lenLt, h'.slots, h'.stale, h'.unused,
              h'.frozenOk, h'.ptrs, h'.freed, h'.absolute, h'.total⟩,
            size := h'.size, lastSlot := h'.lastSlot, edit := h'.edit, lastPtr := h'.lastPtr, next := h'.next,
            rendered := h'.rendered }
  · show max _ (linebufEnd buf - 2) = _
    have := hf.absoluteRendered
    unfold renderStart at this
    rw [this]
  · rw [hh]
    congr 1
    simp only [eq_iff_iff]
    omega

end Layout

end PythonUltra.Terminal
