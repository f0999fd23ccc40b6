/-
  PythonUltra.Terminal.Linebuf — the console's rotating line storage (console.c,
  console.h: `console_fline_t`, `linebuf_t`).

  A line buffer is a pre-allocated array of slots, an index it starts at, and the editor
  of the last line. The 16- and 32-bit fields wrap as the C types do. `heap` is what the
  allocator saw from this buffer: how many line blocks were allocated (line blocks are
  numbered from 1) and which were passed to `free`, in order.

  `drsize` is gint's: for a font and a width, how many bytes of a text fit on its first
  row. The layout loop relies on it to take at least one byte of a non-empty text, and
  does not return otherwise; that is the field `progress`.
-/

import PythonUltra.Terminal.Stredit

namespace PythonUltra.Terminal

open PythonUltra.Lib.CMem

/-- A `font_t const *`; 0 is NULL. -/
abbrev Font := Nat

structure Drsize where
  bytes : Font → Int → List UInt8 → Nat
  progress : ∀ font width s, s ≠ [] → 0 < bytes font width s

/-- A font one glyph of which fills a row. -/
def oneByteRows : Drsize := ⟨fun _ _ _ => 1, fun _ _ _ _ => Nat.one_pos⟩

/-- The text width `view_params` computes (the fx-CG50 build's). -/
def viewParams (w : Int) : Int := w - 4

/-- `console_fline_update_render_lines`' loop over the text left, counting rows. -/
def rowsFrom (d : Drsize) (font : Font) (width : Int) : Nat → List UInt8 → Nat
  | 0, _ => 1
  | fuel + 1, s =>
    let p := s.drop (d.bytes font width s)
    if p = [] then 1 else 1 + rowsFrom d font width fuel p

/-- The rows a line's text takes. -/
def flineRows (d : Drsize) (font : Font) (width : Int) (data : List UInt8) : Nat :=
  let s := data.takeWhile (· ≠ 0)
  rowsFrom d font width s.length s

def consoleFlineUpdateRenderLines (d : Drsize) (font : Font) (FL : Fline) (width : Int) : Fline :=
  { FL with renderLines := u8 (flineRows d font width FL.data) }

structure Heap where
  next : Nat
  freed : List Nat
  deriving DecidableEq, Repr

structure Linebuf where
  lines : List (Option Fline)
  edit : Stredit
  capacity : Int
  start : Int
  size : Int
  totalRendered : Int
  absolute : Int
  backlogSize : Int
  totalSizeExceptLast : Int
  absoluteRendered : Int
  heap : Heap
  deriving DecidableEq, Repr

def linebufInit (capacity backlogSize : Int) : Option Linebuf :=
  if capacity ≤ 0 then none
  else some
    { lines := List.replicate capacity.toNat none
      edit := streditInit 0 0 0 0
      capacity := i16 capacity
      start := 0
      size := 0
      totalRendered := 0
      absolute := 1
      backlogSize := backlogSize
      totalSizeExceptLast := 0
      absoluteRendered := 0
      heap := ⟨1, []⟩ }

def Heap.free (h : Heap) (r : Option Fline) : Heap := { h with freed := h.freed ++ r.toList.map Fline.ptr }

/-- `linebuf_deinit`: the allocator after the editor's block and every slot are freed. -/
def linebufDeinit (buf : Linebuf) : Heap :=
  (buf.lines.take buf.capacity.toNat).foldl Heap.free (buf.heap.free buf.edit.raw)

def linebufNthToIndex (buf : Linebuf) (nth : Int) : Int := (buf.start + nth).tmod buf.capacity

def linebufIndexAdd (buf : Linebuf) (index diff : Int) : Int := (index + diff + buf.capacity).tmod buf.capacity

/-- `buf->lines[index]`. -/
def Linebuf.slot (buf : Linebuf) (index : Int) : Option Fline := (buf.lines[index.toNat]?).join

def linebufGetNthLine (buf : Linebuf) (nth : Int) : Option Fline :=
  if nth < 0 ∨ nth ≥ buf.size then none
  else if nth = buf.size - 1 then buf.edit.raw
  else buf.slot (linebufNthToIndex buf nth)

/-- A store through the pointer `linebuf_get_nth_line` returned. -/
def Linebuf.putNthLine (buf : Linebuf) (nth : Int) (FL : Fline) : Linebuf :=
  if nth = buf.size - 1 then { buf with edit := { buf.edit with raw := some FL } }
  else { buf with lines := buf.lines.set (linebufNthToIndex buf nth).toNat (some FL) }

def linebufStart (buf : Linebuf) : Int := buf.absolute

def linebufEnd (buf : Linebuf) : Int := i32 (buf.absolute + buf.size)

def linebufGetLastLine (buf : Linebuf) : Option Stredit := if buf.size > 0 then some buf.edit else none

/-- One turn of `linebuf_recycle_oldest_lines`' loop. -/
def recycleLine (buf : Linebuf) (nth : Nat) : Linebuf :=
  match linebufGetNthLine buf nth with
  | none => buf
  | some FL =>
    { buf with
      totalRendered := i16 (buf.totalRendered - FL.renderLines)
      totalSizeExceptLast :=
        if (nth : Int) ≠ buf.size - 1 then buf.totalSizeExceptLast - FL.size else buf.totalSizeExceptLast
      heap := buf.heap.free (some FL) }

def linebufRecycleOldestLines (buf : Linebuf) (count : Int) : Linebuf :=
  let count := min count buf.size
  if count ≤ 0 then buf
  else
    let buf := (List.range count.toNat).foldl recycleLine buf
    { buf with
      start := linebufIndexAdd buf buf.start count
      size := i16 (buf.size - count)
      absolute := i32 (buf.absolute + count) }

/-- `linebuf_newline` up to the new line: the last one is frozen into its slot. -/
def freezeLast (buf : Linebuf) : Linebuf :=
  if buf.size > 0 then
    let r := streditFreezeAndReset buf.edit
    { buf with
      totalSizeExceptLast := buf.totalSizeExceptLast + buf.edit.size
      edit := r.2
      lines := buf.lines.set (linebufNthToIndex buf (buf.size - 1)).toNat
        (r.1.map fun frozen => { frozen with size := u16 buf.edit.size }) }
  else buf

def linebufNewline (buf : Linebuf) : Linebuf :=
  let buf := freezeLast (linebufRecycleOldestLines buf (buf.size - buf.capacity + 1))
  let buf := { buf with size := i16 (buf.size + 1) }
  { buf with
    lines := buf.lines.set (linebufNthToIndex buf (buf.size - 1)).toNat none
    edit := streditInit buf.heap.next 16 flineSize lineMaxLength
    heap := { buf.heap with next := buf.heap.next + 1 } }

/-- `linebuf_clean_backlog`'s loop: how many lines go, from the count so far and the
    bytes held without them. -/
def cleanCount (buf : Linebuf) : Nat → Nat → Int → Nat
  | 0, remove, _ => remove
  | fuel + 1, remove, n =>
    if (remove : Int) < buf.size - 1 ∧ n > buf.backlogSize then
      cleanCount buf fuel (remove + 1) (n - ((linebufGetNthLine buf remove).elim 0 fun FL => (FL.size : Int)))
    else remove

def linebufCleanBacklog (buf : Linebuf) : Linebuf :=
  match linebufGetLastLine buf with
  | none => buf
  | some ed =>
    let remove := cleanCount buf buf.size.toNat 0 (buf.totalSizeExceptLast + ed.size)
    linebufRecycleOldestLines buf remove

/-- One turn of `linebuf_update_render`'s loop, at the absolute line `abs`. -/
def updateRenderLine (d : Drsize) (font : Font) (textW : Int) (buf : Linebuf) (abs : Int) : Linebuf :=
  match linebufGetNthLine buf (abs - buf.absolute) with
  | none => buf
  | some FL =>
    let FL' := consoleFlineUpdateRenderLines d font FL textW
    { buf.putNthLine (abs - buf.absolute) FL' with
      totalRendered := i16 (i16 (buf.totalRendered - FL.renderLines) + FL'.renderLines) }

def linebufUpdateRender (d : Drsize) (font : Font) (buf : Linebuf) (width : Int) (lazy : Bool) : Linebuf :=
  let start := if lazy then max (linebufStart buf) (buf.absoluteRendered + 1) else linebufStart buf
  let «end» := linebufEnd buf
  let buf := (List.range («end» - start).toNat).foldl
    (fun buf (i : Nat) => updateRenderLine d font (viewParams width) buf (start + i)) buf
  { buf with absoluteRendered := max buf.absoluteRendered («end» - 2) }

end PythonUltra.Terminal
