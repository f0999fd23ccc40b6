/-
  PythonUltra.Pyeditor.Model — the editor's state and its edits (modules/pyeditor/__init__.py).

  An `Editor` holds the fields of the class that something other than the drawing reads,
  and with them FONT_W and FONT_H, module variables that apply_font sets. Rows, columns
  and scroll positions are never negative in the source and are `Nat`. An edit is a
  function of the editor; a list index out of range raises IndexError, and the editor is
  then as it was. (So it is in the source, but where the cursor's row is no row at all:
  there `move` has set the row and `find` the search text before they raise.)

  What gint measures is the parameter `Host`: the metrics of a font and the width of a
  text, `none` where the call raises and the source falls back on a fixed size.
-/

import PythonUltra.Os.Text
import PythonUltra.Pyperm.Model
import Mathlib.Algebra.GroupWithZero.Nat

namespace PythonUltra.Pyeditor

open PythonUltra.Lib PythonUltra.Lib.Prog PythonUltra.Os

def maxEditBytes : Nat := 65536

def maxEditLines : Nat := 2048

inductive Mode where
  | normal
  | insert
  | visual
  deriving DecidableEq, Repr

/-- `alpha_mode`: 0, 1 and 2. -/
inductive Alpha where
  | off
  | lower
  | upper
  deriving DecidableEq, Repr

/-- `FONT_OPTIONS`. -/
inductive Font where
  | systemSmall
  | systemNormal
  | systemLarge
  deriving DecidableEq, Repr

/-- `THEME_NAMES`. -/
inductive Theme where
  | githubDark
  | githubLight
  | linuxTerminal
  | pythonUltraDark
  | pythonUltraLight
  deriving DecidableEq, Repr

/-- The message line. -/
inductive Msg where
  | text (s : String)
  /-- `what + str(exc)[:18]`. -/
  | failed (what : String) (exc : Exc)
  | font (name : Font)
  | theme (name : Theme)
  deriving DecidableEq, Repr

structure Editor where
  filename : Text
  lines : List Text
  cx : Nat
  cy : Nat
  goalX : Nat
  scrollX : Nat
  scrollY : Nat
  mode : Mode
  alphaMode : Alpha
  shiftActive : Bool
  clipboard : Text
  selStart : Option (Nat × Nat)
  lastSearch : Text
  dirty : Bool
  loadFailed : Bool
  msg : Msg
  themeName : Theme
  fontName : Font
  fontW : Nat
  fontH : Nat

/-- How a program of the editor ends without returning: it waits for a key that does not
come, it raises, or a script it runs takes over (`SystemExit`). -/
inductive Stop where
  | waiting
  | raised (e : Exc)
  | exit
  deriving DecidableEq, Repr

/-- What the editor calls outside the storage. -/
structure Host where
  fontMetrics : Font → Option (Int × Int)
  dsize : Font → Text → Option Int
  /-- `pythonultra._CATALOG`. -/
  catalog : List (Text × List Text)
  /-- `exec` of a script, which may change the storage and the permissions. -/
  exec : Text → Prog (World × Pyperm.Table) Stop Unit

/-! ## The view -/

/-- `FONT_CONFIG`'s fallback sizes. -/
def fallbackSize : Font → Nat × Nat
  | .systemSmall => (9, 10)
  | .systemNormal => (12, 17)
  | .systemLarge => (18, 23)

def screenW : Nat := 396

def textX : Nat := 2

def bodyH : Nat := 200

def maxRows (e : Editor) : Nat := max 1 (bodyH / e.fontH)

def textWidth (h : Host) (e : Editor) (text : Text) : Nat :=
  if text = [] then 0
  else match h.dsize e.fontName text with
    | some width => width.toNat
    | none => text.length * e.fontW

def textAdvance (h : Host) (e : Editor) (text : Text) : Int :=
  if text = [] then 0 else (textWidth h e (text ++ [space]) : Int) - textWidth h e [space]

/-- `line[i:j]`. -/
def slice (line : Text) (i j : Nat) : Text := (line.take j).drop i

/-- The search for the leftmost column from which the cursor is still on the screen. Every
turn brings `low` and `high` nearer, so `high` turns are enough. -/
def scrollSearch (h : Host) (e : Editor) (line : Text) (cx : Nat) : Nat → Nat → Nat → Nat
  | 0, low, _ => low
  | fuel + 1, low, high =>
    if low < high then
      let middle := (low + high) / 2
      if textAdvance h e (slice line middle cx) > screenW - textX - 3 then scrollSearch h e line cx fuel (middle + 1) high
      else scrollSearch h e line cx fuel low middle
    else low

def ensureVisible (h : Host) (e : Editor) : Editor :=
  let lines := if e.lines = [] then [[]] else e.lines
  let cy := min (lines.length - 1) e.cy
  let line := lines.getD cy []
  let cx := min line.length e.cx
  let scrollY := if cy < e.scrollY then cy else e.scrollY
  let scrollY := if cy ≥ scrollY + maxRows e then cy - maxRows e + 1 else scrollY
  let scrollX := if cx < e.scrollX then cx else e.scrollX
  let scrollX := scrollSearch h e line cx cx scrollX cx
  { e with lines := lines, cy := cy, cx := cx, scrollY := scrollY, scrollX := min scrollX cx }

def applyFont (h : Host) (name : Font) (e : Editor) : Editor :=
  let size := match h.fontMetrics name with
    | some (width, height) => ((max 1 width).toNat, (max 1 height).toNat)
    | none => fallbackSize name
  { ensureVisible h { e with fontW := size.1, fontH := size.2, fontName := name } with msg := .font name }

def setTheme (name : Theme) (e : Editor) : Editor := { e with themeName := name, msg := .theme name }

def resetView (e : Editor) : Editor :=
  { e with cx := 0, cy := 0, goalX := 0, scrollX := 0, scrollY := 0, selStart := none, mode := .normal }

/-! ## Edits -/

/-- `lines[row]`. -/
def lineAt (e : Editor) (row : Nat) : Except Exc Text :=
  match e.lines[row]? with
  | some line => .ok line
  | none => .error .indexError

/-- `lines.insert(i, x)`. -/
def insertAt (i : Nat) (x : Text) (lines : List Text) : List Text := lines.take i ++ x :: lines.drop i

def move (h : Host) (dy dx : Int) (e : Editor) : Except Exc Editor :=
  if dy ≠ 0 then do
    let cy := (min ((e.lines.length : Int) - 1) (e.cy + dy)).toNat
    let line ← lineAt e cy
    return ensureVisible h { e with cy := cy, cx := min line.length e.goalX }
  else do
    let line ← lineAt e e.cy
    let cx := (min (line.length : Int) (e.cx + dx)).toNat
    return ensureVisible h { e with cx := cx, goalX := cx }

/-- `insert` finds that the text would become too large. -/
def sizeRefused (e : Editor) (text : Text) : Prop :=
  (e.lines.map fun line => line.length + 1).sum + text.length > maxEditBytes ∨
    e.lines.length + text.count lf > maxEditLines

instance (e : Editor) (text : Text) : Decidable (sizeRefused e text) := inferInstanceAs (Decidable (_ ∨ _))

/-- Several lines put in at the cursor. -/
def spliceParts (e : Editor) (line : Text) (parts : List Text) : Editor :=
  let before := line.take e.cx
  let after := line.drop e.cx
  let lines := e.lines.set e.cy (before ++ parts.headD [])
  let lines := (parts.tail.dropLast.zipIdx 1).foldl (fun lines part => insertAt (e.cy + part.2) part.1 lines) lines
  let lines := insertAt (e.cy + parts.length - 1) (parts.getLastD [] ++ after) lines
  { e with lines := lines, cy := e.cy + (parts.length - 1), cx := (parts.getLastD []).length }

/-- A text put in at the cursor, and the cursor after it. -/
def splice (e : Editor) (line text : Text) : Editor :=
  let parts := text.splitOn lf
  if parts.length = 1 then
    { e with lines := e.lines.set e.cy (line.take e.cx ++ text ++ line.drop e.cx), cx := e.cx + text.length }
  else spliceParts e line parts

def insert (h : Host) (text : Text) (e : Editor) : Except Exc Editor :=
  if text = [] then .ok e
  else
    let text := replace (replace text [cr, lf] [lf]) [cr] [lf]
    if sizeRefused e text then .ok { e with msg := .text "Editor size limit" }
    else do
      let line ← lineAt e e.cy
      let e := splice e line text
      return ensureVisible h { e with goalX := e.cx, dirty := true }

def backspace (h : Host) (e : Editor) : Except Exc Editor := do
  let e ←
    if e.cx > 0 then do
      let line ← lineAt e e.cy
      pure { e with lines := e.lines.set e.cy (line.take (e.cx - 1) ++ line.drop e.cx), cx := e.cx - 1, dirty := true }
    else if e.cy > 0 then do
      let previous ← lineAt e (e.cy - 1)
      let current ← lineAt e e.cy
      pure { e with
        lines := (e.lines.eraseIdx e.cy).set (e.cy - 1) (previous ++ current), cy := e.cy - 1,
        cx := previous.length, dirty := true }
    else pure e
  return ensureVisible h { e with goalX := e.cx }

/-- The indentation `newline` gives the line it starts. -/
def indentAfter (before : Text) : Text :=
  before.takeWhile (· = space) ++
    if (lit ":").isSuffixOf (rstripText before) then [space, space, space, space] else []

def newline (h : Host) (e : Editor) : Except Exc Editor :=
  if e.lines.length ≥ maxEditLines then .ok { e with msg := .text "Editor line limit" }
  else do
    let line ← lineAt e e.cy
    let before := line.take e.cx
    let after := line.drop e.cx
    let indent := indentAfter before
    let lines := insertAt (e.cy + 1) (indent ++ after) (e.lines.set e.cy before)
    return ensureVisible h
      { e with lines := lines, cy := e.cy + 1, cx := indent.length, goalX := indent.length, dirty := true }

/-- One position is after another in the text. -/
def after (p q : Nat × Nat) : Prop := p.1 > q.1 ∨ p.1 = q.1 ∧ p.2 > q.2

instance (p q : Nat × Nat) : Decidable (after p q) := inferInstanceAs (Decidable (_ ∨ _))

/-- What `copy_selection` takes of each line from `first` to `last`. -/
def chunks (e : Editor) (first last : Nat × Nat) : Except Exc (List Text) :=
  (List.range' first.1 (last.1 + 1 - first.1)).mapM fun row => do
    let line ← lineAt e row
    let left := if row = first.1 then first.2 else 0
    let right := if row = last.1 then last.2 + 1 else line.length
    return slice line left right

/-- The lines without what is selected, and the cursor at its start. -/
def cutLines (e : Editor) (first last : Nat × Nat) : Except Exc Editor := do
  let head := (← lineAt e first.1).take first.2
  let tail := (← lineAt e last.1).drop (last.2 + 1)
  let lines := e.lines.set first.1 (head ++ tail)
  let lines := (List.range (last.1 - first.1)).foldl (fun lines _ => lines.eraseIdx (first.1 + 1)) lines
  return { e with lines := lines, cy := first.1, cx := first.2, goalX := first.2, dirty := true }

/-- `copy_selection` from `first` to `last`. -/
def copyRange (h : Host) (cut : Bool) (first last : Nat × Nat) (e : Editor) : Except Exc Editor := do
  let parts ← chunks e first last
  let e := { e with clipboard := [lf].intercalate parts }
  let e ← if cut then cutLines e first last else pure e
  return ensureVisible h { e with mode := .normal, selStart := none, msg := .text (if cut then "Cut" else "Copied") }

def copySelection (h : Host) (cut : Bool) (e : Editor) : Except Exc Editor :=
  match e.selStart with
  | none => .ok e
  | some start =>
    if after start (e.cy, e.cx) then copyRange h cut (e.cy, e.cx) start e else copyRange h cut start (e.cy, e.cx) e

/-- Where `find` finds `query`: in the lines from the cursor on and around, or in the line
of the cursor up to it. -/
def findPlace (query : Text) (e : Editor) : Except Exc (Option (Nat × Nat)) :=
  let around := (List.range e.lines.length).findSome? fun offset =>
    let row := (e.cy + offset) % e.lines.length
    let start := if row = e.cy then e.cx + 1 else 0
    (find (e.lines.getD row []) query start).map fun position => (row, position)
  match around with
  | some place => .ok (some place)
  | none => do
    let line ← lineAt e e.cy
    return (findUpTo line query (e.cx + query.length)).map fun position => (e.cy, position)

/-- `find` after its prompt. -/
def findQuery (h : Host) (query : Text) (e : Editor) : Except Exc Editor := do
  let e := { e with lastSearch := query }
  match ← findPlace query e with
  | some (row, position) =>
    return ensureVisible h { e with cy := row, cx := position, goalX := position, msg := .text "Found" }
  | none => return { e with msg := .text "Not found" }

end PythonUltra.Pyeditor
