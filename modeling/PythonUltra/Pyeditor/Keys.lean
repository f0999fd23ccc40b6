/-
  PythonUltra.Pyeditor.Keys — menus, prompts and the key loop (modules/pyeditor/__init__.py).

  Where the keys of a session run out, the program waits (`Stop.waiting`), so that the
  states a session passes through between keys are those its runs on fewer keys end in.
  A `while True` that reads a key in every turn is a `keyLoop`: the keys bound its turns,
  and it is the loop it says it is (`keyLoop_unfold`).

  Left out: what is only drawn, sys.path around a script, and the interrupt key.
-/

import PythonUltra.Pyeditor.Session

namespace PythonUltra.Pyeditor

open PythonUltra.Lib PythonUltra.Lib.Prog PythonUltra.Os

/-- `self._keys.read()`. -/
def readKey : Edit Key := fun s => match s.keys with
  | [] => (.error .waiting, s)
  | key :: keys => (.ok key, { s with keys := keys })

/-- `while True` with a key read in every turn. -/
def keyLoop {α β : Type} (body : β → Edit (β ⊕ α)) (b : β) : Edit α := fun s =>
  loop .waiting body (s.keys.length + 1) b s

/-! ## Characters -/

/-- `SYMBOLS`. -/
def symbols : List Chr := lit "_.,:;!?@#$%&*~()[]\x7b\x7d=+-/\\|^<>'\"`"

/-- `_maps`: the characters of a key. -/
def baseMap : Key → Option Text
  | .k0 => some (lit "0")
  | .k1 => some (lit "1")
  | .k2 => some (lit "2")
  | .k3 => some (lit "3")
  | .k4 => some (lit "4")
  | .k5 => some (lit "5")
  | .k6 => some (lit "6")
  | .k7 => some (lit "7")
  | .k8 => some (lit "8")
  | .k9 => some (lit "9")
  | .dot => some (lit ".")
  | .add => some (lit "+")
  | .sub => some (lit "-")
  | .mul => some (lit "*")
  | .div => some (lit "/")
  | .leftpar => some (lit "(")
  | .rightpar => some (lit ")")
  | .comma => some (lit ",")
  | .neg => some (lit " ")
  | .equals => some (lit "=")
  | _ => none

def alphaMap : Key → Option Text
  | .xot => some (lit "a")
  | .log => some (lit "b")
  | .ln => some (lit "c")
  | .sin => some (lit "d")
  | .cos => some (lit "e")
  | .tan => some (lit "f")
  | .frac => some (lit "g")
  | .fd => some (lit "h")
  | .leftpar => some (lit "i")
  | .rightpar => some (lit "j")
  | .comma => some (lit "k")
  | .arrow => some (lit "l")
  | .k7 => some (lit "m")
  | .k8 => some (lit "n")
  | .k9 => some (lit "o")
  | .k4 => some (lit "p")
  | .k5 => some (lit "q")
  | .k6 => some (lit "r")
  | .mul => some (lit "s")
  | .div => some (lit "t")
  | .k1 => some (lit "u")
  | .k2 => some (lit "v")
  | .k3 => some (lit "w")
  | .add => some (lit "x")
  | .sub => some (lit "y")
  | .k0 => some (lit "z")
  | .dot => some (lit " ")
  | .exp => some (lit "\"")
  | .vars => some (lit "_")
  | .neg => some (lit " ")
  | _ => none

def shiftMap : Key → Option Text
  | .mul => some (lit "\x7b")
  | .div => some (lit "\x7d")
  | .add => some (lit "[")
  | .sub => some (lit "]")
  | .dot => some (lit "=")
  | .k0 => some (lit ":")
  | .exp => some (lit "3.14159")
  | _ => none

def resolveChar (e : Editor) (key : Key) : Option Text :=
  if e.alphaMode ≠ .off then
    let char := alphaMap key <|> baseMap key
    if (e.alphaMode == .upper) != e.shiftActive then char.map (·.map toUpper) else char
  else if e.shiftActive ∧ (shiftMap key).isSome then shiftMap key
  else baseMap key

/-! ## Menus and prompts -/

/-- `draw`, of which the editor keeps what `_ensure_visible` sets. -/
def draw (h : Host) : Edit Unit := update (ensureVisible h)

/-- One turn of `popup`'s loop. -/
def popupTurn {α : Type} (items : List α) (selected : Nat) : Edit (Nat ⊕ Option α) := do
  match ← readKey with
  | .up => return .inl ((selected + items.length - 1) % items.length)
  | .down => return .inl ((selected + 1) % items.length)
  | .exe => return .inr items[selected]?
  | .exit => return .inr none
  | _ => return .inl selected

def popup {α : Type} (items : List α) : Edit (Option α) :=
  if items.isEmpty then return none else keyLoop (popupTurn items) 0

def setShift (on : Bool) (e : Editor) : Editor := { e with shiftActive := on }

/-- The ALPHA key. -/
def pressAlpha (e : Editor) : Editor :=
  { e with
    alphaMode := if e.shiftActive then .upper else if e.alphaMode ≠ .off then .off else .lower, shiftActive := false }

inductive StyleAction where
  | syntaxTheme
  | fontSize
  | cancel
  deriving DecidableEq, Repr

def styleMenu (h : Host) : Edit Unit := do
  match ← popup [StyleAction.syntaxTheme, .fontSize, .cancel] with
  | some .syntaxTheme => do
    match ← popup [Theme.githubDark, .githubLight, .linuxTerminal, .pythonUltraDark, .pythonUltraLight] with
    | some choice => update (setTheme choice)
    | none => return
  | some .fontSize => do
    match ← popup [Font.systemSmall, .systemNormal, .systemLarge] with
    | some choice => update (applyFont h choice)
    | none => return
  | _ => return

/-- One turn of `input_bar`'s loop. -/
def inputTurn (h : Host) (text : Text) : Edit (Text ⊕ Option Text) := do
  draw h
  let key ← readKey
  let e ← editor
  if key = .exit then return .inr none
  else if key = .exe then return .inr (some text)
  else if key = .shift then
    update fun e => setShift (!e.shiftActive) e
    return .inl text
  else if key = .alpha then
    update pressAlpha
    return .inl text
  else if key = .f6 ∨ (e.shiftActive ∧ key = .del) then
    update (setShift false)
    return .inl (text ++ (← popup symbols).toList)
  else if e.shiftActive ∧ key = .vars then
    update (setShift false)
    styleMenu h
    return .inl text
  else if key = .del then return .inl text.dropLast
  else
    update (setShift false)
    return .inl (text ++ (resolveChar e key).getD [])

def inputBar (h : Host) (initial : Text) : Edit (Option Text) := keyLoop (inputTurn h) initial

/-- A call of `insert`. -/
def insertText (h : Host) (text : Text) : Edit Unit := do
  record (.insert text (← editor))
  edit (insert h text)

/-- A call of `newline`. -/
def startLine (h : Host) : Edit Unit := do
  record (.newline (← editor))
  edit (newline h)

def findText (h : Host) : Edit Unit := do
  match ← inputBar h (← editor).lastSearch with
  | some query => if query ≠ [] then edit (findQuery h query)
  | none => return

/-- `pythonultra.catalog_text`. -/
def catalogText (module member : Text) : Text :=
  if module = lit "builtins" then member else module ++ lit "." ++ member

/-- `pythonultra.catalog_data`. -/
def catalogData (h : Host) (module : Text) : List Text := ((h.catalog.find? (·.1 = module)).map (·.2)).getD []

def catalogMenu (h : Host) : Edit Unit := do
  match ← popup (h.catalog.map (·.1)) with
  | some module =>
    if module ≠ [] then
      match ← popup (catalogData h module) with
      | some member => if member ≠ [] then insertText h (catalogText module member)
      | none => return
  | none => return

/-- The popup's answer is `Discard`. -/
def confirmDiscard : Edit Bool := do
  if !(← editor).dirty then return true
  else return (← popup [false, true]) = some true

def newDefault : Edit Text := do
  let filename := (← editor).filename
  let folder := match rfind filename slashChr with
    | some i => filename.take (i + 1)
    | none => []
  unusedFilename (folder ++ lit "new.py")

/-! ## Running a script -/

def execScript (h : Host) (code : Text) : Edit Unit := fun s =>
  match h.exec code (s.world, s.perms) with
  | (r, (w, perms)) => (r, { s with world := w, perms := perms })

/-- `run_code` inside its `try`. -/
def runSource (h : Host) (filename : Text) : Edit Unit := do
  call (Pyperm.requireRead (← get).perms (bytes filename))
  let code ← call (readText (bytes filename) (maxEditBytes + 1))
  if code.length > maxEditBytes then throw (.raised (.valueError "file too large" []))
  else execScript h code

/-- The buffer is not what is in the file. -/
def unsaved : Edit Bool := do
  let e ← editor
  if e.dirty then return true else return !(← exists_ e.filename)

/-- The file holds the buffer, or is given it. -/
def ensureSaved : Edit Bool := do
  if ← unsaved then saveFile none else return true

def runCode (h : Host) : Edit Bool := do
  let e ← editor
  if !(lit ".py").isSuffixOf (e.filename.map toLower) then
    update (setMsg (.text "Run needs .py"))
    return false
  else if e.loadFailed then
    update (setMsg (.text "Open failed"))
    return false
  else if ← ensureSaved then
    match ← tryExc (runSource h (← editor).filename) with
    | .ok _ =>
      update (setMsg (.text "Run OK"))
      return true
    | .error _ =>
      update (setMsg (.text "Run error"))
      return false
  else return false

/-! ## The key loop -/

/-- What `run` returns. -/
inductive Outcome where
  | run
  | exit
  deriving DecidableEq, Repr

def setMode (mode : Mode) (e : Editor) : Editor := { e with mode := mode }

/-- A symbol picked and put in. -/
def insertSymbol (h : Host) (mode : Editor → Editor) : Edit Unit := do
  match ← popup symbols with
  | some symbol =>
    insertText h [symbol]
    update mode
  | none => return

/-- The keys F1 to F6, SHIFT and ALPHA. -/
def functionKey (h : Host) : Key → Edit (Option Outcome)
  | .f1 => do if ← runCode h then return some .run else return none
  | .f2 => do
    let _ ← saveFile none
    return none
  | .f3 => do
    if ← confirmDiscard then
      match ← inputBar h (← newDefault) with
      | some name => if name ≠ [] then let _ ← startNew name
      | none => pure ()
    return none
  | .f4 => do
    if ← confirmDiscard then
      match ← inputBar h (← editor).filename with
      | some name => if name ≠ [] then let _ ← loadFile (some name) false
      | none => pure ()
    return none
  | .f5 => do
    findText h
    return none
  | .f6 => do
    update (setShift false)
    insertSymbol h (setMode .insert)
    return none
  | .shift => do
    update fun e => setShift (!e.shiftActive) e
    return none
  | .alpha => do
    update pressAlpha
    return none
  | _ => return none

def isFunctionKey (key : Key) : Bool := key ∈ [Key.f1, .f2, .f3, .f4, .f5, .f6, .shift, .alpha]

/-- The keys with a meaning of their own after SHIFT; whether this was one. -/
def shiftedKey (h : Host) (key : Key) : Edit Bool := do
  let e ← editor
  if ¬ e.shiftActive then return false
  else if key = .vars then
    update (setShift false)
    styleMenu h
    return true
  else if e.alphaMode = .off ∧ key = .k8 then
    update fun e => { e with mode := .visual, selStart := some (e.cy, e.cx), shiftActive := false }
    return true
  else if e.alphaMode = .off ∧ key = .k9 then
    insertText h e.clipboard
    update (setShift false)
    return true
  else if e.alphaMode = .off ∧ key = .k4 then
    catalogMenu h
    update (setShift false)
    return true
  else if key = .del then
    insertSymbol h id
    update (setShift false)
    return true
  else return false

/-- The keys with a meaning of their own in VISUAL mode. -/
def visualKey (h : Host) (key : Key) : Edit Bool := do
  if (← editor).mode ≠ .visual then return false
  else if key = .optn then
    edit (copySelection h false)
    return true
  else if key = .del then
    edit (copySelection h true)
    return true
  else return false

/-- A key that types. -/
def typeKey (h : Host) (key : Key) : Edit Unit := do
  match resolveChar (← editor) key with
  | none => return
  | some char =>
    if (← editor).mode = .normal then update (setMode .insert)
    if (← editor).mode = .insert then insertText h char

def plainKey (h : Host) : Key → Edit (Option Outcome)
  | .up => do
    edit (move h (-1) 0)
    return none
  | .down => do
    edit (move h 1 0)
    return none
  | .left => do
    edit (move h 0 (-1))
    return none
  | .right => do
    edit (move h 0 1)
    return none
  | .optn => do
    update fun e => { e with mode := if e.mode = .insert then .normal else .insert, selStart := none }
    return none
  | .del => do
    if (← editor).mode = .insert then edit (backspace h)
    return none
  | .exe => do
    if (← editor).mode ≠ .visual then
      update (setMode .insert)
      startLine h
    return none
  | .exit => do if ← confirmDiscard then return some .exit else return none
  | key => do
    typeKey h key
    return none

/-- What a key does past F1 to F6, SHIFT and ALPHA. -/
def otherKey (h : Host) (key : Key) : Edit (Option Outcome) := do
  if ← shiftedKey h key then return none
  else if ← visualKey h key then return none
  else match ← plainKey h key with
    | some outcome => return some outcome
    | none =>
      update (setShift false)
      return none

/-- One turn of `run`'s loop. -/
def turn (h : Host) (_ : Unit) : Edit (Unit ⊕ Outcome) := do
  draw h
  let key ← readKey
  if key ∈ [Key.f1, .f2, .f3, .f4, .f5] then update (setShift false)
  match ← if isFunctionKey key then functionKey h key else otherKey h key with
  | some outcome => return .inr outcome
  | none => return .inl ()

def run (h : Host) : Edit Outcome := keyLoop (turn h) ()

/-! ## Opening the editor -/

/-- The fields `Editor.__init__` sets before it loads the file. -/
def blank (filename : Text) (theme : Theme) : Editor where
  filename := if filename ≠ [] then filename else lit "new.py"
  lines := [[]]
  cx := 0
  cy := 0
  goalX := 0
  scrollX := 0
  scrollY := 0
  mode := .normal
  alphaMode := .off
  shiftActive := false
  clipboard := []
  selStart := none
  lastSearch := []
  dirty := false
  loadFailed := false
  msg := .text ""
  themeName := theme
  fontName := .systemSmall
  fontW := 9
  fontH := 10

/-- `Editor(filename, theme)`. -/
def construct (h : Host) (filename : Text) (theme : Theme) : Edit Unit := do
  update fun _ => applyFont h .systemSmall (blank filename theme)
  let _ ← loadFile (some (blank filename theme).filename) true

/-- Nothing is measured, and scripts do nothing. -/
def idleHost : Host where
  fontMetrics _ := none
  dsize _ _ := none
  catalog := []
  exec _ s := (.ok (), s)

end PythonUltra.Pyeditor
