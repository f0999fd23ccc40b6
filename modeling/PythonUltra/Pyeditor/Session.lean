/-
  PythonUltra.Pyeditor.Session — the editor in a session, and its files
  (modules/pyeditor/__init__.py).

  A `Session` is the editor with the storage, the permission table and the keys that
  _KeyReader.read() has still to return. `log` records what the statements about whole
  sessions are about: each call of `insert` and `newline` with the editor it found, and
  each text loaded. No program reads it.

  Of save_file's local variables `temporary` is read by its `finally`, and so it is kept
  beside the session (`Saving`); `backup` is passed on.
-/

import PythonUltra.Os.Files
import PythonUltra.Pyeditor.Model

namespace PythonUltra.Pyeditor

open PythonUltra.Lib PythonUltra.Lib.Prog PythonUltra.Os

/-- The keys the editor tells apart. -/
inductive Key where
  | f1 | f2 | f3 | f4 | f5 | f6
  | shift | alpha | optn | vars | exit | del | exe
  | left | up | down | right
  | xot | log | ln | sin | cos | tan
  | frac | fd | leftpar | rightpar | comma | arrow
  | k0 | k1 | k2 | k3 | k4 | k5 | k6 | k7 | k8 | k9
  | mul | div | add | sub | dot | exp | neg | equals
  | other (code : Nat)
  deriving DecidableEq, Repr

inductive Change where
  | insert (text : Text) (e : Editor)
  | newline (e : Editor)
  | load (text : Text)

structure Session where
  world : World
  perms : Pyperm.Table
  ed : Editor
  keys : List Key
  log : List Change

abbrev Edit := Prog Session Stop

/-- A call of the os module or of a file object. -/
def call {α : Type} (x : Call α) : Edit α := fun s => match x s.world with
  | (.ok a, w) => (.ok a, { s with world := w })
  | (.error e, w) => (.error (.raised e), { s with world := w })

def editor : Edit Editor := do return (← get).ed

def update (f : Editor → Editor) : Edit Unit := modify fun s => { s with ed := f s.ed }

/-- A method that may raise IndexError. -/
def edit (f : Editor → Except Exc Editor) : Edit Unit := fun s => match f s.ed with
  | .ok e => (.ok (), { s with ed := e })
  | .error x => (.error (.raised x), s)

def record (c : Change) : Edit Unit := modify fun s => { s with log := s.log ++ [c] }

/-- `try: x` with an `except OSError`. -/
def tryOS {α : Type} (x : Edit α) : Edit (Except Errno α) :=
  tryCatch (do return .ok (← x)) fun stop => match stop with
    | .raised (.osError e) => return .error e
    | stop => throw stop

/-- `try: x` with an `except Exception`. -/
def tryExc {α : Type} (x : Edit α) : Edit (Except Exc α) :=
  tryCatch (do return .ok (← x)) fun stop => match stop with
    | .raised e => return .error e
    | stop => throw stop

/-! ## Files -/

def slashChr : Chr := ofChar '/'

def exists_ (path : Text) : Edit Bool := call (existsPath (bytes path))

/-- The candidates of `_unused_filename`'s loop. -/
def numbered (folder stem suffix : Text) : List Nat → Edit Text
  | [] => throw (.raised (.osError (.text "No unused filename" [])))
  | number :: rest => do
    let candidate := folder ++ stem ++ lit "_" ++ (Nat.toDigits 10 number).map ofChar ++ suffix
    if !(← exists_ candidate) then return candidate else numbered folder stem suffix rest

def unusedFilename (filename : Text) : Edit Text := do
  let filename := if filename ≠ [] then filename else lit "new.py"
  if !(← exists_ filename) then return filename
  else
    let cut := match rfind filename slashChr with
      | some i => i + 1
      | none => 0
    let folder := filename.take cut
    let leaf := filename.drop cut
    let dot := (rfind leaf (ofChar '.')).getD 0
    let stem := if dot > 0 then leaf.take dot else leaf
    let suffix := if dot > 0 then leaf.drop dot else []
    numbered folder stem suffix (List.range' 1 999)

/-- The name a file function acts on: the one given, or the editor's. -/
def candidateOf (filename : Option Text) : Edit Text := do return strip (filename.getD (← editor).filename)

/-- The part of `load_file` inside its second `try`: the text, or nothing if it is too large. -/
def readSource (candidate : Text) (size : Nat) : Edit (Option Text) := do
  if size > maxEditBytes then return none
  else
    call (Pyperm.requireRead (← get).perms (bytes candidate))
    let text ← call (readText (bytes candidate) (maxEditBytes + 1))
    if text.length > maxEditBytes ∨ text.count lf ≥ maxEditLines then return none else return some text

/-- The lines `load_file` makes of a text. -/
def linesOf (text : Text) : List Text := (replace (replace text [cr, lf] [lf]) [cr] [lf]).splitOn lf

/-- What a failed `load_file` leaves. -/
def openFailed (allowNew : Bool) (msg : Msg) (e : Editor) : Editor :=
  { e with msg := msg, loadFailed := e.loadFailed || allowNew }

/-- The buffer replaced. -/
def setBuffer (candidate : Text) (lines : List Text) (dirty : Bool) (e : Editor) : Editor :=
  resetView { e with filename := candidate, loadFailed := false, lines := lines, dirty := dirty }

def setMsg (msg : Msg) (e : Editor) : Editor := { e with msg := msg }

def loadFile (filename : Option Text) (allowNew : Bool) : Edit Bool := do
  let candidate ← candidateOf filename
  if candidate = [] then
    update (setMsg (.text "Name error"))
    return false
  else match ← tryOS (call (stat (bytes candidate))) with
    | .error e =>
      if allowNew ∧ e = .enoent then
        update fun ed => setMsg (.text "New") (setBuffer candidate [[]] false ed)
        return true
      else
        update (openFailed allowNew (.failed "Open " (.osError e)))
        return false
    | .ok st => match ← tryExc (readSource candidate st.size) with
      | .error e =>
        update (openFailed allowNew (.failed "Open " e))
        return false
      | .ok none =>
        update (openFailed allowNew (.text "File too large"))
        return false
      | .ok (some text) =>
        record (.load text)
        update (setBuffer candidate (linesOf text) false)
        let writable ← call (Pyperm.writable (← get).perms (bytes candidate))
        update (setMsg (.text (if writable then "Loaded" else "Read only")))
        return true

def startNew (filename : Text) : Edit Bool := do
  let candidate := strip filename
  if candidate = [] then
    update (setMsg (.text "Name error"))
    return false
  else if ← exists_ candidate then
    update (setMsg (.text "Already exists"))
    return false
  else
    update fun e => setMsg (.text "New") (setBuffer candidate [[]] true e)
    return true

/-- `save_file`'s `temporary` beside the session: its `finally` reads it. -/
abbrev Saving := Prog (Session × Option Text) Stop

def setTemporary (t : Option Text) : Saving Unit := modify fun s => (s.1, t)

def writeLines (f : Path) (lines : List Text) : Call Unit :=
  lines.zipIdx.foldlM (fun _ line => do
    if line.2 ≠ 0 then write f (bytes [lf])
    write f (bytes line.1)) ()

def writeTemporary (temporary : Text) (lines : List Text) : Call Unit := do
  let target ← openWrite (bytes temporary)
  writeLines target lines
  flush

/-- A rename of `save_file`. -/
def renameText (old new : Text) : Edit Unit := call (rename (bytes old) (bytes new))

/-- What was at the target moved out of the way. -/
def moveAside (candidate : Text) : Edit (Option Text) := do
  if ← exists_ candidate then
    let backup ← unusedFilename (candidate ++ lit ".pu-backup")
    renameText candidate backup
    return some backup
  else return none

/-- The temporary renamed to the target; on failure the backup goes back. -/
def publish (temporary candidate : Text) (backup : Option Text) : Saving Unit :=
  tryCatch (do
      lift (renameText temporary candidate)
      setTemporary none)
    fun stop => match stop, backup with
      | .raised e, some backup => do
        lift (renameText backup candidate)
        throw (.raised e)
      | stop, _ => throw stop

def dropBackup : Option Text → Edit Unit
  | none => return
  | some backup => do
    match ← tryOS (call (unlink (bytes backup))) with
    | .ok _ => return
    | .error _ => update (setMsg (.text "Saved; backup kept"))

/-- What a file saved under a name leaves. -/
def setSaved (candidate : Text) (e : Editor) : Editor :=
  { e with filename := candidate, dirty := false, msg := .text "Saved" }

/-- `save_file` inside its `try`. -/
def saveBody (candidate : Text) : Saving Bool := do
  let s ← get
  lift (call (Pyperm.requireWrite s.1.perms (bytes candidate)))
  let parent := match rfind candidate slashChr with
    | some i => candidate.take i
    | none => lit "."
  lift (call (Pyperm.requireWrite s.1.perms (bytes (if parent ≠ [] then parent else lit "/"))))
  let temporary ← lift (unusedFilename (candidate ++ lit ".pu-tmp"))
  setTemporary (some temporary)
  lift (call (writeTemporary temporary s.1.ed.lines))
  let backup ← lift (moveAside candidate)
  publish temporary candidate backup
  lift (update (setSaved candidate))
  lift (dropBackup backup)
  return true

/-- `save_file`'s `finally`. -/
def dropTemporary : Saving Unit := do
  match (← get).2 with
  | none => return
  | some temporary => let _ ← lift (tryOS (call (unlink (bytes temporary))))

def saveFile (filename : Option Text) : Edit Bool := do
  if (← editor).loadFailed then
    update (setMsg (.text "Open failed; use New"))
    return false
  else
    let candidate ← candidateOf filename
    if candidate = [] then
      update (setMsg (.text "Name error"))
      return false
    else withVar none (closing
      (tryCatch (saveBody candidate) fun stop => match stop with
        | .raised e => do
          lift (update (setMsg (.failed "Save " e)))
          return false
        | stop => throw stop)
      dropTemporary)

end PythonUltra.Pyeditor
