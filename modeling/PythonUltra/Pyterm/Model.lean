/-
  PythonUltra.Pyterm.Model — the terminal's commands on files (modules/pyterm/__init__.py).

  These are what the history, `_mkdir_p` and the copy of a file are made of. What is
  printed is left out, and so are the settings.

  A line is its UTF-8 bytes: all that is looked for in it is ASCII.
-/

import PythonUltra.Os.Files
import PythonUltra.Pyperm.Model
import PythonUltra.Pyperm.Table
import PythonUltra.Zipfile.Model

namespace PythonUltra.Pyterm

open PythonUltra.Lib PythonUltra.Lib.Prog PythonUltra.Os PythonUltra.Pyperm PythonUltra.Zipfile

/-- A text of ASCII characters. -/
def ascii (text : String) : Str := text.toList.map fun c => UInt8.ofNat c.toNat

def historyPath : Str := ascii "/.pythonultra_history"

def historyMaxBytes : Nat := 8192

def historyKeepLines : Nat := 64

def space : UInt8 := 32

def quotes : List UInt8 := [39, 34]

/-! ## Lines -/

/-- `str.strip()` -/
def strip (text : Str) : Str := (text.dropWhile isspace).rdropWhile isspace

structure Splitting where
  result : List Str
  current : Str
  quote : Option UInt8
  escape : Bool

/-- `if current: result.append("".join(current))` -/
def Splitting.words (s : Splitting) : List Str := if s.current = [] then s.result else s.result ++ [s.current]

/-- A turn of the loop of `_split`. -/
def splitChar (s : Splitting) (char : UInt8) : Splitting :=
  if s.escape then { s with current := s.current ++ [char], escape := false }
  else if char = backslash then { s with escape := true }
  else if s.quote ≠ none then
    if s.quote = some char then { s with quote := none } else { s with current := s.current ++ [char] }
  else if char ∈ quotes then { s with quote := some char }
  else if char = space ∨ char = tab then { s with result := s.words, current := [] }
  else { s with current := s.current ++ [char] }

/-- `_split` -/
def split (line : Str) : Except Exc (List Str) :=
  let s := line.foldl splitChar ⟨[], [], none, false⟩
  let s := if s.escape then { s with current := s.current ++ [backslash] } else s
  if s.quote ≠ none then .error (.valueError "unterminated quote" []) else .ok s.words

/-! ## Files -/

/-- `open(path, "ab")` -/
def openAppend (path : Str) : Call Path := do
  io
  let w ← get
  match w.fs.get (w.resolve path) with
  | some (.file _) => return w.resolve path
  | some .dir => throw (.osError .eisdir)
  | none =>
    onPath Fs.create path
    recordMade path
    return w.resolve path

/-- `with open(path, "w")` around writes of the lines. -/
def writeLines (path : Str) (lines : List Str) : Call Unit := do
  let target ← openWrite path
  closing (lines.foldlM (fun _ line => write target line) ()) io

/-- All lines of a text file. -/
def readAll (path : Str) : Call (List Str) := do
  let source ← openRead path
  closing (do
    io
    let text := (← get).contents source.path
    if utf8Check text then return readLines text else throw .unicodeError) io

/-! ## Commands -/

/-- `_history_append` -/
def historyAppend (line : Str) : Call Unit := do
  let line := strip (line.map fun c => if c = newline then space else c)
  if line = [] then return
  ignoreOSError (do
    let target ← openAppend historyPath
    closing (write target (line ++ [newline])) io
    if (← stat historyPath).size > historyMaxBytes then
      let lines ← readAll historyPath
      writeLines historyPath (lines.drop (lines.length - historyKeepLines)))

/-- `current` one part up in `_mkdir_p`. -/
def above (absolute : Bool) (current : Str) : Str :=
  let current := rstrip current
  if slash ∈ current then (current.rdropWhile (· ≠ slash)).dropLast else if absolute then [slash] else []

/-- A turn of the loop of `_mkdir_p`. -/
def mkdirPart (absolute : Bool) (current part : Str) : Call Str :=
  if part = [] ∨ part = dot then pure current
  else if part = dotdot then pure (above absolute current)
  else do
    let current := if current = [] ∨ current = [slash] then (if absolute then [slash] else []) ++ part else current ++ slash :: part
    tryCatch (mkdir current) fun e => match e with
      | .osError e => do if !(← isDir current) then throw (.osError e)
      | e => throw e
    return current

/-- `_mkdir_p` -/
def mkdirP (path : Str) : Call Unit := do
  let absolute := path.head? = some slash
  let _ ← (path.splitOn slash).foldlM (mkdirPart absolute) (if absolute then [slash] else [])

end PythonUltra.Pyterm
