/-
  PythonUltra.Pyperm.Table — pyperm's table and its file (modules/pyperm/__init__.py).

  `_cache` is the table once it is loaded, `db` the text of DB_PATH, if there is the file.
  What else a call depends on is its `Env`: the current directory, what stat says, whether
  the file is saved, and the order in which a dict lists its keys, which is any.

  The text has a line for each path: the mode in octal, a tab, the path.
-/

import PythonUltra.Os.PathutilSpec

namespace PythonUltra.Pyperm

open PythonUltra.Lib PythonUltra.Os

/-! ## Text -/

def tab : UInt8 := 9

def newline : UInt8 := 10

def carriageReturn : UInt8 := 13

/-- `unichar_isspace` -/
def isspace (c : UInt8) : Bool := c = 32 || 9 ≤ c && c ≤ 13

def isOctDigit (c : UInt8) : Bool := 48 ≤ c && c < 56

/-- The number of octal digits and underscores; only digits count. -/
def octValue (digits : Str) : Nat := (digits.filter isOctDigit).foldl (fun v c => v * 8 + (c.toNat - 48)) 0

/-- `int(text, 8)` (mp_parse_num_integer). A number that is no small int is read anew by
`mpz_set_from_str`, which stops at an underscore. none: ValueError. -/
def intOctal (text : Str) : Option Int :=
  let text := text.dropWhile isspace
  let neg := text.head? = some 45
  let text := if text.head? = some 43 ∨ text.head? = some 45 then text.tail else text
  let text := if text.head? = some 48 ∧ (text.getD 1 0) ||| 32 = 111 then text.drop 2 else text
  let digits := text.takeWhile fun c => isOctDigit c || c = 95
  let digits := if 2 ^ 30 ≤ octValue digits then text.takeWhile isOctDigit else digits
  let rest := text.drop digits.length
  if digits = [] ∨ ¬ rest.all isspace then none
  else if neg then some (-octValue digits) else some (octValue digits)

/-- `"%03o" % mode`, of a mode of nine bits. -/
def octal3 (mode : Nat) : Str :=
  [48 + UInt8.ofNat (mode / 64 % 8), 48 + UInt8.ofNat (mode / 8 % 8), 48 + UInt8.ofNat (mode % 8)]

/-- The lines of a file; `line` is read already. -/
def readLinesFrom (line : Str) : Str → List Str
  | [] => if line = [] then [] else [line]
  | c :: text => if c = newline then (line ++ [c]) :: readLinesFrom [] text else readLinesFrom (line ++ [c]) text

/-- `for raw in source` -/
def readLines (text : Str) : List Str := readLinesFrom [] text

/-! ## The table -/

inductive PermExc where
  | exc (e : Exc)
  | keyError
  deriving DecidableEq

/-- A turn of the loop of `_load`. -/
def loadLine (cwd : Path) (data : Table) (raw : Str) : Except PermExc Table :=
  if !utf8Check raw then .error (.exc .unicodeError)
  else
    let raw := raw.rdropWhile fun c => c = carriageReturn || c = newline
    if raw = [] ∨ tab ∉ raw then .ok data
    else
      let modeText := raw.takeWhile (· ≠ tab)
      let path := raw.drop (modeText.length + 1)
      match intOctal modeText with
      | none => .ok data
      | some mode => .ok (data.insert (abspathIn cwd path) (mode % 0o1000).toNat)

/-- What `_load` makes of DB_PATH. -/
def loadText (cwd : Path) (db : Option Str) : Except PermExc Table :=
  match db with
  | none => .ok ∅
  | some text => (readLines text).foldlM (loadLine cwd) ∅

def saveLine (data : Table) (path : Str) : Str :=
  octal3 ((data.lookup path).getD 0 &&& 0o777) ++ tab :: path ++ [newline]

/-- What `_save` writes. -/
def saveText (data : Table) : Str := (data.keys.mergeSort fun a b => decide (a ≤ b)).flatMap (saveLine data)

/-- `path.rstrip("/") + "/"` -/
def under (path : Str) : Str := path.rdropWhile (· == slash) ++ [slash]

/-- The loop of `remove`. -/
def removeKey (pre : Str) (data : Table) (key : Str) : Table := if pre <+: key then data.erase key else data

/-- The table after `remove(path)`. `keys` is `list(data)`. -/
def removeTable (order : Table → List Str) (data : Table) (path : Str) : Table :=
  let data := if path ∈ data then data.erase path else data
  (order data).foldl (removeKey (under path)) data

/-- The loop of `move`. none: KeyError. -/
def moveKey (pre replacement : Str) (data : Table) (key : Str) : Option Table :=
  if pre <+: key then do
    let value ← data.lookup key
    return (data.erase key).insert (replacement ++ key.drop pre.length) value
  else some data

/-- The table after `move(old, new)`, of absolute paths. -/
def moveTable (order : Table → List Str) (data : Table) (old new : Str) : Option Table :=
  let data := match data.lookup old with
    | some value => (data.erase old).insert new value
    | none => data
  (order data).foldlM (moveKey (under old) (under new)) data

/-- The mode recorded for an absolute path, or the default of a directory or a file. -/
def modeAt (data : Table) (path : Str) (directory : Bool) : Nat :=
  (data.lookup path).getD (if directory then defaultDirMode else defaultFileMode)

/-! ## Calls -/

structure Perm where
  cache : Option Table
  db : Option Str

inductive Saved where
  | done
  /-- OSError, with what the file is then -/
  | failed (left : Option Str)

structure Env where
  cwd : Path
  /-- `os.stat(path)` does not raise -/
  statOk : Bool
  isDir : Bool
  saved : Saved
  /-- `list(data)` -/
  order : Table → List Str
  order_perm : ∀ data, (order data).Perm data.keys

abbrev Op (α : Type) := Prog Perm PermExc α

/-- `_load` -/
def load (env : Env) : Op Table := do
  let p ← Prog.get
  match p.cache with
  | some data => pure data
  | none => do
    let data ← Prog.ofExcept (loadText env.cwd p.db)
    Prog.modify fun p => { p with cache := some data }
    pure data

/-- `_save` -/
def save (env : Env) : Op Bool := do
  let data ← load env
  match env.saved with
  | .done => do
    Prog.modify fun p => { p with db := some (saveText data) }
    pure true
  | .failed left => do
    Prog.modify fun p => { p with db := left }
    pure false

def resetCache : Op Unit := Prog.modify fun p => { p with cache := none }

/-- `get_mode(path, directory)` -/
def getModeOf (env : Env) (path : Str) (directory : Option Bool) : Op Nat := do
  let data ← load env
  pure (modeAt data (abspathIn env.cwd path) (directory.getD env.isDir))

/-- The argument of `chmod`. -/
inductive Mode where
  | int (mode : Int)
  | str (text : Str)

/-- The mode as an int. A text of octal digits has as many bytes as characters. -/
def modeArg : Mode → Except PermExc Int
  | .int mode => .ok mode
  | .str text =>
    let text := (text.dropWhile isspace).rdropWhile isspace
    if (text.length ≠ 3 ∧ text.length ≠ 4) ∨ ¬ text.all isOctDigit then
      .error (.exc (.valueError "mode must be octal, for example 444, 644 or 755" []))
    else .ok (octValue text)

def chmod (env : Env) (path : Str) (mode : Mode) : Op Nat := do
  let path := abspathIn env.cwd path
  if !env.statOk then Prog.throw (.exc (.osError (.text "No such file or directory: " path)))
  else do
    let mode ← Prog.ofExcept (modeArg mode)
    let mode := (mode % 0o1000).toNat
    let data ← load env
    Prog.modify fun p => { p with cache := some (data.insert path mode) }
    let _ ← save env
    pure mode

def remove (env : Env) (path : Str) : Op Unit := do
  let path := abspathIn env.cwd path
  let data ← load env
  let changed := path ∈ data ∨ ∃ key ∈ data.keys, under path <+: key
  Prog.modify fun p => { p with cache := some (removeTable env.order data path) }
  if changed then do
    let _ ← save env
    pure ()
  else pure ()

def move (env : Env) (oldPath newPath : Str) : Op Unit := do
  let oldPath := abspathIn env.cwd oldPath
  let newPath := abspathIn env.cwd newPath
  let data ← load env
  let changed := oldPath ∈ data ∨ ∃ key ∈ data.keys, under oldPath <+: key
  match moveTable env.order data oldPath newPath with
  | none => Prog.throw .keyError
  | some data => do
    Prog.modify fun p => { p with cache := some data }
    if changed then do
      let _ ← save env
      pure ()
    else pure ()

end PythonUltra.Pyperm
