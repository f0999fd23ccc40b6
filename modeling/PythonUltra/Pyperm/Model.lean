/-
  PythonUltra.Pyperm.Model — the permission layer (modules/pyperm/__init__.py).

  The table is pyperm's cache: the mode recorded for an absolute path. A path without one
  has the default mode of a directory or of a file, which grants everything but, for a
  file, execution.
-/

import PythonUltra.Os.Tests

namespace PythonUltra.Pyperm

open PythonUltra.Lib PythonUltra.Lib.Prog PythonUltra.Os

/-- `_cache`, loaded. -/
abbrev Table := AList fun _ : Str => Nat

def defaultFileMode : Nat := 0o666

def defaultDirMode : Nat := 0o777

/-- `abspath` in a directory. The loop over the parts is `pe_consume`'s. -/
def abspathIn (cwd : Path) (path : Str) : Str :=
  let path := if path ≠ [] then path else dot
  let base := pathStr cwd
  let path :=
    if path.head? = some slash then path
    else if base ≠ [slash] then base.rdropWhile (· == slash) ++ slash :: path
    else slash :: path
  pathStr ((path.splitOn slash).foldl component [])

def abspath (path : Str) : Call Str := do return abspathIn (← get).cwd path

def getMode (data : Table) (path : Str) : Call Nat := do
  let path ← abspath path
  match data.lookup path with
  | some mode => return mode
  | none => return if ← isDir path then defaultDirMode else defaultFileMode

def hasMode (data : Table) (path : Str) (mask : Nat) : Call Bool := do
  return (← getMode data path) &&& mask ≠ 0

def readable (data : Table) (path : Str) : Call Bool := hasMode data path 0o444

def writable (data : Table) (path : Str) : Call Bool := hasMode data path 0o222

def requireRead (data : Table) (path : Str) : Call Unit := do
  if !(← readable data path) then throw (.osError (.text "Permission denied (read): " (← abspath path)))

def requireWrite (data : Table) (path : Str) : Call Unit := do
  if !(← writable data path) then throw (.osError (.text "Permission denied (write): " (← abspath path)))

/-! ## Nothing is changed -/

theorem within_abspath (path : Str) : Within Quiet (abspath path) := Within.get.bind fun _ => .pure _

theorem within_getMode (data : Table) (path : Str) : Within Quiet (getMode data path) :=
  (within_abspath path).bind fun p => by
    rcases data.lookup p with _ | mode
    · exact (within_isDir p).bind fun _ => .pure _
    · exact .pure _

theorem within_hasMode (data : Table) (path : Str) (mask : Nat) : Within Quiet (hasMode data path mask) :=
  (within_getMode data path).bind fun _ => .pure _

theorem within_requireRead (data : Table) (path : Str) : Within Quiet (requireRead data path) :=
  (within_hasMode data path _).bind fun _ => .ite ((within_abspath path).bind fun _ => .throw _) (.pure _)

theorem within_requireWrite (data : Table) (path : Str) : Within Quiet (requireWrite data path) :=
  (within_hasMode data path _).bind fun _ => .ite ((within_abspath path).bind fun _ => .throw _) (.pure _)

/-! ## Storage that does not fail -/

variable {w : World} {R : Exc → World → Prop}

end PythonUltra.Pyperm
