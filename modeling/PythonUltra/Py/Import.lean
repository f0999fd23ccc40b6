/-
  PythonUltra.Py.Import — importing files (py/builtinimport.c) and the stack of the files
  being executed (mp_parse_compile_execute in py/runtime.c), as the port is configured:
  MICROPY_RELATIVE_FILE_IMPORTS, frozen modules, no .mpy files on the filesystem.

  `Code` is what running code does, step by step: each parse, compile or execution may
  return or raise (`Source`, `raise`), and `guarded` is an exception caught. `run` gives the
  state it leaves and what happened on the way (`Event`). The filesystem, sys.path and the
  tables of modules are those of the moment an import is executed (`World`).
-/

import PythonUltra.Os.Pathutil

namespace PythonUltra.Py

open PythonUltra.Os (Str slash cstr)
open PythonUltra.Os.Pathutil (CStr)

namespace Import

inductive Stat where
  | noExist
  | dir
  | file
  deriving DecidableEq, Repr

inductive Frozen where
  | str
  | mpy
  deriving DecidableEq, Repr

structure World where
  /-- `mp_import_stat` of the port. -/
  importStat : Str → Stat
  /-- `mp_frozen_names`. -/
  frozenNames : List (Str × Frozen)
  sysPath : List Str
  /-- The built-in modules, without and with the ones that files may extend. -/
  builtins : List Str
  extensible : List Str

/-- The path did not fit into its buffer: RuntimeError. -/
inductive PathError where
  | overflow
  deriving DecidableEq, Repr

abbrev Searching := Except PathError

/-- `MICROPY_ALLOC_PATH_MAX`. -/
def allocPathMax : Nat := 256

/-- "/". -/
def pathSep : Str := [slash]

/-- ".py". -/
def py : Str := [46, 112, 121]

/-- "/__init__.py". -/
def initPy : Str := slash :: [95, 95, 105, 110, 105, 116, 95, 95] ++ py

/-- ".frozen/". -/
def frozenPrefix : Str := [46, 102, 114, 111, 122, 101, 110, slash]

/-- "sys" and "usys". -/
def sys : Str := [115, 121, 115]

def usys : Str := 117 :: sys

/-- `vstr_add_str` on the fixed buffer. -/
def vstrAdd (path s : Str) : Searching Str :=
  if path.length + s.length ≤ allocPathMax then .ok (path ++ s) else .error .overflow

/-- `vstr_null_terminated_str` on the fixed buffer. -/
def vstrNullTerminated (path : Str) : Searching Str :=
  if path.length = allocPathMax then .error .overflow else .ok (cstr path)

/-- `mp_find_frozen_module`. -/
def findFrozenModule (str : Str) : List (Str × Frozen) → Stat × Option Frozen
  | [] => (.noExist, none)
  | (name, type) :: names =>
    if str = name then (.file, some type)
    else if (str ++ pathSep).isPrefixOf name then (.dir, none)
    else findFrozenModule str names

/-- The name of a frozen file, without its `.frozen/`. -/
def frozenName (str : Str) : Option Str := if frozenPrefix.isPrefixOf str then some (str.drop frozenPrefix.length) else none

/-- What `stat_path` says of a string, frozen or not. -/
def World.stat (w : World) (str : Str) : Stat :=
  match frozenName str with
  | some name => (findFrozenModule name w.frozenNames).1
  | none => w.importStat str

def statPath (w : World) (path : Str) : Searching Stat := do
  let str ← vstrNullTerminated path
  return w.stat str

def statFilePy (w : World) (path : Str) : Searching (Stat × Str) := do
  let stat ← statPath w path
  return (if stat = .file then .file else .noExist, path)

def statModule (w : World) (path : Str) : Searching (Stat × Str) := do
  let stat ← statPath w path
  if stat = .dir then return (stat, path)
  else do
    let path ← vstrAdd path py
    statFilePy w path

/-- A directory, the separator and a module's name. -/
def pathIn (dir modName : Str) : Searching Str := do
  let path ← vstrAdd [] dir
  let path ← vstrAdd path pathSep
  vstrAdd path modName

/-- One entry of sys.path: "" is the current directory. -/
def entryPath (entry modName : Str) : Searching Str := if entry.length > 0 then pathIn entry modName else vstrAdd [] modName

/-- The entries of sys.path in order. -/
def statTopLevel (w : World) (modName : Str) : List Str → Searching (Stat × Str)
  | [] => .ok (.noExist, [])
  | entry :: entries => do
    let dest ← entryPath entry modName
    let found ← statModule w dest
    if found.1 ≠ .noExist then return found else statTopLevel w modName entries

/-- The part of a source name before its last slash; nothing if there is none. -/
def dirPart (name : Str) : Str := ((name.reverse.dropWhile (· ≠ slash)).drop 1).reverse

/-- `mp_module_get_builtin`: the module's own name. A `ufoo` is the built-in `foo`. -/
def getBuiltin (w : World) (name : Str) (extensible : Bool) : Option Str :=
  if name ∈ (if extensible then w.extensible else w.builtins) then some name
  else if name = usys then some sys
  else if extensible then none
  else match name with
    | 117 :: rest => if rest ∈ w.extensible then some rest else none
    | _ => none

/-- What an import finds. -/
inductive Choice where
  | builtin (name : Str)
  | package (path : Str)
  | source (path : Str)
  deriving DecidableEq, Repr

def Choice.ofStat : Stat × Str → Option Choice
  | (.noExist, _) => none
  | (.dir, path) => some (.package path)
  | (.file, path) => some (.source path)

/-- The relative import next to the file on top of the stack. -/
def statRelative (w : World) (importStack : List CStr) (modName : Str) : Searching (Stat × Str) :=
  match importStack.getLast? with
  | some prev => do
    let path ← pathIn (dirPart prev) modName
    statModule w path
  | none => .ok (.noExist, [])

/-- Next to the last import, then in sys.path. -/
def searchFiles (w : World) (importStack : List CStr) (modName : Str) : Searching (Stat × Str) := do
  let found ← statRelative w importStack modName
  if found.1 = .noExist then statTopLevel w modName w.sysPath else return found

/-- The search of `process_import_at_level` for a top-level module. -/
def searchTop (w : World) (importStack : List CStr) (modName : Str) : Searching (Option Choice) :=
  match getBuiltin w modName false with
  | some name => .ok (some (.builtin name))
  | none => do
    let found ← searchFiles w importStack modName
    if found.1 = .noExist then return (getBuiltin w modName true).map .builtin else return Choice.ofStat found

/-- The search for a submodule of a module with this `__path__`, if it has one. -/
def searchSub (w : World) (outerPath : Option Str) (modName : Str) : Searching (Option Choice) :=
  match outerPath with
  | some outer => do
    let path ← pathIn outer modName
    let found ← statModule w path
    return Choice.ofStat found
  | none => .ok none

/-! ## Running -/

inductive InputKind where
  | file
  | single
  | eval
  deriving DecidableEq, Repr

/-- Which steps before the execution of a source return: reading it, the append to the stack, the parser and the compiler. -/
structure Source where
  opened : Bool
  appended : Bool
  parsed : Bool
  compiled : Bool
  deriving DecidableEq, Repr

structure State where
  importStack : List CStr
  /-- The names in sys.modules. -/
  loaded : List Str

/-- The file whose code is running, and its source name if that is its module code. -/
structure Ctx where
  file : Option CStr
  module : Option CStr

inductive Event where
  /-- A call of `mp_parse_compile_execute` was left; `unwound` if by an exception after its name was appended. -/
  | left (entry exit : List CStr) (unwound : Bool)
  /-- The module code of a file at a step. -/
  | running (name : CStr) (importStack : List CStr)
  /-- The search for a top-level module that is not loaded. -/
  | searched (ctx : Ctx) (w : World) (modName : CStr) (importStack : List CStr) (found : Searching (Option Choice))

structure Outcome where
  raised : Bool
  state : State
  log : List Event

abbrev Action := State → Outcome

namespace Action

def skip : Action := fun s => ⟨false, s, []⟩

def fail : Action := fun s => ⟨true, s, []⟩

def emit (e : State → List Event) : Action := fun s => ⟨false, s, e s⟩

def update (f : State → State) : Action := fun s => ⟨false, f s, []⟩

def andThen (a b : Action) : Action := fun s =>
  if (a s).raised then a s
  else ⟨(b (a s).state).raised, (b (a s).state).state, (a s).log ++ (b (a s).state).log⟩

/-- An exception of `a` goes on with `h`. -/
def catching (a h : Action) : Action := fun s =>
  if (a s).raised then ⟨(h (a s).state).raised, (h (a s).state).state, (a s).log ++ (h (a s).state).log⟩
  else a s

end Action

/-- `mp_obj_list_append`, which may raise MemoryError. -/
def push (name : CStr) : Action := .update fun s => { s with importStack := s.importStack ++ [name] }

/-- `mp_obj_list_pop` of the last item; IndexError on an empty list. -/
def pop : Action := fun s =>
  if s.importStack = [] then ⟨true, s, []⟩ else ⟨false, { s with importStack := s.importStack.dropLast }, []⟩

/-- The body of `mp_parse_compile_execute`, with the exception handler registered. -/
def parseCompile (src : Source) (execute : Action) : Action :=
  if src.parsed = false then .fail else if src.compiled = false then .fail else execute

/-- `mp_parse_compile_execute`. -/
def parseCompileExecute (kind : InputKind) (name : CStr) (src : Source) (execute : Action) : Action := fun s =>
  let o := if kind = .file then
      if src.appended then ((push name).andThen ((parseCompile src execute).andThen pop)) s else Action.fail s
    else parseCompile src execute s
  { o with log := o.log ++ [.left s.importStack o.state.importStack (o.raised && src.appended && kind = .file)] }

/-- `qstr_from_str`. -/
def qstr (s : Str) : CStr := ⟨cstr s, Os.zero_not_mem_cstr s⟩

/-- `do_load`: a frozen .mpy is executed without going through the stack. -/
def doLoad (w : World) (path : Str) (src : Source) (execute : Ctx → Action) : Action :=
  let fromLexer (name : CStr) : Action :=
    if src.opened then parseCompileExecute .file name src (execute ⟨some (qstr path), some name⟩) else .fail
  match frozenName (cstr path) with
  | some name =>
    match (findFrozenModule name w.frozenNames).2 with
    | some .str => fromLexer (qstr name)
    | some .mpy => execute ⟨some (qstr path), none⟩
    | none => fromLexer (qstr path)
  | none => fromLexer (qstr path)

/-- A module is in sys.modules while it is loaded, and taken out again if that fails. -/
def registering (fullName : Str) (load : Action) : Action :=
  (Action.update fun s => { s with loaded := s.loaded.insert fullName }).andThen
    (load.catching ((Action.update fun s => { s with loaded := s.loaded.filter (· ≠ fullName) }).andThen .fail))

/-- A package runs its `__init__.py`, if it has one. -/
def loadPackage (w : World) (path : Str) (src : Source) (execute : Ctx → Action) : Action :=
  match (do statFilePy w (← vstrAdd path initPy)) with
  | .ok (.file, init) => doLoad w init src execute
  | .ok _ => .skip
  | .error _ => .fail

/-- What is found is loaded; a built-in only has its `__init__` called, which may raise. -/
def load (w : World) (fullName : Str) (src : Source) (execute : Ctx → Action) : Searching (Option Choice) → Action
  | .error _ => .fail
  | .ok none => .fail
  | .ok (some (.builtin _)) => if src.opened then .skip else .fail
  | .ok (some (.package path)) => registering fullName (loadPackage w path src execute)
  | .ok (some (.source path)) => registering fullName (doLoad w path src execute)

/-- `process_import_at_level`: `outer` is the `__path__` of the module before the last dot, if there is one. -/
def processImportAtLevel (ctx : Ctx) (w : World) (fullName : Str) (modName : CStr) (outer : Option (Option Str)) (src : Source)
    (execute : Ctx → Action) : Action := fun s =>
  if w.sysPath ≠ [] ∧ fullName ∈ s.loaded then Action.skip s
  else match outer with
    | none =>
      ((Action.emit fun s => [.searched ctx w modName s.importStack (searchTop w s.importStack modName)]).andThen
        (load w fullName src execute (searchTop w s.importStack modName))) s
    | some path => load w fullName src execute (searchSub w path modName) s

/-- What code does. -/
inductive Code where
  | done
  | raise
  /-- exec(), eval() and their like. -/
  | execute (kind : InputKind) (name : CStr) (src : Source) (body rest : Code)
  /-- One level of an import; `body` is the code of the file found. -/
  | importAt (w : World) (fullName : Str) (modName : CStr) (outer : Option (Option Str)) (src : Source) (body rest : Code)
  /-- A call of a function that a file defined. -/
  | function (file : Option CStr) (body rest : Code)
  | guarded (body handler rest : Code)

/-- What is seen while module code runs. -/
def observe (ctx : Ctx) : Action := .emit fun s =>
  match ctx.module with
  | some name => [.running name s.importStack]
  | none => []

def run : Code → Ctx → Action
  | .done, ctx => observe ctx
  | .raise, ctx => (observe ctx).andThen .fail
  | .execute kind name src body rest, ctx =>
    (observe ctx).andThen
      ((parseCompileExecute kind name src (run body ⟨none, if kind = .file then some name else none⟩)).andThen (run rest ctx))
  | .importAt w fullName modName outer src body rest, ctx =>
    (observe ctx).andThen
      ((processImportAtLevel ctx w fullName modName outer src fun inner => run body inner).andThen (run rest ctx))
  | .function file body rest, ctx => (observe ctx).andThen ((run body ⟨file, none⟩).andThen (run rest ctx))
  | .guarded body handler rest, ctx => ((run body ctx).catching (run handler ctx)).andThen (run rest ctx)

end Import

end PythonUltra.Py
