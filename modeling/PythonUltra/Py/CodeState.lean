/-
  PythonUltra.Py.CodeState — binding the arguments of a call (mp_setup_code_state_helper in
  py/bc.c).

  The local state is an array of `n_state` slots, MP_OBJ_NULL being `none`; local `i` is at
  `n_state - 1 - i`. Reading or writing a slot that is not there, or a default that is not
  there, is a failure of its own (`outside`), so that none can pass unseen. Tuples, dicts
  and cells are made by functions that are a parameter (`Boxes`); a dict is the finite map
  that mp_map_t stands for (`Py.MapRefine`), its entries in the order they were added.
  Names are looked up through the qstr table of the function's module.
-/

import PythonUltra.Py.Prelude

namespace PythonUltra.Py

/-- Objects made out of others. -/
structure Boxes (κ : Type) where
  /-- `mp_obj_new_tuple`. -/
  tuple : List κ → κ
  /-- A dict with these entries. -/
  dict : List (Nat × κ) → κ
  /-- The value of a dict under a qstr. -/
  lookup : κ → Nat → Option κ
  /-- `mp_obj_new_cell`. -/
  cell : Option κ → κ

structure FunBc (κ : Type) where
  bytecode : List Nat
  /-- The positional defaults, then the dict of the keyword-only ones. -/
  extraArgs : List κ
  qstrTable : List Nat

/-- The TypeErrors, with what their messages show. -/
inductive ArgError where
  | positional (expected given : Nat)
  | multiple (name : Nat)
  | unexpected (name : Nat)
  | missingPositional (n : Int)
  | missingKeyword (name : Nat)
  | missingKeywordOnly
  deriving DecidableEq, Repr

inductive BindError where
  | typeError (e : ArgError)
  | outside
  deriving DecidableEq, Repr

structure CodeState (κ : Type) where
  ip : List Nat
  state : List (Option κ)
  deriving DecidableEq, Repr

namespace CodeState

variable {κ : Type}

abbrev Binding := Except BindError

def flagVarkeywords : Nat := 0x02

def flagVarargs : Nat := 0x04

def flagDefkwargs : Nat := 0x08

/-- The slot at a position. -/
def slot (st : List (Option κ)) (pos : Int) : Binding (Option κ) :=
  if 0 ≤ pos ∧ pos < st.length then .ok (st.getD pos.toNat none) else .error .outside

def put (st : List (Option κ)) (pos : Int) (v : κ) : Binding (List (Option κ)) :=
  if 0 ≤ pos ∧ pos < st.length then .ok (st.set pos.toNat (some v)) else .error .outside

/-- `self->extra_args[i]`. -/
def extra (f : FunBc κ) (i : Int) : Binding κ :=
  if 0 ≤ i then
    match f.extraArgs[i.toNat]? with
    | some v => .ok v
    | none => .error .outside
  else .error .outside

/-- The defaults from local `i` up to `n_pos_args`, when there are no keywords. -/
def fillFrom (f : FunBc κ) (nState nPosArgs nDefPosArgs : Nat) : Nat → Nat → List (Option κ) → Binding (List (Option κ))
  | 0, _, st => .ok st
  | n + 1, i, st => do
    let v ← extra f (i - (nPosArgs - nDefPosArgs : Int))
    let st ← put st (nState - 1 - i : Int) v
    fillFrom f nState nPosArgs nDefPosArgs n (i + 1) st

/-- The positional arguments from the `i`th on. -/
def copyFrom (nState : Nat) : Nat → List κ → List (Option κ) → Binding (List (Option κ))
  | _, [], st => .ok st
  | i, v :: args, st => do
    let st ← put st (nState - 1 - i : Int) v
    copyFrom nState (i + 1) args st

/-- The first of `n` names from `p` on that is the one wanted, counted from `j`. -/
def findName (qstrTable : List Nat) (wanted : Nat) : Nat → Nat → List Nat → Option Nat
  | 0, _, _ => none
  | n + 1, j, p =>
    let (q, p) := decodeUint p
    if wanted = qstrTable.getD q 0 then some j else findName qstrTable wanted n (j + 1) p

/-- A keyword argument for parameter `j`. -/
def bindParam (nState wanted : Nat) (v : κ) (j : Nat) (st : List (Option κ)) : Binding (List (Option κ)) := do
  match ← slot st (nState - 1 - j : Int) with
  | some _ => .error (.typeError (.multiple wanted))
  | none => put st (nState - 1 - j : Int) v

/-- A keyword argument for the dict. -/
def bindExtra (b : Boxes κ) (sig : Sig) (var : Int) (wanted : Nat) (v : κ) (st : List (Option κ)) (dict : List (Nat × κ)) :
    Binding (List (Option κ) × List (Nat × κ)) :=
  if sig.scopeFlags &&& flagVarkeywords = 0 then .error (.typeError (.unexpected wanted))
  else if (dict.map Prod.fst).contains wanted then .error (.typeError (.multiple wanted))
  else do
    let dict := dict ++ [(wanted, v)]
    let st ← put st var (b.dict dict)
    return (st, dict)

/-- One keyword argument; `names` is the start of the names. -/
def bindKeyword (b : Boxes κ) (f : FunBc κ) (sig : Sig) (nState : Nat) (names : List Nat) (var : Int) :
    List (Option κ) × List (Nat × κ) → Nat × κ → Binding (List (Option κ) × List (Nat × κ))
  | (st, dict), (wanted, v) =>
    match findName f.qstrTable wanted (sig.nPosArgs + sig.nKwonlyArgs) 0 names with
    | some j => do
      let st ← bindParam nState wanted v j st
      return (st, dict)
    | none => bindExtra b sig var wanted v st dict

/-- The positional defaults, from the last one on: `d` goes up and `s` goes down. -/
def fillDefaults (f : FunBc κ) (nState : Nat) (sig : Sig) : Nat → Nat → List (Option κ) → Binding (List (Option κ))
  | 0, _, st => .ok st
  | i + 1, t, st => do
    let d : Int := nState - sig.nPosArgs + t
    match ← slot st d with
    | some _ => fillDefaults f nState sig i (t + 1) st
    | none => do
      let v ← extra f i
      let st ← put st d v
      fillDefaults f nState sig i (t + 1) st

/-- The other positional arguments must be there. -/
def checkPositional (nState : Nat) (st : List (Option κ)) : Nat → Int → Binding Unit
  | 0, _ => .ok ()
  | n + 1, d => do
    match ← slot st d with
    | some _ => checkPositional nState st n (d + 1)
    | none => .error (.typeError (.missingPositional (nState - (d + 1))))

/-- The default of a keyword-only argument, out of the dict after the positional defaults. -/
def kwDefault (b : Boxes κ) (f : FunBc κ) (sig : Sig) (name : Nat) : Binding (Option κ) :=
  if sig.scopeFlags &&& flagDefkwargs ≠ 0 then do
    let dict ← extra f sig.nDefPosArgs
    return b.lookup dict name
  else return none

/-- The keyword-only arguments from the `i`th on, with their names at `p`. -/
def fillKwonly (b : Boxes κ) (f : FunBc κ) (nState : Nat) (sig : Sig) :
    Nat → Nat → List Nat → List (Option κ) → Binding (List (Option κ))
  | 0, _, _, st => .ok st
  | n + 1, i, p, st => do
    let (q, p) := decodeUint p
    let name := f.qstrTable.getD q 0
    match ← slot st (nState - 1 - sig.nPosArgs - i : Int) with
    | some _ => fillKwonly b f nState sig n (i + 1) p st
    | none => do
      match ← kwDefault b f sig name with
      | some v => do
        let st ← put st (nState - 1 - sig.nPosArgs - i : Int) v
        fillKwonly b f nState sig n (i + 1) p st
      | none => .error (.typeError (.missingKeyword name))

/-- `n` numbers skipped. -/
def skipNames : Nat → List Nat → List Nat
  | 0, p => p
  | n + 1, p => skipNames n (decodeUintSkip p)

/-- The empty tuple of a call without extra arguments, and where the dict of keywords would go. -/
def emptyTuple (b : Boxes κ) (sig : Sig) (var : Int) (st : List (Option κ)) : Binding (List (Option κ) × Int) :=
  if sig.scopeFlags &&& flagVarargs ≠ 0 then do
    let st ← put st var (b.tuple [])
    return (st, var - 1)
  else return (st, var)

/-- The empty dict of keywords. -/
def emptyDict (b : Boxes κ) (sig : Sig) (var : Int) (st : List (Option κ)) : Binding (List (Option κ)) :=
  if sig.scopeFlags &&& flagVarkeywords ≠ 0 then put st var (b.dict []) else return st

/-- Positional arguments too many for the parameters, and the defaults when there are no keywords. The number of
arguments left to copy is returned, and where the dict of keywords would go. -/
def bindPositional (b : Boxes κ) (f : FunBc κ) (sig : Sig) (nState : Nat) (args : List κ) (nKw : Nat)
    (st : List (Option κ)) : Binding (List (Option κ) × Nat × Int) :=
  let var : Int := nState - 1 - sig.nPosArgs - sig.nKwonlyArgs
  if args.length > sig.nPosArgs then
    if sig.scopeFlags &&& flagVarargs = 0 then .error (.typeError (.positional sig.nPosArgs args.length))
    else do
      let st ← put st var (b.tuple (args.drop sig.nPosArgs))
      return (st, sig.nPosArgs, var - 1)
  else do
    let (st, var) ← emptyTuple b sig var st
    if nKw = 0 ∧ sig.scopeFlags &&& flagDefkwargs = 0 then
      if args.length ≥ sig.nPosArgs - sig.nDefPosArgs then do
        let st ← fillFrom f nState sig.nPosArgs sig.nDefPosArgs (sig.nPosArgs - args.length) args.length st
        return (st, args.length, var)
      else .error (.typeError (.positional (sig.nPosArgs - sig.nDefPosArgs) args.length))
    else return (st, args.length, var)

/-- The keyword arguments, the defaults of all parameters and the checks that none is missing. -/
def bindKeywords (b : Boxes κ) (f : FunBc κ) (sig : Sig) (nState : Nat) (ip : List Nat) (kws : List (Nat × κ)) (var : Int)
    (st : List (Option κ)) : Binding (List (Option κ)) := do
  let st ← emptyDict b sig var st
  let (st, _) ← kws.foldlM (bindKeyword b f sig nState (decodeUintSkip ip) var) (st, [])
  let st ← fillDefaults f nState sig sig.nDefPosArgs 0 st
  checkPositional nState st (sig.nPosArgs - sig.nDefPosArgs) (nState - sig.nPosArgs + sig.nDefPosArgs)
  fillKwonly b f nState sig sig.nKwonlyArgs 0 (skipNames sig.nPosArgs (decodeUintSkip ip)) st

/-- Closed over variables: the locals listed at `ip` go into cells. -/
def makeCells (b : Boxes κ) (nState : Nat) : Nat → List Nat → List (Option κ) → Binding (CodeState κ)
  | 0, ip, st => .ok ⟨ip, st⟩
  | _ + 1, [], _ => .error .outside
  | n + 1, localNum :: ip, st => do
    let v ← slot st (nState - 1 - localNum : Int)
    let st ← put st (nState - 1 - localNum : Int) (b.cell v)
    makeCells b nState n ip st

/-- What is left after the positional arguments: keywords and defaults, or the check that none is needed. -/
def bindRest (b : Boxes κ) (f : FunBc κ) (sig : Sig) (nState : Nat) (ip : List Nat) (kws : List (Nat × κ)) (var : Int)
    (st : List (Option κ)) : Binding (List (Option κ)) :=
  if kws.length ≠ 0 ∨ sig.scopeFlags &&& flagDefkwargs ≠ 0 then bindKeywords b f sig nState ip kws var st
  else if sig.nKwonlyArgs ≠ 0 then .error (.typeError .missingKeywordOnly)
  else emptyDict b sig var st

/-- `mp_setup_code_state_helper`. -/
def setup (b : Boxes κ) (f : FunBc κ) (nState : Nat) (args : List κ) (kws : List (Nat × κ)) : Binding (CodeState κ) := do
  let (sig, ip) := sigDecode f.bytecode
  let ((nInfo, nCell), ip) := sizeDecode ip
  let (st, nArgs, var) ← bindPositional b f sig nState args kws.length (List.replicate nState none)
  let st ← copyFrom nState 0 (args.take nArgs) st
  let st ← bindRest b f sig nState ip kws var st
  makeCells b nState nCell (ip.drop nInfo) st

end CodeState

end PythonUltra.Py
