/-
  PythonUltra.Py.ParseFold — folding of constants in the parser (py/parse.c), and what the rules of
  operators compile to (py/compile.c).

  The result stack is a list, the node on top first. `build` pushes the nodes of a tree as the parser
  does, those of a rule before the rule, so the tree it is given is the one that the grammar finds and
  the one that it leaves is the folded one. A node that is neither a constant nor one of these rules is
  `other`: a name, or any other rule with all that is in it.

  The options are MICROPY_COMP_CONST_FOLDING, with MICROPY_COMP_CONST or MICROPY_COMP_CONST_TUPLE. Left
  out are the rules that are no operators (`id = const(value)`, `module.constant`), tuples and the cross
  compiler. What is computed on ints is what `Py.Objint` computes; memory does not run out.
-/

import PythonUltra.Py.Lexer
import PythonUltra.Py.ObjintExact

namespace PythonUltra.Py.Parse

open PythonUltra.Py.Lexer PythonUltra.Py.Objint

variable {F L O E σ : Type}

/-! ## Objects -/

/-- The operators from MP_BINARY_OP_OR to MP_BINARY_OP_POWER, in their order. -/
inductive Binary where
  | or | xor | and | lshift | rshift | add | subtract | multiply | matMultiply | floorDivide | trueDivide | modulo | power
deriving DecidableEq, Repr

def binaryOps : List Binary :=
  [.or, .xor, .and, .lshift, .rshift, .add, .subtract, .multiply, .matMultiply, .floorDivide, .trueDivide, .modulo, .power]

/-- The operators from MP_UNARY_OP_POSITIVE to MP_UNARY_OP_INVERT. -/
inductive Unary where
  | positive | negative | invert
deriving DecidableEq, Repr

/-- What a constant may be: a small int, an `mpz_t`, ... -/
inductive Object (F : Type) where
  | smallInt (n : Int)
  | int (n : Int)
  | none
  | bool (b : Bool)
  | ellipsis
  | emptyTuple
  | str (text : List UInt8)
  /-- a float, bytes, a tuple -/
  | other (x : F)
deriving DecidableEq, Repr

structure Config (F E : Type) where
  /-- bits of `mp_int_t` -/
  wordBits : Nat
  /-- `MP_SMALL_INT_FITS` -/
  smallIntFits : Int → Bool
  /-- A small int fits in a node (it may not with MICROPY_OBJ_REPR_D). -/
  nodeFits : Int → Bool
  isTrue : F → Bool
  raise : Exc → E
  /-- an operation on constants that is not one of ints to ints -/
  binary : Binary → Object F → Object F → Except E (Object F)
  unary : Unary → Object F → Except E (Object F)

/-- The value of an int. -/
def Object.int? : Object F → Option Int
  | .smallInt n => some n
  | .int n => some n
  | _ => Option.none

def Object.isSmall : Object F → Bool
  | .smallInt _ => true
  | _ => false

/-- `mp_obj_int_sign` -/
def intSign (o : Object F) : Int := (o.int?.getD 0).sign

section

variable (c : Config F E)

/-- `mp_obj_is_true` -/
def isTrue : Object F → Bool
  | .smallInt n => n ≠ 0
  | .int n => n ≠ 0
  | .none => false
  | .bool b => b
  | .ellipsis => true
  | .emptyTuple => false
  | .str text => text ≠ []
  | .other x => c.isTrue x

/-- `mp_obj_new_int` -/
def newInt (v : Int) : Object F := if c.smallIntFits v then .smallInt v else .int v

def Binary.arith : Binary → Option ArithOp
  | .or => some .or
  | .xor => some .xor
  | .and => some .and
  | .lshift => some .lshift
  | .rshift => some .rshift
  | .add => some .add
  | .subtract => some .subtract
  | .multiply => some .multiply
  | .matMultiply => Option.none
  | .floorDivide => some .floorDivide
  | .trueDivide => Option.none
  | .modulo => some .modulo
  | .power => some .power

/-- The count does not fit in a machine word (`mp_obj_int_get_checked`). -/
def TooLarge (rhs : Object F) : Prop := rhs.isSmall = false ∧ 2 ^ (c.wordBits - 1) ≤ (rhs.int?.getD 0).natAbs

instance (rhs : Object F) : Decidable (TooLarge c rhs) := inferInstanceAs (Decidable (_ ∧ _))

/-- `mp_binary_op` on ints -/
def intBinaryOp (op : ArithOp) (lhs rhs : Object F) (x y : Int) : Except E (Object F) :=
  match op with
  | .lshift | .rshift =>
    if TooLarge c rhs then .error (c.raise wordOverflow)
    else if y < 0 then .error (c.raise negativeShift)
    else .ok (newInt c (exactArith op x y))
  | .floorDivide | .modulo => if y = 0 then .error (c.raise divideByZero) else .ok (newInt c (exactArith op x y))
  | .power =>
    if y < 0 then c.binary .power lhs rhs
    else .ok (newInt c (if lhs.isSmall && rhs.isSmall then exactArith op x y else codeArith op x y))
  | op => .ok (newInt c (exactArith op x y))

/-- `mp_binary_op` on constants -/
def binaryOp (op : Binary) (lhs rhs : Object F) : Except E (Object F) :=
  match op.arith, lhs.int?, rhs.int? with
  | some arith, some x, some y => intBinaryOp c arith lhs rhs x y
  | _, _, _ => c.binary op lhs rhs

/-- `mp_unary_op` on constants: an operator on an `mpz_t` gives one. -/
def unaryOp (op : Unary) : Object F → Except E (Object F)
  | .smallInt n => .ok (match op with
    | .positive => .smallInt n
    | .negative => newInt c (-n)
    | .invert => .smallInt (-n - 1))
  | .int n => .ok (.int (match op with
    | .positive => n
    | .negative => -n
    | .invert => -n - 1))
  | o => c.unary op o

end

/-! ## Nodes -/

inductive RuleId where
  | orTest | andTest | notTest2 | expr | xorExpr | andExpr | shiftExpr | arithExpr | term | factor2 | power | atomParen
deriving DecidableEq, Repr

inductive Node (F L : Type) where
  | smallInt (n : Int)
  | string (text : List UInt8)
  | token (tok : TokenKind)
  | constObject (o : Object F)
  /-- RULE_atom_paren with nothing in it -/
  | emptyParen
  | struct (rule : RuleId) (nodes : List (Node F L))
  | other (x : L)

/-- `MP_PARSE_NODE_LEAF_ARG` of a token -/
def leafTok : Node F L → TokenKind
  | .token tok => tok
  | _ => .invalid

/-- `mp_parse_node_get_int_maybe` -/
def getIntMaybe : Node F L → Option (Object F)
  | .smallInt n => some (.smallInt n)
  | .constObject o => if o.int?.isSome then some o else none
  | _ => none

/-- `mp_parse_node_is_const` -/
def isConst : Node F L → Bool
  | .smallInt _ => true
  | .string _ => true
  | .token tok => tok = .kwNone || tok = .kwFalse || tok = .kwTrue || tok = .ellipsis
  | .constObject _ => true
  | .emptyParen => true
  | _ => false

/-- `mp_parse_node_convert_to_obj` -/
def convertToObj : Node F L → Object F
  | .smallInt n => .smallInt n
  | .string text => .str text
  | .token .kwNone => .none
  | .token .kwFalse => .bool false
  | .token .kwTrue => .bool true
  | .token _ => .ellipsis
  | .constObject o => o
  | _ => .emptyTuple

section

variable (c : Config F E)

/-- `parse_node_is_const_bool` -/
def isConstBool (pn : Node F L) (value : Bool) : Bool := isConst pn && isTrue c (convertToObj pn) == value

/-- `make_node_const_object_optimised` -/
def makeNodeConstObject : Object F → Node F L
  | .smallInt n => if c.nodeFits n then .smallInt n else .constObject (.smallInt n)
  | o => .constObject o

/-! ## Folding -/

/-- `peek_result` -/
def peekResult (stack : List (Node F L)) (pos : Nat) : Node F L := stack.getD pos .emptyParen

/-- The loop of `fold_logical_constants` from `i` down, `cond` for RULE_or_test: `copy_to` at its end, and the stack. -/
def foldLogicalLoop (cond : Bool) : Nat → Nat → List (Node F L) → Nat × List (Node F L)
  | 0, copyTo, stack => (copyTo, stack)
  | i + 1, copyTo, stack =>
    let pn := peekResult stack i
    let stack := stack.set (copyTo - 1) pn
    -- always need to keep the last value
    if i = 0 then (copyTo, stack)
    else if isConstBool c pn cond then (copyTo, stack)
    else if !isConstBool c pn (!cond) then foldLogicalLoop cond i (copyTo - 1) stack
    else foldLogicalLoop cond i copyTo stack

/-- `fold_logical_constants`: whether the rule is folded, the number of arguments left, and the stack. -/
def foldLogicalConstants (rule : RuleId) (numArgs : Nat) (stack : List (Node F L)) : Bool × Nat × List (Node F L) :=
  if rule = .orTest ∨ rule = .andTest then
    let (copyTo, stack) := foldLogicalLoop c (rule = .orTest) numArgs numArgs stack
    let numArgs := numArgs - (copyTo - 1)
    (numArgs == 1, numArgs, stack.drop (copyTo - 1))
  else if rule = .notTest2 then
    let pn := peekResult stack 0
    if isConstBool c pn false then (true, numArgs, .token .kwTrue :: stack.drop 1)
    else if isConstBool c pn true then (true, numArgs, .token .kwFalse :: stack.drop 1)
    else (false, numArgs, stack)
  else (false, numArgs, stack)

/-- The loop of `fold_constants` over the operands of one operator. -/
def foldSameLoop (op : Binary) (stack : List (Node F L)) : Nat → Object F → Except E (Option (Object F))
  | 0, arg0 => .ok (some arg0)
  | i + 1, arg0 =>
    match getIntMaybe (peekResult stack i) with
    | none => .ok none
    | some arg1 =>
      if op = .power ∧ intSign arg1 < 0 then .ok none
      else do foldSameLoop op stack i (← binaryOp c op arg0 arg1)

/-- The operator of a token of RULE_shift_expr, RULE_arith_expr or RULE_term. -/
def termOp (tok : TokenKind) : Binary :=
  binaryOps.getD (Binary.lshift.ctorIdx + (tok.ctorIdx - TokenKind.opDblLess.ctorIdx)) .power

/-- The loop over operands with an operator before each. -/
def foldTermLoop (stack : List (Node F L)) : Nat → Object F → Except E (Option (Object F))
  | i + 2, arg0 =>
    match getIntMaybe (peekResult stack i) with
    | none => .ok none
    | some arg1 =>
      let tok := leafTok (peekResult stack (i + 1))
      if tok = .opAt ∨ tok = .opSlash then .ok none
      else
        let op := termOp tok
        let rhsSign := intSign arg1
        if op.ctorIdx ≤ Binary.rshift.ctorIdx ∧ rhsSign < 0 then .ok none
        else if ¬ op.ctorIdx ≤ Binary.rshift.ctorIdx ∧ Binary.floorDivide.ctorIdx ≤ op.ctorIdx ∧ rhsSign = 0 then .ok none
        else do foldTermLoop stack i (← binaryOp c op arg0 arg1)
  | _, arg0 => .ok (some arg0)

/-- The operator of RULE_factor_2. -/
def factorOp (tok : TokenKind) : Unary :=
  if tok = .opTilde then .invert else if tok.ctorIdx - TokenKind.opPlus.ctorIdx = 0 then .positive else .negative

/-- The operator between the operands of a rule that has one. -/
def RuleId.sameOp : RuleId → Option Binary
  | .expr => some .or
  | .xorExpr => some .xor
  | .andExpr => some .and
  | .power => some .power
  | _ => none

/-- `fold_constants` up to its success: the constant, if there is one. -/
def foldConstant (rule : RuleId) (numArgs : Nat) (stack : List (Node F L)) : Except E (Option (Object F)) :=
  match rule with
  | .expr | .xorExpr | .andExpr | .power =>
    match getIntMaybe (peekResult stack (numArgs - 1)) with
    | none => .ok none
    | some arg0 => foldSameLoop c (rule.sameOp.getD .power) stack (numArgs - 1) arg0
  | .shiftExpr | .arithExpr | .term =>
    match getIntMaybe (peekResult stack (numArgs - 1)) with
    | none => .ok none
    | some arg0 => foldTermLoop c stack (numArgs - 1) arg0
  | .factor2 =>
    match getIntMaybe (peekResult stack 0) with
    | none => .ok none
    | some arg0 => do return some (← unaryOp c (factorOp (leafTok (peekResult stack 1))) arg0)
  | _ => .ok none

/-- The arguments are popped for the constant, or for the node of the rule. -/
def pushFolded (rule : RuleId) (numArgs : Nat) (stack : List (Node F L)) : Option (Object F) → List (Node F L)
  | some o => makeNodeConstObject c o :: stack.drop numArgs
  | none => .struct rule (stack.take numArgs).reverse :: stack.drop numArgs

/-- `push_result_rule` -/
def pushResultRule (rule : RuleId) (numArgs : Nat) (stack : List (Node F L)) : Except E (List (Node F L)) :=
  -- parenthesis around a single expression, so it's just the expression
  if rule = .atomParen then .ok stack
  else
    let (folded, numArgs, stack) := foldLogicalConstants c rule numArgs stack
    if folded then .ok stack else (foldConstant c rule numArgs stack).map (pushFolded c rule numArgs stack)

mutual

/-- The pushes of the parser for a tree. -/
def build : Node F L → List (Node F L) → Except E (List (Node F L))
  | .struct rule nodes, stack => do pushResultRule c rule nodes.length (← buildAll nodes stack)
  | .smallInt n, stack => .ok (.smallInt n :: stack)
  | .string text, stack => .ok (.string text :: stack)
  | .token tok, stack => .ok (.token tok :: stack)
  | .constObject o, stack => .ok (.constObject o :: stack)
  | .emptyParen, stack => .ok (.emptyParen :: stack)
  | .other x, stack => .ok (.other x :: stack)

def buildAll : List (Node F L) → List (Node F L) → Except E (List (Node F L))
  | [], stack => .ok stack
  | n :: nodes, stack => do buildAll nodes (← build n stack)

end

/-! ## What the nodes compile to -/

/-- What an expression gives: a constant, or another object. -/
inductive Value (F O : Type) where
  | const (o : Object F)
  | object (x : O)

/-- A program: it changes the state, and raises or returns. -/
abbrev Run (E σ : Type) := ExceptT E (StateM σ)

/-- The rest of the machine. -/
structure Runtime (F L O E σ : Type) where
  load : L → Run E σ (Value F O)
  binary : Binary → Value F O → Value F O → Run E σ (Value F O)
  unary : Unary → O → Run E σ (Value F O)
  truth : O → Run E σ Bool

variable (rt : Runtime F L O E σ)

def lift (r : Except E (Object F)) : Run E σ (Value F O) :=
  match r with
  | .ok o => pure (.const o)
  | .error e => throw e

/-- `mp_binary_op` -/
def runBinary (op : Binary) : Value F O → Value F O → Run E σ (Value F O)
  | .const lhs, .const rhs => lift (binaryOp c op lhs rhs)
  | lhs, rhs => rt.binary op lhs rhs

/-- `mp_unary_op` -/
def runUnary (op : Unary) : Value F O → Run E σ (Value F O)
  | .const o => lift (unaryOp c op o)
  | .object x => rt.unary op x

/-- `mp_obj_is_true` -/
def runTruth : Value F O → Run E σ Bool
  | .const o => pure (isTrue c o)
  | .object x => rt.truth x

/-- A node as an argument of a rule: the token it may be, and its program. -/
structure Arg (α : Type) where
  tok : TokenKind
  of : α

/-- Operators, each with the operand after it. -/
def termOps {α : Type} : List (Arg α) → List (Binary × α)
  | t :: a :: args => (termOp t.tok, a.of) :: termOps args
  | _ => []

def operations {α : Type} (rule : RuleId) (args : List (Arg α)) : List (Binary × α) :=
  match rule.sameOp with
  | some op => args.map fun a => (op, a.of)
  | none => termOps args

/-- What a rule does with its arguments. -/
inductive Form (α : Type) where
  | logical (cond : Bool) (operands : List α)
  | not (operand : α)
  | ops (first : α) (rest : List (Binary × α))
  | factor (op : Unary) (operand : α)
  | paren (operand : α)
  | malformed

def form {α : Type} (rule : RuleId) (args : List (Arg α)) : Form α :=
  match rule, args with
  | .orTest, args => .logical true (args.map Arg.of)
  | .andTest, args => .logical false (args.map Arg.of)
  | .notTest2, [a] => .not a.of
  | .notTest2, _ => .malformed
  | .factor2, [t, a] => .factor (factorOp t.tok) a.of
  | .factor2, _ => .malformed
  | .atomParen, [a] => .paren a.of
  | .atomParen, _ => .malformed
  | rule, a :: args => .ops a.of (operations rule args)
  | _, [] => .malformed

/-- `compile_or_and_test` -/
def compileLogical (cond : Bool) : List (Run E σ (Value F O)) → Run E σ (Value F O)
  | [] => pure (.const .none)
  | [x] => x
  | x :: xs => do
    let v ← x
    if (← runTruth c rt v) = cond then pure v else compileLogical cond xs

/-- `compile_binary_op`, `compile_term` and `compile_power` from the second operand on -/
def compileOps : Value F O → List (Binary × Run E σ (Value F O)) → Run E σ (Value F O)
  | v, [] => pure v
  | v, (op, x) :: ops => do
    let u ← x
    compileOps (← runBinary c rt op v u) ops

/-- The compile function of a rule. -/
def compileForm : Form (Run E σ (Value F O)) → Run E σ (Value F O)
  | .logical cond xs => compileLogical c rt cond xs
  | .not x => do return .const (.bool !(← runTruth c rt (← x)))
  | .ops x ops => do compileOps c rt (← x) ops
  | .factor op x => do runUnary c rt op (← x)
  | .paren x => x
  | .malformed => pure (.const .none)

mutual

/-- What a tree evaluates to. -/
def eval : Node F L → Run E σ (Value F O)
  | .struct rule nodes => compileForm c rt (form rule (evalArgs nodes))
  | .other x => rt.load x
  | .smallInt n => pure (.const (.smallInt n))
  | .string text => pure (.const (.str text))
  | .token tok => pure (.const (convertToObj (.token tok : Node F L)))
  | .constObject o => pure (.const o)
  | .emptyParen => pure (.const .emptyTuple)

def evalArgs : List (Node F L) → List (Arg (Run E σ (Value F O)))
  | [] => []
  | n :: nodes => ⟨leafTok n, eval n⟩ :: evalArgs nodes

end

end

end PythonUltra.Py.Parse
