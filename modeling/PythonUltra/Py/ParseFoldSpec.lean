/-
  PythonUltra.Py.ParseFoldSpec — folding keeps what an expression means.

  `constant` says which trees are constants, and `Overflows` that one of the shifts of constants has
  a count that a machine word does not hold. Folding puts a node for each tree that does the same
  (`build_folds`); it raises if and only if the tree `Overflows`, also where evaluation never comes
  to the shift (`fold_keeps_iff`, `folded_too_soon`).
-/

import PythonUltra.Py.ParseFold

namespace PythonUltra.Py.Parse

open PythonUltra.Py.Lexer PythonUltra.Py.Objint

variable {F L O E σ : Type}

/-! ## Trees of the grammar -/

section

variable (toks : List TokenKind)

/-- Operators, each with an operand after it. -/
def alternate : List (Node F L) → Bool
  | [] => true
  | .token tok :: _ :: nodes => toks.contains tok && alternate nodes
  | _ => false

end

def RuleId.toks : RuleId → List TokenKind
  | .shiftExpr => [.opDblLess, .opDblMore]
  | .arithExpr => [.opPlus, .opMinus]
  | .term => [.opStar, .opAt, .opSlash, .opPercent, .opDblSlash]
  | .factor2 => [.opPlus, .opMinus, .opTilde]
  | _ => []

/-- The arguments that a rule has. -/
def shape : RuleId → List (Node F L) → Bool
  | .orTest, _ :: _ => true
  | .andTest, _ :: _ => true
  | .notTest2, [_] => true
  | .expr, _ :: _ => true
  | .xorExpr, _ :: _ => true
  | .andExpr, _ :: _ => true
  | .shiftExpr, _ :: nodes => alternate (RuleId.toks .shiftExpr) nodes
  | .arithExpr, _ :: nodes => alternate (RuleId.toks .arithExpr) nodes
  | .term, _ :: nodes => alternate (RuleId.toks .term) nodes
  | .factor2, [.token tok, _] => (RuleId.toks .factor2).contains tok
  | .power, [_, _] => true
  | .atomParen, [_] => true
  | _, _ => false

mutual

/-- Every rule in the tree has the arguments that the grammar gives it. -/
def wellFormed : Node F L → Bool
  | .struct rule nodes => shape rule nodes && allWellFormed nodes
  | _ => true

def allWellFormed : List (Node F L) → Bool
  | [] => true
  | n :: nodes => wellFormed n && allWellFormed nodes

end

/-! ## Constants -/

section

variable (c : Config F E)

def intOnly (o : Option (Object F)) : Option (Object F) := o.filter fun o => o.int?.isSome

/-- The operators that the parser leaves for later. -/
def refused (op : Binary) (rhs : Object F) : Bool :=
  match op with
  | .lshift | .rshift | .power => intSign rhs < 0
  | .floorDivide | .modulo => intSign rhs = 0
  | .matMultiply | .trueDivide => true
  | _ => false

/-- An operation of two constants. -/
def constOp (op : Binary) (lhs rhs : Option (Object F)) : Option (Object F) := do
  let lhs ← lhs
  let rhs ← intOnly rhs
  if refused op rhs then none else (binaryOp c op lhs rhs).toOption

def constLogical (cond : Bool) : List (Option (Object F)) → Option (Object F)
  | [] => none
  | [o] => o
  | none :: _ => none
  | some o :: os => if isTrue c o = cond then some o else constLogical cond os

def constOps (lhs : Option (Object F)) (ops : List (Binary × Option (Object F))) : Option (Object F) :=
  ops.foldl (fun lhs op => constOp c op.1 lhs op.2) lhs

def constForm : Form (Option (Object F)) → Option (Object F)
  | .logical cond os => constLogical c cond os
  | .not o => o.map fun o => .bool !isTrue c o
  | .ops o ops => constOps c (intOnly o) ops
  | .factor op o => (intOnly o).bind fun o => (unaryOp c op o).toOption
  | .paren o => o
  | .malformed => none

mutual

/-- The constant that a tree is. -/
def constant : Node F L → Option (Object F)
  | .struct rule nodes => constForm c (form rule (constants nodes))
  | .smallInt n => some (.smallInt n)
  | .string text => some (.str text)
  | .token tok => if isConst (.token tok : Node F L) then some (convertToObj (.token tok : Node F L)) else none
  | .constObject o => some o
  | .emptyParen => some .emptyTuple
  | .other _ => none

def constants : List (Node F L) → List (Arg (Option (Object F)))
  | [] => []
  | n :: nodes => ⟨leafTok n, constant n⟩ :: constants nodes

end

/-- A shift of a constant by one that a machine word does not hold. -/
def HugeShift (op : Binary) (lhs rhs : Option (Object F)) : Prop :=
  (op = .lshift ∨ op = .rshift) ∧ lhs.isSome ∧ ∃ o, intOnly rhs = some o ∧ TooLarge c o ∧ 0 ≤ intSign o

def opsOverflow : Option (Object F) → List (Binary × Option (Object F)) → Prop
  | _, [] => False
  | lhs, (op, rhs) :: ops => HugeShift c op lhs rhs ∨ opsOverflow (constOp c op lhs rhs) ops

def formOverflows : Form (Option (Object F)) → Prop
  | .ops o ops => opsOverflow c (intOnly o) ops
  | _ => False

mutual

/-- A constant in the tree is shifted by a constant that a machine word does not hold. -/
def Overflows : Node F L → Prop
  | .struct rule nodes => SomeOverflows nodes ∨ formOverflows c (form rule (constants c nodes))
  | _ => False

def SomeOverflows : List (Node F L) → Prop
  | [] => False
  | n :: nodes => Overflows n ∨ SomeOverflows nodes

end

/-- What a node is, taken as a constant. -/
def constOf (n : Node F L) : Option (Object F) := if isConst n then some (convertToObj n) else none

end

/-! ## Arguments -/

def argsOf {α : Type} (f : Node F L → α) (nodes : List (Node F L)) : List (Arg α) := nodes.map fun n => ⟨leafTok n, f n⟩

section

variable {α β : Type} {f : Node F L → α} {nodes : List (Node F L)} {c : Config F E} {rt : Runtime F L O E σ}

theorem evalArgs_eq (nodes : List (Node F L)) : evalArgs c rt nodes = argsOf (eval c rt) nodes := by
  induction nodes with
  | nil => rw [evalArgs]; rfl
  | cons n nodes ih => rw [evalArgs, ih]; rfl

theorem constants_eq (nodes : List (Node F L)) : constants c nodes = argsOf (constant c) nodes := by
  induction nodes with
  | nil => rw [constants]; rfl
  | cons n nodes ih => rw [constants, ih]; rfl

theorem of_argsOf : (argsOf f nodes).map Arg.of = nodes.map f := List.map_map

theorem form_logical {rule : RuleId} (hrule : rule = .orTest ∨ rule = .andTest) :
    form rule (argsOf f nodes) = .logical (rule = .orTest) (nodes.map f) := by
  rcases hrule with rfl | rfl <;> exact congrArg _ of_argsOf

end

/-! ## Operations of ints -/

section

variable {c : Config F E} {op : Binary} {o x y : Object F}

theorem intOnly_some {o : Option (Object F)} : intOnly o = some x ↔ o = some x ∧ x.int?.isSome = true := Option.filter_eq_some_iff

theorem int_newInt (v : Int) : (newInt c v).int?.isSome = true := by
  unfold newInt
  split <;> rfl

theorem getIntMaybe_eq (n : Node F L) : getIntMaybe n = intOnly (constOf n) := by
  cases n with
  | token tok =>
    unfold constOf
    cases tok <;> rfl
  | constObject o =>
    cases o <;> rfl
  | _ => rfl

/-- An operation on ints that the parser does not refuse gives an int, or the count of a shift is too large. -/
theorem binaryOp_int (hx : x.int?.isSome = true) (hy : y.int?.isSome = true) (hop : refused op y = false) :
    ((op = .lshift ∨ op = .rshift) ∧ TooLarge c y ∧ 0 ≤ intSign y ∧ binaryOp c op x y = .error (c.raise wordOverflow)) ∨
      ¬ ((op = .lshift ∨ op = .rshift) ∧ TooLarge c y) ∧ ∃ o, binaryOp c op x y = .ok o ∧ o.int?.isSome = true := by
  obtain ⟨u, hu⟩ := Option.isSome_iff_exists.mp hx
  obtain ⟨v, hv⟩ := Option.isSome_iff_exists.mp hy
  have hsign : intSign y = v.sign := by rw [intSign, hv, Option.getD_some]
  have hrun : ∀ arith, op.arith = some arith → binaryOp c op x y = intBinaryOp c arith x y u v := by
    intro arith harith
    rw [binaryOp, harith, hu, hv]
  have hshift : ∀ arith, arith = .lshift ∨ arith = .rshift → op.arith = some arith → (op = .lshift ∨ op = .rshift) → ¬ intSign y < 0 →
      ((op = .lshift ∨ op = .rshift) ∧ TooLarge c y ∧ 0 ≤ intSign y ∧ binaryOp c op x y = .error (c.raise wordOverflow)) ∨
        ¬ ((op = .lshift ∨ op = .rshift) ∧ TooLarge c y) ∧ ∃ o, binaryOp c op x y = .ok o ∧ o.int?.isSome = true := by
    intro arith harith heq hop hneg
    have hpos : ¬ v < 0 := by
      rw [hsign, Int.sign_neg_iff] at hneg
      exact hneg
    have hcheck : intBinaryOp c arith x y u v = if TooLarge c y then .error (c.raise wordOverflow) else .ok (newInt c (exactArith arith u v)) := by
      rcases harith with rfl | rfl <;> simp only [intBinaryOp, if_neg hpos]
    by_cases hlarge : TooLarge c y
    · exact .inl ⟨hop, hlarge, Int.not_lt.mp hneg, by rw [hrun arith heq, hcheck, if_pos hlarge]⟩
    · exact .inr ⟨fun h => hlarge h.2, _, by rw [hrun arith heq, hcheck, if_neg hlarge], int_newInt _⟩
  have hplain : ∀ arith r, op.arith = some arith → intBinaryOp c arith x y u v = .ok (newInt c r) → ¬ (op = .lshift ∨ op = .rshift) →
      ¬ ((op = .lshift ∨ op = .rshift) ∧ TooLarge c y) ∧ ∃ o, binaryOp c op x y = .ok o ∧ o.int?.isSome = true :=
    fun arith r heq hint hop => ⟨fun h => hop h.1, _, (hrun arith heq).trans hint, int_newInt r⟩
  have hzero : ¬ intSign y = 0 → ¬ v = 0 := fun h e => h (by rw [hsign, e]; rfl)
  have hneg : ¬ intSign y < 0 → ¬ v < 0 := fun h => by rwa [hsign, Int.sign_neg_iff] at h
  cases op with
  | lshift => exact hshift .lshift (.inl rfl) rfl (.inl rfl) (by simpa [refused] using hop)
  | rshift => exact hshift .rshift (.inr rfl) rfl (.inr rfl) (by simpa [refused] using hop)
  | floorDivide => exact .inr (hplain .floorDivide _ rfl (if_neg (hzero (by simpa [refused] using hop))) (by simp))
  | modulo => exact .inr (hplain .modulo _ rfl (if_neg (hzero (by simpa [refused] using hop))) (by simp))
  | power => exact .inr (hplain .power _ rfl (if_neg (hneg (by simpa [refused] using hop))) (by simp))
  | matMultiply => cases hop
  | trueDivide => cases hop
  | or => exact .inr (hplain .or _ rfl rfl (by simp))
  | xor => exact .inr (hplain .xor _ rfl rfl (by simp))
  | and => exact .inr (hplain .and _ rfl rfl (by simp))
  | add => exact .inr (hplain .add _ rfl rfl (by simp))
  | subtract => exact .inr (hplain .subtract _ rfl rfl (by simp))
  | multiply => exact .inr (hplain .multiply _ rfl rfl (by simp))

theorem unaryOp_int (op : Unary) (hx : x.int?.isSome = true) : ∃ o, unaryOp c op x = .ok o := by
  cases x with
  | smallInt n => exact ⟨_, rfl⟩
  | int n => exact ⟨_, rfl⟩
  | _ => cases hx

theorem constOf_makeNode : constOf (makeNodeConstObject c o : Node F L) = some o := by
  unfold makeNodeConstObject
  split
  · split <;> rfl
  · rfl

end

/-! ## The stack -/

section

variable {c : Config F E} {n m : Node F L} {suf rest stack : List (Node F L)}

@[simp] theorem peek_last : peekResult ((n :: suf).reverse ++ rest) suf.length = n := by
  unfold peekResult
  rw [List.reverse_cons, List.append_assoc, List.getD_append_right _ _ _ _ (by simp)]
  simp

theorem pushFolded_eq {rule : RuleId} (o : Option (Object F)) :
    pushFolded c rule suf.length (suf.reverse ++ rest) o = (o.elim (.struct rule suf) (makeNodeConstObject c)) :: rest := by
  cases o <;> simp [pushFolded, List.take_left', List.drop_left']

theorem peek_two : peekResult ((n :: m :: suf).reverse ++ rest) suf.length = m := by
  rw [List.reverse_cons, List.append_assoc]
  exact peek_last

end

/-! ## Conjunctions and disjunctions -/

/-- The operands that are kept. -/
def short (c : Config F E) (cond : Bool) : List (Node F L) → List (Node F L)
  | [] => []
  | [n] => [n]
  | n :: nodes =>
    if isConstBool c n cond then [n] else if isConstBool c n (!cond) then short c cond nodes else n :: short c cond nodes

section

variable {c : Config F E} {cond : Bool} {n m : Node F L} {nodes suf rest stack : List (Node F L)}

theorem short_cons : short c cond (n :: m :: nodes) =
    if isConstBool c n cond then [n]
    else if isConstBool c n (!cond) then short c cond (m :: nodes) else n :: short c cond (m :: nodes) := rfl

/-- What is read stands above what is given up, and this above what is kept. -/
theorem foldLogicalLoop_spec (c : Config F E) (cond : Bool) (hsuf : suf ≠ []) (junk rest : List (Node F L)) :
    ∃ front, foldLogicalLoop c cond suf.length (junk.length + suf.length) (suf.reverse ++ (junk ++ rest)) =
        (front.length + 1, front ++ ((short c cond suf).reverse ++ rest)) ∧
      front.length + (short c cond suf).length = junk.length + suf.length := by
  induction suf generalizing junk rest with
  | nil => exact absurd rfl hsuf
  | cons n suf ih =>
    have hset : ((n :: suf).reverse ++ (junk ++ rest)).set (junk.length + (suf.length + 1) - 1) n =
        suf.reverse ++ ((n :: junk).take junk.length ++ n :: rest) := by
      rw [List.set_eq_take_append_cons_drop, if_pos (by simp; omega)]
      have htake : ((n :: suf).reverse ++ (junk ++ rest)).take (junk.length + (suf.length + 1) - 1) = suf.reverse ++ (n :: junk).take junk.length := by
        rw [List.reverse_cons, List.append_assoc, List.take_append, List.take_of_length_le (by simp)]
        have hlen : junk.length + (suf.length + 1) - 1 - suf.reverse.length = junk.length := by simp
        rw [hlen, List.singleton_append, ← List.cons_append, List.take_append_of_le_length (by simp)]
      have hdrop : ((n :: suf).reverse ++ (junk ++ rest)).drop (junk.length + (suf.length + 1) - 1 + 1) = rest := by
        rw [← List.append_assoc, List.drop_append_of_le_length (by simp; omega), List.drop_eq_nil_of_le (by simp; omega), List.nil_append]
      rw [htake, hdrop, List.append_assoc]
    have hjunk : ((n :: junk).take junk.length).length = junk.length := by simp
    generalize hfront : (n :: junk).take junk.length = junk' at hset hjunk
    rw [List.length_cons, foldLogicalLoop]
    simp only [peek_last, hset]
    cases suf with
    | nil =>
      refine ⟨junk', ?_, by simp [short, hjunk]⟩
      rw [List.length_nil, if_pos rfl, hjunk]
      rfl
    | cons m suf =>
      rw [if_neg (by simp), short_cons]
      by_cases hdecides : isConstBool c n cond = true
      · rw [if_pos hdecides, if_pos hdecides]
        refine ⟨(m :: suf).reverse ++ junk', ?_, by simp [hjunk]; omega⟩
        rw [List.length_append, hjunk, List.append_assoc, List.length_reverse]
        refine Prod.ext ?_ rfl
        show _ = _
        omega
      · rw [if_neg hdecides, if_neg hdecides]
        by_cases hother : isConstBool c n (!cond) = true
        · rw [if_neg (by simp [hother]), if_pos hother]
          obtain ⟨front, hrun, hlen⟩ := ih (by simp) (junk' ++ [n]) rest
          rw [List.length_append, List.length_singleton, hjunk] at hrun hlen
          refine ⟨front, ?_, by rw [hlen]; simp; omega⟩
          rw [← hrun, List.append_assoc, List.singleton_append]
          congr 1
          omega
        · rw [if_pos (by simp [hother]), if_neg hother]
          obtain ⟨front, hrun, hlen⟩ := ih (by simp) junk' (n :: rest)
          rw [hjunk] at hrun hlen
          refine ⟨front, ?_, by rw [List.length_cons, ← Nat.add_assoc, hlen]; simp; omega⟩
          rw [@List.reverse_cons _ n, List.append_assoc, List.singleton_append, ← hrun]
          congr 1

theorem short_length (c : Config F E) (cond : Bool) (hnodes : nodes ≠ []) : 0 < (short c cond nodes).length := by
  induction nodes with
  | nil => exact absurd rfl hnodes
  | cons n nodes ih =>
    cases nodes with
    | nil => exact Nat.one_pos
    | cons m nodes =>
      rw [short_cons]
      split
      · exact Nat.one_pos
      · split
        · exact ih (by simp)
        · exact Nat.succ_pos _

theorem isConstBool_iff : isConstBool c n cond = true ↔ ∃ o, constOf n = some o ∧ isTrue c o = cond := by
  unfold isConstBool constOf
  cases isConst n <;> simp

theorem constLogical_short (c : Config F E) (cond : Bool) (hnodes : nodes ≠ []) :
    constLogical c cond (nodes.map constOf) = match short c cond nodes with
      | [n] => constOf n
      | _ => none := by
  induction nodes with
  | nil => exact absurd rfl hnodes
  | cons n nodes ih =>
    cases nodes with
    | nil => rfl
    | cons m nodes =>
      have hpos := short_length c cond (List.cons_ne_nil m nodes)
      rw [short_cons, List.map_cons, List.map_cons]
      cases hn : constOf n with
      | none =>
        have hnone : ∀ b, ¬ isConstBool c n b = true := fun b h => by
          obtain ⟨o, ho, -⟩ := isConstBool_iff.mp h
          rw [hn] at ho
          cases ho
        rw [if_neg (hnone _), if_neg (hnone _)]
        cases hshort : short c cond (m :: nodes) with
        | nil => rw [hshort] at hpos; cases hpos
        | cons a l => rfl
      | some o =>
        show (if isTrue c o = cond then some o else constLogical c cond (constOf m :: nodes.map constOf)) = _
        by_cases ho : isTrue c o = cond
        · rw [if_pos ho, if_pos (isConstBool_iff.mpr ⟨o, hn, ho⟩)]
          exact hn.symm
        · have hnot : isTrue c o = !cond := by
            revert ho
            cases isTrue c o <;> cases cond <;> simp
          rw [if_neg ho, if_neg fun h => by
            obtain ⟨o', ho', h'⟩ := isConstBool_iff.mp h
            rw [hn] at ho'
            obtain rfl := Option.some.inj ho'
            exact ho h', if_pos (isConstBool_iff.mpr ⟨o, hn, hnot⟩), ← ih (by simp)]
          rfl

theorem foldLogicalConstants_eq {rule : RuleId} (hrule : rule = .orTest ∨ rule = .andTest) (hnodes : nodes ≠ []) :
    foldLogicalConstants c rule nodes.length (nodes.reverse ++ rest) =
      ((short c (rule = .orTest) nodes).length == 1, (short c (rule = .orTest) nodes).length, (short c (rule = .orTest) nodes).reverse ++ rest) := by
  obtain ⟨front, hrun, hlen⟩ := foldLogicalLoop_spec c (rule = .orTest) hnodes [] rest
  rw [List.length_nil, Nat.zero_add] at hrun hlen
  rw [List.nil_append] at hrun
  unfold foldLogicalConstants
  rw [if_pos hrule, hrun]
  have hleft : nodes.length - front.length = (short c (rule = .orTest) nodes).length := by omega
  simp [hleft, List.drop_left]

variable {rt : Runtime F L O E σ}

theorem eval_of_const {o : Object F} (h : constOf n = some o) : eval c rt n = pure (.const o) := by
  unfold constOf at h
  split at h
  · rename_i hconst
    obtain rfl := Option.some.inj h
    cases n with
    | struct rule nodes => cases hconst
    | other x => cases hconst
    | _ => rfl
  · cases h

/-- An operand that is left out neither decides nor has an effect. -/
theorem compileLogical_short (cond : Bool) (hnodes : nodes ≠ []) :
    compileLogical c rt cond ((short c cond nodes).map (eval c rt)) = compileLogical c rt cond (nodes.map (eval c rt)) := by
  induction nodes with
  | nil => exact absurd rfl hnodes
  | cons n nodes ih =>
    cases nodes with
    | nil => rfl
    | cons m nodes =>
      have hih := ih (by simp)
      have hcons : ∀ x xs, xs ≠ [] → compileLogical c rt cond (x :: xs) =
          (do let v ← x; if (← runTruth c rt v) = cond then pure v else compileLogical c rt cond xs : Run E σ (Value F O)) := by
        intro x xs hxs
        cases xs with
        | nil => exact absurd rfl hxs
        | cons y ys => rfl
      rw [short_cons, List.map_cons, hcons _ _ (by simp)]
      by_cases hdecides : isConstBool c n cond = true
      · obtain ⟨o, ho, htrue⟩ := isConstBool_iff.mp hdecides
        rw [if_pos hdecides, eval_of_const ho, pure_bind]
        simp only [runTruth, pure_bind, htrue, if_true]
        exact eval_of_const ho
      · rw [if_neg hdecides]
        by_cases hother : isConstBool c n (!cond) = true
        · obtain ⟨o, ho, htrue⟩ := isConstBool_iff.mp hother
          rw [if_pos hother, hih, eval_of_const ho, pure_bind]
          simp [runTruth, htrue]
        · have hpos := short_length c cond (List.cons_ne_nil m nodes)
          rw [if_neg hother, List.map_cons, hcons _ _ (by
            intro h
            rw [List.map_eq_nil_iff.mp h] at hpos
            cases hpos), hih]

/-- What is pushed for a conjunction or a disjunction. -/
theorem pushLogical {rule : RuleId} (hrule : rule = .orTest ∨ rule = .andTest) (hnodes : nodes ≠ []) :
    ∃ n, pushResultRule c rule nodes.length (nodes.reverse ++ rest) = .ok (n :: rest) ∧
      eval c rt n = compileLogical c rt (rule = .orTest) (nodes.map (eval c rt)) ∧
      constOf n = constLogical c (rule = .orTest) (nodes.map constOf) := by
  have hpush : ∀ l, short c (rule = .orTest) nodes = l → pushResultRule c rule nodes.length (nodes.reverse ++ rest) =
      if l.length == 1 then .ok (l.reverse ++ rest) else .ok (.struct rule l :: rest) := by
    rintro l rfl
    have hfold : ∀ k (stack : List (Node F L)), foldConstant c rule k stack = .ok none := fun k stack => by rcases hrule with rfl | rfl <;> rfl
    rw [pushResultRule, if_neg (by rcases hrule with rfl | rfl <;> simp), foldLogicalConstants_eq hrule hnodes]
    simp only [hfold]
    split
    · rfl
    · exact congrArg Except.ok (pushFolded_eq none)
  have heval := @compileLogical_short _ _ _ _ _ c _ rt (rule = .orTest) hnodes
  have hconst := constLogical_short c (rule = .orTest) hnodes
  have hlength := short_length c (rule = .orTest) hnodes
  cases hshort : short c (rule = .orTest) nodes with
  | nil => rw [hshort] at hlength; cases hlength
  | cons n l =>
    rw [hshort] at heval hconst
    cases l with
    | nil => exact ⟨n, hpush _ hshort, heval, hconst.symm⟩
    | cons m l =>
      refine ⟨.struct rule (n :: m :: l), hpush _ hshort, ?_, hconst.symm⟩
      rw [← heval, eval, evalArgs_eq, form_logical hrule, compileForm]

end

/-! ## Operations -/

/-- The loops of `fold_constants`, over the operations themselves. -/
def foldOps (c : Config F E) : Object F → List (Binary × Node F L) → Except E (Option (Object F))
  | arg0, [] => .ok (some arg0)
  | arg0, (op, n) :: ops =>
    match getIntMaybe n with
    | none => .ok none
    | some arg1 => if refused op arg1 then .ok none else do foldOps c (← binaryOp c op arg0 arg1) ops

section

variable {c : Config F E} {rt : Runtime F L O E σ} {rule : RuleId} {toks : List TokenKind} {n : Node F L} {nodes suf rest : List (Node F L)}
variable {lhs : Object F}

theorem foldSameLoop_eq {op : Binary} (hop : op = .or ∨ op = .xor ∨ op = .and ∨ op = .power) :
    foldSameLoop c op (suf.reverse ++ rest) suf.length lhs = foldOps c lhs ((argsOf id suf).map fun a => (op, a.of)) := by
  induction suf generalizing lhs rest with
  | nil => rfl
  | cons n suf ih =>
    have hrefused : ∀ o : Object F, (op = .power ∧ intSign o < 0) ↔ refused op o = true := by
      intro o
      rcases hop with rfl | rfl | rfl | rfl <;> simp [refused]
    rw [List.length_cons, foldSameLoop, peek_last]
    show _ = foldOps c lhs ((op, n) :: (argsOf id suf).map fun a => (op, a.of))
    rw [foldOps]
    cases getIntMaybe n with
    | none => rfl
    | some arg1 =>
      simp only [hrefused]
      split
      · rfl
      · cases binaryOp c op lhs arg1 with
        | error e => rfl
        | ok o =>
          have h := @ih (n :: rest) o
          rwa [← List.singleton_append, ← List.append_assoc, ← List.reverse_cons] at h

/-- The tests of the second loop leave what `refused` says. -/
theorem term_refused {tok : TokenKind} (hrule : rule = .shiftExpr ∨ rule = .arithExpr ∨ rule = .term) (htok : rule.toks.contains tok = true)
    (o : Object F) :
    ((tok = .opAt ∨ tok = .opSlash) ∨ ((termOp tok).ctorIdx ≤ Binary.rshift.ctorIdx ∧ intSign o < 0) ∨
      (¬ (termOp tok).ctorIdx ≤ Binary.rshift.ctorIdx ∧ Binary.floorDivide.ctorIdx ≤ (termOp tok).ctorIdx ∧ intSign o = 0)) ↔
      refused (termOp tok) o = true := by
  rcases hrule with rfl | rfl | rfl <;> cases tok <;> simp [RuleId.toks] at htok <;>
    simp [termOp, binaryOps, refused, TokenKind.ctorIdx, Binary.ctorIdx]

theorem foldTermLoop_eq (hrule : rule = .shiftExpr ∨ rule = .arithExpr ∨ rule = .term) (halt : alternate rule.toks suf = true) :
    foldTermLoop c (suf.reverse ++ rest) suf.length lhs = foldOps c lhs (termOps (argsOf id suf)) := by
  induction suf using List.twoStepInduction generalizing rest lhs with
  | nil => rfl
  | singleton n => cases n <;> cases halt
  | cons_cons t n suf ih _ =>
    obtain ⟨tok, rfl⟩ : ∃ tok, t = .token tok := by
      cases t with
      | token tok => exact ⟨tok, rfl⟩
      | _ => cases halt
    rw [alternate, Bool.and_eq_true] at halt
    rw [List.length_cons, List.length_cons, foldTermLoop, peek_two]
    show _ = foldOps c lhs ((termOp tok, n) :: termOps (argsOf id suf))
    rw [foldOps]
    cases getIntMaybe n with
    | none => rfl
    | some arg1 =>
      have htok : leafTok (peekResult ((Node.token tok :: n :: suf).reverse ++ rest) (suf.length + 1)) = tok :=
        congrArg leafTok (@peek_last _ _ _ (n :: suf) rest)
      have hih : ∀ o, foldTermLoop c ((Node.token tok :: n :: suf).reverse ++ rest) suf.length o = foldOps c o (termOps (argsOf id suf)) := by
        intro o
        have h := @ih (n :: .token tok :: rest) o halt.2
        rwa [List.reverse_cons, List.reverse_cons, List.append_assoc, List.append_assoc]
      have hrefused := term_refused hrule halt.1 arg1
      simp only [htok, hih]
      by_cases hr : refused (termOp tok) arg1 = true
      · rw [if_pos hr]
        split
        · rfl
        · split
          · rfl
          · rename_i h1 h2
            rw [if_pos ((hrefused.mpr hr).resolve_left h1 |>.resolve_left h2)]
      · obtain ⟨h1, h⟩ := not_or.mp (mt hrefused.mp hr)
        obtain ⟨h2, h3⟩ := not_or.mp h
        rw [if_neg hr, if_neg h1, if_neg h2, if_neg h3]

theorem opsOverflow_none (ops : List (Binary × Option (Object F))) : ¬ opsOverflow c none ops := by
  induction ops with
  | nil => exact id
  | cons op ops ih =>
    rintro (⟨-, h, -⟩ | h)
    · cases h
    · exact ih h

theorem constOps_none (ops : List (Binary × Option (Object F))) : constOps c none ops = none := by
  induction ops with
  | nil => rfl
  | cons op ops ih => exact ih

/-- The operations of constants raise if one is a shift by too much, and else give what they mean. -/
def FoldsOps (c : Config F E) (rt : Runtime F L O E σ) (lhs : Object F) (ops : List (Binary × Node F L)) : Prop :=
  (opsOverflow c (some lhs) (ops.map (Prod.map id constOf)) → foldOps c lhs ops = .error (c.raise wordOverflow)) ∧
    (¬ opsOverflow c (some lhs) (ops.map (Prod.map id constOf)) → ∃ r, foldOps c lhs ops = .ok r ∧
      constOps c (some lhs) (ops.map (Prod.map id constOf)) = r ∧
      ∀ o, r = some o → compileOps c rt (.const lhs) (ops.map (Prod.map id (eval c rt))) = pure (.const o))

theorem foldsOps (hlhs : lhs.int?.isSome = true) (ops : List (Binary × Node F L)) : FoldsOps c rt lhs ops := by
  induction ops generalizing lhs with
  | nil => exact ⟨fun h => absurd h id, fun _ => ⟨_, rfl, rfl, fun o ho => by rw [Option.some.inj ho]; rfl⟩⟩
  | cons x ops ih =>
    obtain ⟨op, n⟩ := x
    -- nothing more is computed once an operand is no int, or an operator refused
    have hstop : constOp c op (some lhs) (constOf n) = none → ¬ HugeShift c op (some lhs) (constOf n) → foldOps c lhs ((op, n) :: ops) = .ok none →
        FoldsOps c rt lhs ((op, n) :: ops) := by
      intro hconst hhuge hfold
      refine ⟨fun h => ?_, fun _ => ⟨none, hfold, ?_, fun o ho => by cases ho⟩⟩
      · rcases h with h | h
        · exact absurd h hhuge
        · exact absurd (hconst ▸ h) (opsOverflow_none _)
      · exact (congrArg (constOps c · _) hconst).trans (constOps_none _)
    cases hn : intOnly (constOf n) with
    | none =>
      refine hstop ?_ (fun h => ?_) ?_
      · simp [constOp, hn]
      · obtain ⟨-, -, o, ho, -⟩ := h
        rw [hn] at ho
        cases ho
      · rw [foldOps, getIntMaybe_eq, hn]
    | some y =>
      obtain ⟨hconst, hy⟩ := intOnly_some.mp hn
      have hfold : foldOps c lhs ((op, n) :: ops) = if refused op y then .ok none else binaryOp c op lhs y >>= fun o => foldOps c o ops := by
        rw [foldOps, getIntMaybe_eq, hn]
      have hop : constOp c op (some lhs) (constOf n) = if refused op y then none else (binaryOp c op lhs y).toOption := by
        simp [constOp, hn]
      by_cases hr : refused op y = true
      · refine hstop (hop.trans (if_pos hr)) (fun h => ?_) (hfold.trans (if_pos hr))
        obtain ⟨hshift, -, o, ho, -, hsign⟩ := h
        obtain rfl := Option.some.inj (hn.symm.trans ho)
        have hneg : intSign y < 0 := by rcases hshift with rfl | rfl <;> simpa [refused] using hr
        omega
      · rw [if_neg hr] at hfold hop
        rcases binaryOp_int (c := c) hlhs hy (Bool.eq_false_iff.mpr hr) with ⟨hshift, hlarge, hsign, hrun⟩ | ⟨hfits, o, hrun, ho⟩
        · have hhuge : HugeShift c op (some lhs) (constOf n) := ⟨hshift, rfl, y, hn, hlarge, hsign⟩
          exact ⟨fun _ => hfold.trans (by rw [hrun]; rfl), fun h => absurd (.inl hhuge) h⟩
        · have hhuge : ¬ HugeShift c op (some lhs) (constOf n) := fun ⟨hshift, _, o', ho', hlarge, _⟩ =>
            hfits ⟨hshift, by rwa [Option.some.inj (hn.symm.trans ho')]⟩
          have hnext : foldOps c lhs ((op, n) :: ops) = foldOps c o ops := hfold.trans (by rw [hrun]; rfl)
          have hconstOp : constOp c op (some lhs) (constOf n) = some o := hop.trans (by rw [hrun]; rfl)
          have hoverflow : opsOverflow c (some lhs) (((op, n) :: ops).map (Prod.map id constOf)) ↔
              opsOverflow c (some o) (ops.map (Prod.map id constOf)) := by
            show HugeShift c op (some lhs) (constOf n) ∨ opsOverflow c (constOp c op (some lhs) (constOf n)) _ ↔ _
            rw [hconstOp, or_iff_right hhuge]
          obtain ⟨hraises, hgives⟩ := ih ho
          refine ⟨fun h => hnext.trans (hraises (hoverflow.mp h)), fun h => ?_⟩
          obtain ⟨r, hr, hconsts, hrest⟩ := hgives (mt hoverflow.mpr h)
          refine ⟨r, hnext.trans hr, (congrArg (constOps c · _) hconstOp).trans hconsts, fun o' ho' => ?_⟩
          show (do let u ← eval c rt n; compileOps c rt (← runBinary c rt op (.const lhs) u) _) = _
          rw [eval_of_const hconst, pure_bind]
          simp only [runBinary, hrun, lift, pure_bind]
          exact hrest o' ho'

end

/-! ## Rules -/

section

variable {c : Config F E} {rt : Runtime F L O E σ} {rule : RuleId} {n : Node F L} {nodes rest stack : List (Node F L)}

/-- The rules with operators between their operands. -/
def RuleId.HasOps (rule : RuleId) : Prop :=
  (rule = .expr ∨ rule = .xorExpr ∨ rule = .andExpr ∨ rule = .power) ∨ rule = .shiftExpr ∨ rule = .arithExpr ∨ rule = .term

theorem operations_argsOf {α : Type} (f : Node F L → α) : operations rule (argsOf f nodes) = (operations rule (argsOf id nodes)).map (Prod.map id f) := by
  unfold operations
  cases rule.sameOp with
  | some op =>
    simp only [argsOf, List.map_map]
    rfl
  | none =>
    induction nodes using List.twoStepInduction with
    | nil => rfl
    | singleton => rfl
    | cons_cons t n nodes ih _ => exact congrArg _ ih

theorem form_ops {α : Type} (hrule : rule.HasOps) (f : Node F L → α) :
    form rule (argsOf f (n :: nodes)) = .ops (f n) ((operations rule (argsOf id nodes)).map (Prod.map id f)) := by
  rw [← operations_argsOf]
  rcases hrule with (rfl | rfl | rfl | rfl) | rfl | rfl | rfl <;> rfl

theorem foldConstant_ops (c : Config F E) (rest : List (Node F L)) (hrule : rule.HasOps) (hshape : shape rule (n :: nodes) = true) :
    foldConstant c rule (n :: nodes).length ((n :: nodes).reverse ++ rest) = match getIntMaybe n with
      | none => .ok none
      | some lhs => foldOps c lhs (operations rule (argsOf id nodes)) := by
  have hstack : (n :: nodes).reverse ++ rest = nodes.reverse ++ n :: rest := by simp
  have hpeek : peekResult ((n :: nodes).reverse ++ rest) ((n :: nodes).length - 1) = n := peek_last
  rcases hrule with hrule | hrule
  · have hloop := fun lhs => @foldSameLoop_eq _ _ _ c nodes (n :: rest) lhs (rule.sameOp.getD .power)
      (by rcases hrule with rfl | rfl | rfl | rfl <;> simp [RuleId.sameOp])
    rw [← hstack] at hloop
    rcases hrule with rfl | rfl | rfl | rfl <;>
    · simp only [foldConstant, hpeek]
      cases getIntMaybe n with
      | none => rfl
      | some lhs => exact hloop lhs
  · have halt : alternate rule.toks nodes = true := by rcases hrule with rfl | rfl | rfl <;> exact hshape
    have hloop := fun lhs => @foldTermLoop_eq _ _ _ c rule nodes (n :: rest) lhs hrule halt
    rw [← hstack] at hloop
    rcases hrule with rfl | rfl | rfl <;>
    · simp only [foldConstant, hpeek]
      cases getIntMaybe n with
      | none => rfl
      | some lhs => exact hloop lhs

/-- A rule that is neither a parenthesis nor logical is a constant or a node. -/
theorem pushResultRule_eq (c : Config F E) (nodes rest : List (Node F L)) (hrule : rule.HasOps ∨ rule = .factor2) :
    pushResultRule c rule nodes.length (nodes.reverse ++ rest) =
      (foldConstant c rule nodes.length (nodes.reverse ++ rest)).map fun o => (o.elim (.struct rule nodes) (makeNodeConstObject c)) :: rest := by
  have hlogical : foldLogicalConstants c rule nodes.length (nodes.reverse ++ rest) = (false, nodes.length, nodes.reverse ++ rest) := by
    rcases hrule with ((rfl | rfl | rfl | rfl) | rfl | rfl | rfl) | rfl <;> rfl
  rw [pushResultRule, if_neg (by rcases hrule with ((rfl | rfl | rfl | rfl) | rfl | rfl | rfl) | rfl <;> simp), hlogical]
  simp [funext pushFolded_eq]

/-- A rule raises if a shift in it is by too much; else it leaves a node that does what the rule means. -/
def Pushes (c : Config F E) (rt : Runtime F L O E σ) (rule : RuleId) (nodes rest : List (Node F L)) : Prop :=
  (formOverflows c (form rule (argsOf constOf nodes)) → pushResultRule c rule nodes.length (nodes.reverse ++ rest) = .error (c.raise wordOverflow)) ∧
    (¬ formOverflows c (form rule (argsOf constOf nodes)) → ∃ n, pushResultRule c rule nodes.length (nodes.reverse ++ rest) = .ok (n :: rest) ∧
      eval c rt n = compileForm c rt (form rule (argsOf (eval c rt) nodes)) ∧ constOf n = constForm c (form rule (argsOf constOf nodes)))

theorem pushes_node (h : ∃ n, pushResultRule c rule nodes.length (nodes.reverse ++ rest) = .ok (n :: rest) ∧
    eval c rt n = compileForm c rt (form rule (argsOf (eval c rt) nodes)) ∧ constOf n = constForm c (form rule (argsOf constOf nodes)))
    (hno : ¬ formOverflows c (form rule (argsOf constOf nodes))) : Pushes c rt rule nodes rest :=
  ⟨fun hover => absurd hover hno, fun _ => h⟩

theorem pushes_ops (hrule : rule.HasOps) (hshape : shape rule (n :: nodes) = true) : Pushes c rt rule (n :: nodes) rest := by
  have hfold := foldConstant_ops c rest hrule hshape
  have hpush := pushResultRule_eq c (n :: nodes) rest (.inl hrule)
  have hstruct : eval c rt (.struct rule (n :: nodes)) = compileForm c rt (form rule (argsOf (eval c rt) (n :: nodes))) := by
    rw [eval, evalArgs_eq]
  rw [getIntMaybe_eq] at hfold
  have hform := @form_ops _ _ _ n nodes _ hrule constOf
  cases hn : intOnly (constOf n) with
  | none =>
    rw [hfold, hn] at hpush
    have hno : ¬ formOverflows c (form rule (argsOf constOf (n :: nodes))) := by
      rw [hform, formOverflows, hn]
      exact opsOverflow_none _
    refine pushes_node ⟨_, hpush, hstruct, ?_⟩ hno
    rw [hform, constForm, hn, constOps_none]
    rfl
  | some lhs =>
    obtain ⟨hconst, hlhs⟩ := intOnly_some.mp hn
    obtain ⟨hraises, hgives⟩ := @foldsOps _ _ _ _ _ c rt _ hlhs (operations rule (argsOf id nodes))
    rw [hn] at hfold
    unfold Pushes
    rw [hform, formOverflows, constForm, hn]
    refine ⟨fun h => by rw [hpush, hfold.trans (hraises h)]; rfl, fun h => ?_⟩
    obtain ⟨r, hr, hconsts, heval⟩ := hgives h
    rw [hfold.trans hr] at hpush
    cases r with
    | none => exact ⟨_, hpush, hstruct, hconsts.symm⟩
    | some o =>
      refine ⟨_, hpush, ?_, constOf_makeNode.trans hconsts.symm⟩
      rw [Option.elim_some, eval_of_const constOf_makeNode, form_ops hrule, compileForm, eval_of_const hconst, pure_bind]
      exact (heval o rfl).symm

theorem pushes_not : Pushes c rt .notTest2 [n] rest := by
  refine pushes_node ?_ id
  have hlogical : foldLogicalConstants c .notTest2 1 (n :: rest) =
      if isConstBool c n false then (true, 1, .token .kwTrue :: rest)
      else if isConstBool c n true then (true, 1, .token .kwFalse :: rest) else (false, 1, n :: rest) := rfl
  have hpush : pushResultRule c .notTest2 1 (n :: rest) =
      let r := foldLogicalConstants c .notTest2 1 (n :: rest)
      if r.1 then .ok r.2.2 else .ok (pushFolded c .notTest2 r.2.1 r.2.2 none) := rfl
  have heval : ∀ o, constOf n = some o → (do return .const (.bool !(← runTruth c rt (← eval c rt n))) : Run E σ (Value F O)) =
      pure (.const (.bool !isTrue c o)) := by
    intro o ho
    rw [eval_of_const ho, pure_bind]
    rfl
  rw [hlogical] at hpush
  by_cases h0 : isConstBool c n false = true
  · obtain ⟨o, ho, htrue⟩ := isConstBool_iff.mp h0
    rw [if_pos h0] at hpush
    refine ⟨.token .kwTrue, hpush, ((heval o ho).trans (by rw [htrue]; rfl)).symm, ?_⟩
    show some _ = (constOf n).map _
    rw [ho, Option.map_some, htrue]
    rfl
  · rw [if_neg h0] at hpush
    by_cases h1 : isConstBool c n true = true
    · obtain ⟨o, ho, htrue⟩ := isConstBool_iff.mp h1
      rw [if_pos h1] at hpush
      refine ⟨.token .kwFalse, hpush, ((heval o ho).trans (by rw [htrue]; rfl)).symm, ?_⟩
      show some _ = (constOf n).map _
      rw [ho, Option.map_some, htrue]
      rfl
    · rw [if_neg h1] at hpush
      refine ⟨.struct .notTest2 [n], hpush, ?_, ?_⟩
      · rw [eval, evalArgs_eq]
      · show none = (constOf n).map _
        cases hn : constOf n with
        | none => rfl
        | some o =>
          cases ho : isTrue c o with
          | false => exact absurd (isConstBool_iff.mpr ⟨o, hn, ho⟩) h0
          | true => exact absurd (isConstBool_iff.mpr ⟨o, hn, ho⟩) h1

theorem pushes_factor {tok : TokenKind} : Pushes c rt .factor2 [.token tok, n] rest := by
  refine pushes_node ?_ id
  have hpush := pushResultRule_eq c [.token tok, n] rest (.inr rfl)
  have hfold : foldConstant c .factor2 2 ([Node.token tok, n].reverse ++ rest) = match getIntMaybe n with
      | none => .ok none
      | some arg0 => do return some (← unaryOp c (factorOp tok) arg0) := rfl
  rw [getIntMaybe_eq] at hfold
  cases hn : intOnly (constOf n) with
  | none =>
    rw [hn] at hfold
    refine ⟨_, hpush.trans (congrArg _ hfold), ?_, ?_⟩
    · show eval c rt (.struct .factor2 _) = _
      rw [eval, evalArgs_eq]
    · show none = (intOnly (constOf n)).bind _
      rw [hn]
      rfl
  | some o =>
    obtain ⟨hconst, ho⟩ := intOnly_some.mp hn
    obtain ⟨o', hrun⟩ := unaryOp_int (c := c) (factorOp tok) ho
    rw [hn] at hfold
    have hfold' : foldConstant c .factor2 2 ([Node.token tok, n].reverse ++ rest) = .ok (some o') := hfold.trans (by simp [hrun])
    refine ⟨_, hpush.trans (congrArg _ hfold'), ?_, ?_⟩
    · rw [Option.elim_some, eval_of_const constOf_makeNode]
      show _ = (do runUnary c rt (factorOp tok) (← eval c rt n) : Run E σ (Value F O))
      rw [eval_of_const hconst, pure_bind, runUnary, hrun]
      rfl
    · rw [Option.elim_some, constOf_makeNode]
      show _ = (intOnly (constOf n)).bind fun o => (unaryOp c (factorOp tok) o).toOption
      rw [hn, Option.bind_some, hrun]
      rfl

theorem pushes_paren : Pushes c rt .atomParen [n] rest := pushes_node ⟨n, rfl, rfl, rfl⟩ id

theorem pushes_logical (hrule : rule = .orTest ∨ rule = .andTest) (hnodes : nodes ≠ []) : Pushes c rt rule nodes rest := by
  refine pushes_node ?_ (by rw [form_logical hrule]; exact id)
  rw [form_logical hrule, form_logical hrule]
  exact pushLogical hrule hnodes

theorem pushes (hshape : shape rule nodes = true) : Pushes c rt rule nodes rest := by
  cases rule with
  | orTest => exact pushes_logical (.inl rfl) (by rintro rfl; cases hshape)
  | andTest => exact pushes_logical (.inr rfl) (by rintro rfl; cases hshape)
  | notTest2 =>
    obtain ⟨n, rfl⟩ : ∃ n, nodes = [n] := by
      rcases nodes with _ | ⟨n, _ | ⟨m, nodes⟩⟩
      · cases hshape
      · exact ⟨n, rfl⟩
      · cases hshape
    exact pushes_not
  | factor2 =>
    obtain ⟨tok, n, rfl⟩ : ∃ tok n, nodes = [.token tok, n] := by
      rcases nodes with _ | ⟨t, _ | ⟨n, _ | ⟨m, nodes⟩⟩⟩
      · cases hshape
      · cases t <;> cases hshape
      · cases t with
        | token tok => exact ⟨tok, n, rfl⟩
        | _ => cases hshape
      · cases t <;> cases hshape
    exact pushes_factor
  | atomParen =>
    obtain ⟨n, rfl⟩ : ∃ n, nodes = [n] := by
      rcases nodes with _ | ⟨n, _ | ⟨m, nodes⟩⟩
      · cases hshape
      · exact ⟨n, rfl⟩
      · cases hshape
    exact pushes_paren
  | _ =>
    cases nodes with
    | nil => cases hshape
    | cons n nodes => exact pushes_ops (by simp [RuleId.HasOps]) hshape

end

/-! ## Trees -/

/-- What stands for a tree after folding. -/
structure Folded (c : Config F E) (rt : Runtime F L O E σ) (n n' : Node F L) : Prop where
  eval : eval c rt n' = eval c rt n
  const : constOf n' = constant c n
  token : ∀ tok, n = .token tok → n' = n

section

variable {α : Type} {f g : Node F L → α} {rule : RuleId} {toks : List TokenKind} {nodes nodes' : List (Node F L)}

/-- Two lists of arguments that are alike: operators are the same. -/
def Alike (f g : Node F L → α) : List (Node F L) → List (Node F L) → Prop :=
  List.Forall₂ fun n n' => g n' = f n ∧ ∀ tok, n = .token tok → n' = n

theorem map_congr (h : Alike f g nodes nodes') : nodes'.map g = nodes.map f := by
  induction h with
  | nil => rfl
  | cons hn _ ih => exact congrArg₂ List.cons hn.1 ih

theorem termOps_congr (halt : alternate toks nodes = true) (h : Alike f g nodes nodes') :
    termOps (argsOf g nodes') = termOps (argsOf f nodes) ∧ alternate toks nodes' = true := by
  induction nodes using List.twoStepInduction generalizing nodes' with
  | nil =>
    cases h
    exact ⟨rfl, rfl⟩
  | singleton n => cases n <;> cases halt
  | cons_cons t n nodes ih _ =>
    obtain ⟨tok, rfl⟩ : ∃ tok, t = .token tok := by
      cases t with
      | token tok => exact ⟨tok, rfl⟩
      | _ => cases halt
    rw [alternate, Bool.and_eq_true] at halt
    cases h with
    | @cons _ t' _ _ ht h =>
      cases h with
      | @cons _ n' _ nodes' hn h =>
        obtain rfl := ht.2 tok rfl
        obtain ⟨hops, halt'⟩ := ih halt.2 h
        refine ⟨?_, by rw [alternate, halt.1, halt']; rfl⟩
        show (_, g n') :: termOps (argsOf g nodes') = (_, f n) :: termOps (argsOf f nodes)
        rw [hops, hn.1]

/-- A rule does with folded arguments what it does with the arguments. -/
theorem form_congr (hshape : shape rule nodes = true) (h : Alike f g nodes nodes') :
    form rule (argsOf g nodes') = form rule (argsOf f nodes) ∧ shape rule nodes' = true := by
  have hmap := map_congr h
  have hsame : ∀ op n n' (l l' : List (Node F L)), nodes = n :: l → nodes' = n' :: l' →
      Form.ops (g n') ((argsOf g l').map fun a => (op, a.of)) = Form.ops (f n) ((argsOf f l).map fun a => ((op : Binary), a.of)) := by
    rintro op n n' l l' rfl rfl
    obtain ⟨hhead, htail⟩ := List.cons.inj hmap
    have hops : ∀ (k : Node F L → α) (l : List (Node F L)), (argsOf k l).map (fun a => (op, a.of)) = (l.map k).map fun a => (op, a) :=
      fun k l => by rw [argsOf, List.map_map, List.map_map]; rfl
    rw [hops, hops, htail, hhead]
  cases h with
  | nil => cases rule <;> cases hshape
  | @cons n n' nodes nodes' hn h =>
    have hterm := fun halt => @termOps_congr _ _ _ f g rule.toks nodes nodes' halt h
    cases rule with
    | orTest => exact ⟨by rw [form_logical (.inl rfl), form_logical (.inl rfl), hmap], rfl⟩
    | andTest => exact ⟨by rw [form_logical (.inr rfl), form_logical (.inr rfl), hmap], rfl⟩
    | expr => exact ⟨hsame _ _ _ _ _ rfl rfl, rfl⟩
    | xorExpr => exact ⟨hsame _ _ _ _ _ rfl rfl, rfl⟩
    | andExpr => exact ⟨hsame _ _ _ _ _ rfl rfl, rfl⟩
    | shiftExpr => exact ⟨congrArg₂ Form.ops hn.1 (hterm hshape).1, (hterm hshape).2⟩
    | arithExpr => exact ⟨congrArg₂ Form.ops hn.1 (hterm hshape).1, (hterm hshape).2⟩
    | term => exact ⟨congrArg₂ Form.ops hn.1 (hterm hshape).1, (hterm hshape).2⟩
    | notTest2 =>
      cases h with
      | nil => exact ⟨congrArg Form.not hn.1, rfl⟩
      | cons _ _ => cases hshape
    | atomParen =>
      cases h with
      | nil => exact ⟨congrArg Form.paren hn.1, rfl⟩
      | cons _ _ => cases hshape
    | power =>
      rcases h with _ | ⟨hm, _ | _⟩
      · cases hshape
      · exact ⟨hsame _ _ _ _ _ rfl rfl, rfl⟩
      · cases hshape
    | factor2 =>
      obtain ⟨tok, rfl⟩ : ∃ tok, n = .token tok := by
        cases n with
        | token tok => exact ⟨tok, rfl⟩
        | _ => rcases h with _ | ⟨hm, _ | _⟩ <;> cases hshape
      obtain rfl := hn.2 tok rfl
      rcases h with _ | ⟨hm, _ | _⟩
      · cases hshape
      · exact ⟨congrArg (Form.factor _) hm.1, hshape⟩
      · cases hshape

variable {c : Config F E} {rt : Runtime F L O E σ}

/-- A tree raises when it overflows, and else becomes one node that stands for it. -/
def Builds (c : Config F E) (rt : Runtime F L O E σ) (n : Node F L) (stack : List (Node F L)) : Prop :=
  (Overflows c n → build c n stack = .error (c.raise wordOverflow)) ∧
    (¬ Overflows c n → ∃ n', build c n stack = .ok (n' :: stack) ∧ Folded c rt n n')

theorem builds_leaf {n : Node F L} {stack : List (Node F L)} (hno : ¬ Overflows c n) (hbuild : build c n stack = .ok (n :: stack))
    (hconst : constOf n = constant c n) : Builds c rt n stack :=
  ⟨fun h => absurd h hno, fun _ => ⟨n, hbuild, rfl, hconst, fun _ _ => rfl⟩⟩

mutual

theorem build_folds : ∀ (n : Node F L) (stack : List (Node F L)), wellFormed n = true → Builds c rt n stack
  | .struct rule nodes, stack, hwf => by
    rw [wellFormed, Bool.and_eq_true] at hwf
    obtain ⟨hraises, hgives⟩ := buildAll_folds nodes stack hwf.2
    rw [Builds, Overflows, build, constants_eq]
    by_cases hsome : SomeOverflows c nodes
    · exact ⟨fun _ => by rw [hraises hsome]; rfl, fun h => absurd (.inl hsome) h⟩
    · obtain ⟨nodes', hrun, hfolded⟩ := hgives hsome
      have hconst : Alike (constant c) constOf nodes nodes' := hfolded.imp fun _ _ h => ⟨h.const, h.token⟩
      have heval : Alike (eval c rt) (eval c rt) nodes nodes' := hfolded.imp fun _ _ h => ⟨h.eval, h.token⟩
      obtain ⟨hform, hshape⟩ := form_congr hwf.1 hconst
      obtain ⟨hpush, hnode⟩ := @pushes _ _ _ _ _ c rt _ _ stack hshape
      rw [hform] at hpush hnode
      rw [hrun, or_iff_right hsome, hfolded.length_eq]
      refine ⟨hpush, fun h => ?_⟩
      obtain ⟨n, hn, hev, hco⟩ := hnode h
      refine ⟨n, hn, ⟨?_, ?_, fun tok ht => by cases ht⟩⟩
      · rw [hev, (form_congr hwf.1 heval).1, eval, evalArgs_eq]
      · rw [hco, constant, constants_eq]
  | .smallInt _, _, _ => builds_leaf id rfl rfl
  | .string _, _, _ => builds_leaf id rfl rfl
  | .token _, _, _ => builds_leaf id rfl rfl
  | .constObject _, _, _ => builds_leaf id rfl rfl
  | .emptyParen, _, _ => builds_leaf id rfl rfl
  | .other _, _, _ => builds_leaf id rfl rfl

theorem buildAll_folds : ∀ (nodes : List (Node F L)) (stack : List (Node F L)), allWellFormed nodes = true →
    (SomeOverflows c nodes → buildAll c nodes stack = .error (c.raise wordOverflow)) ∧
      (¬ SomeOverflows c nodes → ∃ nodes', buildAll c nodes stack = .ok (nodes'.reverse ++ stack) ∧ List.Forall₂ (Folded c rt) nodes nodes')
  | [], stack, _ => ⟨fun h => absurd h id, fun _ => ⟨[], rfl, .nil⟩⟩
  | n :: nodes, stack, hwf => by
    rw [allWellFormed, Bool.and_eq_true] at hwf
    obtain ⟨hraises, hgives⟩ := build_folds n stack hwf.1
    rw [SomeOverflows, buildAll]
    by_cases hn : Overflows c n
    · exact ⟨fun _ => by rw [hraises hn]; rfl, fun h => absurd (.inl hn) h⟩
    · obtain ⟨n', hrun, hfolded⟩ := hgives hn
      obtain ⟨hraises', hgives'⟩ := buildAll_folds nodes (n' :: stack) hwf.2
      rw [hrun, or_iff_right hn]
      refine ⟨hraises', fun h => ?_⟩
      obtain ⟨nodes', hrun', hfolded'⟩ := hgives' h
      exact ⟨n' :: nodes', by rw [List.reverse_cons, List.append_assoc]; exact hrun', .cons hfolded hfolded'⟩

end

/-- From this state a program ends with an exception. -/
def Raises {β : Type} (x : Run E σ β) (s : σ) : Prop := ∃ e s', x s = (.error e, s')

/-- Folding keeps what a tree does from every state, and raises only if the tree does from this one. -/
structure FoldKeeps (c : Config F E) (rt : Runtime F L O E σ) (t : Node F L) (s : σ) : Prop where
  same : ∀ stack stack', build c t stack = .ok stack' → ∃ n, stack' = n :: stack ∧ eval c rt n = eval c rt t
  raises : ∀ stack e, build c t stack = .error e → Raises (eval c rt t) s

theorem fold_keeps_iff (c : Config F E) (rt : Runtime F L O E σ) (t : Node F L) (s : σ) (hwf : wellFormed t = true) :
    FoldKeeps c rt t s ↔ (Overflows c t → Raises (eval c rt t) s) := by
  have hbuilds := fun stack => @build_folds _ _ _ _ _ c rt t stack hwf
  constructor
  · intro h hover
    exact h.raises [] _ ((hbuilds []).1 hover)
  · intro h
    refine ⟨fun stack stack' hrun => ?_, fun stack e hrun => ?_⟩
    · by_cases hover : Overflows c t
      · rw [(hbuilds stack).1 hover] at hrun
        cases hrun
      · obtain ⟨n, hn, hfolded⟩ := (hbuilds stack).2 hover
        rw [hn] at hrun
        exact ⟨n, (Except.ok.inj hrun).symm, hfolded.eval⟩
    · by_cases hover : Overflows c t
      · exact h hover
      · obtain ⟨n, hn, -⟩ := (hbuilds stack).2 hover
        rw [hn] at hrun
        cases hrun

end

/-! ## A shift that is not come to -/

/-- A 64-bit machine, with no constants but those of the language. -/
def machine64 : Config Empty Exc where
  wordBits := 64
  smallIntFits v := decide (-2 ^ 62 ≤ v ∧ v < 2 ^ 62)
  nodeFits _ := true
  isTrue x := x.elim
  raise e := e
  binary _ _ _ := .error (.valueError "unsupported types")
  unary _ _ := .error (.valueError "unsupported type")

def noNames : Runtime Empty Empty Empty Exc Unit where
  load x := x.elim
  binary _ _ _ := throw (.valueError "unsupported types")
  unary _ x := x.elim
  truth x := x.elim

/-- `1 << n` -/
def shifted (n : Node Empty Empty) : Node Empty Empty := .struct .shiftExpr [.smallInt 1, .token .opDblLess, n]

/-- `0 and 1 << (1 << 70)` -/
def lazyShift : Node Empty Empty := .struct .andTest [.smallInt 0, shifted (.struct .atomParen [shifted (.smallInt 70)])]

theorem fold_keeps_shifted : FoldKeeps machine64 noNames (shifted (.smallInt 70)) () :=
  (fold_keeps_iff machine64 noNames (shifted (.smallInt 70)) () rfl).mpr fun h => by
    rcases h with (h | h | h | h) | ⟨-, -, o, ho, ⟨hsmall, -⟩, -⟩ | h
    · exact absurd h id
    · exact absurd h id
    · exact absurd h id
    · exact absurd h id
    · obtain rfl := Option.some.inj ho
      cases hsmall
    · exact absurd h id

/-- The shift raises in the parser though `and` stops before it. -/
theorem folded_too_soon : build machine64 lazyShift [] = .error wordOverflow ∧
    eval machine64 noNames lazyShift () = (.ok (.const (.smallInt 0)), ()) ∧ ¬ FoldKeeps machine64 noNames lazyShift () := by
  have hbuild : build machine64 lazyShift [] = .error wordOverflow := by rfl
  have heval : eval machine64 noNames lazyShift () = (.ok (.const (.smallInt 0)), ()) := by rfl
  refine ⟨hbuild, heval, fun h => ?_⟩
  obtain ⟨e, s, hrun⟩ := h.raises [] _ hbuild
  rw [heval] at hrun
  cases hrun

end PythonUltra.Py.Parse
