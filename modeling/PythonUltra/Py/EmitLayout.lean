/-
  PythonUltra.Py.EmitLayout — one pass of the emitter against the next.

  A pass is compared with the one before it, call by call (`Shrunk`): as long as no jump gets
  longer, every position, every label and every part of the code info is at most what it was.
  A label that is not assigned yet still has its offset of the pass before, so a jump lands
  where its label is if the labels have not moved; and they have not if the size of the code
  is the same, since the gap between the passes only ever widens.
-/

import PythonUltra.Py.EmitBc

namespace PythonUltra.Py.EmitBc

/-! ## The size of the code info -/

/-- The bytes for a number of lines and no bytecode. -/
def linesCost (l : Nat) : Nat := if l ≤ 6 then (l + 2) / 3 else 2 + linesCost (l - 0x7ff)
termination_by l

/-- The bytes for a number of bytes and lines. -/
def cost (b l : Nat) : Nat :=
  if b = 0 then linesCost l
  else if b > 0x1f then 1 + cost (b - 0x1f) l
  else if l ≤ 6 ∨ b > 0xf then 1 + linesCost (l - 3)
  else 2 + linesCost (l - 0x7ff)
termination_by b

theorem linesCost_small {l : Nat} (h : l ≤ 6) : linesCost l = (l + 2) / 3 := by
  rw [linesCost, if_pos h]

theorem linesCost_large {l : Nat} (h : ¬ l ≤ 6) : linesCost l = 2 + linesCost (l - 0x7ff) := by
  rw [linesCost, if_neg h]

theorem cost_zero (l : Nat) : cost 0 l = linesCost l := by rw [cost, if_pos rfl]

theorem cost_more {b l : Nat} (hb : b > 0x1f) : cost b l = 1 + cost (b - 0x1f) l := by
  rw [cost, if_neg (by omega), if_pos hb]

theorem cost_short {b l : Nat} (hz : b ≠ 0) (hb : ¬ b > 0x1f) (h : l ≤ 6 ∨ b > 0xf) : cost b l = 1 + linesCost (l - 3) := by
  rw [cost, if_neg hz, if_neg hb, if_pos h]

theorem cost_long {b l : Nat} (hz : b ≠ 0) (h : ¬ (l ≤ 6 ∨ b > 0xf)) : cost b l = 2 + linesCost (l - 0x7ff) := by
  rw [cost, if_neg hz, if_neg (by omega), if_neg h]

theorem length_bytesLines (fuel : Nat) : ∀ b l, b + l < fuel → (bytesLines fuel b l).length = cost b l := by
  induction fuel with
  | zero =>
    intro b l h
    omega
  | succ fuel ih =>
    intro b l h
    rw [bytesLines]
    by_cases hsome : b > 0 ∨ l > 0
    · rw [if_pos hsome]
      by_cases hsmall : l ≤ 6 ∨ b > 0xf
      · rw [if_pos hsmall]
        dsimp only
        rw [List.length_cons]
        by_cases hb : b > 0x1f
        · have hmin : min b 0x1f = 0x1f := Nat.min_eq_right (by omega)
          rw [hmin, if_pos hb, ih _ _ (by omega), cost_more hb, Nat.add_comm, Nat.sub_zero]
        · have hmin : min b 0x1f = b := Nat.min_eq_left (by omega)
          rw [hmin, if_neg (Nat.lt_irrefl b), ih _ _ (by omega), Nat.sub_self, cost_zero]
          by_cases hz : b = 0
          · rw [hz, cost_zero, linesCost_small (show l - min l 3 ≤ 6 by omega), linesCost_small (show l ≤ 6 by omega)]
            omega
          · rw [cost_short hz hb hsmall, Nat.add_comm, show l - min l 3 = l - 3 by omega]
      · rw [if_neg hsmall]
        dsimp only
        rw [List.length_cons, List.length_cons, Nat.min_eq_left (by omega), ih _ _ (by omega), Nat.sub_self, cost_zero,
          show l - min l 0x7ff = l - 0x7ff by omega]
        by_cases hz : b = 0
        · rw [hz, cost_zero, linesCost_large (show ¬ l ≤ 6 by omega)]
          omega
        · rw [cost_long hz hsmall]
          omega
    · rw [if_neg hsome, show b = 0 by omega, show l = 0 by omega, cost_zero, linesCost_small (Nat.zero_le 6)]
      rfl

theorem linesCost_succ_le (l : Nat) : linesCost l ≤ linesCost (l + 1) := by
  induction l using Nat.strong_induction_on with
  | _ l ih =>
    by_cases h : l + 1 ≤ 6
    · rw [linesCost_small h, linesCost_small (by omega)]
      omega
    · rw [linesCost_large h]
      by_cases h' : l ≤ 6
      · rw [linesCost_small h']
        omega
      · rw [linesCost_large h']
        by_cases hl : l < 0x7ff
        · rw [show l - 0x7ff = 0 by omega, linesCost_small (Nat.zero_le 6)]
          omega
        · have := ih (l - 0x7ff) (by omega)
          rw [show l + 1 - 0x7ff = l - 0x7ff + 1 by omega]
          omega

theorem linesCost_le {l l' : Nat} (h : l ≤ l') : linesCost l ≤ linesCost l' :=
  monotone_nat_of_le_succ linesCost_succ_le h

/-- Three lines more take at most one byte more. -/
theorem linesCost_add_three (l : Nat) : linesCost (l + 3) ≤ 1 + linesCost l := by
  induction l using Nat.strong_induction_on with
  | _ l ih =>
    by_cases h : l + 3 ≤ 6
    · rw [linesCost_small h, linesCost_small (by omega)]
      omega
    · rw [linesCost_large h]
      by_cases hl : l < 0x7ff
      · rw [linesCost_small (show l + 3 - 0x7ff ≤ 6 by omega)]
        by_cases h' : l ≤ 6
        · rw [linesCost_small h']
          omega
        · rw [linesCost_large h', show l - 0x7ff = 0 by omega, linesCost_small (Nat.zero_le 6)]
          omega
      · have := ih (l - 0x7ff) (by omega)
        rw [linesCost_large (show ¬ l ≤ 6 by omega), show l + 3 - 0x7ff = l - 0x7ff + 3 by omega]
        omega

theorem cost_succ_le (b l : Nat) : cost b l ≤ cost (b + 1) l := by
  induction b using Nat.strong_induction_on with
  | _ b ih =>
    by_cases hz : b = 0
    · rw [hz, cost_zero]
      by_cases hl : l ≤ 6
      · rw [cost_short (by omega) (by omega) (.inl hl), linesCost_small hl, linesCost_small (by omega)]
        omega
      · rw [cost_long (by omega) (by omega), linesCost_large hl]
    · by_cases hb : b > 0x1f
      · -- both start with a full byte
        have hle := ih (b - 0x1f) (by omega)
        rw [cost_more hb, cost_more (show b + 1 > 0x1f by omega), show b + 1 - 0x1f = b - 0x1f + 1 by omega]
        omega
      · by_cases he : b = 0x1f
        · -- the lines no longer go with the first byte
          rw [cost_short hz hb (by omega), he, cost_more (by omega)]
          by_cases hl : l ≤ 6
          · rw [cost_short (by omega) (by omega) (.inl hl)]
            omega
          · rw [cost_long (by omega) (by omega)]
            have hle := linesCost_le (show l - 3 ≤ l by omega)
            rw [linesCost_large hl] at hle
            omega
        · by_cases hshort : l ≤ 6 ∨ b > 0xf
          · rw [cost_short hz hb hshort, cost_short (by omega) (by omega) (by omega)]
          · rw [cost_long hz hshort]
            by_cases h15 : b = 0xf
            · -- the long form is no longer used
              rw [cost_short (by omega) (by omega) (by omega)]
              by_cases hl : l - 3 ≤ 6
              · rw [linesCost_small hl, linesCost_small (show l - 0x7ff ≤ 6 by omega)]
                omega
              · have hle := linesCost_le (show l - 0x7ff ≤ l - 3 - 0x7ff + 3 by omega)
                have hthree := linesCost_add_three (l - 3 - 0x7ff)
                rw [linesCost_large hl]
                omega
            · rw [cost_long (by omega) (by omega)]

theorem length_bytesLines_le {b b' l : Nat} (h : b' ≤ b) :
    (bytesLines (b' + l + 1) b' l).length ≤ (bytesLines (b + l + 1) b l).length := by
  rw [length_bytesLines _ _ _ (by omega), length_bytesLines _ _ _ (by omega)]
  exact monotone_nat_of_le_succ (fun b => cost_succ_le b l) h

theorem length_sizeEncodeFrom_le (fuel : Nat) : ∀ (fuel' i i' c : Nat), i' ≤ i → i + c < fuel → i' + c < fuel' →
    (sizeEncodeFrom fuel' i' c).length ≤ (sizeEncodeFrom fuel i c).length := by
  induction fuel with
  | zero =>
    intro fuel' i i' c _ h _
    omega
  | succ fuel ih =>
    intro fuel' i i' c hi h h'
    cases fuel' with
    | zero => omega
    | succ fuel' =>
      have hshift : i' >>> 6 ≤ i >>> 6 := by
        rw [Nat.shiftRight_eq_div_pow, Nat.shiftRight_eq_div_pow]
        exact Nat.div_le_div_right hi
      rw [sizeEncodeFrom, sizeEncodeFrom]
      by_cases hmore : c >>> 1 ||| i' >>> 6 ≠ 0
      · have hmore' : c >>> 1 ||| i >>> 6 ≠ 0 := by
          rw [ne_eq, Nat.or_eq_zero_iff, not_and_or] at hmore ⊢
          exact hmore.imp_right fun h => by omega
        rw [if_pos hmore, if_pos hmore', List.length_cons, List.length_cons]
        have hstep : ∀ n, n >>> 6 ≤ n ∧ c >>> 1 ≤ c ∧ (0 < n → n >>> 6 < n) ∧ (0 < c → c >>> 1 < c) := by
          intro n
          rw [Nat.shiftRight_eq_div_pow, Nat.shiftRight_eq_div_pow]
          omega
        have hpos : 0 < c ∨ 0 < i' := by
          by_contra hno
          rw [show c = 0 by omega, show i' = 0 by omega] at hmore
          exact hmore rfl
        have h₁ := hstep i
        have h₂ := hstep i'
        have hrec := ih fuel' (i >>> 6) (i' >>> 6) (c >>> 1) hshift (by omega) (by omega)
        omega
      · rw [if_neg hmore]
        split
        · rw [List.length_cons, List.length_cons]
          exact Nat.succ_le_succ (Nat.zero_le _)
        · exact Nat.le_refl _

theorem length_sizeEncode_le {i i' : Nat} (h : i' ≤ i) (c : Nat) : (sizeEncode i' c).length ≤ (sizeEncode i c).length :=
  length_sizeEncodeFrom_le _ _ _ _ _ h (by omega) (by omega)

/-! ## What a call adds -/

theorem length_jumpBytes (op : Nat) (wide : Bool) (biased : Int) : (jumpBytes op wide biased).length = if wide then 3 else 2 := by
  cases wide with
  | true => rfl
  | false => rfl

/-- The bytecode a call adds. -/
def codeOf (e : Emit) : Call → List Nat
  | .write _ bytes => if e.suppress then [] else bytes
  | .jump _ op label => if e.suppress then [] else jumpBytes op (wide e op label) (biased e op label)
  | _ => []

def jumpsOf (e : Emit) : Call → List Jump
  | .jump _ op label => if e.suppress then [] else [⟨e.code.length, op, label, wide e op label⟩]
  | _ => []

def infoOf (e : Emit) : Call → List Nat
  | .setSourceLine line =>
    if line > e.lastSourceLine then
      bytesLines (e.code.length - e.lastSourceLineOffset + (line - e.lastSourceLine) + 1)
        (e.code.length - e.lastSourceLineOffset) (line - e.lastSourceLine)
    else []
  | _ => []

def stackAdjOf : Call → Int
  | .write stackAdj _ => stackAdj
  | .jump stackAdj _ _ => stackAdj
  | .adjustStackSize delta => delta
  | _ => 0

def suppressOf (dead : Bool) : Call → Bool
  | .suppress => true
  | .labelAssign _ => false
  | _ => dead

def labelsOf (e : Emit) : Call → Nat → Nat
  | .labelAssign label => Function.update e.labelOffsets label e.code.length
  | _ => e.labelOffsets

def lineOf (e : Emit) : Call → Nat
  | .setSourceLine line => if line > e.lastSourceLine then line else e.lastSourceLine
  | _ => e.lastSourceLine

def lineOffsetOf (e : Emit) : Call → Nat
  | .setSourceLine line => if line > e.lastSourceLine then e.code.length else e.lastSourceLineOffset
  | _ => e.lastSourceLineOffset

def overflowOf (e : Emit) : Call → Bool
  | .jump _ op label => !e.suppress && wide e op label && decide (e.pass = .emit) &&
      !(decide (0 ≤ biased e op label) && decide (biased e op label ≤ 0x7fff))
  | _ => false

/-- A call, but for the asserts. -/
theorem step_eq (sc : Scope) (e : Emit) (c : Call) :
    step sc e c = { e with
      suppress := suppressOf e.suppress c
      stackSize := e.stackSize + stackAdjOf c
      lastSourceLineOffset := lineOffsetOf e c
      lastSourceLine := lineOf e c
      labelOffsets := labelsOf e c
      info := e.info ++ infoOf e c
      code := e.code ++ codeOf e c
      jumps := e.jumps ++ jumpsOf e c
      overflow := e.overflow || overflowOf e c
      failed := (step sc e c).failed } := by
  cases c with
  | write stackAdj bytes =>
    by_cases h : e.suppress = true
    · simp [step, Emit.writeCode, Emit.adjustStackSize, Emit.assert, codeOf, jumpsOf, overflowOf, infoOf, stackAdjOf, suppressOf, labelsOf,
        lineOf, lineOffsetOf, h]
    · simp [step, Emit.writeCode, Emit.adjustStackSize, Emit.assert, codeOf, jumpsOf, overflowOf, infoOf, stackAdjOf, suppressOf, labelsOf,
        lineOf, lineOffsetOf, h]
  | jump stackAdj op label =>
    by_cases h : e.suppress = true
    · simp [step, emitByteLabel, writeJump, Emit.adjustStackSize, Emit.assert, codeOf, jumpsOf, overflowOf, infoOf, stackAdjOf, suppressOf, labelsOf,
        lineOf, lineOffsetOf, h]
    · simp [step, emitByteLabel, writeJump, Emit.writeCode, Emit.adjustStackSize, Emit.assert, codeOf, jumpsOf, overflowOf, infoOf, stackAdjOf,
        suppressOf, labelsOf, lineOf, lineOffsetOf, h, wide, biased, offsetOf, distance]
  | suppress => simp [step, codeOf, jumpsOf, overflowOf, infoOf, stackAdjOf, suppressOf, labelsOf, lineOf, lineOffsetOf]
  | adjustStackSize delta =>
    simp [step, Emit.adjustStackSize, Emit.assert, codeOf, jumpsOf, overflowOf, infoOf, stackAdjOf, suppressOf, labelsOf, lineOf, lineOffsetOf]
  | labelAssign label =>
    simp [step, emitLabel, Emit.assert, codeOf, jumpsOf, overflowOf, infoOf, stackAdjOf, suppressOf, labelsOf, lineOf, lineOffsetOf]
  | setSourceLine line =>
    by_cases h : line > e.lastSourceLine
    · simp [step, emitSourceLine, Emit.writeInfo, Emit.assert, codeOf, jumpsOf, overflowOf, infoOf, stackAdjOf, suppressOf, labelsOf, lineOf,
        lineOffsetOf, h]
    · simp [step, emitSourceLine, codeOf, jumpsOf, overflowOf, infoOf, stackAdjOf, suppressOf, labelsOf, lineOf, lineOffsetOf, h]

/-! ## Where a jump goes -/

theorem decode_wide {biased : Int} (h : 0 ≤ biased ∧ biased ≤ 0x7fff) (more : List Nat) :
    decodeULabel ((0x80 ||| (biased % 128).toNat) :: (biased / 128 % 256).toNat :: more) = (biased, 2) ∧
    decodeSLabel ((0x80 ||| (biased % 128).toNat) :: (biased / 128 % 256).toNat :: more) = (biased - 0x4000, 2) := by
  have hlow : (biased % 128).toNat < 128 := by omega
  obtain ⟨_, _, hbits, hmark⟩ := group_bits _ hlow
  have hvalue : (((biased % 128).toNat ||| (biased / 128 % 256).toNat <<< 7 : Nat) : Int) = biased := by
    rw [Nat.or_comm, shiftLeft_or hlow]
    omega
  unfold decodeULabel decodeSLabel
  simp only [List.getD_cons_zero, List.getD_cons_succ]
  rw [Nat.or_comm 0x80, if_pos hmark, if_pos hmark, hbits, hvalue]
  exact ⟨rfl, rfl⟩

theorem decode_short {biased : Int} (h : 0 ≤ biased ∧ biased ≤ 0x7f) (more : List Nat) :
    decodeULabel (biased.toNat :: more) = (biased, 1) ∧ decodeSLabel (biased.toNat :: more) = (biased - 0x40, 1) := by
  have hlow : biased.toNat < 128 := by omega
  obtain ⟨_, hmark, _, _⟩ := group_bits _ hlow
  unfold decodeULabel decodeSLabel
  simp only [List.getD_cons_zero]
  rw [if_neg (not_not_intro hmark), if_neg (not_not_intro hmark), Int.toNat_of_nonneg h.1]
  exact ⟨rfl, rfl⟩

/-- The offset that is stored can be read back. -/
def Storable (wide : Bool) (biased : Int) : Prop := 0 ≤ biased ∧ biased ≤ if wide then 0x7fff else 0x7f

theorem target_jump (pre more : List Nat) (op : Nat) (wide : Bool) (biased : Int) (h : Storable wide biased) :
    target (pre ++ jumpBytes op wide biased ++ more) pre.length =
      pre.length + (if wide then 3 else 2) + (if isSigned op then biased - (if wide then 0x4000 else 0x40) else biased) := by
  have hop : ∀ l : List Nat, (pre ++ (op :: l) ++ more).getD pre.length 0 = op := by
    intro l
    rw [List.append_assoc, List.getD_eq_getElem?_getD, List.getElem?_append_right (Nat.le_refl _), Nat.sub_self]
    rfl
  have hdrop : ∀ l : List Nat, (pre ++ (op :: l) ++ more).drop (pre.length + 1) = l ++ more := by
    intro l
    rw [List.append_assoc, List.drop_length_add_append]
    rfl
  unfold target jumpBytes
  cases wide with
  | true =>
    obtain ⟨hu, hs⟩ := decode_wide h more
    rw [if_pos rfl, hop, hdrop]
    dsimp only [List.cons_append, List.nil_append]
    rw [hu, hs]
    cases isSigned op with
    | true => simp; omega
    | false => simp; omega
  | false =>
    obtain ⟨hu, hs⟩ := decode_short h more
    rw [if_neg Bool.false_ne_true, hop, hdrop]
    dsimp only [List.cons_append, List.nil_append]
    rw [hu, hs]
    cases isSigned op with
    | true => simp; omega
    | false => simp; omega

/-- The jump is in the code, and goes to `u` whatever comes after it. -/
def Lands (code : List Nat) (j : Jump) (u : Nat) : Prop :=
  ∃ pre bytes post, code = pre ++ bytes ++ post ∧ pre.length = j.pos ∧ ∀ more, target (pre ++ bytes ++ more) pre.length = u

theorem Lands.append {code : List Nat} {j : Jump} {u : Nat} (h : Lands code j u) (more : List Nat) : Lands (code ++ more) j u := by
  obtain ⟨pre, bytes, post, hcode, hpos, htarget⟩ := h
  refine ⟨pre, bytes, post ++ more, ?_, hpos, htarget⟩
  rw [hcode, List.append_assoc (pre ++ bytes)]

theorem Lands.target_eq {code : List Nat} {j : Jump} {u : Nat} (h : Lands code j u) : target code j.pos = u := by
  obtain ⟨pre, bytes, post, hcode, hpos, htarget⟩ := h
  rw [hcode, ← hpos]
  exact htarget post

/-- A jump goes to the offset its label has when it is written. -/
theorem lands_jump (e : Emit) (op label : Nat) (hpass : e.pass ≠ .stackSize)
    (h : Storable (wide e op label) (biased e op label)) :
    Lands (e.code ++ jumpBytes op (wide e op label) (biased e op label)) ⟨e.code.length, op, label, wide e op label⟩
      (e.labelOffsets label) := by
  refine ⟨e.code, jumpBytes op (wide e op label) (biased e op label), [], (List.append_nil _).symm, rfl, fun more => ?_⟩
  rw [target_jump _ _ _ _ _ h]
  unfold biased offsetOf distance
  rw [if_neg hpass]
  cases wide e op label with
  | true =>
    cases isSigned op with
    | true => simp; omega
    | false => simp; omega
  | false =>
    cases isSigned op with
    | true => simp
    | false => simp

/-! ## The calls a compiler makes -/

def labelOf : Call → List Nat
  | .labelAssign label => [label]
  | _ => []

/-- The labels assigned by a list of calls. -/
def assigned (calls : List Call) : List Nat := calls.flatMap labelOf

/-- A jump goes to a label there is, forward if its offset is unsigned; a label is assigned once. -/
def CallOk (sc : Scope) (all done : List Nat) (dead : Bool) : Call → Prop
  | .jump _ op label => dead = false → label ∈ all ∧ (isSigned op = false → label ∉ done)
  | .labelAssign label => label ∉ done ∧ label < sc.maxNumLabels
  | _ => True

/-- The calls of a pass, after those that assigned `done` and left `depth` values on the stack. -/
def CallsOk (sc : Scope) (all : List Nat) : List Nat → Bool → Int → List Call → Prop
  | _, _, depth, [] => depth = 0
  | done, dead, depth, c :: calls =>
    CallOk sc all done dead c ∧ 0 ≤ depth + stackAdjOf c ∧
      CallsOk sc all (done ++ labelOf c) (suppressOf dead c) (depth + stackAdjOf c) calls

instance (sc : Scope) (all done : List Nat) (dead : Bool) : ∀ c, Decidable (CallOk sc all done dead c)
  | .jump _ op label => inferInstanceAs (Decidable (dead = false → label ∈ all ∧ (isSigned op = false → label ∉ done)))
  | .labelAssign label => inferInstanceAs (Decidable (label ∉ done ∧ label < sc.maxNumLabels))
  | .write _ _ => .isTrue trivial
  | .suppress => .isTrue trivial
  | .adjustStackSize _ => .isTrue trivial
  | .setSourceLine _ => .isTrue trivial

def decideCallsOk (sc : Scope) (all : List Nat) : ∀ done dead depth calls, Decidable (CallsOk sc all done dead depth calls)
  | _, _, depth, [] => inferInstanceAs (Decidable (depth = 0))
  | done, dead, depth, c :: calls =>
    have := decideCallsOk sc all (done ++ labelOf c) (suppressOf dead c) (depth + stackAdjOf c) calls
    inferInstanceAs (Decidable (CallOk sc all done dead c ∧ 0 ≤ depth + stackAdjOf c ∧
      CallsOk sc all (done ++ labelOf c) (suppressOf dead c) (depth + stackAdjOf c) calls))

instance (sc : Scope) (all done : List Nat) (dead : Bool) (depth : Int) (calls : List Call) :
    Decidable (CallsOk sc all done dead depth calls) :=
  decideCallsOk sc all done dead depth calls

/-! ## Two passes -/

/-- The state of a pass and of the next one, after the same calls; `final` are the labels at the end of the first, `done`
those assigned so far. -/
structure Shrunk (final : Nat → Nat) (done : List Nat) (e e' : Emit) : Prop where
  suppress : e'.suppress = e.suppress
  stackSize : e'.stackSize = e.stackSize
  line : e'.lastSourceLine = e.lastSourceLine
  lineOffset : e.lastSourceLineOffset ≤ e.code.length
  sinceLine : e'.code.length - e'.lastSourceLineOffset ≤ e.code.length - e.lastSourceLineOffset
  code : e'.code.length ≤ e.code.length
  nInfo : e.nInfo ≤ e.info.length
  nInfo' : e'.nInfo ≤ e'.info.length
  info : e'.info.length - e'.nInfo ≤ e.info.length - e.nInfo
  settled : ∀ l ∈ done, e.labelOffsets l = final l ∧ e'.labelOffsets l ≤ e'.code.length
  /-- A label has moved no more than the code has shrunk by now. -/
  moved : ∀ l ∈ done, e'.labelOffsets l ≤ final l ∧ final l - e'.labelOffsets l ≤ e.code.length - e'.code.length
  pending : ∀ l, l ∉ done → e'.labelOffsets l = final l
  lands : e'.pass = .emit → e'.overflow = false → ∀ j ∈ e'.jumps,
    Lands e'.code j (final j.label) ∨ (j.label ∈ done ∧ Lands e'.code j (e'.labelOffsets j.label))

section

variable {sc : Scope} {e e' : Emit} {c : Call} {final : Nat → Nat} {done all : List Nat}

/-- A jump forward that a byte is enough for in one pass is not out of its reach in the next. -/
def StaysShort (done : List Nat) (e e' : Emit) : Call → Prop
  | .jump _ op label => e.suppress = false → label ∉ done → wide e' op label = true → wide e op label = true
  | _ => True

instance (done : List Nat) (e e' : Emit) : ∀ c, Decidable (StaysShort done e e' c)
  | .jump _ op label =>
    inferInstanceAs (Decidable (e.suppress = false → label ∉ done → wide e' op label = true → wide e op label = true))
  | .labelAssign _ => .isTrue trivial
  | .write _ _ => .isTrue trivial
  | .suppress => .isTrue trivial
  | .adjustStackSize _ => .isTrue trivial
  | .setSourceLine _ => .isTrue trivial

theorem wide_signed {op label : Nat} (hsigned : isSigned op = true) (hpass : e.pass ≠ .stackSize) :
    wide e op label = true ↔ distance e label < -64 ∨ 63 < distance e label := by
  simp [wide, short, hsigned, hpass]

theorem wide_unsigned {op label : Nat} (hsigned : isSigned op = false) (hpass : e.pass ≠ .stackSize) :
    wide e op label = true ↔ distance e label < 0 ∨ 127 < distance e label := by
  simp [wide, short, hsigned, hpass]

theorem wide_back (hs : Shrunk final done e e') (op : Nat) {label : Nat} (hdone : label ∈ done) (hpass' : e'.pass ≠ .stackSize)
    (hsigned : isSigned op = true) (hwide : wide e' op label = true) : wide e op label = true := by
  by_cases hpass : e.pass = .stackSize
  · simp [wide, hpass]
  · obtain ⟨hfinal, hle⟩ := hs.settled label hdone
    obtain ⟨hmoved, hgap⟩ := hs.moved label hdone
    have hcode := hs.code
    rw [wide_signed hsigned hpass'] at hwide
    rw [wide_signed hsigned hpass]
    unfold distance at hwide ⊢
    omega

theorem codeOf_le (hs : Shrunk final done e e') (hpass' : e'.pass ≠ .stackSize) (hok : CallOk sc all done e.suppress c)
    (hshort : StaysShort done e e' c) : (codeOf e' c).length ≤ (codeOf e c).length := by
  cases c with
  | write stackAdj bytes => simp only [codeOf, hs.suppress, Nat.le_refl]
  | jump stackAdj op label =>
    simp only [codeOf, hs.suppress]
    by_cases h : e.suppress = true
    · simp [h]
    · have hlive : e.suppress = false := Bool.eq_false_iff.mpr h
      simp only [hlive, Bool.false_eq_true, if_false, length_jumpBytes]
      by_cases hwide' : wide e' op label = true
      · have hwide : wide e op label = true := by
          by_cases hdone : label ∈ done
          · have hsigned : isSigned op = true := by
              by_contra hno
              exact (hok hlive).2 (Bool.eq_false_iff.mpr hno) hdone
            exact wide_back hs op hdone hpass' hsigned hwide'
          · exact hshort hlive hdone hwide'
        rw [if_pos hwide, if_pos hwide']
      · rw [if_neg hwide']
        split <;> omega
  | suppress => exact Nat.le_refl 0
  | adjustStackSize delta => exact Nat.le_refl 0
  | labelAssign label => exact Nat.le_refl 0
  | setSourceLine line => exact Nat.le_refl 0

theorem infoOf_le (hs : Shrunk final done e e') (c : Call) : (infoOf e' c).length ≤ (infoOf e c).length := by
  cases c with
  | setSourceLine line =>
    simp only [infoOf, hs.line]
    split
    · exact length_bytesLines_le hs.sinceLine
    · exact Nat.le_refl _
  | write stackAdj bytes => exact Nat.le_refl 0
  | jump stackAdj op label => exact Nat.le_refl 0
  | suppress => exact Nat.le_refl 0
  | adjustStackSize delta => exact Nat.le_refl 0
  | labelAssign label => exact Nat.le_refl 0

theorem biased_short {op label : Nat} (hpass : e.pass ≠ .stackSize) (h : wide e op label = false) :
    0 ≤ biased e op label ∧ biased e op label ≤ 0x7f := by
  have hno : ¬ wide e op label = true := by simp [h]
  by_cases hsigned : isSigned op = true
  · rw [wide_signed hsigned hpass] at hno
    simp only [biased, offsetOf, hsigned, hpass, h, if_true, if_false, Bool.false_eq_true]
    omega
  · have hunsigned := Bool.eq_false_iff.mpr hsigned
    rw [wide_unsigned hunsigned hpass] at hno
    simp only [biased, offsetOf, hunsigned, hpass, h, if_false, Bool.false_eq_true]
    omega

/-- Nor does the one on an unsigned offset, where the label is past the jump. -/
theorem offsetOf_nonneg {op label : Nat} (hpass : e.pass ≠ .stackSize) (hunsigned : isSigned op = false)
    (h : e.code.length + 2 ≤ e.labelOffsets label) : 0 ≤ offsetOf e op label := by
  have hd : 0 ≤ distance e label := by
    unfold distance
    omega
  unfold offsetOf
  rw [if_neg hpass]
  by_cases hwide : wide e op label = true
  · rw [if_pos hwide]
    rw [wide_unsigned hunsigned hpass] at hwide
    omega
  · rw [if_neg hwide]
    exact hd

theorem assert_eq {b : Bool} (h : b = true) : e.assert b = e := by
  unfold Emit.assert
  rw [h, Bool.not_true, Bool.or_false]

theorem room_eq {pass : Pass} {n size : Nat} (h : pass = .emit → n ≤ size) :
    (decide (pass ≠ .emit) || decide (n ≤ size)) = true := by
  by_cases hpass : pass = .emit
  · simp [h hpass]
  · simp [hpass]

theorem writeJump_failed {op label : Nat} (hpass : e.pass ≠ .stackSize)
    (hforward : e.suppress = false → isSigned op = false → e.code.length + 2 ≤ e.labelOffsets label)
    (hroom : e.suppress = false → e.pass = .emit →
      e.code.length + (jumpBytes op (wide e op label) (biased e op label)).length ≤ e.bytecodeSize) :
    (writeJump op label e).failed = e.failed := by
  unfold writeJump
  by_cases h : e.suppress = true
  · rw [if_pos h]
  · have hlive : e.suppress = false := Bool.eq_false_iff.mpr h
    have hoffset : (decide (e.pass = .stackSize) || isSigned op || decide (0 ≤ offsetOf e op label)) = true := by
      by_cases hsigned : isSigned op = true
      · simp [hsigned]
      · have hunsigned := Bool.eq_false_iff.mpr hsigned
        simp [offsetOf_nonneg hpass hunsigned (hforward hlive hunsigned)]
    have hbyte : (wide e op label || (decide (0 ≤ biased e op label) && decide (biased e op label ≤ 0x7f))) = true := by
      by_cases hwide : wide e op label = true
      · simp [hwide]
      · have hbiased := biased_short hpass (Bool.eq_false_iff.mpr hwide)
        simp [hbiased]
    dsimp only
    rw [if_neg h, assert_eq hoffset, assert_eq hbyte]
    unfold Emit.writeCode
    rw [if_neg h, assert_eq (room_eq (hroom hlive))]

theorem adjustStackSize_eq {delta : Int} (h : 0 ≤ e.stackSize + delta) :
    e.adjustStackSize delta = { e with stackSize := e.stackSize + delta } := by
  unfold Emit.adjustStackSize
  rw [assert_eq (decide_eq_true h)]

/-- The second pass writes what it has room for, and finds its labels and its stack as they should be. -/
theorem step_failed (hs : Shrunk final done e e') (hpass' : e'.pass ≠ .stackSize) (hok : CallOk sc all done e.suppress c)
    (hstack : 0 ≤ e.stackSize + stackAdjOf c)
    (hforward : ∀ stackAdj op label, c = .jump stackAdj op label → e.suppress = false → label ∉ done →
      e.code.length + 2 ≤ final label)
    (hlabel : ∀ label, c = .labelAssign label → final label = e.code.length)
    (hcode : e'.pass = .emit → e'.code.length + (codeOf e' c).length ≤ e'.bytecodeSize)
    (hinfo : e'.pass = .emit → e'.info.length + (infoOf e' c).length ≤ e'.codeInfoSize) :
    (step sc e' c).failed = e'.failed := by
  rw [← hs.stackSize] at hstack
  rw [← hs.suppress] at hok hforward
  cases c with
  | write stackAdj bytes =>
    dsimp only [step, stackAdjOf] at hstack ⊢
    rw [adjustStackSize_eq hstack]
    unfold Emit.writeCode
    by_cases h : e'.suppress = true
    · rw [if_pos h]
    · simp only [codeOf, h, if_false, Bool.false_eq_true] at hcode
      rw [if_neg h, assert_eq (room_eq hcode)]
  | jump stackAdj op label =>
    dsimp only [step, emitByteLabel, stackAdjOf] at hstack ⊢
    rw [adjustStackSize_eq hstack]
    refine writeJump_failed hpass' ?_ ?_
    · intro hlive hunsigned
      have hnew := (hok hlive).2 hunsigned
      have hfar := hforward stackAdj op label rfl hlive hnew
      have hle := hs.code
      dsimp only
      rw [hs.pending label hnew]
      omega
    · intro hlive hpass
      change e'.suppress = false at hlive
      simp only [codeOf, hlive, if_false, Bool.false_eq_true] at hcode
      exact hcode hpass
  | suppress => rfl
  | adjustStackSize delta =>
    dsimp only [step, stackAdjOf] at hstack ⊢
    rw [adjustStackSize_eq hstack]
  | labelAssign label =>
    obtain ⟨hnew, hmax⟩ := hok
    have hle : e'.code.length ≤ e'.labelOffsets label := by
      rw [hs.pending label hnew, hlabel label rfl]
      exact hs.code
    simp [step, emitLabel, Emit.assert, hmax, hle]
  | setSourceLine line =>
    dsimp only [step, emitSourceLine]
    by_cases h : line > e'.lastSourceLine
    · simp only [infoOf, if_pos h] at hinfo
      have hsome : (decide (e'.code.length - e'.lastSourceLineOffset > 0) || decide (line - e'.lastSourceLine > 0)) = true := by
        simp [Nat.sub_pos_of_lt h]
      rw [if_pos h, assert_eq hsome]
      unfold Emit.writeInfo
      rw [assert_eq (room_eq hinfo)]
    · rw [if_neg h]

/-- A jump of the second pass goes to where its label is at the time. -/
theorem lands_jumpsOf (hpass' : e'.pass = .emit) (hoverflow : overflowOf e' c = false) :
    ∀ j ∈ jumpsOf e' c, Lands (e'.code ++ codeOf e' c) j (e'.labelOffsets j.label) := by
  cases c with
  | jump stackAdj op label =>
    intro j hj
    by_cases h : e'.suppress = true
    · simp [jumpsOf, h] at hj
    · simp only [jumpsOf, codeOf, h, if_false, Bool.false_eq_true, List.mem_singleton] at hj ⊢
      have hstays : e'.pass ≠ .stackSize := by simp [hpass']
      have hstorable : Storable (wide e' op label) (biased e' op label) := by
        by_cases hwide : wide e' op label = true
        · simp [overflowOf, h, hwide, hpass'] at hoverflow
          simp only [Storable, hwide, if_true]
          omega
        · have hbyte := biased_short hstays (Bool.eq_false_iff.mpr hwide)
          simpa [Storable, hwide] using hbyte
      rw [hj]
      exact lands_jump e' op label hstays hstorable
  | write stackAdj bytes => simp [jumpsOf]
  | suppress => simp [jumpsOf]
  | adjustStackSize delta => simp [jumpsOf]
  | labelAssign label => simp [jumpsOf]
  | setSourceLine line => simp [jumpsOf]

theorem labelsOf_of_not_mem {l : Nat} (h : l ∉ labelOf c) : labelsOf e c l = e.labelOffsets l := by
  cases c with
  | labelAssign label =>
    exact Function.update_of_ne (fun heq => h (by simp [labelOf, heq])) _ _
  | write stackAdj bytes => rfl
  | jump stackAdj op label => rfl
  | suppress => rfl
  | adjustStackSize delta => rfl
  | setSourceLine line => rfl

theorem eq_of_mem_labelOf {l : Nat} (h : l ∈ labelOf c) : c = .labelAssign l := by
  cases c with
  | labelAssign label =>
    simp only [labelOf, List.mem_singleton] at h
    rw [h]
  | write stackAdj bytes => cases h
  | jump stackAdj op label => cases h
  | suppress => cases h
  | adjustStackSize delta => cases h
  | setSourceLine line => cases h

theorem labelsOf_of_mem {l : Nat} (h : l ∈ labelOf c) : labelsOf e c l = e.code.length := by
  rw [eq_of_mem_labelOf h]
  exact Function.update_self _ _ _

theorem lineOf_congr (h : e'.lastSourceLine = e.lastSourceLine) : lineOf e' c = lineOf e c := by
  cases c with
  | setSourceLine line => simp only [lineOf, h]
  | write stackAdj bytes => exact h
  | jump stackAdj op label => exact h
  | suppress => exact h
  | adjustStackSize delta => exact h
  | labelAssign label => exact h

theorem lineOffsetOf_same (h : lineOf e c = e.lastSourceLine) : lineOffsetOf e c = e.lastSourceLineOffset := by
  cases c with
  | setSourceLine line =>
    dsimp only [lineOf, lineOffsetOf] at h ⊢
    split at h
    · omega
    · rename_i hno
      rw [if_neg hno]
  | write stackAdj bytes => rfl
  | jump stackAdj op label => rfl
  | suppress => rfl
  | adjustStackSize delta => rfl
  | labelAssign label => rfl

theorem lineOffsetOf_new (h : lineOf e c ≠ e.lastSourceLine) : lineOffsetOf e c = e.code.length := by
  cases c with
  | setSourceLine line =>
    dsimp only [lineOf, lineOffsetOf] at h ⊢
    split at h
    · rename_i hline
      exact if_pos hline
    · exact absurd rfl h
  | write stackAdj bytes => exact absurd rfl h
  | jump stackAdj op label => exact absurd rfl h
  | suppress => exact absurd rfl h
  | adjustStackSize delta => exact absurd rfl h
  | labelAssign label => exact absurd rfl h

theorem lineOffsetOf_le (h : e.lastSourceLineOffset ≤ e.code.length) (c : Call) : lineOffsetOf e c ≤ e.code.length := by
  by_cases hline : lineOf e c = e.lastSourceLine
  · rw [lineOffsetOf_same hline]
    exact h
  · exact Nat.le_of_eq (lineOffsetOf_new hline)

theorem Shrunk.step (hs : Shrunk final done e e') (hpass' : e'.pass ≠ .stackSize) (hok : CallOk sc all done e.suppress c)
    (hlabel : ∀ label, c = .labelAssign label → final label = e.code.length) (hshort : StaysShort done e e' c) :
    Shrunk final (done ++ labelOf c) (step sc e c) (step sc e' c) := by
  have hcode := codeOf_le hs hpass' hok hshort
  have hinfo := infoOf_le hs c
  have hgap := hs.code
  -- a label is assigned once
  have hnot : ∀ l ∈ done, l ∉ labelOf c := by
    intro l hl hmem
    rw [eq_of_mem_labelOf hmem] at hok
    exact hok.1 hl
  have hsplit : ∀ l ∈ done ++ labelOf c, (l ∈ done ∧ l ∉ labelOf c) ∨ l ∈ labelOf c := by
    intro l hl
    rcases List.mem_append.mp hl with hold | hnew
    · exact .inl ⟨hold, hnot l hold⟩
    · exact .inr hnew
  rw [step_eq sc e c, step_eq sc e' c]
  constructor
  case suppress => exact congrArg (suppressOf · c) hs.suppress
  case stackSize => exact congrArg (· + stackAdjOf c) hs.stackSize
  case line =>
    dsimp only
    rw [lineOf_congr hs.line]
  case lineOffset =>
    dsimp only
    rw [List.length_append]
    have := lineOffsetOf_le hs.lineOffset c
    omega
  case sinceLine =>
    have := hs.sinceLine
    have := hs.lineOffset
    dsimp only
    rw [List.length_append, List.length_append]
    by_cases hline : lineOf e c = e.lastSourceLine
    · rw [lineOffsetOf_same hline, lineOffsetOf_same (by rw [lineOf_congr hs.line, hline, hs.line])]
      omega
    · have hline' : lineOf e' c ≠ e'.lastSourceLine := by
        rw [lineOf_congr hs.line, hs.line]
        exact hline
      rw [lineOffsetOf_new hline, lineOffsetOf_new hline']
      omega
  case code =>
    dsimp only
    rw [List.length_append, List.length_append]
    omega
  case nInfo =>
    have := hs.nInfo
    dsimp only
    rw [List.length_append]
    omega
  case nInfo' =>
    have := hs.nInfo'
    dsimp only
    rw [List.length_append]
    omega
  case info =>
    have := hs.info
    have := hs.nInfo
    have := hs.nInfo'
    dsimp only
    rw [List.length_append, List.length_append]
    omega
  case settled =>
    intro l hl
    dsimp only
    rw [List.length_append]
    rcases hsplit l hl with ⟨hold, hnot⟩ | hnew
    · have := hs.settled l hold
      rw [labelsOf_of_not_mem hnot, labelsOf_of_not_mem hnot]
      omega
    · rw [labelsOf_of_mem hnew, labelsOf_of_mem hnew, hlabel l (eq_of_mem_labelOf hnew)]
      omega
  case moved =>
    intro l hl
    dsimp only
    rw [List.length_append, List.length_append]
    rcases hsplit l hl with ⟨hold, hnot⟩ | hnew
    · have := hs.moved l hold
      rw [labelsOf_of_not_mem hnot]
      omega
    · rw [labelsOf_of_mem hnew, hlabel l (eq_of_mem_labelOf hnew)]
      omega
  case pending =>
    intro l hl
    rw [List.mem_append, not_or] at hl
    dsimp only
    rw [labelsOf_of_not_mem hl.2]
    exact hs.pending l hl.1
  case lands =>
    intro hemit hoverflow j hj
    dsimp only at hemit hoverflow hj ⊢
    rw [Bool.or_eq_false_iff] at hoverflow
    rw [List.mem_append] at hj
    rcases hj with hold | hnew
    · rcases hs.lands hemit hoverflow.1 j hold with hland | ⟨hdone, hland⟩
      · exact .inl (hland.append _)
      · refine .inr ⟨List.mem_append_left _ hdone, ?_⟩
        rw [labelsOf_of_not_mem (hnot _ hdone)]
        exact hland.append _
    · have hland := lands_jumpsOf hemit hoverflow.2 j hnew
      by_cases hdone : j.label ∈ done
      · refine .inr ⟨List.mem_append_left _ hdone, ?_⟩
        rw [labelsOf_of_not_mem (hnot _ hdone)]
        exact hland
      · rw [hs.pending _ hdone] at hland
        exact .inl hland

end

end PythonUltra.Py.EmitBc
