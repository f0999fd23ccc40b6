/-
  PythonUltra.Py.ObjintExact — what the operators of int objects give.

  Whichever kinds the operands have, the value is the one Python gives, but for
  `0 ** 0` with an `mpz_t` among the operands (`mpz_pow_inpl` looks at the base first) and
  for `divmod` of the least small int by -1 (`MP_OBJ_NEW_SMALL_INT` of a value that does
  not fit). A result of the arithmetic operators in the small range is a small int
  (`shrinkResult`); `divmod` and the unary operators leave an `mpz_t` as it is.
-/

import PythonUltra.Py.Objint

namespace PythonUltra.Py.Objint

open PythonUltra.Lib PythonUltra.Py.Mpz PythonUltra.Py.Smallint

variable {ι : Type} [DecidableEq ι] {c : Config} {h h' h₁ : Heap c ι} {lhs rhs : Obj ι} {zlhs zrhs : Ref ι} {x y : Int}

/-! ## What Python says -/

inductive Value where
  | int (v : Int)
  | bool (b : Bool)
  | pair (quo rem : Int)

def exactArith (op : ArithOp) (x y : Int) : Int :=
  match op with
  | .or => Int.lor x y
  | .xor => Int.xor x y
  | .and => Int.land x y
  | .lshift => x * 2 ^ y.toNat
  | .rshift => x / 2 ^ y.toNat
  | .add => x + y
  | .subtract => x - y
  | .multiply => x * y
  | .floorDivide => x.fdiv y
  | .modulo => x.fmod y
  | .power => x ^ y.toNat

def exactBinary (op : BinaryOp) (x y : Int) : Value :=
  match op with
  | .arith op _ => .int (exactArith op x y)
  | .divmod => .pair (x.fdiv y) (x.fmod y)
  | .cmp .less => .bool (decide (x < y))
  | .cmp .more => .bool (decide (x > y))
  | .cmp .lessEqual => .bool (decide (x ≤ y))
  | .cmp .moreEqual => .bool (decide (x ≥ y))
  | .equal => .bool (decide (x = y))
  | .notEqual => .bool (decide (x ≠ y))

/-- A hash is the runtime's own: the value less its high bits, so that equal ints have one. -/
def exactUnary (c : Config) (op : UnaryOp) (x : Int) : Value :=
  match op with
  | .bool => .bool (decide (x ≠ 0))
  | .hash => .int (x.bmod (2 ^ (c.wordBits - 1)))
  | .positive => .int x
  | .intMaybe => .int x
  | .negative => .int (-x)
  | .abs => .int |x|
  | .invert => .int (-x - 1)
  | .not => .bool (decide (x = 0))

/-- Shift counts fit a machine word, exponents are not negative, divisors not zero. -/
def InDomain (c : Config) (op : BinaryOp) (y : Int) : Prop :=
  match op with
  | .arith .lshift _ => 0 ≤ y ∧ y < 2 ^ (c.wordBits - 1)
  | .arith .rshift _ => 0 ≤ y ∧ y < 2 ^ (c.wordBits - 1)
  | .arith .power _ => 0 ≤ y
  | .arith .floorDivide _ => y ≠ 0
  | .arith .modulo _ => y ≠ 0
  | .divmod => y ≠ 0
  | _ => True

/-- An int object of value `v`. -/
def Denotes (h : Heap c ι) (o : Obj ι) (v : Int) : Prop :=
  match o with
  | .small w => w = v ∧ InSmall c v
  | .int r => Holds (h r) v

/-- It is a small int if its value is in their range. -/
structure Canonical (h : Heap c ι) (o : Obj ι) (v : Int) : Prop where
  denotes : Denotes h o v
  small : InSmall c v → ∃ w, o = .small w

def Exact (h : Heap c ι) (r : Result ι) (v : Value) : Prop :=
  match r, v with
  | .obj o, .int v => Canonical h o v
  | .bool b, .bool b' => b = b'
  | .tuple quo rem, .pair q r => Canonical h quo q ∧ Canonical h rem r
  | _, _ => False

/-- An operand: an object of the program's. -/
def IsOperand (o : Obj ι) : Prop :=
  match o with
  | .small _ => True
  | .int r => ∃ i, r = .obj i

/-! ## When -/

def BothSmall (lhs rhs : Obj ι) : Prop := ∃ a b, lhs = .small a ∧ rhs = .small b

/-- The quotient is too large for a small int. -/
def QuotientLarge (c : Config) (x y : Int) : Prop :=
  if 0 < y then x < -half c * y ∨ half c * y ≤ x else x ≤ half c * y ∨ -half c * y < x

/-- No small int of the divisor's sign is congruent to the dividend. -/
def RemainderLarge (c : Config) (x y : Int) : Prop := ∀ s, InSmall c s → 0 ≤ s * y → ¬ y ∣ x - s

/-- The operands for which a binary operator gives what it should. -/
def BinaryRight (c : Config) (op : BinaryOp) (lhs rhs : Obj ι) (x y : Int) : Prop :=
  match op with
  | .divmod => BothSmall lhs rhs ∧ ¬ (x = smallMin c ∧ y = -1) ∨ ¬ BothSmall lhs rhs ∧ QuotientLarge c x y ∧ RemainderLarge c x y
  | .arith .power _ => BothSmall lhs rhs ∨ ¬ (x = 0 ∧ y = 0)
  | _ => True

/-- The operands for which a unary operator does. -/
def UnaryRight (c : Config) (op : UnaryOp) (arg : Obj ι) (x : Int) : Prop :=
  match arg, op with
  | .small _, _ => True
  | .int _, .bool => True
  | .int _, .hash => True
  | .int _, .not => True
  | .int _, .positive => ¬ InSmall c x
  | .int _, .intMaybe => ¬ InSmall c x
  | .int _, .invert => ¬ InSmall c x
  | .int _, .negative => x ≤ smallMin c ∨ -smallMin c < x
  | .int _, .abs => x ≤ smallMin c ∨ -smallMin c ≤ x

/-! ## Operands and results -/

/-- The places an operand of the functions on `mpz_t` can have. -/
def Place (z : Ref ι) : Prop := z = .temp .zInt ∨ z = .temp .newLhs ∨ ∃ i, z = .obj i

/-- An argument of objint's functions: one of the program's, or the promoted left operand. -/
def Arg (h : Heap c ι) (o : Obj ι) (v : Int) : Prop :=
  match o with
  | .small w => w = v ∧ InSmall c v
  | .int r => (r = .temp .newLhs ∨ ∃ i, r = .obj i) ∧ Holds (h r) v

/-- The program's objects are as they were. -/
def Kept (h h' : Heap c ι) : Prop := ∀ i, h' (.obj i) = h (.obj i)

omit [DecidableEq ι] in
theorem Place.ne_res {z : Ref ι} (hz : Place z) (t : Temp) (ht : t ≠ .zInt) (ht' : t ≠ .newLhs) : z ≠ .temp t := by
  rintro rfl
  rcases hz with hz | hz | ⟨i, hz⟩
  · cases hz
    exact ht rfl
  · cases hz
    exact ht' rfl
  · cases hz

omit [DecidableEq ι] in
theorem Place.not_scratch {z : Ref ι} (hz : Place z) : ¬ Scratch z := by
  rintro (e | e)
  · exact hz.ne_res .k (by decide) (by decide) e
  · exact hz.ne_res .mulTemp (by decide) (by decide) e

omit [DecidableEq ι] in
theorem Arg.congr {o : Obj ι} {v : Int} (ho : Arg h o v) (hnew : h₁ (.temp .newLhs) = h (.temp .newLhs)) (hkept : Kept h h₁) :
    Arg h₁ o v := by
  cases o with
  | small w => exact ho
  | int r =>
    obtain ⟨hr, hv⟩ := ho
    refine ⟨hr, ?_⟩
    rcases hr with rfl | ⟨i, rfl⟩
    · rw [hnew]
      exact hv
    · rw [hkept i]
      exact hv

/-- The operands are where the functions on `mpz_t` find them. -/
structure Ready (h h₁ : Heap c ι) (rhs : Obj ι) (zlhs zrhs : Ref ι) (x y : Int) : Prop where
  left : Holds (h₁ zlhs) x
  right : Holds (h₁ zrhs) y
  leftAt : Place zlhs
  rightAt : Place zrhs
  arg : Arg h₁ rhs y
  kept : Kept h h₁

omit [DecidableEq ι] in
theorem Kept.refl : Kept h h := fun _ => rfl

omit [DecidableEq ι] in
theorem Kept.trans (h1 : Kept h h₁) (h2 : Kept h₁ h') : Kept h h' := fun i => (h2 i).trans (h1 i)

omit [DecidableEq ι] in
theorem kept_of_computed {t : Temp} {v : Int} (hc : Computed h h' (.temp t) v) : Kept h h' := fun i => hc.objects i fun e => nomatch e

theorem small_natAbs (hx : InSmall c x) : x.natAbs < 2 ^ (c.wordBits - 1) := by
  have hs := small_eq (c := c)
  rw [inSmall_iff] at hx
  have hpos := half_ge (c := c)
  omega

theorem pow_pred_le : 2 ^ (c.wordBits - 1) ≤ 2 ^ c.wordBits := Nat.pow_le_pow_right (by decide) (Nat.sub_le _ _)

/-- Small operands are copied to the stack, the others stay where they are. -/
theorem operand_small (hx : InSmall c x) :
    Prog.wp (operand (.small x)) (fun z h₁ => z = .temp .zInt ∧ Holds (h₁ (.temp .zInt)) x ∧ Kept h h₁ ∧ h₁ (.temp .newLhs) = h (.temp .newLhs))
      (fun e _ => e = .memory) h := by
  have hval : x.natAbs < 2 ^ c.wordBits := Nat.lt_of_lt_of_le (small_natAbs hx) pow_pred_le
  refine Prog.wp_then (mpzInitFixedFromInt_gives hval) (fun _ h₁ hs => ?_) fun _ _ he => he.1
  have hother : ∀ r, r ≠ .temp .zInt → ¬ Scratch r → h₁ r = h r := by
    intro r hne hr
    rw [hs.others r hne hr]
    exact Function.update_of_ne hne _ _
  refine ⟨rfl, hs.holds, fun i => hother _ (fun e => nomatch e) (not_scratch_obj i), hother _ (fun e => nomatch e) ?_⟩
  rintro (e | e) <;> cases e

omit [DecidableEq ι] in
theorem Arg.place {r : Ref ι} (ho : Arg h (.int r) x) : Place r := .inr ho.1

theorem wp_operands {β : Type} {k : Ref ι → Ref ι → M c ι β} {Q : β → Heap c ι → Prop} (hl : Arg h lhs x) (hr : Arg h rhs y)
    (hmix : ¬ BothSmall lhs rhs)
    (hk : ∀ zlhs zrhs h₁, Ready h h₁ rhs zlhs zrhs x y → Prog.wp (k zlhs zrhs) Q (fun e _ => e = .memory) h₁) :
    Prog.wp (do
      let zlhs ← operand lhs
      let zrhs ← operand rhs
      k zlhs zrhs) Q (fun e _ => e = .memory) h := by
  cases lhs with
  | small a =>
    obtain ⟨rfl, hx⟩ := hl
    cases rhs with
    | small b => exact absurd ⟨a, b, rfl, rfl⟩ hmix
    | int r =>
      refine Prog.wp_then (operand_small hx) (fun _ h₁ hq => ?_) fun _ _ he => he
      obtain ⟨rfl, hz, hkept, hnew⟩ := hq
      have harg := hr.congr hnew hkept
      exact hk _ r h₁ ⟨hz, harg.2, .inl rfl, harg.place, harg, hkept⟩
  | int l =>
    cases rhs with
    | small b =>
      obtain ⟨rfl, hy⟩ := hr
      show Prog.wp (operand (.small b) >>= fun zrhs => k l zrhs) Q _ h
      refine Prog.wp_then (operand_small hy) (fun _ h₁ hq => ?_) fun _ _ he => he
      obtain ⟨rfl, hz, hkept, hnew⟩ := hq
      have harg := hl.congr hnew hkept
      exact hk l _ h₁ ⟨harg.2, hz, harg.place, .inl rfl, ⟨rfl, hy⟩, hkept⟩
    | int r => exact hk l r h ⟨hl.2, hr.2, hl.place, hr.place, hr, .refl⟩

theorem Ready.newMpz (hready : Ready h h₁ rhs zlhs zrhs x y) {t : Temp} (ht : t ≠ .zInt) (ht' : t ≠ .newLhs) :
    Ready h (Function.update h₁ (.temp t) initZero) rhs zlhs zrhs x y := by
  have hother : ∀ r, r ≠ .temp t → Function.update h₁ (.temp t) (initZero : MpzT c) r = h₁ r := fun r hr => Function.update_of_ne hr _ _
  have hkept : Kept h₁ (Function.update h₁ (.temp t) initZero) := fun i => hother _ fun e => nomatch e
  refine ⟨?_, ?_, hready.leftAt, hready.rightAt, hready.arg.congr (hother _ ?_) hkept, hready.kept.trans hkept⟩
  · rw [hother zlhs (hready.leftAt.ne_res t ht ht')]
    exact hready.left
  · rw [hother zrhs (hready.rightAt.ne_res t ht ht')]
    exact hready.right
  · intro e
    cases e
    exact ht' rfl

/-- What mpz_pow_inpl makes of `0 ** 0`. -/
def codeArith (op : ArithOp) (x y : Int) : Int := if op = .power ∧ x = 0 ∧ y = 0 then 0 else exactArith op x y

omit [DecidableEq ι] in
theorem not_scratch_res : ¬ Scratch (.temp .res : Ref ι) := by
  rintro (e | e) <;> cases e

omit [DecidableEq ι] in
theorem powDest_res : PowDest (.temp .res : Ref ι) where
  scratch := not_scratch_res
  ne_x e := nomatch e
  ne_n e := nomatch e

omit [DecidableEq ι] in
theorem intGetChecked_spec (hr : Arg h rhs y) (hy : y.natAbs < 2 ^ (c.wordBits - 1)) : intGetChecked rhs h = (.ok (some y), h) := by
  cases rhs with
  | small b =>
    obtain ⟨rfl, -⟩ := hr
    rfl
  | int r =>
    show mpzAsIntChecked r h = _
    rw [mpzAsIntChecked_spec hr.2, if_pos hy]

omit [DecidableEq ι] in
theorem mpzIsZero_spec {z : Ref ι} (hz : Holds (h z) y) : mpzIsZero z h = (.ok (decide (y = 0)), h) := by
  have hzero : (h z).len = 0 ↔ y = 0 := by
    rw [← hz.normal.digits.num_eq_zero c.base_pos]
    show (h z).mag = 0 ↔ _
    rw [hz.mag, Int.natAbs_eq_zero]
  rw [mpzIsZero, look_bind, decide_eq_decide.mpr hzero]
  rfl

omit [DecidableEq ι] in
theorem wp_none {xM : M c ι Unit} {v : Int} (hx : Prog.wp xM (fun _ h' => Computed h₁ h' (.temp .res) v) (fun e _ => e = .memory) h₁) :
    Prog.wp (do xM; pure none : M c ι (Option (Result ι))) (fun o h' => o = none ∧ Computed h₁ h' (.temp .res) v) (fun e _ => e = .memory) h₁ :=
  Prog.wp_then hx (fun _ _ hc => ⟨rfl, hc⟩) fun _ _ he => he

/-- The places of what an operator makes. -/
def Made (t : Temp) : Prop := t = .res ∨ t = .quo ∨ t = .rem

theorem Made.ne {t : Temp} (t' : Temp) (ht : Made t) (h1 : t' ≠ .res) (h2 : t' ≠ .quo) (h3 : t' ≠ .rem) : t ≠ t' := by
  rintro rfl
  rcases ht with rfl | rfl | rfl <;> contradiction

omit [DecidableEq ι] in
theorem Place.ne_made {z : Ref ι} (hz : Place z) {t : Temp} (ht : Made t) : z ≠ .temp t :=
  hz.ne_res t (ht.ne _ (by decide) (by decide) (by decide)) (ht.ne _ (by decide) (by decide) (by decide))

omit [DecidableEq ι] in
theorem Place.apart {z : Ref ι} (hz : Place z) : Apart z := ⟨hz.not_scratch, hz.ne_res .mpzone (by decide) (by decide)⟩

omit [DecidableEq ι] in
theorem Made.apart {t : Temp} (ht : Made t) : Apart (.temp t : Ref ι) := by
  refine ⟨?_, ?_⟩
  · rintro (e | e)
    · exact ht.ne .k (by decide) (by decide) (by decide) (by cases e; rfl)
    · exact ht.ne .mulTemp (by decide) (by decide) (by decide) (by cases e; rfl)
  · intro e
    exact ht.ne .mpzone (by decide) (by decide) (by decide) (by cases e; rfl)

/-- Division into two new objects. -/
theorem divmod_new {q r : Temp} (hready : Ready h h₁ rhs zlhs zrhs x y) (hy : y ≠ 0) (hq : Made q) (hr : Made r) (hqr : q ≠ r)
    (hq₁ : h₁ (.temp q) = initZero) (hr₁ : h₁ (.temp r) = initZero) :
    Prog.wp (mpzDivmodInpl (.temp q) (.temp r) zlhs zrhs)
      (fun _ h' => Computed h₁ h' (.temp q) (x.fdiv y) ∧ Computed h₁ h' (.temp r) (x.fmod y)) (fun e _ => e = .memory) h₁ := by
  have hzero : ∀ {t : Temp} (n : Nat), h₁ (.temp t) = initZero → (h₁ (.temp t)).alloc ≤ n := by
    intro t n ht
    rw [ht]
    exact Nat.zero_le n
  refine Prog.wp_mono (mpzDivmodInpl_gives hready.left hready.right hy
    (fun e => hqr (by cases e; rfl)) (hready.leftAt.ne_made hq) (hready.leftAt.ne_made hr) (hready.rightAt.ne_made hq)
    (hready.rightAt.ne_made hr) hready.rightAt.apart hq.apart hr.apart ⟨by rw [hq₁]; rfl, by rw [hr₁]; rfl⟩
    ⟨hzero _ hq₁, hzero _ hr₁⟩ (Nat.le_refl _)) (fun _ h' hs => ?_) fun _ _ he => he.1
  have hobj : ∀ i, h' (.obj i) = h₁ (.obj i) :=
    fun i => hs.others _ (fun e => nomatch e) (fun e => nomatch e) (not_scratch_obj i) fun e => nomatch e
  exact ⟨⟨hs.quotient, fun i _ => hobj i⟩, ⟨hs.remainder, fun i _ => hobj i⟩⟩

theorem after_new {t t' : Temp} {v : Int} (hc : Computed (Function.update h₁ (.temp t') initZero) h' (.temp t) v) :
    Computed h₁ h' (.temp t) v := by
  refine ⟨hc.holds, fun i hne => (hc.objects i hne).trans (Function.update_of_ne ?_ _ _)⟩
  intro e
  cases e

theorem update_temp {t t' : Temp} (ht : t ≠ t') {z : MpzT c} : Function.update h₁ (.temp t') z (.temp t) = h₁ (.temp t) := by
  refine Function.update_of_ne ?_ _ _
  intro e
  cases e
  exact ht rfl

theorem intArith_spec {op : ArithOp} {inplace : Bool} (hready : Ready h h₁ rhs zlhs zrhs x y) (hres : h₁ (.temp .res) = initZero)
    (hdom : InDomain c (.arith op inplace) y) :
    Prog.wp (intArith op zlhs zrhs rhs) (fun o h' => o = none ∧ Computed h₁ h' (.temp .res) (codeArith op x y)) (fun e _ => e = .memory) h₁ := by
  have hfixed : (h₁ (.temp .res)).fixedDig = false := by rw [hres]; rfl
  have hx := hready.left
  have hy := hready.right
  have hsl := hready.leftAt.not_scratch
  have hsr := hready.rightAt.not_scratch
  have hle : ∀ n, (h₁ (.temp .res)).alloc ≤ n := by
    intro n
    rw [hres]
    exact Nat.zero_le n
  cases op with
  | or =>
    have hbits := mpzOrInpl_gives (.temp .res) hx.normal hy.normal hfixed (hle _) (Nat.le_refl _)
    rw [hx.value, hy.value] at hbits
    exact wp_none hbits.computed
  | xor =>
    have hbits := mpzXorInpl_gives (.temp .res) hx.normal hy.normal hfixed (hle _) (Nat.le_refl _)
    rw [hx.value, hy.value] at hbits
    exact wp_none hbits.computed
  | and =>
    have hbits := mpzAndInpl_gives (.temp .res) hx.normal hy.normal hfixed (hle _) (Nat.le_refl _)
    rw [hx.value, hy.value] at hbits
    exact wp_none hbits.computed
  | add => exact wp_none (mpzAddInpl_gives hx hy hfixed (hle _) (Nat.le_refl _)).computed
  | subtract => exact wp_none (mpzSubInpl_gives hx hy hfixed (hle _) (Nat.le_refl _)).computed
  | multiply => exact wp_none (mpzMulInpl_gives hx hy hfixed hsl hsr not_scratch_res (hle _) (Nat.le_refl _)).computed
  | lshift =>
    obtain ⟨h0, hlt⟩ := hdom
    have hword : y.natAbs < 2 ^ (c.wordBits - 1) := by zify; rwa [abs_of_nonneg h0]
    unfold intArith
    rw [wp_ok_bind (intGetChecked_spec hready.arg hword)]
    show Prog.wp (if y < 0 then _ else _) _ _ h₁
    rw [if_neg (by omega)]
    refine wp_none (Gives.computed (mpzShlInpl_gives hx ?_ hfixed (hle _) (Nat.le_refl _)))
    omega
  | rshift =>
    obtain ⟨h0, hlt⟩ := hdom
    have hword : y.natAbs < 2 ^ (c.wordBits - 1) := by zify; rwa [abs_of_nonneg h0]
    unfold intArith
    rw [wp_ok_bind (intGetChecked_spec hready.arg hword)]
    show Prog.wp (if y < 0 then _ else _) _ _ h₁
    rw [if_neg (by omega)]
    exact wp_none (mpzShrInpl_gives hx (hready.leftAt.ne_res .res (by decide) (by decide)) hfixed not_scratch_res (hle _) (Nat.le_refl _)).computed
  | floorDivide =>
    unfold intArith
    rw [wp_ok_bind (mpzIsZero_spec hy), decide_eq_false hdom, if_neg Bool.false_ne_true, wp_change_bind]
    have hdiv := divmod_new (q := .res) (r := .rem) (hready.newMpz (t := .rem) (by decide) (by decide)) hdom (.inl rfl) (.inr (.inr rfl))
      (by decide) ((update_temp (by decide)).trans hres) (Function.update_self _ _ _)
    exact Prog.wp_then hdiv (fun _ _ hc => ⟨rfl, after_new hc.1⟩) fun _ _ he => he
  | modulo =>
    unfold intArith
    rw [wp_ok_bind (mpzIsZero_spec hy), decide_eq_false hdom, if_neg Bool.false_ne_true, wp_change_bind]
    have hdiv := divmod_new (q := .quo) (r := .res) (hready.newMpz (t := .quo) (by decide) (by decide)) hdom (.inr (.inl rfl)) (.inl rfl)
      (by decide) (Function.update_self _ _ _) ((update_temp (by decide)).trans hres)
    exact Prog.wp_then hdiv (fun _ _ hc => ⟨rfl, after_new hc.2⟩) fun _ _ he => he
  | power =>
    obtain ⟨n, rfl⟩ := Int.eq_ofNat_of_zero_le hdom
    have hpow := mpzPowInpl_spec (.temp .res) hx hy hfixed powDest_res (hready.rightAt.ne_res .powX (by decide) (by decide))
    unfold intArith
    rw [wp_look_bind, hy.neg_eq_false, if_neg Bool.false_ne_true]
    have hcode : (if x = 0 then 0 else x ^ n) = codeArith .power x n := by
      unfold codeArith exactArith
      by_cases hx0 : x = 0
      · by_cases hn0 : n = 0
        · simp [hx0, hn0]
        · simp [hx0, hn0]
      · simp [hx0]
    rw [hcode] at hpow
    exact wp_none hpow

/-! ## The functions on `mpz_t` -/

omit [DecidableEq ι] in
theorem canonical_small (hx : InSmall c x) : Canonical h (.small (newSmallInt c x)) x :=
  ⟨⟨newSmallInt_of hx, hx⟩, fun _ => ⟨_, rfl⟩⟩

omit [DecidableEq ι] in
theorem shrinkResult_spec {v : Int} (hv : Holds (h (.temp .res)) v) : ∃ o, shrinkResult h = (.ok o, h) ∧ Canonical h o v := by
  have hs := small_eq (c := c)
  have hrun := mpzAsIntChecked_spec hv
  rw [shrinkResult, Prog.bind_of_ok hrun]
  by_cases hlt : v.natAbs < 2 ^ (c.wordBits - 1)
  · rw [if_pos hlt]
    have hfits := smallIntFits_iff (c := c) (n := v) (by omega) (by omega)
    show ∃ o, (if smallIntFits c v then _ else _ : M c ι (Obj ι)) h = _ ∧ _
    by_cases hin : InSmall c v
    · rw [if_pos (hfits.mpr hin)]
      exact ⟨_, rfl, canonical_small hin⟩
    · rw [if_neg (mt hfits.mp hin)]
      exact ⟨_, rfl, hv, fun hin' => absurd hin' hin⟩
  · rw [if_neg hlt]
    exact ⟨_, rfl, hv, fun hin => absurd (small_natAbs hin) hlt⟩

/-- What a call leaves: its result, and the program's objects. -/
def Gave (h h' : Heap c ι) (r : Result ι) (v : Value) : Prop := Exact h' r v ∧ Kept h h'

theorem intArithOp_spec {op : ArithOp} {inplace : Bool} (hl : Arg h lhs x) (hr : Arg h rhs y) (hmix : ¬ BothSmall lhs rhs)
    (hdom : InDomain c (.arith op inplace) y) :
    Prog.wp (intArithOp op lhs rhs) (fun r h' => Gave h h' r (.int (codeArith op x y))) (fun e _ => e = .memory) h := by
  refine wp_operands hl hr hmix fun zl zr h₁ hready => ?_
  have hnew := hready.newMpz (t := .res) (by decide) (by decide)
  show Prog.wp (change _ _ >>= _) _ _ h₁
  rw [wp_change_bind]
  refine Prog.wp_then (intArith_spec hnew (Function.update_self _ _ _) hdom) (fun o h₂ hq => ?_) fun _ _ he => he
  obtain ⟨rfl, hc⟩ := hq
  obtain ⟨o, hrun, hcan⟩ := shrinkResult_spec hc.holds
  show Prog.wp (shrinkResult >>= _) _ _ h₂
  rw [wp_ok_bind hrun]
  exact ⟨hcan, hnew.kept.trans (kept_of_computed hc)⟩

theorem intDivmod_spec (hl : Arg h lhs x) (hr : Arg h rhs y) (hmix : ¬ BothSmall lhs rhs) (hy : y ≠ 0) :
    Prog.wp (intDivmod lhs rhs) (fun r h' => r = .tuple (.int (.temp .quo)) (.int (.temp .res)) ∧ Holds (h' (.temp .quo)) (x.fdiv y) ∧
      Holds (h' (.temp .res)) (x.fmod y) ∧ Kept h h') (fun e _ => e = .memory) h := by
  refine wp_operands hl hr hmix fun zl zr h₁ hready => ?_
  have hnew := hready.newMpz (t := .res) (by decide) (by decide)
  show Prog.wp (change _ _ >>= _) _ _ h₁
  rw [wp_change_bind, wp_ok_bind (mpzIsZero_spec hnew.right), decide_eq_false hy, if_neg Bool.false_ne_true]
  have hnew' := hnew.newMpz (t := .quo) (by decide) (by decide)
  show Prog.wp (change _ _ >>= _) _ _ _
  rw [wp_change_bind]
  have hdiv := divmod_new (q := .quo) (r := .res) hnew' hy (.inr (.inl rfl)) (.inl rfl) (by decide) (Function.update_self _ _ _)
    ((update_temp (by decide)).trans (Function.update_self _ _ _))
  exact Prog.wp_then hdiv (fun _ _ hc => ⟨rfl, hc.1.holds, hc.2.holds, hnew'.kept.trans (kept_of_computed hc.1)⟩) fun _ _ he => he

theorem intCmp_spec (hl : Arg h lhs x) (hr : Arg h rhs y) (hmix : ¬ BothSmall lhs rhs) :
    Prog.wp (intCmp lhs rhs) (fun s h' => (s < 0 ↔ x < y) ∧ (0 < s ↔ y < x) ∧ Kept h h') (fun e _ => e = .memory) h := by
  refine wp_operands hl hr hmix fun zl zr h₁ hready => ?_
  obtain ⟨s, hrun, hlt, hgt⟩ := mpzCmp_spec hready.left hready.right
  unfold Prog.wp
  rw [hrun]
  exact ⟨hlt, hgt, hready.kept⟩

theorem newIntFromLl_spec {t : Temp} (hx : x.natAbs < 2 ^ 64) :
    Prog.wp (newIntFromLl t x) (fun o h' => o = .int (.temp t) ∧ Holds (h' (.temp t)) x ∧ Kept h h') (fun e _ => e = .memory) h := by
  have hself : Function.update h (.temp t) (initZero : MpzT c) (.temp t) = initZero := Function.update_self _ _ _
  show Prog.wp (change _ _ >>= _) _ _ h
  rw [wp_change_bind]
  refine Prog.wp_then (Gives.computed (mpzSetFromLl_gives hx (by rw [hself]; rfl) (by rw [hself]; exact Nat.zero_le _) (Nat.le_refl _)))
    (fun _ h' hc => ?_) fun _ _ he => he
  exact ⟨rfl, hc.holds, kept_of_computed (after_new hc)⟩

/-! ## Small ints -/

variable {m : Machine} {g : Heap m.toConfig ι}

/-- In the range of `mp_int_t`. -/
def InWord (c : Config) (v : Int) : Prop := -(2 * half c) ≤ v ∧ v < 2 * half c

theorem word_natAbs (hx : InWord m.toConfig x) : x.natAbs < 2 ^ 64 := by
  have hs := small_eq (c := m.toConfig)
  have hle : 2 ^ (m.wordBits - 1) ≤ 2 ^ 63 := Nat.pow_le_pow_right (by decide) (by have := m.wordBits_le; omega)
  obtain ⟨h1, h2⟩ := hx
  rw [← hs] at h1 h2
  omega

theorem InWord.of_small {c : Config} (hx : InSmall c x) : InWord c x := by
  have hpos := half_ge (c := c)
  rw [inSmall_iff] at hx
  exact ⟨by omega, by omega⟩

theorem newIntResult_spec (hx : InWord m.toConfig x) :
    Prog.wp (newIntResult x) (fun r h' => Gave g h' r (.int x)) (fun e _ => e = .memory) g := by
  have hfits := smallIntFits_iff hx.1 hx.2
  unfold newIntResult newInt
  by_cases hin : InSmall m.toConfig x
  · rw [if_pos (hfits.mpr hin)]
    exact ⟨canonical_small hin, .refl⟩
  · rw [if_neg (mt hfits.mp hin)]
    refine Prog.wp_then (newIntFromLl_spec (word_natAbs hx)) (fun o h' hq => ?_) fun _ _ he => he
    obtain ⟨rfl, hv, hkept⟩ := hq
    exact ⟨⟨hv, fun hin' => absurd hin' hin⟩, hkept⟩

theorem promoted_spec (op : ArithOp) (inplace : Bool) (hx : InSmall m.toConfig x) (hy : InSmall m.toConfig y)
    (hdom : InDomain m.toConfig (.arith op inplace) y) :
    Prog.wp (promoted op x y) (fun r h' => Gave g h' r (.int (codeArith op x y))) (fun e _ => e = .memory) g := by
  refine Prog.wp_then (newIntFromLl_spec (t := .newLhs) (word_natAbs (.of_small hx))) (fun o h₁ hq => ?_) fun _ _ he => he
  obtain ⟨rfl, hv, hkept⟩ := hq
  have hmix : ¬ BothSmall (.int (.temp .newLhs) : Obj ι) (.small y) := by
    rintro ⟨a, b, ha, -⟩
    cases ha
  refine Prog.wp_mono (intArithOp_spec (x := x) (y := y) ⟨.inl rfl, hv⟩ ⟨rfl, hy⟩ hmix hdom) (fun r h' hg => ?_) fun _ _ he => he
  exact ⟨hg.1, hkept.trans hg.2⟩

section Bits

variable {c : Config} {a b : Nat}

theorem inSmall_ofNat : InSmall c (Int.ofNat a) ↔ a < 2 ^ (c.wordBits - 2) := by
  have hcast : half c = ((2 ^ (c.wordBits - 2) : Nat) : Int) := (Nat.cast_pow 2 _).symm
  rw [inSmall_iff, hcast, Int.ofNat_eq_natCast]
  omega

theorem inSmall_negSucc : InSmall c (Int.negSucc a) ↔ a < 2 ^ (c.wordBits - 2) := by
  have hcast : half c = ((2 ^ (c.wordBits - 2) : Nat) : Int) := (Nat.cast_pow 2 _).symm
  rw [inSmall_iff, hcast, Int.negSucc_eq]
  omega

/-- Bit by bit, two small ints make one. -/
theorem inSmall_bits (hx : InSmall c x) (hy : InSmall c y) : InSmall c (Int.lor x y) ∧ InSmall c (Int.land x y) ∧ InSmall c (Int.xor x y) := by
  have hdiff : ∀ {a b : Nat}, a < 2 ^ (c.wordBits - 2) → b < 2 ^ (c.wordBits - 2) → Nat.ldiff a b < 2 ^ (c.wordBits - 2) :=
    fun ha hb => Nat.bitwise_lt_two_pow ha hb
  cases x with
  | ofNat a =>
    rw [inSmall_ofNat] at hx
    cases y with
    | ofNat b =>
      rw [inSmall_ofNat] at hy
      exact ⟨inSmall_ofNat.mpr (Nat.or_lt_two_pow hx hy), inSmall_ofNat.mpr (Nat.and_lt_two_pow _ hy),
        inSmall_ofNat.mpr (Nat.xor_lt_two_pow hx hy)⟩
    | negSucc b =>
      rw [inSmall_negSucc] at hy
      exact ⟨inSmall_negSucc.mpr (hdiff hy hx), inSmall_ofNat.mpr (hdiff hx hy), inSmall_negSucc.mpr (Nat.xor_lt_two_pow hx hy)⟩
  | negSucc a =>
    rw [inSmall_negSucc] at hx
    cases y with
    | ofNat b =>
      rw [inSmall_ofNat] at hy
      exact ⟨inSmall_negSucc.mpr (hdiff hx hy), inSmall_ofNat.mpr (hdiff hy hx), inSmall_negSucc.mpr (Nat.xor_lt_two_pow hx hy)⟩
    | negSucc b =>
      rw [inSmall_negSucc] at hy
      exact ⟨inSmall_negSucc.mpr (Nat.and_lt_two_pow _ hy), inSmall_negSucc.mpr (Nat.or_lt_two_pow hx hy),
        inSmall_ofNat.mpr (Nat.xor_lt_two_pow hx hy)⟩

/-- A shift that the check lets through has its bits in the word. -/
theorem lshift_word {n : Nat} (hn : n < c.wordBits) (hmax : x ≤ smallMax c >>> n) (hmin : smallMin c >>> n ≤ x) : InWord c (x * 2 ^ n) := by
  have hpos : (0 : Int) < 2 ^ n := by positivity
  have hhalf := half_ge (c := c)
  have hle : x * 2 ^ n ≤ half c - 1 := by
    rw [Int.shiftRight_eq_div_pow] at hmax
    push_cast at hmax
    exact (Int.le_ediv_iff_mul_le hpos).mp hmax
  refine ⟨?_, by omega⟩
  rw [Int.shiftRight_eq_div_pow] at hmin
  change -half c / _ ≤ x at hmin
  push_cast at hmin
  have hfloor := Int.lt_ediv_add_one_mul_self (-half c) hpos
  have hmul := Int.mul_le_mul_of_nonneg_right hmin (Int.le_of_lt hpos)
  rw [Int.add_mul, Int.one_mul] at hfloor
  by_cases hlast : n = c.wordBits - 1
  · -- all bits but one are shifted out: the operand is -1 or not negative
    have hpow : (2 : Int) ^ n = 2 * half c := by
      rw [hlast, ← small_eq]
      push_cast
      rfl
    have hquo : -half c / (2 * half c) = -1 := by
      refine Int.ediv_eq_iff_of_pos ?_ |>.mpr ?_
      all_goals omega
    rw [hpow, hquo] at hmul
    rw [hpow]
    omega
  · have hpow : (2 : Int) ^ n ≤ half c := by
      unfold half
      have hnat : 2 ^ n ≤ 2 ^ (c.wordBits - 2) := Nat.pow_le_pow_right (by decide) (by omega)
      exact_mod_cast hnat
    omega

theorem sword_lshift {n : Nat} (hx : InWord c (x * 2 ^ n)) : c.sword (uword c x <<< n : Nat) = x * 2 ^ n := by
  have hcast : ((uword c x <<< n : Nat) : Int) = x % (2 ^ c.wordBits : Nat) * 2 ^ n := by
    rw [Nat.shiftLeft_eq]
    push_cast
    rw [uword, Int.toNat_of_nonneg (Int.emod_nonneg _ (by positivity))]
  rw [hcast, Config.sword, Int.emod_mul_bmod]
  exact sword_of hx.1 hx.2

theorem rshift_of_ge {k : Nat} (hx : InSmall c x) (hk : c.wordBits - 1 ≤ k) : x / 2 ^ k = if x < 0 then -1 else 0 := by
  have hle : 2 ^ (c.wordBits - 1) ≤ 2 ^ k := Nat.pow_le_pow_right (by decide) hk
  have hs := small_eq (c := c)
  have hhalf := half_ge (c := c)
  have hpow : 2 * half c ≤ (2 : Int) ^ k := by
    rw [← hs]
    exact_mod_cast hle
  rw [inSmall_iff] at hx
  split
  · refine Int.ediv_eq_iff_of_pos ?_ |>.mpr ?_
    all_goals omega
  · exact Int.ediv_eq_zero_of_lt (by omega) (by omega)

end Bits

theorem ediv_between {a b k : Int} (hk : 0 < k) (ha : 0 ≤ a) (hb : 0 ≤ b) (h1 : -a ≤ x) (h2 : x ≤ b) : -a ≤ x / k ∧ x / k ≤ b := by
  refine ⟨(Int.le_ediv_iff_mul_le hk).mpr ?_, Int.lt_add_one_iff.mp ((Int.ediv_lt_iff_lt_mul hk).mpr ?_)⟩
  · have hmul := Int.mul_le_mul_of_nonneg_left (show 1 ≤ k by omega) ha
    rw [Int.neg_mul]
    omega
  · have hmul := Int.mul_le_mul_of_nonneg_left (show 1 ≤ k by omega) (show 0 ≤ b + 1 by omega)
    omega

theorem fdiv_inWord (hx : InSmall c x) (hy0 : y ≠ 0) : InWord c (x.fdiv y) := by
  have hhalf := half_ge (c := c)
  obtain ⟨h1, h2⟩ := inSmall_iff.mp hx
  by_cases hy : 0 < y
  · have hb := ediv_between (a := half c) (b := half c) hy (by omega) (by omega) h1 (by omega)
    rw [Int.fdiv_eq_ediv_of_nonneg _ (by omega)]
    exact ⟨by omega, by omega⟩
  · have hb := ediv_between (a := half c) (b := half c) (x := -x) (show 0 < -y by omega) (by omega) (by omega) (by omega) (by omega)
    rw [← Int.neg_fdiv_neg, Int.fdiv_eq_ediv_of_nonneg _ (by omega)]
    exact ⟨by omega, by omega⟩

theorem fmod_inSmall (hy : InSmall c y) (hy0 : y ≠ 0) : InSmall c (x.fmod y) := by
  have hhalf := half_ge (c := c)
  obtain ⟨h1, h2⟩ := inSmall_iff.mp hy
  rw [inSmall_iff]
  by_cases hpos : 0 < y
  · have hlow := Int.fmod_nonneg_of_pos x hpos
    have hhigh := Int.fmod_lt_of_pos x hpos
    omega
  · have hlow := Int.fmod_nonneg_of_pos (-x) (show 0 < -y by omega)
    have hhigh := Int.fmod_lt_of_pos (-x) (show 0 < -y by omega)
    rw [Int.neg_fmod_neg] at hlow hhigh
    omega

theorem smallArithOp_spec {op : ArithOp} {inplace : Bool} (hx : InSmall m.toConfig x) (hy : InSmall m.toConfig y)
    (hdom : InDomain m.toConfig (.arith op inplace) y) :
    Prog.wp (smallArithOp op x y) (fun r h' => Gave g h' r (.int (exactArith op x y))) (fun e _ => e = .memory) g := by
  have hhalf := half_ge (c := m.toConfig)
  have hxr := inSmall_iff.mp hx
  have hyr := inSmall_iff.mp hy
  have hword : ∀ {v : Int}, InWord m.toConfig v → m.sword v = v := fun hv => sword_of hv.1 hv.2
  cases op with
  | or => exact newIntResult_spec (.of_small (inSmall_bits hx hy).1)
  | xor => exact newIntResult_spec (.of_small (inSmall_bits hx hy).2.2)
  | and => exact newIntResult_spec (.of_small (inSmall_bits hx hy).2.1)
  | lshift =>
    show Prog.wp (if y < 0 then _ else if y ≥ m.wordBits ∨ x > smallMax m.toConfig >>> y.toNat ∨ x < smallMin m.toConfig >>> y.toNat then _
      else newIntResult (m.sword (uword m.toConfig x <<< y.toNat : Nat))) _ _ g
    have h0 : 0 ≤ y := hdom.1
    rw [if_neg (by omega)]
    by_cases hbig : y ≥ m.wordBits ∨ x > smallMax m.toConfig >>> y.toNat ∨ x < smallMin m.toConfig >>> y.toNat
    · rw [if_pos hbig]
      exact promoted_spec .lshift inplace hx hy hdom
    · have hin := lshift_word (c := m.toConfig) (x := x) (n := y.toNat) (by omega) (by omega) (by omega)
      rw [if_neg hbig, sword_lshift hin]
      exact newIntResult_spec hin
  | rshift =>
    show Prog.wp (if y < 0 then _ else newIntResult (x >>> (if y ≥ m.wordBits then m.wordBits - 1 else y.toNat))) _ _ g
    have h0 : 0 ≤ y := hdom.1
    have hshift : x >>> (if y ≥ m.wordBits then m.wordBits - 1 else y.toNat) = x / 2 ^ y.toNat := by
      rw [Int.shiftRight_eq_div_pow]
      push_cast
      by_cases hbig : y ≥ m.wordBits
      · rw [if_pos hbig, rshift_of_ge hx (Nat.le_refl _), rshift_of_ge hx (by omega)]
      · rw [if_neg hbig]
    have hb := ediv_between (x := x) (a := half m.toConfig) (b := half m.toConfig - 1) (show (0 : Int) < 2 ^ y.toNat by positivity)
      (by omega) (by omega) hxr.1 (by omega)
    rw [if_neg (by omega), hshift]
    exact newIntResult_spec (.of_small (inSmall_iff.mpr (by omega)))
  | add =>
    have hin : InWord m.toConfig (x + y) := ⟨by omega, by omega⟩
    show Prog.wp (newIntResult (m.sword (x + y))) _ _ g
    rw [hword hin]
    exact newIntResult_spec hin
  | subtract =>
    have hin : InWord m.toConfig (x - y) := ⟨by omega, by omega⟩
    show Prog.wp (newIntResult (m.sword (x - y))) _ _ g
    rw [hword hin]
    exact newIntResult_spec hin
  | multiply =>
    show Prog.wp (if mulOverflow m.toConfig x y then _ else pure (Result.obj (Obj.small (newSmallInt m.toConfig (m.sword (x * y)))))) _ _ g
    by_cases hover : mulOverflow m.toConfig x y = true
    · rw [if_pos hover]
      exact promoted_spec .multiply inplace hx hy trivial
    · have hfit : InSmall m.toConfig (x * y) := not_not.mp (mt mulOverflow_iff.mpr hover)
      rw [if_neg hover, hword (.of_small hfit)]
      exact ⟨canonical_small hfit, .refl⟩
  | floorDivide =>
    show Prog.wp (if y = 0 then _ else newIntResult (Smallint.floorDivide m.toConfig x y)) _ _ g
    rw [if_neg hdom, floorDivide_eq hx hy hdom]
    exact newIntResult_spec (fdiv_inWord hx hdom)
  | modulo =>
    show Prog.wp (if y = 0 then _ else newIntResult (Smallint.modulo m.toConfig x y)) _ _ g
    rw [if_neg hdom, modulo_eq hy hdom]
    exact newIntResult_spec (.of_small (fmod_inSmall hy hdom))
  | power =>
    have hneg : ¬ y < 0 := Int.not_lt.mpr hdom
    unfold smallArithOp
    dsimp only
    rw [if_neg hneg]
    have hone : InSmall m.toConfig 1 := inSmall_iff.mpr ⟨by omega, by omega⟩
    cases hpow : smallPower m.toConfig 1 x y.toNat with
    | some ans =>
      obtain ⟨hans, hfit⟩ := smallPower_spec hone hx hpow
      rw [Int.one_mul] at hans
      subst hans
      exact newIntResult_spec (.of_small hfit)
    | none =>
      have hne : ¬ (x = 0 ∧ y = 0) := by
        rintro ⟨-, rfl⟩
        rw [smallPower] at hpow
        cases hpow
      have hcode : codeArith .power x y = exactArith .power x y := if_neg (by simpa using fun hx0 hy0 => hne ⟨hx0, hy0⟩)
      rw [← hcode]
      exact promoted_spec .power inplace hx hy hdom

/-! ## What divmod leaves -/

theorem fdiv_inSmall_iff (hx : InSmall c x) (hy0 : y ≠ 0) : InSmall c (x.fdiv y) ↔ ¬ (x = smallMin c ∧ y = -1) := by
  have hhalf := half_ge (c := c)
  have hmin : smallMin c = -half c := rfl
  obtain ⟨h1, h2⟩ := inSmall_iff.mp hx
  rw [inSmall_iff, hmin]
  by_cases hy : 0 < y
  · have hb := ediv_between (a := half c) (b := half c - 1) hy (by omega) (by omega) h1 (by omega)
    rw [Int.fdiv_eq_ediv_of_nonneg _ (by omega)]
    omega
  · have hb := ediv_between (a := half c) (b := half c) (x := -x) (show 0 < -y by omega) (by omega) (by omega) (by omega) (by omega)
    rw [← Int.neg_fdiv_neg, Int.fdiv_eq_ediv_of_nonneg _ (by omega)]
    have hlt := Int.ediv_lt_iff_lt_mul (a := -x) (b := half c) (show 0 < -y by omega)
    by_cases hone : y = -1
    · subst hone
      omega
    · have hmul := Int.mul_le_mul_of_nonneg_left (show 2 ≤ -y by omega) (show 0 ≤ half c by omega)
      omega

theorem quotientLarge_iff (hy0 : y ≠ 0) : QuotientLarge c x y ↔ ¬ InSmall c (x.fdiv y) := by
  unfold QuotientLarge
  rw [inSmall_iff]
  split
  · rename_i hy
    rw [Int.fdiv_eq_ediv_of_nonneg _ (Int.le_of_lt hy), Int.le_ediv_iff_mul_le hy, Int.ediv_lt_iff_lt_mul hy]
    omega
  · rename_i hy
    have hpos : 0 < -y := by omega
    rw [← Int.neg_fdiv_neg, Int.fdiv_eq_ediv_of_nonneg _ (Int.le_of_lt hpos), Int.le_ediv_iff_mul_le hpos, Int.ediv_lt_iff_lt_mul hpos,
      Int.neg_mul_neg, Int.mul_neg, Int.neg_mul]
    omega

theorem remainderLarge_iff (hy0 : y ≠ 0) : RemainderLarge c x y ↔ ¬ InSmall c (x.fmod y) := by
  have hdvd : y ∣ x - x.fmod y := ⟨x.fdiv y, by rw [Int.fmod_def]; ring⟩
  constructor
  · intro hlarge hin
    refine hlarge _ hin ?_ hdvd
    by_cases hy : 0 < y
    · exact Int.mul_nonneg (Int.fmod_nonneg_of_pos x hy) (Int.le_of_lt hy)
    · have hrem := Int.fmod_nonneg_of_pos (-x) (show 0 < -y by omega)
      rw [Int.neg_fmod_neg] at hrem
      exact Int.mul_nonneg_of_nonpos_of_nonpos (by omega) (by omega)
  · intro hout s hs hsign hdvds
    -- the remainder is between zero and any `s` it is congruent to
    obtain ⟨k, hk⟩ := Int.dvd_sub hdvds hdvd
    have hstep : ∀ {a b : Int}, 0 < a → 0 < b → b < a → b ≠ a * k := by
      intro a b ha hb hlt hab
      have hkpos : 0 < k := Int.pos_of_mul_pos_right (hab ▸ hb) ha
      have hmul := Int.mul_le_mul_of_nonneg_left (show 1 ≤ k by omega) (Int.le_of_lt ha)
      omega
    rw [inSmall_iff] at hs hout
    by_cases hy : 0 < y
    · have hlow := Int.fmod_nonneg_of_pos x hy
      have hhigh := Int.fmod_lt_of_pos x hy
      have hs0 : 0 ≤ s := by
        by_contra hneg
        have hmul := Int.mul_neg_of_neg_of_pos (Int.not_le.mp hneg) hy
        omega
      exact hstep (a := y) (b := x.fmod y - s) hy (by omega) (by omega) (by omega)
    · have hlow := Int.fmod_nonneg_of_pos (-x) (show 0 < -y by omega)
      have hhigh := Int.fmod_lt_of_pos (-x) (show 0 < -y by omega)
      rw [Int.neg_fmod_neg] at hlow hhigh
      have hs0 : s ≤ 0 := by
        by_contra hpos
        have hmul := Int.mul_neg_of_pos_of_neg (Int.not_le.mp hpos) (show y < 0 by omega)
        omega
      have hneg := Int.neg_mul y k
      exact hstep (a := -y) (b := s - x.fmod y) (by omega) (by omega) (by omega) (by omega)

omit [DecidableEq ι] in
theorem denotes_unique {o : Obj ι} {v w : Int} (hv : Denotes h o v) (hw : Denotes h o w) : v = w := by
  cases o with
  | small a => exact hv.1.symm.trans hw.1
  | int r => exact hv.value.symm.trans hw.value

omit [DecidableEq ι] in
theorem canonical_int_iff {r : Ref ι} {v : Int} (hv : Holds (h r) v) : Canonical h (.int r) v ↔ ¬ InSmall c v := by
  refine ⟨fun hcan hin => ?_, fun hout => ⟨hv, fun hin => absurd hin hout⟩⟩
  obtain ⟨w, hw⟩ := hcan.small hin
  cases hw

omit [DecidableEq ι] in
theorem canonical_newSmall_iff {v : Int} : Canonical h (.small (newSmallInt c v)) v ↔ InSmall c v :=
  ⟨fun hcan => hcan.denotes.2, canonical_small⟩

/-! ## The operators -/

omit [DecidableEq ι] in
theorem Denotes.arg {o : Obj ι} {v : Int} (hd : Denotes h o v) (ho : IsOperand o) : Arg h o v := by
  cases o with
  | small w => exact hd
  | int r => exact ⟨.inr ho, hd⟩

omit [DecidableEq ι] in
theorem not_bothSmall_left {r : Ref ι} : ¬ BothSmall (.int r) rhs := by
  rintro ⟨a, b, ha, -⟩
  cases ha

omit [DecidableEq ι] in

/-- Whether the outcome is as Python says, told by the operands. -/
def RightIff (g g' : Heap c ι) (r : Result ι) (v : Value) (p : Prop) : Prop := (Exact g' r v ↔ p) ∧ Kept g g'

omit [DecidableEq ι] in
theorem Gave.right {h' : Heap c ι} {r : Result ι} {v : Value} {p : Prop} (hg : Gave h h' r v) (hp : p) : RightIff h h' r v p :=
  ⟨iff_of_true hg.1 hp, hg.2⟩

theorem arith_generic {op : ArithOp} {inplace : Bool} (hl : Arg h lhs x) (hr : Arg h rhs y) (hmix : ¬ BothSmall lhs rhs)
    (hdom : InDomain c (.arith op inplace) y) :
    Prog.wp (intArithOp op lhs rhs) (fun r h' => RightIff h h' r (.int (exactArith op x y)) (BinaryRight c (.arith op inplace) lhs rhs x y))
      (fun e _ => e = .memory) h := by
  refine Prog.wp_mono (intArithOp_spec hl hr hmix hdom) (fun r h' hg => ?_) fun _ _ he => he
  by_cases hzero : op = .power ∧ x = 0 ∧ y = 0
  · obtain ⟨rfl, rfl, rfl⟩ := hzero
    refine ⟨iff_of_false ?_ ?_, hg.2⟩
    · intro hone
      have hgot := hg.1
      cases r with
      | obj o => exact absurd (denotes_unique hgot.denotes hone.denotes) (by decide)
      | bool b => exact hone
      | tuple q r => exact hone
      | raises e => exact hone
      | float => exact hone
    · rintro (hboth | hne)
      · exact hmix hboth
      · exact hne ⟨rfl, rfl⟩
  · have hcode : codeArith op x y = exactArith op x y := if_neg hzero
    rw [hcode] at hg
    refine hg.right ?_
    cases op with
    | power => exact .inr fun hxy => hzero ⟨rfl, hxy⟩
    | _ => trivial

theorem divmod_generic (hl : Arg h lhs x) (hr : Arg h rhs y) (hmix : ¬ BothSmall lhs rhs) (hy : y ≠ 0) :
    Prog.wp (intDivmod lhs rhs) (fun r h' => RightIff h h' r (.pair (x.fdiv y) (x.fmod y)) (BinaryRight c .divmod lhs rhs x y))
      (fun e _ => e = .memory) h := by
  refine Prog.wp_mono (intDivmod_spec hl hr hmix hy) (fun r h' hq => ?_) fun _ _ he => he
  obtain ⟨rfl, hq, hr', hkept⟩ := hq
  refine ⟨?_, hkept⟩
  have hright : BinaryRight c .divmod lhs rhs x y ↔ ¬ InSmall c (x.fdiv y) ∧ ¬ InSmall c (x.fmod y) := by
    rw [← quotientLarge_iff hy, ← remainderLarge_iff hy]
    exact ⟨fun h => h.elim (fun hb => absurd hb.1 hmix) (·.2), fun h => .inr ⟨hmix, h⟩⟩
  rw [hright, ← canonical_int_iff hq, ← canonical_int_iff hr']
  rfl

theorem cmp_generic {op : CmpOp} (hl : Arg h lhs x) (hr : Arg h rhs y) (hmix : ¬ BothSmall lhs rhs) :
    Prog.wp (do pure (.bool (op.of (← intCmp lhs rhs))) : M c ι (Result ι)) (fun r h' => Gave h h' r (exactBinary (.cmp op) x y))
      (fun e _ => e = .memory) h := by
  refine Prog.wp_then (intCmp_spec hl hr hmix) (fun s h' hs => ?_) fun _ _ he => he
  obtain ⟨hlt, hgt, hkept⟩ := hs
  refine ⟨?_, hkept⟩
  cases op with
  | less => exact decide_eq_decide.mpr hlt
  | more => exact decide_eq_decide.mpr hgt
  | lessEqual => exact decide_eq_decide.mpr (by omega)
  | moreEqual => exact decide_eq_decide.mpr (by omega)

theorem equalByType_spec (ne : Bool) (hl : Arg h lhs x) (hr : Arg h rhs y) (hmix : ¬ BothSmall lhs rhs) :
    Prog.wp (equalByType ne lhs rhs) (fun r h' => r = .bool (if ne then !decide (x = y) else decide (x = y)) ∧ Kept h h')
      (fun e _ => e = .memory) h := by
  refine Prog.wp_then (intCmp_spec hl hr hmix) (fun s h' hs => ?_) fun _ _ he => he
  obtain ⟨hlt, hgt, hkept⟩ := hs
  have hzero : decide (s = 0) = decide (x = y) := decide_eq_decide.mpr (by omega)
  rw [hzero]
  exact ⟨rfl, hkept⟩

theorem objEqualNotEqual_spec (ne : Bool) (hl : Arg h lhs x) (hr : Arg h rhs y) :
    Prog.wp (objEqualNotEqual ne lhs rhs) (fun r h' => r = .bool (if ne then !decide (x = y) else decide (x = y)) ∧ Kept h h')
      (fun e _ => e = .memory) h := by
  unfold objEqualNotEqual
  by_cases hsame : lhs = rhs
  · subst hsame
    have hxy : x = y := by
      cases lhs with
      | small a => exact hl.1.symm.trans hr.1
      | int r => exact hl.2.value.symm.trans hr.2.value
    rw [if_pos rfl, decide_eq_true hxy]
    refine ⟨?_, .refl⟩
    cases ne <;> rfl
  · rw [if_neg hsame]
    cases lhs with
    | small a =>
      cases rhs with
      | small b =>
        have hxy : x ≠ y := by
          rintro rfl
          exact hsame (by rw [hl.1, hr.1])
        rw [decide_eq_false hxy]
        refine ⟨?_, .refl⟩
        cases ne <;> rfl
      | int r =>
        have hswap := equalByType_spec ne hr hl not_bothSmall_left
        rw [show decide (y = x) = decide (x = y) from decide_eq_decide.mpr eq_comm] at hswap
        exact hswap
    | int l => exact equalByType_spec _ hl hr not_bothSmall_left

theorem small_binary {op : BinaryOp} (hx : InSmall m.toConfig x) (hy : InSmall m.toConfig y) (hdom : InDomain m.toConfig op y) :
    Prog.wp (mpBinaryOp op (.small x) (.small y))
      (fun r h' => RightIff g h' r (exactBinary op x y) (BinaryRight m.toConfig op (.small x : Obj ι) (.small y) x y)) (fun e _ => e = .memory) g := by
  have hboth : BothSmall (.small x : Obj ι) (.small y) := ⟨x, y, rfl, rfl⟩
  cases op with
  | arith op inplace =>
    refine Prog.wp_mono (smallArithOp_spec hx hy hdom) (fun r h' hg => hg.right ?_) fun _ _ he => he
    cases op with
    | power => exact .inl hboth
    | _ => trivial
  | divmod =>
    have hy0 : y ≠ 0 := hdom
    show RightIff g g (smallDivmod (c := m.toConfig) x y) _ _
    have hright : BinaryRight m.toConfig .divmod (.small x : Obj ι) (.small y) x y ↔ InSmall m.toConfig (x.fdiv y) ∧ InSmall m.toConfig (x.fmod y) := by
      rw [fdiv_inSmall_iff hx hy0]
      exact ⟨fun h => h.elim (fun hb => ⟨hb.2, fmod_inSmall hy hy0⟩) fun hn => absurd hboth hn.1, fun h => .inl ⟨hboth, h.1⟩⟩
    unfold smallDivmod
    rw [if_neg hy0, floorDivide_eq hx hy hy0, modulo_eq hy hy0, hright]
    refine ⟨?_, .refl⟩
    rw [← canonical_newSmall_iff (h := g), ← canonical_newSmall_iff (h := g)]
    rfl
  | cmp op =>
    refine Gave.right ⟨?_, .refl⟩ trivial
    cases op <;> rfl
  | equal =>
    refine Prog.wp_mono (objEqualNotEqual_spec false (x := x) (y := y) ⟨rfl, hx⟩ ⟨rfl, hy⟩) (fun r h' hq => ?_) fun _ _ he => he
    obtain ⟨rfl, hkept⟩ := hq
    exact Gave.right ⟨rfl, hkept⟩ trivial
  | notEqual =>
    refine Prog.wp_mono (objEqualNotEqual_spec true (x := x) (y := y) ⟨rfl, hx⟩ ⟨rfl, hy⟩) (fun r h' hq => ?_) fun _ _ he => he
    obtain ⟨rfl, hkept⟩ := hq
    exact Gave.right ⟨(decide_not (p := x = y)).symm, hkept⟩ trivial

theorem generic_binary {op : BinaryOp} (hl : Arg h lhs x) (hr : Arg h rhs y) (hmix : ¬ BothSmall lhs rhs) (hdom : InDomain c op y) :
    Prog.wp (mpBinaryOp op lhs rhs) (fun r h' => RightIff h h' r (exactBinary op x y) (BinaryRight c op lhs rhs x y)) (fun e _ => e = .memory) h := by
  cases op with
  | arith op inplace =>
    have hrun : mpBinaryOp (.arith op inplace) lhs rhs = (intArithOp op lhs rhs : M c ι (Result ι)) := by
      cases lhs with
      | small a =>
        cases rhs with
        | small b => exact absurd ⟨a, b, rfl, rfl⟩ hmix
        | int r => rfl
      | int l => rfl
    rw [hrun]
    exact arith_generic hl hr hmix hdom
  | divmod =>
    have hrun : mpBinaryOp .divmod lhs rhs = (intDivmod lhs rhs : M c ι (Result ι)) := by
      cases lhs with
      | small a =>
        cases rhs with
        | small b => exact absurd ⟨a, b, rfl, rfl⟩ hmix
        | int r => rfl
      | int l => rfl
    rw [hrun]
    exact divmod_generic hl hr hmix hdom
  | cmp op =>
    have hrun : mpBinaryOp (.cmp op) lhs rhs = (do pure (.bool (op.of (← intCmp lhs rhs))) : M c ι (Result ι)) := by
      cases lhs with
      | small a =>
        cases rhs with
        | small b => exact absurd ⟨a, b, rfl, rfl⟩ hmix
        | int r => rfl
      | int l => rfl
    rw [hrun]
    exact Prog.wp_mono (cmp_generic hl hr hmix) (fun r h' hg => hg.right trivial) fun _ _ he => he
  | equal =>
    refine Prog.wp_mono (objEqualNotEqual_spec false hl hr) (fun r h' hq => ?_) fun _ _ he => he
    obtain ⟨rfl, hkept⟩ := hq
    exact Gave.right ⟨rfl, hkept⟩ trivial
  | notEqual =>
    refine Prog.wp_mono (objEqualNotEqual_spec true hl hr) (fun r h' hq => ?_) fun _ _ he => he
    obtain ⟨rfl, hkept⟩ := hq
    exact Gave.right ⟨(decide_not (p := x = y)).symm, hkept⟩ trivial

theorem small_unary {op : UnaryOp} (hx : InSmall m.toConfig x) :
    Prog.wp (mpUnaryOp op (.small x : Obj ι)) (fun r h' => Gave g h' r (exactUnary m.toConfig op x)) (fun e _ => e = .memory) g := by
  have hhalf := half_ge (c := m.toConfig)
  have hmin : smallMin m.toConfig = -half m.toConfig := rfl
  have hr := inSmall_iff.mp hx
  have hself : Canonical g (.small x : Obj ι) x := ⟨⟨rfl, hx⟩, fun _ => ⟨x, rfl⟩⟩
  have hneg : Prog.wp (if x = smallMin m.toConfig then newIntResult (m.sword (-x)) else pure (.obj (.small (newSmallInt m.toConfig (-x)))) :
      M m.toConfig ι (Result ι)) (fun r h' => Gave g h' r (.int (-x))) (fun e _ => e = .memory) g := by
    by_cases hleast : x = smallMin m.toConfig
    · have hin : InWord m.toConfig (-x) := ⟨by omega, by omega⟩
      have hsw : m.sword (-x) = -x := sword_of hin.1 hin.2
      rw [if_pos hleast, hsw]
      exact newIntResult_spec hin
    · rw [if_neg hleast]
      exact ⟨canonical_small (inSmall_iff.mpr (by omega)), .refl⟩
  cases op with
  | bool => exact ⟨rfl, .refl⟩
  | hash =>
    refine ⟨?_, .refl⟩
    have hsame : x.bmod (2 ^ (m.wordBits - 1)) = x := by rw [← newSmallInt_eq, newSmallInt_of hx]
    show Canonical g (.small x) (x.bmod (2 ^ (m.wordBits - 1)))
    rw [hsame]
    exact hself
  | positive => exact ⟨hself, .refl⟩
  | intMaybe => exact ⟨hself, .refl⟩
  | negative => exact hneg
  | abs =>
    show Prog.wp (if x ≥ 0 then _ else _) (fun r h' => Gave g h' r (.int |x|)) _ g
    by_cases hx0 : x ≥ 0
    · rw [if_pos hx0, abs_of_nonneg hx0]
      exact ⟨hself, .refl⟩
    · rw [if_neg hx0, abs_of_neg (by omega)]
      exact hneg
  | invert => exact ⟨canonical_small (inSmall_iff.mpr (by omega)), .refl⟩
  | not => exact ⟨rfl, .refl⟩

/-- A unary operator that makes a new object: it stays one. -/
theorem wp_newMpz {f : M c ι Unit} {v : Int} {p : Prop} {i : ι}
    (hf : ∀ h₁ : Heap c ι, h₁ (.obj i) = h (.obj i) → h₁ (.temp .res) = initZero →
      Prog.wp f (fun _ h' => Computed h₁ h' (.temp .res) v) (fun e _ => e = .memory) h₁) (hp : p ↔ ¬ InSmall c v) :
    Prog.wp (do
      intNewMpz .res
      f
      pure (.obj (.int (.temp .res))) : M c ι (Result ι)) (fun r h' => RightIff h h' r (.int v) p) (fun e _ => e = .memory) h := by
  show Prog.wp (change _ _ >>= _) _ _ h
  rw [wp_change_bind]
  have hobj : Function.update h (.temp .res) (initZero : MpzT c) (.obj i) = h (.obj i) := by
    refine Function.update_of_ne ?_ _ _
    intro e
    cases e
  refine Prog.wp_then (hf _ hobj (Function.update_self _ _ _)) (fun _ h' hc => ?_) fun _ _ he => he
  refine ⟨?_, kept_of_computed (after_new hc)⟩
  rw [hp, ← canonical_int_iff hc.holds]
  rfl

theorem generic_unary {op : UnaryOp} {i : ι} (hx : Holds (h (.obj i)) x) :
    Prog.wp (mpUnaryOp op (.int (.obj i))) (fun r h' => RightIff h h' r (exactUnary c op x) (UnaryRight c op (.int (.obj i) : Obj ι) x))
      (fun e _ => e = .memory) h := by
  have hhalf := half_ge (c := c)
  have hmin : smallMin c = -half c := rfl
  have hsame : ∀ (v : Int) (p : Prop), x = v → (p ↔ ¬ InSmall c x) → RightIff h h (.obj (.int (.obj i))) (.int v) p := by
    rintro _ p rfl hp
    exact ⟨(canonical_int_iff hx).trans hp.symm, .refl⟩
  cases op with
  | bool =>
    show Prog.wp (mpzIsZero _ >>= _) _ _ h
    rw [wp_ok_bind (mpzIsZero_spec hx)]
    exact Gave.right ⟨(decide_not (p := x = 0)).symm, .refl⟩ trivial
  | not =>
    show Prog.wp (mpzIsZero _ >>= _) _ _ h
    rw [wp_ok_bind (mpzIsZero_spec hx)]
    exact Gave.right ⟨rfl, .refl⟩ trivial
  | hash =>
    show Prog.wp (mpzHash _ >>= _) _ _ h
    rw [wp_ok_bind (mpzHash_spec hx)]
    have hdvd : 2 ^ (c.wordBits - 1) ∣ 2 ^ c.wordBits := Nat.pow_dvd_pow 2 (Nat.sub_le _ _)
    have hval : newSmallInt c (c.sword x) = x.bmod (2 ^ (c.wordBits - 1)) := by
      rw [newSmallInt_eq, Config.sword, Int.bmod_bmod_of_dvd hdvd]
    have hin : InSmall c (x.bmod (2 ^ (c.wordBits - 1))) := by
      have hs := small_eq (c := c)
      have hle := Int.le_bmod (x := x) (show 0 < 2 ^ (c.wordBits - 1) by positivity)
      have hlt := Int.bmod_lt (x := x) (show 0 < 2 ^ (c.wordBits - 1) by positivity)
      rw [inSmall_iff]
      omega
    rw [hval]
    exact Gave.right ⟨⟨⟨rfl, hin⟩, fun _ => ⟨_, rfl⟩⟩, .refl⟩ trivial
  | positive => exact hsame x _ rfl Iff.rfl
  | intMaybe => exact hsame x _ rfl Iff.rfl
  | negative =>
    refine wp_newMpz (i := i) (fun h₁ hobj hres => ?_) ?_
    · exact (mpzNegInpl_gives (by rw [hobj]; exact hx) (by rw [hres]; rfl) (by rw [hres]; exact Nat.zero_le _) (Nat.le_refl _)).computed
    · show x ≤ smallMin c ∨ -smallMin c < x ↔ _
      rw [inSmall_iff]
      omega
  | invert =>
    refine wp_newMpz (i := i) (fun h₁ hobj hres => ?_) ?_
    · exact (mpzNotInpl_gives (by rw [hobj]; exact hx) (by rw [hres]; rfl) not_scratch_res (by rw [hres]; exact Nat.zero_le _)
        (Nat.le_refl _)).computed
    · show ¬ InSmall c x ↔ _
      rw [inSmall_iff, inSmall_iff]
      omega
  | abs =>
    show Prog.wp (look _ _ >>= _) _ _ h
    rw [wp_look_bind]
    have hsign : x = signed (h (.obj i)).neg (h (.obj i)).mag := hx.value.symm
    have hiff : UnaryRight c .abs (.int (.obj i) : Obj ι) x ↔ ¬ InSmall c |x| := by
      show x ≤ smallMin c ∨ -smallMin c ≤ x ↔ _
      have hcases := abs_cases x
      rw [inSmall_iff]
      omega
    by_cases hneg : (h (.obj i)).neg = false
    · have habs : x = |x| := by
        rw [hneg] at hsign
        rw [hsign]
        exact (abs_of_nonneg (Int.natCast_nonneg _)).symm
      rw [if_pos hneg]
      exact hsame _ _ habs (by rw [hiff, ← habs])
    · rw [if_neg hneg]
      refine wp_newMpz (i := i) (fun h₁ hobj hres => ?_) hiff
      exact (mpzAbsInpl_gives (by rw [hobj]; exact hx) (by rw [hres]; rfl) (by rw [hres]; exact Nat.zero_le _) (Nat.le_refl _)).computed

/-- Every operator on ints of any size gives the exact value, as a small int where that fits, just
for the operands `BinaryRight` and `UnaryRight` tell; memory may run out, and the operands stay. -/
theorem int_operators_exact_iff :
    (∀ (op : BinaryOp) (lhs rhs : Obj ι) (x y : Int), Denotes g lhs x → IsOperand lhs → Denotes g rhs y → IsOperand rhs → InDomain m.toConfig op y →
      Prog.wp (mpBinaryOp op lhs rhs) (fun r h' => (Exact h' r (exactBinary op x y) ↔ BinaryRight m.toConfig op lhs rhs x y) ∧ Kept g h')
        (fun e _ => e = .memory) g) ∧
    ∀ (op : UnaryOp) (arg : Obj ι) (x : Int), Denotes g arg x → IsOperand arg →
      Prog.wp (mpUnaryOp op arg) (fun r h' => (Exact h' r (exactUnary m.toConfig op x) ↔ UnaryRight m.toConfig op arg x) ∧ Kept g h')
        (fun e _ => e = .memory) g := by
  refine ⟨fun op lhs rhs x y hl hlo hr hro hdom => ?_, fun op arg x hx ho => ?_⟩
  · by_cases hboth : BothSmall lhs rhs
    · obtain ⟨a, b, rfl, rfl⟩ := hboth
      obtain ⟨rfl, hx⟩ := hl
      obtain ⟨rfl, hy⟩ := hr
      exact small_binary hx hy hdom
    · exact generic_binary (hl.arg hlo) (hr.arg hro) hboth hdom
  · cases arg with
    | small w =>
      obtain ⟨rfl, hin⟩ := hx
      exact Prog.wp_mono (small_unary hin) (fun r h' hg => hg.right trivial) fun _ _ he => he
    | int r =>
      obtain ⟨i, rfl⟩ := ho
      exact generic_unary hx

/-- The calculator's ints. -/
def calculator : Machine := { sh4 with wordBits_le := by decide }

/-- `2 ** 30`, one more than the largest small int, and an object that holds zero. -/
def intObjects : Heap calculator.toConfig Bool
  | .obj true => ⟨false, false, 2, 2, fun p => if p = 1 then 0x4000 else 0, by decide⟩
  | _ => initZero

theorem intObjects_holds : Holds (intObjects (.obj true)) (2 ^ 30) := by
  refine ⟨⟨by decide, ⟨?_, fun _ => by decide⟩, by decide⟩, by decide⟩
  intro q hq
  change q < 2 at hq
  obtain rfl | rfl : q = 0 ∨ q = 1 := by omega
  · decide
  · decide

theorem int_operators_exact_iff_power_of_two : ∃ h, h = intObjects ∧
    Prog.wp (mpBinaryOp (.arith .subtract false) (.int (.obj true)) (.small 1)) (fun r h' => Exact h' r (.int (2 ^ 30 - 1))) (fun e _ => e = .memory) h ∧
    Prog.wp (mpUnaryOp .invert (.int (.obj true))) (fun r h' => Exact h' r (.int (-2 ^ 30 - 1))) (fun e _ => e = .memory) h := by
  obtain ⟨h, hh⟩ : ∃ h, h = intObjects := ⟨_, rfl⟩
  have hx : Denotes h (.int (.obj true)) (2 ^ 30) := by
    rw [hh]
    exact intObjects_holds
  have hone : InSmall calculator.toConfig 1 := by decide
  refine ⟨h, hh, ?_, ?_⟩
  · exact Prog.wp_mono ((int_operators_exact_iff (g := h)).1 (.arith .subtract false) (.int (.obj true)) (.small 1) (2 ^ 30) 1 hx ⟨true, rfl⟩
      ⟨rfl, hone⟩ trivial trivial) (fun _ _ hq => hq.1.mpr trivial) fun _ _ he => he
  · have hlarge : ¬ InSmall calculator.toConfig (2 ^ 30) := by decide
    exact Prog.wp_mono ((int_operators_exact_iff (g := h)).2 .invert (.int (.obj true)) (2 ^ 30) hx ⟨true, rfl⟩)
      (fun _ _ hq => hq.1.mpr hlarge) fun _ _ he => he

/-- `divmod(-2 ** 30, -1)`, of small ints, gives `-2 ** 30`. -/
theorem divmod_of_least_wraps : InDomain calculator.toConfig .divmod (-1) ∧ InSmall calculator.toConfig (-2 ^ 30) ∧
    ¬ Prog.wp (mpBinaryOp .divmod (.small (-2 ^ 30)) (.small (-1))) (fun r h' => Exact h' r (exactBinary .divmod (-2 ^ 30) (-1)))
      (fun e _ => e = .memory) intObjects := by
  refine ⟨(by decide : (-1 : Int) ≠ 0), by decide, ?_⟩
  intro hexact
  have hpair : Exact intObjects (smallDivmod (c := calculator.toConfig) (-2 ^ 30) (-1) : Result Bool) (exactBinary .divmod (-2 ^ 30) (-1)) := hexact
  exact absurd hpair.1.denotes.1 (by decide)

end PythonUltra.Py.Objint
