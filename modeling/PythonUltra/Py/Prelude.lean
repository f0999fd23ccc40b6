/-
  PythonUltra.Py.Prelude — the bytes in front of a function's bytecode (py/bc.h, py/bc.c).

  The signature and the sizes of the two sections that follow are written as bytes of
  interleaved bits, low bits first, with 0x80 set while more follow; numbers are written
  seven bits a byte, high bits first. Each decoder gives back what was encoded and stops
  at the byte after it, whatever follows. The encoders' loops shift their values down to
  zero, so the values themselves are fuel enough.
-/

import Mathlib.Data.Nat.Bitwise
import Mathlib.Tactic.Ring

namespace PythonUltra.Py

/-! ## Numbers -/

/-- The groups of seven bits of a number, the lowest last. -/
def groups : Nat → Nat → List Nat
  | 0, _ => []
  | fuel + 1, val => if val >>> 7 ≠ 0 then groups fuel (val >>> 7) ++ [val &&& 0x7f] else [val &&& 0x7f]

/-- All but the last byte say that more follow. -/
def mark : List Nat → List Nat
  | [] => []
  | [b] => [b]
  | b :: c :: rest => (b ||| 0x80) :: mark (c :: rest)

/-- `mp_encode_uint`. -/
def encodeUint (val : Nat) : List Nat := mark (groups (val + 1) val)

/-- The loop of `mp_decode_uint`, with the number read so far. -/
def decodeFrom (unum : Nat) : List Nat → Nat × List Nat
  | [] => (unum, [])
  | val :: p =>
    let unum := (unum <<< 7) ||| (val &&& 0x7f)
    if val &&& 0x80 ≠ 0 then decodeFrom unum p else (unum, p)

/-- `mp_decode_uint`: the number, and what follows it. -/
def decodeUint (p : List Nat) : Nat × List Nat := decodeFrom 0 p

/-- `mp_decode_uint_skip`. -/
def decodeUintSkip : List Nat → List Nat
  | [] => []
  | val :: p => if val &&& 0x80 ≠ 0 then decodeUintSkip p else p

theorem shiftRight_seven (n : Nat) : n >>> 7 = n / 128 := Nat.shiftRight_eq_div_pow n 7

theorem and_low_seven (n : Nat) : n &&& 0x7f = n % 128 := Nat.and_two_pow_sub_one_eq_mod n 7

theorem shiftLeft_or {a b k : Nat} (h : b < 2 ^ k) : a <<< k ||| b = a * 2 ^ k + b := by
  rw [Nat.shiftLeft_eq, Nat.mul_comm, ← Nat.two_pow_add_eq_or_of_lt h]

theorem group_bits : ∀ b < 128, b &&& 0x7f = b ∧ b &&& 0x80 = 0 ∧ (b ||| 0x80) &&& 0x7f = b ∧ (b ||| 0x80) &&& 0x80 ≠ 0 := by
  decide

theorem groups_ne_nil (fuel val : Nat) : groups (fuel + 1) val ≠ [] := by
  rw [groups]
  split <;> simp

theorem groups_spec (fuel : Nat) : ∀ val < fuel,
    (∀ b ∈ groups fuel val, b < 128) ∧ (groups fuel val).foldl (fun n b => n * 128 + b) 0 = val := by
  induction fuel with
  | zero => exact fun val h => absurd h (Nat.not_lt_zero val)
  | succ fuel ih =>
    intro val hval
    rw [groups, shiftRight_seven, and_low_seven]
    split
    · rename_i hne
      obtain ⟨hlt, hsum⟩ := ih (val / 128) (by omega)
      constructor
      · intro b hb
        rcases List.mem_append.mp hb with hb | hb
        · exact hlt b hb
        · rw [List.mem_singleton.mp hb]
          omega
      · rw [List.foldl_append, hsum]
        simp only [List.foldl_cons, List.foldl_nil]
        omega
    · rename_i hz
      constructor
      · intro b hb
        rw [List.mem_singleton.mp hb]
        omega
      · simp only [List.foldl_cons, List.foldl_nil]
        omega

theorem decodeFrom_mark (l rest : List Nat) (hne : l ≠ []) (hl : ∀ b ∈ l, b < 128) : ∀ u,
    decodeFrom u (mark l ++ rest) = (l.foldl (fun n b => n * 128 + b) u, rest) := by
  induction l with
  | nil => exact absurd rfl hne
  | cons b l ih =>
    intro u
    obtain ⟨h1, h2, h3, h4⟩ := group_bits b (hl b List.mem_cons_self)
    have hb := hl b List.mem_cons_self
    cases l with
    | nil =>
      simp only [mark, List.cons_append, List.nil_append, decodeFrom, h1, h2, List.foldl_cons, List.foldl_nil]
      rw [if_neg (by simp), shiftLeft_or (by omega)]
      rfl
    | cons c l =>
      simp only [mark, List.cons_append, decodeFrom, h3]
      rw [if_pos h4, shiftLeft_or (by omega)]
      exact ih (by simp) (fun x hx => hl x (List.mem_cons_of_mem _ hx)) _

theorem decodeUint_encodeUint (val : Nat) (rest : List Nat) : decodeUint (encodeUint val ++ rest) = (val, rest) := by
  obtain ⟨hlt, hsum⟩ := groups_spec (val + 1) val (by omega)
  unfold decodeUint encodeUint
  rw [decodeFrom_mark _ _ (groups_ne_nil val val) hlt, hsum]

theorem decodeUintSkip_eq (p : List Nat) : decodeUintSkip p = (decodeUint p).2 := by
  have hgen : ∀ u, (decodeFrom u p).2 = decodeUintSkip p := by
    induction p with
    | nil => exact fun _ => rfl
    | cons val p ih =>
      intro u
      rw [decodeFrom, decodeUintSkip]
      split
      · exact ih _
      · rfl
  exact (hgen 0).symm

/-! ## Bits spread over bytes -/

/-- `a` are the low `k` bits of `t`, and `r` the others. -/
structure Part (k a r t : Nat) : Prop where
  low : a < 2 ^ k
  total : a + r * 2 ^ k = t

theorem Part.next {k a r t : Nat} (h : Part k a r t) (w : Nat) :
    Part (k + w) (a ||| (r % 2 ^ w) <<< k) (r / 2 ^ w) t := by
  have hor : a ||| (r % 2 ^ w) <<< k = (r % 2 ^ w) * 2 ^ k + a := by rw [Nat.or_comm, shiftLeft_or h.low]
  have hlt : r % 2 ^ w < 2 ^ w := Nat.mod_lt _ (Nat.two_pow_pos w)
  constructor
  · rw [hor, Nat.pow_add]
    have := h.low
    have := Nat.mul_le_mul_right (2 ^ k) (Nat.succ_le_of_lt hlt)
    rw [Nat.succ_mul, Nat.mul_comm (2 ^ w)] at this
    omega
  · have hr := Nat.div_add_mod r (2 ^ w)
    calc (a ||| (r % 2 ^ w) <<< k) + r / 2 ^ w * 2 ^ (k + w)
        = a + (2 ^ w * (r / 2 ^ w) + r % 2 ^ w) * 2 ^ k := by rw [hor, Nat.pow_add]; ring
      _ = a + r * 2 ^ k := by rw [hr]
      _ = t := h.total

theorem Part.done {k a t : Nat} (h : Part k a 0 t) : a = t := by simpa using h.total

theorem Part.start (t : Nat) : Part 0 0 t t := ⟨by simp, by simp⟩

/-! ## The signature -/

structure Sig where
  nState : Nat
  nExcStack : Nat
  scopeFlags : Nat
  nPosArgs : Nat
  nKwonlyArgs : Nat
  nDefPosArgs : Nat
  deriving DecidableEq, Repr

/-- The bits of one more byte: xFSSKAED. -/
def sigByte (s e f a k d : Nat) : Nat :=
  (f &&& 1) <<< 6 ||| (s &&& 3) <<< 4 ||| (k &&& 1) <<< 3 ||| (a &&& 1) <<< 2 ||| (e &&& 1) <<< 1 ||| (d &&& 1)

/-- The loop of `MP_BC_PRELUDE_SIG_ENCODE`, with the byte to write next. -/
def sigEncodeFrom : Nat → Nat → Nat → Nat → Nat → Nat → Nat → Nat → List Nat
  | 0, z, _, _, _, _, _, _ => [z]
  | fuel + 1, z, s, e, f, a, k, d =>
    if s ||| e ||| f ||| a ||| k ||| d ≠ 0 then
      (0x80 ||| z) :: sigEncodeFrom fuel (sigByte s e f a k d) (s >>> 2) (e >>> 1) (f >>> 1) (a >>> 1) (k >>> 1) (d >>> 1)
    else [z]

/-- `MP_BC_PRELUDE_SIG_ENCODE`; the first byte is xSSSSEAA. -/
def sigEncode (x : Sig) : List Nat :=
  let s := x.nState - 1
  sigEncodeFrom (s + x.nExcStack + x.scopeFlags + x.nPosArgs + x.nKwonlyArgs + x.nDefPosArgs + 1)
    ((s &&& 0xf) <<< 3 ||| (x.nExcStack &&& 1) <<< 2 ||| (x.nPosArgs &&& 3))
    (s >>> 4) (x.nExcStack >>> 1) x.scopeFlags (x.nPosArgs >>> 2) x.nKwonlyArgs x.nDefPosArgs

/-- The loop of `MP_BC_PRELUDE_SIG_DECODE_INTO`: `z` is the byte read last. -/
def sigDecodeFrom : List Nat → Nat → Nat → Sig → Sig × List Nat
  | [], _, _, x => (x, [])
  | z' :: ip, n, z, x =>
    if z &&& 0x80 ≠ 0 then
      sigDecodeFrom ip (n + 1) z'
        { nState := x.nState ||| (z' &&& 0x30) <<< (2 * n)
          nExcStack := x.nExcStack ||| (z' &&& 0x02) <<< n
          scopeFlags := x.scopeFlags ||| ((z' &&& 0x40) >>> 6) <<< n
          nPosArgs := x.nPosArgs ||| (z' &&& 0x4) <<< n
          nKwonlyArgs := x.nKwonlyArgs ||| ((z' &&& 0x08) >>> 3) <<< n
          nDefPosArgs := x.nDefPosArgs ||| (z' &&& 0x1) <<< n }
    else (x, z' :: ip)

/-- `MP_BC_PRELUDE_SIG_DECODE_INTO`: the signature, and what follows it. -/
def sigDecode : List Nat → Sig × List Nat
  | [] => (⟨1, 0, 0, 0, 0, 0⟩, [])
  | z :: ip =>
    let (x, ip) := sigDecodeFrom ip 0 z ⟨(z >>> 3) &&& 0xf, (z >>> 2) &&& 0x1, 0, z &&& 0x3, 0, 0⟩
    ({ x with nState := x.nState + 1 }, ip)

set_option synthInstance.maxSize 400 in
/-- Each field of a byte as the decoder takes it out, with the mark or without. -/
theorem sigByte_bits : ∀ (s : Fin 4) (e f a k d : Fin 2),
    ∀ z ∈ [sigByte s e f a k d, 0x80 ||| sigByte s e f a k d],
      z &&& 0x30 = s.val <<< 4 ∧ z &&& 0x02 = e.val <<< 1 ∧ (z &&& 0x40) >>> 6 = f ∧ z &&& 0x4 = a.val <<< 2 ∧
        (z &&& 0x08) >>> 3 = k ∧ z &&& 0x1 = d := by
  decide

theorem sigByte_mark : ∀ (s : Fin 4) (e f a k d : Fin 2),
    sigByte s e f a k d &&& 0x80 = 0 ∧ (0x80 ||| sigByte s e f a k d) &&& 0x80 ≠ 0 := by
  decide

theorem and_one (n : Nat) : n &&& 1 = n % 2 := Nat.and_two_pow_sub_one_eq_mod n 1

theorem and_three (n : Nat) : n &&& 3 = n % 4 := Nat.and_two_pow_sub_one_eq_mod n 2

theorem sigByte_mod (s e f a k d : Nat) :
    sigByte s e f a k d = sigByte (s % 4) (e % 2) (f % 2) (a % 2) (k % 2) (d % 2) := by
  unfold sigByte
  simp only [and_one, and_three, Nat.mod_mod]

/-- What has been decoded when `n` more bytes have been read: `x`, with the rest of each field still to come. -/
structure SigPart (n : Nat) (x : Sig) (s e f a k d : Nat) (t : Sig) : Prop where
  state : Part (4 + 2 * n) x.nState s t.nState
  exc : Part (1 + n) x.nExcStack e t.nExcStack
  flags : Part n x.scopeFlags f t.scopeFlags
  pos : Part (2 + n) x.nPosArgs a t.nPosArgs
  kwonly : Part n x.nKwonlyArgs k t.nKwonlyArgs
  default : Part n x.nDefPosArgs d t.nDefPosArgs

theorem shiftLeft_shiftLeft (b i j : Nat) : (b <<< i) <<< j = b <<< (i + j) := (Nat.shiftLeft_add b i j).symm

theorem sigDecodeFrom_spec (fuel : Nat) : ∀ (n z s e f a k d : Nat) (x t : Sig) (rest : List Nat),
    s + e + f + a + k + d < fuel → SigPart n x s e f a k d t → z &&& 0x80 = 0 → (0x80 ||| z) &&& 0x80 ≠ 0 →
    ∃ z' bytes, sigEncodeFrom fuel z s e f a k d = z' :: bytes ∧ (z' = z ∨ z' = 0x80 ||| z) ∧
      ∀ b, sigDecodeFrom (bytes ++ b :: rest) n z' x = (t, b :: rest) := by
  induction fuel with
  | zero => exact fun n z s e f a k d x t rest h => absurd h (Nat.not_lt_zero _)
  | succ fuel ih =>
    intro n z s e f a k d x t rest hfuel hp hz hz'
    rw [sigEncodeFrom]
    split
    · rename_i hmore
      have hpos : 0 < s + e + f + a + k + d := by
        by_contra h0
        have : s = 0 ∧ e = 0 ∧ f = 0 ∧ a = 0 ∧ k = 0 ∧ d = 0 := by omega
        obtain ⟨rfl, rfl, rfl, rfl, rfl, rfl⟩ := this
        exact hmore rfl
      have bit : ∀ r, r % 2 < 2 := fun r => Nat.mod_lt r (by decide)
      have hs4 := Nat.mod_lt s (show 0 < 4 by decide)
      have hbits := sigByte_bits ⟨_, hs4⟩ ⟨_, bit e⟩ ⟨_, bit f⟩ ⟨_, bit a⟩ ⟨_, bit k⟩ ⟨_, bit d⟩
      obtain ⟨hm, hm'⟩ := sigByte_mark ⟨_, hs4⟩ ⟨_, bit e⟩ ⟨_, bit f⟩ ⟨_, bit a⟩ ⟨_, bit k⟩ ⟨_, bit d⟩
      simp only [← sigByte_mod] at hbits hm hm'
      -- the part decoded once this byte is read
      have hnext : ∀ z', z' ∈ [sigByte s e f a k d, 0x80 ||| sigByte s e f a k d] → SigPart (n + 1)
          { nState := x.nState ||| (z' &&& 0x30) <<< (2 * n), nExcStack := x.nExcStack ||| (z' &&& 0x02) <<< n,
            scopeFlags := x.scopeFlags ||| ((z' &&& 0x40) >>> 6) <<< n, nPosArgs := x.nPosArgs ||| (z' &&& 0x4) <<< n,
            nKwonlyArgs := x.nKwonlyArgs ||| ((z' &&& 0x08) >>> 3) <<< n,
            nDefPosArgs := x.nDefPosArgs ||| (z' &&& 0x1) <<< n }
          (s >>> 2) (e >>> 1) (f >>> 1) (a >>> 1) (k >>> 1) (d >>> 1) t := by
        intro z' hmem
        obtain ⟨h1, h2, h3, h4, h5, h6⟩ := hbits z' hmem
        simp only [h1, h2, h3, h4, h5, h6, Nat.shiftRight_eq_div_pow, shiftLeft_shiftLeft]
        exact ⟨hp.state.next 2, hp.exc.next 1, hp.flags.next 1, hp.pos.next 1, hp.kwonly.next 1, hp.default.next 1⟩
      have hdec : s >>> 2 + e >>> 1 + f >>> 1 + a >>> 1 + k >>> 1 + d >>> 1 < fuel := by
        simp only [Nat.shiftRight_eq_div_pow]
        omega
      -- which of the two bytes comes does not change what is read from it
      have hsame : ∀ z', z' ∈ [sigByte s e f a k d, 0x80 ||| sigByte s e f a k d] →
          ({ nState := x.nState ||| (z' &&& 0x30) <<< (2 * n), nExcStack := x.nExcStack ||| (z' &&& 0x02) <<< n,
             scopeFlags := x.scopeFlags ||| ((z' &&& 0x40) >>> 6) <<< n, nPosArgs := x.nPosArgs ||| (z' &&& 0x4) <<< n,
             nKwonlyArgs := x.nKwonlyArgs ||| ((z' &&& 0x08) >>> 3) <<< n,
             nDefPosArgs := x.nDefPosArgs ||| (z' &&& 0x1) <<< n } : Sig) =
          { nState := x.nState ||| (sigByte s e f a k d &&& 0x30) <<< (2 * n),
            nExcStack := x.nExcStack ||| (sigByte s e f a k d &&& 0x02) <<< n,
            scopeFlags := x.scopeFlags ||| ((sigByte s e f a k d &&& 0x40) >>> 6) <<< n,
            nPosArgs := x.nPosArgs ||| (sigByte s e f a k d &&& 0x4) <<< n,
            nKwonlyArgs := x.nKwonlyArgs ||| ((sigByte s e f a k d &&& 0x08) >>> 3) <<< n,
            nDefPosArgs := x.nDefPosArgs ||| (sigByte s e f a k d &&& 0x1) <<< n } := by
        intro z' hmem
        obtain ⟨h1, h2, h3, h4, h5, h6⟩ := hbits z' hmem
        obtain ⟨g1, g2, g3, g4, g5, g6⟩ := hbits (sigByte s e f a k d) (by simp)
        rw [h1, h2, h3, h4, h5, h6, g1, g2, g3, g4, g5, g6]
      obtain ⟨z', bytes, henc, hzz, hrun⟩ := ih (n + 1) (sigByte s e f a k d) _ _ _ _ _ _ _ t rest hdec
        (hnext (sigByte s e f a k d) (by simp)) hm hm'
      refine ⟨0x80 ||| z, z' :: bytes, by rw [henc], Or.inr rfl, fun b => ?_⟩
      have hmem : z' ∈ [sigByte s e f a k d, 0x80 ||| sigByte s e f a k d] := by
        rcases hzz with rfl | rfl <;> simp
      rw [List.cons_append, sigDecodeFrom, if_pos hz', hsame z' hmem]
      exact hrun b
    · rename_i hdone
      have hzero : s = 0 ∧ e = 0 ∧ f = 0 ∧ a = 0 ∧ k = 0 ∧ d = 0 := by
        have hor := not_not.mp hdone
        simpa [Nat.or_eq_zero_iff, and_assoc] using hor
      obtain ⟨rfl, rfl, rfl, rfl, rfl, rfl⟩ := hzero
      refine ⟨z, [], rfl, Or.inl rfl, fun b => ?_⟩
      have hx : x = t := by
        cases x
        cases t
        simp only [Sig.mk.injEq]
        exact ⟨hp.state.done, hp.exc.done, hp.flags.done, hp.pos.done, hp.kwonly.done, hp.default.done⟩
      rw [List.nil_append, sigDecodeFrom, if_neg (by rw [hz]; simp), hx]

theorem sigFirst_bits : ∀ s < 16, ∀ e < 2, ∀ a < 4, ∀ z ∈ [s <<< 3 ||| e <<< 2 ||| a, 0x80 ||| (s <<< 3 ||| e <<< 2 ||| a)],
    (z >>> 3) &&& 0xf = s ∧ (z >>> 2) &&& 0x1 = e ∧ z &&& 0x3 = a := by
  decide

theorem sigFirst_mark : ∀ s < 16, ∀ e < 2, ∀ a < 4,
    (s <<< 3 ||| e <<< 2 ||| a) &&& 0x80 = 0 ∧ (0x80 ||| (s <<< 3 ||| e <<< 2 ||| a)) &&& 0x80 ≠ 0 := by
  decide

/-- A signature is read back as it was written, whatever follows it. -/
theorem sigDecode_sigEncode (x : Sig) (hx : 0 < x.nState) (b : Nat) (rest : List Nat) :
    sigDecode (sigEncode x ++ b :: rest) = (x, b :: rest) := by
  have h15 : ∀ n, n &&& 0xf = n % 16 := fun n => Nat.and_two_pow_sub_one_eq_mod n 4
  have hs := Nat.mod_lt (x.nState - 1) (show 0 < 16 by decide)
  have he := Nat.mod_lt x.nExcStack (show 0 < 2 by decide)
  have ha := Nat.mod_lt x.nPosArgs (show 0 < 4 by decide)
  obtain ⟨hm, hm'⟩ := sigFirst_mark _ hs _ he _ ha
  have hpart : SigPart 0 ⟨(x.nState - 1) % 16, x.nExcStack % 2, 0, x.nPosArgs % 4, 0, 0⟩
      ((x.nState - 1) >>> 4) (x.nExcStack >>> 1) x.scopeFlags (x.nPosArgs >>> 2) x.nKwonlyArgs x.nDefPosArgs
      { x with nState := x.nState - 1 } := by
    have hsplit : ∀ k r, Part k (r % 2 ^ k) (r / 2 ^ k) r := by
      intro k r
      refine ⟨Nat.mod_lt _ (Nat.two_pow_pos k), ?_⟩
      have := Nat.div_add_mod r (2 ^ k)
      rw [Nat.mul_comm] at this
      omega
    simp only [Nat.shiftRight_eq_div_pow]
    exact ⟨hsplit 4 _, hsplit 1 _, .start _, hsplit 2 _, .start _, .start _⟩
  unfold sigEncode
  simp only [h15, and_one, and_three]
  obtain ⟨z', bytes, henc, hzz, hrun⟩ := sigDecodeFrom_spec
    (x.nState - 1 + x.nExcStack + x.scopeFlags + x.nPosArgs + x.nKwonlyArgs + x.nDefPosArgs + 1) 0
    (((x.nState - 1) % 16) <<< 3 ||| (x.nExcStack % 2) <<< 2 ||| x.nPosArgs % 4) _ _ _ _ _ _ _ _ rest
    (by simp only [Nat.shiftRight_eq_div_pow]; omega) hpart hm hm'
  have hmem : z' ∈ [((x.nState - 1) % 16) <<< 3 ||| (x.nExcStack % 2) <<< 2 ||| x.nPosArgs % 4,
      0x80 ||| (((x.nState - 1) % 16) <<< 3 ||| (x.nExcStack % 2) <<< 2 ||| x.nPosArgs % 4)] := by
    rcases hzz with rfl | rfl <;> simp
  obtain ⟨h1, h2, h3⟩ := sigFirst_bits _ hs _ he _ ha z' hmem
  rw [henc, List.cons_append, sigDecode]
  simp only [h1, h2, h3, hrun b]
  cases x
  simp only [Prod.mk.injEq, Sig.mk.injEq, and_true]
  simp only at hx
  omega

/-! ## The sizes of the sections -/

/-- The loop of `MP_BC_PRELUDE_SIZE_ENCODE`; a byte is xIIIIIIC. -/
def sizeEncodeFrom : Nat → Nat → Nat → List Nat
  | 0, _, _ => []
  | fuel + 1, i, c =>
    let z := (i &&& 0x3f) <<< 1 ||| (c &&& 1)
    if c >>> 1 ||| i >>> 6 ≠ 0 then (z ||| 0x80) :: sizeEncodeFrom fuel (i >>> 6) (c >>> 1) else [z]

/-- `MP_BC_PRELUDE_SIZE_ENCODE`. -/
def sizeEncode (nInfo nCell : Nat) : List Nat := sizeEncodeFrom (nInfo + nCell + 1) nInfo nCell

/-- The loop of `MP_BC_PRELUDE_SIZE_DECODE_INTO`. -/
def sizeDecodeFrom : List Nat → Nat → Nat → Nat → (Nat × Nat) × List Nat
  | [], _, i, c => ((i, c), [])
  | z :: ip, n, i, c =>
    let c := c ||| (z &&& 1) <<< n
    let i := i ||| ((z &&& 0x7e) >>> 1) <<< (6 * n)
    if z &&& 0x80 = 0 then ((i, c), ip) else sizeDecodeFrom ip (n + 1) i c

/-- `MP_BC_PRELUDE_SIZE_DECODE_INTO`: `n_info` and `n_cell`, and what follows them. -/
def sizeDecode (ip : List Nat) : (Nat × Nat) × List Nat := sizeDecodeFrom ip 0 0 0

theorem sizeByte_bits : ∀ (i : Fin 64) (c : Fin 2), ∀ z ∈ [i.val <<< 1 ||| c.val, (i.val <<< 1 ||| c.val) ||| 0x80],
    z &&& 1 = c ∧ (z &&& 0x7e) >>> 1 = i := by
  decide

theorem sizeByte_mark : ∀ (i : Fin 64) (c : Fin 2),
    (i.val <<< 1 ||| c.val) &&& 0x80 = 0 ∧ ((i.val <<< 1 ||| c.val) ||| 0x80) &&& 0x80 ≠ 0 := by
  decide

theorem sizeDecodeFrom_spec (fuel : Nat) : ∀ (n i c x y I C : Nat) (rest : List Nat), i + c < fuel →
    Part (6 * n) x i I → Part n y c C → sizeDecodeFrom (sizeEncodeFrom fuel i c ++ rest) n x y = ((I, C), rest) := by
  induction fuel with
  | zero => exact fun n i c x y I C rest h => absurd h (Nat.not_lt_zero _)
  | succ fuel ih =>
    intro n i c x y I C rest hfuel hx hy
    have h63 : i &&& 0x3f = i % 64 := Nat.and_two_pow_sub_one_eq_mod i 6
    have hi := Nat.mod_lt i (show 0 < 64 by decide)
    have hc := Nat.mod_lt c (show 0 < 2 by decide)
    have hbits := sizeByte_bits ⟨_, hi⟩ ⟨_, hc⟩
    obtain ⟨hm, hm'⟩ := sizeByte_mark ⟨_, hi⟩ ⟨_, hc⟩
    have hx' := hx.next 6
    have hy' := hy.next 1
    rw [sizeEncodeFrom]
    simp only [h63, and_one, Nat.shiftRight_eq_div_pow] at *
    split
    · rename_i hmore
      obtain ⟨h1, h2⟩ := hbits _ (List.mem_cons_of_mem _ List.mem_cons_self)
      rw [List.cons_append, sizeDecodeFrom]
      simp only [and_one, Nat.shiftRight_eq_div_pow, h1, h2]
      rw [if_neg hm']
      refine ih (n + 1) _ _ _ _ I C rest ?_ hx' hy'
      have : 0 < c / 2 ^ 1 ∨ 0 < i / 2 ^ 6 := by
        by_contra h0
        have hz : c / 2 ^ 1 = 0 ∧ i / 2 ^ 6 = 0 := by omega
        rw [hz.1, hz.2] at hmore
        exact hmore rfl
      omega
    · rename_i hdone
      obtain ⟨h1, h2⟩ := hbits _ List.mem_cons_self
      have hzero : c / 2 ^ 1 = 0 ∧ i / 2 ^ 6 = 0 := by simpa [Nat.or_eq_zero_iff] using hdone
      rw [List.cons_append, sizeDecodeFrom]
      simp only [and_one, Nat.shiftRight_eq_div_pow, h1, h2, List.nil_append]
      rw [if_pos hm]
      rw [hzero.2] at hx'
      rw [hzero.1] at hy'
      rw [show (2 : Nat) ^ 6 = 64 from rfl] at hx'
      rw [show (2 : Nat) ^ 1 = 2 from rfl] at hy'
      rw [hx'.done, hy'.done]

theorem sizeDecode_sizeEncode (nInfo nCell : Nat) (rest : List Nat) :
    sizeDecode (sizeEncode nInfo nCell ++ rest) = ((nInfo, nCell), rest) :=
  sizeDecodeFrom_spec _ 0 nInfo nCell 0 0 nInfo nCell rest (by omega) (.start _) (.start _)

theorem sizeEncode_ne_nil (nInfo nCell : Nat) : sizeEncode nInfo nCell ≠ [] := by
  unfold sizeEncode
  rw [sizeEncodeFrom]
  split <;> simp

end PythonUltra.Py
