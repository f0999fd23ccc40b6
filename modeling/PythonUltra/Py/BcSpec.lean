/-
  PythonUltra.Py.BcSpec — the variable-length fields decode to what was encoded.

  Numbers and small ints do for every word. The counters of the prelude do where every shift of
  an `int` by which their bits are put together is one that C defines: there the decoders are
  those of `Prelude`. Elsewhere some compiler's answer is another number.
-/

import Mathlib.Data.Nat.Bitwise
import PythonUltra.Py.Bc

namespace PythonUltra.Py.Bc

section
variable {wordBits : Nat} {sh : IntShift}

/-! ## Shifts -/

/-- What C does not define is `v`. -/
def IntShift.orElse (v : Int) : IntShift where
  shl x n := if n < 32 ∧ x * 2 ^ n < 2 ^ 31 then x * 2 ^ n else v
  shl_eq hn hx := if_pos ⟨hn, hx⟩

theorem orShl_eq (hw : 32 ≤ wordBits) {r x n : Nat} (hn : n < 32) (hx : x * 2 ^ n < 2 ^ 31) : orShl wordBits sh r x n = r ||| x <<< n := by
  have hpow : (2 : Nat) ^ 31 < 2 ^ wordBits := Nat.pow_lt_pow_right (by decide) (by omega)
  have hcast : (x : Int) * 2 ^ n = (x * 2 ^ n : Nat) := by push_cast; rfl
  unfold orShl
  rw [sh.shl_eq hn hx, Nat.shiftLeft_eq, hcast]
  congr 1
  exact wordOf_natCast (Nat.lt_trans hx hpow)

theorem or_ones {r : Nat} (hr : r < 2 ^ wordBits) : r ||| (2 ^ wordBits - 1) = 2 ^ wordBits - 1 := by
  refine Nat.eq_of_testBit_eq fun i => ?_
  rw [Nat.testBit_or, Nat.testBit_two_pow_sub_one]
  by_cases hi : i < wordBits
  · rw [decide_eq_true hi, Bool.or_true]
  · rw [decide_eq_false hi, Bool.or_false]
    exact Nat.testBit_lt_two_pow (Nat.lt_of_lt_of_le hr (Nat.pow_le_pow_right (by decide) (Nat.le_of_not_lt hi)))

/-- A shift that is not defined may set all bits, for good. -/
theorem orShl_ones (hw : 32 ≤ wordBits) {r x n : Nat} (hr : r = 2 ^ wordBits - 1 ∨ r < 2 ^ 31) :
    (orShl wordBits (.orElse (-1)) r x n = 2 ^ wordBits - 1) ∨
      (n < 32 ∧ r < 2 ^ 31 ∧ orShl wordBits (.orElse (-1)) r x n < 2 ^ 31) := by
  have hpow : (2 : Nat) ^ 31 < 2 ^ wordBits := Nat.pow_lt_pow_right (by decide) (by omega)
  by_cases hdef : n < 32 ∧ x * 2 ^ n < 2 ^ 31
  · rw [orShl_eq hw hdef.1 hdef.2]
    have hx : x <<< n < 2 ^ 31 := by rw [Nat.shiftLeft_eq]; exact hdef.2
    rcases hr with rfl | hr
    · left
      rw [Nat.or_comm]
      exact or_ones (Nat.lt_trans hx hpow)
    · exact .inr ⟨hdef.1, hr, Nat.or_lt_two_pow hr hx⟩
  · left
    have hword : orShl wordBits (.orElse (-1)) r x n = r ||| (2 ^ wordBits - 1) := by
      show r ||| ((if n < 32 ∧ x * 2 ^ n < 2 ^ 31 then (x : Int) * 2 ^ n else -1) % 2 ^ wordBits).toNat = _
      have hcast : ((2 ^ wordBits : Nat) : Int) = 2 ^ wordBits := by push_cast; rfl
      have hmod : (-1 : Int) % 2 ^ wordBits = 2 ^ wordBits - 1 := by
        rw [← Int.add_emod_right, Int.emod_eq_of_lt (by omega) (by omega)]
        ring
      rw [if_neg hdef, hmod]
      congr 1
      omega
    rw [hword]
    exact or_ones (by omega)

/-! ## The signature -/

/-- No shift of the decoder goes over an `int`. -/
structure SigFits (x : Sig) : Prop where
  nState : x.nState ≤ 2 ^ 31
  nExcStack : x.nExcStack < 2 ^ 17
  scopeFlags : x.scopeFlags < 2 ^ 16
  nPosArgs : x.nPosArgs < 2 ^ 18
  nKwonlyArgs : x.nKwonlyArgs < 2 ^ 16
  nDefPosArgs : x.nDefPosArgs < 2 ^ 16

/-- So many bytes for so many bits. -/
theorem sigEncodeFrom_length {m fuel z s e f a k d : Nat} (hfuel : s + e + f + a + k + d < fuel) :
    (sigEncodeFrom fuel z s e f a k d).length ≤ m + 1 ↔ s < 4 ^ m ∧ e < 2 ^ m ∧ f < 2 ^ m ∧ a < 2 ^ m ∧ k < 2 ^ m ∧ d < 2 ^ m := by
  induction fuel generalizing m z s e f a k d with
  | zero => exact absurd hfuel (Nat.not_lt_zero _)
  | succ fuel ih =>
    have hzero : s ||| e ||| f ||| a ||| k ||| d = 0 ↔ s = 0 ∧ e = 0 ∧ f = 0 ∧ a = 0 ∧ k = 0 ∧ d = 0 := by
      simp [and_assoc]
    rw [sigEncodeFrom]
    by_cases hmore : s ||| e ||| f ||| a ||| k ||| d ≠ 0
    · have hpos : 0 < s + e + f + a + k + d := by
        refine Nat.pos_of_ne_zero fun hsum => hmore (hzero.mpr ?_)
        simpa only [Nat.add_eq_zero_iff, and_assoc] using hsum
      rw [if_pos hmore, List.length_cons]
      simp only [Nat.shiftRight_eq_div_pow]
      cases m with
      | zero =>
        have hne : ∀ l : List Nat, l ≠ [] → ¬ l.length + 1 ≤ 0 + 1 := by
          intro l hl
          have hpos := List.length_pos_iff.mpr hl
          omega
        refine iff_of_false (hne _ ?_) ?_
        · cases fuel with
          | zero => exact List.cons_ne_nil _ _
          | succ fuel =>
            rw [sigEncodeFrom]
            split
            · exact List.cons_ne_nil _ _
            · exact List.cons_ne_nil _ _
        · rintro ⟨hs, he, hf, ha, hk, hd⟩
          clear * - hpos hs he hf ha hk hd
          omega
      | succ m =>
        -- Each field loses its low bits, and one of them was not zero.
        have hless : s / 2 ^ 2 + e / 2 ^ 1 + f / 2 ^ 1 + a / 2 ^ 1 + k / 2 ^ 1 + d / 2 ^ 1 < fuel := by
          clear * - hfuel hpos
          omega
        have hquarter : s / 2 ^ 2 < 4 ^ m ↔ s < 4 ^ m * 4 := Nat.div_lt_iff_lt_mul (by decide)
        have hhalf : ∀ x : Nat, x / 2 ^ 1 < 2 ^ m ↔ x < 2 ^ m * 2 := fun x => Nat.div_lt_iff_lt_mul (by decide)
        rw [Nat.add_le_add_iff_right, @ih m (sigByte s e f a k d) _ _ _ _ _ _ hless, pow_succ 4 m, pow_succ 2 m]
        simp only [hquarter, hhalf]
    · obtain ⟨rfl, rfl, rfl, rfl, rfl, rfl⟩ := hzero.mp (not_not.mp hmore)
      rw [if_neg hmore]
      exact iff_of_true (Nat.le_add_left 1 m) ⟨Nat.pow_pos (by decide), Nat.two_pow_pos m, Nat.two_pow_pos m, Nat.two_pow_pos m, Nat.two_pow_pos m, Nat.two_pow_pos m⟩

theorem sigFits_iff (x : Sig) (hx : 1 ≤ x.nState) : SigFits x ↔ x.nState ≤ 2 ^ 31 ∧ (sigEncode x).length ≤ 17 := by
  have hlen := @sigEncodeFrom_length 16 (x.nState - 1 + x.nExcStack + x.scopeFlags + x.nPosArgs + x.nKwonlyArgs + x.nDefPosArgs + 1)
    (((x.nState - 1) &&& 0xf) <<< 3 ||| (x.nExcStack &&& 1) <<< 2 ||| (x.nPosArgs &&& 3)) ((x.nState - 1) >>> 4) (x.nExcStack >>> 1) x.scopeFlags
    (x.nPosArgs >>> 2) x.nKwonlyArgs x.nDefPosArgs (by simp only [Nat.shiftRight_eq_div_pow]; omega)
  have hbytes : (sigEncode x).length ≤ 17 ↔ _ := hlen
  rw [hbytes]
  simp only [Nat.shiftRight_eq_div_pow]
  constructor
  · intro h
    have := h.nState
    have := h.nExcStack
    have := h.nPosArgs
    exact ⟨h.nState, by omega, by omega, h.scopeFlags, by omega, h.nKwonlyArgs, h.nDefPosArgs⟩
  · intro h
    exact ⟨h.1, by omega, h.2.2.2.1, by omega, h.2.2.2.2.2.1, h.2.2.2.2.2.2⟩

/-- The loop of `Prelude` goes forward, and only sets bits. -/
theorem sigDecodeFrom_grows (ip : List Nat) (n z : Nat) (x : Sig) :
    (sigDecodeFrom ip n z x).2.length ≤ ip.length ∧ x.nState ≤ (sigDecodeFrom ip n z x).1.nState := by
  induction ip generalizing n z x with
  | nil => exact ⟨Nat.le_refl _, Nat.le_refl _⟩
  | cons z' ip ih =>
    rw [sigDecodeFrom]
    split
    · obtain ⟨hlen, hstate⟩ := ih (n + 1) z' _
      exact ⟨Nat.le_succ_of_le hlen, Nat.le_trans Nat.left_le_or hstate⟩
    · exact ⟨Nat.le_refl _, Nat.le_refl _⟩

/-- Where every shift is defined, it is the loop of `Prelude`. -/
theorem sigDecodeLoop_eq (hw : 32 ≤ wordBits) {ip rest : List Nat} {n z b : Nat} {x t : Sig} (hrun : sigDecodeFrom (ip ++ b :: rest) n z x = (t, b :: rest))
    (hstate : t.nState < 2 ^ 31) (hn : n + ip.length ≤ 16) : sigDecodeLoop wordBits sh (ip ++ rest) n z x = some (t, rest) := by
  induction ip generalizing n z x with
  | nil =>
    rw [List.nil_append, sigDecodeFrom] at hrun
    by_cases hmore : z &&& 0x80 ≠ 0
    · rw [if_pos hmore] at hrun
      have hlen := (sigDecodeFrom_grows rest (n + 1) b
        { nState := x.nState ||| (b &&& 0x30) <<< (2 * n)
          nExcStack := x.nExcStack ||| (b &&& 0x02) <<< n
          scopeFlags := x.scopeFlags ||| ((b &&& 0x40) >>> 6) <<< n
          nPosArgs := x.nPosArgs ||| (b &&& 0x4) <<< n
          nKwonlyArgs := x.nKwonlyArgs ||| ((b &&& 0x08) >>> 3) <<< n
          nDefPosArgs := x.nDefPosArgs ||| (b &&& 0x1) <<< n }).1
      rw [hrun, List.length_cons] at hlen
      omega
    · rw [if_neg hmore, Prod.mk.injEq] at hrun
      rw [List.nil_append, hrun.1.symm]
      cases rest with
      | nil => exact if_neg hmore
      | cons c rest => exact if_neg hmore
  | cons z' ip ih =>
    rw [List.cons_append, sigDecodeFrom] at hrun
    by_cases hmore : z &&& 0x80 ≠ 0
    · rw [if_pos hmore] at hrun
      have hgrow := (sigDecodeFrom_grows (ip ++ b :: rest) (n + 1) z'
        { nState := x.nState ||| (z' &&& 0x30) <<< (2 * n)
          nExcStack := x.nExcStack ||| (z' &&& 0x02) <<< n
          scopeFlags := x.scopeFlags ||| ((z' &&& 0x40) >>> 6) <<< n
          nPosArgs := x.nPosArgs ||| (z' &&& 0x4) <<< n
          nKwonlyArgs := x.nKwonlyArgs ||| ((z' &&& 0x08) >>> 3) <<< n
          nDefPosArgs := x.nDefPosArgs ||| (z' &&& 0x1) <<< n }).2
      rw [hrun] at hgrow
      rw [List.length_cons] at hn
      have hbits : (z' &&& 0x30) * 2 ^ (2 * n) < 2 ^ 31 := by
        rw [← Nat.shiftLeft_eq]
        exact Nat.lt_of_le_of_lt (Nat.le_trans Nat.right_le_or hgrow) hstate
      -- a bit of another counter, at most the 18th
      have hbit : ∀ y, y ≤ 4 → y * 2 ^ n < 2 ^ 31 := by
        intro y hy
        calc y * 2 ^ n ≤ 4 * 2 ^ 15 := Nat.mul_le_mul hy (Nat.pow_le_pow_right (by decide) (by omega))
          _ < 2 ^ 31 := by decide
      have hone : ∀ m k, m >>> k ≤ 1 → m >>> k ≤ 4 := fun m k h => Nat.le_trans h (by decide)
      have hflag : (z' &&& 0x40) >>> 6 ≤ 1 := by
        have := Nat.and_le_right (n := z') (m := 0x40)
        rw [Nat.shiftRight_eq_div_pow]
        omega
      have hkw : (z' &&& 0x08) >>> 3 ≤ 1 := by
        have := Nat.and_le_right (n := z') (m := 0x08)
        rw [Nat.shiftRight_eq_div_pow]
        omega
      rw [List.cons_append, sigDecodeLoop, if_pos hmore, orShl_eq hw (by omega) hbits, orShl_eq hw (by omega) (hbit _ (Nat.le_trans Nat.and_le_right (by decide))),
        orShl_eq hw (by omega) (hbit _ (hone _ _ hflag)), orShl_eq hw (by omega) (hbit _ Nat.and_le_right), orShl_eq hw (by omega) (hbit _ (hone _ _ hkw)),
        orShl_eq hw (by omega) (hbit _ (Nat.le_trans Nat.and_le_right (by decide)))]
      exact ih hrun (by omega)
    · rw [if_neg hmore, Prod.mk.injEq] at hrun
      have hlen := congrArg List.length hrun.2
      rw [List.length_cons, List.length_append] at hlen
      omega

/-- Where the compiler sets all bits, the state is right only if no shift went over. -/
theorem sigDecodeLoop_ones (hw : 32 ≤ wordBits) {ip rest : List Nat} {n z : Nat} {x t : Sig} (hrun : sigDecodeLoop wordBits (.orElse (-1)) ip n z x = some (t, rest))
    (hx : x.nState = 2 ^ wordBits - 1 ∨ x.nState < 2 ^ 31 ∧ n ≤ 16) :
    t.nState = 2 ^ wordBits - 1 ∨ t.nState < 2 ^ 31 ∧ n + ip.length ≤ 16 + rest.length := by
  induction ip generalizing n z x with
  | nil =>
    rw [sigDecodeLoop] at hrun
    split at hrun
    · cases hrun
    · cases hrun
      exact hx.imp_right fun h => ⟨h.1, by rw [List.length_nil]; omega⟩
  | cons z' ip ih =>
    rw [sigDecodeLoop] at hrun
    split at hrun
    · have hnext := ih hrun (by
        rcases orShl_ones (x := z' &&& 0x30) (n := 2 * n) hw (hx.imp_right fun h => h.1) with h | ⟨hn, -, hlt⟩
        · exact .inl h
        · exact .inr ⟨hlt, by omega⟩)
      exact hnext.imp_right fun h => ⟨h.1, by rw [List.length_cons]; omega⟩
    · cases hrun
      exact hx.imp_right fun h => ⟨h.1, by omega⟩

theorem sigEncode_cons (x : Sig) : ∃ z ip, sigEncode x = z :: ip := by
  refine List.exists_cons_of_ne_nil ?_
  unfold sigEncode
  rw [sigEncodeFrom]
  split
  · exact List.cons_ne_nil _ _
  · exact List.cons_ne_nil _ _

/-- Whatever the compiler does with other shifts, a signature is read as it was written if and only
if there are none. -/
theorem sigDecodeInto_iff (hw : 32 ≤ wordBits) {x : Sig} (hx : 1 ≤ x.nState) (hx' : x.nState < 2 ^ wordBits) (rest : List Nat) :
    (∀ sh, sigDecodeInto wordBits sh (sigEncode x ++ rest) = some (x, rest)) ↔ SigFits x := by
  have hpow : (2 : Nat) ^ 31 < 2 ^ wordBits := Nat.pow_lt_pow_right (by decide) (by omega)
  obtain ⟨z, ip, henc⟩ := sigEncode_cons x
  rw [sigFits_iff x hx, henc, List.length_cons]
  constructor
  · intro hall
    have hrun := hall (.orElse (-1))
    rw [List.cons_append, sigDecodeInto] at hrun
    obtain ⟨⟨t, r⟩, hloop, hlast⟩ := Option.bind_eq_some_iff.mp hrun
    obtain ⟨hstate, rfl⟩ := Prod.mk.inj (Option.some.inj hlast)
    have hstate := congrArg Sig.nState hstate
    have hfirst : (z >>> 3) &&& 0xf < 2 ^ 31 := Nat.lt_of_le_of_lt Nat.and_le_right (by decide)
    change word wordBits (t.nState + 1) = x.nState at hstate
    rcases sigDecodeLoop_ones hw hloop (.inr ⟨hfirst, by decide⟩) with hones | ⟨hlt, hlen⟩
    · rw [hones, show 2 ^ wordBits - 1 + 1 = 2 ^ wordBits by omega, word, Nat.mod_self] at hstate
      omega
    · rw [word, Nat.mod_eq_of_lt (by omega)] at hstate
      rw [List.length_append] at hlen
      omega
  · intro hfits sh
    have hprelude := sigDecode_sigEncode x hx 0 rest
    rw [henc, List.cons_append, sigDecode] at hprelude
    obtain ⟨⟨t, r⟩, ht⟩ : ∃ t, sigDecodeFrom (ip ++ 0 :: rest) 0 z ⟨(z >>> 3) &&& 0xf, (z >>> 2) &&& 0x1, 0, z &&& 0x3, 0, 0⟩ = t := ⟨_, rfl⟩
    rw [ht] at hprelude
    obtain ⟨hsig, rfl⟩ := Prod.mk.inj hprelude
    have hstate : t.nState + 1 = x.nState := congrArg Sig.nState hsig
    rw [List.cons_append, sigDecodeInto, sigDecodeLoop_eq hw ht (by omega) (by omega)]
    refine congrArg some (Prod.ext ?_ rfl)
    show ({ t with nState := word wordBits (t.nState + 1) } : Sig) = x
    rw [hstate, word, Nat.mod_eq_of_lt hx', ← hstate]
    exact hsig

/-! ## The sizes of the sections -/

theorem sizeEncodeFrom_length {m fuel i c : Nat} (hfuel : i + c < fuel) :
    (sizeEncodeFrom fuel i c).length ≤ m + 1 ↔ i < 64 ^ (m + 1) ∧ c < 2 ^ (m + 1) := by
  induction fuel generalizing m i c with
  | zero => exact absurd hfuel (Nat.not_lt_zero _)
  | succ fuel ih =>
    have hzero : c >>> 1 ||| i >>> 6 = 0 ↔ c / 2 = 0 ∧ i / 64 = 0 := by
      rw [Nat.or_eq_zero_iff, Nat.shiftRight_eq_div_pow, Nat.shiftRight_eq_div_pow]
    rw [sizeEncodeFrom]
    by_cases hmore : c >>> 1 ||| i >>> 6 ≠ 0
    · have hne := mt hzero.mpr hmore
      rw [if_pos hmore, List.length_cons, Nat.shiftRight_eq_div_pow, Nat.shiftRight_eq_div_pow]
      cases m with
      | zero =>
        have hpos : sizeEncodeFrom fuel (i / 2 ^ 6) (c / 2 ^ 1) ≠ [] := by
          cases fuel with
          | zero => omega
          | succ fuel =>
            rw [sizeEncodeFrom]
            split
            · exact List.cons_ne_nil _ _
            · exact List.cons_ne_nil _ _
        have hlen := List.length_pos_iff.mpr hpos
        exact iff_of_false (by omega) (by omega)
      | succ m =>
        rw [Nat.add_le_add_iff_right, ih (by omega), pow_succ 64 (m + 1), pow_succ 2 (m + 1)]
        omega
    · have hnone := hzero.mp (not_not.mp hmore)
      have hi : 64 ^ 1 ≤ 64 ^ (m + 1) := Nat.pow_le_pow_right (by decide) (Nat.le_add_left 1 m)
      have hc : 2 ^ 1 ≤ 2 ^ (m + 1) := Nat.pow_le_pow_right (by decide) (Nat.le_add_left 1 m)
      rw [if_neg hmore]
      exact iff_of_true (Nat.le_add_left 1 m) (by omega)

theorem sizeDecodeFrom_grows (ip : List Nat) (n i c : Nat) :
    (sizeDecodeFrom ip n i c).2.length ≤ ip.length - 1 ∧ i ≤ (sizeDecodeFrom ip n i c).1.1 := by
  induction ip generalizing n i c with
  | nil => exact ⟨Nat.le_refl _, Nat.le_refl _⟩
  | cons z ip ih =>
    rw [sizeDecodeFrom]
    split
    · exact ⟨Nat.le_refl _, Nat.left_le_or⟩
    · obtain ⟨hlen, hinfo⟩ := ih (n + 1) (i ||| ((z &&& 0x7e) >>> 1) <<< (6 * n)) (c ||| (z &&& 1) <<< n)
      exact ⟨by rw [List.length_cons]; omega, Nat.le_trans Nat.left_le_or hinfo⟩

theorem sizeDecodeLoop_eq (hw : 32 ≤ wordBits) {ip rest : List Nat} {n i c b I C : Nat}
    (hrun : sizeDecodeFrom (ip ++ b :: rest) n i c = ((I, C), b :: rest)) (hinfo : I < 2 ^ 31) (hn : n + ip.length ≤ 6) :
    sizeDecodeLoop wordBits sh (ip ++ rest) n i c = some ((I, C), rest) := by
  induction ip generalizing n i c with
  | nil =>
    have hlen := (sizeDecodeFrom_grows (b :: rest) n i c).1
    rw [List.nil_append] at hrun
    rw [hrun, List.length_cons] at hlen
    omega
  | cons z ip ih =>
    rw [List.cons_append, sizeDecodeFrom] at hrun
    rw [List.length_cons] at hn
    have hle : i ||| ((z &&& 0x7e) >>> 1) <<< (6 * n) ≤ I := by
      by_cases hlast : z &&& 0x80 = 0
      · rw [if_pos hlast] at hrun
        exact Nat.le_of_eq (congrArg (fun r => r.1.1) hrun)
      · rw [if_neg hlast] at hrun
        have hgrow := (sizeDecodeFrom_grows (ip ++ b :: rest) (n + 1) (i ||| ((z &&& 0x7e) >>> 1) <<< (6 * n)) (c ||| (z &&& 1) <<< n)).2
        rwa [hrun] at hgrow
    have hbits : ((z &&& 0x7e) >>> 1) * 2 ^ (6 * n) < 2 ^ 31 := by
      rw [← Nat.shiftLeft_eq]
      exact Nat.lt_of_le_of_lt (Nat.le_trans Nat.right_le_or hle) hinfo
    have hbit : (z &&& 1) * 2 ^ n < 2 ^ 31 :=
      calc (z &&& 1) * 2 ^ n ≤ 1 * 2 ^ 5 := Nat.mul_le_mul Nat.and_le_right (Nat.pow_le_pow_right (by decide) (by omega))
        _ < 2 ^ 31 := by decide
    rw [List.cons_append, sizeDecodeLoop, orShl_eq hw (by omega) hbits, orShl_eq hw (by omega) hbit]
    by_cases hlast : z &&& 0x80 = 0
    · rw [if_pos hlast] at hrun
      obtain ⟨hval, hrest⟩ := Prod.mk.inj hrun
      have hnil : ip = [] := by
        have hlen := congrArg List.length hrest
        rw [List.length_append] at hlen
        exact List.eq_nil_of_length_eq_zero (by omega)
      refine (if_pos hlast).trans ?_
      rw [hval, hnil, List.nil_append]
    · rw [if_neg hlast] at hrun
      exact (if_neg hlast).trans (ih hrun (by omega))

theorem sizeDecodeLoop_ones (hw : 32 ≤ wordBits) {ip rest : List Nat} {n i c I C : Nat}
    (hrun : sizeDecodeLoop wordBits (.orElse (-1)) ip n i c = some ((I, C), rest)) (hi : i = 2 ^ wordBits - 1 ∨ i < 2 ^ 31 ∧ n ≤ 6) :
    I = 2 ^ wordBits - 1 ∨ I < 2 ^ 31 ∧ n + ip.length ≤ 6 + rest.length := by
  induction ip generalizing n i c with
  | nil => cases hrun
  | cons z ip ih =>
    have hnext : (orShl wordBits (.orElse (-1)) i ((z &&& 0x7e) >>> 1) (6 * n) = 2 ^ wordBits - 1) ∨
        orShl wordBits (.orElse (-1)) i ((z &&& 0x7e) >>> 1) (6 * n) < 2 ^ 31 ∧ n + 1 ≤ 6 := by
      rcases orShl_ones (x := (z &&& 0x7e) >>> 1) (n := 6 * n) hw (hi.imp_right fun h => h.1) with h | ⟨hn, -, hlt⟩
      · exact .inl h
      · exact .inr ⟨hlt, by omega⟩
    rw [sizeDecodeLoop] at hrun
    by_cases hlast : z &&& 0x80 = 0
    · obtain ⟨hval, rfl⟩ := Prod.mk.inj (Option.some.inj ((if_pos hlast).symm.trans hrun))
      rw [← (Prod.mk.inj hval).1, List.length_cons]
      exact hnext.imp_right fun h => ⟨h.1, by omega⟩
    · have hmore := ih ((if_neg hlast).symm.trans hrun) hnext
      exact hmore.imp_right fun h => ⟨h.1, by rw [List.length_cons]; omega⟩

/-- Where the compiler makes a 0 of it, the size has no bit over an `int`. -/
theorem sizeDecodeLoop_zero (hw : 32 ≤ wordBits) {ip rest : List Nat} {n i c I C : Nat}
    (hrun : sizeDecodeLoop wordBits (.orElse 0) ip n i c = some ((I, C), rest)) (hi : i < 2 ^ 31) : I < 2 ^ 31 := by
  induction ip generalizing n i c with
  | nil => cases hrun
  | cons z ip ih =>
    have hnext : orShl wordBits (.orElse 0) i ((z &&& 0x7e) >>> 1) (6 * n) < 2 ^ 31 := by
      by_cases hdef : 6 * n < 32 ∧ ((z &&& 0x7e) >>> 1) * 2 ^ (6 * n) < 2 ^ 31
      · rw [orShl_eq hw hdef.1 hdef.2]
        exact Nat.or_lt_two_pow hi (by rw [Nat.shiftLeft_eq]; exact hdef.2)
      · have hnone : (IntShift.orElse 0).shl ((z &&& 0x7e) >>> 1) (6 * n) = 0 := if_neg hdef
        unfold orShl
        rw [hnone, Int.zero_emod, Int.toNat_zero, Nat.or_zero]
        exact hi
    rw [sizeDecodeLoop] at hrun
    by_cases hlast : z &&& 0x80 = 0
    · have hval := (Prod.mk.inj (Option.some.inj ((if_pos hlast).symm.trans hrun))).1
      rw [← (Prod.mk.inj hval).1]
      exact hnext
    · exact ih ((if_neg hlast).symm.trans hrun) hnext

/-- Whatever the compiler does with other shifts, the sizes are read as they were written if and only
if there are none. -/
theorem sizeDecodeInto_iff (hw : 32 ≤ wordBits) (nInfo nCell : Nat) (rest : List Nat) :
    (∀ sh, sizeDecodeInto wordBits sh (sizeEncode nInfo nCell ++ rest) = some ((nInfo, nCell), rest)) ↔ nInfo < 2 ^ 31 ∧ nCell < 2 ^ 6 := by
  have hlen : (sizeEncode nInfo nCell).length ≤ 6 ↔ nInfo < 64 ^ 6 ∧ nCell < 2 ^ 6 := sizeEncodeFrom_length (m := 5) (Nat.lt_succ_self _)
  have hpow : (2 : Nat) ^ 31 < 2 ^ wordBits := Nat.pow_lt_pow_right (by decide) (by omega)
  constructor
  · intro hall
    have hzero := sizeDecodeLoop_zero hw (hall (.orElse 0)) (by decide)
    rcases sizeDecodeLoop_ones hw (hall (.orElse (-1))) (.inr ⟨by decide, by decide⟩) with hones | ⟨-, hbytes⟩
    · omega
    · rw [List.length_append] at hbytes
      exact ⟨hzero, (hlen.mp (by omega)).2⟩
  · intro hfits sh
    have hsix := hlen.mpr ⟨by omega, hfits.2⟩
    exact sizeDecodeLoop_eq hw (sizeDecode_sizeEncode nInfo nCell (0 :: rest)) hfits.1 (by omega)

/-! ## All of them -/

/-- A word, a small int, a signature and the sizes of two sections. -/
theorem fields_decode_iff (hw : 32 ≤ wordBits) {val : Nat} (hval : val < 2 ^ wordBits) {num : Int} (hlow : -2 ^ (wordBits - 1) ≤ num)
    (hhigh : num < 2 ^ (wordBits - 1)) {x : Sig} (hx : 1 ≤ x.nState) (hx' : x.nState < 2 ^ wordBits) (b1 nInfo nCell : Nat) (rest : List Nat) :
    (∃ bytes, mpEncodeUint wordBits (fun _ => true) val = some bytes ∧ mpDecodeUint wordBits (bytes ++ rest) = some (val, rest) ∧
      mpDecodeUintSkip (bytes ++ rest) = some rest) ∧
    (∃ bytes, emitByteInt wordBits b1 num = some (b1 :: bytes) ∧ loadConstSmallInt wordBits (bytes ++ rest) = some (wordOf wordBits num, rest)) ∧
    ((∀ sh, sigDecodeInto wordBits sh (sigEncode x ++ rest) = some (x, rest)) ↔ SigFits x) ∧
    ((∀ sh, sizeDecodeInto wordBits sh (sizeEncode nInfo nCell ++ rest) = some ((nInfo, nCell), rest)) ↔ nInfo < 2 ^ 31 ∧ nCell < 2 ^ 6) := by
  have hread := @mpDecodeUint_encodeUint wordBits rest (by omega) val hval
  obtain ⟨l, hemit, hne, hl, hvalue⟩ := emitByteInt_spec (show 1 ≤ wordBits by omega) hlow hhigh b1
  have hload := @loadConstSmallInt_mark wordBits rest l (by omega) hne hl
  rw [hvalue] at hload
  refine ⟨⟨encodeUint val, mpEncodeUint_eq (by omega) hval _, hread, ?_⟩, ⟨mark l, hemit, hload⟩, sigDecodeInto_iff hw hx hx' rest,
    sizeDecodeInto_iff hw nInfo nCell rest⟩
  rw [@mpDecodeUintSkip_eq wordBits, hread]
  rfl

end

theorem fields_decode_iff_word : (∃ bytes, mpEncodeUint 32 (fun _ => true) (2 ^ 32 - 1) = some bytes ∧ mpDecodeUint 32 (bytes ++ [7]) = some (2 ^ 32 - 1, [7]) ∧
      mpDecodeUintSkip (bytes ++ [7]) = some [7]) ∧
    (∃ bytes, emitByteInt 32 0x22 (-64) = some (0x22 :: bytes) ∧ loadConstSmallInt 32 (bytes ++ [7]) = some (wordOf 32 (-64), [7])) ∧
    ((∀ sh, sigDecodeInto 32 sh (sigEncode ⟨1, 0, 0, 5, 0, 0⟩ ++ [7]) = some (⟨1, 0, 0, 5, 0, 0⟩, [7])) ↔ SigFits ⟨1, 0, 0, 5, 0, 0⟩) ∧
    ((∀ sh, sizeDecodeInto 32 sh (sizeEncode 100 3 ++ [7]) = some ((100, 3), [7])) ↔ 100 < 2 ^ 31 ∧ 3 < 2 ^ 6) :=
  fields_decode_iff (by decide) (by decide) (by decide) (by decide) (by decide) (by decide) 0x22 100 3 [7]

/-- A processor that shifts by the count modulo 32 and drops what goes over an `int`. -/
def modular : IntShift where
  shl x n := ((x * 2 ^ (n % 32) : Nat) : Int).bmod (2 ^ 32)
  shl_eq {x n} hn hx := by
    rw [Nat.mod_eq_of_lt hn, Int.bmod_eq_of_le (by omega) (by omega)]
    push_cast
    rfl

/-- In a word of 64 bits a size of 2³¹ has its sign extended; 64 cells shift by 36 places. -/
theorem sizes_over_int : sizeDecodeInto 64 modular (sizeEncode (2 ^ 31) 0) = some ((2 ^ 64 - 2 ^ 31, 0), []) ∧
    ∃ sh, sizeDecodeInto 64 sh (sizeEncode 0 64) ≠ some ((0, 64), []) := by
  refine ⟨by decide, .orElse 1, by decide⟩

end PythonUltra.Py.Bc
