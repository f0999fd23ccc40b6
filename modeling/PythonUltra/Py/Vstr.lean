/-
  PythonUltra.Py.Vstr — the variable-length string on every place and length (py/vstr.c).

  A place and a length are words of `w` bits, whose sums wrap, and `unsigned` is 32 bits of
  them. The buffer is all that has been allocated; an access that is not in it is a fault. What
  adds bytes does so where the new length fits a word and its capacity, rounded up, does too
  (`GrowthFits`); a cut in the middle is right where its end fits a word (`CutFits`), and at
  the tail always. Elsewhere they are not (`vstr_iff`).
-/

import Mathlib.Algebra.GroupWithZero.Nat
import Mathlib.Data.Int.ConditionallyCompleteOrder
import PythonUltra.Lib.Splice

namespace PythonUltra.Py.Vstr

open PythonUltra.Lib.Slots PythonUltra.Lib.Splice

/-- `vstr_t` -/
structure VstrT where
  alloc : Nat
  len : Nat
  buf : List UInt8
  fixedBuf : Bool

inductive Exc where
  | runtimeError
  | memoryError

/-- An access outside of the buffer, or an exception and the string it leaves. -/
inductive Stop where
  | fault
  | raised (exc : Exc) (vstr : VstrT)

def access {α : Type} (x : Option α) : Except Stop α := x.elim (.error .fault) .ok

variable (w : Nat)

/-- `a - b` in a word. -/
def wordSub (a b : Nat) : Nat := (a + 2 ^ w - b) % 2 ^ w

/-- `ROUND_ALLOC`, whose mask is an `unsigned`. -/
def roundAlloc (a : Nat) : Nat := ((a &&& 4294967288) + 8) % 2 ^ w

/-- `vstr_ensure_extra`, where `room` says whether there is memory and `fresh` is what its new bytes hold. -/
def vstrEnsureExtra (room : Bool) (fresh : UInt8) (vstr : VstrT) (size : Nat) : Except Stop VstrT :=
  if (vstr.len + size) % 2 ^ w > vstr.alloc then
    if vstr.fixedBuf then .error (.raised .runtimeError vstr)
    else
      let newAlloc := roundAlloc w (((vstr.len + size) % 2 ^ w + 16) % 2 ^ w)
      if room ∨ newAlloc = 0 then .ok { vstr with alloc := newAlloc, buf := resize fresh vstr.buf newAlloc }
      else .error (.raised .memoryError vstr)
  else .ok vstr

/-- `vstr_add_len` -/
def vstrAddLen (room : Bool) (fresh : UInt8) (vstr : VstrT) (len : Nat) : Except Stop VstrT := do
  let vstr ← vstrEnsureExtra w room fresh vstr len
  .ok { vstr with len := (vstr.len + len) % 2 ^ w }

/-- `vstr_add_strn` -/
def vstrAddStrn (room : Bool) (fresh : UInt8) (vstr : VstrT) (str : List UInt8) (len : Nat) : Except Stop VstrT := do
  let vstr ← vstrEnsureExtra w room fresh vstr len
  let bytes ← access (readAt str 0 len)
  let buf ← access (writeAt vstr.buf vstr.len bytes)
  .ok { vstr with buf := buf, len := (vstr.len + len) % 2 ^ w }

/-- `vstr_ins_blank_bytes`, with the place of the bytes. -/
def vstrInsBlankBytes (room : Bool) (fresh : UInt8) (vstr : VstrT) (bytePos byteLen : Nat) : Except Stop (VstrT × Nat) := do
  let l := vstr.len
  let bytePos := if bytePos > l then l else bytePos
  if byteLen > 0 then
    let vstr ← vstrEnsureExtra w room fresh vstr byteLen
    let buf ← access (move vstr.buf (bytePos + byteLen) bytePos (l - bytePos))
    .ok ({ vstr with buf := buf, len := (vstr.len + byteLen) % 2 ^ w }, bytePos)
  else .ok (vstr, bytePos)

/-- `vstr_ins_byte` -/
def vstrInsByte (room : Bool) (fresh : UInt8) (vstr : VstrT) (bytePos : Nat) (b : UInt8) : Except Stop VstrT := do
  let (vstr, s) ← vstrInsBlankBytes w room fresh vstr bytePos 1
  let buf ← access (writeAt vstr.buf s [b])
  .ok { vstr with buf := buf }

/-- `vstr_cut_tail_bytes` -/
def vstrCutTailBytes (vstr : VstrT) (len : Nat) : Except Stop VstrT :=
  if len > vstr.len then .ok { vstr with len := 0 } else .ok { vstr with len := vstr.len - len }

/-- `vstr_cut_out_bytes` -/
def vstrCutOutBytes (vstr : VstrT) (bytePos bytesToCut : Nat) : Except Stop VstrT :=
  if bytePos ≥ vstr.len then .ok vstr
  else if (bytePos + bytesToCut) % 2 ^ w ≥ vstr.len then .ok { vstr with len := bytePos }
  else do
    let buf ← access (move vstr.buf bytePos ((bytePos + bytesToCut) % 2 ^ w) (wordSub w (wordSub w vstr.len bytePos) bytesToCut))
    .ok { vstr with buf := buf, len := wordSub w vstr.len bytesToCut }

/-- The string is in its buffer, whose size it has. -/
structure Valid (vstr : VstrT) : Prop where
  len_le : vstr.len ≤ vstr.alloc
  buf : vstr.buf.length = vstr.alloc
  word : vstr.alloc < 2 ^ w

def VstrT.content (vstr : VstrT) : List UInt8 := vstr.buf.take vstr.len

/-- The string with `cut` bytes at `pos` replaced by `s`, or an exception that leaves it as it was. -/
def Spliced (vstr : VstrT) (pos cut : Nat) (s : List UInt8) : Except Stop VstrT → Prop
  | .ok vstr' => Valid w vstr' ∧ vstr'.content = vstr.content.take pos ++ s ++ vstr.content.drop (pos + cut)
  | .error (.raised _ vstr') => Valid w vstr' ∧ vstr'.content = vstr.content
  | .error .fault => False

/-- Where the new length fits a word, and is in the buffer, or the buffer is fixed, or the new capacity fits the `unsigned` mask. -/
def GrowthFits (vstr : VstrT) (size : Nat) : Prop :=
  vstr.len + size < 2 ^ w ∧
    (vstr.len + size ≤ vstr.alloc ∨ vstr.fixedBuf = true ∨ vstr.len + size + 16 + (if w = 32 then 8 else 0) < 2 ^ 32)

def CutFits (vstr : VstrT) (pos cut : Nat) : Prop := vstr.len ≤ pos ∨ pos + cut < 2 ^ w

section
variable {w} {vstr vstr' : VstrT} {pos n cut : Nat} {s : List UInt8} {b : UInt8} {room : Bool} {fresh : UInt8}

/-! ## The capacity -/

theorem and_mask (a : Nat) : a &&& 4294967288 = a % 2 ^ 32 / 8 * 8 := by
  apply Nat.eq_of_testBit_eq
  intro i
  rw [show 4294967288 = (2 ^ 29 - 1) <<< 3 by decide, show a % 2 ^ 32 / 8 * 8 = ((a % 2 ^ 32) >>> 3) <<< 3 by
    rw [Nat.shiftRight_eq_div_pow, Nat.shiftLeft_eq]]
  simp only [Nat.testBit_and, Nat.testBit_shiftLeft, Nat.testBit_shiftRight, Nat.testBit_two_pow_sub_one, Nat.testBit_mod_two_pow]
  by_cases hi : i ≥ 3
  · by_cases hlt : i < 32
    · simp [hi, hlt, show i - 3 < 29 by omega, show 3 + (i - 3) = i by omega]
    · simp [show ¬ 3 + (i - 3) < 32 by omega, show ¬ i - 3 < 29 by omega]
  · simp [hi]

/-- The capacity for a length is enough for it, where it fits the mask. -/
theorem le_roundAlloc_iff (hw : 32 ≤ w) (hn : n < 2 ^ w) :
    n ≤ roundAlloc w ((n + 16) % 2 ^ w) ↔ n + 16 + (if w = 32 then 8 else 0) < 2 ^ 32 := by
  rw [roundAlloc, and_mask]
  by_cases h32 : w = 32
  · subst h32
    rw [if_pos rfl]
    omega
  · rw [if_neg h32]
    have hword : 2 ^ 33 ≤ 2 ^ w := Nat.pow_le_pow_right (by decide) (by omega)
    generalize 2 ^ w = word at hn hword ⊢
    rw [Nat.mod_eq_of_lt (show (n + 16) % word % 2 ^ 32 / 8 * 8 + 8 < word by omega)]
    by_cases hlt : n + 16 < word
    · rw [Nat.mod_eq_of_lt hlt]
      omega
    · have hwrap : (n + 16) % word = n + 16 - word := by
        rw [Nat.mod_eq_sub_mod (by omega), Nat.mod_eq_of_lt (by omega)]
      rw [hwrap]
      omega

theorem wrapped {x : Nat} (h1 : 2 ^ w ≤ x) (h2 : x < 2 ^ w + 2 ^ w) : x % 2 ^ w = x - 2 ^ w := by
  rw [Nat.mod_eq_sub_mod h1, Nat.mod_eq_of_lt (by omega)]

theorem wordSub_of_le {x y : Nat} (h : y ≤ x) (hx : x < 2 ^ w) : wordSub w x y = x - y := by
  rw [wordSub, wrapped (by omega) (by omega)]
  omega

theorem wordSub_of_lt {x y : Nat} (h : x < y) : wordSub w x y = x + 2 ^ w - y := by
  have hpos := Nat.two_pow_pos w
  exact Nat.mod_eq_of_lt (by omega)

/-- Where the size fits, there is room for it, or nothing has changed. -/
theorem ensure_spec (hw : 32 ≤ w) (h : Valid w vstr) (hfits : GrowthFits w vstr n) :
    (∃ exc, vstrEnsureExtra w room fresh vstr n = .error (.raised exc vstr)) ∨
      ∃ vstr' rest, vstrEnsureExtra w room fresh vstr n = .ok vstr' ∧ vstr'.len = vstr.len ∧ vstr'.buf = vstr.content ++ rest ∧
        n ≤ rest.length ∧ Valid w vstr' := by
  obtain ⟨hword, hcap⟩ := hfits
  have hlen := h.len_le
  have hcontent : vstr.content.length = vstr.len := List.length_take_of_le (by rw [h.buf]; exact hlen)
  have hbuf : vstr.buf = vstr.content ++ vstr.buf.drop vstr.len := (List.take_append_drop ..).symm
  unfold vstrEnsureExtra
  rw [Nat.mod_eq_of_lt hword]
  by_cases hle : vstr.len + n ≤ vstr.alloc
  · rw [if_neg (Nat.not_lt.mpr hle)]
    refine .inr ⟨vstr, _, rfl, rfl, hbuf, ?_, h⟩
    rw [List.length_drop, h.buf]
    omega
  rw [if_pos (Nat.lt_of_not_le hle)]
  by_cases hfixed : vstr.fixedBuf = true
  · rw [if_pos hfixed]
    exact .inl ⟨_, rfl⟩
  rw [if_neg hfixed]
  have hround := (le_roundAlloc_iff hw hword).mpr ((hcap.resolve_left hle).resolve_left hfixed)
  dsimp only
  split
  · obtain ⟨rest, hresize, hrest⟩ := @resize_append UInt8 vstr.content (vstr.buf.drop vstr.len) _ fresh
      (show vstr.content.length ≤ roundAlloc w ((vstr.len + n + 16) % 2 ^ w) by omega)
    rw [← hbuf] at hresize
    refine .inr ⟨_, rest, rfl, rfl, hresize, by omega, ⟨?_, ?_, ?_⟩⟩
    · dsimp only
      omega
    · dsimp only
      rw [hresize, List.length_append]
      exact hrest
    · exact Nat.mod_lt _ (Nat.two_pow_pos w)
  · exact .inl ⟨_, rfl⟩

/-- Where it does not, the buffer is taken for one that has room. -/
theorem ensure_of_not_fits (hw : 32 ≤ w) (h : Valid w vstr) (hn : n < 2 ^ w) (hnot : ¬ GrowthFits w vstr n) :
    ∃ vstr', vstrEnsureExtra w true fresh vstr n = .ok vstr' ∧ vstr'.len = vstr.len ∧ vstr'.buf.length = vstr'.alloc ∧
      vstr'.alloc < vstr.len + n := by
  have hlen := h.len_le
  have hword := h.word
  unfold vstrEnsureExtra
  by_cases hfit : vstr.len + n < 2 ^ w
  · rw [Nat.mod_eq_of_lt hfit]
    obtain ⟨hle, hcap⟩ := not_or.mp fun hcap => hnot ⟨hfit, hcap⟩
    obtain ⟨hfixed, hcap⟩ := not_or.mp hcap
    have hround := (le_roundAlloc_iff hw hfit).not.mpr hcap
    rw [if_pos (Nat.lt_of_not_le hle), if_neg hfixed]
    dsimp only
    rw [if_pos (.inl rfl)]
    refine ⟨_, rfl, rfl, ?_, Nat.lt_of_not_le hround⟩
    simp only [resize, List.length_append, List.length_take, List.length_replicate]
    omega
  · rw [wrapped (by omega) (by omega), if_neg (by omega)]
    exact ⟨vstr, rfl, rfl, h.buf, by omega⟩

/-! ## Adding -/

theorem writeAt_none {block cells : List UInt8} {dst : Nat} (hcells : 0 < cells.length) (h : block.length < dst + cells.length) :
    writeAt block dst cells = none := if_neg (by omega)

theorem move_none {block : List UInt8} {dst src k : Nat} (hk : 0 < k) (h : block.length < dst + k) : move block dst src k = none := by
  unfold move readAt
  split
  · rename_i hin
    have hlen := length_slice (hin.resolve_left (Nat.ne_of_gt hk))
    exact writeAt_none (by omega) (by omega)
  · rfl

theorem move_zero {block : List UInt8} {dst src : Nat} : move block dst src 0 = some block := by
  have hread : readAt block src 0 = some [] := by
    rw [readAt, if_pos (.inl rfl), slice, List.take_zero]
  rw [move, hread, Option.bind_eq_bind, Option.bind_some, writeAt, if_pos (.inl rfl), put_nil]

theorem content_length (h : Valid w vstr) : vstr.content.length = vstr.len :=
  List.length_take_of_le (by rw [h.buf]; exact h.len_le)

theorem spliced_refused {exc : Exc} (h : Valid w vstr) : Spliced w vstr pos cut s (.error (.raised exc vstr)) := ⟨h, rfl⟩

theorem valid_grown (h : Valid w vstr') (hlen : n ≤ vstr'.alloc) {buf : List UInt8} (hbuf : buf.length = vstr'.buf.length) :
    Valid w { vstr' with buf := buf, len := n % 2 ^ w } := by
  refine ⟨?_, hbuf.trans h.buf, h.word⟩
  dsimp only
  rw [Nat.mod_eq_of_lt (Nat.lt_of_le_of_lt hlen h.word)]
  exact hlen

theorem addLen_iff (hw : 32 ≤ w) (h : Valid w vstr) (hn : n < 2 ^ w) :
    (∀ room fresh, ∃ s, s.length = n ∧ Spliced w vstr vstr.len 0 s (vstrAddLen w room fresh vstr n)) ↔ GrowthFits w vstr n := by
  have hcontent := content_length h
  constructor
  · intro hdone
    by_contra hnot
    obtain ⟨s, hs, hdone⟩ := hdone true 0
    obtain ⟨vstr', hensure, hlen, hbuf, hsmall⟩ := @ensure_of_not_fits w vstr n 0 hw h hn hnot
    rw [vstrAddLen, hensure] at hdone
    have heq := congrArg List.length hdone.2
    simp only [VstrT.content, List.length_append, List.length_take, List.length_drop] at heq hcontent
    omega
  · intro hfits room fresh
    rcases @ensure_spec w vstr n room fresh hw h hfits with ⟨exc, hfail⟩ | ⟨vstr', rest, hensure, hlen, hbuf, hrest, h'⟩
    · rw [vstrAddLen, hfail]
      exact ⟨List.replicate n 0, List.length_replicate .., spliced_refused h⟩
    · rw [vstrAddLen, hensure]
      have halloc : vstr.len + n ≤ vstr'.alloc := by
        rw [← h'.buf, hbuf, List.length_append, hcontent]
        omega
      refine ⟨rest.take n, List.length_take_of_le hrest, ?_, ?_⟩
      · rw [hlen]
        exact valid_grown h' halloc rfl
      · rw [Nat.add_zero, ← hcontent, List.take_length, List.drop_length, List.append_nil]
        rw [VstrT.content, hlen, hbuf]
        dsimp only
        rw [Nat.mod_eq_of_lt hfits.1, ← hcontent, List.take_length_add_append]

theorem addStrn_iff (hw : 32 ≤ w) (h : Valid w vstr) (hn : n < 2 ^ w) (hs : n ≤ s.length) :
    (∀ room fresh, Spliced w vstr vstr.len 0 (s.take n) (vstrAddStrn w room fresh vstr s n)) ↔ GrowthFits w vstr n := by
  have hcontent := content_length h
  have hread : readAt s 0 n = some (s.take n) := by
    have hfront := @readAt_front UInt8 s [] n hs
    rwa [List.append_nil] at hfront
  have htake : (s.take n).length = n := List.length_take_of_le hs
  constructor
  · intro hdone
    by_contra hnot
    replace hdone := hdone true 0
    obtain ⟨vstr', hensure, hlen, hbuf, hsmall⟩ := @ensure_of_not_fits w vstr n 0 hw h hn hnot
    have hpos : 0 < n := by
      apply Nat.pos_of_ne_zero
      rintro rfl
      exact hnot ⟨Nat.lt_of_le_of_lt h.len_le h.word, .inl h.len_le⟩
    have hnone : writeAt vstr'.buf vstr'.len (s.take n) = none := writeAt_none (by omega) (by omega)
    simp only [vstrAddStrn, hensure, hread, hnone, access, bind, Except.bind, Option.elim] at hdone
    exact hdone
  · intro hfits room fresh
    rcases @ensure_spec w vstr n room fresh hw h hfits with ⟨exc, hfail⟩ | ⟨vstr', rest, hensure, hlen, hbuf, hrest, h'⟩
    · rw [vstrAddStrn, hfail]
      exact spliced_refused h
    · have hwrite : writeAt vstr'.buf vstr.len (s.take n) = some (vstr.content ++ s.take n ++ rest.drop n) := by
        rw [hbuf]
        have hmid := @writeAt_mid UInt8 vstr.content (rest.take n) (s.take n) (rest.drop n) vstr.len hcontent.symm
          (by rw [htake, List.length_take_of_le hrest])
        rwa [List.append_assoc, List.take_append_drop] at hmid
      have halloc : vstr.len + n ≤ vstr'.alloc := by
        rw [← h'.buf, hbuf, List.length_append, hcontent]
        omega
      simp only [vstrAddStrn, hensure, hread, hwrite, access, bind, Except.bind, Option.elim, hlen]
      refine ⟨valid_grown h' halloc ?_, ?_⟩
      · rw [hbuf]
        simp only [List.length_append, List.length_drop, htake]
        omega
      · rw [Nat.add_zero, ← hcontent, List.take_length, List.drop_length, List.append_nil]
        rw [VstrT.content]
        dsimp only
        rw [hcontent, Nat.mod_eq_of_lt hfits.1]
        exact List.take_left' (by rw [List.length_append, hcontent, htake])

theorem insByte_iff (hw : 32 ≤ w) (h : Valid w vstr) :
    (∀ room fresh, Spliced w vstr pos 0 [b] (vstrInsByte w room fresh vstr pos b)) ↔ GrowthFits w vstr 1 := by
  have hcontent := content_length h
  obtain ⟨q, hq, hle, htake, hdrop⟩ : ∃ q, (if pos > vstr.len then vstr.len else pos) = q ∧ q ≤ vstr.len ∧
      vstr.content.take pos = vstr.content.take q ∧ vstr.content.drop pos = vstr.content.drop q := by
    by_cases hpos : pos > vstr.len
    · refine ⟨vstr.len, if_pos hpos, Nat.le_refl _, ?_, ?_⟩
      · rw [List.take_of_length_le (by omega), List.take_of_length_le (by omega)]
      · rw [List.drop_of_length_le (by omega), List.drop_of_length_le (by omega)]
    · exact ⟨pos, if_neg hpos, Nat.le_of_not_lt hpos, rfl, rfl⟩
  constructor
  · intro hdone
    by_contra hnot
    replace hdone := hdone true 0
    obtain ⟨vstr', hensure, hlen, hbuf, hsmall⟩ := @ensure_of_not_fits w vstr 1 0 hw h (Nat.one_lt_two_pow (by omega)) hnot
    by_cases hend : vstr.len - q = 0
    · have hnone : writeAt vstr'.buf q [b] = none := writeAt_none Nat.zero_lt_one (by rw [List.length_singleton]; omega)
      simp only [vstrInsByte, vstrInsBlankBytes, hensure, hq, hend, move_zero, hnone, access, bind, Except.bind, Option.elim, Nat.zero_lt_one,
        gt_iff_lt, if_true] at hdone
      exact hdone
    · have hnone : move vstr'.buf (q + 1) q (vstr.len - q) = none := move_none (by omega) (by omega)
      simp only [vstrInsByte, vstrInsBlankBytes, hensure, hq, hnone, access, bind, Except.bind, Option.elim, Nat.zero_lt_one, gt_iff_lt, if_true] at hdone
      exact hdone
  · intro hfits room fresh
    rcases @ensure_spec w vstr 1 room fresh hw h hfits with ⟨exc, hfail⟩ | ⟨vstr', rest, hensure, hlen, hbuf, hrest, h'⟩
    · simp only [vstrInsByte, vstrInsBlankBytes, hfail, bind, Except.bind, Nat.zero_lt_one, gt_iff_lt, if_true]
      exact spliced_refused h
    · have hq' : (vstr.content.take q).length = q := List.length_take_of_le (by omega)
      have hmoves := @move_write UInt8 (vstr.content.take q) (vstr.content.drop q) rest [b] hrest
      rw [List.take_append_drop, ← hbuf, hq', List.length_drop, hcontent, List.length_singleton] at hmoves
      obtain ⟨moved, hmove, hwrite⟩ := Option.bind_eq_some_iff.mp hmoves
      have halloc : vstr.len + 1 ≤ vstr'.alloc := by
        rw [← h'.buf, hbuf, List.length_append, hcontent]
        omega
      simp only [vstrInsByte, vstrInsBlankBytes, hensure, hq, hmove, hwrite, access, bind, Except.bind, Option.elim, Nat.zero_lt_one, gt_iff_lt,
        if_true, hlen]
      refine ⟨valid_grown h' halloc ?_, ?_⟩
      · rw [hbuf]
        simp only [List.length_append, List.length_drop, hq', List.length_singleton]
        omega
      · rw [Nat.add_zero pos, htake, hdrop, VstrT.content]
        dsimp only
        rw [Nat.mod_eq_of_lt hfits.1]
        apply List.take_left'
        simp only [List.length_append, List.length_drop, hq', List.length_singleton]
        omega

/-! ## Cutting -/

theorem content_take {k : Nat} (hk : k ≤ vstr.len) : VstrT.content { vstr with len := k } = vstr.content.take k := by
  rw [VstrT.content, VstrT.content, List.take_take, Nat.min_eq_left hk]

theorem valid_shorter (h : Valid w vstr) {k : Nat} (hk : k ≤ vstr.len) : Valid w { vstr with len := k } :=
  ⟨Nat.le_trans hk h.len_le, h.buf, h.word⟩

theorem cutTail_spliced (h : Valid w vstr) : Spliced w vstr (vstr.len - n) n [] (vstrCutTailBytes vstr n) := by
  have hcontent := content_length h
  have hcut : vstrCutTailBytes vstr n = .ok { vstr with len := vstr.len - n } := by
    unfold vstrCutTailBytes
    split
    · rw [Nat.sub_eq_zero_of_le (by omega)]
    · rfl
  rw [hcut]
  refine ⟨valid_shorter h (Nat.sub_le ..), ?_⟩
  rw [content_take (Nat.sub_le ..), List.append_nil, List.drop_of_length_le (by omega), List.append_nil]

theorem cutOut_iff (h : Valid w vstr) (hcut : cut < 2 ^ w) :
    Spliced w vstr pos cut [] (vstrCutOutBytes w vstr pos cut) ↔ CutFits w vstr pos cut := by
  have hcontent := content_length h
  have hlen := h.len_le
  have hword := h.word
  unfold vstrCutOutBytes CutFits
  by_cases hend : pos ≥ vstr.len
  · rw [if_pos hend]
    refine iff_of_true ⟨h, ?_⟩ (.inl hend)
    rw [List.append_nil, List.drop_of_length_le (by omega), List.take_of_length_le (by omega), List.append_nil]
  rw [if_neg hend]
  by_cases hfit : pos + cut < 2 ^ w
  · refine iff_of_true ?_ (.inr hfit)
    rw [Nat.mod_eq_of_lt hfit]
    split
    · refine ⟨valid_shorter h (Nat.le_of_not_le hend), ?_⟩
      rw [content_take (Nat.le_of_not_le hend), List.append_nil, List.drop_of_length_le (by omega), List.append_nil]
    · obtain ⟨a, c, d, hsplit, ha, hc⟩ := @split_part UInt8 vstr.content pos (pos + cut) (Nat.le_add_right _ _) (by omega)
      have hbuf : vstr.buf = a ++ c ++ d ++ vstr.buf.drop vstr.len := by
        rw [← hsplit]
        exact (List.take_append_drop ..).symm
      have htotal : a.length + c.length + d.length = vstr.len := by
        rw [← hcontent, hsplit, List.length_append, List.length_append]
      have hcount : wordSub w (wordSub w vstr.len pos) cut = d.length := by
        have hrest : wordSub w vstr.len pos = vstr.len - pos := wordSub_of_le (by omega) (by omega)
        rw [hrest, wordSub_of_le (by omega) (by omega)]
        omega
      have hmove := @move_close UInt8 a c d (vstr.buf.drop vstr.len)
      rw [← hbuf, ← hc, ← ha] at hmove
      rw [hcount, hmove, wordSub_of_le (by omega) (by omega)]
      refine ⟨⟨?_, ?_, hword⟩, ?_⟩
      · dsimp only
        omega
      · dsimp only
        simp only [List.length_append, List.length_drop, h.buf]
        omega
      · rw [hsplit, hc, ← @List.length_append _ a c, List.drop_left, List.append_nil, ha, List.append_assoc a c d, List.take_left, VstrT.content]
        dsimp only
        rw [List.append_assoc (a ++ d)]
        apply List.take_left'
        rw [List.length_append]
        omega
  · refine iff_of_false ?_ (by omega)
    rw [wrapped (by omega) (by omega), if_neg (by omega)]
    rcases hmove : move vstr.buf pos (pos + cut - 2 ^ w) (wordSub w (wordSub w vstr.len pos) cut) with _ | moved
    · exact not_false
    · intro hdone
      have heq := congrArg List.length hdone.2
      rw [content_length hdone.1] at heq
      simp only [List.length_append, List.length_take, List.length_drop, List.length_nil, hcontent] at heq
      by_cases hle : cut ≤ vstr.len
      · rw [wordSub_of_le hle (by omega)] at heq
        omega
      · rw [wordSub_of_lt (by omega)] at heq
        omega

/-- What adds bytes, and a cut in the middle, do so exactly where their sums fit; a cut at the tail always. -/
theorem vstr_iff (hw : 32 ≤ w) (h : Valid w vstr) (hn : n < 2 ^ w) (hcut : cut < 2 ^ w) :
    ((∀ room fresh, ∃ s, s.length = n ∧ Spliced w vstr vstr.len 0 s (vstrAddLen w room fresh vstr n)) ↔ GrowthFits w vstr n) ∧
    (∀ s : List UInt8, n ≤ s.length →
      ((∀ room fresh, Spliced w vstr vstr.len 0 (s.take n) (vstrAddStrn w room fresh vstr s n)) ↔ GrowthFits w vstr n)) ∧
    (∀ b, (∀ room fresh, Spliced w vstr pos 0 [b] (vstrInsByte w room fresh vstr pos b)) ↔ GrowthFits w vstr 1) ∧
    Spliced w vstr (vstr.len - n) n [] (vstrCutTailBytes vstr n) ∧
    (Spliced w vstr pos cut [] (vstrCutOutBytes w vstr pos cut) ↔ CutFits w vstr pos cut) :=
  ⟨addLen_iff hw h hn, fun _ hs => addStrn_iff hw h hn hs, fun _ => insByte_iff hw h, cutTail_spliced h, cutOut_iff h hcut⟩

end

/-- The string "ab" in a buffer of three bytes. -/
def vstrOfAb : VstrT := ⟨3, 2, [97, 98, 0], false⟩

theorem vstrOfAb_valid : Valid 32 vstrOfAb := ⟨by decide, rfl, by decide⟩

theorem vstr_iff_vstrOfAb :
    (∀ room fresh, Spliced 32 vstrOfAb 2 0 [99] (vstrAddStrn 32 room fresh vstrOfAb [99] 1)) ∧
    Spliced 32 vstrOfAb 0 1 [] (vstrCutOutBytes 32 vstrOfAb 0 1) := by
  obtain ⟨-, hadd, -, -, hcut⟩ :=
    @vstr_iff 32 vstrOfAb 0 1 1 (Nat.le_refl _) vstrOfAb_valid (by decide) (by decide)
  exact ⟨(hadd [99] (Nat.le_refl _)).mpr ⟨by decide, .inl (by decide)⟩, hcut.mpr (.inr (by decide))⟩

/-- To cut all that there could be behind the first byte makes the string longer, and to add as much makes it shorter. -/
theorem vstr_counterexample :
    ¬ Spliced 32 vstrOfAb 1 (2 ^ 32 - 1) [] (vstrCutOutBytes 32 vstrOfAb 1 (2 ^ 32 - 1)) ∧
    ¬ ∃ s, s.length = 2 ^ 32 - 1 ∧ Spliced 32 vstrOfAb 2 0 s (vstrAddLen 32 true 0 vstrOfAb (2 ^ 32 - 1)) := by
  constructor
  · rintro ⟨-, hcontent⟩
    exact absurd hcontent (by decide)
  · rintro ⟨s, hs, -, hcontent⟩
    have hlen := congrArg List.length hcontent
    rw [List.length_append, List.length_append, hs] at hlen
    have hone : (VstrT.content ⟨3, (2 + (2 ^ 32 - 1)) % 2 ^ 32, [97, 98, 0], false⟩).length = 1 := by decide
    exact absurd (hone.symm.trans hlen) (by omega)

end PythonUltra.Py.Vstr
