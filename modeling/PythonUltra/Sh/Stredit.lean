/-
  PythonUltra.Sh.Stredit — the string editor on every argument (stredit.c).

  The arguments are `int`s, whose sums wrap, and the fields are of 16 bits. The block is all
  that has been allocated: the reserved bytes, the text, its NUL and what is behind them; an
  access that is not in it is `none`. Insertion and deletion do what they are for where their
  sums fit (`InsertFits`, `DeleteFits`), and nowhere else (`stredit_iff`).
-/

import Mathlib.Algebra.GroupWithZero.Nat
import Mathlib.Data.Int.ConditionallyCompleteOrder
import PythonUltra.Lib.CMem
import PythonUltra.Lib.Splice

namespace PythonUltra.Sh.Stredit

open PythonUltra.Lib
open PythonUltra.Lib.CMem (i32 u16 i32_of_range i32_above i32_below)
open PythonUltra.Lib.Splice

/-- `stredit_t` -/
structure StreditT where
  raw : List UInt8
  maxSize : Nat
  reserved : Nat
  size : Nat
  allocSize : Nat
  prefixLen : Nat

/-- A place in a block, or a number of bytes. Below 0 there is none. -/
def offset (x : Int) : Option Nat := if 0 ≤ x then some x.toNat else none

/-- `stredit_alloc`, where `realloc` says whether there is memory and `fresh` is what its new bytes hold. -/
def streditAlloc (realloc : Bool) (fresh : UInt8) (ed : StreditT) (n : Int) : Bool × StreditT :=
  let needed := i32 (ed.reserved + n + 1)
  if ed.allocSize ≥ needed then (true, ed)
  else
    let newsize := max ((ed.allocSize : Int) + 16) needed
    if realloc then (true, { ed with raw := resize fresh ed.raw newsize.toNat, allocSize := u16 newsize.toNat }) else (false, ed)

/-- `stredit_insert` -/
def streditInsert (realloc : Bool) (fresh : UInt8) (ed : StreditT) (p : Int) (insertStr : List UInt8) (n : Int) : Option (Bool × StreditT) :=
  if p < 0 ∨ p > ed.size ∨ i32 (ed.size + n) > ed.maxSize then some (false, ed)
  else
    let (room, ed) := streditAlloc realloc fresh ed (i32 (ed.size + n))
    if room then do
      let dst ← offset (ed.reserved + p + n)
      let src ← offset (ed.reserved + p)
      let tail ← offset (ed.size - p + 1)
      let raw ← move ed.raw dst src tail
      let count ← offset n
      let bytes ← readAt insertStr 0 count
      let raw ← writeAt raw src bytes
      some (true, { ed with raw := raw, size := u16 (ed.size + n).toNat })
    else some (false, ed)

/-- Where a deletion begins and how much it is asked for, past the bytes that cannot be edited. -/
def pastPrefix (ed : StreditT) (p n : Int) : Int × Int :=
  if p < ed.prefixLen then
    let unremovable := i32 (ed.prefixLen - p)
    (i32 (p + unremovable), i32 (n - unremovable))
  else (p, n)

/-- `stredit_delete` -/
def streditDelete (ed : StreditT) (p n : Int) : Option (Int × StreditT) :=
  let (p, n) := pastPrefix ed p n
  let n := min n (ed.size - p)
  if n < 0 then some (0, ed)
  else do
    let dst ← offset (ed.reserved + p)
    let src ← offset (ed.reserved + p + n)
    let tail ← offset (ed.size - n - p + 1)
    let raw ← move ed.raw dst src tail
    some (n, { ed with raw := raw, size := u16 (ed.size - n).toNat })

/-- `stredit_set_prefix` -/
def streditSetPrefix (ed : StreditT) (prefixSize : Int) : StreditT :=
  { ed with prefixLen := (min (max 0 prefixSize) ed.size).toNat }

/-- The editor holds `t`, behind the reserved bytes `head`, in a block of the size it has. -/
structure Holds (ed : StreditT) (head t : List UInt8) : Prop where
  block : ∃ rest, ed.raw = head ++ t ++ 0 :: rest
  reserved : head.length = ed.reserved
  size : t.length = ed.size
  size_le : ed.size ≤ ed.maxSize
  prefix_le : ed.prefixLen ≤ ed.size
  alloc : ed.reserved + ed.size + 1 ≤ ed.allocSize
  raw : ed.raw.length = ed.allocSize
  fields : ed.maxSize < 65536 ∧ ed.reserved < 65536 ∧ ed.allocSize < 65536

/-- An insertion fails with the text as it was, or puts `n` bytes of `s` in at `p`. -/
def Inserted (ed : StreditT) (head t : List UInt8) (p : Int) (s : List UInt8) (n : Int) (r : Bool × StreditT) : Prop :=
  (r.1 = false ∧ Holds r.2 head t) ∨
    (r.1 = true ∧ 0 ≤ n ∧ 0 ≤ p ∧ p ≤ ed.size ∧ Holds r.2 head (t.take p.toNat ++ s.take n.toNat ++ t.drop p.toNat))

/-- A deletion takes away what is in [p, p + n) and past the prefix, and returns how much that is. -/
def Deleted (ed : StreditT) (head t : List UInt8) (p n : Int) (r : Int × StreditT) : Prop :=
  ∃ start stop : Nat, (start : Int) = max p ed.prefixLen ∧ (stop : Int) = max (start : Int) (min (p + n) ed.size) ∧ r.1 = stop - start ∧
    Holds r.2 head (t.take start ++ t.drop stop) ∧ r.2.prefixLen = ed.prefixLen

/-- Where the place is in the text, a size that is not negative, that fits an `int` together with the text's, and
for which a new block, if it takes one, is one that 16 bits can count. -/
def InsertFits (ed : StreditT) (p n : Int) : Prop :=
  p < 0 ∨ ed.size < p ∨
    (0 ≤ n ∧ ed.size + n < 2 ^ 31 ∧
      (ed.maxSize < ed.size + n ∨ ed.reserved + ed.size + n + 1 ≤ ed.allocSize ∨
        max ((ed.allocSize : Int) + 16) (ed.reserved + ed.size + n + 1) < 65536))

/-- Where nothing is left of the size after the part before the prefix, that difference fits an `int`, or it is at most 0 when
it has wrapped too, or there is nothing past the prefix. -/
def DeleteFits (ed : StreditT) (p n : Int) : Prop :=
  ed.prefixLen ≤ p ∨ -2 ^ 31 ≤ n - (ed.prefixLen - p) ∨ n - (ed.prefixLen - p) + 2 ^ 32 ≤ 0 ∨ ed.size = ed.prefixLen

section
variable {ed : StreditT} {head t s : List UInt8} {p n : Int} {realloc : Bool} {fresh : UInt8}

theorem offset_of_nonneg {x : Int} (h : 0 ≤ x) : offset x = some x.toNat := if_pos h

theorem offset_eq {x : Int} {k : Nat} (h : x = k) : offset x = some k := by
  subst h
  exact if_pos (Int.natCast_nonneg k)

theorem offset_some {x : Int} {k : Nat} (h : offset x = some k) : 0 ≤ x := by
  by_contra hn
  rw [offset, if_neg hn] at h
  cases h

/-! ## Insertion -/

theorem insert_block (a b : List UInt8) {rest : List UInt8} (hrest : s.length ≤ rest.length) :
    (do
      let raw ← move (head ++ (a ++ b) ++ 0 :: rest) (head.length + a.length + s.length) (head.length + a.length) (b.length + 1)
      writeAt raw (head.length + a.length) s) = some (head ++ (a ++ s ++ b) ++ 0 :: rest.drop s.length) := by
  have hraw : head ++ (a ++ b) ++ 0 :: rest = (head ++ a) ++ (b ++ [0]) ++ rest := by simp
  have hmove := @move_write UInt8 (head ++ a) (b ++ [0]) rest s hrest
  rw [List.length_append, List.length_append, List.length_singleton] at hmove
  rw [hraw, hmove]
  simp

/-- A block of the size that is asked for, where 16 bits can count it. -/
theorem alloc_spec (h : Holds ed head t) (hn : 0 ≤ n) (hmax : ed.size + n ≤ ed.maxSize)
    (hfits : ed.reserved + ed.size + n + 1 ≤ ed.allocSize ∨ max ((ed.allocSize : Int) + 16) (ed.reserved + ed.size + n + 1) < 65536) :
    streditAlloc realloc fresh ed (ed.size + n) = (false, ed) ∨
      ∃ ed', streditAlloc realloc fresh ed (ed.size + n) = (true, ed') ∧ Holds ed' head t ∧ ed'.reserved = ed.reserved ∧ ed'.size = ed.size ∧
        ed'.maxSize = ed.maxSize ∧ ed'.prefixLen = ed.prefixLen ∧ ed.reserved + ed.size + n + 1 ≤ ed'.allocSize := by
  obtain ⟨hmax16, hres16, halloc16⟩ := h.fields
  have hneeded : i32 (ed.reserved + (ed.size + n) + 1) = ed.reserved + ed.size + n + 1 := by
    unfold i32
    omega
  unfold streditAlloc
  dsimp only
  rw [hneeded]
  split
  · rename_i hle
    exact .inr ⟨ed, rfl, h, rfl, rfl, rfl, rfl, hle⟩
  · rename_i hlt
    have hsmall := hfits.resolve_left hlt
    obtain ⟨rest, hrest⟩ := h.block
    generalize hsize : max ((ed.allocSize : Int) + 16) (ed.reserved + ed.size + n + 1) = newsize at hsmall
    have hu16 : u16 newsize.toNat = newsize.toNat := Nat.mod_eq_of_lt (by omega)
    have hlen : (head ++ t ++ [0]).length ≤ newsize.toNat := by
      simp only [List.length_append, List.length_singleton, h.reserved, h.size]
      have := h.alloc
      omega
    have hraw : ed.raw = (head ++ t ++ [0]) ++ rest := by
      rw [hrest]
      simp
    obtain ⟨rest', hnew, hlen'⟩ := @resize_append UInt8 (head ++ t ++ [0]) rest newsize.toNat fresh hlen
    rw [hraw, hnew, hu16]
    split
    · refine .inr ⟨_, rfl, ⟨⟨rest', by simp⟩, h.reserved, h.size, h.size_le, h.prefix_le, ?_, ?_, hmax16, hres16, ?_⟩, rfl, rfl, rfl, rfl, ?_⟩
      · have := h.alloc
        dsimp only
        omega
      · dsimp only
        rw [List.length_append]
        exact hlen'
      · dsimp only
        omega
      · dsimp only
        omega
    · exact .inl rfl

/-- The bytes are put in, where the block has room for them. -/
theorem insert_block_of_room (h : Holds ed head t) {q k : Nat} (hq : q ≤ ed.size) (hk : k ≤ s.length)
    (hroom : ed.reserved + ed.size + k + 1 ≤ ed.allocSize) :
    ∃ raw rest, (do
      let raw ← move ed.raw (ed.reserved + q + k) (ed.reserved + q) (ed.size - q + 1)
      let bytes ← readAt s 0 k
      writeAt raw (ed.reserved + q) bytes) = some raw ∧
      raw = head ++ (t.take q ++ s.take k ++ t.drop q) ++ 0 :: rest ∧ raw.length = ed.raw.length := by
  obtain ⟨rest, hrest⟩ := h.block
  have hraw := h.raw
  have hsize := h.size
  have hlen : (s.take k).length = k := List.length_take_of_le hk
  have htake : (t.take q).length = q := List.length_take_of_le (by omega)
  have hgap : (s.take k).length ≤ rest.length := by
    rw [hrest] at hraw
    simp only [List.length_append, List.length_cons, h.reserved, hsize] at hraw
    omega
  have hblock := @insert_block head (s.take k) (t.take q) (t.drop q) rest hgap
  rw [List.take_append_drop, ← hrest, hlen, htake, List.length_drop, h.reserved, hsize] at hblock
  have hread : readAt s 0 k = some (s.take k) := by
    have hfront := @readAt_front UInt8 s [] k hk
    rwa [List.append_nil] at hfront
  refine ⟨_, rest.drop k, ?_, rfl, ?_⟩
  · rw [hread]
    exact hblock
  · rw [hrest]
    simp only [List.length_append, List.length_cons, List.length_drop, hlen, htake]
    omega

theorem insert_ok (h : Holds ed head t) (hs : n ≤ s.length) (hfits : InsertFits ed p n) :
    ∃ r, streditInsert realloc fresh ed p s n = some r ∧ Inserted ed head t p s n r := by
  unfold streditInsert
  by_cases hout : p < 0 ∨ p > ed.size ∨ i32 (ed.size + n) > ed.maxSize
  · rw [if_pos hout]
    exact ⟨_, rfl, .inl ⟨rfl, h⟩⟩
  rw [if_neg hout]
  obtain ⟨hp0, hp1, hmax⟩ : 0 ≤ p ∧ p ≤ ed.size ∧ i32 (ed.size + n) ≤ ed.maxSize := by omega
  obtain ⟨hn, hint, hroom⟩ := (hfits.resolve_left (Int.not_lt.mpr hp0)).resolve_left (Int.not_lt.mpr hp1)
  have hsum : i32 (ed.size + n) = ed.size + n := by
    clear hroom hmax
    unfold i32
    omega
  rw [hsum] at hmax ⊢
  clear hsum
  have hfit := hroom.resolve_left (Int.not_lt.mpr hmax)
  rcases @alloc_spec ed head t n realloc fresh h hn hmax hfit with hfail | ⟨ed', heq, h', hres, hsize, hmax', hpre, halloc⟩
  · rw [hfail]
    exact ⟨_, rfl, .inl ⟨rfl, h⟩⟩
  clear hfits hroom hfit hout
  rw [heq]
  obtain ⟨k, rfl⟩ := Int.eq_ofNat_of_zero_le hn
  obtain ⟨q, rfl⟩ := Int.eq_ofNat_of_zero_le hp0
  have hfields := h'.fields
  have hsize_le := h'.size_le
  obtain ⟨raw, rest, hblock, heq', hlen⟩ := @insert_block_of_room ed' head t s h' q k (by omega) (by omega) (by omega)
  obtain ⟨moved, hmove, hblock⟩ := Option.bind_eq_some_iff.mp hblock
  obtain ⟨bytes, hread, hwrite⟩ := Option.bind_eq_some_iff.mp hblock
  have hdst : offset (ed'.reserved + q + k) = some (ed'.reserved + q + k) := offset_eq (by omega)
  have hsrc : offset (ed'.reserved + q) = some (ed'.reserved + q) := offset_eq (by omega)
  have htail : offset (ed'.size - q + 1) = some (ed'.size - q + 1) := offset_eq (by omega)
  have hcount : offset k = some k := offset_eq rfl
  have hu16 : u16 ((ed'.size : Int) + k).toNat = ed'.size + k := by
    unfold u16
    omega
  simp only [if_true, hdst, hsrc, htail, hcount, hmove, hread, hwrite, hu16, Option.bind_eq_bind, Option.bind_some]
  refine ⟨_, rfl, .inr ⟨rfl, hn, hp0, hp1, ⟨⟨rest, heq'⟩, h'.reserved, ?_, ?_, ?_, ?_, hlen.trans h'.raw, hfields⟩⟩⟩
  · have hlen' := h'.size
    simp only [List.length_append, List.length_take, List.length_drop, Int.toNat_natCast]
    omega
  · dsimp only
    omega
  · have hprefix := h'.prefix_le
    dsimp only
    omega
  · dsimp only
    omega

theorem move_some {block moved : List UInt8} {dst src k : Nat} (h : move block dst src k = some moved) : k = 0 ∨ dst + k ≤ block.length := by
  obtain ⟨cells, hread, hwrite⟩ := Option.bind_eq_some_iff.mp h
  unfold readAt at hread
  unfold writeAt at hwrite
  split at hread
  · rename_i hin
    obtain rfl := Option.some.inj hread
    rcases hin with hzero | hin
    · exact .inl hzero
    · rw [Slots.length_slice hin] at hwrite
      split at hwrite
      · assumption
      · cases hwrite
  · cases hread

/-- A sum that has wrapped, or a size below 0, is taken for one that needs no room. -/
theorem insert_of_wrapped (h : Holds ed head t) (hp : 0 ≤ p ∧ p ≤ ed.size) {r : Bool × StreditT}
    (hr : streditInsert realloc fresh ed p s n = some r) (hmax : i32 (ed.size + n) ≤ ed.maxSize)
    (hneeded : i32 (ed.reserved + i32 (ed.size + n) + 1) ≤ ed.allocSize) : 0 ≤ n ∧ ed.reserved + p + n < ed.allocSize := by
  have halloc : streditAlloc realloc fresh ed (i32 (ed.size + n)) = (true, ed) := if_pos hneeded
  have hin : ¬ (p < 0 ∨ p > ed.size ∨ i32 (ed.size + n) > ed.maxSize) :=
    not_or.mpr ⟨Int.not_lt.mpr hp.1, not_or.mpr ⟨Int.not_lt.mpr hp.2, Int.not_lt.mpr hmax⟩⟩
  unfold streditInsert at hr
  rw [if_neg hin, halloc] at hr
  dsimp only at hr
  rw [if_pos rfl] at hr
  clear hmax hneeded halloc hin
  obtain ⟨dst, hdst, hr⟩ := Option.bind_eq_some_iff.mp hr
  obtain ⟨src, -, hr⟩ := Option.bind_eq_some_iff.mp hr
  obtain ⟨tail, htail, hr⟩ := Option.bind_eq_some_iff.mp hr
  obtain ⟨raw, hmove, hr⟩ := Option.bind_eq_some_iff.mp hr
  obtain ⟨count, hcount, -⟩ := Option.bind_eq_some_iff.mp hr
  have hin := move_some hmove
  rw [offset_of_nonneg (offset_some hdst)] at hdst
  rw [offset_of_nonneg (offset_some htail)] at htail
  obtain rfl := Option.some.inj hdst
  obtain rfl := Option.some.inj htail
  rw [h.raw] at hin
  exact ⟨offset_some hcount, by omega⟩

/-- A block that 16 bits cannot count is counted as one that is too small. -/
theorem insert_of_uncounted (hp : 0 ≤ p ∧ p ≤ ed.size) {r : Bool × StreditT} (hr : streditInsert true fresh ed p s n = some r)
    (hsum : i32 (ed.size + n) = ed.size + n) (hmax : ed.size + n ≤ ed.maxSize)
    (hneeded : i32 (ed.reserved + (ed.size + n) + 1) = ed.reserved + ed.size + n + 1) (hroom : ed.allocSize < ed.reserved + ed.size + n + 1) :
    r.1 = true ∧ r.2.reserved = ed.reserved ∧ r.2.size = u16 (ed.size + n).toNat ∧
      r.2.allocSize = u16 (max ((ed.allocSize : Int) + 16) (ed.reserved + ed.size + n + 1)).toNat := by
  have hin : ¬ (p < 0 ∨ p > ed.size ∨ ed.size + n > ed.maxSize) :=
    not_or.mpr ⟨Int.not_lt.mpr hp.1, not_or.mpr ⟨Int.not_lt.mpr hp.2, Int.not_lt.mpr hmax⟩⟩
  unfold streditInsert streditAlloc at hr
  dsimp only at hr
  rw [hsum, if_neg hin, hneeded, if_neg (Int.not_le.mpr hroom), if_pos rfl] at hr
  dsimp only at hr
  rw [if_pos rfl] at hr
  obtain ⟨dst, -, hr⟩ := Option.bind_eq_some_iff.mp hr
  obtain ⟨src, -, hr⟩ := Option.bind_eq_some_iff.mp hr
  obtain ⟨tail, -, hr⟩ := Option.bind_eq_some_iff.mp hr
  obtain ⟨raw, -, hr⟩ := Option.bind_eq_some_iff.mp hr
  obtain ⟨count, -, hr⟩ := Option.bind_eq_some_iff.mp hr
  obtain ⟨bytes, -, hr⟩ := Option.bind_eq_some_iff.mp hr
  obtain ⟨raw', -, hr⟩ := Option.bind_eq_some_iff.mp hr
  obtain rfl := Option.some.inj hr
  exact ⟨rfl, rfl, rfl, rfl⟩

theorem insert_fits (h : Holds ed head t) (hn : -2 ^ 31 ≤ n ∧ n < 2 ^ 31) {r : Bool × StreditT}
    (hr : streditInsert true fresh ed p s n = some r) (hins : Inserted ed head t p s n r) : InsertFits ed p n := by
  by_contra hnot
  obtain ⟨hp0, hnot⟩ := not_or.mp hnot
  obtain ⟨hp1, hnot⟩ := not_or.mp hnot
  have hp : 0 ≤ p ∧ p ≤ ed.size := ⟨Int.not_lt.mp hp0, Int.not_lt.mp hp1⟩
  obtain ⟨hmax16, hres16, halloc16⟩ := h.fields
  have halloc := h.alloc
  have hle := h.size_le
  by_cases hneg : n < 0
  · have hwrap : i32 (ed.size + n) = ed.size + n := i32_of_range (by omega) (by omega)
    have hneeded : i32 (ed.reserved + (ed.size + n) + 1) = ed.reserved + (ed.size + n) + 1 := i32_of_range (by omega) (by omega)
    have hbad := insert_of_wrapped h hp hr (by rw [hwrap]; clear hwrap hneeded; omega) (by rw [hwrap, hneeded]; clear hwrap hneeded; omega)
    exact absurd hbad.1 (Int.not_le.mpr hneg)
  by_cases hbig : ed.size + n < 2 ^ 31
  · obtain ⟨hmax, hnot⟩ := not_or.mp fun hroom => hnot ⟨Int.not_lt.mp hneg, hbig, hroom⟩
    obtain ⟨hroom, hlarge⟩ := not_or.mp hnot
    have hsum : i32 (ed.size + n) = ed.size + n := i32_of_range (by omega) (by omega)
    have hneeded : i32 (ed.reserved + (ed.size + n) + 1) = ed.reserved + ed.size + n + 1 := by
      rw [i32_of_range (by clear hsum; omega) (by clear hsum; omega)]
      clear hsum
      omega
    obtain ⟨htrue, hres, hsize, hnew⟩ := insert_of_uncounted hp hr hsum (Int.not_lt.mp hmax) hneeded (Int.not_le.mp hroom)
    clear hsum hneeded
    rcases hins with ⟨hfalse, -⟩ | ⟨-, -, -, -, hholds⟩
    · rw [htrue] at hfalse
      cases hfalse
    · have hbad := hholds.alloc
      rw [hres, hsize, hnew] at hbad
      unfold u16 at hbad
      clear * - hbad hmax16 hres16 halloc16 hneg hmax hroom hlarge hbig
      omega
  · have hwrap : i32 (ed.size + n) = ed.size + n - 4294967296 := i32_above (by omega) (by omega)
    have hneeded : i32 (ed.reserved + (ed.size + n - 4294967296) + 1) = ed.reserved + (ed.size + n - 4294967296) + 1 :=
      i32_of_range (by clear hwrap; omega) (by clear hwrap; omega)
    have hbad := insert_of_wrapped h hp hr (by rw [hwrap]; clear hwrap hneeded; omega) (by rw [hwrap, hneeded]; clear hwrap hneeded; omega)
    clear hwrap hneeded
    omega

/-! ## Deletion -/

theorem pastPrefix_fst (h : Holds ed head t) : (pastPrefix ed p n).1 = max p ed.prefixLen := by
  obtain ⟨hmax16, -, -⟩ := h.fields
  have hle := h.size_le
  have hpre := h.prefix_le
  unfold pastPrefix
  split
  · dsimp only
    unfold i32
    omega
  · dsimp only
    omega

theorem delete_spec (h : Holds ed head t) {start : Nat} (hstart : (start : Int) = max p ed.prefixLen) :
    ∃ (ed' : StreditT) (k : Nat), streditDelete ed p n = some ((k : Int), ed') ∧ (k : Int) = max 0 (min (pastPrefix ed p n).2 (ed.size - start)) ∧
      Holds ed' head (t.take start ++ t.drop (start + k)) ∧ ed'.prefixLen = ed.prefixLen := by
  have hfst : (pastPrefix ed p n).1 = start := (pastPrefix_fst h).trans hstart.symm
  have hpre : (ed.prefixLen : Int) ≤ start := by omega
  have hfields := h.fields
  unfold streditDelete
  dsimp only
  rw [hfst]
  generalize (pastPrefix ed p n).2 = n'
  by_cases hneg : min n' (ed.size - start) < 0
  · rw [if_pos hneg]
    refine ⟨ed, 0, rfl, ?_, ?_, rfl⟩
    · omega
    · rw [Nat.add_zero, List.take_append_drop]
      exact h
  · rw [if_neg hneg]
    obtain ⟨k, hk⟩ := Int.eq_ofNat_of_zero_le (Int.not_lt.mp hneg)
    rw [hk]
    have hsize := h.size
    have halloc := h.alloc
    have hmax := h.size_le
    have hkle : start + k ≤ ed.size := by
      clear * - hk
      omega
    obtain ⟨a, b, c, ht, ha, hb⟩ := @split_part UInt8 t start (start + k) (Nat.le_add_right _ _) (hkle.trans_eq hsize.symm)
    have hlen : t.length = a.length + b.length + c.length := by
      rw [ht, List.length_append, List.length_append]
    have hclose : a ++ c = t.take start ++ t.drop (start + k) := by
      rw [ht, hb, ha, ← List.length_append, List.drop_left, List.append_assoc, List.take_left]
    have hdst : offset (ed.reserved + start) = some (head ++ a).length := offset_eq (by rw [List.length_append, h.reserved, ha]; omega)
    have hsrc : offset (ed.reserved + start + k) = some ((head ++ a).length + b.length) :=
      offset_eq (by rw [List.length_append, h.reserved]; omega)
    have htail : offset (ed.size - k - start + 1) = some (c ++ [0]).length := offset_eq (by rw [List.length_append, List.length_singleton]; omega)
    have hu16 : u16 ((ed.size : Int) - k).toNat = ed.size - k := by
      unfold u16
      clear * - hkle hmax hfields
      omega
    obtain ⟨rest, hrest⟩ := h.block
    have hraw : ed.raw = (head ++ a) ++ b ++ (c ++ [0]) ++ rest := by
      rw [hrest, ht]
      simp
    have hmove := @move_close UInt8 (head ++ a) b (c ++ [0]) rest
    rw [← hraw] at hmove
    simp only [hdst, hsrc, htail, hmove, hu16, Option.bind_eq_bind, Option.bind_some]
    refine ⟨_, k, rfl, ?_, ⟨⟨(b ++ (c ++ [0])).drop (c ++ [0]).length ++ rest, ?_⟩, h.reserved, ?_, ?_, ?_, ?_, ?_, hfields⟩, rfl⟩
    · omega
    · rw [← hclose]
      simp
    · rw [← hclose, List.length_append]
      dsimp only
      omega
    · dsimp only
      omega
    · dsimp only
      omega
    · dsimp only
      omega
    · have hold := h.raw
      rw [hraw] at hold
      dsimp only
      rw [← hold]
      simp only [List.length_append, List.length_drop, List.length_singleton]
      omega

theorem pastPrefix_snd : (pastPrefix ed p n).2 = if p < ed.prefixLen then i32 (n - (ed.prefixLen - p)) else n := by
  unfold pastPrefix
  split
  · dsimp only
    unfold i32
    omega
  · rfl

/-- What is counted is what there is from the start to the stop, except where the size has wrapped. -/
theorem count_iff (h : Holds ed head t) (hp : -2 ^ 31 ≤ p ∧ p < 2 ^ 31) (hn : -2 ^ 31 ≤ n ∧ n < 2 ^ 31) {start : Nat}
    (hstart : (start : Int) = max p ed.prefixLen) :
    max 0 (min (pastPrefix ed p n).2 (ed.size - start)) = max (start : Int) (min (p + n) ed.size) - start ↔ DeleteFits ed p n := by
  obtain ⟨hmax16, -, -⟩ := h.fields
  have hle := h.size_le
  have hpre : (ed.prefixLen : Int) ≤ ed.size := Int.ofNat_le.mpr h.prefix_le
  rw [pastPrefix_snd, hstart]
  clear hstart h
  unfold DeleteFits
  split
  · rename_i hlt
    obtain ⟨x, hx⟩ : ∃ x, x = n - (ed.prefixLen - p) := ⟨_, rfl⟩
    rw [← hx, Int.max_eq_right (Int.le_of_lt hlt), show p + n = ed.prefixLen + x by omega]
    rcases Int.lt_or_le x (-2 ^ 31) with hsmall | hbig
    · -- the size has wrapped, and nothing is to be counted
      rw [i32_below (by omega) hsmall]
      clear hx hp hn hmax16 hle
      omega
    · have hlarge : x ≤ 2147483647 := by
        clear hpre hmax16 hle
        omega
      rw [i32_of_range hbig hlarge]
      clear hx hp hn hmax16 hle
      exact iff_of_true (by omega) (.inr (.inl hbig))
  · rename_i hle'
    rw [Int.max_eq_left (Int.not_lt.mp hle')]
    clear hp hn hmax16 hle hpre
    exact iff_of_true (by omega) (.inl (Int.not_lt.mp hle'))

theorem delete_iff (h : Holds ed head t) (hp : -2 ^ 31 ≤ p ∧ p < 2 ^ 31) (hn : -2 ^ 31 ≤ n ∧ n < 2 ^ 31) :
    (∃ r, streditDelete ed p n = some r ∧ Deleted ed head t p n r) ↔ DeleteFits ed p n := by
  obtain ⟨start, hstart⟩ := Int.eq_ofNat_of_zero_le (show 0 ≤ max p ed.prefixLen by omega)
  obtain ⟨ed', k, heq, hk, hholds, hpre⟩ := @delete_spec ed head t p n h start hstart.symm
  rw [← count_iff h hp hn hstart.symm, ← hk]
  constructor
  · rintro ⟨r, hr, start', stop, hstart', hstop, hcount, -⟩
    obtain rfl := Option.some.inj (heq.symm.trans hr)
    obtain rfl : start' = start := by omega
    dsimp only at hcount
    omega
  · intro hcount
    refine ⟨_, heq, start, start + k, hstart.symm, ?_, ?_, hholds, hpre⟩
    · omega
    · dsimp only
      omega

/-! ## The editor -/

theorem setPrefix_holds (h : Holds ed head t) (prefixSize : Int) : Holds (streditSetPrefix ed prefixSize) head t := by
  refine ⟨h.block, h.reserved, h.size, h.size_le, ?_, h.alloc, h.raw, h.fields⟩
  unfold streditSetPrefix
  dsimp only
  omega

/-- Both do what they are for, with and without memory and whatever the new bytes hold, exactly where their sums fit. -/
theorem stredit_iff (h : Holds ed head t) (hp : -2 ^ 31 ≤ p ∧ p < 2 ^ 31) (hn : -2 ^ 31 ≤ n ∧ n < 2 ^ 31) :
    (∀ s : List UInt8, n ≤ s.length →
      ((∀ realloc fresh, ∃ r, streditInsert realloc fresh ed p s n = some r ∧ Inserted ed head t p s n r) ↔ InsertFits ed p n)) ∧
    ((∃ r, streditDelete ed p n = some r ∧ Deleted ed head t p n r) ↔ DeleteFits ed p n) := by
  refine ⟨fun s hs => ⟨fun hins => ?_, fun hfits realloc fresh => insert_ok h hs hfits⟩, delete_iff h hp hn⟩
  obtain ⟨r, hr, hdone⟩ := hins true 0
  exact insert_fits h hn hr hdone

end

/-- An editor of "a" without a prefix. -/
def editorOfA : StreditT := ⟨[97, 0], 8, 0, 1, 2, 0⟩

theorem editorOfA_holds : Holds editorOfA [] [97] :=
  ⟨⟨[], rfl⟩, rfl, rfl, by decide, by decide, by decide, rfl, by decide⟩

theorem stredit_iff_editorOfA :
    (∀ realloc fresh, ∃ r, streditInsert realloc fresh editorOfA 0 [98] 1 = some r ∧ Inserted editorOfA [] [97] 0 [98] 1 r) ∧
    ∃ r, streditDelete editorOfA 0 1 = some r ∧ Deleted editorOfA [] [97] 0 1 r := by
  obtain ⟨hins, hdel⟩ := @stredit_iff editorOfA [] [97] 0 1 editorOfA_holds (by decide) (by decide)
  refine ⟨(hins [98] (by decide)).mpr (.inr (.inr ⟨by decide, by decide, .inr (.inr (by decide))⟩)), hdel.mpr (.inl (by decide))⟩

/-- A size below 0 is copied as one that no block has, and one that wraps deletes all. -/
theorem stredit_counterexample :
    ¬ (∃ r, streditInsert true 0 editorOfA 0 [] (-1) = some r ∧ Inserted editorOfA [] [97] 0 [] (-1) r) ∧
    ¬ (∃ r, streditDelete editorOfA (-1) (-2 ^ 31) = some r ∧ Deleted editorOfA [] [97] (-1) (-2 ^ 31) r) := by
  constructor
  · rintro ⟨r, hr, -⟩
    cases hr
  · rintro ⟨r, hr, start, stop, hstart, hstop, hcount, -⟩
    have hone : (streditDelete editorOfA (-1) (-2 ^ 31)).map Prod.fst = some 1 := by decide
    rw [hr] at hone
    rw [Option.some.inj hone] at hcount
    replace hstart : (start : Int) = 0 := hstart
    replace hstop : (stop : Int) = max (start : Int) (min (-1 + -2 ^ 31) 1) := hstop
    omega

end PythonUltra.Sh.Stredit
