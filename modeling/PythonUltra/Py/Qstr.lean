/-
  PythonUltra.Py.Qstr — interned strings (py/qstr.c).

  The pools are a list, the last one first, and a pool's hashes, lengths and texts are one
  list of entries. A string keeps its number as pools are added, and a search by bisection in
  a sorted pool misses none that is there, so two calls answer one number exactly when they
  are given one string (`qstr_interns`). Where in a chunk the text lies is left out.
-/

import Mathlib

namespace PythonUltra.Py.Qstr

/-! ## The code -/

structure Config where
  wordBits : Nat
  bytesInHash : Nat
  bytesInLen : Nat
  extraPool : Bool
  /-- What the memory of a fresh pool holds for `is_sorted`, which nothing writes. -/
  stale : Bool

structure Entry where
  hash : Nat
  data : List UInt8

structure Pool where
  totalPrevLen : Nat
  isSorted : Bool
  alloc : Nat
  entries : List Entry

inductive Raise where
  | nameTooLong
  | memory

/-- A string, and whether there is memory for its text and for a pool. -/
structure Call where
  str : List UInt8
  chunk : Bool
  room : Bool

/-- `MICROPY_ALLOC_QSTR_ENTRIES_INIT` -/
def entriesInit : Nat := 10

/-- `my_strncmp` -/
def myStrncmp : List UInt8 → List UInt8 → Nat → Int
  | a :: as, b :: bs, n + 1 => if n ≠ 0 ∧ a ≠ 0 ∧ b ≠ 0 ∧ a = b then myStrncmp as bs n else a.toNat - b.toNat
  | _, _, _ => 0

/-- `qstr_str` -/
def qstrStr : List Pool → Nat → Option (List UInt8)
  | [], _ => none
  | pool :: prev, q => if q < pool.totalPrevLen then qstrStr prev q else pool.entries[q - pool.totalPrevLen]?.map Entry.data

section Code

variable (c : Config)

/-- `qstr_compute_hash` -/
def computeHash (data : List UInt8) : Nat :=
  let hash := data.foldl (fun hash byte => hash * 33 % 2 ^ c.wordBits ^^^ byte.toNat) 5381 % 2 ^ (8 * if c.bytesInHash = 0 then 2 else c.bytesInHash)
  if hash = 0 then 1 else hash

/-- The binary search inside the pool. -/
def narrow (entries : List Entry) (str : List UInt8) (low high : Nat) : Nat × Nat :=
  if high - low > 1 then
    let mid := (low + high) / 2
    if (entries[mid]?.map fun entry => myStrncmp str (entry.data ++ [0]) str.length).getD 0 ≤ 0 then narrow entries str low mid
    else narrow entries str mid high
  else (low, high)
termination_by high - low

def isAt (entries : List Entry) (str : List UInt8) (at' : Nat) : Bool :=
  entries[at']?.any fun entry => (c.bytesInHash = 0 ∨ entry.hash = computeHash c str) ∧ entry.data = str

def findAt (pool : Pool) (str : List UInt8) : Option Nat :=
  let (low, high) := if pool.isSorted then narrow pool.entries str 0 (pool.entries.length - 1) else (0, pool.entries.length - 1)
  (List.range' low (high + 1 - low)).find? (isAt c pool.entries str)

/-- The loop over the pools in `qstr_find_strn`. -/
def findIn (str : List UInt8) : List Pool → Nat
  | [] => 0
  | pool :: prev =>
    match findAt c pool str with
    | some at' => pool.totalPrevLen + at'
    | none => findIn str prev

/-- `qstr_find_strn` -/
def findStrn (pools : List Pool) (str : List UInt8) : Nat := if str.length = 0 then 1 else findIn c str pools

def qstrAdd (room : Bool) (pools : List Pool) (str : List UInt8) : Option (Nat × List Pool) :=
  match pools with
  | [] => none
  | last :: prev =>
    if last.entries.length ≥ last.alloc then
      if room then
        let newAlloc := if c.extraPool then max entriesInit (last.alloc * 2) else last.alloc * 2
        let total := last.totalPrevLen + last.entries.length
        some (total, ⟨total, c.stale, newAlloc, [⟨computeHash c str, str⟩]⟩ :: last :: prev)
      else none
    else some (last.totalPrevLen + last.entries.length, { last with entries := last.entries ++ [⟨computeHash c str, str⟩] } :: prev)

/-- `qstr_from_strn` -/
def fromStrn (pools : List Pool) (call : Call) : Except Raise Nat × List Pool :=
  if findStrn c pools call.str ≠ 0 then (.ok (findStrn c pools call.str), pools)
  else if call.str.length ≥ 2 ^ (8 * c.bytesInLen) then (.error .nameTooLong, pools)
  else if ¬ call.chunk then (.error .memory, pools)
  else ((qstrAdd c call.room pools call.str).map fun added => (.ok added.1, added.2)).getD (.error .memory, pools)

/-- The calls with what they answer. -/
def run (pools : List Pool) : List Call → List (Call × Except Raise Nat) × List Pool
  | [] => ([], pools)
  | call :: calls =>
    let (result, pools) := fromStrn c pools call
    let (results, pools) := run pools calls
    ((call, result) :: results, pools)

end Code

/-! ## What is interned -/

/-- The strings by their numbers. -/
def strings : List Pool → List (List UInt8)
  | [] => []
  | pool :: prev => strings prev ++ pool.entries.map Entry.data

/-- A pool of the firmware: no string twice and none with a zero byte in it. -/
structure Sorted (entries : List Entry) : Prop where
  some : entries ≠ []
  order : entries.Pairwise fun e e' => e.data < e'.data
  whole : ∀ e ∈ entries, 0 ∉ e.data

structure Pool.Inv (c : Config) (pool : Pool) : Prop where
  hash : ∀ e ∈ pool.entries, e.data ≠ [] → e.hash = computeHash c e.data
  sorted : pool.isSorted = true → Sorted pool.entries

def Chained (c : Config) : List Pool → Prop
  | [] => True
  | pool :: prev => Chained c prev ∧ pool.totalPrevLen = (strings prev).length ∧ pool.Inv c

structure Inv (c : Config) (pools : List Pool) : Prop where
  chained : Chained c pools
  /-- `MP_QSTRnull` and `MP_QSTR_`. -/
  empty : (strings pools)[0]? = some [] ∧ (strings pools)[1]? = some []
  distinct : ∀ (i j : Nat) (str : List UInt8), str ≠ [] → (strings pools)[i]? = some str → (strings pools)[j]? = some str → i = j
  /-- The last pool of the firmware has no room left. -/
  full : ∀ pool ∈ pools.head?, pool.isSorted = true → pool.alloc ≤ pool.entries.length

variable {c : Config} {pool : Pool} {pools after : List Pool} {entries : List Entry} {str : List UInt8} {q t : Nat}

theorem qstrStr_eq (h : Chained c pools) (q : Nat) : qstrStr pools q = (strings pools)[q]? := by
  induction pools with
  | nil => rfl
  | cons pool prev ih =>
    obtain ⟨hprev, htotal, -⟩ := h
    rw [qstrStr, strings, htotal]
    split
    · next hlt => rw [ih hprev, List.getElem?_append_left hlt]
    · next hge => rw [List.getElem?_append_right (Nat.le_of_not_lt hge), List.getElem?_map]

/-! ## The search -/

theorem myStrncmp_sign : ∀ str d : List UInt8, 0 ∉ str →
    (d < str → 0 < myStrncmp str (d ++ [0]) str.length) ∧ (str < d → myStrncmp str (d ++ [0]) str.length ≤ 0)
  | [], d, _ => ⟨fun h => absurd h (List.not_lt_nil d), fun _ => Int.le_refl 0⟩
  | a :: as, [], ha => by
    have : a.toNat ≠ 0 := fun h => ha (by simp [← UInt8.toNat_inj, h])
    simp [myStrncmp]; omega
  | a :: as, b :: bs, ha => by
    have ih := myStrncmp_sign as bs (fun h => ha (.tail _ h))
    have hnil : bs < as → as ≠ [] := fun h e => List.not_lt_nil bs (e ▸ h)
    by_cases hab : a = b
    · subst hab
      have hz : a ≠ 0 := fun h => ha (by simp [h])
      simp [myStrncmp, hz]
      grind
    · simp [myStrncmp, hab, List.cons_lt_cons_iff, UInt8.lt_iff_toNat_lt, Ne.symm hab]
      omega

/-- The part the bisection goes on with has the string in it if the pool has. -/
theorem narrow_keeps (h : Sorted entries) (ht : entries[t]?.map Entry.data = some str) (low high : Nat) (hlow : low ≤ t) (hhigh : t ≤ high) :
    (narrow entries str low high).1 ≤ t ∧ t ≤ (narrow entries str low high).2 := by
  obtain ⟨e, he, rfl⟩ := Option.map_eq_some_iff.1 ht
  obtain ⟨hlt, rfl⟩ := List.getElem?_eq_some_iff.1 he
  fun_induction narrow entries entries[t].data low high with
  | case1 low high hgap mid hcmp ih =>
    refine ih hlow (Nat.le_of_not_lt fun hmid => ?_)
    have hm : mid < entries.length := Nat.lt_trans hmid hlt
    have := (myStrncmp_sign _ _ (h.whole _ (List.getElem_mem hlt))).1 (List.pairwise_iff_getElem.1 h.order mid t hm hlt hmid)
    simp [hm] at hcmp
    omega
  | case2 low high hgap mid hcmp ih =>
    refine ih (Nat.le_of_not_lt fun hmid => hcmp ?_) hhigh
    by_cases hm : mid < entries.length
    · simpa [hm] using (myStrncmp_sign _ _ (h.whole _ (List.getElem_mem hlt))).2 (List.pairwise_iff_getElem.1 h.order t mid hlt hm hmid)
    · simp [hm]
  | case3 low high => exact ⟨hlow, hhigh⟩

theorem findAt_some (h : findAt c pool str = some t) : (pool.entries.map Entry.data)[t]? = some str := by
  have := List.find?_some h
  simp only [isAt, Option.any_eq_true] at this
  obtain ⟨e, he, hdata⟩ := this
  simp_all

theorem findAt_none (hs : str ≠ []) (hpool : pool.Inv c) (h : findAt c pool str = none) : str ∉ pool.entries.map Entry.data := by
  intro hmem
  obtain ⟨t, ht⟩ := List.getElem?_of_mem hmem
  rw [List.getElem?_map] at ht
  obtain ⟨e, he, rfl⟩ := Option.map_eq_some_iff.1 ht
  have hlt : t ≤ pool.entries.length - 1 := Nat.le_sub_one_of_lt (List.getElem?_eq_some_iff.1 he).1
  have hin : isAt c pool.entries e.data t = true := by
    simp [isAt, he, hpool.hash e (List.mem_of_getElem? he) hs]
  have hrange (w : Nat × Nat) (hw : w.1 ≤ t ∧ t ≤ w.2) : (List.range' w.1 (w.2 + 1 - w.1)).find? (isAt c pool.entries e.data) ≠ none :=
    fun hn => List.find?_eq_none.1 hn t (List.mem_range'_1.2 (by omega)) hin
  cases hso : pool.isSorted with
  | true => exact hrange _ (narrow_keeps (hpool.sorted hso) ht 0 _ t.zero_le hlt) (by simpa [findAt, hso] using h)
  | false => exact hrange (0, _) ⟨t.zero_le, hlt⟩ (by simpa [findAt, hso] using h)

theorem findIn_spec (hs : str ≠ []) (h : Chained c pools) : (str ∈ strings pools → (strings pools)[findIn c str pools]? = some str) ∧ (str ∉ strings pools → findIn c str pools = 0) := by
  induction pools with
  | nil => simp [strings, findIn]
  | cons pool prev ih =>
    obtain ⟨hprev, htotal, hpool⟩ := h
    specialize ih hprev
    cases hfind : findAt c pool str with
    | some t =>
      have ht := findAt_some hfind
      simp [findIn, strings, hfind, List.mem_of_getElem? ht, htotal, List.getElem?_append_right, ht]
    | none =>
      have := findAt_none hs hpool hfind
      simp only [findIn, strings, hfind, List.mem_append, this, or_false]
      refine ⟨fun hmem => ?_, ih.2⟩
      have hprior := ih.1 hmem
      rwa [List.getElem?_append_left (List.getElem?_eq_some_iff.1 hprior).1]

/-! ## What a call does -/

theorem getElem?_later (h : strings pools <+: strings after) (hq : (strings pools)[q]? = some str) : (strings after)[q]? = some str := by
  obtain ⟨more, hmore⟩ := h
  rwa [← hmore, List.getElem?_append_left (List.getElem?_eq_some_iff.1 hq).1]

theorem Inv.append (h : Inv c pools) (hnot : str ∉ strings pools) (hst : strings after = strings pools ++ [str]) (hch : Chained c after)
    (hfull : ∀ pool ∈ after.head?, pool.isSorted = true → pool.alloc ≤ pool.entries.length) : Inv c after := by
  have hmore : strings pools <+: strings after := ⟨_, hst.symm⟩
  refine ⟨hch, ⟨getElem?_later hmore h.empty.1, getElem?_later hmore h.empty.2⟩, ?_, hfull⟩
  intro i j s hne hi hj
  have hdist := h.distinct i j s hne
  rw [hst] at hi hj
  grind

theorem qstrAdd_spec {room : Bool} {added : Nat × List Pool} (hc : c.stale = false) (hs : str ≠ []) (hnot : str ∉ strings pools) (h : Inv c pools)
    (hadd : qstrAdd c room pools str = some added) : added.1 = (strings pools).length ∧ strings added.2 = strings pools ++ [str] ∧ Inv c added.2 := by
  cases pools with
  | nil => cases hadd
  | cons last prev =>
    obtain ⟨⟨hprev, htotal, hpool⟩, -, -, hfull⟩ := id h
    unfold qstrAdd at hadd
    dsimp only at hadd
    split at hadd
    · split at hadd
      · cases hadd
        exact ⟨by simp [strings, htotal], rfl, h.append hnot rfl ⟨⟨hprev, htotal, hpool⟩, by simp [strings, htotal], by simp, by simp [hc]⟩ (by simp [hc])⟩
      · cases hadd
    · next hroom =>
      have hun : last.isSorted ≠ true := fun hso => hroom (hfull last rfl hso)
      cases hadd
      have hst : strings ({ last with entries := last.entries ++ [⟨computeHash c str, str⟩] } :: prev) = strings (last :: prev) ++ [str] := by simp [strings]
      refine ⟨by simp [strings, htotal], hst, h.append hnot hst ⟨hprev, htotal, ?_, fun hso => absurd hso hun⟩ (by simp [hun])⟩
      intro e he
      rcases List.mem_append.1 he with he | he
      · exact hpool.hash e he
      · simp_all

/-- A call's answer is the number of its string, and it fails only for a long name or for want of memory. -/
def Answers (c : Config) (after : List Pool) (call : Call) : Except Raise Nat → Prop
  | .ok q => (strings after)[q]? = some call.str ∧ (call.str = [] → q = 1)
  | .error _ => call.str.length < 2 ^ (8 * c.bytesInLen) → call.chunk = true → call.room = false

theorem Answers.later {call : Call} {result : Except Raise Nat} (h : Answers c pools call result) (hmore : strings pools <+: strings after) : Answers c after call result := by
  cases result with
  | ok q => exact h.imp_left (getElem?_later hmore)
  | error e => exact h

theorem fromStrn_step (hc : c.stale = false) (h : Inv c pools) (call : Call) :
    strings pools <+: strings (fromStrn c pools call).2 ∧ Inv c (fromStrn c pools call).2 ∧ Answers c (fromStrn c pools call).2 call (fromStrn c pools call).1 := by
  have hstay (result : Except Raise Nat) (ha : Answers c pools call result) := And.intro (List.prefix_refl (strings pools)) (And.intro h ha)
  by_cases hs : call.str = []
  · simp only [fromStrn, findStrn, hs, List.length_nil, if_true]
    exact hstay (.ok 1) ⟨hs ▸ h.empty.2, fun _ => rfl⟩
  have hlen : call.str.length ≠ 0 := fun e => hs (List.length_eq_zero_iff.1 e)
  have hfind := findIn_spec hs h.chained
  simp only [fromStrn, findStrn, if_neg hlen]
  split
  · next hne =>
    have hmem : call.str ∈ strings pools := by_contra fun hn => hne (hfind.2 hn)
    exact hstay (.ok _) ⟨hfind.1 hmem, fun e => absurd e hs⟩
  next hz =>
  split
  · next hlong => exact hstay (.error .nameTooLong) fun hl => absurd hl (Nat.not_lt_of_le hlong)
  split
  · next hchunk => exact hstay (.error .memory) fun _ hch => absurd hch hchunk
  have hnot : call.str ∉ strings pools := by
    intro hmem
    have hit := hfind.1 hmem
    rw [not_not.1 hz, h.empty.1] at hit
    exact hs (Option.some.inj hit).symm
  cases hadd : qstrAdd c call.room pools call.str with
  | some added =>
    obtain ⟨hq, hst, hinv⟩ := qstrAdd_spec hc hs hnot h hadd
    exact ⟨⟨_, hst.symm⟩, hinv, by simp [hq, hst], fun e => absurd e hs⟩
  | none =>
    refine hstay (.error .memory) fun _ _ => ?_
    have h0 := h.empty.1
    cases pools with
    | nil => cases h0
    | cons last prev => simp only [qstrAdd] at hadd; grind

theorem run_spec (hc : c.stale = false) (calls : List Call) (h : Inv c pools) : strings pools <+: strings (run c pools calls).2 ∧ Inv c (run c pools calls).2 ∧
    ∀ p ∈ (run c pools calls).1, Answers c (run c pools calls).2 p.1 p.2 := by
  induction calls generalizing pools with
  | nil => exact ⟨List.prefix_refl _, h, by simp [run]⟩
  | cons call calls ih =>
    obtain ⟨hmore, hinv, ha⟩ := fromStrn_step hc h call
    obtain ⟨hmore', hinv', hrest⟩ := ih hinv
    exact ⟨hmore.trans hmore', hinv', List.forall_mem_cons.2 ⟨ha.later hmore', hrest⟩⟩

/-- From the pools of the firmware or any later ones: a number answered is that of the call's string to the end, two calls answer one number exactly when
their strings are one, and a call fails only for a name too long or for want of memory. -/
theorem qstr_interns {calls : List Call} {results : List (Call × Except Raise Nat)} (hc : c.stale = false) (h : Inv c pools) (hrun : run c pools calls = (results, after)) :
    Inv c after ∧ (∀ (q : Nat) (str : List UInt8), qstrStr pools q = some str → qstrStr after q = some str) ∧
    (∀ (call : Call) (q : Nat), (call, .ok q) ∈ results → q ≠ 0 ∧ qstrStr after q = some call.str) ∧
    (∀ (call call' : Call) (q q' : Nat), (call, .ok q) ∈ results → (call', .ok q') ∈ results → (q = q' ↔ call.str = call'.str)) ∧
    (∀ (call : Call) (e : Raise), (call, .error e) ∈ results → call.str.length < 2 ^ (8 * c.bytesInLen) → call.chunk = true → call.room = false) := by
  obtain ⟨hmore, hinv, hall⟩ := run_spec hc calls h
  rw [hrun] at hmore hinv hall
  refine ⟨hinv, fun q str hq => ?_, fun call q hq => ?_, fun call call' q q' hq hq' => ?_, fun call e he => hall _ he⟩
  · rw [qstrStr_eq h.chained] at hq
    rw [qstrStr_eq hinv.chained]
    exact getElem?_later hmore hq
  · obtain ⟨hstr, hone⟩ := hall _ hq
    refine ⟨fun h0 => ?_, by rw [qstrStr_eq hinv.chained, hstr]⟩
    rw [h0, hinv.empty.1] at hstr
    exact absurd (h0.symm.trans (hone (Option.some.inj hstr).symm)) Nat.zero_ne_one
  · obtain ⟨hstr, hone⟩ := hall _ hq
    obtain ⟨hstr', hone'⟩ := hall _ hq'
    constructor
    · rintro rfl
      exact Option.some.inj (hstr.symm.trans hstr')
    · intro he
      by_cases hs : call.str = []
      · rw [hone hs, hone' (he ▸ hs)]
      · exact hinv.distinct q q' call.str hs hstr (he ▸ hstr')

theorem qstr_interns_new : let c : Config := ⟨32, 2, 1, false, false⟩
    let pools : List Pool := [⟨2, true, 1, [⟨computeHash c [97], [97]⟩]⟩, ⟨0, false, 2, [⟨0, []⟩, ⟨1, []⟩]⟩]
    let calls : List Call := [⟨[98], true, true⟩, ⟨[97], true, true⟩, ⟨[98], true, true⟩]
    (run c pools calls).1.map (Except.toOption ·.2) = [some 3, some 2, some 3] ∧ Inv c (run c pools calls).2 := by
  intro c pools calls
  constructor
  · simp [calls, pools, c, run, fromStrn, findStrn, findIn, findAt, narrow, isAt, qstrAdd, List.find?, List.range', Except.toOption]
  have hsorted : Sorted [⟨computeHash c [97], [97]⟩] := ⟨by simp, by simp, by simp⟩
  have hinv : Inv c pools := by
    refine ⟨⟨⟨trivial, rfl, ⟨by simp, by simp⟩⟩, rfl, by simp, fun _ => hsorted⟩, by simp [pools, strings], ?_, by simp [pools]⟩
    intro i j str hs hi hj
    simp only [strings, pools, List.map_cons, List.map_nil] at hi hj
    grind
  exact (qstr_interns rfl hinv (Prod.eta _).symm).1

end PythonUltra.Py.Qstr
