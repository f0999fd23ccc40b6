/-
  PythonUltra.Py.Repl — completion at the prompt (py/repl.c).

  A qstr is a string and a number, in the order of the pool; whether an object has it as an
  attribute is a parameter, and so is the lookup along a chain. The loop that shrinks the
  match against a first one takes the NUL that ends a name for a character: a name that a NUL
  follows in the first match shrinks nothing (`hides`). So the length is that of the longest
  common prefix, and what is inserted is shared by every match, exactly where some other match
  has shrunk it that far (`completions_iff`).
-/

import Mathlib.Algebra.GroupWithZero.Nat
import Mathlib.Data.Int.ConditionallyCompleteOrder
import Mathlib.Data.List.DropRight
import Mathlib.Data.List.Infix

namespace PythonUltra.Py.Repl

/-- `str[j]`, where a string ends with a NUL. -/
def charAt (str : List UInt8) (j : Nat) : Option UInt8 := (str ++ [0])[j]?

/-- `strncmp`, where it is 0. -/
def strncmpEq : List UInt8 → List UInt8 → Nat → Bool
  | _, _, 0 => true
  | a :: as, b :: bs, n + 1 => a == b && (a == 0 || strncmpEq as bs n)
  | _, _, _ + 1 => false

/-- The loop that searches for the longest common prefix of `match_str` and `d_str`. -/
def shrink (sLen : Nat) (matchStr dStr : List UInt8) (matchLen : Nat) : Nat :=
  ((List.range' sLen (min matchLen dStr.length + 1 - sLen)).find? fun j => charAt matchStr j ≠ charAt dStr j).getD matchLen

structure Completions where
  matchStr : Option (List UInt8)
  matchLen : Nat
  qFirst : Nat
  qLast : Nat
  deriving DecidableEq

section
variable (test : Nat → Bool) (s : List UInt8)

/-- One qstr in `find_completions`. -/
def visit (c : Completions) (d : List UInt8 × Nat) : Completions :=
  if s.length = 0 ∧ charAt d.1 0 = some 95 then c
  else if s.length ≤ d.1.length ∧ strncmpEq s (d.1 ++ [0]) s.length then
    if test d.2 then
      { matchStr := some (c.matchStr.getD d.1)
        matchLen := (c.matchStr.map fun matchStr => shrink s.length matchStr d.1 c.matchLen).getD d.1.length
        qFirst := if c.qFirst = 0 then d.2 else c.qFirst
        qLast := d.2 }
    else c
  else c

/-- The names of the pool from behind `MP_QSTR_` on, which is 1. -/
def pool (names : List (List UInt8)) : List (List UInt8 × Nat) := names.zipIdx 2

/-- `find_completions` -/
def findCompletions (names : List (List UInt8)) : Completions := (pool names).foldl (visit test s) ⟨none, 0, 0, 0⟩

/-- Starts with `s`, and not with an underscore where `s` is empty. -/
def isMatch (d : List UInt8 × Nat) : Bool := s <+: d.1 ∧ ¬ (s = [] ∧ d.1.head? = some 95) ∧ test d.2

def matching (names : List (List UInt8)) : List (List UInt8 × Nat) := (pool names).filter (isMatch test s)

end

/-- An object at the prompt, its attributes, and the qstrs that it has; of no object, the built-in modules. -/
structure World (Obj : Type) where
  main : Obj
  load : Obj → List UInt8 → Option Obj
  test : Option Obj → Nat → Bool

/-- `unichar_isalpha`, `unichar_isdigit`, an underscore or a dot. -/
def inChain (c : UInt8) : Bool := (65 ≤ c ∧ c ≤ 90) ∨ (97 ≤ c ∧ c ≤ 122) ∨ (48 ≤ c ∧ c ≤ 57) ∨ c = 95 ∨ c = 46

def importStr : List UInt8 := [105, 109, 112, 111, 114, 116, 32]

/-- What `mp_repl_autocomplete` answers: 0, what it has to insert, or -1. -/
inductive Answer where
  | nothing
  | inserts (compl : List UInt8)
  | many
  deriving DecidableEq

section
variable {Obj : Type} (world : World Obj)

/-- Along "a.b.c": the object before the last dot, and the name behind it. -/
def walk : Obj → List UInt8 → List UInt8 → Option (Obj × List UInt8)
  | obj, word, [] => some (obj, word)
  | obj, word, c :: cs => if c = 46 then (world.load obj word).bind fun obj => walk obj [] cs else walk obj (word ++ [c]) cs

/-- The object whose attribute is typed, and what is typed of it. -/
def typed (str : List UInt8) : Option (Option Obj × List UInt8) :=
  (walk world world.main [] (str.rtakeWhile inChain)).map fun found => (if importStr <+: str then none else some found.1, found.2)

/-- `mp_repl_autocomplete` -/
def replAutocomplete (names : List (List UInt8)) (str : List UInt8) : Answer :=
  match typed world str with
  | none => .nothing
  | some (obj, s) =>
    let c := findCompletions (world.test obj) s names
    if c.qFirst = 0 then
      if s.length = str.length ∧ 0 < s.length ∧ s.length < importStr.length ∧ s = importStr.take s.length then .inserts (importStr.drop s.length)
      else .nothing
    else if c.qFirst = c.qLast ∨ c.matchLen > s.length then .inserts (((c.matchStr.getD []).drop s.length).take (c.matchLen - s.length))
    else .many

end

/-- The length of the longest common prefix. -/
def LcpLength (names : List (List UInt8)) (k : Nat) : Prop :=
  (∃ p : List UInt8, p.length = k ∧ ∀ d ∈ names, p <+: d) ∧ ∀ p : List UInt8, (∀ d ∈ names, p <+: d) → p.length ≤ k

/-- Of the matches: the first, the length that all share, and the numbers of the first and the last. -/
def Completes (found : List (List UInt8 × Nat)) (c : Completions) : Prop :=
  c.matchStr = found.head?.map Prod.fst ∧ (found ≠ [] → LcpLength (found.map Prod.fst) c.matchLen) ∧
    c.qFirst = (found.head?.map Prod.snd).getD 0 ∧ c.qLast = (found.getLast?.map Prod.snd).getD 0

/-- What is inserted is in every match. -/
def Shares (s : List UInt8) (found : List (List UInt8 × Nat)) (answer : Answer) : Prop :=
  ∀ compl, answer = .inserts compl → ∀ d ∈ found, s ++ compl <+: d.1

/-- The NUL that ends `d` is one that follows it in `m`. -/
def hides (m d : List UInt8) : Prop := d ++ [0] <+: m

/-- For a match that the first one hides there is another, which it does not, that the NUL behind it does not begin. -/
def Unhidden (found : List (List UInt8 × Nat)) : Prop :=
  ∀ m ∈ found.head?, ∀ d ∈ found, hides m.1 d.1 → ∃ d' ∈ found, ¬ hides m.1 d'.1 ∧ ¬ hides d'.1 d.1

section
variable {test : Nat → Bool} {s m d : List UInt8} {names : List (List UInt8)} {found : List (List UInt8 × Nat)} {j k : Nat}

/-! ## One qstr -/

theorem charAt_of_lt (h : j < d.length) : charAt d j = d[j]? := List.getElem?_append_left h

theorem strncmpEq_iff : ∀ {s d : List UInt8}, 0 ∉ s → s.length ≤ d.length → (strncmpEq s (d ++ [0]) s.length = true ↔ s <+: d)
  | [], d, _, _ => iff_of_true (by cases d <;> rfl) List.nil_prefix
  | a :: s, [], _, hlen => absurd hlen (by simp)
  | a :: s, b :: d, hs, hlen => by
    have ih := @strncmpEq_iff s d (fun hmem => hs (List.mem_cons_of_mem _ hmem)) (Nat.le_of_succ_le_succ hlen)
    have ha : a ≠ 0 := fun hzero => hs (hzero ▸ List.mem_cons_self)
    rw [List.length_cons, List.cons_append, strncmpEq, List.cons_prefix_cons, ← ih]
    simp [ha]

theorem take_prefix_iff (hk : k ≤ m.length) : m.take k <+: d ↔ ∀ j < k, j < d.length ∧ d[j]? = m[j]? := by
  rw [List.prefix_iff_getElem?]
  constructor
  · intro h j hj
    have hget := h j (by rw [List.length_take]; omega)
    refine ⟨(List.getElem?_eq_some_iff.mp hget).1, ?_⟩
    rw [hget, List.getElem_take, List.getElem?_eq_getElem]
  · intro h j hj
    rw [List.length_take] at hj
    rw [(h j (by omega)).2, List.getElem_take, List.getElem?_eq_getElem]

theorem hides_iff : hides m d ↔ d.length < m.length ∧ ∀ j ≤ d.length, charAt m j = charAt d j := by
  have hget : ∀ j ≤ d.length, charAt d j = some ((d ++ [0]).getD j 0) := by
    intro j hj
    rw [charAt, List.getD_eq_getElem?_getD, List.getElem?_eq_getElem (by rw [List.length_append, List.length_singleton]; omega)]
    rfl
  unfold hides
  rw [List.prefix_iff_getElem?]
  constructor
  · intro h
    have hlen : d.length < m.length :=
      (List.getElem?_eq_some_iff.mp (h d.length (by rw [List.length_append, List.length_singleton]; omega))).1
    refine ⟨hlen, fun j hj => ?_⟩
    have hj' : j < (d ++ [0]).length := by
      rw [List.length_append, List.length_singleton]
      omega
    rw [charAt_of_lt (by omega), h j hj', charAt, List.getElem?_eq_getElem hj']
  · rintro ⟨hlen, h⟩ j hj
    rw [List.length_append, List.length_singleton] at hj
    rw [← charAt_of_lt (by omega), h j (by omega), charAt, List.getElem?_eq_getElem]

/-- The loop leaves what is shared, except with a name that is hidden. -/
theorem le_shrink_iff {sLen matchLen : Nat} (hlen : matchLen ≤ m.length) (hs : ∀ j < sLen, j < d.length ∧ d[j]? = m[j]?) :
    k ≤ shrink sLen m d matchLen ↔ k ≤ matchLen ∧ (hides m d ∨ m.take k <+: d) := by
  unfold shrink
  rcases hfind : (List.range' sLen (min matchLen d.length + 1 - sLen)).find? fun j => charAt m j ≠ charAt d j with _ | j
  · rw [List.find?_range'_eq_none] at hfind
    have hsame : ∀ j, j ≤ matchLen → j ≤ d.length → sLen ≤ j → charAt m j = charAt d j := by
      intro j h1 h2 h3
      simpa using hfind j h3 (by omega)
    have hchars : ∀ j < matchLen, j < d.length → d[j]? = m[j]? := by
      intro j h1 h2
      by_cases hj : j < sLen
      · exact (hs j hj).2
      · rw [← charAt_of_lt h2, ← charAt_of_lt (by omega)]
        exact (hsame j (by omega) (by omega) (by omega)).symm
    refine ⟨fun hk => ⟨hk, ?_⟩, fun h => h.1⟩
    by_cases hd : matchLen ≤ d.length
    · right
      rw [Option.getD_none] at hk
      exact (take_prefix_iff (by omega)).mpr fun j hj => ⟨by omega, hchars j (by omega) (by omega)⟩
    · left
      refine hides_iff.mpr ⟨by omega, fun j hj => ?_⟩
      by_cases hj' : j < sLen
      · rw [charAt_of_lt (hs j hj').1, charAt_of_lt (by omega)]
        exact (hs j hj').2.symm
      · exact hsame j (by omega) hj (by omega)
  · rw [List.find?_range'_eq_some] at hfind
    obtain ⟨hne, hmem, hbefore⟩ := hfind
    rw [List.mem_range'_1] at hmem
    rw [Option.getD_some]
    have hnot : ¬ hides m d := by
      intro h
      have := (hides_iff.mp h).2 j (by omega)
      simp [this] at hne
    constructor
    · intro hk
      refine ⟨by omega, .inr ((take_prefix_iff (by omega)).mpr fun i hi => ?_)⟩
      by_cases hi' : i < sLen
      · exact hs i hi'
      · have hsame : charAt m i = charAt d i := by simpa using hbefore i (by omega) (by omega)
        rw [charAt_of_lt (by omega), charAt_of_lt (by omega)] at hsame
        exact ⟨by omega, hsame.symm⟩
    · rintro ⟨hk, hshare⟩
      by_contra hlt
      obtain ⟨hj, hsame⟩ := (take_prefix_iff (by omega)).mp (hshare.resolve_left hnot) j (by omega)
      rw [← charAt_of_lt hj, ← charAt_of_lt (by omega)] at hsame
      simp [hsame] at hne

/-! ## All of them -/

theorem visit_eq (hs : 0 ∉ s) (c : Completions) (d : List UInt8 × Nat) :
    visit test s c d = if isMatch test s d then
      { matchStr := some (c.matchStr.getD d.1)
        matchLen := (c.matchStr.map fun matchStr => shrink s.length matchStr d.1 c.matchLen).getD d.1.length
        qFirst := if c.qFirst = 0 then d.2 else c.qFirst
        qLast := d.2 } else c := by
  have hhead : (s.length = 0 ∧ charAt d.1 0 = some 95) ↔ (s = [] ∧ d.1.head? = some 95) := by
    rw [List.length_eq_zero_iff]
    refine and_congr_right fun _ => ?_
    obtain ⟨d, q⟩ := d
    cases d <;> simp [charAt]
  have hcmp : (s.length ≤ d.1.length ∧ strncmpEq s (d.1 ++ [0]) s.length = true) ↔ s <+: d.1 :=
    ⟨fun h => (strncmpEq_iff hs h.1).mp h.2, fun h => ⟨h.length_le, (strncmpEq_iff hs h.length_le).mpr h⟩⟩
  have hmatch : isMatch test s d = true ↔ s <+: d.1 ∧ ¬ (s = [] ∧ d.1.head? = some 95) ∧ test d.2 = true := by
    rw [isMatch, decide_eq_true_iff]
  unfold visit
  simp only [hhead, hcmp, hmatch]
  by_cases h1 : s = [] ∧ d.1.head? = some 95
  · simp [h1]
  · by_cases h2 : s <+: d.1 <;> by_cases h3 : test d.2 = true <;> simp [h1, h2, h3]

/-- The first match is kept, and the length is what is shared with all that it does not hide. -/
theorem foldl_visit (hs : 0 ∉ s) (hm : s <+: m) {q : Nat} (hq : q ≠ 0) : ∀ {found : List (List UInt8 × Nat)} {n qLast : Nat},
    (∀ d ∈ found, isMatch test s d = true) → n ≤ m.length →
    ∃ len ≤ n, found.foldl (visit test s) ⟨some m, n, q, qLast⟩ = ⟨some m, len, q, (found.getLast?.map Prod.snd).getD qLast⟩ ∧
      ∀ k, k ≤ len ↔ k ≤ n ∧ ∀ d ∈ found, hides m d.1 ∨ m.take k <+: d.1
  | [], n, qLast, _, _ => ⟨n, Nat.le_refl n, rfl, fun k => by simp⟩
  | d :: found, n, qLast, hfound, hn => by
    have hd : s <+: d.1 := by
      have hmatch := hfound d List.mem_cons_self
      rw [isMatch, decide_eq_true_iff] at hmatch
      exact hmatch.1
    have hstart : ∀ j < s.length, j < d.1.length ∧ d.1[j]? = m[j]? := by
      intro j hj
      have h1 := List.prefix_iff_getElem?.mp hd j hj
      exact ⟨(List.getElem?_eq_some_iff.mp h1).1, h1.trans (List.prefix_iff_getElem?.mp hm j hj).symm⟩
    have hshrink : ∀ k, k ≤ shrink s.length m d.1 n ↔ k ≤ n ∧ (hides m d.1 ∨ m.take k <+: d.1) := fun k => le_shrink_iff hn hstart
    have hle := ((hshrink _).mp (Nat.le_refl _)).1
    obtain ⟨len, hlen, heq, hiff⟩ := @foldl_visit hs hm q hq found (shrink s.length m d.1 n) d.2
      (fun d' hd' => hfound d' (List.mem_cons_of_mem _ hd')) (Nat.le_trans hle hn)
    refine ⟨len, Nat.le_trans hlen hle, ?_, fun k => ?_⟩
    · rw [List.foldl_cons, visit_eq hs, if_pos (hfound d List.mem_cons_self)]
      simp only [Option.getD_some, Option.map_some, if_neg hq, heq]
      rw [List.getLast?_cons]
      simp
    · rw [hiff k, hshrink k]
      simp [and_assoc]

theorem findCompletions_eq (hs : 0 ∉ s) : findCompletions test s names = (matching test s names).foldl (visit test s) ⟨none, 0, 0, 0⟩ := by
  rw [matching, List.foldl_filter, findCompletions]
  congr 1
  funext c d
  rw [visit_eq hs]
  split
  · rfl
  · rfl

/-- What is found: the first match, shrunk against those it does not hide. -/
theorem findCompletions_cons (hs : 0 ∉ s) {d : List UInt8 × Nat} (h : matching test s names = d :: found) :
    ∃ len ≤ d.1.length, findCompletions test s names = ⟨some d.1, len, d.2, ((d :: found).getLast?.map Prod.snd).getD 0⟩ ∧
      ∀ k, k ≤ len ↔ k ≤ d.1.length ∧ ∀ d' ∈ d :: found, hides d.1 d'.1 ∨ d.1.take k <+: d'.1 := by
  have hall : ∀ d' ∈ d :: found, isMatch test s d' = true := by
    intro d' hd'
    rw [← h] at hd'
    exact (List.mem_filter.mp hd').2
  have hd := hall d List.mem_cons_self
  have hq : d.2 ≠ 0 := by
    have hmem : d ∈ pool names := (List.mem_filter.mp (h ▸ List.mem_cons_self : d ∈ matching test s names)).1
    have := (List.mem_zipIdx hmem).1
    omega
  have hm : s <+: d.1 := by
    rw [isMatch, decide_eq_true_iff] at hd
    exact hd.1
  obtain ⟨len, hlen, heq, hiff⟩ := @foldl_visit test s d.1 hs hm d.2 hq found d.1.length d.2
    (fun d' hd' => hall d' (List.mem_cons_of_mem _ hd')) (Nat.le_refl _)
  refine ⟨len, hlen, ?_, fun k => ?_⟩
  · rw [findCompletions_eq hs, h, List.foldl_cons, visit_eq hs, if_pos hd]
    simp only [Option.getD_none, Option.map_none, if_true, heq]
    rw [List.getLast?_cons]
    simp
  · rw [hiff k]
    simp [List.take_prefix]

theorem findCompletions_nil (hs : 0 ∉ s) (h : matching test s names = []) : findCompletions test s names = ⟨none, 0, 0, 0⟩ := by
  rw [findCompletions_eq hs, h]
  rfl

/-! ## What is shared -/

/-- The length that is left is shared by all exactly where what is hidden has been shrunk to by another. -/
theorem shared_iff {d : List UInt8 × Nat} {len : Nat} (hlen : len ≤ d.1.length)
    (h : ∀ k, k ≤ len ↔ k ≤ d.1.length ∧ ∀ d' ∈ d :: found, hides d.1 d'.1 ∨ d.1.take k <+: d'.1) :
    (∀ d' ∈ d :: found, d.1.take len <+: d'.1) ↔ Unhidden (d :: found) := by
  have hunhidden : Unhidden (d :: found) ↔
      ∀ d' ∈ d :: found, hides d.1 d'.1 → ∃ d'' ∈ d :: found, ¬ hides d.1 d''.1 ∧ ¬ hides d''.1 d'.1 := by
    simp [Unhidden, Option.mem_some_iff]
  have hhidden : ∀ d' : List UInt8 × Nat, hides d.1 d'.1 → d'.1.length < d.1.length ∧ d.1.take d'.1.length = d'.1 ∧
      d.1.take (d'.1.length + 1) = d'.1 ++ [0] := by
    rintro d' ⟨rest, hrest⟩
    rw [← hrest]
    refine ⟨?_, ?_, ?_⟩
    · simp only [List.length_append, List.length_singleton]
      omega
    · rw [List.append_assoc, List.take_left]
    · exact List.take_left' (by rw [List.length_append, List.length_singleton])
  rw [hunhidden]
  constructor
  · intro hall d' hd' hhides
    obtain ⟨hlt, -, htake⟩ := hhidden d' hhides
    have hle := (hall d' hd').length_le
    rw [List.length_take] at hle
    have hnot := (h (d'.1.length + 1)).not.mp (by omega)
    rw [htake] at hnot
    push Not at hnot
    exact hnot hlt
  · intro hshrunk d' hd'
    rcases ((h len).mp (Nat.le_refl _)).2 d' hd' with hhides | hprefix
    · obtain ⟨hlt, htake, htake'⟩ := hhidden d' hhides
      obtain ⟨d'', hd'', hnot, hdiff⟩ := hshrunk d' hd' hhides
      have hle : len ≤ d'.1.length := by
        by_contra hlong
        have hshared := ((h (d'.1.length + 1)).mp (by omega)).2 d'' hd''
        rw [htake'] at hshared
        exact hshared.elim hnot hdiff
      calc d.1.take len <+: d.1.take d'.1.length := List.take_prefix_take_left hle
        _ = d'.1 := htake
        _ <+: d'.1 := List.prefix_rfl
    · exact hprefix

theorem lcpLength_iff {d : List UInt8 × Nat} {len : Nat} (hlen : len ≤ d.1.length)
    (h : ∀ k, k ≤ len ↔ k ≤ d.1.length ∧ ∀ d' ∈ d :: found, hides d.1 d'.1 ∨ d.1.take k <+: d'.1) :
    LcpLength ((d :: found).map Prod.fst) len ↔ ∀ d' ∈ d :: found, d.1.take len <+: d'.1 := by
  unfold LcpLength
  simp only [List.forall_mem_map]
  constructor
  · rintro ⟨⟨p, hp, hall⟩, -⟩ d' hd'
    have hd := hall d List.mem_cons_self
    rw [← hp, ← List.prefix_iff_eq_take.mp hd]
    exact hall d' hd'
  · intro hall
    refine ⟨⟨d.1.take len, List.length_take_of_le hlen, hall⟩, fun p hp => (h p.length).mpr ?_⟩
    have hd := hp d List.mem_cons_self
    refine ⟨hd.length_le, fun d' hd' => .inr ?_⟩
    rw [← List.prefix_iff_eq_take.mp hd]
    exact hp d' hd'

theorem findCompletions_iff (hs : 0 ∉ s) :
    Completes (matching test s names) (findCompletions test s names) ↔ Unhidden (matching test s names) := by
  rcases hfound : matching test s names with _ | ⟨d, found⟩
  · rw [findCompletions_nil hs hfound]
    refine iff_of_true ⟨rfl, fun h => absurd rfl h, rfl, rfl⟩ ?_
    rintro m ⟨⟩
  · obtain ⟨len, hlen, heq, hiff⟩ := findCompletions_cons hs hfound
    rw [heq, ← shared_iff hlen hiff, ← lcpLength_iff hlen hiff]
    exact ⟨fun h => h.2.1 (List.cons_ne_nil d found), fun h => ⟨rfl, fun _ => h, rfl, rfl⟩⟩

end

/-! ## At the prompt -/

section
variable {Obj : Type} {world : World Obj} {names : List (List UInt8)} {str s : List UInt8} {obj : Option Obj}

theorem walk_chars {P : UInt8 → Prop} : ∀ {cs : List UInt8} {o o' : Obj} {word s : List UInt8}, walk world o word cs = some (o', s) →
    (∀ c ∈ word, P c) → (∀ c ∈ cs, P c) → ∀ c ∈ s, P c
  | [], o, o', word, s, h, hword, _ => by
    obtain ⟨-, rfl⟩ := Prod.mk.inj (Option.some.inj h)
    exact hword
  | c :: cs, o, o', word, s, h, hword, hcs => by
    have hcs' : ∀ c ∈ cs, P c := fun c' hc' => hcs c' (List.mem_cons_of_mem _ hc')
    rw [walk] at h
    split at h
    · obtain ⟨o'', -, h⟩ := Option.bind_eq_some_iff.mp h
      exact walk_chars h (fun _ hmem => absurd hmem List.not_mem_nil) hcs'
    · refine walk_chars h (fun c' hc' => ?_) hcs'
      rcases List.mem_append.mp hc' with hmem | hmem
      · exact hword c' hmem
      · rw [List.mem_singleton.mp hmem]
        exact hcs c List.mem_cons_self

theorem typed_chars (h : typed world str = some (obj, s)) : 0 ∉ s := by
  obtain ⟨⟨o, s'⟩, hwalk, heq⟩ := Option.map_eq_some_iff.mp h
  obtain rfl := (Prod.mk.inj heq).2
  intro hmem
  have hchain := @walk_chars Obj world (fun c => inChain c = true) _ _ _ _ _ hwalk (fun _ hnil => absurd hnil List.not_mem_nil)
    (fun c hc => List.mem_rtakeWhile_imp hc) 0 hmem
  exact absurd hchain (by decide)

theorem replAutocomplete_iff (h : typed world str = some (obj, s)) :
    Shares s (matching (world.test obj) s names) (replAutocomplete world names str) ↔ Unhidden (matching (world.test obj) s names) := by
  have hs := typed_chars h
  rcases hfound : matching (world.test obj) s names with _ | ⟨d, found⟩
  · refine iff_of_true (fun _ _ d hd => absurd hd List.not_mem_nil) ?_
    rintro m ⟨⟩
  · obtain ⟨len, hlen, heq, hiff⟩ := findCompletions_cons hs hfound
    rw [← shared_iff hlen hiff]
    have hmatch : ∀ d' ∈ d :: found, s <+: d'.1 ∧ d'.2 ≠ 0 := by
      intro d' hd'
      rw [← hfound] at hd'
      obtain ⟨hpool, hmatch⟩ := List.mem_filter.mp hd'
      rw [isMatch, decide_eq_true_iff] at hmatch
      have hnumber := (List.mem_zipIdx hpool).1
      exact ⟨hmatch.1, by omega⟩
    obtain ⟨⟨rest, hrest⟩, hq⟩ := hmatch d List.mem_cons_self
    have hstart : d.1.take s.length = s := by
      rw [← hrest]
      exact List.take_left
    have hle : s.length ≤ len := by
      refine (hiff s.length).mpr ⟨by rw [← hrest, List.length_append]; omega, fun d' hd' => .inr ?_⟩
      rw [hstart]
      exact (hmatch d' hd').1
    have hanswer : replAutocomplete world names str =
        if d.2 = ((d :: found).getLast?.map Prod.snd).getD 0 ∨ len > s.length then .inserts ((d.1.drop s.length).take (len - s.length)) else .many := by
      unfold replAutocomplete
      rw [h]
      simp [heq, if_neg hq]
    rw [hanswer]
    have hinsert : s ++ (d.1.drop s.length).take (len - s.length) = d.1.take len := by
      rw [← hrest, List.drop_left, List.take_append, List.take_of_length_le hle]
    split
    · constructor
      · intro hshares d' hd'
        rw [← hinsert]
        exact hshares _ rfl d' hd'
      · rintro hall compl ⟨⟩ d' hd'
        rw [hinsert]
        exact hall d' hd'
    · rename_i hmany
      obtain ⟨-, hlong⟩ := not_or.mp hmany
      refine iff_of_true (fun compl hc => ?_) fun d' hd' => ?_
      · cases hc
      · rw [show len = s.length by omega, hstart]
        exact (hmatch d' hd').1

end

/-- At every prompt, for every pool and every object: what is found is right, and what is inserted is shared, exactly where nothing is
hidden that would have made it shorter. -/
theorem completions_iff {Obj : Type} (world : World Obj) (names : List (List UInt8)) :
    (∀ obj s, 0 ∉ s →
      (Completes (matching (world.test obj) s names) (findCompletions (world.test obj) s names) ↔ Unhidden (matching (world.test obj) s names))) ∧
    ∀ str obj s, typed world str = some (obj, s) →
      (Shares s (matching (world.test obj) s names) (replAutocomplete world names str) ↔ Unhidden (matching (world.test obj) s names)) :=
  ⟨fun _ _ hs => findCompletions_iff hs, fun _ _ _ h => replAutocomplete_iff h⟩

/-- A prompt at which all names are those of the main module. -/
def promptOfAll : World Unit := ⟨(), fun _ _ => none, fun _ _ => true⟩

theorem completions_iff_ab_ac :
    Completes (matching (promptOfAll.test (some ())) [97] [[97, 98], [97, 99]]) (findCompletions (promptOfAll.test (some ())) [97] [[97, 98], [97, 99]]) ∧
    Shares [97] (matching (promptOfAll.test (some ())) [97] [[97, 98], [97, 99]]) (replAutocomplete promptOfAll [[97, 98], [97, 99]] [97]) := by
  have hunhidden : Unhidden (matching (promptOfAll.test (some ())) [97] [[97, 98], [97, 99]]) := by
    unfold Unhidden hides
    decide
  exact ⟨((completions_iff promptOfAll [[97, 98], [97, 99]]).1 (some ()) [97] (by decide)).mpr hunhidden,
    ((completions_iff promptOfAll [[97, 98], [97, 99]]).2 [97] (some ()) [97] rfl).mpr hunhidden⟩

/-- "a\0b" hides "a": all of it is inserted. -/
theorem completions_counterexample :
    ¬ Completes (matching (promptOfAll.test (some ())) [97] [[97, 0, 98], [97]]) (findCompletions (promptOfAll.test (some ())) [97] [[97, 0, 98], [97]]) ∧
    ¬ Shares [97] (matching (promptOfAll.test (some ())) [97] [[97, 0, 98], [97]]) (replAutocomplete promptOfAll [[97, 0, 98], [97]] [97]) := by
  constructor
  · rintro ⟨-, hlength, -⟩
    obtain ⟨⟨p, hp, hall⟩, -⟩ := hlength (by decide)
    have hle := (hall [97] (by decide)).length_le
    have hlen : (findCompletions (promptOfAll.test (some ())) [97] [[97, 0, 98], [97]]).matchLen = 3 := by decide
    rw [hp, hlen] at hle
    exact absurd hle (by decide)
  · intro hshares
    have hprefix := hshares [0, 98] (by decide) ([97], 3) (by decide)
    exact absurd hprefix (by decide)

end PythonUltra.Py.Repl
