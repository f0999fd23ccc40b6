/-
  PythonUltra.Os.Paths — path strings and what they name (pathutil.c).

  A Python str is its UTF-8 bytes, as MicroPython keeps it. `resolve` is pe_path_resolve:
  the C string (up to a NUL, if there is one) is taken from the root or from the current
  directory, and `.` and `..` are resolved on the text alone. Its one error, a result
  longer than PE_PATH_MAX, is among the faults of `PythonUltra.Os.Calls`.
-/

import Mathlib.Data.List.DropRight
import Mathlib.Data.List.Infix

namespace PythonUltra.Os

abbrev Str := List UInt8

instance : LawfulBEq Str := inferInstance

abbrev Path := List Str

/-- `/`. -/
def slash : UInt8 := 47

def dot : Str := [46]

def dotdot : Str := [46, 46]

/-- `utf8_check`'s loop: `need` continuation bytes are still to come. -/
def utf8From : Nat → Str → Bool
  | need, [] => need = 0
  | need, c :: s =>
    if need ≠ 0 then c &&& 0xc0 = 0x80 && utf8From (need - 1) s
    else if c ≥ 0xc0 then c < 0xf8 && utf8From ((0xe5 >>> ((c >>> 3) &&& 0x6).toNat) &&& 3) s
    else c < 0x80 && utf8From 0 s

/-- The bytes MicroPython makes a str of. -/
def utf8Check (s : Str) : Bool := utf8From 0 s

theorem utf8From_append {need : Nat} {a : Str} (h : utf8From need a = true) (b : Str) :
    utf8From need (a ++ b) = utf8From 0 b := by
  induction a generalizing need with
  | nil =>
    have : need = 0 := by simpa [utf8From] using h
    rw [this, List.nil_append]
  | cons c a ih =>
    rw [utf8From] at h
    rw [List.cons_append, utf8From]
    by_cases hn : need ≠ 0
    · rw [if_pos hn, Bool.and_eq_true] at h
      rw [if_pos hn, h.1, Bool.true_and]
      exact ih h.2
    · rw [if_neg hn] at h ⊢
      by_cases hc : c ≥ 0xc0
      · rw [if_pos hc, Bool.and_eq_true] at h
        rw [if_pos hc, h.1, Bool.true_and]
        exact ih h.2
      · rw [if_neg hc, Bool.and_eq_true] at h
        rw [if_neg hc, h.1, Bool.true_and]
        exact ih h.2

/-- The C string of a str. -/
def cstr (s : Str) : Str := s.takeWhile (· ≠ 0)

/-- One component of `pe_consume`. -/
def component (p : Path) (part : Str) : Path :=
  if part = [] ∨ part = dot then p else if part = dotdot then p.dropLast else p ++ [part]

/-- `pe_consume`. -/
def consume (p : Path) (path : Str) : Path := (path.splitOn slash).foldl component p

/-- `pe_path_resolve`. -/
def resolve (cwd : Path) (path : Str) : Path :=
  consume (if (cstr path).head? = some slash then [] else cwd) (cstr path)

/-- A name a directory can hold. -/
def ValidName (n : Str) : Prop := n ≠ [] ∧ n ≠ dot ∧ n ≠ dotdot ∧ slash ∉ n ∧ 0 ∉ n

/-- The string `pe_path_getcwd` returns for a directory. -/
def pathStr (p : Path) : Str := slash :: [slash].intercalate p

/-! ## Resolving -/

theorem cstr_of_not_mem {a : Str} (h : 0 ∉ a) : cstr a = a := by
  refine List.takeWhile_eq_self_iff.mpr fun x hx => ?_
  simpa using fun e : x = 0 => h (e ▸ hx)

theorem cstr_append {a b : Str} (h : 0 ∉ a) : cstr (a ++ b) = a ++ cstr b := by
  have ha : a.takeWhile (· ≠ 0) = a := cstr_of_not_mem h
  unfold cstr
  rw [List.takeWhile_append, ha, if_pos rfl]

theorem cstr_append_of_mem {a : Str} (b : Str) (h : 0 ∈ a) : cstr (a ++ b) = cstr a := by
  unfold cstr
  rw [List.takeWhile_append, if_neg]
  intro hlen
  have := (List.takeWhile_prefix (p := fun x : UInt8 => decide (x ≠ 0)) (l := a)).eq_of_length hlen
  have := List.takeWhile_eq_self_iff.mp this 0 h
  simp at this

theorem zero_not_mem_cstr (a : Str) : 0 ∉ cstr a := fun h => by
  have := List.mem_takeWhile_imp h
  simp at this

theorem consume_append (p : Path) (a b : Str) : consume p (a ++ slash :: b) = consume (consume p a) b := by
  unfold consume
  rw [List.splitOn_append_cons_self, List.foldl_append]

theorem consume_name {n : Str} (p : Path) (h : slash ∉ n) : consume p n = component p n := by
  unfold consume
  rw [List.splitOn_eq_singleton h]; rfl

theorem component_valid {n : Str} (p : Path) (h : ValidName n) : component p n = p ++ [n] := by
  unfold component
  rw [if_neg (by rintro (e | e); exacts [h.1 e, h.2.1 e]), if_neg h.2.2.1]

theorem component_cases (p : Path) (n : Str) :
    component p n = p ∨ (n = dotdot ∧ component p n = p.dropLast) ∨ component p n = p ++ [n] := by
  unfold component
  split
  · exact Or.inl rfl
  · split
    · rename_i h; exact Or.inr (Or.inl ⟨h, rfl⟩)
    · exact Or.inr (Or.inr rfl)

theorem resolve_of_mem (cwd : Path) {a : Str} (b : Str) (h0 : 0 ∈ a) : resolve cwd (a ++ b) = resolve cwd a := by
  unfold resolve
  rw [cstr_append_of_mem b h0]

/-! ## The parts of a path string -/

/-- The parts between the slashes, but for the empty ones. -/
def parts (s : Str) : List Str := (s.splitOn slash).filter (· ≠ [])

/-- A path string from the root. -/
def isAbs (s : Str) : Prop := s.head? = some slash

instance (s : Str) : Decidable (isAbs s) := inferInstanceAs (Decidable (_ = _))

/-- The parts the C string has: a NUL ends the part it is in, and the string. -/
def visible : List Str → List Str
  | [] => []
  | n :: ns => if 0 ∈ n then [cstr n] else n :: visible ns

theorem splitOn_cstr (s : Str) : (cstr s).splitOn slash = visible (s.splitOn slash) := by
  induction s with
  | nil => rfl
  | cons c s ih =>
    obtain ⟨n, ns, hn⟩ := List.exists_cons_of_ne_nil (List.splitOn_ne_nil slash s)
    by_cases h0 : c = 0
    · have hsplit : (c :: s).splitOn slash = (c :: n) :: ns := by
        rw [List.splitOn_cons_eq_if_modifyHead, if_neg (by rw [h0]; decide), hn]; rfl
      rw [hsplit, h0]
      simp [cstr, visible]
    · have hc : cstr (c :: s) = c :: cstr s := by simp [cstr, h0]
      rw [hc, List.splitOn_cons_eq_if_modifyHead, List.splitOn_cons_eq_if_modifyHead, ih]
      split
      · simp [visible]
      · rw [hn, visible, List.modifyHead_cons]
        by_cases hm : 0 ∈ n
        · rw [if_pos hm, visible, if_pos (List.mem_cons_of_mem c hm)]
          simp [cstr, h0]
        · rw [if_neg hm, visible, if_neg (by simpa [Ne.symm h0] using hm)]
          rfl

theorem foldl_component_visible (p : Path) (ns : List Str) :
    (visible ns).foldl component p = (visible (ns.filter (· ≠ []))).foldl component p := by
  induction ns generalizing p with
  | nil => rfl
  | cons n ns ih =>
    by_cases hn : n = []
    · subst hn
      simp only [visible, List.not_mem_nil, if_false, List.foldl_cons, ne_eq, not_true_eq_false, decide_false,
        Bool.false_eq_true, not_false_eq_true, List.filter_cons_of_neg]
      exact ih p
    · rw [List.filter_cons_of_pos (by simpa using hn), visible, visible]
      split
      · rfl
      · rw [List.foldl_cons, List.foldl_cons, ih]

/-- Where the parts `ns` lead, from the root or from the current directory. -/
def follow (cwd : Path) (abs : Prop) [Decidable abs] (ns : List Str) : Path :=
  (visible ns).foldl component (if abs then [] else cwd)

theorem resolve_eq (cwd : Path) (s : Str) : resolve cwd s = follow cwd (isAbs s) (parts s) := by
  have habs : (cstr s).head? = some slash ↔ isAbs s := by
    unfold isAbs
    cases s with
    | nil => rfl
    | cons c s =>
      by_cases h0 : c = 0
      · rw [h0]; simp [cstr, slash]
      · simp [cstr, h0]
  unfold resolve consume follow parts
  rw [splitOn_cstr, foldl_component_visible]
  by_cases h : isAbs s
  · rw [if_pos (habs.mpr h), if_pos h]
  · rw [if_neg fun e => h (habs.mp e), if_neg h]

theorem visible_append (a b : List Str) :
    visible (a ++ b) = if ∀ n ∈ a, 0 ∉ n then a ++ visible b else visible a := by
  induction a with
  | nil => simp
  | cons n a ih =>
    rw [List.cons_append, visible, visible, ih]
    by_cases hn : 0 ∈ n
    · simp [hn]
    · simp only [hn, if_false, List.forall_mem_cons, not_false_eq_true, true_and]
      split <;> rfl

theorem visible_of_not_mem {ns : List Str} (h : ∀ n ∈ ns, 0 ∉ n) : visible ns = ns := by
  have := visible_append ns []
  rw [if_pos h, List.append_nil] at this
  simpa [visible] using this

theorem consume_eq (p : Path) (s : Str) : consume p s = (parts s).foldl component p := by
  unfold consume parts
  induction s.splitOn slash generalizing p with
  | nil => rfl
  | cons n ns ih =>
    by_cases hn : n = []
    · rw [List.filter_cons_of_neg (by simpa using hn), List.foldl_cons, hn]
      exact ih p
    · rw [List.filter_cons_of_pos (by simpa using hn), List.foldl_cons, List.foldl_cons, ih]

/-- Parts that are not `.` or `..` lead down; but a NUL may cut one of them short. -/
theorem follow_down {ns : List Str} (h : ∀ n ∈ ns, n ≠ [] ∧ n ≠ dot ∧ n ≠ dotdot) (p : Path) :
    p <+: (visible ns).foldl component p ∨ (visible ns).foldl component p = p.dropLast := by
  induction ns generalizing p with
  | nil => exact Or.inl (List.prefix_refl p)
  | cons n ns ih =>
    obtain ⟨h1, h2, h3⟩ := h n List.mem_cons_self
    rw [visible]
    split
    · rw [List.foldl_cons, List.foldl_nil]
      rcases component_cases p (cstr n) with e | ⟨-, e⟩ | e
      · left; rw [e]
      · right; exact e
      · left; rw [e]; exact List.prefix_append _ _
    · have hn : component p n = p ++ [n] := by
        unfold component
        rw [if_neg (by rintro (e | e); exacts [h1 e, h2 e]), if_neg h3]
      rw [List.foldl_cons, hn]
      left
      rcases ih (fun m hm => h m (List.mem_cons_of_mem _ hm)) (p ++ [n]) with hp | he
      · exact (List.prefix_append _ _).trans hp
      · rw [he, List.dropLast_concat]

end PythonUltra.Os
