/-
  PythonUltra.Pyterm.Mkdir — folders with the folders above them (`_mkdir_p`,
  modules/pyterm/__init__.py).

  `_mkdir_p` walks the parts of a path with a cursor of its own, and hands each name to
  os.mkdir behind those before it. At the start of a relative path the cursor is empty, and
  a `..` leaves it so: after the first `j` parts it is `staying path j`, which is where
  they lead below a folder that cannot be left. What the path layer makes of the same parts
  is `reached`. `run_made` says what the loop makes, `mkdirP_iff` when that is what the
  path names. Where a path never climbs above its start the two walks are one
  (`meets_of_below`); `a_climb_is_dropped` is a path that does.

  A NUL ends a path for the path layer and is a byte like others to the cursor; `follow`
  has both.
-/

import PythonUltra.Pyterm.Model
import PythonUltra.Zipfile.Names

namespace PythonUltra.Pyterm

open PythonUltra.Lib PythonUltra.Lib.Prog PythonUltra.Os PythonUltra.Pyperm PythonUltra.Zipfile

/-! ## The two walks -/

/-- Where the first parts of a path lead. -/
def reached (cwd : Path) (path : Str) (j : Nat) : Path := follow cwd (isAbs path) ((parts path).take j)

/-- The cursor after the first parts: a `..` with nothing before it stays. -/
def staying (path : Str) (j : Nat) : List Str := ((parts path).take j).foldl component []

/-- What the cursor names. -/
def handed (cwd : Path) (path : Str) (j : Nat) : Path := follow cwd (isAbs path) (staying path j)

/-- The path is there, and what was made lies on its way. -/
structure MadeOnTheWay (w w' : World) (path : Str) : Prop where
  there : w'.fs.get (w.resolve path) = some .dir
  made : ∀ p, w.fs.get p = none → w'.fs.get p = some .dir → ∃ j, p <+: reached w.cwd path j

/-- What the cursor names is there or on the way, and the path's folder is there or named by the cursor. -/
structure Meets (w : World) (path : Str) : Prop where
  named : ∀ j, staying path j ≠ [] → w.fs.get (handed w.cwd path j) = some .dir ∨ ∃ i, handed w.cwd path j <+: reached w.cwd path i
  resolved : w.fs.get (w.resolve path) = some .dir ∨ ∃ j, staying path j ≠ [] ∧ w.resolve path = handed w.cwd path j

/-! ## The cursor -/

/-- `current` after the names. -/
def Cursor (absolute : Bool) (names : List Str) (current : Str) : Prop :=
  if names = [] then current = [] ∨ current = [slash] else current = currentStr (absolute = true) names

theorem isParts_component {names : List Str} {part : Str} (h : IsParts names) (hne : part ≠ []) (hslash : slash ∉ part) :
    IsParts (component names part) := by
  rcases component_cases names part with e | ⟨-, e⟩ | e
  · rw [e]
    exact h
  · rw [e]
    exact fun n hn => h n (List.mem_of_mem_dropLast hn)
  · rw [e]
    intro n hn
    rcases List.mem_append.mp hn with hn | hn
    · exact h n hn
    · rw [List.mem_singleton.mp hn]
      exact ⟨hne, hslash⟩

theorem isParts_staying (path : Str) (j : Nat) : IsParts (staying path j) := by
  have hfold : ∀ (l names : List Str), IsParts l → IsParts names → IsParts (l.foldl component names) := by
    intro l
    induction l with
    | nil => exact fun _ _ h => h
    | cons n l ih =>
      intro names hl hnames
      obtain ⟨h1, h2⟩ := hl n List.mem_cons_self
      exact ih _ (fun m hm => hl m (List.mem_cons_of_mem _ hm)) (isParts_component hnames h1 h2)
  exact hfold _ _ (fun n hn => isParts_parts path n (List.mem_of_mem_take hn)) nofun

theorem rdropWhile_concat_name (x : Str) {n : Str} (hslash : slash ∉ n) :
    (x ++ slash :: n).rdropWhile (· ≠ slash) = x ++ [slash] := by
  have hn : ∀ c ∈ n.reverse, decide (c ≠ slash) = true := fun c hc =>
    decide_eq_true fun e => hslash (e ▸ List.mem_reverse.mp hc)
  rw [List.append_cons, List.rdropWhile, List.reverse_append, List.dropWhile_append_of_pos hn, List.reverse_append,
    List.reverse_singleton, List.singleton_append, List.dropWhile_cons, if_neg (by simp), List.reverse_cons, List.reverse_reverse]

theorem above_concat (absolute : Bool) (x : Str) {n : Str} (hne : n ≠ []) (hslash : slash ∉ n) :
    above absolute (x ++ slash :: n) = x := by
  unfold above
  rw [rstrip_concat hne hslash]
  simp only [List.mem_append, List.mem_cons_self, or_true, if_true]
  rw [rdropWhile_concat_name x hslash, List.dropLast_concat]

theorem above_name {n : Str} (hne : n ≠ []) (hslash : slash ∉ n) : above false n = [] := by
  have hn : rstrip n = n := rstrip_append (x := []) hne hslash
  unfold above
  rw [hn]
  simp [hslash]

theorem cursor_above {absolute : Bool} {names : List Str} {current : Str} (hnames : IsParts names) (h : Cursor absolute names current) :
    Cursor absolute names.dropLast (above absolute current) := by
  unfold Cursor at h
  rcases List.eq_nil_or_concat' names with rfl | ⟨ms, n, rfl⟩
  · rw [if_pos rfl] at h
    rcases h with rfl | rfl <;> rcases absolute with _ | _
    · exact Or.inl rfl
    · exact Or.inr rfl
    · exact Or.inl rfl
    · exact Or.inr rfl
  · rw [if_neg (by simp)] at h
    obtain ⟨hne, hslash⟩ := hnames n (by simp)
    rw [List.dropLast_concat, Cursor]
    by_cases hms : ms = []
    · subst hms
      rw [if_pos rfl, h, currentStr, show join ([] ++ [n]) = n by simp [join]]
      rcases absolute with _ | _
      · exact Or.inl (above_name hne hslash)
      · exact Or.inl (above_concat true [] hne hslash)
    · have hcurrent : current = currentStr (absolute = true) ms ++ slash :: n := by
        rw [h, currentStr, currentStr, join_concat n hms]
        split <;> rfl
      rw [if_neg hms, hcurrent, above_concat absolute _ hne hslash]

/-- `current` with a name. -/
def withName (absolute : Bool) (current part : Str) : Str :=
  if current = [] ∨ current = [slash] then (if absolute then [slash] else []) ++ part else current ++ slash :: part

theorem withName_cursor {absolute : Bool} {names : List Str} {current : Str} (hnames : IsParts names) (h : Cursor absolute names current)
    (part : Str) : withName absolute current part = currentStr (absolute = true) (names ++ [part]) := by
  unfold Cursor at h
  unfold withName currentStr
  by_cases hempty : names = []
  · rw [if_pos hempty] at h
    rw [if_pos h, hempty]
    rcases absolute with _ | _ <;> simp [join]
  · rw [if_neg hempty] at h
    have hparts : parts current = names := h ▸ (currentStr_parts (absolute = true) hnames).1
    have hlong : ¬ (current = [] ∨ current = [slash]) := by
      rintro (rfl | rfl) <;> exact hempty hparts.symm
    rw [if_neg hlong, h, currentStr, join_concat part hempty]
    split <;> rfl

/-! ## The loop -/

theorem staying_succ {path : Str} {j : Nat} {part : Str} {rest : List Str} (h : (parts path).drop j = part :: rest) :
    staying path (j + 1) = component (staying path j) part ∧ (parts path).drop (j + 1) = rest := by
  have hget : (parts path)[j]? = some part := by
    rw [← List.head?_drop, h]
    rfl
  refine ⟨?_, ?_⟩
  · rw [staying, List.take_add_one, hget, Option.toList_some, List.foldl_append]
    rfl
  · rw [← List.drop_drop, h]
    rfl

/-- What holds when the first `j` parts are walked. -/
structure Walked (w : World) (path : Str) (j : Nat) (current : Str) (w' : World) : Prop where
  cursor : Cursor (isAbs path) (staying path j) current
  cwd : w'.cwd = w.cwd
  above : ∀ names, names <+: staying path j → names ≠ [] → w'.fs.get (follow w.cwd (isAbs path) names) = some .dir
  seen : ∀ i ≤ j, staying path i ≠ [] → w'.fs.get (handed w.cwd path i) = some .dir
  frame : ∀ p, w'.fs.get p = w.fs.get p ∨ w.fs.get p = none ∧ w'.fs.get p = some .dir ∧
    ∃ i ≤ j, staying path i ≠ [] ∧ p = handed w.cwd path i

variable {w w' w'' : World} {path current part : Str} {rest : List Str} {j : Nat}

theorem Walked.back (h : Walked w path j current w') (hstays : staying path (j + 1) <+: staying path j)
    {current' : Str} (hcursor : Cursor (isAbs path) (staying path (j + 1)) current') : Walked w path (j + 1) current' w' := by
  refine ⟨hcursor, h.cwd, fun names hnames => h.above names (hnames.trans hstays), fun i hi hne => ?_, fun p => ?_⟩
  · rcases Nat.le_succ_iff.mp hi with hi | rfl
    · exact h.seen i hi hne
    · exact h.above _ hstays hne
  · rcases h.frame p with hp | ⟨hnone, hdir, i, hi, hp⟩
    · exact Or.inl hp
    · exact Or.inr ⟨hnone, hdir, i, Nat.le_succ_of_le hi, hp⟩

/-- A name, whose folder is there now. -/
theorem Walked.down (h : Walked w path j current w') (hname : staying path (j + 1) = staying path j ++ [part])
    (hcwd : w''.cwd = w'.cwd) (hdir : w''.fs.get (handed w.cwd path (j + 1)) = some .dir)
    (hframe : ∀ p, w''.fs.get p = w'.fs.get p ∨ w'.fs.get p = none ∧ p = handed w.cwd path (j + 1)) {current' : Str}
    (hcursor : Cursor (isAbs path) (staying path (j + 1)) current') : Walked w path (j + 1) current' w'' := by
  have hstays : ∀ p, w'.fs.get p = some .dir → w''.fs.get p = some .dir := fun p hp => by
    rcases hframe p with e | ⟨hnone, -⟩
    · rw [e, hp]
    · rw [hp] at hnone
      cases hnone
  refine ⟨hcursor, hcwd.trans h.cwd, fun names hnames hne => ?_, fun i hi hne => ?_, fun p => ?_⟩
  · rw [hname] at hnames
    rcases List.prefix_concat_iff.mp hnames with rfl | hnames
    · rw [handed, hname] at hdir
      exact hdir
    · exact hstays _ (h.above names hnames hne)
  · rcases Nat.le_succ_iff.mp hi with hi | rfl
    · exact hstays _ (h.seen i hi hne)
    · exact hdir
  · rcases hframe p with e | ⟨hnone, rfl⟩
    · rcases h.frame p with hp | ⟨hnone, hold, i, hi, hp⟩
      · exact Or.inl (e.trans hp)
      · exact Or.inr ⟨hnone, e.trans hold, i, Nat.le_succ_of_le hi, hp⟩
    · have hnew : w.fs.get (handed w.cwd path (j + 1)) = none := by
        rcases h.frame (handed w.cwd path (j + 1)) with e | ⟨e, -⟩
        · rw [← e, hnone]
        · exact e
      exact Or.inr ⟨hnew, hdir, j + 1, Nat.le_refl _, by rw [hname]; simp, rfl⟩

theorem walk_part (h : Walked w path j current w') (hdrop : (parts path).drop j = part :: rest) :
    wp (mkdirPart (isAbs path) current part) (fun current' => Walked w path (j + 1) current') (fun _ _ => True) w' := by
  obtain ⟨hnext, -⟩ := staying_succ hdrop
  have hpart : part ≠ [] ∧ slash ∉ part := isParts_parts path part (List.mem_of_mem_drop (hdrop ▸ List.mem_cons_self))
  have hnames := isParts_staying path j
  unfold mkdirPart
  by_cases hdot : part = [] ∨ part = dot
  · rw [if_pos hdot]
    have hstay : staying path (j + 1) = staying path j := by rw [hnext, component, if_pos hdot]
    exact h.back (hstay ▸ List.prefix_refl _) (hstay ▸ h.cursor)
  · rw [if_neg hdot]
    by_cases hup : part = dotdot
    · rw [if_pos hup]
      have hclimb : staying path (j + 1) = (staying path j).dropLast := by rw [hnext, component, if_neg hdot, if_pos hup]
      have hcursor := cursor_above hnames h.cursor
      rw [← hclimb] at hcursor
      exact h.back (hclimb ▸ List.dropLast_prefix _) hcursor
    · rw [if_neg hup]
      have hname : staying path (j + 1) = staying path j ++ [part] := by rw [hnext, component, if_neg hdot, if_neg hup]
      have htext : withName (isAbs path) current part = currentStr (isAbs path) (staying path (j + 1)) := by
        rw [withName_cursor hnames h.cursor, hname]
        simp
      have hcursor : Cursor (isAbs path) (staying path (j + 1)) (withName (isAbs path) current part) := by
        rw [Cursor, if_neg (by rw [hname]; simp), htext]
        simp
      have hplace : w'.resolve (withName (isAbs path) current part) = handed w.cwd path (j + 1) := by
        rw [htext, World.resolve, resolve_currentStr _ _ (isParts_staying path (j + 1)), h.cwd, handed]
      refine wp_bind.mpr (wp_tryCatch.mpr (wp_mkdir (fun w₁ h₁ hnone _ _ _ => ?_) fun e w₁ h₁ _ => ?_))
      · refine h.down hname h₁.cwd ?_ (fun p => ?_) hcursor
        · rw [← hplace]
          exact h₁.here
        · rw [← hplace]
          by_cases hp : p = w'.resolve (withName (isAbs path) current part)
          · exact Or.inr ⟨hp ▸ hnone, hp⟩
          · exact Or.inl ((h₁.get p).trans (if_neg hp))
      · cases e with
        | osError e =>
          refine wp_bind.mpr (wp_isDir (fun w₂ h₂ hdir => ?_) (fun w₂ h₂ _ => trivial) fun _ _ _ _ _ => trivial)
          have hq := h₁.trans h₂
          refine h.down hname hq.cwd ?_ (fun p => Or.inl (by rw [hq.fs])) hcursor
          rw [← hplace, hq.fs]
          have hres : w₁.resolve (withName (isAbs path) current part) = w'.resolve (withName (isAbs path) current part) := h₁.resolve _
          rw [← hres, ← h₁.fs]
          exact hdir
        | _ => trivial

theorem foldlM_parts {f : Str → Str → Call Str} (hf : ∀ a, f a [] = pure a) (l : List Str) (a : Str) :
    l.foldlM f a = (l.filter (· ≠ [])).foldlM f a := by
  induction l generalizing a with
  | nil => rfl
  | cons n l ih =>
    by_cases hn : n = []
    · rw [List.filter_cons_of_neg (by simpa using hn), List.foldlM_cons, hn, hf]
      exact ih a
    · rw [List.filter_cons_of_pos (by simpa using hn), List.foldlM_cons, List.foldlM_cons]
      exact congrArg _ (funext ih)

/-- What `_mkdir_p` has made when it returns. -/
theorem run_made (w : World) (path : Str) :
    wp (mkdirP path) (fun _ w' => ∃ j current, (parts path).length ≤ j ∧ Walked w path j current w') (fun _ _ => True) w := by
  have hstart : Walked w path 0 (if isAbs path then [slash] else []) w := by
    refine ⟨?_, rfl, fun names hnames hne => ?_, fun i hi hne => ?_, fun p => Or.inl rfl⟩
    · rw [Cursor, if_pos (by rfl)]
      split
      · exact Or.inr rfl
      · exact Or.inl rfl
    · exact absurd (List.prefix_nil.mp hnames) hne
    · rw [Nat.le_zero.mp hi] at hne
      exact absurd rfl hne
  have hloop : wp ((parts path).foldlM (mkdirPart (isAbs path)) (if isAbs path then [slash] else []))
      (fun current w' => ∃ j, (parts path).drop j = [] ∧ Walked w path j current w') (fun _ _ => True) w := by
    refine wp_foldlM_rest (I := fun rest current w' => ∃ j, (parts path).drop j = rest ∧ Walked w path j current w')
      (fun part rest current w' hw => ?_) ⟨0, rfl, hstart⟩
    obtain ⟨j, hdrop, h⟩ := hw
    exact wp_mono (walk_part h hdrop) (fun current' w'' h' => ⟨j + 1, (staying_succ hdrop).2, h'⟩) fun _ _ h => h
  have hparts := foldlM_parts (f := mkdirPart (isAbs path)) (fun _ => rfl) (path.splitOn slash) (if isAbs path then [slash] else [])
  refine wp_bind.mpr (wp_mono (R := fun _ _ => True) (Q := fun current w' => ∃ j, (parts path).drop j = [] ∧ Walked w path j current w')
    ?_ (fun current w' hw => ?_) fun _ _ h => h)
  · show wp ((path.splitOn slash).foldlM (mkdirPart (isAbs path)) (if isAbs path then [slash] else [])) _ _ w
    rw [hparts]
    exact hloop
  · obtain ⟨j, hdrop, h⟩ := hw
    exact ⟨j, current, List.drop_eq_nil_iff.mp hdrop, h⟩

theorem resolve_reached (w : World) (path : Str) : w.resolve path = reached w.cwd path (parts path).length := by
  rw [World.resolve, resolve_eq, reached, List.take_length]

theorem staying_past {path : Str} {i j : Nat} (hi : (parts path).length ≤ i) (hj : (parts path).length ≤ j) : staying path i = staying path j := by
  rw [staying, staying, List.take_of_length_le hi, List.take_of_length_le hj]

theorem made_iff_meets {w w' : World} {path : Str} (h : mkdirP path w = (.ok (), w')) : MadeOnTheWay w w' path ↔ Meets w path := by
  obtain ⟨j, current, hj, hwalked⟩ := wp_ok (run_made w path) h
  have hseen : ∀ i, staying path i ≠ [] → w'.fs.get (handed w.cwd path i) = some .dir := fun i hi => by
    rcases Nat.le_total i j with hij | hij
    · exact hwalked.seen i hij hi
    · have hsame := staying_past (hj.trans hij) hj
      rw [handed, hsame]
      exact hwalked.seen j (Nat.le_refl j) (hsame ▸ hi)
  have hresolve : w'.resolve path = w.resolve path := by rw [World.resolve, hwalked.cwd]; rfl
  constructor
  · intro hmade
    refine ⟨fun i hi => ?_, ?_⟩
    · rcases hwalked.frame (handed w.cwd path i) with hsame | ⟨hnone, -⟩
      · exact Or.inl (hsame ▸ hseen i hi)
      · exact Or.inr (hmade.made _ hnone (hseen i hi))
    · rcases hwalked.frame (w.resolve path) with hsame | ⟨-, -, i, -, hi, hplace⟩
      · exact Or.inl (hsame ▸ hmade.there)
      · exact Or.inr ⟨i, hi, hplace⟩
  · intro hmeets
    refine ⟨?_, fun p hnone hdir => ?_⟩
    · rcases hmeets.resolved with hdir | ⟨i, hi, hplace⟩
      · rcases hwalked.frame (w.resolve path) with hsame | ⟨hnone, -⟩
        · rw [hsame, hdir]
        · rw [hdir] at hnone
          cases hnone
      · rw [hplace]
        exact hseen i hi
    · rcases hwalked.frame p with hsame | ⟨-, -, i, -, hi, rfl⟩
      · rw [hsame, hnone] at hdir
        cases hdir
      · rcases hmeets.named i hi with hold | hway
        · rw [hold] at hnone
          cases hnone
        · exact hway

/-- A path is made on its way exactly when the cursor's folders are. -/
theorem mkdirP_iff {w w' : World} {path : Str} (h : mkdirP path w = (.ok (), w')) : MadeOnTheWay w w' path ↔ Meets w path :=
  made_iff_meets h

/-! ## Paths that do not climb -/

/-- Every place on the way is below the start. -/
def Below (cwd : Path) (path : Str) : Prop := ∀ j, (if isAbs path then [] else cwd) <+: reached cwd path j

theorem foldl_component_below {base : Path} {l : List Str} (hl : ∀ n ∈ l, slash ∉ n ∧ 0 ∉ n)
    (h : ∀ j, base <+: (l.take j).foldl component base) : l.foldl component base = base ++ l.foldl component [] := by
  induction l using List.reverseRecOn with
  | nil => exact (List.append_nil base).symm
  | append_singleton l n ih =>
    have hbefore : l.foldl component base = base ++ l.foldl component [] := by
      refine ih (fun m hm => hl m (List.mem_append_left _ hm)) fun j => ?_
      have hj := h (min j l.length)
      rwa [List.take_append_of_le_length (Nat.min_le_right _ _), ← List.take_eq_take_min] at hj
    have hlast := h (l ++ [n]).length
    rw [List.take_length, List.foldl_append, List.foldl_cons, List.foldl_nil, hbefore] at hlast
    rw [List.foldl_append, List.foldl_append, List.foldl_cons, List.foldl_cons, List.foldl_nil, List.foldl_nil, hbefore]
    generalize l.foldl component [] = names at hlast
    unfold component at hlast ⊢
    by_cases hdot : n = [] ∨ n = dot
    · rw [if_pos hdot, if_pos hdot]
    · rw [if_neg hdot] at hlast
      rw [if_neg hdot, if_neg hdot]
      by_cases hup : n = dotdot
      · rw [if_pos hup] at hlast
        rw [if_pos hup, if_pos hup]
        -- a `..` that leaves the start would leave its prefix too short
        by_cases hnames : names = []
        · subst hnames
          rw [List.append_nil] at hlast
          rcases List.eq_nil_or_concat' base with rfl | ⟨ms, m, rfl⟩
          · rfl
          · have hlen := hlast.length_le
            rw [List.dropLast_concat, List.length_append, List.length_singleton] at hlen
            omega
        · rw [List.dropLast_append_of_ne_nil hnames]
      · rw [if_neg hup, if_neg hup, List.append_assoc]

theorem reached_eq_handed {cwd : Path} {path : Str} (h0 : 0 ∉ path) (h : Below cwd path) (j : Nat) :
    reached cwd path j = handed cwd path j := by
  have hclean : ∀ n ∈ parts path, slash ∉ n ∧ 0 ∉ n := fun n hn => ⟨(isParts_parts path n hn).2, fun hz => h0 (mem_of_mem_parts hn hz)⟩
  have htake : ∀ i, ∀ n ∈ (parts path).take i, slash ∉ n ∧ 0 ∉ n := fun i n hn => hclean n (List.mem_of_mem_take hn)
  have hstaying : ValidPath (staying path j) := ValidPath.foldl_component nofun (htake j)
  have hreached : ∀ i, reached cwd path i = ((parts path).take i).foldl component (if isAbs path then [] else cwd) := fun i => by
    rw [reached, follow, visible_of_not_mem fun n hn => (htake i n hn).2]
  rw [hreached, handed, follow, visible_of_not_mem fun n hn => (hstaying n hn).2.2.2.2, foldl_component_valid _ hstaying, staying]
  refine foldl_component_below (htake j) fun i => ?_
  rw [List.take_take, ← hreached]
  exact h _

theorem meets_of_below {w : World} {path : Str} (hcwd : w.fs.get w.cwd = some .dir) (h0 : 0 ∉ path) (h : Below w.cwd path) :
    Meets w path := by
  have hsame := reached_eq_handed h0 h
  refine ⟨fun j _ => Or.inr ⟨j, hsame j ▸ List.prefix_refl _⟩, ?_⟩
  rw [resolve_reached]
  by_cases hstart : staying path (parts path).length = []
  · left
    rw [hsame, handed, hstart]
    show w.fs.get (if isAbs path then [] else w.cwd) = some .dir
    split
    · exact w.fs.get_root
    · exact hcwd
  · exact Or.inr ⟨_, hstart, hsame _⟩

theorem below_of_absolute {cwd : Path} {path : Str} (h : isAbs path) : Below cwd path := fun j => by
  rw [if_pos h]
  exact List.nil_prefix

/-- A path that stays below its start, as every absolute one does, is made on its way. -/
theorem mkdirP_below {w w' : World} {path : Str} (hcwd : w.fs.get w.cwd = some .dir) (h0 : 0 ∉ path) (h : isAbs path ∨ Below w.cwd path)
    (hrun : mkdirP path w = (.ok (), w')) : MadeOnTheWay w w' path :=
  (made_iff_meets hrun).mpr (meets_of_below hcwd h0 (h.elim below_of_absolute id))

/-! ## A path that climbs -/

theorem usr_free : (Fs.empty : Fs Str).get [ascii "usr"] ≠ some .dir := by decide

theorem lib_below : [ascii "usr", ascii "lib"] ≠ [] ∧
    (Fs.empty.put [ascii "usr"] .dir (List.cons_ne_nil _ _) Fs.empty.get_root usr_free).get [ascii "usr"] = some .dir ∧
    (Fs.empty.put [ascii "usr"] .dir (List.cons_ne_nil _ _) Fs.empty.get_root usr_free).get [ascii "usr", ascii "lib"] ≠ some .dir := by decide

/-- The folder `/usr/lib`, and from it. -/
def libWorld : World where
  fs := (Fs.empty.put [ascii "usr"] .dir (List.cons_ne_nil _ _) Fs.empty.get_root usr_free).put [ascii "usr", ascii "lib"] .dir lib_below.1
    lib_below.2.1 lib_below.2.2
  cwd := [ascii "usr", ascii "lib"]
  fault _ := none
  honest := honest_none
  clock := 0
  made := []

theorem libWorld_runs : ∀ path ∈ [ascii "../bin", ascii "/usr/share/doc", ascii "doc/../man"], (mkdirP path libWorld).1 = .ok () := by
  decide +kernel

/-- `mkdir -p ../bin` in `/usr/lib` makes `/usr/lib/bin`, and `/usr/bin` is not there. -/
theorem a_climb_is_dropped : ∃ w', mkdirP (ascii "../bin") libWorld = (.ok (), w') ∧
    w'.fs.get [ascii "usr", ascii "lib", ascii "bin"] = some .dir ∧ ¬ MadeOnTheWay libWorld w' (ascii "../bin") :=
  ⟨(mkdirP (ascii "../bin") libWorld).2, eq_ok (libWorld_runs _ (by simp)), by decide +kernel, fun h => absurd h.there (by decide +kernel)⟩

/-- `mkdir -p /usr/share/doc` there. -/
theorem mkdirP_below_share : MadeOnTheWay libWorld (mkdirP (ascii "/usr/share/doc") libWorld).2 (ascii "/usr/share/doc") :=
  mkdirP_below (by decide) (by decide) (.inl (by decide)) (eq_ok (libWorld_runs _ (by simp)))

/-- `mkdir -p doc/../man` there. -/
theorem doc_and_man : MadeOnTheWay libWorld (mkdirP (ascii "doc/../man") libWorld).2 (ascii "doc/../man") ↔ Meets libWorld (ascii "doc/../man") :=
  mkdirP_iff (eq_ok (libWorld_runs _ (by simp)))

end PythonUltra.Pyterm
