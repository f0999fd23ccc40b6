/-
  PythonUltra.Pyperm.Moves — what a move makes of the table.

  `moveTable_lookup`: an entry at or below the old path is found at its place below the new
  one, nothing is left where it was, and where the old path had no entry the new one keeps
  its own. So the moved files have the modes they had, just when no entry is left from
  before at a place where the old path had none (`moved_iff_noStale`).
-/

import PythonUltra.Pyperm.Table

namespace PythonUltra.Pyperm

open PythonUltra.Lib PythonUltra.Os

/-- `path` is `dir`, or below it. -/
def AtOrBelow (dir path : Str) : Prop := path = dir ∨ under dir <+: path

instance (dir path : Str) : Decidable (AtOrBelow dir path) := inferInstanceAs (Decidable (_ ∨ _))

/-- Neither is the other, nor below it. -/
def NonNested (old new : Str) : Prop := ¬ AtOrBelow old new ∧ ¬ AtOrBelow new old

/-- The names of a relative path. -/
def IsName (n : Str) : Prop := n ≠ [] ∧ n ≠ dot ∧ n ≠ dotdot ∧ slash ∉ n

abbrev RelPath := { p : Path // ∀ n ∈ p, IsName n }

/-- `dir/p`. -/
def inside (dir : Str) (p : RelPath) : Str := if p.1 = [] then dir else under dir ++ [slash].intercalate p.1

variable {data data' : Table} {pre rep old new key q : Str} {order : Table → List Str}

theorem prefix_append_drop (h : pre <+: q) : pre ++ q.drop pre.length = q := by
  obtain ⟨r, rfl⟩ := h
  rw [List.drop_left]

/-! ## The loop -/

theorem moveKey_below {value : Nat} (h : pre <+: key) (hkey : data.lookup key = some value) :
    moveKey pre rep data key = some ((data.erase key).insert (rep ++ key.drop pre.length) value) := by
  rw [moveKey, if_pos h, hkey]
  rfl

theorem moveKey_other (h : ¬ pre <+: key) : moveKey pre rep data key = some data := by
  rw [moveKey, if_neg h]

theorem mem_insert_erase {k dest : Str} {value : Nat} (hk : k ∈ data) (hne : k ≠ key) :
    k ∈ (data.erase key).insert dest value := by
  rw [AList.mem_insert, AList.mem_erase]
  exact .inr ⟨hne, hk⟩

/-- No key is missing when its turn comes, whatever the two paths are. -/
theorem moveLoop_returns {keys : List Str} (hnodup : keys.Nodup) (hkeys : ∀ k ∈ keys, k ∈ data) :
    ∃ data', keys.foldlM (moveKey pre rep) data = some data' := by
  induction keys generalizing data with
  | nil => exact ⟨data, rfl⟩
  | cons key keys ih =>
    rw [List.foldlM_cons]
    have hnot := (List.nodup_cons.mp hnodup).1
    by_cases h : pre <+: key
    · obtain ⟨value, hvalue⟩ := Option.isSome_iff_exists.mp (AList.lookup_isSome.mpr (hkeys key List.mem_cons_self))
      rw [moveKey_below h hvalue]
      refine ih (List.nodup_cons.mp hnodup).2 fun k hk => ?_
      exact mem_insert_erase (hkeys k (List.mem_cons_of_mem _ hk)) fun e => hnot (e ▸ hk)
    · rw [moveKey_other h]
      exact ih (List.nodup_cons.mp hnodup).2 fun k hk => hkeys k (List.mem_cons_of_mem _ hk)

theorem not_both_prefix (hpre : ¬ pre <+: rep) (hrep : ¬ rep <+: pre) (h : pre <+: q) : ¬ rep <+: q := by
  intro h'
  rcases List.prefix_or_prefix_of_prefix h h' with h | h
  · exact hpre h
  · exact hrep h

theorem moveLoop_lookup {keys : List Str} (hpre : ¬ pre <+: rep) (hrep : ¬ rep <+: pre) (hnodup : keys.Nodup)
    (hkeys : ∀ k ∈ keys, k ∈ data) (hdata : keys.foldlM (moveKey pre rep) data = some data') (q : Str) :
    data'.lookup q =
      if pre <+: q ∧ q ∈ keys then none
      else if rep <+: q ∧ pre ++ q.drop rep.length ∈ keys then data.lookup (pre ++ q.drop rep.length)
      else data.lookup q := by
  induction keys generalizing data with
  | nil =>
    obtain rfl : data = data' := Option.some.inj hdata
    simp
  | cons key keys ih =>
    rw [List.foldlM_cons] at hdata
    have hnot := (List.nodup_cons.mp hnodup).1
    have hnodup' := (List.nodup_cons.mp hnodup).2
    by_cases h : pre <+: key
    · obtain ⟨value, hvalue⟩ := Option.isSome_iff_exists.mp (AList.lookup_isSome.mpr (hkeys key List.mem_cons_self))
      rw [moveKey_below h hvalue] at hdata
      have hkeys' : ∀ k ∈ keys, k ∈ (data.erase key).insert (rep ++ key.drop pre.length) value := by
        intro k hk
        apply mem_insert_erase (hkeys k (List.mem_cons_of_mem _ hk))
        rintro rfl
        exact hnot hk
      have hstep := ih hnodup' hkeys' hdata
      have hto : ∀ k, pre <+: k → k ≠ rep ++ key.drop pre.length := by
        rintro k hk rfl
        exact not_both_prefix hpre hrep hk (List.prefix_append _ _)
      rw [hstep]
      by_cases hq : pre <+: q
      · have hq' := not_both_prefix hpre hrep hq
        by_cases e : q = key
        · subst e
          rw [if_neg fun h => hnot h.2, if_neg fun h => hq' h.1, AList.lookup_insert_ne (hto _ hq), AList.lookup_erase,
            if_pos ⟨hq, List.mem_cons_self⟩]
        · simp only [hq, hq', true_and, false_and, if_false, List.mem_cons, e, false_or]
          rw [AList.lookup_insert_ne (hto _ hq), AList.lookup_erase_ne e]
      · simp only [hq, false_and, if_false]
        have hqkey : q ≠ key := fun e => hq (e ▸ h)
        by_cases hr : rep <+: q
        · simp only [hr, true_and, List.mem_cons]
          by_cases e : pre ++ q.drop rep.length = key
          · have hqto : q = rep ++ key.drop pre.length := by
              rw [← e, List.drop_left, prefix_append_drop hr]
            rw [e, if_neg hnot, if_pos (.inl rfl), hqto, AList.lookup_insert, hvalue]
          · simp only [e, false_or]
            have hqto : q ≠ rep ++ key.drop pre.length := by
              intro hq'
              apply e
              rw [hq', List.drop_left, prefix_append_drop h]
            rw [AList.lookup_insert_ne (hto _ (List.prefix_append _ _)), AList.lookup_erase_ne e, AList.lookup_insert_ne hqto,
              AList.lookup_erase_ne hqkey]
        · have hqto : q ≠ rep ++ key.drop pre.length := fun e => hr (e ▸ List.prefix_append _ _)
          simp only [hr, false_and, if_false]
          rw [AList.lookup_insert_ne hqto, AList.lookup_erase_ne hqkey]
    · rw [moveKey_other h] at hdata
      rw [ih hnodup' (fun k hk => hkeys k (List.mem_cons_of_mem _ hk)) hdata]
      have hq : pre <+: q → q ≠ key := fun hq e => h (e ▸ hq)
      have hq' : pre ++ q.drop rep.length ≠ key := fun e => h (e ▸ List.prefix_append _ _)
      simp only [List.mem_cons, hq', false_or]
      by_cases hpq : pre <+: q
      · simp [hpq, hq hpq]
      · simp [hpq]

/-- The loop over all keys. -/
theorem moveAll_lookup {keys : List Str} (hpre : ¬ pre <+: rep) (hrep : ¬ rep <+: pre) (hkeys : keys.Perm data.keys)
    (hdata : keys.foldlM (moveKey pre rep) data = some data') (q : Str) :
    data'.lookup q =
      if pre <+: q then none
      else if rep <+: q then (data.lookup (pre ++ q.drop rep.length)).or (data.lookup q) else data.lookup q := by
  have hmem : ∀ k, k ∈ keys ↔ data.lookup k ≠ none := by
    intro k
    rw [hkeys.mem_iff, ← AList.mem_keys, Ne, AList.lookup_eq_none, not_not]
  rw [moveLoop_lookup hpre hrep (hkeys.nodup_iff.mpr data.keys_nodup) (fun k hk => AList.mem_keys.mpr (hkeys.mem_iff.mp hk)) hdata]
  simp only [hmem]
  by_cases hq : pre <+: q
  · have hq' := not_both_prefix hpre hrep hq
    simp only [hq, hq', true_and, false_and, if_false, if_true]
    split
    · rfl
    · rename_i h
      exact not_not.mp h
  · simp only [hq, false_and, if_false]
    by_cases hr : rep <+: q
    · simp only [hr, true_and, if_true]
      cases h : data.lookup (pre ++ q.drop rep.length) with
      | none => simp
      | some value => simp
    · simp [hr]

/-! ## Absolute paths -/

theorem names_component {p : Path} {n : Str} (hp : ∀ m ∈ p, IsName m) (hn : slash ∉ n) : ∀ m ∈ component p n, IsName m := by
  unfold component
  split
  · exact hp
  · rename_i h
    split
    · exact fun m hm => hp m (List.mem_of_mem_dropLast hm)
    · rename_i h'
      intro m hm
      rcases List.mem_append.mp hm with hm | hm
      · exact hp m hm
      · rw [List.mem_singleton.mp hm]
        exact ⟨fun e => h (.inl e), fun e => h (.inr e), h', hn⟩

theorem names_foldl {ns : List Str} (hns : ∀ n ∈ ns, slash ∉ n) {p : Path} (hp : ∀ m ∈ p, IsName m) :
    ∀ m ∈ ns.foldl component p, IsName m := by
  induction ns generalizing p with
  | nil => exact hp
  | cons n ns ih =>
    exact ih (fun m hm => hns m (List.mem_cons_of_mem _ hm)) (names_component hp (hns n List.mem_cons_self))

theorem foldl_names (p : Path) {ns : List Str} (h : ∀ n ∈ ns, IsName n) : ns.foldl component p = p ++ ns := by
  induction ns generalizing p with
  | nil => simp
  | cons n ns ih =>
    obtain ⟨h1, h2, h3, -⟩ := h n List.mem_cons_self
    have hn : component p n = p ++ [n] := by
      unfold component
      rw [if_neg (by rintro (e | e); exacts [h1 e, h2 e]), if_neg h3]
    rw [List.foldl_cons, hn, ih _ fun m hm => h m (List.mem_cons_of_mem _ hm)]
    simp

theorem RelPath.isParts (p : RelPath) : Zipfile.IsParts p.1 := fun n hn => ⟨(p.2 n hn).1, (p.2 n hn).2.2.2⟩

/-- What `abspath` returns. -/
theorem abspathIn_names (cwd : Path) (path : Str) : ∃ p : RelPath, abspathIn cwd path = pathStr p.1 := by
  unfold abspathIn
  generalize (if path ≠ [] then path else dot) = path
  simp only
  generalize (if path.head? = some slash then path
    else if pathStr cwd ≠ [slash] then (pathStr cwd).rdropWhile (· == slash) ++ slash :: path else slash :: path) = path
  refine ⟨⟨(path.splitOn slash).foldl component [], ?_⟩, rfl⟩
  rw [← consume, consume_eq]
  exact names_foldl (fun n hn => (Zipfile.isParts_parts path n hn).2) (by simp)

theorem abspathIn_pathStr (cwd : Path) (p : RelPath) : abspathIn cwd (pathStr p.1) = pathStr p.1 := by
  have hne : pathStr p.1 ≠ [] := by simp [pathStr]
  have hhead : (pathStr p.1).head? = some slash := rfl
  unfold abspathIn
  rw [if_pos hne]
  simp only
  rw [if_pos hhead, ← consume, consume_eq, Zipfile.parts_pathStr p.isParts, foldl_names [] p.2, List.nil_append]

theorem under_root : under (pathStr []) = [slash] := by decide

theorem under_pathStr {p : RelPath} (hp : p.1 ≠ []) : under (pathStr p.1) = pathStr p.1 ++ [slash] :=
  congrArg (· ++ [slash]) (Zipfile.rstrip_pathStr p.isParts hp)

/-! ## A whole move -/

/-- The table after the first step of `move`. -/
def moveOne (data : Table) (old new : Str) : Table := match data.lookup old with
  | some value => (data.erase old).insert new value
  | none => data

theorem moveOne_lookup (hne : new ≠ old) (q : Str) :
    (moveOne data old new).lookup q =
      if q = old then none else if q = new then (data.lookup old).or (data.lookup new) else data.lookup q := by
  unfold moveOne
  cases h : data.lookup old with
  | none =>
    by_cases ho : q = old
    · subst ho
      simp [h]
    · by_cases hn : q = new
      · subst hn
        simp [hne]
      · simp [ho, hn]
  | some value =>
    by_cases ho : q = old
    · subst ho
      simp only [if_true]
      rw [AList.lookup_insert_ne hne.symm, AList.lookup_erase]
    · by_cases hn : q = new
      · subst hn
        simp [ho, AList.lookup_insert]
      · simp only [ho, hn, if_false]
        rw [AList.lookup_insert_ne hn, AList.lookup_erase_ne ho]

theorem moveTable_eq (order : Table → List Str) (data : Table) (old new : Str) :
    moveTable order data old new =
      (order (moveOne data old new)).foldlM (moveKey (under old) (under new)) (moveOne data old new) := rfl

theorem moveTable_returns (horder : ∀ data, (order data).Perm data.keys) (data : Table) (old new : Str) :
    ∃ data', moveTable order data old new = some data' := by
  rw [moveTable_eq]
  have hperm := horder (moveOne data old new)
  exact moveLoop_returns (hperm.nodup_iff.mpr (AList.keys_nodup _)) fun k hk => AList.mem_keys.mpr (hperm.mem_iff.mp hk)

/-- Paths of which neither is the other or below it, with what this says of their strings. -/
structure Apart (old new : Str) : Prop where
  ne : new ≠ old
  under_old : under old = old ++ [slash]
  under_new : under new = new ++ [slash]
  not_old_new : ¬ under old <+: new
  not_new_old : ¬ under new <+: old
  not_under : ¬ under old <+: under new
  not_under' : ¬ under new <+: under old

theorem not_prefix_concat {a b : Str} {c : UInt8} (h : ¬ a <+: b) (hne : a ≠ b ++ [c]) : ¬ a <+: b ++ [c] := by
  rintro ⟨r, hr⟩
  rcases List.eq_nil_or_concat r with rfl | ⟨r, d, rfl⟩
  · exact hne (by simpa using hr)
  · apply h
    rw [List.concat_eq_append, ← List.append_assoc] at hr
    exact ⟨r, (List.append_inj' hr rfl).1⟩

theorem apart_of_nonNested {o n : RelPath} (h : NonNested (pathStr o.1) (pathStr n.1)) : Apart (pathStr o.1) (pathStr n.1) := by
  obtain ⟨h1, h2⟩ := h
  have hroot : ∀ p : RelPath, under (pathStr []) <+: pathStr p.1 := by
    intro p
    rw [under_root]
    exact ⟨_, rfl⟩
  have ho : o.1 ≠ [] := by
    intro e
    apply h1
    rw [e]
    exact .inr (hroot n)
  have hn : n.1 ≠ [] := by
    intro e
    apply h2
    rw [e]
    exact .inr (hroot o)
  have hne : pathStr n.1 ≠ pathStr o.1 := fun e => h1 (.inl e)
  have hon : ¬ under (pathStr o.1) <+: pathStr n.1 := fun e => h1 (.inr e)
  have hno : ¬ under (pathStr n.1) <+: pathStr o.1 := fun e => h2 (.inr e)
  refine ⟨hne, under_pathStr ho, under_pathStr hn, hon, hno, ?_, ?_⟩
  · rw [under_pathStr hn]
    refine not_prefix_concat hon fun e => ?_
    rw [under_pathStr ho] at e
    exact hne (List.append_cancel_right e).symm
  · rw [under_pathStr ho]
    refine not_prefix_concat hno fun e => ?_
    rw [under_pathStr hn] at e
    exact hne (List.append_cancel_right e)

theorem moveTable_lookup (horder : ∀ data, (order data).Perm data.keys) (h : Apart old new)
    (hdata : moveTable order data old new = some data') (q : Str) :
    data'.lookup q =
      if AtOrBelow old q then none
      else if q = new then (data.lookup old).or (data.lookup new)
      else if under new <+: q then (data.lookup (under old ++ q.drop (under new).length)).or (data.lookup q)
      else data.lookup q := by
  rw [moveTable_eq] at hdata
  rw [moveAll_lookup h.not_under h.not_under' (horder _) hdata]
  simp only [moveOne_lookup h.ne, AtOrBelow]
  have hlen : ∀ r, under old ++ r ≠ old := by
    intro r e
    have := congrArg List.length e
    rw [h.under_old] at this
    simp at this
  have hnew : ∀ r, under old ++ r ≠ new := fun r e => h.not_old_new ⟨r, e⟩
  by_cases hq : under old <+: q
  · simp [hq]
  · by_cases ho : q = old
    · subst ho
      simp [hq, h.not_new_old]
    · by_cases hn : q = new
      · subst hn
        have hself : ¬ under q <+: q := by
          intro e
          have := e.length_le
          rw [h.under_new] at this
          simp at this
        simp [hq, ho, hself]
      · simp [hq, ho, hn, hlen, hnew]

/-! ## The modes of what is moved -/

theorem under_of_ne_root {p : RelPath} (h : under (pathStr p.1) = pathStr p.1 ++ [slash]) : p.1 ≠ [] := by
  intro e
  rw [e, under_root] at h
  exact absurd h (by decide)

theorem pathStr_append {p q : Path} (hp : p ≠ []) (hq : q ≠ []) :
    pathStr (p ++ q) = pathStr p ++ [slash] ++ [slash].intercalate q := by
  rw [Pathutil.pathStr_flatMap (by simp [hp]), Pathutil.pathStr_flatMap hp, List.flatMap_append, List.append_assoc]
  congr 1
  rw [← Pathutil.pathStr_flatMap hq]
  rfl

/-- `dir/p` is an absolute path too. -/
theorem inside_pathStr {d : RelPath} (hd : d.1 ≠ []) (p : RelPath) : inside (pathStr d.1) p = pathStr (d.1 ++ p.1) := by
  unfold inside
  split
  next h => rw [h, List.append_nil]
  next h => rw [pathStr_append hd h, under_pathStr hd]

theorem abspathIn_inside (cwd : Path) {d : RelPath} (hd : d.1 ≠ []) (p : RelPath) :
    abspathIn cwd (inside (pathStr d.1) p) = inside (pathStr d.1) p := by
  rw [inside_pathStr hd]
  refine abspathIn_pathStr cwd ⟨d.1 ++ p.1, fun n hn => ?_⟩
  rcases List.mem_append.mp hn with hn | hn
  · exact d.2 n hn
  · exact p.2 n hn

/-- The mode `get_mode` gives in a directory `cwd`. -/
def recordedMode (data : Table) (cwd : Path) (path : Str) (directory : Bool) : Nat := modeAt data (abspathIn cwd path) directory

/-- What a move from `old` to `new` is for. `kind p` says whether `p` of what is moved is
a directory. -/
structure Moved (cwd : Path) (data data' : Table) (old new : Str) (kind : RelPath → Bool) : Prop where
  modes : ∀ p, recordedMode data' cwd (inside new p) (kind p) = recordedMode data cwd (inside old p) (kind p)
  gone : ∀ path ∈ data', ¬ AtOrBelow old path
  others : ∀ path, ¬ AtOrBelow old path → ¬ AtOrBelow new path → data'.lookup path = data.lookup path

def defaultMode (directory : Bool) : Nat := if directory then defaultDirMode else defaultFileMode

/-- Where the old path has no entry the new one has none either, or just the default. -/
def NoStale (data : Table) (old new : Str) (kind : RelPath → Bool) : Prop :=
  ∀ p, data.lookup (inside old p) = none → ∀ mode, data.lookup (inside new p) = some mode → mode = defaultMode (kind p)

/-- At a place below the new path. -/
theorem moveTable_inside (horder : ∀ data, (order data).Perm data.keys) (h : Apart old new)
    (hdata : moveTable order data old new = some data') (p : RelPath) :
    data'.lookup (inside new p) = (data.lookup (inside old p)).or (data.lookup (inside new p)) := by
  rw [moveTable_lookup horder h hdata]
  have hnot : ¬ AtOrBelow old (inside new p) := by
    rintro (e | e)
    · unfold inside at e
      split at e
      · exact h.ne e
      · exact h.not_new_old (e ▸ List.prefix_append _ _)
    · unfold inside at e
      split at e
      · exact h.not_old_new e
      · exact not_both_prefix h.not_under h.not_under' e (List.prefix_append _ _)
  rw [if_neg hnot]
  by_cases hp : p.1 = []
  · have hin : ∀ d, inside d p = d := fun d => if_pos hp
    rw [hin old, hin new, if_pos rfl]
  · have hin : ∀ d, inside d p = under d ++ [slash].intercalate p.1 := fun d => if_neg hp
    have hne : under new ++ [slash].intercalate p.1 ≠ new := by
      intro e
      have := congrArg List.length e
      rw [h.under_new] at this
      simp at this
    rw [hin old, hin new, if_neg hne, if_pos (List.prefix_append _ _), List.drop_left]

theorem moved_iff_noStale (cwd : Path) (horder : ∀ data, (order data).Perm data.keys) {o n : RelPath}
    (hold : old = pathStr o.1) (hnew : new = pathStr n.1) (h : NonNested old new)
    (hdata : moveTable order data old new = some data') (kind : RelPath → Bool) :
    Moved cwd data data' old new kind ↔ NoStale data old new kind := by
  subst hold hnew
  have hapart := apart_of_nonNested h
  have hlookup := moveTable_inside horder hapart hdata
  have hmode : ∀ (d : RelPath) (t : Table) (p : RelPath), d.1 ≠ [] → recordedMode t cwd (inside (pathStr d.1) p) (kind p) =
      (t.lookup (inside (pathStr d.1) p)).getD (defaultMode (kind p)) := by
    intro d t p hd
    rw [recordedMode, abspathIn_inside cwd hd]
    rfl
  have ho := under_of_ne_root hapart.under_old
  have hn := under_of_ne_root hapart.under_new
  constructor
  · intro hmoved p hp mode hmode'
    have := hmoved.modes p
    rw [hmode n data' p hn, hmode o data p ho, hlookup, hp, hmode'] at this
    exact this
  · intro hstale
    refine ⟨fun p => ?_, fun path hpath hbelow => ?_, fun path h1 h2 => ?_⟩
    · rw [hmode n data' p hn, hmode o data p ho, hlookup]
      cases hp : data.lookup (inside (pathStr o.1) p) with
      | some mode => rfl
      | none =>
        cases hp' : data.lookup (inside (pathStr n.1) p) with
        | none => rfl
        | some mode => exact hstale p hp mode hp'
    · have hnone := moveTable_lookup horder hapart hdata path
      rw [if_pos hbelow] at hnone
      exact AList.lookup_eq_none.mp hnone hpath
    · rw [moveTable_lookup horder hapart hdata, if_neg h1, if_neg fun e => h2 (.inl e), if_neg fun e => h2 (.inr e)]

end PythonUltra.Pyperm
