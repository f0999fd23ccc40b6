/-
  PythonUltra.Zipfile.Names — the string helpers of the zipfile module, by the parts of
  the strings they build.

  What a path string names depends on its parts and on whether it starts with a slash
  (`Os.resolve_eq`), so each helper is stated by these: `_join` puts the parts of a clean
  name after the folder's (`joinPath_extends`), `_parent` takes the last part away
  (`parent_joinPath`), `_safe_name` returns parts none of which is `.` or `..`
  (`safeName_parts`). `_mkdirs` makes the folders of a string's parts one after another
  (`wp_mkdirs`).
-/

import PythonUltra.Zipfile.Model

namespace PythonUltra.Zipfile

open PythonUltra.Lib PythonUltra.Lib.Prog PythonUltra.Os

/-- Parts as a string has them: not empty, no slash inside. -/
def IsParts (ns : List Str) : Prop := ∀ n ∈ ns, n ≠ [] ∧ slash ∉ n

theorem isParts_parts (s : Str) : IsParts (parts s) := by
  intro n hn
  unfold parts at hn
  rw [List.mem_filter] at hn
  refine ⟨by simpa using hn.2, ?_⟩
  -- no part of a split holds the separator
  have hsplit : ∀ (s : Str) (n : Str), n ∈ s.splitOn slash → slash ∉ n := by
    intro s
    induction s with
    | nil => simp
    | cons c s ih =>
      intro n hn
      rw [List.splitOn_cons_eq_if_modifyHead] at hn
      split at hn
      · rcases List.mem_cons.mp hn with rfl | hn
        · simp
        · exact ih n hn
      · rename_i hc
        obtain ⟨m, ms, hm⟩ := List.exists_cons_of_ne_nil (List.splitOn_ne_nil slash s)
        rw [hm, List.modifyHead_cons] at hn
        rcases List.mem_cons.mp hn with rfl | hn
        · have := ih m (by rw [hm]; exact List.mem_cons_self)
          simp only [List.mem_cons, not_or]
          exact ⟨fun e => hc (by simp [e]), this⟩
        · exact ih n (by rw [hm]; exact List.mem_cons_of_mem _ hn)
  exact hsplit s n hn.1

theorem mem_of_mem_parts {s n : Str} {c : UInt8} (hn : n ∈ parts s) (hc : c ∈ n) : c ∈ s := by
  have hjoin : join (s.splitOn slash) = s := List.intercalate_splitOn slash
  have hmem : n ∈ s.splitOn slash := (List.mem_filter.mp hn).1
  have hin : ∀ l : List Str, n ∈ l → c ∈ join l := by
    intro l
    induction l with
    | nil => simp
    | cons m l ih =>
      intro hn
      cases l with
      | nil =>
        have : join [m] = m := by simp [join]
        rw [this, ← List.mem_singleton.mp hn]
        exact hc
      | cons k l =>
        unfold join at *
        rw [List.intercalate_cons_cons, List.mem_append, List.mem_append]
        rcases List.mem_cons.mp hn with rfl | hn
        · exact Or.inl (Or.inl hc)
        · exact Or.inr (ih hn)
  rw [← hjoin]
  exact hin _ hmem

theorem join_ne_nil {ns : List Str} (h : IsParts ns) (hne : ns ≠ []) : join ns ≠ [] := by
  cases ns with
  | nil => exact absurd rfl hne
  | cons n ns =>
    intro e
    have hn := (h n List.mem_cons_self).1
    unfold join at e
    cases ns with
    | nil => exact hn (by simpa using e)
    | cons m ms =>
      rw [List.intercalate_cons_cons] at e
      exact hn (List.append_eq_nil_iff.mp (List.append_eq_nil_iff.mp e).1).1

theorem join_append {a b : List Str} (ha : a ≠ []) (hb : b ≠ []) : join (a ++ b) = join a ++ slash :: join b := by
  unfold join
  induction a with
  | nil => exact absurd rfl ha
  | cons m ms ih =>
    cases ms with
    | nil =>
      rw [List.singleton_append, List.intercalate_cons_of_ne_nil hb]
      simp
    | cons k ks =>
      have := ih (by simp)
      rw [List.cons_append, List.cons_append] at *
      rw [List.intercalate_cons_cons, this, List.intercalate_cons_cons]
      simp

theorem join_concat {ns : List Str} (n : Str) (hne : ns ≠ []) : join (ns ++ [n]) = join ns ++ slash :: n := by
  rw [join_append hne (by simp)]
  simp [join]

theorem parts_join {ns : List Str} (h : IsParts ns) : parts (join ns) = ns := by
  unfold parts join
  by_cases hne : ns = []
  · subst hne; rfl
  · rw [List.splitOn_intercalate slash (fun n hn => (h n hn).2) hne]
    exact List.filter_eq_self.mpr fun n hn => by simpa using (h n hn).1

theorem parts_append (a b : Str) : parts (a ++ slash :: b) = parts a ++ parts b := by
  unfold parts
  rw [List.splitOn_append_cons_self, List.filter_append]

theorem parts_slash_cons (b : Str) : parts (slash :: b) = parts b := parts_append [] b

theorem parts_rstrip (s : Str) : parts (rstrip s) = parts s := by
  induction s using List.reverseRecOn with
  | nil => rfl
  | append_singleton s c ih =>
    unfold rstrip at *
    by_cases hc : c = slash
    · rw [List.rdropWhile_concat_pos _ _ _ (by simp [hc]), ih, hc, parts_append]
      simp [parts]
    · rw [List.rdropWhile_concat_neg _ _ _ (by simp [hc])]

theorem not_isAbs_join {ns : List Str} (h : IsParts ns) : ¬ isAbs (join ns) := by
  unfold isAbs join
  cases ns with
  | nil => simp
  | cons n ns =>
    obtain ⟨h1, h2⟩ := h n List.mem_cons_self
    obtain ⟨c, n, rfl⟩ := List.exists_cons_of_ne_nil h1
    have hc : c ≠ slash := fun e => h2 (e ▸ List.mem_cons_self)
    cases ns with
    | nil => simpa using hc
    | cons m ms => rw [List.intercalate_cons_cons]; simpa using hc

/-! ## Targets -/

/-- `t` names what `ns` names below the folder string `s`. -/
structure Extends (s : Str) (ns : List Str) (t : Str) : Prop where
  parts : parts t = parts s ++ ns
  isAbs : isAbs t ↔ isAbs s

theorem Extends.resolve {s t : Str} {ns : List Str} (h : Extends s ns t) (cwd : Path) :
    Os.resolve cwd t = follow cwd (Os.isAbs s) (Os.parts s ++ ns) := by
  rw [resolve_eq, h.parts]
  unfold follow
  by_cases ha : Os.isAbs s
  · rw [if_pos ha, if_pos (h.isAbs.mpr ha)]
  · rw [if_neg ha, if_neg fun e => ha (h.isAbs.mp e)]

theorem isAbs_append {a : Str} (b : Str) (h : a ≠ []) : isAbs (a ++ b) ↔ isAbs a := by
  unfold isAbs
  cases a with
  | nil => exact absurd rfl h
  | cons c a => rfl

/-- What is left of a folder string before `_join` adds the slash: nothing when it is all
    slashes. -/
theorem rstrip_cases {s : Str} (hne : s ≠ []) : (rstrip s = [] ∧ isAbs s) ∨ (rstrip s ≠ [] ∧ (isAbs (rstrip s) ↔ isAbs s)) := by
  by_cases h : rstrip s = []
  · refine Or.inl ⟨h, ?_⟩
    unfold rstrip at h
    rw [List.rdropWhile_eq_nil_iff] at h
    obtain ⟨c, s, rfl⟩ := List.exists_cons_of_ne_nil hne
    have := h c List.mem_cons_self
    simpa [isAbs] using this
  · refine Or.inr ⟨h, ?_⟩
    obtain ⟨t, ht⟩ : rstrip s <+: s := List.rdropWhile_prefix _ _
    have := isAbs_append t h
    rw [ht] at this
    exact this.symm

theorem joinPath_eq {s : Str} (n : Str) : joinPath s n = rstrip s ++ slash :: n := by
  unfold joinPath
  split
  · rename_i h; rw [h]; rfl
  · rfl

theorem joinPath_extends {s : Str} {ns : List Str} (hne : s ≠ []) (h : IsParts ns) : Extends s ns (joinPath s (join ns)) := by
  rw [joinPath_eq]
  refine ⟨by rw [parts_append, parts_rstrip, parts_join h], ?_⟩
  rcases rstrip_cases hne with ⟨h1, h2⟩ | ⟨h1, h2⟩
  · rw [h1]; exact iff_of_true rfl h2
  · rw [isAbs_append _ h1, h2]

theorem rstrip_append {x n : Str} (hn : n ≠ []) (hs : slash ∉ n) : rstrip (x ++ n) = x ++ n := by
  unfold rstrip
  refine List.rdropWhile_eq_self_iff.mpr fun hl => ?_
  have hlast : (x ++ n).getLast hl ∈ n := by
    rw [List.getLast_append_of_ne_nil _ hn]
    exact List.getLast_mem hn
  simpa using fun e : (x ++ n).getLast hl = slash => hs (e ▸ hlast)

theorem rstrip_concat {x n : Str} (hn : n ≠ []) (hs : slash ∉ n) : rstrip (x ++ slash :: n) = x ++ slash :: n := by
  rw [List.append_cons]
  exact rstrip_append hn hs

/-- `_parent` of a path string that ends in a name. -/
theorem parent_concat {x n : Str} (hn : n ≠ []) (hs : slash ∉ n) :
    parent (x ++ slash :: n) = if x ≠ [] then x else [slash] := by
  unfold parent
  rw [rstrip_concat hn hs, List.splitOn_append_cons_self, List.splitOn_eq_singleton hs]
  simp only [List.dropLast_concat]
  rw [show join (x.splitOn slash) = x from List.intercalate_splitOn slash]

theorem parent_joinPath {s : Str} {ns : List Str} {n : Str} (hne : s ≠ []) (h : IsParts (ns ++ [n])) :
    Extends s ns (parent (joinPath s (join (ns ++ [n])))) := by
  obtain ⟨h1, h2⟩ := h n (by simp)
  have hns : IsParts ns := fun m hm => h m (by simp [hm])
  -- the string before the last name
  obtain ⟨x, hx, hp, ha⟩ : ∃ x, joinPath s (join (ns ++ [n])) = x ++ slash :: n ∧ parts x = parts s ++ ns ∧
      ((x = [] ∧ isAbs s) ∨ (x ≠ [] ∧ (isAbs x ↔ isAbs s))) := by
    by_cases he : ns = []
    · refine ⟨rstrip s, ?_, by rw [parts_rstrip, he, List.append_nil], rstrip_cases hne⟩
      rw [joinPath_eq, he]
      simp [join]
    · have hj := joinPath_extends hne hns
      refine ⟨joinPath s (join ns), ?_, hj.parts, Or.inr ⟨by rw [joinPath_eq]; simp, hj.isAbs⟩⟩
      rw [joinPath_eq, joinPath_eq, join_concat n he]
      simp
  rw [hx, parent_concat h1 h2]
  rcases ha with ⟨rfl, hs⟩ | ⟨hx0, hs⟩
  · rw [if_neg (by simp)]
    exact ⟨by rw [← hp]; rfl, iff_of_true rfl hs⟩
  · rw [if_pos hx0]
    exact ⟨hp, hs⟩

/-! ## Names from an archive -/

/-- Parts that neither stay nor climb. -/
def Safe (ns : List Str) : Prop := ∀ n ∈ ns, n ≠ [] ∧ n ≠ dot ∧ n ≠ dotdot ∧ slash ∉ n

theorem Safe.isParts {ns : List Str} (h : Safe ns) : IsParts ns := fun n hn => ⟨(h n hn).1, (h n hn).2.2.2⟩

theorem safePart_ok {acc r : List Str} {n : Str} (hn : slash ∉ n) (hacc : Safe acc) (h : safePart acc n = .ok r) :
    Safe r := by
  unfold safePart at h
  split at h
  · obtain rfl := Except.ok.inj h
    exact hacc
  · rename_i h1
    split at h
    · simp at h
    · rename_i h2
      obtain rfl := Except.ok.inj h
      intro m hm
      rcases List.mem_append.mp hm with hm | hm
      · exact hacc m hm
      · rw [List.mem_singleton.mp hm]
        exact ⟨fun e => h1 (Or.inl e), fun e => h1 (Or.inr e), h2, hn⟩

theorem safeName_fold {l acc r : List Str} (hl : ∀ n ∈ l, slash ∉ n) (hacc : Safe acc)
    (h : l.foldlM safePart acc = .ok r) : Safe r := by
  induction l generalizing acc with
  | nil => exact Except.ok.inj h ▸ hacc
  | cons n l ih =>
    rw [List.foldlM_cons] at h
    rcases hp : safePart acc n with e | acc'
    · rw [hp] at h
      exact absurd h (by simp [bind, Except.bind])
    · rw [hp] at h
      exact ih (fun m hm => hl m (List.mem_cons_of_mem _ hm)) (safePart_ok (hl n List.mem_cons_self) hacc hp) h

theorem slash_not_mem_splitOn {s n : Str} (h : n ∈ s.splitOn slash) : slash ∉ n := by
  by_cases hn : n = []
  · simp [hn]
  · exact (isParts_parts s n (List.mem_filter.mpr ⟨h, by simpa using hn⟩)).2

/-- `_safe_name` returns safe parts, joined. -/
theorem safeName_parts {name clean : Str} (h : safeName name = .ok clean) : ∃ ns, Safe ns ∧ clean = join ns := by
  unfold safeName at h
  simp only [bind, Except.bind, pure, Except.pure] at h
  split at h
  · simp at h
  · rename_i r hr
    refine ⟨r, safeName_fold (fun n hn => slash_not_mem_splitOn hn) (fun n hn => by simp at hn) hr, ?_⟩
    simpa using h.symm

/-! ## Making folders -/

/-- The string `_mkdirs` has in `current` after the parts `ns`. -/
def currentStr (abs : Prop) [Decidable abs] (ns : List Str) : Str := if abs then slash :: join ns else join ns

theorem currentStr_parts (abs : Prop) [Decidable abs] {ns : List Str} (h : IsParts ns) :
    parts (currentStr abs ns) = ns ∧ (isAbs (currentStr abs ns) ↔ abs) := by
  unfold currentStr
  by_cases ha : abs
  · rw [if_pos ha, parts_slash_cons, parts_join h]
    exact ⟨rfl, iff_of_true rfl ha⟩
  · rw [if_neg ha, parts_join h]
    exact ⟨rfl, iff_of_false (not_isAbs_join h) ha⟩

theorem resolve_currentStr (cwd : Path) (abs : Prop) [Decidable abs] {ns : List Str} (h : IsParts ns) :
    resolve cwd (currentStr abs ns) = follow cwd abs ns := by
  obtain ⟨hp, ha⟩ := currentStr_parts abs h
  rw [resolve_eq, hp]
  unfold follow
  by_cases e : abs
  · rw [if_pos e, if_pos (ha.mpr e)]
  · rw [if_neg e, if_neg fun x => e (ha.mp x)]

/-- `current` after the parts `ns`. -/
def currentOf (abs : Prop) [Decidable abs] (ns : List Str) : Option Str :=
  if ns = [] then if abs then some [] else none else some (currentStr abs ns)

theorem nextPart_currentOf (abs : Prop) [Decidable abs] {ns : List Str} {n : Str} (h : IsParts ns) :
    nextPart (currentOf abs ns) n = currentStr abs (ns ++ [n]) := by
  unfold currentOf
  by_cases he : ns = []
  · subst he
    by_cases ha : abs <;> simp [ha, nextPart, currentStr, join]
  · have hne : currentStr abs ns ≠ [] := by
      unfold currentStr
      split
      · simp
      · exact join_ne_nil h he
    rw [if_neg he]
    obtain ⟨c, cs, hc⟩ := List.exists_cons_of_ne_nil hne
    have hstep : nextPart (some (currentStr abs ns)) n = currentStr abs ns ++ slash :: n := by
      rw [hc]; rfl
    rw [hstep]
    unfold currentStr
    split <;> rw [join_concat n he]
    rfl

/-- `_mkdirs` makes the folders the parts lead to, from the first on. `I ns` holds when
    those up to `ns` are made. -/
theorem wp_mkdirs {path : Str} {I : List Str → World × Created → Prop} {R : Exc → World × Created → Prop}
    (hstep : ∀ ns n s, ns ++ [n] <+: parts path → I ns s →
      wp (mkdirOne (currentStr (isAbs path) (ns ++ [n]))) (fun _ => I (ns ++ [n])) R s)
    {s : World × Created} (h : I [] s) : wp (mkdirs path) (fun _ => I (parts path)) R s := by
  unfold mkdirs
  by_cases htriv : path = [] ∨ path = [slash]
  · rw [if_pos htriv]
    have : parts path = [] := by rcases htriv with rfl | rfl <;> rfl
    rw [this]; exact h
  · rw [if_neg htriv]
    -- after the parts before `l`, of which the non-empty ones are `ns`
    have hloop : ∀ (l ns : List Str) (s : World × Created), ns ++ l.filter (· ≠ []) = parts path → I ns s →
        wp (l.foldlM (fun (current : Option Str) part =>
          if part = [] then pure current
          else do
            mkdirOne (nextPart current part)
            pure (some (nextPart current part))) (currentOf (isAbs path) ns)) (fun _ => I (parts path)) R s := by
      intro l
      induction l with
      | nil =>
        intro ns s hns hI
        rw [List.filter_nil, List.append_nil] at hns
        rw [← hns]; exact hI
      | cons n l ih =>
        intro ns s hns hI
        rw [List.foldlM_cons]
        by_cases hn : n = []
        · rw [if_pos hn]
          rw [List.filter_cons_of_neg (by simpa using hn)] at hns
          exact wp_bind.mpr (ih ns s hns hI)
        · rw [if_neg hn]
          rw [List.filter_cons_of_pos (by simpa using hn), List.append_cons] at hns
          have hpre : ns ++ [n] <+: parts path := ⟨_, hns⟩
          have hparts : IsParts (ns ++ [n]) := fun m hm => isParts_parts path m (hpre.subset hm)
          have hns' : IsParts ns := fun m hm => hparts m (by simp [hm])
          have hnext := nextPart_currentOf (isAbs path) (n := n) hns'
          rw [hnext]
          refine wp_bind.mpr (wp_bind.mpr (wp_mono (hstep ns n s hpre hI) (fun _ s' hI' => ?_) fun _ _ h => h))
          have hcur : some (currentStr (isAbs path) (ns ++ [n])) = currentOf (isAbs path) (ns ++ [n]) := by
            unfold currentOf; rw [if_neg (by simp)]
          rw [wp_pure, hcur]
          exact ih (ns ++ [n]) s' hns hI'
    exact wp_bind.mpr (hloop (path.splitOn slash) [] s rfl h)

/-! ## Absolute paths -/

/-- A path of names a directory can hold. -/
def ValidPath (p : Path) : Prop := ∀ n ∈ p, ValidName n

theorem ValidPath.isParts {p : Path} (h : ValidPath p) : IsParts p := fun n hn => ⟨(h n hn).1, (h n hn).2.2.2.1⟩

theorem ValidPath.append {p q : Path} (hp : ValidPath p) (hq : ValidPath q) : ValidPath (p ++ q) := fun n hn =>
  (List.mem_append.mp hn).elim (hp n) (hq n)

theorem ValidPath.of_prefix {p q : Path} (h : ValidPath q) (hp : p <+: q) : ValidPath p := fun n hn => h n (hp.subset hn)

theorem foldl_component_valid (p : Path) {ns : List Str} (h : ValidPath ns) : ns.foldl component p = p ++ ns := by
  induction ns generalizing p with
  | nil => simp
  | cons n ns ih =>
    rw [List.foldl_cons, component_valid p (h n List.mem_cons_self), ih _ fun m hm => h m (List.mem_cons_of_mem _ hm)]
    simp

theorem follow_append_valid (cwd : Path) (abs : Prop) [Decidable abs] {ms ns : List Str} (hms : ∀ n ∈ ms, 0 ∉ n)
    (h : ValidPath ns) : follow cwd abs (ms ++ ns) = follow cwd abs ms ++ ns := by
  unfold follow
  rw [visible_append, if_pos hms, visible_of_not_mem hms, visible_of_not_mem fun n hn => (h n hn).2.2.2.2,
    List.foldl_append, foldl_component_valid _ h]

theorem parts_pathStr {p : Path} (h : IsParts p) : parts (pathStr p) = p := by
  have : pathStr p = slash :: join p := rfl
  rw [this, parts_slash_cons, parts_join h]

theorem resolve_pathStr (cwd : Path) {p : Path} (h : ValidPath p) : resolve cwd (pathStr p) = p := by
  rw [resolve_eq, parts_pathStr h.isParts]
  have hdown : follow cwd (isAbs (pathStr p)) ([] ++ p) = follow cwd (isAbs (pathStr p)) [] ++ p :=
    follow_append_valid _ _ (by simp) h
  rw [List.nil_append] at hdown
  rw [hdown]
  unfold follow
  rw [if_pos (show isAbs (pathStr p) from rfl)]
  rfl

theorem pathStr_singleton (n : Str) : pathStr [n] = slash :: n := by simp [pathStr]

theorem pathStr_concat (p : Path) (n : Str) (hp : p ≠ []) : pathStr (p ++ [n]) = pathStr p ++ slash :: n := by
  show slash :: join (p ++ [n]) = slash :: join p ++ slash :: n
  rw [join_concat n hp]
  rfl

theorem rstrip_pathStr {p : Path} (h : IsParts p) (hne : p ≠ []) : rstrip (pathStr p) = pathStr p := by
  obtain ⟨q, n, rfl⟩ := List.eq_nil_or_concat' p |>.resolve_left hne
  obtain ⟨h1, h2⟩ := h n (by simp)
  by_cases hq : q = []
  · rw [hq, List.nil_append, pathStr_singleton]
    exact rstrip_append (x := [slash]) h1 h2
  · rw [pathStr_concat q n hq]
    exact rstrip_concat h1 h2

theorem ValidPath.component {p : Path} {n : Str} (hp : ValidPath p) (hslash : slash ∉ n) (h0 : 0 ∉ n) : ValidPath (component p n) := by
  unfold Os.component
  split
  · exact hp
  · rename_i h1
    split
    · exact hp.of_prefix (List.dropLast_prefix p)
    · rename_i h2
      refine hp.append fun m hm => ?_
      rw [List.mem_singleton.mp hm]
      exact ⟨fun e => h1 (Or.inl e), fun e => h1 (Or.inr e), h2, hslash, h0⟩

theorem ValidPath.foldl_component {p : Path} {ns : List Str} (hp : ValidPath p) (hns : ∀ n ∈ ns, slash ∉ n ∧ 0 ∉ n) :
    ValidPath (ns.foldl Os.component p) := by
  induction ns generalizing p with
  | nil => exact hp
  | cons n ns ih =>
    obtain ⟨h1, h2⟩ := hns n List.mem_cons_self
    exact ih (hp.component h1 h2) fun m hm => hns m (List.mem_cons_of_mem _ hm)

theorem resolve_valid {cwd : Path} {s : Str} (hcwd : ValidPath cwd) (h0 : 0 ∉ s) : ValidPath (resolve cwd s) := by
  unfold resolve
  rw [cstr_of_not_mem h0, consume_eq]
  refine ValidPath.foldl_component ?_ fun n hn => ⟨(isParts_parts s n hn).2, fun hz => h0 (mem_of_mem_parts hn hz)⟩
  split
  · exact fun n hn => by simp at hn
  · exact hcwd

/-- `_absolute` spells out the path a string names. -/
theorem absolute_eq {path : Str} {w : World} (h0 : 0 ∉ path) (hcwd : ValidPath w.cwd) :
    absolute path w = (.ok (pathStr (w.resolve path)), w) := by
  have hfun : (fun (parts : List Str) part =>
      if part = dotdot then parts.dropLast else if part ≠ [] ∧ part ≠ dot then parts ++ [part] else parts) = component := by
    funext p n
    unfold component
    by_cases h1 : n = dotdot
    · rw [if_pos h1, if_neg (by rw [h1]; decide), if_pos h1]
    · rw [if_neg h1]
      by_cases h2 : n = [] ∨ n = dot
      · rw [if_pos h2, if_neg (by tauto)]
      · rw [if_neg h2, if_pos (by tauto), if_neg h1]
  have hcstr : cstr path = path := cstr_of_not_mem h0
  by_cases ha : path.head? = some slash
  · have hres : w.resolve path = consume [] path := by
      unfold World.resolve Os.resolve
      rw [hcstr, if_pos ha]
    have hrun : absolute path w = (.ok (pathStr ((path.splitOn slash).foldl component [])), w) := by
      unfold absolute
      rw [if_pos ha, hfun]; rfl
    rw [hrun, hres]; rfl
  · have hres : w.resolve path = consume w.cwd path := by
      unfold World.resolve Os.resolve
      rw [hcstr, if_neg ha]
    have hrun : absolute path w =
        (.ok (pathStr (((rstrip (pathStr w.cwd) ++ slash :: path).splitOn slash).foldl component [])), w) := by
      unfold absolute
      rw [if_neg ha, hfun]; rfl
    have hbase : consume [] (rstrip (pathStr w.cwd)) = w.cwd := by
      rw [consume_eq, parts_rstrip, parts_pathStr hcwd.isParts, foldl_component_valid [] hcwd, List.nil_append]
    have happ := consume_append [] (rstrip (pathStr w.cwd)) path
    rw [hbase] at happ
    rw [hrun, hres, ← happ]
    rfl

end PythonUltra.Zipfile
