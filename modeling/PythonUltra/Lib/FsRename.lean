/-
  PythonUltra.Lib.FsRename — moving a file or a directory with all that is below it.

  `rename` replaces what it may at the new path and fails as POSIX has it fail. What it
  does is stated at every path (`rename_ok`): the new path and what is below it show what
  the old one showed, the old one is gone, and nothing else has changed.
-/

import PythonUltra.Lib.Fs

namespace PythonUltra.Lib.Fs

variable {ν : Type} [DecidableEq ν]

/-- The entries at and below `p` under `q`; those that were there are gone. -/
def movedEntries (p q : List ν) (l : List (Sigma fun _ : List ν => Node)) : List (Sigma fun _ : List ν => Node) :=
  l.filterMap fun e =>
    if p <+: e.1 then some ⟨q ++ e.1.drop p.length, e.2⟩ else if q <+: e.1 then none else some e

theorem dlookup_movedEntries (p q r : List ν) (l : List (Sigma fun _ : List ν => Node)) :
    (movedEntries p q l).dlookup r =
      if q <+: r then l.dlookup (p ++ r.drop q.length) else if p <+: r then none else l.dlookup r := by
  induction l with
  | nil => simp [movedEntries]
  | cons e l ih =>
    obtain ⟨k, n⟩ := e
    -- what the entry becomes, and whether it is the one looked for
    unfold movedEntries at ih ⊢
    rw [List.filterMap_cons]
    by_cases hp : p <+: k
    · obtain ⟨t, rfl⟩ := hp
      simp only [List.prefix_append, if_true, List.drop_left]
      by_cases hr : r = q ++ t
      · subst hr
        rw [List.dlookup_cons_eq, if_pos (List.prefix_append q t), List.drop_left, List.dlookup_cons_eq]
      · rw [List.dlookup_cons_ne _ _ hr, ih]
        split
        · rename_i hq
          obtain ⟨u, rfl⟩ := hq
          rw [List.drop_left, List.dlookup_cons_ne]
          intro e
          rw [List.append_cancel_left_eq] at e
          exact hr (by rw [e])
        · split
          · rfl
          · rename_i hpr
            rw [List.dlookup_cons_ne]
            rintro rfl
            exact hpr (List.prefix_append p t)
    · simp only [hp, if_false]
      have hne : p ++ r.drop q.length ≠ k := fun e => hp (e ▸ List.prefix_append p _)
      by_cases hq : q <+: k
      · simp only [hq, if_true]
        rw [ih, List.dlookup_cons_ne _ _ hne]
        split
        · rfl
        · rename_i hqr
          rw [List.dlookup_cons_ne]
          rintro rfl
          exact hqr hq
      · simp only [hq, if_false]
        by_cases hr : r = k
        · subst hr
          rw [if_neg hq, if_neg hp, List.dlookup_cons_eq, List.dlookup_cons_eq]
        · rw [List.dlookup_cons_ne _ _ hr, ih, List.dlookup_cons_ne _ _ hne, List.dlookup_cons_ne _ _ hr]

theorem lookup_moved (fs : Fs ν) (p q r : List ν) : (movedEntries p q fs.nodes.entries).toAList.lookup r =
    if q <+: r then fs.get (p ++ r.drop q.length) else if p <+: r then none else fs.get r := by
  rw [AList.lookup_to_alist, dlookup_movedEntries]
  rfl

/-- `p` and what is below it moved to `q`. -/
def move (fs : Fs ν) (p q : List ν) (hp : p ≠ []) (hq : q ≠ []) (hpq : ¬ p <+: q)
    (hdir : fs.get q.dropLast = some .dir) : Fs ν where
  nodes := (movedEntries p q fs.nodes.entries).toAList
  root := by
    rw [lookup_moved, if_neg (by simpa using hq), if_neg (by simpa using hp)]
    exact fs.root
  closed := by
    have hlast : ∀ {r : List ν}, r.dropLast <+: r := fun {r} => r.dropLast_prefix
    have hself : ¬ q <+: q.dropLast := fun e => by
      have := e.length_le
      have := List.length_pos_of_ne_nil hq
      rw [List.length_dropLast] at *
      omega
    intro r hr h
    rw [lookup_moved] at h ⊢
    by_cases hqr : q <+: r
    · obtain ⟨t, rfl⟩ := hqr
      rw [if_pos (List.prefix_append q t), List.drop_left] at h
      by_cases ht : t = []
      · rw [ht, List.append_nil, if_neg hself, if_neg fun e => hpq (e.trans hlast)]
        exact hdir
      · rw [List.dropLast_append_of_ne_nil ht, if_pos (List.prefix_append q _), List.drop_left,
          ← List.dropLast_append_of_ne_nil ht]
        exact fs.get_parent (by simp [ht]) h
    · rw [if_neg hqr] at h
      rw [if_neg fun e => hqr (e.trans hlast)]
      by_cases hpr : p <+: r
      · rw [if_pos hpr] at h
        exact absurd rfl h
      · rw [if_neg hpr] at h
        rw [if_neg fun e => hpr (e.trans hlast)]
        exact fs.get_parent hr h

theorem get_move (fs : Fs ν) {p q : List ν} (hp : p ≠ []) (hq : q ≠ []) (hpq : ¬ p <+: q)
    (hdir : fs.get q.dropLast = some .dir) (r : List ν) : (fs.move p q hp hq hpq hdir).get r =
      if q <+: r then fs.get (p ++ r.drop q.length) else if p <+: r then none else fs.get r :=
  lookup_moved fs p q r

/-- Why `node` cannot take the place of what is at `q`. -/
def occupied (fs : Fs ν) (node : Node) (q : List ν) : Option Errno :=
  match fs.get q, node with
  | none, _ => none
  | some (.file _), .file _ => none
  | some (.file _), .dir => some .enotdir
  | some .dir, .file _ => some .eisdir
  | some .dir, .dir => if fs.children q = [] then none else some .enotempty

def rename (fs : Fs ν) (p q : List ν) : Except Errno (Fs ν) :=
  match fs.get p with
  | none => .error (fs.missing p)
  | some node =>
    if p = q then .ok fs
    else if hpq : p <+: q then .error .einval
    else if hdir : q ≠ [] ∧ fs.get q.dropLast = some .dir then
      match fs.occupied node q with
      | some e => .error e
      | none => .ok (fs.move p q (fun e => hpq (e ▸ List.nil_prefix)) (fs.ne_root_of_under hdir) hpq (fs.dir_of_under hdir))
    else .error (if q = [] then .ebusy else fs.missing q)

variable {fs fs' : Fs ν} {p q : List ν}

theorem rename_ok (h : fs.rename p q = .ok fs') :
    fs.get p ≠ none ∧ ((p = q ∧ fs' = fs) ∨ (¬ p <+: q ∧
      ∀ r, fs'.get r = if q <+: r then fs.get (p ++ r.drop q.length) else if p <+: r then none else fs.get r)) := by
  unfold rename at h
  split at h
  · simp at h
  · rename_i node hn
    refine ⟨by rw [hn]; simp, ?_⟩
    split at h
    · rename_i e
      simp only [Except.ok.injEq] at h
      exact Or.inl ⟨e, h.symm⟩
    · split at h
      · simp at h
      · rename_i hpq
        split at h
        · rename_i hdir
          split at h
          · simp at h
          · simp only [Except.ok.injEq] at h
            subst h
            exact Or.inr ⟨hpq, fs.get_move _ hdir.1 hpq hdir.2⟩
        · simp at h

end PythonUltra.Lib.Fs
