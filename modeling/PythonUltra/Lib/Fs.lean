/-
  PythonUltra.Lib.Fs — a filesystem: finitely many paths, each a directory or a file.

  A path is its list of names; `[]` is the root. The root is a directory and so is the
  parent of everything there is: the two fields of `Fs` say so, and every operation keeps
  them. The operations fail as POSIX has them fail. What one does is stated by what is at
  every path afterwards (`mkdir_ok`, `create_ok`, `remove_ok`, `rmdir_ok`).
-/

import Mathlib.Data.List.AList
import Mathlib.Data.List.Infix

namespace PythonUltra.Lib

inductive Errno where
  | enoent
  | eexist
  | enotdir
  | eisdir
  | enotempty
  | ebusy
  | einval
  | eio
  | enospc
  | eacces
  | enametoolong
  /-- An error raised with a text in place of a number: a fixed part and what is appended. -/
  | text (msg : String) (arg : List UInt8)
  deriving DecidableEq, Repr

inductive Node where
  | dir
  | file (bytes : List UInt8)
  deriving DecidableEq, Repr

structure Fs (ν : Type) [DecidableEq ν] where
  nodes : AList fun _ : List ν => Node
  root : nodes.lookup [] = some .dir
  closed : ∀ p, p ≠ [] → nodes.lookup p ≠ none → nodes.lookup p.dropLast = some .dir

namespace Fs

variable {ν : Type} [DecidableEq ν]

def get (fs : Fs ν) (p : List ν) : Option Node := fs.nodes.lookup p

/-- The filesystem with the root only. -/
def empty : Fs ν where
  nodes := AList.singleton [] .dir
  root := rfl
  closed := by
    intro p hp h
    refine absurd ?_ h
    exact AList.lookup_eq_none.mpr fun hm => hp (by simpa [AList.mem_keys] using hm)

@[simp] theorem get_root (fs : Fs ν) : fs.get [] = some .dir := fs.root

theorem get_parent (fs : Fs ν) {p : List ν} (hp : p ≠ []) (h : fs.get p ≠ none) : fs.get p.dropLast = some .dir :=
  fs.closed p hp h

/-- What stands above something is a directory. -/
theorem get_above (fs : Fs ν) {p q : List ν} (hpq : p <+: q) (hne : p ≠ q) (h : fs.get q ≠ none) :
    fs.get p = some .dir := by
  induction q using List.reverseRecOn with
  | nil => exact absurd (List.prefix_nil.mp hpq) hne
  | append_singleton q n ih =>
    have hq : fs.get q = some .dir := by
      have := fs.get_parent (List.concat_ne_nil n q) h
      rwa [List.dropLast_concat] at this
    rcases List.prefix_concat_iff.mp hpq with rfl | hpq
    · exact absurd rfl hne
    · by_cases e : p = q
      · rw [e]; exact hq
      · exact ih hpq e (by rw [hq]; simp)

theorem get_below_none (fs : Fs ν) {p q : List ν} (hpq : p <+: q) (h : fs.get p = none) : fs.get q = none := by
  by_contra hne
  by_cases he : p = q
  · exact hne (he ▸ h)
  · have hdir := fs.get_above hpq he hne
    rw [h] at hdir
    cases hdir

theorem ne_root_of_under (fs : Fs ν) {p : List ν} (h : p ≠ [] ∧ fs.get p.dropLast = some .dir) : p ≠ [] := h.1

theorem dir_of_under (fs : Fs ν) {p : List ν} (h : p ≠ [] ∧ fs.get p.dropLast = some .dir) : fs.get p.dropLast = some .dir := h.2

/-! ## Changing one path -/

/-- A node put below a directory, over nothing or over a file. -/
def put (fs : Fs ν) (p : List ν) (node : Node) (hp : p ≠ []) (hdir : fs.get p.dropLast = some .dir)
    (hold : fs.get p ≠ some .dir) : Fs ν where
  nodes := fs.nodes.insert p node
  root := by rw [AList.lookup_insert_ne (Ne.symm hp)]; exact fs.root
  closed := by
    intro q hq h
    have hpar : fs.nodes.lookup q.dropLast = some .dir := by
      by_cases e : q = p
      · rw [e]; exact hdir
      · rw [AList.lookup_insert_ne e] at h
        exact fs.closed q hq h
    have hne : q.dropLast ≠ p := fun e => hold (e ▸ hpar)
    rw [AList.lookup_insert_ne hne]; exact hpar

theorem get_put (fs : Fs ν) {p : List ν} {node : Node} (hp : p ≠ []) (hdir : fs.get p.dropLast = some .dir)
    (hold : fs.get p ≠ some .dir) (q : List ν) :
    (fs.put p node hp hdir hold).get q = if q = p then some node else fs.get q := by
  unfold get put
  split
  · rename_i e; rw [e]; exact AList.lookup_insert _
  · rename_i e; exact AList.lookup_insert_ne e

/-- A node with nothing below it taken away. -/
def del (fs : Fs ν) (p : List ν) (hp : p ≠ []) (hleaf : ∀ q, q ≠ [] → q.dropLast = p → fs.get q = none) : Fs ν where
  nodes := fs.nodes.erase p
  root := by rw [AList.lookup_erase_ne (Ne.symm hp)]; exact fs.root
  closed := by
    intro q hq h
    have hqp : q ≠ p := fun e => h (e ▸ AList.lookup_erase p fs.nodes)
    rw [AList.lookup_erase_ne hqp] at h
    rw [AList.lookup_erase_ne fun e => h (hleaf q hq e)]
    exact fs.closed q hq h

theorem get_del (fs : Fs ν) {p : List ν} (hp : p ≠ []) (hleaf : ∀ q, q ≠ [] → q.dropLast = p → fs.get q = none)
    (q : List ν) : (fs.del p hp hleaf).get q = if q = p then none else fs.get q := by
  unfold get del
  split
  · rename_i e; rw [e]; exact AList.lookup_erase _ _
  · rename_i e; exact AList.lookup_erase_ne e

theorem file_leaf (fs : Fs ν) {p : List ν} {b : List UInt8} (h : fs.get p = some (.file b)) (q : List ν) (hq : q ≠ [])
    (e : q.dropLast = p) : fs.get q = none := by
  by_contra hne
  have := fs.get_parent hq hne
  rw [e, h] at this
  simp at this

theorem ne_root_of_file (fs : Fs ν) {p : List ν} {b : List UInt8} (h : fs.get p = some (.file b)) : p ≠ [] := by
  rintro rfl
  rw [fs.get_root] at h
  simp at h

/-! ## Directories -/

/-- The names in a directory, in the order it keeps them. -/
def children (fs : Fs ν) (p : List ν) : List ν :=
  fs.nodes.keys.filterMap fun q => if q.dropLast = p then q.getLast? else none

theorem mem_children (fs : Fs ν) {p : List ν} {n : ν} : n ∈ fs.children p ↔ fs.get (p ++ [n]) ≠ none := by
  have hkey : ∀ q, q ∈ fs.nodes.keys ↔ fs.get q ≠ none := fun q => by
    rw [← AList.mem_keys, get, ne_eq, AList.lookup_eq_none, not_not]
  unfold children
  rw [List.mem_filterMap]
  constructor
  · rintro ⟨q, hq, h⟩
    split at h
    · rename_i e
      obtain ⟨ys, rfl⟩ := List.getLast?_eq_some_iff.mp h
      rw [List.dropLast_concat] at e
      rw [← e]; exact (hkey _).mp hq
    · simp at h
  · intro h
    exact ⟨p ++ [n], (hkey _).mpr h, by simp⟩

theorem no_children (fs : Fs ν) {p : List ν} (h : fs.children p = []) (q : List ν) (hq : q ≠ []) (e : q.dropLast = p) :
    fs.get q = none := by
  by_contra hne
  have hmem : q.getLast hq ∈ fs.children p := by
    rw [mem_children, ← e, List.dropLast_append_getLast hq]; exact hne
  rw [h] at hmem
  simp at hmem

/-! ## Operations -/

/-- The error for a path at which there is nothing. -/
def missing (fs : Fs ν) (p : List ν) : Errno :=
  if p.inits.any fun q => match fs.get q with | some (.file _) => true | _ => false then .enotdir else .enoent

def mkdir (fs : Fs ν) (p : List ν) : Except Errno (Fs ν) :=
  if hold : fs.get p = none then
    if hdir : p ≠ [] ∧ fs.get p.dropLast = some .dir then
      .ok (fs.put p .dir hdir.1 hdir.2 (by rw [hold]; simp))
    else .error (fs.missing p)
  else .error .eexist

/-- `open(p, "wb")`: an empty file at `p`. -/
def create (fs : Fs ν) (p : List ν) : Except Errno (Fs ν) :=
  if hold : fs.get p = some .dir then .error .eisdir
  else if hdir : p ≠ [] ∧ fs.get p.dropLast = some .dir then .ok (fs.put p (.file []) hdir.1 hdir.2 hold)
  else .error (fs.missing p)

/-- The file at `p` given new contents. -/
def store (fs : Fs ν) (p : List ν) (bytes : List UInt8) : Fs ν :=
  match h : fs.get p with
  | some (.file _) =>
    fs.put p (.file bytes) (fs.ne_root_of_file h)
      (fs.get_parent (fs.ne_root_of_file h) (by rw [h]; simp)) (by rw [h]; simp)
  | _ => fs

def remove (fs : Fs ν) (p : List ν) : Except Errno (Fs ν) :=
  match h : fs.get p with
  | some (.file _) => .ok (fs.del p (fs.ne_root_of_file h) (fs.file_leaf h))
  | some .dir => .error .eisdir
  | none => .error (fs.missing p)

def rmdir (fs : Fs ν) (p : List ν) : Except Errno (Fs ν) :=
  match fs.get p with
  | some .dir =>
    if hp : p ≠ [] then
      if h : fs.children p = [] then .ok (fs.del p hp (fs.no_children h)) else .error .enotempty
    else .error .ebusy
  | some (.file _) => .error .enotdir
  | none => .error (fs.missing p)

variable {fs fs' : Fs ν} {p : List ν}

theorem mkdir_ok (h : fs.mkdir p = .ok fs') :
    fs.get p = none ∧ p ≠ [] ∧ fs.get p.dropLast = some .dir ∧
      ∀ q, fs'.get q = if q = p then some .dir else fs.get q := by
  unfold mkdir at h
  split at h
  · rename_i hold
    split at h
    · rename_i hdir
      simp only [Except.ok.injEq] at h
      subst h
      exact ⟨hold, hdir.1, hdir.2, fs.get_put hdir.1 hdir.2 _⟩
    · simp at h
  · simp at h

theorem create_ok (h : fs.create p = .ok fs') :
    fs.get p ≠ some .dir ∧ p ≠ [] ∧ fs.get p.dropLast = some .dir ∧
      ∀ q, fs'.get q = if q = p then some (.file []) else fs.get q := by
  unfold create at h
  split at h
  · simp at h
  · rename_i hold
    split at h
    · rename_i hdir
      simp only [Except.ok.injEq] at h
      subst h
      exact ⟨hold, hdir.1, hdir.2, fs.get_put hdir.1 hdir.2 _⟩
    · simp at h

theorem create_of_dir (hp : p ≠ []) (hold : fs.get p = none) (hdir : fs.get p.dropLast = some .dir) :
    ∃ fs', fs.create p = .ok fs' := by
  unfold create
  rw [dif_neg (by rw [hold]; simp), dif_pos ⟨hp, hdir⟩]
  exact ⟨_, rfl⟩

theorem get_store {b bytes : List UInt8} (h : fs.get p = some (.file b)) (q : List ν) :
    (fs.store p bytes).get q = if q = p then some (.file bytes) else fs.get q := by
  unfold store
  split
  · exact fs.get_put _ _ _ q
  · rename_i hne
    exact absurd h (hne b)

theorem get_store_ne {bytes : List UInt8} {q : List ν} (hq : q ≠ p) : (fs.store p bytes).get q = fs.get q := by
  unfold store
  split
  · rw [fs.get_put, if_neg hq]
  · rfl

theorem remove_ok (h : fs.remove p = .ok fs') :
    (∃ b, fs.get p = some (.file b)) ∧ ∀ q, fs'.get q = if q = p then none else fs.get q := by
  unfold remove at h
  split at h
  · rename_i b hb
    simp only [Except.ok.injEq] at h
    subst h
    exact ⟨⟨b, hb⟩, fs.get_del _ _⟩
  · simp at h
  · simp at h

theorem remove_file {b : List UInt8} (h : fs.get p = some (.file b)) :
    ∃ fs', fs.remove p = .ok fs' ∧ ∀ q, fs'.get q = if q = p then none else fs.get q := by
  unfold remove
  split
  · exact ⟨_, rfl, fs.get_del _ _⟩
  · rename_i hd; rw [h] at hd; simp at hd
  · rename_i hn; rw [h] at hn; simp at hn

theorem rmdir_dir (h : fs.get p = some .dir) (hp : p ≠ []) (hleaf : ∀ n, fs.get (p ++ [n]) = none) :
    ∃ fs', fs.rmdir p = .ok fs' ∧ ∀ q, fs'.get q = if q = p then none else fs.get q := by
  have hc : fs.children p = [] := List.eq_nil_iff_forall_not_mem.mpr fun n hn => (fs.mem_children.mp hn) (hleaf n)
  refine ⟨fs.del p hp (fs.no_children hc), ?_, fs.get_del _ _⟩
  unfold rmdir
  rw [h]
  simp only [dif_pos hp, dif_pos hc]

end Fs

end PythonUltra.Lib
