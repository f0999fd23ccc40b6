/-
  PythonUltra.Os.Files — renaming and removing files, and files as text (modos.c, fdfile.c).

  `unlink` is os.remove where the removal itself is a storage call like the others, and
  may fail for any reason. A file open for text is read by characters and written as
  UTF-8.
-/

import PythonUltra.Os.Text
import PythonUltra.Os.Tests
import PythonUltra.Lib.FsRename

namespace PythonUltra.Os

open PythonUltra.Lib PythonUltra.Lib.Prog

def rename (old new : Str) : Call Unit := do
  io
  let w ← get
  match w.fs.rename (w.resolve old) (w.resolve new) with
  | .ok fs => modify fun w => { w with fs := fs }
  | .error e => throw (.osError e)
  recordMade new

def unlink (path : Str) : Call Unit := do
  io
  remove path

/-- `open(path, "r")` and one `read(n)`: the first `n` characters. -/
def readText (path : Str) (n : Nat) : Call Text := do
  let f ← openRead path
  io
  match decode ((← get).contents f.path) with
  | some t => return t.take n
  | none => throw .unicodeError

/-- `flush()` of a file open for writing. -/
def flush : Call Unit := io

/-- What was at and below `p` is at and below `q`. -/
structure Renamed (w w' : World) (p q : Path) : Prop where
  old : w.fs.get p ≠ none
  get : (p = q ∧ w'.fs = w.fs) ∨ (¬ p <+: q ∧ ∀ r, w'.fs.get r =
    if q <+: r then w.fs.get (p ++ r.drop q.length) else if p <+: r then none else w.fs.get r)
  cwd : w'.cwd = w.cwd
  fault : w'.fault = w.fault

variable {w w' : World} {R : Exc → World → Prop}

theorem Renamed.get_new {p q : Path} (h : Renamed w w' p q) : w'.fs.get q = w.fs.get p := by
  rcases h.get with ⟨rfl, hfs⟩ | ⟨-, hget⟩
  · rw [hfs]
  · rw [hget q, if_pos (List.prefix_refl q), List.drop_length, List.append_nil]

theorem Renamed.resolve {p q : Path} (h : Renamed w w' p q) (path : Str) : w'.resolve path = w.resolve path := by
  unfold World.resolve; rw [h.cwd]

theorem Quiet.renamed {w'' : World} {p q : Path} (hq : Quiet w w') (h : Renamed w' w'' p q) : Renamed w w'' p q := by
  obtain ⟨hold, hget, hcwd, hfault⟩ := h
  rw [hq.fs] at hold hget
  exact ⟨hold, hget, hcwd.trans hq.cwd, hfault.trans hq.fault⟩

theorem wp_rename {old new : Str} {Q : Unit → World → Prop}
    (hQ : ∀ w', Renamed w w' (w.resolve old) (w.resolve new) → Q () w')
    (hR : ∀ e w', Quiet w w' →
      w.Faults e ∨ (∃ e', e = .osError e' ∧ w.fs.rename (w.resolve old) (w.resolve new) = .error e') → R e w') :
    wp (rename old new) Q R w := by
  refine wp_io_then (fun w' hw => ?_) fun e w' hw hf => hR e w' hw (Or.inl hf)
  rw [wp_bind, wp_get, hw.fs, hw.resolve, hw.resolve]
  rcases h : w.fs.rename (w.resolve old) (w.resolve new) with e | fs'
  · exact hR _ _ hw (Or.inr ⟨e, rfl, h⟩)
  · obtain ⟨h1, h2⟩ := Fs.rename_ok h
    exact hQ _ ⟨h1, h2, hw.cwd, hw.fault⟩

theorem wp_readText {path : Str} {n : Nat} {Q : Text → World → Prop}
    (hQ : ∀ b t w', Quiet w w' → w.fs.get (w.resolve path) = some (.file b) → decode b = some t → Q (t.take n) w')
    (hR : ∀ e w', Quiet w w' → R e w') : wp (readText path n) Q R w := by
  refine wp_bind.mpr (wp_openRead (fun b w₁ hw₁ hb => ?_) fun e w' hw _ => hR e w' hw)
  refine wp_io_then (fun w₂ hw₂ => ?_) fun e w' hw _ => hR e w' (hw₁.trans hw)
  have hq := hw₁.trans hw₂
  have hc : w₂.contents (w.resolve path) = b := by
    rw [hq.contents]
    unfold World.contents
    rw [hb]
  rw [wp_bind, wp_get, hc]
  rcases ht : decode b with _ | t
  · exact hR _ _ hq
  · exact hQ b t w₂ hq hb ht

theorem within_readText (path : Str) (n : Nat) : Within Quiet (readText path n) :=
  (within_openRead path).bind fun f => within_io.bind fun _ => Within.get.bind fun w => by
    rcases decode (w.contents f.path) with _ | t
    · exact .throw _
    · exact .pure _

section

variable (hs : w.Sound)

include hs

end

end PythonUltra.Os
