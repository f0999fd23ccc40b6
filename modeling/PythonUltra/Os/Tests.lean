/-
  PythonUltra.Os.Tests — the two tests of a path that zipfile, pyperm and pyeditor make,
  each with functions of its own but in the same words.
-/

import PythonUltra.Os.Sound

namespace PythonUltra.Os

open PythonUltra.Lib PythonUltra.Lib.Prog

/-- `_is_dir`. -/
def isDir (path : Str) : Call Bool :=
  tryCatch (do return (← stat path).mode &&& 0x4000 ≠ 0) fun e => match e with
    | .osError _ => return false
    | e => throw e

/-- `_exists`. -/
def existsPath (path : Str) : Call Bool :=
  tryCatch (do let _ ← stat path; return true) fun e =>
    if e = .osError .enoent then return false else throw e

theorem within_isDir (path : Str) : Within Quiet (isDir path) :=
  .tryCatch ((within_stat path).bind fun _ => .pure _) fun e => by
    cases e with
    | osError e => exact .pure _
    | _ => exact .throw _

theorem within_existsPath (path : Str) : Within Quiet (existsPath path) :=
  .tryCatch ((within_stat path).bind fun _ => .pure _) fun _ => .ite (.pure _) (.throw _)

section

variable {w : World} {path : Str} {R : Exc → World → Prop}

/-- `_is_dir` is right when it says yes; a no may come from a failing stat. -/
theorem wp_isDir {Q : Bool → World → Prop}
    (htrue : ∀ w', Quiet w w' → w.fs.get (w.resolve path) = some .dir → Q true w')
    (hfalse : ∀ w', Quiet w w' → w.fs.get (w.resolve path) ≠ some .dir ∨ (∃ e, w.Faults e) → Q false w')
    (hR : ∀ e w', Quiet w w' → w.Faults e → (∀ e', e ≠ .osError e') → R e w') : wp (isDir path) Q R w := by
  unfold isDir
  rw [wp_tryCatch]
  refine wp_bind.mpr (wp_stat (fun n w' hw hn => ?_) fun e w' hw he => ?_)
  · cases n with
    | dir => exact htrue w' hw hn
    | file b =>
      have hmode : decide ((statOf (.file b)).mode &&& 0x4000 ≠ 0) = false := (by decide : decide (0x8000 &&& 0x4000 ≠ 0) = false)
      rw [wp_pure, hmode]
      exact hfalse w' hw (Or.inl (by rw [hn]; simp))
  · rcases he with he | ⟨hn, rfl⟩
    · cases e with
      | osError e => exact hfalse w' hw (Or.inr ⟨_, he⟩)
      | _ => exact hR _ w' hw he fun e' h => by cases h
    · exact hfalse w' hw (Or.inl (by rw [hn]; simp))

/-- `_exists` is right whenever it answers. -/
theorem wp_existsPath {Q : Bool → World → Prop}
    (htrue : ∀ w', Quiet w w' → w.fs.get (w.resolve path) ≠ none → Q true w')
    (hfalse : ∀ w', Quiet w w' → w.fs.get (w.resolve path) = none → Q false w')
    (hR : ∀ e w', Quiet w w' → w.Faults e ∨ w.fs.missing (w.resolve path) ≠ .enoent → R e w') :
    wp (existsPath path) Q R w := by
  unfold existsPath
  rw [wp_tryCatch]
  refine wp_bind.mpr (wp_stat (fun n w' hw hn => ?_) fun e w' hw he => ?_)
  · exact htrue w' hw (by rw [hn]; simp)
  · rcases he with he | ⟨hn, rfl⟩
    · rw [if_neg he.ne]
      exact hR e w' hw (Or.inl he)
    · split
      · exact hfalse w' hw hn
      · rename_i hne
        exact hR _ w' hw (Or.inr fun e => hne (by rw [e]))

end

end PythonUltra.Os
