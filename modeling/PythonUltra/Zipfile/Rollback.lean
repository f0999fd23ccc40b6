/-
  PythonUltra.Zipfile.Rollback — a failed extraction leaves the filesystem as it was.

  `Undoable w₀ w files folders`: `w` is `w₀` with the paths of the two lists added, none
  of which was there before, the folders in an order in which no folder comes after one
  of its children. Every step of extract keeps it, whether it returns or raises: a folder
  is listed when mkdir made it, a file when its path was tested to be free just before
  open created it. `_cleanup` removes the files and then the folders from the last made
  on, so each is empty when its turn comes.
-/

import PythonUltra.Zipfile.Effects

namespace PythonUltra.Zipfile

open PythonUltra.Lib PythonUltra.Lib.Prog PythonUltra.Os

structure Undoable (w₀ w : World) (files folders : List Str) : Prop where
  cwd : w.cwd = w₀.cwd
  outside : ∀ p, p ∉ files.map w₀.resolve → p ∉ folders.map w₀.resolve → w.fs.get p = w₀.fs.get p
  isFile : ∀ p ∈ files.map w₀.resolve, ∃ b, w.fs.get p = some (.file b)
  isFolder : ∀ p ∈ folders.map w₀.resolve, w.fs.get p = some .dir
  newFile : ∀ p ∈ files.map w₀.resolve, w₀.fs.get p = none
  newFolder : ∀ p ∈ folders.map w₀.resolve, w₀.fs.get p = none
  filesNodup : (files.map w₀.resolve).Nodup
  foldersNodup : (folders.map w₀.resolve).Nodup
  order : (folders.map w₀.resolve).Pairwise fun a b => a.dropLast ≠ b

namespace Undoable

variable {w₀ w w' : World} {files folders : List Str}

theorem start (w : World) : Undoable w w [] [] :=
  ⟨rfl, fun _ _ _ => rfl, by simp, by simp, by simp, by simp, by simp, by simp, by simp⟩

theorem resolve (h : Undoable w₀ w files folders) (path : Str) : w.resolve path = w₀.resolve path := by
  unfold World.resolve; rw [h.cwd]

theorem quiet (h : Undoable w₀ w files folders) (hq : Quiet w w') : Undoable w₀ w' files folders where
  cwd := hq.cwd.trans h.cwd
  outside := by rw [hq.fs]; exact h.outside
  isFile := by rw [hq.fs]; exact h.isFile
  isFolder := by rw [hq.fs]; exact h.isFolder
  newFile := h.newFile
  newFolder := h.newFolder
  filesNodup := h.filesNodup
  foldersNodup := h.foldersNodup
  order := h.order

/-- Writing to a file of the list. -/
theorem wrote (h : Undoable w₀ w files folders) {f : Path} (hf : f ∈ files.map w₀.resolve) (hw : Wrote f w w') :
    Undoable w₀ w' files folders where
  cwd := hw.cwd.trans h.cwd
  outside := fun p h1 h2 => by
    rw [hw.get p fun e => h1 (e ▸ hf)]; exact h.outside p h1 h2
  isFile := fun p hp => by
    by_cases e : p = f
    · subst e; exact hw.file (h.isFile p hp)
    · rw [hw.get p e]; exact h.isFile p hp
  isFolder := fun p hp => by
    have hne : p ≠ f := by
      rintro rfl
      obtain ⟨b, hb⟩ := h.isFile p hf
      rw [h.isFolder p hp] at hb
      simp at hb
    rw [hw.get p hne]; exact h.isFolder p hp
  newFile := h.newFile
  newFolder := h.newFolder
  filesNodup := h.filesNodup
  foldersNodup := h.foldersNodup
  order := h.order

/-- A path at which there is nothing is not in the lists, and was free before. -/
theorem free (h : Undoable w₀ w files folders) {p : Path} (hp : w.fs.get p = none) :
    p ∉ files.map w₀.resolve ∧ p ∉ folders.map w₀.resolve ∧ w₀.fs.get p = none := by
  have h1 : p ∉ files.map w₀.resolve := fun hm => by
    obtain ⟨b, hb⟩ := h.isFile p hm
    rw [hp] at hb
    simp at hb
  have h2 : p ∉ folders.map w₀.resolve := fun hm => by
    have := h.isFolder p hm
    rw [hp] at this
    simp at this
  exact ⟨h1, h2, (h.outside p h1 h2).symm.trans hp⟩

theorem addFolder (h : Undoable w₀ w files folders) {d : Str} (hp : w.fs.get (w.resolve d) = none)
    (hc : Changed w w' (w.resolve d) (some .dir)) : Undoable w₀ w' files (folders ++ [d]) := by
  rw [h.resolve] at hp hc
  obtain ⟨n1, n2, n3⟩ := h.free hp
  have hget : ∀ p, p ≠ w₀.resolve d → w'.fs.get p = w.fs.get p := fun p hne => by rw [hc.get, if_neg hne]
  have hmap : (folders ++ [d]).map w₀.resolve = folders.map w₀.resolve ++ [w₀.resolve d] := by simp
  refine ⟨hc.cwd.trans h.cwd, ?_, ?_, ?_, h.newFile, ?_, h.filesNodup, ?_, ?_⟩
  · intro p h1 h2
    rw [hmap, List.mem_append, List.mem_singleton, not_or] at h2
    rw [hget p h2.2]; exact h.outside p h1 h2.1
  · intro p hm
    rw [hget p fun e => n1 (e ▸ hm)]; exact h.isFile p hm
  · intro p hm
    rw [hmap] at hm
    rcases List.mem_append.mp hm with hm | hm
    · rw [hget p fun e => n2 (e ▸ hm)]; exact h.isFolder p hm
    · rw [List.mem_singleton.mp hm, hc.get, if_pos rfl]
  · intro p hm
    rw [hmap] at hm
    rcases List.mem_append.mp hm with hm | hm
    · exact h.newFolder p hm
    · rw [List.mem_singleton.mp hm]; exact n3
  · rw [hmap]
    exact List.nodup_append.mpr ⟨h.foldersNodup, List.nodup_singleton _, fun a ha b hb e =>
      n2 (by rw [← List.mem_singleton.mp hb, ← e]; exact ha)⟩
  · -- an older folder's parent was there when it was made, and the new folder was not
    rw [hmap, List.pairwise_append]
    refine ⟨h.order, List.pairwise_singleton _ _, fun a ha b hb e => ?_⟩
    rw [List.mem_singleton.mp hb] at e
    have hdir := h.isFolder a ha
    have hne : a ≠ [] := by
      rintro rfl
      have := h.newFolder [] ha
      simp at this
    have := w.fs.get_parent hne (by rw [hdir]; simp)
    rw [e, hp] at this
    simp at this

theorem addFile (h : Undoable w₀ w files folders) {f : Str} (hp : w.fs.get (w.resolve f) = none)
    (hc : Changed w w' (w.resolve f) (some (.file []))) : Undoable w₀ w' (files ++ [f]) folders := by
  rw [h.resolve] at hp hc
  obtain ⟨n1, n2, n3⟩ := h.free hp
  have hget : ∀ p, p ≠ w₀.resolve f → w'.fs.get p = w.fs.get p := fun p hne => by rw [hc.get, if_neg hne]
  have hmap : (files ++ [f]).map w₀.resolve = files.map w₀.resolve ++ [w₀.resolve f] := by simp
  refine ⟨hc.cwd.trans h.cwd, ?_, ?_, ?_, ?_, h.newFolder, ?_, h.foldersNodup, h.order⟩
  · intro p h1 h2
    rw [hmap, List.mem_append, List.mem_singleton, not_or] at h1
    rw [hget p h1.2]; exact h.outside p h1.1 h2
  · intro p hm
    rw [hmap] at hm
    rcases List.mem_append.mp hm with hm | hm
    · rw [hget p fun e => n1 (e ▸ hm)]; exact h.isFile p hm
    · rw [List.mem_singleton.mp hm, hc.get, if_pos rfl]; exact ⟨[], rfl⟩
  · intro p hm
    rw [hget p fun e => n2 (e ▸ hm)]; exact h.isFolder p hm
  · intro p hm
    rw [hmap] at hm
    rcases List.mem_append.mp hm with hm | hm
    · exact h.newFile p hm
    · rw [List.mem_singleton.mp hm]; exact n3
  · rw [hmap]
    exact List.nodup_append.mpr ⟨h.filesNodup, List.nodup_singleton _, fun a ha b hb e =>
      n1 (by rw [← List.mem_singleton.mp hb, ← e]; exact ha)⟩

/-! ## Undoing -/

theorem dropFile {f : Str} (h : Undoable w₀ w (files ++ [f]) folders) (hc : Changed w w' (w.resolve f) none) :
    Undoable w₀ w' files folders := by
  rw [h.resolve] at hc
  have hmap : (files ++ [f]).map w₀.resolve = files.map w₀.resolve ++ [w₀.resolve f] := by simp
  have hget : ∀ p, p ≠ w₀.resolve f → w'.fs.get p = w.fs.get p := fun p hne => by rw [hc.get, if_neg hne]
  have hlast : w₀.resolve f ∈ (files ++ [f]).map w₀.resolve := by simp
  have hsub : ∀ p ∈ files.map w₀.resolve, p ∈ (files ++ [f]).map w₀.resolve := fun p hp => by rw [hmap]; simp [hp]
  have hnd := h.filesNodup
  rw [hmap, List.nodup_append] at hnd
  have hnot : w₀.resolve f ∉ folders.map w₀.resolve := fun hm => by
    obtain ⟨b, hb⟩ := h.isFile _ hlast
    rw [h.isFolder _ hm] at hb
    simp at hb
  refine ⟨hc.cwd.trans h.cwd, fun p h1 h2 => ?_, fun p hp => ?_, fun p hp => ?_, fun p hp => h.newFile p (hsub p hp),
    h.newFolder, hnd.1, h.foldersNodup, h.order⟩
  · by_cases e : p = w₀.resolve f
    · rw [hc.get, if_pos e, e, h.newFile _ hlast]
    · rw [hget p e]
      refine h.outside p (fun hm => ?_) h2
      rw [hmap, List.mem_append, List.mem_singleton] at hm
      exact hm.elim h1 e
  · rw [hget p fun e => hnd.2.2 p hp (w₀.resolve f) (List.mem_singleton.mpr rfl) e]
    exact h.isFile p (hsub p hp)
  · rw [hget p fun e => hnot (e ▸ hp)]; exact h.isFolder p hp

/-- The last folder is empty once the files are gone. -/
theorem last_empty {d : Str} (h : Undoable w₀ w [] (folders ++ [d])) (n : Str) :
    w.fs.get (w₀.resolve d ++ [n]) = none := by
  have hmap : (folders ++ [d]).map w₀.resolve = folders.map w₀.resolve ++ [w₀.resolve d] := by simp
  have hlast : w₀.resolve d ∈ (folders ++ [d]).map w₀.resolve := by simp
  have horder := h.order
  rw [hmap, List.pairwise_append] at horder
  rw [h.outside _ (by simp)]
  · -- nothing was below it before: it was not there itself
    by_contra hne
    have := w₀.fs.get_parent (List.concat_ne_nil n _) hne
    rw [List.dropLast_concat, h.newFolder _ hlast] at this
    simp at this
  · rw [hmap, List.mem_append, List.mem_singleton]
    rintro (hm | e)
    · exact horder.2.2 _ hm _ (List.mem_singleton.mpr rfl) (List.dropLast_concat)
    · exact absurd (congrArg List.length e) (by simp)

theorem dropFolder {d : Str} (h : Undoable w₀ w [] (folders ++ [d])) (hc : Changed w w' (w.resolve d) none) :
    Undoable w₀ w' [] folders := by
  rw [h.resolve] at hc
  have hmap : (folders ++ [d]).map w₀.resolve = folders.map w₀.resolve ++ [w₀.resolve d] := by simp
  have hget : ∀ p, p ≠ w₀.resolve d → w'.fs.get p = w.fs.get p := fun p hne => by rw [hc.get, if_neg hne]
  have hlast : w₀.resolve d ∈ (folders ++ [d]).map w₀.resolve := by simp
  have hsub : ∀ p ∈ folders.map w₀.resolve, p ∈ (folders ++ [d]).map w₀.resolve := fun p hp => by rw [hmap]; simp [hp]
  have hnd := h.foldersNodup
  rw [hmap, List.nodup_append] at hnd
  have horder := h.order
  rw [hmap, List.pairwise_append] at horder
  refine ⟨hc.cwd.trans h.cwd, fun p _ h2 => ?_, by simp, fun p hp => ?_, by simp, fun p hp => h.newFolder p (hsub p hp),
    by simp, hnd.1, horder.1⟩
  · by_cases e : p = w₀.resolve d
    · rw [hc.get, if_pos e, e, h.newFolder _ hlast]
    · rw [hget p e]
      refine h.outside p (by simp) fun hm => ?_
      rw [hmap, List.mem_append, List.mem_singleton] at hm
      exact hm.elim h2 e
  · rw [hget p fun e => hnd.2.2 p hp (w₀.resolve d) (List.mem_singleton.mpr rfl) e]
    exact h.isFolder p (hsub p hp)

end Undoable

section

variable {w₀ w : World}

theorem wp_ignoreOSError {x : Call Unit} {Q : Unit → World → Prop} {R : Exc → World → Prop}
    (h : wp x Q (fun _ _ => False) w) : wp (ignoreOSError x) Q R w :=
  wp_tryCatch.mpr (wp_mono h (fun _ _ h => h) fun _ _ h => absurd h id)

theorem cleanup_files {files folders : List Str} (h : Undoable w₀ w files folders) {R : Exc → World → Prop} :
    wp (files.reverse.foldlM (fun _ path => ignoreOSError (remove path)) ()) (fun _ w' => Undoable w₀ w' [] folders) R w := by
  induction files using List.reverseRecOn generalizing w with
  | nil => exact h
  | append_singleton files f ih =>
    rw [List.reverse_append, List.reverse_singleton, List.singleton_append, List.foldlM_cons]
    obtain ⟨b, hb⟩ := h.isFile (w₀.resolve f) (by simp)
    rw [← h.resolve] at hb
    exact wp_bind.mpr (wp_ignoreOSError (wp_remove hb fun w' hc _ => ih (h.dropFile hc)))

theorem cleanup_folders {folders : List Str} (h : Undoable w₀ w [] folders) {R : Exc → World → Prop} :
    wp (folders.reverse.foldlM (fun _ path => ignoreOSError (rmdir path)) ()) (fun _ w' => Undoable w₀ w' [] []) R w := by
  induction folders using List.reverseRecOn generalizing w with
  | nil => exact h
  | append_singleton folders d ih =>
    rw [List.reverse_append, List.reverse_singleton, List.singleton_append, List.foldlM_cons]
    have hd := h.isFolder (w₀.resolve d) (by simp)
    have hnew := h.newFolder (w₀.resolve d) (by simp)
    have hne : w₀.resolve d ≠ [] := fun e => by rw [e] at hnew; simp at hnew
    rw [← h.resolve] at hd hne
    refine wp_bind.mpr (wp_ignoreOSError (wp_rmdir hd hne (fun n => ?_) fun w' hc _ => ih (h.dropFolder hc)))
    rw [h.resolve]; exact h.last_empty n

/-- `_cleanup` takes back everything that was made. -/
theorem cleanup_undoes {files folders : List Str} (h : Undoable w₀ w files folders) {R : Exc → World → Prop} :
    wp (cleanup files folders) (fun _ w' => ∀ p, w'.fs.get p = w₀.fs.get p) R w := by
  refine wp_then (cleanup_files h) (fun _ w₁ h₁ => ?_) fun _ _ h => h
  exact wp_mono (cleanup_folders h₁) (fun _ w₂ h₂ p => h₂.outside p (by simp) (by simp)) fun _ _ h => h

/-! ## Extracting -/

/-- Everything made since `w₀` is in the two lists. -/
def Tracked (w₀ : World) (s : World × Created) : Prop := Undoable w₀ s.1 s.2.files s.2.folders

/-- The step keeps track, whether it returns or raises. -/
abbrev Tracks (w₀ : World) {α : Type} (x : Extract α) : Prop := Within (Preserves (Tracked w₀)) x

theorem tracks_quiet {α : Type} {x : Call α} (hx : Within Quiet x) : Tracks w₀ (lift x) :=
  hx.lift fun _ _ _ h hq => Undoable.quiet h hq

theorem mkdirOne_tracks (current : Str) : Tracks w₀ (mkdirOne current) := within_of_wp fun _ h =>
  wp_mkdirOne (fun _ hc hnone _ => Undoable.addFolder h hnone hc) (fun _ hq _ => Undoable.quiet h hq)
    fun _ _ hq _ => Undoable.quiet h hq

theorem mkdirs_tracks (path : Str) : Tracks w₀ (mkdirs path) := by
  refine .ite (.pure _) (.bind (.foldlM (fun current part => ?_) _) fun _ => .pure _)
  exact .ite (.pure _) ((mkdirOne_tracks _).bind fun _ => .pure _)

theorem extractFile_tracks (z : Codec) (src : Reader) (e : Entry) (clean target : Str) :
    Tracks w₀ (extractFile z src e clean target) := by
  unfold extractFile
  refine .bind (tracks_quiet (within_isDir target)) fun b => .ite (.throw _) (within_of_wp fun s h => ?_)
  -- the test for existence leaves the path free, and nothing comes between it and open
  refine wp_bind.mpr (wp_lift.mpr (wp_existsPath (fun w' hq _ => Undoable.quiet h hq) (fun w₁ hq₁ hnone => ?_)
    fun e w' hq _ => Undoable.quiet h hq))
  simp only [Bool.false_eq_true, if_false]
  refine wp_bind.mpr (wp_lift.mpr ((within_openEntry src e).wp (fun r w₂ hq₂ => ?_)
    fun e w' hq => Undoable.quiet h (hq₁.trans hq)))
  have hq : Quiet s.1 w₂ := hq₁.trans hq₂
  have h₂ : Undoable w₀ w₂ s.2.files s.2.folders := Undoable.quiet h hq
  have hfree : w₂.fs.get (w₂.resolve target) = none := by rw [hq.fs, hq.resolve]; exact hnone
  refine wp_bind.mpr (wp_lift.mpr (wp_openWrite hfree (fun w₃ hc _ _ _ => ?_) fun e w' hq' _ => h₂.quiet hq'))
  have h₃ : Tracked w₀ (w₃, { s.2 with files := s.2.files ++ [target] }) := h₂.addFile hfree hc
  have hmem : w₂.resolve target ∈ (s.2.files ++ [target]).map w₀.resolve := by
    rw [h₂.resolve]; simp
  have hio : ∀ w₄, Wrote (w₂.resolve target) w₃ w₄ →
      wp (lift io) (fun _ => Tracked w₀) (fun _ => Tracked w₀) (w₄, { s.2 with files := s.2.files ++ [target] }) :=
    fun w₄ hw => (tracks_quiet within_io).keep (s := (w₄, _)) (Undoable.wrote h₃ hmem hw)
  refine wp_bind.mpr (wp_bind.mpr ?_)
  refine wp_mono (wp_closing.mpr (wp_lift.mpr ((within_copyEntry z (w₂.resolve target) r e).wp
    (fun _ w₄ hw => hio w₄ hw) fun _ w₄ hw => hio w₄ hw))) (fun res s' h' => ?_) fun _ _ h' => h'
  exact (Within.ite (.throw _) (.pure _) : Tracks w₀ _).keep h'

theorem extractEntry_tracks (z : Codec) (destination : Str) (src : Reader) (e : Entry) :
    Tracks w₀ (extractEntry z destination src e) := by
  unfold extractEntry
  refine .ite (.throw _) (.bind (fun s h => h) fun clean => .ite (.pure _) (.ite (mkdirs_tracks _) ?_))
  exact (mkdirs_tracks _).bind fun _ => extractFile_tracks _ _ _ _ _

/-- For every archive, destination and filesystem, and every pattern of failing storage
    calls: when extract raises, every path is as it was before the call. -/
theorem extract_error_restores (z : Codec) (archive : Str) (destination : Option Str) (w : World) (e : Exc) (w' : World)
    (h : extract z archive destination w = (.error e, w')) : ∀ p, w'.fs.get p = w.fs.get p := by
  suffices hwp : wp (extract z archive destination) (fun _ _ => True) (fun _ w' => ∀ p, w'.fs.get p = w.fs.get p) w from
    wp_error hwp h
  refine wp_bind.mpr (wp_mono (Q := fun _ _ => True) (wp_withVar.mpr (wp_tryCatch.mpr ?_)) (fun _ _ _ => trivial)
    fun _ _ h => h)
  have hentries : Tracks w (lift (entries archive)) := tracks_quiet (within_entries archive)
  have hbody := hentries.bind fun entries =>
    (mkdirs_tracks (destination.getD (defaultDestination archive))).bind fun _ =>
      (tracks_quiet (within_openRead archive)).bind fun src =>
        (Within.foldlM (l := entries)
          (fun _ e => extractEntry_tracks z (destination.getD (defaultDestination archive)) src e) ()).closing
          (tracks_quiet within_io)
  have hstart : Tracked w (w, ⟨[], []⟩) := Undoable.start w
  refine wp_mono (hbody.keep hstart) (fun _ _ _ => trivial) fun e s hs => ?_
  rw [wp_bind, wp_get]
  exact wp_then (wp_lift.mpr (cleanup_undoes hs)) (fun _ _ h => h) fun _ _ h => h

end

/-- A codec no entry is compressed with. -/
def noCodec : Codec := ⟨Unit, (), fun _ _ => ([], ()), fun _ => [], fun _ => ([], some .eofError)⟩

/-- A world of one file, `a`, in the root, and no faults. -/
def oneFileWorld (bytes : Bytes) : World where
  fs := Fs.empty.put [[97]] (.file bytes) (by decide) (by decide) (by decide)
  cwd := []
  fault _ := none
  honest := honest_none
  clock := 0
  made := []

/-- An archive of entries without data. -/
def emptyEntries (names : List Str) : Bytes :=
  let central := names.flatMap fun name => centralRecord ⟨name, 0x0800, 0, 0, 0, 0, 0, true⟩ ++ name
  central ++ endRecord names.length central.length 0

/-- `d/`, and a name that climbs out of it. -/
def climbingArchive : Bytes := emptyEntries [[100, 47], [100, 47, 46, 46, 47, 120]]

/-- `d/` is made under `o`, then `d/../x` is refused: both folders are gone after it. -/
theorem extract_unsafe_name_restores :
    (extract noCodec [97] (some [111]) (oneFileWorld climbingArchive)).2.made = [[[111]], [[111], [100]]] ∧
      ∀ p, (extract noCodec [97] (some [111]) (oneFileWorld climbingArchive)).2.fs.get p =
        (oneFileWorld climbingArchive).fs.get p := by
  have hr : (extract noCodec [97] (some [111]) (oneFileWorld climbingArchive)).1 =
      .error (.valueError "unsafe ZIP path" []) := by decide +kernel
  exact ⟨by decide +kernel, extract_error_restores noCodec [97] (some [111]) (oneFileWorld climbingArchive) _ _
    (eq_error hr)⟩

end PythonUltra.Zipfile
