/-
  PythonUltra.Pyeditor.Opened — what save_file may replace (modules/pyeditor/__init__.py).

  A `Run` is an editor opened on any path and what is then done with it, one method at a
  time: files loaded, a new text started, edits, saves under any name, scripts that leave
  the storage and the current directory alone. `known` is what has been loaded into the
  buffer or saved from it, and where; `failed` says that the last opening (`allow_new`)
  failed. No save of the file the editor is on replaces a file that is not known, and
  while the opening has failed none is made (`saves_replace_known`).

  A save under another name asks nothing about what is there, and a failed reload of the
  current file leaves the buffer as it is, so it can still be saved
  (`saves_replace_unknown`). One that fails may leave its temporary or its backup behind,
  and the editor could be on a file of just that name: `Clear` excludes it.
-/

import PythonUltra.Pyeditor.Save

namespace PythonUltra.Pyeditor

open PythonUltra.Lib PythonUltra.Lib.Prog PythonUltra.Os

/-- The path of a name given to the editor, or of the name it has. -/
def place (s : Session) (filename : Option Text) : Path :=
  s.world.resolve (bytes (strip (filename.getD s.ed.filename)))

/-! ## The editor's methods -/

/-- The methods of the editor. -/
inductive Action where
  | load (filename : Option Text) (allowNew : Bool)
  | startNew (filename : Text)
  | edit (op : Op)
  | save (filename : Option Text)
  | run

def act (h : Host) : Action → Edit Unit
  | .load filename allowNew => do let _ ← loadFile filename allowNew
  | .startNew filename => do let _ ← startNew filename
  | .edit op => edit (op.apply h)
  | .save filename => do let _ ← saveFile filename
  | .run => do let _ ← runCode h

/-- `run_code` goes on to save. -/
def Runnable (e : Editor) : Prop := (lit ".py").isSuffixOf (e.filename.map toLower) = true ∧ e.loadFailed = false

/-- The method saves the buffer, from the session `s₁` and with `filename` for its argument. -/
inductive Saves : Action → Session → Option Text → Session → Prop where
  | save (filename : Option Text) (s : Session) (hok : (saveFile filename s).1 = .ok true) :
      Saves (.save filename) s filename s
  | run (s s₁ : Session) (hrun : Runnable s.ed) (hunsaved : unsaved s = (.ok true, s₁))
      (hok : (saveFile none s₁).1 = .ok true) : Saves .run s none s₁

/-- The contents a method loads into the buffer or saves from it, and where they are. -/
inductive Learned (a : Action) (s : Session) : Path → Bytes → Prop where
  | loaded (filename : Option Text) (allowNew : Bool) (b : Bytes) (text : Text) (ha : a = .load filename allowNew)
      (hok : (loadFile filename allowNew s).1 = .ok true) (hb : s.world.fs.get (place s filename) = some (.file b))
      (htext : decode b = some text) (hlines : (loadFile filename allowNew s).2.ed.lines = linesOf text) :
      Learned a s (place s filename) b
  | saved (filename : Option Text) (s₁ : Session) (h : Saves a s filename s₁) :
      Learned a s (place s₁ filename) (bytes (unlines lf s₁.ed.lines))

/-- The last opening failed, after a method. -/
def failedAfter (failed : Bool) (s : Session) : Action → Bool
  | .load filename allowNew =>
    if (loadFile filename allowNew s).1 = .ok true then false
    else failed || (allowNew && decide (strip (filename.getD s.ed.filename) ≠ []))
  | .startNew filename => if (startNew filename s).1 = .ok true then false else failed
  | _ => failed

/-- The argument names the file the editor is on. -/
def Current (s : Session) (filename : Option Text) : Prop :=
  strip (filename.getD s.ed.filename) = strip s.ed.filename

/-- The file the editor is on is not, and is not below, one that a save under another name may leave beside it. -/
def Clear (s : Session) (filename : Option Text) : Prop :=
  ∀ name, Sibling (strip (filename.getD s.ed.filename)) name → ¬ s.world.resolve (bytes name) <+: place s none

/-- A save under another name that fails leaves nothing at the path of the file the editor is on. -/
def Allowed (s : Session) : Action → Prop
  | .save filename => (saveFile filename s).1 = .ok true ∨ Current s filename ∨ Clear s filename
  | _ => True

/-- Scripts leave the storage and the current directory alone. -/
def Leaves (h : Host) : Prop := ∀ code w perms, (h.exec code (w, perms)).2.1.fs = w.fs ∧
  (h.exec code (w, perms)).2.1.cwd = w.cwd ∧ (h.exec code (w, perms)).2.1.fault = w.fault

/-- `Editor.__init__` up to the loading of the file. -/
def blanked (h : Host) (filename : Text) (theme : Theme) (s : Session) : Session :=
  { s with ed := applyFont h .systemSmall (blank filename theme) }

/-- An editor is opened, and its methods called. -/
inductive Run (h : Host) : Session → (Path → Bytes → Prop) → Bool → Prop where
  | start (s : Session) (filename : Text) (theme : Theme) (hos : OsFaults s.world) :
      Run h (construct h filename theme s).2
        (Learned (.load (some (blank filename theme).filename) true) (blanked h filename theme s))
        (failedAfter false (blanked h filename theme s) (.load (some (blank filename theme).filename) true))
  | step {s : Session} {known : Path → Bytes → Prop} {failed : Bool} (hr : Run h s known failed) (a : Action)
      (ha : Allowed s a) :
      Run h (act h a s).2 (fun p b => known p b ∨ Learned a s p b) (failedAfter failed s a)

/-! ## Methods that leave the files alone -/

/-- The storage and the file the editor is on are the same. -/
structure Still (s s' : Session) : Prop where
  fs : s'.world.fs = s.world.fs
  cwd : s'.world.cwd = s.world.cwd
  fault : s'.world.fault = s.world.fault
  filename : s'.ed.filename = s.ed.filename
  loadFailed : s'.ed.loadFailed = s.ed.loadFailed

instance : IsPreorder Session Still where
  refl _ := ⟨rfl, rfl, rfl, rfl, rfl⟩
  trans _ _ _ h1 h2 := ⟨h2.1.trans h1.1, h2.2.trans h1.2, h2.3.trans h1.3, h2.4.trans h1.4, h2.5.trans h1.5⟩

theorem Looked.still {s s' : Session} (h : Looked s s') : Still s s' := by
  obtain ⟨w, rfl, hw⟩ := h
  exact ⟨hw.fs, hw.cwd, hw.fault, rfl, rfl⟩

theorem still_looked {α : Type} {x : Edit α} (hx : Within Looked x) : Within Still x := fun s => (hx s).still

theorem OsFaults.quiet {w w' : World} (h : OsFaults w) (hw : Quiet w w') : OsFaults w' := by
  unfold OsFaults
  rw [hw.fault]
  exact h

theorem still_setMsg (msg : Msg) : Within Still (update (setMsg msg)) := fun _ => ⟨rfl, rfl, rfl, rfl, rfl⟩

/-- An edit changes neither the name of the file nor whether it was opened. -/
def SameFile (e e' : Editor) : Prop := e'.filename = e.filename ∧ e'.loadFailed = e.loadFailed

theorem of_bind_ok {α β : Type} {x : Except Exc α} {f : α → Except Exc β} {b : β} (h : x >>= f = .ok b) :
    ∃ a, x = .ok a ∧ f a = .ok b := by
  cases x with
  | ok a => exact ⟨a, rfl, h⟩
  | error e => cases h

theorem cutLines_file {e e' : Editor} {first last : Nat × Nat} (he : cutLines e first last = .ok e') : SameFile e e' := by
  obtain ⟨_, _, he⟩ := of_bind_ok he
  obtain ⟨_, _, he⟩ := of_bind_ok he
  cases he
  exact ⟨rfl, rfl⟩

theorem copyRange_file (h : Host) {e e' : Editor} {cut : Bool} {first last : Nat × Nat}
    (he : copyRange h cut first last e = .ok e') : SameFile e e' := by
  obtain ⟨_, _, he⟩ := of_bind_ok he
  cases cut with
  | true =>
    obtain ⟨e₁, hcut, he⟩ := of_bind_ok he
    obtain ⟨hname, hfailed⟩ := cutLines_file hcut
    cases he
    exact ⟨hname, hfailed⟩
  | false =>
    cases he
    exact ⟨rfl, rfl⟩

theorem splice_file (e : Editor) (line text : Text) : SameFile e (splice e line text) := by
  unfold splice
  dsimp only
  split
  · exact ⟨rfl, rfl⟩
  · exact ⟨rfl, rfl⟩

theorem insert_file (h : Host) {text : Text} {e e' : Editor} (he : insert h text e = .ok e') : SameFile e e' := by
  unfold insert at he
  split at he
  · cases he
    exact ⟨rfl, rfl⟩
  · dsimp only at he
    split at he
    · cases he
      exact ⟨rfl, rfl⟩
    · obtain ⟨line, _, he⟩ := of_bind_ok he
      cases he
      exact splice_file e line _

theorem backspace_file (h : Host) {e e' : Editor} (he : backspace h e = .ok e') : SameFile e e' := by
  unfold backspace at he
  dsimp only at he
  split at he
  · obtain ⟨_, _, he⟩ := of_bind_ok he
    cases he
    exact ⟨rfl, rfl⟩
  · split at he
    · obtain ⟨_, _, he⟩ := of_bind_ok he
      obtain ⟨_, _, he⟩ := of_bind_ok he
      cases he
      exact ⟨rfl, rfl⟩
    · cases he
      exact ⟨rfl, rfl⟩

theorem apply_file (h : Host) (op : Op) {e e' : Editor} (he : op.apply h e = .ok e') : SameFile e e' := by
  cases op with
  | «show» =>
    cases he
    exact ⟨rfl, rfl⟩
  | move dy dx =>
    dsimp only [Op.apply, move] at he
    split at he
    · obtain ⟨_, _, he⟩ := of_bind_ok he
      cases he
      exact ⟨rfl, rfl⟩
    · obtain ⟨_, _, he⟩ := of_bind_ok he
      cases he
      exact ⟨rfl, rfl⟩
  | backspace => exact backspace_file h he
  | copySelection cut =>
    dsimp only [Op.apply, copySelection] at he
    split at he
    · cases he
      exact ⟨rfl, rfl⟩
    · split at he
      · exact copyRange_file h he
      · exact copyRange_file h he
  | find query =>
    obtain ⟨place, _, he⟩ := of_bind_ok he
    cases place with
    | none =>
      cases he
      exact ⟨rfl, rfl⟩
    | some place =>
      cases he
      exact ⟨rfl, rfl⟩
  | insert text => exact insert_file h he
  | newline =>
    dsimp only [Op.apply, newline] at he
    split at he
    · cases he
      exact ⟨rfl, rfl⟩
    · obtain ⟨_, _, he⟩ := of_bind_ok he
      cases he
      exact ⟨rfl, rfl⟩

theorem still_edit (h : Host) (op : Op) : Within Still (edit (op.apply h)) := by
  intro s
  unfold edit
  rcases he : op.apply h s.ed with x | e
  · exact refl_of Still s
  · obtain ⟨hname, hfailed⟩ := apply_file h op he
    exact ⟨rfl, rfl, rfl, hname, hfailed⟩

/-! ## What a method does to the files -/

section

variable {s : Session} {h : Host}

theorem wp_writable (hos : OsFaults s.world) (perms : Pyperm.Table) (path : Str) {Q : Bool → Session → Prop}
    (hQ : ∀ b s', Looked s s' → Q b s') :
    wp (call (Pyperm.writable perms path)) Q (fun _ _ => False) s := by
  refine wp_call.mpr (wp_bind.mpr (wp_bind.mpr (wp_bind.mpr ?_)))
  rw [wp_get, wp_pure]
  cases perms.lookup (Pyperm.abspathIn s.world.cwd path) with
  | some mode => exact hQ _ _ ⟨s.world, rfl, .refl _⟩
  | none =>
    refine wp_bind.mpr (wp_isDir (fun w hw _ => hQ _ _ ⟨w, rfl, hw⟩) (fun w hw _ => hQ _ _ ⟨w, rfl, hw⟩) fun e w hw hf hne => ?_)
    obtain ⟨n, f, hf, rfl⟩ := hf
    obtain ⟨e', he'⟩ := hos n f hf
    exact hne e' he'

/-- A text that is read is all of its file. -/
theorem wp_source (candidate : Text) (size : Nat) :
    wp (readSource candidate size)
      (fun r s' => Looked s s' ∧ ∀ text, r = some text → ∃ b,
        s.world.fs.get (s.world.resolve (bytes candidate)) = some (.file b) ∧ decode b = some text)
      (Raised s) s := by
  unfold readSource
  split
  · exact ⟨refl_of Looked s, fun _ h => by cases h⟩
  rw [wp_bind, wp_get]
  refine wp_bind.mpr (wp_call.mpr ((Pyperm.within_requireRead _ _).wp (fun _ w₁ hw₁ => ?_) fun e w₁ hw₁ =>
    ⟨⟨e, rfl⟩, w₁, rfl, hw₁⟩))
  refine wp_bind.mpr (wp_call.mpr (wp_readText (fun b t w₂ hw₂ hb ht => ?_) fun e w₂ hw₂ =>
    ⟨⟨e, rfl⟩, w₂, rfl, hw₁.trans hw₂⟩))
  dsimp only at hb
  rw [hw₁.fs, hw₁.resolve] at hb
  have hlooked : Looked s { s with world := w₂ } := ⟨w₂, rfl, hw₁.trans hw₂⟩
  split
  · exact ⟨hlooked, fun _ h => by cases h⟩
  · rename_i hfit
    refine ⟨hlooked, fun text htext => ⟨b, hb, ?_⟩⟩
    cases htext
    rw [List.take_of_length_le]
    · exact ht
    · by_contra hlong
      have hcut : (t.take (maxEditBytes + 1)).length = maxEditBytes + 1 :=
        List.length_take_of_le (Nat.le_of_lt (Nat.lt_of_not_le hlong))
      omega

/-- A file loaded, or not. -/
structure Loading (filename : Option Text) (allowNew : Bool) (s : Session) (ok : Bool) (s' : Session) : Prop where
  world : Quiet s.world s'.world
  loaded : ok = true → s'.ed.filename = strip (filename.getD s.ed.filename) ∧ s'.ed.loadFailed = false ∧
    (s.world.fs.get (place s filename) = none ∨ ∃ b text, s.world.fs.get (place s filename) = some (.file b) ∧
      decode b = some text ∧ s'.ed.lines = linesOf text)
  refused : ok = false → s'.ed.filename = s.ed.filename ∧
    s'.ed.loadFailed = (s.ed.loadFailed || (allowNew && decide (strip (filename.getD s.ed.filename) ≠ [])))

theorem loading_failed {filename : Option Text} {allowNew : Bool} {s' : Session} (msg : Msg)
    (hne : strip (filename.getD s.ed.filename) ≠ []) (hs : Looked s s') :
    Loading filename allowNew s false { s' with ed := openFailed allowNew msg s'.ed } := by
  obtain ⟨w, rfl, hw⟩ := hs
  refine ⟨hw, (fun h => by cases h), fun _ => ⟨rfl, ?_⟩⟩
  rw [decide_eq_true hne, Bool.and_true]
  rfl

theorem wp_loadFile (hos : OsFaults s.world) (filename : Option Text) (allowNew : Bool) :
    wp (loadFile filename allowNew) (Loading filename allowNew s) (fun _ _ => False) s := by
  unfold loadFile
  refine wp_bind.mpr ?_
  change wp (ite _ _ _) _ _ _
  by_cases hempty : strip (filename.getD s.ed.filename) = []
  · rw [if_pos hempty]
    refine ⟨.refl _, (fun h => by cases h), fun _ => ⟨rfl, ?_⟩⟩
    rw [decide_eq_false (not_not_intro hempty), Bool.and_false, Bool.or_false]
    rfl
  rw [if_neg hempty]
  refine wp_bind.mpr (wp_tryCatch.mpr (wp_bind.mpr (wp_call.mpr (wp_stat (fun n w hw hn => ?_) fun e w hw he => ?_))))
  · have hlooked : Looked s { s with world := w } := ⟨w, rfl, hw⟩
    refine wp_bind.mpr (wp_tryCatch.mpr (wp_bind.mpr (wp_mono (wp_source _ _) (fun r s₂ hr => ?_) fun stop s₂ hr => ?_)))
    · obtain ⟨hs₂, htext⟩ := hr
      cases r with
      | none => exact loading_failed _ hempty (trans_of Looked hlooked hs₂)
      | some text =>
        obtain ⟨b, hb, ht⟩ := htext text rfl
        dsimp only at hb
        rw [hw.fs, hw.resolve] at hb
        obtain ⟨w₂, rfl, hw₂⟩ := trans_of Looked hlooked hs₂
        have hos₂ : OsFaults w₂ := hos.quiet hw₂
        refine wp_bind.mpr (wp_bind.mpr (wp_bind.mpr (wp_bind.mpr (wp_writable ?_ _ _ fun writable s₃ hs₃ => ?_))))
        · exact hos₂
        · obtain ⟨w₃, rfl, hw₃⟩ := hs₃
          exact ⟨hw₂.trans hw₃, fun _ => ⟨rfl, rfl, .inr ⟨b, text, hb, ht, rfl⟩⟩, fun h => by cases h⟩
    · obtain ⟨⟨e, rfl⟩, hs₂⟩ := hr
      exact loading_failed _ hempty (trans_of Looked hlooked hs₂)
  · -- the stat has failed: with ENOENT there is nothing, and any other error is an OSError too
    have herror : ∃ e', e = .osError e' ∧ (e' = .enoent → s.world.fs.get (place s filename) = none) := by
      rcases he with hf | ⟨hnone, rfl⟩
      · have hne := hf.ne
        obtain ⟨n, f, hf, rfl⟩ := hf
        obtain ⟨e', he'⟩ := hos n f hf
        refine ⟨e', he', fun h => ?_⟩
        rw [he', h] at hne
        exact absurd rfl hne
      · exact ⟨_, rfl, fun _ => hnone⟩
    obtain ⟨e', rfl, hnone⟩ := herror
    change wp (ite _ _ _) _ _ _
    split
    · rename_i hnew
      exact ⟨hw, fun _ => ⟨rfl, rfl, .inl (hnone hnew.2)⟩, fun h => by cases h⟩
    · exact loading_failed _ hempty ⟨w, rfl, hw⟩

/-- A new text started, or not. -/
structure Starting (filename : Text) (s : Session) (ok : Bool) (s' : Session) : Prop where
  world : Quiet s.world s'.world
  started : ok = true → s'.ed.filename = strip filename ∧ s'.ed.loadFailed = false ∧
    s.world.fs.get (s.world.resolve (bytes (strip filename))) = none
  refused : ok = false → s'.ed.filename = s.ed.filename ∧ s'.ed.loadFailed = s.ed.loadFailed

theorem wp_startNew (filename : Text) :
    wp (startNew filename) (Starting filename s) (fun _ s' => Still s s') s := by
  unfold startNew
  dsimp only
  split
  · exact ⟨.refl _, (fun h => by cases h), fun _ => ⟨rfl, rfl⟩⟩
  · refine wp_bind.mpr (wp_exists (fun s' hs _ => ?_) (fun s' hs hfree => ?_) fun e s' hs => hs.still)
    · obtain ⟨w, rfl, hw⟩ := hs
      exact ⟨hw, (fun h => by cases h), fun _ => ⟨rfl, rfl⟩⟩
    · obtain ⟨w, rfl, hw⟩ := hs
      exact ⟨hw, (fun _ => ⟨rfl, rfl, hfree⟩), fun h => by cases h⟩

/-! ## Running a script -/

theorem still_execScript (hleaves : Leaves h) (code : Text) : Within Still (execScript h code) := by
  intro s
  obtain ⟨hfs, hcwd, hfault⟩ := hleaves code s.world s.perms
  exact ⟨hfs, hcwd, hfault, rfl, rfl⟩

theorem still_runSource (hleaves : Leaves h) (filename : Text) : Within Still (runSource h filename) :=
  Within.get.bind fun _ => (still_looked (looked_call (Pyperm.within_requireRead _ _))).bind fun _ =>
    (still_looked (looked_call (within_readText _ _))).bind fun _ => .ite (.throw _) (still_execScript hleaves _)

theorem still_unsaved : Within Still unsaved :=
  Within.bind (Within.get.bind fun _ => .pure _) fun _ =>
    .ite (.pure _) ((still_looked (looked_call (within_existsPath _))).bind fun _ => .pure _)

/-- `run_code` past its save. -/
theorem still_runSaved (hleaves : Leaves h) : Within Still (do
    match ← tryExc (runSource h (← editor).filename) with
    | .ok _ =>
      update (setMsg (.text "Run OK"))
      return true
    | .error _ =>
      update (setMsg (.text "Run error"))
      return false : Edit Bool) := by
  refine Within.bind (Within.get.bind fun _ => .pure _) fun e => (within_tryExc (still_runSource hleaves _)).bind fun r => ?_
  cases r with
  | ok => exact (still_setMsg _).bind fun _ => .pure _
  | error => exact (still_setMsg _).bind fun _ => .pure _

/-- `run_code` has left the files alone, or has saved once. -/
def Ran (s s' : Session) : Prop :=
  Still s s' ∨ ∃ s₁ saved s₂, Runnable s.ed ∧ unsaved s = (.ok true, s₁) ∧ saveFile none s₁ = (.ok saved, s₂) ∧ Still s₂ s'

theorem ensureSaved_cases (hos : OsFaults s.world) (hrun : Runnable s.ed) :
    wp ensureSaved (fun _ s' => ∀ s'', Still s' s'' → Ran s s'') (fun _ s' => Ran s s') s := by
  have hstill := still_unsaved s
  refine wp_bind.mpr ?_
  unfold wp
  rcases hu : unsaved s with ⟨e | b, s₁⟩
  · rw [hu] at hstill
    exact .inl hstill
  · rw [hu] at hstill
    cases b with
    | false => exact fun s'' h => .inl (trans_of Still hstill h)
    | true =>
      have hos₁ : OsFaults s₁.world := by
        unfold OsFaults
        rw [hstill.fault]
        exact hos
      obtain ⟨saved, s₂, hsave, _⟩ := wp_returns (wp_saveFile hos₁ none) fun _ _ h => h
      change wp (saveFile none) _ _ s₁
      unfold wp
      rw [hsave]
      exact fun s'' h => .inr ⟨s₁, saved, s₂, hrun, hu, hsave, h⟩

theorem ran_runCode (hleaves : Leaves h) (hos : OsFaults s.world) : Ran s (runCode h s).2 := by
  refine wp_run ?_
  unfold runCode
  refine wp_bind.mpr ?_
  change wp (ite _ _ _) _ _ _
  by_cases hpy : (lit ".py").isSuffixOf (s.ed.filename.map toLower) = true
  · rw [hpy, if_neg (by decide)]
    by_cases hfailed : s.ed.loadFailed = true
    · rw [if_pos hfailed]
      exact .inl (still_setMsg _ s)
    · rw [if_neg hfailed]
      refine wp_then (ensureSaved_cases hos ⟨hpy, Bool.eq_false_iff.mpr hfailed⟩) (fun saved s₁ h₁ => ?_) fun _ _ h => h
      cases saved with
      | false => exact h₁ s₁ (refl_of Still s₁)
      | true => exact (still_runSaved hleaves).wp (fun _ s' h => h₁ s' h) fun _ s' h => h₁ s' h
  · rw [Bool.eq_false_iff.mpr hpy, if_pos (by decide)]
    exact .inl (still_setMsg _ s)

/-! ## The file the editor is on -/

theorem strip_strip (t : Text) : strip (strip t) = strip t := by
  obtain ⟨rest, hrest⟩ := List.rdropWhile_prefix isSpace (t.dropWhile isSpace)
  have hfirst := List.dropWhile_idempotent isSpace t
  have hhead : (strip t).dropWhile isSpace = strip t := by
    unfold strip rstripText
    cases hs : List.rdropWhile isSpace (t.dropWhile isSpace) with
    | nil => rfl
    | cons c u =>
      -- what is left begins as it did before its end was cut off
      rw [hs] at hrest
      rw [← hrest] at hfirst
      by_cases hc : isSpace c = true
      · rw [List.cons_append, List.dropWhile_cons_of_pos hc] at hfirst
        have hle := List.length_dropWhile_le isSpace (u ++ rest)
        rw [hfirst, List.length_cons] at hle
        omega
      · rw [List.dropWhile_cons_of_neg hc]
  calc strip (strip t) = rstripText ((strip t).dropWhile isSpace) := rfl
    _ = rstripText (strip t) := by rw [hhead]
    _ = strip t := List.rdropWhile_idempotent isSpace _

/-- The path of a name beside another is that of the other only where a NUL ends both. -/
theorem Sibling.path_eq {candidate name : Text} (hs : Sibling candidate name) (cwd : Path) :
    resolve cwd (bytes name) = resolve cwd (bytes candidate) ↔ 0 ∈ bytes candidate := by
  obtain ⟨tail, rfl, htail⟩ := hs
  rw [bytes_append]
  constructor
  · intro heq
    by_contra h0
    obtain ⟨F, y, hF⟩ := resolve_tail cwd h0
    obtain ⟨hpath, hne⟩ := hF _ htail
    exact hne (heq.symm.trans hpath)
  · exact fun h0 => resolve_of_mem cwd _ h0

/-- The file the editor is on can be replaced: there is none, its contents are known, or nothing is saved to it. -/
def Replaceable (known : Path → Bytes → Prop) (s : Session) : Prop :=
  s.ed.loadFailed = true ∨ strip s.ed.filename = [] ∨ 0 ∈ bytes (strip s.ed.filename) ∨
    s.world.fs.get (place s none) = none ∨ ∃ b, s.world.fs.get (place s none) = some (.file b) ∧ known (place s none) b

structure Inv (known : Path → Bytes → Prop) (failed : Bool) (s : Session) : Prop where
  os : OsFaults s.world
  failed : failed = true → s.ed.loadFailed = true
  replaceable : Replaceable known s

section

variable {s s' : Session} {known known' : Path → Bytes → Prop} {failed : Bool}

theorem Replaceable.mono (h : Replaceable known s) (hk : ∀ p b, known p b → known' p b) : Replaceable known' s := by
  rcases h with h | h | h | h | ⟨b, hb, hkb⟩
  · exact .inl h
  · exact .inr (.inl h)
  · exact .inr (.inr (.inl h))
  · exact .inr (.inr (.inr (.inl h)))
  · exact .inr (.inr (.inr (.inr ⟨b, hb, hk _ _ hkb⟩)))

/-- A session on the same file, at whose path there is what was there, or nothing. -/
theorem Replaceable.keep (h : Replaceable known s) (hname : s'.ed.filename = s.ed.filename)
    (hfailed : s.ed.loadFailed = true → s'.ed.loadFailed = true) (hcwd : s'.world.cwd = s.world.cwd)
    (hget : 0 ∉ bytes (strip s.ed.filename) → s'.world.fs.get (place s none) = s.world.fs.get (place s none) ∨
      s'.world.fs.get (place s none) = none) : Replaceable known s' := by
  have hplace : place s' none = place s none := by
    unfold place World.resolve
    rw [hcwd, hname]
  unfold Replaceable
  rw [hplace, hname]
  rcases h with h | h | h | h
  · exact .inl (hfailed h)
  · exact .inr (.inl h)
  · exact .inr (.inr (.inl h))
  · by_cases h0 : 0 ∈ bytes (strip s.ed.filename)
    · exact .inr (.inr (.inl h0))
    · rcases hget h0 with hget | hget
      · rw [hget]
        exact .inr (.inr (.inr h))
      · exact .inr (.inr (.inr (.inl hget)))

theorem Inv.mono (hi : Inv known failed s) (hk : ∀ p b, known p b → known' p b) : Inv known' failed s :=
  ⟨hi.os, hi.failed, hi.replaceable.mono hk⟩

theorem Inv.still (hi : Inv known failed s) (h : Still s s') : Inv known failed s' := by
  refine ⟨?_, ?_, ?_⟩
  · unfold OsFaults
    rw [h.fault]
    exact hi.os
  · rw [h.loadFailed]
    exact hi.failed
  · refine hi.replaceable.keep h.filename (fun hf => ?_) h.cwd fun _ => .inl ?_
    · rw [h.loadFailed]
      exact hf
    · rw [h.fs]

theorem inv_opened {filename : Text} (hos : OsFaults s.world) (hname : s'.ed.filename = strip filename)
    (hw : Quiet s.world s'.world)
    (hget : s.world.fs.get (s.world.resolve (bytes (strip filename))) = none ∨
      ∃ b, s.world.fs.get (s.world.resolve (bytes (strip filename))) = some (.file b) ∧
        known (s.world.resolve (bytes (strip filename))) b) : Inv known false s' := by
  have hplace : place s' none = s.world.resolve (bytes (strip filename)) := by
    show s'.world.resolve (bytes (strip s'.ed.filename)) = _
    rw [hname, strip_strip, hw.resolve]
  refine ⟨hos.quiet hw, (fun h => by cases h), .inr (.inr (.inr ?_))⟩
  rw [hplace, hw.fs]
  exact hget

/-- What a save that fails leaves at a path that is not one of those beside the target. -/
theorem SaveOutcome.get_of_failed {candidate : Text} {text : Bytes} {w w' : World} {temporary backup : Option Text}
    (hout : SaveOutcome candidate text w w' false temporary backup) {r : Path}
    (hr : (r = w.resolve (bytes candidate) ∧ 0 ∉ bytes candidate) ∨
      ∀ name, Sibling candidate name → ¬ w.resolve (bytes name) <+: r) :
    w'.fs.get r = w.fs.get r ∨ w'.fs.get r = none := by
  have htemporary : ∀ t ∈ temporary, r ≠ w.resolve (bytes t) := by
    intro t ht hrt
    obtain ⟨hs, _⟩ := hout.temporary_new t ht
    rcases hr with ⟨heq, h0⟩ | hr
    · exact h0 ((hs.path_eq w.cwd).mp (hrt.symm.trans heq))
    · exact hr t hs (by rw [hrt])
  by_cases hbelow : w.resolve (bytes candidate) <+: r
  · obtain ⟨u, hu⟩ := hbelow
    rcases hout.kept rfl with hkept | ⟨k, hk, _, hnone, _⟩
    · rw [← hu] at htemporary ⊢
      exact .inl (hkept u htemporary)
    · exact .inr (w'.fs.get_below_none ⟨u, hu⟩ hnone)
  · refine .inl (hout.elsewhere r hbelow htemporary fun k hk => ?_)
    obtain ⟨hs, _⟩ := hout.backup_new k hk
    rcases hr with ⟨heq, _⟩ | hr
    · exact absurd (by rw [heq]) hbelow
    · exact hr k hs

/-- A name with a NUL in it is never saved to: the temporary would have the path of the target. -/
theorem SaveOutcome.not_nul {candidate : Text} {text : Bytes} {w w' : World} {temporary backup : Option Text}
    (hout : SaveOutcome candidate text w w' true temporary backup) : 0 ∉ bytes candidate := by
  intro h0
  obtain ⟨t, ht, hne⟩ := hout.staged rfl
  obtain ⟨hs, _⟩ := hout.temporary_new t ht
  exact hne ((hs.path_eq w.cwd).mpr h0)

/-- A save leaves the editor on a file that can be replaced. -/
theorem Inv.save (hi : Inv known failed s) {filename : Option Text} {saved : Bool}
    (hsave : saveFile filename s = (.ok saved, s')) (hallowed : saved = true ∨ Current s filename ∨ Clear s filename)
    (hk : ∀ p b, known p b → known' p b)
    (hlearned : saved = true → known' (place s filename) (bytes (unlines lf s.ed.lines))) : Inv known' failed s' := by
  obtain ⟨⟨msg, hed⟩, hopen, temporary, backup, hout⟩ := wp_ok (wp_saveFile hi.os filename) hsave
  have hos : OsFaults s'.world := by
    unfold OsFaults
    rw [hout.fault]
    exact hi.os
  cases saved with
  | true =>
    have hclosed : ¬ failed = true := by
      intro hf
      have hfailed := hi.failed hf
      rw [hopen rfl] at hfailed
      cases hfailed
    have hplace : place s' none = place s filename := by
      show s'.world.resolve (bytes (strip s'.ed.filename)) = _
      rw [hed]
      show s'.world.resolve (bytes (strip (strip _))) = _
      rw [strip_strip]
      exact congrArg (resolve · _) hout.cwd
    refine ⟨hos, fun hf => absurd hf hclosed, .inr (.inr (.inr (.inr ⟨bytes (unlines lf s.ed.lines), ?_, ?_⟩)))⟩
    · rw [hplace]
      exact hout.written rfl
    · rw [hplace]
      exact hlearned rfl
  | false =>
    refine ⟨hos, fun hf => ?_, ?_⟩
    · rw [hed]
      exact hi.failed hf
    · refine (hi.replaceable.mono hk).keep (by rw [hed]; rfl) (fun hf => by rw [hed]; exact hf) hout.cwd fun h0 => ?_
      apply hout.get_of_failed
      rcases hallowed with h | hcurrent | hclear
      · cases h
      · refine .inl ⟨?_, ?_⟩
        · rw [hcurrent]
          rfl
        · rw [hcurrent]
          exact h0
      · exact .inr hclear

/-! ## Every run -/

theorem inv_loaded (hos : OsFaults s.world) {filename : Option Text} {allowNew : Bool}
    (hload : loadFile filename allowNew s = (.ok true, s')) : Inv (Learned (.load filename allowNew) s) false s' := by
  have hl := wp_ok (wp_loadFile hos filename allowNew) hload
  obtain ⟨hname, _, hget⟩ := hl.loaded rfl
  refine inv_opened hos hname hl.world (hget.imp_right fun ⟨b, text, hb, htext, hlines⟩ => ⟨b, hb, ?_⟩)
  refine .loaded filename allowNew b text rfl ?_ hb htext ?_
  · rw [hload]
  · rw [hload]
    exact hlines

theorem Inv.load (hi : Inv known failed s) (filename : Option Text) (allowNew : Bool) :
    Inv (fun p b => known p b ∨ Learned (.load filename allowNew) s p b)
      (failedAfter failed s (.load filename allowNew)) (loadFile filename allowNew s).2 := by
  obtain ⟨ok, s', hload, hl⟩ := wp_returns (wp_loadFile hi.os filename allowNew) fun _ _ h => h
  dsimp only [failedAfter]
  rw [hload]
  cases ok with
  | true =>
    rw [if_pos rfl]
    exact (inv_loaded hi.os hload).mono fun _ _ hk => .inr hk
  | false =>
    obtain ⟨hname, hfailed⟩ := hl.refused rfl
    rw [if_neg fun h => by cases h]
    refine ⟨hi.os.quiet hl.world, fun hf => ?_, ?_⟩
    · rw [hfailed]
      rcases Bool.or_eq_true_iff.mp hf with hf | hf
      · rw [hi.failed hf, Bool.true_or]
      · rw [hf, Bool.or_true]
    · refine (hi.replaceable.mono fun _ _ h => .inl h).keep hname (fun hf => ?_) hl.world.cwd fun _ => .inl ?_
      · rw [hfailed, hf, Bool.true_or]
      · rw [hl.world.fs]

/-- An editor opened on a file it could not load will not save. -/
theorem inv_construct (h : Host) (filename : Text) (theme : Theme) (hos : OsFaults s.world) :
    Inv (Learned (.load (some (blank filename theme).filename) true) (blanked h filename theme s))
      (failedAfter false (blanked h filename theme s) (.load (some (blank filename theme).filename) true))
      (construct h filename theme s).2 := by
  have hconstruct : (construct h filename theme s).2 =
      (loadFile (some (blank filename theme).filename) true (blanked h filename theme s)).2 := by
    show ((do let _ ← loadFile (some (blank filename theme).filename) true) (blanked h filename theme s)).2 = _
    simp only [bind]
    rcases loadFile (some (blank filename theme).filename) true (blanked h filename theme s) with ⟨_ | _, s'⟩ <;> rfl
  obtain ⟨ok, s', hload, hl⟩ := wp_returns
    (wp_loadFile (s := blanked h filename theme s) hos (some (blank filename theme).filename) true) fun _ _ h => h
  rw [hconstruct]
  dsimp only [failedAfter]
  rw [hload]
  cases ok with
  | true =>
    rw [if_pos rfl]
    exact inv_loaded (s := blanked h filename theme s) hos hload
  | false =>
    obtain ⟨hname, hfailed⟩ := hl.refused rfl
    rw [if_neg fun h => by cases h]
    refine ⟨hos.quiet hl.world, fun hf => ?_, ?_⟩
    · rw [hfailed]
      exact hf
    · by_cases hempty : strip (blank filename theme).filename = []
      · refine .inr (.inl ?_)
        rw [hname]
        exact hempty
      · refine .inl ?_
        rw [hfailed]
        show (false || (true && decide (strip (blank filename theme).filename ≠ []))) = true
        rw [decide_eq_true hempty]
        rfl

theorem Inv.startNew (hi : Inv known failed s) (filename : Text) :
    Inv known (failedAfter failed s (.startNew filename)) (startNew filename s).2 := by
  have hstart := wp_startNew (s := s) filename
  unfold wp at hstart
  dsimp only [failedAfter]
  rcases hrun : Pyeditor.startNew filename s with ⟨e | ok, s'⟩
  · rw [hrun] at hstart
    rw [if_neg fun h => by cases h]
    exact hi.still hstart
  · rw [hrun] at hstart
    cases ok with
    | true =>
      obtain ⟨hname, _, hfree⟩ := hstart.started rfl
      rw [if_pos rfl]
      exact inv_opened hi.os hname hstart.world (.inl hfree)
    | false =>
      obtain ⟨hname, hfailed⟩ := hstart.refused rfl
      rw [if_neg fun h => by cases h]
      exact hi.still ⟨hstart.world.fs, hstart.world.cwd, hstart.world.fault, hname, hfailed⟩

theorem Inv.run {h : Host} (hleaves : Leaves h) (hi : Inv known failed s) :
    Inv (fun p b => known p b ∨ Learned .run s p b) failed (runCode h s).2 := by
  rcases ran_runCode hleaves hi.os with hstill | ⟨s₁, saved, s₂, hrun, hunsaved, hsave, hstill⟩
  · exact (hi.mono fun _ _ hk => .inl hk).still hstill
  · have hstill₁ := still_unsaved s
    rw [hunsaved] at hstill₁
    refine Inv.still ?_ hstill
    refine (hi.still hstill₁).save hsave (.inr (.inl rfl)) (fun _ _ hk => .inl hk) fun hsaved => .inr ?_
    rw [hsaved] at hsave
    exact .saved none s₁ (.run s s₁ hrun hunsaved (by rw [hsave]))

theorem Inv.act {h : Host} (hleaves : Leaves h) (hi : Inv known failed s) (a : Action) (ha : Allowed s a) :
    Inv (fun p b => known p b ∨ Learned a s p b) (failedAfter failed s a) (act h a s).2 := by
  -- a method called for its effect leaves what the call of it leaves
  have hleft : ∀ {α : Type} (x : Edit α), ((do let _ ← x) s).2 = (x s).2 := by
    intro α x
    simp only [bind]
    rcases x s with ⟨_ | _, s'⟩ <;> rfl
  cases a with
  | load filename allowNew =>
    show Inv _ _ ((do let _ ← loadFile filename allowNew) s).2
    rw [hleft]
    exact hi.load filename allowNew
  | startNew filename =>
    show Inv _ _ ((do let _ ← Pyeditor.startNew filename) s).2
    rw [hleft]
    exact (hi.startNew filename).mono fun _ _ hk => .inl hk
  | edit op => exact (hi.still (still_edit h op s)).mono fun _ _ hk => .inl hk
  | save filename =>
    show Inv _ _ ((do let _ ← saveFile filename) s).2
    rw [hleft]
    obtain ⟨saved, s', hsave, _⟩ := wp_returns (wp_saveFile hi.os filename) fun _ _ h => h
    dsimp only [Allowed] at ha
    rw [hsave] at ha ⊢
    refine hi.save hsave (ha.imp_left fun hok => by cases hok; rfl) (fun _ _ hk => .inl hk) fun hsaved => .inr ?_
    rw [hsaved] at hsave
    exact .saved filename s (.save filename s (by rw [hsave]))
  | run =>
    show Inv _ _ ((do let _ ← runCode h) s).2
    rw [hleft]
    exact hi.run hleaves

theorem inv_run {h : Host} (hleaves : Leaves h) (hrun : Run h s known failed) : Inv known failed s := by
  induction hrun with
  | start s filename theme hos => exact inv_construct h filename theme hos
  | step hr a ha ih => exact ih.act hleaves a ha

theorem saveFile_failed (hf : s.ed.loadFailed = true) (filename : Option Text) :
    saveFile filename s = (.ok false, { s with ed := setMsg (.text "Open failed; use New") s.ed }) := by
  unfold saveFile
  show (ite _ _ _ : Edit Bool) s = _
  rw [if_pos hf]
  rfl

theorem saveFile_blank {filename : Option Text} (hblank : strip (filename.getD s.ed.filename) = []) :
    (saveFile filename s).1 = .ok false := by
  by_cases hf : s.ed.loadFailed = true
  · rw [saveFile_failed hf]
  · unfold saveFile
    show ((ite _ _ _ : Edit Bool) s).1 = _
    rw [if_neg hf]
    show ((ite _ _ _ : Edit Bool) s).1 = _
    rw [if_pos hblank]
    rfl

/-- Nothing is saved but from a session on a file that can be replaced. -/
theorem Inv.saves (hi : Inv known failed s) {filename : Option Text} (hok : (saveFile filename s).1 = .ok true)
    (hcurrent : Current s filename) : s.world.fs.get (place s filename) = none ∨
      ∃ b, s.world.fs.get (place s filename) = some (.file b) ∧ known (place s filename) b := by
  obtain ⟨saved, s', hsave, hpost⟩ := wp_returns (wp_saveFile hi.os filename) fun _ _ h => h
  rw [hsave] at hok
  cases hok
  obtain ⟨_, hopen, temporary, backup, hout⟩ := hpost
  have hplace : place s filename = place s none := by
    unfold place
    rw [hcurrent]
    rfl
  rw [hplace]
  rcases hi.replaceable with h | h | h | h
  · rw [hopen rfl] at h
    cases h
  · rw [← hcurrent] at h
    have hblank := saveFile_blank h
    rw [hsave] at hblank
    cases hblank
  · rw [← hcurrent] at h
    exact absurd h hout.not_nul
  · exact h

end

end

/-- Whatever is done with an editor, it replaces no file whose contents are not known, and saves nothing while
the opening of its file has failed. -/
theorem saves_replace_known (h : Host) (hleaves : Leaves h) {s : Session} {known : Path → Bytes → Prop} {failed : Bool}
    (hrun : Run h s known failed) :
    (∀ a filename s₁, Saves a s filename s₁ → Current s₁ filename → s₁.world.fs.get (place s₁ filename) = none ∨
      ∃ b, s₁.world.fs.get (place s₁ filename) = some (.file b) ∧ known (place s₁ filename) b) ∧
    (failed = true → (∀ filename, saveFile filename s =
        (.ok false, { s with ed := setMsg (.text "Open failed; use New") s.ed })) ∧
      ∀ a filename s₁, ¬ Saves a s filename s₁) := by
  have hi := inv_run hleaves hrun
  refine ⟨fun a filename s₁ hsaves hcurrent => ?_, fun hf => ⟨saveFile_failed (hi.failed hf), fun a filename s₁ hsaves => ?_⟩⟩
  · cases hsaves with
    | save filename s hok => exact hi.saves hok hcurrent
    | run s s₁ hrunnable hunsaved hok =>
      have hstill := still_unsaved s
      rw [hunsaved] at hstill
      exact (hi.still hstill).saves hok hcurrent
  · have hfailed := hi.failed hf
    cases hsaves with
    | save filename s hok =>
      rw [saveFile_failed hfailed] at hok
      cases hok
    | run s s₁ hrunnable hunsaved hok =>
      rw [hrunnable.2] at hfailed
      cases hfailed

/-! ## A file that is loaded, one that is not, and one that is loaded once -/

/-- The file `d`, and one call that fails. -/
def oneFile (bad : Nat) : World where
  fs := Fs.empty.put [[100]] (.file [65]) letter_ne_root letter_under_root letter_free
  cwd := []
  fault n := if n = bad then some ⟨.osError .eio, 0⟩ else none
  honest n f h := by
    split at h
    · cases h
      decide
    · cases h
  clock := 0
  made := []

theorem osFaults_oneFile (bad : Nat) : OsFaults (oneFile bad) := by
  intro n f h
  dsimp only [oneFile] at h
  split at h
  · cases h
    exact ⟨.eio, rfl⟩
  · cases h

/-- The editor opened on a file of that name. -/
def opened (bad : Nat) (filename : Text) : Session := (construct idleHost filename .githubDark (lettered (oneFile bad))).2

theorem saves_replace_known_loaded : Leaves idleHost ∧ (opened 99 (lit "d")).world.fs.get [[100]] = some (.file [65]) ∧
    ∃ known, Run idleHost (opened 99 (lit "d")) known false ∧ ((opened 99 (lit "d")).world.fs.get [[100]] = none ∨
      ∃ b, (opened 99 (lit "d")).world.fs.get [[100]] = some (.file b) ∧ known [[100]] b) := by
  have hleaves : Leaves idleHost := fun _ _ _ => ⟨rfl, rfl, rfl⟩
  have hfailed : failedAfter false (blanked idleHost (lit "d") .githubDark (lettered (oneFile 99)))
      (.load (some (blank (lit "d") .githubDark).filename) true) = false := by decide +kernel
  have hrun := Run.start (h := idleHost) (lettered (oneFile 99)) (lit "d") .githubDark (osFaults_oneFile 99)
  rw [hfailed] at hrun
  refine ⟨hleaves, by decide +kernel, _, hrun, ?_⟩
  have hplace : place (opened 99 (lit "d")) none = [[100]] := by decide +kernel
  have hsaves : Saves (.save none) (opened 99 (lit "d")) none (opened 99 (lit "d")) := .save none _ (by decide +kernel)
  have hknown := (saves_replace_known idleHost hleaves hrun).1 _ _ _ hsaves rfl
  rw [hplace] at hknown
  exact hknown

theorem Learned.load_place {filename : Option Text} {allowNew : Bool} {s : Session} {p : Path} {b : Bytes}
    (h : Learned (.load filename allowNew) s p b) : p = place s filename := by
  cases h with
  | loaded filename allowNew b text ha => cases ha; rfl
  | saved filename s₁ hsaves => cases hsaves

/-- A save under the name of a file that was never loaded replaces it; and where the file the editor is on
cannot be loaded a second time, it can still be saved. -/
theorem saves_replace_unknown :
    (∃ known, Run idleHost (opened 99 (lit "a")) known false ∧
      Saves (.save (some (lit "d"))) (opened 99 (lit "a")) (some (lit "d")) (opened 99 (lit "a")) ∧
      (opened 99 (lit "a")).world.fs.get (place (opened 99 (lit "a")) (some (lit "d"))) = some (.file [65]) ∧
      ¬ known (place (opened 99 (lit "a")) (some (lit "d"))) [65]) ∧
    (loadFile none false (opened 5 (lit "d"))).1 = .ok false ∧
      (saveFile none (loadFile none false (opened 5 (lit "d"))).2).1 = .ok true := by
  have hfailed : failedAfter false (blanked idleHost (lit "a") .githubDark (lettered (oneFile 99)))
      (.load (some (blank (lit "a") .githubDark).filename) true) = false := by decide +kernel
  have hrun := Run.start (h := idleHost) (lettered (oneFile 99)) (lit "a") .githubDark (osFaults_oneFile 99)
  rw [hfailed] at hrun
  refine ⟨⟨_, hrun, .save _ _ (by decide +kernel), by decide +kernel, fun hknown => ?_⟩, by decide +kernel, by decide +kernel⟩
  have hne : place (opened 99 (lit "a")) (some (lit "d")) ≠ place (blanked idleHost (lit "a") .githubDark (lettered (oneFile 99)))
      (some (blank (lit "a") .githubDark).filename) := by decide +kernel
  exact hne hknown.load_place

end PythonUltra.Pyeditor
