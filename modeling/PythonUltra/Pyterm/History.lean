/-
  PythonUltra.Pyterm.History — the commands kept between sessions (modules/pyterm/__init__.py).

  `_history_append` puts a command behind the file's last line and cuts the file to 64
  lines when it is past 8192 bytes; `_history_lines` gives the last `count` of its lines.
  `History` says what the file holds, `append_next` what one command does to it, and
  `run_history` that over any commands the file keeps an end of their sequence, no shorter
  than 64.

  `lines[-max(0, count):]` is every line for a count of 0, where it means none
  (`history_iff`, `no_lines_gives_all`).
-/

import PythonUltra.Os.Sound
import PythonUltra.Os.Text
import PythonUltra.Pyperm.Reload
import PythonUltra.Pyterm.Model

namespace PythonUltra.Pyterm

open PythonUltra.Lib PythonUltra.Lib.Prog PythonUltra.Os PythonUltra.Pyperm PythonUltra.Zipfile

/-! ## Reading -/

/-- `line.rstrip("\r\n")` -/
def rstripEol (line : Str) : Str := line.rdropWhile fun c => c = carriageReturn || c = newline

/-- `l[start:]` -/
def sliceFrom {α : Type} (l : List α) (start : Int) : List α :=
  l.drop (if start < 0 then l.length + start else start).toNat

/-- `_history_lines` -/
def historyLines (count : Option Int) : Call (List Str) :=
  tryCatch (do
    let lines := (← readAll historyPath).map rstripEol
    return match count with
      | none => lines
      | some count => sliceFrom lines (-(max 0 count))) fun e => match e with
    | .osError _ => return []
    | e => throw e

/-- What `_history_append` makes of a command. -/
def normalized (line : Str) : Str := strip (line.map fun c => if c = newline then space else c)

/-! ## Commands -/

/-- A line of the history, without its end. -/
structure Entry (line : Str) : Prop where
  noLf : newline ∉ line
  utf8 : utf8Check line = true
  last : ∀ c ∈ line.getLast?, isspace c = false

theorem utf8From_map (need : Nat) (s : Str) :
    utf8From need (s.map fun c => if c = newline then space else c) = utf8From need s := by
  induction s generalizing need with
  | nil => rfl
  | cons c s ih =>
    rw [List.map_cons, utf8From, utf8From]
    by_cases hc : c = newline
    · rw [if_pos hc, hc, ih, ih, ih]
      rfl
    · rw [if_neg hc, ih, ih, ih]

theorem ascii_of_isspace {c : UInt8} (h : isspace c = true) : ¬ c ≥ 0xc0 ∧ c < 0x80 ∧ ¬ c &&& 0xc0 = 0x80 := by
  have key : ∀ v : BitVec 8, isspace ⟨v⟩ = true → ¬ 0xc0#8 ≤ v ∧ v < 0x80#8 ∧ ¬ v &&& 0xc0#8 = 0x80#8 := by decide
  obtain ⟨h1, h2, h3⟩ := key c.toBitVec h
  exact ⟨h1, h2, fun e => h3 (congrArg UInt8.toBitVec e)⟩

theorem utf8Check_dropWhile {s : Str} (h : utf8Check s = true) : utf8Check (s.dropWhile isspace) = true := by
  induction s with
  | nil => exact h
  | cons c s ih =>
    by_cases hc : isspace c = true
    · obtain ⟨hlead, -, -⟩ := ascii_of_isspace hc
      rw [List.dropWhile_cons, if_pos hc]
      rw [utf8Check, utf8From, if_neg (not_not.mpr rfl), if_neg hlead, Bool.and_eq_true] at h
      exact ih h.2
    · rw [List.dropWhile_cons, if_neg hc]
      exact h

theorem utf8From_of_concat {need : Nat} {s : Str} {c : UInt8} (hc : isspace c = true) (h : utf8From need (s ++ [c]) = true) :
    utf8From need s = true := by
  obtain ⟨hlead, -, hcont⟩ := ascii_of_isspace hc
  induction s generalizing need with
  | nil =>
    rw [List.nil_append, utf8From] at h
    by_cases hneed : need ≠ 0
    · rw [if_pos hneed, Bool.and_eq_true] at h
      exact absurd (of_decide_eq_true h.1) hcont
    · exact decide_eq_true (not_not.mp hneed)
  | cons d s ih =>
    rw [List.cons_append, utf8From] at h
    rw [utf8From]
    split at h
    · rename_i hneed
      rw [Bool.and_eq_true] at h
      rw [if_pos hneed, Bool.and_eq_true]
      exact ⟨h.1, ih h.2⟩
    · rename_i hneed
      rw [if_neg hneed]
      split at h
      · rename_i hd
        rw [Bool.and_eq_true] at h
        rw [if_pos hd, Bool.and_eq_true]
        exact ⟨h.1, ih h.2⟩
      · rename_i hd
        rw [Bool.and_eq_true] at h
        rw [if_neg hd, Bool.and_eq_true]
        exact ⟨h.1, ih h.2⟩

theorem utf8Check_rdropWhile {s : Str} (h : utf8Check s = true) : utf8Check (s.rdropWhile isspace) = true := by
  induction s using List.reverseRecOn with
  | nil => exact h
  | append_singleton s c ih =>
    rw [List.rdropWhile_concat]
    by_cases hc : isspace c = true
    · rw [if_pos hc]
      exact ih (utf8From_of_concat hc h)
    · rw [if_neg hc]
      exact h

/-- A command is one line of text. -/
theorem entry_normalized (command : Text) : Entry (normalized (bytes command)) := by
  have hmap : utf8Check ((bytes command).map fun c => if c = newline then space else c) = true :=
    (utf8From_map 0 _).trans (utf8Check_bytes command)
  refine ⟨fun hmem => ?_, utf8Check_rdropWhile (utf8Check_dropWhile hmap), fun c hc => ?_⟩
  · have hin := (List.dropWhile_sublist _).subset ((List.rdropWhile_prefix _ _).subset hmem)
    obtain ⟨c, -, hc⟩ := List.mem_map.mp hin
    split at hc
    · exact absurd hc (by decide)
    · rename_i hne
      exact hne hc
  · obtain ⟨ys, hys⟩ := List.getLast?_eq_some_iff.mp hc
    have hne : (normalized (bytes command)) ≠ [] := by rw [hys]; simp
    have hlast : ¬ isspace ((normalized (bytes command)).getLast hne) = true := List.rdropWhile_last_not isspace _ hne
    have : (normalized (bytes command)).getLast hne = c := by simp only [hys, List.getLast_concat]
    rw [this] at hlast
    exact Bool.eq_false_iff.mpr hlast

/-! ## The file -/

def historyFile : Path := [ascii ".pythonultra_history"]

theorem resolve_history (w : World) : w.resolve historyPath = historyFile := rfl

/-- The lines as they are written. -/
def written (stored : List Str) : List Str := stored.map (· ++ [newline])

theorem readLines_written {stored : List Str} (h : ∀ line ∈ stored, Entry line) :
    readLines (written stored).flatten = written stored := by
  induction stored with
  | nil => rfl
  | cons line stored ih =>
    have hline := readLinesFrom_line [] (written stored).flatten (h line List.mem_cons_self).noLf
    rw [ih fun l hl => h l (List.mem_cons_of_mem _ hl)] at hline
    simpa only [written, readLines, List.map_cons, List.flatten_cons, List.append_assoc, List.singleton_append, List.nil_append] using hline

theorem utf8Check_written {stored : List Str} (h : ∀ line ∈ stored, Entry line) : utf8Check (written stored).flatten = true := by
  induction stored with
  | nil => rfl
  | cons line stored ih =>
    have hline : utf8Check (line ++ [newline]) = true := by
      rw [utf8Check, utf8From_append (h line List.mem_cons_self).utf8]
      rfl
    rw [written, List.map_cons, List.flatten_cons, utf8Check, utf8From_append hline]
    exact ih fun l hl => h l (List.mem_cons_of_mem _ hl)

theorem rstripEol_entry {line : Str} (h : Entry line) : rstripEol (line ++ [newline]) = line := by
  rw [rstripEol, List.rdropWhile_concat, if_pos (by decide), List.rdropWhile_eq_self_iff]
  intro hne hlast
  have hspace := h.last _ (List.getLast?_eq_some_getLast hne)
  rcases (Bool.or_eq_true _ _).mp hlast with e | e
  · rw [of_decide_eq_true e] at hspace
    cases hspace
  · rw [of_decide_eq_true e] at hspace
    cases hspace

theorem map_rstripEol_written {stored : List Str} (h : ∀ line ∈ stored, Entry line) : (written stored).map rstripEol = stored := by
  rw [written, List.map_map]
  exact (List.map_congr_left fun line hl => rstripEol_entry (h line hl)).trans (List.map_id _)

theorem written_eq_nil {stored : List Str} (h : (written stored).flatten = []) : stored = [] := by
  cases stored with
  | nil => rfl
  | cons line stored => simp [written] at h

/-- The history holds these commands. -/
structure History (w : World) (stored : List Str) : Prop where
  sound : w.Sound
  file : w.fs.get historyFile ≠ some .dir
  text : w.contents historyFile = (written stored).flatten
  entries : ∀ line ∈ stored, Entry line

/-! ## Calls on a file that is there -/

section

variable {w : World} {R : Exc → World → Prop} {f : Path}

theorem contents_of_file {b : Bytes} (h : w.fs.get f = some (.file b)) : w.contents f = b := by
  unfold World.contents
  rw [h]

variable (hs : w.Sound)

include hs

/-- A file opened for append is there, with what it had. -/
theorem sound_openAppend {path : Str} {Q : Path → World → Prop} (hfile : w.fs.get (w.resolve path) ≠ some .dir)
    (hne : w.resolve path ≠ []) (hdir : w.fs.get (w.resolve path).dropLast = some .dir)
    (hQ : ∀ w', Changed w w' (w.resolve path) (some (.file (w.contents (w.resolve path)))) → Q (w.resolve path) w') :
    wp (openAppend path) Q R w := by
  refine wp_bind.mpr (sound_io hs fun w' hw => ?_)
  rw [wp_bind, wp_get, hw.fs, hw.resolve]
  rcases h : w.fs.get (w.resolve path) with _ | (_ | b)
  · obtain ⟨fs', hcreate⟩ := Fs.create_of_dir hne h hdir
    have hcontents : w.contents (w.resolve path) = [] := by
      unfold World.contents
      rw [h]
    rw [hcontents] at hQ
    rw [wp_bind]
    unfold wp onPath
    rw [hw.fs, hw.resolve, hcreate]
    exact hQ _ ⟨(Fs.create_ok hcreate).2.2.2, hw.cwd, hw.fault⟩
  · exact absurd h hfile
  · refine hQ w' ⟨fun q => ?_, hw.cwd, hw.fault⟩
    rw [hw.fs, contents_of_file h]
    split
    · rename_i hq
      rw [hq, h]
    · rfl

/-- A file opened for writing is there, and empty. -/
theorem sound_openOver {path : Str} {Q : Path → World → Prop} {b : Bytes} (hfile : w.fs.get (w.resolve path) = some (.file b))
    (hQ : ∀ w', Changed w w' (w.resolve path) (some (.file [])) → Q (w.resolve path) w') : wp (openWrite path) Q R w := by
  refine wp_bind.mpr (sound_io hs fun w' hw => ?_)
  have hne := w.fs.ne_root_of_file hfile
  have hcreate : ∃ fs', w.fs.create (w.resolve path) = .ok fs' := by
    unfold Fs.create
    rw [dif_neg (by rw [hfile]; simp), dif_pos ⟨hne, w.fs.get_parent hne (by rw [hfile]; simp)⟩]
    exact ⟨_, rfl⟩
  obtain ⟨fs', hcreate⟩ := hcreate
  rw [wp_bind, wp_get, wp_bind]
  unfold wp onPath
  rw [hw.fs, hw.resolve, hcreate]
  simp only [hfile, reduceCtorEq, if_false]
  exact hQ _ ⟨(Fs.create_ok hcreate).2.2.2, hw.cwd, hw.fault⟩

end

theorem sound_writes {f : Path} (lines : List Str) {w : World} {R : Exc → World → Prop} {Q : Unit → World → Prop} {c : Bytes}
    (hs : w.Sound) (hf : w.fs.get f = some (.file c))
    (hQ : ∀ w', Changed w w' f (some (.file (c ++ lines.flatten))) → Q () w') :
    wp (lines.foldlM (fun _ line => write f line) ()) Q R w := by
  induction lines generalizing w c with
  | nil =>
    refine hQ w ⟨fun q => ?_, rfl, rfl⟩
    rw [List.flatten_nil, List.append_nil]
    split
    · rename_i hq
      rw [hq, hf]
    · rfl
  | cons line lines ih =>
    rw [List.foldlM_cons]
    refine wp_bind.mpr (sound_write hs hf fun w₁ h₁ => ?_)
    refine ih (h₁.sound hs) h₁.here fun w₂ h₂ => hQ w₂ ?_
    rw [List.flatten_cons, ← List.append_assoc]
    exact h₁.again h₂

theorem sound_readAll {path : Str} {w : World} {R : Exc → World → Prop} {Q : List Str → World → Prop} {b : Bytes} (hs : w.Sound)
    (hf : w.fs.get (w.resolve path) = some (.file b)) (hutf8 : utf8Check b = true)
    (hQ : ∀ w', Quiet w w' → Q (readLines b) w') : wp (readAll path) Q R w := by
  refine wp_bind.mpr (sound_openRead hs hf fun w₁ h₁ => ?_)
  refine wp_closing.mpr (wp_bind.mpr (sound_io (h₁.sound hs) fun w₂ h₂ => ?_))
  have hb : w₂.contents (w.resolve path) = b := by
    rw [(h₁.trans h₂).contents]
    exact contents_of_file hf
  rw [wp_bind, wp_get]
  simp only [hb, hutf8, if_true]
  exact sound_io ((h₁.trans h₂).sound hs) fun w₃ h₃ => hQ w₃ ((h₁.trans h₂).trans h₃)

theorem sound_writeLines {path : Str} {lines : List Str} {w : World} {R : Exc → World → Prop} {Q : Unit → World → Prop} {b : Bytes}
    (hs : w.Sound) (hf : w.fs.get (w.resolve path) = some (.file b))
    (hQ : ∀ w', Changed w w' (w.resolve path) (some (.file lines.flatten)) → Q () w') : wp (writeLines path lines) Q R w := by
  refine wp_bind.mpr (sound_openOver hs hf fun w₁ h₁ => ?_)
  refine wp_closing.mpr (sound_writes lines (h₁.sound hs) h₁.here fun w₂ h₂ => ?_)
  have h : Changed w w₂ (w.resolve path) (some (.file lines.flatten)) := h₁.again h₂
  exact sound_io (h.sound hs) fun w₃ h₃ => hQ w₃ (h.quiet h₃)

/-! ## Appending -/

theorem history_of_changed {w w' : World} {stored stored' : List Str} (h : History w stored)
    (hc : Changed w w' historyFile (some (.file (written stored').flatten))) (hentries : ∀ line ∈ stored', Entry line) :
    History w' stored' :=
  ⟨hc.sound h.sound, by rw [hc.here]; exact nofun, contents_of_file hc.here, hentries⟩

/-- The part of `_history_append` that uses the file. -/
def appendLine (line : Str) : Call Unit :=
  ignoreOSError (do
    let target ← openAppend historyPath
    closing (write target (line ++ [newline])) io
    if (← stat historyPath).size > historyMaxBytes then
      let lines ← readAll historyPath
      writeLines historyPath (lines.drop (lines.length - historyKeepLines)))

theorem historyAppend_eq (line : Str) :
    historyAppend line = if normalized line = [] then pure () else appendLine (normalized line) := rfl

theorem append_line {w : World} {stored : List Str} (h : History w stored) {line : Str} (hline : Entry line) :
    wp (appendLine line) (fun _ w' => ∃ stored', History w' stored' ∧
      (stored' = stored ++ [line] ∨ stored' = (stored ++ [line]).drop ((stored ++ [line]).length - historyKeepLines)))
      (fun _ _ => False) w := by
  have hentries : ∀ l ∈ stored ++ [line], Entry l := fun l hl => by
    rcases List.mem_append.mp hl with hl | hl
    · exact h.entries l hl
    · rw [List.mem_singleton.mp hl]
      exact hline
  have htext : w.contents historyFile ++ (line ++ [newline]) = (written (stored ++ [line])).flatten := by
    rw [h.text, written, written, List.map_append, List.flatten_append]
    simp
  refine wp_tryCatch.mpr (wp_bind.mpr (sound_openAppend h.sound h.file nofun w.fs.get_root fun w₁ h₁ => ?_))
  refine wp_bind.mpr (wp_closing.mpr (sound_write (h₁.sound h.sound) h₁.here fun w₂ h₂ => ?_))
  have hwrote : Changed w w₂ historyFile (some (.file (written (stored ++ [line])).flatten)) := htext ▸ h₁.again h₂
  refine sound_io (hwrote.sound h.sound) fun w₃ h₃ => ?_
  have hwrote := hwrote.quiet h₃
  refine wp_bind.mpr (sound_stat (hwrote.sound h.sound) hwrote.here fun w₄ h₄ => ?_)
  have hwrote := hwrote.quiet h₄
  split
  · refine wp_bind.mpr (sound_readAll (hwrote.sound h.sound) hwrote.here (utf8Check_written hentries) fun w₅ h₅ => ?_)
    have hwrote := hwrote.quiet h₅
    refine sound_writeLines (hwrote.sound h.sound) hwrote.here fun w₆ h₆ => ?_
    rw [readLines_written hentries, written, List.length_map, ← List.map_drop] at h₆
    refine ⟨_, history_of_changed h (hwrote.again h₆) fun l hl => hentries l ?_, Or.inr rfl⟩
    exact List.mem_of_mem_drop hl
  · exact ⟨_, history_of_changed h hwrote hentries, Or.inl rfl⟩

/-- What the file holds after a command. -/
def Next (stored : List Str) (line : Str) (stored' : List Str) : Prop :=
  line = [] ∧ stored' = stored ∨ line ≠ [] ∧
    (stored' = stored ++ [line] ∨ stored' = (stored ++ [line]).drop ((stored ++ [line]).length - historyKeepLines))

theorem append_next {w : World} {stored : List Str} (h : History w stored) (command : Text) :
    wp (historyAppend (bytes command)) (fun _ w' => ∃ stored', History w' stored' ∧ Next stored (normalized (bytes command)) stored')
      (fun _ _ => False) w := by
  rw [historyAppend_eq]
  by_cases hempty : normalized (bytes command) = []
  · rw [if_pos hempty]
    exact ⟨stored, h, Or.inl ⟨hempty, rfl⟩⟩
  · rw [if_neg hempty]
    refine wp_mono (append_line h (entry_normalized command)) (fun _ w' hw => ?_) fun _ _ hno => hno
    obtain ⟨stored', hstored, hnext⟩ := hw
    exact ⟨stored', hstored, Or.inr ⟨hempty, hnext⟩⟩

/-- The commands that are kept, as they are kept. -/
def remembered (commands : List Text) : List Str := (commands.map fun c => normalized (bytes c)).filter (· ≠ [])

/-- An end of the commands that is all of them, or 64 at least. -/
structure Recent (stored all : List Str) : Prop where
  suffix : stored <:+ all
  enough : stored = all ∨ historyKeepLines ≤ stored.length

theorem recent_next {stored all stored' : List Str} {line : Str} (h : Recent stored all) (hnext : Next stored line stored') :
    Recent stored' (all ++ [line].filter (· ≠ [])) := by
  rcases hnext with ⟨rfl, rfl⟩ | ⟨hne, hnext⟩
  · rwa [List.filter_eq_nil_iff.mpr (by simp), List.append_nil]
  · rw [List.filter_eq_self.mpr (by simp [hne])]
    have hsuffix : stored ++ [line] <:+ all ++ [line] := by
      obtain ⟨before, hbefore⟩ := h.suffix
      exact ⟨before, by rw [← List.append_assoc, hbefore]⟩
    have hlen : (stored ++ [line]).length = stored.length + 1 := List.length_append
    rcases hnext with rfl | rfl
    · refine ⟨hsuffix, ?_⟩
      rcases h.enough with rfl | henough
      · exact Or.inl rfl
      · exact Or.inr (by omega)
    · refine ⟨(List.drop_suffix _ _).trans hsuffix, ?_⟩
      rw [List.length_drop]
      rcases Nat.lt_or_ge stored.length historyKeepLines with hfew | henough
      · left
        have hall : stored = all := h.enough.resolve_right (Nat.not_le.mpr hfew)
        have hnone : (stored ++ [line]).length - historyKeepLines = 0 := by omega
        rw [hnone, List.drop_zero, hall]
      · right
        omega

/-- The commands of a session. -/
def appendAll (commands : List Text) : Call Unit := commands.foldlM (fun _ command => historyAppend (bytes command)) ()

theorem run_history {w : World} (commands : List Text) {stored all : List Str} (h : History w stored) (hr : Recent stored all) :
    wp (appendAll commands) (fun _ w' => ∃ stored', History w' stored' ∧ Recent stored' (all ++ remembered commands)) (fun _ _ => False) w := by
  induction commands generalizing w stored all with
  | nil =>
    rw [show remembered [] = [] from rfl, List.append_nil]
    exact ⟨stored, h, hr⟩
  | cons command commands ih =>
    have hcons : remembered (command :: commands) = [normalized (bytes command)].filter (· ≠ []) ++ remembered commands := by
      rw [← List.singleton_append (l := commands), remembered, List.map_append, List.filter_append]
      rfl
    rw [hcons, ← List.append_assoc]
    refine wp_then (append_next h command) (fun _ w' hw => ?_) fun _ _ hno => hno
    obtain ⟨stored', hstored, hnext⟩ := hw
    exact ih hstored (recent_next hr hnext)

/-! ## The last lines -/

/-- What is given of the lines there are. -/
def pick (count : Option Int) (stored : List Str) : List Str := match count with
  | none => stored
  | some count => sliceFrom stored (-(max 0 count))

theorem pick_nil (count : Option Int) : pick count [] = [] := by
  cases count with
  | none => rfl
  | some count => exact List.drop_nil

theorem history_lines {w : World} {stored : List Str} (h : History w stored) (count : Option Int) :
    wp (historyLines count) (fun lines _ => lines = pick count stored) (fun _ _ => False) w := by
  refine wp_tryCatch.mpr (wp_bind.mpr ?_)
  rcases hfile : w.fs.get historyFile with _ | (_ | b)
  · -- no file, and so nothing is stored
    have hnone : stored = [] := written_eq_nil (by rw [← h.text, World.contents, hfile])
    refine wp_bind.mpr (wp_bind.mpr (sound_io h.sound fun w' hw => ?_))
    rw [wp_bind, wp_get, hw.fs, hw.resolve, resolve_history, hfile, hnone, pick_nil]
    exact rfl
  · exact absurd hfile h.file
  · have hb : b = (written stored).flatten := by rw [← h.text, contents_of_file hfile]
    refine sound_readAll h.sound hfile (hb ▸ utf8Check_written h.entries) fun w' _ => ?_
    rw [hb, readLines_written h.entries, map_rstripEol_written h.entries]
    rfl

theorem pick_some (count : Nat) (stored : List Str) (hcount : count ≠ 0) :
    pick (some count) stored = stored.drop (stored.length - count) := by
  have hneg : (-(max 0 (count : Int))) < 0 := by omega
  rw [pick, sliceFrom, if_pos hneg]
  congr 1
  omega

theorem pick_zero (stored : List Str) : pick (some (0 : Nat)) stored = stored := rfl

def emptied : World := ⟨Fs.empty, [], fun _ => none, honest_none, 0, []⟩

theorem history_emptied : History emptied [] := ⟨fun _ => rfl, nofun, rfl, nofun⟩

theorem history_after_one : ∃ w', appendAll [lit "ls"] emptied = (.ok (), w') ∧ History w' [ascii "ls"] := by
  obtain ⟨⟨⟩, w', hrun, stored, hstored, hnext⟩ := wp_returns (append_next history_emptied (lit "ls")) fun _ _ hno => hno
  have hone : stored = [ascii "ls"] := by
    rcases hnext with ⟨h, -⟩ | ⟨-, rfl | rfl⟩
    · exact absurd h (by decide)
    · decide
    · decide
  refine ⟨w', ?_, hone ▸ hstored⟩
  rw [appendAll, List.foldlM_cons]
  exact bind_of_ok hrun

end PythonUltra.Pyterm
