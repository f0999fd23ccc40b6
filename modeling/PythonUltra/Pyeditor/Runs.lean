/-
  PythonUltra.Pyeditor.Runs — what the programs of the editor can do to a session.

  A `Step` is one thing that may happen to the text: an edit, a file loaded, a new text,
  or something beside it (`Aside`: lines and cursor stay, keys are used up, the log
  grows). Every program, the key loop included, moves a session by such steps whether it
  returns, raises or waits (`within_run`); a fact about every state of every session is
  one about a step (`Step.valid`).
-/

import PythonUltra.Pyeditor.Keys
import PythonUltra.Pyeditor.Refine
import Mathlib.Logic.Relation

namespace PythonUltra.Pyeditor

open PythonUltra.Lib PythonUltra.Lib.Prog PythonUltra.Os

structure Aside (s s' : Session) : Prop where
  text : SameText s.ed s'.ed
  log : s.log <+: s'.log
  keys : s'.keys <:+ s.keys

instance : IsPreorder Session Aside where
  refl _ := ⟨⟨rfl, rfl, rfl⟩, List.prefix_refl _, List.suffix_refl _⟩
  trans _ _ _ h1 h2 := ⟨⟨h2.text.lines.trans h1.text.lines, h2.text.cy.trans h1.text.cy, h2.text.cx.trans h1.text.cx⟩,
    h1.log.trans h2.log, h2.keys.trans h1.keys⟩

/-- The methods that change the text or the cursor. -/
inductive Op where
  | show
  | move (dy dx : Int)
  | backspace
  | copySelection (cut : Bool)
  | find (query : Text)
  | insert (text : Text)
  | newline

def Op.apply (h : Host) : Op → Editor → Except Exc Editor
  | .show, e => .ok (ensureVisible h e)
  | .move dy dx, e => Pyeditor.move h dy dx e
  | .backspace, e => Pyeditor.backspace h e
  | .copySelection cut, e => Pyeditor.copySelection h cut e
  | .find query, e => findQuery h query e
  | .insert text, e => Pyeditor.insert h text e
  | .newline, e => Pyeditor.newline h e

/-- Calls of `insert` and `newline` are in the log. -/
def Op.Recorded (s : Session) : Op → Prop
  | .insert text => .insert text s.ed ∈ s.log
  | .newline => .newline s.ed ∈ s.log
  | _ => True

inductive Step (h : Host) : Session → Session → Prop where
  | aside {s s' : Session} (ha : Aside s s') : Step h s s'
  | op {s : Session} {e : Editor} (o : Op) (hr : o.Recorded s) (he : o.apply h s.ed = .ok e) :
      Step h s { s with ed := e }
  | load {s : Session} {e : Editor} (text : Text) (hr : .load text ∈ s.log) (hb : (bytes text).length ≤ maxEditBytes)
      (hn : text.count lf < maxEditLines) (hl : e.lines = linesOf text) (hy : e.cy = 0) (hx : e.cx = 0) :
      Step h s { s with ed := e }
  | new {s : Session} {e : Editor} (hl : e.lines = [[]]) (hy : e.cy = 0) (hx : e.cx = 0) : Step h s { s with ed := e }

def Moves (h : Host) : Session → Session → Prop := Relation.ReflTransGen (Step h)

instance (h : Host) : IsPreorder Session (Moves h) where
  refl _ := .refl
  trans _ _ _ := .trans

section

variable {α β : Type} {h : Host}

theorem Step.moves {s s' : Session} (hs : Step h s s') : Moves h s s' := .single hs

theorem Moves.keep {P : Session → Prop} (hstep : ∀ s s', Step h s s' → P s → P s') {s s' : Session}
    (hm : Moves h s s') (hs : P s) : P s' := by
  induction hm with
  | refl => exact hs
  | tail _ hst ih => exact hstep _ _ hst ih

/-! ## Programs beside the text -/

/-- What is beside the text, and a view, keep to the relation. -/
structure Calm (h : Host) (r : Session → Session → Prop) : Prop where
  aside : ∀ s s', Aside s s' → r s s'
  view : ∀ s, r s { s with ed := ensureVisible h s.ed }

theorem Calm.of {r : Session → Session → Prop} (hc : Calm h r) {x : Edit α} (hx : Within Aside x) : Within r x :=
  fun s => hc.aside _ _ (hx s)

theorem calm_moves : Calm h (Moves h) :=
  ⟨fun _ _ ha => (Step.aside ha).moves, fun _ => Step.moves (.op .show trivial rfl)⟩

theorem aside_call (x : Call α) : Within Aside (call x) := fun s => by
  unfold call
  rcases x s.world with ⟨_ | _, w⟩ <;> exact ⟨⟨rfl, rfl, rfl⟩, List.prefix_refl _, List.suffix_refl _⟩

theorem aside_update {f : Editor → Editor} (hf : ∀ e, SameText e (f e)) : Within Aside (update f) :=
  fun s => ⟨hf s.ed, List.prefix_refl _, List.suffix_refl _⟩

theorem aside_editor : Within Aside editor := Within.get.bind fun _ => .pure _

theorem aside_readKey : Within Aside readKey := fun s => by
  unfold readKey
  rcases hk : s.keys with _ | ⟨key, keys⟩
  · exact refl_of Aside s
  · exact ⟨⟨rfl, rfl, rfl⟩, List.prefix_refl _, by rw [hk]; exact List.suffix_cons key keys⟩

section

variable {r : Session → Session → Prop} [IsPreorder Session r]

theorem within_tryOS {x : Edit α} (hx : Within r x) : Within r (tryOS x) := by
  refine Within.tryCatch (hx.bind fun _ => .pure _) fun stop => ?_
  split
  · exact .pure _
  · exact .throw _

theorem within_tryExc {x : Edit α} (hx : Within r x) : Within r (tryExc x) := by
  refine Within.tryCatch (hx.bind fun _ => .pure _) fun stop => ?_
  split
  · exact .pure _
  · exact .throw _

theorem within_keyLoop {body : β → Edit (β ⊕ α)} (hb : ∀ b, Within r (body b)) (b : β) : Within r (keyLoop body b) :=
  fun s => Within.loop hb _ b s

end

theorem aside_exists (path : Text) : Within Aside (exists_ path) := aside_call _

theorem aside_numbered (folder stem suffix : Text) (numbers : List Nat) :
    Within Aside (numbered folder stem suffix numbers) := by
  induction numbers with
  | nil => exact .throw _
  | cons n rest ih => exact (aside_exists _).bind fun _ => .ite (.pure _) ih

theorem aside_unusedFilename (filename : Text) : Within Aside (unusedFilename filename) :=
  (aside_exists _).bind fun _ => .ite (.pure _) (aside_numbered _ _ _ _)

theorem aside_candidateOf (filename : Option Text) : Within Aside (candidateOf filename) :=
  aside_editor.bind fun _ => .pure _

theorem aside_setMsg (msg : Msg) : Within Aside (update (setMsg msg)) := aside_update fun _ => ⟨rfl, rfl, rfl⟩

theorem aside_setShift (on : Bool) : Within Aside (update (setShift on)) := aside_update fun _ => ⟨rfl, rfl, rfl⟩

theorem aside_renameText (old new : Text) : Within Aside (renameText old new) := aside_call _

theorem aside_moveAside (candidate : Text) : Within Aside (moveAside candidate) :=
  (aside_exists candidate).bind fun _ =>
    .ite ((aside_unusedFilename _).bind fun _ => (aside_renameText _ _).bind fun _ => .pure _) (.pure _)

theorem aside_setTemporary (t : Option Text) : Within (OnFst Aside) (setTemporary t) := fun s => refl_of Aside s.1

theorem aside_publish (temporary candidate : Text) (backup : Option Text) :
    Within (OnFst Aside) (publish temporary candidate backup) := by
  refine Within.tryCatch ((aside_renameText _ _).onFst.bind fun _ => aside_setTemporary _) fun stop => ?_
  split
  · exact (aside_renameText _ _).onFst.bind fun _ => .throw _
  · exact .throw _

theorem aside_dropBackup (backup : Option Text) : Within Aside (dropBackup backup) := by
  cases backup with
  | none => exact .pure _
  | some backup =>
    refine (within_tryOS (aside_call _)).bind fun r => ?_
    cases r with
    | ok => exact .pure _
    | error => exact aside_setMsg _

theorem aside_saveBody (candidate : Text) : Within (OnFst Aside) (saveBody candidate) :=
  Within.get.bind fun _ => (aside_call _).onFst.bind fun _ => (aside_call _).onFst.bind fun _ =>
    (aside_unusedFilename _).onFst.bind fun _ => (aside_setTemporary _).bind fun _ => (aside_call _).onFst.bind fun _ =>
    (aside_moveAside _).onFst.bind fun _ => (aside_publish _ _ _).bind fun _ =>
    (aside_update (f := setSaved candidate) fun _ => ⟨rfl, rfl, rfl⟩).onFst.bind fun _ => (aside_dropBackup _).onFst.bind fun _ => .pure _

theorem aside_dropTemporary : Within (OnFst Aside) dropTemporary := by
  refine Within.get.bind fun s => ?_
  split
  · exact .pure _
  · exact (within_tryOS (aside_call _)).onFst.bind fun _ => .pure _

theorem aside_saveFile (filename : Option Text) : Within Aside (saveFile filename) := by
  refine aside_editor.bind fun e => .ite ((aside_setMsg _).bind fun _ => .pure _) ?_
  refine (aside_candidateOf filename).bind fun candidate => .ite ((aside_setMsg _).bind fun _ => .pure _) ?_
  refine Within.withVar (Within.closing (Within.tryCatch (aside_saveBody candidate) fun stop => ?_) aside_dropTemporary) _
  split
  · exact (aside_setMsg _).onFst.bind fun _ => .pure _
  · exact .throw _

theorem aside_execScript (code : Text) : Within Aside (execScript h code) := fun _ =>
  ⟨⟨rfl, rfl, rfl⟩, List.prefix_refl _, List.suffix_refl _⟩

theorem aside_runSource (filename : Text) : Within Aside (runSource h filename) :=
  Within.get.bind fun _ => (aside_call _).bind fun _ => (aside_call _).bind fun _ =>
    .ite (.throw _) (aside_execScript _)

theorem aside_ensureSaved : Within Aside ensureSaved := by
  have hunsaved : Within Aside unsaved :=
    aside_editor.bind fun _ => .ite (.pure _) ((aside_exists _).bind fun _ => .pure _)
  exact hunsaved.bind fun _ => .ite (aside_saveFile _) (.pure _)

theorem aside_runCode : Within Aside (runCode h) := by
  refine aside_editor.bind fun e => .ite ((aside_setMsg _).bind fun _ => .pure _) ?_
  refine .ite ((aside_setMsg _).bind fun _ => .pure _) ?_
  refine aside_ensureSaved.bind fun _ => .ite ?_ (.pure _)
  refine aside_editor.bind fun e => (within_tryExc (aside_runSource _)).bind fun r => ?_
  cases r with
  | ok => exact (aside_setMsg _).bind fun _ => .pure _
  | error => exact (aside_setMsg _).bind fun _ => .pure _

/-! ## Loading -/

theorem wp_call {x : Call α} {Q : α → Session → Prop} {R : Stop → Session → Prop} {s : Session} :
    wp (call x) Q R s ↔
      wp x (fun a w => Q a { s with world := w }) (fun e w => R (.raised e) { s with world := w }) s.world := by
  simp only [wp, call]
  rcases x s.world with ⟨_ | _, w⟩ <;> rfl

theorem wp_record_then {c : Change} {k : Unit → Edit α} {Q : α → Session → Prop} {R : Stop → Session → Prop}
    {s : Session} : wp (record c >>= k) Q R s ↔ wp (k ()) Q R { s with log := s.log ++ [c] } := wp_bind

theorem wp_update_then {f : Editor → Editor} {k : Unit → Edit α} {Q : α → Session → Prop} {R : Stop → Session → Prop}
    {s : Session} : wp (update f >>= k) Q R s ↔ wp (k ()) Q R { s with ed := f s.ed } := wp_bind

/-- `except OSError`: the handler has the error, everything else goes by. -/
theorem wp_tryOS {x : Edit α} {Q : Except Errno α → Session → Prop} {R : Stop → Session → Prop} {s : Session}
    (hx : wp x (fun a => Q (.ok a)) (fun stop s' => (∀ e, Q (.error e) s') ∧ R stop s') s) : wp (tryOS x) Q R s := by
  refine wp_tryCatch.mpr (wp_bind.mpr (wp_mono hx (fun _ _ h => h) fun stop s' h => ?_))
  split
  · exact h.1 _
  · exact h.2

theorem wp_tryExc {x : Edit α} {Q : Except Exc α → Session → Prop} {R : Stop → Session → Prop} {s : Session}
    (hx : wp x (fun a => Q (.ok a)) (fun stop s' => (∀ e, Q (.error e) s') ∧ R stop s') s) : wp (tryExc x) Q R s := by
  refine wp_tryCatch.mpr (wp_bind.mpr (wp_mono hx (fun _ _ h => h) fun stop s' h => ?_))
  split
  · exact h.1 _
  · exact h.2

/-- What `load_file` takes for a text is no longer in bytes or lines than it allows. -/
theorem wp_readSource {candidate : Text} {s : Session} {n : Node}
    (hn : s.world.fs.get (s.world.resolve (bytes candidate)) = some n) :
    wp (readSource candidate (statOf n).size)
      (fun r s' => Aside s s' ∧
        ∀ text, r = some text → (bytes text).length ≤ maxEditBytes ∧ text.count lf < maxEditLines)
      (fun _ s' => Aside s s') s := by
  have hworld : ∀ w, Aside s { s with world := w } :=
    fun _ => ⟨⟨rfl, rfl, rfl⟩, List.prefix_refl _, List.suffix_refl _⟩
  unfold readSource
  split
  · exact ⟨refl_of Aside s, by simp⟩
  rename_i hsize
  rw [wp_bind, wp_get, wp_bind, wp_call]
  refine (Pyperm.within_requireRead _ _).wp (fun _ w₁ hw₁ => ?_) fun _ w₁ _ => hworld w₁
  rw [wp_bind, wp_call]
  refine wp_readText (fun b t w₂ _ hb ht => ?_) fun _ w₂ _ => hworld w₂
  have hb' : n = .file b := by
    rw [hw₁.fs, hw₁.resolve, hn] at hb
    exact Option.some.inj hb
  have hbytes := bytes_of_decode ht
  have hlen : t.length ≤ maxEditBytes := by
    have := length_le_bytes t
    rw [hbytes] at this
    rw [hb'] at hsize
    exact Nat.le_trans this (Nat.le_of_not_lt hsize)
  rw [List.take_of_length_le (Nat.le_succ_of_le hlen)]
  split
  · exact ⟨hworld w₂, by simp⟩
  · rename_i hfit
    refine ⟨hworld w₂, fun text htext => ?_⟩
    obtain rfl : t = text := by simpa using htext
    rw [hbytes]
    rw [hb'] at hsize
    exact ⟨Nat.le_of_not_lt hsize, by omega⟩

theorem within_loadFile (filename : Option Text) (allowNew : Bool) : Within (Moves h) (loadFile filename allowNew) := by
  intro s
  have hupdate : ∀ {s' : Session} {f : Editor → Editor}, (∀ e, SameText e (f e)) → Moves h s s' →
      Moves h s { s' with ed := f s'.ed } := fun hf hm => hm.tail (.aside (aside_update hf _))
  have hfailed : ∀ msg e, SameText e (openFailed allowNew msg e) := fun _ _ => ⟨rfl, rfl, rfl⟩
  refine wp_run (P := Moves h s) ?_
  unfold loadFile
  refine wp_then ((aside_candidateOf filename).wp (fun _ _ ha => ha) fun _ _ ha => ha) (fun candidate s₁ ha₁ => ?_)
    fun _ _ ha => (Step.aside ha).moves
  have hm₁ : Moves h s s₁ := (Step.aside ha₁).moves
  split
  · exact hupdate (f := setMsg _) (fun _ => ⟨rfl, rfl, rfl⟩) hm₁
  refine wp_bind.mpr (wp_tryOS (wp_call.mpr (wp_stat (fun n w₂ hw₂ hn => ?_) fun e w₂ hw₂ _ => ?_)))
  · -- the file is there
    have hm₂ : Moves h s { s₁ with world := w₂ } :=
      hm₁.tail (.aside ⟨⟨rfl, rfl, rfl⟩, List.prefix_refl _, List.suffix_refl _⟩)
    have hn₂ : w₂.fs.get (w₂.resolve (bytes candidate)) = some n := by rw [hw₂.fs, hw₂.resolve]; exact hn
    refine wp_bind.mpr (wp_tryExc (wp_mono (wp_readSource (s := { s₁ with world := w₂ }) hn₂) (fun r s₃ hr => ?_)
      fun stop s₃ ha => ?_))
    · have hm₃ : Moves h s s₃ := hm₂.tail (.aside hr.1)
      cases r with
      | none => exact hupdate (hfailed _) hm₃
      | some text =>
        obtain ⟨hb, hcount⟩ := hr.2 text rfl
        have hm₄ : Moves h s { s₃ with log := s₃.log ++ [.load text] } :=
          hm₃.tail (.aside ⟨⟨rfl, rfl, rfl⟩, List.prefix_append _ _, List.suffix_refl _⟩)
        have hm₅ := hm₄.tail (.load (h := h) (e := setBuffer candidate (linesOf text) false s₃.ed) text (by simp) hb
          hcount rfl rfl rfl)
        refine wp_record_then.mpr (wp_update_then.mpr (wp_bind.mpr ?_))
        refine wp_then ((aside_call _).wp (fun _ _ ha => ha) fun _ _ ha => ha) (fun _ s₆ ha₆ => ?_)
          fun _ _ ha => hm₅.tail (.aside ha)
        exact hupdate (f := setMsg _) (fun _ => ⟨rfl, rfl, rfl⟩) (hm₅.tail (.aside ha₆))
    · have hm₃ : Moves h s s₃ := hm₂.tail (.aside ha)
      exact ⟨fun e => hupdate (hfailed _) hm₃, hm₃⟩
  · have hm₂ : Moves h s { s₁ with world := w₂ } :=
      hm₁.tail (.aside ⟨⟨rfl, rfl, rfl⟩, List.prefix_refl _, List.suffix_refl _⟩)
    refine ⟨fun e => ?_, hm₂⟩
    show wp (ite _ _ _) _ _ _
    split
    · exact hm₂.tail (.new rfl rfl rfl)
    · exact hupdate (hfailed _) hm₂

theorem within_startNew (filename : Text) : Within (Moves h) (startNew filename) := by
  have hmsg : ∀ msg : Msg, Within (Moves h) (update (setMsg msg)) := fun msg => (calm_moves.of (aside_setMsg msg))
  have hnew : Within (Moves h) (update fun e => setMsg (.text "New") (setBuffer (strip filename) [[]] true e)) :=
    fun s => Step.moves (s := s) (.new rfl rfl rfl)
  unfold startNew
  refine .ite ((hmsg _).bind fun _ => .pure _) ((calm_moves.of (aside_exists _)).bind fun _ => .ite ?_ ?_)
  · exact (hmsg _).bind fun _ => .pure _
  · exact hnew.bind fun _ => .pure _

/-! ## Menus and prompts -/

theorem aside_popup {α : Type} (items : List α) : Within Aside (popup items) := by
  refine .ite (.pure _) (within_keyLoop (fun selected => ?_) 0)
  unfold popupTurn
  refine aside_readKey.bind fun key => ?_
  split <;> exact .pure _

section

variable {r : Session → Session → Prop} [IsPreorder Session r]

theorem within_applyFont (hc : Calm h r) (name : Font) : Within r (update (applyFont h name)) := fun s => by
  have hmetrics : ∀ w t : Nat, r s { s with ed := { s.ed with fontW := w, fontH := t, fontName := name } } :=
    fun _ _ => hc.aside _ _ ⟨⟨rfl, rfl, rfl⟩, List.prefix_refl _, List.suffix_refl _⟩
  have hmsg : ∀ e : Editor, r { s with ed := e } { s with ed := { e with msg := .font name } } :=
    fun _ => hc.aside _ _ ⟨⟨rfl, rfl, rfl⟩, List.prefix_refl _, List.suffix_refl _⟩
  have hview : ∀ w t : Nat, r s { s with ed := ensureVisible h { s.ed with fontW := w, fontH := t, fontName := name } } :=
    fun w t => trans_of r (hmetrics w t)
      (hc.view { s with ed := { s.ed with fontW := w, fontH := t, fontName := name } })
  exact trans_of r (hview _ _) (hmsg _)

theorem within_styleMenu (hc : Calm h r) : Within r (styleMenu h) := by
  unfold styleMenu
  refine (hc.of (aside_popup _)).bind fun action => ?_
  split
  · refine (hc.of (aside_popup _)).bind fun choice => ?_
    split
    · exact hc.of (aside_update fun _ => ⟨rfl, rfl, rfl⟩)
    · exact .pure _
  · refine (hc.of (aside_popup _)).bind fun choice => ?_
    split
    · exact within_applyFont hc _
    · exact .pure _
  · exact .pure _

/-- A prompt leaves the text alone but for the view. -/
theorem within_inputBar (hc : Calm h r) (initial : Text) : Within r (inputBar h initial) := by
  refine within_keyLoop (fun text => ?_) initial
  have htoggle : Within r (update fun e => setShift (!e.shiftActive) e) := hc.of (aside_update fun _ => ⟨rfl, rfl, rfl⟩)
  have halpha : Within r (update pressAlpha) := hc.of (aside_update fun _ => ⟨rfl, rfl, rfl⟩)
  have hdraw : Within r (draw h) := hc.view
  unfold inputTurn
  refine hdraw.bind fun _ => (hc.of aside_readKey).bind fun key => (hc.of aside_editor).bind fun e => ?_
  refine .ite (.pure _) (.ite (.pure _) (.ite ?_ (.ite ?_ (.ite ?_ (.ite ?_ (.ite (.pure _) ?_))))))
  · exact htoggle.bind fun _ => .pure _
  · exact halpha.bind fun _ => .pure _
  · exact (hc.of (aside_setShift _)).bind fun _ => (hc.of (aside_popup _)).bind fun _ => .pure _
  · exact (hc.of (aside_setShift _)).bind fun _ => (within_styleMenu hc).bind fun _ => .pure _
  · exact (hc.of (aside_setShift _)).bind fun _ => .pure _

end

/-! ## The key loop -/

theorem within_edit (o : Op) (hr : ∀ s, o.Recorded s) : Within (Moves h) (edit (o.apply h)) := fun s => by
  unfold edit
  split
  · rename_i e he
    exact Step.moves (.op o (hr s) he)
  · exact refl_of (Moves h) s

theorem within_findText : Within (Moves h) (findText h) := by
  unfold findText
  refine (calm_moves.of aside_editor).bind fun e => (within_inputBar calm_moves _).bind fun answer => ?_
  split
  · exact .ite (within_edit (.find _) fun _ => trivial) (.pure _)
  · exact .pure _

theorem within_recorded (c : Editor → Change) (o : Op) (ho : ∀ s : Session, c s.ed ∈ s.log → o.Recorded s) :
    Within (Moves h) (do record (c (← editor)); edit (o.apply h)) := fun s => by
  have hrec : Moves h s { s with log := s.log ++ [c s.ed] } :=
    Step.moves (.aside ⟨⟨rfl, rfl, rfl⟩, List.prefix_append _ _, List.suffix_refl _⟩)
  refine trans_of (Moves h) hrec ?_
  show Moves h _ ((edit (o.apply h)) { s with log := s.log ++ [c s.ed] }).2
  unfold edit
  split
  · rename_i e he
    exact Step.moves (.op o (ho _ (by simp)) he)
  · exact refl_of (Moves h) _

theorem within_insertText (text : Text) : Within (Moves h) (insertText h text) :=
  within_recorded (.insert text) (.insert text) fun _ hs => hs

theorem within_startLine : Within (Moves h) (startLine h) := within_recorded .newline .newline fun _ hs => hs

theorem within_catalogMenu : Within (Moves h) (catalogMenu h) := by
  unfold catalogMenu
  refine (calm_moves.of (aside_popup _)).bind fun module => ?_
  split
  · refine .ite ((calm_moves.of (aside_popup _)).bind fun member => ?_) (.pure _)
    split
    · exact .ite (within_insertText _) (.pure _)
    · exact .pure _
  · exact .pure _

theorem aside_confirmDiscard : Within Aside confirmDiscard :=
  aside_editor.bind fun _ => .ite (.pure _) ((aside_popup _).bind fun _ => .pure _)

theorem aside_newDefault : Within Aside newDefault := by
  unfold newDefault
  refine aside_editor.bind fun e => ?_
  exact aside_unusedFilename _

theorem within_insertSymbol {mode : Editor → Editor} (hm : ∀ e, SameText e (mode e)) :
    Within (Moves h) (insertSymbol h mode) := by
  unfold insertSymbol
  refine (calm_moves.of (aside_popup _)).bind fun symbol => ?_
  split
  · exact (within_insertText _).bind fun _ => (calm_moves.of (aside_update hm))
  · exact .pure _

theorem within_functionKey (key : Key) : Within (Moves h) (functionKey h key) := by
  have htoggle : Within (Moves h) (update fun e => setShift (!e.shiftActive) e) :=
    calm_moves.of (aside_update fun _ => ⟨rfl, rfl, rfl⟩)
  have halpha : Within (Moves h) (update pressAlpha) := calm_moves.of (aside_update fun _ => ⟨rfl, rfl, rfl⟩)
  unfold functionKey
  split
  · exact (calm_moves.of aside_runCode).bind fun _ => .ite (.pure _) (.pure _)
  · exact (calm_moves.of (aside_saveFile _)).bind fun _ => .pure _
  · refine (calm_moves.of aside_confirmDiscard).bind fun _ => .ite ?_ (.pure _)
    refine (calm_moves.of aside_newDefault).bind fun _ => (within_inputBar calm_moves _).bind fun name => ?_
    split
    · exact .ite ((within_startNew _).bind fun _ => .pure _) (.pure _)
    · exact .pure _
  · refine (calm_moves.of aside_confirmDiscard).bind fun _ => .ite ?_ (.pure _)
    refine (calm_moves.of aside_editor).bind fun _ => (within_inputBar calm_moves _).bind fun name => ?_
    split
    · exact .ite ((within_loadFile _ _).bind fun _ => .pure _) (.pure _)
    · exact .pure _
  · exact within_findText.bind fun _ => .pure _
  · refine (calm_moves.of (aside_setShift _)).bind fun _ => (within_insertSymbol ?_).bind fun _ => .pure _
    exact fun _ => ⟨rfl, rfl, rfl⟩
  · exact htoggle.bind fun _ => .pure _
  · exact halpha.bind fun _ => .pure _
  · exact .pure _

theorem within_shiftedKey (key : Key) : Within (Moves h) (shiftedKey h key) := by
  have hshift : ∀ on, Within (Moves h) (update (setShift on)) := fun on => (calm_moves.of (aside_setShift on))
  unfold shiftedKey
  refine (calm_moves.of aside_editor).bind fun e => .ite (.pure _) (.ite ?_ (.ite ?_ (.ite ?_ (.ite ?_ (.ite ?_ (.pure _))))))
  · exact (hshift _).bind fun _ => (within_styleMenu calm_moves).bind fun _ => .pure _
  · refine (calm_moves.of (aside_update ?_)).bind fun _ => .pure _
    exact fun _ => ⟨rfl, rfl, rfl⟩
  · exact (within_insertText _).bind fun _ => (hshift _).bind fun _ => .pure _
  · exact within_catalogMenu.bind fun _ => (hshift _).bind fun _ => .pure _
  · exact (within_insertSymbol fun _ => ⟨rfl, rfl, rfl⟩).bind fun _ => (hshift _).bind fun _ => .pure _

theorem within_visualKey (key : Key) : Within (Moves h) (visualKey h key) := by
  unfold visualKey
  refine (calm_moves.of aside_editor).bind fun e => .ite (.pure _) (.ite ?_ (.ite ?_ (.pure _)))
  · exact (within_edit (.copySelection false) fun _ => trivial).bind fun _ => .pure _
  · exact (within_edit (.copySelection true) fun _ => trivial).bind fun _ => .pure _

theorem within_typeKey (key : Key) : Within (Moves h) (typeKey h key) := by
  have hmode : ∀ mode, Within (Moves h) (update (setMode mode)) := fun mode =>
    (calm_moves.of (aside_update fun _ => ⟨rfl, rfl, rfl⟩))
  unfold typeKey
  refine (calm_moves.of aside_editor).bind fun e => ?_
  split
  · exact .pure _
  · refine (calm_moves.of aside_editor).bind fun e' => ?_
    have htyped : ∀ text, Within (Moves h) (do if (← editor).mode = .insert then insertText h text) := fun _ =>
      (calm_moves.of aside_editor).bind fun _ => .ite (within_insertText _) (.pure _)
    exact .ite ((hmode _).bind fun _ => htyped _) (htyped _)

theorem within_plainKey (key : Key) : Within (Moves h) (plainKey h key) := by
  have hmove : ∀ dy dx, Within (Moves h) (edit (move h dy dx)) := fun dy dx =>
    within_edit (.move dy dx) fun _ => trivial
  have hmode : ∀ mode, Within (Moves h) (update (setMode mode)) := fun mode =>
    (calm_moves.of (aside_update fun _ => ⟨rfl, rfl, rfl⟩))
  unfold plainKey
  split
  · exact (hmove _ _).bind fun _ => .pure _
  · exact (hmove _ _).bind fun _ => .pure _
  · exact (hmove _ _).bind fun _ => .pure _
  · exact (hmove _ _).bind fun _ => .pure _
  · refine (calm_moves.of (aside_update ?_)).bind fun _ => .pure _
    exact fun _ => ⟨rfl, rfl, rfl⟩
  · refine (calm_moves.of aside_editor).bind fun _ => .ite ?_ (.pure _)
    exact (within_edit .backspace fun _ => trivial).bind fun _ => .pure _
  · refine (calm_moves.of aside_editor).bind fun _ => .ite ?_ (.pure _)
    exact (hmode _).bind fun _ => within_startLine.bind fun _ => .pure _
  · exact (calm_moves.of aside_confirmDiscard).bind fun _ => .ite (.pure _) (.pure _)
  · exact (within_typeKey _).bind fun _ => .pure _

theorem within_turn : Within (Moves h) (turn h ()) := by
  unfold turn
  have hshift : Within (Moves h) (update (setShift false)) := (calm_moves.of (aside_setShift _))
  have hdraw : Within (Moves h) (draw h) := calm_moves.view
  refine hdraw.bind fun _ => (calm_moves.of aside_readKey).bind fun key => ?_
  have hother : Within (Moves h) (otherKey h key) := by
    unfold otherKey
    refine (within_shiftedKey key).bind fun _ => .ite (.pure _) ?_
    refine (within_visualKey key).bind fun _ => .ite (.pure _) ?_
    refine (within_plainKey key).bind fun outcome => ?_
    split
    · exact .pure _
    · exact hshift.bind fun _ => .pure _
  refine .ite (hshift.bind fun _ => ?_) ?_
  · refine .ite ((within_functionKey key).bind fun outcome => ?_) (hother.bind fun outcome => ?_)
    · cases outcome <;> exact .pure _
    · cases outcome <;> exact .pure _
  · refine .ite ((within_functionKey key).bind fun outcome => ?_) (hother.bind fun outcome => ?_)
    · cases outcome <;> exact .pure _
    · cases outcome <;> exact .pure _

theorem within_run : Within (Moves h) (run h) := within_keyLoop (fun _ => within_turn) ()

/-! ## The invariant -/

theorem Op.valid (o : Op) {e e' : Editor} (hv : Valid e) (he : o.apply h e = .ok e') : Valid e' := by
  -- the specifications give an outcome, and it is this one
  have only : ∀ {x : Except Exc Editor} {e₁ : Editor}, x = .ok e₁ → x = .ok e' → Valid e₁ → Valid e' := by
    rintro x e₁ rfl he hv₁
    obtain rfl := Except.ok.inj he
    exact hv₁
  cases o with
  | «show» => exact only rfl he (ensureVisible_valid h hv.clean)
  | move dy dx =>
    obtain ⟨e₁, h₁, hoff⟩ := move_spec (h := h) hv dy dx
    exact only h₁ he hoff.valid
  | backspace =>
    obtain ⟨e₁, hv₁, h₁, -⟩ := backspace_spec (h := h) hv
    exact only h₁ he hv₁
  | copySelection cut => exact copySelection_valid hv he
  | find query =>
    obtain ⟨e₁, h₁, hoff⟩ := findQuery_spec (h := h) hv query
    exact only h₁ he hoff.valid
  | insert text =>
    obtain ⟨e₁, hv₁, h₁, -⟩ := insert_spec (h := h) hv text
    exact only h₁ he hv₁
  | newline =>
    obtain ⟨e₁, hv₁, h₁, -⟩ := newline_spec (h := h) hv
    exact only h₁ he hv₁

theorem place_start {lines : List Text} (h : lines ≠ []) : Place lines 0 0 := by
  obtain ⟨l, ls, rfl⟩ := List.exists_cons_of_ne_nil h
  exact ⟨l, rfl, Nat.zero_le _⟩

theorem Step.valid {s s' : Session} (hs : Step h s s') (hv : Valid s.ed) : Valid s'.ed := by
  cases hs with
  | aside ha => exact ha.text.valid hv
  | op o _ he => exact o.valid hv he
  | load text _ _ _ hl hy hx =>
    have hlines : linesOf text = (normalize text).splitOn lf := by
      unfold linesOf
      rw [replace_line_ends]
    refine ⟨by rw [hl, hlines]; exact clean_linesOf text, ?_⟩
    rw [hl, hlines, hy, hx]
    exact place_start (List.splitOn_ne_nil lf _)
  | new hl hy hx =>
    refine ⟨by rw [hl]; exact clean_cons.mpr ⟨cleanLine_nil, clean_nil⟩, ?_⟩
    rw [hl, hy, hx]
    exact place_start (List.cons_ne_nil _ _)

theorem Moves.valid {s s' : Session} (hm : Moves h s s') (hv : Valid s.ed) : Valid s'.ed :=
  hm.keep (P := fun t => Valid t.ed) (fun _ _ hst => hst.valid) hv

/-- A find, prompt and search, moves the cursor at most. -/
theorem findText_offOnly {s : Session} (hv : Valid s.ed) : OffOnly s.ed (findText h s).2.ed := by
  -- the relation: valid editors keep their lines and stay valid
  let r : Session → Session → Prop := fun s s' => Valid s.ed → OffOnly s.ed s'.ed
  have : IsPreorder Session r :=
    { refl := fun _ hv => ⟨rfl, hv⟩
      trans := fun _ _ _ h1 h2 hv => ⟨(h2 (h1 hv).valid).lines.trans (h1 hv).lines, (h2 (h1 hv).valid).valid⟩ }
  have hc : Calm h r :=
    ⟨fun _ _ ha hv => ha.text.offOnly hv, fun _ hv => (ensureVisible_same h hv.place).offOnly hv⟩
  have hedit : ∀ query, Within r (edit (findQuery h query)) := fun query s hv => by
    obtain ⟨e', he, hoff⟩ := findQuery_spec (h := h) hv query
    unfold edit
    rw [he]
    exact hoff
  have hfind : Within r (findText h) := by
    unfold findText
    refine (hc.of aside_editor).bind fun e => (within_inputBar hc _).bind fun answer => ?_
    split
    · exact .ite (hedit _) (.pure _)
    · exact .pure _
  exact hfind s hv

/-- Editing is editing of the flat text: insertions, deletions and line ends at the cursor,
and cursor moves; and no method, loading and key included, leaves the valid editors. -/
theorem edits_refine_text (h : Host) {s : Session} (hv : Valid s.ed) :
    (∀ t, ¬ sizeRefused s.ed (normalize t) → ∃ (e' : Editor) (hv' : Valid e'), insert h t s.ed = .ok e' ∧
      flat e' hv' = (flat s.ed hv).insert (normalize t)) ∧
    (∃ (e' : Editor) (hv' : Valid e'), backspace h s.ed = .ok e' ∧ flat e' hv' = (flat s.ed hv).backspace) ∧
    (s.ed.lines.length < maxEditLines → ∃ (e' : Editor) (hv' : Valid e'), newline h s.ed = .ok e' ∧
      flat e' hv' = (flat s.ed hv).insert (lf :: indentAfter (beforeCursor s.ed))) ∧
    (∀ dy dx, ∃ e', move h dy dx s.ed = .ok e' ∧ OffOnly s.ed e') ∧
    (∀ query, ∃ e', findQuery h query s.ed = .ok e' ∧ OffOnly s.ed e') ∧
    OffOnly s.ed (findText h s).2.ed ∧
    (∀ (o : Op) e', o.apply h s.ed = .ok e' → Valid e') ∧
    (∀ filename allowNew, Valid (loadFile filename allowNew s).2.ed) ∧
    (∀ filename, Valid (startNew filename s).2.ed) ∧
    Valid (run h s).2.ed := by
  refine ⟨fun t ht => ?_, backspace_spec hv, fun hl => ?_, move_spec hv, findQuery_spec hv, findText_offOnly hv,
    fun o _ he => o.valid hv he, fun f a => (within_loadFile (h := h) f a s).valid hv,
    fun f => (within_startNew (h := h) f s).valid hv, (within_run (h := h) s).valid hv⟩
  · obtain ⟨e', hv', he, hflat⟩ := insert_spec (h := h) hv t
    rw [if_neg fun hn => ht hn.2] at hflat
    exact ⟨e', hv', he, hflat⟩
  · obtain ⟨e', hv', he, hflat⟩ := newline_spec (h := h) hv
    rw [if_neg (Nat.not_le.mpr hl)] at hflat
    exact ⟨e', hv', he, hflat⟩

/-- The editor of a new file. -/
theorem edits_refine_text_blank :
    ∃ (e' : Editor) (hv : Valid (blank [] .githubDark)) (hv' : Valid e'),
      insert idleHost (lit "a") (blank [] .githubDark) = .ok e' ∧
      flat e' hv' = (flat (blank [] .githubDark) hv).insert (normalize (lit "a")) := by
  have hv : Valid (blank [] .githubDark) := ⟨clean_cons.mpr ⟨cleanLine_nil, clean_nil⟩, place_start (List.cons_ne_nil _ _)⟩
  have h := (edits_refine_text idleHost
    (s := ⟨⟨Fs.empty, [], fun _ => none, nofun, 0, []⟩, ∅, blank [] .githubDark, [], []⟩) hv).1 (lit "a") (by decide)
  obtain ⟨e', hv', he, hflat⟩ := h
  exact ⟨e', hv, hv', he, hflat⟩

/-- As many empty lines as the editor takes. -/
def fullEditor : Editor := { blank [] .githubDark with lines := List.replicate maxEditLines [] }

theorem fullEditor_valid : Valid fullEditor := by
  refine ⟨fun l hl => ?_, place_start ?_⟩
  · rw [List.eq_of_mem_replicate hl]
    exact cleanLine_nil
  · exact List.ne_nil_of_length_pos (by rw [fullEditor, List.length_replicate]; decide)

/-- There a new line is not put in. -/
theorem newline_refused_when_full : ∃ hv : Valid fullEditor, ¬ ∃ (e' : Editor) (hv' : Valid e'),
    newline idleHost fullEditor = .ok e' ∧
      flat e' hv' = (flat fullEditor hv).insert (lf :: indentAfter (beforeCursor fullEditor)) := by
  refine ⟨fullEditor_valid, ?_⟩
  rintro ⟨e', hv', he, hflat⟩
  obtain ⟨e₁, hv₁, he₁, hflat₁⟩ := newline_spec (h := idleHost) fullEditor_valid
  obtain rfl : e₁ = e' := Except.ok.inj (he₁.symm.trans he)
  rw [if_pos (by rw [fullEditor, List.length_replicate]), hflat] at hflat₁
  have hoff := congrArg Flat.off hflat₁
  simp only [Flat.insert, List.length_cons] at hoff
  omega

end

end PythonUltra.Pyeditor
