/-
  PythonUltra.Py.ImportStack — when the stack of the files being executed is balanced.

  The pop of mp_parse_compile_execute is ordinary code after the execution, so an exception
  skips it. Whatever an action does, it only ever leaves more on the stack (`Extends`); if no
  call on file input was left by an exception it leaves the stack as it was, and the file
  whose module code runs is on top (`Keeps`). An action that unwinds such a call says so
  (`Tells`).
-/

import PythonUltra.Py.Import

namespace PythonUltra.Py.Import

open PythonUltra.Os (Str)
open PythonUltra.Os.Pathutil (CStr)

/-- The stack is as it was on entry; the running file is on top. -/
def Event.Balanced : Event → Prop
  | .left entry exit _ => exit = entry
  | .running name importStack => importStack.getLast? = some name
  | .searched ⟨_, some name⟩ _ _ importStack _ => importStack.getLast? = some name
  | .searched ⟨_, none⟩ .. => True

instance : DecidablePred Event.Balanced
  | .left entry exit _ => inferInstanceAs (Decidable (exit = entry))
  | .running name importStack => inferInstanceAs (Decidable (importStack.getLast? = some name))
  | .searched ⟨_, some name⟩ _ _ importStack _ => inferInstanceAs (Decidable (importStack.getLast? = some name))
  | .searched ⟨_, none⟩ .. => isTrue trivial

/-- The search was the one the stack calls for. -/
def Event.Honest : Event → Prop
  | .searched _ w modName importStack found => found = searchTop w importStack modName
  | _ => True

/-- A call on file input left by an exception, with its name appended. -/
def Event.Unwound : Event → Prop
  | .left _ _ unwound => unwound = true
  | _ => False

/-! ## What an action does to the stack -/

/-- An action started on `stack`. -/
structure Behaves (stack : List CStr) (a : Action) : Prop where
  /-- Nothing below is taken off. -/
  extends_stack : ∀ s, s.importStack <+: (a s).state.importStack
  tells : ∀ s, ∀ e ∈ (a s).log, e.Unwound → ¬ e.Balanced
  honest : ∀ s, ∀ e ∈ (a s).log, e.Honest
  keeps : ∀ s, s.importStack = stack → (∀ e ∈ (a s).log, ¬ e.Unwound) →
    (a s).state.importStack = stack ∧ ∀ e ∈ (a s).log, e.Balanced

section

variable {a b : Action} {stack : List CStr}

/-- `c` is `a`, and then `b` if that is reached. -/
def Follows (a b c : Action) : Prop := ∀ s,
  c s = a s ∨ c s = ⟨(b (a s).state).raised, (b (a s).state).state, (a s).log ++ (b (a s).state).log⟩

theorem follows_andThen (a b : Action) : Follows a b (a.andThen b) := by
  intro s
  unfold Action.andThen
  split
  · exact .inl rfl
  · exact .inr rfl

theorem follows_catching (a b : Action) : Follows a b (a.catching b) := by
  intro s
  unfold Action.catching
  split
  · exact .inr rfl
  · exact .inl rfl

theorem after_log {P : Event → Prop} {l l' : List Event} (h : ∀ e ∈ l, P e) (h' : ∀ e ∈ l', P e) : ∀ e ∈ l ++ l', P e := by
  intro e he
  cases List.mem_append.mp he with
  | inl hl => exact h e hl
  | inr hl => exact h' e hl

theorem Follows.behaves {c : Action} (h : Follows a b c) (ha : Behaves stack a) (hb : Behaves stack b) : Behaves stack c := by
  constructor
  · intro s
    cases h s with
    | inl e => rw [e]; exact ha.extends_stack s
    | inr e => rw [e]; exact (ha.extends_stack s).trans (hb.extends_stack _)
  · intro s
    cases h s with
    | inl e => rw [e]; exact ha.tells s
    | inr e => rw [e]; exact after_log (ha.tells s) (hb.tells _)
  · intro s
    cases h s with
    | inl e => rw [e]; exact ha.honest s
    | inr e => rw [e]; exact after_log (ha.honest s) (hb.honest _)
  · intro s hs hquiet
    cases h s with
    | inl e =>
      rw [e] at hquiet ⊢
      exact ha.keeps s hs hquiet
    | inr e =>
      rw [e] at hquiet ⊢
      obtain ⟨hstack, hlog⟩ := ha.keeps s hs fun e he => hquiet e (List.mem_append_left _ he)
      obtain ⟨hstack', hlog'⟩ := hb.keeps _ hstack fun e he => hquiet e (List.mem_append_right _ he)
      exact ⟨hstack', after_log hlog hlog'⟩

theorem Behaves.andThen (ha : Behaves stack a) (hb : Behaves stack b) : Behaves stack (a.andThen b) :=
  (follows_andThen a b).behaves ha hb

theorem Behaves.catching (ha : Behaves stack a) (hb : Behaves stack b) : Behaves stack (a.catching b) :=
  (follows_catching a b).behaves ha hb

theorem Behaves.of_still (hstack : ∀ s, (a s).state.importStack = s.importStack)
    (hlog : ∀ s, s.importStack = stack → ∀ e ∈ (a s).log, e.Balanced)
    (htells : ∀ s, ∀ e ∈ (a s).log, ¬ e.Unwound ∧ e.Honest) : Behaves stack a := by
  refine ⟨fun s => ?_, fun s e he hu => absurd hu (htells s e he).1, fun s e he => (htells s e he).2,
    fun s hs _ => ⟨?_, hlog s hs⟩⟩
  · rw [hstack s]
  · rw [hstack s, hs]

theorem Behaves.silent (hstack : ∀ s, (a s).state.importStack = s.importStack) (hlog : ∀ s, (a s).log = []) :
    Behaves stack a := by
  refine .of_still hstack (fun s _ => ?_) fun s => ?_
  · rw [hlog s]
    exact fun e he => absurd he List.not_mem_nil
  · rw [hlog s]
    exact fun e he => absurd he List.not_mem_nil

/-- An action may depend on the state it starts in. -/
theorem Behaves.pointwise {c : Action} (h : ∀ s, ∃ a, Behaves stack a ∧ c s = a s) : Behaves stack c := by
  refine ⟨fun s => ?_, fun s => ?_, fun s => ?_, fun s => ?_⟩
  · obtain ⟨a, ha, e⟩ := h s
    rw [e]
    exact ha.extends_stack s
  · obtain ⟨a, ha, e⟩ := h s
    rw [e]
    exact ha.tells s
  · obtain ⟨a, ha, e⟩ := h s
    rw [e]
    exact ha.honest s
  · obtain ⟨a, ha, e⟩ := h s
    rw [e]
    exact ha.keeps s

theorem behaves_skip : Behaves stack .skip := .silent (fun _ => rfl) fun _ => rfl

theorem behaves_fail : Behaves stack .fail := .silent (fun _ => rfl) fun _ => rfl

end

/-- The file whose module code runs is on top. -/
def OnTop (ctx : Ctx) (stack : List CStr) : Prop := ∀ name, ctx.module = some name → stack.getLast? = some name

theorem behaves_observe {ctx : Ctx} {stack : List CStr} (h : OnTop ctx stack) : Behaves stack (observe ctx) := by
  unfold observe
  refine .of_still (fun _ => rfl) (fun s hs e he => ?_) fun s e he => ?_
  · unfold Action.emit at he
    cases hm : ctx.module with
    | none =>
      rw [hm] at he
      exact absurd he List.not_mem_nil
    | some name =>
      rw [hm] at he
      rw [List.mem_singleton.mp he]
      show s.importStack.getLast? = some name
      rw [hs]
      exact h name hm
  · unfold Action.emit at he
    cases hm : ctx.module with
    | none =>
      rw [hm] at he
      exact absurd he List.not_mem_nil
    | some name =>
      rw [hm] at he
      rw [List.mem_singleton.mp he]
      exact ⟨id, trivial⟩

/-! ## A call -/

section

variable {stack : List CStr} {name : CStr} {src : Source} {execute : Action}

theorem behaves_parseCompile (h : Behaves stack execute) : Behaves stack (parseCompile src execute) := by
  unfold parseCompile
  split
  · exact behaves_fail
  · split
    · exact behaves_fail
    · exact h

/-- The state in which the body of a call on file input starts. -/
def pushed (name : CStr) (s : State) : State := { s with importStack := s.importStack ++ [name] }

/-- The pop is skipped if the body raises. -/
theorem file_call_eq (body : Action) (s : State) (h : (body (pushed name s)).state.importStack ≠ []) :
    (push name).andThen (body.andThen pop) s =
      if (body (pushed name s)).raised then body (pushed name s)
      else ⟨false, { (body (pushed name s)).state with importStack := (body (pushed name s)).state.importStack.dropLast },
        (body (pushed name s)).log⟩ := by
  have hpush : (push name).andThen (body.andThen pop) s = body.andThen pop (pushed name s) := by
    unfold Action.andThen push Action.update
    rfl
  rw [hpush]
  unfold Action.andThen pop
  by_cases hr : (body (pushed name s)).raised = true
  · rw [if_pos hr, if_pos hr]
  · rw [if_neg hr, if_neg hr, if_neg h]
    simp

theorem append_ne_nil_of_extends {l l' : List CStr} (h : l ++ [name] <+: l') : l' ≠ [] := by
  intro he
  rw [he, List.prefix_nil] at h
  exact List.append_ne_nil_of_right_ne_nil l (List.cons_ne_nil name []) h

theorem prefix_dropLast {l l' : List CStr} (h : l ++ [name] <+: l') : l <+: l'.dropLast := by
  obtain ⟨r, rfl⟩ := h
  rw [List.append_assoc, List.dropLast_append_of_ne_nil (by simp)]
  exact List.prefix_append _ _

theorem Behaves.reported {a : Action} (h : Behaves stack a) :
    Behaves stack fun s => { a s with log := (a s).log ++ [.left s.importStack (a s).state.importStack false] } := by
  refine ⟨h.extends_stack, fun s => after_log (h.tells s) fun e he hu => ?_, fun s => after_log (h.honest s) fun e he => ?_,
    fun s hs hquiet => ?_⟩
  · rw [List.mem_singleton.mp he] at hu
    exact absurd hu Bool.false_ne_true
  · rw [List.mem_singleton.mp he]
    trivial
  · obtain ⟨hstack, hlog⟩ := h.keeps s hs fun e he => hquiet e (List.mem_append_left _ he)
    refine ⟨hstack, after_log hlog fun e he => ?_⟩
    rw [List.mem_singleton.mp he]
    exact hstack.trans hs.symm

theorem call_raises (happ : src.appended = true) (s : State) (hne : (parseCompile src execute (pushed name s)).state.importStack ≠ [])
    (hr : (parseCompile src execute (pushed name s)).raised = true) :
    parseCompileExecute .file name src execute s =
      let o := parseCompile src execute (pushed name s)
      { o with log := o.log ++ [.left s.importStack o.state.importStack true] } := by
  unfold parseCompileExecute
  rw [if_pos rfl, if_pos happ, file_call_eq _ s hne, if_pos hr]
  simp [hr, happ]

theorem call_returns (happ : src.appended = true) (s : State) (hne : (parseCompile src execute (pushed name s)).state.importStack ≠ [])
    (hr : ¬ (parseCompile src execute (pushed name s)).raised = true) :
    parseCompileExecute .file name src execute s =
      let o := parseCompile src execute (pushed name s)
      ⟨false, { o.state with importStack := o.state.importStack.dropLast },
        o.log ++ [.left s.importStack o.state.importStack.dropLast false]⟩ := by
  unfold parseCompileExecute
  rw [if_pos rfl, if_pos happ, file_call_eq _ s hne, if_neg hr]
  simp

theorem Behaves.fileCall (happ : src.appended = true) (h : Behaves (stack ++ [name]) execute) :
    Behaves stack (parseCompileExecute .file name src execute) := by
  have hbody : Behaves (stack ++ [name]) (parseCompile src execute) := behaves_parseCompile h
  have hlonger : ∀ s, s.importStack ++ [name] <+: (parseCompile src execute (pushed name s)).state.importStack :=
    fun s => hbody.extends_stack (pushed name s)
  have hne := fun s => append_ne_nil_of_extends (hlonger s)
  refine ⟨fun s => ?_, fun s => ?_, fun s => ?_, fun s hs hquiet => ?_⟩
  · by_cases hr : (parseCompile src execute (pushed name s)).raised = true
    · rw [call_raises happ s (hne s) hr]
      exact (List.prefix_append _ _).trans (hlonger s)
    · rw [call_returns happ s (hne s) hr]
      exact prefix_dropLast (hlonger s)
  · by_cases hr : (parseCompile src execute (pushed name s)).raised = true
    · rw [call_raises happ s (hne s) hr]
      refine after_log (hbody.tells _) fun e he _ hb => ?_
      rw [List.mem_singleton.mp he] at hb
      have hlong := (hlonger s).length_le
      rw [show _ = s.importStack from hb, List.length_append, List.length_singleton] at hlong
      omega
    · rw [call_returns happ s (hne s) hr]
      refine after_log (hbody.tells _) fun e he hu => ?_
      rw [List.mem_singleton.mp he] at hu
      exact absurd hu Bool.false_ne_true
  · by_cases hr : (parseCompile src execute (pushed name s)).raised = true
    · rw [call_raises happ s (hne s) hr]
      exact after_log (hbody.honest _) fun e he => by rw [List.mem_singleton.mp he]; trivial
    · rw [call_returns happ s (hne s) hr]
      exact after_log (hbody.honest _) fun e he => by rw [List.mem_singleton.mp he]; trivial
  · by_cases hr : (parseCompile src execute (pushed name s)).raised = true
    · rw [call_raises happ s (hne s) hr] at hquiet
      exact absurd rfl (hquiet _ (List.mem_append_right _ (List.mem_singleton.mpr rfl)))
    · rw [call_returns happ s (hne s) hr] at hquiet ⊢
      have hstart : (pushed name s).importStack = stack ++ [name] := by rw [← hs]; rfl
      obtain ⟨hstack, hlog⟩ := hbody.keeps _ hstart fun e he => hquiet e (List.mem_append_left _ he)
      have hpop : (parseCompile src execute (pushed name s)).state.importStack.dropLast = stack := by
        rw [hstack, List.dropLast_concat]
      refine ⟨hpop, after_log hlog fun e he => ?_⟩
      rw [List.mem_singleton.mp he]
      exact hpop.trans hs.symm

theorem Behaves.call (kind : InputKind) (hfile : kind = .file → Behaves (stack ++ [name]) execute)
    (hother : kind ≠ .file → Behaves stack execute) : Behaves stack (parseCompileExecute kind name src execute) := by
  by_cases hkind : kind = .file
  · by_cases happ : src.appended = true
    · rw [hkind]
      exact .fileCall happ (hfile hkind)
    · have heq : parseCompileExecute kind name src execute = fun s => { Action.fail s with
          log := (Action.fail s).log ++ [.left s.importStack (Action.fail s).state.importStack false] } := by
        funext s
        unfold parseCompileExecute
        rw [if_pos hkind, if_neg happ]
        simp [happ]
      rw [heq]
      exact behaves_fail.reported
  · have heq : parseCompileExecute kind name src execute = fun s => { parseCompile src execute s with
        log := (parseCompile src execute s).log ++ [.left s.importStack (parseCompile src execute s).state.importStack false] } := by
      funext s
      unfold parseCompileExecute
      rw [if_neg hkind]
      simp [hkind]
    rw [heq]
    exact (behaves_parseCompile (hother hkind)).reported

end

/-! ## Imports and whole runs -/

/-- The code of a file, started with the file on top if its module code is to run. -/
def Code.Behaves (execute : Ctx → Action) : Prop := ∀ ctx stack, OnTop ctx stack → Import.Behaves stack (execute ctx)

section

variable {stack : List CStr} {execute : Ctx → Action} {src : Source} {w : World}

theorem behaves_doLoad (h : Code.Behaves execute) (path : Str) : Behaves stack (doLoad w path src execute) := by
  have hlexer : ∀ name : CStr, Behaves stack (if src.opened = true
      then parseCompileExecute .file name src (execute ⟨some (qstr path), some name⟩) else .fail) := by
    intro name
    split
    · refine .call .file (fun _ => h _ _ fun n hn => ?_) fun hne => absurd rfl hne
      rw [List.getLast?_concat]
      exact hn
    · exact behaves_fail
  have hfrozen : Behaves stack (execute ⟨some (qstr path), none⟩) := h _ _ fun n hn => by cases hn
  unfold doLoad
  cases frozenName (Os.cstr path) with
  | none => exact hlexer _
  | some name =>
    cases ht : (findFrozenModule name w.frozenNames).2 with
    | none => simp only [ht]; exact hlexer _
    | some type =>
      cases type with
      | str => simp only [ht]; exact hlexer _
      | mpy => simp only [ht]; exact hfrozen

theorem behaves_registering {load : Action} (h : Behaves stack load) (fullName : Str) : Behaves stack (registering fullName load) := by
  unfold registering
  refine Behaves.andThen (.silent (fun _ => rfl) fun _ => rfl) (h.catching (Behaves.andThen ?_ behaves_fail))
  exact .silent (fun _ => rfl) fun _ => rfl

theorem behaves_load (h : Code.Behaves execute) (fullName : Str) (found : Searching (Option Choice)) :
    Behaves stack (load w fullName src execute found) := by
  cases found with
  | error => exact behaves_fail
  | ok found =>
    cases found with
    | none => exact behaves_fail
    | some choice =>
      cases choice with
      | builtin name =>
        show Behaves stack (if src.opened = true then .skip else .fail)
        split
        · exact behaves_skip
        · exact behaves_fail
      | package path =>
        refine behaves_registering ?_ fullName
        unfold loadPackage
        split
        · exact behaves_doLoad h _
        · exact behaves_skip
        · exact behaves_fail
      | source path => exact behaves_registering (behaves_doLoad h path) fullName

theorem behaves_searched {ctx : Ctx} (htop : OnTop ctx stack) (modName : CStr) :
    Behaves stack (.emit fun s => [.searched ctx w modName s.importStack (searchTop w s.importStack modName)]) := by
  refine .of_still (fun _ => rfl) (fun s hs e he => ?_) fun s e he => ?_
  · rw [List.mem_singleton.mp he, hs]
    obtain ⟨file, module⟩ := ctx
    cases module with
    | none => trivial
    | some name => exact htop name rfl
  · rw [List.mem_singleton.mp he]
    exact ⟨id, rfl⟩

theorem behaves_processImportAtLevel {ctx : Ctx} (h : Code.Behaves execute) (htop : OnTop ctx stack) (fullName : Str)
    (modName : CStr) (outer : Option (Option Str)) :
    Behaves stack (processImportAtLevel ctx w fullName modName outer src execute) := by
  refine .pointwise fun s => ?_
  unfold processImportAtLevel
  split
  · exact ⟨.skip, behaves_skip, rfl⟩
  · cases outer with
    | none => exact ⟨_, (behaves_searched htop modName).andThen (behaves_load h fullName _), rfl⟩
    | some path => exact ⟨_, behaves_load h fullName _, rfl⟩

end

theorem run_behaves (code : Code) : Code.Behaves (run code) := by
  induction code with
  | done =>
    intro ctx stack htop
    exact behaves_observe htop
  | raise =>
    intro ctx stack htop
    exact (behaves_observe htop).andThen behaves_fail
  | execute kind name src body rest ihbody ihrest =>
    intro ctx stack htop
    refine (behaves_observe htop).andThen (Behaves.andThen (.call kind (fun hkind => ?_) fun hkind => ?_) (ihrest ctx stack htop))
    · refine ihbody _ _ fun n hn => ?_
      rw [if_pos hkind] at hn
      rw [List.getLast?_concat]
      exact hn
    · refine ihbody _ _ fun n hn => ?_
      rw [if_neg hkind] at hn
      cases hn
  | importAt w fullName modName outer src body rest ihbody ihrest =>
    intro ctx stack htop
    exact (behaves_observe htop).andThen ((behaves_processImportAtLevel ihbody htop fullName modName outer).andThen
      (ihrest ctx stack htop))
  | function file body rest ihbody ihrest =>
    intro ctx stack htop
    have hbody : Behaves stack (run body ⟨file, none⟩) := ihbody _ _ fun n hn => by cases hn
    exact (behaves_observe htop).andThen (hbody.andThen (ihrest ctx stack htop))
  | guarded body handler rest ihbody ihhandler ihrest =>
    intro ctx stack htop
    exact ((ihbody ctx stack htop).catching (ihhandler ctx stack htop)).andThen (ihrest ctx stack htop)

/-- The stack is as it was on entry whenever a call is left, and the file whose module code runs is on top of it, exactly
when no call on file input is left by an exception. -/
theorem importStack_balanced_iff (code : Code) (file : Option CStr) (s : State) :
    (∀ e ∈ (run code ⟨file, none⟩ s).log, e.Balanced) ↔ ∀ e ∈ (run code ⟨file, none⟩ s).log, ¬ e.Unwound := by
  have h : Behaves s.importStack (run code ⟨file, none⟩) := run_behaves code _ _ fun n hn => by cases hn
  constructor
  · intro hbalanced e he hu
    exact h.tells s e he hu (hbalanced e he)
  · intro hquiet
    exact (h.keeps s rfl hquiet).2

/-- Files a.py and b.py in the current directory. -/
def twoFiles : World where
  importStat path := if path = [97] ++ py ∨ path = [98] ++ py then .file else .noExist
  frozenNames := []
  sysPath := [[]]
  builtins := []
  extensible := []

theorem a_clean : (0 : UInt8) ∉ ([97] : Str) := by decide

theorem b_clean : (0 : UInt8) ∉ ([98] : Str) := by decide

/-- a.py does `try: import b` and passes over what that raises; b.py has a syntax error. -/
def failedImport : Code :=
  .importAt twoFiles [97] ⟨[97], a_clean⟩ none ⟨true, true, true, true⟩
    (.guarded (.importAt twoFiles [98] ⟨[98], b_clean⟩ none ⟨true, true, false, true⟩ .done .done) .done .done) .done

/-- b.py stays on the stack, above a.py. -/
theorem failedImport_unbalanced : ¬ ∀ (code : Code) (file : Option CStr) (s : State),
    ∀ e ∈ (run code ⟨file, none⟩ s).log, e.Balanced := by
  intro h
  exact absurd (h failedImport none ⟨[], []⟩) (by decide)

end PythonUltra.Py.Import
