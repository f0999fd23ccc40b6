/-
  PythonUltra.Py.ImportChoice — which module an import finds.

  What `import b` in a file should find is `chosen`: a built-in, b beside the file, b in the
  entries of sys.path, an extensible built-in. process_import_at_level looks beside the file
  on top of the stack instead, under a path that always has a slash: it finds what it should
  if that is the directory of the importing file (`Beside`), and the paths fit their buffer
  (`Fits`). Without unwound calls this is so in the module code of every source file named
  with a slash (`searched_beside`).
-/

import PythonUltra.Py.ImportStack

namespace PythonUltra.Py.Import

open PythonUltra.Os (Str slash cstr)
open PythonUltra.Os.Pathutil (CStr)

/-! ## What should be found -/

/-- The module at a path: a package directory or a file. -/
def World.find (w : World) (path : Str) : Option Choice :=
  if w.stat (cstr path) = .dir then some (.package path)
  else if w.stat (cstr (path ++ py)) = .file then some (.source (path ++ py))
  else none

/-- `d/b` for a file `d/a`, plain `b` for a file named without a slash. -/
def sibling (file modName : Str) : Str := if slash ∈ file then dirPart file ++ pathSep ++ modName else modName

def inEntry (modName entry : Str) : Str := if entry = [] then modName else entry ++ pathSep ++ modName

def candidates (w : World) (file modName : Str) : List Str := sibling file modName :: w.sysPath.map (inEntry modName)

/-- The first of these that there is. -/
def chosen (w : World) (file modName : Str) : Option Choice :=
  ((getBuiltin w modName false).map .builtin).or
    (((candidates w file modName).findSome? w.find).or ((getBuiltin w modName true).map .builtin))

/-! ## When it is -/

/-- The file on top of the stack is in the importing file's directory, and that is named. -/
def Beside (importStack : List CStr) (file : Str) : Prop :=
  slash ∈ file ∧ (importStack.getLast?.map fun top : CStr => dirPart top.val) = some (dirPart file)

instance (importStack : List CStr) (file : Str) : Decidable (Beside importStack file) := inferInstanceAs (Decidable (_ ∧ _))

/-- A path that can be looked up in the buffer. -/
def Room (w : World) (path : Str) : Prop :=
  path.length < allocPathMax ∧ (w.stat (cstr path) ≠ .dir → path.length + py.length < allocPathMax)

instance (w : World) (path : Str) : Decidable (Room w path) := inferInstanceAs (Decidable (_ ∧ (_ → _)))

/-- The paths that are looked up have room. -/
def Fits (w : World) : List Str → Prop
  | [] => True
  | path :: paths => Room w path ∧ (w.find path = none → Fits w paths)

instance decidableFits (w : World) : DecidablePred (Fits w)
  | [] => isTrue trivial
  | path :: paths =>
    have := decidableFits w paths
    inferInstanceAs (Decidable (Room w path ∧ (w.find path = none → Fits w paths)))

section

variable {w : World} {path modName : Str}

theorem vstrAdd_of_le {s : Str} (h : path.length + s.length ≤ allocPathMax) : vstrAdd path s = .ok (path ++ s) := if_pos h

theorem statPath_of_lt (h : path.length < allocPathMax) : statPath w path = .ok (w.stat (cstr path)) := by
  unfold statPath vstrNullTerminated
  rw [if_neg (by omega)]
  rfl

/-- A lookup that ends with this module, or with none. -/
def Finds (r : Searching (Stat × Str)) (o : Option Choice) : Prop := ∃ found, r = .ok found ∧ Choice.ofStat found = o

theorem ofStat_eq_none (found : Stat × Str) : Choice.ofStat found = none ↔ found.1 = .noExist := by
  obtain ⟨stat, path⟩ := found
  cases stat with
  | noExist => exact ⟨fun _ => rfl, fun _ => rfl⟩
  | dir => exact ⟨fun h => (by cases h), fun h => (by cases h)⟩
  | file => exact ⟨fun h => (by cases h), fun h => (by cases h)⟩

theorem Finds.or {r r' : Searching (Stat × Str)} {o o' : Option Choice} (h : Finds r o) (h' : o = none → Finds r' o') :
    Finds (r >>= fun found => if found.1 = .noExist then r' else pure found) (o.or o') := by
  obtain ⟨found, rfl, rfl⟩ := h
  show Finds (if found.1 = .noExist then r' else pure found) _
  by_cases hno : found.1 = .noExist
  · have hnone := (ofStat_eq_none found).mpr hno
    rw [if_pos hno, hnone, Option.none_or]
    exact h' hnone
  · have hsome : (Choice.ofStat found).isSome = true :=
      Option.isSome_iff_ne_none.mpr fun he => hno ((ofStat_eq_none found).mp he)
    rw [if_neg hno, Option.or_of_isSome hsome]
    exact ⟨found, rfl, rfl⟩

/-- The lookup of one path, given room. -/
theorem statModule_finds (h : Room w path) : Finds (statModule w path) (w.find path) := by
  unfold statModule World.find
  rw [statPath_of_lt h.1]
  show Finds (if w.stat (cstr path) = .dir then pure (w.stat (cstr path), path) else vstrAdd path py >>= statFilePy w) _
  by_cases hdir : w.stat (cstr path) = .dir
  · rw [if_pos hdir, if_pos hdir, hdir]
    exact ⟨(.dir, path), rfl, rfl⟩
  · have hpy := h.2 hdir
    rw [if_neg hdir, if_neg hdir, vstrAdd_of_le (by omega)]
    show Finds (statFilePy w (path ++ py)) _
    unfold statFilePy
    rw [statPath_of_lt (by rw [List.length_append]; omega)]
    show Finds (pure (if w.stat (cstr (path ++ py)) = .file then Stat.file else .noExist, path ++ py)) _
    by_cases hfile : w.stat (cstr (path ++ py)) = .file
    · rw [if_pos hfile, if_pos hfile]
      exact ⟨(.file, path ++ py), rfl, rfl⟩
    · rw [if_neg hfile, if_neg hfile]
      exact ⟨(.noExist, path ++ py), rfl, rfl⟩

theorem pathIn_eq {dir : Str} (h : (dir ++ pathSep ++ modName).length < allocPathMax) :
    pathIn dir modName = .ok (dir ++ pathSep ++ modName) := by
  rw [List.length_append, List.length_append] at h
  unfold pathIn
  rw [vstrAdd_of_le (by rw [List.length_nil]; omega)]
  show (vstrAdd dir pathSep >>= fun dest => vstrAdd dest modName) = _
  rw [vstrAdd_of_le (by omega)]
  exact vstrAdd_of_le (by rw [List.length_append]; omega)

theorem entryPath_eq {entry : Str} (h : (inEntry modName entry).length < allocPathMax) :
    entryPath entry modName = .ok (inEntry modName entry) := by
  unfold entryPath
  unfold inEntry at h ⊢
  cases entry with
  | nil =>
    rw [if_pos rfl] at h ⊢
    exact vstrAdd_of_le (by rw [List.length_nil]; omega)
  | cons c entry =>
    rw [if_neg (List.cons_ne_nil c entry)] at h ⊢
    rw [if_pos (show (c :: entry).length > 0 from Nat.succ_pos _)]
    exact pathIn_eq h

theorem findSome_cons (paths : List Str) :
    (path :: paths).findSome? w.find = (w.find path).or (paths.findSome? w.find) := by
  rw [List.findSome?_cons]
  cases w.find path with
  | some choice => rfl
  | none => rfl

theorem statTopLevel_finds (entries : List Str) (h : Fits w (entries.map (inEntry modName))) :
    Finds (statTopLevel w modName entries) ((entries.map (inEntry modName)).findSome? w.find) := by
  induction entries with
  | nil => exact ⟨(.noExist, []), rfl, rfl⟩
  | cons entry entries ih =>
    obtain ⟨hroom, hrest⟩ := h
    have hstep := (statModule_finds hroom).or fun hnone => ih (hrest hnone)
    unfold statTopLevel
    rw [entryPath_eq hroom.1, List.map_cons, findSome_cons]
    simp only [ne_eq, ite_not]
    exact hstep

end

/-- The search once the files are looked up. -/
theorem searchTop_of_finds {w : World} {importStack : List CStr} {modName : Str} {o : Option Choice}
    (hb : getBuiltin w modName false = none) (h : Finds (searchFiles w importStack modName) o) :
    searchTop w importStack modName = .ok (o.or ((getBuiltin w modName true).map .builtin)) := by
  obtain ⟨found, hfound, rfl⟩ := h
  unfold searchTop
  rw [hb, hfound]
  show (if found.1 = .noExist then pure ((getBuiltin w modName true).map .builtin) else pure (Choice.ofStat found)) = _
  by_cases hno : found.1 = .noExist
  · rw [if_pos hno, (ofStat_eq_none found).mpr hno, Option.none_or]
    rfl
  · have hsome : (Choice.ofStat found).isSome = true :=
      Option.isSome_iff_ne_none.mpr fun he => hno ((ofStat_eq_none found).mp he)
    rw [if_neg hno, Option.or_of_isSome hsome]
    rfl

theorem statRelative_eq {w : World} {importStack : List CStr} {top : CStr} {modName : Str} (htop : importStack.getLast? = some top)
    (hlen : (dirPart top ++ pathSep ++ modName).length < allocPathMax) :
    statRelative w importStack modName = statModule w (dirPart top ++ pathSep ++ modName) := by
  unfold statRelative
  rw [htop]
  show (pathIn (dirPart top) modName >>= statModule w) = _
  rw [pathIn_eq hlen]
  rfl

/-- The search of a file's code finds what it should. -/
theorem searchTop_eq {w : World} {importStack : List CStr} {file modName : Str} (hbeside : Beside importStack file)
    (hfits : getBuiltin w modName false = none → Fits w (candidates w file modName)) :
    searchTop w importStack modName = .ok (chosen w file modName) := by
  cases hb : getBuiltin w modName false with
  | some name =>
    unfold searchTop chosen
    rw [hb]
    rfl
  | none =>
    obtain ⟨hslash, hbeside⟩ := hbeside
    obtain ⟨top, htop, hdir⟩ := Option.map_eq_some_iff.mp hbeside
    obtain ⟨hroom, hrest⟩ := hfits hb
    have hsibling : sibling file modName = dirPart top ++ pathSep ++ modName := by
      unfold sibling
      rw [if_pos hslash, hdir]
    have hfiles : Finds (searchFiles w importStack modName) ((candidates w file modName).findSome? w.find) := by
      unfold searchFiles candidates
      rw [statRelative_eq htop (by rw [← hsibling]; exact hroom.1), ← hsibling, findSome_cons]
      exact (statModule_finds hroom).or fun hnone => statTopLevel_finds w.sysPath (hrest hnone)
    rw [searchTop_of_finds hb hfiles]
    unfold chosen
    rw [hb, Option.map_none, Option.none_or]

/-! ## Whole runs -/

/-- A search by the code of a file, in a state in which it finds what it should. -/
def Event.Placed : Event → Prop
  | .searched ⟨some file, _⟩ w modName importStack _ =>
    Beside importStack file ∧ (getBuiltin w modName false = none → Fits w (candidates w file modName))
  | _ => True

instance : DecidablePred Event.Placed
  | .searched ⟨some file, _⟩ w modName importStack _ => inferInstanceAs (Decidable (Beside importStack file ∧
      (getBuiltin w modName false = none → Fits w (candidates w file modName))))
  | .searched ⟨none, _⟩ .. => isTrue trivial
  | .left .. => isTrue trivial
  | .running .. => isTrue trivial

/-- The code of a file found what it should. -/
def Event.Right : Event → Prop
  | .searched ⟨some file, _⟩ w modName _ found => found = .ok (chosen w file modName)
  | _ => True

instance : DecidablePred Event.Right
  | .searched ⟨some file, _⟩ w modName _ found => inferInstanceAs (Decidable (found = .ok (chosen w file modName)))
  | .searched ⟨none, _⟩ .. => isTrue trivial
  | .left .. => isTrue trivial
  | .running .. => isTrue trivial

theorem Event.Placed.right {e : Event} (h : e.Placed) (hhonest : e.Honest) : e.Right := by
  cases e with
  | left entry exit unwound => trivial
  | running name importStack => trivial
  | searched ctx w modName importStack found =>
    obtain ⟨file, module⟩ := ctx
    cases file with
    | none => trivial
    | some file =>
      have hfound : found = searchTop w importStack modName := hhonest
      exact hfound.trans (searchTop_eq h.1 h.2)

/-- A package directory at this path and nothing else. -/
def onlyPackage (path : Str) : World where
  importStat str := if str = cstr path then .dir else .noExist
  frozenNames := match frozenName (cstr path) with
    | some name => [(name ++ pathSep, .mpy)]
    | none => []
  sysPath := []
  builtins := []
  extensible := []

theorem stat_onlyPackage (path : Str) : (onlyPackage path).stat (cstr path) = .dir := by
  unfold World.stat onlyPackage
  cases hname : frozenName (cstr path) with
  | none => exact if_pos rfl
  | some name =>
    have hne : name ≠ name ++ pathSep := fun h => by
      have hlen := congrArg List.length h
      rw [List.length_append, show pathSep.length = 1 from rfl] at hlen
      omega
    show (findFrozenModule name [(name ++ pathSep, .mpy)]).1 = .dir
    unfold findFrozenModule
    rw [if_neg hne, if_pos (by rw [List.isPrefixOf_iff_prefix])]

theorem getBuiltin_onlyPackage {modName : Str} (h : modName ≠ usys) (path : Str) (extensible : Bool) :
    getBuiltin (onlyPackage path) modName extensible = none := by
  have hnil : modName ∉ (if extensible = true then (onlyPackage path).extensible else (onlyPackage path).builtins) := by
    cases extensible with
    | true => exact List.not_mem_nil
    | false => exact List.not_mem_nil
  unfold getBuiltin
  rw [if_neg hnil, if_neg h]
  split
  · rfl
  · split
    · exact if_neg List.not_mem_nil
    · rfl

theorem find_ne_package {w : World} {path path' : Str} (h : path ≠ path') : w.find path ≠ some (.package path') := by
  unfold World.find
  intro hfind
  split at hfind
  · cases hfind
    exact h rfl
  · split at hfind
    · cases hfind
    · cases hfind

/-- Next to another directory, or in a file named without a slash, the search can go wrong without any path being too long. -/
theorem searchTop_ne {importStack : List CStr} {file modName : Str} (hname : modName ≠ usys)
    (hlen : ∀ top, importStack.getLast? = some top → (dirPart top ++ pathSep ++ modName).length + py.length < allocPathMax)
    (h : ¬ Beside importStack file) :
    ∃ w found, searchTop w importStack modName = .ok found ∧ found ≠ chosen w file modName := by
  have hbuiltin := getBuiltin_onlyPackage hname (sibling file modName)
  have hfind : (onlyPackage (sibling file modName)).find (sibling file modName) = some (.package (sibling file modName)) :=
    if_pos (stat_onlyPackage _)
  have hchosen : chosen (onlyPackage (sibling file modName)) file modName = some (.package (sibling file modName)) := by
    unfold chosen candidates
    rw [hbuiltin, findSome_cons, hfind]
    rfl
  refine ⟨onlyPackage (sibling file modName), ?_⟩
  rw [hchosen]
  cases htop : importStack.getLast? with
  | none =>
    have hfiles : Finds (searchFiles (onlyPackage (sibling file modName)) importStack modName) none := by
      unfold searchFiles statRelative
      rw [htop]
      exact ⟨(.noExist, []), rfl, rfl⟩
    refine ⟨none, ?_, fun he => by cases he⟩
    rw [searchTop_of_finds (hbuiltin false) hfiles, hbuiltin]
    rfl
  | some top =>
    have hother : dirPart top ++ pathSep ++ modName ≠ sibling file modName := by
      unfold sibling
      split
      · next hslash =>
        intro he
        refine h ⟨hslash, ?_⟩
        rw [htop]
        exact congrArg some (List.append_cancel_right (List.append_cancel_right he))
      · intro he
        have hl := congrArg List.length he
        rw [List.length_append, List.length_append, show pathSep.length = 1 from rfl] at hl
        omega
    have hlen' := hlen top htop
    have hroom : Room (onlyPackage (sibling file modName)) (dirPart top ++ pathSep ++ modName) :=
      ⟨by omega, fun _ => hlen'⟩
    have hfiles := (statModule_finds hroom).or fun _ =>
      (⟨(.noExist, []), rfl, rfl⟩ : Finds (statTopLevel (onlyPackage (sibling file modName)) modName []) none)
    rw [← statRelative_eq htop (by omega), Option.or_none] at hfiles
    refine ⟨_, searchTop_of_finds (hbuiltin false) hfiles, ?_⟩
    rw [hbuiltin, Option.map_none, Option.or_none]
    exact find_ne_package hother

/-- In every run in which each import by a file's code is executed with a file of the same directory on top of the stack, and
that directory is named, every such import finds the module it should; in any other state there are files for which it
does not. -/
theorem import_finds_chosen (code : Code) (file : Option CStr) (s : State) :
    ((∀ e ∈ (run code ⟨file, none⟩ s).log, e.Placed) → ∀ e ∈ (run code ⟨file, none⟩ s).log, e.Right) ∧
    ∀ (importStack : List CStr) (importing modName : Str), modName ≠ usys →
      (∀ top, importStack.getLast? = some top → (dirPart top ++ pathSep ++ modName).length + py.length < allocPathMax) →
      ¬ Beside importStack importing →
      ∃ w found, searchTop w importStack modName = .ok found ∧ found ≠ chosen w importing modName := by
  have h : Behaves s.importStack (run code ⟨file, none⟩) := run_behaves code _ _ fun n hn => by cases hn
  refine ⟨fun hplaced e he => (hplaced e he).right (h.honest s e he), ?_⟩
  intro importStack importing modName hname hlen hbeside
  exact searchTop_ne hname hlen hbeside

/-- Files a.py and b.py in a folder, and another b.py at the root. -/
def folderFiles (folder : Str) : World where
  importStat path := if path = folder ++ [97] ++ py ∨ path = folder ++ [98] ++ py ∨ path = [slash, 98] ++ py then .file else .noExist
  frozenNames := []
  sysPath := [folder.dropLast]
  builtins := []
  extensible := []

/-- `import a`, and `import b` in it. -/
def importTwice (w : World) : Code :=
  .importAt w [97] ⟨[97], a_clean⟩ none ⟨true, true, true, true⟩
    (.importAt w [98] ⟨[98], b_clean⟩ none ⟨true, true, true, true⟩ .done .done) .done

/-- From /d/a.py, /d/b.py is found. -/
theorem import_finds_chosen_folder :
    (∀ e ∈ (run (importTwice (folderFiles [slash, 100, slash])) ⟨none, none⟩ ⟨[], []⟩).log, e.Placed) ∧
    ∀ e ∈ (run (importTwice (folderFiles [slash, 100, slash])) ⟨none, none⟩ ⟨[], []⟩).log, e.Right := by
  have hplaced : ∀ e ∈ (run (importTwice (folderFiles [slash, 100, slash])) ⟨none, none⟩ ⟨[], []⟩).log, e.Placed := by decide
  exact ⟨hplaced, (import_finds_chosen _ none ⟨[], []⟩).1 hplaced⟩

/-- From a.py of the current directory, the b.py of the root is found. -/
theorem import_finds_root : ¬ ∀ (code : Code) (s : State), ∀ e ∈ (run code ⟨none, none⟩ s).log, e.Right := by
  intro h
  exact absurd (h (importTwice (folderFiles [])) ⟨[], []⟩) (by decide)

end PythonUltra.Py.Import
