/-
  PythonUltra.Pyperm.Reload — the table read back from its file.

  A name without CR and LF stays in its line, and a line has its first tab after the mode,
  so `_load` makes of the saved text the table it was made of (`stored_saveText`). Hence,
  as long as the file is saved, the cache may be dropped after any calls without changing
  any mode (`reload_keeps_modes`).
-/

import PythonUltra.Pyperm.Moves

namespace PythonUltra.Pyperm

open PythonUltra.Lib PythonUltra.Lib.Prog PythonUltra.Os

/-- A str without line ends. -/
structure CleanStr (s : Str) : Prop where
  utf8 : utf8Check s = true
  noLf : newline ∉ s
  noCr : carriageReturn ∉ s

def CleanPath (p : Path) : Prop := ∀ n ∈ p, IsName n ∧ CleanStr n

def CleanKey (key : Str) : Prop := ∃ p, CleanPath p ∧ key = pathStr p

structure CleanTable (data : Table) : Prop where
  keys : ∀ key ∈ data, CleanKey key
  modes : ∀ key mode, data.lookup key = some mode → mode < 512

variable {data data' : Table} {s t key : Str} {cwd p q : Path} {mode : Nat}

/-! ## Clean strings -/

theorem CleanStr.append (hs : CleanStr s) (ht : CleanStr t) : CleanStr (s ++ t) where
  utf8 := by
    rw [utf8Check, utf8From_append hs.utf8]
    exact ht.utf8
  noLf := by simp [hs.noLf, ht.noLf]
  noCr := by simp [hs.noCr, ht.noCr]

theorem clean_slash : CleanStr [slash] := ⟨by decide, by decide, by decide⟩

theorem clean_tab : CleanStr [tab] := ⟨by decide, by decide, by decide⟩

theorem clean_flatMap (hp : ∀ n ∈ p, CleanStr n) : CleanStr (p.flatMap (slash :: ·)) := by
  induction p with
  | nil => exact ⟨rfl, by simp, by simp⟩
  | cons n p ih =>
    rw [List.flatMap_cons]
    have hn := clean_slash.append (hp n List.mem_cons_self)
    exact hn.append (ih fun m hm => hp m (List.mem_cons_of_mem _ hm))

theorem CleanKey.str (h : CleanKey key) : CleanStr key := by
  obtain ⟨p, hp, rfl⟩ := h
  by_cases hne : p = []
  · subst hne
    exact clean_slash
  · rw [Pathutil.pathStr_flatMap hne]
    exact clean_flatMap fun n hn => (hp n hn).2

/-- The parts of a str are strs: a slash is no continuation byte. -/
theorem utf8From_splitOn {need : Nat} (h : utf8From need s = true) :
    ∃ n ns, s.splitOn slash = n :: ns ∧ utf8From need n = true ∧ ∀ m ∈ ns, utf8Check m = true := by
  induction s generalizing need with
  | nil => exact ⟨[], [], by simp, h, by simp⟩
  | cons c s ih =>
    rw [List.splitOn_cons_eq_if_modifyHead]
    by_cases hc : c = slash
    · have hneed : need = 0 := by
        by_contra hne
        rw [hc, utf8From, if_pos hne, Bool.and_eq_true] at h
        exact absurd h.1 (by decide)
      rw [hneed, hc, utf8From, if_neg (by simp), if_neg (by decide), Bool.and_eq_true] at h
      obtain ⟨n, ns, hsplit, hn, hns⟩ := ih h.2
      refine ⟨[], n :: ns, by simp [hc, hsplit], by rw [hneed]; rfl, ?_⟩
      intro m hm
      rcases List.mem_cons.mp hm with rfl | hm
      · exact hn
      · exact hns m hm
    · -- `c` goes on with the character, or starts one
      have hrest : ∀ need', utf8From need' s = true → (∀ n, utf8From need' n = true → utf8From need (c :: n) = true) →
          ∃ n ns, (if (c == slash) = true then [] :: s.splitOn slash else (s.splitOn slash).modifyHead (c :: ·)) = n :: ns ∧
            utf8From need n = true ∧ ∀ m ∈ ns, utf8Check m = true := by
        intro need' hs hcons
        obtain ⟨n, ns, hsplit, hn, hns⟩ := ih hs
        refine ⟨c :: n, ns, ?_, hcons n hn, hns⟩
        rw [if_neg (by simpa using hc), hsplit, List.modifyHead_cons]
      rw [utf8From] at h
      by_cases hneed : need ≠ 0
      · rw [if_pos hneed, Bool.and_eq_true] at h
        refine hrest _ h.2 fun n hn => ?_
        rw [utf8From, if_pos hneed, h.1, hn]
        rfl
      · rw [if_neg hneed] at h
        by_cases hlead : c ≥ 0xc0
        · rw [if_pos hlead, Bool.and_eq_true] at h
          refine hrest _ h.2 fun n hn => ?_
          rw [utf8From, if_neg hneed, if_pos hlead, h.1, hn]
          rfl
        · rw [if_neg hlead, Bool.and_eq_true] at h
          refine hrest _ h.2 fun n hn => ?_
          rw [utf8From, if_neg hneed, if_neg hlead, h.1, hn]
          rfl

theorem clean_parts (h : CleanStr s) : ∀ n ∈ parts s, CleanStr n := by
  intro n hn
  refine ⟨?_, fun hc => h.noLf (Zipfile.mem_of_mem_parts hn hc), fun hc => h.noCr (Zipfile.mem_of_mem_parts hn hc)⟩
  obtain ⟨m, ms, hsplit, hm, hms⟩ := utf8From_splitOn h.utf8
  have hmem : n ∈ s.splitOn slash := (List.mem_filter.mp hn).1
  rw [hsplit] at hmem
  rcases List.mem_cons.mp hmem with rfl | hmem
  · exact hm
  · exact hms n hmem

theorem clean_component {n : Str} (hp : CleanPath p) (hn : slash ∉ n) (hclean : CleanStr n) : CleanPath (component p n) := by
  have hnames := names_component (fun m hm => (hp m hm).1) hn
  intro m hm
  refine ⟨hnames m hm, ?_⟩
  rcases component_cases p n with e | ⟨-, e⟩ | e
  · exact (hp m (e ▸ hm)).2
  · exact (hp m (List.mem_of_mem_dropLast (e ▸ hm))).2
  · rw [e, List.mem_append, List.mem_singleton] at hm
    rcases hm with hm | rfl
    · exact (hp m hm).2
    · exact hclean

theorem clean_foldl {ns : List Str} (hns : ∀ n ∈ ns, slash ∉ n ∧ CleanStr n) (hp : CleanPath p) :
    CleanPath (ns.foldl component p) := by
  induction ns generalizing p with
  | nil => exact hp
  | cons n ns ih =>
    obtain ⟨h1, h2⟩ := hns n List.mem_cons_self
    exact ih (fun m hm => hns m (List.mem_cons_of_mem _ hm)) (clean_component hp h1 h2)

theorem CleanPath.isParts (h : CleanPath p) : Zipfile.IsParts p := fun n hn => ⟨(h n hn).1.1, (h n hn).1.2.2.2⟩

theorem clean_abspathIn (hcwd : CleanPath cwd) (hs : CleanStr s) : CleanKey (abspathIn cwd s) := by
  have hdot : CleanStr (if s ≠ [] then s else dot) := by
    split
    · exact hs
    · exact ⟨by decide, by decide, by decide⟩
  unfold abspathIn
  generalize (if s ≠ [] then s else dot) = s at hdot
  simp only
  refine ⟨_, ?_, rfl⟩
  rw [← consume, consume_eq]
  refine clean_foldl (fun n hn => ⟨(Zipfile.isParts_parts _ n hn).2, ?_⟩) (by simp [CleanPath])
  revert n
  split
  · exact clean_parts hdot
  · split
    · intro n hn
      rw [Zipfile.parts_append, List.mem_append] at hn
      rcases hn with hn | hn
      · have hbase : parts ((pathStr cwd).rdropWhile (· == slash)) = cwd :=
          (Zipfile.parts_rstrip _).trans (Zipfile.parts_pathStr hcwd.isParts)
        exact (hcwd n (hbase ▸ hn)).2
      · exact clean_parts hdot n hn
    · exact clean_parts (clean_slash.append hdot)

/-! ## A line -/

theorem readLinesFrom_line (line text : Str) (h : newline ∉ s) :
    readLinesFrom line (s ++ newline :: text) = (line ++ s ++ [newline]) :: readLines text := by
  induction s generalizing line with
  | nil => simp [readLinesFrom, readLines]
  | cons c s ih =>
    obtain ⟨hc, hs⟩ := not_or.mp (mt List.mem_cons.mpr h)
    rw [List.cons_append, readLinesFrom, if_neg (Ne.symm hc), ih _ hs]
    simp

theorem octDigit_spec : ∀ d < 8, (48 + UInt8.ofNat d).toNat - 48 = d ∧ isOctDigit (48 + UInt8.ofNat d) = true ∧ isspace (48 + UInt8.ofNat d) = false ∧
    (48 + UInt8.ofNat d) ||| 32 ≠ 111 ∧ utf8Check [48 + UInt8.ofNat d] = true ∧ 48 + UInt8.ofNat d ∉ [43, 45, tab, newline, carriageReturn] := by
  decide

/-- The mode of a line, its digits and their value. -/
theorem octal3_spec : ∀ mode < 512, intOctal (octal3 mode) = some (mode : Int) ∧ tab ∉ octal3 mode ∧
    utf8Check (octal3 mode) = true ∧ newline ∉ octal3 mode ∧ carriageReturn ∉ octal3 mode := by
  intro mode h
  obtain ⟨hx, hxo, hxs, -, hxu, hxn⟩ := octDigit_spec (mode / 64 % 8) (Nat.mod_lt _ (by decide))
  obtain ⟨hy, hyo, -, hyb, hyu, hyn⟩ := octDigit_spec (mode / 8 % 8) (Nat.mod_lt _ (by decide))
  obtain ⟨hz, hzo, -, -, hzu, hzn⟩ := octDigit_spec (mode % 8) (Nat.mod_lt _ (by decide))
  unfold octal3
  generalize 48 + UInt8.ofNat _ = x at *
  generalize 48 + UInt8.ofNat _ = y at *
  generalize 48 + UInt8.ofNat _ = z at *
  simp only [List.mem_cons, List.not_mem_nil, or_false, not_or] at hxn hyn hzn
  have hvalue : octValue [x, y, z] = mode := by
    simp [octValue, hxo, hyo, hzo, hx, hy, hz]
    omega
  have hcheck : utf8Check [x, y, z] = true :=
    (utf8From_append hxu [y, z]).trans ((utf8From_append hyu [z]).trans hzu)
  refine ⟨?_, ?_, hcheck, ?_, ?_⟩
  · simp [intOctal, hxs, hxn, hyb, hxo, hyo, hzo, hvalue]
  all_goals simp [eq_comm, hxn, hyn, hzn]

theorem clean_octal3 (h : mode < 512) : CleanStr (octal3 mode) :=
  ⟨(octal3_spec mode h).2.2.1, (octal3_spec mode h).2.2.2.1, (octal3_spec mode h).2.2.2.2⟩

theorem abspathIn_key (cwd : Path) (h : CleanKey key) : abspathIn cwd key = key := by
  obtain ⟨p, hp, rfl⟩ := h
  exact abspathIn_pathStr cwd ⟨p, fun n hn => (hp n hn).1⟩

theorem mode_of_nine_bits (h : mode < 512) : mode &&& 0o777 = mode := by
  have := Nat.and_two_pow_sub_one_eq_mod mode 9
  rw [Nat.mod_eq_of_lt h] at this
  exact this

/-- What a saved line says is what was saved. -/
theorem loadLine_saveLine (cwd : Path) (acc : Table) (hkey : CleanKey key) (hmode : data.lookup key = some mode) (hlt : mode < 512) :
    loadLine cwd acc (saveLine data key) = .ok (acc.insert key mode) := by
  have hbits : (data.lookup key).getD 0 &&& 0o777 = mode := by
    rw [hmode]
    exact mode_of_nine_bits hlt
  obtain ⟨hint, htab, -⟩ := octal3_spec mode hlt
  have hline : CleanStr (octal3 mode ++ tab :: key) := (clean_octal3 hlt).append (clean_tab.append hkey.str)
  have hsave : saveLine data key = octal3 mode ++ tab :: key ++ [newline] := by
    unfold saveLine
    rw [hbits]
  have hutf8 : utf8Check (octal3 mode ++ tab :: key ++ [newline]) = true := by
    rw [utf8Check, utf8From_append hline.utf8]
    rfl
  have hstrip : (octal3 mode ++ tab :: key ++ [newline]).rdropWhile (fun c => c = carriageReturn || c = newline) =
      octal3 mode ++ tab :: key := by
    rw [List.rdropWhile_concat, if_pos (by decide), List.rdropWhile_eq_self_iff]
    intro hne hlast
    have hmem := List.getLast_mem hne
    rcases (Bool.or_eq_true _ _).mp hlast with e | e
    · exact hline.noCr (of_decide_eq_true e ▸ hmem)
    · exact hline.noLf (of_decide_eq_true e ▸ hmem)
  have htext : (octal3 mode ++ tab :: key).takeWhile (· ≠ tab) = octal3 mode := by
    rw [List.takeWhile_append_of_pos fun c hc => by simpa using fun e : c = tab => htab (e ▸ hc)]
    simp
  have hpath : (octal3 mode ++ tab :: key).drop ((octal3 mode).length + 1) = key := by
    rw [List.drop_append]
    simp
  have hreduce : ((mode : Int) % 0o1000).toNat = mode := by omega
  have hsome : ¬ (octal3 mode ++ tab :: key = [] ∨ tab ∉ octal3 mode ++ tab :: key) := by simp
  unfold loadLine
  rw [hsave, hutf8, hstrip]
  simp only [Bool.not_true, Bool.false_eq_true, if_false, hsome, htext, hint, hpath, hreduce, abspathIn_key cwd hkey]

/-! ## The file -/

/-- Whatever the current directory, the file is read as the table. -/
def Stored (db : Option Str) (data : Table) : Prop :=
  ∀ cwd, ∃ data', loadText cwd db = .ok data' ∧ ∀ key, data'.lookup key = data.lookup key

theorem readLines_saveLines (h : CleanTable data) {keys : List Str} (hkeys : ∀ key ∈ keys, key ∈ data) :
    readLines (keys.flatMap (saveLine data)) = keys.map (saveLine data) := by
  induction keys with
  | nil => rfl
  | cons key keys ih =>
    obtain ⟨mode, hmode⟩ := Option.isSome_iff_exists.mp (AList.lookup_isSome.mpr (hkeys key List.mem_cons_self))
    have hlt := h.modes key mode hmode
    have hclean : CleanStr (octal3 ((data.lookup key).getD 0 &&& 0o777) ++ tab :: key) := by
      rw [hmode, Option.getD_some, mode_of_nine_bits hlt]
      exact (clean_octal3 hlt).append (clean_tab.append (h.keys key (hkeys key List.mem_cons_self)).str)
    have hline := readLinesFrom_line [] (keys.flatMap (saveLine data)) hclean.noLf
    rw [List.flatMap_cons, List.map_cons, ← ih fun k hk => hkeys k (List.mem_cons_of_mem _ hk)]
    simpa only [saveLine, List.append_assoc, List.cons_append, List.nil_append, readLines] using hline

theorem loadLines_saveLines (cwd : Path) (h : CleanTable data) {keys : List Str} (hkeys : ∀ key ∈ keys, key ∈ data) (acc : Table) :
    ∃ acc', (keys.map (saveLine data)).foldlM (loadLine cwd) acc = .ok acc' ∧
      ∀ key, acc'.lookup key = if key ∈ keys then data.lookup key else acc.lookup key := by
  induction keys generalizing acc with
  | nil => exact ⟨acc, rfl, fun key => by simp⟩
  | cons k keys ih =>
    obtain ⟨mode, hmode⟩ := Option.isSome_iff_exists.mp (AList.lookup_isSome.mpr (hkeys k List.mem_cons_self))
    have hline := loadLine_saveLine cwd acc (h.keys k (hkeys k List.mem_cons_self)) hmode (h.modes k mode hmode)
    obtain ⟨acc', hload, hacc⟩ := ih (fun key hkey => hkeys key (List.mem_cons_of_mem _ hkey)) (acc.insert k mode)
    refine ⟨acc', ?_, fun key => ?_⟩
    · rw [List.map_cons, List.foldlM_cons, hline]
      exact hload
    · rw [hacc]
      by_cases hin : key ∈ keys
      · simp [hin]
      · by_cases e : key = k
        · subst e
          rw [if_neg hin, if_pos List.mem_cons_self, AList.lookup_insert, hmode]
        · simp only [hin, e, List.mem_cons, or_self, if_false]
          exact AList.lookup_insert_ne e

/-- A saved table is stored. -/
theorem stored_saveText (h : CleanTable data) : Stored (some (saveText data)) data := by
  intro cwd
  have hperm := List.mergeSort_perm data.keys fun a b => decide (a ≤ b)
  have hkeys : ∀ key ∈ data.keys.mergeSort (fun a b => decide (a ≤ b)), key ∈ data := fun key hkey =>
    AList.mem_keys.mpr (hperm.mem_iff.mp hkey)
  obtain ⟨acc, hload, hacc⟩ := loadLines_saveLines cwd h hkeys ∅
  refine ⟨acc, ?_, fun key => ?_⟩
  · show (readLines (saveText data)).foldlM (loadLine cwd) ∅ = .ok acc
    rw [saveText, readLines_saveLines h hkeys]
    exact hload
  · rw [hacc]
    split
    next => rfl
    next hnot =>
      have hout : key ∉ data := fun hin => hnot (hperm.mem_iff.mpr (AList.mem_keys.mp hin))
      rw [AList.lookup_empty, AList.lookup_eq_none.mpr hout]

/-! ## What the calls make of a clean table -/

theorem CleanTable.erase (h : CleanTable data) (key : Str) : CleanTable (data.erase key) where
  keys k hk := h.keys k (AList.mem_erase.mp hk).2
  modes k mode hk := by
    by_cases e : k = key
    · rw [e, AList.lookup_erase] at hk
      simp at hk
    · rw [AList.lookup_erase_ne e] at hk
      exact h.modes k mode hk

theorem CleanTable.insert (h : CleanTable data) (hkey : CleanKey key) (hmode : mode < 512) : CleanTable (data.insert key mode) where
  keys k hk := by
    rcases (AList.mem_insert data).mp hk with rfl | hk
    · exact hkey
    · exact h.keys k hk
  modes k m hk := by
    by_cases e : k = key
    · rw [e, AList.lookup_insert] at hk
      exact Option.some.inj hk ▸ hmode
    · rw [AList.lookup_insert_ne e] at hk
      exact h.modes k m hk

theorem clean_removeTable (order : Table → List Str) (h : CleanTable data) (path : Str) : CleanTable (removeTable order data path) := by
  have hloop : ∀ (pre : Str) (keys : List Str) (t : Table), CleanTable t → CleanTable (keys.foldl (removeKey pre) t) := by
    intro pre keys
    induction keys with
    | nil => exact fun _ ht => ht
    | cons key keys ih =>
      intro t ht
      apply ih
      unfold removeKey
      split
      · exact ht.erase key
      · exact ht
  apply hloop
  split
  · exact h.erase path
  · exact h

theorem pathStr_under {p q : Path} (hp : CleanPath p) (hq : q ≠ []) :
    pathStr (p ++ q) = under (pathStr p) ++ [slash].intercalate q := by
  by_cases hne : p = []
  · rw [hne, under_root]
    rfl
  · have hunder := under_pathStr (p := ⟨p, fun n hn => (hp n hn).1⟩) hne
    rw [pathStr_append hne hq, hunder]

/-- The place of a key below the old path is a key below the new one. -/
theorem clean_rebase {o n : Path} (ho : CleanPath o) (hn : CleanPath n) (hkey : CleanKey key) (hpre : under (pathStr o) <+: key)
    (hself : key = pathStr o → pathStr n = pathStr o) :
    CleanKey (under (pathStr n) ++ key.drop (under (pathStr o)).length) := by
  obtain ⟨k, hk, rfl⟩ := hkey
  obtain ⟨r, hr⟩ := hpre
  have hdrop : (pathStr k).drop (under (pathStr o)).length = r := by
    rw [← hr, List.drop_left]
  have hparts : k = o ++ parts r := by
    by_cases hne : o = []
    · have : parts ([] ++ slash :: r) = parts [] ++ parts r := Zipfile.parts_append [] r
      rw [hne, under_root] at hr
      rw [hne, ← Zipfile.parts_pathStr hk.isParts, ← hr]
      exact this
    · have hunder := under_pathStr (p := ⟨o, fun n hn => (ho n hn).1⟩) hne
      rw [hunder, List.append_assoc] at hr
      have := Zipfile.parts_append (pathStr o) r
      rw [Zipfile.parts_pathStr ho.isParts] at this
      rw [← Zipfile.parts_pathStr hk.isParts, ← hr]
      exact this
  rw [hdrop]
  by_cases hnil : parts r = []
  · -- the key is the old path itself, so this is `/` moved to `/`
    have hko : pathStr k = pathStr o := by rw [hparts, hnil, List.append_nil]
    have hroot : o = [] := by
      by_contra hne
      have hunder := under_pathStr (p := ⟨o, fun n hn => (ho n hn).1⟩) hne
      have := congrArg List.length hr
      rw [hunder, hko] at this
      simp at this
    have hno := hself hko
    rw [hroot] at hno hr hko
    rw [under_root, hko] at hr
    have hr' : r = [] := by simpa [pathStr] using hr
    rw [hno, under_root, hr']
    exact ⟨[], by simp [CleanPath], by simp [pathStr]⟩
  · have hclean : CleanPath (parts r) := by
      intro m hm
      exact hk m (hparts ▸ List.mem_append_right o hm)
    have hjoin : r = [slash].intercalate (parts r) := by
      have := pathStr_under ho hnil
      rw [← hparts, ← hr] at this
      exact List.append_cancel_left this
    refine ⟨n ++ parts r, ?_, ?_⟩
    · intro m hm
      rcases List.mem_append.mp hm with hm | hm
      · exact hn m hm
      · exact hclean m hm
    · rw [pathStr_under hn hnil, ← hjoin]

theorem clean_moveLoop {o n : Path} (ho : CleanPath o) (hn : CleanPath n) {keys : List Str}
    (hkeys : ∀ k ∈ keys, CleanKey k ∧ (k = pathStr o → pathStr n = pathStr o)) (h : CleanTable data)
    (hdata : keys.foldlM (moveKey (under (pathStr o)) (under (pathStr n))) data = some data') : CleanTable data' := by
  induction keys generalizing data with
  | nil =>
    obtain rfl : data = data' := Option.some.inj hdata
    exact h
  | cons key keys ih =>
    obtain ⟨hkey, hself⟩ := hkeys key List.mem_cons_self
    rw [List.foldlM_cons] at hdata
    by_cases hpre : under (pathStr o) <+: key
    · cases hvalue : data.lookup key with
      | none =>
        rw [moveKey, if_pos hpre, hvalue] at hdata
        simp at hdata
      | some value =>
        rw [moveKey_below hpre hvalue] at hdata
        refine ih (fun k hk => hkeys k (List.mem_cons_of_mem _ hk)) ?_ hdata
        exact (h.erase key).insert (clean_rebase ho hn hkey hpre hself) (h.modes key value hvalue)
    · rw [moveKey_other hpre] at hdata
      exact ih (fun k hk => hkeys k (List.mem_cons_of_mem _ hk)) h hdata

theorem clean_moveTable {order : Table → List Str} (horder : ∀ data, (order data).Perm data.keys) {old new : Str}
    (hold : CleanKey old) (hnew : CleanKey new) (h : CleanTable data) (hdata : moveTable order data old new = some data') :
    CleanTable data' := by
  obtain ⟨o, ho, rfl⟩ := hold
  obtain ⟨n, hn, rfl⟩ := hnew
  have hone : CleanTable (moveOne data (pathStr o) (pathStr n)) := by
    unfold moveOne
    split
    · rename_i value hvalue
      exact (h.erase _).insert ⟨n, hn, rfl⟩ (h.modes _ value hvalue)
    · exact h
  rw [moveTable_eq] at hdata
  refine clean_moveLoop ho hn (fun k hk => ?_) hone hdata
  have hk : k ∈ moveOne data (pathStr o) (pathStr n) := AList.mem_keys.mpr ((horder _).mem_iff.mp hk)
  refine ⟨hone.keys k hk, fun e => ?_⟩
  by_contra hne
  rw [← AList.lookup_isSome, e, moveOne_lookup hne, if_pos rfl] at hk
  simp at hk

theorem removeTable_unchanged {order : Table → List Str} (horder : ∀ data, (order data).Perm data.keys) {path : Str}
    (h : ¬ (path ∈ data ∨ ∃ key ∈ data.keys, under path <+: key)) : removeTable order data path = data := by
  obtain ⟨hpath, hbelow⟩ := not_or.mp h
  have hloop : ∀ keys : List Str, (∀ k ∈ keys, ¬ under path <+: k) → keys.foldl (removeKey (under path)) data = data := by
    intro keys
    induction keys with
    | nil => exact fun _ => rfl
    | cons key keys ih =>
      intro hkeys
      rw [List.foldl_cons, removeKey, if_neg (hkeys key List.mem_cons_self)]
      exact ih fun k hk => hkeys k (List.mem_cons_of_mem _ hk)
  unfold removeTable
  rw [if_neg hpath]
  exact hloop _ fun k hk hpre => hbelow ⟨k, (horder data).mem_iff.mp hk, hpre⟩

theorem moveTable_unchanged {order : Table → List Str} (horder : ∀ data, (order data).Perm data.keys) {old : Str} (new : Str)
    (h : ¬ (old ∈ data ∨ ∃ key ∈ data.keys, under old <+: key)) : moveTable order data old new = some data := by
  obtain ⟨hold, hbelow⟩ := not_or.mp h
  have hloop : ∀ keys : List Str, (∀ k ∈ keys, ¬ under old <+: k) →
      keys.foldlM (moveKey (under old) (under new)) data = some data := by
    intro keys
    induction keys with
    | nil => exact fun _ => rfl
    | cons key keys ih =>
      intro hkeys
      rw [List.foldlM_cons, moveKey_other (hkeys key List.mem_cons_self)]
      exact ih fun k hk => hkeys k (List.mem_cons_of_mem _ hk)
  have hone : moveOne data old new = data := by
    unfold moveOne
    rw [AList.lookup_eq_none.mpr hold]
  rw [moveTable_eq, hone]
  exact hloop _ fun k hk hpre => hbelow ⟨k, (horder data).mem_iff.mp hk, hpre⟩

/-! ## Runs -/

inductive PermCall where
  | getMode (path : Str) (directory : Option Bool)
  | chmod (path : Str) (mode : Mode)
  | remove (path : Str)
  | move (oldPath newPath : Str)
  | resetCache

/-- The state a call leaves, whether it returns or raises. -/
def PermCall.run (env : Env) (st : Perm) : PermCall → Perm
  | .getMode path directory => (getModeOf env path directory st).2
  | .chmod path mode => (Pyperm.chmod env path mode st).2
  | .remove path => (Pyperm.remove env path st).2
  | .move oldPath newPath => (Pyperm.move env oldPath newPath st).2
  | .resetCache => (Pyperm.resetCache st).2

/-- The paths of a call are names without line ends. -/
def PermCall.Clean : PermCall → Prop
  | .getMode _ _ => True
  | .chmod path _ => CleanStr path
  | .remove _ => True
  | .move oldPath newPath => CleanStr oldPath ∧ CleanStr newPath
  | .resetCache => True

/-- The states that calls leave which save the file where they try to. At the start the
file is missing, or it is what a table was saved as or would be read as anywhere. -/
inductive Reaches : Perm → Prop
  | start {db : Option Str} {data : Table} : CleanTable data → Stored db data → Reaches ⟨none, db⟩
  | call {st : Perm} (env : Env) (call : PermCall) : Reaches st → env.saved = .done → CleanPath env.cwd → call.Clean →
      Reaches (call.run env st)

/-- The file has the table, loaded or not. -/
def Synced (st : Perm) : Prop := ∃ data, CleanTable data ∧ Stored st.db data ∧ (st.cache = none ∨ st.cache = some data)

variable {st : Perm} {env : Env}

theorem CleanTable.congr (h : CleanTable data) (hlookup : ∀ key, data'.lookup key = data.lookup key) : CleanTable data' where
  keys key hkey := by
    apply h.keys
    rw [← AList.lookup_isSome] at hkey ⊢
    rwa [hlookup] at hkey
  modes key mode hkey := h.modes key mode (hlookup key ▸ hkey)

theorem load_synced (h : Synced st) (env : Env) : ∃ data, CleanTable data ∧ Stored st.db data ∧
    load env st = (.ok data, { st with cache := some data }) := by
  obtain ⟨data, hclean, hstored, hcache | hcache⟩ := h
  · obtain ⟨data', hload, hlookup⟩ := hstored env.cwd
    refine ⟨data', hclean.congr hlookup, fun cwd => ?_, ?_⟩
    · obtain ⟨data'', hload', hlookup'⟩ := hstored cwd
      exact ⟨data'', hload', fun key => (hlookup' key).trans (hlookup key).symm⟩
    · unfold load
      rw [get_bind, hcache]
      simp only
      rw [hload, ofExcept_bind]
      rfl
  · refine ⟨data, hclean, hstored, ?_⟩
    unfold load
    rw [get_bind, hcache]
    simp only [pure]
    rw [← hcache]

theorem save_synced (hclean : CleanTable data) (hsaved : env.saved = .done) (db : Option Str) :
    ∃ st', save env ⟨some data, db⟩ = (.ok true, st') ∧ Synced st' := by
  have hload : load env ⟨some data, db⟩ = (.ok data, ⟨some data, db⟩) := rfl
  refine ⟨⟨some data, some (saveText data)⟩, ?_, data, hclean, stored_saveText hclean, .inr rfl⟩
  unfold save
  rw [bind_of_ok hload, hsaved]
  rfl

theorem call_synced (h : Synced st) (hsaved : env.saved = .done) (hcwd : CleanPath env.cwd) (call : PermCall) (hcall : call.Clean) :
    Synced (call.run env st) := by
  obtain ⟨data, hclean, hstored, hload⟩ := load_synced h env
  have hloaded : Synced { st with cache := some data } := ⟨data, hclean, hstored, .inr rfl⟩
  cases call with
  | getMode path directory =>
    have : getModeOf env path directory st =
        (.ok (modeAt data (abspathIn env.cwd path) (directory.getD env.isDir)), { st with cache := some data }) := bind_of_ok hload
    simp only [PermCall.run, this]
    exact hloaded
  | chmod path mode =>
    simp only [PermCall.run, Pyperm.chmod]
    split
    · exact h
    · cases hmode : modeArg mode with
      | error e => exact h
      | ok m =>
        have hinsert : CleanTable (data.insert (abspathIn env.cwd path) (m % 0o1000).toNat) :=
          hclean.insert (clean_abspathIn hcwd hcall) (by omega)
        obtain ⟨st', hsave, hsynced⟩ := save_synced hinsert hsaved st.db
        rw [ofExcept_bind, bind_of_ok hload, modify_bind, bind_of_ok hsave]
        exact hsynced
  | remove path =>
    have hremoved := clean_removeTable env.order hclean (abspathIn env.cwd path)
    obtain ⟨st', hsave, hsynced⟩ := save_synced hremoved hsaved st.db
    simp only [PermCall.run, Pyperm.remove]
    rw [bind_of_ok hload, modify_bind]
    split
    · rw [bind_of_ok hsave]
      exact hsynced
    · rename_i hchanged
      rw [removeTable_unchanged env.order_perm hchanged]
      exact hloaded
  | move oldPath newPath =>
    obtain ⟨data', hdata'⟩ := moveTable_returns env.order_perm data (abspathIn env.cwd oldPath) (abspathIn env.cwd newPath)
    have hmoved := clean_moveTable env.order_perm (clean_abspathIn hcwd hcall.1) (clean_abspathIn hcwd hcall.2) hclean hdata'
    obtain ⟨st', hsave, hsynced⟩ := save_synced hmoved hsaved st.db
    simp only [PermCall.run, Pyperm.move]
    rw [bind_of_ok hload, hdata']
    simp only
    rw [modify_bind]
    split
    · rw [bind_of_ok hsave]
      exact hsynced
    · rename_i hchanged
      rw [moveTable_unchanged env.order_perm _ hchanged] at hdata'
      obtain rfl : data = data' := Option.some.inj hdata'
      exact hloaded
  | resetCache => exact ⟨data, hclean, hstored, .inl rfl⟩

theorem synced_always (h : Reaches st) : Synced st := by
  induction h with
  | start hclean hstored => exact ⟨_, hclean, hstored, .inl rfl⟩
  | call env call _ hsaved hcwd hcall ih => exact call_synced ih hsaved hcwd call hcall

theorem getMode_stored (hstored : Stored st.db data) (hcache : st.cache = none ∨ st.cache = some data) (env : Env) (path : Str)
    (directory : Option Bool) :
    (getModeOf env path directory st).1 = .ok (modeAt data (abspathIn env.cwd path) (directory.getD env.isDir)) := by
  unfold getModeOf
  rcases hcache with hcache | hcache
  · obtain ⟨data', hload, hlookup⟩ := hstored env.cwd
    have hrun : load env st = (.ok data', { st with cache := some data' }) := by
      unfold load
      rw [get_bind, hcache]
      simp only
      rw [hload, ofExcept_bind]
      rfl
    rw [bind_of_ok hrun]
    simp only [pure, modeAt, hlookup]
  · have hrun : load env st = (.ok data, st) := by
      unfold load
      rw [get_bind, hcache]
      rfl
    rw [bind_of_ok hrun]
    rfl

theorem reload_keeps_modes (h : Reaches st) (env : Env) (path : Str) (directory : Option Bool) :
    ∃ mode, (getModeOf env path directory st).1 = .ok mode ∧ (getModeOf env path directory (resetCache st).2).1 = .ok mode := by
  obtain ⟨data, -, hstored, hcache⟩ := synced_always h
  refine ⟨_, getMode_stored hstored hcache env path directory, ?_⟩
  have hreset : Stored (resetCache st).2.db data := hstored
  exact getMode_stored hreset (.inl rfl) env path directory

/-! ## A move of any table -/

theorem move_runs (oldPath newPath : Str) (hload : (load env st).1 = .ok data) :
    ∃ data', moveTable env.order data (abspathIn env.cwd oldPath) (abspathIn env.cwd newPath) = some data' ∧
      (move env oldPath newPath st).1 = .ok () ∧ (move env oldPath newPath st).2.cache = some data' := by
  obtain ⟨data', hdata'⟩ := moveTable_returns env.order_perm data (abspathIn env.cwd oldPath) (abspathIn env.cwd newPath)
  have hrun : load env st = (.ok data, (load env st).2) := Prod.ext hload rfl
  refine ⟨data', hdata', ?_⟩
  have hsave : ∀ db : Option Str, ∃ saved db', save env ⟨some data', db⟩ = (.ok saved, ⟨some data', db'⟩) := by
    intro db
    have hloaded : load env ⟨some data', db⟩ = (.ok data', ⟨some data', db⟩) := rfl
    unfold save
    rw [bind_of_ok hloaded]
    cases env.saved with
    | done => exact ⟨true, _, rfl⟩
    | failed left => exact ⟨false, _, rfl⟩
  obtain ⟨saved, db', hsaved⟩ := hsave (load env st).2.db
  simp only [move]
  rw [bind_of_ok hrun, hdata']
  simp only
  rw [modify_bind]
  split
  · rw [bind_of_ok hsaved]
    exact ⟨rfl, rfl⟩
  · exact ⟨rfl, rfl⟩

/-- A move carries the modes with it just when no stale entry is in its way, and the table
can be read back from its file after any calls. -/
theorem modes_moved_iff_and_reloaded (env : Env) :
    (∀ (oldPath newPath : Str) (st : Perm) (data : Table), (load env st).1 = .ok data →
      NonNested (abspathIn env.cwd oldPath) (abspathIn env.cwd newPath) →
      ∃ data', (move env oldPath newPath st).1 = .ok () ∧ (move env oldPath newPath st).2.cache = some data' ∧
        ∀ kind, Moved env.cwd data data' (abspathIn env.cwd oldPath) (abspathIn env.cwd newPath) kind ↔
          NoStale data (abspathIn env.cwd oldPath) (abspathIn env.cwd newPath) kind) ∧
    ∀ st, Reaches st → ∀ (path : Str) (directory : Option Bool),
      ∃ mode, (getModeOf env path directory st).1 = .ok mode ∧ (getModeOf env path directory (resetCache st).2).1 = .ok mode := by
  refine ⟨fun oldPath newPath st data hload h => ?_, fun st h => reload_keeps_modes h env⟩
  obtain ⟨data', hdata', hok, hcache⟩ := move_runs oldPath newPath hload
  obtain ⟨o, ho⟩ := abspathIn_names env.cwd oldPath
  obtain ⟨n, hn⟩ := abspathIn_names env.cwd newPath
  exact ⟨data', hok, hcache, fun kind => moved_iff_noStale env.cwd env.order_perm ho hn h hdata' kind⟩

/-- Storage that takes every save. -/
def plainEnv : Env := ⟨[], true, false, .done, AList.keys, fun _ => List.Perm.refl _⟩

/-- `/a`. -/
def pathA : Str := [47, 97]

/-- `/b`. -/
def pathB : Str := [47, 98]

theorem nonNested_a_b : NonNested (abspathIn plainEnv.cwd pathA) (abspathIn plainEnv.cwd pathB) := by
  unfold NonNested
  decide

/-- `/a`, of mode 444, moved to `/b`; and the file read back where there was none. -/
theorem modes_moved_and_reloaded_once :
    (∃ data', (move plainEnv pathA pathB ⟨some (AList.singleton pathA 0o444), none⟩).2.cache = some data' ∧
      Moved [] (AList.singleton pathA 0o444) data' pathA pathB fun _ => false) ∧
    ∃ mode, (getModeOf plainEnv pathA none ⟨none, none⟩).1 = .ok mode ∧
      (getModeOf plainEnv pathA none (resetCache ⟨none, none⟩).2).1 = .ok mode := by
  have hempty : Reaches ⟨none, none⟩ := by
    have hclean : CleanTable ∅ := by
      refine ⟨fun key hkey => absurd hkey (AList.notMem_empty key), fun key mode hmode => ?_⟩
      rw [AList.lookup_empty] at hmode
      simp at hmode
    exact .start hclean fun cwd => ⟨∅, rfl, fun _ => rfl⟩
  refine ⟨?_, (modes_moved_iff_and_reloaded plainEnv).2 _ hempty pathA none⟩
  obtain ⟨data', -, hcache, hmoved⟩ := (modes_moved_iff_and_reloaded plainEnv).1 pathA pathB ⟨some (AList.singleton pathA 0o444), none⟩
    (AList.singleton pathA 0o444) rfl nonNested_a_b
  refine ⟨data', hcache, (hmoved fun _ => false).mpr ?_⟩
  intro p _ mode hmode
  exfalso
  have hne : inside pathB p ≠ pathA := by
    have hsecond : (inside pathB p).getD 1 0 = 98 := by
      unfold inside
      split
      · rfl
      · rfl
    intro e
    rw [e] at hsecond
    exact absurd hsecond (by decide)
  have habs : abspathIn plainEnv.cwd pathB = pathB := by decide
  rw [habs] at hmode
  have hmem : inside pathB p ∈ (AList.singleton pathA 0o444 : Table) := AList.lookup_isSome.mp (by rw [hmode]; rfl)
  rw [AList.mem_keys, AList.keys_singleton, List.mem_singleton] at hmem
  exact hne hmem

/-- `/a`, without an entry, moved to `/b`, of which one is left: it has that mode then. -/
theorem stale_mode_kept : ¬ ∀ (env : Env) (oldPath newPath : Str) (st : Perm) (data : Table), (load env st).1 = .ok data →
    NonNested (abspathIn env.cwd oldPath) (abspathIn env.cwd newPath) →
    ∃ data', (move env oldPath newPath st).2.cache = some data' ∧
      ∀ kind, Moved env.cwd data data' (abspathIn env.cwd oldPath) (abspathIn env.cwd newPath) kind := by
  intro h
  obtain ⟨data', hcache, hmoved⟩ := h plainEnv pathA pathB ⟨some (AList.singleton pathB 0o444), none⟩ _ rfl nonNested_a_b
  have hmode : (move plainEnv pathA pathB ⟨some (AList.singleton pathB 0o444), none⟩).2.cache.map
      (fun data => recordedMode data [] pathB false) = some 0o444 := by decide
  rw [hcache, Option.map_some, Option.some.injEq] at hmode
  have hsame : recordedMode data' [] pathB false = recordedMode (AList.singleton pathB 0o444) [] pathA false :=
    (hmoved fun _ => false).modes ⟨[], by simp⟩
  rw [hmode] at hsame
  exact absurd hsame (by decide)

end PythonUltra.Pyperm
