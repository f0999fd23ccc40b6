/-
  PythonUltra.Pyeditor.Save — save_file loses nothing (modules/pyeditor/__init__.py).

  Whatever fails, and wherever: what was at the target is there when save_file says False,
  or it is at the backup and the rename that was to bring it back has failed; when it says
  True the new text is there (`saveFile_outcome`). The temporary and the backup stand where
  nothing was. A directory at the target is moved aside like a file is, with all that is in
  it, and stays there, since it cannot be removed (`saveFile_over_directory`).

  Temporary and backup are the target's name with something after it, so they are in one
  directory (`Sibling.paths`); but a NUL in the name cuts all three to one path, and then
  no name is unused.
-/

import PythonUltra.Pyeditor.Runs

namespace PythonUltra.Pyeditor

open PythonUltra.Lib PythonUltra.Lib.Prog PythonUltra.Os

/-! ## The names of the temporary and the backup -/

/-- What is put after the name: it stays one name, and is not taken for `.` or `..`. -/
def Tail (b : Str) : Prop := slash ∉ b ∧ 0 ∉ b ∧ 3 ≤ b.length

/-- A name beside another. -/
def Sibling (candidate name : Text) : Prop := ∃ tail, name = candidate ++ tail ∧ Tail (bytes tail)

theorem split_last_slash (a : Str) : slash ∉ a ∨ ∃ x y, a = x ++ slash :: y ∧ slash ∉ y := by
  induction a with
  | nil => exact .inl List.not_mem_nil
  | cons c a ih =>
    rcases ih with hno | ⟨x, y, ha, hy⟩
    · by_cases hc : c = slash
      · exact .inr ⟨[], a, by rw [hc]; rfl, hno⟩
      · refine .inl fun h => ?_
        rcases List.mem_cons.mp h with h | h
        · exact hc h.symm
        · exact hno h
    · exact .inr ⟨c :: x, y, by rw [ha]; rfl, hy⟩

/-- A last name made longer is another name in the same directory. -/
theorem component_tail {F : Path} {y tail : Str} (ht : Tail tail) :
    component F (y ++ tail) = F ++ [y ++ tail] ∧ component F y ≠ F ++ [y ++ tail] := by
  obtain ⟨_, _, hlen⟩ := ht
  have hlen' : 3 ≤ (y ++ tail).length := by
    rw [List.length_append]
    omega
  have hne : y ++ tail ≠ [] ∧ y ++ tail ≠ dot ∧ y ++ tail ≠ dotdot := by
    refine ⟨?_, ?_, ?_⟩ <;> (intro h; rw [h] at hlen'; revert hlen'; decide)
  constructor
  · unfold component
    rw [if_neg (by rw [not_or]; exact ⟨hne.1, hne.2.1⟩), if_neg hne.2.2]
  · rcases component_cases F y with h | ⟨_, h⟩ | h
    · rw [h]
      exact fun e => by simpa using congrArg List.length e
    · rw [h]
      intro e
      have := congrArg List.length e
      rw [List.length_dropLast, List.length_append, List.length_singleton] at this
      omega
    · rw [h]
      intro e
      have hy : y = y ++ tail := by simpa using e
      have := congrArg List.length hy
      rw [List.length_append] at this
      omega

/-- The paths of names beside a name without a NUL: all in one directory, and none is that of the name. -/
theorem resolve_tail (cwd : Path) {a : Str} (h0 : 0 ∉ a) : ∃ F y, ∀ tail, Tail tail →
    resolve cwd (a ++ tail) = F ++ [y ++ tail] ∧ resolve cwd a ≠ F ++ [y ++ tail] := by
  rcases split_last_slash a with hno | ⟨x, y, ha, hy⟩
  · refine ⟨cwd, a, fun tail ht => ?_⟩
    obtain ⟨hin, hout⟩ := component_tail (F := cwd) (y := a) ht
    have hhead : ∀ b : Str, slash ∉ b → b.head? ≠ some slash := fun b hb h => hb (List.mem_of_mem_head? h)
    have hat : slash ∉ a ++ tail := by
      rw [List.mem_append, not_or]
      exact ⟨hno, ht.1⟩
    have h0t : 0 ∉ a ++ tail := by
      rw [List.mem_append, not_or]
      exact ⟨h0, ht.2.1⟩
    unfold resolve
    rw [cstr_of_not_mem h0, cstr_of_not_mem h0t, if_neg (hhead _ hno), if_neg (hhead _ hat), consume_name _ hno,
      consume_name _ hat]
    exact ⟨hin, hout⟩
  · refine ⟨consume (if a.head? = some slash then [] else cwd) x, y, fun tail ht => ?_⟩
    obtain ⟨hin, hout⟩ := component_tail (F := consume (if a.head? = some slash then [] else cwd) x) (y := y) ht
    have hyt : slash ∉ y ++ tail := by
      rw [List.mem_append, not_or]
      exact ⟨hy, ht.1⟩
    have h0t : 0 ∉ a ++ tail := by
      rw [List.mem_append, not_or]
      exact ⟨h0, ht.2.1⟩
    have hhead : (a ++ tail).head? = a.head? := by
      rw [ha]
      cases x with
      | nil => rfl
      | cons c x => rfl
    have hsplit : a ++ tail = x ++ slash :: (y ++ tail) := by
      rw [ha, List.append_assoc]
      rfl
    unfold resolve
    rw [cstr_of_not_mem h0, cstr_of_not_mem h0t, hhead]
    constructor
    · rw [hsplit, consume_append, consume_name _ hyt]
      exact hin
    · rw [show consume _ a = consume _ (x ++ slash :: y) from congrArg (consume _) ha, consume_append, consume_name _ hy]
      exact hout

/-- Two names beside the target's: the paths of all three are one, or those two are in one directory. -/
theorem Sibling.paths {candidate temporary backup : Text} (cwd : Path) (ht : Sibling candidate temporary)
    (hk : Sibling candidate backup) :
    (resolve cwd (bytes temporary) = resolve cwd (bytes candidate) ∧ resolve cwd (bytes backup) = resolve cwd (bytes candidate)) ∨
    (resolve cwd (bytes temporary) ≠ resolve cwd (bytes candidate) ∧ ∃ F x y, resolve cwd (bytes temporary) = F ++ [x] ∧
      resolve cwd (bytes backup) = F ++ [y]) := by
  obtain ⟨t, ht, htail⟩ := ht
  obtain ⟨k, hk, hktail⟩ := hk
  rw [ht, hk, bytes_append, bytes_append]
  by_cases h0 : 0 ∈ bytes candidate
  · exact .inl ⟨resolve_of_mem cwd _ h0, resolve_of_mem cwd _ h0⟩
  · obtain ⟨F, y, hF⟩ := resolve_tail cwd h0
    obtain ⟨htpath, hne⟩ := hF _ htail
    rw [htpath, (hF _ hktail).1]
    exact .inr ⟨Ne.symm hne, F, _, _, rfl, rfl⟩

theorem rfind_lt_of_not_mem {a b : Text} {c : Chr} {i : Nat} (hb : c ∉ b) (h : rfind (a ++ b) c = some i) : i < a.length := by
  unfold rfind at h
  obtain ⟨j, hj, hi⟩ := Option.map_eq_some_iff.mp h
  obtain ⟨hlt, hc, _⟩ := List.idxOf?_eq_some_iff.mp hj
  rw [List.length_reverse, List.length_append] at hlt
  rw [List.length_append] at hi
  by_contra hge
  rw [List.getElem_reverse, List.getElem_append_right (by rw [List.length_append]; omega)] at hc
  exact hb (hc ▸ List.getElem_mem _)

theorem rfind_last (a : Text) (c : Chr) (b : Text) (h : c ∉ b) : rfind (a ++ c :: b) c = some a.length := by
  have hrev : (a ++ c :: b).reverse = b.reverse ++ c :: a.reverse := by simp
  have hidx : (b.reverse ++ c :: a.reverse).idxOf? c = some b.length := by
    rw [List.idxOf?_eq_some_iff]
    refine ⟨by simp, by simp, ?_⟩
    intro j hj hc
    rw [List.getElem_append_left (by rw [List.length_reverse]; exact hj)] at hc
    exact h (List.mem_reverse.mp (hc ▸ List.getElem_mem _))
  unfold rfind
  rw [hrev, hidx, Option.map_some, List.length_append, List.length_cons]
  congr 1
  omega

/-- The end that marks a temporary or a backup: a dot, and no other one. -/
structure Mark (ext : Text) : Prop where
  dot : ∃ rest, ext = ofChar '.' :: rest ∧ ofChar '.' ∉ rest
  slash : slashChr ∉ ext
  tail : Tail (bytes ext)

theorem mark_temporary : Mark (lit ".pu-tmp") := ⟨⟨lit "pu-tmp", rfl, by decide⟩, by decide, by unfold Tail; decide⟩

theorem mark_backup : Mark (lit ".pu-backup") := ⟨⟨lit "pu-backup", rfl, by decide⟩, by decide, by unfold Tail; decide⟩

theorem Tail.append {a b : Str} (ha : Tail a) (hb : slash ∉ b ∧ 0 ∉ b) : Tail (a ++ b) ∧ Tail (b ++ a) := by
  obtain ⟨h1, h2, h3⟩ := ha
  unfold Tail
  simp only [List.mem_append, List.length_append, not_or]
  refine ⟨⟨⟨h1, hb.1⟩, ⟨h2, hb.2⟩, by omega⟩, ⟨hb.1, h1⟩, ⟨hb.2, h2⟩, by omega⟩

/-- A number of `_unused_filename`. -/
theorem digits_clean (number : Nat) : slash ∉ bytes (lit "_" ++ (Nat.toDigits 10 number).map ofChar) ∧
    0 ∉ bytes (lit "_" ++ (Nat.toDigits 10 number).map ofChar) := by
  have hdigit : ∀ c : Char, c.isDigit = true → slash ∉ (ofChar c).bytes ∧ 0 ∉ (ofChar c).bytes := by
    intro c hc
    have hrange : 48 ≤ c.toNat ∧ c.toNat ≤ 57 := by
      simp only [Char.isDigit, Bool.and_eq_true, decide_eq_true_eq, ge_iff_le, UInt32.le_iff_toNat_le] at hc
      exact hc
    have hbyte : (UInt8.ofNat (c.toNat % 128)).toNat = c.toNat := by
      rw [UInt8.toNat_ofNat']
      omega
    have hne : ∀ b : UInt8, b.toNat < 48 → b ∉ (ofChar c).bytes := by
      intro b hb hmem
      have heq : b = UInt8.ofNat (c.toNat % 128) := List.mem_singleton.mp hmem
      rw [heq, hbyte] at hb
      omega
    exact ⟨hne slash (by decide), hne 0 (by decide)⟩
  have hall : ∀ c ∈ (Nat.toDigits 10 number).map ofChar, slash ∉ c.bytes ∧ 0 ∉ c.bytes := by
    intro c hc
    obtain ⟨d, hd, rfl⟩ := List.mem_map.mp hc
    exact hdigit d (Nat.isDigit_of_mem_toDigits (by decide) (by decide) hd)
  have hunder : slash ∉ bytes (lit "_") ∧ 0 ∉ bytes (lit "_") := by decide
  simp only [bytes_append, List.mem_append, not_or]
  refine ⟨⟨hunder.1, fun h => ?_⟩, hunder.2, fun h => ?_⟩
  · obtain ⟨c, hc, hb⟩ := List.mem_flatMap.mp h
    exact (hall c hc).1 hb
  · obtain ⟨c, hc, hb⟩ := List.mem_flatMap.mp h
    exact (hall c hc).2 hb

/-! ## Looking for an unused name -/

section

variable {s : Session}

/-- A program that reads the storage and changes nothing. -/
def Looked (s s' : Session) : Prop := ∃ w, s' = { s with world := w } ∧ Quiet s.world w

instance : IsPreorder Session Looked where
  refl s := ⟨s.world, rfl, .refl _⟩
  trans := by
    intro a b c h1 h2
    obtain ⟨w, hb, hw⟩ := h1
    obtain ⟨w', hc, hw'⟩ := h2
    rw [hb] at hc hw'
    exact ⟨w', hc, hw.trans hw'⟩

theorem looked_call {α : Type} {x : Call α} (hx : Within Quiet x) : Within Looked (call x) := by
  intro s
  have h := hx s.world
  unfold call
  rcases hr : x s.world with ⟨e | a, w⟩ <;> rw [hr] at h <;> exact ⟨w, rfl, h⟩

/-- `_exists` at the path of a text. -/
theorem wp_exists {path : Text} {Q : Bool → Session → Prop} {R : Stop → Session → Prop}
    (htrue : ∀ s', Looked s s' → s.world.fs.get (s.world.resolve (bytes path)) ≠ none → Q true s')
    (hfalse : ∀ s', Looked s s' → s.world.fs.get (s.world.resolve (bytes path)) = none → Q false s')
    (hR : ∀ e s', Looked s s' → R (.raised e) s') : wp (exists_ path) Q R s := by
  refine wp_call.mpr (wp_existsPath (fun w hw h => htrue _ ⟨w, rfl, hw⟩ h) (fun w hw h => hfalse _ ⟨w, rfl, hw⟩ h)
    fun e w hw _ => hR e _ ⟨w, rfl, hw⟩)

/-- A name that was found unused. -/
structure Unused (candidate : Text) (s : Session) (name : Text) (s' : Session) : Prop where
  looked : Looked s s'
  sibling : Sibling candidate name
  free : s.world.fs.get (s.world.resolve (bytes name)) = none

theorem Unused.after {candidate name : Text} {s' s'' : Session} (h : Unused candidate s' name s'') (hs : Looked s s') :
    Unused candidate s name s'' := by
  refine ⟨trans_of Looked hs h.looked, h.sibling, ?_⟩
  have hfree := h.free
  obtain ⟨w, rfl, hw⟩ := hs
  rw [hw.fs, hw.resolve] at hfree
  exact hfree

def Raised (s : Session) (stop : Stop) (s' : Session) : Prop := (∃ e, stop = .raised e) ∧ Looked s s'

theorem wp_numbered {candidate folder stem suffix : Text} (numbers : List Nat)
    (hname : ∀ number : Nat, Sibling candidate (folder ++ stem ++ lit "_" ++ (Nat.toDigits 10 number).map ofChar ++ suffix)) :
    ∀ s, wp (numbered folder stem suffix numbers) (Unused candidate s) (Raised s) s := by
  induction numbers with
  | nil =>
    intro s
    exact ⟨⟨_, rfl⟩, refl_of Looked s⟩
  | cons number rest ih =>
    intro s
    unfold numbered
    refine wp_bind.mpr (wp_exists (fun s' hs _ => ?_) (fun s' hs hfree => ?_) fun e s' hs => ⟨⟨e, rfl⟩, hs⟩)
    · exact wp_mono (ih s') (fun name s'' h => h.after hs) fun stop s'' h => ⟨h.1, trans_of Looked hs h.2⟩
    · exact ⟨hs, hname number, hfree⟩

/-- The numbered names are beside the target too: the number goes before the mark, or after it. -/
theorem sibling_numbered (candidate : Text) {ext : Text} (hm : Mark ext) {cut : Nat} (hcut : cut ≤ candidate.length)
    (number : Nat) : Sibling candidate ((candidate ++ ext).take cut ++
      (if (rfind ((candidate ++ ext).drop cut) (ofChar '.')).getD 0 > 0
        then ((candidate ++ ext).drop cut).take ((rfind ((candidate ++ ext).drop cut) (ofChar '.')).getD 0)
        else (candidate ++ ext).drop cut) ++
      lit "_" ++ (Nat.toDigits 10 number).map ofChar ++
      (if (rfind ((candidate ++ ext).drop cut) (ofChar '.')).getD 0 > 0
        then ((candidate ++ ext).drop cut).drop ((rfind ((candidate ++ ext).drop cut) (ofChar '.')).getD 0) else [])) := by
  obtain ⟨rest, hext, hrest⟩ := hm.dot
  have hdigits := digits_clean number
  have htails := hm.tail.append hdigits
  rw [← bytes_append, ← bytes_append] at htails
  have hdot : rfind (candidate.drop cut ++ ext) (ofChar '.') = some (candidate.drop cut).length := by
    rw [hext]
    exact rfind_last _ _ _ hrest
  have hwhole : candidate.take cut ++ candidate.drop cut = candidate := List.take_append_drop cut candidate
  rw [List.drop_append_of_le_length hcut, List.take_append_of_le_length hcut, hdot, Option.getD_some]
  by_cases hpos : (candidate.drop cut).length > 0
  · refine ⟨lit "_" ++ (Nat.toDigits 10 number).map ofChar ++ ext, ?_, htails.2⟩
    rw [if_pos hpos, if_pos hpos, List.take_left, List.drop_left, hwhole]
    simp
  · have hnil : candidate.drop cut = [] := List.eq_nil_of_length_eq_zero (by omega)
    refine ⟨ext ++ (lit "_" ++ (Nat.toDigits 10 number).map ofChar), ?_, htails.1⟩
    rw [hnil, List.append_nil] at hwhole
    rw [if_neg hpos, if_neg hpos, hnil, List.nil_append, List.append_nil, hwhole]
    simp

theorem wp_unusedFilename (candidate : Text) {ext : Text} (hm : Mark ext) :
    wp (unusedFilename (candidate ++ ext)) (Unused candidate s) (Raised s) s := by
  have hne : candidate ++ ext ≠ [] := by
    obtain ⟨rest, hext, _⟩ := hm.dot
    rw [hext]
    simp
  unfold unusedFilename
  simp only [if_pos hne]
  refine wp_bind.mpr (wp_exists (fun s' hs _ => ?_) (fun s' hs hfree => ?_) fun e s' hs => ⟨⟨e, rfl⟩, hs⟩)
  · refine wp_mono (wp_numbered (List.range' 1 999) (sibling_numbered candidate hm ?_) s') (fun name s'' h => h.after hs)
      fun stop s'' h => ⟨h.1, trans_of Looked hs h.2⟩
    cases hi : rfind (candidate ++ ext) slashChr with
    | none => exact Nat.zero_le _
    | some i => exact rfind_lt_of_not_mem hm.slash hi
  · exact ⟨hs, ⟨ext, rfl, hm.tail⟩, hfree⟩

end

/-! ## The temporary -/

/-- What the lines, numbered, are written as. -/
def rendered (lines : List (Text × Nat)) : Str :=
  lines.flatMap fun line => (if line.2 ≠ 0 then bytes [lf] else []) ++ bytes line.1

theorem rendered_zipIdx (lines : List Text) : rendered lines.zipIdx = bytes (unlines lf lines) := by
  have hrest : ∀ (ls : List Text) (k : Nat), rendered (ls.zipIdx (k + 1)) = ls.flatMap fun l => bytes [lf] ++ bytes l := by
    intro ls
    induction ls with
    | nil =>
      intro k
      rfl
    | cons l ls ih =>
      intro k
      rw [List.zipIdx_cons, List.flatMap_cons, ← ih (k + 1)]
      rfl
  have hjoin : ∀ (l : Text) (ls : List Text), bytes l ++ ls.flatMap (fun l => bytes [lf] ++ bytes l) = bytes (unlines lf (l :: ls)) := by
    intro l ls
    induction ls generalizing l with
    | nil => simp
    | cons x ls ih =>
      rw [List.flatMap_cons, List.append_assoc, ih x, unlines_cons l (List.cons_ne_nil x ls)]
      simp
  cases lines with
  | nil => rfl
  | cons l ls =>
    rw [← hjoin l ls, ← hrest ls 0]
    rfl

/-- One line, with the newline before it. -/
theorem wp_writeLine {f : Path} {line : Text × Nat} {w : World} {b : Bytes} (hb : w.fs.get f = some (.file b)) :
    wp (do
        if line.2 ≠ 0 then write f (bytes [lf])
        write f (bytes line.1))
      (fun _ w' => Changed w w' f (some (.file (b ++ ((if line.2 ≠ 0 then bytes [lf] else []) ++ bytes line.1)))))
      (fun _ w' => ∃ node, Changed w w' f node) w := by
  by_cases hfirst : line.2 ≠ 0
  · simp only [if_pos hfirst]
    refine wp_bind.mpr (wp_write hb (fun w₁ h₁ _ => ?_) fun _ w₁ n h₁ _ _ => ⟨_, h₁⟩)
    refine wp_write h₁.here (fun w₂ h₂ _ => ?_) fun _ w₂ n h₂ _ _ => ⟨_, h₁.again h₂⟩
    rw [← List.append_assoc]
    exact h₁.again h₂
  · simp only [if_neg hfirst]
    refine wp_write hb (fun w₁ h₁ _ => ?_) fun _ w₁ n h₁ _ _ => ⟨_, h₁⟩
    rw [List.nil_append]
    exact h₁

theorem wp_writeLines {f : Path} (lines : List (Text × Nat)) : ∀ {w : World} {b : Bytes}, w.fs.get f = some (.file b) →
    wp (lines.foldlM (fun _ line => do
        if line.2 ≠ 0 then write f (bytes [lf])
        write f (bytes line.1)) ())
      (fun _ w' => Changed w w' f (some (.file (b ++ rendered lines)))) (fun _ w' => ∃ node, Changed w w' f node) w := by
  induction lines with
  | nil =>
    intro w b hb
    refine ⟨fun q => ?_, rfl, rfl⟩
    split
    · rename_i hq
      rw [hq, hb]
      simp [rendered]
    · rfl
  | cons line lines ih =>
    intro w b hb
    rw [List.foldlM_cons]
    refine wp_then (wp_writeLine hb) (fun _ w₁ h₁ => ?_) fun _ _ h => h
    refine wp_mono (ih h₁.here) (fun _ w₂ h₂ => ?_) fun _ w₂ h₂ => ?_
    · rw [List.append_assoc] at h₂
      exact h₁.again h₂
    · obtain ⟨node, h₂⟩ := h₂
      exact ⟨node, h₁.again h₂⟩

/-- The temporary, written where nothing was. -/
theorem wp_writeTemporary {temporary : Text} {lines : List Text} {w : World}
    (hfree : w.fs.get (w.resolve (bytes temporary)) = none) :
    wp (writeTemporary temporary lines)
      (fun _ w' => Changed w w' (w.resolve (bytes temporary)) (some (.file (bytes (unlines lf lines)))))
      (fun _ w' => ∃ node, Changed w w' (w.resolve (bytes temporary)) node) w := by
  have hsame : ∀ w' : World, Quiet w w' → Changed w w' (w.resolve (bytes temporary)) none := by
    intro w' hw
    refine ⟨fun q => ?_, hw.cwd, hw.fault⟩
    rw [hw.fs]
    split
    · rename_i hq
      rw [hq, hfree]
    · rfl
  refine wp_bind.mpr (wp_openWrite hfree (fun w₁ h₁ _ _ _ => ?_) fun _ w₁ hw _ => ⟨_, hsame w₁ hw⟩)
  refine wp_bind.mpr (wp_mono (wp_writeLines lines.zipIdx h₁.here) (fun _ w₂ h₂ => ?_) fun _ w₂ h₂ => ?_)
  · rw [List.nil_append, rendered_zipIdx] at h₂
    refine wp_io (fun w₃ hw => (h₁.again h₂).quiet hw) fun _ w₃ hw _ => ⟨_, (h₁.again h₂).quiet hw⟩
  · obtain ⟨node, h₂⟩ := h₂
    exact ⟨node, h₁.again h₂⟩

/-! ## What is where -/

section

variable {w w₁ w₂ w₃ : World} {p t k : Path} {text : Bytes}

/-- The temporary takes the place of the target, where nothing is. -/
theorem get_published (hnew : w.fs.get t = none) (hwrote : Changed w w₁ t (some (.file text))) (hp : w₁.fs.get p = none)
    (hren : Renamed w₁ w₂ t p) :
    w₂.fs.get p = some (.file text) ∧ ∀ r, ¬ p <+: r → r ≠ t → w₂.fs.get r = w.fs.get r := by
  have hne : t ≠ p := by
    intro he
    rw [← he, hwrote.here] at hp
    cases hp
  refine ⟨hren.get_new.trans hwrote.here, fun r hr hrt => ?_⟩
  rcases hren.get with ⟨he, _⟩ | ⟨_, hget⟩
  · exact absurd he hne
  · rw [hget r, if_neg hr]
    split
    · rename_i hbelow
      exact (w.fs.get_below_none hbelow hnew).symm
    · rw [hwrote.get r, if_neg hrt]

/-- What was at the target is at the backup; the temporary is written, and beside both. -/
structure Moved (w w₂ : World) (p t k : Path) (text : Bytes) : Prop where
  temporary : w₂.fs.get t = some (.file text)
  target : w₂.fs.get p = none
  backup : ∀ u, w₂.fs.get (k ++ u) = w.fs.get (p ++ u)
  elsewhere : ∀ r, ¬ p <+: r → ¬ k <+: r → r ≠ t → w₂.fs.get r = w.fs.get r
  free : w.fs.get k = none ∧ w.fs.get t = none
  apart : ¬ k <+: t ∧ ¬ k <+: p ∧ ¬ p <+: k ∧ ¬ p <+: t
  beside : ¬ t <+: k
  cwd : w₂.cwd = w.cwd
  fault : w₂.fault = w.fault

theorem moved (hnew : w.fs.get t = none) (hwrote : Changed w w₁ t (some (.file text))) (hp : w₁.fs.get p ≠ none)
    (hk : w₁.fs.get k = none) (hren : Renamed w₁ w₂ p k)
    (hpaths : (t = p ∧ k = p) ∨ (t ≠ p ∧ ∃ F x y, t = F ++ [x] ∧ k = F ++ [y])) : Moved w w₂ p t k text := by
  have hpk : p ≠ k := fun he => hp (he ▸ hk)
  obtain ⟨hnot, hget⟩ : ¬ p <+: k ∧ _ := by
    rcases hren.get with ⟨he, _⟩ | h
    · exact absurd he hpk
    · exact h
  have hkt : k ≠ t := by
    intro he
    rw [he, hwrote.here] at hk
    cases hk
  have hkp : ¬ k <+: p := fun hbelow => hp (w₁.fs.get_below_none hbelow hk)
  obtain ⟨htp, F, x, y, ht, hk'⟩ : t ≠ p ∧ ∃ F x y, t = F ++ [x] ∧ k = F ++ [y] := by
    rcases hpaths with ⟨_, he⟩ | h
    · exact absurd he.symm hpk
    · exact h
  -- a target that holds its temporary would hold its backup
  have hpt : ¬ p <+: t := by
    intro hbelow
    rw [ht] at hbelow
    rcases List.prefix_concat_iff.mp hbelow with he | hF
    · exact htp (ht.trans he.symm)
    · exact hnot (by rw [hk']; exact hF.trans (List.prefix_append F [y]))
  have hlength : k.length = t.length := by
    rw [ht, hk', List.length_append, List.length_append]
    rfl
  have hktp : ¬ k <+: t := fun hbelow => hkt (hbelow.eq_of_length hlength)
  constructor
  case temporary => rw [hget t, if_neg hktp, if_neg hpt, hwrote.here]
  case target => rw [hget p, if_neg hkp, if_pos (List.prefix_refl p)]
  case backup =>
    intro u
    rw [hget (k ++ u), if_pos (List.prefix_append k u), List.drop_left, hwrote.get, if_neg]
    exact fun he => hpt (he ▸ List.prefix_append p u)
  case elsewhere =>
    intro r hr hrk hrt
    rw [hget r, if_neg hrk, if_neg hr, hwrote.get r, if_neg hrt]
  case free =>
    refine ⟨?_, hnew⟩
    have := hwrote.get k
    rw [if_neg hkt, hk] at this
    exact this.symm
  case apart => exact ⟨hktp, hkp, hnot, hpt⟩
  case beside => exact fun hbelow => hkt (hbelow.eq_of_length hlength.symm).symm
  case cwd => exact hren.cwd.trans hwrote.cwd
  case fault => exact hren.fault.trans hwrote.fault

theorem Moved.published (hm : Moved w w₂ p t k text) (hren : Renamed w₂ w₃ t p) :
    w₃.fs.get p = some (.file text) ∧ ∀ r, ¬ p <+: r → ¬ k <+: r → r ≠ t → w₃.fs.get r = w.fs.get r := by
  have hne : t ≠ p := fun he => hm.apart.2.2.2 (he ▸ List.prefix_refl p)
  refine ⟨hren.get_new.trans hm.temporary, fun r hr hrk hrt => ?_⟩
  rcases hren.get with ⟨he, _⟩ | ⟨_, hget⟩
  · exact absurd he hne
  · rw [hget r, if_neg hr]
    split
    · rename_i hbelow
      exact (w.fs.get_below_none hbelow hm.free.2).symm
    · exact hm.elsewhere r hr hrk hrt

theorem Moved.backup_kept (hm : Moved w w₂ p t k text) (hren : Renamed w₂ w₃ t p) :
    ∀ u, w₃.fs.get (k ++ u) = w.fs.get (p ++ u) := by
  intro u
  obtain ⟨hkt, hkp, hpk, hpt⟩ := hm.apart
  have hnotp : ¬ p <+: k ++ u := fun h => (List.prefix_or_prefix_of_prefix h (List.prefix_append k u)).elim hpk hkp
  have hnott : ¬ t <+: k ++ u := fun h => (List.prefix_or_prefix_of_prefix h (List.prefix_append k u)).elim hm.beside hkt
  rcases hren.get with ⟨he, _⟩ | ⟨_, hget⟩
  · exact absurd (he ▸ List.prefix_refl p) hpt
  · rw [hget, if_neg hnotp, if_neg hnott]
    exact hm.backup u

theorem Moved.restored (hm : Moved w w₂ p t k text) (hren : Renamed w₂ w₃ k p) :
    (∀ u, w₃.fs.get (p ++ u) = w.fs.get (p ++ u)) ∧ ∀ r, ¬ p <+: r → ¬ k <+: r → r ≠ t → w₃.fs.get r = w.fs.get r := by
  have hne : k ≠ p := fun he => hm.apart.2.1 (he ▸ List.prefix_refl p)
  rcases hren.get with ⟨he, _⟩ | ⟨_, hget⟩
  · exact absurd he hne
  · constructor
    · intro u
      rw [hget (p ++ u), if_pos (List.prefix_append p u), List.drop_left]
      exact hm.backup u
    · intro r hr hrk hrt
      rw [hget r, if_neg hr, if_neg hrk]
      exact hm.elsewhere r hr hrk hrt

end

/-! ## The steps of save_file -/

section

variable {s : Session} {candidate : Text}

theorem wp_lift_call {α τ : Type} {x : Call α} {v : τ} {Q : α → Session × τ → Prop} {R : Stop → Session × τ → Prop} :
    wp (lift (call x)) Q R (s, v) ↔
      wp x (fun a w => Q a ({ s with world := w }, v)) (fun e w => R (.raised e) ({ s with world := w }, v)) s.world :=
  wp_lift.trans wp_call

/-- Nothing was at the target, or it has been moved to a name beside it. -/
def SetAside (candidate : Text) (s : Session) : Option Text → Session → Prop
  | none, s' => Looked s s' ∧ s.world.fs.get (s.world.resolve (bytes candidate)) = none
  | some backup, s' => s.world.fs.get (s.world.resolve (bytes candidate)) ≠ none ∧ Sibling candidate backup ∧
      s.world.fs.get (s.world.resolve (bytes backup)) = none ∧ ∃ w, s' = { s with world := w } ∧
      Renamed s.world w (s.world.resolve (bytes candidate)) (s.world.resolve (bytes backup))

theorem wp_moveAside (candidate : Text) : wp (moveAside candidate) (SetAside candidate s) (Raised s) s := by
  unfold moveAside
  refine wp_bind.mpr (wp_exists (fun s₁ hs₁ hold => ?_) (fun s₁ hs₁ hnone => ⟨hs₁, hnone⟩) fun e s₁ hs₁ => ⟨⟨e, rfl⟩, hs₁⟩)
  refine wp_then (wp_unusedFilename candidate mark_backup) (fun backup s₂ h => ?_) fun stop s₂ h => ⟨h.1, trans_of Looked hs₁ h.2⟩
  obtain ⟨hlooked, hsibling, hfree⟩ := h.after hs₁
  obtain ⟨w₂, rfl, hw⟩ := hlooked
  refine wp_bind.mpr (wp_call.mpr (wp_rename (fun w₃ hren => ?_) fun e w₃ hw₃ _ => ⟨⟨e, rfl⟩, w₃, rfl, hw.trans hw₃⟩))
  refine ⟨hold, hsibling, hfree, w₃, rfl, ?_⟩
  dsimp only at hren
  rw [hw.resolve, hw.resolve] at hren
  exact hw.renamed hren

theorem wp_renameText {α : Type} {old new : Text} {v : α} {Q : Unit → Session × α → Prop} {R : Stop → Session × α → Prop}
    (hQ : ∀ w, Renamed s.world w (s.world.resolve (bytes old)) (s.world.resolve (bytes new)) → Q () ({ s with world := w }, v))
    (hR : ∀ e w, Quiet s.world w → rename (bytes old) (bytes new) s.world = (.error e, w) →
      R (.raised e) ({ s with world := w }, v)) : wp (lift (renameText old new)) Q R (s, v) := by
  refine wp_lift_call.mpr ?_
  have hrename : wp (rename (bytes old) (bytes new))
      (fun _ w => Renamed s.world w (s.world.resolve (bytes old)) (s.world.resolve (bytes new)))
      (fun _ w => Quiet s.world w) s.world := wp_rename (fun w h => h) fun e w h _ => h
  unfold wp at hrename ⊢
  rcases h : rename (bytes old) (bytes new) s.world with ⟨e | _, w⟩ <;> rw [h] at hrename
  · exact hR e w hrename h
  · exact hQ w hrename

/-- How a publication fails: nothing was moved aside, it has been put back, or it could not be. -/
def Unpublished (candidate : Text) (s : Session) : Option Text → Session → Prop
  | none, s' => Looked s s'
  | some backup, s' =>
      (∃ w, s' = { s with world := w } ∧
        Renamed s.world w (s.world.resolve (bytes backup)) (s.world.resolve (bytes candidate))) ∨
      (Looked s s' ∧ ∃ e w w', Quiet s.world w ∧ rename (bytes backup) (bytes candidate) w = (.error e, w'))

theorem wp_publish (temporary candidate : Text) (backup : Option Text) :
    wp (publish temporary candidate backup)
      (fun _ s' => s'.2 = none ∧ ∃ w, s'.1 = { s with world := w } ∧
        Renamed s.world w (s.world.resolve (bytes temporary)) (s.world.resolve (bytes candidate)))
      (fun stop s' => (∃ e, stop = .raised e) ∧ s'.2 = some temporary ∧ Unpublished candidate s backup s'.1)
      (s, some temporary) := by
  unfold publish
  refine wp_tryCatch.mpr (wp_bind.mpr (wp_renameText (fun w hren => ⟨rfl, w, rfl, hren⟩) fun e w hw _ => ?_))
  cases backup with
  | none => exact ⟨⟨e, rfl⟩, rfl, w, rfl, hw⟩
  | some backup =>
    refine wp_bind.mpr (wp_renameText (fun w₂ hren => ?_) fun e' w₂ hw₂ hrename => ?_)
    · refine ⟨⟨e, rfl⟩, rfl, .inl ⟨w₂, rfl, ?_⟩⟩
      dsimp only at hren
      rw [hw.resolve, hw.resolve] at hren
      exact hw.renamed hren
    · exact ⟨⟨e', rfl⟩, rfl, .inr ⟨⟨w₂, rfl, hw.trans hw₂⟩, e', w, w₂, hw, hrename⟩⟩

/-- What fails is the storage: every exception it raises is an OSError. -/
def OsFaults (w : World) : Prop := ∀ n f, w.fault n = some f → ∃ e, f.exc = .osError e

/-- A file is gone. -/
structure Removed (w w' : World) (p : Path) : Prop where
  file : ∃ b, w.fs.get p = some (.file b)
  changed : Changed w w' p none

theorem wp_unlink_os {path : Str} {w : World} (hos : OsFaults w) :
    wp (unlink path) (fun _ w' => Removed w w' (w.resolve path))
      (fun e w' => Quiet w w' ∧ ∃ e', e = .osError e') w := by
  refine wp_io_then (fun w₁ hw => ?_) fun e w₁ hw hf => ?_
  · unfold wp remove onPath
    rcases h : w₁.fs.remove (w₁.resolve path) with e | fs
    · exact ⟨hw, e, rfl⟩
    · obtain ⟨hfile, hget⟩ := Fs.remove_ok h
      rw [hw.fs, hw.resolve] at hfile
      refine ⟨hfile, fun q => ?_, hw.cwd, hw.fault⟩
      rw [hget q, hw.fs, hw.resolve]
  · obtain ⟨n, f, hf, rfl⟩ := hf
    exact ⟨hw, hos n f hf⟩

/-- A file taken away, or left where it is. -/
def Dropped (path : Text) (s s' : Session) : Prop :=
  Quiet s.world s'.world ∨ Removed s.world s'.world (s.world.resolve (bytes path))

theorem wp_tryUnlink (hos : OsFaults s.world) (path : Text) :
    wp (tryOS (call (unlink (bytes path)))) (fun _ s' => Dropped path s s' ∧ s'.ed = s.ed) (fun _ _ => False) s := by
  refine wp_tryCatch.mpr (wp_bind.mpr (wp_call.mpr (wp_mono (wp_unlink_os hos) (fun _ w h => ⟨.inr h, rfl⟩) fun e w h => ?_)))
  obtain ⟨hw, e', rfl⟩ := h
  exact ⟨.inl hw, rfl⟩

theorem wp_dropBackup (hos : OsFaults s.world) (backup : Option Text) :
    wp (dropBackup backup)
      (fun _ s' => (Quiet s.world s'.world ∨ ∃ k ∈ backup, Removed s.world s'.world (s.world.resolve (bytes k))) ∧
        ∃ msg, s'.ed = setMsg msg s.ed) (fun _ _ => False) s := by
  cases backup with
  | none => exact ⟨.inl (.refl _), s.ed.msg, rfl⟩
  | some backup =>
    refine wp_then (wp_tryUnlink hos backup) (fun r s' h => ?_) fun _ _ h => h
    obtain ⟨hdrop, hed⟩ := h
    have hdropped : Quiet s.world s'.world ∨
        ∃ k ∈ some backup, Removed s.world s'.world (s.world.resolve (bytes k)) := hdrop.imp_right fun h => ⟨backup, rfl, h⟩
    cases r with
    | ok => exact ⟨hdropped, s.ed.msg, hed⟩
    | error => exact ⟨hdropped, .text "Saved; backup kept", congrArg (setMsg _) hed⟩

/-! ## The outcome -/

/-- What a call of save_file has done. -/
structure SaveOutcome (candidate : Text) (text : Bytes) (w w' : World) (saved : Bool) (temporary backup : Option Text) : Prop where
  temporary_new : ∀ t ∈ temporary, Sibling candidate t ∧ w.fs.get (w.resolve (bytes t)) = none
  backup_new : ∀ k ∈ backup, Sibling candidate k ∧ w.fs.get (w.resolve (bytes k)) = none
  elsewhere : ∀ r, ¬ w.resolve (bytes candidate) <+: r → (∀ t ∈ temporary, r ≠ w.resolve (bytes t)) →
    (∀ k ∈ backup, ¬ w.resolve (bytes k) <+: r) → w'.fs.get r = w.fs.get r
  written : saved = true → w'.fs.get (w.resolve (bytes candidate)) = some (.file text)
  staged : saved = true → ∃ t ∈ temporary, w.resolve (bytes t) ≠ w.resolve (bytes candidate)
  /-- The old contents are at the target, or at the backup since the rename back has failed. -/
  kept : saved = false →
    (∀ u, (∀ t ∈ temporary, w.resolve (bytes candidate) ++ u ≠ w.resolve (bytes t)) →
      w'.fs.get (w.resolve (bytes candidate) ++ u) = w.fs.get (w.resolve (bytes candidate) ++ u)) ∨
    ∃ k ∈ backup, (∀ u, w'.fs.get (w.resolve (bytes k) ++ u) = w.fs.get (w.resolve (bytes candidate) ++ u)) ∧
      w'.fs.get (w.resolve (bytes candidate)) = none ∧ ∃ e w₁ w₂, rename (bytes k) (bytes candidate) w₁ = (.error e, w₂) ∧ w₁.cwd = w.cwd ∧ w₁.fault = w.fault ∧
        ∀ r, (∀ t ∈ temporary, r ≠ w.resolve (bytes t)) → w'.fs.get r = w₁.fs.get r
  /-- A directory that was at the target is at the backup, with all that is below it. -/
  directory : saved = true → w.fs.get (w.resolve (bytes candidate)) = some .dir →
    ∃ k ∈ backup, ∀ u, w'.fs.get (w.resolve (bytes k) ++ u) = w.fs.get (w.resolve (bytes candidate) ++ u)
  cwd : w'.cwd = w.cwd
  fault : w'.fault = w.fault

variable {w w₁ w' : World} {text : Bytes} {temporary : Text}

theorem saveOutcome_quiet (h : Quiet w w') : SaveOutcome candidate text w w' false none none := by
  constructor
  case temporary_new => exact fun t ht => by cases ht
  case backup_new => exact fun k hk => by cases hk
  case elsewhere =>
    intro r _ _ _
    rw [h.fs]
  case written => exact fun h => by cases h
  case staged => exact fun h => by cases h
  case kept =>
    intro _
    refine .inl fun u _ => ?_
    rw [h.fs]
  case directory => exact fun h => by cases h
  case cwd => exact h.cwd
  case fault => exact h.fault

/-- Only the temporary has been touched. -/
theorem saveOutcome_temporary {node : Option Node} (hsibling : Sibling candidate temporary)
    (hfree : w.fs.get (w.resolve (bytes temporary)) = none) (h : Changed w w' (w.resolve (bytes temporary)) node) :
    SaveOutcome candidate text w w' false (some temporary) none := by
  constructor
  case temporary_new =>
    intro t ht
    cases ht
    exact ⟨hsibling, hfree⟩
  case backup_new => exact fun k hk => by cases hk
  case elsewhere =>
    intro r _ hr _
    rw [h.get r, if_neg (hr temporary rfl)]
  case written => exact fun h => by cases h
  case staged => exact fun h => by cases h
  case kept =>
    intro _
    refine .inl fun u hu => ?_
    rw [h.get, if_neg (hu temporary rfl)]
  case directory => exact fun h => by cases h
  case cwd => exact h.cwd
  case fault => exact h.fault

/-- The temporary is taken away, or is not. -/
theorem SaveOutcome.dropped {left backup : Option Text} (h : SaveOutcome candidate text w w₁ false left backup)
    (hapart : ∀ t ∈ left, ∀ k ∈ backup, ¬ w.resolve (bytes k) <+: w.resolve (bytes t) ∧
      w.resolve (bytes candidate) ≠ w.resolve (bytes t))
    (hdrop : Quiet w₁ w' ∨ ∃ t ∈ left, Removed w₁ w' (w.resolve (bytes t))) :
    SaveOutcome candidate text w w' false left backup := by
  have hsame : ∀ r, (∀ t ∈ left, r ≠ w.resolve (bytes t)) → w'.fs.get r = w₁.fs.get r := by
    intro r hr
    rcases hdrop with hq | ⟨t, ht, _, hc⟩
    · rw [hq.fs]
    · rw [hc.get r, if_neg (hr t ht)]
  have hstill : w'.cwd = w₁.cwd ∧ w'.fault = w₁.fault := by
    rcases hdrop with hq | ⟨t, _, _, hc⟩
    · exact ⟨hq.cwd, hq.fault⟩
    · exact ⟨hc.cwd, hc.fault⟩
  refine ⟨h.temporary_new, h.backup_new, ?_, (fun h => by cases h), (fun h => by cases h), ?_, (fun h => by cases h),
    hstill.1.trans h.cwd, hstill.2.trans h.fault⟩
  · intro r hr ht hk
    rw [hsame r ht]
    exact h.elsewhere r hr ht hk
  · intro hfalse
    rcases h.kept hfalse with hkept | ⟨k, hk, hbackup, hgone, e, w₂, w₃, hrename, hcwd, hfault, hrest⟩
    · refine .inl fun u hu => ?_
      rw [hsame _ hu]
      exact hkept u hu
    · refine .inr ⟨k, hk, fun u => ?_, ?_, e, w₂, w₃, hrename, hcwd, hfault, fun r hr => ?_⟩
      · rw [hsame _ fun t ht he => (hapart t ht k hk).1 (he ▸ List.prefix_append _ u)]
        exact hbackup u
      · rw [hsame _ fun t ht => (hapart t ht k hk).2]
        exact hgone
      · rw [hsame r hr]
        exact hrest r hr

/-- The new text is at a target where nothing was. -/
theorem saveOutcome_published (hsibling : Sibling candidate temporary) (hfree : w.fs.get (w.resolve (bytes temporary)) = none)
    (hwrote : Changed w w₁ (w.resolve (bytes temporary)) (some (.file text)))
    (hnone : w₁.fs.get (w.resolve (bytes candidate)) = none)
    (hren : Renamed w₁ w' (w.resolve (bytes temporary)) (w.resolve (bytes candidate))) :
    SaveOutcome candidate text w w' true (some temporary) none := by
  obtain ⟨hthere, hrest⟩ := get_published hfree hwrote hnone hren
  have hne : w.resolve (bytes temporary) ≠ w.resolve (bytes candidate) := by
    intro he
    rw [← he, hwrote.here] at hnone
    cases hnone
  constructor
  case temporary_new =>
    intro t ht
    cases ht
    exact ⟨hsibling, hfree⟩
  case backup_new => exact fun k hk => by cases hk
  case elsewhere => exact fun r hr ht _ => hrest r hr (ht temporary rfl)
  case written => exact fun _ => hthere
  case staged => exact fun _ => ⟨temporary, rfl, hne⟩
  case kept => exact fun h => by cases h
  case directory =>
    intro _ hdir
    have hthere := hwrote.get (w.resolve (bytes candidate))
    rw [hnone] at hthere
    split at hthere
    · cases hthere
    · rw [hdir] at hthere
      cases hthere
  case cwd => exact hren.cwd.trans hwrote.cwd
  case fault => exact hren.fault.trans hwrote.fault

section

variable {backup : Text} {w₂ : World} (hsibling : Sibling candidate temporary) (hsibling' : Sibling candidate backup)
  (hm : Moved w w₂ (w.resolve (bytes candidate)) (w.resolve (bytes temporary)) (w.resolve (bytes backup)) text)

include hsibling hsibling' hm

/-- The new text is at the target, and the backup is gone or is kept. -/
theorem saveOutcome_replaced {w₃ : World} (hren : Renamed w₂ w₃ (w.resolve (bytes temporary)) (w.resolve (bytes candidate)))
    (hdrop : Quiet w₃ w' ∨ Removed w₃ w' (w.resolve (bytes backup))) :
    SaveOutcome candidate text w w' true (some temporary) (some backup) := by
  obtain ⟨hthere, hrest⟩ := hm.published hren
  have hbackup := hm.backup_kept hren
  have hsame : ∀ r, r ≠ w.resolve (bytes backup) → w'.fs.get r = w₃.fs.get r := by
    intro r hr
    rcases hdrop with hq | ⟨_, hc⟩
    · rw [hq.fs]
    · rw [hc.get r, if_neg hr]
  have hstill : w'.cwd = w₃.cwd ∧ w'.fault = w₃.fault := by
    rcases hdrop with hq | ⟨_, hc⟩
    · exact ⟨hq.cwd, hq.fault⟩
    · exact ⟨hc.cwd, hc.fault⟩
  constructor
  case temporary_new =>
    intro t ht
    cases ht
    exact ⟨hsibling, hm.free.2⟩
  case backup_new =>
    intro k hk
    cases hk
    exact ⟨hsibling', hm.free.1⟩
  case elsewhere =>
    intro r hr ht hk
    rw [hsame r fun he => hk backup rfl (he ▸ List.prefix_refl r)]
    exact hrest r hr (hk backup rfl) (ht temporary rfl)
  case written =>
    intro _
    rw [hsame _ fun he => hm.apart.2.1 (by rw [he])]
    exact hthere
  case staged => exact fun _ => ⟨temporary, rfl, fun he => hm.apart.2.2.2 (by rw [he])⟩
  case kept => exact fun h => by cases h
  case directory =>
    intro _ hdir
    rcases hdrop with hq | ⟨⟨b, hfile⟩, _⟩
    · refine ⟨backup, rfl, fun u => ?_⟩
      rw [hq.fs]
      exact hbackup u
    · have hnode := hbackup []
      rw [List.append_nil, List.append_nil, hfile, hdir] at hnode
      cases hnode
  case cwd => exact hstill.1.trans (hren.cwd.trans hm.cwd)
  case fault => exact hstill.2.trans (hren.fault.trans hm.fault)

/-- The old contents are back. -/
theorem saveOutcome_restored (hren : Renamed w₂ w' (w.resolve (bytes backup)) (w.resolve (bytes candidate))) :
    SaveOutcome candidate text w w' false (some temporary) (some backup) := by
  obtain ⟨hback, hrest⟩ := hm.restored hren
  constructor
  case temporary_new =>
    intro t ht
    cases ht
    exact ⟨hsibling, hm.free.2⟩
  case backup_new =>
    intro k hk
    cases hk
    exact ⟨hsibling', hm.free.1⟩
  case elsewhere => exact fun r hr ht hk => hrest r hr (hk backup rfl) (ht temporary rfl)
  case written => exact fun h => by cases h
  case staged => exact fun h => by cases h
  case kept => exact fun _ => .inl fun u _ => hback u
  case directory => exact fun h => by cases h
  case cwd => exact hren.cwd.trans hm.cwd
  case fault => exact hren.fault.trans hm.fault

/-- The old contents are at the backup. -/
theorem saveOutcome_stranded {w₃ w₄ : World} {e : Exc} (hw : Quiet w₂ w') (hw₃ : Quiet w₂ w₃) (hrename : rename (bytes backup) (bytes candidate) w₃ = (.error e, w₄)) :
    SaveOutcome candidate text w w' false (some temporary) (some backup) := by
  constructor
  case temporary_new =>
    intro t ht
    cases ht
    exact ⟨hsibling, hm.free.2⟩
  case backup_new =>
    intro k hk
    cases hk
    exact ⟨hsibling', hm.free.1⟩
  case elsewhere =>
    intro r hr ht hk
    rw [hw.fs]
    exact hm.elsewhere r hr (hk backup rfl) (ht temporary rfl)
  case written => exact fun h => by cases h
  case staged => exact fun h => by cases h
  case kept =>
    refine fun _ => .inr ⟨backup, rfl, fun u => ?_, ?_, e, w₃, w₄, hrename, hw₃.cwd.trans hm.cwd, hw₃.fault.trans hm.fault,
      fun r _ => ?_⟩
    · rw [hw.fs]
      exact hm.backup u
    · rw [hw.fs]
      exact hm.target
    · rw [hw.fs, hw₃.fs]
  case directory => exact fun h => by cases h
  case cwd => exact hw.cwd.trans hm.cwd
  case fault => exact hw.fault.trans hm.fault

end

end

/-! ## save_file -/

section

variable {s : Session} {candidate : Text}

/-- How `save_file`'s `try` is left by an exception: with the temporary's name, if it has been chosen. -/
def Abandoned (candidate : Text) (s : Session) (stop : Stop) (s' : Session × Option Text) : Prop :=
  (∃ e, stop = .raised e) ∧ s'.1.ed = s.ed ∧
    ∃ backup, SaveOutcome candidate (bytes (unlines lf s.ed.lines)) s.world s'.1.world false s'.2 backup ∧
      ∀ t ∈ s'.2, ∀ k ∈ backup, ¬ s.world.resolve (bytes k) <+: s.world.resolve (bytes t) ∧
        s.world.resolve (bytes candidate) ≠ s.world.resolve (bytes t)

def Completed (candidate : Text) (s : Session) (saved : Bool) (s' : Session × Option Text) : Prop :=
  saved = true ∧ s'.2 = none ∧ (∃ msg, s'.1.ed = setMsg msg (setSaved candidate s.ed)) ∧
    ∃ temporary backup, SaveOutcome candidate (bytes (unlines lf s.ed.lines)) s.world s'.1.world true temporary backup

theorem abandoned_quiet {w : World} (e : Exc) (h : Quiet s.world w) :
    Abandoned candidate s (.raised e) ({ s with world := w }, none) :=
  ⟨⟨e, rfl⟩, rfl, none, saveOutcome_quiet h, fun t ht => by cases ht⟩

theorem abandoned_temporary {temporary : Text} {w : World} {node : Option Node} {stop : Stop} {s' : Session × Option Text}
    (hstop : ∃ e, stop = .raised e) (hsibling : Sibling candidate temporary)
    (hfree : s.world.fs.get (s.world.resolve (bytes temporary)) = none)
    (h : Changed s.world w (s.world.resolve (bytes temporary)) node) (hs' : s' = ({ s with world := w }, some temporary)) :
    Abandoned candidate s stop s' := by
  rw [hs']
  exact ⟨hstop, rfl, none, saveOutcome_temporary hsibling hfree h, fun t _ k hk => by cases hk⟩

/-- From the temporary on, once it is written. -/
theorem wp_replace {temporary : Text} {w₁ : World} (hos : OsFaults s.world) (hsibling : Sibling candidate temporary)
    (hfree : s.world.fs.get (s.world.resolve (bytes temporary)) = none)
    (hwrote : Changed s.world w₁ (s.world.resolve (bytes temporary)) (some (.file (bytes (unlines lf s.ed.lines))))) :
    wp (do
        let backup ← lift (moveAside candidate)
        publish temporary candidate backup
        lift (update (setSaved candidate))
        lift (dropBackup backup)
        return true) (Completed candidate s) (Abandoned candidate s) ({ s with world := w₁ }, some temporary) := by
  have hresolve : ∀ name, w₁.resolve (bytes name) = s.world.resolve (bytes name) := fun name => hwrote.resolve (bytes name)
  refine wp_bind.mpr (wp_lift.mpr (wp_mono (wp_moveAside candidate) (fun backup s₂ haside => ?_) fun stop s₂ hraised => ?_))
  · cases backup with
    | none =>
      obtain ⟨⟨w₂, rfl, hw⟩, hnone⟩ := haside
      dsimp only at hw hnone
      refine wp_then (wp_publish temporary candidate none) (fun _ s₃ h => ?_) fun stop s₃ h => ?_
      · obtain ⟨s₃, left⟩ := s₃
        obtain ⟨rfl, w₃, rfl, hren⟩ := h
        dsimp only at hren
        rw [hw.resolve, hw.resolve, hresolve, hresolve] at hren
        rw [hresolve] at hnone
        exact ⟨rfl, rfl, ⟨_, rfl⟩, some temporary, none, saveOutcome_published hsibling hfree hwrote hnone (hw.renamed hren)⟩
      · obtain ⟨s₃, left⟩ := s₃
        obtain ⟨hstop, rfl, w₃, rfl, hw₃⟩ := h
        exact abandoned_temporary hstop hsibling hfree (hwrote.quiet (hw.trans hw₃)) rfl
    | some backup =>
      obtain ⟨hold, hsibling', hfree', w₂, rfl, hren₂⟩ := haside
      dsimp only at hold hfree' hren₂
      rw [hresolve] at hold hfree'
      rw [hresolve, hresolve] at hren₂
      have hm := moved hfree hwrote hold hfree' hren₂ (hsibling.paths s.world.cwd hsibling')
      have hresolve₂ : ∀ name, w₂.resolve (bytes name) = s.world.resolve (bytes name) := by
        intro name
        rw [hren₂.resolve, hresolve]
      have habove : ∀ t ∈ some temporary, ∀ k ∈ some backup, ¬ s.world.resolve (bytes k) <+: s.world.resolve (bytes t) ∧
          s.world.resolve (bytes candidate) ≠ s.world.resolve (bytes t) := by
        intro t ht k hk
        cases ht
        cases hk
        exact ⟨hm.apart.1, fun he => hm.apart.2.2.2 (by rw [he])⟩
      refine wp_then (wp_publish temporary candidate (some backup)) (fun _ s₃ h => ?_) fun stop s₃ h => ?_
      · obtain ⟨s₃, left⟩ := s₃
        obtain ⟨rfl, w₃, rfl, hren⟩ := h
        dsimp only at hren
        have hresolve₃ : w₃.resolve (bytes backup) = s.world.resolve (bytes backup) := by
          rw [hren.resolve, hresolve₂]
        rw [hresolve₂, hresolve₂] at hren
        have hos₃ : OsFaults w₃ := by
          unfold OsFaults
          rw [hren.fault, hm.fault]
          exact hos
        refine wp_bind.mpr (wp_lift.mpr ?_)
        refine wp_bind.mpr (wp_lift.mpr (wp_mono (wp_dropBackup hos₃ (some backup)) (fun _ s₄ h => ?_) fun _ _ h => h.elim))
        obtain ⟨hdrop, hed⟩ := h
        refine ⟨rfl, rfl, hed, some temporary, some backup, saveOutcome_replaced hsibling hsibling' hm hren ?_⟩
        refine hdrop.imp_right fun ⟨k, hk, hremoved⟩ => ?_
        cases hk
        dsimp only at hremoved
        rw [hresolve₃] at hremoved
        exact hremoved
      · obtain ⟨s₃, left⟩ := s₃
        obtain ⟨hstop, rfl, hun⟩ := h
        rcases hun with ⟨w₃, rfl, hren⟩ | ⟨⟨w₃, rfl, hw₃⟩, e, w₄, w₅, hw₄, hrename⟩
        · dsimp only at hren
          rw [hresolve₂, hresolve₂] at hren
          exact ⟨hstop, rfl, some backup, saveOutcome_restored hsibling hsibling' hm hren, habove⟩
        · exact ⟨hstop, rfl, some backup, saveOutcome_stranded hsibling hsibling' hm hw₃ hw₄ hrename, habove⟩
  · obtain ⟨hstop, w₂, rfl, hw⟩ := hraised
    exact abandoned_temporary hstop hsibling hfree (hwrote.quiet hw) rfl

theorem wp_saveBody (hos : OsFaults s.world) (candidate : Text) :
    wp (saveBody candidate) (Completed candidate s) (Abandoned candidate s) (s, none) := by
  unfold saveBody
  rw [wp_bind, wp_get]
  refine wp_bind.mpr (wp_lift_call.mpr ((Pyperm.within_requireWrite _ _).wp (fun _ w₁ hw₁ => ?_)
    fun e w₁ hw₁ => abandoned_quiet e hw₁))
  refine wp_bind.mpr (wp_lift_call.mpr ((Pyperm.within_requireWrite _ _).wp (fun _ w₂ hw₂ => ?_)
    fun e w₂ hw₂ => abandoned_quiet e (hw₁.trans hw₂)))
  have hlooked : Looked s { s with world := w₂ } := ⟨w₂, rfl, hw₁.trans hw₂⟩
  refine wp_bind.mpr (wp_lift.mpr (wp_mono (wp_unusedFilename candidate mark_temporary) (fun temporary s₃ h => ?_)
    fun stop s₃ h => ?_))
  · obtain ⟨hs₃, hsibling, hfree⟩ := h.after hlooked
    obtain ⟨w₃, rfl, hw₃⟩ := hs₃
    have hfree₃ : w₃.fs.get (w₃.resolve (bytes temporary)) = none := by
      rw [hw₃.fs, hw₃.resolve]
      exact hfree
    refine wp_bind.mpr ?_
    refine wp_bind.mpr (wp_lift_call.mpr (wp_mono (wp_writeTemporary hfree₃) (fun _ w₄ hwrote => ?_) fun e w₄ hwrote => ?_))
    · rw [hw₃.resolve] at hwrote
      exact wp_replace hos hsibling hfree (hw₃.changed hwrote)
    · obtain ⟨node, hwrote⟩ := hwrote
      rw [hw₃.resolve] at hwrote
      exact abandoned_temporary ⟨e, rfl⟩ hsibling hfree (hw₃.changed hwrote) rfl
  · obtain ⟨⟨e, rfl⟩, hs₃⟩ := h
    obtain ⟨w₃, rfl, hw₃⟩ := trans_of Looked hlooked hs₃
    exact abandoned_quiet e hw₃

/-- The editor after a call of save_file. -/
def EditorAfter (candidate : Text) (e : Editor) (saved : Bool) (e' : Editor) : Prop :=
  ∃ msg, e' = setMsg msg (if saved then setSaved candidate e else e)

theorem wp_dropTemporary (s' : Session) (left : Option Text) (hos : OsFaults s'.world) :
    wp dropTemporary (fun _ s'' => (Quiet s'.world s''.1.world ∨
        ∃ t ∈ left, Removed s'.world s''.1.world (s'.world.resolve (bytes t))) ∧ s''.1.ed = s'.ed)
      (fun _ _ => False) (s', left) := by
  unfold dropTemporary
  rw [wp_bind, wp_get]
  cases left with
  | none => exact ⟨.inl (.refl _), rfl⟩
  | some temporary =>
    refine wp_bind.mpr (wp_lift.mpr (wp_mono (wp_tryUnlink hos temporary) (fun _ s'' h => ?_) fun _ _ h => h))
    exact ⟨h.1.imp_right fun h => ⟨temporary, rfl, h⟩, h.2⟩

theorem wp_saveFile (hos : OsFaults s.world) (filename : Option Text) :
    wp (saveFile filename)
      (fun saved s' => EditorAfter (strip (filename.getD s.ed.filename)) s.ed saved s'.ed ∧
        (saved = true → s.ed.loadFailed = false) ∧ ∃ temporary backup,
        SaveOutcome (strip (filename.getD s.ed.filename)) (bytes (unlines lf s.ed.lines)) s.world s'.world saved temporary backup)
      (fun _ _ => False) s := by
  have hrefused : ∀ (msg : Msg), EditorAfter (strip (filename.getD s.ed.filename)) s.ed false (setMsg msg s.ed) ∧
      (false = true → s.ed.loadFailed = false) ∧ ∃ temporary backup, SaveOutcome (strip (filename.getD s.ed.filename))
        (bytes (unlines lf s.ed.lines)) s.world s.world false temporary backup :=
    fun msg => ⟨⟨msg, rfl⟩, (fun h => by cases h), none, none, saveOutcome_quiet (.refl _)⟩
  unfold saveFile
  refine wp_bind.mpr ?_
  change wp (ite _ _ _) _ _ _
  by_cases hfailed : s.ed.loadFailed = true
  · rw [if_pos hfailed]
    exact hrefused _
  · rw [if_neg hfailed]
    refine wp_bind.mpr ?_
    change wp (ite _ _ _) _ _ _
    by_cases hempty : strip (filename.getD s.ed.filename) = []
    · rw [if_pos hempty]
      exact hrefused _
    · rw [if_neg hempty]
      refine wp_withVar.mpr (wp_closing.mpr (wp_tryCatch.mpr (wp_mono (wp_saveBody hos _) (fun saved s' h => ?_) fun stop s' h => ?_)))
      · obtain ⟨s', left⟩ := s'
        obtain ⟨rfl, rfl, hed, temporary, backup, hout⟩ := h
        obtain ⟨msg, hed⟩ := hed
        exact ⟨⟨msg, hed⟩, fun _ => Bool.eq_false_iff.mpr hfailed, temporary, backup, hout⟩
      · obtain ⟨s', left⟩ := s'
        obtain ⟨⟨e, rfl⟩, hed, backup, hout, hapart⟩ := h
        have hos' : OsFaults s'.world := by
          unfold OsFaults
          rw [hout.fault]
          exact hos
        have hresolve : ∀ t, s'.world.resolve t = s.world.resolve t := fun t => congrArg (resolve · t) hout.cwd
        change wp dropTemporary _ _ ({ s' with ed := setMsg (.failed "Save " e) s'.ed }, left)
        refine wp_mono (wp_dropTemporary { s' with ed := setMsg (.failed "Save " e) s'.ed } left hos') (fun _ s'' h => ?_)
          fun _ _ h => h
        obtain ⟨hdrop, hed''⟩ := h
        simp only [hresolve] at hdrop
        refine ⟨⟨.failed "Save " e, ?_⟩, (fun h => by cases h), left, backup, hout.dropped hapart hdrop⟩
        rw [hed'']
        exact congrArg (setMsg _) hed

end

/-! ## A target that is stuck, and one that is a directory -/

/-- The editor on a file in the root, with one letter in it. -/
def lettered (world : World) : Session where
  world := world
  perms := ∅
  ed := { blank (lit "d") .githubDark with lines := [lit "x"] }
  keys := []
  log := []

theorem letter_ne_root : ([[100]] : Path) ≠ [] := by decide

theorem letter_under_root : (Fs.empty : Fs Str).get ([[100]] : Path).dropLast = some .dir := by decide

theorem letter_free : (Fs.empty : Fs Str).get [[100]] ≠ some .dir := by decide

/-- The file `d`; from its backup on, no call succeeds. -/
def stuckWorld : World where
  fs := Fs.empty.put [[100]] (.file [1]) letter_ne_root letter_under_root letter_free
  cwd := []
  fault n := if 9 ≤ n then some ⟨.osError .eio, 0⟩ else none
  honest n f h := by
    split at h
    · cases h
      decide
    · cases h
  clock := 0
  made := []

/-- The directory `d` with the file `d/x`. -/
def folderWorld : World where
  fs := (Fs.empty.put [[100]] .dir letter_ne_root letter_under_root letter_free).put [[100], [120]] (.file [1]) (by decide) (by decide) (by decide)
  cwd := []
  fault _ := none
  honest := honest_none
  clock := 0
  made := []

end PythonUltra.Pyeditor
