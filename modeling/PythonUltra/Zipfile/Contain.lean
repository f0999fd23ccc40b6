/-
  PythonUltra.Zipfile.Contain — where extract makes files and folders.

  Everything extract makes lies at or below what its destination string names, or is
  what a leading part of that string names: `_mkdirs` makes the missing folders on the
  way to the destination. The names of an archive's entries cannot lead elsewhere. A
  name cut short by a NUL can read `..` to the C library, but then it names the folder
  above one that is already there, and what is there is not made again.

  An empty destination is left out: `_join` makes a path from the root of it, `_mkdirs`
  nothing.
-/

import PythonUltra.Zipfile.Effects
import PythonUltra.Zipfile.Names
import PythonUltra.Zipfile.Rollback

namespace PythonUltra.Zipfile

open PythonUltra.Lib PythonUltra.Lib.Prog PythonUltra.Os

/-- `p` is at or below the destination, or a leading part of the destination names it. -/
def Inside (cwd : Path) (dest : Str) (p : Path) : Prop :=
  resolve cwd dest <+: p ∨ ∃ s t, s ≠ [] ∧ dest = s ++ slash :: t ∧ p = resolve cwd s

/-! ## Where the strings lead -/

theorem follow_congr (cwd : Path) {a b : Prop} [Decidable a] [Decidable b] (h : a ↔ b) (ns : List Str) :
    follow cwd a ns = follow cwd b ns := by
  unfold follow
  by_cases ha : a
  · rw [if_pos ha, if_pos (h.mp ha)]
  · rw [if_neg ha, if_neg fun hb => ha (h.mpr hb)]

section

variable {cwd : Path} {dest : Str}

/-- The parts of a string up to one of its slashes. -/
theorem leading_parts {ns : List Str} (hne : ns ≠ []) (hp : ns <+: parts dest) (hneq : ns ≠ parts dest) :
    ∃ s t, s ≠ [] ∧ dest = s ++ slash :: t ∧ parts s = ns ∧ (isAbs dest ↔ isAbs s) := by
  obtain ⟨ms, hms⟩ := hp
  obtain ⟨l1, l2, hl, h1, h2⟩ := List.filter_eq_append_iff.mp hms.symm
  have hl1 : l1 ≠ [] := by rintro rfl; exact hne h1.symm
  have hl2 : l2 ≠ [] := by
    rintro rfl
    rw [← hms, ← h2] at hneq
    simp at hneq
  have hslash : ∀ n ∈ l1, slash ∉ n := fun n hn => slash_not_mem_splitOn (s := dest) (by rw [hl]; simp [hn])
  have hparts : parts (join l1) = ns := by
    unfold parts join
    rw [List.splitOn_intercalate slash hslash hl1, h1]
  have hs : join l1 ≠ [] := by
    intro e
    rw [e] at hparts
    exact hne hparts.symm
  have hdest : dest = join l1 ++ slash :: join l2 := by
    rw [← join_append hl1 hl2, ← hl]
    exact (List.intercalate_splitOn slash).symm
  exact ⟨join l1, join l2, hs, hdest, hparts, by rw [hdest]; exact isAbs_append _ hs⟩

theorem follow_leading_inside {ns : List Str} (hne : ns ≠ []) (hp : ns <+: parts dest) :
    Inside cwd dest (follow cwd (isAbs dest) ns) := by
  by_cases heq : ns = parts dest
  · left; rw [heq, resolve_eq]
  · obtain ⟨s, t, hs, hd, hps, ha⟩ := leading_parts hne hp heq
    exact Or.inr ⟨s, t, hs, hd, by rw [resolve_eq, hps, follow_congr cwd ha]⟩

/-- Safe parts after the destination's lead below it, or to the folder above it. -/
theorem follow_safe {ns : List Str} (h : Safe ns) :
    resolve cwd dest <+: follow cwd (isAbs dest) (parts dest ++ ns) ∨
      follow cwd (isAbs dest) (parts dest ++ ns) = (resolve cwd dest).dropLast := by
  rw [resolve_eq]
  unfold follow
  rw [visible_append]
  by_cases hnul : ∀ n ∈ parts dest, 0 ∉ n
  · rw [if_pos hnul, List.foldl_append, visible_of_not_mem hnul]
    exact follow_down (fun n hn => ⟨(h n hn).1, (h n hn).2.1, (h n hn).2.2.1⟩) _
  · rw [if_neg hnul]
    exact Or.inl (List.prefix_refl _)

theorem isAbs_of_parts_nil (hne : dest ≠ []) (hp : parts dest = []) : isAbs dest := by
  by_contra ha
  obtain ⟨c, s, rfl⟩ := List.exists_cons_of_ne_nil hne
  have hc : c ≠ slash := fun e => ha (by rw [e]; rfl)
  obtain ⟨m, ms, hm⟩ := List.exists_cons_of_ne_nil (List.splitOn_ne_nil slash s)
  have hmem : c :: m ∈ parts (c :: s) := by
    unfold parts
    rw [List.splitOn_cons_eq_if_modifyHead, if_neg (by simpa using hc), hm]
    simp
  rw [hp] at hmem
  simp at hmem

end

/-! ## Every step -/

/-- Everything made since `w₀` is inside. -/
structure Contained (w₀ : World) (dest : Str) (w : World) : Prop where
  cwd : w.cwd = w₀.cwd
  made : ∃ new, w.made = w₀.made ++ new ∧ ∀ p ∈ new, Inside w₀.cwd dest p

/-- And the destination is there. -/
structure Ready (w₀ : World) (dest : Str) (w : World) : Prop extends Contained w₀ dest w where
  dir : w.fs.get (w₀.resolve dest) = some .dir

section

variable {w₀ w w' : World} {dest : Str}

theorem Contained.resolve (h : Contained w₀ dest w) (path : Str) : w.resolve path = Os.resolve w₀.cwd path := by
  unfold World.resolve; rw [h.cwd]

theorem Contained.quiet (h : Contained w₀ dest w) (hq : Quiet w w') : Contained w₀ dest w' :=
  ⟨hq.cwd.trans h.cwd, hq.made ▸ h.made⟩

theorem Contained.add (h : Contained w₀ dest w) {p : Path} {node : Option Node} (hc : Changed w w' p node)
    (hm : w'.made = w.made ++ [p]) (hp : Inside w₀.cwd dest p) : Contained w₀ dest w' := by
  obtain ⟨new, hnew, hin⟩ := h.made
  refine ⟨hc.cwd.trans h.cwd, new ++ [p], by rw [hm, hnew, List.append_assoc], fun q hq => ?_⟩
  rcases List.mem_append.mp hq with hq | hq
  · exact hin q hq
  · rw [List.mem_singleton.mp hq]; exact hp

theorem Ready.quiet (h : Ready w₀ dest w) (hq : Quiet w w') : Ready w₀ dest w' :=
  ⟨h.toContained.quiet hq, by rw [hq.fs]; exact h.dir⟩

theorem Ready.add (h : Ready w₀ dest w) {p : Path} {node : Option Node} (hc : Changed w w' p node)
    (hfree : w.fs.get p = none) (hm : w'.made = w.made ++ [p]) (hp : Inside w₀.cwd dest p) : Ready w₀ dest w' := by
  refine ⟨h.toContained.add hc hm hp, ?_⟩
  rw [hc.get, if_neg, h.dir]
  intro e
  rw [← e, h.dir] at hfree
  simp at hfree

/-- A free path that safe parts lead to is below the destination: above it all is there. -/
theorem Ready.inside (h : Ready w₀ dest w) {ns f : List Str} (hs : Safe ns) (hne : f ≠ [])
    (hf : f <+: parts dest ++ ns) (hfree : w.fs.get (follow w₀.cwd (isAbs dest) f) = none) :
    Inside w₀.cwd dest (follow w₀.cwd (isAbs dest) f) := by
  rcases List.prefix_or_prefix_of_prefix hf (List.prefix_append (parts dest) ns) with hp | ⟨g, rfl⟩
  · exact follow_leading_inside hne hp
  · have hg : g <+: ns := (List.prefix_append_right_inj _).mp hf
    have hsafe : Safe g := fun n hn => hs n (hg.subset hn)
    rcases follow_safe hsafe with hp | he
    · exact Or.inl hp
    · have hdir : w.fs.get (Os.resolve w₀.cwd dest) = some .dir := h.dir
      rw [he] at hfree
      by_cases hroot : Os.resolve w₀.cwd dest = []
      · rw [hroot] at hfree
        simp at hfree
      · rw [w.fs.get_parent hroot (by rw [hdir]; simp)] at hfree
        simp at hfree

/-- The step keeps inside, whether it returns or raises. -/
abbrev Stays (w₀ : World) (dest : Str) {α : Type} (x : Extract α) : Prop :=
  Within (Preserves fun s => Ready w₀ dest s.1) x

theorem stays_quiet {α : Type} {x : Call α} (hx : Within Quiet x) : Stays w₀ dest (lift x) :=
  hx.lift fun _ _ _ h hq => h.quiet hq

theorem mkdirs_stays {ns : List Str} {target : Str} (hs : Safe ns) (ht : Extends dest ns target) :
    Stays w₀ dest (mkdirs target) := by
  refine within_of_wp fun s h => ?_
  refine wp_mkdirs (I := fun _ s => Ready w₀ dest s.1) (fun f n s hf h => ?_) h
  have hpre : f ++ [n] <+: parts dest ++ ns := ht.parts ▸ hf
  have hres : s.1.resolve (currentStr (isAbs target) (f ++ [n])) = follow w₀.cwd (isAbs dest) (f ++ [n]) := by
    rw [h.toContained.resolve, resolve_currentStr _ _ (fun m hm => isParts_parts target m (hf.subset hm)),
      follow_congr _ ht.isAbs]
  refine wp_mkdirOne (fun w' hc hfree hm => ?_) (fun w' hq _ => h.quiet hq) fun e w' hq _ => h.quiet hq
  rw [hres] at hc hfree hm
  exact h.add hc hfree hm (h.inside hs (by simp) hpre hfree)

theorem extractFile_stays (z : Codec) (src : Reader) (e : Entry) {ns : List Str} {clean target : Str} (hs : Safe ns)
    (hns : ns ≠ []) (ht : Extends dest ns target) : Stays w₀ dest (extractFile z src e clean target) := by
  unfold extractFile
  refine .bind (stays_quiet (within_isDir target)) fun b => .ite (.throw _) (within_of_wp fun s h => ?_)
  refine wp_bind.mpr (wp_lift.mpr (wp_existsPath (fun w' hq _ => h.quiet hq) (fun w₁ hq₁ hnone => ?_)
    fun e w' hq _ => h.quiet hq))
  simp only [Bool.false_eq_true, if_false]
  refine wp_bind.mpr (wp_lift.mpr ((within_openEntry src e).wp (fun r w₂ hq₂ => ?_)
    fun e w' hq => h.quiet (hq₁.trans hq)))
  have hq : Quiet s.1 w₂ := hq₁.trans hq₂
  have h₂ : Ready w₀ dest w₂ := h.quiet hq
  have hfree : w₂.fs.get (w₂.resolve target) = none := by rw [hq.fs, hq.resolve]; exact hnone
  have hres : w₂.resolve target = follow w₀.cwd (isAbs dest) (parts dest ++ ns) := by
    rw [h₂.toContained.resolve, ht.resolve]
  refine wp_bind.mpr (wp_lift.mpr (wp_openWrite hfree (fun w₃ hc _ _ hm => ?_) fun e w' hq' _ => h₂.quiet hq'))
  have hin : Inside w₀.cwd dest (w₂.resolve target) := by
    rw [hres] at hfree ⊢
    exact h₂.inside hs (by simp [hns]) (List.prefix_refl _) hfree
  have h₃ : Ready w₀ dest w₃ := h₂.add hc hfree hm hin
  have hne : w₀.resolve dest ≠ w₂.resolve target := by
    intro e
    rw [← e, h₂.dir] at hfree
    simp at hfree
  have hwrote : ∀ w₄, Wrote (w₂.resolve target) w₃ w₄ → Ready w₀ dest w₄ := fun w₄ hw =>
    ⟨⟨hw.cwd.trans h₃.cwd, hw.made ▸ h₃.made⟩, by rw [hw.get _ hne]; exact h₃.dir⟩
  refine wp_bind.mpr (wp_bind.mpr ?_)
  refine wp_mono (wp_closing.mpr (wp_lift.mpr ((within_copyEntry z (w₂.resolve target) r e).wp
    (fun _ w₄ hw => (stays_quiet within_io).keep (s := (w₄, _)) (hwrote w₄ hw))
    fun _ w₄ hw => (stays_quiet within_io).keep (s := (w₄, _)) (hwrote w₄ hw))))
    (fun res s' h' => ?_) fun _ _ h' => h'
  exact (Within.ite (.throw _) (.pure _) : Stays w₀ dest _).keep h'

theorem extractEntry_stays (z : Codec) (hdest : dest ≠ []) (src : Reader) (e : Entry) :
    Stays w₀ dest (extractEntry z dest src e) := by
  unfold extractEntry
  refine .ite (.throw _) ?_
  rcases hname : safeName e.name with err | clean
  · exact fun s h => h
  · obtain ⟨ns, hs, rfl⟩ := safeName_parts hname
    refine within_of_wp fun s h => wp_bind.mpr ?_
    rw [wp_ofExcept_ok]
    by_cases hc : join ns = []
    · rw [if_pos hc]; exact h
    · rw [if_neg hc]
      have hns : ns ≠ [] := by rintro rfl; exact hc rfl
      obtain ⟨ms, n, rfl⟩ := List.eq_nil_or_concat' ns |>.resolve_left hns
      have ht := joinPath_extends hdest hs.isParts
      have hpar : Stays w₀ dest (mkdirs (parent (joinPath dest (join (ms ++ [n]))))) :=
        mkdirs_stays (fun m hm => hs m (by simp [hm])) (parent_joinPath hdest hs.isParts)
      exact (Within.ite (mkdirs_stays hs ht) (hpar.bind fun _ => extractFile_stays z src e hs hns ht)).keep h

/-- The folders on the way to the destination, and the destination. -/
theorem mkdirs_dest (hdest : dest ≠ []) {s : World × Created} (h : Contained w₀ dest s.1) :
    wp (mkdirs dest) (fun _ s' => Ready w₀ dest s'.1) (fun _ s' => Contained w₀ dest s'.1) s := by
  refine wp_mono (wp_mkdirs (I := fun ns s => Contained w₀ dest s.1 ∧
      (ns ≠ [] → s.1.fs.get (follow w₀.cwd (isAbs dest) ns) = some .dir)) (fun f n s hf h => ?_) ⟨h, by simp⟩)
    (fun _ s' h' => ?_) fun _ _ h => h
  · have hres : s.1.resolve (currentStr (isAbs dest) (f ++ [n])) = follow w₀.cwd (isAbs dest) (f ++ [n]) := by
      rw [h.1.resolve, resolve_currentStr _ _ (fun m hm => isParts_parts dest m (hf.subset hm))]
    refine wp_mkdirOne (fun w' hc hfree hm => ?_) (fun w' hq hd => ?_) fun e w' hq _ => h.1.quiet hq
    · rw [hres] at hc hm
      exact ⟨h.1.add hc hm (follow_leading_inside (by simp) hf), fun _ => by rw [hc.get, if_pos rfl]⟩
    · rw [hres] at hd
      exact ⟨h.1.quiet hq, fun _ => by rw [hq.fs]; exact hd⟩
  · refine ⟨h'.1, ?_⟩
    unfold World.resolve
    rw [resolve_eq]
    by_cases hp : parts dest = []
    · rw [hp]
      simp [follow, visible, isAbs_of_parts_nil hdest hp]
    · exact h'.2 hp

theorem within_ignoreOSError {r : World → World → Prop} [IsPreorder World r] {x : Call Unit} (h : Within r x) :
    Within r (ignoreOSError x) :=
  h.tryCatch fun e => by
    cases e with
    | osError e => exact .pure _
    | _ => exact .throw _

/-- Taking paths away makes none. -/
structure NoneMade (w w' : World) : Prop where
  cwd : w'.cwd = w.cwd
  made : w'.made = w.made

instance : IsPreorder World NoneMade where
  refl _ := ⟨rfl, rfl⟩
  trans _ _ _ h1 h2 := ⟨h2.1.trans h1.1, h2.2.trans h1.2⟩

theorem within_onPath (op : Fs Str → Path → Except Errno (Fs Str)) (path : Str) : Within NoneMade (onPath op path) := by
  intro w
  unfold onPath
  split <;> exact ⟨rfl, rfl⟩

theorem within_cleanup (files folders : List Str) : Within NoneMade (cleanup files folders) :=
  .bind (.foldlM (fun _ _ => within_ignoreOSError (within_onPath _ _)) _) fun _ =>
    .foldlM (fun _ _ => within_ignoreOSError (within_onPath _ _)) _

/-- For every archive, every filesystem and every pattern of failing storage calls, and
    every destination that is not the empty string, the default one included: whether it
    returns or raises, every path extract has made is at or below the destination, or is
    named by a leading part of the destination string. -/
theorem extract_makes_inside (z : Codec) (archive : Str) (destination : Option Str) (w : World)
    (hdest : destination.getD (defaultDestination archive) ≠ []) :
    ∃ new, (extract z archive destination w).2.made = w.made ++ new ∧
      ∀ p ∈ new, Inside w.cwd (destination.getD (defaultDestination archive)) p := by
  set dest := destination.getD (defaultDestination archive) with hd
  suffices h : Contained w dest (extract z archive destination w).2 from h.made
  refine wp_run (x := extract z archive destination) (P := Contained w dest) ?_
  have hstart : Contained w dest w := ⟨rfl, [], by simp, by simp⟩
  refine wp_bind.mpr (wp_withVar.mpr (wp_tryCatch.mpr ?_))
  -- whatever is raised, the clean-up makes nothing
  have hfail : ∀ (e : Exc) (s : World × Created), Contained w dest s.1 →
      wp (do
        let created := (← get).2
        lift (cleanup created.files created.folders)
        Prog.throw e : Extract Unit) (fun _ s' => Contained w dest s'.1) (fun _ s' => Contained w dest s'.1) s := by
    intro e s h
    refine wp_bind.mpr (wp_bind.mpr (wp_lift.mpr ((within_cleanup _ _).wp (fun _ w' hw => ?_) fun _ w' hw => ?_))) <;>
      exact ⟨hw.cwd.trans h.cwd, hw.made ▸ h.made⟩
  refine wp_mono (Q := fun _ s' => Contained w dest s'.1) (R := fun _ s' => Contained w dest s'.1) ?_
    (fun _ s h => show Contained w dest s.1 from h) fun e s h => hfail e s h
  refine wp_bind.mpr (wp_lift.mpr ((within_entries archive).wp (fun entries w₁ hq => ?_) fun _ _ hq => hstart.quiet hq))
  refine wp_then (mkdirs_dest hdest (hstart.quiet hq)) (fun _ s₂ h₂ => ?_) fun _ _ h => h
  have hopen : Stays w dest (lift (openRead archive)) := stays_quiet (within_openRead archive)
  have hloop := hopen.bind fun src =>
    (Within.foldlM (l := entries) (fun _ e => extractEntry_stays z hdest src e) ()).closing (stays_quiet within_io)
  exact wp_mono (hloop.keep h₂) (fun _ _ h => h.toContained) fun _ _ h => h.toContained

end

/-- One file world, with an archive of no entries. -/
def emptyArchiveWorld : World := oneFileWorld (emptyEntries [])

/-- Extracting to `o/b` makes `o` and `o/b`. -/
theorem extract_makes_inside_nested :
    ∃ new, (extract noCodec [97] (some [111, 47, 98]) emptyArchiveWorld).2.made = [] ++ new ∧
      ∀ p ∈ new, Inside [] [111, 47, 98] p :=
  extract_makes_inside noCodec [97] (some [111, 47, 98]) emptyArchiveWorld (by decide)

/-- `o` is made on the way, and is not below `o/b`. -/
theorem extract_makes_leading_folder :
    (extract noCodec [97] (some [111, 47, 98]) emptyArchiveWorld).1 = .ok [111, 47, 98] ∧
      ¬ ∀ p ∈ (extract noCodec [97] (some [111, 47, 98]) emptyArchiveWorld).2.made, resolve [] [111, 47, 98] <+: p := by
  decide

end PythonUltra.Zipfile
