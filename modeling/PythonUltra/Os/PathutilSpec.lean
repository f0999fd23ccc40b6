/-
  PythonUltra.Os.PathutilSpec — the three path resolvers agree.

  `Rep` says which path the output buffer of pathutil.c holds. Each step on the buffer is
  a step of `Os.component` on the path, or fails for want of room; so pe_path_resolve
  writes the path `Os.resolve` names, and pyperm.abspath and zipfile._absolute spell the
  same one. The current directory is a path spelt out at all times (`CwdRep`).
-/

import PythonUltra.Os.Pathutil
import PythonUltra.Pyperm.Model
import PythonUltra.Zipfile.Names

namespace PythonUltra.Os.Pathutil

open PythonUltra.Lib PythonUltra.Lib.CMem PythonUltra.Lib.Prog PythonUltra.Zipfile

/-- The buffer holds a path, spelt out. -/
structure Rep (o : Out) (p : Path) : Prop where
  holds : Holds 0 o.bytes (pathStr p)
  length : o.length = (pathStr p).length
  valid : ValidPath p

/-! ## One component -/

theorem pathStr_ne_nil (p : Path) : pathStr p ≠ [] := by simp [pathStr]

theorem length_pathStr_concat (p : Path) (n : Str) :
    (pathStr (p ++ [n])).length = (pathStr p).length + (if p = [] then 0 else 1) + n.length := by
  by_cases hp : p = []
  · rw [hp, List.nil_append, pathStr_singleton]
    simp [pathStr, Nat.add_comm]
  · rw [pathStr_concat p n hp, if_neg hp]
    simp
    omega

theorem one_lt_length_pathStr {p : Path} (hp : ValidPath p) : 1 < (pathStr p).length ↔ p ≠ [] := by
  rcases List.eq_nil_or_concat p with rfl | ⟨q, n, rfl⟩
  · simp [pathStr]
  · rw [List.concat_eq_append] at hp ⊢
    have hn : n ≠ [] := (hp n (by simp)).1
    have hlen : 0 < n.length := List.length_pos_iff.mpr hn
    have hq : 0 < (pathStr q).length := List.length_pos_iff.mpr (pathStr_ne_nil q)
    rw [length_pathStr_concat]
    constructor
    · intro _
      simp
    · intro _
      omega

theorem memcpy_append (a rest n : Str) :
    memcpy (a ++ rest) a.length n = a ++ n ++ rest.drop n.length := by
  unfold memcpy
  rw [List.take_left, List.drop_length_add_append]

theorem set_append (a : Str) (x y : UInt8) (rest : Str) : (a ++ x :: rest).set a.length y = a ++ y :: rest := by
  rw [List.set_append_right _ _ (le_refl _), Nat.sub_self, List.set_cons_zero]

/-- A component is appended, or there is no room for it. -/
theorem append_spec {o : Out} {p : Path} {n : Str} (h : Rep o p) (hn : ValidName n) :
    if (pathStr (p ++ [n])).length + 1 ≤ o.bytes.length then
      ∃ o', peAppendComponent n o = (.ok (), o') ∧ Rep o' (p ++ [n]) ∧ o'.bytes.length = o.bytes.length
    else peAppendComponent n o = (.error .enametoolong, o) := by
  obtain ⟨rest, hbytes⟩ := h.holds
  have hvalid : ValidPath (p ++ [n]) := h.valid.append fun m hm => by rw [List.mem_singleton.mp hm]; exact hn
  have hsep : (if o.length > 1 then 1 else 0) = if p = [] then 0 else 1 := by
    have := one_lt_length_pathStr h.valid
    rw [← h.length] at this
    by_cases hp : p = []
    · rw [if_pos hp, if_neg (fun hl => this.mp hl hp)]
    · rw [if_neg hp, if_pos (this.mpr hp)]
  have hneed : o.length + (if o.length > 1 then 1 else 0) + n.length + 1 = (pathStr (p ++ [n])).length + 1 := by
    rw [hsep, length_pathStr_concat, h.length]
  have hsize : o.bytes.length = (pathStr p).length + 1 + rest.length := by
    rw [hbytes]
    simp
    omega
  split
  · rename_i hroom
    have hlt : ¬ (o.length + (if o.length > 1 then 1 else 0) + n.length + 1 > o.bytes.length) := by omega
    unfold peAppendComponent
    simp only [hlt, if_false]
    by_cases hp : p = []
    · -- after the root there is no separator to write
      have hl : ¬ o.length > 1 := by
        rw [h.length]
        intro hl
        exact (one_lt_length_pathStr h.valid).mp hl hp
      have hroot : pathStr p = [slash] := by rw [hp]; rfl
      have hone : (pathStr p).length = 1 := by rw [hroot]; rfl
      rw [length_pathStr_concat, if_pos hp] at hroom
      obtain ⟨r, rs, hdrop⟩ : ∃ r rs, (0 :: rest : Str).drop n.length = r :: rs := by
        refine List.exists_cons_of_ne_nil fun e => ?_
        have := congrArg List.length e
        simp at this
        omega
      have hcopy : memcpy o.bytes o.length n = (pathStr p ++ n) ++ r :: rs := by
        rw [hbytes, h.length, memcpy_append, hdrop]
      have hlen : o.length + n.length = (pathStr p ++ n).length := by rw [h.length, List.length_append]
      have hstr : pathStr (p ++ [n]) = pathStr p ++ n := by rw [hp, List.nil_append, pathStr_singleton]; rfl
      simp only [hl, if_false, hcopy, hlen, set_append]
      refine ⟨_, rfl, ⟨⟨rs, by rw [hstr]⟩, by rw [hstr], hvalid⟩, ?_⟩
      have := congrArg List.length hcopy
      unfold memcpy at this
      simp at this ⊢
      omega
    · have hl : o.length > 1 := by
        rw [h.length]
        exact (one_lt_length_pathStr h.valid).mpr hp
      rw [length_pathStr_concat, if_neg hp] at hroom
      have hset : o.bytes.set o.length slash = (pathStr p ++ [slash]) ++ rest := by
        rw [hbytes, h.length, set_append]
        simp
      obtain ⟨r, rs, hdrop⟩ : ∃ r rs, rest.drop n.length = r :: rs := by
        refine List.exists_cons_of_ne_nil fun e => ?_
        have := congrArg List.length e
        simp at this
        omega
      have hlen' : o.length + 1 = (pathStr p ++ [slash]).length := by rw [h.length]; simp
      have hcopy : memcpy ((pathStr p ++ [slash]) ++ rest) (pathStr p ++ [slash]).length n =
          (pathStr p ++ [slash] ++ n) ++ r :: rs := by
        rw [memcpy_append, hdrop]
      have hlen : (pathStr p ++ [slash]).length + n.length = (pathStr p ++ [slash] ++ n).length :=
        List.length_append.symm
      have hstr : pathStr (p ++ [n]) = pathStr p ++ [slash] ++ n := by
        rw [pathStr_concat p n hp]
        simp
      simp only [hl, if_true, hset, hlen', hcopy, hlen, set_append]
      refine ⟨_, rfl, ⟨⟨rs, by rw [hstr]⟩, by rw [hstr], hvalid⟩, ?_⟩
      have := congrArg List.length hdrop
      simp at this ⊢
      omega
  · rename_i hroom
    unfold peAppendComponent
    rw [if_pos (by omega)]

theorem popScan_name (a rest : Str) (ha : a.getLast? = some slash) (n : Str) (hn : slash ∉ n) :
    popScan (a ++ n ++ rest) (a.length + n.length) = a.length := by
  induction n using List.reverseRecOn generalizing rest with
  | nil =>
    obtain ⟨b, rfl⟩ : ∃ b, a = b ++ [slash] := by
      obtain ⟨hne, h⟩ := List.getLast?_eq_some_iff.mp ha
      exact ⟨hne, h⟩
    have hat : (b ++ [slash] ++ [] ++ rest).getD b.length 0 = slash := by simp
    rw [List.length_nil, Nat.add_zero, List.length_append, List.length_singleton, popScan, hat, if_neg (by simp)]
  | append_singleton m c ih =>
    have hc : c ≠ slash := fun e => hn (by rw [e]; simp)
    have hm : slash ∉ m := fun e => hn (by simp [e])
    have hat : (a ++ (m ++ [c]) ++ rest).getD (a.length + m.length) 0 = c := by
      rw [show a ++ (m ++ [c]) ++ rest = (a ++ m) ++ c :: rest by simp, ← List.length_append]
      simp
    have hpos : 0 < a.length := List.length_pos_iff.mpr (by intro e; rw [e] at ha; simp at ha)
    rw [List.length_append, List.length_singleton, ← Nat.add_assoc, popScan, hat, if_pos ⟨by omega, hc⟩]
    have hregroup : a ++ (m ++ [c]) ++ rest = a ++ m ++ (c :: rest) := by simp
    rw [hregroup]
    exact ih (c :: rest) hm

/-- The last component is taken off; at the root nothing is. -/
theorem pop_spec {o : Out} {p : Path} (h : Rep o p) :
    ∃ o', pePopComponent o = (.ok (), o') ∧ Rep o' p.dropLast ∧ o'.bytes.length = o.bytes.length := by
  obtain ⟨rest, hbytes⟩ := h.holds
  rcases List.eq_nil_or_concat p with rfl | ⟨q, n, rfl⟩
  · have hl : o.length ≤ 1 := by rw [h.length]; rfl
    refine ⟨o, ?_, h, rfl⟩
    unfold pePopComponent
    rw [if_pos hl]
  · rw [List.concat_eq_append] at h hbytes ⊢
    rw [List.dropLast_concat]
    have hn := h.valid n (by simp)
    have hq : ValidPath q := h.valid.of_prefix (List.prefix_append _ _)
    have hl : ¬ o.length ≤ 1 := by
      rw [h.length]
      have := (one_lt_length_pathStr h.valid).mpr (by simp)
      omega
    unfold pePopComponent
    rw [if_neg hl]
    by_cases hempty : q = []
    · subst hempty
      have hstr : pathStr ([] ++ [n]) = [slash] ++ n := pathStr_singleton n
      have hscan : popScan o.bytes o.length = 1 := by
        rw [h.length, hbytes, hstr, List.length_append]
        exact popScan_name [slash] (0 :: rest) rfl n hn.2.2.2.1
      obtain ⟨c, n', rfl⟩ : ∃ c n', n = c :: n' := List.exists_cons_of_ne_nil hn.1
      refine ⟨_, rfl, ⟨⟨n' ++ 0 :: rest, ?_⟩, ?_, hq⟩, by simp⟩
      · simp only [hscan]
        rw [hbytes, hstr]
        rfl
      · simp only [hscan]
        rfl
    · have hstr : pathStr (q ++ [n]) = (pathStr q ++ [slash]) ++ n := by rw [pathStr_concat q n hempty]; simp
      have hscan : popScan o.bytes o.length = (pathStr q).length + 1 := by
        rw [h.length, hbytes, hstr, List.length_append]
        have := popScan_name (pathStr q ++ [slash]) (0 :: rest) (by simp) n hn.2.2.2.1
        rw [this]
        simp
      have hqlen := (one_lt_length_pathStr hq).mpr hempty
      have hlen : (if (pathStr q).length + 1 > 1 then (pathStr q).length + 1 - 1 else (pathStr q).length + 1) =
          (pathStr q).length := by
        rw [if_pos (by omega)]
        omega
      refine ⟨_, rfl, ⟨⟨n ++ 0 :: rest, ?_⟩, ?_, hq⟩, by simp⟩
      · simp only [hscan, hlen]
        rw [hbytes, hstr, show pathStr q ++ [slash] ++ n ++ 0 :: rest = pathStr q ++ slash :: (n ++ 0 :: rest) by simp,
          set_append]
      · simp only [hscan, hlen]

/-! ## A path string -/

theorem parts_dropWhile (s : Str) : parts (s.dropWhile (· = slash)) = parts s := by
  induction s with
  | nil => rfl
  | cons c s ih =>
    by_cases hc : c = slash
    · rw [List.dropWhile_cons_of_pos (by simpa using hc), ih, hc, parts_slash_cons]
    · rw [List.dropWhile_cons_of_neg (by simpa using hc)]

/-- The first part of a string that does not start with a slash. -/
theorem parts_takeWhile {s : Str} (hne : s.takeWhile (· ≠ slash) ≠ []) :
    parts s = s.takeWhile (· ≠ slash) :: parts (s.dropWhile (· ≠ slash)) := by
  have hs : slash ∉ s.takeWhile (· ≠ slash) := by
    intro h
    have := List.mem_takeWhile_imp h
    simp at this
  have hsplit := List.takeWhile_append_dropWhile (p := fun c : UInt8 => decide (c ≠ slash)) (l := s)
  have hone : parts (s.takeWhile (· ≠ slash)) = [s.takeWhile (· ≠ slash)] := by
    unfold parts
    rw [List.splitOn_eq_singleton hs, List.filter_cons_of_pos (by simpa using hne), List.filter_nil]
  cases hrest : s.dropWhile (· ≠ slash) with
  | nil =>
    rw [hrest, List.append_nil] at hsplit
    rw [hsplit] at hone
    rw [hsplit, hone]
    rfl
  | cons c rest =>
    -- what the name ends at is a slash
    have hc : c = slash := by
      have hhead := List.head?_dropWhile_not (fun c : UInt8 => decide (c ≠ slash)) s
      rw [hrest] at hhead
      simpa using hhead
    subst hc
    rw [hrest] at hsplit
    have happ := parts_append (s.takeWhile (· ≠ slash)) rest
    rw [hone, hsplit] at happ
    rw [happ, parts_slash_cons]
    rfl

/-- Consuming a string moves the path in the buffer by its parts, unless one of the paths on the way is too long. -/
theorem consume_spec (fuel : Nat) : ∀ (s : Str) (o : Out) (p : Path), s.length ≤ fuel → 0 ∉ s → Rep o p →
    wp (peConsume fuel s)
      (fun _ o' => Rep o' (consume p s) ∧ o'.bytes.length = o.bytes.length)
      (fun e o' => e = .enametoolong ∧ o'.bytes.length = o.bytes.length ∧
        ∃ k, o.bytes.length < (pathStr (((parts s).take k).foldl component p)).length + 1) o := by
  induction fuel with
  | zero =>
    intro s o p hs _ h
    obtain rfl : s = [] := List.length_eq_zero_iff.mp (by omega)
    exact ⟨h, rfl⟩
  | succ fuel ih =>
    intro s o p hs h0 h
    rw [peConsume]
    have hparts := parts_dropWhile s
    have hsub : (s.dropWhile (· = slash)).length ≤ s.length := List.length_dropWhile_le _ _
    have h0' : 0 ∉ s.dropWhile (· = slash) := fun e => h0 (List.dropWhile_subset _ e)
    have hconsume : consume p s = consume p (s.dropWhile (· = slash)) := by rw [consume_eq, consume_eq, hparts]
    have hhead : ∀ hne : s.dropWhile (· = slash) ≠ [], (s.dropWhile (· = slash)).head hne ≠ slash := by
      intro hne
      simpa using List.head_dropWhile_not (l := s) (fun c : UInt8 => decide (c = slash)) hne
    rw [hconsume, ← hparts]
    clear hconsume hparts h0
    generalize s.dropWhile (· = slash) = t at *
    simp only
    split
    · rename_i ht
      subst ht
      exact ⟨h, rfl⟩
    · rename_i ht
      have hne : t.takeWhile (· ≠ slash) ≠ [] := by
        obtain ⟨c, t', rfl⟩ := List.exists_cons_of_ne_nil ht
        rw [List.takeWhile_cons_of_pos (by simpa using hhead ht)]
        simp
      have hlen : (t.dropWhile (· ≠ slash)).length ≤ fuel := by
        have := congrArg List.length
          (List.takeWhile_append_dropWhile (p := fun c : UInt8 => decide (c ≠ slash)) (l := t))
        have := List.length_pos_iff.mpr hne
        simp only [List.length_append] at *
        omega
      have hrest0 : 0 ∉ t.dropWhile (· ≠ slash) := fun e => h0' (List.dropWhile_subset _ e)
      have hname0 : 0 ∉ t.takeWhile (· ≠ slash) := fun e => h0' (List.takeWhile_subset _ e)
      have hslash : slash ∉ t.takeWhile (· ≠ slash) := by
        intro e
        have := List.mem_takeWhile_imp e
        simp at this
      have hparts := parts_takeWhile hne
      have hconsume : consume p t = consume (component p (t.takeWhile (· ≠ slash))) (t.dropWhile (· ≠ slash)) := by
        rw [consume_eq, consume_eq, hparts, List.foldl_cons]
      rw [hconsume, hparts]
      generalize t.takeWhile (· ≠ slash) = n at *
      generalize t.dropWhile (· ≠ slash) = rest at *
      -- a part after the first is reached one turn later
      have hlater : ∀ {q : Path}, q = component p n → ∀ {k : Nat},
          ((parts rest).take k).foldl component q = ((n :: parts rest).take (k + 1)).foldl component p := by
        intro q hq k
        rw [List.take_succ_cons, List.foldl_cons, hq]
      split
      · rename_i hdot
        have hq : p = component p n := by rw [hdot]; rfl
        rw [← hq]
        refine wp_mono (ih rest o p hlen hrest0 h) (fun _ _ hr => hr) fun e o' he => ?_
        obtain ⟨he, hsize, k, hk⟩ := he
        exact ⟨he, hsize, k + 1, by rw [← hlater hq]; exact hk⟩
      · rename_i hdot
        split
        · rename_i hdd
          have hq : p.dropLast = component p n := by rw [hdd]; rfl
          obtain ⟨o₁, hpop, hrep, hsize₁⟩ := pop_spec h
          rw [← hq]
          rw [wp_bind, wp, hpop]
          refine wp_mono (ih rest o₁ _ hlen hrest0 hrep) (fun _ o' hr => ⟨hr.1, hr.2.trans hsize₁⟩) fun e o' he => ?_
          obtain ⟨he, hsize, k, hk⟩ := he
          exact ⟨he, hsize.trans hsize₁, k + 1, by rw [← hlater hq, ← hsize₁]; exact hk⟩
        · rename_i hdd
          have hvalid : ValidName n := ⟨hne, hdot, hdd, hslash, hname0⟩
          have hq : p ++ [n] = component p n := (component_valid p hvalid).symm
          have happ := append_spec h hvalid
          rw [← hq]
          split at happ
          · obtain ⟨o₁, happ, hrep, hsize₁⟩ := happ
            rw [wp_bind, wp, happ]
            refine wp_mono (ih rest o₁ _ hlen hrest0 hrep) (fun _ o' hr => ⟨hr.1, hr.2.trans hsize₁⟩) fun e o' he => ?_
            obtain ⟨he, hsize, k, hk⟩ := he
            exact ⟨he, hsize.trans hsize₁, k + 1, by rw [← hlater hq, ← hsize₁]; exact hk⟩
          · rename_i hroom
            rw [wp_bind, wp, happ]
            refine ⟨rfl, rfl, 1, ?_⟩
            rw [List.take_succ_cons, List.take_zero, List.foldl_cons, List.foldl_nil, ← hq]
            omega

/-! ## Resolving -/

theorem zero_not_mem_pathStr {p : Path} (h : ValidPath p) : 0 ∉ pathStr p := by
  induction p using List.reverseRecOn with
  | nil => decide
  | append_singleton q n ih =>
    have hn := (h n (by simp)).2.2.2.2
    have hq := ih (h.of_prefix (List.prefix_append _ _))
    by_cases hempty : q = []
    · rw [hempty, List.nil_append, pathStr_singleton]
      simpa [slash] using hn
    · rw [pathStr_concat q n hempty]
      simpa [slash] using ⟨hq, hn⟩

theorem cstr_of_holds {b s : Str} (h : Holds 0 b s) (hs : 0 ∉ s) : cstr b = s := by
  obtain ⟨rest, rfl⟩ := h
  rw [cstr_append hs]
  simp [cstr]

/-- The bytes of `pe_cwd` spell out a directory. -/
structure CwdRep (peCwd : Str) (cwd : Path) : Prop where
  holds : Holds 0 peCwd (pathStr cwd)
  size : peCwd.length = pePathMax
  valid : ValidPath cwd

theorem resolve_of_not_mem (cwd : Path) {s : Str} (h : 0 ∉ s) :
    resolve cwd s = consume (if isAbs s then [] else cwd) s := by
  unfold resolve
  rw [cstr_of_not_mem h]
  rfl

/-- What pe_path_resolve leaves: the path the string names, or a path on the way did not fit. -/
theorem pathResolve_spec {peCwd : Str} {cwd : Path} (hcwd : CwdRep peCwd cwd) (path : CStr) {out : Str}
    (hout : 2 ≤ out.length) :
    (∃ out', pePathResolve peCwd (some path) (some out) = (.ok (), some out') ∧
      Holds 0 out' (pathStr (resolve cwd path.1)) ∧ out'.length = out.length) ∨
    (∃ out' : Str, pePathResolve peCwd (some path) (some out) = (.error .enametoolong, some out') ∧
      ∃ k, out.length < (pathStr (((parts path.1).take k).foldl component (if isAbs path.1 then [] else cwd))).length + 1 ∨
        ¬ isAbs path.1 ∧ out.length < (pathStr (cwd.take k)).length + 1) := by
  have hstr : cstr peCwd = pathStr cwd := cstr_of_holds hcwd.holds (zero_not_mem_pathStr hcwd.valid)
  obtain ⟨a, b, rest, rfl⟩ : ∃ a b rest, out = a :: b :: rest := by
    match out, hout with
    | a :: b :: rest, _ => exact ⟨a, b, rest, rfl⟩
  have hstart : Rep ⟨((a :: b :: rest).set 0 slash).set 1 0, 1⟩ [] :=
    ⟨⟨rest, rfl⟩, rfl, fun n hn => by simp at hn⟩
  have hrun : pePathResolve peCwd (some path) (some (a :: b :: rest)) =
      ((peResolve (pathStr cwd) path.1 ⟨((a :: b :: rest).set 0 slash).set 1 0, 1⟩).1,
        some (peResolve (pathStr cwd) path.1 ⟨((a :: b :: rest).set 0 slash).set 1 0, 1⟩).2.bytes) := by
    unfold pePathResolve
    simp only [hstr]
    rw [if_neg (by simp)]
  rw [hrun, resolve_of_not_mem cwd path.2]
  generalize hb : (⟨((a :: b :: rest).set 0 slash).set 1 0, 1⟩ : Out) = o at *
  have hsize : o.bytes.length = (a :: b :: rest).length := by rw [← hb]; simp
  by_cases habs : isAbs path.1
  · have hwp := consume_spec path.1.length path.1 o [] le_rfl path.2 hstart
    have hres : peResolve (pathStr cwd) path.1 o = peConsume path.1.length path.1 o := by
      unfold peResolve
      rw [if_neg (by simpa [isAbs] using habs)]
    rw [hres]
    simp only [if_pos habs]
    unfold wp at hwp
    rcases hx : peConsume path.1.length path.1 o with ⟨e | u, o'⟩
    · rw [hx] at hwp
      obtain ⟨rfl, -, k, hk⟩ := hwp
      exact Or.inr ⟨o'.bytes, rfl, k, Or.inl (by rw [← hsize]; exact hk)⟩
    · rw [hx] at hwp
      exact Or.inl ⟨o'.bytes, rfl, hwp.1.holds, hwp.2.trans hsize⟩
  · have hcwdParts : parts (pathStr cwd) = cwd := parts_pathStr hcwd.valid.isParts
    have hcwdConsume : consume [] (pathStr cwd) = cwd := by
      rw [consume_eq, hcwdParts, foldl_component_valid [] hcwd.valid, List.nil_append]
    have hwp₁ := consume_spec (pathStr cwd).length (pathStr cwd) o [] le_rfl (zero_not_mem_pathStr hcwd.valid) hstart
    have hres : peResolve (pathStr cwd) path.1 o =
        (peConsume (pathStr cwd).length (pathStr cwd) >>= fun _ => peConsume path.1.length path.1) o := by
      unfold peResolve
      rw [if_pos (by simpa [isAbs] using habs)]
    rw [hres]
    simp only [if_neg habs]
    unfold wp at hwp₁
    rcases hx : peConsume (pathStr cwd).length (pathStr cwd) o with ⟨e | u, o₁⟩
    · rw [hx] at hwp₁
      obtain ⟨rfl, -, k, hk⟩ := hwp₁
      rw [hcwdParts, foldl_component_valid [] fun n hn => hcwd.valid n (List.mem_of_mem_take hn), List.nil_append] at hk
      refine Or.inr ⟨o₁.bytes, ?_, k, Or.inr ⟨habs, by rw [← hsize]; exact hk⟩⟩
      simp only [bind, hx]
    · rw [hx] at hwp₁
      obtain ⟨hrep₁, hsize₁⟩ := hwp₁
      rw [hcwdConsume] at hrep₁
      have hwp₂ := consume_spec path.1.length path.1 o₁ cwd le_rfl path.2 hrep₁
      unfold wp at hwp₂
      rcases hy : peConsume path.1.length path.1 o₁ with ⟨e | v, o₂⟩
      · rw [hy] at hwp₂
        obtain ⟨rfl, -, k, hk⟩ := hwp₂
        refine Or.inr ⟨o₂.bytes, ?_, k, Or.inl (by rw [← hsize, ← hsize₁]; exact hk)⟩
        simp only [bind, hx, hy]
      · rw [hy] at hwp₂
        refine Or.inl ⟨o₂.bytes, ?_, hwp₂.1.holds, hwp₂.2.trans (hsize₁.trans hsize)⟩
        simp only [bind, hx, hy]

/-- Every reachable current directory is spelt out. -/
theorem Reachable.cwdRep {peCwd : Str} (h : Reachable peCwd) : ∃ cwd, CwdRep peCwd cwd := by
  induction h with
  | initial =>
    refine ⟨[], ⟨List.replicate 254 0, ?_⟩, ?_, fun n hn => by simp at hn⟩
    · unfold initialCwd
      rw [show pePathMax - 1 = 254 + 1 from rfl, List.replicate_succ]
      rfl
    · unfold initialCwd
      rw [List.length_cons, List.length_replicate]
      rfl
  | @chdir peCwd _ stat resolved hsize path ih =>
    obtain ⟨cwd, hcwd⟩ := ih
    unfold pePathChdir
    cases path with
    | none => exact ⟨cwd, hcwd⟩
    | some path =>
      have hlen : 2 ≤ resolved.length := by rw [hsize]; decide
      rcases pathResolve_spec hcwd path hlen with ⟨out', hr, hholds, hout⟩ | ⟨out', hr, -⟩
      · rw [hr]
        simp only [Option.getD_some]
        have hvalid : ValidPath (resolve cwd path.1) := resolve_valid hcwd.valid path.2
        rw [cstr_of_holds hholds (zero_not_mem_pathStr hvalid)]
        cases stat (pathStr (resolve cwd path.1)) with
        | error e => exact ⟨cwd, hcwd⟩
        | ok dir =>
          cases dir with
          | false => exact ⟨cwd, hcwd⟩
          | true =>
            have hfits : (pathStr (resolve cwd path.1) ++ [0]).length ≤ peCwd.length := by
              obtain ⟨rest, hrest⟩ := hholds
              have := congrArg List.length hrest
              simp only [List.length_append, List.length_cons, List.length_nil] at this ⊢
              rw [hcwd.size]
              omega
            refine ⟨resolve cwd path.1, ⟨peCwd.drop (pathStr (resolve cwd path.1) ++ [0]).length, ?_⟩, ?_, hvalid⟩
            · simp [memcpy]
            · unfold memcpy
              rw [List.take_zero, List.nil_append, Nat.zero_add, List.length_append, List.length_drop, ← hcwd.size]
              omega
      · rw [hr]
        exact ⟨cwd, hcwd⟩

/-! ## The three resolvers -/

/-- A part pushed on the stack of names, the last one first. -/
def push (stack : List Str) (part : Str) : List Str :=
  if part = [] ∨ part = dot then stack else if part = dotdot then stack.tail else part :: stack

/-- The reference: `cwd/path`, or `path` from the root, with a stack of names. -/
def normalize (cwd path : Str) : Str :=
  pathStr (((if isAbs path then path else cwd ++ slash :: path).splitOn slash).foldl push []).reverse

/-- `/`, or names after slashes: not empty, no `.` or `..`, and no slash at the end. -/
def Normal (s : Str) : Prop :=
  s = [slash] ∨ ∃ p : Path, p ≠ [] ∧ (∀ n ∈ p, n ≠ [] ∧ n ≠ dot ∧ n ≠ dotdot ∧ slash ∉ n) ∧ s = p.flatMap (slash :: ·)

theorem foldl_push (ns : List Str) (stack : List Str) :
    (ns.foldl push stack).reverse = ns.foldl component stack.reverse := by
  induction ns generalizing stack with
  | nil => rfl
  | cons n ns ih =>
    rw [List.foldl_cons, List.foldl_cons, ih]
    congr 1
    unfold push component
    split
    · rfl
    · split
      · cases stack with
        | nil => rfl
        | cons a stack => simp
      · simp

theorem normalize_eq {cwd : Path} (hcwd : ValidPath cwd) {path : Str} (h0 : 0 ∉ path) :
    normalize (pathStr cwd) path = pathStr (resolve cwd path) := by
  have hbase : consume [] (pathStr cwd) = cwd := by
    rw [consume_eq, parts_pathStr hcwd.isParts, foldl_component_valid [] hcwd, List.nil_append]
  unfold normalize
  rw [foldl_push, resolve_of_not_mem cwd h0]
  by_cases habs : isAbs path
  · rw [if_pos habs, if_pos habs]
    rfl
  · have happ := consume_append [] (pathStr cwd) path
    rw [hbase] at happ
    rw [if_neg habs, if_neg habs, ← happ]
    rfl

theorem pathStr_flatMap {p : Path} (hp : p ≠ []) : pathStr p = p.flatMap (slash :: ·) := by
  induction p using List.reverseRecOn with
  | nil => exact absurd rfl hp
  | append_singleton q n ih =>
    by_cases hq : q = []
    · rw [hq, List.nil_append, pathStr_singleton]
      simp
    · rw [pathStr_concat q n hq, ih hq]
      simp

theorem normal_pathStr {p : Path} (h : ValidPath p) : Normal (pathStr p) := by
  by_cases hp : p = []
  · left
    rw [hp]
    rfl
  · right
    exact ⟨p, hp, fun n hn => ⟨(h n hn).1, (h n hn).2.1, (h n hn).2.2.1, (h n hn).2.2.2.1⟩, pathStr_flatMap hp⟩

theorem abspathIn_eq {cwd : Path} (hcwd : ValidPath cwd) {path : Str} (h0 : 0 ∉ path) :
    Pyperm.abspathIn cwd path = pathStr (resolve cwd path) := by
  have hbase : consume [] (rstrip (pathStr cwd)) = cwd := by
    rw [consume_eq, parts_rstrip, parts_pathStr hcwd.isParts, foldl_component_valid [] hcwd, List.nil_append]
  -- an empty path is read as `.`, which leads nowhere either
  have hdot : ∀ p, consume p (if path ≠ [] then path else dot) = consume p path := by
    intro p
    by_cases hne : path = []
    · rw [hne]
      rfl
    · rw [if_pos hne]
  have hhead : (if path ≠ [] then path else dot).head? = some slash ↔ isAbs path := by
    by_cases hne : path = []
    · rw [hne]
      decide
    · rw [if_pos hne]
      rfl
  unfold Pyperm.abspathIn
  rw [resolve_of_not_mem cwd h0]
  generalize hq : (if path ≠ [] then path else dot) = q at hdot hhead
  simp only
  by_cases habs : isAbs path
  · rw [if_pos habs, if_pos (hhead.mpr habs), ← hdot]
    rfl
  · rw [if_neg habs, if_neg (fun h => habs (hhead.mp h)), ← hdot]
    by_cases hroot : pathStr cwd ≠ [slash]
    · rw [if_pos hroot]
      have happ := consume_append [] (rstrip (pathStr cwd)) q
      rw [hbase] at happ
      rw [← happ]
      rfl
    · rw [if_neg hroot]
      have hempty : cwd = [] := by
        by_contra hne
        have := (one_lt_length_pathStr hcwd).mpr hne
        rw [not_not.mp hroot] at this
        simp at this
      have happ := consume_append [] [] q
      rw [hempty]
      exact congrArg pathStr happ

theorem length_pathStr_take (p : Path) (k : Nat) : (pathStr (p.take k)).length ≤ (pathStr p).length := by
  have hgrow : ∀ (b a : Path), (pathStr a).length ≤ (pathStr (a ++ b)).length := by
    intro b
    induction b using List.reverseRecOn with
    | nil =>
      intro a
      rw [List.append_nil]
    | append_singleton b n ih =>
      intro a
      rw [← List.append_assoc, length_pathStr_concat]
      have := ih a
      omega
  have := hgrow (p.drop k) (p.take k)
  rwa [List.take_append_drop] at this

/-- A path spelt out fits wherever it has been written, and is written again. -/
theorem pathResolve_again {peCwd : Str} {cwd p : Path} (hcwd : CwdRep peCwd cwd) (hp : ValidPath p) {path : CStr}
    (hpath : path.1 = pathStr p) {out : Str} (hfits : (pathStr p).length + 1 ≤ out.length) :
    ∃ out', pePathResolve peCwd (some path) (some out) = (.ok (), some out') ∧ cstr out' = pathStr p := by
  have habs : isAbs path.1 := by rw [hpath]; rfl
  have hone : 1 ≤ (pathStr p).length := List.length_pos_iff.mpr (pathStr_ne_nil p)
  have hout : 2 ≤ out.length := by omega
  rcases pathResolve_spec hcwd path hout with ⟨out', hr, hholds, -⟩ | ⟨out', -, k, hk⟩
  · refine ⟨out', hr, ?_⟩
    rw [hpath, resolve_pathStr cwd hp] at hholds
    exact cstr_of_holds hholds (zero_not_mem_pathStr hp)
  · rcases hk with hk | ⟨hnot, -⟩
    · rw [if_pos habs, hpath, parts_pathStr hp.isParts, foldl_component_valid [] fun n hn => hp n (List.mem_of_mem_take hn),
        List.nil_append] at hk
      have := length_pathStr_take p k
      omega
    · exact absurd habs hnot

/-- Whenever pe_path_resolve succeeds it writes a normal path that fits, the reference normalisation of the path, a
fixed point of its own, and what pyperm and zipfile make of the path; a pe_path_chdir that fails changes nothing. -/
theorem pathResolve_agrees {peCwd : Str} (hreach : Reachable peCwd) :
    (∀ (path : CStr) (out : Str) (out' : Option Str),
      pePathResolve peCwd (some path) (some out) = (.ok (), out') → ∃ r : CStr,
        out'.map cstr = some r.1 ∧ Normal r.1 ∧ r.1.length ≤ out.length - 1 ∧ r.1 = normalize (cstr peCwd) path.1 ∧
        (∀ again : Str, out.length ≤ again.length → ∃ again',
          pePathResolve peCwd (some r) (some again) = (.ok (), some again') ∧ cstr again' = r.1) ∧
        ∃ cwd : Path, pathStr cwd = cstr peCwd ∧ ∀ w : World, w.cwd = cwd →
          Pyperm.abspath path.1 w = (.ok r.1, w) ∧ Zipfile.absolute path.1 w = (.ok r.1, w)) ∧
    ∀ stat resolved path e peCwd', pePathChdir stat resolved path peCwd = (.error e, peCwd') → peCwd' = peCwd := by
  obtain ⟨cwd, hcwd⟩ := hreach.cwdRep
  have hstr : cstr peCwd = pathStr cwd := cstr_of_holds hcwd.holds (zero_not_mem_pathStr hcwd.valid)
  constructor
  · intro path out out' h
    have hout : 2 ≤ out.length := by
      by_contra hlt
      unfold pePathResolve at h
      simp only at h
      rw [if_pos (by omega)] at h
      simp at h
    have hvalid : ValidPath (resolve cwd path.1) := resolve_valid hcwd.valid path.2
    have h0 := zero_not_mem_pathStr hvalid
    rcases pathResolve_spec hcwd path hout with ⟨b, hr, hholds, hsize⟩ | ⟨b, hr, -⟩
    · rw [hr] at h
      obtain rfl : some b = out' := (Prod.mk.inj h).2
      have hfits : (pathStr (resolve cwd path.1)).length + 1 ≤ out.length := by
        obtain ⟨rest, hrest⟩ := hholds
        rw [← hsize, hrest]
        simp
      refine ⟨⟨pathStr (resolve cwd path.1), h0⟩, ?_, normal_pathStr hvalid, by simp only; omega, ?_, ?_, cwd, hstr.symm, ?_⟩
      · rw [Option.map_some, cstr_of_holds hholds h0]
      · rw [hstr, normalize_eq hcwd.valid path.2]
      · intro again hagain
        exact pathResolve_again hcwd hvalid rfl (by omega)
      · intro w hw
        subst hw
        refine ⟨?_, absolute_eq path.2 hcwd.valid⟩
        show (Except.ok (Pyperm.abspathIn w.cwd path.1), w) = _
        rw [abspathIn_eq hcwd.valid path.2]
    · rw [hr] at h
      simp at h
  · intro stat resolved path e peCwd' h
    unfold pePathChdir at h
    split at h
    · exact (Prod.mk.inj h).2.symm
    · simp only at h
      split at h
      · exact (Prod.mk.inj h).2.symm
      · exact (Prod.mk.inj h).2.symm
      · simp at h

/-- From `/`, `./b//../c/` is `/c`. -/
theorem pathResolve_agrees_sample : Reachable initialCwd ∧
    pePathResolve initialCwd (some ⟨[46, 47, 98, 47, 47, 46, 46, 47, 99, 47], by decide⟩) (some (List.replicate 8 1)) =
      (.ok (), some [47, 99, 0, 1, 1, 1, 1, 1]) ∧ Normal [47, 99] := by
  have hrun : pePathResolve initialCwd (some ⟨[46, 47, 98, 47, 47, 46, 46, 47, 99, 47], by decide⟩)
      (some (List.replicate 8 1)) = (.ok (), some [47, 99, 0, 1, 1, 1, 1, 1]) := by decide +kernel
  refine ⟨.initial, hrun, ?_⟩
  obtain ⟨r, hr, hnormal, -⟩ := (pathResolve_agrees .initial).1 _ _ _ hrun
  have : r.1 = [47, 99] := Option.some.inj (hr.symm.trans rfl)
  rw [← this]
  exact hnormal

end PythonUltra.Os.Pathutil
