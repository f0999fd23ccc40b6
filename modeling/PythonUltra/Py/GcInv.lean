/-
  PythonUltra.Py.GcInv — what holds of a heap between two calls, and that each call keeps it.

  `Inv` has the tables in order and the two hints of the search right: no area before
  `lastFreeArea` and no block before `lastFreeAtbIndex` is free. `Allocated` is an allocation
  of a number of blocks; the specifications say which allocations a call leaves as they are.
-/

import PythonUltra.Py.GcOps
import PythonUltra.Py.GcSweep

namespace PythonUltra.Py.Gc

open Lib.RunScan

section
variable (c : Config)

structure Inv (h : Heap) : Prop where
  wf : WellFormed c h.areas
  pool : ∀ a ∈ h.areas, 0 < a.poolStart ∧ a.poolEnd < 2 ^ (8 * c.wordBytes)
  hint : ∀ a ∈ h.areas, a.HintOk
  full : ∀ i < h.lastFreeArea, ∀ a, h.areas[i]? = some a → a.Full
  /-- it is one of the areas -/
  last : h.lastFreeArea < h.areas.length

/-- `ptr` is the address of an allocation of `n` blocks. -/
structure Allocated (areas : List Area) (ptr : Nat) (r : Ref) (n : Nat) : Prop where
  address : AddressOf c areas r ptr
  head : kindAt areas r = .head
  chain : ∀ a, areas[r.1]? = some a → a.Chain r.2 n

end

variable {c : Config} {areas areas' : List Area} {env : Env} {h h' : Heap} {a a' : Area} {i n m : Nat} {ptr ptr' : Nat} {r r' : Ref}

/-! ## Allocations -/

theorem allocated_iff (ha : areas[r.1]? = some a) :
    Allocated c areas ptr r n ↔ r.2 < a.numBlocks ∧ ptr = a.ptrFromBlock c r.2 ∧ a.getKind r.2 = .head ∧ a.Chain r.2 n := by
  have hk : kindAt areas r = a.getKind r.2 := kindAt_eq ha
  constructor
  · intro h
    obtain ⟨a', ha', hb, hp⟩ := h.address
    obtain rfl := Option.some.inj (ha.symm.trans ha')
    exact ⟨hb, hp, hk ▸ h.head, h.chain a ha⟩
  · rintro ⟨hb, hp, hh, hch⟩
    refine ⟨⟨a, ha, hb, hp⟩, hk ▸ hh, fun a' ha' => ?_⟩
    obtain rfl := Option.some.inj (ha.symm.trans ha')
    exact hch

theorem Allocated.nbytes (hwf : WellFormed c h.areas) (hp : Allocated c h.areas ptr r n) : gcNbytes c h ptr = n * c.bytesPerBlock := by
  obtain ⟨a, ha, -⟩ := id hp.address
  obtain ⟨hb, -, hk, hch⟩ := (allocated_iff ha).mp hp
  rw [gcNbytes, (target_iff hwf).mpr hp.address]
  simp [ha, hk, Area.chain_eq (hwf.ok ha).gap hb hch]

/-- Two allocations have no byte in common. -/
theorem Allocated.apart (hwf : WellFormed c areas) (hp : Allocated c areas ptr r n) (hp' : Allocated c areas ptr' r' m) (hne : ptr ≠ ptr') :
    ptr + n * c.bytesPerBlock ≤ ptr' ∨ ptr' + m * c.bytesPerBlock ≤ ptr := by
  obtain ⟨a, ha, -⟩ := id hp.address
  obtain ⟨a', ha', -⟩ := id hp'.address
  obtain ⟨hb, rfl, hk, hch⟩ := (allocated_iff ha).mp hp
  obtain ⟨hb', rfl, hk', hch'⟩ := (allocated_iff ha').mp hp'
  have hin := Nat.mul_le_mul_right c.bytesPerBlock (hch.inside (hwf.ok ha) hb)
  have hin' := Nat.mul_le_mul_right c.bytesPerBlock (hch'.inside (hwf.ok ha') hb')
  rw [Nat.add_mul] at hin hin'
  have hpool := (hwf.ok ha).pool
  have hpool' := (hwf.ok ha').pool
  simp only [Area.ptrFromBlock] at hne ⊢
  by_cases hi : r.1 = r'.1
  · rw [hi] at ha
    obtain rfl := Option.some.inj (ha.symm.trans ha')
    have hblock : r.2 ≠ r'.2 := fun e => hne (by rw [e])
    rcases hch.disjoint hch' hk hk' hblock with hle | hle
    · have := Nat.mul_le_mul_right c.bytesPerBlock hle
      rw [Nat.add_mul] at this
      exact .inl (by omega)
    · have := Nat.mul_le_mul_right c.bytesPerBlock hle
      rw [Nat.add_mul] at this
      exact .inr (by omega)
  · obtain ⟨h1, rfl⟩ := List.getElem?_eq_some_iff.mp ha
    obtain ⟨h2, rfl⟩ := List.getElem?_eq_some_iff.mp ha'
    have hap : Apart (areas[r.1].frame) (areas[r'.1].frame) := by
      have hpw := List.pairwise_iff_getElem.mp hwf.apart
      rcases Nat.lt_or_gt_of_ne hi with hlt | hlt
      · have := hpw r.1 r'.1 (by simpa using h1) (by simpa using h2) hlt
        simp only [List.getElem_map] at this
        exact this
      · have := hpw r'.1 r.1 (by simpa using h2) (by simpa using h1) hlt
        simp only [List.getElem_map] at this
        exact Or.symm this
    simp only [Apart, Area.frame] at hap
    omega

/-! ## The hints -/

/-- The same area, but for its hint. -/
def Rehinted (a a' : Area) : Prop := a' = { a with lastFreeAtbIndex := a'.lastFreeAtbIndex }

theorem Rehinted.same (h : Rehinted a a') : Area.Same a a' := by
  rw [h]
  exact ⟨rfl, rfl, rfl⟩

theorem Rehinted.kind (h : Rehinted a a') (b : Nat) : a'.getKind b = a.getKind b := by
  rw [h]
  rfl

theorem Rehinted.ok (h : Rehinted a a') (hok : a.Ok c) : a'.Ok c := by
  rw [h]
  exact ⟨hok.gap, hok.tail, hok.used, hok.last, hok.noMark, hok.aligned, hok.pool⟩

theorem Rehinted.isFree (h : Rehinted a a') : a'.isFree = a.isFree := by
  funext b
  rw [Area.isFree, Area.isFree, h.kind]

theorem Rehinted.refl (a : Area) : Rehinted a a := rfl

theorem Rehinted.room (h : Rehinted a a') : a'.Room n ↔ a.Room n := by
  rw [Area.Room, Area.Room, h.isFree, h.same.numBlocks]

theorem frames_of_forall₂ {R : Area → Area → Prop} (h : List.Forall₂ R areas areas') (hR : ∀ a a', R a a' → Area.Same a a') :
    areas'.map Area.frame = areas.map Area.frame := by
  induction h with
  | nil => rfl
  | cons hr _ ih => rw [List.map_cons, List.map_cons, ih, (hR _ _ hr).frame]

theorem forall₂_getElem? {α β : Type} {R : α → β → Prop} {l : List α} {l' : List β} (h : List.Forall₂ R l l') {x : α} (hx : l[i]? = some x) :
    ∃ y, l'[i]? = some y ∧ R x y := by
  induction h generalizing i with
  | nil => simp at hx
  | cons hr _ ih =>
    cases i with
    | zero =>
      rw [List.getElem?_cons_zero] at hx
      exact ⟨_, rfl, Option.some.inj hx ▸ hr⟩
    | succ i =>
      rw [List.getElem?_cons_succ] at hx ⊢
      exact ih hx

theorem rehinted_allocated (h : List.Forall₂ Rehinted areas areas') (hp : Allocated c areas ptr r n) : Allocated c areas' ptr r n := by
  obtain ⟨a, ha, -⟩ := id hp.address
  obtain ⟨hb, hpt, hk, hch⟩ := (allocated_iff ha).mp hp
  obtain ⟨a', ha', hr⟩ := forall₂_getElem? h ha
  refine (allocated_iff ha').mpr ⟨hr.same.numBlocks ▸ hb, ?_, (hr.kind _).trans hk, hch.congr fun b _ _ => by rw [hr.kind]⟩
  rw [hpt, Area.ptrFromBlock, Area.ptrFromBlock, hr.same.poolStart]

/-- What is live does not depend on the hints. -/
theorem Live.rehinted (h : List.Forall₂ Rehinted areas areas') (hl : Live c env areas r) : Live c env areas' r := by
  have hhead : ∀ {r w}, HeadAt c areas r w → HeadAt c areas' r w := by
    rintro r w ⟨⟨a, ha, hb, hw⟩, hk⟩
    obtain ⟨a', ha', hr⟩ := forall₂_getElem? h ha
    have hk' : a.getKind r.2 = .head := by rwa [← kindAt_eq ha]
    refine ⟨⟨a', ha', hr.same.numBlocks ▸ hb, ?_⟩, (kindAt_eq ha').trans ((hr.kind _).trans hk')⟩
    rw [hw, Area.ptrFromBlock, Area.ptrFromBlock, hr.same.poolStart]
  induction hl with
  | root hw hr => exact .root hw (hhead hr)
  | word _ hword hr ih =>
    obtain ⟨a, n, k, ha, hch, hk, rfl⟩ := hword
    obtain ⟨a', ha', hre⟩ := forall₂_getElem? h ha
    refine .word ih ⟨a', n, k, ha', hch.congr fun b _ _ => by rw [hre.kind], hk, ?_⟩ (hhead hr)
    rw [Area.ptrFromBlock, Area.ptrFromBlock, hre.same.poolStart]

/-! ## A collection -/

theorem Swept.ok {keep : Nat → Prop} (h : Swept keep a a') (hok : a.Ok c) (hkeep : ∀ b, keep b → a.getKind b = .head) : a'.Ok c := by
  have hnum := h.same.numBlocks
  have hheld : ∀ b < a.numBlocks, a'.getKind b ≠ .free → a.Held keep b := by
    intro b hb hne
    by_contra hno
    exact hne (h.frees b hb hno)
  refine ⟨hnum ▸ h.gap, fun b hb ht => ?_, fun b hb hne => ?_, ?_, fun b hb hm => ?_, ?_, ?_⟩
  · rw [hnum] at hb
    have hhb := hheld b hb (by rw [ht]; decide)
    obtain ⟨block, n, hkp, hch, h1, h2⟩ := id hhb
    rw [h.keeps b hb hhb] at ht
    have hne : b ≠ block := by
      rintro rfl
      rw [hkeep b hkp] at ht
      exact absurd ht (by decide)
    refine ⟨b - 1, by omega, ?_⟩
    rw [h.keeps (b - 1) (by omega) ⟨block, n, hkp, hch, by omega, by omega⟩]
    exact hch.used (hkeep block hkp) (by omega) (by omega)
  · rw [hnum] at hb
    exact h.used b hb (hheld b hb hne)
  · rcases h.last with h0 | ⟨hlt, -⟩
    · rw [h0]
      exact Nat.zero_le _
    · rw [hnum]
      exact Nat.le_of_lt hlt
  · rw [hnum] at hb
    rw [h.keeps b hb (hheld b hb (by rw [hm]; decide))] at hm
    exact hok.noMark b hb hm
  · rw [h.same.poolStart]
    exact hok.aligned
  · rw [h.same.poolEnd, h.same.poolStart, hnum]
    exact hok.pool

/-- The chains kept. -/
theorem Swept.chain {keep : Nat → Prop} {b : Nat} (h : Swept keep a a') (hok : a.Ok c) (hb : b < a.numBlocks) (hkeep : keep b)
    (hk : a.getKind b = .head) (hch : a.Chain b n) : a'.getKind b = .head ∧ a'.Chain b n := by
  have hpos := hch.pos
  have hin := hch.inside hok hb
  have hkeeps : ∀ x, b ≤ x → x < b + n → a'.getKind x = a.getKind x := fun x h1 h2 => h.keeps x (by omega) ⟨b, n, hkeep, hch, h1, h2⟩
  refine ⟨(hkeeps b (Nat.le_refl _) (by omega)).trans hk, hpos, fun x h1 h2 => (hkeeps x (by omega) h2).trans (hch.tail x h1 h2), ?_⟩
  rcases Nat.lt_or_ge (b + n) a.numBlocks with hlt | hge
  · by_cases hheld : a.Held keep (b + n)
    · rw [h.keeps _ hlt hheld]
      exact hch.stop
    · rw [h.frees _ hlt hheld]
      decide
  · rw [show b + n = a.numBlocks by omega, h.gap]
    decide

theorem gcCollect_spec (env : Env) (hinv : Inv c h) :
    ∃ h', gcCollect c env h = some h' ∧ Inv c h' ∧ h'.lockDepth = h.lockDepth ∧ h'.autoCollectEnabled = h.autoCollectEnabled ∧
      (∀ ptr r n, Allocated c h.areas ptr r n → Live c env h.areas r → Allocated c h'.areas ptr r n) := by
  obtain ⟨h', left, hrun, hsub, hall, hleft, hh'⟩ := collectWith_spec false env hinv.wf
  have hwhole : left = h.areas.zipIdx := by
    apply hsub.eq_of_length_le
    have hnodup : h.areas.zipIdx.Nodup := by
      apply List.Nodup.of_map Prod.snd
      rw [List.zipIdx_map_snd]
      exact List.nodup_range'
    refine (hnodup.subperm fun p hp => (hleft p hp).mpr ?_).length_le
    rintro ⟨hauto, -⟩
    exact absurd hauto (by decide)
  rw [hwhole] at hall
  have hget : ∀ i a, h.areas[i]? = some a → ∃ a', h'.areas[i]? = some a' ∧ Swept (fun b => Live c env h.areas (i, b)) a a' ∧ a'.lastFreeAtbIndex = 0 := by
    intro i a ha
    obtain ⟨a', ha', hs⟩ := forall₂_getElem? hall (show h.areas.zipIdx[i]? = some (a, i) by rw [List.getElem?_zipIdx, ha]; simp)
    exact ⟨a', ha', hs⟩
  have hlen : h'.areas.length = h.areas.length := by rw [← hall.length_eq, List.length_zipIdx]
  have hback : ∀ a' ∈ h'.areas, ∃ i a, h.areas[i]? = some a ∧ Swept (fun b => Live c env h.areas (i, b)) a a' ∧ a'.lastFreeAtbIndex = 0 := by
    intro a' ha'
    obtain ⟨p, hp, hs⟩ := forall₂_left hall.flip ha'
    exact ⟨p.2, p.1, List.mem_zipIdx_iff_getElem?.mp hp, hs⟩
  have hframes : h'.areas.map Area.frame = h.areas.map Area.frame := by
    apply List.ext_getElem (by simpa using hlen)
    intro i h1 h2
    obtain ⟨a', ha', hs, -⟩ := hget i _ (List.getElem?_eq_getElem (by simpa using h2))
    obtain ⟨hi, rfl⟩ := List.getElem?_eq_some_iff.mp ha'
    simpa using hs.same.frame
  have hhead : ∀ {i b a}, h.areas[i]? = some a → Live c env h.areas (i, b) → a.getKind b = .head := by
    intro i b a ha hl
    obtain ⟨w, -, hk⟩ := hl.headAt
    rwa [kindAt_eq ha] at hk
  refine ⟨h', hrun, ⟨⟨fun a' ha' => ?_, ?_⟩, fun a' ha' => ?_, fun a' ha' => ?_, fun i hi => ?_, ?_⟩, ?_, ?_, ?_⟩
  · obtain ⟨i, a, ha, hs, -⟩ := hback a' ha'
    exact hs.ok (hinv.wf.ok ha) fun b hl => hhead ha hl
  · rw [hframes]
    exact hinv.wf.apart
  · obtain ⟨i, a, ha, hs, -⟩ := hback a' ha'
    rw [hs.same.poolStart, hs.same.poolEnd]
    exact hinv.pool a (List.mem_of_getElem? ha)
  · obtain ⟨i, a, ha, hs, h0⟩ := hback a' ha'
    intro b hb hlt
    rw [h0] at hlt
    exact absurd hlt (Nat.not_lt_zero b)
  · rw [hh'] at hi
    exact absurd hi (Nat.not_lt_zero i)
  · rw [hlen, hh']
    exact Nat.zero_lt_of_lt hinv.last
  · rw [hh']
  · rw [hh']
  · intro ptr r n hp hl
    obtain ⟨a, ha, -⟩ := id hp.address
    obtain ⟨hb, hpt, hk, hch⟩ := (allocated_iff ha).mp hp
    obtain ⟨a', ha', hs, -⟩ := hget r.1 a ha
    obtain ⟨hk', hch'⟩ := hs.chain (hinv.wf.ok ha) hb hl hk hch
    refine (allocated_iff ha').mpr ⟨hs.same.numBlocks ▸ hb, ?_, hk', hch'⟩
    rw [hpt, Area.ptrFromBlock, Area.ptrFromBlock, hs.same.poolStart]

/-! ## The search -/

/-- The blocks of an area that gc_alloc has found. -/
structure Found (a : Area) (need e f : Nat) : Prop where
  count : f = need
  inside : e < a.numBlocks
  le : need ≤ e + 1
  free : ∀ b, e + 1 - need ≤ b → b < e + 1 → a.getKind b = .free
  first : need = 1 → ∀ b < e, a.getKind b ≠ .free

theorem filled_hint {need : Nat} (hneed : 0 < need) (hhint : a.HintOk) (hno : ¬ a.Room need) : Rehinted a (a.filled need) ∧ (a.filled need).HintOk := by
  rw [Area.filled]
  by_cases h1 : need = 1
  · rw [if_pos h1]
    subst h1
    have hfull := Area.full_of_no_room hno
    exact ⟨rfl, fun b hb _ => hfull b hb⟩
  · rw [if_neg h1]
    exact ⟨rfl, hhint⟩

theorem scanAreas_spec {need : Nat} (hneed : 0 < need) (k : Nat) (hhint : ∀ a ∈ areas, a.HintOk) :
    List.Forall₂ Rehinted areas (scanAreas need k areas).2 ∧ (∀ a ∈ (scanAreas need k areas).2, a.HintOk) ∧
      ((scanAreas need k areas).1 = none → ∀ a ∈ (scanAreas need k areas).2, ¬ a.Room need) ∧
      ∀ i e f, (scanAreas need k areas).1 = some (i, e, f) → ∃ j a, i = k + j ∧ (scanAreas need k areas).2[j]? = some a ∧ Found a need e f ∧
        (need = 1 → ∀ j' < j, ∀ a', (scanAreas need k areas).2[j']? = some a' → a'.Full) := by
  induction areas generalizing k with
  | nil => exact ⟨.nil, fun a ha => absurd ha List.not_mem_nil, fun _ a ha => absurd ha List.not_mem_nil, fun i e f h => absurd h (by simp [scanAreas])⟩
  | cons a areas ih =>
    have hha := hhint a List.mem_cons_self
    rw [scanAreas]
    cases hs : scanArea a need with
    | some x =>
      obtain ⟨e, f⟩ := x
      obtain ⟨h1, h2, h3, h4, h5⟩ := Area.scanArea_some hneed hs
      refine ⟨.cons (.refl a) (List.forall₂_same.mpr fun a _ => .refl a), hhint, fun h => absurd h (by simp), fun i e' f' h => ?_⟩
      obtain ⟨rfl, hef⟩ := Prod.mk.inj (Option.some.inj h)
      obtain ⟨rfl, rfl⟩ := Prod.mk.inj hef
      exact ⟨0, a, rfl, rfl, ⟨h1, h2, h3, h4, fun hone => h5 hone hha⟩, fun _ j hj => absurd hj (Nat.not_lt_zero j)⟩
    | none =>
      have hno := Area.scanArea_none hneed hha hs
      obtain ⟨hre, hok⟩ := filled_hint hneed hha hno
      obtain ⟨h1, h2, h3, h4⟩ := ih (k + 1) fun a ha => hhint a (List.mem_cons_of_mem _ ha)
      refine ⟨.cons hre h1, fun a' ha' => ?_, fun hnone a' ha' => ?_, fun i e f h => ?_⟩
      · rcases List.mem_cons.mp ha' with rfl | ha'
        · exact hok
        · exact h2 a' ha'
      · rcases List.mem_cons.mp ha' with rfl | ha'
        · exact mt hre.room.mp hno
        · exact h3 hnone a' ha'
      · obtain ⟨j, a', hi, ha', hf, hfull⟩ := h4 i e f h
        refine ⟨j + 1, a', by omega, ha', hf, fun hone j' hj' b hb => ?_⟩
        cases j' with
        | zero =>
          rw [List.getElem?_cons_zero] at hb
          obtain rfl := Option.some.inj hb
          subst hone
          exact Area.full_of_no_room (mt hre.room.mp hno)
        | succ j' => exact hfull hone j' (by omega) b (by simpa using hb)

theorem Inv.rehint (hinv : Inv c h) (hre : List.Forall₂ Rehinted h.areas areas) (hhint : ∀ a ∈ areas, a.HintOk) : Inv c { h with areas := areas } := by
  have hframes := frames_of_forall₂ hre fun a a' hr => hr.same
  have hback : ∀ {i a'}, areas[i]? = some a' → ∃ a, h.areas[i]? = some a ∧ Rehinted a a' := fun ha' => forall₂_getElem? hre.flip ha'
  have hmem : ∀ a' ∈ areas, ∃ a ∈ h.areas, Rehinted a a' := fun a' ha' => forall₂_left hre.flip ha'
  refine ⟨⟨fun a' ha' => ?_, ?_⟩, fun a' ha' => ?_, hhint, fun i hi a' ha' => ?_, ?_⟩
  · obtain ⟨a, ha, hr⟩ := hmem a' ha'
    exact hr.ok (hinv.wf.area a ha)
  · show (areas.map Area.frame).Pairwise Apart
    rw [hframes]
    exact hinv.wf.apart
  · obtain ⟨a, ha, hr⟩ := hmem a' ha'
    rw [hr.same.poolStart, hr.same.poolEnd]
    exact hinv.pool a ha
  · obtain ⟨a, ha, hr⟩ := hback ha'
    intro b hb
    rw [hr.kind]
    exact hinv.full i hi a ha b (hr.same.numBlocks ▸ hb)
  · show h.lastFreeArea < areas.length
    rw [← hre.length_eq]
    exact hinv.last

/-- A search changes hints only. It finds the first blocks that will do, or there are none. -/
theorem search_spec {need : Nat} (hneed : 0 < need) (hinv : Inv c h) :
    ∃ areas, (search h need).2 = { h with areas := areas } ∧ List.Forall₂ Rehinted h.areas areas ∧ Inv c { h with areas := areas } ∧
      ((search h need).1 = none → ∀ a ∈ areas, ¬ a.Room need) ∧
      ∀ i e f, (search h need).1 = some (i, e, f) → ∃ a, areas[i]? = some a ∧ Found a need e f ∧
        (need = 1 → ∀ j < i, ∀ a', areas[j]? = some a' → a'.Full) := by
  have hdrop : ∀ a ∈ h.areas.drop h.lastFreeArea, a.HintOk := fun a ha => hinv.hint a (List.mem_of_mem_drop ha)
  obtain ⟨h1, h2, h3, h4⟩ := scanAreas_spec hneed h.lastFreeArea hdrop
  rw [search]
  obtain ⟨rest, hrest⟩ : ∃ rest, rest = (scanAreas need h.lastFreeArea (h.areas.drop h.lastFreeArea)).2 := ⟨_, rfl⟩
  rw [← hrest] at h1 h2 h3 h4
  have hre : List.Forall₂ Rehinted h.areas (h.areas.take h.lastFreeArea ++ rest) := by
    have happ : List.Forall₂ Rehinted (h.areas.take h.lastFreeArea ++ h.areas.drop h.lastFreeArea) (h.areas.take h.lastFreeArea ++ rest) :=
      List.rel_append (List.forall₂_same.mpr fun a _ => .refl a) h1
    simpa only [List.take_append_drop] using happ
  -- the areas passed over are full
  have hbefore : ∀ {j : Nat} {a : Area}, (h.areas.take h.lastFreeArea)[j]? = some a → a.Full := by
    intro j a ha
    rw [List.getElem?_take] at ha
    by_cases hj : j < h.lastFreeArea
    · rw [if_pos hj] at ha
      exact hinv.full j hj a ha
    · rw [if_neg hj] at ha
      exact absurd ha (by simp)
  refine ⟨h.areas.take h.lastFreeArea ++ rest, by rw [hrest], hre, hinv.rehint hre fun a ha => ?_, fun hnone a ha => ?_, fun i e f hsome => ?_⟩
  · rcases List.mem_append.mp ha with ha | ha
    · exact hinv.hint a (List.mem_of_mem_take ha)
    · exact h2 a ha
  · rcases List.mem_append.mp ha with ha | ha
    · obtain ⟨j, hj⟩ := List.mem_iff_getElem?.mp ha
      rintro ⟨s, hs, hrun⟩
      exact hbefore hj s (by omega) (Area.Run.free hrun (Nat.le_refl _) (by omega))
    · exact h3 hnone a ha
  · obtain ⟨j, a, hi, ha, hf, hfull⟩ := h4 i e f hsome
    have hlen : (h.areas.take h.lastFreeArea).length = h.lastFreeArea := by
      obtain ⟨hj, -⟩ := List.getElem?_eq_some_iff.mp ha
      have hdl := h1.length_eq
      rw [List.length_drop] at hdl
      rw [List.length_take]
      omega
    refine ⟨a, ?_, hf, fun hone j' hj' a' ha' => ?_⟩
    · rw [List.getElem?_append_right (by omega), hlen, hi, Nat.add_sub_cancel_left]
      exact ha
    · by_cases hin : j' < h.lastFreeArea
      · rw [List.getElem?_append_left (by omega)] at ha'
        exact hbefore ha'
      · rw [List.getElem?_append_right (by omega), hlen] at ha'
        exact hfull hone _ (by omega) a' ha'

/-! ## One area is changed -/

theorem modify_eq_set {α : Type} {l : List α} {f : α → α} {x : α} (hx : l[i]? = some x) : l.modify i f = l.set i (f x) := by
  obtain ⟨hi, rfl⟩ := List.getElem?_eq_some_iff.mp hx
  apply List.ext_getElem?
  intro j
  rw [List.getElem?_modify, List.getElem?_set]
  by_cases hij : i = j
  · subst hij
    simp [hi]
  · simp [hij]

theorem Allocated.edit (ha : areas[i]? = some a) (hsame : Area.Same a a') (hp : Allocated c areas ptr r n)
    (hchain : r.1 = i → a.getKind r.2 = .head → a.Chain r.2 n → a'.getKind r.2 = .head ∧ a'.Chain r.2 n) : Allocated c (areas.set i a') ptr r n := by
  obtain ⟨hi, -⟩ := List.getElem?_eq_some_iff.mp ha
  obtain ⟨b, hb, -⟩ := id hp.address
  obtain ⟨h1, h2, h3, h4⟩ := (allocated_iff hb).mp hp
  by_cases hr : r.1 = i
  · rw [hr] at hb
    obtain rfl := Option.some.inj (ha.symm.trans hb)
    obtain ⟨h5, h6⟩ := hchain hr h3 h4
    have hget : (areas.set i a')[r.1]? = some a' := by rw [hr, List.getElem?_set_self hi]
    refine (allocated_iff hget).mpr ⟨hsame.numBlocks ▸ h1, ?_, h5, h6⟩
    rw [h2, Area.ptrFromBlock, Area.ptrFromBlock, hsame.poolStart]
  · have hget : (areas.set i a')[r.1]? = some b := by rw [List.getElem?_set_ne (Ne.symm hr), hb]
    exact (allocated_iff hget).mpr ⟨h1, h2, h3, h4⟩

theorem Allocated.resize (ha : areas[r.1]? = some a) (hsame : Area.Same a a') (hp : Allocated c areas ptr r n)
    (hresized : a'.getKind r.2 = .head ∧ a'.Chain r.2 m) : Allocated c (areas.set r.1 a') ptr r m := by
  obtain ⟨hi, -⟩ := List.getElem?_eq_some_iff.mp ha
  obtain ⟨h1, h2, -, -⟩ := (allocated_iff ha).mp hp
  have hget : (areas.set r.1 a')[r.1]? = some a' := List.getElem?_set_self hi
  refine (allocated_iff hget).mpr ⟨hsame.numBlocks ▸ h1, ?_, hresized⟩
  rw [h2, Area.ptrFromBlock, Area.ptrFromBlock, hsame.poolStart]

theorem Inv.edit (hinv : Inv c h) (ha : h.areas[i]? = some a) (hareas : h'.areas = h.areas.set i a') (hok : a'.Ok c) (hsame : Area.Same a a')
    (hhint : a'.HintOk) (hlast : h'.lastFreeArea < h.areas.length) (hself : i < h'.lastFreeArea → a'.Full)
    (hother : ∀ j < h'.lastFreeArea, j ≠ i → ∀ b, h.areas[j]? = some b → b.Full) : Inv c h' := by
  obtain ⟨hi, rfl⟩ := List.getElem?_eq_some_iff.mp ha
  have hmem : ∀ b ∈ h'.areas, b = a' ∨ b ∈ h.areas := by
    intro b hb
    rw [hareas] at hb
    exact (List.mem_or_eq_of_mem_set hb).symm
  have hframes : h'.areas.map Area.frame = h.areas.map Area.frame := by
    rw [hareas, List.map_set, hsame.frame]
    have hself := List.set_getElem_self (show i < (h.areas.map Area.frame).length by simpa using hi)
    rwa [List.getElem_map] at hself
  refine ⟨⟨fun b hb => ?_, ?_⟩, fun b hb => ?_, fun b hb => ?_, fun j hj b hb => ?_, ?_⟩
  · rcases hmem b hb with rfl | hb
    · exact hok
    · exact hinv.wf.area b hb
  · rw [hframes]
    exact hinv.wf.apart
  · rcases hmem b hb with rfl | hb
    · rw [hsame.poolStart, hsame.poolEnd]
      exact hinv.pool _ (List.getElem_mem hi)
    · exact hinv.pool b hb
  · rcases hmem b hb with rfl | hb
    · exact hhint
    · exact hinv.hint b hb
  · rw [hareas] at hb
    by_cases hji : j = i
    · subst hji
      rw [List.getElem?_set_self hi] at hb
      obtain rfl := Option.some.inj hb
      exact hself hj
    · rw [List.getElem?_set_ne (Ne.symm hji)] at hb
      exact hother j hj hji b hb
  · rw [hareas, List.length_set]
    exact hlast

/-! ## gc_alloc -/

theorem found_spec {need e f : Nat} (hneed : 0 < need) (hinv : Inv c h) (ha : h.areas[i]? = some a) (hf : Found a need e f)
    (hfull : need = 1 → ∀ j < i, ∀ a', h.areas[j]? = some a' → a'.Full) :
    Inv c (found c h need i e f).1 ∧ (∃ r, Allocated c (found c h need i e f).1.areas (found c h need i e f).2 r need) ∧
      ∀ ptr r n, Allocated c h.areas ptr r n → Allocated c (found c h need i e f).1.areas ptr r n ∧ ptr ≠ (found c h need i e f).2 := by
  obtain ⟨hcount, hinside, hle, hfree, hfirst⟩ := hf
  subst hcount
  obtain ⟨hi, -⟩ := List.getElem?_eq_some_iff.mp ha
  have hok := hinv.wf.ok ha
  obtain ⟨hfill, hhint⟩ := Area.place_spec hneed hle hfree
  have hs : e + 1 - f + 0 < a.numBlocks := by omega
  have hin : e + 1 ≤ a.numBlocks := hinside
  have hok' := hfill.ok hok hin (.inl rfl) hfree
  have hareas : (found c h f i e f).1.areas = h.areas.set i (a.place e f) := modify_eq_set ha
  have hout : (found c h f i e f).2 = a.ptrFromBlock c (e + 1 - f) := by
    simp only [found, ha, Area.ptrFromBlock, Nat.add_comm]
  have hsame := hfill.same
  refine ⟨hinv.edit ha hareas hok' hsame (fun b hb hlt => ?_) ?_ (fun hlt => ?_) (fun j hj hji b hb => ?_), ?_, fun ptr r n hp => ⟨?_, ?_⟩⟩
  · rw [hsame.numBlocks] at hb
    rw [hhint] at hlt
    by_cases h1 : f = 1
    · subst h1
      rw [if_pos rfl] at hlt
      rw [hfill.kind]
      by_cases hbe : b = e
      · rw [hbe, if_pos (by omega), if_pos (by omega)]
        decide
      · rw [if_neg (by omega)]
        exact hfirst rfl b (by omega)
    · rw [if_neg h1] at hlt
      exact hfill.use (by decide) (hinv.hint a (List.mem_of_getElem? ha) b hb hlt)
  · by_cases h1 : f = 1
    · simpa only [found, h1, if_true] using hi
    · simpa only [found, h1, if_false] using hinv.last
  · by_cases h1 : f = 1
    · simp only [found, h1, if_true] at hlt
      exact absurd hlt (Nat.lt_irrefl _)
    · simp only [found, h1, if_false] at hlt
      intro b hb
      exact hfill.use (by decide) (hinv.full i hlt a ha b (hsame.numBlocks ▸ hb))
  · by_cases h1 : f = 1
    · simp only [found, h1, if_true] at hj
      exact hfull h1 j hj b hb
    · simp only [found, h1, if_false] at hj
      exact hinv.full j hj b hb
  · obtain ⟨hk, hch⟩ := hfill.new hok (by omega) hin hfree
    rw [show e + 1 - (e + 1 - f) = f by omega] at hch
    have hget : (h.areas.set i (a.place e f))[i]? = some (a.place e f) := List.getElem?_set_self hi
    refine ⟨(i, e + 1 - f), ?_⟩
    rw [hareas, hout]
    refine (allocated_iff hget).mpr ⟨by rw [hsame.numBlocks]; exact hs, ?_, hk, hch⟩
    rw [Area.ptrFromBlock, Area.ptrFromBlock, hsame.poolStart]
  · rw [hareas]
    exact hp.edit ha hsame fun _ hk hch => hfill.chain hfree hk hch (.inl rfl)
  · rw [hout]
    rintro rfl
    have haddr : AddressOf c h.areas (i, e + 1 - f) (a.ptrFromBlock c (e + 1 - f)) := ⟨a, ha, hs, rfl⟩
    obtain rfl := hp.address.unique hinv.wf haddr
    have hk := hp.head
    rw [kindAt_eq ha, hfree _ (Nat.le_refl _) (by omega)] at hk
    exact absurd hk (by decide)

theorem Allocated.ne_zero (hinv : Inv c h) (hp : Allocated c h.areas ptr r n) : ptr ≠ 0 := by
  obtain ⟨a, ha, -, rfl⟩ := hp.address
  have := (hinv.pool a (List.mem_of_getElem? ha)).1
  rw [Area.ptrFromBlock]
  omega

/-- The blocks that so many bytes take. -/
def blocksNeeded (c : Config) (nBytes : Nat) : Nat := (nBytes + (c.bytesPerBlock - 1)) / c.bytesPerBlock

/-- gc_alloc collects: the heap's threshold is reached, or nothing is found. -/
def allocCollects (c : Config) (h : Heap) (nBytes : Nat) : Prop :=
  blocksFor c nBytes ≠ 0 ∧ h.lockDepth = 0 ∧ h.autoCollectEnabled = true ∧
    (h.allocAmount ≥ h.allocThreshold ∨ (search h (blocksFor c nBytes)).1 = none)

theorem le_blocksNeeded (nBytes : Nat) : nBytes ≤ blocksNeeded c nBytes * c.bytesPerBlock := by
  have hpos : 0 < c.bytesPerBlock := Config.bytesPerBlock_pos
  have hmod := Nat.div_add_mod (nBytes + (c.bytesPerBlock - 1)) c.bytesPerBlock
  have hlt := Nat.mod_lt (nBytes + (c.bytesPerBlock - 1)) hpos
  rw [blocksNeeded, Nat.mul_comm]
  omega

theorem blocksFor_eq {nBytes : Nat} (h : nBytes + (c.bytesPerBlock - 1) < 2 ^ (8 * c.wordBytes)) : blocksFor c nBytes = blocksNeeded c nBytes := by
  rw [blocksFor, Config.size, Nat.mod_eq_of_lt h, blocksNeeded]

/-- The sum wraps. -/
theorem blocksFor_wraps {nBytes : Nat} (hsize : nBytes < 2 ^ (8 * c.wordBytes)) (h : 2 ^ (8 * c.wordBytes) ≤ nBytes + (c.bytesPerBlock - 1)) :
    blocksFor c nBytes = 0 := by
  have hpos : 0 < c.bytesPerBlock := Config.bytesPerBlock_pos
  have hword : 2 ≤ 8 * c.wordBytes := by
    have := Config.wordBytes_pos (c := c)
    omega
  have hle : c.bytesPerBlock ≤ 2 ^ (8 * c.wordBytes) := by
    have hlog : c.logWord < 2 ^ c.logWord := Nat.lt_two_pow_self
    rw [Config.bytesPerBlock, Config.wordBytes, show (4 : Nat) = 2 ^ 2 from rfl, ← Nat.pow_add]
    exact Nat.pow_le_pow_right (by decide) (by omega)
  have hmod : (nBytes + (c.bytesPerBlock - 1)) % 2 ^ (8 * c.wordBytes) = nBytes + (c.bytesPerBlock - 1) - 2 ^ (8 * c.wordBytes) := by
    rw [Nat.mod_eq_sub_mod h, Nat.mod_eq_of_lt (by omega)]
  rw [blocksFor, Config.size, hmod]
  exact Nat.div_eq_of_lt (by omega)

theorem no_room_of_wraps {nBytes : Nat} (hinv : Inv c h) (ha : a ∈ h.areas) (hw : 2 ^ (8 * c.wordBytes) ≤ nBytes + (c.bytesPerBlock - 1)) :
    ¬ a.Room (blocksNeeded c nBytes) := by
  rintro ⟨s, hs, -⟩
  obtain ⟨hstart, hend⟩ := hinv.pool a ha
  have hok := hinv.wf.area a ha
  have hpool := hok.pool
  have halign : c.bytesPerBlock ≤ a.poolStart := Nat.le_of_dvd hstart (Nat.dvd_of_mod_eq_zero hok.aligned)
  have hle := Nat.mul_le_mul_right c.bytesPerBlock (Nat.le_trans (Nat.le_add_left _ s) hs)
  have hneed := le_blocksNeeded (c := c) nBytes
  omega

/-- What gc_alloc leaves, and the address it gives. -/
structure AllocSpec (c : Config) (env : Env) (h : Heap) (nBytes : Nat) (collects : Prop) (h' : Heap) (out : Nat) : Prop where
  inv : Inv c h'
  keeps : ∀ ptr r n, Allocated c h.areas ptr r n → (collects → Live c env h.areas r) → Allocated c h'.areas ptr r n ∧ ptr ≠ out
  new : out ≠ 0 → ∃ r n, Allocated c h'.areas out r n ∧ nBytes ≤ n * c.bytesPerBlock
  none : out = 0 → 0 < nBytes → h.lockDepth = 0 → ∀ a ∈ h'.areas, ¬ a.Room (blocksNeeded c nBytes)
  still : out = 0 → ¬ collects → List.Forall₂ Rehinted h.areas h'.areas
  collected : out = 0 → collects → ∃ h₀ h₁, List.Forall₂ Rehinted h.areas h₀.areas ∧ gcCollect c env h₀ = some h₁ ∧ List.Forall₂ Rehinted h₁.areas h'.areas

variable (env) in
/-- A search, and what is found is taken: the second turn of the loop, or the only one. -/
theorem take_spec (hinv : Inv c h) {nBytes : Nat} (hpos : 0 < blocksFor c nBytes) (hneed : blocksFor c nBytes = blocksNeeded c nBytes) {h₁ : Heap} {found? : Option (Nat × Nat × Nat)}
    (hs : search h (blocksFor c nBytes) = (found?, h₁)) :
    AllocSpec c env h nBytes False (match found? with | some (i, e, f) => found c h₁ (blocksFor c nBytes) i e f | none => (h₁, 0)).1
      (match found? with | some (i, e, f) => found c h₁ (blocksFor c nBytes) i e f | none => (h₁, 0)).2 := by
  obtain ⟨areas, hheap, hre, hinv₁, hnone, hsome⟩ := search_spec hpos hinv
  rw [hs] at hheap hnone hsome
  simp only at hheap hnone hsome
  rw [← hheap] at hinv₁
  have hareas : h₁.areas = areas := by rw [hheap]
  rw [← hareas] at hnone hsome hre
  cases found? with
  | none =>
    refine ⟨hinv₁, fun ptr r n hp _ => ⟨rehinted_allocated hre hp, hp.ne_zero hinv⟩, fun h0 => absurd rfl h0, fun _ _ _ a ha => ?_, fun _ _ => hre,
      fun _ => False.elim⟩
    rw [← hneed]
    exact hnone rfl a ha
  | some x =>
    obtain ⟨i, e, f⟩ := x
    obtain ⟨a, ha, hf, hfull⟩ := hsome i e f rfl
    obtain ⟨h1, ⟨r, h2⟩, h3⟩ := found_spec hpos hinv₁ ha hf hfull
    have hne := h2.ne_zero h1
    refine ⟨h1, fun ptr r n hp _ => h3 ptr r n (rehinted_allocated hre hp), fun _ => ⟨r, _, h2, ?_⟩, fun h0 => absurd h0 hne, fun h0 => absurd h0 hne,
      fun _ => False.elim⟩
    rw [hneed]
    exact le_blocksNeeded nBytes

theorem AllocSpec.after_collect {h₀ h₁ h' : Heap} {out nBytes : Nat} (hre : List.Forall₂ Rehinted h.areas h₀.areas) (hlock : h₁.lockDepth = h.lockDepth)
    (hrun : gcCollect c env h₀ = some h₁) (hcol : ∀ ptr r n, Allocated c h₀.areas ptr r n → Live c env h₀.areas r → Allocated c h₁.areas ptr r n)
    (hs : AllocSpec c env h₁ nBytes False h' out) : AllocSpec c env h nBytes True h' out := by
  refine ⟨hs.inv, fun ptr r n hp hl => ?_, hs.new, fun h0 hn hl => hs.none h0 hn (hlock.trans hl), fun _ hno => absurd trivial hno,
    fun h0 _ => ⟨h₀, h₁, hre, hrun, hs.still h0 not_false⟩⟩
  exact hs.keeps ptr r n (hcol ptr r n (rehinted_allocated hre hp) ((hl trivial).rehinted hre)) False.elim

theorem AllocSpec.congr {h' : Heap} {out nBytes : Nat} {p q : Prop} (hs : AllocSpec c env h nBytes p h' out) (hpq : p ↔ q) : AllocSpec c env h nBytes q h' out :=
  propext hpq ▸ hs

theorem gcAlloc_spec (env : Env) (hinv : Inv c h) {nBytes : Nat} (hsize : nBytes < 2 ^ (8 * c.wordBytes)) :
    ∃ h' out, gcAlloc c env h nBytes = some (h', out) ∧ AllocSpec c env h nBytes (allocCollects c h nBytes) h' out := by
  -- nothing happens
  have hsame : ¬ allocCollects c h nBytes → (0 < nBytes → h.lockDepth = 0 → ∀ a ∈ h.areas, ¬ a.Room (blocksNeeded c nBytes)) →
      AllocSpec c env h nBytes (allocCollects c h nBytes) h 0 :=
    fun hcol hno => ⟨hinv, fun ptr r n hp _ => ⟨hp, hp.ne_zero hinv⟩, fun h0 => absurd rfl h0, fun _ => hno,
      fun _ _ => List.forall₂_same.mpr fun a _ => .refl a, fun _ h => absurd h hcol⟩
  rw [gcAlloc]
  by_cases hblocks : blocksFor c nBytes = 0
  · rw [if_pos hblocks]
    refine ⟨h, 0, rfl, hsame (fun hc => hc.1 hblocks) fun hn _ a ha => ?_⟩
    rcases Nat.lt_or_ge (nBytes + (c.bytesPerBlock - 1)) (2 ^ (8 * c.wordBytes)) with hlt | hge
    · have hle := le_blocksNeeded (c := c) nBytes
      rw [← blocksFor_eq hlt, hblocks, Nat.zero_mul] at hle
      omega
    · exact no_room_of_wraps hinv ha hge
  have hpos : 0 < blocksFor c nBytes := Nat.pos_of_ne_zero hblocks
  have hneed : blocksFor c nBytes = blocksNeeded c nBytes := by
    rcases Nat.lt_or_ge (nBytes + (c.bytesPerBlock - 1)) (2 ^ (8 * c.wordBytes)) with hlt | hge
    · exact blocksFor_eq hlt
    · exact absurd (blocksFor_wraps hsize hge) hblocks
  simp only [if_neg hblocks]
  by_cases hlocked : h.lockDepth > 0
  · rw [if_pos hlocked]
    exact ⟨h, 0, rfl, hsame (fun hc => Nat.ne_of_gt hlocked hc.2.1) fun _ hl => absurd hl (Nat.ne_of_gt hlocked)⟩
  rw [if_neg hlocked]
  have hunlocked : h.lockDepth = 0 := Nat.eq_zero_of_not_pos hlocked
  by_cases hthreshold : h.autoCollectEnabled = true ∧ h.allocAmount ≥ h.allocThreshold
  · rw [if_pos hthreshold]
    obtain ⟨h₁, hrun, hinv₁, hlock, -, hcol⟩ := gcCollect_spec env hinv
    rw [hrun]
    obtain ⟨⟨found?, h₂⟩, hs⟩ : ∃ x, search h₁ (blocksFor c nBytes) = x := ⟨_, rfl⟩
    have hspec := (take_spec env hinv₁ hpos hneed hs).after_collect (List.forall₂_same.mpr fun a _ => .refl a) hlock hrun hcol
    refine ⟨_, _, ?_, hspec.congr (iff_of_true trivial ⟨hblocks, hunlocked, hthreshold.1, .inl hthreshold.2⟩)⟩
    show gcAllocTurn c env h₁ (blocksFor c nBytes) true = _
    rw [gcAllocTurn, hs]
    cases found? <;> rfl
  · rw [if_neg hthreshold, gcAllocTurn]
    obtain ⟨⟨found?, h₂⟩, hs⟩ : ∃ x, search h (blocksFor c nBytes) = x := ⟨_, rfl⟩
    rw [hs]
    have htake := take_spec env hinv hpos hneed hs
    cases hf : found? with
    | some x =>
      rw [hf] at htake hs
      refine ⟨_, _, rfl, htake.congr (iff_of_false not_false fun hc => ?_)⟩
      rcases hc.2.2.2 with hge | hnone
      · exact hthreshold ⟨hc.2.2.1, hge⟩
      · rw [hs] at hnone
        exact absurd hnone (by simp)
    | none =>
      rw [hf] at htake hs
      cases hauto : h.autoCollectEnabled with
      | false => exact ⟨_, _, rfl, htake.congr (iff_of_false not_false fun hc => absurd (hauto.symm.trans hc.2.2.1) (by decide))⟩
      | true =>
        -- a collection, and a second search
        obtain ⟨areas, hheap, hre, hinv₂, -⟩ := search_spec hpos hinv
        rw [hs] at hheap
        simp only at hheap
        rw [← hheap] at hinv₂
        have hareas : h₂.areas = areas := by rw [hheap]
        have hlock₂ : h₂.lockDepth = h.lockDepth := by rw [hheap]
        obtain ⟨h₁, hrun, hinv₁, hlock, -, hcol⟩ := gcCollect_spec env hinv₂
        obtain ⟨⟨found?, h₃⟩, hs'⟩ : ∃ x, search h₁ (blocksFor c nBytes) = x := ⟨_, rfl⟩
        have hspec := (take_spec env hinv₁ hpos hneed hs').after_collect (hareas ▸ hre) (hlock.trans hlock₂) hrun hcol
        refine ⟨_, _, ?_, hspec.congr (iff_of_true trivial ⟨hblocks, hunlocked, hauto, .inr (by rw [hs])⟩)⟩
        simp only [Bool.not_true, if_neg (by decide : ¬ (false = true)), hrun]
        show gcAllocTurn c env h₁ (blocksFor c nBytes) true = _
        rw [gcAllocTurn, hs']
        cases found? <;> rfl

/-! ## gc_free -/

theorem lowerHint_rehinted (a : Area) (block : Nat) : Rehinted a (a.lowerHint block) := by
  rw [Area.lowerHint]
  by_cases hlow : block / 4 < a.lastFreeAtbIndex
  · rw [if_pos hlow]
    rfl
  · rw [if_neg hlow]
    rfl

theorem lowerHint_hint (a : Area) (block : Nat) :
    (a.lowerHint block).lastFreeAtbIndex = a.lastFreeAtbIndex ∧ a.lastFreeAtbIndex ≤ block / 4 ∨
      (a.lowerHint block).lastFreeAtbIndex = block / 4 ∧ block / 4 < a.lastFreeAtbIndex := by
  rw [Area.lowerHint]
  by_cases hlow : block / 4 < a.lastFreeAtbIndex
  · rw [if_pos hlow]
    exact .inr ⟨rfl, hlow⟩
  · rw [if_neg hlow]
    exact .inl ⟨rfl, Nat.le_of_not_lt hlow⟩

theorem Rehinted.chain (h : Rehinted a a') (b : Nat) : a'.chain b = a.chain b := by
  have htail : ∀ b, a'.getKind b = .tail ↔ a.getKind b = .tail := fun b => by rw [h.kind]
  rw [Area.chain, Area.chain, h.same.numBlocks, Area.tails_congr htail]

theorem lowerHints_areas {h : Heap} {block : Nat} (ha : h.areas[i]? = some a) :
    (h.lowerHints i block).areas = h.areas.set i (a.lowerHint block) :=
  modify_eq_set ha

/-- The blocks from `s` to `t` become free, and the hints are lowered to `s`. -/
theorem Inv.clear {s t : Nat} (hinv : Inv c h) (ha : h.areas[i]? = some a) (hcl : Area.Cleared a a' s t) (hst : s ≤ t) (hend : a.getKind t ≠ .tail)
    (hhint : a'.lastFreeAtbIndex = a.lastFreeAtbIndex ∧ a.lastFreeAtbIndex ≤ s / 4 ∨ a'.lastFreeAtbIndex = s / 4 ∧ s / 4 < a.lastFreeAtbIndex)
    (hareas : h'.areas = h.areas.set i a') (hlast : h'.lastFreeArea = if h.lastFreeArea ≠ i then 0 else h.lastFreeArea) : Inv c h' := by
  refine hinv.edit ha hareas (hcl.ok (hinv.wf.ok ha) hst hend) hcl.same (fun b hb hlt => ?_) ?_ (fun hlt => ?_) (fun j hj hji b hb => ?_)
  · rw [hcl.kind, if_neg (by omega)]
    exact hinv.hint a (List.mem_of_getElem? ha) b (hcl.same.numBlocks ▸ hb) (by omega)
  · have := hinv.last
    rw [hlast]
    by_cases hi : h.lastFreeArea = i
    · rw [if_neg (not_not_intro hi)]
      exact this
    · rw [if_pos hi]
      exact Nat.zero_lt_of_lt this
  · rw [hlast] at hlt
    by_cases hi : h.lastFreeArea = i
    · rw [if_neg (not_not_intro hi), hi] at hlt
      exact absurd hlt (Nat.lt_irrefl _)
    · rw [if_pos hi] at hlt
      exact absurd hlt (Nat.not_lt_zero _)
  · rw [hlast] at hj
    by_cases hi : h.lastFreeArea = i
    · rw [if_neg (not_not_intro hi)] at hj
      exact hinv.full j hj b hb
    · rw [if_pos hi] at hj
      exact absurd hj (Nat.not_lt_zero _)

theorem gcGetPtrArea_eq (hwf : WellFormed c h.areas) (ha : h.areas[i]? = some a) (hp : AddressOf c h.areas r ptr) (hr : r.1 = i) :
    gcGetPtrArea c h.areas ptr = some i ∧ a.blockFromPtr c ptr = r.2 := by
  have ht := (target_iff hwf).mpr hp
  rw [target] at ht
  obtain ⟨j, hj, ht⟩ := Option.bind_eq_some_iff.mp ht
  obtain ⟨a', ha', ht⟩ := Option.bind_eq_some_iff.mp ht
  obtain rfl := Option.some.inj ht
  obtain rfl : j = i := hr
  obtain rfl := Option.some.inj (ha.symm.trans ha')
  exact ⟨hj, rfl⟩

theorem allocated_of_head (hwf : WellFormed c h.areas) (hj : gcGetPtrArea c h.areas ptr = some i) (ha : h.areas[i]? = some a)
    (hk : a.getKind (a.blockFromPtr c ptr) = .head) : Allocated c h.areas ptr (i, a.blockFromPtr c ptr) (a.chain (a.blockFromPtr c ptr)) := by
  have ht : target c h.areas ptr = some (i, a.blockFromPtr c ptr) := by
    rw [target, hj]
    show (h.areas[i]?).bind _ = _
    rw [ha]
    rfl
  have haddr := (target_iff hwf).mp ht
  obtain ⟨a', ha', hb, hp⟩ := haddr
  obtain rfl := Option.some.inj (ha.symm.trans ha')
  exact (allocated_iff ha).mpr ⟨hb, hp, hk, (Area.chain_spec (hwf.ok ha).gap hb).1⟩

theorem gcFree_spec (hinv : Inv c h) (hrun : gcFree c h ptr = some h') :
    Inv c h' ∧ h'.lockDepth = h.lockDepth ∧ ∀ ptr' r n, ptr' ≠ ptr → Allocated c h.areas ptr' r n → Allocated c h'.areas ptr' r n := by
  rw [gcFree] at hrun
  by_cases hlock : h.lockDepth ≠ 0
  · rw [if_pos hlock] at hrun
    obtain rfl := Option.some.inj hrun
    exact ⟨hinv, rfl, fun _ _ _ _ hp => hp⟩
  rw [if_neg hlock] at hrun
  by_cases hnull : ptr = 0
  · rw [if_pos hnull] at hrun
    obtain rfl := Option.some.inj hrun
    exact ⟨hinv, rfl, fun _ _ _ _ hp => hp⟩
  rw [if_neg hnull] at hrun
  obtain ⟨i, hi, hrun⟩ := Option.bind_eq_some_iff.mp hrun
  obtain ⟨a, ha, hrun⟩ := Option.bind_eq_some_iff.mp hrun
  obtain ⟨hlt, -⟩ := List.getElem?_eq_some_iff.mp ha
  by_cases hk : a.getKind (a.blockFromPtr c ptr) = .head
  · rw [if_pos hk] at hrun
    obtain rfl := Option.some.inj hrun
    have hp := allocated_of_head hinv.wf hi ha hk
    obtain ⟨-, -, -, hch⟩ := (allocated_iff ha).mp hp
    obtain ⟨block, hblock⟩ : ∃ block, block = a.blockFromPtr c ptr := ⟨_, rfl⟩
    rw [← hblock] at hk hp hch ⊢
    obtain ⟨hcl, hhint⟩ := Area.freeBlocks_spec (a.lowerHint block) block (a.chain block)
    have hareas : ((h.lowerHints i block).areas.modify i fun a => freeBlocks a block (a.chain block)) =
        h.areas.set i (freeBlocks (a.lowerHint block) block (a.chain block)) := by
      have hget : (h.areas.set i (a.lowerHint block))[i]? =
          some (a.lowerHint block) := List.getElem?_set_self hlt
      rw [lowerHints_areas ha, modify_eq_set hget, List.set_set, (lowerHint_rehinted a block).chain]
    have hre := lowerHint_rehinted a block
    have hcl' : Area.Cleared a (freeBlocks (a.lowerHint block) block (a.chain block)) block
        (block + a.chain block) := by
      refine ⟨hre.same.trans hcl.same, fun b => by rw [hcl.kind, hre.kind], ?_⟩
      rw [hcl.used, hre]
    refine ⟨hinv.clear ha hcl' (Nat.le_add_right _ _) hch.stop ?_ hareas rfl, rfl, fun ptr' r n hne hp' => ?_⟩
    · rw [hhint]
      exact lowerHint_hint a block
    · show Allocated c ((h.lowerHints i block).areas.modify i fun a => freeBlocks a block (a.chain block)) ptr' r n
      rw [hareas]
      refine hp'.edit ha hcl'.same fun hr hk' hch' => hcl'.chain hk' hch' ?_
      have hblocks : r.2 ≠ block := by
        intro e
        obtain rfl : r = (i, block) := Prod.ext hr e
        obtain ⟨_, ha₁, -, h1⟩ := hp.address
        obtain ⟨_, ha₂, -, h2⟩ := hp'.address
        obtain rfl := Option.some.inj (ha₁.symm.trans ha₂)
        exact hne (h2.trans h1.symm)
      rcases hch'.disjoint hch hk' hk hblocks with hle | hle
      · exact .inl hle
      · exact .inr hle
  · rw [if_neg hk] at hrun
    exact absurd hrun (by simp)

theorem gcFree_some (hinv : Inv c h) (hp : ptr = 0 ∨ ∃ r n, Allocated c h.areas ptr r n) : ∃ h', gcFree c h ptr = some h' := by
  rw [gcFree]
  by_cases hlock : h.lockDepth ≠ 0
  · exact ⟨h, if_pos hlock⟩
  rw [if_neg hlock]
  by_cases hnull : ptr = 0
  · exact ⟨h, if_pos hnull⟩
  rw [if_neg hnull]
  obtain ⟨r, n, hp⟩ := hp.resolve_left hnull
  obtain ⟨a, ha, -⟩ := id hp.address
  obtain ⟨-, -, hk, -⟩ := (allocated_iff ha).mp hp
  obtain ⟨hi, hb⟩ := gcGetPtrArea_eq hinv.wf ha hp.address rfl
  rw [hi]
  show ∃ h', (h.areas[r.1]?).bind _ = some h'
  rw [ha]
  show ∃ h', (if a.getKind (a.blockFromPtr c ptr) = .head then _ else _) = some h'
  rw [hb, if_pos hk]
  exact ⟨_, rfl⟩

/-! ## gc_realloc -/

/-- What the part of gc_realloc that leaves the chain in its place finds. -/
theorem reallocInPlace_eq (hinv : Inv c h) (hp : Allocated c h.areas ptr r n) (ha : h.areas[r.1]? = some a) (nBytes : Nat) :
    ∃ nFree, r.2 + n + nFree ≤ a.numBlocks ∧ (∀ b, r.2 + n ≤ b → b < r.2 + n + nFree → a.getKind b = .free) ∧
      reallocInPlace c h ptr nBytes =
        if blocksFor c nBytes = n then some (some h)
        else if blocksFor c nBytes < n then
          some (some (({ h with areas := h.areas.set r.1 (freeBlocks a (r.2 + blocksFor c nBytes) (n - blocksFor c nBytes)) } : Heap).lowerHints r.1
            (r.2 + blocksFor c nBytes)))
        else if blocksFor c nBytes ≤ n + nFree then
          some (some { h with areas := h.areas.set r.1 { (List.range' (r.2 + n) (blocksFor c nBytes - n)).foldl Area.freeToTail a with
            lastUsedBlock := max a.lastUsedBlock (r.2 + blocksFor c nBytes) } })
        else some none := by
  obtain ⟨hb, hpt, hk, hch⟩ := (allocated_iff ha).mp hp
  have hok := hinv.wf.ok ha
  have hin := hch.inside hok hb
  have hpos := hch.pos
  obtain ⟨nFree, hcount, hle, hfree⟩ := Area.countBlocks_spec (blocksFor c nBytes) 1 0 (m := a.numBlocks - (r.2 + 1)) hok hch (by omega)
    (by omega) hpos hin (fun h0 => absurd h0 (Nat.lt_irrefl 0)) fun b h1 h2 => by omega
  rw [Nat.add_zero] at hcount
  refine ⟨nFree, hle, hfree, ?_⟩
  obtain ⟨hi, hblock⟩ := gcGetPtrArea_eq hinv.wf ha hp.address rfl
  rw [reallocInPlace, hi]
  show (h.areas[r.1]?).bind _ = _
  rw [ha]
  show (if a.getKind (a.blockFromPtr c ptr) ≠ .head then none else _) = _
  rw [hblock, if_neg (not_not_intro hk), hcount]
  simp only [modify_eq_set ha]
  by_cases h1 : blocksFor c nBytes = n
  · rw [if_pos h1, if_pos h1]
  rw [if_neg h1, if_neg h1]
  by_cases h2 : blocksFor c nBytes < n
  · rw [if_pos h2, if_pos h2]
  rw [if_neg h2, if_neg h2]
  by_cases h3 : blocksFor c nBytes ≤ n + nFree
  · have hgrow := Area.growTail_spec (a := a) (s := r.2 + n) (m := blocksFor c nBytes - n) fun b h1 h2 => hfree b h1 (by omega)
    obtain ⟨-, -, hused, -⟩ := Area.freeToTail_fold (a := a) (s := r.2 + n) (m := blocksFor c nBytes - n) fun b h1 h2 => hfree b h1 (by omega)
    rw [if_pos h3, if_pos h3, hgrow]
    show some (some _) = _
    rw [hused]
  · rw [if_neg h3, if_neg h3]

/-- The chain keeps its place: it is as long as asked for, unless the number of blocks has wrapped. -/
theorem reallocInPlace_spec (hinv : Inv c h) (hp : Allocated c h.areas ptr r n) {nBytes : Nat} (hrun : reallocInPlace c h ptr nBytes = some (some h')) :
    Inv c h' ∧ h'.lockDepth = h.lockDepth ∧ (∀ ptr' r' m, ptr' ≠ ptr → Allocated c h.areas ptr' r' m → Allocated c h'.areas ptr' r' m) ∧
      (0 < blocksFor c nBytes → Allocated c h'.areas ptr r (blocksFor c nBytes)) := by
  obtain ⟨a, ha, -⟩ := id hp.address
  obtain ⟨hb, hpt, hk, hch⟩ := (allocated_iff ha).mp hp
  obtain ⟨hlt, -⟩ := List.getElem?_eq_some_iff.mp ha
  have hok := hinv.wf.ok ha
  have hin := hch.inside hok hb
  have hpos := hch.pos
  obtain ⟨nFree, hle, hfree, heq⟩ := reallocInPlace_eq hinv hp ha nBytes
  have hblocks : ∀ {ptr' r' m}, ptr' ≠ ptr → Allocated c h.areas ptr' r' m → r'.1 = r.1 → r'.2 ≠ r.2 := by
    intro ptr' r' m hne hp' h1 h2
    obtain rfl : r' = r := Prod.ext h1 h2
    exact hne (hp'.address.ptr_unique hp.address)
  rw [heq] at hrun
  generalize blocksFor c nBytes = new at hrun ⊢
  by_cases h1 : new = n
  · rw [if_pos h1] at hrun
    obtain rfl := Option.some.inj (Option.some.inj hrun)
    exact ⟨hinv, rfl, fun _ _ _ _ hp' => hp', fun _ => h1 ▸ hp⟩
  rw [if_neg h1] at hrun
  by_cases h2 : new < n
  · -- shrink
    rw [if_pos h2] at hrun
    obtain rfl := Option.some.inj (Option.some.inj hrun)
    obtain ⟨hcl, hhint⟩ := Area.freeBlocks_spec a (r.2 + new) (n - new)
    rw [show r.2 + new + (n - new) = r.2 + n by omega] at hcl
    have hget : (h.areas.set r.1 (freeBlocks a (r.2 + new) (n - new)))[r.1]? = some (freeBlocks a (r.2 + new) (n - new)) := List.getElem?_set_self hlt
    have hareas : (({ h with areas := h.areas.set r.1 (freeBlocks a (r.2 + new) (n - new)) } : Heap).lowerHints r.1 (r.2 + new)).areas =
        h.areas.set r.1 ((freeBlocks a (r.2 + new) (n - new)).lowerHint (r.2 + new)) := by
      rw [lowerHints_areas hget, List.set_set]
    have hre := lowerHint_rehinted (freeBlocks a (r.2 + new) (n - new)) (r.2 + new)
    have hcl' : Area.Cleared a ((freeBlocks a (r.2 + new) (n - new)).lowerHint (r.2 + new)) (r.2 + new) (r.2 + n) := by
      refine ⟨hcl.same.trans hre.same, fun b => by rw [hre.kind, hcl.kind], ?_⟩
      rw [hre]
      exact hcl.used
    refine ⟨hinv.clear ha hcl' (by omega) hch.stop ?_ hareas rfl, rfl, fun ptr' r' m hne hp' => ?_, fun hnew => ?_⟩
    · rw [← hhint]
      exact lowerHint_hint _ _
    · rw [hareas]
      refine hp'.edit ha hcl'.same fun hr hk' hch' => hcl'.chain hk' hch' ?_
      rcases hch'.disjoint hch hk' hk (hblocks hne hp' hr) with hle | hle <;> omega
    · rw [hareas]
      have hshort := hcl'.shorter hk hch (by omega) (by omega) rfl
      rw [Nat.add_sub_cancel_left] at hshort
      exact hp.resize ha hcl'.same hshort
  rw [if_neg h2] at hrun
  by_cases h3 : new ≤ n + nFree
  · -- grow
    rw [if_pos h3] at hrun
    obtain rfl := Option.some.inj (Option.some.inj hrun)
    obtain ⟨hsame, hhint, -, hkind⟩ := Area.freeToTail_fold (a := a) (s := r.2 + n) (m := new - n) fun b h1 h2 => hfree b h1 (by omega)
    rw [show r.2 + n + (new - n) = r.2 + new by omega] at hkind
    obtain ⟨a', ha'⟩ : ∃ a' : Area, a' = { (List.range' (r.2 + n) (new - n)).foldl Area.freeToTail a with
        lastUsedBlock := max a.lastUsedBlock (r.2 + new) } := ⟨_, rfl⟩
    rw [← ha']
    have hfill : Area.Filled a a' .tail (r.2 + n) (r.2 + new) := by
      rw [ha']
      refine ⟨⟨hsame.len, hsame.poolStart, hsame.poolEnd⟩, fun b => ?_, .inr rfl⟩
      rw [ite_self]
      exact hkind b
    have hfree' : ∀ b, r.2 + n ≤ b → b < r.2 + new → a.getKind b = .free := fun b h1 h2 => hfree b h1 (by omega)
    have hbefore : ∃ b, r.2 + n = b + 1 ∧ (a.getKind b = .head ∨ a.getKind b = .tail) :=
      ⟨r.2 + n - 1, by omega, hch.used hk (by omega) (by omega)⟩
    have hlong := hfill.longer hok (by omega) (by omega) hfree' hk hch rfl
    rw [Nat.add_sub_cancel_left] at hlong
    have hhint' : a'.lastFreeAtbIndex = a.lastFreeAtbIndex := by
      rw [ha']
      exact hhint
    refine ⟨hinv.edit ha rfl (hfill.ok hok (by omega) (.inr ⟨rfl, hbefore⟩) hfree') hfill.same (fun b hb hlt => ?_) hinv.last (fun hlt b hb => ?_)
      (fun j hj _ b hb => hinv.full j hj b hb), rfl, fun ptr' r' m hne hp' => ?_, fun _ => hp.resize ha hfill.same hlong⟩
    · rw [hhint'] at hlt
      exact hfill.use (by decide) (hinv.hint a (List.mem_of_getElem? ha) b (hfill.same.numBlocks ▸ hb) hlt)
    · exact hfill.use (by decide) (hinv.full r.1 hlt a ha b (hfill.same.numBlocks ▸ hb))
    · refine hp'.edit ha hfill.same fun hr hk' hch' => hfill.chain hfree' hk' hch' (.inr ?_)
      intro hend
      have hpos' := hch'.pos
      -- two chains that end at the same block are one
      rcases hch'.disjoint hch hk' hk (hblocks hne hp' hr) with hle | hle <;> omega
  · rw [if_neg h3] at hrun
    exact absurd hrun (by simp)

/-- gc_realloc collects: the chain has to move, and gc_alloc does. -/
def reallocCollects (c : Config) (h : Heap) (ptr nBytes : Nat) (allowMove : Bool) : Prop :=
  nBytes ≠ 0 ∧ h.lockDepth = 0 ∧ reallocInPlace c h ptr nBytes = some none ∧ allowMove = true ∧ allocCollects c h nBytes

/-- What gc_realloc of an allocation leaves, and the address it gives. -/
structure ReallocSpec (c : Config) (env : Env) (h : Heap) (ptr nBytes : Nat) (collects : Prop) (h' : Heap) (out : Nat) : Prop where
  inv : Inv c h'
  others : ∀ ptr' r n, ptr' ≠ ptr → Allocated c h.areas ptr' r n → (collects → Live c env h.areas r) → Allocated c h'.areas ptr' r n ∧ ptr' ≠ out
  failed : out = 0 → nBytes ≠ 0 → ∀ r n, Allocated c h.areas ptr r n → (collects → Live c env h.areas r) → Allocated c h'.areas ptr r n
  new : out ≠ 0 → nBytes + (c.bytesPerBlock - 1) < 2 ^ (8 * c.wordBytes) → ∃ r n, Allocated c h'.areas out r n ∧ nBytes ≤ n * c.bytesPerBlock

theorem gcRealloc_spec (env : Env) (hinv : Inv c h) (hp : Allocated c h.areas ptr r n) {nBytes : Nat} (hsize : nBytes < 2 ^ (8 * c.wordBytes)) (allowMove : Bool) :
    ∃ h' out, gcRealloc c env h ptr nBytes allowMove = some (h', out) ∧
      ReallocSpec c { env with roots := ptr :: env.roots } h ptr nBytes (reallocCollects c h ptr nBytes allowMove) h' out := by
  have hne := hp.ne_zero hinv
  rw [gcRealloc, if_neg hne]
  by_cases hzero : nBytes = 0
  · rw [if_pos hzero]
    obtain ⟨h', hrun⟩ := gcFree_some hinv (.inr ⟨r, n, hp⟩)
    obtain ⟨hinv', -, hothers⟩ := gcFree_spec hinv hrun
    refine ⟨h', 0, by rw [hrun]; rfl, hinv', fun ptr' r' m hne' hp' _ => ⟨hothers ptr' r' m hne' hp', hp'.ne_zero hinv⟩, fun _ hn => absurd hzero hn,
      fun h0 => absurd rfl h0⟩
  rw [if_neg hzero]
  by_cases hlock : h.lockDepth > 0
  · rw [if_pos hlock]
    exact ⟨h, 0, rfl, hinv, fun ptr' r' m _ hp' _ => ⟨hp', hp'.ne_zero hinv⟩, fun _ _ _ _ hp' _ => hp', fun h0 => absurd rfl h0⟩
  rw [if_neg hlock]
  have hunlocked : h.lockDepth = 0 := Nat.eq_zero_of_not_pos hlock
  obtain ⟨a, ha, -⟩ := id hp.address
  obtain ⟨nFree, -, -, heq⟩ := reallocInPlace_eq hinv hp ha nBytes
  obtain ⟨x, hx⟩ : ∃ x, reallocInPlace c h ptr nBytes = some x := by
    rw [heq]
    repeat' split
    all_goals exact ⟨_, rfl⟩
  rw [hx]
  cases x with
  | some h' =>
    obtain ⟨hinv', -, hothers, hself⟩ := reallocInPlace_spec hinv hp hx
    refine ⟨h', ptr, rfl, hinv', fun ptr' r' m hne' hp' _ => ⟨hothers ptr' r' m hne' hp', hne'⟩, fun h0 => absurd h0 hne, fun _ hfits => ?_⟩
    have hneed := blocksFor_eq hfits
    have hle := le_blocksNeeded (c := c) nBytes
    have hpos : 0 < blocksFor c nBytes := by
      rcases Nat.eq_zero_or_pos (blocksFor c nBytes) with h0 | h0
      · rw [← hneed, h0, Nat.zero_mul] at hle
        omega
      · exact h0
    exact ⟨r, _, hself hpos, hneed ▸ hle⟩
  | none =>
    cases allowMove with
    | false => exact ⟨h, 0, rfl, hinv, fun ptr' r' m _ hp' _ => ⟨hp', hp'.ne_zero hinv⟩, fun _ _ _ _ hp' _ => hp', fun h0 => absurd rfl h0⟩
    | true =>
      obtain ⟨h₁, out, hrun, hspec⟩ := gcAlloc_spec { env with roots := ptr :: env.roots } hinv hsize
      have hcol : allocCollects c h nBytes → reallocCollects c h ptr nBytes true := fun hc => ⟨hzero, hunlocked, hx, rfl, hc⟩
      show ∃ h' out, (gcAlloc c { env with roots := ptr :: env.roots } h nBytes).bind _ = some (h', out) ∧ _
      rw [hrun]
      show ∃ h' out', (if out = 0 then some (h₁, 0) else _) = some (h', out') ∧ _
      by_cases hout : out = 0
      · rw [if_pos hout]
        refine ⟨h₁, 0, rfl, hspec.inv, fun ptr' r' m _ hp' hl => ?_, fun _ _ r' m hp' hl => (hspec.keeps ptr r' m hp' fun hc => hl (hcol hc)).1,
          fun h0 => absurd rfl h0⟩
        have := hspec.keeps ptr' r' m hp' fun hc => hl (hcol hc)
        rwa [hout] at this
      · -- the old chain is freed, it is a root and has survived
        rw [if_neg hout]
        have hold : Live c { env with roots := ptr :: env.roots } h.areas r := .root List.mem_cons_self ⟨hp.address, hp.head⟩
        obtain ⟨hp₁, hfresh⟩ := hspec.keeps ptr r n hp fun _ => hold
        obtain ⟨h₂, hfree⟩ := gcFree_some hspec.inv (.inr ⟨r, n, hp₁⟩)
        obtain ⟨hinv₂, -, hothers⟩ := gcFree_spec hspec.inv hfree
        rw [hfree]
        refine ⟨h₂, out, rfl, hinv₂, fun ptr' r' m hne' hp' hl => ?_, fun h0 => absurd h0 hout, fun _ _ => ?_⟩
        · obtain ⟨h1, h2⟩ := hspec.keeps ptr' r' m hp' fun hc => hl (hcol hc)
          exact ⟨hothers ptr' r' m hne' h1, h2⟩
        · obtain ⟨r', m, hnew, hle⟩ := hspec.new hout
          exact ⟨r', m, hothers out r' m (Ne.symm hfresh) hnew, hle⟩

end PythonUltra.Py.Gc
