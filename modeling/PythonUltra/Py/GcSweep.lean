/-
  PythonUltra.Py.GcSweep — what gc_sweep_free_blocks frees, and a collection as a whole.

  Proved (`collect_frees_unreachable_iff`): a collection ends, keeps the live allocations
  where they are and frees the others. With areas that are given back on their own, an area
  whose last block used is block 0 counts as empty, so that the only allocation of an area
  is lost when it fills no more than this block (`lone_first_block_is_lost`).

  A sweep goes through the blocks of an area in order and carries `freeTail` along: whether
  the tails that come next belong to a head it has freed. Since a tail follows a block of its
  own allocation, that is whether the block before is one of those kept (`Area.kept`).
-/

import PythonUltra.Py.GcMark

namespace PythonUltra.Py.Gc

namespace Area

variable {a a' : Area} {b block k n : Nat} {s : SweepState}

/-- The block belongs to an allocation whose head is marked. -/
def kept (a : Area) : Nat → Bool
  | 0 => a.getKind 0 = .mark
  | b + 1 =>
    match a.getKind (b + 1) with
    | .mark => true
    | .tail => a.kept b
    | _ => false

/-- What a sweep makes of a block. -/
def sweptKind (a : Area) (b : Nat) : Kind := if a.kept b then (if a.getKind b = .mark then .head else a.getKind b) else .free

/-- The block belongs to one of the allocations that start at some of the blocks. -/
def Held (a : Area) (keep : Nat → Prop) (b : Nat) : Prop := ∃ block n, keep block ∧ a.Chain block n ∧ block ≤ b ∧ b < block + n

theorem kept_mark (h : a.getKind b = .mark) : a.kept b = true := by
  cases b with
  | zero => simp [kept, h]
  | succ b => simp [kept, h]

theorem kept_not (h : a.getKind b ≠ .mark) (h' : a.getKind b ≠ .tail) : a.kept b = false := by
  cases b with
  | zero => simp [kept, h]
  | succ b => cases hk : a.getKind (b + 1) <;> simp_all [kept]

theorem kept_tail (h : a.getKind (b + 1) = .tail) : a.kept (b + 1) = a.kept b := by
  simp [kept, h]

/-- After the blocks before `k`. -/
structure Sweeping (a : Area) (k : Nat) (s : SweepState) : Prop where
  same : Same a s.area
  hint : s.area.lastFreeAtbIndex = a.lastFreeAtbIndex
  kind : ∀ b, s.area.getKind b = if b < k then a.sweptKind b else a.getKind b
  flag : ∀ b, b + 1 = k → a.getKind b ≠ .free → s.freeTail = !a.kept b
  used : ∀ b < k, a.kept b = true → b ≤ s.lastUsedBlock
  last : s.lastUsedBlock = 0 ∨ a.kept s.lastUsedBlock = true ∧ s.lastUsedBlock < k

/-- A block that is not kept is free, or becomes it. -/
theorem Sweeping.drop (h : Sweeping a k s) (hk : a.kept k = false) (area : Area) (freeTail : Bool) (hsame : Same a area)
    (hhint : area.lastFreeAtbIndex = a.lastFreeAtbIndex) (harea : ∀ b, area.getKind b = if b = k then .free else s.area.getKind b)
    (hflag : a.getKind k ≠ .free → freeTail = true) : Sweeping a (k + 1) ⟨area, freeTail, s.lastUsedBlock⟩ := by
  refine ⟨hsame, hhint, fun b => ?_, fun b hb hne => ?_, fun b hb hkept => ?_, ?_⟩
  · rw [harea]
    by_cases hbk : b = k
    · rw [if_pos hbk, if_pos (by omega), hbk, sweptKind, hk]
      rfl
    · rw [if_neg hbk, h.kind]
      simp only [show b < k + 1 ↔ b < k by omega]
  · obtain rfl : b = k := by omega
    rw [hk]
    exact hflag hne
  · have hne : b ≠ k := by
      rintro rfl
      rw [hk] at hkept
      exact absurd hkept (by decide)
    exact h.used b (Nat.lt_of_le_of_ne (Nat.le_of_lt_succ hb) hne) hkept
  · rcases h.last with h0 | ⟨hkept, hlt⟩
    · exact .inl h0
    · exact .inr ⟨hkept, Nat.lt_succ_of_lt hlt⟩

theorem Sweeping.keep (h : Sweeping a k s) (hk : a.kept k = true) (area : Area) (freeTail : Bool) (hsame : Same a area)
    (hhint : area.lastFreeAtbIndex = a.lastFreeAtbIndex) (harea : ∀ b, area.getKind b = if b = k then a.sweptKind k else s.area.getKind b)
    (hflag : freeTail = false) : Sweeping a (k + 1) ⟨area, freeTail, k⟩ := by
  refine ⟨hsame, hhint, fun b => ?_, fun b hb hne => ?_, fun b hb hkept => Nat.le_of_lt_succ hb, .inr ⟨hk, Nat.lt_succ_self k⟩⟩
  · rw [harea]
    by_cases hbk : b = k
    · rw [if_pos hbk, if_pos (by omega), hbk]
    · rw [if_neg hbk, h.kind]
      simp only [show b < k + 1 ↔ b < k by omega]
  · obtain rfl : b = k := by omega
    rw [hk]
    exact hflag

/-- One block. A tail is never the first block, and comes after a block in use. -/
theorem Sweeping.step (h : Sweeping a k s) (htail : a.getKind k = .tail → ∃ b, k = b + 1 ∧ a.getKind b ≠ .free) :
    Sweeping a (k + 1) (sweepBlock s k) := by
  have hkind : s.area.getKind k = a.getKind k := by
    rw [h.kind, if_neg (Nat.lt_irrefl k)]
  have hfree : ∀ b, (s.area.anyToFree k).getKind b = if b = k then .free else s.area.getKind b := fun b => getKind_anyToFree
  rw [sweepBlock, hkind]
  cases hk : a.getKind k with
  | free =>
    refine h.drop (kept_not (by simp [hk]) (by simp [hk])) s.area s.freeTail h.same h.hint (fun b => ?_) (fun hne => absurd hk hne)
    by_cases hb : b = k
    · rw [if_pos hb, hb, hkind, hk]
    · rw [if_neg hb]
  | head =>
    exact h.drop (kept_not (by simp [hk]) (by simp [hk])) (s.area.anyToFree k) true (h.same.trans edit_same) h.hint hfree fun _ => rfl
  | mark =>
    refine h.keep (kept_mark hk) (s.area.markToHead k) false (h.same.trans edit_same) h.hint (fun b => ?_) rfl
    rw [getKind_markToHead (hkind.trans hk), sweptKind, kept_mark hk, hk]
    rfl
  | tail =>
    obtain ⟨b, rfl, hb⟩ := htail hk
    have hflag := h.flag b rfl hb
    have hkept := kept_tail hk
    cases hft : s.freeTail with
    | true =>
      rw [hft] at hflag
      refine h.drop ?_ (s.area.anyToFree (b + 1)) true (h.same.trans edit_same) h.hint hfree fun _ => rfl
      rw [hkept]
      simpa using hflag.symm
    | false =>
      rw [hft] at hflag
      have hk' : a.kept (b + 1) = true := by
        rw [hkept]
        simpa using hflag.symm
      refine h.keep hk' s.area false h.same h.hint (fun b' => ?_) rfl
      by_cases hb' : b' = b + 1
      · rw [if_pos hb', hb', hkind, sweptKind, hk', hk]
        rfl
      · rw [if_neg hb']

theorem sweepArea_spec (freeTail : Bool) (htail : ∀ b ≤ a.lastUsedBlock, a.getKind b = .tail → ∃ b', b = b' + 1 ∧ a.getKind b' ≠ .free) :
    Sweeping a (a.lastUsedBlock + 1) (sweepArea a freeTail) := by
  have hrun : ∀ k ≤ a.lastUsedBlock + 1, Sweeping a k ((List.range k).foldl sweepBlock ⟨a, freeTail, 0⟩) := by
    intro k
    induction k with
    | zero => exact fun _ => ⟨.refl, rfl, fun b => (if_neg (Nat.not_lt_zero b)).symm, fun b hb => absurd hb (by omega), fun b hb => absurd hb (Nat.not_lt_zero b), .inl rfl⟩
    | succ k ih =>
      intro hk
      rw [List.range_succ, List.foldl_append]
      exact (ih (by omega)).step (htail k (by omega))
  exact hrun _ (Nat.le_refl _)

/-- What is kept, when the heads that are marked are those of `keep`. -/
theorem kept_iff {keep : Nat → Prop} (hb : b < a'.numBlocks) (hsame : Same a a') (hgap : a.getKind a.numBlocks = .free)
    (hmark : ∀ b < a.numBlocks, a'.getKind b = .mark ↔ keep b) (htail : ∀ b, a'.getKind b = .tail ↔ a.getKind b = .tail)
    (hkeep : ∀ b, keep b → b < a.numBlocks) : a'.kept b = true ↔ a.Held keep b := by
  rw [hsame.numBlocks] at hb
  constructor
  · intro hk
    induction b with
    | zero =>
      have hm : a'.getKind 0 = .mark := by simpa [kept] using hk
      have hch := (chain_spec hgap hb).1
      exact ⟨0, _, (hmark 0 hb).mp hm, hch, Nat.le_refl _, by have := hch.pos; omega⟩
    | succ b ih =>
      by_cases hm : a'.getKind (b + 1) = .mark
      · have hch := (chain_spec hgap hb).1
        exact ⟨b + 1, _, (hmark _ hb).mp hm, hch, Nat.le_refl _, by have := hch.pos; omega⟩
      · by_cases ht : a'.getKind (b + 1) = .tail
        · rw [kept_tail ht] at hk
          obtain ⟨block, n, hkeep, hch, h1, h2⟩ := ih (by omega) hk
          refine ⟨block, n, hkeep, hch, by omega, ?_⟩
          by_contra hge
          have hstop := hch.stop
          rw [show block + n = b + 1 by omega] at hstop
          exact hstop ((htail _).mp ht)
        · rw [kept_not hm ht] at hk
          exact absurd hk (by decide)
  · rintro ⟨block, n, hkp, hch, h1, h2⟩
    obtain ⟨d, rfl⟩ : ∃ d, b = block + d := ⟨b - block, by omega⟩
    induction d with
    | zero => exact kept_mark ((hmark block (hkeep block hkp)).mpr hkp)
    | succ d ih =>
      have ht := (htail _).mpr (hch.tail (block + (d + 1)) (by omega) h2)
      rw [show block + (d + 1) = block + d + 1 by omega] at ht ⊢
      rw [kept_tail ht]
      exact ih (by omega) (by omega) (by omega)

end Area

/-! ## The areas -/

/-- What a collection makes of an area: the blocks of the live allocations stay, the others are
free. -/
structure Swept (keep : Nat → Prop) (a a' : Area) : Prop where
  same : Area.Same a a'
  keeps : ∀ b < a.numBlocks, a.Held keep b → a'.getKind b = a.getKind b
  frees : ∀ b < a.numBlocks, ¬ a.Held keep b → a'.getKind b = .free
  gap : a'.getKind a.numBlocks = .free
  used : ∀ b < a.numBlocks, a.Held keep b → b ≤ a'.lastUsedBlock
  last : a'.lastUsedBlock = 0 ∨ a'.lastUsedBlock < a.numBlocks ∧ a.Held keep a'.lastUsedBlock

variable {c : Config} {areas₀ areas : List Area} {env : Env} {white : Finset Ref}

/-- An area that has been marked is swept. -/
theorem swept_area {i : Nat} {a₀ a : Area} (hwf : WellFormed c areas₀) (hc : Colored areas₀ white areas)
    (hwhite : ∀ r, r ∈ white ↔ r ∈ heads areas₀ ∧ ¬ Live c env areas₀ r) (ha₀ : areas₀[i]? = some a₀) (ha : areas[i]? = some a) (freeTail : Bool) :
    Swept (fun b => Live c env areas₀ (i, b)) a₀ { (sweepArea a freeTail).area with lastUsedBlock := (sweepArea a freeTail).lastUsedBlock } := by
  have hok := hwf.ok ha₀
  obtain ⟨hsame, -, hused, hkind⟩ := hc.area i a₀ a ha₀ ha
  have hlive : ∀ b, Live c env areas₀ (i, b) → b < a₀.numBlocks ∧ (i, b) ∈ heads areas₀ := by
    intro b hl
    obtain ⟨w, ⟨a₁, ha₁, hb, hw⟩, hk⟩ := hl.headAt
    obtain rfl := Option.some.inj (ha₀.symm.trans ha₁)
    exact ⟨hb, mem_heads.mpr ⟨⟨a₀, ha₀, hb⟩, hk⟩⟩
  have hmark : ∀ b < a₀.numBlocks, a.getKind b = .mark ↔ Live c env areas₀ (i, b) := by
    intro b hb
    have hk := hc.kind_mark hwf (r := (i, b)) ⟨a₀, ha₀, hb⟩
    rw [kindAt_eq ha, hwhite] at hk
    rw [hk]
    constructor
    · rintro ⟨hh, hn⟩
      by_contra hl
      exact hn ⟨hh, hl⟩
    · exact fun hl => ⟨(hlive b hl).2, fun hn => hn.2 hl⟩
  have htail : ∀ b, a.getKind b = .tail ↔ a₀.getKind b = .tail := fun b => hc.tail_iff ha₀ ha
  have hkept : ∀ b < a₀.numBlocks, (a.kept b = true ↔ a₀.Held (fun b => Live c env areas₀ (i, b)) b) := by
    intro b hb
    exact Area.kept_iff (by rw [hsame.numBlocks]; exact hb) hsame hok.gap hmark htail fun b hl => (hlive b hl).1
  -- the bits of a block that is no tail and no mark say head or free
  have hgap : a.getKind a₀.numBlocks = .free := by
    rw [hkind, if_neg, hok.gap]
    intro hm
    obtain ⟨⟨a₁, ha₁, hlt⟩, -⟩ := mem_heads.mp hm.1
    obtain rfl := Option.some.inj (ha₀.symm.trans ha₁)
    exact absurd hlt (Nat.lt_irrefl _)
  have hsweep := Area.sweepArea_spec (a := a) freeTail (by
    intro b hb ht
    have ht₀ := (htail b).mp ht
    have hlt : b < a₀.numBlocks := by
      rw [hused] at hb
      rcases Nat.lt_or_ge b a₀.numBlocks with h | h
      · exact h
      · have := hok.last
        obtain rfl : b = a₀.numBlocks := by omega
        rw [hok.gap] at ht₀
        exact absurd ht₀ (by decide)
    obtain ⟨b', rfl, hb'⟩ := hok.tail b hlt ht₀
    refine ⟨b', rfl, ?_⟩
    rw [hkind]
    by_cases hm : (i, b') ∈ heads areas₀ ∧ (i, b') ∉ white
    · rw [if_pos hm]
      decide
    · rw [if_neg hm]
      rcases hb' with h | h <;> simp [h])
  obtain ⟨s, hs⟩ : ∃ s, s = sweepArea a freeTail := ⟨_, rfl⟩
  rw [← hs] at hsweep ⊢
  -- past the last block used there is nothing to sweep
  have hfinal : ∀ b ≤ a₀.numBlocks, s.area.getKind b = a.sweptKind b := by
    intro b hb
    rw [hsweep.kind]
    by_cases hlt : b < a.lastUsedBlock + 1
    · rw [if_pos hlt]
    · have hfree : a.getKind b = .free := by
        rcases Nat.lt_or_ge b a₀.numBlocks with h | h
        · have hfree₀ : a₀.getKind b = .free := by
            by_contra hne
            have := hok.used b h hne
            omega
          rw [hkind, if_neg, hfree₀]
          intro hm
          have := (mem_heads.mp hm.1).2
          rw [kindAt_eq ha₀, hfree₀] at this
          exact absurd this (by decide)
        · obtain rfl : b = a₀.numBlocks := by omega
          exact hgap
      rw [if_neg hlt, Area.sweptKind, Area.kept_not (by simp [hfree]) (by simp [hfree]), hfree]
      rfl
  have hlast : s.lastUsedBlock = 0 ∨ s.lastUsedBlock < a₀.numBlocks ∧ a.kept s.lastUsedBlock = true := by
    rcases hsweep.last with h0 | ⟨hk, hlt⟩
    · exact .inl h0
    · refine .inr ⟨?_, hk⟩
      have := hok.last
      rcases Nat.lt_or_ge s.lastUsedBlock a₀.numBlocks with h | h
      · exact h
      · have he : s.lastUsedBlock = a₀.numBlocks := by omega
        rw [he, Area.kept_not (by simp [hgap]) (by simp [hgap])] at hk
        exact absurd hk (by decide)
  refine ⟨⟨(hsame.trans hsweep.same).len, (hsame.trans hsweep.same).poolStart, (hsame.trans hsweep.same).poolEnd⟩, ?_, ?_, ?_, ?_, ?_⟩
  · intro b hb hheld
    have hk := (hkept b hb).mpr hheld
    show s.area.getKind b = _
    rw [hfinal b (Nat.le_of_lt hb), Area.sweptKind, if_pos hk]
    by_cases hm : a.getKind b = .mark
    · rw [if_pos hm]
      have := (mem_heads.mp (hlive b ((hmark b hb).mp hm)).2).2
      rw [kindAt_eq ha₀] at this
      exact this.symm
    · rw [if_neg hm, hkind, if_neg]
      intro hcol
      rw [hkind, if_pos hcol] at hm
      exact hm rfl
  · intro b hb hheld
    have hk : a.kept b = false := by
      simpa using mt (hkept b hb).mp hheld
    show s.area.getKind b = _
    rw [hfinal b (Nat.le_of_lt hb), Area.sweptKind, hk]
    rfl
  · show s.area.getKind _ = _
    rw [hfinal _ (Nat.le_refl _), Area.sweptKind, Area.kept_not (by simp [hgap]) (by simp [hgap])]
    rfl
  · intro b hb hheld
    refine hsweep.used b ?_ ((hkept b hb).mpr hheld)
    rw [Nat.lt_succ_iff, hused]
    apply hok.used b hb
    obtain ⟨block, n, hl, hch, h1, h2⟩ := hheld
    by_cases hbb : b = block
    · have := (mem_heads.mp (hlive block hl).2).2
      rw [kindAt_eq ha₀] at this
      rw [hbb, this]
      decide
    · rw [hch.tail b (by omega) h2]
      decide
  · rcases hlast with h0 | ⟨hlt, hk⟩
    · exact .inl h0
    · exact .inr ⟨hlt, (hkept _ hlt).mp hk⟩

/-- The area of a number is given back: automatic areas, not the first, and nothing in it but
what fits in its first block. -/
def Dropped (auto : Bool) (keep : Ref → Prop) (p : Area × Nat) : Prop :=
  auto = true ∧ p.2 ≠ 0 ∧ ∀ b < p.1.numBlocks, p.1.Held (fun block => keep (p.2, block)) b → b = 0

/-- The areas from number `k` on. -/
theorem sweepAreas_spec (auto : Bool) {keep : Ref → Prop} {k : Nat} (freeTail : Bool)
    (h : List.Forall₂ (fun p a => ∀ freeTail, Swept (fun b => keep (p.2, b)) p.1
      { (sweepArea a freeTail).area with lastUsedBlock := (sweepArea a freeTail).lastUsedBlock }) (areas₀.zipIdx k) areas) :
    ∃ left : List (Area × Nat), left.Sublist (areas₀.zipIdx k) ∧ List.Forall₂ (fun p a => Swept (fun b => keep (p.2, b)) p.1 a) left
      (sweepAreas auto (k == 0) freeTail areas) ∧ ∀ p ∈ areas₀.zipIdx k, p ∈ left ↔ ¬ Dropped auto keep p := by
  induction areas₀ generalizing areas k freeTail with
  | nil =>
    cases h
    exact ⟨[], .slnil, .nil, fun p hp => absurd hp List.not_mem_nil⟩
  | cons a₀ areas₀ ih =>
    rw [List.zipIdx_cons] at h ⊢
    cases h with
    | cons hone hrest =>
      rename_i a areas
      have hs := hone freeTail
      obtain ⟨s, hdef⟩ : ∃ s, s = sweepArea a freeTail := ⟨_, rfl⟩
      obtain ⟨left, hsub, hall, hleft⟩ := ih s.freeTail hrest
      have hlater : ∀ p ∈ areas₀.zipIdx (k + 1), p ≠ (a₀, k) := by
        rintro p hp rfl
        have := List.le_snd_of_mem_zipIdx hp
        omega
      have hempty : s.lastUsedBlock = 0 ↔ ∀ b < a₀.numBlocks, a₀.Held (fun block => keep (k, block)) b → b = 0 := by
        rw [← hdef] at hs
        constructor
        · intro h0 b hb hheld
          have hle : b ≤ s.lastUsedBlock := hs.used b hb hheld
          omega
        · intro h0
          rcases hs.last with hz | ⟨hlt, hheld⟩
          · exact hz
          · exact h0 _ hlt hheld
      have hdrop : (auto = true ∧ s.lastUsedBlock = 0 ∧ ¬ (k == 0) = true) ↔ Dropped auto keep (a₀, k) := by
        rw [hempty, Dropped, beq_iff_eq]
        exact ⟨fun h => ⟨h.1, h.2.2, h.2.1⟩, fun h => ⟨h.1, h.2.2, h.2.1⟩⟩
      rw [sweepAreas, ← hdef]
      rw [show (k + 1 == 0) = false from rfl] at hall
      by_cases hd : Dropped auto keep (a₀, k)
      · rw [if_pos (hdrop.mpr hd)]
        refine ⟨left, hsub.cons _, hall, fun p hp => ?_⟩
        rcases List.mem_cons.mp hp with rfl | hp
        · exact ⟨fun hm => absurd rfl (hlater _ (hsub.subset hm)), fun hn => absurd hd hn⟩
        · exact hleft p hp
      · rw [if_neg (mt hdrop.mp hd)]
        refine ⟨(a₀, k) :: left, hsub.cons_cons _, .cons (hdef ▸ hs) hall, fun p hp => ?_⟩
        rcases List.mem_cons.mp hp with rfl | hp
        · exact ⟨fun _ => hd, fun _ => List.mem_cons_self⟩
        · rw [List.mem_cons, hleft p hp]
          exact or_iff_right (hlater p hp)

/-! ## A collection -/

/-- A collection ends, and the areas it leaves are those not given back, each swept. -/
theorem collectWith_spec (auto : Bool) (env : Env) {h : Heap} (hwf : WellFormed c h.areas) :
    ∃ (h' : Heap) (left : List (Area × Nat)), collectWith c auto env h = some h' ∧ left.Sublist h.areas.zipIdx ∧
      List.Forall₂ (fun p a => Swept (fun b => Live c env h.areas (p.2, b)) p.1 a ∧ a.lastFreeAtbIndex = 0) left h'.areas ∧
      (∀ p ∈ h.areas.zipIdx, p ∈ left ↔ ¬ Dropped auto (Live c env h.areas) p) ∧
      h' = { h with allocAmount := 0, lastFreeArea := 0, areas := h'.areas } := by
  obtain ⟨s, s', hroots, hsettle, white, hcol, hwhite⟩ := mark_spec hwf env
  have hall : List.Forall₂ (fun p a => ∀ freeTail, Swept (fun b => Live c env h.areas (p.2, b)) p.1
      { (sweepArea a freeTail).area with lastUsedBlock := (sweepArea a freeTail).lastUsedBlock }) (h.areas.zipIdx 0) s'.areas := by
    refine List.forall₂_iff_get.mpr ⟨by simpa using hcol.length.symm, fun i h1 h2 freeTail => ?_⟩
    have hi : i < h.areas.length := by simpa using h1
    simp only [List.get_eq_getElem, List.getElem_zipIdx, Nat.zero_add]
    exact swept_area hwf hcol hwhite (List.getElem?_eq_getElem hi) (List.getElem?_eq_getElem h2) freeTail
  obtain ⟨left, hsub, hswept, hleft⟩ := sweepAreas_spec auto false hall
  refine ⟨{ h with allocAmount := 0, lastFreeArea := 0, areas := (gcSweepFreeBlocks auto s'.areas).map fun a => { a with lastFreeAtbIndex := 0 } },
    left, ?_, hsub, ?_, hleft, rfl⟩
  · rw [collectWith]
    refine Option.bind_eq_some_iff.mpr ⟨s, hroots, ?_⟩
    rw [gcCollectEnd]
    exact Option.bind_eq_some_iff.mpr ⟨s', hsettle, rfl⟩
  · refine List.forall₂_map_right_iff.mpr (hswept.imp fun p a hs => ?_)
    exact ⟨⟨⟨hs.same.len, hs.same.poolStart, hs.same.poolEnd⟩, hs.keeps, hs.frees, hs.gap, hs.used, hs.last⟩, rfl⟩

/-- A collection ends; the allocations that can be reached keep their blocks, in areas that are
left, and everything else is free. -/
def CollectsExactly (c : Config) (auto : Bool) (env : Env) (h : Heap) : Prop :=
  ∃ (h' : Heap) (left : List (Area × Nat)), collectWith c auto env h = some h' ∧ left.Sublist h.areas.zipIdx ∧
    List.Forall₂ (fun p a => Swept (fun b => Live c env h.areas (p.2, b)) p.1 a) left h'.areas ∧
    ∀ p ∈ h.areas.zipIdx, (∃ b, Live c env h.areas (p.2, b)) → p ∈ left

/-- The only allocation that can be reached in an area, not the first, is one block, the first. -/
def LoneFirstBlock (c : Config) (env : Env) (areas : List Area) : Prop :=
  ∃ i a, i ≠ 0 ∧ areas[i]? = some a ∧ Live c env areas (i, 0) ∧ ∀ b < a.numBlocks, a.Held (fun block => Live c env areas (i, block)) b → b = 0

variable {auto : Bool} {h : Heap}

theorem Live.inside {i b : Nat} {a : Area} (hl : Live c env areas (i, b)) (ha : areas[i]? = some a) : b < a.numBlocks := by
  obtain ⟨w, ⟨a', ha', hb, -⟩, -⟩ := hl.headAt
  obtain rfl := Option.some.inj (ha.symm.trans ha')
  exact hb

theorem Live.held {i b : Nat} {a : Area} (hwf : WellFormed c areas) (hl : Live c env areas (i, b)) (ha : areas[i]? = some a) :
    a.Held (fun block => Live c env areas (i, block)) b := by
  obtain ⟨hch, -⟩ := Area.chain_spec (hwf.ok ha).gap (hl.inside ha)
  exact ⟨b, _, hl, hch, Nat.le_refl _, Nat.lt_add_of_pos_right hch.pos⟩

theorem forall₂_left {α β : Type} {R : α → β → Prop} {l : List α} {l' : List β} (h : List.Forall₂ R l l') {x : α} (hx : x ∈ l) : ∃ y ∈ l', R x y := by
  induction h with
  | nil => exact absurd hx List.not_mem_nil
  | cons hr _ ih =>
    rcases List.mem_cons.mp hx with rfl | hx
    · exact ⟨_, List.mem_cons_self, hr⟩
    · obtain ⟨y, hy, hxy⟩ := ih hx
      exact ⟨y, List.mem_cons_of_mem _ hy, hxy⟩

/-- Such an area is given back with what it holds. -/
theorem lone_first_block_is_lost (hwf : WellFormed c h.areas) (hlone : LoneFirstBlock c env h.areas) : ¬ CollectsExactly c true env h := by
  rintro ⟨h', left', hrun', -, hall', hleft'⟩
  obtain ⟨i, a, hi, ha, hl, honly⟩ := hlone
  obtain ⟨h'', left, hrun, hsub, hall, hleft, -⟩ := collectWith_spec true env hwf
  obtain rfl := Option.some.inj (hrun'.symm.trans hrun)
  have hmem : (a, i) ∈ h.areas.zipIdx := List.mem_zipIdx_iff_getElem?.mpr ha
  obtain ⟨a', ha', hs⟩ := forall₂_left hall' (hleft' _ hmem ⟨0, hl⟩)
  obtain ⟨p, hp, hs', -⟩ := forall₂_left hall.flip ha'
  -- the area left has the same pool, so it is the same area
  have hpi := List.mem_zipIdx_iff_getElem?.mp (hsub.subset hp)
  have hpool := contains_ptr (hwf.ok ha) (hl.inside ha)
  have hpool' : p.1.contains (a.ptrFromBlock c 0) = true := by
    rw [← hpool, Area.contains, Area.contains, ← hs'.same.poolStart, ← hs'.same.poolEnd, hs.same.poolStart, hs.same.poolEnd]
  have hpe : p.2 = i := hwf.index_unique hpi ha hpool' hpool
  obtain ⟨a₁, i₁⟩ := p
  obtain rfl : i₁ = i := hpe
  obtain rfl := Option.some.inj (hpi.symm.trans ha)
  exact (hleft _ hmem).mp hp ⟨rfl, hi, honly⟩

theorem collect_frees_unreachable_iff (auto : Bool) (env : Env) (hwf : WellFormed c h.areas) :
    CollectsExactly c auto env h ↔ ¬ (auto = true ∧ LoneFirstBlock c env h.areas) := by
  constructor
  · rintro hc ⟨rfl, hlone⟩
    exact lone_first_block_is_lost hwf hlone hc
  · intro hno
    obtain ⟨h', left, hrun, hsub, hall, hleft, -⟩ := collectWith_spec auto env hwf
    refine ⟨h', left, hrun, hsub, hall.imp fun p a hs => hs.1, fun p hp ⟨b, hl⟩ => (hleft p hp).mpr ?_⟩
    rintro ⟨hauto, hfirst, honly⟩
    have ha := List.mem_zipIdx_iff_getElem?.mp hp
    obtain rfl := honly b (hl.inside ha) (hl.held hwf ha)
    exact hno ⟨hauto, p.2, p.1, hfirst, ha, hl, honly⟩

/-! ## One block in an area of its own -/

def port32 : Config := ⟨2, 64, 28⟩

/-- The second area of four blocks holds one block, which is a root. -/
def loneHeap : Heap where
  areas := [⟨1, fun _ => 0, 64, 128, 0, 0⟩, ⟨1, fun i => if i = 0 then 1 else 0, 192, 256, 0, 0⟩]
  lastFreeArea := 0
  autoCollectEnabled := true
  allocAmount := 1
  allocThreshold := 2 ^ 32 - 1
  lockDepth := 0

def loneEnv : Env := ⟨fun _ => 0, [192]⟩

theorem loneHeap_wellFormed : WellFormed port32 loneHeap.areas := by
  refine ⟨fun a ha => ?_, by decide⟩
  have hcases : ∀ b < a.numBlocks, a.getKind b ≠ .tail ∧ a.getKind b ≠ .mark ∧ (a.getKind b ≠ .free → b ≤ a.lastUsedBlock) := by
    revert a
    decide
  have hrest : a.getKind a.numBlocks = .free ∧ a.lastUsedBlock ≤ a.numBlocks ∧ a.poolStart % port32.bytesPerBlock = 0 ∧
      a.poolEnd = a.poolStart + a.numBlocks * port32.bytesPerBlock := by
    revert a
    decide
  exact ⟨hrest.1, fun b hb ht => absurd ht (hcases b hb).1, fun b hb => (hcases b hb).2.2, hrest.2.1, fun b hb => (hcases b hb).2.1, hrest.2.2.1, hrest.2.2.2⟩

theorem loneHeap_lone : LoneFirstBlock port32 loneEnv loneHeap.areas := by
  refine ⟨1, _, by decide, rfl, .root (List.mem_singleton.mpr rfl) ⟨⟨_, rfl, by decide, by decide⟩, by decide⟩, fun b hb hheld => ?_⟩
  obtain ⟨block, n, hl, hch, h1, h2⟩ := hheld
  -- no other block is a head, and the one after it is free
  obtain ⟨w, ⟨⟨a, ha, hlt, -⟩, hk⟩⟩ := hl.headAt
  obtain rfl := Option.some.inj ha
  have hblock : ∀ block < 4, kindAt loneHeap.areas (1, block) = .head → block = 0 := by decide
  obtain rfl := hblock block hlt hk
  by_contra hne
  have htail := hch.tail 1 (by omega) (by omega)
  exact absurd htail (by decide)

/-- It is given back. -/
theorem lone_block_given_back : ¬ CollectsExactly port32 true loneEnv loneHeap :=
  lone_first_block_is_lost loneHeap_wellFormed loneHeap_lone

theorem collect_frees_unreachable_lone :
    CollectsExactly port32 true loneEnv loneHeap ↔ ¬ (true = true ∧ LoneFirstBlock port32 loneEnv loneHeap.areas) :=
  collect_frees_unreachable_iff true loneEnv loneHeap_wellFormed

end PythonUltra.Py.Gc
