/-
  PythonUltra.Py.GcMark — what gc_collect_root and gc_deal_with_stack_overflow mark.

  The marking loops are those of `Lib.Mark`, with heads for nodes: a head is white until its
  two bits are turned to a mark (`Colored`), and its children are the targets of its words.
  `Sim` relates the two states; each loop keeps it.
-/

import PythonUltra.Py.GcHeap
import Mathlib.Data.Finset.Dedup

namespace PythonUltra.Py.Gc

/-- The heads of a heap. -/
def heads (areas : List Area) : Finset Ref := ((allBlocks areas).filter fun r => kindAt areas r = .head).toFinset

/-- The blocks that the words of an allocation point to. -/
def children (c : Config) (mem : Nat → Nat) (areas : List Area) (r : Ref) : List Ref := (chainWords c mem areas r).filterMap (target c areas)

/-- The heads that are not white are marks now, and nothing else has changed. -/
structure Colored (areas₀ : List Area) (white : Finset Ref) (areas : List Area) : Prop where
  length : areas.length = areas₀.length
  area : ∀ i a₀ a, areas₀[i]? = some a₀ → areas[i]? = some a →
    Area.Same a₀ a ∧ a.lastFreeAtbIndex = a₀.lastFreeAtbIndex ∧ a.lastUsedBlock = a₀.lastUsedBlock ∧
      ∀ b, a.getKind b = if (i, b) ∈ heads areas₀ ∧ (i, b) ∉ white then .mark else a₀.getKind b

/-- The state of the marking loops, and that of `Lib.Mark`. -/
structure Sim (areas₀ : List Area) (s : MarkState) (t : Lib.Mark.State Ref) : Prop where
  colored : Colored areas₀ t.white s.areas
  white : t.white ⊆ heads areas₀
  stack : s.stack = t.stack
  overflow : s.stackOverflow = t.overflow

variable {c : Config} {areas₀ areas : List Area} {mem : Nat → Nat} {r : Ref} {white : Finset Ref} {s : MarkState} {t t' : Lib.Mark.State Ref}

/-! ## Blocks -/

theorem mem_allBlocks : r ∈ allBlocks areas ↔ ∃ a, areas[r.1]? = some a ∧ r.2 < a.numBlocks := by
  obtain ⟨i, b⟩ := r
  simp only [allBlocks, List.mem_flatMap, List.mem_range, List.mem_map, Prod.mk.injEq]
  constructor
  · rintro ⟨i', hi, b', hb, rfl, rfl⟩
    rw [List.getElem?_eq_getElem hi] at hb
    exact ⟨_, List.getElem?_eq_getElem hi, hb⟩
  · rintro ⟨a, ha, hb⟩
    obtain ⟨hi, -⟩ := List.getElem?_eq_some_iff.mp ha
    exact ⟨i, hi, b, by rw [ha]; exact hb, rfl, rfl⟩

theorem length_allBlocks : (allBlocks areas).length = totalBlocks areas := by
  have hmap : (List.range areas.length).map (fun i => ((areas[i]?.map Area.numBlocks).getD 0)) = areas.map Area.numBlocks := by
    apply List.ext_getElem
    · simp
    · intro i h1 h2
      have hi : i < areas.length := by simpa using h2
      simp [List.getElem?_eq_getElem hi]
  rw [allBlocks, totalBlocks, List.length_flatMap, ← hmap]
  simp

theorem mem_heads : r ∈ heads areas ↔ (∃ a, areas[r.1]? = some a ∧ r.2 < a.numBlocks) ∧ kindAt areas r = .head := by
  rw [heads, List.mem_toFinset, List.mem_filter, mem_allBlocks, decide_eq_true_eq]

variable (areas) in
theorem card_heads : (heads areas).card ≤ totalBlocks areas := by
  rw [← length_allBlocks]
  exact Nat.le_trans (List.toFinset_card_le _) (List.length_filter_le _ _)

/-! ## A coloured heap -/

theorem Colored.frame (h : Colored areas₀ white areas) : areas.map Area.frame = areas₀.map Area.frame := by
  apply List.ext_getElem
  · simpa using h.length
  · intro i h1 h2
    have hi : i < areas.length := by simpa using h1
    have hi₀ : i < areas₀.length := by simpa using h2
    rw [List.getElem_map, List.getElem_map]
    exact (h.area i _ _ (List.getElem?_eq_getElem hi₀) (List.getElem?_eq_getElem hi)).1.frame

theorem Colored.get {i : Nat} {a₀ : Area} (h : Colored areas₀ white areas) (ha : areas₀[i]? = some a₀) : ∃ a, areas[i]? = some a := by
  obtain ⟨hi, -⟩ := List.getElem?_eq_some_iff.mp ha
  exact ⟨areas.get ⟨i, h.length ▸ hi⟩, List.getElem?_eq_getElem _⟩

theorem Colored.totalBlocks (h : Colored areas₀ white areas) : totalBlocks areas = totalBlocks areas₀ := by
  have hnum : ∀ l : List Area, l.map Area.numBlocks = (l.map Area.frame).map fun f => f.1 * 4 := by
    intro l
    rw [List.map_map]
    rfl
  rw [Gc.totalBlocks, Gc.totalBlocks, hnum, hnum, h.frame]

theorem Colored.allBlocks (h : Colored areas₀ white areas) : allBlocks areas = allBlocks areas₀ := by
  have hnum : ∀ (l : List Area) (i : Nat), l[i]?.map Area.numBlocks = (l.map Area.frame)[i]?.map fun f => f.1 * 4 := by
    intro l i
    rw [List.getElem?_map, Option.map_map]
    rfl
  simp only [Gc.allBlocks, hnum, h.frame, h.length]

/-- A head is white, and a white one is a head still. -/
theorem Colored.kind_head (h : Colored areas₀ white areas) (hsub : white ⊆ heads areas₀) (hr : ∃ a, areas₀[r.1]? = some a ∧ r.2 < a.numBlocks) :
    kindAt areas r = .head ↔ r ∈ white := by
  obtain ⟨i, b⟩ := r
  obtain ⟨a₀, ha₀, hb⟩ := hr
  obtain ⟨a, ha⟩ := h.get ha₀
  obtain ⟨-, -, -, hkind⟩ := h.area i a₀ a ha₀ ha
  have hhead : (i, b) ∈ heads areas₀ ↔ a₀.getKind b = .head := by
    rw [mem_heads, kindAt_eq ha₀]
    exact ⟨fun h => h.2, fun h => ⟨⟨a₀, ha₀, hb⟩, h⟩⟩
  rw [kindAt_eq ha, hkind]
  constructor
  · intro hk
    by_contra hw
    by_cases hmem : (i, b) ∈ heads areas₀
    · rw [if_pos ⟨hmem, hw⟩] at hk
      exact absurd hk (by decide)
    · rw [if_neg (fun h => hmem h.1)] at hk
      exact hmem (hhead.mpr hk)
  · intro hw
    rw [if_neg (fun h => h.2 hw)]
    exact hhead.mp (hsub hw)

theorem Colored.kind_mark (h : Colored areas₀ white areas) (hwf : WellFormed c areas₀) (hr : ∃ a, areas₀[r.1]? = some a ∧ r.2 < a.numBlocks) :
    kindAt areas r = .mark ↔ r ∈ heads areas₀ ∧ r ∉ white := by
  obtain ⟨i, b⟩ := r
  obtain ⟨a₀, ha₀, hb⟩ := hr
  obtain ⟨a, ha⟩ := h.get ha₀
  obtain ⟨-, -, -, hkind⟩ := h.area i a₀ a ha₀ ha
  rw [kindAt_eq ha, hkind]
  by_cases hm : (i, b) ∈ heads areas₀ ∧ (i, b) ∉ white
  · simp [hm]
  · rw [if_neg hm]
    exact ⟨fun hk => absurd hk ((hwf.ok ha₀).noMark b hb), fun h => absurd h hm⟩

theorem Colored.tail_iff {i b : Nat} {a₀ a : Area} (h : Colored areas₀ white areas) (ha₀ : areas₀[i]? = some a₀) (ha : areas[i]? = some a) :
    a.getKind b = .tail ↔ a₀.getKind b = .tail := by
  obtain ⟨-, -, -, hkind⟩ := h.area i a₀ a ha₀ ha
  rw [hkind]
  by_cases hm : (i, b) ∈ heads areas₀ ∧ (i, b) ∉ white
  · have hk := (mem_heads.mp hm.1).2
    rw [kindAt_eq ha₀] at hk
    rw [if_pos hm, hk]
    simp
  · rw [if_neg hm]

theorem Area.tails_congr {a a' : Area} (h : ∀ b, a'.getKind b = .tail ↔ a.getKind b = .tail) (n block : Nat) : a'.tails n block = a.tails n block := by
  induction n generalizing block with
  | zero => rfl
  | succ n ih => simp only [Area.tails, h, ih]

theorem Colored.chain {i : Nat} {a₀ a : Area} (h : Colored areas₀ white areas) (ha₀ : areas₀[i]? = some a₀) (ha : areas[i]? = some a) (b : Nat) :
    a.chain b = a₀.chain b := by
  obtain ⟨hsame, -⟩ := h.area i a₀ a ha₀ ha
  rw [Area.chain, Area.chain, hsame.numBlocks, Area.tails_congr fun b => h.tail_iff ha₀ ha]

theorem Colored.chainWords (h : Colored areas₀ white areas) (r : Ref) : chainWords c mem areas r = chainWords c mem areas₀ r := by
  unfold Gc.chainWords
  cases ha₀ : areas₀[r.1]? with
  | none =>
    have hnone : areas[r.1]? = none := by
      rw [List.getElem?_eq_none_iff] at ha₀ ⊢
      rw [h.length]
      exact ha₀
    rw [hnone]
  | some a₀ =>
    obtain ⟨a, ha⟩ := h.get ha₀
    obtain ⟨hsame, -⟩ := h.area _ a₀ a ha₀ ha
    simp only [ha, h.chain ha₀ ha, Area.ptrFromBlock, hsame.poolStart]

theorem Colored.refl (areas : List Area) : Colored areas (heads areas) areas := by
  refine ⟨rfl, fun i a₀ a ha₀ ha => ?_⟩
  obtain rfl := Option.some.inj (ha₀.symm.trans ha)
  exact ⟨.refl, rfl, rfl, fun b => (if_neg fun h => h.2 h.1).symm⟩

/-- A head that is marked is white no more. -/
theorem Colored.mark (h : Colored areas₀ white areas) (hsub : white ⊆ heads areas₀) (hr : r ∈ white) :
    Colored areas₀ (white.erase r) (headToMark areas r) := by
  obtain ⟨i, b⟩ := r
  refine ⟨by simpa [headToMark] using h.length, fun j a₀ a' ha₀ ha' => ?_⟩
  obtain ⟨a, ha⟩ := h.get ha₀
  obtain ⟨hsame, hfree, hused, hkind⟩ := h.area j a₀ a ha₀ ha
  have hget : a' = if i = j then a.headToMark b else a := by
    rw [headToMark, List.getElem?_modify, ha] at ha'
    by_cases hij : i = j
    · simpa [hij] using ha'.symm
    · simpa [hij] using ha'.symm
  by_cases hij : i = j
  · rw [if_pos hij] at hget
    subst hij hget
    have hhead : a.getKind b = .head := by
      rw [← kindAt_eq ha]
      exact (h.kind_head hsub (mem_heads.mp (hsub hr)).1).mpr hr
    refine ⟨hsame.trans Area.edit_same, hfree, hused, fun b' => ?_⟩
    rw [Area.getKind_headToMark hhead]
    by_cases hb : b' = b
    · rw [if_pos hb, hb, if_pos ⟨hsub hr, Finset.notMem_erase _ _⟩]
    · rw [if_neg hb, hkind]
      have hne : (i, b') ≠ (i, b) := fun e => hb (Prod.mk.inj e).2
      simp [Finset.mem_erase, hne]
  · rw [if_neg hij] at hget
    subst hget
    refine ⟨hsame, hfree, hused, fun b' => ?_⟩
    have hne : (j, b') ≠ (i, b) := fun e => hij (Prod.mk.inj e).1.symm
    rw [hkind]
    simp [Finset.mem_erase, hne]

/-! ## The loops -/

/-- A word that is looked at is a visit of the block it points to. -/
theorem Sim.visit (hwf : WellFormed c areas₀) (h : Sim areas₀ s t) (ptr : Nat) :
    Sim areas₀ (visitPtr c s ptr) (match target c areas₀ ptr with | some r => Lib.Mark.visit c.stackSize t r | none => t) := by
  rw [visitPtr, target_congr h.colored.frame]
  cases ht : target c areas₀ ptr with
  | none => exact h
  | some r =>
    obtain ⟨a, ha, hb, -⟩ := (target_iff hwf).mp ht
    have hiff := h.colored.kind_head h.white ⟨a, ha, hb⟩
    show Sim areas₀ _ (Lib.Mark.visit c.stackSize t r)
    rw [Lib.Mark.visit]
    by_cases hr : r ∈ t.white
    · have hsub : t.white.erase r ⊆ heads areas₀ := (Finset.erase_subset _ _).trans h.white
      rw [if_pos hr]
      simp only [ne_eq, hiff.mpr hr, not_true_eq_false, if_false]
      rw [h.stack]
      by_cases hroom : t.stack.length < c.stackSize
      · rw [if_pos hroom, if_pos hroom]
        exact ⟨h.colored.mark h.white hr, hsub, rfl, h.overflow⟩
      · rw [if_neg hroom, if_neg hroom]
        exact ⟨h.colored.mark h.white hr, hsub, rfl, rfl⟩
    · rw [if_neg hr]
      simp only [ne_eq, mt hiff.mp hr, not_false_eq_true, if_true]
      exact h

variable (mem) in
theorem Sim.markChildren (hwf : WellFormed c areas₀) (h : Sim areas₀ s t) (r : Ref) :
    Sim areas₀ (markChildren c mem s r) (Lib.Mark.scan (children c mem areas₀) c.stackSize t r) := by
  rw [Gc.markChildren, Lib.Mark.scan, children, h.colored.chainWords, List.foldl_filterMap]
  induction Gc.chainWords c mem areas₀ r generalizing s t with
  | nil => exact h
  | cons w ws ih =>
    apply ih
    have hv := h.visit hwf w
    cases ht : target c areas₀ w with
    | none => simpa [ht] using hv
    | some r => simpa [ht] using hv

theorem Sim.subtree (hwf : WellFormed c areas₀) {n : Nat} (h : Sim areas₀ s t)
    (hd : Lib.Mark.drain (children c mem areas₀) c.stackSize n t r = some t') :
    ∃ s', gcMarkSubtree c mem n s r = some s' ∧ Sim areas₀ s' t' := by
  induction n generalizing s t r with
  | zero => exact absurd hd (by simp [Lib.Mark.drain])
  | succ n ih =>
    have hscan := h.markChildren mem hwf r
    rw [Lib.Mark.drain] at hd
    rw [gcMarkSubtree]
    simp only [hscan.stack]
    cases hst : (Lib.Mark.scan (children c mem areas₀) c.stackSize t r).stack with
    | nil =>
      simp only [hst] at hd
      exact ⟨_, rfl, Option.some.inj hd ▸ hscan⟩
    | cons y st =>
      simp only [hst] at hd
      have hpop : Sim areas₀ { Gc.markChildren c mem s r with stack := st } { Lib.Mark.scan (children c mem areas₀) c.stackSize t r with stack := st } :=
        ⟨hscan.colored, hscan.white, rfl, hscan.overflow⟩
      exact ih hpop hd

/-- A loop whose turns keep the relation. -/
theorem Sim.foldlM {β γ : Type} {f : MarkState → β → Option MarkState} {g : Lib.Mark.State Ref → γ → Option (Lib.Mark.State Ref)} {p : β → Option γ}
    {xs : List β}
    (hstep : ∀ x ∈ xs, ∀ (s : MarkState) (t t' : Lib.Mark.State Ref), Sim areas₀ s t →
      (match p x with | some y => g t y | none => some t) = some t' → ∃ s', f s x = some s' ∧ Sim areas₀ s' t')
    (h : Sim areas₀ s t) (hrun : (xs.filterMap p).foldlM g t = some t') : ∃ s', xs.foldlM f s = some s' ∧ Sim areas₀ s' t' := by
  induction xs generalizing s t with
  | nil => exact ⟨s, rfl, Option.some.inj hrun ▸ h⟩
  | cons x xs ih =>
    have hsplit : ∃ t₁, (match p x with | some y => g t y | none => some t) = some t₁ ∧ (xs.filterMap p).foldlM g t₁ = some t' := by
      cases hx : p x with
      | none => exact ⟨t, rfl, by rwa [List.filterMap_cons_none hx] at hrun⟩
      | some y =>
        rw [List.filterMap_cons_some hx, List.foldlM_cons] at hrun
        exact Option.bind_eq_some_iff.mp hrun
    obtain ⟨t₁, hone, hrest⟩ := hsplit
    obtain ⟨s₁, hs₁, hsim₁⟩ := hstep x List.mem_cons_self s t t₁ h hone
    obtain ⟨s', hs', hsim'⟩ := ih (fun y hy => hstep y (List.mem_cons_of_mem _ hy)) hsim₁ hrest
    exact ⟨s', by rw [List.foldlM_cons, hs₁]; exact hs', hsim'⟩

theorem Sim.turns (h : Sim areas₀ s t) : turns s.areas = turns areas₀ := by rw [Gc.turns, Gc.turns, h.colored.totalBlocks]

theorem Sim.collectRoot (hwf : WellFormed c areas₀) {ptrs : List Nat} (h : Sim areas₀ s t)
    (hrun : (ptrs.filterMap (target c areas₀)).foldlM (Lib.Mark.root (children c mem areas₀) c.stackSize (Gc.turns areas₀)) t = some t') :
    ∃ s', gcCollectRoot c mem s ptrs = some s' ∧ Sim areas₀ s' t' := by
  refine Sim.foldlM (fun ptr _ s t t' h hone => ?_) h hrun
  rw [collectPtr, target_congr h.colored.frame]
  cases ht : target c areas₀ ptr with
  | none =>
    simp only [ht] at hone
    exact ⟨s, rfl, Option.some.inj hone ▸ h⟩
  | some r =>
    obtain ⟨a, ha, hb, -⟩ := (target_iff hwf).mp ht
    have hiff := h.colored.kind_head h.white ⟨a, ha, hb⟩
    simp only [ht, Lib.Mark.root] at hone
    by_cases hr : r ∈ t.white
    · rw [if_pos hr] at hone
      simp only [hiff.mpr hr, if_true, h.turns]
      refine Sim.subtree hwf ?_ hone
      exact ⟨h.colored.mark h.white hr, (Finset.erase_subset _ _).trans h.white, h.stack, h.overflow⟩
    · rw [if_neg hr] at hone
      simp only [mt hiff.mp hr, if_false]
      exact ⟨s, rfl, Option.some.inj hone ▸ h⟩

theorem Sim.rescan (hwf : WellFormed c areas₀) (h : Sim areas₀ s t)
    (hrun : Lib.Mark.rescan (children c mem areas₀) c.stackSize (Gc.turns areas₀) (heads areas₀) (allBlocks areas₀) t = some t') :
    ∃ s', (allBlocks areas₀).foldlM (retrace c mem) s = some s' ∧ Sim areas₀ s' t' := by
  rw [Lib.Mark.rescan, ← List.filterMap_some (l := allBlocks areas₀)] at hrun
  refine Sim.foldlM (fun r hr s t t' h hone => ?_) h hrun
  have hiff := h.colored.kind_mark hwf (mem_allBlocks.mp hr)
  simp only at hone
  rw [retrace]
  by_cases hm : r ∈ heads areas₀ ∧ r ∉ t.white
  · rw [if_pos hm] at hone
    rw [if_pos (hiff.mpr hm), h.turns]
    exact h.subtree hwf hone
  · rw [if_neg hm] at hone
    rw [if_neg (mt hiff.mp hm)]
    exact ⟨s, rfl, Option.some.inj hone ▸ h⟩

theorem Sim.dealWithStackOverflow (hwf : WellFormed c areas₀) {n : Nat} (h : Sim areas₀ s t)
    (hrun : Lib.Mark.settle (children c mem areas₀) c.stackSize (Gc.turns areas₀) (heads areas₀) (allBlocks areas₀) n t = some t') :
    ∃ s', gcDealWithStackOverflow c mem n s = some s' ∧ Sim areas₀ s' t' := by
  induction n generalizing s t with
  | zero => exact absurd hrun (by simp [Lib.Mark.settle])
  | succ n ih =>
    rw [Lib.Mark.settle] at hrun
    rw [gcDealWithStackOverflow, h.overflow]
    cases hov : t.overflow with
    | false =>
      rw [hov] at hrun
      exact ⟨s, rfl, Option.some.inj hrun ▸ h⟩
    | true =>
      rw [hov, if_pos rfl] at hrun
      obtain ⟨t₁, hscan, hrun⟩ := Option.bind_eq_some_iff.mp hrun
      have hclear : Sim areas₀ { s with stackOverflow := false } { t with overflow := false } := ⟨h.colored, h.white, h.stack, rfl⟩
      obtain ⟨s₁, hs₁, hsim₁⟩ := hclear.rescan hwf hscan
      obtain ⟨s', hs', hsim'⟩ := ih hsim₁ hrun
      refine ⟨s', ?_, hsim'⟩
      rw [if_pos rfl, h.colored.allBlocks]
      exact Option.bind_eq_some_iff.mpr ⟨s₁, hs₁, hs'⟩

/-! ## What is marked -/

theorem mem_children (hwf : WellFormed c areas) {r' : Ref} (hr : ∃ a, areas[r.1]? = some a ∧ r.2 < a.numBlocks) :
    r' ∈ children c mem areas r ↔ ∃ w, WordOf c mem areas r w ∧ AddressOf c areas r' w := by
  obtain ⟨a, ha, hb⟩ := hr
  have hok := hwf.ok ha
  have hwords : a.chain r.2 * c.bytesPerBlock / c.wordBytes = 4 * a.chain r.2 := by
    rw [Config.bytesPerBlock, ← Nat.mul_assoc, Nat.mul_div_cancel _ Config.wordBytes_pos, Nat.mul_comm]
  simp only [children, chainWords, ha, hwords, List.mem_filterMap, List.mem_map, List.mem_range, target_iff hwf]
  constructor
  · rintro ⟨w, ⟨k, hk, rfl⟩, hw⟩
    exact ⟨_, ⟨a, a.chain r.2, k, ha, (Area.chain_spec hok.gap hb).1, hk, rfl⟩, hw⟩
  · rintro ⟨w, ⟨a', n, k, ha', hchain, hk, rfl⟩, hw⟩
    obtain rfl := Option.some.inj (ha.symm.trans ha')
    rw [← Area.chain_eq hok.gap hb hchain] at hk
    exact ⟨_, ⟨k, hk, rfl⟩, hw⟩

/-- What `Lib.Mark` reaches is what is live. -/
theorem reach_iff (hwf : WellFormed c areas) {env : Env} :
    Lib.Mark.Reach (children c env.mem areas) (heads areas) (env.roots.filterMap (target c areas)) r ↔ Live c env areas r := by
  constructor
  · intro h
    induction h with
    | root hroot hobj =>
      obtain ⟨w, hw, ht⟩ := List.mem_filterMap.mp hroot
      exact .root hw ⟨(target_iff hwf).mp ht, (mem_heads.mp hobj).2⟩
    | child hx hy hobj ih =>
      obtain ⟨w, hword, haddr⟩ := (mem_children hwf (mem_heads.mp hx.mem).1).mp hy
      exact .word ih hword ⟨haddr, (mem_heads.mp hobj).2⟩
  · intro h
    have hmem : ∀ {r : Ref} {w : Nat}, HeadAt c areas r w → r ∈ heads areas := by
      rintro r w ⟨⟨a, ha, hb, -⟩, hk⟩
      exact mem_heads.mpr ⟨⟨a, ha, hb⟩, hk⟩
    induction h with
    | root hw hhead => exact .root (List.mem_filterMap.mpr ⟨_, hw, (target_iff hwf).mpr hhead.1⟩) (hmem hhead)
    | word hl hword hhead ih => exact .child ih ((mem_children hwf (mem_heads.mp ih.mem).1).mpr ⟨_, hword, hhead.1⟩) (hmem hhead)

/-- Marking ends with the live heads marked, and only those. -/
theorem mark_spec (hwf : WellFormed c areas) (env : Env) :
    ∃ s s', gcCollectRoot c env.mem ⟨areas, [], false⟩ env.roots = some s ∧ gcDealWithStackOverflow c env.mem (turns s.areas) s = some s' ∧
      ∃ white, Colored areas white s'.areas ∧ ∀ r, r ∈ white ↔ r ∈ heads areas ∧ ¬ Live c env areas r := by
  have hcard : (heads areas).card + 1 < turns areas := by
    have := card_heads areas
    rw [turns]
    omega
  obtain ⟨t', hcollect, -, -, hwhite⟩ := Lib.Mark.collect_spec (children c env.mem areas) c.stackSize (heads areas)
    (env.roots.filterMap (target c areas)) (allBlocks areas) (n := turns areas) (fun r hr => mem_allBlocks.mpr (mem_heads.mp hr).1) hcard
  rw [Lib.Mark.collect] at hcollect
  obtain ⟨t, hroots, hsettle⟩ := Option.bind_eq_some_iff.mp hcollect
  have hstart : Sim areas ⟨areas, [], false⟩ ⟨heads areas, [], false⟩ := ⟨.refl areas, fun _ h => h, rfl, rfl⟩
  obtain ⟨s, hs, hsim⟩ := hstart.collectRoot hwf hroots
  obtain ⟨s', hs', hsim'⟩ := hsim.dealWithStackOverflow hwf hsettle
  refine ⟨s, s', hs, ?_, t'.white, hsim'.colored, fun r => ?_⟩
  · rw [hsim.turns]
    exact hs'
  · rw [hwhite, reach_iff hwf]

end PythonUltra.Py.Gc
