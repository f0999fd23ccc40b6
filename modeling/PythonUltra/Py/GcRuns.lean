/-
  PythonUltra.Py.GcRuns — sequences of calls of the collector's functions.

  A run starts with gc_init; any call may follow, with areas that are memory of their own
  and sizes that a `size_t` holds. `live` is what the program has been given and not given
  back: a call that collects takes from it what the roots do not reach.

  Proved:
  (1) The hints of the search are right after any calls, so gc_alloc gives NULL only when
      no area has room (`null_only_without_room`).
  (2) The tables stay in order and no two live allocations meet, while no block is
      reallocated to so many bytes that their number of blocks wraps (`tables_ok_while_fits`).
      When it does, gc_realloc takes the size for 0 blocks and frees the block it returns
      (`realloc_of_most_bytes`).
-/

import PythonUltra.Py.GcInv

namespace PythonUltra.Py.Gc

section
variable (c : Config)

inductive Call where
  | add (start stop : Nat)
  | alloc (env : Env) (nBytes : Nat)
  | realloc (env : Env) (ptr nBytes : Nat) (allowMove : Bool)
  | free (ptr : Nat)
  | collect (env : Env)
  /-- gc_lock, gc_unlock, gc.enable, gc.disable, gc.threshold -/
  | control (lockDepth : Nat) (autoCollectEnabled : Bool) (allocThreshold : Nat)

def Call.run (h : Heap) : Call → Option (Heap × Nat)
  | .add start stop => some (gcAdd c h start stop, 0)
  | .alloc env nBytes => gcAlloc c env h nBytes
  | .realloc env ptr nBytes allowMove => gcRealloc c env h ptr nBytes allowMove
  | .free ptr => do
    let h ← gcFree c h ptr
    pure (h, 0)
  | .collect env => do
    let h ← gcCollect c env h
    pure (h, 0)
  | .control lockDepth autoCollectEnabled allocThreshold => some ({ h with lockDepth, autoCollectEnabled, allocThreshold }, 0)

/-- Memory that may be made an area. -/
def Memory (start stop : Nat) : Prop := start < alignEnd c stop ∧ stop < 2 ^ (8 * c.wordBytes)

/-- What the types and the machine promise. -/
def Call.Possible (h : Heap) : Call → Prop
  | .add start stop => Memory c (start + c.areaSize) stop ∧ ∀ a ∈ h.areas, stop ≤ a.poolStart ∨ a.poolEnd ≤ start
  | .alloc _ nBytes => nBytes < 2 ^ (8 * c.wordBytes)
  | .realloc _ _ nBytes _ => nBytes < 2 ^ (8 * c.wordBytes)
  | _ => True

/-- The heaps that any calls leave, of any pointers. -/
inductive Reaches : Heap → Prop
  | init {start stop : Nat} : Memory c start stop → Reaches (gcInit c start stop)
  | step {h h' : Heap} {out : Nat} (call : Call) : Reaches h → call.Possible c h → call.run c h = some (h', out) → Reaches h'

end

variable {c : Config} {h h' : Heap} {out : Nat}

/-! ## New areas -/

theorem gcSetupArea_ok {start stop : Nat} (hm : start < alignEnd c stop) :
    (gcSetupArea c start (alignEnd c stop)).Ok c ∧ start < (gcSetupArea c start (alignEnd c stop)).poolStart := by
  have hpos : 0 < c.bytesPerBlock := Config.bytesPerBlock_pos
  obtain ⟨len, hlen⟩ : ∃ len, len = (alignEnd c stop - start - 1) / (1 + 8 / 2 * c.bytesPerBlock) := ⟨_, rfl⟩
  have hmul : len * (1 + 8 / 2 * c.bytesPerBlock) ≤ alignEnd c stop - start - 1 := by
    rw [hlen]
    exact Nat.div_mul_le_self _ _
  have hexpand : len * (1 + 8 / 2 * c.bytesPerBlock) = len + len * 4 * c.bytesPerBlock := by
    rw [Nat.mul_add, Nat.mul_one, ← Nat.mul_assoc]
  have hstart : (gcSetupArea c start (alignEnd c stop)).poolStart = alignEnd c stop - len * 4 * c.bytesPerBlock := by
    rw [hlen]
    rfl
  have hnum : (gcSetupArea c start (alignEnd c stop)).numBlocks = len * 4 := by
    rw [hlen]
    rfl
  have hfree : ∀ b, (gcSetupArea c start (alignEnd c stop)).getKind b = .free := by
    intro b
    rw [Area.getKind_eq]
    show kindOf (lane 0 (2 * (laneOf b).val)) = .free
    simp [lane, kindOf]
  refine ⟨⟨hfree _, fun b _ ht => ?_, fun b _ hne => absurd (hfree b) hne, Nat.zero_le _, fun b _ hm => ?_, ?_, ?_⟩, ?_⟩
  · rw [hfree] at ht
    exact absurd ht (by decide)
  · rw [hfree] at hm
    exact absurd hm (by decide)
  · rw [hstart]
    exact Nat.mod_eq_zero_of_dvd (Nat.dvd_sub (Nat.dvd_mul_left _ _) (Nat.dvd_mul_left _ _))
  · rw [hstart, hnum]
    show alignEnd c stop = _
    omega
  · rw [hstart]
    omega

theorem alignEnd_le (stop : Nat) : alignEnd c stop ≤ stop := Nat.div_mul_le_self _ _

theorem gcSetupArea_hint {start stop : Nat} : (gcSetupArea c start stop).HintOk := fun b _ hb => absurd hb (Nat.not_lt_zero b)

theorem gcInit_inv {start stop : Nat} (hm : Memory c start stop) : Inv c (gcInit c start stop) := by
  obtain ⟨hok, hstart⟩ := gcSetupArea_ok hm.1
  have hone : ∀ {P : Area → Prop}, P (gcSetupArea c start (alignEnd c stop)) → ∀ a ∈ (gcInit c start stop).areas, P a := by
    intro P hP a ha
    rw [List.mem_singleton.mp ha]
    exact hP
  refine ⟨⟨hone hok, List.pairwise_singleton _ _⟩, hone ⟨by omega, Nat.lt_of_le_of_lt (alignEnd_le stop) hm.2⟩, hone gcSetupArea_hint, fun i hi => ?_, Nat.one_pos⟩
  exact absurd hi (Nat.not_lt_zero i)

theorem gcAdd_inv {start stop : Nat} (hinv : Inv c h) (hp : (Call.add start stop).Possible c h) : Inv c (gcAdd c h start stop) := by
  obtain ⟨hm, hapart⟩ := hp
  obtain ⟨hok, hstart⟩ := gcSetupArea_ok hm.1
  have hend := alignEnd_le (c := c) stop
  have hcons : ∀ {P : Area → Prop}, (∀ a ∈ h.areas, P a) → P (gcSetupArea c (start + c.areaSize) (alignEnd c stop)) → ∀ a ∈ (gcAdd c h start stop).areas, P a := by
    intro P hall hP a ha
    rcases List.mem_append.mp ha with ha | ha
    · exact hall a ha
    · rw [List.mem_singleton.mp ha]
      exact hP
  refine ⟨⟨hcons hinv.wf.area hok, ?_⟩, hcons hinv.pool ⟨by omega, Nat.lt_of_le_of_lt hend hm.2⟩, hcons hinv.hint gcSetupArea_hint, fun i hi a ha => ?_, ?_⟩
  · show ((h.areas ++ _).map Area.frame).Pairwise Apart
    rw [List.map_append, List.pairwise_append]
    refine ⟨hinv.wf.apart, List.pairwise_singleton _ _, fun f hf f' hf' => ?_⟩
    obtain ⟨a, ha, rfl⟩ := List.mem_map.mp hf
    rw [List.map_singleton, List.mem_singleton] at hf'
    subst hf'
    simp only [Apart, Area.frame]
    have hnew : (gcSetupArea c (start + c.areaSize) (alignEnd c stop)).poolEnd = alignEnd c stop := rfl
    rcases hapart a ha with hle | hle <;> omega
  · -- the new area comes after those passed over
    have hget : (gcAdd c h start stop).areas[i]? = h.areas[i]? := List.getElem?_append_left (Nat.lt_trans hi hinv.last)
    exact hinv.full i hi a (hget.symm.trans ha)
  · show h.lastFreeArea < (h.areas ++ _).length
    rw [List.length_append]
    exact Nat.lt_add_right _ hinv.last

/-! ## Any calls -/

/-- gc_realloc of any pointer, when no assertion fails. -/
theorem gcRealloc_inv {env : Env} {ptr nBytes : Nat} {allowMove : Bool} (hinv : Inv c h) (hsize : nBytes < 2 ^ (8 * c.wordBytes))
    (hrun : gcRealloc c env h ptr nBytes allowMove = some (h', out)) : Inv c h' := by
  have hcopy := hrun
  rw [gcRealloc] at hrun
  by_cases hnull : ptr = 0
  · rw [if_pos hnull] at hrun
    obtain ⟨h₁, out₁, hrun₁, hspec⟩ := gcAlloc_spec env hinv hsize
    obtain ⟨rfl, -⟩ := Prod.mk.inj (Option.some.inj (hrun₁.symm.trans hrun))
    exact hspec.inv
  rw [if_neg hnull] at hrun
  by_cases hzero : nBytes = 0
  · rw [if_pos hzero] at hrun
    obtain ⟨h₁, hfree, hrun⟩ := Option.bind_eq_some_iff.mp hrun
    obtain ⟨rfl, -⟩ := Prod.mk.inj (Option.some.inj hrun)
    exact (gcFree_spec hinv hfree).1
  rw [if_neg hzero] at hrun
  by_cases hlock : h.lockDepth > 0
  · rw [if_pos hlock] at hrun
    obtain ⟨rfl, -⟩ := Prod.mk.inj (Option.some.inj hrun)
    exact hinv
  rw [if_neg hlock] at hrun
  obtain ⟨x, hx, -⟩ := Option.bind_eq_some_iff.mp hrun
  -- the pointer is that of a head, or the assertion would have failed
  rw [reallocInPlace] at hx
  obtain ⟨i, hi, hx⟩ := Option.bind_eq_some_iff.mp hx
  obtain ⟨a, ha, hx⟩ := Option.bind_eq_some_iff.mp hx
  have hk : a.getKind (a.blockFromPtr c ptr) = .head := by
    by_contra hne
    simp only [ne_eq, hne, not_false_eq_true, if_true] at hx
    exact absurd hx (by simp)
  obtain ⟨h₁, out₁, hrun₁, hspec⟩ := gcRealloc_spec env hinv (allocated_of_head hinv.wf hi ha hk) hsize allowMove
  obtain ⟨rfl, -⟩ := Prod.mk.inj (Option.some.inj (hrun₁.symm.trans hcopy))
  exact hspec.inv

theorem Inv.control (hinv : Inv c h) {lockDepth : Nat} {autoCollectEnabled : Bool} {allocThreshold : Nat} :
    Inv c { h with lockDepth, autoCollectEnabled, allocThreshold } :=
  ⟨hinv.wf, hinv.pool, hinv.hint, hinv.full, hinv.last⟩

theorem Call.run_inv (call : Call) (hinv : Inv c h) (hp : call.Possible c h) (hrun : call.run c h = some (h', out)) : Inv c h' := by
  cases call with
  | add start stop =>
    obtain ⟨rfl, -⟩ := Prod.mk.inj (Option.some.inj hrun)
    exact gcAdd_inv hinv hp
  | alloc env nBytes =>
    obtain ⟨h₁, out₁, hrun₁, hspec⟩ := gcAlloc_spec env hinv hp
    obtain ⟨rfl, -⟩ := Prod.mk.inj (Option.some.inj (hrun₁.symm.trans hrun))
    exact hspec.inv
  | realloc env ptr nBytes allowMove => exact gcRealloc_inv hinv hp hrun
  | free ptr =>
    obtain ⟨h₁, hfree, hrun⟩ := Option.bind_eq_some_iff.mp hrun
    obtain ⟨rfl, -⟩ := Prod.mk.inj (Option.some.inj hrun)
    exact (gcFree_spec hinv hfree).1
  | collect env =>
    obtain ⟨h₁, hcol, hrun⟩ := Option.bind_eq_some_iff.mp hrun
    obtain ⟨rfl, -⟩ := Prod.mk.inj (Option.some.inj hrun)
    obtain ⟨h₂, hcol₂, hinv₂, -⟩ := gcCollect_spec env hinv
    exact Option.some.inj (hcol₂.symm.trans hcol) ▸ hinv₂
  | control lockDepth autoCollectEnabled allocThreshold =>
    obtain ⟨rfl, -⟩ := Prod.mk.inj (Option.some.inj hrun)
    exact hinv.control

theorem Reaches.inv (hr : Reaches c h) : Inv c h := by
  induction hr with
  | init hm => exact gcInit_inv hm
  | step call _ hp hrun ih => exact call.run_inv ih hp hrun

/-- NULL, unlocked and for some bytes: no area has room, after the collection or at once. -/
structure NoRoom (c : Config) (env : Env) (h : Heap) (nBytes : Nat) (h' : Heap) : Prop where
  room : ∀ a ∈ h'.areas, ¬ a.Room (blocksNeeded c nBytes)
  still : ¬ allocCollects c h nBytes → List.Forall₂ Rehinted h.areas h'.areas
  collected : allocCollects c h nBytes →
    ∃ h₀ h₁, List.Forall₂ Rehinted h.areas h₀.areas ∧ gcCollect c env h₀ = some h₁ ∧ List.Forall₂ Rehinted h₁.areas h'.areas

theorem null_only_without_room (hr : Reaches c h) :
    (∀ i < h.lastFreeArea, ∀ a, h.areas[i]? = some a → a.Full) ∧
    (∀ a ∈ h.areas, ∀ b < a.numBlocks, b < 4 * a.lastFreeAtbIndex → a.getKind b ≠ .free) ∧
    ∀ env nBytes, nBytes < 2 ^ (8 * c.wordBytes) → ∃ h' out, gcAlloc c env h nBytes = some (h', out) ∧
      (out = 0 → 0 < nBytes → h.lockDepth = 0 → NoRoom c env h nBytes h') := by
  have hinv := hr.inv
  refine ⟨hinv.full, hinv.hint, fun env nBytes hsize => ?_⟩
  obtain ⟨h', out, hrun, hspec⟩ := gcAlloc_spec env hinv hsize
  exact ⟨h', out, hrun, fun h0 hn hl => ⟨hspec.none h0 hn hl, hspec.still h0, hspec.collected h0⟩⟩

theorem null_only_without_room_start :
    (∀ i < (gcInit port32 64 192).lastFreeArea, ∀ a, (gcInit port32 64 192).areas[i]? = some a → a.Full) ∧
    (∀ a ∈ (gcInit port32 64 192).areas, ∀ b < a.numBlocks, b < 4 * a.lastFreeAtbIndex → a.getKind b ≠ .free) ∧
    ∀ env nBytes, nBytes < 2 ^ (8 * port32.wordBytes) → ∃ h' out, gcAlloc port32 env (gcInit port32 64 192) nBytes = some (h', out) ∧
      (out = 0 → 0 < nBytes → (gcInit port32 64 192).lockDepth = 0 → NoRoom port32 env (gcInit port32 64 192) nBytes h') :=
  null_only_without_room (.init ⟨by decide, by decide⟩)

/-! ## What is live -/

/-- The heap, and the addresses the program holds with the sizes last asked for. -/
structure State where
  heap : Heap
  live : List (Nat × Nat)

/-- The roots of a collection reach it. -/
def Reached (c : Config) (env : Env) (h : Heap) (ptr : Nat) : Prop := ∃ r, AddressOf c h.areas r ptr ∧ Live c env h.areas r

open Classical in
/-- What is left when a call collects, if it does. -/
noncomputable def State.survivors (c : Config) (collects : Prop) (env : Env) (s : State) : List (Nat × Nat) :=
  s.live.filter fun p => collects → Reached c env s.heap p.1

/-- An address is given, if it is not NULL. -/
def granted (out nBytes : Nat) (live : List (Nat × Nat)) : List (Nat × Nat) := if out = 0 then live else (out, nBytes) :: live

def dropped (ptr : Nat) (live : List (Nat × Nat)) : List (Nat × Nat) := live.filter (·.1 ≠ ptr)

/-- What is live after a call that has given `out`. -/
noncomputable def Call.after (c : Config) (s : State) (out : Nat) : Call → List (Nat × Nat)
  | .alloc env nBytes => granted out nBytes (s.survivors c (allocCollects c s.heap nBytes) env)
  | .realloc env ptr nBytes allowMove =>
    if ptr = 0 then granted out nBytes (s.survivors c (allocCollects c s.heap nBytes) env)
    else
      let live := s.survivors c (reallocCollects c s.heap ptr nBytes allowMove) { env with roots := ptr :: env.roots }
      if out = 0 ∧ nBytes ≠ 0 then live else granted out nBytes (dropped ptr live)
  | .free ptr => dropped ptr s.live
  | .collect env => s.survivors c True env
  | _ => s.live

/-- The pointers given to a call are live, or NULL. -/
def Call.Legal (s : State) : Call → Prop
  | .realloc _ ptr _ _ => ptr = 0 ∨ ∃ nBytes, (ptr, nBytes) ∈ s.live
  | .free ptr => ptr = 0 ∨ ∃ nBytes, (ptr, nBytes) ∈ s.live
  | _ => True

/-- The runs whose calls all satisfy a predicate. -/
inductive Runs (c : Config) (only : State → Call → Prop) : State → Prop
  | init {start stop : Nat} : Memory c start stop → Runs c only ⟨gcInit c start stop, []⟩
  | step {s : State} {h : Heap} {out : Nat} (call : Call) : Runs c only s → call.Possible c s.heap → call.Legal s → only s call →
    call.run c s.heap = some (h, out) → Runs c only ⟨h, call.after c s out⟩

/-- The tables are in order, and live allocations have their blocks to themselves. -/
structure TablesOk (c : Config) (s : State) : Prop where
  tail : ∀ a ∈ s.heap.areas, ∀ b < a.numBlocks, a.getKind b = .tail → ∃ b', b = b' + 1 ∧ (a.getKind b' = .head ∨ a.getKind b' = .tail)
  noMark : ∀ a ∈ s.heap.areas, ∀ b < a.numBlocks, a.getKind b ≠ .mark
  used : ∀ a ∈ s.heap.areas, ∀ b < a.numBlocks, a.getKind b ≠ .free → b ≤ a.lastUsedBlock
  last : ∀ a ∈ s.heap.areas, a.lastUsedBlock ≤ a.numBlocks
  disjoint : s.live.Pairwise fun p q => p.1 + gcNbytes c s.heap p.1 ≤ q.1 ∨ q.1 + gcNbytes c s.heap q.1 ≤ p.1
  nbytes : ∀ p ∈ s.live, p.2 ≤ gcNbytes c s.heap p.1

/-- What is kept: every live address is that of an allocation, large enough. -/
structure Good (c : Config) (s : State) : Prop where
  inv : Inv c s.heap
  live : ∀ p ∈ s.live, ∃ r n, Allocated c s.heap.areas p.1 r n ∧ p.2 ≤ n * c.bytesPerBlock
  distinct : s.live.Pairwise fun p q => p.1 ≠ q.1

variable {s : State}

theorem Good.tables (hg : Good c s) : TablesOk c s := by
  have hok := hg.inv.wf.area
  refine ⟨fun a ha => (hok a ha).tail, fun a ha => (hok a ha).noMark, fun a ha => (hok a ha).used, fun a ha => (hok a ha).last, ?_, fun p hp => ?_⟩
  · refine hg.distinct.imp_of_mem fun {p q} hp hq hne => ?_
    obtain ⟨r, n, hpa, -⟩ := hg.live p hp
    obtain ⟨r', n', hqa, -⟩ := hg.live q hq
    rw [hpa.nbytes hg.inv.wf, hqa.nbytes hg.inv.wf]
    exact hpa.apart hg.inv.wf hqa hne
  · obtain ⟨r, n, hpa, hle⟩ := hg.live p hp
    rw [hpa.nbytes hg.inv.wf]
    exact hle

theorem mem_survivors {collects : Prop} {env : Env} {p : Nat × Nat} :
    p ∈ s.survivors c collects env ↔ p ∈ s.live ∧ (collects → Reached c env s.heap p.1) := by
  simp [State.survivors]

theorem Good.kept {collects : Prop} {env : Env} {live : List (Nat × Nat)} (hg : Good c s) (hinv : Inv c h') (hsub : live.Sublist (s.survivors c collects env))
    (hkeep : ∀ p ∈ live, ∀ r n, Allocated c s.heap.areas p.1 r n → (collects → Live c env s.heap.areas r) → Allocated c h'.areas p.1 r n) :
    Good c ⟨h', live⟩ := by
  refine ⟨hinv, fun p hp => ?_, hg.distinct.sublist (hsub.trans List.filter_sublist)⟩
  obtain ⟨hlive, hreach⟩ := mem_survivors.mp (hsub.subset hp)
  obtain ⟨r, n, hpa, hle⟩ := hg.live p hlive
  refine ⟨r, n, hkeep p hp r n hpa fun hc => ?_, hle⟩
  obtain ⟨r', haddr, hl⟩ := hreach hc
  rw [hpa.address.unique hg.inv.wf haddr]
  exact hl

theorem Good.granted {nBytes : Nat} {live : List (Nat × Nat)} (hg : Good c ⟨h', live⟩) (hfresh : out ≠ 0 → ∀ p ∈ live, p.1 ≠ out)
    (hnew : out ≠ 0 → ∃ r n, Allocated c h'.areas out r n ∧ nBytes ≤ n * c.bytesPerBlock) : Good c ⟨h', granted out nBytes live⟩ := by
  rw [Gc.granted]
  by_cases h0 : out = 0
  · rw [if_pos h0]
    exact hg
  · rw [if_neg h0]
    refine ⟨hg.inv, fun p hp => ?_, List.pairwise_cons.mpr ⟨fun p hp => Ne.symm (hfresh h0 p hp), hg.distinct⟩⟩
    rcases List.mem_cons.mp hp with rfl | hp
    · exact hnew h0
    · exact hg.live p hp

/-- No block is reallocated to so many bytes that the number of blocks wraps. -/
def Call.Fits (c : Config) (_ : State) : Call → Prop
  | .realloc _ ptr nBytes _ => ptr ≠ 0 → nBytes + (c.bytesPerBlock - 1) < 2 ^ (8 * c.wordBytes)
  | _ => True

theorem Good.alloc {env : Env} {nBytes : Nat} (hg : Good c s) (hsize : nBytes < 2 ^ (8 * c.wordBytes)) :
    ∃ h' out, gcAlloc c env s.heap nBytes = some (h', out) ∧
      Good c ⟨h', Gc.granted out nBytes (s.survivors c (allocCollects c s.heap nBytes) env)⟩ := by
  obtain ⟨h', out, hrun, hspec⟩ := gcAlloc_spec env hg.inv hsize
  have hkept := hg.kept hspec.inv (.refl _) fun p _ r n hp hl => (hspec.keeps p.1 r n hp hl).1
  refine ⟨h', out, hrun, hkept.granted (fun _ p hp => ?_) hspec.new⟩
  obtain ⟨hlive, hreach⟩ := mem_survivors.mp hp
  obtain ⟨r, n, hpa, -⟩ := hg.live p hlive
  refine (hspec.keeps p.1 r n hpa fun hc => ?_).2
  obtain ⟨r', haddr, hl⟩ := hreach hc
  rw [hpa.address.unique hg.inv.wf haddr]
  exact hl

/-- Every call that fits can be made, and keeps what is live. -/
theorem Good.step (call : Call) (hg : Good c s) (hp : call.Possible c s.heap) (hlegal : call.Legal s) (hfits : call.Fits c s) :
    ∃ h' out, call.run c s.heap = some (h', out) ∧ Good c ⟨h', call.after c s out⟩ := by
  have hptr : ∀ {ptr}, (ptr = 0 ∨ ∃ nBytes, (ptr, nBytes) ∈ s.live) → ptr = 0 ∨ ∃ r n, Allocated c s.heap.areas ptr r n := by
    rintro ptr (h0 | ⟨nBytes, hmem⟩)
    · exact .inl h0
    · obtain ⟨r, n, hpa, -⟩ := hg.live _ hmem
      exact .inr ⟨r, n, hpa⟩
  cases call with
  | add start stop =>
    refine ⟨_, 0, rfl, gcAdd_inv hg.inv hp, fun p hp' => ?_, hg.distinct⟩
    obtain ⟨r, n, hpa, hle⟩ := hg.live p hp'
    obtain ⟨a, ha, -⟩ := id hpa.address
    obtain ⟨hi, -⟩ := List.getElem?_eq_some_iff.mp ha
    have hget : (gcAdd c s.heap start stop).areas[r.1]? = some a := (List.getElem?_append_left hi).trans ha
    exact ⟨r, n, (allocated_iff hget).mpr ((allocated_iff ha).mp hpa), hle⟩
  | alloc env nBytes => exact hg.alloc hp
  | realloc env ptr nBytes allowMove =>
    simp only [Call.run, Call.after]
    by_cases hnull : ptr = 0
    · rw [gcRealloc, if_pos hnull]
      simp only [if_pos hnull]
      exact hg.alloc hp
    · simp only [if_neg hnull]
      obtain ⟨r, n, hpa⟩ := (hptr hlegal).resolve_left hnull
      obtain ⟨h', out, hrun, hspec⟩ := gcRealloc_spec env hg.inv hpa hp allowMove
      refine ⟨h', out, hrun, ?_⟩
      by_cases hfailed : out = 0 ∧ nBytes ≠ 0
      · rw [if_pos hfailed]
        refine hg.kept hspec.inv (.refl _) fun p _ r' n' hpa' hl => ?_
        by_cases hp' : p.1 = ptr
        · rw [hp'] at hpa' ⊢
          exact hspec.failed hfailed.1 hfailed.2 r' n' hpa' hl
        · exact (hspec.others p.1 r' n' hp' hpa' hl).1
      · rw [if_neg hfailed]
        have hother : ∀ p ∈ dropped ptr (s.survivors c (reallocCollects c s.heap ptr nBytes allowMove) { env with roots := ptr :: env.roots }), p.1 ≠ ptr :=
          fun p hp' => by simpa [dropped] using (List.mem_filter.mp hp').2
        have hkept := hg.kept hspec.inv List.filter_sublist fun p hp' r n hpa hl => (hspec.others p.1 r n (hother p hp') hpa hl).1
        refine hkept.granted (fun _ p hp' => ?_) fun h0 => hspec.new h0 (hfits hnull)
        obtain ⟨hlive, hreach⟩ := mem_survivors.mp (List.mem_filter.mp hp').1
        obtain ⟨r', n', hpa', -⟩ := hg.live p hlive
        refine (hspec.others p.1 r' n' (hother p hp') hpa' fun hc => ?_).2
        obtain ⟨r'', haddr, hl⟩ := hreach hc
        rw [hpa'.address.unique hg.inv.wf haddr]
        exact hl
  | free ptr =>
    obtain ⟨h', hfree⟩ := gcFree_some hg.inv (hptr hlegal)
    obtain ⟨hinv', -, hothers⟩ := gcFree_spec hg.inv hfree
    refine ⟨h', 0, by rw [Call.run, hfree]; rfl, hinv', fun p hp' => ?_, hg.distinct.sublist List.filter_sublist⟩
    obtain ⟨hlive, hne⟩ := List.mem_filter.mp hp'
    obtain ⟨r, n, hpa, hle⟩ := hg.live p hlive
    exact ⟨r, n, hothers p.1 r n (by simpa using hne) hpa, hle⟩
  | collect env =>
    obtain ⟨h', hcol, hinv', -, -, hkeep⟩ := gcCollect_spec env hg.inv
    exact ⟨h', 0, by rw [Call.run, hcol]; rfl, hg.kept hinv' (.refl _) fun p _ r n hpa hl => hkeep p.1 r n hpa (hl trivial)⟩
  | control lockDepth autoCollectEnabled allocThreshold => exact ⟨_, 0, rfl, hg.inv.control, hg.live, hg.distinct⟩

theorem Runs.good (hr : Runs c (Call.Fits c) s) : Good c s := by
  induction hr with
  | init hm => exact ⟨gcInit_inv hm, fun p hp => absurd hp List.not_mem_nil, .nil⟩
  | step call _ hp hlegal hfits hrun ih =>
    obtain ⟨h', out, hrun', hg⟩ := ih.step call hp hlegal hfits
    obtain ⟨rfl, rfl⟩ := Prod.mk.inj (Option.some.inj (hrun'.symm.trans hrun))
    exact hg

/-- While sizes fit, the tables are in order after any calls, and no call gets stuck. -/
theorem tables_ok_while_fits (hr : Runs c (Call.Fits c) s) :
    TablesOk c s ∧ ∀ call : Call, call.Possible c s.heap → call.Legal s → call.Fits c s → ∃ x, call.run c s.heap = some x := by
  refine ⟨hr.good.tables, fun call hp hlegal hfits => ?_⟩
  obtain ⟨h', out, hrun, -⟩ := hr.good.step call hp hlegal hfits
  exact ⟨_, hrun⟩

/-! ## A size that wraps -/

/-- One block of the four is allocated. -/
def oneBlock : State where
  heap := ((gcAlloc port32 loneEnv (gcInit port32 64 192) 16).getD (gcInit port32 64 192, 0)).1
  live := [(128, 16)]

theorem oneBlock_runs (only : State → Call → Prop) (honly : only ⟨gcInit port32 64 192, []⟩ (.alloc loneEnv 16)) : Runs port32 only oneBlock := by
  have hrun : gcAlloc port32 loneEnv (gcInit port32 64 192) 16 = some (oneBlock.heap, 128) := by
    have hsome : (gcAlloc port32 loneEnv (gcInit port32 64 192) 16).isSome = true := by decide
    have hout : ((gcAlloc port32 loneEnv (gcInit port32 64 192) 16).getD (gcInit port32 64 192, 0)).2 = 128 := by decide
    obtain ⟨x, hx⟩ := Option.isSome_iff_exists.mp hsome
    rw [hx] at hout
    rw [oneBlock, hx, ← hout]
    rfl
  have hstart : Runs port32 only ⟨gcInit port32 64 192, []⟩ := .init ⟨by decide, by decide⟩
  have hstep := hstart.step (.alloc loneEnv 16) (by show 16 < _; decide) trivial honly hrun
  exact hstep

/-- gc_realloc takes the size for 0 blocks, frees the block and returns it. -/
theorem realloc_of_most_bytes : ¬ ∀ s, Runs port32 (fun _ _ => True) s → TablesOk port32 s := by
  intro hall
  have hsome : (gcRealloc port32 loneEnv oneBlock.heap 128 (2 ^ 32 - 1) true).isSome = true := by decide
  have hout : ((gcRealloc port32 loneEnv oneBlock.heap 128 (2 ^ 32 - 1) true).getD (oneBlock.heap, 0)).2 = 128 := by decide
  have hbytes : gcNbytes port32 ((gcRealloc port32 loneEnv oneBlock.heap 128 (2 ^ 32 - 1) true).getD (oneBlock.heap, 0)).1 128 = 0 := by decide
  obtain ⟨⟨h', out⟩, hrun⟩ := Option.isSome_iff_exists.mp hsome
  rw [hrun] at hout hbytes
  obtain rfl : out = 128 := hout
  have hruns : Runs port32 (fun _ _ => True) oneBlock := oneBlock_runs _ trivial
  have hstep := hruns.step (.realloc loneEnv 128 (2 ^ 32 - 1) true) (by show 2 ^ 32 - 1 < _; decide) (.inr ⟨16, List.mem_singleton.mpr rfl⟩) trivial hrun
  have hmem : (128, 2 ^ 32 - 1) ∈ (Call.realloc loneEnv 128 (2 ^ 32 - 1) true).after port32 oneBlock 128 := by
    simp [Call.after, granted]
  have hle := (hall _ hstep).nbytes _ hmem
  change 2 ^ 32 - 1 ≤ gcNbytes port32 h' 128 at hle
  rw [show gcNbytes port32 h' 128 = 0 from hbytes] at hle
  exact absurd hle (by decide)

theorem tables_ok_while_fits_start :
    TablesOk port32 ⟨gcInit port32 64 192, []⟩ ∧
      ∀ call : Call, call.Possible port32 (gcInit port32 64 192) → call.Legal ⟨gcInit port32 64 192, []⟩ → call.Fits port32 ⟨gcInit port32 64 192, []⟩ →
        ∃ x, call.run port32 (gcInit port32 64 192) = some x :=
  tables_ok_while_fits (.init ⟨by decide, by decide⟩)

end PythonUltra.Py.Gc
