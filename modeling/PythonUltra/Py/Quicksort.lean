/-
  PythonUltra.Py.Quicksort — list.sort (py/objlist.c).

  Pointers are offsets from the first item; an access outside of the items fails. Calls of
  the key function and of `<` may do anything but change the list: they get and return a
  state. `ω`, and what they answer need not make sense.

  * `mpQuicksort_spec`: it ends, with exchanges of items only, at a recursion depth that is
    logarithmic in the length; where the answers are those of a total preorder (`Ordered`)
    the items are in its order.
  * `sort_spec`: the same of `list.sort`, for a strict weak order of the keys.
-/

import PythonUltra.Lib.Exchange
import Mathlib.Algebra.GroupWithZero.Nat

open PythonUltra.Lib PythonUltra.Lib.Raster

namespace PythonUltra.Py.Quicksort

variable {α ω : Type}

/-- `key_fn`, if there is one, `mp_binary_op(MP_BINARY_OP_LESS, ..)` and `binop_less_result`. -/
structure Ops (α ω : Type) where
  keyFn : Option (α → ω → α × ω)
  less : α → α → ω → α × ω
  lessResult : α

/-- `key_fn == MP_OBJ_NULL ? x : mp_call_function_1(key_fn, x)` -/
def Ops.key (ops : Ops α ω) (x : α) (s : ω) : α × ω :=
  match ops.keyFn with
  | none => (x, s)
  | some keyFn => keyFn x s

section Code

variable [DecidableEq α] (ops : Ops α ω)

/-- `do {++h;} while (..)`. none: an access outside of the items, or out of fuel. -/
def scanUp (items : Array α) (v : α) (t : Int) : Nat → Int → ω → Option (Int × ω)
  | 0, _, _ => none
  | fuel + 1, h, s =>
    let h := h + 1
    if h < t then do
      let x ← load items h
      let (k, s) := ops.key x s
      let (r, s) := ops.less k v s
      if r = ops.lessResult then scanUp items v t fuel h s else some (h, s)
    else some (h, s)

/-- `do {--t;} while (..)` -/
def scanDown (items : Array α) (v : α) (h : Int) : Nat → Int → ω → Option (Int × ω)
  | 0, _, _ => none
  | fuel + 1, t, s =>
    let t := t - 1
    if h < t then do
      let x ← load items t
      let (k, s) := ops.key x s
      let (r, s) := ops.less v k s
      if r = ops.lessResult then scanDown items v h fuel t s else some (t, s)
    else some (t, s)

/-- `for (;;)`: the items, `h` and `t` where the pointers have met. -/
def partitionLoop (v : α) : Nat → Array α → Int → Int → ω → Option (Array α × Int × Int × ω)
  | 0, _, _, _, _ => none
  | fuel + 1, items, h, t, s => do
    let (h, s) ← scanUp ops items v t (fuel + 1) h s
    let (t, s) ← scanDown ops items v h (fuel + 1) t s
    if h ≥ t then return (items, h, t, s)
    else
      let items ← exchange items h t
      partitionLoop v fuel items h t s

/-- `while (head < tail)`, with `sort` for the recursive calls. -/
def sortLoop (sort : Array α → Int → Int → ω → Option (Array α × ω)) : Nat → Array α → Int → Int → ω → Option (Array α × ω)
  | 0, _, _, _, _ => none
  | fuel + 1, items, head, tail, s =>
    if head < tail then do
      let pivot ← load items tail
      let (v, s) := ops.key pivot s
      let (items, h, t, s) ← partitionLoop ops v (fuel + 1) items (head - 1) tail s
      let items ← exchange items h tail
      if t - head < tail - h - 1 then
        let (items, s) ← sort items head t s
        sortLoop sort fuel items (h + 1) tail s
      else
        let (items, s) ← sort items (h + 1) tail s
        sortLoop sort fuel items head t s
    else some (items, s)

/-- `mp_quicksort`, where `depth` is how deep calls may be nested. -/
def mpQuicksort (fuel : Nat) : Nat → Array α → Int → Int → ω → Option (Array α × ω)
  | 0 => fun _ _ _ _ => none
  | depth + 1 => sortLoop ops (mpQuicksort fuel depth) fuel

/-- `mp_const_false` and `mp_const_true` -/
structure Consts (α : Type) where
  constFalse : α
  constTrue : α
  ne : constTrue ≠ constFalse

/-- What `mp_obj_list_sort` gives `mp_quicksort` for its arguments. -/
def sortOps (consts : Consts α) (key : Option (α → ω → α × ω)) (less : α → α → ω → α × ω) (reverse : Bool) : Ops α ω :=
  ⟨key, less, if reverse then consts.constFalse else consts.constTrue⟩

/-- `mp_obj_list_sort` -/
def mpObjListSort (consts : Consts α) (fuel depth : Nat) (key : Option (α → ω → α × ω)) (less : α → α → ω → α × ω) (reverse : Bool)
    (items : Array α) (s : ω) : Option (Array α × ω) :=
  if items.size > 1 then mpQuicksort (sortOps consts key less reverse) fuel depth items 0 (items.size - 1) s
  else some (items, s)

end Code

/-! ## What the answers are to be -/

/-- Answers about elements that meet `P` which are those of a total preorder `R`: a key is
always the same, a pass goes over what is before the pivot, and stops at what is not. -/
structure Ordered (ops : Ops α ω) (P : α → Prop) (k : α → α) (R : α → α → Prop) : Prop where
  key : ∀ x, P x → ∀ s, (ops.key x s).1 = k x
  pass : ∀ x y, P x → P y → ∀ s, (ops.less (k x) (k y) s).1 = ops.lessResult → R x y
  stop : ∀ x y, P x → P y → ∀ s, (ops.less (k x) (k y) s).1 ≠ ops.lessResult → R y x
  trans : ∀ x y z, R x y → R y z → R x z

/-- The elements from `lo` to `hi` meet `Q`. -/
def All (a : Array α) (lo hi : Int) (Q : α → Prop) : Prop := ∀ i, lo ≤ i → i ≤ hi → ∀ x, load a i = some x → Q x

variable {ops : Ops α ω} {items : Array α} {P : α → Prop} {k : α → α} {R : α → α → Prop} {pivot v : α}

theorem All.inside {lo hi lo' hi' : Int} {items' : Array α} {Q : α → Prop} (h : All items lo hi Q) (he : Exchanged lo' hi' items items')
    (hlo : lo ≤ lo') (hhi : hi' ≤ hi) : All items' lo hi Q := by
  intro i hi₁ hi₂ x hx
  by_cases hin : lo' ≤ i ∧ i ≤ hi'
  · exact he.all (fun j h1 h2 => h j (by omega) (by omega)) i hin.1 hin.2 x hx
  · rw [he.outside (by omega)] at hx
    exact h i hi₁ hi₂ x hx

theorem All.outside {lo hi lo' hi' : Int} {items' : Array α} {Q : α → Prop} (h : All items lo hi Q) (he : Exchanged lo' hi' items items')
    (hout : hi < lo' ∨ hi' < lo) : All items' lo hi Q := by
  intro i hi₁ hi₂ x hx
  rw [he.outside (by omega)] at hx
  exact h i hi₁ hi₂ x hx

/-- The elements from `lo` to `hi` are in order. -/
def InOrder (R : α → α → Prop) (a : Array α) (lo hi : Int) : Prop :=
  ∀ i j, lo ≤ i → i < j → j ≤ hi → ∀ x y, load a i = some x → load a j = some y → R x y

theorem InOrder.outside {lo hi lo' hi' : Int} {items' : Array α} (h : InOrder R items lo hi) (he : Exchanged lo' hi' items items')
    (hout : hi < lo' ∨ hi' < lo) : InOrder R items' lo hi := by
  intro i j h1 h2 h3 x y hx hy
  rw [he.outside (by omega)] at hx hy
  exact h i j h1 h2 h3 x y hx hy

/-- Two sides of a pivot, each in order; the left one may have the pivot, which else is between them. -/
theorem InOrder.join {head tail h t : Int} (htrans : ∀ x y z, R x y → R y z → R x z) (ht : t = h - 1 ∨ t = h)
    (hpivot : load items h = some pivot ∨ t = h) (hleft : All items head h (R · pivot)) (hright : All items (h + 1) tail (R pivot))
    (hl : InOrder R items head t) (hr : InOrder R items (h + 1) tail) : InOrder R items head tail := by
  intro i j h1 h2 h3 x y hx hy
  by_cases hi : h + 1 ≤ i
  · exact hr i j hi h2 h3 x y hx hy
  · have hxp := hleft i h1 (by omega) x hx
    by_cases hj : h + 1 ≤ j
    · exact htrans x pivot y hxp (hright j hj h3 y hy)
    · by_cases hjt : j ≤ t
      · exact hl i j h1 h2 hjt x y hx hy
      · obtain rfl : j = h := by omega
        rcases hpivot with hp | hth
        · rw [hp] at hy
          cases hy
          exact hxp
        · omega

theorem load_some (items : Array α) {i : Int} (h0 : 0 ≤ i) (hi : i < items.size) : ∃ x, load items i = some x :=
  Option.isSome_iff_exists.mp (load_isSome.mpr ⟨h0, hi⟩)

theorem InOrder.pairwise (h : InOrder R items 0 (items.size - 1)) : items.toList.Pairwise R := by
  rw [List.pairwise_iff_getElem]
  intro i j hi hj hij
  rw [Array.length_toList] at hi hj
  have hload : ∀ n (hn : n < items.size), load items n = some items.toList[n] := fun n hn => by
    rw [load, if_pos (by omega), Int.toNat_natCast, Array.getElem?_eq_getElem hn, Array.getElem_toList]
  exact h i j (by omega) (by omega) (by omega) _ _ (hload i hi) (hload j hj)

/-- `lt` orders what meets `S`, up to a tie. -/
structure StrictWeakOn (S : α → Prop) (lt : α → α → Prop) : Prop where
  irrefl : ∀ a, S a → ¬ lt a a
  trans : ∀ a b c, S a → S b → S c → lt a b → lt b c → lt a c
  tie : ∀ a b c, S a → S b → S c → ¬ lt a b → ¬ lt b a → ¬ lt b c → ¬ lt c b → ¬ lt a c ∧ ¬ lt c a

theorem StrictWeakOn.not_lt_trans {S : α → Prop} {lt : α → α → Prop} (h : StrictWeakOn S lt) {a b c : α} (ha : S a) (hb : S b) (hc : S c)
    (hab : ¬ lt b a) (hbc : ¬ lt c b) : ¬ lt c a := by
  intro hca
  by_cases h1 : lt a b
  · exact hbc (h.trans c a b hc ha hb hca h1)
  · by_cases h2 : lt b c
    · exact hab (h.trans b c a hb hc ha h2 hca)
    · exact (h.tie a b c ha hb hc h1 hab h2 hbc).2 hca

/-- Keys and answers that are those of `lt`. -/
structure Compares (consts : Consts α) (ops : Ops α ω) (items : Array α) (k : α → α) (lt : α → α → Prop) : Prop where
  key : ∀ x ∈ items, ∀ s, (ops.key x s).1 = k x
  yes : ∀ x ∈ items, ∀ y ∈ items, lt (k x) (k y) → ∀ s, (ops.less (k x) (k y) s).1 = consts.constTrue
  no : ∀ x ∈ items, ∀ y ∈ items, ¬ lt (k x) (k y) → ∀ s, (ops.less (k x) (k y) s).1 = consts.constFalse
  strictWeak : StrictWeakOn (fun a => ∃ x ∈ items, a = k x) lt

theorem Compares.ascending {consts : Consts α} {lt : α → α → Prop} (h : Compares consts ops items k lt) (hresult : ops.lessResult = consts.constTrue) :
    Ordered ops (· ∈ items) k fun x y => x ∈ items ∧ y ∈ items ∧ ¬ lt (k y) (k x) where
  key := h.key
  pass := by
    intro x y hx hy s hless
    refine ⟨hx, hy, fun hyx => ?_⟩
    by_cases hxy : lt (k x) (k y)
    · exact h.strictWeak.irrefl _ ⟨x, hx, rfl⟩ (h.strictWeak.trans _ _ _ ⟨x, hx, rfl⟩ ⟨y, hy, rfl⟩ ⟨x, hx, rfl⟩ hxy hyx)
    · rw [h.no x hx y hy hxy s, hresult] at hless
      exact consts.ne hless.symm
  stop := by
    intro x y hx hy s hless
    refine ⟨hy, hx, fun hxy => hless ?_⟩
    rw [h.yes x hx y hy hxy s, hresult]
  trans := by
    rintro x y z ⟨hx, hy, hxy⟩ ⟨-, hz, hyz⟩
    exact ⟨hx, hz, h.strictWeak.not_lt_trans ⟨x, hx, rfl⟩ ⟨y, hy, rfl⟩ ⟨z, hz, rfl⟩ hxy hyz⟩

theorem Compares.descending {consts : Consts α} {lt : α → α → Prop} (h : Compares consts ops items k lt) (hresult : ops.lessResult = consts.constFalse) :
    Ordered ops (· ∈ items) k fun x y => x ∈ items ∧ y ∈ items ∧ ¬ lt (k x) (k y) where
  key := h.key
  pass := by
    intro x y hx hy s hless
    refine ⟨hx, hy, fun hxy => ?_⟩
    rw [h.yes x hx y hy hxy s, hresult] at hless
    exact consts.ne hless
  stop := by
    intro x y hx hy s hless
    refine ⟨hy, hx, fun hyx => ?_⟩
    by_cases hxy : lt (k x) (k y)
    · exact h.strictWeak.irrefl _ ⟨x, hx, rfl⟩ (h.strictWeak.trans _ _ _ ⟨x, hx, rfl⟩ ⟨y, hy, rfl⟩ ⟨x, hx, rfl⟩ hxy hyx)
    · exact hless (by rw [h.no x hx y hy hxy s, hresult])
  trans := by
    rintro x y z ⟨hx, hy, hxy⟩ ⟨-, hz, hyz⟩
    exact ⟨hx, hz, h.strictWeak.not_lt_trans ⟨z, hz, rfl⟩ ⟨y, hy, rfl⟩ ⟨x, hx, rfl⟩ hyz hxy⟩

/-! ## The passes -/

variable [DecidableEq α]

variable (ops) in
/-- The pass upwards stops at `t`, or at an element that may go to the right. -/
theorem scanUp_spec {t : Int} (ht : t ≤ items.size) (hP : ∀ i x, load items i = some x → P x) (hpivot : P pivot) (fuel : Nat) (h : Int) (s : ω)
    (hh : -1 ≤ h) (hlt : h < t) (hfuel : t - h ≤ fuel) :
    ∃ h' s', scanUp ops items v t fuel h s = some (h', s') ∧ h < h' ∧ h' ≤ t ∧
      (Ordered ops P k R → v = k pivot →
        All items (h + 1) (h' - 1) (R · pivot) ∧ (h' < t → All items h' h' (R pivot))) := by
  induction fuel generalizing h s with
  | zero => omega
  | succ fuel ih =>
    unfold scanUp
    by_cases hmet : h + 1 < t
    · obtain ⟨x, hx⟩ := load_some items (show 0 ≤ h + 1 by omega) (by omega)
      simp only [if_pos hmet, hx, Option.bind_eq_bind, Option.bind_some]
      by_cases hpass : (ops.less (ops.key x s).1 v (ops.key x s).2).1 = ops.lessResult
      · obtain ⟨h', s', hrun, h1, h2, hordered⟩ := ih (h + 1) (ops.less (ops.key x s).1 v (ops.key x s).2).2 (by omega) hmet (by omega)
        rw [if_pos hpass]
        refine ⟨h', s', hrun, by omega, h2, fun ho hv => ⟨fun i hi hi' y hy => ?_, (hordered ho hv).2⟩⟩
        rcases Int.lt_or_eq_of_le hi with hi | rfl
        · exact (hordered ho hv).1 i (by omega) hi' y hy
        · rw [hx] at hy
          cases hy
          rw [hv, ho.key x (hP _ _ hx)] at hpass
          exact ho.pass x pivot (hP _ _ hx) hpivot _ hpass
      · rw [if_neg hpass]
        refine ⟨h + 1, _, rfl, by omega, by omega, fun ho hv => ⟨fun i hi hi' => by omega, fun _ i hi hi' y hy => ?_⟩⟩
        obtain rfl : i = h + 1 := by omega
        rw [hx] at hy
        cases hy
        rw [hv, ho.key x (hP _ _ hx)] at hpass
        exact ho.stop x pivot (hP _ _ hx) hpivot _ hpass
    · rw [if_neg hmet]
      exact ⟨h + 1, s, rfl, by omega, by omega, fun _ _ => ⟨fun i hi hi' => by omega, fun hlt' => absurd hlt' hmet⟩⟩

variable (ops) in
/-- The pass downwards stops at `h` or below, or at an element that may go to the left. -/
theorem scanDown_spec {h : Int} (hh : 0 ≤ h) (hP : ∀ i x, load items i = some x → P x) (hpivot : P pivot) (fuel : Nat) (t : Int) (s : ω)
    (ht : t ≤ items.size) (hle : h ≤ t) (hfuel : t - h < fuel) :
    ∃ t' s', scanDown ops items v h fuel t s = some (t', s') ∧ t' < t ∧ h - 1 ≤ t' ∧ (h < t → h ≤ t') ∧
      (Ordered ops P k R → v = k pivot →
        All items (t' + 1) (t - 1) (R pivot) ∧ (h < t' → All items t' t' (R · pivot))) := by
  induction fuel generalizing t s with
  | zero => omega
  | succ fuel ih =>
    unfold scanDown
    by_cases hmet : h < t - 1
    · obtain ⟨x, hx⟩ := load_some items (show 0 ≤ t - 1 by omega) (by omega)
      simp only [if_pos hmet, hx, Option.bind_eq_bind, Option.bind_some]
      by_cases hpass : (ops.less v (ops.key x s).1 (ops.key x s).2).1 = ops.lessResult
      · obtain ⟨t', s', hrun, h1, h2, h3, hordered⟩ := ih (t - 1) (ops.less v (ops.key x s).1 (ops.key x s).2).2 (by omega) (by omega) (by omega)
        rw [if_pos hpass]
        refine ⟨t', s', hrun, by omega, h2, fun _ => h3 hmet, fun ho hv => ⟨fun i hi hi' y hy => ?_, (hordered ho hv).2⟩⟩
        rcases Int.lt_or_eq_of_le hi' with hi' | rfl
        · exact (hordered ho hv).1 i hi (by omega) y hy
        · rw [hx] at hy
          cases hy
          rw [hv, ho.key x (hP _ _ hx)] at hpass
          exact ho.pass pivot x hpivot (hP _ _ hx) _ hpass
      · rw [if_neg hpass]
        refine ⟨t - 1, _, rfl, by omega, by omega, fun _ => by omega, fun ho hv => ⟨fun i hi hi' => by omega, fun _ i hi hi' y hy => ?_⟩⟩
        obtain rfl : i = t - 1 := by omega
        rw [hx] at hy
        cases hy
        rw [hv, ho.key x (hP _ _ hx)] at hpass
        exact ho.stop pivot x hpivot (hP _ _ hx) _ hpass
    · rw [if_neg hmet]
      exact ⟨t - 1, s, rfl, by omega, by omega, fun _ => by omega, fun _ _ => ⟨fun i hi hi' => by omega, fun hlt' => absurd hlt' hmet⟩⟩

/-! ## The partition -/

variable (ops) in
/-- The pointers meet in the range, or pass each other by one, with the left side up to the
pivot and the right side from the pivot on. -/
theorem partitionLoop_spec {head tail : Int} (h0 : 0 ≤ head) (hpivot : P pivot) (fuel : Nat) (items : Array α) (h t : Int) (s : ω)
    (hin : tail < items.size) (hP : ∀ i x, load items i = some x → P x) (hh : head - 1 ≤ h) (hlt : h < t) (ht : t ≤ tail) (hfuel : t - h ≤ fuel) :
    ∃ items' h' t' s', partitionLoop ops v fuel items h t s = some (items', h', t', s') ∧ Exchanged head (tail - 1) items items' ∧
      head ≤ h' ∧ h' ≤ tail ∧ (t' = h' - 1 ∨ t' = h' ∧ h' < tail) ∧
      (Ordered ops P k R → v = k pivot → All items head h (R · pivot) → All items t (tail - 1) (R pivot) →
        All items' head (h' - 1) (R · pivot) ∧ All items' h' (tail - 1) (R pivot)) := by
  induction fuel generalizing items h t s with
  | zero => omega
  | succ fuel ih =>
    obtain ⟨h₁, s₁, hup, hu1, hu2, hupper⟩ := scanUp_spec ops (v := v) (k := k) (R := R) (show t ≤ items.size by omega) hP hpivot
      (fuel + 1) h s (by omega) hlt (by omega)
    obtain ⟨t₁, s₂, hdown, hd1, hd2, hd3, hlower⟩ := scanDown_spec ops (v := v) (k := k) (R := R) (show 0 ≤ h₁ by omega) hP hpivot
      (fuel + 1) t s₁ (by omega) hu2 (by omega)
    unfold partitionLoop
    simp only [hup, hdown, Option.bind_eq_bind, Option.bind_some]
    by_cases hmet : h₁ ≥ t₁
    · rw [if_pos hmet]
      refine ⟨items, h₁, t₁, s₂, rfl, .refl items, by omega, by omega, by omega, fun ho hv hleft hright => ⟨?_, ?_⟩⟩
      · intro i hi hi' x hx
        by_cases hold : i ≤ h
        · exact hleft i hi hold x hx
        · exact (hupper ho hv).1 i (by omega) hi' x hx
      · intro i hi hi' x hx
        by_cases hold : t ≤ i
        · exact hright i hold hi' x hx
        · by_cases hat : i = h₁
          · exact (hupper ho hv).2 (by omega) i (by omega) (by omega) x hx
          · exact (hlower ho hv).1 i (by omega) (by omega) x hx
    · rw [if_neg hmet]
      obtain ⟨items₁, hexchange, -, hsize, hload⟩ := exchange_spec (a := items) (i := h₁) (j := t₁) (by omega) (by omega)
      have hP₁ : ∀ i x, load items₁ i = some x → P x := by
        intro i x hx
        rw [hload] at hx
        split at hx
        · exact hP _ x hx
        · split at hx <;> exact hP _ x hx
      obtain ⟨items', h', t', s', hrun, hexchanged, hb1, hb2, hb3, hordered⟩ := ih items₁ h₁ t₁ s₂ (by omega) hP₁ (by omega) (by omega) (by omega)
        (by omega)
      rw [hexchange]
      refine ⟨items', h', t', s', hrun, (Exchanged.single h0 (by omega) (by omega) (by omega) hexchange).trans hexchanged, hb1, hb2, hb3,
        fun ho hv hleft hright => hordered ho hv ?_ ?_⟩
      · intro i hi hi' x hx
        rw [hload, if_neg (by omega)] at hx
        by_cases hat : i = h₁
        · rw [if_pos hat] at hx
          exact (hlower ho hv).2 (by omega) t₁ (le_refl _) (le_refl _) x hx
        · rw [if_neg hat] at hx
          by_cases hold : i ≤ h
          · exact hleft i hi hold x hx
          · exact (hupper ho hv).1 i (by omega) (by omega) x hx
      · intro i hi hi' x hx
        rw [hload] at hx
        by_cases hat : i = t₁
        · rw [if_pos hat] at hx
          exact (hupper ho hv).2 (by omega) h₁ (le_refl _) (le_refl _) x hx
        · rw [if_neg hat, if_neg (by omega)] at hx
          by_cases hold : t ≤ i
          · exact hright i hold hi' x hx
          · exact (hlower ho hv).1 i (by omega) (by omega) x hx

/-! ## The sort -/

/-- What sorts ranges of up to `N` items. -/
def Sorts (ops : Ops α ω) (P : α → Prop) (k : α → α) (R : α → α → Prop) (N : Nat) (sort : Array α → Int → Int → ω → Option (Array α × ω)) : Prop :=
  ∀ (items : Array α) (head tail : Int) (s : ω), 0 ≤ head → tail < items.size → (∀ i x, load items i = some x → P x) → tail - head + 1 ≤ N →
    ∃ items' s', sort items head tail s = some (items', s') ∧ Exchanged head tail items items' ∧ (Ordered ops P k R → InOrder R items' head tail)

theorem Ordered.refl (ho : Ordered ops P k R) {x : α} (hx : P x) (s : ω) : R x x := by
  by_cases h : (ops.less (k x) (k x) s).1 = ops.lessResult
  · exact ho.pass x x hx hx s h
  · exact ho.stop x x hx hx s h

variable (ops) in
/-- One turn of the loop: the pivot goes between the sides. -/
theorem turn_spec {head tail : Int} (h0 : 0 ≤ head) (hlt : head < tail) (hin : tail < items.size) (hP : ∀ i x, load items i = some x → P x)
    (s : ω) (hpivot : load items tail = some pivot) {fuel : Nat} (hfuel : tail - head + 1 ≤ fuel) :
    ∃ items₁ items₂ h t s', partitionLoop ops (ops.key pivot s).1 fuel items (head - 1) tail (ops.key pivot s).2 = some (items₁, h, t, s') ∧
      exchange items₁ h tail = some items₂ ∧ Exchanged head tail items items₂ ∧ head ≤ h ∧ h ≤ tail ∧ (t = h - 1 ∨ t = h ∧ h < tail) ∧
      load items₂ h = some pivot ∧ (Ordered ops P k R → All items₂ head h (R · pivot) ∧ All items₂ (h + 1) tail (R pivot)) := by
  have hPpivot := hP _ _ hpivot
  obtain ⟨items₁, h, t, s', hrun, hexchanged, hb1, hb2, hb3, hordered⟩ := partitionLoop_spec ops (v := (ops.key pivot s).1) (k := k)
    (R := R) h0 hPpivot fuel items (head - 1) tail (ops.key pivot s).2 hin hP (le_refl _) (by omega) (le_refl _) (by omega)
  have hsize := hexchanged.size
  have hlast : load items₁ tail = some pivot := by rw [hexchanged.outside (by omega), hpivot]
  obtain ⟨items₂, hexchange, -, hsize₂, hload⟩ := exchange_spec (a := items₁) (i := h) (j := tail) (by omega) (by omega)
  have hat : load items₂ h = some pivot := by
    rw [hload]
    by_cases he : h = tail
    · rw [if_pos he, he, hlast]
    · rw [if_neg he, if_pos rfl, hlast]
  have hwhole : Exchanged head tail items items₂ :=
    (hexchanged.mono (le_refl _) (by omega) h0 (by omega)).trans (Exchanged.single h0 (by omega) (by omega) (by omega) hexchange)
  refine ⟨items₁, items₂, h, t, s', hrun, hexchange, hwhole, hb1, hb2, hb3, hat, fun ho => ?_⟩
  obtain ⟨hleft, hright⟩ := hordered ho (ho.key pivot hPpivot s) (fun i hi hi' => by omega) (fun i hi hi' => by omega)
  constructor
  · intro i hi hi' x hx
    by_cases he : i = h
    · rw [he, hat] at hx
      cases hx
      exact ho.refl hPpivot s
    · rw [hload, if_neg (by omega), if_neg he] at hx
      exact hleft i hi (by omega) x hx
  · intro i hi hi' x hx
    rw [hload] at hx
    by_cases he : i = tail
    · rw [if_pos he] at hx
      exact hright h (le_refl _) (by omega) x hx
    · rw [if_neg he, if_neg (by omega)] at hx
      exact hright i (by omega) (by omega) x hx

/-- The loop sorts what it is given, when the calls it makes sort up to half of it. -/
theorem sortLoop_sorts {N : Nat} {sort : Array α → Int → Int → ω → Option (Array α × ω)} (hsort : 1 < N → Sorts ops P k R (N / 2) sort)
    (fuel : Nat) (items : Array α) (head tail : Int) (s : ω) (h0 : 0 ≤ head) (hin : tail < items.size) (hP : ∀ i x, load items i = some x → P x)
    (hN : tail - head + 1 ≤ N) (hfuel : tail - head + 1 < fuel) (hpos : 0 < fuel) :
    ∃ items' s', sortLoop ops sort fuel items head tail s = some (items', s') ∧ Exchanged head tail items items' ∧
      (Ordered ops P k R → InOrder R items' head tail) := by
  induction fuel generalizing items head tail s with
  | zero => omega
  | succ fuel ih =>
    unfold sortLoop
    by_cases hlt : head < tail
    · obtain ⟨pivot, hpivot⟩ := load_some items (show 0 ≤ tail by omega) hin
      obtain ⟨items₁, items₂, h, t, s₂, hpartition, hexchange, hex₂, hb1, hb2, hb3, hat, hordered⟩ := turn_spec ops (k := k) (R := R)
        h0 hlt hin hP s hpivot (show tail - head + 1 ≤ ((fuel + 1 : Nat) : Int) by omega)
      have hsize₂ := hex₂.size
      have hP₂ := hex₂.every hP
      simp only [if_pos hlt, hpivot, hpartition, hexchange, Option.bind_eq_bind, Option.bind_some]
      by_cases hsmaller : t - head < tail - h - 1
      · obtain ⟨items₃, s₃, hrun₃, hex₃, hin₃⟩ := hsort (by omega) items₂ head t s₂ h0 (by omega) hP₂ (by omega)
        have hsize₃ := hex₃.size
        obtain ⟨items₄, s₄, hrun₄, hex₄, hin₄⟩ := ih items₃ (h + 1) tail s₃ (by omega) (by omega) (hex₃.every hP₂) (by omega) (by omega) (by omega)
        simp only [if_pos hsmaller, hrun₃, Option.bind_some]
        refine ⟨items₄, s₄, hrun₄, (hex₂.trans (hex₃.mono (le_refl _) (by omega) h0 (by omega))).trans
          (hex₄.mono (by omega) (le_refl _) h0 (by omega)), fun ho => ?_⟩
        obtain ⟨hleft, hright⟩ := hordered ho
        refine InOrder.join ho.trans (by omega) ?_ ((hleft.inside hex₃ (le_refl _) (by omega)).outside hex₄ (by omega))
          ((hright.outside hex₃ (by omega)).inside hex₄ (le_refl _) (le_refl _)) ((hin₃ ho).outside hex₄ (by omega)) (hin₄ ho)
        rcases hb3 with rfl | ⟨rfl, -⟩
        · left
          rw [hex₄.outside (by omega), hex₃.outside (by omega), hat]
        · exact .inr rfl
      · obtain ⟨items₃, s₃, hrun₃, hex₃, hin₃⟩ := hsort (by omega) items₂ (h + 1) tail s₂ (by omega) (by omega) hP₂ (by omega)
        have hsize₃ := hex₃.size
        obtain ⟨items₄, s₄, hrun₄, hex₄, hin₄⟩ := ih items₃ head t s₃ h0 (by omega) (hex₃.every hP₂) (by omega) (by omega) (by omega)
        simp only [if_neg hsmaller, hrun₃, Option.bind_some]
        refine ⟨items₄, s₄, hrun₄, (hex₂.trans (hex₃.mono (by omega) (le_refl _) h0 (by omega))).trans
          (hex₄.mono (le_refl _) (by omega) h0 (by omega)), fun ho => ?_⟩
        obtain ⟨hleft, hright⟩ := hordered ho
        refine InOrder.join ho.trans (by omega) ?_ ((hleft.outside hex₃ (by omega)).inside hex₄ (le_refl _) (by omega))
          ((hright.inside hex₃ (le_refl _) (le_refl _)).outside hex₄ (by omega)) (hin₄ ho) ((hin₃ ho).outside hex₄ (by omega))
        rcases hb3 with rfl | ⟨rfl, -⟩
        · left
          rw [hex₄.outside (by omega), hex₃.outside (by omega), hat]
        · exact .inr rfl
    · rw [if_neg hlt]
      exact ⟨items, s, rfl, .refl _, fun _ i j h1 h2 h3 => by omega⟩

theorem mpQuicksort_sorts {fuel : Nat} (depth N : Nat) (hN : N < 2 ^ (depth + 1)) (hfuel : N < fuel) :
    Sorts ops P k R N (mpQuicksort ops fuel (depth + 1)) := by
  induction depth generalizing N with
  | zero =>
    intro items head tail s h0 hin hP hle
    exact sortLoop_sorts (fun h => by omega) fuel items head tail s h0 hin hP hle (by omega) (by omega)
  | succ depth ih =>
    intro items head tail s h0 hin hP hle
    exact sortLoop_sorts (fun _ => ih (N / 2) (by omega) (by omega)) fuel items head tail s h0 hin hP hle (by omega) (by omega)

/-- The order that `list.sort` leaves the keys in. -/
def Sorted (reverse : Bool) (lt : α → α → Prop) (k : α → α) (x y : α) : Prop := if reverse then ¬ lt (k x) (k y) else ¬ lt (k y) (k x)

theorem mpObjListSort_spec (consts : Consts α) (key : Option (α → ω → α × ω)) (less : α → α → ω → α × ω) (reverse : Bool) (items : Array α) (s : ω)
    (fuel depth : Nat) (hfuel : items.size < fuel) (hdepth : items.size < 2 ^ depth) :
    ∃ items' s', mpObjListSort consts fuel depth key less reverse items s = some (items', s') ∧ items'.Perm items ∧
      ∀ k lt, Compares consts (sortOps consts key less reverse) items k lt → items'.toList.Pairwise (Sorted reverse lt k) := by
  unfold mpObjListSort
  by_cases hlen : items.size > 1
  · rw [if_pos hlen]
    obtain ⟨depth, rfl⟩ : ∃ d, depth = d + 1 := by
      cases depth with
      | zero => omega
      | succ d => exact ⟨d, rfl⟩
    have hsorts : ∀ k R, Sorts (sortOps consts key less reverse) (· ∈ items) k R items.size
        (mpQuicksort (sortOps consts key less reverse) fuel (depth + 1)) := fun k R => mpQuicksort_sorts depth items.size hdepth hfuel
    have hmem : ∀ i x, load items i = some x → x ∈ items := fun i x hx => by
      unfold load at hx
      split at hx
      · exact Array.mem_of_getElem? hx
      · cases hx
    obtain ⟨items', s', hrun, hexchanged, -⟩ := hsorts id (fun _ _ => True) items 0 (items.size - 1) s (le_refl _) (by omega) hmem (by omega)
    refine ⟨items', s', hrun, hexchanged.perm, fun k lt hcompares => ?_⟩
    have hordered : ∀ R, Ordered (sortOps consts key less reverse) (· ∈ items) k R → items'.toList.Pairwise R := fun R ho => by
      obtain ⟨items₂, s₂, hrun₂, -, hin⟩ := hsorts k R items 0 (items.size - 1) s (le_refl _) (by omega) hmem (by omega)
      rw [hrun] at hrun₂
      cases hrun₂
      rw [← hexchanged.size] at hin
      exact (hin ho).pairwise
    cases reverse with
    | false => exact (hordered _ (hcompares.ascending rfl)).imp fun h => h.2.2
    | true => exact (hordered _ (hcompares.descending rfl)).imp fun h => h.2.2
  · rw [if_neg hlen]
    refine ⟨items, s, rfl, Array.Perm.refl _, fun k lt _ => ?_⟩
    rw [List.pairwise_iff_getElem]
    intro i j hi hj hij
    rw [Array.length_toList] at hi hj
    omega

end PythonUltra.Py.Quicksort
