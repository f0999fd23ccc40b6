/-
  PythonUltra.Lib.Mark — marking a graph with a stack of fixed size.

  The nodes are `objects`; `white` are those not marked yet. A node is marked when it is
  met, and pushed so that its children are looked at later. When the stack is full it is
  marked all the same, and `overflow` says that a marked node may have white children:
  every marked node is then looked at again, until that happens no more.

  A marked node is `Closed` when none of its children is white. While `overflow` is not
  set, every marked node is closed or will be looked at (`Pending`); a node popped is
  closed by its scan, and nothing opens it again since nodes only turn from white.
-/

import Mathlib.Data.Finset.Card
import Mathlib.Data.Finset.Basic

namespace PythonUltra.Lib.Mark

variable {α : Type} [DecidableEq α]

structure State (α : Type) where
  white : Finset α
  stack : List α
  overflow : Bool

variable (children : α → List α) (cap : Nat)

def visit (s : State α) (y : α) : State α :=
  if y ∈ s.white then
    if s.stack.length < cap then { s with white := s.white.erase y, stack := y :: s.stack }
    else { s with white := s.white.erase y, overflow := true }
  else s

def scan (s : State α) (x : α) : State α := (children x).foldl (visit cap) s

/-- From `x` on, until the stack is empty; the number bounds the turns. -/
def drain : Nat → State α → α → Option (State α)
  | 0, _, _ => none
  | n + 1, s, x =>
    let s := scan children cap s x
    match s.stack with
    | [] => some s
    | y :: st => drain n { s with stack := st } y

def root (n : Nat) (s : State α) (x : α) : Option (State α) :=
  if x ∈ s.white then drain children cap n { s with white := s.white.erase x } x else some s

/-- Every marked node again, in the order of `nodes`. -/
def rescan (n : Nat) (objects : Finset α) (nodes : List α) (s : State α) : Option (State α) :=
  nodes.foldlM (fun s x => if x ∈ objects ∧ x ∉ s.white then drain children cap n s x else some s) s

def settle (n : Nat) (objects : Finset α) (nodes : List α) : Nat → State α → Option (State α)
  | 0, _ => none
  | k + 1, s =>
    if s.overflow then do
      let s ← rescan children cap n objects nodes { s with overflow := false }
      settle n objects nodes k s
    else some s

def collect (n : Nat) (objects : Finset α) (nodes roots : List α) : Option (State α) := do
  let s ← roots.foldlM (root children cap n) ⟨objects, [], false⟩
  settle children cap n objects nodes n s

/-! ## One node -/

variable {children cap} {s s' : State α} {x y z : α} {n : Nat}

/-- What looking at some nodes may do: it marks, and pushes or tells that it could not. -/
structure Step (s s' : State α) : Prop where
  white : s'.white ⊆ s.white
  stack : ∀ z ∈ s.stack, z ∈ s'.stack
  overflow : s.overflow = true → s'.overflow = true
  pushed : ∀ z ∈ s.white, z ∉ s'.white → z ∈ s'.stack ∨ s'.overflow = true
  marked : ∀ z ∈ s'.stack, z ∈ s.stack ∨ z ∈ s.white ∧ z ∉ s'.white
  measure : s'.white.card + s'.stack.length ≤ s.white.card + s.stack.length
  progress : s'.overflow = true → s.overflow = true ∨ s'.white.card < s.white.card

omit [DecidableEq α] in
theorem Step.refl : Step s s :=
  ⟨fun _ h => h, fun _ h => h, id, fun _ h h' => absurd h h', fun _ h => .inl h, Nat.le_refl _, .inl⟩

theorem Step.trans {s₁ s₂ : State α} (h1 : Step s s₁) (h2 : Step s₁ s₂) : Step s s₂ := by
  refine ⟨fun z hz => h1.white (h2.white hz), fun z hz => h2.stack z (h1.stack z hz), fun h => h2.overflow (h1.overflow h), ?_, ?_,
    Nat.le_trans h2.measure h1.measure, ?_⟩
  · intro z hz hz'
    by_cases hmid : z ∈ s₁.white
    · exact h2.pushed z hmid hz'
    · rcases h1.pushed z hz hmid with hst | hov
      · exact .inl (h2.stack z hst)
      · exact .inr (h2.overflow hov)
  · intro z hz
    rcases h2.marked z hz with hst | ⟨hw, hw'⟩
    · rcases h1.marked z hst with hst | ⟨hw, hw'⟩
      · exact .inl hst
      · exact .inr ⟨hw, fun h => hw' (h2.white h)⟩
    · exact .inr ⟨h1.white hw, hw'⟩
  · intro hov
    have hle := Finset.card_le_card h1.white
    have hle' := Finset.card_le_card h2.white
    rcases h2.progress hov with hov | hlt
    · rcases h1.progress hov with hov | hlt
      · exact .inl hov
      · exact .inr (by omega)
    · exact .inr (by omega)

variable (cap) in
theorem visit_step : Step s (visit cap s y) ∧ y ∉ (visit cap s y).white ∧ ∀ z ∈ s.white, z ∉ (visit cap s y).white → z = y := by
  unfold visit
  by_cases hy : y ∈ s.white
  · have hcard := Finset.card_erase_add_one hy
    have hleft : ∀ z ∈ s.white, z ∉ s.white.erase y → z = y := by
      intro z hz hz'
      by_contra hne
      exact hz' (Finset.mem_erase.mpr ⟨hne, hz⟩)
    rw [if_pos hy]
    by_cases hroom : s.stack.length < cap
    · rw [if_pos hroom]
      refine ⟨⟨Finset.erase_subset _ _, fun z hz => List.mem_cons_of_mem _ hz, id, ?_, ?_, ?_, .inl⟩, Finset.notMem_erase _ _, hleft⟩
      · intro z hz hz'
        exact .inl (hleft z hz hz' ▸ List.mem_cons_self)
      · intro z hz
        rcases List.mem_cons.mp hz with rfl | hz
        · exact .inr ⟨hy, Finset.notMem_erase _ _⟩
        · exact .inl hz
      · show (s.white.erase y).card + (s.stack.length + 1) ≤ _
        omega
    · rw [if_neg hroom]
      refine ⟨⟨Finset.erase_subset _ _, fun z hz => hz, fun _ => rfl, fun _ _ _ => .inr rfl, fun z hz => .inl hz, ?_, fun _ => .inr ?_⟩,
        Finset.notMem_erase _ _, hleft⟩
      · show (s.white.erase y).card + s.stack.length ≤ _
        omega
      · show (s.white.erase y).card < _
        omega
  · rw [if_neg hy]
    exact ⟨.refl, hy, fun z hz hz' => absurd hz hz'⟩

variable (cap) in
/-- All of `ys`: none of them stays white, and nothing else changes colour. -/
theorem visits_step (ys : List α) :
    Step s (ys.foldl (visit cap) s) ∧ (∀ y ∈ ys, y ∉ (ys.foldl (visit cap) s).white) ∧
      ∀ z ∈ s.white, z ∉ (ys.foldl (visit cap) s).white → z ∈ ys := by
  induction ys generalizing s with
  | nil => exact ⟨.refl, fun y hy => absurd hy List.not_mem_nil, fun z hz hz' => absurd hz hz'⟩
  | cons y ys ih =>
    obtain ⟨hstep, hy, hleft⟩ := visit_step cap (s := s) (y := y)
    obtain ⟨hstep', hys, hleft'⟩ := ih (s := visit cap s y)
    refine ⟨hstep.trans hstep', ?_, ?_⟩
    · intro z hz
      rcases List.mem_cons.mp hz with rfl | hz
      · exact fun h => hy (hstep'.white h)
      · exact hys z hz
    · intro z hz hz'
      by_cases hmid : z ∈ (visit cap s y).white
      · exact List.mem_cons_of_mem _ (hleft' z hmid hz')
      · exact hleft z hz hmid ▸ List.mem_cons_self

/-! ## Until the stack is empty -/

/-- Everything a node points at is marked. -/
def Closed (children : α → List α) (s : State α) (x : α) : Prop := ∀ y ∈ children x, y ∉ s.white

/-- The marked nodes among `objects` are closed, but those still to be looked at. -/
def Pending (children : α → List α) (objects : Finset α) (s : State α) (todo : α → Prop) : Prop :=
  s.overflow = true ∨ ∀ x ∈ objects, x ∉ s.white → ¬ todo x → Closed children s x

omit [DecidableEq α] in
theorem Closed.step (hc : Closed children s x) (hs : s'.white ⊆ s.white) : Closed children s' x := fun y hy h => hc y hy (hs h)

/-- What `drain` leaves. -/
structure Drained (children : α → List α) (objects : Finset α) (s s' : State α) (x : α) : Prop where
  white : s'.white ⊆ s.white
  stack : s'.stack = []
  overflow : s.overflow = true → s'.overflow = true
  progress : s'.overflow = true → s.overflow = true ∨ s'.white.card < s.white.card
  pending : ∀ todo : α → Prop, Pending children objects s (fun z => z = x ∨ z ∈ s.stack ∨ todo z) → Pending children objects s' todo
  sound : ∀ P : α → Prop, P x → (∀ z ∈ s.stack, P z) → (∀ z, P z → ∀ y ∈ children z, y ∈ s.white → P y) →
    ∀ z ∈ s.white, z ∉ s'.white → P z

variable (children cap) in
theorem drain_spec (objects : Finset α) (hn : s.white.card + s.stack.length < n) :
    ∃ s', drain children cap n s x = some s' ∧ Drained children objects s s' x := by
  induction n generalizing s x with
  | zero => omega
  | succ n ih =>
    obtain ⟨hstep, hclosed, honly⟩ := visits_step cap (children x) (s := s)
    change Step s (scan children cap s x) at hstep
    change ∀ y ∈ children x, y ∉ (scan children cap s x).white at hclosed
    change ∀ z ∈ s.white, z ∉ (scan children cap s x).white → z ∈ children x at honly
    have hmeasure := hstep.measure
    -- `x` is closed now; whatever the scan marked is on the stack
    have hpending : ∀ todo : α → Prop, Pending children objects s (fun z => z = x ∨ z ∈ s.stack ∨ todo z) →
        Pending children objects (scan children cap s x) (fun z => z ∈ (scan children cap s x).stack ∨ todo z) := by
      intro todo hp
      rcases hp with hov | hp
      · exact .inl (hstep.overflow hov)
      · by_cases hov : (scan children cap s x).overflow = true
        · exact .inl hov
        · refine .inr fun z hz hwhite htodo => ?_
          obtain ⟨hstack, htodo⟩ := not_or.mp htodo
          by_cases hzx : z = x
          · rw [hzx]
            exact hclosed
          · by_cases hw : z ∈ s.white
            · exact absurd (hstep.pushed z hw hwhite) (not_or.mpr ⟨hstack, hov⟩)
            · refine (hp z hz hw ?_).step hstep.white
              rintro (h | h | h)
              · exact hzx h
              · exact hstack (hstep.stack z h)
              · exact htodo h
    rw [drain]
    cases hst : (scan children cap s x).stack with
    | nil =>
      refine ⟨_, rfl, hstep.white, hst, hstep.overflow, hstep.progress, fun todo hp => ?_, fun P hx _ hedge z hz hz' => ?_⟩
      · have := hpending todo hp
        rw [hst] at this
        simpa using this
      · exact hedge x hx z (honly z hz hz') hz
    | cons y st =>
      have hlen : s.white.card + s.stack.length < n + 1 := hn
      rw [hst, List.length_cons] at hmeasure
      obtain ⟨s', hrun, hd⟩ := ih (s := { scan children cap s x with stack := st }) (x := y) (by
        show (scan children cap s x).white.card + st.length < n
        omega)
      refine ⟨s', hrun, hd.white.trans hstep.white, hd.stack, fun h => hd.overflow (hstep.overflow h), fun hov => ?_, fun todo hp => ?_,
        fun P hx hstk hedge z hz hz' => ?_⟩
      · have hle := Finset.card_le_card hstep.white
        have hle' := Finset.card_le_card hd.white
        change s'.white.card ≤ (scan children cap s x).white.card at hle'
        rcases hd.progress hov with hov | hlt
        · rcases hstep.progress hov with hov | hlt
          · exact .inl hov
          · exact .inr (by omega)
        · change s'.white.card < (scan children cap s x).white.card at hlt
          exact .inr (by omega)
      · refine hd.pending todo ?_
        have hp' := hpending todo hp
        rw [hst] at hp'
        simpa [Pending, Closed, or_assoc] using hp'
      · have hnew : ∀ z ∈ s.white, z ∉ (scan children cap s x).white → P z := fun z hz hz' => hedge x hx z (honly z hz hz') hz
        have hstk' : ∀ z ∈ y :: st, P z := by
          intro z hz
          rw [← hst] at hz
          rcases hstep.marked z hz with hz | ⟨hw, hw'⟩
          · exact hstk z hz
          · exact hnew z hw hw'
        by_cases hmid : z ∈ (scan children cap s x).white
        · exact hd.sound P (hstk' y List.mem_cons_self) (fun z hz => hstk' z (List.mem_cons_of_mem _ hz))
            (fun z hz y hy hw => hedge z hz y hy (hstep.white hw)) z hmid hz'
        · exact hnew z hz hmid

/-! ## Roots, and overflow -/

/-- What can be reached from `roots` through objects. -/
inductive Reach (children : α → List α) (objects : Finset α) (roots : List α) : α → Prop
  | root {x : α} : x ∈ roots → x ∈ objects → Reach children objects roots x
  | child {x y : α} : Reach children objects roots x → y ∈ children x → y ∈ objects → Reach children objects roots y

variable {objects : Finset α} {roots : List α}

omit [DecidableEq α] in
theorem Reach.mem (h : Reach children objects roots x) : x ∈ objects := by
  cases h <;> assumption

/-- The state between two calls. -/
structure Tidy (children : α → List α) (objects : Finset α) (s : State α) (todo : α → Prop) : Prop where
  white : s.white ⊆ objects
  stack : s.stack = []
  pending : Pending children objects s todo

variable (cap) in
theorem Tidy.drain {todo : α → Prop} (ht : Tidy children objects s (fun z => z = x ∨ todo z)) (hn : s.white.card < n) :
    ∃ s', drain children cap n s x = some s' ∧ Drained children objects s s' x ∧ Tidy children objects s' todo := by
  obtain ⟨s', hrun, hd⟩ := drain_spec children cap objects (s := s) (x := x) (n := n)
    (by rw [ht.stack]; exact hn)
  refine ⟨s', hrun, hd, hd.white.trans ht.white, hd.stack, hd.pending todo ?_⟩
  have hp := ht.pending
  simpa [Pending, ht.stack] using hp

variable (cap roots) in
/-- Marking from a list of roots. -/
theorem roots_spec (ht : Tidy children objects s fun _ => False) (hn : s.white.card ≤ n) :
    ∃ s', roots.foldlM (root children cap (n + 1)) s = some s' ∧ Tidy children objects s' (fun _ => False) ∧ s'.white ⊆ s.white ∧
      (∀ r ∈ roots, r ∉ s'.white) ∧
      ∀ P : α → Prop, (∀ r ∈ roots, r ∈ s.white → P r) → (∀ z, P z → ∀ y ∈ children z, y ∈ s.white → P y) →
        ∀ z ∈ s.white, z ∉ s'.white → P z := by
  induction roots generalizing s with
  | nil => exact ⟨s, rfl, ht, fun _ h => h, fun r hr => absurd hr List.not_mem_nil, fun _ _ _ z hz hz' => absurd hz hz'⟩
  | cons r roots ih =>
    obtain ⟨s₁, hrun₁, ht₁, hsub₁, hr₁, hsound₁⟩ : ∃ s₁, root children cap (n + 1) s r = some s₁ ∧ Tidy children objects s₁ (fun _ => False) ∧
        s₁.white ⊆ s.white ∧ r ∉ s₁.white ∧ ∀ P : α → Prop, (r ∈ s.white → P r) → (∀ z, P z → ∀ y ∈ children z, y ∈ s.white → P y) →
          ∀ z ∈ s.white, z ∉ s₁.white → P z := by
      unfold root
      by_cases hr : r ∈ s.white
      · rw [if_pos hr]
        have hcard := Finset.card_erase_add_one hr
        have hsub : s.white.erase r ⊆ s.white := Finset.erase_subset _ _
        have ht' : Tidy children objects { s with white := s.white.erase r } (fun z => z = r ∨ False) := by
          refine ⟨hsub.trans ht.white, ht.stack, ht.pending.imp id fun hp z hz hw htodo => ?_⟩
          obtain ⟨hzr, -⟩ := not_or.mp htodo
          exact (hp z hz (fun h => hw (Finset.mem_erase.mpr ⟨hzr, h⟩)) not_false).step hsub
        obtain ⟨s₁, hrun, hd, ht₁⟩ := ht'.drain cap (n := n + 1) (by show (s.white.erase r).card < _; omega)
        refine ⟨s₁, hrun, ht₁, hd.white.trans hsub, fun h => Finset.notMem_erase r s.white (hd.white h), fun P hPr hedge z hz hz' => ?_⟩
        by_cases hzr : z = r
        · exact hzr ▸ hPr hr
        · refine hd.sound P (hPr hr) ?_ (fun z hz y hy hw => hedge z hz y hy (hsub hw)) z (Finset.mem_erase.mpr ⟨hzr, hz⟩) hz'
          intro z hz
          rw [show ({ s with white := s.white.erase r } : State α).stack = [] from ht.stack] at hz
          exact absurd hz List.not_mem_nil
      · rw [if_neg hr]
        exact ⟨s, rfl, ht, fun _ h => h, hr, fun _ _ _ z hz hz' => absurd hz hz'⟩
    obtain ⟨s', hrun', ht', hsub', hr', hsound'⟩ := ih ht₁ (Nat.le_trans (Finset.card_le_card hsub₁) hn)
    refine ⟨s', ?_, ht', hsub'.trans hsub₁, ?_, ?_⟩
    · rw [List.foldlM_cons, hrun₁]
      exact hrun'
    · intro z hz
      rcases List.mem_cons.mp hz with rfl | hz
      · exact fun h => hr₁ (hsub' h)
      · exact hr' z hz
    · intro P hroots hedge z hz hz'
      by_cases hmid : z ∈ s₁.white
      · exact hsound' P (fun r hr hw => hroots r (List.mem_cons_of_mem _ hr) (hsub₁ hw)) (fun z hz y hy hw => hedge z hz y hy (hsub₁ hw)) z hmid hz'
      · exact hsound₁ P (hroots r List.mem_cons_self) hedge z hz hmid

variable (cap) in
theorem rescan_spec {nodes : List α} (ht : Tidy children objects s fun z => z ∈ nodes) (hn : s.white.card ≤ n) :
    ∃ s', rescan children cap (n + 1) objects nodes s = some s' ∧ Tidy children objects s' (fun _ => False) ∧ s'.white ⊆ s.white ∧
      (s'.overflow = true → s.overflow = true ∨ s'.white.card < s.white.card) ∧
      ∀ P : α → Prop, (∀ z ∈ objects, z ∉ s.white → P z) → (∀ z, P z → ∀ y ∈ children z, y ∈ s.white → P y) →
        ∀ z ∈ s.white, z ∉ s'.white → P z := by
  induction nodes generalizing s with
  | nil =>
    refine ⟨s, rfl, ⟨ht.white, ht.stack, ?_⟩, fun _ h => h, .inl, fun _ _ _ z hz hz' => absurd hz hz'⟩
    have hp := ht.pending
    simpa [Pending] using hp
  | cons x nodes ih =>
    obtain ⟨s₁, hrun₁, ht₁, hsub₁, hprog₁, hsound₁⟩ : ∃ s₁, (if x ∈ objects ∧ x ∉ s.white then drain children cap (n + 1) s x else some s) = some s₁ ∧
        Tidy children objects s₁ (fun z => z ∈ nodes) ∧ s₁.white ⊆ s.white ∧ (s₁.overflow = true → s.overflow = true ∨ s₁.white.card < s.white.card) ∧
        ∀ P : α → Prop, (∀ z ∈ objects, z ∉ s.white → P z) → (∀ z, P z → ∀ y ∈ children z, y ∈ s.white → P y) →
          ∀ z ∈ s.white, z ∉ s₁.white → P z := by
      by_cases hx : x ∈ objects ∧ x ∉ s.white
      · rw [if_pos hx]
        have ht' : Tidy children objects s (fun z => z = x ∨ z ∈ nodes) := by
          refine ⟨ht.white, ht.stack, ?_⟩
          have hp := ht.pending
          simpa [Pending] using hp
        obtain ⟨s₁, hrun, hd, ht₁⟩ := ht'.drain cap (n := n + 1) (by omega)
        refine ⟨s₁, hrun, ht₁, hd.white, hd.progress, fun P hmarked hedge => hd.sound P (hmarked x hx.1 hx.2) ?_ hedge⟩
        intro z hz
        rw [ht.stack] at hz
        exact absurd hz List.not_mem_nil
      · -- not an object, or white: then it is not marked
        rw [if_neg hx]
        refine ⟨s, rfl, ⟨ht.white, ht.stack, ht.pending.imp id fun hp z hz hw htodo => hp z hz hw ?_⟩, fun _ h => h, .inl,
          fun _ _ _ z hz hz' => absurd hz hz'⟩
        intro hmem
        rcases List.mem_cons.mp hmem with rfl | hmem
        · exact hx ⟨hz, hw⟩
        · exact htodo hmem
    obtain ⟨s', hrun', ht', hsub', hprog', hsound'⟩ := ih ht₁ (Nat.le_trans (Finset.card_le_card hsub₁) hn)
    refine ⟨s', ?_, ht', hsub'.trans hsub₁, fun hov => ?_, fun P hmarked hedge z hz hz' => ?_⟩
    · rw [rescan, List.foldlM_cons, hrun₁]
      exact hrun'
    · have hle := Finset.card_le_card hsub₁
      have hle' := Finset.card_le_card hsub'
      rcases hprog' hov with hov | hlt
      · rcases hprog₁ hov with hov | hlt
        · exact .inl hov
        · exact .inr (by omega)
      · exact .inr (by omega)
    · have hnew := hsound₁ P hmarked hedge
      by_cases hmid : z ∈ s₁.white
      · refine hsound' P (fun z hz hw => ?_) (fun z hz y hy hw => hedge z hz y hy (hsub₁ hw)) z hmid hz'
        by_cases hw' : z ∈ s.white
        · exact hnew z hw' hw
        · exact hmarked z hz hw'
      · exact hnew z hz hmid

theorem settle_of_not {nodes : List α} {k : Nat} (h : s.overflow = false) : settle children cap n objects nodes (k + 1) s = some s := by
  rw [settle, h]
  rfl

variable (cap) in
/-- Every turn but the last marks something. -/
theorem settle_spec {nodes : List α} {k : Nat} (hnodes : ∀ x ∈ objects, x ∈ nodes) (ht : Tidy children objects s fun _ => False)
    (hn : s.white.card ≤ n) (hk : s.white.card + 1 < k) :
    ∃ s', settle children cap (n + 1) objects nodes k s = some s' ∧ Tidy children objects s' (fun _ => False) ∧ s'.overflow = false ∧
      s'.white ⊆ s.white ∧ ∀ P : α → Prop, (∀ z ∈ objects, z ∉ s.white → P z) → (∀ z, P z → ∀ y ∈ children z, y ∈ s.white → P y) →
        ∀ z ∈ s.white, z ∉ s'.white → P z := by
  induction k generalizing s with
  | zero => omega
  | succ k ih =>
    cases hov : s.overflow with
    | false => exact ⟨s, settle_of_not hov, ht, hov, fun _ h => h, fun _ _ _ z hz hz' => absurd hz hz'⟩
    | true =>
      have ht' : Tidy children objects { s with overflow := false } (fun z => z ∈ nodes) :=
        ⟨ht.white, ht.stack, .inr fun x hx _ htodo => absurd (hnodes x hx) htodo⟩
      obtain ⟨s₁, hrun₁, ht₁, hsub₁, hprog₁, hsound₁⟩ := rescan_spec cap ht' hn
      change s₁.white ⊆ s.white at hsub₁
      have hbound := Finset.card_le_card hsub₁
      have hunfold : settle children cap (n + 1) objects nodes (k + 1) s = settle children cap (n + 1) objects nodes k s₁ := by
        rw [settle, hov, if_pos rfl, hrun₁]
        rfl
      rw [hunfold]
      have hmore : ∃ s', settle children cap (n + 1) objects nodes k s₁ = some s' ∧ Tidy children objects s' (fun _ => False) ∧ s'.overflow = false ∧
          s'.white ⊆ s₁.white ∧ ∀ P : α → Prop, (∀ z ∈ objects, z ∉ s₁.white → P z) → (∀ z, P z → ∀ y ∈ children z, y ∈ s₁.white → P y) →
            ∀ z ∈ s₁.white, z ∉ s'.white → P z := by
        cases hov₁ : s₁.overflow with
        | false =>
          obtain ⟨k, rfl⟩ : ∃ k', k = k' + 1 := ⟨k - 1, by omega⟩
          exact ⟨s₁, settle_of_not hov₁, ht₁, hov₁, fun _ h => h, fun _ _ _ z hz hz' => absurd hz hz'⟩
        | true =>
          rcases hprog₁ hov₁ with h | hlt
          · exact absurd h Bool.false_ne_true
          · change s₁.white.card < s.white.card at hlt
            exact ih ht₁ (by omega) (by omega)
      obtain ⟨s', hrun', ht', hov', hsub', hsound'⟩ := hmore
      refine ⟨s', hrun', ht', hov', hsub'.trans hsub₁, fun P hmarked hedge z hz hz' => ?_⟩
      have hnew := hsound₁ P hmarked hedge
      by_cases hmid : z ∈ s₁.white
      · refine hsound' P (fun z hz hw => ?_) (fun z hz y hy hw => hedge z hz y hy (hsub₁ hw)) z hmid hz'
        by_cases hw' : z ∈ s.white
        · exact hnew z hw' hw
        · exact hmarked z hz hw'
      · exact hnew z hz hmid

variable (children cap objects roots) in
/-- Marking ends, and what stays white is what cannot be reached. -/
theorem collect_spec (nodes : List α) (hnodes : ∀ x ∈ objects, x ∈ nodes) (hn : objects.card + 1 < n) :
    ∃ s, collect children cap n objects nodes roots = some s ∧ s.stack = [] ∧ s.overflow = false ∧
      ∀ x, x ∈ s.white ↔ x ∈ objects ∧ ¬ Reach children objects roots x := by
  obtain ⟨n, rfl⟩ : ∃ n', n = n' + 1 := ⟨n - 1, by omega⟩
  have hstart : Tidy children objects ⟨objects, [], false⟩ (fun _ => False) :=
    ⟨fun _ h => h, rfl, .inr fun x hx hw => absurd hx hw⟩
  obtain ⟨s₁, hrun₁, ht₁, hsub₁, hroots, hsound₁⟩ := roots_spec cap roots (n := n) hstart (show objects.card ≤ n by omega)
  change s₁.white ⊆ objects at hsub₁
  have hle := Finset.card_le_card hsub₁
  obtain ⟨s, hrun, ht, hov, hsub, hsound⟩ := settle_spec cap (n := n) (k := n + 1) hnodes ht₁ (by omega) (by omega)
  have hmarked₁ : ∀ z ∈ objects, z ∉ s₁.white → Reach children objects roots z :=
    hsound₁ _ (fun r hr hobj => .root hr hobj) fun z hz y hy hobj => .child hz hy hobj
  have hmarked : ∀ z ∈ objects, z ∉ s.white → Reach children objects roots z := by
    intro z hz hw
    by_cases hmid : z ∈ s₁.white
    · exact hsound _ hmarked₁ (fun z hz y hy hw => .child hz hy (hsub₁ hw)) z hmid hw
    · exact hmarked₁ z hz hmid
  have hreached : ∀ z, Reach children objects roots z → z ∉ s.white := by
    intro z hz
    induction hz with
    | root hr _ => exact fun h => hroots _ hr (hsub h)
    | child hx hy _ ih =>
      rcases ht.pending with h | hclosed
      · exact absurd (hov.symm.trans h) Bool.false_ne_true
      · exact hclosed _ hx.mem ih not_false _ hy
  refine ⟨s, ?_, ht.stack, hov, fun x => ⟨fun hx => ⟨ht.white hx, fun hr => hreached x hr hx⟩, fun hx => ?_⟩⟩
  · rw [collect, hrun₁]
    exact hrun
  · by_contra hw
    exact hx.2 (hmarked x hx.1 hw)

end PythonUltra.Lib.Mark
