/-
  PythonUltra.Sh.Resources — the timers freed after an execution (ports/sh/resources.c).

  gint hands out timer numbers and takes them back: timer_configure answers a number that is
  not in use, timer_stop releases it. `timer_used` has a bit for each number that
  pe_timer_configure has handed out; pe_timer_stop clears it, pe_resources_autofree stops
  every number whose bit is set.

  Proved: an autofree stops the timers it should, those handed out since the autofree before
  and not released, exactly when no other number is waiting for its pe_timer_stop
  (`autofree_exact_iff`). The autofree does not clear the bits of the timers it stops, so a
  number it has stopped is stopped again, whoever has it by then
  (`autofree_stops_another_owner`).
-/

import Mathlib.Data.List.Infix
import Mathlib.Logic.Function.Basic

namespace PythonUltra.Sh.Resources

/-- Who has configured a timer that is in use. -/
inductive Owner where
  | python
  | other
deriving DecidableEq, Repr

structure State where
  timerUsed : BitVec 32
  /-- gint's timers -/
  inUse : Nat → Option Owner

def init : State := ⟨0, fun _ => none⟩

/-- `answer` is what timer_configure returns: a number it has taken, or an error. -/
def peTimerConfigure (s : State) (answer : Int) : State × Int :=
  if answer < 0 then (s, answer)
  else if answer ≥ 32 then ({ s with inUse := Function.update s.inUse answer.toNat none }, -1)
  else ({ timerUsed := s.timerUsed ||| ((1 : BitVec 32) <<< answer.toNat), inUse := Function.update s.inUse answer.toNat (some .python) }, answer)

def peTimerStop (s : State) (t : Int) : State :=
  if t < 0 ∨ t ≥ 32 then s else { s with timerUsed := s.timerUsed &&& ~~~((1 : BitVec 32) <<< t.toNat) }

/-- The numbers that the autofree gives to timer_stop, in order. -/
def stops (s : State) : List Nat := (List.range 32).filter fun t => s.timerUsed &&& ((1 : BitVec 32) <<< t) ≠ 0

def peTimerAutofree (s : State) : State := { s with inUse := fun t => if t ∈ stops s then none else s.inUse t }

def peResourcesAutofree (s : State) : State := peTimerAutofree s

/-! ## Runs -/

inductive Event where
  | configure (answer : Int)
  | stop (t : Int)
  | otherConfigure (t : Nat)
  | otherStop (t : Nat)
  | autofree
deriving DecidableEq, Repr

def step (s : State) : Event → State
  | .configure answer => (peTimerConfigure s answer).1
  | .stop t => peTimerStop s t
  | .otherConfigure t => { s with inUse := Function.update s.inUse t (some .other) }
  | .otherStop t => { s with inUse := Function.update s.inUse t none }
  | .autofree => peResourcesAutofree s

/-- gint gives out numbers that are not in use, and others stop their own timers. -/
def Event.Legal (s : State) : Event → Prop
  | .configure answer => 0 ≤ answer → s.inUse answer.toNat = none
  | .otherConfigure t => s.inUse t = none
  | .otherStop t => s.inUse t = some .other
  | _ => True

/-- After some events, the last one first. -/
def run : List Event → State
  | [] => init
  | e :: past => step (run past) e

def Legal : List Event → Prop
  | [] => True
  | e :: past => Legal past ∧ e.Legal (run past)

/-- Handed out since the last autofree, and not released since. -/
def Owned : List Event → Nat → Prop
  | [], _ => False
  | .configure answer :: past, t => t < 32 ∧ answer = t ∨ Owned past t
  | .stop t' :: past, t => t' ≠ t ∧ Owned past t
  | .autofree :: _, _ => False
  | _ :: past, t => Owned past t

/-- Handed out at any time, and not given to pe_timer_stop since. -/
def Unreleased : List Event → Nat → Prop
  | [], _ => False
  | .configure answer :: past, t => t < 32 ∧ answer = t ∨ Unreleased past t
  | .stop t' :: past, t => t' ≠ t ∧ Unreleased past t
  | _ :: past, t => Unreleased past t

/-- An autofree at this point stops the timers that are owned, and none of another owner. -/
def AutofreeExact (past : List Event) : Prop :=
  (∀ t, t ∈ stops (run past) ↔ Owned past t) ∧ ∀ t ∈ stops (run past), (run past).inUse t ≠ some .other

/-- Every number still without its pe_timer_stop has been handed out since the last autofree. -/
def NoneLeft (past : List Event) : Prop := ∀ t, Unreleased past t → Owned past t

/-! ## The mask -/

variable {s : State} {past : List Event} {t : Nat}

theorem mem_stops : t ∈ stops s ↔ s.timerUsed.getLsbD t = true := by
  have hbit : ∀ t < 32, (s.timerUsed &&& ((1 : BitVec 32) <<< t) ≠ 0 ↔ s.timerUsed.getLsbD t = true) := by
    intro t ht
    have htwo : (1 : BitVec 32) <<< t = BitVec.twoPow 32 t := rfl
    rw [htwo, BitVec.and_twoPow]
    cases s.timerUsed.getLsbD t with
    | false => simp
    | true =>
      have hne : BitVec.twoPow 32 t ≠ 0 := by
        intro e
        have := congrArg (fun x : BitVec 32 => x.getLsbD t) e
        simp [ht] at this
      simpa using hne
  rw [stops, List.mem_filter, List.mem_range, decide_eq_true_eq]
  constructor
  · rintro ⟨ht, h⟩
    exact (hbit t ht).mp h
  · intro h
    have ht : t < 32 := by
      by_contra hge
      rw [BitVec.getLsbD_of_ge _ _ (Nat.le_of_not_lt hge)] at h
      exact absurd h (by decide)
    exact ⟨ht, (hbit t ht).mpr h⟩

theorem getLsbD_set {x : BitVec 32} {i : Nat} (hi : i < 32) : (x ||| ((1 : BitVec 32) <<< i)).getLsbD t = true ↔ i = t ∨ x.getLsbD t = true := by
  rw [BitVec.getLsbD_or, show (1 : BitVec 32) <<< i = BitVec.twoPow 32 i from rfl, BitVec.getLsbD_twoPow]
  simp [hi, or_comm]

theorem getLsbD_clear {x : BitVec 32} {i : Nat} (hi : i < 32) :
    (x &&& ~~~((1 : BitVec 32) <<< i)).getLsbD t = true ↔ i ≠ t ∧ x.getLsbD t = true := by
  rw [BitVec.getLsbD_and, BitVec.getLsbD_not, show (1 : BitVec 32) <<< i = BitVec.twoPow 32 i from rfl, BitVec.getLsbD_twoPow]
  by_cases ht : t < 32
  · simp [hi, ht, and_comm]
  · simp [BitVec.getLsbD_of_ge x t (Nat.le_of_not_lt ht)]

/-- The bits set are those of the numbers without their pe_timer_stop: the autofree clears none. -/
theorem used_iff : (run past).timerUsed.getLsbD t = true ↔ Unreleased past t := by
  induction past with
  | nil => simp [run, init, Unreleased]
  | cons e past ih =>
    cases e with
    | configure answer =>
      simp only [run, step, peTimerConfigure, Unreleased]
      by_cases hneg : answer < 0
      · rw [if_pos hneg, ih]
        exact ⟨.inr, fun h => h.resolve_left fun h => by omega⟩
      rw [if_neg hneg]
      by_cases hlarge : answer ≥ 32
      · rw [if_pos hlarge]
        exact ih.trans ⟨.inr, fun h => h.resolve_left fun h => by omega⟩
      · rw [if_neg hlarge]
        refine (getLsbD_set (by omega)).trans (or_congr ?_ ih)
        omega
    | stop t' =>
      simp only [run, step, peTimerStop, Unreleased]
      by_cases hout : t' < 0 ∨ t' ≥ 32
      · rw [if_pos hout, ih]
        refine ⟨fun h => ⟨?_, h⟩, And.right⟩
        have ht : t < 32 := by
          by_contra hge
          have hbit := ih.mpr h
          rw [BitVec.getLsbD_of_ge _ _ (Nat.le_of_not_lt hge)] at hbit
          exact absurd hbit (by decide)
        omega
      · rw [if_neg hout]
        refine (getLsbD_clear (by omega)).trans (and_congr ?_ ih)
        omega
    | otherConfigure t' => exact ih
    | otherStop t' => exact ih
    | autofree => exact ih

theorem Owned.unreleased (h : Owned past t) : Unreleased past t := by
  induction past with
  | nil => exact h
  | cons e past ih =>
    cases e with
    | configure answer => exact h.imp id ih
    | stop t' => exact h.imp id ih
    | otherConfigure t' => exact ih h
    | otherStop t' => exact ih h
    | autofree => exact h.elim

/-- A timer that is owned is in use, and nobody else's. -/
theorem Owned.inUse (hl : Legal past) (h : Owned past t) : (run past).inUse t = some .python := by
  induction past with
  | nil => exact h.elim
  | cons e past ih =>
    obtain ⟨hl, he⟩ := hl
    cases e with
    | configure answer =>
      simp only [run, step, peTimerConfigure]
      by_cases hneg : answer < 0
      · rw [if_pos hneg]
        exact ih hl (h.resolve_left fun h => by omega)
      rw [if_neg hneg]
      have hfree : (run past).inUse answer.toNat = none := he (by omega)
      have hother : Owned past t → t ≠ answer.toNat := by
        rintro ho rfl
        rw [ih hl ho] at hfree
        exact absurd hfree (by simp)
      by_cases hlarge : answer ≥ 32
      · rw [if_pos hlarge]
        have ho := h.resolve_left fun h => by omega
        exact (Function.update_of_ne (hother ho) _ _).trans (ih hl ho)
      · rw [if_neg hlarge]
        show Function.update (run past).inUse answer.toNat (some .python) t = _
        rcases h with h | ho
        · rw [show answer.toNat = t by omega, Function.update_self]
        · rw [Function.update_of_ne (hother ho), ih hl ho]
    | stop t' =>
      simp only [run, step, peTimerStop]
      by_cases hout : t' < 0 ∨ t' ≥ 32
      · rw [if_pos hout]
        exact ih hl h.2
      · rw [if_neg hout]
        exact ih hl h.2
    | otherConfigure t' =>
      have hne : t ≠ t' := by
        rintro rfl
        rw [show (run past).inUse t = none from he] at ih
        exact absurd (ih hl h) (by simp)
      exact (Function.update_of_ne hne _ _).trans (ih hl h)
    | otherStop t' =>
      have hne : t ≠ t' := by
        rintro rfl
        rw [show (run past).inUse t = some .other from he] at ih
        exact absurd (ih hl h) (by simp)
      exact (Function.update_of_ne hne _ _).trans (ih hl h)
    | autofree => exact h.elim

theorem exact_iff (hl : Legal past) : AutofreeExact past ↔ NoneLeft past := by
  have hstops : ∀ t, t ∈ stops (run past) ↔ Unreleased past t := fun t => mem_stops.trans used_iff
  constructor
  · intro h t ht
    exact (h.1 t).mp ((hstops t).mpr ht)
  · intro h
    refine ⟨fun t => ⟨fun ht => h t ((hstops t).mp ht), fun ho => (hstops t).mpr ho.unreleased⟩, fun t ht => ?_⟩
    rw [(h t ((hstops t).mp ht)).inUse hl]
    simp

theorem Legal.suffix {before : List Event} (hl : Legal past) (h : before <:+ past) : Legal before := by
  induction past with
  | nil => exact List.suffix_nil.mp h ▸ trivial
  | cons e past ih =>
    rcases List.suffix_cons_iff.mp h with rfl | h
    · exact hl
    · exact ih hl.1 h

/-- Over a whole run: every autofree is exact when each finds no number left over. -/
theorem autofree_exact_iff (hl : Legal past) :
    (∀ before, .autofree :: before <:+ past → AutofreeExact before) ↔ ∀ before, .autofree :: before <:+ past → NoneLeft before := by
  constructor
  · intro h before hb
    exact (exact_iff (hl.suffix hb).1).mp (h before hb)
  · intro h before hb
    exact (exact_iff (hl.suffix hb).1).mpr (h before hb)

/-- An execution that frees a timer, and then one that has none. -/
theorem autofree_exact_iff_released :
    (∀ before, Event.autofree :: before <:+ [.autofree, .stop 0, .configure 0] → AutofreeExact before) ↔
      ∀ before, Event.autofree :: before <:+ [.autofree, .stop 0, .configure 0] → NoneLeft before :=
  autofree_exact_iff ⟨⟨⟨trivial, fun _ => rfl⟩, trivial⟩, trivial⟩

/-- Timer 0 is freed after an execution, another owner gets it, and the next autofree stops it. -/
theorem autofree_stops_another_owner :
    ¬ ∀ past, Legal past → ∀ before, Event.autofree :: before <:+ past → AutofreeExact before := by
  intro h
  have hlegal : Legal [.autofree, .otherConfigure 0, .autofree, .configure 0] :=
    ⟨⟨⟨⟨trivial, fun _ => rfl⟩, trivial⟩, by show (run [.autofree, .configure 0]).inUse 0 = none; decide⟩, trivial⟩
  have hexact := h _ hlegal [.otherConfigure 0, .autofree, .configure 0] (List.suffix_refl _)
  exact hexact.2 0 (by decide) (by decide)

end PythonUltra.Sh.Resources
