/-
  PythonUltra.Py.Scheduler — callbacks that wait for the VM to run them (py/scheduler.c).

  A queue in a ring of a power of two cells, and a state that is idle, pending or so many
  times locked. Each atomic section is a step, and interrupts, callbacks and locks take
  their steps in any order (`Step`). `runPending` is the section before the callback and
  `schedUnlock` the one after it, in a build without static nodes. Whatever the order, the
  callbacks are called in the order in which they were accepted, one at a time and never
  while the scheduler is locked (`scheduler_sound`).
-/

import Mathlib.Logic.Relation
import PythonUltra.Lib.Ring

namespace PythonUltra.Py.Scheduler

open Lib.Ring

variable {α : Type}

def idle : Int := 1
def pending : Int := 0
def locked : Int := -1

/-- What the scheduler has of the VM's state. -/
structure Vm (α : Type) where
  schedState : Int
  schedLen : Nat
  schedIdx : Nat
  schedQueue : List (Option α)
  pendingException : Bool

/-- `int16_t` -/
def int16 (x : Int) : Int := x.bmod 65536

/-- `mp_sched_exception` -/
def schedException (vm : Vm α) : Vm α :=
  { vm with pendingException := true, schedState := if vm.schedState = idle then pending else vm.schedState }

def schedLock (vm : Vm α) : Vm α := { vm with schedState := if vm.schedState < 0 then int16 (vm.schedState - 1) else locked }

def schedUnlock (vm : Vm α) : Vm α :=
  { vm with
    schedState :=
      if int16 (vm.schedState + 1) = 0 then if vm.pendingException ∨ vm.schedLen ≠ 0 then pending else idle
      else int16 (vm.schedState + 1) }

section Code

variable (depth : Nat)

def idxMask (i : Nat) : Nat := i &&& (depth - 1)

/-- `mp_sched_schedule` -/
def schedSchedule (vm : Vm α) (item : α) : Bool × Vm α :=
  if vm.schedLen ≠ depth then
    (true, { vm with
      schedState := if vm.schedState = idle then pending else vm.schedState
      schedLen := (vm.schedLen + 1) % 256
      schedQueue := vm.schedQueue.set (idxMask depth (vm.schedIdx + vm.schedLen)) (some item) })
  else (false, vm)

/-- `mp_sched_run_pending` up to the callback, if there is one: none where it returns at once. -/
def runPending (vm : Vm α) : Option (Option α × Vm α) :=
  if vm.schedState ≠ pending then none
  else if vm.schedLen ≠ 0 then
    some (vm.schedQueue[vm.schedIdx]?.join, { vm with schedState := locked, schedIdx := idxMask depth (vm.schedIdx + 1), schedLen := vm.schedLen - 1 })
  else some (none, { vm with schedState := locked })

/-- `mp_init` -/
def init : Vm α := ⟨idle, 0, 0, List.replicate depth none, false⟩

end Code

/-! ## Runs -/

structure World (α : Type) where
  vm : Vm α
  /-- The items that were accepted. -/
  accepted : List α
  /-- The items whose callbacks were called. -/
  called : List α
  /-- Calls of `mp_sched_lock` that are not undone. -/
  held : Nat
  /-- Calls of `mp_sched_run_pending` that are not over. -/
  running : Nat

/-- An atomic section. What was not locked is not unlocked, and locks nest no deeper than their type can count. -/
inductive Step (depth : Nat) : World α → World α → Prop where
  | exception (w : World α) : Step depth w { w with vm := schedException w.vm }
  | handled (w : World α) : Step depth w { w with vm := { w.vm with pendingException := false } }
  | accept (w : World α) (item : α) (vm : Vm α) : schedSchedule depth w.vm item = (true, vm) →
      Step depth w { w with vm := vm, accepted := w.accepted ++ [item] }
  | refuse (w : World α) (item : α) (vm : Vm α) : schedSchedule depth w.vm item = (false, vm) → Step depth w { w with vm := vm }
  | lock (w : World α) : w.held + w.running < 32768 → Step depth w { w with vm := schedLock w.vm, held := w.held + 1 }
  | unlock (w : World α) (held : Nat) : w.held = held + 1 → Step depth w { w with vm := schedUnlock w.vm, held := held }
  | enter (w : World α) (item : Option α) (vm : Vm α) : runPending depth w.vm = some (item, vm) →
      Step depth w { w with vm := vm, called := w.called ++ item.toList, running := w.running + 1 }
  | leave (w : World α) (running : Nat) : w.running = running + 1 → Step depth w { w with vm := schedUnlock w.vm, running := running }

def start (depth : Nat) : World α := ⟨init depth, [], [], 0, 0⟩

structure Sound (depth : Nat) (w : World α) (waiting : List α) : Prop where
  /-- None is lost, none is called twice, and none overtakes another. -/
  split : w.accepted = w.called ++ waiting
  accepts : ∀ item, (schedSchedule depth w.vm item).1 = true ↔ waiting.length < depth
  alone : w.running ≤ 1
  never : 0 < w.held + w.running → w.vm.schedState < 0 ∧ runPending depth w.vm = none
  /-- Unlocked, the oldest is called by the next that looks. -/
  next : w.held + w.running = 0 → waiting ≠ [] → ∃ vm, runPending depth w.vm = some (waiting.head?, vm)
  noticed : w.held + w.running = 0 → w.vm.pendingException = true → w.vm.schedState = pending

/-- The state when it is locked so many times. -/
def Stands (vm : Vm α) (locks : Nat) : Prop :=
  (0 < locks → vm.schedState = -(locks : Int)) ∧
    (locks = 0 → vm.schedState = pending ∨ vm.schedState = idle ∧ vm.schedLen = 0 ∧ vm.pendingException = false)

structure Inv (depth : Nat) (w : World α) (waiting : List α) : Prop where
  split : w.accepted = w.called ++ waiting
  length : w.vm.schedLen = waiting.length
  fits : waiting.length ≤ depth
  cells : w.vm.schedQueue.length = depth
  idx : w.vm.schedIdx < depth
  row : Row w.vm.schedQueue w.vm.schedIdx waiting
  alone : w.running ≤ 1
  nested : w.held + w.running ≤ 32768
  stands : Stands w.vm (w.held + w.running)

variable {depth k idx n locks : Nat} {w w' : World α} {waiting : List α} {vm vm' : Vm α}

theorem idxMask_eq (k i : Nat) : idxMask (2 ^ k) i = i % 2 ^ k := Nat.and_two_pow_sub_one_eq_mod i k

theorem idxMask_cell (hi : idx < 2 ^ k) (hn : n < 2 ^ k) : idxMask (2 ^ k) (idx + n) = cell (2 ^ k) idx n := by
  rw [idxMask_eq]
  unfold cell
  split
  · next hlt => exact Nat.mod_eq_of_lt hlt
  · next hge => rw [Nat.mod_eq_sub_mod (by omega), Nat.mod_eq_of_lt (by omega)]

theorem idxMask_advance (hi : idx < 2 ^ k) : idxMask (2 ^ k) (idx + 1) = advance (2 ^ k) idx := by
  rw [idxMask_eq]
  unfold advance
  split
  · next heq => rw [heq, Nat.mod_self]
  · next hne => exact Nat.mod_eq_of_lt (by omega)

theorem int16_eq {x : Int} (hlow : -32768 ≤ x) (hhigh : x < 32768) : int16 x = x := Int.bmod_eq_of_le (by omega) (by omega)

theorem Stands.wake (h : Stands vm locks) (hstate : vm'.schedState = if vm.schedState = idle then pending else vm.schedState) :
    Stands vm' locks := by
  constructor
  · intro hpos
    have hlocked := h.1 hpos
    rw [hstate, if_neg (by rw [hlocked]; unfold idle; omega), hlocked]
  · intro hzero
    left
    rw [hstate]
    rcases h.2 hzero with hpending | ⟨hidle, -⟩
    · rw [if_neg (by rw [hpending]; decide), hpending]
    · rw [if_pos hidle]

theorem Stands.lock (h : Stands vm locks) (hlt : locks < 32768) : Stands (schedLock vm) (locks + 1) := by
  refine ⟨?_, by omega⟩
  intro _
  unfold schedLock
  dsimp only
  rcases Nat.eq_zero_or_pos locks with rfl | hpos
  · have hnot : ¬ vm.schedState < 0 := by
      rcases h.2 rfl with hfree | ⟨hfree, -⟩ <;> rw [hfree] <;> decide
    rw [if_neg hnot]
    rfl
  · rw [h.1 hpos, if_pos (by omega), int16_eq (by omega) (by omega)]
    omega

theorem Stands.unlock (h : Stands vm (locks + 1)) (hlt : locks < 32768) : Stands (schedUnlock vm) locks := by
  have hnext : int16 (vm.schedState + 1) = -(locks : Int) := by
    rw [h.1 (by omega), int16_eq (by omega) (by omega)]
    omega
  unfold schedUnlock
  rw [hnext]
  constructor
  · intro hpos
    exact if_neg (by omega)
  · intro hzero
    dsimp only
    rw [if_pos (by omega)]
    split
    · exact .inl rfl
    · next hnone =>
      rw [not_or, not_not, Bool.not_eq_true] at hnone
      exact .inr ⟨rfl, hnone.2, hnone.1⟩

theorem inv_start (k : Nat) : Inv (2 ^ k) (start (2 ^ k) : World α) [] where
  split := rfl
  length := rfl
  fits := Nat.zero_le _
  cells := List.length_replicate
  idx := Nat.two_pow_pos k
  row := by
    intro j x hx
    cases hx
  alone := Nat.zero_le _
  nested := Nat.zero_le _
  stands := ⟨fun h => absurd h (Nat.lt_irrefl 0), fun _ => .inr ⟨rfl, rfl, rfl⟩⟩

theorem inv_enter {item : Option α} (hinv : Inv (2 ^ k) w waiting) (h : runPending (2 ^ k) w.vm = some (item, vm)) :
    ∃ waiting', Inv (2 ^ k) { w with vm := vm, called := w.called ++ item.toList, running := w.running + 1 } waiting' := by
  obtain ⟨hsplit, hlength, hfits, hcells, hidx, hrow, halone, hnested, hstands⟩ := hinv
  unfold runPending at h
  split at h
  · cases h
  · next hpending =>
    rw [not_not] at hpending
    have hnone : w.held = 0 ∧ w.running = 0 := by
      by_contra hne
      have hlocked := hstands.1 (by omega)
      rw [hpending] at hlocked
      unfold pending at hlocked
      omega
    have hone : ∀ vm' : Vm α, vm'.schedState = locked → Stands vm' (w.held + (w.running + 1)) := by
      intro vm' hlocked
      rw [hnone.1, hnone.2]
      exact ⟨fun _ => hlocked, fun h => absurd h (by decide)⟩
    split at h
    · next hlen =>
      cases h
      cases waiting with
      | nil => exact absurd hlength hlen
      | cons item rest =>
        have hhead := hrow 0 item rfl
        rw [hcells, cell_zero hidx] at hhead
        rw [List.length_cons] at hlength hfits
        refine ⟨rest, by simp [hsplit, hhead], by simp [hlength], by omega, hcells, ?_, ?_, by simp [hnone], by simp [hnone], hone _ rfl⟩
        · rw [idxMask_eq]
          exact Nat.mod_lt _ (by omega)
        · rw [idxMask_advance hidx, ← hcells]
          rw [← hcells] at hfits
          exact hrow.tail hfits
    · cases h
      exact ⟨waiting, by simp [hsplit], hlength, hfits, hcells, hidx, hrow, by simp [hnone], by simp [hnone], hone _ rfl⟩

theorem inv_step (hk : k ≤ 7) (hinv : Inv (2 ^ k) w waiting) (h : Step (2 ^ k) w w') : ∃ waiting', Inv (2 ^ k) w' waiting' := by
  have hdepth : 2 ^ k ≤ 2 ^ 7 := Nat.pow_le_pow_right (by decide) hk
  have hinv' := hinv
  obtain ⟨hsplit, hlength, hfits, hcells, hidx, hrow, halone, hnested, hstands⟩ := hinv'
  cases h with
  | exception => exact ⟨waiting, hsplit, hlength, hfits, hcells, hidx, hrow, halone, hnested, hstands.wake rfl⟩
  | handled =>
    refine ⟨waiting, hsplit, hlength, hfits, hcells, hidx, hrow, halone, hnested, hstands.1, ?_⟩
    intro h
    exact (hstands.2 h).imp_right fun hidle => ⟨hidle.1, hidle.2.1, rfl⟩
  | accept item vm haccept =>
    unfold schedSchedule at haccept
    split at haccept
    · next hroom =>
      cases haccept
      have hlt : waiting.length < 2 ^ k := by omega
      refine ⟨waiting ++ [item], by simp [hsplit], ?_, ?_, by simpa using hcells, hidx, ?_, halone, hnested, hstands.wake rfl⟩
      · simp only [hlength, List.length_append, List.length_singleton]
        omega
      · simp only [List.length_append, List.length_singleton]
        omega
      · rw [hlength, idxMask_cell hidx hlt]
        rw [← hcells] at hidx hlt ⊢
        exact hrow.push hidx hlt
    · cases haccept
  | refuse item vm hrefuse =>
    unfold schedSchedule at hrefuse
    split at hrefuse
    · cases hrefuse
    · cases hrefuse
      exact ⟨waiting, hinv⟩
  | lock hroom =>
    refine ⟨waiting, hsplit, hlength, hfits, hcells, hidx, hrow, halone, ?_, ?_⟩
    · rw [Nat.add_right_comm]
      exact hroom
    · rw [Nat.add_right_comm]
      exact hstands.lock hroom
  | unlock held hheld =>
    rw [hheld, Nat.add_right_comm] at hstands hnested
    exact ⟨waiting, hsplit, hlength, hfits, hcells, hidx, hrow, halone, Nat.le_of_lt hnested, hstands.unlock hnested⟩
  | enter item vm henter => exact inv_enter hinv henter
  | leave running hrunning =>
    rw [hrunning, ← Nat.add_assoc] at hstands hnested
    exact ⟨waiting, hsplit, hlength, hfits, hcells, hidx, hrow, by dsimp only; omega, Nat.le_of_lt hnested, hstands.unlock hnested⟩

theorem inv_sound (hinv : Inv depth w waiting) : Sound depth w waiting := by
  obtain ⟨hsplit, hlength, hfits, hcells, hidx, hrow, halone, hnested, hstands⟩ := hinv
  refine ⟨hsplit, ?_, halone, ?_, ?_, ?_⟩
  · intro item
    unfold schedSchedule
    split
    · simp
      omega
    · simp
      omega
  · intro h
    have hlocked := hstands.1 h
    have hneg : w.vm.schedState < 0 := by omega
    exact ⟨hneg, if_pos (Int.ne_of_lt hneg)⟩
  · intro h hne
    have hpending : w.vm.schedState = pending := by
      refine (hstands.2 h).resolve_right fun hidle => hne (List.eq_nil_of_length_eq_zero ?_)
      rw [← hlength, hidle.2.1]
    cases waiting with
    | nil => exact absurd rfl hne
    | cons item rest =>
      have hhead := hrow 0 item rfl
      rw [hcells, cell_zero hidx] at hhead
      exact ⟨_, by rw [runPending, if_neg (not_not.mpr hpending), if_pos (by rw [hlength]; simp), hhead]; rfl⟩
  · intro h hexc
    exact (hstands.2 h).resolve_right fun hidle => by simp [hexc] at hidle

/-- Callbacks are called in the order in which they were accepted, in any order of the steps. -/
theorem scheduler_sound (hk : k ≤ 7) (h : Relation.ReflTransGen (Step (2 ^ k)) (start (2 ^ k)) w) : ∃ waiting, Sound (2 ^ k) w waiting := by
  have hinv : ∃ waiting, Inv (2 ^ k) w waiting := by
    induction h with
    | refl => exact ⟨[], inv_start k⟩
    | tail _ hstep ih =>
      obtain ⟨waiting, hinv⟩ := ih
      exact inv_step hk hinv hstep
  obtain ⟨waiting, hinv⟩ := hinv
  exact ⟨waiting, inv_sound hinv⟩

/-- A callback is called, and another one is accepted before it returns. -/
theorem scheduler_sound_nested : ∃ waiting, Sound 4 (⟨⟨locked, 1, 1, [some 7, some 8, none, none], false⟩, [7, 8], [7], 0, 1⟩ : World Nat) waiting :=
  @scheduler_sound _ 2 _ (by decide) (.tail (.tail (.tail .refl (.accept _ 7 _ rfl)) (.enter _ (some 7) _ rfl)) (.accept _ 8 _ rfl))

end PythonUltra.Py.Scheduler
