/-
  PythonUltra.Lib.Links — a relation kept on both of its sides.

  Every object of either kind lists those of the other kind it is linked with. `Coherent`
  says that the two sides tell the same relation and that no list repeats itself; `link`
  and `unlink` change both sides and keep it.
-/

import Mathlib.Data.List.Count
import Mathlib.Data.List.Nodup

namespace PythonUltra.Lib

structure Links (α β : Type) where
  out : α → List β
  back : β → List α

namespace Links

variable {α β : Type} [DecidableEq α] [DecidableEq β]

/-- Each link is listed once on each side, or on neither. -/
def Coherent (l : Links α β) : Prop := ∀ a b, (l.out a).count b = (l.back b).count a ∧ (l.out a).count b ≤ 1

/-- `xs` with `x` at its end, once. -/
def insertEnd {γ : Type} [DecidableEq γ] (x : γ) (xs : List γ) : List γ := if x ∈ xs then xs else xs ++ [x]

/-- Both sides learn of the link, unless `a` knows of it. -/
def link (l : Links α β) (a : α) (b : β) : Links α β :=
  if b ∈ l.out a then l
  else ⟨Function.update l.out a (l.out a ++ [b]), Function.update l.back b (insertEnd a (l.back b))⟩

/-- Both sides forget the link, where `a` knows of it. -/
def unlink (l : Links α β) (a : α) (b : β) : Links α β :=
  if b ∈ l.out a then ⟨Function.update l.out a ((l.out a).erase b), Function.update l.back b ((l.back b).erase a)⟩
  else l

variable {l : Links α β} {a : α} {b : β}

theorem Coherent.mem (h : l.Coherent) : b ∈ l.out a ↔ a ∈ l.back b := by
  have := (h a b).1
  rw [← List.count_pos_iff, ← List.count_pos_iff]
  omega

theorem Coherent.nodup_out (h : l.Coherent) (a : α) : (l.out a).Nodup :=
  List.nodup_iff_count_le_one.mpr fun b => (h a b).2

theorem Coherent.nodup_back (h : l.Coherent) (b : β) : (l.back b).Nodup :=
  List.nodup_iff_count_le_one.mpr fun a => (h a b).1 ▸ (h a b).2

theorem Coherent.once (h : l.Coherent) : (l.out a).count b = 1 ↔ (l.back b).count a = 1 := by
  rw [(h a b).1]

/-- A pair that is not listed yet, added on both sides. -/
theorem Coherent.link (h : l.Coherent) (a : α) (b : β) : (l.link a b).Coherent := by
  unfold Links.link
  split
  next => exact h
  next hb =>
    have ha : a ∉ l.back b := fun ha => hb (h.mem.mpr ha)
    intro a' b'
    have hold := h a' b'
    have hzero := List.count_eq_zero.mpr hb
    have hzero' := List.count_eq_zero.mpr ha
    by_cases ea : a' = a <;> by_cases eb : b' = b
    · subst ea eb
      simp only [Function.update_self, insertEnd, if_neg ha, List.count_append, List.count_singleton_self]
      omega
    · subst ea
      have : ¬ b = b' := fun e => eb e.symm
      simp only [Function.update_self, Function.update_of_ne eb, List.count_append, List.count_singleton, beq_iff_eq, if_neg this]
      omega
    · subst eb
      have : ¬ a = a' := fun e => ea e.symm
      simp only [Function.update_self, Function.update_of_ne ea, insertEnd, if_neg ha, List.count_append, List.count_singleton,
        beq_iff_eq, if_neg this]
      omega
    · simp only [Function.update_of_ne ea, Function.update_of_ne eb]
      exact hold

/-- A pair that is listed, taken out on both sides. -/
theorem Coherent.unlink (h : l.Coherent) (a : α) (b : β) : (l.unlink a b).Coherent := by
  unfold Links.unlink
  split
  next =>
    intro a' b'
    have hold := h a' b'
    by_cases ea : a' = a <;> by_cases eb : b' = b
    · subst ea eb
      simp only [Function.update_self, List.count_erase_self]
      omega
    · subst ea
      simp only [Function.update_self, Function.update_of_ne eb, List.count_erase_of_ne eb]
      exact hold
    · subst eb
      simp only [Function.update_self, Function.update_of_ne ea, List.count_erase_of_ne ea]
      exact hold
    · simp only [Function.update_of_ne ea, Function.update_of_ne eb]
      exact hold
  next => exact h

/-- A list of `b` that is written anew without links, where it had none. -/
theorem Coherent.clear_back (h : l.Coherent) (hb : ∀ a, b ∉ l.out a) : Coherent ⟨l.out, Function.update l.back b []⟩ := by
  intro a' b'
  by_cases e : b' = b
  · subst e
    have := List.count_eq_zero.mpr (hb a')
    simp only [Function.update_self, List.count_nil]
    omega
  · simp only [Function.update_of_ne e]
    exact h a' b'

theorem Coherent.clear_out (h : l.Coherent) (ha : ∀ b, a ∉ l.back b) : Coherent ⟨Function.update l.out a [], l.back⟩ := by
  intro a' b'
  by_cases e : a' = a
  · subst e
    have := List.count_eq_zero.mpr (ha b')
    simp only [Function.update_self, List.count_nil]
    omega
  · simp only [Function.update_of_ne e]
    exact h a' b'

end Links

end PythonUltra.Lib
