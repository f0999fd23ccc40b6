/-
  PythonUltra.Lib.Ledger — entries that wait until they are served.

  Entries are numbered as they come in. A ledger has the numbers that wait and, for every
  time some were served, those that were. Each number waits or was served once, and the
  numbers stay in order: both are part of what a ledger is.
-/

import Mathlib.Data.List.Nodup
import Mathlib.Data.List.Range
import Mathlib.Order.Basic

namespace PythonUltra.Lib

structure Ledger (α : Type) where
  entered : List α
  pending : List Nat
  served : List (List Nat)
  partition : (served.flatten ++ pending).Perm (List.range entered.length)
  ordered : pending.Pairwise (· < ·)
  servedOrdered : ∀ taken ∈ served, taken.Pairwise (· < ·)

namespace Ledger

variable {α : Type}

def empty : Ledger α where
  entered := []
  pending := []
  served := []
  partition := List.Perm.refl _
  ordered := List.Pairwise.nil
  servedOrdered := fun _ h => absurd h List.not_mem_nil

theorem pending_lt (L : Ledger α) {n : Nat} (hn : n ∈ L.pending) : n < L.entered.length :=
  List.mem_range.mp (L.partition.subset (List.mem_append_right _ hn))

/-- A new entry waits behind the others. -/
def enter (L : Ledger α) (a : α) : Ledger α where
  entered := L.entered ++ [a]
  pending := L.pending ++ [L.entered.length]
  served := L.served
  partition := by
    rw [← List.append_assoc, List.length_append, List.length_singleton, List.range_succ]
    exact L.partition.append_right _
  ordered := by
    rw [List.pairwise_append]
    refine ⟨L.ordered, List.pairwise_singleton _ _, fun n hn m hm => ?_⟩
    rw [List.mem_singleton.mp hm]
    exact L.pending_lt hn
  servedOrdered := L.servedOrdered

/-- Those that wait and meet `p` are served. -/
def serve (L : Ledger α) (p : Nat → Bool) : Ledger α where
  entered := L.entered
  pending := L.pending.filter fun n => !p n
  served := L.served ++ [L.pending.filter p]
  partition := by
    rw [List.flatten_append, List.flatten_singleton, List.append_assoc]
    exact ((List.filter_append_perm p L.pending).append_left _).trans L.partition
  ordered := L.ordered.filter _
  servedOrdered := by
    intro taken htaken
    rcases List.mem_append.mp htaken with h | h
    · exact L.servedOrdered taken h
    · rw [List.mem_singleton.mp h]
      exact L.ordered.filter _

/-- The entries with these numbers. -/
def items (L : Ledger α) (ns : List Nat) : List α := ns.filterMap fun n => L.entered[n]?

/-- The entries that wait. -/
def queue (L : Ledger α) : List α := L.items L.pending

/-- The entry with the number meets `q`. -/
def meets (L : Ledger α) (q : α → Bool) (n : Nat) : Bool := L.entered[n]?.any q

@[simp] theorem queue_empty : (empty : Ledger α).queue = [] := rfl

@[simp] theorem queue_enter (L : Ledger α) (a : α) : (L.enter a).queue = L.queue ++ [a] := by
  have hold : L.pending.filterMap (fun n => (L.entered ++ [a])[n]?) = L.pending.filterMap fun n => L.entered[n]? := by
    refine List.filterMap_congr fun n hn => ?_
    exact List.getElem?_append_left (L.pending_lt hn)
  simp [queue, items, enter, List.filterMap_append, hold]

theorem items_filter (L : Ledger α) (q : α → Bool) (ns : List Nat) : L.items (ns.filter (L.meets q)) = (L.items ns).filter q := by
  induction ns with
  | nil => rfl
  | cons n ns ih =>
    cases h : L.entered[n]? with
    | none => simp_all [items, meets]
    | some a => cases hq : q a <;> simp_all [items, meets]

theorem items_served (L : Ledger α) (q : α → Bool) : L.items (L.pending.filter (L.meets q)) = L.queue.filter q := items_filter L q _

theorem queue_serve (L : Ledger α) (q : α → Bool) : (L.serve (L.meets q)).queue = L.queue.filter fun a => !q a := by
  have hnot : L.pending.filter (fun n => !L.meets q n) = L.pending.filter (L.meets fun a => !q a) := by
    refine List.filter_congr fun n hn => ?_
    obtain ⟨a, ha⟩ : ∃ a, L.entered[n]? = some a := ⟨_, List.getElem?_eq_getElem (L.pending_lt hn)⟩
    simp [meets, ha]
  show L.items (L.pending.filter fun n => !L.meets q n) = _
  rw [hnot, items_filter]
  rfl

theorem queue_serve_all (L : Ledger α) : (L.serve fun _ => true).queue = [] ∧ L.items (L.pending.filter fun _ => true) = L.queue := by
  refine ⟨?_, by rw [List.filter_true]; rfl⟩
  show L.items (L.pending.filter fun _ => false) = []
  rw [List.filter_false]
  rfl

theorem queue_serve_none (L : Ledger α) : (L.serve fun _ => false).queue = L.queue := by
  show L.items (L.pending.filter fun _ => true) = L.queue
  rw [List.filter_true]
  rfl

/-- The number that has waited longest. -/
def isFirst (L : Ledger α) (n : Nat) : Bool := L.pending.head? == some n

theorem filter_isFirst (L : Ledger α) :
    L.pending.filter L.isFirst = L.pending.take 1 ∧ (L.pending.filter fun n => !L.isFirst n) = L.pending.drop 1 := by
  have hordered := L.ordered
  unfold isFirst
  cases hpending : L.pending with
  | nil => exact ⟨rfl, rfl⟩
  | cons n ns =>
    rw [hpending, List.pairwise_cons] at hordered
    have hother : ∀ m ∈ ns, ((n :: ns).head? == some m) = false := by
      intro m hm
      have := hordered.1 m hm
      simp
      omega
    have hnone : ns.filter (fun m => (n :: ns).head? == some m) = [] := by
      rw [List.filter_eq_nil_iff]
      intro m hm
      rw [hother m hm]
      exact Bool.false_ne_true
    have hall : ns.filter (fun m => !((n :: ns).head? == some m)) = ns := by
      rw [List.filter_eq_self]
      intro m hm
      rw [hother m hm]
      rfl
    constructor
    · rw [List.filter_cons_of_pos (by simp), hnone]
      rfl
    · rw [List.filter_cons_of_neg (by simp), hall]
      rfl

theorem queue_serve_first (L : Ledger α) : (L.serve L.isFirst).queue = L.queue.drop 1 ∧ L.items (L.pending.filter L.isFirst) = L.queue.take 1 := by
  have hpresent : ∀ n ∈ L.pending, L.entered[n]?.isSome = true := fun n hn => by simp [L.pending_lt hn]
  show L.items (L.pending.filter fun n => !L.isFirst n) = _ ∧ _
  rw [L.filter_isFirst.1, L.filter_isFirst.2]
  unfold queue items
  cases hpending : L.pending with
  | nil => exact ⟨rfl, rfl⟩
  | cons n ns =>
    obtain ⟨a, ha⟩ := Option.isSome_iff_exists.mp (hpresent n (hpending ▸ List.mem_cons_self))
    simp [ha]

end Ledger

end PythonUltra.Lib
