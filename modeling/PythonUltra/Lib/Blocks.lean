/-
  PythonUltra.Lib.Blocks — lists made of blocks of one length, and loops that never fail.
-/

import Mathlib.Data.List.Basic

namespace PythonUltra.Lib.Blocks

variable {α β ε : Type} {f : α → List β} {k : Nat}

theorem drop_flatMap : ∀ {l : List α} {i : Nat} {a : α}, (∀ a ∈ l, (f a).length = k) → l[i]? = some a →
    ∃ rest, (l.flatMap f).drop (i * k) = f a ++ rest
  | [], i, a, _, ha => by simp at ha
  | b :: l, 0, a, _, ha => by
    obtain rfl : b = a := Option.some.inj ha
    exact ⟨l.flatMap f, by rw [Nat.zero_mul, List.drop_zero, List.flatMap_cons]⟩
  | b :: l, i + 1, a, hk, ha => by
    obtain ⟨rest, hrest⟩ := drop_flatMap (fun a h => hk a (List.mem_cons_of_mem _ h)) (i := i) ha
    refine ⟨rest, ?_⟩
    have hlength : (i + 1) * k = (f b).length + i * k := by rw [hk b List.mem_cons_self, Nat.succ_mul, Nat.add_comm]
    rw [List.flatMap_cons, hlength, List.drop_length_add_append, hrest]

theorem flatMap_length : ∀ {l : List α}, (∀ a ∈ l, (f a).length = k) → (l.flatMap f).length = l.length * k
  | [], _ => by simp
  | b :: l, hk => by
    rw [List.flatMap_cons, List.length_append, hk b List.mem_cons_self, flatMap_length fun a h => hk a (List.mem_cons_of_mem _ h),
      List.length_cons, Nat.succ_mul, Nat.add_comm]

theorem getElem?_flatMap {l : List α} {i j : Nat} {a : α} (hk : ∀ a ∈ l, (f a).length = k) (ha : l[i]? = some a) (hj : j < k) :
    (l.flatMap f)[i * k + j]? = (f a)[j]? := by
  obtain ⟨rest, hrest⟩ := drop_flatMap hk ha
  have hlength : j < (f a).length := by rw [hk a (List.mem_of_getElem? ha)]; exact hj
  rw [← List.getElem?_drop, hrest, List.getElem?_append_left hlength]

/-! ## Loops that never fail -/

theorem mapM_ok {f : α → Except ε β} {g : α → β} : ∀ {l : List α}, (∀ a ∈ l, f a = .ok (g a)) → l.mapM f = .ok (l.map g)
  | [], _ => rfl
  | a :: l, h => by
    rw [List.mapM_cons, h a List.mem_cons_self, mapM_ok fun b hb => h b (List.mem_cons_of_mem _ hb)]
    rfl

end PythonUltra.Lib.Blocks
