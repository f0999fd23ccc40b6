/-
  PythonUltra.Lib.Outcome — what a computation gives, if it does not fail: a rule for each
  way to put computations together.
-/

import Mathlib.Data.List.Basic

namespace PythonUltra.Lib.Outcome

variable {ε α β σ : Type} {x y : Except ε α} {Q Q' : α → Prop} {R : β → Prop}

/-- Every result is of this kind. An error is none. -/
def Yields (x : Except ε α) (Q : α → Prop) : Prop := ∀ a, x = .ok a → Q a

theorem yields_ok {a : α} (h : Q a) : Yields (.ok a : Except ε α) Q := by
  rintro _ ⟨⟩
  exact h

theorem yields_error {e : ε} : Yields (.error e) Q := by
  rintro _ ⟨⟩

theorem yields_any : Yields x fun _ => True := fun _ _ => trivial

theorem Yields.imp (h : Yields x Q) (himp : ∀ a, Q a → Q' a) : Yields x Q' := fun a ha => himp a (h a ha)

theorem Yields.bind {f : α → Except ε β} (h : Yields x Q) (hf : ∀ a, Q a → Yields (f a) R) : Yields (x >>= f) R := by
  rcases x with e | a
  · exact yields_error
  · exact hf a (h a rfl)

theorem yields_then {f : α → Except ε β} (hf : ∀ a, Yields (f a) R) : Yields (x >>= f) R := yields_any.bind fun a _ => hf a

theorem Yields.map {f : α → β} (h : Yields x fun a => R (f a)) : Yields (x.map f) R := by
  rcases x with e | a
  · exact yields_error
  · exact yields_ok (h a rfl)

theorem yields_ite {c : Prop} [Decidable c] (hx : c → Yields x Q) (hy : ¬ c → Yields y Q) : Yields (if c then x else y) Q := by
  split
  · exact hx ‹_›
  · exact hy ‹_›

theorem yields_mapM {f : α → Except ε β} : ∀ {l : List α}, (∀ a ∈ l, Yields (f a) R) → Yields (l.mapM f) fun bs => ∀ b ∈ bs, R b
  | [], _ => yields_ok fun _ hb => absurd hb List.not_mem_nil
  | a :: l, h => by
    rw [List.mapM_cons]
    refine (h a List.mem_cons_self).bind fun b hb => ?_
    refine (yields_mapM fun a ha => h a (List.mem_cons_of_mem _ ha)).bind fun bs hbs => ?_
    refine yields_ok fun b' hb' => ?_
    rcases List.mem_cons.mp hb' with rfl | hmem
    · exact hb
    · exact hbs b' hmem

end PythonUltra.Lib.Outcome
