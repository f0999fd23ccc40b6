/-
  PythonUltra.Lib.Machine — runs of a deterministic machine `step : σ → α → σ`.

  `run` folds a list of actions; `Along ok` says that each action of a run meets a
  condition on the state it is taken in. Two rules carry an invariant over a run:
  `Along.inv` (every step that meets the condition keeps it) and `run_inv` (every step
  does).
-/

import Mathlib.Data.List.Basic

namespace PythonUltra.Lib.Machine

variable {σ α : Type} (step : σ → α → σ)

def run (s : σ) (as : List α) : σ := as.foldl step s

@[simp] theorem run_nil (s : σ) : run step s [] = s := rfl
@[simp] theorem run_cons (s : σ) (a : α) (as : List α) : run step s (a :: as) = run step (step s a) as := rfl

@[simp] theorem run_append (s : σ) (as bs : List α) : run step s (as ++ bs) = run step (run step s as) bs := by
  simp [run]

/-- Every action of the run from `s` meets `ok` in the state it is taken in. -/
def Along (ok : σ → α → Prop) : σ → List α → Prop
  | _, [] => True
  | s, a :: as => ok s a ∧ Along ok (step s a) as

instance decidableAlong (ok : σ → α → Prop) [∀ s a, Decidable (ok s a)] :
    ∀ (s : σ) (as : List α), Decidable (Along step ok s as)
  | _, [] => isTrue trivial
  | s, a :: as =>
    have := decidableAlong ok (step s a) as
    inferInstanceAs (Decidable (ok s a ∧ Along step ok (step s a) as))

variable {step} {ok : σ → α → Prop} {P : σ → Prop}

theorem along_append {s : σ} {as bs : List α} :
    Along step ok s (as ++ bs) ↔ Along step ok s as ∧ Along step ok (run step s as) bs := by
  induction as generalizing s with
  | nil => simp [Along]
  | cons a as ih => simp [Along, ih, and_assoc]

/-- An invariant kept by every step that meets the condition holds after such a run. -/
theorem Along.inv (hstep : ∀ s a, P s → ok s a → P (step s a)) {s : σ} (hs : P s) {as : List α}
    (h : Along step ok s as) : P (run step s as) := by
  induction as generalizing s with
  | nil => exact hs
  | cons a as ih => exact ih (hstep s a hs h.1) h.2

theorem run_inv (hstep : ∀ s a, P s → P (step s a)) {s : σ} (hs : P s) (as : List α) : P (run step s as) := by
  induction as generalizing s with
  | nil => exact hs
  | cons a as ih => exact ih (hstep s a hs)

end PythonUltra.Lib.Machine
