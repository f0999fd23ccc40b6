/-
  PythonUltra.Lib.Prog — programs that read and change a state and may raise.

  A program returns a value or an exception, and in both cases the state it left: what it
  changed before raising stays changed. `wp x Q R s` says that `x`, started in `s`,
  returns into `Q` or raises into `R`; the rules follow the constructors, and a loop over
  a list goes by an invariant (`wp_foldlM`). `lift` runs a program beside state it does
  not see: the local variables of a caller that outlive an exception.

  `Within r x`: whatever `x` does, it moves the state within the preorder `r`. Programs
  built from such ones are such, so a fact about every path through a program comes from
  its primitive calls.
-/

import Mathlib.Data.List.Basic
import Mathlib.Order.Defs.Unbundled

namespace PythonUltra.Lib

def Prog (σ ε α : Type) : Type := σ → Except ε α × σ

namespace Prog

variable {σ τ ε α β : Type}

instance : Monad (Prog σ ε) where
  pure a := fun s => (.ok a, s)
  bind x f := fun s => match x s with
    | (.ok a, s') => f a s'
    | (.error e, s') => (.error e, s')

def throw (e : ε) : Prog σ ε α := fun s => (.error e, s)

def tryCatch (x : Prog σ ε α) (h : ε → Prog σ ε α) : Prog σ ε α := fun s => match x s with
  | (.ok a, s') => (.ok a, s')
  | (.error e, s') => h e s'

def get : Prog σ ε σ := fun s => (.ok s, s)

def modify (f : σ → σ) : Prog σ ε Unit := fun s => (.ok (), f s)

def ofExcept (r : Except ε α) : Prog σ ε α := fun s => (r, s)

/-- `x`, beside state it does not touch. -/
def lift (x : Prog σ ε α) : Prog (σ × τ) ε α := fun s => ((x s.1).1, ((x s.1).2, s.2))

/-- `x` with a local variable of its own. -/
def withVar (t : τ) (x : Prog (σ × τ) ε α) : Prog σ ε α := fun s => ((x (s, t)).1, (x (s, t)).2.1)

/-- `x`, then `close` whether it returned or raised; an exception of `close` wins. -/
def closing (x : Prog σ ε α) (close : Prog σ ε Unit) : Prog σ ε α := fun s => match x s with
  | (r, s') => match close s' with
    | (.ok _, s'') => (r, s'')
    | (.error e, s'') => (.error e, s'')

/-- `while True` over a value carried from turn to turn: a turn gives the next value or
ends the loop. `stuck` is raised where the turns given run out. -/
def loop (stuck : ε) (body : β → Prog σ ε (β ⊕ α)) : Nat → β → Prog σ ε α
  | 0, _ => throw stuck
  | fuel + 1, b => do
    match ← body b with
    | .inl b => loop stuck body fuel b
    | .inr a => pure a

/-- `x` returns into `Q` or raises into `R`. -/
def wp (x : Prog σ ε α) (Q : α → σ → Prop) (R : ε → σ → Prop) (s : σ) : Prop :=
  match x s with
  | (.ok a, s') => Q a s'
  | (.error e, s') => R e s'

variable {Q : α → σ → Prop} {R : ε → σ → Prop} {s : σ}

@[simp] theorem wp_pure (a : α) : wp (pure a : Prog σ ε α) Q R s = Q a s := rfl

@[simp] theorem wp_throw (e : ε) : wp (throw e : Prog σ ε α) Q R s = R e s := rfl

@[simp] theorem wp_get {Q : σ → σ → Prop} : wp (get : Prog σ ε σ) Q R s = Q s s := rfl

@[simp] theorem wp_modify {Q : Unit → σ → Prop} (f : σ → σ) : wp (modify f : Prog σ ε Unit) Q R s = Q () (f s) := rfl

@[simp] theorem wp_ofExcept_ok (a : α) : wp (ofExcept (.ok a) : Prog σ ε α) Q R s = Q a s := rfl

@[simp] theorem wp_ofExcept_error (e : ε) : wp (ofExcept (.error e) : Prog σ ε α) Q R s = R e s := rfl

theorem wp_bind {x : Prog σ ε β} {f : β → Prog σ ε α} :
    wp (x >>= f) Q R s ↔ wp x (fun b s' => wp (f b) Q R s') R s := by
  simp only [wp, bind]
  rcases h : x s with ⟨_ | b, s'⟩ <;> rfl

theorem wp_tryCatch {x : Prog σ ε α} {h : ε → Prog σ ε α} :
    wp (tryCatch x h) Q R s ↔ wp x Q (fun e s' => wp (h e) Q R s') s := by
  simp only [wp, tryCatch]
  rcases hx : x s with ⟨_ | a, s'⟩ <;> rfl

theorem wp_lift {x : Prog σ ε α} {Q : α → σ × τ → Prop} {R : ε → σ × τ → Prop} {s : σ × τ} :
    wp (lift x) Q R s ↔ wp x (fun a w => Q a (w, s.2)) (fun e w => R e (w, s.2)) s.1 := by
  simp only [wp, lift]
  rcases h : x s.1 with ⟨_ | a, s'⟩ <;> rfl

theorem wp_withVar {t : τ} {x : Prog (σ × τ) ε α} :
    wp (withVar t x) Q R s ↔ wp x (fun a s' => Q a s'.1) (fun e s' => R e s'.1) (s, t) := by
  simp only [wp, withVar]
  rcases h : x (s, t) with ⟨_ | a, s'⟩ <;> rfl

theorem wp_closing {x : Prog σ ε α} {c : Prog σ ε Unit} :
    wp (closing x c) Q R s ↔
      wp x (fun a s' => wp c (fun _ => Q a) R s') (fun e s' => wp c (fun _ => R e) R s') s := by
  simp only [wp, closing]
  rcases hx : x s with ⟨_ | a, s'⟩ <;> simp only <;> rcases hc : c s' with ⟨_ | _, s''⟩ <;> rfl

theorem wp_mono {x : Prog σ ε α} {Q' : α → σ → Prop} {R' : ε → σ → Prop} (h : wp x Q R s)
    (hQ : ∀ a s', Q a s' → Q' a s') (hR : ∀ e s', R e s' → R' e s') : wp x Q' R' s := by
  unfold wp at *
  rcases hx : x s with ⟨e | a, s'⟩ <;> rw [hx] at h
  · exact hR e s' h
  · exact hQ a s' h

theorem wp_then {x : Prog σ ε β} {f : β → Prog σ ε α} {Q₁ : β → σ → Prop} {R₁ : ε → σ → Prop} (h : wp x Q₁ R₁ s)
    (hQ : ∀ b s', Q₁ b s' → wp (f b) Q R s') (hR : ∀ e s', R₁ e s' → R e s') : wp (x >>= f) Q R s :=
  wp_bind.mpr (wp_mono h hQ hR)

theorem wp_foldlM_rest {f : α → β → Prog σ ε α} {I : List β → α → σ → Prop} (hstep : ∀ b l a s, I (b :: l) a s → wp (f a b) (I l) R s)
    {l : List β} {a : α} (h : I l a s) : wp (l.foldlM f a) (I []) R s := by
  induction l generalizing a s with
  | nil => exact h
  | cons b l ih =>
    rw [List.foldlM_cons]
    exact wp_then (hstep b l a s h) (fun _ _ h => ih h) fun _ _ h => h

theorem wp_run {x : Prog σ ε α} {P : σ → Prop} (h : wp x (fun _ => P) (fun _ => P) s) : P (x s).2 := by
  unfold wp at h
  rcases hx : x s with ⟨e | a, s'⟩ <;> rw [hx] at h <;> exact h

theorem wp_ok {x : Prog σ ε α} {a : α} {s' : σ} (h : wp x Q R s) (hx : x s = (.ok a, s')) : Q a s' := by
  unfold wp at h; rwa [hx] at h

theorem wp_error {x : Prog σ ε α} {e : ε} {s' : σ} (h : wp x Q R s) (hx : x s = (.error e, s')) : R e s' := by
  unfold wp at h; rwa [hx] at h

theorem wp_returns {x : Prog σ ε α} (h : wp x Q R s) (hR : ∀ e s', ¬ R e s') : ∃ a s', x s = (.ok a, s') ∧ Q a s' := by
  unfold wp at h
  rcases hx : x s with ⟨e | a, s'⟩ <;> rw [hx] at h
  · exact absurd h (hR e s')
  · exact ⟨a, s', rfl, h⟩

theorem bind_of_ok {x : Prog σ ε β} {f : β → Prog σ ε α} {b : β} {s' : σ} (h : x s = (.ok b, s')) : (x >>= f) s = f b s' := by
  simp only [bind, h]

theorem bind_of_error {x : Prog σ ε β} {f : β → Prog σ ε α} {e : ε} {s' : σ} (h : x s = (.error e, s')) :
    (x >>= f) s = (.error e, s') := by
  simp only [bind, h]

theorem bind_assoc {γ : Type} (x : Prog σ ε β) (f : β → Prog σ ε α) (g : α → Prog σ ε γ) : x >>= f >>= g = x >>= fun b => f b >>= g := by
  funext s
  simp only [bind]
  rcases x s with ⟨_ | b, s'⟩ <;> rfl

theorem loop_next {stuck : ε} {body : β → Prog σ ε (β ⊕ α)} {n : Nat} {b b' : β} {s' : σ} (h : body b s = (.ok (.inl b'), s')) :
    loop stuck body (n + 1) b s = loop stuck body n b' s' := bind_of_ok h

theorem loop_done {stuck : ε} {body : β → Prog σ ε (β ⊕ α)} {n : Nat} {b : β} {a : α} {s' : σ} (h : body b s = (.ok (.inr a), s')) :
    loop stuck body (n + 1) b s = (.ok a, s') := bind_of_ok h

/-! ## Programs that do the same from a state -/

theorem get_bind (f : σ → Prog σ ε α) (s : σ) : (get >>= f) s = f s s := rfl

theorem modify_bind (f : σ → σ) (x : Unit → Prog σ ε α) (s : σ) : (modify f >>= x) s = x () (f s) := rfl

theorem ofExcept_bind (b : β) (f : β → Prog σ ε α) (s : σ) : (ofExcept (.ok b) >>= f) s = f b s := rfl

theorem eq_ok {x : Prog σ ε α} {a : α} (h : (x s).1 = .ok a) : x s = (.ok a, (x s).2) := Prod.ext h rfl

theorem eq_error {x : Prog σ ε α} {e : ε} (h : (x s).1 = .error e) : x s = (.error e, (x s).2) := Prod.ext h rfl

/-! ## Programs on states that are related -/

/-- From related states both return, or raise, the same, and leave related states. -/
def Matches (rel : σ → τ → Prop) (x : Prog σ ε α) (y : Prog τ ε α) : Prop := ∀ s t, rel s t → (x s).1 = (y t).1 ∧ rel (x s).2 (y t).2

section
variable {rel : σ → τ → Prop}

theorem matches_pure (a : α) : Matches rel (pure a : Prog σ ε α) (pure a) := fun _ _ h => ⟨rfl, h⟩

theorem matches_throw (e : ε) : Matches rel (throw e : Prog σ ε α) (throw e) := fun _ _ h => ⟨rfl, h⟩

theorem Matches.bind {x : Prog σ ε β} {y : Prog τ ε β} {f : β → Prog σ ε α} {g : β → Prog τ ε α} (h : Matches rel x y)
    (hf : ∀ b, Matches rel (f b) (g b)) : Matches rel (x >>= f) (y >>= g) := by
  intro s t hst
  obtain ⟨heq, hrel⟩ := h s t hst
  simp only [Bind.bind]
  rcases hx : x s with ⟨e | b, s'⟩ <;> rcases hy : y t with ⟨e' | b', t'⟩ <;> rw [hx, hy] at heq hrel <;> cases heq
  · exact ⟨rfl, hrel⟩
  · exact hf b s' t' hrel

/-- What each request gives, and the state behind the last. -/
def trace {κ : Type} (exec : κ → Prog σ ε α) : List κ → σ → List (Except ε α) × σ
  | [], s => ([], s)
  | c :: cs, s => ((exec c s).1 :: (trace exec cs (exec c s).2).1, (trace exec cs (exec c s).2).2)

theorem trace_matches {κ : Type} {exec : κ → Prog σ ε α} {exec' : κ → Prog τ ε α} (h : ∀ c, Matches rel (exec c) (exec' c)) :
    ∀ (cs : List κ) {s : σ} {t : τ}, rel s t → (trace exec cs s).1 = (trace exec' cs t).1 ∧ rel (trace exec cs s).2 (trace exec' cs t).2
  | [], _, _, hst => ⟨rfl, hst⟩
  | c :: cs, s, t, hst => by
    obtain ⟨heq, hrel⟩ := h c s t hst
    obtain ⟨heq', hrel'⟩ := trace_matches h cs hrel
    rw [trace, trace, heq, heq']
    exact ⟨rfl, hrel'⟩

end

/-! ## Programs that move the state within a preorder -/

def Within (r : σ → σ → Prop) (x : Prog σ ε α) : Prop := ∀ s, r s (x s).2

namespace Within

variable {r : σ → σ → Prop}

theorem wp {x : Prog σ ε α} (h : Within r x) (hQ : ∀ a s', r s s' → Q a s') (hR : ∀ e s', r s s' → R e s') :
    Prog.wp x Q R s := by
  have := h s
  unfold Prog.wp
  rcases hx : x s with ⟨e | a, s'⟩ <;> rw [hx] at this
  · exact hR e s' this
  · exact hQ a s' this

theorem ite {c : Prop} [Decidable c] {x y : Prog σ ε α} (hx : Within r x) (hy : Within r y) :
    Within r (if c then x else y) := by
  split <;> assumption

variable [IsPreorder σ r]

theorem pure (a : α) : Within r (Pure.pure a : Prog σ ε α) := fun s => refl_of r s

theorem throw (e : ε) : Within r (Prog.throw e : Prog σ ε α) := fun s => refl_of r s

theorem get : Within r (Prog.get : Prog σ ε σ) := fun s => refl_of r s

theorem bind {x : Prog σ ε β} {f : β → Prog σ ε α} (h : Within r x) (hf : ∀ b, Within r (f b)) :
    Within r (x >>= f) := by
  intro s
  have := h s
  simp only [Bind.bind]
  rcases hx : x s with ⟨e | b, s'⟩ <;> rw [hx] at this
  · exact this
  · exact trans_of r this (hf b s')

theorem tryCatch {x : Prog σ ε α} {h : ε → Prog σ ε α} (hx : Within r x) (hh : ∀ e, Within r (h e)) :
    Within r (Prog.tryCatch x h) := by
  intro s
  have := hx s
  unfold Prog.tryCatch
  rcases hx : x s with ⟨e | b, s'⟩ <;> rw [hx] at this
  · exact trans_of r this (hh e s')
  · exact this

theorem closing {x : Prog σ ε α} {c : Prog σ ε Unit} (hx : Within r x) (hc : Within r c) :
    Within r (Prog.closing x c) := by
  intro s
  have h1 := hx s
  have h2 := hc (x s).2
  unfold Prog.closing
  rcases hx : x s with ⟨r', s'⟩
  rw [hx] at h1 h2
  simp only at h1 h2 ⊢
  rcases hc : c s' with ⟨_ | _, s''⟩ <;> rw [hc] at h2 <;> exact trans_of r h1 h2

theorem foldlM_mem {f : α → β → Prog σ ε α} {l : List β} (h : ∀ a, ∀ b ∈ l, Within r (f a b)) (a : α) :
    Within r (l.foldlM f a) := by
  induction l generalizing a with
  | nil => exact Within.pure a
  | cons b l ih =>
    rw [List.foldlM_cons]
    exact (h a b List.mem_cons_self).bind (ih fun a b hb => h a b (List.mem_cons_of_mem _ hb))

theorem foldlM {f : α → β → Prog σ ε α} {l : List β} (h : ∀ a b, Within r (f a b)) (a : α) :
    Within r (l.foldlM f a) := foldlM_mem (fun a b _ => h a b) a

theorem loop {stuck : ε} {body : β → Prog σ ε (β ⊕ α)} (h : ∀ b, Within r (body b)) (fuel : Nat) (b : β) :
    Within r (Prog.loop stuck body fuel b) := by
  induction fuel generalizing b with
  | zero => exact .throw _
  | succ fuel ih =>
    refine (h b).bind fun c => ?_
    cases c with
    | inl b => exact ih b
    | inr a => exact .pure a

end Within

/-- `P` is not lost. -/
def Preserves (P : σ → Prop) (s s' : σ) : Prop := P s → P s'

instance (P : σ → Prop) : IsPreorder σ (Preserves P) where
  refl _ := id
  trans _ _ _ h1 h2 := h2 ∘ h1

variable {P : σ → Prop}

theorem Within.keep {x : Prog σ ε α} (h : Within (Preserves P) x) (hs : P s) :
    Prog.wp x (fun _ => P) (fun _ => P) s :=
  h.wp (fun _ _ h' => h' hs) fun _ _ h' => h' hs

theorem within_of_wp {x : Prog σ ε α} (h : ∀ s, P s → wp x (fun _ => P) (fun _ => P) s) :
    Within (Preserves P) x :=
  fun s hs => wp_run (h s hs)

/-- A relation on the state, beside variables it says nothing about. -/
def OnFst (r : σ → σ → Prop) (s s' : σ × τ) : Prop := r s.1 s'.1

instance (r : σ → σ → Prop) [IsPreorder σ r] : IsPreorder (σ × τ) (OnFst r) where
  refl s := refl_of r s.1
  trans _ _ _ h1 h2 := trans_of r h1 h2

theorem Within.onFst {r : σ → σ → Prop} {x : Prog σ ε α} (h : Within r x) :
    Within (OnFst r) (Prog.lift x : Prog (σ × τ) ε α) := fun s => h s.1

theorem Within.withVar {r : σ → σ → Prop} {x : Prog (σ × τ) ε α} (h : Within (OnFst r) x) (t : τ) :
    Within r (Prog.withVar t x) := fun s => h (s, t)

theorem Within.lift {r : σ → σ → Prop} {P : σ × τ → Prop} {x : Prog σ ε α} (h : Within r x)
    (hP : ∀ s s' t, P (s, t) → r s s' → P (s', t)) : Within (Preserves P) (Prog.lift x : Prog (σ × τ) ε α) :=
  fun s hs => hP s.1 _ s.2 hs (h s.1)

end Prog

end PythonUltra.Lib
