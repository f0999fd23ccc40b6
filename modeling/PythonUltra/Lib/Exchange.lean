/-
  PythonUltra.Lib.Exchange — elements of an array exchanged in place.

  `exchange a i j` fails outside of the array. `Exchanged lo hi` is what any number of
  exchanges between `lo` and `hi` do: they keep the elements as a whole, those outside, and
  what holds of every element inside.
-/

import PythonUltra.Lib.Raster

open PythonUltra.Lib.Raster

namespace PythonUltra.Lib

variable {α : Type}

/-- `x = a[i]; a[i] = a[j]; a[j] = x`. none: an access outside of the array. -/
def exchange (a : Array α) (i j : Int) : Option (Array α) := do
  let x ← load a i
  let y ← load a j
  let a ← store a i y
  store a j x

theorem exchange_spec {a : Array α} {i j : Int} (hi : 0 ≤ i ∧ i < a.size) (hj : 0 ≤ j ∧ j < a.size) :
    ∃ a', exchange a i j = some a' ∧ a'.Perm a ∧ a'.size = a.size ∧
      ∀ k, load a' k = if k = j then load a i else if k = i then load a j else load a k := by
  have hix : i.toNat < a.size := by omega
  have hjx : j.toNat < a.size := by omega
  have hloadi : load a i = some a[i.toNat] := by rw [load, if_pos hi.1, Array.getElem?_eq_getElem hix]
  have hloadj : load a j = some a[j.toNat] := by rw [load, if_pos hj.1, Array.getElem?_eq_getElem hjx]
  refine ⟨a.swap i.toNat j.toNat hix hjx, ?_, Array.swap_perm hix hjx, Array.size_swap, fun k => ?_⟩
  · have hstore : store a i a[j.toNat] = some (a.set i.toNat a[j.toNat] hix) := dif_pos ⟨hi.1, hix⟩
    have hstore' : store (a.set i.toNat a[j.toNat] hix) j a[i.toNat] = some ((a.set i.toNat a[j.toNat] hix).set j.toNat a[i.toNat] (by simpa using hjx)) :=
      dif_pos ⟨hj.1, by simpa using hjx⟩
    simp [exchange, hloadi, hloadj, hstore, hstore', Array.swap_def]
  · rw [hloadi, hloadj]
    unfold load
    by_cases hk : 0 ≤ k
    · rw [if_pos hk, if_pos hk, Array.getElem?_swap]
      by_cases hkj : k = j
      · rw [if_pos (by rw [hkj]), if_pos hkj]
      · rw [if_neg (by omega), if_neg hkj]
        by_cases hki : k = i
        · rw [if_pos (by rw [hki]), if_pos hki]
        · rw [if_neg (by omega), if_neg hki]
    · rw [if_neg hk, if_neg (show k ≠ j by omega), if_neg (show k ≠ i by omega), if_neg hk]

/-- Exchanges of elements between `lo` and `hi`. -/
inductive Exchanged (lo hi : Int) : Array α → Array α → Prop
  | refl (a : Array α) : Exchanged lo hi a a
  | step {a b c : Array α} {i j : Int} : Exchanged lo hi a b → lo ≤ i → i ≤ hi → lo ≤ j → j ≤ hi → 0 ≤ lo → hi < b.size →
      exchange b i j = some c → Exchanged lo hi a c

namespace Exchanged

variable {lo hi : Int} {a b c : Array α}

theorem single {i j : Int} (hlo : 0 ≤ lo) (hhi : hi < a.size) (hi' : lo ≤ i ∧ i ≤ hi) (hj : lo ≤ j ∧ j ≤ hi) (h : exchange a i j = some b) :
    Exchanged lo hi a b := .step (.refl a) hi'.1 hi'.2 hj.1 hj.2 hlo hhi h

theorem trans (h : Exchanged lo hi a b) (h' : Exchanged lo hi b c) : Exchanged lo hi a c := by
  induction h' with
  | refl => exact h
  | step _ h1 h2 h3 h4 h5 h6 h7 ih => exact .step ih h1 h2 h3 h4 h5 h6 h7

theorem keep {P : Array α → Prop} (h : Exchanged lo hi a b)
    (hstep : ∀ b c i j, b.size = a.size → lo ≤ i → i ≤ hi → lo ≤ j → j ≤ hi →
      (∀ k, load c k = if k = j then load b i else if k = i then load b j else load b k) → c.Perm b → P b → P c) (hP : P a) :
    P b ∧ b.size = a.size := by
  induction h with
  | refl => exact ⟨hP, rfl⟩
  | step _ h1 h2 h3 h4 h5 h6 h7 ih =>
    obtain ⟨hPb, hsize⟩ := ih
    obtain ⟨c', hc, hperm, hsize', hload⟩ := exchange_spec ⟨Int.le_trans h5 h1, Int.lt_of_le_of_lt h2 h6⟩ ⟨Int.le_trans h5 h3, Int.lt_of_le_of_lt h4 h6⟩
    rw [h7] at hc
    cases hc
    exact ⟨hstep _ _ _ _ hsize h1 h2 h3 h4 hload hperm hPb, hsize'.trans hsize⟩

theorem perm (h : Exchanged lo hi a b) : b.Perm a :=
  (h.keep (P := fun c => c.Perm a) (fun _ _ _ _ _ _ _ _ _ _ hperm hP => hperm.trans hP) (Array.Perm.refl a)).1

theorem size (h : Exchanged lo hi a b) : b.size = a.size := (h.keep (P := fun _ => True) (fun _ _ _ _ _ _ _ _ _ _ _ _ => trivial) trivial).2

theorem outside (h : Exchanged lo hi a b) {k : Int} (hk : k < lo ∨ hi < k) : load b k = load a k := by
  refine (h.keep (P := fun c => load c k = load a k) (fun b c i j _ hi₁ hi₂ hj₁ hj₂ hload _ hP => ?_) rfl).1
  rw [hload, if_neg (by omega), if_neg (by omega), hP]

theorem all (h : Exchanged lo hi a b) {P : α → Prop} (hP : ∀ k, lo ≤ k → k ≤ hi → ∀ x, load a k = some x → P x) :
    ∀ k, lo ≤ k → k ≤ hi → ∀ x, load b k = some x → P x := by
  refine (h.keep (P := fun c => ∀ k, lo ≤ k → k ≤ hi → ∀ x, load c k = some x → P x)
    (fun b c i j _ hi₁ hi₂ hj₁ hj₂ hload _ hb k hk₁ hk₂ x hx => ?_) hP).1
  rw [hload] at hx
  split at hx
  · exact hb i hi₁ hi₂ x hx
  · split at hx
    · exact hb j hj₁ hj₂ x hx
    · exact hb k hk₁ hk₂ x hx

theorem every (h : Exchanged lo hi a b) {P : α → Prop} (hP : ∀ k x, load a k = some x → P x) : ∀ k x, load b k = some x → P x := by
  refine (h.keep (P := fun c => ∀ k x, load c k = some x → P x) (fun b c i j _ _ _ _ _ hload _ hb k x hx => ?_) hP).1
  rw [hload] at hx
  split at hx
  · exact hb i x hx
  · split at hx
    · exact hb j x hx
    · exact hb k x hx

theorem mono {lo' hi' : Int} (h : Exchanged lo hi a b) (hlo : lo' ≤ lo) (hhi : hi ≤ hi') (h0 : 0 ≤ lo') (hin : hi' < a.size) :
    Exchanged lo' hi' a b := by
  induction h with
  | refl => exact .refl _
  | step hab h1 h2 h3 h4 h5 h6 h7 ih =>
    refine .step ih (by omega) (by omega) (by omega) (by omega) h0 ?_ h7
    rw [hab.size]
    exact hin

end Exchanged

end PythonUltra.Lib
