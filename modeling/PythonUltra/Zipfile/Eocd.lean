/-
  PythonUltra.Zipfile.Eocd — where the zipfile module finds the end record of an archive.

  `_find_eocd` reads chunks from the end of the file towards its start, and three bytes over
  into the chunk read before. What is searched at a turn is the file from the chunk's start to
  three bytes past its end, where the signature is known not to stand further on; so the place
  found is the last one (`wp_findEocd`).
-/

import PythonUltra.Zipfile.Model

namespace PythonUltra.Zipfile

open PythonUltra.Lib PythonUltra.Lib.Prog PythonUltra.Os

/-- `rfind` finds the last place. -/
theorem rfind_spec {sig : Bytes} (hsig : sig ≠ []) (data : Bytes) :
    match rfind sig data with
    | some i => sig <+: data.drop i ∧ ∀ j, i < j → ¬ sig <+: data.drop j
    | none => ∀ j, ¬ sig <+: data.drop j := by
  induction data with
  | nil =>
    rw [rfind, if_neg hsig]
    intro j h
    rw [List.drop_nil] at h
    exact hsig (List.prefix_nil.mp h)
  | cons b data ih =>
    rw [rfind]
    rcases hr : rfind sig data with _ | i <;> rw [hr] at ih
    · by_cases h : sig.isPrefixOf (b :: data) = true
      · simp only [h, if_true]
        refine ⟨List.isPrefixOf_iff_prefix.mp h, fun j hj => ?_⟩
        obtain ⟨k, rfl⟩ := Nat.exists_eq_succ_of_ne_zero (by omega : j ≠ 0)
        exact ih k
      · simp only [h]
        intro j
        cases j with
        | zero => exact fun hp => h (List.isPrefixOf_iff_prefix.mpr hp)
        | succ k => exact ih k
    · simp only at ih ⊢
      refine ⟨ih.1, fun j hj => ?_⟩
      obtain ⟨k, rfl⟩ := Nat.exists_eq_succ_of_ne_zero (by omega : j ≠ 0)
      exact ih.2 k (by omega)

/-- The signature stands at `i`, not before `limit`, and nowhere further on. -/
structure LastFrom (limit : Nat) (c : Bytes) (i : Nat) : Prop where
  from_limit : limit ≤ i
  here : signature <+: c.drop i
  last : ∀ j, i < j → ¬ signature <+: c.drop j

/-- The signature stands nowhere from `limit` on. -/
def Absent (limit : Nat) (c : Bytes) : Prop := ∀ j, limit ≤ j → ¬ signature <+: c.drop j

section
variable {c : Bytes} {start pos : Nat}

/-- What is searched at a turn: from the chunk's start to three bytes past its end. -/
theorem drop_searched (start pos j : Nat) : ((c.drop start).take (pos - start + 3)).drop j = (c.drop (start + j)).take (pos - start + 3 - j) := by
  rw [List.drop_take, List.drop_drop]

theorem mem_searched {j : Nat} (hj : start + j < pos) (h : signature <+: c.drop (start + j)) :
    signature <+: ((c.drop start).take (pos - start + 3)).drop j := by
  rw [drop_searched, List.prefix_take_iff]
  refine ⟨h, ?_⟩
  change 4 ≤ _
  omega

theorem Absent.extend (h : Absent pos c) (hnone : ∀ j, ¬ signature <+: ((c.drop start).take (pos - start + 3)).drop j) : Absent start c := by
  intro j hj hat
  by_cases hpos : pos ≤ j
  · exact h j hpos hat
  · obtain ⟨i, rfl⟩ := Nat.exists_eq_add_of_le hj
    exact hnone i (mem_searched (by omega) hat)

theorem Absent.found (h : Absent pos c) {limit idx : Nat} (hlimit : limit ≤ start)
    (hfound : signature <+: ((c.drop start).take (pos - start + 3)).drop idx ∧
      ∀ j, idx < j → ¬ signature <+: ((c.drop start).take (pos - start + 3)).drop j) : LastFrom limit c (start + idx) := by
  have hat : signature <+: c.drop (start + idx) := by
    have hfirst := hfound.1
    rw [drop_searched] at hfirst
    exact hfirst.trans (List.take_prefix _ _)
  refine ⟨by omega, hat, ?_⟩
  intro j hj hlater
  by_cases hpos : pos ≤ j
  · exact h j hpos hlater
  · obtain ⟨i, rfl⟩ := Nat.exists_eq_add_of_le (by omega : start ≤ j)
    exact hfound.2 i (by omega) (mem_searched (by omega) hlater)

end

section
variable {w : World} {p : Path} {size : Nat}

/-- The exception of a file without an end record, or one of the storage. -/
def NotFound (w : World) (limit : Nat) (c : Bytes) (e : Exc) : Prop :=
  w.Faults e ∨ e = .valueError "ZIP end record not found" [] ∧ Absent limit c

theorem NotFound.quiet {w' : World} {limit : Nat} {c : Bytes} {e : Exc} (hq : Quiet w w') (h : NotFound w' limit c e) : NotFound w limit c e := by
  unfold NotFound World.Faults at *
  rwa [hq.fault] at h

/-- By the bytes still to be searched: `carry` is the next three, and the signature is in none that have been. -/
theorem wp_findEocdLoop {limit fuel pos k : Nat} {carry c : Bytes} (hc : c = (w.contents p).take size) (hpos : pos ≤ size)
    (hcarry : carry = (c.drop pos).take 3) (hno : Absent pos c) (hfuel : pos - limit < fuel) :
    wp (findEocdLoop ⟨p, k⟩ limit fuel pos carry) (fun i w' => Quiet w w' ∧ LastFrom limit c i)
      (fun e w' => Quiet w w' ∧ NotFound w limit c e) w := by
  induction fuel generalizing w pos k carry with
  | zero => omega
  | succ fuel ih =>
    unfold findEocdLoop
    by_cases hlt : pos > limit
    · rw [if_pos hlt]
      obtain ⟨start, hstart⟩ : ∃ start, start = max limit (pos - 2048) := ⟨_, rfl⟩
      rw [← hstart]
      have hle : limit ≤ start ∧ start < pos := by omega
      refine wp_bind.mpr (wp_io_then (fun w₁ hq₁ => ?_) fun e w' hq hf => ⟨hq, .inl hf⟩)
      refine wp_bind.mpr (wp_io_then (fun w₂ hq₂ => ?_) fun e w' hq hf => ⟨hq₁.trans hq, .quiet hq₁ (.inl hf)⟩)
      have hq := hq₁.trans hq₂
      rw [wp_bind, wp_get, hq.contents]
      -- a chunk of the file is one of its first `size` bytes
      have hchunk : ((w.contents p).drop start).take (pos - start) = (c.drop start).take (pos - start) := by
        rw [hc, List.drop_take, List.take_take, Nat.min_eq_left (by omega)]
      have hdata : ((w.contents p).drop start).take (pos - start) ++ carry = (c.drop start).take (pos - start + 3) := by
        rw [hchunk, hcarry, List.take_add, List.drop_drop, Nat.add_sub_cancel' (Nat.le_of_lt hle.2)]
      have hfind := rfind_spec (by decide : signature ≠ []) ((c.drop start).take (pos - start + 3))
      dsimp only
      rw [wp_pure]
      dsimp only
      rw [hdata]
      cases hr : rfind signature ((c.drop start).take (pos - start + 3)) with
      | none =>
        rw [hr] at hfind
        have hcarry' : ((c.drop start).take (pos - start + 3)).take 3 = (c.drop start).take 3 := by
          rw [List.take_take, Nat.min_eq_left (by omega)]
        refine wp_mono (ih (by rw [hq.contents]; exact hc) (by omega) hcarry' (hno.extend hfind) (by omega)) ?_ ?_
        · exact fun i w' h => ⟨hq.trans h.1, h.2⟩
        · exact fun e w' h => ⟨hq.trans h.1, .quiet hq h.2⟩
      | some idx =>
        rw [hr] at hfind
        exact ⟨hq, hno.found hle.1 hfind⟩
    · rw [if_neg hlt]
      exact ⟨.refl w, .inr ⟨rfl, fun j hj => hno j (by omega)⟩⟩

/-- The place returned is the last one in the last 65557 of the bytes that the file has up to `size` where the
signature stands; where it stands nowhere there, ValueError is raised. -/
theorem wp_findEocd (w : World) (p : Path) (k size : Nat) :
    wp (findEocd ⟨p, k⟩ size) (fun i w' => Quiet w w' ∧ LastFrom (size - 65557) ((w.contents p).take size) i)
      (fun e w' => Quiet w w' ∧ NotFound w (size - 65557) ((w.contents p).take size) e) w := by
  have hlen : ((w.contents p).take size).drop size = [] := List.drop_eq_nil_of_le (List.length_take_le _ _)
  refine wp_findEocdLoop rfl (Nat.le_refl size) (by rw [hlen]; rfl) ?_ (by omega)
  intro j hj h
  rw [List.drop_eq_nil_of_le (Nat.le_trans (List.length_take_le _ _) hj)] at h
  exact absurd (List.prefix_nil.mp h) (by decide)

end

end PythonUltra.Zipfile
