/-
  PythonUltra.Py.MapRuns — runs of map calls against a finite map.

  `step` is a call on the finite map of `MapRefine`. A run of calls on a new map sees what
  the finite map gives, in every order of calls, as long as each call keeps to `Trusts`
  (`run_refines`). Where one does not, a key that is in the map is not found, and can be
  added a second time.
-/

import PythonUltra.Py.MapRefine

namespace PythonUltra.Py.MpMap

open PythonUltra.Lib.Probe

variable {κ ν : Type} {o : Objects κ}

/-- The key a call is about. -/
def Op.key : Op κ ν → Option κ
  | .lookup k => some k
  | .add k _ => some k
  | .remove k => some k
  | .clear => none

variable (o) in
/-- A call on the finite map, and what its caller sees. -/
def step (F : Finmap fun _ : o.Class => Option ν) : Op κ ν → (Finmap fun _ : o.Class => Option ν) × Seen ν
  | .lookup k => (F, F.lookup (o.cls k))
  | .add k value => (F.insert (o.cls k) value, some ((F.lookup (o.cls k)).getD none))
  | .remove k => (F.erase (o.cls k), F.lookup (o.cls k))
  | .clear => (∅, none)

variable (o) in
def steps : (Finmap fun _ : o.Class => Option ν) → List (Op κ ν) → (Finmap fun _ : o.Class => Option ν) × List (Seen ν)
  | F, [] => (F, [])
  | F, op :: ops =>
    let (F, out) := step o F op
    let (F, outs) := steps F ops
    (F, out :: outs)

variable [DecidableEq κ]

variable (o) in
/-- The call returns: with enough fuel it has this result. -/
def Returns (m : MpMap κ ν) (op : Op κ ν) (n : MpMap κ ν) (out : Seen ν) : Prop :=
  ∃ c, ∀ fuel, c ≤ fuel → exec o fuel m op = some (n, out)

theorem Returns.unique {m n n' : MpMap κ ν} {op : Op κ ν} {out out' : Seen ν} (h : Returns o m op n out)
    (h' : Returns o m op n' out') : n = n' ∧ out = out' := by
  obtain ⟨c, hc⟩ := h
  obtain ⟨c', hc'⟩ := h'
  have e := (hc (c + c') (by omega)).symm.trans (hc' (c + c') (by omega))
  simpa using e

variable (o) in
/-- Each call of the run finds the map in a state that keeps to `Trusts`. -/
def Trusting : MpMap κ ν → List (Op κ ν) → Prop
  | _, [] => True
  | m, op :: ops => (∀ k, op.key = some k → m.Trusts o k) ∧ ∀ n out, Returns o m op n out → Trusting n ops

section

variable {m : MpMap κ ν} {F : Finmap fun _ : o.Class => Option ν}

omit [DecidableEq κ] in
theorem init_inv (n : Nat) : (init n : MpMap κ ν).Inv o := by
  have hkeys : (init n : MpMap κ ν).keys = List.replicate n .empty := by
    show (List.replicate n blank).map _ = _
    rw [List.map_replicate]
    rfl
  refine ⟨List.length_replicate, rfl, by rw [hkeys]; exact chained_replicate n,
    by rw [hkeys]; exact distinct_replicate n, by rw [hkeys, size_replicate]; rfl, ?_⟩
  intro _ i k _ hk
  rw [← slotAt_keys, hkeys, slotAt_replicate] at hk
  simp at hk

omit [DecidableEq κ] in
theorem init_holds (n : Nat) : (init n : MpMap κ ν).Holds o ∅ := by
  refine ⟨fun q v => ?_, by simp [init]⟩
  rw [Finmap.lookup_empty]
  constructor
  · intro h
    simp at h
  · intro h
    obtain ⟨i, k, ⟨hi, he⟩, -⟩ := h
    have hblank : (init n : MpMap κ ν).elem i = blank := by
      show (List.replicate n blank).getD i _ = _
      rw [List.getD_eq_getElem?_getD, List.getElem?_replicate]
      split <;> rfl
    rw [hblank] at he
    simp [blank] at he

omit [DecidableEq κ] in
theorem clear_inv (hinv : m.Inv o) : m.clear.Inv o := by
  refine ⟨rfl, hinv.unordered, ?_, ?_, rfl, ?_⟩
  · exact chained_replicate 0
  · exact distinct_replicate 0
  · intro _ i k hi
    exact absurd hi (Nat.not_lt_zero i)

omit [DecidableEq κ] in
theorem clear_holds (m : MpMap κ ν) : m.clear.Holds o ∅ := by
  refine ⟨fun q v => ?_, by simp [clear]⟩
  rw [Finmap.lookup_empty]
  constructor
  · intro h
    simp at h
  · intro h
    obtain ⟨i, k, ⟨hi, -⟩, -⟩ := h
    exact absurd hi (Nat.not_lt_zero i)

/-- One call: it returns, and the finite map makes the same step. -/
theorem exec_spec (hinv : m.Inv o) (hf : m.Holds o F) (op : Op κ ν) (htrust : ∀ k, op.key = some k → m.Trusts o k) :
    ∃ n : MpMap κ ν, n.Inv o ∧ n.Holds o (step o F op).1 ∧ Returns o m op n (step o F op).2 := by
  cases op with
  | clear => exact ⟨m.clear, clear_inv hinv, clear_holds m, 0, fun _ _ => rfl⟩
  | lookup k =>
    obtain ⟨n, r, hn, hsame, hused, ho, c, hrun⟩ := @lookup_spec _ _ o _ m k .lookup hinv (htrust k rfl)
    have hfn := hf.same hsame hused
    cases ho with
    | @found _ i a _ hi hlive heq =>
      refine ⟨n, hn, hfn, c, fun fuel hc => ?_⟩
      have hval := hfn.lookup_at hn hi hlive
      rw [o.cls_eq.mpr heq] at hval
      simp only [exec, hrun fuel hc, step, hval]
      rfl
    | missing _ habs =>
      refine ⟨n, hn, hfn, c, fun fuel hc => ?_⟩
      simp only [exec, hrun fuel hc, step, hfn.lookup_absent habs]
      rfl
  | add k value =>
    obtain ⟨n, r, hn, hsame, hused, ho, c, hrun⟩ := @lookup_spec _ _ o _ m k .addIfNotFound hinv (htrust k rfl)
    have hfn := hf.same hsame hused
    cases ho with
    | @found _ i a _ hi hlive heq =>
      refine ⟨n.store (some i) value, store_inv hn hi, hfn.store hn hi hlive heq, c, fun fuel hc => ?_⟩
      have hval := hfn.lookup_at hn hi hlive
      rw [o.cls_eq.mpr heq] at hval
      simp only [exec, hrun fuel hc, step, hval]
      rfl
    | missing hk => exact absurd rfl hk
    | @added p habs hv =>
      have hp : p < n.alloc := by
        rw [← hn.length]
        simpa using hv.lt
      refine ⟨(n.occupy o p k).store (some p) value, store_inv (occupy_inv hn habs hv) hp, hfn.occupy habs hv, c,
        fun fuel hc => ?_⟩
      have hval : ((n.occupy o p k).elem p).value = none := by
        rw [elem_set (by rw [hn.length]; exact hp) rfl p, if_pos rfl]
      simp only [exec, hrun fuel hc, step, hfn.lookup_absent habs]
      simp [seen, hval]
  | remove k =>
    obtain ⟨n, r, hn, hsame, hused, ho, c, hrun⟩ := @lookup_spec _ _ o _ m k .removeIfFound hinv (htrust k rfl)
    have hfn := hf.same hsame hused
    cases ho with
    | found hk => exact absurd rfl hk
    | @removed i a hi hlive heq =>
      refine ⟨n.vacate i, vacate_inv hn hi hlive, hfn.vacate hn hi hlive heq, c, fun fuel hc => ?_⟩
      have hval := hfn.lookup_at hn hi hlive
      rw [o.cls_eq.mpr heq] at hval
      -- the value stays in the slot for the caller
      obtain ⟨x, hx, -, -⟩ := n.vacate_table i
      have hkeep : ((n.vacate i).elem i).value = (n.elem i).value := by
        rw [elem_set (by rw [hn.length]; exact hi) hx i, if_pos rfl]
      simp only [exec, hrun fuel hc, step, hval]
      simp [seen, hkeep]
    | missing _ habs =>
      have hval := hfn.lookup_absent habs
      refine ⟨n, hn, ?_, c, fun fuel hc => ?_⟩
      · have herase : F.erase (o.cls k) = F := by
          refine Finmap.ext_lookup fun q => ?_
          by_cases hq : q = o.cls k
          · rw [hq, Finmap.lookup_erase, hval]
          · rw [Finmap.lookup_erase_ne hq]
        show n.Holds o (F.erase (o.cls k))
        rw [herase]
        exact hfn
      · simp only [exec, hrun fuel hc, step, hval]
        rfl

end

theorem run_spec (ops : List (Op κ ν)) : ∀ (m : MpMap κ ν) (F : Finmap fun _ : o.Class => Option ν), m.Inv o →
    m.Holds o F → Trusting o m ops → ∃ n : MpMap κ ν, n.Inv o ∧ n.Holds o (steps o F ops).1 ∧
      ∃ c, ∀ fuel, c ≤ fuel → run o fuel m ops = some (n, (steps o F ops).2) := by
  induction ops with
  | nil =>
    intro m F hinv hf _
    exact ⟨m, hinv, hf, 0, fun _ _ => rfl⟩
  | cons op ops ih =>
    intro m F hinv hf htrust
    obtain ⟨m₁, hinv₁, hf₁, hret⟩ := exec_spec hinv hf op htrust.1
    obtain ⟨n, hn, hfn, c, hrun⟩ := ih m₁ _ hinv₁ hf₁ (htrust.2 m₁ _ hret)
    obtain ⟨c₁, hexec⟩ := hret
    refine ⟨n, hn, hfn, c + c₁, fun fuel hc => ?_⟩
    simp only [run, hexec fuel (by omega), Option.bind_eq_bind, Option.bind_some, hrun fuel (by omega)]
    rfl

/-- Every run of calls on a new map of any size returns and sees what the finite map gives. In the table it
leaves `used` counts the keys, no two live keys are equal, the flag is right, and growing it changes no entry. -/
theorem run_refines (o : Objects κ) (n : Nat) (ops : List (Op κ ν)) (htrust : Trusting o (init n) ops) :
    ∃ m : MpMap κ ν, (∃ c, ∀ fuel, c ≤ fuel → run o fuel (init n) ops = some (m, (steps o ∅ ops).2)) ∧
      m.Holds o (steps o ∅ ops).1 ∧ m.used = size m.keys ∧ Distinct m.keys o.Eqv ∧
      (m.allKeysAreQstrs = true → ∀ i k, i < m.alloc → (m.elem i).key = .live k → o.isQstr k = true) ∧
      ∃ g : MpMap κ ν, (∃ c, ∀ fuel, c ≤ fuel → rehash o fuel m = some g) ∧ SameEntries m g ∧ g.used = m.used ∧
        Distinct g.keys o.Eqv := by
  obtain ⟨m, hm, hf, hrun⟩ := run_spec ops _ ∅ (init_inv n) (init_holds n) htrust
  obtain ⟨g, hg, -, hused, hsame, hgrow⟩ := rehash_spec hm
  exact ⟨m, hrun, hf, hm.used, hm.distinct, hm.qstrs, g, hgrow, hsame, hused, hg.distinct⟩

/-- A run keeps to `Trusts` if none of its keys that are no strings is equal to a qstr. -/
theorem trusting_of_separate (ops : List (Op κ ν))
    (hsep : ∀ op ∈ ops, ∀ k, op.key = some k → o.isQstr k = false → o.isStr k = false →
      ∀ q, o.isQstr q = true → o.equal q k = false) :
    ∀ m F, m.Inv o → m.Holds o F → Trusting o m ops := by
  induction ops with
  | nil => exact fun _ _ _ _ => trivial
  | cons op ops ih =>
    intro m F hinv hf
    have htrust : ∀ k, op.key = some k → m.Trusts o k := by
      intro k hk hall hq hstr i hi a ha heq
      rw [slotAt_keys] at ha
      have hqa := hinv.qstrs hall i a (by rw [← hinv.length]; simpa using hi) ha
      have hne := hsep op List.mem_cons_self k hk hq hstr a hqa
      rw [Objects.Eqv, hne] at heq
      simp at heq
    refine ⟨htrust, fun n out hret => ?_⟩
    obtain ⟨n', hn', hf', hret'⟩ := exec_spec hinv hf op htrust
    obtain ⟨rfl, -⟩ := hret.unique hret'
    exact ih (fun op' hop => hsep op' (List.mem_cons_of_mem _ hop)) n _ hn' hf'

/-- Three keys: an interned string, an equal one that is not interned, and a number. -/
inductive SampleKey where
  | interned
  | string
  | number
  deriving DecidableEq

def sample : Objects SampleKey where
  equal a b := decide (a = .number) == decide (b = .number)
  isQstr a := a = .interned
  isStr a := a = .string
  qstrHash _ := 7
  unaryHash a := if a = .number then 3 else 7
  equal_equiv := by
    refine ⟨fun a => ?_, fun {a b} => ?_, fun {a b c} => ?_⟩
    · cases a <;> rfl
    · cases a <;> cases b <;> decide
    · cases a <;> cases b <;> cases c <;> decide
  unaryHash_eq a b := by cases a <;> cases b <;> decide
  qstrHash_eq a := by cases a <;> decide
  qstr_unique a b := by cases a <;> cases b <;> decide

theorem run_refines_sample :
    Trusting sample (init 1)
      [.add .interned (some 1), .lookup .string, .add .number (some 2), .remove .string, .lookup .number, .clear] ∧
    ∃ m : MpMap SampleKey Nat, (∃ c, ∀ fuel, c ≤ fuel → run sample fuel (init 1)
      [.add .interned (some 1), .lookup .string, .add .number (some 2), .remove .string, .lookup .number, .clear] =
        some (m, [some none, some (some 1), some none, some (some 1), some (some 2), none])) ∧ m.used = 0 := by
  have htrust : Trusting sample (init 1 : MpMap SampleKey Nat)
      [.add .interned (some 1), .lookup .string, .add .number (some 2), .remove .string, .lookup .number, .clear] := by
    refine trusting_of_separate _ ?_ _ ∅ (init_inv 1) (init_holds 1)
    intro op _ k _
    cases k with
    | interned =>
      intro hq
      exact absurd hq (by decide)
    | string =>
      intro _ hstr
      exact absurd hstr (by decide)
    | number =>
      intro _ _ q
      cases q <;> decide
  have hstring : sample.cls .string = sample.cls .interned := sample.cls_eq.mpr rfl
  have hnumber : sample.cls .number ≠ sample.cls .interned := fun h => absurd (sample.cls_eq.mp h) (by decide)
  have hsteps : (steps sample (∅ : Finmap fun _ => Option Nat)
      [.add .interned (some 1), .lookup .string, .add .number (some 2), .remove .string, .lookup .number, .clear]).2 =
      [some none, some (some 1), some none, some (some 1), some (some 2), none] := by
    simp only [steps, step, Finmap.lookup_empty, Option.getD_none]
    rw [hstring, Finmap.lookup_insert, Finmap.lookup_insert_of_ne _ hnumber, Finmap.lookup_insert_of_ne _ hnumber.symm,
      Finmap.lookup_insert, Finmap.lookup_erase_ne hnumber, Finmap.lookup_insert, Finmap.lookup_empty]
    rfl
  obtain ⟨m, hrun, hf, -⟩ := run_refines sample 1 _ htrust
  rw [hsteps] at hrun
  refine ⟨htrust, m, hrun, ?_⟩
  rw [← hf.card]
  rfl

/-- An interned string and an object equal to it. -/
inductive Twin where
  | interned
  | object
  deriving DecidableEq

def twins : Objects Twin where
  equal _ _ := true
  isQstr a := a = .interned
  isStr _ := false
  qstrHash _ := 0
  unaryHash _ := 0
  equal_equiv := ⟨fun _ => rfl, fun _ => rfl, fun _ _ => rfl⟩
  unaryHash_eq _ _ _ := rfl
  qstrHash_eq _ _ := rfl
  qstr_unique a b := by cases a <;> cases b <;> decide

/-- The object is not found where the finite map has it, and is added as a second, equal key. -/
theorem twin_missed :
    (¬ ∃ (m : MpMap Twin Nat) (c : Nat), ∀ fuel, c ≤ fuel →
      run twins fuel (init 2) [.add .interned (some 1), .lookup .object] =
        some (m, (steps twins ∅ [.add .interned (some 1), .lookup .object]).2)) ∧
    ∃ m : MpMap Twin Nat, (∀ fuel, run twins (fuel + 4) (init 2) [.add .interned (some 1), .add .object (some 2)] =
        some (m, [some none, some none])) ∧
      m.used = 2 ∧ ¬ Distinct m.keys twins.Eqv := by
  constructor
  · intro h
    obtain ⟨m, c, h⟩ := h
    have hrun : run twins (c + 4) (init 2 : MpMap Twin Nat) [.add .interned (some 1), .lookup .object] =
      some (⟨2, 1, true, false, false, [⟨.live .interned, some 1⟩, blank]⟩, [some none, none]) := rfl
    have e := hrun.symm.trans (h (c + 4) (by omega))
    have hcls : twins.cls .object = twins.cls .interned := twins.cls_eq.mpr rfl
    have hsteps : (steps twins ∅ [.add .interned (some 1), .lookup .object]).2 = [some none, some (some 1)] := by
      simp only [steps, step, Finmap.lookup_empty, Option.getD_none]
      rw [hcls, Finmap.lookup_insert]
    rw [hsteps] at e
    simp at e
  · refine ⟨⟨2, 2, false, false, false, [⟨.live .interned, some 1⟩, ⟨.live .object, some 2⟩]⟩, fun fuel => rfl, rfl, ?_⟩
    intro h
    have := h 0 (by decide) 1 (by decide) .interned .object rfl rfl rfl
    omega

end PythonUltra.Py.MpMap
