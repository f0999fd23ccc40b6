/-
  PythonUltra.Py.Binding — mp_setup_code_state_helper binds as Python does.

  `Signature` is a function as the compiler has it, and `compile` the function object it
  makes of it. Python's rules are `Accepts`, which calls are bound, and `value`, what each
  parameter is bound to. The locals are followed as a function of their number (`Rep`);
  every part of the helper either leaves the locals its lemma names or raises a TypeError
  (`Meets`), and a local that is closed over ends up in a cell (`boxed`).
-/

import PythonUltra.Py.CodeState
import Mathlib.Data.List.Nodup

namespace PythonUltra.Py

/-- A function as it is compiled: its parameters are numbers of names in the qstr table. -/
structure Signature (κ : Type) where
  name : Nat
  pos : List Nat
  kwonly : List Nat
  defaults : List κ
  kwDefaults : Option κ
  varargs : Bool
  varkeywords : Bool
  generator : Bool
  nState : Nat
  nExcStack : Nat
  lineInfo : List Nat
  /-- The locals that are closed over. -/
  cells : List Nat
  code : List Nat
  qstrTable : List Nat
  defaults_le : defaults.length ≤ pos.length
  locals_le : pos.length + kwonly.length + varargs.toNat + varkeywords.toNat ≤ nState
  nState_pos : 0 < nState
  cells_lt : ∀ c ∈ cells, c < nState
  cells_nodup : cells.Nodup

namespace Signature

variable {κ : Type} (s : Signature κ)

def params : List Nat := s.pos ++ s.kwonly

/-- The names of the parameters. -/
def names : List Nat := s.params.map fun q => s.qstrTable.getD q 0

def nPos : Nat := s.pos.length

def sig : Sig where
  nState := s.nState
  nExcStack := s.nExcStack
  scopeFlags := s.generator.toNat + 2 * s.varkeywords.toNat + 4 * s.varargs.toNat + 8 * s.kwDefaults.isSome.toNat
  nPosArgs := s.pos.length
  nKwonlyArgs := s.kwonly.length
  nDefPosArgs := s.defaults.length

/-- The source info: the function's name, the names of the parameters, the lines. -/
def info : List Nat := encodeUint s.name ++ s.params.flatMap encodeUint ++ s.lineInfo

/-- The function object the emitter and mp_obj_new_fun_bc make. -/
def compile : FunBc κ where
  bytecode := sigEncode s.sig ++ sizeEncode s.info.length s.cells.length ++ s.info ++ s.cells ++ s.code
  extraArgs := s.defaults ++ s.kwDefaults.toList
  qstrTable := s.qstrTable

/-! ## Python's rules -/

variable (b : Boxes κ) (args : List κ) (kws : List (Nat × κ))

/-- The positional arguments that go to parameters. -/
def taken : Nat := min args.length s.nPos

/-- What a call gives for parameter `j`. -/
def given (j : Nat) : Option κ :=
  if j < s.taken args then args[j]? else (kws.find? fun kw => s.names.idxOf kw.1 = j).map Prod.snd

def default (j : Nat) : Option κ :=
  if j < s.nPos then if s.nPos - s.defaults.length ≤ j then s.defaults[j - (s.nPos - s.defaults.length)]? else none
  else s.kwDefaults.bind fun d => b.lookup d (s.names.getD j 0)

/-- The value bound to parameter `j`. -/
def value (j : Nat) : Option κ := (s.given args kws j).or (s.default b j)

structure Accepts : Prop where
  room : args.length ≤ s.nPos ∨ s.varargs = true
  once : ∀ kw ∈ kws, kw.1 ∈ s.names → s.taken args ≤ s.names.idxOf kw.1
  known : ∀ kw ∈ kws, kw.1 ∉ s.names → s.varkeywords = true
  bound : ∀ j < s.names.length, (s.value b args kws j).isSome = true

instance : Decidable (s.Accepts b args kws) :=
  decidable_of_iff ((args.length ≤ s.nPos ∨ s.varargs = true) ∧
      (∀ kw ∈ kws, kw.1 ∈ s.names → s.taken args ≤ s.names.idxOf kw.1) ∧
      (∀ kw ∈ kws, kw.1 ∉ s.names → s.varkeywords = true) ∧
      ∀ j < s.names.length, (s.value b args kws j).isSome = true)
    ⟨fun ⟨h₁, h₂, h₃, h₄⟩ => ⟨h₁, h₂, h₃, h₄⟩, fun ⟨h₁, h₂, h₃, h₄⟩ => ⟨h₁, h₂, h₃, h₄⟩⟩

/-- The keywords for the dict. -/
def extras : List (Nat × κ) := kws.filter fun kw => kw.1 ∉ s.names

/-- The locals when parameter `j` has the value `g j`: the parameters, then the tuple, the dict and nothing. -/
def laid (g : Nat → Option κ) (j : Nat) : Option κ :=
  if j < s.names.length then g j
  else if s.varargs = true ∧ j = s.names.length then some (b.tuple (args.drop s.nPos))
  else if s.varkeywords = true ∧ j = s.names.length + s.varargs.toNat then some (b.dict (s.extras kws))
  else none

/-- What local `j` holds, before it is put into a cell. -/
def bare : Nat → Option κ := s.laid b args kws (s.value b args kws)

/-- A local that is closed over is a cell. -/
def boxed (f : Nat → Option κ) (j : Nat) : Option κ := if j ∈ s.cells then some (b.cell (f j)) else f j

end Signature

namespace CodeState

variable {κ : Type}

/-! ## Locals -/

/-- The array holds `f i` for local `i`. -/
structure Rep (n : Nat) (st : List (Option κ)) (f : Nat → Option κ) : Prop where
  length : st.length = n
  locals : ∀ i < n, st.getD (n - 1 - i) none = f i

/-- The step has a result as in `post` if `good`, and raises a TypeError if not. -/
def Meets {α : Type} (r : Binding α) (good : Prop) (post : α → Prop) : Prop :=
  (good → ∃ a, r = .ok a ∧ post a) ∧ (¬ good → ∃ e, r = .error (.typeError e))

section

variable {α β : Type} {r : Binding α} {good good' : Prop} {post post' : α → Prop}

theorem Meets.bind {next : α → Binding β} {last : β → Prop} (h : Meets r good post)
    (hnext : ∀ a, post a → Meets (next a) good' last) : Meets (r >>= next) (good ∧ good') last := by
  constructor
  · intro hg
    obtain ⟨a, rfl, hpost⟩ := h.1 hg.1
    exact (hnext a hpost).1 hg.2
  · intro hg
    by_cases hgood : good
    · obtain ⟨a, rfl, hpost⟩ := h.1 hgood
      exact (hnext a hpost).2 fun h' => hg ⟨hgood, h'⟩
    · obtain ⟨e, rfl⟩ := h.2 hgood
      exact ⟨e, rfl⟩

theorem Meets.of_iff (h : Meets r good post) (hiff : good' ↔ good) : Meets r good' post := by
  rw [← hiff] at h
  exact h

theorem Meets.imp (h : Meets r good post) (himp : good → ∀ a, post a → post' a) : Meets r good post' := by
  refine ⟨fun hg => ?_, h.2⟩
  obtain ⟨a, ha, hpost⟩ := h.1 hg
  exact ⟨a, ha, himp hg a hpost⟩

theorem Meets.pure {a : α} (h : post a) : Meets (.ok a) True post := ⟨fun _ => ⟨a, rfl, h⟩, fun h => absurd trivial h⟩

theorem Meets.raise (e : ArgError) : Meets (.error (.typeError e)) False post := ⟨fun h => h.elim, fun _ => ⟨e, rfl⟩⟩

theorem Meets.then {next : α → Binding β} {last : β → Prop} (h : Meets r True post)
    (hnext : ∀ a, post a → Meets (next a) good last) : Meets (r >>= next) good last :=
  (h.bind hnext).of_iff ⟨fun hg => ⟨trivial, hg⟩, And.right⟩

end

section

variable {n i : Nat} {st : List (Option κ)} {f g : Nat → Option κ}

theorem Rep.congr (h : Rep n st f) (hfg : ∀ i < n, f i = g i) : Rep n st g :=
  ⟨h.length, fun i hi => by rw [h.locals i hi, hfg i hi]⟩

theorem slot_local (h : Rep n st f) (hi : i < n) : slot st (n - 1 - i : Int) = .ok (f i) := by
  have hpos : ((n - 1 - i : Int)).toNat = n - 1 - i := by omega
  unfold slot
  rw [if_pos ⟨by omega, by rw [h.length]; omega⟩, hpos, h.locals i hi]

theorem put_local (h : Rep n st f) (hi : i < n) (v : κ) :
    ∃ st', put st (n - 1 - i : Int) v = .ok st' ∧ Rep n st' (Function.update f i (some v)) := by
  have hpos : ((n - 1 - i : Int)).toNat = n - 1 - i := by omega
  refine ⟨st.set (n - 1 - i) (some v), ?_, by rw [List.length_set, h.length], fun j hj => ?_⟩
  · unfold put
    rw [if_pos ⟨by omega, by rw [h.length]; omega⟩, hpos]
  · rw [List.getD_eq_getElem?_getD, List.getElem?_set]
    by_cases e : j = i
    · subst e
      rw [if_pos rfl, if_pos (by rw [h.length]; omega), Function.update_self]
      rfl
    · rw [if_neg (by omega), Function.update_of_ne e, ← List.getD_eq_getElem?_getD]
      exact h.locals j hj

theorem put_meets (h : Rep n st f) (hi : i < n) (v : κ) :
    Meets (put st (n - 1 - i : Int) v) True (Rep n · (Function.update f i (some v))) := by
  obtain ⟨st', hput, hrep⟩ := put_local h hi v
  rw [hput]
  exact .pure hrep

/-! ## Positional arguments -/

theorem copyFrom_meets (args : List κ) : ∀ (i : Nat) (st : List (Option κ)) (f : Nat → Option κ), Rep n st f →
    i + args.length ≤ n →
    Meets (copyFrom n i args st) True (Rep n · fun j => if i ≤ j ∧ j < i + args.length then args[j - i]? else f j) := by
  induction args with
  | nil =>
    intro i st f h _
    refine .pure (h.congr fun j _ => ?_)
    rw [if_neg (by simp)]
  | cons v args ih =>
    intro i st f h hn
    rw [List.length_cons] at hn
    refine (put_meets h (by omega) v).then fun st' h' => ?_
    refine (ih (i + 1) st' _ h' (by omega)).imp fun _ st'' h'' => h''.congr fun j _ => ?_
    rw [List.length_cons]
    by_cases e : j = i
    · subst e
      rw [if_neg (by omega), if_pos (by omega), Function.update_self]
      simp
    · rw [Function.update_of_ne e]
      by_cases hj : i + 1 ≤ j ∧ j < i + 1 + args.length
      · obtain ⟨k, rfl⟩ := Nat.exists_eq_add_of_le hj.1
        rw [if_pos hj, if_pos (by omega), show i + 1 + k - i = k + 1 by omega, Nat.add_sub_cancel_left]
        rfl
      · rw [if_neg hj, if_neg (by omega)]

end

variable (s : Signature κ) (b : Boxes κ) (args : List κ) (kws : List (Nat × κ))

section

variable {n i j : Nat} {st : List (Option κ)} {f g : Nat → Option κ}

theorem extra_default (hi : i < s.defaults.length) : extra s.compile i = .ok (s.defaults.get ⟨i, hi⟩) := by
  unfold extra Signature.compile
  rw [if_pos (Int.natCast_nonneg i), Int.toNat_natCast, List.getElem?_append_left hi, List.getElem?_eq_getElem hi]
  rfl

theorem extra_kwDefaults {d : κ} (h : s.kwDefaults = some d) : extra s.compile s.defaults.length = .ok d := by
  unfold extra Signature.compile
  rw [if_pos (Int.natCast_nonneg _), Int.toNat_natCast, List.getElem?_append_right (Nat.le_refl _), h]
  simp

/-- Parameter `j` has a default when it is one of the last. -/
theorem default_of_lt (hj : j < s.nPos) (hd : s.nPos - s.defaults.length ≤ j) (h : j - (s.nPos - s.defaults.length) < s.defaults.length) :
    s.default b j = some (s.defaults.get ⟨j - (s.nPos - s.defaults.length), h⟩) := by
  unfold Signature.default
  rw [if_pos hj, if_pos hd, List.getElem?_eq_getElem h]
  rfl

theorem fillFrom_meets (count : Nat) : ∀ (i : Nat) (st : List (Option κ)) (f : Nat → Option κ), Rep s.nState st f →
    i + count = s.nPos → s.nPos - s.defaults.length ≤ i →
    Meets (fillFrom s.compile s.nState s.nPos s.defaults.length count i st) True
      (Rep s.nState · fun j => if i ≤ j ∧ j < s.nPos then s.default b j else f j) := by
  induction count with
  | zero =>
    intro i st f h hc _
    refine .pure (h.congr fun j _ => ?_)
    rw [if_neg (by omega)]
  | succ count ih =>
    intro i st f h hc hi
    have hle : s.defaults.length ≤ s.nPos := s.defaults_le
    have hn := s.locals_le
    have hk : i - (s.nPos - s.defaults.length) < s.defaults.length := by omega
    have hextra : extra s.compile (i - (s.nPos - s.defaults.length : Int)) = .ok (s.defaults.get ⟨_, hk⟩) := by
      rw [show (i - (s.nPos - s.defaults.length : Int)) = (i - (s.nPos - s.defaults.length) : Nat) by omega]
      exact extra_default s hk
    unfold fillFrom
    rw [hextra]
    refine (put_meets h (show i < s.nState by unfold Signature.nPos at hc; omega) _).then fun st' h' => ?_
    refine (ih (i + 1) st' _ h' (by omega) (by omega)).imp fun _ st'' h'' => h''.congr fun j _ => ?_
    by_cases e : j = i
    · subst e
      rw [if_neg (by omega), if_pos (by omega), Function.update_self, default_of_lt s b (by omega) hi hk]
    · rw [Function.update_of_ne e]
      by_cases hj : i + 1 ≤ j ∧ j < s.nPos
      · rw [if_pos hj, if_pos (by omega)]
      · rw [if_neg hj, if_neg (by omega)]

theorem flag_bits : ∀ g k a d : Bool,
    ((g.toNat + 2 * k.toNat + 4 * a.toNat + 8 * d.toNat) &&& flagVarkeywords ≠ 0 ↔ k = true) ∧
    ((g.toNat + 2 * k.toNat + 4 * a.toNat + 8 * d.toNat) &&& flagVarargs ≠ 0 ↔ a = true) ∧
    ((g.toNat + 2 * k.toNat + 4 * a.toNat + 8 * d.toNat) &&& flagDefkwargs ≠ 0 ↔ d = true) := by decide

theorem varkeywords_flag : s.sig.scopeFlags &&& flagVarkeywords ≠ 0 ↔ s.varkeywords = true := (flag_bits _ _ _ _).1

theorem varargs_flag : s.sig.scopeFlags &&& flagVarargs ≠ 0 ↔ s.varargs = true := (flag_bits _ _ _ _).2.1

theorem defkwargs_flag : s.sig.scopeFlags &&& flagDefkwargs ≠ 0 ↔ s.kwDefaults.isSome = true := (flag_bits _ _ _ _).2.2

/-- No keyword can have been given, and none has a default. -/
def fast : Prop := kws.length = 0 ∧ s.kwDefaults.isSome = false

instance : Decidable (fast s kws) := inferInstanceAs (Decidable (_ ∧ _))

theorem fast_flag : (kws.length = 0 ∧ s.sig.scopeFlags &&& flagDefkwargs = 0) ↔ fast s kws := by
  have h := not_congr (defkwargs_flag s)
  rw [Classical.not_not, Bool.not_eq_true] at h
  exact and_congr_right fun _ => h

/-- The locals before the arguments are copied. -/
def tupled (j : Nat) : Option κ :=
  if s.varargs = true ∧ j = s.names.length then some (b.tuple (args.drop s.nPos)) else none

theorem names_length : s.names.length = s.nPos + s.kwonly.length := by
  unfold Signature.names Signature.params Signature.nPos
  rw [List.length_map, List.length_append]

theorem varargs_lt (h : s.varargs = true) : s.names.length < s.nState := by
  have hn := s.locals_le
  have hl := names_length s
  unfold Signature.nPos at hl
  rw [h, Bool.toNat_true] at hn
  omega

theorem rep_replicate (n : Nat) : Rep n (List.replicate n none) fun _ : Nat => (none : Option κ) := by
  refine ⟨List.length_replicate, fun i _ => ?_⟩
  rw [List.getD_eq_getElem?_getD, List.getElem?_replicate]
  split <;> rfl

theorem tuple_meets (h : Rep s.nState st fun _ => none) (hv : s.varargs = true) (extra : List κ) (he : extra = args.drop s.nPos) :
    Meets (put st (s.nState - 1 - s.nPos - s.kwonly.length : Int) (b.tuple extra)) True (Rep s.nState · (tupled s b args)) := by
  have hl := names_length s
  have hpos : (s.nState - 1 - s.nPos - s.kwonly.length : Int) = s.nState - 1 - s.names.length := by omega
  rw [hpos, he]
  refine (put_meets h (varargs_lt s hv) _).imp fun _ st' h' => h'.congr fun j _ => ?_
  unfold tupled
  by_cases e : j = s.names.length
  · rw [e, Function.update_self, if_pos ⟨hv, rfl⟩]
  · rw [Function.update_of_ne e, if_neg fun h => e h.2]

/-- Where the dict of the keywords goes. -/
def dictPos : Int := s.nState - 1 - (s.names.length + s.varargs.toNat : Nat)

/-- The locals after the positional arguments are counted. -/
def counted (j : Nat) : Option κ :=
  if fast s kws ∧ s.taken args ≤ j ∧ j < s.nPos then s.default b j else tupled s b args j

/-- The positional arguments there may be. -/
structure Fits : Prop where
  room : args.length ≤ s.nPos ∨ s.varargs = true
  enough : fast s kws → s.nPos - s.defaults.length ≤ args.length

/-- The tuple is empty unless there are too many arguments. -/
theorem emptyTuple_meets (h : Rep s.nState st fun _ => none) (hle : args.length ≤ s.nPos) :
    Meets (emptyTuple b s.sig (s.nState - 1 - s.nPos - s.kwonly.length) st) True
      fun r => r.2 = dictPos s ∧ Rep s.nState r.1 (tupled s b args) := by
  unfold emptyTuple
  have hl := names_length s
  by_cases hv : s.varargs = true
  · rw [if_pos ((varargs_flag s).mpr hv)]
    refine (tuple_meets s b args h hv [] (List.drop_eq_nil_of_le hle).symm).then fun st' h' => .pure ⟨?_, h'⟩
    unfold dictPos
    rw [hv, Bool.toNat_true]
    omega
  · rw [if_neg fun h => hv ((varargs_flag s).mp h)]
    refine .pure ⟨?_, h.congr fun j _ => ?_⟩
    · unfold dictPos
      rw [Bool.eq_false_iff.mpr hv, Bool.toNat_false]
      omega
    · unfold tupled
      rw [if_neg fun h => hv h.1]

theorem bindPositional_meets (h : Rep s.nState st fun _ => none) :
    Meets (bindPositional b s.compile s.sig s.nState args kws.length st) (Fits s args kws) fun r =>
      r.2.1 = s.taken args ∧ r.2.2 = dictPos s ∧ Rep s.nState r.1 (counted s b args kws) := by
  have hl := names_length s
  unfold bindPositional
  show Meets (if args.length > s.nPos then _ else _) _ _
  by_cases hlen : args.length > s.nPos
  · rw [if_pos hlen]
    by_cases hv : s.varargs = true
    · rw [if_neg ((varargs_flag s).mpr hv)]
      have hfits : Fits s args kws := ⟨.inr hv, fun _ => by omega⟩
      refine Meets.of_iff ?_ (iff_true_intro hfits)
      refine (tuple_meets s b args h hv _ rfl).then fun st' h' => .pure ⟨?_, ?_, h'.congr fun j _ => ?_⟩
      · exact (Nat.min_eq_right (Nat.le_of_lt hlen)).symm
      · unfold dictPos
        rw [hv, Bool.toNat_true]
        show (s.nState - 1 - s.nPos - s.kwonly.length : Int) - 1 = _
        omega
      · unfold counted Signature.taken
        rw [if_neg (by omega)]
    · rw [if_pos (by_contra fun h => hv ((varargs_flag s).mp h))]
      refine (Meets.raise _).of_iff (iff_false_intro fun hf => ?_)
      exact hf.room.elim (Nat.not_le.mpr hlen) hv
  · rw [if_neg hlen]
    have hle : args.length ≤ s.nPos := Nat.not_lt.mp hlen
    have htaken : s.taken args = args.length := Nat.min_eq_left hle
    refine (emptyTuple_meets s b args h hle).then fun (st, var) hr => ?_
    show Meets (if kws.length = 0 ∧ s.sig.scopeFlags &&& flagDefkwargs = 0 then
      if args.length ≥ s.nPos - s.defaults.length then _ else _ else _) _ _
    by_cases hf : fast s kws
    · rw [if_pos ((fast_flag s kws).mpr hf)]
      by_cases hd : args.length ≥ s.nPos - s.defaults.length
      · rw [if_pos hd]
        have hfits : Fits s args kws := ⟨.inl hle, fun _ => hd⟩
        refine Meets.of_iff ?_ (iff_true_intro hfits)
        refine (fillFrom_meets s b _ _ _ _ hr.2 (Nat.add_sub_cancel' hle) hd).then fun st' h' => .pure ⟨htaken.symm, hr.1, ?_⟩
        refine h'.congr fun j _ => ?_
        unfold counted
        rw [htaken]
        by_cases hj : args.length ≤ j ∧ j < s.nPos
        · rw [if_pos hj, if_pos ⟨hf, hj⟩]
        · rw [if_neg hj, if_neg fun h => hj h.2]
      · rw [if_neg hd]
        exact (Meets.raise _).of_iff (iff_false_intro fun h => hd (h.enough hf))
    · rw [if_neg fun h => hf ((fast_flag s kws).mp h)]
      have hfits : Fits s args kws := ⟨.inl hle, fun h => absurd h hf⟩
      refine Meets.of_iff (.pure ⟨htaken.symm, hr.1, hr.2.congr fun j _ => ?_⟩) (iff_true_intro hfits)
      unfold counted
      rw [if_neg fun h => hf h.1]

/-- The locals once the positional arguments are copied. -/
def copied (j : Nat) : Option κ := if j < s.taken args then args[j]? else counted s b args kws j

theorem copyFrom_taken (h : Rep s.nState st (counted s b args kws)) :
    Meets (copyFrom s.nState 0 (args.take (s.taken args)) st) True (Rep s.nState · (copied s b args kws)) := by
  have hn := s.locals_le
  have hlen : (args.take (s.taken args)).length = s.taken args := by
    rw [List.length_take]
    exact Nat.min_eq_left (Nat.min_le_left _ _)
  have htaken : s.taken args ≤ s.nPos := Nat.min_le_right _ _
  unfold Signature.nPos at htaken
  refine (copyFrom_meets _ 0 st _ h (by omega)).imp fun _ st' h' => h'.congr fun j _ => ?_
  rw [hlen]
  unfold copied
  by_cases hj : j < s.taken args
  · rw [if_pos (by omega), if_pos hj, Nat.sub_zero, List.getElem?_take_of_lt hj]
  · rw [if_neg (by omega), if_neg hj]

/-! ## Keywords -/

theorem findName_eq (table : List Nat) (wanted : Nat) (rest : List Nat) (l : List Nat) : ∀ j,
    findName table wanted l.length j (l.flatMap encodeUint ++ rest) =
      if wanted ∈ l.map (fun q => table.getD q 0) then some (j + (l.map fun q => table.getD q 0).idxOf wanted) else none := by
  induction l with
  | nil => intro j; rfl
  | cons q l ih =>
    intro j
    rw [List.length_cons, List.flatMap_cons, List.append_assoc, List.map_cons]
    unfold findName
    rw [decodeUint_encodeUint]
    show (if wanted = table.getD q 0 then some j else findName table wanted l.length (j + 1) _) = _
    by_cases e : wanted = table.getD q 0
    · rw [if_pos e, if_pos (by rw [e]; exact List.mem_cons_self), e, List.idxOf_cons_self]
      rfl
    · rw [if_neg e, ih (j + 1)]
      by_cases hmem : wanted ∈ l.map fun q => table.getD q 0
      · rw [if_pos hmem, if_pos (List.mem_cons_of_mem _ hmem), List.idxOf_cons_ne _ fun h => e h.symm, Nat.add_assoc,
          Nat.add_comm 1]
      · rw [if_neg hmem, if_neg fun h => (List.mem_cons.mp h).elim e hmem]

theorem given_fresh {done : List (Nat × κ)} {kw : Nat × κ} (hfresh : kw.1 ∉ done.map Prod.fst) (hmem : kw.1 ∈ s.names) :
    done.find? (fun kw' => s.names.idxOf kw'.1 = s.names.idxOf kw.1) = none := by
  refine List.find?_eq_none.mpr fun kw' hkw' h => hfresh (List.mem_map.mpr ⟨kw', hkw', ?_⟩)
  exact (List.idxOf_inj hmem).mp (of_decide_eq_true h).symm |>.symm

theorem given_append (done : List (Nat × κ)) (kw : Nat × κ) (hj : ¬ j < s.taken args) :
    s.given args (done ++ [kw]) j =
      (s.given args done j).or (if s.names.idxOf kw.1 = j then some kw.2 else none) := by
  unfold Signature.given
  rw [if_neg hj, if_neg hj, List.find?_append, Option.map_or]
  congr 1
  by_cases h : s.names.idxOf kw.1 = j
  · rw [if_pos h, List.find?_cons_of_pos (by exact decide_eq_true h)]
    rfl
  · rw [if_neg h, List.find?_cons_of_neg (by simpa using h)]
    rfl

theorem laid_congr {kws' : List (Nat × κ)} (hg : ∀ j < s.names.length, f j = g j) (hkws : s.extras kws = s.extras kws') :
    s.laid b args kws f j = s.laid b args kws' g j := by
  unfold Signature.laid
  rw [hkws]
  split
  · next h => exact hg j h
  · rfl

theorem update_laid_param (hi : i < s.names.length) (v : Option κ) :
    Function.update (s.laid b args kws f) i v j = s.laid b args kws (Function.update f i v) j := by
  by_cases e : j = i
  · subst e
    unfold Signature.laid
    rw [Function.update_self, if_pos hi, Function.update_self]
  · unfold Signature.laid
    rw [Function.update_of_ne e, Function.update_of_ne e]

theorem update_laid_dict {kws' : List (Nat × κ)} (hv : s.varkeywords = true) :
    Function.update (s.laid b args kws f) (s.names.length + s.varargs.toNat) (some (b.dict (s.extras kws'))) j =
      s.laid b args kws' f j := by
  unfold Signature.laid
  by_cases e : j = s.names.length + s.varargs.toNat
  · subst e
    have htuple : ¬ (s.varargs = true ∧ s.names.length + s.varargs.toNat = s.names.length) := by
      intro h
      rw [h.1, Bool.toNat_true] at h
      omega
    rw [Function.update_self, if_neg (by omega), if_neg htuple, if_pos ⟨hv, rfl⟩]
  · have hdict : ∀ k : List (Nat × κ), (if s.varkeywords = true ∧ j = s.names.length + s.varargs.toNat
        then some (b.dict (s.extras k)) else none) = none := fun k => if_neg fun h => e h.2
    rw [Function.update_of_ne e, hdict, hdict]

theorem dict_lt (h : s.varkeywords = true) : s.names.length + s.varargs.toNat < s.nState := by
  have hn := s.locals_le
  have hl := names_length s
  unfold Signature.nPos at hl
  rw [h, Bool.toNat_true] at hn
  omega

theorem param_lt (hj : j < s.names.length) : j < s.nState := by
  have hn := s.locals_le
  have hl := names_length s
  unfold Signature.nPos at hl
  omega

theorem extras_append (done : List (Nat × κ)) (kw : Nat × κ) :
    s.extras (done ++ [kw]) = s.extras done ++ if kw.1 ∈ s.names then [] else [kw] := by
  unfold Signature.extras
  rw [List.filter_append, List.filter_singleton]
  by_cases h : kw.1 ∈ s.names
  · rw [if_pos h, decide_eq_false (not_not_intro h)]
    rfl
  · rw [if_neg h, decide_eq_true h]
    rfl

/-- A keyword that is bound. -/
structure Binds (kw : Nat × κ) : Prop where
  once : kw.1 ∈ s.names → s.taken args ≤ s.names.idxOf kw.1
  known : kw.1 ∉ s.names → s.varkeywords = true

/-- The locals when the keywords `done` are bound. -/
structure Bound (done : List (Nat × κ)) (r : List (Option κ) × List (Nat × κ)) : Prop where
  dict : r.2 = s.extras done
  rep : Rep s.nState r.1 (s.laid b args done (s.given args done))

theorem bindParam_meets {done : List (Nat × κ)} {kw : Nat × κ} (hrep : Rep s.nState st (s.laid b args done (s.given args done)))
    (hfresh : kw.1 ∉ done.map Prod.fst) (hmem : kw.1 ∈ s.names) :
    Meets (bindParam s.nState kw.1 kw.2 (s.names.idxOf kw.1) st) (Binds s args kw)
      (Rep s.nState · (s.laid b args (done ++ [kw]) (s.given args (done ++ [kw])))) := by
  have hlt : s.names.idxOf kw.1 < s.names.length := List.idxOf_lt_length_of_mem hmem
  unfold bindParam
  rw [slot_local hrep (param_lt s hlt), show s.laid b args done _ _ = _ from if_pos hlt]
  by_cases htaken : s.names.idxOf kw.1 < s.taken args
  · have harg : s.names.idxOf kw.1 < args.length := Nat.lt_of_lt_of_le htaken (Nat.min_le_left _ _)
    unfold Signature.given
    rw [if_pos htaken, List.getElem?_eq_getElem harg]
    exact (Meets.raise _).of_iff (iff_false_intro fun hb => Nat.not_lt.mpr (hb.once hmem) htaken)
  · have hnone : s.given args done (s.names.idxOf kw.1) = none := by
      unfold Signature.given
      rw [if_neg htaken, given_fresh s hfresh hmem]
      rfl
    have hbinds : Binds s args kw := ⟨fun _ => Nat.not_lt.mp htaken, fun hno => absurd hmem hno⟩
    have hextras : s.extras done = s.extras (done ++ [kw]) := by
      rw [extras_append, if_pos hmem, List.append_nil]
    rw [hnone]
    refine Meets.of_iff ?_ (iff_true_intro hbinds)
    refine (put_meets hrep (param_lt s hlt) kw.2).imp fun _ st h' => h'.congr fun j _ => ?_
    rw [update_laid_param s b args done hlt]
    refine laid_congr s b args done (fun i _ => ?_) hextras
    by_cases e : i = s.names.idxOf kw.1
    · subst e
      rw [Function.update_self, given_append s args done kw htaken, if_pos rfl, hnone, Option.none_or]
    · rw [Function.update_of_ne e]
      by_cases hi : i < s.taken args
      · unfold Signature.given
        rw [if_pos hi, if_pos hi]
      · rw [given_append s args done kw hi, if_neg fun h => e h.symm, Option.or_none]

theorem bindExtra_meets {done : List (Nat × κ)} {kw : Nat × κ} {dict : List (Nat × κ)} (h : Bound s b args done (st, dict))
    (hfresh : kw.1 ∉ done.map Prod.fst) (hmem : kw.1 ∉ s.names) :
    Meets (bindExtra b s.sig (dictPos s) kw.1 kw.2 st dict) (Binds s args kw) (Bound s b args (done ++ [kw])) := by
  have hdict : dict = s.extras done := h.dict
  unfold bindExtra
  by_cases hv : s.varkeywords = true
  · have hno : ¬ (dict.map Prod.fst).contains kw.1 = true := by
      rw [hdict, List.contains_iff_mem]
      intro hin
      obtain ⟨kw', hkw', he⟩ := List.mem_map.mp hin
      exact hfresh (List.mem_map.mpr ⟨kw', List.mem_of_mem_filter hkw', he⟩)
    have hextras : dict ++ [(kw.1, kw.2)] = s.extras (done ++ [kw]) := by
      rw [extras_append, if_neg hmem, hdict]
    have hbinds : Binds s args kw := ⟨fun hin => absurd hin hmem, fun _ => hv⟩
    rw [if_neg ((varkeywords_flag s).mpr hv), if_neg hno, hextras]
    refine Meets.of_iff ?_ (iff_true_intro hbinds)
    refine (put_meets h.rep (dict_lt s hv) _).then fun st h' => .pure ⟨rfl, h'.congr fun j _ => ?_⟩
    rw [update_laid_dict s b args done hv]
    refine laid_congr s b args _ (fun i hi => ?_) rfl
    by_cases htaken : i < s.taken args
    · unfold Signature.given
      rw [if_pos htaken, if_pos htaken]
    · have hne : s.names.idxOf kw.1 ≠ i := by
        rw [List.idxOf_eq_length hmem]
        omega
      rw [given_append s args done kw htaken, if_neg hne, Option.or_none]
  · rw [if_pos (by_contra fun h => hv ((varkeywords_flag s).mp h))]
    exact (Meets.raise _).of_iff (iff_false_intro fun hb => hv (hb.known hmem))

/-- The names of the parameters, as the prelude has them. -/
def namesAt (rest : List Nat) : List Nat := s.params.flatMap encodeUint ++ rest

theorem bindKeyword_meets (rest : List Nat) {done : List (Nat × κ)} {kw : Nat × κ} {r : List (Option κ) × List (Nat × κ)}
    (h : Bound s b args done r) (hfresh : kw.1 ∉ done.map Prod.fst) :
    Meets (bindKeyword b s.compile s.sig s.nState (namesAt s rest) (dictPos s) r kw) (Binds s args kw)
      (Bound s b args (done ++ [kw])) := by
  obtain ⟨st, dict⟩ := r
  obtain ⟨wanted, v⟩ := kw
  have hlen : s.sig.nPosArgs + s.sig.nKwonlyArgs = s.params.length := (List.length_append).symm
  have hfind : findName s.qstrTable wanted s.params.length 0 (s.params.flatMap encodeUint ++ rest) =
      if wanted ∈ s.names then some (0 + s.names.idxOf wanted) else none :=
    findName_eq s.qstrTable wanted rest s.params 0
  unfold bindKeyword
  rw [hlen, show s.compile.qstrTable = s.qstrTable from rfl]
  dsimp only [namesAt]
  rw [hfind]
  by_cases hmem : wanted ∈ s.names
  · rw [if_pos hmem, Nat.zero_add]
    have hextras : s.extras (done ++ [(wanted, v)]) = s.extras done := by
      rw [extras_append, if_pos hmem, List.append_nil]
    refine Meets.of_iff ((bindParam_meets s b args h.rep hfresh hmem).bind fun st' h' => .pure ⟨?_, h'⟩)
      (and_iff_left trivial).symm
    rw [hextras]
    exact h.dict
  · rw [if_neg hmem]
    exact bindExtra_meets s b args h hfresh hmem

/-- The keyword loop: `done` are the ones before. -/
theorem bindKeyword_all (rest : List Nat) (kws : List (Nat × κ)) : ∀ (done : List (Nat × κ)) (r : List (Option κ) × List (Nat × κ)),
    Bound s b args done r → ((done ++ kws).map Prod.fst).Nodup →
    Meets (kws.foldlM (bindKeyword b s.compile s.sig s.nState (namesAt s rest) (dictPos s)) r) (∀ kw ∈ kws, Binds s args kw)
      (Bound s b args (done ++ kws)) := by
  induction kws with
  | nil =>
    intro done r h _
    rw [List.append_nil]
    refine (Meets.pure h).of_iff (iff_true_intro fun kw hkw => ?_)
    exact absurd hkw List.not_mem_nil
  | cons kw kws ih =>
    intro done r h hnodup
    have hfresh : kw.1 ∉ done.map Prod.fst := by
      intro hin
      rw [List.map_append, List.nodup_append] at hnodup
      exact hnodup.2.2 _ hin _ List.mem_cons_self rfl
    rw [show done ++ kw :: kws = (done ++ [kw]) ++ kws by rw [List.append_assoc]; rfl] at hnodup ⊢
    rw [List.foldlM_cons]
    refine Meets.of_iff ?_ List.forall_mem_cons
    exact (bindKeyword_meets s b args rest h hfresh).bind fun r' h' => ih (done ++ [kw]) r' h' hnodup

/-! ## Defaults -/

/-- Local `k` gets its default, if it has no value, out of those that are still to get theirs. -/
theorem fill_step {d : Nat → Option κ} {P Q : Nat → Prop} [DecidablePred P] [DecidablePred Q] {k : Nat} (hP : P k) (hQ : ¬ Q k)
    (hPQ : ∀ j, j ≠ k → (Q j ↔ P j)) (hother : ∀ j, j ≠ k → g j = f j) (hat : g k = (f k).or (d k)) (j : Nat) :
    (if Q j then (g j).or (d j) else g j) = if P j then (f j).or (d j) else f j := by
  by_cases e : j = k
  · subst e
    rw [if_neg hQ, if_pos hP, hat]
  · rw [hother j e]
    by_cases hj : P j
    · rw [if_pos hj, if_pos ((hPQ j e).mpr hj)]
    · rw [if_neg hj, if_neg fun h => hj ((hPQ j e).mp h)]

theorem fillDefaults_meets (count : Nat) : ∀ (t : Nat) (st : List (Option κ)) (f : Nat → Option κ), Rep s.nState st f →
    count + t = s.defaults.length →
    Meets (fillDefaults s.compile s.nState s.sig count t st) True
      (Rep s.nState · fun j => if j + t < s.nPos then (f j).or (s.default b j) else f j) := by
  have hle : s.defaults.length ≤ s.nPos := s.defaults_le
  have hn := s.locals_le
  have hpos : s.nPos = s.pos.length := rfl
  induction count with
  | zero =>
    intro t st f h ht
    refine .pure (h.congr fun j _ => ?_)
    split
    · next hj =>
      have hnone : s.default b j = none := by
        unfold Signature.default
        rw [if_pos (by omega), if_neg (by omega)]
      rw [hnone, Option.or_none]
    · rfl
  | succ count ih =>
    intro t st f h ht
    have hd : (s.nState - s.sig.nPosArgs + t : Int) = s.nState - 1 - (s.nPos - 1 - t : Nat) := by
      show (s.nState - s.nPos + t : Int) = _
      omega
    have hstep : ∀ g : Nat → Option κ, (∀ j, j ≠ s.nPos - 1 - t → g j = f j) →
        g (s.nPos - 1 - t) = (f (s.nPos - 1 - t)).or (s.default b (s.nPos - 1 - t)) → ∀ j,
        (if j + (t + 1) < s.nPos then (g j).or (s.default b j) else g j) =
          if j + t < s.nPos then (f j).or (s.default b j) else f j :=
      fun g => fill_step (by omega) (by omega) fun j hj => by omega
    unfold fillDefaults
    dsimp only
    rw [hd, slot_local h (by omega)]
    cases hf : f (s.nPos - 1 - t) with
    | some v =>
      refine (ih (t + 1) st f h (by omega)).imp fun _ st' h' => h'.congr fun j _ => hstep f (fun _ _ => rfl) ?_ j
      rw [hf, Option.some_or]
    | none =>
      have hdefault := default_of_lt s b (show s.nPos - 1 - t < s.nPos by omega) (by omega) (by omega)
      show Meets (do
        let v ← extra s.compile count
        let st ← put st _ v
        fillDefaults s.compile s.nState s.sig count (t + 1) st) _ _
      rw [extra_default s (show count < s.defaults.length by omega)]
      refine (put_meets h (show s.nPos - 1 - t < s.nState by omega) _).then fun st' h' => ?_
      refine (ih (t + 1) st' _ h' (by omega)).imp fun _ st'' h'' => h''.congr fun j _ => hstep _ (fun j hj => ?_) ?_ j
      · exact Function.update_of_ne hj _ _
      · rw [Function.update_self, hf, Option.none_or, hdefault]
        congr 3
        omega

theorem checkPositional_meets (h : Rep s.nState st f) (count : Nat) : ∀ d : Int, d = s.nState - count → count ≤ s.nState →
    Meets (checkPositional s.nState st count d) (∀ j < count, (f j).isSome = true) fun _ => True := by
  induction count with
  | zero =>
    intro d _ _
    exact (Meets.pure trivial).of_iff (iff_true_intro fun j hj => absurd hj (Nat.not_lt_zero j))
  | succ count ih =>
    intro d hd hle
    have hpos : d = s.nState - 1 - count := by omega
    unfold checkPositional
    rw [hpos, slot_local h (by omega)]
    have hsplit : (∀ j < count + 1, (f j).isSome = true) ↔ (f count).isSome = true ∧ ∀ j < count, (f j).isSome = true := by
      rw [Nat.forall_lt_succ_right, and_comm]
    cases hf : f count with
    | some v =>
      refine (ih _ (by omega) (by omega)).of_iff ?_
      rw [hsplit, hf]
      exact and_iff_right rfl
    | none =>
      refine (Meets.raise _).of_iff (iff_false_intro fun hall => ?_)
      have hcount := hall count (by omega)
      rw [hf] at hcount
      exact Bool.noConfusion hcount

theorem kwDefault_eq (hj : ¬ j < s.nPos) : kwDefault b s.compile s.sig (s.names.getD j 0) = .ok (s.default b j) := by
  unfold kwDefault Signature.default
  rw [if_neg hj]
  cases hd : s.kwDefaults with
  | some d =>
    rw [if_pos ((defkwargs_flag s).mpr (by rw [hd]; rfl)), show s.sig.nDefPosArgs = s.defaults.length from rfl,
      extra_kwDefaults s hd]
    rfl
  | none =>
    rw [if_neg fun h => by rw [defkwargs_flag s, hd] at h; exact Bool.noConfusion h]
    rfl

theorem fillKwonly_meets (rest : List Nat) (l : List Nat) : ∀ (i : Nat) (st : List (Option κ)) (f : Nat → Option κ),
    Rep s.nState st f → l = s.kwonly.drop i → i + l.length = s.kwonly.length →
    Meets (fillKwonly b s.compile s.nState s.sig l.length i (l.flatMap encodeUint ++ rest) st)
      (∀ j < s.names.length, s.nPos + i ≤ j → ((f j).or (s.default b j)).isSome = true)
      (Rep s.nState · fun j => if s.nPos + i ≤ j ∧ j < s.names.length then (f j).or (s.default b j) else f j) := by
  have hl := names_length s
  induction l with
  | nil =>
    intro i st f h _ hi
    rw [List.length_nil] at hi
    refine Meets.of_iff (.pure (h.congr fun j _ => ?_)) (iff_true_intro fun j hj hle => ?_)
    · rw [if_neg (by omega)]
    · omega
  | cons q l ih =>
    intro i st f h hdrop hi
    rw [List.length_cons] at hi
    have hlt : s.nPos + i < s.names.length := by omega
    have hpos : (s.nState - 1 - s.sig.nPosArgs - i : Int) = s.nState - 1 - (s.nPos + i : Nat) := by
      show (s.nState - 1 - s.nPos - i : Int) = _
      omega
    have hname : s.qstrTable.getD q 0 = s.names.getD (s.nPos + i) 0 := by
      have hq : s.kwonly[i]? = some q := by
        rw [← Nat.add_zero i, ← List.getElem?_drop, ← hdrop]
        rfl
      have hat : s.names[s.nPos + i]? = some (s.qstrTable.getD q 0) := by
        unfold Signature.names Signature.params Signature.nPos
        rw [List.getElem?_map, List.getElem?_append_right (Nat.le_add_right _ _), Nat.add_sub_cancel_left, hq]
        rfl
      rw [List.getD_eq_getElem?_getD (l := s.names), hat]
      rfl
    have hdrop' : l = s.kwonly.drop (i + 1) := by
      rw [← List.drop_drop, ← hdrop]
      rfl
    have hstep : ∀ g : Nat → Option κ, (∀ j, j ≠ s.nPos + i → g j = f j) →
        g (s.nPos + i) = (f (s.nPos + i)).or (s.default b (s.nPos + i)) → ∀ j,
        (if s.nPos + (i + 1) ≤ j ∧ j < s.names.length then (g j).or (s.default b j) else g j) =
          if s.nPos + i ≤ j ∧ j < s.names.length then (f j).or (s.default b j) else f j :=
      fun g => fill_step (by omega) (by omega) fun j hj => by omega
    have hgood : ∀ g : Nat → Option κ, (∀ j, j ≠ s.nPos + i → g j = f j) →
        ((f (s.nPos + i)).or (s.default b (s.nPos + i))).isSome = true →
        ((∀ j < s.names.length, s.nPos + i ≤ j → ((f j).or (s.default b j)).isSome = true) ↔
          ∀ j < s.names.length, s.nPos + (i + 1) ≤ j → ((g j).or (s.default b j)).isSome = true) := by
      intro g hother hat
      constructor
      · intro hall j hj hle
        rw [hother j (by omega)]
        exact hall j hj (by omega)
      · intro hall j hj hle
        by_cases e : j = s.nPos + i
        · rw [e, hat]
        · rw [← hother j e]
          exact hall j hj (by omega)
    rw [List.length_cons, List.flatMap_cons, List.append_assoc]
    unfold fillKwonly
    rw [decodeUint_encodeUint]
    dsimp only
    rw [hpos, slot_local h (param_lt s hlt)]
    cases hf : f (s.nPos + i) with
    | some v =>
      refine ((ih (i + 1) st f h hdrop' (by omega)).imp fun _ st' h' => h'.congr fun j _ =>
        hstep f (fun _ _ => rfl) ?_ j).of_iff (hgood f (fun _ _ => rfl) ?_)
      · rw [hf, Option.some_or]
      · rw [hf, Option.some_or]
        rfl
    | none =>
      change Meets (Except.ok none >>= _) _ _
      rw [show (Except.ok none : Binding (Option κ)) = pure none from rfl, pure_bind]
      rw [show s.compile.qstrTable.getD q 0 = _ from hname, kwDefault_eq s b (by omega)]
      cases hd : s.default b (s.nPos + i) with
      | some v =>
        refine ((put_meets h (param_lt s hlt) v).then fun st' h' => (ih (i + 1) st' _ h' hdrop' (by omega)).imp
          fun _ st'' h'' => h''.congr fun j _ => hstep _ (fun j hj => Function.update_of_ne hj _ _) ?_ j).of_iff
          (hgood _ (fun j hj => Function.update_of_ne hj _ _) ?_)
        · rw [Function.update_self, hf, hd, Option.none_or]
        · rw [hf, hd, Option.none_or]
          rfl
      | none =>
        refine (Meets.raise _).of_iff (iff_false_intro fun hall => ?_)
        have hmiss := hall _ hlt (Nat.le_refl _)
        rw [hf, hd] at hmiss
        exact Bool.noConfusion hmiss

/-! ## Cells -/

theorem makeCells_meets (code l : List Nat) : ∀ (st : List (Option κ)) (f : Nat → Option κ), Rep s.nState st f →
    (∀ c ∈ l, c < s.nState) → l.Nodup →
    Meets (makeCells b s.nState l.length (l ++ code) st) True
      fun r => r.ip = code ∧ Rep s.nState r.state fun j => if j ∈ l then some (b.cell (f j)) else f j := by
  induction l with
  | nil =>
    intro st f h _ _
    refine .pure ⟨rfl, h.congr fun j _ => ?_⟩
    rw [if_neg List.not_mem_nil]
  | cons c l ih =>
    intro st f h hlt hnodup
    obtain ⟨hc, hnodup⟩ := List.nodup_cons.mp hnodup
    have hlt' := List.forall_mem_cons.mp hlt
    rw [List.length_cons, List.cons_append]
    unfold makeCells
    rw [slot_local h hlt'.1]
    refine (put_meets h hlt'.1 _).then fun st' h' => ?_
    refine (ih st' _ h' hlt'.2 hnodup).imp fun _ r hr => ⟨hr.1, hr.2.congr fun j _ => ?_⟩
    by_cases e : j = c
    · subst e
      rw [if_neg hc, Function.update_self, if_pos List.mem_cons_self]
    · rw [Function.update_of_ne e]
      by_cases hj : j ∈ l
      · rw [if_pos hj, if_pos (List.mem_cons_of_mem _ hj)]
      · rw [if_neg hj, if_neg fun h => (List.mem_cons.mp h).elim e hj]

/-! ## The whole call -/

theorem emptyDict_meets (h : Rep s.nState st f) (hf : ∀ i, ¬ i < s.names.length → f i = tupled s b args i) :
    Meets (emptyDict b s.sig (dictPos s) st) True (Rep s.nState · (s.laid b args [] f)) := by
  have hbase : ∀ i, ¬ (s.varkeywords = true ∧ i = s.names.length + s.varargs.toNat) → f i = s.laid b args [] f i := by
    intro i hi
    unfold Signature.laid
    rw [if_neg hi]
    split
    · rfl
    · next hlt => exact hf i hlt
  unfold emptyDict
  by_cases hv : s.varkeywords = true
  · rw [if_pos ((varkeywords_flag s).mpr hv)]
    refine (put_meets h (dict_lt s hv) _).imp fun _ st' h' => h'.congr fun i _ => ?_
    rw [← update_laid_dict s b args [] hv]
    by_cases e : i = s.names.length + s.varargs.toNat
    · subst e
      rw [Function.update_self, Function.update_self]
      rfl
    · rw [Function.update_of_ne e, Function.update_of_ne e]
      exact hbase i fun h => e h.2
  · rw [if_neg fun h => hv ((varkeywords_flag s).mp h)]
    exact .pure (h.congr fun i _ => hbase i fun h => hv h.1)

theorem given_nil (hj : ¬ j < s.taken args) : s.given args [] j = none := if_neg hj

theorem given_taken (hj : j < s.taken args) : s.given args kws j = args[j]? := if_pos hj

theorem args_isSome (hj : j < s.taken args) : args[j]?.isSome = true := by
  rw [List.getElem?_eq_getElem (Nat.lt_of_lt_of_le hj (Nat.min_le_left _ _))]
  rfl

theorem value_given (h : (s.given args kws j).isSome = true) : s.value b args kws j = s.given args kws j :=
  Option.or_of_isSome h

theorem default_isSome (hj : j < s.nPos) : (s.default b j).isSome = true ↔ s.nPos - s.defaults.length ≤ j := by
  have hle : s.defaults.length ≤ s.nPos := s.defaults_le
  constructor
  · intro h
    by_contra hlt
    unfold Signature.default at h
    rw [if_pos hj, if_neg hlt] at h
    exact Bool.noConfusion h
  · intro h
    rw [default_of_lt s b hj h (by omega)]
    rfl

theorem fits_of_accepts (h : s.Accepts b args kws) : Fits s args kws := by
  refine ⟨h.room, fun hf => ?_⟩
  by_contra hlt
  have hl := names_length s
  have htaken : ¬ args.length < s.taken args := Nat.not_lt.mpr (Nat.min_le_left _ _)
  have hbound := h.bound args.length (by omega)
  rw [List.length_eq_zero_iff.mp hf.1] at hbound
  unfold Signature.value at hbound
  rw [given_nil s args htaken, Option.none_or, default_isSome s b (by omega)] at hbound
  omega

/-- The path without keywords. -/
theorem bindRest_fast (rest : List Nat) (h : Rep s.nState st (copied s b args kws)) (hfits : Fits s args kws) (hf : fast s kws) :
    Meets (bindRest b s.compile s.sig s.nState rest kws (dictPos s) st) (s.Accepts b args kws)
      (Rep s.nState · (s.bare b args kws)) := by
  have hl := names_length s
  have htaken : s.taken args ≤ s.nPos := Nat.min_le_right _ _
  have hkws : kws = [] := List.length_eq_zero_iff.mp hf.1
  have hslow : ¬ (kws.length ≠ 0 ∨ s.sig.scopeFlags &&& flagDefkwargs ≠ 0) := by
    have hflag := (fast_flag s kws).mpr hf
    exact fun h => h.elim (absurd hflag.1) (absurd hflag.2)
  unfold bindRest
  rw [if_neg hslow]
  by_cases hk : s.sig.nKwonlyArgs ≠ 0
  · rw [if_pos hk]
    refine (Meets.raise _).of_iff (iff_false_intro fun hacc => ?_)
    have hpos : 0 < s.kwonly.length := Nat.pos_of_ne_zero hk
    have hbound := hacc.bound s.nPos (by omega)
    have hnone : s.kwDefaults = none := by rw [← Option.not_isSome_iff_eq_none, hf.2]; exact Bool.noConfusion
    unfold Signature.value Signature.default at hbound
    rw [hkws, given_nil s args (by omega), if_neg (Nat.lt_irrefl _), hnone] at hbound
    exact Bool.noConfusion hbound
  · rw [if_neg hk]
    have hzero : s.kwonly.length = 0 := by_contra hk
    have hvalue : ∀ j < s.names.length, copied s b args kws j = s.value b args kws j := by
      intro j hj
      unfold copied
      by_cases hlt : j < s.taken args
      · have hgiven := given_taken s args kws hlt
        rw [if_pos hlt, value_given s b args kws (by rw [hgiven]; exact args_isSome s args hlt), hgiven]
      · unfold counted Signature.value
        rw [if_neg hlt, if_pos ⟨hf, Nat.not_lt.mp hlt, by omega⟩, hkws, given_nil s args hlt, Option.none_or]
    have hacc : s.Accepts b args kws := by
      refine ⟨hfits.room, fun kw hkw => ?_, fun kw hkw => ?_, fun j hj => ?_⟩
      · rw [hkws] at hkw
        exact absurd hkw List.not_mem_nil
      · rw [hkws] at hkw
        exact absurd hkw List.not_mem_nil
      · rw [← hvalue j hj]
        have henough := hfits.enough hf
        unfold copied
        by_cases hlt : j < s.taken args
        · rw [if_pos hlt]
          exact args_isSome s args hlt
        · unfold counted
          rw [if_neg hlt, if_pos ⟨hf, Nat.not_lt.mp hlt, by omega⟩, default_isSome s b (by omega)]
          unfold Signature.taken at hlt
          omega
    have hrest : ∀ i, ¬ i < s.names.length → copied s b args kws i = tupled s b args i := by
      intro i hi
      unfold copied counted
      rw [if_neg (by omega), if_neg (by omega)]
    refine Meets.of_iff ?_ (iff_true_intro hacc)
    refine (emptyDict_meets s b args h hrest).imp fun _ st' h' => h'.congr fun j _ => ?_
    refine laid_congr s b args [] hvalue ?_
    rw [hkws]

theorem decodeUintSkip_encodeUint (n : Nat) (rest : List Nat) : decodeUintSkip (encodeUint n ++ rest) = rest := by
  rw [decodeUintSkip_eq, decodeUint_encodeUint]

theorem skipNames_eq (rest l : List Nat) : skipNames l.length (l.flatMap encodeUint ++ rest) = rest := by
  induction l with
  | nil => rfl
  | cons q l ih =>
    rw [List.length_cons, List.flatMap_cons, List.append_assoc]
    unfold skipNames
    rw [decodeUintSkip_encodeUint, ih]

/-- The locals once the keywords are bound and the positional parameters have their defaults. -/
def defaulted (j : Nat) : Option κ :=
  if j < s.nPos then (s.laid b args kws (s.given args kws) j).or (s.default b j) else s.laid b args kws (s.given args kws) j

theorem bindKeywords_meets (rest : List Nat) (h : Rep s.nState st (copied s b args kws)) (hnodup : (kws.map Prod.fst).Nodup)
    (hf : ¬ fast s kws) :
    Meets (bindKeywords b s.compile s.sig s.nState (encodeUint s.name ++ namesAt s rest) kws (dictPos s) st)
      ((∀ kw ∈ kws, Binds s args kw) ∧ (∀ j < s.nPos - s.defaults.length, (defaulted s b args kws j).isSome = true) ∧
        ∀ j < s.names.length, s.nPos ≤ j → ((defaulted s b args kws j).or (s.default b j)).isSome = true)
      (Rep s.nState · fun j => if s.nPos ≤ j ∧ j < s.names.length
        then (defaulted s b args kws j).or (s.default b j) else defaulted s b args kws j) := by
  have hl := names_length s
  have hn := s.locals_le
  have hpos : s.nPos = s.pos.length := rfl
  have htaken : s.taken args ≤ s.nPos := Nat.min_le_right _ _
  have hle : s.defaults.length ≤ s.nPos := s.defaults_le
  have hcopied : ∀ i, copied s b args kws i = if i < s.taken args then args[i]? else tupled s b args i := by
    intro i
    unfold copied counted
    rw [if_neg fun h : fast s kws ∧ _ => hf h.1]
  have hskip : skipNames s.sig.nPosArgs (namesAt s rest) = s.kwonly.flatMap encodeUint ++ rest := by
    unfold namesAt Signature.params
    rw [List.flatMap_append, List.append_assoc]
    exact skipNames_eq _ s.pos
  unfold bindKeywords
  rw [decodeUintSkip_encodeUint, hskip]
  refine (emptyDict_meets s b args h fun i hi => ?_).then fun st₁ h₁ => ?_
  · rw [hcopied, if_neg (by omega)]
  have hstart : Bound s b args [] (st₁, []) := by
    refine ⟨rfl, h₁.congr fun j _ => laid_congr s b args [] (fun i hi => ?_) rfl⟩
    rw [hcopied]
    by_cases hi' : i < s.taken args
    · rw [if_pos hi', given_taken s args [] hi']
    · rw [if_neg hi', given_nil s args hi']
      exact if_neg fun h => Nat.ne_of_lt hi h.2
  refine (bindKeyword_all s b args rest kws [] _ hstart hnodup).bind fun (st₂, _) h₂ => ?_
  refine (fillDefaults_meets s b _ 0 st₂ _ h₂.rep rfl).then fun st₃ h₃ => ?_
  refine (checkPositional_meets s h₃ (s.nPos - s.defaults.length) _ ?_ (by omega)).bind fun _ _ => ?_
  · show (s.nState - s.nPos + s.defaults.length : Int) = _
    omega
  exact fillKwonly_meets s b rest s.kwonly 0 st₃ _ h₃ rfl (Nat.zero_add _)

theorem defaulted_pos (hj : j < s.nPos) : defaulted s b args kws j = s.value b args kws j := by
  have hl := names_length s
  have hlaid : s.laid b args kws (s.given args kws) j = s.given args kws j := if_pos (by omega)
  unfold defaulted
  rw [if_pos hj, hlaid]
  rfl

theorem defaulted_kwonly (hj : ¬ j < s.nPos) (hlt : j < s.names.length) :
    (defaulted s b args kws j).or (s.default b j) = s.value b args kws j := by
  have hlaid : s.laid b args kws (s.given args kws) j = s.given args kws j := if_pos hlt
  unfold defaulted
  rw [if_neg hj, hlaid]
  rfl

/-- The path with keywords. -/
theorem bindRest_slow (rest : List Nat) (h : Rep s.nState st (copied s b args kws)) (hroom : args.length ≤ s.nPos ∨ s.varargs = true)
    (hnodup : (kws.map Prod.fst).Nodup) (hf : ¬ fast s kws) :
    Meets (bindRest b s.compile s.sig s.nState (encodeUint s.name ++ namesAt s rest) kws (dictPos s) st)
      (s.Accepts b args kws) (Rep s.nState · (s.bare b args kws)) := by
  have hl := names_length s
  have hslow : kws.length ≠ 0 ∨ s.sig.scopeFlags &&& flagDefkwargs ≠ 0 := by
    by_contra hno
    rw [not_or, Classical.not_not, Classical.not_not] at hno
    exact hf ((fast_flag s kws).mp hno)
  unfold bindRest
  rw [if_pos hslow]
  refine Meets.of_iff ((bindKeywords_meets s b args kws rest h hnodup hf).imp fun _ st' h' => h'.congr fun j _ => ?_) ?_
  · by_cases hlt : j < s.names.length
    · rw [show s.bare b args kws j = s.value b args kws j from if_pos hlt]
      by_cases hj : j < s.nPos
      · rw [if_neg (by omega), defaulted_pos s b args kws hj]
      · rw [if_pos (by omega), defaulted_kwonly s b args kws hj hlt]
    · unfold defaulted Signature.bare Signature.laid
      rw [if_neg fun h => hlt h.2, if_neg (by omega), if_neg hlt, if_neg hlt]
  · constructor
    · intro hacc
      refine ⟨fun kw hkw => ⟨hacc.once kw hkw, hacc.known kw hkw⟩, fun j hj => ?_, fun j hlt hj => ?_⟩
      · rw [defaulted_pos s b args kws (by omega)]
        exact hacc.bound j (by omega)
      · rw [defaulted_kwonly s b args kws (by omega) hlt]
        exact hacc.bound j hlt
    · intro hgood
      refine ⟨hroom, fun kw hkw => (hgood.1 kw hkw).once, fun kw hkw => (hgood.1 kw hkw).known, fun j hlt => ?_⟩
      by_cases hj : j < s.nPos
      · by_cases hd : j < s.nPos - s.defaults.length
        · rw [← defaulted_pos s b args kws hj]
          exact hgood.2.1 j hd
        · have hsome := (default_isSome s b hj).mpr (Nat.not_lt.mp hd)
          unfold Signature.value
          rw [Option.isSome_or, hsome, Bool.or_true]
      · rw [← defaulted_kwonly s b args kws hj hlt]
        exact hgood.2.2 j hlt (by omega)

theorem sigDecode_compile :
    sigDecode s.compile.bytecode = (s.sig, sizeEncode s.info.length s.cells.length ++ (s.info ++ (s.cells ++ s.code))) := by
  obtain ⟨z, l, hz⟩ := List.exists_cons_of_ne_nil (sizeEncode_ne_nil s.info.length s.cells.length)
  unfold Signature.compile
  rw [hz, List.append_assoc, List.append_assoc, List.append_assoc]
  exact sigDecode_sigEncode s.sig s.nState_pos z _

theorem setup_meets (hnodup : (kws.map Prod.fst).Nodup) :
    Meets (setup b s.compile s.nState args kws) (s.Accepts b args kws)
      fun r => r.ip = s.code ∧ Rep s.nState r.state (s.boxed b (s.bare b args kws)) := by
  have hsize := sizeDecode_sizeEncode s.info.length s.cells.length (s.info ++ (s.cells ++ s.code))
  have hinfo : s.info ++ (s.cells ++ s.code) = encodeUint s.name ++ namesAt s (s.lineInfo ++ (s.cells ++ s.code)) := by
    unfold Signature.info namesAt
    simp
  have hdrop : (s.info ++ (s.cells ++ s.code)).drop s.info.length = s.cells ++ s.code := List.drop_left
  have hfits : s.Accepts b args kws ↔ Fits s args kws ∧ s.Accepts b args kws ∧ True :=
    ⟨fun h => ⟨fits_of_accepts s b args kws h, h, trivial⟩, fun h => h.2.1⟩
  unfold setup
  rw [sigDecode_compile]
  dsimp only
  rw [hsize]
  dsimp only
  rw [hdrop, hinfo]
  have hpositional := (bindPositional_meets s b args kws (rep_replicate s.nState)).imp
    fun hf r hr => (⟨hf, hr⟩ : Fits s args kws ∧ _)
  refine Meets.of_iff (hpositional.bind fun (st₁, nArgs, var) h₁ => ?_) hfits
  obtain ⟨hf, rfl, rfl, h₁⟩ := h₁
  refine (copyFrom_taken s b args kws h₁).then fun st₂ h₂ => ?_
  have hrest : Meets (bindRest b s.compile s.sig s.nState (encodeUint s.name ++ namesAt s (s.lineInfo ++ (s.cells ++ s.code))) kws
      (dictPos s) st₂) (s.Accepts b args kws) (Rep s.nState · (s.bare b args kws)) := by
    by_cases hfast : fast s kws
    · exact bindRest_fast s b args kws _ h₂ hf hfast
    · exact bindRest_slow s b args kws _ h₂ hf.room hnodup hfast
  exact hrest.bind fun st₃ h₃ => makeCells_meets s b s.code s.cells st₃ _ h₃ s.cells_lt s.cells_nodup

/-- A call raises a TypeError exactly when Python's rules reject it, and otherwise each local has what the rules give it, in a
cell if it is closed over; no slot outside the state is read or written. -/
theorem setup_binds (s : Signature κ) (b : Boxes κ) (args : List κ) (kws : List (Nat × κ)) (hnodup : (kws.map Prod.fst).Nodup) :
    ((∃ e, setup b s.compile s.nState args kws = .error (.typeError e)) ↔ ¬ s.Accepts b args kws) ∧
    (s.Accepts b args kws → ∃ st, setup b s.compile s.nState args kws = .ok ⟨s.code, st⟩ ∧ st.length = s.nState ∧
      ∀ j < s.nState, st.getD (s.nState - 1 - j) none = s.boxed b (s.bare b args kws) j) ∧
    setup b s.compile s.nState args kws ≠ .error .outside := by
  have h := setup_meets s b args kws hnodup
  refine ⟨⟨fun herr hacc => ?_, h.2⟩, fun hacc => ?_, fun hout => ?_⟩
  · obtain ⟨e, herr⟩ := herr
    obtain ⟨st, hok, _⟩ := h.1 hacc
    rw [herr] at hok
    cases hok
  · obtain ⟨⟨ip, st⟩, hok, hip, hrep⟩ := h.1 hacc
    have hip' : ip = s.code := hip
    rw [hip'] at hok
    exact ⟨st, hok, hrep.length, hrep.locals⟩
  · by_cases hacc : s.Accepts b args kws
    · obtain ⟨st, hok, _⟩ := h.1 hacc
      rw [hout] at hok
      cases hok
    · obtain ⟨e, herr⟩ := h.2 hacc
      rw [hout] at herr
      cases herr

end

/-! ## Concrete objects -/

inductive Obj where
  | int (n : Int)
  | tuple (l : List Obj)
  | dict (l : List (Nat × Obj))
  | cell (o : Option Obj)

def Obj.boxes : Boxes Obj where
  tuple := .tuple
  dict := .dict
  lookup
    | .dict l, q => (l.find? fun e => e.1 = q).map Prod.snd
    | _, _ => none
  cell := .cell

/-- `def f(a, b=20, *args, c, **kwargs)`, with `a` closed over. -/
def starred : Signature Obj where
  name := 0
  pos := [1, 2]
  kwonly := [3]
  defaults := [.int 20]
  kwDefaults := none
  varargs := true
  varkeywords := true
  generator := false
  nState := 7
  nExcStack := 0
  lineInfo := []
  cells := [0]
  code := [0x51, 0x63]
  qstrTable := [10, 11, 12, 13]
  defaults_le := by decide
  locals_le := by decide
  nState_pos := by decide
  cells_lt := by decide
  cells_nodup := by decide

/-- `f(1, c=5, z=9)`. -/
theorem setup_binds_starred :
    starred.Accepts Obj.boxes [.int 1] [(13, .int 5), (30, .int 9)] ∧
    ∃ st, setup Obj.boxes starred.compile starred.nState [.int 1] [(13, .int 5), (30, .int 9)] = .ok ⟨starred.code, st⟩ ∧
      st.length = starred.nState ∧ ∀ j < starred.nState, st.getD (starred.nState - 1 - j) none =
        starred.boxed Obj.boxes (starred.bare Obj.boxes [.int 1] [(13, .int 5), (30, .int 9)]) j := by
  have hacc : starred.Accepts Obj.boxes [.int 1] [(13, .int 5), (30, .int 9)] := by decide
  exact ⟨hacc, (setup_binds starred Obj.boxes [.int 1] [(13, .int 5), (30, .int 9)] (by decide)).2.1 hacc⟩

/-- In `f(1, c=5)` the local of `a` is not 1 but a cell. -/
theorem setup_not_bare : ¬ ∀ (s : Signature Obj) (b : Boxes Obj) (args : List Obj) (kws : List (Nat × Obj)),
    (kws.map Prod.fst).Nodup → s.Accepts b args kws → ∃ st, setup b s.compile s.nState args kws = .ok ⟨s.code, st⟩ ∧
      ∀ j < s.nState, st.getD (s.nState - 1 - j) none = s.bare b args kws j := by
  intro h
  obtain ⟨st, hok, hbare⟩ := h starred Obj.boxes [.int 1] [(13, .int 5)] (by decide) (by decide)
  obtain ⟨r, hok', _, hrep⟩ := (setup_meets starred Obj.boxes [.int 1] [(13, .int 5)] (by decide)).1 (by decide)
  rw [hok] at hok'
  cases hok'
  have hlocal := (hrep.locals 0 (by decide)).symm.trans (hbare 0 (by decide))
  have hcell : some (Obj.cell (some (.int 1))) = some (.int 1) := hlocal
  cases hcell

end CodeState

end PythonUltra.Py
