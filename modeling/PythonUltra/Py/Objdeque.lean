/-
  PythonUltra.Py.Objdeque — deques (py/objdeque.c), beside a double-ended queue of bounded length.

  A deque of at most `maxlen` items is a ring of `maxlen + 1` slots, one of which is spare. An
  access outside of the ring, or to a slot without an object, is a fault. Each request, at
  either end and by index, gives what the bounded queue gives and leaves its items
  (`call_matches`), and so does every program of requests (`deque_refines`).
-/

import PythonUltra.Lib.Prog
import PythonUltra.Lib.Ring
import PythonUltra.Py.Sequence

open PythonUltra.Lib PythonUltra.Lib.Prog PythonUltra.Lib.Ring PythonUltra.Py.Slice PythonUltra.Py.Sequence

namespace PythonUltra.Py.Objdeque

variable {α : Type}

/-! ## The code -/

/-- `mp_obj_deque_t`. A slot is `none` when it is MP_OBJ_NULL. -/
structure DequeObj (α : Type) where
  alloc : Nat
  iGet : Nat
  iPut : Nat
  items : List (Option α)
  flags : BitVec 32
  deriving DecidableEq

/-- `FLAG_CHECK_OVERFLOW` is set. -/
def checkOverflow (flags : BitVec 32) : Bool := flags &&& 1 ≠ 0

def setItem (i : Nat) (item : Option α) : Prog (DequeObj α) Err Unit := fun self =>
  if i < self.items.length then (.ok (), { self with items := self.items.set i item }) else (.error .fault, self)

def getItem (i : Nat) : Prog (DequeObj α) Err α := fun self =>
  match self.items[i]? with
  | some (some item) => (.ok item, self)
  | _ => (.error .fault, self)

/-- `deque_len` -/
def dequeLen (self : DequeObj α) : Int :=
  let len := (self.iPut : Int) - self.iGet
  if len < 0 then len + self.alloc else len

/-- `mp_obj_deque_append` -/
def mpObjDequeAppend (arg : α) : Prog (DequeObj α) Err Unit := do
  let self ← get
  let newIPut := advance self.alloc self.iPut
  if checkOverflow self.flags ∧ newIPut = self.iGet then throw (.indexError "full")
  else do
    setItem self.iPut (some arg)
    modify fun self => { self with iPut := newIPut, iGet := if self.iGet = newIPut then advance self.alloc self.iGet else self.iGet }

/-- `mp_obj_deque_appendleft` -/
def mpObjDequeAppendleft (arg : α) : Prog (DequeObj α) Err Unit := do
  let self ← get
  let newIGet := retreat self.alloc self.iGet
  if checkOverflow self.flags ∧ newIGet = self.iPut then throw (.indexError "full")
  else do
    modify fun self => { self with iGet := newIGet }
    setItem newIGet (some arg)
    modify fun self => { self with iPut := if self.iPut = newIGet then retreat self.alloc self.iPut else self.iPut }

/-- The items of an iterable, one after the other, until it ends or raises. -/
def extendWith {σ : Type} (append : α → Prog σ Err Unit) (ends : Option Err) : List α → Prog σ Err Unit
  | [] => match ends with
    | none => pure ()
    | some exc => throw exc
  | item :: items => do
    append item
    extendWith append ends items

/-- `mp_obj_deque_extend` -/
def mpObjDequeExtend (items : List α) (ends : Option Err) : Prog (DequeObj α) Err Unit := extendWith mpObjDequeAppend ends items

/-- `deque_popleft` -/
def dequePopleft : Prog (DequeObj α) Err α := do
  let self ← get
  if self.iGet = self.iPut then throw (.indexError "empty")
  else do
    let ret ← getItem self.iGet
    setItem self.iGet none
    modify fun self => { self with iGet := advance self.alloc self.iGet }
    pure ret

/-- `deque_pop` -/
def dequePop : Prog (DequeObj α) Err α := do
  let self ← get
  if self.iGet = self.iPut then throw (.indexError "empty")
  else do
    modify fun self => { self with iPut := retreat self.alloc self.iPut }
    let self ← get
    let ret ← getItem self.iPut
    setItem self.iPut none
    pure ret

/-- The slot of `deque_subscr`. -/
def indexVal (index : Int) : Prog (DequeObj α) Err Nat := do
  let self ← get
  let offset ← ofExcept (mpGetIndex "deque" (dequeLen self) index)
  pure (if self.iGet + offset ≥ self.alloc then self.iGet + offset - self.alloc else self.iGet + offset)

/-- `deque_it_iternext`: the item and the next `cur`, unless there is none. -/
def dequeItIternext (cur : Nat) : Prog (DequeObj α) Err (Option (α × Nat)) := do
  let self ← get
  if cur ≠ self.iPut then do
    let out ← getItem cur
    pure (some (out, advance self.alloc cur))
  else pure none

/-- A loop over the iterator. -/
def iterFrom : Nat → Nat → Prog (DequeObj α) Err (List α)
  | 0, _ => throw .fault
  | fuel + 1, cur => do
    match ← dequeItIternext cur with
    | none => pure []
    | some (item, cur) => do
      let items ← iterFrom fuel cur
      pure (item :: items)

/-- `mp_obj_new_deque_it` begins at `i_get`; a turn for each slot is enough. -/
def iterate : Prog (DequeObj α) Err (List α) := do
  let self ← get
  iterFrom self.alloc self.iGet

/-- `deque_make_new`, where `room` says whether there is memory. The collector clears what it allocates, so the flags are 0 unless given. -/
def dequeMakeNew (room : Bool) (items : List α) (ends : Option Err) (maxlen : Int) (flags : Option (BitVec 32)) : Except Err (DequeObj α) :=
  if maxlen < 0 then .error (.raised (.valueError ""))
  else if room then
    let alloc := sizeT (maxlen + 1).toNat
    match mpObjDequeExtend items ends ⟨alloc, 0, 0, List.replicate (sizeT (4 * alloc) / 4) none, flags.getD 0⟩ with
    | (.ok (), self) => .ok self
    | (.error exc, _) => .error exc
  else .error .memoryError

inductive Call (α : Type) where
  | append (arg : α)
  | appendleft (arg : α)
  | extend (items : List α) (ends : Option Err)
  | pop
  | popleft
  | load (index : Int)
  | store (index : Int) (value : α)
  | iter
  | len

inductive Reply (α : Type) where
  | none
  | item (x : α)
  | items (l : List α)
  | length (n : Int)
  deriving DecidableEq

def Call.exec : Call α → Prog (DequeObj α) Err (Reply α)
  | .append arg => do
    mpObjDequeAppend arg
    pure .none
  | .appendleft arg => do
    mpObjDequeAppendleft arg
    pure .none
  | .extend items ends => do
    mpObjDequeExtend items ends
    pure .none
  | .pop => do
    let item ← dequePop
    pure (.item item)
  | .popleft => do
    let item ← dequePopleft
    pure (.item item)
  | .load index => do
    let i ← indexVal index
    let item ← getItem i
    pure (.item item)
  | .store index value => do
    let i ← indexVal index
    setItem i (some value)
    pure .none
  | .iter => do
    let items ← iterate
    pure (.items items)
  | .len => do
    let self ← get
    pure (.length (dequeLen self))

/-! ## The bounded queue -/

section
variable (maxlen : Nat) (check : Bool)

/-- At the right end. Where it is full, an item is lost at the left one, or it raises. -/
def pushRight (x : α) : Prog (List α) Err Unit := fun l =>
  if l.length < maxlen then (.ok (), l ++ [x]) else if check then (.error (.indexError "full"), l) else (.ok (), (l ++ [x]).tail)

def pushLeft (x : α) : Prog (List α) Err Unit := fun l =>
  if l.length < maxlen then (.ok (), x :: l) else if check then (.error (.indexError "full"), l) else (.ok (), (x :: l).dropLast)

def takeRight : Prog (List α) Err α := fun l =>
  match l.getLast? with
  | none => (.error (.indexError "empty"), l)
  | some x => (.ok x, l.dropLast)

def takeLeft : Prog (List α) Err α := fun l =>
  match l with
  | [] => (.error (.indexError "empty"), l)
  | x :: l => (.ok x, l)

/-- The place that an index has, if it has one. -/
def placeOf (index : Int) : Prog (List α) Err Nat := fun l =>
  if IsWord index then
    match place l.length index with
    | some i => (.ok i, l)
    | none => (.error (.indexError "deque index out of range"), l)
  else (.error (.raised (.overflowError "overflow converting long int to machine word")), l)

/-- What the bounded queue gives. -/
def Call.spec : Call α → Prog (List α) Err (Reply α)
  | .append arg => do
    pushRight maxlen check arg
    pure .none
  | .appendleft arg => do
    pushLeft maxlen check arg
    pure .none
  | .extend items ends => do
    extendWith (pushRight maxlen check) ends items
    pure .none
  | .pop => do
    let item ← takeRight
    pure (.item item)
  | .popleft => do
    let item ← takeLeft
    pure (.item item)
  | .load index => do
    let i ← placeOf index
    let l ← get
    match l[i]? with
    | some x => pure (.item x)
    | none => throw .fault
  | .store index value => do
    let i ← placeOf index
    modify fun l => l.set i value
    pure .none
  | .iter => do
    let l ← get
    pure (.items l)
  | .len => do
    let l ← get
    pure (.length l.length)

/-- The ring holds the queue's items, from `i_get` up to `i_put`. -/
structure Represents (o : DequeObj α) (l : List α) : Prop where
  alloc : o.alloc = maxlen + 1
  items : o.items.length = o.alloc
  iGet : o.iGet < o.alloc
  iPut : o.iPut < o.alloc
  length : l.length ≤ maxlen
  stop : o.iPut = cell o.alloc o.iGet l.length
  row : Row o.items o.iGet l
  flags : checkOverflow o.flags = check

end

section
variable {maxlen : Nat} {check : Bool} {o : DequeObj α} {l : List α} {x : α} {i : Nat}

theorem setItem_ok {item : Option α} (h : i < o.items.length) : setItem i item o = (.ok (), { o with items := o.items.set i item }) :=
  if_pos h

theorem getItem_ok (h : o.items[i]? = some (some x)) : getItem i o = (.ok x, o) := by
  unfold getItem
  rw [h]

/-! ## The ends -/

theorem append_refused (hcheck : checkOverflow o.flags = true) (hfull : advance o.alloc o.iPut = o.iGet) :
    mpObjDequeAppend x o = (.error (.indexError "full"), o) := by
  unfold mpObjDequeAppend
  rw [get_bind, if_pos ⟨hcheck, hfull⟩]
  rfl

theorem append_ok (h : o.iPut < o.items.length) (hfull : ¬ (checkOverflow o.flags = true ∧ advance o.alloc o.iPut = o.iGet)) :
    mpObjDequeAppend x o = (.ok (), { o with
      items := o.items.set o.iPut (some x), iPut := advance o.alloc o.iPut,
      iGet := if o.iGet = advance o.alloc o.iPut then advance o.alloc o.iGet else o.iGet }) := by
  unfold mpObjDequeAppend
  rw [get_bind, if_neg hfull, bind_of_ok (setItem_ok h)]
  rfl

theorem appendleft_refused (hcheck : checkOverflow o.flags = true) (hfull : retreat o.alloc o.iGet = o.iPut) :
    mpObjDequeAppendleft x o = (.error (.indexError "full"), o) := by
  unfold mpObjDequeAppendleft
  rw [get_bind, if_pos ⟨hcheck, hfull⟩]
  rfl

theorem appendleft_ok (h : retreat o.alloc o.iGet < o.items.length)
    (hfull : ¬ (checkOverflow o.flags = true ∧ retreat o.alloc o.iGet = o.iPut)) :
    mpObjDequeAppendleft x o = (.ok (), { o with
      items := o.items.set (retreat o.alloc o.iGet) (some x), iGet := retreat o.alloc o.iGet,
      iPut := if o.iPut = retreat o.alloc o.iGet then retreat o.alloc o.iPut else o.iPut }) := by
  unfold mpObjDequeAppendleft
  rw [get_bind, if_neg hfull, modify_bind]
  refine (bind_of_ok (setItem_ok ?_)).trans rfl
  exact h

theorem full_iff (h : Represents maxlen check o l) : advance o.alloc o.iPut = o.iGet ↔ l.length = maxlen := by
  have halloc := h.alloc
  have hlen := h.length
  rw [h.stop, advance_cell h.iGet (by omega)]
  constructor
  · intro heq
    by_contra hne
    have hzero := cell_inj (show l.length + 1 < o.alloc by omega) (show 0 < o.alloc by omega) (heq.trans (cell_zero h.iGet).symm)
    omega
  · intro heq
    rw [heq, ← halloc, cell_cap]

theorem empty_iff (h : Represents maxlen check o l) : o.iGet = o.iPut ↔ l = [] := by
  have halloc := h.alloc
  have hlen := h.length
  rw [h.stop, ← List.length_eq_zero_iff]
  constructor
  · intro heq
    exact cell_inj (show l.length < o.alloc by omega) (show 0 < o.alloc by omega) (heq.symm.trans (cell_zero h.iGet).symm)
  · intro heq
    rw [heq, cell_zero h.iGet]

theorem append_matches (x : α) : Matches (Represents maxlen check) (mpObjDequeAppend x) (pushRight maxlen check x) := by
  intro o l h
  have halloc := h.alloc
  have hitems := h.items
  have hlen := h.length
  have hrow := @Row.push α o.iGet o.items l x h.row (by rw [hitems]; exact h.iGet) (by omega)
  rw [hitems, ← h.stop] at hrow
  have hnext : advance o.alloc o.iPut = cell o.alloc o.iGet (l.length + 1) := by
    rw [h.stop, advance_cell h.iGet (by omega)]
  have hput : o.iPut < o.items.length := by
    rw [hitems]
    exact h.iPut
  rw [pushRight]
  by_cases hfull : l.length = maxlen
  · have hwrap := (full_iff h).mpr hfull
    rw [if_neg (show ¬ l.length < maxlen by omega)]
    by_cases hcheck : check = true
    · rw [if_pos hcheck, append_refused (h.flags.trans hcheck) hwrap]
      exact ⟨rfl, h⟩
    · rw [if_neg hcheck, append_ok hput (fun hboth => hcheck (h.flags.symm.trans hboth.1)), hwrap, if_pos rfl]
      have htail := hrow.tail (by rw [List.length_set, List.length_append, List.length_singleton]; omega)
      rw [List.length_set, hitems] at htail
      have htaillen : (l ++ [x]).tail.length = l.length := by
        rw [List.length_tail, List.length_append, List.length_singleton, Nat.add_sub_cancel]
      exact ⟨rfl, {
        alloc := halloc
        items := by rw [List.length_set]; exact hitems
        iGet := advance_lt h.iGet
        iPut := h.iGet
        length := by rw [htaillen]; exact hlen
        stop := by
          dsimp only
          rw [htaillen, cell_advance (by omega), ← hnext, hwrap]
        row := htail
        flags := h.flags }⟩
  · have hne : o.iGet ≠ advance o.alloc o.iPut := fun heq => hfull ((full_iff h).mp heq.symm)
    rw [if_pos (show l.length < maxlen by omega), append_ok hput (fun hboth => hne hboth.2.symm), if_neg hne]
    exact ⟨rfl, {
      alloc := halloc
      items := by rw [List.length_set]; exact hitems
      iGet := h.iGet
      iPut := advance_lt h.iPut
      length := by rw [List.length_append, List.length_singleton]; omega
      stop := by rw [List.length_append, List.length_singleton]; exact hnext
      row := hrow
      flags := h.flags }⟩

theorem appendleft_matches (x : α) : Matches (Represents maxlen check) (mpObjDequeAppendleft x) (pushLeft maxlen check x) := by
  intro o l h
  have halloc := h.alloc
  have hitems := h.items
  have hlen := h.length
  have hback := retreat_lt h.iGet
  have hforth := advance_retreat h.iGet
  have hrow := @Row.cons α (retreat o.alloc o.iGet) o.items l x (by rw [hitems, hforth]; exact h.row) (by rw [hitems]; exact hback) (by omega)
  have hstop : o.iPut = cell o.alloc (retreat o.alloc o.iGet) (l.length + 1) := by
    rw [← cell_advance (by omega), hforth]
    exact h.stop
  have hleft : retreat o.alloc o.iGet = o.iPut ↔ l.length = maxlen := by
    rw [← full_iff h]
    constructor
    · intro heq
      rw [← heq, hforth]
    · intro heq
      rw [← heq, retreat_advance]
  have hget : retreat o.alloc o.iGet < o.items.length := by
    rw [hitems]
    exact hback
  rw [pushLeft]
  by_cases hfull : l.length = maxlen
  · have hwrap := hleft.mpr hfull
    rw [if_neg (show ¬ l.length < maxlen by omega)]
    by_cases hcheck : check = true
    · rw [if_pos hcheck, appendleft_refused (h.flags.trans hcheck) hwrap]
      exact ⟨rfl, h⟩
    · rw [if_neg hcheck, appendleft_ok hget (fun hboth => hcheck (h.flags.symm.trans hboth.1)), if_pos hwrap.symm]
      have hdroplen : (x :: l).dropLast.length = l.length := by
        rw [List.length_dropLast, List.length_cons, Nat.add_sub_cancel]
      exact ⟨rfl, {
        alloc := halloc
        items := by rw [List.length_set]; exact hitems
        iGet := hback
        iPut := retreat_lt h.iPut
        length := by rw [hdroplen]; exact hlen
        stop := by
          rw [hdroplen]
          dsimp only
          rw [hstop, retreat_cell hback (by omega)]
        row := hrow.left (List.dropLast_prefix _)
        flags := h.flags }⟩
  · have hne : ¬ retreat o.alloc o.iGet = o.iPut := fun heq => hfull (hleft.mp heq)
    rw [if_pos (show l.length < maxlen by omega), appendleft_ok hget (fun hboth => hne hboth.2), if_neg (fun heq => hne heq.symm)]
    exact ⟨rfl, {
      alloc := halloc
      items := by rw [List.length_set]; exact hitems
      iGet := hback
      iPut := h.iPut
      length := by rw [List.length_cons]; omega
      stop := by rw [List.length_cons]; exact hstop
      row := hrow
      flags := h.flags }⟩

/-- Whatever the iterable gives, up to where it ends or an item is refused. -/
theorem extend_matches (ends : Option Err) : ∀ items : List α,
    Matches (Represents maxlen check) (mpObjDequeExtend items ends) (extendWith (pushRight maxlen check) ends items)
  | [] => by
    cases ends with
    | none => exact matches_pure ()
    | some exc => exact matches_throw exc
  | item :: items => (append_matches item).bind fun _ => extend_matches ends items

theorem pop_matches : Matches (Represents maxlen check) (dequePop (α := α)) takeRight := by
  intro o l h
  have halloc := h.alloc
  have hitems := h.items
  have hlen := h.length
  rcases List.eq_nil_or_concat l with rfl | ⟨front, x, rfl⟩
  · unfold dequePop
    rw [get_bind, if_pos ((empty_iff h).mpr rfl)]
    exact ⟨rfl, h⟩
  · rw [List.concat_eq_append] at h hlen ⊢
    rw [List.length_append, List.length_singleton] at hlen
    have hput : retreat o.alloc o.iPut = cell o.alloc o.iGet front.length := by
      rw [h.stop, List.length_append, List.length_singleton, retreat_cell h.iGet (by omega)]
    have hcell : o.items[retreat o.alloc o.iPut]? = some (some x) := by
      rw [hput, ← hitems]
      exact h.row front.length x List.getElem?_concat_length
    have hin := (List.getElem?_eq_some_iff.mp hcell).1
    have hother := @Row.set_other α o.iGet front.length o.items front none (h.row.left (List.prefix_append ..)) (Nat.le_refl _) (by omega)
    rw [hitems, ← hput] at hother
    have hpop : dequePop o = (.ok x, { o with iPut := retreat o.alloc o.iPut, items := o.items.set (retreat o.alloc o.iPut) none }) := by
      unfold dequePop
      rw [get_bind, if_neg (fun heq => by simpa using (empty_iff h).mp heq), modify_bind, get_bind]
      have hget : getItem (retreat o.alloc o.iPut) { o with iPut := retreat o.alloc o.iPut } = (.ok x, { o with iPut := retreat o.alloc o.iPut }) :=
        getItem_ok hcell
      exact (bind_of_ok hget).trans (bind_of_ok (setItem_ok hin))
    have hspec : takeRight (front ++ [x]) = (.ok x, front) := by
      unfold takeRight
      rw [List.getLast?_concat, List.dropLast_concat]
    rw [hpop, hspec]
    exact ⟨rfl, {
      alloc := halloc
      items := by rw [List.length_set]; exact hitems
      iGet := h.iGet
      iPut := retreat_lt h.iPut
      length := by dsimp only; omega
      stop := hput
      row := hother
      flags := h.flags }⟩

theorem popleft_matches : Matches (Represents maxlen check) (dequePopleft (α := α)) takeLeft := by
  intro o l h
  have halloc := h.alloc
  have hitems := h.items
  have hlen := h.length
  rcases l with _ | ⟨x, l⟩
  · unfold dequePopleft
    rw [get_bind, if_pos ((empty_iff h).mpr rfl)]
    exact ⟨rfl, h⟩
  · rw [List.length_cons] at hlen
    have hcell : o.items[o.iGet]? = some (some x) := by
      have hfirst := h.row 0 x rfl
      rwa [hitems, cell_zero h.iGet] at hfirst
    have hin := (List.getElem?_eq_some_iff.mp hcell).1
    have htail := h.row.tail (by rw [List.length_cons]; omega)
    have hother := @Row.set_other α (advance o.items.length o.iGet) maxlen o.items l none htail (by omega) (by omega)
    rw [hitems, cell_advance (by omega), ← halloc, cell_cap] at hother
    have hpop : dequePopleft o = (.ok x, { o with items := o.items.set o.iGet none, iGet := advance o.alloc o.iGet }) := by
      unfold dequePopleft
      rw [get_bind, if_neg (fun heq => by simpa using (empty_iff h).mp heq)]
      refine (bind_of_ok (getItem_ok hcell)).trans ?_
      exact bind_of_ok (setItem_ok hin)
    rw [hpop]
    exact ⟨rfl, {
      alloc := halloc
      items := by rw [List.length_set]; exact hitems
      iGet := advance_lt h.iGet
      iPut := h.iPut
      length := by dsimp only [takeLeft]; omega
      stop := by
        dsimp only [takeLeft]
        rw [cell_advance (by omega)]
        exact h.stop
      row := hother
      flags := h.flags }⟩

/-! ## By index, and along -/

theorem dequeLen_eq (h : Represents maxlen check o l) : dequeLen o = l.length := by
  have halloc := h.alloc
  have hlen := h.length
  have hget := h.iGet
  have hstop := h.stop
  unfold cell at hstop
  unfold dequeLen
  dsimp only
  split at hstop
  · rw [if_neg (by omega)]
    omega
  · rw [if_pos (by omega)]
    omega

/-- The checked index is Python's place. -/
theorem mpGetIndex_eq (hl : l.length ≤ 2147483647) (index : Int) :
    mpGetIndex "deque" l.length index = (placeOf index l).1 ∧ (placeOf index l).2 = l := by
  unfold placeOf
  by_cases hword : IsWord index
  · have hint : mpObjGetInt index = .ok index := if_pos hword
    rw [if_pos hword]
    rcases hplace : place l.length index with _ | i
    · refine ⟨?_, rfl⟩
      have hwrap : (if index < 0 then CMem.i32 (index + l.length) else index) = SliceObj.fromEnd l.length index := by
        unfold SliceObj.fromEnd
        unfold IsWord at hword
        split
        · rw [CMem.i32_of_range (by omega) (by omega)]
        · rfl
      have hout : ¬ (0 ≤ SliceObj.fromEnd l.length index ∧ SliceObj.fromEnd l.length index < l.length) := by
        intro hin
        rw [place, if_pos hin] at hplace
        cases hplace
      unfold mpGetIndex
      rw [hint]
      dsimp only
      rw [hwrap, if_pos (by omega)]
      rfl
    · exact ⟨(mpGetIndex_spec hl).1 i hplace, rfl⟩
  · have hint : mpObjGetInt index = .error (.overflowError "overflow converting long int to machine word") := if_neg hword
    rw [if_neg hword, mpGetIndex, hint]
    exact ⟨rfl, rfl⟩

theorem placeOf_lt {index : Int} (h : (placeOf index l).1 = .ok i) : i < l.length := by
  unfold placeOf at h
  split at h
  · split at h
    · rename_i hplace
      obtain rfl := Except.ok.inj h
      exact place_lt hplace
    · cases h
  · cases h

/-- A request by index, where the slot of an item is what its place is. -/
theorem indexed_matches {β : Type} (hmax : maxlen < 2 ^ 29) (index : Int) {f : Nat → Prog (DequeObj α) Err β} {g : Nat → Prog (List α) Err β}
    (h : ∀ {o : DequeObj α} {l : List α} {i : Nat}, Represents maxlen check o l → i < l.length →
      (f (cell o.alloc o.iGet i) o).1 = (g i l).1 ∧ Represents maxlen check (f (cell o.alloc o.iGet i) o).2 (g i l).2) :
    Matches (Represents maxlen check) (indexVal index >>= f) (placeOf index >>= g) := by
  intro o l ho
  have hlen := ho.length
  obtain ⟨hindex, hsame⟩ := @mpGetIndex_eq α l (by omega) index
  have hval : indexVal index o = ((placeOf index l).1.map fun i => cell o.alloc o.iGet i, o) := by
    unfold indexVal
    rw [get_bind, dequeLen_eq ho, hindex]
    rcases (placeOf index l).1 with e | i
    · rfl
    · refine Prod.ext (congrArg Except.ok ?_) rfl
      unfold cell
      dsimp only
      by_cases hin : o.iGet + i < o.alloc
      · rw [if_neg (by omega), if_pos hin]
      · rw [if_pos (by omega), if_neg hin]
  rcases hplace : placeOf index l with ⟨e | i, l'⟩
  · rw [hplace] at hval hsame
    obtain rfl : l' = l := hsame
    rw [bind_of_error hval, bind_of_error hplace]
    exact ⟨rfl, ho⟩
  · have hlt := placeOf_lt (congrArg Prod.fst hplace)
    rw [hplace] at hval hsame
    obtain rfl : l' = l := hsame
    rw [bind_of_ok hval, bind_of_ok hplace]
    exact h ho hlt

theorem iterFrom_eq (h : Represents maxlen check o l) : ∀ {fuel k : Nat}, k ≤ l.length → l.length - k < fuel →
    iterFrom fuel (cell o.alloc o.iGet k) o = (.ok (l.drop k), o)
  | 0, _, _, hfuel => absurd hfuel (Nat.not_lt_zero _)
  | fuel + 1, k, hk, hfuel => by
    have halloc := h.alloc
    have hlen := h.length
    rcases Nat.lt_or_eq_of_le hk with hlt | rfl
    · have hcell : o.items[cell o.alloc o.iGet k]? = some (some l[k]) := by
        rw [← h.items]
        exact h.row k l[k] (List.getElem?_eq_getElem hlt)
      have hne : cell o.alloc o.iGet k ≠ o.iPut := by
        rw [h.stop]
        intro heq
        have := cell_inj (show k < o.alloc by omega) (show l.length < o.alloc by omega) heq
        omega
      have hnext : dequeItIternext (cell o.alloc o.iGet k) o = (.ok (some (l[k], cell o.alloc o.iGet (k + 1))), o) := by
        unfold dequeItIternext
        rw [get_bind, if_pos hne]
        refine (bind_of_ok (getItem_ok hcell)).trans ?_
        rw [advance_cell h.iGet (by omega)]
        rfl
      have hrest := @iterFrom_eq h fuel (k + 1) hlt (by omega)
      unfold iterFrom
      refine (bind_of_ok hnext).trans ((bind_of_ok hrest).trans ?_)
      rw [List.drop_eq_getElem_cons hlt]
      rfl
    · have hnext : dequeItIternext (cell o.alloc o.iGet l.length) o = (.ok none, o) := by
        unfold dequeItIternext
        rw [get_bind, if_neg (not_not.mpr h.stop.symm)]
        rfl
      unfold iterFrom
      refine (bind_of_ok hnext).trans ?_
      rw [List.drop_length]
      rfl

/-! ## Programs -/

theorem load_matches (hmax : maxlen < 2 ^ 29) (index : Int) :
    Matches (Represents maxlen check) (Call.load index).exec ((Call.load index : Call α).spec maxlen check) := by
  apply indexed_matches hmax index
  intro o l i h hi
  have hitem : getItem (cell o.alloc o.iGet i) o = (.ok l[i], o) := by
    apply getItem_ok
    rw [← h.items]
    exact h.row i l[i] (List.getElem?_eq_getElem hi)
  rw [bind_of_ok hitem, get_bind, List.getElem?_eq_getElem hi]
  exact ⟨rfl, h⟩

theorem store_matches (hmax : maxlen < 2 ^ 29) (index : Int) (value : α) :
    Matches (Represents maxlen check) (Call.store index value).exec ((Call.store index value).spec maxlen check) := by
  apply indexed_matches hmax index
  intro o l i h hi
  have halloc := h.alloc
  have hlen := h.length
  have hlt : cell o.alloc o.iGet i < o.items.length := by
    rw [h.items]
    exact cell_lt h.iGet (by omega)
  rw [bind_of_ok (setItem_ok hlt), modify_bind]
  have hrow := @Row.set α o.iGet i o.items l value h.row (by rw [h.items]; exact h.iGet) hi (by rw [h.items]; omega)
  rw [h.items] at hrow
  exact ⟨rfl, {
    alloc := halloc
    items := (List.length_set ..).trans h.items
    iGet := h.iGet
    iPut := h.iPut
    length := (List.length_set ..).trans_le hlen
    stop := h.stop.trans (congrArg (cell o.alloc o.iGet) (List.length_set ..).symm)
    row := hrow
    flags := h.flags }⟩

theorem call_matches (hmax : maxlen < 2 ^ 29) (call : Call α) : Matches (Represents maxlen check) call.exec (call.spec maxlen check) := by
  cases call with
  | append arg => exact (append_matches arg).bind fun _ => matches_pure _
  | appendleft arg => exact (appendleft_matches arg).bind fun _ => matches_pure _
  | extend items ends => exact (extend_matches ends items).bind fun _ => matches_pure _
  | pop => exact pop_matches.bind fun _ => matches_pure _
  | popleft => exact popleft_matches.bind fun _ => matches_pure _
  | load index => exact load_matches hmax index
  | store index value => exact store_matches hmax index value
  | iter =>
    intro o l h
    have halloc := h.alloc
    have hlen := h.length
    have hall := @iterFrom_eq α maxlen check o l h o.alloc 0 (Nat.zero_le _) (by omega)
    rw [cell_zero h.iGet, List.drop_zero] at hall
    have hiter : iterate o = (.ok l, o) := by
      unfold iterate
      rw [get_bind, hall]
    unfold Call.exec Call.spec
    dsimp only
    rw [bind_of_ok hiter, get_bind]
    exact ⟨rfl, h⟩
  | len =>
    intro o l h
    refine ⟨?_, h⟩
    exact congrArg (fun n => Except.ok (Reply.length n)) (dequeLen_eq h)

theorem made (hmax : maxlen < 2 ^ 29) (flags : Option (BitVec 32)) :
    Represents maxlen (checkOverflow (flags.getD 0))
      (⟨sizeT (maxlen + 1), 0, 0, List.replicate (sizeT (4 * sizeT (maxlen + 1)) / 4) none, flags.getD 0⟩ : DequeObj α) [] := by
  rw [sizeT_of_lt (by omega), sizeT_of_lt (by omega)]
  refine ⟨rfl, ?_, Nat.succ_pos _, Nat.succ_pos _, Nat.zero_le _, rfl, fun k x hx => ?_, rfl⟩
  · rw [List.length_replicate]
    exact Nat.mul_div_cancel_left _ (by decide)
  · cases hx

/-- A deque is made as the bounded queue is, unless there is no memory, and every program of requests gives what it gives of the
queue, with both indices in the ring after it. -/
theorem deque_refines {maxlen : Int} (h0 : 0 ≤ maxlen) (hmax : maxlen < 2 ^ 29) (room : Bool) (items : List α) (ends : Option Err)
    (flags : Option (BitVec 32)) (calls : List (Call α)) :
    (room = false ∧ dequeMakeNew room items ends maxlen flags = .error .memoryError) ∨
      (∃ exc l, extendWith (pushRight maxlen.toNat (checkOverflow (flags.getD 0))) ends items [] = (.error exc, l) ∧
        dequeMakeNew room items ends maxlen flags = .error exc) ∨
      ∃ o l, extendWith (pushRight maxlen.toNat (checkOverflow (flags.getD 0))) ends items [] = (.ok (), l) ∧
        dequeMakeNew room items ends maxlen flags = .ok o ∧
        (trace Call.exec calls o).1 = (trace (Call.spec maxlen.toNat (checkOverflow (flags.getD 0))) calls l).1 ∧
        Represents maxlen.toNat (checkOverflow (flags.getD 0)) (trace Call.exec calls o).2
          (trace (Call.spec maxlen.toNat (checkOverflow (flags.getD 0))) calls l).2 := by
  obtain ⟨n, rfl⟩ := Int.eq_ofNat_of_zero_le h0
  have hn : n < 2 ^ 29 := by omega
  rw [Int.toNat_natCast]
  unfold dequeMakeNew
  rw [if_neg (by omega)]
  cases room with
  | false => exact .inl ⟨rfl, rfl⟩
  | true =>
    right
    rw [if_pos rfl, show ((n : Int) + 1).toNat = n + 1 by omega]
    dsimp only
    have hmade := @made α n hn flags
    generalize (⟨sizeT (n + 1), 0, 0, List.replicate (sizeT (4 * sizeT (n + 1)) / 4) none, flags.getD 0⟩ : DequeObj α) = new at hmade ⊢
    obtain ⟨heq, hrel⟩ := extend_matches ends items new [] hmade
    rcases hcode : mpObjDequeExtend items ends new with ⟨exc | _, o⟩ <;>
      rcases hspec : extendWith (pushRight n (checkOverflow (flags.getD 0))) ends items [] with ⟨exc' | _, l⟩ <;> rw [hcode, hspec] at heq hrel <;> cases heq
    · exact .inl ⟨exc, l, rfl, rfl⟩
    · obtain ⟨hsame, hrel'⟩ := trace_matches (call_matches hn) calls hrel
      exact .inr ⟨o, l, rfl, rfl, hsame, hrel'⟩
end

/-- A deque of at most one item keeps the last one. -/
theorem deque_refines_one :
    ∃ o, dequeMakeNew true [true] none 1 none = .ok o ∧ (trace Call.exec [.append false, .pop, .pop] o).1 =
      [.ok .none, .ok (.item false), .error (.indexError "empty")] := by
  rcases @deque_refines Bool 1 (by decide) (by decide) true [true] none none [.append false, .pop, .pop] with
    ⟨hroom, -⟩ | ⟨exc, l, hraised, -⟩ | ⟨o, l, hstart, hmade, hsame, -⟩
  · cases hroom
  · cases hraised
  · cases hstart
    exact ⟨o, hmade, hsame⟩

end PythonUltra.Py.Objdeque
