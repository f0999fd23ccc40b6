/-
  PythonUltra.Py.ObjlistSpec — what each list operation leaves (py/objlist.c).

  `Holds` is the invariant: the items in front of the block, and nothing known of the rest.
  Each operation returns with Python's list, or raises and leaves the one it had.
-/

import PythonUltra.Py.Objlist

open PythonUltra.Lib PythonUltra.Lib.Prog PythonUltra.Lib.Splice PythonUltra.Py.Slice PythonUltra.Py.Sequence

namespace PythonUltra.Py.Objlist

variable {α ρ : Type}

/-- The slots that hold the items. -/
def cells (l : List α) : List (Option α) := l.map some

@[simp] theorem length_cells (l : List α) : (cells l).length = l.length := List.length_map some

@[simp] theorem cells_append (l l' : List α) : cells (l ++ l') = cells l ++ cells l' := List.map_append

/-- The list object holds the items: they are in front of its block, which is all the list
says it has. -/
inductive ListObj.Holds : ListObj α → List α → Prop
  | mk (l : List α) (rest : List (Option α)) : 2 ≤ l.length + rest.length → 4 * (l.length + rest.length) + 16 ≤ 2147483648 →
      Holds ⟨l.length + rest.length, l.length, cells l ++ rest⟩ l

variable {self : ListObj α} {l v : List α} {gc : Allocator} {Q : ρ → ListObj α → Prop} {R : Err → ListObj α → Prop}

theorem ListObj.Holds.len_eq (h : self.Holds l) : self.len = l.length := by
  cases h
  rfl

theorem ListObj.Holds.len_le (h : self.Holds l) : self.len ≤ self.alloc ∧ self.items.length = self.alloc := by
  cases h
  exact ⟨Nat.le_add_right _ _, by simp⟩

theorem ListObj.Holds.front (h : self.Holds l) : self.items.take self.len = cells l := by
  cases h
  rw [List.take_append_of_le_length (by simp), List.take_of_length_le (by simp)]

theorem ListObj.Holds.length_le (h : self.Holds l) : 4 * l.length + 16 ≤ 2147483648 := by
  cases h
  omega

theorem holds_of {alloc : Nat} {items : List (Option α)} {len : Nat} (rest : List (Option α)) (hlen : len = l.length) (hitems : items = cells l ++ rest)
    (halloc : alloc = l.length + rest.length) (htwo : 2 ≤ alloc) (hbound : 4 * alloc + 16 ≤ 2147483648) :
    ListObj.Holds ⟨alloc, len, items⟩ l := by
  subst hlen hitems halloc
  exact .mk l rest htwo hbound

/-! ## The primitives -/

theorem wp_onItems {f : List (Option α) → Option (List (Option α))} {items : List (Option α)} {Q : Unit → ListObj α → Prop}
    (h : f self.items = some items) (hQ : Q () { self with items }) : wp (onItems f) Q R self := by
  simp only [wp, onItems, h]
  exact hQ

theorem wp_loadItem {i : Nat} (item : Option α) {Q : Option α → ListObj α → Prop} (h : self.items[i]? = some item) (hQ : Q item self) :
    wp (loadItem i) Q R self := by
  simp only [wp, loadItem, h]
  exact hQ

/-- A block that is asked for: the slots that it has to keep, and others. -/
theorem wp_realloc {num alloc len : Nat} (front : List (Option α)) {rest : List (Option α)} {Q : Bool → ListObj α → Prop} (hnum : 4 * num < 4294967296)
    (hkeep : front.length ≤ num)
    (hok : ∀ moved rest', front.length + rest'.length = num → 4 * num + 16 ≤ 2147483648 →
      (moved = true → gc.renew (4 * alloc) (4 * num) = .moved) → Q moved ⟨num, len, front ++ rest'⟩)
    (hno : gc.renew (4 * alloc) (4 * num) = .refused → R .memoryError ⟨alloc, len, front ++ rest⟩) :
    wp (realloc gc num) Q R ⟨alloc, len, front ++ rest⟩ := by
  obtain ⟨rest', hresize, hlength⟩ := @resize_append _ front rest num none hkeep
  have hnum4 : 4 * num / 4 = num := by omega
  have hgrant := gc.renew_lt (4 * alloc) (4 * num)
  cases hrenew : gc.renew (4 * alloc) (4 * num) with
  | refused =>
    have h : renewItems gc num ⟨alloc, len, front ++ rest⟩ = (.error .memoryError, ⟨alloc, len, front ++ rest⟩) := by
      simp only [renewItems, sizeT_of_lt hnum, hrenew]
    simp only [wp, realloc, bind_of_error h]
    exact hno hrenew
  | inPlace =>
    have h : renewItems gc num ⟨alloc, len, front ++ rest⟩ = (.ok false, ⟨alloc, len, front ++ rest'⟩) := by
      simp only [renewItems, sizeT_of_lt hnum, hrenew, ← hresize, hnum4]
    simp only [wp, realloc, bind_of_ok h]
    exact hok false rest' hlength (hgrant (by simp [hrenew])) (by simp)
  | moved =>
    have h : renewItems gc num ⟨alloc, len, front ++ rest⟩ = (.ok true, ⟨alloc, len, front ++ rest'⟩) := by
      simp only [renewItems, sizeT_of_lt hnum, hrenew, ← hresize, hnum4]
    simp only [wp, realloc, bind_of_ok h]
    exact hok true rest' hlength (hgrant (by simp [hrenew])) fun _ => hrenew

/-! ## append and extend -/

/-- The item goes to the first slot that is not in use. -/
theorem wp_push {x : α} {item : Option α} {alloc : Nat} {rest : List (Option α)} (halloc : alloc = l.length + (rest.length + 1))
    (htwo : 2 ≤ alloc) (hbound : 4 * alloc + 16 ≤ 2147483648) :
    wp (do onItems fun items => writeAt items l.length [some x]; setLen (l.length + 1)) (fun _ s => s.Holds (l ++ [x])) R
      ⟨alloc, l.length, cells l ++ item :: rest⟩ := by
  have hwrite : writeAt (cells l ++ item :: rest) l.length [some x] = some (cells l ++ [some x] ++ rest) := by
    have h := @writeAt_mid _ (cells l) [item] [some x] rest l.length (length_cells l).symm rfl
    simpa using h
  rw [wp_bind]
  apply wp_onItems hwrite
  refine holds_of rest ?_ (by simp [cells]) ?_ htwo hbound
  · simp
  · simp
    omega

theorem append_spec (h : self.Holds l) (x : α) :
    wp (mpObjListAppend gc x) (fun _ s => s.Holds (l ++ [x])) (fun e s => e = .memoryError ∧ s.Holds l) self := by
  cases h with
  | mk l rest htwo hbound =>
    rw [mpObjListAppend, wp_bind, wp_get]
    dsimp only
    cases rest with
    | cons item rest =>
      rw [if_neg (by simp)]
      exact wp_push rfl htwo hbound
    | nil =>
      rw [if_pos (by simp), wp_bind]
      apply wp_realloc (cells l)
      · simp
        omega
      · simp
        omega
      · intro moved rest' hlength hfits _
        rw [length_cells] at hlength
        obtain ⟨rest, hrest, hwipe⟩ := @wipe_tail _ (cells l) rest' (l.length + 1) none (l.length * 2) (by simp) (by simp at htwo; omega)
          (by rw [length_cells]; exact hlength.symm)
        rw [wp_bind]
        apply wp_onItems hwipe
        cases rest with
        | nil => simp at *; omega
        | cons item rest => exact wp_push (by simp at *; omega) (by simp at *; omega) hfits
      · intro _
        exact ⟨rfl, .mk l [] htwo hbound⟩

/-- Of what it is to append, some may be appended before the memory runs out. -/
theorem extendFromIter_spec (h : self.Holds l) (items : List α) :
    wp (listExtendFromIter gc items) (fun _ s => s.Holds (l ++ items))
      (fun e s => e = .memoryError ∧ ∃ n, n < items.length ∧ s.Holds (l ++ items.take n)) self := by
  induction items generalizing self l with
  | nil => simpa [listExtendFromIter] using h
  | cons item items ih =>
    rw [listExtendFromIter]
    apply wp_then (append_spec h item)
    · intro _ s hs
      apply wp_mono (ih hs)
      · intro _ s' hs'
        simpa using hs'
      · rintro e s' ⟨he, n, hn, hs'⟩
        exact ⟨he, n + 1, by simpa using hn, by simpa using hs'⟩
    · rintro e s ⟨he, hs⟩
      exact ⟨he, 0, by simp, by simpa using hs⟩

/-- What is behind a source, for a list that holds `l`. -/
inductive Source.Gives (l : List α) : Source α → List α → Prop
  | self : Gives l .self l
  | block (v : List α) (rest : List (Option α)) : 4 * v.length + 16 ≤ 2147483648 → Gives l (.block v.length (cells v ++ rest)) v

variable {src : Source α}

theorem Source.Gives.len_eq (h : src.Gives l v) (hself : self.len = l.length) : src.len self = v.length := by
  cases h with
  | self => exact hself
  | block => rfl

theorem Source.Gives.length_le (h : src.Gives l v) (hself : self.Holds l) : 4 * v.length + 16 ≤ 2147483648 := by
  cases h with
  | self => exact hself.length_le
  | block _ rest hbound => exact hbound

theorem Source.Gives.read (h : src.Gives l v) {moved : Bool} {items : List (Option α)}
    (hself : src = .self → moved = false ∧ ∃ rest, items = cells l ++ rest) : src.read moved v.length items = some (cells v) := by
  cases h with
  | self =>
    obtain ⟨rfl, rest, rfl⟩ := hself rfl
    have hread := @readAt_front _ (cells l) rest l.length (by simp)
    rw [List.take_of_length_le (by simp)] at hread
    exact hread
  | block _ rest' _ =>
    have hread := @readAt_front _ (cells v) rest' v.length (by simp)
    rw [List.take_of_length_le (by simp)] at hread
    exact hread

/-- The items go behind those there are. -/
theorem wp_copyIn (hsrc : src.Gives l v) {alloc : Nat} {rest : List (Option α)} (halloc : alloc = l.length + rest.length)
    (hroom : v.length ≤ rest.length) (htwo : 2 ≤ alloc) (hbound : 4 * alloc + 16 ≤ 2147483648) :
    wp (do
        onItems fun items => do
          let slots ← src.read false v.length items
          writeAt items l.length slots
        setLen (l.length + v.length)) (fun _ s => s.Holds (l ++ v)) R ⟨alloc, l.length, cells l ++ rest⟩ := by
  have hwrite : writeAt (cells l ++ rest) l.length (cells v) = some (cells l ++ cells v ++ rest.drop v.length) := by
    have h := @writeAt_mid _ (cells l) (rest.take v.length) (cells v) (rest.drop v.length) l.length (length_cells l).symm (by
      rw [length_cells, List.length_take]
      omega)
    rwa [List.append_assoc, List.take_append_drop] at h
  have hdo : (do
      let slots ← src.read false v.length (cells l ++ rest)
      writeAt (cells l ++ rest) l.length slots : Option (List (Option α))) = some (cells l ++ cells v ++ rest.drop v.length) := by
    rw [hsrc.read fun _ => ⟨rfl, rest, rfl⟩]
    exact hwrite
  rw [wp_bind]
  apply wp_onItems hdo
  refine holds_of (rest.drop v.length) ?_ (by simp) ?_ htwo hbound
  · simp
  · simp
    omega

theorem extend_spec (h : self.Holds l) (hsrc : src.Gives l v) :
    wp (listExtend gc src) (fun _ s => s.Holds (l ++ v)) (fun e s => e = .memoryError ∧ s.Holds l) self := by
  have hv := hsrc.length_le h
  have hlen := hsrc.len_eq h.len_eq
  cases h with
  | mk l rest htwo hbound =>
    rw [listExtend, wp_bind, wp_get]
    simp only [hlen]
    by_cases hroom : l.length + v.length > l.length + rest.length
    · rw [if_pos hroom, wp_bind]
      apply wp_realloc (cells l)
      · omega
      · simp
        omega
      · intro moved rest' hlength hfits _
        rw [length_cells] at hlength
        obtain ⟨rest, hrest, hwipe⟩ := @wipe_tail _ (cells l) rest' (l.length + v.length) none (l.length + v.length + 4) (by simp) (by omega)
          (by rw [length_cells]; exact hlength.symm)
        rw [wp_bind]
        apply wp_onItems hwipe
        dsimp only
        exact wp_copyIn hsrc (by omega) (by omega) (by omega) hfits
      · intro _
        exact ⟨rfl, .mk l rest htwo hbound⟩
    · rw [if_neg hroom]
      exact wp_copyIn hsrc rfl (by omega) htwo hbound

/-! ## pop -/

/-- One item out of the block, and the last slot free. -/
theorem wp_takeOut {a b : List α} {x : α} {alloc len : Nat} {rest : List (Option α)} {k : Prog (ListObj α) Err ρ}
    (hk : wp k Q R ⟨alloc, a.length + b.length, cells (a ++ b) ++ (none :: rest)⟩) :
    wp (do
        setLen (a.length + b.length)
        onItems fun items => move items a.length (a.length + 1) (a.length + b.length - a.length)
        onItems fun items => writeAt items (a.length + b.length) [none]
        k) Q R
      ⟨alloc, len, cells (a ++ x :: b) ++ rest⟩ := by
  have hmove := @move_close _ (cells a) [some x] (cells b) rest
  obtain ⟨y, hy⟩ : ∃ y, ([some x] ++ cells b).drop (cells b).length = [y] := by
    apply List.length_eq_one_iff.mp
    simp
  have hwrite := @writeAt_mid _ (cells a ++ cells b) [y] [none] rest (a.length + b.length) (by simp) rfl
  rw [hy] at hmove
  rw [wp_bind, setLen, wp_modify, wp_bind]
  have hclosed : move (cells (a ++ x :: b) ++ rest) a.length (a.length + 1) (a.length + b.length - a.length) =
      some (cells a ++ cells b ++ [y] ++ rest) := by
    rw [Nat.add_sub_cancel_left]
    simpa [cells] using hmove
  apply wp_onItems hclosed
  rw [wp_bind]
  apply wp_onItems hwrite
  simpa [cells] using hk

theorem split_at {i : Nat} (hi : i < l.length) : ∃ a x b, l = a ++ x :: b ∧ i = a.length := by
  refine ⟨l.take i, l[i], l.drop (i + 1), ?_, ?_⟩
  · rw [← List.drop_eq_getElem_cons, List.take_append_drop]
  · rw [List.length_take]
    omega

/-- The index of `pop` and `del`: the last, if there is none. -/
def popIndex (index : Option IntObj) : Int := (index.map IntObj.value).getD (-1)

theorem pop_spec (h : self.Holds l) (index : Option IntObj) :
    wp (listPop gc index)
      (fun ret s => ∃ i, place l.length (popIndex index) = some i ∧ ret = l[i]? ∧ s.Holds (l.take i ++ l.drop (i + 1)))
      (fun e s => place l.length (popIndex index) = none ∧ e ≠ .fault ∧ e ≠ .memoryError ∧ s.Holds l) self := by
  have hlength := h.length_le
  have hplace := @mpGetIndex_spec "list" l.length (popIndex index) (by omega)
  rw [listPop, wp_bind, wp_get, h.len_eq]
  by_cases hempty : l.length = 0
  · rw [if_pos hempty, wp_throw]
    refine ⟨?_, by simp, by simp, h⟩
    cases hp : place l.length (popIndex index) with
    | none => rfl
    | some i => exact absurd (place_lt hp) (by omega)
  · rw [if_neg hempty, wp_bind]
    cases hp : place l.length (popIndex index) with
    | none =>
      obtain ⟨e, he, hfault, hmemory⟩ := hplace.2 hp
      rw [show (index.map IntObj.value).getD (-1) = popIndex index from rfl, he, wp_ofExcept_error]
      exact ⟨rfl, hfault, hmemory, h⟩
    | some i =>
      rw [show (index.map IntObj.value).getD (-1) = popIndex index from rfl, hplace.1 i hp, wp_ofExcept_ok]
      obtain ⟨a, x, b, rfl, rfl⟩ := split_at (place_lt hp)
      cases h with
      | mk _ rest htwo hbound =>
        have hlen : (a ++ x :: b).length - 1 = a.length + b.length := by simp
        rw [wp_bind]
        apply wp_loadItem (some x)
        · simp [cells]
        dsimp only
        rw [hlen]
        apply wp_takeOut
        have hpopped : (a ++ x :: b).take a.length ++ (a ++ x :: b).drop (a.length + 1) = a ++ b := by simp
        have hret : (some x : Option α) = (a ++ x :: b)[a.length]? := by simp
        have htotal : (a ++ x :: b).length = a.length + b.length + 1 := by simp; omega
        split
        · rename_i hshrink
          rw [wp_bind]
          apply wp_realloc (cells (a ++ b))
          · omega
          · simp only [length_cells, List.length_append, listMinAlloc] at *
            omega
          · intro moved rest' hlength hfits _
            rw [length_cells] at hlength
            refine ⟨a.length, rfl, hret, ?_⟩
            rw [hpopped]
            refine holds_of rest' (by simp) rfl hlength.symm ?_ hfits
            simp only [listMinAlloc] at hshrink
            omega
          · intro hrefused
            have hstays := gc.renew_stays (4 * ((a ++ x :: b).length + rest.length)) (4 * (((a ++ x :: b).length + rest.length) / 2))
              (by omega) hbound (by omega)
            exact absurd (hrefused.symm.trans hstays) (by simp)
        · refine ⟨a.length, rfl, hret, ?_⟩
          rw [hpopped]
          exact holds_of (none :: rest) (by simp) rfl (by simp; omega) htwo hbound

/-! ## Slices -/

variable {a b c : List α} {rest : List (Option α)} {slice : List (Option α) → Option (List (Option α))} {alloc len : Nat}

/-- A part gives way to one that is not longer. -/
theorem wp_replaceDown (hslice : slice (cells (a ++ b ++ c) ++ rest) = some (cells v)) (hshrink : v.length ≤ b.length)
    (hlen : len = a.length + v.length + c.length) (halloc : alloc = (a ++ b ++ c).length + rest.length) (htwo : 2 ≤ alloc)
    (hbound : 4 * alloc + 16 ≤ 2147483648) :
    wp (do
        onItems fun items => mpSeqReplaceSliceNoGrow items (a ++ b ++ c).length a.length (a.length + b.length) slice v.length 1
        onItems fun items => wipe none items len (a ++ b ++ c).length
        setLen len) (fun _ s => s.Holds (a ++ v ++ c)) R ⟨alloc, (a ++ b ++ c).length, cells (a ++ b ++ c) ++ rest⟩ := by
  rw [cells_append, cells_append] at *
  obtain ⟨junk, hjunk, hreplace⟩ := @replaceSliceNoGrow_spec _ (cells a) (cells b) (cells c) (cells v) rest slice a.length
    (a.length + b.length) (a ++ b ++ c).length v.length 1 (by simp) (by simp) (by simp) (by simp; omega) (by simp) (by simpa using hshrink) hslice
  rw [length_cells, length_cells] at hjunk
  have hwipe := @wipe_mid _ (cells a ++ cells v ++ cells c) junk rest len none (a ++ b ++ c).length (by simp [hlen]; omega) (by simp; omega)
  rw [wp_bind]
  apply wp_onItems hreplace
  rw [wp_bind]
  apply wp_onItems hwipe
  refine holds_of (List.replicate junk.length none ++ rest) ?_ (by simp) ?_ htwo hbound
  · simp [hlen]
    omega
  · simp at halloc ⊢
    omega

theorem delSlice_spec (h : self.Holds l) (slice : SliceObj) :
    wp (listDelSlice slice) (fun _ s => ∃ l', pyReplace l slice [] = some l' ∧ s.Holds l')
      (fun e s => e ≠ .fault ∧ (Refuses e ∨ pyReplace l slice [] = none) ∧ s.Holds l) self := by
  have hlength := h.length_le
  rw [listDelSlice, wp_bind, wp_get, h.len_eq, wp_bind]
  rcases @fastIndexes_spec none l.length (by omega) slice with ⟨hone, hindexes, h0, hle, hstop⟩ | ⟨e, he, hfault, hcase⟩
  · rw [hindexes, wp_ofExcept_ok]
    obtain ⟨a, b, c, hl, hstart, hmid⟩ := @split_part _ l (slice.first l.length).toNat (fastStop slice l.length).toNat (by omega) (by omega)
    have hadj : (l.length + (slice.first l.length - fastStop slice l.length)).toNat = a.length + c.length := by
      have := congrArg List.length hl
      simp at this
      omega
    have hpy : pyReplace l slice [] = some (a ++ [] ++ c) := by
      rw [pyReplace, if_pos hone, hstart, hmid, hl]
      simp
    simp only [hadj, hstart, hmid]
    subst hl
    cases h with
    | mk _ rest htwo hbound =>
      have hread : readAt (cells (a ++ b ++ c) ++ rest) 0 0 = some (cells []) := if_pos (.inl rfl)
      refine wp_mono (wp_replaceDown (v := []) hread (Nat.zero_le _) ?_ rfl htwo hbound) (fun _ s hs => ⟨_, hpy, hs⟩) fun _ _ h => h
      rfl
  · rw [he, wp_ofExcept_error]
    refine ⟨hfault, ?_, h⟩
    rcases hcase with hrefuse | hno
    · exact .inl hrefuse
    · exact .inr (if_neg hno)

/-- A part gives way to one that is longer, of which the list itself may be what is put there. -/
theorem wp_replaceUp {moved : Bool} {adj : Nat} (hsrc : src.Gives (a ++ b ++ c) v) (hmoved : src = .self → moved = false)
    (hgrow : b.length + adj = v.length) (hroom : adj ≤ rest.length) (hlen : len = a.length + v.length + c.length)
    (halloc : alloc = (a ++ b ++ c).length + rest.length) (htwo : 2 ≤ alloc) (hbound : 4 * alloc + 16 ≤ 2147483648) :
    wp (do
        onItems fun items => mpSeqReplaceSliceGrowInplace items (a ++ b ++ c).length a.length (a.length + b.length)
          (src.read moved v.length) v.length adj 1
        setLen len) (fun _ s => s.Holds (a ++ v ++ c)) R ⟨alloc, (a ++ b ++ c).length, cells (a ++ b ++ c) ++ rest⟩ := by
  have hslice : src.read moved v.length ((cells a ++ cells b ++ cells c ++ rest).take ((cells a).length + (cells v).length) ++ cells c ++
      rest.drop ((cells v).length - (cells b).length)) = some (cells v) := by
    apply hsrc.read
    intro hself
    refine ⟨hmoved hself, ?_⟩
    -- what is moved away is behind the items of the list
    subst hself
    cases hsrc
    rw [← cells_append, ← cells_append, List.take_append, List.take_of_length_le (by simp), List.append_assoc, List.append_assoc]
    exact ⟨_, rfl⟩
  rw [cells_append, cells_append] at *
  have hreplace := @replaceSliceGrowInplace_spec _ (cells a) (cells b) (cells c) (cells v) rest (src.read moved v.length) a.length
    (a.length + b.length) (a ++ b ++ c).length v.length adj 1 (by simp) (by simp) (by simp) (by simp; omega) (by simp) (by omega) (by omega) hslice
  rw [wp_bind]
  apply wp_onItems hreplace
  refine holds_of (rest.drop ((cells v).length - (cells b).length)) ?_ (by simp) ?_ htwo hbound
  · simp [hlen]
    omega
  · simp at halloc ⊢
    omega

/-- How long the list is with the new items. -/
def newLen (slice : SliceObj) (len valueLen : Nat) : Nat := (len + (valueLen - (fastStop slice len - slice.first len))).toNat

theorem setSlice_spec (h : self.Holds l) (slice : SliceObj) (hsrc : src.Gives l v)
    (hstays : src = .self → self.alloc < newLen slice l.length v.length →
      gc.renew (4 * self.alloc) (4 * newLen slice l.length v.length) ≠ .moved) :
    wp (listSetSlice gc slice src) (fun _ s => ∃ l', pyReplace l slice v = some l' ∧ s.Holds l')
      (fun e s => e ≠ .fault ∧ (Refuses e ∨ pyReplace l slice v = none) ∧ s.Holds l) self := by
  have hlength := h.length_le
  have hv := hsrc.length_le h
  rw [listSetSlice, wp_bind, wp_get, hsrc.len_eq h.len_eq, h.len_eq, wp_bind]
  rcases @fastIndexes_spec none l.length (by omega) slice with ⟨hone, hindexes, h0, hle, hstop⟩ | ⟨e, he, hfault, hcase⟩
  · rw [hindexes, wp_ofExcept_ok]
    obtain ⟨a, b, c, hl, hstart, hmid⟩ := @split_part _ l (slice.first l.length).toNat (fastStop slice l.length).toNat (by omega) (by omega)
    have htotal := congrArg List.length hl
    rw [List.length_append, List.length_append] at htotal
    have hpart : (v.length : Int) - (fastStop slice l.length - slice.first l.length) = v.length - b.length := by omega
    have hnew : newLen slice l.length v.length = a.length + v.length + c.length := by
      rw [newLen]
      omega
    have hpy : pyReplace l slice v = some (a ++ v ++ c) := by
      rw [pyReplace, if_pos hone, hstart, hmid, hl]
      simp
    simp only [hpart, hstart, hmid]
    subst hl
    cases h with
    | mk _ rest htwo hbound =>
      by_cases hgrow : (v.length : Int) - b.length > 0
      · have hadj : b.length + ((v.length : Int) - b.length).toNat = v.length := by omega
        have hlen : ((a ++ b ++ c).length + ((v.length : Int) - b.length)).toNat = a.length + v.length + c.length := by omega
        rw [if_pos hgrow, wp_bind]
        simp only [hlen]
        have hdone : ∀ s : ListObj α, s.Holds (a ++ v ++ c) → ∃ l', pyReplace (a ++ b ++ c) slice v = some l' ∧ s.Holds l' :=
          fun s hs => ⟨_, hpy, hs⟩
        by_cases hfull : a.length + v.length + c.length > (a ++ b ++ c).length + rest.length
        · rw [if_pos hfull]
          apply wp_realloc (cells (a ++ b ++ c))
          · omega
          · rw [length_cells]
            omega
          · intro moved rest' hlength' hfits hmoved
            rw [length_cells] at hlength'
            have hself : src = .self → moved = false := by
              intro hself
              have hne := hstays hself (by rw [hnew]; exact hfull)
              rw [hnew] at hne
              cases moved with
              | false => rfl
              | true => exact absurd (hmoved rfl) hne
            exact wp_mono (wp_replaceUp hsrc hself hadj (by omega) rfl hlength'.symm (by omega) hfits) (fun _ => hdone) fun _ _ h => h
          · intro _
            exact ⟨by simp, .inl (.inl rfl), .mk _ rest htwo hbound⟩
        · rw [if_neg hfull, wp_pure]
          exact wp_mono (wp_replaceUp hsrc (fun _ => rfl) hadj (by omega) rfl rfl htwo hbound) (fun _ => hdone) fun _ _ h => h
      · rw [if_neg hgrow]
        have hread : src.read false v.length (cells (a ++ b ++ c) ++ rest) = some (cells v) := hsrc.read fun _ => ⟨rfl, rest, rfl⟩
        refine wp_mono (wp_replaceDown hread (by omega) ?_ rfl htwo hbound) (fun _ s hs => ⟨_, hpy, hs⟩) fun _ _ h => h
        omega
  · rw [he, wp_ofExcept_error]
    refine ⟨hfault, ?_, h⟩
    rcases hcase with hrefuse | hno
    · exact .inl hrefuse
    · exact .inr (if_neg hno)

/-! ## insert -/

/-- The index of an insert is read as it is: it is a small int, or its pointer, read as a
small int, has the same place. -/
def InsertFits (len : Nat) : IntObj → Prop
  | .small _ => True
  | .big n address => insertIndex len (IntObj.big n address).smallIntValue = pyInsertPlace len n

theorem insertIndex_of_range {index : Int} (h1 : -1073741824 ≤ index) (h2 : index < 1073741824) (hlen : 4 * len + 16 ≤ 2147483648) :
    insertIndex len index = pyInsertPlace len index := by
  have hwrap : (if index < 0 then PythonUltra.Lib.CMem.i32 (index + len) else index) = SliceObj.fromEnd len index := by
    unfold SliceObj.fromEnd
    split
    · exact PythonUltra.Lib.CMem.i32_of_range (by omega) (by omega)
    · rfl
  simp only [insertIndex, pyInsertPlace, hwrap]
  generalize SliceObj.fromEnd len index = i
  by_cases hneg : i < 0
  · rw [if_pos hneg]
    split <;> omega
  · rw [if_neg hneg]
    split <;> omega

theorem InsertFits.eq {idx : IntObj} (h : InsertFits len idx) (hlen : 4 * len + 16 ≤ 2147483648) :
    insertIndex len idx.smallIntValue = pyInsertPlace len idx.value := by
  cases idx with
  | big n address => exact h
  | small n =>
    have h1 := BitVec.le_toInt n
    have h2 := @BitVec.toInt_lt 31 n
    exact @insertIndex_of_range len n.toInt (by omega) (by omega) hlen

/-- The slots from `front.length` on go up by one, over the last. -/
theorem wp_shiftUp {front mid tail : List (Option α)} {last : Option α} {Q : Unit → ListObj α → Prop}
    (hQ : ∀ first, Q () ⟨alloc, len, front ++ [first] ++ mid ++ tail⟩) :
    wp (shiftUp front.length (front.length + mid.length)) Q R ⟨alloc, len, front ++ mid ++ [last] ++ tail⟩ := by
  induction mid using List.reverseRecOn generalizing last tail with
  | nil =>
    cases hi : front.length with
    | zero => simpa [hi, shiftUp] using hQ last
    | succ n =>
      rw [shiftUp.eq_def]
      simpa [hi] using hQ last
  | append_singleton mid z ih =>
    have hcount : front.length + (mid ++ [z]).length = front.length + mid.length + 1 := by simp; omega
    rw [hcount, shiftUp, if_pos (by omega), wp_bind]
    apply wp_loadItem z
    · simp
    have hwrite := @writeAt_mid _ (front ++ mid ++ [z]) [last] [z] tail (front.length + mid.length + 1) (by simp; omega) rfl
    rw [wp_bind]
    apply wp_onItems
    · rw [← List.append_assoc front mid]
      exact hwrite
    · have h := @ih ([z] ++ tail) z fun first => by simpa using hQ first
      simpa using h

theorem insert_spec (h : self.Holds l) (none' x : α) {idx : IntObj} (hfits : InsertFits l.length idx) :
    wp (listInsert gc none' idx x) (fun _ s => s.Holds (pyInsert l idx.value x)) (fun e s => e = .memoryError ∧ s.Holds l) self := by
  rw [listInsert, wp_bind, wp_get, h.len_eq, hfits.eq h.length_le, wp_bind]
  apply wp_mono (append_spec h none')
  · intro _ s hs
    have hle : pyInsertPlace l.length idx.value ≤ l.length := by
      unfold pyInsertPlace
      omega
    unfold pyInsert
    generalize pyInsertPlace l.length idx.value = n at hle ⊢
    obtain ⟨a, b, rfl, rfl⟩ : ∃ a b, l = a ++ b ∧ n = a.length :=
      ⟨l.take n, l.drop n, (List.take_append_drop n l).symm, by rw [List.length_take]; omega⟩
    cases hs with
    | mk _ rest htwo hbound =>
      have hlen : (a ++ b).length = (cells a).length + (cells b).length := by simp
      have hitems : cells (a ++ b ++ [none']) ++ rest = cells a ++ cells b ++ [some none'] ++ rest := by simp [cells]
      rw [wp_bind, hlen, ← length_cells a, hitems]
      apply wp_shiftUp
      intro first
      apply wp_onItems
      · rw [List.append_assoc (cells a ++ [first])]
        exact writeAt_mid rfl rfl
      · refine holds_of rest (by simp) (by simp [cells]) (by simp) htwo hbound
  · intro e s hs
    exact hs

/-! ## reverse -/

/-- What is in between two parts that are as long as each other is turned around. -/
theorem wp_swaps {mid : List (Option α)} {Q : Unit → ListObj α → Prop} {front back tail : List (Option α)} (hback : back.length = front.length)
    {n : Nat} (hn : n = front.length + mid.length + back.length) (hQ : Q () ⟨alloc, len, front ++ mid.reverse ++ back ++ tail⟩) :
    wp ((List.range' front.length (mid.length / 2)).foldlM (fun _ i => swapItems n i) ()) Q R ⟨alloc, len, front ++ mid ++ back ++ tail⟩ := by
  induction mid using List.bidirectionalRec generalizing front back with
  | nil => simpa using hQ
  | singleton x => simpa using hQ
  | cons_append x mid y ih =>
    have hcount : (x :: (mid ++ [y])).length / 2 = mid.length / 2 + 1 := by
      rw [List.length_cons, List.length_append, List.length_singleton]
      omega
    have hother : n - front.length - 1 = front.length + mid.length + 1 := by
      simp at hn
      omega
    have hlast := @writeAt_mid _ (front ++ [y] ++ mid) [y] [x] (back ++ tail) (front.length + mid.length + 1) (by simp; omega) rfl
    rw [hcount, List.range'_succ, List.foldlM_cons, wp_bind, swapItems, wp_bind]
    apply wp_loadItem x
    · simp
    rw [wp_bind, hother]
    apply wp_loadItem y
    · rw [show front ++ x :: (mid ++ [y]) ++ back ++ tail = (front ++ [x] ++ mid) ++ [y] ++ (back ++ tail) by simp,
        show front.length + mid.length + 1 = (front ++ [x] ++ mid).length by simp; omega]
      simp
    rw [wp_bind]
    have hfirst : writeAt (front ++ x :: (mid ++ [y]) ++ back ++ tail) front.length [y] = some (front ++ [y] ++ mid ++ [y] ++ back ++ tail) := by
      have h := @writeAt_mid _ front [x] [y] (mid ++ [y] ++ back ++ tail) front.length rfl rfl
      simpa using h
    apply wp_onItems hfirst
    apply wp_onItems
    · simpa using hlast
    have h := @ih (front ++ [y]) ([x] ++ back) (by simp [hback]) (by simp at hn ⊢; omega) (by simpa using hQ)
    simpa using h

theorem reverse_spec (h : self.Holds l) : wp listReverse (fun _ s => s.Holds l.reverse) R self := by
  cases h with
  | mk l rest htwo hbound =>
    rw [listReverse, wp_bind, wp_get, List.range_eq_range']
    have h := @wp_swaps α R (l.length + rest.length) l.length (cells l) (fun _ s => s.Holds l.reverse) [] [] rest rfl l.length (by simp)
      (holds_of rest (by simp) (by simp [cells]) (by simp) htwo hbound)
    simpa using h

/-! ## clear and copy -/

theorem clear_spec (h : self.Holds l) : wp (listClear gc) (fun _ s => s.Holds []) R self := by
  cases h with
  | mk l rest htwo hbound =>
    rw [listClear, wp_bind, setLen, wp_modify, wp_bind]
    apply wp_realloc []
    · decide
    · exact Nat.zero_le _
    · intro moved rest' hlength hfits _
      obtain ⟨rest, hrest, hwipe⟩ := @wipe_tail _ [] rest' 0 none listMinAlloc (Nat.zero_le _) (Nat.zero_le _) hlength.symm
      apply wp_onItems hwipe
      exact holds_of rest rfl rfl (by rw [hrest]; exact hlength.symm) (show 2 ≤ listMinAlloc by decide) hfits
    · intro hrefused
      have hstays := gc.renew_stays (4 * (l.length + rest.length)) (4 * listMinAlloc) (by decide) hbound (by unfold listMinAlloc; omega)
      exact absurd (hrefused.symm.trans hstays) (by simp)

/-- Of the slots behind the first `n` there are as many as were asked for, but that the bytes
asked for may have wrapped. -/
theorem listNew_granted {n : Nat} (h : gc.Grants (sizeT (4 * max listMinAlloc n))) :
    ∃ items : List (Option α), listNew gc n = .ok ⟨max listMinAlloc n, n, items⟩ ∧ items.length = sizeT (4 * max listMinAlloc n) / 4 := by
  have halloc : (if n < listMinAlloc then listMinAlloc else n) = max listMinAlloc n := by split <;> omega
  simp only [listNew, mNew, halloc, if_pos h, bind, Except.bind]
  by_cases hmin : n < listMinAlloc
  · have hfour : max listMinAlloc n = listMinAlloc := by omega
    rw [hfour]
    obtain ⟨items, hitems, hwipe⟩ := @wipe_tail (Option α) [] (List.replicate (sizeT (4 * listMinAlloc) / 4) none) n none listMinAlloc
      (Nat.zero_le _) (by omega) rfl
    rw [List.nil_append, List.nil_append] at hwipe
    rw [hwipe]
    exact ⟨items, rfl, by simpa using hitems⟩
  · have hn : max listMinAlloc n = n := by omega
    rw [hn, wipe_self]
    exact ⟨_, rfl, List.length_replicate ..⟩

theorem listNew_refused {n : Nat} (h : ¬ gc.Grants (sizeT (4 * max listMinAlloc n))) :
    (listNew gc n : Except Err (ListObj α)) = .error .memoryError := by
  have halloc : (if n < listMinAlloc then listMinAlloc else n) = max listMinAlloc n := by split <;> omega
  simp only [listNew, mNew, halloc, if_neg h, bind, Except.bind]

/-- A copy is a list of its own with the same items. -/
theorem copy_spec (h : self.Holds l) : (∃ s, listCopy gc self = .ok s ∧ s.Holds l) ∨ listCopy gc self = .error .memoryError := by
  have hlength := h.length_le
  cases h with
  | mk l rest htwo hbound =>
    have hbytes : sizeT (4 * max listMinAlloc l.length) = 4 * max listMinAlloc l.length := by
      apply sizeT_of_lt
      unfold listMinAlloc
      omega
    by_cases hgrant : gc.Grants (sizeT (4 * max listMinAlloc l.length))
    · obtain ⟨items, hnew, hitems⟩ := @listNew_granted α gc l.length hgrant
      have hbound' := hgrant.bound
      rw [hbytes] at hitems hbound'
      have halloc : items.length = max listMinAlloc l.length := by omega
      have hread := @readAt_front _ (cells l) rest l.length (by simp)
      rw [List.take_of_length_le (by simp)] at hread
      have hwrite := @writeAt_mid _ [] (items.take l.length) (cells l) (items.drop l.length) 0 rfl (by simp [halloc])
      rw [List.nil_append, List.take_append_drop, List.nil_append] at hwrite
      refine .inl ⟨⟨max listMinAlloc l.length, l.length, cells l ++ items.drop l.length⟩, ?_, holds_of _ rfl rfl ?_ ?_ ?_⟩
      · simp [listCopy, hnew, bind, Except.bind, hread, hwrite]
      · rw [List.length_drop]
        omega
      all_goals
        unfold listMinAlloc at *
        omega
    · right
      simp only [listCopy, listNew_refused hgrant, bind, Except.bind]

end PythonUltra.Py.Objlist
