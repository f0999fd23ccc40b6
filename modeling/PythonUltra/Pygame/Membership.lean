/-
  PythonUltra.Pygame.Membership — sprites and groups agree about membership.

  The lists of a state are the two sides of one relation (`State.links`), and every change
  to them is `Links.link` or `Links.unlink`. So membership stays symmetric and free of
  duplicates through any calls, returning or raising (`coherent_always`).

  A GroupSingle holds one sprite at most as long as its setter is not given two
  (`membership_while_one_set`): the setter empties the group and then calls Group.add, which
  takes every sprite of a list or a group (`setter_takes_both`).
-/

import PythonUltra.Pygame.Sprite

open PythonUltra.Lib

namespace PythonUltra.Pygame.Sprite

/-- The states that calls leave which meet `P` where they are made. -/
inductive Reaches (P : State → Call → Prop) : State → Prop
  | start : Reaches P State.start
  | call {st : State} (call : Call) : Reaches P st → call.Possible st → P st call → Reaches P (call.run st)

/-- Who is in which group, as the groups and as the sprites tell it. -/
def State.links (st : State) : Links Nat Nat := ⟨fun g => (st.group g).sprites, fun s => (st.sprite s).groups.getD []⟩

def State.Coherent (st : State) : Prop := st.links.Coherent

/-- No GroupSingle holds two sprites. -/
def State.Singles (st : State) : Prop := ∀ g, (st.group g).single = true → (st.group g).sprites.length ≤ 1

/-- Sprites only leave groups. -/
def Shrinks (st st' : State) : Prop :=
  ∀ g, (st'.group g).single = (st.group g).single ∧ (st'.group g).sprites.Sublist (st.group g).sprites

/-- Nothing changes in other groups than `g`. -/
def Elsewhere (g : Nat) (st st' : State) : Prop :=
  ∀ h, (st'.group h).single = (st.group h).single ∧ (h ≠ g → (st'.group h).sprites = (st.group h).sprites)

instance : IsPreorder State Shrinks where
  refl _ _ := ⟨rfl, List.Sublist.refl _⟩
  trans _ _ _ h₁ h₂ g := ⟨(h₂ g).1.trans (h₁ g).1, (h₂ g).2.trans (h₁ g).2⟩

instance (g : Nat) : IsPreorder State (Elsewhere g) where
  refl _ _ := ⟨rfl, fun _ => rfl⟩
  trans _ _ _ h₁ h₂ h := ⟨(h₂ h).1.trans (h₁ h).1, fun hne => ((h₂ h).2 hne).trans ((h₁ h).2 hne)⟩

variable {st st' : State} {g h s : Nat} {r : State → State → Prop}

@[simp] theorem setSprites_group_self (sprites : List Nat) : ((st.setSprites g sprites).group g).sprites = sprites := by
  simp [State.setSprites]

@[simp] theorem setSprites_group_ne {sprites : List Nat} (hne : h ≠ g) : (st.setSprites g sprites).group h = st.group h := by
  simp [State.setSprites, hne]

@[simp] theorem setSprites_single (sprites : List Nat) : ((st.setSprites g sprites).group h).single = (st.group h).single := by
  by_cases e : h = g
  · subst e
    simp [State.setSprites]
  · simp [e]

@[simp] theorem setSprites_sprite (sprites : List Nat) : (st.setSprites g sprites).sprite = st.sprite := rfl

@[simp] theorem setGroups_group (groups : List Nat) : (st.setGroups s groups).group = st.group := rfl

@[simp] theorem links_setSprites (sprites : List Nat) :
    (st.setSprites g sprites).links = ⟨Function.update st.links.out g sprites, st.links.back⟩ := by
  simp only [State.links, Links.mk.injEq]
  refine ⟨?_, rfl⟩
  funext h
  by_cases e : h = g
  · subst e
    simp
  · simp [e]

@[simp] theorem links_setGroups (groups : List Nat) :
    (st.setGroups s groups).links = ⟨st.links.out, Function.update st.links.back s groups⟩ := by
  simp only [State.links, setGroups_group, Links.mk.injEq, true_and]
  funext t
  by_cases e : t = s
  · subst e
    simp [State.setGroups]
  · simp [State.setGroups, e]

/-! ## One turn -/

theorem addOne_links (g s : Nat) (st : State) : (addOne g s st).2.links = st.links.link g s := by
  simp only [addOne, Prog.modify, Links.link, Links.insertEnd]
  by_cases hs : s ∈ (st.group g).sprites
  · rw [if_pos hs, if_pos (show s ∈ st.links.out g from hs)]
  · rw [if_neg hs, if_neg (show s ∉ st.links.out g from hs), links_setGroups, links_setSprites]
    rfl

theorem removeOne_links (g s : Nat) (st : State) : (removeOne g s st).2.links = st.links.unlink g s := by
  simp only [removeOne, Prog.modify, Links.unlink]
  by_cases hs : s ∈ (st.group g).sprites
  · rw [if_pos hs, if_pos (show s ∈ st.links.out g from hs), setSprites_sprite]
    have hback : st.links.back s = (st.sprite s).groups.getD [] := rfl
    cases hgroups : (st.sprite s).groups with
    | none =>
      have hnil : (st.links.back s).erase g = st.links.back s := by
        simp [hback, hgroups]
      rw [links_setSprites, hnil, Function.update_eq_self]
      rfl
    | some groups =>
      have hback : st.links.back s = groups := by
        simp [hback, hgroups]
      simp only
      split
      · rw [links_setGroups, links_setSprites, hback]
        rfl
      · rename_i hg
        rw [links_setSprites, hback, List.erase_of_not_mem hg, ← hback, Function.update_eq_self]
        rfl
  · rw [if_neg hs, if_neg (show s ∉ st.links.out g from hs)]

theorem addOne_elsewhere (g s : Nat) : Prog.Within (Elsewhere g) (addOne g s) := by
  intro st h
  simp only [addOne, Prog.modify]
  split
  · exact ⟨rfl, fun _ => rfl⟩
  · refine ⟨by simp, fun hne => ?_⟩
    simp [hne]

theorem removeOne_elsewhere (g s : Nat) : Prog.Within (Elsewhere g) (removeOne g s) := by
  have hset : ∀ (st : State) (sprites : List Nat), Elsewhere g st (st.setSprites g sprites) := by
    intro st sprites h
    refine ⟨by simp, fun hne => ?_⟩
    simp [hne]
  intro st
  simp only [removeOne, Prog.modify]
  split
  · split
    · exact hset st _
    · split
      · exact hset st _
      · exact hset st _
  · exact refl_of (Elsewhere g) st

theorem removeOne_shrinks (g s : Nat) : Prog.Within Shrinks (removeOne g s) := by
  have herase : ∀ st : State, Shrinks st (st.setSprites g ((st.group g).sprites.erase s)) := by
    intro st h
    refine ⟨by simp, ?_⟩
    by_cases e : h = g
    · subst e
      rw [setSprites_group_self]
      exact List.erase_sublist
    · simp [e]
  intro st
  simp only [removeOne, Prog.modify]
  split
  · split
    · exact herase st
    · split
      · exact herase st
      · exact herase st
  · exact refl_of Shrinks st

theorem removeOne_sprites (g s : Nat) (st : State) : ((removeOne g s st).2.group g).sprites = (st.group g).sprites.erase s := by
  have : (removeOne g s st).2.links.out g = (st.links.unlink g s).out g := by
    rw [removeOne_links]
  refine this.trans ?_
  unfold Links.unlink
  split
  next => simp [State.links]
  next hs => exact (List.erase_of_not_mem hs).symm

theorem addOne_coherent (g s : Nat) : Prog.Within (Prog.Preserves State.Coherent) (addOne g s) := by
  intro st hst
  rw [State.Coherent, addOne_links]
  exact hst.link g s

theorem removeOne_coherent (g s : Nat) : Prog.Within (Prog.Preserves State.Coherent) (removeOne g s) := by
  intro st hst
  rw [State.Coherent, removeOne_links]
  exact hst.unlink g s

/-! ## The items of an argument -/

mutual

theorem Item.eachSprite_within [IsPreorder State r] {body : Nat → Op Unit} (hbody : ∀ s, Prog.Within r (body s)) :
    ∀ item : Item, Prog.Within r (item.eachSprite body)
  | .sprite s => hbody s
  | .group _ => Prog.Within.get.bind fun _ => Prog.Within.foldlM (fun _ s => hbody s) ()
  | .seq _ items => eachSprite_within hbody items

theorem eachSprite_within [IsPreorder State r] {body : Nat → Op Unit} (hbody : ∀ s, Prog.Within r (body s)) :
    ∀ items : List Item, Prog.Within r (eachSprite body items)
  | [] => .pure ()
  | item :: items => (item.eachSprite_within hbody).bind fun _ => eachSprite_within hbody items

end

theorem eachSprite_sprites (body : Nat → Op Unit) (sprites : List Nat) :
    eachSprite body (sprites.map .sprite) = sprites.foldlM (fun _ s => body s) () := by
  induction sprites with
  | nil => rfl
  | cons s sprites ih =>
    simp [eachSprite, Item.eachSprite, ih]

/-! ## What calls keep -/

/-- A relation that adding and removing one sprite keep. -/
structure Turns (r : State → State → Prop) : Prop where
  add : ∀ g s, Prog.Within r (addOne g s)
  remove : ∀ g s, Prog.Within r (removeOne g s)

theorem method_within [IsPreorder State r] (s : Nat) : Prog.Within r (method s) :=
  Prog.Within.get.bind fun _ => .ite (.pure ()) (.throw _)

theorem groupRemove_within [IsPreorder State r] (hr : ∀ s, Prog.Within r (removeOne g s)) (items : List Item) :
    Prog.Within r (groupRemove g items) := eachSprite_within hr items

theorem groupEmpty_within [IsPreorder State r] (hr : ∀ s, Prog.Within r (removeOne g s)) : Prog.Within r (groupEmpty g) :=
  Prog.Within.get.bind fun _ => groupRemove_within hr _

theorem spriteKill_within [IsPreorder State r] (hr : ∀ g s, Prog.Within r (removeOne g s)) (s : Nat) :
    Prog.Within r (spriteKill s) :=
  (method_within s).bind fun _ => Prog.Within.get.bind fun _ =>
    Prog.Within.foldlM (fun _ g => groupRemove_within (hr g) _) ()

theorem groupSingleAdd_within [IsPreorder State r] (hr : Turns r) (items : List Item) :
    Prog.Within r (groupSingleAdd g items) := by
  refine Prog.Within.get.bind fun st => ?_
  split
  · exact .pure ()
  · exact (groupEmpty_within (hr.remove g)).bind fun _ => eachSprite_within (hr.add g) _

theorem callAdd_within [IsPreorder State r] (hr : Turns r) (items : List Item) : Prog.Within r (callAdd g items) :=
  Prog.Within.get.bind fun _ => .ite (groupSingleAdd_within hr items) (eachSprite_within (hr.add g) items)

theorem addTo_within [IsPreorder State r] (hadd : ∀ g s, Prog.Within r (callAdd g [.sprite s])) (s : Nat) (item : Item) :
    Prog.Within r (addTo s item) := by
  cases item with
  | group g => exact hadd g s
  | seq kind items =>
    cases kind with
    | tuple => exact Prog.Within.throw _
    | list => exact Prog.Within.throw _
    | set => exact Prog.Within.pure ()
  | sprite t =>
    have hmethod : Prog.Within r (method t) := method_within t
    exact hmethod.bind fun _ => .throw _

theorem removeFrom_within [IsPreorder State r] (hr : ∀ g s, Prog.Within r (removeOne g s)) (s : Nat) (item : Item) :
    Prog.Within r (removeFrom s item) := by
  cases item with
  | group g => exact groupRemove_within (hr g) _
  | seq kind items =>
    cases kind with
    | tuple => exact Prog.Within.throw _
    | list =>
      unfold removeFrom
      exact Prog.Within.ite (.pure ()) (.throw _)
    | set =>
      unfold removeFrom
      exact Prog.Within.ite (.pure ()) (.throw _)
  | sprite t =>
    have hmethod : Prog.Within r (method t) := method_within t
    exact hmethod.bind fun _ => .throw _

theorem addToAll_within [IsPreorder State r] (hadd : ∀ g s, Prog.Within r (callAdd g [.sprite s])) (s : Nat) (groups : List Item) :
    Prog.Within r (groups.foldlM (fun _ item => addTo s item) ()) :=
  Prog.Within.foldlM (fun _ item => addTo_within hadd s item) ()

theorem removeFromAll_within [IsPreorder State r] (hr : ∀ g s, Prog.Within r (removeOne g s)) (s : Nat) (groups : List Item) :
    Prog.Within r (groups.foldlM (fun _ item => removeFrom s item) ()) :=
  Prog.Within.foldlM (fun _ item => removeFrom_within hr s item) ()

theorem spriteAdd_within [IsPreorder State r] (hadd : ∀ g s, Prog.Within r (callAdd g [.sprite s])) (s : Nat) (groups : List Item) :
    Prog.Within r (spriteAdd s groups) := (method_within s).bind fun _ => addToAll_within hadd s groups

theorem spriteRemove_within [IsPreorder State r] (hr : ∀ g s, Prog.Within r (removeOne g s)) (s : Nat) (groups : List Item) :
    Prog.Within r (spriteRemove s groups) := (method_within s).bind fun _ => removeFromAll_within hr s groups

theorem ofExcept_within [IsPreorder State r] {α : Type} (x : Except Err α) : Prog.Within r (Prog.ofExcept x : Op α) :=
  fun st => refl_of r st

theorem spritecollide_within [IsPreorder State r] (hr : ∀ g s, Prog.Within r (removeOne g s))
    (test : Nat → Nat → Except Err Bool) (s g : Nat) (dokill : Bool) : Prog.Within r (spritecollide test s g dokill) := by
  have hkill : ∀ hits : List Nat, Prog.Within r (hits.foldlM (fun _ other => spriteKill other) ()) := fun hits =>
    Prog.Within.foldlM (fun _ other => spriteKill_within hr other) ()
  unfold spritecollide
  refine Prog.Within.get.bind fun st => Prog.Within.bind (ofExcept_within _) fun hits => ?_
  split
  · exact (hkill hits).bind fun _ => .pure _
  · exact Prog.Within.bind (.pure ()) fun _ => .pure _

theorem groupcollide_within [IsPreorder State r] (hr : ∀ g s, Prog.Within r (removeOne g s))
    (test : Nat → Nat → Except Err Bool) (groupa groupb : Nat) (dokilla dokillb : Bool) :
    Prog.Within r (groupcollide test groupa groupb dokilla dokillb) := by
  unfold groupcollide
  refine Prog.Within.get.bind fun st => Prog.Within.foldlM (fun result left => ?_) []
  refine (spritecollide_within hr test left groupb dokillb).bind fun hits => Prog.Within.ite (.pure _) ?_
  split
  · exact (spriteKill_within hr left).bind fun _ => .pure _
  · exact Prog.Within.bind (.pure ()) fun _ => .pure _

/-! ## Membership is symmetric -/

theorem coherent_turns : Turns (Prog.Preserves State.Coherent) := ⟨addOne_coherent, removeOne_coherent⟩

theorem coherent_new_sprite (hst : st.Coherent) (hnew : ∀ g, s ∉ (st.group g).sprites) :
    State.Coherent { st with sprite := Function.update st.sprite s ⟨true, some []⟩ } := by
  have hback : (State.links { st with sprite := Function.update st.sprite s ⟨true, some []⟩ }) =
      ⟨st.links.out, Function.update st.links.back s []⟩ := by
    simp only [State.links, Links.mk.injEq, true_and]
    funext t
    by_cases e : t = s
    · subst e
      simp
    · simp [e]
  rw [State.Coherent, hback]
  exact hst.clear_back hnew

theorem coherent_new_group (single : Bool) (hst : st.Coherent) (hnew : ∀ s, g ∉ (st.sprite s).groups.getD []) :
    State.Coherent { st with group := Function.update st.group g ⟨single, []⟩ } := by
  have hout : (State.links { st with group := Function.update st.group g ⟨single, []⟩ }) =
      ⟨Function.update st.links.out g [], st.links.back⟩ := by
    simp only [State.links, Links.mk.injEq, and_true]
    funext h
    by_cases e : h = g
    · subst e
      simp
    · simp [e]
  rw [State.Coherent, hout]
  exact hst.clear_out hnew

theorem call_coherent (hst : st.Coherent) (call : Call) (hcall : call.Possible st) : (call.run st).Coherent := by
  have hturns := coherent_turns
  cases call with
  | newSprite s groups =>
    have hnew := coherent_new_sprite hst hcall
    have hadd := addToAll_within (fun g s => callAdd_within hturns [.sprite s]) s groups
    exact Prog.Within.ite (.pure ()) hadd _ hnew
  | newGroup g sprites =>
    have hnew := coherent_new_group false hst hcall
    exact Prog.Within.ite (.pure ()) (eachSprite_within (hturns.add g) sprites) _ hnew
  | newSingle g sprite =>
    have hnew := coherent_new_group true hst hcall
    cases sprite with
    | none => exact hnew
    | some sprite => exact groupSingleAdd_within hturns [sprite] _ hnew
  | add g sprites => exact callAdd_within hturns sprites st hst
  | remove g sprites => exact groupRemove_within (hturns.remove g) sprites st hst
  | empty g => exact groupEmpty_within (hturns.remove g) st hst
  | setSprite g value =>
    have hempty := groupEmpty_within (hturns.remove g)
    cases value with
    | none => exact (hempty.bind fun _ => .pure ()) st hst
    | some value => exact (hempty.bind fun _ => eachSprite_within (hturns.add g) [value]) st hst
  | spriteAdd s groups => exact spriteAdd_within (fun g s => callAdd_within hturns _) s groups st hst
  | spriteRemove s groups => exact spriteRemove_within hturns.remove s groups st hst
  | kill s => exact spriteKill_within hturns.remove s st hst
  | spritecollide test s g dokill =>
    exact ((spritecollide_within hturns.remove test s g dokill).bind fun _ => .pure ()) st hst
  | groupcollide test groupa groupb dokilla dokillb =>
    exact ((groupcollide_within hturns.remove test groupa groupb dokilla dokillb).bind fun _ => .pure ()) st hst

theorem coherent_always {P : State → Call → Prop} (h : Reaches P st) : st.Coherent := by
  induction h with
  | start => exact fun _ _ => ⟨rfl, Nat.zero_le _⟩
  | call call _ hcall _ ih => exact call_coherent ih call hcall

/-- Whatever is called, groups and sprites agree, and a sprite is alive as long as some group holds it. -/
theorem alive_while_held {P : State → Call → Prop} (h : Reaches P st) :
    st.Coherent ∧ ∀ s, spriteAlive st s = true ↔ ∃ g, s ∈ (st.group g).sprites := by
  refine ⟨coherent_always h, ?_⟩
  intro s
  have hmem : ∀ g, s ∈ (st.group g).sprites ↔ g ∈ (st.sprite s).groups.getD [] := fun g => (coherent_always h).mem
  simp only [hmem, spriteAlive, Bool.not_eq_true', List.isEmpty_eq_false_iff_exists_mem]

/-! ## A GroupSingle -/

/-- The sprites of the GroupSingle `g` once it is emptied, and those the items hold then. -/
def State.emptied (st : State) (g : Nat) : State := st.setSprites g []

/-- The setter is given one sprite at most, however often: none, a sprite, or a list or
group in which no two sprites are met once the GroupSingle itself is empty. -/
def OneSet (st : State) : Call → Prop
  | .setSprite g (some value) =>
    ∀ s ∈ value.flattenSprites (st.emptied g), ∀ t ∈ value.flattenSprites (st.emptied g), s = t
  | _ => True

theorem shrinks_singles (h : Shrinks st st') (hst : st.Singles) : st'.Singles := fun g hg =>
  Nat.le_trans (h g).2.length_le (hst g ((h g).1 ▸ hg))

theorem elsewhere_singles (h : Elsewhere g st st') (hst : st.Singles)
    (hg : (st.group g).single = true → (st'.group g).sprites.length ≤ 1) : st'.Singles := by
  intro h' hh'
  rw [(h h').1] at hh'
  by_cases e : h' = g
  · subst e
    exact hg hh'
  · rw [(h h').2 e]
    exact hst h' hh'

theorem elsewhere_turns (g : Nat) (items : List Item) : Prog.Within (Elsewhere g) (groupAdd g items) :=
  eachSprite_within (addOne_elsewhere g) items

theorem removeAll_sprites (sprites : List Nat) (st : State) :
    ((sprites.foldlM (fun _ s => removeOne g s) () st).2.group g).sprites = (st.group g).sprites.diff sprites := by
  induction sprites generalizing st with
  | nil => rfl
  | cons s sprites ih =>
    have hstep : (List.foldlM (fun _ s => removeOne g s) () (s :: sprites) : Op Unit) st =
        List.foldlM (fun _ s => removeOne g s) () sprites (removeOne g s st).2 := rfl
    rw [hstep, ih, removeOne_sprites, List.diff_cons]

theorem diff_self (l : List Nat) : l.diff l = [] := by
  induction l with
  | nil => rfl
  | cons x l ih => rw [List.diff_cons, List.erase_cons_head, ih]

theorem groupEmpty_eq (st : State) :
    groupEmpty g st = (st.group g).sprites.foldlM (fun _ s => removeOne g s) () st := by
  have : groupEmpty g st = groupRemove g [.seq .list ((st.group g).sprites.map .sprite)] st := rfl
  rw [this, groupRemove]
  have : eachSprite (removeOne g) [.seq .list ((st.group g).sprites.map .sprite)] =
      (do eachSprite (removeOne g) ((st.group g).sprites.map .sprite); pure ()) := rfl
  rw [this, eachSprite_sprites]
  simp only [bind, pure]
  split
  next heq => exact heq.symm ▸ rfl
  next heq => exact heq.symm

theorem groupEmpty_sprites (st : State) : ((groupEmpty g st).2.group g).sprites = [] := by
  rw [groupEmpty_eq, removeAll_sprites, diff_self]

/-! ## What Group.add takes -/

mutual

theorem Item.flatten_congr (h : ∀ k, (st'.group k).sprites = (st.group k).sprites) :
    ∀ item : Item, item.flattenSprites st' = item.flattenSprites st
  | .sprite _ => rfl
  | .group k => h k
  | .seq _ items => Sprite.flatten_congr h items

theorem flatten_congr (h : ∀ k, (st'.group k).sprites = (st.group k).sprites) :
    ∀ items : List Item, flattenSprites st' items = flattenSprites st items
  | [] => rfl
  | item :: items => congrArg₂ (· ++ ·) (item.flatten_congr h) (flatten_congr h items)

end

mutual

/-- Beside the sprites of `g`, it does not matter whether the items are read before or
after some of them came into `g`. -/
theorem Item.flatten_beside (h : Elsewhere g st st') (hsub : ∀ x ∈ (st.group g).sprites, x ∈ (st'.group g).sprites) (x : Nat) :
    ∀ item : Item, (x ∈ (st'.group g).sprites ∨ x ∈ item.flattenSprites st') ↔
      (x ∈ (st'.group g).sprites ∨ x ∈ item.flattenSprites st)
  | .sprite _ => Iff.rfl
  | .group k => by
    simp only [Item.flattenSprites]
    by_cases e : k = g
    · subst e
      have := hsub x
      grind
    · rw [(h k).2 e]
  | .seq _ items => Sprite.flatten_beside h hsub x items

theorem flatten_beside (h : Elsewhere g st st') (hsub : ∀ x ∈ (st.group g).sprites, x ∈ (st'.group g).sprites) (x : Nat) :
    ∀ items : List Item, (x ∈ (st'.group g).sprites ∨ x ∈ flattenSprites st' items) ↔
      (x ∈ (st'.group g).sprites ∨ x ∈ flattenSprites st items)
  | [] => Iff.rfl
  | item :: items => by
    have hitem := item.flatten_beside h hsub x
    have hitems := flatten_beside h hsub x items
    simp only [flattenSprites, List.mem_append]
    grind

end

/-- `op` returns, with the sprites of `F` beside those `g` had. -/
def Takes (g : Nat) (F : Nat → Prop) (st : State) (out : Except Err Unit × State) : Prop :=
  out.1 = .ok () ∧ Elsewhere g st out.2 ∧ ∀ x, x ∈ (out.2.group g).sprites ↔ x ∈ (st.group g).sprites ∨ F x

theorem Takes.sub {F : Nat → Prop} {out : Except Err Unit × State} (h : Takes g F st out) :
    ∀ x ∈ (st.group g).sprites, x ∈ (out.2.group g).sprites := fun x hx => (h.2.2 x).mpr (.inl hx)

theorem Takes.bind {F G : Nat → Prop} {a b : Op Unit} (ha : Takes g F st (a st)) (hb : Takes g G (a st).2 (b (a st).2)) :
    Takes g (fun x => F x ∨ G x) st ((do a; b) st) := by
  obtain ⟨hok, hframe, hmem⟩ := ha
  obtain ⟨hok', hframe', hmem'⟩ := hb
  have hrun : (do a; b) st = b (a st).2 := Prog.bind_of_ok (Prod.ext hok rfl)
  rw [hrun]
  refine ⟨hok', trans_of (Elsewhere g) hframe hframe', fun x => ?_⟩
  rw [hmem', hmem]
  exact or_assoc

theorem addOne_takes (st : State) : Takes g (· = s) st (addOne g s st) := by
  refine ⟨rfl, addOne_elsewhere g s st, fun x => ?_⟩
  simp only [addOne, Prog.modify]
  split
  next hs =>
    constructor
    · exact .inl
    · rintro (hx | rfl)
      · exact hx
      · exact hs
  next hs => simp

theorem addAll_takes (sprites : List Nat) (st : State) :
    Takes g (· ∈ sprites) st (sprites.foldlM (fun _ s => addOne g s) () st) := by
  induction sprites generalizing st with
  | nil => exact ⟨rfl, refl_of _ _, fun x => by simp [pure]⟩
  | cons s sprites ih =>
    rw [List.foldlM_cons]
    have := (addOne_takes st).bind (ih (addOne g s st).2)
    simpa only [List.mem_cons] using this

mutual

theorem Item.eachSprite_takes : ∀ (item : Item) (st : State),
    Takes g (· ∈ item.flattenSprites st) st (item.eachSprite (addOne g) st)
  | .sprite s, st => by
    have := addOne_takes (g := g) (s := s) st
    simpa only [Item.flattenSprites, List.mem_singleton, Item.eachSprite] using this
  | .group k, st => addAll_takes (st.group k).sprites st
  | .seq _ items, st => eachSprite_takes items st

/-- Group.add takes the sprites of the items as they are when it is called. -/
theorem eachSprite_takes : ∀ (items : List Item) (st : State),
    Takes g (· ∈ flattenSprites st items) st (eachSprite (addOne g) items st)
  | [], st => ⟨rfl, refl_of _ _, fun x => by simp [flattenSprites, eachSprite, pure]⟩
  | item :: items, st => by
    have hitem := item.eachSprite_takes st
    have hitems := eachSprite_takes items (item.eachSprite (addOne g) st).2
    have hboth := hitem.bind hitems
    refine ⟨hboth.1, hboth.2.1, fun x => ?_⟩
    have hbeside := flatten_beside hitem.2.1 hitem.sub x items
    have hx := hboth.2.2 x
    have hx' := hitem.2.2 x
    simp only [flattenSprites, List.mem_append]
    have hrun : eachSprite (addOne g) (item :: items) st = (do item.eachSprite (addOne g); eachSprite (addOne g) items) st := rfl
    rw [hrun, hx]
    grind

end

/-! ## One sprite at most -/

theorem groupEmpty_elsewhere (g : Nat) : Prog.Within (Elsewhere g) (groupEmpty g) :=
  groupEmpty_within (removeOne_elsewhere g)

theorem groupEmpty_emptied (st : State) (k : Nat) : ((groupEmpty g st).2.group k).sprites = ((st.emptied g).group k).sprites := by
  by_cases e : k = g
  · subst e
    rw [groupEmpty_sprites, State.emptied, setSprites_group_self]
  · rw [(groupEmpty_elsewhere g st k).2 e, State.emptied, setSprites_group_ne e]

theorem removeAll_returns (sprites : List Nat) (st : State) :
    (sprites.foldlM (fun _ s => removeOne g s) () st : Except Err Unit × State).1 = .ok () := by
  induction sprites generalizing st with
  | nil => rfl
  | cons s sprites ih => exact ih (removeOne g s st).2

/-- Emptying a group and then adding to it. -/
theorem refill (st : State) (items : List Item) : ∃ st', (do groupEmpty g; groupAdd g items) st = (.ok (), st') ∧
    Elsewhere g st st' ∧ ∀ x, x ∈ (st'.group g).sprites ↔ x ∈ flattenSprites (st.emptied g) items := by
  have hreturns : (groupEmpty g st).1 = .ok () := by
    rw [groupEmpty_eq]
    exact removeAll_returns _ st
  obtain ⟨hok, hframe, hmem⟩ := eachSprite_takes (g := g) items (groupEmpty g st).2
  refine ⟨_, (Prog.bind_of_ok (Prod.ext hreturns rfl)).trans (Prod.ext hok rfl), ?_, fun x => ?_⟩
  · exact trans_of (Elsewhere g) (groupEmpty_elsewhere g st) hframe
  · have hcongr : flattenSprites (groupEmpty g st).2 items = flattenSprites (st.emptied g) items :=
      flatten_congr (groupEmpty_emptied st) items
    have hmem := hmem x
    rw [groupEmpty_sprites, hcongr] at hmem
    simp only [List.not_mem_nil, false_or] at hmem
    exact hmem

theorem length_le_one_iff {l : List Nat} (h : l.Nodup) : l.length ≤ 1 ↔ ∀ x ∈ l, ∀ y ∈ l, x = y := by
  constructor
  · intro hl x hx y hy
    match l, hl with
    | [a], _ => rw [List.mem_singleton.mp hx, List.mem_singleton.mp hy]
  · intro hall
    match l, h with
    | [], _ => exact Nat.zero_le _
    | [a], _ => exact Nat.le_refl _
    | a :: b :: l, h =>
      have hab : a = b := hall a (by simp) b (by simp)
      simp [hab] at h

/-- What every state has while the setter is given one sprite at most. -/
def State.Sound (st : State) : Prop := st.Coherent ∧ st.Singles

theorem sound_remove {α : Type} {op : Op α} (hcoherent : Prog.Within (Prog.Preserves State.Coherent) op)
    (hshrinks : Prog.Within Shrinks op) : Prog.Within (Prog.Preserves State.Sound) op :=
  fun st hst => ⟨hcoherent st hst.1, shrinks_singles (hshrinks st) hst.2⟩

theorem groupSingleAdd_sound (items : List Item) : Prog.Within (Prog.Preserves State.Sound) (groupSingleAdd g items) := by
  intro st hst
  have hcoherent := groupSingleAdd_within coherent_turns (g := g) items st hst.1
  refine ⟨hcoherent, ?_⟩
  cases hlast : (flattenSprites st items).getLast? with
  | none =>
    unfold groupSingleAdd
    rw [Prog.get_bind, hlast]
    exact hst.2
  | some last =>
    obtain ⟨st', hrun, hframe, hmem⟩ := refill (g := g) st [.sprite last]
    have hadd : groupSingleAdd g items st = (do groupEmpty g; groupAdd g [.sprite last] : Op Unit) st := by
      unfold groupSingleAdd
      rw [Prog.get_bind, hlast]
    have hst' : (groupSingleAdd g items st).2 = st' := congrArg Prod.snd (hadd.trans hrun)
    rw [hst'] at hcoherent ⊢
    refine elsewhere_singles hframe hst.2 fun _ => (length_le_one_iff (hcoherent.nodup_out g)).mpr ?_
    have hone : ∀ x ∈ (st'.group g).sprites, x = last := by
      intro x hx
      simpa [flattenSprites, Item.flattenSprites] using (hmem x).mp hx
    intro x hx y hy
    rw [hone x hx, hone y hy]

/-- `add` of a group's own class. -/
theorem callAdd_sound (items : List Item) : Prog.Within (Prog.Preserves State.Sound) (callAdd g items) := by
  intro st hst
  have hadd : callAdd g items st =
      (if (st.group g).single then groupSingleAdd g items else groupAdd g items : Op Unit) st := rfl
  rw [hadd]
  by_cases hsingle : (st.group g).single = true
  · rw [if_pos hsingle]
    exact groupSingleAdd_sound items st hst
  · rw [if_neg hsingle]
    refine ⟨eachSprite_within (addOne_coherent g) items st hst.1, ?_⟩
    exact elsewhere_singles (elsewhere_turns g items st) hst.2 fun h => absurd h hsingle

/-- What the setter leaves in its GroupSingle is one sprite at most just when it is given
one at most. -/
theorem setter_single_iff {value : Item} (hst : st.Coherent) (hsingles : st.Singles) (hsingle : (st.group g).single = true) :
    ((Call.setSprite g (some value)).run st).Singles ↔ OneSet st (.setSprite g (some value)) := by
  obtain ⟨st', hrun, hframe, hmem⟩ := refill (g := g) st [value]
  have hrun : (Call.setSprite g (some value)).run st = st' := congrArg Prod.snd hrun
  have hcoherent : st'.Coherent := hrun ▸ call_coherent hst (.setSprite g (some value)) hsingle
  have hnodup : (st'.group g).sprites.Nodup := hcoherent.nodup_out g
  have hone : (st'.group g).sprites.length ≤ 1 ↔ OneSet st (.setSprite g (some value)) := by
    rw [length_le_one_iff hnodup]
    simp [hmem, OneSet, flattenSprites]
  rw [hrun, ← hone]
  constructor
  · intro h
    exact h g ((hframe g).1.trans hsingle)
  · intro h
    exact elsewhere_singles hframe hsingles fun _ => h

theorem singles_new_group (single : Bool) (hst : st.Singles) :
    State.Singles { st with group := Function.update st.group g ⟨single, []⟩ } := by
  intro h hh
  by_cases e : h = g
  · subst e
    simp
  · simp only [Function.update_of_ne e] at hh ⊢
    exact hst h hh

theorem call_sound (hst : st.Sound) (call : Call) (hcall : call.Possible st) (hone : OneSet st call) : (call.run st).Sound := by
  have hremove : ∀ g s, Prog.Within (Prog.Preserves State.Sound) (removeOne g s) := fun g s =>
    sound_remove (removeOne_coherent g s) (removeOne_shrinks g s)
  have hadd : ∀ g s, Prog.Within (Prog.Preserves State.Sound) (callAdd g [.sprite s]) := fun g s => callAdd_sound _
  cases call with
  | newSprite s groups =>
    have hnew : State.Sound { st with sprite := Function.update st.sprite s ⟨true, some []⟩ } :=
      ⟨coherent_new_sprite hst.1 hcall, hst.2⟩
    exact Prog.Within.ite (.pure ()) (addToAll_within hadd s groups) _ hnew
  | newGroup g sprites =>
    refine ⟨call_coherent hst.1 (.newGroup g sprites) hcall, ?_⟩
    have hnew := singles_new_group (g := g) false hst.2
    have hframe : Prog.Within (Elsewhere g) (if sprites = [] then pure () else groupAdd g sprites) :=
      .ite (.pure ()) (elsewhere_turns g sprites)
    exact elsewhere_singles (hframe _) hnew fun hsingle => by simp at hsingle
  | newSingle g sprite =>
    have hnew : State.Sound { st with group := Function.update st.group g ⟨true, []⟩ } :=
      ⟨coherent_new_group true hst.1 hcall, singles_new_group true hst.2⟩
    cases sprite with
    | none => exact hnew
    | some sprite => exact groupSingleAdd_sound [sprite] _ hnew
  | add g sprites => exact callAdd_sound sprites st hst
  | remove g sprites => exact groupRemove_within (hremove g) sprites st hst
  | empty g => exact groupEmpty_within (hremove g) st hst
  | setSprite g value =>
    refine ⟨call_coherent hst.1 (.setSprite g value) hcall, ?_⟩
    cases value with
    | none =>
      exact ((groupEmpty_within (hremove g)).bind fun _ => .pure ()) st hst |>.2
    | some value => exact (setter_single_iff hst.1 hst.2 hcall).mpr hone
  | spriteAdd s groups => exact spriteAdd_within hadd s groups st hst
  | spriteRemove s groups => exact spriteRemove_within hremove s groups st hst
  | kill s => exact spriteKill_within hremove s st hst
  | spritecollide test s g dokill =>
    exact ((spritecollide_within hremove test s g dokill).bind fun _ => .pure ()) st hst
  | groupcollide test groupa groupb dokilla dokillb =>
    exact ((groupcollide_within hremove test groupa groupb dokilla dokillb).bind fun _ => .pure ()) st hst

theorem sound_while_one_set (h : Reaches OneSet st) : st.Sound := by
  induction h with
  | start => exact ⟨fun _ _ => ⟨rfl, Nat.zero_le _⟩, fun _ _ => Nat.zero_le _⟩
  | call call _ hcall hone ih => exact call_sound ih call hcall hone

/-- A sprite is listed by a group once just when it lists the group once, neither lists
the other twice, and a GroupSingle has one sprite at most. -/
def State.Membership (st : State) : Prop :=
  (∀ g s, (st.group g).sprites.count s = 1 ↔ ((st.sprite s).groups.getD []).count g = 1) ∧
    (∀ g s, (st.group g).sprites.count s ≤ 1 ∧ ((st.sprite s).groups.getD []).count g ≤ 1) ∧
      ∀ g, (st.group g).single = true → (st.group g).sprites.length ≤ 1

theorem membership_while_one_set (h : Reaches OneSet st) : st.Membership := by
  obtain ⟨hcoherent, hsingles⟩ := sound_while_one_set h
  refine ⟨fun g s => hcoherent.once, fun g s => ⟨(hcoherent g s).2, ?_⟩, hsingles⟩
  exact List.nodup_iff_count_le_one.mp (hcoherent.nodup_back s) g

theorem Reaches.mono {P Q : State → Call → Prop} (hPQ : ∀ st call, P st call → Q st call) (h : Reaches P st) : Reaches Q st := by
  induction h with
  | start => exact .start
  | call call _ hcall hP ih => exact .call call ih hcall (hPQ _ call hP)

/-- Two sprites and a GroupSingle. -/
def pair : State :=
  (Call.newSingle 0 none).run ((Call.newSprite 1 []).run ((Call.newSprite 0 []).run State.start))

theorem pair_reaches : Reaches OneSet pair := by
  refine .call _ (.call _ (.call _ .start ?_ trivial) ?_ trivial) ?_ trivial
  · exact fun _ => List.not_mem_nil
  · exact fun _ => List.not_mem_nil
  · intro s
    have hgroups : ((((Call.newSprite 1 []).run ((Call.newSprite 0 []).run State.start)).sprite s).groups.getD []) = [] := by
      by_cases h1 : s = 1
      · subst h1
        rfl
      · by_cases h0 : s = 0
        · subst h0
          rfl
        · simp [Call.run, Call.op, spriteInit, Prog.modify, bind, pure, State.start, h0, h1]
    rw [hgroups]
    exact List.not_mem_nil

theorem alive_while_held_pair : pair.Coherent ∧ ∀ s, spriteAlive pair s = true ↔ ∃ g, s ∈ (pair.group g).sprites := alive_while_held pair_reaches

/-- The setter given a list with one sprite, twice. -/
theorem membership_of_one_sprite : ((Call.setSprite 0 (some (.seq .list [.sprite 0, .sprite 0]))).run pair).Membership := by
  apply membership_while_one_set
  refine .call _ pair_reaches rfl ?_
  intro s hs t ht
  simp only [Item.flattenSprites, flattenSprites, List.append_nil, List.cons_append, List.nil_append, List.mem_cons,
    List.not_mem_nil, or_false, or_self] at hs ht
  rw [hs, ht]

/-- The setter given a list with both. -/
theorem setter_takes_both : ¬ ∀ st, Reaches (fun _ _ => True) st → st.Membership := by
  intro h
  have hreaches := (pair_reaches.mono fun _ _ _ => trivial).call (P := fun _ _ => True)
    (.setSprite 0 (some (.seq .list [.sprite 0, .sprite 1]))) rfl trivial
  have := (h _ hreaches).2.2 0 (by decide)
  revert this
  decide

end PythonUltra.Pygame.Sprite
