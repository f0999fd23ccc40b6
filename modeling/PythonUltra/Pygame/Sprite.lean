/-
  PythonUltra.Pygame.Sprite — pygame's sprites and groups (ports/sh/modules/pygame/__init__.py).

  A group lists its sprites and a sprite its groups; objects are numbers. An object that
  never had `_groups` may be put into a group too. Arguments nest: `Item` is a sprite, a
  group or a tuple, list or set of items.

  Group.add and Group.remove take the sprites one by one from a generator, so a group among
  the items is read when its turn comes (`eachSprite`). GroupSingle.add makes a list of them
  first (`flattenSprites`).
-/

import PythonUltra.Lib.Prog
import PythonUltra.Lib.Links

open PythonUltra.Lib

namespace PythonUltra.Pygame.Sprite

structure SpriteObj where
  /-- an instance of Sprite, which has its methods -/
  isSprite : Bool
  /-- none: no attribute `_groups` -/
  groups : Option (List Nat)

structure GroupObj where
  /-- an instance of GroupSingle -/
  single : Bool
  sprites : List Nat

structure State where
  sprite : Nat → SpriteObj
  group : Nat → GroupObj

inductive Err where
  | attributeError
  | valueError
  | keyError
  | runtimeError
deriving DecidableEq

inductive SeqKind where
  | tuple | list | set
deriving DecidableEq

inductive Item where
  | sprite (s : Nat)
  | group (g : Nat)
  | seq (kind : SeqKind) (items : List Item)

abbrev Op (α : Type) := Prog State Err α

def State.setSprites (st : State) (g : Nat) (sprites : List Nat) : State :=
  { st with group := Function.update st.group g { st.group g with sprites } }

def State.setGroups (st : State) (s : Nat) (groups : List Nat) : State :=
  { st with sprite := Function.update st.sprite s { st.sprite s with groups := some groups } }

/-! ## The items of an argument -/

mutual

/-- `for item in _flatten_sprites((item,)): body(item)` -/
def Item.eachSprite (body : Nat → Op Unit) : Item → Op Unit
  | .sprite s => body s
  | .group g => do
    let st ← Prog.get
    (st.group g).sprites.foldlM (fun _ s => body s) ()
  | .seq _ items => eachSprite body items

def eachSprite (body : Nat → Op Unit) : List Item → Op Unit
  | [] => pure ()
  | item :: items => do
    item.eachSprite body
    eachSprite body items

end

mutual

/-- `list(_flatten_sprites((item,)))` -/
def Item.flattenSprites (st : State) : Item → List Nat
  | .sprite s => [s]
  | .group g => (st.group g).sprites
  | .seq _ items => flattenSprites st items

def flattenSprites (st : State) : List Item → List Nat
  | [] => []
  | item :: items => item.flattenSprites st ++ flattenSprites st items

end

/-! ## Group -/

/-- One turn of the loop of Group.add. -/
def addOne (g s : Nat) : Op Unit := Prog.modify fun st =>
  if s ∈ (st.group g).sprites then st
  else
    let st := st.setSprites g ((st.group g).sprites ++ [s])
    let groups := (st.sprite s).groups.getD []
    st.setGroups s (if g ∈ groups then groups else groups ++ [g])

/-- One turn of the loop of Group.remove. -/
def removeOne (g s : Nat) : Op Unit := Prog.modify fun st =>
  if s ∈ (st.group g).sprites then
    let st := st.setSprites g ((st.group g).sprites.erase s)
    match (st.sprite s).groups with
    | none => st
    | some groups => if g ∈ groups then st.setGroups s (groups.erase g) else st
  else st

/-- Group.add -/
def groupAdd (g : Nat) (sprites : List Item) : Op Unit := eachSprite (addOne g) sprites

/-- Group.remove -/
def groupRemove (g : Nat) (sprites : List Item) : Op Unit := eachSprite (removeOne g) sprites

/-- Group.empty -/
def groupEmpty (g : Nat) : Op Unit := do
  let st ← Prog.get
  groupRemove g [.seq .list ((st.group g).sprites.map .sprite)]

/-- GroupSingle.add -/
def groupSingleAdd (g : Nat) (sprites : List Item) : Op Unit := do
  let st ← Prog.get
  match (flattenSprites st sprites).getLast? with
  | none => pure ()
  | some last => do
    groupEmpty g
    groupAdd g [.sprite last]

/-- `group.add(...)`, of the group's own class. -/
def callAdd (g : Nat) (sprites : List Item) : Op Unit := do
  let st ← Prog.get
  if (st.group g).single then groupSingleAdd g sprites else groupAdd g sprites

/-- GroupSingle.sprite = value -/
def groupSingleSetSprite (g : Nat) (value : Option Item) : Op Unit := do
  groupEmpty g
  match value with
  | none => pure ()
  | some value => groupAdd g [value]

/-- GroupSingle.sprite -/
def groupSingleSprite (st : State) (g : Nat) : Option Nat := (st.group g).sprites.head?

/-- Group(*sprites), at a new object `g`. -/
def groupInit (g : Nat) (sprites : List Item) : Op Unit := do
  Prog.modify fun st => { st with group := Function.update st.group g ⟨false, []⟩ }
  if sprites = [] then pure () else groupAdd g sprites

/-- GroupSingle(sprite), at a new object `g`. -/
def groupSingleInit (g : Nat) (sprite : Option Item) : Op Unit := do
  Prog.modify fun st => { st with group := Function.update st.group g ⟨true, []⟩ }
  match sprite with
  | none => pure ()
  | some sprite => groupSingleAdd g [sprite]

/-! ## Sprite -/

/-- Attributes of Sprite that other objects do not have. -/
def method (s : Nat) : Op Unit := do
  let st ← Prog.get
  if (st.sprite s).isSprite then pure () else Prog.throw .attributeError

/-- `group.add(self)` in Sprite.add. A sprite given as a group calls back without end. -/
def addTo (s : Nat) : Item → Op Unit
  | .group g => callAdd g [.sprite s]
  | .seq .set _ => pure ()
  | .seq _ _ => Prog.throw .attributeError
  | .sprite t => do
    method t
    Prog.throw .runtimeError

/-- `group.remove(self)` in Sprite.remove. What a list or a set given loses is not followed. -/
def removeFrom (s : Nat) : Item → Op Unit
  | .group g => groupRemove g [.sprite s]
  | .seq kind items =>
    let found := items.any fun
      | .sprite t => s == t
      | _ => false
    match kind with
    | .tuple => Prog.throw .attributeError
    | .list => if found then pure () else Prog.throw .valueError
    | .set => if found then pure () else Prog.throw .keyError
  | .sprite t => do
    method t
    Prog.throw .runtimeError

/-- Sprite.add -/
def spriteAdd (s : Nat) (groups : List Item) : Op Unit := do
  method s
  groups.foldlM (fun _ item => addTo s item) ()

/-- Sprite.remove -/
def spriteRemove (s : Nat) (groups : List Item) : Op Unit := do
  method s
  groups.foldlM (fun _ item => removeFrom s item) ()

/-- Sprite.kill -/
def spriteKill (s : Nat) : Op Unit := do
  method s
  let st ← Prog.get
  ((st.sprite s).groups.getD []).foldlM (fun _ g => groupRemove g [.sprite s]) ()

/-- Sprite.alive -/
def spriteAlive (st : State) (s : Nat) : Bool := !((st.sprite s).groups.getD []).isEmpty

/-- Sprite(*groups), at a new object `s`. -/
def spriteInit (s : Nat) (groups : List Item) : Op Unit := do
  Prog.modify fun st => { st with sprite := Function.update st.sprite s ⟨true, some []⟩ }
  if groups.isEmpty then pure () else groups.foldlM (fun _ item => addTo s item) ()

/-! ## Collisions -/

/-- spritecollide. `test` is `collided`, or collide_rect of the rects the sprites have. -/
def spritecollide (test : Nat → Nat → Except Err Bool) (s g : Nat) (dokill : Bool) : Op (List Nat) := do
  let st ← Prog.get
  let hits ← Prog.ofExcept ((st.group g).sprites.filterM (test s))
  if dokill then hits.foldlM (fun _ other => spriteKill other) () else pure ()
  pure hits

/-- `d[k] = v` -/
def dictSet (d : List (Nat × List Nat)) (k : Nat) (v : List Nat) : List (Nat × List Nat) :=
  if d.any (·.1 == k) then d.map fun e => if e.1 == k then (k, v) else e else d ++ [(k, v)]

/-- groupcollide -/
def groupcollide (test : Nat → Nat → Except Err Bool) (groupa groupb : Nat) (dokilla dokillb : Bool) :
    Op (List (Nat × List Nat)) := do
  let st ← Prog.get
  (st.group groupa).sprites.foldlM (fun result left => do
    let hits ← spritecollide test left groupb dokillb
    if hits.isEmpty then pure result
    else do
      if dokilla then spriteKill left else pure ()
      pure (dictSet result left hits)) []

/-! ## Calls -/

inductive Call where
  | newSprite (s : Nat) (groups : List Item)
  | newGroup (g : Nat) (sprites : List Item)
  | newSingle (g : Nat) (sprite : Option Item)
  | add (g : Nat) (sprites : List Item)
  | remove (g : Nat) (sprites : List Item)
  | empty (g : Nat)
  | setSprite (g : Nat) (value : Option Item)
  | spriteAdd (s : Nat) (groups : List Item)
  | spriteRemove (s : Nat) (groups : List Item)
  | kill (s : Nat)
  | spritecollide (test : Nat → Nat → Except Err Bool) (s g : Nat) (dokill : Bool)
  | groupcollide (test : Nat → Nat → Except Err Bool) (groupa groupb : Nat) (dokilla dokillb : Bool)

def Call.op : Call → Op Unit
  | .newSprite s groups => spriteInit s groups
  | .newGroup g sprites => groupInit g sprites
  | .newSingle g sprite => groupSingleInit g sprite
  | .add g sprites => callAdd g sprites
  | .remove g sprites => groupRemove g sprites
  | .empty g => groupEmpty g
  | .setSprite g value => groupSingleSetSprite g value
  | .spriteAdd s groups => Sprite.spriteAdd s groups
  | .spriteRemove s groups => Sprite.spriteRemove s groups
  | .kill s => spriteKill s
  | .spritecollide test s g dokill => do
    let _ ← Sprite.spritecollide test s g dokill
    pure ()
  | .groupcollide test groupa groupb dokilla dokillb => do
    let _ ← Sprite.groupcollide test groupa groupb dokilla dokillb
    pure ()

/-- The state a call leaves, whether it returns or raises. -/
def Call.run (st : State) (call : Call) : State := (call.op st).2

/-- A new object is one that nothing refers to yet; only a GroupSingle has the setter. -/
def Call.Possible (st : State) : Call → Prop
  | .newSprite s _ => ∀ g, s ∉ (st.group g).sprites
  | .newGroup g _ => ∀ s, g ∉ ((st.sprite s).groups.getD [])
  | .newSingle g _ => ∀ s, g ∉ ((st.sprite s).groups.getD [])
  | .setSprite g _ => (st.group g).single = true
  | _ => True

/-- No groups, and objects that are not sprites. -/
def State.start : State := ⟨fun _ => ⟨false, none⟩, fun _ => ⟨false, []⟩⟩

end PythonUltra.Pygame.Sprite
