/-
  PythonUltra.Py.Gc — the heap of Python objects (py/gc.c).

  A heap is a list of areas (gc_init makes the first, gc_add appends one). An area is a
  table of two bits for each block, four blocks to a byte, and a pool of blocks; one byte
  of zeros follows the table. `lastFreeAtbIndex` and the heap's `lastFreeArea` say where the
  search for free blocks starts, `lastUsedBlock` how far a sweep goes.

  Pointers are addresses, 0 is NULL. What the pool's words hold is read in a collection
  only: it is the machine's (`Env`), together with the words gc_collect is given as roots.
  A result of `none` is a loop that has not ended in the turns it was given, or an assertion
  that fails.

  As the port is built: split heap, no finalisers, an allocation threshold. Only the
  sweep knows of heaps that grow and shrink on their own (MICROPY_GC_SPLIT_HEAP_AUTO,
  here `auto`): that is where areas are given back.
-/

import PythonUltra.Lib.Mark
import Mathlib.Logic.Function.Basic
import Mathlib.Algebra.GroupWithZero.Nat

namespace PythonUltra.Py.Gc

/-- What mpconfig.h fixes for a machine. -/
structure Config where
  /-- `sizeof(void *)` is a power of two -/
  logWord : Nat
  /-- `MICROPY_ALLOC_GC_STACK_SIZE` -/
  stackSize : Nat
  /-- `sizeof(mp_state_mem_area_t)` -/
  areaSize : Nat

namespace Config

variable (c : Config)

def wordBytes : Nat := 2 ^ c.logWord

/-- `BYTES_PER_BLOCK`, four words -/
def bytesPerBlock : Nat := 4 * c.wordBytes

/-- A value kept in a `size_t`. -/
def size (n : Nat) : Nat := n % 2 ^ (8 * c.wordBytes)

end Config

/-- `AT_FREE`, `AT_HEAD`, `AT_TAIL`, `AT_MARK` -/
inductive Kind where
  | free | head | tail | mark
deriving DecidableEq, Repr

abbrev Byte : Type := BitVec 8

def kindOf (bits : Byte) : Kind :=
  if bits = 0 then .free else if bits = 1 then .head else if bits = 2 then .tail else .mark

/-- `mp_state_mem_area_t`. The table has one more byte than its length. -/
structure Area where
  allocTableByteLen : Nat
  allocTable : Nat → Byte
  poolStart : Nat
  poolEnd : Nat
  lastFreeAtbIndex : Nat
  lastUsedBlock : Nat

/-- `mp_state_mem_t`, and the thread's `gc_lock_depth` -/
structure Heap where
  areas : List Area
  lastFreeArea : Nat
  autoCollectEnabled : Bool
  allocAmount : Nat
  allocThreshold : Nat
  lockDepth : Nat

/-- The words of memory, and those that gc_collect takes as roots. -/
structure Env where
  mem : Nat → Nat
  roots : List Nat

/-- A block: the index of its area, and its own. -/
abbrev Ref : Type := Nat × Nat

/-! ## Allocation tables -/

/-- `BLOCK_SHIFT` -/
def blockShift (block : Nat) : Nat := 2 * (block &&& 3)

namespace Area

def numBlocks (a : Area) : Nat := a.allocTableByteLen * 4

/-- `ATB_GET_KIND` -/
def getKind (a : Area) (block : Nat) : Kind := kindOf ((a.allocTable (block / 4) >>> blockShift block) &&& 3)

def edit (a : Area) (block : Nat) (f : Byte → Byte) : Area :=
  { a with allocTable := Function.update a.allocTable (block / 4) (f (a.allocTable (block / 4))) }

/-- `ATB_ANY_TO_FREE` -/
def anyToFree (a : Area) (block : Nat) : Area := a.edit block (· &&& ~~~((3 : Byte) <<< blockShift block))

/-- `ATB_FREE_TO_HEAD` -/
def freeToHead (a : Area) (block : Nat) : Area := a.edit block (· ||| ((1 : Byte) <<< blockShift block))

/-- `ATB_FREE_TO_TAIL` -/
def freeToTail (a : Area) (block : Nat) : Area := a.edit block (· ||| ((2 : Byte) <<< blockShift block))

/-- `ATB_HEAD_TO_MARK` -/
def headToMark (a : Area) (block : Nat) : Area := a.edit block (· ||| ((3 : Byte) <<< blockShift block))

/-- `ATB_MARK_TO_HEAD` -/
def markToHead (a : Area) (block : Nat) : Area := a.edit block (· &&& ~~~((2 : Byte) <<< blockShift block))

/-- The tail blocks from `block` on; the byte after the table ends them. -/
def tails (a : Area) : Nat → Nat → Nat
  | 0, _ => 0
  | n + 1, block => if a.getKind block = .tail then a.tails n (block + 1) + 1 else 0

/-- `n_blocks`: the blocks of the chain that starts with this one. -/
def chain (a : Area) (block : Nat) : Nat := a.tails (a.numBlocks - block) (block + 1) + 1

/-- `PTR_FROM_BLOCK` -/
def ptrFromBlock (c : Config) (a : Area) (block : Nat) : Nat := block * c.bytesPerBlock + a.poolStart

/-- `BLOCK_FROM_PTR` -/
def blockFromPtr (c : Config) (a : Area) (ptr : Nat) : Nat := (ptr - a.poolStart) / c.bytesPerBlock

def contains (a : Area) (ptr : Nat) : Bool := ptr ≥ a.poolStart && ptr < a.poolEnd

end Area

/-! ## Areas -/

variable (c : Config)

/-- `end & ~(BYTES_PER_BLOCK - 1)` -/
def alignEnd (stop : Nat) : Nat := stop / c.bytesPerBlock * c.bytesPerBlock

def gcSetupArea (start stop : Nat) : Area :=
  let totalByteLen := stop - start
  let allocTableByteLen := (totalByteLen - 1) / (1 + 8 / 2 * c.bytesPerBlock)
  { allocTableByteLen
    allocTable := fun _ => 0
    poolStart := stop - allocTableByteLen * 4 * c.bytesPerBlock
    poolEnd := stop
    lastFreeAtbIndex := 0
    lastUsedBlock := 0 }

def gcInit (start stop : Nat) : Heap where
  areas := [gcSetupArea c start (alignEnd c stop)]
  lastFreeArea := 0
  autoCollectEnabled := true
  allocAmount := 0
  allocThreshold := c.size (2 ^ (8 * c.wordBytes) - 1)
  lockDepth := 0

def gcAdd (h : Heap) (start stop : Nat) : Heap :=
  { h with areas := h.areas ++ [gcSetupArea c (start + c.areaSize) (alignEnd c stop)] }

/-- The area a pointer belongs to, if it is the address of a block. -/
def gcGetPtrArea (areas : List Area) (ptr : Nat) : Option Nat :=
  if ptr % c.bytesPerBlock ≠ 0 then none else areas.findIdx? (·.contains ptr)

def kindAt (areas : List Area) (r : Ref) : Kind :=
  match areas[r.1]? with
  | some a => a.getKind r.2
  | none => .free

/-- Where a word points to, if that is a block. -/
def target (areas : List Area) (ptr : Nat) : Option Ref := do
  let i ← gcGetPtrArea c areas ptr
  let a ← areas[i]?
  pure (i, a.blockFromPtr c ptr)

/-! ## Marking -/

structure MarkState where
  areas : List Area
  /-- `gc_area_stack` and `gc_block_stack`, the topmost first -/
  stack : List Ref
  stackOverflow : Bool

def headToMark (areas : List Area) (r : Ref) : List Area := areas.modify r.1 (·.headToMark r.2)

/-- A word of a block that is looked at. -/
def visitPtr (s : MarkState) (ptr : Nat) : MarkState :=
  match target c s.areas ptr with
  | none => s
  | some r =>
    if kindAt s.areas r ≠ .head then s
    else if s.stack.length < c.stackSize then { s with areas := headToMark s.areas r, stack := r :: s.stack }
    else { s with areas := headToMark s.areas r, stackOverflow := true }

/-- The words of a chain of blocks. -/
def chainWords (mem : Nat → Nat) (areas : List Area) (r : Ref) : List Nat :=
  match areas[r.1]? with
  | some a => (List.range (a.chain r.2 * c.bytesPerBlock / c.wordBytes)).map fun k => mem (a.ptrFromBlock c r.2 + k * c.wordBytes)
  | none => []

def markChildren (mem : Nat → Nat) (s : MarkState) (r : Ref) : MarkState :=
  (chainWords c mem s.areas r).foldl (visitPtr c) s

/-- The loop of gc_mark_subtree, for no more turns than `n`. -/
def gcMarkSubtree (mem : Nat → Nat) : Nat → MarkState → Ref → Option MarkState
  | 0, _, _ => none
  | n + 1, s, r =>
    let s := markChildren c mem s r
    match s.stack with
    | [] => some s
    | r :: stack => gcMarkSubtree mem n { s with stack } r

def totalBlocks (areas : List Area) : Nat := (areas.map Area.numBlocks).sum

/-- More turns than any of the loops takes. -/
def turns (areas : List Area) : Nat := totalBlocks areas + 2

def collectPtr (mem : Nat → Nat) (s : MarkState) (ptr : Nat) : Option MarkState :=
  match target c s.areas ptr with
  | none => some s
  | some r =>
    if kindAt s.areas r = .head then gcMarkSubtree c mem (turns s.areas) { s with areas := headToMark s.areas r } r else some s

def gcCollectRoot (mem : Nat → Nat) (s : MarkState) (ptrs : List Nat) : Option MarkState := ptrs.foldlM (collectPtr c mem) s

/-- Every block of every area. -/
def allBlocks (areas : List Area) : List Ref :=
  (List.range areas.length).flatMap fun i => (List.range ((areas[i]?.map Area.numBlocks).getD 0)).map fun block => (i, block)

/-- Trace (again) if mark bit set. -/
def retrace (mem : Nat → Nat) (s : MarkState) (r : Ref) : Option MarkState :=
  if kindAt s.areas r = .mark then gcMarkSubtree c mem (turns s.areas) s r else some s

def gcDealWithStackOverflow (mem : Nat → Nat) : Nat → MarkState → Option MarkState
  | 0, _ => none
  | n + 1, s =>
    if s.stackOverflow then do
      let s ← (allBlocks s.areas).foldlM (retrace c mem) { s with stackOverflow := false }
      gcDealWithStackOverflow mem n s
    else some s

/-! ## Sweeping -/

structure SweepState where
  area : Area
  freeTail : Bool
  lastUsedBlock : Nat

def sweepBlock (s : SweepState) (block : Nat) : SweepState :=
  match s.area.getKind block with
  | .head => { s with area := s.area.anyToFree block, freeTail := true }
  | .tail => if s.freeTail then { s with area := s.area.anyToFree block } else { s with lastUsedBlock := block }
  | .mark => { area := s.area.markToHead block, freeTail := false, lastUsedBlock := block }
  | .free => s

def sweepArea (a : Area) (freeTail : Bool) : SweepState := (List.range (a.lastUsedBlock + 1)).foldl sweepBlock ⟨a, freeTail, 0⟩

/-- The areas from one on; `first` is the area that is never given back. -/
def sweepAreas (auto : Bool) : Bool → Bool → List Area → List Area
  | _, _, [] => []
  | first, freeTail, a :: areas =>
    let s := sweepArea a freeTail
    if auto ∧ s.lastUsedBlock = 0 ∧ ¬ first then sweepAreas auto false s.freeTail areas
    else { s.area with lastUsedBlock := s.lastUsedBlock } :: sweepAreas auto false s.freeTail areas

def gcSweepFreeBlocks (auto : Bool) (areas : List Area) : List Area := sweepAreas auto true false areas

/-- gc_collect_end, when the marking of the roots has left `s` -/
def gcCollectEnd (auto : Bool) (mem : Nat → Nat) (h : Heap) (s : MarkState) : Option Heap := do
  let s ← gcDealWithStackOverflow c mem (turns s.areas) s
  let areas := gcSweepFreeBlocks auto s.areas
  pure { h with lastFreeArea := 0, areas := areas.map fun a => { a with lastFreeAtbIndex := 0 } }

/-- A collection: gc_collect_start, gc_collect_root for all the words that are roots, gc_collect_end. -/
def collectWith (auto : Bool) (env : Env) (h : Heap) : Option Heap := do
  let h := { h with allocAmount := 0 }
  let s ← gcCollectRoot c env.mem ⟨h.areas, [], false⟩ env.roots
  gcCollectEnd c auto env.mem h s

/-- The port's gc_collect -/
def gcCollect (env : Env) (h : Heap) : Option Heap := collectWith c false env h

/-! ## gc_alloc -/

/-- The four blocks of a byte, with `n_free` free ones before them: the block found and the new
`n_free`, or `n_free` to go on with. -/
def scanByte (a : Byte) (nBlocks nFree : Nat) : (Nat × Nat) ⊕ Nat :=
  let n0 := if a &&& 0x03 = 0 then nFree + 1 else 0
  if a &&& 0x03 = 0 ∧ n0 ≥ nBlocks then .inl (0, n0)
  else
    let n1 := if a &&& 0x0c = 0 then n0 + 1 else 0
    if a &&& 0x0c = 0 ∧ n1 ≥ nBlocks then .inl (1, n1)
    else
      let n2 := if a &&& 0x30 = 0 then n1 + 1 else 0
      if a &&& 0x30 = 0 ∧ n2 ≥ nBlocks then .inl (2, n2)
      else
        let n3 := if a &&& 0xc0 = 0 then n2 + 1 else 0
        if a &&& 0xc0 = 0 ∧ n3 ≥ nBlocks then .inl (3, n3) else .inr n3

/-- From byte `i` on; `n` bytes are left. -/
def scanTable (a : Area) (nBlocks : Nat) : Nat → Nat → Nat → Option (Nat × Nat)
  | 0, _, _ => none
  | n + 1, i, nFree =>
    match scanByte (a.allocTable i) nBlocks nFree with
    | .inl (j, nFree) => some (i * 4 + j, nFree)
    | .inr nFree => scanTable a nBlocks n (i + 1) nFree

def scanArea (a : Area) (nBlocks : Nat) : Option (Nat × Nat) :=
  scanTable a nBlocks (a.allocTableByteLen - a.lastFreeAtbIndex) a.lastFreeAtbIndex 0

/-- An area without room for one block is passed over from now on. -/
def Area.filled (a : Area) (nBlocks : Nat) : Area :=
  if nBlocks = 1 then { a with lastFreeAtbIndex := (max a.lastFreeAtbIndex a.allocTableByteLen + 1) / 4 } else a

/-- The areas from number `i` on: the area found, the last block and `n_free`, and the areas as they
are then. -/
def scanAreas (nBlocks : Nat) : Nat → List Area → Option (Nat × Nat × Nat) × List Area
  | _, [] => (none, [])
  | i, a :: areas =>
    match scanArea a nBlocks with
    | some (block, nFree) => (some (i, block, nFree), a :: areas)
    | none =>
      let rest := scanAreas nBlocks (i + 1) areas
      (rest.1, a.filled nBlocks :: rest.2)

def search (h : Heap) (nBlocks : Nat) : Option (Nat × Nat × Nat) × Heap :=
  let found := scanAreas nBlocks h.lastFreeArea (h.areas.drop h.lastFreeArea)
  (found.1, { h with areas := h.areas.take h.lastFreeArea ++ found.2 })

/-- The area, from `found:` on. -/
def Area.place (a : Area) (endBlock nFree : Nat) : Area :=
  let startBlock := endBlock + 1 - nFree
  let a := if nFree = 1 then { a with lastFreeAtbIndex := (endBlock + 1) / 4 } else a
  let a := { a with lastUsedBlock := max a.lastUsedBlock endBlock }
  (List.range' (startBlock + 1) (endBlock - startBlock)).foldl Area.freeToTail (a.freeToHead startBlock)

def found (h : Heap) (nBlocks i endBlock nFree : Nat) : Heap × Nat :=
  ({ h with
      lastFreeArea := if nFree = 1 then i else h.lastFreeArea
      areas := h.areas.modify i (·.place endBlock nFree)
      allocAmount := c.size (h.allocAmount + nBlocks) },
    match h.areas[i]? with
    | some a => a.poolStart + (endBlock + 1 - nFree) * c.bytesPerBlock
    | none => 0)

/-- The loop of gc_alloc: a second turn follows the collection. -/
def gcAllocTurn (env : Env) (h : Heap) (nBlocks : Nat) (collected : Bool) : Option (Heap × Nat) :=
  match search h nBlocks with
  | (some (i, endBlock, nFree), h) => some (found c h nBlocks i endBlock nFree)
  | (none, h) =>
    if collected then some (h, 0)
    else do
      let h ← gcCollect c env h
      match search h nBlocks with
      | (some (i, endBlock, nFree), h) => some (found c h nBlocks i endBlock nFree)
      | (none, h) => some (h, 0)

/-- The blocks for so many bytes; a sum that wraps comes to 0. -/
def blocksFor (nBytes : Nat) : Nat := c.size (nBytes + (c.bytesPerBlock - 1)) / c.bytesPerBlock

def gcAlloc (env : Env) (h : Heap) (nBytes : Nat) : Option (Heap × Nat) :=
  let nBlocks := blocksFor c nBytes
  if nBlocks = 0 then some (h, 0)
  else if h.lockDepth > 0 then some (h, 0)
  else if h.autoCollectEnabled ∧ h.allocAmount ≥ h.allocThreshold then do
    let h ← gcCollect c env h
    gcAllocTurn c env h nBlocks true
  else gcAllocTurn c env h nBlocks !h.autoCollectEnabled

/-! ## gc_free, gc_nbytes, gc_realloc -/

/-- The search must not start after `block`. -/
def Area.lowerHint (a : Area) (block : Nat) : Area := if block / 4 < a.lastFreeAtbIndex then { a with lastFreeAtbIndex := block / 4 } else a

/-- Something of area `i` is freed, from `block` on. -/
def Heap.lowerHints (h : Heap) (i block : Nat) : Heap :=
  { h with
    lastFreeArea := if h.lastFreeArea ≠ i then 0 else h.lastFreeArea
    areas := h.areas.modify i (·.lowerHint block) }

def freeBlocks (a : Area) (block n : Nat) : Area := (List.range' block n).foldl Area.anyToFree a

def gcFree (h : Heap) (ptr : Nat) : Option Heap :=
  if h.lockDepth ≠ 0 then some h
  else if ptr = 0 then some h
  else do
    let i ← gcGetPtrArea c h.areas ptr
    let a ← h.areas[i]?
    let block := a.blockFromPtr c ptr
    if a.getKind block = .head then
      let h := h.lowerHints i block
      pure { h with areas := h.areas.modify i fun a => freeBlocks a block (a.chain block) }
    else none

def gcNbytes (h : Heap) (ptr : Nat) : Nat :=
  match target c h.areas ptr with
  | none => 0
  | some (i, block) =>
    match h.areas[i]? with
    | some a => if a.getKind block = .head then a.chain block * c.bytesPerBlock else 0
    | none => 0

/-- The blocks after the head: those of the chain, and the free ones that follow, up to `newBlocks`
in all. `n` blocks of the area are left. -/
def countBlocks (a : Area) (newBlocks : Nat) : Nat → Nat → Nat → Nat → Nat × Nat
  | 0, _, nBlocks, nFree => (nBlocks, nFree)
  | n + 1, bl, nBlocks, nFree =>
    match a.getKind bl with
    | .tail => countBlocks a newBlocks n (bl + 1) (nBlocks + 1) nFree
    | .free => if nBlocks + (nFree + 1) ≥ newBlocks then (nBlocks, nFree + 1) else countBlocks a newBlocks n (bl + 1) nBlocks (nFree + 1)
    | _ => (nBlocks, nFree)

/-- `n` more tail blocks from `bl` on, which must be free. -/
def growTail (a : Area) : Nat → Nat → Option Area
  | 0, _ => some a
  | n + 1, bl => if a.getKind bl = .free then growTail (a.freeToTail bl) n (bl + 1) else none

/-- The part of gc_realloc that leaves the chain where it is; `none` inside is that it has to move. -/
def reallocInPlace (h : Heap) (ptr nBytes : Nat) : Option (Option Heap) := do
  let i ← gcGetPtrArea c h.areas ptr
  let a ← h.areas[i]?
  let block := a.blockFromPtr c ptr
  if a.getKind block ≠ .head then none
  else
    let newBlocks := blocksFor c nBytes
    let (nBlocks, nFree) := countBlocks a newBlocks (a.numBlocks - (block + 1)) (block + 1) 1 0
    if newBlocks = nBlocks then some (some h)
    else if newBlocks < nBlocks then
      let h := { h with areas := h.areas.modify i fun a => freeBlocks a (block + newBlocks) (nBlocks - newBlocks) }
      some (some (h.lowerHints i (block + newBlocks)))
    else if newBlocks ≤ nBlocks + nFree then do
      let a ← growTail a (newBlocks - nBlocks) (block + nBlocks)
      let a := { a with lastUsedBlock := max a.lastUsedBlock (block + newBlocks) }
      some (some { h with areas := h.areas.set i a })
    else some none

/-- `ptr` is held by gc_realloc itself, so a collection of gc_alloc finds it. -/
def gcRealloc (env : Env) (h : Heap) (ptr nBytes : Nat) (allowMove : Bool) : Option (Heap × Nat) :=
  if ptr = 0 then gcAlloc c env h nBytes
  else if nBytes = 0 then do
    let h ← gcFree c h ptr
    pure (h, 0)
  else if h.lockDepth > 0 then some (h, 0)
  else do
    match ← reallocInPlace c h ptr nBytes with
    | some h => some (h, ptr)
    | none =>
      if ¬ allowMove then some (h, 0)
      else do
        let (h, out) ← gcAlloc c { env with roots := ptr :: env.roots } h nBytes
        if out = 0 then some (h, 0)
        else
          let h ← gcFree c h ptr
          some (h, out)

end PythonUltra.Py.Gc
