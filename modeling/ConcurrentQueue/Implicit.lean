import ConcurrentQueue.BlockWalk

/-!
# ConcurrentQueue.Implicit

The **implicit producer**, one call at a time. Each block is requisitioned when the
tail reaches it and given back when the last of its elements has been dequeued, so
the producer holds the blocks from the head to the tail and no others. Its circular
block index maps block bases to blocks; a slot is free again once its value is null.

The entries of an index live on in the larger index that replaces it, and between
calls nobody looks at the older one, so a header here has its entries in place of
pointers to them. `none` as the result of an operation also stands for an access
outside an index, a read of a value never written, and a failed assertion of the
lookup.
-/

namespace ConcurrentQueue.Implicit

variable {α : Type}

/-- No block base: these are multiples of `BLOCK_SIZE`. -/
def INVALID_BLOCK_BASE {w : Nat} : BitVec w := 1#w

structure BlockIndexEntry (w : Nat) where
  key : BitVec w
  /-- Not initialised, null, or a block. -/
  value : Option (Option Nat)
  deriving DecidableEq

structure BlockIndexHeader (w : Nat) where
  capacity : BitVec w
  tail : BitVec w
  index : Nat → Option (BlockIndexEntry w)

namespace BlockIndexHeader

variable {w : Nat}

def get (h : BlockIndexHeader w) (i : BitVec w) : Option (BlockIndexEntry w) :=
  if i < h.capacity then h.index i.toNat else none

def set (h : BlockIndexHeader w) (i : BitVec w) (x : BlockIndexEntry w) : BlockIndexHeader w :=
  { h with index := Function.update h.index i.toNat (some x) }

end BlockIndexHeader

structure ImplicitProducer (w : Nat) where
  tailIndex : BitVec w
  headIndex : BitVec w
  dequeueOptimisticCount : BitVec w
  dequeueOvercommit : BitVec w
  tailBlock : Option Nat
  nextBlockIndexCapacity : BitVec w
  blockIndex : Option (BlockIndexHeader w)

/-- The block memory and the producer. -/
structure State (w : Nat) (α : Type) where
  mem : Mem α
  prod : ImplicitProducer w

variable (e : Env)

/-! ### The block index -/

def setHeader (h : BlockIndexHeader e.bits) (s : State e.bits α) : State e.bits α :=
  { s with prod := { s.prod with blockIndex := some h } }

/-- The copy loop of `new_block_index`: all slots, the one after the tail first. -/
def copyEntries {w : Nat} (prev : BlockIndexHeader w) :
    Nat → BitVec w → Nat → (Nat → Option (BlockIndexEntry w)) →
      Option (Nat × (Nat → Option (BlockIndexEntry w)))
  | 0, _, _, _ => none
  | fuel + 1, prevPos, i, index => do
      let prevPos := (prevPos + 1#w) &&& (prev.capacity - 1#w)
      let x ← prev.get prevPos
      let index := Function.update index i (some x)
      if prevPos = prev.tail then some (i + 1, index)
      else copyEntries prev fuel prevPos (i + 1) index

/-- The entries of the previous index, if there is one. -/
def previousEntries (p : ImplicitProducer e.bits) :
    Option (Nat → Option (BlockIndexEntry e.bits)) :=
  match p.blockIndex with
  | none => some fun _ => none
  | some prev => do
      let (i, index) ← copyEntries prev (2 ^ e.bits) prev.tail 0 fun _ => none
      if BitVec.ofNat e.bits i = prev.capacity then some index else none

def newBlockIndex (s : State e.bits α) : Option (State e.bits α × Bool) :=
  let p := s.prod
  let prevCapacity := match p.blockIndex with
    | none => 0#e.bits
    | some prev => prev.capacity
  let entryCount := match p.blockIndex with
    | none => p.nextBlockIndexCapacity
    | some prev => prev.capacity
  match s.mem.malloc e with
  | (false, mem) => some (⟨mem, p⟩, false)
  | (true, mem) => do
      let index ← previousEntries e p
      some (⟨mem, { p with
        nextBlockIndexCapacity := p.nextBlockIndexCapacity <<< 1
        blockIndex := some
          { capacity := p.nextBlockIndexCapacity
            tail := (prevCapacity - 1#e.bits) &&& (p.nextBlockIndexCapacity - 1#e.bits)
            index := fun i =>
              if prevCapacity.toNat ≤ i ∧ i < prevCapacity.toNat + entryCount.toNat then
                some ⟨INVALID_BLOCK_BASE, none⟩
              else index i } }⟩, true)

/-- The slot may be used for another block. -/
def BlockIndexEntry.vacant {w : Nat} (x : BlockIndexEntry w) : Option Bool :=
  if x.key = INVALID_BLOCK_BASE then some true else x.value.map fun v => v.isNone

/-- Use the slot after the tail for the block that starts at the given index. -/
def pushKey (h : BlockIndexHeader e.bits) (newTail : BitVec e.bits) (x : BlockIndexEntry e.bits)
    (blockStartIndex : BitVec e.bits) (s : State e.bits α) : State e.bits α :=
  setHeader e { h.set newTail { x with key := blockStartIndex } with tail := newTail } s

/-- The slot `idxEntry` of the new entry, if there is room for it. -/
def insertBlockIndexEntry (mode : AllocationMode) (blockStartIndex : BitVec e.bits)
    (s : State e.bits α) : Option (State e.bits α × Option (BitVec e.bits)) :=
  match s.prod.blockIndex with
  | none => some (s, none)
  | some h => do
      let newTail := (h.tail + 1#e.bits) &&& (h.capacity - 1#e.bits)
      let x ← h.get newTail
      let vacant ← x.vacant
      if vacant then some (pushKey e h newTail x blockStartIndex s, some newTail)
      else
        match mode with
        | .cannotAlloc => some (s, none)
        | .canAlloc => do
            let (s, ok) ← newBlockIndex e s
            if !ok then some (s, none)
            else do
              let h ← s.prod.blockIndex
              let newTail := (h.tail + 1#e.bits) &&& (h.capacity - 1#e.bits)
              let x ← h.get newTail
              if x.key = INVALID_BLOCK_BASE then
                some (pushKey e h newTail x blockStartIndex s, some newTail)
              else none

def rewindBlockIndexTail (s : State e.bits α) : Option (State e.bits α) := do
  let h ← s.prod.blockIndex
  some (setHeader e { h with tail := (h.tail - 1#e.bits) &&& (h.capacity - 1#e.bits) } s)

/-- `idxEntry->value.store(value)`. -/
def storeValue (slot : BitVec e.bits) (value : Option Nat) (s : State e.bits α) :
    Option (State e.bits α) := do
  let h ← s.prod.blockIndex
  let x ← h.get slot
  some (setHeader e (h.set slot { x with value := some value }) s)

/-- The signed division keeps the sign of the offset when an index wraps. -/
def getBlockIndexIndexForIndex (index : BitVec e.bits) (h : BlockIndexHeader e.bits) :
    Option (BitVec e.bits) := do
  let index := e.blockBase index
  let tailBase := (← h.get h.tail).key
  if tailBase = INVALID_BLOCK_BASE then none
  else do
    let offset := (index - tailBase).sdiv e.blockSize
    let idx := (h.tail + offset) &&& (h.capacity - 1#e.bits)
    let x ← h.get idx
    let value ← x.value
    if x.key = index ∧ value ≠ none then some idx else none

/-- The slot of an index. -/
def getBlockIndexEntryForIndex (index : BitVec e.bits) (s : State e.bits α) :
    Option (BitVec e.bits) := do
  let h ← s.prod.blockIndex
  getBlockIndexIndexForIndex e index h

/-- `entry->value.load()`, where a null value is not dereferenced. -/
def loadValue (slot : BitVec e.bits) (s : State e.bits α) : Option Nat := do
  let h ← s.prod.blockIndex
  let x ← h.get slot
  let value ← x.value
  value

/-! ### Construction -/

def init : ImplicitProducer e.bits where
  tailIndex := 0
  headIndex := 0
  dequeueOptimisticCount := 0
  dequeueOvercommit := 0
  tailBlock := none
  nextBlockIndexCapacity := BitVec.ofNat e.bits e.IMPLICIT_INITIAL_INDEX_SIZE
  blockIndex := none

/-- The constructor; it goes on without an index if that cannot be allocated. -/
def create (mem : Mem α) : Option (State e.bits α) := (newBlockIndex e ⟨mem, init e⟩).map (·.1)

/-! ### Enqueue -/

def setTailIndex (i : BitVec e.bits) (s : State e.bits α) : State e.bits α :=
  { s with prod := { s.prod with tailIndex := i } }

def setTailBlock (b : Option Nat) (s : State e.bits α) : State e.bits α :=
  { s with prod := { s.prod with tailBlock := b } }

def setMem (mem : Mem α) (s : State e.bits α) : State e.bits α := { s with mem := mem }

/-- Take the new entry off the index again. -/
def cancelEntry (slot : BitVec e.bits) (s : State e.bits α) : Option (State e.bits α) := do
  let s ← rewindBlockIndexTail e s
  storeValue e slot none s

/-- A slot on the index and a block, or neither. -/
def acquireBlock (mode : AllocationMode) (base : BitVec e.bits) (s : State e.bits α) :
    Option (State e.bits α × Option (BitVec e.bits × Nat)) := do
  let (s, slot) ← insertBlockIndexEntry e mode base s
  match slot with
  | none => some (s, none)
  | some slot =>
      match s.mem.requisitionBlock e mode with
      | (none, mem) => do
          let s ← cancelEntry e slot (setMem e mem s)
          some (s, none)
      | (some b, mem) =>
          let mem := mem.modify b (Block.resetEmpty e.toTraits .implicitContext)
          some (setMem e mem s, some (slot, b))

def enqueue (mode : AllocationMode) (ctor : Ctor) (x : α) (s : State e.bits α) :
    Option (State e.bits α × Pushed) :=
  let currentTailIndex := s.prod.tailIndex
  let newTailIndex := 1#e.bits + currentTailIndex
  if currentTailIndex &&& e.blockMask = 0 then
    let head := s.prod.headIndex
    if circularLessThan currentTailIndex head then none
    else if full e head currentTailIndex then some (s, .returned false)
    else do
      let (s, acquired) ← acquireBlock e mode currentTailIndex s
      match acquired with
      | none => some (s, .returned false)
      | some (slot, b) =>
          if ctor.throws 0 then do
            let s ← cancelEntry e slot s
            some (setMem e (s.mem.addBlockToFreeList e b) s, .threw)
          else if ctor.isNoexcept then do
            let s ← storeValue e slot (some b) s
            let mem ← constructAt e (some b) currentTailIndex x s.mem
            some (setTailIndex e newTailIndex (setMem e mem (setTailBlock e (some b) s)),
              .returned true)
          else do
            let mem ← constructAt e (some b) currentTailIndex x s.mem
            let s ← storeValue e slot (some b) (setMem e mem s)
            some (setTailIndex e newTailIndex (setTailBlock e (some b) s), .returned true)
  else if ctor.throws 0 then some (s, .threw)
  else do
    let mem ← constructAt e s.prod.tailBlock currentTailIndex x s.mem
    some (setTailIndex e newTailIndex (setMem e mem s), .returned true)

/-! ### Bulk enqueue -/

/-- Take the entries of a chain of blocks off the index, the first of them being
the one after `currentTailIndex`. -/
def undoEntries : Nat → Option Nat → BitVec e.bits → State e.bits α → Option (State e.bits α)
  | 0, _, _, _ => none
  | _ + 1, none, _, s => some s
  | fuel + 1, some b, currentTailIndex, s => do
      let currentTailIndex := currentTailIndex + e.blockSize
      let slot ← getBlockIndexEntryForIndex e currentTailIndex s
      let s ← storeValue e slot none s
      let s ← rewindBlockIndexTail e s
      undoEntries fuel (s.mem.blocks b).next currentTailIndex s

/-- `add_blocks_to_free_list`. -/
def addBlocksToFreeList : Nat → Option Nat → Mem α → Option (Mem α)
  | 0, _, _ => none
  | _ + 1, none, mem => some mem
  | fuel + 1, some b, mem =>
      addBlocksToFreeList fuel (mem.blocks b).next (mem.addBlockToFreeList e b)

/-- Give back what the call has allocated. -/
def rollback (startBlock firstAllocatedBlock : Option Nat) (s : State e.bits α) :
    Option (State e.bits α) := do
  let s ← undoEntries e (2 ^ e.bits) firstAllocatedBlock
    (e.blockBase (s.prod.tailIndex - 1#e.bits)) s
  let mem ← addBlocksToFreeList e (2 ^ e.bits) firstAllocatedBlock s.mem
  some (setTailBlock e startBlock (setMem e mem s))

/-- Where the allocation phase of `enqueue_bulk` stands. -/
structure Taken (w : Nat) where
  currentTailIndex : BitVec w
  firstAllocatedBlock : Option Nat
  endBlock : Option Nat

/-- Put block `b` at the end of the chain of the call. -/
def appendBlock (b : Nat) (linked : Bool) (s : State e.bits α) : Option (State e.bits α) := do
  let mem := s.mem.modify b fun x => { x with next := none }
  if linked then do
    let tb ← s.prod.tailBlock
    let mem := mem.modify tb fun x => { x with next := some b }
    some (setTailBlock e (some b) (setMem e mem s))
  else some (setTailBlock e (some b) (setMem e mem s))

/-- Allocate the given number of blocks. The second component is `none` when that
failed and everything was rolled back. -/
def allocateBlocks (mode : AllocationMode) (startBlock : Option Nat) :
    Nat → Taken e.bits → State e.bits α → Option (State e.bits α × Option (Taken e.bits))
  | 0, taken, s => some (s, some taken)
  | n + 1, taken, s =>
      let currentTailIndex := taken.currentTailIndex + e.blockSize
      let head := s.prod.headIndex
      if circularLessThan currentTailIndex head then none
      else if full e head currentTailIndex then do
        let s ← rollback e startBlock taken.firstAllocatedBlock s
        some (s, none)
      else do
        let (s, acquired) ← acquireBlock e mode currentTailIndex s
        match acquired with
        | none => do
            let s ← rollback e startBlock taken.firstAllocatedBlock s
            some (s, none)
        | some (slot, b) => do
            let s ← storeValue e slot (some b) s
            let s ← appendBlock e b
              (s.prod.tailIndex &&& e.blockMask ≠ 0 ∨ taken.firstAllocatedBlock ≠ none) s
            allocateBlocks mode startBlock n
              ⟨currentTailIndex, taken.firstAllocatedBlock.or (some b), some b⟩ s

def enqueueBulk (mode : AllocationMode) (ctor : Ctor) (xs : List α) (s : State e.bits α) :
    Option (State e.bits α × Pushed) := do
  let startTailIndex := s.prod.tailIndex
  let count := BitVec.ofNat e.bits xs.length
  let startBlock := s.prod.tailBlock
  let currentTailIndex := e.blockBase (startTailIndex - 1#e.bits)
  let blockBaseDiff := e.blockBase (startTailIndex + count - 1#e.bits) - currentTailIndex
  let (s, allocated) ← allocateBlocks e mode startBlock (blockBaseDiff.toNat / e.BLOCK_SIZE)
    ⟨currentTailIndex, none, startBlock⟩ s
  match allocated with
  | none => some (s, .returned false)
  | some taken =>
      let newTailIndex := startTailIndex + count
      let firstAllocatedBlock := taken.firstAllocatedBlock
      let aligned := startTailIndex &&& e.blockMask = 0
      if aligned ∧ firstAllocatedBlock = none ∧ count ≠ 0 then none
      else do
        let tailBlock :=
          if aligned ∧ firstAllocatedBlock ≠ none then firstAllocatedBlock else startBlock
        let (i, tailBlock, mem, threw) ← fillBlocks e ctor newTailIndex taken.endBlock
          (2 ^ e.bits) tailBlock startTailIndex 0 xs s.mem
        if threw then do
          let block := if aligned then firstAllocatedBlock else startBlock
          let mem ← undoBlocks e i tailBlock (2 ^ e.bits) startTailIndex block mem
          let s ← rollback e startBlock firstAllocatedBlock (setMem e mem s)
          some (s, .threw)
        else
          some (setTailIndex e newTailIndex (setTailBlock e tailBlock (setMem e mem s)),
            .returned true)

/-! ### Dequeue -/

/-- Give a block back whose last element has been dequeued, and free its slot. -/
def releaseIf (emptied : Bool) (slot : BitVec e.bits) (b : Nat) (s : State e.bits α) :
    Option (State e.bits α) :=
  if emptied then do
    let s ← storeValue e slot none s
    some (setMem e (s.mem.addBlockToFreeList e b) s)
  else some s

/-- `throws` says whether the assignment to the caller's element throws; the
element is destroyed and its slot marked all the same. -/
def dequeue (throws : Bool) (s : State e.bits α) : Option (State e.bits α × Popped α) :=
  let p := s.prod
  let tail := p.tailIndex
  let overcommit := p.dequeueOvercommit
  if circularLessThan (p.dequeueOptimisticCount - overcommit) tail then
    let myDequeueCount := p.dequeueOptimisticCount
    let p := { p with dequeueOptimisticCount := p.dequeueOptimisticCount + 1#e.bits }
    if circularLessThan (myDequeueCount - overcommit) tail then do
      let index := p.headIndex
      let p := { p with headIndex := p.headIndex + 1#e.bits }
      let s : State e.bits α := ⟨s.mem, p⟩
      let slot ← getBlockIndexEntryForIndex e index s
      let block ← loadValue e slot s
      let (x, b) ← (s.mem.blocks block).destroyAt e.toTraits index
      let (b, emptied) ← b.setEmpty e.toTraits .implicitContext index
      let s ← releaseIf e emptied slot block (setMem e (s.mem.setBlock block b) s)
      some (s, if throws then .threw [] else .returned 1 [x])
    else
      some (⟨s.mem, { p with dequeueOvercommit := p.dequeueOvercommit + 1#e.bits }⟩,
        .returned 0 [])
  else some (s, .returned 0 [])

/-- Mark the slots of a block that have been dequeued, and give it back if those
were the last. -/
def markMany (slot : BitVec e.bits) (b : Nat) (blockStartIndex endIndex : BitVec e.bits)
    (s : State e.bits α) : Option (State e.bits α) := do
  let (b', emptied) ← (s.mem.blocks b).setManyEmpty e.toTraits .implicitContext blockStartIndex
    (endIndex - blockStartIndex).toNat
  releaseIf e emptied slot b (setMem e (s.mem.setBlock b b') s)

/-- The next slot of the index. -/
def nextSlot (slot : BitVec e.bits) (s : State e.bits α) : Option (BitVec e.bits) := do
  let h ← s.prod.blockIndex
  some ((slot + 1#e.bits) &&& (h.capacity - 1#e.bits))

/-- The loops of a bulk dequeue go through the slots of the producer's index. -/
def walk : Walk e α (State e.bits α) where
  mem s := s.mem
  setMem := setMem e
  block := loadValue e
  markMany := markMany e
  nextSlot := nextSlot e
  mem_setMem _ _ := rfl
  setMem_setMem _ _ _ := rfl
  block_setMem _ _ _ := rfl

/-- `throwsAt` is the number of the element whose assignment throws, if any. The loops compare
their index with a sum that is an `int` of `intBits` bits if `index_t` is narrower. -/
def dequeueBulkOn (intBits fuel : Nat) (max : BitVec e.bits) (throwsAt : Option Nat)
    (s : State e.bits α) : Option (State e.bits α × Popped α) :=
  let p := s.prod
  let tail := p.tailIndex
  let overcommit := p.dequeueOvercommit
  let desiredCount := tail - (p.dequeueOptimisticCount - overcommit)
  if circularLessThan 0#e.bits desiredCount then
    let desiredCount := if desiredCount < max then desiredCount else max
    let myDequeueCount := p.dequeueOptimisticCount
    let p := { p with dequeueOptimisticCount := p.dequeueOptimisticCount + desiredCount }
    let actualCount := tail - (myDequeueCount - overcommit)
    if circularLessThan 0#e.bits actualCount then do
      let actualCount := if desiredCount < actualCount then desiredCount else actualCount
      let p := if actualCount < desiredCount then
          { p with dequeueOvercommit := p.dequeueOvercommit + (desiredCount - actualCount) }
        else p
      let firstIndex := p.headIndex
      let p := { p with headIndex := p.headIndex + actualCount }
      let s : State e.bits α := ⟨s.mem, p⟩
      let slot ← getBlockIndexEntryForIndex e firstIndex s
      let (xs, s, threw) ← (walk e).drainBlocksUntil (atRangeEnd intBits firstIndex actualCount)
        fuel throwsAt (firstIndex + actualCount) fuel slot firstIndex 0 s
      some (s, if threw then .threw xs else .returned actualCount.toNat xs)
    else
      some (⟨s.mem, { p with dequeueOvercommit := p.dequeueOvercommit + desiredCount }⟩,
        .returned 0 [])
  else some (s, .returned 0 [])

/-- The call where all sums wrap as an `index_t` does. -/
def dequeueBulk : BitVec e.bits → Option Nat → State e.bits α →
    Option (State e.bits α × Popped α) :=
  dequeueBulkOn e 0 (2 ^ e.bits)

/-! ### Destruction -/

/-- The block of `index`, when the block of the index before is `block`. A block that
the loop leaves is given back. -/
def enterBlock (block : Option Nat) (index : BitVec e.bits) (s : State e.bits α) :
    Option (Nat × State e.bits α) :=
  match block with
  | none => do
      let slot ← getBlockIndexEntryForIndex e index s
      let b ← loadValue e slot s
      some (b, s)
  | some b =>
      if index &&& e.blockMask = 0 then do
        let s := setMem e (s.mem.addBlockToFreeList e b) s
        let slot ← getBlockIndexEntryForIndex e index s
        let b ← loadValue e slot s
        some (b, s)
      else some (b, s)

/-- Destroy the elements from `index` up to the index `tail`. -/
def destroyElements (tail : BitVec e.bits) :
    Nat → Option Nat → BitVec e.bits → State e.bits α → Option (List α × State e.bits α)
  | 0, _, _, _ => none
  | fuel + 1, block, index, s =>
      if index = tail then some ([], s)
      else do
        let (b, s) ← enterBlock e block index s
        let (x, b') ← (s.mem.blocks b).destroyAt e.toTraits index
        let (xs, s) ← destroyElements tail fuel (some b) (index + 1#e.bits)
          (setMem e (s.mem.setBlock b b') s)
        some (x :: xs, s)

/-- The destructor: the elements destroyed, in order, and the memory left. -/
def destroy (s : State e.bits α) : Option (List α × Mem α) :=
  let tail := s.prod.tailIndex
  let index := s.prod.headIndex
  if index = tail ∨ circularLessThan index tail then do
    let (xs, s) ← destroyElements e tail (2 ^ e.bits + 1) none index s
    match s.prod.tailBlock with
    | none => some (xs, s.mem)
    | some tb =>
        if index ≠ tail ∨ tail &&& e.blockMask ≠ 0 then
          some (xs, s.mem.addBlockToFreeList e tb)
        else some (xs, s.mem)
  else none

/-! ### Calls -/

/-- A call where all sums wrap as an `index_t` does. -/
def step : Call e.bits α → State e.bits α → Option (State e.bits α × Outcome α)
  | .enqueue mode ctor x, s => (enqueue e mode ctor x s).map fun (s, r) => (s, .pushed r)
  | .enqueueBulk mode ctor xs, s =>
      (enqueueBulk e mode ctor xs s).map fun (s, r) => (s, .pushed r)
  | .dequeue throws, s => (dequeue e throws s).map fun (s, r) => (s, .popped r)
  | .dequeueBulk max throwsAt, s =>
      (dequeueBulk e max throwsAt s).map fun (s, r) => (s, .popped r)

/-- A call on a machine whose `int` has `intBits` bits. -/
def stepOn (intBits : Nat) : Call e.bits α → State e.bits α → Option (State e.bits α × Outcome α)
  | .dequeueBulk max throwsAt, s =>
      (dequeueBulkOn e intBits (2 ^ e.bits) max throwsAt s).map fun (s, r) => (s, .popped r)
  | c, s => step e c s

end ConcurrentQueue.Implicit
