import ConcurrentQueue.BlockWalk

/-!
# ConcurrentQueue.Explicit

The **explicit producer**, one call at a time. Its blocks form a ring through
`next` that ends in `tailBlock`; a circular block index maps block bases to
blocks. Enqueuing at a block boundary takes the block ahead of the tail if it
is empty and otherwise inserts a new one; dequeuing finds the block of the head
index through the index entry that `front` points to.

`pr_blockIndexRaw`, `pr_blockIndexEntries` and `blockIndex` always refer to the
newest header, so one field stands for the three of them. `none` as the result
of an operation also stands for an out-of-range access to an index, or a read of
an entry never written.
-/

namespace ConcurrentQueue.Explicit

variable {α : Type}

structure BlockIndexEntry (w : Nat) where
  base : BitVec w
  block : Nat
  deriving DecidableEq

structure BlockIndexHeader (w : Nat) where
  size : BitVec w
  /-- Current slot (not next, like `prBlockIndexFront`). -/
  front : BitVec w
  entries : Nat → Option (BlockIndexEntry w)

namespace BlockIndexHeader

variable {w : Nat}

def get (h : BlockIndexHeader w) (i : BitVec w) : Option (BlockIndexEntry w) :=
  if i < h.size then h.entries i.toNat else none

def set (h : BlockIndexHeader w) (i : BitVec w) (x : BlockIndexEntry w) :
    Option (BlockIndexHeader w) :=
  if i < h.size then some { h with entries := Function.update h.entries i.toNat (some x) }
  else none

end BlockIndexHeader

structure ExplicitProducer (w : Nat) where
  tailIndex : BitVec w
  headIndex : BitVec w
  dequeueOptimisticCount : BitVec w
  dequeueOvercommit : BitVec w
  tailBlock : Option Nat
  blockIndex : Option (BlockIndexHeader w)
  prBlockIndexSlotsUsed : BitVec w
  prBlockIndexSize : BitVec w
  /-- Next slot (not current). -/
  prBlockIndexFront : BitVec w

/-- The block memory and the producer. -/
structure State (w : Nat) (α : Type) where
  mem : Mem α
  prod : ExplicitProducer w

variable (e : Env)

/-! ### The block index -/

/-- The copy loop of `new_block_index`. -/
def copyEntries {w : Nat} (old : BlockIndexHeader w) (mask front : BitVec w) :
    Nat → BitVec w → Nat → (Nat → Option (BlockIndexEntry w)) →
      Option (Nat × (Nat → Option (BlockIndexEntry w)))
  | 0, _, _, _ => none
  | fuel + 1, i, j, new => do
      let x ← old.get i
      let new := Function.update new j (some x)
      let i := (i + 1#w) &&& mask
      if i = front then some (j + 1, new) else copyEntries old mask front fuel i (j + 1) new

/-- All the old entries, oldest first, and their number. -/
def compactEntries (p : ExplicitProducer e.bits) :
    Option (Nat × (Nat → Option (BlockIndexEntry e.bits))) :=
  let prevBlockSizeMask := p.prBlockIndexSize - 1#e.bits
  if p.prBlockIndexSlotsUsed = 0#e.bits then some (0, fun _ => none)
  else do
    let old ← p.blockIndex
    copyEntries old prevBlockSizeMask p.prBlockIndexFront (2 ^ e.bits)
      ((p.prBlockIndexFront - p.prBlockIndexSlotsUsed) &&& prevBlockSizeMask) 0 fun _ => none

def newBlockIndex (numberOfFilledSlotsToExpose : BitVec e.bits) (s : State e.bits α) :
    Option (State e.bits α × Bool) :=
  let p := s.prod
  let size := p.prBlockIndexSize <<< 1
  match s.mem.malloc e with
  | (false, mem) => some (⟨mem, { p with prBlockIndexSize := size >>> 1 }⟩, false)
  | (true, mem) => do
      let (j, new) ← compactEntries e p
      some (⟨mem, { p with
        prBlockIndexSize := size
        prBlockIndexFront := BitVec.ofNat e.bits j
        blockIndex := some
          { size := size
            front := numberOfFilledSlotsToExpose - 1#e.bits
            entries := new } }⟩, true)

/-- Put the tail block on the index with the given base. -/
def pushEntry (base : BitVec e.bits) (s : State e.bits α) : Option (State e.bits α) := do
  let h ← s.prod.blockIndex
  let b ← s.prod.tailBlock
  let h ← h.set s.prod.prBlockIndexFront ⟨base, b⟩
  some { s with prod := { s.prod with
    blockIndex := some h
    prBlockIndexFront :=
      (s.prod.prBlockIndexFront + 1#e.bits) &&& (s.prod.prBlockIndexSize - 1#e.bits) } }

/-- Store `front` in the index header. -/
def exposeFront (front : BitVec e.bits) (s : State e.bits α) : Option (State e.bits α) := do
  let h ← s.prod.blockIndex
  some { s with prod := { s.prod with blockIndex := some { h with front := front } } }

/-! ### Construction -/

def init : ExplicitProducer e.bits where
  tailIndex := 0
  headIndex := 0
  dequeueOptimisticCount := 0
  dequeueOvercommit := 0
  tailBlock := none
  blockIndex := none
  prBlockIndexSlotsUsed := 0
  prBlockIndexSize :=
    let indexSize := BitVec.ofNat e.bits (e.EXPLICIT_INITIAL_INDEX_SIZE >>> 1)
    let poolBasedIndexSize := ceilToPow2 (BitVec.ofNat e.bits e.initialBlockPoolSize) >>> 1
    if indexSize < poolBasedIndexSize then poolBasedIndexSize else indexSize
  prBlockIndexFront := 0

/-- The constructor; it goes on without an index if that cannot be allocated. -/
def create (mem : Mem α) : Option (State e.bits α) :=
  (newBlockIndex e 0#e.bits ⟨mem, init e⟩).map (·.1)

/-! ### Enqueue -/

/-- Link block `b` into the ring after the tail block and make it the tail. -/
def linkBlock (b : Nat) (s : State e.bits α) : State e.bits α :=
  let next := match s.prod.tailBlock with
    | none => some b
    | some tb => (s.mem.blocks tb).next
  let mem := s.mem.modify b fun x => { x with next := next }
  let mem := match s.prod.tailBlock with
    | none => mem
    | some tb => mem.modify tb fun x => { x with next := some b }
  ⟨mem, { s.prod with tailBlock := some b }⟩

def incSlotsUsed (s : State e.bits α) : State e.bits α :=
  { s with prod := { s.prod with
    prBlockIndexSlotsUsed := s.prod.prBlockIndexSlotsUsed + 1#e.bits } }

/-- The index has no room for another block. -/
def indexFull (s : State e.bits α) : Bool :=
  s.prod.blockIndex.isNone || s.prod.prBlockIndexSlotsUsed == s.prod.prBlockIndexSize

/-- `enqueue`: see that the index has room for another block. -/
def ensureRoom (mode : AllocationMode) (s : State e.bits α) : Option (State e.bits α × Bool) :=
  if indexFull e s then
    match mode with
    | .cannotAlloc => some (s, false)
    | .canAlloc => newBlockIndex e s.prod.prBlockIndexSlotsUsed s
  else some (s, true)

/-- `enqueue`: insert a new block; whether that succeeds. -/
def insertBlock (mode : AllocationMode) (s : State e.bits α) : Option (State e.bits α × Bool) :=
  let head := s.prod.headIndex
  let currentTailIndex := s.prod.tailIndex
  if circularLessThan currentTailIndex head then none
  else if full e head currentTailIndex then some (s, false)
  else do
    let (s, ok) ← ensureRoom e mode s
    if !ok then some (s, false)
    else
      match s.mem.requisitionBlock e mode with
      | (none, mem) => some ({ s with mem := mem }, false)
      | (some b, mem) =>
          let mem := mem.modify b (Block.resetEmpty e.toTraits .explicitContext)
          some (incSlotsUsed e (linkBlock e b { s with mem := mem }), true)

/-- `enqueue`: start a new block; whether there is one. -/
def startNewBlock (mode : AllocationMode) (s : State e.bits α) :
    Option (State e.bits α × Bool) :=
  match s.prod.tailBlock with
  | none => insertBlock e mode s
  | some tb => do
      let next ← (s.mem.blocks tb).next
      let reusable ← (s.mem.blocks next).isEmpty e.toTraits .explicitContext
      if reusable then
        some (⟨s.mem.modify next (Block.resetEmpty e.toTraits .explicitContext),
          { s.prod with tailBlock := some next }⟩, true)
      else insertBlock e mode s

def setTailIndex (i : BitVec e.bits) (s : State e.bits α) : State e.bits α :=
  { s with prod := { s.prod with tailIndex := i } }

def enqueue (mode : AllocationMode) (ctor : Ctor) (x : α) (s : State e.bits α) :
    Option (State e.bits α × Pushed) :=
  let currentTailIndex := s.prod.tailIndex
  let newTailIndex := 1#e.bits + currentTailIndex
  if currentTailIndex &&& e.blockMask = 0 then do
    let startBlock := s.prod.tailBlock
    let originalBlockIndexSlotsUsed := s.prod.prBlockIndexSlotsUsed
    let (s, ok) ← startNewBlock e mode s
    if !ok then some (s, .returned false)
    else if ctor.throws 0 then
      some ({ s with prod := { s.prod with
        prBlockIndexSlotsUsed := originalBlockIndexSlotsUsed
        tailBlock := if startBlock.isNone then s.prod.tailBlock else startBlock } }, .threw)
    else if ctor.isNoexcept then do
      let front := s.prod.prBlockIndexFront
      let s ← pushEntry e currentTailIndex s
      let s ← exposeFront e front s
      let mem ← constructAt e s.prod.tailBlock currentTailIndex x s.mem
      some (setTailIndex e newTailIndex { s with mem := mem }, .returned true)
    else do
      let mem ← constructAt e s.prod.tailBlock currentTailIndex x s.mem
      let s := { s with mem := mem }
      let front := s.prod.prBlockIndexFront
      let s ← pushEntry e currentTailIndex s
      let s ← exposeFront e front s
      some (setTailIndex e newTailIndex s, .returned true)
  else if ctor.throws 0 then some (s, .threw)
  else do
    let mem ← constructAt e s.prod.tailBlock currentTailIndex x s.mem
    some (setTailIndex e newTailIndex { s with mem := mem }, .returned true)

/-! ### Bulk enqueue -/

/-- The values `enqueue_bulk` goes back to on failure. -/
structure Saved (w : Nat) where
  startBlock : Option Nat
  originalBlockIndexFront : BitVec w
  originalBlockIndexSlotsUsed : BitVec w

/-- Where the allocation phase of `enqueue_bulk` stands. -/
structure Taken (w : Nat) where
  currentTailIndex : BitVec w
  firstAllocatedBlock : Option Nat

/-- Undo changes (but keep injected blocks). -/
def rollback (saved : Saved e.bits) (firstAllocatedBlock : Option Nat) (s : State e.bits α) :
    State e.bits α :=
  { s with prod := { s.prod with
    prBlockIndexFront := saved.originalBlockIndexFront
    prBlockIndexSlotsUsed := saved.originalBlockIndexSlotsUsed
    tailBlock := if saved.startBlock.isNone then firstAllocatedBlock else saved.startBlock } }

/-- Take as many blocks as possible from ahead, up to the number given, which is
`blockBaseDiff / BLOCK_SIZE`. Returns the number still needed. -/
def reuseAhead : Nat → Taken e.bits → State e.bits α →
    Option (Nat × Taken e.bits × State e.bits α)
  | 0, taken, s => some (0, taken, s)
  | n + 1, taken, s =>
      match s.prod.tailBlock with
      | none => some (n + 1, taken, s)
      | some tb => do
          let next ← (s.mem.blocks tb).next
          if some next = taken.firstAllocatedBlock then some (n + 1, taken, s)
          else do
            let reusable ← (s.mem.blocks next).isEmpty e.toTraits .explicitContext
            if reusable then do
              let currentTailIndex := taken.currentTailIndex + e.blockSize
              let s := { s with prod := { s.prod with tailBlock := some next } }
              let s ← pushEntry e currentTailIndex s
              reuseAhead n ⟨currentTailIndex, taken.firstAllocatedBlock.or (some next)⟩ s
            else some (n + 1, taken, s)

/-- See that there is leeway and room on the index for another block. A new
index moves the front, so the fallback value moves too. -/
def ensureRoomBulk (mode : AllocationMode) (full : Bool) (saved : Saved e.bits)
    (s : State e.bits α) : Option (State e.bits α × Saved e.bits × Bool) :=
  if indexFull e s || full then
    match mode with
    | .cannotAlloc => some (s, saved, false)
    | .canAlloc =>
        if full then some (s, saved, false)
        else do
          let (s, ok) ← newBlockIndex e saved.originalBlockIndexSlotsUsed s
          if ok then
            some (s, { saved with
              originalBlockIndexFront := saved.originalBlockIndexSlotsUsed }, true)
          else some (s, saved, false)
  else some (s, saved, true)

/-- Take the remaining blocks from the block pool. The second component is
`none` when that failed and everything was rolled back. -/
def allocateBlocks (mode : AllocationMode) : Nat → Saved e.bits → Taken e.bits →
    State e.bits α → Option (State e.bits α × Option (Saved e.bits × Taken e.bits))
  | 0, saved, taken, s => some (s, some (saved, taken))
  | n + 1, saved, taken, s =>
      let currentTailIndex := taken.currentTailIndex + e.blockSize
      let head := s.prod.headIndex
      if circularLessThan currentTailIndex head then none
      else do
        let (s, saved, ok) ← ensureRoomBulk e mode (full e head currentTailIndex) saved s
        if !ok then some (rollback e saved taken.firstAllocatedBlock s, none)
        else
          match s.mem.requisitionBlock e mode with
          | (none, mem) =>
              some (rollback e saved taken.firstAllocatedBlock { s with mem := mem }, none)
          | (some b, mem) => do
              let mem := mem.modify b (Block.setAllEmpty e.toTraits .explicitContext)
              let s := incSlotsUsed e (linkBlock e b { s with mem := mem })
              let s ← pushEntry e currentTailIndex s
              allocateBlocks mode n saved
                ⟨currentTailIndex, taken.firstAllocatedBlock.or (some b)⟩ s

/-- Reset the emptiness of the blocks from `b` to the tail block. -/
def resetTaken : Nat → Nat → State e.bits α → Option (State e.bits α)
  | 0, _, _ => none
  | fuel + 1, b, s => do
      let s := { s with mem := s.mem.modify b (Block.resetEmpty e.toTraits .explicitContext) }
      if some b = s.prod.tailBlock then some s
      else do
        let next ← (s.mem.blocks b).next
        resetTaken fuel next s

/-- Publish the newest entry as the front of the index, if `cond` holds. -/
def exposeLast (cond : Bool) (s : State e.bits α) : Option (State e.bits α) :=
  if cond then
    exposeFront e ((s.prod.prBlockIndexFront - 1#e.bits) &&&
      (s.prod.prBlockIndexSize - 1#e.bits)) s
  else some s

/-- The part of `enqueue_bulk` after the allocations. -/
def constructAll (ctor : Ctor) (xs : List α) (saved : Saved e.bits)
    (firstAllocatedBlock : Option Nat) (s : State e.bits α) :
    Option (State e.bits α × Pushed) := do
  let startTailIndex := s.prod.tailIndex
  let newTailIndex := startTailIndex + BitVec.ofNat e.bits xs.length
  let endBlock := s.prod.tailBlock
  let aligned := startTailIndex &&& e.blockMask = 0
  if aligned ∧ firstAllocatedBlock = none ∧ xs.length ≠ 0 then none
  else
    let tailBlock :=
      if aligned ∧ firstAllocatedBlock ≠ none then firstAllocatedBlock else saved.startBlock
    let (i, tailBlock, mem, threw) ←
      fillBlocks e ctor newTailIndex endBlock (2 ^ e.bits) tailBlock startTailIndex 0 xs s.mem
    let s := ⟨mem, { s.prod with tailBlock := tailBlock }⟩
    if threw then do
      let lastBlockEnqueued := s.prod.tailBlock
      let s := rollback e saved firstAllocatedBlock s
      let block := if aligned then firstAllocatedBlock else saved.startBlock
      let mem ← undoBlocks e i lastBlockEnqueued (2 ^ e.bits) startTailIndex block s.mem
      some ({ s with mem := mem }, .threw)
    else do
      let s ← exposeLast e (!ctor.isNoexcept && firstAllocatedBlock.isSome) s
      some (setTailIndex e newTailIndex s, .returned true)

def enqueueBulk (mode : AllocationMode) (ctor : Ctor) (xs : List α) (s : State e.bits α) :
    Option (State e.bits α × Pushed) := do
  let startTailIndex := s.prod.tailIndex
  let count := BitVec.ofNat e.bits xs.length
  let saved : Saved e.bits := ⟨s.prod.tailBlock, s.prod.prBlockIndexFront,
    s.prod.prBlockIndexSlotsUsed⟩
  let currentTailIndex := e.blockBase (startTailIndex - 1#e.bits)
  let blockBaseDiff := e.blockBase (startTailIndex + count - 1#e.bits) - currentTailIndex
  if blockBaseDiff = 0#e.bits then constructAll e ctor xs saved none s
  else do
    let (n, taken, s) ←
      reuseAhead e (blockBaseDiff.toNat / e.BLOCK_SIZE) ⟨currentTailIndex, none⟩ s
    let (s, allocated) ← allocateBlocks e mode n saved taken s
    match allocated with
    | none => some (s, .returned false)
    | some (saved, taken) => do
        let first ← taken.firstAllocatedBlock
        let s ← resetTaken e (2 ^ e.bits) first s
        let s ← exposeLast e ctor.isNoexcept s
        constructAll e ctor xs saved taken.firstAllocatedBlock s

/-! ### Dequeue -/

/-- The slot of the block index that holds the block of `index`. The signed
division keeps the sign of the offset when an index wraps. -/
def indexIndex (h : BlockIndexHeader e.bits) (index : BitVec e.bits) :
    Option (BitVec e.bits) := do
  let headBase := (← h.get h.front).base
  let offset := (e.blockBase index - headBase).sdiv e.blockSize
  some ((h.front + offset) &&& (h.size - 1#e.bits))

/-- The block that a consumer finds for `index`. -/
def lookup (p : ExplicitProducer e.bits) (index : BitVec e.bits) : Option Nat := do
  let h ← p.blockIndex
  let entry ← h.get (← indexIndex e h index)
  some entry.block

/-- `throws` says whether the assignment to the caller's element throws; the
element is destroyed and its slot marked all the same. -/
def dequeue (throws : Bool) (s : State e.bits α) : Option (State e.bits α × Popped α) :=
  let p := s.prod
  let tail := p.tailIndex
  let overcommit := p.dequeueOvercommit
  if circularLessThan (p.dequeueOptimisticCount - overcommit) tail then
    let myDequeueCount := p.dequeueOptimisticCount
    let p := { p with dequeueOptimisticCount := p.dequeueOptimisticCount + 1#e.bits }
    if circularLessThan (myDequeueCount - overcommit) tail then do
      let index := p.headIndex
      let p := { p with headIndex := p.headIndex + 1#e.bits }
      let block ← lookup e p index
      let (x, b) ← (s.mem.blocks block).destroyAt e.toTraits index
      let (b, _) ← b.setEmpty e.toTraits .explicitContext index
      some (⟨s.mem.setBlock block b, p⟩,
        if throws then .threw [] else .returned 1 [x])
    else
      some (⟨s.mem, { p with dequeueOvercommit := p.dequeueOvercommit + 1#e.bits }⟩,
        .returned 0 [])
  else some (s, .returned 0 [])

def markMany (b : Nat) (firstIndexInBlock endIndex : BitVec e.bits) (mem : Mem α) :
    Option (Mem α) := do
  let (b', _) ← (mem.blocks b).setManyEmpty e.toTraits .explicitContext firstIndexInBlock
    (endIndex - firstIndexInBlock).toNat
  some (mem.setBlock b b')

/-- The loops of a bulk dequeue go through the slots of the header. -/
def walk (h : BlockIndexHeader e.bits) : Walk e α (Mem α) where
  mem mem := mem
  setMem mem _ := mem
  block indexIndex _ := (h.get indexIndex).map (·.block)
  markMany _ := markMany e
  nextSlot indexIndex _ := some ((indexIndex + 1#e.bits) &&& (h.size - 1#e.bits))
  mem_setMem _ _ := rfl
  setMem_setMem _ _ _ := rfl
  block_setMem _ _ _ := rfl

/-- `throwsAt` is the number of the element whose assignment throws, if any. The loops compare
their index with a sum that is an `int` of `intBits` bits if `index_t` is narrower. -/
def dequeueBulkOn (intBits fuel : Nat) (max : BitVec e.bits) (throwsAt : Option Nat)
    (s : State e.bits α) : Option (State e.bits α × Popped α) :=
  let p := s.prod
  let tail := p.tailIndex
  let overcommit := p.dequeueOvercommit
  let desiredCount := tail - (p.dequeueOptimisticCount - overcommit)
  if circularLessThan 0#e.bits desiredCount then
    let desiredCount := if desiredCount < max then desiredCount else max
    let myDequeueCount := p.dequeueOptimisticCount
    let p := { p with dequeueOptimisticCount := p.dequeueOptimisticCount + desiredCount }
    let actualCount := tail - (myDequeueCount - overcommit)
    if circularLessThan 0#e.bits actualCount then do
      let actualCount := if desiredCount < actualCount then desiredCount else actualCount
      let p := if actualCount < desiredCount then
          { p with dequeueOvercommit := p.dequeueOvercommit + (desiredCount - actualCount) }
        else p
      let firstIndex := p.headIndex
      let p := { p with headIndex := p.headIndex + actualCount }
      let h ← p.blockIndex
      let i ← indexIndex e h firstIndex
      let (xs, mem, threw) ← (walk e h).drainBlocksUntil
        (atRangeEnd intBits firstIndex actualCount) fuel throwsAt (firstIndex + actualCount) fuel i
        firstIndex 0 s.mem
      some (⟨mem, p⟩, if threw then .threw xs else .returned actualCount.toNat xs)
    else
      some (⟨s.mem, { p with dequeueOvercommit := p.dequeueOvercommit + desiredCount }⟩,
        .returned 0 [])
  else some (s, .returned 0 [])

/-- The call where all sums wrap as an `index_t` does. -/
def dequeueBulk : BitVec e.bits → Option Nat → State e.bits α →
    Option (State e.bits α × Popped α) :=
  dequeueBulkOn e 0 (2 ^ e.bits)

/-! ### Destruction -/

/-- Search the index for the block that is partially dequeued. -/
def findHalfDequeued (h : BlockIndexHeader e.bits) (mask head : BitVec e.bits) :
    Nat → BitVec e.bits → Option Nat
  | 0, _ => none
  | fuel + 1, i => do
      let entry ← h.get i
      if circularLessThan (entry.base + e.blockSize) head then
        findHalfDequeued h mask head fuel ((i + 1#e.bits) &&& mask)
      else if circularLessThan entry.base head then some entry.block
      else none

/-- Destroy the objects of block `b` from offset `i` on, up to `stop` or the end
of the block. -/
def destroyOffsets (b stop : Nat) : Nat → Nat → Mem α → Option (List α × Mem α)
  | 0, _, _ => none
  | fuel + 1, i, mem =>
      if i = e.BLOCK_SIZE ∨ i = stop then some ([], mem)
      else do
        let (x, b') ← (mem.blocks b).destroyAt e.toTraits (BitVec.ofNat e.bits i)
        let (xs, mem) ← destroyOffsets b stop fuel (i + 1) (mem.setBlock b b')
        some (x :: xs, mem)

/-- Destroy the elements of one block; if it is the tail block, stop at the tail
index. -/
def destroyBlock (p : ExplicitProducer e.bits) (halfDequeuedBlock : Option Nat) (block : Nat)
    (mem : Mem α) : Option (List α × Mem α) := do
  let isEmpty ← (mem.blocks block).isEmpty e.toTraits .explicitContext
  if isEmpty then some ([], mem)
  else
    let i := if some block = halfDequeuedBlock then e.offset p.headIndex else 0
    let lastValidIndex :=
      if p.tailIndex &&& e.blockMask = 0 then e.BLOCK_SIZE else e.offset p.tailIndex
    let stop := if some block = p.tailBlock then lastValidIndex else e.BLOCK_SIZE
    destroyOffsets e block stop (e.BLOCK_SIZE + 1) i mem

/-- Destroy the elements of the blocks that follow `b` up to the tail block. -/
def destroyElements (p : ExplicitProducer e.bits) (halfDequeuedBlock : Option Nat) :
    Nat → Nat → Mem α → Option (List α × Mem α)
  | 0, _, _ => none
  | fuel + 1, b, mem => do
      let block ← (mem.blocks b).next
      let (xs, mem) ← destroyBlock e p halfDequeuedBlock block mem
      if some block = p.tailBlock then some (xs, mem)
      else do
        let (ys, mem) ← destroyElements p halfDequeuedBlock fuel block mem
        some (xs ++ ys, mem)

/-- Give back the blocks of the ring, starting with `b`. -/
def releaseBlocks (tailBlock : Option Nat) : Nat → Nat → Mem α → Option (Mem α)
  | 0, _, _ => none
  | fuel + 1, b, mem => do
      let next ← (mem.blocks b).next
      let mem := mem.addBlockToFreeList e b
      if some next = tailBlock then some mem else releaseBlocks tailBlock fuel next mem

/-- The block that is partially dequeued, if any. -/
def halfDequeued (p : ExplicitProducer e.bits) : Option (Option Nat) :=
  if p.headIndex &&& e.blockMask = 0 then some none
  else do
    let h ← p.blockIndex
    let mask := p.prBlockIndexSize - 1#e.bits
    let b ← findHalfDequeued e h mask p.headIndex (2 ^ e.bits)
      ((p.prBlockIndexFront - p.prBlockIndexSlotsUsed) &&& mask)
    some (some b)

/-- The destructor: the elements destroyed, in order, and the memory left. -/
def destroy (s : State e.bits α) : Option (List α × Mem α) :=
  let p := s.prod
  match p.tailBlock with
  | none => some ([], s.mem)
  | some tb => do
      let halfDequeuedBlock ← halfDequeued e p
      let (xs, mem) ← destroyElements e p halfDequeuedBlock (2 ^ e.bits) tb s.mem
      let mem ← releaseBlocks e p.tailBlock (2 ^ e.bits) tb mem
      some (xs, mem)

/-! ### Calls -/

/-- A call where all sums wrap as an `index_t` does. -/
def step : Call e.bits α → State e.bits α → Option (State e.bits α × Outcome α)
  | .enqueue mode ctor x, s => (enqueue e mode ctor x s).map fun (s, r) => (s, .pushed r)
  | .enqueueBulk mode ctor xs, s =>
      (enqueueBulk e mode ctor xs s).map fun (s, r) => (s, .pushed r)
  | .dequeue throws, s => (dequeue e throws s).map fun (s, r) => (s, .popped r)
  | .dequeueBulk max throwsAt, s =>
      (dequeueBulk e max throwsAt s).map fun (s, r) => (s, .popped r)

/-- A call on a machine whose `int` has `intBits` bits. -/
def stepOn (intBits : Nat) : Call e.bits α → State e.bits α → Option (State e.bits α × Outcome α)
  | .dequeueBulk max throwsAt, s =>
      (dequeueBulkOn e intBits (2 ^ e.bits) max throwsAt s).map fun (s, r) => (s, .popped r)
  | c, s => step e c s

end ConcurrentQueue.Explicit
