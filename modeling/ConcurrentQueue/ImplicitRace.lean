import ConcurrentQueue.Claim
import ConcurrentQueue.Pool

/-!
# ConcurrentQueue.ImplicitRace

**Implicit producers at work at the same time.** Every thread has a producer of its
own to enqueue to and may dequeue from any of them; the producers share the initial
pool and the free list. Each access to something that another thread may change is
one step, and so is each construction and each move of an element. Indices are
unbounded and the free list is an atomic set of blocks.

What only one thread ever touches is not split further: an index that is being built
is published by one store, and a call that enqueues keeps the blocks it has acquired
in a list, where the code links them through `next`. Elements do not throw. A single
`enqueue` makes the same accesses as a bulk enqueue of one element; where the constructor
is not `noexcept` it constructs the element before it stores a new block in the index,
which nobody can tell, as the block is not on the index until then. A `dequeue` makes the
accesses of a bulk dequeue that claimed one element.

A failed assertion, a null or uninitialised pointer followed, a construction over an
object and a move from raw memory lead to `fault`, where the thread stops.
-/

namespace ConcurrentQueue.ImplicitRace

open Function Interleaving

variable {ι α : Type}

/-! ### The producers and their memory -/

structure BlockIndexEntry where
  /-- `none` is `INVALID_BLOCK_BASE`. -/
  key : Option Nat
  /-- Not initialised, null, or a block. -/
  value : Option (Option Nat)
  deriving DecidableEq

structure BlockIndexHeader where
  capacity : Nat
  tail : Nat
  /-- The entries it points to. -/
  index : Nat → Nat

/-- The block index with all headers and entries that were ever allocated for it. -/
structure Index where
  nextBlockIndexCapacity : Nat
  /-- The header in use. -/
  blockIndex : Option Nat
  headers : Nat → BlockIndexHeader
  headerCount : Nat
  entries : Nat → BlockIndexEntry
  entryCount : Nat

structure Producer (α : Type) where
  counters : Claim.State
  tailBlock : Option Nat
  index : Index
  /-- History: block and value of every element constructed, by index. -/
  constructed : List (Nat × α)
  /-- History: index and value of every element moved out, the last one first. -/
  delivered : List (Nat × α)

/-- The blocks. `acquired` and `released` are history: how often a producer got a block and
how often it was given back. -/
structure Memory (α : Type) where
  elements : Nat → Nat → Option α
  elementsCompletelyDequeued : Nat → Nat
  initialBlockPoolIndex : Nat
  freeList : List Nat
  created : Nat
  destroyed : List Nat
  acquired : Nat → Nat
  released : Nat → Nat

structure State (ι α : Type) where
  producers : ι → Producer α
  mem : Memory α

variable (e : Env)

namespace Memory

def setElement (m : Memory α) (b i : Nat) (x : Option α) : Memory α :=
  { m with elements := update m.elements b (update (m.elements b) i x) }

def setCompletelyDequeued (m : Memory α) (b n : Nat) : Memory α :=
  { m with elementsCompletelyDequeued := update m.elementsCompletelyDequeued b n }

def countAcquired (m : Memory α) (b : Nat) : Memory α :=
  { m with acquired := update m.acquired b (m.acquired b + 1) }

def addBlockToFreeList (b : Nat) (m : Memory α) : Memory α :=
  let m := { m with released := update m.released b (m.released b + 1) }
  if !e.RECYCLE_ALLOCATED_BLOCKS && decide (e.initialBlockPoolSize ≤ b) then
    { m with destroyed := b :: m.destroyed }
  else { m with freeList := b :: m.freeList }

end Memory

namespace Index

def setKey (x : Index) (n : Nat) (key : Option Nat) : Index :=
  { x with entries := update x.entries n { x.entries n with key := key } }

def setValue (x : Index) (n : Nat) (value : Option Nat) : Index :=
  { x with entries := update x.entries n { x.entries n with value := some value } }

def setTail (x : Index) (h tail : Nat) : Index :=
  { x with headers := update x.headers h { x.headers h with tail := tail } }

/-- The slot after the tail. -/
def nextSlot (x : Index) (h : Nat) : Nat :=
  ((x.headers h).tail + 1) % (x.headers h).capacity

/-- The entry after the tail. -/
def nextEntry (x : Index) (h : Nat) : Nat := (x.headers h).index (x.nextSlot h)

def rewindBlockIndexTail (x : Index) (h : Nat) : Index :=
  x.setTail h (((x.headers h).tail + (x.headers h).capacity - 1) % (x.headers h).capacity)

/-- The first index. -/
def firstBlockIndex (x : Index) : Index :=
  { nextBlockIndexCapacity := 2 * x.nextBlockIndexCapacity
    blockIndex := some x.headerCount
    headers := update x.headers x.headerCount
      { capacity := x.nextBlockIndexCapacity
        tail := x.nextBlockIndexCapacity - 1
        index := fun i => x.entryCount + i }
    headerCount := x.headerCount + 1
    entries := fun n =>
      if x.entryCount ≤ n ∧ n < x.entryCount + x.nextBlockIndexCapacity then ⟨none, none⟩
      else x.entries n
    entryCount := x.entryCount + x.nextBlockIndexCapacity }

/-- An index in place of the one with header `h`: all entries of that one, the one after the
tail first, and as many new ones. -/
def largerBlockIndex (x : Index) (h : Nat) : Index :=
  let prev := x.headers h
  { nextBlockIndexCapacity := 2 * x.nextBlockIndexCapacity
    blockIndex := some x.headerCount
    headers := update x.headers x.headerCount
      { capacity := x.nextBlockIndexCapacity
        tail := prev.capacity - 1
        index := fun i =>
          if i < prev.capacity then prev.index ((prev.tail + 1 + i) % prev.capacity)
          else x.entryCount + (i - prev.capacity) }
    headerCount := x.headerCount + 1
    entries := fun n =>
      if x.entryCount ≤ n ∧ n < x.entryCount + prev.capacity then ⟨none, none⟩
      else x.entries n
    entryCount := x.entryCount + prev.capacity }

/-- `new_block_index`, when the allocation succeeds. -/
def newBlockIndex (x : Index) : Index :=
  match x.blockIndex with
  | none => x.firstBlockIndex
  | some h => x.largerBlockIndex h

/-- The index of a producer whose constructor has not made one yet. -/
def blank : Index where
  nextBlockIndexCapacity := e.IMPLICIT_INITIAL_INDEX_SIZE
  blockIndex := none
  headers := fun _ => ⟨0, 0, fun _ => 0⟩
  headerCount := 0
  entries := fun _ => ⟨none, none⟩
  entryCount := 0

end Index

/-- The slot may be used for another block; `none` if that is not known. -/
def BlockIndexEntry.vacant (x : BlockIndexEntry) : Option Bool :=
  match x.key with
  | none => some true
  | some _ => x.value.map fun v => v.isNone

/-- The position of an index, computed from the key at `tail`. -/
def BlockIndexHeader.locate (x : BlockIndexHeader) (tail tailBase index : Nat) : Nat :=
  (((tail : Int) + (((index / e.BLOCK_SIZE * e.BLOCK_SIZE : Nat) : Int) - tailBase).tdiv
    e.BLOCK_SIZE) % x.capacity).toNat

/-- The assertion of the lookup: the entry has the key of the index and a block. -/
def BlockIndexEntry.holds (x : BlockIndexEntry) (index : Nat) : Bool :=
  match x with
  | ⟨some key, some (some _)⟩ => key == index / e.BLOCK_SIZE * e.BLOCK_SIZE
  | _ => false

/-- The lookup of an index by the producer itself, all of it in one step: the header, its
tail and the keys are written by nobody else. -/
def Index.lookup (x : Index) (h index : Nat) : Option Nat :=
  let header := x.headers h
  match (x.entries (header.index header.tail)).key with
  | none => none
  | some tailBase =>
      let n := header.index (header.locate e header.tail tailBase index)
      if (x.entries n).holds e index then some n else none

/-! ### Enqueue -/

/-- How many blocks the indices below `n` take. -/
def blocksBelow (n : Nat) : Nat := (n + e.BLOCK_SIZE - 1) / e.BLOCK_SIZE

/-- The size limit leaves no room for a block at `currentTailIndex`. -/
def full (head currentTailIndex : Nat) : Bool :=
  !decide (head < currentTailIndex + e.BLOCK_SIZE) ||
    (e.MAX_SUBQUEUE_SIZE != e.sizeMax &&
      (e.MAX_SUBQUEUE_SIZE == 0#e.bits ||
        decide (e.MAX_SUBQUEUE_SIZE.toNat - e.BLOCK_SIZE < currentTailIndex - head)))

/-- A call of `enqueue` or `enqueue_bulk`: its elements, `startTailIndex` and the blocks it
has acquired, the first one first. -/
structure Task (α : Type) where
  mode : AllocationMode
  items : List α
  start : Nat
  chain : List Nat

namespace Task

/-- `blockBaseDiff`, in blocks. -/
def needed (t : Task α) : Nat :=
  blocksBelow e (t.start + t.items.length) - blocksBelow e t.start

/-- The base of the block with the given number in the chain. -/
def base (t : Task α) (k : Nat) : Nat := (blocksBelow e t.start + k) * e.BLOCK_SIZE

/-- The block for an index of the call. -/
def blockOf (t : Task α) (tailBlock : Option Nat) (index : Nat) : Option Nat :=
  if index / e.BLOCK_SIZE < blocksBelow e t.start then tailBlock
  else t.chain[index / e.BLOCK_SIZE - blocksBelow e t.start]?

end Task

/-- Where a call that enqueues stands, with its local variables. -/
inductive EnqPC (α : Type)
  | loadHead (t : Task α)
  /-- `insert_block_index_entry`: look at the entry after the tail. -/
  | probe (t : Task α)
  | newIndex (t : Task α)
  | storeKey (t : Task α) (idxEntry : Nat)
  | storeTail (t : Task α) (idxEntry : Nat)
  /-- `requisition_block`. -/
  | loadPool (t : Task α) (idxEntry : Nat)
  | addPool (t : Task α) (idxEntry : Nat)
  | getFree (t : Task α) (idxEntry : Nat)
  | create (t : Task α) (idxEntry : Nat)
  | resetEmpty (t : Task α) (idxEntry newBlock : Nat)
  | storeValue (t : Task α) (idxEntry newBlock : Nat)
  /-- No block: take the entry back. -/
  | rewind (t : Task α) (idxEntry : Nat)
  | clearEntry (t : Task α) (idxEntry : Nat)
  /-- Take back the entry of the block with number `k` in the chain. -/
  | undoValue (t : Task α) (k : Nat)
  | undoTail (t : Task α) (k : Nat)
  /-- `add_blocks_to_free_list`. -/
  | giveBack (block : Nat) (rest : List Nat)
  | construct (t : Task α) (k : Nat)
  | publish (t : Task α)
  | finished
  | fault

/-- What a step gets from outside: an answer of the allocator, or a block from the free list. -/
inductive Input
  | run
  | malloc (ok : Bool)
  | take (block : Option Nat)
  deriving DecidableEq, Repr

/-- The loop of `add_blocks_to_free_list`. -/
def giveBackAll : List Nat → EnqPC α
  | [] => .finished
  | b :: rest => .giveBack b rest

/-- Roll back from the block with number `k` in the chain on. -/
def unwind (t : Task α) (k : Nat) : EnqPC α :=
  if k < t.chain.length then .undoValue t k else giveBackAll t.chain

/-- The construction loop. -/
def fill (t : Task α) (k : Nat) : EnqPC α :=
  if k < t.items.length then .construct t k else .publish t

/-- Acquire the next block, or go on to the elements. -/
def nextBlock (t : Task α) : EnqPC α :=
  if t.chain.length < t.needed e then .loadHead t else fill t 0

/-- One step of a call that enqueues. -/
def enqStep : Input → EnqPC α → Producer α → Memory α →
    Option (Producer α × Memory α × EnqPC α)
  | .run, .loadHead t, p, m =>
      let head := p.counters.headIndex
      let currentTailIndex := t.base e t.chain.length
      if currentTailIndex < head then some (p, m, .fault)
      else if full e head currentTailIndex then some (p, m, unwind t 0)
      else some (p, m, .probe t)
  | .run, .probe t, p, m =>
      match p.index.blockIndex with
      | none => some (p, m, unwind t 0)
      | some h =>
          match (p.index.entries (p.index.nextEntry h)).vacant with
          | none => some (p, m, .fault)
          | some true => some (p, m, .storeKey t (p.index.nextEntry h))
          | some false =>
              match t.mode with
              | .cannotAlloc => some (p, m, unwind t 0)
              | .canAlloc => some (p, m, .newIndex t)
  | .malloc ok, .newIndex t, p, m =>
      if ok then
        let x := p.index.newBlockIndex
        let n := x.nextEntry p.index.headerCount
        if (x.entries n).key = none then some ({ p with index := x }, m, .storeKey t n)
        else some ({ p with index := x }, m, .fault)
      else some (p, m, unwind t 0)
  | .run, .storeKey t n, p, m =>
      some ({ p with index := p.index.setKey n (some (t.base e t.chain.length)) }, m,
        .storeTail t n)
  | .run, .storeTail t n, p, m =>
      match p.index.blockIndex with
      | none => some (p, m, .fault)
      | some h =>
          some ({ p with index := p.index.setTail h (p.index.nextSlot h) }, m, .loadPool t n)
  | .run, .loadPool t n, p, m =>
      if m.initialBlockPoolIndex < e.initialBlockPoolSize then some (p, m, .addPool t n)
      else some (p, m, .getFree t n)
  | .run, .addPool t n, p, m =>
      let index := m.initialBlockPoolIndex
      let m := { m with initialBlockPoolIndex := index + 1 }
      if index < e.initialBlockPoolSize then
        some (p, m.countAcquired index, .resetEmpty t n index)
      else some (p, m, .getFree t n)
  | .take block, .getFree t n, p, m =>
      match block with
      | some b =>
          if b ∈ m.freeList then
            some (p, { m with freeList := m.freeList.erase b }.countAcquired b,
              .resetEmpty t n b)
          else none
      | none =>
          match t.mode with
          | .canAlloc => some (p, m, .create t n)
          | .cannotAlloc => some (p, m, .rewind t n)
  | .malloc ok, .create t n, p, m =>
      if ok then
        let b := e.initialBlockPoolSize + m.created
        some (p, { m with created := m.created + 1 }.countAcquired b, .resetEmpty t n b)
      else some (p, m, .rewind t n)
  | .run, .resetEmpty t n b, p, m =>
      some (p, m.setCompletelyDequeued b 0, .storeValue t n b)
  | .run, .storeValue t n b, p, m =>
      some ({ p with index := p.index.setValue n (some b) }, m,
        nextBlock e { t with chain := t.chain ++ [b] })
  | .run, .rewind t n, p, m =>
      match p.index.blockIndex with
      | none => some (p, m, .fault)
      | some h => some ({ p with index := p.index.rewindBlockIndexTail h }, m, .clearEntry t n)
  | .run, .clearEntry t n, p, m =>
      some ({ p with index := p.index.setValue n none }, m, unwind t 0)
  | .run, .undoValue t k, p, m =>
      match p.index.blockIndex with
      | none => some (p, m, .fault)
      | some h =>
          match p.index.lookup e h (t.base e k) with
          | none => some (p, m, .fault)
          | some n => some ({ p with index := p.index.setValue n none }, m, .undoTail t k)
  | .run, .undoTail t k, p, m =>
      match p.index.blockIndex with
      | none => some (p, m, .fault)
      | some h =>
          some ({ p with index := p.index.rewindBlockIndexTail h }, m, unwind t (k + 1))
  | .run, .giveBack b rest, p, m => some (p, m.addBlockToFreeList e b, giveBackAll rest)
  | .run, .construct t k, p, m =>
      let index := t.start + k
      match t.blockOf e p.tailBlock index, t.items[k]? with
      | some b, some x =>
          match m.elements b (index % e.BLOCK_SIZE) with
          | none =>
              some ({ p with constructed := p.constructed ++ [(b, x)] },
                m.setElement b (index % e.BLOCK_SIZE) (some x), fill t (k + 1))
          | some _ => some (p, m, .fault)
      | _, _ => some (p, m, .fault)
  | .run, .publish t, p, m =>
      some ({ p with
        counters := { p.counters with tailIndex := t.start + t.items.length }
        tailBlock := t.chain.getLast?.or p.tailBlock }, m, .finished)
  | _, _, _, _ => none

variable {e} in
/-- Only the last step of a call that enqueues touches the counters. -/
theorem enqStep_counters {x : Input} {pc : EnqPC α} {p : Producer α} {m : Memory α}
    {r : Producer α × Memory α × EnqPC α} (h : enqStep e x pc p m = some r) :
    r.1.counters = p.counters ∨ ∃ t : Task α, pc = .publish t ∧
      r.1.counters = { p.counters with tailIndex := t.start + t.items.length } := by
  cases pc <;> cases x <;> simp only [enqStep, reduceCtorEq] at h
  case publish.run t =>
    cases h
    exact .inr ⟨t, rfl, rfl⟩
  -- the other steps write the index, blocks, or locals of the call
  all_goals
    left
    repeat' split at h
    all_goals first
      | cases h; rfl
      | cases h

/-- The blocks that a call has acquired; if it fails, it has yet to give them back. -/
def EnqPC.took : EnqPC α → List Nat
  | loadHead t | probe t | newIndex t | storeKey t _ | storeTail t _ | loadPool t _ | addPool t _
  | getFree t _ | create t _ | rewind t _ | clearEntry t _ | undoValue t _ | undoTail t _
  | construct t _ | publish t => t.chain
  | resetEmpty t _ b | storeValue t _ b => t.chain ++ [b]
  | giveBack b rest => b :: rest
  | finished | fault => []

/-- Where a call that dequeues stands. `index` is the first index not moved out yet, `last`
the end of the claimed range. -/
inductive DeqPC
  | claiming (pc : Claim.PC)
  /-- `get_block_index_index_for_index`. -/
  | loadIndex (index last : Nat)
  | loadTail (index last localBlockIndex : Nat)
  | loadKey (index last localBlockIndex tail : Nat)
  | assertEntry (index last localBlockIndex indexIndex : Nat)
  | loadValue (index last localBlockIndex indexIndex : Nat)
  | moveOut (blockStartIndex index last localBlockIndex indexIndex block : Nat)
  | setManyEmpty (blockStartIndex index last localBlockIndex indexIndex block : Nat)
  | clearValue (index last localBlockIndex indexIndex block : Nat)
  | addBlock (index last localBlockIndex indexIndex block : Nat)
  | finished
  | fault
  deriving DecidableEq

/-- Where the part of a claimed range that lies in the block of `index` ends. -/
def endIndex (index last : Nat) : Nat :=
  if last < index / e.BLOCK_SIZE * e.BLOCK_SIZE + e.BLOCK_SIZE then last
  else index / e.BLOCK_SIZE * e.BLOCK_SIZE + e.BLOCK_SIZE

/-- The loop over the elements of one block. -/
def moveOrMark (blockStartIndex index last h indexIndex block : Nat) : DeqPC :=
  if index = endIndex e blockStartIndex last then
    .setManyEmpty blockStartIndex index last h indexIndex block
  else .moveOut blockStartIndex index last h indexIndex block

/-- The loop over the blocks. -/
def advance (x : Index) (index last h indexIndex : Nat) : DeqPC :=
  if index = last then .finished
  else .loadValue index last h ((indexIndex + 1) % (x.headers h).capacity)

/-- After a step of the claim protocol. -/
def afterClaim (head : Nat) (pc pc' : Claim.PC) : DeqPC :=
  match pc with
  | .claim n => .loadIndex head (head + n)
  | _ => if pc' = .idle then .finished else .claiming pc'

theorem afterClaim_eq {head : Nat} {pc pc' : Claim.PC} (h : ∀ n, pc ≠ .claim n) :
    afterClaim head pc pc' = if pc' = .idle then .finished else .claiming pc' := by
  cases pc with
  | claim n => exact absurd rfl (h n)
  | _ => rfl

/-- One step of a call that dequeues. -/
def deqStep : DeqPC → Producer α → Memory α → Option (Producer α × Memory α × DeqPC)
  | .claiming pc, p, m =>
      (Claim.exec () .run p.counters pc).map fun r =>
        ({ p with counters := r.1 }, m, afterClaim p.counters.headIndex pc r.2)
  | .loadIndex i last, p, m =>
      match p.index.blockIndex with
      | none => some (p, m, .fault)
      | some h => some (p, m, .loadTail i last h)
  | .loadTail i last h, p, m => some (p, m, .loadKey i last h (p.index.headers h).tail)
  | .loadKey i last h tail, p, m =>
      match (p.index.entries ((p.index.headers h).index tail)).key with
      | none => some (p, m, .fault)
      | some tailBase =>
          some (p, m, .assertEntry i last h ((p.index.headers h).locate e tail tailBase i))
  | .assertEntry i last h n, p, m =>
      if (p.index.entries ((p.index.headers h).index n)).holds e i then
        some (p, m, .loadValue i last h n)
      else some (p, m, .fault)
  | .loadValue i last h n, p, m =>
      match (p.index.entries ((p.index.headers h).index n)).value with
      | some (some b) => some (p, m, moveOrMark e i i last h n b)
      | _ => some (p, m, .fault)
  | .moveOut start i last h n b, p, m =>
      match m.elements b (i % e.BLOCK_SIZE) with
      | none => some (p, m, .fault)
      | some x =>
          some ({ p with delivered := (i, x) :: p.delivered },
            m.setElement b (i % e.BLOCK_SIZE) none, moveOrMark e start (i + 1) last h n b)
  | .setManyEmpty start i last h n b, p, m =>
      let prevVal := m.elementsCompletelyDequeued b
      let count := i - start
      if prevVal + count ≤ e.BLOCK_SIZE then
        some (p, m.setCompletelyDequeued b (prevVal + count),
          if prevVal + count = e.BLOCK_SIZE then .clearValue i last h n b
          else advance p.index i last h n)
      else some (p, m, .fault)
  | .clearValue i last h n b, p, m =>
      some ({ p with index := p.index.setValue ((p.index.headers h).index n) none }, m,
        .addBlock i last h n b)
  | .addBlock i last h n b, p, m =>
      some (p, m.addBlockToFreeList e b, advance p.index i last h n)
  | .finished, _, _ => none
  | .fault, _, _ => none

variable {e} in
/-- A call claims once, before it looks for blocks. -/
theorem moveOrMark_ne_claiming {start n last g q b : ℕ} (pc : Claim.PC) :
    moveOrMark e start n last g q b ≠ .claiming pc := by
  unfold moveOrMark
  split <;> exact fun h => by cases h

theorem advance_ne_claiming {x : Index} {n last g q : ℕ} (pc : Claim.PC) :
    advance x n last g q ≠ .claiming pc := by
  unfold advance
  split <;> exact fun h => by cases h

variable {e} in
/-- After its claim a call touches the counters no more. -/
theorem deqStep_counters {pc : DeqPC} {p : Producer α} {m : Memory α}
    {r : Producer α × Memory α × DeqPC} (h : deqStep e pc p m = some r)
    (hpc : ∀ q, pc ≠ .claiming q) :
    r.1.counters = p.counters ∧ ∀ q, r.2.2 ≠ .claiming q := by
  cases pc with
  | claiming q => exact absurd rfl (hpc q)
  | setManyEmpty start n last g q b =>
      simp only [deqStep] at h
      split at h
      · cases h
        refine ⟨rfl, fun q' => ?_⟩
        dsimp only
        split
        · exact fun heq => by cases heq
        · exact advance_ne_claiming q'
      · cases h
        exact ⟨rfl, fun _ heq => by cases heq⟩
  | addBlock n last g q b =>
      cases h
      exact ⟨rfl, advance_ne_claiming⟩
  | finished => cases h
  | fault => cases h
  | _ =>
      simp only [deqStep] at h
      repeat' split at h
      all_goals
        cases h
        first
          | exact ⟨rfl, fun _ heq => by cases heq⟩
          | exact ⟨rfl, moveOrMark_ne_claiming⟩

inductive PC (ι α : Type)
  | idle
  | enqueuing (pc : EnqPC α)
  | dequeuing (j : ι) (pc : DeqPC)

inductive Act (ι α : Type)
  | enqueue (mode : AllocationMode) (items : List α)
  | dequeue (j : ι) (c : Claim.Call)
  | step (x : Input)

def PC.ofEnq : EnqPC α → PC ι α
  | .finished => .idle
  | pc => .enqueuing pc

def PC.ofDeq (j : ι) : DeqPC → PC ι α
  | .finished => .idle
  | pc => .dequeuing j pc

def State.set [DecidableEq ι] (s : State ι α) (j : ι) (p : Producer α) (m : Memory α) :
    State ι α :=
  ⟨update s.producers j p, m⟩

/-- One atomic step of a thread. -/
def exec [DecidableEq ι] : Exec ι (Act ι α) (State ι α) (PC ι α)
  | i, .enqueue mode items, s, .idle =>
      some (s, .ofEnq (nextBlock e ⟨mode, items, (s.producers i).counters.tailIndex, []⟩))
  | _, .dequeue j c, s, .idle => some (s, .dequeuing j (.claiming (.loadTail c)))
  | i, .step x, s, .enqueuing pc =>
      (enqStep e x pc (s.producers i) s.mem).map fun r => (s.set i r.1 r.2.1, .ofEnq r.2.2)
  | _, .step .run, s, .dequeuing j pc =>
      (deqStep e pc (s.producers j) s.mem).map fun r => (s.set j r.1 r.2.1, .ofDeq j r.2.2)
  | _, _, _, _ => none

section Moves

variable [DecidableEq ι] (i : ι) (s : State ι α)

/-- What one atomic step of thread `i` can do. -/
inductive Moves : Act ι α → PC ι α → State ι α → PC ι α → Prop
  | enqueue (mode : AllocationMode) (items : List α) :
      Moves (.enqueue mode items) .idle s
        (.ofEnq (nextBlock e ⟨mode, items, (s.producers i).counters.tailIndex, []⟩))
  | dequeue (j : ι) (c : Claim.Call) :
      Moves (.dequeue j c) .idle s (.dequeuing j (.claiming (.loadTail c)))
  | enqueuing {x : Input} {pc : EnqPC α} {r : Producer α × Memory α × EnqPC α}
      (h : enqStep e x pc (s.producers i) s.mem = some r) :
      Moves (.step x) (.enqueuing pc) (s.set i r.1 r.2.1) (.ofEnq r.2.2)
  | dequeuing {j : ι} {pc : DeqPC} {r : Producer α × Memory α × DeqPC}
      (h : deqStep e pc (s.producers j) s.mem = some r) :
      Moves (.step .run) (.dequeuing j pc) (s.set j r.1 r.2.1) (.ofDeq j r.2.2)

variable {e i s}

theorem exec_moves {a : Act ι α} {l l' : PC ι α} {s' : State ι α}
    (h : exec e i a s l = some (s', l')) : Moves e i s a l s' l' := by
  cases l with
  | idle =>
      cases a with
      | enqueue mode items =>
          cases h
          exact .enqueue mode items
      | dequeue j c =>
          cases h
          exact .dequeue j c
      | step x => cases x <;> cases h
  | enqueuing pc =>
      cases a with
      | enqueue mode items => cases h
      | dequeue j c => cases h
      | step x =>
          obtain ⟨r, hr, heq⟩ := Option.map_eq_some_iff.mp h
          cases heq
          exact .enqueuing hr
  | dequeuing j pc =>
      cases a with
      | enqueue mode items => cases h
      | dequeue j' c => cases h
      | step x =>
          cases x with
          | malloc ok => cases h
          | take b => cases h
          | run =>
              obtain ⟨r, hr, heq⟩ := Option.map_eq_some_iff.mp h
              cases heq
              exact .dequeuing hr

end Moves

/-- A new producer; the constructor goes on without an index if that cannot be allocated. -/
def Producer.create (ok : Bool) : Producer α where
  counters := ⟨0, 0, 0, 0, []⟩
  tailBlock := none
  index := if ok then (Index.blank e).newBlockIndex else .blank e
  constructed := []
  delivered := []

/-- New producers, and no block in use. -/
def Init (c : Conf ι (State ι α) (PC ι α)) : Prop :=
  (∀ j, ∃ ok, c.shared.producers j = .create e ok) ∧
  c.shared.mem.initialBlockPoolIndex = 0 ∧ c.shared.mem.freeList = [] ∧
  c.shared.mem.created = 0 ∧ c.shared.mem.destroyed = [] ∧
  (∀ b i, c.shared.mem.elements b i = none) ∧ (∀ b, c.shared.mem.acquired b = 0) ∧
  (∀ b, c.shared.mem.released b = 0) ∧ ∀ i, c.locals i = .idle

end ConcurrentQueue.ImplicitRace
