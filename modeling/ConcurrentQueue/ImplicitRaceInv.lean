import ConcurrentQueue.Lib.Circular
import ConcurrentQueue.Lib.Outstanding
import ConcurrentQueue.ImplicitRace

/-!
# ConcurrentQueue.ImplicitRaceInv

**The invariant of implicit producers at work.** Every block is in one *place*
(`Place`): in the unissued pool, on the free list, in the hands of one thread, or
under the number `k` of one producer's block index, which then stores it for the
indices from `k * BLOCK_SIZE` on. The places exist only in the invariant.

An index that a consumer claimed stays *owed* until its slot is marked empty, and a
block keeps its place as long as an index of it is owed or not claimed yet. An entry
of the block index is written again only when its value is null, so the entries that
anybody can still look up keep their keys; this is what a consumer with an outdated
header, or an outdated tail of it, relies on.

`Sub` collects what holds of one producer: of its block index (`Shelf`), of the
elements in its blocks (`Stock`) and of the threads that work on it. It mentions the
memory and the other threads only through the blocks of this producer and through the
consumers that are dequeuing from it, so that a step somewhere else does not concern
it (`Sub.frame`).
-/

namespace ConcurrentQueue.ImplicitRace

open Interleaving Outstanding Circular

variable {ι α : Type}

/-! ### What a thread has at its disposal -/

/-- Where a block is. -/
inductive Place (ι : Type)
  | pool
  | free
  | unborn
  | destroyed
  | hand (i : ι)
  | slot (j : ι) (k : ℕ)
  deriving DecidableEq

/-- Between acquisition and release. -/
def Place.inUse : Place ι → Bool
  | hand _ | slot _ _ => true
  | _ => false

namespace DeqPC

/-- The indices claimed and not marked empty yet. -/
def owed : DeqPC → Finset ℕ
  | loadIndex i last | loadTail i last _ | loadKey i last _ _ | assertEntry i last _ _
  | loadValue i last _ _ | clearValue i last _ _ _ | addBlock i last _ _ _ => Finset.Ico i last
  | moveOut start _ last _ _ _ | setManyEmpty start _ last _ _ _ => Finset.Ico start last
  | _ => ∅

/-- The indices claimed and not moved out yet. -/
def unmoved : DeqPC → Finset ℕ
  | loadIndex i last | loadTail i last _ | loadKey i last _ _ | assertEntry i last _ _
  | loadValue i last _ _ | clearValue i last _ _ _ | addBlock i last _ _ _
  | moveOut _ i last _ _ _ | setManyEmpty _ i last _ _ _ => Finset.Ico i last
  | _ => ∅

def hands : DeqPC → List ℕ
  | addBlock _ _ _ _ b => [b]
  | _ => []

/-- The block whose entry the thread is about to clear. -/
def clearing : DeqPC → Option ℕ
  | clearValue _ _ _ _ b => some b
  | _ => none

/-- The index that a call has begun to look up although it has claimed nothing. -/
def peeks : DeqPC → Option ℕ
  | loadTail i last _ | loadKey i last _ _ | assertEntry i last _ _ | loadValue i last _ _
  | moveOut i _ last _ _ _ | setManyEmpty i _ last _ _ _ => if i = last then some i else none
  | _ => none

/-- The index that a call looks up although it has claimed nothing. -/
def unclaimed : DeqPC → Option ℕ
  | loadIndex i last => if i = last then some i else none
  | l => l.peeks

end DeqPC

namespace EnqPC

def hands : EnqPC α → List ℕ
  | resetEmpty _ _ b | storeValue _ _ b => [b]
  | undoValue t k => t.chain.take k
  | undoTail t k => t.chain.take (k + 1)
  | giveBack b rest => b :: rest
  | _ => []

/-- How many blocks have been put on the index and not taken back, `F` of them published. -/
def inserted (F : ℕ) : EnqPC α → ℕ
  | loadHead t | probe t | newIndex t | storeKey t _ | storeTail t _ | clearEntry t _
  | construct t _ | publish t => F + t.chain.length
  | loadPool t _ | addPool t _ | getFree t _ | create t _ | resetEmpty t _ _ | storeValue t _ _
  | rewind t _ => F + t.chain.length + 1
  | undoValue t k | undoTail t k => F + (t.chain.length - k)
  | _ => F

/-- The number whose entry has its new key and not its new value. -/
def pushing (F : ℕ) : EnqPC α → Option ℕ
  | storeTail t _ | loadPool t _ | addPool t _ | getFree t _ | create t _ | resetEmpty t _ _
  | storeValue t _ _ | rewind t _ | clearEntry t _ => some (F + t.chain.length)
  | _ => none

/-- The numbers of the blocks that the call has acquired and not given back. -/
def acquired (F : ℕ) : EnqPC α → Finset ℕ
  | loadHead t | probe t | newIndex t | storeKey t _ | storeTail t _ | loadPool t _ | addPool t _
  | getFree t _ | create t _ | resetEmpty t _ _ | storeValue t _ _ | rewind t _ | clearEntry t _
  | construct t _ | publish t => Finset.Ico F (F + t.chain.length)
  | undoValue t k => Finset.Ico (F + k) (F + t.chain.length)
  | undoTail t k => Finset.Ico (F + k + 1) (F + t.chain.length)
  | _ => ∅

/-- How many elements of the call are constructed. -/
def done : EnqPC α → ℕ
  | construct _ k => k
  | publish t => t.items.length
  | _ => 0

end EnqPC

namespace PC

def hands : PC ι α → List ℕ
  | idle => []
  | enqueuing pc => pc.hands
  | dequeuing _ pc => pc.hands

/-- The part of the thread that enqueues to its producer. -/
def enq : PC ι α → EnqPC α
  | enqueuing pc => pc
  | _ => .finished

/-- The part of the thread that dequeues from producer `j`. -/
def deq [DecidableEq ι] (j : ι) : PC ι α → DeqPC
  | dequeuing j' pc => if j' = j then pc else .finished
  | _ => .finished

end PC

variable (e : Env)

/-! ### The block index of one producer -/

namespace Index

variable (x : Index)

def key (n : ℕ) : Option ℕ := (x.entries n).key

def value (n : ℕ) : Option (Option ℕ) := (x.entries n).value

/-- The entry of number `k` in header `h`. -/
def cell (o : ℕ → ℕ) (h k : ℕ) : ℕ :=
  (x.headers h).index (pos (x.headers h).capacity (o h) k)

end Index

/-- The index with current header `h` on which `K` numbers have been put. -/
structure Indexed (x : Index) (o : ℕ → ℕ) (low top K h : ℕ) : Prop where
  last : h + 1 = x.headerCount
  window : Window e.BLOCK_SIZE (x.headers h).capacity (o h) (x.headers h).index x.key low top
  known : ∀ q < (x.headers h).capacity, (x.headers h).index q < x.entryCount
  nested : ∀ g < x.headerCount, Nested (x.headers g).capacity (o g) (x.headers g).index
    (x.headers h).capacity (o h) (x.headers h).index
  tail_lt : ∀ g < x.headerCount, (x.headers g).tail < (x.headers g).capacity
  tail : x.nextSlot h = pos (x.headers h).capacity (o h) K
  /-- The tail of an outdated header is the entry of some block. -/
  old : ∀ g < h, x.key ((x.headers g).index (x.headers g).tail) ≠ none
  le_top : K ≤ top
  capacity : x.nextBlockIndexCapacity = 2 * (x.headers h).capacity

/-- The block index of producer `j`, of whose numbers the first `F` are published. -/
structure Shelf (x : Index) (place : ℕ → Place ι) (j : ι) (o : ℕ → ℕ) (low top F K : ℕ)
    (pushing : Option ℕ) (acquired : Finset ℕ) : Prop where
  index : ∀ h, x.blockIndex = some h → Indexed e x o low top K h
  low_le : low ≤ F
  value : ∀ h, x.blockIndex = some h → ∀ k, low ≤ k → k < top → ∀ b,
    x.value (x.cell o h k) = some (some b) ↔ place b = .slot j k
  initialised : ∀ h, x.blockIndex = some h → ∀ k, low ≤ k → k < top →
    x.value (x.cell o h k) = none → pushing = some k
  slot : ∀ b k, place b = .slot j k →
    x.blockIndex ≠ none ∧ low ≤ k ∧ k < top ∧ (k < F ∨ k ∈ acquired)
  blank : ∀ n, x.key n = none → x.value n = none

/-! ### The elements of one producer -/

/-- The blocks of producer `j` hold the elements constructed and not moved out, `S` being the
indices marked empty and `M` those moved out. -/
structure Stock (m : Memory α) (place : ℕ → Place ι) (j : ι) (tail : ℕ) (S M : Finset ℕ)
    (tailBlock : Option ℕ) (constructed : List (ℕ × α)) (done : ℕ) : Prop where
  live : ∀ n, n ∉ S → n / e.BLOCK_SIZE < blocksBelow e tail →
    ∃ b, place b = .slot j (n / e.BLOCK_SIZE)
  marks : ∀ b k, place b = .slot j k →
    m.elementsCompletelyDequeued b = (S.filter (· / e.BLOCK_SIZE = k)).card
  elements : ∀ b k, place b = .slot j k → ∀ r < e.BLOCK_SIZE, m.elements b r =
    if k * e.BLOCK_SIZE + r ∈ M then none
    else (constructed[k * e.BLOCK_SIZE + r]?).map Prod.snd
  home : ∀ n b v, constructed[n]? = some (b, v) → n ∉ S → place b = .slot j (n / e.BLOCK_SIZE)
  tailBlock : tail % e.BLOCK_SIZE ≠ 0 →
    ∃ b, tailBlock = some b ∧ place b = .slot j (tail / e.BLOCK_SIZE)
  count : constructed.length = tail + done

/-- Each index moved out was delivered once, with the element constructed for it. -/
structure Delivery (M : Finset ℕ) (constructed delivered : List (ℕ × α)) : Prop where
  moved : ∀ n, n ∈ M ↔ ∃ v, (n, v) ∈ delivered
  once : (delivered.map Prod.fst).Nodup
  right : ∀ n v, (n, v) ∈ delivered → (constructed[n]?).map Prod.snd = some v

/-! ### The threads that work on one producer -/

section Threads

variable (x : Index) (place : ℕ → Place ι) (j : ι) (o : ℕ → ℕ)

/-- The limit leaves room for `K` blocks. -/
def Fits (head K : ℕ) : Prop :=
  e.MAX_SUBQUEUE_SIZE ≠ e.sizeMax → K * e.BLOCK_SIZE ≤ e.MAX_SUBQUEUE_SIZE.toNat + head

/-- The blocks of a call from number `k` of its chain on are in place. -/
structure Task.Ok (tail : ℕ) (t : Task α) (k : ℕ) : Prop where
  start : t.start = tail
  chain : ∀ i, k ≤ i → ∀ b, t.chain[i]? = some b → place b = .slot j (blocksBelow e tail + i)
  needed : t.chain.length ≤ t.needed e

/-- A call that is acquiring a block and has passed the limit. -/
structure Task.Acquiring (head tail : ℕ) (t : Task α) : Prop extends t.Ok e place j tail 0 where
  more : t.chain.length < t.needed e
  fits : Fits e head (blocksBelow e tail + t.chain.length + 1)

/-- `n` is the entry for number `k`. -/
def EntryOf (k n : ℕ) : Prop := ∃ h, x.blockIndex = some h ∧ n = x.cell o h k

/-- The window is as wide as the index and ends at `K`. -/
def Crowded (low top K : ℕ) : Prop :=
  ∃ h, x.blockIndex = some h ∧ K = top ∧ top = low + (x.headers h).capacity

/-- A call that has put the key of its next block on the index. -/
structure Task.Pushing (head tail top : ℕ) (t : Task α) (n : ℕ) : Prop extends
    t.Acquiring e place j head tail where
  entry : EntryOf x o (blocksBelow e tail + t.chain.length) n
  lt_top : blocksBelow e tail + t.chain.length < top

/-- What the local variables of a call that enqueues say. -/
def EnqPC.Ok (m : Memory α) (head tail low top : ℕ) : EnqPC α → Prop
  | loadHead t => t.Ok e place j tail 0 ∧ t.chain.length < t.needed e
  | probe t => t.Acquiring e place j head tail
  | newIndex t => t.Acquiring e place j head tail ∧
      Crowded x low top (blocksBelow e tail + t.chain.length)
  | storeKey t n => t.Acquiring e place j head tail ∧
      EntryOf x o (blocksBelow e tail + t.chain.length) n ∧ (x.entries n).vacant = some true
  | storeTail t n | loadPool t n | addPool t n | getFree t n | create t n | resetEmpty t n _
  | rewind t n | clearEntry t n => t.Pushing e x place j o head tail top n
  | storeValue t n b => t.Pushing e x place j o head tail top n ∧
      m.elementsCompletelyDequeued b = 0
  | undoValue t k => t.Ok e place j tail k ∧ k < t.chain.length
  | undoTail t k => t.Ok e place j tail (k + 1) ∧ k < t.chain.length ∧ x.blockIndex ≠ none
  | giveBack _ _ => True
  | construct t k => t.Ok e place j tail 0 ∧ t.chain.length = t.needed e ∧ k < t.items.length
  | publish t => t.Ok e place j tail 0 ∧ t.chain.length = t.needed e
  | finished => True
  | fault => False

/-- Header `g` and the current one have the same entry for number `k`. -/
def Covers (g k : ℕ) : Prop := ∀ h, x.blockIndex = some h → x.cell o g k = x.cell o h k

/-- Header `g` still serves the indices from `i` up to `last`. -/
structure Serves (g i last : ℕ) : Prop where
  known : g < x.headerCount
  covers : ∀ n, i ≤ n → n < last → Covers x o g (n / e.BLOCK_SIZE)

/-- Position `q` of header `g` is that of number `k`, and a range that goes on at `i` goes on
with the next number. -/
def Behind (g q i last k : ℕ) : Prop :=
  q = pos (x.headers g).capacity (o g) k ∧ (i < last → i = (k + 1) * e.BLOCK_SIZE)

/-- A call of the claim protocol that asks for at least one element. -/
def Positive : Claim.PC → Prop
  | .loadTail c | .loadOvercommit c _ | .loadCount c _ _ => c ≠ .dequeueBulk 0
  | .addCount _ _ desired | .reloadTail _ desired _ => 0 < desired
  | .refundSome _ actual | .claim actual => 0 < actual
  | .refundAll desired => 0 < desired
  | .idle | .producer => False

/-- A call that gives a surplus back has been granted something. -/
def Granted : Claim.PC → Prop
  | .refundSome _ actual => 0 < actual
  | _ => True

/-- A bulk dequeue of no elements. -/
def DeqPC.AsksNone : DeqPC → Prop
  | claiming pc => ¬ Positive pc
  | l => l.unclaimed ≠ none

/-- All slots of the block with number `k` are marked empty. -/
def Finished (S : Finset ℕ) (k : ℕ) : Prop := ∀ n, n / e.BLOCK_SIZE = k → n ∈ S

/-- The block with number `k` has to stay for a call: it owes an index of it, or looks one up. -/
def DeqPC.Needs (S : Finset ℕ) (l : DeqPC) (k : ℕ) : Prop :=
  (∃ n ∈ l.owed, n / e.BLOCK_SIZE = k) ∨ ∃ n ∈ l.peeks, n / e.BLOCK_SIZE = k ∧ ¬ Finished e S k

/-- Header `g` was loaded to look up index `i`, when its block was among the first `F`. -/
structure Reads (S : Finset ℕ) (F g i last : ℕ) : Prop extends Serves e x o g i last where
  le : i ≤ last
  published : i / e.BLOCK_SIZE < F
  peek : i = last → Finished e S (i / e.BLOCK_SIZE) ∨ Covers x o g (i / e.BLOCK_SIZE)

/-- What the local variables of a call that dequeues say; `S` are the indices marked empty. -/
def DeqPC.Ok (S : Finset ℕ) (F : ℕ) : DeqPC → Prop
  | claiming pc => Granted pc
  | loadIndex i last => i ≤ last
  | loadTail i last g => Reads e x o S F g i last
  | loadKey i last g t => Reads e x o S F g i last ∧ t < (x.headers g).capacity ∧
      x.key ((x.headers g).index t) ≠ none
  | assertEntry i last g q | loadValue i last g q => Reads e x o S F g i last ∧
      q = pos (x.headers g).capacity (o g) (i / e.BLOCK_SIZE)
  | moveOut start i last g q b => Reads e x o S F g start last ∧
      q = pos (x.headers g).capacity (o g) (start / e.BLOCK_SIZE) ∧
      place b = .slot j (start / e.BLOCK_SIZE) ∧ start ≤ i ∧ i < endIndex e start last
  | setManyEmpty start i last g q b => Reads e x o S F g start last ∧
      q = pos (x.headers g).capacity (o g) (start / e.BLOCK_SIZE) ∧
      (start = last ∧ Finished e S (start / e.BLOCK_SIZE) ∨
        place b = .slot j (start / e.BLOCK_SIZE)) ∧ i = endIndex e start last
  | clearValue i last g q b => i ≤ last ∧ Serves e x o g i last ∧
      ∃ k, Behind e x o g q i last k ∧ place b = .slot j k ∧ Covers x o g k ∧ Finished e S k
  | addBlock i last g q _ => i ≤ last ∧ Serves e x o g i last ∧ ∃ k, Behind e x o g q i last k
  | finished => True
  | fault => False

end Threads

/-! ### One producer -/

section Sub

variable [Fintype ι] (p : Producer α) (m : Memory α) (place : ℕ → Place ι) (j : ι) (o : ℕ → ℕ)
  (low top : ℕ) (enq : EnqPC α) (deqs : ι → DeqPC)

/-- The indices marked empty. -/
def marked (head : ℕ) : Finset ℕ := settled head (DeqPC.owed ∘ deqs)

/-- The indices moved out. -/
def moved (head : ℕ) : Finset ℕ := settled head (DeqPC.unmoved ∘ deqs)

/-- The block with number `k` is published and not finished. -/
def Alive (k : ℕ) : Prop :=
  k < blocksBelow e p.counters.tailIndex ∧ ¬ Finished e (marked deqs p.counters.headIndex) k

/-- A block whose slots are all marked empty is about to be taken off the index. -/
def Swept (S : Finset ℕ) : Prop :=
  ∀ b k, place b = .slot j k → Finished e S k → ∃ i, (deqs i).clearing = some b

/-- What holds of one producer. -/
structure Sub : Prop where
  owed : Apart p.counters.headIndex (DeqPC.owed ∘ deqs)
  unmoved : Apart p.counters.headIndex (DeqPC.unmoved ∘ deqs)
  shelf : Shelf e p.index place j o low top (blocksBelow e p.counters.tailIndex)
    (enq.inserted (blocksBelow e p.counters.tailIndex))
    (enq.pushing (blocksBelow e p.counters.tailIndex))
    (enq.acquired (blocksBelow e p.counters.tailIndex))
  stock : Stock e m place j p.counters.tailIndex (marked deqs p.counters.headIndex)
    (moved deqs p.counters.headIndex) p.tailBlock p.constructed enq.done
  delivery : Delivery (moved deqs p.counters.headIndex) p.constructed p.delivered
  fits : Fits e p.counters.headIndex (enq.inserted (blocksBelow e p.counters.tailIndex))
  owner : enq.Ok e p.index place j o m p.counters.headIndex p.counters.tailIndex low
    top
  readers : ∀ i, (deqs i).Ok e p.index place j o (marked deqs p.counters.headIndex)
    (blocksBelow e p.counters.tailIndex)
  clearing : ∀ i i' b, (deqs i).clearing = some b → (deqs i').clearing = some b → i = i'
  swept : Swept e place j deqs (marked deqs p.counters.headIndex)

end Sub

/-! ### The blocks of all producers -/

/-- The places and the memory agree. -/
structure Custody (m : Memory α) (place : ℕ → Place ι) (hands : ι → List ℕ) : Prop where
  pool : ∀ b, place b = .pool ↔ m.initialBlockPoolIndex ≤ b ∧ b < e.initialBlockPoolSize
  free : ∀ b, place b = .free ↔ b ∈ m.freeList
  unborn : ∀ b, place b = .unborn ↔ e.initialBlockPoolSize + m.created ≤ b
  destroyed : ∀ b, place b = .destroyed ↔ b ∈ m.destroyed
  hand : ∀ b i, place b = .hand i ↔ b ∈ hands i
  nodup_free : m.freeList.Nodup
  nodup_destroyed : m.destroyed.Nodup
  nodup_hands : ∀ i, (hands i).Nodup
  vacant : ∀ b, (∀ j k, place b ≠ .slot j k) → ∀ r < e.BLOCK_SIZE, m.elements b r = none
  balance : ∀ b, m.acquired b = m.released b + if (place b).inUse then 1 else 0

variable [Fintype ι] [DecidableEq ι]

/-- The invariant of the system. -/
structure Inv (c : Conf ι (State ι α) (PC ι α)) : Prop where
  ex : ∃ place : ℕ → Place ι, Custody e c.shared.mem place (fun i => (c.locals i).hands) ∧
    ∀ j, ∃ o low top, Sub e (c.shared.producers j) c.shared.mem place j o low top
      (c.locals j).enq (fun i => (c.locals i).deq j)

end ConcurrentQueue.ImplicitRace
