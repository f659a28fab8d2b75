import ConcurrentQueue.Fifo
import ConcurrentQueue.Lib.Linked

/-!
# ConcurrentQueue.Search

How a consumer looks for elements in the producers' sub-queues: `try_dequeue`,
`try_dequeue_non_interleaved` and `try_dequeue_bulk`, with and without a
`ConsumerToken`, and `size_approx`.

A sub-queue is what these methods see of it, its counters and its elements, oldest
first; explicit and implicit producers count alike. `none` stands for undefined
behaviour, for a loop that has run out of fuel, and for one that does not end
(`SubQueue.takeRange`).
-/

namespace ConcurrentQueue.Search

variable {α : Type} {w : Nat}

/-! ### Sub-queues -/

structure SubQueue (w : Nat) (α : Type) where
  headIndex : BitVec w
  tailIndex : BitVec w
  dequeueOptimisticCount : BitVec w
  dequeueOvercommit : BitVec w
  elements : List α

namespace SubQueue

def sizeApprox (s : SubQueue w α) : BitVec w :=
  if circularLessThan s.headIndex s.tailIndex then s.tailIndex - s.headIndex else 0

/-- Take the next `n` elements, where there are as many. -/
def take (s : SubQueue w α) (n : BitVec w) : Option (SubQueue w α × List α) :=
  if n.toNat ≤ s.elements.length then
    some ({ s with headIndex := s.headIndex + n, elements := s.elements.drop n.toNat },
      s.elements.take n.toNat)
  else none

/-- Take the next `n` elements in the loop of `dequeue_bulk`. Its index, which is
`headIndex + n` after them, has to be equal to the sum that the loop compares it with. -/
def takeRange (s : SubQueue w α) (intBits : Nat) (n : BitVec w) :
    Option (SubQueue w α × List α) :=
  if atRangeEnd intBits s.headIndex n (s.headIndex + n) then s.take n else none

/-- `throws` says whether the assignment to the caller's element throws. -/
def dequeue (s : SubQueue w α) (throws : Bool) : Option (SubQueue w α × Popped α) :=
  let tail := s.tailIndex
  let overcommit := s.dequeueOvercommit
  if circularLessThan (s.dequeueOptimisticCount - overcommit) tail then
    let myDequeueCount := s.dequeueOptimisticCount
    let s := { s with dequeueOptimisticCount := s.dequeueOptimisticCount + 1#w }
    if circularLessThan (myDequeueCount - overcommit) tail then do
      let (s, xs) ← s.take 1#w
      some (s, if throws then .threw [] else .returned 1 xs)
    else some ({ s with dequeueOvercommit := s.dequeueOvercommit + 1#w }, .returned 0 [])
  else some (s, .returned 0 [])

/-- `throwsAt` is the number of the element whose assignment throws, if any. The
elements that were claimed are gone then all the same. -/
def dequeueBulk (intBits : Nat) (s : SubQueue w α) (max : BitVec w) (throwsAt : Option Nat) :
    Option (SubQueue w α × Popped α) :=
  let tail := s.tailIndex
  let overcommit := s.dequeueOvercommit
  let desiredCount := tail - (s.dequeueOptimisticCount - overcommit)
  if circularLessThan 0#w desiredCount then
    let desiredCount := if desiredCount < max then desiredCount else max
    let myDequeueCount := s.dequeueOptimisticCount
    let s := { s with dequeueOptimisticCount := s.dequeueOptimisticCount + desiredCount }
    let actualCount := tail - (myDequeueCount - overcommit)
    if circularLessThan 0#w actualCount then do
      let actualCount := if desiredCount < actualCount then desiredCount else actualCount
      let s := if actualCount < desiredCount then
          { s with dequeueOvercommit := s.dequeueOvercommit + (desiredCount - actualCount) }
        else s
      let (s, xs) ← s.takeRange intBits actualCount
      some (s, .ofList throwsAt actualCount.toNat xs)
    else
      some ({ s with dequeueOvercommit := s.dequeueOvercommit + desiredCount }, .returned 0 [])
  else some (s, .returned 0 [])

end SubQueue

/-! ### The queue -/

structure Queue (w : Nat) (α : Type) where
  producer : Nat → SubQueue w α
  next : Nat → Option Nat
  producerListTail : Option Nat
  producerCount : BitVec 32
  globalExplicitConsumerOffset : BitVec 32

structure ConsumerToken where
  initialOffset : BitVec 32
  lastKnownGlobalOffset : BitVec 32
  itemsConsumedFromCurrent : BitVec 32
  currentProducer : Option Nat
  desiredProducer : Option Nat
  deriving DecidableEq, Repr

/-- Producer `p` gave `dequeued` elements to a walk with the token. -/
def ConsumerToken.gave (token : ConsumerToken) (p : Nat) (dequeued : BitVec w) : ConsumerToken :=
  if dequeued ≠ 0 then
    { token with
      currentProducer := some p
      itemsConsumedFromCurrent := dequeued.setWidth 32 }
  else token

namespace Queue

def dequeueFrom (q : Queue w α) (p : Nat) (throws : Bool) : Option (Queue w α × Popped α) := do
  let (s, r) ← (q.producer p).dequeue throws
  some ({ q with producer := Function.update q.producer p s }, r)

def dequeueBulkFrom (intBits : Nat) (q : Queue w α) (p : Nat) (max : BitVec w)
    (throwsAt : Option Nat) : Option (Queue w α × Popped α) := do
  let (s, r) ← (q.producer p).dequeueBulk intBits max throwsAt
  some ({ q with producer := Function.update q.producer p s }, r)

/-- The loop of `size_approx` from `ptr` on. -/
def sizeFrom (q : Queue w α) : (fuel : Nat) → (ptr : Option Nat) → (size : BitVec w) →
    Option (BitVec w)
  | 0, _, _ => none
  | _ + 1, none, size => some size
  | fuel + 1, some p, size => q.sizeFrom fuel (q.next p) (size + (q.producer p).sizeApprox)

def sizeApprox (q : Queue w α) (fuel : Nat) : Option (BitVec w) :=
  q.sizeFrom fuel q.producerListTail 0

/-! ### Without a token -/

/-- What the scoring loop of `try_dequeue` keeps. -/
structure Score (w : Nat) where
  nonEmptyCount : Nat
  best : Option Nat
  bestSize : BitVec w

/-- The producer `p` of the given size is met. -/
def Score.meet (sc : Score w) (p : Nat) (size : BitVec w) : Score w :=
  if 0 < size then
    let sc := if sc.bestSize < size then { sc with bestSize := size, best := some p } else sc
    { sc with nonEmptyCount := sc.nonEmptyCount + 1 }
  else sc

def score (q : Queue w α) : (fuel : Nat) → (ptr : Option Nat) → Score w → Option (Score w)
  | 0, _, _ => none
  | _ + 1, none, sc => some sc
  | fuel + 1, some p, sc =>
      if sc.nonEmptyCount < 3 then
        q.score fuel (q.next p) (sc.meet p (q.producer p).sizeApprox)
      else some sc

/-- Try the producers from `ptr` on, but for the one to skip. -/
def scan (skip : Option Nat) (throws : Bool) : (fuel : Nat) → (ptr : Option Nat) → Queue w α →
    Option (Queue w α × Popped α)
  | 0, _, _ => none
  | _ + 1, none, q => some (q, .returned 0 [])
  | fuel + 1, some p, q =>
      if skip = some p then scan skip throws fuel (q.next p) q
      else
        match q.dequeueFrom p throws with
        | none => none
        | some (q', .returned 0 _) => scan skip throws fuel (q'.next p) q'
        | some (q', r) => some (q', r)

def tryDequeue (q : Queue w α) (throws : Bool) (fuel : Nat) : Option (Queue w α × Popped α) :=
  match q.score fuel q.producerListTail ⟨0, none, 0⟩ with
  | none => none
  | some sc =>
      if 0 < sc.nonEmptyCount then
        match sc.best with
        | none => none
        | some best =>
            match q.dequeueFrom best throws with
            | none => none
            | some (q', .returned 0 _) => scan (some best) throws fuel q'.producerListTail q'
            | some (q', r) => some (q', r)
      else some (q, .returned 0 [])

def tryDequeueNonInterleaved (q : Queue w α) (throws : Bool) (fuel : Nat) :
    Option (Queue w α × Popped α) :=
  scan none throws fuel q.producerListTail q

/-- The loop of `try_dequeue_bulk` from `ptr` on. After a chunk the number of the
throwing assignment is counted from its end. -/
def scanBulk (intBits : Nat) (max : BitVec w) : (fuel : Nat) → (ptr : Option Nat) →
    (count : BitVec w) → List α → (throwsAt : Option Nat) → Queue w α →
    Option (Queue w α × Popped α)
  | 0, _, _, _, _, _ => none
  | _ + 1, none, count, out, _, q => some (q, .returned count.toNat out)
  | fuel + 1, some p, count, out, throwsAt, q =>
      match q.dequeueBulkFrom intBits p (max - count) throwsAt with
      | none => none
      | some (q', .threw xs) => some (q', .threw (out ++ xs))
      | some (q', .returned n xs) =>
          let count := count + BitVec.ofNat w n
          if count = max then some (q', .returned count.toNat (out ++ xs))
          else
            scanBulk intBits max fuel (q'.next p) count (out ++ xs)
              (throwsAt.map fun j => j - n) q'

def tryDequeueBulk (intBits : Nat) (q : Queue w α) (max : BitVec w) (throwsAt : Option Nat)
    (fuel : Nat) : Option (Queue w α × Popped α) :=
  scanBulk intBits max fuel q.producerListTail 0 [] throwsAt q

/-! ### With a token -/

/-- The producer after `p`, around the end of the list. -/
def nextOrTail (q : Queue w α) (p : Nat) : Option Nat :=
  Linked.around q.next q.producerListTail p

/-- The loops of `update_current_producer_after_rotation`. -/
def rotate (q : Queue w α) : Nat → Option Nat → Option (Option Nat)
  | 0, desired => some desired
  | _ + 1, none => none
  | n + 1, some p => q.rotate n (q.nextOrTail p)

/-- A remainder by zero is undefined. -/
def remainder (x y : BitVec 32) : Option (BitVec 32) := if y = 0 then none else some (x % y)

/-- The place of a token before the rotation. One that dequeues for the first time
has its offset from the start, and the list is traversed from its end. -/
def place (q : Queue w α) (token : ConsumerToken) : Option (Option Nat) :=
  if token.desiredProducer = none then do
    let offset := q.producerCount - 1 - (← remainder token.initialOffset q.producerCount)
    q.rotate offset.toNat q.producerListTail
  else some token.desiredProducer

/-- How far the token has to move on. -/
def rotation (q : Queue w α) (token : ConsumerToken) : Option (BitVec 32) :=
  let delta := q.globalExplicitConsumerOffset - token.lastKnownGlobalOffset
  if q.producerCount ≤ delta then remainder delta q.producerCount else some delta

/-- The token after the rotation, or `none` where there is no producer. -/
def updateCurrentProducerAfterRotation (q : Queue w α) (token : ConsumerToken) :
    Option (Option ConsumerToken) :=
  if token.desiredProducer = none ∧ q.producerListTail = none then some none
  else do
    let desired ← q.place token
    let delta ← q.rotation token
    let desired ← q.rotate delta.toNat desired
    some (some { token with
      desiredProducer := desired
      lastKnownGlobalOffset := q.globalExplicitConsumerOffset
      currentProducer := desired
      itemsConsumedFromCurrent := 0 })

/-- The token has no place yet, or there has been a rotation. -/
abbrev Rotates (q : Queue w α) (token : ConsumerToken) : Prop :=
  token.desiredProducer = none ∨ token.lastKnownGlobalOffset ≠ q.globalExplicitConsumerOffset

/-- The beginning of the methods with a token. -/
def prepare (q : Queue w α) (token : ConsumerToken) : Option (Option ConsumerToken) :=
  if q.Rotates token then q.updateCurrentProducerAfterRotation token
  else some (some token)

/-- `globalExplicitConsumerOffset.fetch_add(1)`. -/
def rotateAll (q : Queue w α) : Queue w α :=
  { q with globalExplicitConsumerOffset := q.globalExplicitConsumerOffset + 1 }

/-- The loop of `try_dequeue` from `ptr` on. -/
def circle (throws : Bool) (token : ConsumerToken) : (fuel : Nat) → (ptr : Option Nat) →
    Queue w α → Option (Queue w α × ConsumerToken × Popped α)
  | 0, _, _ => none
  | fuel + 1, ptr, q =>
      if ptr = token.currentProducer then some (q, token, .returned 0 [])
      else
        match ptr with
        | none => none
        | some p =>
            match q.dequeueFrom p throws with
            | none => none
            | some (q', .returned 0 _) => circle throws token fuel (q'.nextOrTail p) q'
            | some (q', .threw xs) => some (q', token, .threw xs)
            | some (q', r) =>
                some (q', { token with
                  currentProducer := some p
                  itemsConsumedFromCurrent := 1 }, r)

def tryDequeueToken (quota : BitVec 32) (q : Queue w α) (token : ConsumerToken) (throws : Bool)
    (fuel : Nat) : Option (Queue w α × ConsumerToken × Popped α) :=
  match q.prepare token with
  | none => none
  | some none => some (q, token, .returned 0 [])
  | some (some token) =>
      match token.currentProducer with
      | none => none
      | some current =>
          match q.dequeueFrom current throws with
          | none => none
          | some (q', .returned 0 _) => circle throws token fuel (q'.nextOrTail current) q'
          | some (q', .threw xs) => some (q', token, .threw xs)
          | some (q', r) =>
              let items := token.itemsConsumedFromCurrent + 1
              some (if items = quota then q'.rotateAll else q',
                { token with itemsConsumedFromCurrent := items }, r)

/-- The loop of `try_dequeue_bulk` from `ptr` on; `max` elements are still to come. -/
def circleBulk (intBits : Nat) : (fuel : Nat) → (ptr : Option Nat) → ConsumerToken →
    (max count : BitVec w) → List α → (throwsAt : Option Nat) → Queue w α →
    Option (Queue w α × ConsumerToken × Popped α)
  | 0, _, _, _, _, _, _, _ => none
  | fuel + 1, ptr, token, max, count, out, throwsAt, q =>
      if ptr = token.currentProducer then some (q, token, .returned count.toNat out)
      else
        match ptr with
        | none => none
        | some p =>
            match q.dequeueBulkFrom intBits p max throwsAt with
            | none => none
            | some (q', .threw xs) => some (q', token, .threw (out ++ xs))
            | some (q', .returned n xs) =>
                let dequeued := BitVec.ofNat w n
                let count := count + dequeued
                let token := token.gave p dequeued
                if dequeued = max then some (q', token, .returned count.toNat (out ++ xs))
                else
                  circleBulk intBits fuel (q'.nextOrTail p) token (max - dequeued) count
                    (out ++ xs) (throwsAt.map fun j => j - n) q'

def tryDequeueBulkToken (intBits : Nat) (quota : BitVec 32) (q : Queue w α)
    (token : ConsumerToken) (max : BitVec w) (throwsAt : Option Nat) (fuel : Nat) :
    Option (Queue w α × ConsumerToken × Popped α) :=
  match q.prepare token with
  | none => none
  | some none => some (q, token, .returned 0 [])
  | some (some token) =>
      match token.currentProducer with
      | none => none
      | some current =>
          match q.dequeueBulkFrom intBits current max throwsAt with
          | none => none
          | some (q', .threw xs) => some (q', token, .threw xs)
          | some (q', .returned n xs) =>
              let count := BitVec.ofNat w n
              if count = max then
                let items := token.itemsConsumedFromCurrent + max.setWidth 32
                some (if quota ≤ items then q'.rotateAll else q',
                  { token with itemsConsumedFromCurrent := items }, .returned max.toNat xs)
              else
                circleBulk intBits fuel (q'.nextOrTail current)
                  { token with
                    itemsConsumedFromCurrent :=
                      token.itemsConsumedFromCurrent + count.setWidth 32 }
                  (max - count) count xs (throwsAt.map fun j => j - n) q'

end Queue

end ConcurrentQueue.Search
