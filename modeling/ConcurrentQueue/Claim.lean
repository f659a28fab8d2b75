import ConcurrentQueue.Lib.Interleaving

/-!
# ConcurrentQueue.Claim

The **claim protocol** of a sub-queue (`ProducerBase`): how consumers agree on
who dequeues which index, before any block is looked up. The code is the same
in `ExplicitProducer` and `ImplicitProducer`.

A consumer first adds what it hopes for to `dequeueOptimisticCount`, then
compares the value it saw with `tailIndex`. If its hope was too high it gives
the surplus back through `dequeueOvercommit`; what is left it takes from
`headIndex`. Indices are unbounded here, every load and fetch-add is one step,
and the differences are taken in `ℤ`, as the wrapping comparisons of the code
read them.
-/

namespace ConcurrentQueue.Claim

open Interleaving

/-- The four counters of `ProducerBase`. `claims` is history: the ranges handed
out by `headIndex.fetch_add`, newest first. A call returns what it claimed. -/
structure State where
  tailIndex : Nat
  headIndex : Nat
  dequeueOptimisticCount : Nat
  dequeueOvercommit : Nat
  claims : List (Nat × Nat)
  deriving DecidableEq, Repr

inductive Call
  | dequeue
  | dequeueBulk (max : Nat)
  deriving DecidableEq, Repr

/-- `desiredCount`, given how many elements seem to be available. -/
def Call.desiredCount (available : Nat) : Call → Nat
  | dequeue => 1
  | dequeueBulk max => if available < max then available else max

/-- Program counters of a consumer, with its local variables. A producer does
nothing but publish. -/
inductive PC
  | producer
  | idle
  | loadTail (c : Call)
  | loadOvercommit (c : Call) (tail : Nat)
  | loadCount (c : Call) (tail overcommit : Nat)
  | addCount (c : Call) (overcommit desiredCount : Nat)
  | reloadTail (overcommit desiredCount myDequeueCount : Nat)
  /-- Give the surplus back, then claim `actualCount`. -/
  | refundSome (surplus actualCount : Nat)
  | claim (actualCount : Nat)
  | refundAll (desiredCount : Nat)
  deriving DecidableEq, Repr

/-- The producer publishes `n` more elements, a consumer starts a call, or a
call goes on. -/
inductive Act
  | publish (n : Nat)
  | call (c : Call)
  | run
  deriving DecidableEq, Repr

/-- After the second load of `tailIndex`: how much of the hope is granted. -/
def grant (tail overcommit desiredCount myDequeueCount : Nat) : PC :=
  let actualCount : Int := tail - (myDequeueCount - overcommit)
  if 0 < actualCount then
    let granted := if desiredCount < actualCount then desiredCount else actualCount.toNat
    if granted < desiredCount then .refundSome (desiredCount - granted) granted
    else .claim granted
  else .refundAll desiredCount

/-- One atomic step. -/
def exec {ι : Type*} : Exec ι Act State PC
  | _, .publish n, s, .producer => some ({ s with tailIndex := s.tailIndex + n }, .producer)
  | _, .call c, s, .idle => some (s, .loadTail c)
  | _, .run, s, .loadTail c => some (s, .loadOvercommit c s.tailIndex)
  | _, .run, s, .loadOvercommit c tail => some (s, .loadCount c tail s.dequeueOvercommit)
  | _, .run, s, .loadCount c tail overcommit =>
      let available : Int := tail - (s.dequeueOptimisticCount - overcommit)
      if 0 < available then some (s, .addCount c overcommit (c.desiredCount available.toNat))
      else some (s, .idle)
  | _, .run, s, .addCount _ overcommit desired =>
      some ({ s with dequeueOptimisticCount := s.dequeueOptimisticCount + desired },
        .reloadTail overcommit desired s.dequeueOptimisticCount)
  | _, .run, s, .reloadTail overcommit desired mine =>
      some (s, grant s.tailIndex overcommit desired mine)
  | _, .run, s, .refundSome surplus actual =>
      some ({ s with dequeueOvercommit := s.dequeueOvercommit + surplus }, .claim actual)
  | _, .run, s, .claim actual =>
      some ({ s with
        headIndex := s.headIndex + actual
        claims := (s.headIndex, actual) :: s.claims }, .idle)
  | _, .run, s, .refundAll desired =>
      some ({ s with dequeueOvercommit := s.dequeueOvercommit + desired }, .idle)
  | _, _, _, _ => none

/-- A new sub-queue: all counters zero, the producer and the consumers idle. -/
def Init {ι : Type*} (c : Conf ι State PC) : Prop :=
  c.shared = ⟨0, 0, 0, 0, []⟩ ∧ ∀ i, c.locals i = .idle ∨ c.locals i = .producer

end ConcurrentQueue.Claim
