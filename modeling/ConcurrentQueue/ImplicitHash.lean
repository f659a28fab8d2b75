import ConcurrentQueue.Lib.Interleaving
import ConcurrentQueue.Lib.Probing

/-!
# ConcurrentQueue.ImplicitHash

The table that maps thread ids to implicit producers, with any number of threads:
`get_or_add_implicit_producer` and `implicit_producer_thread_exited`, each access
to an atomic variable one step.

A table that gets half full is followed by a larger one; the old tables stay and
are searched too, and a thread that is found in an old one is copied to the new one
then. **One counter reserves the slots of all tables.** It is given back when an
insertion finds the slot of a thread that is gone, and this is sound only in the
current table: the reservation of that slot may be in use again in a newer one.
-/

namespace ConcurrentQueue.ImplicitHash

open Function Interleaving

variable {ι : Type*}

/-- The key of a slot: free, left behind by a thread that is gone, or a thread's id. -/
inductive Key (ι : Type*)
  | invalidThreadId
  | invalidThreadId2
  | id (i : ι)
  deriving DecidableEq, Repr

structure ImplicitProducerHash (ι : Type*) where
  capacity : Nat
  key : Nat → Key ι
  value : Nat → Option Nat
  prev : Option Nat

namespace ImplicitProducerHash

/-- A table with free slots only. -/
def empty (capacity : Nat) (prev : Option Nat) : ImplicitProducerHash ι where
  capacity := capacity
  key _ := .invalidThreadId
  value _ := none
  prev := prev

/-- `index &= hash->capacity - 1u`. -/
def slot (hash : ImplicitProducerHash ι) (index : Nat) : Nat := index &&& (hash.capacity - 1)

def setKey (hash : ImplicitProducerHash ι) (k : Nat) (key : Key ι) : ImplicitProducerHash ι :=
  { hash with key := update hash.key k key }

def setValue (hash : ImplicitProducerHash ι) (k : Nat) (value : Option Nat) :
    ImplicitProducerHash ι :=
  { hash with value := update hash.value k value }

def setEntry (hash : ImplicitProducerHash ι) (k : Nat) (key : Key ι) (value : Option Nat) :
    ImplicitProducerHash ι :=
  (hash.setKey k key).setValue k value

end ImplicitProducerHash

/-- The loop that finds the capacity of the next table. Counts and capacities are natural numbers
here, over which `newCount + 1` rounds are enough; `largerCapacity` of `ImplicitMap` has it over
the queue's `size_t`. -/
def newCapacity (newCount : Nat) : (fuel capacity : Nat) → Nat
  | 0, capacity => capacity
  | fuel + 1, capacity =>
      if capacity / 2 ≤ newCount then newCapacity newCount fuel (capacity * 2) else capacity

structure State (ι : Type*) where
  /-- The tables by number. -/
  table : Nat → ImplicitProducerHash ι
  created : Nat
  /-- The current table, `implicitProducerHash`. -/
  implicitProducerHash : Nat
  implicitProducerHashCount : Nat
  resizeInProgress : Bool
  /-- The producer whose listener the thread has subscribed. -/
  listener : ι → Option Nat

inductive PC
  | idle
  /-- The search through the tables, from `mainHash` down. -/
  | lookup (mainHash hash index : Nat)
  /-- The copy of an entry that was found in an older table. -/
  | copyEmpty (mainHash index : Nat) (value : Option Nat)
  | copyReusable (mainHash index : Nat) (value : Option Nat)
  | fetchAdd (mainHash : Nat)
  /-- The attempt to get a larger table. -/
  | testAndSet (mainHash newCount : Nat)
  | loadLocked (newCount : Nat)
  | allocate (mainHash newCount : Nat)
  | allocateSub (newCount : Nat)
  | allocateClear
  | publish (mainHash newCount capacity : Nat)
  | clear (mainHash newCount : Nat)
  /-- The insertion. -/
  | recycle (mainHash newCount : Nat)
  | recycleSub (newCount : Nat)
  | insertReusable (mainHash newCount index producer : Nat)
  | insertEmpty (mainHash newCount index producer : Nat)
  | refund (mainHash newCount index producer : Nat)
  | reload (newCount : Nat)
  /-- `implicit_producer_thread_exited`. -/
  | exitScan (hash index producer : Nat)
  | release (producer : Nat)
  deriving DecidableEq, Repr

inductive Act
  /-- A call of `get_or_add_implicit_producer`. -/
  | call
  | exit
  | run
  /-- The outcome of `malloc`, and of `recycle_or_create_producer`. -/
  | malloc (success : Bool)
  | producer (result : Option Nat)
  deriving DecidableEq, Repr

namespace State

def capacity (s : State ι) (hash : Nat) : Nat := (s.table hash).capacity

def key (s : State ι) (hash k : Nat) : Key ι := (s.table hash).key k

def setKey (s : State ι) (hash k : Nat) (key : Key ι) : State ι :=
  { s with table := update s.table hash ((s.table hash).setKey k key) }

def setValue (s : State ι) (hash k : Nat) (value : Option Nat) : State ι :=
  { s with table := update s.table hash ((s.table hash).setValue k value) }

def setEntry (s : State ι) (hash k : Nat) (key : Key ι) (value : Option Nat) : State ι :=
  { s with table := update s.table hash ((s.table hash).setEntry k key value) }

/-- `fetch_add` and `fetch_sub` on `implicitProducerHashCount`. -/
def addCount (s : State ι) : State ι :=
  { s with implicitProducerHashCount := s.implicitProducerHashCount + 1 }

def subCount (s : State ι) : State ι :=
  { s with implicitProducerHashCount := s.implicitProducerHashCount - 1 }

def setResize (s : State ι) (b : Bool) : State ι := { s with resizeInProgress := b }

/-- A new table is filled in and becomes the current one. -/
def publish (s : State ι) (mainHash capacity : Nat) : State ι :=
  { s with
    table := update s.table s.created (.empty capacity (some mainHash))
    created := s.created + 1
    implicitProducerHash := s.created }

def setListener [DecidableEq ι] (s : State ι) (i : ι) (producer : Option Nat) : State ι :=
  { s with listener := update s.listener i producer }

/-- The test whether the table is less than three quarters full. -/
def tryInsert (s : State ι) (mainHash newCount : Nat) : PC :=
  if newCount < s.capacity mainHash / 2 + s.capacity mainHash / 4 then .recycle mainHash newCount
  else .reload newCount

/-- The head of the insertion loop. -/
def insertLoop (s : State ι) (mainHash newCount : Nat) : PC :=
  if s.capacity mainHash / 2 ≤ newCount then .testAndSet mainHash newCount
  else s.tryInsert mainHash newCount

/-- The step from a table to the one before it. -/
def nextLookup (s : State ι) (mainHash hash hashedId : Nat) : PC :=
  match (s.table hash).prev with
  | some prev => .lookup mainHash prev hashedId
  | none => .fetchAdd mainHash

def nextExit (s : State ι) (hash hashedId producer : Nat) : PC :=
  match (s.table hash).prev with
  | some prev => .exitScan prev hashedId producer
  | none => .release producer

end State

variable [DecidableEq ι] (hashThreadId : ι → Nat)

/-- One step. A value is only read by the thread whose key stands beside it, so it is
written together with the access before. -/
def exec : Exec ι Act (State ι) PC
  | i, .call, s, .idle =>
      some (s, .lookup s.implicitProducerHash s.implicitProducerHash (hashThreadId i))
  | i, .run, s, .lookup mainHash hash index =>
      let k := (s.table hash).slot index
      match s.key hash k with
      | .id j =>
          if j = i then
            if hash = mainHash then some (s, .idle)
            else some (s, .copyEmpty mainHash (hashThreadId i) ((s.table hash).value k))
          else some (s, .lookup mainHash hash (k + 1))
      | .invalidThreadId2 => some (s, .lookup mainHash hash (k + 1))
      | .invalidThreadId => some (s, s.nextLookup mainHash hash (hashThreadId i))
  | i, .run, s, .copyEmpty mainHash index value =>
      let k := (s.table mainHash).slot index
      if s.key mainHash k = .invalidThreadId then
        some (s.setEntry mainHash k (.id i) value, .idle)
      else some (s, .copyReusable mainHash index value)
  | i, .run, s, .copyReusable mainHash index value =>
      let k := (s.table mainHash).slot index
      if s.key mainHash k = .invalidThreadId2 then
        some (s.setEntry mainHash k (.id i) value, .idle)
      else some (s, .copyEmpty mainHash (k + 1) value)
  | _, .run, s, .fetchAdd mainHash =>
      some (s.addCount, s.insertLoop mainHash (1 + s.implicitProducerHashCount))
  | _, .run, s, .testAndSet mainHash newCount =>
      if s.resizeInProgress then some (s, s.tryInsert mainHash newCount)
      else some (s.setResize true, .loadLocked newCount)
  | _, .run, s, .loadLocked newCount =>
      if s.capacity s.implicitProducerHash / 2 ≤ newCount then
        some (s, .allocate s.implicitProducerHash newCount)
      else some (s, .clear s.implicitProducerHash newCount)
  | _, .malloc success, s, .allocate mainHash newCount =>
      if success then
        some (s, .publish mainHash newCount
          (newCapacity newCount (newCount + 1) (s.capacity mainHash * 2)))
      else some (s, .allocateSub newCount)
  | _, .run, s, .allocateSub _ => some (s.subCount, .allocateClear)
  | _, .run, s, .allocateClear => some (s.setResize false, .idle)
  | _, .run, s, .publish mainHash newCount capacity =>
      some (s.publish mainHash capacity, .clear s.created newCount)
  | _, .run, s, .clear mainHash newCount =>
      some (s.setResize false, s.tryInsert mainHash newCount)
  | i, .producer result, s, .recycle mainHash newCount =>
      match result with
      | some producer =>
          some (s.setListener i producer,
            .insertReusable mainHash newCount (hashThreadId i) producer)
      | none => some (s, .recycleSub newCount)
  | _, .run, s, .recycleSub _ => some (s.subCount, .idle)
  | i, .run, s, .insertReusable mainHash newCount index producer =>
      let k := (s.table mainHash).slot index
      if s.key mainHash k = .invalidThreadId2 then
        some (s.setKey mainHash k (.id i), .refund mainHash newCount k producer)
      else some (s, .insertEmpty mainHash newCount index producer)
  | _, .run, s, .refund mainHash _ k producer =>
      some (s.subCount.setValue mainHash k producer, .idle)
  | i, .run, s, .insertEmpty mainHash newCount index producer =>
      let k := (s.table mainHash).slot index
      if s.key mainHash k = .invalidThreadId then
        some (s.setEntry mainHash k (.id i) producer, .idle)
      else some (s, .insertReusable mainHash newCount (k + 1) producer)
  | _, .run, s, .reload newCount => some (s, s.insertLoop s.implicitProducerHash newCount)
  | i, .exit, s, .idle =>
      match s.listener i with
      | some producer => some (s, .exitScan s.implicitProducerHash (hashThreadId i) producer)
      | none => none
  | i, .run, s, .exitScan hash index producer =>
      let k := (s.table hash).slot index
      if s.key hash k = .id i then
        some (s.setKey hash k .invalidThreadId2, s.nextExit hash (hashThreadId i) producer)
      else if s.key hash k = .invalidThreadId then
        some (s, s.nextExit hash (hashThreadId i) producer)
      else some (s, .exitScan hash (k + 1) producer)
  | i, .run, s, .release _ => some (s.setListener i none, .idle)
  | _, _, _, _ => none

/-- The initial table alone, with free slots only. -/
def Init (c : Conf ι (State ι) PC) : Prop :=
  (∃ e, c.shared.table 0 = .empty (2 ^ e) none) ∧ c.shared.created = 1 ∧
    c.shared.implicitProducerHash = 0 ∧ c.shared.implicitProducerHashCount = 0 ∧
    c.shared.resizeInProgress = false ∧ (∀ h k, c.shared.key h k = .invalidThreadId) ∧
    (∀ i, c.shared.listener i = none) ∧ ∀ i, c.locals i = .idle

/-- The tables a search can come to. -/
inductive InChain (s : State ι) : Nat → Prop
  | main : InChain s s.implicitProducerHash
  | prev {hash p} : InChain s hash → (s.table hash).prev = some p → InChain s p

/-- An insertion takes over the slot of a thread that is gone only in the current
table. -/
def PC.ReusesCurrent (s : State ι) : PC → Prop
  | .insertReusable mainHash _ index _ =>
      s.key mainHash ((s.table mainHash).slot index) = .invalidThreadId2 →
        mainHash = s.implicitProducerHash
  | _ => True

def ReusesCurrent (c : Conf ι (State ι) PC) (i : ι) (_ : Act) : Prop :=
  (c.locals i).ReusesCurrent c.shared

instance (c : Conf ι (State ι) PC) (i : ι) (a : Act) : Decidable (ReusesCurrent c i a) := by
  unfold ReusesCurrent
  cases c.locals i <;>
    first
    | exact isTrue trivial
    | exact inferInstanceAs (Decidable (_ → _))

end ConcurrentQueue.ImplicitHash
