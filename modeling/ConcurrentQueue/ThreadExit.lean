import ConcurrentQueue.Lib.Interleaving
import ConcurrentQueue.Lib.Linked

/-!
# ConcurrentQueue.ThreadExit

`ThreadExitNotifier` and the destructor of an implicit producer. Each thread has a
list of listeners, one for each queue it has enqueued to; a listener is part of
the implicit producer it stands for and is named by it. When a thread exits it
walks its list under a global mutex and runs every listener's callback, which
marks the producer `inactive`; a producer that is destroyed before that takes its
listener off the list, under the same mutex.

**The destructor skips the mutex when it sees `inactive`**, and the walk still has
to read the listener's `next` then. A walk meets destroyed listeners exactly
because of this: as long as no destructor reads `inactive` while a walk stands
between the callback and the read of `next`, it never does.
-/

namespace ConcurrentQueue.ThreadExit

open Function Interleaving Linked

variable {ι ν : Type*}

structure State (ι ν : Type*) where
  /-- The thread that has the global mutex. -/
  mutex : Option ι
  /-- The notifier of each thread. -/
  tail : ι → Option ν
  next : ν → Option ν
  chain : ν → Option ι
  inactive : ν → Bool
  created : ν → Bool
  /-- The queue of the producer is being destroyed, so that nobody uses it any more. -/
  doomed : ν → Bool
  /-- A call is about to register its thread with the producer. -/
  inUse : ν → Bool
  freed : ν → Bool
  /-- History: the listeners on a thread's list when it began to exit. -/
  atExit : ι → ν → Bool
  /-- History: how often the exit of a thread has run a callback. -/
  called : ι → ν → Nat

inductive PC (ι ν : Type*)
  | idle
  /-- `subscribe`. -/
  | subscribeLock (listener : ν)
  | subscribe (listener : ν)
  /-- `~ThreadExitNotifier`. -/
  | exitLock
  | walk (ptr : Option ν)
  | walkCallback (ptr : ν)
  | walkNext (ptr : ν)
  | gone
  /-- `~ImplicitProducer`. -/
  | loadInactive (producer : ν)
  | unsubscribeLock (producer : ν)
  | unsubscribe (producer : ν)
  | unlink (producer : ν) (tlsInst : ι) (prev ptr : Option ν)
  | free (producer : ν)
  deriving DecidableEq, Repr

inductive Act (ν : Type*)
  /-- A call of `get_or_add_implicit_producer` has got this producer, a new one or one
  that was inactive. -/
  | acquire (producer : ν)
  | exit
  | destroy (producer : ν)
  | run
  deriving DecidableEq, Repr

variable [DecidableEq ι] [DecidableEq ν]

namespace State

def acquire (s : State ι ν) (n : ν) : State ι ν :=
  { s with
    created := update s.created n true
    inactive := update s.inactive n false
    inUse := update s.inUse n true }

/-- The body of `subscribe`, up to the release of the mutex. -/
def subscribe (s : State ι ν) (i : ι) (n : ν) : State ι ν :=
  { s with
    next := update s.next n (s.tail i)
    chain := update s.chain n (some i)
    tail := update s.tail i (some n)
    inUse := update s.inUse n false
    mutex := none }

def beginExit (s : State ι ν) (i : ι) : State ι ν :=
  { s with
    mutex := some i
    atExit := update s.atExit i fun n => decide (s.chain n = some i) }

def clearChain (s : State ι ν) (n : ν) : State ι ν :=
  { s with chain := update s.chain n none }

/-- `implicit_producer_thread_exited`, whose last step marks the producer. -/
def callback (s : State ι ν) (i : ι) (n : ν) : State ι ν :=
  { s with
    inactive := update s.inactive n true
    called := update s.called i (update (s.called i) n (s.called i n + 1)) }

/-- `*prev = ptr->next`; `prev` is the notifier's `tail` where there is no listener
before. The mutex is released. -/
def unlink (s : State ι ν) (t : ι) (prev : Option ν) (ptr : ν) : State ι ν :=
  match prev with
  | none => { s with tail := update s.tail t (s.next ptr), mutex := none }
  | some m => { s with next := update s.next m (s.next ptr), mutex := none }

end State

/-- One step. Under the mutex the steps are those another thread could see. -/
def exec : Exec ι (Act ν) (State ι ν) (PC ι ν)
  | _, .acquire n, s, .idle =>
      if s.doomed n = false ∧ (s.created n = false ∨ s.inactive n = true) then
        some (s.acquire n, .subscribeLock n)
      else none
  | i, .run, s, .subscribeLock n =>
      if s.mutex = none then some ({ s with mutex := some i }, .subscribe n) else none
  | i, .run, s, .subscribe n => some (s.subscribe i n, .idle)
  | _, .exit, s, .idle => some (s, .exitLock)
  | i, .run, s, .exitLock =>
      if s.mutex = none then some (s.beginExit i, .walk (s.tail i)) else none
  | _, .run, s, .walk (some ptr) => some (s.clearChain ptr, .walkCallback ptr)
  | i, .run, s, .walkCallback ptr => some (s.callback i ptr, .walkNext ptr)
  | _, .run, s, .walkNext ptr => some (s, .walk (s.next ptr))
  | _, .run, s, .walk none => some ({ s with mutex := none }, .gone)
  | _, .destroy n, s, .idle =>
      if s.created n = true ∧ s.doomed n = false ∧ s.inUse n = false then
        some ({ s with doomed := update s.doomed n true }, .loadInactive n)
      else none
  | _, .run, s, .loadInactive n =>
      if s.inactive n then some (s, .free n) else some (s, .unsubscribeLock n)
  | i, .run, s, .unsubscribeLock n =>
      if s.mutex = none then some ({ s with mutex := some i }, .unsubscribe n) else none
  | _, .run, s, .unsubscribe n =>
      match s.chain n with
      | none => some ({ s with mutex := none }, .free n)
      | some t => some (s.clearChain n, .unlink n t none (s.tail t))
  | _, .run, s, .unlink n t prev (some ptr) =>
      if ptr = n then some (s.unlink t prev ptr, .free n)
      else some (s, .unlink n t (some ptr) (s.next ptr))
  | _, .run, s, .unlink n _ _ none => some ({ s with mutex := none }, .free n)
  | _, .run, s, .free n => some ({ s with freed := update s.freed n true }, .idle)
  | _, _, _, _ => none

/-- No thread has enqueued yet. -/
def Init (c : Conf ι (State ι ν) (PC ι ν)) : Prop :=
  c.shared.mutex = none ∧ (∀ i, c.shared.tail i = none) ∧ (∀ n, c.shared.chain n = none) ∧
    (∀ n, c.shared.created n = false) ∧ (∀ n, c.shared.inactive n = false) ∧
    (∀ n, c.shared.doomed n = false) ∧ (∀ n, c.shared.inUse n = false) ∧
    (∀ n, c.shared.freed n = false) ∧ (∀ i n, c.shared.called i n = 0) ∧ ∀ i, c.locals i = .idle

/-- The destructor does not read `inactive` while the exit of a thread stands
between that listener's callback and the read of its `next`. -/
def Apart (c : Conf ι (State ι ν) (PC ι ν)) (i : ι) (_ : Act ν) : Prop :=
  ∀ n, c.locals i = .loadInactive n → ∀ t, c.locals t ≠ .walkNext n

end ConcurrentQueue.ThreadExit
