import ConcurrentQueue.Lib.Interleaving

/-!
# ConcurrentQueue.Semaphore

The **lightweight semaphore** (`lightweightsemaphore.h`): an atomic count in
front of an OS semaphore. `m_count` may be negative, in which case its absolute
value is the number of threads that have taken out a permit that does not exist
yet and are (about to be) asleep in `m_sema`.

Every load, fetch-add, fetch-sub, compare-exchange and every operation on the
OS semaphore is one step of `exec`. The OS semaphore is a counter whose
`wait`, `timed_wait` and `try_wait` may also return `false` at any time; its
`signal(count)` is the loop of single posts of the POSIX version. `m_count` has
the width of `ssize_t` and wraps; the number of posts goes through a cast to
`int`, as in the source.
-/

namespace ConcurrentQueue.Semaphore

open Interleaving

/-- The two integer widths the code depends on. -/
structure Platform where
  /-- Width of `ssize_t`. -/
  ssizeBits : Nat
  /-- Width of `int`. -/
  intBits : Nat
  intBits_pos : 0 < intBits
  int_le_ssize : intBits ≤ ssizeBits

namespace Platform

/-- The usual 64-bit platform. -/
def lp64 : Platform := ⟨64, 32, by decide, by decide⟩

/-- A value stored in an `ssize_t`. -/
def ssize (p : Platform) (x : Int) : Int := x.bmod (2 ^ p.ssizeBits)

/-- `static_cast<int>`. -/
def int (p : Platform) (x : Int) : Int := x.bmod (2 ^ p.intBits)

end Platform

/-! ### Calls and program counters -/

/-- The public calls. `wait()` is `wait(-1)`: both run
`waitWithPartialSpinning`, whose timeout defaults to `-1`. -/
inductive Call
  | signal (count : Nat)
  | tryWait
  | wait (timeoutUsecs : Int)
  | tryWaitMany (max : Nat)
  | waitMany (max : Nat) (timeoutUsecs : Int)
  deriving DecidableEq, Repr

namespace Call

/-- The most permits the call may acquire. -/
def max : Call → Nat
  | signal _ => 0
  | tryWait => 1
  | wait _ => 1
  | tryWaitMany m => m
  | waitMany m _ => m

/-- `newCount`: what a compare-exchange of this call leaves of `oldCount`. -/
def newCount (oldCount : Int) : Call → Int
  | tryWaitMany m => if oldCount > m then oldCount - m else 0
  | waitMany m _ => if oldCount > m then oldCount - m else 0
  | _ => oldCount - 1

/-- The call goes on to the spinning phase when its first `tryWait` or
`tryWaitMany` got nothing. -/
def spins : Call → Bool
  | wait _ => true
  | waitMany m _ => decide (0 < m)
  | _ => false

def timeoutUsecs : Call → Int
  | wait t => t
  | waitMany _ t => t
  | _ => 0

/-- The greedy `tryWaitMany(max - 1)` of a `waitMany` that has one permit. -/
def more : Call → Call
  | waitMany m _ => .tryWaitMany (m - 1)
  | c => c

end Call

/-- Program counters, with the local variables live there. `c` is the call the
thread is executing. -/
inductive PC
  | idle
  /-- `tryWait`, `tryWaitMany`: the load. -/
  | tryLoad (c : Call)
  /-- `tryWait`, `tryWaitMany`: the weak compare-exchange of the loop. -/
  | tryCas (c : Call) (oldCount : Int)
  /-- Spinning phase, `spin` rounds left: the load. -/
  | spinLoad (c : Call) (spin : Nat)
  | spinCas (c : Call) (spin : Nat) (oldCount : Int)
  /-- `m_count.fetch_sub(1)`. -/
  | fetchSub (c : Call)
  /-- Inside `m_sema.wait()` or `m_sema.timed_wait(..)`. -/
  | semaWait (c : Call)
  /-- The loop after a timeout: load, then `try_wait` or compare-exchange. -/
  | undoLoad (c : Call)
  | undoTryWait (c : Call)
  | undoCas (c : Call) (oldCount : Int)
  /-- `tryWaitMany(max - 1)` of `waitManyWithPartialSpinning`, one permit in
  hand. -/
  | moreLoad (c : Call)
  | moreCas (c : Call) (oldCount : Int)
  | fetchAdd (count : Nat)
  /-- The loop of `m_sema.signal(..)`, `left` posts to go. -/
  | post (count : Nat) (left : Nat)
  deriving DecidableEq, Repr

/-- Where a call starts. -/
def Call.start : Call → PC
  | signal n => .fetchAdd n
  | c => .tryLoad c

/-- The semaphore, with the history the properties speak about: the permits
signalled so far and the calls that have returned, with what they acquired. -/
structure State where
  mCount : Int
  sema : Nat
  signalled : Nat
  returned : List (Call × Int)
  deriving DecidableEq, Repr

/-- What the environment decides at a step: a call to start, or whether an
operation that may fail for no reason does so. -/
inductive Act
  | call (c : Call)
  | run
  | fail
  deriving DecidableEq, Repr

/-! ### The code -/

/-- Return `r` permits from call `c`. -/
def State.ret (s : State) (c : Call) (r : Int) : State × PC :=
  ({ s with returned := (c, r) :: s.returned }, .idle)

/-- After the first attempt failed: return zero, or start spinning. -/
def afterTry (maxSpins : Nat) (c : Call) (s : State) : State × PC :=
  if c.spins then (s, .spinLoad c maxSpins) else s.ret c 0

/-- One permit is in hand: `wait` returns, `waitMany` grabs more. -/
def gotOne (c : Call) (s : State) : State × PC :=
  match c with
  | .waitMany m _ => if m > 1 then (s, .moreLoad c) else s.ret c 1
  | _ => s.ret c 1

/-- The decrement found no permit, so the call has to wait for one. -/
def afterFetchSub (c : Call) (s : State) : State × PC :=
  if c.timeoutUsecs = 0 then (s, .undoLoad c) else (s, .semaWait c)

/-- `toRelease` in `signal`. -/
def toRelease (p : Platform) (oldCount : Int) (count : Nat) : Int :=
  if p.ssize (-oldCount) < count then p.ssize (-oldCount) else count

/-- The posts `signal` makes: `m_sema.signal(static_cast<int>(toRelease))`. -/
def posts (p : Platform) (oldCount : Int) (count : Nat) : Nat :=
  if toRelease p oldCount count > 0 then (p.int (toRelease p oldCount count)).toNat else 0

/-- One atomic step. -/
def exec {ι : Type*} (p : Platform) (maxSpins : Nat) : Exec ι Act State PC
  | _, .call c, s, .idle => some (s, c.start)
  | _, .run, s, .tryLoad c =>
      if s.mCount > 0 then some (s, .tryCas c s.mCount) else some (afterTry maxSpins c s)
  | _, .run, s, .tryCas c old =>
      if s.mCount = old then
        some ({ s with mCount := c.newCount old }.ret c (old - c.newCount old))
      else if s.mCount > 0 then some (s, .tryCas c s.mCount)
      else some (afterTry maxSpins c s)
  | _, .fail, s, .tryCas c _ =>
      if s.mCount > 0 then some (s, .tryCas c s.mCount) else some (afterTry maxSpins c s)
  | _, .run, s, .spinLoad c 0 => some (s, .fetchSub c)
  | _, .run, s, .spinLoad c (n + 1) =>
      if s.mCount > 0 then some (s, .spinCas c n s.mCount) else some (s, .spinLoad c n)
  | _, .run, s, .spinCas c n old =>
      if s.mCount = old then
        some ({ s with mCount := c.newCount old }.ret c (old - c.newCount old))
      else some (s, .spinLoad c n)
  | _, .run, s, .fetchSub c =>
      if s.mCount > 0 then some (gotOne c { s with mCount := p.ssize (s.mCount - 1) })
      else some (afterFetchSub c { s with mCount := p.ssize (s.mCount - 1) })
  | _, .run, s, .semaWait c =>
      if s.sema > 0 then some (gotOne c { s with sema := s.sema - 1 }) else none
  | _, .fail, s, .semaWait c => some (s, .undoLoad c)
  | _, .run, s, .undoLoad c =>
      if s.mCount ≥ 0 then some (s, .undoTryWait c) else some (s, .undoCas c s.mCount)
  | _, .run, s, .undoTryWait c =>
      if s.sema > 0 then some (gotOne c { s with sema := s.sema - 1 }) else some (s, .undoLoad c)
  | _, .fail, s, .undoTryWait c => some (s, .undoLoad c)
  | _, .run, s, .undoCas c old =>
      if s.mCount = old then some ({ s with mCount := p.ssize (old + 1) }.ret c 0)
      else some (s, .undoLoad c)
  | _, .run, s, .moreLoad c =>
      if s.mCount > 0 then some (s, .moreCas c s.mCount) else some (s.ret c 1)
  | _, .run, s, .moreCas c old =>
      if s.mCount = old then
        some ({ s with mCount := c.more.newCount old }.ret c (1 + (old - c.more.newCount old)))
      else if s.mCount > 0 then some (s, .moreCas c s.mCount)
      else some (s.ret c 1)
  | _, .fail, s, .moreCas c _ =>
      if s.mCount > 0 then some (s, .moreCas c s.mCount) else some (s.ret c 1)
  | _, .run, s, .fetchAdd n =>
      some ({ s with mCount := p.ssize (s.mCount + n), signalled := s.signalled + n },
        .post n (posts p s.mCount n))
  | _, .run, s, .post n 0 => some (s.ret (.signal n) 0)
  | _, .run, s, .post n (k + 1) => some ({ s with sema := s.sema + 1 }, .post n k)
  | _, _, _, _ => none

/-- A fresh semaphore: nobody has called anything yet. -/
def Init {ι : Type*} (initialCount : Nat) (c : Conf ι State PC) : Prop :=
  c.shared = ⟨initialCount, 0, 0, []⟩ ∧ ∀ i, c.locals i = .idle

end ConcurrentQueue.Semaphore
