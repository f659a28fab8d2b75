import ConcurrentQueue.Lib.Interleaving
import ConcurrentQueue.Lib.Linked

/-!
# ConcurrentQueue.FreeList

The **lock-free free list** (`FreeList<N>`): a stack of nodes linked through
`freeListNext`. A node carries one word, `freeListRefs`, which holds a
reference count in its low 31 bits and the flag `SHOULD_BE_ON_FREELIST` above
them. Whoever holds a reference may read `freeListNext`; a node whose count is
not zero cannot be put back on the list, and the duty to do so passes to the
thread that brings the count down to zero.

`owner` is history: which thread has the node at its disposal. Only an owner
may call `add`, and `try_get` makes the caller the owner of what it returns.
-/

namespace ConcurrentQueue.FreeList

open Interleaving

def REFS_MASK : Nat := 0x7FFFFFFF

def SHOULD_BE_ON_FREELIST : Nat := 0x80000000

/-- A value stored in a `std::uint32_t`. -/
def u32 (x : Nat) : Nat := x % 2 ^ 32

variable {ν ι : Type*}

structure State (ν ι : Type*) where
  freeListHead : Option ν
  freeListRefs : ν → Nat
  freeListNext : ν → Option ν
  owner : ν → Option ι

/-- Where `add_knowing_refcount_is_zero` returns to: the end of `add`, or the
loop of `try_get` with its variable `head`. -/
inductive Cont (ν : Type*)
  | ret
  | resume (head : Option ν)
  deriving DecidableEq, Repr

inductive PC (ν : Type*)
  | idle
  /-- `add`: the fetch-add of the flag. -/
  | addFlag (node : ν)
  /-- `add_knowing_refcount_is_zero`. -/
  | zeroLoadHead (node : ν) (k : Cont ν)
  | zeroStoreNext (node : ν) (head : Option ν) (k : Cont ν)
  | zeroStoreRefs (node : ν) (head : Option ν) (k : Cont ν)
  | zeroCas (node : ν) (head : Option ν) (k : Cont ν)
  | zeroFetchAdd (node : ν) (head : Option ν) (k : Cont ν)
  /-- `try_get`. -/
  | getLoadHead
  | getLoadRefs (head : ν)
  | getCasRefs (head : ν) (refs : Nat)
  | getLoadNext (head : ν)
  | getCasHead (head : ν) (next : Option ν)
  | getAssert (head : ν)
  | getSubTwo (head : ν)
  | getSubOne (prevHead : ν) (head : Option ν)
  deriving DecidableEq, Repr

inductive Act (ν : Type*)
  | add (node : ν)
  | tryGet
  | run
  deriving DecidableEq, Repr

/-- The loop test of `try_get`. -/
def getLoop : Option ν → PC ν
  | some h => .getLoadRefs h
  | none => .idle

def Cont.pc : Cont ν → PC ν
  | ret => .idle
  | resume head => getLoop head

/-- Store `r` in `node->freeListRefs`. -/
def State.setRefs [DecidableEq ν] (s : State ν ι) (node : ν) (r : Nat) : State ν ι :=
  { s with freeListRefs := Function.update s.freeListRefs node (u32 r) }

/-- One atomic step. -/
def exec [DecidableEq ν] [DecidableEq ι] : Exec ι (Act ν) (State ν ι) (PC ν)
  | i, .add n, s, .idle =>
      if s.owner n = some i then
        some ({ s with owner := Function.update s.owner n none }, .addFlag n)
      else none
  | _, .run, s, .addFlag n =>
      let s' := s.setRefs n (s.freeListRefs n + SHOULD_BE_ON_FREELIST)
      if s.freeListRefs n = 0 then some (s', .zeroLoadHead n .ret) else some (s', .idle)
  | _, .run, s, .zeroLoadHead n k => some (s, .zeroStoreNext n s.freeListHead k)
  | _, .run, s, .zeroStoreNext n head k =>
      some ({ s with freeListNext := Function.update s.freeListNext n head },
        .zeroStoreRefs n head k)
  | _, .run, s, .zeroStoreRefs n head k => some (s.setRefs n 1, .zeroCas n head k)
  | _, .run, s, .zeroCas n head k =>
      if s.freeListHead = head then some ({ s with freeListHead := some n }, k.pc)
      else some (s, .zeroFetchAdd n s.freeListHead k)
  | _, .run, s, .zeroFetchAdd n head k =>
      let s' := s.setRefs n (s.freeListRefs n + (SHOULD_BE_ON_FREELIST - 1))
      if s.freeListRefs n = 1 then some (s', .zeroStoreNext n head k) else some (s', k.pc)
  | _, .tryGet, s, .idle => some (s, .getLoadHead)
  | _, .run, s, .getLoadHead => some (s, getLoop s.freeListHead)
  | _, .run, s, .getLoadRefs h =>
      if s.freeListRefs h &&& REFS_MASK = 0 then some (s, .getLoadHead)
      else some (s, .getCasRefs h (s.freeListRefs h))
  | _, .run, s, .getCasRefs h refs =>
      if s.freeListRefs h = refs then some (s.setRefs h (refs + 1), .getLoadNext h)
      else some (s, .getLoadHead)
  | _, .run, s, .getLoadNext h => some (s, .getCasHead h (s.freeListNext h))
  | _, .run, s, .getCasHead h next =>
      if s.freeListHead = some h then some ({ s with freeListHead := next }, .getAssert h)
      else some (s, .getSubOne h s.freeListHead)
  | _, .run, s, .getAssert h => some (s, .getSubTwo h)
  | i, .run, s, .getSubTwo h =>
      some ({ s.setRefs h (s.freeListRefs h + 2 ^ 32 - 2) with
        owner := Function.update s.owner h (some i) }, .idle)
  | _, .run, s, .getSubOne prevHead head =>
      let s' := s.setRefs prevHead (s.freeListRefs prevHead + 2 ^ 32 - 1)
      if s.freeListRefs prevHead = SHOULD_BE_ON_FREELIST + 1 then
        some (s', .zeroLoadHead prevHead (.resume head))
      else some (s', getLoop head)
  | _, _, _, _ => none

/-- An empty list; every node is at the disposal of some thread. -/
def Init (c : Conf ι (State ν ι) (PC ν)) : Prop :=
  c.shared.freeListHead = none ∧ (∀ n, c.shared.freeListRefs n = 0) ∧
    (∀ n, c.shared.freeListNext n = none) ∧ (∀ n, (c.shared.owner n).isSome) ∧
    ∀ i, c.locals i = .idle

end ConcurrentQueue.FreeList
