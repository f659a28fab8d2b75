import ConcurrentQueue.Pool

/-!
# ConcurrentQueue.Elements

What the two kinds of producers have in common: the calls and their outcomes,
the test that a sub-queue is full, and the loops that construct, move out and
destroy elements block by block. `none` as the result of an operation stands
for a failed assertion or undefined behaviour: a null access, a construction
over an object, the destruction of raw memory, or a loop that does not end.
-/

namespace ConcurrentQueue

open Option (bind_eq_bind bind_eq_some_iff)

variable {α : Type}

/-! ### Calls -/

/-- How the element constructors of a call behave: they are `noexcept`, or they
may throw, and then the one for element `throwsAt` does. -/
structure Ctor where
  isNoexcept : Bool
  throwsAt : Option Nat
  deriving DecidableEq, Repr

def Ctor.throws (c : Ctor) (k : Nat) : Bool := !c.isNoexcept && c.throwsAt == some k

/-- The elements of a call up to the first whose constructor throws. -/
theorem Ctor.exists_stop (c : Ctor) (n : Nat) :
    ∃ m ≤ n, (∀ j < m, c.throws j = false) ∧ (m = n ∨ c.throws m = true) := by
  induction n with
  | zero => exact ⟨0, le_rfl, nofun, .inl rfl⟩
  | succ n ih =>
      obtain ⟨m, hm, hquiet, rfl | hthrow⟩ := ih
      · cases hlast : c.throws m with
        | true => exact ⟨m, Nat.le_succ m, hquiet, .inr hlast⟩
        | false =>
            refine ⟨m + 1, le_rfl, fun j hj => ?_, .inl rfl⟩
            rcases Nat.lt_succ_iff_lt_or_eq.mp hj with hlt | rfl
            · exact hquiet j hlt
            · exact hlast
      · exact ⟨m, hm.trans (Nat.le_succ n), hquiet, .inr hthrow⟩

/-- What an enqueue call does. -/
inductive Pushed
  | returned (ok : Bool)
  | threw
  deriving DecidableEq, Repr

/-- What a dequeue call does: the values it delivers, and the number it returns
(`true` being one) unless an assignment threw after these. -/
inductive Popped (α : Type)
  | returned (count : Nat) (delivered : List α)
  | threw (delivered : List α)
  deriving DecidableEq, Repr

/-- A call of one of a producer's operations. -/
inductive Call (w : Nat) (α : Type)
  | enqueue (mode : AllocationMode) (ctor : Ctor) (x : α)
  | enqueueBulk (mode : AllocationMode) (ctor : Ctor) (xs : List α)
  | dequeue (throws : Bool)
  | dequeueBulk (max : BitVec w) (throwsAt : Option Nat)

inductive Outcome (α : Type)
  | pushed (r : Pushed)
  | popped (r : Popped α)
  deriving DecidableEq, Repr

variable (e : Env)

/-- There is not enough leeway for another block, or the size limit is reached. -/
def full (head currentTailIndex : BitVec e.bits) : Bool :=
  !circularLessThan head (currentTailIndex + e.blockSize) ||
    (e.MAX_SUBQUEUE_SIZE != e.sizeMax &&
      (e.MAX_SUBQUEUE_SIZE == 0#e.bits ||
        decide (e.MAX_SUBQUEUE_SIZE - e.blockSize < currentTailIndex - head)))

/-- The index range fits in front of the tail's block, so that the number of blocks that `n`
elements need does not wrap around. -/
def Fits (tailIndex : BitVec e.bits) (n : Nat) : Prop :=
  e.offset (tailIndex - 1#e.bits) + n < 2 ^ e.bits

/-- Calls that are certain to return. The size of a bulk call must not make the number of its
blocks wrap. -/
def Sized (tailIndex : BitVec e.bits) (c : Call e.bits α) : Prop :=
  match c with
  | .enqueueBulk _ _ xs =>
      Fits e tailIndex xs.length ∧ (xs = [] → e.BLOCK_SIZE < 2 ^ (e.bits - 1))
  | .enqueue .. | .dequeue _ | .dequeueBulk .. => True

instance (tailIndex : BitVec e.bits) (c : Call e.bits α) : Decidable (Sized e tailIndex c) :=
  match c with
  | .enqueueBulk _ _ _ => inferInstanceAs (Decidable (_ < _ ∧ _))
  | .enqueue .. | .dequeue _ | .dequeueBulk .. => inferInstanceAs (Decidable True)

/-! ### Constructing -/

/-- Placement new in block `b`. -/
def constructAt (b : Option Nat) (i : BitVec e.bits) (x : α) (mem : Mem α) : Option (Mem α) := do
  let b ← b
  mem.tryModify b (Block.construct e.toTraits i x)

/-- Construct elements in the tail block, the first of them being number `k` of
the call; whether a constructor threw. -/
def fillBlock (ctor : Ctor) (tailBlock : Option Nat) : Nat → BitVec e.bits → Nat → List α →
    Mem α → Option (BitVec e.bits × Nat × List α × Mem α × Bool)
  | 0, i, k, xs, mem => some (i, k, xs, mem, false)
  | _ + 1, _, _, [], _ => none
  | n + 1, i, k, x :: xs, mem =>
      if ctor.throws k then some (i, k, x :: xs, mem, true)
      else do
        let mem ← constructAt e tailBlock i x mem
        fillBlock ctor tailBlock n (i + 1#e.bits) (k + 1) xs mem

/-- Where filling or clearing stops in the block of `i`. -/
def stopIndex (i last : BitVec e.bits) : BitVec e.bits :=
  let stop := e.blockBase i + e.blockSize
  if circularLessThan last stop then last else stop

/-- Enqueue, one block at a time, up to `endBlock`. Returns the index and the
tail block reached, and whether a constructor threw. -/
def fillBlocks (ctor : Ctor) (newTailIndex : BitVec e.bits) (endBlock : Option Nat) :
    Nat → Option Nat → BitVec e.bits → Nat → List α → Mem α →
      Option (BitVec e.bits × Option Nat × Mem α × Bool)
  | 0, _, _, _, _, _ => none
  | fuel + 1, tailBlock, i, k, xs, mem => do
      let (i, k, xs, mem, threw) ←
        fillBlock e ctor tailBlock (stopIndex e i newTailIndex - i).toNat i k xs mem
      if threw then some (i, tailBlock, mem, true)
      else if tailBlock = endBlock then
        if i = newTailIndex then some (i, tailBlock, mem, false) else none
      else do
        let tb ← tailBlock
        fillBlocks ctor newTailIndex endBlock fuel (mem.blocks tb).next i k xs mem

/-! ### Destroying -/

/-- Destroy the objects in `n` slots of block `b` from index `i` on. -/
def destroyRange (b : Nat) : Nat → BitVec e.bits → Mem α → Option (List α × Mem α)
  | 0, _, mem => some ([], mem)
  | n + 1, i, mem => do
      let (x, b') ← (mem.blocks b).destroyAt e.toTraits i
      let (xs, mem) ← destroyRange b n (i + 1#e.bits) (mem.setBlock b b')
      some (x :: xs, mem)

/-- The catch block's loop in a bulk enqueue: destroy the elements up to
`constructedStopIndex`. -/
def undoBlocks (constructedStopIndex : BitVec e.bits) (lastBlockEnqueued : Option Nat) :
    Nat → BitVec e.bits → Option Nat → Mem α → Option (Mem α)
  | 0, _, _, _ => none
  | fuel + 1, i, block, mem => do
      let b ← block
      let stop := stopIndex e i constructedStopIndex
      let (_, mem) ← destroyRange e b (stop - i).toNat i mem
      if block = lastBlockEnqueued then some mem
      else undoBlocks constructedStopIndex lastBlockEnqueued fuel stop (mem.blocks b).next mem

/-- Move elements out of block `b`, the first of them being number `k` of the
call. Returns the index reached, the values delivered, and whether an assignment
threw; the element it threw for is still there then. -/
def moveOut (throwsAt : Option Nat) (b : Nat) : Nat → BitVec e.bits → Nat → Mem α →
    Option (BitVec e.bits × List α × Mem α × Bool)
  | 0, i, _, mem => some (i, [], mem, false)
  | n + 1, i, k, mem =>
      if throwsAt = some k then
        match (mem.blocks b).elements (e.offset i) with
        | some _ => some (i, [], mem, true)
        | none => none
      else do
        let (x, b') ← (mem.blocks b).destroyAt e.toTraits i
        let (i, xs, mem, threw) ← moveOut throwsAt b n (i + 1#e.bits) (k + 1) (mem.setBlock b b')
        some (i, x :: xs, mem, threw)

/-! ### What constructing and destroying leave alone -/

/-- `mem'` differs from `mem` in the contents of blocks only. -/
def OnlyContents (mem mem' : Mem α) : Prop := ∃ f, mem' = { mem with blocks := f }

namespace OnlyContents

variable {e} {mem mem' mem'' : Mem α}

theorem refl (mem : Mem α) : OnlyContents mem mem := ⟨mem.blocks, rfl⟩

theorem trans (h : OnlyContents mem mem') (h' : OnlyContents mem' mem'') :
    OnlyContents mem mem'' := by
  obtain ⟨f, rfl⟩ := h
  obtain ⟨f', rfl⟩ := h'
  exact ⟨f', rfl⟩

theorem constructAt {b : Option Nat} {i : BitVec e.bits} {x : α}
    (h : constructAt e b i x mem = some mem') : OnlyContents mem mem' := by
  rw [ConcurrentQueue.constructAt, bind_eq_bind, bind_eq_some_iff] at h
  obtain ⟨b, -, h⟩ := h
  obtain ⟨b', -, rfl⟩ := Option.map_eq_some_iff.mp h
  exact ⟨_, rfl⟩

theorem fillBlock {ctor : Ctor} {tailBlock : Option Nat} {n : Nat} {i i' : BitVec e.bits}
    {k k' : Nat} {xs xs' : List α} {threw : Bool}
    (h : fillBlock e ctor tailBlock n i k xs mem = some (i', k', xs', mem', threw)) :
    OnlyContents mem mem' := by
  induction n generalizing i k xs mem with
  | zero =>
      obtain ⟨-, -, -, rfl, -⟩ := by simpa [ConcurrentQueue.fillBlock] using h
      exact refl _
  | succ n ih =>
      cases xs with
      | nil => cases h
      | cons x xs =>
          rw [ConcurrentQueue.fillBlock] at h
          split at h
          · obtain ⟨-, -, -, rfl, -⟩ := by simpa using h
            exact refl _
          · rw [bind_eq_bind, bind_eq_some_iff] at h
            obtain ⟨mem₁, hcons, hrest⟩ := h
            exact (constructAt hcons).trans (ih hrest)

theorem fillBlocks {ctor : Ctor} {last : BitVec e.bits} {endBlock : Option Nat} {fuel : Nat}
    {i i' : BitVec e.bits} {k : Nat} {xs : List α} {tailBlock tailBlock' : Option Nat}
    {threw : Bool} (h : fillBlocks e ctor last endBlock fuel tailBlock i k xs mem =
      some (i', tailBlock', mem', threw)) : OnlyContents mem mem' := by
  induction fuel generalizing tailBlock i k xs mem with
  | zero => cases h
  | succ fuel ih =>
      rw [ConcurrentQueue.fillBlocks, bind_eq_bind, bind_eq_some_iff] at h
      obtain ⟨⟨i₁, k₁, xs₁, mem₁, threw₁⟩, hfill, h⟩ := h
      refine trans (fillBlock hfill) ?_
      dsimp only at h
      split at h
      · obtain ⟨-, -, rfl, -⟩ := by simpa using h
        exact refl _
      · split at h
        · split at h
          · obtain ⟨-, -, rfl, -⟩ := by simpa using h
            exact refl _
          · cases h
        · rw [bind_eq_bind, bind_eq_some_iff] at h
          obtain ⟨tb, -, h⟩ := h
          exact ih h

end OnlyContents

/-- `mem'` differs from `mem` in elements of block `b` only. -/
def OnlyElements (b : Nat) (mem mem' : Mem α) : Prop :=
  ∃ f, mem' = mem.setBlock b { mem.blocks b with elements := f } ∧
    ∀ i, e.BLOCK_SIZE ≤ i → f i = (mem.blocks b).elements i

namespace OnlyElements

variable {e} {b : Nat} {mem mem' mem'' : Mem α}

theorem refl (mem : Mem α) : OnlyElements e b mem mem := by
  refine ⟨(mem.blocks b).elements, ?_, fun _ _ => rfl⟩
  rw [Mem.setBlock, Function.update_eq_self]

theorem trans (h : OnlyElements e b mem mem') (h' : OnlyElements e b mem' mem'') :
    OnlyElements e b mem mem'' := by
  obtain ⟨f, rfl, hf⟩ := h
  obtain ⟨f', rfl, hf'⟩ := h'
  simp only [Mem.blocks_setBlock, Function.update_self] at hf' ⊢
  exact ⟨f', Mem.setBlock_setBlock .., fun i hi => (hf' i hi).trans (hf i hi)⟩

theorem setElement (i : BitVec e.bits) (x : Option α) :
    OnlyElements e b mem (mem.setBlock b ((mem.blocks b).setElement (e.offset i) x)) := by
  refine ⟨_, rfl, fun j hj => Function.update_of_ne ?_ ..⟩
  have := e.offset_lt i
  omega

theorem constructAt {i : BitVec e.bits} {x : α} (h : constructAt e (some b) i x mem = some mem') :
    OnlyElements e b mem mem' := by
  simp only [ConcurrentQueue.constructAt, bind_eq_bind, Option.bind_some, Mem.tryModify,
    Option.map_eq_some_iff, Block.construct] at h
  obtain ⟨b', hb', rfl⟩ := h
  split at hb'
  · obtain rfl := Option.some.inj hb'
    exact setElement i _
  · cases hb'

theorem fillBlock {ctor : Ctor} {n : Nat} {i i' : BitVec e.bits} {k k' : Nat}
    {xs xs' : List α} {threw : Bool} {mem mem' : Mem α}
    (h : fillBlock e ctor (some b) n i k xs mem = some (i', k', xs', mem', threw)) :
    OnlyElements e b mem mem' := by
  induction n generalizing i k xs mem with
  | zero =>
      obtain ⟨-, -, -, rfl, -⟩ := by simpa [ConcurrentQueue.fillBlock] using h
      exact refl _
  | succ n ih =>
      cases xs with
      | nil => cases h
      | cons x xs =>
          rw [ConcurrentQueue.fillBlock] at h
          split at h
          · obtain ⟨-, -, -, rfl, -⟩ := by simpa using h
            exact refl _
          · rw [bind_eq_bind, bind_eq_some_iff] at h
            obtain ⟨mem₁, hcons, hrest⟩ := h
            exact trans (constructAt hcons) (ih hrest)

theorem destroyAt {i : BitVec e.bits} {x : α} {b' : Block α}
    (h : (mem.blocks b).destroyAt e.toTraits i = some (x, b')) :
    OnlyElements e b mem (mem.setBlock b b') := by
  unfold Block.destroyAt at h
  split at h
  · cases h
    exact setElement i none
  · cases h

theorem destroyRange {n : Nat} {i : BitVec e.bits} {xs : List α} {mem mem' : Mem α}
    (h : destroyRange e b n i mem = some (xs, mem')) : OnlyElements e b mem mem' := by
  induction n generalizing i xs mem with
  | zero =>
      obtain ⟨-, rfl⟩ := by simpa [ConcurrentQueue.destroyRange] using h
      exact refl _
  | succ n ih =>
      rw [ConcurrentQueue.destroyRange, bind_eq_bind, bind_eq_some_iff] at h
      obtain ⟨⟨x, b'⟩, hdestroy, h⟩ := h
      rw [bind_eq_bind, bind_eq_some_iff] at h
      obtain ⟨⟨ys, mem₁⟩, hrest, h⟩ := h
      cases h
      exact trans (destroyAt hdestroy) (ih hrest)

theorem moveOut {throwsAt : Option Nat} {n : Nat} {i i' : BitVec e.bits} {k : Nat} {xs : List α}
    {mem mem' : Mem α} {threw : Bool}
    (h : moveOut e throwsAt b n i k mem = some (i', xs, mem', threw)) :
    OnlyElements e b mem mem' := by
  induction n generalizing i k xs mem with
  | zero =>
      obtain ⟨-, -, rfl, -⟩ := by simpa [ConcurrentQueue.moveOut] using h
      exact refl _
  | succ n ih =>
      rw [ConcurrentQueue.moveOut] at h
      split at h
      · split at h
        · obtain ⟨-, -, rfl, -⟩ := by simpa using h
          exact refl _
        · cases h
      · simp only [bind_eq_bind, bind_eq_some_iff] at h
        obtain ⟨⟨x, b'⟩, hdestroy, ⟨j, ys, mem₁, threw₁⟩, hrest, h⟩ := h
        obtain ⟨rfl, -, rfl, rfl⟩ := by simpa using h
        exact trans (destroyAt hdestroy) (ih hrest)

/-- Filling stops in the block it starts in. -/
theorem fillBlocks {ctor : Ctor} {last : BitVec e.bits} {fuel : Nat} {i i' : BitVec e.bits}
    {k : Nat} {xs : List α} {tailBlock : Option Nat} {threw : Bool}
    (h : fillBlocks e ctor last (some b) fuel (some b) i k xs mem =
      some (i', tailBlock, mem', threw)) : tailBlock = some b ∧ OnlyElements e b mem mem' := by
  cases fuel with
  | zero => cases h
  | succ fuel =>
      rw [ConcurrentQueue.fillBlocks, bind_eq_bind, bind_eq_some_iff] at h
      obtain ⟨⟨i₁, k₁, xs₁, mem₁, threw₁⟩, hfill, h⟩ := h
      simp only [if_true] at h
      split at h
      · obtain ⟨-, rfl, rfl, -⟩ := by simpa using h
        exact ⟨rfl, fillBlock hfill⟩
      · split at h
        · obtain ⟨-, rfl, rfl, -⟩ := by simpa using h
          exact ⟨rfl, fillBlock hfill⟩
        · cases h

theorem undoBlocks {stop : BitVec e.bits} {fuel : Nat} {i : BitVec e.bits}
    (h : undoBlocks e stop (some b) fuel i (some b) mem = some mem') :
    OnlyElements e b mem mem' := by
  cases fuel with
  | zero => cases h
  | succ fuel =>
      rw [ConcurrentQueue.undoBlocks, bind_eq_bind, Option.bind_some, bind_eq_bind,
        bind_eq_some_iff] at h
      obtain ⟨⟨ys, mem₁⟩, hdestroy, h⟩ := h
      simp only [if_true, Option.some.injEq] at h
      exact h ▸ destroyRange hdestroy

/-- Where the elements are the same too, nothing has changed. -/
theorem eq (h : OnlyElements e b mem mem')
    (hsame : ∀ i < e.BLOCK_SIZE, (mem'.blocks b).elements i = (mem.blocks b).elements i) :
    mem' = mem := by
  obtain ⟨f, rfl, hf⟩ := h
  have helements : f = (mem.blocks b).elements := by
    funext i
    rcases lt_or_ge i e.BLOCK_SIZE with hi | hi
    · simpa using hsame i hi
    · exact hf i hi
  rw [helements, Mem.setBlock, Function.update_eq_self]

end OnlyElements

end ConcurrentQueue
