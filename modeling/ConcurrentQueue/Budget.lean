import ConcurrentQueue.Elements

/-!
# ConcurrentQueue.Budget

**What a producer can get.** Whether an enqueue succeeds depends on the memory only
through a few numbers: how many blocks are to be had without allocating one, how many
calls of `malloc` have been made, and how large the producer's index is. `Budget` has
these numbers, and `Budget.block` and `Budget.growIndex` say what a block and a larger
index cost.
-/

namespace ConcurrentQueue

variable {α : Type} {e : Env}

/-- How many blocks there are to be had without allocating one. -/
def Mem.freeBlocks (e : Env) (m : Mem α) : Nat :=
  e.initialBlockPoolSize - m.initialBlockPoolIndex + m.freeList.length

structure Budget where
  free : Nat
  /-- Calls of `malloc` so far. -/
  mallocs : Nat
  /-- Blocks created so far. -/
  created : Nat
  /-- The producer's index has the size `2^k`. -/
  k : Nat
  deriving DecidableEq

namespace Budget

variable (e)

def block (mode : AllocationMode) (b : Budget) : Option Budget :=
  if 0 < b.free then some { b with free := b.free - 1 }
  else if mode == .canAlloc && e.mallocOk b.mallocs then
    some { b with mallocs := b.mallocs + 1, created := b.created + 1 }
  else none

def growIndex (mode : AllocationMode) (b : Budget) : Option Budget :=
  if mode == .canAlloc && e.mallocOk b.mallocs then
    some { b with mallocs := b.mallocs + 1, k := b.k + 1 }
  else none

/-- A slot on the index for the block `t` when there are entries from `s` on. -/
def slot (mode : AllocationMode) (s t : Nat) (b : Budget) : Option Budget :=
  if t < s + 2 ^ b.k then some b else b.growIndex e mode

/-- A slot and a block. -/
def acquire (mode : AllocationMode) (s t : Nat) (b : Budget) : Option Budget :=
  (b.slot e mode s t).bind (block e mode)

/-- A slot and a block for each of the numbers from `t` on, as long as the queue is not
full. -/
def acquireMany (mode : AllocationMode) (head s : Nat) : Nat → Nat → Budget → Option Budget
  | 0, _, b => some b
  | n + 1, t, b =>
      if full e (BitVec.ofNat e.bits head) (BitVec.ofNat e.bits (t * e.BLOCK_SIZE)) then none
      else (b.acquire e mode s t).bind (acquireMany mode head s n (t + 1))

end Budget

/-- The budget of a producer whose index has the size `2^k`. -/
def budget (e : Env) (mem : Mem α) (k : Nat) : Budget :=
  ⟨mem.freeBlocks e, mem.mallocs, mem.created, k⟩

theorem budget_onlyContents {mem mem' : Mem α} (h : OnlyContents mem mem') (k : Nat) :
    budget e mem' k = budget e mem k := by
  obtain ⟨f, rfl⟩ := h
  rfl

theorem growIndex_ok {mem : Mem α} (h : e.mallocOk mem.mallocs = true) {k : Nat} :
    (budget e mem k).growIndex e .canAlloc =
      some (budget e { mem with mallocs := mem.mallocs + 1 } (k + 1)) := by
  simp only [Budget.growIndex, budget, h, beq_self_eq_true, Bool.and_self, if_true]
  rfl

theorem growIndex_failed {mem : Mem α} (h : e.mallocOk mem.mallocs = false) {k : Nat} :
    (budget e mem k).growIndex e .canAlloc = none := by
  simp only [Budget.growIndex, budget, h, Bool.and_false, Bool.false_eq_true, if_false]

/-- `requisition_block` takes a block if one can be had. -/
theorem block_requisitionBlock (mem : Mem α) (mode : AllocationMode) (k : Nat) :
    (budget e mem k).block e mode =
      (mem.requisitionBlock e mode).1.map fun _ =>
        budget e (mem.requisitionBlock e mode).2 k := by
  by_cases hpool : mem.initialBlockPoolIndex < e.initialBlockPoolSize
  · have hfree : 0 < mem.freeBlocks e := by
      rw [Mem.freeBlocks]
      omega
    have hblock : (budget e mem k).block e mode =
        some ⟨mem.freeBlocks e - 1, mem.mallocs, mem.created, k⟩ := if_pos hfree
    have hreq : mem.requisitionBlock e mode = (some mem.initialBlockPoolIndex,
        { mem with initialBlockPoolIndex := mem.initialBlockPoolIndex + 1 }) := if_pos hpool
    rw [hblock, hreq, Option.map_some, budget, Mem.freeBlocks, Mem.freeBlocks]
    congr 2
    dsimp only
    omega
  · have hzero : e.initialBlockPoolSize - mem.initialBlockPoolIndex = 0 := by omega
    simp only [Budget.block, Mem.requisitionBlock, if_neg hpool, budget, Mem.freeBlocks, hzero]
    cases hlist : mem.freeList with
    | cons b rest => simp [hzero]
    | nil =>
        cases mode with
        | cannotAlloc => simp
        | canAlloc =>
            cases hok : e.mallocOk mem.mallocs <;>
              simp [hzero, hlist, Mem.createBlock, Mem.malloc, hok]

end ConcurrentQueue
