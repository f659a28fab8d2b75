import ConcurrentQueue.Block

/-!
# ConcurrentQueue.Pool

The queue's block memory: the initial pool, the free list and the allocator.
Blocks are numbered; `0 .. initialBlockPoolSize - 1` is the initial pool, and
the blocks created later follow. Allocation may fail at any time, as the oracle
`mallocOk` says. The free list is the stack that `FreeList` is between calls.

**A block is free or in use, never both** (`Mem.Free`); a producer learns from
`requisitionBlock_spec` only that what it gets was free and is no longer.
-/

namespace ConcurrentQueue

open Function

inductive AllocationMode
  | canAlloc
  | cannotAlloc
  deriving DecidableEq, Repr

/-- The constants, the size of the initial pool and the allocator's answers. -/
structure Env extends Traits where
  initialBlockPoolSize : Nat
  mallocOk : Nat → Bool
  poolSize_lt : initialBlockPoolSize < 2 ^ bits

structure Mem (α : Type*) where
  blocks : Nat → Block α
  initialBlockPoolIndex : Nat
  freeList : List Nat
  /-- Blocks created so far. -/
  created : Nat
  /-- Calls of `malloc` so far. -/
  mallocs : Nat
  /-- Blocks given back to the heap. -/
  destroyed : List Nat

namespace Mem

variable {α : Type*} (e : Env)

/-- Replace the contents of block `b`. -/
def setBlock (m : Mem α) (b : Nat) (x : Block α) : Mem α :=
  { m with blocks := update m.blocks b x }

/-- Apply `f` to block `b`. -/
def modify (m : Mem α) (b : Nat) (f : Block α → Block α) : Mem α :=
  m.setBlock b (f (m.blocks b))

/-- Apply the partial operation `f` to block `b`. -/
def tryModify (m : Mem α) (b : Nat) (f : Block α → Option (Block α)) : Option (Mem α) :=
  (f (m.blocks b)).map (m.setBlock b)

/-- One call of `malloc`, and whether it succeeds. -/
def malloc (m : Mem α) : Bool × Mem α :=
  (e.mallocOk m.mallocs, { m with mallocs := m.mallocs + 1 })

/-- `create<Block>()`. The emptiness flags are left as the memory has them. -/
def createBlock (m : Mem α) : Option Nat × Mem α :=
  match m.malloc e with
  | (false, m) => (none, m)
  | (true, m) =>
      let id := e.initialBlockPoolSize + m.created
      (some id, { m with
        created := m.created + 1
        blocks := update m.blocks id
          { m.blocks id with
            elements := fun _ => none
            next := none
            elementsCompletelyDequeued := 0
            dynamicallyAllocated := true } })

def requisitionBlock (mode : AllocationMode) (m : Mem α) : Option Nat × Mem α :=
  if m.initialBlockPoolIndex < e.initialBlockPoolSize then
    (some m.initialBlockPoolIndex, { m with initialBlockPoolIndex := m.initialBlockPoolIndex + 1 })
  else
    match m.freeList with
    | b :: rest => (some b, { m with freeList := rest })
    | [] =>
        match mode with
        | .canAlloc => m.createBlock e
        | .cannotAlloc => (none, m)

def addBlockToFreeList (b : Nat) (m : Mem α) : Mem α :=
  if !e.RECYCLE_ALLOCATED_BLOCKS && (m.blocks b).dynamicallyAllocated then
    { m with destroyed := b :: m.destroyed }
  else { m with freeList := b :: m.freeList }

/-! ### Free blocks -/

/-- In the unissued part of the pool, on the free list, or not created yet. -/
def Free (m : Mem α) (b : Nat) : Prop :=
  (m.initialBlockPoolIndex ≤ b ∧ b < e.initialBlockPoolSize) ∨ b ∈ m.freeList ∨
    e.initialBlockPoolSize + m.created ≤ b

/-- The three places are disjoint, and no free block holds an object. -/
structure WellFormed (m : Mem α) : Prop where
  nodup : m.freeList.Nodup
  listed : ∀ b ∈ m.freeList, b < e.initialBlockPoolSize + m.created ∧
    ¬ (m.initialBlockPoolIndex ≤ b ∧ b < e.initialBlockPoolSize)
  vacant : ∀ b, m.Free e b → ∀ i, (m.blocks b).elements i = none

variable {e} {m : Mem α}

@[simp] theorem blocks_setBlock (b : Nat) (x : Block α) :
    (m.setBlock b x).blocks = update m.blocks b x := rfl

theorem setBlock_setBlock (b : Nat) (x y : Block α) :
    (m.setBlock b x).setBlock b y = m.setBlock b y := by
  rw [setBlock, setBlock, setBlock, update_idem]

@[simp] theorem blocks_addBlockToFreeList (b : Nat) :
    (m.addBlockToFreeList e b).blocks = m.blocks := by
  unfold addBlockToFreeList
  split <;> rfl

/-- Changing a block in use does not concern the free ones. -/
theorem WellFormed.setBlock (h : m.WellFormed e) {b : Nat} (hb : ¬ m.Free e b) (x : Block α) :
    (m.setBlock b x).WellFormed e where
  nodup := h.nodup
  listed := h.listed
  vacant c hc i := by
    have hcb : c ≠ b := fun heq => hb (heq ▸ hc)
    simpa [update_of_ne hcb] using h.vacant c hc i

/-- What a producer may rely on when it asks for a block. -/
structure Requisitioned (e : Env) (m m' : Mem α) (b : Nat) : Prop where
  wellFormed : m'.WellFormed e
  free : m.Free e b
  taken : ∀ c, m'.Free e c ↔ m.Free e c ∧ c ≠ b
  vacant : ∀ i, (m'.blocks b).elements i = none
  frame : ∀ c, c ≠ b → m'.blocks c = m.blocks c

theorem createBlock_spec (h : m.WellFormed e)
    (hpool : ¬ m.initialBlockPoolIndex < e.initialBlockPoolSize) {b : Nat} {m' : Mem α}
    (hc : m.createBlock e = (some b, m')) : Requisitioned e m m' b := by
  unfold createBlock at hc
  split at hc
  · cases hc
  case h_2 m₁ hm₁ =>
      obtain rfl : m₁ = { m with mallocs := m.mallocs + 1 } := (congrArg Prod.snd hm₁).symm
      obtain ⟨hb, rfl⟩ := Prod.mk.inj hc
      obtain rfl := Option.some.inj hb
      have htaken : ∀ c, Mem.Free e { m with created := m.created + 1 } c ↔
          m.Free e c ∧ c ≠ e.initialBlockPoolSize + m.created := by
        intro c
        unfold Free
        constructor
        · rintro (hp | hl | hn)
          · exact absurd (lt_of_le_of_lt hp.1 hp.2) hpool
          · have := (h.listed c hl).1
            exact ⟨.inr (.inl hl), by omega⟩
          · dsimp only at hn
            exact ⟨.inr (.inr (by omega)), by omega⟩
        · rintro ⟨hp | hl | hn, hne⟩
          · exact .inl hp
          · exact .inr (.inl hl)
          · exact .inr (.inr (by dsimp only; omega))
      refine ⟨⟨h.nodup, fun c hl => ?_, fun c hf i => ?_⟩, .inr (.inr le_rfl), htaken, ?_, ?_⟩
      · have := h.listed c hl
        exact ⟨by dsimp only; omega, this.2⟩
      · obtain ⟨hfree, hne⟩ := (htaken c).mp hf
        simpa [update_of_ne hne] using h.vacant c hfree i
      · simp
      · intro c hne
        simp [update_of_ne hne]

/-- What `requisition_block` returns was free and is no longer. -/
theorem requisitionBlock_spec (h : m.WellFormed e) {mode : AllocationMode} {b : Nat} {m' : Mem α}
    (hr : m.requisitionBlock e mode = (some b, m')) : Requisitioned e m m' b := by
  unfold requisitionBlock at hr
  split at hr
  case isTrue hpool =>
      obtain ⟨hb, rfl⟩ := Prod.mk.inj hr
      obtain rfl := Option.some.inj hb
      have htaken : ∀ c, Mem.Free e
          { m with initialBlockPoolIndex := m.initialBlockPoolIndex + 1 } c ↔
          m.Free e c ∧ c ≠ m.initialBlockPoolIndex := by
        intro c
        unfold Free
        constructor
        · rintro (hp | hl | hn)
          · dsimp only at hp
            exact ⟨.inl (by omega), by omega⟩
          · have := (h.listed c hl).2
            exact ⟨.inr (.inl hl), by omega⟩
          · exact ⟨.inr (.inr hn), by dsimp only at hn; omega⟩
        · rintro ⟨hp | hl | hn, hne⟩
          · exact .inl (by dsimp only; omega)
          · exact .inr (.inl hl)
          · exact .inr (.inr hn)
      refine ⟨⟨h.nodup, fun c hl => ?_, fun c hf i => ?_⟩, .inl ⟨le_rfl, hpool⟩, htaken, ?_,
        fun _ _ => rfl⟩
      · have := h.listed c hl
        exact ⟨this.1, by dsimp only; omega⟩
      · exact h.vacant c ((htaken c).mp hf).1 i
      · exact h.vacant _ (.inl ⟨le_rfl, hpool⟩)
  case isFalse hpool =>
      split at hr
      case h_1 b₀ rest hlist =>
          obtain ⟨hb, rfl⟩ := Prod.mk.inj hr
          obtain rfl := Option.some.inj hb
          have hnodup : b₀ ∉ rest ∧ rest.Nodup := List.nodup_cons.mp (hlist ▸ h.nodup)
          have hb₀ := h.listed b₀ (by simp [hlist])
          have htaken : ∀ c, Mem.Free e { m with freeList := rest } c ↔ m.Free e c ∧ c ≠ b₀ := by
            intro c
            unfold Free
            rw [hlist]
            constructor
            · rintro (hp | hl | hn)
              · exact absurd (lt_of_le_of_lt hp.1 hp.2) hpool
              · exact ⟨.inr (.inl (List.mem_cons_of_mem _ hl)),
                  fun heq => hnodup.1 (heq ▸ hl)⟩
              · exact ⟨.inr (.inr hn), by dsimp only at hn; omega⟩
            · rintro ⟨hp | hl | hn, hne⟩
              · exact .inl hp
              · exact .inr (.inl ((List.mem_cons.mp hl).resolve_left hne))
              · exact .inr (.inr hn)
          have hfree : m.Free e b₀ := .inr (.inl (by simp [hlist]))
          refine ⟨⟨hnodup.2, fun c hl => h.listed c (hlist ▸ List.mem_cons_of_mem _ hl),
            fun c hf i => h.vacant c ((htaken c).mp hf).1 i⟩, hfree, htaken, h.vacant _ hfree,
            fun _ _ => rfl⟩
      case h_2 =>
          cases mode with
          | canAlloc => exact createBlock_spec h hpool hr
          | cannotAlloc => cases hr

/-- A request that fails changes nothing but the count of `malloc` calls. -/
theorem requisitionBlock_none {mode : AllocationMode} {m' : Mem α}
    (hr : m.requisitionBlock e mode = (none, m')) :
    ∃ n, m' = { m with mallocs := n } := by
  unfold requisitionBlock at hr
  split at hr
  · cases hr
  split at hr
  · cases hr
  cases mode with
  | canAlloc =>
      simp only [createBlock] at hr
      split at hr
      case h_1 m₁ hm₁ =>
          obtain rfl : m₁ = { m with mallocs := m.mallocs + 1 } := (congrArg Prod.snd hm₁).symm
          exact ⟨_, (Prod.mk.inj hr).2.symm⟩
      · cases hr
  | cannotAlloc => exact ⟨m.mallocs, (Prod.mk.inj hr).2.symm⟩

/-- A block can be requisitioned, if the next `malloc` is number `n`. -/
def blockAvailable (e : Env) (mode : AllocationMode) (m : Mem α) (n : Nat) : Bool :=
  decide (m.initialBlockPoolIndex < e.initialBlockPoolSize) || !m.freeList.isEmpty ||
    (mode == .canAlloc && e.mallocOk n)

theorem isSome_requisitionBlock (mode : AllocationMode) :
    (m.requisitionBlock e mode).1.isSome = m.blockAvailable e mode m.mallocs := by
  unfold requisitionBlock blockAvailable
  split
  case isTrue hpool => simp [hpool]
  case isFalse hpool =>
      cases hlist : m.freeList with
      | cons b rest => simp
      | nil =>
          cases mode with
          | cannotAlloc => simp [hpool]
          | canAlloc =>
              cases hok : e.mallocOk m.mallocs <;> simp [createBlock, malloc, hpool, hok]

end Mem

end ConcurrentQueue
