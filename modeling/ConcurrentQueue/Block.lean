import ConcurrentQueue.Details

/-!
# ConcurrentQueue.Block

A `Block` of `BLOCK_SIZE` element slots. A slot is raw memory (`none`) or holds
a constructed object; constructing over an object and destroying raw memory
have no meaning and are `none` here, and so is a failed assertion.

**Emptiness is kept in one of two ways**: one flag for each slot (stored in
reverse), or one counter. Both stand for a set of marked slots (`Marks`). While
blocks are consumed front to back these are the first ones (`Marked`), and most of
the development reads them through their number only.
-/

namespace ConcurrentQueue

/-- The kind of producer a block serves. -/
inductive InnerQueueContext
  | implicitContext
  | explicitContext
  deriving DecidableEq, Repr

structure Block (α : Type*) where
  elements : Nat → Option α
  next : Option Nat
  elementsCompletelyDequeued : Nat
  emptyFlags : Nat → Bool
  dynamicallyAllocated : Bool

namespace Block

variable {α : Type*} (t : Traits) (ctx : InnerQueueContext)

/-! ### Elements -/

def setElement (b : Block α) (i : Nat) (x : Option α) : Block α :=
  { b with elements := Function.update b.elements i x }

/-- Placement new at index `i`. -/
def construct (i : BitVec t.bits) (x : α) (b : Block α) : Option (Block α) :=
  match b.elements (t.offset i) with
  | none => some (b.setElement (t.offset i) (some x))
  | some _ => none

/-- Moving out of and destroying the object at index `i`. -/
def destroyAt (i : BitVec t.bits) (b : Block α) : Option (α × Block α) :=
  match b.elements (t.offset i) with
  | some x => some (x, b.setElement (t.offset i) none)
  | none => none

/-! ### Emptiness -/

/-- `context == explicit_context && BLOCK_SIZE <= EXPLICIT_BLOCK_EMPTY_COUNTER_THRESHOLD`. -/
def usesFlags : Bool :=
  ctx == .explicitContext && decide (t.BLOCK_SIZE ≤ t.EXPLICIT_BLOCK_EMPTY_COUNTER_THRESHOLD)

def isEmpty (b : Block α) : Option Bool :=
  if usesFlags t ctx then some (decide (∀ i < t.BLOCK_SIZE, b.emptyFlags i = true))
  else if b.elementsCompletelyDequeued = t.BLOCK_SIZE then some true
  else if b.elementsCompletelyDequeued ≤ t.BLOCK_SIZE then some false
  else none

/-- Also returns whether the block is now empty (never in the flag version). -/
def setEmpty (i : BitVec t.bits) (b : Block α) : Option (Block α × Bool) :=
  if usesFlags t ctx then
    let j := t.BLOCK_SIZE - 1 - t.offset i
    if b.emptyFlags j then none
    else some ({ b with emptyFlags := Function.update b.emptyFlags j true }, false)
  else
    let prevVal := b.elementsCompletelyDequeued
    if prevVal < t.BLOCK_SIZE then
      some ({ b with elementsCompletelyDequeued := prevVal + 1 },
        decide (prevVal = t.BLOCK_SIZE - 1))
    else none

/-- The loop of `set_many_empty`. -/
def setFlags (i : Nat) : Nat → (Nat → Bool) → Option (Nat → Bool)
  | 0, flags => some flags
  | count + 1, flags =>
      (setFlags i count flags).bind fun f =>
        if f (i + count) then none else some (Function.update f (i + count) true)

/-- Assumes that the slots lie in one block. -/
def setManyEmpty (i : BitVec t.bits) (count : Nat) (b : Block α) : Option (Block α × Bool) :=
  if usesFlags t ctx then
    if t.offset i + count ≤ t.BLOCK_SIZE then
      (setFlags (t.BLOCK_SIZE - t.offset i - count) count b.emptyFlags).map fun f =>
        ({ b with emptyFlags := f }, false)
    else none
  else
    let prevVal := b.elementsCompletelyDequeued
    if prevVal + count ≤ t.BLOCK_SIZE then
      some ({ b with elementsCompletelyDequeued := prevVal + count },
        decide (prevVal + count = t.BLOCK_SIZE))
    else none

def setAllEmpty (b : Block α) : Block α :=
  if usesFlags t ctx then
    { b with emptyFlags := fun i => if i < t.BLOCK_SIZE then true else b.emptyFlags i }
  else { b with elementsCompletelyDequeued := t.BLOCK_SIZE }

def resetEmpty (b : Block α) : Block α :=
  if usesFlags t ctx then
    { b with emptyFlags := fun i => if i < t.BLOCK_SIZE then false else b.emptyFlags i }
  else { b with elementsCompletelyDequeued := 0 }

/-! ### Marks -/

/-- Exactly the slots `marks` are marked empty. The flags say which these are, the counter
only how many. -/
def Marks (b : Block α) (marks : Finset Nat) : Prop :=
  if usesFlags t ctx then
    ∀ i < t.BLOCK_SIZE, b.emptyFlags (t.BLOCK_SIZE - 1 - i) = decide (i ∈ marks)
  else b.elementsCompletelyDequeued = marks.card

variable {t ctx} {b : Block α} {marks : Finset Nat}

theorem marks_resetEmpty (b : Block α) : Marks t ctx (b.resetEmpty t ctx) ∅ := by
  unfold Marks resetEmpty
  split
  · intro i hi
    have : t.BLOCK_SIZE - 1 - i < t.BLOCK_SIZE := by omega
    simp [this]
  · rfl

theorem marks_setAllEmpty (b : Block α) :
    Marks t ctx (b.setAllEmpty t ctx) (Finset.range t.BLOCK_SIZE) := by
  unfold Marks setAllEmpty
  split
  · intro i hi
    have : t.BLOCK_SIZE - 1 - i < t.BLOCK_SIZE := by omega
    simp [this, hi]
  · exact (Finset.card_range _).symm

/-- A block is full of marks when as many slots are marked as there are. -/
theorem card_eq_iff {B : Nat} (hsub : marks ⊆ Finset.range B) :
    marks.card = B ↔ marks = Finset.range B := by
  constructor
  · intro hcard
    exact Finset.eq_of_subset_of_card_le hsub (by rw [Finset.card_range, hcard])
  · rintro rfl
    exact Finset.card_range B

theorem Marks.isEmpty (h : Marks t ctx b marks) (hsub : marks ⊆ Finset.range t.BLOCK_SIZE) :
    b.isEmpty t ctx = some (decide (marks = Finset.range t.BLOCK_SIZE)) := by
  unfold Marks at h
  unfold Block.isEmpty
  split at h
  · rw [if_pos ‹_›, Option.some.injEq, decide_eq_decide]
    constructor
    · intro hall
      refine hsub.antisymm fun i hi => ?_
      have hflag := h i (Finset.mem_range.mp hi)
      rw [hall _ (by have := t.BLOCK_SIZE_pos; omega), eq_comm, decide_eq_true_iff] at hflag
      exact hflag
    · rintro rfl i hi
      have hflag := h (t.BLOCK_SIZE - 1 - i) (by omega)
      rw [show t.BLOCK_SIZE - 1 - (t.BLOCK_SIZE - 1 - i) = i by omega] at hflag
      rw [hflag, decide_eq_true_iff, Finset.mem_range]
      omega
  · have hle : marks.card ≤ t.BLOCK_SIZE := by
      simpa using Finset.card_le_card hsub
    rw [if_neg ‹_›, h, if_congr (card_eq_iff hsub) rfl rfl, if_pos hle]
    by_cases hfull : marks = Finset.range t.BLOCK_SIZE
    · rw [if_pos hfull, decide_eq_true hfull]
    · rw [if_neg hfull, decide_eq_false hfull]

theorem setFlags_spec {i count : Nat} {flags : Nat → Bool}
    (hfree : ∀ j < count, flags (i + j) = false) :
    setFlags i count flags =
      some fun j => if i ≤ j ∧ j < i + count then true else flags j := by
  induction count with
  | zero =>
      simp only [setFlags, Option.some.injEq]
      funext j
      rw [if_neg (by omega)]
  | succ count ih =>
      have hlast : ¬ (i ≤ i + count ∧ i + count < i + count) := by omega
      rw [setFlags, ih fun j hj => hfree j (by omega), Option.bind_some]
      simp only [if_neg hlast, hfree count (by omega), Bool.false_eq_true, if_false,
        Option.some.injEq]
      funext j
      by_cases hj : j = i + count
      · subst hj
        simp
      · rw [Function.update_of_ne hj]
        congr 1
        rw [eq_iff_iff]
        omega

variable (t ctx) in
/-- The block after `set_many_empty`. -/
def markRange (i : BitVec t.bits) (count : Nat) (b : Block α) : Block α :=
  { b with
    emptyFlags :=
      if usesFlags t ctx then fun j =>
        if t.BLOCK_SIZE - t.offset i - count ≤ j ∧ j < t.BLOCK_SIZE - t.offset i then true
        else b.emptyFlags j
      else b.emptyFlags
    elementsCompletelyDequeued :=
      if usesFlags t ctx then b.elementsCompletelyDequeued
      else b.elementsCompletelyDequeued + count }

section Range

variable (h : Marks t ctx b marks) (hsub : marks ⊆ Finset.range t.BLOCK_SIZE) {i : BitVec t.bits}
  {count : Nat} (hcount : t.offset i + count ≤ t.BLOCK_SIZE)
  (hfree : Disjoint marks (Finset.Ico (t.offset i) (t.offset i + count)))
include h hsub hcount hfree

omit h hfree in
theorem marks_subset :
    marks ∪ Finset.Ico (t.offset i) (t.offset i + count) ⊆ Finset.range t.BLOCK_SIZE := by
  refine Finset.union_subset hsub fun j hj => ?_
  rw [Finset.mem_Ico] at hj
  rw [Finset.mem_range]
  omega

omit h hsub hcount in
theorem card_marks : (marks ∪ Finset.Ico (t.offset i) (t.offset i + count)).card =
    marks.card + count := by
  rw [Finset.card_union_of_disjoint hfree, Nat.card_Ico, Nat.add_sub_cancel_left]

omit hsub in
theorem Marks.markRange : Marks t ctx (b.markRange t ctx i count)
    (marks ∪ Finset.Ico (t.offset i) (t.offset i + count)) := by
  unfold Marks at h ⊢
  unfold Block.markRange
  split at h
  case isTrue hf =>
      simp only [hf, if_true]
      intro j hj
      by_cases hj' : t.offset i ≤ j ∧ j < t.offset i + count
      · rw [if_pos (by omega),
          decide_eq_true (Finset.mem_union_right _ (Finset.mem_Ico.mpr hj'))]
      · rw [if_neg (by omega), h j hj, decide_eq_decide, Finset.mem_union, Finset.mem_Ico]
        simp only [hj', or_false]
  case isFalse hf =>
      simp only [hf]
      rw [card_marks hfree, ← h]
      rfl

/-- `set_many_empty` on slots of which none is marked. -/
theorem Marks.setManyEmpty_eq : b.setManyEmpty t ctx i count =
    some (b.markRange t ctx i count, decide (usesFlags t ctx = false ∧
      marks ∪ Finset.Ico (t.offset i) (t.offset i + count) = Finset.range t.BLOCK_SIZE)) := by
  have hsub' := marks_subset hsub hcount
  unfold Marks at h
  unfold Block.setManyEmpty Block.markRange
  split at h
  case isTrue hf =>
      -- the flags are stored in reverse: slot `i + j` has the flag `count - 1 - j` from the start
      have hflags : ∀ j < count,
          b.emptyFlags (t.BLOCK_SIZE - t.offset i - count + j) = false := by
        intro j hj
        have hflag := h (t.offset i + (count - 1 - j)) (by omega)
        have hnot : t.offset i + (count - 1 - j) ∉ marks := fun hmem =>
          Finset.disjoint_left.mp hfree hmem (Finset.mem_Ico.mpr ⟨by omega, by omega⟩)
        rw [show t.BLOCK_SIZE - 1 - (t.offset i + (count - 1 - j)) =
          t.BLOCK_SIZE - t.offset i - count + j by omega, decide_eq_false hnot] at hflag
        exact hflag
      have hend : t.BLOCK_SIZE - t.offset i - count + count = t.BLOCK_SIZE - t.offset i := by omega
      rw [if_pos hcount, setFlags_spec hflags, hend]
      simp [hf]
  case isFalse hf =>
      have hle : b.elementsCompletelyDequeued + count ≤ t.BLOCK_SIZE := by
        rw [h, ← card_marks hfree]
        simpa using Finset.card_le_card hsub'
      have hfull : b.elementsCompletelyDequeued + count = t.BLOCK_SIZE ↔
          marks ∪ Finset.Ico (t.offset i) (t.offset i + count) = Finset.range t.BLOCK_SIZE := by
        rw [← card_eq_iff hsub', card_marks hfree, h]
      simp [hf, hle, hfull]

end Range

/-- Where nothing is marked twice, marking one slot is marking a range of one. -/
theorem Marks.setEmpty_eq (h : Marks t ctx b marks) (hsub : marks ⊆ Finset.range t.BLOCK_SIZE)
    {i : BitVec t.bits} (hfree : t.offset i ∉ marks) :
    b.setEmpty t ctx i = b.setManyEmpty t ctx i 1 := by
  have hoff := t.offset_lt i
  unfold Marks at h
  unfold Block.setEmpty Block.setManyEmpty
  split at h
  case isTrue hf =>
      have hflag := h _ hoff
      rw [decide_eq_false hfree] at hflag
      have hsame : t.BLOCK_SIZE - t.offset i - 1 = t.BLOCK_SIZE - 1 - t.offset i := by omega
      rw [if_pos hf, if_pos hf, if_pos (show t.offset i + 1 ≤ t.BLOCK_SIZE from hoff), hsame,
        setFlags, setFlags]
      simp only [hflag, Option.bind_some, Nat.add_zero, Bool.false_eq_true, if_false,
        Option.map_some]
  case isFalse hf =>
      have hlt : marks.card < t.BLOCK_SIZE := by
        refine lt_of_lt_of_eq (Finset.card_lt_card ⟨hsub, fun hall => ?_⟩) (Finset.card_range _)
        exact hfree (hall (Finset.mem_range.mpr hoff))
      rw [if_neg hf, if_neg hf]
      simp only [h, hlt, if_true, Nat.succ_le_of_lt hlt]
      congr 2
      rw [decide_eq_decide]
      omega

/-! ### Blocks that are consumed front to back -/

variable (t ctx) in
/-- Exactly the first `m` slots are marked empty. -/
def Marked (b : Block α) (m : Nat) : Prop :=
  if usesFlags t ctx then
    ∀ i < t.BLOCK_SIZE, b.emptyFlags (t.BLOCK_SIZE - 1 - i) = decide (i < m)
  else b.elementsCompletelyDequeued = m

variable {m : Nat}

theorem marked_iff : Marked t ctx b m ↔ Marks t ctx b (Finset.range m) := by
  simp only [Marked, Marks, Finset.mem_range, Finset.card_range]

theorem Marked.isEmpty (h : Marked t ctx b m) (hm : m ≤ t.BLOCK_SIZE) :
    b.isEmpty t ctx = some (decide (m = t.BLOCK_SIZE)) := by
  rw [(marked_iff.mp h).isEmpty (Finset.range_subset_range.mpr hm), Option.some.injEq,
    decide_eq_decide, ← card_eq_iff (Finset.range_subset_range.mpr hm), Finset.card_range]

theorem marked_resetEmpty (b : Block α) : Marked t ctx (b.resetEmpty t ctx) 0 :=
  marked_iff.mpr (marks_resetEmpty b)

theorem marked_setAllEmpty (b : Block α) :
    Marked t ctx (b.setAllEmpty t ctx) t.BLOCK_SIZE :=
  marked_iff.mpr (marks_setAllEmpty b)

/-- `set_many_empty` on the first `count` unmarked slots. -/
theorem Marked.setManyEmpty (h : Marked t ctx b m) {i : BitVec t.bits} (hi : t.offset i = m)
    {count : Nat} (hm : m + count ≤ t.BLOCK_SIZE) :
    ∃ flags n full, b.setManyEmpty t ctx i count =
        some ({ b with emptyFlags := flags, elementsCompletelyDequeued := n }, full) ∧
      Marked t ctx { b with emptyFlags := flags, elementsCompletelyDequeued := n } (m + count) ∧
      (full = true ↔ usesFlags t ctx = false ∧ m + count = t.BLOCK_SIZE) := by
  subst hi
  have hsub : Finset.range (t.offset i) ⊆ Finset.range t.BLOCK_SIZE :=
    Finset.range_subset_range.mpr (by omega)
  have hunion : Finset.range (t.offset i) ∪ Finset.Ico (t.offset i) (t.offset i + count) =
      Finset.range (t.offset i + count) := by
    ext j
    simp only [Finset.mem_union, Finset.mem_range, Finset.mem_Ico]
    omega
  have hfree : Disjoint (Finset.range (t.offset i))
      (Finset.Ico (t.offset i) (t.offset i + count)) := by
    rw [Finset.disjoint_left]
    intro j hj hj'
    rw [Finset.mem_range] at hj
    rw [Finset.mem_Ico] at hj'
    omega
  have hmarks := (marked_iff.mp h).markRange hm hfree
  rw [hunion] at hmarks
  refine ⟨_, _, _, (marked_iff.mp h).setManyEmpty_eq hsub hm hfree, marked_iff.mpr hmarks, ?_⟩
  rw [hunion, decide_eq_true_iff, ← card_eq_iff (Finset.range_subset_range.mpr hm),
    Finset.card_range]

/-- `set_empty` on the first unmarked slot. -/
theorem Marked.setEmpty (h : Marked t ctx b m) {i : BitVec t.bits} (hi : t.offset i = m)
    (hm : m < t.BLOCK_SIZE) :
    ∃ flags count full, b.setEmpty t ctx i =
        some ({ b with emptyFlags := flags, elementsCompletelyDequeued := count }, full) ∧
      Marked t ctx { b with emptyFlags := flags, elementsCompletelyDequeued := count } (m + 1) ∧
      (full = true ↔ usesFlags t ctx = false ∧ m + 1 = t.BLOCK_SIZE) := by
  rw [(marked_iff.mp h).setEmpty_eq (Finset.range_subset_range.mpr hm.le) (by simp [hi])]
  exact h.setManyEmpty hi hm

@[simp] theorem elements_resetEmpty (b : Block α) :
    (b.resetEmpty t ctx).elements = b.elements := by
  unfold resetEmpty
  split <;> rfl

@[simp] theorem next_resetEmpty (b : Block α) : (b.resetEmpty t ctx).next = b.next := by
  unfold resetEmpty
  split <;> rfl

@[simp] theorem elements_setAllEmpty (b : Block α) :
    (b.setAllEmpty t ctx).elements = b.elements := by
  unfold setAllEmpty
  split <;> rfl

/-- Marks do not depend on anything else in the block. -/
theorem Marked.congr {b' : Block α} (h : Marked t ctx b m) (hf : b'.emptyFlags = b.emptyFlags)
    (hc : b'.elementsCompletelyDequeued = b.elementsCompletelyDequeued) : Marked t ctx b' m := by
  unfold Marked at h ⊢
  rwa [hf, hc]

end Block

end ConcurrentQueue
