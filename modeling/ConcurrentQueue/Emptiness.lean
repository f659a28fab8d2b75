import ConcurrentQueue.Block

/-!
# ConcurrentQueue.Emptiness

**The flags and the counter of a block tell the same.** Callers mark no slot twice
between two resets. Then the flags of the explicit context and the counter of the
implicit one both stand for the set of the slots marked since the last reset, whichever
order these have been marked in, and so they agree on whether the block is empty.
-/

namespace ConcurrentQueue

open Finset (range Ico)

variable {α : Type*} {t : Traits} {ctx : InnerQueueContext}

/-! ### Calls -/

inductive MarkCall (w : Nat)
  | resetEmpty
  | setAllEmpty
  | setEmpty (i : BitVec w)
  | setManyEmpty (i : BitVec w) (count : Nat)

namespace MarkCall

/-- The block after the call and what the call returns, if anything. -/
def run (t : Traits) (ctx : InnerQueueContext) (b : Block α) :
    MarkCall t.bits → Option (Block α × Option Bool)
  | resetEmpty => some (b.resetEmpty t ctx, none)
  | setAllEmpty => some (b.setAllEmpty t ctx, none)
  | setEmpty i => (b.setEmpty t ctx i).map fun r => (r.1, some r.2)
  | setManyEmpty i count => (b.setManyEmpty t ctx i count).map fun r => (r.1, some r.2)

/-- The slots marked since the last reset, when they were `marks` before the call. -/
def after (t : Traits) (marks : Finset Nat) : MarkCall t.bits → Finset Nat
  | resetEmpty => ∅
  | setAllEmpty => range t.BLOCK_SIZE
  | setEmpty i => marks ∪ {t.offset i}
  | setManyEmpty i count => marks ∪ Ico (t.offset i) (t.offset i + count)

/-- What callers see to: a range is not empty and lies in one block, and no slot is marked
that has been marked since the last reset. -/
def Allowed (t : Traits) (marks : Finset Nat) : MarkCall t.bits → Prop
  | resetEmpty => True
  | setAllEmpty => True
  | setEmpty i => t.offset i ∉ marks
  | setManyEmpty i count => 1 ≤ count ∧ t.offset i + count ≤ t.BLOCK_SIZE ∧
      Disjoint marks (Ico (t.offset i) (t.offset i + count))

instance (marks : Finset Nat) : (call : MarkCall t.bits) → Decidable (call.Allowed t marks)
  | resetEmpty => inferInstanceAs (Decidable True)
  | setAllEmpty => inferInstanceAs (Decidable True)
  | setEmpty i => inferInstanceAs (Decidable (t.offset i ∉ marks))
  | setManyEmpty i count => inferInstanceAs (Decidable (1 ≤ count ∧
      t.offset i + count ≤ t.BLOCK_SIZE ∧ Disjoint marks (Ico (t.offset i) (t.offset i + count))))

end MarkCall

def runCalls (t : Traits) (ctx : InnerQueueContext) : List (MarkCall t.bits) → Block α →
    Option (Block α)
  | [], b => some b
  | call :: calls, b => (call.run t ctx b).bind fun r => runCalls t ctx calls r.1

def marksAfter (t : Traits) (marks : Finset Nat) (calls : List (MarkCall t.bits)) : Finset Nat :=
  calls.foldl (MarkCall.after t) marks

/-- Each call is allowed when its turn comes. -/
def Proper (t : Traits) : Finset Nat → List (MarkCall t.bits) → Prop
  | _, [] => True
  | marks, call :: calls => call.Allowed t marks ∧ Proper t (call.after t marks) calls

instance decidableProper (t : Traits) : (marks : Finset Nat) → (calls : List (MarkCall t.bits)) →
    Decidable (Proper t marks calls)
  | _, [] => inferInstanceAs (Decidable True)
  | marks, call :: calls =>
      have := decidableProper t (call.after t marks) calls
      inferInstanceAs (Decidable (_ ∧ _))

/-- The `count` calls of `set_empty` for the indices from `i` on. -/
def Block.setEmptyEach (t : Traits) (ctx : InnerQueueContext) (i : BitVec t.bits) :
    (count : Nat) → Block α → Option (Block α)
  | 0, b => some b
  | count + 1, b => (setEmptyEach t ctx i count b).bind fun b =>
      (b.setEmpty t ctx (i + BitVec.ofNat t.bits count)).map (·.1)

/-! ### Ranges -/

namespace Block

variable {b : Block α} {marks : Finset Nat} {i : BitVec t.bits} {count : Nat}

theorem offset_add (h : t.offset i + count < t.BLOCK_SIZE) :
    t.offset (i + BitVec.ofNat t.bits count) = t.offset i + count := by
  have hi : i = BitVec.ofNat t.bits i.toNat := by simp
  have hoff : t.offset i = i.toNat % t.BLOCK_SIZE := by
    conv_lhs => rw [hi, Traits.offset_ofNat]
  rw [hi, BitVec.ofNat_add_ofNat, Traits.offset_ofNat, ← hi, Nat.add_mod, ← hoff]
  rw [Nat.mod_eq_of_lt (show count < t.BLOCK_SIZE by omega), Nat.mod_eq_of_lt h]

/-- A range is marked like a shorter one and then its last slot. -/
theorem markRange_succ (hcount : t.offset i + (count + 1) ≤ t.BLOCK_SIZE) :
    (b.markRange t ctx i count).markRange t ctx (i + BitVec.ofNat t.bits count) 1 =
      b.markRange t ctx i (count + 1) := by
  have hoff : t.offset (i + BitVec.ofNat t.bits count) = t.offset i + count :=
    offset_add (by omega)
  unfold markRange
  rw [hoff]
  cases hf : usesFlags t ctx with
  | false => simp only [Bool.false_eq_true, if_false, Nat.add_assoc]
  | true =>
      simp only [if_true]
      congr 1
      funext j
      by_cases hj : t.BLOCK_SIZE - t.offset i - (count + 1) ≤ j ∧ j < t.BLOCK_SIZE - t.offset i
      · rw [if_pos hj]
        split
        · rfl
        · rw [if_pos (by omega)]
      · rw [if_neg hj, if_neg (by omega), if_neg (by omega)]

/-- **Marking a range is marking each of its slots.** -/
theorem Marks.setEmptyEach_eq (h : Marks t ctx b marks) (hsub : marks ⊆ range t.BLOCK_SIZE)
    (hcount : t.offset i + count ≤ t.BLOCK_SIZE)
    (hfree : Disjoint marks (Ico (t.offset i) (t.offset i + count))) :
    b.setEmptyEach t ctx i count = some (b.markRange t ctx i count) := by
  induction count with
  | zero =>
      unfold Block.markRange setEmptyEach
      cases usesFlags t ctx with
      | false => rfl
      | true =>
          have hnone : ∀ j, ¬ (t.BLOCK_SIZE - t.offset i - 0 ≤ j ∧ j < t.BLOCK_SIZE - t.offset i) :=
            fun j => by omega
          simp only [hnone, if_true, if_false]
  | succ count ih =>
      have hle : t.offset i + count ≤ t.BLOCK_SIZE := by omega
      have hoff : t.offset (i + BitVec.ofNat t.bits count) = t.offset i + count :=
        offset_add (by omega)
      have hshort : Disjoint marks (Ico (t.offset i) (t.offset i + count)) :=
        hfree.mono_right (Finset.Ico_subset_Ico_right (by omega))
      have hlast : t.offset (i + BitVec.ofNat t.bits count) ∉
          marks ∪ Ico (t.offset i) (t.offset i + count) := by
        rw [hoff, Finset.mem_union, Finset.mem_Ico, not_or]
        refine ⟨fun hmem => ?_, by omega⟩
        exact Finset.disjoint_left.mp hfree hmem (Finset.mem_Ico.mpr ⟨by omega, by omega⟩)
      have hone : Disjoint (marks ∪ Ico (t.offset i) (t.offset i + count))
          (Ico (t.offset (i + BitVec.ofNat t.bits count))
            (t.offset (i + BitVec.ofNat t.bits count) + 1)) := by
        rw [Nat.Ico_succ_singleton, Finset.disjoint_singleton_right]
        exact hlast
      have hmarks := h.markRange hle hshort
      have hsub' := marks_subset (i := i) hsub hle
      rw [setEmptyEach, ih hle hshort, Option.bind_some, hmarks.setEmpty_eq hsub' hlast,
        hmarks.setManyEmpty_eq hsub' (by omega) hone, Option.map_some, markRange_succ hcount]

end Block

/-! ### Sequences of calls -/

section Calls

open Block (Marks)

variable {b : Block α} {marks : Finset Nat} {call : MarkCall t.bits}

theorem MarkCall.after_subset (hsub : marks ⊆ range t.BLOCK_SIZE) (hok : call.Allowed t marks) :
    call.after t marks ⊆ range t.BLOCK_SIZE := by
  cases call with
  | resetEmpty => exact Finset.empty_subset _
  | setAllEmpty => exact subset_rfl
  | setEmpty i =>
      refine Finset.union_subset hsub (Finset.singleton_subset_iff.mpr ?_)
      exact Finset.mem_range.mpr (t.offset_lt i)
  | setManyEmpty i count => exact Block.marks_subset hsub hok.2.1

/-- **An allowed call does not fail**, and the counter says which one completes the block. -/
theorem MarkCall.run_allowed (h : Marks t ctx b marks) (hsub : marks ⊆ range t.BLOCK_SIZE)
    (hok : call.Allowed t marks) : ∃ b' returned, call.run t ctx b = some (b', returned) ∧
      Marks t ctx b' (call.after t marks) ∧ ∀ full, returned = some full →
        (full = true ↔ Block.usesFlags t ctx = false ∧
          call.after t marks = range t.BLOCK_SIZE) := by
  cases call with
  | resetEmpty => exact ⟨_, _, rfl, Block.marks_resetEmpty b, nofun⟩
  | setAllEmpty => exact ⟨_, _, rfl, Block.marks_setAllEmpty b, nofun⟩
  | setManyEmpty i count =>
      obtain ⟨-, hcount, hfree⟩ := hok
      refine ⟨_, _, congrArg (Option.map fun r : Block α × Bool => (r.1, some r.2))
        (h.setManyEmpty_eq hsub hcount hfree), h.markRange hcount hfree, ?_⟩
      rintro full ⟨rfl⟩
      exact decide_eq_true_iff
  | setEmpty i =>
      have hcount : t.offset i + 1 ≤ t.BLOCK_SIZE := t.offset_lt i
      have hone : Ico (t.offset i) (t.offset i + 1) = {t.offset i} := Nat.Ico_succ_singleton _
      have hfree : Disjoint marks (Ico (t.offset i) (t.offset i + 1)) := by
        rw [hone, Finset.disjoint_singleton_right]
        exact hok
      have hmarks := h.markRange hcount hfree
      rw [hone] at hmarks
      refine ⟨_, _, congrArg (Option.map fun r : Block α × Bool => (r.1, some r.2))
        ((h.setEmpty_eq hsub hok).trans (h.setManyEmpty_eq hsub hcount hfree)), hmarks, ?_⟩
      rintro full ⟨rfl⟩
      rw [decide_eq_true_iff, hone]
      rfl

theorem runCalls_marks {calls : List (MarkCall t.bits)} (h : Marks t ctx b marks)
    (hsub : marks ⊆ range t.BLOCK_SIZE) (hproper : Proper t marks calls) :
    ∃ b', runCalls t ctx calls b = some b' ∧ Marks t ctx b' (marksAfter t marks calls) ∧
      marksAfter t marks calls ⊆ range t.BLOCK_SIZE := by
  induction calls generalizing b marks with
  | nil => exact ⟨b, rfl, h, hsub⟩
  | cons call calls ih =>
      obtain ⟨hok, hrest⟩ := hproper
      obtain ⟨b₁, returned, hrun, hmarks, -⟩ := MarkCall.run_allowed h hsub hok
      obtain ⟨b', hcalls, hmarks', hsub'⟩ := ih hmarks (MarkCall.after_subset hsub hok) hrest
      refine ⟨b', ?_, hmarks', hsub'⟩
      rw [runCalls, hrun, Option.bind_some, hcalls]

end Calls

/-! ### The two representations -/

/-- What a block tells of the slots `marks` that have been marked since the last reset, and
how it takes the next call. -/
structure Tells (t : Traits) (ctx : InnerQueueContext) (b : Block α) (marks : Finset Nat) :
    Prop where
  isEmpty : b.isEmpty t ctx = some (decide (∀ i < t.BLOCK_SIZE, i ∈ marks))
  many : ∀ i count, (MarkCall.setManyEmpty i count).Allowed t marks →
    b.setEmptyEach t ctx i count = (b.setManyEmpty t ctx i count).map (·.1)
  next : ∀ call : MarkCall t.bits, call.Allowed t marks → ∃ b' returned,
    call.run t ctx b = some (b', returned) ∧ (Block.usesFlags t ctx = false →
      ∀ full, returned = some full →
        (full = true ↔ ∀ i < t.BLOCK_SIZE, i ∈ call.after t marks))

theorem Block.Marks.tells {b : Block α} {marks : Finset Nat} (h : Marks t ctx b marks)
    (hsub : marks ⊆ range t.BLOCK_SIZE) : Tells t ctx b marks := by
  have hall : ∀ {marks : Finset Nat}, marks ⊆ range t.BLOCK_SIZE →
      (marks = range t.BLOCK_SIZE ↔ ∀ i < t.BLOCK_SIZE, i ∈ marks) := fun hsub => by
    rw [Finset.Subset.antisymm_iff, and_iff_right hsub]
    simp only [Finset.subset_iff, Finset.mem_range]
  refine ⟨?_, fun i count hok => ?_, fun call hok => ?_⟩
  · rw [h.isEmpty hsub, Option.some.injEq, decide_eq_decide, hall hsub]
  · obtain ⟨-, hcount, hfree⟩ := hok
    rw [h.setEmptyEach_eq hsub hcount hfree, h.setManyEmpty_eq hsub hcount hfree]
    rfl
  · obtain ⟨b', returned, hrun, -, hfull⟩ := MarkCall.run_allowed h hsub hok
    refine ⟨b', returned, hrun, fun hf full hret => ?_⟩
    rw [hfull full hret, and_iff_right hf, hall (MarkCall.after_subset hsub hok)]

/-- **Flags and counter agree.** Starting with a reset, in one direction or the other, no
call fails in either context as long as the callers mark no slot twice. -/
theorem emptiness_agrees {start : MarkCall t.bits} {calls : List (MarkCall t.bits)}
    (hstart : start = .resetEmpty ∨ start = .setAllEmpty)
    (hproper : Proper t ∅ (start :: calls)) (b b' : Block α) :
    ∃ flags counter, runCalls t .explicitContext (start :: calls) b = some flags ∧
      runCalls t .implicitContext (start :: calls) b' = some counter ∧
      flags.isEmpty t .explicitContext = counter.isEmpty t .implicitContext ∧
      Tells t .explicitContext flags (marksAfter t ∅ (start :: calls)) ∧
      Tells t .implicitContext counter (marksAfter t ∅ (start :: calls)) := by
  have hruns : ∀ ctx (b : Block α), ∃ b', runCalls t ctx (start :: calls) b = some b' ∧
      Tells t ctx b' (marksAfter t ∅ (start :: calls)) := fun ctx b => by
    have hfirst : ∃ b₁ returned, start.run t ctx b = some (b₁, returned) ∧
        Block.Marks t ctx b₁ (start.after t ∅) := by
      rcases hstart with rfl | rfl
      · exact ⟨_, _, rfl, Block.marks_resetEmpty b⟩
      · exact ⟨_, _, rfl, Block.marks_setAllEmpty b⟩
    obtain ⟨b₁, returned, hrun, hmarks⟩ := hfirst
    obtain ⟨b', hcalls, hmarks', hsub⟩ := runCalls_marks hmarks
      (MarkCall.after_subset (Finset.empty_subset _) hproper.1) hproper.2
    refine ⟨b', ?_, hmarks'.tells hsub⟩
    rw [runCalls, hrun, Option.bind_some, hcalls]
  obtain ⟨flags, hflags, htells⟩ := hruns .explicitContext b
  obtain ⟨counter, hcounter, htells'⟩ := hruns .implicitContext b'
  exact ⟨flags, counter, hflags, hcounter, htells.isEmpty.trans htells'.isEmpty.symm, htells,
    htells'⟩

/-- Blocks of four slots. -/
def fourSlots : Traits where
  bits := 8
  blockLog := 2
  explicitIndexLog := 2
  implicitIndexLog := 2
  EXPLICIT_BLOCK_EMPTY_COUNTER_THRESHOLD := 32
  maxSubqueueSize := BitVec.allOnes 8
  RECYCLE_ALLOCATED_BLOCKS := false
  blockLog_pos := by decide
  blockLog_lt := by decide
  explicitIndexLog_pos := by decide
  explicitIndexLog_lt := by decide
  implicitIndexLog_pos := by decide
  implicitIndexLog_lt := by decide

/-- A block as it is allocated. -/
def newBlock : Block Nat := ⟨fun _ => none, none, 0, fun _ => false, true⟩

theorem emptiness_agrees_fourSlots : ∃ flags counter,
    runCalls fourSlots .explicitContext
      [.resetEmpty, .setManyEmpty 253 2, .setEmpty 0, .setEmpty 255] newBlock = some flags ∧
    runCalls fourSlots .implicitContext
      [.resetEmpty, .setManyEmpty 253 2, .setEmpty 0, .setEmpty 255] newBlock = some counter ∧
    flags.isEmpty fourSlots .explicitContext = some true ∧
    counter.isEmpty fourSlots .implicitContext = some true := by
  have hproper : Proper fourSlots ∅
      [.resetEmpty, .setManyEmpty 253 2, .setEmpty 0, .setEmpty 255] := by decide
  obtain ⟨flags, counter, hflags, hcounter, hsame, htells, -⟩ := emptiness_agrees
    (.inl rfl) hproper newBlock newBlock
  have hempty : flags.isEmpty fourSlots .explicitContext = some true := by
    rw [htells.isEmpty]
    decide
  exact ⟨flags, counter, hflags, hcounter, hempty, hsame.symm.trans hempty⟩

end ConcurrentQueue
