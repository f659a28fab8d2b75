import ConcurrentQueue.Leftovers

/-!
# ConcurrentQueue.NarrowIndex

**When the loops of a bulk dequeue end.** They go on while `index != firstIndex +
actualCount`. An `index_t` narrower than `int` is promoted for the sum, which does not wrap
then: if the claimed range goes around the end of the type, no index is ever equal to it, and
neither the loop nor the one in the catch block comes to its end. In all other cases a call
does what it does where sums wrap, so that what is known of such calls carries over.
-/

namespace ConcurrentQueue

variable {α : Type} {e : Env} {intBits fuel : Nat} {max : BitVec e.bits}

/-- The number of elements that a bulk dequeue claims, going by the counters. -/
def bulkClaim {w : Nat} (max tailIndex dequeueOptimisticCount dequeueOvercommit : BitVec w) :
    BitVec w :=
  let available := tailIndex - (dequeueOptimisticCount - dequeueOvercommit)
  if circularLessThan 0#w available then
    let desiredCount := if available < max then available else max
    if desiredCount < available then desiredCount else available
  else 0#w

/-! ### The explicit producer -/

namespace Explicit

variable {st st' : State e.bits α}

/-- The range that a bulk call claims comes to an end. -/
abbrev Ends (intBits : Nat) (max : BitVec e.bits) (st : State e.bits α) : Prop :=
  RangeEnds intBits st.prod.headIndex (bulkClaim max st.prod.tailIndex
    st.prod.dequeueOptimisticCount st.prod.dequeueOvercommit)

theorem dequeueBulkOn_eq (h : Ends intBits max st) (throwsAt : Option Nat) :
    dequeueBulkOn e intBits (2 ^ e.bits) max throwsAt st = dequeueBulk e max throwsAt st := by
  unfold dequeueBulk dequeueBulkOn
  by_cases hmore : circularLessThan 0#e.bits (st.prod.tailIndex -
      (st.prod.dequeueOptimisticCount - st.prod.dequeueOvercommit)) = true
  · rw [Ends, bulkClaim, if_pos hmore] at h
    simp only [if_pos hmore, apply_ite ExplicitProducer.headIndex, ite_self,
      Walk.drainBlocksUntil_wraps, Walk.drainBlocksUntil_eq h]
  · simp only [if_neg hmore]

theorem dequeueBulkOn_none (h : ¬ Ends intBits max st) (fuel : Nat) (throwsAt : Option Nat) :
    dequeueBulkOn e intBits fuel max throwsAt st = none := by
  unfold dequeueBulkOn
  by_cases hmore : circularLessThan 0#e.bits (st.prod.tailIndex -
      (st.prod.dequeueOptimisticCount - st.prod.dequeueOvercommit)) = true
  · rw [Ends, bulkClaim, if_pos hmore] at h
    simp only [if_pos hmore, apply_ite ExplicitProducer.headIndex, ite_self,
      Walk.drainBlocksUntil_none (atRangeEnd_eq_false h), Option.bind_eq_bind, Option.bind_none,
      Option.bind_fun_none]
  · rw [Ends, bulkClaim, if_neg hmore] at h
    exact absurd .of_zero h

theorem toNat_bulkClaim {n : Nat} {xs : List α}
    (h : dequeueBulk e max none st = some (st', .returned n xs)) :
    (bulkClaim max st.prod.tailIndex st.prod.dequeueOptimisticCount
      st.prod.dequeueOvercommit).toNat = n := by
  unfold dequeueBulk dequeueBulkOn at h
  by_cases hmore : circularLessThan 0#e.bits (st.prod.tailIndex -
      (st.prod.dequeueOptimisticCount - st.prod.dequeueOvercommit)) = true
  · rw [bulkClaim, if_pos hmore]
    simp only [if_pos hmore, Option.bind_eq_bind, Option.bind_eq_some_iff] at h
    obtain ⟨hdr, -, slot, -, ⟨ys, mem', threw⟩, -, h⟩ := h
    cases threw with
    | true => simp at h
    | false =>
        simp only [Option.some.injEq, Prod.mk.injEq, Bool.false_eq_true, if_false,
          Popped.returned.injEq] at h
        exact h.2.1
  · rw [bulkClaim, if_neg hmore, BitVec.toNat_ofNat, Nat.zero_mod]
    simp only [if_neg hmore, Option.some.injEq, Prod.mk.injEq, Popped.returned.injEq] at h
    exact h.2.1

/-- A call that comes back does what it does where sums wrap. -/
theorem step_of_stepOn {c : Call e.bits α} {o : Outcome α}
    (h : stepOn e intBits c st = some (st', o)) : step e c st = some (st', o) := by
  cases c with
  | enqueue | enqueueBulk | dequeue => exact h
  | dequeueBulk max throwsAt =>
      by_cases hends : Ends intBits max st
      · rwa [stepOn, dequeueBulkOn_eq hends] at h
      · rw [stepOn, dequeueBulkOn_none hends] at h
        cases h

end Explicit

/-! ### The implicit producer -/

namespace Implicit

variable {st st' : State e.bits α}

/-- The range that a bulk call claims comes to an end. -/
abbrev Ends (intBits : Nat) (max : BitVec e.bits) (st : State e.bits α) : Prop :=
  RangeEnds intBits st.prod.headIndex (bulkClaim max st.prod.tailIndex
    st.prod.dequeueOptimisticCount st.prod.dequeueOvercommit)

theorem dequeueBulkOn_eq (h : Ends intBits max st) (throwsAt : Option Nat) :
    dequeueBulkOn e intBits (2 ^ e.bits) max throwsAt st = dequeueBulk e max throwsAt st := by
  unfold dequeueBulk dequeueBulkOn
  by_cases hmore : circularLessThan 0#e.bits (st.prod.tailIndex -
      (st.prod.dequeueOptimisticCount - st.prod.dequeueOvercommit)) = true
  · rw [Ends, bulkClaim, if_pos hmore] at h
    simp only [if_pos hmore, apply_ite ImplicitProducer.headIndex, ite_self,
      Walk.drainBlocksUntil_wraps, Walk.drainBlocksUntil_eq h]
  · simp only [if_neg hmore]

theorem dequeueBulkOn_none (h : ¬ Ends intBits max st) (fuel : Nat) (throwsAt : Option Nat) :
    dequeueBulkOn e intBits fuel max throwsAt st = none := by
  unfold dequeueBulkOn
  by_cases hmore : circularLessThan 0#e.bits (st.prod.tailIndex -
      (st.prod.dequeueOptimisticCount - st.prod.dequeueOvercommit)) = true
  · rw [Ends, bulkClaim, if_pos hmore] at h
    simp only [if_pos hmore, apply_ite ImplicitProducer.headIndex, ite_self,
      Walk.drainBlocksUntil_none (atRangeEnd_eq_false h), Option.bind_eq_bind, Option.bind_none,
      Option.bind_fun_none]
  · rw [Ends, bulkClaim, if_neg hmore] at h
    exact absurd .of_zero h

theorem toNat_bulkClaim {n : Nat} {xs : List α}
    (h : dequeueBulk e max none st = some (st', .returned n xs)) :
    (bulkClaim max st.prod.tailIndex st.prod.dequeueOptimisticCount
      st.prod.dequeueOvercommit).toNat = n := by
  unfold dequeueBulk dequeueBulkOn at h
  by_cases hmore : circularLessThan 0#e.bits (st.prod.tailIndex -
      (st.prod.dequeueOptimisticCount - st.prod.dequeueOvercommit)) = true
  · rw [bulkClaim, if_pos hmore]
    simp only [if_pos hmore, Option.bind_eq_bind, Option.bind_eq_some_iff] at h
    obtain ⟨slot, -, ⟨ys, st₁, threw⟩, -, h⟩ := h
    cases threw with
    | true => simp at h
    | false =>
        simp only [Option.some.injEq, Prod.mk.injEq, Bool.false_eq_true, if_false,
          Popped.returned.injEq] at h
        exact h.2.1
  · rw [bulkClaim, if_neg hmore, BitVec.toNat_ofNat, Nat.zero_mod]
    simp only [if_neg hmore, Option.some.injEq, Prod.mk.injEq, Popped.returned.injEq] at h
    exact h.2.1

/-- A call that comes back does what it does where sums wrap. -/
theorem step_of_stepOn {c : Call e.bits α} {o : Outcome α}
    (h : stepOn e intBits c st = some (st', o)) : step e c st = some (st', o) := by
  cases c with
  | enqueue | enqueueBulk | dequeue => exact h
  | dequeueBulk max throwsAt =>
      by_cases hends : Ends intBits max st
      · rwa [stepOn, dequeueBulkOn_eq hends] at h
      · rw [stepOn, dequeueBulkOn_none hends] at h
        cases h

end Implicit

end ConcurrentQueue
