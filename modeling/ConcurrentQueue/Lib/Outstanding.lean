import Mathlib.Data.Finset.Union
import Mathlib.Data.Fintype.Basic
import Mathlib.Order.Interval.Finset.Nat

/-!
# ConcurrentQueue.Lib.Outstanding

**Numbers handed out and settled.** A counter hands out consecutive numbers; a
thread that draws some owes the system a piece of work for each and settles them
in its own time. What is outstanding with a thread is a finite set below the
counter, and no number is outstanding with two threads. A number below the
counter that is outstanding with nobody is *settled*.

The module names nothing of the queue: it says how the settled set changes when a
thread draws numbers (not at all) and when it settles some (by exactly these).
-/

namespace Outstanding

open Function

variable {ι : Type*}

/-- No number is outstanding with two threads, and none that was not handed out. -/
structure Apart (head : ℕ) (owed : ι → Finset ℕ) : Prop where
  below : ∀ i, ∀ n ∈ owed i, n < head
  apart : ∀ i j, i ≠ j → Disjoint (owed i) (owed j)

theorem Apart.eq_of_mem {head : ℕ} {owed : ι → Finset ℕ} (h : Apart head owed) {i j : ι} {n : ℕ}
    (hi : n ∈ owed i) (hj : n ∈ owed j) : i = j := by
  by_contra hne
  exact Finset.disjoint_left.mp (h.apart i j hne) hi hj

variable [DecidableEq ι] {head : ℕ} {owed : ι → Finset ℕ} {i : ι}

theorem Apart.draw (h : Apart head owed) (hi : owed i = ∅) (n : ℕ) :
    Apart (head + n) (update owed i (Finset.Ico head (head + n))) where
  below j m hm := by
    rcases eq_or_ne j i with rfl | hj
    · rw [update_self, Finset.mem_Ico] at hm
      exact hm.2
    · rw [update_of_ne hj] at hm
      exact (h.below j m hm).trans_le (Nat.le_add_right _ _)
  apart j k hjk := by
    -- what is new lies above everything that was handed out before
    have hnew : ∀ l, Disjoint (Finset.Ico head (head + n)) (owed l) := by
      intro l
      rw [Finset.disjoint_left]
      intro m hm hl
      have := h.below l m hl
      rw [Finset.mem_Ico] at hm
      omega
    rcases eq_or_ne j i with rfl | hj
    · rw [update_self, update_of_ne hjk.symm]
      exact hnew k
    · rw [update_of_ne hj]
      rcases eq_or_ne k i with rfl | hk
      · rw [update_self]
        exact (hnew j).symm
      · rw [update_of_ne hk]
        exact h.apart j k hjk

theorem Apart.settle (h : Apart head owed) {rest : Finset ℕ} (hrest : rest ⊆ owed i) :
    Apart head (update owed i rest) where
  below j m hm := by
    rcases eq_or_ne j i with rfl | hj
    · rw [update_self] at hm
      exact h.below j m (hrest hm)
    · rw [update_of_ne hj] at hm
      exact h.below j m hm
  apart j k hjk := by
    rcases eq_or_ne j i with rfl | hj
    · rw [update_self, update_of_ne hjk.symm]
      exact Finset.disjoint_of_subset_left hrest (h.apart j k hjk)
    · rw [update_of_ne hj]
      rcases eq_or_ne k i with rfl | hk
      · rw [update_self]
        exact Finset.disjoint_of_subset_right hrest (h.apart j k hjk)
      · rw [update_of_ne hk]
        exact h.apart j k hjk

variable [Fintype ι]

omit [DecidableEq ι] in
/-- Handed out, and outstanding with nobody. -/
def settled (head : ℕ) (owed : ι → Finset ℕ) : Finset ℕ :=
  Finset.range head \ Finset.univ.biUnion owed

omit [DecidableEq ι] in
theorem mem_settled {n : ℕ} : n ∈ settled head owed ↔ n < head ∧ ∀ i, n ∉ owed i := by
  simp [settled]

/-- Drawing numbers settles none. -/
theorem settled_draw (hi : owed i = ∅) (n : ℕ) :
    settled (head + n) (update owed i (Finset.Ico head (head + n))) =
      settled head owed := by
  ext m
  rw [mem_settled, mem_settled]
  constructor
  · rintro ⟨hlt, hall⟩
    have hself := hall i
    rw [update_self, Finset.mem_Ico] at hself
    refine ⟨by omega, fun j => ?_⟩
    rcases eq_or_ne j i with rfl | hj
    · simp [hi]
    · simpa [update_of_ne hj] using hall j
  · rintro ⟨hlt, hall⟩
    refine ⟨by omega, fun j => ?_⟩
    rcases eq_or_ne j i with rfl | hj
    · rw [update_self, Finset.mem_Ico]
      omega
    · simpa [update_of_ne hj] using hall j

/-- Settling some numbers settles these and no others. -/
theorem Apart.settled_settle (h : Apart head owed) {rest : Finset ℕ} (hrest : rest ⊆ owed i) :
    settled head (update owed i rest) = settled head owed ∪ (owed i \ rest) := by
  ext m
  rw [Finset.mem_union, Finset.mem_sdiff, mem_settled, mem_settled]
  constructor
  · rintro ⟨hlt, hall⟩
    have hself := hall i
    rw [update_self] at hself
    by_cases hm : m ∈ owed i
    · exact .inr ⟨hm, hself⟩
    · refine .inl ⟨hlt, fun j => ?_⟩
      rcases eq_or_ne j i with rfl | hj
      · exact hm
      · simpa [update_of_ne hj] using hall j
  · rintro (⟨hlt, hall⟩ | ⟨hm, hnot⟩)
    · refine ⟨hlt, fun j => ?_⟩
      rcases eq_or_ne j i with rfl | hj
      · rw [update_self]
        exact fun hmem => hall j (hrest hmem)
      · simpa [update_of_ne hj] using hall j
    · refine ⟨h.below i m hm, fun j => ?_⟩
      rcases eq_or_ne j i with rfl | hj
      · rwa [update_self]
      · rw [update_of_ne hj]
        exact fun hmem => hj (h.eq_of_mem hmem hm)

omit [DecidableEq ι] in
theorem not_mem_settled {n : ℕ} (hn : n ∈ owed i) : n ∉ settled head owed :=
  fun h => (mem_settled.mp h).2 i hn

end Outstanding
