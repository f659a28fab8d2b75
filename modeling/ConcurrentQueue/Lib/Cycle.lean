import Mathlib.Data.Set.Insert
import Mathlib.Logic.Function.Basic
import Mathlib.Logic.Relation

/-!
# ConcurrentQueue.Lib.Cycle

**Circular lists.** The nodes `A` form a cycle when links lead from each of them to another
of them, and along the links to all of them (`IsCycle`). Which node one starts at does not
matter, and a node can be put in after any other.
-/

namespace Cycle

variable {ν : Type*} {next next' : ν → Option ν} {A : Set ν} {a b c : ν}

/-- There is a way along the links. -/
def Reaches (next : ν → Option ν) : ν → ν → Prop :=
  Relation.ReflTransGen fun a b => next a = some b

structure IsCycle (next : ν → Option ν) (A : Set ν) : Prop where
  closed : ∀ a ∈ A, ∃ b ∈ A, next a = some b
  reaches : ∀ a ∈ A, ∀ b ∈ A, Reaches next a b

theorem isCycle_empty (next : ν → Option ν) : IsCycle next ∅ := ⟨nofun, nofun⟩

theorem isCycle_singleton (h : next a = some a) : IsCycle next {a} where
  closed b hb := ⟨a, rfl, by rw [Set.mem_singleton_iff.mp hb, h]⟩
  reaches b hb c hc := by
    rw [Set.mem_singleton_iff.mp hb, Set.mem_singleton_iff.mp hc]
    exact .refl

namespace IsCycle

variable (h : IsCycle next A)
include h

theorem next_mem (ha : a ∈ A) (hb : next a = some b) : b ∈ A := by
  obtain ⟨c, hc, hnext⟩ := h.closed a ha
  rwa [← Option.some.inj (hnext.symm.trans hb)]

theorem mem_of_reaches (ha : a ∈ A) (hb : Reaches next a b) : b ∈ A := by
  induction hb with
  | refl => exact ha
  | tail _ hstep ih => exact h.next_mem ih hstep

theorem congr (hsame : ∀ a ∈ A, next' a = next a) : IsCycle next' A where
  closed a ha := by rw [hsame a ha]; exact h.closed a ha
  reaches a ha b hb := by
    have hway := h.reaches a ha b hb
    clear hb
    induction hway with
    | refl => exact .refl
    | tail hway hstep ih => exact ih.tail ((hsame _ (h.mem_of_reaches ha hway)).trans hstep)

/-- A node is put in after `a`. -/
theorem insert (ha : a ∈ A) (hb : b ∉ A) (hnext : next' a = some b) (hlink : next' b = next a)
    (hsame : ∀ c ∈ A, c ≠ a → next' c = next c) : IsCycle next' (insert b A) := by
  obtain ⟨c, hc, hac⟩ := h.closed a ha
  have hbc : next' b = some c := hlink.trans hac
  -- each link of the old cycle is a way in the new one
  have hold : ∀ x ∈ A, ∀ y ∈ A, Reaches next' x y := by
    intro x hx y hy
    have hway := h.reaches x hx y hy
    clear hy
    induction hway with
    | refl => exact .refl
    | @tail z w hway hstep ih =>
        by_cases hz : z = a
        · subst hz
          obtain rfl := Option.some.inj (hstep.symm.trans hac)
          exact (ih.tail hnext).tail hbc
        · exact ih.tail ((hsame z (h.mem_of_reaches hx hway) hz).trans hstep)
  refine ⟨fun x hx => ?_, fun x hx y hy => ?_⟩
  · rcases hx with rfl | hx
    · exact ⟨c, .inr hc, hbc⟩
    · by_cases hxa : x = a
      · exact ⟨b, .inl rfl, hxa ▸ hnext⟩
      · obtain ⟨y, hy, hxy⟩ := h.closed x hx
        exact ⟨y, .inr hy, (hsame x hx hxa).trans hxy⟩
  · rcases hx with rfl | hx <;> rcases hy with rfl | hy
    · exact .refl
    · exact (hold c hc y hy).head hbc
    · exact (hold x hx a ha).tail hnext
    · exact hold x hx y hy

end IsCycle

end Cycle
