import Mathlib.Logic.Function.Basic
import Mathlib.Tactic

/-!
# ConcurrentQueue.Lib.Ownership

**Exclusive ownership.** Each agent has at most one resource. `Owned holder active`
says that the active resources are those somebody has, and that nobody shares.
It is kept when an agent takes a resource that is not active and when an agent
gives its resource up; these are the only ways in which `holder` changes.
-/

namespace Ownership

open Function

variable {ι ρ : Type*}

structure Owned (holder : ι → Option ρ) (active : ρ → Prop) : Prop where
  unique : ∀ i j p, holder i = some p → holder j = some p → i = j
  active_iff : ∀ p, active p ↔ ∃ i, holder i = some p

variable {holder : ι → Option ρ} {active active' : ρ → Prop}

theorem Owned.existsUnique (h : Owned holder active) {p : ρ} (hp : active p) :
    ∃! i, holder i = some p := by
  obtain ⟨i, hi⟩ := (h.active_iff p).mp hp
  exact ⟨i, hi, fun j hj => h.unique j i p hj hi⟩

variable [DecidableEq ι]

/-- An agent without a resource takes one that is not active. -/
theorem Owned.gain (h : Owned holder active) {i : ι} {p : ρ} (hi : holder i = none)
    (hp : ¬ active p) (hactive : ∀ q, active' q ↔ q = p ∨ active q) :
    Owned (update holder i (some p)) active' := by
  have hfree : ∀ j, holder j ≠ some p := fun j hj => hp ((h.active_iff p).mpr ⟨j, hj⟩)
  refine ⟨?_, ?_⟩
  · intro j j' q hj hj'
    rcases eq_or_ne i j with rfl | hji <;> rcases eq_or_ne i j' with rfl | hji'
    · rfl
    · rw [update_self] at hj
      rw [update_of_ne hji'.symm] at hj'
      exact absurd (hj'.trans hj.symm) (hfree j')
    · rw [update_self] at hj'
      rw [update_of_ne hji.symm] at hj
      exact absurd (hj.trans hj'.symm) (hfree j)
    · rw [update_of_ne hji.symm] at hj
      rw [update_of_ne hji'.symm] at hj'
      exact h.unique j j' q hj hj'
  · intro q
    rw [hactive, h.active_iff]
    constructor
    · rintro (rfl | ⟨j, hj⟩)
      · exact ⟨i, update_self ..⟩
      · have hji : i ≠ j := by
          rintro rfl
          rw [hi] at hj
          cases hj
        exact ⟨j, by rwa [update_of_ne hji.symm]⟩
    · rintro ⟨j, hj⟩
      rcases eq_or_ne i j with rfl | hji
      · rw [update_self] at hj
        exact .inl (Option.some.inj hj).symm
      · rw [update_of_ne hji.symm] at hj
        exact .inr ⟨j, hj⟩

/-- An agent gives its resource up. -/
theorem Owned.drop (h : Owned holder active) {i : ι} {p : ρ} (hi : holder i = some p)
    (hactive : ∀ q, active' q ↔ active q ∧ q ≠ p) :
    Owned (update holder i none) active' := by
  refine ⟨?_, ?_⟩
  · intro j j' q hj hj'
    rcases eq_or_ne i j with rfl | hji
    · rw [update_self] at hj
      cases hj
    · rcases eq_or_ne i j' with rfl | hji'
      · rw [update_self] at hj'
        cases hj'
      · rw [update_of_ne hji.symm] at hj
        rw [update_of_ne hji'.symm] at hj'
        exact h.unique j j' q hj hj'
  · intro q
    rw [hactive, h.active_iff]
    constructor
    · rintro ⟨⟨j, hj⟩, hqp⟩
      have hji : i ≠ j := by
        rintro rfl
        exact hqp (Option.some.inj (hj.symm.trans hi))
      exact ⟨j, by rwa [update_of_ne hji.symm]⟩
    · rintro ⟨j, hj⟩
      rcases eq_or_ne i j with rfl | hji
      · rw [update_self] at hj
        cases hj
      · rw [update_of_ne hji.symm] at hj
        refine ⟨⟨j, hj⟩, ?_⟩
        rintro rfl
        exact hji (h.unique i j q hi hj)

end Ownership
