import Mathlib.Data.Set.Basic
import Mathlib.Logic.Function.Basic

/-!
# ConcurrentQueue.Lib.Custody

**Resources that change hands.** In a state some resources are owned; each of several
parties has a set of them. `Moves A A' x y` says what a step of one party may do: it
starts with the set `A`, ends with `A'`, and leaves the contents of all that others
own as they were. Steps compose, and as long as every step of every party is such a
move, what is owned stays divided among the parties (`Divided`).
-/

namespace Custody

open Function

variable {σ ι κ π : Type*} {owned : σ → Set ι} {content : σ → ι → κ} {A A' A'' : Set ι}
  {x y z : σ}

/-! ### Moves -/

structure Moves (owned : σ → Set ι) (content : σ → ι → κ) (A A' : Set ι) (x y : σ) : Prop where
  kept : ∀ b ∈ owned x, b ∉ A → content y b = content x b
  owned_iff : ∀ b, b ∈ owned y ↔ (b ∈ owned x ∧ b ∉ A) ∨ b ∈ A'
  fresh : ∀ b ∈ A', b ∉ A → b ∉ owned x

theorem Moves.refl (hA : A ⊆ owned x) : Moves owned content A A x x where
  kept _ _ _ := rfl
  owned_iff b := by
    constructor
    · intro hb
      by_cases hbA : b ∈ A
      · exact .inr hbA
      · exact .inl ⟨hb, hbA⟩
    · rintro (⟨hb, -⟩ | hb)
      · exact hb
      · exact hA hb
  fresh _ hb hbA := absurd hb hbA

namespace Moves

variable (h : Moves owned content A A' x y)
include h

/-- What others own is still theirs. -/
theorem others_iff (b : ι) : b ∈ owned y ∧ b ∉ A' ↔ b ∈ owned x ∧ b ∉ A := by
  constructor
  · rintro ⟨hb, hbA'⟩
    exact ((h.owned_iff b).mp hb).resolve_right hbA'
  · rintro ⟨hb, hbA⟩
    exact ⟨(h.owned_iff b).mpr (.inl ⟨hb, hbA⟩), fun hbA' => h.fresh b hbA' hbA hb⟩

theorem trans (h' : Moves owned content A' A'' y z) : Moves owned content A A'' x z where
  kept b hb hbA := by
    obtain ⟨hby, hbA'⟩ := (h.others_iff b).mpr ⟨hb, hbA⟩
    rw [h'.kept b hby hbA', h.kept b hb hbA]
  owned_iff b := by rw [h'.owned_iff b, h.others_iff b]
  fresh b hb hbA hbx := by
    obtain ⟨hby, hbA'⟩ := (h.others_iff b).mpr ⟨hbx, hbA⟩
    exact h'.fresh b hb hbA' hby

end Moves

/-! ### Parties -/

/-- What is owned is divided among the parties. -/
structure Divided (owned : Set ι) (A : π → Set ι) : Prop where
  disjoint : ∀ i j b, b ∈ A i → b ∈ A j → i = j
  cover : ∀ b, b ∈ owned ↔ ∃ i, b ∈ A i

namespace Divided

variable {A : π → Set ι} (h : Divided (owned x) A)
include h

theorem subset (i : π) : A i ⊆ owned x := fun b hb => (h.cover b).mpr ⟨i, hb⟩

/-- A move of one party leaves the others what they have, as it was. -/
theorem kept {i j : π} (hm : Moves owned content (A i) A' x y) (hj : j ≠ i) {b : ι}
    (hb : b ∈ A j) : content y b = content x b :=
  hm.kept b (h.subset j hb) fun hbi => hj (h.disjoint j i b hb hbi)

variable [DecidableEq π]

theorem move {i : π} (hm : Moves owned content (A i) A' x y) :
    Divided (owned y) (update A i A') := by
  have hother : ∀ {j b}, j ≠ i → b ∈ A j → b ∈ owned y ∧ b ∉ A' := fun {j b} hj hb =>
    (hm.others_iff b).mpr ⟨h.subset j hb, fun hbi => hj (h.disjoint j i b hb hbi)⟩
  refine ⟨fun j k b hj hk => ?_, fun b => ?_⟩
  · by_cases hji : j = i <;> by_cases hki : k = i
    · rw [hji, hki]
    · rw [hji, update_self] at hj
      rw [update_of_ne hki] at hk
      exact absurd hj (hother hki hk).2
    · rw [update_of_ne hji] at hj
      rw [hki, update_self] at hk
      exact absurd hk (hother hji hj).2
    · rw [update_of_ne hji] at hj
      rw [update_of_ne hki] at hk
      exact h.disjoint j k b hj hk
  · constructor
    · intro hb
      rcases (hm.owned_iff b).mp hb with ⟨hbx, hbi⟩ | hbA'
      · obtain ⟨j, hj⟩ := (h.cover b).mp hbx
        have hji : j ≠ i := fun heq => hbi (heq ▸ hj)
        exact ⟨j, by rwa [update_of_ne hji]⟩
      · exact ⟨i, by rwa [update_self]⟩
    · rintro ⟨j, hj⟩
      by_cases hji : j = i
      · rw [hji, update_self] at hj
        exact (hm.owned_iff b).mpr (.inr hj)
      · rw [update_of_ne hji] at hj
        exact (hother hji hj).1

end Divided

end Custody
