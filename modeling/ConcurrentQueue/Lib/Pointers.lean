import Mathlib.Logic.Function.Basic
import Mathlib.Tactic

/-!
# ConcurrentQueue.Lib.Pointers

**Pointers in both directions.** Some `α` point to some `β`, and these point back:
`Matched f g` says that the two agree, so that nothing is pointed to twice. Whoever
changes a pointer has to patch the other one, and `point` is that patch.
-/

namespace Pointers

open Function

variable {α β : Type*}

def Matched (f : α → Option β) (g : β → Option α) : Prop := ∀ a b, f a = some b ↔ g b = some a

/-- What `o` points to, if anything, is to point back to `a`. -/
def point [DecidableEq β] (g : β → Option α) (a : α) : Option β → β → Option α
  | none => g
  | some b => update g b (some a)

variable {f : α → Option β} {g : β → Option α} {a c : α} {b : β}

theorem Matched.unique (h : Matched f g) (ha : f a = some b) (hc : f c = some b) : a = c :=
  Option.some.inj (((h a b).mp ha).symm.trans ((h c b).mp hc))

variable [DecidableEq α] [DecidableEq β]

/-- Two values written twice. -/
theorem update_pair {γ : Type*} {f : α → γ} (h : a ≠ c) {x y x' y' : γ} :
    update (update (update (update f a x) c y) a x') c y' =
      update (update f a x') c y' := by
  rw [update_comm h.symm, update_idem, update_idem]

theorem Matched.link (h : Matched f g) (ha : f a = none) (hb : g b = none) :
    Matched (update f a (some b)) (update g b (some a)) := by
  intro x y
  rcases eq_or_ne x a with rfl | hx <;> rcases eq_or_ne y b with rfl | hy
  · simp
  · rw [update_self, update_of_ne hy, ← h x y, ha]
    simp [hy.symm]
  · rw [update_self, update_of_ne hx, h x y, hb]
    simp [hx.symm]
  · rw [update_of_ne hx, update_of_ne hy, h x y]

theorem Matched.unlink (h : Matched f g) (ha : f a = some b) :
    Matched (update f a none) (update g b none) := by
  have hb := (h a b).mp ha
  intro x y
  rcases eq_or_ne x a with rfl | hx <;> rcases eq_or_ne y b with rfl | hy
  · simp
  · rw [update_self, update_of_ne hy, ← h x y, ha]
    simp [hy.symm]
  · rw [update_self, update_of_ne hx, h x y, hb]
    simp [hx.symm]
  · rw [update_of_ne hx, update_of_ne hy, h x y]

/-- `c` takes over what `a` points to. -/
theorem Matched.move (h : Matched f g) (hc : f c = none) :
    Matched (update (update f c (f a)) a none) (point g c (f a)) := by
  cases ha : f a with
  | none => rwa [← hc, update_eq_self, hc, ← ha, update_eq_self, ha]
  | some b =>
      have hne : c ≠ a := by
        rintro rfl
        rw [hc] at ha
        cases ha
      have hlink := (h.unlink ha).link (a := c) (b := b)
        (by rwa [update_of_ne hne]) (update_self ..)
      rwa [update_comm hne.symm, update_idem] at hlink

/-- Two exchange what they point to. -/
theorem Matched.swap (h : Matched f g) :
    Matched (update (update f a (f c)) c (f a))
      (point (point g a (f c)) c (f a)) := by
  rcases eq_or_ne a c with rfl | hne
  · have hpoint : point g a (f a) = g := by
      cases ha : f a with
      | none => rfl
      | some b => rw [point, ← (h a b).mp ha, update_eq_self]
    rwa [update_eq_self, update_eq_self, hpoint, hpoint]
  cases ha : f a with
  | none =>
      have hmove := h.move (a := c) ha
      rwa [point]
  | some b =>
      cases hc : f c with
      | none =>
          have hmove := h.move (a := a) hc
          rw [ha] at hmove
          rwa [update_comm hne, point]
      | some b' =>
          have hb : b ≠ b' := by
            rintro rfl
            exact hne (h.unique ha hc)
          have hfree := (h.unlink ha).unlink (a := c) (b := b')
            (by rwa [update_of_ne hne.symm])
          have hlink := (hfree.link (a := a) (b := b')
            (by rw [update_of_ne hne, update_self])
            (update_self ..)).link (a := c) (b := b)
              (by rw [update_of_ne hne.symm, update_self])
              (by rw [update_of_ne hb, update_of_ne hb, update_self])
          rwa [update_pair hne, update_idem, update_comm hb,
            update_idem] at hlink

end Pointers
