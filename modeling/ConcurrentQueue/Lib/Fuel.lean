import Mathlib.Tactic

/-!
# ConcurrentQueue.Lib.Fuel

**Loops with fuel.** A loop that may not end is a function of an amount of fuel,
`none` when it runs out. That the loop ends with a value is that every large enough
amount gives it.
-/

namespace Fuel

variable {α β : Type*} {f : Nat → Option α} {a b : α}

/-- With enough fuel the computation comes back with `a`. -/
def Returns (f : Nat → Option α) (a : α) : Prop := ∃ n, ∀ fuel, n ≤ fuel → f fuel = some a

theorem Returns.unique (ha : Returns f a) (hb : Returns f b) : a = b := by
  obtain ⟨n, hn⟩ := ha
  obtain ⟨m, hm⟩ := hb
  exact Option.some.inj ((hn (max n m) (le_max_left n m)).symm.trans (hm _ (le_max_right n m)))

theorem Returns.of_forall (h : ∀ fuel, f fuel = some a) : Returns f a := ⟨0, fun fuel _ => h fuel⟩

/-- The loop ends in the first round. -/
theorem Returns.of_succ (h : ∀ fuel, f (fuel + 1) = some a) : Returns f a := by
  refine ⟨1, fun fuel hfuel => ?_⟩
  obtain ⟨fuel, rfl⟩ := Nat.exists_eq_add_of_le' hfuel
  exact h fuel

/-- A round, which asks for a computation of its own. -/
theorem Returns.round {g : Nat → Option β} {b : β} (hf : Returns f a)
    (h : ∀ fuel, f fuel = some a → g (fuel + 1) = some b) : Returns g b := by
  obtain ⟨n, hn⟩ := hf
  refine ⟨n + 1, fun fuel hfuel => ?_⟩
  obtain ⟨fuel, rfl⟩ := Nat.exists_eq_add_of_le' (Nat.le_of_add_left_le hfuel)
  exact h fuel (hn fuel (by omega))

/-- A round, after which the rest of the loop ends. -/
theorem Returns.step {g : Nat → Option α} (hg : Returns g a)
    (h : ∀ fuel, f (fuel + 1) = g fuel) : Returns f a :=
  hg.round fun fuel hfuel => (h fuel).trans hfuel

/-- One computation after the other. -/
theorem Returns.bind {g : α → Nat → Option β} {b : β} (hf : Returns f a) (hg : Returns (g a) b) :
    Returns (fun fuel => (f fuel).bind fun x => g x fuel) b := by
  obtain ⟨n, hn⟩ := hf
  obtain ⟨m, hm⟩ := hg
  refine ⟨max n m, fun fuel hfuel => ?_⟩
  dsimp only
  rw [hn fuel (le_of_max_le_left hfuel), Option.bind_some, hm fuel (le_of_max_le_right hfuel)]

/-- What goes on after the loop. -/
theorem Returns.imp {g : Nat → Option β} {b : β} (hf : Returns f a)
    (h : ∀ fuel, f fuel = some a → g fuel = some b) : Returns g b := by
  obtain ⟨n, hn⟩ := hf
  exact ⟨n, fun fuel hfuel => h fuel (hn fuel hfuel)⟩

/-- The computation comes back with a value that meets `P` where `c` holds, and elsewhere
no amount of fuel is enough. -/
inductive ReturnsIff (c : Prop) (f : Nat → Option α) (P : α → Prop) : Prop
  | comes {a : α} : c → P a → Returns f a → ReturnsIff c f P
  | never : ¬ c → (∀ fuel, f fuel = none) → ReturnsIff c f P

section ReturnsIff

variable {c : Prop} {g : Nat → Option α} {P : α → Prop}

theorem ReturnsIff.returns (h : ReturnsIff c f P) (hc : c) : ∃ a, P a ∧ Returns f a := by
  cases h with
  | comes _ ha hf => exact ⟨_, ha, hf⟩
  | never hnot => exact absurd hc hnot

theorem ReturnsIff.eq_none (h : ReturnsIff c f P) (hc : ¬ c) (fuel : Nat) : f fuel = none := by
  cases h with
  | comes hc' => exact absurd hc' hc
  | never _ hf => exact hf fuel

theorem ReturnsIff.of_returns (h : ReturnsIff c f P) (ha : Returns f a) : P a := by
  cases h with
  | comes _ hb hf => exact hf.unique ha ▸ hb
  | never _ hf =>
      obtain ⟨n, hn⟩ := ha
      exact absurd ((hf n).symm.trans (hn n le_rfl)) nofun

/-- The loop ends in the first round. -/
theorem ReturnsIff.of_succ (hc : c) (ha : P a) (h : ∀ fuel, f (fuel + 1) = some a) :
    ReturnsIff c f P := .comes hc ha (.of_succ h)

/-- A loop whose first round does not come back. -/
theorem ReturnsIff.never_of_succ (hc : ¬ c) (hzero : f 0 = none)
    (h : ∀ fuel, f (fuel + 1) = none) : ReturnsIff c f P :=
  .never hc fun fuel => by
    cases fuel with
    | zero => exact hzero
    | succ fuel => exact h fuel

/-- The same computation, after what comes before it. -/
theorem ReturnsIff.congr {c' : Prop} {Q : α → Prop} (h : ReturnsIff c f P) (hc : c' ↔ c)
    (hP : ∀ a, P a → Q a) (hg : ∀ fuel, g fuel = f fuel) : ReturnsIff c' g Q := by
  rw [show g = f from funext hg]
  cases h with
  | comes hcond ha hf => exact .comes (hc.mpr hcond) (hP _ ha) hf
  | never hcond hf => exact .never (mt hc.mp hcond) hf

theorem ReturnsIff.imp {Q : α → Prop} (h : ReturnsIff c f P) (hP : ∀ a, P a → Q a) :
    ReturnsIff c f Q := h.congr Iff.rfl hP fun _ => rfl

/-- The same computation with another value. -/
theorem ReturnsIff.map {Q : β → Prop} (h : ReturnsIff c f P) (k : α → β)
    (hP : ∀ a, P a → Q (k a)) : ReturnsIff c (fun fuel => (f fuel).map k) Q := by
  cases h with
  | comes hcond ha hf =>
      exact .comes hcond (hP _ ha) (hf.imp fun fuel hfuel => by rw [hfuel, Option.map_some])
  | never hcond hf => exact .never hcond fun fuel => by rw [hf, Option.map_none]

/-- A round, after which the rest of the loop decides. -/
theorem ReturnsIff.step {c' : Prop} {Q : α → Prop} (hg : ReturnsIff c g P) (hc : c' ↔ c)
    (hP : ∀ a, P a → Q a) (hzero : f 0 = none) (h : ∀ fuel, f (fuel + 1) = g fuel) :
    ReturnsIff c' f Q := by
  cases hg with
  | comes hcond ha hf => exact .comes (hc.mpr hcond) (hP _ ha) (hf.step h)
  | never hcond hf =>
      exact .never_of_succ (mt hc.mp hcond) hzero fun fuel => (h fuel).trans (hf fuel)

end ReturnsIff

end Fuel
