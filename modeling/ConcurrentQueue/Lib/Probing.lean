import Mathlib.Data.Finset.Card
import Mathlib.Data.Finset.Range
import Mathlib.Tactic

/-!
# ConcurrentQueue.Lib.Probing

**Linear probing.** A table of `cap` slots is searched from a key's hash on, slot by
slot and around the end. Slots are filled and changed, but never emptied again; so
a search that has passed filled slots only goes on having done so, and a search
that meets an empty slot knows that the key is not in the table.

A table is kept from filling up by a counter: each place taken adds one to it and
is granted by the value it then has, and an addition is taken back where no place
was needed. **The places that were granted below a bound are fewer than the
bound** (`Ranked.filter_length_le`), whatever happened in between.
-/

namespace Probing

variable {κ : Type*} {cap h index x : Nat} {key key' : Nat → κ} {P P' : κ → Prop}

/-! ### Searches -/

/-- A search from `h` stands before slot `index % cap`, and the slots it has passed
satisfy `P`. -/
def Walk (cap : Nat) (key : Nat → κ) (h : Nat) (P : κ → Prop) (index : Nat) : Prop :=
  ∃ n, index % cap = (h + n) % cap ∧ ∀ m < n, P (key ((h + m) % cap))

theorem Walk.start : Walk cap key h P h := ⟨0, rfl, by simp⟩

theorem Walk.next (hw : Walk cap key h P index) (hp : P (key (index % cap))) :
    Walk cap key h P (index % cap + 1) := by
  obtain ⟨n, hn, hpassed⟩ := hw
  refine ⟨n + 1, ?_, fun m hm => ?_⟩
  · rw [hn, Nat.mod_add_mod, Nat.add_assoc]
  · rcases Nat.lt_succ_iff_lt_or_eq.mp hm with hm | rfl
    · exact hpassed m hm
    · rwa [← hn]

theorem Walk.imp (hw : Walk cap key h P index) (himp : ∀ k, P (key k) → P' (key' k)) :
    Walk cap key' h P' index := by
  obtain ⟨n, hn, hpassed⟩ := hw
  exact ⟨n, hn, fun m hm => himp _ (hpassed m hm)⟩

theorem Walk.congr_mod (hw : Walk cap key h P index) (hx : x % cap = index % cap) :
    Walk cap key h P x := by
  obtain ⟨n, hn, hpassed⟩ := hw
  exact ⟨n, hx.trans hn, hpassed⟩

/-- A search for `a` that meets an empty slot has not missed it, if `a` was put where
a search over filled slots led. -/
theorem Walk.not_found {a empty : κ} (hw : Walk cap key h (· ≠ a) index)
    (hempty : key (index % cap) = empty) (ha : a ≠ empty)
    (hplaced : Walk cap key h (· ≠ empty) x) (hx : x < cap) : key x ≠ a := by
  intro hkey
  obtain ⟨n, hn, hpassed⟩ := hw
  obtain ⟨m, hm, hfilled⟩ := hplaced
  rw [Nat.mod_eq_of_lt hx] at hm
  rcases Nat.lt_trichotomy m n with hlt | rfl | hlt
  · exact hpassed m hlt (hm ▸ hkey)
  · rw [hn, ← hm, hkey] at hempty
    exact ha hempty
  · exact hfilled n hlt (hn ▸ hempty)

/-- A search comes by every slot. -/
theorem exists_offset (h : Nat) (hx : x < cap) : ∃ n < cap, (h + n) % cap = x := by
  have hcap : 0 < cap := by omega
  have hlt : h % cap < cap := Nat.mod_lt h hcap
  refine ⟨(x + (cap - h % cap)) % cap, Nat.mod_lt _ hcap, ?_⟩
  calc (h + (x + (cap - h % cap)) % cap) % cap
      = (h % cap + (x + (cap - h % cap))) % cap := by rw [Nat.add_mod_mod, Nat.mod_add_mod]
    _ = (x + cap) % cap := by congr 1; omega
    _ = x := by rw [Nat.add_mod_right, Nat.mod_eq_of_lt hx]

/-! ### Occupied slots -/

section Occupied

variable [DecidableEq κ] {empty : κ}

def occupied (cap : Nat) (key : Nat → κ) (empty : κ) : Finset Nat :=
  (Finset.range cap).filter fun k => key k ≠ empty

theorem mem_occupied : x ∈ occupied cap key empty ↔ x < cap ∧ key x ≠ empty := by
  simp [occupied]

theorem exists_empty (hlt : (occupied cap key empty).card < cap) : ∃ k < cap, key k = empty := by
  by_contra hnone
  push Not at hnone
  have hall : occupied cap key empty = Finset.range cap :=
    Finset.filter_true_of_mem fun k hk => hnone k (Finset.mem_range.mp hk)
  rw [hall, Finset.card_range] at hlt
  exact lt_irrefl _ hlt

end Occupied

/-! ### A counter that grants places -/

variable {α : Type*} {rank : α → Nat} {l l' : List α} {a : α}

/-- A list with its last addition first. Each element was added when there were fewer
others than its rank, so those that were there before it and still are, are too. -/
def Ranked (rank : α → Nat) : List α → Prop
  | [] => True
  | a :: l => l.length < rank a ∧ Ranked rank l

theorem Ranked.sublist (hr : Ranked rank l) (hl : l'.Sublist l) : Ranked rank l' := by
  induction hl with
  | slnil => exact hr
  | cons a _ ih => exact ih hr.2
  | cons_cons a hsub ih => exact ⟨lt_of_le_of_lt hsub.length_le hr.1, ih hr.2⟩

theorem Ranked.congr {rank' : α → Nat} (hr : Ranked rank l) (heq : ∀ a ∈ l, rank' a = rank a) :
    Ranked rank' l := by
  induction l with
  | nil => trivial
  | cons a l ih =>
      rw [List.forall_mem_cons] at heq
      exact ⟨heq.1 ▸ hr.1, ih hr.2 heq.2⟩

theorem Ranked.filter_length_le {q : α → Bool} {bound : Nat} (hr : Ranked rank l)
    (hq : ∀ a ∈ l, q a = true → rank a ≤ bound) : (l.filter q).length ≤ bound := by
  induction l with
  | nil => exact Nat.zero_le _
  | cons a l ih =>
      rw [List.forall_mem_cons] at hq
      cases hqa : q a with
      | true =>
          -- nothing in the list is later than `a`
          rw [List.filter_cons_of_pos hqa]
          have hlen : (l.filter q).length ≤ l.length := List.length_filter_le _ _
          have hlt : l.length < rank a := hr.1
          have hrank : rank a ≤ bound := hq.1 hqa
          simp only [List.length_cons]
          omega
      | false =>
          rw [List.filter_cons_of_neg (by simp [hqa])]
          exact ih hr.2 hq.2

end Probing
