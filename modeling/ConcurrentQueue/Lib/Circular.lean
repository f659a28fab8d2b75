import Mathlib.Data.Int.ModEq
import Mathlib.Data.Nat.ModEq
import Mathlib.Tactic

/-!
# ConcurrentQueue.Lib.Circular

**A circular table that grows.** Consecutive numbers are put into a table of `cap`
cells, each into the cell after that of its predecessor, so that number `k` lies at
position `pos cap o k`. The table holds the keys of a window of numbers; a cell
outside the window is blank. A full table may be replaced by one of twice the size
that takes over the cells of the old one and adds blank ones.

Readers may go on using an old table while the new one is written through, since
the two share their cells. What makes this safe is `Nested`: wherever a cell of the
old table lies in the new one, its number there has the same residue modulo the old
capacity. A position computed from any key that a cell of the old table has held
is therefore right (`Nested.key_spec`, `pos_shift`).

The module names nothing of the queue. Keys are the numbers times a unit `u`.
-/

namespace Circular

/-! ### Positions -/

/-- The position of number `k` in a table of `cap` cells. -/
def pos (cap o k : ℕ) : ℕ := (k + o) % cap

variable {u cap o : ℕ}

theorem pos_lt (h : 0 < cap) (k : ℕ) : pos cap o k < cap := Nat.mod_lt _ h

theorem pos_eq_iff {k l : ℕ} : pos cap o k = pos cap o l ↔ k ≡ l [MOD cap] :=
  ⟨Nat.ModEq.add_right_cancel' o, Nat.ModEq.add_right o⟩

/-- The next number lies in the next cell. -/
theorem pos_succ (k : ℕ) : pos cap o (k + 1) = (pos cap o k + 1) % cap := by
  rw [pos, pos, Nat.mod_add_mod]
  congr 1
  omega

/-- Every position is the position of a number. -/
theorem exists_pos_eq {t : ℕ} (ht : t < cap) : ∃ k, pos cap o k = t := by
  refine ⟨t + o * (cap - 1), ?_⟩
  have hmul : o * (cap - 1) + o = o * cap := by
    rw [← Nat.mul_succ, Nat.succ_eq_add_one, Nat.sub_add_cancel (by omega)]
  rw [pos, Nat.add_assoc, hmul, Nat.add_mul_mod_self_right, Nat.mod_eq_of_lt ht]

/-- Two numbers less than a table apart that lie in one position are the same. -/
theorem eq_of_pos_eq {low k l : ℕ} (hk : low ≤ k) (hk' : k < low + cap) (hl : low ≤ l)
    (hl' : l < low + cap) (h : pos cap o k = pos cap o l) : k = l := by
  rw [pos_eq_iff] at h
  refine Nat.ModEq.eq_of_abs_lt h ?_
  rw [abs_lt]
  constructor <;> omega

/-- The position of a number found from that of another one. -/
theorem pos_shift {t k l : ℕ} (ht : pos cap o l = t) :
    ((t : ℤ) + ((k : ℤ) - l)) % cap = pos cap o k := by
  rw [← ht, pos, pos]
  push_cast
  rw [Int.emod_add_emod]
  congr 1
  ring

/-! ### Windows -/

/-- The table `cell` holds the keys of the numbers from `low` up to `top`. -/
structure Window (u cap o : ℕ) (cell : ℕ → ℕ) (key : ℕ → Option ℕ) (low top : ℕ) : Prop where
  cap_pos : 0 < cap
  inj : ∀ p < cap, ∀ q < cap, cell p = cell q → p = q
  le : low ≤ top
  width : top ≤ low + cap
  keyed : ∀ k, low ≤ k → k < top → key (cell (pos cap o k)) = some (k * u)
  blank : ∀ p < cap, (∀ k, low ≤ k → k < top → pos cap o k ≠ p) → key (cell p) = none

namespace Window

variable {cell : ℕ → ℕ} {key : ℕ → Option ℕ} {low top : ℕ}

/-- A key tells which number lies there. -/
theorem key_spec (h : Window u cap o cell key low top) {p x : ℕ} (hp : p < cap)
    (hx : key (cell p) = some x) : ∃ k, low ≤ k ∧ k < top ∧ pos cap o k = p ∧ x = k * u := by
  by_contra hno
  have hblank : key (cell p) = none := by
    refine h.blank p hp fun k hlow htop hpos => hno ⟨k, hlow, htop, hpos, ?_⟩
    have hkey := h.keyed k hlow htop
    rw [hpos, hx] at hkey
    exact Option.some.inj hkey
  rw [hblank] at hx
  cases hx

theorem cell_inj (h : Window u cap o cell key low top) {k l : ℕ}
    (heq : cell (pos cap o k) = cell (pos cap o l)) : pos cap o k = pos cap o l :=
  h.inj _ (pos_lt h.cap_pos k) _ (pos_lt h.cap_pos l) heq

theorem eq_of_cell_eq (h : Window u cap o cell key low top) {k l : ℕ} (hk : low ≤ k)
    (hk' : k < top) (hl : low ≤ l) (hl' : l < top)
    (heq : cell (pos cap o k) = cell (pos cap o l)) : k = l := by
  have := h.width
  exact eq_of_pos_eq hk (by omega) hl (by omega) (h.cell_inj heq)

/-- The next number takes the cell of the one that leaves a full window. -/
theorem push (h : Window u cap o cell key low top) :
    Window u cap o cell (Function.update key (cell (pos cap o top)) (some (top * u)))
      (max low (top + 1 - cap)) (top + 1) where
  cap_pos := h.cap_pos
  inj := h.inj
  le := by
    have := h.le
    have := h.cap_pos
    omega
  width := by omega
  keyed k hk hk' := by
    rcases Nat.lt_succ_iff_lt_or_eq.mp hk' with hlt | rfl
    · have hne : cell (pos cap o k) ≠ cell (pos cap o top) := by
        intro heq
        have hcap := h.cap_pos
        have hk_low : top + 1 - cap ≤ k := by omega
        have := eq_of_pos_eq hk_low (by omega) (by omega) (by omega) (h.cell_inj heq)
        omega
      rw [Function.update_of_ne hne]
      exact h.keyed k (by omega) hlt
    · rw [Function.update_self]
  blank p hp hout := by
    have hne : cell p ≠ cell (pos cap o top) := by
      intro heq
      refine hout top ?_ (Nat.lt_succ_self _) (h.inj _ hp _ (pos_lt h.cap_pos _) heq).symm
      have := h.le
      have := h.cap_pos
      omega
    rw [Function.update_of_ne hne]
    refine h.blank p hp fun k hk hk' hpos => ?_
    by_cases hin : top + 1 - cap ≤ k
    · exact hout k (by omega) (by omega) hpos
    · -- the number that leaves lies where the new one goes
      have hk_eq : k + cap = top := by
        have := h.width
        omega
      refine hne ?_
      rw [← hpos, ← hk_eq]
      congr 1
      rw [pos_eq_iff]
      exact (Nat.add_modEq_right (n := cap)).symm

end Window

/-! ### Tables that share their cells -/

/-- The cells of the table `cell'` lie in the table `cell`, each with the residue it has. -/
structure Nested (cap' o' : ℕ) (cell' : ℕ → ℕ) (cap o : ℕ) (cell : ℕ → ℕ) : Prop where
  cap_pos : 0 < cap'
  dvd : cap' ∣ cap
  reach : ∀ k, ∃ l, l ≡ k [MOD cap'] ∧ cell (pos cap o l) = cell' (pos cap' o' k)

theorem Nested.refl {cell : ℕ → ℕ} (h : 0 < cap) : Nested cap o cell cap o cell :=
  ⟨h, dvd_rfl, fun k => ⟨k, rfl, rfl⟩⟩

/-- Whatever key a cell of an older table holds, it is of a number that belongs there. -/
theorem Nested.key_spec {cap' o' : ℕ} {cell cell' : ℕ → ℕ} {key : ℕ → Option ℕ} {low top t x : ℕ}
    (hn : Nested cap' o' cell' cap o cell) (hw : Window u cap o cell key low top) (ht : t < cap')
    (hx : key (cell' t) = some x) : ∃ l, pos cap' o' l = t ∧ x = l * u := by
  obtain ⟨k, rfl⟩ := exists_pos_eq (o := o') ht
  obtain ⟨l, hl, hcell⟩ := hn.reach k
  rw [← hcell] at hx
  obtain ⟨m, -, -, hm, rfl⟩ := hw.key_spec (pos_lt hw.cap_pos l) hx
  refine ⟨m, pos_eq_iff.mpr ?_, rfl⟩
  exact ((pos_eq_iff.mp hm).of_dvd hn.dvd).trans hl

/-! ### Growth -/

/-- The table of twice the size: the old cells from the one after `tail` on, then new ones. -/
def doubled (cap tail fresh : ℕ) (cell : ℕ → ℕ) (p : ℕ) : ℕ :=
  if p < cap then cell ((tail + 1 + p) % cap) else fresh + (p - cap)

/-- The offset of the doubled table: its first cell is that of number `low`. -/
def doubledOffset (cap low : ℕ) : ℕ := low * (2 * cap - 1)

section Growth

variable {cell : ℕ → ℕ} {key : ℕ → Option ℕ} {low top tail fresh : ℕ}

theorem pos_doubledOffset (hcap : 0 < cap) {k : ℕ} (hk : low ≤ k) :
    pos (2 * cap) (doubledOffset cap low) k = (k - low) % (2 * cap) := by
  have hsum : k + low * (2 * cap - 1) = k - low + low * (2 * cap) := by
    have hmul : low * (2 * cap) = low * (2 * cap - 1) + low := by
      rw [← Nat.mul_succ, Nat.succ_eq_add_one, Nat.sub_add_cancel (by omega)]
    omega
  rw [pos, doubledOffset, hsum, Nat.add_mul_mod_self_right]

/-- A number of a full window keeps its cell. -/
theorem doubled_pos (hcap : 0 < cap) (htail : (tail + 1) % cap = pos cap o (low + cap)) {k : ℕ}
    (hk : low ≤ k) (hk' : k < low + cap) :
    doubled cap tail fresh cell (pos (2 * cap) (doubledOffset cap low) k) =
      cell (pos cap o k) := by
  rw [pos_doubledOffset hcap hk, Nat.mod_eq_of_lt (by omega), doubled, if_pos (by omega)]
  congr 1
  rw [Nat.add_mod, htail, pos, pos, ← Nat.add_mod]
  have hsum : low + cap + o + (k - low) = k + o + cap := by omega
  rw [hsum, Nat.add_mod_right]

theorem doubled_inj (hcap : 0 < cap) (hinj : ∀ p < cap, ∀ q < cap, cell p = cell q → p = q)
    (hfresh : ∀ p < cap, cell p < fresh) {p q : ℕ}
    (heq : doubled cap tail fresh cell p = doubled cap tail fresh cell q) : p = q := by
  have hold : ∀ r, cell ((tail + 1 + r) % cap) < fresh := fun r => hfresh _ (Nat.mod_lt _ hcap)
  unfold doubled at heq
  split at heq <;> split at heq
  · have hmod := hinj _ (Nat.mod_lt _ hcap) _ (Nat.mod_lt _ hcap) heq
    have hpq : p ≡ q [MOD cap] := Nat.ModEq.add_left_cancel' (tail + 1) hmod
    rwa [Nat.ModEq, Nat.mod_eq_of_lt ‹_›, Nat.mod_eq_of_lt ‹_›] at hpq
  · have := hold p
    omega
  · have := hold q
    omega
  · omega

/-- Growing a full table keeps the window. -/
theorem Window.grow {key' : ℕ → Option ℕ} (h : Window u cap o cell key low (low + cap))
    (htail : (tail + 1) % cap = pos cap o (low + cap)) (hfresh : ∀ p < cap, cell p < fresh)
    (hold : ∀ c < fresh, key' c = key c) (hnew : ∀ i < cap, key' (fresh + i) = none) :
    Window u (2 * cap) (doubledOffset cap low) (doubled cap tail fresh cell) key' low
      (low + cap) where
  cap_pos := by have := h.cap_pos; omega
  inj _ _ _ _ heq := doubled_inj h.cap_pos h.inj hfresh heq
  le := h.le
  width := by omega
  keyed k hk hk' := by
    rw [doubled_pos h.cap_pos htail hk hk', hold _ (hfresh _ (pos_lt h.cap_pos k))]
    exact h.keyed k hk hk'
  blank p hp hout := by
    by_cases hlt : p < cap
    · -- the old part of the table is full
      refine absurd ?_ (hout (low + p) (by omega) (by omega))
      rw [pos_doubledOffset h.cap_pos (by omega), Nat.add_sub_cancel_left, Nat.mod_eq_of_lt hp]
    · rw [doubled, if_neg hlt]
      exact hnew _ (by omega)

/-- A number congruent to a given one in any stretch of `cap` numbers. -/
theorem exists_modEq_of_le (hcap : 0 < cap) (low k : ℕ) :
    ∃ l, low ≤ l ∧ l < low + cap ∧ l ≡ k [MOD cap] := by
  refine ⟨low + (k + low * (cap - 1)) % cap, Nat.le_add_right _ _,
    Nat.add_lt_add_left (Nat.mod_lt _ hcap) _, ?_⟩
  have hmul : low + low * (cap - 1) = low * cap := by
    rw [Nat.add_comm, ← Nat.mul_succ, Nat.succ_eq_add_one, Nat.sub_add_cancel (by omega)]
  have hsum : low + (k + low * (cap - 1)) = k + low * cap := by omega
  calc low + (k + low * (cap - 1)) % cap
      ≡ low + (k + low * (cap - 1)) [MOD cap] := (Nat.mod_modEq _ _).add_left low
    _ = k + low * cap := hsum
    _ ≡ k [MOD cap] := by
      rw [Nat.ModEq, Nat.add_mul_mod_self_right]

/-- Tables that lay in the old one lie in the new one. -/
theorem Nested.grow {cap' o' : ℕ} {cell' : ℕ → ℕ} (hn : Nested cap' o' cell' cap o cell)
    (hcap : 0 < cap) (htail : (tail + 1) % cap = pos cap o (low + cap)) :
    Nested cap' o' cell' (2 * cap) (doubledOffset cap low) (doubled cap tail fresh cell) where
  cap_pos := hn.cap_pos
  dvd := hn.dvd.mul_left 2
  reach k := by
    obtain ⟨l, hl, hcell⟩ := hn.reach k
    obtain ⟨m, hlow, htop, hm⟩ := exists_modEq_of_le hcap low l
    refine ⟨m, (hm.of_dvd hn.dvd).trans hl, ?_⟩
    rw [doubled_pos hcap htail hlow htop, ← hcell, pos_eq_iff.mpr hm]

end Growth

end Circular
