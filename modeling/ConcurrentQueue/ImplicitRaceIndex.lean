import ConcurrentQueue.ImplicitRaceInv

/-!
# ConcurrentQueue.ImplicitRaceIndex

**The block index under concurrent use.** What each write to the index does to the
window of keys, and what a lookup finds, whichever header and tail it started from:
the position computed from any key that ever stood at the tail is the position of the
number in that header (`Indexed.locate`).
-/

namespace ConcurrentQueue.ImplicitRace

open Function Outstanding Circular

variable {ι α : Type} {e : Env}

/-! ### Reading what was written -/

namespace Index

variable {x : Index} {o : ℕ → ℕ} {n h g k t : ℕ}

@[simp] theorem key_setKey (v : Option ℕ) : (x.setKey n v).key = update x.key n v := by
  funext c
  unfold key setKey
  rcases eq_or_ne c n with rfl | hc
  · simp
  · simp [update_of_ne hc]

@[simp] theorem value_setKey (v : Option ℕ) : (x.setKey n v).value = x.value := by
  funext c
  unfold value setKey
  rcases eq_or_ne c n with rfl | hc
  · simp
  · simp [update_of_ne hc]

@[simp] theorem key_setValue (v : Option ℕ) : (x.setValue n v).key = x.key := by
  funext c
  unfold key setValue
  rcases eq_or_ne c n with rfl | hc
  · simp
  · simp [update_of_ne hc]

@[simp] theorem value_setValue (v : Option ℕ) :
    (x.setValue n v).value = update x.value n (some v) := by
  funext c
  unfold value setValue
  rcases eq_or_ne c n with rfl | hc
  · simp
  · simp [update_of_ne hc]

@[simp] theorem key_setTail : (x.setTail h t).key = x.key := rfl

@[simp] theorem value_setTail : (x.setTail h t).value = x.value := rfl

@[simp] theorem capacity_setTail :
    ((x.setTail h t).headers g).capacity = (x.headers g).capacity := by
  unfold setTail
  rcases eq_or_ne g h with rfl | hg
  · simp
  · simp [update_of_ne hg]

@[simp] theorem index_setTail : ((x.setTail h t).headers g).index = (x.headers g).index := by
  unfold setTail
  rcases eq_or_ne g h with rfl | hg
  · simp
  · simp [update_of_ne hg]

@[simp] theorem cell_setTail : (x.setTail h t).cell o g k = x.cell o g k := by
  unfold cell
  rw [capacity_setTail, index_setTail]

@[simp] theorem cell_setKey (v : Option ℕ) : (x.setKey n v).cell o g k = x.cell o g k := rfl

@[simp] theorem cell_setValue (v : Option ℕ) : (x.setValue n v).cell o g k = x.cell o g k := rfl

theorem tail_setTail_self : ((x.setTail h t).headers h).tail = t := by
  simp [setTail]

theorem tail_setTail_of_ne (hg : g ≠ h) :
    ((x.setTail h t).headers g).tail = (x.headers g).tail := by
  simp [setTail, update_of_ne hg]

end Index

/-! ### One write at a time -/

namespace Indexed

variable {x : Index} {o : ℕ → ℕ} {low top K h : ℕ}

theorem cap_pos (hx : Indexed e x o low top K h) : 0 < (x.headers h).capacity :=
  hx.window.cap_pos

theorem setValue (hx : Indexed e x o low top K h) (n : ℕ) (v : Option ℕ) :
    Indexed e (x.setValue n v) o low top K h where
  last := hx.last
  window := by
    rw [Index.key_setValue]
    exact hx.window
  known := hx.known
  nested := hx.nested
  tail_lt := hx.tail_lt
  tail := hx.tail
  old g hg := by
    rw [Index.key_setValue]
    exact hx.old g hg
  le_top := hx.le_top
  capacity := hx.capacity

/-- Only the tail of the current header moves, to the position before that of `K'`. -/
theorem setTail (hx : Indexed e x o low top K h) {t K' : ℕ} (ht : t < (x.headers h).capacity)
    (hpos : (t + 1) % (x.headers h).capacity = pos (x.headers h).capacity (o h) K')
    (hK : K' ≤ top) : Indexed e (x.setTail h t) o low top K' h where
  last := hx.last
  window := by
    rw [Index.capacity_setTail, Index.index_setTail]
    exact hx.window
  known := by
    rw [Index.capacity_setTail, Index.index_setTail]
    exact hx.known
  nested g hg := by
    rw [Index.capacity_setTail, Index.index_setTail, Index.capacity_setTail, Index.index_setTail]
    exact hx.nested g hg
  tail_lt g hg := by
    rw [Index.capacity_setTail]
    rcases eq_or_ne g h with rfl | hne
    · rwa [Index.tail_setTail_self]
    · rw [Index.tail_setTail_of_ne hne]
      exact hx.tail_lt g hg
  tail := by
    rw [Index.nextSlot, Index.capacity_setTail, Index.tail_setTail_self]
    exact hpos
  old g hg := by
    rw [Index.index_setTail, Index.tail_setTail_of_ne hg.ne, Index.key_setTail]
    exact hx.old g hg
  le_top := hK
  capacity := by
    rw [Index.capacity_setTail]
    exact hx.capacity

/-- The tail moves on to the number put on the index. -/
theorem storeTail (hx : Indexed e x o low top K h) (hK : K < top) :
    Indexed e (x.setTail h (x.nextSlot h)) o low top (K + 1) h := by
  refine hx.setTail (Nat.mod_lt _ hx.cap_pos) ?_ hK
  rw [hx.tail, ← pos_succ]

/-- The tail of the current header is the position of the last number put on it. -/
theorem tail_eq (hx : Indexed e x o low top (K + 1) h) :
    (x.headers h).tail = pos (x.headers h).capacity (o h) K := by
  have htail := hx.tail
  have hlt := hx.tail_lt h (by have := hx.last; omega)
  rw [Index.nextSlot, pos_succ] at htail
  -- adding one is injective modulo the capacity
  have hmod : (x.headers h).tail ≡ pos (x.headers h).capacity (o h) K
      [MOD (x.headers h).capacity] := Nat.ModEq.add_right_cancel' 1 htail
  rwa [Nat.ModEq, Nat.mod_eq_of_lt hlt, Nat.mod_eq_of_lt (pos_lt hx.cap_pos K)] at hmod

theorem rewind (hx : Indexed e x o low top (K + 1) h) :
    Indexed e (x.rewindBlockIndexTail h) o low top K h := by
  have hlt := hx.tail_lt h (by have := hx.last; omega)
  have hcap := hx.cap_pos
  refine hx.setTail (Nat.mod_lt _ hcap) ?_ (Nat.le_of_succ_le hx.le_top)
  rw [Nat.mod_add_mod, ← hx.tail_eq, Nat.sub_add_cancel (by omega), Nat.add_mod_right,
    Nat.mod_eq_of_lt hlt]

/-- The key of the number before the tail is on the index. -/
theorem key_tail (hx : Indexed e x o low top (K + 1) h) (hlow : low ≤ K) :
    x.key ((x.headers h).index (x.headers h).tail) = some (K * e.BLOCK_SIZE) := by
  rw [hx.tail_eq]
  exact hx.window.keyed K hlow hx.le_top

/-- With a number of the window on the index, the tail of every header is the entry of some
block. -/
theorem key_tail_ne (hx : Indexed e x o low top K h) {g k : ℕ} (hg : g < x.headerCount)
    (hk : low ≤ k) (hk' : k < K) : x.key ((x.headers g).index (x.headers g).tail) ≠ none := by
  have hlast := hx.last
  rcases eq_or_ne g h with rfl | hne
  · -- the number before the tail is not below this one, which has its entry
    obtain ⟨K', rfl⟩ : ∃ K', K = K' + 1 := ⟨K - 1, by omega⟩
    rw [hx.key_tail (by omega)]
    exact Option.some_ne_none _
  · exact hx.old g (by omega)

theorem key_cell (hx : Indexed e x o low top K h) {k : ℕ} (hk : low ≤ k) (hk' : k < top) :
    x.key (x.cell o h k) = some (k * e.BLOCK_SIZE) := hx.window.keyed k hk hk'

theorem cell_ne (hx : Indexed e x o low top K h) {k l : ℕ} (hk : low ≤ k) (hk' : k < top)
    (hl : low ≤ l) (hl' : l < top) (hne : k ≠ l) : x.cell o h k ≠ x.cell o h l :=
  fun heq => hne (hx.window.eq_of_cell_eq hk hk' hl hl' heq)

/-- **A lookup finds the position of its index**, from whatever key stands at the tail it
has loaded. -/
theorem locate (hx : Indexed e x o low top K h) {g t tailBase i : ℕ} (hg : g < x.headerCount)
    (ht : t < (x.headers g).capacity) (hkey : x.key ((x.headers g).index t) = some tailBase) :
    (x.headers g).locate e t tailBase i =
      pos (x.headers g).capacity (o g) (i / e.BLOCK_SIZE) := by
  obtain ⟨l, hl, rfl⟩ := (hx.nested g hg).key_spec hx.window ht hkey
  have hB : (e.BLOCK_SIZE : ℤ) ≠ 0 := by
    have := e.BLOCK_SIZE_pos
    omega
  have hdiv : (((i / e.BLOCK_SIZE * e.BLOCK_SIZE : ℕ) : ℤ) - ((l * e.BLOCK_SIZE : ℕ) : ℤ)).tdiv
      e.BLOCK_SIZE = ((i / e.BLOCK_SIZE : ℕ) : ℤ) - l := by
    rw [Nat.cast_mul, Nat.cast_mul, ← sub_mul]
    exact Int.mul_tdiv_cancel _ hB
  rw [BlockIndexHeader.locate, hdiv, pos_shift hl, Int.toNat_natCast]

end Indexed

/-! ### Growth -/

/-- The offsets after header `g` was added to an index whose window starts at `low`. -/
def grownOffset (x : Index) (o : ℕ → ℕ) (low h : ℕ) : ℕ → ℕ :=
  update o x.headerCount (doubledOffset (x.headers h).capacity low)

namespace Indexed

variable {x : Index} {o : ℕ → ℕ} {low top K h : ℕ}

/-- Every entry that a header points to has been allocated. -/
theorem known_of (hx : Indexed e x o low top K h) {g t : ℕ} (hg : g < x.headerCount)
    (ht : t < (x.headers g).capacity) : (x.headers g).index t < x.entryCount := by
  obtain ⟨k, rfl⟩ := exists_pos_eq (o := o g) ht
  obtain ⟨l, -, hcell⟩ := (hx.nested g hg).reach k
  rw [← hcell]
  exact hx.known _ (pos_lt hx.cap_pos l)

theorem headers_larger_self : (x.largerBlockIndex h).headers x.headerCount =
    ⟨x.nextBlockIndexCapacity, (x.headers h).capacity - 1,
      doubled (x.headers h).capacity (x.headers h).tail x.entryCount (x.headers h).index⟩ := by
  simp only [Index.largerBlockIndex, update_self]
  rfl

theorem headers_larger_of_lt {g : ℕ} (hg : g < x.headerCount) :
    (x.largerBlockIndex h).headers g = x.headers g := by
  simp only [Index.largerBlockIndex, update_of_ne hg.ne]

theorem entries_larger_of_lt {n : ℕ} (hn : n < x.entryCount) :
    (x.largerBlockIndex h).entries n = x.entries n := by
  simp only [Index.largerBlockIndex]
  rw [if_neg (by omega)]

theorem entries_larger_new {i : ℕ} (hi : i < (x.headers h).capacity) :
    (x.largerBlockIndex h).entries (x.entryCount + i) = ⟨none, none⟩ := by
  simp only [Index.largerBlockIndex]
  rw [if_pos (by omega)]

theorem key_larger_of_lt {n : ℕ} (hn : n < x.entryCount) :
    (x.largerBlockIndex h).key n = x.key n := by
  rw [Index.key, entries_larger_of_lt hn, Index.key]

theorem grownOffset_self : grownOffset x o low h x.headerCount =
    doubledOffset (x.headers h).capacity low := update_self ..

theorem grownOffset_of_lt {g : ℕ} (hg : g < x.headerCount) : grownOffset x o low h g = o g :=
  update_of_ne hg.ne ..

/-- A full index can be replaced by a larger one. -/
theorem larger (hx : Indexed e x o low top K h) (hfull : top = low + (x.headers h).capacity)
    (hK : K = top) :
    Indexed e (x.largerBlockIndex h) (grownOffset x o low h) low top K x.headerCount := by
  have hcap := hx.cap_pos
  have htail : ((x.headers h).tail + 1) % (x.headers h).capacity =
      pos (x.headers h).capacity (o h) (low + (x.headers h).capacity) := by
    rw [← hfull, ← hK]
    exact hx.tail
  subst hK
  have hlt : h < x.headerCount := by
    have := hx.last
    omega
  have hkey : ∀ g < x.headerCount, ∀ t < (x.headers g).capacity,
      (x.largerBlockIndex h).key ((x.headers g).index t) = x.key ((x.headers g).index t) :=
    fun g hg t ht => key_larger_of_lt (hx.known_of hg ht)
  refine ⟨rfl, ?_, ?_, ?_, ?_, ?_, ?_, le_rfl, ?_⟩
  · rw [headers_larger_self, grownOffset_self, hx.capacity]
    have hw := hx.window
    rw [hfull] at hw ⊢
    exact hw.grow htail hx.known (fun n hn => key_larger_of_lt hn)
      (fun i hi => by rw [Index.key, entries_larger_new hi])
  · rw [headers_larger_self]
    intro q hq
    have hq' : q < 2 * (x.headers h).capacity := hx.capacity ▸ hq
    change doubled _ _ _ _ q < x.entryCount + (x.headers h).capacity
    unfold doubled
    split
    · exact (hx.known _ (Nat.mod_lt _ hcap)).trans_le (Nat.le_add_right _ _)
    · omega
  · intro g hg
    rcases Nat.lt_succ_iff_lt_or_eq.mp hg with hg | rfl
    · rw [headers_larger_of_lt hg, grownOffset_of_lt hg, headers_larger_self, grownOffset_self,
        hx.capacity]
      exact (hx.nested g hg).grow hcap htail
    · rw [headers_larger_self]
      refine Nested.refl ?_
      have := hx.capacity
      simp only
      omega
  · intro g hg
    rcases Nat.lt_succ_iff_lt_or_eq.mp hg with hg | rfl
    · rw [headers_larger_of_lt hg]
      exact hx.tail_lt g hg
    · rw [headers_larger_self]
      have := hx.capacity
      simp only
      omega
  · rw [Index.nextSlot, headers_larger_self, grownOffset_self, hx.capacity,
      pos_doubledOffset hcap (by omega), hfull]
    simp only
    rw [Nat.sub_add_cancel hcap, Nat.add_sub_cancel_left]
  · intro g hg
    rw [headers_larger_of_lt hg, hkey g hg _ (hx.tail_lt g hg)]
    exact hx.key_tail_ne hg le_rfl (by omega)
  · rw [headers_larger_self]
    rfl

/-- The numbers of the window keep their entries. -/
theorem cell_larger (hx : Indexed e x o low top K h)
    (hfull : top = low + (x.headers h).capacity) (hK : K = top) {k : ℕ} (hk : low ≤ k)
    (hk' : k < top) :
    (x.largerBlockIndex h).cell (grownOffset x o low h) x.headerCount k = x.cell o h k := by
  have htail := hx.tail
  rw [Index.nextSlot, hK, hfull] at htail
  rw [Index.cell, Index.cell, headers_larger_self, grownOffset_self, hx.capacity]
  exact doubled_pos hx.cap_pos htail hk (by omega)

/-- The entry for the next number is a new one. -/
theorem key_nextEntry_larger (hx : Indexed e x o low top K h)
    (hfull : top = low + (x.headers h).capacity) (hK : K = top) :
    (x.largerBlockIndex h).key ((x.largerBlockIndex h).nextEntry x.headerCount) = none := by
  have hl := hx.larger hfull hK
  have hcap := hx.capacity
  refine hl.window.blank _ (Nat.mod_lt _ hl.cap_pos) fun k hk hk' hpos => ?_
  rw [hl.tail] at hpos
  have hwide : low + ((x.largerBlockIndex h).headers x.headerCount).capacity =
      low + 2 * (x.headers h).capacity := by
    rw [headers_larger_self, hcap]
  have hpositive := hx.cap_pos
  have := eq_of_pos_eq hk (by omega) (by omega : low ≤ K) (by omega) hpos
  omega

end Indexed

/-! ### The shelf -/

namespace Shelf

variable {x : Index} {place : ℕ → Place ι} {j : ι} {o : ℕ → ℕ} {low top F K h : ℕ}
  {pushing : Option ℕ} {acquired : Finset ℕ}

/-- One block for each number. -/
theorem unique (hs : Shelf e x place j o low top F K pushing acquired) {b b' k : ℕ}
    (hb : place b = .slot j k) (hb' : place b' = .slot j k) : b = b' := by
  obtain ⟨hne, hlow, htop, -⟩ := hs.slot b k hb
  obtain ⟨h, hh⟩ := Option.ne_none_iff_exists'.mp hne
  have h1 := (hs.value h hh k hlow htop b).mpr hb
  have h2 := (hs.value h hh k hlow htop b').mpr hb'
  exact Option.some.inj (Option.some.inj (h1.symm.trans h2))

/-- Only the places under this producer matter. -/
theorem congr (hs : Shelf e x place j o low top F K pushing acquired) {place' : ℕ → Place ι}
    (hp : ∀ b k, place' b = .slot j k ↔ place b = .slot j k) :
    Shelf e x place' j o low top F K pushing acquired where
  index := hs.index
  low_le := hs.low_le
  value h hh k hk hk' b := (hs.value h hh k hk hk' b).trans (hp b k).symm
  initialised := hs.initialised
  slot b k hb := hs.slot b k ((hp b k).mp hb)
  blank := hs.blank

/-- A move of the tail. -/
theorem setTail (hs : Shelf e x place j o low top F K pushing acquired)
    (hh : x.blockIndex = some h) {t K' : ℕ}
    (hi : Indexed e (x.setTail h t) o low top K' h) :
    Shelf e (x.setTail h t) place j o low top F K' pushing acquired where
  index g hg := by
    obtain rfl : g = h := Option.some.inj (hg.symm.trans hh)
    exact hi
  low_le := hs.low_le
  value g hg k hk hk' b := by
    rw [Index.value_setTail, Index.cell_setTail]
    exact hs.value g hg k hk hk' b
  initialised g hg k hk hk' := by
    rw [Index.value_setTail, Index.cell_setTail]
    exact hs.initialised g hg k hk hk'
  slot := hs.slot
  blank := hs.blank

/-- What is found at the entry after the tail. -/
theorem probe (hs : Shelf e x place j o low top F K none acquired) (hh : x.blockIndex = some h)
    (hF : F ≤ K) (hK : ∀ k ∈ acquired, k < K) :
    (x.entries (x.nextEntry h)).vacant = some true ∨
      ((x.entries (x.nextEntry h)).vacant = some false ∧ Crowded x low top K) := by
  have hi := hs.index h hh
  have hentry : x.nextEntry h = x.cell o h K := by
    rw [Index.nextEntry, hi.tail, Index.cell]
  cases hkey : x.key (x.nextEntry h) with
  | none =>
      left
      rw [BlockIndexEntry.vacant, show (x.entries (x.nextEntry h)).key = none from hkey]
  | some base =>
      have hslot_lt : x.nextSlot h < (x.headers h).capacity := Nat.mod_lt _ hi.cap_pos
      obtain ⟨k, hk, hk', hpos, rfl⟩ := hi.window.key_spec hslot_lt hkey
      have hcell : x.nextEntry h = x.cell o h k := by
        rw [Index.nextEntry, ← hpos, Index.cell]
      have hvacant : (x.entries (x.nextEntry h)).vacant =
          (x.value (x.nextEntry h)).map fun v => v.isNone := by
        rw [BlockIndexEntry.vacant, show (x.entries (x.nextEntry h)).key = some _ from hkey]
        rfl
      cases hval : x.value (x.nextEntry h) with
      | none =>
          rw [hcell] at hval
          cases hs.initialised h hh k hk hk' hval
      | some v =>
          rw [hvacant, hval]
          cases v with
          | none => exact .inl rfl
          | some b =>
              refine .inr ⟨rfl, h, hh, ?_⟩
              rw [hcell] at hval
              have hslot := (hs.value h hh k hk hk' b).mp hval
              have hkK : k < K := by
                obtain ⟨-, -, -, hlt | hmem⟩ := hs.slot b k hslot
                · omega
                · exact hK k hmem
              -- a number below `K` in its position is a whole table behind it
              have htop := hi.le_top
              have hwidth := hi.window.width
              rw [hi.tail, pos_eq_iff] at hpos
              have hdvd := (Nat.modEq_iff_dvd' hkK.le).mp hpos
              have := Nat.le_of_dvd (by omega) hdvd
              omega

/-- The key of the next number is written. -/
theorem storeKey (hs : Shelf e x place j o low top F K none acquired)
    (hh : x.blockIndex = some h) (hF : F ≤ K) (hacq : ∀ k, F ≤ k → k < K → ∃ b, place b = .slot j k)
    (hK : ∀ k ∈ acquired, k < K) {n : ℕ} (hn : n = x.cell o h K)
    (hvacant : (x.entries n).vacant = some true) :
    ∃ low' top', Shelf e (x.setKey n (some (K * e.BLOCK_SIZE))) place j o low' top' F K (some K)
      acquired ∧ K < top' := by
  have hi := hs.index h hh
  have hnoslot : ∀ b, place b ≠ .slot j K := by
    intro b hb
    obtain ⟨-, -, -, hlt | hmem⟩ := hs.slot b K hb
    · omega
    · exact (hK K hmem).false
  have hvalue : ∀ b, x.value n ≠ some (some b) := by
    intro b hb
    cases hkey : x.key n with
    | none =>
        rw [hs.blank n hkey] at hb
        cases hb
    | some base =>
        rw [BlockIndexEntry.vacant, show (x.entries n).key = some base from hkey,
          show (x.entries n).value = some (some b) from hb] at hvacant
        cases hvacant
  have hlow : low ≤ K := hs.low_le.trans hF
  rcases hi.le_top.lt_or_eq with hlt | htop
  · -- the number was put on the index before and taken back: the key is there
    have hsame : x.setKey n (some (K * e.BLOCK_SIZE)) = x := by
      have hkey : (x.entries n).key = some (K * e.BLOCK_SIZE) := by
        rw [hn]
        exact hi.key_cell hlow hlt
      rw [Index.setKey, ← hkey]
      simp
    refine ⟨low, top, ?_, hlt⟩
    rw [hsame]
    refine ⟨hs.index, hs.low_le, hs.value, fun g hg k hk hk' hnone => ?_, hs.slot, hs.blank⟩
    cases hs.initialised g hg k hk hk' hnone
  · subst htop
    -- the number that leaves the window, if any, has no block any more
    have hleave : ∀ b k, place b = .slot j k → k + (x.headers h).capacity ≠ K := by
      intro b k hb hsum
      obtain ⟨-, hk, hk', -⟩ := hs.slot b k hb
      have hcell : x.cell o h k = n := by
        rw [hn, ← hsum, Index.cell, Index.cell]
        congr 1
        rw [pos_eq_iff]
        exact (Nat.add_modEq_right (n := (x.headers h).capacity)).symm
      have hval := (hs.value h hh k hk hk' b).mpr hb
      rw [hcell] at hval
      exact hvalue b hval
    have hwidth := hi.window.width
    have hcap := hi.cap_pos
    refine ⟨max low (K + 1 - (x.headers h).capacity), K + 1, ?_, Nat.lt_succ_self K⟩
    refine ⟨fun g hg => ?_, ?_, fun g hg k hk hk' b => ?_, fun g hg k hk hk' hnone => ?_,
      fun b k hb => ?_, fun c hc => ?_⟩
    · obtain rfl : g = h := Option.some.inj (hg.symm.trans hh)
      refine ⟨hi.last, ?_, hi.known, hi.nested, hi.tail_lt, hi.tail, fun g' hg' => ?_,
        Nat.le_succ K, hi.capacity⟩
      · rw [Index.key_setKey, hn]
        exact hi.window.push
      · rw [Index.key_setKey]
        change update x.key n _ ((x.headers g').index (x.headers g').tail) ≠ none
        rcases eq_or_ne ((x.headers g').index (x.headers g').tail) n with heq | hne'
        · rw [heq, update_self]
          exact Option.some_ne_none _
        · rw [update_of_ne hne']
          exact hi.old g' hg'
    · by_contra hgt
      have hlowF := hs.low_le
      have hsub : low = F ∧ low + (x.headers h).capacity = K := by omega
      obtain ⟨b, hb⟩ := hacq low hsub.1.ge (by omega)
      exact hleave b low hb hsub.2
    · rw [Index.value_setKey, Index.cell_setKey]
      obtain rfl : g = h := Option.some.inj (hg.symm.trans hh)
      rcases Nat.lt_succ_iff_lt_or_eq.mp hk' with hlt | rfl
      · exact hs.value g hg k (by omega) hlt b
      · rw [← hn]
        exact ⟨fun hv => absurd hv (hvalue b), fun hb => absurd hb (hnoslot b)⟩
    · rw [Index.value_setKey, Index.cell_setKey] at hnone
      obtain rfl : g = h := Option.some.inj (hg.symm.trans hh)
      rcases Nat.lt_succ_iff_lt_or_eq.mp hk' with hlt | rfl
      · cases hs.initialised g hg k (by omega) hlt hnone
      · rfl
    · obtain ⟨hsome, hk, hk', hor⟩ := hs.slot b k hb
      have := hleave b k hb
      exact ⟨hsome, by omega, by omega, hor⟩
    · rw [Index.key_setKey] at hc
      rw [Index.value_setKey]
      rcases eq_or_ne c n with rfl | hcn
      · rw [update_self] at hc
        cases hc
      · rw [update_of_ne hcn] at hc
        exact hs.blank c hc

/-- A larger index takes the place of a full one. -/
theorem larger (hs : Shelf e x place j o low top F K pushing acquired)
    (hh : x.blockIndex = some h) (hfull : top = low + (x.headers h).capacity) (hK : K = top) :
    Shelf e (x.largerBlockIndex h) place j (grownOffset x o low h) low top F K pushing
      acquired := by
  have hi := hs.index h hh
  have hlt : h < x.headerCount := by
    have := hi.last
    omega
  have hvalue : ∀ k, low ≤ k → k < top →
      (x.largerBlockIndex h).value
        ((x.largerBlockIndex h).cell (grownOffset x o low h) x.headerCount k) =
      x.value (x.cell o h k) := by
    intro k hk hk'
    have hknown : x.cell o h k < x.entryCount := hi.known_of hlt (pos_lt hi.cap_pos k)
    rw [hi.cell_larger hfull hK hk hk', Index.value, Indexed.entries_larger_of_lt hknown,
      Index.value]
  refine ⟨fun g hg => ?_, hs.low_le, fun g hg k hk hk' b => ?_, fun g hg k hk hk' hnone => ?_,
    fun b k hb => ?_, fun n hn => ?_⟩
  · cases hg
    exact hi.larger hfull hK
  · cases hg
    rw [hvalue k hk hk']
    exact hs.value h hh k hk hk' b
  · cases hg
    rw [hvalue k hk hk'] at hnone
    exact hs.initialised h hh k hk hk' hnone
  · exact ⟨Option.some_ne_none _, (hs.slot b k hb).2⟩
  · by_cases hnew : x.entryCount ≤ n ∧ n < x.entryCount + (x.headers h).capacity
    · simp only [Index.value, Index.largerBlockIndex, if_pos hnew]
    · simp only [Index.key, Index.largerBlockIndex, if_neg hnew] at hn
      simp only [Index.value, Index.largerBlockIndex, if_neg hnew]
      exact hs.blank n hn

/-- The value of number `k` is written, and the places follow. -/
theorem setValue (hs : Shelf e x place j o low top F K pushing acquired)
    (hh : x.blockIndex = some h) {k : ℕ} (hk : low ≤ k) (hk' : k < top) {v : Option ℕ}
    {place' : ℕ → Place ι} {pushing' : Option ℕ} {acquired' : Finset ℕ}
    (hv : ∀ b, v = some b ↔ place' b = .slot j k)
    (hother : ∀ b l, l ≠ k → (place' b = .slot j l ↔ place b = .slot j l))
    (hpush : ∀ l, l ≠ k → pushing = some l → pushing' = some l)
    (hacq : ∀ l, l ∈ acquired → l ≠ k → l ∈ acquired')
    (hnew : ∀ b, v = some b → k < F ∨ k ∈ acquired') :
    Shelf e (x.setValue (x.cell o h k) v) place' j o low top F K pushing' acquired' := by
  have hi := hs.index h hh
  have hcell : ∀ l, low ≤ l → l < top → l ≠ k →
      (x.setValue (x.cell o h k) v).value (x.cell o h l) = x.value (x.cell o h l) := by
    intro l hl hl' hne
    rw [Index.value_setValue, update_of_ne (hi.cell_ne hl hl' hk hk' hne)]
  have hself : (x.setValue (x.cell o h k) v).value (x.cell o h k) = some v := by
    rw [Index.value_setValue, update_self]
  refine ⟨fun g hg => ?_, hs.low_le, fun g hg l hl hl' b => ?_, fun g hg l hl hl' hnone => ?_,
    fun b l hb => ?_, fun n hn => ?_⟩
  · exact (hs.index g hg).setValue _ _
  · obtain rfl : g = h := Option.some.inj (hg.symm.trans hh)
    rw [Index.cell_setValue]
    rcases eq_or_ne l k with rfl | hne
    · rw [hself, Option.some.injEq]
      exact hv b
    · rw [hcell l hl hl' hne, hother b l hne]
      exact hs.value g hh l hl hl' b
  · obtain rfl : g = h := Option.some.inj (hg.symm.trans hh)
    rw [Index.cell_setValue] at hnone
    rcases eq_or_ne l k with rfl | hne
    · rw [hself] at hnone
      cases hnone
    · rw [hcell l hl hl' hne] at hnone
      exact hpush l hne (hs.initialised g hh l hl hl' hnone)
  · rcases eq_or_ne l k with rfl | hne
    · exact ⟨hh ▸ Option.some_ne_none _, hk, hk', hnew b ((hv b).mpr hb)⟩
    · obtain ⟨hsome, hl, hl', hor⟩ := hs.slot b l ((hother b l hne).mp hb)
      exact ⟨hsome, hl, hl', hor.imp_right fun hmem => hacq l hmem hne⟩
  · rw [Index.key_setValue] at hn
    rcases eq_or_ne n (x.cell o h k) with rfl | hne
    · rw [hi.key_cell hk hk'] at hn
      cases hn
    · rw [Index.value_setValue, update_of_ne hne]
      exact hs.blank n hn

/-- The block of number `k` leaves the index. -/
theorem remove (hs : Shelf e x place j o low top F K pushing acquired)
    (hh : x.blockIndex = some h) {k b : ℕ} (hb : place b = .slot j k) {y : Place ι}
    (hy : ∀ l, y ≠ .slot j l) {acquired' : Finset ℕ}
    (hacq : ∀ l, l ∈ acquired → l ≠ k → l ∈ acquired') :
    Shelf e (x.setValue (x.cell o h k) none) (update place b y) j o low top F K pushing
      acquired' := by
  obtain ⟨-, hk, hk', -⟩ := hs.slot b k hb
  refine hs.setValue hh hk hk' (fun c => ?_) (fun c l hne => ?_) (fun l _ hl => hl) hacq
    (fun c hc => by cases hc)
  · refine ⟨fun hc => (Option.some_ne_none c hc.symm).elim, fun hc => ?_⟩
    rcases eq_or_ne c b with rfl | hcb
    · rw [update_self] at hc
      exact absurd hc (hy k)
    · rw [update_of_ne hcb] at hc
      exact absurd (hs.unique hc hb) hcb
  · rcases eq_or_ne c b with rfl | hcb
    · rw [update_self, hb]
      exact ⟨fun hc => absurd hc (hy l), fun hc => absurd (by injection hc) hne.symm⟩
    · rw [update_of_ne hcb]

/-- The blocks of a call are published. -/
theorem publish (hs : Shelf e x place j o low top F K pushing acquired) {F' : ℕ} (hF : F ≤ F')
    (hacq : ∀ k ∈ acquired, k < F') : Shelf e x place j o low top F' K pushing ∅ where
  index := hs.index
  low_le := hs.low_le.trans hF
  value := hs.value
  initialised := hs.initialised
  slot b k hb := by
    obtain ⟨hsome, hk, hk', hlt | hmem⟩ := hs.slot b k hb
    · exact ⟨hsome, hk, hk', .inl (hlt.trans_le hF)⟩
    · exact ⟨hsome, hk, hk', .inl (hacq k hmem)⟩
  blank := hs.blank

/-- The producer finds the entry of a block of its own. -/
theorem lookup (hs : Shelf e x place j o low top F K pushing acquired)
    (hh : x.blockIndex = some h) {b k : ℕ} (hb : place b = .slot j k) (hK : low < K) :
    x.lookup e h (k * e.BLOCK_SIZE) = some (x.cell o h k) := by
  obtain ⟨-, hlow, htop, -⟩ := hs.slot b k hb
  have hx := hs.index h hh
  obtain ⟨K', rfl⟩ : ∃ K', K = K' + 1 := ⟨K - 1, by omega⟩
  have hg : h < x.headerCount := by
    have := hx.last
    omega
  have htail : (x.entries ((x.headers h).index (x.headers h).tail)).key =
      some (K' * e.BLOCK_SIZE) := hx.key_tail (by omega)
  have hlocate := hx.locate (i := k * e.BLOCK_SIZE) hg (hx.tail_lt h hg) htail
  rw [Nat.mul_div_cancel _ e.BLOCK_SIZE_pos] at hlocate
  have hcell : (x.headers h).index (pos (x.headers h).capacity (o h) k) = x.cell o h k := rfl
  have hkey : (x.entries (x.cell o h k)).key = some (k * e.BLOCK_SIZE) := hx.key_cell hlow htop
  have hvalue : (x.entries (x.cell o h k)).value = some (some b) :=
    (hs.value h hh k hlow htop b).mpr hb
  have hholds : (x.entries (x.cell o h k)).holds e (k * e.BLOCK_SIZE) = true := by
    generalize x.entries (x.cell o h k) = entry at hkey hvalue
    cases entry
    cases hkey
    cases hvalue
    rw [BlockIndexEntry.holds, Nat.mul_div_cancel _ e.BLOCK_SIZE_pos]
    exact beq_self_eq_true _
  simp only [Index.lookup, htail, hlocate, hcell, hholds, if_true]

end Shelf

/-! ### What a consumer may rely on -/

/-- What never changes in an index: its headers keep their entries, and a key once written
stays one. -/
structure Index.Grows (x x' : Index) (o o' : ℕ → ℕ) : Prop where
  count : x.headerCount ≤ x'.headerCount
  capacity : ∀ g < x.headerCount, (x'.headers g).capacity = (x.headers g).capacity
  index : ∀ g < x.headerCount, (x'.headers g).index = (x.headers g).index
  offset : ∀ g < x.headerCount, o' g = o g
  key : ∀ g < x.headerCount, ∀ t < (x.headers g).capacity,
    x.key ((x.headers g).index t) ≠ none → x'.key ((x.headers g).index t) ≠ none

theorem Index.Grows.cell {x x' : Index} {o o' : ℕ → ℕ} (h : x.Grows x' o o') {g : ℕ}
    (hg : g < x.headerCount) (k : ℕ) : x'.cell o' g k = x.cell o g k := by
  rw [Index.cell, Index.cell, h.capacity g hg, h.index g hg, h.offset g hg]

theorem Index.Grows.refl (x : Index) (o : ℕ → ℕ) : x.Grows x o o :=
  ⟨le_rfl, fun _ _ => rfl, fun _ _ => rfl, fun _ _ => rfl, fun _ _ _ _ h => h⟩

theorem Index.Grows.setKey (x : Index) (o : ℕ → ℕ) (n v : ℕ) :
    x.Grows (x.setKey n (some v)) o o := by
  refine ⟨le_rfl, fun _ _ => rfl, fun _ _ => rfl, fun _ _ => rfl, fun g _ t _ h => ?_⟩
  rw [Index.key_setKey]
  rcases eq_or_ne ((x.headers g).index t) n with heq | hne
  · rw [heq, update_self]
    exact Option.some_ne_none _
  · rwa [update_of_ne hne]

theorem Index.Grows.setValue (x : Index) (o : ℕ → ℕ) (n : ℕ) (v : Option ℕ) :
    x.Grows (x.setValue n v) o o :=
  ⟨le_rfl, fun _ _ => rfl, fun _ _ => rfl, fun _ _ => rfl, fun _ _ _ _ h => by
    rwa [Index.key_setValue]⟩

theorem Index.Grows.setTail (x : Index) (o : ℕ → ℕ) (h t : ℕ) : x.Grows (x.setTail h t) o o :=
  ⟨le_rfl, fun _ _ => Index.capacity_setTail, fun _ _ => Index.index_setTail, fun _ _ => rfl,
    fun _ _ _ _ h => h⟩

theorem Indexed.grows_larger {x : Index} {o : ℕ → ℕ} {low top K h : ℕ}
    (hx : Indexed e x o low top K h) :
    x.Grows (x.largerBlockIndex h) o (grownOffset x o low h) := by
  refine ⟨Nat.le_succ _, fun g hg => ?_, fun g hg => ?_, fun g hg => grownOffset_of_lt hg,
    fun g hg t ht hkey => ?_⟩
  · rw [headers_larger_of_lt hg]
  · rw [headers_larger_of_lt hg]
  · rwa [key_larger_of_lt (hx.known_of hg ht)]

end ConcurrentQueue.ImplicitRace
