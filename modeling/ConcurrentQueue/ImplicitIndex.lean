import ConcurrentQueue.Implicit

/-!
# ConcurrentQueue.ImplicitIndex

The block index of an implicit producer. As for an explicit one, **the entry of block
number `q` stands in slot `(c + q) % 2^k`**. The blocks `s ≤ q < t` have entries with
their own keys, whatever value these hold (`W`); every other slot may be used again.
The tail of the index is the slot of some block `u`: between calls the last one, and
an earlier one while a failed call takes its entries back.
-/

namespace ConcurrentQueue.Implicit

open Function Wrap
open Option (bind_eq_bind bind_some)

variable {α : Type} (e : Env)

structure Index (h : BlockIndexHeader e.bits) (W : Nat → Option (Option Nat))
    (s t u c k : Nat) : Prop where
  klt : k < e.bits
  capacity : h.capacity = BitVec.ofNat e.bits (2 ^ k)
  tail : h.tail = BitVec.ofNat e.bits ((c + u) % 2 ^ k)
  le : s ≤ t
  room : t ≤ s + 2 ^ k
  entries : ∀ q, s ≤ q → q < t →
    h.index ((c + q) % 2 ^ k) = some ⟨BitVec.ofNat e.bits (q * e.BLOCK_SIZE), W q⟩
  vacant : ∀ q, t ≤ q → q < s + 2 ^ k →
    ∃ x, h.index ((c + q) % 2 ^ k) = some x ∧ x.vacant = some true

variable {e} {h : BlockIndexHeader e.bits} {W : Nat → Option (Option Nat)} {s t u c k : Nat}
  {st : State e.bits α}

/-- Block bases are even. -/
theorem base_ne_invalid (q : Nat) :
    BitVec.ofNat e.bits (q * e.BLOCK_SIZE) ≠ INVALID_BLOCK_BASE := by
  have hw := e.bits_pos
  have hlog := e.blockLog_pos
  intro heq
  have hnat := congrArg (fun x : BitVec e.bits => x.toNat % 2) heq
  have hB : e.BLOCK_SIZE = 2 * 2 ^ (e.blockLog - 1) := Wrap.two_pow_eq hlog
  have hdvd : 2 ∣ 2 ^ e.bits := dvd_pow_self 2 hw.ne'
  simp only [INVALID_BLOCK_BASE, BitVec.toNat_ofNat, Nat.mod_mod_of_dvd _ hdvd] at hnat
  rw [hB, ← Nat.mul_assoc, Nat.mul_comm q, Nat.mul_assoc, Nat.mul_mod_right] at hnat
  omega

namespace Index

/-! ### Slots -/

theorem get_slot (hi : Index e h W s t u c k) (q : Nat) :
    h.get (BitVec.ofNat e.bits ((c + q) % 2 ^ k)) = h.index ((c + q) % 2 ^ k) := by
  rw [BlockIndexHeader.get, hi.capacity, if_pos (slot_lt_size hi.klt), toNat_slot hi.klt.le]

theorem get (hi : Index e h W s t u c k) {q : Nat} (hs : s ≤ q) (ht : q < t) :
    h.get (BitVec.ofNat e.bits ((c + q) % 2 ^ k)) =
      some ⟨BitVec.ofNat e.bits (q * e.BLOCK_SIZE), W q⟩ :=
  (hi.get_slot q).trans (hi.entries q hs ht)

theorem congr (hi : Index e h W s t u c k) {W' : Nat → Option (Option Nat)}
    (hW : ∀ q, s ≤ q → q < t → W' q = W q) : Index e h W' s t u c k :=
  { hi with
    entries := fun q hs ht => by
      rw [hW q hs ht]
      exact hi.entries q hs ht }

/-- The last entries are given up when their values are null. -/
theorem shrink (hi : Index e h W s t u c k) {t' : Nat} (hs : s ≤ t') (ht : t' ≤ t)
    (hW : ∀ q, t' ≤ q → q < t → W q = some none) : Index e h W s t' u c k :=
  { hi with
    le := hs
    room := ht.trans hi.room
    entries := fun q hsq hqt => hi.entries q hsq (by omega)
    vacant := fun q htq hq => by
      rcases Nat.lt_or_ge q t with hqt | hqt
      · refine ⟨_, hi.entries q (by omega) hqt, ?_⟩
        rw [BlockIndexEntry.vacant, hW q htq hqt]
        exact if_neg (base_ne_invalid q)
      · exact hi.vacant q hqt hq }

/-- The first entry is given up when its value is null. -/
theorem pop (hi : Index e h W s t u c k) (hst : s < t) (hW : W s = some none) :
    Index e h W (s + 1) t u c k :=
  { hi with
    le := hst
    room := by
      have := hi.room
      omega
    entries := fun q hsq hqt => hi.entries q (by omega) hqt
    vacant := fun q htq hq => by
      rcases Nat.lt_or_ge q (s + 2 ^ k) with hlt | hge
      · exact hi.vacant q htq hlt
      · -- a full lap after the first entry
        obtain rfl : q = s + 2 ^ k := by omega
        refine ⟨⟨BitVec.ofNat e.bits (s * e.BLOCK_SIZE), W s⟩, ?_, ?_⟩
        · rw [← Nat.add_assoc, Nat.add_mod_right]
          exact hi.entries s le_rfl hst
        · rw [BlockIndexEntry.vacant, hW]
          exact if_neg (base_ne_invalid s) }

/-! ### Stores -/

/-- Write the entry of block `q`. -/
theorem set (hi : Index e h W s t u c k) {q : Nat} (hs : s ≤ q) (ht : q < t)
    (v : Option (Option Nat)) :
    Index e (h.set (BitVec.ofNat e.bits ((c + q) % 2 ^ k))
      ⟨BitVec.ofNat e.bits (q * e.BLOCK_SIZE), v⟩) (update W q v) s t u c k := by
  have hroom := hi.room
  have hother : ∀ r, s ≤ r → r < s + 2 ^ k → r ≠ q →
      (c + r) % 2 ^ k ≠ (c + q) % 2 ^ k := by
    intro r hsr hr hne
    rcases Nat.lt_or_gt_of_ne hne with hlt | hgt
    · exact mod_ne hlt (by omega)
    · exact (mod_ne hgt (by omega)).symm
  refine { hi with entries := fun r hsr hrt => ?_, vacant := fun r htr hr => ?_ }
  · show update h.index _ _ _ = _
    rw [toNat_slot hi.klt.le]
    by_cases hrq : r = q
    · rw [hrq, update_self, update_self]
    · rw [update_of_ne (hother r hsr (by omega) hrq), update_of_ne hrq]
      exact hi.entries r hsr hrt
  · show ∃ x, update h.index _ _ _ = _ ∧ _
    rw [toNat_slot hi.klt.le, update_of_ne (hother r (hi.le.trans htr) hr (by omega))]
    exact hi.vacant r htr hr

theorem storeValue (hi : Index e h W s t u c k) (hb : st.prod.blockIndex = some h) {q : Nat}
    (hs : s ≤ q) (ht : q < t) (v : Option Nat) :
    ∃ h', storeValue e (BitVec.ofNat e.bits ((c + q) % 2 ^ k)) v st = some (setHeader e h' st) ∧
      Index e h' (update W q (some v)) s t u c k := by
  refine ⟨_, ?_, hi.set hs ht (some v)⟩
  simp only [Implicit.storeValue, hb, bind_eq_bind, bind_some, hi.get hs ht]

theorem loadValue (hi : Index e h W s t u c k) (hb : st.prod.blockIndex = some h) {q b : Nat}
    (hs : s ≤ q) (ht : q < t) (hW : W q = some (some b)) :
    loadValue e (BitVec.ofNat e.bits ((c + q) % 2 ^ k)) st = some b := by
  simp only [Implicit.loadValue, hb, bind_eq_bind, bind_some, hi.get hs ht, hW]

theorem nextSlot (hi : Index e h W s t u c k) (hb : st.prod.blockIndex = some h) (q : Nat) :
    nextSlot e (BitVec.ofNat e.bits ((c + q) % 2 ^ k)) st =
      some (BitVec.ofNat e.bits ((c + (q + 1)) % 2 ^ k)) := by
  simp only [Implicit.nextSlot, hb, bind_eq_bind, bind_some, hi.capacity]
  rw [slot_succ, Nat.add_assoc]

/-- The tail is put back by one slot. -/
theorem rewind (hi : Index e h W s t (u + 1) c k) (hb : st.prod.blockIndex = some h) :
    ∃ h', rewindBlockIndexTail e st = some (setHeader e h' st) ∧ Index e h' W s t u c k := by
  have hslot : (h.tail - 1#e.bits) &&& (h.capacity - 1#e.bits) =
      BitVec.ofNat e.bits ((c + u) % 2 ^ k) := by
    rw [hi.tail, hi.capacity, ← Nat.add_assoc]
    exact slot_sub hi.klt.le
  refine ⟨{ h with tail := BitVec.ofNat e.bits ((c + u) % 2 ^ k) }, ?_, { hi with tail := rfl }⟩
  simp only [rewindBlockIndexTail, hb, bind_eq_bind, bind_some, hslot]

/-- Another entry at the end, in a slot that is vacant. -/
theorem push (hi : Index e h W s t u c k) (hroom : t < s + 2 ^ k) (v : Option (Option Nat)) :
    Index e { h.set (BitVec.ofNat e.bits ((c + t) % 2 ^ k))
        ⟨BitVec.ofNat e.bits (t * e.BLOCK_SIZE), v⟩ with
          tail := BitVec.ofNat e.bits ((c + t) % 2 ^ k) }
      (update W t v) s (t + 1) t c k := by
  refine { hi with
    tail := rfl
    le := hi.le.trans (Nat.le_succ t)
    room := hroom
    entries := fun q hsq hqt => ?_
    vacant := fun q htq hq => ?_ }
  · show update h.index _ _ _ = _
    rw [toNat_slot hi.klt.le]
    rcases Nat.lt_succ_iff_lt_or_eq.mp hqt with hlt | rfl
    · rw [update_of_ne (mod_ne hlt (by omega)), update_of_ne hlt.ne]
      exact hi.entries q hsq hlt
    · rw [update_self, update_self]
  · show ∃ x, update h.index _ _ _ = _ ∧ _
    rw [toNat_slot hi.klt.le, update_of_ne (mod_ne (by omega) (by
      have := hi.le
      omega)).symm]
    exact hi.vacant q (by omega) hq

/-! ### Lookup -/

/-- From the slot of the tail, the signed block distance leads to the slot of the
block of index `n`, before it or behind it. -/
theorem lookup (hi : Index e h W s t u c k) (hB : e.BLOCK_SIZE < 2 ^ (e.bits - 1)) {n b : Nat}
    (hs : s ≤ n / e.BLOCK_SIZE) (ht : n / e.BLOCK_SIZE < t) (hsu : s ≤ u) (hut : u < t)
    (hspan : (t - s) * e.BLOCK_SIZE ≤ 2 ^ (e.bits - 1))
    (hW : W (n / e.BLOCK_SIZE) = some (some b)) :
    getBlockIndexIndexForIndex e (BitVec.ofNat e.bits n) h =
      some (BitVec.ofNat e.bits ((c + n / e.BLOCK_SIZE) % 2 ^ k)) := by
  have hlog : e.blockLog + 1 < e.bits := by
    have := (Nat.pow_lt_pow_iff_right (by omega : 1 < 2)).mp hB
    omega
  have hpos := e.BLOCK_SIZE_pos
  generalize hq : n / e.BLOCK_SIZE = q at hs ht hW
  have hmul : ∀ d, d < t - s → d * e.BLOCK_SIZE < 2 ^ (e.bits - 1) := fun d hd =>
    lt_of_lt_of_le (Nat.mul_lt_mul_of_pos_right hd hpos) hspan
  have hdiv : (BitVec.ofNat e.bits (q * e.BLOCK_SIZE) -
      BitVec.ofNat e.bits (u * e.BLOCK_SIZE)).sdiv e.blockSize =
        BitVec.ofNat e.bits q - BitVec.ofNat e.bits u := by
    rcases Nat.le_total q u with hle | hle
    · exact sdiv_blocks hlog hle (hmul _ (by omega)).le
    · exact sdiv_blocks_of_ge hlog hle (hmul _ (by omega))
  have hslot : (BitVec.ofNat e.bits ((c + u) % 2 ^ k) +
      (BitVec.ofNat e.bits q - BitVec.ofNat e.bits u)) &&&
        (BitVec.ofNat e.bits (2 ^ k) - 1#e.bits) = BitVec.ofNat e.bits ((c + q) % 2 ^ k) := by
    rw [size_sub_one]
    refine and_low_of_add_eq hi.klt.le (b := u) (n := (c + u) % 2 ^ k + q) ?_ ?_
    · rw [BitVec.add_assoc, BitVec.sub_add_cancel, BitVec.ofNat_add_ofNat]
    · rw [Nat.mod_add_mod, Nat.add_right_comm]
  have hvalid := base_ne_invalid (e := e) u
  have hne : (some b : Option Nat) ≠ none := Option.some_ne_none b
  simp only [getBlockIndexIndexForIndex, Traits.blockBase_ofNat, hq, hi.tail, hi.get hsu hut,
    bind_eq_bind, bind_some, if_neg hvalid, hdiv, hi.capacity, hslot, hi.get hs ht,
    hW, hne, ne_eq, not_false_eq_true, and_self, if_true]

end Index

/-! ### A larger index -/

/-- The copy loop over a full index, from the entry of block `s + j` on. -/
theorem copyEntries_spec (hi : Index e h W s (s + 2 ^ k) u c k) (hu : u + 1 = s + 2 ^ k)
    (fuel : Nat) {j : Nat} (hj : j < 2 ^ k) (hfuel : 2 ^ k ≤ j + fuel)
    (new : Nat → Option (BlockIndexEntry e.bits)) :
    ∃ new', copyEntries h fuel (BitVec.ofNat e.bits ((c + (u + j)) % 2 ^ k)) j new =
        some (2 ^ k, new') ∧
      (∀ i < j, new' i = new i) ∧
      ∀ i, j ≤ i → i < 2 ^ k →
        new' i = some ⟨BitVec.ofNat e.bits ((s + i) * e.BLOCK_SIZE), W (s + i)⟩ := by
  induction fuel generalizing j new with
  | zero => omega
  | succ fuel ih =>
      have hget := hi.get (q := s + j) (by omega) (by omega)
      have hnext : (BitVec.ofNat e.bits ((c + (u + j)) % 2 ^ k) + 1#e.bits) &&&
          (BitVec.ofNat e.bits (2 ^ k) - 1#e.bits) =
            BitVec.ofNat e.bits ((c + (s + j)) % 2 ^ k) := by
        rw [slot_succ, show c + (u + j) + 1 = c + (s + j) + 2 ^ k by omega, Nat.add_mod_right]
      simp only [copyEntries, hi.capacity, hnext, hget, bind_eq_bind, bind_some,
        hi.tail]
      by_cases hlast : j + 1 = 2 ^ k
      · rw [show s + j = u by omega, if_pos rfl, hlast]
        refine ⟨_, rfl, fun i hij => ?_, fun i hij hik => ?_⟩
        · exact update_of_ne (by omega) ..
        · obtain rfl : i = j := by omega
          rw [show s + i = u by omega]
          exact update_self ..
      · have hne : BitVec.ofNat e.bits ((c + (s + j)) % 2 ^ k) ≠
            BitVec.ofNat e.bits ((c + u) % 2 ^ k) := by
          intro heq
          have hnat := congrArg BitVec.toNat heq
          rw [toNat_slot hi.klt.le, toNat_slot hi.klt.le] at hnat
          exact mod_ne (by omega) (by omega) hnat
        have hstep : BitVec.ofNat e.bits ((c + (s + j)) % 2 ^ k) =
            BitVec.ofNat e.bits ((c + (u + (j + 1))) % 2 ^ k) := by
          rw [show c + (u + (j + 1)) = c + (s + j) + 2 ^ k by omega, Nat.add_mod_right]
        rw [if_neg hne, hstep]
        obtain ⟨new', hcopy, hlow, hhigh⟩ := ih (j := j + 1) (by omega) (by omega)
          (update new j (some ⟨BitVec.ofNat e.bits ((s + j) * e.BLOCK_SIZE), W (s + j)⟩))
        refine ⟨new', hcopy, fun i hij => ?_, fun i hij hik => ?_⟩
        · rw [hlow i (by omega)]
          exact update_of_ne (by omega) ..
        · by_cases hi' : i = j
          · subst hi'
            rw [hlow i (by omega)]
            exact update_self ..
          · exact hhigh i (by omega) hik

/-- The producer with another index. -/
def withIndex {w : Nat} (p : ImplicitProducer w) (h : BlockIndexHeader w) (next : BitVec w) :
    ImplicitProducer w := { p with blockIndex := some h, nextBlockIndexCapacity := next }

/-- **Doubling a full index** keeps its entries, and the last one is still the tail. -/
theorem newBlockIndex_full (hi : Index e h W s t u c k) (hfull : t = s + 2 ^ k) (hu : u + 1 = t)
    (hk : k + 1 < e.bits) (hb : st.prod.blockIndex = some h)
    (hnext : st.prod.nextBlockIndexCapacity = BitVec.ofNat e.bits (2 ^ (k + 1)))
    (hm : e.mallocOk st.mem.mallocs = true) :
    ∃ h', newBlockIndex e st = some (⟨{ st.mem with mallocs := st.mem.mallocs + 1 },
        withIndex st.prod h' (BitVec.ofNat e.bits (2 ^ (k + 1 + 1)))⟩, true) ∧
      Index e h' W s t u ((2 ^ (k + 1) - 1) * s) (k + 1) ∧
      ∀ q, t ≤ q → q < s + 2 ^ (k + 1) →
        h'.index (((2 ^ (k + 1) - 1) * s + q) % 2 ^ (k + 1)) = some ⟨INVALID_BLOCK_BASE, none⟩ := by
  subst hfull
  have hS := Nat.two_pow_pos (k + 1)
  have hpow := Nat.two_pow_pos k
  have hdouble : 2 ^ (k + 1) = 2 ^ k + 2 ^ k := by omega
  have hlt : 2 ^ (k + 1) < 2 ^ e.bits := Nat.pow_lt_pow_right (by omega) hk
  obtain ⟨new, hcopy, -, hnew⟩ := copyEntries_spec hi hu (2 ^ e.bits) (j := 0) hpow (by omega)
    fun _ => none
  have hprev : previousEntries e st.prod = some new := by
    rw [Nat.add_zero, ← hi.tail] at hcopy
    simp only [previousEntries, hb, hcopy, bind_eq_bind, bind_some, hi.capacity,
      if_true]
  have hcap : (BitVec.ofNat e.bits (2 ^ k)).toNat = 2 ^ k := by
    rw [BitVec.toNat_ofNat, Nat.mod_eq_of_lt (by omega)]
  have htail : (BitVec.ofNat e.bits (2 ^ k) - 1#e.bits) &&&
      (BitVec.ofNat e.bits (2 ^ (k + 1)) - 1#e.bits) =
        BitVec.ofNat e.bits (((2 ^ (k + 1) - 1) * s + u) % 2 ^ (k + 1)) := by
    rw [size_sub_one, size_sub_one, ofNat_and_low, compact_slot hS (by omega) (by omega),
      Nat.mod_eq_of_lt (by omega)]
    congr 1
    omega
  refine ⟨⟨BitVec.ofNat e.bits (2 ^ (k + 1)),
    BitVec.ofNat e.bits (((2 ^ (k + 1) - 1) * s + u) % 2 ^ (k + 1)),
    fun i => if 2 ^ k ≤ i ∧ i < 2 ^ k + 2 ^ k then some ⟨INVALID_BLOCK_BASE, none⟩ else new i⟩,
    ?_, ⟨hk, rfl, rfl, hi.le, by omega, fun q hsq hqt => ?_, fun q htq hq => ?_⟩,
    fun q htq hq => ?_⟩
  · simp only [newBlockIndex, Mem.malloc, hm, hb, hprev, bind_eq_bind, bind_some,
      hi.capacity, hnext, hcap, htail, size_double, withIndex]
  · dsimp only
    rw [compact_slot hS hsq (by omega), if_neg (by omega), hnew (q - s) (Nat.zero_le _) (by omega),
      Nat.add_sub_cancel' hsq]
  · refine ⟨⟨INVALID_BLOCK_BASE, none⟩, ?_, if_pos rfl⟩
    dsimp only
    rw [compact_slot hS (by omega) (by omega), if_pos (by omega)]
  · dsimp only
    rw [compact_slot hS (by omega) (by omega), if_pos (by omega)]

theorem newBlockIndex_failed (hm : e.mallocOk st.mem.mallocs = false) :
    newBlockIndex e st =
      some (⟨{ st.mem with mallocs := st.mem.mallocs + 1 }, st.prod⟩, false) := by
  simp only [newBlockIndex, Mem.malloc, hm]

/-! ### Inserting an entry -/

/-- There is room for another entry in an index of size `2^k` with the entries
`s ≤ q < t`, or a larger one can be had. -/
def canInsert (e : Env) (mode : AllocationMode) (mallocs s t k : Nat) : Bool :=
  decide (t < s + 2 ^ k) || (mode == .canAlloc && e.mallocOk mallocs)

/-- The slot after the tail has been taken for the block `t`; its value is still to
be stored. -/
structure Inserted (st st' : State e.bits α) (slot : BitVec e.bits)
    (W : Nat → Option (Option Nat)) (s t k : Nat) : Prop where
  exists_index : ∃ h' v c' k', k ≤ k' ∧ slot = BitVec.ofNat e.bits ((c' + t) % 2 ^ k') ∧
    st'.prod = withIndex st.prod h' (BitVec.ofNat e.bits (2 ^ (k' + 1))) ∧
    Index e h' (update W t v) s (t + 1) t c' k' ∧
    (k' = k ∧ st'.mem = st.mem ∨
      t = s + 2 ^ k ∧ k' = k + 1 ∧ st'.mem = { st.mem with mallocs := st.mem.mallocs + 1 })

/-- `insert_block_index_entry` finds a slot if there is one to be had; otherwise it
changes nothing but the count of `malloc` calls. -/
theorem Index.insert (hi : Index e h W s t u c k) (hu : u + 1 = t)
    (hb : st.prod.blockIndex = some h)
    (hnext : st.prod.nextBlockIndexCapacity = BitVec.ofNat e.bits (2 ^ (k + 1)))
    (hfirst : t = s + 2 ^ k → k + 1 < e.bits ∧ ∃ b, W s = some (some b))
    (mode : AllocationMode) :
    (canInsert e mode st.mem.mallocs s t k = true ∧ ∃ st' slot,
      insertBlockIndexEntry e mode (BitVec.ofNat e.bits (t * e.BLOCK_SIZE)) st =
        some (st', some slot) ∧ Inserted st st' slot W s t k) ∨
    (canInsert e mode st.mem.mallocs s t k = false ∧ ∃ n,
      insertBlockIndexEntry e mode (BitVec.ofNat e.bits (t * e.BLOCK_SIZE)) st =
        some (⟨{ st.mem with mallocs := n }, st.prod⟩, none)) := by
  have hnewTail : (h.tail + 1#e.bits) &&& (h.capacity - 1#e.bits) =
      BitVec.ofNat e.bits ((c + t) % 2 ^ k) := by
    rw [hi.tail, hi.capacity, slot_succ, Nat.add_assoc, hu]
  rcases Nat.lt_or_ge t (s + 2 ^ k) with hroom | hge
  · obtain ⟨x, hx, hvacant⟩ := hi.vacant t le_rfl hroom
    have hget := (hi.get_slot t).trans hx
    refine .inl ⟨by simp [canInsert, hroom],
      pushKey e h (BitVec.ofNat e.bits ((c + t) % 2 ^ k)) x
        (BitVec.ofNat e.bits (t * e.BLOCK_SIZE)) st, _, ?_,
      ⟨_, x.value, c, k, le_rfl, rfl, ?_, hi.push hroom x.value, .inl ⟨rfl, rfl⟩⟩⟩
    · simp only [insertBlockIndexEntry, hb, hnewTail, hget, hvacant, bind_eq_bind,
        bind_some, if_true]
    · rw [← hnext]
      rfl
  · have hfull : t = s + 2 ^ k := le_antisymm hi.room hge
    have hpow := Nat.two_pow_pos k
    obtain ⟨hk, b, hW⟩ := hfirst hfull
    -- the slot after the tail is that of the first entry
    have hget : h.get (BitVec.ofNat e.bits ((c + t) % 2 ^ k)) =
        some ⟨BitVec.ofNat e.bits (s * e.BLOCK_SIZE), W s⟩ := by
      rw [hi.get_slot, hfull, ← Nat.add_assoc, Nat.add_mod_right]
      exact hi.entries s le_rfl (by omega)
    have htaken : BlockIndexEntry.vacant ⟨BitVec.ofNat e.bits (s * e.BLOCK_SIZE), W s⟩ =
        some false := by
      rw [BlockIndexEntry.vacant, hW]
      exact if_neg (base_ne_invalid s)
    have hno : ¬ t < s + 2 ^ k := by omega
    cases mode with
    | cannotAlloc =>
        refine .inr ⟨by simp [canInsert, hno], st.mem.mallocs, ?_⟩
        simp only [insertBlockIndexEntry, hb, hnewTail, hget, htaken, bind_eq_bind,
          bind_some, Bool.false_eq_true, if_false]
    | canAlloc =>
        cases hm : e.mallocOk st.mem.mallocs with
        | false =>
            refine .inr ⟨by simp [canInsert, hno, hm], st.mem.mallocs + 1, ?_⟩
            simp only [insertBlockIndexEntry, hb, hnewTail, hget, htaken, bind_eq_bind,
              bind_some, Bool.false_eq_true, if_false, newBlockIndex_failed hm,
              Bool.not_false, if_true]
        | true =>
            obtain ⟨h', hnew, hi', hfresh⟩ := newBlockIndex_full hi hfull hu hk hb hnext hm
            have hdouble : 2 ^ (k + 1) = 2 ^ k + 2 ^ k := by omega
            have hnewTail' : (h'.tail + 1#e.bits) &&& (h'.capacity - 1#e.bits) =
                BitVec.ofNat e.bits (((2 ^ (k + 1) - 1) * s + t) % 2 ^ (k + 1)) := by
              rw [hi'.tail, hi'.capacity, slot_succ, Nat.add_assoc, hu]
            have hget' := (hi'.get_slot t).trans (hfresh t le_rfl (by omega))
            refine .inl ⟨by simp [canInsert, hm],
              pushKey e h' (BitVec.ofNat e.bits (((2 ^ (k + 1) - 1) * s + t) % 2 ^ (k + 1)))
                ⟨INVALID_BLOCK_BASE, none⟩ (BitVec.ofNat e.bits (t * e.BLOCK_SIZE))
                ⟨{ st.mem with mallocs := st.mem.mallocs + 1 },
                  withIndex st.prod h' (BitVec.ofNat e.bits (2 ^ (k + 1 + 1)))⟩, _, ?_,
              ⟨_, none, _, k + 1, Nat.le_succ k, rfl, rfl, hi'.push (by omega) none,
                .inr ⟨hfull, rfl, rfl⟩⟩⟩
            simp only [insertBlockIndexEntry, hb, hnewTail, hget, htaken, bind_eq_bind,
              bind_some, Bool.false_eq_true, if_false, hnew, Bool.not_true]
            simp only [withIndex, bind_some, hnewTail', hget', if_true]

end ConcurrentQueue.Implicit
