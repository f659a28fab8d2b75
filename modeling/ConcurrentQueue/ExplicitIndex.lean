import ConcurrentQueue.ExplicitRing

/-!
# ConcurrentQueue.ExplicitIndex

The circular block index. **The entry of block number `q` stands in slot
`(c + q) % 2^k`**, for one constant `c` and all `q` that have not been
overwritten since; `k` is the logarithm of the index's size. Doubling the index
compacts it, which is another choice of `c`. A lookup goes from the slot of the
newest block back by the difference of the block numbers, and so ends in the
right slot whatever the counters have wrapped to.
-/

namespace ConcurrentQueue.Explicit

open Function Wrap

variable {α : Type} (e : Env)

/-- The index of `p` holds the blocks `a ≤ q < t`, as far as its size reaches. -/
structure Index (p : ExplicitProducer e.bits) (h : BlockIndexHeader e.bits) (β : Nat → Nat)
    (a t c k : Nat) : Prop where
  header : p.blockIndex = some h
  klt : k < e.bits
  hsize : h.size = BitVec.ofNat e.bits (2 ^ k)
  size : p.prBlockIndexSize = BitVec.ofNat e.bits (2 ^ k)
  front : p.prBlockIndexFront = BitVec.ofNat e.bits ((c + t) % 2 ^ k)
  entries : ∀ q, a ≤ q → q < t → t ≤ q + 2 ^ k →
    h.entries ((c + q) % 2 ^ k) = some ⟨BitVec.ofNat e.bits (q * e.BLOCK_SIZE), β q⟩

variable {e} {p : ExplicitProducer e.bits} {h : BlockIndexHeader e.bits} {β : Nat → Nat}
  {a s t c k : Nat} {mem : Mem α}

namespace Index

theorem get (hi : Index e p h β a t c k) {q : Nat} (ha : a ≤ q) (hq : q < t)
    (hlap : t ≤ q + 2 ^ k) :
    h.get (BitVec.ofNat e.bits ((c + q) % 2 ^ k)) =
      some ⟨BitVec.ofNat e.bits (q * e.BLOCK_SIZE), β q⟩ := by
  rw [BlockIndexHeader.get, hi.hsize, if_pos (slot_lt_size hi.klt), toNat_slot hi.klt.le]
  exact hi.entries q ha hq hlap

/-- The index does not depend on the producer's other fields. -/
theorem congr (hi : Index e p h β a t c k) {p' : ExplicitProducer e.bits}
    (hb : p'.blockIndex = p.blockIndex) (hs : p'.prBlockIndexSize = p.prBlockIndexSize)
    (hf : p'.prBlockIndexFront = p.prBlockIndexFront) : Index e p' h β a t c k :=
  ⟨hb.trans hi.header, hi.klt, hi.hsize, hs.trans hi.size, hf.trans hi.front, hi.entries⟩

/-- Less may be said of the index. -/
theorem mono (hi : Index e p h β a t c k) {a' : Nat} (ha : a ≤ a') {β' : Nat → Nat}
    (hβ : ∀ q, a' ≤ q → q < t → β' q = β q) : Index e p h β' a' t c k :=
  { hi with
    entries := fun q hq ht hlap => by
      rw [hβ q hq ht]
      exact hi.entries q (ha.trans hq) ht hlap }

/-- Writing the entry of the next block overwrites the one a full lap back. -/
theorem pushEntry (hi : Index e p h β a t c k) {b : Nat} (hb : p.tailBlock = some b) :
    ∃ h', h'.front = h.front ∧
      (∀ mem : Mem α, pushEntry e (BitVec.ofNat e.bits (t * e.BLOCK_SIZE)) ⟨mem, p⟩ =
        some ⟨mem, { p with
          blockIndex := some h'
          prBlockIndexFront := BitVec.ofNat e.bits ((c + (t + 1)) % 2 ^ k) }⟩) ∧
      Index e { p with
        blockIndex := some h'
        prBlockIndexFront := BitVec.ofNat e.bits ((c + (t + 1)) % 2 ^ k) } h'
        (update β t b) a (t + 1) c k := by
  let entry : BlockIndexEntry e.bits := ⟨BitVec.ofNat e.bits (t * e.BLOCK_SIZE), b⟩
  refine ⟨{ h with entries := update h.entries ((c + t) % 2 ^ k) (some entry) }, rfl,
    ?_, ?_⟩
  · intro mem
    have hset : h.set (BitVec.ofNat e.bits ((c + t) % 2 ^ k)) entry = some
        { h with entries := update h.entries ((c + t) % 2 ^ k) (some entry) } := by
      rw [BlockIndexHeader.set, hi.hsize, if_pos (slot_lt_size hi.klt), toNat_slot hi.klt.le]
    have hsucc := slot_succ (w := e.bits) (a := c + t) (k := k)
    simp only [Explicit.pushEntry, hi.header, hb, hi.front, hi.size, Option.bind_eq_bind,
      Option.bind_some]
    rw [hset, hsucc]
    rfl
  · refine ⟨rfl, hi.klt, hi.hsize, hi.size, rfl, fun q ha hq hlap => ?_⟩
    rcases Nat.lt_succ_iff_lt_or_eq.mp hq with hlt | rfl
    · show update h.entries _ _ ((c + q) % 2 ^ k) = _
      rw [update_of_ne (mod_ne hlt (by omega)), update_of_ne (by omega)]
      exact hi.entries q ha hlt (by omega)
    · show update h.entries _ _ ((c + q) % 2 ^ k) = _
      rw [update_self, update_self]

/-- **Lookup.** From the slot of the newest block, the signed block distance
leads to the slot of the block of index `n`. -/
theorem indexIndex (hi : Index e p h β a t c k) (hB : e.BLOCK_SIZE < 2 ^ (e.bits - 1))
    (hfront : h.front = BitVec.ofNat e.bits ((c + (t - 1)) % 2 ^ k)) {n : Nat} (hat : a < t)
    (hq : n / e.BLOCK_SIZE < t)
    (hd : (t - 1 - n / e.BLOCK_SIZE) * e.BLOCK_SIZE ≤ 2 ^ (e.bits - 1)) :
    indexIndex e h (BitVec.ofNat e.bits n) =
      some (BitVec.ofNat e.bits ((c + n / e.BLOCK_SIZE) % 2 ^ k)) := by
  have hpow := Nat.two_pow_pos k
  have hhead := hi.get (q := t - 1) (by omega) (by omega) (by omega)
  have hlog : e.blockLog + 1 < e.bits := by
    have := (Nat.pow_lt_pow_iff_right (by omega : 1 < 2)).mp hB
    omega
  have hdiv : (BitVec.ofNat e.bits (n / e.BLOCK_SIZE * e.BLOCK_SIZE) -
      BitVec.ofNat e.bits ((t - 1) * e.BLOCK_SIZE)).sdiv e.blockSize =
        BitVec.ofNat e.bits (n / e.BLOCK_SIZE) - BitVec.ofNat e.bits (t - 1) :=
    sdiv_blocks hlog (by omega) hd
  simp only [Explicit.indexIndex, hfront, hhead, Option.bind_eq_bind, Option.bind_some,
    Traits.blockBase_ofNat, hdiv, hi.hsize, size_sub_one, Option.some.injEq]
  refine and_low_of_add_eq hi.klt.le (b := t - 1) (n := (c + (t - 1)) % 2 ^ k + n / e.BLOCK_SIZE)
    ?_ ?_
  · rw [BitVec.add_assoc, BitVec.sub_add_cancel, BitVec.ofNat_add_ofNat]
  · rw [Nat.mod_add_mod, Nat.add_right_comm]

end Index

/-! ### A larger index -/

/-- The copy loop, from the entry of block `s + j` on. -/
theorem copyEntries_spec (hi : Index e p h β a t c k) (hs : a ≤ s) (hlap : t ≤ s + 2 ^ k)
    (fuel : Nat) {j : Nat} (hj : s + j < t) (hfuel : t ≤ s + j + fuel)
    (new : Nat → Option (BlockIndexEntry e.bits)) :
    ∃ new', copyEntries h (BitVec.ofNat e.bits (2 ^ k) - 1#e.bits)
        (BitVec.ofNat e.bits ((c + t) % 2 ^ k)) fuel
        (BitVec.ofNat e.bits ((c + (s + j)) % 2 ^ k)) j new = some (t - s, new') ∧
      (∀ i < j, new' i = new i) ∧
      ∀ i, j ≤ i → s + i < t →
        new' i = some ⟨BitVec.ofNat e.bits ((s + i) * e.BLOCK_SIZE), β (s + i)⟩ := by
  induction fuel generalizing j new with
  | zero => omega
  | succ fuel ih =>
      have hget := hi.get (q := s + j) (by omega) hj (by omega)
      have hnext : (BitVec.ofNat e.bits ((c + (s + j)) % 2 ^ k) + 1#e.bits) &&&
          (BitVec.ofNat e.bits (2 ^ k) - 1#e.bits) =
            BitVec.ofNat e.bits ((c + (s + (j + 1))) % 2 ^ k) := slot_succ
      simp only [copyEntries, hget, Option.bind_eq_bind, Option.bind_some, hnext]
      by_cases hlast : s + (j + 1) = t
      · -- the slot after the last entry is the front
        rw [hlast, if_pos rfl]
        refine ⟨_, by rw [show j + 1 = t - s by omega], fun i hij => ?_, fun i hij hit => ?_⟩
        · exact update_of_ne (by omega) ..
        · obtain rfl : i = j := by omega
          exact update_self ..
      · have hne : BitVec.ofNat e.bits ((c + (s + (j + 1))) % 2 ^ k) ≠
            BitVec.ofNat e.bits ((c + t) % 2 ^ k) := by
          intro heq
          have hnat := congrArg BitVec.toNat heq
          rw [toNat_slot hi.klt.le, toNat_slot hi.klt.le] at hnat
          exact mod_ne (by omega) (by omega) hnat
        rw [if_neg hne]
        obtain ⟨new', hcopy, hlow, hhigh⟩ := ih (j := j + 1) (by omega) (by omega)
          (update new j (some ⟨BitVec.ofNat e.bits ((s + j) * e.BLOCK_SIZE), β (s + j)⟩))
        refine ⟨new', hcopy, fun i hij => ?_, fun i hij hit => ?_⟩
        · rw [hlow i (by omega)]
          exact update_of_ne (by omega) ..
        · by_cases hi' : i = j
          · subst hi'
            rw [hlow i (by omega)]
            exact update_self ..
          · exact hhigh i (by omega) hit

/-- What `new_block_index` does when memory is available: the blocks `s` to `t`
are in an index of twice the size. -/
theorem newBlockIndex_ok (hk : k + 1 < e.bits)
    (hsize : p.prBlockIndexSize = BitVec.ofNat e.bits (2 ^ k)) (hst : s ≤ t)
    (hslots : p.prBlockIndexSlotsUsed = BitVec.ofNat e.bits (t - s)) (hroom : t ≤ s + 2 ^ k)
    (hold : s = t ∨ ∃ h a c, Index e p h β a t c k ∧ a ≤ s)
    (hm : e.mallocOk mem.mallocs = true) (expose : BitVec e.bits) :
    ∃ h', h'.front = expose - 1#e.bits ∧
      newBlockIndex e expose (⟨mem, p⟩ : State e.bits α) = some
        (⟨{ mem with mallocs := mem.mallocs + 1 }, { p with
          prBlockIndexSize := BitVec.ofNat e.bits (2 ^ (k + 1))
          prBlockIndexFront := BitVec.ofNat e.bits (t - s)
          blockIndex := some h' }⟩, true) ∧
      Index e { p with
          prBlockIndexSize := BitVec.ofNat e.bits (2 ^ (k + 1))
          prBlockIndexFront := BitVec.ofNat e.bits (t - s)
          blockIndex := some h' } h' β s t ((2 ^ (k + 1) - 1) * s) (k + 1) := by
  have hS := Nat.two_pow_pos (k + 1)
  have hdouble : 2 ^ (k + 1) = 2 ^ k + 2 ^ k := by omega
  have hpow := Nat.two_pow_pos k
  have hlt : 2 ^ (k + 1) < 2 ^ e.bits := Nat.pow_lt_pow_right (by omega) hk
  have hcopy : ∃ new, compactEntries e p = some (t - s, new) ∧
      ∀ i, s + i < t →
        new i = some ⟨BitVec.ofNat e.bits ((s + i) * e.BLOCK_SIZE), β (s + i)⟩ := by
    by_cases h0 : s = t
    · subst h0
      refine ⟨fun _ => none, ?_, fun i hi => by omega⟩
      rw [compactEntries, hslots, Nat.sub_self, if_pos rfl]
    · obtain ⟨h, a, c, hi, has⟩ := hold.resolve_left h0
      have hne : p.prBlockIndexSlotsUsed ≠ 0#e.bits := by
        rw [hslots]
        intro heq
        have hnat := congrArg BitVec.toNat heq
        rw [BitVec.toNat_ofNat, Nat.mod_eq_of_lt (by omega)] at hnat
        simp at hnat
        omega
      have hstart : (p.prBlockIndexFront - p.prBlockIndexSlotsUsed) &&&
          (p.prBlockIndexSize - 1#e.bits) = BitVec.ofNat e.bits ((c + (s + 0)) % 2 ^ k) := by
        rw [hi.front, hslots, hi.size, show c + t = c + s + (t - s) by omega]
        exact slot_sub hi.klt.le
      obtain ⟨new, hnew, -, hentries⟩ := copyEntries_spec hi has hroom (2 ^ e.bits)
        (j := 0) (by omega) (by omega) fun _ => none
      refine ⟨new, ?_, fun i hit => hentries i (by omega) hit⟩
      simp only [compactEntries, if_neg hne, Option.bind_eq_bind, hi.header, Option.bind_some,
        hstart]
      rw [hi.size, hi.front]
      exact hnew
  obtain ⟨new, hnew, hentries⟩ := hcopy
  refine ⟨⟨BitVec.ofNat e.bits (2 ^ (k + 1)), expose - 1#e.bits, new⟩, rfl, ?_, ?_⟩
  · simp only [newBlockIndex, Mem.malloc, hm, Option.bind_eq_bind, hnew, Option.bind_some, hsize,
      size_double]
  · refine ⟨rfl, hk, rfl, rfl, ?_, fun q hsq hqt hlap => ?_⟩
    · show BitVec.ofNat e.bits (t - s) = _
      rw [compact_slot hS hst (by omega)]
    · show new _ = _
      rw [compact_slot hS hsq (by omega), hentries (q - s) (by omega),
        show s + (q - s) = q by omega]

/-- A failed `new_block_index` only counts the attempt. -/
theorem newBlockIndex_failed (hk : k + 1 < e.bits)
    (hsize : p.prBlockIndexSize = BitVec.ofNat e.bits (2 ^ k))
    (hm : e.mallocOk mem.mallocs = false) (expose : BitVec e.bits) :
    newBlockIndex e expose (⟨mem, p⟩ : State e.bits α) =
      some (⟨{ mem with mallocs := mem.mallocs + 1 }, p⟩, false) := by
  have hback : (p.prBlockIndexSize <<< 1) >>> 1 = p.prBlockIndexSize := by
    rw [hsize, size_double]
    apply BitVec.eq_of_toNat_eq
    rw [BitVec.toNat_ushiftRight, BitVec.toNat_ofNat, BitVec.toNat_ofNat,
      Nat.mod_eq_of_lt (Nat.pow_lt_pow_right (by omega) hk),
      Nat.mod_eq_of_lt (Nat.pow_lt_pow_right (by omega) (by omega)), Nat.shiftRight_eq_div_pow,
      pow_one, pow_succ, Nat.mul_div_cancel _ (by omega)]
  simp only [newBlockIndex, Mem.malloc, hm, hback]

end ConcurrentQueue.Explicit
