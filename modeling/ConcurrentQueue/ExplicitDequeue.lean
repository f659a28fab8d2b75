import ConcurrentQueue.ExplicitBulk
import ConcurrentQueue.Fifo
import ConcurrentQueue.Ledger

/-!
# ConcurrentQueue.ExplicitDequeue

`dequeue` and `dequeue_bulk` take elements from the front. Run alone, a call
finds `dequeueOptimisticCount - dequeueOvercommit` equal to the head, so it
claims what it asks for; **the block index leads it to the block of the head**,
and from there slot by slot to the blocks that follow. An assignment that throws
loses the elements that the call had claimed, and nothing else.
-/

namespace ConcurrentQueue.Explicit

open Wrap

variable {α : Type} {e : Env} {st : State e.bits α} {v : View} {l : List α}

/-! ### Finding the block -/

section Lookup

variable (h : Inv e st v l) {n : Nat} (hs : v.s ≤ n / e.BLOCK_SIZE) (ht : n / e.BLOCK_SIZE < v.t)
include h hs ht

theorem Inv.indexIndex : ∃ hdr, st.prod.blockIndex = some hdr ∧
    Index e st.prod hdr v.β v.s v.t v.c v.k ∧
    indexIndex e hdr (BitVec.ofNat e.bits n) =
      some (BitVec.ofNat e.bits ((v.c + n / e.BLOCK_SIZE) % 2 ^ v.k)) := by
  have hst : v.s < v.t := by omega
  obtain ⟨hdr, hheader, hfront⟩ := h.exposed hst
  obtain ⟨hdr', hindex⟩ := h.index.index.resolve_left fun hnone => hst.ne hnone.2.1
  obtain rfl : hdr' = hdr := Option.some.inj (hindex.header.symm.trans hheader)
  refine ⟨hdr', hheader, hindex, hindex.indexIndex (h.small hst) hfront hst ht ?_⟩
  exact (Nat.mul_le_mul_right _ (by omega)).trans h.bound

/-- **Lookup**: a consumer of index `n` finds the block that holds it. -/
theorem Inv.lookup : lookup e st.prod (BitVec.ofNat e.bits n) = some (v.β (n / e.BLOCK_SIZE)) := by
  obtain ⟨hdr, hheader, hindex, hslot⟩ := h.indexIndex hs ht
  have hroom := h.index.room
  have hget := hindex.get hs ht (by omega)
  simp only [Explicit.lookup, hheader, hslot, hget, Option.bind_eq_bind, Option.bind_some]

end Lookup

/-- Indices of the queue are in blocks of the ring. -/
theorem Inv.block_of_live (h : Inv e st v l) {n : Nat} (hlo : v.head ≤ n) (hhi : n < v.tail) :
    v.s ≤ n / e.BLOCK_SIZE ∧ n / e.BLOCK_SIZE < v.t := by
  have hold := h.oldest
  have hnew := h.newest.1
  refine ⟨(Nat.le_div_iff_mul_le e.BLOCK_SIZE_pos).mpr (by omega), ?_⟩
  exact Nat.div_lt_of_lt_mul (by rw [Nat.mul_comm]; omega)

theorem Inv.length_le (h : Inv e st v l) : l.length ≤ 2 ^ (e.bits - 1) := by
  have hwin := h.window
  have hlen := h.len
  have hnew := h.newest.1
  omega

/-- The test that there is something to dequeue. -/
theorem Inv.nonempty_iff (h : Inv e st v l) :
    circularLessThan (st.prod.dequeueOptimisticCount - st.prod.dequeueOvercommit)
      st.prod.tailIndex = true ↔ 0 < l.length ∧ l.length < 2 ^ (e.bits - 1) := by
  have hlen := h.len
  have hle := h.length_le
  have hhalf := e.two_pow_bits
  have hpos := Nat.two_pow_pos (e.bits - 1)
  rw [h.optimistic, h.headIndex, h.tailIndex,
    circularLessThan_ofNat e.bits_pos (by omega) (by omega)]
  omega

/-! ### One element -/

/-- The state after `n` elements have been taken from the front. -/
theorem Inv.advance (h : Inv e st v l) {n : Nat} (hn : n ≤ l.length) {mem' : Mem α}
    (hring : Ring e mem' v.β v.s v.t (slotAt (v.head + n) (l.drop n))
      (marked e.BLOCK_SIZE (v.head + n))) {p : ExplicitProducer e.bits}
    (hp : p = { st.prod with
      headIndex := st.prod.headIndex + BitVec.ofNat e.bits n
      dequeueOptimisticCount := st.prod.dequeueOptimisticCount + BitVec.ofNat e.bits n }) :
    Inv e ⟨mem', p⟩ { v with head := v.head + n } (l.drop n) := by
  subst hp
  have hlen := h.len
  refine { h with
    ring := hring
    index := h.index.congr rfl rfl rfl rfl
    exposed := h.exposed
    headIndex := ?_
    optimistic := ?_
    len := ?_
    oldest := h.oldest.trans (Nat.le_add_right ..) }
  · show st.prod.headIndex + BitVec.ofNat e.bits n = _
    rw [h.headIndex, BitVec.ofNat_add_ofNat]
  · show st.prod.dequeueOptimisticCount + BitVec.ofNat e.bits n - st.prod.dequeueOvercommit = _
    rw [← h.optimistic]
    simp only [BitVec.sub_eq_add_neg]
    rw [BitVec.add_assoc, BitVec.add_assoc, BitVec.add_comm (BitVec.ofNat e.bits n)]
  · show v.head + n + (l.drop n).length = v.tail
    rw [List.length_drop]
    omega

/-- **Dequeue**: the first element, if there is one. Its assignment may throw, which makes no
difference to the state. -/
theorem Inv.dequeue (h : Inv e st v l) :
    ∃ st' v', (∀ throws, dequeue e throws st =
        some (st', .ofList (if throws then some 0 else none) (takes e.bits 1 l) l)) ∧
      Inv e st' v' (l.drop (takes e.bits 1 l)) ∧
      v' = { v with head := v.head + takes e.bits 1 l } ∧
      Within e (ConcurrentQueue.window v.β v.s v.t) st.mem st'.mem := by
  by_cases hne : 0 < l.length ∧ l.length < 2 ^ (e.bits - 1)
  · have htakes : takes e.bits 1 l = 1 := by
      rw [takes_of_lt hne.2]
      omega
    rw [htakes]
    obtain ⟨x, l, rfl⟩ := List.exists_cons_of_length_pos hne.1
    have hlen := h.len
    rw [List.length_cons] at hlen
    obtain ⟨hs, ht⟩ := h.block_of_live le_rfl (by omega)
    have hadd := block_add e.BLOCK_SIZE v.head
    have hmod := Nat.mod_lt v.head e.BLOCK_SIZE_pos
    obtain ⟨b, hdes, hring₁, -, -⟩ := h.ring.destroyAt hs ht (slotAt_head x)
    obtain ⟨b', full, hset, hring₂, -⟩ := hring₁.setEmpty hs ht (i := BitVec.ofNat e.bits v.head)
      (by rw [Traits.offset_ofNat]; exact marked_eq_mod (by omega) (by omega))
      (by rw [← marked_eq_mod (by omega) (by omega)]; exact hmod)
    have hwithin := (Within.destroyAt (mem_window hs ht) hdes).trans
      (Within.setEmpty (mem_window hs ht) hset)
    rw [Mem.blocks_setBlock, Function.update_self] at hset
    rw [Mem.setBlock_setBlock] at hwithin
    rw [Mem.setBlock_setBlock, update_slotAt_tail, update_marked (by omega) (by omega)] at hring₂
    have hmore := h.nonempty_iff.mpr hne
    have hlookup : Explicit.lookup e { st.prod with
        headIndex := st.prod.headIndex + 1#e.bits
        dequeueOptimisticCount := st.prod.dequeueOptimisticCount + 1#e.bits } st.prod.headIndex =
          some (v.β (v.head / e.BLOCK_SIZE)) := by
      rw [h.headIndex]
      exact h.lookup hs ht
    rw [← h.headIndex] at hdes hset
    refine ⟨_, { v with head := v.head + 1 }, fun throws => ?_,
      h.advance (n := 1) hne.1 hring₂ rfl, rfl, hwithin⟩
    simp only [Explicit.dequeue, hmore, if_true, hlookup, hdes, hset, Option.bind_eq_bind,
      Option.bind_some]
    cases throws <;> rfl
  · have htakes : takes e.bits 1 l = 0 := by
      unfold takes
      split <;> omega
    rw [htakes]
    refine ⟨st, v, fun throws => ?_, h, rfl, .refl⟩
    simp only [Explicit.dequeue, if_neg (mt h.nonempty_iff.mp hne)]
    cases throws <;> rfl

/-! ### Several elements -/

section Loops

variable {p : ExplicitProducer e.bits} {hdr : BlockIndexHeader e.bits} {β : Nat → Nat}
  {s t c k : Nat}

/-- Marking the slots from `first` up to `stop` in block `q`. -/
theorem Ring.markMany {mem : Mem α} {f : Nat → Option α} {q first stop : Nat}
    (h : Ring e mem β s t f (marked e.BLOCK_SIZE first)) (hs : s ≤ q) (ht : q < t)
    (hlo : q * e.BLOCK_SIZE ≤ first) (hfirst : first < q * e.BLOCK_SIZE + e.BLOCK_SIZE)
    (hle : first ≤ stop) (hhi : stop ≤ q * e.BLOCK_SIZE + e.BLOCK_SIZE) :
    ∃ mem', markMany e (β q) (BitVec.ofNat e.bits first) (BitVec.ofNat e.bits stop) mem =
        some mem' ∧ Ring e mem' β s t f (marked e.BLOCK_SIZE stop) ∧
      Within e (window β s t) mem mem' := by
  obtain ⟨n, rfl⟩ := Nat.exists_eq_add_of_le hle
  have hmark := marked_eq_mod hlo hfirst
  have hmod := Nat.mod_lt first e.BLOCK_SIZE_pos
  have hBlt := e.BLOCK_SIZE_lt
  have hval : marked e.BLOCK_SIZE first q = first - q * e.BLOCK_SIZE := by
    unfold marked
    omega
  obtain ⟨b, full, hset, hring, -⟩ := h.setManyEmpty n hs ht
    (i := BitVec.ofNat e.bits first) (by rw [Traits.offset_ofNat, hmark]) (by omega)
  rw [update_marked hlo hhi] at hring
  refine ⟨_, ?_, hring, .setManyEmpty (mem_window hs ht) hset⟩
  rw [Explicit.markMany, toNat_ofNat_sub (by omega) (by omega), Nat.add_sub_cancel_left, hset]
  rfl

/-- The loop over the blocks up to `last`. -/
theorem Ring.drainBlocks (fuel : Nat) (hindex : Index e p hdr β s t c k) (hroom : t ≤ s + 2 ^ k)
    (hB : e.BLOCK_SIZE < 2 ^ (e.bits - 1)) (hspan : (t - s) * e.BLOCK_SIZE ≤ 2 ^ (e.bits - 1))
    {last : Nat} (hlast : last ≤ t * e.BLOCK_SIZE) {i : Nat} {l : List α} {mem : Mem α}
    (h : Ring e mem β s t (slotAt i l) (marked e.BLOCK_SIZE i)) (hs : s ≤ i / e.BLOCK_SIZE)
    (ht : i / e.BLOCK_SIZE < t) (hi : i ≤ last) (hl : last ≤ i + l.length)
    (hfuel : t ≤ i / e.BLOCK_SIZE + fuel) :
    ∃ mem', (walk e hdr).drainBlocks none (BitVec.ofNat e.bits last) fuel
        (BitVec.ofNat e.bits ((c + i / e.BLOCK_SIZE) % 2 ^ k)) (BitVec.ofNat e.bits i) 0 mem =
        some (l.take (last - i), mem', false) ∧
      Ring e mem' β s t (slotAt last (l.drop (last - i))) (marked e.BLOCK_SIZE last) ∧
      Within e (window β s t) mem mem' := by
  refine drainBlocks_of_round (P := fun _ i l mem' =>
      Ring e mem' β s t (slotAt i l) (marked e.BLOCK_SIZE i) ∧ Within e (window β s t) mem mem')
    hB hspan hlast (fun q => BitVec.ofNat e.bits ((c + q) % 2 ^ k)) ?round (fun _ _ => ?next) fuel
    ⟨h, .refl⟩ hs ht rfl hi hl hfuel
  case round =>
      rintro q i n l mem₀ ⟨h₀, hwithin₀⟩ hs ht hlo hlt hhi hl
      obtain ⟨mem₁, hdes, h₁⟩ := h₀.destroyFront hs ht hlo hhi hl
      have hwithin₁ := Within.of_onlyElements (mem_window hs ht) (.destroyRange hdes)
      obtain ⟨mem₂, hmark, h₂, hwithin₂⟩ :=
        Ring.markMany h₁ hs ht hlo hlt (Nat.le_add_right i n) hhi
      refine ⟨β q, mem₁, mem₂, ?_, hdes, hmark, h₂, (hwithin₀.trans hwithin₁).trans hwithin₂⟩
      exact congrArg (Option.map _) (hindex.get hs ht (by omega))
  case next =>
      exact congrArg some (by rw [hindex.hsize, slot_succ, Nat.add_assoc])

end Loops

/-- The number of elements there seem to be. -/
theorem Inv.desiredCount (h : Inv e st v l) :
    st.prod.tailIndex - (st.prod.dequeueOptimisticCount - st.prod.dequeueOvercommit) =
      BitVec.ofNat e.bits l.length := by
  have hlen := h.len
  rw [h.optimistic, h.headIndex, h.tailIndex, ofNat_sub (by omega)]
  congr 1
  omega

/-- **Bulk dequeue**: the first elements, as many as there are and are wanted. Any of their
assignments may throw, which makes no difference to the state. -/
theorem Inv.dequeueBulk (h : Inv e st v l) (max : BitVec e.bits) :
    ∃ st' v', (∀ throwsAt, dequeueBulk e max throwsAt st =
        some (st', .ofList throwsAt (takes e.bits max.toNat l) l)) ∧
      Inv e st' v' (l.drop (takes e.bits max.toNat l)) ∧
      v' = { v with head := v.head + takes e.bits max.toNat l } ∧
      Within e (ConcurrentQueue.window v.β v.s v.t) st.mem st'.mem := by
  have hcount := h.desiredCount
  have hle := h.length_le
  by_cases hne : 0 < l.length ∧ l.length < 2 ^ (e.bits - 1)
  · have hhalf := e.two_pow_bits
    have hlen := h.len
    obtain ⟨n, hn⟩ : ∃ n, min max.toNat l.length = n := ⟨_, rfl⟩
    have hmore := (positive_iff hle).mpr hne
    have hdesired := min_ofNat (show l.length < 2 ^ e.bits by omega) max
    have hactual := min_ofNat (show n < 2 ^ e.bits by omega) (BitVec.ofNat e.bits l.length)
    rw [BitVec.toNat_ofNat, Nat.mod_eq_of_lt (by omega), Nat.min_eq_right (by omega)] at hactual
    rw [hn] at hdesired
    obtain ⟨hs, ht⟩ := h.block_of_live le_rfl (by omega)
    obtain ⟨hdr, hheader, hindex, hslot⟩ := h.indexIndex hs ht
    have hst : v.s < v.t := by omega
    have hspan : v.t - v.s ≤ (v.t - v.s) * e.BLOCK_SIZE :=
      Nat.le_mul_of_pos_right _ e.BLOCK_SIZE_pos
    have hbound := h.bound
    have hnew := h.newest.1
    have hsub : v.head + n - v.head = n := Nat.add_sub_cancel_left ..
    obtain ⟨mem', hdrain, hring, hwithin⟩ := Ring.drainBlocks (2 ^ e.bits) hindex
      h.index.room (h.small hst) h.bound (show v.head + n ≤ v.t * e.BLOCK_SIZE by omega) h.ring hs
      ht (by omega) (by omega) (by omega)
    rw [hsub] at hdrain hring
    rw [takes_of_lt hne.2, hn]
    refine ⟨_, { v with head := v.head + n }, fun throwsAt => ?_, h.advance (by omega) hring rfl,
      rfl, hwithin⟩
    obtain ⟨ys, threw, hthrow, hout⟩ := Walk.drainBlocks_popped hdrain throwsAt
    rw [List.length_take, Nat.min_eq_left (by omega), Popped.ofList_take] at hout
    simp only [Explicit.dequeueBulk, dequeueBulkOn, Walk.drainBlocksUntil_wraps]
    simp only [hcount, hmore, if_true, hdesired, hactual, BitVec.lt_irrefl, if_false, hheader,
      Option.bind_eq_bind, Option.bind_some, h.headIndex, hslot, BitVec.ofNat_add_ofNat, hthrow,
      hout, BitVec.toNat_ofNat, Nat.mod_eq_of_lt (show n < 2 ^ e.bits by omega)]
  · have htakes : takes e.bits max.toNat l = 0 := by
      unfold takes
      split <;> omega
    rw [htakes]
    refine ⟨st, v, fun throwsAt => ?_, h, rfl, .refl⟩
    simp only [Explicit.dequeueBulk, dequeueBulkOn, hcount, if_neg (mt (positive_iff hle).mp hne)]
    rw [Popped.ofList_quiet fun j hj => absurd hj (Nat.not_lt_zero j), List.take_zero]

end ConcurrentQueue.Explicit
