import ConcurrentQueue.ExplicitDequeue

/-!
# ConcurrentQueue.ExplicitDestroy

The destructor of an explicit producer destroys **exactly the elements that are
left**, in order: it skips the blocks that are marked empty, finds out from the
block index in which block the head is, and walks the others to their end or up
to the tail. The blocks then go back to the free list.
-/

namespace ConcurrentQueue.Explicit

open Wrap
open Option (bind_eq_bind bind_some)

variable {α : Type} {e : Env} {st : State e.bits α} {v : View} {l : List α}

/-! ### The block that is partially dequeued -/

theorem Index.findHalfDequeued {p : ExplicitProducer e.bits} {hdr : BlockIndexHeader e.bits}
    {β : Nat → Nat} {s t c k head : Nat} (hi : Index e p hdr β s t c k) (hroom : t ≤ s + 2 ^ k)
    (hB : e.BLOCK_SIZE < 2 ^ (e.bits - 1)) (hspan : (t - s) * e.BLOCK_SIZE ≤ 2 ^ (e.bits - 1))
    (hne : head % e.BLOCK_SIZE ≠ 0) (hlt : head / e.BLOCK_SIZE < t) (fuel : Nat) {q : Nat}
    (hs : s ≤ q) (hq : q ≤ head / e.BLOCK_SIZE) (hfuel : t ≤ q + fuel) :
    findHalfDequeued e hdr (BitVec.ofNat e.bits (2 ^ k) - 1#e.bits) (BitVec.ofNat e.bits head) fuel
      (BitVec.ofNat e.bits ((c + q) % 2 ^ k)) = some (β (head / e.BLOCK_SIZE)) := by
  induction fuel generalizing q with
  | zero => omega
  | succ fuel ih =>
      have hadd := block_add e.BLOCK_SIZE head
      have hmod := Nat.mod_lt head e.BLOCK_SIZE_pos
      have hhalf := e.two_pow_bits
      have htop : head / e.BLOCK_SIZE * e.BLOCK_SIZE + e.BLOCK_SIZE ≤ t * e.BLOCK_SIZE :=
        block_le hlt
      have hsq : s * e.BLOCK_SIZE ≤ q * e.BLOCK_SIZE := Nat.mul_le_mul_right _ hs
      rw [Nat.sub_mul] at hspan
      have hget := hi.get hs (by omega) (by omega)
      have hbase : BitVec.ofNat e.bits (q * e.BLOCK_SIZE) + e.blockSize =
          BitVec.ofNat e.bits (q * e.BLOCK_SIZE + e.BLOCK_SIZE) := BitVec.ofNat_add_ofNat ..
      simp only [Explicit.findHalfDequeued, hget, bind_eq_bind, bind_some, hbase]
      by_cases heq : q = head / e.BLOCK_SIZE
      · rw [← heq] at hadd ⊢
        have hstop : circularLessThan (BitVec.ofNat e.bits (q * e.BLOCK_SIZE + e.BLOCK_SIZE))
            (BitVec.ofNat e.bits head) = false :=
          circularLessThan_ofNat_of_le e.bits_pos (by omega) (by omega)
        have hassert : circularLessThan (BitVec.ofNat e.bits (q * e.BLOCK_SIZE))
            (BitVec.ofNat e.bits head) = true :=
          (circularLessThan_ofNat e.bits_pos (by omega) (by omega)).mpr (by omega)
        simp only [hstop, hassert, Bool.false_eq_true, if_false, if_true]
      · have hle : q * e.BLOCK_SIZE + e.BLOCK_SIZE ≤ head / e.BLOCK_SIZE * e.BLOCK_SIZE :=
          block_le (by omega)
        have hgo : circularLessThan (BitVec.ofNat e.bits (q * e.BLOCK_SIZE + e.BLOCK_SIZE))
            (BitVec.ofNat e.bits head) = true :=
          (circularLessThan_ofNat e.bits_pos (by omega) (by omega)).mpr (by omega)
        rw [if_pos hgo, slot_succ]
        exact ih (q := q + 1) (by omega) (by omega) (by omega)

/-- A head that is not at a boundary is in a block of the ring. -/
theorem Inv.head_block (h : Inv e st v l) (hne : v.head % e.BLOCK_SIZE ≠ 0) :
    v.s ≤ v.head / e.BLOCK_SIZE ∧ v.head / e.BLOCK_SIZE < v.t := by
  refine ⟨(Nat.le_div_iff_mul_le e.BLOCK_SIZE_pos).mpr h.oldest, Nat.div_lt_of_lt_mul ?_⟩
  rw [Nat.mul_comm]
  refine lt_of_le_of_ne h.head_le fun heq => hne ?_
  rw [heq, Nat.mul_mod_left]

/-- The block of the head, unless the head is at a boundary. -/
theorem Inv.halfDequeued (h : Inv e st v l) (hst : v.s < v.t) :
    halfDequeued e st.prod = some (if v.head % e.BLOCK_SIZE = 0 then none
      else some (v.β (v.head / e.BLOCK_SIZE))) := by
  obtain ⟨hdr, hindex⟩ := h.index.index.resolve_left fun hnone => hst.ne hnone.2.1
  unfold Explicit.halfDequeued
  have hmask : st.prod.headIndex &&& e.blockMask = 0 ↔ v.head % e.BLOCK_SIZE = 0 := by
    rw [h.headIndex]
    exact e.and_blockMask_eq_zero v.head
  by_cases hal : v.head % e.BLOCK_SIZE = 0
  · rw [if_pos (hmask.mpr hal), if_pos hal]
  · obtain ⟨hs, hlt⟩ := h.head_block hal
    have hstart : (st.prod.prBlockIndexFront - st.prod.prBlockIndexSlotsUsed) &&&
        (st.prod.prBlockIndexSize - 1#e.bits) = BitVec.ofNat e.bits ((v.c + v.s) % 2 ^ v.k) := by
      rw [hindex.front, h.index.slots, hindex.size,
        show v.c + v.t = v.c + v.s + (v.t - v.s) by omega]
      exact slot_sub hindex.klt.le
    have hspan : v.t - v.s ≤ (v.t - v.s) * e.BLOCK_SIZE :=
      Nat.le_mul_of_pos_right _ e.BLOCK_SIZE_pos
    have hbound := h.bound
    have hhalf := e.two_pow_bits
    rw [if_neg (mt hmask.mp hal), if_neg hal, hindex.header]
    simp only [bind_eq_bind, bind_some, hstart]
    rw [hindex.size, h.headIndex, hindex.findHalfDequeued h.index.room (h.small hst) h.bound hal
      hlt (2 ^ e.bits) le_rfl hs (by omega), bind_some]

/-! ### Destroying the elements -/

/-- The walk through block `q` from offset `i` on destroys the objects `xs`. -/
theorem Ring.destroyOffsets {β : Nat → Nat} {s t : Nat} {g : Nat → Nat} {q stop : Nat}
    (hs : s ≤ q) (ht : q < t) (fuel : Nat) {i : Nat} (xs : List α) {f : Nat → Option α}
    {mem : Mem α} (h : Ring e mem β s t f g) (hle : i + xs.length ≤ e.BLOCK_SIZE)
    (hstop : i + xs.length = stop)
    (hf : ∀ j < xs.length, f (q * e.BLOCK_SIZE + i + j) = xs[j]?) (hfuel : xs.length < fuel) :
    ∃ mem', destroyOffsets e (β q) stop fuel i mem = some (xs, mem') ∧
      Ring e mem' β s t (cleared f (q * e.BLOCK_SIZE + i) xs.length) g := by
  induction xs generalizing i fuel f mem with
  | nil =>
      obtain ⟨fuel, rfl⟩ := Nat.exists_eq_add_of_lt hfuel
      refine ⟨mem, ?_, by rwa [List.length_nil, cleared_zero]⟩
      rw [Explicit.destroyOffsets, if_pos (.inr (by simpa using hstop))]
  | cons x xs ih =>
      obtain ⟨fuel, rfl⟩ := Nat.exists_eq_succ_of_ne_zero (by omega : fuel ≠ 0)
      rw [List.length_cons] at hle hstop hfuel
      have hdiv : (q * e.BLOCK_SIZE + i) / e.BLOCK_SIZE = q := block_div (by omega)
      have hfirst : f (q * e.BLOCK_SIZE + i) = some x := hf 0 (Nat.succ_pos _)
      obtain ⟨b, hb, h₁, -, -⟩ := h.destroyAt (by omega) (by omega) hfirst
      rw [hdiv] at hb h₁
      -- only the offset of an index within the block matters
      have hoff : (mem.blocks (β q)).destroyAt e.toTraits (BitVec.ofNat e.bits i) =
          some (x, b) := by
        rw [← hb]
        unfold Block.destroyAt
        rw [Traits.offset_ofNat, Traits.offset_ofNat, block_mod (by omega),
          Nat.mod_eq_of_lt (by omega)]
      obtain ⟨mem', hloop, h'⟩ := ih fuel h₁ (i := i + 1) (by omega) (by omega)
        (fun j hj => by
          rw [Function.update_of_ne (by omega),
            show q * e.BLOCK_SIZE + (i + 1) + j = q * e.BLOCK_SIZE + i + (j + 1) by omega,
            hf (j + 1) (Nat.succ_lt_succ hj), List.getElem?_cons_succ]) (by omega)
      rw [← Nat.add_assoc, cleared_update] at h'
      refine ⟨mem', ?_, h'⟩
      rw [Explicit.destroyOffsets, if_neg (by omega)]
      simp only [hoff, bind_eq_bind, bind_some, hloop]

/-- The first index that is left when the blocks before number `q` are done. -/
def View.reached (v : View) (B q : Nat) : Nat := max v.head (min v.tail (q * B))

section Walk

variable {l₀ : List α} (h : Inv e st v l₀) {mem : Mem α} {q : Nat}
include h

theorem Inv.destroyBlock (hs : v.s ≤ q) (ht : q < v.t)
    (hring : Ring e mem v.β v.s v.t (slotAt (v.reached e.BLOCK_SIZE q) l)
      (marked e.BLOCK_SIZE v.head)) (hlen : v.reached e.BLOCK_SIZE q + l.length = v.tail) :
    ∃ mem' n, v.reached e.BLOCK_SIZE q + n = v.reached e.BLOCK_SIZE (q + 1) ∧
      destroyBlock e st.prod (if v.head % e.BLOCK_SIZE = 0 then none
        else some (v.β (v.head / e.BLOCK_SIZE))) (v.β q) mem = some (l.take n, mem') ∧
      Ring e mem' v.β v.s v.t (slotAt (v.reached e.BLOCK_SIZE (q + 1)) (l.drop n))
        (marked e.BLOCK_SIZE v.head) := by
  have hB := e.BLOCK_SIZE_pos
  have hst : v.s < v.t := by omega
  have hl₀ := h.len
  have hsucc : (q + 1) * e.BLOCK_SIZE = q * e.BLOCK_SIZE + e.BLOCK_SIZE := Nat.succ_mul ..
  have hle : q * e.BLOCK_SIZE + e.BLOCK_SIZE ≤ v.t * e.BLOCK_SIZE := block_le ht
  obtain ⟨hnew, hnew'⟩ := h.newest
  have hempty := hring.isEmpty hs ht (marked_le ..)
  unfold Explicit.destroyBlock
  simp only [hempty, bind_eq_bind, bind_some, decide_eq_true_eq, marked_eq_iff hB]
  by_cases hdone : q * e.BLOCK_SIZE + e.BLOCK_SIZE ≤ v.head
  · have hsame : v.reached e.BLOCK_SIZE q = v.reached e.BLOCK_SIZE (q + 1) := by
      unfold View.reached
      omega
    refine ⟨mem, 0, hsame, by rw [if_pos hdone, List.take_zero], ?_⟩
    rwa [← hsame, List.drop_zero]
  · obtain ⟨i, hi⟩ : ∃ i, v.reached e.BLOCK_SIZE q = q * e.BLOCK_SIZE + i :=
      Nat.exists_eq_add_of_le (by unfold View.reached; omega)
    obtain ⟨n, hn⟩ : ∃ n, v.reached e.BLOCK_SIZE (q + 1) = v.reached e.BLOCK_SIZE q + n :=
      Nat.exists_eq_add_of_le (by unfold View.reached; omega)
    have htake : (l.take n).length = n := by
      rw [List.length_take]
      unfold View.reached at hn hlen
      omega
    have hbelow : q * e.BLOCK_SIZE < v.tail := by
      have := Nat.mul_le_mul_right e.BLOCK_SIZE (show q + 1 ≤ v.t by omega)
      omega
    -- the walk starts at the head, if that is in this block
    have hfrom : (if some (v.β q) = (if v.head % e.BLOCK_SIZE = 0 then none
        else some (v.β (v.head / e.BLOCK_SIZE))) then e.offset st.prod.headIndex else 0) = i := by
      have hadd := block_add e.BLOCK_SIZE v.head
      have hmod := Nat.mod_lt v.head hB
      have hq : v.head / e.BLOCK_SIZE ≤ q := by
        refine Nat.lt_succ_iff.mp (Nat.div_lt_of_lt_mul ?_)
        rw [Nat.mul_comm, Nat.succ_mul]
        omega
      have hsq : v.s ≤ v.head / e.BLOCK_SIZE := (Nat.le_div_iff_mul_le hB).mpr h.oldest
      rw [h.headIndex, Traits.offset_ofNat]
      unfold View.reached at hi
      rcases hq.lt_or_eq with hlt | heq
      · have hnext : v.head / e.BLOCK_SIZE * e.BLOCK_SIZE + e.BLOCK_SIZE ≤ q * e.BLOCK_SIZE :=
          block_le hlt
        rw [if_neg]
        · omega
        · split
          · exact nofun
          · intro heq
            exact hlt.ne' (h.ring.inj _ _ hs ht hsq (by omega) (Option.some.inj heq))
      · rw [heq] at hadd
        rw [heq]
        by_cases hal : v.head % e.BLOCK_SIZE = 0
        · rw [if_pos hal, if_neg nofun]
          omega
        · rw [if_neg hal, if_pos rfl]
          omega
    -- and ends at the tail, if that is in this block
    have hto : (if some (v.β q) = st.prod.tailBlock then
        if st.prod.tailIndex &&& e.blockMask = 0 then e.BLOCK_SIZE else e.offset st.prod.tailIndex
        else e.BLOCK_SIZE) = i + n := by
      have htail := h.tailBlock
      rw [if_pos hst] at htail
      rw [hi] at hn
      unfold View.reached at hn
      by_cases hlast : q = v.t - 1
      · have hend : q * e.BLOCK_SIZE + e.BLOCK_SIZE = v.t * e.BLOCK_SIZE := by
          rw [← Nat.succ_mul, hlast, Nat.succ_eq_add_one, Nat.sub_add_cancel (by omega)]
        rw [if_pos (by rw [htail, hlast])]
        by_cases hal : v.tail = v.t * e.BLOCK_SIZE
        · rw [if_pos (h.and_blockMask.mpr hal)]
          omega
        · obtain ⟨-, hdiv⟩ := h.tail_div hal
          have hadd := block_add e.BLOCK_SIZE v.tail
          rw [hdiv, ← hlast] at hadd
          rw [if_neg (mt h.and_blockMask.mp hal), h.tailIndex, Traits.offset_ofNat]
          omega
      · have hnext : q * e.BLOCK_SIZE + e.BLOCK_SIZE ≤ (v.t - 1) * e.BLOCK_SIZE :=
          block_le (by omega)
        have hend : (v.t - 1) * e.BLOCK_SIZE + e.BLOCK_SIZE = v.t * e.BLOCK_SIZE := by
          rw [← Nat.succ_mul, Nat.succ_eq_add_one, Nat.sub_add_cancel (by omega)]
        rw [if_neg]
        · omega
        · rw [htail]
          intro heq
          exact hlast (h.ring.inj _ _ hs ht (by omega) (by omega) (Option.some.inj heq))
    obtain ⟨mem', hwalk, hring'⟩ := Ring.destroyOffsets hs ht (e.BLOCK_SIZE + 1) (i := i)
      (l.take n) hring (by rw [htake]; unfold View.reached at hn hi; omega) rfl (fun j hj => by
        rw [hi, slotAt, if_pos (by omega), List.getElem?_take_of_lt (by omega)]
        congr 1
        omega) (by unfold View.reached at hn hi; omega)
    rw [htake, ← hi, cleared_slotAt_drop, ← hn] at hring'
    refine ⟨mem', n, hn.symm, ?_, hring'⟩
    rw [if_neg hdone, hfrom, hto, ← hwalk, htake]

omit h in
theorem destroyOffsets_within {A : Set Nat} {b stop : Nat} (hb : b ∈ A) {fuel i : Nat}
    {xs : List α} {mem mem' : Mem α}
    (hwalk : destroyOffsets e b stop fuel i mem = some (xs, mem')) : Within e A mem mem' := by
  induction fuel generalizing i xs mem with
  | zero => cases hwalk
  | succ fuel ih =>
      rw [destroyOffsets] at hwalk
      split at hwalk
      · cases hwalk
        exact .refl
      · simp only [bind_eq_bind, Option.bind_eq_some_iff] at hwalk
        obtain ⟨⟨x, b'⟩, hdestroy, ⟨ys, mem₁⟩, hrest, hwalk⟩ := hwalk
        cases hwalk
        exact (Within.destroyAt hb hdestroy).trans (ih hrest)

omit h in
theorem destroyBlock_within {A : Set Nat} {p : ExplicitProducer e.bits} {half : Option Nat}
    {b : Nat} (hb : b ∈ A) {xs : List α} {mem mem' : Mem α}
    (hwalk : destroyBlock e p half b mem = some (xs, mem')) : Within e A mem mem' := by
  rw [destroyBlock, bind_eq_bind, Option.bind_eq_some_iff] at hwalk
  obtain ⟨isEmpty, -, hwalk⟩ := hwalk
  split at hwalk
  · cases hwalk
    exact .refl
  · exact destroyOffsets_within hb hwalk

/-- The walk over the blocks from number `q` on, which follows block `b`. -/
theorem Inv.destroyElements (fuel : Nat) {b : Nat} (hs : v.s ≤ q) (ht : q < v.t)
    (hnext : (mem.blocks b).next = some (v.β q))
    (hring : Ring e mem v.β v.s v.t (slotAt (v.reached e.BLOCK_SIZE q) l)
      (marked e.BLOCK_SIZE v.head)) (hlen : v.reached e.BLOCK_SIZE q + l.length = v.tail)
    (hfuel : v.t ≤ q + fuel) :
    ∃ mem', destroyElements e st.prod (if v.head % e.BLOCK_SIZE = 0 then none
        else some (v.β (v.head / e.BLOCK_SIZE))) fuel b mem = some (l, mem') ∧
      Ring e mem' v.β v.s v.t (fun _ => none) (marked e.BLOCK_SIZE v.head) ∧
      Within e (ConcurrentQueue.window v.β v.s v.t) mem mem' := by
  induction fuel generalizing q b l mem with
  | zero => omega
  | succ fuel ih =>
      obtain ⟨mem₁, n, hn, hblock, hring₁⟩ := h.destroyBlock hs ht hring hlen
      have hwithin := destroyBlock_within (mem_window hs ht) hblock
      have htail := h.tailBlock
      rw [if_pos (by omega)] at htail
      simp only [Explicit.destroyElements, hnext, hblock, htail, bind_eq_bind,
        bind_some]
      by_cases hlast : q = v.t - 1
      · have hend : v.reached e.BLOCK_SIZE (q + 1) = v.tail := by
          have hl₀ := h.len
          have hnew := h.newest.1
          rw [View.reached, hlast, Nat.sub_add_cancel (by omega)]
          omega
        have hall : l.length ≤ n := by omega
        rw [if_pos (by rw [hlast]), List.take_of_length_le hall]
        refine ⟨mem₁, rfl, hring₁.congr (fun _ _ _ _ _ => ?_) fun _ _ _ => rfl, hwithin⟩
        rw [List.drop_of_length_le hall, slotAt]
        split <;> rfl
      · have hne : some (v.β q) ≠ some (v.β (v.t - 1)) := fun heq =>
          hlast (h.ring.inj q (v.t - 1) hs ht (by omega) (by omega) (Option.some.inj heq))
        obtain ⟨mem', hloop, hring', hwithin'⟩ := ih (q := q + 1) (by omega) (by omega)
          (hring₁.next hs (by omega)) hring₁ (by
            have hl₀ := h.len
            have hle : v.reached e.BLOCK_SIZE (q + 1) ≤ v.tail := by
              unfold View.reached
              omega
            rw [List.length_drop]
            omega) (by omega)
        refine ⟨mem', ?_, hring', hwithin.trans hwithin'⟩
        rw [if_neg hne, hloop]
        simp only [bind_some, List.take_append_drop]

end Walk

/-! ### Giving the blocks back -/

/-- The walk from block number `q` gives back the blocks up to the tail block. -/
theorem Ring.releaseBlocks {β : Nat → Nat} {s t q : Nat} {f : Nat → Option α} {g : Nat → Nat}
    (fuel : Nat) {mem₀ mem : Mem α} (hring : Ring e mem₀ β s t f g) (hs : s ≤ q)
    (ht : q + 1 < t) (hmem : mem.blocks = mem₀.blocks) (hfuel : t ≤ q + 1 + fuel) :
    ∃ mem', releaseBlocks e (some (β (t - 1))) fuel (β q) mem = some mem' ∧
      ((∀ i, f i = none) → Has e (window β q (t - 1)) mem →
        Traffic e (window β q (t - 1)) ∅ mem mem') := by
  induction fuel generalizing q mem with
  | zero => omega
  | succ fuel ih =>
      have hnext : (mem.blocks (β q)).next = some (β (q + 1)) := by
        rw [hmem]
        exact hring.next hs ht
      have hrelease : (∀ i, f i = none) → Has e (window β q (t - 1)) mem →
          Traffic e (window β q (t - 1)) (window β (q + 1) (t - 1)) mem
            (mem.addBlockToFreeList e (β q)) := by
        intro hf hhas
        rw [← window_tail (fun r r' hr hrt hr' hrt' =>
          hring.inj r r' (by omega) (by omega) (by omega) (by omega)) (by omega)]
        refine hhas.release (mem_window le_rfl (by omega)) fun i hi => ?_
        rw [hmem, hring.slot q i hs (by omega) hi, hf]
      simp only [Explicit.releaseBlocks, hnext, bind_eq_bind, bind_some]
      by_cases hlast : q + 1 = t - 1
      · refine ⟨_, if_pos (by rw [hlast]), fun hf hhas => ?_⟩
        have hall := hrelease hf hhas
        rwa [hlast, window_self] at hall
      · have hne : some (β (q + 1)) ≠ some (β (t - 1)) := fun heq =>
          hlast (hring.inj _ _ (by omega) ht (by omega) (by omega) (Option.some.inj heq))
        obtain ⟨mem', hloop, htraffic⟩ := ih (q := q + 1) (by omega) (by omega)
          ((Mem.blocks_addBlockToFreeList (β q)).trans hmem) (by omega)
        refine ⟨mem', by rw [if_neg hne, hloop], fun hf hhas => ?_⟩
        have hfirst := hrelease hf hhas
        exact hfirst.trans (htraffic hf hfirst.has)

/-- **The destructor** destroys exactly the elements of the list, in order, and gives every
block back. -/
theorem Inv.destroy_traffic {st : State e.bits α} {v : View} {l : List α} (h : Inv e st v l) :
    ∃ mem', destroy e st = some (l, mem') ∧
      (Has e (ConcurrentQueue.window v.β v.s v.t) st.mem →
        Traffic e (ConcurrentQueue.window v.β v.s v.t) ∅ st.mem mem') := by
  have htail := h.tailBlock
  have hst := h.s_le_t
  have hlen := h.len
  have hold := h.oldest
  obtain ⟨hnew, -⟩ := h.newest
  rcases hst.lt_or_eq with hlt | heq
  · rw [if_pos hlt] at htail
    have hwrap := h.ring.wrap hlt
    have hfuel : v.t - v.s ≤ 2 ^ e.bits := by
      have := h.bound
      have := Nat.le_mul_of_pos_right (v.t - v.s) e.BLOCK_SIZE_pos
      have := e.two_pow_bits
      omega
    have hstart : v.reached e.BLOCK_SIZE v.s = v.head := by
      unfold View.reached
      omega
    obtain ⟨mem₁, hloop, hring, hwithin⟩ := h.destroyElements (2 ^ e.bits) (q := v.s)
      (l := l) le_rfl hlt hwrap (by rw [hstart]; exact h.ring) (by omega) (by omega)
    -- the tail block is the first to go
    have hfirst : Has e (ConcurrentQueue.window v.β v.s v.t) st.mem →
        Traffic e (ConcurrentQueue.window v.β v.s v.t)
          (ConcurrentQueue.window v.β v.s (v.t - 1)) st.mem
          (mem₁.addBlockToFreeList e (v.β (v.t - 1))) := by
      intro hhas
      have htraffic := hwithin.traffic hhas
      rw [← window_init hring.inj hlt]
      refine htraffic.trans (htraffic.has.release (mem_window (by omega) (by omega)) fun i hi => ?_)
      exact hring.slot (v.t - 1) i (by omega) (by omega) hi
    simp only [Explicit.destroy, htail, h.halfDequeued hlt, hloop, bind_eq_bind,
      bind_some]
    obtain ⟨n, hn⟩ : ∃ n, 2 ^ e.bits = n + 1 :=
      Nat.exists_eq_succ_of_ne_zero (Nat.two_pow_pos _).ne'
    rw [hn, Explicit.releaseBlocks, hring.wrap hlt, bind_eq_bind, bind_some]
    by_cases hone : v.s = v.t - 1
    · refine ⟨_, by rw [if_pos (by rw [hone])]; rfl, fun hhas => ?_⟩
      have hempty : ConcurrentQueue.window v.β v.s (v.t - 1) = ∅ := by rw [← hone, window_self]
      rw [← hempty]
      exact hfirst hhas
    · have hne : some (v.β v.s) ≠ some (v.β (v.t - 1)) := fun heq =>
        hone (h.ring.inj _ _ le_rfl hlt (by omega) (by omega) (Option.some.inj heq))
      obtain ⟨mem', hrel, htraffic⟩ := Ring.releaseBlocks n hring (q := v.s) le_rfl (by omega)
        (Mem.blocks_addBlockToFreeList (v.β (v.t - 1))) (by omega)
      refine ⟨mem', by rw [if_neg hne, hrel]; rfl, fun hhas => ?_⟩
      exact (hfirst hhas).trans (htraffic (fun _ => rfl) (hfirst hhas).has)
  · rw [if_neg (by omega)] at htail
    obtain rfl : l = [] := by
      rw [heq] at hold
      exact List.eq_nil_of_length_eq_zero (by omega)
    refine ⟨st.mem, by simp only [Explicit.destroy, htail], fun hhas => ?_⟩
    rw [heq, window_self] at hhas ⊢
    exact hhas.refl

/-- The destructor destroys exactly the elements of the list, in order. -/
theorem Inv.destroy {st : State e.bits α} {v : View} {l : List α} (h : Inv e st v l) :
    ∃ mem', destroy e st = some (l, mem') := by
  obtain ⟨mem', hdestroy, -⟩ := h.destroy_traffic
  exact ⟨mem', hdestroy⟩

end ConcurrentQueue.Explicit
