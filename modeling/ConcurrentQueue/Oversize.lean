import ConcurrentQueue.Held

/-!
# ConcurrentQueue.Oversize

**Counts that do not fit.** The number of blocks a bulk call takes is computed from the
index before the tail and the last new index. When the count, added to the offset of
the former in its block, reaches the size of the index range, the two are in the same
block and the call takes no block at all, although its elements are more than a block
can hold. Constructing them comes back to a slot that is in use.
-/

namespace ConcurrentQueue

open Wrap

variable {α : Type} {e : Env}

/-! ### What the call computes -/

section Arithmetic

variable {T n : Nat} (hT : 0 < T) (hn : n < 2 ^ e.bits)
  (hover : 2 ^ e.bits ≤ e.offset (BitVec.ofNat e.bits T - 1#e.bits) + n)
include hT hn hover

/-- Counted from the start of the block, the last new index is once round the index
range, and before the tail. -/
theorem oversize_split : ∃ q o r, T = q * e.BLOCK_SIZE + o + 1 ∧ o < e.BLOCK_SIZE ∧ r < o ∧
    o + n = 2 ^ e.bits + r := by
  have hoff : e.offset (BitVec.ofNat e.bits T - 1#e.bits) = (T - 1) % e.BLOCK_SIZE := by
    rw [ofNat_sub hT, Traits.offset_ofNat]
  rw [hoff] at hover
  have hadd := block_add e.BLOCK_SIZE (T - 1)
  have hmod := Nat.mod_lt (T - 1) e.BLOCK_SIZE_pos
  refine ⟨(T - 1) / e.BLOCK_SIZE, (T - 1) % e.BLOCK_SIZE,
    (T - 1) % e.BLOCK_SIZE + n - 2 ^ e.bits, by omega, hmod, by omega, by omega⟩

theorem oversize_blockBaseDiff :
    e.blockBase (BitVec.ofNat e.bits T + BitVec.ofNat e.bits n - 1#e.bits) -
      e.blockBase (BitVec.ofNat e.bits T - 1#e.bits) = 0#e.bits := by
  obtain ⟨q, o, r, rfl, ho, hr, hsum⟩ := oversize_split hT hn hover
  have hlast : BitVec.ofNat e.bits (q * e.BLOCK_SIZE + o + 1) + BitVec.ofNat e.bits n - 1#e.bits =
      BitVec.ofNat e.bits (q * e.BLOCK_SIZE + r) := by
    rw [BitVec.ofNat_add_ofNat, ofNat_sub (by omega), show q * e.BLOCK_SIZE + o + 1 + n - 1 =
      q * e.BLOCK_SIZE + r + 2 ^ e.bits by omega, ofNat_add_two_pow]
  rw [hlast, ofNat_sub (by omega), Nat.add_sub_cancel, Traits.blockBase_ofNat,
    Traits.blockBase_ofNat, block_div (by omega), block_div ho, BitVec.sub_self]

/-- In the tail block, construction is to go on for the whole count. -/
theorem oversize_stop (hal : BitVec.ofNat e.bits T &&& e.blockMask ≠ 0) :
    (stopIndex e (BitVec.ofNat e.bits T) (BitVec.ofNat e.bits T + BitVec.ofNat e.bits n) -
      BitVec.ofNat e.bits T).toNat = n := by
  obtain ⟨q, o, r, rfl, ho, hr, hsum⟩ := oversize_split hT hn hover
  have hB := e.BLOCK_SIZE_le
  have hhalf := e.two_pow_bits
  have hlast : o + 1 < e.BLOCK_SIZE := by
    by_contra hge
    refine hal ((e.and_blockMask_eq_zero _).mpr ?_)
    rw [Nat.add_assoc, show o + 1 = e.BLOCK_SIZE by omega, Nat.add_mod_right, Nat.mul_mod_left]
  have hnew : BitVec.ofNat e.bits (q * e.BLOCK_SIZE + o + 1) + BitVec.ofNat e.bits n =
      BitVec.ofNat e.bits (q * e.BLOCK_SIZE + (r + 1)) := by
    rw [BitVec.ofNat_add_ofNat, show q * e.BLOCK_SIZE + o + 1 + n =
      q * e.BLOCK_SIZE + (r + 1) + 2 ^ e.bits by omega, ofNat_add_two_pow]
  have hless : circularLessThan (BitVec.ofNat e.bits (q * e.BLOCK_SIZE + (r + 1)))
      (BitVec.ofNat e.bits (q * e.BLOCK_SIZE + e.BLOCK_SIZE)) = true :=
    (circularLessThan_ofNat e.bits_pos (by omega) (by omega)).mpr ⟨by omega, by omega⟩
  have hstop : stopIndex e (BitVec.ofNat e.bits (q * e.BLOCK_SIZE + o + 1))
      (BitVec.ofNat e.bits (q * e.BLOCK_SIZE + (r + 1))) =
        BitVec.ofNat e.bits (q * e.BLOCK_SIZE + (r + 1)) := by
    rw [stopIndex, Traits.blockBase_ofNat, Nat.add_assoc, block_div hlast, Traits.blockSize,
      BitVec.ofNat_add_ofNat]
    exact if_pos hless
  rw [hnew, hstop, toNat_ofNat_sub_of_lt (by omega) (by omega)]
  omega

theorem oversize_lt : e.BLOCK_SIZE < n := by
  obtain ⟨q, o, r, -, ho, hr, hsum⟩ := oversize_split hT hn hover
  have hB := e.BLOCK_SIZE_le
  have hhalf := e.two_pow_bits
  omega

end Arithmetic

/-! ### More elements than slots -/

/-- The slots of a block without an object. -/
def Block.vacant (B : Nat) (b : Block α) : Finset Nat :=
  (Finset.range B).filter fun i => (b.elements i).isNone

theorem Block.card_vacant_construct {b b' : Block α} {i : BitVec e.bits} {x : α}
    (h : b.construct e.toTraits i x = some b') :
    (b'.vacant e.BLOCK_SIZE).card + 1 = (b.vacant e.BLOCK_SIZE).card := by
  unfold Block.construct at h
  split at h
  case h_1 hnone =>
      obtain rfl := Option.some.inj h
      have hmem : e.offset i ∈ b.vacant e.BLOCK_SIZE := by
        rw [Block.vacant, Finset.mem_filter, Finset.mem_range, hnone]
        exact ⟨e.offset_lt i, rfl⟩
      have herase : (b.setElement (e.offset i) (some x)).vacant e.BLOCK_SIZE =
          (b.vacant e.BLOCK_SIZE).erase (e.offset i) := by
        ext j
        simp only [Block.vacant, Block.setElement, Finset.mem_filter, Finset.mem_erase]
        by_cases hj : j = e.offset i
        · simp [hj]
        · simp [hj]
      rw [herase, Finset.card_erase_add_one hmem]
  case h_2 => cases h

/-- A block takes no more elements than it has empty slots. -/
theorem fillBlock_eq_none {ctor : Ctor} {b n : Nat} {i : BitVec e.bits} {k : Nat} {xs : List α}
    {mem : Mem α} (hquiet : ∀ j < k + xs.length, ctor.throws j = false)
    (hn : ((mem.blocks b).vacant e.BLOCK_SIZE).card < n) :
    fillBlock e ctor (some b) n i k xs mem = none := by
  induction n generalizing i k xs mem with
  | zero => omega
  | succ n ih =>
      cases xs with
      | nil => rfl
      | cons x xs =>
          rw [fillBlock, hquiet k (by rw [List.length_cons]; omega)]
          simp only [Bool.false_eq_true, if_false, constructAt, Mem.tryModify, Option.bind_eq_bind,
            Option.bind_some]
          cases hcons : (mem.blocks b).construct e.toTraits i x with
          | none => rfl
          | some b' =>
              rw [Option.map_some, Option.bind_some]
              refine ih (fun j hj => hquiet j (by rw [List.length_cons]; omega)) ?_
              have hcard := Block.card_vacant_construct hcons
              rw [Mem.blocks_setBlock, Function.update_self]
              omega

/-- A call that would fill one block with more elements than it has slots. -/
theorem fillBlocks_eq_none {ctor : Ctor} {last i : BitVec e.bits} {endBlock tailBlock : Option Nat}
    {fuel : Nat} {xs : List α} {mem : Mem α}
    (hquiet : ∀ j < xs.length, ctor.throws j = false)
    (hn : e.BLOCK_SIZE < (stopIndex e i last - i).toNat) :
    fillBlocks e ctor last endBlock fuel tailBlock i 0 xs mem = none := by
  cases fuel with
  | zero => rfl
  | succ fuel =>
      have hfill : fillBlock e ctor tailBlock (stopIndex e i last - i).toNat i 0 xs mem = none := by
        cases tailBlock with
        | some b =>
            refine fillBlock_eq_none (by rwa [Nat.zero_add]) (lt_of_le_of_lt ?_ hn)
            exact (Finset.card_filter_le _ _).trans (Finset.card_range _).le
        | none =>
            obtain ⟨n, hn⟩ := Nat.exists_eq_add_one_of_ne_zero (by omega :
              (stopIndex e i last - i).toNat ≠ 0)
            rw [hn]
            cases xs with
            | nil => rfl
            | cons x xs =>
                rw [fillBlock, hquiet 0 (Nat.succ_pos _)]
                rfl
      rw [fillBlocks, hfill]
      rfl

/-! ### Nothing to enqueue -/

/-- Where a block takes half the index range, the loop takes the end of the block for
the end of an empty call. -/
theorem stopIndex_corner (hB : ¬ e.BLOCK_SIZE < 2 ^ (e.bits - 1)) (q : Nat) :
    (stopIndex e (BitVec.ofNat e.bits (q * e.BLOCK_SIZE))
      (BitVec.ofNat e.bits (q * e.BLOCK_SIZE)) -
        BitVec.ofNat e.bits (q * e.BLOCK_SIZE)).toNat = e.BLOCK_SIZE := by
  have hhalf := e.two_pow_bits
  have hpos := Nat.two_pow_pos (e.bits - 1)
  have hle := e.BLOCK_SIZE_le
  have hfar : circularLessThan (BitVec.ofNat e.bits (q * e.BLOCK_SIZE))
      (BitVec.ofNat e.bits (q * e.BLOCK_SIZE + e.BLOCK_SIZE)) = false :=
    Bool.eq_false_iff.mpr fun hc => by
      have := ((circularLessThan_ofNat e.bits_pos (Nat.le_add_right ..) (by omega)).mp hc).2
      omega
  rw [stopIndex, Traits.blockBase_ofNat, Nat.mul_div_cancel _ e.BLOCK_SIZE_pos, Traits.blockSize,
    BitVec.ofNat_add_ofNat]
  simp only [hfar, Bool.false_eq_true, if_false]
  rw [toNat_ofNat_sub (Nat.le_add_right ..) (by omega), Nat.add_sub_cancel_left]

theorem fillBlocks_nil_eq_none {ctor : Ctor} {last i : BitVec e.bits}
    {endBlock tailBlock : Option Nat} {fuel : Nat} {mem : Mem α}
    (hn : 0 < (stopIndex e i last - i).toNat) :
    fillBlocks e ctor last endBlock fuel tailBlock i 0 [] mem = none := by
  cases fuel with
  | zero => rfl
  | succ fuel =>
      obtain ⟨n, hn⟩ := Nat.exists_eq_add_one_of_ne_zero hn.ne'
      rw [fillBlocks, hn]
      rfl

end ConcurrentQueue
