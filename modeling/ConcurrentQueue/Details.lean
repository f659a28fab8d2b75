import Mathlib.Data.Nat.Size
import ConcurrentQueue.Lib.Wrap

/-!
# ConcurrentQueue.Details

The queue's compile-time constants and the two helper functions of namespace
`details` that its index arithmetic rests on. **All index arithmetic is done on
`BitVec bits`**: `size_t` and `index_t` both have `bits` bits and wrap. There is one
place where the code relies on this and C++ does not grant it, the end of a range of
indices (`rangeEnd`): the sum is an `int` if `index_t` is narrower than `int`.
-/

namespace ConcurrentQueue

/-! ### Constants -/

/-- The constants of `Traits`. The power-of-two constants are given by their
logarithm, so that what the static assertions demand of them holds by
construction. -/
structure Traits where
  bits : Nat
  blockLog : Nat
  explicitIndexLog : Nat
  implicitIndexLog : Nat
  EXPLICIT_BLOCK_EMPTY_COUNTER_THRESHOLD : Nat
  maxSubqueueSize : BitVec bits
  RECYCLE_ALLOCATED_BLOCKS : Bool
  blockLog_pos : 0 < blockLog
  blockLog_lt : blockLog < bits
  explicitIndexLog_pos : 0 < explicitIndexLog
  explicitIndexLog_lt : explicitIndexLog < bits
  implicitIndexLog_pos : 0 < implicitIndexLog
  implicitIndexLog_lt : implicitIndexLog < bits

namespace Traits

variable (t : Traits)

def BLOCK_SIZE : Nat := 2 ^ t.blockLog

def EXPLICIT_INITIAL_INDEX_SIZE : Nat := 2 ^ t.explicitIndexLog

def IMPLICIT_INITIAL_INDEX_SIZE : Nat := 2 ^ t.implicitIndexLog

/-- `BLOCK_SIZE` as an `index_t`. -/
def blockSize : BitVec t.bits := BitVec.ofNat t.bits t.BLOCK_SIZE

/-- `static_cast<index_t>(BLOCK_SIZE - 1)`. -/
def blockMask : BitVec t.bits := BitVec.ofNat t.bits (t.BLOCK_SIZE - 1)

/-- `const_numeric_max<size_t>::value`. -/
def sizeMax : BitVec t.bits := BitVec.allOnes t.bits

/-- The configured limit, rounded up to a whole number of blocks unless that
would overflow. -/
def MAX_SUBQUEUE_SIZE : BitVec t.bits :=
  if t.sizeMax - t.maxSubqueueSize < t.blockSize then t.sizeMax
  else (t.maxSubqueueSize + t.blockMask) / t.blockSize * t.blockSize

/-- The offset of an index in its block. -/
def offset (i : BitVec t.bits) : Nat := (i &&& t.blockMask).toNat

/-- The first index of the block of an index. -/
def blockBase (i : BitVec t.bits) : BitVec t.bits := i &&& ~~~t.blockMask

theorem BLOCK_SIZE_pos : 0 < t.BLOCK_SIZE := Nat.two_pow_pos _

theorem one_lt_BLOCK_SIZE : 1 < t.BLOCK_SIZE :=
  Nat.one_lt_two_pow (Nat.pos_iff_ne_zero.mp t.blockLog_pos)

theorem BLOCK_SIZE_le : t.BLOCK_SIZE ≤ 2 ^ (t.bits - 1) :=
  Nat.pow_le_pow_right (by omega) (by have := t.blockLog_lt; omega)

theorem bits_pos : 0 < t.bits := lt_of_lt_of_le (Nat.succ_pos _) t.blockLog_lt

theorem BLOCK_SIZE_lt : t.BLOCK_SIZE < 2 ^ t.bits :=
  Nat.pow_lt_pow_right (by omega) t.blockLog_lt

theorem two_pow_bits : 2 ^ t.bits = 2 * 2 ^ (t.bits - 1) := Wrap.two_pow_eq t.bits_pos

@[simp] theorem offset_ofNat (n : Nat) :
    t.offset (BitVec.ofNat t.bits n) = n % t.BLOCK_SIZE := by
  rw [offset, blockMask, BLOCK_SIZE, Wrap.ofNat_and_low, Wrap.toNat_ofNat_mod t.blockLog_lt.le]

theorem offset_lt (i : BitVec t.bits) : t.offset i < t.BLOCK_SIZE := by
  have h := t.offset_ofNat i.toNat
  rw [BitVec.ofNat_toNat, BitVec.setWidth_eq] at h
  rw [h]
  exact Nat.mod_lt _ t.BLOCK_SIZE_pos

theorem and_blockMask_eq_zero (n : Nat) :
    BitVec.ofNat t.bits n &&& t.blockMask = 0 ↔ n % t.BLOCK_SIZE = 0 :=
  Wrap.ofNat_and_low_eq_zero t.blockLog_lt.le

@[simp] theorem blockBase_ofNat (n : Nat) :
    t.blockBase (BitVec.ofNat t.bits n) =
      BitVec.ofNat t.bits (n / t.BLOCK_SIZE * t.BLOCK_SIZE) :=
  Wrap.ofNat_and_high

end Traits

/-! ### `details::circular_less_than` -/

/-- Whether `a` lies less than half the range behind `b`. -/
def circularLessThan {w : Nat} (a b : BitVec w) : Bool :=
  (1#w <<< (w - 1)) < a - b

variable {w : Nat}

theorem toNat_half (hw : 0 < w) : (1#w <<< (w - 1)).toNat = 2 ^ (w - 1) := by
  have hlt : 2 ^ (w - 1) < 2 ^ w := Nat.pow_lt_pow_right (by omega) (by omega)
  rw [BitVec.toNat_shiftLeft, BitVec.toNat_ofNat, Nat.mod_eq_of_lt (Nat.one_lt_two_pow hw.ne'),
    Nat.one_shiftLeft, Nat.mod_eq_of_lt hlt]

theorem circularLessThan_ofNat (hw : 0 < w) {a b : Nat} (h : a ≤ b) (hlt : b - a < 2 ^ w) :
    circularLessThan (BitVec.ofNat w a) (BitVec.ofNat w b) = true ↔
      a < b ∧ b - a < 2 ^ (w - 1) := by
  have hpow := Wrap.two_pow_eq hw
  rw [circularLessThan, decide_eq_true_iff, BitVec.lt_def, toNat_half hw]
  rcases h.eq_or_lt with rfl | hab
  · simp
  · rw [Wrap.toNat_ofNat_sub_of_lt hab hlt]
    omega

/-- Nothing is less than what lies up to half the range behind it. -/
theorem circularLessThan_ofNat_of_le (hw : 0 < w) {a b : Nat} (h : b ≤ a)
    (hle : a - b ≤ 2 ^ (w - 1)) :
    circularLessThan (BitVec.ofNat w a) (BitVec.ofNat w b) = false := by
  have hpow := Wrap.two_pow_eq hw
  have hpos := Nat.two_pow_pos (w - 1)
  rw [circularLessThan, decide_eq_false_iff_not, BitVec.lt_def, toNat_half hw,
    Wrap.toNat_ofNat_sub h (by omega)]
  omega

/-! ### The end of a range of indices -/

/-- The sum `firstIndex + actualCount` that the loops of `dequeue_bulk` compare their index
with. A type narrower than `int`, of `intBits` bits, is promoted, and the sum does not
wrap then. -/
def rangeEnd (intBits : Nat) (firstIndex actualCount : BitVec w) : Nat :=
  if w < intBits then firstIndex.toNat + actualCount.toNat else (firstIndex + actualCount).toNat

/-- The loops stop: `index != firstIndex + actualCount` is false. -/
def atRangeEnd (intBits : Nat) (firstIndex actualCount index : BitVec w) : Bool :=
  index.toNat = rangeEnd intBits firstIndex actualCount

/-- An index can be equal to the sum. -/
def RangeEnds (intBits : Nat) (firstIndex actualCount : BitVec w) : Prop :=
  intBits ≤ w ∨ firstIndex.toNat + actualCount.toNat < 2 ^ w

instance (intBits : Nat) (firstIndex actualCount : BitVec w) :
    Decidable (RangeEnds intBits firstIndex actualCount) := inferInstanceAs (Decidable (_ ∨ _))

section Range

variable {intBits : Nat} {firstIndex actualCount : BitVec w}

theorem RangeEnds.of_le (h : intBits ≤ w) : RangeEnds intBits firstIndex actualCount := .inl h

theorem RangeEnds.of_zero : RangeEnds intBits firstIndex 0#w :=
  .inr (by rw [BitVec.toNat_ofNat, Nat.zero_mod]; exact firstIndex.isLt)

theorem RangeEnds.atRangeEnd_eq (h : RangeEnds intBits firstIndex actualCount)
    (index : BitVec w) :
    atRangeEnd intBits firstIndex actualCount index =
      decide (index = firstIndex + actualCount) := by
  have hend : rangeEnd intBits firstIndex actualCount = (firstIndex + actualCount).toNat := by
    rw [rangeEnd]
    split
    · rw [BitVec.toNat_add_of_lt (h.resolve_left (by omega))]
    · rfl
  rw [atRangeEnd, hend, decide_eq_decide, BitVec.toNat_inj]

/-- No index is equal to a sum that does not fit. -/
theorem atRangeEnd_eq_false (h : ¬ RangeEnds intBits firstIndex actualCount) (index : BitVec w) :
    atRangeEnd intBits firstIndex actualCount index = false := by
  rw [RangeEnds, not_or] at h
  have hlt := index.isLt
  rw [atRangeEnd, rangeEnd, if_pos (by omega), decide_eq_false_iff_not]
  omega

end Range

/-! ### `details::ceil_to_pow_2` -/

/-- The loop of `ceil_to_pow_2`, with `sizeof` bytes in the type. -/
def smearBytes (sizeof : Nat) : Nat → Nat → BitVec w → BitVec w
  | 0, _, x => x
  | fuel + 1, i, x =>
      if i < sizeof then smearBytes sizeof fuel (i <<< 1) (x ||| (x >>> (i <<< 3))) else x

def ceilToPow2 (x : BitVec w) : BitVec w :=
  let x := x - 1#w
  let x := x ||| (x >>> 1)
  let x := x ||| (x >>> 2)
  let x := x ||| (x >>> 4)
  let sizeof := (w + 7) / 8
  let x := smearBytes sizeof sizeof 1 x
  x + 1#w

/-- Each bit of `z` says whether one of the `d` bits of `y` from there on up is set. -/
def Smeared (d : Nat) (y z : BitVec w) : Prop :=
  ∀ i, z.getLsbD i = true ↔ ∃ j < d, y.getLsbD (i + j) = true

theorem Smeared.refl (y : BitVec w) : Smeared 1 y y := by
  intro i
  simp

theorem Smeared.shift {d s : Nat} {y z : BitVec w} (h : Smeared d y z) (hs : s ≤ d) :
    Smeared (d + s) y (z ||| (z >>> s)) := by
  intro i
  rw [BitVec.getLsbD_or, Bool.or_eq_true, BitVec.getLsbD_ushiftRight, h i, h (s + i)]
  constructor
  · rintro (⟨j, hj, hy⟩ | ⟨j, hj, hy⟩)
    · exact ⟨j, by omega, hy⟩
    · exact ⟨s + j, by omega, by rwa [show i + (s + j) = s + i + j by omega]⟩
  · rintro ⟨j, hj, hy⟩
    by_cases hjd : j < d
    · exact .inl ⟨j, hjd, hy⟩
    · exact .inr ⟨j - s, by omega, by rwa [show s + i + (j - s) = i + j by omega]⟩

theorem Smeared.bytes {sizeof : Nat} {y : BitVec w} {fuel i : Nat} {z : BitVec w}
    (h : Smeared (8 * i) y z) (hi : 0 < i) (hfuel : sizeof ≤ fuel + i) :
    ∃ d, 8 * sizeof ≤ d ∧ Smeared d y (smearBytes sizeof fuel i z) := by
  induction fuel generalizing i z with
  | zero => exact ⟨8 * i, by omega, h⟩
  | succ fuel ih =>
      rw [smearBytes]
      split
      · have hshift : i <<< 3 = 8 * i := by
          rw [Nat.shiftLeft_eq]
          omega
        have hdouble : i <<< 1 = 2 * i := by
          rw [Nat.shiftLeft_eq]
          omega
        rw [hshift, hdouble]
        refine ih ?_ (by omega) (by omega)
        have := h.shift (s := 8 * i) le_rfl
        rwa [show 8 * i + 8 * i = 8 * (2 * i) by omega] at this
      · exact ⟨8 * i, by omega, h⟩

/-- Smearing all the way down sets every bit below the highest one. -/
theorem Smeared.toNat_eq {d : Nat} {y z : BitVec w} (h : Smeared d y z) (hd : w ≤ d) :
    z.toNat = 2 ^ y.toNat.size - 1 := by
  refine Nat.eq_of_testBit_eq fun i => ?_
  rw [BitVec.testBit_toNat, Nat.testBit_two_pow_sub_one, Bool.eq_iff_iff, h i, decide_eq_true_iff,
    Nat.lt_size]
  constructor
  · rintro ⟨j, -, hy⟩
    calc 2 ^ i ≤ 2 ^ (i + j) := Nat.pow_le_pow_right (by omega) (by omega)
      _ ≤ y.toNat := Nat.ge_two_pow_of_testBit (by rwa [BitVec.testBit_toNat])
  · intro hle
    obtain ⟨k, hik, hk⟩ := Nat.exists_ge_and_testBit_of_ge_two_pow hle
    rw [BitVec.testBit_toNat] at hk
    have hkw := BitVec.lt_of_getLsbD hk
    exact ⟨k - i, by omega, by rwa [show i + (k - i) = k by omega]⟩

/-- `ceil_to_pow_2` gives the power of two above `x - 1`, or zero where that
does not fit the type. -/
theorem toNat_ceilToPow2 (x : BitVec w) :
    (ceilToPow2 x).toNat = 2 ^ (x - 1#w).toNat.size % 2 ^ w := by
  have h8 : Smeared (8 * 1) (x - 1#w) _ :=
    (((Smeared.refl (x - 1#w)).shift (s := 1) le_rfl).shift (s := 2) le_rfl).shift (s := 4) le_rfl
  obtain ⟨d, hd, hs⟩ : ∃ d, 8 * ((w + 7) / 8) ≤ d ∧
      Smeared d (x - 1#w) (smearBytes ((w + 7) / 8) ((w + 7) / 8) 1 _) :=
    h8.bytes (by omega) (by omega)
  have hz := hs.toNat_eq (by omega)
  have hpos := Nat.two_pow_pos (x - 1#w).toNat.size
  rw [ceilToPow2, BitVec.toNat_add, hz, BitVec.toNat_ofNat, Nat.add_mod_mod,
    Nat.sub_add_cancel hpos]

/-- Up to half the range, `ceil_to_pow_2` rounds up to the next power of two. -/
theorem isLeast_ceilToPow2 {x : BitVec w} (hpos : 0 < x.toNat) (hle : x.toNat ≤ 2 ^ (w - 1)) :
    IsLeast {n | (∃ j, n = 2 ^ j) ∧ x.toNat ≤ n} (ceilToPow2 x).toNat := by
  have hw : 0 < w := Nat.pos_of_ne_zero fun h => by
    subst h
    have hlt := x.isLt
    omega
  have hone : (1#w).toNat = 1 := by
    rw [BitVec.toNat_ofNat, Nat.mod_eq_of_lt (Nat.one_lt_two_pow hw.ne')]
  have hpred : (x - 1#w).toNat = x.toNat - 1 := by
    rw [BitVec.toNat_sub_of_le (by rw [BitVec.le_def, hone]; exact hpos), hone]
  have hsize : (x - 1#w).toNat.size ≤ w - 1 := by
    rw [Nat.size_le, hpred]
    omega
  have hceil : (ceilToPow2 x).toNat = 2 ^ (x.toNat - 1).size := by
    rw [toNat_ceilToPow2, ← hpred, Nat.mod_eq_of_lt (Nat.pow_lt_pow_right (by omega) (by omega))]
  rw [hceil]
  refine ⟨⟨⟨_, rfl⟩, ?_⟩, ?_⟩
  · have := Nat.lt_size_self (x.toNat - 1)
    omega
  · rintro n ⟨⟨j, rfl⟩, hj⟩
    refine Nat.pow_le_pow_right (by omega) (Nat.size_le.mpr ?_)
    omega

/-- Where the next power of two does not fit, and for zero, the result has wrapped. -/
theorem ceilToPow2_eq_zero {x : BitVec w} (h : x = 0 ∨ 2 ^ (w - 1) < x.toNat) :
    ceilToPow2 x = 0 := by
  rcases Nat.eq_zero_or_pos w with rfl | hw
  · exact Subsingleton.elim _ _
  have hpow := Wrap.two_pow_eq hw
  have hone : (1#w).toNat = 1 := by
    rw [BitVec.toNat_ofNat, Nat.mod_eq_of_lt (Nat.one_lt_two_pow hw.ne')]
  have hhigh : 2 ^ (w - 1) ≤ (x - 1#w).toNat := by
    rcases h with rfl | h
    · rw [BitVec.toNat_sub, hone, BitVec.ofNat_eq_ofNat, BitVec.toNat_ofNat, Nat.zero_mod,
        Nat.add_zero, Nat.mod_eq_of_lt (by omega)]
      omega
    · rw [BitVec.toNat_sub_of_le (by rw [BitVec.le_def, hone]; omega), hone]
      omega
  have hdvd : 2 ^ w ∣ 2 ^ (x - 1#w).toNat.size :=
    pow_dvd_pow 2 (by have := Nat.lt_size.mpr hhigh; omega)
  apply BitVec.eq_of_toNat_eq
  rw [toNat_ceilToPow2, Nat.mod_eq_zero_of_dvd hdvd]
  simp

end ConcurrentQueue
