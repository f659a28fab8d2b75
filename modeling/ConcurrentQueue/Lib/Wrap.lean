import Mathlib.Data.Nat.Bitwise
import Mathlib.Tactic

/-!
# ConcurrentQueue.Lib.Wrap

**Counters that wrap.** A `w`-bit counter that only ever grows is the image
`BitVec.ofNat w n` of an unbounded natural `n`. As long as two such naturals
stay within `2^w` of one another, the machine operations on their images (
difference, masks, signed division) are the natural ones on the naturals, on
whichever side of a wrap point they lie.
-/

namespace Wrap

variable {w k a b : Nat}

/-! ### Differences -/

theorem ofNat_sub (h : b ≤ a) :
    BitVec.ofNat w a - BitVec.ofNat w b = BitVec.ofNat w (a - b) := by
  obtain ⟨d, rfl⟩ := Nat.exists_eq_add_of_le h
  rw [BitVec.ofNat_add, Nat.add_sub_cancel_left]
  exact BitVec.eq_sub_iff_add_eq.mpr (BitVec.add_comm _ _) |>.symm

theorem toNat_ofNat_sub (h : b ≤ a) (hlt : a - b < 2 ^ w) :
    (BitVec.ofNat w a - BitVec.ofNat w b).toNat = a - b := by
  rw [ofNat_sub h, BitVec.toNat_ofNat, Nat.mod_eq_of_lt hlt]

theorem ofNat_sub_eq_neg (h : a ≤ b) :
    BitVec.ofNat w a - BitVec.ofNat w b = -BitVec.ofNat w (b - a) := by
  rw [← ofNat_sub h, BitVec.neg_sub, BitVec.sub_eq_add_neg, BitVec.add_comm]

theorem toNat_ofNat_sub_of_lt (h : a < b) (hle : b - a < 2 ^ w) :
    (BitVec.ofNat w a - BitVec.ofNat w b).toNat = 2 ^ w - (b - a) := by
  rw [ofNat_sub_eq_neg h.le, BitVec.toNat_neg, BitVec.toNat_ofNat, Nat.mod_eq_of_lt hle,
    Nat.mod_eq_of_lt (by omega)]

theorem ofNat_add_two_pow (a : Nat) : BitVec.ofNat w (a + 2 ^ w) = BitVec.ofNat w a := by
  apply BitVec.eq_of_toNat_eq
  rw [BitVec.toNat_ofNat, BitVec.toNat_ofNat, Nat.add_mod_right]

/-- Counters that are close are equal only if the naturals are. -/
theorem ofNat_inj (h : a ≤ b) (hlt : b - a < 2 ^ w) :
    BitVec.ofNat w a = BitVec.ofNat w b ↔ a = b := by
  constructor
  · intro e
    have hd := toNat_ofNat_sub h hlt
    rw [e, BitVec.sub_self] at hd
    have : b - a = 0 := by simpa using hd.symm
    omega
  · rintro rfl
    rfl

/-! ### Masks -/

theorem ofNat_and_low : BitVec.ofNat w a &&& BitVec.ofNat w (2 ^ k - 1) =
    BitVec.ofNat w (a % 2 ^ k) := by
  rw [← BitVec.ofNat_and, Nat.and_two_pow_sub_one_eq_mod]

theorem toNat_ofNat_mod (hk : k ≤ w) : (BitVec.ofNat w (a % 2 ^ k)).toNat = a % 2 ^ k := by
  rw [BitVec.toNat_ofNat, Nat.mod_eq_of_lt]
  exact lt_of_lt_of_le (Nat.mod_lt _ (Nat.two_pow_pos k)) (Nat.pow_le_pow_right (by omega) hk)

theorem ofNat_and_low_eq_zero (hk : k ≤ w) :
    BitVec.ofNat w a &&& BitVec.ofNat w (2 ^ k - 1) = 0 ↔ a % 2 ^ k = 0 := by
  rw [ofNat_and_low]
  constructor
  · intro h
    have := congrArg BitVec.toNat h
    rwa [toNat_ofNat_mod hk] at this
  · intro h
    rw [h]
    rfl

/-- Clearing the low bits rounds down to a multiple of `2^k`. -/
theorem ofNat_and_high : BitVec.ofNat w a &&& ~~~BitVec.ofNat w (2 ^ k - 1) =
    BitVec.ofNat w (a / 2 ^ k * 2 ^ k) := by
  refine BitVec.eq_of_getLsbD_eq fun i hi => ?_
  simp only [BitVec.getLsbD_and, BitVec.getLsbD_not, BitVec.getLsbD_ofNat, hi, decide_true,
    Bool.true_and, Nat.testBit_two_pow_sub_one, Nat.testBit_mul_two_pow]
  by_cases hik : k ≤ i
  · have hnot : ¬ i < k := by omega
    simp [hik, hnot, Nat.testBit_div_two_pow]
  · have hlt : i < k := by omega
    simp [hik, hlt]

/-- The low bits of `y`, when `y` is known up to a summand. -/
theorem and_low_of_add_eq {y : BitVec w} {m n : Nat} (hk : k ≤ w)
    (hy : y + BitVec.ofNat w b = BitVec.ofNat w n) (hm : (m + b) % 2 ^ k = n % 2 ^ k) :
    y &&& BitVec.ofNat w (2 ^ k - 1) = BitVec.ofNat w (m % 2 ^ k) := by
  have hdvd : 2 ^ k ∣ 2 ^ w := pow_dvd_pow 2 hk
  have hsum : (y.toNat + b) % 2 ^ k = (m + b) % 2 ^ k := by
    have h := congrArg (fun z : BitVec w => z.toNat % 2 ^ k) hy
    simp only [BitVec.toNat_add, BitVec.toNat_ofNat, Nat.add_mod_mod,
      Nat.mod_mod_of_dvd _ hdvd] at h
    rw [h, hm]
  have hlow : y.toNat % 2 ^ k = m % 2 ^ k := Nat.ModEq.add_right_cancel' b hsum
  have hself : y = BitVec.ofNat w y.toNat := by simp
  rw [hself, ofNat_and_low, hlow]

/-! ### Signed division -/

theorem two_pow_eq (hw : 0 < w) : 2 ^ w = 2 * 2 ^ (w - 1) := by
  rw [← pow_succ', Nat.sub_add_cancel hw]

/-- Up to half the range, the signed reading of a value is the value. -/
theorem bmod_two_pow (hw : 0 < w) {x : Int} (hlo : -2 ^ (w - 1) ≤ x) (hhi : x < 2 ^ (w - 1)) :
    x.bmod (2 ^ w) = x := by
  have hpow : ((2 ^ w : Nat) : Int) = 2 * 2 ^ (w - 1) := by exact_mod_cast two_pow_eq hw
  exact Int.bmod_eq_of_le (by omega) (by omega)

theorem toInt_neg_ofNat (hw : 0 < w) (h : a ≤ 2 ^ (w - 1)) :
    (-BitVec.ofNat w a).toInt = -(a : Int) := by
  have hcast : (a : Int) ≤ 2 ^ (w - 1) := by exact_mod_cast h
  have hpos : (0 : Int) < 2 ^ (w - 1) := by positivity
  rw [BitVec.toInt_neg, BitVec.toInt_ofNat', Int.bmod_neg_bmod, bmod_two_pow hw] <;> omega

/-- The number of blocks of size `2^k` between two block boundaries, with the
sign of the difference kept across a wrap. -/
theorem sdiv_blocks {p q : Nat} (hk : k + 1 < w) (hqp : q ≤ p)
    (h : (p - q) * 2 ^ k ≤ 2 ^ (w - 1)) :
    (BitVec.ofNat w (q * 2 ^ k) - BitVec.ofNat w (p * 2 ^ k)).sdiv (BitVec.ofNat w (2 ^ k)) =
      BitVec.ofNat w q - BitVec.ofNat w p := by
  have hd : p - q ≤ 2 ^ (w - 1) :=
    (Nat.le_mul_of_pos_right _ (Nat.two_pow_pos k)).trans h
  have hkw : (2 : Int) ^ k < 2 ^ (w - 1) := by
    exact_mod_cast (Nat.pow_lt_pow_right (by omega) (by omega) : 2 ^ k < 2 ^ (w - 1))
  have hpos : (0 : Int) < 2 ^ k := by positivity
  have hb : (BitVec.ofNat w (2 ^ k)).toInt = 2 ^ k := by
    rw [BitVec.toInt_ofNat', bmod_two_pow (by omega)] <;> push_cast <;> omega
  have hdiv : (-(((p - q) * 2 ^ k : Nat) : Int)).tdiv (2 ^ k) = -((p - q : Nat) : Int) := by
    push_cast
    rw [Int.neg_tdiv, Int.mul_tdiv_cancel _ hpos.ne']
  rw [ofNat_sub_eq_neg (Nat.mul_le_mul_right _ hqp), ofNat_sub_eq_neg hqp, ← Nat.sub_mul]
  apply BitVec.eq_of_toInt_eq
  rw [BitVec.toInt_sdiv, toInt_neg_ofNat (by omega) h, toInt_neg_ofNat (by omega) hd, hb, hdiv]
  have hcast : ((p - q : Nat) : Int) ≤ 2 ^ (w - 1) := by exact_mod_cast hd
  exact bmod_two_pow (by omega) (by omega) (by omega)

/-- The same the other way round. -/
theorem sdiv_blocks_of_ge {p q : Nat} (hk : k + 1 < w) (hpq : p ≤ q)
    (h : (q - p) * 2 ^ k < 2 ^ (w - 1)) :
    (BitVec.ofNat w (q * 2 ^ k) - BitVec.ofNat w (p * 2 ^ k)).sdiv (BitVec.ofNat w (2 ^ k)) =
      BitVec.ofNat w q - BitVec.ofNat w p := by
  have hd : q - p < 2 ^ (w - 1) :=
    (Nat.le_mul_of_pos_right _ (Nat.two_pow_pos k)).trans_lt h
  have hpow : (2 : Nat) ^ k < 2 ^ (w - 1) := Nat.pow_lt_pow_right (by omega) (by omega)
  have hval : ∀ {n : Nat}, n < 2 ^ (w - 1) → (BitVec.ofNat w n).toInt = n := by
    intro n hn
    have hcast : (n : Int) < 2 ^ (w - 1) := by exact_mod_cast hn
    rw [BitVec.toInt_ofNat', bmod_two_pow (by omega) (by omega) hcast]
  have hpos : (0 : Int) < 2 ^ k := by positivity
  rw [ofNat_sub (Nat.mul_le_mul_right _ hpq), ofNat_sub hpq, ← Nat.sub_mul]
  apply BitVec.eq_of_toInt_eq
  rw [BitVec.toInt_sdiv, hval h, hval hd, hval hpow]
  push_cast
  rw [Int.mul_tdiv_cancel _ hpos.ne']
  have hcast : ((q - p : Nat) : Int) < 2 ^ (w - 1) := by exact_mod_cast hd
  exact_mod_cast bmod_two_pow (by omega) (by omega) hcast

/-! ### Slots on a circle

A circular array of `2^k` slots has the item with number `n` in slot `n % 2^k`. -/

theorem toNat_slot (hk : k ≤ w) : (BitVec.ofNat w (a % 2 ^ k)).toNat = a % 2 ^ k :=
  toNat_ofNat_mod hk

theorem slot_lt_size (hk : k < w) : BitVec.ofNat w (a % 2 ^ k) < BitVec.ofNat w (2 ^ k) := by
  rw [BitVec.lt_def, toNat_slot hk.le, BitVec.toNat_ofNat,
    Nat.mod_eq_of_lt (Nat.pow_lt_pow_right (by omega) hk)]
  exact Nat.mod_lt _ (Nat.two_pow_pos k)

theorem size_sub_one : BitVec.ofNat w (2 ^ k) - 1#w = BitVec.ofNat w (2 ^ k - 1) :=
  ofNat_sub (Nat.two_pow_pos k)

theorem size_double : BitVec.ofNat w (2 ^ k) <<< 1 = BitVec.ofNat w (2 ^ (k + 1)) := by
  apply BitVec.eq_of_toNat_eq
  rw [BitVec.toNat_shiftLeft, BitVec.toNat_ofNat, BitVec.toNat_ofNat, Nat.shiftLeft_eq,
    Nat.mod_mul_mod, pow_one, ← pow_succ]

/-- The next slot. -/
theorem slot_succ : (BitVec.ofNat w (a % 2 ^ k) + 1#w) &&& (BitVec.ofNat w (2 ^ k) - 1#w) =
    BitVec.ofNat w ((a + 1) % 2 ^ k) := by
  rw [size_sub_one, BitVec.ofNat_add_ofNat, ofNat_and_low, Nat.mod_add_mod]

/-- The slot `d` before slot `a + d`. -/
theorem slot_sub (hk : k ≤ w) {d : Nat} :
    (BitVec.ofNat w ((a + d) % 2 ^ k) - BitVec.ofNat w d) &&& (BitVec.ofNat w (2 ^ k) - 1#w) =
      BitVec.ofNat w (a % 2 ^ k) := by
  rw [size_sub_one]
  refine and_low_of_add_eq hk (BitVec.sub_add_cancel _ _) ?_
  rw [Nat.mod_mod]

/-- Numbering the slots so that item `s` is in slot zero. -/
theorem compact_slot {S s q : Nat} (hS : 0 < S) (hsq : s ≤ q) (hq : q < s + S) :
    ((S - 1) * s + q) % S = q - s := by
  obtain ⟨d, rfl⟩ := Nat.exists_eq_add_of_le hsq
  have hsum : (S - 1) * s + (s + d) = S * s + d := by
    rw [← Nat.add_assoc, ← Nat.succ_mul, Nat.succ_eq_add_one, Nat.sub_add_cancel hS]
  rw [hsum, Nat.mul_add_mod, Nat.mod_eq_of_lt (by omega)]
  omega

/-- Positions on a circle of `S` slots that are less than a lap apart differ. -/
theorem mod_ne {S c q q' : Nat} (hlt : q < q') (hlap : q' < q + S) :
    (c + q) % S ≠ (c + q') % S := by
  intro h
  have hmod : q ≡ q' [MOD S] := Nat.ModEq.add_left_cancel' c h
  have hdvd := (Nat.modEq_iff_dvd' hlt.le).mp hmod
  have := Nat.le_of_dvd (by omega) hdvd
  omega

/-- In a lap every position is reached. -/
theorem exists_mod_eq {S i : Nat} (hi : i < S) (c s : Nat) :
    ∃ q, s ≤ q ∧ q < s + S ∧ i = (c + q) % S := by
  have hr := Nat.mod_lt (c + s) (Nat.zero_lt_of_lt hi)
  refine ⟨s + (i + (S - (c + s) % S)) % S, Nat.le_add_right .., ?_, ?_⟩
  · exact Nat.add_lt_add_left (Nat.mod_lt _ (Nat.zero_lt_of_lt hi)) s
  · rw [← Nat.add_assoc, Nat.add_mod, Nat.mod_mod, ← Nat.add_mod_mod, Nat.mod_mod,
      Nat.add_mod_mod, show (c + s) % S + (i + (S - (c + s) % S)) = i + S by omega,
      Nat.add_mod_right, Nat.mod_eq_of_lt hi]

/-! ### Blocks of indices -/

theorem block_le {B q t : Nat} (h : q < t) : q * B + B ≤ t * B := by
  rw [← Nat.succ_mul]
  exact Nat.mul_le_mul_right B h

theorem block_div {B q i : Nat} (h : i < B) : (q * B + i) / B = q := by
  rw [Nat.mul_comm, Nat.mul_add_div (by omega), Nat.div_eq_of_lt h, Nat.add_zero]

theorem block_mod {B q i : Nat} (h : i < B) : (q * B + i) % B = i := by
  rw [Nat.mul_comm, Nat.mul_add_mod, Nat.mod_eq_of_lt h]

theorem block_add (B n : Nat) : n / B * B + n % B = n := Nat.div_add_mod' n B

end Wrap
