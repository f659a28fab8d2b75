import ConcurrentQueue.ExplicitIndex

/-!
# ConcurrentQueue.ExplicitInv

**The producer's invariant**: what holds of an explicit producer between calls.
`View` has what the machine words leave out (the counters before they wrap, the
numbers of the blocks), and `Inv e st v l` says that the state `st` is the one
described by `v` and that the queue holds the list `l`.

The blocks of the ring are those of `head` up to the tail, preceded by empty
ones; together they never span more than half the index range, which is what
makes the comparisons of wrapped counters come out right.
-/

namespace ConcurrentQueue.Explicit

open Wrap

variable {α : Type}

/-! ### The invariant -/

structure View where
  /-- The block with a given number. -/
  β : Nat → Nat
  s : Nat
  t : Nat
  c : Nat
  k : Nat
  tail : Nat
  head : Nat

variable (e : Env)

/-- The index holds the blocks `a ≤ q < t`, and counts those from `s` on. There
is no index at all if none could be allocated so far. -/
structure IndexAt (p : ExplicitProducer e.bits) (β : Nat → Nat) (a s t c k : Nat) : Prop where
  slots : p.prBlockIndexSlotsUsed = BitVec.ofNat e.bits (t - s)
  size : p.prBlockIndexSize = BitVec.ofNat e.bits (2 ^ k)
  klt : k < e.bits
  le : s ≤ t
  room : t ≤ s + 2 ^ k
  start : a ≤ s
  index : (p.blockIndex = none ∧ s = t ∧ k + 1 < e.bits) ∨ ∃ h, Index e p h β a t c k

/-- Consumers see the newest entry as the front. -/
def Exposed (p : ExplicitProducer e.bits) (t c k : Nat) : Prop :=
  ∃ h, p.blockIndex = some h ∧ h.front = BitVec.ofNat e.bits ((c + (t - 1)) % 2 ^ k)

structure Inv (st : State e.bits α) (v : View) (l : List α) : Prop where
  ring : Ring e st.mem v.β v.s v.t (slotAt v.head l) (marked e.BLOCK_SIZE v.head)
  index : IndexAt e st.prod v.β v.s v.s v.t v.c v.k
  exposed : v.s < v.t → Exposed e st.prod v.t v.c v.k
  tailIndex : st.prod.tailIndex = BitVec.ofNat e.bits v.tail
  headIndex : st.prod.headIndex = BitVec.ofNat e.bits v.head
  optimistic :
    st.prod.dequeueOptimisticCount - st.prod.dequeueOvercommit = st.prod.headIndex
  tailBlock : st.prod.tailBlock = if v.s < v.t then some (v.β (v.t - 1)) else none
  len : v.head + l.length = v.tail
  oldest : v.s * e.BLOCK_SIZE ≤ v.head
  newest : v.tail ≤ v.t * e.BLOCK_SIZE ∧ v.t * e.BLOCK_SIZE < v.tail + e.BLOCK_SIZE
  bound : (v.t - v.s) * e.BLOCK_SIZE ≤ 2 ^ (e.bits - 1)
  small : v.s < v.t → e.BLOCK_SIZE < 2 ^ (e.bits - 1)
  pos : 0 < v.tail

variable {e} {p : ExplicitProducer e.bits} {β : Nat → Nat} {a s t c k : Nat} {mem : Mem α}

/-! ### Room on the index -/

namespace IndexAt

theorem congr (hi : IndexAt e p β a s t c k) {p' : ExplicitProducer e.bits}
    (hu : p'.prBlockIndexSlotsUsed = p.prBlockIndexSlotsUsed)
    (hb : p'.blockIndex = p.blockIndex) (hs : p'.prBlockIndexSize = p.prBlockIndexSize)
    (hf : p'.prBlockIndexFront = p.prBlockIndexFront) : IndexAt e p' β a s t c k where
  slots := hu.trans hi.slots
  size := hs.trans hi.size
  klt := hi.klt
  le := hi.le
  room := hi.room
  start := hi.start
  index := by
    rcases hi.index with ⟨hnone, hst⟩ | ⟨h, hh⟩
    · exact .inl ⟨hb.trans hnone, hst⟩
    · exact .inr ⟨h, hh.congr hb hs hf⟩

theorem indexFull_iff (hi : IndexAt e p β a s t c k) :
    indexFull e (⟨mem, p⟩ : State e.bits α) = true ↔ p.blockIndex = none ∨ t - s = 2 ^ k := by
  have hle := hi.room
  have hpos := Nat.two_pow_pos k
  have hpow : 2 ^ k < 2 ^ e.bits := Nat.pow_lt_pow_right (by omega) hi.klt
  rw [indexFull, Bool.or_eq_true, Option.isNone_iff_eq_none, beq_iff_eq, hi.slots, hi.size,
    ofNat_inj (by omega) (by omega)]

/-- With room on the index there is an index, and one more block fits. -/
theorem of_not_full (hi : IndexAt e p β a s t c k)
    (hf : indexFull e (⟨mem, p⟩ : State e.bits α) = false) :
    t < s + 2 ^ k ∧ ∃ h, Index e p h β a t c k := by
  have hnot : ¬ (p.blockIndex = none ∨ t - s = 2 ^ k) := fun h => by
    rw [hi.indexFull_iff.mpr h] at hf
    cases hf
  push Not at hnot
  have hle := hi.room
  have hpos := Nat.two_pow_pos k
  refine ⟨by omega, hi.index.resolve_left fun h => hnot.1 h.1⟩

end IndexAt

/-- A new index, or a failed attempt to get one that changes nothing else. -/
theorem newBlockIndex_spec (hi : IndexAt e p β a s t c k) (hk : k + 1 < e.bits) (mem : Mem α)
    (expose : BitVec e.bits) :
    (e.mallocOk mem.mallocs = true ∧ ∃ h', h'.front = expose - 1#e.bits ∧
      newBlockIndex e expose (⟨mem, p⟩ : State e.bits α) = some
        (⟨{ mem with mallocs := mem.mallocs + 1 }, { p with
          prBlockIndexSize := BitVec.ofNat e.bits (2 ^ (k + 1))
          prBlockIndexFront := BitVec.ofNat e.bits (t - s)
          blockIndex := some h' }⟩, true) ∧
      IndexAt e { p with
          prBlockIndexSize := BitVec.ofNat e.bits (2 ^ (k + 1))
          prBlockIndexFront := BitVec.ofNat e.bits (t - s)
          blockIndex := some h' } β s s t ((2 ^ (k + 1) - 1) * s) (k + 1)) ∨
    (e.mallocOk mem.mallocs = false ∧
      newBlockIndex e expose (⟨mem, p⟩ : State e.bits α) =
        some (⟨{ mem with mallocs := mem.mallocs + 1 }, p⟩, false)) := by
  cases hm : e.mallocOk mem.mallocs with
  | true =>
      have hold : s = t ∨ ∃ h a c, Index e p h β a t c k ∧ a ≤ s := by
        rcases hi.index with ⟨-, hst, -⟩ | ⟨h, hh⟩
        · exact .inl hst
        · exact .inr ⟨h, a, c, hh, hi.start⟩
      obtain ⟨h', hfront, hnew, hindex⟩ :=
        newBlockIndex_ok hk hi.size hi.le hi.slots hi.room hold hm expose
      have hroom := hi.room
      have hpos := Nat.two_pow_pos k
      have hpow : 2 ^ (k + 1) = 2 ^ k + 2 ^ k := by omega
      refine .inl ⟨rfl, h', hfront, hnew, ⟨hi.slots, rfl, hk, hi.le, by omega, le_rfl,
        .inr ⟨h', hindex⟩⟩⟩
  | false => exact .inr ⟨rfl, newBlockIndex_failed hk hi.size hm expose⟩

/-! ### A fresh producer -/

/-- The constructor starts from half the size the first index will have. -/
theorem init_size : ∃ k, k + 1 < e.bits ∧ e.explicitIndexLog ≤ k + 1 ∧
    (init e).prBlockIndexSize = BitVec.ofNat e.bits (2 ^ k) := by
  have hlog := e.explicitIndexLog_lt
  have hpos := e.explicitIndexLog_pos
  have hindex : e.EXPLICIT_INITIAL_INDEX_SIZE >>> 1 = 2 ^ (e.explicitIndexLog - 1) := by
    rw [Traits.EXPLICIT_INITIAL_INDEX_SIZE, Nat.shiftRight_eq_div_pow]
    exact Nat.pow_div hpos (by omega)
  have hsmall : 2 ^ (e.explicitIndexLog - 1) < 2 ^ e.bits :=
    Nat.pow_lt_pow_right (by omega) (by omega)
  simp only [init]
  split
  case isTrue hlt =>
      -- the size derived from the pool is positive, hence a power of two
      have hceil : ceilToPow2 (BitVec.ofNat e.bits e.initialBlockPoolSize) ≠ 0 := fun hzero => by
        rw [hzero] at hlt
        simp at hlt
      have hrange : 0 < (BitVec.ofNat e.bits e.initialBlockPoolSize).toNat ∧
          (BitVec.ofNat e.bits e.initialBlockPoolSize).toNat ≤ 2 ^ (e.bits - 1) := by
        constructor
        · refine Nat.pos_of_ne_zero fun hzero => hceil (ceilToPow2_eq_zero (.inl ?_))
          exact BitVec.eq_of_toNat_eq (by rw [hzero]; simp)
        · exact not_lt.mp fun hgt => hceil (ceilToPow2_eq_zero (.inr hgt))
      obtain ⟨⟨n, hn⟩, -⟩ := (isLeast_ceilToPow2 hrange.1 hrange.2).1
      have hnlt : n < e.bits := by
        have hlt := (ceilToPow2 (BitVec.ofNat e.bits e.initialBlockPoolSize)).isLt
        rw [hn] at hlt
        exact (Nat.pow_lt_pow_iff_right Nat.one_lt_two).mp hlt
      rw [BitVec.lt_def, BitVec.toNat_ushiftRight, hn, hindex, Nat.shiftRight_eq_div_pow,
        BitVec.toNat_ofNat, Nat.mod_eq_of_lt hsmall] at hlt
      have hn0 : n ≠ 0 := fun h0 => by
        rw [h0] at hlt
        omega
      rw [Nat.pow_div (by omega) (by omega), Nat.pow_lt_pow_iff_right Nat.one_lt_two] at hlt
      refine ⟨n - 1, by omega, by omega, BitVec.eq_of_toNat_eq ?_⟩
      rw [BitVec.toNat_ushiftRight, hn, Nat.shiftRight_eq_div_pow, Nat.pow_div (by omega)
        (by omega), BitVec.toNat_ofNat,
        Nat.mod_eq_of_lt (Nat.pow_lt_pow_right (by omega) (by omega))]
  case isFalse => exact ⟨e.explicitIndexLog - 1, by omega, by omega, by rw [hindex]⟩

/-- The constructor establishes the invariant. The counters start at zero, which
the view takes for a full turn, so that there is a block before the first. -/
theorem create_inv (hmem : mem.WellFormed e) :
    ∃ st v, create e mem = some st ∧ Inv e st v ([] : List α) := by
  obtain ⟨k, hk, -, hsize⟩ := init_size (e := e)
  have hpow := Nat.two_pow_pos e.bits
  let n := 2 ^ e.bits / e.BLOCK_SIZE
  have hn : n * e.BLOCK_SIZE = 2 ^ e.bits :=
    Nat.div_mul_cancel (pow_dvd_pow 2 e.blockLog_lt.le)
  have hB := e.BLOCK_SIZE_pos
  have hpos := Nat.two_pow_pos k
  have hindex : IndexAt e (init e) (fun _ => 0) n n n 0 k :=
    ⟨by rw [Nat.sub_self]; rfl, hsize, by omega, le_rfl, by omega, le_rfl, .inl ⟨rfl, rfl, hk⟩⟩
  -- the invariant for any state without blocks
  have hinv : ∀ (mem' : Mem α) (q : ExplicitProducer e.bits) (c' k' : Nat), mem'.WellFormed e →
      IndexAt e q (fun _ => 0) n n n c' k' → q.tailIndex = 0 → q.headIndex = 0 →
      q.dequeueOptimisticCount = 0 → q.dequeueOvercommit = 0 → q.tailBlock = none →
      Inv e ⟨mem', q⟩ ⟨fun _ => 0, n, n, c', k', 2 ^ e.bits, 2 ^ e.bits⟩ [] := by
    intro mem' q c' k' hwf hq htail hhead hopt hover htb
    have hzero : (0 : BitVec e.bits) = BitVec.ofNat e.bits (2 ^ e.bits) := by
      apply BitVec.eq_of_toNat_eq
      rw [BitVec.toNat_ofNat, Nat.mod_self]
      rfl
    refine ⟨⟨hwf, ?_, ?_, ?_, ?_, ?_⟩, hq, ?_, ?_, ?_, ?_, ?_, rfl, ?_, ?_, ?_, ?_, hpow⟩
    · intro q q' hs ht
      dsimp only at hs ht
      omega
    · intro q hs ht
      dsimp only at hs ht
      omega
    · intro q hs ht
      dsimp only at hs ht
      omega
    · intro q i hs ht
      dsimp only at hs ht
      omega
    · intro q hs ht
      dsimp only at hs ht
      omega
    · intro hst
      dsimp only at hst
      omega
    · rw [← hzero]
      exact htail
    · rw [← hzero]
      exact hhead
    · show q.dequeueOptimisticCount - q.dequeueOvercommit = q.headIndex
      rw [hopt, hover, hhead]
      exact BitVec.sub_self 0
    · rw [if_neg (by dsimp only; omega)]
      exact htb
    · exact hn.le
    · exact ⟨hn.ge, by dsimp only; omega⟩
    · simp
    · intro hst
      dsimp only at hst
      omega
  rcases newBlockIndex_spec hindex hk mem 0#e.bits with
    ⟨-, h', -, hnew, hindex'⟩ | ⟨-, hnew⟩
  · refine ⟨_, _, by rw [create, hnew]; rfl, hinv _ _ _ _ ?_ hindex' rfl rfl rfl rfl rfl⟩
    exact ⟨hmem.nodup, hmem.listed, hmem.vacant⟩
  · refine ⟨_, _, by rw [create, hnew]; rfl, hinv _ _ _ _ ?_ hindex rfl rfl rfl rfl rfl⟩
    exact ⟨hmem.nodup, hmem.listed, hmem.vacant⟩

theorem create_of_malloc {mem : Mem α} (hm : e.mallocOk mem.mallocs = true) :
    create e mem = some ⟨{ mem with mallocs := mem.mallocs + 1 }, { init e with
      prBlockIndexSize := (init e).prBlockIndexSize <<< 1
      prBlockIndexFront := 0
      blockIndex := some ⟨(init e).prBlockIndexSize <<< 1, 0#e.bits - 1#e.bits,
        fun _ => none⟩ }⟩ := by
  simp only [create, newBlockIndex, Mem.malloc, hm]
  rfl

/-- The constructor's index. Where it cannot be allocated, the size is kept at half of what
the next attempt asks for. -/
theorem create_size (mem : Mem α) : ∃ st j, create e mem = some st ∧ j < e.bits ∧
    e.EXPLICIT_INITIAL_INDEX_SIZE ≤ 2 ^ j ∧
    if e.mallocOk mem.mallocs then ∃ h, st.prod.blockIndex = some h ∧
      h.size.toNat = 2 ^ j ∧ st.prod.prBlockIndexSize.toNat = 2 ^ j
    else st.prod.blockIndex = none ∧ (st.prod.prBlockIndexSize <<< 1).toNat = 2 ^ j := by
  obtain ⟨k, hk, hlog, hsize⟩ := init_size (e := e)
  have hle : e.EXPLICIT_INITIAL_INDEX_SIZE ≤ 2 ^ (k + 1) := Nat.pow_le_pow_right (by omega) hlog
  have hdouble : (BitVec.ofNat e.bits (2 ^ k) <<< 1).toNat = 2 ^ (k + 1) := by
    rw [size_double, BitVec.toNat_ofNat, Nat.mod_eq_of_lt (Nat.pow_lt_pow_right (by omega) hk)]
  cases hm : e.mallocOk mem.mallocs with
  | true =>
      refine ⟨_, k + 1, create_of_malloc hm, hk, hle, ?_⟩
      rw [if_pos rfl]
      exact ⟨_, rfl, by rw [hsize, hdouble], by rw [hsize, hdouble]⟩
  | false =>
      refine ⟨_, k + 1, by rw [create, newBlockIndex_failed hk hsize hm]; rfl, hk, hle, ?_⟩
      rw [if_neg Bool.false_ne_true]
      exact ⟨rfl, by rw [hsize, hdouble]⟩

end ConcurrentQueue.Explicit
