import ConcurrentQueue.HalfRange

/-!
# ConcurrentQueue.Capacity

**How many blocks a queue of `N` elements can need.** The blocks of an implicit producer are
those from the head to the tail: all but two of them are full of elements. An explicit producer
never gives a block back, but it inserts one only when the oldest block of its ring still holds
an element and the others are full, so the ring never has more blocks than `N` elements alone
could need (`cap`). While a producer can have that many, an enqueue that stays within `N`
elements succeeds, and the allocator is not asked (`enqueue_pooled`).
-/

namespace ConcurrentQueue

open Wrap
open Option (bind_eq_bind bind_eq_some_iff map_some)

variable {α : Type} {e : Env}

/-- The blocks that a producer needs for `k` elements: an implicit one now, and an explicit one
at any time when the queue never holds more than `N`. -/
def cap (B N : Nat) (isExplicit : Bool) (k : Nat) : Nat :=
  if isExplicit then (N - 1) / B + 2 else (k - 1) / B + 2

theorem cap_explicit (B N k : Nat) : cap B N true k = (N - 1) / B + 2 := rfl

theorem cap_implicit (B N k : Nat) : cap B N false k = (k - 1) / B + 2 := rfl

/-- There is no limit for a sub-queue, and `N` elements and a block more are no more than half of
the index range. -/
structure Roomy (e : Env) (N : Nat) : Prop where
  unlimited : e.MAX_SUBQUEUE_SIZE = e.sizeMax
  pos : 1 ≤ N
  half : N + e.BLOCK_SIZE ≤ 2 ^ (e.bits - 1)

variable {N : Nat}

/-- Blocks that start within `N` elements of the head pass the leeway test. -/
theorem Roomy.full_eq_false (hN : Roomy e N) {head t : Nat} (hle : head ≤ t * e.BLOCK_SIZE)
    (hlt : t * e.BLOCK_SIZE < head + N) :
    full e (BitVec.ofNat e.bits head) (BitVec.ofNat e.bits (t * e.BLOCK_SIZE)) = false := by
  have hhalf := hN.half
  exact (Explicit.full_eq_false_iff hN.unlimited hle (by omega)).mpr (by omega)

/-! ### The explicit producer -/

namespace Explicit

variable {st st' : State e.bits α} {v : View} {l : List α}

/-- Blocks for the ring can be had as long as it needs no more than `N` elements ask for. -/
theorem Means.takeMany_pooled (hN : Roomy e N) (mode : AllocationMode) {head n : Nat} {m : Means}
    (hlast : n = 0 ∨ (m.t + n - 1) * e.BLOCK_SIZE < head + N) (hle : head ≤ m.t * e.BLOCK_SIZE)
    (hst : m.s ≤ m.t) (hindexed : m.indexed = true)
    (hk : (N - 1) / e.BLOCK_SIZE + 2 ≤ 2 ^ m.budget.k)
    (hring : m.t - m.s ≤ (N - 1) / e.BLOCK_SIZE + 2)
    (hfree : (N - 1) / e.BLOCK_SIZE + 2 ≤ m.budget.free + (m.t - m.s)) :
    ∃ m', m.takeMany e mode head n = some m' ∧ m'.indexed = true ∧ m'.budget.k = m.budget.k ∧
      m'.budget.mallocs = m.budget.mallocs ∧ m'.budget.created = m.budget.created ∧
      m'.t - m'.s ≤ (N - 1) / e.BLOCK_SIZE + 2 := by
  induction n generalizing m with
  | zero => exact ⟨m, rfl, hindexed, rfl, rfl, rfl, hring⟩
  | succ n ih =>
      have hB := e.BLOCK_SIZE_pos
      have hlast := hlast.resolve_left (Nat.succ_ne_zero n)
      have hbase : m.t * e.BLOCK_SIZE ≤ (m.t + (n + 1) - 1) * e.BLOCK_SIZE :=
        Nat.mul_le_mul_right _ (by omega)
      have hnext : ∀ t, t = m.t + 1 → n = 0 ∨ (t + n - 1) * e.BLOCK_SIZE < head + N := by
        rintro t rfl
        exact .inr (by rwa [show m.t + 1 + n - 1 = m.t + (n + 1) - 1 by omega])
      have hle' : head ≤ (m.t + 1) * e.BLOCK_SIZE := by
        rw [Nat.succ_mul]
        omega
      rw [Means.takeMany, Means.take]
      split
      case isTrue hreuse =>
        exact ih (m := { m with s := m.s + 1, t := m.t + 1 }) (hnext _ rfl) hle'
          (by dsimp only; omega) hindexed hk (by dsimp only; omega) (by dsimp only; omega)
      case isFalse hkeep =>
        -- the oldest block holds an element, so the blocks of the ring are needed
        have hneeded : m.t - m.s ≤ (N - 1) / e.BLOCK_SIZE + 1 := by
          rcases hst.lt_or_eq with hlt | heq
          · have hhead : head < m.s * e.BLOCK_SIZE + e.BLOCK_SIZE := by
              by_contra hge
              exact hkeep ⟨hlt, by omega⟩
            have hmul : (m.t - m.s) * e.BLOCK_SIZE ≤ N - 1 + e.BLOCK_SIZE := by
              rw [Nat.sub_mul]
              omega
            calc m.t - m.s = (m.t - m.s) * e.BLOCK_SIZE / e.BLOCK_SIZE :=
                  (Nat.mul_div_cancel _ hB).symm
              _ ≤ (N - 1 + e.BLOCK_SIZE) / e.BLOCK_SIZE := Nat.div_le_div_right hmul
              _ = (N - 1) / e.BLOCK_SIZE + 1 := Nat.add_div_right _ hB
          · rw [heq, Nat.sub_self]
            exact Nat.zero_le _
        have hfull := hN.full_eq_false hle (by omega)
        have hslot : m.slot e mode = some m.budget := if_pos ⟨hindexed, by omega⟩
        have hblock : m.budget.block e mode = some { m.budget with free := m.budget.free - 1 } :=
          if_pos (by omega)
        rw [Means.insert, hfull, hslot, Option.bind_some, hblock]
        exact ih (m := ⟨m.s, m.t + 1, true, { m.budget with free := m.budget.free - 1 }⟩)
          (hnext _ rfl) hle' (by dsimp only; omega) rfl hk (by dsimp only; omega)
          (by dsimp only; omega)

/-- The last block that `n` elements need starts within `N` elements of the head. -/
theorem Inv.needed_within (h : Inv e st v l) {n : Nat} (hroom : l.length + n ≤ N) :
    v.needed e n = 0 ∨ (v.t + v.needed e n - 1) * e.BLOCK_SIZE < v.head + N := by
  have hlen := h.len
  have hpos := h.pos
  have hdiv := Nat.div_mul_le_self (v.tail + n - 1) e.BLOCK_SIZE
  by_cases hzero : v.needed e n = 0
  · exact .inl hzero
  · have hlast : v.t + v.needed e n - 1 = (v.tail + n - 1) / e.BLOCK_SIZE := by
      unfold View.needed at hzero ⊢
      omega
    rw [hlast]
    exact .inr (by omega)

/-- The blocks that a call needs can be had. -/
theorem Inv.takeMany_pooled (h : Inv e st v l) (hN : Roomy e N) (mode : AllocationMode) {n : Nat}
    (hroom : l.length + n ≤ N) (hindexed : st.prod.blockIndex.isSome = true)
    (hk : (N - 1) / e.BLOCK_SIZE + 2 ≤ 2 ^ v.k) (hring : v.t - v.s ≤ (N - 1) / e.BLOCK_SIZE + 2)
    (hfree : (N - 1) / e.BLOCK_SIZE + 2 ≤ st.mem.freeBlocks e + (v.t - v.s)) :
    ∃ m', (v.means e st).takeMany e mode v.head (v.needed e n) = some m' ∧ m'.indexed = true ∧
      m'.budget.k = v.k ∧ m'.budget.mallocs = st.mem.mallocs ∧
      m'.budget.created = st.mem.created ∧ m'.t - m'.s ≤ (N - 1) / e.BLOCK_SIZE + 2 :=
  Means.takeMany_pooled hN mode (m := v.means e st) (h.needed_within hroom) h.head_le
    h.s_le_t hindexed hk hring hfree

/-- **An enqueue within `N` elements succeeds**, and the allocator is not asked. -/
theorem Inv.enqueue_pooled (h : Inv e st v l) (hN : Roomy e N) {c : Call e.bits α}
    (henq : c.isEnqueue = true) (hquiet : c.Quiet) (hroom : l.length + c.values.length ≤ N)
    (hindexed : st.prod.blockIndex.isSome = true)
    (hk : (N - 1) / e.BLOCK_SIZE + 2 ≤ 2 ^ v.k) (hring : v.t - v.s ≤ (N - 1) / e.BLOCK_SIZE + 2)
    (hfree : (N - 1) / e.BLOCK_SIZE + 2 ≤ st.mem.freeBlocks e + (v.t - v.s)) :
    ∃ st' v', Explicit.step e c st = some (st', .pushed (.returned true)) ∧
      Inv e st' v' (l ++ c.values) ∧
      v'.t - v'.s ≤ (N - 1) / e.BLOCK_SIZE + 2 ∧ st'.prod.blockIndex.isSome = true ∧
      v'.k = v.k ∧ st'.mem.mallocs = st.mem.mallocs ∧ st'.mem.created = st.mem.created := by
  -- a call that returns `true` has taken what it needs, and no other outcome is possible
  have hdone : ∀ {mode n} {v' : View} {st' : State e.bits α}, l.length + n ≤ N →
      (v.means e st).takeMany e mode v.head (v.needed e n) = some (v'.means e st') →
      v'.t - v'.s ≤ (N - 1) / e.BLOCK_SIZE + 2 ∧ st'.prod.blockIndex.isSome = true ∧
        v'.k = v.k ∧ st'.mem.mallocs = st.mem.mallocs ∧ st'.mem.created = st.mem.created := by
    intro mode n v' st' hn htake
    obtain ⟨m', hm', hindexed', hk', hmallocs, hcreated, hring'⟩ :=
      h.takeMany_pooled hN mode hn hindexed hk hring hfree
    obtain rfl := Option.some.inj (hm'.symm.trans htake)
    exact ⟨hring', hindexed', hk', hmallocs, hcreated⟩
  have hgets : ∀ {mode n}, l.length + n ≤ N →
      (v.means e st).takeMany e mode v.head (v.needed e n) ≠ none := by
    intro mode n hn hnone
    obtain ⟨m', hm', -⟩ := h.takeMany_pooled hN mode hn hindexed hk hring hfree
    rw [hnone] at hm'
    cases hm'
  cases c with
  | enqueue mode ctor x =>
      obtain ⟨st', r, hr, htrue, hfalse, hthrew⟩ := h.enqueue mode ctor x
      obtain rfl : r = .returned true := by
        cases r with
        | threw =>
            have hthrow := (hthrew rfl).1
            have hno : ctor.throws 0 = false := hquiet.1 0 Nat.one_pos
            rw [hno] at hthrow
            cases hthrow
        | returned ok =>
            cases ok with
            | false => exact absurd (hfalse rfl).2 (hgets hroom)
            | true => rfl
      obtain ⟨v', hinv, -, htake⟩ := htrue rfl
      exact ⟨st', v', by rw [Explicit.step, hr, map_some], hinv, hdone hroom htake⟩
  | enqueueBulk mode ctor xs =>
      have hroom' : l.length + xs.length ≤ N := hroom
      have hbits := e.two_pow_bits
      have hhalf := hN.half
      have hoff := e.offset_lt (st.prod.tailIndex - 1#e.bits)
      have hfits : Fits e st.prod.tailIndex xs.length := by
        unfold Fits
        omega
      have hsmall : e.BLOCK_SIZE < 2 ^ (e.bits - 1) := by
        have := hN.pos
        omega
      obtain ⟨st', r, hr, htrue, hfalse, hthrew⟩ := h.enqueueBulk mode ctor xs hfits fun _ => hsmall
      obtain rfl : r = .returned true := by
        cases r with
        | threw =>
            obtain ⟨⟨j, hj, hthrow⟩, -⟩ := hthrew rfl
            have hno : ctor.throws j = false := hquiet.1 j hj
            rw [hno] at hthrow
            cases hthrow
        | returned ok =>
            cases ok with
            | false => exact absurd (hfalse rfl).2 (hgets hroom)
            | true => rfl
      obtain ⟨v', hinv, -, htake⟩ := htrue rfl
      exact ⟨st', v', by rw [Explicit.step, hr, map_some], hinv, hdone hroom htake⟩
  | dequeue throws => cases henq
  | dequeueBulk max throwsAt => cases henq

theorem Inv.size_eq (h : Inv e st v l) :
    (st.prod.tailIndex - st.prod.headIndex).toNat = l.length := by
  have hlen := h.len
  have hle := h.length_le
  have hbits := e.two_pow_bits
  have hpos := Nat.two_pow_pos (e.bits - 1)
  rw [h.tailIndex, h.headIndex, toNat_ofNat_sub (by omega) (by omega)]
  omega

/-- Dequeues leave the index alone. -/
theorem dequeue_blockIndex {throws : Bool} {o : Popped α}
    (h : Explicit.dequeue e throws st = some (st', o)) :
    st'.prod.blockIndex = st.prod.blockIndex := by
  unfold Explicit.dequeue at h
  by_cases hne : circularLessThan (st.prod.dequeueOptimisticCount - st.prod.dequeueOvercommit)
      st.prod.tailIndex = true
  · simp only [if_pos hne, bind_eq_bind, bind_eq_some_iff] at h
    obtain ⟨b, -, ⟨x, b₁⟩, -, ⟨b₂, full⟩, -, heq⟩ := h
    cases heq
    rfl
  · simp only [if_neg hne] at h
    cases h
    rfl

theorem dequeueBulk_blockIndex {max : BitVec e.bits} {throwsAt : Option Nat} {o : Popped α}
    (h : Explicit.dequeueBulk e max throwsAt st = some (st', o)) :
    st'.prod.blockIndex = st.prod.blockIndex := by
  unfold Explicit.dequeueBulk Explicit.dequeueBulkOn at h
  by_cases hne : circularLessThan 0#e.bits (st.prod.tailIndex -
      (st.prod.dequeueOptimisticCount - st.prod.dequeueOvercommit)) = true
  · simp only [if_pos hne, bind_eq_bind, bind_eq_some_iff] at h
    obtain ⟨hdr, -, slot, -, ⟨xs, mem', threw⟩, -, heq⟩ := h
    cases heq
    exact (apply_ite ExplicitProducer.blockIndex ..).trans (ite_self _)
  · simp only [if_neg hne] at h
    cases h
    rfl

/-- The index that the constructor makes has a slot for each block of the pool. -/
theorem pool_le_init (hpool : e.initialBlockPoolSize ≤ 2 ^ (e.bits - 1)) {k : Nat} (hk : k < e.bits)
    (hsize : (init e).prBlockIndexSize = BitVec.ofNat e.bits (2 ^ k)) :
    e.initialBlockPoolSize ≤ 2 ^ (k + 1) := by
  rcases Nat.eq_zero_or_pos e.initialBlockPoolSize with hzero | hpos
  · rw [hzero]
    exact Nat.zero_le _
  · have hval : (BitVec.ofNat e.bits e.initialBlockPoolSize).toNat = e.initialBlockPoolSize := by
      rw [BitVec.toNat_ofNat, Nat.mod_eq_of_lt e.poolSize_lt]
    obtain ⟨⟨⟨n, hn⟩, hle⟩, -⟩ :=
      isLeast_ceilToPow2 (x := BitVec.ofNat e.bits e.initialBlockPoolSize)
        (by rw [hval]; exact hpos) (by rw [hval]; exact hpool)
    rw [hval, hn] at hle
    -- the constructor takes at least half of the rounded size
    have hhalf : (ceilToPow2 (BitVec.ofNat e.bits e.initialBlockPoolSize) >>> 1).toNat ≤
        (init e).prBlockIndexSize.toNat := by
      simp only [init]
      split
      case isTrue => exact le_rfl
      case isFalse hge => exact Nat.le_of_not_lt hge
    rw [hsize, BitVec.toNat_ushiftRight, hn, Nat.shiftRight_eq_div_pow, BitVec.toNat_ofNat,
      Nat.mod_eq_of_lt (Nat.pow_lt_pow_right (by omega) hk)] at hhalf
    have hstep : 2 ^ (k + 1) = 2 * 2 ^ k := Nat.pow_succ'
    rcases Nat.eq_zero_or_pos n with rfl | hn0
    · have := Nat.two_pow_pos k
      omega
    · have heven : 2 ^ n = 2 * 2 ^ (n - 1) := Wrap.two_pow_eq hn0
      omega

/-- A new producer whose index could be allocated. -/
theorem create_pooled {mem : Mem α} (hmem : mem.WellFormed e)
    (hpool : e.initialBlockPoolSize ≤ 2 ^ (e.bits - 1)) (hm : e.mallocOk mem.mallocs = true) :
    ∃ st v, create e mem = some st ∧ Inv e st v ([] : List α) ∧
      st.prod.blockIndex.isSome = true ∧ e.initialBlockPoolSize ≤ 2 ^ v.k := by
  obtain ⟨st, v, hcreate, hinv⟩ := create_inv hmem
  obtain ⟨k, hk, -, hsize⟩ := init_size (e := e)
  have hst := Option.some.inj (hcreate.symm.trans (create_of_malloc hm))
  refine ⟨st, v, hcreate, hinv, by rw [hst]; rfl, ?_⟩
  have hindex := hinv.index.size
  rw [hst] at hindex
  dsimp only at hindex
  rw [hsize, size_double] at hindex
  have hklt := hinv.index.klt
  have heq := congrArg BitVec.toNat hindex
  rw [BitVec.toNat_ofNat, BitVec.toNat_ofNat,
    Nat.mod_eq_of_lt (Nat.pow_lt_pow_right (by omega) hk),
    Nat.mod_eq_of_lt (Nat.pow_lt_pow_right (by omega) hklt)] at heq
  rw [← heq]
  exact pool_le_init hpool (by omega) hsize

end Explicit

/-! ### The implicit producer -/

/-- Blocks can be had while they start within `N` elements of the head and there are enough of
them for `C` in all. -/
theorem Budget.acquireMany_pooled (hN : Roomy e N) (mode : AllocationMode) {head s t n C : Nat}
    {b : Budget} (hlast : n = 0 ∨ (t + n - 1) * e.BLOCK_SIZE < head + N)
    (hle : head ≤ t * e.BLOCK_SIZE) (hst : s ≤ t) (hC : t + n - s ≤ C) (hk : C ≤ 2 ^ b.k)
    (hfree : C ≤ b.free + (t - s)) :
    ∃ b', b.acquireMany e mode head s n t = some b' ∧ b'.mallocs = b.mallocs ∧
      b'.created = b.created := by
  induction n generalizing t b with
  | zero => exact ⟨b, rfl, rfl, rfl⟩
  | succ n ih =>
      have hlast := hlast.resolve_left (Nat.succ_ne_zero n)
      have hbase : t * e.BLOCK_SIZE ≤ (t + (n + 1) - 1) * e.BLOCK_SIZE :=
        Nat.mul_le_mul_right _ (by omega)
      have hfull := hN.full_eq_false hle (by omega)
      have hslot : b.slot e mode s t = some b := if_pos (by omega)
      have hblock : b.block e mode = some { b with free := b.free - 1 } := if_pos (by omega)
      rw [Budget.acquireMany, hfull, if_neg Bool.false_ne_true, Budget.acquire, hslot,
        Option.bind_some, hblock, Option.bind_some]
      refine ih (b := { b with free := b.free - 1 }) ?_ ?_ (by omega) (by omega) hk
        (by dsimp only; omega)
      · exact .inr (by rwa [show t + 1 + n - 1 = t + (n + 1) - 1 by omega])
      · rw [Nat.succ_mul]
        omega

namespace Implicit

variable {st st' : State e.bits α} {v v' : View} {l : List α}

theorem Inv.size_eq (h : Inv e st v l) :
    (st.prod.tailIndex - st.prod.headIndex).toNat = l.length := by
  have hlen := h.len
  have hlt := h.length_lt
  have hbits := e.two_pow_bits
  rw [h.tailIndex, h.headIndex, toNat_ofNat_sub (by omega) (by omega)]
  omega

/-- All blocks but the first and the last are full. -/
theorem Inv.blocks_le (h : Inv e st v l) : v.t - v.s ≤ (l.length - 1) / e.BLOCK_SIZE + 2 := by
  have hB := e.BLOCK_SIZE_pos
  have hlen := h.len
  have hold := h.oldest
  have hnew := h.newest
  have hmul : (v.t - v.s - 2) * e.BLOCK_SIZE ≤ l.length - 1 := by
    rw [Nat.sub_mul, Nat.sub_mul]
    omega
  have hdiv : v.t - v.s - 2 ≤ (l.length - 1) / e.BLOCK_SIZE := (Nat.le_div_iff_mul_le hB).mpr hmul
  omega

/-- The last block that `n` elements need starts within `N` elements of the head, and with it
there are no more blocks than the elements need. -/
theorem Inv.needed_within (h : Inv e st v l) {n : Nat} (hroom : l.length + n ≤ N) :
    needed e v n = 0 ∨ (v.t + needed e v n - 1) * e.BLOCK_SIZE < v.head + N ∧
      v.t + needed e v n - v.s ≤ (l.length + n - 1) / e.BLOCK_SIZE + 2 := by
  have hB := e.BLOCK_SIZE_pos
  have hlen := h.len
  have hpos := h.base_before.1
  have hold := h.oldest
  have hdiv := Nat.div_mul_le_self (v.tail + n - 1) e.BLOCK_SIZE
  by_cases hzero : needed e v n = 0
  · exact .inl hzero
  · have hlast : v.t + needed e v n - 1 = (v.tail + n - 1) / e.BLOCK_SIZE := by
      unfold needed at hzero ⊢
      omega
    have hmul : (v.t + needed e v n - v.s - 2) * e.BLOCK_SIZE ≤ l.length + n - 1 := by
      have hsub : v.t + needed e v n - v.s - 2 = (v.tail + n - 1) / e.BLOCK_SIZE - v.s - 1 := by
        omega
      rw [hsub, Nat.sub_mul, Nat.sub_mul]
      omega
    have hle := (Nat.le_div_iff_mul_le hB).mpr hmul
    rw [hlast]
    exact .inr ⟨by omega, by omega⟩

/-- The blocks that a call needs can be had. -/
theorem Inv.acquireMany_pooled (h : Inv e st v l) (hN : Roomy e N) (mode : AllocationMode) {n : Nat}
    (hroom : l.length + n ≤ N) (hk : (l.length + n - 1) / e.BLOCK_SIZE + 2 ≤ 2 ^ v.k)
    (hfree : (l.length + n - 1) / e.BLOCK_SIZE + 2 ≤ st.mem.freeBlocks e + (v.t - v.s)) :
    ∃ b, (budget e st.mem v.k).acquireMany e mode v.head v.s (needed e v n) v.t = some b ∧
      b.mallocs = st.mem.mallocs ∧ b.created = st.mem.created := by
  rcases h.needed_within hroom with hzero | ⟨hlast, hC⟩
  · rw [hzero]
    exact ⟨_, rfl, rfl, rfl⟩
  · exact Budget.acquireMany_pooled hN mode (.inr hlast) h.head_le h.stock.le hC hk hfree

/-- A producer that holds an element has an index. -/
theorem Inv.isSome_of_ne_nil (h : Inv e st v l) (hl : l ≠ []) :
    st.prod.blockIndex.isSome = true := by
  have hpos := List.length_pos_iff.mpr hl
  have hlen := h.len
  obtain ⟨hs, ht⟩ := h.block_of_live le_rfl (by omega)
  obtain ⟨hdr, hhdr, -⟩ := h.stock.exists_index (by omega)
  rw [hhdr]
  rfl

/-- **An enqueue within `N` elements succeeds**, and the allocator is not asked. -/
theorem Inv.enqueue_pooled (h : Inv e st v l) (hN : Roomy e N) {c : Call e.bits α}
    (henq : c.isEnqueue = true) (hquiet : c.Quiet) (hroom : l.length + c.values.length ≤ N)
    (hindexed : st.prod.blockIndex.isSome = true)
    (hk : (l.length + c.values.length - 1) / e.BLOCK_SIZE + 2 ≤ 2 ^ v.k)
    (hfree : (l.length + c.values.length - 1) / e.BLOCK_SIZE + 2 ≤
      st.mem.freeBlocks e + (v.t - v.s)) :
    ∃ st' v', Implicit.step e c st = some (st', .pushed (.returned true)) ∧
      Inv e st' v' (l ++ c.values) ∧ v'.head = v.head ∧
      Traffic e (window v.β v.s v.t) (window v'.β v'.s v'.t) st.mem st'.mem ∧
      st'.prod.blockIndex.isSome = true ∧ v.k ≤ v'.k ∧
      st'.mem.mallocs = st.mem.mallocs ∧ st'.mem.created = st.mem.created := by
  have hroomFor : ∀ {mode n}, l.length + n ≤ N →
      (l.length + n - 1) / e.BLOCK_SIZE + 2 ≤ 2 ^ v.k →
      (l.length + n - 1) / e.BLOCK_SIZE + 2 ≤ st.mem.freeBlocks e + (v.t - v.s) →
      hasRoomFor e mode st v n = true := by
    intro mode n hn hk hfree
    obtain ⟨b, hb, -⟩ := h.acquireMany_pooled hN mode hn hk hfree
    rw [hasRoomFor, hindexed, hb]
    exact Bool.or_true _
  have hspent : ∀ {mode n b}, l.length + n ≤ N →
      (l.length + n - 1) / e.BLOCK_SIZE + 2 ≤ 2 ^ v.k →
      (l.length + n - 1) / e.BLOCK_SIZE + 2 ≤ st.mem.freeBlocks e + (v.t - v.s) →
      (budget e st.mem v.k).acquireMany e mode v.head v.s (needed e v n) v.t = some b →
      b.mallocs = st.mem.mallocs ∧ b.created = st.mem.created := by
    intro mode n b hn hk hfree hb
    obtain ⟨b', hb', hmallocs, hcreated⟩ := h.acquireMany_pooled hN mode hn hk hfree
    obtain rfl := Option.some.inj (hb'.symm.trans hb)
    exact ⟨hmallocs, hcreated⟩
  cases c with
  | enqueue mode ctor x =>
      have hno : ctor.throws 0 = false := hquiet.1 0 Nat.one_pos
      have hroom₁ : hasRoom e mode st v = true :=
        (h.hasRoom_eq mode).trans (hroomFor hroom hk hfree)
      obtain ⟨st', v', hr, hinv, hgrows, hbudget⟩ := h.enqueue mode ctor x
      simp only [hroom₁, hno, if_true, Bool.false_eq_true, if_false, Bool.not_false,
        Bool.and_self] at hr hinv
      obtain ⟨hmallocs, hcreated⟩ := hspent hroom hk hfree (hbudget hroom₁ hno)
      exact ⟨st', v', by rw [Implicit.step, hr, map_some], hinv, hgrows.head_eq,
        hgrows.traffic,
        hinv.isSome_of_ne_nil (List.append_ne_nil_of_right_ne_nil l (List.cons_ne_nil x [])),
        hgrows.grown, hmallocs, hcreated⟩
  | enqueueBulk mode ctor xs =>
      have hbits := e.two_pow_bits
      have hhalf := hN.half
      have hpos := hN.pos
      have hroom' : l.length + xs.length ≤ N := hroom
      by_cases hnil : xs = []
      · subst hnil
        refine ⟨st, v, by rw [Implicit.step, h.enqueueBulk_nil (by omega)]; rfl, ?_,
          rfl, h.stock.has.refl, hindexed, le_rfl, rfl, rfl⟩
        rw [show (Call.enqueueBulk mode ctor []).values = ([] : List α) from rfl, List.append_nil]
        exact h
      · have hmod := Nat.mod_lt (v.tail - 1) e.BLOCK_SIZE_pos
        obtain ⟨st', v', r, hr, hfalse, hthrew, hinv, hgrows, hbudget⟩ :=
          h.enqueueBulk mode ctor xs (by omega) fun hxs => absurd hxs hnil
        obtain rfl : r = .returned true := by
          cases r with
          | threw =>
              obtain ⟨-, j, hj, hthrow⟩ := hthrew.mp rfl
              have hno : ctor.throws j = false := hquiet.1 j hj
              rw [hno] at hthrow
              cases hthrow
          | returned ok =>
              cases ok with
              | false =>
                  have hsome : hasRoomFor e mode st v xs.length = true := hroomFor hroom hk hfree
                  rw [hfalse.mp rfl] at hsome
                  cases hsome
              | true => rfl
        rw [if_pos rfl] at hinv
        obtain ⟨hmallocs, hcreated⟩ := hspent hroom hk hfree (hbudget rfl)
        exact ⟨st', v', by rw [Implicit.step, hr, map_some], hinv, hgrows.head_eq,
          hgrows.traffic, hinv.isSome_of_ne_nil (List.append_ne_nil_of_right_ne_nil l hnil),
          hgrows.grown, hmallocs, hcreated⟩
  | dequeue throws => cases henq
  | dequeueBulk max throwsAt => cases henq

/-- The last block is full, and another one would end half of the index range after the head. -/
theorem Inv.enqueue_refused (h : Inv e st v l) (hmax : e.MAX_SUBQUEUE_SIZE = e.sizeMax)
    (hfull : v.tail % e.BLOCK_SIZE = 0) (hlen : 2 ^ (e.bits - 1) ≤ l.length + e.BLOCK_SIZE)
    (mode : AllocationMode) (ctor : Ctor) (x : α) :
    ∃ st', Implicit.step e (.enqueue mode ctor x) st = some (st', .pushed (.returned false)) := by
  have htail := h.len
  have hlt := h.length_lt
  have hleeway : full e st.prod.headIndex st.prod.tailIndex = true := by
    rw [← Bool.not_eq_false, h.headIndex, h.tailIndex,
      Explicit.full_eq_false_iff hmax (by omega) (by omega)]
    omega
  obtain ⟨st', v', henq, -⟩ := h.enqueue mode ctor x
  have hroom : hasRoom e mode st v = false := by
    simp [hasRoom, hfull, hleeway]
  rw [hroom, if_neg Bool.false_ne_true] at henq
  exact ⟨st', by rw [Implicit.step, henq, map_some]⟩

/-- A new producer whose index could be allocated. -/
theorem create_pooled {mem : Mem α} (hmem : mem.Accounted e)
    (hpool : e.initialBlockPoolSize ≤ e.IMPLICIT_INITIAL_INDEX_SIZE)
    (hm : e.mallocOk mem.mallocs = true) :
    ∃ st v, create e mem = some st ∧ Inv e st v ([] : List α) ∧ v.s = v.t ∧
      st.prod.blockIndex.isSome = true ∧ e.initialBlockPoolSize ≤ 2 ^ v.k ∧
      ∃ n, st.mem = { mem with mallocs := n } := by
  obtain ⟨st, v, hcreate, hinv, hst, hmem'⟩ := create_inv hmem
  obtain ⟨hdr, hhdr, hcapacity⟩ : ∃ hdr, st.prod.blockIndex = some hdr ∧
      hdr.capacity = BitVec.ofNat e.bits (2 ^ e.implicitIndexLog) := by
    simp only [create, newBlockIndex, Mem.malloc, hm] at hcreate
    obtain rfl := Option.some.inj hcreate
    exact ⟨_, rfl, rfl⟩
  refine ⟨st, v, hcreate, hinv, hst, by rw [hhdr]; rfl, ?_, hmem'⟩
  rcases hinv.stock.index with ⟨hnone, -⟩ | ⟨hdr', hhdr', -, hi⟩
  · rw [hnone] at hhdr
    cases hhdr
  · obtain rfl := Option.some.inj (hhdr.symm.trans hhdr')
    have heq := congrArg BitVec.toNat (hcapacity.symm.trans hi.capacity)
    rw [BitVec.toNat_ofNat, BitVec.toNat_ofNat,
      Nat.mod_eq_of_lt (Nat.pow_lt_pow_right (by omega) e.implicitIndexLog_lt),
      Nat.mod_eq_of_lt (Nat.pow_lt_pow_right (by omega) hi.klt)] at heq
    rw [← heq]
    exact hpool

end Implicit

end ConcurrentQueue
