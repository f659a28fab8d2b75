import ConcurrentQueue.Budget
import ConcurrentQueue.Fifo
import ConcurrentQueue.Ledger
import ConcurrentQueue.ImplicitIndex

/-!
# ConcurrentQueue.ImplicitInv

**The invariant of an implicit producer.** It holds the blocks from that of the head
up to that of the tail and no others; each of them has an entry on the block index,
and every other slot of the index may be used again. `View` has what the machine words
leave out, `Stock` says what the producer has in memory and on its index, and
`Inv e st v l` adds the counters and that the queue holds the list `l`.

The block of the tail ends less than half the index range after the head when it is
taken, and the head only moves towards it.
-/

namespace ConcurrentQueue.Implicit

open Wrap

variable {α : Type}

/-! ### The invariant -/

structure View where
  /-- The block with a given number. -/
  β : Nat → Nat
  /-- Its link. -/
  ν : Nat → Option Nat
  s : Nat
  t : Nat
  c : Nat
  k : Nat
  tail : Nat
  head : Nat

variable (e : Env)

/-- The index has the entries of the blocks `s ≤ q < t`. There is no index if none
could be allocated when the producer was made. -/
def IndexAt (p : ImplicitProducer e.bits) (β : Nat → Nat) (s t c k : Nat) : Prop :=
  (p.blockIndex = none ∧ s = t) ∨
    ∃ h, p.blockIndex = some h ∧
      p.nextBlockIndexCapacity = BitVec.ofNat e.bits (2 ^ (k + 1)) ∧
      Index e h (fun q => some (some (β q))) s t (t - 1) c k

/-- The blocks in memory and on the index. -/
structure Stock (mem : Mem α) (p : ImplicitProducer e.bits) (β : Nat → Nat) (ν : Nat → Option Nat)
    (s t c k : Nat) (f : Nat → Option α) (g : Nat → Nat) : Prop where
  has : Has e (window β s t) mem
  held : Held e .implicitContext mem β s t ν f g
  index : IndexAt e p β s t c k
  le : s ≤ t
  pos : 0 < t

structure Inv (st : State e.bits α) (v : View) (l : List α) : Prop where
  stock : Stock e st.mem st.prod v.β v.ν v.s v.t v.c v.k (slotAt v.head l)
    (marked e.BLOCK_SIZE v.head)
  tailIndex : st.prod.tailIndex = BitVec.ofNat e.bits v.tail
  headIndex : st.prod.headIndex = BitVec.ofNat e.bits v.head
  optimistic :
    st.prod.dequeueOptimisticCount - st.prod.dequeueOvercommit = st.prod.headIndex
  tailBlock : v.s < v.t → st.prod.tailBlock = some (v.β (v.t - 1))
  len : v.head + l.length = v.tail
  oldest : v.s * e.BLOCK_SIZE ≤ v.head ∧ v.head < v.s * e.BLOCK_SIZE + e.BLOCK_SIZE
  newest : v.tail ≤ v.t * e.BLOCK_SIZE ∧ v.t * e.BLOCK_SIZE < v.tail + e.BLOCK_SIZE
  bound : v.s < v.t → v.t * e.BLOCK_SIZE < v.head + 2 ^ (e.bits - 1)
  small : v.s < v.t → e.BLOCK_SIZE < 2 ^ (e.bits - 1)

variable {e} {st : State e.bits α} {v : View} {l : List α} {p : ImplicitProducer e.bits}
  {β : Nat → Nat} {ν : Nat → Option Nat} {s t c k : Nat} {mem : Mem α} {f : Nat → Option α}
  {g : Nat → Nat}

/-- With a block there is an index. -/
theorem Stock.exists_index (h : Stock e mem p β ν s t c k f g) (hst : s < t) :
    ∃ hdr, p.blockIndex = some hdr ∧
      p.nextBlockIndexCapacity = BitVec.ofNat e.bits (2 ^ (k + 1)) ∧
      Index e hdr (fun q => some (some (β q))) s t (t - 1) c k :=
  h.index.resolve_left fun hnone => hst.ne hnone.2

/-- Blocks that end less than half the range after an index in the first of them span
half the range at most. -/
theorem span_le {head : Nat} (hst : s < t) (hhead : head < s * e.BLOCK_SIZE + e.BLOCK_SIZE)
    (hbound : t * e.BLOCK_SIZE < head + 2 ^ (e.bits - 1)) :
    (t - s) * e.BLOCK_SIZE ≤ 2 ^ (e.bits - 1) := by
  have hdvd : e.BLOCK_SIZE ∣ 2 ^ (e.bits - 1) := pow_dvd_pow 2 (by
    have := e.blockLog_lt
    omega)
  obtain ⟨m, hm⟩ := hdvd
  rw [Nat.mul_comm] at hm
  have hmono : s * e.BLOCK_SIZE + e.BLOCK_SIZE ≤ t * e.BLOCK_SIZE := block_le hst
  have hlt : (t - s) * e.BLOCK_SIZE < (m + 1) * e.BLOCK_SIZE := by
    rw [Nat.sub_mul, Nat.succ_mul]
    omega
  have hle : t - s ≤ m := Nat.le_of_lt_succ (Nat.lt_of_mul_lt_mul_right hlt)
  rw [hm]
  exact Nat.mul_le_mul_right _ hle

namespace Inv

theorem s_eq (h : Inv e st v l) : v.s = v.head / e.BLOCK_SIZE := by
  obtain ⟨hlo, hhi⟩ := h.oldest
  rw [show v.head = v.s * e.BLOCK_SIZE + (v.head - v.s * e.BLOCK_SIZE) by omega,
    block_div (by omega)]

/-- The blocks span half the index range at most. -/
theorem span (h : Inv e st v l) : (v.t - v.s) * e.BLOCK_SIZE ≤ 2 ^ (e.bits - 1) := by
  rcases Nat.lt_or_ge v.s v.t with hst | hge
  · exact span_le hst h.oldest.2 (h.bound hst)
  · rw [Nat.sub_eq_zero_of_le hge, Nat.zero_mul]
    exact Nat.zero_le _

/-- **Less than half the index range is ever held.** -/
theorem length_lt (h : Inv e st v l) : l.length < 2 ^ (e.bits - 1) := by
  have hlen := h.len
  have hnew := h.newest.1
  have hpos := Nat.two_pow_pos (e.bits - 1)
  rcases Nat.lt_or_ge v.s v.t with hst | hge
  · have hbound := h.bound hst
    omega
  · have hle : v.t * e.BLOCK_SIZE ≤ v.s * e.BLOCK_SIZE := Nat.mul_le_mul_right _ hge
    have hold := h.oldest.1
    omega

/-- Without a block the queue is empty and the tail at the start of a block. -/
theorem of_no_block (h : Inv e st v l) (hst : v.s = v.t) :
    l = [] ∧ v.tail = v.t * e.BLOCK_SIZE ∧ v.head = v.t * e.BLOCK_SIZE := by
  have hlen := h.len
  have hnew := h.newest.1
  have hold := h.oldest.1
  rw [hst] at hold
  exact ⟨List.length_eq_zero_iff.mp (by omega), by omega, by omega⟩

end Inv

/-! ### A fresh producer -/

/-- The first index: every slot is vacant, and the tail is the last one. -/
theorem newBlockIndex_first (hb : st.prod.blockIndex = none) (hk : k < e.bits)
    (hnext : st.prod.nextBlockIndexCapacity = BitVec.ofNat e.bits (2 ^ k)) (hn : 0 < s)
    (hm : e.mallocOk st.mem.mallocs = true) (W : Nat → Option (Option Nat)) :
    ∃ h', newBlockIndex e st = some (⟨{ st.mem with mallocs := st.mem.mallocs + 1 },
        withIndex st.prod h' (BitVec.ofNat e.bits (2 ^ (k + 1)))⟩, true) ∧
      Index e h' W s s (s - 1) ((2 ^ k - 1) * s) k := by
  have hpow := Nat.two_pow_pos k
  have hlt : 2 ^ k < 2 ^ e.bits := Nat.pow_lt_pow_right (by omega) hk
  have hcap : (BitVec.ofNat e.bits (2 ^ k)).toNat = 2 ^ k := by
    rw [BitVec.toNat_ofNat, Nat.mod_eq_of_lt hlt]
  have htail : (0#e.bits - 1#e.bits) &&& (BitVec.ofNat e.bits (2 ^ k) - 1#e.bits) =
      BitVec.ofNat e.bits (((2 ^ k - 1) * s + (s - 1)) % 2 ^ k) := by
    rw [size_sub_one]
    refine and_low_of_add_eq hk.le (b := 1) (n := 0) (BitVec.sub_add_cancel _ _) ?_
    have hsum : (2 ^ k - 1) * s + (s - 1) + 1 = 2 ^ k * s := by
      rw [Nat.add_assoc, Nat.sub_add_cancel hn, ← Nat.succ_mul, Nat.succ_eq_add_one,
        Nat.sub_add_cancel hpow]
    rw [hsum, Nat.mul_mod_right, Nat.zero_mod]
  have hzero : (0#e.bits).toNat = 0 := rfl
  refine ⟨⟨BitVec.ofNat e.bits (2 ^ k), BitVec.ofNat e.bits (((2 ^ k - 1) * s + (s - 1)) % 2 ^ k),
    fun i => if 0 ≤ i ∧ i < 0 + 2 ^ k then some ⟨INVALID_BLOCK_BASE, none⟩ else none⟩, ?_,
    ⟨hk, rfl, rfl, le_rfl, by omega, fun q hsq hqs => by omega, fun q hsq hq => ?_⟩⟩
  · simp only [newBlockIndex, Mem.malloc, hm, hb, previousEntries, Option.bind_eq_bind,
      Option.bind_some, hnext, hcap, htail, size_double, withIndex, hzero]
  · refine ⟨⟨INVALID_BLOCK_BASE, none⟩, ?_, if_pos rfl⟩
    dsimp only
    rw [compact_slot hpow hsq hq, if_pos (by omega)]

/-- The constructor establishes the invariant. The counters start at zero, which
the view takes for a full turn, so that there is a block before the first. -/
theorem create_inv (hmem : mem.Accounted e) :
    ∃ st v, create e mem = some st ∧ Inv e st v ([] : List α) ∧ v.s = v.t ∧
      ∃ n, st.mem = { mem with mallocs := n } := by
  have hpow := Nat.two_pow_pos e.bits
  have hB := e.BLOCK_SIZE_pos
  let n := 2 ^ e.bits / e.BLOCK_SIZE
  have hn : n * e.BLOCK_SIZE = 2 ^ e.bits :=
    Nat.div_mul_cancel (pow_dvd_pow 2 e.blockLog_lt.le)
  have hn0 : 0 < n := Nat.pos_of_mul_pos_right (by omega : 0 < n * e.BLOCK_SIZE)
  have hzero : (0 : BitVec e.bits) = BitVec.ofNat e.bits (2 ^ e.bits) := by
    apply BitVec.eq_of_toNat_eq
    rw [BitVec.toNat_ofNat, Nat.mod_self]
    rfl
  -- the invariant for any state without blocks
  have hinv : ∀ (m : Nat) (q : ImplicitProducer e.bits) (c' k' : Nat),
      IndexAt e q (fun _ => 0) n n c' k' → q.tailIndex = 0 → q.headIndex = 0 →
      q.dequeueOptimisticCount = 0 → q.dequeueOvercommit = 0 →
      Inv e ⟨{ mem with mallocs := m }, q⟩
        ⟨fun _ => 0, fun _ => none, n, n, c', k', 2 ^ e.bits, 2 ^ e.bits⟩ [] := by
    intro m q c' k' hq htail hhead hopt hover
    have hempty : window (fun _ => 0) n n = ∅ := by
      ext b
      constructor
      · rintro ⟨r, hr, hrn, -⟩
        omega
      · exact nofun
    have hhas₀ : Has e (window (fun _ => 0) n n) mem := ⟨hmem, by rw [hempty]; exact nofun⟩
    have hhas := ((Within.mallocs m).traffic hhas₀).has
    refine ⟨⟨hhas, ⟨hhas.accounted.wellFormed, ?_, ?_, ?_, ?_, ?_⟩, hq, le_rfl, hn0⟩, ?_, ?_, ?_,
      ?_, rfl, ?_, ?_, ?_, ?_⟩
    · intro q q' hs ht
      dsimp only at hs ht
      omega
    · intro q hs ht
      dsimp only at hs ht
      omega
    · intro q hs ht
      dsimp only at hs ht
      omega
    · intro q i hs ht
      dsimp only at hs ht
      omega
    · intro q hs ht
      dsimp only at hs ht
      omega
    · rw [← hzero]
      exact htail
    · rw [← hzero]
      exact hhead
    · show q.dequeueOptimisticCount - q.dequeueOvercommit = q.headIndex
      rw [hopt, hover, hhead]
      exact BitVec.sub_self 0
    · intro hst
      dsimp only at hst
      omega
    · exact ⟨hn.le, by dsimp only; omega⟩
    · exact ⟨hn.ge, by dsimp only; omega⟩
    · intro hst
      dsimp only at hst
      omega
    · intro hst
      dsimp only at hst
      omega
  cases hm : e.mallocOk mem.mallocs with
  | false =>
      have hnew : newBlockIndex e ⟨mem, init e⟩ = some _ := newBlockIndex_failed hm
      refine ⟨_, _, by rw [create, hnew]; rfl, hinv (mem.mallocs + 1) (init e) 0 0
        (.inl ⟨rfl, rfl⟩) rfl rfl rfl rfl, rfl, mem.mallocs + 1, rfl⟩
  | true =>
      obtain ⟨h', hnew, hindex⟩ := newBlockIndex_first
        (show (⟨mem, init e⟩ : State e.bits α).prod.blockIndex = none from rfl)
        e.implicitIndexLog_lt rfl hn0 hm fun _ => some (some 0)
      exact ⟨_, _, by rw [create, hnew]; rfl, hinv (mem.mallocs + 1) _ _ _
        (.inr ⟨h', rfl, rfl, hindex⟩) rfl rfl rfl rfl, rfl, mem.mallocs + 1, rfl⟩

end ConcurrentQueue.Implicit
