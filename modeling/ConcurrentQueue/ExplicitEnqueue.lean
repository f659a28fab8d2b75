import ConcurrentQueue.Budget
import ConcurrentQueue.ExplicitInv

/-!
# ConcurrentQueue.ExplicitEnqueue

`enqueue` keeps the invariant. At a block boundary **the leeway test bounds the
ring**: a block is inserted only while the oldest block still holds the head, and
then the ring with the new block spans no more than half the index range. A call
whose constructor throws changes nothing, unless it had started a block.
-/

namespace ConcurrentQueue.Explicit

open Function Wrap

variable {α : Type} {e : Env} {st : State e.bits α} {v : View} {l : List α}

/-! ### Arithmetic of the leeway test -/

/-- The leeway test passes only if the tail could move a whole block further
without getting half the range ahead of the head. -/
theorem leeway {head n : Nat} (hle : head ≤ n) (hlt : n + e.BLOCK_SIZE - head < 2 ^ e.bits)
    (hf : full e (BitVec.ofNat e.bits head) (BitVec.ofNat e.bits n) = false) :
    n + e.BLOCK_SIZE - head < 2 ^ (e.bits - 1) := by
  rw [full, Bool.or_eq_false_iff, Bool.not_eq_false', Traits.blockSize,
    BitVec.ofNat_add_ofNat] at hf
  exact ((circularLessThan_ofNat e.bits_pos (by omega) hlt).mp hf.1).2

/-- A ring whose oldest block holds the head spans at most half the range, if
the window from the head does. -/
theorem span_le {s t head : Nat} (hhead : head < s * e.BLOCK_SIZE + e.BLOCK_SIZE)
    (hw : t * e.BLOCK_SIZE - head < 2 ^ (e.bits - 1)) :
    (t - s) * e.BLOCK_SIZE ≤ 2 ^ (e.bits - 1) := by
  have hdvd : e.BLOCK_SIZE ∣ 2 ^ (e.bits - 1) :=
    pow_dvd_pow 2 (by have := e.blockLog_lt; omega)
  obtain ⟨n, hn⟩ := hdvd
  have hmul : (t - s) * e.BLOCK_SIZE < (n + 1) * e.BLOCK_SIZE := by
    rw [Nat.sub_mul, Nat.succ_mul, Nat.mul_comm n, ← hn]
    omega
  have hle : t - s ≤ n := Nat.lt_succ_iff.mp (Nat.lt_of_mul_lt_mul_right hmul)
  calc (t - s) * e.BLOCK_SIZE ≤ n * e.BLOCK_SIZE := Nat.mul_le_mul_right _ hle
    _ = 2 ^ (e.bits - 1) := by rw [hn, Nat.mul_comm]

section Boundary

variable {B tail t : Nat}

theorem mod_eq_zero_iff (h1 : tail ≤ t * B) (h2 : t * B < tail + B) :
    tail % B = 0 ↔ tail = t * B := by
  constructor
  · intro hmod
    obtain ⟨n, hn⟩ := Nat.dvd_of_mod_eq_zero hmod
    rw [Nat.mul_comm] at hn
    have hnt : n ≤ t := Nat.le_of_mul_le_mul_right (hn ▸ h1) (by omega)
    have htn : t < n + 1 := by
      refine Nat.lt_of_mul_lt_mul_right (a := B) ?_
      rw [Nat.succ_mul]
      omega
    rw [hn, show n = t by omega]
  · intro heq
    rw [heq, Nat.mul_mod_left]

theorem div_eq_sub_one (h1 : tail < t * B) (h2 : t * B < tail + B) : tail / B = t - 1 := by
  have ht : 0 < t := Nat.pos_of_ne_zero fun h0 => by
    rw [h0, Nat.zero_mul] at h1
    omega
  have hsub : (t - 1) * B + B = t * B := by
    rw [← Nat.succ_mul, Nat.succ_eq_add_one, Nat.sub_add_cancel ht]
  obtain ⟨d, hd⟩ : ∃ d, tail = (t - 1) * B + d := Nat.exists_eq_add_of_le (by omega)
  rw [hd, block_div (by omega)]

end Boundary

/-- An index that is full can still be doubled. -/
theorem IndexAt.double {p : ExplicitProducer e.bits} {β : Nat → Nat} {a s t c k : Nat}
    {mem : Mem α} (hi : IndexAt e p β a s t c k)
    (hfull : indexFull e (⟨mem, p⟩ : State e.bits α) = true)
    (hspan : (t + 1 - s) * e.BLOCK_SIZE ≤ 2 ^ (e.bits - 1)) : k + 1 < e.bits := by
  rcases hi.index with ⟨-, -, hk⟩ | ⟨h, hh⟩
  · exact hk
  · have hslots : t - s = 2 ^ k := by
      rcases hi.indexFull_iff.mp hfull with hnone | hslots
      · rw [hh.header] at hnone
        cases hnone
      · exact hslots
    have hle := hi.le
    have hpos := Nat.two_pow_pos k
    have hlt : 2 ^ (k + 1) < 2 ^ e.bits := by
      calc 2 ^ (k + 1) = 2 ^ k * 2 := pow_succ ..
        _ ≤ 2 ^ k * e.BLOCK_SIZE := Nat.mul_le_mul_left _ e.one_lt_BLOCK_SIZE
        _ ≤ (t + 1 - s) * e.BLOCK_SIZE := Nat.mul_le_mul_right _ (by omega)
        _ ≤ 2 ^ (e.bits - 1) := hspan
        _ < 2 ^ e.bits := Nat.pow_lt_pow_right (by omega) (by have := e.bits_pos; omega)
    exact (Nat.pow_lt_pow_iff_right (by omega)).mp hlt

namespace Inv

theorem head_le (h : Inv e st v l) : v.head ≤ v.t * e.BLOCK_SIZE := by
  have := h.len
  have := h.newest.1
  omega

theorem s_le_t (h : Inv e st v l) : v.s ≤ v.t := h.index.le

/-- The window of the ring, measured from the head. -/
theorem window (h : Inv e st v l) :
    v.t * e.BLOCK_SIZE - v.head ≤ 2 ^ (e.bits - 1) := by
  have hb := h.bound
  have ho := h.oldest
  rw [Nat.sub_mul] at hb
  omega

/-- The tail is at a block boundary exactly if no slot is left in the newest
block. -/
theorem aligned_iff (h : Inv e st v l) :
    v.tail % e.BLOCK_SIZE = 0 ↔ v.tail = v.t * e.BLOCK_SIZE :=
  mod_eq_zero_iff h.newest.1 h.newest.2

theorem and_blockMask (h : Inv e st v l) :
    st.prod.tailIndex &&& e.blockMask = 0 ↔ v.tail = v.t * e.BLOCK_SIZE := by
  rw [h.tailIndex, ← h.aligned_iff]
  exact e.and_blockMask_eq_zero v.tail

/-- Away from a boundary the next slot is in the newest block. -/
theorem tail_div (h : Inv e st v l) (hne : v.tail ≠ v.t * e.BLOCK_SIZE) :
    v.s < v.t ∧ v.tail / e.BLOCK_SIZE = v.t - 1 := by
  obtain ⟨h1, h2⟩ := h.newest
  have hlen := h.len
  have hold := h.oldest
  exact ⟨Nat.lt_of_mul_lt_mul_right (a := e.BLOCK_SIZE) (by omega),
    div_eq_sub_one (by omega) h2⟩

end Inv

/-! ### Starting a block -/

/-! ### What a producer can get -/

/-- What taking a block depends on besides the head: the blocks `s ≤ q < t` of the
ring, whether there is an index, and the budget. -/
structure Means where
  s : Nat
  t : Nat
  indexed : Bool
  budget : Budget

def View.means (e : Env) (v : View) (st : State e.bits α) : Means :=
  ⟨v.s, v.t, st.prod.blockIndex.isSome, budget e st.mem v.k⟩

theorem View.means_eq {v' : View} {st' : State e.bits α} (hs : v'.s = v.s) (ht : v'.t = v.t)
    (hk : v'.k = v.k) (hindex : st'.prod.blockIndex.isSome = st.prod.blockIndex.isSome)
    (hmem : OnlyContents st.mem st'.mem) : v'.means e st' = v.means e st := by
  rw [View.means, View.means, hs, ht, hk, hindex, budget_onlyContents hmem]

namespace Means

variable (e) (mode : AllocationMode) (head : Nat)

/-- A slot on the index. -/
def slot (m : Means) : Option Budget :=
  if m.indexed = true ∧ m.t < m.s + 2 ^ m.budget.k then some m.budget
  else m.budget.growIndex e mode

/-- A new block. -/
def insert (m : Means) : Option Means :=
  if full e (BitVec.ofNat e.bits head) (BitVec.ofNat e.bits (m.t * e.BLOCK_SIZE)) then none
  else ((m.slot e mode).bind (Budget.block e mode)).map fun b => ⟨m.s, m.t + 1, true, b⟩

/-- The block ahead, if it is empty, or else a new one. -/
def take (m : Means) : Option Means :=
  if m.s < m.t ∧ m.s * e.BLOCK_SIZE + e.BLOCK_SIZE ≤ head then
    some { m with s := m.s + 1, t := m.t + 1 }
  else m.insert e mode head

def takeMany : Nat → Means → Option Means
  | 0, m => some m
  | n + 1, m => (m.take e mode head).bind (takeMany n)

end Means

theorem IndexAt.slot_eq {p : ExplicitProducer e.bits} {β : Nat → Nat} {a s t c k : Nat}
    (hi : IndexAt e p β a s t c k) (mem : Mem α) (mode : AllocationMode) :
    (⟨s, t, p.blockIndex.isSome, budget e mem k⟩ : Means).slot e mode =
      if indexFull e (⟨mem, p⟩ : State e.bits α) then (budget e mem k).growIndex e mode
      else some (budget e mem k) := by
  have hroom := hi.room
  have hle := hi.le
  have hiff : (p.blockIndex.isSome = true ∧ t < s + 2 ^ k) ↔
      ¬ indexFull e (⟨mem, p⟩ : State e.bits α) = true := by
    rw [hi.indexFull_iff, not_or, Option.isSome_iff_ne_none]
    have hpos := Nat.two_pow_pos k
    exact and_congr_right fun _ => by omega
  by_cases hfull : indexFull e (⟨mem, p⟩ : State e.bits α) = true
  · rw [if_pos hfull]
    exact if_neg fun hfree => hiff.mp hfree hfull
  · rw [if_neg hfull]
    exact if_pos (hiff.mpr hfull)

/-- The block for the tail index is in place, but not on the index yet. -/
structure Started (e : Env) (st : State e.bits α) (v : View) (l : List α) : Prop where
  ring : Ring e st.mem v.β v.s v.t (slotAt v.head l) (marked e.BLOCK_SIZE v.head)
  index : ∃ h, Index e st.prod h v.β v.s (v.t - 1) v.c v.k
  slots : st.prod.prBlockIndexSlotsUsed = BitVec.ofNat e.bits (v.t - v.s)
  room : v.t ≤ v.s + 2 ^ v.k
  lt : v.s < v.t
  tailIndex : st.prod.tailIndex = BitVec.ofNat e.bits v.tail
  headIndex : st.prod.headIndex = BitVec.ofNat e.bits v.head
  optimistic :
    st.prod.dequeueOptimisticCount - st.prod.dequeueOvercommit = st.prod.headIndex
  tailBlock : st.prod.tailBlock = some (v.β (v.t - 1))
  len : v.head + l.length = v.tail
  oldest : v.s * e.BLOCK_SIZE ≤ v.head
  aligned : v.tail = (v.t - 1) * e.BLOCK_SIZE
  bound : (v.t - v.s) * e.BLOCK_SIZE ≤ 2 ^ (e.bits - 1)
  small : e.BLOCK_SIZE < 2 ^ (e.bits - 1)
  pos : 0 < v.tail

/-- Reusing the block ahead of the tail. -/
theorem Inv.reuse (h : Inv e st v l) (hal : v.tail = v.t * e.BLOCK_SIZE) (hst : v.s < v.t)
    (hempty : v.s * e.BLOCK_SIZE + e.BLOCK_SIZE ≤ v.head) :
    Started e ⟨st.mem.modify (v.β v.s) (Block.resetEmpty e.toTraits .explicitContext),
        { st.prod with tailBlock := some (v.β v.s) }⟩
      { v with β := update v.β v.t (v.β v.s), s := v.s + 1, t := v.t + 1 } l := by
  have hlen := h.len
  have hrotate := h.ring.rotate hst (fun i hi => slotAt_of_lt (by omega))
    fun i hi => slotAt_of_ge (by omega)
  have hβt : update v.β v.t (v.β v.s) v.t = v.β v.s := update_self ..
  have hreset := hrotate.reset (q := v.t) (by omega) (by omega)
  rw [hβt] at hreset
  obtain ⟨hh, -, -⟩ | ⟨hdr, hindex⟩ := h.index.index
  · obtain ⟨hdr, hsome, -⟩ := h.exposed hst
    rw [hsome] at hh
    cases hh
  refine ⟨hreset.congr (fun _ _ _ _ _ => rfl) fun q hsq hqt => ?_, ⟨hdr, ?_⟩, ?_, ?_, ?_,
    h.tailIndex, h.headIndex, h.optimistic, ?_, h.len, ?_, ?_, ?_, h.small hst, h.pos⟩
  · by_cases hq : q = v.t
    · rw [hq, update_self, marked_eq_zero h.head_le]
    · rw [update_of_ne hq, update_of_ne hq]
  · refine (hindex.mono (Nat.le_succ v.s) fun q _ hqt => ?_).congr rfl rfl rfl
    exact update_of_ne (show q ≠ v.t by omega) ..
  · have := h.index.slots
    rwa [show v.t + 1 - (v.s + 1) = v.t - v.s by omega]
  · have := h.index.room
    show v.t + 1 ≤ v.s + 1 + 2 ^ v.k
    omega
  · show v.s + 1 < v.t + 1
    omega
  · show some (v.β v.s) = some (update v.β v.t (v.β v.s) (v.t + 1 - 1))
    rw [Nat.add_sub_cancel, hβt]
  · show (v.s + 1) * e.BLOCK_SIZE ≤ v.head
    rwa [Nat.succ_mul]
  · exact hal
  · have := h.bound
    show (v.t + 1 - (v.s + 1)) * e.BLOCK_SIZE ≤ _
    rwa [show v.t + 1 - (v.s + 1) = v.t - v.s by omega]

theorem Inv.setMallocs (h : Inv e st v l) (n : Nat) :
    Inv e { st with mem := { st.mem with mallocs := n } } v l :=
  { h with ring := h.ring.setMallocs n }

/-- Making room on the index keeps the invariant, whether it succeeds or not. -/
theorem Inv.ensureRoom (h : Inv e st v l) (mode : AllocationMode)
    (hspan : (v.t + 1 - v.s) * e.BLOCK_SIZE ≤ 2 ^ (e.bits - 1)) :
    ∃ st' ok c' k', ensureRoom e mode st = some (st', ok) ∧
      Inv e st' { v with c := c', k := k' } l ∧
      (ok = true → v.t < v.s + 2 ^ k' ∧ ∃ hdr, Index e st'.prod hdr v.β v.s v.t c' k') ∧
      (v.means e st).slot e mode = if ok then some (budget e st'.mem k') else none := by
  obtain ⟨mem, p⟩ := st
  have hslot := h.index.slot_eq mem mode
  rw [View.means, hslot]
  unfold Explicit.ensureRoom
  cases hfull : indexFull e (⟨mem, p⟩ : State e.bits α) with
  | false => exact ⟨_, true, _, _, rfl, h, fun _ => h.index.of_not_full hfull, rfl⟩
  | true =>
      cases mode with
      | cannotAlloc => exact ⟨_, false, _, _, rfl, h, nofun, rfl⟩
      | canAlloc =>
          have hk := h.index.double hfull hspan
          rcases newBlockIndex_spec h.index hk mem p.prBlockIndexSlotsUsed with
            ⟨hok, h', hfront, hnew, hindex⟩ | ⟨hno, hnew⟩
          · refine ⟨_, true, (2 ^ (v.k + 1) - 1) * v.s, v.k + 1, hnew, ?_, fun _ => ?_, ?_⟩
            · refine { h with ring := h.ring.setMallocs _, index := hindex, exposed := ?_ }
              intro hst
              refine ⟨h', rfl, ?_⟩
              have hroom := h.index.room
              have hpow : 2 ^ (v.k + 1) = 2 ^ v.k + 2 ^ v.k := by omega
              have hst' : v.s < v.t := hst
              dsimp only
              rw [hfront, h.index.slots, ofNat_sub (by omega),
                compact_slot (Nat.two_pow_pos _) (by omega) (by omega)]
              congr 1
              omega
            · have hroom := h.index.room
              have hpos := Nat.two_pow_pos v.k
              have hpow : 2 ^ (v.k + 1) = 2 ^ v.k + 2 ^ v.k := by omega
              refine ⟨by omega, hindex.index.resolve_left fun hnone => ?_⟩
              cases hnone.1
            · exact growIndex_ok hok
          · exact ⟨_, false, _, _, hnew, h.setMallocs _, nofun, growIndex_failed hno⟩

/-- The newly inserted block. -/
theorem Inv.insert (h : Inv e st v l) (hal : v.tail = v.t * e.BLOCK_SIZE)
    (hspan : (v.t + 1 - v.s) * e.BLOCK_SIZE ≤ 2 ^ (e.bits - 1))
    (hsmall : e.BLOCK_SIZE < 2 ^ (e.bits - 1)) (hroom : v.t < v.s + 2 ^ v.k)
    (hindex : ∃ hdr, Index e st.prod hdr v.β v.s v.t v.c v.k) {mem' : Mem α} {b : Nat}
    (hr : Mem.Requisitioned e st.mem mem' b) :
    Started e (incSlotsUsed e (linkBlock e b
        ⟨mem'.modify b (Block.resetEmpty e.toTraits .explicitContext), st.prod⟩))
      { v with β := update v.β v.t b, t := v.t + 1 } l := by
  have hlen := h.len
  have hst := h.s_le_t
  have hring := h.ring.insert hr Block.elements_resetEmpty Block.marked_resetEmpty
    (fun i hi => slotAt_of_ge (by omega)) hst h.tailBlock
  obtain ⟨hdr, hindex⟩ := hindex
  refine ⟨hring.congr (fun _ _ _ _ _ => rfl) fun q hsq hqt => ?_, ⟨hdr, ?_⟩, ?_, hroom, ?_,
    h.tailIndex, h.headIndex, h.optimistic, ?_, h.len, h.oldest, hal, hspan, hsmall, h.pos⟩
  · by_cases hq : q = v.t
    · rw [hq, update_self, marked_eq_zero h.head_le]
    · rw [update_of_ne hq]
  · refine (hindex.mono le_rfl fun q _ hqt => ?_).congr rfl rfl rfl
    exact update_of_ne (show q ≠ v.t by omega) ..
  · show st.prod.prBlockIndexSlotsUsed + 1#e.bits = BitVec.ofNat e.bits (v.t + 1 - v.s)
    rw [h.index.slots, BitVec.ofNat_add_ofNat, Nat.sub_add_comm hst]
  · exact Nat.lt_succ_of_le hst
  · show some b = some (update v.β v.t b (v.t + 1 - 1))
    rw [Nat.add_sub_cancel, update_self]

theorem linkBlock_onlyContents (b : Nat) (st : State e.bits α) :
    OnlyContents st.mem (linkBlock e b st).mem := by
  unfold linkBlock
  cases st.prod.tailBlock with
  | none => exact ⟨_, rfl⟩
  | some tb => exact ⟨_, rfl⟩

theorem Inv.insertBlock (h : Inv e st v l) (mode : AllocationMode)
    (hal : v.tail = v.t * e.BLOCK_SIZE) (hhead : v.head < v.s * e.BLOCK_SIZE + e.BLOCK_SIZE) :
    ∃ st' ok v', insertBlock e mode st = some (st', ok) ∧
      (ok = false → Inv e st' v' l) ∧ (ok = true → Started e st' v' l) ∧ v'.tail = v.tail ∧
      v'.head = v.head ∧ (v.means e st).insert e mode v.head =
        if ok then some (v'.means e st') else none := by
  have hlen := h.len
  have hwin := h.window
  have hassert : circularLessThan st.prod.tailIndex st.prod.headIndex = false := by
    rw [h.tailIndex, h.headIndex]
    exact circularLessThan_ofNat_of_le e.bits_pos (by omega) (by omega)
  have hmeans : (v.means e st).insert e mode v.head =
      if full e st.prod.headIndex st.prod.tailIndex then none
      else (((v.means e st).slot e mode).bind (Budget.block e mode)).map fun b =>
        ⟨v.s, v.t + 1, true, b⟩ := by
    rw [h.headIndex, h.tailIndex, hal]
    rfl
  rw [hmeans]
  simp only [Explicit.insertBlock, hassert, Bool.false_eq_true, if_false]
  cases hfull : full e st.prod.headIndex st.prod.tailIndex with
  | true => exact ⟨st, false, v, rfl, fun _ => h, nofun, rfl, rfl, rfl⟩
  | false =>
      have hhalf := e.two_pow_bits
      have hlt : v.tail + e.BLOCK_SIZE - v.head < 2 ^ e.bits := by
        have hB := e.BLOCK_SIZE_le
        have hBlt := e.BLOCK_SIZE_lt
        have hold := h.oldest
        rcases h.s_le_t.lt_or_eq with hst | hst
        · have := h.small hst
          omega
        · rw [hst, ← hal] at hold
          omega
      rw [h.headIndex, h.tailIndex] at hfull
      have hlee := leeway (by omega) hlt hfull
      have hspan : (v.t + 1 - v.s) * e.BLOCK_SIZE ≤ 2 ^ (e.bits - 1) := by
        refine span_le hhead ?_
        rw [Nat.succ_mul, ← hal]
        omega
      obtain ⟨st₁, ok, c', k', hens, h₁, hok, hslot⟩ := h.ensureRoom mode hspan
      rw [hslot]
      simp only [Bool.false_eq_true, if_false, hens, Option.bind_eq_bind, Option.bind_some]
      cases ok with
      | false => exact ⟨st₁, false, _, rfl, fun _ => h₁, nofun, rfl, rfl, rfl⟩
      | true =>
          obtain ⟨hroom, hindex⟩ := hok rfl
          have hblock := block_requisitionBlock (e := e) st₁.mem mode k'
          rw [if_pos rfl, Option.bind_some, hblock]
          cases hreq : st₁.mem.requisitionBlock e mode with
          | mk b mem' =>
              cases b with
              | none =>
                  obtain ⟨n, rfl⟩ := Mem.requisitionBlock_none hreq
                  exact ⟨_, false, _, rfl, fun _ => h₁.setMallocs n, nofun, rfl, rfl, rfl⟩
              | some b =>
                  have hr := Mem.requisitionBlock_spec h₁.ring.wellFormed hreq
                  have hstarted := h₁.insert hal hspan (by omega) hroom hindex hr
                  obtain ⟨hdr, hhdr⟩ := hstarted.index
                  refine ⟨_, true, _, rfl, nofun, fun _ => hstarted, rfl, rfl, ?_⟩
                  rw [if_pos rfl, View.means, hhdr.header]
                  have hlink := (budget_onlyContents (e := e) (linkBlock_onlyContents b
                    ⟨mem'.modify b (Block.resetEmpty e.toTraits .explicitContext), st₁.prod⟩) k')
                  exact congrArg (fun x => some (⟨v.s, v.t + 1, true, x⟩ : Means)) hlink.symm

theorem Inv.startNewBlock (h : Inv e st v l) (mode : AllocationMode)
    (hal : v.tail = v.t * e.BLOCK_SIZE) :
    ∃ st' ok v', startNewBlock e mode st = some (st', ok) ∧
      (ok = false → Inv e st' v' l) ∧ (ok = true → Started e st' v' l) ∧ v'.tail = v.tail ∧
      v'.head = v.head ∧ (v.means e st).take e mode v.head =
        if ok then some (v'.means e st') else none := by
  have hlen := h.len
  have hold := h.oldest
  have hB := e.BLOCK_SIZE_pos
  have htail := h.tailBlock
  unfold Explicit.startNewBlock
  by_cases hst : v.s < v.t
  · rw [if_pos hst] at htail
    have hnext := h.ring.wrap hst
    have hempty := h.ring.isEmpty le_rfl hst (marked_le ..)
    simp only [htail, hnext, hempty, Option.bind_eq_bind, Option.bind_some, decide_eq_true_eq,
      marked_eq_iff hB]
    split
    case isTrue hreuse => exact ⟨_, true, _, rfl, nofun, fun _ =>
        h.reuse hal hst hreuse, rfl, rfl, if_pos ⟨hst, hreuse⟩⟩
    case isFalse hno =>
      rw [show (v.means e st).take e mode v.head = (v.means e st).insert e mode v.head from
        if_neg fun hreuse => hno hreuse.2]
      exact h.insertBlock mode hal (by omega)
  · rw [if_neg hst] at htail
    rw [htail]
    have hts : v.s = v.t := by
      have := h.s_le_t
      omega
    rw [show (v.means e st).take e mode v.head = (v.means e st).insert e mode v.head from
      if_neg fun hreuse => hst hreuse.1]
    exact h.insertBlock mode hal (by rw [hts, ← hal]; omega)

/-! ### The call -/

/-- Registering the block just started, and exposing it. -/
theorem Started.register (h : Started e st v l) :
    ∃ h' f, (∀ mem : Mem α,
        (pushEntry e st.prod.tailIndex ⟨mem, st.prod⟩).bind
            (exposeFront e st.prod.prBlockIndexFront) =
          some ⟨mem, { st.prod with blockIndex := some h', prBlockIndexFront := f }⟩) ∧
      IndexAt e { st.prod with blockIndex := some h', prBlockIndexFront := f }
        v.β v.s v.s v.t v.c v.k ∧
      h'.front = BitVec.ofNat e.bits ((v.c + (v.t - 1)) % 2 ^ v.k) := by
  obtain ⟨hdr, hindex⟩ := h.index
  have hlt := h.lt
  obtain ⟨h', -, hpush, hindex'⟩ := hindex.pushEntry (α := α) h.tailBlock
  rw [update_eq_self, Nat.sub_add_cancel (by omega)] at hindex'
  let hdr' := { h' with front := st.prod.prBlockIndexFront }
  refine ⟨hdr', BitVec.ofNat e.bits ((v.c + (v.t - 1 + 1)) % 2 ^ v.k), fun mem => ?_,
    ⟨h.slots, hindex.size, hindex.klt, hlt.le, h.room, le_rfl, .inr ⟨hdr', ?_⟩⟩, ?_⟩
  · rw [h.tailIndex, h.aligned, hpush mem]
    rfl
  · rw [Nat.sub_add_cancel (by omega)]
    exact ⟨rfl, hindex'.klt, hindex'.hsize, hindex'.size, rfl, hindex'.entries⟩
  · exact hindex.front

/-- The first element of the block just started. -/
theorem Started.finish (h : Started e st v l) (x : α) :
    ∃ h' f mem', (∀ mem : Mem α,
        (pushEntry e st.prod.tailIndex ⟨mem, st.prod⟩).bind
            (exposeFront e st.prod.prBlockIndexFront) =
          some ⟨mem, { st.prod with blockIndex := some h', prBlockIndexFront := f }⟩) ∧
      constructAt e st.prod.tailBlock st.prod.tailIndex x st.mem = some mem' ∧
      Inv e (setTailIndex e (1#e.bits + st.prod.tailIndex)
          ⟨mem', { st.prod with blockIndex := some h', prBlockIndexFront := f }⟩)
        { v with tail := v.tail + 1 } (l ++ [x]) := by
  obtain ⟨h', f, hreg, hindex, hfront⟩ := h.register
  have hlt := h.lt
  have hB := e.one_lt_BLOCK_SIZE
  have hal := h.aligned
  have hdiv : v.tail / e.BLOCK_SIZE = v.t - 1 := by
    rw [hal, Nat.mul_div_cancel _ e.BLOCK_SIZE_pos]
  have hsub : (v.t - 1) * e.BLOCK_SIZE + e.BLOCK_SIZE = v.t * e.BLOCK_SIZE := by
    rw [← Nat.succ_mul, Nat.succ_eq_add_one, Nat.sub_add_cancel (by omega)]
  obtain ⟨mem', hcons, hring⟩ := h.ring.constructAt h.len (by omega) (by omega) x
  rw [← h.tailIndex, hdiv, ← h.tailBlock] at hcons
  refine ⟨h', f, mem', hreg, hcons, ⟨hring, hindex.congr rfl rfl rfl rfl,
    fun _ => ⟨h', rfl, hfront⟩,
    ?_, h.headIndex, h.optimistic, ?_, ?_, h.oldest, ?_, h.bound, fun _ => h.small, ?_⟩⟩
  · show 1#e.bits + st.prod.tailIndex = _
    rw [h.tailIndex, BitVec.ofNat_add_ofNat, Nat.add_comm]
  · show st.prod.tailBlock = if v.s < v.t then _ else _
    rw [if_pos hlt, h.tailBlock]
  · have := h.len
    simp only [List.length_append, List.length_singleton]
    omega
  · constructor <;> dsimp only <;> omega
  · exact Nat.succ_pos _

theorem Inv.append (h : Inv e st v l) (hne : v.tail ≠ v.t * e.BLOCK_SIZE) (x : α) :
    ∃ mem', constructAt e st.prod.tailBlock st.prod.tailIndex x st.mem = some mem' ∧
      Inv e (setTailIndex e (1#e.bits + st.prod.tailIndex) { st with mem := mem' })
        { v with tail := v.tail + 1 } (l ++ [x]) := by
  obtain ⟨hst, hdiv⟩ := h.tail_div hne
  obtain ⟨h1, h2⟩ := h.newest
  have hlen := h.len
  obtain ⟨mem', hcons, hring⟩ := h.ring.constructAt h.len (by omega) (by omega) x
  refine ⟨mem', ?_, { h with
    ring := hring
    index := h.index.congr rfl rfl rfl rfl
    exposed := fun hst => ?_
    tailIndex := ?_
    len := ?_
    newest := ⟨?_, ?_⟩
    pos := Nat.succ_pos _ }⟩
  · rw [h.tailIndex, h.tailBlock, if_pos hst, ← hdiv, hcons]
  · exact h.exposed hst
  · show 1#e.bits + st.prod.tailIndex = _
    rw [h.tailIndex, BitVec.ofNat_add_ofNat, Nat.add_comm]
  · simp only [List.length_append, List.length_singleton]
    omega
  · show v.tail + 1 ≤ v.t * e.BLOCK_SIZE
    omega
  · show v.t * e.BLOCK_SIZE < v.tail + 1 + e.BLOCK_SIZE
    omega

/-- The blocks that `n` elements need beyond those of the ring. -/
def View.needed (e : Env) (v : View) (n : Nat) : Nat :=
  (v.tail + n - 1) / e.BLOCK_SIZE + 1 - v.t

/-- A single element needs a block if it is the first of one. -/
theorem Inv.needed_one (h : Inv e st v l) :
    v.needed e 1 = if v.tail = v.t * e.BLOCK_SIZE then 1 else 0 := by
  have hB := e.BLOCK_SIZE_pos
  rw [View.needed, Nat.add_sub_cancel]
  split
  case isTrue hal =>
      rw [hal, Nat.mul_div_cancel _ hB]
      omega
  case isFalse hne =>
      obtain ⟨hst, hdiv⟩ := h.tail_div hne
      rw [hdiv]
      omega

/-- **Enqueue**: the element is appended, or the queue is as before. -/
theorem Inv.enqueue (h : Inv e st v l) (mode : AllocationMode) (ctor : Ctor) (x : α) :
    ∃ st' r, enqueue e mode ctor x st = some (st', r) ∧
      (r = .returned true → ∃ v', Inv e st' v' (l ++ [x]) ∧ v'.head = v.head ∧
        (v.means e st).takeMany e mode v.head (v.needed e 1) = some (v'.means e st')) ∧
      (r = .returned false → (∃ v', Inv e st' v' l) ∧
        (v.means e st).takeMany e mode v.head (v.needed e 1) = none) ∧
      (r = .threw → ctor.throws 0 = true ∧
        (st.prod.tailIndex &&& e.blockMask ≠ 0 → st' = st)) := by
  rw [h.needed_one]
  unfold Explicit.enqueue
  by_cases hmask : st.prod.tailIndex &&& e.blockMask = 0
  · obtain ⟨st₁, ok, v₁, hstart, hno, hok, htail, hhead, htake⟩ :=
      h.startNewBlock mode (h.and_blockMask.mp hmask)
    rw [if_pos (h.and_blockMask.mp hmask), Means.takeMany, htake]
    simp only [if_pos hmask, hstart, Option.bind_eq_bind, Option.bind_some]
    cases ok with
    | false => exact ⟨st₁, .returned false, rfl, nofun, fun _ => ⟨⟨v₁, hno rfl⟩, rfl⟩, nofun⟩
    | true =>
        have hstarted := hok rfl
        obtain ⟨h', f, mem', hreg, hcons, hinv⟩ := hstarted.finish x
        rw [hstarted.tailIndex, htail, ← h.tailIndex] at hreg hcons hinv
        simp only [Bool.not_true, Bool.false_eq_true, if_false]
        split
        case isTrue ht => exact ⟨_, .threw, rfl, nofun, nofun, fun _ =>
            ⟨ht, fun hne => absurd hmask hne⟩⟩
        case isFalse =>
          refine ⟨_, .returned true, ?_, fun _ => ⟨_, hinv, hhead, ?_⟩, nofun, nofun⟩
          · split
            · -- the block is registered first when the constructor cannot throw
              rw [← Option.bind_assoc, hreg st₁.mem, Option.bind_some, hcons, Option.bind_some]
            · rw [hcons, Option.bind_some, ← Option.bind_assoc, hreg mem', Option.bind_some]
          · obtain ⟨hdr, hhdr⟩ := hstarted.index
            exact congrArg some (View.means_eq rfl rfl rfl (by rw [hhdr.header]; rfl)
              (.constructAt hcons)).symm
  · have hne : v.tail ≠ v.t * e.BLOCK_SIZE := fun hal => hmask (h.and_blockMask.mpr hal)
    obtain ⟨mem', hcons, hinv⟩ := h.append hne x
    rw [if_neg hne]
    simp only [if_neg hmask]
    split
    case isTrue hthrow => exact ⟨st, .threw, rfl, nofun, nofun, fun _ => ⟨hthrow, fun _ => rfl⟩⟩
    case isFalse =>
      simp only [hcons, Option.bind_eq_bind, Option.bind_some]
      refine ⟨_, .returned true, rfl, fun _ => ⟨_, hinv, rfl, ?_⟩, nofun, nofun⟩
      refine congrArg some (Eq.symm ?_)
      exact View.means_eq rfl rfl rfl rfl (.constructAt hcons)

end ConcurrentQueue.Explicit
