import ConcurrentQueue.ImplicitInv

/-!
# ConcurrentQueue.ImplicitEnqueue

`enqueue` constructs one element behind the last. At the start of a block it first
takes **an entry on the index and a block, or neither** (`Stock.acquire`): when the
block cannot be had, or the constructor throws, the entry is taken back and the block
released, and the producer has what it had before.
-/

namespace ConcurrentQueue.Implicit

open Function Wrap
open Option (bind_eq_bind bind_some)

variable {α : Type} {e : Env} {st : State e.bits α} {v : View} {l : List α}
  {p p' p'' : ImplicitProducer e.bits} {β : Nat → Nat} {ν : Nat → Option Nat} {s t c k : Nat}
  {mem : Mem α} {f : Nat → Option α} {g : Nat → Nat} {h : BlockIndexHeader e.bits}

/-- Nothing but the block index of the producer differs. -/
def Reindexed (p p' : ImplicitProducer e.bits) : Prop :=
  ∃ index next, p' = { p with blockIndex := index, nextBlockIndexCapacity := next }

theorem Reindexed.refl (p : ImplicitProducer e.bits) : Reindexed p p := ⟨_, _, rfl⟩

theorem Reindexed.trans (h : Reindexed p p') (h' : Reindexed p' p'') : Reindexed p p'' := by
  obtain ⟨index, next, rfl⟩ := h
  obtain ⟨index', next', rfl⟩ := h'
  exact ⟨index', next', rfl⟩

/-! ### An entry on the index -/

section Entry

variable {w : Option (Option Nat)}
  (hi : Index e h (update (fun q => some (some (β q))) t w) s (t + 1) t c k)
  (hst : s ≤ t) (hb : st.prod.blockIndex = some h)
include hi hst hb

/-- The new entry gets its block. -/
theorem Index.fill (b : Nat) :
    ∃ h', Implicit.storeValue e (BitVec.ofNat e.bits ((c + t) % 2 ^ k)) (some b) st =
        some (setHeader e h' st) ∧
      Index e h' (fun q => some (some (update β t b q))) s (t + 1) t c k := by
  obtain ⟨h', hstore, hi'⟩ := hi.storeValue hb hst (Nat.lt_succ_self t) (some b)
  refine ⟨h', hstore, hi'.congr fun q hs ht => ?_⟩
  by_cases hq : q = t
  · rw [hq, update_self, update_self]
  · rw [update_of_ne hq, update_of_ne hq, update_of_ne hq]

/-- The new entry is taken back. -/
theorem Index.cancel (ht : 0 < t) :
    ∃ h', cancelEntry e (BitVec.ofNat e.bits ((c + t) % 2 ^ k)) st = some (setHeader e h' st) ∧
      Index e h' (fun q => some (some (β q))) s t (t - 1) c k := by
  obtain ⟨u, rfl⟩ : ∃ u, t = u + 1 := Nat.exists_eq_succ_of_ne_zero ht.ne'
  obtain ⟨h₁, hrewind, hi₁⟩ := hi.rewind hb
  obtain ⟨h₂, hstore, hi₂⟩ := hi₁.storeValue
    (show (setHeader e h₁ st).prod.blockIndex = some h₁ from rfl) hst (Nat.lt_succ_self _) none
  refine ⟨h₂, ?_, (hi₂.shrink hst (Nat.le_succ _) fun q hq hqt => ?_).congr fun q hs hq => ?_⟩
  · simp only [cancelEntry, hrewind, bind_eq_bind, bind_some]
    exact hstore
  · obtain rfl : q = u + 1 := by omega
    rw [update_self]
  · rw [update_of_ne (by omega), update_of_ne (by omega)]

end Entry

/-! ### Another block -/

/-- A block that is handed out and reset gets the next number. -/
theorem Stock.takeBlock (h : Stock e mem p β ν s t c k f g)
    (hf : ∀ i < e.BLOCK_SIZE, f (t * e.BLOCK_SIZE + i) = none) {mode : AllocationMode} {n b : Nat}
    {m₁ : Mem α} (hr : Mem.requisitionBlock e mode { mem with mallocs := n } = (some b, m₁)) :
    Traffic e (window β s t) (window (update β t b) s (t + 1)) mem
      (m₁.modify b (Block.resetEmpty e.toTraits .implicitContext)) ∧
    Held e .implicitContext (m₁.modify b (Block.resetEmpty e.toTraits .implicitContext))
      (update β t b) s (t + 1) (update ν t (m₁.blocks b).next) f
      (update g t 0) := by
  have htraffic₀ : Traffic e (window β s t) (window β s t) mem { mem with mallocs := n } :=
    (Within.mallocs n).traffic h.has
  have hreq := Mem.requisitionBlock_spec htraffic₀.has.accounted.wellFormed hr
  obtain ⟨hheld, hne⟩ := (h.held.setMallocs n).requisitioned hreq
  have htraffic₁ := htraffic₀.has.requisition hr
  have hwithin : Within e (insert b (window β s t)) m₁
      (m₁.modify b (Block.resetEmpty e.toTraits .implicitContext)) := by
    refine Within.setBlock (.inl rfl) ?_ fun i _ => by rw [Block.elements_resetEmpty]
    unfold Block.resetEmpty
    split <;> rfl
  have htraffic := (htraffic₀.trans htraffic₁).trans (hwithin.traffic htraffic₁.has)
  rw [← window_succ b h.le] at htraffic
  have hblock : (m₁.modify b (Block.resetEmpty e.toTraits .implicitContext)).blocks b =
      (m₁.blocks b).resetEmpty e.toTraits .implicitContext := update_self ..
  refine ⟨htraffic, hheld.push hne htraffic.has.accounted.wellFormed (fun q hs ht => ?_) ?_ hf
    (fun i => ?_) ?_ (fun q hs ht => ?_) ?_⟩
  · exact hheld.used q hs ht
  · exact (htraffic.has.inUse ⟨t, h.le, Nat.lt_succ_self t, update_self ..⟩).1
  · rw [hblock, Block.elements_resetEmpty]
    exact hreq.vacant i
  · rw [hblock]
    exact Block.marked_resetEmpty _
  · have hkept : (m₁.modify b (Block.resetEmpty e.toTraits .implicitContext)).blocks (β q) =
        m₁.blocks (β q) := update_of_ne (hne q hs ht) ..
    rw [hkept, update_of_ne ht.ne, ← hheld.link q hs ht]
  · rw [hblock, Block.next_resetEmpty, update_self]

/-- The last block is given back, all its slots being free. -/
theorem Stock.giveBack {b : Nat} (hst : s ≤ t)
    (hhas : Has e (window (update β t b) s (t + 1)) mem)
    (hheld : Held e .implicitContext mem (update β t b) s (t + 1) ν f g)
    (hf : ∀ i < e.BLOCK_SIZE, f (t * e.BLOCK_SIZE + i) = none) {ν' : Nat → Option Nat}
    (hν : ∀ q < t, ν' q = ν q) :
    Traffic e (window (update β t b) s (t + 1)) (window β s t) mem
      (mem.addBlockToFreeList e b) ∧
    Held e .implicitContext (mem.addBlockToFreeList e b) β s t ν' f g := by
  have hbt : update β t b t = b := update_self ..
  have hne : ∀ q, s ≤ q → q < t → β q ≠ b := fun q hs ht heq => by
    have := hheld.inj q t hs (by omega) hst (Nat.lt_succ_self t)
      (by rw [hbt, update_of_ne ht.ne, heq])
    omega
  have hnot : b ∉ window β s t := fun ⟨q, hs, ht, heq⟩ => hne q hs ht heq
  have hrelease := hhas.release (b := b) ⟨t, hst, Nat.lt_succ_self t, hbt⟩ fun i hi => by
    rw [← hf i hi, ← hheld.slot t i hst (Nat.lt_succ_self t) hi, hbt]
  rw [window_succ b hst, Set.insert_sdiff_of_mem _ (Set.mem_singleton b),
    Set.sdiff_singleton_eq_self hnot] at hrelease
  rw [window_succ b hst]
  refine ⟨hrelease, (hheld.mono le_rfl (Nat.le_succ t) (fun q hs ht => ?_)
    fun q hs ht => hν q ht).of_has hrelease.has le_rfl
    fun q hs ht => by rw [Mem.blocks_addBlockToFreeList]⟩
  rw [update_of_ne ht.ne]

/-! ### What a producer can get -/

/-- The block `b` and the slot of the block number `t` have been acquired, and the
slot's value is still to be stored. -/
structure Acquired (mode : AllocationMode) (st st' : State e.bits α) (β : Nat → Nat)
    (ν : Nat → Option Nat) (s t k : Nat) (f : Nat → Option α) (g : Nat → Nat) (b : Nat)
    (hdr : BlockIndexHeader e.bits) (c' k' : Nat) : Prop where
  prod : st'.prod = withIndex st.prod hdr (BitVec.ofNat e.bits (2 ^ (k' + 1)))
  index : ∃ v, Index e hdr (update (fun q => some (some (β q))) t v) s (t + 1) t c' k'
  grown : k ≤ k'
  traffic : Traffic e (window β s t) (window (update β t b) s (t + 1)) st.mem st'.mem
  held : Held e .implicitContext st'.mem (update β t b) s (t + 1)
    (update ν t (st'.mem.blocks b).next) f (update g t 0)
  spent : (budget e st.mem k).acquire e mode s t = some (budget e st'.mem k')

theorem Stock.acquire (h : Stock e st.mem st.prod β ν s t c k f g)
    (hspan : (t + 1 - s) * e.BLOCK_SIZE ≤ 2 ^ (e.bits - 1))
    (hf : ∀ i < e.BLOCK_SIZE, f (t * e.BLOCK_SIZE + i) = none) (mode : AllocationMode) :
    (st.prod.blockIndex.isSome = true ∧ ∃ st' b hdr c' k',
      acquireBlock e mode (BitVec.ofNat e.bits (t * e.BLOCK_SIZE)) st =
        some (st', some (BitVec.ofNat e.bits ((c' + t) % 2 ^ k'), b)) ∧
      Acquired mode st st' β ν s t k f g b hdr c' k') ∨
    ((st.prod.blockIndex.isSome = false ∨ (budget e st.mem k).acquire e mode s t = none) ∧
      ∃ st' c' k' n, acquireBlock e mode (BitVec.ofNat e.bits (t * e.BLOCK_SIZE)) st =
        some (st', none) ∧ Reindexed st.prod st'.prod ∧
          st'.mem = { st.mem with mallocs := n } ∧ k ≤ k' ∧
      Stock e st'.mem st'.prod β ν s t c' k' f g) := by
  have hst := h.le
  have hpos := h.pos
  rcases h.index with ⟨hnone, heq⟩ | ⟨hdr, hhdr, hnext, hi⟩
  · -- without an index nothing can be inserted
    refine .inr ⟨.inl (by rw [hnone]; rfl), st, c, k, st.mem.mallocs, ?_, .refl _, rfl, le_rfl,
      h⟩
    simp only [acquireBlock, insertBlockIndexEntry, hnone, bind_eq_bind, bind_some]
  · have hgrow : t = s + 2 ^ k → k + 1 < e.bits ∧
        ∃ b, (fun q => some (some (β q))) s = some (some b) := by
      refine fun hfull => ⟨?_, β s, rfl⟩
      have hB := e.one_lt_BLOCK_SIZE
      have hlt : 2 ^ (k + 1) < 2 ^ e.bits := by
        have hmul : (2 ^ k + 1) * 2 ≤ (t + 1 - s) * e.BLOCK_SIZE :=
          Nat.mul_le_mul (by omega) hB
        have hhalf := e.two_pow_bits
        have hpow := Nat.two_pow_pos (e.bits - 1)
        rw [pow_succ]
        omega
      exact (Nat.pow_lt_pow_iff_right (by omega : 1 < 2)).mp hlt
    rcases hi.insert (Nat.sub_add_cancel hpos) hhdr hnext hgrow mode with
      ⟨hcan, st₁, slot, hins, ⟨hdr₁, w, c', k', hk, rfl, hprod₁, hi₁, hgrown⟩⟩ | ⟨hcan, n, hins⟩
    · obtain ⟨n, hmem₁, hslot⟩ : ∃ n, st₁.mem = { st.mem with mallocs := n } ∧
          (budget e st.mem k).slot e mode s t =
            some (budget e { st.mem with mallocs := n } k') := by
        have hroom₁ := hi₁.room
        rcases hgrown with ⟨rfl, hmem⟩ | ⟨hfull, rfl, hmem⟩
        · exact ⟨st.mem.mallocs, hmem, if_pos (show t < s + 2 ^ k' by omega)⟩
        · have hno : ¬ t < s + 2 ^ k := by omega
          have hok : (mode == .canAlloc && e.mallocOk st.mem.mallocs) = true := by
            simpa [canInsert, hno] using hcan
          refine ⟨st.mem.mallocs + 1, hmem, ?_⟩
          rw [Budget.slot, if_neg (show ¬ t < s + 2 ^ (budget e st.mem k).k from hno)]
          exact if_pos hok
      have hspent : (budget e st.mem k).acquire e mode s t =
          (Mem.requisitionBlock e mode { st.mem with mallocs := n }).1.map fun _ =>
            budget e (Mem.requisitionBlock e mode { st.mem with mallocs := n }).2 k' := by
        rw [Budget.acquire, hslot, bind_some,
          block_requisitionBlock { st.mem with mallocs := n } mode k']
      cases hreq : Mem.requisitionBlock e mode { st.mem with mallocs := n } with
      | mk found m₁ =>
          cases found with
          | none =>
              -- the entry is taken back
              obtain ⟨n', rfl⟩ := Mem.requisitionBlock_none hreq
              have hindex₁ : (setMem e { st.mem with mallocs := n' } st₁).prod.blockIndex =
                  some hdr₁ := by
                show st₁.prod.blockIndex = _
                rw [hprod₁]
                rfl
              obtain ⟨hdr₂, hcancel, hi₂⟩ := hi₁.cancel hst hindex₁ hpos
              have htraffic : Traffic e (window β s t) (window β s t) st.mem
                  { st.mem with mallocs := n' } := (Within.mallocs n').traffic h.has
              rw [hreq] at hspent
              refine .inr ⟨.inr hspent,
                setHeader e hdr₂ (setMem e { st.mem with mallocs := n' } st₁), c', k',
                n', ?_, ?_, rfl, hk, htraffic.has,
                h.held.setMallocs n', .inr ⟨hdr₂, rfl, ?_, hi₂⟩, hst, hpos⟩
              · simp only [acquireBlock, hins, bind_eq_bind, bind_some, hmem₁, hreq,
                  hcancel]
              · rw [setHeader, setMem, hprod₁]
                exact ⟨_, _, rfl⟩
              · rw [setHeader, setMem, hprod₁]
                rfl
          | some b =>
              obtain ⟨htraffic, hheld⟩ := h.takeBlock hf hreq
              have hnextb : (m₁.blocks b).next = ((m₁.modify b
                  (Block.resetEmpty e.toTraits .implicitContext)).blocks b).next := by
                rw [Mem.modify, Mem.blocks_setBlock, update_self, Block.next_resetEmpty]
              rw [hnextb] at hheld
              rw [hreq] at hspent
              refine .inl ⟨by rw [hhdr]; rfl, setMem e (m₁.modify b
                (Block.resetEmpty e.toTraits .implicitContext)) st₁, b, hdr₁, c', k', ?_,
                  ⟨?_, ⟨w, hi₁⟩, hk, htraffic, hheld, hspent⟩⟩
              · simp only [acquireBlock, hins, bind_eq_bind, bind_some, hmem₁, hreq]
              · exact hprod₁
    · have htraffic : Traffic e (window β s t) (window β s t) st.mem
          { st.mem with mallocs := n } := (Within.mallocs n).traffic h.has
      have hnone : (budget e st.mem k).acquire e mode s t = none := by
        obtain ⟨hno, hok⟩ := Bool.or_eq_false_iff.mp hcan
        simp only [Budget.acquire, Budget.slot, Budget.growIndex, budget,
          if_neg (of_decide_eq_false hno), hok,
          Bool.false_eq_true, if_false, Option.bind_none]
      refine .inr ⟨.inr hnone, ⟨{ st.mem with mallocs := n }, st.prod⟩, c, k, n, ?_, .refl _, rfl,
        le_rfl, htraffic.has, h.held.setMallocs n, h.index, hst, hpos⟩
      simp only [acquireBlock, hins, bind_eq_bind, bind_some]

/-! ### One element -/

/-- The test that leaves leeway for another block. -/
theorem of_not_full {head : Nat} (hle : head ≤ t * e.BLOCK_SIZE)
    (hbound : t * e.BLOCK_SIZE < head + 2 ^ (e.bits - 1))
    (hfull : full e (BitVec.ofNat e.bits head) (BitVec.ofNat e.bits (t * e.BLOCK_SIZE)) = false) :
    (t + 1) * e.BLOCK_SIZE < head + 2 ^ (e.bits - 1) := by
  have hhalf := e.two_pow_bits
  have hB := e.BLOCK_SIZE_le
  have hless := (Bool.or_eq_false_iff.mp hfull).1
  rw [Bool.not_eq_false', Traits.blockSize, BitVec.ofNat_add_ofNat,
    circularLessThan_ofNat e.bits_pos (by omega) (by omega)] at hless
  rw [Nat.succ_mul]
  omega

/-- A new block has no marks, and the head is not beyond it. -/
theorem update_marked_zero {B head : Nat} (hle : head ≤ t * B) :
    update (marked B head) t 0 = marked B head := by
  rw [← marked_eq_zero hle, update_eq_self]

/-- The blocks that `n` elements need beyond those that the producer holds. -/
def needed (e : Env) (v : View) (n : Nat) : Nat := (v.tail + n - 1) / e.BLOCK_SIZE + 1 - v.t

/-- There is room in the tail block, or another block can be had. -/
def hasRoom (e : Env) (mode : AllocationMode) (st : State e.bits α) (v : View) : Bool :=
  decide (v.tail % e.BLOCK_SIZE ≠ 0) ||
    (!full e st.prod.headIndex st.prod.tailIndex && st.prod.blockIndex.isSome &&
      ((budget e st.mem v.k).acquire e mode v.s v.t).isSome)

namespace Inv

theorem head_le (h : Inv e st v l) : v.head ≤ v.t * e.BLOCK_SIZE := by
  have hlen := h.len
  have hnew := h.newest.1
  omega

theorem bound_lt (h : Inv e st v l) : v.t * e.BLOCK_SIZE < v.head + 2 ^ (e.bits - 1) := by
  rcases h.stock.le.lt_or_eq with hst | hst
  · exact h.bound hst
  · have hpos := Nat.two_pow_pos (e.bits - 1)
    have := (h.of_no_block hst).2.2
    omega

/-- The slots behind the tail are free. -/
theorem free_behind (h : Inv e st v l) {q : Nat} (hq : v.t ≤ q) (i : Nat) :
    slotAt v.head l (q * e.BLOCK_SIZE + i) = none := by
  have hlen := h.len
  have hnew := h.newest.1
  have hmul : v.t * e.BLOCK_SIZE ≤ q * e.BLOCK_SIZE := Nat.mul_le_mul_right _ hq
  exact slotAt_of_ge (by omega)

/-- The same queue with another index. -/
theorem reindex (h : Inv e st v l) {st' : State e.bits α} {β' : Nat → Nat} {ν' : Nat → Option Nat}
    {c' k' : Nat} (hp : Reindexed st.prod st'.prod)
    (hstock : Stock e st'.mem st'.prod β' ν' v.s v.t c' k' (slotAt v.head l)
      (marked e.BLOCK_SIZE v.head)) (hβ : v.s < v.t → β' (v.t - 1) = v.β (v.t - 1)) :
    Inv e st' { v with β := β', ν := ν', c := c', k := k' } l := by
  obtain ⟨index, next, hp⟩ := hp
  refine { h with stock := hstock, tailIndex := ?_, headIndex := ?_, optimistic := ?_,
                  tailBlock := fun hst => ?_ }
  · rw [hp]
    exact h.tailIndex
  · rw [hp]
    exact h.headIndex
  · rw [hp]
    exact h.optimistic
  · rw [hp]
    exact (h.tailBlock hst).trans (congrArg some (hβ hst).symm)

/-- One more element in the last of the blocks that the producer holds then. -/
theorem append (h : Inv e st v l) {mem' : Mem α} {p' : ImplicitProducer e.bits} {β' : Nat → Nat}
    {ν' : Nat → Option Nat} {t' c' k' : Nat} {xs : List α}
    (hp : Reindexed { st.prod with
      tailIndex := BitVec.ofNat e.bits (v.tail + xs.length)
      tailBlock := p'.tailBlock } p')
    (hstock : Stock e mem' p' β' ν' v.s t' c' k' (slotAt v.head (l ++ xs))
      (marked e.BLOCK_SIZE v.head))
    (htb : v.s < t' → p'.tailBlock = some (β' (t' - 1)))
    (hnew : v.tail + xs.length ≤ t' * e.BLOCK_SIZE ∧
      t' * e.BLOCK_SIZE < v.tail + xs.length + e.BLOCK_SIZE)
    (hbound : v.s < t' → t' * e.BLOCK_SIZE < v.head + 2 ^ (e.bits - 1))
    (hsmall : v.s < t' → e.BLOCK_SIZE < 2 ^ (e.bits - 1)) :
    Inv e ⟨mem', p'⟩ ⟨β', ν', v.s, t', c', k', v.tail + xs.length, v.head⟩ (l ++ xs) := by
  have hlen := h.len
  obtain ⟨index, next, hp⟩ := hp
  refine ⟨hstock, ?_, ?_, ?_, htb, ?_, h.oldest, hnew, hbound, hsmall⟩
  · rw [hp]
  · rw [hp]
    exact h.headIndex
  · rw [hp]
    exact h.optimistic
  · dsimp only
    rw [List.length_append]
    omega

/-- The tail is at the start of a block only when a new one is needed. -/
theorem aligned_iff (h : Inv e st v l) :
    v.tail % e.BLOCK_SIZE = 0 ↔ v.tail = v.t * e.BLOCK_SIZE := by
  have hpos := e.BLOCK_SIZE_pos
  obtain ⟨hlo, hhi⟩ := h.newest
  constructor
  · intro hmod
    obtain ⟨q, hq⟩ := Nat.dvd_of_mod_eq_zero hmod
    rw [Nat.mul_comm] at hq
    have hle : q ≤ v.t := Nat.le_of_mul_le_mul_right (by omega) hpos
    have hge : v.t < q + 1 := Nat.lt_of_mul_lt_mul_right (a := e.BLOCK_SIZE) (by
      rw [Nat.succ_mul]
      omega)
    rw [hq, show q = v.t by omega]
  · intro heq
    rw [heq, Nat.mul_mod_left]

/-- The block of the tail, when there is room in it. -/
theorem tail_block (h : Inv e st v l) (hmod : v.tail % e.BLOCK_SIZE ≠ 0) :
    v.s < v.t ∧ v.tail / e.BLOCK_SIZE = v.t - 1 := by
  have hpos := e.BLOCK_SIZE_pos
  have hst : v.s < v.t := h.stock.le.lt_of_ne fun heq =>
    hmod (h.aligned_iff.mpr (h.of_no_block heq).2.1)
  obtain ⟨hlo, hhi⟩ := h.newest
  have hne : v.tail ≠ v.t * e.BLOCK_SIZE := mt h.aligned_iff.mpr hmod
  obtain ⟨r, hr⟩ : ∃ r, v.t = r + 1 := Nat.exists_eq_succ_of_ne_zero (by omega)
  rw [hr, Nat.succ_mul] at hlo hhi hne
  refine ⟨hst, ?_⟩
  rw [show v.tail = r * e.BLOCK_SIZE + (v.tail - r * e.BLOCK_SIZE) by omega,
    block_div (by omega)]
  omega

/-- The assertion that the tail is not before the head. -/
theorem tail_not_less (h : Inv e st v l) {q : Nat} (hq : v.tail ≤ q)
    (hbound : q ≤ v.head + 2 ^ (e.bits - 1)) :
    circularLessThan (BitVec.ofNat e.bits q) (BitVec.ofNat e.bits v.head) = false := by
  have hlen := h.len
  exact circularLessThan_ofNat_of_le e.bits_pos (by omega) (by omega)

end Inv

/-- An enqueue call may add blocks behind those that the producer holds. -/
structure Grows (st : State e.bits α) (v : View) (st' : State e.bits α) (v' : View) : Prop where
  traffic : Traffic e (window v.β v.s v.t) (window v'.β v'.s v'.t) st.mem st'.mem
  s_eq : v'.s = v.s
  head_eq : v'.head = v.head
  old : ∀ q < v.t, v'.β q = v.β q
  grown : v.k ≤ v'.k

namespace Inv

theorem grows_refl (h : Inv e st v l) : Grows st v st v :=
  ⟨h.stock.has.refl, rfl, rfl, fun _ _ => rfl, le_rfl⟩

/-- **Enqueue**: the element is behind the others, or nothing has changed but the
size of the index. -/
theorem enqueue (h : Inv e st v l) (mode : AllocationMode) (ctor : Ctor) (x : α) :
    ∃ st' v', Implicit.enqueue e mode ctor x st = some (st',
        if hasRoom e mode st v then (if ctor.throws 0 then .threw else .returned true)
        else .returned false) ∧
      Inv e st' v' (if hasRoom e mode st v && !ctor.throws 0 then l ++ [x] else l) ∧
      Grows st v st' v' ∧
      (hasRoom e mode st v = true → ctor.throws 0 = false →
        (budget e st.mem v.k).acquireMany e mode v.head v.s (needed e v 1) v.t =
          some (budget e st'.mem v'.k)) := by
  have hlen := h.len
  have hdone : ∀ i, 1#e.bits + BitVec.ofNat e.bits i = BitVec.ofNat e.bits (i + [x].length) := by
    intro i
    rw [BitVec.ofNat_add_ofNat, Nat.add_comm]
    rfl
  by_cases hmod : v.tail % e.BLOCK_SIZE = 0
  case neg =>
    have hroom : hasRoom e mode st v = true := by simp [hasRoom, hmod]
    have hnot : ¬ st.prod.tailIndex &&& e.blockMask = 0 := by
      rw [h.tailIndex, e.and_blockMask_eq_zero]
      exact hmod
    rw [hroom]
    cases hthrow : ctor.throws 0 with
    | true =>
        refine ⟨st, v, ?_, h, h.grows_refl, nofun⟩
        simp only [Implicit.enqueue, if_neg hnot, hthrow, if_true]
    | false =>
        obtain ⟨hst, hdiv⟩ := h.tail_block hmod
        obtain ⟨mem', hcons, hheld⟩ := h.stock.held.constructAt hlen (by omega) (by omega) x
        rw [hdiv] at hcons
        have htraffic := (Within.constructAt (mem_window (by omega) (by omega)) hcons).traffic
          h.stock.has
        rw [← h.tailBlock hst, ← h.tailIndex] at hcons
        refine ⟨setTailIndex e (1#e.bits + st.prod.tailIndex) (setMem e mem' st),
          { v with tail := v.tail + [x].length }, ?_,
          h.append ⟨st.prod.blockIndex, st.prod.nextBlockIndexCapacity, ?_⟩
            ⟨htraffic.has, hheld, h.stock.index, h.stock.le, h.stock.pos⟩ h.tailBlock ?_ h.bound
            h.small, ⟨htraffic, rfl, rfl, fun _ _ => rfl, le_rfl⟩, fun _ _ => ?_⟩
        · simp only [Implicit.enqueue, if_neg hnot, hthrow, Bool.false_eq_true, if_false, hcons,
            bind_eq_bind, bind_some, if_true]
        · rw [← hdone, ← h.tailIndex]
          rfl
        · have hne : v.tail ≠ v.t * e.BLOCK_SIZE := mt h.aligned_iff.mpr hmod
          have hnew := h.newest
          simp only [List.length_singleton]
          omega
        · have hzero : needed e v 1 = 0 := by
            rw [needed, Nat.add_sub_cancel, hdiv]
            omega
          rw [hzero, Budget.acquireMany]
          exact congrArg some (budget_onlyContents (.constructAt hcons) _).symm
  case pos =>
    have htail := h.aligned_iff.mp hmod
    have hyes : st.prod.tailIndex &&& e.blockMask = 0 := by
      rw [h.tailIndex, e.and_blockMask_eq_zero]
      exact hmod
    have hbound := h.bound_lt
    have hassert : circularLessThan st.prod.tailIndex st.prod.headIndex = false := by
      rw [h.tailIndex, h.headIndex]
      exact h.tail_not_less le_rfl (by omega)
    cases hfull : full e st.prod.headIndex st.prod.tailIndex with
    | true =>
        have hroom : hasRoom e mode st v = false := by simp [hasRoom, hmod, hfull]
        rw [hroom]
        refine ⟨st, v, ?_, h, h.grows_refl, nofun⟩
        simp only [Implicit.enqueue, hyes, hassert, hfull, if_true, Bool.false_eq_true, if_false]
    | false =>
        have hcan : hasRoom e mode st v = (st.prod.blockIndex.isSome &&
            ((budget e st.mem v.k).acquire e mode v.s v.t).isSome) := by
          simp [hasRoom, hmod, hfull]
        have hnext : (v.t + 1) * e.BLOCK_SIZE < v.head + 2 ^ (e.bits - 1) := by
          rw [h.headIndex, h.tailIndex, htail] at hfull
          exact of_not_full h.head_le hbound hfull
        have hst := h.stock.le
        have hspan := span_le (by omega) h.oldest.2 hnext
        have hfree := h.free_behind le_rfl
        rw [hcan]
        rcases h.stock.acquire hspan (fun i _ => hfree i) mode with
          ⟨hac, st₁, b, hdr, c', k', hacq, ha⟩ | ⟨hac, st₁, c', k', n, hacq, hre, hmem, hk, hstock⟩
        · obtain ⟨w, hi⟩ := ha.index
          have hindex : st₁.prod.blockIndex = some hdr := by
            rw [ha.prod]
            rfl
          have hheld := ha.held
          rw [update_marked_zero h.head_le] at hheld
          rw [hac, ha.spent]
          rw [← htail, ← h.tailIndex] at hacq
          cases hthrow : ctor.throws 0 with
          | true =>
              -- the entry is taken back, and the block given back
              obtain ⟨hdr₂, hcancel, hi₂⟩ := hi.cancel hst hindex h.stock.pos
              obtain ⟨htraffic, hheld₂⟩ := Stock.giveBack hst ha.traffic.has hheld
                (fun i _ => hfree i) fun q hq =>
                  (update_of_ne hq.ne (st₁.mem.blocks b).next v.ν).symm
              have hall := ha.traffic.trans htraffic
              refine ⟨setMem e (st₁.mem.addBlockToFreeList e b) (setHeader e hdr₂ st₁),
                { v with c := c', k := k' }, ?_, h.reindex ?_
                  ⟨hall.has, hheld₂, .inr ⟨hdr₂, rfl, ?_, hi₂⟩,
                  hst, h.stock.pos⟩ fun _ => rfl, ⟨hall, rfl, rfl, fun _ _ => rfl, ha.grown⟩, nofun⟩
              · simp only [Implicit.enqueue, hyes, hassert, hfull, if_true, Bool.false_eq_true,
                  if_false, hacq, bind_eq_bind, bind_some, hthrow, hcancel]
                rfl
              · rw [setMem, setHeader, ha.prod]
                exact ⟨_, _, rfl⟩
              · rw [setMem, setHeader, ha.prod]
                rfl
          | false =>
              have hdiv : v.tail / e.BLOCK_SIZE = v.t := by
                rw [htail, Nat.mul_div_cancel _ e.BLOCK_SIZE_pos]
              obtain ⟨mem', hcons, hheld'⟩ := hheld.constructAt hlen (by omega) (by omega) x
              have hb : update v.β v.t b v.t = b := update_self ..
              rw [hdiv, hb] at hcons
              have hwithin := Within.constructAt
                (A := window (update v.β v.t b) v.s (v.t + 1))
                ⟨v.t, hst, Nat.lt_succ_self _, hb⟩ hcons
              have hall := ha.traffic.trans (hwithin.traffic ha.traffic.has)
              rw [← h.tailIndex] at hcons
              -- whether the element or the entry comes first, the state is the same then
              have hfinal : ∀ hdr', Index e hdr'
                  (fun q => some (some (update v.β v.t b q))) v.s (v.t + 1) v.t c' k' →
                  Inv e (setTailIndex e (1#e.bits + st.prod.tailIndex)
                    (setMem e mem' (setTailBlock e (some b) (setHeader e hdr' st₁))))
                    ⟨update v.β v.t b, update v.ν v.t (st₁.mem.blocks b).next,
                      v.s, v.t + 1, c', k', v.tail + [x].length, v.head⟩ (l ++ [x]) := by
                intro hdr' hi'
                refine h.append ?_ ⟨hall.has, hheld', .inr ⟨hdr', rfl, ?_, hi'⟩, by omega,
                  Nat.succ_pos _⟩ (fun _ => ?_) ?_ (fun _ => hnext) fun _ => ?_
                · rw [← hdone, ← h.tailIndex]
                  simp only [setMem, setTailBlock, setHeader, ha.prod]
                  exact ⟨_, _, rfl⟩
                · simp only [setMem, setTailBlock, setHeader, ha.prod]
                  rfl
                · rw [Nat.add_sub_cancel, hb]
                  rfl
                · rw [List.length_singleton, Nat.succ_mul, htail]
                  have := e.one_lt_BLOCK_SIZE
                  omega
                · rw [Nat.succ_mul] at hnext
                  have := h.head_le
                  omega
              have hold : ∀ q < v.t, update v.β v.t b q = v.β q := fun q hq =>
                update_of_ne hq.ne ..
              have hspent : (budget e st.mem v.k).acquireMany e mode v.head v.s (needed e v 1) v.t =
                  some (budget e mem' k') := by
                rw [h.headIndex, h.tailIndex, htail] at hfull
                have hone : needed e v 1 = 1 := by
                  rw [needed, Nat.add_sub_cancel, hdiv, Nat.add_sub_cancel_left]
                rw [hone, Budget.acquireMany, hfull, ha.spent,
                  budget_onlyContents (.constructAt hcons)]
                rfl
              cases hno : ctor.isNoexcept with
              | true =>
                  obtain ⟨hdr', hstore, hi'⟩ := hi.fill hst hindex b
                  refine ⟨_, _, ?_, hfinal hdr' hi', ⟨hall, rfl, rfl, hold, ha.grown⟩,
                    fun _ _ => hspent⟩
                  simp only [Implicit.enqueue, hyes, hassert, hfull, if_true, Bool.false_eq_true,
                    if_false, hacq, bind_eq_bind, bind_some, hthrow, hno, hstore]
                  rw [show (setHeader e hdr' st₁).mem = st₁.mem from rfl, hcons]
                  rfl
              | false =>
                  obtain ⟨hdr', hstore, hi'⟩ := hi.fill hst
                    (show (setMem e mem' st₁).prod.blockIndex = some hdr from hindex) b
                  refine ⟨_, _, ?_, hfinal hdr' hi', ⟨hall, rfl, rfl, hold, ha.grown⟩,
                    fun _ _ => hspent⟩
                  simp only [Implicit.enqueue, hyes, hassert, hfull, if_true, Bool.false_eq_true,
                    if_false, hacq, bind_eq_bind, bind_some, hthrow, hno, hcons,
                    hstore]
                  rfl
        · have hno : (st.prod.blockIndex.isSome &&
              ((budget e st.mem v.k).acquire e mode v.s v.t).isSome) = false := by
            rcases hac with hac | hac <;> simp [hac]
          rw [hno]
          rw [← htail, ← h.tailIndex] at hacq
          have htraffic : Traffic e (window v.β v.s v.t) (window v.β v.s v.t) st.mem st₁.mem := by
            rw [hmem]
            exact (Within.mallocs n).traffic h.stock.has
          refine ⟨st₁, _, ?_, h.reindex hre hstock fun _ => rfl,
            ⟨htraffic, rfl, rfl, fun _ _ => rfl, hk⟩, nofun⟩
          simp only [Implicit.enqueue, hyes, hassert, hfull, if_true, Bool.false_eq_true, if_false,
            hacq, bind_eq_bind, bind_some]

end Inv

end ConcurrentQueue.Implicit
