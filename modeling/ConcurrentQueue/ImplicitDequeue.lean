import ConcurrentQueue.ImplicitBulk

/-!
# ConcurrentQueue.ImplicitDequeue

`dequeue` and `dequeue_bulk` take elements from the front. The block of the head is
always the first one that the producer holds; **when its last slot is marked, its entry
is cleared and it goes back to the free list** (`Stock.releaseIf`), and the next block is
the first. A call that throws half-way destroys what it had claimed and releases the
blocks it has emptied just the same.
-/

namespace ConcurrentQueue.Implicit

open Wrap
open Option (bind_eq_bind bind_some)

variable {α : Type} {e : Env} {st : State e.bits α} {v : View} {l : List α} {β : Nat → Nat}
  {ν : Nat → Option Nat} {q t c k : Nat} {f : Nat → Option α} {g : Nat → Nat}

/-! ### The first block -/

/-- The first block is released if it has been emptied. -/
theorem Stock.releaseIf {stop : Nat} (h : Stock e st.mem st.prod β ν q t c k f g) (hqt : q < t)
    (hlo : q * e.BLOCK_SIZE ≤ stop) (hhi : stop ≤ q * e.BLOCK_SIZE + e.BLOCK_SIZE)
    {emptied : Bool} (hemptied : emptied = true ↔ stop = q * e.BLOCK_SIZE + e.BLOCK_SIZE)
    (hfree : stop = q * e.BLOCK_SIZE + e.BLOCK_SIZE →
      ∀ i < e.BLOCK_SIZE, f (q * e.BLOCK_SIZE + i) = none) :
    ∃ st', releaseIf e emptied (BitVec.ofNat e.bits ((c + q) % 2 ^ k)) (β q) st = some st' ∧
      Reindexed st.prod st'.prod ∧
      Stock e st'.mem st'.prod β ν (stop / e.BLOCK_SIZE) t c k f g ∧
      Traffic e (window β q t) (window β (stop / e.BLOCK_SIZE) t) st.mem st'.mem := by
  cases emptied with
  | false =>
      have hne : stop ≠ q * e.BLOCK_SIZE + e.BLOCK_SIZE := fun heq =>
        Bool.false_ne_true (hemptied.mpr heq)
      have hdiv : stop / e.BLOCK_SIZE = q := by
        rw [show stop = q * e.BLOCK_SIZE + (stop - q * e.BLOCK_SIZE) by omega, block_div (by omega)]
      rw [hdiv]
      exact ⟨st, rfl, .refl _, h, h.has.refl⟩
  | true =>
      have hstop := hemptied.mp rfl
      have hdiv : stop / e.BLOCK_SIZE = q + 1 := by
        rw [hstop, ← Nat.succ_mul, Nat.mul_div_cancel _ e.BLOCK_SIZE_pos]
      rw [hdiv]
      obtain ⟨hdr, hhdr, hnext, hi⟩ := h.exists_index hqt
      obtain ⟨hdr', hstore, hi'⟩ := hi.storeValue hhdr le_rfl hqt none
      obtain ⟨hheld, htraffic⟩ := h.held.releaseFirst h.has hqt (hfree hstop)
      refine ⟨setMem e (st.mem.addBlockToFreeList e (β q)) (setHeader e hdr' st), ?_, ⟨_, _, rfl⟩,
        ⟨htraffic.has, hheld, .inr ⟨hdr', rfl, hnext, ?_⟩, hqt, h.pos⟩, htraffic⟩
      · simp only [Implicit.releaseIf, if_true, hstore, bind_eq_bind, bind_some]
        rfl
      · refine (hi'.pop hqt (Function.update_self ..)).congr fun r hr _ => ?_
        rw [Function.update_of_ne (by omega)]

/-- Marking the slots from `first` up to `stop` in the first block. -/
theorem Stock.markMany {first stop : Nat}
    (h : Stock e st.mem st.prod β ν q t c k f (marked e.BLOCK_SIZE first)) (hqt : q < t)
    (hlo : q * e.BLOCK_SIZE ≤ first) (hfirst : first < q * e.BLOCK_SIZE + e.BLOCK_SIZE)
    (hle : first ≤ stop) (hhi : stop ≤ q * e.BLOCK_SIZE + e.BLOCK_SIZE)
    (hfree : stop = q * e.BLOCK_SIZE + e.BLOCK_SIZE →
      ∀ i < e.BLOCK_SIZE, f (q * e.BLOCK_SIZE + i) = none) :
    ∃ st', markMany e (BitVec.ofNat e.bits ((c + q) % 2 ^ k)) (β q) (BitVec.ofNat e.bits first)
        (BitVec.ofNat e.bits stop) st = some st' ∧
      Reindexed st.prod st'.prod ∧
      Stock e st'.mem st'.prod β ν (stop / e.BLOCK_SIZE) t c k f (marked e.BLOCK_SIZE stop) ∧
      Traffic e (window β q t) (window β (stop / e.BLOCK_SIZE) t) st.mem st'.mem := by
  obtain ⟨n, rfl⟩ := Nat.exists_eq_add_of_le hle
  have hmark := marked_eq_mod hlo hfirst
  have hmod := Nat.mod_lt first e.BLOCK_SIZE_pos
  have hBlt := e.BLOCK_SIZE_lt
  have hval : marked e.BLOCK_SIZE first q = first - q * e.BLOCK_SIZE := by
    unfold marked
    omega
  obtain ⟨flags, m, emptied, hset, hmarked, hemptied⟩ := (h.held.mark q le_rfl hqt).setManyEmpty
    (i := BitVec.ofNat e.bits first) (by rw [Traits.offset_ofNat, hmark])
    (show _ + n ≤ _ by omega)
  have hheld := h.held.setMarks le_rfl hqt hmarked
  rw [update_marked hlo hhi] at hheld
  have hwithin : Within e (window β q t) st.mem (st.mem.setBlock (β q)
      { st.mem.blocks (β q) with emptyFlags := flags, elementsCompletelyDequeued := m }) :=
    Within.setBlock (mem_window le_rfl hqt) rfl fun _ _ => rfl
  have htraffic := hwithin.traffic h.has
  let st₁ := setMem e (st.mem.setBlock (β q) { st.mem.blocks (β q) with
    emptyFlags := flags, elementsCompletelyDequeued := m }) st
  have hstock : Stock e st₁.mem st₁.prod β ν q t c k f (marked e.BLOCK_SIZE (first + n)) :=
    ⟨htraffic.has, hheld, h.index, h.le, h.pos⟩
  have hflags : Block.usesFlags e.toTraits .implicitContext = false := rfl
  obtain ⟨st', hrelease, hre, hstock', htraffic'⟩ := hstock.releaseIf hqt (by omega) hhi
    (hemptied.trans ⟨fun hfull => by omega, fun hstop => ⟨hflags, by omega⟩⟩) hfree
  refine ⟨st', ?_, hre, hstock', htraffic.trans htraffic'⟩
  rw [Implicit.markMany, toNat_ofNat_sub (by omega) (by omega), Nat.add_sub_cancel_left, hset]
  exact hrelease

/-! ### Finding the block -/

theorem Inv.lookup (h : Inv e st v l) {n : Nat} (hs : v.s ≤ n / e.BLOCK_SIZE)
    (ht : n / e.BLOCK_SIZE < v.t) :
    getBlockIndexEntryForIndex e (BitVec.ofNat e.bits n) st =
      some (BitVec.ofNat e.bits ((v.c + n / e.BLOCK_SIZE) % 2 ^ v.k)) := by
  have hst : v.s < v.t := by omega
  obtain ⟨hdr, hhdr, -, hi⟩ := h.stock.exists_index hst
  have hslot := hi.lookup (h.small hst) hs ht (by omega) (by omega) h.span rfl
  simp only [getBlockIndexEntryForIndex, hhdr, bind_eq_bind, bind_some, hslot]

/-- Indices of the queue are in blocks of the producer. -/
theorem Inv.block_of_live (h : Inv e st v l) {n : Nat} (hlo : v.head ≤ n) (hhi : n < v.tail) :
    v.s ≤ n / e.BLOCK_SIZE ∧ n / e.BLOCK_SIZE < v.t := by
  have hnew := h.newest.1
  refine ⟨?_, Nat.div_lt_of_lt_mul (by rw [Nat.mul_comm]; omega)⟩
  rw [h.s_eq]
  exact Nat.div_le_div_right hlo

/-- The test that there is something to dequeue. -/
theorem Inv.nonempty_iff (h : Inv e st v l) :
    circularLessThan (st.prod.dequeueOptimisticCount - st.prod.dequeueOvercommit)
      st.prod.tailIndex = true ↔ 0 < l.length := by
  have hlen := h.len
  have hlt := h.length_lt
  have hhalf := e.two_pow_bits
  rw [h.optimistic, h.headIndex, h.tailIndex,
    circularLessThan_ofNat e.bits_pos (by omega) (by omega)]
  omega

/-- The state after `n` elements have been taken from the front. -/
theorem Inv.advance (h : Inv e st v l) {n : Nat} (hn : n ≤ l.length) {st' : State e.bits α}
    (hstock : Stock e st'.mem st'.prod v.β v.ν ((v.head + n) / e.BLOCK_SIZE) v.t v.c v.k
      (slotAt (v.head + n) (l.drop n)) (marked e.BLOCK_SIZE (v.head + n)))
    (hp : Reindexed { st.prod with
      headIndex := st.prod.headIndex + BitVec.ofNat e.bits n
      dequeueOptimisticCount := st.prod.dequeueOptimisticCount + BitVec.ofNat e.bits n } st'.prod) :
    Inv e st' { v with s := (v.head + n) / e.BLOCK_SIZE, head := v.head + n } (l.drop n) := by
  have hlen := h.len
  have hle : v.s ≤ (v.head + n) / e.BLOCK_SIZE := by
    rw [h.s_eq]
    exact Nat.div_le_div_right (Nat.le_add_right ..)
  obtain ⟨index, next, hp⟩ := hp
  refine ⟨hstock, ?_, ?_, ?_, fun hst => ?_, ?_, ?_, h.newest, fun hst => ?_,
    fun hst => h.small (by dsimp only at hst; omega)⟩
  · rw [hp]
    exact h.tailIndex
  · rw [hp]
    show st.prod.headIndex + BitVec.ofNat e.bits n = _
    rw [h.headIndex, BitVec.ofNat_add_ofNat]
  · rw [hp]
    show st.prod.dequeueOptimisticCount + BitVec.ofNat e.bits n - st.prod.dequeueOvercommit = _
    rw [← h.optimistic]
    simp only [BitVec.sub_eq_add_neg]
    rw [BitVec.add_assoc, BitVec.add_assoc, BitVec.add_comm (BitVec.ofNat e.bits n)]
  · rw [hp]
    exact h.tailBlock (by dsimp only at hst; omega)
  · show v.head + n + (l.drop n).length = v.tail
    rw [List.length_drop]
    omega
  · have hadd := block_add e.BLOCK_SIZE (v.head + n)
    have hmod := Nat.mod_lt (v.head + n) e.BLOCK_SIZE_pos
    dsimp only
    omega
  · have := h.bound (by dsimp only at hst; omega)
    dsimp only
    omega

/-! ### One element -/

/-- **Dequeue**: the first element, if there is one. -/
theorem Inv.dequeue (h : Inv e st v l) :
    ∃ st' v', (∀ throws, Implicit.dequeue e throws st =
        some (st', .ofList (if throws then some 0 else none) (takes e.bits 1 l) l)) ∧
      Inv e st' v' (l.drop (takes e.bits 1 l)) ∧
      Traffic e (window v.β v.s v.t) (window v'.β v'.s v'.t) st.mem st'.mem ∧
      v' = { v with s := (v.head + takes e.bits 1 l) / e.BLOCK_SIZE,
                    head := v.head + takes e.bits 1 l } := by
  rcases Nat.eq_zero_or_pos l.length with hempty | hne
  · have htakes : takes e.bits 1 l = 0 := by
      rw [takes_of_lt h.length_lt]
      omega
    rw [htakes]
    refine ⟨st, v, fun throws => ?_, h, h.stock.has.refl, by rw [Nat.add_zero, ← h.s_eq]⟩
    simp only [Implicit.dequeue, if_neg (mt h.nonempty_iff.mp (by omega : ¬ 0 < l.length))]
    cases throws <;> rfl
  · have htakes : takes e.bits 1 l = 1 := by
      rw [takes_of_lt h.length_lt]
      omega
    rw [htakes]
    obtain ⟨x, l, rfl⟩ := List.exists_cons_of_length_pos hne
    have hlen := h.len
    rw [List.length_cons] at hlen
    obtain ⟨hs, ht⟩ := h.block_of_live le_rfl (by omega)
    rw [← h.s_eq] at ht
    obtain ⟨hlo, hhi⟩ := h.oldest
    have hmod := Nat.mod_lt v.head e.BLOCK_SIZE_pos
    have hmark := marked_eq_mod hlo hhi
    have hmore := h.nonempty_iff.mpr hne
    -- the element is destroyed
    obtain ⟨b, hdes, hheld₁, htraffic₁⟩ := h.stock.held.destroyFirst h.stock.has ht h.s_eq.symm
    -- its slot is marked
    obtain ⟨flags, m, emptied, hset, hmarked, hemptied⟩ := (hheld₁.mark v.s le_rfl ht).setEmpty
      (i := BitVec.ofNat e.bits v.head) (by rw [Traits.offset_ofNat, hmark])
      (by rw [← hmark]; exact hmod)
    have hheld₂ := hheld₁.setMarks le_rfl ht hmarked
    rw [update_marked hlo (by omega)] at hheld₂
    have hwithin₂ := Within.setBlock (e := e) (A := window v.β v.s v.t)
      (m := st.mem.setBlock (v.β v.s) b) (mem_window le_rfl ht)
      (x := { (st.mem.setBlock (v.β v.s) b).blocks (v.β v.s) with
        emptyFlags := flags, elementsCompletelyDequeued := m }) rfl fun _ _ => rfl
    have htraffic₂ := htraffic₁.trans (hwithin₂.traffic htraffic₁.has)
    rw [Mem.blocks_setBlock, Function.update_self] at hset hheld₂ htraffic₂
    rw [Mem.setBlock_setBlock] at hheld₂ htraffic₂
    -- and the block is released if that was the last
    let p : ImplicitProducer e.bits := { st.prod with
      dequeueOptimisticCount := st.prod.dequeueOptimisticCount + 1#e.bits
      headIndex := st.prod.headIndex + 1#e.bits }
    let b' : Block α := { b with emptyFlags := flags, elementsCompletelyDequeued := m }
    let st₁ : State e.bits α := ⟨st.mem.setBlock (v.β v.s) b', p⟩
    have hstock : Stock e st₁.mem st₁.prod v.β v.ν v.s v.t v.c v.k (slotAt (v.head + 1) l)
        (marked e.BLOCK_SIZE (v.head + 1)) :=
      ⟨htraffic₂.has, hheld₂, h.stock.index, h.stock.le, h.stock.pos⟩
    have hlast : emptied = true ↔ v.head + 1 = v.s * e.BLOCK_SIZE + e.BLOCK_SIZE := by
      have hval : marked e.BLOCK_SIZE v.head v.s = v.head - v.s * e.BLOCK_SIZE := by
        unfold marked
        omega
      have hflags : Block.usesFlags e.toTraits .implicitContext = false := rfl
      rw [hemptied, hval]
      exact ⟨fun hfull => by omega, fun hstop => ⟨hflags, by omega⟩⟩
    obtain ⟨st', hrelease, hre, hstock', htraffic'⟩ := hstock.releaseIf ht (by omega)
      (by omega) hlast fun _ i hi => slotAt_of_lt (by omega)
    obtain ⟨hdr, hhdr, -, hi⟩ := h.stock.exists_index ht
    have hlookup : getBlockIndexEntryForIndex e st.prod.headIndex (⟨st.mem, p⟩ : State e.bits α) =
        some (BitVec.ofNat e.bits ((v.c + v.s) % 2 ^ v.k)) := by
      have := h.lookup hs (by rwa [← h.s_eq])
      rwa [← h.s_eq, ← h.headIndex] at this
    have hload : loadValue e (BitVec.ofNat e.bits ((v.c + v.s) % 2 ^ v.k))
        (⟨st.mem, p⟩ : State e.bits α) = some (v.β v.s) := hi.loadValue hhdr le_rfl ht rfl
    rw [← h.headIndex] at hdes hset
    refine ⟨st', _, fun throws => ?_, h.advance (n := 1) hne hstock' hre,
      htraffic₂.trans htraffic', rfl⟩
    simp only [Implicit.dequeue, hmore, if_true, bind_eq_bind]
    rw [hlookup, bind_some, hload, bind_some, hdes, bind_some]
    dsimp only
    rw [hset, bind_some]
    dsimp only
    rw [show setMem e (st.mem.setBlock (v.β v.s) b') (⟨st.mem, p⟩ : State e.bits α) =
      ⟨st.mem.setBlock (v.β v.s) b', p⟩ from rfl, hrelease]
    cases throws <;> rfl

/-! ### Several elements -/

/-- The loop over the blocks up to `last`. -/
theorem Stock.drainBlocks (fuel : Nat) {i last : Nat} {l : List α}
    (h : Stock e st.mem st.prod β ν q t c k (slotAt i l) (marked e.BLOCK_SIZE i))
    (hB : e.BLOCK_SIZE < 2 ^ (e.bits - 1)) (hspan : (t - q) * e.BLOCK_SIZE ≤ 2 ^ (e.bits - 1))
    (hlast : last ≤ t * e.BLOCK_SIZE) (hqt : q < t) (hdiv : i / e.BLOCK_SIZE = q) (hi : i ≤ last)
    (hl : last ≤ i + l.length) (hfuel : t ≤ q + fuel) :
    ∃ st', (walk e).drainBlocks none (BitVec.ofNat e.bits last) fuel
        (BitVec.ofNat e.bits ((c + q) % 2 ^ k)) (BitVec.ofNat e.bits i) 0 st =
        some (l.take (last - i), st', false) ∧
      Reindexed st.prod st'.prod ∧
      Stock e st'.mem st'.prod β ν (last / e.BLOCK_SIZE) t c k (slotAt last (l.drop (last - i)))
        (marked e.BLOCK_SIZE last) ∧
      Traffic e (window β q t) (window β (last / e.BLOCK_SIZE) t) st.mem st'.mem := by
  refine drainBlocks_of_round (P := fun q' i l (st' : State e.bits α) =>
      Reindexed st.prod st'.prod ∧
      Stock e st'.mem st'.prod β ν q' t c k (slotAt i l) (marked e.BLOCK_SIZE i) ∧
      Traffic e (window β q t) (window β q' t) st.mem st'.mem)
    hB hspan hlast (fun q => BitVec.ofNat e.bits ((c + q) % 2 ^ k)) ?round ?next fuel
    ⟨.refl _, h, h.has.refl⟩ le_rfl hqt hdiv hi hl hfuel
  case round =>
      rintro q i n l st₀ ⟨hre₀, h₀, htraffic₀⟩ - hqt hlo hlt hhi hl
      obtain ⟨hdr, hhdr, -, hindex⟩ := h₀.exists_index hqt
      obtain ⟨mem₁, hdes, hheld⟩ := h₀.held.destroyFront le_rfl hqt hlo hhi hl
      have htraffic₁ := (Within.of_onlyElements (mem_window le_rfl hqt)
        (.destroyRange hdes)).traffic h₀.has
      have h₁ : Stock e (setMem e mem₁ st₀).mem (setMem e mem₁ st₀).prod β ν q t c k
          (slotAt (i + n) (l.drop n)) (marked e.BLOCK_SIZE i) :=
        ⟨htraffic₁.has, hheld, h₀.index, h₀.le, h₀.pos⟩
      obtain ⟨st₂, hmark, hre₂, h₂, htraffic₂⟩ := h₁.markMany hqt hlo hlt (Nat.le_add_right i n) hhi
        fun hfull r hr => slotAt_of_lt (by omega)
      exact ⟨β q, mem₁, st₂, hindex.loadValue hhdr le_rfl hqt rfl, hdes, hmark, hre₀.trans hre₂, h₂,
        (htraffic₀.trans htraffic₁).trans htraffic₂⟩
  case next =>
      rintro q i l st₀ ⟨-, h₀, -⟩ hmore
      obtain ⟨hdr, hhdr, -, hindex⟩ := h₀.exists_index hmore
      exact hindex.nextSlot hhdr q

/-- The number of elements there seem to be. -/
theorem Inv.desiredCount (h : Inv e st v l) :
    st.prod.tailIndex - (st.prod.dequeueOptimisticCount - st.prod.dequeueOvercommit) =
      BitVec.ofNat e.bits l.length := by
  have hlen := h.len
  rw [h.optimistic, h.headIndex, h.tailIndex, ofNat_sub (by omega)]
  congr 1
  omega

/-- **Bulk dequeue**: the first elements, as many as there are and are wanted. -/
theorem Inv.dequeueBulk (h : Inv e st v l) (max : BitVec e.bits) :
    ∃ st' v', (∀ throwsAt, Implicit.dequeueBulk e max throwsAt st =
        some (st', .ofList throwsAt (takes e.bits max.toNat l) l)) ∧
      Inv e st' v' (l.drop (takes e.bits max.toNat l)) ∧
      Traffic e (window v.β v.s v.t) (window v'.β v'.s v'.t) st.mem st'.mem ∧
      v' = { v with s := (v.head + takes e.bits max.toNat l) / e.BLOCK_SIZE,
                    head := v.head + takes e.bits max.toNat l } := by
  have hcount := h.desiredCount
  have hlt := h.length_lt
  by_cases hne : 0 < l.length
  · have hhalf := e.two_pow_bits
    have hlen := h.len
    obtain ⟨n, hn⟩ : ∃ n, min max.toNat l.length = n := ⟨_, rfl⟩
    have hmore := (positive_iff hlt.le).mpr ⟨hne, hlt⟩
    have hdesired := min_ofNat (show l.length < 2 ^ e.bits by omega) max
    have hactual := min_ofNat (show n < 2 ^ e.bits by omega) (BitVec.ofNat e.bits l.length)
    rw [BitVec.toNat_ofNat, Nat.mod_eq_of_lt (by omega), Nat.min_eq_right (by omega)] at hactual
    rw [hn] at hdesired
    obtain ⟨hs, ht⟩ := h.block_of_live le_rfl (by omega)
    have hlookup := h.lookup hs ht
    rw [← h.s_eq] at hlookup ht
    have hspan : (v.t - v.s) * e.BLOCK_SIZE ≤ 2 ^ (e.bits - 1) := h.span
    have hle : v.t - v.s ≤ (v.t - v.s) * e.BLOCK_SIZE :=
      Nat.le_mul_of_pos_right _ e.BLOCK_SIZE_pos
    have hnew := h.newest.1
    have hsub : v.head + n - v.head = n := Nat.add_sub_cancel_left ..
    let p : ImplicitProducer e.bits := { st.prod with
      headIndex := st.prod.headIndex + BitVec.ofNat e.bits n
      dequeueOptimisticCount := st.prod.dequeueOptimisticCount + BitVec.ofNat e.bits n }
    have hstock : Stock e (⟨st.mem, p⟩ : State e.bits α).mem (⟨st.mem, p⟩ : State e.bits α).prod
        v.β v.ν v.s v.t v.c v.k (slotAt v.head l) (marked e.BLOCK_SIZE v.head) :=
      ⟨h.stock.has, h.stock.held, h.stock.index, h.stock.le, h.stock.pos⟩
    obtain ⟨st', hdrain, hre, hstock', htraffic⟩ := hstock.drainBlocks (2 ^ e.bits)
      (h.small ht) hspan (show v.head + n ≤ v.t * e.BLOCK_SIZE by omega) ht h.s_eq.symm
      (by omega) (by omega) (by omega)
    rw [hsub] at hdrain hstock'
    rw [takes_of_lt hlt, hn]
    refine ⟨st', _, fun throwsAt => ?_, h.advance (by omega) hstock' hre, htraffic, rfl⟩
    obtain ⟨ys, threw, hthrow, hout⟩ := Walk.drainBlocks_popped hdrain throwsAt
    rw [List.length_take, Nat.min_eq_left (by omega), Popped.ofList_take] at hout
    have hlookup' : getBlockIndexEntryForIndex e st.prod.headIndex (⟨st.mem, p⟩ : State e.bits α) =
        some (BitVec.ofNat e.bits ((v.c + v.s) % 2 ^ v.k)) := by
      rw [← hlookup, h.headIndex]
      rfl
    simp only [Implicit.dequeueBulk, dequeueBulkOn, Walk.drainBlocksUntil_wraps, hcount, hmore,
      if_true, hdesired, hactual, BitVec.lt_irrefl, if_false, bind_eq_bind]
    rw [← BitVec.ofNat_add_ofNat, ← h.headIndex] at hthrow
    rw [hlookup', bind_some, hthrow]
    simp only [bind_some, hout, BitVec.toNat_ofNat, Nat.mod_eq_of_lt (show n < 2 ^ e.bits by omega)]
  · have htakes : takes e.bits max.toNat l = 0 := by
      unfold takes
      split <;> omega
    rw [htakes]
    refine ⟨st, v, fun throwsAt => ?_, h, h.stock.has.refl, by rw [Nat.add_zero, ← h.s_eq]⟩
    simp only [Implicit.dequeueBulk, dequeueBulkOn, hcount,
      if_neg (mt (positive_iff hlt.le).mp fun hpos => hne hpos.1)]
    rw [Popped.ofList_quiet fun j hj => absurd hj (Nat.not_lt_zero j), List.take_zero]

/-! ### What dequeues keep of the index -/

section Keys

variable {st' : State e.bits α}

/-- The keys of the entries on the block index, if there is one. -/
def keys {w : Nat} (p : ImplicitProducer w) : Option (Nat → Option (BitVec w)) :=
  p.blockIndex.map fun h i => (h.index i).map (·.key)

theorem keys_congr {w : Nat} {p p' : ImplicitProducer w} (h : p'.blockIndex = p.blockIndex) :
    keys p' = keys p := by
  rw [keys, keys, h]

theorem isSome_of_keys {w : Nat} {p p' : ImplicitProducer w} (h : keys p' = keys p)
    (hp : p.blockIndex.isSome = true) : p'.blockIndex.isSome = true := by
  have hsome := congrArg Option.isSome h
  rwa [keys, keys, Option.isSome_map, Option.isSome_map, hp] at hsome

theorem releaseIf_keys {emptied : Bool} {slot : BitVec e.bits} {b : Nat}
    (h : releaseIf e emptied slot b st = some st') : keys st'.prod = keys st.prod := by
  unfold releaseIf at h
  split at h
  case isFalse =>
      obtain rfl := Option.some.inj h
      rfl
  case isTrue =>
      simp only [storeValue, bind_eq_bind, Option.bind_eq_some_iff] at h
      obtain ⟨st₁, ⟨hdr, hhdr, x, hx, hstore⟩, h⟩ := h
      obtain rfl := Option.some.inj hstore
      obtain rfl := Option.some.inj h
      have hx' : hdr.index slot.toNat = some x := by
        unfold BlockIndexHeader.get at hx
        split at hx
        · exact hx
        · cases hx
      rw [keys, keys, hhdr]
      refine congrArg some (funext fun i => ?_)
      show ((hdr.set slot { x with value := some none }).index i).map (·.key) = _
      rw [BlockIndexHeader.set]
      dsimp only
      by_cases hi : i = slot.toNat
      · rw [hi, Function.update_self, hx']
        rfl
      · rw [Function.update_of_ne hi]

theorem markMany_keys {slot i stop : BitVec e.bits} {b : Nat}
    (h : markMany e slot b i stop st = some st') : keys st'.prod = keys st.prod := by
  obtain ⟨⟨b', emptied⟩, -, h⟩ := Option.bind_eq_some_iff.mp h
  have h : releaseIf e emptied slot b (setMem e (st.mem.setBlock b b') st) = some st' := h
  have hkeys := releaseIf_keys h
  exact hkeys

theorem dequeueBulk_keys {max : BitVec e.bits} {throwsAt : Option Nat} {r : Popped α}
    (h : Implicit.dequeueBulk e max throwsAt st = some (st', r)) :
    keys st'.prod = keys st.prod := by
  unfold Implicit.dequeueBulk dequeueBulkOn at h
  dsimp only at h
  split at h
  case isFalse =>
      obtain ⟨rfl, -⟩ := by simpa using h
      rfl
  case isTrue hmore =>
      simp only [bind_eq_bind, Option.bind_eq_some_iff] at h
      obtain ⟨slot, -, ⟨ys, st₁, threw⟩, hdrain, h⟩ := h
      cases h
      have hkeys := Walk.drainBlocksUntil_keeps
        (R := fun (s s' : State e.bits α) => keys s'.prod = keys s.prod)
        (fun h h' => h'.trans h) (fun _ _ => rfl) (fun _ hm => markMany_keys hm) hdrain
      refine hkeys.trans (keys_congr ?_)
      simp only [apply_ite ImplicitProducer.blockIndex, ite_self]

theorem dequeue_keys {throws : Bool} {r : Popped α}
    (h : Implicit.dequeue e throws st = some (st', r)) : keys st'.prod = keys st.prod := by
  unfold Implicit.dequeue at h
  dsimp only at h
  split at h
  case isFalse =>
      obtain ⟨rfl, -⟩ := by simpa using h
      rfl
  case isTrue hmore =>
      simp only [bind_eq_bind, Option.bind_eq_some_iff] at h
      obtain ⟨slot, -, b, -, ⟨y, b₁⟩, -, ⟨b₂, full⟩, -, st₁, hrel, h⟩ := h
      cases h
      rw [releaseIf_keys hrel]
      rfl

end Keys

end ConcurrentQueue.Implicit
