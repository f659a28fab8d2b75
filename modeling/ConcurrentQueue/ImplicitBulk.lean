import ConcurrentQueue.ImplicitEnqueue

/-!
# ConcurrentQueue.ImplicitBulk

`enqueue_bulk` first takes all the blocks it needs, each with an entry on the index,
and chains them behind the tail block (`Extended`); then it fills them. **When a block
cannot be had, or a constructor throws, everything it took goes back**: the entries are
looked up and cleared one by one while the tail of the index moves back towards them
from the other end, and the blocks are released in the order of the chain.
-/

namespace ConcurrentQueue.Implicit

open Function Wrap
open Option (bind_eq_bind bind_some)

variable {α : Type} {e : Env} {st₀ st : State e.bits α} {v : View} {l : List α}
  {β : Nat → Nat} {ν : Nat → Option Nat} {T c k : Nat}

/-! ### Blocks taken by the call -/

/-- The call has taken the blocks `v.t ≤ q < T` and chained them. -/
structure Extended (st₀ : State e.bits α) (v : View) (l : List α) (st : State e.bits α)
    (β : Nat → Nat) (ν : Nat → Option Nat) (T c k : Nat) : Prop where
  stock : Stock e st.mem st.prod β ν v.s T c k (slotAt v.head l) (marked e.BLOCK_SIZE v.head)
  prod : ∃ tb, Reindexed { st₀.prod with tailBlock := tb } st.prod
  tailBlock : v.s < T → st.prod.tailBlock = some (β (T - 1))
  le : v.t ≤ T
  old : ∀ q < v.t, β q = v.β q
  chain : ∀ r, v.tail / e.BLOCK_SIZE ≤ r → r + 1 < T → ν r = some (β (r + 1))
  last : v.t < T → ν (T - 1) = none
  bound : T * e.BLOCK_SIZE < v.head + 2 ^ (e.bits - 1)
  small : v.s < T → e.BLOCK_SIZE < 2 ^ (e.bits - 1)
  traffic : Traffic e (window v.β v.s v.t) (window β v.s T) st₀.mem st.mem
  grown : v.k ≤ k

/-- What the call knows of these blocks. -/
def takenAt (e : Env) (st₀ : State e.bits α) (v : View) (β : Nat → Nat) (T : Nat) : Taken e.bits :=
  ⟨BitVec.ofNat e.bits ((T - 1) * e.BLOCK_SIZE), if v.t < T then some (β v.t) else none,
    if v.t < T then some (β (T - 1)) else st₀.prod.tailBlock⟩

theorem Inv.extended (h : Inv e st₀ v l) : Extended st₀ v l st₀ v.β v.ν v.t v.c v.k where
  stock := h.stock
  prod := ⟨_, .refl _⟩
  tailBlock := h.tailBlock
  le := le_rfl
  old _ _ := rfl
  chain r hr hrt := by
    -- the block of the tail is the last one, or the next
    have hle : v.t - 1 ≤ v.tail / e.BLOCK_SIZE := by
      refine (Nat.le_div_iff_mul_le e.BLOCK_SIZE_pos).mpr ?_
      have hnew := h.newest.2
      rw [Nat.sub_mul, Nat.one_mul]
      omega
    omega
  last hlt := absurd hlt (lt_irrefl _)
  bound := h.bound_lt
  small := h.small
  traffic := h.stock.has.refl
  grown := le_rfl

namespace Extended

theorem pos (hx : Extended st₀ v l st β ν T c k) : 0 < T := hx.stock.pos

theorem span (hx : Extended st₀ v l st β ν T c k) (h : Inv e st₀ v l) :
    (T - v.s) * e.BLOCK_SIZE ≤ 2 ^ (e.bits - 1) := by
  rcases Nat.lt_or_ge v.s T with hst | hge
  · exact span_le hst h.oldest.2 hx.bound
  · rw [Nat.sub_eq_zero_of_le hge, Nat.zero_mul]
    exact Nat.zero_le _

theorem tailIndex (hx : Extended st₀ v l st β ν T c k) :
    st.prod.tailIndex = st₀.prod.tailIndex := by
  obtain ⟨tb, index, next, hp⟩ := hx.prod
  rw [hp]

theorem headIndex (hx : Extended st₀ v l st β ν T c k) :
    st.prod.headIndex = st₀.prod.headIndex := by
  obtain ⟨tb, index, next, hp⟩ := hx.prod
  rw [hp]

/-- A block has a predecessor in the call's chain if the tail lies in an earlier one. -/
theorem linked_iff (h : Inv e st₀ v l) (hx : Extended st₀ v l st β ν T c k) :
    (st.prod.tailIndex &&& e.blockMask ≠ 0 ∨ (takenAt e st₀ v β T).firstAllocatedBlock ≠ none) ↔
      v.tail / e.BLOCK_SIZE < T := by
  have hle := hx.le
  have hpos := hx.pos
  rw [hx.tailIndex, h.tailIndex, Ne, e.and_blockMask_eq_zero]
  by_cases hmod : v.tail % e.BLOCK_SIZE = 0
  · have hdiv : v.tail / e.BLOCK_SIZE = v.t := by
      rw [h.aligned_iff.mp hmod, Nat.mul_div_cancel _ e.BLOCK_SIZE_pos]
    rw [hdiv]
    by_cases hlt : v.t < T <;> simp [takenAt, hmod, hlt]
  · have hdiv := (h.tail_block hmod).2
    rw [hdiv]
    simp only [hmod, not_false_eq_true, true_or, true_iff]
    omega

end Extended

/-- Chaining a new block: it is the last, and its predecessor leads to it. -/
theorem appendBlock_spec {s t q₀ b : Nat} {mem : Mem α} {p : ImplicitProducer e.bits}
    {f : Nat → Option α} {g : Nat → Nat}
    (hheld : Held e .implicitContext mem (update β t b) s (t + 1) ν f g) (hst : s ≤ t)
    (hpos : 0 < t) (htb : q₀ < t → s < t ∧ p.tailBlock = some (β (t - 1)))
    (hchain : ∀ r, q₀ ≤ r → r + 1 < t → ν r = some (β (r + 1))) :
    ∃ mem' ν', appendBlock e b (decide (q₀ < t)) ⟨mem, p⟩ =
        some ⟨mem', { p with tailBlock := some b }⟩ ∧
      Within e (window (update β t b) s (t + 1)) mem mem' ∧
      Held e .implicitContext mem' (update β t b) s (t + 1) ν' f g ∧
      (∀ r, q₀ ≤ r → r + 1 < t + 1 → ν' r = some (update β t b (r + 1))) ∧
      ν' t = none ∧ mem' = { mem with blocks := mem'.blocks } := by
  have hb : update β t b t = b := update_self ..
  have hlast := hheld.setNext hst (Nat.lt_succ_self t) none
  rw [hb] at hlast
  have hwithin : Within e (window (update β t b) s (t + 1)) mem
      (mem.modify b fun x => { x with next := none }) := by
    have hin : b ∈ window (update β t b) s (t + 1) := ⟨t, hst, Nat.lt_succ_self t, hb⟩
    exact Within.setNext hin none
  by_cases hlinked : q₀ < t
  · obtain ⟨hlt, htail⟩ := htb hlinked
    have hβ : update β t b (t - 1) = β (t - 1) := update_of_ne (by omega) ..
    have hprev := hlast.setNext (q := t - 1) (by omega) (by omega) (some b)
    rw [hβ] at hprev
    have hin : β (t - 1) ∈ window (update β t b) s (t + 1) :=
      ⟨t - 1, by omega, by omega, hβ⟩
    refine ⟨_, _, ?_, hwithin.trans (Within.setNext hin (some b)), hprev, fun r hr hrt => ?_, ?_,
      rfl⟩
    · simp only [appendBlock, hlinked, decide_true, if_true, htail, bind_eq_bind,
        bind_some]
      rfl
    · by_cases hrt' : r = t - 1
      · rw [hrt', update_self, show t - 1 + 1 = t by omega, hb]
      · rw [update_of_ne hrt', update_of_ne (by omega), hchain r hr (by omega),
          update_of_ne (by omega)]
    · rw [update_of_ne (by omega), update_self]
  · refine ⟨_, _, ?_, hwithin, hlast, fun r hr hrt => by omega, update_self .., rfl⟩
    simp only [appendBlock, hlinked, decide_false, Bool.false_eq_true, if_false]
    rfl

/-! ### Giving everything back -/

section Rollback

variable {s t : Nat}

/-- The first block of the chain that is left from number `q` on. -/
def chainFrom (β : Nat → Nat) (T q : Nat) : Option Nat := if q < T then some (β q) else none

/-- The entries from `q` on are cleared front to back, while the tail of the index comes
back from the end: at `q` it stands at the entry `u` with `u + 1 + q = T + t`. -/
theorem undoEntries_spec (hB : e.BLOCK_SIZE < 2 ^ (e.bits - 1)) (hs : s ≤ t) (ht : 0 < t)
    (hspan : (T - s) * e.BLOCK_SIZE ≤ 2 ^ (e.bits - 1)) (fuel : Nat) {q u : Nat}
    {st : State e.bits α} {hdr : BlockIndexHeader e.bits} {W : Nat → Option (Option Nat)}
    (hi : Index e hdr W s T u c k) (hb : st.prod.blockIndex = some hdr) (htq : t ≤ q)
    (hqT : q ≤ T) (hu : u + 1 + q = T + t)
    (hW : ∀ r, q ≤ r → r < T → W r = some (some (β r)))
    (hnext : ∀ r, q ≤ r → r < T → (st.mem.blocks (β r)).next = chainFrom β T (r + 1))
    (hfuel : T < q + fuel) :
    ∃ hdr', undoEntries e fuel (chainFrom β T q) (BitVec.ofNat e.bits ((q - 1) * e.BLOCK_SIZE)) st =
        some (setHeader e hdr' st) ∧
      Index e hdr' (fun r => if q ≤ r ∧ r < T then some none else W r) s T (t - 1) c k := by
  induction fuel generalizing q u st hdr W with
  | zero => omega
  | succ fuel ih =>
      by_cases hlast : q = T
      · subst hlast
        obtain rfl : u = t - 1 := by omega
        refine ⟨hdr, ?_, hi.congr fun r _ hr => if_neg (by omega)⟩
        rw [chainFrom, if_neg (lt_irrefl q), undoEntries]
        show some st = some { st with prod := { st.prod with blockIndex := some hdr } }
        rw [← hb]
      · have hlt : q < T := by omega
        have hdiv : q * e.BLOCK_SIZE / e.BLOCK_SIZE = q := Nat.mul_div_cancel _ e.BLOCK_SIZE_pos
        have hbase : BitVec.ofNat e.bits ((q - 1) * e.BLOCK_SIZE) + e.blockSize =
            BitVec.ofNat e.bits (q * e.BLOCK_SIZE) := by
          rw [Traits.blockSize, BitVec.ofNat_add_ofNat, ← Nat.succ_mul, Nat.succ_eq_add_one,
            Nat.sub_add_cancel (by omega)]
        have hslot := hi.lookup hB (n := q * e.BLOCK_SIZE) (b := β q) (by omega) (by omega)
          (by omega) (by omega) hspan (by rw [hdiv]; exact hW q le_rfl hlt)
        rw [hdiv] at hslot
        obtain ⟨hdr₁, hstore, hi₁⟩ := hi.storeValue hb (by omega : s ≤ q) hlt none
        obtain ⟨u, rfl⟩ : ∃ u', u = u' + 1 := Nat.exists_eq_succ_of_ne_zero (by omega)
        obtain ⟨hdr₂, hrewind, hi₂⟩ := hi₁.rewind
          (show (setHeader e hdr₁ st).prod.blockIndex = some hdr₁ from rfl)
        obtain ⟨hdr', hloop, hi'⟩ := ih hi₂
          (show (setHeader e hdr₂ st).prod.blockIndex = some hdr₂ from rfl) (by omega : t ≤ q + 1)
          hlt (by omega)
          (fun r hr hrT => by
            rw [update_of_ne (by omega)]
            exact hW r (by omega) hrT)
          (fun r hr hrT => hnext r (by omega) hrT) (by omega)
        refine ⟨hdr', ?_, hi'.congr fun r _ hrT => ?_⟩
        · rw [chainFrom, if_pos hlt]
          simp only [undoEntries, hbase, getBlockIndexEntryForIndex, hb, bind_eq_bind,
            bind_some, hslot, hstore, hrewind]
          rw [show ((setHeader e hdr₂ (setHeader e hdr₁ st)).mem.blocks (β q)).next =
            chainFrom β T (q + 1) from hnext q le_rfl hlt]
          exact hloop
        · by_cases hqr : q ≤ r
          · rw [if_pos ⟨hqr, hrT⟩]
            by_cases hrq : r = q
            · rw [if_neg (by omega), hrq, update_self]
            · rw [if_pos (by omega)]
          · rw [if_neg (by omega), if_neg (by omega), update_of_ne (by omega)]

/-- The chain from number `q` on is released block by block. -/
theorem addBlocksToFreeList_spec (hs : s ≤ t) (fuel : Nat) {q : Nat} {mem : Mem α}
    (hhas : Has e (window β s t ∪ window β q T) mem) (htq : t ≤ q) (hqT : q ≤ T)
    (hinj : ∀ r r', s ≤ r → r < T → s ≤ r' → r' < T → β r = β r' → r = r')
    (hempty : ∀ r i, q ≤ r → r < T → i < e.BLOCK_SIZE → (mem.blocks (β r)).elements i = none)
    (hnext : ∀ r, q ≤ r → r < T → (mem.blocks (β r)).next = chainFrom β T (r + 1))
    (hfuel : T < q + fuel) :
    ∃ mem', addBlocksToFreeList e fuel (chainFrom β T q) mem = some mem' ∧
      mem'.blocks = mem.blocks ∧
      Traffic e (window β s t ∪ window β q T) (window β s t) mem mem' := by
  induction fuel generalizing q mem with
  | zero => omega
  | succ fuel ih =>
      by_cases hlast : q = T
      · subst hlast
        have hnone : window β q q = ∅ := by
          ext b
          constructor
          · rintro ⟨r, hr, hrq, -⟩
            omega
          · exact nofun
        rw [chainFrom, if_neg (lt_irrefl q), addBlocksToFreeList]
        rw [hnone, Set.union_empty] at hhas ⊢
        exact ⟨mem, rfl, rfl, hhas.refl⟩
      · have hlt : q < T := by omega
        have hin : β q ∈ window β s t ∪ window β q T := .inr (mem_window le_rfl hlt)
        have hrelease := hhas.release hin fun i hi => hempty q i le_rfl hlt hi
        have hrest : (window β s t ∪ window β q T) \ {β q} = window β s t ∪ window β (q + 1) T := by
          have hout : β q ∉ window β s t := fun ⟨r, hsr, hrt, heq⟩ => by
            have := hinj r q hsr (by omega) (by omega) hlt heq
            omega
          rw [Set.union_sdiff_distrib, Set.sdiff_singleton_eq_self hout,
            window_tail (fun r r' hr hrT hr' hrT' => hinj r r' (by omega) hrT (by omega) hrT') hlt]
        rw [hrest] at hrelease
        obtain ⟨mem', hloop, hblocks, htraffic⟩ := ih (q := q + 1) hrelease.has (by omega) hlt
          (fun r i hr hrT hi => by
            rw [Mem.blocks_addBlockToFreeList]
            exact hempty r i (by omega) hrT hi)
          (fun r hr hrT => by
            rw [Mem.blocks_addBlockToFreeList]
            exact hnext r (by omega) hrT) (by omega)
        refine ⟨mem', ?_, ?_, hrelease.trans htraffic⟩
        · rw [chainFrom, if_pos hlt, addBlocksToFreeList, hnext q le_rfl hlt]
          exact hloop
        · rw [hblocks, Mem.blocks_addBlockToFreeList]

end Rollback

/-- The block before the tail. -/
theorem Inv.base_before (h : Inv e st₀ v l) : 0 < v.tail ∧ (v.tail - 1) / e.BLOCK_SIZE = v.t - 1 ∧
    e.blockBase (st₀.prod.tailIndex - 1#e.bits) =
      BitVec.ofNat e.bits ((v.t - 1) * e.BLOCK_SIZE) := by
  obtain ⟨hlo, hhi⟩ := h.newest
  obtain ⟨r, hr⟩ : ∃ r, v.t = r + 1 := Nat.exists_eq_succ_of_ne_zero h.stock.pos.ne'
  rw [hr, Nat.succ_mul] at hlo hhi
  have hdiv : (v.tail - 1) / e.BLOCK_SIZE = r := by
    rw [show v.tail - 1 = r * e.BLOCK_SIZE + (v.tail - 1 - r * e.BLOCK_SIZE) by omega,
      block_div (by omega)]
  have hpos : 0 < v.tail := by omega
  refine ⟨hpos, by rw [hdiv, hr, Nat.add_sub_cancel], ?_⟩
  rw [h.tailIndex, ofNat_sub hpos, Traits.blockBase_ofNat, hdiv, hr, Nat.add_sub_cancel]

/-- What a call leaves that has given everything back. -/
structure Undone (st₀ : State e.bits α) (v : View) (l : List α) (st : State e.bits α) (v' : View) :
    Prop where
  inv : Inv e st v' l
  grows : Grows st₀ v st v'

theorem Extended.rollback (h : Inv e st₀ v l) (hx : Extended st₀ v l st β ν T c k) :
    ∃ st' v', Implicit.rollback e st₀.prod.tailBlock (takenAt e st₀ v β T).firstAllocatedBlock st =
        some st' ∧ Undone st₀ v l st' v' := by
  have hle := hx.le
  have hspan := hx.span h
  have hpos := Nat.two_pow_pos e.bits
  have hhalf := e.two_pow_bits
  have hbase : e.blockBase (st.prod.tailIndex - 1#e.bits) =
      BitVec.ofNat e.bits ((v.t - 1) * e.BLOCK_SIZE) := by
    rw [hx.tailIndex]
    exact h.base_before.2.2
  have hfuel : T < v.t + 2 ^ e.bits := by
    have hmul : T - v.s ≤ (T - v.s) * e.BLOCK_SIZE := Nat.le_mul_of_pos_right _ e.BLOCK_SIZE_pos
    have := h.stock.le
    omega
  have hfirst : (takenAt e st₀ v β T).firstAllocatedBlock = chainFrom β T v.t := rfl
  have hnext : ∀ r, v.t ≤ r → r < T → (st.mem.blocks (β r)).next = chainFrom β T (r + 1) := by
    intro r hr hrT
    rw [hx.stock.held.link r (h.stock.le.trans hr) hrT, chainFrom]
    split
    case isTrue hmore =>
        refine hx.chain r (le_trans ?_ hr) hmore
        exact Nat.div_le_of_le_mul (by rw [Nat.mul_comm]; exact h.newest.1)
    case isFalse hno =>
        obtain rfl : r = T - 1 := by omega
        exact hx.last (by omega)
  have hinj := hx.stock.held.inj
  have hempty : ∀ r i, v.t ≤ r → r < T → i < e.BLOCK_SIZE →
      (st.mem.blocks (β r)).elements i = none := fun r i hr hrT hi => by
    rw [hx.stock.held.slot r i (h.stock.le.trans hr) hrT hi]
    exact h.free_behind hr i
  have hunion : window β v.s v.t ∪ window β v.t T = window β v.s T := by
    ext b
    constructor
    · rintro (⟨q, hq, hqt, rfl⟩ | ⟨q, hq, hqt, rfl⟩)
      · exact mem_window hq (by omega)
      · exact mem_window (h.stock.le.trans hq) hqt
    · rintro ⟨q, hq, hqt, rfl⟩
      rcases Nat.lt_or_ge q v.t with hlt | hge
      · exact .inl (mem_window hq hlt)
      · exact .inr (mem_window hge hqt)
  obtain ⟨mem', hadd, hblocks, htraffic⟩ := addBlocksToFreeList_spec (β := β) (T := T) h.stock.le
    (2 ^ e.bits) (q := v.t) (hunion ▸ hx.stock.has) le_rfl hle hinj
    hempty hnext hfuel
  rw [hunion] at htraffic
  have hall := hx.traffic.trans htraffic
  have hheld : Held e .implicitContext mem' β v.s v.t ν (slotAt v.head l)
      (marked e.BLOCK_SIZE v.head) :=
    (hx.stock.held.mono le_rfl hle (fun _ _ _ => rfl) fun _ _ _ => rfl).of_has htraffic.has le_rfl
      fun q _ _ => by rw [hblocks]
  have hβ : v.s < v.t → β (v.t - 1) = v.β (v.t - 1) := fun hst => hx.old _ (by omega)
  -- what is left to show of the index and of the loop that clears it
  suffices hundo : ∃ p', undoEntries e (2 ^ e.bits) (chainFrom β T v.t)
      (BitVec.ofNat e.bits ((v.t - 1) * e.BLOCK_SIZE)) st = some ⟨st.mem, p'⟩ ∧
      Reindexed st.prod p' ∧ IndexAt e p' β v.s v.t c k by
    obtain ⟨p', hundo, hre, hindex⟩ := hundo
    refine ⟨setTailBlock e st₀.prod.tailBlock (setMem e mem' ⟨st.mem, p'⟩),
      { v with β := β, ν := ν, c := c, k := k }, ?_, h.reindex ?_ ⟨hall.has, hheld, ?_,
      h.stock.le, h.stock.pos⟩ hβ, hall, rfl, rfl, hx.old, hx.grown⟩
    · simp only [Implicit.rollback, hbase, hfirst, hundo, hadd, bind_eq_bind,
        bind_some]
    · obtain ⟨tb, index, next, hp⟩ := hx.prod
      obtain ⟨index', next', rfl⟩ := hre
      refine ⟨index', next', ?_⟩
      show { ({ st.prod with blockIndex := index', nextBlockIndexCapacity := next' } :
        ImplicitProducer e.bits) with tailBlock := st₀.prod.tailBlock } = _
      rw [hp]
    · exact hindex
  by_cases hT : T = v.t
  · subst hT
    refine ⟨st.prod, ?_, .refl _, hx.stock.index⟩
    obtain ⟨n, hn⟩ := Nat.exists_eq_succ_of_ne_zero hpos.ne'
    rw [chainFrom, if_neg (lt_irrefl _), hn, undoEntries]
  · have hst : v.s < T := by
      have := h.stock.le
      omega
    obtain ⟨hdr, hhdr, hcap, hi⟩ := hx.stock.exists_index hst
    obtain ⟨hdr', hundo, hi'⟩ := undoEntries_spec (hx.small hst) h.stock.le h.stock.pos hspan
      (2 ^ e.bits) hi hhdr le_rfl hle (by omega) (fun _ _ _ => rfl) hnext hfuel
    refine ⟨_, hundo, ⟨_, _, rfl⟩, .inr ⟨hdr', rfl, hcap, ?_⟩⟩
    refine (hi'.shrink h.stock.le hle fun q hq hqT => if_pos ⟨hq, hqT⟩).congr fun q _ hq => ?_
    rw [if_neg (by omega)]

/-! ### The allocation phase -/

theorem takenAt_succ {b : Nat} (hle : v.t ≤ T) :
    (⟨BitVec.ofNat e.bits (T * e.BLOCK_SIZE),
      (takenAt e st₀ v β T).firstAllocatedBlock.or (some b), some b⟩ : Taken e.bits) =
      takenAt e st₀ v (update β T b) (T + 1) := by
  have hb : update β T b T = b := update_self ..
  have hlt : v.t < T + 1 := by omega
  rw [takenAt, takenAt, if_pos hlt, if_pos hlt, Nat.add_sub_cancel, hb]
  congr 1
  rcases Nat.lt_or_eq_of_le hle with h | h
  · rw [if_pos h, Option.some_or, update_of_ne h.ne]
  · rw [if_neg (by omega), Option.none_or, h, hb]

/-- One more block. -/
theorem Extended.take (h : Inv e st₀ v l) (hx : Extended st₀ v l st β ν T c k)
    (hnext : (T + 1) * e.BLOCK_SIZE < v.head + 2 ^ (e.bits - 1)) {mode : AllocationMode}
    {st₁ : State e.bits α} {b c' k' : Nat} {hdr : BlockIndexHeader e.bits}
    (ha : Acquired mode st st₁ β ν v.s T k (slotAt v.head l) (marked e.BLOCK_SIZE v.head) b hdr
      c' k') :
    ∃ st₂ st' ν', storeValue e (BitVec.ofNat e.bits ((c' + T) % 2 ^ k')) (some b) st₁ = some st₂ ∧
      appendBlock e b (st₂.prod.tailIndex &&& e.blockMask ≠ 0 ∨
        (takenAt e st₀ v β T).firstAllocatedBlock ≠ none) st₂ = some st' ∧
      Extended st₀ v l st' (update β T b) ν' (T + 1) c' k' ∧
      st'.prod.blockIndex.isSome = true ∧ budget e st'.mem k' = budget e st₁.mem k' := by
  obtain ⟨w, hi⟩ := ha.index
  have hst : v.s ≤ T := hx.stock.le
  have hpos := hx.pos
  have hle := hx.le
  have hlow : v.head ≤ T * e.BLOCK_SIZE :=
    h.head_le.trans (Nat.mul_le_mul_right _ hle)
  obtain ⟨hdr', hstore, hi'⟩ := hi.fill hst
    (show st₁.prod.blockIndex = some _ by rw [ha.prod]; rfl) b
  have hheld := ha.held
  rw [update_marked_zero hlow] at hheld
  have htb : v.tail / e.BLOCK_SIZE < T →
      v.s < T ∧ (setHeader e hdr' st₁).prod.tailBlock = some (β (T - 1)) := by
    intro hlt
    have hsT : v.s < T := by
      rcases h.stock.le.lt_or_eq with hlt' | heq
      · omega
      · rw [(h.of_no_block heq).2.1, Nat.mul_div_cancel _ e.BLOCK_SIZE_pos] at hlt
        omega
    refine ⟨hsT, ?_⟩
    rw [← hx.tailBlock hsT, setHeader, ha.prod]
    rfl
  have hchain : ∀ r, v.tail / e.BLOCK_SIZE ≤ r → r + 1 < T →
      update ν T (st₁.mem.blocks b).next r = some (β (r + 1)) := fun r hr hrT => by
    rw [update_of_ne (by omega)]
    exact hx.chain r hr hrT
  obtain ⟨mem', ν', happend, hwithin, hheld', hchain', hlast', hsame⟩ :=
    appendBlock_spec (p := (setHeader e hdr' st₁).prod) hheld hst hpos htb hchain
  have htraffic := hwithin.traffic ha.traffic.has
  have htail : (setHeader e hdr' st₁).prod.tailIndex = st.prod.tailIndex := by
    rw [setHeader, ha.prod]
    rfl
  refine ⟨setHeader e hdr' st₁,
    ⟨mem', { (setHeader e hdr' st₁).prod with tailBlock := some b }⟩, ν', hstore, ?_, ?_, rfl, ?_⟩
  · rw [htail, ← happend]
    congr 1
    rw [decide_eq_decide]
    exact hx.linked_iff h
  · refine ⟨⟨htraffic.has, hheld', .inr ⟨hdr', rfl, ?_, ?_⟩, by omega, by omega⟩, ?_, ?_, by omega,
      ?_, hchain', fun _ => hlast', hnext, fun _ => ?_,
        (hx.traffic.trans ha.traffic).trans htraffic, hx.grown.trans ha.grown⟩
    · simp only [setHeader, ha.prod]
      rfl
    · exact hi'
    · obtain ⟨tb, index, next, hp⟩ := hx.prod
      simp only [setHeader, ha.prod, hp, withIndex]
      exact ⟨some b, _, _, rfl⟩
    · intro _
      show some b = _
      rw [Nat.add_sub_cancel, update_self]
    · intro q hq
      rw [update_of_ne (by omega)]
      exact hx.old q hq
    · rw [Nat.succ_mul] at hnext
      omega
  · rw [hsame]
    rfl

/-- **The allocation loop** takes all the blocks, or gives everything back. -/
theorem Extended.allocateBlocks (h : Inv e st₀ v l) (mode : AllocationMode) (n : Nat)
    (hx : Extended st₀ v l st β ν T c k) :
    ((0 < n → st.prod.blockIndex.isSome = true) ∧ ∃ st' β' ν' c' k',
      allocateBlocks e mode st₀.prod.tailBlock n (takenAt e st₀ v β T) st =
        some (st', some (takenAt e st₀ v β' (T + n))) ∧
      Extended st₀ v l st' β' ν' (T + n) c' k' ∧
      (budget e st.mem k).acquireMany e mode v.head v.s n T = some (budget e st'.mem k')) ∨
    ((0 < n ∧ (st.prod.blockIndex.isSome = false ∨
        (budget e st.mem k).acquireMany e mode v.head v.s n T = none)) ∧
      ∃ st' v', allocateBlocks e mode st₀.prod.tailBlock n (takenAt e st₀ v β T) st =
        some (st', none) ∧ Undone st₀ v l st' v') := by
  induction n generalizing st β ν T c k with
  | zero => exact .inl ⟨nofun, st, β, ν, c, k, rfl, hx, rfl⟩
  | succ n ih =>
      have hle := hx.le
      have hlen := h.len
      have hnew := h.newest.1
      have hmul : v.t * e.BLOCK_SIZE ≤ T * e.BLOCK_SIZE := Nat.mul_le_mul_right _ hle
      have hcur : (takenAt e st₀ v β T).currentTailIndex + e.blockSize =
          BitVec.ofNat e.bits (T * e.BLOCK_SIZE) := by
        rw [takenAt, Traits.blockSize, BitVec.ofNat_add_ofNat, ← Nat.succ_mul, Nat.succ_eq_add_one,
          Nat.sub_add_cancel hx.pos]
      have hhead : st.prod.headIndex = BitVec.ofNat e.bits v.head := hx.headIndex.trans h.headIndex
      have hassert : circularLessThan (BitVec.ofNat e.bits (T * e.BLOCK_SIZE))
          (BitVec.ofNat e.bits v.head) = false :=
        h.tail_not_less (by omega) hx.bound.le
      obtain ⟨stᵤ, vᵤ, hrollback, hundone⟩ := hx.rollback h
      simp only [Implicit.allocateBlocks, hcur, hhead, hassert, Bool.false_eq_true, if_false]
      cases hfull : full e (BitVec.ofNat e.bits v.head)
          (BitVec.ofNat e.bits (T * e.BLOCK_SIZE)) with
      | true =>
          refine .inr ⟨⟨Nat.succ_pos n, .inr ?_⟩, stᵤ, vᵤ, ?_, hundone⟩
          · rw [Budget.acquireMany, hfull, if_pos rfl]
          · simp only [if_true, hrollback, bind_eq_bind, bind_some]
      | false =>
          have hlow : v.head ≤ T * e.BLOCK_SIZE := h.head_le.trans hmul
          have hnext := of_not_full hlow hx.bound hfull
          have hfree : ∀ i < e.BLOCK_SIZE, slotAt v.head l (T * e.BLOCK_SIZE + i) = none :=
            fun i _ => h.free_behind hle i
          have hst := hx.stock.le
          have hmany : ∀ b : Budget, b.acquireMany e mode v.head v.s (n + 1) T =
              (b.acquire e mode v.s T).bind
                (Budget.acquireMany e mode v.head v.s n (T + 1)) := fun b => by
            rw [Budget.acquireMany, hfull]
            rfl
          simp only [Bool.false_eq_true, if_false]
          rcases hx.stock.acquire (span_le (by omega) h.oldest.2 hnext) hfree mode with
            ⟨hsome, st₁, b, hdr, c', k', hacq, ha⟩ |
              ⟨hno, st₁, c', k', m, hacq, hre, hmem, hk, hstock⟩
          · obtain ⟨st₂, st₃, ν', hstore, happend, hx', hsome', hbudget⟩ := hx.take h hnext ha
            simp only [hacq, bind_eq_bind, bind_some, hstore, happend,
              takenAt_succ hle, hmany, ha.spent]
            rw [← hbudget, show T + (n + 1) = T + 1 + n by omega]
            rcases ih hx' with ⟨-, st', β', ν'', c'', k'', hloop, hx'', hspent⟩ |
              ⟨⟨hpos, hwhy⟩, st', v', hloop, hundone'⟩
            · exact .inl ⟨fun _ => hsome, st', β', ν'', c'', k'', hloop, hx'', hspent⟩
            · refine .inr ⟨⟨Nat.succ_pos n, .inr (hwhy.resolve_left fun hnone => ?_)⟩, st', v',
                hloop, hundone'⟩
              rw [hsome'] at hnone
              cases hnone
          · -- no slot or no block: the index may have grown, and that is all
            have hx₁ : Extended st₀ v l st₁ β ν T c' k' := by
              obtain ⟨tb, index, next, hp⟩ := hx.prod
              obtain ⟨index', next', hp'⟩ := hre
              refine { hx with
                stock := hstock
                prod := ⟨tb, index', next', by rw [hp', hp]⟩
                tailBlock := fun hsT => by
                  rw [hp']
                  exact hx.tailBlock hsT
                traffic := hx.traffic.trans ?_
                grown := hx.grown.trans hk }
              rw [hmem]
              exact (Within.mallocs m).traffic hx.stock.has
            obtain ⟨stᵤ, vᵤ, hrollback, hundone⟩ := hx₁.rollback h
            refine .inr ⟨⟨Nat.succ_pos n, hno.imp_right fun hnone => ?_⟩, stᵤ, vᵤ, ?_, hundone⟩
            · rw [hmany, hnone]
              rfl
            · simp only [hacq, bind_eq_bind, bind_some, hrollback]

/-! ### Filling the blocks -/

theorem Inv.s_le_tail (h : Inv e st₀ v l) : v.s ≤ v.tail / e.BLOCK_SIZE := by
  have hlen := h.len
  rw [h.s_eq]
  exact Nat.div_le_div_right (by omega)

namespace Extended

variable (h : Inv e st₀ v l) (hx : Extended st₀ v l st β ν T c k)
include h hx

/-- The block that filling starts with, and the last one. -/
theorem ends (hq : v.tail / e.BLOCK_SIZE < T) :
    (if st₀.prod.tailIndex &&& e.blockMask = 0 ∧
        (takenAt e st₀ v β T).firstAllocatedBlock ≠ none then
      (takenAt e st₀ v β T).firstAllocatedBlock else st₀.prod.tailBlock) =
        some (β (v.tail / e.BLOCK_SIZE)) ∧
    (if st₀.prod.tailIndex &&& e.blockMask = 0 then (takenAt e st₀ v β T).firstAllocatedBlock
      else st₀.prod.tailBlock) = some (β (v.tail / e.BLOCK_SIZE)) ∧
    (takenAt e st₀ v β T).endBlock = some (β (T - 1)) := by
  have hle := hx.le
  have haligned : st₀.prod.tailIndex &&& e.blockMask = 0 ↔ v.tail % e.BLOCK_SIZE = 0 := by
    rw [h.tailIndex, e.and_blockMask_eq_zero]
  by_cases hmod : v.tail % e.BLOCK_SIZE = 0
  · have hdiv : v.tail / e.BLOCK_SIZE = v.t := by
      rw [h.aligned_iff.mp hmod, Nat.mul_div_cancel _ e.BLOCK_SIZE_pos]
    rw [hdiv] at hq ⊢
    simp only [takenAt, haligned.mpr hmod, hq, if_true, ne_eq, reduceCtorEq, not_false_eq_true,
      and_self]
  · obtain ⟨hst, hdiv⟩ := h.tail_block hmod
    have hstart : st₀.prod.tailBlock = some (β (v.t - 1)) := by
      rw [h.tailBlock hst, hx.old _ (by omega)]
    rw [hdiv]
    simp only [mt haligned.mp hmod, false_and, if_false, hstart, takenAt, true_and]
    split
    · rfl
    · rw [show T = v.t by omega]

/-- The chain from the block of the tail on. It ends with the last block, unless the
call has taken none. -/
theorem chained {mem : Mem α} (hlink : ∀ r, v.s ≤ r → r < T → (mem.blocks (β r)).next = ν r)
    {last : Option Nat} (hlast : last = some (β (T - 1)) ∨ v.t < T) :
    Within.Chained (window β (v.tail / e.BLOCK_SIZE) T) last mem := by
  rintro b ⟨r, hr, hrT, rfl⟩ hne c hc
  rw [hlink r (h.s_le_tail.trans hr) hrT] at hc
  by_cases hend : r = T - 1
  · rcases hlast with rfl | hlt
    · exact absurd (by rw [hend]) hne
    · rw [hend, hx.last hlt] at hc
      cases hc
  · rw [hx.chain r hr (by omega)] at hc
    obtain rfl := Option.some.inj hc
    exact mem_window (by omega) (by omega)

/-- Filling the blocks with all of `xs`, or with some of them that are destroyed again
when a constructor throws. -/
theorem fill (ctor : Ctor) {xs : List α} (hq : v.tail / e.BLOCK_SIZE < T)
    (hge : (T - 1) * e.BLOCK_SIZE ≤ v.tail + xs.length)
    (hle : v.tail + xs.length ≤ T * e.BLOCK_SIZE) :
    ((∀ j < xs.length, ctor.throws j = false) ∧ ∃ mem',
      fillBlocks e ctor (BitVec.ofNat e.bits (v.tail + xs.length)) (some (β (T - 1))) (2 ^ e.bits)
        (some (β (v.tail / e.BLOCK_SIZE))) (BitVec.ofNat e.bits v.tail) 0 xs st.mem =
        some (BitVec.ofNat e.bits (v.tail + xs.length), some (β (T - 1)), mem', false) ∧
      Within e (window β v.s T) st.mem mem' ∧
      Held e .implicitContext mem' β v.s T ν (slotAt v.head (l ++ xs))
        (marked e.BLOCK_SIZE v.head)) ∨
    ((∃ j < xs.length, ctor.throws j = true) ∧ ∃ i tb mem' mem'',
      fillBlocks e ctor (BitVec.ofNat e.bits (v.tail + xs.length)) (some (β (T - 1))) (2 ^ e.bits)
        (some (β (v.tail / e.BLOCK_SIZE))) (BitVec.ofNat e.bits v.tail) 0 xs st.mem =
        some (i, tb, mem', true) ∧
      undoBlocks e i tb (2 ^ e.bits) (BitVec.ofNat e.bits v.tail)
        (some (β (v.tail / e.BLOCK_SIZE))) mem' = some mem'' ∧
      Within e (window β v.s T) st.mem mem'' ∧
      Held e .implicitContext mem'' β v.s T ν (slotAt v.head l)
        (marked e.BLOCK_SIZE v.head)) := by
  have hst := h.s_le_tail
  have hspan := hx.span h
  have hhalf := e.two_pow_bits
  have hpos := Nat.two_pow_pos (e.bits - 1)
  have hB := hx.small (by omega)
  have hfuel : T ≤ v.tail / e.BLOCK_SIZE + 2 ^ e.bits := by
    have hmul : T - v.s ≤ (T - v.s) * e.BLOCK_SIZE := Nat.le_mul_of_pos_right _ e.BLOCK_SIZE_pos
    omega
  have hsub : window β (v.tail / e.BLOCK_SIZE) T ⊆ window β v.s T := window_mono hst le_rfl
  have hstart : ∀ b, some (β (v.tail / e.BLOCK_SIZE)) = some b →
      b ∈ window β (v.tail / e.BLOCK_SIZE) T := fun b hb =>
    Option.some.inj hb ▸ mem_window le_rfl hq
  obtain ⟨m, hm, hquiet, hstop⟩ := ctor.exists_stop xs.length
  obtain ⟨mem', hfill, hheld⟩ := hx.stock.held.fillBlocks (k := 0) hB hspan hge hle
    (2 ^ e.bits) hx.chain h.len hst hq rfl rfl hm
    (fun j hj => show ctor.throws (0 + j) = false by rw [Nat.zero_add]; exact hquiet j hj)
    (by rwa [Nat.zero_add]) hfuel
  have hwithin := (Within.fillBlocks hstart (hx.chained h hx.stock.held.link (.inl rfl)) hfill).1
  rcases Nat.lt_or_eq_of_le hm with hlt | rfl
  · have hthrow := hstop.resolve_left hlt.ne
    rw [if_pos hlt, decide_eq_true hlt] at hfill
    have htake : (xs.take m).length = m := List.length_take_of_le hm
    have hdivlt : (v.tail + m) / e.BLOCK_SIZE < T :=
      Nat.div_lt_of_lt_mul (by rw [Nat.mul_comm]; omega)
    have hlen := h.len
    obtain ⟨mem'', hundo, hheld'⟩ := hheld.undoBlocks hB hspan hdivlt
      (2 ^ e.bits) hx.chain hst rfl (show v.tail + (xs.take m).length = v.tail + m by rw [htake])
      (fun j hj => by
        rw [← hlen, slotAt, if_pos (by omega), List.getElem?_append_right (by omega)]
        congr 1
        omega) hfuel
    rw [← hlen, cleared_slotAt_append] at hheld'
    have hlast : some (β ((v.tail + m) / e.BLOCK_SIZE)) = some (β (T - 1)) ∨ v.t < T := by
      have htT := hx.le
      by_cases hlt : v.t < T
      · exact .inr hlt
      · -- no block was needed, so that all of it happened in the tail block
        have hge : v.t - 1 ≤ (v.tail + m) / e.BLOCK_SIZE := by
          rw [← h.base_before.2.1]
          exact Nat.div_le_div_right (by omega)
        rw [show (v.tail + m) / e.BLOCK_SIZE = T - 1 by omega]
        exact .inl rfl
    have hwithin' := (Within.undoBlocks hstart (hx.chained h hheld.link hlast) hundo).1
    exact .inr ⟨⟨m, hlt, hthrow⟩, _, _, mem', mem'', hfill, hundo,
      (hwithin.trans hwithin').mono hsub, hheld'⟩
  · rw [if_neg (lt_irrefl _), decide_eq_false (lt_irrefl _)] at hfill
    rw [List.take_length] at hheld
    exact .inl ⟨hquiet, mem', hfill, hwithin.mono hsub, hheld⟩

end Extended

/-- Every count of blocks that is needed is small. -/
theorem toNat_blockBaseDiff (h : Inv e st₀ v l) {n : Nat}
    (hfits : (v.tail - 1) % e.BLOCK_SIZE + n < 2 ^ e.bits) :
    (e.blockBase (st₀.prod.tailIndex + BitVec.ofNat e.bits n - 1#e.bits) -
      e.blockBase (st₀.prod.tailIndex - 1#e.bits)).toNat / e.BLOCK_SIZE = needed e v n := by
  obtain ⟨hpos, hdiv, hbase⟩ := h.base_before
  have hB := e.BLOCK_SIZE_pos
  have ht := h.stock.pos
  have hle : v.t - 1 ≤ (v.tail + n - 1) / e.BLOCK_SIZE := by
    rw [← hdiv]
    exact Nat.div_le_div_right (by omega)
  have hmul : (v.t - 1) * e.BLOCK_SIZE ≤ (v.tail + n - 1) / e.BLOCK_SIZE * e.BLOCK_SIZE :=
    Nat.mul_le_mul_right _ hle
  have hlow := block_add e.BLOCK_SIZE (v.tail - 1)
  rw [hdiv] at hlow
  have hhigh := Nat.div_mul_le_self (v.tail + n - 1) e.BLOCK_SIZE
  rw [hbase, h.tailIndex, BitVec.ofNat_add_ofNat, ofNat_sub (by omega), Traits.blockBase_ofNat,
    toNat_ofNat_sub hmul (by omega), ← Nat.sub_mul, Nat.mul_div_cancel _ hB, needed]
  omega

/-! ### Several elements -/

/-- The blocks that `n` elements need can be had. -/
def hasRoomFor (e : Env) (mode : AllocationMode) (st : State e.bits α) (v : View) (n : Nat) :
    Bool :=
  decide (needed e v n = 0) || (st.prod.blockIndex.isSome &&
    ((budget e st.mem v.k).acquireMany e mode v.head v.s (needed e v n) v.t).isSome)

/-- A call that adds nothing finds its place and stops there. -/
theorem Inv.fill_nil (h : Inv e st₀ v l) (hB : e.BLOCK_SIZE < 2 ^ (e.bits - 1)) (ctor : Ctor)
    (tb : Option Nat) (mem : Mem α) :
    fillBlocks e ctor st₀.prod.tailIndex tb (2 ^ e.bits) tb st₀.prod.tailIndex 0 [] mem =
      some (st₀.prod.tailIndex, tb, mem, false) := by
  obtain ⟨fuel, hfuel⟩ := Nat.exists_eq_succ_of_ne_zero (Nat.two_pow_pos e.bits).ne'
  have hadd := block_add e.BLOCK_SIZE v.tail
  have hmod := Nat.mod_lt v.tail e.BLOCK_SIZE_pos
  have hstop := stopIndex_ofNat hB (i := v.tail) rfl le_rfl (by omega)
  rw [Nat.min_eq_left (by omega), ← h.tailIndex] at hstop
  simp only [hfuel, fillBlocks, hstop, BitVec.sub_self, BitVec.toNat_ofNat, Nat.zero_mod, fillBlock,
    bind_eq_bind, bind_some, Bool.false_eq_true, if_false, if_true]

theorem needed_zero (h : Inv e st₀ v l) : needed e v 0 = 0 := by
  obtain ⟨-, hdiv, -⟩ := h.base_before
  have hpos := h.stock.pos
  have hsame : v.tail + 0 - 1 = v.tail - 1 := rfl
  rw [needed, hsame, hdiv]
  omega

/-- An empty call changes nothing. -/
theorem Inv.enqueueBulk_nil (h : Inv e st₀ v l) (hB : e.BLOCK_SIZE < 2 ^ (e.bits - 1))
    (mode : AllocationMode) (ctor : Ctor) :
    Implicit.enqueueBulk e mode ctor [] st₀ = some (st₀, .returned true) := by
  have hzero : st₀.prod.tailIndex + 0#e.bits = st₀.prod.tailIndex := BitVec.add_zero _
  have hfill := h.fill_nil hB ctor st₀.prod.tailBlock st₀.mem
  simp only [Implicit.enqueueBulk, List.length_nil, hzero, BitVec.sub_self, BitVec.toNat_ofNat,
    Nat.zero_mod, Nat.zero_div, allocateBlocks, bind_eq_bind, bind_some, ne_eq,
    not_true_eq_false, and_false, if_false, hfill, Bool.false_eq_true]
  exact if_neg fun hne => hne.2.2 rfl

/-- **Bulk enqueue**: all the elements are behind the others, or nothing has changed but
the size of the index. -/
theorem Inv.enqueueBulk (h : Inv e st₀ v l) (mode : AllocationMode) (ctor : Ctor) (xs : List α)
    (hfits : (v.tail - 1) % e.BLOCK_SIZE + xs.length < 2 ^ e.bits)
    (hcorner : xs = [] → e.BLOCK_SIZE < 2 ^ (e.bits - 1)) :
    ∃ st' v' r, Implicit.enqueueBulk e mode ctor xs st₀ = some (st', r) ∧
      (r = .returned false ↔ hasRoomFor e mode st₀ v xs.length = false) ∧
      (r = .threw ↔ hasRoomFor e mode st₀ v xs.length = true ∧
        ∃ j < xs.length, ctor.throws j = true) ∧
      Inv e st' v' (if r = .returned true then l ++ xs else l) ∧
      Grows st₀ v st' v' ∧
      (r = .returned true → (budget e st₀.mem v.k).acquireMany e mode v.head v.s
        (needed e v xs.length) v.t = some (budget e st'.mem v'.k)) := by
  by_cases hnil : xs = []
  · subst hnil
    refine ⟨st₀, v, _, h.enqueueBulk_nil (hcorner rfl) mode ctor, ?_, ?_, ?_, h.grows_refl,
      fun _ => ?_⟩
    · simp [hasRoomFor, needed_zero h]
    · simp
    · simpa using h
    · rw [List.length_nil, needed_zero h]
      rfl
  have hn : 0 < xs.length := List.length_pos_iff.mpr hnil
  obtain ⟨hpos, hdiv, hbase⟩ := h.base_before
  have hcount := toNat_blockBaseDiff h hfits
  have hstart : (⟨e.blockBase (st₀.prod.tailIndex - 1#e.bits), none, st₀.prod.tailBlock⟩ :
      Taken e.bits) = takenAt e st₀ v v.β v.t := by
    simp only [takenAt, lt_irrefl, if_false, hbase]
  have hnew : st₀.prod.tailIndex + BitVec.ofNat e.bits xs.length =
      BitVec.ofNat e.bits (v.tail + xs.length) := by
    rw [h.tailIndex, BitVec.ofNat_add_ofNat]
  rw [hnew] at hcount
  rcases h.extended.allocateBlocks h mode (needed e v xs.length) with
    ⟨hsome, st₁, β, ν, c, k, halloc, hx, hspent⟩ | ⟨⟨hneed, hwhy⟩, st₁, v', halloc, hundone⟩
  · have hroom : hasRoomFor e mode st₀ v xs.length = true := by
      rw [hasRoomFor, hspent]
      rcases Nat.eq_zero_or_pos (needed e v xs.length) with h0 | h0
      · simp [h0]
      · simp [hsome h0]
    rw [hroom]
    -- the last block is the one of the last element
    have hlast : v.t + needed e v xs.length = (v.tail + xs.length - 1) / e.BLOCK_SIZE + 1 := by
      have hle : (v.tail - 1) / e.BLOCK_SIZE ≤ (v.tail + xs.length - 1) / e.BLOCK_SIZE :=
        Nat.div_le_div_right (by omega)
      rw [hdiv] at hle
      rw [needed]
      omega
    generalize v.t + needed e v xs.length = T at hx halloc hlast
    have hB := e.BLOCK_SIZE_pos
    have hadd := block_add e.BLOCK_SIZE (v.tail + xs.length - 1)
    have hmod := Nat.mod_lt (v.tail + xs.length - 1) hB
    have htop : T * e.BLOCK_SIZE =
        (v.tail + xs.length - 1) / e.BLOCK_SIZE * e.BLOCK_SIZE + e.BLOCK_SIZE := by
      rw [hlast, Nat.succ_mul]
    have hbot : (T - 1) * e.BLOCK_SIZE =
      (v.tail + xs.length - 1) / e.BLOCK_SIZE * e.BLOCK_SIZE := by
      rw [hlast, Nat.add_sub_cancel]
    have hq : v.tail / e.BLOCK_SIZE < T := by
      rw [hlast]
      exact Nat.lt_succ_of_le (Nat.div_le_div_right (by omega))
    obtain ⟨hfirst, hblock, hend⟩ := hx.ends h hq
    have hassert : ¬ (st₀.prod.tailIndex &&& e.blockMask = 0 ∧
        (takenAt e st₀ v β T).firstAllocatedBlock = none ∧
        BitVec.ofNat e.bits xs.length ≠ 0) := by
      rintro ⟨hal, hnone, -⟩
      rw [hal, if_pos rfl, hnone] at hblock
      cases hblock
    have hge : (T - 1) * e.BLOCK_SIZE ≤ v.tail + xs.length := by omega
    have hle : v.tail + xs.length ≤ T * e.BLOCK_SIZE := by omega
    rcases hx.fill h ctor hq hge hle with
      ⟨hquiet, mem', hfill, hwithin, hheld⟩ |
        ⟨hthrows, i, tb, mem', mem'', hfill, hundo, hwithin, hheld⟩
    · have hall := hx.traffic.trans (hwithin.traffic hx.stock.has)
      refine ⟨setTailIndex e (BitVec.ofNat e.bits (v.tail + xs.length))
          (setTailBlock e (some (β (T - 1))) (setMem e mem' st₁)), _, .returned true, ?_, by simp,
            ?_, h.append ?_ ⟨hall.has, hheld, hx.stock.index, hx.stock.le, hx.stock.pos⟩
          (fun _ => rfl) (by omega) (fun _ => hx.bound) hx.small,
        ⟨hall, rfl, rfl, hx.old, hx.grown⟩, fun _ => ?_⟩
      · rw [← h.tailIndex] at hfill
        simp only [Implicit.enqueueBulk, hcount, hstart, halloc, bind_eq_bind,
          bind_some, if_neg hassert, hnew, hfirst, hend, hfill, Bool.false_eq_true, if_false]
      · simp only [reduceCtorEq, true_and, false_iff, not_exists, not_and, Bool.not_eq_true]
        exact hquiet
      · obtain ⟨tb, index, next, hp⟩ := hx.prod
        simp only [setTailBlock, setMem, hp]
        exact ⟨_, _, rfl⟩
      · rw [hspent]
        exact congrArg some (budget_onlyContents (.fillBlocks hfill) _).symm
    · -- a constructor has thrown: what was constructed is destroyed, and the blocks go back
      have htraffic := hwithin.traffic hx.stock.has
      have hx' : Extended st₀ v l (setMem e mem'' st₁) β ν T c k :=
        { hx with
          stock := ⟨htraffic.has, hheld, hx.stock.index, hx.stock.le, hx.stock.pos⟩
          traffic := hx.traffic.trans htraffic }
      obtain ⟨st₂, v', hrollback, hundone⟩ := hx'.rollback h
      refine ⟨st₂, v', .threw, ?_, by simp, by simpa using hthrows, hundone.inv, hundone.grows,
        fun htrue => Pushed.noConfusion htrue⟩
      rw [← h.tailIndex] at hfill hundo
      simp only [Implicit.enqueueBulk, hcount, hstart, halloc, bind_eq_bind,
        bind_some, if_neg hassert, hnew, hfirst, hend, hfill, if_true, hblock, hundo,
        hrollback]
  · have hroom : hasRoomFor e mode st₀ v xs.length = false := by
      rw [hasRoomFor, decide_eq_false (by omega)]
      rcases hwhy with hwhy | hwhy <;> simp [hwhy]
    rw [hroom]
    refine ⟨st₁, v', .returned false, ?_, by simp, by simp, hundone.inv, hundone.grows,
      fun htrue => absurd (Pushed.returned.inj htrue) Bool.false_ne_true⟩
    simp only [Implicit.enqueueBulk, hnew, hcount, hstart, halloc, bind_eq_bind,
      bind_some]

end ConcurrentQueue.Implicit
