import ConcurrentQueue.ImplicitDequeue

/-!
# ConcurrentQueue.ImplicitDestroy

The destructor of an implicit producer walks the indices from the head to the tail. It
asks the index for a block whenever it enters one, and **gives the block before back,
which it has emptied by then**; the last block goes back after the loop, whether the
loop has reached it or the head was in it from the start.
-/

namespace ConcurrentQueue.Implicit

open Wrap

variable {α : Type} {e : Env} {st : State e.bits α} {v : View} {l : List α} {mem : Mem α}
  {i q : Nat}

variable (e) in
/-- The blocks from number `q` on are left, with the elements `l` from index `i` on. -/
structure Left (mem : Mem α) (v : View) (q i : Nat) (l : List α) : Prop where
  has : Has e (window v.β q v.t) mem
  held : Held e .implicitContext mem v.β q v.t v.ν (slotAt i l) (marked e.BLOCK_SIZE v.head)

/-- The block that the loop is in when it comes to index `i`. -/
def View.visiting (v : View) (B i : Nat) : Nat := max (i - 1) v.head / B

theorem View.visiting_head (B : Nat) : v.visiting B v.head = v.head / B := by
  rw [View.visiting, Nat.max_eq_right (Nat.sub_le ..)]

theorem View.visiting_of_lt (B : Nat) (hi : v.head < i) : v.visiting B i = (i - 1) / B := by
  rw [View.visiting, Nat.max_eq_left (by omega)]

theorem View.visiting_succ (B : Nat) (hi : v.head ≤ i) : v.visiting B (i + 1) = i / B := by
  rw [View.visiting, Nat.add_sub_cancel, Nat.max_eq_left hi]

section Loop

variable {l₀ : List α} (h : Inv e st v l₀)
include h

/-- The entry of the block of a live index. -/
theorem Inv.find (hlo : v.head ≤ i) (hhi : i < v.tail) (mem : Mem α) :
    ∃ slot, getBlockIndexEntryForIndex e (BitVec.ofNat e.bits i)
        (⟨mem, st.prod⟩ : State e.bits α) = some slot ∧
      loadValue e slot (⟨mem, st.prod⟩ : State e.bits α) = some (v.β (i / e.BLOCK_SIZE)) := by
  obtain ⟨hs, ht⟩ := h.block_of_live hlo hhi
  obtain ⟨hdr, hhdr, -, hindex⟩ := h.stock.exists_index (by omega)
  exact ⟨_, h.lookup hs ht, hindex.loadValue hhdr hs ht rfl⟩

/-- Coming to a live index: the block before is given back if the index is in the next. -/
theorem Inv.enterBlock (hlo : v.head ≤ i) (hhi : i < v.tail)
    (hleft : Left e mem v (v.visiting e.BLOCK_SIZE i) i l) :
    ∃ mem', enterBlock e (if i = v.head then none else some (v.β (v.visiting e.BLOCK_SIZE i)))
        (BitVec.ofNat e.bits i) (⟨mem, st.prod⟩ : State e.bits α) =
        some (v.β (i / e.BLOCK_SIZE), ⟨mem', st.prod⟩) ∧
      Left e mem' v (i / e.BLOCK_SIZE) i l ∧
      Traffic e (window v.β (v.visiting e.BLOCK_SIZE i) v.t) (window v.β (i / e.BLOCK_SIZE) v.t)
        mem mem' := by
  have hB := e.BLOCK_SIZE_pos
  by_cases hfirst : i = v.head
  · subst hfirst
    obtain ⟨slot, hslot, hload⟩ := h.find hlo hhi mem
    rw [View.visiting_head] at hleft ⊢
    refine ⟨mem, ?_, hleft, hleft.has.refl⟩
    simp only [Implicit.enterBlock, if_true, hslot, hload, Option.bind_eq_bind, Option.bind_some]
  · obtain ⟨j, rfl⟩ : ∃ j, i = j + 1 := ⟨i - 1, by omega⟩
    rw [View.visiting_succ _ (by omega)] at hleft ⊢
    have hpos := e.BLOCK_SIZE_pos
    have hadd := block_add e.BLOCK_SIZE j
    have hmod := Nat.mod_lt j hpos
    by_cases hal : (j + 1) % e.BLOCK_SIZE = 0
    · -- the loop leaves a block
      have hdiv := Nat.succ_div_of_dvd (Nat.dvd_of_mod_eq_zero hal)
      have hmul := block_add e.BLOCK_SIZE (j + 1)
      rw [hdiv, Nat.succ_mul] at hmul
      obtain ⟨-, ht⟩ := h.block_of_live hlo hhi
      obtain ⟨hheld, htraffic⟩ := hleft.held.releaseFirst hleft.has (by omega) fun i hi =>
        slotAt_of_lt (by omega)
      obtain ⟨slot, hslot, hload⟩ :=
        h.find hlo hhi (mem.addBlockToFreeList e (v.β (j / e.BLOCK_SIZE)))
      rw [hdiv] at hload ⊢
      refine ⟨_, ?_, ⟨htraffic.has, hheld⟩, htraffic⟩
      simp only [Implicit.enterBlock, if_neg hfirst, if_pos ((e.and_blockMask_eq_zero _).mpr hal),
        setMem, hslot, hload, Option.bind_eq_bind, Option.bind_some]
    · have hdiv := Nat.succ_div_of_not_dvd (mt Nat.mod_eq_zero_of_dvd hal)
      rw [hdiv]
      refine ⟨mem, ?_, hleft, hleft.has.refl⟩
      simp only [Implicit.enterBlock, if_neg hfirst,
        if_neg (mt (e.and_blockMask_eq_zero _).mp hal)]

/-- The loop: everything from index `i` on is destroyed. -/
theorem Inv.destroyElements (fuel : Nat) (hlo : v.head ≤ i) (hlen : i + l.length = v.tail)
    (hleft : Left e mem v (v.visiting e.BLOCK_SIZE i) i l) (hfuel : l.length < fuel) :
    ∃ mem', destroyElements e st.prod.tailIndex fuel
        (if i = v.head then none else some (v.β (v.visiting e.BLOCK_SIZE i)))
        (BitVec.ofNat e.bits i) (⟨mem, st.prod⟩ : State e.bits α) = some (l, ⟨mem', st.prod⟩) ∧
      Left e mem' v (v.visiting e.BLOCK_SIZE v.tail) v.tail [] ∧
      Traffic e (window v.β (v.visiting e.BLOCK_SIZE i) v.t)
        (window v.β (v.visiting e.BLOCK_SIZE v.tail) v.t) mem mem' := by
  have hl₀ := h.len
  have hlt := h.length_lt
  have hhalf := e.two_pow_bits
  induction l generalizing i fuel mem with
  | nil =>
      obtain ⟨fuel, rfl⟩ := Nat.exists_eq_add_one_of_ne_zero (by omega : fuel ≠ 0)
      obtain rfl : i = v.tail := hlen
      refine ⟨mem, ?_, hleft, hleft.has.refl⟩
      rw [Implicit.destroyElements, if_pos h.tailIndex.symm]
  | cons x l ih =>
      rw [List.length_cons] at hlen hfuel
      obtain ⟨fuel, rfl⟩ := Nat.exists_eq_add_one_of_ne_zero (by omega : fuel ≠ 0)
      have hne : ¬ BitVec.ofNat e.bits i = st.prod.tailIndex := by
        rw [h.tailIndex, ofNat_inj (by omega) (by omega)]
        omega
      obtain ⟨mem₁, henter, hleft₁, htraffic₁⟩ := h.enterBlock hlo (by omega) hleft
      obtain ⟨-, ht⟩ := h.block_of_live hlo (by omega)
      obtain ⟨b, hdes, hheld₂, htraffic₂⟩ := hleft₁.held.destroyFirst hleft₁.has ht rfl
      have hvisit := v.visiting_succ e.BLOCK_SIZE hlo
      have hleft₂ : Left e (mem₁.setBlock (v.β (i / e.BLOCK_SIZE)) b) v
          (v.visiting e.BLOCK_SIZE (i + 1)) (i + 1) l := by
        rw [hvisit]
        exact ⟨htraffic₂.has, hheld₂⟩
      obtain ⟨mem', hloop, hleft', htraffic'⟩ := ih fuel
        (by omega) (by omega) hleft₂ (by omega)
      rw [hvisit] at hloop htraffic'
      rw [if_neg (by omega), ← BitVec.ofNat_add_ofNat] at hloop
      refine ⟨mem', ?_, hleft', (htraffic₁.trans htraffic₂).trans htraffic'⟩
      simp only [Implicit.destroyElements, if_neg hne, henter, hdes, Option.bind_eq_bind,
        Option.bind_some, setMem, hloop]

end Loop

/-- The tail is in the last block, or at its end. -/
theorem Inv.tail_in_last (h : Inv e st v l) (hst : v.s < v.t) :
    (v.t - 1) * e.BLOCK_SIZE < v.tail ∧ v.tail ≤ (v.t - 1) * e.BLOCK_SIZE + e.BLOCK_SIZE := by
  obtain ⟨hnew, hnew'⟩ := h.newest
  have hmul : (v.t - 1) * e.BLOCK_SIZE + e.BLOCK_SIZE = v.t * e.BLOCK_SIZE := by
    rw [← Nat.succ_mul, Nat.succ_eq_add_one, Nat.sub_add_cancel (by omega)]
  omega

/-- If the queue is empty and there is a block, the tail is inside it. -/
theorem Inv.tail_inside (h : Inv e st v l) (hst : v.s < v.t) (heq : v.head = v.tail) :
    v.s = v.t - 1 ∧ v.tail % e.BLOCK_SIZE ≠ 0 := by
  obtain ⟨hlo, hhi⟩ := h.tail_in_last hst
  have hold := h.oldest.2
  have hs : v.s = v.t - 1 := by
    by_contra hne
    have hle : v.s * e.BLOCK_SIZE + e.BLOCK_SIZE ≤ (v.t - 1) * e.BLOCK_SIZE := block_le (by omega)
    omega
  rw [← hs] at hlo hhi
  refine ⟨hs, ?_⟩
  rw [show v.tail = v.s * e.BLOCK_SIZE + (v.tail - v.s * e.BLOCK_SIZE) by omega,
    block_mod (by omega)]
  omega

/-- The loop ends in the last block. -/
theorem Inv.visiting_tail (h : Inv e st v l) (hst : v.s < v.t) :
    v.visiting e.BLOCK_SIZE v.tail = v.t - 1 := by
  have hlen := h.len
  by_cases heq : v.head = v.tail
  · rw [← heq, View.visiting_head, ← h.s_eq]
    exact (h.tail_inside hst heq).1
  · obtain ⟨hlo, hhi⟩ := h.tail_in_last hst
    rw [View.visiting_of_lt _ (by omega),
      show v.tail - 1 = (v.t - 1) * e.BLOCK_SIZE + (v.tail - 1 - (v.t - 1) * e.BLOCK_SIZE) by omega,
      block_div (by omega)]

/-- **The destructor** destroys exactly the elements of the list, in order, and gives
every block back. -/
theorem Inv.destroy (h : Inv e st v l) :
    ∃ mem', destroy e st = some (l, mem') ∧ Traffic e (window v.β v.s v.t) ∅ st.mem mem' := by
  have hlen := h.len
  have hlt := h.length_lt
  have hhalf := e.two_pow_bits
  obtain ⟨hnew, hnew'⟩ := h.newest
  obtain ⟨hold, hold'⟩ := h.oldest
  have hstart := v.visiting_head e.BLOCK_SIZE
  rw [← h.s_eq] at hstart
  have hall : Left e st.mem v (v.visiting e.BLOCK_SIZE v.head) v.head l := by
    rw [hstart]
    exact ⟨h.stock.has, h.stock.held⟩
  obtain ⟨mem₁, hloop, hleft, htraffic⟩ :=
    h.destroyElements (2 ^ e.bits + 1) le_rfl hlen hall (by omega)
  rw [if_pos rfl, ← h.headIndex] at hloop
  rw [hstart] at htraffic
  have hguard : st.prod.headIndex = st.prod.tailIndex ∨
      circularLessThan st.prod.headIndex st.prod.tailIndex = true := by
    rw [h.headIndex, h.tailIndex, circularLessThan_ofNat e.bits_pos (by omega) (by omega),
      ofNat_inj (by omega) (by omega)]
    omega
  have hmask : st.prod.tailIndex &&& e.blockMask = 0 ↔ v.tail % e.BLOCK_SIZE = 0 := by
    rw [h.tailIndex]
    exact e.and_blockMask_eq_zero v.tail
  have hsame : st.prod.headIndex = st.prod.tailIndex ↔ v.head = v.tail := by
    rw [h.headIndex, h.tailIndex, ofNat_inj (by omega) (by omega)]
  simp only [Implicit.destroy, if_pos hguard, hloop, Option.bind_eq_bind, Option.bind_some]
  rcases h.stock.le.lt_or_eq with hst | hst
  · -- the last block is still there
    rw [h.visiting_tail hst] at hleft htraffic
    obtain ⟨-, hrelease⟩ := hleft.held.releaseFirst hleft.has (by omega) fun i hi => by
      rw [slotAt, List.getElem?_nil, ite_self]
    rw [Nat.sub_add_cancel h.stock.pos, window_self] at hrelease
    have hforce : st.prod.headIndex ≠ st.prod.tailIndex ∨
      st.prod.tailIndex &&& e.blockMask ≠ 0 := by
      rw [Ne, hsame, Ne, hmask]
      exact (ne_or_eq _ _).imp_right fun heq => (h.tail_inside hst heq).2
    refine ⟨_, ?_, htraffic.trans hrelease⟩
    rw [h.tailBlock hst]
    exact if_pos hforce
  · obtain ⟨-, htail, hhead⟩ := h.of_no_block hst
    have hfree : ¬ (st.prod.headIndex ≠ st.prod.tailIndex ∨
        st.prod.tailIndex &&& e.blockMask ≠ 0) := by
      rw [Ne, hsame, Ne, hmask, htail, hhead, Nat.mul_mod_left]
      simp
    have hnone : window v.β (v.visiting e.BLOCK_SIZE v.tail) v.t = ∅ := by
      rw [htail, ← hhead, hstart, hst, window_self]
    rw [hnone] at htraffic
    refine ⟨mem₁, ?_, htraffic⟩
    cases st.prod.tailBlock with
    | none => rfl
    | some tb => exact if_neg hfree

end ConcurrentQueue.Implicit
