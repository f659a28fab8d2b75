import ConcurrentQueue.BlockWalk

/-!
# ConcurrentQueue.Held

**A producer's blocks, seen from outside time.** Indices are unbounded naturals
here; the block with number `q` holds the indices `q * BLOCK_SIZE` up to
`(q + 1) * BLOCK_SIZE`. A producer holds the blocks of a window `s ≤ q < t` of
numbers.

`Held` says what is in memory: which block has which number (`β`), the link of
each block (`ν`), the object at each index (`f`) and the number of slots marked
empty in each block (`g`). Every operation on a block is one update of `f` or of
`g`, and the loops over elements are proved for both kinds of producers here.
-/

namespace ConcurrentQueue

open Function Wrap

variable {α : Type}

/-! ### Objects by index -/

/-- The object at index `n` when the list `l` starts at index `lo`. -/
def slotAt (lo : Nat) (l : List α) (n : Nat) : Option α :=
  if lo ≤ n then l[n - lo]? else none

theorem slotAt_of_lt {lo n : Nat} {l : List α} (h : n < lo) : slotAt lo l n = none :=
  if_neg (by omega)

theorem slotAt_of_ge {lo n : Nat} {l : List α} (h : lo + l.length ≤ n) :
    slotAt lo l n = none := by
  rw [slotAt, if_pos (by omega), List.getElem?_eq_none (by omega)]

theorem slotAt_head {lo : Nat} {l : List α} (x : α) : slotAt lo (x :: l) lo = some x := by
  simp [slotAt]

/-- Constructing one object behind the last one. -/
theorem update_slotAt_append {lo n : Nat} {l : List α} (hn : lo + l.length = n) (x : α) :
    update (slotAt lo l) n (some x) = slotAt lo (l ++ [x]) := by
  funext i
  subst hn
  by_cases hi : i = lo + l.length
  · subst hi
    simp [slotAt]
  · rw [update_of_ne hi]
    unfold slotAt
    by_cases hlo : lo ≤ i
    · rw [if_pos hlo, if_pos hlo, List.getElem?_append]
      split
      · rfl
      · rw [List.getElem?_eq_none (by omega), List.getElem?_eq_none (by simp; omega)]
    · rw [if_neg hlo, if_neg hlo]

/-- Destroying the first object. -/
theorem update_slotAt_tail {lo : Nat} {l : List α} (x : α) :
    update (slotAt lo (x :: l)) lo none = slotAt (lo + 1) l := by
  funext i
  by_cases hi : i = lo
  · subst hi
    rw [update_self, slotAt_of_lt (by omega)]
  · rw [update_of_ne hi]
    unfold slotAt
    by_cases hlo : lo + 1 ≤ i
    · rw [if_pos hlo, if_pos (by omega), show i - lo = i - (lo + 1) + 1 by omega,
        List.getElem?_cons_succ]
    · rw [if_neg hlo, if_neg (by omega)]

/-- Slots marked empty in block `q` when everything below index `head` is. -/
def marked (B head q : Nat) : Nat := min B (head - q * B)

theorem marked_le (B head q : Nat) : marked B head q ≤ B := Nat.min_le_left ..

theorem marked_eq_iff {B head q : Nat} (hB : 0 < B) : marked B head q = B ↔ q * B + B ≤ head := by
  unfold marked
  omega

theorem marked_eq_zero {B head q : Nat} (h : head ≤ q * B) : marked B head q = 0 := by
  unfold marked
  omega

/-! ### Objects gone -/

/-- The objects left when those at the `n` indices from `i` on are gone. -/
def cleared (f : Nat → Option α) (i n j : Nat) : Option α :=
  if i ≤ j ∧ j < i + n then none else f j

variable {f : Nat → Option α}

theorem cleared_zero (i : Nat) : cleared f i 0 = f := by
  funext j
  exact if_neg (by omega)

theorem cleared_update (i n : Nat) :
    cleared (update f i none) (i + 1) n = cleared f i (n + 1) := by
  funext j
  unfold cleared
  by_cases hj : j = i
  · rw [hj, if_neg (by omega), if_pos (by omega), update_self]
  · rw [update_of_ne hj]
    exact if_congr (by omega) rfl rfl

theorem cleared_cleared (i n m : Nat) :
    cleared (cleared f i n) (i + n) m = cleared f i (n + m) := by
  funext j
  unfold cleared
  by_cases hj : i + n ≤ j ∧ j < i + n + m
  · rw [if_pos hj, if_pos (by omega)]
  · rw [if_neg hj]
    exact if_congr (by omega) rfl rfl

theorem cleared_of_ge {i n j : Nat} (h : i + n ≤ j) : cleared f i n j = f j := if_neg (by omega)

/-- Taking the first `n` objects away. -/
theorem cleared_slotAt_drop (head n : Nat) (l : List α) :
    cleared (slotAt head l) head n = slotAt (head + n) (l.drop n) := by
  funext j
  unfold cleared slotAt
  by_cases hj : head + n ≤ j
  · rw [if_neg (by omega), if_pos (by omega), if_pos hj, List.getElem?_drop]
    congr 1
    omega
  · rw [if_neg hj]
    split
    · rfl
    · exact if_neg (by omega)

/-- Taking the last objects away. -/
theorem cleared_slotAt_append (head : Nat) (l xs : List α) :
    cleared (slotAt head (l ++ xs)) (head + l.length) xs.length = slotAt head l := by
  funext j
  unfold cleared slotAt
  by_cases hlo : head ≤ j
  · rw [if_pos hlo, if_pos hlo, List.getElem?_append]
    split
    · rw [List.getElem?_eq_none (by omega)]
    · split
      · rfl
      · rw [List.getElem?_eq_none (by omega), List.getElem?_eq_none (by omega)]
  · rw [if_neg hlo, if_neg hlo, ite_self]

/-- Marking the slots from `head` on, within block `q`. -/
theorem update_marked {B head q n : Nat} (hlo : q * B ≤ head) (hhi : head + n ≤ q * B + B) :
    update (marked B head) q (marked B head q + n) = marked B (head + n) := by
  funext r
  unfold marked
  by_cases hr : r = q
  · rw [hr, update_self]
    omega
  · rw [update_of_ne hr]
    rcases Nat.lt_or_gt_of_ne hr with hlt | hgt
    · have := block_le (B := B) hlt
      omega
    · have := block_le (B := B) hgt
      omega

/-- The first slot of block `q` that is not marked. -/
theorem marked_eq_mod {B head q : Nat} (hlo : q * B ≤ head) (hhi : head < q * B + B) :
    head % B = marked B head q := by
  obtain ⟨d, rfl⟩ := Nat.exists_eq_add_of_le hlo
  rw [block_mod (by omega), marked]
  omega

/-! ### Where a loop stops in a block -/

/-- Within half the index range, the stop index is the smaller of `last` and the
end of the block. -/
theorem stopIndex_ofNat {e : Env} (hB : e.BLOCK_SIZE < 2 ^ (e.bits - 1)) {q i last : Nat}
    (hdiv : i / e.BLOCK_SIZE = q) (hi : i ≤ last)
    (hlast : last ≤ q * e.BLOCK_SIZE + e.BLOCK_SIZE + 2 ^ (e.bits - 1)) :
    stopIndex e (BitVec.ofNat e.bits i) (BitVec.ofNat e.bits last) =
      BitVec.ofNat e.bits (min last (q * e.BLOCK_SIZE + e.BLOCK_SIZE)) := by
  have hhalf := e.two_pow_bits
  have hqi : q * e.BLOCK_SIZE ≤ i := by
    rw [← hdiv]
    exact Nat.div_mul_le_self ..
  simp only [stopIndex, Traits.blockBase_ofNat, hdiv, Traits.blockSize, BitVec.ofNat_add_ofNat]
  by_cases hlt : last < q * e.BLOCK_SIZE + e.BLOCK_SIZE
  · rw [if_pos, Nat.min_eq_left hlt.le]
    exact (circularLessThan_ofNat e.bits_pos hlt.le (by omega)).mpr ⟨hlt, by omega⟩
  · rw [if_neg, Nat.min_eq_right (by omega)]
    rw [circularLessThan_ofNat_of_le e.bits_pos (by omega) (by omega)]
    exact Bool.false_ne_true

section Loops

variable {e : Env} {S t q last : Nat} (hB : e.BLOCK_SIZE < 2 ^ (e.bits - 1))
  (hspan : (t - S) * e.BLOCK_SIZE ≤ 2 ^ (e.bits - 1)) (hlast : last ≤ t * e.BLOCK_SIZE)
include hB hspan hlast

/-- Where a loop stops in block `q`. -/
theorem stop_in_block {i : Nat} (hS : S ≤ q) (hdiv : i / e.BLOCK_SIZE = q) (hi : i ≤ last) :
    stopIndex e (BitVec.ofNat e.bits i) (BitVec.ofNat e.bits last) =
      BitVec.ofNat e.bits (min last (q * e.BLOCK_SIZE + e.BLOCK_SIZE)) := by
  refine stopIndex_ofNat hB hdiv hi ?_
  have hmul : q * e.BLOCK_SIZE = (q - S) * e.BLOCK_SIZE + S * e.BLOCK_SIZE := by
    rw [← Nat.add_mul, Nat.sub_add_cancel hS]
  rw [Nat.sub_mul] at hspan
  omega

omit hB in
/-- Whether a loop has come to the end. -/
theorem done_iff {i : Nat} (hS : S ≤ q) (hlo : q * e.BLOCK_SIZE ≤ i) (hi : i ≤ last) :
    BitVec.ofNat e.bits i = BitVec.ofNat e.bits last ↔ i = last := by
  have hhalf := e.two_pow_bits
  have hpos := Nat.two_pow_pos (e.bits - 1)
  have hmul : S * e.BLOCK_SIZE ≤ q * e.BLOCK_SIZE := Nat.mul_le_mul_right _ hS
  rw [Nat.sub_mul] at hspan
  exact ofNat_inj hi (by omega)

variable {σ : Type} {W : Walk e α σ} (slot : Nat → BitVec e.bits)
  {P : Nat → Nat → List α → σ → Prop}
  (hround : ∀ {q i n l s}, P q i l s → S ≤ q → q < t → q * e.BLOCK_SIZE ≤ i →
    i < q * e.BLOCK_SIZE + e.BLOCK_SIZE → i + n ≤ q * e.BLOCK_SIZE + e.BLOCK_SIZE →
    n ≤ l.length → ∃ b mem s', W.block (slot q) s = some b ∧
      destroyRange e b n (BitVec.ofNat e.bits i) (W.mem s) = some (l.take n, mem) ∧
      W.markMany (slot q) b (BitVec.ofNat e.bits i) (BitVec.ofNat e.bits (i + n))
        (W.setMem mem s) = some s' ∧ P ((i + n) / e.BLOCK_SIZE) (i + n) (l.drop n) s')
  (hnext : ∀ {q i l s}, P (q + 1) i l s → q + 1 < t →
    W.nextSlot (slot q) s = some (slot (q + 1)))
include hround hnext

/-- A bulk dequeue that does not throw, from what it does in each block. In `P q i l s` the
loop is at index `i` in block `q`, where the elements `l` start. -/
theorem drainBlocks_of_round (fuel : Nat) {i k : Nat} {l : List α} {s : σ} (h : P q i l s)
    (hS : S ≤ q) (hqt : q < t) (hdiv : i / e.BLOCK_SIZE = q) (hi : i ≤ last)
    (hl : last ≤ i + l.length) (hfuel : t ≤ q + fuel) :
    ∃ s', W.drainBlocks none (BitVec.ofNat e.bits last) fuel (slot q) (BitVec.ofNat e.bits i) k s =
        some (l.take (last - i), s', false) ∧
      P (last / e.BLOCK_SIZE) last (l.drop (last - i)) s' := by
  induction fuel generalizing q i k l s with
  | zero => omega
  | succ fuel ih =>
      have hpos := e.BLOCK_SIZE_pos
      have hadd := block_add e.BLOCK_SIZE i
      have hmod := Nat.mod_lt i hpos
      rw [hdiv] at hadd
      have hBlt := e.BLOCK_SIZE_lt
      have hend := stop_in_block hB hspan hlast hS hdiv hi
      obtain ⟨n, hn⟩ : ∃ n, min last (q * e.BLOCK_SIZE + e.BLOCK_SIZE) = i + n :=
        Nat.exists_eq_add_of_le (by omega)
      rw [hn] at hend
      obtain ⟨b, mem, s₁, hblock, hdestroy, hmark, h₁⟩ :=
        hround h hS hqt (by omega) (by omega) (by omega) (by omega : n ≤ l.length)
      have hcount : (BitVec.ofNat e.bits (i + n) - BitVec.ofNat e.bits i).toNat = n := by
        rw [toNat_ofNat_sub (by omega) (by omega), Nat.add_sub_cancel_left]
      have hdone := done_iff hspan hlast hS (by omega : q * e.BLOCK_SIZE ≤ i + n) (by omega)
      rw [Walk.drainBlocks_succ hblock (by rwa [hend, hcount]) (by rwa [hend]), hend]
      by_cases hfin : i + n = last
      · rw [if_pos (hdone.mpr hfin), ← hfin, Nat.add_sub_cancel_left]
        exact ⟨s₁, rfl, h₁⟩
      · have hdiv' : (i + n) / e.BLOCK_SIZE = q + 1 := by
          rw [show i + n = (q + 1) * e.BLOCK_SIZE by rw [Nat.succ_mul]; omega,
            Nat.mul_div_cancel _ hpos]
        have hmore : q + 1 < t := Nat.lt_of_mul_lt_mul_right (show
          (q + 1) * e.BLOCK_SIZE < t * e.BLOCK_SIZE by rw [Nat.succ_mul]; omega)
        rw [hdiv'] at h₁
        obtain ⟨s', hloop, h'⟩ := ih (k := k + (l.take n).length) h₁ (by omega) hmore hdiv'
          (by omega) (by rw [List.length_drop]; omega) (by omega)
        have hsplit : last - i = n + (last - (i + n)) := by omega
        rw [List.drop_drop, ← hsplit] at h'
        rw [if_neg (mt hdone.mp hfin), hnext h₁ hmore, Option.bind_some, hloop, Option.map_some]
        exact ⟨s', by rw [hsplit, List.take_add], h'⟩

end Loops

/-! ### The blocks a producer holds -/

structure Held (e : Env) (ctx : InnerQueueContext) (mem : Mem α) (β : Nat → Nat) (s t : Nat)
    (ν : Nat → Option Nat) (f : Nat → Option α) (g : Nat → Nat) : Prop where
  wellFormed : mem.WellFormed e
  inj : ∀ q q', s ≤ q → q < t → s ≤ q' → q' < t → β q = β q' → q = q'
  used : ∀ q, s ≤ q → q < t → ¬ mem.Free e (β q)
  link : ∀ q, s ≤ q → q < t → (mem.blocks (β q)).next = ν q
  slot : ∀ q i, s ≤ q → q < t → i < e.BLOCK_SIZE →
    (mem.blocks (β q)).elements i = f (q * e.BLOCK_SIZE + i)
  mark : ∀ q, s ≤ q → q < t → Block.Marked e.toTraits ctx (mem.blocks (β q)) (g q)

variable {e : Env} {ctx : InnerQueueContext} {mem : Mem α} {β : Nat → Nat} {s t : Nat}
  {ν : Nat → Option Nat} {f : Nat → Option α} {g : Nat → Nat}

namespace Held

theorem congr (h : Held e ctx mem β s t ν f g) {f' : Nat → Option α} {g' : Nat → Nat}
    (hf : ∀ q i, s ≤ q → q < t → i < e.BLOCK_SIZE →
      f' (q * e.BLOCK_SIZE + i) = f (q * e.BLOCK_SIZE + i))
    (hg : ∀ q, s ≤ q → q < t → g' q = g q) : Held e ctx mem β s t ν f' g' :=
  { h with
    slot := fun q i hs ht hi => by
      rw [hf q i hs ht hi]
      exact h.slot q i hs ht hi
    mark := fun q hs ht => by
      rw [hg q hs ht]
      exact h.mark q hs ht }

theorem isEmpty (h : Held e ctx mem β s t ν f g) {q : Nat} (hs : s ≤ q) (ht : q < t)
    (hg : g q ≤ e.BLOCK_SIZE) :
    (mem.blocks (β q)).isEmpty e.toTraits ctx = some (decide (g q = e.BLOCK_SIZE)) :=
  (h.mark q hs ht).isEmpty hg

/-- What is said only concerns the blocks held. -/
theorem frame (h : Held e ctx mem β s t ν f g) {mem' : Mem α} (hwf : mem'.WellFormed e)
    (hfree : ∀ q, s ≤ q → q < t → ¬ mem'.Free e (β q))
    (hblocks : ∀ q, s ≤ q → q < t → mem'.blocks (β q) = mem.blocks (β q)) :
    Held e ctx mem' β s t ν f g where
  wellFormed := hwf
  inj := h.inj
  used := hfree
  link q hs ht := by
    rw [hblocks q hs ht]
    exact h.link q hs ht
  slot q i hs ht hi := by
    rw [hblocks q hs ht]
    exact h.slot q i hs ht hi
  mark q hs ht := by
    rw [hblocks q hs ht]
    exact h.mark q hs ht

/-- The count of `malloc` calls is nobody's concern. -/
theorem setMallocs (h : Held e ctx mem β s t ν f g) (n : Nat) :
    Held e ctx { mem with mallocs := n } β s t ν f g :=
  h.frame ⟨h.wellFormed.nodup, h.wellFormed.listed, h.wellFormed.vacant⟩ h.used
    fun _ _ _ => rfl

/-! ### Changing one block -/

/-- Replace the block with number `q₀` by one with the same link. -/
theorem set (h : Held e ctx mem β s t ν f g) {q₀ : Nat} (hs : s ≤ q₀) (ht : q₀ < t) {b : Block α}
    (hnext : b.next = (mem.blocks (β q₀)).next) {f' : Nat → Option α} {g' : Nat → Nat}
    (hslot : ∀ i < e.BLOCK_SIZE, b.elements i = f' (q₀ * e.BLOCK_SIZE + i))
    (hslots : ∀ q i, q ≠ q₀ → i < e.BLOCK_SIZE →
      f' (q * e.BLOCK_SIZE + i) = f (q * e.BLOCK_SIZE + i))
    (hmark : Block.Marked e.toTraits ctx b (g' q₀))
    (hmarks : ∀ q, q ≠ q₀ → g' q = g q) :
    Held e ctx (mem.setBlock (β q₀) b) β s t ν f' g' := by
  have hblock : ∀ q, s ≤ q → q < t →
      update mem.blocks (β q₀) b (β q) = if q = q₀ then b else mem.blocks (β q) := by
    intro q hsq hqt
    by_cases hq : q = q₀
    · subst hq
      simp
    · rw [if_neg hq, update_of_ne fun heq => hq (h.inj q q₀ hsq hqt hs ht heq)]
  have hlink : ∀ q, s ≤ q → q < t →
      (update mem.blocks (β q₀) b (β q)).next = (mem.blocks (β q)).next := by
    intro q hsq hqt
    rw [hblock q hsq hqt]
    split
    case isTrue hq => rw [hnext, hq]
    case isFalse => rfl
  refine ⟨h.wellFormed.setBlock (h.used q₀ hs ht) b, h.inj, h.used, ?_, ?_, ?_⟩
  · intro q hsq hqt
    exact (hlink q hsq hqt).trans (h.link q hsq hqt)
  · intro q i hsq hqt hi
    show (update mem.blocks (β q₀) b (β q)).elements i = _
    rw [hblock q hsq hqt]
    split
    case isTrue hq => rw [hslot i hi, hq]
    case isFalse hq => rw [h.slot q i hsq hqt hi, hslots q i hq hi]
  · intro q hsq hqt
    show Block.Marked _ _ (update mem.blocks (β q₀) b (β q)) _
    rw [hblock q hsq hqt]
    split
    case isTrue hq => rwa [hq]
    case isFalse hq =>
        rw [hmarks q hq]
        exact h.mark q hsq hqt

/-- Replace the object at index `n`. -/
theorem setSlot (h : Held e ctx mem β s t ν f g) {n : Nat} (hs : s ≤ n / e.BLOCK_SIZE)
    (ht : n / e.BLOCK_SIZE < t) (x : Option α) :
    Held e ctx (mem.modify (β (n / e.BLOCK_SIZE)) fun b => b.setElement (n % e.BLOCK_SIZE) x)
      β s t ν (update f n x) g := by
  have hn := block_add e.BLOCK_SIZE n
  refine h.set hs ht ?_ (fun i hi => ?_) (fun q i hq hi => ?_) ?_ fun _ _ => rfl
  · rfl
  · show update _ _ _ i = _
    by_cases hin : i = n % e.BLOCK_SIZE
    · rw [hin, update_self, hn, update_self]
    · rw [update_of_ne hin, update_of_ne (by omega)]
      exact h.slot _ i hs ht hi
  · refine update_of_ne (fun heq => hq ?_) ..
    rw [← heq, block_div hi]
  · exact (h.mark _ hs ht).congr rfl rfl

theorem elements_eq (h : Held e ctx mem β s t ν f g) {n : Nat} (hs : s ≤ n / e.BLOCK_SIZE)
    (ht : n / e.BLOCK_SIZE < t) :
    (mem.blocks (β (n / e.BLOCK_SIZE))).elements (n % e.BLOCK_SIZE) = f n := by
  rw [h.slot _ _ hs ht (Nat.mod_lt _ e.BLOCK_SIZE_pos), block_add]

/-- Placement new at a free index. -/
theorem construct (h : Held e ctx mem β s t ν f g) {n : Nat} (hs : s ≤ n / e.BLOCK_SIZE)
    (ht : n / e.BLOCK_SIZE < t) (hn : f n = none) (x : α) :
    ∃ mem', mem.tryModify (β (n / e.BLOCK_SIZE))
        (Block.construct e.toTraits (BitVec.ofNat e.bits n) x) = some mem' ∧
      Held e ctx mem' β s t ν (update f n (some x)) g := by
  refine ⟨_, ?_, h.setSlot hs ht (some x)⟩
  have hfree := (h.elements_eq hs ht).trans hn
  simp only [Mem.tryModify, Block.construct, Traits.offset_ofNat, hfree, Option.map_some]
  rfl

/-- Destroying the object at index `n`. -/
theorem destroyAt (h : Held e ctx mem β s t ν f g) {n : Nat} (hs : s ≤ n / e.BLOCK_SIZE)
    (ht : n / e.BLOCK_SIZE < t) {x : α} (hn : f n = some x) :
    ∃ b, (mem.blocks (β (n / e.BLOCK_SIZE))).destroyAt e.toTraits (BitVec.ofNat e.bits n) =
        some (x, b) ∧
      Held e ctx (mem.setBlock (β (n / e.BLOCK_SIZE)) b) β s t ν (update f n none) g ∧
      b.emptyFlags = (mem.blocks (β (n / e.BLOCK_SIZE))).emptyFlags ∧
      b.elementsCompletelyDequeued =
        (mem.blocks (β (n / e.BLOCK_SIZE))).elementsCompletelyDequeued := by
  refine ⟨_, ?_, h.setSlot hs ht none, rfl, rfl⟩
  have hlive := (h.elements_eq hs ht).trans hn
  simp only [Block.destroyAt, Traits.offset_ofNat, hlive]

/-- Resetting the marks of block `q`. -/
theorem reset (h : Held e ctx mem β s t ν f g) {q : Nat} (hs : s ≤ q) (ht : q < t) :
    Held e ctx (mem.modify (β q) (Block.resetEmpty e.toTraits ctx)) β s t ν f
      (update g q 0) := by
  refine h.set hs ht (Block.next_resetEmpty _) (fun i hi => ?_) (fun _ _ _ _ => rfl) ?_ ?_
  · rw [Block.elements_resetEmpty]
    exact h.slot q i hs ht hi
  · rw [update_self]
    exact Block.marked_resetEmpty _
  · intro q' hq'
    exact update_of_ne hq' ..

/-- Other marks for block `q`, all else being as it was. -/
theorem setMarks (h : Held e ctx mem β s t ν f g) {q m : Nat} (hs : s ≤ q) (ht : q < t)
    {flags : Nat → Bool} {n : Nat}
    (hmark : Block.Marked e.toTraits ctx { mem.blocks (β q) with
      emptyFlags := flags, elementsCompletelyDequeued := n } m) :
    Held e ctx (mem.setBlock (β q) { mem.blocks (β q) with
      emptyFlags := flags, elementsCompletelyDequeued := n }) β s t ν f
        (update g q m) := by
  refine h.set hs ht ?_ (fun i hi => h.slot q i hs ht hi) (fun _ _ _ _ => rfl) ?_ ?_
  · rfl
  · rwa [update_self]
  · intro q' hq'
    exact update_of_ne hq' ..

/-- Another link for block `q`. -/
theorem setNext (h : Held e ctx mem β s t ν f g) {q : Nat} (hs : s ≤ q) (ht : q < t)
    (x : Option Nat) :
    Held e ctx (mem.modify (β q) fun b => { b with next := x }) β s t (update ν q x)
      f g := by
  have hsame : ∀ r, s ≤ r → r < t → r ≠ q →
      update mem.blocks (β q) { mem.blocks (β q) with next := x } (β r) =
        mem.blocks (β r) := fun r hsr hrt hrq =>
    update_of_ne (fun heq => hrq (h.inj r q hsr hrt hs ht heq)) ..
  refine ⟨h.wellFormed.setBlock (h.used q hs ht) _, h.inj, h.used, ?_, ?_, ?_⟩
  · intro r hsr hrt
    show (update mem.blocks (β q) _ (β r)).next = _
    by_cases hrq : r = q
    · rw [hrq, update_self, update_self]
    · rw [hsame r hsr hrt hrq, update_of_ne hrq]
      exact h.link r hsr hrt
  · intro r i hsr hrt hi
    show (update mem.blocks (β q) _ (β r)).elements i = _
    by_cases hrq : r = q
    · rw [hrq, update_self]
      exact h.slot q i hs ht hi
    · rw [hsame r hsr hrt hrq]
      exact h.slot r i hsr hrt hi
  · intro r hsr hrt
    show Block.Marked _ _ (update mem.blocks (β q) _ (β r)) _
    by_cases hrq : r = q
    · rw [hrq, update_self]
      exact (h.mark q hs ht).congr rfl rfl
    · rw [hsame r hsr hrt hrq]
      exact h.mark r hsr hrt

/-- Marking the next slot of block `q`. -/
theorem setEmpty (h : Held e ctx mem β s t ν f g) {q : Nat} (hs : s ≤ q) (ht : q < t)
    {i : BitVec e.bits} (hi : e.offset i = g q) (hg : g q < e.BLOCK_SIZE) :
    ∃ b full, (mem.blocks (β q)).setEmpty e.toTraits ctx i = some (b, full) ∧
      Held e ctx (mem.setBlock (β q) b) β s t ν f (update g q (g q + 1)) ∧
      (full = true ↔ Block.usesFlags e.toTraits ctx = false ∧ g q + 1 = e.BLOCK_SIZE) := by
  obtain ⟨flags, n, full, hset, hmark, hfull⟩ := (h.mark q hs ht).setEmpty hi hg
  exact ⟨_, full, hset, h.setMarks hs ht hmark, hfull⟩

/-- Marking the next slots of block `q`. -/
theorem setManyEmpty (h : Held e ctx mem β s t ν f g) {q : Nat} (count : Nat) (hs : s ≤ q)
    (ht : q < t) {i : BitVec e.bits} (hi : e.offset i = g q) (hg : g q + count ≤ e.BLOCK_SIZE) :
    ∃ b full, (mem.blocks (β q)).setManyEmpty e.toTraits ctx i count = some (b, full) ∧
      Held e ctx (mem.setBlock (β q) b) β s t ν f (update g q (g q + count)) ∧
      (full = true ↔ Block.usesFlags e.toTraits ctx = false ∧ g q + count = e.BLOCK_SIZE) := by
  obtain ⟨flags, n, full, hset, hmark, hfull⟩ := (h.mark q hs ht).setManyEmpty hi hg
  exact ⟨_, full, hset, h.setMarks hs ht hmark, hfull⟩

/-! ### Constructing -/

/-- Placement new behind the last object. -/
theorem constructAt {head n : Nat} {l : List α} (h : Held e ctx mem β s t ν (slotAt head l) g)
    (hlen : head + l.length = n) (hs : s ≤ n / e.BLOCK_SIZE) (ht : n / e.BLOCK_SIZE < t) (x : α) :
    ∃ mem', constructAt e (some (β (n / e.BLOCK_SIZE))) (BitVec.ofNat e.bits n) x mem =
        some mem' ∧
      Held e ctx mem' β s t ν (slotAt head (l ++ [x])) g := by
  obtain ⟨mem', hmem, hheld⟩ := h.construct hs ht (slotAt_of_ge hlen.le) x
  exact ⟨mem', hmem, by rwa [update_slotAt_append hlen] at hheld⟩

/-- Filling one block with the first `m` of `xs`: all `n` that go there, or those
before the one whose constructor throws. -/
theorem fillBlock {head q : Nat} {ctor : Ctor} (hs : s ≤ q) (ht : q < t) {n m i k : Nat}
    {l xs : List α} (h : Held e ctx mem β s t ν (slotAt head l) g)
    (hlen : head + l.length = i) (hlo : q * e.BLOCK_SIZE ≤ i)
    (hhi : i + n ≤ q * e.BLOCK_SIZE + e.BLOCK_SIZE) (hxs : n ≤ xs.length) (hm : m ≤ n)
    (hquiet : ∀ j < m, ctor.throws (k + j) = false)
    (hstop : m = n ∨ ctor.throws (k + m) = true) :
    ∃ mem', fillBlock e ctor (some (β q)) n (BitVec.ofNat e.bits i) k xs mem =
        some (BitVec.ofNat e.bits (i + m), k + m, xs.drop m, mem', decide (m < n)) ∧
      Held e ctx mem' β s t ν (slotAt head (l ++ xs.take m)) g := by
  induction n generalizing m i k l xs mem with
  | zero =>
      obtain rfl : m = 0 := by omega
      exact ⟨mem, rfl, by simpa using h⟩
  | succ n ih =>
      obtain ⟨x, xs, rfl⟩ := List.exists_cons_of_length_pos (by omega : 0 < xs.length)
      cases m with
      | zero =>
          have hthrow := hstop.resolve_left (by omega)
          refine ⟨mem, ?_, by simpa using h⟩
          rw [Nat.add_zero] at hthrow
          rw [ConcurrentQueue.fillBlock, if_pos hthrow]
          rfl
      | succ m =>
          have hno := hquiet 0 (by omega)
          rw [Nat.add_zero] at hno
          have hdiv : i / e.BLOCK_SIZE = q := by
            rw [show i = q * e.BLOCK_SIZE + (i - q * e.BLOCK_SIZE) by omega,
              block_div (by omega)]
          obtain ⟨mem₁, hcons, h₁⟩ := h.constructAt hlen (by omega) (by omega) x
          rw [hdiv] at hcons
          obtain ⟨mem', hfill, h'⟩ := @ih mem₁ m (i + 1) (k + 1) (l ++ [x]) xs h₁
            (by simp; omega) (by omega) (by omega) (by simpa using hxs) (by omega)
            (fun j hj => by
              rw [Nat.add_assoc, Nat.add_comm 1]
              exact hquiet (j + 1) (by omega))
            (hstop.imp (by omega) fun hthrow => by rwa [Nat.add_assoc, Nat.add_comm 1])
          refine ⟨mem', ?_, by simpa using h'⟩
          rw [ConcurrentQueue.fillBlock, hno]
          simp only [Bool.false_eq_true, if_false, hcons, Option.bind_eq_bind, Option.bind_some,
            BitVec.ofNat_add_ofNat, hfill]
          simp only [List.drop_succ_cons, Nat.add_lt_add_iff_right, Nat.add_assoc,
            Nat.add_comm 1]

/-- Filling the blocks up to the last one held with the first `m` of `xs`: all of
them, or those before the one whose constructor throws. -/
theorem fillBlocks {head : Nat} {ctor : Ctor} (hB : e.BLOCK_SIZE < 2 ^ (e.bits - 1))
    (hspan : (t - s) * e.BLOCK_SIZE ≤ 2 ^ (e.bits - 1)) {last : Nat}
    (hge : (t - 1) * e.BLOCK_SIZE ≤ last) (hle : last ≤ t * e.BLOCK_SIZE) (fuel : Nat)
    {q i k m : Nat} {l xs : List α} (h : Held e ctx mem β s t ν (slotAt head l) g)
    (hν : ∀ r, q ≤ r → r + 1 < t → ν r = some (β (r + 1)))
    (hlen : head + l.length = i) (hs : s ≤ q) (ht : q < t) (hdiv : i / e.BLOCK_SIZE = q)
    (hlast : i + xs.length = last) (hm : m ≤ xs.length)
    (hquiet : ∀ j < m, ctor.throws (k + j) = false)
    (hstop : m = xs.length ∨ ctor.throws (k + m) = true) (hfuel : t ≤ q + fuel) :
    ∃ mem', fillBlocks e ctor (BitVec.ofNat e.bits last) (some (β (t - 1))) fuel (some (β q))
        (BitVec.ofNat e.bits i) k xs mem =
        some (BitVec.ofNat e.bits (i + m),
          some (β (if m < xs.length then (i + m) / e.BLOCK_SIZE else t - 1)), mem',
          decide (m < xs.length)) ∧
      Held e ctx mem' β s t ν (slotAt head (l ++ xs.take m)) g := by
  induction fuel generalizing q i k m l xs mem with
  | zero => omega
  | succ fuel ih =>
      have hpos := e.BLOCK_SIZE_pos
      have hadd := block_add e.BLOCK_SIZE i
      have hmod := Nat.mod_lt i hpos
      rw [hdiv] at hadd
      have hhalf := e.two_pow_bits
      have hend := stopIndex_ofNat hB hdiv (by omega : i ≤ last) (by
        have hmul : q * e.BLOCK_SIZE = (q - s) * e.BLOCK_SIZE + s * e.BLOCK_SIZE := by
          rw [← Nat.add_mul, Nat.sub_add_cancel hs]
        rw [Nat.sub_mul] at hspan
        omega)
      obtain ⟨n, hn⟩ : ∃ n, min last (q * e.BLOCK_SIZE + e.BLOCK_SIZE) = i + n :=
        Nat.exists_eq_add_of_le (by omega)
      have hcount : (BitVec.ofNat e.bits (i + n) - BitVec.ofNat e.bits i).toNat = n := by
        rw [toNat_ofNat_sub (by omega) (by omega), Nat.add_sub_cancel_left]
      rw [ConcurrentQueue.fillBlocks, hend, hn, hcount]
      by_cases hmn : m < n
      · -- the constructor throws in this block
        obtain ⟨mem', hfill, h'⟩ := h.fillBlock (n := n) hs ht hlen (by omega) (by omega)
          (by omega : n ≤ xs.length) hmn.le hquiet (.inr (hstop.resolve_left (by omega)))
        have hblock : (i + m) / e.BLOCK_SIZE = q := by
          rw [show i + m = q * e.BLOCK_SIZE + (i + m - q * e.BLOCK_SIZE) by omega,
            block_div (by omega)]
        refine ⟨mem', ?_, h'⟩
        rw [hfill, if_pos (by omega), hblock, decide_eq_true hmn,
          decide_eq_true (show m < xs.length by omega)]
        simp
      · obtain ⟨mem₁, hfill, h₁⟩ := h.fillBlock (m := n) (k := k) hs ht hlen (by omega)
          (by omega) (by omega : n ≤ xs.length) le_rfl (fun j hj => hquiet j (by omega)) (.inl rfl)
        rw [hfill]
        simp only [Option.bind_eq_bind, Option.bind_some, lt_irrefl, decide_false,
          Bool.false_eq_true, if_false]
        by_cases hq : q = t - 1
        · have htop : q * e.BLOCK_SIZE + e.BLOCK_SIZE = t * e.BLOCK_SIZE := by
            rw [← Nat.succ_mul, hq, Nat.succ_eq_add_one, Nat.sub_add_cancel (by omega)]
          obtain rfl : n = xs.length := by omega
          obtain rfl : m = xs.length := by omega
          refine ⟨mem₁, ?_, h₁⟩
          rw [if_pos (by rw [hq]), hlast, if_pos rfl, if_neg (by omega), hq]
          simp
        · have htop : q * e.BLOCK_SIZE + e.BLOCK_SIZE ≤ (t - 1) * e.BLOCK_SIZE :=
            block_le (by omega)
          have hne : some (β q) ≠ some (β (t - 1)) := fun heq =>
            hq (h.inj q (t - 1) hs ht (by omega) (by omega) (Option.some.inj heq))
          have hdrop : (xs.drop n).length = xs.length - n := List.length_drop
          obtain ⟨d, rfl⟩ : ∃ d, m = n + d := Nat.exists_eq_add_of_le (by omega)
          obtain ⟨mem', hloop, h'⟩ := @ih mem₁ (q + 1) (i + n) (k + n) d _ (xs.drop n) h₁
            (fun r hr => hν r (by omega)) (by simp; omega) (by omega) (by omega) (by
              rw [show i + n = q * e.BLOCK_SIZE + e.BLOCK_SIZE by omega, ← Nat.succ_mul,
                Nat.mul_div_cancel _ hpos]) (by omega) (by omega)
            (fun j hj => by
              rw [Nat.add_assoc]
              exact hquiet (n + j) (by omega))
            (hstop.imp (by omega) fun hthrow => by rwa [Nat.add_assoc]) (by omega)
          refine ⟨mem', ?_, by simpa [List.take_add] using h'⟩
          rw [if_neg hne, h₁.link q hs ht, hν q le_rfl (by omega), hloop, hdrop, Nat.add_assoc]
          simp only [show d < xs.length - n ↔ n + d < xs.length by omega]

/-! ### Destroying -/

theorem destroyRange {q : Nat} (hs : s ≤ q) (ht : q < t) {i : Nat} (xs : List α)
    (h : Held e ctx mem β s t ν f g) (hlo : q * e.BLOCK_SIZE ≤ i)
    (hhi : i + xs.length ≤ q * e.BLOCK_SIZE + e.BLOCK_SIZE)
    (hf : ∀ j < xs.length, f (i + j) = xs[j]?) :
    ∃ mem', destroyRange e (β q) xs.length (BitVec.ofNat e.bits i) mem = some (xs, mem') ∧
      Held e ctx mem' β s t ν (cleared f i xs.length) g := by
  induction xs generalizing i mem f with
  | nil => exact ⟨mem, rfl, by rwa [List.length_nil, cleared_zero]⟩
  | cons x xs ih =>
      rw [List.length_cons] at hhi
      have hdiv : i / e.BLOCK_SIZE = q := by
        rw [show i = q * e.BLOCK_SIZE + (i - q * e.BLOCK_SIZE) by omega, block_div (by omega)]
      have hfirst : f i = some x := hf 0 (Nat.succ_pos _)
      obtain ⟨b, hb, h₁, -, -⟩ := h.destroyAt (by omega) (by omega) hfirst
      rw [hdiv] at hb h₁
      obtain ⟨mem', hloop, h'⟩ := ih h₁ (i := i + 1) (by omega) (by omega) fun j hj => by
        rw [update_of_ne (by omega), Nat.add_assoc, Nat.add_comm 1,
          hf (j + 1) (Nat.succ_lt_succ hj), List.getElem?_cons_succ]
      rw [cleared_update] at h'
      refine ⟨mem', ?_, h'⟩
      simp only [ConcurrentQueue.destroyRange, List.length_cons, hb, Option.bind_eq_bind,
        Option.bind_some, BitVec.ofNat_add_ofNat, hloop]

/-- The first `n` of the elements `l` that start at index `i`. -/
theorem destroyFront {q i n : Nat} {l : List α} (hs : s ≤ q) (ht : q < t)
    (h : Held e ctx mem β s t ν (slotAt i l) g) (hlo : q * e.BLOCK_SIZE ≤ i)
    (hhi : i + n ≤ q * e.BLOCK_SIZE + e.BLOCK_SIZE) (hl : n ≤ l.length) :
    ∃ mem', ConcurrentQueue.destroyRange e (β q) n (BitVec.ofNat e.bits i) mem =
        some (l.take n, mem') ∧ Held e ctx mem' β s t ν (slotAt (i + n) (l.drop n)) g := by
  have htake : (l.take n).length = n := by
    rw [List.length_take]
    omega
  obtain ⟨mem', hdestroy, h'⟩ := h.destroyRange hs ht (l.take n) hlo (by omega) fun j hj => by
    rw [slotAt, if_pos (by omega), List.getElem?_take_of_lt (by omega)]
    congr 1
    omega
  rw [htake] at hdestroy h'
  rw [cleared_slotAt_drop] at h'
  exact ⟨mem', hdestroy, h'⟩

/-- The catch block's loop destroys the `m` objects that start at index `i` in
block `q`. -/
theorem undoBlocks (hB : e.BLOCK_SIZE < 2 ^ (e.bits - 1))
    (hspan : (t - s) * e.BLOCK_SIZE ≤ 2 ^ (e.bits - 1)) {stop : Nat}
    (hlast : stop / e.BLOCK_SIZE < t) (fuel : Nat) {q i : Nat} {xs : List α}
    (h : Held e ctx mem β s t ν f g) (hν : ∀ r, q ≤ r → r + 1 < t → ν r = some (β (r + 1)))
    (hs : s ≤ q) (hdiv : i / e.BLOCK_SIZE = q) (hstop : i + xs.length = stop)
    (hf : ∀ j < xs.length, f (i + j) = xs[j]?) (hfuel : t ≤ q + fuel) :
    ∃ mem', undoBlocks e (BitVec.ofNat e.bits stop) (some (β (stop / e.BLOCK_SIZE))) fuel
        (BitVec.ofNat e.bits i) (some (β q)) mem = some mem' ∧
      Held e ctx mem' β s t ν (cleared f i xs.length) g := by
  induction fuel generalizing q i xs mem f with
  | zero =>
      have := Nat.div_le_div_right (c := e.BLOCK_SIZE) (show i ≤ stop by omega)
      omega
  | succ fuel ih =>
      have hpos := e.BLOCK_SIZE_pos
      have hadd := block_add e.BLOCK_SIZE i
      have hmod := Nat.mod_lt i hpos
      have hadd' := block_add e.BLOCK_SIZE stop
      have hmod' := Nat.mod_lt stop hpos
      rw [hdiv] at hadd
      have hhalf := e.two_pow_bits
      have hqt : q ≤ stop / e.BLOCK_SIZE := by
        rw [← hdiv]
        exact Nat.div_le_div_right (by omega)
      have htop : stop / e.BLOCK_SIZE * e.BLOCK_SIZE + e.BLOCK_SIZE ≤ t * e.BLOCK_SIZE :=
        block_le hlast
      have hend := stopIndex_ofNat hB hdiv (by omega : i ≤ stop) (by
        have hmul : q * e.BLOCK_SIZE = (q - s) * e.BLOCK_SIZE + s * e.BLOCK_SIZE := by
          rw [← Nat.add_mul, Nat.sub_add_cancel hs]
        rw [Nat.sub_mul] at hspan
        omega)
      obtain ⟨n, hn⟩ : ∃ n, min stop (q * e.BLOCK_SIZE + e.BLOCK_SIZE) = i + n :=
        Nat.exists_eq_add_of_le (by omega)
      have hcount : (BitVec.ofNat e.bits (i + n) - BitVec.ofNat e.bits i).toNat = n := by
        rw [toNat_ofNat_sub (by omega) (by omega), Nat.add_sub_cancel_left]
      have htake : (xs.take n).length = n := by
        rw [List.length_take]
        omega
      obtain ⟨mem₁, hdes, h₁⟩ := h.destroyRange hs (by omega) (xs.take n) (i := i)
        (by omega) (by omega) fun j hj => by
          rw [hf j (by omega), List.getElem?_take_of_lt (by omega)]
      rw [htake] at hdes h₁
      simp only [ConcurrentQueue.undoBlocks, Option.bind_eq_bind, Option.bind_some, hend, hn,
        hcount, hdes]
      by_cases hq : q = stop / e.BLOCK_SIZE
      · rw [← hq] at hadd' ⊢
        obtain rfl : n = xs.length := by omega
        exact ⟨mem₁, if_pos rfl, h₁⟩
      · have hnext : q * e.BLOCK_SIZE + e.BLOCK_SIZE ≤ stop / e.BLOCK_SIZE * e.BLOCK_SIZE :=
          block_le (by omega)
        have hne : some (β q) ≠ some (β (stop / e.BLOCK_SIZE)) := fun heq =>
          hq (h.inj q _ hs (by omega) (by omega) hlast (Option.some.inj heq))
        have hdrop : (xs.drop n).length = xs.length - n := List.length_drop
        obtain ⟨mem', hloop, h'⟩ := @ih mem₁ (cleared f i n) (q + 1) (i + n) (xs.drop n) h₁
          (fun r hr => hν r (by omega)) (by omega) (by
            rw [show i + n = q * e.BLOCK_SIZE + e.BLOCK_SIZE by omega, ← Nat.succ_mul,
              Nat.mul_div_cancel _ hpos]) (by omega)
          (fun j hj => by
            rw [cleared_of_ge (by omega), Nat.add_assoc, hf (n + j) (by omega),
              List.getElem?_drop])
          (by omega)
        rw [cleared_cleared, hdrop, show n + (xs.length - n) = xs.length by omega] at h'
        refine ⟨mem', ?_, h'⟩
        rw [if_neg hne, h₁.link q hs (by omega), hν q le_rfl (by omega), hloop]

/-! ### Another block -/

theorem requisitioned (h : Held e ctx mem β s t ν f g) {mem' : Mem α} {b : Nat}
    (hr : Mem.Requisitioned e mem mem' b) :
    Held e ctx mem' β s t ν f g ∧ ∀ q, s ≤ q → q < t → β q ≠ b := by
  have hne : ∀ q, s ≤ q → q < t → β q ≠ b := fun q hs ht heq =>
    h.used q hs ht (heq ▸ hr.free)
  refine ⟨h.frame hr.wellFormed (fun q hs ht hf => ?_) fun q hs ht => ?_, hne⟩
  · exact h.used q hs ht ((hr.taken (β q)).mp hf).1
  · exact hr.frame (β q) (hne q hs ht)

/-- Block `b` gets the next number, in a memory where the other blocks have
changed in their links at most. -/
theorem push (h : Held e ctx mem β s t ν f g) {b m : Nat} (hne : ∀ q, s ≤ q → q < t → β q ≠ b)
    {mem' : Mem α} (hwf : mem'.WellFormed e)
    (hused : ∀ q, s ≤ q → q < t → ¬ mem'.Free e (β q)) (hbused : ¬ mem'.Free e b)
    (hnew : ∀ i < e.BLOCK_SIZE, f (t * e.BLOCK_SIZE + i) = none)
    (hbslot : ∀ i, (mem'.blocks b).elements i = none)
    (hbmark : Block.Marked e.toTraits ctx (mem'.blocks b) m) {ν' : Nat → Option Nat}
    (hblocks : ∀ q, s ≤ q → q < t →
      mem'.blocks (β q) = { mem.blocks (β q) with next := ν' q })
    (hlink : (mem'.blocks b).next = ν' t) :
    Held e ctx mem' (update β t b) s (t + 1) ν' f (update g t m) := by
  have hβ : ∀ q, q < t → update β t b q = β q := fun q hq =>
    update_of_ne (by omega) ..
  have hβt : update β t b t = b := update_self ..
  refine ⟨hwf, ?_, ?_, ?_, ?_, ?_⟩
  · intro q q' hsq hqt hsq' hqt' heq
    rcases Nat.lt_succ_iff_lt_or_eq.mp hqt with hq | rfl <;>
      rcases Nat.lt_succ_iff_lt_or_eq.mp hqt' with hq' | rfl
    · rw [hβ q hq, hβ q' hq'] at heq
      exact h.inj q q' hsq hq hsq' hq' heq
    · rw [hβ q hq, hβt] at heq
      exact absurd heq (hne q hsq hq)
    · rw [hβ q' hq', hβt] at heq
      exact absurd heq.symm (hne q' hsq' hq')
    · rfl
  · intro q hsq hqt
    rcases Nat.lt_succ_iff_lt_or_eq.mp hqt with hq | rfl
    · rw [hβ q hq]
      exact hused q hsq hq
    · rwa [hβt]
  · intro q hsq hqt
    rcases Nat.lt_succ_iff_lt_or_eq.mp hqt with hq | rfl
    · rw [hβ q hq, hblocks q hsq hq]
    · rwa [hβt]
  · intro q i hsq hqt hi
    rcases Nat.lt_succ_iff_lt_or_eq.mp hqt with hq | rfl
    · rw [hβ q hq, hblocks q hsq hq]
      exact h.slot q i hsq hq hi
    · rw [hβt, hbslot i, hnew i hi]
  · intro q hsq hqt
    rcases Nat.lt_succ_iff_lt_or_eq.mp hqt with hq | rfl
    · rw [hβ q hq, update_of_ne (by omega), hblocks q hsq hq]
      exact (h.mark q hsq hq).congr rfl rfl
    · rwa [hβt, update_self]

end Held

end ConcurrentQueue
