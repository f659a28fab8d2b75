import ConcurrentQueue.NarrowIndex

/-!
# ConcurrentQueue.Consumed

**What a dequeue does to the slots it has claimed.** `Consumed` says that a call on the
list `l` has destroyed its first `n` elements and no others, and has marked the slot of
each of them once. A block whose last slot was among them is given back by an implicit
producer, and its entry on the block index is null (`Implicit.Released`). Together with
`ThrowSafe`, which says that a throw makes no difference to the state, this is what
becomes of a claimed range when the assignment of one of its elements throws. It is what
becomes of every range whose end the loops come to; a call that claims another one does not
come back, whether an assignment throws or not (`NarrowIndex`).
-/

namespace ConcurrentQueue

open Wrap

variable {α : Type} {e : Env}

/-! ### The slots of a range -/

section Range

variable (e) (find : BitVec e.bits → Option Nat) (head : BitVec e.bits) (n : Nat)

/-- How many of the `n` slots from `head` on are in the block `b`. -/
def claimed (b : Nat) : Nat :=
  ((Finset.range n).filter fun r => find (head + BitVec.ofNat e.bits r) = some b).card

/-- The blocks whose last slot is one of the `n` slots from `head` on. -/
def completed : Set Nat :=
  { b | ∃ r < n, find (head + BitVec.ofNat e.bits r) = some b ∧
    e.offset (head + BitVec.ofNat e.bits r) = e.BLOCK_SIZE - 1 }

/-- The memory before and after a call that takes the first `n` elements of the list
`l`, which starts at `head`, and gives the blocks `freed` back. -/
structure Consumed (ctx : InnerQueueContext) (l : List α) (freed : Set Nat) (m m' : Mem α) :
    Prop where
  placed : Placed e m find head l
  destroyed : ∀ r < n, ∀ b, find (head + BitVec.ofNat e.bits r) = some b →
    (m'.blocks b).elements (e.offset (head + BitVec.ofNat e.bits r)) = none
  kept : ∀ b i, (∀ r < n, find (head + BitVec.ofNat e.bits r) = some b →
    e.offset (head + BitVec.ofNat e.bits r) ≠ i) →
      (m'.blocks b).elements i = (m.blocks b).elements i
  marked : ∀ r < l.length, ∃ b k, find (head + BitVec.ofNat e.bits r) = some b ∧
    Block.Marked e.toTraits ctx (m.blocks b) k ∧
    k + claimed e find head n b ≤ e.BLOCK_SIZE ∧
    (b ∉ freed → Block.Marked e.toTraits ctx (m'.blocks b) (k + claimed e find head n b)) ∧
    (b ∈ freed → k + claimed e find head n b = e.BLOCK_SIZE)

end Range

/-- The slots of block `q` among the `n` slots from `h` on. -/
theorem card_block (B h n q : Nat) (hB : 0 < B) :
    marked B h q + ((Finset.range n).filter fun r => (h + r) / B = q).card =
      marked B (h + n) q := by
  induction n with
  | zero => simp
  | succ n ih =>
      rw [Finset.range_add_one, Finset.filter_insert]
      have hadd := block_add B (h + n)
      have hmod := Nat.mod_lt (h + n) hB
      by_cases hq : (h + n) / B = q
      · rw [if_pos hq, Finset.card_insert_of_notMem (by simp), ← Nat.add_assoc, ih]
        rw [hq] at hadd
        unfold marked
        omega
      · rw [if_neg hq, ih]
        unfold marked
        rcases Nat.lt_or_gt_of_ne hq with hlt | hgt
        · have := block_le (B := B) hlt
          omega
        · have := block_le (B := B) hgt
          omega

section Held

variable {ctx : InnerQueueContext} {m m' : Mem α} {β : Nat → Nat} {s t head n : Nat}
  {ν : Nat → Option Nat} {l : List α} {find : BitVec e.bits → Option Nat} {freed : Set Nat}
  (h : Held e ctx m β s t ν (slotAt head l) (marked e.BLOCK_SIZE head)) (hn : n ≤ l.length)
  (hlive : ∀ r < l.length, s ≤ (head + r) / e.BLOCK_SIZE ∧ (head + r) / e.BLOCK_SIZE < t)
  (hfind : ∀ r < l.length,
    find (BitVec.ofNat e.bits (head + r)) = some (β ((head + r) / e.BLOCK_SIZE)))
include h hn hlive hfind

/-- A claimed slot is in block `q` if its index is. -/
theorem Held.find_eq_iff {r q : Nat} (hr : r < n) (hs : s ≤ q) (ht : q < t) :
    find (BitVec.ofNat e.bits head + BitVec.ofNat e.bits r) = some (β q) ↔
      (head + r) / e.BLOCK_SIZE = q := by
  obtain ⟨hsr, htr⟩ := hlive r (by omega)
  rw [BitVec.ofNat_add_ofNat, hfind r (by omega), Option.some.injEq]
  exact ⟨h.inj _ _ hsr htr hs ht, fun hq => by rw [hq]⟩

theorem Held.claimed_eq {q : Nat} (hs : s ≤ q) (ht : q < t) :
    marked e.BLOCK_SIZE head q + claimed e find (BitVec.ofNat e.bits head) n (β q) =
      marked e.BLOCK_SIZE (head + n) q := by
  rw [← card_block _ _ _ _ e.BLOCK_SIZE_pos, claimed]
  congr 2
  exact Finset.filter_congr fun r hr =>
    h.find_eq_iff hn hlive hfind (Finset.mem_range.mp hr) hs ht

/-- A block has been completed if everything in it has been dequeued. -/
theorem Held.mem_completed_iff {q : Nat} (hs : s ≤ q) (ht : q < t)
    (hq : head < q * e.BLOCK_SIZE + e.BLOCK_SIZE) :
    β q ∈ completed e find (BitVec.ofNat e.bits head) n ↔
      q * e.BLOCK_SIZE + e.BLOCK_SIZE ≤ head + n := by
  have hB := e.BLOCK_SIZE_pos
  constructor
  · rintro ⟨r, hr, hb, hoff⟩
    have hdiv := (h.find_eq_iff hn hlive hfind hr hs ht).mp hb
    have hadd := block_add e.BLOCK_SIZE (head + r)
    rw [BitVec.ofNat_add_ofNat, Traits.offset_ofNat] at hoff
    rw [hdiv, hoff] at hadd
    omega
  · intro hle
    obtain ⟨r, hr⟩ := Nat.exists_eq_add_of_le
      (show head ≤ q * e.BLOCK_SIZE + (e.BLOCK_SIZE - 1) by omega)
    have hdiv : (head + r) / e.BLOCK_SIZE = q := by rw [← hr, block_div (by omega)]
    refine ⟨r, by omega, (h.find_eq_iff hn hlive hfind (by omega) hs ht).mpr hdiv, ?_⟩
    rw [BitVec.ofNat_add_ofNat, Traits.offset_ofNat, ← hr, block_mod (by omega)]

/-- The slots of the blocks held before the call, and of all others. -/
theorem Held.consumed
    (hslot : ∀ q i, s ≤ q → q < t → i < e.BLOCK_SIZE →
      (m'.blocks (β q)).elements i = slotAt (head + n) (l.drop n) (q * e.BLOCK_SIZE + i))
    (hmark : ∀ q, s ≤ q → q < t → β q ∉ freed →
      Block.Marked e.toTraits ctx (m'.blocks (β q)) (marked e.BLOCK_SIZE (head + n) q))
    (hfreed : ∀ q, s ≤ q → q < t → β q ∈ freed → marked e.BLOCK_SIZE (head + n) q = e.BLOCK_SIZE)
    (hother : ∀ b i, b ∉ window β s t ∨ e.BLOCK_SIZE ≤ i →
      (m'.blocks b).elements i = (m.blocks b).elements i) :
    Consumed e find (BitVec.ofNat e.bits head) n ctx l freed m m' where
  placed := h.placed hlive hfind
  destroyed r hr b hb := by
    obtain ⟨hs, ht⟩ := hlive r (by omega)
    rw [BitVec.ofNat_add_ofNat] at hb ⊢
    rw [hfind r (by omega), Option.some.injEq] at hb
    rw [← hb, Traits.offset_ofNat, hslot _ _ hs ht (Nat.mod_lt _ e.BLOCK_SIZE_pos), block_add]
    exact slotAt_of_lt (by omega)
  kept b i hnot := by
    by_cases hb : b ∈ window β s t ∧ i < e.BLOCK_SIZE
    · obtain ⟨⟨q, hs, ht, rfl⟩, hi⟩ := hb
      rw [hslot q i hs ht hi, h.slot q i hs ht hi, ← cleared_slotAt_drop, cleared]
      refine if_neg fun ⟨hlo, hhi⟩ => ?_
      -- the slot would be one of the claimed ones
      obtain ⟨r, hr⟩ := Nat.exists_eq_add_of_le hlo
      have hrn : r < n := by omega
      refine hnot r hrn ((h.find_eq_iff hn hlive hfind hrn hs ht).mpr ?_) ?_
      · rw [← hr, block_div hi]
      · rw [BitVec.ofNat_add_ofNat, Traits.offset_ofNat, ← hr, block_mod hi]
    · refine hother b i ?_
      by_cases hw : b ∈ window β s t
      · exact .inr (Nat.le_of_not_lt fun hi => hb ⟨hw, hi⟩)
      · exact .inl hw
  marked r hr := by
    obtain ⟨hs, ht⟩ := hlive r hr
    have hclaimed := h.claimed_eq hn hlive hfind hs ht
    refine ⟨_, marked e.BLOCK_SIZE head ((head + r) / e.BLOCK_SIZE), ?_, h.mark _ hs ht, ?_,
      fun hkeep => ?_, fun hfree => ?_⟩
    · rw [BitVec.ofNat_add_ofNat]
      exact hfind r hr
    · rw [hclaimed]
      exact marked_le ..
    · rw [hclaimed]
      exact hmark _ hs ht hkeep
    · rw [hclaimed]
      exact hfreed _ hs ht hfree

end Held

/-- A call leads to the same state whether the assignment of one of its `n` elements throws
or not, and what was assigned before is the front of the list. -/
structure ThrowSafe {σ : Type} (call : Option Nat → Option (σ × Popped α)) (n : Nat)
    (l : List α) (st' : σ) : Prop where
  quiet : call none = some (st', .returned n (l.take n))
  throws : ∀ j < n, call (some j) = some (st', .threw (l.take j))

section ThrowSafe

variable {σ : Type} {call : Option Nat → Option (σ × Popped α)} {w n : Nat} {l : List α} {st' : σ}

theorem ThrowSafe.of_bulk
    (h : ∀ throwsAt, call throwsAt = some (st', .ofList throwsAt n l)) : ThrowSafe call n l st' :=
  ⟨h none, fun j hj => by rw [h, Popped.ofList, if_pos hj]⟩

theorem ThrowSafe.of_single {call : Bool → Option (σ × Popped α)}
    (h : ∀ throws, call throws =
      some (st', .ofList (if throws then some 0 else none) (takes w 1 l) l)) :
    ThrowSafe (fun j => call j.isSome) (takes w 1 l) l st' := by
  refine ⟨h false, fun j hj => (h true).trans ?_⟩
  have hmax : takes w 1 l ≤ 1 := by
    unfold takes
    split <;> omega
  obtain rfl : j = 0 := by omega
  rw [if_pos rfl, Popped.ofList, if_pos hj]

end ThrowSafe

/-! ### The explicit producer -/

namespace Explicit

variable {st st' : State e.bits α} {v v' : View} {l : List α} {n : Nat}

theorem Inv.consumed (h : Inv e st v l) (hn : n ≤ l.length) (h' : Inv e st' v' (l.drop n))
    (hv : v' = { v with head := v.head + n })
    (hwithin : Within e (ConcurrentQueue.window v.β v.s v.t) st.mem st'.mem) :
    Consumed e (Explicit.lookup e st.prod) st.prod.headIndex n .explicitContext l ∅ st.mem
      st'.mem := by
  subst hv
  rw [h.headIndex]
  refine h.ring.consumed hn (fun _ => h.live) (fun _ => h.lookup_eq) h'.ring.slot
    (fun q hs ht _ => h'.ring.mark q hs ht) (fun _ _ _ => False.elim) ?_
  rintro b i (hb | hi)
  · rw [hwithin.blocks b hb]
  · exact hwithin.bounded b i hi

/-- The call takes the first `n` elements of the list `l`, and a throw makes no difference. -/
def Consumes (e : Env) (call : Option Nat → Option (State e.bits α × Popped α)) (n : Nat)
    (l : List α) (st : State e.bits α) : Prop :=
  ∃ st', ThrowSafe call n l st' ∧
    st'.prod.headIndex = st.prod.headIndex + BitVec.ofNat e.bits n ∧
    Consumed e (lookup e st.prod) st.prod.headIndex n .explicitContext l ∅ st.mem st'.mem

theorem Inv.dequeueBulk_consumes (h : Inv e st v l) (max : BitVec e.bits) :
    Consumes e (fun j => Explicit.dequeueBulk e max j st) (takes e.bits max.toNat l) l st := by
  obtain ⟨st', v', hcall, h', hv, hwithin⟩ := h.dequeueBulk max
  refine ⟨st', .of_bulk hcall, ?_, h.consumed (takes_le ..) h' hv hwithin⟩
  rw [h.headIndex, h'.headIndex, hv, BitVec.ofNat_add_ofNat]

/-- A bulk call on a machine whose `int` has `intBits` bits. -/
theorem Inv.dequeueBulkOn_consumes (h : Inv e st v l) (intBits : Nat) (max : BitVec e.bits) :
    let n := takes e.bits max.toNat l
    (RangeEnds intBits st.prod.headIndex (BitVec.ofNat e.bits n) →
      Consumes e (fun j => dequeueBulkOn e intBits (2 ^ e.bits) max j st) n l st) ∧
    (¬ RangeEnds intBits st.prod.headIndex (BitVec.ofNat e.bits n) →
      ∀ fuel j, dequeueBulkOn e intBits fuel max j st = none) := by
  intro n
  obtain ⟨st', hsafe, -⟩ := h.dequeueBulk_consumes max
  have hcount : _ = n := toNat_bulkClaim hsafe.quiet
  rw [← hcount, BitVec.ofNat_toNat, BitVec.setWidth_eq]
  refine ⟨fun hends => ?_, dequeueBulkOn_none⟩
  simp only [dequeueBulkOn_eq hends, hcount]
  exact h.dequeueBulk_consumes max

theorem Inv.dequeue_consumes (h : Inv e st v l) :
    Consumes e (fun j => Explicit.dequeue e j.isSome st) (takes e.bits 1 l) l st := by
  obtain ⟨st', v', hcall, h', hv, hwithin⟩ := h.dequeue
  refine ⟨st', .of_single hcall, ?_, h.consumed (takes_le ..) h' hv hwithin⟩
  rw [h.headIndex, h'.headIndex, hv, BitVec.ofNat_add_ofNat]

end Explicit

/-! ### The implicit producer -/

namespace Implicit

variable {st st' : State e.bits α} {v v' : View} {l : List α} {n : Nat}

/-- The blocks that a call has completed are given back, each once, and their entries on the
block index are null. -/
structure Released (e : Env) (n : Nat) (st st' : State e.bits α) : Prop where
  freed : completed e (lookup e st) st.prod.headIndex n ⊆ st.mem.InUse e
  inUse : st'.mem.InUse e = st.mem.InUse e \ completed e (lookup e st) st.prod.headIndex n
  accounted : st'.mem.Accounted e
  nulled : ∀ r < n,
    e.offset (st.prod.headIndex + BitVec.ofNat e.bits r) = e.BLOCK_SIZE - 1 →
    ∃ slot hdr' x, getBlockIndexEntryForIndex e (st.prod.headIndex + BitVec.ofNat e.bits r) st =
      some slot ∧ st'.prod.blockIndex = some hdr' ∧ hdr'.get slot = some x ∧ x.value = some none

section Dequeued

variable (h : Inv e st v l) (hn : n ≤ l.length) (h' : Inv e st' v' (l.drop n))
  (htraffic : Traffic e (window v.β v.s v.t) (window v'.β v'.s v'.t) st.mem st'.mem)
  (hv : v' = { v with s := (v.head + n) / e.BLOCK_SIZE, head := v.head + n })

include h hn in
/-- The call has completed the blocks that are before its last index. -/
theorem Inv.mem_completed_iff {q : Nat} (hs : v.s ≤ q) (ht : q < v.t) :
    v.β q ∈ completed e (Implicit.lookup e st) st.prod.headIndex n ↔
      q < (v.head + n) / e.BLOCK_SIZE := by
  have hold := h.oldest.2
  have hmono : v.s * e.BLOCK_SIZE ≤ q * e.BLOCK_SIZE := Nat.mul_le_mul_right _ hs
  rw [h.headIndex, h.stock.held.mem_completed_iff hn (fun _ => h.live) (fun _ => h.lookup_eq) hs ht
    (by omega), ← Nat.succ_le_iff, Nat.le_div_iff_mul_le e.BLOCK_SIZE_pos, Nat.succ_mul]

include h hn in
theorem Inv.completed_subset :
    completed e (Implicit.lookup e st) st.prod.headIndex n ⊆ window v.β v.s v.t := by
  rintro b ⟨r, hr, hb, -⟩
  rw [h.headIndex, BitVec.ofNat_add_ofNat, h.lookup_eq (by omega), Option.some.injEq] at hb
  obtain ⟨hs, ht⟩ := h.live (show r < l.length by omega)
  exact ⟨_, hs, ht, hb⟩

include h hn h' htraffic hv

/-- The blocks still held are those that are not completed. -/
theorem Inv.window_eq :
    window v'.β v'.s v'.t =
      window v.β v.s v.t \ completed e (Implicit.lookup e st) st.prod.headIndex n := by
  subst hv
  have hle : v.s ≤ (v.head + n) / e.BLOCK_SIZE := by
    rw [h.s_eq]
    exact Nat.div_le_div_right (Nat.le_add_right ..)
  ext b
  constructor
  · rintro ⟨q, hs, ht, rfl⟩
    dsimp only at hs ht
    refine ⟨mem_window (by omega) ht, fun hc => ?_⟩
    have := (h.mem_completed_iff hn (by omega) ht).mp hc
    omega
  · rintro ⟨⟨q, hs, ht, rfl⟩, hc⟩
    rw [h.mem_completed_iff hn hs ht] at hc
    exact ⟨q, Nat.le_of_not_lt hc, ht, rfl⟩

theorem Inv.inUse_eq :
    st'.mem.InUse e =
      st.mem.InUse e \ completed e (Implicit.lookup e st) st.prod.headIndex n := by
  have hsub := h.completed_subset hn
  ext b
  rw [htraffic.moves.owned_iff b, h.window_eq hn h' htraffic hv]
  constructor
  · rintro (⟨hb, hw⟩ | ⟨hw, hc⟩)
    · exact ⟨hb, fun hc => hw (hsub hc)⟩
    · exact ⟨h.stock.has.inUse hw, hc⟩
  · rintro ⟨hb, hc⟩
    by_cases hw : b ∈ window v.β v.s v.t
    · exact .inr ⟨hw, hc⟩
    · exact .inl ⟨hb, hw⟩

theorem Inv.consumed :
    Consumed e (Implicit.lookup e st) st.prod.headIndex n .implicitContext l
      (completed e (Implicit.lookup e st) st.prod.headIndex n) st.mem st'.mem := by
  have hinUse := h.inUse_eq hn h' htraffic hv
  have hcompleted := fun q => h.mem_completed_iff hn (q := q)
  have hacc := h.stock.has.accounted
  have hacc' := h'.stock.has.accounted
  subst hv
  rw [h.headIndex] at hinUse hcompleted ⊢
  refine h.stock.held.consumed hn (fun _ => h.live) (fun _ => h.lookup_eq) (fun q i hs ht hi => ?_)
    (fun q hs ht hc => ?_) (fun q hs ht hc => ?_) fun b i hbi => ?_
  · rcases Nat.lt_or_ge q ((v.head + n) / e.BLOCK_SIZE) with hq | hq
    · -- the block has been given back
      have hend : q * e.BLOCK_SIZE + e.BLOCK_SIZE ≤ v.head + n := by
        rw [← Nat.succ_mul]
        exact (Nat.le_div_iff_mul_le e.BLOCK_SIZE_pos).mp hq
      have hgone : v.β q ∉ st'.mem.InUse e := by
        rw [hinUse]
        exact fun hb => hb.2 ((hcompleted q hs ht).mpr hq)
      rw [elements_of_not_inUse hacc' hgone, slotAt_of_lt (by omega)]
    · exact h'.stock.held.slot q i hq ht hi
  · exact h'.stock.held.mark q (Nat.le_of_not_lt fun hq => hc ((hcompleted q hs ht).mpr hq)) ht
  · rw [marked_eq_iff e.BLOCK_SIZE_pos, ← Nat.succ_mul]
    exact (Nat.le_div_iff_mul_le e.BLOCK_SIZE_pos).mp ((hcompleted q hs ht).mp hc)
  · rcases hbi with hb | hi
    · by_cases huse : b ∈ st.mem.InUse e
      · rw [htraffic.moves.kept b huse hb]
      · have hunused : b ∉ st'.mem.InUse e := by
          rw [hinUse]
          exact fun hb => huse hb.1
        rw [elements_of_not_inUse hacc huse, elements_of_not_inUse hacc' hunused]
    · rw [hacc.bounded b i hi, hacc'.bounded b i hi]

theorem Inv.released (hkeys : keys st'.prod = keys st.prod) : Released e n st st' := by
  refine ⟨(h.completed_subset hn).trans h.stock.has.inUse, h.inUse_eq hn h' htraffic hv,
    h'.stock.has.accounted, fun r hr hoff => ?_⟩
  obtain ⟨hs, ht⟩ := h.live (show r < l.length by omega)
  rw [h.headIndex, BitVec.ofNat_add_ofNat] at hoff ⊢
  obtain ⟨q, hq⟩ : ∃ q, (v.head + r) / e.BLOCK_SIZE = q := ⟨_, rfl⟩
  have hadd := block_add e.BLOCK_SIZE (v.head + r)
  have hslot := h.lookup hs ht
  rw [Traits.offset_ofNat] at hoff
  rw [hq] at hs ht hslot hadd
  have hB := e.BLOCK_SIZE_pos
  have hpast : q < (v.head + n) / e.BLOCK_SIZE := by
    rw [← Nat.succ_le_iff, Nat.le_div_iff_mul_le hB, Nat.succ_mul]
    omega
  -- the entry keeps its key
  obtain ⟨hdr, hhdr, -, hindex⟩ := h.stock.exists_index (by omega)
  have hkey : (keys st'.prod).bind (· ((v.c + q) % 2 ^ v.k)) =
      some (BitVec.ofNat e.bits (q * e.BLOCK_SIZE)) := by
    rw [hkeys, keys, hhdr]
    exact congrArg (Option.map (·.key)) (hindex.entries q hs ht)
  subst hv
  rcases h'.stock.index with ⟨hnone, -⟩ | ⟨hdr', hhdr', -, hindex'⟩
  · rw [keys, hnone] at hkey
    cases hkey
  · -- and its slot is vacant
    have hroom := hindex.room
    obtain ⟨x, hx, hvacant⟩ := hindex'.vacant (q + 2 ^ v.k) (by dsimp only; omega)
      (by dsimp only; omega)
    rw [← Nat.add_assoc, Nat.add_mod_right] at hx
    rw [keys, hhdr'] at hkey
    have hkey : x.key = BitVec.ofNat e.bits (q * e.BLOCK_SIZE) :=
      Option.some.inj ((congrArg (Option.map BlockIndexEntry.key) hx).symm.trans hkey)
    refine ⟨_, hdr', x, hslot, hhdr', (hindex'.get_slot q).trans hx, ?_⟩
    rw [BlockIndexEntry.vacant, hkey, if_neg (base_ne_invalid q)] at hvacant
    obtain ⟨value, hvalue, hnull⟩ := Option.map_eq_some_iff.mp hvacant
    rw [hvalue, Option.isNone_iff_eq_none.mp hnull]

end Dequeued

/-- The call takes the first `n` elements of the list `l`, a throw makes no difference, and
the blocks it completes are given back. -/
def Consumes (e : Env) (call : Option Nat → Option (State e.bits α × Popped α)) (n : Nat)
    (l : List α) (st : State e.bits α) : Prop :=
  ∃ st', ThrowSafe call n l st' ∧
    st'.prod.headIndex = st.prod.headIndex + BitVec.ofNat e.bits n ∧
    Consumed e (lookup e st) st.prod.headIndex n .implicitContext l
      (completed e (lookup e st) st.prod.headIndex n) st.mem st'.mem ∧
    Released e n st st'

theorem Inv.dequeueBulk_consumes (h : Inv e st v l) (max : BitVec e.bits) :
    Consumes e (fun j => Implicit.dequeueBulk e max j st) (takes e.bits max.toNat l) l st := by
  obtain ⟨st', v', hcall, h', htraffic, hv⟩ := h.dequeueBulk max
  have hle := takes_le (w := e.bits) max.toNat l
  refine ⟨st', .of_bulk hcall, ?_, h.consumed hle h' htraffic hv,
    h.released hle h' htraffic hv (dequeueBulk_keys (hcall none))⟩
  rw [h.headIndex, h'.headIndex, hv, BitVec.ofNat_add_ofNat]

/-- A bulk call on a machine whose `int` has `intBits` bits. -/
theorem Inv.dequeueBulkOn_consumes (h : Inv e st v l) (intBits : Nat) (max : BitVec e.bits) :
    let n := takes e.bits max.toNat l
    (RangeEnds intBits st.prod.headIndex (BitVec.ofNat e.bits n) →
      Consumes e (fun j => dequeueBulkOn e intBits (2 ^ e.bits) max j st) n l st) ∧
    (¬ RangeEnds intBits st.prod.headIndex (BitVec.ofNat e.bits n) →
      ∀ fuel j, dequeueBulkOn e intBits fuel max j st = none) := by
  intro n
  obtain ⟨st', hsafe, -⟩ := h.dequeueBulk_consumes max
  have hcount : _ = n := toNat_bulkClaim hsafe.quiet
  rw [← hcount, BitVec.ofNat_toNat, BitVec.setWidth_eq]
  refine ⟨fun hends => ?_, dequeueBulkOn_none⟩
  simp only [dequeueBulkOn_eq hends, hcount]
  exact h.dequeueBulk_consumes max

theorem Inv.dequeue_consumes (h : Inv e st v l) :
    Consumes e (fun j => Implicit.dequeue e j.isSome st) (takes e.bits 1 l) l st := by
  obtain ⟨st', v', hcall, h', htraffic, hv⟩ := h.dequeue
  have hle := takes_le (w := e.bits) 1 l
  refine ⟨st', .of_single hcall, ?_, h.consumed hle h' htraffic hv,
    h.released hle h' htraffic hv (dequeue_keys (hcall false))⟩
  rw [h.headIndex, h'.headIndex, hv, BitVec.ofNat_add_ofNat]

end Implicit

/-! ### Runs -/

open Explicit (safe)

/-- **A dequeue that throws consumes exactly what it has claimed**, if the loops over the claimed
range end. In every state that calls lead to whose enqueues succeed, a call takes its range in
the same way, and to the same state, whichever of its assignments throws, if any. A bulk call
whose range goes around the end of an `index_t` narrower than `int` does not come back. -/
theorem throwing_dequeue_consumes (intBits : Nat) :
    (∀ (st : Explicit.State e.bits α) tr, Run (Explicit.stepOn e intBits) (Explicit.Fresh e)
        (fun _ _ c o => c.Accepted o) st tr →
      Explicit.Consumes e (fun j => Explicit.dequeue e j.isSome st)
        (takes e.bits 1 tr.content) tr.content st ∧
      ∀ max : BitVec e.bits,
        let n := takes e.bits max.toNat tr.content
        (RangeEnds intBits st.prod.headIndex (BitVec.ofNat e.bits n) →
          Explicit.Consumes e (fun j => Explicit.dequeueBulkOn e intBits (2 ^ e.bits) max j st) n
            tr.content st) ∧
        (¬ RangeEnds intBits st.prod.headIndex (BitVec.ofNat e.bits n) →
          ∀ fuel j, Explicit.dequeueBulkOn e intBits fuel max j st = none)) ∧
    ∀ (st : Implicit.State e.bits α) tr, Run (Implicit.stepOn e intBits) (Implicit.Fresh e)
        (fun _ _ c o => c.Accepted o) st tr →
      Implicit.Consumes e (fun j => Implicit.dequeue e j.isSome st)
        (takes e.bits 1 tr.content) tr.content st ∧
      ∀ max : BitVec e.bits,
        let n := takes e.bits max.toNat tr.content
        (RangeEnds intBits st.prod.headIndex (BitVec.ofNat e.bits n) →
          Implicit.Consumes e (fun j => Implicit.dequeueBulkOn e intBits (2 ^ e.bits) max j st) n
            tr.content st) ∧
        (¬ RangeEnds intBits st.prod.headIndex (BitVec.ofNat e.bits n) →
          ∀ fuel j, Implicit.dequeueBulkOn e intBits fuel max j st = none) := by
  refine ⟨fun st tr hrun => ?_, fun st tr hrun => ?_⟩
  · obtain ⟨⟨v, hinv⟩, -⟩ := Explicit.inv_of_run
      (fun _ _ _ _ _ _ hinv hstep hok => hinv.clean hstep hok)
      (hrun.of_step Explicit.step_of_stepOn)
    exact ⟨hinv.dequeue_consumes, hinv.dequeueBulkOn_consumes intBits⟩
  · obtain ⟨⟨v, hinv⟩, -⟩ := Implicit.inv_of_run
      (fun _ _ _ _ _ _ hinv hstep hok => hinv.sized hstep hok)
      (hrun.of_step Implicit.step_of_stepOn)
    exact ⟨hinv.dequeue_consumes, hinv.dequeueBulkOn_consumes intBits⟩

/-- Eight-bit indices and 32 elements to a block. -/
def byte : Env :=
  { Implicit.corner with
    blockLog := 5
    blockLog_pos := by decide
    blockLog_lt := by decide }

/-- After a throwing call, 35 elements are left, in two blocks; of all of them, the 34th
throws. -/
theorem throwing_dequeue_consumes_byte :
    (∃ (st : Explicit.State byte.bits Nat) (tr : Trace byte.bits Nat),
      Run (Explicit.stepOn byte 32) (Explicit.Fresh byte) (fun _ _ c o => c.Accepted o) st tr ∧
      tr.content = List.range' 5 35 ∧ ∃ st',
        Explicit.dequeueBulkOn byte 32 256 40#_ (some 33) st =
          some (st', .threw (List.range' 5 33)) ∧
        Explicit.dequeueBulkOn byte 32 256 40#_ none st =
          some (st', .returned 35 (List.range' 5 35))) ∧
    ∃ (st : Implicit.State byte.bits Nat) (tr : Trace byte.bits Nat),
      Run (Implicit.stepOn byte 32) (Implicit.Fresh byte) (fun _ _ c o => c.Accepted o) st tr ∧
      tr.content = List.range' 5 35 ∧ ∃ st',
        Implicit.dequeueBulkOn byte 32 256 40#_ (some 33) st =
          some (st', .threw (List.range' 5 33)) ∧
        Implicit.dequeueBulkOn byte 32 256 40#_ none st =
          some (st', .returned 35 (List.range' 5 35)) := by
  constructor
  · obtain ⟨st, tr, hrun, hview⟩ := Explicit.exists_run_of byte (fun _ _ c o => c.Accepted o)
      [.enqueueBulk .canAlloc safe (List.range 40), .dequeueBulk 5#8 (some 1)]
      (fun r => (r.1.prod.headIndex.toNat, r.2.content)) (y := (5, List.range' 5 35))
      (Explicit.stepOn byte 32) (by decide +kernel)
    obtain ⟨hhead, hcontent⟩ := Prod.mk.inj hview
    have hbulk := ((throwing_dequeue_consumes 32).1 st tr hrun).2 40#_
    rw [hcontent] at hbulk
    obtain ⟨st', hsafe, -⟩ := hbulk.1 (.inr (by rw [hhead]; decide))
    exact ⟨st, tr, hrun, hcontent, st', hsafe.throws 33 (by decide), hsafe.quiet⟩
  · obtain ⟨st, tr, hrun, hview⟩ := Implicit.exists_run_of byte (fun _ _ c o => c.Accepted o)
      [.enqueueBulk .canAlloc safe (List.range 40), .dequeueBulk 5#8 (some 1)]
      (fun r => (r.1.prod.headIndex.toNat, r.2.content)) (y := (5, List.range' 5 35))
      (Implicit.stepOn byte 32) (by decide +kernel)
    obtain ⟨hhead, hcontent⟩ := Prod.mk.inj hview
    have hbulk := ((throwing_dequeue_consumes 32).2 st tr hrun).2 40#_
    rw [hcontent] at hbulk
    obtain ⟨st', hsafe, -⟩ := hbulk.1 (.inr (by rw [hhead]; decide))
    exact ⟨st, tr, hrun, hcontent, st', hsafe.throws 33 (by decide), hsafe.quiet⟩

/-- **Around the end of the type**: a producer has given away 252 elements and holds ten more,
the last four of them with the indices 0 to 3. A bulk call for the ten does not come back,
whichever assignment throws, if any. -/
theorem dequeueBulk_loops_forever :
    ∃ (st : Explicit.State byte.bits Nat) (tr : Trace byte.bits Nat),
      Run (Explicit.stepOn byte 32) (Explicit.Fresh byte) (fun _ _ c o => c.Accepted o) st tr ∧
      tr.content = List.range 10 ∧
      ∀ fuel j, Explicit.dequeueBulkOn byte 32 fuel 10#_ j st = none := by
  obtain ⟨st, tr, hrun, hview⟩ := Explicit.exists_run_of byte (fun _ _ c o => c.Accepted o)
    [.enqueueBulk .canAlloc safe (List.range 84), .dequeueBulk 84#8 none,
      .enqueueBulk .canAlloc safe (List.range 84), .dequeueBulk 84#8 none,
      .enqueueBulk .canAlloc safe (List.range 84), .dequeueBulk 84#8 none,
      .enqueueBulk .canAlloc safe (List.range 10)]
    (fun r => (decide (Explicit.Ends 32 10#8 r.1), r.2.content)) (y := (false, List.range 10))
    (Explicit.stepOn byte 32) (by decide +kernel)
  obtain ⟨hends, hcontent⟩ := Prod.mk.inj hview
  exact ⟨st, tr, hrun, hcontent, Explicit.dequeueBulkOn_none (of_decide_eq_false hends)⟩

end ConcurrentQueue
