import ConcurrentQueue.Capacity
import ConcurrentQueue.QueueBlocks

/-!
# ConcurrentQueue.Preallocation

**The blocks that the constructor with three arguments allocates are enough.** What the producers
may need, summed over all of them, is the number of blocks that it puts into the pool
(`sum_cap_le_blockCount`). A block of the pool is free or a producer has it, so whichever producer
is asked to take more elements finds the blocks for them. This needs `N` and a block to fit in half
of `index_t`: otherwise a single implicit producer refuses an element before the `N`-th
(`leeway_exhausted`).
-/

namespace ConcurrentQueue

open Option (bind_eq_bind map_some)

variable {α : Type} {e : Env} {N : Nat}

/-! ### Sums over the producers -/

section Sums

variable {B : Nat}

theorem add_div_sub_one_le (a b : Nat) : (a - 1) / B + (b - 1) / B ≤ (a + b - 1) / B :=
  (Nat.div_add_div_le_add_div ..).trans (Nat.div_le_div_right (by omega))

/-- The blocks that all producers together need. -/
theorem sum_cap_le (l : List (Bool × Nat)) :
    (l.map fun x => cap B N x.1 x.2).sum ≤ ((N - 1) / B + 2) * l.countP (·.1) +
      2 * l.countP (!·.1) + ((l.map (·.2)).sum - 1) / B := by
  induction l with
  | nil => exact Nat.zero_le _
  | cons x l ih =>
      obtain ⟨isExplicit, k⟩ := x
      rw [List.map_cons, List.map_cons, List.sum_cons, List.sum_cons]
      cases isExplicit with
      | true =>
          have hmono : ((l.map (·.2)).sum - 1) / B ≤ (k + (l.map (·.2)).sum - 1) / B :=
            Nat.div_le_div_right (by omega)
          rw [List.countP_cons_of_pos rfl, List.countP_cons_of_neg (by simp), Nat.mul_succ,
            cap_explicit]
          dsimp only
          omega
      | false =>
          have hadd := add_div_sub_one_le (B := B) k (l.map (·.2)).sum
          rw [List.countP_cons_of_neg (by simp), List.countP_cons_of_pos rfl, Nat.mul_succ,
            cap_implicit]
          dsimp only
          omega

theorem sum_range_le {β : Type} {f : β → Nat} {r : Nat → Nat} {l : List β}
    (h : ∀ j x, l[j]? = some x → r j ≤ f x) :
    ∑ j ∈ Finset.range l.length, r j ≤ (l.map f).sum := by
  induction l using List.reverseRecOn with
  | nil => exact Nat.zero_le _
  | append_singleton l x ih =>
      rw [List.length_append, List.length_singleton, Finset.sum_range_succ, List.map_append,
        List.sum_append]
      refine Nat.add_le_add (ih fun j y hj => h j y ?_) ?_
      · rw [List.getElem?_append_left (List.getElem?_eq_some_iff.mp hj).1]
        exact hj
      · exact (h l.length x List.getElem?_concat_length).trans (Nat.le_of_eq (Nat.add_zero _).symm)

/-- As long as all but one have no more than they may, there is enough left for that one. -/
theorem sum_range_except_le {β : Type} {f : β → Nat} {r : Nat → Nat} {l : List β} {i : Nat} {x : β}
    (hi : l[i]? = some x) (h : ∀ j y, j ≠ i → l[j]? = some y → r j ≤ f y) :
    ∑ j ∈ Finset.range l.length, r j + f x ≤ (l.map f).sum + r i := by
  have hmem : i ∈ Finset.range l.length :=
    Finset.mem_range.mpr (List.getElem?_eq_some_iff.mp hi).1
  have hle : ∑ j ∈ Finset.range l.length, Function.update r i (f x) j ≤ (l.map f).sum := by
    refine sum_range_le fun j y hj => ?_
    by_cases hji : j = i
    · subst hji
      rw [Function.update_self, Option.some.inj (hi.symm.trans hj)]
    · rw [Function.update_of_ne hji]
      exact h j y hji hj
  rw [Finset.sum_update_of_mem hmem] at hle
  have hsplit := Finset.add_sum_erase (Finset.range l.length) r hmem
  rw [Finset.sdiff_singleton_eq_erase] at hle
  omega

theorem sum_map_set {β : Type} {f : β → Nat} {l : List β} {i : Nat} {x : β} (hi : l[i]? = some x)
    (y : β) : ((l.set i y).map f).sum + f x = (l.map f).sum + f y := by
  induction l generalizing i with
  | nil =>
      rw [List.getElem?_nil] at hi
      cases hi
  | cons z l ih =>
      cases i with
      | zero =>
          rw [List.getElem?_cons_zero] at hi
          obtain rfl := Option.some.inj hi
          simp only [List.set_cons_zero, List.map_cons, List.sum_cons]
          omega
      | succ i =>
          rw [List.getElem?_cons_succ] at hi
          have hrest := ih hi
          simp only [List.set_cons_succ, List.map_cons, List.sum_cons]
          omega

theorem countP_set_of_eq {β : Type} {f : β → Bool} {l : List β} {i : Nat} {x y : β}
    (hi : l[i]? = some x) (hxy : f y = f x) : (l.set i y).countP f = l.countP f := by
  induction l generalizing i with
  | nil => rfl
  | cons z l ih =>
      cases i with
      | zero =>
          rw [List.getElem?_cons_zero] at hi
          obtain rfl := Option.some.inj hi
          rw [List.set_cons_zero, List.countP_cons, List.countP_cons, hxy]
      | succ i =>
          rw [List.getElem?_cons_succ] at hi
          rw [List.set_cons_succ, List.countP_cons, List.countP_cons, ih hi]

end Sums

theorem window_ncard_le (β : Nat → Nat) (s t : Nat) : (window β s t).ncard ≤ t - s := by
  have himage : window β s t = β '' Set.Ico s t := by
    ext b
    constructor
    · rintro ⟨q, hs, ht, rfl⟩
      exact ⟨q, ⟨hs, ht⟩, rfl⟩
    · rintro ⟨q, ⟨hs, ht⟩, rfl⟩
      exact ⟨q, hs, ht, rfl⟩
  rw [himage]
  calc (β '' Set.Ico s t).ncard ≤ (Set.Ico s t).ncard := Set.ncard_image_le (Set.finite_Ico s t)
    _ = t - s := by rw [← Finset.coe_Ico, Set.ncard_coe_finset, Nat.card_Ico]

namespace Whole

/-! ### What each producer has -/

/-- The number of elements. -/
def Producer.size {w : Nat} : Producer w → Nat
  | .explicit p => (p.tailIndex - p.headIndex).toNat
  | .implicit p => (p.tailIndex - p.headIndex).toNat

namespace Queue

/-- The producer has the blocks `A` and an index with room for the whole pool; if it is an
explicit one, its ring has no more blocks than it may need. -/
def Founded (e : Env) (N : Nat) (mem : Mem α) (A : Set Nat) : Producer e.bits → Prop
  | .explicit p =>
      Explicit.Owns e A ⟨mem, p⟩ ∧ p.blockIndex.isSome = true ∧
        ∃ v l, Explicit.Inv e (⟨mem, p⟩ : Explicit.State e.bits α) v l ∧
          v.t - v.s ≤ (N - 1) / e.BLOCK_SIZE + 2 ∧ e.initialBlockPoolSize ≤ 2 ^ v.k
  | .implicit p =>
      p.blockIndex.isSome = true ∧
        ∃ v l, Implicit.Inv e (⟨mem, p⟩ : Implicit.State e.bits α) v l ∧
          window v.β v.s v.t = A ∧ e.initialBlockPoolSize ≤ 2 ^ v.k

variable {mem mem' : Mem α} {A : Set Nat} {p : Producer e.bits}

theorem Founded.local : Local e (Founded (α := α) e N) := by
  intro mem mem' A p h hhas hkept
  cases p with
  | explicit p =>
      obtain ⟨howns, hindexed, v, l, hinv, hring, hk⟩ := h
      exact ⟨howns.frame hhas hkept, hindexed, v, l, hinv.frame howns hhas hkept, hring, hk⟩
  | implicit p =>
      obtain ⟨hindexed, v, l, hinv, rfl, hk⟩ := h
      exact ⟨hindexed, v, l, hinv.frame hhas hkept, rfl, hk⟩

theorem Founded.ncard_le (h : Founded e N mem A p) :
    A.ncard ≤ cap e.BLOCK_SIZE N p.isExplicit p.size := by
  cases p with
  | explicit p =>
      obtain ⟨howns, -, v, l, hinv, hring, -⟩ := h
      rw [← hinv.window_of_owns howns]
      exact (window_ncard_le ..).trans hring
  | implicit p =>
      obtain ⟨-, v, l, hinv, rfl, -⟩ := h
      have hsize : (Producer.implicit p).size = l.length := hinv.size_eq
      rw [hsize]
      exact (window_ncard_le ..).trans hinv.blocks_le

/-- What a call does to a producer when there are enough blocks. -/
structure Called (e : Env) (N : Nat) (c : Call e.bits α) (mem : Mem α) (A : Set Nat)
    (p : Producer e.bits) (mem' : Mem α) (p' : Producer e.bits) (o : Outcome α) : Prop where
  traffic : ∃ A', Traffic e A A' mem mem' ∧ Founded e N mem' A' p'
  kind : p'.isExplicit = p.isExplicit
  size_le : p'.size ≤ p.size + c.values.length
  succeeds : c.isEnqueue = true → o = .pushed (.returned true)
  mallocs : c.isEnqueue = true → mem'.mallocs = mem.mallocs
  created : c.isEnqueue = true → mem'.created = mem.created

theorem Founded.call_explicit (hN : Roomy e N) {p : Explicit.ExplicitProducer e.bits}
    (h : Founded e N mem A (.explicit p)) {c : Call e.bits α} (hquiet : c.Quiet)
    (hroom : c.isEnqueue = true → (Producer.explicit p).size + c.values.length ≤ N)
    (hpool : (N - 1) / e.BLOCK_SIZE + 2 ≤ e.initialBlockPoolSize)
    (hfree : (N - 1) / e.BLOCK_SIZE + 2 ≤ mem.freeBlocks e + A.ncard) :
    ∃ p' mem' o, callProducer e c (.explicit p) mem = some (p', mem', o) ∧
      Called e N c mem A (.explicit p) mem' p' o := by
  obtain ⟨howns, hindexed, v, l, hinv, hring, hk⟩ := h
  have hsize : (Producer.explicit p).size = l.length := hinv.size_eq
  rw [hsize] at hroom
  have hncard : A.ncard ≤ v.t - v.s := by
    rw [← hinv.window_of_owns howns]
    exact window_ncard_le ..
  -- a dequeue takes elements from the front and leaves the ring and the index as they are
  have hdequeued : ∀ {st' : Explicit.State e.bits α} {n : Nat} {o : Outcome α},
      c.isEnqueue = false → Explicit.step e c ⟨mem, p⟩ = some (st', o) →
      Explicit.Inv e st' { v with head := v.head + n } (l.drop n) →
      st'.prod.blockIndex = p.blockIndex →
      ∃ p' mem' o, callProducer e c (.explicit p) mem = some (p', mem', o) ∧
        Called e N c mem A (.explicit p) mem' p' o := by
    intro st' n o hc hstep hinv' hsame
    obtain ⟨A', hgains⟩ := howns.step hstep
    have hsize' : (Producer.explicit st'.prod).size = (l.drop n).length := hinv'.size_eq
    refine ⟨.explicit st'.prod, st'.mem, o, by rw [callProducer, hstep, map_some],
      ⟨A', hgains.traffic, hgains.owns, hsame ▸ hindexed, _, _, hinv', hring, hk⟩, rfl, ?_,
      fun hc' => ?_, fun hc' => ?_, fun hc' => ?_⟩
    · rw [hsize', hsize, List.length_drop]
      omega
    all_goals
      rw [hc] at hc'
      cases hc'
  cases hc : c.isEnqueue with
  | true =>
      obtain ⟨st', v', hstep, hinv', hring', hindexed', hk', hmallocs, hcreated⟩ :=
        hinv.enqueue_pooled hN hc hquiet (hroom hc) hindexed (hpool.trans hk) hring
          (hfree.trans (Nat.add_le_add_left hncard _))
      obtain ⟨A', hgains⟩ := howns.step hstep
      have hsize' : (Producer.explicit st'.prod).size = (l ++ c.values).length := hinv'.size_eq
      refine ⟨.explicit st'.prod, st'.mem, _, by rw [callProducer, hstep, map_some],
        ⟨A', hgains.traffic, hgains.owns, hindexed', v', _, hinv', hring', hk' ▸ hk⟩, rfl, ?_,
        fun _ => rfl, fun _ => hmallocs, fun _ => hcreated⟩
      rw [hsize', hsize, List.length_append]
  | false =>
      cases c with
      | enqueue mode ctor x => cases hc
      | enqueueBulk mode ctor xs => cases hc
      | dequeue throws =>
          obtain ⟨st', v', hdeq, hinv', rfl, -⟩ := hinv.dequeue
          exact hdequeued hc (by rw [Explicit.step, hdeq, map_some]) hinv'
            (Explicit.dequeue_blockIndex (hdeq throws))
      | dequeueBulk max throwsAt =>
          obtain ⟨st', v', hdeq, hinv', rfl, -⟩ := hinv.dequeueBulk max
          exact hdequeued hc (by rw [Explicit.step, hdeq, map_some]) hinv'
            (Explicit.dequeueBulk_blockIndex (hdeq throwsAt))

theorem Founded.call_implicit (hN : Roomy e N) {p : Implicit.ImplicitProducer e.bits}
    (h : Founded e N mem A (.implicit p)) {c : Call e.bits α} (hquiet : c.Quiet)
    (hroom : c.isEnqueue = true → (Producer.implicit p).size + c.values.length ≤ N)
    (hpool : ((Producer.implicit p).size + c.values.length - 1) / e.BLOCK_SIZE + 2 ≤
      e.initialBlockPoolSize)
    (hfree : ((Producer.implicit p).size + c.values.length - 1) / e.BLOCK_SIZE + 2 ≤
      mem.freeBlocks e + A.ncard) :
    ∃ p' mem' o, callProducer e c (.implicit p) mem = some (p', mem', o) ∧
      Called e N c mem A (.implicit p) mem' p' o := by
  obtain ⟨hindexed, v, l, hinv, rfl, hk⟩ := h
  have hsize : (Producer.implicit p).size = l.length := hinv.size_eq
  rw [hsize] at hroom hpool hfree
  have hncard := window_ncard_le v.β v.s v.t
  have hdequeued : ∀ {st' : Implicit.State e.bits α} {s n : Nat} {o : Outcome α},
      c.isEnqueue = false → Implicit.step e c ⟨mem, p⟩ = some (st', o) →
      Implicit.Inv e st' { v with s := s, head := v.head + n } (l.drop n) →
      Traffic e (window v.β v.s v.t) (window v.β s v.t) mem st'.mem →
      st'.prod.blockIndex.isSome = true →
      ∃ p' mem' o, callProducer e c (.implicit p) mem = some (p', mem', o) ∧
        Called e N c mem (window v.β v.s v.t) (.implicit p) mem' p' o := by
    intro st' s n o hc hstep hinv' htraffic hindexed'
    have hsize' : (Producer.implicit st'.prod).size = (l.drop n).length := hinv'.size_eq
    refine ⟨.implicit st'.prod, st'.mem, o, by rw [callProducer, hstep, map_some],
      ⟨_, htraffic, hindexed', _, _, hinv', rfl, hk⟩, rfl, ?_, fun hc' => ?_, fun hc' => ?_,
      fun hc' => ?_⟩
    · rw [hsize', hsize, List.length_drop]
      omega
    all_goals
      rw [hc] at hc'
      cases hc'
  cases hc : c.isEnqueue with
  | true =>
      obtain ⟨st', v', hstep, hinv', -, htraffic, hindexed', hk', hmallocs, hcreated⟩ :=
        hinv.enqueue_pooled hN hc hquiet (hroom hc) hindexed (hpool.trans hk)
          (hfree.trans (Nat.add_le_add_left hncard _))
      have hsize' : (Producer.implicit st'.prod).size = (l ++ c.values).length := hinv'.size_eq
      refine ⟨.implicit st'.prod, st'.mem, _, by rw [callProducer, hstep, map_some],
        ⟨_, htraffic, hindexed', v', _, hinv', rfl,
          hk.trans (Nat.pow_le_pow_right (by omega) hk')⟩, rfl, ?_, fun _ => rfl,
        fun _ => hmallocs, fun _ => hcreated⟩
      rw [hsize', hsize, List.length_append]
  | false =>
      cases c with
      | enqueue mode ctor x => cases hc
      | enqueueBulk mode ctor xs => cases hc
      | dequeue throws =>
          obtain ⟨st', v', hdeq, hinv', htraffic, rfl⟩ := hinv.dequeue
          exact hdequeued hc (by rw [Implicit.step, hdeq, map_some]) hinv' htraffic
            (Implicit.isSome_of_keys (Implicit.dequeue_keys (hdeq throws)) hindexed)
      | dequeueBulk max throwsAt =>
          obtain ⟨st', v', hdeq, hinv', htraffic, rfl⟩ := hinv.dequeueBulk max
          exact hdequeued hc (by rw [Implicit.step, hdeq, map_some]) hinv' htraffic
            (Implicit.isSome_of_keys (Implicit.dequeueBulk_keys (hdeq throwsAt)) hindexed)

theorem Founded.call (hN : Roomy e N) (h : Founded e N mem A p) {c : Call e.bits α}
    (hquiet : c.Quiet) (hroom : c.isEnqueue = true → p.size + c.values.length ≤ N)
    (hpool : cap e.BLOCK_SIZE N p.isExplicit (p.size + c.values.length) ≤ e.initialBlockPoolSize)
    (hfree : cap e.BLOCK_SIZE N p.isExplicit (p.size + c.values.length) ≤
      mem.freeBlocks e + A.ncard) :
    ∃ p' mem' o, callProducer e c p mem = some (p', mem', o) ∧
      Called e N c mem A p mem' p' o := by
  cases p with
  | explicit p => exact h.call_explicit hN hquiet hroom hpool hfree
  | implicit p => exact h.call_implicit hN hquiet hroom hpool hfree

/-- A new producer, with its index. -/
theorem founded_of_create (hmem : mem.Accounted e)
    (hpool : e.initialBlockPoolSize ≤ e.IMPLICIT_INITIAL_INDEX_SIZE)
    (hm : e.mallocOk mem.mallocs = true) (hm' : e.mallocOk (mem.mallocs + 1) = true)
    {isExplicit : Bool} {r : Option (Producer e.bits)}
    (h : createProducer e isExplicit mem = some (r, mem')) :
    ∃ p, r = some p ∧ p.isExplicit = isExplicit ∧ p.size = 0 ∧ Traffic e ∅ ∅ mem mem' ∧
      Founded e N mem' ∅ p := by
  have htraffic := (keeps_of_create True hmem h).1
  have hkeeps := (keeps_of_create True hmem h).2
  have hmalloc : Traffic e ∅ ∅ mem { mem with mallocs := mem.mallocs + 1 } :=
    (Within.mallocs _).traffic ⟨hmem, Set.empty_subset _⟩
  simp only [createProducer, Mem.malloc, hm] at h
  cases isExplicit with
  | true =>
      have hhalf : e.initialBlockPoolSize ≤ 2 ^ (e.bits - 1) := by
        have hlog := e.implicitIndexLog_lt
        exact hpool.trans (Nat.pow_le_pow_right (by omega) (by omega))
      obtain ⟨st, v, hcreate, hinv, hindexed, hk⟩ :=
        Explicit.create_pooled hmalloc.has.accounted.wellFormed hhalf hm'
      rw [if_pos rfl, hcreate, map_some] at h
      cases h
      have howns := (hkeeps _ rfl).1
      have hring : v.t - v.s = 0 := by
        have hempty := hinv.window_of_owns howns
        by_contra hne
        have hmem : v.β v.s ∈ window v.β v.s v.t := mem_window le_rfl (by omega)
        rw [hempty] at hmem
        exact hmem
      exact ⟨_, rfl, rfl, hinv.size_eq, htraffic, howns, hindexed, v, [], hinv,
        hring ▸ Nat.zero_le _, hk⟩
  | false =>
      obtain ⟨st, v, hcreate, hinv, hst, hindexed, hk, -⟩ :=
        Implicit.create_pooled hmalloc.has.accounted hpool hm'
      rw [if_neg Bool.false_ne_true, hcreate, map_some] at h
      cases h
      exact ⟨_, rfl, rfl, hinv.size_eq, htraffic, hindexed, v, [], hinv,
        by rw [hst, window_self], hk⟩

/-! ### All producers -/

variable {q q' : Queue e.bits α} {B : Nat → Set Nat} {E I : Nat}

/-- A block of the pool is free or a producer has it. -/
theorem Arranged.pool_le {K : Mem α → Set Nat → Producer e.bits → Prop} (h : Arranged e K q B) :
    e.initialBlockPoolSize ≤ q.mem.freeBlocks e +
      ∑ j ∈ Finset.range q.producers.length, (B j).ncard := by
  have hfinite : ∀ j, (B j).Finite := fun j =>
    (Set.finite_Iio (e.initialBlockPoolSize + q.mem.created)).subset fun b hb =>
      Mem.lt_of_inUse (h.divided.subset j hb)
  have hcover : Finset.range e.initialBlockPoolSize ⊆
      (Finset.Ico q.mem.initialBlockPoolIndex e.initialBlockPoolSize ∪ q.mem.freeList.toFinset) ∪
        (Finset.range q.producers.length).biUnion fun j => (hfinite j).toFinset := by
    intro b hb
    rw [Finset.mem_range] at hb
    by_cases hfree : q.mem.Free e b
    · refine Finset.mem_union_left _ ?_
      rcases hfree with hpool | hlist | hge
      · exact Finset.mem_union_left _ (Finset.mem_Ico.mpr hpool)
      · exact Finset.mem_union_right _ (List.mem_toFinset.mpr hlist)
      · omega
    · have hgone : b ∉ q.mem.destroyed := fun hb' => absurd (h.heap b hb') (by omega)
      obtain ⟨i, hi⟩ := (h.divided.cover b).mp ⟨hfree, hgone⟩
      have hlt : i < q.producers.length := by
        by_contra hge
        rw [h.beyond i (by omega)] at hi
        exact hi
      exact Finset.mem_union_right _ (Finset.mem_biUnion.mpr
        ⟨i, Finset.mem_range.mpr hlt, (hfinite i).mem_toFinset.mpr hi⟩)
  calc e.initialBlockPoolSize = (Finset.range e.initialBlockPoolSize).card :=
        (Finset.card_range _).symm
    _ ≤ _ := Finset.card_le_card hcover
    _ ≤ (Finset.Ico q.mem.initialBlockPoolIndex e.initialBlockPoolSize ∪
          q.mem.freeList.toFinset).card +
        ((Finset.range q.producers.length).biUnion fun j => (hfinite j).toFinset).card :=
      Finset.card_union_le ..
    _ ≤ q.mem.freeBlocks e + ∑ j ∈ Finset.range q.producers.length, (B j).ncard := by
      refine Nat.add_le_add ?_ (Finset.card_biUnion_le.trans (Finset.sum_le_sum fun j _ => ?_))
      · refine (Finset.card_union_le ..).trans ?_
        rw [Nat.card_Ico, Mem.freeBlocks]
        exact Nat.add_le_add_left (List.toFinset_card_le _) _
      · rw [Set.ncard_eq_toFinset_card _ (hfinite j)]

/-- The elements of all producers. -/
def elements {w : Nat} (q : Queue w α) : Nat := (q.producers.map (·.producer.size)).sum

/-- The producers of one kind. -/
def number {w : Nat} (isExplicit : Bool) (q : Queue w α) : Nat :=
  q.producers.countP (·.producer.isExplicit == isExplicit)

/-- The kind and the size of each producer. -/
def sizes {w : Nat} (q : Queue w α) : List (Bool × Nat) :=
  q.producers.map fun x => (x.producer.isExplicit, x.producer.size)

/-- Each producer has what it needs, and there are no more producers and elements than the queue
was made for. -/
structure Stocked (e : Env) (N E I : Nat) (q : Queue e.bits α) (B : Nat → Set Nat) : Prop where
  arranged : Arranged e (Founded e N) q B
  elements : q.elements ≤ N
  explicit : q.number true ≤ E
  implicit : q.number false ≤ I

/-- What the constructor with three arguments asks for. -/
def blockCount (e : Env) (N E I : Nat) : Nat :=
  ((N + e.BLOCK_SIZE - 1) / e.BLOCK_SIZE - 1) * (E + 1) + 2 * (E + I)

theorem blockCount_eq (hN : 1 ≤ N) (E I : Nat) : blockCount e N E I =
    ((N - 1) / e.BLOCK_SIZE + 2) * E + 2 * I + (N - 1) / e.BLOCK_SIZE := by
  have hceil : (N + e.BLOCK_SIZE - 1) / e.BLOCK_SIZE = (N - 1) / e.BLOCK_SIZE + 1 := by
    rw [← Nat.add_div_right _ e.BLOCK_SIZE_pos]
    congr 1
    omega
  rw [blockCount, hceil, Nat.add_sub_cancel]
  ring

/-- The pool has a block for everything that the producers may need. -/
theorem sum_cap_le_blockCount (hN : 1 ≤ N) {l : List (Bool × Nat)} (hE : l.countP (·.1) ≤ E)
    (hI : l.countP (!·.1) ≤ I) (hsum : (l.map (·.2)).sum ≤ N) :
    (l.map fun x => cap e.BLOCK_SIZE N x.1 x.2).sum ≤ blockCount e N E I := by
  rw [blockCount_eq hN]
  refine (sum_cap_le l).trans ?_
  have hexplicit := Nat.mul_le_mul_left ((N - 1) / e.BLOCK_SIZE + 2) hE
  have hdiv : ((l.map (·.2)).sum - 1) / e.BLOCK_SIZE ≤ (N - 1) / e.BLOCK_SIZE :=
    Nat.div_le_div_right (by omega)
  omega

theorem countP_sizes (q : Queue e.bits α) : q.sizes.countP (·.1) = q.number true := by
  rw [sizes, List.countP_map, number]
  exact List.countP_congr fun x _ => by simp

theorem countP_not_sizes (q : Queue e.bits α) : q.sizes.countP (!·.1) = q.number false := by
  rw [sizes, List.countP_map, number]
  exact List.countP_congr fun x _ => by simp

theorem sum_sizes (q : Queue e.bits α) : (q.sizes.map (·.2)).sum = q.elements := by
  rw [sizes, List.map_map, elements]
  rfl

variable {i : Nat} {x : Listed e.bits}

/-- There are blocks enough for one producer to take `n` more elements. -/
theorem Stocked.room (h : Stocked e N E I q B) (hN : 1 ≤ N)
    (hpool : e.initialBlockPoolSize = blockCount e N E I) (hx : q.producers[i]? = some x) {n : Nat}
    (hroom : q.elements + n ≤ N) :
    cap e.BLOCK_SIZE N x.producer.isExplicit (x.producer.size + n) ≤ e.initialBlockPoolSize ∧
      cap e.BLOCK_SIZE N x.producer.isExplicit (x.producer.size + n) ≤
        q.mem.freeBlocks e + (B i).ncard := by
  have hsize : q.sizes[i]? = some (x.producer.isExplicit, x.producer.size) := by
    rw [sizes, List.getElem?_map, hx, map_some]
  obtain ⟨hlt, -⟩ := List.getElem?_eq_some_iff.mp hsize
  have hlen : q.sizes.length = q.producers.length := List.length_map _
  -- the sizes as they would be afterwards
  obtain ⟨y, hy, hy'⟩ : ∃ y : Bool × Nat, y.1 = x.producer.isExplicit ∧
      y.2 = x.producer.size + n := ⟨⟨_, _⟩, rfl, rfl⟩
  rw [← hy, ← hy']
  have hsum : ((q.sizes.set i y).map (·.2)).sum ≤ N := by
    have hset := sum_map_set (f := (·.2)) hsize y
    rw [sum_sizes] at hset
    dsimp only at hset
    omega
  have hcap := sum_cap_le_blockCount (e := e) (E := E) (I := I) hN
    (by rw [countP_set_of_eq hsize hy, countP_sizes]; exact h.explicit)
    (by rw [countP_set_of_eq hsize (congrArg not hy), countP_not_sizes]; exact h.implicit) hsum
  rw [← hpool] at hcap
  have hrest := sum_range_except_le (f := fun z : Bool × Nat => cap e.BLOCK_SIZE N z.1 z.2)
    (r := fun j => (B j).ncard) (List.getElem?_set_self (a := y) hlt) fun j z hj hz => by
      rw [List.getElem?_set_ne hj.symm, sizes, List.getElem?_map] at hz
      obtain ⟨z', hz', rfl⟩ := Option.map_eq_some_iff.mp hz
      exact (h.arranged.keeps j z' hz').ncard_le
  rw [List.length_set, hlen] at hrest
  have hsingle : (B i).ncard ≤ ∑ j ∈ Finset.range q.producers.length, (B j).ncard :=
    Finset.single_le_sum (f := fun j => (B j).ncard) (fun _ _ => Nat.zero_le _)
      (Finset.mem_range.mpr (hlen ▸ hlt))
  have hfree := h.arranged.pool_le
  exact ⟨by omega, by omega⟩

/-- A call within the size of the queue keeps it in order, and if it enqueues it succeeds. -/
theorem Stocked.call (h : Stocked e N E I q B) (hN : Roomy e N)
    (hpool : e.initialBlockPoolSize = blockCount e N E I) (hx : q.producers[i]? = some x)
    {c : Call e.bits α} (hquiet : c.Quiet)
    (hroom : c.isEnqueue = true → q.elements + c.values.length ≤ N) :
    ∃ q' o, q.call e i c = some (q', o) ∧ (∃ B', Stocked e N E I q' B') ∧
      (c.isEnqueue = true → o = .pushed (.returned true) ∧ q'.mem.mallocs = q.mem.mallocs ∧
        q'.mem.created = q.mem.created) := by
  have hall : q.elements + c.values.length ≤ N := by
    cases hc : c.isEnqueue with
    | true => exact hroom hc
    | false =>
        have hnone : c.values = [] := by
          cases c with
          | enqueue mode ctor x => cases hc
          | enqueueBulk mode ctor xs => cases hc
          | dequeue throws => rfl
          | dequeueBulk max throwsAt => rfl
        rw [hnone]
        exact h.elements
  obtain ⟨hcap, hfree⟩ := h.room hN.pos hpool hx hall
  have hone : x.producer.size ≤ q.elements := by
    have hmem : x.producer.size ∈ q.producers.map (·.producer.size) :=
      List.mem_map_of_mem (List.mem_of_getElem? hx)
    exact List.le_sum_of_mem hmem
  obtain ⟨p', mem', o, hcall, hcalled⟩ :=
    (h.arranged.keeps i x hx).call hN hquiet (fun _ => by omega) hcap hfree
  have hstep : q.call e i c =
      some (⟨mem', q.producers.set i { x with producer := p' }⟩, o) := by
    rw [Queue.call, hx, bind_eq_bind, Option.bind_some, hcall]
    rfl
  obtain ⟨B', hB'⟩ := h.arranged.call Founded.local hstep fun y p₁ mem₁ hy hcall₁ => by
    obtain rfl := Option.some.inj (hx.symm.trans hy)
    rw [hcall] at hcall₁
    simp only [Option.some.injEq, Prod.mk.injEq] at hcall₁
    obtain ⟨rfl, rfl, -⟩ := hcall₁
    exact hcalled.traffic
  have hkind : ∀ b : Bool, (p'.isExplicit == b) = (x.producer.isExplicit == b) := fun b => by
    rw [hcalled.kind]
  refine ⟨_, o, hstep, ⟨B', hB', ?_, ?_, ?_⟩, fun hc =>
    ⟨hcalled.succeeds hc, hcalled.mallocs hc, hcalled.created hc⟩⟩
  · have hset := sum_map_set (f := fun y : Listed e.bits => y.producer.size) hx
      { x with producer := p' }
    have hle := hcalled.size_le
    show ((q.producers.set i { x with producer := p' }).map (·.producer.size)).sum ≤ N
    have hsum : (q.producers.map (·.producer.size)).sum = q.elements := rfl
    dsimp only at hset
    omega
  · exact (countP_set_of_eq hx (hkind true)).trans_le h.explicit
  · exact (countP_set_of_eq hx (hkind false)).trans_le h.implicit

theorem map_setInactive (q : Queue e.bits α) (i : Nat) (b : Bool) :
    (q.setInactive i b).producers.map (·.producer) = q.producers.map (·.producer) := by
  refine List.ext_getElem? fun j => ?_
  rw [List.getElem?_map, List.getElem?_map, Queue.setInactive, List.getElem?_modify]
  cases q.producers[j]? with
  | none => rfl
  | some x =>
      simp only [Option.map_eq_map, map_some]
      split <;> rfl

theorem elements_setInactive (q : Queue e.bits α) (i : Nat) (b : Bool) :
    (q.setInactive i b).elements = q.elements := by
  have hsame := congrArg (fun l => (l.map Producer.size).sum) (map_setInactive q i b)
  simp only [List.map_map] at hsame
  exact hsame

theorem number_setInactive (q : Queue e.bits α) (i : Nat) (b isExplicit : Bool) :
    (q.setInactive i b).number isExplicit = q.number isExplicit := by
  have hsame := congrArg (List.countP fun p : Producer e.bits => p.isExplicit == isExplicit)
    (map_setInactive q i b)
  simp only [List.countP_map] at hsame
  exact hsame

theorem Stocked.setInactive (h : Stocked e N E I q B) (i : Nat) (b : Bool) :
    Stocked e N E I (q.setInactive i b) B :=
  ⟨h.arranged.setInactive i b, (elements_setInactive q i b).trans_le h.elements,
    (number_setInactive q i b true).trans_le h.explicit,
    (number_setInactive q i b false).trans_le h.implicit⟩

/-- Producers are made only up to the numbers planned, and with their indices; nothing throws, and
an enqueue asks for no more elements than there is room for. -/
def Planned (e : Env) (N E I : Nat) (q : Queue e.bits α) : Op e.bits α → Reply α → Prop
  | .acquire isExplicit, _ =>
      (findInactive isExplicit q.producers q.producers.length).isSome = true ∨
        e.mallocOk q.mem.mallocs = true ∧ e.mallocOk (q.mem.mallocs + 1) = true ∧
          q.number isExplicit < if isExplicit then E else I
  | .release _, _ => True
  | .call _ c, _ => c.Quiet ∧ (c.isEnqueue = true → q.elements + c.values.length ≤ N)

theorem Stocked.acquire (h : Stocked e N E I q B)
    (hpool : e.initialBlockPoolSize ≤ e.IMPLICIT_INITIAL_INDEX_SIZE) {isExplicit : Bool}
    {r : Option Nat} (hstep : recycleOrCreateProducer e isExplicit q = some (q', r))
    (hok : (findInactive isExplicit q.producers q.producers.length).isSome = true ∨
      e.mallocOk q.mem.mallocs = true ∧ e.mallocOk (q.mem.mallocs + 1) = true ∧
        q.number isExplicit < if isExplicit then E else I) : ∃ B', Stocked e N E I q' B' := by
  cases hfind : findInactive isExplicit q.producers q.producers.length with
  | some i =>
      simp only [Queue.recycleOrCreateProducer, hfind] at hstep
      cases hstep
      exact ⟨B, h.setInactive i false⟩
  | none =>
      rw [hfind] at hok
      obtain ⟨hm, hm', hlt⟩ := hok.resolve_left Bool.false_ne_true
      have hnew : ∀ p mem', createProducer e isExplicit q.mem = some (p, mem') → ∃ p', p = some p' ∧
          p'.isExplicit = isExplicit ∧ p'.size = 0 ∧ Traffic e ∅ ∅ q.mem mem' ∧
          Founded e N mem' ∅ p' := fun p mem' hcreate =>
        founded_of_create h.arranged.accounted hpool hm hm' hcreate
      obtain ⟨B', hB'⟩ := h.arranged.recycleOrCreateProducer Founded.local hstep
        fun p mem' hcreate => by
          obtain ⟨p', rfl, -, -, htraffic, hfounded⟩ := hnew p mem' hcreate
          exact ⟨htraffic, fun p₁ hp₁ => Option.some.inj hp₁ ▸ hfounded⟩
      simp only [Queue.recycleOrCreateProducer, hfind, bind_eq_bind,
        Option.bind_eq_some_iff] at hstep
      obtain ⟨⟨p, mem'⟩, hcreate, hstep⟩ := hstep
      obtain ⟨p', rfl, hkind, hsize, -⟩ := hnew p mem' hcreate
      cases hstep
      have hcount : ∀ b, number b (⟨mem', q.producers ++ [⟨p', false⟩]⟩ : Queue e.bits α) =
          q.number b + if isExplicit = b then 1 else 0 := by
        intro b
        rw [number, List.countP_append, number, List.countP_singleton, hkind]
        simp only [beq_iff_eq]
      refine ⟨B', hB', ?_, ?_, ?_⟩
      · have hsum : Queue.elements (⟨mem', q.producers ++ [⟨p', false⟩]⟩ : Queue e.bits α) =
            q.elements := by
          rw [Queue.elements, List.map_append, List.sum_append, Queue.elements, List.map_singleton,
            List.sum_singleton, hsize, Nat.add_zero]
        rw [hsum]
        exact h.elements
      · rw [hcount]
        have := h.explicit
        cases isExplicit with
        | true => exact hlt
        | false => simpa using this
      · rw [hcount]
        have := h.implicit
        cases isExplicit with
        | true => simpa using this
        | false => exact hlt

theorem Stocked.step (h : Stocked e N E I q B) (hN : Roomy e N)
    (hpool : e.initialBlockPoolSize = blockCount e N E I)
    (hindex : e.initialBlockPoolSize ≤ e.IMPLICIT_INITIAL_INDEX_SIZE) {op : Op e.bits α}
    {r : Reply α} (hstep : step e op q = some (q', r)) (hok : Planned e N E I q op r) :
    ∃ B', Stocked e N E I q' B' := by
  cases op with
  | acquire isExplicit =>
      obtain ⟨⟨q₁, i⟩, hacquire, heq⟩ := Option.map_eq_some_iff.mp hstep
      obtain ⟨rfl, -⟩ := Prod.mk.inj heq
      exact h.acquire hindex hacquire hok
  | release i =>
      cases hstep
      exact ⟨B, h.setInactive i true⟩
  | call i c =>
      obtain ⟨⟨q₁, o⟩, hcall, heq⟩ := Option.map_eq_some_iff.mp hstep
      obtain ⟨rfl, -⟩ := Prod.mk.inj heq
      obtain ⟨x, hx⟩ : ∃ x, q.producers[i]? = some x := by
        rw [Queue.call, bind_eq_bind, Option.bind_eq_some_iff] at hcall
        obtain ⟨x, hx, -⟩ := hcall
        exact ⟨x, hx⟩
      obtain ⟨q₂, o₂, hcall₂, hstocked, -⟩ := h.call hN hpool hx hok.1 hok.2
      obtain ⟨rfl, -⟩ := Prod.mk.inj (Option.some.inj (hcall.symm.trans hcall₂))
      exact hstocked

theorem stocked_of_reached (hN : Roomy e N) (hpool : e.initialBlockPoolSize = blockCount e N E I)
    (hindex : e.initialBlockPoolSize ≤ e.IMPLICIT_INITIAL_INDEX_SIZE)
    (hq : Reached e (Planned e N E I) q) : ∃ B, Stocked e N E I q B := by
  induction hq with
  | create hmem => exact ⟨_, arranged_create hmem, Nat.zero_le _, Nat.zero_le _, Nat.zero_le _⟩
  | step _ hstep hok ih =>
      obtain ⟨B, hB⟩ := ih
      exact hB.step hN hpool hindex hstep hok

/-- **The blocks that the constructor allocates are enough**: in every run within the numbers that
it was given, every enqueue succeeds, and the allocator is not asked for a block or an index. -/
theorem preallocation_suffices (hN : Roomy e N)
    (hpool : e.initialBlockPoolSize = blockCount e N E I)
    (hindex : e.initialBlockPoolSize ≤ e.IMPLICIT_INITIAL_INDEX_SIZE)
    (hq : Reached e (Planned e N E I) q) (hx : q.producers[i]? = some x) {c : Call e.bits α}
    (henq : c.isEnqueue = true) (hquiet : c.Quiet) (hroom : q.elements + c.values.length ≤ N) :
    ∃ q', step e (.call i c) q = some (q', .outcome (.pushed (.returned true))) ∧
      q'.mem.mallocs = q.mem.mallocs ∧ q'.mem.created = q.mem.created := by
  obtain ⟨B, hB⟩ := stocked_of_reached hN hpool hindex hq
  obtain ⟨q', o, hcall, -, hdone⟩ := hB.call hN hpool hx hquiet fun _ => hroom
  obtain ⟨rfl, hmallocs, hcreated⟩ := hdone henq
  exact ⟨q', by rw [Queue.step, hcall, map_some], hmallocs, hcreated⟩

/-! ### One implicit producer -/

open Explicit (tiny safe unused)

/-- A queue with one producer, an implicit one. -/
def single (st : Implicit.State e.bits α) : Queue e.bits α := ⟨st.mem, [⟨.implicit st.prod, false⟩]⟩

section Single

variable {st st' : Implicit.State e.bits α} {v : Implicit.View} {l : List α}

theorem step_single {c : Call e.bits α} {o : Outcome α} (h : Implicit.step e c st = some (st', o)) :
    step e (.call 0 c) (single st) = some (single st', .outcome o) := by
  rw [step, single, Queue.call, List.getElem?_cons_zero, bind_eq_bind, Option.bind_some,
    callProducer, h]
  rfl

theorem elements_single (h : Implicit.Inv e st v l) : (single st).elements = l.length := by
  rw [Queue.elements, single, List.map_singleton, List.sum_singleton]
  exact h.size_eq

/-- The queue with its first producer, whose index has room for the whole pool. -/
theorem exists_single (hindex : e.initialBlockPoolSize ≤ e.IMPLICIT_INITIAL_INDEX_SIZE)
    (hm : ∀ n, e.mallocOk n = true) (N : Nat) :
    ∃ (st : Implicit.State e.bits Nat) (v : Implicit.View),
      Reached e (Planned e N 0 1) (single st) ∧ Implicit.Inv e st v [] ∧ v.s = v.t ∧
      st.prod.blockIndex.isSome = true ∧ e.initialBlockPoolSize ≤ 2 ^ v.k ∧
      st.mem.freeBlocks e = e.initialBlockPoolSize := by
  have hblank : Blank e unused := ⟨rfl, rfl, rfl, rfl, fun _ _ => rfl, fun _ _ => rfl⟩
  have hmalloc : Traffic e ∅ ∅ unused { unused with mallocs := 1 } :=
    (Within.mallocs _).traffic ⟨Implicit.unused_accounted e, Set.empty_subset _⟩
  obtain ⟨st, v, hcreate, hinv, hst, hindexed, hk, m, hmem⟩ :=
    Implicit.create_pooled hmalloc.has.accounted hindex (hm _)
  have hmade : createProducer e false unused = some (some (.implicit st.prod), st.mem) := by
    simp only [createProducer, Mem.malloc, hm, Bool.false_eq_true, if_false]
    rw [show unused.mallocs + 1 = 1 from rfl, hcreate, map_some]
  have hacquire : step e (.acquire false) ⟨unused, []⟩ =
      some (single st, .producer (some 0)) := by
    rw [step, recycleOrCreateProducer, hmade]
    rfl
  exact ⟨st, v, (Reached.create hblank).step hacquire (.inr ⟨hm _, hm _, Nat.one_pos⟩), hinv, hst,
    hindexed, hk, by rw [hmem]; rfl⟩

end Single

/-- **Without leeway for a block more, the capacity is not reached**: the producer takes the blocks
that end less than half of the index range after its head, and no other one. -/
theorem leeway_exhausted (hmax : e.MAX_SUBQUEUE_SIZE = e.sizeMax)
    (hB : e.BLOCK_SIZE < 2 ^ (e.bits - 1)) (hN : 2 ^ (e.bits - 1) < N + e.BLOCK_SIZE)
    (hpool : e.initialBlockPoolSize = blockCount e N 0 1)
    (hindex : e.initialBlockPoolSize ≤ e.IMPLICIT_INITIAL_INDEX_SIZE)
    (hm : ∀ n, e.mallocOk n = true) (x : Nat) :
    ∃ q : Queue e.bits Nat, Reached e (Planned e N 0 1) q ∧
      q.elements = 2 ^ (e.bits - 1) - e.BLOCK_SIZE ∧
      ∃ q', step e (.call 0 (.enqueue .cannotAlloc safe x)) q =
        some (q', .outcome (.pushed (.returned false))) := by
  obtain ⟨n, hn⟩ : ∃ n, n + e.BLOCK_SIZE = 2 ^ (e.bits - 1) := ⟨_, Nat.sub_add_cancel hB.le⟩
  have hdvd : e.BLOCK_SIZE ∣ n := by
    have hpow : e.BLOCK_SIZE ∣ 2 ^ (e.bits - 1) := pow_dvd_pow 2 (by have := e.blockLog_lt; omega)
    rw [← hn] at hpow
    exact (Nat.dvd_add_left dvd_rfl).mp hpow
  have hblocks : (n - 1) / e.BLOCK_SIZE + 2 ≤ e.initialBlockPoolSize := by
    have hdiv : (n - 1) / e.BLOCK_SIZE ≤ (N - 1) / e.BLOCK_SIZE := Nat.div_le_div_right (by omega)
    rw [hpool, blockCount_eq (by omega)]
    omega
  obtain ⟨st, v, hq, hinv, hst, hindexed, hk, hfree⟩ := exists_single hindex hm N
  -- the elements that fill these blocks are taken
  let c : Call e.bits Nat := .enqueueBulk .cannotAlloc safe (List.replicate n x)
  have hlen : ([] ++ c.values).length = n := List.length_replicate
  have hquiet : c.Quiet := ⟨fun _ _ => rfl, rfl⟩
  rw [List.length_append] at hlen
  obtain ⟨st', v', hstep, hinv', hhead, -⟩ :=
    hinv.enqueue_pooled ⟨hmax, by omega, hn.le⟩ rfl hquiet hlen.le hindexed
      (by rw [hlen]; exact hblocks.trans hk) (by rw [hlen, hfree]; omega)
  rw [← List.length_append] at hlen
  -- the next one would need another block
  have hfull : v'.tail % e.BLOCK_SIZE = 0 := by
    have hlen₀ := hinv.len
    have hold := hinv.oldest.1
    have hnew := hinv.newest.1
    rw [List.length_nil] at hlen₀
    rw [← hst] at hnew
    rw [← hinv'.len, hlen, hhead, show v.head = v.s * e.BLOCK_SIZE by omega,
      Nat.mul_add_mod_self_right]
    exact Nat.mod_eq_zero_of_dvd hdvd
  obtain ⟨st'', hrefused⟩ :=
    hinv'.enqueue_refused hmax hfull (by rw [hlen, hn]) .cannotAlloc safe x
  refine ⟨_, hq.step (step_single hstep) ⟨hquiet, fun _ => ?_⟩, ?_, _, step_single hrefused⟩
  · rw [elements_single hinv, ← List.length_append, hlen]
    omega
  · rw [elements_single hinv', hlen]
    omega

/-! ### Examples -/

instance (q : Queue e.bits Nat) : (op : Op e.bits Nat) → (r : Reply Nat) →
    Decidable (Planned e N E I q op r)
  | .acquire _, _ => inferInstanceAs (Decidable (_ ∨ _))
  | .release _, _ => inferInstanceAs (Decidable True)
  | .call _ _, _ => inferInstanceAs (Decidable (_ ∧ _))

/-- One explicit and one implicit producer for four elements; after the producers and their
indices nothing more can be allocated. -/
def four : Env :=
  { tiny [4] with
    implicitIndexLog := 3
    implicitIndexLog_pos := by decide
    implicitIndexLog_lt := by decide
    initialBlockPoolSize := 6
    mallocOk := fun n => n < 4
    poolSize_lt := by decide }

theorem preallocation_suffices_four : ∃ q : Queue four.bits Nat,
    Reached four (Planned four 4 1 1) q ∧ q.elements = 2 ∧
    ∃ q', step four (.call 1 (.enqueueBulk .cannotAlloc safe [7, 8])) q =
        some (q', .outcome (.pushed (.returned true))) ∧
      q'.mem.mallocs = q.mem.mallocs ∧ q'.mem.created = q.mem.created := by
  obtain ⟨q, hq, hobs⟩ := exists_reached four (Planned four 4 1 1)
    [.acquire true, .acquire false, .call 0 (.enqueueBulk .cannotAlloc safe [1, 2, 3, 4]),
      .call 0 (.dequeueBulk 3#8 none), .call 1 (.enqueueBulk .cannotAlloc safe [5, 6]),
      .call 1 (.dequeue false)]
    (fun q => (q.elements, q.producers.length)) (y := (2, 2)) (by decide +kernel)
  obtain ⟨helements, hlen⟩ := Prod.mk.inj hobs
  obtain ⟨x, hx⟩ : ∃ x, q.producers[1]? = some x := ⟨_, List.getElem?_eq_getElem (by omega)⟩
  exact ⟨q, hq, helements, preallocation_suffices ⟨by decide, by decide, by decide⟩ (by decide)
    (by decide) hq hx rfl ⟨by decide, rfl⟩ (by rw [helements]; decide)⟩

/-- Indices of 16 bits and blocks of an eighth of their range; the pool is that for one implicit
producer and three blocks and one element. -/
def eighth : Env where
  bits := 16
  blockLog := 13
  explicitIndexLog := 3
  implicitIndexLog := 3
  EXPLICIT_BLOCK_EMPTY_COUNTER_THRESHOLD := 32
  maxSubqueueSize := BitVec.allOnes 16
  RECYCLE_ALLOCATED_BLOCKS := false
  blockLog_pos := by decide
  blockLog_lt := by decide
  explicitIndexLog_pos := by decide
  explicitIndexLog_lt := by decide
  implicitIndexLog_pos := by decide
  implicitIndexLog_lt := by decide
  initialBlockPoolSize := 5
  mallocOk := fun _ => true
  poolSize_lt := by decide

/-- The last element would take the fourth block, which ends half of the index range after the
head. -/
theorem leeway_before_capacity : eighth.initialBlockPoolSize = blockCount eighth 24577 0 1 ∧
    eighth.initialBlockPoolSize ≤ eighth.IMPLICIT_INITIAL_INDEX_SIZE ∧
    eighth.MAX_SUBQUEUE_SIZE = eighth.sizeMax ∧
    ∃ q : Queue eighth.bits Nat, Reached eighth (Planned eighth 24577 0 1) q ∧
      q.elements = 24576 ∧ ∃ q', step eighth (.call 0 (.enqueue .cannotAlloc safe 0)) q =
        some (q', .outcome (.pushed (.returned false))) :=
  ⟨by decide, by decide, by decide, leeway_exhausted (by decide) (by decide) (by decide) (by decide)
    (by decide) (fun _ => rfl) 0⟩

end Queue

end Whole

end ConcurrentQueue
