import ConcurrentQueue.Queue

/-!
# ConcurrentQueue.QueueBlocks

**Every block is in exactly one place**: in the unissued part of the initial pool, on the free
list, on the circular list of one explicit producer, or in one entry of the index of one
implicit producer. The invariant divides the blocks in use among the producers
(`Arranged`); a call moves blocks between its producer and the memory and leaves those of all
others as they are.

Where blocks are does not depend on what explicit producers have in them or on their index.
Their destructor does, so that the queue can be destroyed is shown for runs whose calls on
explicit producers are `Clean`, and fails without that.
-/

namespace ConcurrentQueue

open Function
open Option (bind_eq_bind bind_eq_some_iff map_eq_some_iff)

variable {α : Type} {e : Env}

theorem Mem.created_addBlockToFreeList (b : Nat) (m : Mem α) :
    (m.addBlockToFreeList e b).created = m.created := by
  unfold Mem.addBlockToFreeList
  split <;> rfl

/-! ### The index of an implicit producer -/

/-- Block `b` stands in a slot of the index. -/
def Implicit.Holds {w : Nat} (p : Implicit.ImplicitProducer w) (slot b : Nat) : Prop :=
  ∃ h x, p.blockIndex = some h ∧ slot < h.capacity.toNat ∧ h.index slot = some x ∧
    x.key ≠ Implicit.INVALID_BLOCK_BASE ∧ x.value = some (some b)

namespace Implicit

open Wrap

variable {st : State e.bits α} {v : View} {l : List α} {m : Mem α}

theorem Inv.holds_iff (h : Inv e st v l) (slot b : Nat) :
    Holds st.prod slot b ↔
      ∃ q, v.s ≤ q ∧ q < v.t ∧ slot = (v.c + q) % 2 ^ v.k ∧ b = v.β q := by
  rcases h.stock.index with ⟨hnone, hst⟩ | ⟨hdr, hhdr, -, hi⟩
  · constructor
    · rintro ⟨hdr, x, hhdr, -⟩
      rw [hnone] at hhdr
      cases hhdr
    · rintro ⟨q, hs, ht, -⟩
      omega
  · have hcap : hdr.capacity.toNat = 2 ^ v.k := by
      rw [hi.capacity, BitVec.toNat_ofNat,
        Nat.mod_eq_of_lt (Nat.pow_lt_pow_right (by omega) hi.klt)]
    constructor
    · rintro ⟨hdr', x, hhdr', hlt, hx, hkey, hvalue⟩
      obtain rfl := Option.some.inj (hhdr.symm.trans hhdr')
      -- the slot is that of one of `2 ^ k` consecutive blocks
      obtain ⟨q, hs, hq, rfl⟩ := exists_mod_eq (hcap ▸ hlt) v.c v.s
      rcases Nat.lt_or_ge q v.t with ht | ht
      · obtain rfl := Option.some.inj ((hi.entries q hs ht).symm.trans hx)
        exact ⟨q, hs, ht, rfl, (Option.some.inj (Option.some.inj hvalue)).symm⟩
      · obtain ⟨y, hy, hvacant⟩ := hi.vacant q ht hq
        obtain rfl := Option.some.inj (hy.symm.trans hx)
        rw [BlockIndexEntry.vacant, if_neg hkey, hvalue] at hvacant
        cases hvacant
    · rintro ⟨q, hs, ht, rfl, rfl⟩
      refine ⟨hdr, _, hhdr, ?_, hi.entries q hs ht, base_ne_invalid q, rfl⟩
      rw [hcap]
      exact Nat.mod_lt _ (Nat.two_pow_pos _)

theorem Inv.frame (h : Inv e st v l) (hhas : Has e (window v.β v.s v.t) m)
    (hkept : ∀ b ∈ window v.β v.s v.t, m.blocks b = st.mem.blocks b) :
    Inv e ⟨m, st.prod⟩ v l :=
  { h with
    stock := { h.stock with
      has := hhas
      held := h.stock.held.of_has hhas subset_rfl fun _ hs ht => hkept _ (mem_window hs ht) } }

theorem enterBlock_created {block : Option Nat} {i : BitVec e.bits} {b : Nat} {st' : State e.bits α}
    (h : enterBlock e block i st = some (b, st')) : st'.mem.created = st.mem.created := by
  unfold enterBlock at h
  split at h
  · simp only [bind_eq_bind, bind_eq_some_iff, Option.some.injEq] at h
    obtain ⟨slot, -, c, -, heq⟩ := h
    rw [(Prod.mk.inj heq).2]
  · split at h
    · simp only [bind_eq_bind, bind_eq_some_iff, Option.some.injEq] at h
      obtain ⟨slot, -, c, -, heq⟩ := h
      rw [← (Prod.mk.inj heq).2]
      exact Mem.created_addBlockToFreeList ..
    · rw [(Prod.mk.inj (Option.some.inj h)).2]

theorem destroyElements_created {tail : BitVec e.bits} {fuel : Nat} {block : Option Nat}
    {i : BitVec e.bits} {xs : List α} {st' : State e.bits α}
    (h : destroyElements e tail fuel block i st = some (xs, st')) :
    st'.mem.created = st.mem.created := by
  induction fuel generalizing block i xs st with
  | zero => cases h
  | succ fuel ih =>
      rw [destroyElements] at h
      split at h
      · rw [(Prod.mk.inj (Option.some.inj h)).2]
      · simp only [bind_eq_bind, bind_eq_some_iff] at h
        obtain ⟨⟨b, st₁⟩, henter, ⟨x, b'⟩, -, ⟨ys, st₂⟩, hrest, heq⟩ := h
        cases heq
        have hsame := enterBlock_created henter
        exact (ih hrest).trans hsame

/-- The destructor makes no block. -/
theorem destroy_created {xs : List α} (h : destroy e st = some (xs, m)) :
    m.created = st.mem.created := by
  unfold destroy at h
  dsimp only at h
  split at h
  · rw [bind_eq_bind, bind_eq_some_iff] at h
    obtain ⟨⟨ys, st₁⟩, hwalk, h⟩ := h
    rw [← destroyElements_created hwalk]
    split at h
    · rw [(Prod.mk.inj (Option.some.inj h)).2]
    · split at h
      · rw [← (Prod.mk.inj (Option.some.inj h)).2]
        exact Mem.created_addBlockToFreeList ..
      · rw [(Prod.mk.inj (Option.some.inj h)).2]
  · cases h

end Implicit

namespace Explicit

theorem destroyElements_created {p : ExplicitProducer e.bits} {half : Option Nat} {fuel b : Nat}
    {xs : List α} {mem mem' : Mem α}
    (h : destroyElements e p half fuel b mem = some (xs, mem')) : mem'.created = mem.created := by
  induction fuel generalizing b xs mem with
  | zero => cases h
  | succ fuel ih =>
      simp only [destroyElements, bind_eq_bind, bind_eq_some_iff] at h
      obtain ⟨c, -, ⟨ys, mem₁⟩, hblock, h⟩ := h
      have hsame := (destroyBlock_within (Set.mem_univ c) hblock).created_eq
      split at h
      · rw [← (Prod.mk.inj (Option.some.inj h)).2, hsame]
      · simp only [bind_eq_some_iff] at h
        obtain ⟨⟨zs, mem₂⟩, hrest, heq⟩ := h
        cases heq
        exact (ih hrest).trans hsame

theorem releaseBlocks_created {tailBlock : Option Nat} {fuel b : Nat} {mem mem' : Mem α}
    (h : releaseBlocks e tailBlock fuel b mem = some mem') : mem'.created = mem.created := by
  induction fuel generalizing b mem with
  | zero => cases h
  | succ fuel ih =>
      simp only [releaseBlocks, bind_eq_bind, bind_eq_some_iff] at h
      obtain ⟨c, -, h⟩ := h
      split at h
      · rw [← Option.some.inj h]
        exact Mem.created_addBlockToFreeList ..
      · exact (ih h).trans (Mem.created_addBlockToFreeList ..)

/-- The destructor makes no block. -/
theorem destroy_created {st : State e.bits α} {xs : List α} {m : Mem α}
    (h : destroy e st = some (xs, m)) : m.created = st.mem.created := by
  unfold destroy at h
  dsimp only at h
  split at h
  · rw [(Prod.mk.inj (Option.some.inj h)).2]
  · simp only [bind_eq_bind, bind_eq_some_iff] at h
    obtain ⟨half, -, ⟨ys, mem₁⟩, hwalk, mem₂, hrelease, heq⟩ := h
    rw [← (Prod.mk.inj (Option.some.inj heq)).2]
    exact (releaseBlocks_created hrelease).trans (destroyElements_created hwalk)

end Explicit

namespace Whole.Queue

/-! ### What each producer has -/

/-- The producer has the blocks `A`, and if `strict` it is in order. -/
def Keeps (e : Env) (strict : Prop) (mem : Mem α) (A : Set Nat) : Producer e.bits → Prop
  | .explicit p =>
      Explicit.Owns e A ⟨mem, p⟩ ∧ (strict → ∃ v l, Explicit.Inv e ⟨mem, p⟩ v l)
  | .implicit p => ∃ v l, Implicit.Inv e ⟨mem, p⟩ v l ∧ window v.β v.s v.t = A

/-- What is asked of a call: on an implicit producer the number of blocks of a bulk call must
not wrap, and if `strict` a call on an explicit one must fail or throw cleanly. -/
def CallOk (e : Env) (strict : Prop) (mem : Mem α) (c : Call e.bits α) (o : Outcome α) :
    Producer e.bits → Prop
  | .explicit p => strict → Explicit.Clean e ⟨mem, p⟩ c o
  | .implicit p =>
      match c with
      | .enqueueBulk _ _ xs => Fits e p.tailIndex xs.length
      | .enqueue .. | .dequeue _ | .dequeueBulk .. => True

variable {strict : Prop} {mem mem' : Mem α} {A A' : Set Nat} {p : Producer e.bits}

theorem Keeps.frame (h : Keeps e strict mem A p) (hhas : Has e A mem')
    (hkept : ∀ b ∈ A, mem'.blocks b = mem.blocks b) : Keeps e strict mem' A p := by
  cases p with
  | explicit p =>
      obtain ⟨howns, hinv⟩ := h
      refine ⟨howns.frame hhas hkept, fun hstrict => ?_⟩
      obtain ⟨v, l, hinv⟩ := hinv hstrict
      exact ⟨v, l, hinv.frame howns hhas hkept⟩
  | implicit p =>
      obtain ⟨v, l, hinv, rfl⟩ := h
      exact ⟨v, l, hinv.frame hhas hkept, rfl⟩

theorem Keeps.call (h : Keeps e strict mem A p) {c : Call e.bits α} {p' : Producer e.bits}
    {o : Outcome α} (hcall : callProducer e c p mem = some (p', mem', o))
    (hok : CallOk e strict mem c o p) :
    ∃ A', Traffic e A A' mem mem' ∧ Keeps e strict mem' A' p' := by
  cases p with
  | explicit p =>
      obtain ⟨⟨st', o'⟩, hstep, heq⟩ := map_eq_some_iff.mp hcall
      simp only [Prod.mk.injEq] at heq
      obtain ⟨rfl, rfl, rfl⟩ := heq
      obtain ⟨howns, hinv⟩ := h
      obtain ⟨A', hgains⟩ := howns.step hstep
      refine ⟨A', hgains.traffic, hgains.owns, fun hstrict => ?_⟩
      obtain ⟨v, l, hinv⟩ := hinv hstrict
      obtain ⟨-, v', hinv'⟩ := hinv.step hstep (hok hstrict)
      exact ⟨v', _, hinv'⟩
  | implicit p =>
      obtain ⟨⟨st', o'⟩, hstep, heq⟩ := map_eq_some_iff.mp hcall
      simp only [Prod.mk.injEq] at heq
      obtain ⟨rfl, rfl, rfl⟩ := heq
      obtain ⟨v, l, hinv, rfl⟩ := h
      have hsized : Sized e p.tailIndex c := by
        cases c with
        | enqueueBulk mode ctor xs =>
            refine ⟨hok, fun hnil => by_contra fun hB => ?_⟩
            rw [Implicit.step, hnil, hinv.enqueueBulk_nil_eq_none hB] at hstep
            cases hstep
        | enqueue mode ctor x => trivial
        | dequeue throws => trivial
        | dequeueBulk max throwsAt => trivial
      obtain ⟨st₁, v', o₁, hcall', -, hinv', htraffic, -⟩ := hinv.call c hsized
      obtain ⟨rfl, rfl⟩ := Prod.mk.inj (Option.some.inj (hstep.symm.trans hcall'))
      exact ⟨_, htraffic, v', _, hinv', rfl⟩

/-- A new producer has no block. -/
theorem keeps_of_create (strict : Prop) (hmem : mem.Accounted e) {isExplicit : Bool}
    {r : Option (Producer e.bits)} (h : createProducer e isExplicit mem = some (r, mem')) :
    Traffic e ∅ ∅ mem mem' ∧ ∀ p, r = some p → Keeps e strict mem' ∅ p := by
  have hhas : Has e ∅ mem := ⟨hmem, Set.empty_subset _⟩
  have hmalloc : Traffic e ∅ ∅ mem { mem with mallocs := mem.mallocs + 1 } :=
    (Within.mallocs _).traffic hhas
  cases hok : e.mallocOk mem.mallocs with
  | false =>
      simp only [createProducer, Mem.malloc, hok] at h
      cases h
      exact ⟨hmalloc, fun p hp => by cases hp⟩
  | true =>
      simp only [createProducer, Mem.malloc, hok] at h
      cases isExplicit with
      | true =>
          obtain ⟨st, hcreate, heq⟩ := map_eq_some_iff.mp h
          obtain ⟨rfl, rfl⟩ := Prod.mk.inj heq
          obtain ⟨howns, htraffic⟩ := Explicit.create_owns hmalloc.has.accounted hcreate
          refine ⟨hmalloc.trans htraffic, fun p hp => ?_⟩
          obtain rfl := Option.some.inj hp
          obtain ⟨st', v, hcreate', hinv⟩ :=
            Explicit.create_inv hmalloc.has.accounted.wellFormed
          obtain rfl := Option.some.inj (hcreate.symm.trans hcreate')
          exact ⟨howns, fun _ => ⟨v, [], hinv⟩⟩
      | false =>
          obtain ⟨st, hcreate, heq⟩ := map_eq_some_iff.mp h
          obtain ⟨rfl, rfl⟩ := Prod.mk.inj heq
          obtain ⟨st', v, hcreate', hinv, hst, n, hmem'⟩ :=
            Implicit.create_inv hmalloc.has.accounted
          obtain rfl := Option.some.inj (hcreate.symm.trans hcreate')
          have hnone : window v.β v.s v.t = ∅ := by rw [hst, window_self]
          have hsame : Traffic e ∅ ∅ _ st.mem :=
            (hmem' ▸ Within.mallocs n : Within e ∅ _ st.mem).traffic hmalloc.has
          refine ⟨hmalloc.trans hsame, fun p hp => ?_⟩
          obtain rfl := Option.some.inj hp
          exact ⟨v, [], hinv, hnone⟩

/-! ### All producers -/

/-- What is said of a producer with the blocks `A` by `K` does not depend on other blocks. -/
def Local (e : Env) (K : Mem α → Set Nat → Producer e.bits → Prop) : Prop :=
  ∀ {mem mem' A p}, K mem A p → Has e A mem' → (∀ b ∈ A, mem'.blocks b = mem.blocks b) →
    K mem' A p

/-- Producer number `i` has the blocks `A i`, of which `K` holds, and these are all that are
in use. -/
structure Arranged (e : Env) (K : Mem α → Set Nat → Producer e.bits → Prop) (q : Queue e.bits α)
    (A : Nat → Set Nat) : Prop where
  accounted : q.mem.Accounted e
  divided : Custody.Divided (q.mem.InUse e) A
  keeps : ∀ i x, q.producers[i]? = some x → K q.mem (A i) x.producer
  beyond : ∀ i, q.producers.length ≤ i → A i = ∅
  heap : ∀ b ∈ q.mem.destroyed, e.initialBlockPoolSize ≤ b

variable {q q' : Queue e.bits α} {B : Nat → Set Nat}

section Arranged

variable {K : Mem α → Set Nat → Producer e.bits → Prop}

theorem arranged_create (hmem : Blank e mem) : Arranged e K ⟨mem, []⟩ fun _ => ∅ := by
  have hdestroyed : ∀ b, b ∉ mem.destroyed := fun b => by
    rw [hmem.destroyed]
    exact List.not_mem_nil
  refine ⟨⟨⟨?_, ?_, fun b _ i => hmem.vacant b i⟩, ?_, fun b hb => absurd hb (hdestroyed b),
    fun b _ i => hmem.vacant b i, fun b i _ => hmem.vacant b i, fun b hb => ?_⟩,
    ⟨fun i j b hb => hb.elim, fun b => ⟨fun hb => ?_, fun ⟨_, hb⟩ => hb.elim⟩⟩,
    fun i x hx => ?_, fun _ _ => rfl, fun b hb => absurd hb (hdestroyed b)⟩
  · rw [hmem.freeList]
    exact List.nodup_nil
  · rw [hmem.freeList]
    exact fun b hb => absurd hb List.not_mem_nil
  · rw [hmem.destroyed]
    exact List.nodup_nil
  · rw [hmem.created] at hb
    rw [hmem.pooled b hb, decide_eq_false (by omega)]
  · -- every block is unissued
    refine absurd ?_ hb.1
    rcases Nat.lt_or_ge b e.initialBlockPoolSize with hlt | hge
    · exact .inl ⟨by rw [hmem.initialBlockPoolIndex]; exact Nat.zero_le b, hlt⟩
    · exact .inr (.inr (by rw [hmem.created]; exact hge))
  · rw [List.getElem?_nil] at hx
    cases hx

/-- Producer number `i` goes from the blocks `B i` to the blocks `A'`; the others stay. -/
theorem Arranged.move (h : Arranged e K q B) (hlocal : Local e K) {i : Nat}
    (htraffic : Traffic e (B i) A' q.mem mem') {producers : List (Listed e.bits)}
    (hself : ∀ x, producers[i]? = some x → K mem' A' x.producer)
    (hother : ∀ j x, j ≠ i → producers[j]? = some x →
      ∃ y, q.producers[j]? = some y ∧ x.producer = y.producer)
    (hlen : ∀ j, j ≠ i → producers.length ≤ j → q.producers.length ≤ j)
    (hbeyond : producers.length ≤ i → A' = ∅) :
    Arranged e K ⟨mem', producers⟩ (update B i A') := by
  have hdivided := h.divided.move htraffic.moves
  refine ⟨htraffic.has.accounted, hdivided, fun j x hx => ?_, fun j hj => ?_, fun b hb => ?_⟩
  · by_cases hji : j = i
    · subst hji
      rw [update_self]
      exact hself x hx
    · obtain ⟨y, hy, hxy⟩ := hother j x hji hx
      rw [update_of_ne hji, hxy]
      have hsub := hdivided.subset j
      rw [update_of_ne hji] at hsub
      exact hlocal (h.keeps j y hy) ⟨htraffic.has.accounted, hsub⟩ fun b hb =>
        h.divided.kept htraffic.moves hji hb
  · by_cases hji : j = i
    · subst hji
      rw [update_self]
      exact hbeyond hj
    · rw [update_of_ne hji]
      exact h.beyond j (hlen j hji hj)
  · exact (htraffic.scrapped b hb).elim (h.heap b) id

theorem Arranged.setInactive (h : Arranged e K q B) (i : Nat) (b : Bool) :
    Arranged e K (q.setInactive i b) B := by
  refine ⟨h.accounted, h.divided, fun j x hx => ?_, fun j hj => h.beyond j ?_, h.heap⟩
  · simp only [Queue.setInactive, List.getElem?_modify, Option.map_eq_map,
      map_eq_some_iff] at hx
    obtain ⟨y, hy, rfl⟩ := hx
    have hkeeps := h.keeps j y hy
    split
    · exact hkeeps
    · exact hkeeps
  · simpa only [Queue.setInactive, List.length_modify] using hj

theorem Arranged.recycleOrCreateProducer (h : Arranged e K q B) (hlocal : Local e K)
    {isExplicit : Bool} {r : Option Nat}
    (hstep : recycleOrCreateProducer e isExplicit q = some (q', r))
    (hnew : ∀ p mem', createProducer e isExplicit q.mem = some (p, mem') →
      Traffic e ∅ ∅ q.mem mem' ∧ ∀ p', p = some p' → K mem' ∅ p') :
    ∃ B', Arranged e K q' B' := by
  unfold Queue.recycleOrCreateProducer at hstep
  split at hstep
  · cases hstep
    exact ⟨B, h.setInactive ..⟩
  · rw [bind_eq_bind, bind_eq_some_iff] at hstep
    obtain ⟨⟨p, mem'⟩, hcreate, hstep⟩ := hstep
    obtain ⟨htraffic, hkeeps⟩ := hnew p mem' hcreate
    rw [← h.beyond q.producers.length le_rfl] at htraffic
    cases p with
    | none =>
        cases hstep
        refine ⟨_, h.move hlocal htraffic (fun x hx => ?_) (fun j x _ hx => ⟨x, hx, rfl⟩)
          (fun _ _ hj => hj) fun _ => h.beyond _ le_rfl⟩
        rw [List.getElem?_eq_none le_rfl] at hx
        cases hx
    | some p =>
        cases hstep
        refine ⟨_, h.move hlocal htraffic (fun x hx => ?_) (fun j x hj hx => ?_)
          (fun j _ hj => ?_) fun _ => h.beyond _ le_rfl⟩
        · rw [List.getElem?_concat_length] at hx
          obtain rfl := Option.some.inj hx
          rw [h.beyond _ le_rfl]
          exact hkeeps p rfl
        · have hlt : j < q.producers.length := by
            have := (List.getElem?_eq_some_iff.mp hx).1
            rw [List.length_append, List.length_singleton] at this
            omega
          rw [List.getElem?_append_left hlt] at hx
          exact ⟨x, hx, rfl⟩
        · rw [List.length_append] at hj
          omega

theorem Arranged.call (h : Arranged e K q B) (hlocal : Local e K) {i : Nat} {c : Call e.bits α}
    {o : Outcome α} (hstep : q.call e i c = some (q', o))
    (hcall : ∀ x p' mem', q.producers[i]? = some x →
      callProducer e c x.producer q.mem = some (p', mem', o) →
      ∃ A', Traffic e (B i) A' q.mem mem' ∧ K mem' A' p') :
    ∃ B', Arranged e K q' B' := by
  simp only [Queue.call, bind_eq_bind, bind_eq_some_iff] at hstep
  obtain ⟨x, hx, ⟨p', mem', o'⟩, hprod, hstep⟩ := hstep
  cases hstep
  have hlt := (List.getElem?_eq_some_iff.mp hx).1
  obtain ⟨A', htraffic, hp'⟩ := hcall x p' mem' hx hprod
  refine ⟨_, h.move hlocal htraffic (fun z hz => ?_) (fun j z hj hz => ?_) (fun j _ hj => ?_)
    fun hge => ?_⟩
  · rw [List.getElem?_set_self hlt] at hz
    obtain rfl := Option.some.inj hz
    exact hp'
  · rw [List.getElem?_set_ne hj.symm] at hz
    exact ⟨z, hz, rfl⟩
  · rwa [List.length_set] at hj
  · rw [List.length_set] at hge
    omega

end Arranged

theorem Keeps.local : Local e (Keeps (α := α) e strict) := fun h hhas hkept => h.frame hhas hkept

/-- What is asked of an operation. -/
def Ok (e : Env) (strict : Prop) (q : Queue e.bits α) : Op e.bits α → Reply α → Prop
  | .call i c, .outcome o =>
      match q.producers[i]? with
      | some x => CallOk e strict q.mem c o x.producer
      | none => True
  | _, _ => True

theorem Arranged.step (h : Arranged e (Keeps e strict) q B) {op : Op e.bits α} {r : Reply α}
    (hstep : step e op q = some (q', r)) (hok : Ok e strict q op r) :
    ∃ B', Arranged e (Keeps e strict) q' B' := by
  cases op with
  | acquire isExplicit =>
      obtain ⟨⟨q₁, i⟩, hacquire, heq⟩ := map_eq_some_iff.mp hstep
      obtain ⟨rfl, -⟩ := Prod.mk.inj heq
      exact h.recycleOrCreateProducer Keeps.local hacquire fun p mem' hcreate =>
        keeps_of_create strict h.accounted hcreate
  | release i =>
      cases hstep
      exact ⟨B, h.setInactive i true⟩
  | call i c =>
      obtain ⟨⟨q₁, o⟩, hcall, heq⟩ := map_eq_some_iff.mp hstep
      obtain ⟨rfl, rfl⟩ := Prod.mk.inj heq
      refine h.call Keeps.local hcall fun x p' mem' hx hprod => (h.keeps i x hx).call hprod ?_
      simpa only [Ok, hx] using hok

theorem arranged_of_reached (h : Reached e (Ok e strict) q) :
    ∃ B, Arranged e (Keeps e strict) q B := by
  induction h with
  | create hmem => exact ⟨_, arranged_create hmem⟩
  | step _ hstep hok ih =>
      obtain ⟨B, hB⟩ := ih
      exact hB.step hstep hok

/-! ### Places -/

inductive Place
  /-- The part of the initial pool that has not been handed out. -/
  | unissued
  /-- A position on the free list. -/
  | freeList (k : Nat)
  /-- The circular list of an explicit producer. -/
  | blockList (i : Nat)
  /-- A slot of the index of an implicit producer. -/
  | blockIndex (i slot : Nat)

def LiesAt (e : Env) (q : Queue e.bits α) (b : Nat) : Place → Prop
  | .unissued => q.mem.initialBlockPoolIndex ≤ b ∧ b < e.initialBlockPoolSize
  | .freeList k => q.mem.freeList[k]? = some b
  | .blockList i => ∃ x p, q.producers[i]? = some x ∧ x.producer = .explicit p ∧
      b ∈ Explicit.blockList (⟨q.mem, p⟩ : Explicit.State e.bits α)
  | .blockIndex i slot => ∃ x p, q.producers[i]? = some x ∧ x.producer = .implicit p ∧
      Implicit.Holds p slot b

variable {b i slot : Nat} {place : Place}

theorem Arranged.mem_of_blockList (h : Arranged e (Keeps e strict) q B)
    (hb : LiesAt e q b (.blockList i)) : b ∈ B i := by
  obtain ⟨x, p, hx, hp, hb⟩ := hb
  have hkeeps := h.keeps i x hx
  rw [hp] at hkeeps
  rwa [hkeeps.1.blockList_eq] at hb

theorem Arranged.mem_of_blockIndex (h : Arranged e (Keeps e strict) q B)
    (hb : LiesAt e q b (.blockIndex i slot)) : b ∈ B i := by
  obtain ⟨x, p, hx, hp, hb⟩ := hb
  have hkeeps := h.keeps i x hx
  rw [hp] at hkeeps
  obtain ⟨v, l, hinv, hwindow⟩ := hkeeps
  obtain ⟨r, hs, ht, -, rfl⟩ := (hinv.holds_iff slot b).mp hb
  rw [← hwindow]
  exact mem_window hs ht

/-- A block of an explicit producer is on its list and nowhere else. -/
theorem Arranged.place_explicit (h : Arranged e (Keeps e strict) q B) {x : Listed e.bits}
    {p : Explicit.ExplicitProducer e.bits} (hx : q.producers[i]? = some x)
    (hp : x.producer = .explicit p) (hb : b ∈ B i) : ∃! place, LiesAt e q b place := by
  have hin := h.divided.subset i hb
  refine ⟨.blockList i, ⟨x, p, hx, hp, ?_⟩, fun place hplace => ?_⟩
  · have hkeeps := h.keeps i x hx
    rw [hp] at hkeeps
    rwa [hkeeps.1.blockList_eq]
  · cases place with
    | unissued => exact absurd (.inl hplace) hin.1
    | freeList k => exact absurd (.inr (.inl (List.mem_of_getElem? hplace))) hin.1
    | blockList j => rw [h.divided.disjoint j i b (h.mem_of_blockList hplace) hb]
    | blockIndex j slot =>
        obtain rfl := h.divided.disjoint j i b (h.mem_of_blockIndex hplace) hb
        obtain ⟨y, p', hy, hp', -⟩ := hplace
        obtain rfl := Option.some.inj (hx.symm.trans hy)
        cases hp.symm.trans hp'

/-- A block of an implicit producer is in one slot of its index and nowhere else. -/
theorem Arranged.place_implicit (h : Arranged e (Keeps e strict) q B) {x : Listed e.bits}
    {p : Implicit.ImplicitProducer e.bits} (hx : q.producers[i]? = some x)
    (hp : x.producer = .implicit p) (hb : b ∈ B i) : ∃! place, LiesAt e q b place := by
  have hin := h.divided.subset i hb
  have hkeeps := h.keeps i x hx
  rw [hp] at hkeeps
  obtain ⟨v, l, hinv, hwindow⟩ := hkeeps
  rw [← hwindow] at hb
  obtain ⟨r, hs, ht, rfl⟩ := hb
  refine ⟨.blockIndex i ((v.c + r) % 2 ^ v.k),
    ⟨x, p, hx, hp, (hinv.holds_iff _ _).mpr ⟨r, hs, ht, rfl, rfl⟩⟩, fun place hplace => ?_⟩
  have hb : v.β r ∈ B i := hwindow ▸ mem_window hs ht
  cases place with
  | unissued => exact absurd (.inl hplace) hin.1
  | freeList k => exact absurd (.inr (.inl (List.mem_of_getElem? hplace))) hin.1
  | blockList j =>
      obtain rfl := h.divided.disjoint j i _ (h.mem_of_blockList hplace) hb
      obtain ⟨y, p', hy, hp', -⟩ := hplace
      obtain rfl := Option.some.inj (hx.symm.trans hy)
      cases hp.symm.trans hp'
  | blockIndex j slot =>
      obtain rfl := h.divided.disjoint j i _ (h.mem_of_blockIndex hplace) hb
      obtain ⟨y, p', hy, hp', hholds⟩ := hplace
      obtain rfl := Option.some.inj (hx.symm.trans hy)
      obtain rfl := Producer.implicit.inj (hp.symm.trans hp')
      obtain ⟨r', hs', ht', rfl, heq⟩ := (hinv.holds_iff _ _).mp hholds
      rw [hinv.stock.held.inj r r' hs ht hs' ht' heq]

/-- A block that exists and has not been destroyed is in one place, and there is no other
block in any place. -/
theorem Arranged.existsUnique_iff (h : Arranged e (Keeps e strict) q B) (b : Nat) :
    b < e.initialBlockPoolSize + q.mem.created ∧ b ∉ q.mem.destroyed ↔
      ∃! place, LiesAt e q b place := by
  have hwf := h.accounted.wellFormed
  constructor
  · rintro ⟨hlt, hnot⟩
    by_cases hfree : q.mem.Free e b
    · -- no producer has it
      have hout : ∀ i, b ∉ B i := fun i hb => (h.divided.subset i hb).1 hfree
      rcases hfree with hpool | hlist | hge
      · refine ⟨.unissued, hpool, fun place hplace => ?_⟩
        cases place with
        | unissued => rfl
        | freeList k => exact absurd hpool (hwf.listed b (List.mem_of_getElem? hplace)).2
        | blockList i => exact absurd (h.mem_of_blockList hplace) (hout i)
        | blockIndex i slot => exact absurd (h.mem_of_blockIndex hplace) (hout i)
      · obtain ⟨k, hk⟩ := List.getElem?_of_mem hlist
        refine ⟨.freeList k, hk, fun place hplace => ?_⟩
        cases place with
        | unissued => exact absurd hplace (hwf.listed b hlist).2
        | freeList k' =>
            have hk' : q.mem.freeList[k']? = some b := hplace
            obtain ⟨hlt', -⟩ := List.getElem?_eq_some_iff.mp hk'
            rw [(List.getElem?_inj hlt' hwf.nodup).mp (hk'.trans hk.symm)]
        | blockList i => exact absurd (h.mem_of_blockList hplace) (hout i)
        | blockIndex i slot => exact absurd (h.mem_of_blockIndex hplace) (hout i)
      · omega
    · obtain ⟨i, hb⟩ := (h.divided.cover b).mp ⟨hfree, hnot⟩
      have hi : i < q.producers.length := by
        by_contra hge
        rw [h.beyond i (by omega)] at hb
        exact hb
      obtain ⟨x, hx⟩ : ∃ x, q.producers[i]? = some x := ⟨_, List.getElem?_eq_getElem hi⟩
      cases hp : x.producer with
      | explicit p => exact h.place_explicit hx hp hb
      | implicit p => exact h.place_implicit hx hp hb
  · rintro ⟨place, hplace, -⟩
    have hused : ∀ i, b ∈ B i → b < e.initialBlockPoolSize + q.mem.created ∧ b ∉ q.mem.destroyed :=
      fun i hb => ⟨Mem.lt_of_inUse (h.divided.subset i hb), (h.divided.subset i hb).2⟩
    cases place with
    | unissued =>
        exact ⟨Nat.lt_of_lt_of_le hplace.2 (Nat.le_add_right ..), fun hgone =>
          h.accounted.gone b hgone (.inl hplace)⟩
    | freeList k =>
        have hlist := List.mem_of_getElem? hplace
        exact ⟨(hwf.listed b hlist).1, fun hgone => h.accounted.gone b hgone (.inr (.inl hlist))⟩
    | blockList i => exact hused i (h.mem_of_blockList hplace)
    | blockIndex i slot => exact hused i (h.mem_of_blockIndex hplace)

/-! ### Destruction -/

theorem Keeps.destroy (h : Keeps e True mem A p) :
    ∃ xs mem', destroyProducer e p mem = some (xs, mem') ∧ Traffic e A ∅ mem mem' ∧
      mem'.created = mem.created := by
  cases p with
  | explicit p =>
      obtain ⟨howns, hinv⟩ := h
      obtain ⟨v, l, hinv⟩ := hinv trivial
      obtain ⟨mem', hdestroy, htraffic⟩ := hinv.destroy_traffic
      rw [hinv.window_of_owns howns] at htraffic
      exact ⟨l, mem', hdestroy, htraffic howns.has, Explicit.destroy_created hdestroy⟩
  | implicit p =>
      obtain ⟨v, l, hinv, rfl⟩ := h
      obtain ⟨mem', hdestroy, htraffic⟩ := hinv.destroy
      exact ⟨l, mem', hdestroy, htraffic, Implicit.destroy_created hdestroy⟩

/-- The producers are destroyed one after the other, the newest first. -/
theorem Arranged.destroyProducers {producers : List (Listed e.bits)}
    (h : Arranged e (Keeps e True) (⟨mem, producers⟩ : Queue e.bits α) B) :
    ∃ mem' B', destroyProducers e (producers.reverse.map (·.producer)) mem = some mem' ∧
      Arranged e (Keeps e True) (⟨mem', []⟩ : Queue e.bits α) B' ∧ mem'.created = mem.created := by
  induction producers using List.reverseRecOn generalizing mem B with
  | nil => exact ⟨mem, B, rfl, h, rfl⟩
  | append_singleton producers x ih =>
      obtain ⟨xs, mem₁, hdestroy, htraffic, hcreated⟩ :=
        (h.keeps producers.length x List.getElem?_concat_length).destroy
      have hrest : Arranged e (Keeps e True) (⟨mem₁, producers⟩ : Queue e.bits α)
          (update B producers.length ∅) := by
        refine h.move Keeps.local htraffic (fun y hy => ?_) (fun j y _ hy => ⟨y, ?_, rfl⟩)
          (fun j hj hlen => ?_) fun _ => rfl
        · rw [List.getElem?_eq_none le_rfl] at hy
          cases hy
        · rw [List.getElem?_append_left (List.getElem?_eq_some_iff.mp hy).1]
          exact hy
        · rw [List.length_append, List.length_singleton]
          omega
      obtain ⟨mem', B', hwalk, hempty, hcreated'⟩ := ih hrest
      refine ⟨mem', B', ?_, hempty, hcreated'.trans hcreated⟩
      rw [List.reverse_append, List.reverse_singleton, List.singleton_append, List.map_cons,
        Queue.destroyProducers, hdestroy]
      exact hwalk

/-- When no producer is left, the blocks are back at the heap, on the free list, or in the
initial pool. -/
theorem Arranged.perm_range (h : Arranged e (Keeps e strict) (⟨mem, []⟩ : Queue e.bits α) B) :
    List.Perm (mem.destroyed ++
      mem.freeList.filter (fun b => (mem.blocks b).dynamicallyAllocated) ++
      List.range e.initialBlockPoolSize)
      (List.range (e.initialBlockPoolSize + mem.created)) := by
  have hwf := h.accounted.wellFormed
  have hdynamic : ∀ b ∈ mem.freeList,
      ((mem.blocks b).dynamicallyAllocated = true ↔ e.initialBlockPoolSize ≤ b) := fun b hb => by
    rw [h.accounted.dynamic b (hwf.listed b hb).1, decide_eq_true_iff]
  have hunused : ∀ b, b ∉ mem.InUse e := fun b hb => by
    obtain ⟨i, hi⟩ := (h.divided.cover b).mp hb
    rw [h.beyond i (Nat.zero_le i)] at hi
    exact hi
  rw [List.perm_ext_iff_of_nodup]
  · intro b
    simp only [List.mem_append, List.mem_filter, List.mem_range]
    constructor
    · rintro ((hb | ⟨hb, -⟩) | hb)
      · by_contra hge
        exact h.accounted.gone b hb (.inr (.inr (Nat.le_of_not_lt hge)))
      · exact (hwf.listed b hb).1
      · omega
    · intro hb
      rcases Nat.lt_or_ge b e.initialBlockPoolSize with hlt | hge
      · exact .inr hlt
      · refine .inl ?_
        by_cases hgone : b ∈ mem.destroyed
        · exact .inl hgone
        · have hfree : mem.Free e b := by_contra fun hfree => hunused b ⟨hfree, hgone⟩
          rcases hfree with hpool | hlist | hnew
          · omega
          · exact .inr ⟨hlist, (hdynamic b hlist).mpr hge⟩
          · omega
  · refine List.nodup_append.mpr ⟨List.nodup_append.mpr ⟨h.accounted.nodup, hwf.nodup.filter _,
      fun b hb c hc heq => ?_⟩, List.nodup_range, fun b hb c hc heq => ?_⟩
    · exact h.accounted.gone b hb (.inr (.inl (heq ▸ (List.mem_filter.mp hc).1)))
    · subst heq
      have hlt := List.mem_range.mp hc
      rcases List.mem_append.mp hb with hb | hb
      · exact absurd (h.heap b hb) (by omega)
      · obtain ⟨hlist, hdyn⟩ := List.mem_filter.mp hb
        exact absurd ((hdynamic b hlist).mp hdyn) (by omega)
  · exact List.nodup_range

/-- The destructor destroys every block once. -/
theorem Arranged.destroy (h : Arranged e (Keeps e True) q B) :
    ∃ blocks mem', destroy e q = some (blocks, mem') ∧
      List.Perm blocks (List.range (e.initialBlockPoolSize + q.mem.created)) := by
  obtain ⟨mem', B', hwalk, hempty, hcreated⟩ := h.destroyProducers
  refine ⟨_, mem', ?_, hcreated ▸ hempty.perm_range⟩
  simp only [Queue.destroy, hwalk, bind_eq_bind, Option.bind_some]

/-- **Every block is in exactly one place** after every run of complete operations; and when
the calls on explicit producers were clean, destroying the queue destroys every block once. -/
theorem block_in_one_place (e : Env) :
    (∀ q : Queue e.bits α, Reached e (Ok e False) q → ∀ b,
      b < e.initialBlockPoolSize + q.mem.created ∧ b ∉ q.mem.destroyed ↔
        ∃! place, LiesAt e q b place) ∧
    ∀ q : Queue e.bits α, Reached e (Ok e True) q →
      ∃ blocks mem', destroy e q = some (blocks, mem') ∧
        List.Perm blocks (List.range (e.initialBlockPoolSize + q.mem.created)) := by
  refine ⟨fun q hq b => ?_, fun q hq => ?_⟩
  · obtain ⟨B, hB⟩ := arranged_of_reached hq
    exact hB.existsUnique_iff b
  · obtain ⟨B, hB⟩ := arranged_of_reached hq
    exact hB.destroy

/-! ### Carrying operations out -/

open Explicit (tiny unused safe)

instance (strict : Prop) [Decidable strict] (q : Queue e.bits Nat) (op : Op e.bits Nat)
    (r : Reply Nat) : Decidable (Ok e strict q op r) := by
  unfold Ok CallOk Fits
  split
  · split
    · split
      · infer_instance
      · split <;> infer_instance
    · infer_instance
  · infer_instance

/-- Carry the operations out one after the other, as long as each meets `ok`. -/
def run (e : Env) (ok : Queue e.bits α → Op e.bits α → Reply α → Prop)
    [∀ q op r, Decidable (ok q op r)] : List (Op e.bits α) → Queue e.bits α →
      Option (Queue e.bits α)
  | [], q => some q
  | op :: ops, q => do
      let (q', r) ← step e op q
      if ok q op r then run e ok ops q' else none

theorem Reached.run {ok : Queue e.bits α → Op e.bits α → Reply α → Prop}
    [∀ q op r, Decidable (ok q op r)] {ops : List (Op e.bits α)} (h : Reached e ok q)
    (hrun : run e ok ops q = some q') : Reached e ok q' := by
  induction ops generalizing q with
  | nil =>
      obtain rfl := Option.some.inj hrun
      exact h
  | cons op ops ih =>
      rw [Queue.run, bind_eq_bind, bind_eq_some_iff] at hrun
      obtain ⟨⟨q₁, r⟩, hstep, hrest⟩ := hrun
      simp only [Option.ite_none_right_eq_some] at hrest
      exact ih (h.step hstep hrest.1) hrest.2

/-- Operations on a new queue, and what can be observed afterwards. -/
theorem exists_reached {β : Type} (e : Env)
    (ok : Queue e.bits Nat → Op e.bits Nat → Reply Nat → Prop) [∀ q op r, Decidable (ok q op r)]
    (ops : List (Op e.bits Nat)) (f : Queue e.bits Nat → β) {y : β}
    (h : (run e ok ops ⟨unused, []⟩).map f = some y) : ∃ q, Reached e ok q ∧ f q = y := by
  obtain ⟨q, hrun, hy⟩ := map_eq_some_iff.mp h
  have hblank : Blank e unused := ⟨rfl, rfl, rfl, rfl, fun _ _ => rfl, fun _ _ => rfl⟩
  exact ⟨q, (Reached.create hblank).run hrun, hy⟩

/-- A pool of three blocks; blocks from the heap are kept for later. The sixth call of
`malloc` fails. -/
def pooled : Env :=
  { tiny [5] with
    initialBlockPoolSize := 3
    RECYCLE_ALLOCATED_BLOCKS := true
    poolSize_lt := by decide }

/-- An explicit and an implicit producer. The last call on the second takes a block and gives it
back, as its index cannot grow; the block is on the free list when the queue is destroyed. -/
theorem block_in_one_place_pooled : ∃ q : Queue pooled.bits Nat, Reached pooled (Ok pooled True) q ∧
    q.mem.created = 1 ∧ q.mem.freeList = [1] ∧
    ∃ blocks mem', destroy pooled q = some (blocks, mem') ∧ List.Perm blocks (List.range 4) := by
  obtain ⟨q, hq, hobs⟩ := exists_reached pooled (Ok pooled True)
    [.acquire true, .acquire false, .call 0 (.enqueueBulk .canAlloc safe [1, 2]),
      .call 1 (.enqueueBulk .canAlloc safe [3, 4, 5]), .call 0 (.enqueue .canAlloc safe 6),
      .call 1 (.dequeueBulk 2#8 none), .release 0, .acquire true,
      .call 1 (.enqueueBulk .canAlloc safe [7, 8, 9, 10, 11])]
    (fun q => (q.mem.created, q.mem.freeList)) (y := (1, [1])) (by decide +kernel)
  obtain ⟨hcreated, hlist⟩ := Prod.mk.inj hobs
  obtain ⟨blocks, mem', hdestroy, hperm⟩ := (block_in_one_place pooled).2 q hq
  rw [hcreated] at hperm
  exact ⟨q, hq, hcreated, hlist, blocks, mem', hdestroy, hperm⟩

/-- A bulk call fails after it has reused a block: the entry of the block at the head has been
overwritten, and the destructor's search for that block runs into its assertion. -/
theorem half_dequeued_block_not_found : ∃ q : Queue (tiny [4]).bits Nat,
    Reached (tiny [4]) (Ok (tiny [4]) False) q ∧
    (q.producers.map fun x => match x.producer with
      | .explicit p => (Explicit.halfDequeued (tiny [4]) p).isNone
      | .implicit _ => false) = [true] ∧
    (destroy (tiny [4]) q).isNone = true := by
  obtain ⟨q, hq, hobs⟩ := exists_reached (tiny [4]) (Ok (tiny [4]) False)
    [.acquire true, .call 0 (.enqueueBulk .canAlloc safe [1, 2, 3, 4]),
      .call 0 (.dequeueBulk 3#8 none), .call 0 (.enqueueBulk .canAlloc safe [5, 6, 7, 8])]
    (fun q => ((q.producers.map fun x => match x.producer with
      | .explicit p => (Explicit.halfDequeued (tiny [4]) p).isNone
      | .implicit _ => false), (destroy (tiny [4]) q).isNone)) (y := ([true], true))
    (by decide +kernel)
  exact ⟨q, hq, Prod.mk.inj hobs⟩

end Whole.Queue

end ConcurrentQueue
