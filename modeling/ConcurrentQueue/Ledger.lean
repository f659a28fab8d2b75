import ConcurrentQueue.Held
import ConcurrentQueue.Lib.Custody

/-!
# ConcurrentQueue.Ledger

**Where every block is.** A block that exists is free, has been given back to the
heap, or is in use (`Mem.InUse`), and `Mem.Accounted` says that these exclude one
another. `Traffic e A A' m m'` is what a producer does to the memory: it starts with
the blocks `A` in use, ends with the blocks `A'`, and touches no block that is in use
by another. The loops over elements stay `Within` the blocks they are given.
-/

namespace ConcurrentQueue

open Function

variable {α : Type}

namespace Mem

variable (e : Env)

/-- The blocks that exist and are neither free nor back at the heap. -/
def InUse (m : Mem α) : Set Nat := { b | ¬ m.Free e b ∧ b ∉ m.destroyed }

structure Accounted (m : Mem α) : Prop where
  wellFormed : m.WellFormed e
  nodup : m.destroyed.Nodup
  gone : ∀ b ∈ m.destroyed, ¬ m.Free e b
  empty : ∀ b ∈ m.destroyed, ∀ i, (m.blocks b).elements i = none
  bounded : ∀ b i, e.BLOCK_SIZE ≤ i → (m.blocks b).elements i = none
  dynamic : ∀ b, b < e.initialBlockPoolSize + m.created →
    (m.blocks b).dynamicallyAllocated = decide (e.initialBlockPoolSize ≤ b)

variable {e} {m : Mem α}

theorem lt_of_inUse {b : Nat} (hb : b ∈ m.InUse e) : b < e.initialBlockPoolSize + m.created := by
  by_contra hge
  exact hb.1 (.inr (.inr (by omega)))

end Mem

/-! ### What a producer does to the memory -/

/-- The memory is in order, and the blocks `A` are in use. -/
structure Has (e : Env) (A : Set Nat) (m : Mem α) : Prop where
  accounted : m.Accounted e
  inUse : A ⊆ m.InUse e

structure Traffic (e : Env) (A A' : Set Nat) (m m' : Mem α) : Prop where
  has : Has e A' m'
  moves : Custody.Moves (Mem.InUse e) Mem.blocks A A' m m'
  -- blocks of the pool never go back to the heap one by one
  scrapped : ∀ b ∈ m'.destroyed, b ∈ m.destroyed ∨ e.initialBlockPoolSize ≤ b

variable {e : Env} {A A' A'' : Set Nat} {m m' m'' : Mem α}

theorem Has.refl (h : Has e A m) : Traffic e A A m m := ⟨h, .refl h.inUse, fun _ => .inl⟩

theorem Traffic.trans (h : Traffic e A A' m m') (h' : Traffic e A' A'' m' m'') :
    Traffic e A A'' m m'' :=
  ⟨h'.has, h.moves.trans h'.moves, fun b hb => (h'.scrapped b hb).elim (h.scrapped b) .inr⟩

/-- `m'` differs from `m` in the contents of the blocks `A` only, and in the count
of `malloc` calls. -/
structure Within (e : Env) (A : Set Nat) (m m' : Mem α) : Prop where
  blocks : ∀ b, b ∉ A → m'.blocks b = m.blocks b
  dynamic : ∀ b, (m'.blocks b).dynamicallyAllocated = (m.blocks b).dynamicallyAllocated
  bounded : ∀ b i, e.BLOCK_SIZE ≤ i → (m'.blocks b).elements i = (m.blocks b).elements i
  same : ∃ n, m' = { m with blocks := m'.blocks, mallocs := n }

namespace Within

theorem refl : Within e A m m := ⟨fun _ _ => rfl, fun _ => rfl, fun _ _ _ => rfl, m.mallocs, rfl⟩

theorem trans (h : Within e A m m') (h' : Within e A m' m'') : Within e A m m'' where
  blocks b hb := (h'.blocks b hb).trans (h.blocks b hb)
  dynamic b := (h'.dynamic b).trans (h.dynamic b)
  bounded b i hi := (h'.bounded b i hi).trans (h.bounded b i hi)
  same := by
    obtain ⟨n, hn⟩ := h.same
    obtain ⟨n', hn'⟩ := h'.same
    exact ⟨n', by rw [hn', hn]⟩

theorem mono (h : Within e A m m') (hA : A ⊆ A') : Within e A' m m' :=
  { h with blocks := fun b hb => h.blocks b fun hbA => hb (hA hbA) }

theorem mallocs (n : Nat) : Within e A m { m with mallocs := n } :=
  ⟨fun _ _ => rfl, fun _ => rfl, fun _ _ _ => rfl, n, rfl⟩

/-- Other contents for one block. -/
theorem setBlock {b : Nat} (hb : b ∈ A) {x : Block α}
    (hdyn : x.dynamicallyAllocated = (m.blocks b).dynamicallyAllocated)
    (hbound : ∀ i, e.BLOCK_SIZE ≤ i → x.elements i = (m.blocks b).elements i) :
    Within e A m (m.setBlock b x) := by
  refine ⟨fun c hc => ?_, fun c => ?_, fun c i hi => ?_, m.mallocs, rfl⟩
  · have hcb : c ≠ b := fun heq => hc (heq ▸ hb)
    rw [Mem.blocks_setBlock, update_of_ne hcb]
  · by_cases hcb : c = b
    · rw [hcb, Mem.blocks_setBlock, update_self, hdyn]
    · rw [Mem.blocks_setBlock, update_of_ne hcb]
  · by_cases hcb : c = b
    · rw [hcb, Mem.blocks_setBlock, update_self, hbound i hi]
    · rw [Mem.blocks_setBlock, update_of_ne hcb]

theorem setNext {b : Nat} (hb : b ∈ A) (x : Option Nat) :
    Within e A m (m.modify b fun y => { y with next := x }) :=
  setBlock hb rfl fun _ _ => rfl

variable (h : Within e A m m')
include h

theorem free_iff (b : Nat) : m'.Free e b ↔ m.Free e b := by
  obtain ⟨n, hn⟩ := h.same
  rw [hn]
  rfl

theorem destroyed_eq : m'.destroyed = m.destroyed := by
  obtain ⟨n, hn⟩ := h.same
  rw [hn]

theorem created_eq : m'.created = m.created := by
  obtain ⟨n, hn⟩ := h.same
  rw [hn]

theorem inUse_eq : m'.InUse e = m.InUse e := by
  ext b
  simp only [Mem.InUse, Set.mem_ofPred_eq, h.free_iff b, h.destroyed_eq]

theorem wellFormed (hwf : m.WellFormed e) (hA : ∀ b ∈ A, ¬ m.Free e b) : m'.WellFormed e := by
  have hvacant : ∀ b, m'.Free e b → ∀ i, (m'.blocks b).elements i = none := by
    intro b hb i
    rw [h.free_iff] at hb
    rw [h.blocks b fun hbA => hA b hbA hb]
    exact hwf.vacant b hb i
  obtain ⟨n, hn⟩ := h.same
  refine ⟨?_, ?_, hvacant⟩
  · rw [hn]
    exact hwf.nodup
  · rw [hn]
    exact hwf.listed

/-- Changing blocks that are one's own. -/
theorem traffic (hA : Has e A m) : Traffic e A A m m' := by
  have hkept : ∀ b, b ∉ m.InUse e → m'.blocks b = m.blocks b := fun b hb =>
    h.blocks b fun hbA => hb (hA.inUse hbA)
  refine ⟨⟨⟨?_, ?_, ?_, ?_, ?_, ?_⟩, ?_⟩, ?_, fun b hb => .inl (h.destroyed_eq ▸ hb)⟩
  · exact h.wellFormed hA.accounted.wellFormed fun b hb => (hA.inUse hb).1
  · rw [h.destroyed_eq]
    exact hA.accounted.nodup
  · intro b hb
    rw [h.destroyed_eq] at hb
    rw [h.free_iff]
    exact hA.accounted.gone b hb
  · intro b hb i
    rw [h.destroyed_eq] at hb
    rw [hkept b fun hbu => hbu.2 hb]
    exact hA.accounted.empty b hb i
  · intro b i hi
    rw [h.bounded b i hi]
    exact hA.accounted.bounded b i hi
  · intro b hb
    rw [h.created_eq] at hb
    rw [h.dynamic b]
    exact hA.accounted.dynamic b hb
  · rw [h.inUse_eq]
    exact hA.inUse
  · refine ⟨fun b _ hb => h.blocks b hb, fun b => ?_, fun b hb hbA => absurd hb hbA⟩
    rw [h.inUse_eq]
    have hsame : Custody.Moves (Mem.InUse e) Mem.blocks A A m m := .refl hA.inUse
    exact hsame.owned_iff b

end Within

/-! ### Taking a block and giving one back -/

theorem Mem.destroyed_requisitionBlock (m : Mem α) (mode : AllocationMode) :
    (m.requisitionBlock e mode).2.destroyed = m.destroyed := by
  unfold Mem.requisitionBlock
  split
  · rfl
  split
  · rfl
  cases mode with
  | cannotAlloc => rfl
  | canAlloc => cases hok : e.mallocOk m.mallocs <;> simp [Mem.createBlock, Mem.malloc, hok]

/-- The block that is handed out is one of the pool's, a recycled one, or new. -/
theorem Mem.dynamic_requisitionBlock {mode : AllocationMode} {b : Nat}
    (h : m.Accounted e) (hr : m.requisitionBlock e mode = (some b, m')) :
    ∀ c, c < e.initialBlockPoolSize + m'.created →
      (m'.blocks c).dynamicallyAllocated = decide (e.initialBlockPoolSize ≤ c) := by
  unfold Mem.requisitionBlock at hr
  split at hr
  · obtain ⟨-, rfl⟩ := Prod.mk.inj hr
    exact h.dynamic
  split at hr
  · obtain ⟨-, rfl⟩ := Prod.mk.inj hr
    exact h.dynamic
  cases mode with
  | cannotAlloc => cases hr
  | canAlloc =>
      cases hok : e.mallocOk m.mallocs with
      | false => simp [Mem.createBlock, Mem.malloc, hok] at hr
      | true =>
          simp only [Mem.createBlock, Mem.malloc, hok] at hr
          obtain ⟨-, rfl⟩ := Prod.mk.inj hr
          intro c hc
          dsimp only at hc ⊢
          by_cases hcm : c = e.initialBlockPoolSize + m.created
          · rw [hcm, update_self, decide_eq_true (Nat.le_add_right ..)]
          · rw [update_of_ne hcm]
            exact h.dynamic c (by omega)

theorem Has.requisition (h : Has e A m) {mode : AllocationMode} {b : Nat}
    (hr : m.requisitionBlock e mode = (some b, m')) : Traffic e A (insert b A) m m' := by
  have hreq := Mem.requisitionBlock_spec h.accounted.wellFormed hr
  have hgone : m'.destroyed = m.destroyed := by
    rw [← Mem.destroyed_requisitionBlock m mode, hr]
  have hb : b ∉ m.destroyed := fun hb => h.accounted.gone b hb hreq.free
  have hbA : b ∉ A := fun hbA => (h.inUse hbA).1 hreq.free
  have hin : ∀ c, c ∈ m'.InUse e ↔ c ∈ m.InUse e ∨ c = b := by
    intro c
    show ¬ m'.Free e c ∧ c ∉ m'.destroyed ↔ (¬ m.Free e c ∧ c ∉ m.destroyed) ∨ c = b
    rw [hgone, hreq.taken c]
    by_cases hcb : c = b
    · simp [hcb, hb]
    · simp [hcb]
  refine ⟨⟨⟨hreq.wellFormed, ?_, ?_, ?_, ?_, ?_⟩, ?_⟩, ⟨?_, ?_, ?_⟩,
    fun c hc => .inl (hgone ▸ hc)⟩
  · rw [hgone]
    exact h.accounted.nodup
  · intro c hc hfree
    rw [hgone] at hc
    exact h.accounted.gone c hc ((hreq.taken c).mp hfree).1
  · intro c hc i
    rw [hgone] at hc
    rw [hreq.frame c fun heq => hb (heq ▸ hc)]
    exact h.accounted.empty c hc i
  · intro c i hi
    by_cases hcb : c = b
    · rw [hcb]
      exact hreq.vacant i
    · rw [hreq.frame c hcb]
      exact h.accounted.bounded c i hi
  · exact Mem.dynamic_requisitionBlock h.accounted hr
  · rintro c (rfl | hc)
    · exact (hin c).mpr (.inr rfl)
    · exact (hin c).mpr (.inl (h.inUse hc))
  · intro c hc _
    exact hreq.frame c fun heq => hc.1 (heq ▸ hreq.free)
  · intro c
    rw [hin c, Set.mem_insert_iff]
    by_cases hcA : c ∈ A
    · simp [hcA, h.inUse hcA]
    · simp [hcA]
  · rintro c (rfl | hc) hcA
    · exact fun hc => hc.1 hreq.free
    · exact absurd hc hcA

/-- A block is given back when it holds no object. -/
theorem Has.release (h : Has e A m) {b : Nat} (hb : b ∈ A)
    (hempty : ∀ i < e.BLOCK_SIZE, (m.blocks b).elements i = none) :
    Traffic e A (A \ {b}) m (m.addBlockToFreeList e b) := by
  have hvacant : ∀ i, (m.blocks b).elements i = none := fun i =>
    (Nat.lt_or_ge i e.BLOCK_SIZE).elim (hempty i) (h.accounted.bounded b i)
  obtain ⟨hfree, hnot⟩ := h.inUse hb
  have hlt := Mem.lt_of_inUse (h.inUse hb)
  -- whichever list the block goes to, it is no longer in use, and nothing else changes
  suffices hsuff : (m.addBlockToFreeList e b).Accounted e ∧
      (∀ c, c ∈ (m.addBlockToFreeList e b).InUse e ↔ c ∈ m.InUse e ∧ c ≠ b) ∧
      ∀ c ∈ (m.addBlockToFreeList e b).destroyed,
        c ∈ m.destroyed ∨ e.initialBlockPoolSize ≤ c by
    obtain ⟨hacc, hin, hscrap⟩ := hsuff
    refine ⟨⟨hacc, fun c hc => (hin c).mpr ⟨h.inUse hc.1, hc.2⟩⟩, ⟨fun c _ _ => ?_, fun c => ?_,
      fun c hc hcA => absurd hc.1 hcA⟩, hscrap⟩
    · rw [Mem.blocks_addBlockToFreeList]
    · rw [hin c]
      by_cases hcA : c ∈ A
      · simp [hcA, h.inUse hcA]
      · have hcb : c ≠ b := fun heq => hcA (heq ▸ hb)
        simp [hcA, hcb]
  unfold Mem.addBlockToFreeList
  split
  next hheap =>
    have hpool : e.initialBlockPoolSize ≤ b := by
      rw [h.accounted.dynamic b hlt] at hheap
      grind
    refine ⟨⟨⟨h.accounted.wellFormed.nodup, h.accounted.wellFormed.listed,
      h.accounted.wellFormed.vacant⟩, List.nodup_cons.mpr ⟨hnot, h.accounted.nodup⟩, ?_, ?_,
      h.accounted.bounded, h.accounted.dynamic⟩, ?_, fun c hc => ?_⟩
    · intro c hc
      rcases List.mem_cons.mp hc with rfl | hc
      · exact hfree
      · exact h.accounted.gone c hc
    · intro c hc
      rcases List.mem_cons.mp hc with rfl | hc
      · exact hvacant
      · exact h.accounted.empty c hc
    · intro c
      show ¬ m.Free e c ∧ c ∉ b :: m.destroyed ↔ (¬ m.Free e c ∧ c ∉ m.destroyed) ∧ c ≠ b
      rw [List.mem_cons, not_or]
      tauto
    · rcases List.mem_cons.mp hc with rfl | hc
      · exact .inr hpool
      · exact .inl hc
  next =>
    have hiff : ∀ c, Mem.Free e { m with freeList := b :: m.freeList } c ↔
        m.Free e c ∨ c = b := by
      intro c
      unfold Mem.Free
      rw [List.mem_cons]
      tauto
    refine ⟨⟨⟨List.nodup_cons.mpr ⟨fun hl => hfree (.inr (.inl hl)),
      h.accounted.wellFormed.nodup⟩, ?_, ?_⟩, h.accounted.nodup, ?_, h.accounted.empty,
      h.accounted.bounded, h.accounted.dynamic⟩, ?_, fun c hc => .inl hc⟩
    · intro c hc
      rcases List.mem_cons.mp hc with rfl | hc
      · exact ⟨hlt, fun hpool => hfree (.inl hpool)⟩
      · exact h.accounted.wellFormed.listed c hc
    · intro c hc
      rcases (hiff c).mp hc with hc | rfl
      · exact h.accounted.wellFormed.vacant c hc
      · exact hvacant
    · intro c hc hcf
      rcases (hiff c).mp hcf with hcf | rfl
      · exact h.accounted.gone c hc hcf
      · exact hnot hc
    · intro c
      show ¬ Mem.Free e { m with freeList := b :: m.freeList } c ∧ c ∉ m.destroyed ↔
        (¬ m.Free e c ∧ c ∉ m.destroyed) ∧ c ≠ b
      rw [hiff c]
      tauto

/-! ### Loops over elements -/

namespace Within

theorem of_onlyElements {b : Nat} (hb : b ∈ A) (h : OnlyElements e b m m') :
    Within e A m m' := by
  obtain ⟨f, rfl, hf⟩ := h
  exact setBlock hb rfl hf

theorem destroyAt {b : Nat} (hb : b ∈ A) {i : BitVec e.bits} {x : α} {b' : Block α}
    (h : (m.blocks b).destroyAt e.toTraits i = some (x, b')) : Within e A m (m.setBlock b b') :=
  of_onlyElements hb (.destroyAt h)

theorem setEmpty {b : Nat} {ctx : InnerQueueContext} (hb : b ∈ A) {i : BitVec e.bits}
    {b' : Block α} {full : Bool} (h : (m.blocks b).setEmpty e.toTraits ctx i = some (b', full)) :
    Within e A m (m.setBlock b b') := by
  unfold Block.setEmpty at h
  dsimp only at h
  split at h <;>
  · split at h <;> simp only [Option.some.injEq, Prod.mk.injEq, reduceCtorEq] at h
    obtain ⟨rfl, -⟩ := h
    exact setBlock hb rfl fun _ _ => rfl

theorem setManyEmpty {b : Nat} {ctx : InnerQueueContext} (hb : b ∈ A) {i : BitVec e.bits}
    {count : Nat} {b' : Block α} {full : Bool}
    (h : (m.blocks b).setManyEmpty e.toTraits ctx i count = some (b', full)) :
    Within e A m (m.setBlock b b') := by
  unfold Block.setManyEmpty at h
  dsimp only at h
  split at h <;> split at h
  · obtain ⟨flags, -, hb'⟩ := Option.map_eq_some_iff.mp h
    obtain ⟨rfl, -⟩ := Prod.mk.inj hb'
    exact setBlock hb rfl fun _ _ => rfl
  · cases h
  · cases h
    exact setBlock hb rfl fun _ _ => rfl
  · cases h

theorem constructAt {b : Nat} (hb : b ∈ A) {i : BitVec e.bits} {x : α}
    (h : constructAt e (some b) i x m = some m') : Within e A m m' :=
  of_onlyElements hb (.constructAt h)

/-- Constructing and destroying do not relink blocks. -/
theorem next_eq_of_onlyElements {b c : Nat} (h : OnlyElements e b m m') :
    (m'.blocks c).next = (m.blocks c).next := by
  obtain ⟨f, rfl, -⟩ := h
  by_cases hcb : c = b
  · rw [hcb, Mem.blocks_setBlock, update_self]
  · rw [Mem.blocks_setBlock, update_of_ne hcb]

/-- The links lead from a block of `A` to another, up to the block `last`. -/
def Chained (A : Set Nat) (last : Option Nat) (m : Mem α) : Prop :=
  ∀ b ∈ A, some b ≠ last → ∀ c, (m.blocks b).next = some c → c ∈ A

theorem fillBlocks {ctor : Ctor} {newTailIndex : BitVec e.bits} {endBlock : Option Nat} {fuel : Nat}
    {tailBlock tailBlock' : Option Nat} {i i' : BitVec e.bits} {k : Nat} {xs : List α}
    {threw : Bool} (hstart : ∀ b, tailBlock = some b → b ∈ A) (hchain : Chained A endBlock m)
    (h : fillBlocks e ctor newTailIndex endBlock fuel tailBlock i k xs m =
      some (i', tailBlock', m', threw)) :
    Within e A m m' ∧ ∀ c, (m'.blocks c).next = (m.blocks c).next := by
  induction fuel generalizing tailBlock i k xs m with
  | zero => cases h
  | succ fuel ih =>
      rw [ConcurrentQueue.fillBlocks, Option.bind_eq_bind, Option.bind_eq_some_iff] at h
      obtain ⟨⟨i₁, k₁, xs₁, m₁, threw₁⟩, hfill, h⟩ := h
      -- without a tail block nothing can have been constructed
      have hone : Within e A m m₁ ∧ ∀ c, (m₁.blocks c).next = (m.blocks c).next := by
        cases tailBlock with
        | some b =>
            have honly := OnlyElements.fillBlock hfill
            exact ⟨of_onlyElements (hstart b rfl) honly, fun c => next_eq_of_onlyElements honly⟩
        | none =>
            have hsame : m₁ = m := by
              revert hfill
              cases (stopIndex e i newTailIndex - i).toNat with
              | zero =>
                  intro hfill
                  obtain ⟨-, -, -, rfl, -⟩ := by simpa [ConcurrentQueue.fillBlock] using hfill
                  rfl
              | succ n =>
                  intro hfill
                  cases xs with
                  | nil => cases hfill
                  | cons x xs =>
                      rw [ConcurrentQueue.fillBlock] at hfill
                      split at hfill
                      · obtain ⟨-, -, -, rfl, -⟩ := by simpa using hfill
                        rfl
                      · cases hfill
            rw [hsame]
            exact ⟨refl, fun _ => rfl⟩
      dsimp only at h
      split at h
      · obtain ⟨-, -, rfl, -⟩ := by simpa using h
        exact hone
      split at h
      · split at h
        · obtain ⟨-, -, rfl, -⟩ := by simpa using h
          exact hone
        · cases h
      · rename_i hmore
        rw [Option.bind_eq_bind, Option.bind_eq_some_iff] at h
        obtain ⟨tb, rfl, h⟩ := h
        have hstart' : ∀ b, (m₁.blocks tb).next = some b → b ∈ A := fun b hb => by
          rw [hone.2] at hb
          exact hchain tb (hstart tb rfl) hmore b hb
        have hchain' : Chained A endBlock m₁ := fun b hb hlast c hc => by
          rw [hone.2] at hc
          exact hchain b hb hlast c hc
        obtain ⟨hrest, hnext⟩ := ih hstart' hchain' h
        exact ⟨hone.1.trans hrest, fun c => (hnext c).trans (hone.2 c)⟩

theorem undoBlocks {stop : BitVec e.bits} {last : Option Nat} {fuel : Nat} {i : BitVec e.bits}
    {block : Option Nat} (hstart : ∀ b, block = some b → b ∈ A) (hchain : Chained A last m)
    (h : undoBlocks e stop last fuel i block m = some m') :
    Within e A m m' ∧ ∀ c, (m'.blocks c).next = (m.blocks c).next := by
  induction fuel generalizing block i m with
  | zero => cases h
  | succ fuel ih =>
      rw [ConcurrentQueue.undoBlocks, Option.bind_eq_bind, Option.bind_eq_some_iff] at h
      obtain ⟨b, rfl, h⟩ := h
      rw [Option.bind_eq_bind, Option.bind_eq_some_iff] at h
      obtain ⟨⟨ys, m₁⟩, hdestroy, h⟩ := h
      have honly := OnlyElements.destroyRange hdestroy
      have hone : Within e A m m₁ := of_onlyElements (hstart b rfl) honly
      have hnext : ∀ c, (m₁.blocks c).next = (m.blocks c).next := fun c =>
        next_eq_of_onlyElements honly
      dsimp only at h
      split at h
      · obtain rfl := Option.some.inj h
        exact ⟨hone, hnext⟩
      · rename_i hmore
        have hstart' : ∀ c, (m₁.blocks b).next = some c → c ∈ A := fun c hc => by
          rw [hnext] at hc
          exact hchain b (hstart b rfl) hmore c hc
        have hchain' : Chained A last m₁ := fun c hc hlast d hd => by
          rw [hnext] at hd
          exact hchain c hc hlast d hd
        obtain ⟨hrest, hlinks⟩ := ih hstart' hchain' h
        exact ⟨hone.trans hrest, fun c => (hlinks c).trans (hnext c)⟩

end Within

/-! ### The blocks of a window -/

/-- The blocks with the numbers `s ≤ q < t`. -/
def window (β : Nat → Nat) (s t : Nat) : Set Nat := { b | ∃ q, s ≤ q ∧ q < t ∧ β q = b }

section Window

variable {β : Nat → Nat} {s t : Nat}

theorem mem_window {q : Nat} (hs : s ≤ q) (ht : q < t) : β q ∈ window β s t := ⟨q, hs, ht, rfl⟩

theorem window_self : window β t t = ∅ := by
  ext b
  exact ⟨fun ⟨q, hs, ht, _⟩ => absurd ht hs.not_gt, fun h => h.elim⟩

theorem window_mono {s' t' : Nat} (hs : s ≤ s') (ht : t' ≤ t) : window β s' t' ⊆ window β s t := by
  rintro b ⟨q, hsq, hqt, rfl⟩
  exact mem_window (hs.trans hsq) (lt_of_lt_of_le hqt ht)

theorem window_congr {β' : Nat → Nat} (h : ∀ q, s ≤ q → q < t → β' q = β q) :
    window β' s t = window β s t := by
  ext b
  constructor
  · rintro ⟨q, hs, ht, rfl⟩
    rw [h q hs ht]
    exact mem_window hs ht
  · rintro ⟨q, hs, ht, rfl⟩
    rw [← h q hs ht]
    exact mem_window hs ht

theorem window_succ (b : Nat) (hst : s ≤ t) :
    window (update β t b) s (t + 1) = insert b (window β s t) := by
  ext x
  constructor
  · rintro ⟨q, hs, ht, rfl⟩
    rcases Nat.lt_succ_iff_lt_or_eq.mp ht with hlt | rfl
    · rw [update_of_ne hlt.ne]
      exact .inr (mem_window hs hlt)
    · rw [update_self]
      exact .inl rfl
  · rintro (rfl | ⟨q, hs, ht, rfl⟩)
    · exact ⟨t, hst, Nat.lt_succ_self t, update_self ..⟩
    · exact ⟨q, hs, by omega, update_of_ne ht.ne ..⟩

/-- Taking the first block out. -/
theorem window_tail (hinj : ∀ q q', s ≤ q → q < t → s ≤ q' → q' < t → β q = β q' → q = q')
    (hst : s < t) : window β s t \ {β s} = window β (s + 1) t := by
  ext b
  constructor
  · rintro ⟨⟨q, hs, ht, rfl⟩, hne⟩
    have hqs : q ≠ s := fun heq => hne (by rw [heq]; rfl)
    exact mem_window (by omega) ht
  · rintro ⟨q, hs, ht, rfl⟩
    refine ⟨mem_window (by omega) ht, fun heq => ?_⟩
    have := hinj q s (by omega) ht le_rfl hst heq
    omega

/-- Taking the last block out. -/
theorem window_init (hinj : ∀ q q', s ≤ q → q < t → s ≤ q' → q' < t → β q = β q' → q = q')
    (hst : s < t) : window β s t \ {β (t - 1)} = window β s (t - 1) := by
  ext b
  constructor
  · rintro ⟨⟨q, hs, ht, rfl⟩, hne⟩
    have hqt : q ≠ t - 1 := fun heq => hne (by rw [heq]; rfl)
    exact mem_window hs (by omega)
  · rintro ⟨q, hs, ht, rfl⟩
    refine ⟨mem_window hs (by omega), fun heq => ?_⟩
    have := hinj q (t - 1) hs (by omega) (by omega) (by omega) heq
    omega

end Window

/-- What is said of the blocks holds in any memory where they are in use and have the
same contents. -/
theorem Held.of_has {e : Env} {ctx : InnerQueueContext} {mem mem' : Mem α} {β : Nat → Nat}
    {s t : Nat} {ν : Nat → Option Nat} {f : Nat → Option α} {g : Nat → Nat} {A : Set Nat}
    (h : Held e ctx mem β s t ν f g) (hhas : Has e A mem') (hA : window β s t ⊆ A)
    (hblocks : ∀ q, s ≤ q → q < t → mem'.blocks (β q) = mem.blocks (β q)) :
    Held e ctx mem' β s t ν f g :=
  h.frame hhas.accounted.wellFormed (fun _ hs ht => (hhas.inUse (hA (mem_window hs ht))).1)
    hblocks

/-- Fewer of the blocks. -/
theorem Held.mono {e : Env} {ctx : InnerQueueContext} {mem : Mem α} {β β' : Nat → Nat}
    {s t s' t' : Nat} {ν ν' : Nat → Option Nat} {f : Nat → Option α} {g : Nat → Nat}
    (h : Held e ctx mem β s t ν f g) (hs : s ≤ s') (ht : t' ≤ t)
    (hβ : ∀ q, s' ≤ q → q < t' → β' q = β q) (hν : ∀ q, s' ≤ q → q < t' → ν' q = ν q) :
    Held e ctx mem β' s' t' ν' f g where
  wellFormed := h.wellFormed
  inj q q' hq hqt hq' hqt' heq := by
    rw [hβ q hq hqt, hβ q' hq' hqt'] at heq
    exact h.inj q q' (hs.trans hq) (by omega) (hs.trans hq') (by omega) heq
  used q hq hqt := by
    rw [hβ q hq hqt]
    exact h.used q (hs.trans hq) (by omega)
  link q hq hqt := by
    rw [hβ q hq hqt, hν q hq hqt]
    exact h.link q (hs.trans hq) (by omega)
  slot q i hq hqt hi := by
    rw [hβ q hq hqt]
    exact h.slot q i (hs.trans hq) (by omega) hi
  mark q hq hqt := by
    rw [hβ q hq hqt]
    exact h.mark q (hs.trans hq) (by omega)

/-! ### The first of the blocks -/

section First

variable {e : Env} {ctx : InnerQueueContext} {m : Mem α} {β : Nat → Nat} {q t : Nat}
  {ν : Nat → Option Nat} {g : Nat → Nat} (hhas : Has e (window β q t) m) (hqt : q < t)
include hhas hqt

/-- The first block is given back once its slots are empty. -/
theorem Held.releaseFirst {f : Nat → Option α} (h : Held e ctx m β q t ν f g)
    (hfree : ∀ i < e.BLOCK_SIZE, f (q * e.BLOCK_SIZE + i) = none) :
    Held e ctx (m.addBlockToFreeList e (β q)) β (q + 1) t ν f g ∧
      Traffic e (window β q t) (window β (q + 1) t) m (m.addBlockToFreeList e (β q)) := by
  have hrelease := hhas.release (mem_window le_rfl hqt) fun i hi => by
    rw [h.slot q i le_rfl hqt hi]
    exact hfree i hi
  rw [window_tail h.inj hqt] at hrelease
  refine ⟨?_, hrelease⟩
  exact (h.mono (Nat.le_succ q) le_rfl (fun _ _ _ => rfl) fun _ _ _ => rfl).of_has hrelease.has
    le_rfl fun q _ _ => by rw [Mem.blocks_addBlockToFreeList]

/-- The first element, in the first block, is destroyed. -/
theorem Held.destroyFirst {i : Nat} {x : α} {l : List α}
    (h : Held e ctx m β q t ν (slotAt i (x :: l)) g) (hdiv : i / e.BLOCK_SIZE = q) :
    ∃ b, (m.blocks (β q)).destroyAt e.toTraits (BitVec.ofNat e.bits i) = some (x, b) ∧
      Held e ctx (m.setBlock (β q) b) β q t ν (slotAt (i + 1) l) g ∧
      Traffic e (window β q t) (window β q t) m (m.setBlock (β q) b) := by
  obtain ⟨b, hdes, hheld, -, -⟩ := h.destroyAt (n := i) (by omega) (by omega) (slotAt_head x)
  rw [hdiv] at hdes hheld
  rw [update_slotAt_tail] at hheld
  refine ⟨b, hdes, hheld, Within.traffic ?_ hhas⟩
  unfold Block.destroyAt at hdes
  split at hdes
  · cases hdes
    exact .of_onlyElements (mem_window le_rfl hqt) (.setElement _ none)
  · cases hdes

end First

end ConcurrentQueue
