import ConcurrentQueue.BulkCount

/-!
# ConcurrentQueue.Leftovers

**The destructors destroy what is left and nothing else.** To say which slots they touch,
every object in memory gets the name of its slot as a label (`Mem.labelled`). The code
never looks at the objects, so it does the same with labels and without
(`Explicit.destroy_map`, `Implicit.destroy_map`), and the labels of what it destroys are
the slots, in order.
-/

namespace ConcurrentQueue

open Wrap
open Option (bind_eq_bind bind_some map_some)

variable {α γ : Type} {e : Env}

/-! ### Labels -/

/-- Replace the object in each slot `i` of each block `b`. -/
def Mem.relabel (f : Nat → Nat → α → γ) (m : Mem α) : Mem γ where
  blocks b :=
    { elements := fun i => ((m.blocks b).elements i).map (f b i)
      next := (m.blocks b).next
      elementsCompletelyDequeued := (m.blocks b).elementsCompletelyDequeued
      emptyFlags := (m.blocks b).emptyFlags
      dynamicallyAllocated := (m.blocks b).dynamicallyAllocated }
  initialBlockPoolIndex := m.initialBlockPoolIndex
  freeList := m.freeList
  created := m.created
  mallocs := m.mallocs
  destroyed := m.destroyed

/-- Each object with its block and its offset. -/
def Mem.labelled (m : Mem α) : Mem (α × Nat × Nat) := m.relabel fun b i x => (x, b, i)

def Mem.map (f : α → γ) (m : Mem α) : Mem γ := m.relabel fun _ _ => f

theorem Mem.map_labelled (m : Mem α) : m.labelled.map Prod.fst = m := by
  have hblocks : ∀ b, (m.labelled.map Prod.fst).blocks b = m.blocks b := by
    intro b
    have helements : ((m.labelled.map Prod.fst).blocks b).elements = (m.blocks b).elements := by
      funext i
      simp only [Mem.map, Mem.labelled, Mem.relabel, Option.map_map]
      exact Option.map_id_apply
    simp only [Mem.map, Mem.labelled, Mem.relabel] at helements ⊢
    rw [helements]
  obtain ⟨blocks, pool, free, created, mallocs, destroyed⟩ := m
  simp only [Mem.map, Mem.labelled, Mem.relabel, Mem.mk.injEq, and_true] at hblocks ⊢
  funext b
  exact hblocks b

theorem Mem.WellFormed.relabel {m : Mem α} (h : m.WellFormed e) (f : Nat → Nat → α → γ) :
    (m.relabel f).WellFormed e :=
  ⟨h.nodup, h.listed, fun b hb i => by
    simp only [Mem.relabel, h.vacant b hb i, Option.map_none]⟩

theorem Mem.Accounted.relabel {m : Mem α} (h : m.Accounted e) (f : Nat → Nat → α → γ) :
    (m.relabel f).Accounted e where
  wellFormed := h.wellFormed.relabel f
  nodup := h.nodup
  gone := h.gone
  empty b hb i := by simp only [Mem.relabel, h.empty b hb i, Option.map_none]
  bounded b i hi := by simp only [Mem.relabel, h.bounded b i hi, Option.map_none]
  dynamic := h.dynamic

/-- The objects of a list at the indices from `head` on get the labels of their slots. -/
def relabelled (e : Env) (β : Nat → Nat) (head : Nat) (f : Nat → Nat → α → γ) (l : List α) :
    List γ :=
  l.mapIdx fun n x => f (β ((head + n) / e.BLOCK_SIZE)) ((head + n) % e.BLOCK_SIZE) x

theorem Held.relabel {ctx : InnerQueueContext} {mem : Mem α} {β : Nat → Nat} {s t head : Nat}
    {ν : Nat → Option Nat} {l : List α} {g : Nat → Nat}
    (h : Held e ctx mem β s t ν (slotAt head l) g) (f : Nat → Nat → α → γ) :
    Held e ctx (mem.relabel f) β s t ν (slotAt head (relabelled e β head f l)) g where
  wellFormed := h.wellFormed.relabel f
  inj := h.inj
  used := h.used
  link := h.link
  slot q i hs ht hi := by
    show ((mem.blocks (β q)).elements i).map (f (β q) i) = _
    rw [h.slot q i hs ht hi, slotAt, slotAt]
    split
    case isTrue hle =>
        have hback : head + (q * e.BLOCK_SIZE + i - head) = q * e.BLOCK_SIZE + i := by omega
        rw [relabelled, List.getElem?_mapIdx, hback, block_div hi, block_mod hi]
    case isFalse => rfl
  mark := h.mark

/-! ### The code does not look at the objects -/

/-- Apply `f` to all objects. -/
def Block.map (f : α → γ) (b : Block α) : Block γ where
  elements i := (b.elements i).map f
  next := b.next
  elementsCompletelyDequeued := b.elementsCompletelyDequeued
  emptyFlags := b.emptyFlags
  dynamicallyAllocated := b.dynamicallyAllocated

section Map

variable (f : α → γ)

theorem Mem.blocks_map (m : Mem α) (b : Nat) : (m.map f).blocks b = (m.blocks b).map f := rfl

theorem Block.destroyAt_map (b : Block α) (i : BitVec e.bits) :
    (b.map f).destroyAt e.toTraits i =
      (b.destroyAt e.toTraits i).map (Prod.map f (Block.map f)) := by
  unfold Block.destroyAt
  simp only [Block.map]
  cases b.elements (e.offset i) with
  | none => rfl
  | some x =>
      have herase : (fun j => (Function.update b.elements (e.offset i) none j).map f) =
          Function.update (fun j => (b.elements j).map f) (e.offset i) none := by
        funext j
        by_cases hj : j = e.offset i
        · simp [hj]
        · simp [hj]
      simp [Block.setElement, Block.map, herase]

theorem Mem.setBlock_map (m : Mem α) (b : Nat) (x : Block α) :
    (m.map f).setBlock b (x.map f) = (m.setBlock b x).map f := by
  have hblocks : Function.update (m.map f).blocks b (x.map f) =
      fun c => (Function.update m.blocks b x c).map f := by
    funext c
    by_cases hc : c = b
    · subst hc
      simp
    · simp [hc, Mem.blocks_map]
  simp only [Mem.setBlock, hblocks]
  rfl

theorem Mem.addBlockToFreeList_map (m : Mem α) (b : Nat) :
    (m.map f).addBlockToFreeList e b = (m.addBlockToFreeList e b).map f := by
  unfold Mem.addBlockToFreeList
  rw [Mem.blocks_map, Block.map]
  split <;> rfl

end Map

namespace Explicit

variable (f : α → γ)

theorem destroyOffsets_map (b stop fuel i : Nat) (m : Mem α) :
    destroyOffsets e b stop fuel i (m.map f) =
      (destroyOffsets e b stop fuel i m).map (Prod.map (List.map f) (Mem.map f)) := by
  induction fuel generalizing i m with
  | zero => rfl
  | succ fuel ih =>
      rw [destroyOffsets, destroyOffsets]
      split
      · rfl
      · rw [Mem.blocks_map, Block.destroyAt_map]
        cases (m.blocks b).destroyAt e.toTraits (BitVec.ofNat e.bits i) with
        | none => rfl
        | some r =>
            simp only [map_some, bind_eq_bind, bind_some, Prod.map,
              Mem.setBlock_map, ih]
            cases destroyOffsets e b stop fuel (i + 1) (m.setBlock b r.2) <;> rfl

theorem destroyBlock_map (p : ExplicitProducer e.bits) (half : Option Nat) (b : Nat) (m : Mem α) :
    destroyBlock e p half b (m.map f) =
      (destroyBlock e p half b m).map (Prod.map (List.map f) (Mem.map f)) := by
  have hempty : ((m.map f).blocks b).isEmpty e.toTraits .explicitContext =
      (m.blocks b).isEmpty e.toTraits .explicitContext := rfl
  simp only [destroyBlock, hempty, destroyOffsets_map, bind_eq_bind]
  cases (m.blocks b).isEmpty e.toTraits .explicitContext with
  | none => rfl
  | some empty => cases empty <;> rfl

theorem destroyElements_map (p : ExplicitProducer e.bits) (half : Option Nat) (fuel b : Nat)
    (m : Mem α) :
    destroyElements e p half fuel b (m.map f) =
      (destroyElements e p half fuel b m).map (Prod.map (List.map f) (Mem.map f)) := by
  induction fuel generalizing b m with
  | zero => rfl
  | succ fuel ih =>
      have hnext : ((m.map f).blocks b).next = (m.blocks b).next := rfl
      simp only [destroyElements, hnext, destroyBlock_map, bind_eq_bind]
      cases (m.blocks b).next with
      | none => rfl
      | some block =>
          rw [bind_some, bind_some]
          cases destroyBlock e p half block m with
          | none => rfl
          | some r =>
              simp only [map_some, bind_some, Prod.map, ih]
              split
              · rfl
              · cases destroyElements e p half fuel block r.2 with
                | none => rfl
                | some r' => simp

theorem releaseBlocks_map (tb : Option Nat) (fuel b : Nat) (m : Mem α) :
    releaseBlocks e tb fuel b (m.map f) = (releaseBlocks e tb fuel b m).map (Mem.map f) := by
  induction fuel generalizing b m with
  | zero => rfl
  | succ fuel ih =>
      have hnext : ((m.map f).blocks b).next = (m.blocks b).next := rfl
      simp only [releaseBlocks, hnext, Mem.addBlockToFreeList_map, ih, bind_eq_bind]
      cases (m.blocks b).next with
      | none => rfl
      | some next =>
          rw [bind_some, bind_some]
          split <;> rfl

/-- The destructor does the same whatever the objects are. -/
theorem destroy_map (m : Mem α) (p : ExplicitProducer e.bits) :
    destroy e (⟨m.map f, p⟩ : State e.bits γ) =
      (destroy e (⟨m, p⟩ : State e.bits α)).map (Prod.map (List.map f) (Mem.map f)) := by
  cases htb : p.tailBlock with
  | none => simp only [destroy, htb, map_some, Prod.map, List.map_nil]
  | some tb =>
      simp only [destroy, htb, destroyElements_map, bind_eq_bind]
      cases halfDequeued e p with
      | none => rfl
      | some half =>
          rw [bind_some, bind_some]
          cases destroyElements e p half (2 ^ e.bits) tb m with
          | none => rfl
          | some r =>
              simp only [map_some, bind_some, Prod.map, releaseBlocks_map]
              cases releaseBlocks e (some tb) (2 ^ e.bits) tb r.2 <;> rfl

end Explicit

namespace Implicit

variable (f : α → γ)

theorem enterBlock_map (block : Option Nat) (i : BitVec e.bits) (m : Mem α)
    (p : ImplicitProducer e.bits) :
    enterBlock e block i (⟨m.map f, p⟩ : State e.bits γ) =
      (enterBlock e block i (⟨m, p⟩ : State e.bits α)).map fun r =>
        (r.1, ⟨r.2.mem.map f, r.2.prod⟩) := by
  -- the index is not in the blocks
  have hfind : ∀ m : Mem α, (do
      let slot ← getBlockIndexEntryForIndex e i (⟨m.map f, p⟩ : State e.bits γ)
      let b ← loadValue e slot (⟨m.map f, p⟩ : State e.bits γ)
      some (b, (⟨m.map f, p⟩ : State e.bits γ))) = (do
      let slot ← getBlockIndexEntryForIndex e i (⟨m, p⟩ : State e.bits α)
      let b ← loadValue e slot (⟨m, p⟩ : State e.bits α)
      some (b, (⟨m, p⟩ : State e.bits α))).map fun r : Nat × State e.bits α =>
        (r.1, ⟨r.2.mem.map f, r.2.prod⟩) := by
    intro m
    have hslot : getBlockIndexEntryForIndex e i (⟨m.map f, p⟩ : State e.bits γ) =
        getBlockIndexEntryForIndex e i (⟨m, p⟩ : State e.bits α) := rfl
    rw [hslot]
    cases getBlockIndexEntryForIndex e i (⟨m, p⟩ : State e.bits α) with
    | none => rfl
    | some slot =>
        have hload : loadValue e slot (⟨m.map f, p⟩ : State e.bits γ) =
            loadValue e slot (⟨m, p⟩ : State e.bits α) := rfl
        simp only [bind_eq_bind, bind_some, hload]
        cases loadValue e slot (⟨m, p⟩ : State e.bits α) <;> rfl
  cases block with
  | none => exact hfind m
  | some b =>
      simp only [enterBlock, setMem, Mem.addBlockToFreeList_map]
      split
      · exact hfind _
      · rfl

theorem destroyElements_map (tail : BitVec e.bits) (fuel : Nat) (block : Option Nat)
    (i : BitVec e.bits) (m : Mem α) (p : ImplicitProducer e.bits) :
    destroyElements e tail fuel block i (⟨m.map f, p⟩ : State e.bits γ) =
      (destroyElements e tail fuel block i (⟨m, p⟩ : State e.bits α)).map fun r =>
        (r.1.map f, ⟨r.2.mem.map f, r.2.prod⟩) := by
  induction fuel generalizing block i m p with
  | zero => rfl
  | succ fuel ih =>
      rw [destroyElements, destroyElements]
      split
      · rfl
      · rw [enterBlock_map]
        cases enterBlock e block i (⟨m, p⟩ : State e.bits α) with
        | none => rfl
        | some r =>
            simp only [map_some, bind_eq_bind, bind_some, Mem.blocks_map,
              Block.destroyAt_map]
            cases (r.2.mem.blocks r.1).destroyAt e.toTraits i with
            | none => rfl
            | some r' =>
                simp only [map_some, bind_some, Prod.map, setMem, Mem.setBlock_map,
                  ih]
                cases destroyElements e tail fuel (some r.1) (i + 1#e.bits)
                  (⟨r.2.mem.setBlock r.1 r'.2, r.2.prod⟩ : State e.bits α) <;> rfl

/-- The destructor does the same whatever the objects are. -/
theorem destroy_map (m : Mem α) (p : ImplicitProducer e.bits) :
    destroy e (⟨m.map f, p⟩ : State e.bits γ) =
      (destroy e (⟨m, p⟩ : State e.bits α)).map (Prod.map (List.map f) (Mem.map f)) := by
  simp only [destroy, destroyElements_map, bind_eq_bind]
  split
  case isFalse => rfl
  case isTrue =>
      cases destroyElements e p.tailIndex (2 ^ e.bits + 1) none p.headIndex
        (⟨m, p⟩ : State e.bits α) with
      | none => rfl
      | some r =>
          simp only [map_some, bind_some]
          cases r.2.prod.tailBlock with
          | none => rfl
          | some tb =>
              dsimp only
              rw [Mem.addBlockToFreeList_map]
              split <;> rfl

end Implicit

/-! ### What is destroyed -/

/-- The objects `ls` with the labels of their slots are the elements `l` at the indices
from `head` on, each in a slot of its own. -/
structure Labels (e : Env) (find : BitVec e.bits → Option Nat) (head : BitVec e.bits) (l : List α)
    (ls : List (α × Nat × Nat)) : Prop where
  values : ls.map Prod.fst = l
  apart : (ls.map Prod.snd).Nodup
  place : ∀ n < l.length, ∃ x b, ls[n]? = some (x, b, e.offset (head + BitVec.ofNat e.bits n)) ∧
    find (head + BitVec.ofNat e.bits n) = some b

theorem Held.labels {ctx : InnerQueueContext} {mem : Mem α} {β : Nat → Nat} {s t head : Nat}
    {ν : Nat → Option Nat} {l : List α} {g : Nat → Nat} {find : BitVec e.bits → Option Nat}
    (h : Held e ctx mem β s t ν (slotAt head l) g)
    (hlive : ∀ n < l.length, s ≤ (head + n) / e.BLOCK_SIZE ∧ (head + n) / e.BLOCK_SIZE < t)
    (hfind : ∀ n < l.length,
      find (BitVec.ofNat e.bits (head + n)) = some (β ((head + n) / e.BLOCK_SIZE))) :
    Labels e find (BitVec.ofNat e.bits head) l
      (relabelled e β head (fun b i x => (x, b, i)) l) where
  values := by
    refine List.ext_getElem? fun n => ?_
    rw [List.getElem?_map, relabelled, List.getElem?_mapIdx, Option.map_map]
    exact Option.map_id_apply
  apart := by
    refine List.nodup_iff_getElem?_ne_getElem?.mpr fun m n hmn hn heq => ?_
    rw [List.length_map, relabelled, List.length_mapIdx] at hn
    simp only [relabelled, List.getElem?_map, List.getElem?_mapIdx,
      List.getElem?_eq_getElem hn, List.getElem?_eq_getElem (hmn.trans hn), map_some,
      Option.some.injEq, Prod.mk.injEq] at heq
    obtain ⟨hsm, htm⟩ := hlive m (hmn.trans hn)
    obtain ⟨hsn, htn⟩ := hlive n hn
    have hdiv := h.inj _ _ hsm htm hsn htn heq.1
    have haddm := block_add e.BLOCK_SIZE (head + m)
    have haddn := block_add e.BLOCK_SIZE (head + n)
    rw [hdiv, heq.2] at haddm
    omega
  place n hn := by
    rw [BitVec.ofNat_add_ofNat, Traits.offset_ofNat, relabelled, List.getElem?_mapIdx,
      List.getElem?_eq_getElem hn]
    exact ⟨_, _, rfl, hfind n hn⟩

namespace Explicit

variable {st : State e.bits α} {v : View} {l : List α}

theorem Inv.relabel (h : Inv e st v l) (f : Nat → Nat → α → γ) :
    Inv e ⟨st.mem.relabel f, st.prod⟩ v (relabelled e v.β v.head f l) :=
  { h with
    ring := h.ring.relabel f
    len := by
      rw [relabelled, List.length_mapIdx]
      exact h.len }

/-- The destructor on labelled objects, and on those of the queue. -/
theorem Inv.leftovers (h : Inv e st v l) :
    ∃ ls mem', Explicit.destroy e (⟨st.mem.labelled, st.prod⟩ : State e.bits (α × Nat × Nat)) =
        some (ls, mem') ∧
      Explicit.destroy e st = some (l, mem'.map Prod.fst) ∧
      Labels e (Explicit.lookup e st.prod) st.prod.headIndex l ls := by
  have hlabels := h.ring.labels (fun _ => h.live) fun _ => h.lookup_eq
  obtain ⟨mem', hdestroy⟩ := (h.relabel fun b i x => (x, b, i)).destroy
  have hforget := destroy_map Prod.fst st.mem.labelled st.prod
  have hdestroy : Explicit.destroy e (⟨st.mem.labelled, st.prod⟩ : State e.bits (α × Nat × Nat)) =
      _ := hdestroy
  rw [Mem.map_labelled, hdestroy, map_some, Prod.map, hlabels.values] at hforget
  rw [← h.headIndex] at hlabels
  exact ⟨_, mem', hdestroy, hforget, hlabels⟩

/-- The search for the block that is partially dequeued ends at the block of the head. -/
theorem Inv.halfDequeued_lookup (h : Inv e st v l)
    (hne : st.prod.headIndex &&& e.blockMask ≠ 0) :
    ∃ b, Explicit.lookup e st.prod st.prod.headIndex = some b ∧
      Explicit.halfDequeued e st.prod = some (some b) := by
  have hmod : v.head % e.BLOCK_SIZE ≠ 0 := by
    rw [h.headIndex] at hne
    exact mt (e.and_blockMask_eq_zero _).mpr hne
  obtain ⟨hs, ht⟩ := h.head_block hmod
  refine ⟨v.β (v.head / e.BLOCK_SIZE), ?_, ?_⟩
  · rw [h.headIndex, h.lookup hs ht]
  · rw [h.halfDequeued (by omega), if_neg hmod]

end Explicit

namespace Implicit

variable {st : State e.bits α} {v : View} {l : List α}

theorem Inv.relabel (h : Inv e st v l) (f : Nat → Nat → α → γ) :
    Inv e ⟨st.mem.relabel f, st.prod⟩ v (relabelled e v.β v.head f l) :=
  { h with
    stock := { h.stock with
      has := ⟨h.stock.has.accounted.relabel f, h.stock.has.inUse⟩
      held := h.stock.held.relabel f }
    len := by
      rw [relabelled, List.length_mapIdx]
      exact h.len }

/-- The destructor on labelled objects, and on those of the queue. -/
theorem Inv.leftovers (h : Inv e st v l) :
    ∃ ls mem', Implicit.destroy e (⟨st.mem.labelled, st.prod⟩ : State e.bits (α × Nat × Nat)) =
        some (ls, mem') ∧
      Implicit.destroy e st = some (l, mem'.map Prod.fst) ∧
      Labels e (Implicit.lookup e st) st.prod.headIndex l ls := by
  have hlabels := h.stock.held.labels (fun _ => h.live) fun _ => h.lookup_eq
  obtain ⟨mem', hdestroy, -⟩ := (h.relabel fun b i x => (x, b, i)).destroy
  have hforget := destroy_map Prod.fst st.mem.labelled st.prod
  have hdestroy : Implicit.destroy e (⟨st.mem.labelled, st.prod⟩ : State e.bits (α × Nat × Nat)) =
      _ := hdestroy
  rw [Mem.map_labelled, hdestroy, map_some, Prod.map, hlabels.values] at hforget
  rw [← h.headIndex] at hlabels
  exact ⟨_, mem', hdestroy, hforget, hlabels⟩

end Implicit

/-! ### Runs -/

open Explicit (tiny unused safe)

/-- **The destructor destroys each leftover element once, in order, and nothing else**, in
every state that calls whose enqueues succeed lead to. -/
theorem leftovers_destroyed :
    (∀ (st : Explicit.State e.bits α) tr, Run (Explicit.step e) (Explicit.Fresh e)
        (fun _ _ c o => c.Accepted o) st tr →
      st.prod.tailIndex = st.prod.headIndex + BitVec.ofNat e.bits tr.content.length ∧
      (∃ ls mem', Explicit.destroy e ⟨st.mem.labelled, st.prod⟩ = some (ls, mem') ∧
        Explicit.destroy e st = some (tr.content, mem'.map Prod.fst) ∧
        Labels e (Explicit.lookup e st.prod) st.prod.headIndex tr.content ls) ∧
      (st.prod.headIndex &&& e.blockMask ≠ 0 → ∃ b,
        Explicit.lookup e st.prod st.prod.headIndex = some b ∧
        Explicit.halfDequeued e st.prod = some (some b))) ∧
    ∀ (st : Implicit.State e.bits α) tr, Run (Implicit.step e) (Implicit.Fresh e)
        (fun _ _ c o => c.Accepted o) st tr →
      st.prod.tailIndex = st.prod.headIndex + BitVec.ofNat e.bits tr.content.length ∧
      ∃ ls mem', Implicit.destroy e ⟨st.mem.labelled, st.prod⟩ = some (ls, mem') ∧
        Implicit.destroy e st = some (tr.content, mem'.map Prod.fst) ∧
        Labels e (Implicit.lookup e st) st.prod.headIndex tr.content ls := by
  refine ⟨fun st tr hrun => ?_, fun st tr hrun => ?_⟩
  · obtain ⟨⟨v, hinv⟩, -⟩ :=
      Explicit.inv_of_run (fun _ _ _ _ _ _ hinv hstep hok => hinv.clean hstep hok) hrun
    refine ⟨?_, hinv.leftovers, hinv.halfDequeued_lookup⟩
    rw [hinv.tailIndex, hinv.headIndex, BitVec.ofNat_add_ofNat, hinv.len]
  · obtain ⟨⟨v, hinv⟩, -⟩ :=
      Implicit.inv_of_run (fun _ _ _ _ _ _ hinv hstep hok => hinv.sized hstep hok) hrun
    refine ⟨?_, hinv.leftovers⟩
    rw [hinv.tailIndex, hinv.headIndex, BitVec.ofNat_add_ofNat, hinv.len]

/-- One element of the first block has been dequeued, and the block ahead is empty. -/
theorem leftovers_destroyed_tiny :
    (∃ (st : Explicit.State (tiny []).bits Nat) (tr : Trace (tiny []).bits Nat),
      Run (Explicit.step (tiny [])) (Explicit.Fresh (tiny [])) (fun _ _ c o => c.Accepted o) st tr ∧
      tr.content = [4, 5] ∧ (∃ mem', Explicit.destroy (tiny []) st = some (tr.content, mem')) ∧
      ∃ b, Explicit.lookup (tiny []) st.prod st.prod.headIndex = some b ∧
        Explicit.halfDequeued (tiny []) st.prod = some (some b)) ∧
    ∃ (st : Implicit.State (tiny []).bits Nat) (tr : Trace (tiny []).bits Nat),
      Run (Implicit.step (tiny [])) (Implicit.Fresh (tiny [])) (fun _ _ c o => c.Accepted o) st tr ∧
      tr.content = [4, 5] ∧ ∃ mem', Implicit.destroy (tiny []) st = some (tr.content, mem') := by
  constructor
  · obtain ⟨st, tr, hrun, hout⟩ := Explicit.exists_run (tiny []) (fun _ _ c o => c.Accepted o)
      [.enqueueBulk .canAlloc safe [1, 2, 3, 4, 5], .dequeueBulk 3#8 none]
      (fun r => (r.2.content, r.1.prod.headIndex &&& (tiny []).blockMask)) (y := ([4, 5], 1))
      (by decide +kernel)
    obtain ⟨hcontent, hhead⟩ := Prod.mk.inj hout
    obtain ⟨-, ⟨ls, mem', -, hdestroy, -⟩, hhalf⟩ := leftovers_destroyed.1 st tr hrun
    exact ⟨st, tr, hrun, hcontent, ⟨_, hdestroy⟩, hhalf (by rw [hhead]; decide)⟩
  · obtain ⟨st, tr, hrun, hcontent⟩ := Implicit.exists_run (tiny []) (fun _ _ c o => c.Accepted o)
      [.enqueueBulk .canAlloc safe [1, 2, 3, 4, 5], .dequeueBulk 3#8 none]
      (fun r => r.2.content) (y := [4, 5]) (by decide +kernel)
    obtain ⟨-, ls, mem', -, hdestroy, -⟩ := leftovers_destroyed.2 st tr hrun
    exact ⟨st, tr, hrun, hcontent, _, hdestroy⟩

end ConcurrentQueue
