import ConcurrentQueue.ImplicitSound

/-!
# ConcurrentQueue.BulkCount

**How many elements a bulk enqueue can take.** A call does what it should exactly when
its count fits (`Fits`): it fails and leaves the tail index where it was, or all of its
elements are constructed at the indices that follow the tail index, each in a slot of
its own (`Placed`). With a larger count the call takes the last of its blocks for the
one before the tail and gets no block at all.
-/

namespace ConcurrentQueue

open Wrap
open Option (bind_eq_bind bind_eq_some_iff)

variable {α : Type} {e : Env}

/-! ### Elements in place -/

/-- The elements of `l` stand at the indices from `start` on, each in a slot of its own.
`find` gives the block of an index. -/
def Placed (e : Env) (mem : Mem α) (find : BitVec e.bits → Option Nat) (start : BitVec e.bits)
    (l : List α) : Prop :=
  ∃ block : Nat → Nat, (∀ n < l.length, find (start + BitVec.ofNat e.bits n) = some (block n) ∧
      (mem.blocks (block n)).elements (e.offset (start + BitVec.ofNat e.bits n)) = l[n]?) ∧
    ∀ m < l.length, ∀ n < l.length, block m = block n →
      e.offset (start + BitVec.ofNat e.bits m) = e.offset (start + BitVec.ofNat e.bits n) → m = n

/-- The elements of blocks that a producer holds are in place if it can find the blocks. -/
theorem Held.placed {ctx : InnerQueueContext} {mem : Mem α} {β : Nat → Nat} {s t head : Nat}
    {ν : Nat → Option Nat} {l : List α} {g : Nat → Nat} {find : BitVec e.bits → Option Nat}
    (h : Held e ctx mem β s t ν (slotAt head l) g)
    (hlive : ∀ n < l.length, s ≤ (head + n) / e.BLOCK_SIZE ∧ (head + n) / e.BLOCK_SIZE < t)
    (hfind : ∀ n < l.length,
      find (BitVec.ofNat e.bits (head + n)) = some (β ((head + n) / e.BLOCK_SIZE))) :
    Placed e mem find (BitVec.ofNat e.bits head) l := by
  refine ⟨fun n => β ((head + n) / e.BLOCK_SIZE), fun n hn => ?_, fun m hm n hn hblock hoff => ?_⟩
  · obtain ⟨hs, ht⟩ := hlive n hn
    rw [BitVec.ofNat_add_ofNat, Traits.offset_ofNat,
      h.slot _ _ hs ht (Nat.mod_lt _ e.BLOCK_SIZE_pos), block_add, slotAt,
      if_pos (Nat.le_add_right ..), Nat.add_sub_cancel_left]
    exact ⟨hfind n hn, rfl⟩
  · obtain ⟨hsm, htm⟩ := hlive m hm
    obtain ⟨hsn, htn⟩ := hlive n hn
    have hdiv := h.inj _ _ hsm htm hsn htn hblock
    rw [BitVec.ofNat_add_ofNat, BitVec.ofNat_add_ofNat, Traits.offset_ofNat,
      Traits.offset_ofNat] at hoff
    have haddm := block_add e.BLOCK_SIZE (head + m)
    have haddn := block_add e.BLOCK_SIZE (head + n)
    rw [hdiv, hoff] at haddm
    omega

/-! ### A producer from outside -/

/-- What can be seen of a producer of either kind. -/
structure Face (w : Nat) (α σ : Type) where
  mem : σ → Mem α
  headIndex : σ → BitVec w
  tailIndex : σ → BitVec w
  /-- The block that a consumer finds for an index. -/
  lookup : σ → BitVec w → Option Nat
  destroy : σ → Option (List α × Mem α)

section Face

variable {σ : Type} (f : Face e.bits α σ) {xs l : List α} {s s' : σ} {head : Nat}

/-- The elements of `l`, and no others, are in the queue. -/
def Face.Holds (s : σ) (l : List α) : Prop :=
  Placed e (f.mem s) (f.lookup s) (f.headIndex s) l ∧ ∃ mem', f.destroy s = some (l, mem')

/-- They stand at the indices from `head` on. -/
structure Face.Shows (s : σ) (head : Nat) (l : List α) : Prop where
  headIndex : f.headIndex s = BitVec.ofNat e.bits head
  tailIndex : f.tailIndex s = BitVec.ofNat e.bits (head + l.length)
  holds : f.Holds s l

/-- What a bulk call should do to a queue of the elements `l`. -/
def BulkRight (enqueueBulk : σ → Option (σ × Pushed)) (xs l : List α) (s : σ) : Prop :=
  ∃ s' ok, enqueueBulk s = some (s', .returned ok) ∧
    (ok = false → f.tailIndex s' = f.tailIndex s) ∧
    (ok = true → f.headIndex s' = f.headIndex s ∧
      f.tailIndex s = f.headIndex s + BitVec.ofNat e.bits l.length ∧
      f.tailIndex s' = f.tailIndex s + BitVec.ofNat e.bits xs.length ∧ f.Holds s' (l ++ xs))

variable {f} {enqueueBulk : σ → Option (σ × Pushed)}

theorem Face.Shows.bulkRight (h : f.Shows s head l) (h' : f.Shows s' head (l ++ xs))
    (hcall : enqueueBulk s = some (s', .returned true)) : BulkRight f enqueueBulk xs l s := by
  refine ⟨s', true, hcall, nofun, fun _ => ⟨?_, ?_, ?_, h'.holds⟩⟩
  · rw [h.headIndex, h'.headIndex]
  · rw [h.headIndex, h.tailIndex, BitVec.ofNat_add_ofNat]
  · rw [h.tailIndex, h'.tailIndex, BitVec.ofNat_add_ofNat, List.length_append, Nat.add_assoc]

theorem bulkRight_of_failed (hcall : enqueueBulk s = some (s', .returned false))
    (htail : f.tailIndex s' = f.tailIndex s) : BulkRight f enqueueBulk xs l s :=
  ⟨s', false, hcall, fun _ => htail, nofun⟩

end Face

/-! ### The explicit producer -/

namespace Explicit

variable {st st' : State e.bits α} {v : View} {l : List α}

/-- The block of an element is one of the ring. -/
theorem Inv.live (h : Inv e st v l) {n : Nat} (hn : n < l.length) :
    v.s ≤ (v.head + n) / e.BLOCK_SIZE ∧ (v.head + n) / e.BLOCK_SIZE < v.t := by
  have hlen := h.len
  exact h.block_of_live (Nat.le_add_right ..) (by omega)

theorem Inv.lookup_eq (h : Inv e st v l) {n : Nat} (hn : n < l.length) :
    Explicit.lookup e st.prod (BitVec.ofNat e.bits (v.head + n)) =
      some (v.β ((v.head + n) / e.BLOCK_SIZE)) :=
  h.lookup (h.live hn).1 (h.live hn).2

theorem Inv.placed (h : Inv e st v l) :
    Placed e st.mem (Explicit.lookup e st.prod) st.prod.headIndex l := by
  rw [h.headIndex]
  exact h.ring.placed (fun _ => h.live) fun _ => h.lookup_eq

theorem pushEntry_tailIndex {base : BitVec e.bits} (h : pushEntry e base st = some st') :
    st'.prod.tailIndex = st.prod.tailIndex := by
  simp only [pushEntry, bind_eq_bind, bind_eq_some_iff] at h
  obtain ⟨hdr, -, b, -, hdr', -, h⟩ := h
  obtain rfl := Option.some.inj h
  rfl

theorem ensureRoomBulk_tailIndex {mode : AllocationMode} {full ok : Bool}
    {saved saved' : Saved e.bits}
    (h : ensureRoomBulk e mode full saved st = some (st', saved', ok)) :
    st'.prod.tailIndex = st.prod.tailIndex := by
  unfold ensureRoomBulk at h
  split at h
  case isFalse =>
      cases h
      rfl
  case isTrue =>
      cases mode with
      | cannotAlloc =>
          cases h
          rfl
      | canAlloc =>
          dsimp only at h
          split at h
          · cases h
            rfl
          · rw [bind_eq_bind, bind_eq_some_iff] at h
            obtain ⟨⟨st₁, ok₁⟩, hnew, h⟩ := h
            have hst₁ : st₁.prod.tailIndex = st.prod.tailIndex := by
              unfold newBlockIndex at hnew
              dsimp only at hnew
              split at hnew
              · cases hnew
                rfl
              · rw [bind_eq_bind, bind_eq_some_iff] at hnew
                obtain ⟨_, -, hnew⟩ := hnew
                cases hnew
                rfl
            dsimp only at h
            split at h <;>
            · cases h
              exact hst₁

theorem reuseAhead_tailIndex {n n' : Nat} {taken taken' : Taken e.bits}
    (h : reuseAhead e n taken st = some (n', taken', st')) :
    st'.prod.tailIndex = st.prod.tailIndex := by
  induction n generalizing taken st with
  | zero =>
      obtain ⟨-, -, rfl⟩ := by simpa [reuseAhead] using h
      rfl
  | succ n ih =>
      unfold reuseAhead at h
      split at h
      case h_1 =>
          obtain ⟨-, -, rfl⟩ := by simpa using h
          rfl
      case h_2 =>
          rw [bind_eq_bind, bind_eq_some_iff] at h
          obtain ⟨next, -, h⟩ := h
          split at h
          · obtain ⟨-, -, rfl⟩ := by simpa using h
            rfl
          · rw [bind_eq_bind, bind_eq_some_iff] at h
            obtain ⟨reusable, -, h⟩ := h
            split at h
            · rw [bind_eq_bind, bind_eq_some_iff] at h
              obtain ⟨st₁, hpush, h⟩ := h
              have hrest := ih h
              rw [pushEntry_tailIndex hpush] at hrest
              exact hrest
            · obtain ⟨-, -, rfl⟩ := by simpa using h
              rfl

theorem allocateBlocks_tailIndex {mode : AllocationMode} {n : Nat} {saved : Saved e.bits}
    {taken : Taken e.bits} {res : Option (Saved e.bits × Taken e.bits)}
    (h : allocateBlocks e mode n saved taken st = some (st', res)) :
    st'.prod.tailIndex = st.prod.tailIndex := by
  induction n generalizing saved taken st with
  | zero =>
      cases h
      rfl
  | succ n ih =>
      unfold allocateBlocks at h
      dsimp only at h
      split at h
      · cases h
      · rw [bind_eq_bind, bind_eq_some_iff] at h
        obtain ⟨⟨st₁, saved₁, ok⟩, hroom, h⟩ := h
        have hst₁ := ensureRoomBulk_tailIndex hroom
        dsimp only at h
        split at h
        · cases h
          exact hst₁
        · split at h
          · cases h
            exact hst₁
          · rw [bind_eq_bind, bind_eq_some_iff] at h
            obtain ⟨st₂, hpush, h⟩ := h
            exact (ih h).trans ((pushEntry_tailIndex hpush).trans hst₁)

/-- A bulk call that fails leaves the tail index alone. -/
theorem enqueueBulk_failed {mode : AllocationMode} {ctor : Ctor} {xs : List α}
    (h : enqueueBulk e mode ctor xs st = some (st', .returned false)) :
    st'.prod.tailIndex = st.prod.tailIndex := by
  have hconstruct : ∀ (saved : Saved e.bits) (first : Option Nat) (st : State e.bits α),
      constructAll e ctor xs saved first st ≠ some (st', .returned false) := by
    intro saved first st hc
    simp only [constructAll, bind_eq_bind] at hc
    split at hc
    · cases hc
    · obtain ⟨⟨i, tb, mem, threw⟩, -, hc⟩ := bind_eq_some_iff.mp hc
      dsimp only at hc
      split at hc <;>
      · obtain ⟨x, -, hx⟩ := bind_eq_some_iff.mp hc
        cases (Prod.mk.inj (Option.some.inj hx)).2
  simp only [enqueueBulk] at h
  split at h
  · exact absurd h (hconstruct _ _ _)
  · rw [bind_eq_bind, bind_eq_some_iff] at h
    obtain ⟨⟨n, taken, st₁⟩, hreuse, h⟩ := h
    rw [bind_eq_bind, bind_eq_some_iff] at h
    obtain ⟨⟨st₂, res⟩, halloc, h⟩ := h
    dsimp only at h
    split at h
    · cases h
      exact (allocateBlocks_tailIndex halloc).trans (reuseAhead_tailIndex hreuse)
    · simp only [bind_eq_bind, bind_eq_some_iff] at h
      obtain ⟨first, -, st₃, -, st₄, -, h⟩ := h
      exact absurd h (hconstruct _ _ _)

def face (e : Env) : Face e.bits α (State e.bits α) where
  mem st := st.mem
  headIndex st := st.prod.headIndex
  tailIndex st := st.prod.tailIndex
  lookup st := lookup e st.prod
  destroy := destroy e

theorem Inv.shows (h : Inv e st v l) : (face e).Shows st v.head l :=
  ⟨h.headIndex, h.len ▸ h.tailIndex, h.placed, h.destroy⟩

def BulkRight (e : Env) (mode : AllocationMode) (ctor : Ctor) (xs l : List α) :
    State e.bits α → Prop :=
  ConcurrentQueue.BulkRight (face e) (enqueueBulk e mode ctor xs) xs l

theorem Inv.bulkRight_iff (h : Inv e st v l) (hB : e.BLOCK_SIZE < 2 ^ (e.bits - 1))
    (mode : AllocationMode) {ctor : Ctor} {xs : List α}
    (hquiet : ∀ j < xs.length, ctor.throws j = false) (hlen : xs.length < 2 ^ e.bits) :
    BulkRight e mode ctor xs l st ↔ Fits e st.prod.tailIndex xs.length := by
  constructor
  · rintro ⟨st', ok, hcall, -⟩
    by_contra hfits
    rw [h.enqueueBulk_of_not_fits mode hquiet hlen hfits] at hcall
    cases hcall
  · intro hfits
    obtain ⟨st', r, hcall, htrue, -, hthrew⟩ := h.enqueueBulk mode ctor xs hfits fun _ => hB
    cases r with
    | threw =>
        obtain ⟨⟨j, hj, hthrow⟩, -⟩ := hthrew rfl
        exact absurd (hthrow.symm.trans (hquiet j hj)) nofun
    | returned ok =>
        cases ok with
        | false => exact bulkRight_of_failed hcall (enqueueBulk_failed hcall)
        | true =>
            obtain ⟨v', hinv, hhead, -⟩ := htrue rfl
            exact h.shows.bulkRight (hhead ▸ hinv.shows) hcall

end Explicit

/-! ### The implicit producer -/

namespace Implicit

open Explicit (tiny unused safe)

variable {st st' : State e.bits α} {v : View} {l : List α}

/-- The block that a consumer finds for an index. -/
def lookup (e : Env) (st : State e.bits α) (i : BitVec e.bits) : Option Nat :=
  (getBlockIndexEntryForIndex e i st).bind fun slot => loadValue e slot st

/-- The block of an element is held. -/
theorem Inv.live (h : Inv e st v l) {n : Nat} (hn : n < l.length) :
    v.s ≤ (v.head + n) / e.BLOCK_SIZE ∧ (v.head + n) / e.BLOCK_SIZE < v.t := by
  have hlen := h.len
  exact h.block_of_live (Nat.le_add_right ..) (by omega)

theorem Inv.lookup_eq (h : Inv e st v l) {n : Nat} (hn : n < l.length) :
    Implicit.lookup e st (BitVec.ofNat e.bits (v.head + n)) =
      some (v.β ((v.head + n) / e.BLOCK_SIZE)) := by
  have hlen := h.len
  obtain ⟨slot, hslot, hload⟩ := h.find (Nat.le_add_right v.head n) (by omega) st.mem
  rw [Implicit.lookup, hslot, Option.bind_some, hload]

theorem Inv.placed (h : Inv e st v l) :
    Placed e st.mem (Implicit.lookup e st) st.prod.headIndex l := by
  rw [h.headIndex]
  exact h.stock.held.placed (fun _ => h.live) fun _ => h.lookup_eq

def face (e : Env) : Face e.bits α (State e.bits α) where
  mem st := st.mem
  headIndex st := st.prod.headIndex
  tailIndex st := st.prod.tailIndex
  lookup := lookup e
  destroy := destroy e

theorem Inv.shows (h : Inv e st v l) : (face e).Shows st v.head l := by
  obtain ⟨mem', hdestroy, -⟩ := h.destroy
  exact ⟨h.headIndex, h.len ▸ h.tailIndex, h.placed, mem', hdestroy⟩

def BulkRight (e : Env) (mode : AllocationMode) (ctor : Ctor) (xs l : List α) :
    State e.bits α → Prop :=
  ConcurrentQueue.BulkRight (face e) (enqueueBulk e mode ctor xs) xs l

theorem Inv.bulkRight_iff (h : Inv e st v l) (hB : e.BLOCK_SIZE < 2 ^ (e.bits - 1))
    (mode : AllocationMode) {ctor : Ctor} {xs : List α}
    (hquiet : ∀ j < xs.length, ctor.throws j = false) (hlen : xs.length < 2 ^ e.bits) :
    BulkRight e mode ctor xs l st ↔ Fits e st.prod.tailIndex xs.length := by
  constructor
  · rintro ⟨st', ok, hcall, -⟩
    by_contra hfits
    rw [h.enqueueBulk_of_not_fits mode hquiet hlen hfits] at hcall
    cases hcall
  · intro hfits
    obtain ⟨st', v', r, hcall, -, hthrew, hinv, hgrows, -⟩ :=
      h.enqueueBulk mode ctor xs (h.fits hfits) fun _ => hB
    have hshows := hinv.shows
    rw [hgrows.head_eq] at hshows
    cases r with
    | threw =>
        obtain ⟨-, j, hj, hthrow⟩ := hthrew.mp rfl
        exact absurd (hthrow.symm.trans (hquiet j hj)) nofun
    | returned ok =>
        cases ok with
        | false =>
            rw [if_neg (by simp)] at hshows
            exact bulkRight_of_failed hcall (hshows.tailIndex.trans h.shows.tailIndex.symm)
        | true =>
            rw [if_pos rfl] at hshows
            exact h.shows.bulkRight hshows hcall

end Implicit

/-! ### Runs -/

open Explicit (tiny unused safe)

/-- **A bulk enqueue is right exactly for the counts that fit**, in every state that runs
of such calls lead to. The calls on the explicit producer must be clean as well. -/
theorem bulk_right_iff (hB : e.BLOCK_SIZE < 2 ^ (e.bits - 2)) (mode : AllocationMode)
    {ctor : Ctor} {xs : List α} (hquiet : ∀ j < xs.length, ctor.throws j = false)
    (hlen : xs.length < 2 ^ e.bits) :
    (∀ st tr, Run (Explicit.step e) (Explicit.Fresh e) (fun _ => Explicit.Clean e) st tr →
      (Explicit.BulkRight e mode ctor xs tr.content st ↔ Fits e st.prod.tailIndex xs.length)) ∧
    ∀ st tr, Run (Implicit.step e) (Implicit.Fresh e) (fun _ st c _ => Sized e st.prod.tailIndex c)
        st tr →
      (Implicit.BulkRight e mode ctor xs tr.content st ↔ Fits e st.prod.tailIndex xs.length) := by
  have hB' : e.BLOCK_SIZE < 2 ^ (e.bits - 1) :=
    hB.trans_le (Nat.pow_le_pow_right Nat.two_pos (by omega))
  refine ⟨fun st tr hrun => ?_, fun st tr hrun => ?_⟩
  · obtain ⟨⟨v, hinv⟩, -⟩ := Explicit.inv_of_run (fun _ _ _ _ _ _ _ _ hok => hok) hrun
    exact hinv.bulkRight_iff hB' mode hquiet hlen
  · obtain ⟨⟨v, hinv⟩, -⟩ := Implicit.inv_of_run (fun _ _ _ _ _ _ _ _ hok => hok) hrun
    exact hinv.bulkRight_iff hB' mode hquiet hlen

/-- Two elements behind one that is left over. -/
theorem bulk_right_tiny :
    (∃ st tr, Run (Explicit.step (tiny [])) (Explicit.Fresh (tiny []))
        (fun _ => Explicit.Clean (tiny [])) st tr ∧ tr.content = [3] ∧
      Explicit.BulkRight (tiny []) .canAlloc safe [4, 5] tr.content st) ∧
    ∃ st tr, Run (Implicit.step (tiny [])) (Implicit.Fresh (tiny []))
        (fun _ st c _ => Sized (tiny []) st.prod.tailIndex c) st tr ∧ tr.content = [3] ∧
      Implicit.BulkRight (tiny []) .canAlloc safe [4, 5] tr.content st := by
  have hquiet : ∀ j < [4, 5].length, safe.throws j = false := by decide
  have hright := bulk_right_iff (e := tiny []) (by decide) .canAlloc hquiet (by decide)
  obtain ⟨st, tr, hrun, hout⟩ := Explicit.exists_run (tiny []) (fun _ => Explicit.Clean (tiny []))
    [.enqueueBulk .canAlloc safe [1, 2, 3], .dequeueBulk 2#8 none]
    (fun r => (r.2.content, (tiny []).offset (r.1.prod.tailIndex - 1#_))) (y := ([3], 0))
    (by decide +kernel)
  obtain ⟨st', tr', hrun', hout'⟩ := Implicit.exists_run (tiny [])
    (fun _ st c _ => Sized (tiny []) st.prod.tailIndex c)
    [.enqueueBulk .canAlloc safe [1, 2, 3], .dequeueBulk 2#8 none]
    (fun r => (r.2.content, (tiny []).offset (r.1.prod.tailIndex - 1#_))) (y := ([3], 0))
    (by decide +kernel)
  obtain ⟨hcontent, hoff⟩ := Prod.mk.inj hout
  obtain ⟨hcontent', hoff'⟩ := Prod.mk.inj hout'
  refine ⟨⟨st, tr, hrun, hcontent, (hright.1 st tr hrun).mpr ?_⟩,
    ⟨st', tr', hrun', hcontent', (hright.2 st' tr' hrun').mpr ?_⟩⟩
  · rw [Fits, hoff]
    decide
  · rw [Fits, hoff']
    decide

/-- 255 elements on a new producer of eight-bit indices: no block is taken, and the
assertion fails that there is one. -/
theorem bulk_of_255_faults : (tiny []).BLOCK_SIZE < 2 ^ ((tiny []).bits - 2) ∧
    (List.replicate 255 0).length < 2 ^ (tiny []).bits ∧
    (∃ st, Explicit.Fresh (tiny []) st ∧
      Explicit.enqueueBulk (tiny []) .canAlloc safe (List.replicate 255 0) st = none) ∧
    ∃ st, Implicit.Fresh (tiny []) st ∧
      Implicit.enqueueBulk (tiny []) .canAlloc safe (List.replicate 255 0) st = none := by
  refine ⟨by decide, by rw [List.length_replicate]; decide, ?_, ?_⟩
  · have h : ((Explicit.create (tiny []) unused).map fun st =>
        (Explicit.enqueueBulk (tiny []) .canAlloc safe (List.replicate 255 0) st).isNone) =
          some true := by decide +kernel
    obtain ⟨st, hst, hnone⟩ := Option.map_eq_some_iff.mp h
    exact ⟨st, ⟨unused, Explicit.unused_wellFormed _, hst⟩, Option.isNone_iff_eq_none.mp hnone⟩
  · have h : ((Implicit.create (tiny []) unused).map fun st =>
        (Implicit.enqueueBulk (tiny []) .canAlloc safe (List.replicate 255 0) st).isNone) =
          some true := by decide +kernel
    obtain ⟨st, hst, hnone⟩ := Option.map_eq_some_iff.mp h
    exact ⟨st, ⟨unused, Implicit.unused_accounted _, hst⟩, Option.isNone_iff_eq_none.mp hnone⟩

end ConcurrentQueue
