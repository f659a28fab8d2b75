import ConcurrentQueue.ExplicitSound
import ConcurrentQueue.Lib.Cycle

/-!
# ConcurrentQueue.ExplicitCustody

**The circular block list of an explicit producer**, whatever has happened to its index: a
call that returns leaves the list a cycle, adds to it the blocks it has requisitioned, and
touches no block of another. `Owns` does not speak of elements, marks or index slots beyond
that the entries of the index are blocks of the list, so it survives calls that fail or throw
at any point.
-/

namespace ConcurrentQueue.Explicit

open Function Cycle
open Option (bind_eq_bind bind_eq_some_iff map_eq_some_iff some_ne_none)

variable {α : Type}

/-- The links between blocks. -/
def links (m : Mem α) (b : Nat) : Option Nat := (m.blocks b).next

/-- The blocks on the circular list. -/
def blockList {w : Nat} (st : State w α) : Set Nat :=
  { b | ∃ tb, st.prod.tailBlock = some tb ∧ Reaches (links st.mem) tb b }

/-- The entries of the index are blocks of `A`. -/
def EntriesIn {w : Nat} (A : Set Nat) (entries : Nat → Option (BlockIndexEntry w)) : Prop :=
  ∀ i x, entries i = some x → x.block ∈ A

/-- What a producer with the blocks `A` refers to. -/
structure RefersTo {w : Nat} (A : Set Nat) (p : ExplicitProducer w) : Prop where
  tail : ∀ b, p.tailBlock = some b → b ∈ A
  empty : p.tailBlock = none → A = ∅
  entries : ∀ h, p.blockIndex = some h → EntriesIn A h.entries

structure Owns (e : Env) (A : Set Nat) (st : State e.bits α) : Prop where
  has : Has e A st.mem
  cycle : IsCycle (links st.mem) A
  refers : RefersTo A st.prod

/-- From the blocks `A` to the blocks `A'`, which are not fewer. -/
structure Gains (e : Env) (A A' : Set Nat) (st st' : State e.bits α) : Prop where
  owns : Owns e A' st'
  traffic : Traffic e A A' st.mem st'.mem
  subset : A ⊆ A'

/-- Only the contents of blocks of `A` differ, and these are linked as before. -/
structure Touches (e : Env) (A : Set Nat) (m m' : Mem α) : Prop where
  within : Within e A m m'
  links_eq : links m' = links m

variable {e : Env} {A A' A'' : Set Nat} {st st' st'' : State e.bits α} {m m' m'' : Mem α}

theorem Owns.blockList_eq (h : Owns e A st) : blockList st = A := by
  ext b
  constructor
  · rintro ⟨tb, htb, hway⟩
    exact h.cycle.mem_of_reaches (h.refers.tail tb htb) hway
  · intro hb
    cases htb : st.prod.tailBlock with
    | none =>
        rw [h.refers.empty htb] at hb
        exact hb.elim
    | some tb => exact ⟨tb, htb, h.cycle.reaches tb (h.refers.tail tb htb) b hb⟩

theorem Owns.gains (h : Owns e A st) : Gains e A A st st := ⟨h, h.has.refl, subset_rfl⟩

theorem Gains.trans (h : Gains e A A' st st') (h' : Gains e A' A'' st' st'') :
    Gains e A A'' st st'' := ⟨h'.owns, h.traffic.trans h'.traffic, h.subset.trans h'.subset⟩

namespace Touches

theorem refl : Touches e A m m := ⟨.refl, rfl⟩

theorem trans (h : Touches e A m m') (h' : Touches e A m' m'') : Touches e A m m'' :=
  ⟨h.within.trans h'.within, h'.links_eq.trans h.links_eq⟩

theorem of_onlyElements {b : Nat} (hb : b ∈ A) (h : OnlyElements e b m m') : Touches e A m m' :=
  ⟨.of_onlyElements hb h, funext fun _ => Within.next_eq_of_onlyElements h⟩

/-- A block with other contents and the same link. -/
theorem setBlock {b : Nat} {x : Block α} (h : Within e A m (m.setBlock b x))
    (hx : x.next = (m.blocks b).next) : Touches e A m (m.setBlock b x) := by
  refine ⟨h, funext fun c => ?_⟩
  unfold links
  by_cases hcb : c = b
  · rw [hcb, Mem.blocks_setBlock, update_self, hx]
  · rw [Mem.blocks_setBlock, update_of_ne hcb]

end Touches

/-- The producer refers to the same blocks, and these are linked as before. -/
theorem Owns.touch (h : Owns e A st) (hmem : Touches e A st.mem m) {p : ExplicitProducer e.bits}
    (hp : RefersTo A p) : Gains e A A st ⟨m, p⟩ := by
  have htraffic := hmem.within.traffic h.has
  refine ⟨⟨htraffic.has, ?_, hp⟩, htraffic, subset_rfl⟩
  show IsCycle (links m) A
  rw [hmem.links_eq]
  exact h.cycle

theorem RefersTo.congr {p p' : ExplicitProducer e.bits} (h : RefersTo A p)
    (htail : p'.tailBlock = p.tailBlock) (hindex : p'.blockIndex = p.blockIndex) :
    RefersTo A p' :=
  ⟨fun b hb => h.tail b (htail.symm.trans hb), fun hb => h.empty (htail.symm.trans hb),
    fun hdr hhdr => h.entries hdr (hindex.symm.trans hhdr)⟩

/-! ### The index -/

theorem entriesIn_none {w : Nat} : EntriesIn (w := w) A fun _ => none := by
  intro i x hx
  cases hx

theorem EntriesIn.get {w : Nat} {h : BlockIndexHeader w} (hin : EntriesIn A h.entries)
    {i : BitVec w} {x : BlockIndexEntry w} (hx : h.get i = some x) : x.block ∈ A := by
  rw [BlockIndexHeader.get] at hx
  split at hx
  · exact hin _ _ hx
  · cases hx

theorem EntriesIn.update {w : Nat} {f : Nat → Option (BlockIndexEntry w)} (hin : EntriesIn A f)
    {x : BlockIndexEntry w} (hx : x.block ∈ A) (j : Nat) :
    EntriesIn A (update f j (some x)) := by
  intro i y hy
  by_cases hij : i = j
  · rw [hij, update_self] at hy
    rwa [← Option.some.inj hy]
  · rw [update_of_ne hij] at hy
    exact hin i y hy

theorem EntriesIn.copyEntries {w : Nat} {old : BlockIndexHeader w} {mask front : BitVec w}
    (hold : EntriesIn A old.entries) {fuel : Nat} {i : BitVec w} {j j' : Nat}
    {new new' : Nat → Option (BlockIndexEntry w)} (hnew : EntriesIn A new)
    (h : copyEntries old mask front fuel i j new = some (j', new')) : EntriesIn A new' := by
  induction fuel generalizing i j new with
  | zero => cases h
  | succ fuel ih =>
      rw [Explicit.copyEntries, bind_eq_bind, bind_eq_some_iff] at h
      obtain ⟨x, hx, h⟩ := h
      have hnext := hnew.update (hold.get hx) j
      dsimp only at h
      split at h
      · cases h
        exact hnext
      · exact ih hnext h

theorem Owns.newBlockIndex (h : Owns e A st) {n : BitVec e.bits} {ok : Bool}
    (hnew : newBlockIndex e n st = some (st', ok)) : Gains e A A st st' := by
  have hmem : Touches e A st.mem { st.mem with mallocs := st.mem.mallocs + 1 } :=
    ⟨.mallocs _, rfl⟩
  cases hok : e.mallocOk st.mem.mallocs with
  | false =>
      simp only [Explicit.newBlockIndex, Mem.malloc, hok] at hnew
      cases hnew
      exact h.touch hmem (h.refers.congr rfl rfl)
  | true =>
      simp only [Explicit.newBlockIndex, Mem.malloc, hok, bind_eq_bind,
        bind_eq_some_iff] at hnew
      obtain ⟨⟨j, new⟩, hcompact, hnew⟩ := hnew
      cases hnew
      refine h.touch hmem ⟨h.refers.tail, h.refers.empty, fun hdr hhdr => ?_⟩
      obtain rfl := Option.some.inj hhdr
      unfold compactEntries at hcompact
      dsimp only at hcompact ⊢
      split at hcompact
      · cases hcompact
        exact entriesIn_none
      · rw [bind_eq_bind, bind_eq_some_iff] at hcompact
        obtain ⟨old, hold, hcopy⟩ := hcompact
        exact (h.refers.entries old hold).copyEntries entriesIn_none hcopy

theorem RefersTo.pushEntry (h : RefersTo A st.prod) {base : BitVec e.bits}
    (hpush : pushEntry e base st = some st') : st'.mem = st.mem ∧ RefersTo A st'.prod := by
  simp only [Explicit.pushEntry, bind_eq_bind, bind_eq_some_iff,
    BlockIndexHeader.set, Option.ite_none_right_eq_some, Option.some.injEq] at hpush
  obtain ⟨hdr, hhdr, b, hb, hdr', ⟨-, rfl⟩, rfl⟩ := hpush
  refine ⟨rfl, h.tail, h.empty, fun hdr' hhdr' => ?_⟩
  obtain rfl := Option.some.inj hhdr'
  exact (h.entries hdr hhdr).update (h.tail b hb) _

theorem RefersTo.exposeFront (h : RefersTo A st.prod) {front : BitVec e.bits}
    (hfront : exposeFront e front st = some st') : st'.mem = st.mem ∧ RefersTo A st'.prod := by
  simp only [Explicit.exposeFront, bind_eq_bind, bind_eq_some_iff,
    Option.some.injEq] at hfront
  obtain ⟨hdr, hhdr, rfl⟩ := hfront
  refine ⟨rfl, h.tail, h.empty, fun hdr' hhdr' => ?_⟩
  obtain rfl := Option.some.inj hhdr'
  exact h.entries hdr hhdr

/-- The memory as it was, and a producer that refers to the same blocks. -/
theorem Owns.of_refers (h : Owns e A st) (hst' : st'.mem = st.mem ∧ RefersTo A st'.prod) :
    Gains e A A st st' := by
  obtain ⟨mem', p'⟩ := st'
  obtain ⟨rfl, hp⟩ := hst'
  exact h.touch .refl hp

/-! ### Blocks -/

theorem links_setNext (b : Nat) (x : Option Nat) :
    links (m.modify b fun y => { y with next := x }) = update (links m) b x := by
  funext c
  unfold links
  by_cases hcb : c = b
  · rw [hcb, Mem.modify, Mem.blocks_setBlock, update_self, update_self]
  · rw [Mem.modify, Mem.blocks_setBlock, update_of_ne hcb, update_of_ne hcb]

/-- A block is requisitioned, prepared by `F` and linked in. -/
theorem Owns.linkBlock (h : Owns e A st) {mode : AllocationMode} {b : Nat}
    (hr : st.mem.requisitionBlock e mode = (some b, m)) {F : Block α → Block α}
    (hF : ∀ x, (F x).elements = x.elements ∧
      (F x).dynamicallyAllocated = x.dynamicallyAllocated ∧ (F x).next = x.next) :
    Gains e A (insert b A) st (incSlotsUsed e (linkBlock e b ⟨m.modify b F, st.prod⟩)) := by
  have hreq := Mem.requisitionBlock_spec h.has.accounted.wellFormed hr
  have htaken := h.has.requisition hr
  have hbA : b ∉ A := fun hb => (h.has.inUse hb).1 hreq.free
  have hprep : Within e (insert b A) m (m.modify b F) :=
    .setBlock (.inl rfl) (hF _).2.1 fun _ _ => by rw [(hF _).1]
  have hold : ∀ c ∈ A, links (m.modify b F) c = links st.mem c := by
    intro c hc
    have hcb : c ≠ b := fun heq => hbA (heq ▸ hc)
    unfold links
    rw [Mem.modify, Mem.blocks_setBlock, update_of_ne hcb, hreq.frame c hcb]
  have hentries : ∀ hdr, st.prod.blockIndex = some hdr → EntriesIn (insert b A) hdr.entries :=
    fun hdr hhdr i x hx => .inr (h.refers.entries hdr hhdr i x hx)
  cases htb : st.prod.tailBlock with
  | none =>
      have hA : A = ∅ := h.refers.empty htb
      have hmem : Within e (insert b A) m (Explicit.linkBlock e b ⟨m.modify b F, st.prod⟩).mem := by
        simp only [Explicit.linkBlock, htb]
        exact hprep.trans (.setNext (.inl rfl) _)
      have htraffic := htaken.trans (hmem.traffic htaken.has)
      refine ⟨⟨htraffic.has, ?_, ?_, ?_, hentries⟩, htraffic, Set.subset_insert b A⟩
      · rw [hA, insert_empty_eq]
        refine isCycle_singleton ?_
        simp [links, incSlotsUsed, Explicit.linkBlock, htb, Mem.modify]
      · intro c hc
        exact .inl (Option.some.inj hc).symm
      · exact fun hc => absurd hc (some_ne_none b)
  | some tb =>
      have htbA : tb ∈ A := h.refers.tail tb htb
      have hne : tb ≠ b := fun heq => hbA (heq ▸ htbA)
      have hmem : Within e (insert b A) m (Explicit.linkBlock e b ⟨m.modify b F, st.prod⟩).mem := by
        simp only [Explicit.linkBlock, htb]
        exact (hprep.trans (.setNext (.inl rfl) _)).trans (.setNext (.inr htbA) _)
      have htraffic := htaken.trans (hmem.traffic htaken.has)
      have hlinks : links (incSlotsUsed e (Explicit.linkBlock e b ⟨m.modify b F, st.prod⟩)).mem =
          update (update (links (m.modify b F)) b (links (m.modify b F) tb)) tb
            (some b) := by
        rw [← links_setNext, ← links_setNext]
        simp only [incSlotsUsed, Explicit.linkBlock, htb]
        rfl
      refine ⟨⟨htraffic.has, ?_, ?_, ?_, hentries⟩, htraffic, Set.subset_insert b A⟩
      · rw [hlinks]
        refine h.cycle.insert htbA hbA (update_self ..) ?_ fun c hc hctb => ?_
        · rw [update_of_ne hne.symm, update_self, hold tb htbA]
        · have hcb : c ≠ b := fun heq => hbA (heq ▸ hc)
          rw [update_of_ne hctb, update_of_ne hcb, hold c hc]
      · intro c hc
        exact .inl (Option.some.inj hc).symm
      · exact fun hc => absurd hc (some_ne_none b)

theorem resetEmpty_keeps (x : Block α) :
    (x.resetEmpty e.toTraits .explicitContext).elements = x.elements ∧
      (x.resetEmpty e.toTraits .explicitContext).dynamicallyAllocated = x.dynamicallyAllocated ∧
      (x.resetEmpty e.toTraits .explicitContext).next = x.next := by
  unfold Block.resetEmpty
  split <;> exact ⟨rfl, rfl, rfl⟩

theorem setAllEmpty_keeps (x : Block α) :
    (x.setAllEmpty e.toTraits .explicitContext).elements = x.elements ∧
      (x.setAllEmpty e.toTraits .explicitContext).dynamicallyAllocated = x.dynamicallyAllocated ∧
      (x.setAllEmpty e.toTraits .explicitContext).next = x.next := by
  unfold Block.setAllEmpty
  split <;> exact ⟨rfl, rfl, rfl⟩

theorem Touches.resetEmpty {b : Nat} (hb : b ∈ A) :
    Touches e A m (m.modify b (Block.resetEmpty e.toTraits .explicitContext)) := by
  obtain ⟨helements, hdynamic, hnext⟩ := resetEmpty_keeps (e := e) (m.blocks b)
  exact .setBlock (.setBlock hb hdynamic fun _ _ => by rw [helements]) hnext

/-- A request that fails. -/
theorem Touches.not_requisitioned {mode : AllocationMode}
    (hr : m.requisitionBlock e mode = (none, m')) : Touches e A m m' := by
  obtain ⟨n, rfl⟩ := Mem.requisitionBlock_none hr
  exact ⟨.mallocs n, rfl⟩

theorem Touches.constructAt {tb : Option Nat} (htb : ∀ b, tb = some b → b ∈ A) {i : BitVec e.bits}
    {x : α} (h : constructAt e tb i x m = some m') : Touches e A m m' := by
  cases tb with
  | none => cases h
  | some b =>
      simp only [ConcurrentQueue.constructAt, bind_eq_bind, Option.bind_some, Mem.tryModify,
        map_eq_some_iff, Block.construct] at h
      obtain ⟨b', hb', rfl⟩ := h
      split at hb'
      · obtain rfl := Option.some.inj hb'
        exact .of_onlyElements (htb b rfl) (.setElement i _)
      · cases hb'

/-! ### Enqueue -/

theorem Owns.ensureRoom (h : Owns e A st) {mode : AllocationMode} {ok : Bool}
    (hroom : ensureRoom e mode st = some (st', ok)) : Gains e A A st st' := by
  unfold Explicit.ensureRoom at hroom
  split at hroom
  · cases mode with
    | cannotAlloc =>
        cases hroom
        exact h.gains
    | canAlloc => exact h.newBlockIndex hroom
  · cases hroom
    exact h.gains

theorem Owns.insertBlock (h : Owns e A st) {mode : AllocationMode} {ok : Bool}
    (hins : insertBlock e mode st = some (st', ok)) : ∃ A', Gains e A A' st st' := by
  simp only [Explicit.insertBlock] at hins
  split at hins
  · cases hins
  split at hins
  · cases hins
    exact ⟨A, h.gains⟩
  rw [bind_eq_bind, bind_eq_some_iff] at hins
  obtain ⟨⟨st₁, ok₁⟩, hroom, hins⟩ := hins
  have hgains := h.ensureRoom hroom
  dsimp only at hins
  split at hins
  · cases hins
    exact ⟨A, hgains⟩
  cases hreq : st₁.mem.requisitionBlock e mode with
  | mk b m =>
      rw [hreq] at hins
      cases b with
      | none =>
          cases hins
          exact ⟨A, hgains.trans (hgains.owns.touch (.not_requisitioned hreq) hgains.owns.refers)⟩
      | some b =>
          cases hins
          exact ⟨insert b A, hgains.trans (hgains.owns.linkBlock hreq resetEmpty_keeps)⟩

theorem Owns.startNewBlock (h : Owns e A st) {mode : AllocationMode} {ok : Bool}
    (hstart : startNewBlock e mode st = some (st', ok)) : ∃ A', Gains e A A' st st' := by
  unfold Explicit.startNewBlock at hstart
  cases htb : st.prod.tailBlock with
  | none =>
      rw [htb] at hstart
      exact h.insertBlock hstart
  | some tb =>
      simp only [htb, bind_eq_bind, bind_eq_some_iff] at hstart
      obtain ⟨next, hnext, reusable, -, hstart⟩ := hstart
      split at hstart
      · -- the block ahead is one of the list
        have hmem : next ∈ A := h.cycle.next_mem (h.refers.tail tb htb) hnext
        cases hstart
        refine ⟨A, h.touch (.resetEmpty hmem) ⟨fun b hb => ?_, nofun, h.refers.entries⟩⟩
        rwa [← Option.some.inj hb]
      · exact h.insertBlock hstart

/-- Going back to a block that was the tail block. -/
theorem RefersTo.restore {p : ExplicitProducer e.bits} (h : RefersTo A p) {tb : Option Nat}
    (htb : ∀ b, tb = some b → b ∈ A) {i : BitVec e.bits} :
    RefersTo A { p with
      prBlockIndexSlotsUsed := i
      tailBlock := if tb.isNone then p.tailBlock else tb } := by
  cases tb with
  | none => exact h.congr rfl rfl
  | some b => exact ⟨htb, nofun, h.entries⟩

/-- The entry for the tail block is written and published. -/
theorem RefersTo.register {A : Set Nat} {st st₁ st₂ : State e.bits α} {base front : BitVec e.bits}
    (h : RefersTo A st.prod) (hpush : Explicit.pushEntry e base st = some st₁)
    (hfront : Explicit.exposeFront e front st₁ = some st₂) :
    st₂.mem = st.mem ∧ RefersTo A st₂.prod := by
  obtain ⟨hmem₁, hrefers₁⟩ := h.pushEntry hpush
  obtain ⟨hmem₂, hrefers₂⟩ := hrefers₁.exposeFront hfront
  exact ⟨hmem₂.trans hmem₁, hrefers₂⟩

theorem Owns.enqueue (h : Owns e A st) {mode : AllocationMode} {ctor : Ctor} {x : α} {r : Pushed}
    (henq : enqueue e mode ctor x st = some (st', r)) : ∃ A', Gains e A A' st st' := by
  simp only [Explicit.enqueue] at henq
  split at henq
  · rw [bind_eq_bind, bind_eq_some_iff] at henq
    obtain ⟨⟨st₁, ok⟩, hstart, henq⟩ := henq
    obtain ⟨A', hgains⟩ := h.startNewBlock hstart
    have howns := hgains.owns
    refine ⟨A', hgains.trans ?_⟩
    dsimp only at henq
    split at henq
    · cases henq
      exact howns.gains
    split at henq
    · cases henq
      exact howns.touch .refl
        (howns.refers.restore fun b hb => hgains.subset (h.refers.tail b hb))
    split at henq
    · simp only [bind_eq_bind, bind_eq_some_iff] at henq
      obtain ⟨st₂, hpush, st₃, hfront, mem', hcons, henq⟩ := henq
      cases henq
      obtain ⟨hmem, hrefers⟩ := howns.refers.register hpush hfront
      refine howns.touch ?_ (hrefers.congr rfl rfl)
      rw [← hmem]
      exact .constructAt hrefers.tail hcons
    · simp only [bind_eq_bind, bind_eq_some_iff] at henq
      obtain ⟨mem', hcons, st₂, hpush, st₃, hfront, henq⟩ := henq
      cases henq
      have hrefers₁ : RefersTo A' (⟨mem', st₁.prod⟩ : State e.bits α).prod := howns.refers
      obtain ⟨hmem, hrefers⟩ := hrefers₁.register hpush hfront
      refine howns.touch ?_ (hrefers.congr rfl rfl)
      rw [hmem]
      exact .constructAt howns.refers.tail hcons
  · split at henq
    · cases henq
      exact ⟨A, h.gains⟩
    · rw [bind_eq_bind, bind_eq_some_iff] at henq
      obtain ⟨mem', hcons, henq⟩ := henq
      cases henq
      exact ⟨A, h.touch (.constructAt h.refers.tail hcons) (h.refers.congr rfl rfl)⟩

/-! ### Bulk enqueue -/

/-- The blocks a bulk call falls back to: the tail block it has started from, or the first
one it has taken. -/
structure FallsBack (A : Set Nat) (start first : Option Nat) : Prop where
  startMem : ∀ b, start = some b → b ∈ A
  firstMem : ∀ b, first = some b → b ∈ A
  empty : start = none → first = none → A = ∅

theorem FallsBack.take {start first : Option Nat} (h : FallsBack A start first) (hA : A ⊆ A')
    {b : Nat} (hb : b ∈ A') : FallsBack A' start (first.or (some b)) := by
  refine ⟨fun c hc => hA (h.startMem c hc), fun c hc => ?_, fun _ hnone => ?_⟩
  · cases first with
    | none => rwa [← Option.some.inj hc]
    | some d => exact hA (h.firstMem c hc)
  · cases first <;> cases hnone

theorem FallsBack.rollback {saved : Saved e.bits} {first : Option Nat}
    (h : FallsBack A saved.startBlock first) (hrefers : RefersTo A st.prod) :
    RefersTo A (rollback e saved first st).prod := by
  have htail : (Explicit.rollback e saved first st).prod.tailBlock =
      if saved.startBlock.isNone then first else saved.startBlock := rfl
  cases hs : saved.startBlock with
  | none =>
      rw [hs] at htail
      exact ⟨fun b hb => h.firstMem b (htail.symm.trans hb),
        fun hb => h.empty hs (htail.symm.trans hb), hrefers.entries⟩
  | some b =>
      rw [hs] at htail
      exact ⟨fun c hc => h.startMem c (hs.trans (htail.symm.trans hc)),
        fun hc => absurd (htail.symm.trans hc) (some_ne_none b), hrefers.entries⟩

theorem Owns.reuseAhead (h : Owns e A st) {start : Option Nat} {n n' : Nat}
    {taken taken' : Taken e.bits} (hback : FallsBack A start taken.firstAllocatedBlock)
    (hreuse : reuseAhead e n taken st = some (n', taken', st')) :
    Gains e A A st st' ∧ FallsBack A start taken'.firstAllocatedBlock := by
  induction n generalizing taken st with
  | zero =>
      obtain ⟨-, rfl, rfl⟩ := by simpa [Explicit.reuseAhead] using hreuse
      exact ⟨h.gains, hback⟩
  | succ n ih =>
      have hstop : some (n + 1, taken, st) = some (n', taken', st') →
          Gains e A A st st' ∧ FallsBack A start taken'.firstAllocatedBlock := by
        intro heq
        obtain ⟨-, rfl, rfl⟩ := by simpa using heq
        exact ⟨h.gains, hback⟩
      unfold Explicit.reuseAhead at hreuse
      cases htb : st.prod.tailBlock with
      | none =>
          rw [htb] at hreuse
          exact hstop hreuse
      | some tb =>
          simp only [htb, bind_eq_bind, bind_eq_some_iff] at hreuse
          obtain ⟨next, hnext, hreuse⟩ := hreuse
          split at hreuse
          · exact hstop hreuse
          rw [bind_eq_some_iff] at hreuse
          obtain ⟨reusable, -, hreuse⟩ := hreuse
          split at hreuse
          · rw [bind_eq_some_iff] at hreuse
            obtain ⟨st₁, hpush, hreuse⟩ := hreuse
            have hmem : next ∈ A := h.cycle.next_mem (h.refers.tail tb htb) hnext
            have hrefers : RefersTo A { st.prod with tailBlock := some next } :=
              ⟨fun b hb => Option.some.inj hb ▸ hmem,
                fun hnone => absurd hnone (some_ne_none next), h.refers.entries⟩
            have hmoved := h.touch .refl hrefers
            have hpushed := hmoved.owns.of_refers (hmoved.owns.refers.pushEntry hpush)
            obtain ⟨hrest, hback'⟩ := ih hpushed.owns (hback.take subset_rfl hmem) hreuse
            exact ⟨(hmoved.trans hpushed).trans hrest, hback'⟩
          · exact hstop hreuse

theorem Owns.ensureRoomBulk (h : Owns e A st) {mode : AllocationMode} {full ok : Bool}
    {saved saved' : Saved e.bits}
    (hroom : ensureRoomBulk e mode full saved st = some (st', saved', ok)) :
    Gains e A A st st' ∧ saved'.startBlock = saved.startBlock := by
  unfold Explicit.ensureRoomBulk at hroom
  split at hroom
  · cases mode with
    | cannotAlloc =>
        obtain ⟨rfl, rfl, -⟩ := by simpa using hroom
        exact ⟨h.gains, rfl⟩
    | canAlloc =>
        dsimp only at hroom
        split at hroom
        · obtain ⟨rfl, rfl, -⟩ := by simpa using hroom
          exact ⟨h.gains, rfl⟩
        · rw [bind_eq_bind, bind_eq_some_iff] at hroom
          obtain ⟨⟨st₁, ok₁⟩, hnew, hroom⟩ := hroom
          dsimp only at hroom
          split at hroom <;>
          · obtain ⟨rfl, rfl, -⟩ := by simpa using hroom
            exact ⟨h.newBlockIndex hnew, rfl⟩
  · obtain ⟨rfl, rfl, -⟩ := by simpa using hroom
    exact ⟨h.gains, rfl⟩

theorem Owns.allocateBlocks (h : Owns e A st) {mode : AllocationMode} {n : Nat}
    {saved : Saved e.bits} {taken : Taken e.bits}
    (hback : FallsBack A saved.startBlock taken.firstAllocatedBlock)
    {res : Option (Saved e.bits × Taken e.bits)}
    (halloc : allocateBlocks e mode n saved taken st = some (st', res)) :
    ∃ A', Gains e A A' st st' ∧ ∀ saved' taken', res = some (saved', taken') →
      FallsBack A' saved'.startBlock taken'.firstAllocatedBlock := by
  induction n generalizing A saved taken st with
  | zero =>
      cases halloc
      refine ⟨A, h.gains, fun saved' taken' heq => ?_⟩
      cases heq
      exact hback
  | succ n ih =>
      unfold Explicit.allocateBlocks at halloc
      dsimp only at halloc
      split at halloc
      · cases halloc
      rw [bind_eq_bind, bind_eq_some_iff] at halloc
      obtain ⟨⟨st₁, saved₁, ok⟩, hroom, halloc⟩ := halloc
      obtain ⟨hgains, hstart⟩ := h.ensureRoomBulk hroom
      have howns := hgains.owns
      rw [← hstart] at hback
      dsimp only at halloc
      split at halloc
      · cases halloc
        exact ⟨A, hgains.trans (howns.touch .refl (hback.rollback howns.refers)),
          fun _ _ hres => absurd hres.symm (some_ne_none _)⟩
      cases hreq : st₁.mem.requisitionBlock e mode with
      | mk b m =>
          rw [hreq] at halloc
          cases b with
          | none =>
              cases halloc
              have hfailed := howns.touch (.not_requisitioned hreq) howns.refers
              exact ⟨A, (hgains.trans hfailed).trans
                (hfailed.owns.touch .refl (hback.rollback hfailed.owns.refers)),
                fun _ _ hres => absurd hres.symm (some_ne_none _)⟩
          | some b =>
              simp only [bind_eq_bind, bind_eq_some_iff] at halloc
              obtain ⟨st₂, hpush, halloc⟩ := halloc
              have hlinked := hgains.trans (howns.linkBlock hreq (setAllEmpty_keeps (e := e)))
              have hpushed := hlinked.owns.of_refers (hlinked.owns.refers.pushEntry hpush)
              obtain ⟨A', hrest, hback'⟩ :=
                ih hpushed.owns (hback.take (Set.subset_insert b A) (.inl rfl)) halloc
              exact ⟨A', (hlinked.trans hpushed).trans hrest, hback'⟩

theorem Owns.chained (h : Owns e A st) (last : Option Nat) : Within.Chained A last st.mem :=
  fun _ hb _ _ hc => h.cycle.next_mem hb hc

theorem Owns.resetTaken (h : Owns e A st) {fuel b : Nat} (hb : b ∈ A)
    (hreset : resetTaken e fuel b st = some st') :
    Touches e A st.mem st'.mem ∧ st'.prod = st.prod := by
  induction fuel generalizing b st with
  | zero => cases hreset
  | succ fuel ih =>
      have htouch : Touches e A st.mem _ := .resetEmpty hb
      have hnext := (h.touch htouch h.refers).owns
      rw [Explicit.resetTaken] at hreset
      dsimp only at hreset
      split at hreset
      · obtain rfl := Option.some.inj hreset
        exact ⟨htouch, rfl⟩
      · rw [bind_eq_bind, bind_eq_some_iff] at hreset
        obtain ⟨next, hlink, hreset⟩ := hreset
        obtain ⟨hrest, hprod⟩ := ih hnext (hnext.cycle.next_mem hb hlink) hreset
        exact ⟨htouch.trans hrest, hprod⟩

theorem RefersTo.exposeLast (h : RefersTo A st.prod) {cond : Bool}
    (hlast : exposeLast e cond st = some st') : st'.mem = st.mem ∧ RefersTo A st'.prod := by
  cases cond with
  | false =>
      obtain rfl := Option.some.inj hlast
      exact ⟨rfl, h⟩
  | true => exact h.exposeFront hlast

/-- Filling that is not interrupted ends at the last block. -/
theorem fillBlocks_end {ctor : Ctor} {newTailIndex : BitVec e.bits} {endBlock : Option Nat}
    {fuel : Nat} {tailBlock tailBlock' : Option Nat} {i i' : BitVec e.bits} {k : Nat}
    {xs : List α} (h : fillBlocks e ctor newTailIndex endBlock fuel tailBlock i k xs m =
      some (i', tailBlock', m', false)) : tailBlock' = endBlock := by
  induction fuel generalizing tailBlock i k xs m with
  | zero => cases h
  | succ fuel ih =>
      rw [fillBlocks, bind_eq_bind, bind_eq_some_iff] at h
      obtain ⟨⟨i₁, k₁, xs₁, m₁, threw₁⟩, -, h⟩ := h
      dsimp only at h
      split at h
      · simp at h
      split at h
      · rename_i hend
        split at h
        · obtain ⟨-, rfl, -⟩ := by simpa using h
          exact hend
        · cases h
      · rw [bind_eq_bind, bind_eq_some_iff] at h
        obtain ⟨tb, -, h⟩ := h
        exact ih h

theorem Owns.constructAll (h : Owns e A st) {ctor : Ctor} {xs : List α} {saved : Saved e.bits}
    {first : Option Nat} (hback : FallsBack A saved.startBlock first) {r : Pushed}
    (hcons : constructAll e ctor xs saved first st = some (st', r)) : Gains e A A st st' := by
  simp only [Explicit.constructAll] at hcons
  split at hcons
  · cases hcons
  rw [bind_eq_bind, bind_eq_some_iff] at hcons
  obtain ⟨⟨i, tb, mem₁, threw⟩, hfill, hcons⟩ := hcons
  have hstart : ∀ b, (if st.prod.tailIndex &&& e.blockMask = 0 ∧ first ≠ none then first
      else saved.startBlock) = some b → b ∈ A := by
    intro b hb
    split at hb
    · exact hback.firstMem b hb
    · exact hback.startMem b hb
  obtain ⟨hwithin, hlinks⟩ := Within.fillBlocks hstart (h.chained _) hfill
  have htouch : Touches e A st.mem mem₁ := ⟨hwithin, funext hlinks⟩
  dsimp only at hcons
  cases threw with
  | true =>
      rw [if_pos rfl, bind_eq_bind, bind_eq_some_iff] at hcons
      obtain ⟨mem₂, hundo, hcons⟩ := hcons
      cases hcons
      have hfilled := h.touch htouch h.refers
      have hstart' : ∀ b, (if st.prod.tailIndex &&& e.blockMask = 0 then first
          else saved.startBlock) = some b → b ∈ A := by
        intro b hb
        split at hb
        · exact hback.firstMem b hb
        · exact hback.startMem b hb
      obtain ⟨hwithin', hlinks'⟩ := Within.undoBlocks hstart' (hfilled.owns.chained _) hundo
      have hundone : Touches e A mem₁ mem₂ := ⟨hwithin', funext hlinks'⟩
      have hrolled : RefersTo A (rollback e saved first st).prod := hback.rollback h.refers
      exact h.touch (htouch.trans hundone) (hrolled.congr rfl rfl)
  | false =>
      rw [if_neg Bool.false_ne_true, bind_eq_bind, bind_eq_some_iff] at hcons
      obtain ⟨st₂, hlast, hcons⟩ := hcons
      cases hcons
      have hrefers : RefersTo A { st.prod with tailBlock := tb } :=
        h.refers.congr (fillBlocks_end hfill) rfl
      have hfilled := h.touch htouch hrefers
      obtain ⟨hmem, hrefers'⟩ := hfilled.owns.refers.exposeLast hlast
      refine hfilled.trans (hfilled.owns.of_refers ⟨hmem, ?_⟩)
      exact hrefers'.congr rfl rfl

theorem Owns.enqueueBulk (h : Owns e A st) {mode : AllocationMode} {ctor : Ctor} {xs : List α}
    {r : Pushed} (henq : enqueueBulk e mode ctor xs st = some (st', r)) :
    ∃ A', Gains e A A' st st' := by
  simp only [Explicit.enqueueBulk] at henq
  have hback : FallsBack A st.prod.tailBlock none :=
    ⟨h.refers.tail, fun b hb => absurd hb.symm (some_ne_none b),
      fun hnone _ => h.refers.empty hnone⟩
  split at henq
  · exact ⟨A, h.constructAll hback henq⟩
  rw [bind_eq_bind, bind_eq_some_iff] at henq
  obtain ⟨⟨n, taken, st₁⟩, hreuse, henq⟩ := henq
  rw [bind_eq_bind, bind_eq_some_iff] at henq
  obtain ⟨⟨st₂, res⟩, halloc, henq⟩ := henq
  obtain ⟨hreused, hback₁⟩ := h.reuseAhead hback hreuse
  obtain ⟨A', hallocated, hback₂⟩ := hreused.owns.allocateBlocks hback₁ halloc
  have htaken := hreused.trans hallocated
  refine ⟨A', ?_⟩
  cases res with
  | none =>
      cases henq
      exact htaken
  | some res =>
      obtain ⟨saved', taken'⟩ := res
      have hback₃ := hback₂ saved' taken' rfl
      simp only [bind_eq_bind, bind_eq_some_iff] at henq
      obtain ⟨b, hb, st₃, hreset, st₄, hlast, henq⟩ := henq
      obtain ⟨htouch, hprod⟩ := htaken.owns.resetTaken (hback₃.firstMem b hb) hreset
      have hready : Gains e A' A' st₂ st₃ := by
        obtain ⟨mem₃, p₃⟩ := st₃
        obtain rfl : p₃ = st₂.prod := hprod
        exact htaken.owns.touch htouch htaken.owns.refers
      have hexposed := hready.owns.of_refers (hready.owns.refers.exposeLast hlast)
      exact ((htaken.trans hready).trans hexposed).trans
        (hexposed.owns.constructAll hback₃ henq)

/-! ### Dequeue -/

theorem Touches.setEmpty {b : Nat} (hb : b ∈ A) {i : BitVec e.bits} {b' : Block α} {full : Bool}
    (h : (m.blocks b).setEmpty e.toTraits .explicitContext i = some (b', full)) :
    Touches e A m (m.setBlock b b') := by
  refine .setBlock (.setEmpty hb h) ?_
  unfold Block.setEmpty at h
  dsimp only at h
  split at h <;>
  · split at h <;> simp only [Option.some.injEq, Prod.mk.injEq, reduceCtorEq] at h
    obtain ⟨rfl, -⟩ := h
    rfl

theorem Touches.destroyAt {b : Nat} (hb : b ∈ A) {i : BitVec e.bits} {x : α} {b' : Block α}
    (h : (m.blocks b).destroyAt e.toTraits i = some (x, b')) :
    Touches e A m (m.setBlock b b') := .of_onlyElements hb (.destroyAt h)

theorem Touches.markMany {b : Nat} (hb : b ∈ A) {i j : BitVec e.bits}
    (h : markMany e b i j m = some m') : Touches e A m m' := by
  simp only [Explicit.markMany, bind_eq_bind, bind_eq_some_iff] at h
  obtain ⟨⟨b', full⟩, hmark, h⟩ := h
  obtain rfl := Option.some.inj h
  refine .setBlock (.setManyEmpty hb hmark) ?_
  unfold Block.setManyEmpty at hmark
  dsimp only at hmark
  split at hmark <;> split at hmark
  · obtain ⟨flags, -, hb'⟩ := map_eq_some_iff.mp hmark
    obtain ⟨rfl, -⟩ := Prod.mk.inj hb'
    rfl
  · cases hmark
  · cases hmark
    rfl
  · cases hmark

theorem Touches.drainBlocks {throwsAt : Option Nat} {h : BlockIndexHeader e.bits}
    (hentries : EntriesIn A h.entries) {last : BitVec e.bits} {fuel : Nat} {slot i : BitVec e.bits}
    {k : Nat} {xs : List α} {threw : Bool}
    (hdrain : (walk e h).drainBlocks throwsAt last fuel slot i k m = some (xs, m', threw)) :
    Touches e A m m' := by
  have hblock {slot : BitVec e.bits} {b : Nat} {m : Mem α} (hb : (walk e h).block slot m = some b) :
      b ∈ A := by
    obtain ⟨entry, hget, rfl⟩ := Option.map_eq_some_iff.mp hb
    exact hentries.get hget
  exact Walk.drainBlocksUntil_keeps trans (fun hb hm => of_onlyElements (hblock hb) hm)
    (fun hb hm => markMany (hblock hb) hm) hdrain

theorem Owns.dequeue (h : Owns e A st) {throws : Bool} {o : Popped α}
    (hdeq : dequeue e throws st = some (st', o)) : Gains e A A st st' := by
  unfold Explicit.dequeue at hdeq
  by_cases hne : circularLessThan (st.prod.dequeueOptimisticCount - st.prod.dequeueOvercommit)
      st.prod.tailIndex = true
  · simp only [if_pos hne, bind_eq_bind, bind_eq_some_iff] at hdeq
    obtain ⟨b, hlookup, ⟨x, b₁⟩, hdestroy, ⟨b₂, full⟩, hset, hdeq⟩ := hdeq
    cases hdeq
    have hb : b ∈ A := by
      simp only [lookup, bind_eq_bind, bind_eq_some_iff] at hlookup
      obtain ⟨hdr, hhdr, slot, -, entry, hentry, hlookup⟩ := hlookup
      obtain rfl := Option.some.inj hlookup
      exact (h.refers.entries hdr hhdr).get hentry
    have hdestroyed : Touches e A st.mem _ := .destroyAt hb hdestroy
    have hblock : (st.mem.setBlock b b₁).blocks b = b₁ := update_self ..
    have hmarked : Touches e A (st.mem.setBlock b b₁) _ :=
      .setEmpty hb (hblock.symm ▸ hset)
    rw [Mem.setBlock_setBlock] at hmarked
    exact h.touch (hdestroyed.trans hmarked) (h.refers.congr rfl rfl)
  · simp only [if_neg hne] at hdeq
    cases hdeq
    exact h.gains

theorem Owns.dequeueBulk (h : Owns e A st) {max : BitVec e.bits} {throwsAt : Option Nat}
    {o : Popped α} (hdeq : dequeueBulk e max throwsAt st = some (st', o)) :
    Gains e A A st st' := by
  unfold Explicit.dequeueBulk Explicit.dequeueBulkOn at hdeq
  simp only [Walk.drainBlocksUntil_wraps] at hdeq
  by_cases hne : circularLessThan 0#e.bits (st.prod.tailIndex -
      (st.prod.dequeueOptimisticCount - st.prod.dequeueOvercommit)) = true
  · simp only [if_pos hne, bind_eq_bind, bind_eq_some_iff] at hdeq
    obtain ⟨hdr, hhdr, slot, -, ⟨xs, mem', threw⟩, hdrain, hdeq⟩ := hdeq
    cases hdeq
    rw [apply_ite ExplicitProducer.blockIndex, ite_self] at hhdr
    refine h.touch (.drainBlocks (h.refers.entries hdr hhdr) hdrain) (h.refers.congr ?_ ?_)
    · exact (apply_ite ExplicitProducer.tailBlock ..).trans (ite_self _)
    · exact (apply_ite ExplicitProducer.blockIndex ..).trans (ite_self _)
  · simp only [if_neg hne] at hdeq
    cases hdeq
    exact h.gains

/-! ### Calls -/

/-- **Every call that returns** keeps the list in order, whatever happens in it. -/
theorem Owns.step (h : Owns e A st) {c : Call e.bits α} {o : Outcome α}
    (hstep : step e c st = some (st', o)) : ∃ A', Gains e A A' st st' := by
  cases c with
  | enqueue mode ctor x =>
      obtain ⟨⟨st₁, r⟩, hr, heq⟩ := map_eq_some_iff.mp hstep
      obtain ⟨rfl, -⟩ := Prod.mk.inj heq
      exact h.enqueue hr
  | enqueueBulk mode ctor xs =>
      obtain ⟨⟨st₁, r⟩, hr, heq⟩ := map_eq_some_iff.mp hstep
      obtain ⟨rfl, -⟩ := Prod.mk.inj heq
      exact h.enqueueBulk hr
  | dequeue throws =>
      obtain ⟨⟨st₁, r⟩, hr, heq⟩ := map_eq_some_iff.mp hstep
      obtain ⟨rfl, -⟩ := Prod.mk.inj heq
      exact ⟨A, h.dequeue hr⟩
  | dequeueBulk max throwsAt =>
      obtain ⟨⟨st₁, r⟩, hr, heq⟩ := map_eq_some_iff.mp hstep
      obtain ⟨rfl, -⟩ := Prod.mk.inj heq
      exact ⟨A, h.dequeueBulk hr⟩

/-! ### The blocks of a producer in order -/

/-- A new producer has no block. -/
theorem create_owns (hmem : m.Accounted e) (hcreate : create e m = some st) :
    Owns e ∅ st ∧ Traffic e ∅ ∅ m st.mem := by
  obtain ⟨⟨st₁, ok⟩, hnew, rfl⟩ := map_eq_some_iff.mp hcreate
  have hinit : Owns e ∅ (⟨m, init e⟩ : State e.bits α) := by
    refine ⟨⟨hmem, Set.empty_subset _⟩, isCycle_empty _, fun b hb => ?_, fun _ => rfl,
      fun h hh => ?_⟩
    · cases hb
    · cases hh
  have hgains := hinit.newBlockIndex hnew
  exact ⟨hgains.owns, hgains.traffic⟩

/-- The list is that of a memory in which its blocks are in use and as they were. -/
theorem Owns.frame (h : Owns e A st) (hhas : Has e A m)
    (hkept : ∀ b ∈ A, m.blocks b = st.mem.blocks b) : Owns e A ⟨m, st.prod⟩ :=
  ⟨hhas, h.cycle.congr fun b hb => congrArg Block.next (hkept b hb), h.refers⟩

variable {v : View} {l : List α}

/-- The blocks that the invariant speaks of are those on the list. -/
theorem Inv.window_of_owns (h : Inv e st v l) (ho : Owns e A st) :
    ConcurrentQueue.window v.β v.s v.t = A := by
  rcases h.s_le_t.lt_or_eq with hlt | heq
  · have htail : v.β (v.t - 1) ∈ A := ho.refers.tail _ (h.tailBlock.trans (if_pos hlt))
    have hwrap : v.β v.s ∈ A := ho.cycle.next_mem htail (h.ring.wrap hlt)
    have hsub : ∀ n, v.s + n < v.t → v.β (v.s + n) ∈ A := by
      intro n
      induction n with
      | zero => exact fun _ => hwrap
      | succ n ih =>
          exact fun hn => ho.cycle.next_mem (ih (by omega)) (h.ring.next (by omega) hn)
    ext b
    refine ⟨?_, fun hb => ?_⟩
    · rintro ⟨q, hs, ht, rfl⟩
      obtain ⟨n, rfl⟩ := Nat.exists_eq_add_of_le hs
      exact hsub n ht
    · -- the window is closed under links
      have hway := ho.cycle.reaches _ htail b hb
      clear hb
      induction hway with
      | refl => exact mem_window (by omega) (by omega)
      | tail _ hstep ih =>
          obtain ⟨q, hs, ht, rfl⟩ := ih
          by_cases hlast : q + 1 = v.t
          · obtain rfl : q = v.t - 1 := by omega
            obtain rfl := Option.some.inj ((h.ring.wrap hlt).symm.trans hstep)
            exact mem_window le_rfl hlt
          · obtain rfl := Option.some.inj ((h.ring.next hs (by omega)).symm.trans hstep)
            exact mem_window (by omega) (by omega)
  · have hnone : st.prod.tailBlock = none := h.tailBlock.trans (if_neg (by omega))
    rw [heq, window_self, ho.refers.empty hnone]

theorem Inv.frame (h : Inv e st v l) (ho : Owns e A st) (hhas : Has e A m)
    (hkept : ∀ b ∈ A, m.blocks b = st.mem.blocks b) : Inv e ⟨m, st.prod⟩ v l :=
  { h with
    ring := h.ring.of_has hhas (h.window_of_owns ho).le fun _ hs ht =>
      hkept _ (h.window_of_owns ho ▸ mem_window hs ht) }

end ConcurrentQueue.Explicit
