import ConcurrentQueue.ImplicitRaceFrame

/-!
# ConcurrentQueue.ImplicitRaceCustody

**Blocks change hands one at a time.** The five ways in which the place of a block or
its contents change, each with what it means for the memory (`Custody`) and for the
producers that are not concerned (`SameFor`).
-/

namespace ConcurrentQueue.ImplicitRace

open Function

variable {ι α : Type} {e : Env}

/-! ### Who is not concerned -/

section SameFor

variable {place : ℕ → Place ι} {m m' : Memory α} {j : ι} {b : ℕ} {y : Place ι}

theorem SameFor.refl (j : ι) (place : ℕ → Place ι) (m : Memory α) : SameFor j place place m m :=
  ⟨fun _ _ => Iff.rfl, fun _ _ _ => ⟨rfl, rfl⟩, fun _ _ => rfl⟩

/-- The memory of the blocks stays as it is and one block, not of this producer before or
after, moves. -/
theorem SameFor.move (hb : ∀ k, place b ≠ .slot j k) (hy : ∀ k, y ≠ .slot j k)
    (hc : m'.elementsCompletelyDequeued = m.elementsCompletelyDequeued)
    (he : m'.elements = m.elements) : SameFor j place (update place b y) m m' where
  slot c k := by
    rcases eq_or_ne c b with rfl | hcb
    · rw [update_self]
      exact ⟨fun h => absurd h (hy k), fun h => absurd h (hb k)⟩
    · rw [update_of_ne hcb]
  mem c k _ := by rw [hc, he]; exact ⟨rfl, rfl⟩
  hand c _ := by rw [hc]

/-- One block of another producer, or in the hands of another thread, changes. -/
theorem SameFor.write (hb : ∀ k, place b ≠ .slot j k) (hb' : place b ≠ .hand j)
    (hc : ∀ c, c ≠ b → m'.elementsCompletelyDequeued c = m.elementsCompletelyDequeued c)
    (he : ∀ c, c ≠ b → m'.elements c = m.elements c) : SameFor j place place m m' where
  slot _ _ := Iff.rfl
  mem c k h := by
    have hcb : c ≠ b := by
      rintro rfl
      exact hb k h
    exact ⟨hc c hcb, he c hcb⟩
  hand c h := by
    refine hc c ?_
    rintro rfl
    exact hb' h

end SameFor

/-! ### The memory -/

namespace Custody

variable {m m' : Memory α} {place : ℕ → Place ι} {hands : ι → List ℕ} {i : ι} {b : ℕ}

/-- The contents of blocks on an index change. -/
theorem write (h : Custody e m place hands)
    (hpool : m'.initialBlockPoolIndex = m.initialBlockPoolIndex)
    (hfree : m'.freeList = m.freeList) (hcreated : m'.created = m.created)
    (hdestroyed : m'.destroyed = m.destroyed) (hacquired : m'.acquired = m.acquired)
    (hreleased : m'.released = m.released)
    (helements : ∀ b, (∀ j k, place b ≠ .slot j k) → m'.elements b = m.elements b) :
    Custody e m' place hands where
  pool := by rw [hpool]; exact h.pool
  free := by rw [hfree]; exact h.free
  unborn := by rw [hcreated]; exact h.unborn
  destroyed := by rw [hdestroyed]; exact h.destroyed
  hand := h.hand
  nodup_free := by rw [hfree]; exact h.nodup_free
  nodup_destroyed := by rw [hdestroyed]; exact h.nodup_destroyed
  nodup_hands := h.nodup_hands
  vacant b hb r hr := by
    rw [helements b hb]
    exact h.vacant b hb r hr
  balance := by rw [hacquired, hreleased]; exact h.balance

theorem ne_of_pool (h : Custody e m place hands) {c : ℕ} (hb : place b ≠ .pool)
    (hc : m.initialBlockPoolIndex ≤ c ∧ c < e.initialBlockPoolSize) : c ≠ b :=
  fun heq => hb (heq ▸ (h.pool c).mpr hc)

theorem ne_of_free (h : Custody e m place hands) {c : ℕ} (hb : place b ≠ .free)
    (hc : c ∈ m.freeList) : c ≠ b :=
  fun heq => hb (heq ▸ (h.free c).mpr hc)

theorem ne_of_unborn (h : Custody e m place hands) {c : ℕ} (hb : place b ≠ .unborn)
    (hc : e.initialBlockPoolSize + m.created ≤ c) : c ≠ b :=
  fun heq => hb (heq ▸ (h.unborn c).mpr hc)

/-- The counter of an exhausted pool is of no concern. -/
theorem pass (h : Custody e m place hands)
    (hge : e.initialBlockPoolSize ≤ m.initialBlockPoolIndex) :
    Custody e { m with initialBlockPoolIndex := m.initialBlockPoolIndex + 1 } place hands where
  pool b := by
    rw [h.pool]
    show _ ↔ m.initialBlockPoolIndex + 1 ≤ b ∧ _
    omega
  free := h.free
  unborn := h.unborn
  destroyed := h.destroyed
  hand := h.hand
  nodup_free := h.nodup_free
  nodup_destroyed := h.nodup_destroyed
  nodup_hands := h.nodup_hands
  vacant := h.vacant
  balance := h.balance

/-- A move of one block to another place concerns only these two places. -/
theorem moved_iff {y z : Place ι} (hb : place b ≠ z) (hy : y ≠ z) (c : ℕ) :
    update place b y c = z ↔ place c = z := by
  rcases eq_or_ne c b with rfl | hcb
  · rw [update_self]
    exact ⟨fun h => absurd h hy, fun h => absurd h hb⟩
  · rw [update_of_ne hcb]

/-- The place a block moves to has this one more. -/
theorem moved_to_iff {y : Place ι} (c : ℕ) :
    update place b y c = y ↔ c = b ∨ place c = y := by
  rcases eq_or_ne c b with rfl | hcb
  · simp
  · simp [hcb]

/-- The place it leaves has one less. -/
theorem moved_from_iff {y : Place ι} (hy : y ≠ place b) (c : ℕ) :
    update place b y c = place b ↔ place c = place b ∧ c ≠ b := by
  rcases eq_or_ne c b with rfl | hcb
  · simp [hy]
  · simp [hcb]

/-- A block that is on no index after a move was on none or is the one that moved. -/
theorem vacant_of_move (h : Custody e m place hands) {y : Place ι}
    (hvacant : (∀ j k, y ≠ .slot j k) → ∀ r < e.BLOCK_SIZE, m.elements b r = none) {c : ℕ}
    (hc : ∀ j k, update place b y c ≠ .slot j k) :
    ∀ r < e.BLOCK_SIZE, m.elements c r = none := by
  rcases eq_or_ne c b with rfl | hcb
  · rw [update_self] at hc
    exact hvacant hc
  · rw [update_of_ne hcb] at hc
    exact h.vacant c hc

/-- A block that stays in use keeps its balance. -/
theorem balance_of_move (h : Custody e m place hands) {y : Place ι}
    (hy : y.inUse = (place b).inUse) (c : ℕ) :
    m.acquired c = m.released c + if (update place b y c).inUse then 1 else 0 := by
  have hbal := h.balance c
  rcases eq_or_ne c b with rfl | hcb
  · rwa [update_self, hy]
  · rwa [update_of_ne hcb]

variable [DecidableEq ι]

/-- What the threads have in their hands when block `b` gets to thread `i`. -/
theorem hand_of_take (h : Custody e m place hands) (hb : ∀ i, place b ≠ .hand i) {l : List ℕ}
    (hmem : ∀ c, c ∈ l ↔ c ∈ hands i ∨ c = b) (c : ℕ) (i' : ι) :
    update place b (.hand i) c = .hand i' ↔ c ∈ update hands i l i' := by
  rcases eq_or_ne i' i with rfl | hne
  · rw [moved_to_iff, update_self, hmem, h.hand, or_comm]
  · rw [moved_iff (hb i') (by simp [hne.symm]), update_of_ne hne]
    exact h.hand c i'

/-- What the threads have in their hands when block `b` leaves those of thread `i`. -/
theorem hand_of_leave (h : Custody e m place hands) (hb : place b = .hand i) {y : Place ι}
    (hy : ∀ i, y ≠ .hand i) {l : List ℕ} (hmem : ∀ c, c ∈ l ↔ c ∈ hands i ∧ c ≠ b) (c : ℕ)
    (i' : ι) :
    update place b y c = .hand i' ↔ c ∈ update hands i l i' := by
  rcases eq_or_ne i' i with rfl | hne
  · rw [update_self, hmem, ← h.hand, ← hb]
    exact moved_from_iff (hb ▸ hy i') c
  · rw [moved_iff (by simp [hb, hne.symm]) (hy i'), update_of_ne hne]
    exact h.hand c i'

theorem nodup_update (h : Custody e m place hands) {l : List ℕ} (hl : l.Nodup) (i' : ι) :
    (update hands i l i').Nodup := by
  rcases eq_or_ne i' i with rfl | hne
  · rwa [update_self]
  · rw [update_of_ne hne]
    exact h.nodup_hands i'

/-- A thread with empty hands acquires a block that is not in use. -/
theorem acquire (h : Custody e m place hands) (hi : hands i = [])
    (hb : (place b).inUse = false) (hgone : place b ≠ .destroyed)
    (hpool : ∀ c, m'.initialBlockPoolIndex ≤ c ∧ c < e.initialBlockPoolSize ↔
      (m.initialBlockPoolIndex ≤ c ∧ c < e.initialBlockPoolSize) ∧ c ≠ b)
    (hfree : ∀ c, c ∈ m'.freeList ↔ c ∈ m.freeList ∧ c ≠ b)
    (hunborn : ∀ c, e.initialBlockPoolSize + m'.created ≤ c ↔
      e.initialBlockPoolSize + m.created ≤ c ∧ c ≠ b)
    (hdestroyed : m'.destroyed = m.destroyed)
    (hnodup : m'.freeList.Nodup) (helements : m'.elements = m.elements)
    (hacquired : m'.acquired = update m.acquired b (m.acquired b + 1))
    (hreleased : m'.released = m.released) :
    Custody e m' (update place b (.hand i)) (update hands i [b]) := by
  -- a place that is not the hands of the thread loses at most the block
  have hlose : ∀ z : Place ι, z ≠ .hand i → ∀ c,
      (update place b (.hand i) c = z ↔ place c = z ∧ c ≠ b) := by
    intro z hz c
    rcases eq_or_ne c b with rfl | hcb
    · simp [hz.symm]
    · simp [hcb]
  have hslot : ∀ j k, place b ≠ .slot j k := by
    intro j k hslot
    rw [hslot] at hb
    cases hb
  refine ⟨fun c => ?_, fun c => ?_, fun c => ?_, fun c => ?_,
    h.hand_of_take (fun i' hi' => ?_) (by simp [hi]), hnodup, hdestroyed ▸ h.nodup_destroyed,
    h.nodup_update (List.nodup_singleton b), fun c hc => ?_, fun c => ?_⟩
  · rw [hlose _ (by simp), hpool, h.pool]
  · rw [hlose _ (by simp), hfree, h.free]
  · rw [hlose _ (by simp), hunborn, h.unborn]
  · rw [moved_iff hgone (by simp), hdestroyed, h.destroyed]
  · rw [hi'] at hb
    cases hb
  · rw [helements]
    exact h.vacant_of_move (fun _ => h.vacant b hslot) hc
  · have hbal := h.balance c
    rw [hacquired, hreleased]
    rcases eq_or_ne c b with rfl | hcb
    · rw [hb] at hbal
      rw [update_self, update_self]
      simpa [Place.inUse] using hbal
    · rwa [update_of_ne hcb, update_of_ne hcb]

/-- A thread puts the block in its hands on an index. -/
theorem shelve (h : Custody e m place hands) (hi : hands i = [b]) (j : ι) (k : ℕ) :
    Custody e m (update place b (.slot j k)) (update hands i []) := by
  have hb : place b = .hand i := (h.hand b i).mpr (by rw [hi]; exact List.mem_singleton_self b)
  exact {
    pool := fun c => (moved_iff (by simp [hb]) (by simp) c).trans (h.pool c)
    free := fun c => (moved_iff (by simp [hb]) (by simp) c).trans (h.free c)
    unborn := fun c => (moved_iff (by simp [hb]) (by simp) c).trans (h.unborn c)
    destroyed := fun c => (moved_iff (by simp [hb]) (by simp) c).trans (h.destroyed c)
    hand := h.hand_of_leave hb (by simp) (by simp [hi])
    nodup_free := h.nodup_free
    nodup_destroyed := h.nodup_destroyed
    nodup_hands := h.nodup_update List.nodup_nil
    vacant := fun c hc => h.vacant_of_move (fun hno => absurd rfl (hno j k)) hc
    balance := h.balance_of_move (by rw [hb]; rfl) }

/-- A thread takes an empty block off an index. -/
theorem unshelve (h : Custody e m place hands) {j : ι} {k : ℕ} (hb : place b = .slot j k)
    (hvacant : ∀ r < e.BLOCK_SIZE, m.elements b r = none) {l : List ℕ} (hl : l.Nodup)
    (hmem : ∀ c, c ∈ l ↔ c ∈ hands i ∨ c = b) :
    Custody e m (update place b (.hand i)) (update hands i l) where
  pool c := (moved_iff (by simp [hb]) (by simp) c).trans (h.pool c)
  free c := (moved_iff (by simp [hb]) (by simp) c).trans (h.free c)
  unborn c := (moved_iff (by simp [hb]) (by simp) c).trans (h.unborn c)
  destroyed c := (moved_iff (by simp [hb]) (by simp) c).trans (h.destroyed c)
  hand := h.hand_of_take (by simp [hb]) hmem
  nodup_free := h.nodup_free
  nodup_destroyed := h.nodup_destroyed
  nodup_hands := h.nodup_update hl
  vacant _ hc := h.vacant_of_move (fun _ => hvacant) hc
  balance := h.balance_of_move (by rw [hb]; rfl)

/-- Where a released block goes. -/
def released (e : Env) (b : ℕ) : Place ι :=
  if !e.RECYCLE_ALLOCATED_BLOCKS && decide (e.initialBlockPoolSize ≤ b) then .destroyed else .free

omit [DecidableEq ι] in
theorem released_eq (b : ℕ) : released e b = (.destroyed : Place ι) ∨
    released e b = (.free : Place ι) := by
  unfold released
  split
  · exact .inl rfl
  · exact .inr rfl

omit [DecidableEq ι] in
theorem released_ne_slot {b : ℕ} (j : ι) (k : ℕ) : released e b ≠ (.slot j k : Place ι) := by
  rcases released_eq (ι := ι) (e := e) b with hr | hr <;> simp [hr]

/-- A thread gives back the first block in its hands. -/
theorem giveBack (h : Custody e m place hands) {rest : List ℕ} (hi : hands i = b :: rest) :
    Custody e (m.addBlockToFreeList e b) (update place b (released e b))
      (update hands i rest) := by
  have hb : place b = .hand i := (h.hand b i).mpr (by rw [hi]; exact List.mem_cons_self)
  have hnodup := h.nodup_hands i
  rw [hi, List.nodup_cons] at hnodup
  have hnotfree : b ∉ m.freeList := fun hmem => by
    have := (h.free b).mpr hmem
    rw [hb] at this
    cases this
  have hnotgone : b ∉ m.destroyed := fun hmem => by
    have := (h.destroyed b).mpr hmem
    rw [hb] at this
    cases this
  have hnothand : ∀ i', released e b ≠ (.hand i' : Place ι) := by
    intro i'
    rcases released_eq (ι := ι) (e := e) b with hr | hr <;> simp [hr]
  have hrest : ∀ c, c ∈ rest ↔ c ∈ hands i ∧ c ≠ b := by
    intro c
    rw [hi, List.mem_cons]
    constructor
    · exact fun hc => ⟨.inr hc, fun heq => hnodup.1 (heq ▸ hc)⟩
    · exact fun hc => hc.1.resolve_left hc.2
  have hbalance : ∀ c, m.acquired c = update m.released b (m.released b + 1) c +
      if (update place b (released e b) c).inUse then 1 else 0 := by
    intro c
    have hbal := h.balance c
    rcases eq_or_ne c b with rfl | hcb
    · have hout : (released e c : Place ι).inUse = false := by
        rcases released_eq (ι := ι) (e := e) c with hr | hr <;> rw [hr] <;> rfl
      rw [hb] at hbal
      rw [update_self, update_self, hout]
      simpa [Place.inUse] using hbal
    · rwa [update_of_ne hcb, update_of_ne hcb]
  have hvacant : ∀ c, (∀ j k, update place b (released e b) c ≠ .slot j k) →
      ∀ r < e.BLOCK_SIZE, m.elements c r = none :=
    fun c hc => h.vacant_of_move (fun _ => h.vacant b (by simp [hb])) hc
  cases hrel : (!e.RECYCLE_ALLOCATED_BLOCKS && decide (e.initialBlockPoolSize ≤ b)) with
  | true =>
      have hplace : (released e b : Place ι) = .destroyed := by rw [released, hrel]; rfl
      rw [Memory.addBlockToFreeList, hrel]
      exact {
        pool := fun c => (moved_iff (by simp [hb]) (by simp [hplace]) c).trans (h.pool c)
        free := fun c => (moved_iff (by simp [hb]) (by simp [hplace]) c).trans (h.free c)
        unborn := fun c => (moved_iff (by simp [hb]) (by simp [hplace]) c).trans (h.unborn c)
        destroyed := fun c => by
          rw [hplace, moved_to_iff, h.destroyed]
          exact List.mem_cons.symm
        hand := h.hand_of_leave hb hnothand hrest
        nodup_free := h.nodup_free
        nodup_destroyed := List.nodup_cons.mpr ⟨hnotgone, h.nodup_destroyed⟩
        nodup_hands := h.nodup_update hnodup.2
        vacant := hvacant
        balance := hbalance }
  | false =>
      have hplace : (released e b : Place ι) = .free := by rw [released, hrel]; rfl
      rw [Memory.addBlockToFreeList, hrel]
      exact {
        pool := fun c => (moved_iff (by simp [hb]) (by simp [hplace]) c).trans (h.pool c)
        free := fun c => by
          rw [hplace, moved_to_iff, h.free]
          exact List.mem_cons.symm
        unborn := fun c => (moved_iff (by simp [hb]) (by simp [hplace]) c).trans (h.unborn c)
        destroyed := fun c => (moved_iff (by simp [hb]) (by simp [hplace]) c).trans (h.destroyed c)
        hand := h.hand_of_leave hb hnothand hrest
        nodup_free := List.nodup_cons.mpr ⟨hnotfree, h.nodup_free⟩
        nodup_destroyed := h.nodup_destroyed
        nodup_hands := h.nodup_update hnodup.2
        vacant := hvacant
        balance := hbalance }

end Custody

/-! ### A step -/

section Kept

variable [Fintype ι] [DecidableEq ι]

/-- After a step of thread `i` on producer `j` that leaves the thread with the blocks `held` in
its hands, the memory and the producer are in order and no other producer is concerned. -/
def Kept (e : Env) (hands : ι → List ℕ) (i j : ι) (place : ℕ → Place ι) (m m' : Memory α)
    (p' : Producer α) (enq' : EnqPC α) (deqs' : ι → DeqPC) (held : List ℕ) : Prop :=
  ∃ place', Custody e m' place' (update hands i held) ∧
    (∀ j', j' ≠ j → SameFor j' place place' m m') ∧
    ∃ o low top, Sub e p' m' place' j o low top enq' deqs'

variable {p : Producer α} {m : Memory α} {place : ℕ → Place ι} {hands : ι → List ℕ} {i j : ι}
  {o : ℕ → ℕ} {low top : ℕ} {enq : EnqPC α} {deqs : ι → DeqPC} {held : List ℕ}

/-- A step that no block takes notice of. -/
theorem Kept.quiet (hc : Custody e m place hands) (hheld : held = hands i)
    (hs : Sub e p m place j o low top enq deqs) :
    Kept e hands i j place m m p enq deqs held := by
  refine ⟨place, ?_, fun j' _ => .refl j' place m, o, low, top, hs⟩
  rw [hheld, update_eq_self]
  exact hc

end Kept

end ConcurrentQueue.ImplicitRace
