import ConcurrentQueue.ImplicitRaceCustody

/-!
# ConcurrentQueue.ImplicitRaceReaders

**Every step of a consumer keeps the invariant**, and none of them faults: the block of
a claimed index is on the index until the consumer itself has marked the slot empty, and
the position it computes leads there from any header and tail it may have loaded.
-/

namespace ConcurrentQueue.ImplicitRace

open Function Interleaving Outstanding Circular

variable {ι α : Type} {e : Env}

/-! ### The claim protocol -/

theorem positive_grant {tail overcommit desired mine : ℕ} :
    (Positive (Claim.grant tail overcommit desired mine) ↔ 0 < desired) ∧
      Granted (Claim.grant tail overcommit desired mine) := by
  unfold Claim.grant
  dsimp only
  split
  · split
    · rw [if_neg (lt_irrefl desired)]
      exact ⟨Iff.rfl, trivial⟩
    · split
      · show (0 < Int.toNat _ ↔ _) ∧ 0 < Int.toNat _
        omega
      · refine ⟨?_, trivial⟩
        show 0 < Int.toNat _ ↔ _
        omega
  · exact ⟨Iff.rfl, trivial⟩

/-- Before it claims, a call only reads and writes the two counters that nobody else looks
at. -/
theorem claim_quiet {s s' : Claim.State} {pc pc' : Claim.PC} (hn : ∀ n, pc ≠ .claim n)
    (hstep : Claim.exec () .run s pc = some (s', pc')) :
    s'.headIndex = s.headIndex ∧ s'.tailIndex = s.tailIndex ∧ Granted pc' ∧
      (pc' ≠ .idle → (Positive pc' ↔ Positive pc)) := by
  cases pc with
  | producer => cases hstep
  | idle => cases hstep
  | loadTail c =>
      cases hstep
      exact ⟨rfl, rfl, trivial, fun _ => Iff.rfl⟩
  | loadOvercommit c tail =>
      cases hstep
      exact ⟨rfl, rfl, trivial, fun _ => Iff.rfl⟩
  | loadCount c tail overcommit =>
      simp only [Claim.exec] at hstep
      split at hstep
      next havail =>
        cases hstep
        refine ⟨rfl, rfl, trivial, fun _ => ?_⟩
        cases c with
        | dequeue => exact iff_of_true Nat.one_pos fun heq => by cases heq
        | dequeueBulk max =>
            have htoNat := Int.pos_iff_toNat_pos.mp havail
            simp only [Positive, Claim.Call.desiredCount, ne_eq, Claim.Call.dequeueBulk.injEq]
            split <;> omega
      next =>
        cases hstep
        exact ⟨rfl, rfl, trivial, fun hne => absurd rfl hne⟩
  | addCount c overcommit desired =>
      cases hstep
      exact ⟨rfl, rfl, trivial, fun _ => Iff.rfl⟩
  | reloadTail overcommit desired mine =>
      cases hstep
      exact ⟨rfl, rfl, positive_grant.2, fun _ => positive_grant.1⟩
  | refundSome surplus actual =>
      cases hstep
      exact ⟨rfl, rfl, trivial, fun _ => Iff.rfl⟩
  | claim n => exact absurd rfl (hn n)
  | refundAll desired =>
      cases hstep
      exact ⟨rfl, rfl, trivial, fun hne => absurd rfl hne⟩

/-! ### Small facts about the loops -/

theorem EnqPC.le_inserted (F : ℕ) (l : EnqPC α) : F ≤ l.inserted F := by
  cases l <;> simp only [EnqPC.inserted] <;> omega

theorem lt_endIndex {start last : ℕ} (h : start < last) : start < endIndex e start last := by
  have hsum := div_mul_add_mod (e := e) start
  have hmod := mod_lt (e := e) start
  unfold endIndex
  split <;> omega

theorem endIndex_self (n : ℕ) : endIndex e n n = n := by
  have hsum := div_mul_add_mod (e := e) n
  have hmod := mod_lt (e := e) n
  rw [endIndex, if_pos (by omega)]

theorem le_endIndex {start last : ℕ} (h : start ≤ last) : start ≤ endIndex e start last := by
  rcases h.lt_or_eq with hlt | rfl
  · exact (lt_endIndex hlt).le
  · rw [endIndex_self]

/-- The part of a range before `endIndex` lies in one block. -/
theorem div_eq_of_lt_endIndex {start n last : ℕ} (hle : start ≤ n)
    (hlt : n < endIndex e start last) : n / e.BLOCK_SIZE = start / e.BLOCK_SIZE := by
  have hend : n < start / e.BLOCK_SIZE * e.BLOCK_SIZE + e.BLOCK_SIZE := by
    unfold endIndex at hlt
    split at hlt <;> omega
  refine le_antisymm ?_ (Nat.div_le_div_right hle)
  rw [← Nat.succ_mul] at hend
  exact Nat.le_of_lt_succ ((Nat.div_lt_iff_lt_mul e.BLOCK_SIZE_pos).mpr hend)

/-- A range that does not end in the block goes on with the next one. -/
theorem endIndex_eq {start last : ℕ} (h : endIndex e start last < last) :
    endIndex e start last = (start / e.BLOCK_SIZE + 1) * e.BLOCK_SIZE := by
  rw [Nat.succ_mul]
  unfold endIndex at h ⊢
  split at h
  · omega
  · rw [if_neg ‹_›]

section Loops

variable {x : Index} {start n last g q b : ℕ}

@[simp] theorem owed_moveOrMark :
    (moveOrMark e start n last g q b).owed = Finset.Ico start last := by
  unfold moveOrMark
  split <;> rfl

@[simp] theorem unmoved_moveOrMark :
    (moveOrMark e start n last g q b).unmoved = Finset.Ico n last := by
  unfold moveOrMark
  split <;> rfl

@[simp] theorem hands_moveOrMark : (moveOrMark e start n last g q b).hands = [] := by
  unfold moveOrMark
  split <;> rfl

@[simp] theorem clearing_moveOrMark : (moveOrMark e start n last g q b).clearing = none := by
  unfold moveOrMark
  split <;> rfl

theorem asksNone_moveOrMark : (moveOrMark e start n last g q b).AsksNone ↔ start = last := by
  unfold moveOrMark
  split <;> simp [DeqPC.AsksNone, DeqPC.unclaimed, DeqPC.peeks]

theorem asksNone_advance : ¬ (advance x n last g q).AsksNone := by
  unfold advance
  split
  next => exact fun hnone => hnone rfl
  next hne => simp [DeqPC.AsksNone, DeqPC.unclaimed, DeqPC.peeks, hne]

@[simp] theorem owed_advance : (advance x n last g q).owed = Finset.Ico n last := by
  unfold advance
  split
  next heq => rw [heq, Finset.Ico_self]; rfl
  next => rfl

@[simp] theorem unmoved_advance :
    (advance x n last g q).unmoved = Finset.Ico n last := by
  unfold advance
  split
  next heq => rw [heq, Finset.Ico_self]; rfl
  next => rfl

@[simp] theorem hands_advance : (advance x n last g q).hands = [] := by
  unfold advance
  split <;> rfl

@[simp] theorem clearing_advance : (advance x n last g q).clearing = none := by
  unfold advance
  split <;> rfl

variable {place : ℕ → Place ι} {j : ι} {o : ℕ → ℕ} {S : Finset ℕ} {F : ℕ}

theorem ok_moveOrMark (hr : Reads e x o S F g start last) (hle : start ≤ n)
    (hn : n ≤ endIndex e start last)
    (hq : q = pos (x.headers g).capacity (o g) (start / e.BLOCK_SIZE))
    (hb : place b = .slot j (start / e.BLOCK_SIZE)) :
    (moveOrMark e start n last g q b).Ok e x place j o S F := by
  unfold moveOrMark
  split
  next heq => exact ⟨hr, hq, .inr hb, heq⟩
  next hne => exact ⟨hr, hq, hb, hle, lt_of_le_of_ne hn hne⟩

theorem ok_advance (hle : n ≤ last) (hs : Serves e x o g n last) {k : ℕ}
    (hk : Behind e x o g q n last k) (hpub : n < last → n / e.BLOCK_SIZE < F) :
    (advance x n last g q).Ok e x place j o S F := by
  unfold advance
  split
  next => trivial
  next hne =>
    have hlt := lt_of_le_of_ne hle hne
    refine ⟨⟨hs, hle, hpub hlt, fun heq => absurd heq hne⟩, ?_⟩
    rw [hk.1, ← pos_succ, hk.2 hlt, Nat.mul_div_cancel _ e.BLOCK_SIZE_pos]

/-- An element is moved out before its slot is marked empty. -/
theorem DeqPC.Ok.unmoved_subset {l : DeqPC} (h : l.Ok e x place j o S F) :
    l.unmoved ⊆ l.owed := by
  cases l with
  | moveOut start n last g q b => exact Finset.Ico_subset_Ico_left h.2.2.2.1
  | setManyEmpty start n last g q b =>
      obtain ⟨hr, -, -, rfl⟩ := h
      exact Finset.Ico_subset_Ico_left (le_endIndex hr.le)
  | _ => exact Finset.Subset.refl _

/-- An entry is cleared only when all slots of its block are marked empty. -/
theorem DeqPC.Ok.of_clearing {l : DeqPC} (h : l.Ok e x place j o S F)
    (hl : l.clearing = some b) : ∃ k, place b = .slot j k ∧ Finished e S k := by
  cases l with
  | clearValue n last g q c =>
      cases hl
      obtain ⟨-, -, k, -, hb, -, hall⟩ := h
      exact ⟨k, hb, hall⟩
  | _ => cases hl

end Loops

/-- An entry stays vacant when its value is cleared. -/
theorem vacant_setValue {x : Index} {n n' : ℕ} (h : (x.entries n).vacant = some true) :
    ((x.setValue n' none).entries n).vacant = some true := by
  rcases eq_or_ne n n' with rfl | hne
  · simp only [Index.setValue, update_self, BlockIndexEntry.vacant]
    cases (x.entries n).key <;> rfl
  · simp only [Index.setValue, update_of_ne hne]
    exact h

/-! ### The marks of one block -/

section Marks

variable {S : Finset ℕ} {k : ℕ}

theorem filter_block_subset : S.filter (· / e.BLOCK_SIZE = k) ⊆
    Finset.Ico (k * e.BLOCK_SIZE) (k * e.BLOCK_SIZE + e.BLOCK_SIZE) := by
  intro n hn
  have hsum := div_mul_add_mod (e := e) n
  have hmod := mod_lt (e := e) n
  rw [(Finset.mem_filter.mp hn).2] at hsum
  exact Finset.mem_Ico.mpr ⟨by omega, by omega⟩

theorem card_block_le : (S.filter (· / e.BLOCK_SIZE = k)).card ≤ e.BLOCK_SIZE := by
  have hcard := Finset.card_le_card (filter_block_subset (e := e) (S := S) (k := k))
  rwa [Nat.card_Ico, Nat.add_sub_cancel_left] at hcard

/-- A block whose slots are all marked has as many marks as slots. -/
theorem card_block_of_mem (hall : Finished e S k) :
    (S.filter (· / e.BLOCK_SIZE = k)).card = e.BLOCK_SIZE := by
  refine le_antisymm card_block_le ?_
  have hsub : Finset.Ico (k * e.BLOCK_SIZE) (k * e.BLOCK_SIZE + e.BLOCK_SIZE) ⊆
      S.filter (· / e.BLOCK_SIZE = k) := by
    intro n hn
    rw [Finset.mem_Ico] at hn
    have hdiv : n / e.BLOCK_SIZE = k := by
      rw [← Nat.add_sub_cancel' hn.1]
      exact mul_add_div (by omega)
    exact Finset.mem_filter.mpr ⟨hall n hdiv, hdiv⟩
  have hcard := Finset.card_le_card hsub
  rwa [Nat.card_Ico, Nat.add_sub_cancel_left] at hcard

/-- As many marks as slots: all slots are marked. -/
theorem mem_of_card_block (hcard : (S.filter (· / e.BLOCK_SIZE = k)).card = e.BLOCK_SIZE) :
    Finished e S k := by
  intro n hn
  have heq : S.filter (· / e.BLOCK_SIZE = k) =
      Finset.Ico (k * e.BLOCK_SIZE) (k * e.BLOCK_SIZE + e.BLOCK_SIZE) := by
    refine Finset.eq_of_subset_of_card_le filter_block_subset ?_
    rw [Nat.card_Ico, Nat.add_sub_cancel_left, hcard]
  have hmem : n ∈ Finset.Ico (k * e.BLOCK_SIZE) (k * e.BLOCK_SIZE + e.BLOCK_SIZE) := by
    have hsum := div_mul_add_mod (e := e) n
    have hmod := mod_lt (e := e) n
    rw [hn] at hsum
    exact Finset.mem_Ico.mpr ⟨by omega, by omega⟩
  rw [← heq] at hmem
  exact (Finset.mem_filter.mp hmem).1

end Marks

/-! ### The steps -/

section Steps

variable [Fintype ι] [DecidableEq ι] {p : Producer α} {m : Memory α} {place : ℕ → Place ι}
  {hands : ι → List ℕ} {i j : ι} {o : ℕ → ℕ} {low top : ℕ} {enq : EnqPC α} {deqs : ι → DeqPC}

namespace Sub

omit [DecidableEq ι] in
/-- A call looks up an index that it owes, or one that has been seen to be alive. -/
theorem alive (h : Sub e p m place j o low top enq deqs)
    (hle : p.counters.headIndex ≤ p.counters.tailIndex)
    (hg : ∀ n ∈ (deqs i).unclaimed, Alive e p deqs (n / e.BLOCK_SIZE)) {n last : ℕ}
    (hn : n ≤ last) (howed : (deqs i).owed = Finset.Ico n last)
    (hun : (deqs i).unclaimed = if n = last then some n else none) :
    Alive e p deqs (n / e.BLOCK_SIZE) := by
  rcases hn.lt_or_eq with hlt | heq
  · exact h.alive_of_owed hle (i := i) (howed ▸ Finset.mem_Ico.mpr ⟨le_rfl, hlt⟩)
  · exact hg n (hun.trans (if_pos heq))

omit [DecidableEq ι] in
/-- Where a block that is alive is. -/
theorem resolve (h : Sub e p m place j o low top enq deqs) {k : ℕ} (hk : Alive e p deqs k) :
    ∃ b h, place b = .slot j k ∧ p.index.blockIndex = some h ∧ low ≤ k ∧ k < top ∧
      k < enq.inserted (blocksBelow e p.counters.tailIndex) := by
  obtain ⟨b, hb⟩ := h.live hk
  obtain ⟨hne, hlow, htop, -⟩ := h.shelf.slot b _ hb
  obtain ⟨g, hg⟩ := Option.ne_none_iff_exists'.mp hne
  exact ⟨b, g, hb, hg, hlow, htop, hk.1.trans_le (EnqPC.le_inserted _ enq)⟩

omit [DecidableEq ι] in
/-- What the entry of such a block holds, seen from any header that has it. -/
theorem entry (h : Sub e p m place j o low top enq deqs) {n g q : ℕ}
    (hn : Alive e p deqs (n / e.BLOCK_SIZE)) (hcov : Covers p.index o g (n / e.BLOCK_SIZE))
    (hq : q = pos (p.index.headers g).capacity (o g) (n / e.BLOCK_SIZE)) :
    ∃ b, place b = .slot j (n / e.BLOCK_SIZE) ∧
      p.index.entries ((p.index.headers g).index q) =
        ⟨some (n / e.BLOCK_SIZE * e.BLOCK_SIZE), some (some b)⟩ := by
  obtain ⟨b, c, hb, hc, hlow, htop, -⟩ := h.resolve hn
  have hcell : (p.index.headers g).index q = p.index.cell o c (n / e.BLOCK_SIZE) := by
    rw [hq]
    exact hcov c hc
  have hkey := (h.shelf.index c hc).key_cell hlow htop
  have hvalue := (h.shelf.value c hc _ hlow htop b).mpr hb
  refine ⟨b, hb, ?_⟩
  rw [hcell]
  generalize hx : p.index.entries (p.index.cell o c (n / e.BLOCK_SIZE)) = entry
  rw [Index.key, hx] at hkey
  rw [Index.value, hx] at hvalue
  rw [← hkey, ← hvalue]

omit [DecidableEq ι] in
/-- A block is found on an index where the invariant says. -/
theorem slot_iff (hs : Sub e p m place j o low top enq deqs) (b k : ℕ) :
    (∃ h q, p.index.blockIndex = some h ∧ q < (p.index.headers h).capacity ∧
      p.index.entries ((p.index.headers h).index q) =
        ⟨some (k * e.BLOCK_SIZE), some (some b)⟩) ↔ place b = .slot j k := by
  constructor
  · rintro ⟨h, q, hh, hq, hentry⟩
    have hx := hs.shelf.index h hh
    have hkey : p.index.key ((p.index.headers h).index q) = some (k * e.BLOCK_SIZE) := by
      rw [Index.key, hentry]
    obtain ⟨l, hlow, htop, rfl, hl⟩ := hx.window.key_spec hq hkey
    obtain rfl := Nat.eq_of_mul_eq_mul_right e.BLOCK_SIZE_pos hl
    refine (hs.shelf.value h hh k hlow htop b).mp ?_
    rw [Index.value, Index.cell, hentry]
  · intro hb
    obtain ⟨hne, hlow, htop, -⟩ := hs.shelf.slot b k hb
    obtain ⟨h, hh⟩ := Option.ne_none_iff_exists'.mp hne
    have hx := hs.shelf.index h hh
    have hkey := hx.key_cell hlow htop
    have hvalue := (hs.shelf.value h hh k hlow htop b).mpr hb
    refine ⟨h, pos (p.index.headers h).capacity (o h) k, hh, pos_lt hx.cap_pos k, ?_⟩
    rw [Index.key, Index.cell] at hkey
    rw [Index.value, Index.cell] at hvalue
    rw [← hkey, ← hvalue]

omit [DecidableEq ι] in
/-- What is marked empty was moved out before. -/
theorem marked_subset_moved (h : Sub e p m place j o low top enq deqs) :
    marked deqs p.counters.headIndex ⊆ moved deqs p.counters.headIndex := by
  intro n hn
  obtain ⟨hlt, hall⟩ := mem_settled.mp hn
  exact mem_settled.mpr ⟨hlt, fun i hmem => hall i ((h.readers i).unmoved_subset hmem)⟩

omit [DecidableEq ι] in
/-- The block of an owed index is the one where its element was constructed. -/
theorem home (h : Sub e p m place j o low top enq deqs)
    (hle : p.counters.headIndex ≤ p.counters.tailIndex) {n : ℕ} (hn : n ∈ (deqs i).owed) :
    ∃ b v, p.constructed[n]? = some (b, v) ∧ place b = .slot j (n / e.BLOCK_SIZE) := by
  have hlt := (h.owed.below i n hn).trans_le hle
  obtain ⟨⟨b, v⟩, hv⟩ : ∃ y, p.constructed[n]? = some y := by
    have hcount := h.stock.count
    exact ⟨_, List.getElem?_eq_getElem (by omega)⟩
  exact ⟨b, v, hv, h.stock.home n b v hv (not_mem_settled (i := i) hn)⟩

omit [DecidableEq ι] in
/-- The element of an index that is not moved out yet is there. -/
theorem element_of_unmoved (h : Sub e p m place j o low top enq deqs)
    (hle : p.counters.headIndex ≤ p.counters.tailIndex) {n b : ℕ} (hn : n ∈ (deqs i).unmoved)
    (hb : place b = .slot j (n / e.BLOCK_SIZE)) :
    ∃ v, p.constructed[n]? = some (b, v) ∧ m.elements b (n % e.BLOCK_SIZE) = some v := by
  obtain ⟨c, v, hv, hc⟩ := h.home hle ((h.readers i).unmoved_subset hn)
  obtain rfl : c = b := h.shelf.unique hc hb
  have hnot : n ∉ moved deqs p.counters.headIndex := not_mem_settled (i := i) hn
  refine ⟨v, hv, ?_⟩
  rw [h.stock.elements c _ hb _ (mod_lt n), div_mul_add_mod, if_neg hnot, hv]
  rfl

omit [DecidableEq ι] in
/-- What a consumer moves out is the element constructed for its index. -/
theorem element (h : Sub e p m place j o low top enq deqs)
    (hle : p.counters.headIndex ≤ p.counters.tailIndex) {start n last g q b : ℕ}
    (hl : deqs i = .moveOut start n last g q b) :
    ∃ v, p.constructed[n]? = some (b, v) ∧ m.elements b (n % e.BLOCK_SIZE) = some v := by
  have hok := h.readers i
  rw [hl] at hok
  obtain ⟨-, -, hb, hstart, hend⟩ := hok
  rw [← div_eq_of_lt_endIndex hstart hend] at hb
  refine h.element_of_unmoved hle (i := i) ?_ hb
  rw [hl]
  exact Finset.mem_Ico.mpr ⟨le_rfl, hend.trans_le (endIndex_le start last)⟩

omit [DecidableEq ι] in
/-- A call that asks for no elements goes on so, and no other becomes one. -/
theorem asksNone_iff (h : Sub e p m place j o low top enq deqs)
    (hg : ∀ n ∈ (deqs i).unclaimed, Alive e p deqs (n / e.BLOCK_SIZE))
    {r : Producer α × Memory α × DeqPC} (hstep : deqStep e (deqs i) p m = some r)
    (hr : r.2.2 ≠ .finished) (hf : r.2.2 ≠ .fault) : r.2.2.AsksNone ↔ (deqs i).AsksNone := by
  have hok := h.readers i
  generalize deqs i = pc at hg hstep hok
  cases pc with
  | claiming q =>
      obtain ⟨⟨s, q'⟩, hexec, rfl⟩ := Option.map_eq_some_iff.mp hstep
      by_cases hclaim : ∃ n, q = .claim n
      · obtain ⟨n, rfl⟩ := hclaim
        simp [afterClaim, DeqPC.AsksNone, DeqPC.unclaimed, Positive]
      · push Not at hclaim
        obtain ⟨-, -, -, hnext⟩ := claim_quiet hclaim hexec
        rw [afterClaim_eq hclaim] at hr ⊢
        dsimp only at hr ⊢
        split at hr
        next => exact absurd rfl hr
        next hne =>
          rw [if_neg hne]
          exact (hnext hne).not
  | loadValue n last g q =>
      simp only [deqStep] at hstep
      split at hstep
      · cases hstep
        refine asksNone_moveOrMark.trans ?_
        simp [DeqPC.AsksNone, DeqPC.unclaimed, DeqPC.peeks]
      · cases hstep
        exact absurd rfl hf
  | moveOut start n last g q b =>
      simp only [deqStep] at hstep
      split at hstep
      · cases hstep
        exact absurd rfl hf
      · cases hstep
        refine asksNone_moveOrMark.trans ?_
        simp [DeqPC.AsksNone, DeqPC.unclaimed, DeqPC.peeks]
  | setManyEmpty start n last g q b =>
      obtain ⟨-, -, hor, hend⟩ := hok
      -- a call that claimed nothing ends here, as its block is not full
      have hlt : start ≠ last := by
        rintro rfl
        obtain rfl : n = start := hend.trans (endIndex_self start)
        have halive := hg n (if_pos rfl)
        have hmarks := h.stock.marks b _ (hor.resolve_left fun hdone => halive.2 hdone.2)
        have hne : m.elementsCompletelyDequeued b ≠ e.BLOCK_SIZE := fun hfull =>
          halive.2 (mem_of_card_block (hmarks.symm.trans hfull))
        have hle : m.elementsCompletelyDequeued b ≤ e.BLOCK_SIZE := hmarks ▸ card_block_le
        simp only [deqStep, Nat.sub_self, Nat.add_zero, if_pos hle, if_neg hne, advance,
          if_true] at hstep
        cases hstep
        exact hr rfl
      refine iff_of_false ?_ (by simp [DeqPC.AsksNone, DeqPC.unclaimed, DeqPC.peeks, hlt])
      simp only [deqStep] at hstep
      repeat' split at hstep
      all_goals cases hstep
      · exact fun hnone => hnone rfl
      · exact asksNone_advance
      · exact absurd rfl hf
  | addBlock n last g q b =>
      cases hstep
      exact iff_of_false asksNone_advance fun hnone => hnone rfl
  | finished => cases hstep
  | fault => cases hstep
  | _ =>
      simp only [deqStep] at hstep
      repeat' split at hstep
      all_goals
        cases hstep
        first
          | exact Iff.rfl
          | exact absurd rfl hf

/-- A claim hands out the next indices. -/
theorem claim (h : Sub e p m place j o low top enq deqs) {n : ℕ}
    (hl : deqs i = .claiming (.claim n)) {s : Claim.State}
    (hhead : s.headIndex = p.counters.headIndex + n)
    (htail : s.tailIndex = p.counters.tailIndex) :
    Sub e { p with counters := s } m place j o low top enq
      (update deqs i
        (.loadIndex p.counters.headIndex (p.counters.headIndex + n))) := by
  have howed : (DeqPC.owed ∘ deqs) i = ∅ := by rw [Function.comp_apply, hl]; rfl
  have hunmoved : (DeqPC.unmoved ∘ deqs) i = ∅ := by rw [Function.comp_apply, hl]; rfl
  have hmarked : marked (update deqs i
      (.loadIndex p.counters.headIndex (p.counters.headIndex + n))) s.headIndex =
      marked deqs p.counters.headIndex := by
    rw [marked, owed_update, hhead]
    exact settled_draw howed n
  have hmoved : moved (update deqs i
      (.loadIndex p.counters.headIndex (p.counters.headIndex + n))) s.headIndex =
      moved deqs p.counters.headIndex := by
    rw [moved, unmoved_update, hhead]
    exact settled_draw hunmoved n
  have hge : p.counters.headIndex ≤ s.headIndex := by omega
  refine ⟨?_, ?_, ?_, ?_, ?_, ?_, ?_, ?_, ?_, ?_⟩
  · rw [owed_update, hhead]
    exact h.owed.draw howed n
  · rw [unmoved_update, hhead]
    exact h.unmoved.draw hunmoved n
  · rw [htail]
    exact h.shelf
  · rw [hmarked, hmoved, htail]
    exact h.stock
  · rw [hmoved]
    exact h.delivery
  · rw [htail]
    exact h.fits.mono hge
  · rw [htail]
    exact h.owner.mono rfl rfl (fun _ hv => hv) (fun _ _ _ hb => hb) (fun _ _ => rfl) hge
  · rw [hmarked, htail]
    exact forall_update (P := fun l : DeqPC => l.Ok e p.index place j o
      (marked deqs p.counters.headIndex) (blocksBelow e p.counters.tailIndex))
      (Nat.le_add_right _ _) h.readers
  · exact clearing_update h.clearing fun b hb => by cases hb
  · rw [hmarked]
    exact h.swept.update fun b hb => by rw [hl] at hb; cases hb

/-- An element is moved out. -/
theorem move (h : Sub e p m place j o low top enq deqs) {start n last g q b : ℕ}
    (hl : deqs i = .moveOut start n last g q b) {v : α}
    (hv : (p.constructed[n]?).map Prod.snd = some v) :
    Sub e { p with delivered := (n, v) :: p.delivered } (m.setElement b (n % e.BLOCK_SIZE) none)
      place j o low top enq
      (update deqs i (moveOrMark e start (n + 1) last g q b)) := by
  have hok := h.readers i
  rw [hl] at hok
  obtain ⟨hr, hq, hb, hstart, hend⟩ := hok
  have hlast := endIndex_le (e := e) start last
  have howed : (moveOrMark e start (n + 1) last g q b).owed = (deqs i).owed := by
    rw [owed_moveOrMark, hl]
    rfl
  have hunmoved : (DeqPC.unmoved ∘ deqs) i = Finset.Ico n last := by
    rw [Function.comp_apply, hl]
    rfl
  have hrest : Finset.Ico (n + 1) last ⊆ (DeqPC.unmoved ∘ deqs) i := by
    rw [hunmoved]
    exact Finset.Ico_subset_Ico_left (Nat.le_succ n)
  have hmarked : marked (update deqs i (moveOrMark e start (n + 1) last g q b))
      p.counters.headIndex = marked deqs p.counters.headIndex := marked_update_same howed _
  have hmoved : moved (update deqs i (moveOrMark e start (n + 1) last g q b))
      p.counters.headIndex = insert n (moved deqs p.counters.headIndex) := by
    rw [moved, unmoved_update, unmoved_moveOrMark, h.unmoved.settled_settle hrest, hunmoved,
      Finset.insert_eq, Finset.union_comm]
    congr 1
    ext k
    rw [Finset.mem_sdiff, Finset.mem_Ico, Finset.mem_Ico, Finset.mem_singleton]
    omega
  have hdiv := div_eq_of_lt_endIndex hstart hend
  have hplace : place b = .slot j (n / e.BLOCK_SIZE) := by rw [hdiv]; exact hb
  have hnot : n ∉ moved deqs p.counters.headIndex := by
    refine not_mem_settled (i := i) ?_
    rw [hunmoved, Finset.mem_Ico]
    omega
  refine ⟨?_, ?_, h.shelf, ?_, ?_, h.fits, ?_, ?_, ?_, ?_⟩
  · rw [owed_update_same howed]
    exact h.owed
  · rw [unmoved_update, unmoved_moveOrMark]
    exact h.unmoved.settle hrest
  · rw [hmarked, hmoved]
    exact h.stock.move hplace fun c hc => h.shelf.unique hc hplace
  · rw [hmoved]
    exact h.delivery.move hnot hv
  · exact h.owner.mono rfl rfl (fun _ hv => hv) (fun _ _ _ hb => hb) (fun _ _ => rfl) le_rfl
  · rw [hmarked]
    exact forall_update (P := fun l : DeqPC => l.Ok e p.index place j o
      (marked deqs p.counters.headIndex) (blocksBelow e p.counters.tailIndex))
      (ok_moveOrMark hr (by omega) hend hq hb) h.readers
  · refine clearing_update h.clearing fun c hc => ?_
    rw [clearing_moveOrMark] at hc
    cases hc
  · rw [hmarked]
    exact h.swept.update fun c hc => by rw [hl] at hc; cases hc

/-- The indices marked empty after a range was marked. -/
theorem marked_mark (h : Sub e p m place j o low top enq deqs) {start n last g q b : ℕ}
    (hl : deqs i = .setManyEmpty start n last g q b) {l : DeqPC}
    (howed : l.owed = Finset.Ico n last) :
    marked (update deqs i l) p.counters.headIndex =
      marked deqs p.counters.headIndex ∪ Finset.Ico start n := by
  have hold := h.readers i
  rw [hl] at hold
  obtain ⟨hr, -, -, hend⟩ := hold
  have hstart : start ≤ n := hend ▸ le_endIndex hr.le
  have hlast : n ≤ last := hend ▸ endIndex_le start last
  have howed' : (DeqPC.owed ∘ deqs) i = Finset.Ico start last := by
    rw [Function.comp_apply, hl]
    rfl
  have hrest : l.owed ⊆ (DeqPC.owed ∘ deqs) i := by
    rw [howed, howed']
    exact Finset.Ico_subset_Ico_left hstart
  rw [marked, owed_update, h.owed.settled_settle hrest, howed', howed, marked]
  congr 1
  ext k
  rw [Finset.mem_sdiff, Finset.mem_Ico, Finset.mem_Ico, Finset.mem_Ico]
  omega

omit [DecidableEq ι] in
/-- The stock after a range was marked. -/
theorem stock_mark (h : Sub e p m place j o low top enq deqs) {start n last g q b : ℕ}
    (hl : deqs i = .setManyEmpty start n last g q b)
    (hb : place b = .slot j (start / e.BLOCK_SIZE)) :
    Stock e (m.setCompletelyDequeued b (m.elementsCompletelyDequeued b + (n - start))) place j
      p.counters.tailIndex (marked deqs p.counters.headIndex ∪ Finset.Ico start n)
      (moved deqs p.counters.headIndex) p.tailBlock p.constructed enq.done := by
  have hok := h.readers i
  rw [hl] at hok
  obtain ⟨-, -, -, hend⟩ := hok
  have hR : ∀ k ∈ Finset.Ico start n, k / e.BLOCK_SIZE = start / e.BLOCK_SIZE := by
    intro k hk
    rw [Finset.mem_Ico] at hk
    exact div_eq_of_lt_endIndex hk.1 (hend ▸ hk.2)
  have hdisj : Disjoint (marked deqs p.counters.headIndex) (Finset.Ico start n) := by
    rw [Finset.disjoint_right]
    intro k hk
    refine not_mem_settled (i := i) ?_
    rw [Function.comp_apply, hl]
    exact Finset.Ico_subset_Ico_right (hend ▸ endIndex_le start last) hk
  have hstock := h.stock.mark hb (fun c hc => h.shelf.unique hc hb) hR hdisj
  rwa [Nat.card_Ico] at hstock

/-- Slots are marked empty. -/
theorem mark (h : Sub e p m place j o low top enq deqs)
    (hle : p.counters.headIndex ≤ p.counters.tailIndex)
    (hhands : ∀ c ∈ enq.hands, place c = .hand j) {start n last g q b : ℕ}
    (hl : deqs i = .setManyEmpty start n last g q b)
    (hb : place b = .slot j (start / e.BLOCK_SIZE)) {l : DeqPC}
    (howed : l.owed = Finset.Ico n last) (hunmoved : l.unmoved = Finset.Ico n last)
    (hclear : ∀ c, l.clearing = some c → c = b ∧ start < last)
    (hfull : Finished e (marked deqs p.counters.headIndex ∪ Finset.Ico start n)
      (start / e.BLOCK_SIZE) → l.clearing = some b)
    (hok : l.Ok e p.index place j o (marked deqs p.counters.headIndex ∪ Finset.Ico start n)
      (blocksBelow e p.counters.tailIndex)) :
    Sub e p (m.setCompletelyDequeued b (m.elementsCompletelyDequeued b + (n - start))) place j o
      low top enq (update deqs i l) := by
  have hold := h.readers i
  rw [hl] at hold
  obtain ⟨hr, -, -, hend⟩ := hold
  have hlast : n ≤ last := hend ▸ endIndex_le start last
  have howed' : (DeqPC.owed ∘ deqs) i = Finset.Ico start last := by
    rw [Function.comp_apply, hl]
    rfl
  have hrest : l.owed ⊆ (DeqPC.owed ∘ deqs) i := by
    rw [howed, howed', hend]
    exact Finset.Ico_subset_Ico_left (le_endIndex hr.le)
  have hmarked := h.marked_mark hl howed
  have hmoved : moved (update deqs i l) p.counters.headIndex =
      moved deqs p.counters.headIndex := moved_update_same (by rw [hunmoved, hl]; rfl) _
  refine ⟨?_, ?_, h.shelf, ?_, ?_, h.fits, ?_, ?_, ?_, ?_⟩
  · rw [owed_update]
    exact h.owed.settle hrest
  · rw [unmoved_update_same (by rw [hunmoved, hl]; rfl)]
    exact h.unmoved
  · rw [hmarked, hmoved]
    exact h.stock_mark hl hb
  · rw [hmoved]
    exact h.delivery
  · refine h.owner.mono rfl rfl (fun _ hv => hv) (fun _ _ _ hc => hc) (fun c hc => ?_) le_rfl
    refine Memory.completely_setCompletelyDequeued_of_ne ?_
    rintro rfl
    have := hhands c hc
    rw [hb] at this
    cases this
  · rw [hmarked]
    refine forall_update (P := fun l : DeqPC => l.Ok e p.index place j o
      (marked deqs p.counters.headIndex ∪ Finset.Ico start n)
      (blocksBelow e p.counters.tailIndex)) hok fun i' => ?_
    exact (h.readers i').mono (.refl _ _) (fun _ _ _ _ _ hc => hc)
      (fun _ hk => h.live (h.alive_of_needs hle (hk.of_subset Finset.subset_union_left)))
      (fun _ _ hc _ => hc) Finset.subset_union_left le_rfl
  · refine clearing_update h.clearing fun c hc i' _ hi' => ?_
    -- a second thread would have seen the slots of this one marked
    obtain ⟨rfl, hlt⟩ := hclear c hc
    obtain ⟨k, hk, hall⟩ := (h.readers i').of_clearing hi'
    rw [hb] at hk
    have hmem := hall start (by injection hk)
    refine not_mem_settled (i := i) ?_ hmem
    rw [howed']
    exact Finset.mem_Ico.mpr ⟨le_rfl, hlt⟩
  · rw [hmarked]
    intro c k hc hall
    rcases eq_or_ne k (start / e.BLOCK_SIZE) with rfl | hne
    · obtain rfl := h.shelf.unique hc hb
      exact ⟨i, by rw [update_self]; exact hfull hall⟩
    · -- the marks are those of another block
      have hother : Swept e place j (update deqs i l) (marked deqs p.counters.headIndex) :=
        h.swept.update fun d hd => by rw [hl] at hd; cases hd
      refine hother c k hc fun n' hn' => (Finset.mem_union.mp (hall n' hn')).resolve_right ?_
      intro hmem
      rw [Finset.mem_Ico] at hmem
      exact hne (hn'.symm.trans (div_eq_of_lt_endIndex hmem.1 (hend ▸ hmem.2)))

/-- The entry of an empty block is cleared. -/
theorem clear (h : Sub e p m place j o low top enq deqs)
    (hle : p.counters.headIndex ≤ p.counters.tailIndex) {n last g q b k : ℕ}
    (hl : deqs i = .clearValue n last g q b) (hbehind : Behind e p.index o g q n last k)
    (hb : place b = .slot j k) (hcov : Covers p.index o g k)
    (hall : Finished e (marked deqs p.counters.headIndex) k) :
    Sub e { p with index := p.index.setValue ((p.index.headers g).index q) none } m
      (update place b (.hand i)) j o low top enq
      (update deqs i (.addBlock n last g q b)) := by
  have hok := h.readers i
  rw [hl] at hok
  obtain ⟨hnlast, hs, -⟩ := hok
  obtain ⟨hne, -, -, -⟩ := h.shelf.slot b k hb
  obtain ⟨c, hc⟩ := Option.ne_none_iff_exists'.mp hne
  have hcell : (p.index.headers g).index q = p.index.cell o c k := by
    rw [hbehind.1]
    exact hcov c hc
  have hmarked : marked (update deqs i (.addBlock n last g q b)) p.counters.headIndex =
      marked deqs p.counters.headIndex := marked_update_same (by rw [hl]; rfl) _
  have hmoved : moved (update deqs i (.addBlock n last g q b)) p.counters.headIndex =
      moved deqs p.counters.headIndex := moved_update_same (by rw [hl]; rfl) _
  -- all indices of the block were claimed, so it is published
  have hbelow : ∀ n ∈ marked deqs p.counters.headIndex, n < p.counters.tailIndex :=
    fun n hn => (mem_settled.mp hn).1.trans_le hle
  have hk : k < blocksBelow e p.counters.tailIndex :=
    lt_blocksBelow.mpr (hbelow _ (hall _ (Nat.mul_div_cancel _ e.BLOCK_SIZE_pos)))
  have hslot : ∀ l, (Place.hand i : Place ι) ≠ .slot j l := fun l heq => by cases heq
  refine ⟨?_, ?_, ?_, ?_, ?_, h.fits, ?_, ?_, ?_, ?_⟩
  · rw [owed_update_same (by rw [hl]; rfl)]
    exact h.owed
  · rw [unmoved_update_same (by rw [hl]; rfl)]
    exact h.unmoved
  · rw [hcell]
    exact h.shelf.remove hc hb hslot fun l hmem _ => hmem
  · rw [hmarked, hmoved]
    refine h.stock.drop hb (fun n hn hnot => absurd (hall n hn) hnot) (fun hmem => ?_) hslot
    exact (hbelow _ hmem).false
  · rw [hmoved]
    exact h.delivery
  · refine h.owner.mono rfl rfl (fun n' hv => ?_) (fun b' l hl' hb' => ?_) (fun _ _ => rfl) le_rfl
    · exact vacant_setValue hv
    · rw [update_of_ne, hb']
      rintro rfl
      rw [hb] at hb'
      injection hb' with _ heq
      omega
  · rw [hmarked]
    have hgrows := Index.Grows.setValue p.index o ((p.index.headers g).index q) none
    intro i'
    rcases eq_or_ne i' i with rfl | hi'
    · rw [update_self]
      refine ⟨hnlast, ?_, k, hbehind.mono hgrows hs.known⟩
      exact ⟨hs.known, fun n hn hn' => (hs.covers n hn hn').of_same rfl fun _ _ => rfl⟩
    · rw [update_of_ne hi']
      refine (h.readers i').mono hgrows (fun _ _ _ _ _ hc => hc.of_same rfl fun _ _ => rfl)
        (fun _ hk => h.live (h.alive_of_needs hle hk)) (fun b' l hb' hor => ?_)
        (Finset.Subset.refl _) le_rfl
      rw [update_of_ne, hb']
      -- the block of an index that is owed, or that is about to be cleared, is another one
      rintro rfl
      rw [hb] at hb'
      injection hb' with _ heq
      rcases hor with (⟨n, hn, hnl⟩ | ⟨n, -, -, hfin⟩) | hclear
      · exact not_mem_settled (i := i') hn (hall n (hnl.trans heq.symm))
      · exact hfin (heq ▸ hall)
      · exact hi' (h.clearing i' i b' hclear (by rw [hl]; rfl))
  · exact clearing_update h.clearing fun c hc => by cases hc
  · rw [hmarked]
    intro c l hcl hfull
    have hcb : c ≠ b := by
      rintro rfl
      rw [update_self] at hcl
      exact hslot l hcl
    rw [update_of_ne hcb] at hcl
    obtain ⟨i', hi'⟩ := h.swept c l hcl hfull
    refine ⟨i', ?_⟩
    rwa [update_of_ne]
    rintro rfl
    rw [hl] at hi'
    exact hcb (Option.some.inj hi').symm

end Sub

/-! ### All steps together -/

variable (hc : Custody e m place hands) (h : Sub e p m place j o low top enq deqs)
  (hi : hands i = (deqs i).hands)

include hc h hi

/-- A step of a consumer that only looks. -/
theorem look_kept {l l' : DeqPC} (hl : deqs i = l) (howed : l'.owed = l.owed)
    (hunmoved : l'.unmoved = l.unmoved) (hhands : l'.hands = l.hands)
    (hclear : l'.clearing = l.clearing)
    (hok : l'.Ok e p.index place j o (marked deqs p.counters.headIndex)
      (blocksBelow e p.counters.tailIndex)) :
    Kept e hands i j place m m p enq (update deqs i l') l'.hands := by
  subst hl
  exact .quiet hc (hhands.trans hi.symm) (h.reader_quiet rfl rfl howed hunmoved hclear hok)

theorem claiming_kept {pc : Claim.PC} (hl : deqs i = .claiming pc)
    {r : Producer α × Memory α × DeqPC} (hstep : deqStep e (.claiming pc) p m = some r) :
    Kept e hands i j place m r.2.1 r.1 enq (update deqs i r.2.2) r.2.2.hands := by
  rw [hl] at hi
  obtain ⟨⟨s, pc'⟩, hexec, rfl⟩ := Option.map_eq_some_iff.mp hstep
  by_cases hclaim : ∃ n, pc = .claim n
  · obtain ⟨n, rfl⟩ := hclaim
    cases hexec
    exact .quiet hc hi.symm (h.claim hl rfl rfl)
  · push Not at hclaim
    obtain ⟨hhead, htail, hgranted, -⟩ := claim_quiet hclaim hexec
    rw [afterClaim_eq hclaim]
    split
    next =>
      exact .quiet hc hi.symm (h.reader_quiet hhead htail (by rw [hl]; rfl) (by rw [hl]; rfl)
        (by rw [hl]; rfl) trivial)
    next =>
      exact .quiet hc hi.symm (h.reader_quiet hhead htail (by rw [hl]; rfl) (by rw [hl]; rfl)
        (by rw [hl]; rfl) hgranted)

variable (hle : p.counters.headIndex ≤ p.counters.tailIndex)
  (hg : ∀ n ∈ (deqs i).unclaimed, Alive e p deqs (n / e.BLOCK_SIZE))

include hle hg

theorem loadIndex_kept {n last : ℕ} (hl : deqs i = .loadIndex n last)
    {r : Producer α × Memory α × DeqPC} (hstep : deqStep e (.loadIndex n last) p m = some r) :
    Kept e hands i j place m r.2.1 r.1 enq (update deqs i r.2.2) r.2.2.hands := by
  have hok := h.readers i
  rw [hl] at hok
  have hn := h.alive hle hg hok (by rw [hl]; rfl) (by rw [hl]; rfl)
  obtain ⟨b, g, -, hcur, -⟩ := h.resolve hn
  simp only [deqStep, hcur] at hstep
  cases hstep
  have hlast := (h.shelf.index g hcur).last
  have hcov : ∀ k, Covers p.index o g k := fun k c hc => by
    rw [Option.some.inj (hcur.symm.trans hc)]
  exact look_kept hc h hi hl rfl rfl rfl rfl
    ⟨⟨by omega, fun k _ _ => hcov _⟩, hok, hn.1, fun _ => .inr (hcov _)⟩

theorem loadTail_kept {n last g : ℕ} (hl : deqs i = .loadTail n last g)
    {r : Producer α × Memory α × DeqPC} (hstep : deqStep e (.loadTail n last g) p m = some r) :
    Kept e hands i j place m r.2.1 r.1 enq (update deqs i r.2.2) r.2.2.hands := by
  have hr := h.readers i
  rw [hl] at hr
  change Reads e p.index o _ _ g n last at hr
  have hn := h.alive hle hg hr.le (by rw [hl]; rfl) (by rw [hl]; rfl)
  obtain ⟨b, c, -, hcur, hlow, -, hins⟩ := h.resolve hn
  have hx := h.shelf.index c hcur
  cases hstep
  exact look_kept hc h hi hl rfl rfl rfl rfl
    ⟨hr, hx.tail_lt g hr.known, hx.key_tail_ne hr.known hlow hins⟩

theorem loadKey_kept {n last g t : ℕ} (hl : deqs i = .loadKey n last g t)
    {r : Producer α × Memory α × DeqPC} (hstep : deqStep e (.loadKey n last g t) p m = some r) :
    Kept e hands i j place m r.2.1 r.1 enq (update deqs i r.2.2) r.2.2.hands := by
  have hok := h.readers i
  rw [hl] at hok
  obtain ⟨hr, ht, hkey⟩ := hok
  have hn := h.alive hle hg hr.le (by rw [hl]; rfl) (by rw [hl]; rfl)
  obtain ⟨b, c, -, hcur, -⟩ := h.resolve hn
  obtain ⟨tailBase, hbase⟩ := Option.ne_none_iff_exists'.mp hkey
  have hentry : (p.index.entries ((p.index.headers g).index t)).key = some tailBase := hbase
  simp only [deqStep, hentry] at hstep
  cases hstep
  exact look_kept hc h hi hl rfl rfl rfl rfl
    ⟨hr, (h.shelf.index c hcur).locate hr.known ht hbase⟩

theorem assertEntry_kept {n last g q : ℕ} (hl : deqs i = .assertEntry n last g q)
    {r : Producer α × Memory α × DeqPC} (hstep : deqStep e (.assertEntry n last g q) p m = some r) :
    Kept e hands i j place m r.2.1 r.1 enq (update deqs i r.2.2) r.2.2.hands := by
  have hok := h.readers i
  rw [hl] at hok
  obtain ⟨hr, hq⟩ := hok
  have hn := h.alive hle hg hr.le (by rw [hl]; rfl) (by rw [hl]; rfl)
  obtain ⟨b, -, hentry⟩ := h.entry hn (hr.of_not_finished hn.2) hq
  have hholds : BlockIndexEntry.holds e ⟨some (n / e.BLOCK_SIZE * e.BLOCK_SIZE), some (some b)⟩ n =
      true := beq_self_eq_true _
  simp only [deqStep, hentry, hholds, if_true] at hstep
  cases hstep
  exact look_kept hc h hi hl rfl rfl rfl rfl ⟨hr, hq⟩

theorem loadValue_kept {n last g q : ℕ} (hl : deqs i = .loadValue n last g q)
    {r : Producer α × Memory α × DeqPC} (hstep : deqStep e (.loadValue n last g q) p m = some r) :
    Kept e hands i j place m r.2.1 r.1 enq (update deqs i r.2.2) r.2.2.hands := by
  have hok := h.readers i
  rw [hl] at hok
  obtain ⟨hr, hq⟩ := hok
  have hn := h.alive hle hg hr.le (by rw [hl]; rfl) (by rw [hl]; rfl)
  obtain ⟨b, hb, hentry⟩ := h.entry hn (hr.of_not_finished hn.2) hq
  simp only [deqStep, hentry] at hstep
  cases hstep
  exact look_kept hc h hi hl owed_moveOrMark unmoved_moveOrMark hands_moveOrMark
    clearing_moveOrMark (ok_moveOrMark hr le_rfl (le_endIndex hr.le) hq hb)

omit hg in
theorem moveOut_kept {start n last g q b : ℕ} (hl : deqs i = .moveOut start n last g q b)
    {r : Producer α × Memory α × DeqPC}
    (hstep : deqStep e (.moveOut start n last g q b) p m = some r) :
    Kept e hands i j place m r.2.1 r.1 enq (update deqs i r.2.2) r.2.2.hands := by
  obtain ⟨v, hv, helement⟩ := h.element hle hl
  have hok := h.readers i
  rw [hl] at hi hok
  obtain ⟨-, -, hb, -⟩ := hok
  simp only [deqStep, helement] at hstep
  cases hstep
  have hother : ∀ c, c ≠ b → (m.setElement b (n % e.BLOCK_SIZE) none).elements c = m.elements c :=
    fun c hcb => update_of_ne hcb ..
  refine ⟨place, ?_, fun j' hj' => ?_, o, low, top, h.move hl (by rw [hv]; rfl)⟩
  · rw [hands_moveOrMark, ← show hands i = [] from hi, update_eq_self]
    exact hc.write rfl rfl rfl rfl rfl rfl fun c hcs =>
      hother c fun hcb => hcs j _ (hcb ▸ hb)
  · exact .write (fun k hk => hj' (by rw [hb] at hk; injection hk with hj; exact hj.symm))
      (fun hk => by rw [hb] at hk; cases hk) (fun _ _ => rfl) hother

variable (hhands : ∀ c ∈ enq.hands, place c = .hand j)

include hhands

theorem setManyEmpty_kept {start n last g q b : ℕ}
    (hl : deqs i = .setManyEmpty start n last g q b) {r : Producer α × Memory α × DeqPC}
    (hstep : deqStep e (.setManyEmpty start n last g q b) p m = some r) :
    Kept e hands i j place m r.2.1 r.1 enq (update deqs i r.2.2) r.2.2.hands := by
  have hok := h.readers i
  rw [hl] at hi hok
  obtain ⟨hr, hq, hor, hend⟩ := hok
  have hstart : start ≤ n := hend ▸ le_endIndex hr.le
  have hlast : n ≤ last := hend ▸ endIndex_le start last
  have halive := h.alive hle hg hr.le (by rw [hl]; rfl) (by rw [hl]; rfl)
  have hb : place b = .slot j (start / e.BLOCK_SIZE) :=
    hor.resolve_left fun hdone => halive.2 hdone.2
  have hserves : Serves e p.index o g n last :=
    ⟨hr.known, fun k hk hk' => hr.covers k (hstart.trans hk) hk'⟩
  have hbehind : Behind e p.index o g q n last (start / e.BLOCK_SIZE) :=
    ⟨hq, fun hlt => hend ▸ endIndex_eq (hend ▸ hlt)⟩
  have hmarks := (h.stock_mark hl hb).marks b _ hb
  rw [Memory.completely_setCompletelyDequeued_self] at hmarks
  have hcount : m.elementsCompletelyDequeued b + (n - start) ≤ e.BLOCK_SIZE :=
    hmarks ▸ card_block_le
  have hother : ∀ c, c ≠ b →
      (m.setCompletelyDequeued b (m.elementsCompletelyDequeued b +
        (n - start))).elementsCompletelyDequeued c = m.elementsCompletelyDequeued c :=
    fun c hcb => Memory.completely_setCompletelyDequeued_of_ne hcb
  simp only [deqStep, if_pos hcount] at hstep
  cases hstep
  refine ⟨place, ?_, fun j' hj' => ?_, o, low, top, ?_⟩
  · have hempty : (if m.elementsCompletelyDequeued b + (n - start) = e.BLOCK_SIZE then
        DeqPC.clearValue n last g q b else advance p.index n last g q).hands = [] := by
      split
      · rfl
      · exact hands_advance
    rw [hempty, ← show hands i = [] from hi, update_eq_self]
    exact hc.write rfl rfl rfl rfl rfl rfl fun _ _ => rfl
  · exact .write (fun k hk => hj' (by rw [hb] at hk; injection hk with hj; exact hj.symm))
      (fun hk => by rw [hb] at hk; cases hk) hother (fun _ _ => rfl)
  · split
    next hfull =>
      have hall := mem_of_card_block (hmarks.symm.trans hfull)
      -- with nothing claimed, nothing is marked now
      have hlt : start < last := by
        refine lt_of_le_of_ne hr.le fun heq => halive.2 fun k hk => ?_
        refine (Finset.mem_union.mp (hall k hk)).resolve_right fun hmem => ?_
        rw [Finset.mem_Ico] at hmem
        omega
      exact h.mark hle hhands hl hb rfl rfl (fun c hcl => ⟨(Option.some.inj hcl).symm, hlt⟩)
        (fun _ => rfl) ⟨hlast, hserves, _, hbehind, hb, hr.covers start le_rfl hlt, hall⟩
    next hmore =>
      refine h.mark hle hhands hl hb owed_advance unmoved_advance
        (fun c hcl => by rw [clearing_advance] at hcl; cases hcl) (fun hall => absurd ?_ hmore)
        (ok_advance hlast hserves hbehind fun hlt => ?_)
      · exact hmarks.trans (card_block_of_mem hall)
      · exact (h.alive_of_owed hle (i := i) (by
          rw [hl]
          exact Finset.mem_Ico.mpr ⟨hstart, hlt⟩)).1

omit hhands hg

theorem clearValue_kept {n last g q b : ℕ} (hl : deqs i = .clearValue n last g q b)
    {r : Producer α × Memory α × DeqPC}
    (hstep : deqStep e (.clearValue n last g q b) p m = some r) :
    Kept e hands i j place m r.2.1 r.1 enq (update deqs i r.2.2) r.2.2.hands := by
  have hok := h.readers i
  rw [hl] at hi hok
  obtain ⟨-, -, k, hbehind, hb, hcov, hall⟩ := hok
  cases hstep
  have hvacant : ∀ s < e.BLOCK_SIZE, m.elements b s = none := by
    intro s hs
    rw [h.stock.elements b k hb s hs, if_pos]
    exact h.marked_subset_moved (hall _ (mul_add_div hs))
  refine ⟨update place b (.hand i), ?_, fun j' hj' => ?_, o, low, top,
    h.clear hle hl hbehind hb hcov hall⟩
  · exact hc.unshelve hb hvacant (List.nodup_singleton b) fun c => by
      rw [show hands i = [] from hi]
      exact ⟨fun hc => .inr (List.mem_singleton.mp hc),
        fun hc => List.mem_singleton.mpr (hc.resolve_left List.not_mem_nil)⟩
  · refine .move (fun l hbl => hj' ?_) (fun l heq => by cases heq) rfl rfl
    rw [hb] at hbl
    injection hbl with hj
    exact hj.symm

theorem addBlock_kept {n last g q b : ℕ} (hl : deqs i = .addBlock n last g q b)
    (hhands : ∀ c ∈ enq.hands, place c = .hand j) {r : Producer α × Memory α × DeqPC}
    (hstep : deqStep e (.addBlock n last g q b) p m = some r) :
    Kept e hands i j place m r.2.1 r.1 enq (update deqs i r.2.2) r.2.2.hands := by
  have hok := h.readers i
  rw [hl] at hi hok
  obtain ⟨hlast, hs, k, hbehind⟩ := hok
  cases hstep
  have hb : place b = .hand i := (hc.hand b i).mpr (by rw [hi]; exact List.mem_singleton_self b)
  have hsame : ∀ j', SameFor j' place (update place b (Custody.released e b)) m
      (m.addBlockToFreeList e b) := fun j' =>
    .move (fun l hbl => by rw [hb] at hbl; cases hbl) (Custody.released_ne_slot j')
      (m.completely_addBlockToFreeList b) (m.elements_addBlockToFreeList b)
  refine ⟨_, ?_, fun j' _ => hsame j', o, low, top, ?_⟩
  · rw [hands_advance]
    exact hc.giveBack hi
  · refine (h.frame hle (hsame j) hhands).reader_quiet rfl rfl ?_ ?_
      (clearing_advance.trans (by rw [hl]; rfl)) (ok_advance hlast hs hbehind fun hlt => ?_)
    · rw [owed_advance, hl]
      rfl
    · rw [unmoved_advance, hl]
      rfl
    · exact (h.alive_of_owed hle (i := i) (by
        rw [hl]
        exact Finset.mem_Ico.mpr ⟨le_rfl, hlt⟩)).1

/-- **A step of a consumer keeps the invariant.** -/
theorem deqStep_kept
    (hg : ∀ n ∈ (deqs i).unclaimed, Alive e p deqs (n / e.BLOCK_SIZE))
    (hhands : ∀ c ∈ enq.hands, place c = .hand j)
    {r : Producer α × Memory α × DeqPC} (hstep : deqStep e (deqs i) p m = some r) :
    Kept e hands i j place m r.2.1 r.1 enq (update deqs i r.2.2) r.2.2.hands := by
  cases hl : deqs i with
  | claiming pc => exact claiming_kept hc h hi hl (hl ▸ hstep)
  | loadIndex n last => exact loadIndex_kept hc h hi hle hg hl (hl ▸ hstep)
  | loadTail n last g => exact loadTail_kept hc h hi hle hg hl (hl ▸ hstep)
  | loadKey n last g t => exact loadKey_kept hc h hi hle hg hl (hl ▸ hstep)
  | assertEntry n last g q => exact assertEntry_kept hc h hi hle hg hl (hl ▸ hstep)
  | loadValue n last g q => exact loadValue_kept hc h hi hle hg hl (hl ▸ hstep)
  | moveOut start n last g q b => exact moveOut_kept hc h hi hle hl (hl ▸ hstep)
  | setManyEmpty start n last g q b => exact setManyEmpty_kept hc h hi hle hg hhands hl (hl ▸ hstep)
  | clearValue n last g q b => exact clearValue_kept hc h hi hle hl (hl ▸ hstep)
  | addBlock n last g q b => exact addBlock_kept hc h hi hle hl hhands (hl ▸ hstep)
  | finished =>
      rw [hl] at hstep
      cases hstep
  | fault =>
      rw [hl] at hstep
      cases hstep

end Steps

end ConcurrentQueue.ImplicitRace
