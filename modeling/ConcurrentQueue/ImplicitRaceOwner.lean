import ConcurrentQueue.ImplicitRaceReaders

/-!
# ConcurrentQueue.ImplicitRaceOwner

**Every step of a producer keeps the invariant**, also those that take back what a
failed call has done. The numbers from `blocksBelow tailIndex` on belong to the call:
no consumer has claimed an index in them, so blocks may come and go there. A call that
fails returns them in the order in which it took them, and each lookup on the way back
starts from a tail that still has the key of one of them.
-/

namespace ConcurrentQueue.ImplicitRace

open Function Interleaving Outstanding Circular

variable {ι α : Type} {e : Env}

/-! ### The limit -/

theorem BLOCK_SIZE_le_MAX_SUBQUEUE_SIZE (hmax : e.MAX_SUBQUEUE_SIZE ≠ e.sizeMax)
    (hzero : e.MAX_SUBQUEUE_SIZE ≠ 0#e.bits) : e.BLOCK_SIZE ≤ e.MAX_SUBQUEUE_SIZE.toNat := by
  have hdvd : e.BLOCK_SIZE ∣ e.MAX_SUBQUEUE_SIZE.toNat := by
    unfold Traits.MAX_SUBQUEUE_SIZE at hmax ⊢
    split
    next h =>
      rw [if_pos h] at hmax
      exact absurd rfl hmax
    next =>
      rw [BitVec.toNat_mul, BitVec.toNat_udiv, Traits.blockSize, BitVec.toNat_ofNat,
        Nat.mod_eq_of_lt e.BLOCK_SIZE_lt, Nat.mod_eq_of_lt]
      · exact Nat.dvd_mul_left ..
      · exact (Nat.div_mul_le_self ..).trans_lt (BitVec.isLt _)
  refine Nat.le_of_dvd (Nat.pos_of_ne_zero fun h => hzero ?_) hdvd
  exact BitVec.eq_of_toNat_eq (by rw [h]; rfl)

/-- A block that passes the test fits. -/
theorem fits_of_not_full {head K : ℕ} (hle : head ≤ K * e.BLOCK_SIZE)
    (hfull : full e head (K * e.BLOCK_SIZE) = false) : Fits e head (K + 1) := by
  intro hmax
  simp only [full, Bool.or_eq_false_iff, Bool.and_eq_false_iff, bne_eq_false_iff_eq, hmax,
    false_or, beq_eq_false_iff_ne, decide_eq_false_iff_not, not_lt] at hfull
  have hB := BLOCK_SIZE_le_MAX_SUBQUEUE_SIZE hmax hfull.2.1
  have hroom := hfull.2.2
  rw [Nat.succ_mul]
  omega

theorem Fits.le {head K K' : ℕ} (h : Fits e head K) (hle : K' ≤ K) : Fits e head K' :=
  fun hmax => (Nat.mul_le_mul_right _ hle).trans (h hmax)

/-! ### Where the loops of a call go -/

section Loops

variable {t : Task α} {k F : ℕ} {l : List ℕ}

@[simp] theorem inserted_giveBackAll : (giveBackAll l : EnqPC α).inserted F = F := by
  cases l <;> rfl

@[simp] theorem pushing_giveBackAll : (giveBackAll l : EnqPC α).pushing F = none := by
  cases l <;> rfl

@[simp] theorem acquired_giveBackAll : (giveBackAll l : EnqPC α).acquired F = ∅ := by
  cases l <;> rfl

@[simp] theorem done_giveBackAll : (giveBackAll l : EnqPC α).done = 0 := by
  cases l <;> rfl

@[simp] theorem hands_giveBackAll : (giveBackAll l : EnqPC α).hands = l := by
  cases l <;> rfl

theorem inserted_unwind : (unwind t k).inserted F = F + (t.chain.length - k) := by
  unfold unwind
  split
  next => rfl
  next h =>
    rw [inserted_giveBackAll]
    omega

@[simp] theorem pushing_unwind : (unwind t k).pushing F = none := by
  unfold unwind
  split
  · rfl
  · exact pushing_giveBackAll

theorem acquired_unwind : (unwind t k).acquired F = Finset.Ico (F + k) (F + t.chain.length) := by
  unfold unwind
  split
  next => rfl
  next h => rw [acquired_giveBackAll, Finset.Ico_eq_empty (by omega)]

@[simp] theorem done_unwind : (unwind t k).done = 0 := by
  unfold unwind
  split
  · rfl
  · exact done_giveBackAll

theorem hands_unwind : (unwind t k).hands = t.chain.take k := by
  unfold unwind
  split
  next => rfl
  next h => rw [hands_giveBackAll, List.take_of_length_le (by omega)]

@[simp] theorem inserted_fill : (fill t k).inserted F = F + t.chain.length := by
  unfold fill
  split <;> rfl

@[simp] theorem pushing_fill : (fill t k).pushing F = none := by
  unfold fill
  split <;> rfl

@[simp] theorem acquired_fill : (fill t k).acquired F = Finset.Ico F (F + t.chain.length) := by
  unfold fill
  split <;> rfl

@[simp] theorem hands_fill : (fill t k).hands = [] := by
  unfold fill
  split <;> rfl

theorem done_fill (hk : k ≤ t.items.length) : (fill t k).done = k := by
  unfold fill
  split
  next => rfl
  next h => exact le_antisymm (not_lt.mp h) hk

@[simp] theorem inserted_nextBlock : (nextBlock e t).inserted F = F + t.chain.length := by
  unfold nextBlock
  split
  · rfl
  · exact inserted_fill

@[simp] theorem pushing_nextBlock : (nextBlock e t).pushing F = none := by
  unfold nextBlock
  split
  · rfl
  · exact pushing_fill

@[simp] theorem acquired_nextBlock :
    (nextBlock e t).acquired F = Finset.Ico F (F + t.chain.length) := by
  unfold nextBlock
  split
  · rfl
  · exact acquired_fill

@[simp] theorem done_nextBlock : (nextBlock e t).done = 0 := by
  unfold nextBlock
  split
  · rfl
  · exact done_fill (Nat.zero_le _)

@[simp] theorem hands_nextBlock : (nextBlock e t).hands = [] := by
  unfold nextBlock
  split
  · rfl
  · exact hands_fill

variable {x : Index} {place : ℕ → Place ι} {j : ι} {o : ℕ → ℕ} {m : Memory α}
  {head tail low top : ℕ}

theorem ok_giveBackAll :
    (giveBackAll l : EnqPC α).Ok e x place j o m head tail low top := by
  cases l <;> trivial

theorem ok_unwind (h : t.Ok e place j tail k) :
    (unwind t k).Ok e x place j o m head tail low top := by
  unfold unwind
  split
  next hk => exact ⟨h, hk⟩
  next => exact ok_giveBackAll

theorem ok_fill (h : t.Ok e place j tail 0) (hlen : t.chain.length = t.needed e) :
    (fill t k).Ok e x place j o m head tail low top := by
  unfold fill
  split
  next hk => exact ⟨h, hlen, hk⟩
  next => exact ⟨h, hlen⟩

theorem ok_nextBlock (h : t.Ok e place j tail 0) :
    (nextBlock e t).Ok e x place j o m head tail low top := by
  unfold nextBlock
  split
  next hk => exact ⟨h, hk⟩
  next hk => exact ok_fill h (le_antisymm h.needed (not_lt.mp hk))

end Loops

/-! ### One producer -/

section Steps

variable [Fintype ι] {p : Producer α} {m : Memory α} {place : ℕ → Place ι} {hands : ι → List ℕ}
  {j : ι} {o : ℕ → ℕ} {low top : ℕ} {enq : EnqPC α} {deqs : ι → DeqPC}

namespace Sub

/-- What a consumer works on is published. -/
theorem published (h : Sub e p m place j o low top enq deqs)
    (hle : p.counters.headIndex ≤ p.counters.tailIndex) {i : ι} {b k : ℕ}
    (hb : place b = .slot j k)
    (hor : (deqs i).Needs e (marked deqs p.counters.headIndex) k ∨ (deqs i).clearing = some b) :
    k < blocksBelow e p.counters.tailIndex := by
  rcases hor with hneeds | hclear
  · exact (h.alive_of_needs hle hneeds).1
  · obtain ⟨l, hl, hall⟩ := (h.readers i).of_clearing hclear
    rw [hb] at hl
    injection hl with _ hkl
    have hmem := hall (k * e.BLOCK_SIZE) (by rw [hkl, Nat.mul_div_cancel _ e.BLOCK_SIZE_pos])
    exact lt_blocksBelow.mpr ((mem_settled.mp hmem).1.trans_le hle)

/-- A step of the owner concerns no consumer, as long as the published blocks stay. -/
theorem own (h : Sub e p m place j o low top enq deqs)
    (hle : p.counters.headIndex ≤ p.counters.tailIndex) {p' : Producer α} {m' : Memory α}
    {place' : ℕ → Place ι} {o' : ℕ → ℕ} {low' top' : ℕ} {enq' : EnqPC α}
    (hhead : p'.counters.headIndex = p.counters.headIndex)
    (htail : p.counters.tailIndex ≤ p'.counters.tailIndex)
    (hshelf : Shelf e p'.index place' j o' low' top' (blocksBelow e p'.counters.tailIndex)
      (enq'.inserted (blocksBelow e p'.counters.tailIndex))
      (enq'.pushing (blocksBelow e p'.counters.tailIndex))
      (enq'.acquired (blocksBelow e p'.counters.tailIndex)))
    (hstock : Stock e m' place' j p'.counters.tailIndex (marked deqs p.counters.headIndex)
      (moved deqs p.counters.headIndex) p'.tailBlock p'.constructed enq'.done)
    (hdelivery : Delivery (moved deqs p.counters.headIndex) p'.constructed p'.delivered)
    (hfits : Fits e p.counters.headIndex (enq'.inserted (blocksBelow e p'.counters.tailIndex)))
    (hok : enq'.Ok e p'.index place' j o' m' p.counters.headIndex p'.counters.tailIndex low'
      top')
    (hgrows : p.index.Grows p'.index o o')
    (hcov : ∀ b k, place b = .slot j k → ∀ g < p.index.headerCount, Covers p.index o g k →
      Covers p'.index o' g k)
    (hplace : ∀ b k, k < blocksBelow e p.counters.tailIndex → place b = .slot j k →
      place' b = .slot j k)
    (hback : ∀ b k, k < blocksBelow e p.counters.tailIndex → place' b = .slot j k →
      place b = .slot j k) :
    Sub e p' m' place' j o' low' top' enq' deqs where
  owed := by rw [hhead]; exact h.owed
  unmoved := by rw [hhead]; exact h.unmoved
  shelf := hshelf
  stock := by rw [hhead]; exact hstock
  delivery := by rw [hhead]; exact hdelivery
  fits := by rw [hhead]; exact hfits
  owner := by rw [hhead]; exact hok
  readers i := by
    rw [hhead]
    exact (h.readers i).mono hgrows hcov (fun _ hk => h.live (h.alive_of_needs hle hk))
      (fun b k hb hor => hplace b k (h.published hle hb hor) hb) (Finset.Subset.refl _)
      (blocksBelow_mono htail)
  clearing := h.clearing
  swept := by
    rw [hhead]
    intro b k hb hall
    have hmem := hall (k * e.BLOCK_SIZE) (Nat.mul_div_cancel _ e.BLOCK_SIZE_pos)
    have hk := lt_blocksBelow.mpr ((mem_settled.mp hmem).1.trans_le hle)
    exact h.swept b k (hback b k hk hb) hall

theorem tail_le (p : Producer α) (k : ℕ) : p.counters.tailIndex ≤
    (blocksBelow e p.counters.tailIndex + k) * e.BLOCK_SIZE := by
  rw [Nat.add_mul]
  exact (blocksBelow_le.mp le_rfl).trans (Nat.le_add_right _ _)

end Sub

namespace Task.Ok

variable {t : Task α} {tail k : ℕ}

omit [Fintype ι] in
theorem base_eq (h : t.Ok e place j tail k) (n : ℕ) :
    t.base e n = (blocksBelow e tail + n) * e.BLOCK_SIZE := by
  rw [Task.base, h.start]

omit [Fintype ι] in
/-- The blocks of the chain are where their numbers say. -/
theorem exists_block (h : t.Ok e place j tail k) {l : ℕ} (hl : blocksBelow e tail + k ≤ l)
    (hl' : l < blocksBelow e tail + t.chain.length) :
    ∃ b, t.chain[l - blocksBelow e tail]? = some b ∧ place b = .slot j l := by
  have hlt : l - blocksBelow e tail < t.chain.length := by omega
  refine ⟨t.chain[l - blocksBelow e tail], List.getElem?_eq_getElem hlt, ?_⟩
  have hplace := h.chain _ (by omega) _ (List.getElem?_eq_getElem hlt)
  rwa [Nat.add_sub_cancel' (by omega)] at hplace

omit [Fintype ι] in
/-- A call that has all its blocks can place all its elements. -/
theorem blocks_eq (h : t.Ok e place j tail k) (hlen : t.chain.length = t.needed e) :
    blocksBelow e tail + t.chain.length = blocksBelow e (tail + t.items.length) := by
  have hmono := blocksBelow_mono (e := e) (Nat.le_add_right tail t.items.length)
  rw [hlen, Task.needed, h.start]
  omega

end Task.Ok

/-- The block for the next element is in place. -/
theorem Sub.exists_blockOf {t : Task α} {k : ℕ}
    (h : Sub e p m place j o low top (.construct t k) deqs) :
    ∃ b, t.blockOf e p.tailBlock (p.counters.tailIndex + k) = some b ∧
      place b = .slot j ((p.counters.tailIndex + k) / e.BLOCK_SIZE) := by
  obtain ⟨hok, hlen, hk⟩ := h.owner
  rw [Task.blockOf, hok.start]
  split
  next hlt =>
    obtain ⟨hmod, hdiv⟩ := div_eq_of_lt_blocksBelow (Nat.le_add_right _ _) hlt
    rw [hdiv]
    exact h.stock.tailBlock hmod
  next hge =>
    refine hok.exists_block (by omega) ?_
    rw [hok.blocks_eq hlen]
    exact div_lt_blocksBelow (by omega)

/-- The last block of a call is the one in which the next call goes on. -/
theorem Sub.exists_tailBlock {t : Task α} (h : Sub e p m place j o low top (.publish t) deqs)
    (hmod : (p.counters.tailIndex + t.items.length) % e.BLOCK_SIZE ≠ 0) :
    ∃ b, t.chain.getLast?.or p.tailBlock = some b ∧
      place b = .slot j ((p.counters.tailIndex + t.items.length) / e.BLOCK_SIZE) := by
  obtain ⟨hok, hlen⟩ := h.owner
  have hblocks := hok.blocks_eq hlen
  have hsum := div_mul_add_mod (e := e) (p.counters.tailIndex + t.items.length)
  have hmodlt := mod_lt (e := e) (p.counters.tailIndex + t.items.length)
  have hlt : (p.counters.tailIndex + t.items.length) / e.BLOCK_SIZE <
      blocksBelow e (p.counters.tailIndex + t.items.length) := lt_blocksBelow.mpr (by omega)
  have hge : blocksBelow e (p.counters.tailIndex + t.items.length) ≤
      (p.counters.tailIndex + t.items.length) / e.BLOCK_SIZE + 1 :=
    blocksBelow_le.mpr (by rw [Nat.succ_mul]; omega)
  rcases Nat.eq_zero_or_pos t.chain.length with hnil | hpos
  · rw [List.length_eq_zero_iff.mp hnil]
    rw [hnil, Nat.add_zero] at hblocks
    obtain ⟨hmod', hdiv⟩ := div_eq_of_lt_blocksBelow (Nat.le_add_right _ _) (hblocks ▸ hlt)
    rw [hdiv]
    exact h.stock.tailBlock hmod'
  · obtain ⟨b, hget, hb⟩ := hok.exists_block
      (l := (p.counters.tailIndex + t.items.length) / e.BLOCK_SIZE) (by omega) (by omega)
    have hlast : (p.counters.tailIndex + t.items.length) / e.BLOCK_SIZE -
        blocksBelow e p.counters.tailIndex = t.chain.length - 1 := by omega
    rw [hlast] at hget
    refine ⟨b, ?_, hb⟩
    rw [List.getLast?_eq_getElem?, hget]
    rfl

/-! ### Steps that look -/

variable [DecidableEq ι]

/-- A step of a producer that changes only what it knows. -/
theorem quiet_kept (hc : Custody e m place hands) (h : Sub e p m place j o low top enq deqs)
    (hi : hands j = enq.hands) {enq' : EnqPC α}
    (hins : enq'.inserted (blocksBelow e p.counters.tailIndex) =
      enq.inserted (blocksBelow e p.counters.tailIndex))
    (hpush : enq'.pushing (blocksBelow e p.counters.tailIndex) =
      enq.pushing (blocksBelow e p.counters.tailIndex))
    (hacq : enq'.acquired (blocksBelow e p.counters.tailIndex) =
      enq.acquired (blocksBelow e p.counters.tailIndex))
    (hdone : enq'.done = enq.done) (hhands : enq'.hands = enq.hands)
    (hok : enq'.Ok e p.index place j o m p.counters.headIndex p.counters.tailIndex low top) :
    Kept e hands j j place m m p enq' deqs enq'.hands :=
  .quiet hc (hhands.trans hi.symm) (h.owner_quiet hins hpush hacq hdone hok)

/-- A call that gets no block starts to take back what it has done. -/
theorem unwind_kept (hc : Custody e m place hands) (h : Sub e p m place j o low top enq deqs)
    (hi : hands j = enq.hands) {t : Task α}
    (hins : enq.inserted (blocksBelow e p.counters.tailIndex) =
      blocksBelow e p.counters.tailIndex + t.chain.length)
    (hpush : enq.pushing (blocksBelow e p.counters.tailIndex) = none)
    (hacq : enq.acquired (blocksBelow e p.counters.tailIndex) =
      Finset.Ico (blocksBelow e p.counters.tailIndex)
        (blocksBelow e p.counters.tailIndex + t.chain.length))
    (hdone : enq.done = 0) (hhands : enq.hands = [])
    (hok : t.Ok e place j p.counters.tailIndex 0) :
    Kept e hands j j place m m p (unwind t 0) deqs (unwind t 0).hands := by
  refine quiet_kept hc h hi ?_ (pushing_unwind.trans hpush.symm) ?_ (done_unwind.trans hdone.symm)
    ?_ (ok_unwind hok)
  · rw [inserted_unwind, hins, Nat.sub_zero]
  · rw [acquired_unwind, hacq, Nat.add_zero]
  · rw [hands_unwind, hhands, List.take_zero]

variable {t : Task α} {r : Producer α × Memory α × EnqPC α}

theorem loadHead_kept (hc : Custody e m place hands)
    (h : Sub e p m place j o low top (.loadHead t) deqs) (hi : hands j = [])
    (hle : p.counters.headIndex ≤ p.counters.tailIndex)
    (hstep : enqStep e .run (.loadHead t) p m = some r) :
    Kept e hands j j place m r.2.1 r.1 r.2.2 deqs r.2.2.hands := by
  obtain ⟨hok, hmore⟩ := h.owner
  have hcur := hle.trans (Sub.tail_le (e := e) p t.chain.length)
  simp only [enqStep, hok.base_eq, if_neg hcur.not_gt] at hstep
  cases hfull : full e p.counters.headIndex
      ((blocksBelow e p.counters.tailIndex + t.chain.length) * e.BLOCK_SIZE) with
  | true =>
      simp only [hfull, if_true] at hstep
      cases hstep
      exact unwind_kept hc h hi rfl rfl rfl rfl rfl hok
  | false =>
      simp only [hfull, Bool.false_eq_true, if_false] at hstep
      cases hstep
      exact quiet_kept hc h hi rfl rfl rfl rfl rfl ⟨hok, hmore, fits_of_not_full hcur hfull⟩

theorem probe_kept (hc : Custody e m place hands)
    (h : Sub e p m place j o low top (.probe t) deqs) (hi : hands j = [])
    (hstep : enqStep e .run (.probe t) p m = some r) :
    Kept e hands j j place m r.2.1 r.1 r.2.2 deqs r.2.2.hands := by
  have hok : t.Acquiring e place j p.counters.headIndex p.counters.tailIndex := h.owner
  cases hh : p.index.blockIndex with
  | none =>
      simp only [enqStep, hh] at hstep
      cases hstep
      exact unwind_kept hc h hi rfl rfl rfl rfl rfl hok.toOk
  | some c =>
      have hentry : EntryOf p.index o (blocksBelow e p.counters.tailIndex + t.chain.length)
          (p.index.nextEntry c) := by
        refine ⟨c, hh, ?_⟩
        rw [Index.nextEntry, (h.shelf.index c hh).tail]
        rfl
      rcases h.shelf.probe hh (Nat.le_add_right _ _) (fun k hk => (Finset.mem_Ico.mp hk).2) with
        hvacant | ⟨hvacant, hcrowded⟩
      · simp only [enqStep, hh, hvacant] at hstep
        cases hstep
        exact quiet_kept hc h hi rfl rfl rfl rfl rfl ⟨hok, hentry, hvacant⟩
      · cases hmode : t.mode with
        | cannotAlloc =>
            simp only [enqStep, hh, hvacant, hmode] at hstep
            cases hstep
            exact unwind_kept hc h hi rfl rfl rfl rfl rfl hok.toOk
        | canAlloc =>
            simp only [enqStep, hh, hvacant, hmode] at hstep
            cases hstep
            exact quiet_kept hc h hi rfl rfl rfl rfl rfl ⟨hok, hcrowded⟩

theorem loadPool_kept {n : ℕ} (hc : Custody e m place hands)
    (h : Sub e p m place j o low top (.loadPool t n) deqs) (hi : hands j = [])
    (hstep : enqStep e .run (.loadPool t n) p m = some r) :
    Kept e hands j j place m r.2.1 r.1 r.2.2 deqs r.2.2.hands := by
  simp only [enqStep] at hstep
  split at hstep
  · cases hstep
    exact quiet_kept hc h hi rfl rfl rfl rfl rfl h.owner
  · cases hstep
    exact quiet_kept hc h hi rfl rfl rfl rfl rfl h.owner

/-! ### Steps that write to the index -/

theorem newIndex_kept {ok : Bool} (hc : Custody e m place hands)
    (h : Sub e p m place j o low top (.newIndex t) deqs) (hi : hands j = [])
    (hle : p.counters.headIndex ≤ p.counters.tailIndex)
    (hstep : enqStep e (.malloc ok) (.newIndex t) p m = some r) :
    Kept e hands j j place m r.2.1 r.1 r.2.2 deqs r.2.2.hands := by
  obtain ⟨hok, c, hh, hK, hfull⟩ := h.owner
  cases ok with
  | false =>
      cases hstep
      exact unwind_kept hc h hi rfl rfl rfl rfl rfl hok.toOk
  | true =>
      have hx := h.shelf.index c hh
      have hlarger := hx.larger hfull hK
      have hnew : p.index.newBlockIndex = p.index.largerBlockIndex c := by
        simp only [Index.newBlockIndex, hh]
      have hkey : ((p.index.largerBlockIndex c).entries
          ((p.index.largerBlockIndex c).nextEntry p.index.headerCount)).key = none :=
        hx.key_nextEntry_larger hfull hK
      simp only [enqStep, hnew, hkey, if_true] at hstep
      cases hstep
      refine .quiet hc hi.symm (h.own hle rfl le_rfl (h.shelf.larger hh hfull hK) h.stock h.delivery
        h.fits ⟨hok, ⟨_, rfl, ?_⟩, ?_⟩ hx.grows_larger (fun b k hb g hg hcov => ?_)
        (fun _ _ _ hb => hb) (fun _ _ _ hb => hb))
      · rw [Index.nextEntry, hlarger.tail]
        rfl
      · rw [BlockIndexEntry.vacant, hkey]
      · obtain ⟨-, hlow, htop, -⟩ := h.shelf.slot b k hb
        exact .larger hx hh hfull hK hg hlow htop hcov

theorem storeKey_kept {n : ℕ} (hc : Custody e m place hands)
    (h : Sub e p m place j o low top (.storeKey t n) deqs) (hi : hands j = [])
    (hle : p.counters.headIndex ≤ p.counters.tailIndex)
    (hstep : enqStep e .run (.storeKey t n) p m = some r) :
    Kept e hands j j place m r.2.1 r.1 r.2.2 deqs r.2.2.hands := by
  obtain ⟨hok, ⟨c, hh, hn⟩, hvacant⟩ := h.owner
  obtain ⟨low', top', hshelf, htop⟩ := h.shelf.storeKey hh (Nat.le_add_right _ _)
    (fun k hk hk' => (hok.toOk.exists_block hk hk').imp fun _ hb => hb.2)
    (fun k hk => (Finset.mem_Ico.mp hk).2) hn hvacant
  simp only [enqStep, hok.toOk.base_eq] at hstep
  cases hstep
  exact .quiet hc hi.symm (h.own hle rfl le_rfl hshelf h.stock h.delivery h.fits
    ⟨hok, ⟨c, hh, hn⟩, htop⟩ (.setKey _ _ _ _) (fun _ _ _ _ _ hcov => hcov.of_same rfl
      fun _ _ => rfl) (fun _ _ _ hb => hb) (fun _ _ _ hb => hb))

/-- The tail of the index moves. -/
theorem setTail_kept {enq' : EnqPC α} {c s : ℕ} (hc : Custody e m place hands)
    (h : Sub e p m place j o low top enq deqs) (hi : hands j = enq'.hands)
    (hle : p.counters.headIndex ≤ p.counters.tailIndex) (hh : p.index.blockIndex = some c)
    (hx : Indexed e (p.index.setTail c s) o low top
      (enq'.inserted (blocksBelow e p.counters.tailIndex)) c)
    (hpush : enq'.pushing (blocksBelow e p.counters.tailIndex) =
      enq.pushing (blocksBelow e p.counters.tailIndex))
    (hacq : enq'.acquired (blocksBelow e p.counters.tailIndex) =
      enq.acquired (blocksBelow e p.counters.tailIndex))
    (hdone : enq'.done = enq.done)
    (hfits : Fits e p.counters.headIndex (enq'.inserted (blocksBelow e p.counters.tailIndex)))
    (hok : enq'.Ok e (p.index.setTail c s) place j o m p.counters.headIndex p.counters.tailIndex
      low top) :
    Kept e hands j j place m m { p with index := p.index.setTail c s } enq' deqs enq'.hands := by
  refine .quiet hc hi.symm (h.own hle rfl le_rfl ?_ ?_ h.delivery hfits hok (.setTail _ _ _ _)
    (fun _ _ _ _ _ hcov => hcov.of_same rfl fun _ _ => Index.cell_setTail)
    (fun _ _ _ hb => hb) (fun _ _ _ hb => hb))
  · have hshelf := h.shelf.setTail hh hx
    rwa [← hpush, ← hacq] at hshelf
  · rw [hdone]
    exact h.stock

theorem storeTail_kept {n : ℕ} (hc : Custody e m place hands)
    (h : Sub e p m place j o low top (.storeTail t n) deqs) (hi : hands j = [])
    (hle : p.counters.headIndex ≤ p.counters.tailIndex)
    (hstep : enqStep e .run (.storeTail t n) p m = some r) :
    Kept e hands j j place m r.2.1 r.1 r.2.2 deqs r.2.2.hands := by
  have hok : t.Pushing e p.index place j o p.counters.headIndex p.counters.tailIndex top n :=
    h.owner
  obtain ⟨c, hh, -⟩ := hok.entry
  simp only [enqStep, hh] at hstep
  cases hstep
  exact setTail_kept hc h hi hle hh ((h.shelf.index c hh).storeTail hok.lt_top) rfl rfl rfl hok.fits
    (hok.mono rfl (fun _ _ => Index.cell_setTail) (fun _ _ _ hb => hb) le_rfl)

theorem rewind_kept {n : ℕ} (hc : Custody e m place hands)
    (h : Sub e p m place j o low top (.rewind t n) deqs) (hi : hands j = [])
    (hle : p.counters.headIndex ≤ p.counters.tailIndex)
    (hstep : enqStep e .run (.rewind t n) p m = some r) :
    Kept e hands j j place m r.2.1 r.1 r.2.2 deqs r.2.2.hands := by
  have hok : t.Pushing e p.index place j o p.counters.headIndex p.counters.tailIndex top n :=
    h.owner
  obtain ⟨c, hh, -⟩ := hok.entry
  simp only [enqStep, hh] at hstep
  cases hstep
  exact setTail_kept hc h hi hle hh (h.shelf.index c hh).rewind rfl rfl rfl
    (h.fits.le (Nat.le_succ _))
    (hok.mono rfl (fun _ _ => Index.cell_setTail) (fun _ _ _ hb => hb) le_rfl)

theorem undoTail_kept {k : ℕ} (hc : Custody e m place hands)
    (h : Sub e p m place j o low top (.undoTail t k) deqs) (hi : hands j = t.chain.take (k + 1))
    (hle : p.counters.headIndex ≤ p.counters.tailIndex)
    (hstep : enqStep e .run (.undoTail t k) p m = some r) :
    Kept e hands j j place m r.2.1 r.1 r.2.2 deqs r.2.2.hands := by
  obtain ⟨hok, hk, hblock⟩ := h.owner
  obtain ⟨c, hh⟩ := Option.ne_none_iff_exists'.mp hblock
  have hx := h.shelf.index c hh
  have hins : (EnqPC.undoTail t k).inserted (blocksBelow e p.counters.tailIndex) =
      (unwind t (k + 1)).inserted (blocksBelow e p.counters.tailIndex) + 1 := by
    rw [inserted_unwind]
    show _ + (t.chain.length - k) = _
    omega
  rw [hins] at hx
  simp only [enqStep, hh] at hstep
  cases hstep
  refine setTail_kept hc h (hi.trans hands_unwind.symm) hle hh hx.rewind pushing_unwind ?_
    done_unwind (h.fits.le (by rw [hins]; exact Nat.le_succ _)) (ok_unwind hok)
  rw [acquired_unwind]
  rfl

/-! ### Steps that acquire a block -/

/-- A block is acquired. -/
theorem acquire_kept {n b : ℕ} {m' : Memory α} (h : Sub e p m place j o low top enq deqs)
    (hi : enq.hands = []) (hle : p.counters.headIndex ≤ p.counters.tailIndex)
    (hcust : Custody e m' (update place b (.hand j)) (update hands j [b]))
    (hb : (place b).inUse = false)
    (hcomp : m'.elementsCompletelyDequeued = m.elementsCompletelyDequeued)
    (helem : m'.elements = m.elements)
    (hins : (EnqPC.resetEmpty t n b).inserted (blocksBelow e p.counters.tailIndex) =
      enq.inserted (blocksBelow e p.counters.tailIndex))
    (hpush : (EnqPC.resetEmpty t n b).pushing (blocksBelow e p.counters.tailIndex) =
      enq.pushing (blocksBelow e p.counters.tailIndex))
    (hacq : (EnqPC.resetEmpty t n b).acquired (blocksBelow e p.counters.tailIndex) =
      enq.acquired (blocksBelow e p.counters.tailIndex))
    (hdone : enq.done = 0)
    (hok : t.Pushing e p.index place j o p.counters.headIndex p.counters.tailIndex top n) :
    Kept e hands j j place m m' p (.resetEmpty t n b) deqs [b] := by
  have hsame : ∀ j', SameFor j' place (update place b (.hand j)) m m' := by
    refine fun j' => .move (fun k hk => ?_) (fun k hk => by cases hk) hcomp helem
    rw [hk] at hb
    cases hb
  have hframe := h.frame hle (hsame j) (by simp [hi])
  exact ⟨_, hcust, fun j' _ => hsame j', o, low, top, hframe.owner_quiet hins hpush hacq hdone.symm
    (hok.mono rfl (fun _ _ => rfl) (fun c l _ hc => ((hsame j).slot c l).mpr hc) le_rfl)⟩

theorem addPool_kept {n : ℕ} (hc : Custody e m place hands)
    (h : Sub e p m place j o low top (.addPool t n) deqs) (hi : hands j = [])
    (hle : p.counters.headIndex ≤ p.counters.tailIndex)
    (hstep : enqStep e .run (.addPool t n) p m = some r) :
    Kept e hands j j place m r.2.1 r.1 r.2.2 deqs r.2.2.hands := by
  simp only [enqStep] at hstep
  split at hstep
  next hlt =>
    cases hstep
    have hb : place m.initialBlockPoolIndex = .pool := (hc.pool _).mpr ⟨le_rfl, hlt⟩
    refine acquire_kept h rfl hle (hc.acquire hi (by rw [hb]; rfl) (by rw [hb]; simp)
      (fun c => ?_) (fun c => ?_) (fun c => ?_) rfl hc.nodup_free rfl rfl rfl) (by rw [hb]; rfl) rfl
      rfl rfl rfl rfl rfl h.owner
    · show m.initialBlockPoolIndex + 1 ≤ c ∧ _ ↔ _
      omega
    · exact (and_iff_left_of_imp fun hmem => hc.ne_of_free (by simp [hb]) hmem).symm
    · show e.initialBlockPoolSize + m.created ≤ c ↔ _
      omega
  next hge =>
    cases hstep
    have hsame : ∀ j', SameFor j' place place m
        { m with initialBlockPoolIndex := m.initialBlockPoolIndex + 1 } :=
      fun j' => ⟨fun _ _ => Iff.rfl, fun _ _ _ => ⟨rfl, rfl⟩, fun _ _ => rfl⟩
    refine ⟨place, ?_, fun j' _ => hsame j', o, low, top,
      (h.frame hle (hsame j) (fun _ hb => by cases hb)).owner_quiet rfl rfl rfl rfl h.owner⟩
    rw [show (EnqPC.getFree t n).hands = hands j from hi.symm, update_eq_self]
    exact hc.pass (not_lt.mp hge)

theorem getFree_kept {n : ℕ} {block : Option ℕ} (hc : Custody e m place hands)
    (h : Sub e p m place j o low top (.getFree t n) deqs) (hi : hands j = [])
    (hle : p.counters.headIndex ≤ p.counters.tailIndex)
    (hstep : enqStep e (.take block) (.getFree t n) p m = some r) :
    Kept e hands j j place m r.2.1 r.1 r.2.2 deqs r.2.2.hands := by
  cases block with
  | some b =>
      simp only [enqStep] at hstep
      split at hstep
      next hmem =>
        cases hstep
        have hb : place b = .free := (hc.free b).mpr hmem
        refine acquire_kept h rfl hle (hc.acquire hi (by rw [hb]; rfl) (by rw [hb]; simp)
          (fun c => ?_) (fun c => ?_) (fun c => ?_) rfl (hc.nodup_free.erase b) rfl rfl rfl)
          (by rw [hb]; rfl) rfl rfl rfl rfl rfl rfl h.owner
        · exact (and_iff_left_of_imp fun hpool => hc.ne_of_pool (by simp [hb]) hpool).symm
        · exact hc.nodup_free.mem_erase_iff.trans and_comm
        · exact (and_iff_left_of_imp fun hunborn => hc.ne_of_unborn (by simp [hb]) hunborn).symm
      next => cases hstep
  | none =>
      cases hmode : t.mode with
      | canAlloc =>
          simp only [enqStep, hmode] at hstep
          cases hstep
          exact quiet_kept hc h hi rfl rfl rfl rfl rfl h.owner
      | cannotAlloc =>
          simp only [enqStep, hmode] at hstep
          cases hstep
          exact quiet_kept hc h hi rfl rfl rfl rfl rfl h.owner

theorem create_kept {n : ℕ} {ok : Bool} (hc : Custody e m place hands)
    (h : Sub e p m place j o low top (.create t n) deqs) (hi : hands j = [])
    (hle : p.counters.headIndex ≤ p.counters.tailIndex)
    (hstep : enqStep e (.malloc ok) (.create t n) p m = some r) :
    Kept e hands j j place m r.2.1 r.1 r.2.2 deqs r.2.2.hands := by
  cases ok with
  | false =>
      cases hstep
      exact quiet_kept hc h hi rfl rfl rfl rfl rfl h.owner
  | true =>
      cases hstep
      have hb : place (e.initialBlockPoolSize + m.created) = .unborn := (hc.unborn _).mpr le_rfl
      refine acquire_kept h rfl hle (hc.acquire hi (by rw [hb]; rfl) (by rw [hb]; simp)
        (fun c => ?_) (fun c => ?_) (fun c => ?_) rfl hc.nodup_free rfl rfl rfl) (by rw [hb]; rfl)
        rfl rfl rfl rfl rfl rfl h.owner
      · exact (and_iff_left_of_imp fun hpool => hc.ne_of_pool (by simp [hb]) hpool).symm
      · exact (and_iff_left_of_imp fun hmem => hc.ne_of_free (by simp [hb]) hmem).symm
      · show e.initialBlockPoolSize + (m.created + 1) ≤ c ↔ _
        omega

theorem resetEmpty_kept {n b : ℕ} (hc : Custody e m place hands)
    (h : Sub e p m place j o low top (.resetEmpty t n b) deqs) (hi : hands j = [b])
    (hle : p.counters.headIndex ≤ p.counters.tailIndex)
    (hstep : enqStep e .run (.resetEmpty t n b) p m = some r) :
    Kept e hands j j place m r.2.1 r.1 r.2.2 deqs r.2.2.hands := by
  have hb : place b = .hand j := (hc.hand b j).mpr (by rw [hi]; exact List.mem_singleton_self b)
  have hother : ∀ c, c ≠ b →
      (m.setCompletelyDequeued b 0).elementsCompletelyDequeued c = m.elementsCompletelyDequeued c :=
    fun c hcb => Memory.completely_setCompletelyDequeued_of_ne hcb
  have hslot : ∀ j' k, place b ≠ .slot j' k := fun j' k hk => by rw [hb] at hk; cases hk
  cases hstep
  refine ⟨place, ?_, fun j' hj' => ?_, o, low, top, ?_⟩
  · rw [show (EnqPC.storeValue t n b).hands = hands j from hi.symm, update_eq_self]
    exact hc.write rfl rfl rfl rfl rfl rfl fun _ _ => rfl
  · refine .write (hslot j') (fun hk => hj' ?_) hother fun _ _ => rfl
    rw [hb] at hk
    injection hk with hj
    exact hj.symm
  · refine h.own hle rfl le_rfl h.shelf (h.stock.congr (fun _ _ => Iff.rfl) fun c k hk => ?_)
      h.delivery h.fits ⟨h.owner, Memory.completely_setCompletelyDequeued_self⟩ (.refl _ _)
      (fun _ _ _ _ _ hcov => hcov) (fun _ _ _ hb => hb) (fun _ _ _ hb => hb)
    refine ⟨hother c ?_, rfl⟩
    rintro rfl
    exact hslot j k hk

/-! ### Blocks on and off the index -/

theorem storeValue_kept {n b : ℕ} (hc : Custody e m place hands)
    (h : Sub e p m place j o low top (.storeValue t n b) deqs) (hi : hands j = [b])
    (hle : p.counters.headIndex ≤ p.counters.tailIndex)
    (hstep : enqStep e .run (.storeValue t n b) p m = some r) :
    Kept e hands j j place m r.2.1 r.1 r.2.2 deqs r.2.2.hands := by
  obtain ⟨hok, hzero⟩ := h.owner
  obtain ⟨c, hh, hn⟩ := hok.entry
  have hb : place b = .hand j := (hc.hand b j).mpr (by rw [hi]; exact List.mem_singleton_self b)
  have hslot : ∀ j' k, place b ≠ .slot j' k := fun j' k hk => by rw [hb] at hk; cases hk
  have hbound := Sub.tail_le (e := e) p t.chain.length
  have hlow := h.shelf.low_le
  have hkeep : ∀ d k, place d = .slot j k → update place b
      (.slot j (blocksBelow e p.counters.tailIndex + t.chain.length)) d = .slot j k := by
    intro d k hd
    rw [update_of_ne, hd]
    rintro rfl
    exact hslot j k hd
  -- the number has no block yet
  have hfree : ∀ d, place d ≠ .slot j (blocksBelow e p.counters.tailIndex + t.chain.length) := by
    intro d hd
    obtain ⟨-, -, -, hlt | hmem⟩ := h.shelf.slot d _ hd
    · omega
    · exact (Finset.mem_Ico.mp hmem).2.false
  have hlen : (t.chain ++ [b]).length = t.chain.length + 1 := List.length_append
  have hnew : blocksBelow e p.counters.tailIndex + t.chain.length ∈
      Finset.Ico (blocksBelow e p.counters.tailIndex)
        (blocksBelow e p.counters.tailIndex + (t.chain.length + 1)) :=
    Finset.mem_Ico.mpr ⟨Nat.le_add_right _ _, Nat.lt_succ_self _⟩
  cases hstep
  refine ⟨_, ?_, fun j' hj' => ?_, o, low, top, h.own hle rfl le_rfl ?_ ?_ h.delivery ?_ ?_
    (.setValue _ _ _ _) (fun _ _ _ _ _ hcov => hcov.of_same rfl fun _ _ => rfl)
    (fun d k _ hd => hkeep d k hd) (fun d k hk hd => ?_)⟩
  · rw [hands_nextBlock]
    exact hc.shelve hi j _
  · exact .move (hslot j') (fun k hk => hj' (by injection hk with hj; exact hj.symm)) rfl rfl
  · rw [inserted_nextBlock, pushing_nextBlock, acquired_nextBlock, hn, hlen]
    refine h.shelf.setValue hh (by omega) hok.lt_top (fun d => ?_) (fun d l hl => ?_)
      (fun l hl hpush => absurd (Option.some.inj hpush).symm hl) (fun l hmem _ => ?_)
      (fun _ _ => .inr hnew)
    · rw [Option.some.injEq, Custody.moved_to_iff]
      exact ⟨fun heq => .inl heq.symm, fun hor => (hor.resolve_right (hfree d)).symm⟩
    · refine Custody.moved_iff (hslot j l) (fun heq => hl ?_) d
      injection heq with _ h
      exact h.symm
    · exact Finset.Ico_subset_Ico_right (Nat.le_succ _) hmem
  · have hcount := h.stock.count
    rw [done_nextBlock]
    refine h.stock.add (hslot j) hzero (hc.vacant b hslot) (fun n hmem => ?_) ?_
    · exact ((mem_settled.mp hmem).1.trans_le hle).trans_le hbound
    · exact (hcount.trans (Nat.add_zero _)).le.trans hbound
  · rw [inserted_nextBlock, hlen]
    exact hok.fits
  · refine ok_nextBlock ⟨hok.start, fun i _ d hd => ?_, ?_⟩
    · rcases Nat.lt_or_ge i t.chain.length with hlt | hge
      · rw [List.getElem?_append_left hlt] at hd
        exact hkeep d _ (hok.chain i (Nat.zero_le i) d hd)
      · have hi' : i < (t.chain ++ [b]).length := (List.getElem?_eq_some_iff.mp hd).1
        obtain rfl : i = t.chain.length := by omega
        rw [List.getElem?_concat_length] at hd
        cases hd
        exact update_self ..
    · exact hlen.trans_le hok.more
  · refine (Custody.moved_iff (hslot j k) (fun heq => ?_) d).mp hd
    injection heq with _ heq
    omega

theorem clearEntry_kept {n : ℕ} (hc : Custody e m place hands)
    (h : Sub e p m place j o low top (.clearEntry t n) deqs) (hi : hands j = [])
    (hle : p.counters.headIndex ≤ p.counters.tailIndex)
    (hstep : enqStep e .run (.clearEntry t n) p m = some r) :
    Kept e hands j j place m r.2.1 r.1 r.2.2 deqs r.2.2.hands := by
  have hok : t.Pushing e p.index place j o p.counters.headIndex p.counters.tailIndex top n :=
    h.owner
  obtain ⟨c, hh, hn⟩ := hok.entry
  have hlow := h.shelf.low_le
  have hfree : ∀ d, place d ≠ .slot j (blocksBelow e p.counters.tailIndex + t.chain.length) := by
    intro d hd
    obtain ⟨-, -, -, hlt | hmem⟩ := h.shelf.slot d _ hd
    · omega
    · exact (Finset.mem_Ico.mp hmem).2.false
  cases hstep
  suffices hsub : Sub e { p with index := p.index.setValue n none } m place j o low top
      (unwind t 0) deqs from .quiet hc (by rw [hands_unwind, List.take_zero, hi]) hsub
  refine h.own hle rfl le_rfl ?_ ?_ h.delivery ?_ (ok_unwind hok.toOk) (.setValue _ _ _ _)
    (fun _ _ _ _ _ hcov => hcov.of_same rfl fun _ _ => rfl) (fun _ _ _ hb => hb)
    (fun _ _ _ hb => hb)
  · rw [inserted_unwind, pushing_unwind, acquired_unwind, hn]
    refine h.shelf.setValue hh (by omega) hok.lt_top (fun d => ?_) (fun _ _ _ => Iff.rfl)
      (fun l hl hpush => absurd (Option.some.inj hpush).symm hl) (fun l hmem _ => hmem)
      (fun d hd => by cases hd)
    exact ⟨fun hd => (Option.some_ne_none d hd.symm).elim, fun hd => absurd hd (hfree d)⟩
  · rw [done_unwind]
    exact h.stock
  · rw [inserted_unwind]
    exact h.fits

theorem undoValue_kept {k : ℕ} (hc : Custody e m place hands)
    (h : Sub e p m place j o low top (.undoValue t k) deqs) (hi : hands j = t.chain.take k)
    (hle : p.counters.headIndex ≤ p.counters.tailIndex)
    (hstep : enqStep e .run (.undoValue t k) p m = some r) :
    Kept e hands j j place m r.2.1 r.1 r.2.2 deqs r.2.2.hands := by
  obtain ⟨hok, hk⟩ := h.owner
  obtain ⟨b, hget, hb⟩ := hok.exists_block le_rfl (by omega)
  rw [Nat.add_sub_cancel_left] at hget
  obtain ⟨hne, -, -, -⟩ := h.shelf.slot b _ hb
  obtain ⟨c, hh⟩ := Option.ne_none_iff_exists'.mp hne
  have hlow := h.shelf.low_le
  have hcount := h.stock.count
  have hbound := Sub.tail_le (e := e) p k
  have hlookup := h.shelf.lookup hh hb (show low < _ + (t.chain.length - k) by omega)
  -- nothing is constructed in the blocks of the call
  have hempty : p.constructed.length ≤
      (blocksBelow e p.counters.tailIndex + k) * e.BLOCK_SIZE :=
    (hcount.trans (Nat.add_zero _)).le.trans hbound
  have hvacant : ∀ s < e.BLOCK_SIZE, m.elements b s = none := by
    intro s hs
    rw [h.stock.elements b _ hb s hs, List.getElem?_eq_none (by omega)]
    simp
  have htake : t.chain.take (k + 1) = t.chain.take k ++ [b] := by
    rw [List.take_add_one, hget]
    rfl
  have hnot : b ∉ t.chain.take k := by
    intro hmem
    rw [← hi, ← hc.hand, hb] at hmem
    cases hmem
  simp only [enqStep, hh, hok.base_eq, hlookup] at hstep
  cases hstep
  refine ⟨update place b (.hand j), hc.unshelve hb hvacant ?_ fun d => ?_,
    fun j' hj' => ?_, o, low, top, h.own hle rfl le_rfl ?_ ?_ h.delivery h.fits ⟨⟨hok.start, ?_,
    hok.needed⟩, hk, hne⟩ (.setValue _ _ _ _)
    (fun _ _ _ _ _ hcov => hcov.of_same rfl fun _ _ => rfl) (fun d l hl hd => ?_)
    (fun d l hl hd => ?_)⟩
  · show (t.chain.take (k + 1)).Nodup
    rw [htake, List.nodup_append_comm]
    exact List.nodup_cons.mpr ⟨hnot, hi ▸ hc.nodup_hands j⟩
  · show d ∈ t.chain.take (k + 1) ↔ _
    rw [htake, hi, List.mem_append, List.mem_singleton]
  · refine .move (fun l hl => hj' ?_) (fun l hl => by cases hl) rfl rfl
    rw [hb] at hl
    injection hl with hj
    exact hj.symm
  · refine h.shelf.remove hh hb (fun l hl => by cases hl) fun l hmem hl => ?_
    have hmem := Finset.mem_Ico.mp hmem
    have hgt : blocksBelow e p.counters.tailIndex + k + 1 ≤ l := by omega
    exact Finset.mem_Ico.mpr ⟨hgt, hmem.2⟩
  · refine h.stock.drop hb (fun _ _ _ => ⟨hbound, hempty⟩) (fun hmem => ?_)
      (fun l hl => by cases hl)
    exact ((mem_settled.mp hmem).1.trans_le hle).false
  · intro i hki d hd
    have hplace := hok.chain i (by omega) d hd
    rw [update_of_ne, hplace]
    rintro rfl
    rw [hb] at hplace
    injection hplace with _ heq
    omega
  · rw [update_of_ne, hd]
    rintro rfl
    rw [hb] at hd
    injection hd with _ heq
    omega
  · rcases eq_or_ne d b with rfl | hdb
    · rw [update_self] at hd
      cases hd
    · rwa [update_of_ne hdb] at hd

theorem giveBack_kept {b : ℕ} {rest : List ℕ} (hc : Custody e m place hands)
    (h : Sub e p m place j o low top (.giveBack b rest) deqs) (hi : hands j = b :: rest)
    (hle : p.counters.headIndex ≤ p.counters.tailIndex)
    (hstep : enqStep e .run (.giveBack b rest) p m = some r) :
    Kept e hands j j place m r.2.1 r.1 r.2.2 deqs r.2.2.hands := by
  cases hstep
  have hhands : ∀ c ∈ b :: rest, place c = .hand j := fun c hmem => (hc.hand c j).mpr (hi ▸ hmem)
  have hsame : ∀ j', SameFor j' place (update place b (Custody.released e b)) m
      (m.addBlockToFreeList e b) := by
    refine fun j' => .move (fun l hl => ?_) (Custody.released_ne_slot j')
      (m.completely_addBlockToFreeList b) (m.elements_addBlockToFreeList b)
    rw [hhands b List.mem_cons_self] at hl
    cases hl
  refine ⟨_, ?_, fun j' _ => hsame j', o, low, top, ?_⟩
  · rw [hands_giveBackAll]
    exact hc.giveBack hi
  · exact (h.frame hle (hsame j) hhands).owner_quiet inserted_giveBackAll pushing_giveBackAll
      acquired_giveBackAll done_giveBackAll ok_giveBackAll

/-! ### The elements -/

theorem construct_kept {k : ℕ} (hc : Custody e m place hands)
    (h : Sub e p m place j o low top (.construct t k) deqs) (hi : hands j = [])
    (hle : p.counters.headIndex ≤ p.counters.tailIndex)
    (hstep : enqStep e .run (.construct t k) p m = some r) :
    Kept e hands j j place m r.2.1 r.1 r.2.2 deqs r.2.2.hands := by
  obtain ⟨b, hblock, hb⟩ := h.exists_blockOf
  obtain ⟨hok, hlen, hk⟩ := h.owner
  have hcount : p.constructed.length = p.counters.tailIndex + k := h.stock.count
  have hraw : m.elements b ((p.counters.tailIndex + k) % e.BLOCK_SIZE) = none := by
    rw [h.stock.elements b _ hb _ (mod_lt _), div_mul_add_mod, List.getElem?_eq_none hcount.le]
    simp
  have hitem : t.items[k]? = some t.items[k] := List.getElem?_eq_getElem hk
  have hother : ∀ c, c ≠ b →
      (m.setElement b ((p.counters.tailIndex + k) % e.BLOCK_SIZE) (some t.items[k])).elements c =
        m.elements c := fun c hcb => update_of_ne hcb ..
  simp only [enqStep, hok.start, hblock, hitem, hraw] at hstep
  cases hstep
  refine ⟨place, ?_, fun j' hj' => ?_, o, low, top, h.own hle rfl le_rfl ?_ ?_
    (h.delivery.construct _) ?_ (ok_fill hok hlen) (.refl _ _) (fun _ _ _ _ _ hcov => hcov)
    (fun _ _ _ hb => hb) (fun _ _ _ hb => hb)⟩
  · rw [hands_fill, ← hi, update_eq_self]
    exact hc.write rfl rfl rfl rfl rfl rfl fun c hcs => hother c fun hcb => hcs j _ (hcb ▸ hb)
  · refine .write (fun l hl => hj' ?_) (fun hl => by rw [hb] at hl; cases hl) (fun _ _ => rfl)
      hother
    rw [hb] at hl
    injection hl with hj
    exact hj.symm
  · rw [inserted_fill, pushing_fill, acquired_fill]
    exact h.shelf
  · rw [done_fill hk]
    exact h.stock.construct hb (fun c hcb => h.shelf.unique hcb hb)
      fun n hmem => (mem_settled.mp hmem).1.trans_le hle
  · rw [inserted_fill]
    exact h.fits

theorem publish_kept (hc : Custody e m place hands)
    (h : Sub e p m place j o low top (.publish t) deqs) (hi : hands j = [])
    (hle : p.counters.headIndex ≤ p.counters.tailIndex)
    (hstep : enqStep e .run (.publish t) p m = some r) :
    Kept e hands j j place m r.2.1 r.1 r.2.2 deqs r.2.2.hands := by
  obtain ⟨hok, hlen⟩ := h.owner
  have hblocks := hok.blocks_eq hlen
  have hfits : Fits e p.counters.headIndex
      (blocksBelow e p.counters.tailIndex + t.chain.length) := h.fits
  simp only [enqStep, hok.start] at hstep
  cases hstep
  refine ⟨place, ?_, fun j' _ => .refl j' place m, o, low, top,
    h.own hle rfl (Nat.le_add_right _ _) ?_ ?_ h.delivery ?_ trivial (.refl _ _)
    (fun _ _ _ _ _ hcov => hcov) (fun _ _ _ hb => hb) (fun _ _ _ hb => hb)⟩
  · rw [show (EnqPC.finished : EnqPC α).hands = hands j from hi.symm, update_eq_self]
    exact hc
  · have hshelf := h.shelf.publish (blocksBelow_mono (Nat.le_add_right _ t.items.length))
      fun k hk => hblocks ▸ (Finset.mem_Ico.mp hk).2
    have hins : (EnqPC.publish t).inserted (blocksBelow e p.counters.tailIndex) =
        blocksBelow e (p.counters.tailIndex + t.items.length) := hblocks
    rw [hins] at hshelf
    exact hshelf
  · refine h.stock.publish (fun k hk hk' => ?_) h.exists_tailBlock
    exact (hok.exists_block hk (hblocks.symm ▸ hk')).imp fun _ hb => hb.2
  · rw [hblocks] at hfits
    exact hfits

/-- **A step of a producer keeps the invariant.** -/
theorem enqStep_kept (hc : Custody e m place hands) (h : Sub e p m place j o low top enq deqs)
    (hi : hands j = enq.hands) (hle : p.counters.headIndex ≤ p.counters.tailIndex) {x : Input}
    (hstep : enqStep e x enq p m = some r) :
    Kept e hands j j place m r.2.1 r.1 r.2.2 deqs r.2.2.hands := by
  -- with any other input than the one its step asks for, a call does nothing
  cases enq with
  | loadHead t => cases x <;> first | exact loadHead_kept hc h hi hle hstep | cases hstep
  | probe t => cases x <;> first | exact probe_kept hc h hi hstep | cases hstep
  | newIndex t => cases x <;> first | exact newIndex_kept hc h hi hle hstep | cases hstep
  | storeKey t n => cases x <;> first | exact storeKey_kept hc h hi hle hstep | cases hstep
  | storeTail t n => cases x <;> first | exact storeTail_kept hc h hi hle hstep | cases hstep
  | loadPool t n => cases x <;> first | exact loadPool_kept hc h hi hstep | cases hstep
  | addPool t n => cases x <;> first | exact addPool_kept hc h hi hle hstep | cases hstep
  | getFree t n => cases x <;> first | exact getFree_kept hc h hi hle hstep | cases hstep
  | create t n => cases x <;> first | exact create_kept hc h hi hle hstep | cases hstep
  | resetEmpty t n b => cases x <;> first | exact resetEmpty_kept hc h hi hle hstep | cases hstep
  | storeValue t n b => cases x <;> first | exact storeValue_kept hc h hi hle hstep | cases hstep
  | rewind t n => cases x <;> first | exact rewind_kept hc h hi hle hstep | cases hstep
  | clearEntry t n => cases x <;> first | exact clearEntry_kept hc h hi hle hstep | cases hstep
  | undoValue t k => cases x <;> first | exact undoValue_kept hc h hi hle hstep | cases hstep
  | undoTail t k => cases x <;> first | exact undoTail_kept hc h hi hle hstep | cases hstep
  | giveBack b rest => cases x <;> first | exact giveBack_kept hc h hi hle hstep | cases hstep
  | construct t k => cases x <;> first | exact construct_kept hc h hi hle hstep | cases hstep
  | publish t => cases x <;> first | exact publish_kept hc h hi hle hstep | cases hstep
  | finished => cases x <;> cases hstep
  | fault => cases x <;> cases hstep

end Steps

end ConcurrentQueue.ImplicitRace
