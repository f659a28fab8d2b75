import ConcurrentQueue.ImplicitRaceStock

/-!
# ConcurrentQueue.ImplicitRaceFrame

**What a step leaves alone.** A thread's knowledge survives the steps of the others
as long as the headers it uses keep their entries and the blocks it needs keep their
place. A producer is not concerned by what happens to the blocks of another
(`Sub.frame`).

The places change in five ways: a block is acquired, put on an index, taken off it,
or given back, and its contents change while it is on an index (`Custody`).
-/

namespace ConcurrentQueue.ImplicitRace

open Function Interleaving Outstanding Circular

variable {ι α : Type} {e : Env}

/-! ### Consumers -/

section Readers

variable {x x' : Index} {o o' : ℕ → ℕ} {place place' : ℕ → Place ι} {j : ι} {S S' : Finset ℕ}
  {F F' : ℕ}

/-- With the same entries in the headers and the same header in use, a header covers what it
did. -/
theorem Covers.of_same {g k : ℕ} (h : Covers x o g k) (hb : x'.blockIndex = x.blockIndex)
    (hcell : ∀ g k, x'.cell o g k = x.cell o g k) : Covers x' o g k := by
  intro c hc
  rw [hcell, hcell]
  exact h c (hb ▸ hc)

/-- A larger index covers the numbers of the window. -/
theorem Covers.larger {low top K h g k : ℕ} (hx : Indexed e x o low top K h)
    (hh : x.blockIndex = some h) (hfull : top = low + (x.headers h).capacity) (hK : K = top)
    (hg : g < x.headerCount) (hk : low ≤ k) (hk' : k < top) (hc : Covers x o g k) :
    Covers (x.largerBlockIndex h) (grownOffset x o low h) g k := by
  intro c hc'
  cases hc'
  rw [hx.grows_larger.cell hg, hx.cell_larger hfull hK hk hk']
  exact hc h hh

theorem Serves.mono {g i last : ℕ} (h : Serves e x o g i last) (hx : x.Grows x' o o')
    (hcov : ∀ b k, place b = .slot j k → ∀ g < x.headerCount, Covers x o g k → Covers x' o' g k)
    (hlive : ∀ n, i ≤ n → n < last → ∃ b, place b = .slot j (n / e.BLOCK_SIZE)) :
    Serves e x' o' g i last where
  known := h.known.trans_le hx.count
  covers n hn hn' := by
    obtain ⟨b, hb⟩ := hlive n hn hn'
    exact hcov b _ hb g h.known (h.covers n hn hn')

theorem Behind.mono {g q i last k : ℕ} (h : Behind e x o g q i last k) (hx : x.Grows x' o o')
    (hg : g < x.headerCount) : Behind e x' o' g q i last k := by
  refine ⟨?_, h.2⟩
  rw [hx.capacity g hg, hx.offset g hg]
  exact h.1

theorem endIndex_le (start last : ℕ) : endIndex e start last ≤ last := by
  unfold endIndex
  split <;> omega

theorem Finished.mono {k : ℕ} (h : Finished e S k) (hS : S ⊆ S') : Finished e S' k :=
  fun n hn => hS (h n hn)

theorem DeqPC.Needs.of_subset {l : DeqPC} {k : ℕ} (h : l.Needs e S' k) (hS : S ⊆ S') :
    l.Needs e S k :=
  h.imp_right fun ⟨n, hn, hk, hfin⟩ => ⟨n, hn, hk, fun hf => hfin (hf.mono hS)⟩

/-- The header still leads to the block of the index as long as that is not finished. -/
theorem Reads.of_not_finished {g i last : ℕ} (h : Reads e x o S F g i last)
    (hfin : ¬ Finished e S (i / e.BLOCK_SIZE)) : Covers x o g (i / e.BLOCK_SIZE) := by
  rcases h.le.lt_or_eq with hlt | heq
  · exact h.covers i le_rfl hlt
  · exact (h.peek heq).resolve_left hfin

theorem Reads.mono {g i last : ℕ} (h : Reads e x o S F g i last) (hx : x.Grows x' o o')
    (hcov : ∀ b k, place b = .slot j k → ∀ g < x.headerCount, Covers x o g k → Covers x' o' g k)
    (hlive : ∀ k, (DeqPC.loadTail i last g).Needs e S' k → ∃ b, place b = .slot j k)
    (hS : S ⊆ S') (hF : F ≤ F') : Reads e x' o' S' F' g i last where
  toServes := h.toServes.mono hx hcov fun n hn hn' =>
    hlive _ (.inl ⟨n, Finset.mem_Ico.mpr ⟨hn, hn'⟩, rfl⟩)
  le := h.le
  published := h.published.trans_le hF
  peek heq := by
    by_cases hfin : Finished e S' (i / e.BLOCK_SIZE)
    · exact .inl hfin
    · obtain ⟨b, hb⟩ := hlive _ (.inr ⟨i, if_pos heq, rfl, hfin⟩)
      exact .inr (hcov b _ hb g h.known (h.of_not_finished fun hf => hfin (hf.mono hS)))

/-- What a consumer knows survives the steps of others. -/
theorem DeqPC.Ok.mono {l : DeqPC} (h : l.Ok e x place j o S F) (hx : x.Grows x' o o')
    (hcov : ∀ b k, place b = .slot j k → ∀ g < x.headerCount, Covers x o g k → Covers x' o' g k)
    (hlive : ∀ k, l.Needs e S' k → ∃ b, place b = .slot j k)
    (hplace : ∀ b k, place b = .slot j k → l.Needs e S' k ∨ l.clearing = some b →
      place' b = .slot j k)
    (hS : S ⊆ S') (hF : F ≤ F') : l.Ok e x' place' j o' S' F' := by
  cases l with
  | claiming pc => exact h
  | loadIndex i last => exact h
  | loadTail i last g => exact Reads.mono h hx hcov hlive hS hF
  | loadKey i last g t =>
      obtain ⟨hr, ht, hkey⟩ := h
      refine ⟨hr.mono hx hcov hlive hS hF, ?_, ?_⟩
      · rwa [hx.capacity g hr.known]
      · rw [hx.index g hr.known]
        exact hx.key g hr.known t ht hkey
  | assertEntry i last g q =>
      refine ⟨h.1.mono hx hcov hlive hS hF, ?_⟩
      rw [hx.capacity g h.1.known, hx.offset g h.1.known]
      exact h.2
  | loadValue i last g q =>
      refine ⟨h.1.mono hx hcov hlive hS hF, ?_⟩
      rw [hx.capacity g h.1.known, hx.offset g h.1.known]
      exact h.2
  | moveOut start i last g q b =>
      obtain ⟨hr, hq, hb, hle, hlt⟩ := h
      have hlast := endIndex_le (e := e) start last
      refine ⟨hr.mono hx hcov hlive hS hF, ?_, hplace b _ hb (.inl (.inl ⟨start, ?_, rfl⟩)), hle,
        hlt⟩
      · rwa [hx.capacity g hr.known, hx.offset g hr.known]
      · exact Finset.mem_Ico.mpr ⟨le_rfl, by omega⟩
  | setManyEmpty start i last g q b =>
      obtain ⟨hr, hq, hb, hend⟩ := h
      refine ⟨hr.mono hx hcov hlive hS hF, ?_, ?_, hend⟩
      · rwa [hx.capacity g hr.known, hx.offset g hr.known]
      · rcases hb with ⟨heq, hfin⟩ | hb
        · exact .inl ⟨heq, hfin.mono hS⟩
        · rcases hr.le.lt_or_eq with hlt | heq
          · exact .inr (hplace b _ hb (.inl (.inl ⟨start, Finset.mem_Ico.mpr ⟨le_rfl, hlt⟩, rfl⟩)))
          · by_cases hfin : Finished e S' (start / e.BLOCK_SIZE)
            · exact .inl ⟨heq, hfin⟩
            · exact .inr (hplace b _ hb (.inl (.inr ⟨start, if_pos heq, rfl, hfin⟩)))
  | clearValue i last g q b =>
      obtain ⟨hle, hs, k, hbehind, hb, hc, hall⟩ := h
      exact ⟨hle, hs.mono hx hcov fun n hn hn' =>
        hlive _ (.inl ⟨n, Finset.mem_Ico.mpr ⟨hn, hn'⟩, rfl⟩), k, hbehind.mono hx hs.known,
        hplace b k hb (.inr rfl), hcov b k hb g hs.known hc, hall.mono hS⟩
  | addBlock i last g q b =>
      obtain ⟨hle, hs, k, hbehind⟩ := h
      exact ⟨hle, hs.mono hx hcov fun n hn hn' =>
        hlive _ (.inl ⟨n, Finset.mem_Ico.mpr ⟨hn, hn'⟩, rfl⟩), k, hbehind.mono hx hs.known⟩
  | finished => trivial
  | fault => exact h

/-- What a call peeks at had been published. -/
theorem DeqPC.Ok.published {l : DeqPC} (h : l.Ok e x place j o S F) {n : ℕ}
    (hn : l.peeks = some n) : n / e.BLOCK_SIZE < F := by
  have hreads : ∀ {g i last : ℕ}, Reads e x o S F g i last →
      (if i = last then some i else none) = some n → n / e.BLOCK_SIZE < F := by
    intro g i last hr hi
    obtain ⟨-, hi⟩ := Option.ite_none_right_eq_some.mp hi
    cases hi
    exact hr.published
  cases l with
  | loadTail i last g => exact hreads h hn
  | loadKey i last g t => exact hreads h.1 hn
  | assertEntry i last g q => exact hreads h.1 hn
  | loadValue i last g q => exact hreads h.1 hn
  | moveOut start i last g q b => exact hreads h.1 hn
  | setManyEmpty start i last g q b => exact hreads h.1 hn
  | _ => cases hn

end Readers

/-! ### The owner -/

section Owner

variable {x x' : Index} {o : ℕ → ℕ} {place place' : ℕ → Place ι} {j : ι} {m m' : Memory α}
  {head head' tail low top : ℕ}

theorem Fits.mono {K : ℕ} (h : Fits e head K) (hle : head ≤ head') : Fits e head' K :=
  fun hmax => (h hmax).trans (Nat.add_le_add_left hle _)

theorem Task.Ok.mono {t : Task α} {k : ℕ} (h : t.Ok e place j tail k)
    (hplace : ∀ b l, blocksBelow e tail ≤ l → place b = .slot j l → place' b = .slot j l) :
    t.Ok e place' j tail k :=
  ⟨h.start, fun i hi b hb => hplace b _ (Nat.le_add_right _ _) (h.chain i hi b hb), h.needed⟩

theorem Task.Acquiring.mono {t : Task α} (h : t.Acquiring e place j head tail)
    (hplace : ∀ b l, blocksBelow e tail ≤ l → place b = .slot j l → place' b = .slot j l)
    (hle : head ≤ head') : t.Acquiring e place' j head' tail :=
  ⟨h.toOk.mono hplace, h.more, h.fits.mono hle⟩

theorem EntryOf.of_same {k n : ℕ} (h : EntryOf x o k n) (hb : x'.blockIndex = x.blockIndex)
    (hcell : ∀ g k, x'.cell o g k = x.cell o g k) : EntryOf x' o k n := by
  obtain ⟨c, hc, rfl⟩ := h
  exact ⟨c, hb ▸ hc, (hcell c k).symm⟩

theorem Task.Pushing.mono {t : Task α} {n : ℕ} (h : t.Pushing e x place j o head tail top n)
    (hb : x'.blockIndex = x.blockIndex) (hcell : ∀ g k, x'.cell o g k = x.cell o g k)
    (hplace : ∀ b l, blocksBelow e tail ≤ l → place b = .slot j l → place' b = .slot j l)
    (hle : head ≤ head') : t.Pushing e x' place' j o head' tail top n :=
  ⟨h.toAcquiring.mono hplace hle, h.entry.of_same hb hcell, h.lt_top⟩

/-- What a call that enqueues knows survives the steps of consumers. -/
theorem EnqPC.Ok.mono {l : EnqPC α} (h : l.Ok e x place j o m head tail low top)
    (hb : x'.blockIndex = x.blockIndex) (hheaders : x'.headers = x.headers)
    (hvacant : ∀ n, (x.entries n).vacant = some true → (x'.entries n).vacant = some true)
    (hplace : ∀ b k, blocksBelow e tail ≤ k → place b = .slot j k → place' b = .slot j k)
    (hm : ∀ b ∈ l.hands, m'.elementsCompletelyDequeued b = m.elementsCompletelyDequeued b)
    (hle : head ≤ head') : l.Ok e x' place' j o m' head' tail low top := by
  have hcell : ∀ g k, x'.cell o g k = x.cell o g k := by
    intro g k
    rw [Index.cell, Index.cell, hheaders]
  cases l with
  | loadHead t => exact ⟨h.1.mono hplace, h.2⟩
  | probe t => exact Task.Acquiring.mono h hplace hle
  | newIndex t =>
      obtain ⟨ha, c, hc, hfull⟩ := h
      exact ⟨ha.mono hplace hle, c, hb ▸ hc, by rw [hheaders]; exact hfull⟩
  | storeKey t n => exact ⟨h.1.mono hplace hle, h.2.1.of_same hb hcell, hvacant n h.2.2⟩
  | storeTail t n => exact Task.Pushing.mono h hb hcell hplace hle
  | loadPool t n => exact Task.Pushing.mono h hb hcell hplace hle
  | addPool t n => exact Task.Pushing.mono h hb hcell hplace hle
  | getFree t n => exact Task.Pushing.mono h hb hcell hplace hle
  | create t n => exact Task.Pushing.mono h hb hcell hplace hle
  | resetEmpty t n b => exact Task.Pushing.mono h hb hcell hplace hle
  | storeValue t n b =>
      refine ⟨h.1.mono hb hcell hplace hle, ?_⟩
      rw [hm b (List.mem_singleton_self b)]
      exact h.2
  | rewind t n => exact Task.Pushing.mono h hb hcell hplace hle
  | clearEntry t n => exact Task.Pushing.mono h hb hcell hplace hle
  | undoValue t k => exact ⟨h.1.mono hplace, h.2⟩
  | undoTail t k => exact ⟨h.1.mono hplace, h.2.1, hb ▸ h.2.2⟩
  | giveBack b rest => trivial
  | construct t k => exact ⟨h.1.mono hplace, h.2⟩
  | publish t => exact ⟨h.1.mono hplace, h.2⟩
  | finished => trivial
  | fault => exact h

end Owner

/-! ### One producer -/

section Sub

variable [Fintype ι] {p : Producer α} {m m' : Memory α} {place place' : ℕ → Place ι} {j : ι}
  {o : ℕ → ℕ} {low top : ℕ} {enq : EnqPC α} {deqs : ι → DeqPC}

theorem Sub.alive_of_owed (h : Sub e p m place j o low top enq deqs)
    (hle : p.counters.headIndex ≤ p.counters.tailIndex) {i : ι} {n : ℕ} (hn : n ∈ (deqs i).owed) :
    Alive e p deqs (n / e.BLOCK_SIZE) :=
  ⟨div_lt_blocksBelow ((h.owed.below i n hn).trans_le hle),
    fun hfin => not_mem_settled (i := i) hn (hfin n rfl)⟩

theorem Sub.alive_of_needs (h : Sub e p m place j o low top enq deqs)
    (hle : p.counters.headIndex ≤ p.counters.tailIndex) {i : ι} {k : ℕ}
    (hk : (deqs i).Needs e (marked deqs p.counters.headIndex) k) : Alive e p deqs k := by
  rcases hk with ⟨n, hn, rfl⟩ | ⟨n, hn, rfl, hfin⟩
  · exact h.alive_of_owed hle hn
  · exact ⟨(h.readers i).published hn, hfin⟩

/-- A published number has its block until that is finished. -/
theorem Sub.live (h : Sub e p m place j o low top enq deqs) {k : ℕ} (hk : Alive e p deqs k) :
    ∃ b, place b = .slot j k := by
  obtain ⟨hlt, hfin⟩ := hk
  unfold Finished at hfin
  push Not at hfin
  obtain ⟨n, rfl, hn⟩ := hfin
  exact h.stock.live n hn hlt

/-- What other producers do does not concern this one. -/
structure SameFor (j : ι) (place place' : ℕ → Place ι) (m m' : Memory α) : Prop where
  slot : ∀ b k, place' b = .slot j k ↔ place b = .slot j k
  mem : ∀ b k, place b = .slot j k →
    m'.elementsCompletelyDequeued b = m.elementsCompletelyDequeued b ∧ m'.elements b = m.elements b
  hand : ∀ b, place b = .hand j →
    m'.elementsCompletelyDequeued b = m.elementsCompletelyDequeued b

theorem Sub.frame (h : Sub e p m place j o low top enq deqs)
    (hle : p.counters.headIndex ≤ p.counters.tailIndex) (hs : SameFor j place place' m m')
    (hhands : ∀ b ∈ enq.hands, place b = .hand j) :
    Sub e p m' place' j o low top enq deqs where
  owed := h.owed
  unmoved := h.unmoved
  shelf := h.shelf.congr hs.slot
  stock := h.stock.congr hs.slot hs.mem
  delivery := h.delivery
  fits := h.fits
  owner := h.owner.mono rfl rfl (fun _ hn => hn) (fun b k _ hb => (hs.slot b k).mpr hb)
    (fun b hb => hs.hand b (hhands b hb)) le_rfl
  readers i := (h.readers i).mono (.refl _ _) (fun _ _ _ _ _ hc => hc)
    (fun _ hk => h.live (h.alive_of_needs hle hk)) (fun b k hb _ => (hs.slot b k).mpr hb)
    (Finset.Subset.refl _) le_rfl
  clearing := h.clearing
  swept b k hb := h.swept b k ((hs.slot b k).mp hb)

/-- A step of the owner that changes only what it knows. -/
theorem Sub.owner_quiet (h : Sub e p m place j o low top enq deqs) {enq' : EnqPC α}
    (hins : enq'.inserted (blocksBelow e p.counters.tailIndex) =
      enq.inserted (blocksBelow e p.counters.tailIndex))
    (hpush : enq'.pushing (blocksBelow e p.counters.tailIndex) =
      enq.pushing (blocksBelow e p.counters.tailIndex))
    (hacq : enq'.acquired (blocksBelow e p.counters.tailIndex) =
      enq.acquired (blocksBelow e p.counters.tailIndex))
    (hdone : enq'.done = enq.done)
    (hok : enq'.Ok e p.index place j o m p.counters.headIndex p.counters.tailIndex low top) :
    Sub e p m place j o low top enq' deqs where
  owed := h.owed
  unmoved := h.unmoved
  shelf := by
    rw [hins, hpush, hacq]
    exact h.shelf
  stock := by
    rw [hdone]
    exact h.stock
  delivery := h.delivery
  fits := by
    rw [hins]
    exact h.fits
  owner := hok
  readers := h.readers
  clearing := h.clearing
  swept := h.swept

variable [DecidableEq ι]

omit [Fintype ι] in
theorem owed_update (i : ι) (l : DeqPC) : DeqPC.owed ∘ update deqs i l =
    update (DeqPC.owed ∘ deqs) i l.owed := comp_update ..

omit [Fintype ι] in
theorem unmoved_update (i : ι) (l : DeqPC) : DeqPC.unmoved ∘ update deqs i l =
    update (DeqPC.unmoved ∘ deqs) i l.unmoved := comp_update ..

omit [Fintype ι] in
theorem owed_update_same {i : ι} {l : DeqPC} (hl : l.owed = (deqs i).owed) :
    DeqPC.owed ∘ update deqs i l = DeqPC.owed ∘ deqs := by
  rw [owed_update, hl]
  exact update_eq_self i _

theorem marked_update_same {i : ι} {l : DeqPC} (hl : l.owed = (deqs i).owed) (head : ℕ) :
    marked (update deqs i l) head = marked deqs head := by
  rw [marked, marked, owed_update_same hl]

omit [Fintype ι] in
theorem unmoved_update_same {i : ι} {l : DeqPC} (hl : l.unmoved = (deqs i).unmoved) :
    DeqPC.unmoved ∘ update deqs i l = DeqPC.unmoved ∘ deqs := by
  rw [unmoved_update, hl]
  exact update_eq_self i _

theorem moved_update_same {i : ι} {l : DeqPC} (hl : l.unmoved = (deqs i).unmoved) (head : ℕ) :
    moved (update deqs i l) head = moved deqs head := by
  rw [moved, moved, unmoved_update_same hl]

omit [Fintype ι] in
/-- No two threads clear the entry of one block. -/
theorem clearing_update {i : ι} {l : DeqPC}
    (h : ∀ i i' b, (deqs i).clearing = some b → (deqs i').clearing = some b → i = i')
    (hl : ∀ b, l.clearing = some b → ∀ i', i' ≠ i → (deqs i').clearing ≠ some b) :
    ∀ i₁ i₂ b, (update deqs i l i₁).clearing = some b →
      (update deqs i l i₂).clearing = some b → i₁ = i₂ := by
  intro i₁ i₂ b h₁ h₂
  rcases eq_or_ne i₁ i with rfl | hne₁
  · rcases eq_or_ne i₂ i₁ with rfl | hne₂
    · rfl
    · rw [update_self] at h₁
      rw [update_of_ne hne₂] at h₂
      exact absurd h₂ (hl b h₁ i₂ hne₂)
  · rw [update_of_ne hne₁] at h₁
    rcases eq_or_ne i₂ i with rfl | hne₂
    · rw [update_self] at h₂
      exact absurd h₁ (hl b h₂ i₁ hne₁)
    · rw [update_of_ne hne₂] at h₂
      exact h i₁ i₂ b h₁ h₂

omit [Fintype ι] in
/-- A thread that was about to clear an entry still is. -/
theorem Swept.update {S : Finset ℕ} (h : Swept e place j deqs S) {i : ι} {l : DeqPC}
    (hl : ∀ b, (deqs i).clearing = some b → l.clearing = some b) :
    Swept e place j (update deqs i l) S := by
  intro b k hb hall
  obtain ⟨i', hi'⟩ := h b k hb hall
  refine ⟨i', ?_⟩
  rcases eq_or_ne i' i with rfl | hne
  · rw [update_self]
    exact hl b hi'
  · rwa [update_of_ne hne]

/-- A step of a consumer that changes only what it knows. -/
theorem Sub.reader_quiet (h : Sub e p m place j o low top enq deqs) {i : ι} {l : DeqPC}
    {s : Claim.State} (hhead : s.headIndex = p.counters.headIndex)
    (htail : s.tailIndex = p.counters.tailIndex) (howed : l.owed = (deqs i).owed)
    (hunmoved : l.unmoved = (deqs i).unmoved) (hclear : l.clearing = (deqs i).clearing)
    (hok : l.Ok e p.index place j o (marked deqs p.counters.headIndex)
      (blocksBelow e p.counters.tailIndex)) :
    Sub e { p with counters := s } m place j o low top enq (update deqs i l) := by
  have hmarked : marked (update deqs i l) s.headIndex = marked deqs p.counters.headIndex := by
    rw [marked_update_same howed, hhead]
  have hmoved : moved (update deqs i l) s.headIndex = moved deqs p.counters.headIndex := by
    rw [moved_update_same hunmoved, hhead]
  refine ⟨?_, ?_, ?_, ?_, ?_, ?_, ?_, ?_, ?_, ?_⟩
  · rw [owed_update_same howed, hhead]
    exact h.owed
  · rw [unmoved_update_same hunmoved, hhead]
    exact h.unmoved
  · rw [htail]
    exact h.shelf
  · rw [hmarked, hmoved, htail]
    exact h.stock
  · rw [hmoved]
    exact h.delivery
  · rw [hhead, htail]
    exact h.fits
  · rw [hhead, htail]
    exact h.owner
  · rw [hmarked, htail]
    exact forall_update (P := fun l : DeqPC => l.Ok e p.index place j o
      (marked deqs p.counters.headIndex) (blocksBelow e p.counters.tailIndex)) hok h.readers
  · refine clearing_update h.clearing fun b hb i' hi' hb' => hi' ?_
    exact h.clearing i' i b hb' (hclear ▸ hb)
  · rw [hmarked]
    exact h.swept.update fun b hb => hclear.trans hb

end Sub

end ConcurrentQueue.ImplicitRace
