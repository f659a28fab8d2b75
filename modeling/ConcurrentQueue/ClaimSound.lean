import Mathlib.Data.Finset.Card
import Mathlib.Data.Finset.Interval
import Mathlib.Order.Interval.Finset.Nat
import ConcurrentQueue.Claim

/-!
# ConcurrentQueue.ClaimSound

**The claim protocol never over-claims.** The units added to
`dequeueOptimisticCount` are *tickets*: a fetch-add that saw `mine` and added
`desired` holds the tickets `mine .. mine + desired - 1`. Every ticket is
eventually *granted* (it becomes part of a claim) or *refunded* (it goes into
`dequeueOvercommit`).

A consumer that read `overcommit = v` and drew tickets from `mine` on knows that
at least `v` tickets below `mine` have been refunded, so at most `mine - v` of
them can ever be granted. This is what makes its comparison with `tailIndex`
safe, whatever happens between its reads: for every granted ticket `t`, the
tickets up to `t` that were not refunded are at most `tailIndex`
(`Tickets.bound`). The sets of granted and refunded tickets exist only in the
invariant.
-/

namespace ConcurrentQueue.Claim

open Function Interleaving

/-! ### What a consumer holds -/

namespace PC

/-- Tickets drawn and not yet decided. -/
def undecided : PC → Nat
  | reloadTail _ desired _ => desired
  | _ => 0

/-- Tickets granted but not yet taken from `headIndex`. -/
def granted : PC → Nat
  | refundSome _ actual => actual
  | claim actual => actual
  | _ => 0

/-- Tickets to be refunded. -/
def refunding : PC → Nat
  | refundSome surplus _ => surplus
  | refundAll desired => desired
  | _ => 0

/-- The tickets behind `undecided`. -/
def tickets : PC → Finset ℕ
  | reloadTail _ desired mine => Finset.Ico mine (mine + desired)
  | _ => ∅

/-- No dequeue is in flight on this thread. -/
def Rests : PC → Prop
  | idle | producer => True
  | _ => False

theorem undecided_eq_card (l : PC) : l.undecided = l.tickets.card := by
  cases l <;> simp [undecided, tickets]

end PC

/-- What the locals of a consumer say about the refunded tickets `R`. -/
def LocalOk (s : State) (R : Finset ℕ) : PC → Prop
  | .loadCount _ _ v | .addCount _ v _ => v ≤ s.dequeueOvercommit
  | .reloadTail v desired mine =>
      v ≤ (R.filter (· < mine)).card ∧ mine + desired ≤ s.dequeueOptimisticCount
  | _ => True

variable {ι : Type*} [Fintype ι]

/-- The invariant, for the granted tickets `G` and the refunded tickets `R`. -/
structure Tickets (c : Conf ι State PC) (G R : Finset ℕ) : Prop where
  drawn : ∀ t ∈ G ∪ R, t < c.shared.dequeueOptimisticCount
  disjoint : Disjoint G R
  free : ∀ i, Disjoint (c.locals i).tickets (G ∪ R)
  apart : ∀ i j, i ≠ j → Disjoint (c.locals i).tickets (c.locals j).tickets
  granted : G.card = c.shared.headIndex + ∑ i, (c.locals i).granted
  refunded : R.card = c.shared.dequeueOvercommit + ∑ i, (c.locals i).refunding
  total : c.shared.dequeueOptimisticCount = G.card + R.card + ∑ i, (c.locals i).undecided
  bound : ∀ t ∈ G, (Finset.range (t + 1) \ R).card ≤ c.shared.tailIndex
  localOk : ∀ i, LocalOk c.shared R (c.locals i)

/-- The granted tickets are at most what is published. -/
theorem Tickets.granted_le {c : Conf ι State PC} {G R : Finset ℕ} (h : Tickets c G R) :
    G.card ≤ c.shared.tailIndex := by
  rcases G.eq_empty_or_nonempty with rfl | hne
  · simp
  · -- all granted tickets are among the unrefunded ones up to the last of them
    refine le_trans (Finset.card_le_card ?_) (h.bound _ (G.max'_mem hne))
    intro t ht
    rw [Finset.mem_sdiff, Finset.mem_range]
    exact ⟨Nat.lt_succ_of_le (G.le_max' t ht),
      fun hr => Finset.disjoint_left.mp h.disjoint ht hr⟩

/-! ### Claimed ranges -/

/-- Newest first, the claimed ranges are consecutive and end at `h`. -/
def Consecutive : Nat → List (Nat × Nat) → Prop
  | h, [] => h = 0
  | h, (first, count) :: rest => first + count = h ∧ Consecutive first rest

theorem Consecutive.mem_iff {h : Nat} {l : List (Nat × Nat)} (hl : Consecutive h l) (i : Nat) :
    (∃ r ∈ l, r.1 ≤ i ∧ i < r.1 + r.2) ↔ i < h := by
  induction l generalizing h with
  | nil =>
      simp only [Consecutive] at hl
      simp [hl]
  | cons r rest ih =>
      obtain ⟨first, count⟩ := r
      obtain ⟨rfl, hrest⟩ := hl
      simp only [List.exists_mem_cons_iff, ih hrest]
      omega

theorem Consecutive.le {h : Nat} {l : List (Nat × Nat)} (hl : Consecutive h l) :
    ∀ r ∈ l, r.1 + r.2 ≤ h := by
  induction l generalizing h with
  | nil => simp
  | cons r rest ih =>
      obtain ⟨first, count⟩ := r
      obtain ⟨rfl, hrest⟩ := hl
      intro q hq
      rcases List.mem_cons.mp hq with rfl | hq
      · exact le_rfl
      · have := ih hrest q hq
        omega

theorem Consecutive.pairwise {h : Nat} {l : List (Nat × Nat)} (hl : Consecutive h l) :
    l.Pairwise fun r q => Disjoint (Finset.Ico r.1 (r.1 + r.2)) (Finset.Ico q.1 (q.1 + q.2)) := by
  induction l generalizing h with
  | nil => exact .nil
  | cons r rest ih =>
      obtain ⟨first, count⟩ := r
      obtain ⟨rfl, hrest⟩ := hl
      refine List.pairwise_cons.mpr ⟨fun q hq => ?_, ih hrest⟩
      have hle := hrest.le q hq
      rw [Finset.disjoint_left]
      intro t ht hq
      rw [Finset.mem_Ico] at ht hq
      omega

/-! ### One step -/

/-- A bigger refund only strengthens what the consumers know. -/
theorem LocalOk.mono {s s' : State} {R R' : Finset ℕ} {l : PC} (h : LocalOk s R l)
    (hO : s.dequeueOptimisticCount ≤ s'.dequeueOptimisticCount)
    (hV : s.dequeueOvercommit ≤ s'.dequeueOvercommit) (hR : R ⊆ R') : LocalOk s' R' l := by
  cases l with
  | reloadTail v desired mine =>
      obtain ⟨hv, hle⟩ := h
      refine ⟨le_trans hv (Finset.card_le_card ?_), le_trans hle hO⟩
      exact Finset.filter_subset_filter _ hR
  | loadCount c tail v => exact le_trans h hV
  | addCount c v desired => exact le_trans h hV
  | _ => trivial

variable [DecidableEq ι] {c : Conf ι State PC} {G R : Finset ℕ} {i : ι}

omit [Fintype ι] in
theorem apart_update {locals : ι → PC} {l : PC}
    (hl : ∀ j, j ≠ i → Disjoint l.tickets (locals j).tickets)
    (h : ∀ j k, j ≠ k → Disjoint (locals j).tickets (locals k).tickets) :
    ∀ j k, j ≠ k → Disjoint (update locals i l j).tickets
      (update locals i l k).tickets := by
  intro j k hjk
  by_cases hj : j = i
  · subst hj
    simpa [update_of_ne hjk.symm] using hl k hjk.symm
  · by_cases hk : k = i
    · subst hk
      simpa [update_of_ne hj] using (hl j hj).symm
    · simpa [update_of_ne hj, update_of_ne hk] using h j k hjk

/-- The steps that draw and decide no ticket. -/
theorem Tickets.quiet (h : Tickets c G R) {s : State} {l : PC}
    (hold : (c.locals i).tickets = ∅) (hnew : l.tickets = ∅)
    (hO : s.dequeueOptimisticCount = c.shared.dequeueOptimisticCount)
    (htail : c.shared.tailIndex ≤ s.tailIndex)
    (hV : c.shared.dequeueOvercommit ≤ s.dequeueOvercommit)
    (hgr : s.headIndex + l.granted = c.shared.headIndex + (c.locals i).granted)
    (href : s.dequeueOvercommit + l.refunding =
      c.shared.dequeueOvercommit + (c.locals i).refunding)
    (hl : LocalOk s R l) : Tickets ⟨s, update c.locals i l⟩ G R where
  drawn := by simpa only [hO] using h.drawn
  disjoint := h.disjoint
  free := forall_update (P := fun l : PC => Disjoint l.tickets (G ∪ R)) (by simp [hnew]) h.free
  apart := apart_update (by simp [hnew]) h.apart
  granted := by
    have := sum_update_add PC.granted c.locals i l
    have := h.granted
    simp only
    omega
  refunded := by
    have := sum_update_add PC.refunding c.locals i l
    have := h.refunded
    simp only
    omega
  total := by
    have hsum := sum_update_add PC.undecided c.locals i l
    have := h.total
    rw [PC.undecided_eq_card l, PC.undecided_eq_card (c.locals i), hold, hnew] at hsum
    simp only
    omega
  bound := fun t ht => le_trans (h.bound t ht) htail
  localOk := forall_update hl fun j => (h.localOk j).mono hO.ge hV (Finset.Subset.refl R)

/-- Drawing tickets: they are new, and every refund so far is below them. -/
theorem Tickets.draw (h : Tickets c G R) {call : Call} {v desired : Nat}
    (hpc : c.locals i = .addCount call v desired) :
    Tickets ⟨{ c.shared with
        dequeueOptimisticCount := c.shared.dequeueOptimisticCount + desired },
      update c.locals i
        (.reloadTail v desired c.shared.dequeueOptimisticCount)⟩ G R where
  drawn := fun t ht => by
    have := h.drawn t ht
    simp only
    omega
  disjoint := h.disjoint
  free := by
    refine forall_update (P := fun l : PC => Disjoint l.tickets (G ∪ R)) ?_ h.free
    rw [Finset.disjoint_left]
    intro t ht hd
    have := h.drawn t hd
    simp only [PC.tickets, Finset.mem_Ico] at ht
    omega
  apart := by
    refine apart_update (fun j _ => ?_) h.apart
    rw [Finset.disjoint_left]
    intro t ht hd
    have hj := h.localOk j
    cases hpj : c.locals j <;> simp only [hpj, PC.tickets, Finset.notMem_empty] at hd
    simp only [hpj, LocalOk, PC.tickets, Finset.mem_Ico] at hj ht hd
    omega
  granted := by
    have hsum := sum_update_eq PC.granted hpc
      (.reloadTail v desired c.shared.dequeueOptimisticCount) 0 0 rfl rfl
    have := h.granted
    simp only
    omega
  refunded := by
    have hsum := sum_update_eq PC.refunding hpc
      (.reloadTail v desired c.shared.dequeueOptimisticCount) 0 0 rfl rfl
    have := h.refunded
    simp only
    omega
  total := by
    have hsum := sum_update_eq PC.undecided hpc
      (.reloadTail v desired c.shared.dequeueOptimisticCount) 0 desired rfl rfl
    have := h.total
    simp only
    omega
  bound := h.bound
  localOk := by
    refine forall_update (i := i) ?_ fun j => (h.localOk j).mono (by simp) le_rfl
      (Finset.Subset.refl R)
    have hv := h.localOk i
    rw [hpc] at hv
    have hall : R.filter (· < c.shared.dequeueOptimisticCount) = R :=
      Finset.filter_true_of_mem fun t ht => h.drawn t (Finset.mem_union_right _ ht)
    have := h.refunded
    simp only [LocalOk, hall] at hv ⊢
    omega

omit [Fintype ι] [DecidableEq ι] in
/-- The outcome of the second look at `tailIndex`: some of the tickets, from the
first on, are granted as far as the tail reaches, the others refunded. -/
theorem grant_spec (tail v desired mine : Nat) :
    ∃ a, a ≤ desired ∧ (grant tail v desired mine).tickets = ∅ ∧
      (grant tail v desired mine).granted = a ∧
      (grant tail v desired mine).refunding = desired - a ∧
      (0 < a → mine + a ≤ tail + v) ∧ ∀ s R, LocalOk s R (grant tail v desired mine) := by
  simp only [grant]
  split
  case isTrue hpos =>
    generalize hg : (if (desired : Int) < tail - (mine - v) then desired
      else ((tail : Int) - (mine - v)).toNat) = granted
    have hle : granted ≤ desired ∧ (granted : Int) ≤ tail - (mine - v) := by
      split at hg <;> omega
    split
    case isTrue hlt => exact ⟨granted, by omega, rfl, rfl, rfl, by omega, fun _ _ => trivial⟩
    case isFalse hge =>
      refine ⟨granted, by omega, rfl, rfl, ?_, by omega, fun _ _ => trivial⟩
      change 0 = desired - granted
      omega
  case isFalse => exact ⟨0, Nat.zero_le _, rfl, rfl, rfl, by omega, fun _ _ => trivial⟩

/-- Deciding tickets: the granted ones stay within the tail, because at least
`v` of the tickets below them have been refunded. -/
theorem Tickets.decided (h : Tickets c G R) {v desired mine : Nat}
    (hpc : c.locals i = .reloadTail v desired mine) :
    ∃ G' R', Tickets ⟨c.shared, update c.locals i
      (grant c.shared.tailIndex v desired mine)⟩ G' R' := by
  have hlocal := h.localOk i
  have hfree := h.free i
  rw [hpc] at hlocal hfree
  obtain ⟨hv, htop⟩ := hlocal
  obtain ⟨a, hale, htick, hgr, href, hreach, hok⟩ :=
    grant_spec c.shared.tailIndex v desired mine
  generalize grant c.shared.tailIndex v desired mine = l at htick hgr href hok ⊢
  -- the tickets this consumer held are neither granted nor refunded yet
  have hnew : ∀ t, mine ≤ t → t < mine + desired → t ∉ G ∧ t ∉ R := by
    intro t h1 h2
    have hmem : t ∈ (PC.reloadTail v desired mine).tickets := by
      simpa [PC.tickets] using And.intro h1 h2
    have := Finset.disjoint_left.mp hfree hmem
    simpa [not_or] using this
  have hother : ∀ j, j ≠ i → ∀ t ∈ (c.locals j).tickets, ¬ (mine ≤ t ∧ t < mine + desired) := by
    intro j hj t ht hin
    have hd := h.apart j i hj
    rw [hpc] at hd
    exact Finset.disjoint_left.mp hd ht (by simpa [PC.tickets] using hin)
  have hGcard : (G ∪ Finset.Ico mine (mine + a)).card = G.card + a := by
    rw [Finset.card_union_of_disjoint, Nat.card_Ico]
    · omega
    · rw [Finset.disjoint_right]
      intro t ht
      rw [Finset.mem_Ico] at ht
      exact (hnew t ht.1 (by omega)).1
  have hRcard : (R ∪ Finset.Ico (mine + a) (mine + desired)).card = R.card + (desired - a) := by
    rw [Finset.card_union_of_disjoint, Nat.card_Ico]
    · omega
    · rw [Finset.disjoint_right]
      intro t ht
      rw [Finset.mem_Ico] at ht
      exact (hnew t (by omega) ht.2).2
  refine ⟨G ∪ Finset.Ico mine (mine + a), R ∪ Finset.Ico (mine + a) (mine + desired),
    ?_, ?_, ?_, ?_, ?_, ?_, ?_, ?_, ?_⟩
  · intro t ht
    have hd := h.drawn t
    simp only [Finset.mem_union, Finset.mem_Ico] at ht hd
    rcases ht with (hG | hI) | (hR | hI)
    · exact hd (.inl hG)
    · simp only; omega
    · exact hd (.inr hR)
    · simp only; omega
  · rw [Finset.disjoint_left]
    intro t ht hr
    simp only [Finset.mem_union, Finset.mem_Ico] at ht hr
    rcases ht with hG | hI
    · rcases hr with hR | hI
      · exact Finset.disjoint_left.mp h.disjoint hG hR
      · exact (hnew t (by omega) hI.2).1 hG
    · rcases hr with hR | hI'
      · exact (hnew t hI.1 (by omega)).2 hR
      · omega
  · intro j
    by_cases hj : j = i
    · subst hj
      simp [htick]
    · simp only [update_of_ne hj, Finset.disjoint_left]
      intro t ht hu
      have hf := Finset.disjoint_left.mp (h.free j) ht
      have ho := hother j hj t ht
      simp only [Finset.mem_union, Finset.mem_Ico] at hu hf
      rcases hu with (hG | hI) | (hR | hI)
      · exact hf (.inl hG)
      · exact ho ⟨hI.1, by omega⟩
      · exact hf (.inr hR)
      · exact ho ⟨by omega, hI.2⟩
  · exact apart_update (by simp [htick]) h.apart
  · have hsum := sum_update_eq PC.granted hpc l 0 a rfl hgr
    have := h.granted
    simp only
    omega
  · have hsum := sum_update_eq PC.refunding hpc l 0 (desired - a) rfl href
    have := h.refunded
    simp only
    omega
  · have hsum := sum_update_eq PC.undecided hpc l desired 0 rfl
      (by rw [PC.undecided_eq_card, htick]; rfl)
    have := h.total
    simp only
    omega
  · intro t ht
    rcases Finset.mem_union.mp ht with hG | hI
    · refine le_trans (Finset.card_le_card ?_) (h.bound t hG)
      exact Finset.sdiff_subset_sdiff (Finset.Subset.refl _) Finset.subset_union_left
    · rw [Finset.mem_Ico] at hI
      have hsub : Finset.range (t + 1) \ (R ∪ Finset.Ico (mine + a) (mine + desired)) ⊆
          Finset.range (t + 1) \ R.filter (· < mine) :=
        Finset.sdiff_subset_sdiff (Finset.Subset.refl _)
          ((Finset.filter_subset _ _).trans Finset.subset_union_left)
      have hin : R.filter (· < mine) ⊆ Finset.range (t + 1) := by
        intro x hx
        have := (Finset.mem_filter.mp hx).2
        rw [Finset.mem_range]
        omega
      have hle := Finset.card_le_card hsub
      rw [Finset.card_sdiff_of_subset hin, Finset.card_range] at hle
      have := hreach (by omega)
      simp only
      omega
  · exact forall_update (hok _ _) fun j =>
      (h.localOk j).mono le_rfl le_rfl Finset.subset_union_left

/-! ### Every reachable configuration -/

/-- The invariant of the protocol. -/
structure Inv (c : Conf ι State PC) : Prop where
  tickets : ∃ G R, Tickets c G R
  claims : Consecutive c.shared.headIndex c.shared.claims

omit [DecidableEq ι] in
theorem inv_init (h : Init c) : Inv c := by
  obtain ⟨hs, hl⟩ := h
  have hzero : ∀ i, (c.locals i).tickets = ∅ ∧ (c.locals i).granted = 0 ∧
      (c.locals i).refunding = 0 ∧ (c.locals i).undecided = 0 ∧
        LocalOk c.shared ∅ (c.locals i) := by
    intro i
    rcases hl i with h | h <;> rw [h] <;> exact ⟨rfl, rfl, rfl, rfl, trivial⟩
  refine ⟨⟨∅, ∅, by simp, by simp, by simp, ?_, ?_, ?_, ?_, by simp, fun i => (hzero i).2.2.2.2⟩,
    by simp [hs, Consecutive]⟩
  · intro i j _
    simp [(hzero i).1]
  · simp [hs, fun i => (hzero i).2.1]
  · simp [hs, fun i => (hzero i).2.2.1]
  · simp [hs, fun i => (hzero i).2.2.2.1]

theorem inv_step {a : Act} {r : State × PC} (h : Inv c)
    (hx : exec i a c.shared (c.locals i) = some r) :
    Inv ⟨r.1, update c.locals i r.2⟩ := by
  obtain ⟨⟨G, R, ht⟩, hclaims⟩ := h
  have hok := ht.localOk i
  cases hpc : c.locals i <;> cases a <;> rw [hpc] at hx hok <;>
    simp only [exec, reduceCtorEq] at hx
  case producer.publish n =>
    cases hx
    exact ⟨⟨G, R, ht.quiet (by rw [hpc]; rfl) rfl rfl (by simp) le_rfl (by rw [hpc])
      (by rw [hpc]) trivial⟩, hclaims⟩
  case idle.call call =>
    cases hx
    exact ⟨⟨G, R, ht.quiet (by rw [hpc]; rfl) rfl rfl le_rfl le_rfl (by rw [hpc]; rfl)
      (by rw [hpc]; rfl) trivial⟩, hclaims⟩
  case loadTail.run call =>
    cases hx
    exact ⟨⟨G, R, ht.quiet (by rw [hpc]; rfl) rfl rfl le_rfl le_rfl (by rw [hpc]; rfl)
      (by rw [hpc]; rfl) trivial⟩, hclaims⟩
  case loadOvercommit.run call tail =>
    cases hx
    exact ⟨⟨G, R, ht.quiet (by rw [hpc]; rfl) rfl rfl le_rfl le_rfl (by rw [hpc]; rfl)
      (by rw [hpc]; rfl) (le_refl _)⟩, hclaims⟩
  case loadCount.run call tail v =>
    split at hx <;> cases hx
    · exact ⟨⟨G, R, ht.quiet (by rw [hpc]; rfl) rfl rfl le_rfl le_rfl (by rw [hpc]; rfl)
        (by rw [hpc]; rfl) hok⟩, hclaims⟩
    · exact ⟨⟨G, R, ht.quiet (by rw [hpc]; rfl) rfl rfl le_rfl le_rfl (by rw [hpc]; rfl)
        (by rw [hpc]; rfl) trivial⟩, hclaims⟩
  case addCount.run call v desired =>
    cases hx
    exact ⟨⟨G, R, ht.draw hpc⟩, hclaims⟩
  case reloadTail.run v desired mine =>
    cases hx
    exact ⟨ht.decided hpc, hclaims⟩
  case refundSome.run surplus actual =>
    cases hx
    exact ⟨⟨G, R, ht.quiet (by rw [hpc]; rfl) rfl rfl le_rfl (by simp) (by rw [hpc]; rfl)
      (by rw [hpc]; rfl) trivial⟩, hclaims⟩
  case claim.run actual =>
    cases hx
    exact ⟨⟨G, R, ht.quiet (by rw [hpc]; rfl) rfl rfl le_rfl le_rfl (by rw [hpc]; rfl)
      (by rw [hpc]; rfl) trivial⟩, rfl, hclaims⟩
  case refundAll.run desired =>
    cases hx
    exact ⟨⟨G, R, ht.quiet (by rw [hpc]; rfl) rfl rfl le_rfl (by simp) (by rw [hpc]; rfl)
      (by rw [hpc]; rfl) trivial⟩, hclaims⟩

theorem inv_reachable (h : exec.Reachable Init c) : Inv c :=
  h.invariant (fun _ => inv_init) fun _ _ _ _ _ hinv hx => inv_step hinv hx

/-! ### What the protocol guarantees -/

/-- The guarantees of the claim protocol, in one configuration. -/
structure Sound (c : Conf ι State PC) : Prop where
  /-- Different calls obtain disjoint ranges of indices. -/
  disjoint : c.shared.claims.Pairwise fun r q =>
    Disjoint (Finset.Ico r.1 (r.1 + r.2)) (Finset.Ico q.1 (q.1 + q.2))
  /-- Together they are the indices below `headIndex`. -/
  cover : ∀ i, (∃ r ∈ c.shared.claims, r.1 ≤ i ∧ i < r.1 + r.2) ↔ i < c.shared.headIndex
  /-- Every claimed index was published. -/
  published : c.shared.headIndex ≤ c.shared.tailIndex
  overcommit_le : c.shared.dequeueOvercommit ≤ c.shared.dequeueOptimisticCount
  /-- With no dequeue in flight the counters are settled. -/
  settled : (∀ i, (c.locals i).Rests) →
    c.shared.dequeueOptimisticCount - c.shared.dequeueOvercommit = c.shared.headIndex

omit [DecidableEq ι] in
theorem Inv.sound (h : Inv c) : Sound c where
  disjoint := h.claims.pairwise
  cover := h.claims.mem_iff
  published := by
    obtain ⟨G, R, ht⟩ := h.tickets
    have := ht.granted_le
    have := ht.granted
    omega
  overcommit_le := by
    obtain ⟨G, R, ht⟩ := h.tickets
    have := ht.refunded
    have := ht.total
    omega
  settled := by
    intro hrest
    obtain ⟨G, R, ht⟩ := h.tickets
    have hzero : ∀ i, (c.locals i).granted = 0 ∧ (c.locals i).refunding = 0 ∧
        (c.locals i).undecided = 0 := by
      intro i
      have := hrest i
      cases hpc : c.locals i <;> rw [hpc] at this <;>
        first | exact this.elim | exact ⟨rfl, rfl, rfl⟩
    have hg := ht.granted
    have hr := ht.refunded
    have htot := ht.total
    simp only [fun i => (hzero i).1, fun i => (hzero i).2.1, fun i => (hzero i).2.2,
      Finset.sum_const_zero] at hg hr htot
    omega

/-- The steps of a `dequeue` that runs alone from a settled state. -/
def aloneActs (s : State) : List Act :=
  .call .dequeue :: List.replicate (if s.headIndex < s.tailIndex then 6 else 3) .run

omit [Fintype ι] [DecidableEq ι] in
/-- Alone, from settled counters, `dequeue` claims the next index if there is
one, and changes nothing otherwise. -/
theorem solo_dequeue {s : State} (hle : s.dequeueOvercommit ≤ s.dequeueOptimisticCount)
    (hset : s.dequeueOptimisticCount - s.dequeueOvercommit = s.headIndex) :
    exec.solo i (aloneActs s) s .idle =
      if s.headIndex < s.tailIndex then
        some ({ s with
          dequeueOptimisticCount := s.dequeueOptimisticCount + 1
          headIndex := s.headIndex + 1
          claims := (s.headIndex, 1) :: s.claims }, .idle)
      else some (s, .idle) := by
  split
  case isTrue hlt =>
    have hpos : (0 : Int) < s.tailIndex - (s.dequeueOptimisticCount - s.dequeueOvercommit) := by
      omega
    have hgrant : grant s.tailIndex s.dequeueOvercommit 1 s.dequeueOptimisticCount = .claim 1 := by
      simp only [grant, if_pos hpos]
      have hone : (if ((1 : Nat) : Int) < s.tailIndex -
          (s.dequeueOptimisticCount - s.dequeueOvercommit) then 1
          else ((s.tailIndex : Int) -
            (s.dequeueOptimisticCount - s.dequeueOvercommit)).toNat) = 1 := by
        split <;> omega
      rw [hone]
      rfl
    have hload : exec i .run s (.loadCount .dequeue s.tailIndex s.dequeueOvercommit) =
        some (s, .addCount .dequeue s.dequeueOvercommit 1) := by
      simp only [exec, if_pos hpos]
      rfl
    have hreload : exec i .run
        { s with dequeueOptimisticCount := s.dequeueOptimisticCount + 1 }
        (.reloadTail s.dequeueOvercommit 1 s.dequeueOptimisticCount) =
        some ({ s with dequeueOptimisticCount := s.dequeueOptimisticCount + 1 }, .claim 1) := by
      simp only [exec, hgrant]
    rw [aloneActs, if_pos hlt, Exec.solo_cons rfl]
    simp only [List.replicate]
    rw [Exec.solo_cons rfl, Exec.solo_cons rfl, Exec.solo_cons hload, Exec.solo_cons rfl,
      Exec.solo_cons hreload, Exec.solo_cons rfl]
    rfl
  case isFalse hge =>
    have hneg : ¬ (0 : Int) < s.tailIndex - (s.dequeueOptimisticCount - s.dequeueOvercommit) := by
      omega
    have hload : exec i .run s (.loadCount .dequeue s.tailIndex s.dequeueOvercommit) =
        some (s, .idle) := by
      simp only [exec, if_neg hneg]
    rw [aloneActs, if_neg hge, Exec.solo_cons rfl]
    simp only [List.replicate]
    rw [Exec.solo_cons rfl, Exec.solo_cons rfl, Exec.solo_cons hload]
    rfl

/-- **The claim protocol is sound**: in every interleaving the claims are
disjoint, cover exactly the indices below `headIndex` and stay below
`tailIndex`, the counters settle, and a `dequeue` that then runs alone claims an
index if and only if one is left. -/
theorem reachable_sound (h : exec.Reachable Init c) :
    Sound c ∧ ((∀ j, (c.locals j).Rests) → ∀ j, c.locals j = .idle →
      exec.solo j (aloneActs c.shared) c.shared (c.locals j) =
        if c.shared.headIndex < c.shared.tailIndex then
          some ({ c.shared with
            dequeueOptimisticCount := c.shared.dequeueOptimisticCount + 1
            headIndex := c.shared.headIndex + 1
            claims := (c.shared.headIndex, 1) :: c.shared.claims }, .idle)
        else some (c.shared, .idle)) := by
  have hs := (inv_reachable h).sound
  refine ⟨hs, fun hrest j hj => ?_⟩
  rw [hj]
  exact solo_dequeue hs.overcommit_le (hs.settled hrest)

/-- Two consumers race for three elements: the bulk dequeue gets them all, the
single one has to refund its ticket. -/
theorem race_sound :
    ∃ c : Conf (Fin 3) State PC, c.shared = ⟨3, 3, 4, 1, [(0, 3)]⟩ ∧ Sound c := by
  have hstart : exec.Reachable Init
      (⟨⟨0, 0, 0, 0, []⟩, fun i => if i = 0 then .producer else .idle⟩ : Conf (Fin 3) State PC) :=
    .start ⟨rfl, by decide⟩
  have hreach := hstart.run (d := ⟨⟨3, 3, 4, 1, [(0, 3)]⟩, _⟩)
    [(0, .publish 3), (1, .call (.dequeueBulk 5)), (1, .run), (1, .run), (1, .run),
      (2, .call .dequeue), (2, .run), (2, .run), (2, .run), (1, .run), (2, .run), (2, .run),
      (1, .run), (1, .run), (2, .run)] rfl
  exact ⟨_, rfl, (reachable_sound hreach).1⟩

end ConcurrentQueue.Claim
