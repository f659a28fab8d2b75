import ConcurrentQueue.ImplicitRaceIndex

/-!
# ConcurrentQueue.ImplicitRaceStock

**The elements in the blocks of one producer**, and what each step of a producer or a
consumer does to them: a block is added, an element constructed, the tail published,
an element moved out, slots marked empty, a block taken away. A block may be taken
away once all its slots are marked, or if nothing was constructed in it.
-/

namespace ConcurrentQueue.ImplicitRace

open Function Outstanding Circular

variable {ι α : Type} {e : Env}

/-! ### Blocks and indices -/

theorem lt_blocksBelow {k n : ℕ} : k < blocksBelow e n ↔ k * e.BLOCK_SIZE < n := by
  have := e.BLOCK_SIZE_pos
  rw [blocksBelow, ← Nat.succ_le_iff, Nat.le_div_iff_mul_le this, Nat.succ_mul]
  omega

theorem blocksBelow_le {k n : ℕ} : blocksBelow e n ≤ k ↔ n ≤ k * e.BLOCK_SIZE := by
  rw [← not_lt, lt_blocksBelow, not_lt]

theorem div_mul_le (n : ℕ) : n / e.BLOCK_SIZE * e.BLOCK_SIZE ≤ n := Nat.div_mul_le_self _ _

theorem div_lt_blocksBelow {n m : ℕ} (h : n < m) : n / e.BLOCK_SIZE < blocksBelow e m :=
  lt_blocksBelow.mpr ((div_mul_le n).trans_lt h)

theorem blocksBelow_mono {n m : ℕ} (h : n ≤ m) : blocksBelow e n ≤ blocksBelow e m :=
  blocksBelow_le.mpr (h.trans (blocksBelow_le.mp le_rfl))

/-- An index in a block that is published in part lies in the block of the tail. -/
theorem div_eq_of_lt_blocksBelow {tail n : ℕ} (hle : tail ≤ n)
    (hlt : n / e.BLOCK_SIZE < blocksBelow e tail) :
    tail % e.BLOCK_SIZE ≠ 0 ∧ n / e.BLOCK_SIZE = tail / e.BLOCK_SIZE := by
  have hbase := lt_blocksBelow.mp hlt
  have hdiv : n / e.BLOCK_SIZE = tail / e.BLOCK_SIZE := by
    refine le_antisymm ?_ (Nat.div_le_div_right hle)
    exact (Nat.le_div_iff_mul_le e.BLOCK_SIZE_pos).mpr hbase.le
  refine ⟨fun hzero => ?_, hdiv⟩
  rw [hdiv, Nat.div_mul_cancel (Nat.dvd_of_mod_eq_zero hzero)] at hbase
  exact hbase.false

theorem mul_add_div {k r : ℕ} (hr : r < e.BLOCK_SIZE) :
    (k * e.BLOCK_SIZE + r) / e.BLOCK_SIZE = k := by
  rw [Nat.add_comm, Nat.add_mul_div_right _ _ e.BLOCK_SIZE_pos, Nat.div_eq_of_lt hr,
    Nat.zero_add]

theorem mul_add_mod_of_lt {k r : ℕ} (hr : r < e.BLOCK_SIZE) :
    (k * e.BLOCK_SIZE + r) % e.BLOCK_SIZE = r := by
  rw [Nat.add_comm, Nat.add_mul_mod_self_right, Nat.mod_eq_of_lt hr]

theorem div_mul_add_mod (n : ℕ) :
    n / e.BLOCK_SIZE * e.BLOCK_SIZE + n % e.BLOCK_SIZE = n := by
  rw [Nat.mul_comm]
  exact Nat.div_add_mod _ _

theorem mod_lt (n : ℕ) : n % e.BLOCK_SIZE < e.BLOCK_SIZE := Nat.mod_lt _ e.BLOCK_SIZE_pos

/-! ### Reading what was written -/

namespace Memory

variable {m : Memory α} {b c i r n : ℕ} {v : Option α}

@[simp] theorem elements_setElement_self : (m.setElement b i v).elements b i = v := by
  simp [setElement]

theorem elements_setElement_of_ne (h : c ≠ b ∨ r ≠ i) :
    (m.setElement b i v).elements c r = m.elements c r := by
  unfold setElement
  rcases eq_or_ne c b with rfl | hc
  · rcases h with h | h
    · exact absurd rfl h
    · simp [update_of_ne h]
  · simp [update_of_ne hc]

@[simp] theorem completely_setCompletelyDequeued_self :
    (m.setCompletelyDequeued b n).elementsCompletelyDequeued b = n := by
  simp [setCompletelyDequeued]

theorem completely_setCompletelyDequeued_of_ne (h : c ≠ b) :
    (m.setCompletelyDequeued b n).elementsCompletelyDequeued c =
      m.elementsCompletelyDequeued c := by
  simp [setCompletelyDequeued, update_of_ne h]

theorem elements_addBlockToFreeList (m : Memory α) (b : ℕ) :
    (m.addBlockToFreeList e b).elements = m.elements := by
  unfold addBlockToFreeList
  split <;> rfl

theorem completely_addBlockToFreeList (m : Memory α) (b : ℕ) :
    (m.addBlockToFreeList e b).elementsCompletelyDequeued = m.elementsCompletelyDequeued := by
  unfold addBlockToFreeList
  split <;> rfl

end Memory

/-! ### The stock -/

namespace Stock

variable {m m' : Memory α} {place place' : ℕ → Place ι} {j : ι} {tail done : ℕ} {S M : Finset ℕ}
  {tailBlock : Option ℕ} {constructed : List (ℕ × α)}

/-- Only the blocks of this producer matter. -/
theorem congr (hs : Stock e m place j tail S M tailBlock constructed done)
    (hp : ∀ b k, place' b = .slot j k ↔ place b = .slot j k)
    (hm : ∀ b k, place b = .slot j k →
      m'.elementsCompletelyDequeued b = m.elementsCompletelyDequeued b ∧
        m'.elements b = m.elements b) :
    Stock e m' place' j tail S M tailBlock constructed done where
  live n hn hlt := by
    obtain ⟨b, hb⟩ := hs.live n hn hlt
    exact ⟨b, (hp b _).mpr hb⟩
  marks b k hb := by
    rw [(hm b k ((hp b k).mp hb)).1]
    exact hs.marks b k ((hp b k).mp hb)
  elements b k hb r hr := by
    rw [(hm b k ((hp b k).mp hb)).2]
    exact hs.elements b k ((hp b k).mp hb) r hr
  home n b v hv hn := (hp b _).mpr (hs.home n b v hv hn)
  tailBlock ht := by
    obtain ⟨b, hb, hplace⟩ := hs.tailBlock ht
    exact ⟨b, hb, (hp b _).mpr hplace⟩
  count := hs.count

/-- Slots of one block are marked empty. -/
theorem mark (hs : Stock e m place j tail S M tailBlock constructed done) {b k : ℕ}
    (hb : place b = .slot j k) (hunique : ∀ c, place c = .slot j k → c = b) {R : Finset ℕ}
    (hR : ∀ n ∈ R, n / e.BLOCK_SIZE = k) (hdisj : Disjoint S R) :
    Stock e (m.setCompletelyDequeued b (m.elementsCompletelyDequeued b + R.card)) place j tail
      (S ∪ R) M tailBlock constructed done where
  live n hn hlt := hs.live n (fun hmem => hn (Finset.mem_union_left _ hmem)) hlt
  marks c l hc := by
    rw [Finset.filter_union]
    rcases eq_or_ne l k with rfl | hl
    · obtain rfl := hunique c hc
      have hall : R.filter (· / e.BLOCK_SIZE = l) = R := Finset.filter_true_of_mem hR
      rw [Memory.completely_setCompletelyDequeued_self, hall, Finset.card_union_of_disjoint,
        hs.marks c l hc]
      exact Finset.disjoint_of_subset_left (Finset.filter_subset _ _) hdisj
    · have hnone : R.filter (· / e.BLOCK_SIZE = l) = ∅ :=
        Finset.filter_false_of_mem fun n hn heq => hl (heq.symm.trans (hR n hn))
      have hcb : c ≠ b := by
        rintro rfl
        rw [hb] at hc
        exact hl (by injection hc with _ h; exact h.symm)
      rw [Memory.completely_setCompletelyDequeued_of_ne hcb, hnone, Finset.union_empty]
      exact hs.marks c l hc
  elements := hs.elements
  home n c v hv hn := hs.home n c v hv fun hmem => hn (Finset.mem_union_left _ hmem)
  tailBlock := hs.tailBlock
  count := hs.count

/-- The element at index `i` is moved out. -/
theorem move (hs : Stock e m place j tail S M tailBlock constructed done) {b i : ℕ}
    (hb : place b = .slot j (i / e.BLOCK_SIZE))
    (hunique : ∀ c, place c = .slot j (i / e.BLOCK_SIZE) → c = b) :
    Stock e (m.setElement b (i % e.BLOCK_SIZE) none) place j tail S (insert i M) tailBlock
      constructed done where
  live := hs.live
  marks := hs.marks
  elements c k hc r hr := by
    by_cases hi : k * e.BLOCK_SIZE + r = i
    · have hk : k = i / e.BLOCK_SIZE := by rw [← hi, mul_add_div hr]
      have hr' : i % e.BLOCK_SIZE = r := by rw [← hi, mul_add_mod_of_lt hr]
      subst hk
      obtain rfl := hunique c hc
      rw [hr', Memory.elements_setElement_self, if_pos]
      rw [hi]
      exact Finset.mem_insert_self ..
    · rw [Memory.elements_setElement_of_ne, hs.elements c k hc r hr]
      · simp only [Finset.mem_insert, hi, false_or]
      · by_contra hno
        push Not at hno
        obtain ⟨rfl, rfl⟩ := hno
        rw [hb] at hc
        injection hc with _ hk
        rw [← hk] at hi
        exact hi (div_mul_add_mod i)
  home := hs.home
  tailBlock := hs.tailBlock
  count := hs.count

/-- A block without anything live is taken away. -/
theorem drop (hs : Stock e m place j tail S M tailBlock constructed done) {b k : ℕ}
    (hb : place b = .slot j k) {y : Place ι}
    (hunmarked : ∀ n, n / e.BLOCK_SIZE = k → n ∉ S →
      tail ≤ k * e.BLOCK_SIZE ∧ constructed.length ≤ k * e.BLOCK_SIZE)
    (htail : tail ∉ S) (hy : ∀ l, y ≠ .slot j l) :
    Stock e m (update place b y) j tail S M tailBlock constructed done := by
  have hother : ∀ c l, l ≠ k → place c = .slot j l → update place b y c = .slot j l := by
    intro c l hl hc
    rw [update_of_ne, hc]
    rintro rfl
    rw [hb] at hc
    exact hl (by injection hc with _ h; exact h.symm)
  have hback : ∀ c l, update place b y c = .slot j l → place c = .slot j l := by
    intro c l hc
    rcases eq_or_ne c b with rfl | hcb
    · rw [update_self] at hc
      exact absurd hc (hy l)
    · rwa [update_of_ne hcb] at hc
  refine ⟨fun n hn hlt => ?_, fun c l hc => hs.marks c l (hback c l hc),
    fun c l hc => hs.elements c l (hback c l hc), fun n c v hv hn => ?_, fun ht => ?_, hs.count⟩
  · obtain ⟨c, hc⟩ := hs.live n hn hlt
    refine ⟨c, hother c _ (fun heq => ?_) hc⟩
    have := (hunmarked n heq hn).1
    rw [heq, lt_blocksBelow] at hlt
    omega
  · refine hother c _ (fun heq => ?_) (hs.home n c v hv hn)
    have hlen := (hunmarked n heq hn).2
    have hlt := (List.getElem?_eq_some_iff.mp hv).1
    have := div_mul_le (e := e) n
    rw [heq] at this
    omega
  · obtain ⟨c, hc, hplace⟩ := hs.tailBlock ht
    refine ⟨c, hc, hother c _ (fun heq => ?_) hplace⟩
    have hle := (hunmarked tail heq htail).1
    have hsum := div_mul_add_mod (e := e) tail
    rw [heq] at hsum
    omega

/-- A block is added for number `k`. -/
theorem add (hs : Stock e m place j tail S M tailBlock constructed done) {b k : ℕ}
    (hb : ∀ l, place b ≠ .slot j l) (hzero : m.elementsCompletelyDequeued b = 0)
    (hvacant : ∀ r < e.BLOCK_SIZE, m.elements b r = none)
    (hS : ∀ n ∈ S, n < k * e.BLOCK_SIZE) (hlen : constructed.length ≤ k * e.BLOCK_SIZE) :
    Stock e m (update place b (.slot j k)) j tail S M tailBlock constructed done := by
  have hkeep : ∀ c l, place c = .slot j l →
      update place b (.slot j k) c = .slot j l := by
    intro c l hc
    rw [update_of_ne, hc]
    rintro rfl
    exact hb l hc
  have hback : ∀ c l, update place b (.slot j k) c = .slot j l →
      (c = b ∧ l = k) ∨ place c = .slot j l := by
    intro c l hc
    rcases eq_or_ne c b with rfl | hcb
    · rw [update_self] at hc
      exact .inl ⟨rfl, by injection hc with _ h; exact h.symm⟩
    · exact .inr (by rwa [update_of_ne hcb] at hc)
  refine ⟨fun n hn hlt => ?_, fun c l hc => ?_, fun c l hc r hr => ?_,
    fun n c v hv hn => hkeep c _ (hs.home n c v hv hn), fun ht => ?_, hs.count⟩
  · obtain ⟨c, hc⟩ := hs.live n hn hlt
    exact ⟨c, hkeep c _ hc⟩
  · rcases hback c l hc with ⟨rfl, rfl⟩ | hc
    · rw [hzero, Finset.filter_false_of_mem, Finset.card_empty]
      intro n hn heq
      have := hS n hn
      have := div_mul_le (e := e) n
      rw [heq] at this
      omega
    · exact hs.marks c l hc
  · rcases hback c l hc with ⟨rfl, rfl⟩ | hc
    · rw [hvacant r hr, List.getElem?_eq_none (by omega)]
      simp
    · exact hs.elements c l hc r hr
  · obtain ⟨c, hc, hplace⟩ := hs.tailBlock ht
    exact ⟨c, hc, hkeep c _ hplace⟩

/-- The next element is constructed. -/
theorem construct (hs : Stock e m place j tail S M tailBlock constructed done) {b : ℕ} {v : α}
    (hb : place b = .slot j ((tail + done) / e.BLOCK_SIZE))
    (hunique : ∀ c, place c = .slot j ((tail + done) / e.BLOCK_SIZE) → c = b)
    (hM : ∀ n ∈ M, n < tail) :
    Stock e (m.setElement b ((tail + done) % e.BLOCK_SIZE) (some v)) place j tail S M tailBlock
      (constructed ++ [(b, v)]) (done + 1) where
  live := hs.live
  marks := hs.marks
  elements c k hc r hr := by
    have hcount := hs.count
    by_cases hi : k * e.BLOCK_SIZE + r = tail + done
    · have hk : k = (tail + done) / e.BLOCK_SIZE := by rw [← hi, mul_add_div hr]
      have hr' : (tail + done) % e.BLOCK_SIZE = r := by rw [← hi, mul_add_mod_of_lt hr]
      subst hk
      obtain rfl := hunique c hc
      have hnot : tail + done ∉ M := fun hmem => by
        have := hM _ hmem
        omega
      rw [hr', Memory.elements_setElement_self, hi, if_neg hnot, ← hcount,
        List.getElem?_concat_length]
      rfl
    · have hlist : (constructed ++ [(b, v)])[k * e.BLOCK_SIZE + r]? =
          constructed[k * e.BLOCK_SIZE + r]? := by
        rcases Nat.lt_or_ge (k * e.BLOCK_SIZE + r) constructed.length with hlt | hge
        · rw [List.getElem?_append_left hlt]
        · rw [List.getElem?_eq_none hge, List.getElem?_eq_none]
          rw [List.length_append, List.length_singleton]
          omega
      rw [hlist, Memory.elements_setElement_of_ne, hs.elements c k hc r hr]
      by_contra hno
      push Not at hno
      obtain ⟨rfl, rfl⟩ := hno
      rw [hb] at hc
      injection hc with _ hk
      rw [← hk] at hi
      exact hi (div_mul_add_mod _)
  home n c w hw hn := by
    rcases Nat.lt_or_ge n constructed.length with hlt | hge
    · rw [List.getElem?_append_left hlt] at hw
      exact hs.home n c w hw hn
    · have hlt := (List.getElem?_eq_some_iff.mp hw).1
      rw [List.length_append, List.length_singleton] at hlt
      obtain rfl : n = constructed.length := by omega
      rw [List.getElem?_concat_length] at hw
      cases hw
      rw [hs.count]
      exact hb
  tailBlock := hs.tailBlock
  count := by
    rw [List.length_append, List.length_singleton, hs.count]
    omega

/-- The elements of a call are published. -/
theorem publish (hs : Stock e m place j tail S M tailBlock constructed done) {tailBlock' : Option ℕ}
    (hlive : ∀ k, blocksBelow e tail ≤ k → k < blocksBelow e (tail + done) →
      ∃ b, place b = .slot j k)
    (htail : (tail + done) % e.BLOCK_SIZE ≠ 0 →
      ∃ b, tailBlock' = some b ∧ place b = .slot j ((tail + done) / e.BLOCK_SIZE)) :
    Stock e m place j (tail + done) S M tailBlock' constructed 0 where
  live n hn hlt := by
    rcases Nat.lt_or_ge (n / e.BLOCK_SIZE) (blocksBelow e tail) with hold | hnew
    · exact hs.live n hn hold
    · exact hlive _ hnew hlt
  marks := hs.marks
  elements := hs.elements
  home := hs.home
  tailBlock := htail
  count := hs.count

end Stock

/-! ### Delivery -/

namespace Delivery

variable {M : Finset ℕ} {constructed delivered : List (ℕ × α)}

theorem move (hd : Delivery M constructed delivered) {i : ℕ} {v : α} (hi : i ∉ M)
    (hv : (constructed[i]?).map Prod.snd = some v) :
    Delivery (insert i M) constructed ((i, v) :: delivered) where
  moved n := by
    rw [Finset.mem_insert, hd.moved n]
    simp only [List.mem_cons, Prod.mk.injEq]
    constructor
    · rintro (rfl | ⟨w, hw⟩)
      · exact ⟨v, .inl ⟨rfl, rfl⟩⟩
      · exact ⟨w, .inr hw⟩
    · rintro ⟨w, ⟨rfl, -⟩ | hw⟩
      · exact .inl rfl
      · exact .inr ⟨w, hw⟩
  once := by
    rw [List.map_cons, List.nodup_cons]
    refine ⟨fun hmem => hi ?_, hd.once⟩
    obtain ⟨⟨n, w⟩, hw, rfl⟩ := List.mem_map.mp hmem
    exact (hd.moved n).mpr ⟨w, hw⟩
  right n w hw := by
    rcases List.mem_cons.mp hw with heq | hw
    · cases heq
      exact hv
    · exact hd.right n w hw

theorem construct (hd : Delivery M constructed delivered) (y : ℕ × α) :
    Delivery M (constructed ++ [y]) delivered where
  moved := hd.moved
  once := hd.once
  right n v hv := by
    have hold := hd.right n v hv
    obtain ⟨z, hz, -⟩ := Option.map_eq_some_iff.mp hold
    rw [List.getElem?_append_left (List.getElem?_eq_some_iff.mp hz).1]
    exact hold

end Delivery

end ConcurrentQueue.ImplicitRace
