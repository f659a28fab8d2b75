import ConcurrentQueue.Lib.Fuel
import ConcurrentQueue.Search

/-!
# ConcurrentQueue.SearchSound

**A search on a quiescent queue finds an element if there is one.** `Valid q l c`
says that the producers of the queue are the list `l`, none of them in use, and
that producer `p` holds the elements `c p`. Each method that takes one element
comes back with what `Found` allows.

The loops share one invariant: every producer that is not on the rest of the walk
is empty. At the end of the walk there is no rest.
-/

namespace ConcurrentQueue.Search

open Function Linked Fuel

variable {α : Type} {w : Nat}

/-! ### Sub-queues at rest -/

theorem circularLessThan_add (hw : 0 < w) (x : BitVec w) {k : Nat} (hk : k < 2 ^ (w - 1)) :
    circularLessThan x (x + BitVec.ofNat w k) = true ↔ 0 < k := by
  have hpow := Wrap.two_pow_eq hw
  have hx : x = BitVec.ofNat w x.toNat := by simp
  rw [hx, ← BitVec.ofNat_add, circularLessThan_ofNat hw (by omega) (by omega)]
  omega

namespace SubQueue

/-- No call is under way and the sub-queue holds the elements `l`. -/
structure Quiescent (s : SubQueue w α) (l : List α) : Prop where
  elements : s.elements = l
  tail : s.tailIndex = s.headIndex + BitVec.ofNat w l.length
  count : s.dequeueOptimisticCount = s.headIndex + s.dequeueOvercommit
  short : l.length < 2 ^ (w - 1)

variable {s : SubQueue w α} {l : List α}

theorem Quiescent.length_lt (h : s.Quiescent l) : l.length < 2 ^ w :=
  h.short.trans_le (Nat.pow_le_pow_right (by omega) (Nat.sub_le w 1))

theorem Quiescent.free (h : s.Quiescent l) :
    s.dequeueOptimisticCount - s.dequeueOvercommit = s.headIndex := by
  rw [h.count, BitVec.add_sub_cancel]

theorem Quiescent.desired (h : s.Quiescent l) :
    s.tailIndex - (s.dequeueOptimisticCount - s.dequeueOvercommit) = BitVec.ofNat w l.length := by
  rw [h.free, h.tail, BitVec.add_comm, BitVec.add_sub_cancel]

theorem Quiescent.sizeApprox (hw : 0 < w) (h : s.Quiescent l) :
    s.sizeApprox = BitVec.ofNat w l.length := by
  rw [SubQueue.sizeApprox, h.tail]
  split
  · rw [BitVec.add_comm, BitVec.add_sub_cancel]
  · rename_i hless
    rw [circularLessThan_add hw _ h.short] at hless
    rw [Nat.eq_zero_of_not_pos hless]
    rfl

/-- Taking `n` elements leaves the sub-queue at rest. -/
theorem Quiescent.take (h : s.Quiescent l) {n : Nat} (hn : n ≤ l.length)
    (count : BitVec w) (hcount : count = s.dequeueOptimisticCount + BitVec.ofNat w n) :
    ∃ s', ({ s with dequeueOptimisticCount := count }).take (BitVec.ofNat w n) =
      some (s', l.take n) ∧ s'.Quiescent (l.drop n) := by
  have hlt := h.length_lt
  have hnat : (BitVec.ofNat w n).toNat = n := by
    rw [BitVec.toNat_ofNat, Nat.mod_eq_of_lt (by omega)]
  refine ⟨{ s with
      headIndex := s.headIndex + BitVec.ofNat w n
      dequeueOptimisticCount := count
      elements := l.drop n }, ?_, rfl, ?_, ?_, ?_⟩
  · rw [SubQueue.take, hnat, h.elements, if_pos hn]
  · show s.tailIndex = s.headIndex + BitVec.ofNat w n + _
    rw [h.tail, BitVec.add_assoc, ← BitVec.ofNat_add, List.length_drop, Nat.add_sub_cancel' hn]
  · show count = s.headIndex + BitVec.ofNat w n + s.dequeueOvercommit
    rw [hcount, h.count, BitVec.add_assoc, BitVec.add_assoc,
      BitVec.add_comm (BitVec.ofNat w n) s.dequeueOvercommit]
  · have := h.short
    rw [List.length_drop]
    omega

theorem Quiescent.dequeue_nil (hw : 0 < w) (h : s.Quiescent []) (throws : Bool) :
    s.dequeue throws = some (s, .returned 0 []) := by
  have hless : ¬ circularLessThan s.headIndex s.tailIndex = true := by
    rw [h.tail, circularLessThan_add hw _ h.short]
    exact Nat.lt_irrefl 0
  rw [dequeue, h.free, if_neg hless]

end SubQueue

/-- What comes of taking the element `x`. -/
def taken (throws : Bool) (x : α) : Popped α := if throws then .threw [] else .returned 1 [x]

namespace SubQueue

variable {s : SubQueue w α} {l : List α}

theorem Quiescent.dequeue_cons (hw : 0 < w) {x : α} (h : s.Quiescent (x :: l)) (throws : Bool) :
    ∃ s', s.dequeue throws = some (s', taken throws x) ∧ s'.Quiescent l := by
  have hless : circularLessThan s.headIndex s.tailIndex = true := by
    rw [h.tail, circularLessThan_add hw _ h.short]
    exact Nat.succ_pos _
  obtain ⟨s', htake, hs'⟩ := h.take (n := 1) (Nat.succ_pos _) _ rfl
  refine ⟨s', ?_, hs'⟩
  simp only [dequeue, h.free, if_pos hless, htake, Option.bind_eq_bind, Option.bind_some]
  rfl

theorem toNat_smaller (x y : BitVec w) : (if x < y then x else y).toNat = min x.toNat y.toNat := by
  split
  case isTrue h => exact (Nat.min_eq_left (BitVec.lt_def.mp h).le).symm
  case isFalse h => exact (Nat.min_eq_right (Nat.le_of_not_lt h)).symm

theorem takeRange_eq {intBits : Nat} {n : BitVec w} (h : RangeEnds intBits s.headIndex n) :
    s.takeRange intBits n = s.take n := by
  rw [takeRange, h.atRangeEnd_eq, if_pos (decide_eq_true rfl)]

theorem takeRange_eq_none {intBits : Nat} {n : BitVec w} (h : ¬ RangeEnds intBits s.headIndex n) :
    s.takeRange intBits n = none := by
  rw [takeRange, atRangeEnd_eq_false h]
  rfl

/-- A bulk call takes its elements from the front if its loop ends, and does not come
back otherwise. -/
theorem Quiescent.dequeueBulk (hw : 0 < w) (h : s.Quiescent l) (intBits : Nat) (max : BitVec w)
    (throwsAt : Option Nat) :
    (RangeEnds intBits s.headIndex (BitVec.ofNat w (min max.toNat l.length)) ∧
      ∃ s', s.dequeueBulk intBits max throwsAt =
          some (s', Popped.ofList throwsAt (min max.toNat l.length) l) ∧
        s'.Quiescent (l.drop (min max.toNat l.length))) ∨
    (¬ RangeEnds intBits s.headIndex (BitVec.ofNat w (min max.toNat l.length)) ∧
      s.dequeueBulk intBits max throwsAt = none) := by
  have hlt := h.length_lt
  have hless : circularLessThan 0#w (BitVec.ofNat w l.length) = true ↔ 0 < l.length := by
    have := circularLessThan_add hw 0#w h.short
    rwa [BitVec.zero_add] at this
  simp only [SubQueue.dequeueBulk, h.desired]
  by_cases hpos : 0 < l.length
  · have hdesired : (if BitVec.ofNat w l.length < max then BitVec.ofNat w l.length else max) =
        BitVec.ofNat w (min max.toNat l.length) := by
      apply BitVec.eq_of_toNat_eq
      rw [toNat_smaller, BitVec.toNat_ofNat, BitVec.toNat_ofNat, Nat.mod_eq_of_lt hlt,
        Nat.mod_eq_of_lt (by omega), Nat.min_comm]
    have hle : min max.toNat l.length ≤ l.length := Nat.min_le_right ..
    generalize min max.toNat l.length = n at hdesired hle ⊢
    have hnat : (BitVec.ofNat w n).toNat = n := by
      rw [BitVec.toNat_ofNat, Nat.mod_eq_of_lt (by omega)]
    have hactual : (if BitVec.ofNat w n < BitVec.ofNat w l.length then BitVec.ofNat w n
        else BitVec.ofNat w l.length) = BitVec.ofNat w n := by
      apply BitVec.eq_of_toNat_eq
      rw [toNat_smaller, hnat, BitVec.toNat_ofNat, Nat.mod_eq_of_lt hlt, Nat.min_eq_left hle]
    simp only [if_pos (hless.mpr hpos), hdesired, hactual, BitVec.lt_irrefl, if_false]
    by_cases hends : RangeEnds intBits s.headIndex (BitVec.ofNat w n)
    · obtain ⟨s', htake, hs'⟩ := h.take hle _ rfl
      refine .inl ⟨hends, s', ?_, hs'⟩
      rw [takeRange_eq (by exact hends), htake, Option.bind_eq_bind, Option.bind_some, hnat,
        Popped.ofList_take]
    · refine .inr ⟨hends, ?_⟩
      rw [takeRange_eq_none (by exact hends), Option.bind_eq_bind, Option.bind_none]
  · have hnil : l = [] := List.eq_nil_of_length_eq_zero (Nat.eq_zero_of_not_pos hpos)
    rw [if_neg (mt hless.mp hpos)]
    subst hnil
    rw [List.length_nil, Nat.min_zero]
    refine .inl ⟨.of_zero, s, ?_, h⟩
    rw [Popped.ofList_quiet fun j hj => absurd hj (Nat.not_lt_zero j)]
    rfl

end SubQueue

/-! ### Queues at rest -/

/-- The producers of the queue are `l`, and producer `p` is at rest with the
elements `c p`. -/
structure Valid (q : Queue w α) (l : List Nat) (c : Nat → List α) : Prop where
  list : IsList q.next q.producerListTail l
  quiescent : ∀ p ∈ l, (q.producer p).Quiescent (c p)
  count : q.producerCount = BitVec.ofNat 32 l.length

/-- What a method that takes one element may do. It finds all producers empty, or it
takes the oldest element of one producer and leaves the others as they are. -/
inductive Found (throws : Bool) (q : Queue w α) (l : List Nat) (c : Nat → List α) :
    Queue w α → Popped α → Prop
  | empty : (∀ p ∈ l, c p = []) → Found throws q l c q (.returned 0 [])
  | took {p : Nat} {x : α} {xs : List α} {q' : Queue w α} : p ∈ l → c p = x :: xs →
      Valid q' l (update c p xs) → (∀ p' ≠ p, q'.producer p' = q.producer p') →
      Found throws q l c q' (taken throws x)

variable {q : Queue w α} {l : List Nat} {c : Nat → List α} (throws : Bool)

theorem Valid.put (h : Valid q l c) {p : Nat} {s : SubQueue w α} {xs : List α}
    (hs : s.Quiescent xs) :
    Valid { q with producer := update q.producer p s } l (update c p xs) where
  list := h.list
  count := h.count
  quiescent := by
    intro p' hp'
    show (update q.producer p s p').Quiescent _
    rcases eq_or_ne p' p with rfl | hne
    · rw [update_self, update_self]
      exact hs
    · rw [update_of_ne hne, update_of_ne hne]
      exact h.quiescent p' hp'

theorem Valid.dequeueFrom_nil (hw : 0 < w) (h : Valid q l c) {p : Nat} (hp : p ∈ l)
    (hnil : c p = []) : q.dequeueFrom p throws = some (q, .returned 0 []) := by
  have hs := h.quiescent p hp
  rw [hnil] at hs
  rw [Queue.dequeueFrom, hs.dequeue_nil hw throws]
  show some (({ q with producer := _ } : Queue w α), _) = _
  rw [update_eq_self]

theorem Valid.dequeueFrom_cons (hw : 0 < w) (h : Valid q l c) {p : Nat} {x : α} {xs : List α}
    (hp : p ∈ l) (hcons : c p = x :: xs) :
    ∃ q', q.dequeueFrom p throws = some (q', taken throws x) ∧
      Found throws q l c q' (taken throws x) := by
  have hs := h.quiescent p hp
  rw [hcons] at hs
  obtain ⟨s', hdequeue, hs'⟩ := hs.dequeue_cons hw throws
  refine ⟨{ q with producer := update q.producer p s' }, ?_,
    .took hp hcons (h.put hs') fun p' hne => update_of_ne hne ..⟩
  rw [Queue.dequeueFrom, hdequeue]
  rfl

/-! ### Walks without a token -/

/-- Everything off the walk is empty. -/
def EmptyOff (l rest : List Nat) (c : Nat → List α) : Prop := ∀ p ∈ l, p ∉ rest → c p = []

theorem EmptyOff.start : EmptyOff l l c := fun _ hp hnot => absurd hp hnot

theorem EmptyOff.skip {p : Nat} {rest : List Nat} (h : EmptyOff l (p :: rest) c)
    (hnil : c p = []) : EmptyOff l rest c := by
  intro p' hp' hnot
  rcases eq_or_ne p' p with rfl | hne
  · exact hnil
  · exact h p' hp' (List.not_mem_cons_of_ne_of_not_mem hne hnot)

theorem Valid.scan (hw : 0 < w) (h : Valid q l c) {rest : List Nat} {ptr : Option Nat}
    (hwalk : IsList q.next ptr rest) (hsub : rest ⊆ l) (hoff : EmptyOff l rest c) :
    ∃ q' r, Found throws q l c q' r ∧
      Returns (fun fuel => Queue.scan none throws fuel ptr q) (q', r) := by
  induction rest generalizing ptr with
  | nil =>
      refine ⟨q, .returned 0 [], .empty fun p hp => hoff p hp List.not_mem_nil,
        .of_succ fun fuel => ?_⟩
      rw [isList_nil.mp hwalk]
      rfl
  | cons p rest ih =>
      obtain ⟨rfl, hrest⟩ := isList_cons.mp hwalk
      have hp : p ∈ l := hsub List.mem_cons_self
      have hsub' : rest ⊆ l := fun p' hp' => hsub (List.mem_cons_of_mem p hp')
      cases hc : c p with
      | nil =>
          obtain ⟨q', r, hfound, hreturns⟩ := ih hrest hsub' (hoff.skip hc)
          refine ⟨q', r, hfound, hreturns.step fun fuel => ?_⟩
          rw [Queue.scan, if_neg (by simp), h.dequeueFrom_nil throws hw hp hc]
          rfl
      | cons x xs =>
          obtain ⟨q', hdequeue, hfound⟩ := h.dequeueFrom_cons throws hw hp hc
          refine ⟨q', _, hfound, .of_succ fun fuel => ?_⟩
          rw [Queue.scan, if_neg (by simp), hdequeue]
          cases throws <;> rfl

theorem Valid.tryDequeueNonInterleaved (hw : 0 < w) (h : Valid q l c) :
    ∃ q' r, Found throws q l c q' r ∧ Returns (q.tryDequeueNonInterleaved throws) (q', r) :=
  h.scan throws hw h.list (List.Subset.refl l) .start

/-! ### The best of three -/

/-- The best producer of a score is one of `l` that has elements, and a score
without one has not met any. -/
def Sensible (l : List Nat) (c : Nat → List α) (sc : Queue.Score w) : Prop :=
  (sc.nonEmptyCount = 0 ∧ sc.bestSize = 0) ∨
    0 < sc.nonEmptyCount ∧ ∃ p ∈ l, sc.best = some p ∧ c p ≠ []

omit throws in
theorem Sensible.meet {sc : Queue.Score w} (h : Sensible l c sc) {p : Nat} {size : BitVec w}
    (hp : p ∈ l) (hsize : 0 < size ↔ c p ≠ []) : Sensible l c (sc.meet p size) := by
  rw [Queue.Score.meet]
  split
  · rename_i hpos
    refine .inr ⟨Nat.succ_pos _, ?_⟩
    by_cases hbetter : sc.bestSize < size
    · rw [if_pos hbetter]
      exact ⟨p, hp, rfl, hsize.mp hpos⟩
    · rw [if_neg hbetter]
      rcases h with ⟨-, hzero⟩ | ⟨-, hbest⟩
      · exact absurd (hzero ▸ hpos) hbetter
      · exact hbest
  · exact h

omit throws in
theorem Sensible.meet_none {sc : Queue.Score w} {p : Nat} {size : BitVec w}
    (hsize : 0 < size ↔ c p ≠ []) (hzero : (sc.meet p size).nonEmptyCount = 0) :
    sc.nonEmptyCount = 0 ∧ c p = [] := by
  rw [Queue.Score.meet] at hzero
  split at hzero
  · exact absurd hzero (Nat.succ_ne_zero _)
  · rename_i hpos
    exact ⟨hzero, not_not.mp (mt hsize.mpr hpos)⟩

omit throws in
theorem Valid.size_pos (hw : 0 < w) (h : Valid q l c) {p : Nat} (hp : p ∈ l) :
    0 < (q.producer p).sizeApprox ↔ c p ≠ [] := by
  have hs := h.quiescent p hp
  rw [hs.sizeApprox hw, BitVec.lt_def, BitVec.toNat_ofNat, Nat.mod_eq_of_lt hs.length_lt]
  exact List.length_pos_iff

/-- The scoring loop ends with a sensible score, and without a best producer only
where all of them are empty. -/
theorem Valid.score (hw : 0 < w) (h : Valid q l c) {rest : List Nat} {ptr : Option Nat}
    {sc : Queue.Score w} (hwalk : IsList q.next ptr rest) (hsub : rest ⊆ l)
    (hsc : Sensible l c sc) (hoff : sc.nonEmptyCount = 0 → EmptyOff l rest c) :
    ∃ sc', Sensible l c sc' ∧ (sc'.nonEmptyCount = 0 → ∀ p ∈ l, c p = []) ∧
      Returns (fun fuel => q.score fuel ptr sc) sc' := by
  induction rest generalizing ptr sc with
  | nil =>
      refine ⟨sc, hsc, fun hzero p hp => hoff hzero p hp List.not_mem_nil,
        .of_succ fun fuel => ?_⟩
      rw [isList_nil.mp hwalk]
      rfl
  | cons p rest ih =>
      obtain ⟨rfl, hrest⟩ := isList_cons.mp hwalk
      have hp : p ∈ l := hsub List.mem_cons_self
      have hsub' : rest ⊆ l := fun p' hp' => hsub (List.mem_cons_of_mem p hp')
      by_cases hmore : sc.nonEmptyCount < 3
      · have hsize := h.size_pos hw hp
        obtain ⟨sc', hsc', hnone, hreturns⟩ := ih hrest hsub' (hsc.meet hp hsize) fun hzero =>
          (hoff (Sensible.meet_none hsize hzero).1).skip (Sensible.meet_none hsize hzero).2
        refine ⟨sc', hsc', hnone, hreturns.step fun fuel => ?_⟩
        rw [Queue.score, if_pos hmore]
      · refine ⟨sc, hsc, fun hzero => absurd hzero (by omega), .of_succ fun fuel => ?_⟩
        rw [Queue.score, if_neg hmore]

theorem Valid.tryDequeue (hw : 0 < w) (h : Valid q l c) :
    ∃ q' r, Found throws q l c q' r ∧ Returns (q.tryDequeue throws) (q', r) := by
  have hfirst : Sensible (w := w) l c ⟨0, none, 0⟩ := .inl ⟨rfl, rfl⟩
  obtain ⟨sc, hsc, hnone, hscore⟩ :=
    h.score hw h.list (List.Subset.refl l) hfirst fun _ => .start
  rcases hsc with ⟨hzero, -⟩ | ⟨hpos, p, hp, hbest, hne⟩
  · refine ⟨q, _, .empty (hnone hzero), hscore.imp fun fuel hscore => ?_⟩
    rw [Queue.tryDequeue, hscore]
    exact if_neg (by omega)
  · obtain ⟨x, xs, hcons⟩ := List.exists_cons_of_ne_nil hne
    obtain ⟨q', hdequeue, hfound⟩ := h.dequeueFrom_cons throws hw hp hcons
    refine ⟨q', _, hfound, hscore.imp fun fuel hscore => ?_⟩
    rw [Queue.tryDequeue, hscore]
    simp only [if_pos hpos, hbest, hdequeue]
    cases throws <;> rfl

/-! ### Tokens -/

/-- The token has taken its place at the producer `p`. -/
def Placed (l : List Nat) (token : ConsumerToken) (p : Nat) : Prop :=
  p ∈ l ∧ token.currentProducer = some p ∧ ∃ d ∈ l, token.desiredProducer = some d

/-- The states of a token of a queue with the producers `l`. -/
def TokenOf (l : List Nat) (token : ConsumerToken) : Prop :=
  token.desiredProducer = none ∨ ∃ p, Placed l token p

omit throws

theorem Valid.rotate (h : Valid q l c) {p : Nat} (hp : p ∈ l) (n : Nat) :
    ∃ p' ∈ l, q.rotate n (some p) = some (some p') := by
  induction n generalizing p with
  | zero => exact ⟨p, hp, rfl⟩
  | succ n ih =>
      obtain ⟨m, hm, hnext⟩ := h.list.around_mem hp
      obtain ⟨p', hp', hrotate⟩ := ih hm
      refine ⟨p', hp', ?_⟩
      rw [Queue.rotate, Queue.nextOrTail, hnext]
      exact hrotate

theorem Valid.head (h : Valid q l c) (hne : l ≠ []) : ∃ p ∈ l, q.producerListTail = some p := by
  obtain ⟨p, rest, rfl⟩ := List.exists_cons_of_ne_nil hne
  exact ⟨p, List.mem_cons_self, (isList_cons.mp h.list).1⟩

theorem remainder_eq {x y : BitVec 32} (hy : y ≠ 0) : Queue.remainder x y = some (x % y) :=
  if_neg hy

/-- A token finds its place, however far the others have rotated. -/
theorem Valid.updateCurrentProducerAfterRotation (h : Valid q l c) {token : ConsumerToken}
    (ht : TokenOf l token) (hne : l ≠ []) (hcount : q.producerCount ≠ 0) :
    ∃ token' p, q.updateCurrentProducerAfterRotation token = some (some token') ∧
      Placed l token' p := by
  obtain ⟨tail, htail, htaileq⟩ := h.head hne
  have hdesired : ∃ d ∈ l, q.place token = some (some d) := by
    rw [Queue.place]
    rcases ht with hnone | ⟨-, -, -, d, hd, hsome⟩
    · rw [if_pos hnone, remainder_eq hcount, htaileq]
      exact h.rotate htail _
    · rw [hsome]
      exact ⟨d, hd, rfl⟩
  obtain ⟨d, hd, hdesired⟩ := hdesired
  have hdelta : ∃ delta, q.rotation token = some delta := by
    rw [Queue.rotation]
    split
    · exact ⟨_, remainder_eq hcount⟩
    · exact ⟨_, rfl⟩
  obtain ⟨delta, hdelta⟩ := hdelta
  obtain ⟨p, hp, hrotate⟩ := h.rotate hd delta.toNat
  refine ⟨{ token with
      desiredProducer := some p
      lastKnownGlobalOffset := q.globalExplicitConsumerOffset
      currentProducer := some p
      itemsConsumedFromCurrent := 0 }, p, ?_, hp, rfl, p, hp, rfl⟩
  rw [Queue.updateCurrentProducerAfterRotation, if_neg (by rw [htaileq]; simp), hdesired, hdelta]
  simp only [hrotate, Option.bind_eq_bind, Option.bind_some]

/-- The beginning of the methods with a token: there is no producer, or the token is
in its place. -/
theorem Valid.prepare (h : Valid q l c) {token : ConsumerToken} (ht : TokenOf l token)
    (hcount : q.Rotates token → l = [] ∨ q.producerCount ≠ 0) :
    (l = [] ∧ q.prepare token = some none) ∨
      ∃ token' p, q.prepare token = some (some token') ∧ Placed l token' p := by
  rcases eq_or_ne l [] with rfl | hne
  · have hnone : token.desiredProducer = none := by
      rcases ht with hnone | ⟨p, hp, -⟩
      · exact hnone
      · exact absurd hp List.not_mem_nil
    refine .inl ⟨rfl, ?_⟩
    rw [Queue.prepare, if_pos (.inl hnone), Queue.updateCurrentProducerAfterRotation,
      if_pos ⟨hnone, isList_nil.mp h.list⟩]
  · right
    rw [Queue.prepare]
    split
    · rename_i hrotates
      exact h.updateCurrentProducerAfterRotation ht hne ((hcount hrotates).resolve_left hne)
    · rename_i hstay
      obtain ⟨p, hp⟩ := ht.resolve_left fun hnone => hstay (.inl hnone)
      exact ⟨token, p, rfl, hp⟩

/-- With the counter of the producers at zero, no place can be found. -/
theorem Valid.prepare_zero (h : Valid q l c) {token : ConsumerToken} (hne : l ≠ [])
    (hrotates : q.Rotates token) (hzero : q.producerCount = 0) : q.prepare token = none := by
  obtain ⟨tail, -, htail⟩ := h.head hne
  have hremainder : ∀ x, Queue.remainder x q.producerCount = none := fun x => if_pos hzero
  have hrotation : q.rotation token = none := by
    rw [Queue.rotation, hremainder]
    exact if_pos (by rw [hzero]; exact Nat.zero_le _)
  rw [Queue.prepare, if_pos hrotates, Queue.updateCurrentProducerAfterRotation,
    if_neg (by rw [htail]; simp), hrotation]
  cases q.place token <;> rfl

/-! ### Walks with a token -/

/-- The producers that a walk meets on its way back to `p`. -/
theorem Valid.circle_rest (h : Valid q l c) {p : Nat} (hp : p ∈ l) :
    ∃ before behind, l = before ++ p :: behind ∧ p ∉ behind ++ before ∧
      IsSegment q.nextOrTail p (q.nextOrTail p) (behind ++ before) := by
  obtain ⟨before, behind, rfl⟩ := List.append_of_mem hp
  refine ⟨before, behind, rfl, ?_, h.list.isSegment_around⟩
  have hnodup := (List.nodup_middle.mp h.list.nodup)
  exact fun hmem => (List.nodup_cons.mp hnodup).1 (List.perm_append_comm.mem_iff.mp hmem)

theorem Valid.circle (throws : Bool) (hw : 0 < w) (h : Valid q l c) {token : ConsumerToken}
    {stop : Nat} (ht : Placed l token stop) {rest : List Nat} {ptr : Option Nat}
    (hwalk : IsSegment q.nextOrTail stop ptr rest) (hstop : stop ∉ rest) (hsub : rest ⊆ l)
    (hoff : EmptyOff l rest c) :
    ∃ q' token' r, Found throws q l c q' r ∧ (∃ p, Placed l token' p) ∧
      Returns (fun fuel => Queue.circle throws token fuel ptr q) (q', token', r) := by
  induction rest generalizing ptr with
  | nil =>
      refine ⟨q, token, .returned 0 [], .empty fun p hp => hoff p hp List.not_mem_nil,
        ⟨stop, ht⟩, .of_succ fun fuel => ?_⟩
      have hptr : ptr = some stop := hwalk
      exact if_pos (hptr.trans ht.2.1.symm)
  | cons p rest ih =>
      obtain ⟨rfl, hrest⟩ := hwalk
      have hp : p ∈ l := hsub List.mem_cons_self
      have hsub' : rest ⊆ l := fun p' hp' => hsub (List.mem_cons_of_mem p hp')
      have hgo : some p ≠ token.currentProducer := by
        rw [ht.2.1]
        rintro ⟨⟩
        exact hstop List.mem_cons_self
      cases hc : c p with
      | nil =>
          obtain ⟨q', token', r, hfound, ht', hreturns⟩ :=
            ih hrest (fun hmem => hstop (List.mem_cons_of_mem p hmem)) hsub' (hoff.skip hc)
          refine ⟨q', token', r, hfound, ht', hreturns.step fun fuel => ?_⟩
          rw [Queue.circle, if_neg hgo]
          simp only [h.dequeueFrom_nil throws hw hp hc]
      | cons x xs =>
          obtain ⟨q', hdequeue, hfound⟩ := h.dequeueFrom_cons throws hw hp hc
          cases throws with
          | false =>
              refine ⟨q',
                { token with currentProducer := some p, itemsConsumedFromCurrent := 1 }, _,
                hfound, ⟨p, hp, rfl, ht.2.2⟩, .of_succ fun fuel => ?_⟩
              rw [Queue.circle, if_neg hgo]
              simp only [hdequeue]
              rfl
          | true =>
              refine ⟨q', token, _, hfound, ⟨stop, ht⟩, .of_succ fun fuel => ?_⟩
              rw [Queue.circle, if_neg hgo]
              simp only [hdequeue]
              rfl

theorem Valid.rotateAll (h : Valid q l c) : Valid q.rotateAll l c := ⟨h.list, h.quiescent, h.count⟩

theorem Found.rotateAll {throws : Bool} {q' : Queue w α} {x : α}
    (h : Found throws q l c q' (taken throws x)) :
    Found throws q l c q'.rotateAll (taken throws x) := by
  generalize hr : taken throws x = r at h
  cases h with
  | empty => cases throws <;> simp [taken] at hr
  | took hp hc hvalid hframe => exact .took hp hc hvalid.rotateAll hframe

theorem Valid.tryDequeueToken (throws : Bool) (hw : 0 < w) (h : Valid q l c)
    {token : ConsumerToken} (ht : TokenOf l token)
    (hcount : q.Rotates token → l = [] ∨ q.producerCount ≠ 0)
    (quota : BitVec 32) :
    ∃ q' token' r, Found throws q l c q' r ∧ TokenOf l token' ∧
      Returns (q.tryDequeueToken quota token throws) (q', token', r) := by
  rcases h.prepare ht hcount with ⟨rfl, hprepare⟩ | ⟨token', p, hprepare, ht'⟩
  · refine ⟨q, token, _, .empty nofun, ht, .of_forall fun fuel => ?_⟩
    rw [Queue.tryDequeueToken, hprepare]
  · obtain ⟨before, behind, rfl, hstop, hwalk⟩ := h.circle_rest ht'.1
    cases hc : c p with
    | nil =>
        have hoff : EmptyOff (before ++ p :: behind) (behind ++ before) c := by
          intro p' hp' hnot
          rcases eq_or_ne p' p with rfl | hne
          · exact hc
          · simp only [List.mem_append, List.mem_cons] at hp' hnot
            tauto
        obtain ⟨q', token', r, hfound, ⟨p', ht''⟩, hreturns⟩ :=
          h.circle throws hw ht' hwalk hstop (fun p' hp' => by
            simp only [List.mem_append, List.mem_cons] at hp' ⊢
            tauto) hoff
        refine ⟨q', token', r, hfound, .inr ⟨p', ht''⟩, hreturns.imp fun fuel hreturns => ?_⟩
        rw [Queue.tryDequeueToken, hprepare]
        simp only [ht'.2.1, h.dequeueFrom_nil throws hw ht'.1 hc]
        exact hreturns
    | cons x xs =>
        obtain ⟨q', hdequeue, hfound⟩ := h.dequeueFrom_cons throws hw ht'.1 hc
        cases throws with
        | true =>
            refine ⟨q', token', _, hfound, .inr ⟨p, ht'⟩, .of_forall fun fuel => ?_⟩
            rw [Queue.tryDequeueToken, hprepare]
            simp only [ht'.2.1, hdequeue]
            rfl
        | false =>
            refine ⟨if token'.itemsConsumedFromCurrent + 1 = quota then q'.rotateAll else q',
              { token' with itemsConsumedFromCurrent := token'.itemsConsumedFromCurrent + 1 },
              taken false x, ?_, .inr ⟨p, ht'⟩, .of_forall fun fuel => ?_⟩
            · split
              · exact hfound.rotateAll
              · exact hfound
            · rw [Queue.tryDequeueToken, hprepare]
              simp only [ht'.2.1, hdequeue]
              rfl

end ConcurrentQueue.Search
