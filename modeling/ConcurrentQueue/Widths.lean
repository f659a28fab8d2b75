import ConcurrentQueue.Lib.Fuel
import ConcurrentQueue.SearchSound

/-!
# ConcurrentQueue.Widths

**An `index_t` wider than `size_t`.** The counters of a sub-queue have the width `w` of
`index_t`, and so has the room that an enqueue looks for. Numbers of elements are cut
down to the width `s` of `size_t`: by `size_approx`, which `try_dequeue` goes by, and by
`dequeue_bulk`, which compares them in this width, too. So elements are hidden as soon as
there are `2^(s - 1)` of them, unless the widths are the same. With an `index_t` narrower
than `int` the loop of `dequeue_bulk` does not end either when the elements go around the
end of the type.
-/

namespace ConcurrentQueue.Widths

open Search Fuel

variable {α : Type} {w : Nat}

/-! ### The methods that count elements -/

def sizeApprox (s : Nat) (q : SubQueue w α) : BitVec s :=
  if circularLessThan q.headIndex q.tailIndex then (q.tailIndex - q.headIndex).setWidth s else 0

def dequeueBulk (intBits s : Nat) (q : SubQueue w α) (max : BitVec s) (throwsAt : Option Nat) :
    Option (SubQueue w α × Popped α) :=
  let tail := q.tailIndex
  let overcommit := q.dequeueOvercommit
  let desiredCount := (tail - (q.dequeueOptimisticCount - overcommit)).setWidth s
  if circularLessThan 0#s desiredCount then
    let desiredCount := if desiredCount < max then desiredCount else max
    let myDequeueCount := q.dequeueOptimisticCount
    let q := { q with
      dequeueOptimisticCount := q.dequeueOptimisticCount + desiredCount.setWidth w }
    let actualCount := (tail - (myDequeueCount - overcommit)).setWidth s
    if circularLessThan 0#s actualCount then do
      let actualCount := if desiredCount < actualCount then desiredCount else actualCount
      let q := if actualCount < desiredCount then
          { q with dequeueOvercommit :=
              q.dequeueOvercommit + (desiredCount - actualCount).setWidth w }
        else q
      let (q, xs) ← q.takeRange intBits (actualCount.setWidth w)
      some (q, .ofList throwsAt actualCount.toNat xs)
    else
      some ({ q with dequeueOvercommit := q.dequeueOvercommit + desiredCount.setWidth w },
        .returned 0 [])
  else some (q, .returned 0 [])

/-- The scoring loop of `try_dequeue`. -/
def score (s : Nat) (q : Queue w α) : (fuel : Nat) → (ptr : Option Nat) → Queue.Score s →
    Option (Queue.Score s)
  | 0, _, _ => none
  | _ + 1, none, sc => some sc
  | fuel + 1, some p, sc =>
      if sc.nonEmptyCount < 3 then
        score s q fuel (q.next p) (sc.meet p (sizeApprox s (q.producer p)))
      else some sc

def tryDequeue (s : Nat) (q : Queue w α) (throws : Bool) (fuel : Nat) :
    Option (Queue w α × Popped α) :=
  match score s q fuel q.producerListTail ⟨0, none, 0⟩ with
  | none => none
  | some sc =>
      if 0 < sc.nonEmptyCount then
        match sc.best with
        | none => none
        | some best =>
            match q.dequeueFrom best throws with
            | none => none
            | some (q', .returned 0 _) => Queue.scan (some best) throws fuel q'.producerListTail q'
            | some (q', r) => some (q', r)
      else some (q, .returned 0 [])

/-- `enqueue` where there is memory and `MAX_SUBQUEUE_SIZE` has its default. An explicit
producer takes the block after its tail block without a test if that is empty, which
`ahead` says. -/
def enqueue (blockSize : BitVec w) (ahead : Bool) (x : α) (q : SubQueue w α) :
    SubQueue w α × Bool :=
  let currentTailIndex := q.tailIndex
  if currentTailIndex &&& (blockSize - 1) = 0 ∧ ahead = false ∧
      circularLessThan q.headIndex (currentTailIndex + blockSize) = false then (q, false)
  else ({ q with tailIndex := currentTailIndex + 1#w, elements := q.elements ++ [x] }, true)

/-! ### Where the widths are the same -/

theorem sizeApprox_same (q : SubQueue w α) : sizeApprox w q = q.sizeApprox := by
  rw [sizeApprox, BitVec.setWidth_eq, SubQueue.sizeApprox]

theorem dequeueBulk_same (intBits : Nat) (q : SubQueue w α) (max : BitVec w)
    (throwsAt : Option Nat) :
    dequeueBulk intBits w q max throwsAt = q.dequeueBulk intBits max throwsAt := by
  simp only [dequeueBulk, BitVec.setWidth_eq]
  rfl

theorem tryDequeue_same (q : Queue w α) (throws : Bool) (fuel : Nat) :
    tryDequeue w q throws fuel = q.tryDequeue throws fuel := by
  have hscore : ∀ fuel ptr sc, score w q fuel ptr sc = q.score fuel ptr sc := fun fuel => by
    induction fuel with
    | zero => exact fun _ _ => rfl
    | succ fuel ih =>
        intro ptr sc
        cases ptr with
        | none => rfl
        | some p => rw [score, Queue.score, sizeApprox_same, ih]
  rewrite [tryDequeue, Queue.tryDequeue, hscore]
  rfl

/-! ### Producers at rest -/

/-- The producer is at rest with the elements `l`, of which there may be any number. -/
structure Holds (q : SubQueue w α) (l : List α) : Prop where
  elements : q.elements = l
  tail : q.tailIndex = q.headIndex + BitVec.ofNat w l.length
  count : q.dequeueOptimisticCount = q.headIndex + q.dequeueOvercommit
  fits : l.length < 2 ^ w

variable {s : Nat} {q : SubQueue w α} {l : List α}

theorem Holds.quiescent (h : Holds q l) (hlt : l.length < 2 ^ (w - 1)) : q.Quiescent l :=
  ⟨h.elements, h.tail, h.count, hlt⟩

theorem Holds.desired (h : Holds q l) :
    q.tailIndex - (q.dequeueOptimisticCount - q.dequeueOvercommit) = BitVec.ofNat w l.length := by
  rw [h.count, BitVec.add_sub_cancel, h.tail, BitVec.add_comm, BitVec.add_sub_cancel]

theorem setWidth_ofNat (hsw : s ≤ w) (n : Nat) :
    (BitVec.ofNat w n).setWidth s = BitVec.ofNat s (n % 2 ^ s) := by
  apply BitVec.eq_of_toNat_eq
  rw [BitVec.toNat_setWidth, BitVec.toNat_ofNat, BitVec.toNat_ofNat, Nat.mod_mod,
    Nat.mod_mod_of_dvd _ (pow_dvd_pow 2 hsw)]

/-- The number of elements that `dequeue_bulk` sees. -/
def seen (s n : Nat) : Nat := if n % 2 ^ s < 2 ^ (s - 1) then n % 2 ^ s else 0

/-- **`dequeue_bulk` goes by the number of elements that it sees**, and comes back if its loop
ends. -/
theorem Holds.dequeueBulk (hs : 0 < s) (hsw : s ≤ w) (h : Holds q l) (intBits : Nat)
    (max : BitVec s) :
    (RangeEnds intBits q.headIndex (BitVec.ofNat w (min (seen s l.length) max.toNat)) ∧
      ∃ q', dequeueBulk intBits s q max none =
        some (q', .returned (min (seen s l.length) max.toNat)
          (l.take (min (seen s l.length) max.toNat)))) ∨
    (¬ RangeEnds intBits q.headIndex (BitVec.ofNat w (min (seen s l.length) max.toNat)) ∧
      dequeueBulk intBits s q max none = none) := by
  have hpow := Wrap.two_pow_eq hs
  have hmod := Nat.mod_lt l.length (Nat.two_pow_pos s)
  have hle := Nat.mod_le l.length (2 ^ s)
  have hless : circularLessThan 0#s (BitVec.ofNat s (l.length % 2 ^ s)) = true ↔
      0 < seen s l.length := by
    rw [show (0#s : BitVec s) = BitVec.ofNat s 0 from rfl,
      circularLessThan_ofNat hs (Nat.zero_le _) (by omega), seen, Nat.sub_zero]
    split <;> omega
  simp only [Widths.dequeueBulk, h.desired, setWidth_ofNat hsw]
  by_cases hpos : 0 < seen s l.length
  · have hseen : seen s l.length = l.length % 2 ^ s := by
      unfold seen at hpos ⊢
      split at hpos
      · rw [if_pos ‹_›]
      · omega
    rw [if_pos (hless.mpr hpos), if_pos (hless.mpr hpos), hseen]
    -- what is desired is there
    have hnat : (BitVec.ofNat s (l.length % 2 ^ s)).toNat = l.length % 2 ^ s := by
      rw [BitVec.toNat_ofNat, Nat.mod_mod]
    generalize hd : (if BitVec.ofNat s (l.length % 2 ^ s) < max
      then BitVec.ofNat s (l.length % 2 ^ s) else max) = desired
    have hdesired : desired.toNat = min (l.length % 2 ^ s) max.toNat := by
      rw [← hd, SubQueue.toNat_smaller, hnat]
    have hactual : (if desired < BitVec.ofNat s (l.length % 2 ^ s) then desired
        else BitVec.ofNat s (l.length % 2 ^ s)) = desired := by
      apply BitVec.eq_of_toNat_eq
      rw [SubQueue.toNat_smaller, hnat, hdesired]
      omega
    have hwide : desired.setWidth w = BitVec.ofNat w (min (l.length % 2 ^ s) max.toNat) := by
      rw [← hdesired, BitVec.ofNat_toNat]
    have hlt : min (l.length % 2 ^ s) max.toNat < 2 ^ w := by
      have := h.fits
      omega
    rw [hactual, if_neg (BitVec.lt_irrefl desired), hwide]
    by_cases hends : RangeEnds intBits q.headIndex
        (BitVec.ofNat w (min (l.length % 2 ^ s) max.toNat))
    · rw [SubQueue.takeRange_eq (by exact hends), SubQueue.take, BitVec.toNat_ofNat,
        Nat.mod_eq_of_lt hlt, hdesired, h.elements, if_pos (by omega), Option.bind_eq_bind,
        Option.bind_some]
      exact .inl ⟨hends, _, congrArg (fun xs => some (_, Popped.returned _ xs)) (by
        rw [List.take_take, Nat.min_self])⟩
    · rw [SubQueue.takeRange_eq_none (by exact hends)]
      exact .inr ⟨hends, rfl⟩
  · rw [if_neg (mt hless.mp hpos), Nat.eq_zero_of_not_pos hpos, Nat.zero_min]
    exact .inl ⟨.of_zero, q, rfl⟩

/-- A queue with one producer. -/
structure Alone (Q : Queue w α) (p : Nat) (q : SubQueue w α) : Prop where
  producer : Q.producer p = q
  tail : Q.producerListTail = some p
  next : Q.next p = none

theorem Holds.tryDequeue (hs : 0 < s) (hsw : s ≤ w) (h : Holds q l) (hl : l ≠ [])
    (hlt : l.length < 2 ^ (s - 1)) {Q : Queue w α} {p : Nat} (hQ : Alone Q p q) :
    ∃ Q', Returns (fun fuel => tryDequeue s Q false fuel) (Q', .returned 1 (l.take 1)) := by
  have hpow := Wrap.two_pow_eq hs
  have hpos := List.length_pos_of_ne_nil hl
  have hlt' : l.length < 2 ^ (w - 1) :=
    lt_of_lt_of_le hlt (Nat.pow_le_pow_right (by omega) (by omega))
  have hq := h.quiescent hlt'
  obtain ⟨x, l', rfl⟩ := List.exists_cons_of_ne_nil hl
  have hsize : (sizeApprox s q).toNat = (x :: l').length := by
    rw [sizeApprox, h.tail, if_pos ((circularLessThan_add (by omega) _ hlt').mpr hpos),
      BitVec.add_comm, BitVec.add_sub_cancel, BitVec.toNat_setWidth, BitVec.toNat_ofNat,
      Nat.mod_mod_of_dvd _ (pow_dvd_pow 2 hsw), Nat.mod_eq_of_lt (by omega)]
  obtain ⟨q', hdequeue, -⟩ := hq.dequeue_cons (by omega) false
  have hmeet : Queue.Score.meet (⟨0, none, 0⟩ : Queue.Score s) p (sizeApprox s q) =
      ⟨1, some p, sizeApprox s q⟩ := by
    have hsize' : 0#s < sizeApprox s q := by
      rw [BitVec.lt_def, hsize]
      exact hpos
    simp only [Queue.Score.meet, BitVec.ofNat_eq_ofNat, hsize', if_true]
  refine ⟨{ Q with producer := Function.update Q.producer p q' }, 2, fun fuel hfuel => ?_⟩
  obtain ⟨fuel, rfl⟩ := Nat.exists_eq_add_of_le' hfuel
  have hscore : score s Q (fuel + 2) Q.producerListTail ⟨0, none, 0⟩ =
      some ⟨1, some p, sizeApprox s q⟩ := by
    rw [hQ.tail, score, if_pos (show 0 < 3 by omega), hQ.producer, hmeet, hQ.next, score]
  have hfrom : Q.dequeueFrom p false =
      some ({ Q with producer := Function.update Q.producer p q' }, .returned 1 [x]) := by
    rw [Queue.dequeueFrom, hQ.producer, hdequeue]
    rfl
  simp only [Widths.tryDequeue, hscore, hfrom, Nat.lt_one_iff, if_true]
  rfl

theorem seen_lt (s n : Nat) : seen s n < 2 ^ (s - 1) := by
  unfold seen
  split
  · assumption
  · exact Nat.two_pow_pos _

/-- **Elements stay visible as long as there are fewer than half the range of `size_t`**, and
the loop over them ends; and no longer. -/
theorem visible_iff (hs : 0 < s) (hsw : s ≤ w) (h : Holds q l) (hl : l ≠ []) {Q : Queue w α}
    {p : Nat} (hQ : Alone Q p q) (intBits : Nat) :
    ((∀ max : BitVec s, 1 ≤ max.toNat → ∃ q', dequeueBulk intBits s q max none =
        some (q', .returned (min l.length max.toNat) (l.take max.toNat))) ∧
      ∃ Q', Returns (fun fuel => tryDequeue s Q false fuel) (Q', .returned 1 (l.take 1))) ↔
    l.length < 2 ^ (s - 1) ∧ (intBits ≤ w ∨ q.headIndex.toNat + l.length < 2 ^ w) := by
  have hpow := Wrap.two_pow_eq hs
  have hhalf := Nat.two_pow_pos (s - 1)
  have hseen := seen_lt s l.length
  constructor
  · rintro ⟨hbulk, -⟩
    -- as many as can be asked for
    obtain ⟨q', hq'⟩ := hbulk (BitVec.allOnes s) (by
      rw [BitVec.toNat_allOnes]
      omega)
    rcases h.dequeueBulk hs hsw intBits (BitVec.allOnes s) with ⟨hends, q'', hq''⟩ | ⟨-, hnone⟩
    · rw [hq', Option.some.injEq, Prod.mk.injEq, Popped.returned.injEq] at hq''
      obtain ⟨-, hcount, -⟩ := hq''
      rw [BitVec.toNat_allOnes] at hcount hends
      have hall : min (seen s l.length) (2 ^ s - 1) = l.length := by omega
      rw [hall, RangeEnds, BitVec.toNat_ofNat, Nat.mod_eq_of_lt h.fits] at hends
      exact ⟨by omega, hends⟩
    · rw [hq'] at hnone
      cases hnone
  · rintro ⟨hlt, hends⟩
    have hseen : seen s l.length = l.length := by
      rw [seen, Nat.mod_eq_of_lt (by omega), if_pos hlt]
    refine ⟨fun max _ => ?_, h.tryDequeue hs hsw hl hlt hQ⟩
    have hbulk := h.dequeueBulk hs hsw intBits max
    rw [hseen] at hbulk
    obtain ⟨-, q', hq'⟩ := hbulk.resolve_right fun hnone => hnone.1 (hends.imp_right fun hfit => by
      rw [BitVec.toNat_ofNat, Nat.mod_eq_of_lt (by have := h.fits; omega)]
      omega)
    refine ⟨q', hq'.trans ?_⟩
    rw [Nat.min_comm, ← List.take_take, List.take_length]

/-! ### Eight and sixteen bits -/

/-- A producer that has enqueued the numbers below `n`, if each call was accepted. -/
def filled (n : Nat) : Option (SubQueue 16 Nat) :=
  (List.range n).foldlM (fun q x =>
    match enqueue 32#16 false x q with
    | (q, true) => some q
    | (_, false) => none) ⟨0, 0, 0, 0, []⟩

/-- A queue with that producer. -/
def withProducer (q : SubQueue 16 Nat) : Queue 16 Nat := ⟨fun _ => q, fun _ => none, some 0, 1, 0⟩

theorem visible_iff_filled : ∃ q, filled 100 = some q ∧
    (∃ q', dequeueBulk 32 8 q 200#8 none = some (q', .returned 100 (List.range 100))) ∧
    ∃ Q', Returns (fun fuel => tryDequeue 8 (withProducer q) false fuel) (Q', .returned 1 [0]) := by
  have hrun : (filled 100).map (fun q => (q.headIndex, q.tailIndex, q.dequeueOptimisticCount,
      q.dequeueOvercommit, q.elements)) = some (0, 100, 0, 0, List.range 100) := by
    decide +kernel
  obtain ⟨q, hfilled, hfields⟩ := Option.map_eq_some_iff.mp hrun
  simp only [Prod.mk.injEq] at hfields
  obtain ⟨hhead, htail, hcount, hover, helements⟩ := hfields
  have hq : Holds q (List.range 100) :=
    ⟨helements, by rw [htail, hhead]; rfl, by rw [hcount, hhead, hover]; rfl, by decide⟩
  obtain ⟨hbulk, htry⟩ := (visible_iff (s := 8) (by decide) (by decide) hq (by decide)
    (Q := withProducer q) (p := 0) ⟨rfl, rfl, rfl⟩ 32).mpr
    ⟨by decide, .inr (by rw [hhead]; decide)⟩
  exact ⟨q, hfilled, hbulk 200#8 (by decide), htry⟩

/-- **Half the range of elements, and none is found in bulk; the full range, and none is found
at all**, although each of them was accepted. -/
theorem elements_hidden :
    ((filled 128).bind fun q => (dequeueBulk 32 8 q 1#8 none).map (·.2)) =
      some (.returned 0 []) ∧
    ((filled 256).bind fun q => (dequeueBulk 32 8 q 1#8 none).map (·.2)) =
      some (.returned 0 []) ∧
    ((filled 256).bind fun q => (tryDequeue 8 (withProducer q) false 2).map (·.2)) =
      some (.returned 0 []) ∧
    (filled 256).map (fun q => q.elements.length) = some 256 := by
  decide +kernel

end ConcurrentQueue.Widths
