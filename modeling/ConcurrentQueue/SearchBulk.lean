import ConcurrentQueue.SearchSound

/-!
# ConcurrentQueue.SearchBulk

**What the bulk methods gather.** `gather order max throwsAt c` is what comes of
asking the producers of `order`, one after the other, for `max` elements in all. Both
bulk methods do that: without a token in the order of the list, with one around the
list from the producer of the token.

The walk with a token is longer than that order, because the producer where it stops
moves with it. What it meets on the way round is empty.

A method comes back if and only if the loop over the elements of each producer does that
it takes some from (`LoopsEnd`).
-/

namespace ConcurrentQueue

open Function

variable {α : Type} {w : Nat}

/-- The outcome when the elements `xs` have been delivered before. -/
def Popped.after (xs : List α) : Popped α → Popped α
  | .returned n ys => .returned (xs.length + n) (xs ++ ys)
  | .threw ys => .threw (xs ++ ys)

@[simp] theorem Popped.after_nil (r : Popped α) : r.after [] = r := by
  cases r <;> simp [after]

@[simp] theorem Popped.after_after (xs ys : List α) (r : Popped α) :
    (r.after ys).after xs = r.after (xs ++ ys) := by
  cases r <;> simp [after, Nat.add_assoc]

namespace Search

open Linked Fuel

/-! ### Gathering -/

/-- Ask the producers one after the other; what they are left with, and the
outcome. -/
def gather : (order : List Nat) → (max : Nat) → (throwsAt : Option Nat) → (Nat → List α) →
    (Nat → List α) × Popped α
  | [], _, _, c => (c, .returned 0 [])
  | p :: rest, max, throwsAt, c =>
      let n := min max (c p).length
      let c' := update c p ((c p).drop n)
      match Popped.ofList throwsAt n (c p) with
      | .threw xs => (c', .threw xs)
      | .returned _ xs =>
          let later := gather rest (max - n) (throwsAt.map fun j => j - n) c'
          (later.1, later.2.after xs)

section Gather

variable {p : Nat} {rest : List Nat} {max n : Nat} {throwsAt : Option Nat} {c : Nat → List α}

theorem gather_threw {j : Nat} (hn : min max (c p).length = n)
    (h : Popped.ofList throwsAt n (c p) = .threw ((c p).take j)) :
    gather (p :: rest) max throwsAt c =
      (update c p ((c p).drop n), .threw ((c p).take j)) := by
  subst hn
  rw [gather, h]

theorem gather_returned (hn : min max (c p).length = n)
    (h : Popped.ofList throwsAt n (c p) = .returned n ((c p).take n)) :
    gather (p :: rest) max throwsAt c =
      ((gather rest (max - n) (throwsAt.map fun j => j - n)
          (update c p ((c p).drop n))).1,
        (gather rest (max - n) (throwsAt.map fun j => j - n)
          (update c p ((c p).drop n))).2.after ((c p).take n)) := by
  subst hn
  rw [gather, h]

/-- Nothing asked for, nothing done. -/
theorem gather_zero (order : List Nat) (throwsAt : Option Nat) (c : Nat → List α) :
    gather order 0 throwsAt c = (c, .returned 0 []) := by
  induction order generalizing throwsAt with
  | nil => rfl
  | cons p rest ih =>
      have hquiet : Popped.ofList throwsAt 0 (c p) = .returned 0 ((c p).take 0) :=
        Popped.ofList_quiet fun j hj => absurd hj (Nat.not_lt_zero j)
      rw [gather_returned (Nat.zero_min _) hquiet, List.drop_zero, update_eq_self, ih]
      rfl

end Gather

/-! ### The loops over the elements -/

/-- The loop over the elements of each producer comes to an end when the producers are
asked one after the other, up to one that throws. -/
def LoopsEnd (intBits : Nat) (q : Queue w α) (c : Nat → List α) :
    (order : List Nat) → (max : Nat) → (throwsAt : Option Nat) → Prop
  | [], _, _ => True
  | p :: rest, max, throwsAt =>
      let n := min max (c p).length
      RangeEnds intBits (q.producer p).headIndex (BitVec.ofNat w n) ∧
        ((∃ j < n, throwsAt = some j) ∨
          LoopsEnd intBits q c rest (max - n) (throwsAt.map fun j => j - n))

/-- Only the producer `p` has been touched. -/
structure Asked (q q' : Queue w α) (p : Nat) : Prop where
  next : q'.next = q.next
  tail : q'.producerListTail = q.producerListTail
  others : ∀ p' ≠ p, q'.producer p' = q.producer p'

section LoopsEnd

variable {intBits : Nat} {q q' : Queue w α} {p : Nat} {rest order : List Nat} {max n : Nat}
  {throwsAt : Option Nat} {c c' : Nat → List α}

theorem LoopsEnd.zero : LoopsEnd intBits q c order 0 throwsAt := by
  induction order generalizing throwsAt with
  | nil => exact trivial
  | cons p rest ih =>
      refine ⟨?_, .inr ?_⟩
      · rw [Nat.zero_min]
        exact .of_zero
      · rw [Nat.zero_min]
        exact ih

theorem loopsEnd_congr (h : ∀ p ∈ order, q'.producer p = q.producer p ∧ c' p = c p) :
    LoopsEnd intBits q' c' order max throwsAt ↔ LoopsEnd intBits q c order max throwsAt := by
  induction order generalizing max throwsAt with
  | nil => rfl
  | cons p rest ih =>
      obtain ⟨hq, hc⟩ := h p List.mem_cons_self
      rw [LoopsEnd, LoopsEnd, hq, hc, ih fun p' hp' => h p' (List.mem_cons_of_mem p hp')]

/-- A producer has given its elements without a throw; the others decide. -/
theorem Asked.loopsEnd_iff (h : Asked q q' p) (hp : p ∉ rest) (hn : min max (c p).length = n)
    (hends : RangeEnds intBits (q.producer p).headIndex (BitVec.ofNat w n))
    (hquiet : ∀ j < n, throwsAt ≠ some j) (xs : List α) :
    LoopsEnd intBits q c (p :: rest) max throwsAt ↔
      LoopsEnd intBits q' (update c p xs) rest (max - n)
        (throwsAt.map fun j => j - n) := by
  have hsame : ∀ p' ∈ rest, q'.producer p' = q.producer p' ∧ update c p xs p' = c p' := by
    intro p' hp'
    have hne := ne_of_mem_of_not_mem hp' hp
    exact ⟨h.others p' hne, update_of_ne hne ..⟩
  subst hn
  rw [loopsEnd_congr hsame, LoopsEnd]
  exact ⟨fun hloops => hloops.2.resolve_left fun ⟨j, hj, hthrow⟩ => hquiet j hj hthrow,
    fun hrest => ⟨hends, .inr hrest⟩⟩

end LoopsEnd

/-! ### Without a token -/

variable {intBits : Nat} {q : Queue w α} {l : List Nat} {c : Nat → List α}

theorem Valid.dequeueBulkFrom (hw : 0 < w) (h : Valid q l c) {p : Nat} (hp : p ∈ l)
    (intBits : Nat) (max : BitVec w) (throwsAt : Option Nat) :
    (RangeEnds intBits (q.producer p).headIndex (BitVec.ofNat w (min max.toNat (c p).length)) ∧
      ∃ q', q.dequeueBulkFrom intBits p max throwsAt =
          some (q', Popped.ofList throwsAt (min max.toNat (c p).length) (c p)) ∧
        Valid q' l (update c p ((c p).drop (min max.toNat (c p).length))) ∧
        Asked q q' p) ∨
    (¬ RangeEnds intBits (q.producer p).headIndex
        (BitVec.ofNat w (min max.toNat (c p).length)) ∧
      q.dequeueBulkFrom intBits p max throwsAt = none) := by
  rcases (h.quiescent p hp).dequeueBulk hw intBits max throwsAt with
    ⟨hends, s', hdequeue, hs'⟩ | ⟨hends, hnone⟩
  · refine .inl ⟨hends, { q with producer := update q.producer p s' }, ?_, h.put hs',
      rfl, rfl, fun p' hne => update_of_ne hne ..⟩
    rw [Queue.dequeueBulkFrom, hdequeue]
    rfl
  · refine .inr ⟨hends, ?_⟩
    rw [Queue.dequeueBulkFrom, hnone]
    rfl

theorem toNat_ofNat_min (max : BitVec w) (n : Nat) :
    (BitVec.ofNat w (min max.toNat n)).toNat = min max.toNat n := by
  rw [BitVec.toNat_ofNat, Nat.mod_eq_of_lt (lt_of_le_of_lt (Nat.min_le_left ..) max.isLt)]

/-- The loop gathers in the order of the list; `count` elements are out already. -/
theorem Valid.scanBulk (hw : 0 < w) (h : Valid q l c) (intBits : Nat)
    {rest : List Nat} {ptr : Option Nat} (hwalk : IsList q.next ptr rest) (hsub : rest ⊆ l)
    (max count : BitVec w) (out : List α)
    (hout : count.toNat = out.length) (hle : count.toNat ≤ max.toNat) (throwsAt : Option Nat) :
    ReturnsIff (LoopsEnd intBits q c rest (max - count).toNat throwsAt)
      (fun fuel => Queue.scanBulk intBits max fuel ptr count out throwsAt q)
      fun r => Valid r.1 l (gather rest (max - count).toNat throwsAt c).1 ∧
        r.2 = (gather rest (max - count).toNat throwsAt c).2.after out := by
  induction rest generalizing ptr c q count out throwsAt with
  | nil =>
      refine .of_succ (a := (q, .returned count.toNat out)) trivial ⟨h, ?_⟩ fun fuel => ?_
      · simp [gather, Popped.after, hout]
      · rw [isList_nil.mp hwalk, Queue.scanBulk]
  | cons p rest ih =>
      have hnodup := hwalk.nodup
      obtain ⟨rfl, hrest⟩ := isList_cons.mp hwalk
      have hsub' : rest ⊆ l := fun p' hp' => hsub (List.mem_cons_of_mem p hp')
      have hleft : (max - count).toNat = max.toNat - count.toNat := BitVec.toNat_sub_of_le hle
      have hask := h.dequeueBulkFrom hw (hsub List.mem_cons_self) intBits (max - count) throwsAt
      have hn := toNat_ofNat_min (max - count) (c p).length
      have hnle : min (max - count).toNat (c p).length ≤ max.toNat - count.toNat :=
        hleft ▸ Nat.min_le_left ..
      have hnlen : min (max - count).toNat (c p).length ≤ (c p).length := Nat.min_le_right ..
      generalize hmin : min (max - count).toNat (c p).length = n at *
      rcases hask with ⟨hends, q', hdequeue, hvalid, hasked⟩ | ⟨hends, hnone⟩
      · rcases Popped.ofList_cases throwsAt n (c p) with ⟨j, hj, hat, hthrew⟩ | ⟨hquiet, hreturned⟩
        · rw [gather_threw hmin hthrew]
          refine .of_succ (a := (q', .threw (out ++ (c p).take j))) ?_ ⟨hvalid, rfl⟩ fun fuel => ?_
          · rw [LoopsEnd, hmin]
            exact ⟨hends, .inl ⟨j, hj, hat⟩⟩
          · rw [Queue.scanBulk, hdequeue, hthrew]
        · have hcount : (count + BitVec.ofNat w n).toNat = count.toNat + n := by
            rw [BitVec.toNat_add_of_lt, hn]
            rw [hn]
            exact lt_of_le_of_lt (by omega) max.isLt
          have hout' : (count + BitVec.ofNat w n).toNat = (out ++ (c p).take n).length := by
            rw [hcount, List.length_append, List.length_take, Nat.min_eq_left hnlen, hout]
          have hrem : (max - (count + BitVec.ofNat w n)).toNat = (max - count).toNat - n := by
            rw [BitVec.toNat_sub_of_le (by rw [BitVec.le_def, hcount]; omega), hcount, hleft]
            omega
          have hloops := hasked.loopsEnd_iff (List.nodup_cons.mp hnodup).1 hmin hends hquiet
            ((c p).drop n)
          rw [gather_returned hmin hreturned]
          by_cases hstop : count + BitVec.ofNat w n = max
          · have hzero : (max - count).toNat - n = 0 := by
              rw [← hrem, hstop, BitVec.sub_self]
              rfl
            rw [hzero] at hloops
            rw [hzero, gather_zero]
            refine .of_succ (a := (q', .returned (out ++ (c p).take n).length
              (out ++ (c p).take n))) (hloops.mpr .zero) ⟨hvalid, ?_⟩ fun fuel => ?_
            · simp [Popped.after]
            · rw [Queue.scanBulk, hdequeue, hreturned]
              show (if count + BitVec.ofNat w n = max then _ else _) = _
              rw [if_pos hstop, hout']
          · have hrec := ih hvalid (hasked.next ▸ hrest) hsub' _ _ hout' (by rw [hcount]; omega)
              (throwsAt.map fun j => j - n)
            rw [hrem] at hrec
            rw [Popped.after_after]
            refine hrec.step hloops (fun _ hr => hr) rfl fun fuel => ?_
            rw [Queue.scanBulk, hdequeue, hreturned]
            show (if count + BitVec.ofNat w n = max then _ else _) = _
            rw [if_neg hstop]
      · refine .never_of_succ (fun hloops => hends ?_) rfl fun fuel => ?_
        · rw [LoopsEnd, hmin] at hloops
          exact hloops.1
        · rw [Queue.scanBulk, hnone]

theorem Valid.tryDequeueBulk (hw : 0 < w) (h : Valid q l c) (intBits : Nat) (max : BitVec w)
    (throwsAt : Option Nat) :
    ReturnsIff (LoopsEnd intBits q c l max.toNat throwsAt)
      (q.tryDequeueBulk intBits max throwsAt)
      fun r => Valid r.1 l (gather l max.toNat throwsAt c).1 ∧
        r.2 = (gather l max.toNat throwsAt c).2 := by
  have hscan := h.scanBulk hw intBits h.list (List.Subset.refl l) max 0 []
    (by simp) (by simp) throwsAt
  have hzero : max - 0 = max := BitVec.sub_zero max
  rw [hzero, Popped.after_nil] at hscan
  exact hscan

/-! ### With a token -/

theorem Asked.nextOrTail_eq {q' : Queue w α} {p : Nat} (h : Asked q q' p) :
    q'.nextOrTail = q.nextOrTail := by
  funext p'
  rw [Queue.nextOrTail, Queue.nextOrTail, h.next, h.tail]

theorem Valid.dequeueBulkFrom_nil (hw : 0 < w) (h : Valid q l c) (intBits : Nat)
    {p : Nat} (hp : p ∈ l) (hnil : c p = []) (max : BitVec w) (throwsAt : Option Nat) :
    ∃ q', q.dequeueBulkFrom intBits p max throwsAt = some (q', .returned 0 []) ∧ Valid q' l c ∧
      q'.nextOrTail = q.nextOrTail := by
  have hmin : min max.toNat (c p).length = 0 := by rw [hnil, List.length_nil, Nat.min_zero]
  have hask := h.dequeueBulkFrom hw hp intBits max throwsAt
  rw [hmin, List.drop_zero, update_eq_self,
    Popped.ofList_quiet fun j hj => absurd hj (Nat.not_lt_zero j)] at hask
  obtain ⟨-, q', hdequeue, hvalid, hasked⟩ := hask.resolve_right fun hnot => hnot.1 .of_zero
  exact ⟨q', hdequeue, hvalid, hasked.nextOrTail_eq⟩

theorem Placed.ne {token : ConsumerToken} {stop p : Nat} (ht : Placed l token stop)
    (hne : stop ≠ p) : some p ≠ token.currentProducer := by
  rw [ht.2.1]
  rintro ⟨⟩
  exact hne rfl

@[simp] theorem gave_zero (token : ConsumerToken) (p : Nat) : token.gave p 0#w = token :=
  if_neg fun h => h rfl

theorem Placed.gave {token : ConsumerToken} {stop p : Nat} (ht : Placed l token stop) (hp : p ∈ l)
    {dequeued : BitVec w} (hne : dequeued ≠ 0) : Placed l (token.gave p dequeued) p := by
  rw [ConsumerToken.gave, if_pos hne]
  exact ⟨hp, rfl, ht.2.2⟩

theorem Placed.exists_gave {token : ConsumerToken} {stop p : Nat} (ht : Placed l token stop)
    (hp : p ∈ l) {dequeued : BitVec w} : ∃ p', Placed l (token.gave p dequeued) p' := by
  by_cases hne : dequeued = 0
  · rw [hne]
    exact ⟨stop, (gave_zero (w := w) token p).symm ▸ ht⟩
  · exact ⟨p, ht.gave hp hne⟩

/-- One round of the loop that does not throw, with `n` elements taken. -/
theorem circleBulk_round {token : ConsumerToken} {p n : Nat} {q' : Queue w α}
    {max count : BitVec w} {out xs : List α} {throwsAt : Option Nat} (fuel : Nat)
    (hgo : some p ≠ token.currentProducer)
    (hdequeue : q.dequeueBulkFrom intBits p max throwsAt = some (q', .returned n xs)) :
    Queue.circleBulk intBits (fuel + 1) (some p) token max count out throwsAt q =
      if BitVec.ofNat w n = max then
        some (q', token.gave p (BitVec.ofNat w n),
          .returned (count + BitVec.ofNat w n).toNat (out ++ xs))
      else
        Queue.circleBulk intBits fuel (q'.nextOrTail p) (token.gave p (BitVec.ofNat w n))
          (max - BitVec.ofNat w n) (count + BitVec.ofNat w n) (out ++ xs)
          (throwsAt.map fun j => j - n) q' := by
  rw [Queue.circleBulk, if_neg hgo]
  simp only [hdequeue]

/-- A walk over empty producers. -/
theorem Valid.circleBulk_empty (hw : 0 < w) (h : Valid q l c) (intBits : Nat)
    {token : ConsumerToken} {stop : Nat} (ht : Placed l token stop) {extra : List Nat}
    {ptr : Option Nat}
    (hwalk : IsSegment q.nextOrTail stop ptr extra) (hstop : stop ∉ extra) (hsub : extra ⊆ l)
    (hempty : ∀ p ∈ extra, c p = []) (max count : BitVec w) (out : List α)
    (throwsAt : Option Nat) :
    ∃ q', Valid q' l c ∧
      Returns (fun fuel => Queue.circleBulk intBits fuel ptr token max count out throwsAt q)
        (q', token, .returned count.toNat out) := by
  induction extra generalizing ptr q throwsAt with
  | nil =>
      have hptr : ptr = some stop := hwalk
      exact ⟨q, h, .of_succ fun fuel => if_pos (hptr.trans ht.2.1.symm)⟩
  | cons p extra ih =>
      obtain ⟨rfl, hrest⟩ := hwalk
      rw [List.mem_cons, not_or] at hstop
      obtain ⟨q', hdequeue, hvalid, hwalk'⟩ := h.dequeueBulkFrom_nil hw intBits
        (hsub List.mem_cons_self) (hempty p List.mem_cons_self) max throwsAt
      have hround : ∀ fuel, Queue.circleBulk intBits (fuel + 1) (some p) token max count out
            throwsAt q =
          if 0 = max then some (q', token, .returned count.toNat out)
          else Queue.circleBulk intBits fuel (q'.nextOrTail p) token max count out
            (throwsAt.map fun j => j - 0) q' := by
        intro fuel
        rw [circleBulk_round fuel (ht.ne hstop.1) hdequeue]
        simp
      by_cases hmax : 0 = max
      · refine ⟨q', hvalid, .of_succ fun fuel => ?_⟩
        rw [hround, if_pos hmax]
      · obtain ⟨q'', hvalid', hreturns⟩ := ih hvalid (hwalk' ▸ hrest) hstop.2
          (fun p' hp' => hsub (List.mem_cons_of_mem p hp'))
          (fun p' hp' => hempty p' (List.mem_cons_of_mem p hp')) (throwsAt.map fun j => j - 0)
        refine ⟨q'', hvalid', hreturns.step fun fuel => ?_⟩
        rw [hround, if_neg hmax, hwalk']

/-- What a producer that was asked for more than it has is left with. -/
theorem EmptyOff.drained {p n : Nat} {rest : List Nat} (h : EmptyOff l (p :: rest) c)
    (hn : (c p).length ≤ n) : EmptyOff l rest (update c p ((c p).drop n)) := by
  intro p' hp' hnot
  rcases eq_or_ne p' p with rfl | hne
  · rw [update_self, List.drop_eq_nil_of_le hn]
  · rw [update_of_ne hne]
    exact h p' hp' (List.not_mem_cons_of_ne_of_not_mem hne hnot)

/-- From a producer that is left, the walk back to it goes on as the present one. -/
theorem Valid.exists_extra (h : Valid q l c) {stop p : Nat} {walk : List Nat} (hp : p ∈ l)
    (hwalk : IsSegment q.nextOrTail stop (q.nextOrTail p) walk) (hnot : p ∉ walk) :
    ∃ extra, IsSegment q.nextOrTail p (q.nextOrTail p) (walk ++ extra) ∧
      (p :: (walk ++ extra)).Nodup ∧ walk ++ extra ⊆ l := by
  obtain ⟨before, behind, hl, hstop, hback⟩ := h.circle_rest hp
  obtain ⟨extra, hextra⟩ := hback.exists_append hwalk hnot
  rw [hextra] at hback hstop
  refine ⟨extra, hback, ?_, ?_⟩
  · have hnodup : (before ++ p :: behind).Nodup := hl ▸ h.list.nodup
    rw [← hextra]
    exact (List.Perm.cons p List.perm_append_comm).nodup_iff.mp (List.nodup_middle.mp hnodup)
  · intro p' hp'
    rw [← hextra] at hp'
    rw [hl]
    simp only [List.mem_append, List.mem_cons] at hp' ⊢
    tauto

/-- The loop gathers on the way round. The induction is on the producers `rest` that it
has not asked yet; those of `extra` it meets again. -/
theorem Valid.circleBulk (hw : 0 < w) (h : Valid q l c) (intBits : Nat)
    {token : ConsumerToken} {stop : Nat} (ht : Placed l token stop) (rest extra : List Nat)
    {ptr : Option Nat}
    (hwalk : IsSegment q.nextOrTail stop ptr (rest ++ extra))
    (hnodup : (stop :: (rest ++ extra)).Nodup) (hsub : rest ++ extra ⊆ l)
    (hoff : EmptyOff l rest c) (max count : BitVec w) (out : List α)
    (hout : count.toNat = out.length) (hfit : count.toNat + max.toNat < 2 ^ w)
    (throwsAt : Option Nat) :
    ReturnsIff (LoopsEnd intBits q c rest max.toNat throwsAt)
      (fun fuel => Queue.circleBulk intBits fuel ptr token max count out throwsAt q)
      fun r => Valid r.1 l (gather rest max.toNat throwsAt c).1 ∧ (∃ p, Placed l r.2.1 p) ∧
        r.2.2 = (gather rest max.toNat throwsAt c).2.after out := by
  induction rest generalizing q c token stop extra ptr max count out throwsAt with
  | nil =>
      obtain ⟨q', hvalid, hreturns⟩ := h.circleBulk_empty hw intBits ht hwalk
        (List.nodup_cons.mp hnodup).1 hsub
        (fun p hp => hoff p (hsub hp) List.not_mem_nil) max count out throwsAt
      refine .comes trivial ⟨hvalid, ⟨stop, ht⟩, ?_⟩ hreturns
      simp [gather, Popped.after, hout]
  | cons p rest ih =>
      rw [List.cons_append] at hwalk hnodup hsub
      obtain ⟨rfl, hrest⟩ := hwalk
      have hp : p ∈ l := hsub List.mem_cons_self
      obtain ⟨hstop, hnodup'⟩ := List.nodup_cons.mp hnodup
      have hnot : p ∉ rest ++ extra := (List.nodup_cons.mp hnodup').1
      have hgo := ht.ne fun heq => hstop (heq ▸ List.mem_cons_self)
      have hask := h.dequeueBulkFrom hw hp intBits max throwsAt
      have hn := toNat_ofNat_min max (c p).length
      have hnle : min max.toNat (c p).length ≤ max.toNat := Nat.min_le_left ..
      have hnlen : min max.toNat (c p).length ≤ (c p).length := Nat.min_le_right ..
      generalize hmin : min max.toNat (c p).length = n at *
      rcases hask with ⟨hends, q', hdequeue, hvalid, hasked⟩ | ⟨hends, hnone⟩
      · rcases Popped.ofList_cases throwsAt n (c p) with ⟨j, hj, hat, hthrew⟩ | ⟨hquiet, hreturned⟩
        · rw [gather_threw hmin hthrew]
          refine .of_succ (a := (q', token, .threw (out ++ (c p).take j))) ?_
            ⟨hvalid, ⟨stop, ht⟩, rfl⟩ fun fuel => ?_
          · rw [LoopsEnd, hmin]
            exact ⟨hends, .inl ⟨j, hj, hat⟩⟩
          · rw [hthrew] at hdequeue
            rw [Queue.circleBulk, if_neg hgo]
            simp only [hdequeue]
        · rw [hreturned] at hdequeue
          have hcount : (count + BitVec.ofNat w n).toNat = count.toNat + n := by
            rw [BitVec.toNat_add_of_lt, hn]
            rw [hn]
            omega
          have hout' : (count + BitVec.ofNat w n).toNat = (out ++ (c p).take n).length := by
            rw [hcount, List.length_append, List.length_take, Nat.min_eq_left hnlen, hout]
          have hrem : (max - BitVec.ofNat w n).toNat = max.toNat - n := by
            rw [BitVec.toNat_sub_of_le (by rw [BitVec.le_def, hn]; exact hnle), hn]
          have hloops := hasked.loopsEnd_iff
            (fun hmem => hnot (List.mem_append_left extra hmem)) hmin hends hquiet ((c p).drop n)
          rw [gather_returned hmin hreturned]
          by_cases hlast : BitVec.ofNat w n = max
          · have hzero : max.toNat - n = 0 := by
              rw [← hrem, hlast, BitVec.sub_self]
              rfl
            rw [hzero] at hloops
            rw [hzero, gather_zero]
            refine .of_succ (a := (q', token.gave p (BitVec.ofNat w n),
              .returned (out ++ (c p).take n).length (out ++ (c p).take n))) (hloops.mpr .zero)
              ⟨hvalid, ht.exists_gave hp, ?_⟩ fun fuel => ?_
            · simp [Popped.after]
            · rw [circleBulk_round fuel hgo hdequeue, if_pos hlast, hout']
          · have hless : n ≠ max.toNat := fun heq =>
              hlast (by rw [heq, BitVec.ofNat_toNat, BitVec.setWidth_eq])
            have hdrained : EmptyOff l rest (update c p ((c p).drop n)) :=
              hoff.drained (by omega)
            have hround := hasked.nextOrTail_eq
            -- The walk stops where it did before, or at `p` if that one gave something.
            have hgoes : ∃ stop' extra', Placed l (token.gave p (BitVec.ofNat w n)) stop' ∧
                IsSegment q'.nextOrTail stop' (q'.nextOrTail p) (rest ++ extra') ∧
                (stop' :: (rest ++ extra')).Nodup ∧ rest ++ extra' ⊆ l := by
              by_cases hgave : BitVec.ofNat w n = 0
              · rw [hgave]
                refine ⟨stop, extra, (gave_zero (w := w) token p).symm ▸ ht, hround ▸ hrest, ?_, ?_⟩
                · rw [List.nodup_cons]
                  exact ⟨fun hmem => hstop (List.mem_cons_of_mem p hmem),
                    (List.nodup_cons.mp hnodup').2⟩
                · exact fun p' hp' => hsub (List.mem_cons_of_mem p hp')
              · obtain ⟨extra', hback, hnodup'', hsub'⟩ := hvalid.exists_extra hp
                  (hround ▸ hrest) hnot
                rw [List.append_assoc] at hback hnodup'' hsub'
                exact ⟨p, extra ++ extra', ht.gave hp hgave, hback, hnodup'', hsub'⟩
            obtain ⟨stop', extra', ht', hwalk', hnodup'', hsub'⟩ := hgoes
            have hrec := ih hvalid ht' _ hwalk' hnodup'' hsub' hdrained (max - BitVec.ofNat w n)
              (count + BitVec.ofNat w n) _ hout' (by rw [hcount, hrem]; omega)
              (throwsAt.map fun j => j - n)
            rw [hrem] at hrec
            rw [Popped.after_after]
            refine hrec.step hloops (fun _ hr => hr) rfl fun fuel => ?_
            rw [circleBulk_round fuel hgo hdequeue, if_neg hlast]
      · refine .never_of_succ (fun hloops => hends ?_) rfl fun fuel => ?_
        · rw [LoopsEnd, hmin] at hloops
          exact hloops.1
        · rw [Queue.circleBulk, if_neg hgo]
          simp only [hnone]

/-- The producers in the order in which a bulk method with the token asks them: around
the list from the producer where the token is after the rotation. -/
def AskedBy (q : Queue w α) (l : List Nat) (token : ConsumerToken) (order : List Nat) : Prop :=
  (l = [] ∧ order = []) ∨
    ∃ token' p before behind, q.prepare token = some (some token') ∧
      token'.currentProducer = some p ∧ l = before ++ p :: behind ∧
      order = p :: (behind ++ before)

theorem AskedBy.perm {token : ConsumerToken} {order : List Nat} (h : AskedBy q l token order) :
    order.Perm l := by
  rcases h with ⟨rfl, rfl⟩ | ⟨token', p, before, behind, -, -, rfl, rfl⟩
  · exact List.Perm.nil
  · exact (List.Perm.cons p List.perm_append_comm).trans List.perm_middle.symm

theorem AskedBy.unique {token : ConsumerToken} {order order' : List Nat}
    (h : AskedBy q l token order) (h' : AskedBy q l token order') (hl : l.Nodup) :
    order = order' := by
  rcases h with ⟨rfl, rfl⟩ | ⟨token₁, p, before, behind, hprepare, hp, rfl, rfl⟩
  · rcases h' with ⟨-, rfl⟩ | ⟨_, _, before', _, -, -, hnil, -⟩
    · rfl
    · cases before' <;> cases hnil
  · rcases h' with ⟨hnil, -⟩ | ⟨token₂, p', before', behind', hprepare', hp', hsplit, rfl⟩
    · cases before <;> cases hnil
    · rw [hprepare] at hprepare'
      cases hprepare'
      rw [hp] at hp'
      cases hp'
      have hnot := (List.nodup_cons.mp (List.nodup_middle.mp hl)).1
      rw [List.mem_append, not_or] at hnot
      obtain ⟨rfl, -, rfl⟩ := (List.append_cons_inj_of_notMem hnot.1 hnot.2).mp hsplit
      rfl

theorem Valid.tryDequeueBulkToken (hw : 0 < w) (h : Valid q l c) {token : ConsumerToken}
    (ht : TokenOf l token) (hcount : q.Rotates token → l = [] ∨ q.producerCount ≠ 0)
    (intBits : Nat) (quota : BitVec 32) (max : BitVec w) (throwsAt : Option Nat) :
    ∃ order, AskedBy q l token order ∧
      ReturnsIff (LoopsEnd intBits q c order max.toNat throwsAt)
        (q.tryDequeueBulkToken intBits quota token max throwsAt)
        fun r => Valid r.1 l (gather order max.toNat throwsAt c).1 ∧ TokenOf l r.2.1 ∧
          r.2.2 = (gather order max.toNat throwsAt c).2 := by
  rcases h.prepare ht hcount with ⟨rfl, hprepare⟩ | ⟨token', p, hprepare, ht'⟩
  · refine ⟨[], .inl ⟨rfl, rfl⟩, .comes (a := (q, token, .returned 0 [])) trivial ⟨h, ht, rfl⟩
      (.of_forall fun fuel => ?_)⟩
    rw [Queue.tryDequeueBulkToken, hprepare]
  · obtain ⟨before, behind, hl, hstop, hwalk⟩ := h.circle_rest ht'.1
    have hasked : AskedBy q l token (p :: (behind ++ before)) :=
      .inr ⟨token', p, before, behind, hprepare, ht'.2.1, hl, rfl⟩
    refine ⟨p :: (behind ++ before), hasked, ?_⟩
    have hoff : EmptyOff l (p :: (behind ++ before)) c := fun p' hp' hnot =>
      absurd (hasked.perm.mem_iff.mpr hp') hnot
    have hask := h.dequeueBulkFrom hw ht'.1 intBits max throwsAt
    have hn := toNat_ofNat_min max (c p).length
    have hnle : min max.toNat (c p).length ≤ max.toNat := Nat.min_le_left ..
    have hnlen : min max.toNat (c p).length ≤ (c p).length := Nat.min_le_right ..
    generalize hmin : min max.toNat (c p).length = n at *
    rcases hask with ⟨hends, q', hdequeue, hvalid, htouched⟩ | ⟨hends, hnone⟩
    · rcases Popped.ofList_cases throwsAt n (c p) with ⟨j, hj, hat, hthrew⟩ | ⟨hquiet, hreturned⟩
      · rw [gather_threw hmin hthrew]
        rw [hthrew] at hdequeue
        refine .comes (a := (q', token', .threw ((c p).take j))) ?_ ⟨hvalid, .inr ⟨p, ht'⟩, rfl⟩
          (.of_forall fun fuel => ?_)
        · rw [LoopsEnd, hmin]
          exact ⟨hends, .inl ⟨j, hj, hat⟩⟩
        · rw [Queue.tryDequeueBulkToken, hprepare]
          simp only [ht'.2.1, hdequeue]
      · rw [gather_returned hmin hreturned]
        rw [hreturned] at hdequeue
        have hloops := htouched.loopsEnd_iff hstop hmin hends hquiet ((c p).drop n)
        by_cases hlast : BitVec.ofNat w n = max
        · have hzero : max.toNat - n = 0 := by
            rw [← hn, hlast, Nat.sub_self]
          rw [hzero] at hloops
          rw [hzero, gather_zero]
          refine .comes (a := (if quota ≤ token'.itemsConsumedFromCurrent + max.setWidth 32
              then q'.rotateAll else q',
            { token' with itemsConsumedFromCurrent :=
                token'.itemsConsumedFromCurrent + max.setWidth 32 },
            .returned max.toNat ((c p).take n))) (hloops.mpr .zero) ⟨?_, .inr ⟨p, ht'⟩, ?_⟩
            (.of_forall fun fuel => ?_)
          · dsimp only
            split
            · exact hvalid.rotateAll
            · exact hvalid
          · have hlen : ((c p).take n).length = max.toNat := by
              rw [List.length_take, Nat.min_eq_left hnlen, ← hn, hlast]
            simp only [Popped.after, hlen, Nat.add_zero, List.append_nil]
          · rw [Queue.tryDequeueBulkToken, hprepare]
            simp only [ht'.2.1, hdequeue, if_pos hlast]
        · have hless : n ≠ max.toNat := fun heq =>
            hlast (by rw [heq, BitVec.ofNat_toNat, BitVec.setWidth_eq])
          have hrem : (max - BitVec.ofNat w n).toNat = max.toNat - n := by
            rw [BitVec.toNat_sub_of_le (by rw [BitVec.le_def, hn]; exact hnle), hn]
          have hround := htouched.nextOrTail_eq
          have hnodup : (p :: (behind ++ before)).Nodup := hasked.perm.nodup_iff.mpr h.list.nodup
          have hplaced : Placed l { token' with itemsConsumedFromCurrent :=
              token'.itemsConsumedFromCurrent + (BitVec.ofNat w n).setWidth 32 } p := ht'
          have hcircle := hvalid.circleBulk hw intBits hplaced (behind ++ before) []
            (by rw [List.append_nil, hround]; exact hwalk) (by rw [List.append_nil]; exact hnodup)
            (by
              rw [List.append_nil]
              exact fun p' hp' => hasked.perm.mem_iff.mp (List.mem_cons_of_mem p hp'))
            (hoff.drained (by omega)) (max - BitVec.ofNat w n) (BitVec.ofNat w n) ((c p).take n)
            (by rw [hn, List.length_take, Nat.min_eq_left hnlen])
            (by rw [hn, hrem]; have := max.isLt; omega) (throwsAt.map fun j => j - n)
          rw [hrem] at hcircle
          refine hcircle.congr hloops
            (fun _ ⟨hvalid', ⟨p', ht''⟩, hr⟩ => ⟨hvalid', .inr ⟨p', ht''⟩, hr⟩) fun fuel => ?_
          rw [Queue.tryDequeueBulkToken, hprepare]
          simp only [ht'.2.1, hdequeue, if_neg hlast, hround]
    · refine .never (fun hloops => hends ?_) fun fuel => ?_
      · rw [LoopsEnd, hmin] at hloops
        exact hloops.1
      · rw [Queue.tryDequeueBulkToken, hprepare]
        simp only [ht'.2.1, hnone]

end Search

end ConcurrentQueue
