import ConcurrentQueue.SearchFinds

/-!
# ConcurrentQueue.BlockingThrow

The blocking queue when **an assignment throws** during a dequeue and nobody else is
calling. A dequeue method first takes permits from the semaphore, then elements from
the inner queue. The exception leaves the method as it is: the permits are gone.

A method that takes one element has lost that element as well, so permits and elements
stay balanced. A bulk method has taken a permit for each of its elements, but lost only
those of the producers it has come to. **The balance is kept exactly when the exception
comes from the last producer that the call needs** (`Last`).
-/

namespace ConcurrentQueue.Blocking

open Function Search Linked Fuel

variable {α σ : Type} {w : Nat}

/-! ### The methods -/

/-- How a method gets at the inner queue: with a token or without. -/
structure Inner (σ : Type) (w : Nat) (α : Type) where
  tryDequeue : (throws : Bool) → σ → (fuel : Nat) → Option (σ × Popped α)
  tryDequeueBulk : (max : BitVec w) → (throwsAt : Option Nat) → σ → (fuel : Nat) →
    Option (σ × Popped α)

def plain (intBits : Nat) : Inner (Queue w α) w α where
  tryDequeue throws q := q.tryDequeue throws
  tryDequeueBulk max throwsAt q := q.tryDequeueBulk intBits max throwsAt

def withToken (intBits : Nat) (quota : BitVec 32) : Inner (Queue w α × ConsumerToken) w α where
  tryDequeue throws s fuel :=
    (s.1.tryDequeueToken quota s.2 throws fuel).map fun r => ((r.1, r.2.1), r.2.2)
  tryDequeueBulk max throwsAt s fuel :=
    (s.1.tryDequeueBulkToken intBits quota s.2 max throwsAt fuel).map fun r =>
      ((r.1, r.2.1), r.2.2)

inductive Method (w : Nat)
  | tryDequeue
  | waitDequeue
  | waitDequeueTimed (timeoutUsecs : Int)
  | tryDequeueBulk (max : BitVec w)
  | waitDequeueBulk (max : BitVec w)
  | waitDequeueBulkTimed (max : BitVec w) (timeoutUsecs : Int)
  deriving DecidableEq, Repr

namespace Method

/-- How many permits the method asks for. -/
def max : Method w → Nat
  | tryDequeue | waitDequeue | waitDequeueTimed _ => 1
  | tryDequeueBulk m | waitDequeueBulk m | waitDequeueBulkTimed m _ => m.toNat

def isBulk : Method w → Bool
  | tryDequeue | waitDequeue | waitDequeueTimed _ => false
  | tryDequeueBulk _ | waitDequeueBulk _ | waitDequeueBulkTimed .. => true

theorem max_lt {m : Method w} (h : m.isBulk = true) : m.max < 2 ^ w := by
  cases m with
  | tryDequeue | waitDequeue | waitDequeueTimed _ => cases h
  | tryDequeueBulk max | waitDequeueBulk max | waitDequeueBulkTimed max _ => exact max.isLt

/-- The method does not come back when there is no permit: it sleeps, and nobody
signals, or it fails the assertion of `waitMany` that it has got one. -/
def blocks : Method w → Bool
  | tryDequeue | tryDequeueBulk _ => false
  | waitDequeue | waitDequeueBulk _ => true
  | waitDequeueTimed t => t < 0
  | waitDequeueBulkTimed m t => 0 < m.toNat ∧ t < 0

end Method

/-- A `BlockingConcurrentQueue` with the available permits of its semaphore. -/
structure BlockingConcurrentQueue (σ : Type) where
  inner : σ
  sema : Nat

/-- `while (!inner.try_dequeue(item)) continue;` -/
def spin (dequeue : σ → Nat → Option (σ × Popped α)) : (fuel : Nat) → σ → Option (σ × Popped α)
  | 0, _ => none
  | fuel + 1, s =>
      match dequeue s fuel with
      | none => none
      | some (s', .returned 0 _) => spin dequeue fuel s'
      | some r => some r

/-- `while (count != max) count += inner.try_dequeue_bulk(itemFirst, max - count);` -/
def spinBulk (dequeue : BitVec w → Option Nat → σ → Nat → Option (σ × Popped α))
    (max : BitVec w) : (fuel : Nat) → (count : BitVec w) → List α → (throwsAt : Option Nat) → σ →
    Option (σ × Popped α)
  | 0, _, _, _, _ => none
  | fuel + 1, count, out, throwsAt, s =>
      if count = max then some (s, .returned count.toNat out)
      else
        match dequeue (max - count) throwsAt s fuel with
        | none => none
        | some (s', .threw xs) => some (s', .threw (out ++ xs))
        | some (s', .returned n xs) =>
            spinBulk dequeue max fuel (count + BitVec.ofNat w n) (out ++ xs)
              (throwsAt.map fun j => j - n) s'

namespace BlockingConcurrentQueue

/-- The permits that `tryWait` or `tryWaitMany` gets. -/
def permits (b : BlockingConcurrentQueue σ) (m : Method w) : Nat :=
  b.sema - if m.max < b.sema then b.sema - m.max else 0

/-- What a method does with its permits. -/
def deliver (i : Inner σ w α) (m : Method w) (max : Nat) (throwsAt : Option Nat) (s : σ)
    (fuel : Nat) : Option (σ × Popped α) :=
  if m.isBulk then spinBulk i.tryDequeueBulk (BitVec.ofNat w max) fuel 0 [] throwsAt s
  else if max = 0 then some (s, .returned 0 [])
  else spin (i.tryDequeue (throwsAt == some 0)) fuel s

/-- A call of a method, in which the assignment of element `throwsAt` throws. -/
def call (b : BlockingConcurrentQueue σ) (i : Inner σ w α) (m : Method w) (throwsAt : Option Nat)
    (fuel : Nat) : Option (BlockingConcurrentQueue σ × Popped α) :=
  -- `assert(static_cast<ssize_t>(max) >= 0)` of the bulk methods.
  if m.isBulk ∧ 2 ^ (w - 1) ≤ m.max then none
  else if b.permits m = 0 ∧ m.blocks then none
  else
    (deliver i m (b.permits m) throwsAt b.inner fuel).map fun r =>
      (⟨r.1, b.sema - b.permits m⟩, r.2)

end BlockingConcurrentQueue

/-! ### The balance -/

/-- The number of elements that the producers `l` hold. -/
def elements (q : Queue w α) (l : List Nat) : Nat := total l fun p => (q.producer p).elements

theorem elements_eq {q : Queue w α} {l : List Nat} {c : Nat → List α} (h : Valid q l c) :
    elements q l = total l c := by
  refine congrArg List.sum (List.map_congr_left fun p hp => ?_)
  show (q.producer p).elements.length = _
  rw [(h.quiescent p hp).elements]

/-- Element `j` of `max` that are gathered in the given order comes from the last
producer that is needed for them. -/
def Last (order : List Nat) (c : Nat → List α) (max j : Nat) : Prop :=
  ∃ before p behind, order = before ++ p :: behind ∧ total before c ≤ j ∧
    max ≤ total before c + (c p).length

section Last

variable {order rest : List Nat} {c : Nat → List α} {max j p : Nat}

theorem last_cons (hj : j < max) :
    Last (p :: rest) c max j ↔ if j < (c p).length then max ≤ (c p).length
      else Last rest c (max - (c p).length) (j - (c p).length) := by
  constructor
  · rintro ⟨before, p', behind, horder, hle, hmax⟩
    cases before with
    | nil =>
        cases horder
        rw [total_nil, Nat.zero_add] at hmax
        rw [if_pos (by omega)]
        exact hmax
    | cons p'' before =>
        cases horder
        rw [total_cons] at hle hmax
        rw [if_neg (by omega)]
        exact ⟨before, p', behind, rfl, by omega, by omega⟩
  · split
    · intro hmax
      exact ⟨[], p, rest, rfl, Nat.zero_le j, by rw [total_nil]; omega⟩
    · rintro ⟨before, p', behind, rfl, hle, hmax⟩
      exact ⟨p :: before, p', behind, rfl, by rw [total_cons]; omega, by rw [total_cons]; omega⟩

theorem last_congr {c' : Nat → List α} (h : ∀ p ∈ order, c' p = c p) :
    Last order c' max j ↔ Last order c max j := by
  have hsame : ∀ before p behind, order = before ++ p :: behind →
      total before c' = total before c ∧ c' p = c p := by
    rintro before p behind rfl
    refine ⟨congrArg List.sum (List.map_congr_left fun p' hp' => ?_), h p (by simp)⟩
    rw [h p' (List.mem_append_left _ hp')]
  constructor
  · rintro ⟨before, p, behind, horder, hle, hmax⟩
    obtain ⟨htotal, hp⟩ := hsame before p behind horder
    exact ⟨before, p, behind, horder, htotal ▸ hle, by rw [← htotal, ← hp]; exact hmax⟩
  · rintro ⟨before, p, behind, horder, hle, hmax⟩
    obtain ⟨htotal, hp⟩ := hsame before p behind horder
    exact ⟨before, p, behind, horder, htotal.symm ▸ hle, by rw [htotal, hp]; exact hmax⟩

theorem gather_of_not_mem {throwsAt : Option Nat} (hp : p ∉ order) :
    (gather order max throwsAt c).1 p = c p := by
  induction order generalizing max throwsAt c with
  | nil => rfl
  | cons p' rest ih =>
      rw [List.mem_cons, not_or] at hp
      generalize hn : min max (c p').length = n
      rcases Popped.ofList_cases throwsAt n (c p') with ⟨j, -, -, hthrew⟩ | ⟨-, hreturned⟩
      · rw [gather_threw hn hthrew]
        exact update_of_ne hp.1 ..
      · rw [gather_returned hn hreturned]
        exact (ih hp.2).trans (update_of_ne hp.1 ..)

/-- **Where the exception leaves the producers.** They have lost `max` elements if it
came from the last one needed. -/
theorem gather_some (hnodup : order.Nodup) (hj : j < max) (hmax : max ≤ total order c) :
    (∃ xs, (gather order max (some j) c).2 = .threw xs) ∧
      (total order (gather order max (some j) c).1 + max = total order c ↔ Last order c max j) := by
  induction order generalizing max j c with
  | nil => exact absurd hmax (by rw [total_nil]; omega)
  | cons p rest ih =>
      obtain ⟨hp, hrest⟩ := List.nodup_cons.mp hnodup
      rw [total_cons] at hmax
      rw [last_cons hj]
      generalize hn : min max (c p).length = n
      by_cases hthrow : j < n
      · have hthrew : Popped.ofList (some j) n (c p) = .threw ((c p).take j) := if_pos hthrow
        have hleft : total (p :: rest) (update c p ((c p).drop n)) =
            (c p).length - n + total rest c := by
          rw [total_cons, update_self, total_update hp, List.length_drop]
        rw [gather_threw hn hthrew, if_pos (by omega)]
        refine ⟨⟨_, rfl⟩, ?_⟩
        show total (p :: rest) (update c p ((c p).drop n)) + max = _ ↔ _
        rw [hleft, total_cons]
        omega
      · have hreturned : Popped.ofList (some j) n (c p) = .returned n ((c p).take n) :=
          if_neg hthrow
        -- The producer is left without elements, for `j` is one of the next ones.
        have hall : n = (c p).length := by omega
        have hsame : ∀ p' ∈ rest, update c p ((c p).drop n) p' = c p' := fun p' hp' =>
          update_of_ne (ne_of_mem_of_not_mem hp' hp) ..
        obtain ⟨⟨xs, hxs⟩, hiff⟩ := ih (c := update c p ((c p).drop n)) hrest
          (show j - n < max - n by omega) (by rw [total_update hp]; omega)
        rw [total_update hp, last_congr hsame] at hiff
        rw [gather_returned hn hreturned, if_neg (by omega), ← hall, ← hiff, Option.map_some]
        refine ⟨⟨_, congrArg (Popped.after ((c p).take n)) hxs⟩, ?_⟩
        show total (p :: rest) (gather rest (max - n) (some (j - n)) _).1 + max = _ ↔ _
        rw [total_cons, total_cons, gather_of_not_mem hp, update_self, List.length_drop]
        omega

/-- Without an exception among the elements gathered, there might as well be none. -/
theorem gather_quiet (hj : max ≤ j) : gather order max (some j) c = gather order max none c := by
  induction order generalizing max j c with
  | nil => rfl
  | cons p rest ih =>
      generalize hn : min max (c p).length = n
      have hreturned : Popped.ofList (some j) n (c p) = .returned n ((c p).take n) :=
        if_neg (by omega)
      rw [gather_returned hn hreturned, gather_returned hn rfl, Option.map_some, Option.map_none,
        ih (by omega)]

end Last

/-! ### Calls -/

variable {intBits : Nat} {l order : List Nat} {c : Nat → List α} {i : Inner σ w α}
  {queue : σ → Queue w α}
  {b b' : BlockingConcurrentQueue σ} {m : Method w} {j : Nat} {xs : List α}

/-- On the inner queue in state `s` the methods come back with what they should, or, in
bulk, not at all. -/
structure Works (intBits : Nat) (i : Inner σ w α) (queue : σ → Queue w α) (l order : List Nat)
    (c : Nat → List α) (s : σ) : Prop where
  valid : Valid (queue s) l c
  perm : order.Perm l
  single : ∀ throws, ∃ s' r, Found throws (queue s) l c (queue s') r ∧
    Returns (i.tryDequeue throws s) (s', r)
  bulk : ∀ max throwsAt, ReturnsIff (LoopsEnd intBits (queue s) c order max.toNat throwsAt)
    (i.tryDequeueBulk max throwsAt s)
    fun r => Valid (queue r.1) l (gather order max.toNat throwsAt c).1 ∧
      r.2 = (gather order max.toNat throwsAt c).2

theorem permits_eq : b.permits m = min m.max b.sema := by
  rw [BlockingConcurrentQueue.permits]
  split <;> omega

theorem deliver_of_call {r : Popped α} {throwsAt : Option Nat}
    (h : Returns (b.call i m throwsAt) (b', r)) :
    Returns (BlockingConcurrentQueue.deliver i m (b.permits m) throwsAt b.inner) (b'.inner, r) ∧
      b'.sema = b.sema - b.permits m := by
  obtain ⟨n, hn⟩ := h
  have hcall : ∀ fuel, n ≤ fuel →
      (BlockingConcurrentQueue.deliver i m (b.permits m) throwsAt b.inner fuel).map
        (fun r => ((⟨r.1, b.sema - b.permits m⟩ : BlockingConcurrentQueue σ), r.2)) =
      some (b', r) := by
    intro fuel hfuel
    have := hn fuel hfuel
    rw [BlockingConcurrentQueue.call] at this
    split at this
    · cases this
    · split at this
      · cases this
      · exact this
  refine ⟨⟨n, fun fuel hfuel => ?_⟩, ?_⟩
  · obtain ⟨⟨s, r'⟩, hdeliver, heq⟩ := Option.map_eq_some_iff.mp (hcall fuel hfuel)
    cases heq
    exact hdeliver
  · obtain ⟨⟨s, r'⟩, -, heq⟩ := Option.map_eq_some_iff.mp (hcall n le_rfl)
    cases heq
    rfl

theorem spin_returns {dequeue : σ → Nat → Option (σ × Popped α)} {s s' : σ} {r : Popped α}
    (h : Returns (dequeue s) (s', r)) (hr : ∀ ys, r ≠ .returned 0 ys) :
    Returns (fun fuel => spin dequeue fuel s) (s', r) := by
  refine h.round fun fuel hfuel => ?_
  rw [spin, hfuel]
  match r, hr with
  | .returned 0 ys, hr => exact absurd rfl (hr ys)
  | .returned (n + 1) ys, _ => rfl
  | .threw ys, _ => rfl

/-- One element: it is gone, and so is its permit. -/
theorem Works.single_balanced (h : Works intBits i queue l order c b.inner)
    (hbal : b.sema = total l c)
    (hm : m.isBulk = false) (hcall : Returns (b.call i m (some j)) (b', .threw xs)) :
    b'.sema = elements (queue b'.inner) l := by
  obtain ⟨hdeliver, hsema⟩ := deliver_of_call hcall
  have hone : m.max = 1 := by cases m <;> first | rfl | cases hm
  rw [permits_eq, hone, hbal] at hdeliver hsema
  rcases Nat.eq_zero_or_pos (total l c) with hzero | hpos
  · -- No permit, hence no exception.
    rw [hzero] at hdeliver
    have hreturned : Returns (BlockingConcurrentQueue.deliver i m 0 (some j) b.inner)
        (b.inner, .returned 0 []) := .of_forall fun fuel => by
      rw [BlockingConcurrentQueue.deliver, hm]
      rfl
    cases congrArg Prod.snd (hdeliver.unique hreturned)
  · obtain ⟨s', r, hfound, hreturns⟩ := h.single (some j == some 0)
    have hk : min 1 (total l c) = 1 := by omega
    rw [hk] at hdeliver hsema
    generalize hq : queue s' = q' at hfound
    cases hfound with
    | empty hempty =>
        refine absurd hpos (Nat.not_lt.mpr (Nat.le_of_eq (List.sum_eq_zero fun x hx => ?_)))
        obtain ⟨p, hp, rfl⟩ := List.mem_map.mp hx
        rw [hempty p hp, List.length_nil]
    | @took p x ys q' hp hc hvalid _ =>
        have hspin := spin_returns hreturns fun ys => by
          rw [taken]
          split <;> simp
        have hreturned := hspin.imp (g := BlockingConcurrentQueue.deliver i m 1 (some j) b.inner)
          fun fuel hfuel => by
            rw [BlockingConcurrentQueue.deliver, hm]
            exact hfuel
        have hinner : b'.inner = s' := congrArg Prod.fst (hdeliver.unique hreturned)
        have htotal := total_update_add c ys hp h.valid.list.nodup
        rw [hc, List.length_cons] at htotal
        rw [hsema, hinner, hq, elements_eq hvalid]
        omega

theorem spinBulk_returns {dequeue : BitVec w → Option Nat → σ → Nat → Option (σ × Popped α)}
    {s s' : σ} {max : BitVec w} {throwsAt : Option Nat} {r : Popped α} (hmax : 0 ≠ max)
    (h : Returns (dequeue max throwsAt s) (s', r))
    (hr : ∀ n ys, r = .returned n ys → n = max.toNat) :
    Returns (fun fuel => spinBulk dequeue max fuel 0 [] throwsAt s) (s', r) := by
  have hzero : max - 0 = max := BitVec.sub_zero max
  cases r with
  | threw ys =>
      refine h.round fun fuel hfuel => ?_
      rw [spinBulk, if_neg hmax, hzero, hfuel]
      rfl
  | returned n ys =>
      have hn := hr n ys rfl
      -- The second round finds that all is there.
      obtain ⟨N, hN⟩ := h
      refine ⟨N + 2, fun fuel hfuel => ?_⟩
      obtain ⟨fuel, rfl⟩ := Nat.exists_eq_add_of_le' (show 2 ≤ fuel by omega)
      have hall : 0 + BitVec.ofNat w n = max := by
        rw [hn, BitVec.ofNat_toNat, BitVec.setWidth_eq]
        exact BitVec.zero_add max
      show spinBulk dequeue max (fuel + 1 + 1) 0 [] throwsAt s = _
      rw [spinBulk, if_neg hmax, hzero, hN (fuel + 1) (by omega)]
      show spinBulk dequeue max (fuel + 1) (0 + BitVec.ofNat w n) ([] ++ ys) _ s' = _
      rw [hall, spinBulk, if_pos rfl, hn]
      rfl

theorem spinBulk_none {dequeue : BitVec w → Option Nat → σ → Nat → Option (σ × Popped α)}
    {s : σ} {max : BitVec w} {throwsAt : Option Nat} (hmax : 0 ≠ max)
    (h : ∀ fuel, dequeue max throwsAt s fuel = none) (fuel : Nat) :
    spinBulk dequeue max fuel 0 [] throwsAt s = none := by
  have hzero : max - 0 = max := BitVec.sub_zero max
  cases fuel with
  | zero => rfl
  | succ fuel => rw [spinBulk, if_neg hmax, hzero, h]

/-- Many elements: the permits for all of them are gone, the elements if the exception
came from the last producer that was needed. -/
theorem Works.bulk_balanced_iff (h : Works intBits i queue l order c b.inner)
    (hbal : b.sema = total l c) (hm : m.isBulk = true)
    (hcall : Returns (b.call i m (some j)) (b', .threw xs)) :
    b'.sema = elements (queue b'.inner) l ↔ Last order c (min m.max (total l c)) j := by
  obtain ⟨hdeliver, hsema⟩ := deliver_of_call hcall
  rw [permits_eq, hbal] at hdeliver hsema
  have hle : min m.max (total l c) ≤ total l c := Nat.min_le_right ..
  have hmax : min m.max (total l c) < 2 ^ w := (Nat.min_le_left ..).trans_lt (Method.max_lt hm)
  generalize min m.max (total l c) = k at hdeliver hsema hle hmax ⊢
  have hk : (BitVec.ofNat w k).toNat = k := by
    rw [BitVec.toNat_ofNat, Nat.mod_eq_of_lt hmax]
  have hnodup : order.Nodup := h.perm.nodup_iff.mpr h.valid.list.nodup
  replace hdeliver : Returns (fun fuel =>
      spinBulk i.tryDequeueBulk (BitVec.ofNat w k) fuel 0 [] (some j) b.inner)
      (b'.inner, .threw xs) := hdeliver.imp fun fuel hfuel => by
    rwa [BlockingConcurrentQueue.deliver, if_pos hm] at hfuel
  have hne : 0 ≠ BitVec.ofNat w k := fun hzero => by
    have hreturned : Returns (fun fuel =>
        spinBulk i.tryDequeueBulk (BitVec.ofNat w k) fuel 0 [] (some j) b.inner)
        (b.inner, .returned (0 : BitVec w).toNat []) :=
      .of_succ fun fuel => by rw [spinBulk, if_pos hzero]
    cases congrArg Prod.snd (hdeliver.unique hreturned)
  cases h.bulk (BitVec.ofNat w k) (some j) with
  | never _ hnone =>
      obtain ⟨n, hn⟩ := hdeliver
      cases (spinBulk_none hne hnone n).symm.trans (hn n le_rfl)
  | @comes r _ hr hreturns =>
      obtain ⟨s', r⟩ := r
      obtain ⟨hvalid, rfl⟩ := hr
      dsimp only at hvalid
      rw [hk] at hvalid hreturns
      by_cases hj : j < k
      · obtain ⟨⟨ys, hys⟩, hiff⟩ := gather_some hnodup hj (by rw [total_perm h.perm]; exact hle)
        rw [hys] at hreturns
        have hinner : b'.inner = s' :=
          congrArg Prod.fst (hdeliver.unique (spinBulk_returns hne hreturns nofun))
        rw [total_perm h.perm, total_perm h.perm] at hiff
        rw [hsema, hinner, elements_eq hvalid, ← hiff]
        omega
      · -- No assignment that throws is reached.
        obtain ⟨given, hgiven, -⟩ := gather_none hnodup k c
        rw [total_perm h.perm, Nat.min_eq_left hle] at hgiven
        rw [gather_quiet (Nat.not_lt.mp hj), hgiven] at hreturns
        have hreturned := spinBulk_returns hne hreturns fun n ys heq => by
          cases heq
          exact hk.symm
        cases congrArg Prod.snd (hdeliver.unique hreturned)

/-! ### With a token and without -/

theorem plain_works {q : Queue w α} (intBits : Nat) (hw : 0 < w) (h : Valid q l c) :
    Works intBits (plain intBits) (fun q => q) l l c q where
  valid := h
  perm := List.Perm.refl l
  single throws := h.tryDequeue throws hw
  bulk max throwsAt := h.tryDequeueBulk hw intBits max throwsAt

theorem withToken_works {q : Queue w α} {token : ConsumerToken} (intBits : Nat)
    (quota : BitVec 32) (hw : 0 < w) (h : Valid q l c) (ht : TokenOf l token)
    (hcount : q.Rotates token → l = [] ∨ q.producerCount ≠ 0)
    (hasked : AskedBy q l token order) :
    Works intBits (withToken intBits quota) Prod.fst l order c (q, token) where
  valid := h
  perm := hasked.perm
  single throws := by
    obtain ⟨q', token', r, hfound, -, hreturns⟩ := h.tryDequeueToken throws hw ht hcount quota
    exact ⟨(q', token'), r, hfound, hreturns.imp fun fuel hfuel => congrArg (Option.map _) hfuel⟩
  bulk max throwsAt := by
    obtain ⟨order', hasked', hbulk⟩ :=
      h.tryDequeueBulkToken hw ht hcount intBits quota max throwsAt
    rw [hasked.unique hasked' h.list.nodup]
    exact hbulk.map (fun r : Queue w α × ConsumerToken × Popped α => ((r.1, r.2.1), r.2.2))
      fun _ ⟨hvalid, _, hr⟩ => ⟨hvalid, hr⟩

/-- **When an exception leaves permits and elements balanced.** The state is any in which
no call is under way and the permits are as many as the elements. After an exception
from a method that takes one element they are again; after one from a bulk method if
and only if the assignment that threw was that of an element of the last producer
needed for the call. -/
theorem exception_balanced_iff (hw : 0 < w) (intBits : Nat) {q : Queue w α} (h : Valid q l c)
    (m : Method w) (j : Nat) :
    (∀ b' xs, Returns (BlockingConcurrentQueue.call ⟨q, total l c⟩ (plain intBits) m (some j))
        (b', .threw xs) →
      (b'.sema = elements b'.inner l ↔ (m.isBulk → Last l c (min m.max (total l c)) j))) ∧
    ∀ token order quota, TokenOf l token → AskedBy q l token order →
      ∀ b' xs, Returns (BlockingConcurrentQueue.call ⟨(q, token), total l c⟩
          (withToken intBits quota) m (some j)) (b', .threw xs) →
        (b'.sema = elements b'.inner.1 l ↔
          (m.isBulk → Last order c (min m.max (total l c)) j)) := by
  refine ⟨fun b' xs hcall => ?_, fun token order quota ht hasked b' xs hcall => ?_⟩
  · have hworks := plain_works intBits hw h
    cases hm : m.isBulk with
    | false => simpa using hworks.single_balanced rfl hm hcall
    | true => simpa using hworks.bulk_balanced_iff rfl hm hcall
  · -- Where the token has found its place, the producers are counted.
    have hcount : q.Rotates token → l = [] ∨ q.producerCount ≠ 0 := by
      intro hrotates
      rcases hasked with ⟨hnil, -⟩ | ⟨token', p, before, behind, hprepare, -, rfl, -⟩
      · exact .inl hnil
      · refine .inr fun hzero => ?_
        rw [h.prepare_zero (by simp) hrotates hzero] at hprepare
        cases hprepare
    have hworks := withToken_works intBits quota hw h ht hcount hasked
    cases hm : m.isBulk with
    | false => simpa using hworks.single_balanced rfl hm hcall
    | true => simpa using hworks.bulk_balanced_iff rfl hm hcall

/-- Two producers, with one element and with two. -/
def pair : Queue 8 Nat where
  producer p := if p = 0 then ⟨0, 1, 0, 0, [5]⟩ else ⟨0, 2, 0, 0, [6, 7]⟩
  next p := if p = 0 then some 1 else none
  producerListTail := some 0
  producerCount := 2
  globalExplicitConsumerOffset := 0

def pairElements (p : Nat) : List Nat := if p = 0 then [5] else [6, 7]

theorem pair_valid : Valid pair [0, 1] pairElements where
  list := ⟨rfl, rfl, trivial⟩
  quiescent := by
    intro p _
    show SubQueue.Quiescent (if p = 0 then _ else _) (if p = 0 then _ else _)
    split
    · exact ⟨rfl, rfl, rfl, by decide⟩
    · exact ⟨rfl, rfl, rfl, by decide⟩
  count := rfl

/-- The producer with one element has lost it. -/
def robbed : Queue 8 Nat :=
  { pair with producer := update pair.producer 0 ⟨1, 1, 1, 0, []⟩ }

/-- An assignment that throws in a call for `max` elements. -/
theorem pair_throws {max : BitVec 8} (k : Nat)
    (h : ∀ fuel, BlockingConcurrentQueue.call ⟨pair, 3⟩ (plain 32) (.tryDequeueBulk max) (some 0)
      (fuel + 3) = some (⟨robbed, k⟩, .threw [])) :
    Returns (BlockingConcurrentQueue.call ⟨pair, 3⟩ (plain 32) (.tryDequeueBulk max) (some 0))
      (⟨robbed, k⟩, .threw []) := by
  refine ⟨3, fun fuel hfuel => ?_⟩
  obtain ⟨fuel, rfl⟩ := Nat.exists_eq_add_of_le' hfuel
  exact h fuel

theorem pair_one_balanced :
    Returns (BlockingConcurrentQueue.call ⟨pair, 3⟩ (plain 32) (.tryDequeueBulk 1) (some 0))
        (⟨robbed, 2⟩, .threw []) ∧
      (2 = elements robbed [0, 1] ↔
        ((Method.tryDequeueBulk 1#8).isBulk → Last [0, 1] pairElements (min 1 3) 0)) :=
  have hthrows := pair_throws 2 fun _ => rfl
  ⟨hthrows, (exception_balanced_iff (by decide) 32 pair_valid _ 0).1 _ _ hthrows⟩

/-- Two elements are left without a permit, and no method of the blocking queue gets at
them. -/
theorem exception_strands :
    Valid pair [0, 1] pairElements ∧ total [0, 1] pairElements = 3 ∧
      Returns (BlockingConcurrentQueue.call ⟨pair, 3⟩ (plain 32) (.tryDequeueBulk 3) (some 0))
        (⟨robbed, 0⟩, .threw []) ∧
      elements robbed [0, 1] = 2 ∧
      Returns (BlockingConcurrentQueue.call ⟨robbed, 0⟩ (plain 32) .tryDequeue none)
        (⟨robbed, 0⟩, .returned 0 []) :=
  ⟨pair_valid, rfl, pair_throws 0 fun _ => rfl, rfl, .of_forall fun _ => rfl⟩

end ConcurrentQueue.Blocking
