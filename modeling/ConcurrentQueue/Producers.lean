import ConcurrentQueue.Lib.Interleaving
import ConcurrentQueue.Lib.Linked
import ConcurrentQueue.Lib.Ownership

/-!
# ConcurrentQueue.Producers

The queue's **list of producers** (`recycle_or_create_producer`, `add_producer`)
and its users. A user is a `ProducerToken`, or a thread as far as its implicit
producer is concerned: it acquires a producer of its kind, has it for a while and
releases it. Producers stay on the list for ever; a released one is marked
`inactive` and is caught by the next user whose compare-exchange on that flag
succeeds.

**An active producer has exactly one user**, and that user is of its kind.
-/

namespace ConcurrentQueue.Producers

open Function Interleaving Linked Ownership

/-- Producers are numbered in the order of their allocation. -/
structure State where
  producerListTail : Option Nat
  /-- A `std::uint32_t`. -/
  producerCount : Nat
  next : Nat → Option Nat
  isExplicit : Nat → Bool
  inactive : Nat → Bool
  /-- Producers allocated so far. -/
  created : Nat
  /-- History: what the compare-exchange of `add_producer` has put on the list, the
  last one first. -/
  added : List Nat

inductive PC
  | idle
  /-- `recycle_or_create_producer`. -/
  | loadTail (isExplicit : Bool)
  | loadInactive (isExplicit : Bool) (ptr : Nat)
  | casInactive (isExplicit : Bool) (ptr : Nat)
  | create (isExplicit : Bool)
  /-- `add_producer`. -/
  | fetchAddCount (isExplicit : Bool) (producer : Nat)
  | loadPrevTail (isExplicit : Bool) (producer : Nat)
  | casTail (isExplicit : Bool) (producer : Nat) (prevTail : Option Nat)
  /-- A live token, or a registered thread. -/
  | owned (isExplicit : Bool) (producer : Nat)
  /-- `update_current_producer_after_rotation`. -/
  | rotateLoadTail
  | rotateLoadCount (tail : Nat)
  | rotateRemainder (tail prodCount : Nat)
  deriving DecidableEq, Repr

inductive Act
  | acquire (isExplicit : Bool)
  | release
  | rotate
  | run
  /-- The allocation fails, or the weak compare-exchange does so spuriously. -/
  | fail
  deriving DecidableEq, Repr

/-- The test of the loop that looks for a producer to recycle. -/
def scan (isExplicit : Bool) : Option Nat → PC
  | some ptr => .loadInactive isExplicit ptr
  | none => .create isExplicit

def State.setInactive (s : State) (p : Nat) (b : Bool) : State :=
  { s with inactive := update s.inactive p b }

def State.setNext (s : State) (p : Nat) (x : Option Nat) : State :=
  { s with next := update s.next p x }

/-- `create<ExplicitProducer>(this)` or `create<ImplicitProducer>(this)`. -/
def State.allocate (s : State) (isExplicit : Bool) : State :=
  { s with
    next := update s.next s.created none
    isExplicit := update s.isExplicit s.created isExplicit
    inactive := update s.inactive s.created false
    created := s.created + 1 }

/-- The successful compare-exchange of `add_producer`. -/
def State.push (s : State) (p : Nat) : State :=
  { s with producerListTail := some p, added := p :: s.added }

variable {ι : Type*}

/-- One atomic step. -/
def exec : Exec ι Act State PC
  | _, .acquire k, s, .idle => some (s, .loadTail k)
  | _, .run, s, .loadTail k => some (s, scan k s.producerListTail)
  | _, .run, s, .loadInactive k p =>
      if s.inactive p && s.isExplicit p == k then some (s, .casInactive k p)
      else some (s, scan k (s.next p))
  | _, .run, s, .casInactive k p =>
      if s.inactive p then some (s.setInactive p false, .owned k p)
      else some (s, scan k (s.next p))
  | _, .run, s, .create k => some (s.allocate k, .fetchAddCount k s.created)
  | _, .fail, s, .create _ => some (s, .idle)
  | _, .run, s, .fetchAddCount k p =>
      some ({ s with producerCount := (s.producerCount + 1) % 2 ^ 32 }, .loadPrevTail k p)
  | _, .run, s, .loadPrevTail k p => some (s, .casTail k p s.producerListTail)
  | _, .run, s, .casTail k p prevTail =>
      -- the producer is not on the list yet, so that nobody sees the store to `next`
      let s' := s.setNext p prevTail
      if s.producerListTail = prevTail then some (s'.push p, .owned k p)
      else some (s', .casTail k p s.producerListTail)
  | _, .fail, s, .casTail k p prevTail =>
      some (s.setNext p prevTail, .casTail k p s.producerListTail)
  | _, .release, s, .owned _ p => some (s.setInactive p true, .idle)
  | _, .rotate, s, .idle => some (s, .rotateLoadTail)
  | _, .run, s, .rotateLoadTail =>
      match s.producerListTail with
      | some tail => some (s, .rotateLoadCount tail)
      | none => some (s, .idle)
  | _, .run, s, .rotateLoadCount tail => some (s, .rotateRemainder tail s.producerCount)
  | _, .run, s, .rotateRemainder _ _ => some (s, .idle)
  | _, _, _, _ => none

/-- A new queue. -/
def Init (c : Conf ι State PC) : Prop :=
  c.shared.producerListTail = none ∧ c.shared.producerCount = 0 ∧ c.shared.created = 0 ∧
    c.shared.added = [] ∧ ∀ i, c.locals i = .idle

/-! ### The invariant -/

/-- The producer a user has or is about to have. -/
def PC.holds : PC → Option Nat
  | .fetchAddCount _ p | .loadPrevTail _ p | .casTail _ p _ | .owned _ p => some p
  | _ => none

/-- The producer is allocated but not on the list yet. -/
def PC.pending : PC → Nat
  | .fetchAddCount .. | .loadPrevTail .. | .casTail .. => 1
  | _ => 0

/-- It is already counted. -/
def PC.counted : PC → Nat
  | .loadPrevTail .. | .casTail .. => 1
  | _ => 0

/-- What a user knows at each of its steps. -/
def PC.Ok (s : State) : PC → Prop
  | .loadInactive _ p | .rotateLoadCount p => p ∈ s.added
  | .casInactive k p => p ∈ s.added ∧ s.isExplicit p = k
  | .fetchAddCount k p | .loadPrevTail k p | .casTail k p _ =>
      p < s.created ∧ s.isExplicit p = k ∧ p ∉ s.added
  | .owned k p => p < s.created ∧ s.isExplicit p = k
  | .rotateRemainder _ n => s.created < 2 ^ 32 → n ≠ 0
  | _ => True

/-- The producers in use. -/
def State.Active (s : State) (p : Nat) : Prop := p < s.created ∧ s.inactive p = false

structure Inv [Fintype ι] (s : State) (locals : ι → PC) : Prop where
  list : IsList s.next s.producerListTail s.added
  listed : ∀ p ∈ s.added, p < s.created
  ok : ∀ i, (locals i).Ok s
  owned : Owned (PC.holds ∘ locals) s.Active
  created : s.created = s.added.length + ∑ i, (locals i).pending
  count : s.producerCount = (s.added.length + ∑ i, (locals i).counted) % 2 ^ 32

/-- What a user knows outlives the steps of others, as long as these only allocate. -/
theorem PC.Ok.mono {s s' : State} {l : PC} (h : l.Ok s) (hlisted : ∀ p ∈ s.added, p < s.created)
    (hadded : s'.added = s.added) (hcreated : s.created ≤ s'.created)
    (hkind : ∀ p < s.created, s'.isExplicit p = s.isExplicit p) : l.Ok s' := by
  cases l with
  | loadInactive k p | rotateLoadCount p =>
      show p ∈ s'.added
      rw [hadded]
      exact h
  | casInactive k p => exact ⟨hadded ▸ h.1, (hkind p (hlisted p h.1)).trans h.2⟩
  | fetchAddCount k p | loadPrevTail k p | casTail k p x =>
      exact ⟨h.1.trans_le hcreated, (hkind p h.1).trans h.2.1, hadded ▸ h.2.2⟩
  | owned k p => exact ⟨h.1.trans_le hcreated, (hkind p h.1).trans h.2⟩
  | rotateRemainder p n => exact fun hlt => h (hcreated.trans_lt hlt)
  | idle | loadTail | create | rotateLoadTail => trivial

/-! ### Steps -/

namespace Inv

variable [Fintype ι] {s : State} {locals : ι → PC} {i : ι} {l : PC}

/-- The producer that follows one of the list is on the list. -/
theorem mem_next (h : Inv s locals) {p : Nat} (hp : p ∈ s.added) (q : Nat)
    (hq : s.next p = some q) : q ∈ s.added := by
  obtain ⟨before, after, hsplit⟩ := List.append_of_mem hp
  have hrest : IsList s.next (s.next p) after := IsList.of_append (hsplit ▸ h.list)
  rw [hq] at hrest
  cases after with
  | nil => simp at hrest
  | cons r after =>
      obtain ⟨hr, -⟩ := isList_cons.mp hrest
      rw [hsplit, Option.some.inj hr]
      simp

theorem mem_tail (h : Inv s locals) (p : Nat) (hp : s.producerListTail = some p) :
    p ∈ s.added := by
  have hl := h.list
  cases hadded : s.added with
  | nil =>
      rw [hadded, isList_nil, hp] at hl
      cases hl
  | cons q rest =>
      rw [hadded, isList_cons, hp] at hl
      rw [Option.some.inj hl.1]
      exact List.mem_cons_self

/-- The list is not longer than the counter says. -/
theorem length_le (h : Inv s locals) (hlt : s.created < 2 ^ 32) :
    s.added.length ≤ s.producerCount := by
  have hle : ∑ j, (locals j).counted ≤ ∑ j, (locals j).pending :=
    Finset.sum_le_sum fun j _ => by
      cases locals j <;> simp [PC.counted, PC.pending]
  have hcreated := h.created
  rw [h.count, Nat.mod_eq_of_lt (by omega)]
  exact Nat.le_add_right ..

variable [DecidableEq ι]

/-- A step that only moves a user on, without touching what it has. -/
theorem move (h : Inv s locals) (hholds : l.holds = (locals i).holds)
    (hpending : l.pending = (locals i).pending) (hcounted : l.counted = (locals i).counted)
    (hok : l.Ok s) : Inv s (update locals i l) := by
  refine ⟨h.list, h.listed, forall_update hok h.ok, ?_, ?_, ?_⟩
  · rw [comp_update, hholds]
    exact (update_eq_self i (PC.holds ∘ locals)).symm ▸ h.owned
  · have hsum := sum_update_add PC.pending locals i l
    have hcreated := h.created
    omega
  · have hsum := sum_update_add PC.counted locals i l
    rw [hcounted] at hsum
    rw [Nat.add_right_cancel hsum]
    exact h.count

/-- A user goes on to the next producer of the list, or to creating one. -/
theorem scan (h : Inv s locals) (hholds : (locals i).holds = none)
    (hpending : (locals i).pending = 0) (hcounted : (locals i).counted = 0) {x : Option Nat}
    (hx : ∀ p, x = some p → p ∈ s.added) (k : Bool) :
    Inv s (update locals i (Producers.scan k x)) := by
  cases x with
  | none => exact h.move hholds.symm hpending.symm hcounted.symm trivial
  | some p => exact h.move hholds.symm hpending.symm hcounted.symm (hx p rfl)

/-- A user that catches an inactive producer is its only user. -/
theorem catchInactive (h : Inv s locals) {k : Bool} {p : Nat}
    (hi : locals i = .casInactive k p) (hp : s.inactive p = true) :
    Inv (s.setInactive p false) (update locals i (.owned k p)) := by
  obtain ⟨hmem, hkind⟩ : p ∈ s.added ∧ s.isExplicit p = k := by
    have := h.ok i
    rwa [hi] at this
  have hlt := h.listed p hmem
  refine ⟨h.list, h.listed, forall_update ⟨hlt, hkind⟩ fun j => ?_, ?_, ?_, ?_⟩
  · exact (h.ok j).mono h.listed rfl le_rfl fun _ _ => rfl
  · rw [comp_update]
    refine h.owned.gain (p := p) (by rw [Function.comp_apply, hi]; rfl) ?_ fun q => ?_
    · rintro ⟨-, hactive⟩
      rw [hp] at hactive
      cases hactive
    · rcases eq_or_ne q p with rfl | hqp
      · simp [State.Active, State.setInactive, hlt]
      · simp [State.Active, State.setInactive, hqp]
  · have hsum := sum_update_eq PC.pending hi (.owned k p) 0 0 rfl rfl
    have hcreated := h.created
    simp only [State.setInactive]
    omega
  · have hsum := sum_update_eq PC.counted hi (.owned k p) 0 0 rfl rfl
    simp only [State.setInactive]
    rw [Nat.add_right_cancel hsum]
    exact h.count

theorem allocate (h : Inv s locals) {k : Bool} (hi : locals i = .create k) :
    Inv (s.allocate k) (update locals i (.fetchAddCount k s.created)) := by
  have hnew : s.created ∉ s.added := fun hmem => lt_irrefl _ (h.listed _ hmem)
  refine ⟨h.list.update hnew none, fun p hp => (h.listed p hp).trans (Nat.lt_succ_self _),
    forall_update ⟨Nat.lt_succ_self _, update_self .., hnew⟩ fun j => ?_, ?_, ?_, ?_⟩
  · exact (h.ok j).mono h.listed rfl (Nat.le_succ _) fun p hp => update_of_ne hp.ne ..
  · rw [comp_update]
    refine h.owned.gain (p := s.created) (by rw [Function.comp_apply, hi]; rfl) ?_ fun q => ?_
    · exact fun hactive => lt_irrefl _ hactive.1
    · rcases eq_or_ne q s.created with rfl | hq
      · simp [State.Active, State.allocate]
      · have hlt : q < s.created + 1 ↔ q < s.created := by omega
        simp [State.Active, State.allocate, hq, hlt]
  · have hsum := sum_update_eq PC.pending hi (.fetchAddCount k s.created) 0 1 rfl rfl
    have hcreated := h.created
    simp only [State.allocate]
    omega
  · have hsum := sum_update_eq PC.counted hi (.fetchAddCount k s.created) 0 0 rfl rfl
    simp only [State.allocate]
    rw [Nat.add_right_cancel hsum]
    exact h.count

theorem fetchAdd (h : Inv s locals) {k : Bool} {p : Nat} (hi : locals i = .fetchAddCount k p) :
    Inv { s with producerCount := (s.producerCount + 1) % 2 ^ 32 }
      (update locals i (.loadPrevTail k p)) := by
  have hok : (PC.fetchAddCount k p).Ok s := hi ▸ h.ok i
  refine ⟨h.list, h.listed, forall_update hok fun j => ?_, ?_, ?_, ?_⟩
  · exact (h.ok j).mono h.listed rfl le_rfl fun _ _ => rfl
  · rw [comp_update, show (PC.loadPrevTail k p).holds = (PC.holds ∘ locals) i by
      rw [Function.comp_apply, hi]; rfl, update_eq_self]
    exact h.owned
  · have hsum := sum_update_eq PC.pending hi (.loadPrevTail k p) 1 1 rfl rfl
    rw [Nat.add_right_cancel hsum]
    exact h.created
  · have hsum := sum_update_eq PC.counted hi (.loadPrevTail k p) 0 1 rfl rfl
    rw [Nat.add_zero] at hsum
    show (s.producerCount + 1) % 2 ^ 32 = _
    rw [hsum, h.count, Nat.mod_add_mod, Nat.add_assoc]

/-- A compare-exchange of `add_producer` that fails. -/
theorem retry (h : Inv s locals) {k : Bool} {p : Nat} {prevTail : Option Nat}
    (hi : locals i = .casTail k p prevTail) (x : Option Nat) :
    Inv (s.setNext p prevTail) (update locals i (.casTail k p x)) := by
  have hok : (PC.casTail k p prevTail).Ok s := hi ▸ h.ok i
  have hmove : Inv s (update locals i (.casTail k p x)) :=
    h.move (by rw [hi]; rfl) (by rw [hi]; rfl) (by rw [hi]; rfl) hok
  exact ⟨h.list.update hok.2.2 prevTail, h.listed, fun j => (hmove.ok j).mono h.listed rfl le_rfl
    fun _ _ => rfl, hmove.owned, hmove.created, hmove.count⟩

theorem push (h : Inv s locals) {k : Bool} {p : Nat} {prevTail : Option Nat}
    (hi : locals i = .casTail k p prevTail) (htail : s.producerListTail = prevTail) :
    Inv ((s.setNext p prevTail).push p) (update locals i (.owned k p)) := by
  obtain ⟨hlt, hkind, hnew⟩ : (PC.casTail k p prevTail).Ok s := hi ▸ h.ok i
  refine ⟨?_, ?_, ?_, ?_, ?_, ?_⟩
  · refine isList_cons.mpr ⟨rfl, ?_⟩
    show IsList (update s.next p prevTail) (update s.next p prevTail p) s.added
    rw [update_self, ← htail]
    exact h.list.update hnew _
  · intro q hq
    rcases List.mem_cons.mp hq with rfl | hold
    · exact hlt
    · exact h.listed q hold
  · intro j
    rcases eq_or_ne i j with rfl | hij
    · rw [update_self]
      exact ⟨hlt, hkind⟩
    · rw [update_of_ne hij.symm]
      have hj := h.ok j
      -- another user's producer is a different one, so that it is still off the list
      have hother : ∀ q, (locals j).holds = some q → q ≠ p := by
        rintro q hq rfl
        exact hij (h.owned.unique i j q (by rw [Function.comp_apply, hi]; rfl) hq)
      cases hl : locals j with
      | loadInactive k' q | rotateLoadCount q =>
          rw [hl] at hj
          exact List.mem_cons_of_mem _ hj
      | casInactive k' q =>
          rw [hl] at hj
          exact ⟨List.mem_cons_of_mem _ hj.1, hj.2⟩
      | fetchAddCount k' q | loadPrevTail k' q | casTail k' q x =>
          rw [hl] at hj
          have hne := hother q (by rw [hl]; rfl)
          exact ⟨hj.1, hj.2.1, fun hmem => (List.mem_cons.mp hmem).elim hne hj.2.2⟩
      | owned k' q | rotateRemainder q n =>
          rw [hl] at hj
          exact hj
      | idle | loadTail | create | rotateLoadTail => trivial
  · rw [comp_update, show (PC.owned k p).holds = (PC.holds ∘ locals) i by
      rw [Function.comp_apply, hi]; rfl, update_eq_self]
    exact h.owned
  · have hsum := sum_update_eq PC.pending hi (.owned k p) 1 0 rfl rfl
    have hcreated := h.created
    simp only [State.push, State.setNext, List.length_cons]
    omega
  · have hsum := sum_update_eq PC.counted hi (.owned k p) 1 0 rfl rfl
    have hcount := h.count
    simp only [State.push, State.setNext, List.length_cons]
    rw [hcount]
    congr 1
    omega

theorem release (h : Inv s locals) {k : Bool} {p : Nat} (hi : locals i = .owned k p) :
    Inv (s.setInactive p true) (update locals i .idle) := by
  refine ⟨h.list, h.listed, forall_update trivial fun j => ?_, ?_, ?_, ?_⟩
  · exact (h.ok j).mono h.listed rfl le_rfl fun _ _ => rfl
  · rw [comp_update]
    refine h.owned.drop (p := p) (by rw [Function.comp_apply, hi]; rfl) fun q => ?_
    rcases eq_or_ne q p with rfl | hqp
    · simp [State.Active, State.setInactive]
    · simp [State.Active, State.setInactive, hqp]
  · have hsum := sum_update_eq PC.pending hi .idle 0 0 rfl rfl
    rw [Nat.add_right_cancel hsum]
    exact h.created
  · have hsum := sum_update_eq PC.counted hi .idle 0 0 rfl rfl
    rw [Nat.add_right_cancel hsum]
    exact h.count

/-- One step of one user. -/
theorem step (h : Inv s locals) {a : Act} {s' : State} {l : PC}
    (hx : exec i a s (locals i) = some (s', l)) : Inv s' (update locals i l) := by
  cases hi : locals i <;> rw [hi] at hx <;> cases a <;> simp only [exec, reduceCtorEq] at hx
  case idle.acquire k =>
    cases hx
    exact h.move (by rw [hi]; rfl) (by rw [hi]; rfl) (by rw [hi]; rfl) trivial
  case idle.rotate =>
    cases hx
    exact h.move (by rw [hi]; rfl) (by rw [hi]; rfl) (by rw [hi]; rfl) trivial
  case loadTail.run k =>
    cases hx
    exact h.scan (by rw [hi]; rfl) (by rw [hi]; rfl) (by rw [hi]; rfl) h.mem_tail k
  case loadInactive.run k p =>
    have hmem : p ∈ s.added := by
      have := h.ok i
      rwa [hi] at this
    split at hx
    · cases hx
      rename_i hfound
      simp only [Bool.and_eq_true, beq_iff_eq] at hfound
      exact h.move (by rw [hi]; rfl) (by rw [hi]; rfl) (by rw [hi]; rfl) ⟨hmem, hfound.2⟩
    · cases hx
      exact h.scan (by rw [hi]; rfl) (by rw [hi]; rfl) (by rw [hi]; rfl) (h.mem_next hmem) k
  case casInactive.run k p =>
    have hok : (PC.casInactive k p).Ok s := hi ▸ h.ok i
    split at hx
    · cases hx
      exact h.catchInactive hi (by assumption)
    · cases hx
      exact h.scan (by rw [hi]; rfl) (by rw [hi]; rfl) (by rw [hi]; rfl)
        (h.mem_next hok.1) k
  case create.run k =>
    cases hx
    exact h.allocate hi
  case create.fail k =>
    cases hx
    exact h.move (by rw [hi]; rfl) (by rw [hi]; rfl) (by rw [hi]; rfl) trivial
  case fetchAddCount.run k p =>
    cases hx
    exact h.fetchAdd hi
  case loadPrevTail.run k p =>
    have hok : (PC.loadPrevTail k p).Ok s := hi ▸ h.ok i
    cases hx
    exact h.move (by rw [hi]; rfl) (by rw [hi]; rfl) (by rw [hi]; rfl) hok
  case casTail.run k p prevTail =>
    split at hx
    · cases hx
      exact h.push hi (by assumption)
    · cases hx
      exact h.retry hi _
  case casTail.fail k p prevTail =>
    cases hx
    exact h.retry hi _
  case owned.release k p =>
    cases hx
    exact h.release hi
  case rotateLoadTail.run =>
    split at hx
    · cases hx
      exact h.move (by rw [hi]; rfl) (by rw [hi]; rfl) (by rw [hi]; rfl)
        (h.mem_tail _ (by assumption))
    · cases hx
      exact h.move (by rw [hi]; rfl) (by rw [hi]; rfl) (by rw [hi]; rfl) trivial
  case rotateLoadCount.run p =>
    have hmem : p ∈ s.added := by
      have := h.ok i
      rwa [hi] at this
    cases hx
    refine h.move (by rw [hi]; rfl) (by rw [hi]; rfl) (by rw [hi]; rfl) fun hlt => ?_
    have := h.length_le hlt
    have := List.length_pos_of_mem hmem
    omega
  case rotateRemainder.run p n =>
    cases hx
    exact h.move (by rw [hi]; rfl) (by rw [hi]; rfl) (by rw [hi]; rfl) trivial

end Inv

/-! ### Reachable configurations -/

theorem inv_init [Fintype ι] {c : Conf ι State PC} (h : Init c) : Inv c.shared c.locals := by
  obtain ⟨htail, hcount, hcreated, hadded, hidle⟩ := h
  have hholds : PC.holds ∘ c.locals = fun _ => none := by
    funext i
    rw [Function.comp_apply, hidle]
    rfl
  refine ⟨by rw [hadded, isList_nil, htail], by rw [hadded]; nofun, ?_, ?_, ?_, ?_⟩
  · intro i
    rw [hidle]
    trivial
  · rw [hholds]
    refine ⟨nofun, fun p => ⟨fun hp => ?_, nofun⟩⟩
    have := hp.1
    omega
  · simp [hcreated, hadded, hidle, PC.pending]
  · simp [hcount, hadded, hidle, PC.counted]

/-- The kind of producer a user has or is about to have. -/
def PC.kind : PC → Option Bool
  | .fetchAddCount k _ | .loadPrevTail k _ | .casTail k _ _ | .owned k _ => some k
  | _ => none

/-- `l` is the list of producers, and each active producer has one user, which is of
its kind. -/
structure Sound (c : Conf ι State PC) (l : List Nat) : Prop where
  list : IsList c.shared.next c.shared.producerListTail l
  nodup : l.Nodup
  mem_iff : ∀ p, p ∈ l ↔ p ∈ c.shared.added
  length_le : c.shared.created < 2 ^ 32 → l.length ≤ c.shared.producerCount
  rotate : c.shared.created < 2 ^ 32 → ∀ i tail n, c.locals i = .rotateRemainder tail n → n ≠ 0
  owner : ∀ p, c.shared.Active p → ∃! i, (c.locals i).holds = some p
  matching : ∀ i p, (c.locals i).holds = some p →
    c.shared.Active p ∧ (c.locals i).kind = some (c.shared.isExplicit p)

theorem Inv.sound [Fintype ι] {c : Conf ι State PC} (h : Inv c.shared c.locals) :
    Sound c c.shared.added where
  list := h.list
  nodup := h.list.nodup
  mem_iff _ := Iff.rfl
  length_le := h.length_le
  rotate hlt i tail n hi := by
    have hok := h.ok i
    rw [hi] at hok
    exact hok hlt
  owner _ hp := h.owned.existsUnique hp
  matching i p hp := by
    refine ⟨(h.owned.active_iff p).mpr ⟨i, hp⟩, ?_⟩
    have hok := h.ok i
    cases hi : c.locals i with
    | fetchAddCount k q | loadPrevTail k q | casTail k q x =>
        rw [hi] at hp hok
        obtain rfl := Option.some.inj hp
        exact congrArg some hok.2.1.symm
    | owned k q =>
        rw [hi] at hp hok
        obtain rfl := Option.some.inj hp
        exact congrArg some hok.2.symm
    | idle | loadTail | loadInactive | casInactive | create | rotateLoadTail | rotateLoadCount
    | rotateRemainder =>
        rw [hi] at hp
        cases hp

theorem inv_of_reachable [Fintype ι] [DecidableEq ι] {c : Conf ι State PC}
    (h : exec.Reachable Init c) : Inv c.shared c.locals :=
  h.invariant (I := fun c => Inv c.shared c.locals) (fun _ hinit => inv_init hinit)
    fun _ _ _ _ _ hc hx => hc.step hx

/-- **No two users ever have the same producer, and none is lost.** -/
theorem reachable_exclusive [Fintype ι] [DecidableEq ι] {c : Conf ι State PC}
    (h : exec.Reachable Init c) : ∃ l, Sound c l :=
  ⟨c.shared.added, (inv_of_reachable h).sound⟩

/-! ### The limit on the number of producers -/

section Limit

/-- The users below `k` have a producer each; those from there to `a` have found the
list empty and are about to create one. -/
def crowd (n a k : Nat) : Conf (Fin n) State PC :=
  ⟨{ producerListTail := if k = 0 then none else some (k - 1)
     producerCount := k % 2 ^ 32
     next := fun p => if 0 < p ∧ p < k then some (p - 1) else none
     isExplicit := fun p => decide (p < k)
     inactive := fun _ => false
     created := k
     added := (List.range k).reverse },
    fun i => if i.val < k then .owned true i.val else if i.val < a then .create true else .idle⟩

theorem crowd_waiting {n a : Nat} (ha : a ≤ n) :
    (exec (ι := Fin n)).Reachable Init (crowd n a 0) := by
  induction a with
  | zero => exact .start ⟨rfl, rfl, rfl, rfl, fun _ => rfl⟩
  | succ a ih =>
      refine (ih (by omega)).run ([.acquire true, .run].map fun x => (⟨a, ha⟩, x)) ?_
      have hidle : (crowd n a 0).locals ⟨a, ha⟩ = .idle := by simp [crowd]
      rw [Exec.run_solo, hidle, Exec.solo_cons (r := ((crowd n a 0).shared, .loadTail true)) rfl,
        Exec.solo_cons (r := ((crowd n a 0).shared, .create true)) rfl]
      refine congrArg some (congrArg (Conf.mk _) (funext fun i => ?_))
      by_cases hi : i = ⟨a, ha⟩
      · subst hi
        simp [crowd]
      · have hne : i.val ≠ a := fun h => hi (Fin.ext h)
        rw [update_of_ne hi]
        simp only [crowd, show i.val < a + 1 ↔ i.val < a by omega]

theorem crowd_succ {n k : Nat} (hk : k < n) :
    (exec (ι := Fin n)).run ([.run, .run, .run, .run].map fun x => (⟨k, hk⟩, x)) (crowd n n k) =
      some (crowd n n (k + 1)) := by
  let tail : Option Nat := if k = 0 then none else some (k - 1)
  let s₁ := (crowd n n k).shared.allocate true
  let s₂ := { s₁ with producerCount := (s₁.producerCount + 1) % 2 ^ 32 }
  have hshared : (s₂.setNext k tail).push k = (crowd n n (k + 1)).shared := by
    simp only [s₂, s₁, tail, State.allocate, State.setNext, State.push, crowd, State.mk.injEq]
    refine ⟨by simp, by rw [Nat.mod_add_mod], funext fun p => ?_, funext fun p => ?_,
      funext fun p => ?_, trivial, by rw [List.range_succ, List.reverse_append]; rfl⟩
    · rcases eq_or_ne p k with rfl | hp
      · rcases Nat.eq_zero_or_pos p with rfl | hpos
        · simp
        · simp [hpos, hpos.ne']
      · rw [update_of_ne hp, update_of_ne hp]
        simp only [show p < k + 1 ↔ p < k by omega]
    · rcases eq_or_ne p k with rfl | hp
      · simp
      · rw [update_of_ne hp]
        simp only [show p < k + 1 ↔ p < k by omega]
    · rcases eq_or_ne p k with rfl | hp
      · simp
      · rw [update_of_ne hp]
  have hpc : (crowd n n k).locals ⟨k, hk⟩ = .create true := by simp [crowd]
  rw [Exec.run_solo, hpc, Exec.solo_cons (r := (s₁, .fetchAddCount true k)) rfl,
    Exec.solo_cons (r := (s₂, .loadPrevTail true k)) rfl,
    Exec.solo_cons (r := (s₂, .casTail true k tail)) rfl,
    Exec.solo_cons (r := ((s₂.setNext k tail).push k, .owned true k)) (if_pos rfl), hshared]
  refine congrArg some (congrArg (Conf.mk _) (funext fun i => ?_))
  by_cases hi : i = ⟨k, hk⟩
  · subst hi
    simp [crowd]
  · have hne : i.val ≠ k := fun h => hi (Fin.ext h)
    rw [update_of_ne hi]
    simp only [crowd, show i.val < k + 1 ↔ i.val < k by omega]

theorem crowd_reachable {n k : Nat} (hk : k ≤ n) :
    (exec (ι := Fin n)).Reachable Init (crowd n n k) := by
  induction k with
  | zero => exact crowd_waiting le_rfl
  | succ k ih => exact (ih (by omega)).run _ (crowd_succ (by omega))

/-- Three tokens have had a producer each. The first two have released theirs, and another token
has caught that of the second one. -/
theorem crowd_three_exclusive : ∃ c : Conf (Fin 3) State PC, exec.Reachable Init c ∧
    (∀ i, c.locals i = if i = 0 then .owned true 1 else if i = 1 then .idle else .owned true 2) ∧
    c.shared.inactive 0 = true ∧ ∃ l, Sound c l := by
  obtain ⟨c, hrun, hlocals, hinactive⟩ : ∃ c, exec.run [(0, .release), (1, .release),
      (0, .acquire true), (0, .run), (0, .run), (0, .run), (0, .run)] (crowd 3 3 3) = some c ∧
      (∀ i, c.locals i =
        if i = 0 then .owned true 1 else if i = 1 then .idle else .owned true 2) ∧
      c.shared.inactive 0 = true := ⟨_, rfl, by decide, rfl⟩
  have hreach := (crowd_reachable le_rfl).run _ hrun
  exact ⟨c, hreach, hlocals, hinactive, reachable_exclusive hreach⟩

theorem crowd_count {n : Nat} (hn : 0 < n) :
    ∃ c : Conf (Fin n) State PC, exec.Reachable Init c ∧
      ∃ l, IsList c.shared.next c.shared.producerListTail l ∧
        c.shared.producerListTail ≠ none ∧ l.length = n ∧ c.shared.producerCount = n % 2 ^ 32 := by
  have hreach := crowd_reachable (le_refl n)
  exact ⟨_, hreach, _, (inv_of_reachable hreach).list, by simp [crowd, hn.ne'],
    by simp [crowd], rfl⟩

/-- After `2^32` producers the counter is back at zero. -/
theorem producerCount_wraps :
    ∃ c : Conf (Fin (2 ^ 32)) State PC, exec.Reachable Init c ∧
      ∃ l, IsList c.shared.next c.shared.producerListTail l ∧
        c.shared.producerListTail ≠ none ∧ c.shared.producerCount < l.length := by
  obtain ⟨c, hreach, l, hlist, htail, hlen, hcount⟩ := crowd_count (Nat.two_pow_pos 32)
  refine ⟨c, hreach, l, hlist, htail, ?_⟩
  rw [hcount, Nat.mod_self, hlen]
  exact Nat.two_pow_pos 32

end Limit

end ConcurrentQueue.Producers
