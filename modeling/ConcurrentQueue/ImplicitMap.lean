import ConcurrentQueue.ImplicitHash

/-!
# ConcurrentQueue.ImplicitMap

`get_or_add_implicit_producer` and `implicit_producer_thread_exited` again, for calls
that do not overlap: each call as a function of the state. The loops have fuel, so
that a call that does not come back is `none` for every amount of it.

**The counter and the capacities are `size_t`s**, of `w` bits, and wrap. This is why the
loop that finds the capacity of the next table (`largerCapacity`) may not end.
-/

namespace ConcurrentQueue.ImplicitHash

variable {ι : Type*}

structure ProducerBase where
  isExplicit : Bool
  inactive : Bool
  deriving DecidableEq, Repr

/-- The part of the queue that has to do with implicit producers. Producers are
numbered as they are created, so that the list from `producerListTail` is that from
the last number down. -/
structure Queue (ι : Type*) extends State ι where
  producer : Nat → ProducerBase
  producerCount : Nat

/-- The probing loops, which differ in the keys at which they stop. -/
def ImplicitProducerHash.probe (hash : ImplicitProducerHash ι) (stop : Key ι → Bool) :
    (fuel index : Nat) → Option Nat
  | 0, _ => none
  | fuel + 1, index =>
      if stop (hash.key (hash.slot index)) then some (hash.slot index)
      else hash.probe stop fuel (hash.slot index + 1)

/-- The lookup and the exit stop at the thread's id or at a free slot. -/
def stopsAt [DecidableEq ι] (i : ι) (key : Key ι) : Bool := key = .id i || key = .invalidThreadId

/-- The copy and the insertion stop at the first slot they can take. -/
def available [DecidableEq ι] (key : Key ι) : Bool :=
  key = .invalidThreadId || key = .invalidThreadId2

/-- The loop of `recycle_or_create_producer`, from the last of `n` producers down. -/
def recycle (producer : Nat → ProducerBase) : Nat → Option Nat
  | 0 => none
  | p + 1 =>
      if (producer p).inactive && !(producer p).isExplicit then some p else recycle producer p

/-- The loop that finds the capacity of the next table. -/
def largerCapacity (w newCount : Nat) : (fuel newCapacity : Nat) → Option Nat
  | 0, _ => none
  | fuel + 1, newCapacity =>
      if newCapacity / 2 ≤ newCount then
        largerCapacity w newCount fuel (newCapacity * 2 % 2 ^ w)
      else some newCapacity

/-- `fetch_add(1)` and `fetch_sub(1)` on `implicitProducerHashCount`. -/
def State.fetchAdd (w : Nat) (s : State ι) : State ι :=
  { s with implicitProducerHashCount := (s.implicitProducerHashCount + 1) % 2 ^ w }

def State.fetchSub (w : Nat) (s : State ι) : State ι :=
  { s with implicitProducerHashCount := (s.implicitProducerHashCount + (2 ^ w - 1)) % 2 ^ w }

/-- `1 + implicitProducerHashCount.fetch_add(1)`, an `int` of `intBits` bits if `size_t` is
narrower. -/
def State.newCount (w intBits : Nat) (s : State ι) : Nat :=
  if w < intBits then 1 + s.implicitProducerHashCount
  else (1 + s.implicitProducerHashCount) % 2 ^ w

variable [DecidableEq ι] (hashThreadId : ι → Nat) (w intBits : Nat)

/-- The search through the tables from `hash` on: the table and the slot of the thread. -/
def State.lookup (s : State ι) (i : ι) (fuel : Nat) : (n hash : Nat) → Option (Option (Nat × Nat))
  | 0, _ => none
  | n + 1, hash =>
      match (s.table hash).probe (stopsAt i) fuel (hashThreadId i) with
      | none => none
      | some k =>
          if s.key hash k = .id i then some (some (hash, k))
          else
            match (s.table hash).prev with
            | some prev => s.lookup i fuel n prev
            | none => some none

/-- The thread was found; it is copied to the current table if it is not there yet. -/
def State.found (s : State ι) (i : ι) (fuel hash k : Nat) : Option (State ι × Option Nat) :=
  let value := (s.table hash).value k
  let mainHash := s.implicitProducerHash
  if hash = mainHash then some (s, value)
  else
    match (s.table mainHash).probe available fuel (hashThreadId i) with
    | none => none
    | some k' => some (s.setEntry mainHash k' (.id i) value, value)

/-- The block that gets a larger table: the table to insert in, or `none` where the
allocation has failed. -/
def State.resize (s : State ι) (malloc : Bool) (fuel mainHash newCount : Nat) :
    Option (State ι × Option Nat) :=
  if s.capacity mainHash / 2 ≤ newCount ∧ s.resizeInProgress = false then
    let mainHash := s.implicitProducerHash
    if s.capacity mainHash / 2 ≤ newCount then
      match largerCapacity w newCount fuel (s.capacity mainHash * 2 % 2 ^ w) with
      | none => none
      | some newCapacity =>
          if malloc then some (s.publish mainHash newCapacity, some s.created)
          else some (s.fetchSub w, none)
    else some (s, some mainHash)
  else some (s, some mainHash)

/-- The insertion of a thread that has its producer. -/
def State.insert (s : State ι) (i : ι) (fuel mainHash producer : Nat) : Option (State ι) :=
  match (s.table mainHash).probe available fuel (hashThreadId i) with
  | none => none
  | some k =>
      if s.key mainHash k = .invalidThreadId2 then
        some ((s.fetchSub w).setEntry mainHash k (.id i) producer)
      else some (s.setEntry mainHash k (.id i) producer)

namespace Queue

def recycleOrCreateProducer (q : Queue ι) (create : Bool) : Option (Queue ι × Nat) :=
  match recycle q.producer q.producerCount with
  | some p =>
      some ({ q with
        producer := Function.update q.producer p { q.producer p with inactive := false } }, p)
  | none =>
      if create then
        some ({ q with
          producer := Function.update q.producer q.producerCount ⟨false, false⟩
          producerCount := q.producerCount + 1 }, q.producerCount)
      else none

def insertLoop (q : Queue ι) (i : ι) (malloc create : Bool) (newCount fuel : Nat) :
    (n mainHash : Nat) → Option (Queue ι × Option Nat)
  | 0, _ => none
  | n + 1, mainHash =>
      match q.toState.resize w malloc fuel mainHash newCount with
      | none => none
      | some (s, none) => some ({ q with toState := s }, none)
      | some (s, some mainHash) =>
          if newCount < s.capacity mainHash / 2 + s.capacity mainHash / 4 then
            match { q with toState := s }.recycleOrCreateProducer create with
            | none => some ({ q with toState := s.fetchSub w }, none)
            | some (q', p) =>
                match (q'.toState.setListener i p).insert hashThreadId w i fuel mainHash p with
                | none => none
                | some s' => some ({ q' with toState := s' }, some p)
          else
            { q with toState := s }.insertLoop i malloc create newCount fuel n
              s.implicitProducerHash

/-- `malloc` and `create` are the outcomes of the allocations, of a table and of a
producer. -/
def getOrAddImplicitProducer (q : Queue ι) (i : ι) (malloc create : Bool) (fuel : Nat) :
    Option (Queue ι × Option Nat) :=
  match q.toState.lookup hashThreadId i fuel fuel q.implicitProducerHash with
  | none => none
  | some (some (hash, k)) =>
      (q.toState.found hashThreadId i fuel hash k).map fun r => ({ q with toState := r.1 }, r.2)
  | some none =>
      { q with toState := q.toState.fetchAdd w }.insertLoop hashThreadId w i malloc create
        (q.toState.newCount w intBits) fuel fuel q.implicitProducerHash

end Queue

/-- The loop of `implicit_producer_thread_exited` over the tables. -/
def State.leave (i : ι) (fuel : Nat) : (n hash : Nat) → State ι → Option (State ι)
  | 0, _, _ => none
  | n + 1, hash, s =>
      match (s.table hash).probe (stopsAt i) fuel (hashThreadId i) with
      | none => none
      | some k =>
          let s := if s.key hash k = .id i then s.setKey hash k .invalidThreadId2 else s
          match (s.table hash).prev with
          | some prev => State.leave i fuel n prev s
          | none => some s

/-- The exit of a thread; the callback runs for the producer it has subscribed. -/
def Queue.implicitProducerThreadExited (q : Queue ι) (i : ι) (fuel : Nat) : Option (Queue ι) :=
  match q.listener i with
  | none => some q
  | some p =>
      (q.toState.leave hashThreadId i fuel fuel q.implicitProducerHash).map fun s =>
        { q with
          toState := s.setListener i none
          producer := Function.update q.producer p { q.producer p with inactive := true } }

/-- What the tables have for a thread. -/
def State.registered (s : State ι) (i : ι) (fuel : Nat) : Option (Option Nat) :=
  (s.lookup hashThreadId i fuel fuel s.implicitProducerHash).map fun r =>
    r.bind fun p => (s.table p.1).value p.2

/-- The operations on the table, with the outcomes of the allocations. -/
inductive Op (ι : Type*)
  | get (i : ι) (malloc create : Bool)
  | exit (i : ι)

def Queue.perform (q : Queue ι) : Op ι → Nat → Option (Queue ι × Option Nat)
  | .get i malloc create, fuel =>
      q.getOrAddImplicitProducer hashThreadId w intBits i malloc create fuel
  | .exit i, fuel => (q.implicitProducerThreadExited hashThreadId i fuel).map fun q' => (q', none)

/-- The initial table alone, with free slots only, and no thread registered; there may be
producers of tokens already. -/
def Queue.Init (q : Queue ι) : Prop :=
  (∃ e < w, q.table 0 = .empty (2 ^ e) none) ∧ q.created = 1 ∧ q.implicitProducerHash = 0 ∧
    q.implicitProducerHashCount = 0 ∧ q.resizeInProgress = false ∧
    (∀ h k, q.toState.key h k = .invalidThreadId) ∧ ∀ i, q.listener i = none

/-! ### More fuel -/

section Mono

variable {hashThreadId : ι → Nat} {w intBits fuel fuel' n n' hash newCount : Nat} {s s' : State ι}
  {q q' : Queue ι} {i : ι}

omit [DecidableEq ι] in
theorem probe_mono {table : ImplicitProducerHash ι} {stop : Key ι → Bool} {index k : Nat}
    (h : table.probe stop fuel index = some k) (hle : fuel ≤ fuel') :
    table.probe stop fuel' index = some k := by
  induction fuel generalizing index fuel' with
  | zero => cases h
  | succ fuel ih =>
      obtain ⟨fuel', rfl⟩ := Nat.exists_eq_add_of_le' (Nat.le_of_add_left_le hle)
      unfold ImplicitProducerHash.probe at h ⊢
      split
      case isTrue hstop => rwa [if_pos hstop] at h
      case isFalse hstop =>
          rw [if_neg hstop] at h
          exact ih h (by omega)

theorem lookup_mono {r : Option (Nat × Nat)} (h : s.lookup hashThreadId i fuel n hash = some r)
    (hle : fuel ≤ fuel') (hn : n ≤ n') : s.lookup hashThreadId i fuel' n' hash = some r := by
  induction n generalizing hash n' with
  | zero => cases h
  | succ n ih =>
      obtain ⟨n', rfl⟩ := Nat.exists_eq_add_of_le' (Nat.le_of_add_left_le hn)
      unfold State.lookup at h ⊢
      match hk : (s.table hash).probe (stopsAt i) fuel (hashThreadId i) with
      | none => simp only [hk, reduceCtorEq] at h
      | some k =>
          simp only [hk] at h
          simp only [probe_mono hk hle]
          split
          case isTrue hkey => rwa [if_pos hkey] at h
          case isFalse hkey =>
              rw [if_neg hkey] at h
              match hprev : (s.table hash).prev with
              | none => simpa only [hprev] using h
              | some prev =>
                  simp only [hprev] at h ⊢
                  exact ih h (by omega)

theorem found_mono {k : Nat} {r : State ι × Option Nat}
    (h : s.found hashThreadId i fuel hash k = some r) (hle : fuel ≤ fuel') :
    s.found hashThreadId i fuel' hash k = some r := by
  unfold State.found at h ⊢
  by_cases hmain : hash = s.implicitProducerHash
  · simpa only [if_pos hmain] using h
  · simp only [if_neg hmain] at h ⊢
    match hk : (s.table s.implicitProducerHash).probe available fuel (hashThreadId i) with
    | none => simp only [hk, reduceCtorEq] at h
    | some k' => simpa only [hk, probe_mono hk hle] using h

theorem largerCapacity_mono {capacity newCapacity : Nat}
    (h : largerCapacity w newCount fuel capacity = some newCapacity) (hle : fuel ≤ fuel') :
    largerCapacity w newCount fuel' capacity = some newCapacity := by
  induction fuel generalizing capacity fuel' with
  | zero => cases h
  | succ fuel ih =>
      obtain ⟨fuel', rfl⟩ := Nat.exists_eq_add_of_le' (Nat.le_of_add_left_le hle)
      unfold largerCapacity at h ⊢
      split
      case isTrue hhalf =>
          rw [if_pos hhalf] at h
          exact ih h (by omega)
      case isFalse hhalf => rwa [if_neg hhalf] at h

omit [DecidableEq ι] in
theorem resize_mono {malloc : Bool} {r : State ι × Option Nat}
    (h : s.resize w malloc fuel hash newCount = some r) (hle : fuel ≤ fuel') :
    s.resize w malloc fuel' hash newCount = some r := by
  unfold State.resize at h ⊢
  by_cases hfull : s.capacity hash / 2 ≤ newCount ∧ s.resizeInProgress = false
  · simp only [if_pos hfull] at h ⊢
    by_cases hhalf : s.capacity s.implicitProducerHash / 2 ≤ newCount
    · simp only [if_pos hhalf] at h ⊢
      match hc : largerCapacity w newCount fuel
          (s.capacity s.implicitProducerHash * 2 % 2 ^ w) with
      | none => simp only [hc, reduceCtorEq] at h
      | some newCapacity => simpa only [hc, largerCapacity_mono hc hle] using h
    · simpa only [if_neg hhalf] using h
  · simpa only [if_neg hfull] using h

theorem insert_mono {p : Nat} (h : s.insert hashThreadId w i fuel hash p = some s')
    (hle : fuel ≤ fuel') : s.insert hashThreadId w i fuel' hash p = some s' := by
  unfold State.insert at h ⊢
  match hk : (s.table hash).probe available fuel (hashThreadId i) with
  | none => simp only [hk, reduceCtorEq] at h
  | some k => simpa only [hk, probe_mono hk hle] using h

theorem insertLoop_mono {malloc create : Bool} {r : Queue ι × Option Nat}
    (h : q.insertLoop hashThreadId w i malloc create newCount fuel n hash = some r)
    (hle : fuel ≤ fuel') (hn : n ≤ n') :
    q.insertLoop hashThreadId w i malloc create newCount fuel' n' hash = some r := by
  induction n generalizing q hash n' with
  | zero => cases h
  | succ n ih =>
      obtain ⟨n', rfl⟩ := Nat.exists_eq_add_of_le' (Nat.le_of_add_left_le hn)
      unfold Queue.insertLoop at h ⊢
      match hresize : q.toState.resize w malloc fuel hash newCount with
      | none => simp only [hresize, reduceCtorEq] at h
      | some (s, none) => simpa only [hresize, resize_mono hresize hle] using h
      | some (s, some mainHash) =>
          simp only [hresize] at h
          simp only [resize_mono hresize hle]
          split
          case isTrue hroom =>
              rw [if_pos hroom] at h
              match hp : Queue.recycleOrCreateProducer { q with toState := s } create with
              | none => simpa only [hp] using h
              | some (q', p) =>
                  simp only [hp] at h ⊢
                  match hinsert :
                      (q'.toState.setListener i p).insert hashThreadId w i fuel mainHash p with
                  | none => simp only [hinsert, reduceCtorEq] at h
                  | some s' => simpa only [hinsert, insert_mono hinsert hle] using h
          case isFalse hroom =>
              rw [if_neg hroom] at h
              exact ih h (by omega)

theorem leave_mono (h : s.leave hashThreadId i fuel n hash = some s') (hle : fuel ≤ fuel')
    (hn : n ≤ n') : s.leave hashThreadId i fuel' n' hash = some s' := by
  induction n generalizing s hash n' with
  | zero => cases h
  | succ n ih =>
      obtain ⟨n', rfl⟩ := Nat.exists_eq_add_of_le' (Nat.le_of_add_left_le hn)
      unfold State.leave at h ⊢
      match hk : (s.table hash).probe (stopsAt i) fuel (hashThreadId i) with
      | none => simp only [hk, reduceCtorEq] at h
      | some k =>
          simp only [hk] at h
          simp only [probe_mono hk hle]
          split
          case h_1 prev hprev =>
              simp only [hprev] at h
              exact ih h (by omega)
          case h_2 hprev => simpa only [hprev] using h

/-- A call that has come back does so with any more fuel. -/
theorem perform_mono {op : Op ι} {r : Queue ι × Option Nat}
    (h : q.perform hashThreadId w intBits op fuel = some r) (hle : fuel ≤ fuel') :
    q.perform hashThreadId w intBits op fuel' = some r := by
  cases op with
  | get i malloc create =>
      unfold Queue.perform Queue.getOrAddImplicitProducer at h ⊢
      match hlookup : q.toState.lookup hashThreadId i fuel fuel q.implicitProducerHash with
      | none => simp only [hlookup, reduceCtorEq] at h
      | some (some (hash, k)) =>
          simp only [hlookup] at h
          simp only [lookup_mono hlookup hle hle]
          obtain ⟨found, hfound, rfl⟩ := Option.map_eq_some_iff.mp h
          rw [found_mono hfound hle, Option.map_some]
      | some none =>
          simp only [hlookup] at h
          simp only [lookup_mono hlookup hle hle]
          exact insertLoop_mono h hle hle
  | exit i =>
      unfold Queue.perform Queue.implicitProducerThreadExited at h ⊢
      match hp : q.listener i with
      | none => simpa only [hp] using h
      | some p =>
          simp only [hp] at h ⊢
          obtain ⟨_, hexit, rfl⟩ := Option.map_eq_some_iff.mp h
          obtain ⟨s', hleave, rfl⟩ := Option.map_eq_some_iff.mp hexit
          rw [leave_mono hleave hle hle, Option.map_some, Option.map_some]

end Mono

end ConcurrentQueue.ImplicitHash
