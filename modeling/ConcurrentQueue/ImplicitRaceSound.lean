import ConcurrentQueue.ImplicitRaceSystem

/-!
# ConcurrentQueue.ImplicitRaceSound

**Whole runs of implicit producers.** The invariant holds at the start and survives
every step, so the guarantees can be read off it in every configuration that any
interleaving reaches: no assertion fails and no thread follows a bad pointer, a consumer
moves out what was constructed for its index, every element is delivered once, every
block is in one place, and the producers stay below their limit.
-/

namespace ConcurrentQueue.ImplicitRace

open Interleaving Outstanding Circular

variable {ι α : Type} {e : Env}

/-! ### The start -/

/-- The first index is in order, with nothing on it. -/
theorem indexed_firstBlockIndex :
    Indexed e (Index.blank e).firstBlockIndex (fun _ => 0) 0 0 0 0 := by
  have hcap : 0 < e.IMPLICIT_INITIAL_INDEX_SIZE := Nat.two_pow_pos _
  have hheader : (Index.blank e).firstBlockIndex.headers 0 =
      ⟨e.IMPLICIT_INITIAL_INDEX_SIZE, e.IMPLICIT_INITIAL_INDEX_SIZE - 1, fun i => 0 + i⟩ := by
    simp [Index.firstBlockIndex, Index.blank]
  refine ⟨rfl, ?_, ?_, ?_, ?_, ?_, ?_, le_rfl, ?_⟩
  · rw [hheader]
    refine ⟨hcap, fun p _ q _ heq => ?_, le_rfl, Nat.zero_le _, ?_, fun q hq _ => ?_⟩
    · simpa using heq
    · intro k _ hk
      exact absurd hk (Nat.not_lt_zero k)
    · simp [Index.key, Index.firstBlockIndex, Index.blank]
  · rw [hheader]
    exact fun q hq => Nat.add_lt_add_left hq 0
  · intro g hg
    obtain rfl : g = 0 := Nat.lt_one_iff.mp hg
    refine Nested.refl ?_
    rw [hheader]
    exact hcap
  · intro g hg
    obtain rfl : g = 0 := Nat.lt_one_iff.mp hg
    rw [hheader]
    exact Nat.sub_lt hcap Nat.one_pos
  · rw [Index.nextSlot, hheader]
    show (e.IMPLICIT_INITIAL_INDEX_SIZE - 1 + 1) % _ = _
    rw [Nat.sub_add_cancel hcap, Nat.mod_self, pos, Nat.zero_mod]
  · exact fun g hg => absurd hg (Nat.not_lt_zero g)
  · rw [hheader]
    rfl

variable [Fintype ι]

/-- A new producer is in order. -/
theorem sub_create {place : ℕ → Place ι} {j : ι} (hplace : ∀ b k, place b ≠ .slot j k)
    (m : Memory α) (ok : Bool) :
    Sub e (Producer.create e ok) m place j (fun _ => 0) 0 0 .finished fun _ => .finished where
  owed :=
    ⟨fun _ _ hn => absurd hn (Finset.notMem_empty _), fun _ _ _ => Finset.disjoint_empty_left _⟩
  unmoved :=
    ⟨fun _ _ hn => absurd hn (Finset.notMem_empty _), fun _ _ _ => Finset.disjoint_empty_left _⟩
  shelf := by
    refine ⟨fun h hh => ?_, Nat.zero_le _, fun _ _ k _ hk => absurd hk (Nat.not_lt_zero k),
      fun _ _ k _ hk => absurd hk (Nat.not_lt_zero k), fun b k hb => absurd hb (hplace b k),
      fun n _ => ?_⟩
    · cases ok with
      | false => cases hh
      | true =>
          cases hh
          have hzero : blocksBelow e 0 = 0 := Nat.le_zero.mp (blocksBelow_le.mpr (Nat.zero_le _))
          show Indexed e _ _ 0 0 (blocksBelow e 0) 0
          rw [hzero]
          exact indexed_firstBlockIndex
    · cases ok with
      | false => rfl
      | true =>
          show (if _ then (⟨none, none⟩ : BlockIndexEntry) else _).value = none
          split <;> rfl
  stock := by
    refine ⟨fun n _ hlt => ?_, fun b k hb => absurd hb (hplace b k),
      fun b k hb => absurd hb (hplace b k), fun n b v hv => ?_, fun hmod => ?_, rfl⟩
    · exact absurd (lt_blocksBelow.mp hlt) (Nat.not_lt_zero _)
    · cases hv
    · exact absurd (Nat.zero_mod _) hmod
  delivery := by
    refine ⟨fun n => ⟨fun hn => ?_, ?_⟩, List.nodup_nil, fun n v hv => by cases hv⟩
    · exact absurd (mem_settled.mp hn).1 (Nat.not_lt_zero n)
    · rintro ⟨v, hv⟩
      cases hv
  fits := fun _ => by
    show blocksBelow e 0 * _ ≤ _
    rw [Nat.le_zero.mp (blocksBelow_le.mpr (Nat.zero_le _)), Nat.zero_mul]
    exact Nat.zero_le _
  owner := trivial
  readers _ := trivial
  clearing _ _ _ hb := by cases hb
  swept b k hb := absurd hb (hplace b k)

variable [DecidableEq ι] {c : Conf ι (State ι α) (PC ι α)}

theorem inv_init (h : Init e c) : Inv e c := by
  obtain ⟨hproducers, hpool, hfree, hcreated, hdestroyed, helements, hacquired, hreleased,
    hlocals⟩ := h
  have hplace : ∀ b : ℕ, (if b < e.initialBlockPoolSize then Place.pool else Place.unborn) =
      (.pool : Place ι) ∨ (if b < e.initialBlockPoolSize then Place.pool else Place.unborn) =
      (.unborn : Place ι) := by
    intro b
    split
    · exact .inl rfl
    · exact .inr rfl
  refine ⟨fun b => if b < e.initialBlockPoolSize then .pool else .unborn, ?_, fun j => ?_⟩
  · refine ⟨fun b => ?_, fun b => ?_, fun b => ?_, fun b => ?_, fun b i => ?_, ?_, ?_, fun i => ?_,
      fun b _ r _ => helements b r, fun b => ?_⟩
    · rw [hpool]
      split <;> simp_all
    · rw [hfree]
      rcases hplace b with h | h <;> simp [h]
    · rw [hcreated]
      split <;> simp_all
    · rw [hdestroyed]
      rcases hplace b with h | h <;> simp [h]
    · rw [hlocals i]
      rcases hplace b with h | h <;> simp [h, PC.hands]
    · rw [hfree]
      exact List.nodup_nil
    · rw [hdestroyed]
      exact List.nodup_nil
    · rw [hlocals i]
      exact List.nodup_nil
    · rw [hacquired, hreleased]
      rcases hplace b with h | h <;> rw [h] <;> rfl
  · obtain ⟨ok, hok⟩ := hproducers j
    refine ⟨fun _ => 0, 0, 0, ?_⟩
    have hdeqs : (fun i => (c.locals i).deq j) = fun _ => .finished := by
      funext i
      rw [hlocals i]
      rfl
    rw [hok, hdeqs, hlocals j]
    refine sub_create (fun b k => ?_) _ ok
    rcases hplace b with h | h <;> simp [h]

omit [Fintype ι] in
theorem claim_init (h : Init e c) (j : ι) : Claim.Init (claimConf j c) := by
  obtain ⟨hproducers, -, -, -, -, -, -, -, hlocals⟩ := h
  obtain ⟨ok, hok⟩ := hproducers j
  refine ⟨?_, fun i => ?_⟩
  · show (c.shared.producers j).counters = _
    rw [hok]
    rfl
  · cases i with
    | none => exact .inr rfl
    | some i =>
        left
        show (c.locals i).claim j = .idle
        rw [hlocals i]
        rfl

/-! ### Every run -/

/-- The invariant and that of the claims. -/
def Sound (e : Env) (c : Conf ι (State ι α) (PC ι α)) : Prop :=
  Inv e c ∧ ∀ j, Claim.Inv (claimConf j c)

theorem sound_init (h : Init e c) : Sound e c :=
  ⟨inv_init h, fun j => Claim.inv_init (claim_init h j)⟩

theorem sound_step {i : ι} {a : Act ι α} {s : State ι α} {l : PC ι α} (h : Sound e c)
    (hg : Guarded e c i a) (hx : exec e i a c.shared (c.locals i) = some (s, l)) :
    Sound e ⟨s, Function.update c.locals i l⟩ :=
  ⟨inv_step h.1 (fun j => (h.2 j).sound.published) hg hx, claims_step h.2 (fun _ => h.1.start) hx⟩

/-- Both hold in every configuration that is reached, and every call asks for an element. -/
theorem sound_reachable (h : (exec e).ReachableWhen Asks (Init e) c) :
    Sound e c ∧ ∀ i j, ¬ ((c.locals i).deq j).AsksNone := by
  refine h.invariant (I := fun c => Sound e c ∧ ∀ i j, ¬ ((c.locals i).deq j).AsksNone) ?_ ?_
  · refine fun c hc => ⟨sound_init hc, fun i j => ?_⟩
    rw [hc.2.2.2.2.2.2.2.2 i]
    exact fun hnone => hnone rfl
  · rintro c i a s l ⟨hsound, hsome⟩ hasks hx
    exact ⟨sound_step hsound (guarded_of_asking hsome) hx, asking_step hsound.1 hsome hasks hx⟩

theorem inv_reachable (h : (exec e).ReachableWhen Asks (Init e) c) : Inv e c ∧ Claimed c :=
  ⟨(sound_reachable h).1.1, fun j => ((sound_reachable h).1.2 j).sound.published⟩

section Runs

/-! ### Four threads -/

instance {ι α : Type} (c : Conf ι (State ι α) (PC ι α)) (i : ι) (a : Act ι α) :
    Decidable (Asks c i a) :=
  match a with
  | .dequeue _ call => inferInstanceAs (Decidable (call ≠ .dequeueBulk 0))
  | .enqueue _ _ => isTrue trivial
  | .step _ => isTrue trivial

/-- Two elements to a block, two slots on the first index, one block in the pool, and room for
six elements. -/
def cramped : Env where
  bits := 64
  blockLog := 1
  explicitIndexLog := 2
  implicitIndexLog := 1
  EXPLICIT_BLOCK_EMPTY_COUNTER_THRESHOLD := 16
  maxSubqueueSize := 6#64
  RECYCLE_ALLOCATED_BLOCKS := true
  blockLog_pos := Nat.one_pos
  blockLog_lt := by decide
  explicitIndexLog_pos := Nat.two_pos
  explicitIndexLog_lt := by decide
  implicitIndexLog_pos := Nat.one_pos
  implicitIndexLog_lt := by decide
  initialBlockPoolSize := 1
  mallocOk := fun _ => true
  poolSize_lt := by decide

abbrev Quartet := Conf (Fin 4) (State (Fin 4) ℕ) (PC (Fin 4) ℕ)

/-- Each thread has a new producer. -/
def newcomers : Quartet where
  shared := ⟨fun _ => .create cramped true,
    ⟨fun _ _ => none, fun _ => 0, 0, [], 0, [], fun _ => 0, fun _ => 0⟩⟩
  locals := fun _ => .idle

theorem newcomers_init : Init cramped newcomers :=
  ⟨fun _ => ⟨true, rfl⟩, rfl, rfl, rfl, rfl, fun _ _ => rfl, fun _ => rfl, fun _ => rfl,
    fun _ => rfl⟩

theorem reachable_newcomers {sched : List (Fin 4 × Act (Fin 4) ℕ)} {c : Quartet}
    (h : (exec cramped).runWhen Asks sched newcomers = some c) :
    (exec cramped).ReachableWhen Asks (Init cramped) c := by
  have hstart : (exec cramped).ReachableWhen Asks (Init cramped) newcomers := .start newcomers_init
  exact hstart.run sched h

def steps (i : Fin 4) (n : ℕ) : List (Fin 4 × Act (Fin 4) ℕ) := List.replicate n (i, .step .run)

/-- A block comes from the heap. -/
def fromHeap (i : Fin 4) : List (Fin 4 × Act (Fin 4) ℕ) :=
  [(i, .step (.take none)), (i, .step (.malloc true))]

/-- Thread 0 fills two blocks. Thread 1 claims the first element and loads the header; meanwhile
thread 0 starts a third block, for which the index has to grow. -/
def outdated : List (Fin 4 × Act (Fin 4) ℕ) :=
  [(0, .enqueue .canAlloc [1, 2, 3, 4])] ++ steps 0 13 ++ fromHeap 0 ++ steps 0 7 ++
    [(1, .dequeue 0 .dequeue)] ++ steps 1 7 ++ [(0, .enqueue .canAlloc [5])] ++ steps 0 2 ++
    [(0, .step (.malloc true))] ++ steps 0 3 ++ fromHeap 0

/-- All calls return, and thread 2 dequeues three more elements. -/
def finished : List (Fin 4 × Act (Fin 4) ℕ) :=
  outdated ++ steps 0 4 ++ steps 1 6 ++ [(2, .dequeue 0 (.dequeueBulk 3))] ++ steps 2 21

/-- The calls return. Thread 2 dequeues three more elements; it has emptied the first block and is
about to give it back. -/
def emptied : List (Fin 4 × Act (Fin 4) ℕ) :=
  outdated ++ steps 0 4 ++ steps 1 6 ++ [(2, .dequeue 0 (.dequeueBulk 3))] ++ steps 2 14

/-- Thread 0 fills a block. Thread 2 makes `k` steps of a bulk dequeue of no elements, then thread 1
makes `n` steps of one that takes both elements, and thread 2 goes on for `m` steps. -/
def overtaken (k n m : ℕ) : List (Fin 4 × Act (Fin 4) ℕ) :=
  [(0, .enqueue .canAlloc [1, 2])] ++ steps 0 11 ++ [(2, .dequeue 0 (.dequeueBulk 0))] ++
    steps 2 k ++ [(1, .dequeue 0 (.dequeueBulk 2))] ++ steps 1 n ++ steps 2 m

end Runs

/-! ### No fault -/

/-- A thread whose locals are in order has not come to a fault. -/
theorem Inv.ne_fault (h : Inv e c) (i : ι) :
    c.locals i ≠ .enqueuing .fault ∧ ∀ j, c.locals i ≠ .dequeuing j .fault := by
  obtain ⟨place, -, hsub⟩ := h
  refine ⟨fun hfault => ?_, fun j hfault => ?_⟩
  · obtain ⟨o, low, top, hi⟩ := hsub i
    have howner := hi.owner
    rw [hfault] at howner
    exact howner
  · obtain ⟨o, low, top, hj⟩ := hsub j
    have hreader := hj.readers i
    rw [hfault, deq_dequeuing_self] at hreader
    exact hreader

theorem Inv.element (h : Inv e c) (hle : Claimed c) {i j : ι} {start n last g q b : ℕ}
    (hmove : c.locals i = .dequeuing j (.moveOut start n last g q b)) :
    ∃ v, (c.shared.producers j).constructed[n]? = some (b, v) ∧
      c.shared.mem.elements b (n % e.BLOCK_SIZE) = some v := by
  obtain ⟨place, -, hsub⟩ := h
  obtain ⟨o, low, top, hj⟩ := hsub j
  exact hj.element (hle j) (i := i) (by rw [hmove, deq_dequeuing_self])

/-- **No interleaving leads to a fault.** No assertion fails, no thread follows a null or an
uninitialised pointer, constructs over an object or moves from raw memory; and the consumer of
an index finds the element that was constructed for it, in the block where it was
constructed. -/
theorem never_faults (h : (exec e).ReachableWhen Asks (Init e) c) (i : ι) :
    c.locals i ≠ .enqueuing .fault ∧ ∀ j, c.locals i ≠ .dequeuing j .fault ∧
      ∀ start n last g q b, c.locals i = .dequeuing j (.moveOut start n last g q b) →
        ∃ v, (c.shared.producers j).constructed[n]? = some (b, v) ∧
          c.shared.mem.elements b (n % e.BLOCK_SIZE) = some v := by
  obtain ⟨hinv, hle⟩ := inv_reachable h
  obtain ⟨henq, hdeq⟩ := hinv.ne_fault i
  exact ⟨henq, fun j => ⟨hdeq j, fun _ _ _ _ _ _ hmove => hinv.element hle hmove⟩⟩

/-- Thread 1 finds its element through the first header, thread 0 has published the second. -/
theorem never_faults_outdated : ∃ c : Quartet,
    (c.shared.producers 0).index.blockIndex = some 1 ∧
      c.locals 1 = .dequeuing 0 (.moveOut 0 0 1 0 0 0) ∧
      ∃ v, (c.shared.producers 0).constructed[0]? = some (0, v) ∧
        c.shared.mem.elements 0 0 = some v := by
  obtain ⟨c, hrun, hindex, hmove⟩ : ∃ c,
      (exec cramped).runWhen Asks (outdated ++ steps 1 4) newcomers = some c ∧
      (c.shared.producers 0).index.blockIndex = some 1 ∧
      c.locals 1 = .dequeuing 0 (.moveOut 0 0 1 0 0 0) := ⟨_, rfl, rfl, rfl⟩
  exact ⟨c, hindex, hmove,
    ((never_faults (reachable_newcomers hrun) 1).2 0).2 0 0 1 0 0 0 hmove⟩

/-! ### Delivery -/

omit [Fintype ι] in
/-- What a thread that is not in a call owes. -/
theorem deqs_of_idle (hidle : ∀ i, c.locals i = .idle) (j : ι) :
    (fun i => (c.locals i).deq j) = fun _ => .finished := by
  funext i
  rw [hidle i]
  rfl

/-- **Every element is delivered once.** What is delivered was claimed and published, no index
is delivered twice, and its value is the one that was enqueued there. When all calls have
returned, everything that was enqueued is published and everything below `headIndex` is
delivered. -/
theorem delivered_once (h : (exec e).ReachableWhen Asks (Init e) c) (j : ι) :
    ((c.shared.producers j).delivered.map Prod.fst).Nodup ∧
      (c.shared.producers j).counters.headIndex ≤ (c.shared.producers j).counters.tailIndex ∧
      (∀ n v, (n, v) ∈ (c.shared.producers j).delivered →
        n < (c.shared.producers j).counters.headIndex ∧
          ((c.shared.producers j).constructed[n]?).map Prod.snd = some v) ∧
      ((∀ i, c.locals i = .idle) →
        (c.shared.producers j).constructed.length = (c.shared.producers j).counters.tailIndex ∧
          ∀ n < (c.shared.producers j).counters.headIndex,
            ∃ v, (n, v) ∈ (c.shared.producers j).delivered) := by
  obtain ⟨⟨place, -, hsub⟩, hle⟩ := inv_reachable h
  obtain ⟨o, low, top, hj⟩ := hsub j
  refine ⟨hj.delivery.once, hle j, fun n v hv => ⟨?_, hj.delivery.right n v hv⟩, fun hidle => ?_⟩
  · exact (mem_settled.mp ((hj.delivery.moved n).mpr ⟨v, hv⟩)).1
  · rw [deqs_of_idle hidle j, hidle j] at hj
    refine ⟨hj.stock.count, fun n hn => (hj.delivery.moved n).mp (mem_settled.mpr ⟨hn, ?_⟩)⟩
    exact fun _ => Finset.notMem_empty n

theorem delivered_once_finished : ∃ c : Quartet, (c.shared.producers 0).counters.headIndex = 4 ∧
    (c.shared.producers 0).constructed.length = 5 ∧
    ∀ n < 4, ∃ v, (n, v) ∈ (c.shared.producers 0).delivered := by
  obtain ⟨c, hrun, hhead, htail, hidle⟩ : ∃ c,
      (exec cramped).runWhen Asks finished newcomers = some c ∧
      (c.shared.producers 0).counters.headIndex = 4 ∧
      (c.shared.producers 0).counters.tailIndex = 5 ∧ ∀ i, c.locals i = .idle :=
    ⟨_, rfl, rfl, rfl, fun | 0 => rfl | 1 => rfl | 2 => rfl | 3 => rfl⟩
  obtain ⟨-, -, -, hall⟩ := delivered_once (reachable_newcomers hrun) 0
  obtain ⟨hcount, hdelivered⟩ := hall hidle
  exact ⟨c, hhead, hcount.trans htail, fun n hn => hdelivered n (hn.trans_eq hhead.symm)⟩

/-! ### Blocks -/

/-- Block `b` can be found in the given place. -/
def LiesAt (e : Env) (c : Conf ι (State ι α) (PC ι α)) (b : ℕ) : Place ι → Prop
  | .pool => c.shared.mem.initialBlockPoolIndex ≤ b ∧ b < e.initialBlockPoolSize
  | .free => b ∈ c.shared.mem.freeList
  | .unborn => e.initialBlockPoolSize + c.shared.mem.created ≤ b
  | .destroyed => b ∈ c.shared.mem.destroyed
  | .hand i => b ∈ (c.locals i).hands
  | .slot j k => ∃ h q, (c.shared.producers j).index.blockIndex = some h ∧
      q < ((c.shared.producers j).index.headers h).capacity ∧
      (c.shared.producers j).index.entries (((c.shared.producers j).index.headers h).index q) =
        ⟨some (k * e.BLOCK_SIZE), some (some b)⟩

theorem liesAt_iff {place : ℕ → Place ι}
    (hc : Custody e c.shared.mem place fun i => (c.locals i).hands)
    (hsub : ∀ j, ∃ o low top, Sub e (c.shared.producers j) c.shared.mem place j o low top
      (c.locals j).enq fun i => (c.locals i).deq j) (b : ℕ) (y : Place ι) :
    LiesAt e c b y ↔ place b = y := by
  cases y with
  | pool => exact (hc.pool b).symm
  | free => exact (hc.free b).symm
  | unborn => exact (hc.unborn b).symm
  | destroyed => exact (hc.destroyed b).symm
  | hand i => exact (hc.hand b i).symm
  | slot j k =>
      obtain ⟨o, low, top, hj⟩ := hsub j
      exact hj.slot_iff b k

theorem Inv.one_place (h : Inv e c) (b : ℕ) : ∃ y : Place ι, LiesAt e c b y ∧
    (∀ y', LiesAt e c b y' → y' = y) ∧
      c.shared.mem.acquired b = c.shared.mem.released b + if y.inUse then 1 else 0 := by
  obtain ⟨place, hc, hsub⟩ := h
  refine ⟨place b, (liesAt_iff hc hsub b _).mpr rfl, fun y' hy' => ?_, hc.balance b⟩
  exact ((liesAt_iff hc hsub b y').mp hy').symm

/-- **Every block is in exactly one place**, at every moment: on the index of one producer under
one number, in the hands of one thread, or with the queue. It has been released as often as it
was acquired, or once less while it is in use; so no block is lost and none is released
twice. -/
theorem block_in_one_place_race (h : (exec e).ReachableWhen Asks (Init e) c) (b : ℕ) :
    ∃ y : Place ι, LiesAt e c b y ∧ (∀ y', LiesAt e c b y' → y' = y) ∧
      c.shared.mem.acquired b = c.shared.mem.released b + if y.inUse then 1 else 0 :=
  (inv_reachable h).1.one_place b

/-- Thread 0 has the third block in its hands. -/
theorem block_in_one_place_outdated : ∃ c : Quartet, LiesAt cramped c 2 (.hand 0) ∧
    (∀ y, LiesAt cramped c 2 y → y = .hand 0) ∧
    c.shared.mem.acquired 2 = c.shared.mem.released 2 + 1 := by
  obtain ⟨c, hrun, hhands⟩ : ∃ c, (exec cramped).runWhen Asks outdated newcomers = some c ∧
      (c.locals 0).hands = [2] := ⟨_, rfl, rfl⟩
  have hhand : LiesAt cramped c 2 (.hand 0) := by
    show 2 ∈ (c.locals 0).hands
    rw [hhands]
    exact List.mem_singleton_self 2
  obtain ⟨y, -, hunique, hbalance⟩ := block_in_one_place_race (reachable_newcomers hrun) 2
  obtain rfl := hunique _ hhand
  exact ⟨c, hhand, hunique, hbalance⟩

/-- **A block goes back as soon as it is empty.** When all calls have returned, a producer has
the blocks of the indices that are not dequeued, and no other block is in use. -/
theorem blocks_reclaimed (h : (exec e).ReachableWhen Asks (Init e) c)
    (hidle : ∀ i, c.locals i = .idle) :
    (∀ j k, (∃ b, LiesAt e c b (.slot j k)) ↔
      (c.shared.producers j).counters.headIndex / e.BLOCK_SIZE ≤ k ∧
        k < blocksBelow e (c.shared.producers j).counters.tailIndex) ∧
      ∀ b, c.shared.mem.acquired b = c.shared.mem.released b ∨ ∃ j k, LiesAt e c b (.slot j k) := by
  obtain ⟨⟨place, hc, hsub⟩, hle⟩ := inv_reachable h
  refine ⟨fun j k => ?_, fun b => ?_⟩
  · obtain ⟨o, low, top, hj⟩ := hsub j
    have hlies : ∀ b, LiesAt e c b (.slot j k) ↔ place b = .slot j k :=
      fun b => liesAt_iff hc hsub b _
    rw [deqs_of_idle hidle j, hidle j] at hj
    have hmarked : ∀ n, n ∈ marked (fun _ : ι => DeqPC.finished)
        (c.shared.producers j).counters.headIndex ↔
        n < (c.shared.producers j).counters.headIndex := by
      intro n
      rw [marked, mem_settled]
      exact and_iff_left fun _ => Finset.notMem_empty n
    simp only [hlies]
    constructor
    · rintro ⟨b, hb⟩
      obtain ⟨-, -, -, hlt | hmem⟩ := hj.shelf.slot b k hb
      · refine ⟨?_, hlt⟩
        -- with all its slots marked somebody would be about to take the block away
        by_contra hgt
        have hall : ∀ n, n / e.BLOCK_SIZE = k → n ∈ marked (fun _ : ι => DeqPC.finished)
            (c.shared.producers j).counters.headIndex := by
          intro n hn
          rw [← hn] at hgt
          exact (hmarked n).mpr (lt_of_not_ge fun hge => hgt (Nat.div_le_div_right hge))
        obtain ⟨i, hi⟩ := hj.swept b k hb hall
        cases hi
      · exact absurd hmem (Finset.notMem_empty k)
    · rintro ⟨hge, hlt⟩
      have hdiv : (k * e.BLOCK_SIZE + (e.BLOCK_SIZE - 1)) / e.BLOCK_SIZE = k :=
        mul_add_div (Nat.sub_lt e.BLOCK_SIZE_pos Nat.one_pos)
      -- the last slot of the block is not dequeued yet
      have hlast : k * e.BLOCK_SIZE + (e.BLOCK_SIZE - 1) ∉ marked (fun _ : ι => DeqPC.finished)
          (c.shared.producers j).counters.headIndex := by
        rw [hmarked]
        have hsum := div_mul_add_mod (e := e) (c.shared.producers j).counters.headIndex
        have hmod := mod_lt (e := e) (c.shared.producers j).counters.headIndex
        have hmul := Nat.mul_le_mul_right e.BLOCK_SIZE hge
        omega
      obtain ⟨b, hb⟩ := hj.stock.live _ hlast (by rw [hdiv]; exact hlt)
      exact ⟨b, hdiv ▸ hb⟩
  · have hbalance := hc.balance b
    cases hb : place b with
    | slot j k => exact .inr ⟨j, k, (liesAt_iff hc hsub b _).mpr hb⟩
    | hand i =>
        have hmem := (hc.hand b i).mp hb
        rw [hidle i] at hmem
        cases hmem
    | _ =>
        rw [hb] at hbalance
        exact .inl hbalance

/-- Only the third block of producer 0 is left. -/
theorem blocks_reclaimed_finished : ∃ c : Quartet, (∃ b, LiesAt cramped c b (.slot 0 2)) ∧
    (¬ ∃ b, LiesAt cramped c b (.slot 0 1)) := by
  obtain ⟨c, hrun, hhead, htail, hidle⟩ : ∃ c,
      (exec cramped).runWhen Asks finished newcomers = some c ∧
      (c.shared.producers 0).counters.headIndex = 4 ∧
      (c.shared.producers 0).counters.tailIndex = 5 ∧ ∀ i, c.locals i = .idle :=
    ⟨_, rfl, rfl, rfl, fun | 0 => rfl | 1 => rfl | 2 => rfl | 3 => rfl⟩
  have hblocks := (blocks_reclaimed (reachable_newcomers hrun) hidle).1 0
  refine ⟨c, (hblocks 2).mpr ?_, fun hb => ?_⟩
  · rw [hhead, htail]
    decide
  · have hle := ((hblocks 1).mp hb).1
    rw [hhead] at hle
    revert hle
    decide

/-! ### The limit -/

omit [DecidableEq ι] in
/-- The elements constructed so far lie in the blocks on the index. -/
theorem Sub.constructed_le {p : Producer α} {m : Memory α} {place : ℕ → Place ι} {j : ι} {o : ℕ → ℕ}
    {low top : ℕ} {enq : EnqPC α} {deqs : ι → DeqPC} (hs : Sub e p m place j o low top enq deqs) :
    p.constructed.length ≤
      enq.inserted (blocksBelow e p.counters.tailIndex) * e.BLOCK_SIZE := by
  have htail : p.counters.tailIndex ≤ blocksBelow e p.counters.tailIndex * e.BLOCK_SIZE :=
    blocksBelow_le.mp le_rfl
  have hinserted := Nat.mul_le_mul_right e.BLOCK_SIZE
    (EnqPC.le_inserted (blocksBelow e p.counters.tailIndex) enq)
  -- a call that constructs has the blocks for all its elements
  have hcall : ∀ t : Task α, t.Ok e place j p.counters.tailIndex 0 →
      t.chain.length = t.needed e → p.counters.tailIndex + t.items.length ≤
        (blocksBelow e p.counters.tailIndex + t.chain.length) * e.BLOCK_SIZE := by
    intro t hok hlen
    rw [hok.blocks_eq hlen]
    exact blocksBelow_le.mp le_rfl
  rw [hs.stock.count]
  cases enq with
  | construct t k =>
      obtain ⟨hok, hlen, hk⟩ := hs.owner
      exact (Nat.add_le_add_left hk.le _).trans (hcall t hok hlen)
  | publish t =>
      obtain ⟨hok, hlen⟩ := hs.owner
      exact hcall t hok hlen
  | _ => exact htail.trans hinserted

/-- **The limit on a sub-queue holds at all times**, also while blocks are being acquired and
elements constructed. -/
theorem size_le_limit (h : (exec e).ReachableWhen Asks (Init e) c)
    (hmax : e.MAX_SUBQUEUE_SIZE ≠ e.sizeMax) (j : ι) :
    (c.shared.producers j).constructed.length ≤
      (c.shared.producers j).counters.headIndex + e.MAX_SUBQUEUE_SIZE.toNat := by
  obtain ⟨⟨place, hc, hsub⟩, hle⟩ := inv_reachable h
  obtain ⟨o, low, top, hj⟩ := hsub j
  have hfits := hj.fits hmax
  have hconstructed := hj.constructed_le
  omega

theorem size_le_limit_outdated : cramped.MAX_SUBQUEUE_SIZE ≠ cramped.sizeMax ∧
    ∃ c : Quartet, (c.shared.producers 0).counters.headIndex = 1 ∧
      (c.shared.producers 0).constructed.length ≤ 1 + cramped.MAX_SUBQUEUE_SIZE.toNat := by
  obtain ⟨c, hrun, hhead⟩ : ∃ c, (exec cramped).runWhen Asks outdated newcomers = some c ∧
      (c.shared.producers 0).counters.headIndex = 1 := ⟨_, rfl, rfl⟩
  have hmax : cramped.MAX_SUBQUEUE_SIZE ≠ cramped.sizeMax := by decide
  exact ⟨hmax, c, hhead, hhead ▸ size_le_limit (reachable_newcomers hrun) hmax 0⟩

end ConcurrentQueue.ImplicitRace
