import ConcurrentQueue.ClaimSound
import ConcurrentQueue.ImplicitRaceOwner

/-!
# ConcurrentQueue.ImplicitRaceSystem

**One step of the system.** A step of a thread concerns one producer and, through the
blocks, the memory; the other producers are framed. Beside the invariant goes the claim
protocol of each producer (`claimConf`), whose own invariant says that nobody claims an
index that is not published.
-/

namespace ConcurrentQueue.ImplicitRace

open Function Interleaving Outstanding Circular

variable {ι α : Type} {e : Env} [DecidableEq ι]

/-! ### The claim protocol of one producer -/

/-- The part of the thread in the claim protocol of producer `j`. -/
def PC.claim (j : ι) (l : PC ι α) : Claim.PC :=
  match l.deq j with
  | .claiming pc => pc
  | _ => .idle

/-- The claim protocol of producer `j`: the threads as consumers, and its owner once more as
the one who publishes. -/
def claimConf (j : ι) (c : Conf ι (State ι α) (PC ι α)) :
    Conf (Option ι) Claim.State Claim.PC :=
  ⟨(c.shared.producers j).counters, fun i => i.elim .producer fun i => (c.locals i).claim j⟩

section Claim

variable {c : Conf ι (State ι α) (PC ι α)} {i j : ι} {l : PC ι α} {s : State ι α}

theorem claimConf_update (s : State ι α) (locals : ι → PC ι α) (i : ι) (l : PC ι α) :
    claimConf j ⟨s, update locals i l⟩ =
      ⟨(s.producers j).counters,
        update (claimConf j ⟨s, locals⟩).locals (some i) (l.claim j)⟩ := by
  rw [claimConf]
  congr 1
  funext i'
  cases i' with
  | none => rfl
  | some i' =>
      rcases eq_or_ne i' i with rfl | hne
      · rw [update_self]
        show (update locals i' l i').claim j = _
        rw [update_self]
      · rw [update_of_ne (by simpa using hne)]
        show (update locals i l i').claim j = _
        rw [update_of_ne hne]
        rfl

variable [Fintype ι]

/-- A step that is none of the protocol. -/
theorem claim_same (h : Claim.Inv (claimConf j c))
    (hs : (s.producers j).counters = (c.shared.producers j).counters)
    (hl : l.claim j = (c.locals i).claim j) :
    Claim.Inv (claimConf j ⟨s, update c.locals i l⟩) := by
  have hsame : claimConf j ⟨s, update c.locals i l⟩ = claimConf j c := by
    rw [claimConf_update, hs, hl]
    show Conf.mk _ _ = Conf.mk _ _
    congr 1
    exact update_eq_self (some i) (claimConf j c).locals
  rw [hsame]
  exact h

/-- A step of the protocol. -/
theorem claim_exec (h : Claim.Inv (claimConf j c)) {a : Claim.Act}
    (hx : Claim.exec (some i) a (c.shared.producers j).counters ((c.locals i).claim j) =
      some ((s.producers j).counters, l.claim j)) :
    Claim.Inv (claimConf j ⟨s, update c.locals i l⟩) := by
  rw [claimConf_update]
  exact Claim.inv_step (c := claimConf j c) (i := some i) h hx

/-- The elements of a call are published. -/
theorem claim_publish (h : Claim.Inv (claimConf j c)) {n : ℕ}
    (hs : (s.producers j).counters = { (c.shared.producers j).counters with
      tailIndex := (c.shared.producers j).counters.tailIndex + n })
    (hl : l.claim j = (c.locals i).claim j) :
    Claim.Inv (claimConf j ⟨s, update c.locals i l⟩) := by
  have hstep := Claim.inv_step (c := claimConf j c) (i := none) (a := .publish n) h
    (r := ((s.producers j).counters, .producer)) (by rw [hs]; rfl)
  have hsame : claimConf j ⟨s, update c.locals i l⟩ =
      ⟨(s.producers j).counters, update (claimConf j c).locals none .producer⟩ := by
    rw [claimConf_update, hl]
    congr 1
    rw [show update (claimConf j c).locals none .producer = (claimConf j c).locals from
      update_eq_self none (claimConf j c).locals]
    exact update_eq_self (some i) (claimConf j c).locals
  rw [hsame]
  exact hstep

end Claim

/-! ### One step of the system -/

/-- A call asks for at least one element. -/
def Asks (_ : Conf ι (State ι α) (PC ι α)) (_ : ι) : Act ι α → Prop
  | .dequeue _ call => call ≠ .dequeueBulk 0
  | _ => True

/-- The block of index `n` is on the index; one of its elements has been published, and not all of
its slots are marked empty. -/
def Live (e : Env) (p : Producer α) (m : Memory α) (n : ℕ) : Prop :=
  n / e.BLOCK_SIZE * e.BLOCK_SIZE < p.counters.tailIndex ∧ ∃ h ∈ p.index.blockIndex,
    ∃ q < (p.index.headers h).capacity, (p.index.entries ((p.index.headers h).index q)).key =
        some (n / e.BLOCK_SIZE * e.BLOCK_SIZE) ∧
      ∃ v ∈ (p.index.entries ((p.index.headers h).index q)).value, ∃ b ∈ v,
        m.elementsCompletelyDequeued b < e.BLOCK_SIZE

/-- A call that has claimed nothing goes on only while the block that it looks up is live. -/
def Guarded (e : Env) (c : Conf ι (State ι α) (PC ι α)) (i : ι) (_ : Act ι α) : Prop :=
  ∀ j, ∀ n ∈ ((c.locals i).deq j).unclaimed, Live e (c.shared.producers j) c.shared.mem n

section PC

variable {i j : ι} {locals : ι → PC ι α} {l : PC ι α}

omit [DecidableEq ι] in
@[simp] theorem enq_ofEnq (pc : EnqPC α) : (PC.ofEnq pc : PC ι α).enq = pc := by
  cases pc <;> rfl

omit [DecidableEq ι] in
@[simp] theorem hands_ofEnq (pc : EnqPC α) : (PC.ofEnq pc : PC ι α).hands = pc.hands := by
  cases pc <;> rfl

@[simp] theorem deq_ofEnq (j : ι) (pc : EnqPC α) : (PC.ofEnq pc : PC ι α).deq j = .finished := by
  cases pc <;> rfl

omit [DecidableEq ι] in
@[simp] theorem enq_ofDeq (j : ι) (pc : DeqPC) : (PC.ofDeq j pc : PC ι α).enq = .finished := by
  cases pc <;> rfl

omit [DecidableEq ι] in
@[simp] theorem hands_ofDeq (j : ι) (pc : DeqPC) : (PC.ofDeq j pc : PC ι α).hands = pc.hands := by
  cases pc <;> rfl

@[simp] theorem deq_dequeuing_self (j : ι) (pc : DeqPC) :
    (PC.dequeuing j pc : PC ι α).deq j = pc := if_pos rfl

@[simp] theorem deq_ofDeq_self (j : ι) (pc : DeqPC) : (PC.ofDeq j pc : PC ι α).deq j = pc := by
  cases pc <;> simp [PC.ofDeq, PC.deq]

theorem deq_ofDeq_of_ne (h : j ≠ i) (pc : DeqPC) :
    (PC.ofDeq i pc : PC ι α).deq j = .finished := by
  cases pc <;> simp [PC.ofDeq, PC.deq, h.symm]

omit [DecidableEq ι] in
theorem enq_hands_subset (l : PC ι α) : ∀ b ∈ l.enq.hands, b ∈ l.hands := by
  cases l with
  | enqueuing pc => exact fun _ hb => hb
  | idle => exact fun _ hb => by cases hb
  | dequeuing j pc => exact fun _ hb => by cases hb

theorem hands_update : (fun i' => (update locals i l i').hands) =
    update (fun i' => (locals i').hands) i l.hands := by
  funext i'
  exact Function.apply_update (fun _ => PC.hands) locals i l i'

theorem deq_update : (fun i' => (update locals i l i').deq j) =
    update (fun i' => (locals i').deq j) i (l.deq j) := by
  funext i'
  exact Function.apply_update (fun _ => PC.deq j) locals i l i'

end PC

section Step

variable [Fintype ι] {c : Conf ι (State ι α) (PC ι α)} {i j : ι} {place : ℕ → Place ι}

omit [Fintype ι] in
@[simp] theorem State.set_self (s : State ι α) (j : ι) : s.set j (s.producers j) s.mem = s := by
  rw [State.set, update_eq_self]

/-- What the steps need to know about the claims. -/
def Claimed (c : Conf ι (State ι α) (PC ι α)) : Prop :=
  ∀ j, (c.shared.producers j).counters.headIndex ≤ (c.shared.producers j).counters.tailIndex

/-- A step that keeps one producer in order and does not concern the others. -/
theorem Inv.of_kept (hc : Custody e c.shared.mem place fun i => (c.locals i).hands)
    (hsub : ∀ j, ∃ o low top, Sub e (c.shared.producers j) c.shared.mem place j o low top
      (c.locals j).enq fun i => (c.locals i).deq j)
    (hle : Claimed c) {p' : Producer α} {m' : Memory α} {l : PC ι α}
    (hk : Kept e (fun i => (c.locals i).hands) i j place c.shared.mem m' p'
      (update c.locals i l j).enq
      (update (fun i' => (c.locals i').deq j) i (l.deq j)) l.hands)
    (henq : ∀ j', j' ≠ j → (update c.locals i l j').enq = (c.locals j').enq)
    (hdeq : ∀ j', j' ≠ j → l.deq j' = (c.locals i).deq j') :
    Inv e ⟨c.shared.set j p' m', update c.locals i l⟩ := by
  obtain ⟨place', hcust, hsame, o, low, top, hj⟩ := hk
  refine ⟨place', ?_, fun j' => ?_⟩
  · show Custody e m' place' fun i' => (update c.locals i l i').hands
    rw [hands_update]
    exact hcust
  · show ∃ o low top, Sub e (update c.shared.producers j p' j') m' place' j' o low top
      (update c.locals i l j').enq fun i' => (update c.locals i l i').deq j'
    rw [deq_update]
    rcases eq_or_ne j' j with rfl | hne
    · rw [update_self]
      exact ⟨o, low, top, hj⟩
    · obtain ⟨o', low', top', hsub'⟩ := hsub j'
      rw [update_of_ne hne, henq j' hne, hdeq j' hne]
      refine ⟨o', low', top', ?_⟩
      have hdeqs : update (fun i' => (c.locals i').deq j') i ((c.locals i).deq j') =
          fun i' => (c.locals i').deq j' := update_eq_self i _
      rw [hdeqs]
      exact hsub'.frame (hle j') (hsame j' hne) fun b hb =>
        (hc.hand b j').mpr (enq_hands_subset _ b hb)

omit [DecidableEq ι] in
/-- A live block is published and not finished. -/
theorem Sub.alive_of_live {p : Producer α} {m : Memory α} {o : ℕ → ℕ} {low top n : ℕ}
    {enq : EnqPC α} {deqs : ι → DeqPC} (h : Sub e p m place j o low top enq deqs)
    (hlive : Live e p m n) : Alive e p deqs (n / e.BLOCK_SIZE) := by
  obtain ⟨htail, c, hc, q, hq, hkey, v, hv, b, rfl, hlt⟩ := hlive
  refine ⟨lt_blocksBelow.mpr htail, fun hfin => hlt.ne ?_⟩
  rw [h.stock.marks b _ ((h.slot_iff b _).mp ⟨c, q, hc, hq, ?_⟩)]
  · exact card_block_of_mem hfin
  · rw [← hkey, ← Option.mem_def.mp hv]

section Cases

variable (hc : Custody e c.shared.mem place fun i => (c.locals i).hands)
  (hsub : ∀ j, ∃ o low top, Sub e (c.shared.producers j) c.shared.mem place j o low top
    (c.locals j).enq fun i => (c.locals i).deq j) (hle : Claimed c)

include hc hsub hle

/-- A call that enqueues begins. -/
theorem inv_enqueue (hl : c.locals i = .idle) (mode : AllocationMode) (items : List α) :
    Inv e ⟨c.shared, update c.locals i (.ofEnq (nextBlock e
      ⟨mode, items, (c.shared.producers i).counters.tailIndex, []⟩))⟩ := by
  have henq : (c.locals i).enq = .finished := by rw [hl]; rfl
  have hdeq : ∀ j, (c.locals i).deq j = .finished := fun j => by rw [hl]; rfl
  obtain ⟨o, low, top, hi⟩ := hsub i
  rw [henq] at hi
  have hnext : Sub e (c.shared.producers i) c.shared.mem place i o low top (nextBlock e
      ⟨mode, items, (c.shared.producers i).counters.tailIndex, []⟩)
      fun i' => (c.locals i').deq i := by
    refine hi.owner_quiet inserted_nextBlock pushing_nextBlock ?_ done_nextBlock
      (ok_nextBlock ⟨rfl, fun k _ b hb => ?_, Nat.zero_le _⟩)
    · rw [acquired_nextBlock]
      exact Finset.Ico_self _
    · cases hb
  suffices h : Inv e ⟨c.shared.set i (c.shared.producers i) c.shared.mem, update c.locals i
      (.ofEnq (nextBlock e ⟨mode, items, (c.shared.producers i).counters.tailIndex, []⟩))⟩ by
    rwa [State.set_self] at h
  refine Inv.of_kept hc hsub hle ?_ (fun j' hj' => by rw [update_of_ne hj'])
    (fun j' _ => by rw [deq_ofEnq, hdeq])
  rw [update_self, enq_ofEnq, deq_ofEnq, ← hdeq i,
    update_eq_self i (fun i' => (c.locals i').deq i)]
  refine .quiet hc ?_ hnext
  rw [hands_ofEnq, hands_nextBlock, hl]
  rfl

/-- A call that dequeues begins. -/
theorem inv_dequeue (hl : c.locals i = .idle) (j : ι) {call : Claim.Call} :
    Inv e ⟨c.shared, update c.locals i (.dequeuing j (.claiming (.loadTail call)))⟩ := by
  have henq : ∀ j', (update c.locals i (.dequeuing j (.claiming (.loadTail call)))
      j').enq = (c.locals j').enq := by
    intro j'
    rcases eq_or_ne j' i with rfl | hne
    · rw [update_self, hl]
      rfl
    · rw [update_of_ne hne]
  obtain ⟨o, low, top, hj⟩ := hsub j
  rw [← State.set_self c.shared j]
  refine Inv.of_kept hc hsub hle ?_ (fun j' _ => henq j')
    (fun j' hj' => by rw [hl]; exact if_neg hj'.symm)
  rw [henq, deq_dequeuing_self]
  refine .quiet hc (by rw [hl]; rfl) (hj.reader_quiet (s := (c.shared.producers j).counters) rfl
    rfl ?_ ?_ ?_ trivial)
  · rw [hl]
    rfl
  · rw [hl]
    rfl
  · rw [hl]
    rfl

/-- A step of a call that enqueues. -/
theorem inv_enqStep {pc : EnqPC α} (hl : c.locals i = .enqueuing pc) {x : Input}
    {r : Producer α × Memory α × EnqPC α}
    (hr : enqStep e x pc (c.shared.producers i) c.shared.mem = some r) :
    Inv e ⟨c.shared.set i r.1 r.2.1, update c.locals i (.ofEnq r.2.2)⟩ := by
  have hdeq : ∀ j, (c.locals i).deq j = .finished := fun j => by rw [hl]; rfl
  obtain ⟨o, low, top, hi⟩ := hsub i
  rw [show (c.locals i).enq = pc by rw [hl]; rfl] at hi
  refine Inv.of_kept hc hsub hle ?_ (fun j' hj' => by rw [update_of_ne hj'])
    (fun j' _ => by rw [deq_ofEnq, hdeq])
  rw [update_self, enq_ofEnq, deq_ofEnq, ← hdeq i, hands_ofEnq,
    update_eq_self i (fun i' => (c.locals i').deq i)]
  exact enqStep_kept hc hi (by rw [hl]; rfl) (hle i) hr

/-- A step of a call that dequeues. -/
theorem inv_deqStep {pc : DeqPC} (hl : c.locals i = .dequeuing j pc)
    (hg : ∀ n ∈ pc.unclaimed, Live e (c.shared.producers j) c.shared.mem n)
    {r : Producer α × Memory α × DeqPC}
    (hr : deqStep e pc (c.shared.producers j) c.shared.mem = some r) :
    Inv e ⟨c.shared.set j r.1 r.2.1, update c.locals i (.ofDeq j r.2.2)⟩ := by
  have henq : ∀ j', (update c.locals i (.ofDeq j r.2.2) j').enq = (c.locals j').enq := by
    intro j'
    rcases eq_or_ne j' i with rfl | hne
    · rw [update_self, enq_ofDeq, hl]
      rfl
    · rw [update_of_ne hne]
  have hpc : (c.locals i).deq j = pc := by rw [hl, deq_dequeuing_self]
  obtain ⟨o, low, top, hj⟩ := hsub j
  refine Inv.of_kept hc hsub hle ?_ (fun j' _ => henq j') (fun j' hj' => ?_)
  · rw [henq, deq_ofDeq_self, hands_ofDeq]
    refine deqStep_kept hc hj ?_ (hle j) (fun n hn => ?_) (fun b hb => ?_) (by rw [hpc]; exact hr)
    · show (c.locals i).hands = ((c.locals i).deq j).hands
      rw [hpc, hl]
      rfl
    · change n ∈ ((c.locals i).deq j).unclaimed at hn
      rw [hpc] at hn
      exact hj.alive_of_live (hg n hn)
    · exact (hc.hand b j).mpr (enq_hands_subset _ b hb)
  · rw [deq_ofDeq_of_ne hj', hl]
    exact (if_neg hj'.symm).symm

end Cases

theorem inv_step (h : Inv e c) (hle : Claimed c) {a : Act ι α} (hg : Guarded e c i a)
    {s : State ι α} {l : PC ι α} (hx : exec e i a c.shared (c.locals i) = some (s, l)) :
    Inv e ⟨s, update c.locals i l⟩ := by
  obtain ⟨place, hc, hsub⟩ := h
  generalize hl : c.locals i = l₀ at hx
  cases exec_moves hx with
  | enqueue mode items => exact inv_enqueue hc hsub hle hl mode items
  | dequeue j call => exact inv_dequeue hc hsub hle hl j
  | enqueuing hr => exact inv_enqStep hc hsub hle hl hr
  | @dequeuing j pc r hr =>
      refine inv_deqStep hc hsub hle hl (fun n hn => hg j n ?_) hr
      rw [hl, deq_dequeuing_self]
      exact hn

omit [Fintype ι] in
theorem guarded_of_asking (h : ∀ i j, ¬ ((c.locals i).deq j).AsksNone) {a : Act ι α} :
    Guarded e c i a := by
  intro j n hn
  refine absurd ?_ (h i j)
  generalize (c.locals i).deq j = l at hn
  cases l with
  | claiming pc => cases hn
  | _ => exact Option.ne_none_iff_exists'.mpr ⟨n, hn⟩

/-- No call begins to ask for no elements. -/
theorem asking_step (h : Inv e c) (hsome : ∀ i j, ¬ ((c.locals i).deq j).AsksNone) {a : Act ι α}
    (ha : Asks c i a) {s : State ι α} {l : PC ι α}
    (hx : exec e i a c.shared (c.locals i) = some (s, l)) (i' j : ι) :
    ¬ ((update c.locals i l i').deq j).AsksNone := by
  rcases eq_or_ne i' i with rfl | hne
  · rw [update_self]
    have hfinished : ¬ DeqPC.finished.AsksNone := fun hnone => hnone rfl
    generalize hl : c.locals i' = l₀ at hx
    cases exec_moves hx with
    | enqueue mode items => rwa [deq_ofEnq]
    | dequeue j' call =>
        show ¬ DeqPC.AsksNone (if j' = j then _ else _)
        split
        · exact not_not.mpr ha
        · exact hfinished
    | enqueuing hr => rwa [deq_ofEnq]
    | @dequeuing j' pc r hr =>
        rcases eq_or_ne j j' with rfl | hj
        · have hpc : pc = (c.locals i').deq j := by rw [hl, deq_dequeuing_self]
          obtain ⟨place, -, hsub⟩ := h
          obtain ⟨o, low, top, hsubj⟩ := hsub j
          rw [hpc] at hr
          rw [deq_ofDeq_self]
          by_cases hdone : r.2.2 = .finished
          · rwa [hdone]
          · by_cases hfault : r.2.2 = .fault
            · rw [hfault]
              exact fun hnone => hnone rfl
            · refine (hsubj.asksNone_iff (fun n hn => ?_) hr hdone hfault).not.mpr (hsome i' j)
              exact hsubj.alive_of_live (guarded_of_asking hsome (a := .step .run) j n hn)
        · rwa [deq_ofDeq_of_ne hj]
  · rw [update_of_ne hne]
    exact hsome i' j

/-! ### One step of the claim protocol -/

omit [Fintype ι] in
theorem PC.claim_eq_idle {l : PC ι α} (h : ∀ q, l.deq j ≠ .claiming q) : l.claim j = .idle := by
  unfold PC.claim
  split
  next pc heq => exact absurd heq (h pc)
  next => rfl

omit [Fintype ι] in
theorem PC.claim_eq {l : PC ι α} {q : Claim.PC} (h : l.deq j = .claiming q) : l.claim j = q := by
  rw [PC.claim, h]

omit [DecidableEq ι] [Fintype ι] in
/-- The protocol is the same for every thread. -/
theorem claim_exec_eq (i : ι) (a : Claim.Act) (s : Claim.State) (pc : Claim.PC) :
    Claim.exec i a s pc = Claim.exec () a s pc := by
  cases a <;> cases pc <;> rfl

omit [Fintype ι] in
/-- A step of a call that dequeues is one of the protocol until the call has its claim. -/
theorem claim_afterClaim {head : ℕ} {s s' : Claim.State} {q q' : Claim.PC}
    (hx : Claim.exec () .run s q = some (s', q')) :
    (PC.ofDeq j (afterClaim head q q') : PC ι α).claim j = q' := by
  by_cases hclaim : ∃ n, q = .claim n
  · obtain ⟨n, rfl⟩ := hclaim
    cases hx
    exact PC.claim_eq_idle fun q => by rw [deq_ofDeq_self]; exact fun h => by cases h
  · push Not at hclaim
    rw [afterClaim_eq hclaim]
    split
    next heq =>
      rw [heq]
      exact PC.claim_eq_idle fun q => by rw [deq_ofDeq_self]; exact fun h => by cases h
    next => exact PC.claim_eq (deq_ofDeq_self ..)

/-- A call publishes from the tail on that it began at. -/
theorem Inv.start (h : Inv e c) {t : Task α} (hl : c.locals i = .enqueuing (.publish t)) :
    t.start = (c.shared.producers i).counters.tailIndex := by
  obtain ⟨place, -, hsub⟩ := h
  obtain ⟨o, low, top, hi⟩ := hsub i
  have howner := hi.owner
  rw [hl] at howner
  exact howner.1.start

theorem claim_enqStep (h : ∀ j, Claim.Inv (claimConf j c)) {pc : EnqPC α}
    (hstart : ∀ t, c.locals i = .enqueuing (.publish t) →
      t.start = (c.shared.producers i).counters.tailIndex)
    (hl : c.locals i = .enqueuing pc) {x : Input} {r : Producer α × Memory α × EnqPC α}
    (hr : enqStep e x pc (c.shared.producers i) c.shared.mem = some r) (j : ι) :
    Claim.Inv (claimConf j
      ⟨c.shared.set i r.1 r.2.1, update c.locals i (.ofEnq r.2.2)⟩) := by
  have hidle : (PC.ofEnq r.2.2 : PC ι α).claim j = (c.locals i).claim j := by
    rw [PC.claim_eq_idle, PC.claim_eq_idle]
    · rw [hl]
      exact fun q hq => by cases hq
    · rw [deq_ofEnq]
      exact fun q hq => by cases hq
  rcases eq_or_ne j i with rfl | hne
  · have hself : ((c.shared.set j r.1 r.2.1).producers j).counters = r.1.counters :=
      congrArg Producer.counters (update_self ..)
    rcases enqStep_counters hr with hsame | ⟨t, rfl, hpub⟩
    · exact claim_same (h j) (hself.trans hsame) hidle
    · -- the call began at the tail, which nobody else moves
      refine claim_publish (n := t.items.length) (h j) ?_ hidle
      rw [hself, hpub, hstart t hl]
  · refine claim_same (h j) ?_ hidle
    exact congrArg Producer.counters (update_of_ne hne ..)

theorem claim_deqStep (h : ∀ j, Claim.Inv (claimConf j c)) {j₀ : ι} {pc : DeqPC}
    (hl : c.locals i = .dequeuing j₀ pc) {r : Producer α × Memory α × DeqPC}
    (hr : deqStep e pc (c.shared.producers j₀) c.shared.mem = some r) (j : ι) :
    Claim.Inv (claimConf j
      ⟨c.shared.set j₀ r.1 r.2.1, update c.locals i (.ofDeq j₀ r.2.2)⟩) := by
  rcases eq_or_ne j j₀ with rfl | hne
  · have hself : ((c.shared.set j r.1 r.2.1).producers j).counters = r.1.counters :=
      congrArg Producer.counters (update_self ..)
    have hdeq : (c.locals i).deq j = pc := by rw [hl, deq_dequeuing_self]
    by_cases hclaim : ∃ q, pc = .claiming q
    · obtain ⟨q, rfl⟩ := hclaim
      obtain ⟨⟨s, q'⟩, hexec, rfl⟩ := Option.map_eq_some_iff.mp hr
      refine claim_exec (h j) (a := .run) ?_
      rw [claim_exec_eq, PC.claim_eq hdeq, hself, claim_afterClaim hexec]
      exact hexec
    · push Not at hclaim
      obtain ⟨hsame, hno⟩ := deqStep_counters hr hclaim
      refine claim_same (h j) (hself.trans hsame) ?_
      rw [PC.claim_eq_idle, PC.claim_eq_idle]
      · rw [hdeq]
        exact hclaim
      · rw [deq_ofDeq_self]
        exact hno
  · refine claim_same (h j) (congrArg Producer.counters (update_of_ne hne ..)) ?_
    rw [PC.claim_eq_idle, PC.claim_eq_idle]
    · rw [hl]
      exact fun q hq => by cases (if_neg hne.symm).symm.trans hq
    · rw [deq_ofDeq_of_ne hne]
      exact fun q hq => by cases hq

theorem claims_step (h : ∀ j, Claim.Inv (claimConf j c)) {a : Act ι α}
    (hstart : ∀ t, c.locals i = .enqueuing (.publish t) →
      t.start = (c.shared.producers i).counters.tailIndex)
    {s : State ι α} {l : PC ι α} (hx : exec e i a c.shared (c.locals i) = some (s, l)) (j : ι) :
    Claim.Inv (claimConf j ⟨s, update c.locals i l⟩) := by
  have hidle : c.locals i = .idle → (c.locals i).claim j = .idle := by
    intro hl
    rw [hl]
    rfl
  generalize hl : c.locals i = l₀ at hx
  cases exec_moves hx with
  | enqueue mode items =>
      refine claim_same (h j) rfl ?_
      rw [hidle hl, PC.claim_eq_idle]
      rw [deq_ofEnq]
      exact fun q hq => by cases hq
  | dequeue j₀ call =>
      rcases eq_or_ne j j₀ with rfl | hne
      · refine claim_exec (h j) (a := .call call) ?_
        rw [hidle hl, PC.claim_eq (deq_dequeuing_self ..)]
        rfl
      · refine claim_same (h j) rfl ?_
        rw [hidle hl, PC.claim_eq_idle]
        exact fun q hq => by cases (if_neg hne.symm).symm.trans hq
  | enqueuing hr => exact claim_enqStep h hstart hl hr j
  | dequeuing hr => exact claim_deqStep h hl hr j

end Step

end ConcurrentQueue.ImplicitRace
