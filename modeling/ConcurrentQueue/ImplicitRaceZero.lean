import ConcurrentQueue.ImplicitRaceSound

/-!
# ConcurrentQueue.ImplicitRaceZero

**Bulk dequeues of no elements.** `dequeue_bulk` with `max = 0` still runs through its loop once:
it claims nothing, looks up the block of the first unclaimed index and marks none of its slots.
As it owes nothing, nobody has to leave the block where it is: others may claim the index, empty
the block and give it back, and the call then follows a null pointer or gives the block back once
more. While the block is live, the call changes nothing.
-/

namespace ConcurrentQueue.ImplicitRace

open Function Interleaving

variable {ι α : Type} {e : Env}

/-- Nothing changes but the history of the claims. -/
def Quiet (s s' : State ι α) : Prop :=
  s'.mem = s.mem ∧ ∀ j, ∃ claims, s'.producers j =
    { s.producers j with counters := { (s.producers j).counters with claims := claims } }

/-- A call for no elements adds nothing to the counters. -/
theorem claim_none {s s' : Claim.State} {pc pc' : Claim.PC} (hgranted : Granted pc)
    (hnone : ¬ Positive pc) (hstep : Claim.exec () .run s pc = some (s', pc')) :
    ∃ claims, s' = { s with claims := claims } := by
  cases pc with
  | producer => cases hstep
  | idle => cases hstep
  | loadCount c tail overcommit =>
      simp only [Claim.exec] at hstep
      split at hstep <;> cases hstep <;> exact ⟨s.claims, rfl⟩
  | addCount c overcommit desired | refundAll desired | claim desired =>
      obtain rfl : desired = 0 := Nat.eq_zero_of_not_pos hnone
      cases hstep
      exact ⟨_, rfl⟩
  | refundSome surplus actual => exact absurd hgranted hnone
  | _ =>
      cases hstep
      exact ⟨s.claims, rfl⟩

theorem deqStep_quiet {x : Index} {place : ℕ → Place ι} {j : ι} {o : ℕ → ℕ} {S : Finset ℕ} {F : ℕ}
    {pc : DeqPC} {p : Producer α} {m : Memory α} {r : Producer α × Memory α × DeqPC}
    (hok : pc.Ok e x place j o S F) (hnone : pc.AsksNone) (hstep : deqStep e pc p m = some r) :
    r.2.1 = m ∧ ∃ claims, r.1 = { p with counters := { p.counters with claims := claims } } := by
  cases pc with
  | claiming q =>
      obtain ⟨⟨s, q'⟩, hexec, rfl⟩ := Option.map_eq_some_iff.mp hstep
      obtain ⟨claims, rfl⟩ := claim_none hok hnone hexec
      exact ⟨rfl, claims, rfl⟩
  | moveOut start n last g q b =>
      obtain ⟨-, -, -, hstart, hend⟩ := hok
      obtain rfl : start = last := by
        simpa [DeqPC.AsksNone, DeqPC.unclaimed, DeqPC.peeks] using hnone
      rw [endIndex_self] at hend
      exact absurd hend hstart.not_gt
  | setManyEmpty start n last g q b =>
      obtain ⟨-, -, -, rfl⟩ := hok
      obtain rfl : start = last := by
        simpa [DeqPC.AsksNone, DeqPC.unclaimed, DeqPC.peeks] using hnone
      -- it adds no marks to those of the block
      simp only [deqStep, endIndex_self, Nat.sub_self, Nat.add_zero] at hstep
      split at hstep
      · cases hstep
        exact ⟨congrArg (fun f => { m with elementsCompletelyDequeued := f })
          (update_eq_self b m.elementsCompletelyDequeued), p.counters.claims, rfl⟩
      · cases hstep
        exact ⟨rfl, p.counters.claims, rfl⟩
  | clearValue n last g q b => exact absurd rfl hnone
  | addBlock n last g q b => exact absurd rfl hnone
  | finished => cases hstep
  | fault => cases hstep
  | _ =>
      simp only [deqStep] at hstep
      repeat' split at hstep
      all_goals
        cases hstep
        exact ⟨rfl, p.counters.claims, rfl⟩

theorem ofDeq_of_ne_finished {j : ι} {pc : DeqPC} (h : pc ≠ .finished) :
    (PC.ofDeq j pc : PC ι α) = .dequeuing j pc := by
  cases pc with
  | finished => exact absurd rfl h
  | _ => rfl

variable [Fintype ι] [DecidableEq ι] {c : Conf ι (State ι α) (PC ι α)} {i j : ι} {a : Act ι α}
  {s : State ι α} {l : PC ι α}

instance (p : Producer α) (m : Memory α) (n : ℕ) : Decidable (Live e p m n) :=
  inferInstanceAs (Decidable (_ ∧ _))

instance : Decidable (Guarded e c i a) := inferInstanceAs (Decidable (∀ _, ∀ _ ∈ _, _))

/-- **A bulk dequeue of no elements changes nothing while its block is live.** If each step of such
a call from its load of the block index on finds the block of its index live, then each of its
steps leaves counters, indices, blocks and free list as they are, the call goes on as one for no
elements until it returns, and the entry through which it reads a block holds one. -/
theorem dequeueBulk_zero_quiet (h : (exec e).ReachableWhen (Guarded e) (Init e) c) {pc : DeqPC}
    (hl : c.locals i = .dequeuing j pc) (hnone : pc.AsksNone) (hg : Guarded e c i a)
    (hx : exec e i a c.shared (c.locals i) = some (s, l)) :
    Quiet c.shared s ∧ (l = .idle ∨ ∃ pc', l = .dequeuing j pc' ∧ pc'.AsksNone) ∧
      ∀ n last g q, pc = .loadValue n last g q → ∃ b, ((c.shared.producers j).index.entries
        (((c.shared.producers j).index.headers g).index q)).value = some (some b) := by
  have hsound : Sound e c := by
    refine h.invariant (I := Sound e) (fun _ hc => sound_init hc) ?_
    exact fun _ _ _ _ _ hsound hg hx => sound_step hsound hg hx
  have hafter := (sound_step hsound hg hx).1.ne_fault i
  obtain ⟨⟨place, -, hsub⟩, -⟩ := hsound
  obtain ⟨o, low, top, hj⟩ := hsub j
  have hok := hj.readers i
  have halive : ∀ n ∈ ((c.locals i).deq j).unclaimed,
      Alive e (c.shared.producers j) (fun i => (c.locals i).deq j) (n / e.BLOCK_SIZE) :=
    fun n hn => hj.alive_of_live (hg j n hn)
  have hnext := fun r => hj.asksNone_iff (i := i) (r := r) halive
  rw [hl, deq_dequeuing_self] at hok
  rw [hl] at hx
  simp only [hl, deq_dequeuing_self] at hnext
  cases exec_moves hx with
  | @dequeuing _ _ r hr =>
      simp only [update_self] at hafter
      refine ⟨?_, ?_, ?_⟩
      · obtain ⟨hmem, hcounters⟩ := deqStep_quiet hok hnone hr
        refine ⟨hmem, fun j' => ?_⟩
        rcases eq_or_ne j' j with rfl | hne
        · simpa [State.set] using hcounters
        · exact ⟨(c.shared.producers j').counters.claims, update_of_ne hne ..⟩
      · rcases eq_or_ne r.2.2 .finished with heq | hne
        · exact .inl (by rw [heq]; rfl)
        · have hf : r.2.2 ≠ .fault := fun heq => hafter.2 j (by rw [heq]; rfl)
          exact .inr ⟨r.2.2, ofDeq_of_ne_finished hne, (hnext r hr hne hf).mpr hnone⟩
      · rintro n last g q rfl
        simp only [deqStep] at hr
        split at hr
        next b hvalue => exact ⟨b, hvalue⟩
        next =>
          cases hr
          exact absurd rfl (hafter.2 j)

/-- Thread 1 has moved both elements out of the block when thread 2 marks no slots and returns. -/
theorem dequeueBulk_zero_quiet_meanwhile : ∃ (c : Quartet) (s : State (Fin 4) ℕ),
    c.locals 1 = .dequeuing 0 (.setManyEmpty 0 2 2 0 0 0) ∧
      exec cramped 2 (.step .run) c.shared (c.locals 2) = some (s, .idle) ∧ Quiet c.shared s := by
  obtain ⟨c, hrun, hmarking, hl, s, hx, hg⟩ : ∃ c,
      (exec cramped).runWhen (Guarded cramped) (overtaken 11 13 0) newcomers = some c ∧
      c.locals 1 = .dequeuing 0 (.setManyEmpty 0 2 2 0 0 0) ∧
      c.locals 2 = .dequeuing 0 (.setManyEmpty 0 0 0 0 0 0) ∧
      ∃ s, exec cramped 2 (.step .run) c.shared (c.locals 2) = some (s, .idle) ∧
        Guarded cramped c 2 (.step .run) := ⟨_, rfl, rfl, rfl, _, rfl, by decide⟩
  have hstart : (exec cramped).ReachableWhen (Guarded cramped) (Init cramped) newcomers :=
    .start newcomers_init
  exact ⟨c, s, hmarking, hx,
    (dequeueBulk_zero_quiet (hstart.run _ hrun) hl (Option.some_ne_none 0) hg hx).1⟩

/-- Thread 1 has taken both elements and given the block back. Thread 2 is about to read the block
through an entry that is null; if it had read it before, it clears the entry once more and the
block is on the free list twice. -/
theorem dequeueBulk_zero_overtaken :
    (∃ c : Quartet, (exec cramped).run (overtaken 10 16 0) newcomers = some c ∧
      c.locals 2 = .dequeuing 0 (.loadValue 0 0 0 0) ∧ ((c.shared.producers 0).index.entries
        (((c.shared.producers 0).index.headers 0).index 0)).value = some none) ∧
    (∃ c : Quartet, (exec cramped).run (overtaken 11 16 1) newcomers = some c ∧
      c.locals 2 = .dequeuing 0 (.clearValue 0 0 0 0 0) ∧ c.shared.mem.freeList = [0]) ∧
    ∃ c : Quartet, (exec cramped).run (overtaken 11 16 3) newcomers = some c ∧
      c.locals 2 = .idle ∧ c.shared.mem.freeList = [0, 0] :=
  ⟨⟨_, rfl, rfl, rfl⟩, ⟨_, rfl, rfl, rfl⟩, _, rfl, rfl, rfl⟩

end ConcurrentQueue.ImplicitRace
