import ConcurrentQueue.Fifo
import ConcurrentQueue.ExplicitBulk
import ConcurrentQueue.ExplicitDestroy
import ConcurrentQueue.Oversize

/-!
# ConcurrentQueue.ExplicitSound

**An explicit producer is a queue**: along every run of calls its state stands for
the list `Trace.content`. A bulk call that fails keeps this up only when it fails
cleanly, and a call that throws only when it has taken no block (`Clean`); what
goes wrong otherwise is shown at the end of the sections.
-/

namespace ConcurrentQueue.Explicit

open Wrap

variable {α : Type}

/-- The state a producer is created in. -/
def Fresh (e : Env) (st : State e.bits α) : Prop :=
  ∃ mem : Mem α, mem.WellFormed e ∧ create e mem = some st

/-- A bulk call that fails does so cleanly, and a call that throws has taken no block. -/
def Clean (e : Env) (st : State e.bits α) (c : Call e.bits α) (o : Outcome α) : Prop :=
  match c with
  | .enqueue .. => o = .pushed .threw → st.prod.tailIndex &&& e.blockMask ≠ 0
  | .enqueueBulk mode _ xs =>
      Fits e st.prod.tailIndex xs.length ∧
        (o = .pushed (.returned false) → FailsClean e mode xs.length st) ∧
        (o = .pushed .threw → blocksNeeded e st xs.length = 0)
  | .dequeue _ | .dequeueBulk .. => True

variable {e : Env} {st : State e.bits α} {v : View} {l : List α}

/-! ### One call -/

/-- Where a block takes half the index range there never is one, and the loop of an
empty bulk call takes the whole block for its own. -/
theorem Inv.enqueueBulk_nil_eq_none (h : Inv e st v l) (hB : ¬ e.BLOCK_SIZE < 2 ^ (e.bits - 1))
    (mode : AllocationMode) (ctor : Ctor) : Explicit.enqueueBulk e mode ctor [] st = none := by
  have hal : v.tail = v.t * e.BLOCK_SIZE := by
    have hst : v.s = v.t := by
      have := h.s_le_t
      have hnone : ¬ v.s < v.t := fun hlt => hB (h.small hlt)
      omega
    have hlen := h.len
    have hold := h.oldest
    have hnew := h.newest.1
    rw [hst] at hold
    omega
  have hzero : st.prod.tailIndex + 0#e.bits = st.prod.tailIndex := BitVec.add_zero _
  have hstop := stopIndex_corner hB v.t
  rw [← hal, ← h.tailIndex] at hstop
  simp only [Explicit.enqueueBulk, constructAll, List.length_nil, hzero, BitVec.sub_self, if_true,
    ne_eq, not_true_eq_false, and_false, if_false, Option.bind_eq_bind]
  rw [fillBlocks_nil_eq_none (by rw [hstop]; exact e.BLOCK_SIZE_pos)]
  rfl

/-- A count that does not fit is not enqueued. -/
theorem Inv.enqueueBulk_of_not_fits (h : Inv e st v l) (mode : AllocationMode) {ctor : Ctor}
    {xs : List α} (hquiet : ∀ j < xs.length, ctor.throws j = false) (hlen : xs.length < 2 ^ e.bits)
    (hfits : ¬ Fits e st.prod.tailIndex xs.length) :
      Explicit.enqueueBulk e mode ctor xs st = none := by
  rw [Fits, not_lt, h.tailIndex] at hfits
  have hdiff := oversize_blockBaseDiff h.pos hlen hfits
  have hlt := oversize_lt h.pos hlen hfits
  rw [← h.tailIndex] at hdiff
  simp only [Explicit.enqueueBulk, hdiff, if_true, constructAll, Option.bind_eq_bind]
  by_cases hal : st.prod.tailIndex &&& e.blockMask = 0
  · exact if_pos ⟨hal, trivial, by omega⟩
  · have hstop := oversize_stop h.pos hlen hfits (by rwa [← h.tailIndex])
    rw [← h.tailIndex] at hstop
    rw [if_neg fun hc => hal hc.1, fillBlocks_eq_none hquiet (by rwa [hstop])]
    rfl

theorem Inv.step (h : Inv e st v l) {c : Call e.bits α} {o : Outcome α} {st' : State e.bits α}
    (hstep : step e c st = some (st', o)) (hok : Clean e st c o) :
    c.Delivers l o ∧ ∃ v', Inv e st' v' (c.after o l) := by
  cases c with
  | enqueue mode ctor x =>
      obtain ⟨st₁, r, hr, htrue, hfalse, hthrew⟩ := h.enqueue mode ctor x
      rw [Explicit.step, hr, Option.map_some] at hstep
      cases hstep
      refine ⟨⟨r, rfl⟩, ?_⟩
      cases r with
      | threw =>
          rw [(hthrew rfl).2 (hok rfl)]
          exact ⟨v, h⟩
      | returned ok =>
          cases ok with
          | false => exact (hfalse rfl).1
          | true =>
              obtain ⟨v', hinv, -⟩ := htrue rfl
              exact ⟨v', hinv⟩
  | enqueueBulk mode ctor xs =>
      obtain ⟨hfits, hfail, htaken⟩ := hok
      by_cases hcorner : xs = [] → e.BLOCK_SIZE < 2 ^ (e.bits - 1)
      · obtain ⟨st₁, r, hr, htrue, hfalse, hthrew⟩ := h.enqueueBulk mode ctor xs hfits hcorner
        rw [Explicit.step, hr, Option.map_some] at hstep
        cases hstep
        refine ⟨⟨r, rfl⟩, ?_⟩
        cases r with
        | threw =>
            rw [(hthrew rfl).2 (htaken rfl)]
            exact ⟨v, h⟩
        | returned ok =>
            cases ok with
            | false => exact (hfalse rfl).1 (hfail rfl)
            | true =>
                obtain ⟨v', hinv, -⟩ := htrue rfl
                exact ⟨v', hinv⟩
      · obtain ⟨rfl, hB⟩ := Classical.not_imp.mp hcorner
        rw [Explicit.step, h.enqueueBulk_nil_eq_none hB] at hstep
        cases hstep
  | dequeue throws =>
      obtain ⟨st₁, v', hr, hinv, -⟩ := h.dequeue
      rw [Explicit.step, hr, Option.map_some] at hstep
      cases hstep
      exact ⟨rfl, v', hinv⟩
  | dequeueBulk max throwsAt =>
      obtain ⟨st₁, v', hr, hinv, -⟩ := h.dequeueBulk max
      rw [Explicit.step, hr, Option.map_some] at hstep
      cases hstep
      exact ⟨rfl, v', hinv⟩

theorem Inv.returns (h : Inv e st v l) (c : Call e.bits α) (hc : Sized e st.prod.tailIndex c) :
    ∃ st' o, Explicit.step e c st = some (st', o) ∧ c.Delivers l o := by
  cases c with
  | enqueue mode ctor x =>
      obtain ⟨st', r, hr, -⟩ := h.enqueue mode ctor x
      exact ⟨st', .pushed r, by rw [Explicit.step, hr, Option.map_some], r, rfl⟩
  | enqueueBulk mode ctor xs =>
      obtain ⟨st', r, hr, -⟩ := h.enqueueBulk mode ctor xs hc.1 hc.2
      exact ⟨st', .pushed r, by rw [Explicit.step, hr, Option.map_some], r, rfl⟩
  | dequeue throws =>
      obtain ⟨st', -, hr, -⟩ := h.dequeue
      exact ⟨st', _, by rw [Explicit.step, hr, Option.map_some]; rfl, rfl⟩
  | dequeueBulk max throwsAt =>
      obtain ⟨st', -, hr, -⟩ := h.dequeueBulk max
      exact ⟨st', _, by rw [Explicit.step, hr, Option.map_some]; rfl, rfl⟩

/-- Each live index is looked up to the block that holds its element. -/
theorem Inv.lookup_live (h : Inv e st v l) {n : Nat} (hn : n < l.length) :
    ∃ b, Explicit.lookup e st.prod (st.prod.headIndex + BitVec.ofNat e.bits n) = some b ∧
      (st.mem.blocks b).elements (e.offset (st.prod.headIndex + BitVec.ofNat e.bits n)) =
        l[n]? := by
  have hlen := h.len
  obtain ⟨hs, ht⟩ := h.block_of_live (Nat.le_add_right v.head n) (by omega)
  rw [h.headIndex, BitVec.ofNat_add_ofNat]
  refine ⟨_, h.lookup hs ht, ?_⟩
  rw [Traits.offset_ofNat, h.ring.slot _ _ hs ht (Nat.mod_lt _ e.BLOCK_SIZE_pos), block_add,
    slotAt, if_pos (Nat.le_add_right ..), Nat.add_sub_cancel_left]

/-! ### Runs -/

/-- The list after the constructor and after each clean call. -/
theorem inv_of_run {ok : List α → State e.bits α → Call e.bits α → Outcome α → Prop}
    {tr : Trace e.bits α} (hclean : ∀ st v l c st' o, Inv e st v l → step e c st = some (st', o) →
      ok l st c o → Clean e st c o)
    (h : Run (step e) (Fresh e) ok st tr) :
    (∃ v, Inv e st v tr.content) ∧
      Run (step e) (Fresh e) (fun l _ c o => c.Delivers l o) st tr := by
  have hstart : ∀ st : State e.bits α, Fresh e st → ∃ v, Inv e st v [] := by
    rintro st ⟨mem, hmem, hst⟩
    obtain ⟨st₀, v, hcreate, hinv⟩ := create_inv hmem
    obtain rfl := Option.some.inj (hst.symm.trans hcreate)
    exact ⟨v, hinv⟩
  have hcall : ∀ st st' l c o, (∃ v, Inv e st v l) → step e c st = some (st', o) → ok l st c o →
      ∃ v, Inv e st' v (c.after o l) := fun _ _ _ _ _ ⟨_, hinv⟩ hstep hok =>
    (hinv.step hstep (hclean _ _ _ _ _ _ hinv hstep hok)).2
  exact ⟨h.invariant (P := fun st l => ∃ v, Inv e st v l) hstart hcall,
    h.imp hstart hcall fun _ _ _ _ _ ⟨_, hinv⟩ hstep hok =>
      (hinv.step hstep (hclean _ _ _ _ _ _ hinv hstep hok)).1⟩

/-- An enqueue that succeeds is clean. -/
theorem Inv.clean (h : Inv e st v l) {c : Call e.bits α} {st' : State e.bits α} {o : Outcome α}
    (hstep : Explicit.step e c st = some (st', o)) (hok : c.Accepted o) : Clean e st c o := by
  obtain ⟨htrue, hctor, hlen⟩ := hok
  cases c with
  | enqueue mode ctor x =>
      obtain rfl := htrue rfl
      exact nofun
  | enqueueBulk mode ctor xs =>
      obtain rfl := htrue rfl
      refine ⟨by_contra fun hfits => ?_, nofun, nofun⟩
      have hnone : Explicit.enqueueBulk e mode ctor xs st = none :=
        h.enqueueBulk_of_not_fits mode hctor hlen hfits
      rw [Explicit.step, hnone] at hstep
      cases hstep
  | dequeue throws => trivial
  | dequeueBulk max throwsAt => trivial

/-- Enqueues succeed, nothing throws, and less than half the index range is held. -/
def Plain (e : Env) (l : List α) (c : Call e.bits α) (o : Outcome α) : Prop :=
  c.Quiet ∧ (c.isEnqueue = true → o = .pushed (.returned true)) ∧
    (c.after o l).length < 2 ^ (e.bits - 1)

theorem Plain.clean {c : Call e.bits α} {o : Outcome α} (h : Plain e l c o) : Clean e st c o := by
  obtain ⟨-, htrue, hlen⟩ := h
  cases c with
  | enqueue mode ctor x =>
      obtain rfl := htrue rfl
      exact nofun
  | enqueueBulk mode ctor xs =>
      obtain rfl := htrue rfl
      refine ⟨?_, nofun, nofun⟩
      have hoff := e.offset_lt (st.prod.tailIndex - 1#e.bits)
      have hB := e.BLOCK_SIZE_le
      have hhalf := e.two_pow_bits
      have hsum : (l ++ xs).length < 2 ^ (e.bits - 1) := hlen
      rw [List.length_append] at hsum
      unfold Fits
      omega
  | dequeue throws => trivial
  | dequeueBulk max throwsAt => trivial

/-- **A producer is a first-in first-out queue** as long as its enqueues succeed. -/
theorem run_fifo {tr : Trace e.bits α}
    (h : Run (step e) (Fresh e) (fun l _ => Plain e l) st tr) :
    tr.sent = tr.got ++ tr.content ∧
    st.prod.tailIndex - st.prod.headIndex = BitVec.ofNat e.bits tr.content.length ∧
    (∃ st' n, dequeue e false st = some (st', .returned n (tr.content.take n)) ∧ n ≤ 1 ∧
      (n = 0 ↔ tr.content = [])) ∧
    ∀ max, ∃ st', dequeueBulk e max none st = some (st',
      .returned (min max.toNat tr.content.length) (tr.content.take max.toNat)) := by
  obtain ⟨⟨v, hinv⟩, hrun⟩ := inv_of_run (fun _ _ _ _ _ _ _ _ hok => hok.clean) h
  have hlt : tr.content.length < 2 ^ (e.bits - 1) := by
    cases h with
    | start _ => exact Nat.two_pow_pos _
    | call _ _ hok =>
        rw [Trace.content_append]
        exact hok.2.2
  have hquiet : ∀ ev ∈ tr, ev.1.throwsAt = none :=
    h.forall_mem (P := fun c _ => c.throwsAt = none) fun _ _ _ _ hok => hok.1.2
  refine ⟨hrun.sent_eq (fun _ _ _ _ hok => hok) hquiet, ?_, ?_, fun max => ?_⟩
  · rw [hinv.tailIndex, hinv.headIndex, ← hinv.len, ofNat_sub (Nat.le_add_right ..),
      Nat.add_sub_cancel_left]
  · obtain ⟨st', -, hdeq, -⟩ := hinv.dequeue
    specialize hdeq false
    rw [takes_of_lt hlt, Popped.ofList_quiet fun _ _ => by simp] at hdeq
    refine ⟨st', _, hdeq, Nat.min_le_left .., ?_⟩
    rw [← List.length_eq_zero_iff]
    omega
  · obtain ⟨st', -, hdeq, -⟩ := hinv.dequeueBulk max
    specialize hdeq none
    rw [takes_of_lt hlt, Popped.ofList_quiet fun _ _ => by simp, List.take_eq_take_min.symm] at hdeq
    exact ⟨st', hdeq⟩

/-- Eight-bit indices, two elements to a block and two slots on the first index;
the calls of `malloc` numbered in `fails` fail. -/
def tiny (fails : List Nat) : Env where
  bits := 8
  blockLog := 1
  explicitIndexLog := 1
  implicitIndexLog := 1
  EXPLICIT_BLOCK_EMPTY_COUNTER_THRESHOLD := 32
  maxSubqueueSize := BitVec.allOnes 8
  RECYCLE_ALLOCATED_BLOCKS := false
  blockLog_pos := by decide
  blockLog_lt := by decide
  explicitIndexLog_pos := by decide
  explicitIndexLog_lt := by decide
  implicitIndexLog_pos := by decide
  implicitIndexLog_lt := by decide
  initialBlockPoolSize := 0
  mallocOk := fun n => !fails.contains n
  poolSize_lt := by decide

/-- Memory that has not been used yet. -/
def unused : Mem Nat := ⟨fun _ => ⟨fun _ => none, none, 0, fun _ => false, false⟩, 0, [], 0, 0, []⟩

theorem unused_wellFormed (e : Env) : unused.WellFormed e :=
  ⟨List.nodup_nil, nofun, fun _ _ _ => rfl⟩

/-- Constructors that do not throw. -/
def safe : Ctor := ⟨true, none⟩

instance (e : Env) (l : List Nat) (c : Call e.bits Nat) (o : Outcome Nat) :
    Decidable (Plain e l c o) := inferInstanceAs (Decidable (_ ∧ _))

section Examples

variable {β : Type} (e : Env)
  (ok : List Nat → State e.bits Nat → Call e.bits Nat → Outcome Nat → Prop)
  [∀ l st c o, Decidable (ok l st c o)] (calls : List (Call e.bits Nat))
  (f : State e.bits Nat × Trace e.bits Nat → β) {y : β}

/-- Calls of some kind on a new producer, and what can be observed afterwards. -/
theorem exists_run_of (call : Call e.bits Nat → State e.bits Nat →
      Option (State e.bits Nat × Outcome Nat))
    (h : ((create e unused).bind fun st => exec call ok calls st []).map f = some y) :
    ∃ st tr, Run call (Fresh e) ok st tr ∧ f (st, tr) = y := by
  obtain ⟨⟨st, tr⟩, hexec, hy⟩ := Option.map_eq_some_iff.mp h
  obtain ⟨st₀, hcreate, hexec⟩ := Option.bind_eq_some_iff.mp hexec
  exact ⟨st, tr, .exec (.start ⟨unused, unused_wellFormed e, hcreate⟩) hexec, hy⟩

theorem exists_run
    (h : ((create e unused).bind fun st => exec (step e) ok calls st []).map f = some y) :
    ∃ st tr, Run (step e) (Fresh e) ok st tr ∧ f (st, tr) = y :=
  exists_run_of e ok calls f (step e) h

end Examples

theorem run_fifo_tiny : ∃ (st : State (tiny []).bits Nat) (tr : Trace (tiny []).bits Nat),
    Run (step (tiny [])) (Fresh (tiny [])) (fun l _ => Plain (tiny []) l) st tr ∧
      tr.got = [1, 2, 3, 4] ∧ tr.sent = tr.got ++ tr.content := by
  obtain ⟨st, tr, hrun, hgot⟩ := exists_run (tiny []) (fun l _ => Plain (tiny []) l)
    [.enqueueBulk .canAlloc safe [1, 2, 3, 4, 5], .dequeue false, .enqueue .canAlloc safe 6,
      .dequeueBulk 3#8 none] (fun r => r.2.got) (y := [1, 2, 3, 4]) (by decide +kernel)
  exact ⟨st, tr, hrun, hgot, (run_fifo hrun).1⟩

/-! ### Bulk calls that fail -/

/-- **A bulk call that fails cleanly has no observable effect**: in every state that
clean calls lead to, the producer goes on as the list of what was enqueued and not
dequeued yet. -/
theorem run_after_failed_bulk {tr : Trace e.bits α}
    (h : Run (step e) (Fresh e) (fun _ => Clean e) st tr) :
    Run (step e) (Fresh e) (fun l _ c o => c.Delivers l o) st tr ∧
    ((∀ ev ∈ tr, ev.1.throwsAt = none) → tr.sent = tr.got ++ tr.content) ∧
    (∀ c, Sized e st.prod.tailIndex c → ∃ st' o, step e c st = some (st', o) ∧
      c.Delivers tr.content o) ∧
    (∃ mem', destroy e st = some (tr.content, mem')) ∧
    ∀ n < tr.content.length, ∃ b,
      lookup e st.prod (st.prod.headIndex + BitVec.ofNat e.bits n) = some b ∧
      (st.mem.blocks b).elements (e.offset (st.prod.headIndex + BitVec.ofNat e.bits n)) =
        tr.content[n]? := by
  obtain ⟨⟨v, hinv⟩, hrun⟩ := inv_of_run (fun _ _ _ _ _ _ _ _ hok => hok) h
  exact ⟨hrun, hrun.sent_eq fun _ _ _ _ hok => hok, hinv.returns, hinv.destroy,
    fun n hn => hinv.lookup_live hn⟩

instance (e : Env) (st : State e.bits Nat) (c : Call e.bits Nat) (o : Outcome Nat) :
    Decidable (Clean e st c o) :=
  match c with
  | .enqueue .. => inferInstanceAs (Decidable (_ → _))
  | .enqueueBulk mode _ xs => inferInstanceAs (Decidable (_ < _ ∧
      (o = .pushed (.returned false) → FailsClean e mode xs.length st) ∧
        (o = .pushed .threw → blocksNeeded e st xs.length = 0)))
  | .dequeue _ | .dequeueBulk .. => inferInstanceAs (Decidable True)

/-- The second bulk call fails after it has reused a block, as it may not allocate
another one. What remains can still be dequeued and is destroyed. -/
theorem run_after_failed_bulk_tiny :
    ∃ (st : State (tiny []).bits Nat) (tr : Trace (tiny []).bits Nat),
      Run (step (tiny [])) (Fresh (tiny [])) (fun _ => Clean (tiny [])) st tr ∧
      tr.map (·.2) = [.pushed (.returned true), .popped (.returned 2 [1, 2]),
        .pushed (.returned false), .popped (.returned 1 [3])] ∧
      ∃ mem', destroy (tiny []) st = some (tr.content, mem') := by
  obtain ⟨st, tr, hrun, hout⟩ := exists_run (tiny []) (fun _ => Clean (tiny []))
    [.enqueueBulk .canAlloc safe [1, 2, 3, 4, 5, 6], .dequeueBulk 2#8 none,
      .enqueueBulk .cannotAlloc safe [7, 8, 9, 10], .dequeue false] (fun r => r.2.map (·.2))
    (y := [.pushed (.returned true), .popped (.returned 2 [1, 2]),
        .pushed (.returned false), .popped (.returned 1 [3])]) (by decide +kernel)
  exact ⟨st, tr, hrun, hout, (run_after_failed_bulk hrun).2.2.2.1⟩

/-- A bulk call that fails at its second insertion has overwritten the index: the
value 9 is delivered in place of 3. -/
theorem failed_bulk_observable :
    ∃ (st : State (tiny [4]).bits Nat) (tr : Trace (tiny [4]).bits Nat),
      Run (step (tiny [4])) (Fresh (tiny [4])) (fun _ _ c _ => c.Quiet) st tr ∧
      tr.map (·.2) = [.pushed (.returned true), .popped (.returned 2 [1, 2]),
        .pushed (.returned false), .pushed (.returned true), .popped (.returned 1 [9])] ∧
      tr.sent = [1, 2, 3, 4, 9] ∧ tr.got = [1, 2, 9] := by
  obtain ⟨st, tr, hrun, hout⟩ := exists_run (tiny [4]) (fun _ _ c _ => c.Quiet)
    [.enqueueBulk .canAlloc safe [1, 2, 3, 4], .dequeueBulk 2#8 none,
      .enqueueBulk .canAlloc safe [5, 6, 7, 8], .enqueue .canAlloc safe 9, .dequeue false]
    (fun r => (r.2.map (·.2), r.2.sent, r.2.got))
    (y := ([.pushed (.returned true), .popped (.returned 2 [1, 2]),
        .pushed (.returned false), .pushed (.returned true), .popped (.returned 1 [9])],
      [1, 2, 3, 4, 9], [1, 2, 9])) (by decide +kernel)
  exact ⟨st, tr, hrun, by simpa only [Prod.mk.injEq] using hout⟩

/-! ### Constructors that throw -/

/-- A call that throws before it has taken a block leaves the state as it was. -/
theorem Inv.step_threw (h : Inv e st v l) {c : Call e.bits α} {st' : State e.bits α}
    (hstep : Explicit.step e c st = some (st', .pushed .threw))
    (hok : Clean e st c (.pushed .threw)) : st' = st := by
  cases c with
  | enqueue mode ctor x =>
      obtain ⟨st₁, r, hr, -, -, hthrew⟩ := h.enqueue mode ctor x
      rw [Explicit.step, hr, Option.map_some] at hstep
      obtain ⟨rfl, hr⟩ := Prod.mk.inj (Option.some.inj hstep)
      exact (hthrew (Outcome.pushed.inj hr)).2 (hok rfl)
  | enqueueBulk mode ctor xs =>
      by_cases hcorner : xs = [] → e.BLOCK_SIZE < 2 ^ (e.bits - 1)
      · obtain ⟨st₁, r, hr, -, -, hthrew⟩ := h.enqueueBulk mode ctor xs hok.1 hcorner
        rw [Explicit.step, hr, Option.map_some] at hstep
        obtain ⟨rfl, hr⟩ := Prod.mk.inj (Option.some.inj hstep)
        exact (hthrew (Outcome.pushed.inj hr)).2 (hok.2.2 rfl)
      · obtain ⟨rfl, hB⟩ := Classical.not_imp.mp hcorner
        rw [Explicit.step, h.enqueueBulk_nil_eq_none hB] at hstep
        cases hstep
  | dequeue throws =>
      obtain ⟨st₁, v', hr, -⟩ := h.dequeue
      rw [Explicit.step, hr, Option.map_some] at hstep
      cases (Prod.mk.inj (Option.some.inj hstep)).2
  | dequeueBulk max throwsAt =>
      obtain ⟨st₁, v', hr, -⟩ := h.dequeueBulk max
      rw [Explicit.step, hr, Option.map_some] at hstep
      cases (Prod.mk.inj (Option.some.inj hstep)).2

/-- **A call that throws before it has taken a block is rolled back completely**: in
every state that clean calls lead to, such a call changes nothing, the producer
goes on as the list of what was enqueued, and the destructor destroys that list. -/
theorem run_after_throw {tr : Trace e.bits α}
    (h : Run (step e) (Fresh e) (fun _ => Clean e) st tr) :
    (∀ c st', step e c st = some (st', .pushed .threw) → Clean e st c (.pushed .threw) →
      st' = st) ∧
    Run (step e) (Fresh e) (fun l _ c o => c.Delivers l o) st tr ∧
    (∀ c, Sized e st.prod.tailIndex c → ∃ st' o, step e c st = some (st', o) ∧
      c.Delivers tr.content o) ∧
    ∃ mem', destroy e st = some (tr.content, mem') := by
  obtain ⟨⟨v, hinv⟩, hrun⟩ := inv_of_run (fun _ _ _ _ _ _ _ _ hok => hok) h
  exact ⟨fun c st' hstep hok => hinv.step_threw hstep hok, hrun, hinv.returns, hinv.destroy⟩

/-- The constructor of an element throws in the tail block, which has room for it. -/
theorem run_after_throw_tiny :
    ∃ (st : State (tiny []).bits Nat) (tr : Trace (tiny []).bits Nat),
      Run (step (tiny [])) (Fresh (tiny [])) (fun _ => Clean (tiny [])) st tr ∧
      tr.map (·.2) = [.pushed (.returned true), .pushed .threw, .popped (.returned 1 [1])] ∧
      ∃ mem', destroy (tiny []) st = some (tr.content, mem') := by
  obtain ⟨st, tr, hrun, hout⟩ := exists_run (tiny []) (fun _ => Clean (tiny []))
    [.enqueueBulk .canAlloc safe [1, 2, 3], .enqueue .canAlloc ⟨false, some 0⟩ 4, .dequeue false]
    (fun r => r.2.map (·.2)) (y := [.pushed (.returned true), .pushed .threw,
      .popped (.returned 1 [1])]) (by decide +kernel)
  exact ⟨st, tr, hrun, hout, (run_after_throw hrun).2.2.2⟩

/-- The first enqueue of all throws: the block it took is not empty afterwards, and
the destructor destroys what was never constructed. -/
theorem throw_leaves_block :
    ∃ (st : State (tiny []).bits Nat) (tr : Trace (tiny []).bits Nat),
      Run (step (tiny [])) (Fresh (tiny [])) (fun _ _ _ _ => True) st tr ∧
      tr.map (·.2) = [.pushed .threw] ∧
      (st.prod.tailBlock.bind fun b =>
        (st.mem.blocks b).isEmpty (tiny []).toTraits .explicitContext) = some false ∧
      (destroy (tiny []) st).isNone = true := by
  obtain ⟨st, tr, hrun, hout⟩ := exists_run (tiny []) (fun _ _ _ _ => True)
    [.enqueue .canAlloc ⟨false, some 0⟩ 1] (fun r => (r.2.map (·.2), r.1.prod.tailBlock.bind
      fun b => (r.1.mem.blocks b).isEmpty (tiny []).toTraits .explicitContext,
      (destroy (tiny []) r.1).isNone)) (y := ([.pushed .threw], some false, true))
    (by decide +kernel)
  exact ⟨st, tr, hrun, by simpa only [Prod.mk.injEq] using hout⟩

/-! ### The size of the index -/

/-- **`ceil_to_pow_2` rounds up to a power of two**, at every width; so an explicit
producer's index has a power of two for its size, and no less than the trait says. -/
theorem ceilToPow2_rounds_up (k : Nat) (x : BitVec (8 * 2 ^ k)) (e : Env) (mem : Mem α) :
    (1 ≤ x.toNat → x.toNat ≤ 2 ^ (8 * 2 ^ k - 1) →
      IsLeast {n | (∃ j, n = 2 ^ j) ∧ x.toNat ≤ n} (ceilToPow2 x).toNat) ∧
    (x = 0 ∨ 2 ^ (8 * 2 ^ k - 1) < x.toNat → ceilToPow2 x = 0) ∧
    ∃ st j, create e mem = some st ∧ j < e.bits ∧ e.EXPLICIT_INITIAL_INDEX_SIZE ≤ 2 ^ j ∧
      if e.mallocOk mem.mallocs then ∃ h, st.prod.blockIndex = some h ∧
        h.size.toNat = 2 ^ j ∧ st.prod.prBlockIndexSize.toNat = 2 ^ j
      else st.prod.blockIndex = none ∧ (st.prod.prBlockIndexSize <<< 1).toNat = 2 ^ j :=
  ⟨isLeast_ceilToPow2, ceilToPow2_eq_zero, create_size mem⟩

theorem ceilToPow2_rounds_up_tiny :
    IsLeast {n | (∃ j, n = 2 ^ j) ∧ 5 ≤ n} (ceilToPow2 5#8).toNat ∧ ceilToPow2 129#8 = 0 ∧
      ∃ st h, create (tiny []) unused = some st ∧ st.prod.blockIndex = some h := by
  obtain ⟨hleast, -, st, j, hcreate, -, -, hindex⟩ :=
    ceilToPow2_rounds_up 0 5#8 (tiny []) unused
  rw [if_pos (by decide)] at hindex
  obtain ⟨h, hh, -⟩ := hindex
  refine ⟨hleast (by decide) (by decide), ?_, st, h, hcreate, hh⟩
  exact (ceilToPow2_rounds_up 0 129#8 (tiny []) unused).2.1 (.inr (by decide))

end ConcurrentQueue.Explicit
