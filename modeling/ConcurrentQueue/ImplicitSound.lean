import ConcurrentQueue.ExplicitSound
import ConcurrentQueue.ImplicitDestroy

/-!
# ConcurrentQueue.ImplicitSound

**An implicit producer is a queue, failures included.** `Inv.call` has what one call
does: it returns, its outcome is the one the list allows, and the state afterwards
stands for the list afterwards. A call that fails or throws leaves every block and
every element where it was (`Inv.unchanged`); only the index may have grown. Runs
follow by induction.
-/

namespace ConcurrentQueue.Implicit

open Wrap
open Explicit (tiny unused safe)

variable {α : Type} {e : Env} {st st' : State e.bits α} {v v' : View} {l : List α}

/-! ### Calls that fail -/

theorem Inv.t_eq (h : Inv e st v l) : v.t = (v.tail - 1) / e.BLOCK_SIZE + 1 := by
  have hpos := h.stock.pos
  have hdiv := h.base_before.2.1
  omega

/-- Nothing is constructed in a block that is not in use. -/
theorem elements_of_not_inUse {m : Mem α} (h : m.Accounted e) {b : Nat} (hb : b ∉ m.InUse e)
    (i : Nat) : (m.blocks b).elements i = none := by
  by_cases hfree : m.Free e b
  · exact h.wellFormed.vacant b hfree i
  · exact h.empty b (by_contra fun hgone => hb ⟨hfree, hgone⟩) i

/-- After a call that has added nothing, every block and every element is where it was. -/
theorem Inv.unchanged (h : Inv e st v l) (h' : Inv e st' v' l) (hg : Grows st v st' v') :
    st'.mem.InUse e = st.mem.InUse e ∧
      ∀ b i, (st'.mem.blocks b).elements i = (st.mem.blocks b).elements i := by
  have htail : v'.tail = v.tail := by rw [← h.len, ← h'.len, hg.head_eq]
  have ht : v'.t = v.t := by rw [h.t_eq, h'.t_eq, htail]
  have hwindow : window v'.β v'.s v'.t = window v.β v.s v.t := by
    rw [hg.s_eq, ht]
    exact window_congr fun q _ hq => hg.old q hq
  have htraffic := hg.traffic
  rw [hwindow] at htraffic
  have hsame : st'.mem.InUse e = st.mem.InUse e := by
    ext b
    rw [htraffic.moves.owned_iff b]
    refine ⟨fun hb => hb.elim (·.1) (h.stock.has.inUse ·), fun hb => ?_⟩
    by_cases hbA : b ∈ window v.β v.s v.t
    · exact .inr hbA
    · exact .inl ⟨hb, hbA⟩
  refine ⟨hsame, fun b i => ?_⟩
  by_cases hb : b ∈ st.mem.InUse e
  · by_cases hbA : b ∈ window v.β v.s v.t
    · obtain ⟨q, hs, hqt, rfl⟩ := hbA
      rcases Nat.lt_or_ge i e.BLOCK_SIZE with hi | hi
      · have hold := h'.stock.held.slot q i (by rw [hg.s_eq]; exact hs) (by omega) hi
        rw [hg.old q hqt, hg.head_eq] at hold
        rw [hold, h.stock.held.slot q i hs hqt hi]
      · rw [h'.stock.has.accounted.bounded _ _ hi, h.stock.has.accounted.bounded _ _ hi]
    · rw [htraffic.moves.kept b hb hbA]
  · rw [elements_of_not_inUse h.stock.has.accounted hb,
      elements_of_not_inUse h'.stock.has.accounted (by rwa [hsame])]

/-! ### One call -/

theorem Inv.fits (h : Inv e st v l) {n : Nat} (hn : Fits e st.prod.tailIndex n) :
    (v.tail - 1) % e.BLOCK_SIZE + n < 2 ^ e.bits := by
  rw [Fits, h.tailIndex, ofNat_sub h.base_before.1, Traits.offset_ofNat] at hn
  exact hn

/-- A count that does not fit is not enqueued. -/
theorem Inv.enqueueBulk_of_not_fits (h : Inv e st v l) (mode : AllocationMode) {ctor : Ctor}
    {xs : List α} (hquiet : ∀ j < xs.length, ctor.throws j = false) (hlen : xs.length < 2 ^ e.bits)
    (hfits : ¬ Fits e st.prod.tailIndex xs.length) :
      Implicit.enqueueBulk e mode ctor xs st = none := by
  have hpos := h.base_before.1
  rw [Fits, not_lt, h.tailIndex] at hfits
  have hdiff := oversize_blockBaseDiff hpos hlen hfits
  have hlt := oversize_lt hpos hlen hfits
  rw [← h.tailIndex] at hdiff
  simp only [Implicit.enqueueBulk, hdiff, BitVec.toNat_ofNat, Nat.zero_mod, Nat.zero_div,
    allocateBlocks, Option.bind_eq_bind, Option.bind_some]
  by_cases hal : st.prod.tailIndex &&& e.blockMask = 0
  · refine if_pos ⟨hal, trivial, fun hzero => ?_⟩
    have hval : (BitVec.ofNat e.bits xs.length).toNat = (0#e.bits).toNat :=
      congrArg BitVec.toNat hzero
    rw [BitVec.toNat_ofNat, Nat.mod_eq_of_lt hlen, BitVec.toNat_zero] at hval
    omega
  · have hstop := oversize_stop hpos hlen hfits (by rwa [← h.tailIndex])
    rw [← h.tailIndex] at hstop
    rw [if_neg fun hc => hal hc.1, fillBlocks_eq_none hquiet (by rwa [hstop])]
    rfl

/-- Where a block takes half the index range there never is one, and the loop of an
empty bulk call takes the whole block for its own. -/
theorem Inv.enqueueBulk_nil_eq_none (h : Inv e st v l) (hB : ¬ e.BLOCK_SIZE < 2 ^ (e.bits - 1))
    (mode : AllocationMode) (ctor : Ctor) : Implicit.enqueueBulk e mode ctor [] st = none := by
  have hst : v.s = v.t := by
    have hle := h.stock.le
    have hnone : ¬ v.s < v.t := fun hlt => hB (h.small hlt)
    omega
  have hzero : st.prod.tailIndex + 0#e.bits = st.prod.tailIndex := BitVec.add_zero _
  have hstop := stopIndex_corner hB v.t
  rw [← (h.of_no_block hst).2.1, ← h.tailIndex] at hstop
  simp only [Implicit.enqueueBulk, List.length_nil, hzero, BitVec.sub_self, BitVec.toNat_ofNat,
    Nat.zero_mod, Nat.zero_div, allocateBlocks, Option.bind_eq_bind, Option.bind_some, ne_eq,
    not_true_eq_false, and_false, if_false]
  rw [fillBlocks_nil_eq_none (by rw [hstop]; exact e.BLOCK_SIZE_pos)]
  exact ite_self _

/-- A call that returns is one of a size that fits. -/
theorem Inv.sized (h : Inv e st v l) {c : Call e.bits α} {o : Outcome α}
    (hstep : step e c st = some (st', o)) (hok : c.Accepted o) : Sized e st.prod.tailIndex c := by
  obtain ⟨-, hctor, hlen⟩ := hok
  cases c with
  | enqueueBulk mode ctor xs =>
      refine ⟨by_contra fun hfits => ?_, fun hnil => by_contra fun hB => ?_⟩
      · have hnone : Implicit.enqueueBulk e mode ctor xs st = none :=
          h.enqueueBulk_of_not_fits mode hctor hlen hfits
        rw [step, hnone] at hstep
        cases hstep
      · rw [step, hnil, h.enqueueBulk_nil_eq_none hB] at hstep
        cases hstep
  | enqueue mode ctor x => trivial
  | dequeue throws => trivial
  | dequeueBulk max throwsAt => trivial

/-- **What a call does.** -/
theorem Inv.call (h : Inv e st v l) (c : Call e.bits α) (hc : Sized e st.prod.tailIndex c) :
    ∃ st' v' o, step e c st = some (st', o) ∧ c.Delivers l o ∧ Inv e st' v' (c.after o l) ∧
      Traffic e (window v.β v.s v.t) (window v'.β v'.s v'.t) st.mem st'.mem ∧
      (c.isEnqueue = true → Grows st v st' v') := by
  cases c with
  | enqueue mode ctor x =>
      obtain ⟨st', v', hr, hinv, hgrows, -⟩ := h.enqueue mode ctor x
      refine ⟨st', v', _, by rw [step, hr, Option.map_some], ⟨_, rfl⟩, ?_, hgrows.traffic,
        fun _ => hgrows⟩
      revert hinv
      cases hasRoom e mode st v <;> cases ctor.throws 0 <;> exact id
  | enqueueBulk mode ctor xs =>
      obtain ⟨st', v', r, hr, -, -, hinv, hgrows, -⟩ :=
        h.enqueueBulk mode ctor xs (h.fits hc.1) hc.2
      refine ⟨st', v', .pushed r, by rw [step, hr, Option.map_some], ⟨_, rfl⟩, ?_, hgrows.traffic,
        fun _ => hgrows⟩
      revert hinv
      cases r with
      | threw => exact id
      | returned ok => cases ok <;> exact id
  | dequeue throws =>
      obtain ⟨st', v', hr, hinv, htraffic, -⟩ := h.dequeue
      exact ⟨st', v', _, by rw [step, hr, Option.map_some]; rfl, rfl, hinv, htraffic, nofun⟩
  | dequeueBulk max throwsAt =>
      obtain ⟨st', v', hr, hinv, htraffic, -⟩ := h.dequeueBulk max
      exact ⟨st', v', _, by rw [step, hr, Option.map_some]; rfl, rfl, hinv, htraffic, nofun⟩

/-- Each live index is looked up to the block that holds its element. -/
theorem Inv.lookup_live (h : Inv e st v l) {n : Nat} (hn : n < l.length) :
    ∃ slot b, getBlockIndexEntryForIndex e (st.prod.headIndex + BitVec.ofNat e.bits n) st =
        some slot ∧ loadValue e slot st = some b ∧
      (st.mem.blocks b).elements (e.offset (st.prod.headIndex + BitVec.ofNat e.bits n)) =
        l[n]? := by
  have hlen := h.len
  obtain ⟨slot, hslot, hload⟩ := h.find (Nat.le_add_right v.head n) (by omega) st.mem
  obtain ⟨hs, ht⟩ := h.block_of_live (Nat.le_add_right v.head n) (by omega)
  rw [h.headIndex, BitVec.ofNat_add_ofNat]
  refine ⟨slot, _, hslot, hload, ?_⟩
  rw [Traits.offset_ofNat, h.stock.held.slot _ _ hs ht (Nat.mod_lt _ e.BLOCK_SIZE_pos), block_add,
    slotAt, if_pos (Nat.le_add_right ..), Nat.add_sub_cancel_left]

/-! ### Runs -/

/-- The state a producer is created in. -/
def Fresh (e : Env) (st : State e.bits α) : Prop :=
  ∃ mem : Mem α, mem.Accounted e ∧ create e mem = some st

/-- The list after the constructor and after each call. -/
theorem inv_of_run {ok : List α → State e.bits α → Call e.bits α → Outcome α → Prop}
    {tr : Trace e.bits α} (hsized : ∀ st v l c st' o, Inv e st v l → step e c st = some (st', o) →
      ok l st c o → Sized e st.prod.tailIndex c)
    (h : Run (step e) (Fresh e) ok st tr) :
    (∃ v, Inv e st v tr.content) ∧
      Run (step e) (Fresh e) (fun l _ c o => c.Delivers l o) st tr := by
  have hstart : ∀ st : State e.bits α, Fresh e st → ∃ v, Inv e st v [] := by
    rintro st ⟨mem, hmem, hst⟩
    obtain ⟨st₀, v, hcreate, hinv, -⟩ := create_inv hmem
    obtain rfl := Option.some.inj (hst.symm.trans hcreate)
    exact ⟨v, hinv⟩
  have hstep : ∀ st st' l c o, (∃ v, Inv e st v l) → step e c st = some (st', o) → ok l st c o →
      c.Delivers l o ∧ ∃ v, Inv e st' v (c.after o l) := by
    rintro st st' l c o ⟨v, hinv⟩ hstep hok
    obtain ⟨st₁, v', o', hcall, hdel, hinv', -⟩ := hinv.call c (hsized _ _ _ _ _ _ hinv hstep hok)
    obtain ⟨rfl, rfl⟩ := Prod.mk.inj (Option.some.inj (hstep.symm.trans hcall))
    exact ⟨hdel, v', hinv'⟩
  have hkeep : ∀ st st' l c o, (∃ v, Inv e st v l) → step e c st = some (st', o) → ok l st c o →
      ∃ v, Inv e st' v (c.after o l) := fun st st' l c o hinv hcall hok =>
    (hstep st st' l c o hinv hcall hok).2
  exact ⟨h.invariant (P := fun st l => ∃ v, Inv e st v l) hstart hkeep,
    h.imp hstart hkeep fun st st' l c o hinv hcall hok => (hstep st st' l c o hinv hcall hok).1⟩

/-- Bulk calls of less than half the index range; not of nothing where one block takes
half the index range. -/
def Small (e : Env) (c : Call e.bits α) : Prop :=
  match c with
  | .enqueueBulk _ _ xs =>
      xs.length < 2 ^ (e.bits - 1) ∧ (xs = [] → e.BLOCK_SIZE < 2 ^ (e.bits - 1))
  | .enqueue .. | .dequeue _ | .dequeueBulk .. => True

theorem Small.sized {c : Call e.bits α} (h : Small e c) : Sized e st.prod.tailIndex c := by
  cases c with
  | enqueueBulk mode ctor xs =>
      have hoff := e.offset_lt (st.prod.tailIndex - 1#e.bits)
      have hB := e.BLOCK_SIZE_le
      have hhalf := e.two_pow_bits
      refine ⟨?_, h.2⟩
      have := h.1
      unfold Fits
      omega
  | enqueue mode ctor x => trivial
  | dequeue throws => trivial
  | dequeueBulk max throwsAt => trivial

/-- A call that fails or throws leaves the queue and the memory as they were. -/
theorem Inv.call_failed (h : Inv e st v l) {c : Call e.bits α} (hc : Sized e st.prod.tailIndex c)
    {o : Outcome α} (hstep : step e c st = some (st', o)) (henq : c.isEnqueue = true)
    (hfail : o ≠ .pushed (.returned true)) :
    st'.mem.Accounted e ∧ st'.mem.InUse e = st.mem.InUse e ∧
      (∀ b i, (st'.mem.blocks b).elements i = (st.mem.blocks b).elements i) ∧
      st'.prod.headIndex = st.prod.headIndex ∧ st'.prod.tailIndex = st.prod.tailIndex := by
  obtain ⟨st₁, v', o', hcall, -, hinv, -, hgrows⟩ := h.call c hc
  obtain ⟨rfl, rfl⟩ := Prod.mk.inj (Option.some.inj (hstep.symm.trans hcall))
  rw [Call.after_failed henq hfail] at hinv
  have hhead := (hgrows henq).head_eq
  obtain ⟨huse, helements⟩ := h.unchanged hinv (hgrows henq)
  refine ⟨hinv.stock.has.accounted, huse, helements, ?_, ?_⟩
  · rw [h.headIndex, hinv.headIndex, hhead]
  · rw [h.tailIndex, hinv.tailIndex, ← h.len, ← hinv.len, hhead]

/-- **An implicit producer is a first-in first-out queue**, whichever of its calls fail
or throw. -/
theorem run_queue {tr : Trace e.bits α}
    (h : Run (step e) (Fresh e) (fun _ _ c _ => Small e c) st tr) :
    Run (step e) (Fresh e) (fun l _ c o => c.Delivers l o) st tr ∧
    ((∀ ev ∈ tr, ev.1.throwsAt = none) → tr.sent = tr.got ++ tr.content) ∧
    (∀ c, Small e c → ∃ st' o, step e c st = some (st', o) ∧ c.Delivers tr.content o ∧
      (c.isEnqueue = true → o ≠ .pushed (.returned true) →
        st'.mem.Accounted e ∧ st'.mem.InUse e = st.mem.InUse e ∧
        (∀ b i, (st'.mem.blocks b).elements i = (st.mem.blocks b).elements i) ∧
        st'.prod.headIndex = st.prod.headIndex ∧ st'.prod.tailIndex = st.prod.tailIndex)) ∧
    (∃ st' n, dequeue e false st = some (st', .returned n (tr.content.take n)) ∧ n ≤ 1 ∧
      (n = 0 ↔ tr.content = [])) ∧
    (∀ max, ∃ st', dequeueBulk e max none st = some (st',
      .returned (min max.toNat tr.content.length) (tr.content.take max.toNat))) ∧
    ∀ n < tr.content.length, ∃ slot b,
      getBlockIndexEntryForIndex e (st.prod.headIndex + BitVec.ofNat e.bits n) st = some slot ∧
      loadValue e slot st = some b ∧
      (st.mem.blocks b).elements (e.offset (st.prod.headIndex + BitVec.ofNat e.bits n)) =
        tr.content[n]? := by
  obtain ⟨⟨v, hinv⟩, hrun⟩ := inv_of_run (fun _ _ _ _ _ _ _ _ hok => hok.sized) h
  have hlt := hinv.length_lt
  refine ⟨hrun, hrun.sent_eq fun _ _ _ _ hok => hok, fun c hc => ?_, ?_, fun max => ?_,
    fun n hn => hinv.lookup_live hn⟩
  · obtain ⟨st', v', o, hcall, hdel, -⟩ := hinv.call c hc.sized
    exact ⟨st', o, hcall, hdel, hinv.call_failed hc.sized hcall⟩
  · obtain ⟨st', -, hdeq, -⟩ := hinv.dequeue
    specialize hdeq false
    rw [takes_of_lt hlt, Popped.ofList_quiet fun _ _ => by simp] at hdeq
    refine ⟨st', _, hdeq, Nat.min_le_left .., ?_⟩
    rw [← List.length_eq_zero_iff]
    omega
  · obtain ⟨st', -, hdeq, -⟩ := hinv.dequeueBulk max
    specialize hdeq none
    rw [takes_of_lt hlt, Popped.ofList_quiet fun _ _ => by simp, List.take_eq_take_min.symm] at hdeq
    exact ⟨st', hdeq⟩

theorem unused_accounted (e : Env) : unused.Accounted e where
  wellFormed := Explicit.unused_wellFormed e
  nodup := List.nodup_nil
  gone := nofun
  empty := nofun
  bounded _ _ _ := rfl
  dynamic b hb := by
    have hzero : unused.created = 0 := rfl
    rw [hzero] at hb
    exact (decide_eq_false (by omega)).symm

section Examples

variable {β : Type} (e : Env)
  (ok : List Nat → State e.bits Nat → Call e.bits Nat → Outcome Nat → Prop)
  [∀ l st c o, Decidable (ok l st c o)] (calls : List (Call e.bits Nat))
  (f : State e.bits Nat × Trace e.bits Nat → β) {y : β}

/-- Calls of some kind on a new producer, and what can be observed afterwards. -/
theorem exists_run_of (call : Call e.bits Nat → State e.bits Nat →
      Option (State e.bits Nat × Outcome Nat))
    (h : ((create e unused).bind fun st => exec call ok calls st []).map f = some y) :
    ∃ st tr, Run call (Fresh e) ok st tr ∧ f (st, tr) = y := by
  obtain ⟨⟨st, tr⟩, hexec, hy⟩ := Option.map_eq_some_iff.mp h
  obtain ⟨st₀, hcreate, hexec⟩ := Option.bind_eq_some_iff.mp hexec
  exact ⟨st, tr, .exec (.start ⟨unused, unused_accounted e, hcreate⟩) hexec, hy⟩

theorem exists_run
    (h : ((create e unused).bind fun st => exec (step e) ok calls st []).map f = some y) :
    ∃ st tr, Run (step e) (Fresh e) ok st tr ∧ f (st, tr) = y :=
  exists_run_of e ok calls f (step e) h

end Examples

instance (e : Env) (c : Call e.bits Nat) : Decidable (Small e c) :=
  match c with
  | .enqueueBulk _ _ _ => inferInstanceAs (Decidable (_ ∧ _))
  | .enqueue .. | .dequeue _ | .dequeueBulk .. => inferInstanceAs (Decidable True)

/-- A bulk call fails when the third block cannot be allocated, and one throws at its
fourth element. -/
theorem run_queue_tiny : ∃ (st : State (tiny [5]).bits Nat) (tr : Trace (tiny [5]).bits Nat),
    Run (step (tiny [5])) (Fresh (tiny [5])) (fun _ _ c _ => Small (tiny [5]) c) st tr ∧
      tr.map (·.2) = [.pushed (.returned true), .pushed (.returned false), .pushed .threw,
        .pushed (.returned true), .popped (.returned 3 [1, 2, 9])] ∧
      tr.sent = tr.got ++ tr.content := by
  obtain ⟨st, tr, hrun, hout⟩ := exists_run (tiny [5]) (fun _ _ c _ => Small (tiny [5]) c)
    [.enqueueBulk .canAlloc safe [1, 2], .enqueueBulk .canAlloc safe [3, 4, 5, 6, 7, 8],
      .enqueueBulk .canAlloc ⟨false, some 3⟩ [3, 4, 5, 6], .enqueue .canAlloc safe 9,
      .dequeueBulk 5#8 none]
    (fun r => (r.2.map (·.2), decide (∀ ev ∈ r.2, ev.1.throwsAt = none)))
    (y := ([.pushed (.returned true), .pushed (.returned false), .pushed .threw,
      .pushed (.returned true), .popped (.returned 3 [1, 2, 9])], true)) (by decide +kernel)
  obtain ⟨hout, hquiet⟩ := Prod.mk.inj hout
  exact ⟨st, tr, hrun, hout, (run_queue hrun).2.1 (of_decide_eq_true hquiet)⟩

/-- One block takes half of the index range. -/
def corner : Env :=
  { tiny [] with
    blockLog := 7
    blockLog_pos := by decide
    blockLog_lt := by decide }

/-- A bulk call of nothing on a new producer takes the whole of the block it does not
have yet for its own. -/
theorem empty_bulk_faults : ∃ st : State corner.bits Nat, Fresh corner st ∧
    ([] : List Nat).length < 2 ^ (corner.bits - 1) ∧
    step corner (.enqueueBulk .canAlloc safe []) st = none := by
  obtain ⟨st, hst, hnone⟩ : ∃ st : State corner.bits Nat, create corner unused = some st ∧
      (step corner (.enqueueBulk .canAlloc safe []) st).isNone = true := by
    have h : ((create corner unused).map fun st =>
        (step corner (.enqueueBulk .canAlloc safe []) st).isNone) = some true := by decide +kernel
    exact Option.map_eq_some_iff.mp h
  exact ⟨st, ⟨unused, unused_accounted corner, hst⟩, by decide, Option.isNone_iff_eq_none.mp hnone⟩

end ConcurrentQueue.Implicit
