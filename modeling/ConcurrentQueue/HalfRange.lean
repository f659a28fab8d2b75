import ConcurrentQueue.BulkSingles

/-!
# ConcurrentQueue.HalfRange

**How full a sub-queue gets.** Half of the index range is too much: `circularLessThan` then
takes the tail for being behind the head. The code keeps clear of that by a leeway test
before it inserts a block. An implicit producer has no other way to get a block. An explicit
producer also takes the block ahead, without the test, and its ring can be as long as half of
the range; what its calls must meet is the same test for these blocks (`Leeway`).
-/

namespace ConcurrentQueue

variable {α : Type} {e : Env}

/-! ### The explicit producer -/

namespace Explicit

variable {st st' : State e.bits α} {v : View} {l : List α}

/-- The next `m` blocks pass the leeway test. -/
def Leeway (e : Env) (st : State e.bits α) (m : Nat) : Prop :=
  ∀ j < m, circularLessThan st.prod.headIndex (e.blockBase (st.prod.tailIndex - 1#e.bits) +
    BitVec.ofNat e.bits ((j + 1) * e.BLOCK_SIZE) + e.blockSize) = true

instance (m : Nat) : Decidable (Leeway e st m) := inferInstanceAs (Decidable (∀ _ < _, _))

/-- How many blocks a call that enqueues `n` elements finds empty ahead. -/
def reused (e : Env) (st : State e.bits α) (n : Nat) : Nat :=
  emptyAhead e st.mem (blocksNeeded e st n) st.prod.tailBlock none

/-- The blocks that the call reuses pass the leeway test. A bulk call fails cleanly or can
have all of its blocks, and a call that throws takes none. -/
def Ample (e : Env) (st : State e.bits α) (c : Call e.bits α) : Prop :=
  match c with
  | .enqueue _ ctor _ => Leeway e st (reused e st 1) ∧
      (ctor.throws 0 = true → st.prod.tailIndex &&& e.blockMask ≠ 0)
  | .enqueueBulk mode ctor xs => xs.length < 2 ^ (e.bits - 1) ∧
      Leeway e st (reused e st xs.length) ∧
      (FailsClean e mode xs.length st ∨
        mode = .canAlloc ∧ Leeway e st (blocksNeeded e st xs.length)) ∧
      ((∃ j < xs.length, ctor.throws j = true) → blocksNeeded e st xs.length = 0)
  | .dequeue _ | .dequeueBulk .. => True

instance (c : Call e.bits α) : Decidable (Ample e st c) :=
  match c with
  | .enqueue .. | .enqueueBulk .. => inferInstanceAs (Decidable (_ ∧ _))
  | .dequeue _ | .dequeueBulk .. => inferInstanceAs (Decidable True)

/-- The elements and the slots left in the tail block are less than half of the index range. -/
def Short (e : Env) (st : State e.bits α) (l : List α) : Prop :=
  l.length + (e.BLOCK_SIZE - 1 - e.offset (st.prod.tailIndex - 1#e.bits)) < 2 ^ (e.bits - 1)

theorem Inv.short_iff (h : Inv e st v l) :
    Short e st l ↔ v.t * e.BLOCK_SIZE < v.head + 2 ^ (e.bits - 1) := by
  have hoff := e.offset_lt (st.prod.tailIndex - 1#e.bits)
  obtain ⟨-, hdecomp⟩ := h.tail_sub_one
  have hpos := h.pos
  have hlen := h.len
  have hmul : v.t * e.BLOCK_SIZE = (v.t - 1) * e.BLOCK_SIZE + e.BLOCK_SIZE := by
    rw [← Nat.succ_mul, Nat.succ_eq_add_one, Nat.sub_add_cancel h.taking.t_pos]
  unfold Short
  omega

/-! ### Taking blocks -/

theorem block_of_malloc (hmem : ∀ n, e.mallocOk n = true) (b : Budget) :
    ∃ b', b.block e .canAlloc = some b' := by
  rw [Budget.block, hmem]
  split <;> exact ⟨_, rfl⟩

theorem slot_of_malloc (hmem : ∀ n, e.mallocOk n = true) (m : Means) :
    ∃ b, m.slot e .canAlloc = some b := by
  rw [Means.slot, Budget.growIndex, hmem]
  split <;> exact ⟨_, rfl⟩

/-- The leeway test, on counters. -/
theorem full_eq_false_iff (hmax : e.MAX_SUBQUEUE_SIZE = e.sizeMax) {head tail : Nat}
    (hle : head ≤ tail) (hlt : tail < head + 2 ^ (e.bits - 1)) :
    full e (BitVec.ofNat e.bits head) (BitVec.ofNat e.bits tail) = false ↔
      tail + e.BLOCK_SIZE < head + 2 ^ (e.bits - 1) := by
  have hB := e.BLOCK_SIZE_pos
  have hBle := e.BLOCK_SIZE_le
  have hhalf := e.two_pow_bits
  rw [full, hmax, Traits.blockSize, BitVec.ofNat_add_ofNat, bne_self_eq_false, Bool.false_and,
    Bool.or_false, Bool.not_eq_false', circularLessThan_ofNat e.bits_pos (by omega) (by omega)]
  omega

/-- With memory available and no limit, a block can be had as long as there is leeway. -/
theorem Means.takeMany_isSome (hmem : ∀ n, e.mallocOk n = true)
    (hmax : e.MAX_SUBQUEUE_SIZE = e.sizeMax) {head n : Nat} {m : Means}
    (hle : head ≤ m.t * e.BLOCK_SIZE) (hlt : (m.t + n) * e.BLOCK_SIZE < head + 2 ^ (e.bits - 1)) :
    (m.takeMany e .canAlloc head n).isSome = true := by
  induction n generalizing m with
  | zero => rfl
  | succ n ih =>
      have hmul : m.t * e.BLOCK_SIZE + e.BLOCK_SIZE ≤ (m.t + (n + 1)) * e.BLOCK_SIZE := by
        rw [← Nat.succ_mul]
        exact Nat.mul_le_mul_right _ (by omega)
      have htake : ∃ m', m.take e .canAlloc head = some m' ∧ m'.t = m.t + 1 := by
        rw [Means.take]
        split
        case isTrue => exact ⟨_, rfl, rfl⟩
        case isFalse =>
          obtain ⟨b, hb⟩ := slot_of_malloc hmem m
          obtain ⟨b', hb'⟩ := block_of_malloc hmem b
          rw [Means.insert, (full_eq_false_iff hmax hle (by omega)).mpr (by omega), hb,
            Option.bind_some, hb']
          exact ⟨_, rfl, rfl⟩
      obtain ⟨m', hm', ht⟩ := htake
      rw [Means.takeMany, hm', Option.bind_some]
      refine ih (by rw [ht, Nat.succ_mul]; omega) ?_
      rw [ht, Nat.add_right_comm]
      exact hlt

/-- Blocks that are inserted have passed the test. -/
theorem Means.takeMany_leeway (hmax : e.MAX_SUBQUEUE_SIZE = e.sizeMax) {mode : AllocationMode}
    {head n : Nat} {m m' : Means} (h : m.takeMany e mode head n = some m')
    (hs : n = 0 ∨ head < m.s * e.BLOCK_SIZE + e.BLOCK_SIZE) (hle : head ≤ m.t * e.BLOCK_SIZE)
    (hlt : m.t * e.BLOCK_SIZE < head + 2 ^ (e.bits - 1)) :
    (m.t + n) * e.BLOCK_SIZE < head + 2 ^ (e.bits - 1) := by
  induction n generalizing m with
  | zero => exact hlt
  | succ n ih =>
      have hs := hs.resolve_left (Nat.succ_ne_zero n)
      rw [Means.takeMany, Option.bind_eq_some_iff] at h
      obtain ⟨m₁, htake, h⟩ := h
      rw [Means.take, if_neg fun hc => hs.not_ge hc.2, Means.insert] at htake
      split at htake
      case isTrue => cases htake
      case isFalse hfull =>
        obtain ⟨b, -, rfl⟩ := Option.map_eq_some_iff.mp htake
        rw [Bool.not_eq_true, full_eq_false_iff hmax hle hlt] at hfull
        have hrest := ih h (.inr hs) (by rw [Nat.succ_mul]; omega) (by rwa [Nat.succ_mul])
        rwa [Nat.add_right_comm] at hrest

/-- Block after block, the leeway test says what it should. -/
theorem Inv.leeway (h : Inv e st v l) (hshort : Short e st l) {m : Nat} (hm : Leeway e st m) :
    (v.t + m) * e.BLOCK_SIZE < v.head + 2 ^ (e.bits - 1) := by
  have hB := e.BLOCK_SIZE_le
  have hhalf := e.two_pow_bits
  have hpos := h.taking.t_pos
  have hhead := h.head_le
  have hfits : Fits e st.prod.tailIndex 0 := by
    have hoff := e.offset_lt (st.prod.tailIndex - 1#e.bits)
    unfold Fits
    omega
  have hbase := (h.blockBaseDiff hfits).1
  induction m with
  | zero => exact h.short_iff.mp hshort
  | succ m ih =>
      have hlt := ih fun j hj => hm j (Nat.lt_succ_of_lt hj)
      have htest := hm m (Nat.lt_succ_self m)
      have hsum : (v.t - 1) * e.BLOCK_SIZE + (m + 1) * e.BLOCK_SIZE + e.BLOCK_SIZE =
          (v.t + (m + 1)) * e.BLOCK_SIZE := by
        rw [← Nat.add_mul, ← Nat.succ_mul]
        congr 1
        omega
      have hstep : (v.t + (m + 1)) * e.BLOCK_SIZE = (v.t + m) * e.BLOCK_SIZE + e.BLOCK_SIZE :=
        Nat.succ_mul ..
      have hmono : v.t * e.BLOCK_SIZE ≤ (v.t + m) * e.BLOCK_SIZE :=
        Nat.mul_le_mul_right _ (Nat.le_add_right ..)
      rw [hbase, h.headIndex, Traits.blockSize, BitVec.ofNat_add_ofNat, BitVec.ofNat_add_ofNat,
        hsum, circularLessThan_ofNat e.bits_pos (by omega) (by omega)] at htest
      omega

/-- A call that gets its blocks, and for which those it reuses pass the test. -/
theorem Inv.leeway_of_taken (h : Inv e st v l) (hmax : e.MAX_SUBQUEUE_SIZE = e.sizeMax)
    (hshort : Short e st l) {n : Nat} (hn : Leeway e st (reused e st n)) {mode : AllocationMode}
    {m : Means} (htake : (v.means e st).takeMany e mode v.head (v.needed e n) = some m) :
    (v.t + v.needed e n) * e.BLOCK_SIZE < v.head + 2 ^ (e.bits - 1) := by
  obtain ⟨n', r, st₁, β, -, hsum, hr, h₁, -, -, -, hend, hsame⟩ :=
    h.taking.reuseAhead (v.needed e n)
  have hfirst : v.first v.t = none := if_neg (lt_irrefl _)
  rw [hfirst, ← h.blocksNeeded_eq] at hr
  rw [hsame mode] at htake
  have hlt := h.leeway hshort hn
  have hmono : v.t * e.BLOCK_SIZE ≤ (v.t + r) * e.BLOCK_SIZE :=
    Nat.mul_le_mul_right _ (Nat.le_add_right ..)
  rw [reused, ← hr] at hlt
  have hall := Means.takeMany_leeway hmax htake hend (h.head_le.trans hmono) hlt
  rwa [← hsum, Nat.add_comm n' r, ← Nat.add_assoc]

/-! ### One call -/

/-- An enqueue that fails leaves the tail index alone. -/
theorem Inv.enqueue_failed (h : Inv e st v l) {mode : AllocationMode} {ctor : Ctor} {x : α}
    (hfail : Explicit.enqueue e mode ctor x st = some (st', .returned false)) :
    st'.prod.tailIndex = st.prod.tailIndex := by
  unfold Explicit.enqueue at hfail
  by_cases hmask : st.prod.tailIndex &&& e.blockMask = 0
  · obtain ⟨st₁, ok, v₁, hstart, hno, -, htail, -⟩ :=
      h.startNewBlock mode (h.and_blockMask.mp hmask)
    simp only [if_pos hmask, hstart, Option.bind_eq_bind, Option.bind_some] at hfail
    cases ok with
    | false =>
        cases hfail
        rw [(hno rfl).tailIndex, htail, h.tailIndex]
    | true =>
        simp only [Bool.not_true, Bool.false_eq_true, if_false] at hfail
        split at hfail
        · cases hfail
        · split at hfail <;> simp [Option.bind_eq_some_iff] at hfail
  · simp only [if_neg hmask] at hfail
    split at hfail
    · cases hfail
    · simp [Option.bind_eq_some_iff] at hfail

/-- An enqueue of the elements `xs` that has succeeded. -/
theorem Inv.short_enqueued (h : Inv e st v l) (hmax : e.MAX_SUBQUEUE_SIZE = e.sizeMax)
    (hshort : Short e st l) {xs : List α} (hn : Leeway e st (reused e st xs.length)) {v' : View}
    (h' : Inv e st' v' (l ++ xs)) (hhead : v'.head = v.head) {mode : AllocationMode} {m : Means}
    (htake : (v.means e st).takeMany e mode v.head (v.needed e xs.length) = some m) :
    Short e st' (l ++ xs) := by
  have hlen := h.len
  have hlen' := h'.len
  rw [List.length_append] at hlen'
  have ht : v'.t ≤ v.t + v.needed e xs.length := by
    rw [h'.t_eq, View.needed, show v'.tail = v.tail + xs.length by omega]
    omega
  rw [h'.short_iff, hhead]
  exact (Nat.mul_le_mul_right _ ht).trans_lt (h.leeway_of_taken hmax hshort hn htake)

/-- What is taken off leaves less. -/
theorem Short.drop (hshort : Short e st l) (n : Nat)
    (htail : st'.prod.tailIndex = st.prod.tailIndex) : Short e st' (l.drop n) := by
  unfold Short at hshort ⊢
  rw [htail, List.length_drop]
  omega

variable (hmem : ∀ n, e.mallocOk n = true) (hmax : e.MAX_SUBQUEUE_SIZE = e.sizeMax)
  (hB : e.BLOCK_SIZE < 2 ^ (e.bits - 1))

include hmem hmax hB

/-- **One call** keeps the queue short. -/
theorem Inv.step_short (h : Inv e st v l) (hshort : Short e st l) {c : Call e.bits α}
    {o : Outcome α} (hstep : Explicit.step e c st = some (st', o)) (hok : Ample e st c) :
    (∃ v', Inv e st' v' (c.after o l)) ∧ Short e st' (c.after o l) := by
  cases c with
  | enqueue mode ctor x =>
      obtain ⟨hn, hthrow⟩ := hok
      obtain ⟨st₁, r, hr, htrue, hfalse, hthrew⟩ := h.enqueue mode ctor x
      rw [Explicit.step, hr, Option.map_some] at hstep
      cases hstep
      cases r with
      | threw =>
          obtain ⟨hthrows, hsame⟩ := hthrew rfl
          rw [hsame (hthrow hthrows)]
          exact ⟨⟨v, h⟩, hshort⟩
      | returned ok =>
          cases ok with
          | false =>
              refine ⟨(hfalse rfl).1, ?_⟩
              unfold Short at hshort ⊢
              rwa [h.enqueue_failed hr]
          | true =>
              obtain ⟨v', hinv, hhead, htake⟩ := htrue rfl
              have hn : Leeway e st (reused e st [x].length) := hn
              exact ⟨⟨v', hinv⟩, h.short_enqueued hmax hshort hn hinv hhead htake⟩
  | enqueueBulk mode ctor xs =>
      obtain ⟨hlen, hn, hclean, hthrow⟩ := hok
      have hfits : Fits e st.prod.tailIndex xs.length := by
        have hoff := e.offset_lt (st.prod.tailIndex - 1#e.bits)
        have hhalf := e.two_pow_bits
        unfold Fits
        omega
      obtain ⟨st₁, r, hr, htrue, hfalse, hthrew⟩ := h.enqueueBulk mode ctor xs hfits fun _ => hB
      rw [Explicit.step, hr, Option.map_some] at hstep
      cases hstep
      cases r with
      | threw =>
          obtain ⟨hthrows, hsame⟩ := hthrew rfl
          rw [hsame (hthrow hthrows)]
          exact ⟨⟨v, h⟩, hshort⟩
      | returned ok =>
          cases ok with
          | false =>
              obtain ⟨hinv, hnone⟩ := hfalse rfl
              rcases hclean with hclean | ⟨rfl, hall⟩
              · refine ⟨hinv hclean, ?_⟩
                unfold Short at hshort ⊢
                rwa [enqueueBulk_failed hr]
              · -- with leeway for all its blocks the call does not fail
                have hlt := h.leeway hshort hall
                rw [h.blocksNeeded_eq] at hlt
                have hsome := Means.takeMany_isSome hmem hmax (m := v.means e st) h.head_le hlt
                rw [hnone] at hsome
                cases hsome
          | true =>
              obtain ⟨v', hinv, hhead, htake⟩ := htrue rfl
              exact ⟨⟨v', hinv⟩, h.short_enqueued hmax hshort hn hinv hhead htake⟩
  | dequeue throws =>
      obtain ⟨st₁, v', hr, hinv, hv', -⟩ := h.dequeue
      rw [Explicit.step, hr, Option.map_some] at hstep
      cases hstep
      exact ⟨⟨v', hinv⟩, hshort.drop _ (by rw [hinv.tailIndex, h.tailIndex, hv'])⟩
  | dequeueBulk max throwsAt =>
      obtain ⟨st₁, v', hr, hinv, hv', -⟩ := h.dequeueBulk max
      rw [Explicit.step, hr, Option.map_some] at hstep
      cases hstep
      exact ⟨⟨v', hinv⟩, hshort.drop _ (by rw [hinv.tailIndex, h.tailIndex, hv'])⟩

/-- **Every run** keeps the queue short. -/
theorem inv_of_ample_run {tr : Trace e.bits α}
    (h : Run (Explicit.step e) (Fresh e) (fun _ st c _ => Ample e st c) st tr) :
    (∃ v, Inv e st v tr.content) ∧ Short e st tr.content := by
  refine h.invariant (P := fun st l => (∃ v, Inv e st v l) ∧ Short e st l) ?_ ?_
  · rintro st ⟨mem, hwf, hst⟩
    obtain ⟨st₀, v, hcreate, hinv⟩ := create_inv hwf
    obtain rfl := Option.some.inj (hst.symm.trans hcreate)
    refine ⟨⟨v, hinv⟩, ?_⟩
    unfold Short
    rw [List.length_nil]
    omega
  · rintro st st' l c o ⟨⟨v, hinv⟩, hshort⟩ hstep hok
    exact hinv.step_short hmem hmax hB hshort hstep hok

omit hmem hmax in
/-- The calls of such runs return. -/
theorem Ample.sized {c : Call e.bits α} (h : Ample e st c) : Sized e st.prod.tailIndex c := by
  cases c with
  | enqueueBulk mode ctor xs =>
      have hlen := h.1
      have hoff := e.offset_lt (st.prod.tailIndex - 1#e.bits)
      have hhalf := e.two_pow_bits
      refine ⟨?_, fun _ => hB⟩
      unfold Fits
      omega
  | enqueue mode ctor x => trivial
  | dequeue throws => trivial
  | dequeueBulk max throwsAt => trivial

end Explicit

/-! ### Both producers -/

/-- Less than half of the index range is in use: the tail is found ahead of the head exactly
if there is something between them. -/
theorem circularLessThan_length {head : Nat} {l : List α} (hlt : l.length < 2 ^ (e.bits - 1)) :
    circularLessThan (BitVec.ofNat e.bits head) (BitVec.ofNat e.bits (head + l.length)) = true ↔
      l ≠ [] := by
  have hhalf := e.two_pow_bits
  rw [circularLessThan_ofNat e.bits_pos (Nat.le_add_right ..) (by omega), ← List.length_pos_iff]
  omega

/-- A bulk dequeue of all the elements. -/
theorem ofList_all {l : List α} (hlt : l.length < 2 ^ (e.bits - 1)) :
    Popped.ofList none (takes e.bits (BitVec.ofNat e.bits l.length).toNat l) l =
      .returned l.length l := by
  have hhalf := e.two_pow_bits
  rw [BitVec.toNat_ofNat, Nat.mod_eq_of_lt (by omega), takes_of_lt hlt,
    Popped.ofList_quiet fun _ _ => by simp, Nat.min_self, List.take_length]

/-- **A sub-queue does not fill up to half of the index range**, an explicit one as long as the
blocks it reuses pass the test that the blocks it inserts have to pass. -/
theorem half_range_free (hmem : ∀ n, e.mallocOk n = true) (hmax : e.maxSubqueueSize = e.sizeMax)
    (hB : e.BLOCK_SIZE ≤ 2 ^ (e.bits - 2)) :
    (∀ (st : Explicit.State e.bits α) tr, Run (Explicit.step e) (Explicit.Fresh e)
        (fun _ st c _ => Explicit.Ample e st c) st tr →
      tr.content.length ≤ 2 ^ (e.bits - 1) - 1 ∧
      (circularLessThan st.prod.headIndex st.prod.tailIndex = true ↔ tr.content ≠ []) ∧
      (∃ st', Explicit.dequeueBulk e (BitVec.ofNat e.bits tr.content.length) none st =
        some (st', .returned tr.content.length tr.content)) ∧
      ∀ c, Explicit.Ample e st c → ∃ st' o, Explicit.step e c st = some (st', o)) ∧
    ∀ (st : Implicit.State e.bits α) tr, Run (Implicit.step e) (Implicit.Fresh e)
        (fun _ _ c _ => c.values.length < 2 ^ (e.bits - 1)) st tr →
      tr.content.length ≤ 2 ^ (e.bits - 1) - 1 ∧
      (circularLessThan st.prod.headIndex st.prod.tailIndex = true ↔ tr.content ≠ []) ∧
      (∃ st', Implicit.dequeueBulk e (BitVec.ofNat e.bits tr.content.length) none st =
        some (st', .returned tr.content.length tr.content)) ∧
      ∀ c : Call e.bits α, c.values.length < 2 ^ (e.bits - 1) →
        ∃ st' o, Implicit.step e c st = some (st', o) := by
  have hlimit : e.MAX_SUBQUEUE_SIZE = e.sizeMax := by
    refine if_pos ?_
    rw [hmax, BitVec.sub_self, Traits.blockSize, BitVec.lt_def, BitVec.toNat_zero,
      BitVec.toNat_ofNat, Nat.mod_eq_of_lt e.BLOCK_SIZE_lt]
    exact e.BLOCK_SIZE_pos
  have hlog := e.blockLog_pos
  have hblock : e.BLOCK_SIZE < 2 ^ (e.bits - 1) := by
    have htwo : 2 ^ 1 ≤ e.BLOCK_SIZE := Nat.pow_le_pow_right (by omega) hlog
    have hbits : 2 < e.bits := by
      by_contra hle
      rw [show e.bits - 2 = 0 by omega] at hB
      omega
    exact hB.trans_lt (Nat.pow_lt_pow_right (by omega) (by omega))
  refine ⟨fun st tr h => ?_, fun st tr h => ?_⟩
  · obtain ⟨⟨v, hinv⟩, hshort⟩ := Explicit.inv_of_ample_run hmem hlimit hblock h
    have hlt : tr.content.length < 2 ^ (e.bits - 1) := (Nat.le_add_right ..).trans_lt hshort
    refine ⟨Nat.le_sub_one_of_lt hlt, ?_, ?_, fun c hc => ?_⟩
    · rw [hinv.headIndex, hinv.tailIndex, ← hinv.len]
      exact circularLessThan_length hlt
    · obtain ⟨st', -, hdeq, -⟩ := hinv.dequeueBulk (BitVec.ofNat e.bits tr.content.length)
      specialize hdeq none
      rw [ofList_all hlt] at hdeq
      exact ⟨st', hdeq⟩
    · obtain ⟨st', o, hstep, -⟩ := hinv.returns c (hc.sized hblock)
      exact ⟨st', o, hstep⟩
  · have hsized : ∀ (st : Implicit.State e.bits α) (c : Call e.bits α),
        c.values.length < 2 ^ (e.bits - 1) → Sized e st.prod.tailIndex c := by
      intro st c hlen
      cases c with
      | enqueueBulk mode ctor xs => exact Implicit.Small.sized ⟨hlen, fun _ => hblock⟩
      | enqueue mode ctor x => trivial
      | dequeue throws => trivial
      | dequeueBulk max throwsAt => trivial
    obtain ⟨⟨v, hinv⟩, -⟩ := Implicit.inv_of_run (fun st _ _ c _ _ _ _ hok => hsized st c hok) h
    have hlt := hinv.length_lt
    refine ⟨Nat.le_sub_one_of_lt hlt, ?_, ?_, fun c hc => ?_⟩
    · rw [hinv.headIndex, hinv.tailIndex, ← hinv.len]
      exact circularLessThan_length hlt
    · obtain ⟨st', -, hdeq, -⟩ := hinv.dequeueBulk (BitVec.ofNat e.bits tr.content.length)
      specialize hdeq none
      rw [ofList_all hlt] at hdeq
      exact ⟨st', hdeq⟩
    · obtain ⟨st', v', o, hstep, -⟩ := hinv.call c (hsized st c hc)
      exact ⟨st', o, hstep⟩

open Explicit (tiny safe)

/-- Four elements, two taken, and three more, the first of them in a block reused. -/
theorem half_range_free_tiny :
    (∃ (st : Explicit.State (tiny []).bits Nat) (tr : Trace (tiny []).bits Nat),
      Run (Explicit.step (tiny [])) (Explicit.Fresh (tiny []))
        (fun _ st c _ => Explicit.Ample (tiny []) st c) st tr ∧ tr.content = [3, 4, 5, 6, 7] ∧
      ∃ st', Explicit.dequeueBulk (tiny []) 5#8 none st =
        some (st', .returned 5 [3, 4, 5, 6, 7])) ∧
    ∃ (st : Implicit.State (tiny []).bits Nat) (tr : Trace (tiny []).bits Nat),
      Run (Implicit.step (tiny [])) (Implicit.Fresh (tiny []))
        (fun _ _ c _ => c.values.length < 2 ^ ((tiny []).bits - 1)) st tr ∧
      tr.content = [3, 4, 5, 6, 7] ∧ ∃ st', Implicit.dequeueBulk (tiny []) 5#8 none st =
        some (st', .returned 5 [3, 4, 5, 6, 7]) := by
  obtain ⟨hexplicit, himplicit⟩ := half_range_free (α := Nat) (e := tiny []) (fun _ => rfl) rfl
    (by decide)
  obtain ⟨st, tr, hrun, hcontent⟩ := Explicit.exists_run (tiny [])
    (fun _ st c _ => Explicit.Ample (tiny []) st c)
    [.enqueueBulk .canAlloc safe [1, 2, 3, 4], .dequeueBulk 2#8 none, .enqueue .canAlloc safe 5,
      .enqueueBulk .canAlloc safe [6, 7]] (fun r => r.2.content) (y := [3, 4, 5, 6, 7])
    (by decide +kernel)
  obtain ⟨st', tr', hrun', hcontent'⟩ := Implicit.exists_run (tiny [])
    (fun _ _ c _ => c.values.length < 2 ^ ((tiny []).bits - 1))
    [.enqueueBulk .canAlloc safe [1, 2, 3, 4], .dequeueBulk 2#8 none, .enqueue .canAlloc safe 5,
      .enqueueBulk .canAlloc safe [6, 7]] (fun r => r.2.content) (y := [3, 4, 5, 6, 7])
    (by decide +kernel)
  have hall := (hexplicit st tr hrun).2.2.1
  have hall' := (himplicit st' tr' hrun').2.2.1
  dsimp only at hcontent hcontent'
  rw [hcontent] at hall
  rw [hcontent'] at hall'
  exact ⟨⟨st, tr, hrun, hcontent, hall⟩, st', tr', hrun', hcontent', hall'⟩

/-- The numbers from `a` to before `b`. -/
def numbers (a b : Nat) : List Nat := (List.range (b - a)).map (a + ·)

/-- A block is emptied and reused when the ring is as long as half of the index range. Every
enqueue succeeds, and then the queue of 128 elements looks empty. -/
theorem half_range_reached : ∃ (st : Explicit.State (tiny []).bits Nat)
    (tr : Trace (tiny []).bits Nat), Run (Explicit.step (tiny [])) (Explicit.Fresh (tiny []))
      (fun _ _ c o => c.Accepted o ∧ c.values.length < 2 ^ ((tiny []).bits - 1)) st tr ∧
      tr.map (·.1.values.length) = [1, 0, 127, 0, 1, 1] ∧ tr.content = numbers 2 130 ∧
      circularLessThan st.prod.headIndex st.prod.tailIndex = false ∧
      ∃ st', Explicit.dequeueBulk (tiny []) 128#8 none st = some (st', .returned 0 []) := by
  obtain ⟨st, tr, hrun, hout⟩ := Explicit.exists_run (tiny [])
    (fun _ _ c o => c.Accepted o ∧ c.values.length < 2 ^ ((tiny []).bits - 1))
    [.enqueue .canAlloc safe 0, .dequeue false, .enqueueBulk .canAlloc safe (numbers 1 128),
      .dequeue false, .enqueue .canAlloc safe 128, .enqueue .canAlloc safe 129]
    (fun r => (r.2.map (·.1.values.length), r.2.content,
      circularLessThan r.1.prod.headIndex r.1.prod.tailIndex,
      (Explicit.dequeueBulk (tiny []) 128#8 none r.1).map (·.2)))
    (y := ([1, 0, 127, 0, 1, 1], numbers 2 130, false, some (.returned 0 [])))
    (by decide +kernel)
  simp only [Prod.mk.injEq, Option.map_eq_some_iff] at hout
  obtain ⟨hcalls, hcontent, hless, ⟨st', o⟩, hdeq, rfl⟩ := hout
  exact ⟨st, tr, hrun, hcalls, hcontent, hless, st', hdeq⟩

end ConcurrentQueue
