import ConcurrentQueue.ExplicitEnqueue

/-!
# ConcurrentQueue.ExplicitBulk

`enqueue_bulk` keeps the invariant when it succeeds. Between its first and its
last step the ring has **blocks taken but not filled**: numbers `t₀` and up, all
of them reported empty, whether they came from ahead of the tail or from the
block pool. `Taking` is the invariant of the two loops that take them; they are
reset together, and then filled one after the other.

When the call fails it goes back to the saved index front, slot count and tail
block, and keeps the blocks it inserted. That leaves the invariant only if it
fails at the first block it would insert, and the entries written for reused
blocks did not overwrite any (`Inv.rollback`).
-/

namespace ConcurrentQueue.Explicit

open Function Wrap
open Option (bind_eq_bind bind_eq_some_iff bind_some map_some some_ne_none)

variable {α : Type} {e : Env} {st : State e.bits α} {v : View} {l : List α} {a t₀ : Nat}

/-! ### Blocks taken and not filled -/

/-- Marks while blocks are taken: those from number `t₀` on are empty. -/
def takenMark (B head t₀ q : Nat) : Nat := if t₀ ≤ q then B else marked B head q

structure Taking (e : Env) (a t₀ : Nat) (st : State e.bits α) (v : View) (l : List α) : Prop where
  ring : Ring e st.mem v.β v.s v.t (slotAt v.head l) (takenMark e.BLOCK_SIZE v.head t₀)
  index : IndexAt e st.prod v.β a v.s v.t v.c v.k
  tailIndex : st.prod.tailIndex = BitVec.ofNat e.bits v.tail
  headIndex : st.prod.headIndex = BitVec.ofNat e.bits v.head
  optimistic :
    st.prod.dequeueOptimisticCount - st.prod.dequeueOvercommit = st.prod.headIndex
  tailBlock : st.prod.tailBlock = if v.s < v.t then some (v.β (v.t - 1)) else none
  len : v.head + l.length = v.tail
  oldest : v.s * e.BLOCK_SIZE ≤ v.head
  newest : v.tail ≤ t₀ * e.BLOCK_SIZE ∧ t₀ * e.BLOCK_SIZE < v.tail + e.BLOCK_SIZE
  start : v.s ≤ t₀
  le : t₀ ≤ v.t
  bound : (v.t - v.s) * e.BLOCK_SIZE ≤ 2 ^ (e.bits - 1)
  small : v.s < v.t → e.BLOCK_SIZE < 2 ^ (e.bits - 1)
  pos : 0 < v.tail

/-- The first block taken. -/
def View.first (v : View) (t₀ : Nat) : Option Nat := if t₀ < v.t then some (v.β t₀) else none

/-- Where the loops stand that take the blocks. -/
def View.taken (e : Env) (v : View) (t₀ : Nat) : Taken e.bits :=
  ⟨BitVec.ofNat e.bits ((v.t - 1) * e.BLOCK_SIZE), v.first t₀⟩

theorem Inv.taking (h : Inv e st v l) : Taking e v.s v.t st v l :=
  { h with
    ring := h.ring.congr (fun _ _ _ _ _ => rfl) fun q _ hqt => if_neg (by omega)
    start := h.s_le_t
    le := le_rfl }

namespace Taking

theorem t_pos (h : Taking e a t₀ st v l) : 0 < t₀ := by
  have hnew := h.newest.1
  have hpos := h.pos
  refine Nat.pos_of_ne_zero fun h0 => ?_
  rw [h0, Nat.zero_mul] at hnew
  omega

/-- The base of the next block. -/
theorem nextBase (h : Taking e a t₀ st v l) :
    (v.taken e t₀).currentTailIndex + e.blockSize = BitVec.ofNat e.bits (v.t * e.BLOCK_SIZE) := by
  have hpos := h.t_pos
  have hle := h.le
  rw [View.taken, Traits.blockSize, BitVec.ofNat_add_ofNat, ← Nat.succ_mul,
    Nat.succ_eq_add_one, Nat.sub_add_cancel (by omega)]

theorem tail_le (h : Taking e a t₀ st v l) : v.tail ≤ v.t * e.BLOCK_SIZE :=
  h.newest.1.trans (Nat.mul_le_mul_right _ h.le)

theorem window (h : Taking e a t₀ st v l) :
    v.t * e.BLOCK_SIZE - v.head ≤ 2 ^ (e.bits - 1) := by
  have hb := h.bound
  have ho := h.oldest
  rw [Nat.sub_mul] at hb
  omega

theorem exists_index (h : Taking e a t₀ st v l) (hst : v.s < v.t) :
    ∃ hdr, Index e st.prod hdr v.β a v.t v.c v.k :=
  h.index.index.resolve_left fun hnone => hst.ne hnone.2.1

/-- Slots from the tail on hold no object. -/
theorem vacant (h : Taking e a t₀ st v l) (i : Nat) :
    slotAt v.head l (v.t * e.BLOCK_SIZE + i) = none := by
  have := h.tail_le
  have := h.len
  exact slotAt_of_ge (by omega)

end Taking

theorem first_update {s b : Nat} (hle : t₀ ≤ v.t) :
    { v with β := update v.β v.t b, s := s, t := v.t + 1 }.first t₀ =
      (v.first t₀).or (some b) := by
  unfold View.first
  dsimp only
  rw [if_pos (by omega)]
  by_cases hlt : t₀ < v.t
  · rw [if_pos hlt, update_of_ne (by omega), Option.some_or]
  · rw [if_neg hlt, show t₀ = v.t by omega, update_self, Option.none_or]

theorem taken_update {s b : Nat} (hle : t₀ ≤ v.t) :
    View.taken e { v with β := update v.β v.t b, s := s, t := v.t + 1 } t₀ =
      ⟨BitVec.ofNat e.bits (v.t * e.BLOCK_SIZE), (v.first t₀).or (some b)⟩ := by
  rw [View.taken, first_update hle]
  rfl

/-! ### Blocks from ahead of the tail -/

/-- The state only differs in what taking blocks from ahead changes. -/
structure Ahead {w : Nat} (st st' : State w α) : Prop where
  mem : st'.mem = st.mem
  prod : st'.prod = { st.prod with
    tailBlock := st'.prod.tailBlock
    blockIndex := st'.prod.blockIndex
    prBlockIndexFront := st'.prod.prBlockIndexFront }
  header : st'.prod.blockIndex.map (·.front) = st.prod.blockIndex.map (·.front)

theorem Ahead.trans {w : Nat} {st st' st'' : State w α} (h : Ahead st st') (h' : Ahead st' st'') :
    Ahead st st'' := by
  refine ⟨h'.mem.trans h.mem, ?_, h'.header.trans h.header⟩
  have hp := h'.prod
  rw [h.prod] at hp
  exact hp

theorem Ahead.isSome {w : Nat} {st st' : State w α} (h : Ahead st st') :
    st'.prod.blockIndex.isSome = st.prod.blockIndex.isSome := by
  rw [← Option.isSome_map (f := (·.front)), h.header, Option.isSome_map]

/-- How many blocks ahead of the tail block are empty, looking at `n` at most
and not beyond the block `first`. -/
def emptyAhead (e : Env) (mem : Mem α) : Nat → Option Nat → Option Nat → Nat
  | 0, _, _ => 0
  | n + 1, tailBlock, first =>
      match tailBlock.bind fun tb => (mem.blocks tb).next with
      | none => 0
      | some next =>
          if some next = first then 0
          else if (mem.blocks next).isEmpty e.toTraits .explicitContext = some true then
            emptyAhead e mem n (some next) (first.or (some next)) + 1
          else 0

/-- The oldest block becomes the newest again. -/
theorem Taking.reuse (h : Taking e a t₀ st v l) (hs : v.s < t₀)
    (hempty : v.s * e.BLOCK_SIZE + e.BLOCK_SIZE ≤ v.head) :
    ∃ st', pushEntry e (BitVec.ofNat e.bits (v.t * e.BLOCK_SIZE))
        { st with prod := { st.prod with tailBlock := some (v.β v.s) } } = some st' ∧
      Ahead st st' ∧ st'.prod.tailBlock = some (v.β v.s) ∧
      Taking e a t₀ st'
        { v with β := update v.β v.t (v.β v.s), s := v.s + 1, t := v.t + 1 } l := by
  have hle := h.le
  have hst : v.s < v.t := by omega
  obtain ⟨hdr, hindex⟩ := h.exists_index hst
  have hmoved : Index e { st.prod with tailBlock := some (v.β v.s) } hdr v.β a v.t v.c v.k :=
    hindex.congr rfl rfl rfl
  obtain ⟨h', hfront, hpush, hindex'⟩ := hmoved.pushEntry (α := α) rfl
  have hrotate := h.ring.rotate hst (fun i hi => slotAt_of_lt (by omega)) fun i _ => h.vacant i
  refine ⟨_, hpush st.mem, ⟨rfl, rfl, ?_⟩, rfl, ?_⟩
  · rw [hindex.header]
    exact congrArg some hfront
  · refine { h with
      ring := hrotate.congr (fun _ _ _ _ _ => rfl) fun q hsq hqt => ?_
      index := ⟨?_, h.index.size, h.index.klt, ?_, ?_, ?_, .inr ⟨h', hindex'⟩⟩
      tailBlock := ?_
      oldest := ?_
      start := hs
      le := hle.trans (Nat.le_succ _)
      bound := ?_
      small := fun _ => h.small hst }
    · by_cases hq : q = v.t
      · rw [hq, update_self, takenMark, takenMark, if_pos hle, if_neg (by omega)]
        exact ((marked_eq_iff e.BLOCK_SIZE_pos).mpr hempty).symm
      · rw [update_of_ne hq]
    · show st.prod.prBlockIndexSlotsUsed = BitVec.ofNat e.bits (v.t + 1 - (v.s + 1))
      rw [Nat.add_sub_add_right]
      exact h.index.slots
    · exact Nat.succ_le_succ h.index.le
    · have := h.index.room
      show v.t + 1 ≤ v.s + 1 + 2 ^ v.k
      omega
    · exact h.index.start.trans (Nat.le_succ _)
    · show some (v.β v.s) = if v.s + 1 < v.t + 1 then
        some (update v.β v.t (v.β v.s) (v.t + 1 - 1)) else none
      rw [if_pos (by omega), Nat.add_sub_cancel, update_self]
    · show (v.s + 1) * e.BLOCK_SIZE ≤ v.head
      rwa [Nat.succ_mul]
    · show (v.t + 1 - (v.s + 1)) * e.BLOCK_SIZE ≤ _
      rw [Nat.add_sub_add_right]
      exact h.bound

/-- The view after `r` blocks from ahead have become the newest. -/
def View.ahead (v : View) (r : Nat) (β : Nat → Nat) : View :=
  { v with β := β, s := v.s + r, t := v.t + r }

theorem ahead_succ {b β : Nat → Nat} {r : Nat} :
    { v with β := b, s := v.s + 1, t := v.t + 1 }.ahead r β = v.ahead (r + 1) β := by
  simp only [View.ahead, Nat.add_assoc, Nat.add_comm 1 r]

/-- The loop that takes blocks from ahead: it takes all the empty ones, up to
the number needed, and otherwise stops at a block that is not empty. -/
theorem Taking.reuseAhead (h : Taking e a t₀ st v l) (n : Nat) :
    ∃ n' r st' β',
      reuseAhead e n (v.taken e t₀) st = some (n', (v.ahead r β').taken e t₀, st') ∧
      n' + r = n ∧ r = emptyAhead e st.mem n st.prod.tailBlock (v.first t₀) ∧
      Taking e a t₀ st' (v.ahead r β') l ∧ Ahead st st' ∧ (r = 0 → st' = st) ∧
      (∀ q < v.t, β' q = v.β q) ∧
      (n' = 0 ∨ v.head < (v.s + r) * e.BLOCK_SIZE + e.BLOCK_SIZE) ∧
      ∀ mode, (v.means e st).takeMany e mode v.head n =
        ((v.ahead r β').means e st').takeMany e mode v.head n' := by
  induction n generalizing st v with
  | zero => exact ⟨0, 0, st, v.β, rfl, rfl, rfl, h, ⟨rfl, rfl, rfl⟩, fun _ => rfl,
      fun _ _ => rfl, .inl rfl, fun _ => rfl⟩
  | succ n ih =>
      have hle := h.le
      have hB := e.BLOCK_SIZE_pos
      have htail := h.tailBlock
      -- the loop ends at a block that is not empty, or has come full circle
      have hstop : v.head < v.s * e.BLOCK_SIZE + e.BLOCK_SIZE →
          some (n + 1, v.taken e t₀, st) = some (n + 1, (v.ahead 0 v.β).taken e t₀, st) ∧
          n + 1 + 0 = n + 1 ∧ 0 = 0 ∧ Taking e a t₀ st (v.ahead 0 v.β) l ∧ Ahead st st ∧
          (0 = 0 → st = st) ∧ (∀ q < v.t, v.β q = v.β q) ∧
          (n + 1 = 0 ∨ v.head < (v.s + 0) * e.BLOCK_SIZE + e.BLOCK_SIZE) ∧
          ∀ mode, (v.means e st).takeMany e mode v.head (n + 1) =
            ((v.ahead 0 v.β).means e st).takeMany e mode v.head (n + 1) := fun hhead =>
        ⟨rfl, rfl, rfl, h, ⟨rfl, rfl, rfl⟩, fun _ => rfl, fun _ _ => rfl, .inr hhead,
          fun _ => rfl⟩
      have hcircle : v.s = t₀ → v.head < v.s * e.BLOCK_SIZE + e.BLOCK_SIZE := fun hs => by
        have hlen := h.len
        have hnew := h.newest.1
        rw [hs]
        omega
      by_cases hst : v.s < v.t
      · rw [if_pos hst] at htail
        have hnext := h.ring.wrap hst
        simp only [Explicit.reuseAhead, emptyAhead, htail, hnext, bind_eq_bind,
          bind_some]
        by_cases hs : v.s = t₀
        · have hfirst : some (v.β v.s) = v.first t₀ := by
            rw [View.first, if_pos (by omega), hs]
          rw [if_pos hfirst, if_pos (show some (v.β v.s) = (v.taken e t₀).2 from hfirst)]
          exact ⟨n + 1, 0, st, v.β, hstop (hcircle hs)⟩
        · have hstart := h.start
          have hfirst : some (v.β v.s) ≠ v.first t₀ := by
            rw [View.first]
            split
            · intro heq
              exact hs (h.ring.inj _ _ le_rfl hst (by omega) (by omega) (Option.some.inj heq))
            · exact nofun
          have hmark : takenMark e.BLOCK_SIZE v.head t₀ v.s = marked e.BLOCK_SIZE v.head v.s :=
            if_neg (by omega)
          have hempty := h.ring.isEmpty le_rfl hst (by rw [hmark]; exact marked_le ..)
          rw [hmark] at hempty
          rw [if_neg hfirst, if_neg (show some (v.β v.s) ≠ (v.taken e t₀).2 from hfirst), hempty]
          simp only [bind_some, decide_eq_true_eq, Option.some.injEq, marked_eq_iff hB]
          by_cases hreuse : v.s * e.BLOCK_SIZE + e.BLOCK_SIZE ≤ v.head
          · obtain ⟨st₁, hpush, hahead, htb, h₁⟩ := h.reuse (by omega) hreuse
            obtain ⟨n', r, st', β', hloop, hn, hr, h', hahead', -, hβ, hend, htake⟩ := ih h₁
            rw [if_pos hreuse, if_pos hreuse, h.nextBase, hpush, bind_some]
            rw [ahead_succ] at hloop h'
            refine ⟨n', r + 1, st', β', ?_, by omega, ?_, h', hahead.trans hahead', nofun, ?_, ?_,
              fun mode => ?_⟩
            · rw [← hloop, taken_update hle]
              rfl
            · rw [hr, hahead.mem, htb, first_update hle]
            · intro q hq
              rw [hβ q (Nat.lt_succ_of_lt hq)]
              exact update_of_ne hq.ne ..
            · rwa [show v.s + (r + 1) = v.s + 1 + r by omega]
            · rw [← ahead_succ, ← htake mode, Means.takeMany,
                show (v.means e st).take e mode v.head = _ from if_pos ⟨hst, hreuse⟩,
                bind_some]
              congr 1
              simp only [View.means, hahead.mem, hahead.isSome]
          · rw [if_neg hreuse, if_neg hreuse]
            exact ⟨n + 1, 0, st, v.β, hstop (by omega)⟩
      · rw [if_neg hst] at htail
        simp only [Explicit.reuseAhead, emptyAhead, htail, Option.bind_none]
        exact ⟨n + 1, 0, st, v.β, hstop (hcircle (by have := h.start; omega))⟩

/-! ### Blocks from the block pool -/

theorem IndexAt.mono {p : ExplicitProducer e.bits} {β : Nat → Nat} {s t c k : Nat}
    (h : IndexAt e p β a s t c k) : IndexAt e p β s s t c k :=
  { h with
    start := le_rfl
    index := h.index.imp_right fun ⟨hdr, hindex⟩ =>
      ⟨hdr, hindex.mono h.start fun _ _ _ => rfl⟩ }

theorem Taking.setMallocs (h : Taking e a t₀ st v l) (n : Nat) :
    Taking e a t₀ { st with mem := { st.mem with mallocs := n } } v l :=
  { h with ring := h.ring.setMallocs n }

theorem Taking.ensureRoomBulk (h : Taking e a t₀ st v l) (mode : AllocationMode)
    (saved : Saved e.bits) {full : Bool}
    (hspan : full = false → (v.t + 1 - v.s) * e.BLOCK_SIZE ≤ 2 ^ (e.bits - 1)) :
    ∃ st' saved' ok c' k', ensureRoomBulk e mode full saved st = some (st', saved', ok) ∧
      saved'.startBlock = saved.startBlock ∧
      Taking e v.s t₀ st' { v with c := c', k := k' } l ∧
      (ok = true → full = false ∧ v.t < v.s + 2 ^ k' ∧
        ∃ hdr, Index e st'.prod hdr v.β v.s v.t c' k') ∧
      (full = true ∨ (v.means e st).slot e mode =
        if ok then some (budget e st'.mem k') else none) := by
  have hkeep : Taking e v.s t₀ st v l := { h with index := h.index.mono }
  obtain ⟨mem, p⟩ := st
  have hslot := h.index.slot_eq mem mode
  rw [View.means, hslot]
  unfold Explicit.ensureRoomBulk
  cases full with
  | true =>
      rw [Bool.or_true, if_pos rfl]
      cases mode <;> exact ⟨_, _, false, _, _, rfl, rfl, hkeep, (absurd · Bool.false_ne_true),
        .inl rfl⟩
  | false =>
      rw [Bool.or_false]
      cases hfull : indexFull e (⟨mem, p⟩ : State e.bits α) with
      | false =>
          exact ⟨_, _, true, _, _, rfl, rfl, hkeep, fun _ =>
            ⟨rfl, hkeep.index.of_not_full hfull⟩, .inr rfl⟩
      | true =>
          rw [if_pos rfl]
          cases mode with
          | cannotAlloc => exact ⟨_, _, false, _, _, rfl, rfl, hkeep,
              (absurd · Bool.false_ne_true), .inr rfl⟩
          | canAlloc =>
              have hk := h.index.double hfull (hspan rfl)
              rcases newBlockIndex_spec h.index hk mem saved.originalBlockIndexSlotsUsed with
                ⟨hmalloc, h', -, hnew, hindex⟩ | ⟨hmalloc, hnew⟩
              · simp only [Bool.false_eq_true, if_false, hnew, bind_eq_bind,
                  bind_some, if_true]
                refine ⟨_, _, true, (2 ^ (v.k + 1) - 1) * v.s, v.k + 1, rfl, rfl,
                  { h with ring := h.ring.setMallocs _, index := hindex }, fun _ => ?_, .inr ?_⟩
                · have hroom := h.index.room
                  have hpos := Nat.two_pow_pos v.k
                  have hpow : 2 ^ (v.k + 1) = 2 ^ v.k + 2 ^ v.k := by omega
                  exact ⟨trivial, by omega, hindex.index.resolve_left fun hnone =>
                    absurd hnone.1 (some_ne_none h')⟩
                · exact growIndex_ok hmalloc
              · simp only [Bool.false_eq_true, if_false, hnew, bind_eq_bind,
                  bind_some]
                exact ⟨_, _, false, _, _, rfl, rfl, hkeep.setMallocs _,
                  (absurd · Bool.false_ne_true), .inr (growIndex_failed hmalloc)⟩

/-- A block from the pool becomes the newest. -/
theorem Taking.insert (h : Taking e v.s t₀ st v l)
    (hspan : (v.t + 1 - v.s) * e.BLOCK_SIZE ≤ 2 ^ (e.bits - 1))
    (hsmall : e.BLOCK_SIZE < 2 ^ (e.bits - 1)) (hroom : v.t < v.s + 2 ^ v.k)
    (hindex : ∃ hdr, Index e st.prod hdr v.β v.s v.t v.c v.k) {mem' : Mem α} {b : Nat}
    (hr : Mem.Requisitioned e st.mem mem' b) :
    ∃ st', pushEntry e (BitVec.ofNat e.bits (v.t * e.BLOCK_SIZE))
        (incSlotsUsed e (linkBlock e b
          ⟨mem'.modify b (Block.setAllEmpty e.toTraits .explicitContext), st.prod⟩)) = some st' ∧
      Taking e v.s t₀ st' { v with β := update v.β v.t b, t := v.t + 1 } l ∧
      OnlyContents mem' st'.mem := by
  have hle := h.index.le
  have hring := h.ring.insert hr Block.elements_setAllEmpty Block.marked_setAllEmpty
    (fun i _ => h.vacant i) hle h.tailBlock
  obtain ⟨hdr, hindex⟩ := hindex
  let p := (incSlotsUsed e (linkBlock e b
    ⟨mem'.modify b (Block.setAllEmpty e.toTraits .explicitContext), st.prod⟩)).prod
  have hlinked : Index e p hdr v.β v.s v.t v.c v.k := hindex.congr rfl rfl rfl
  obtain ⟨h', -, hpush, hindex'⟩ := hlinked.pushEntry (α := α) rfl
  have hmem : OnlyContents mem' (linkBlock e b
      ⟨mem'.modify b (Block.setAllEmpty e.toTraits .explicitContext), st.prod⟩).mem :=
    .trans ⟨_, rfl⟩ (linkBlock_onlyContents b _)
  refine ⟨_, hpush _, { h with
    ring := hring.congr (fun _ _ _ _ _ => rfl) fun q hsq hqt => ?_
    index := ⟨?_, h.index.size, h.index.klt, hle.trans (Nat.le_succ _), hroom, le_rfl,
      .inr ⟨h', hindex'⟩⟩
    tailBlock := ?_
    le := h.le.trans (Nat.le_succ _)
    bound := hspan
    small := fun _ => hsmall }, hmem⟩
  · by_cases hq : q = v.t
    · rw [hq, update_self, takenMark, if_pos h.le]
    · rw [update_of_ne hq]
  · show st.prod.prBlockIndexSlotsUsed + 1#e.bits = BitVec.ofNat e.bits (v.t + 1 - v.s)
    rw [h.index.slots, BitVec.ofNat_add_ofNat, Nat.sub_add_comm hle]
  · show some b = if v.s < v.t + 1 then some (update v.β v.t b (v.t + 1 - 1)) else none
    rw [if_pos (by omega), Nat.add_sub_cancel, update_self]

/-- The leeway test for the next block of a bulk call. -/
theorem Taking.span (h : Taking e a t₀ st v l)
    (hhead : v.head < v.s * e.BLOCK_SIZE + e.BLOCK_SIZE)
    (hfull : full e st.prod.headIndex (BitVec.ofNat e.bits (v.t * e.BLOCK_SIZE)) = false) :
    (v.t + 1 - v.s) * e.BLOCK_SIZE ≤ 2 ^ (e.bits - 1) ∧ e.BLOCK_SIZE < 2 ^ (e.bits - 1) := by
  have hhalf := e.two_pow_bits
  have hwin := h.window
  have htail := h.tail_le
  have hlen := h.len
  have hlt : v.t * e.BLOCK_SIZE + e.BLOCK_SIZE - v.head < 2 ^ e.bits := by
    have hB := e.BLOCK_SIZE_le
    have hBlt := e.BLOCK_SIZE_lt
    have hold := h.oldest
    rcases h.index.le.lt_or_eq with hst | hst
    · have := h.small hst
      omega
    · rw [hst] at hold
      omega
  rw [h.headIndex] at hfull
  have hlee := leeway (by omega) hlt hfull
  refine ⟨span_le hhead ?_, by omega⟩
  rwa [Nat.succ_mul]

/-- The loop that takes blocks from the pool, if it gets all of them. -/
theorem Taking.allocateBlocks (h : Taking e a t₀ st v l) {n : Nat}
    (hhead : n = 0 ∨ v.head < v.s * e.BLOCK_SIZE + e.BLOCK_SIZE) (mode : AllocationMode)
    (saved : Saved e.bits) :
    ∃ st' res, allocateBlocks e mode n saved (v.taken e t₀) st = some (st', res) ∧
      (res = none → (v.means e st).takeMany e mode v.head n = none) ∧
      ∀ saved' taken', res = some (saved', taken') →
        ∃ β' c' k', saved'.startBlock = saved.startBlock ∧
          taken' = View.taken e ⟨β', v.s, v.t + n, c', k', v.tail, v.head⟩ t₀ ∧
          Taking e v.s t₀ st' ⟨β', v.s, v.t + n, c', k', v.tail, v.head⟩ l ∧
          (∀ q < v.t, β' q = v.β q) ∧
          (v.means e st).takeMany e mode v.head n =
            some (View.means e ⟨β', v.s, v.t + n, c', k', v.tail, v.head⟩ st') := by
  induction n generalizing st v a saved with
  | zero =>
      refine ⟨st, some (saved, v.taken e t₀), rfl,
        fun hnone => absurd hnone (some_ne_none _), fun saved' taken' hres => ?_⟩
      cases hres
      exact ⟨v.β, v.c, v.k, rfl, rfl, { h with index := h.index.mono }, fun _ _ => rfl, rfl⟩
  | succ n ih =>
      have hhead := hhead.resolve_left (Nat.succ_ne_zero n)
      have hassert : circularLessThan (BitVec.ofNat e.bits (v.t * e.BLOCK_SIZE))
          st.prod.headIndex = false := by
        have hlen := h.len
        have htail := h.tail_le
        rw [h.headIndex]
        exact circularLessThan_ofNat_of_le e.bits_pos (by omega) h.window
      simp only [Explicit.allocateBlocks, h.nextBase, hassert, Bool.false_eq_true, if_false]
      obtain ⟨st₁, saved₁, ok, c₁, k₁, hroom, hstart, h₁, hok, hslot⟩ :=
        h.ensureRoomBulk mode saved fun hfull => (h.span hhead hfull).1
      simp only [hroom, bind_eq_bind, bind_some]
      -- the oldest block is not empty, so that the next one has to be inserted
      have htake : (v.means e st).takeMany e mode v.head (n + 1) =
          (if full e st.prod.headIndex (BitVec.ofNat e.bits (v.t * e.BLOCK_SIZE)) then none
            else (((v.means e st).slot e mode).bind (Budget.block e mode)).map fun b =>
              (⟨v.s, v.t + 1, true, b⟩ : Means)).bind (Means.takeMany e mode v.head n) := by
        rw [Means.takeMany, show (v.means e st).take e mode v.head = _ from
          if_neg fun hreuse => hhead.not_ge hreuse.2, h.headIndex]
        rfl
      rw [htake]
      cases ok with
      | false =>
          refine ⟨_, none, rfl, fun _ => ?_,
            fun _ _ hres => absurd hres.symm (some_ne_none _)⟩
          rcases hslot with hfull | hslot
          · rw [if_pos hfull]
            rfl
          · rw [hslot]
            simp
      | true =>
          obtain ⟨hfull, hlt, hindex⟩ := hok rfl
          obtain ⟨hspan, hsmall⟩ := h.span hhead hfull
          simp only [Bool.not_true, Bool.false_eq_true, if_false]
          cases hreq : st₁.mem.requisitionBlock e mode with
          | mk b mem' =>
              have hblock := block_requisitionBlock (e := e) st₁.mem mode k₁
              rw [hreq] at hblock
              rw [hfull, hslot.resolve_left (by rw [hfull]; exact Bool.false_ne_true), if_pos rfl,
                bind_some, hblock]
              cases b with
              | none => exact ⟨_, none, rfl, fun _ => rfl,
                  fun _ _ hres => absurd hres.symm (some_ne_none _)⟩
              | some b =>
                  have hr := Mem.requisitionBlock_spec h₁.ring.wellFormed hreq
                  obtain ⟨st₂, hpush, h₂, hmem₂⟩ :=
                    Taking.insert (v := { v with c := c₁, k := k₁ }) h₁ hspan hsmall hlt hindex hr
                  obtain ⟨st', res, hloop, hnone, hres⟩ := ih h₂ (.inr hhead) saved₁
                  have hmeans :
                      View.means e
                        { v with
                          β := update v.β v.t b, t := v.t + 1, c := c₁, k := k₁ } st₂ =
                        ⟨v.s, v.t + 1, true, budget e mem' k₁⟩ := by
                    obtain ⟨hdr₂, hindex₂⟩ := h₂.exists_index (Nat.lt_succ_of_le h.index.le)
                    rw [View.means, budget_onlyContents hmem₂, hindex₂.header]
                    rfl
                  rw [hmeans] at hnone hres
                  simp only [Bool.false_eq_true, if_false, map_some, bind_some]
                  refine ⟨st', res, ?_, hnone, fun saved' taken' hsome => ?_⟩
                  · rw [taken_update h₁.le] at hloop
                    simp only [hpush, bind_some]
                    exact hloop
                  · obtain ⟨β', c', k', hs, ht, h', hβ, htook⟩ := hres saved' taken' hsome
                    have hcount : v.t + 1 + n = v.t + (n + 1) := by omega
                    dsimp only at ht h' hβ htook
                    rw [hcount] at ht h' htook
                    refine ⟨β', c', k', hs.trans hstart, ht, h', fun q hq => ?_, htook⟩
                    rw [hβ q (Nat.lt_succ_of_lt hq)]
                    exact update_of_ne hq.ne ..

/-! ### Filling the blocks taken -/

/-- Resetting the blocks taken, from number `q` on. -/
theorem Ring.resetTaken {β : Nat → Nat} {s t head : Nat} {f : Nat → Option α}
    {p : ExplicitProducer e.bits} (hp : p.tailBlock = some (β (t - 1))) (fuel : Nat) {q : Nat}
    {mem : Mem α} (h : Ring e mem β s t f (takenMark e.BLOCK_SIZE head q)) (hs : s ≤ q)
    (hq : q < t) (hhead : head ≤ q * e.BLOCK_SIZE) (hfuel : t ≤ q + fuel) :
    ∃ mem', resetTaken e fuel (β q) ⟨mem, p⟩ = some ⟨mem', p⟩ ∧
      Ring e mem' β s t f (marked e.BLOCK_SIZE head) := by
  induction fuel generalizing q mem with
  | zero => omega
  | succ fuel ih =>
      have hreset : Ring e (mem.modify (β q) (Block.resetEmpty e.toTraits .explicitContext)) β s t
          f (takenMark e.BLOCK_SIZE head (q + 1)) := by
        refine (h.reset hs hq).congr (fun _ _ _ _ _ => rfl) fun r _ _ => ?_
        unfold takenMark
        by_cases hr : r = q
        · rw [hr, update_self, if_neg (by omega), marked_eq_zero hhead]
        · rw [update_of_ne hr]
          exact if_congr (by omega) rfl rfl
      by_cases hlast : q = t - 1
      · refine ⟨_, ?_, hreset.congr (fun _ _ _ _ _ => rfl) fun r _ hr => (if_neg (by omega)).symm⟩
        rw [Explicit.resetTaken]
        exact if_pos (by rw [hp, hlast])
      · have hne : some (β q) ≠ some (β (t - 1)) := fun heq =>
          hlast (h.inj q (t - 1) hs hq (by omega) (by omega) (Option.some.inj heq))
        have hle : q * e.BLOCK_SIZE ≤ (q + 1) * e.BLOCK_SIZE :=
          Nat.mul_le_mul_right _ (Nat.le_succ q)
        obtain ⟨mem', hloop, h'⟩ :=
          ih hreset (by omega) (by omega) (hhead.trans hle) (by omega)
        refine ⟨mem', ?_, h'⟩
        rw [Explicit.resetTaken]
        simp only [hp, if_neg hne, hreset.next hs (by omega), bind_eq_bind,
          bind_some, hloop]

theorem resetTaken_onlyContents {fuel b : Nat} {st' : State e.bits α}
    (h : resetTaken e fuel b st = some st') : OnlyContents st.mem st'.mem := by
  induction fuel generalizing b st with
  | zero => cases h
  | succ fuel ih =>
      rw [resetTaken] at h
      refine .trans (⟨_, rfl⟩ : OnlyContents st.mem
        (st.mem.modify b (Block.resetEmpty e.toTraits .explicitContext))) ?_
      split at h
      · obtain rfl := Option.some.inj h
        exact .refl _
      · rw [bind_eq_bind, bind_eq_some_iff] at h
        obtain ⟨next, -, h⟩ := h
        have hrest := ih h
        exact hrest

/-- The blocks are in place, and the tail can move up to the end of the last one. -/
structure Ready (e : Env) (st : State e.bits α) (v : View) (l : List α) : Prop where
  ring : Ring e st.mem v.β v.s v.t (slotAt v.head l) (marked e.BLOCK_SIZE v.head)
  index : IndexAt e st.prod v.β v.s v.s v.t v.c v.k
  tailIndex : st.prod.tailIndex = BitVec.ofNat e.bits v.tail
  headIndex : st.prod.headIndex = BitVec.ofNat e.bits v.head
  optimistic :
    st.prod.dequeueOptimisticCount - st.prod.dequeueOvercommit = st.prod.headIndex
  tailBlock : st.prod.tailBlock = if v.s < v.t then some (v.β (v.t - 1)) else none
  len : v.head + l.length = v.tail
  oldest : v.s * e.BLOCK_SIZE ≤ v.head
  tail_le : v.tail ≤ v.t * e.BLOCK_SIZE
  bound : (v.t - v.s) * e.BLOCK_SIZE ≤ 2 ^ (e.bits - 1)
  small : v.s < v.t → e.BLOCK_SIZE < 2 ^ (e.bits - 1)
  pos : 0 < v.tail

theorem Taking.ready (h : Taking e a t₀ st v l) (hlt : t₀ < v.t) :
    ∃ mem', resetTaken e (2 ^ e.bits) (v.β t₀) st = some { st with mem := mem' } ∧
      Ready e { st with mem := mem' } v l := by
  have hstart := h.start
  have hst : v.s < v.t := by omega
  have htail := h.tailBlock
  have hlen := h.len
  have hnew := h.newest.1
  have hle : v.t - v.s ≤ (v.t - v.s) * e.BLOCK_SIZE :=
    Nat.le_mul_of_pos_right _ e.BLOCK_SIZE_pos
  have hbound := h.bound
  have hhalf := e.two_pow_bits
  rw [if_pos hst] at htail
  obtain ⟨mem', hreset, hring⟩ := Ring.resetTaken htail (2 ^ e.bits) h.ring hstart hlt (by omega)
    (by omega)
  exact ⟨mem', hreset, { h with ring := hring, index := h.index.mono, tail_le := h.tail_le }⟩

theorem Ready.indexed (h : Ready e st v l) (hst : v.s < v.t) :
    st.prod.blockIndex.isSome = true := by
  obtain ⟨hdr, hindex⟩ := h.index.index.resolve_left fun hnone => hst.ne hnone.2.1
  rw [hindex.header]
  rfl

/-- Publishing the newest entry. -/
theorem Ready.exposeLast (h : Ready e st v l) (hst : v.s < v.t) :
    ∃ p, exposeLast e true st = some { st with prod := p } ∧
      Ready e { st with prod := p } v l ∧ Exposed e p v.t v.c v.k := by
  obtain ⟨hdr, hindex⟩ : ∃ hdr, Index e st.prod hdr v.β v.s v.t v.c v.k :=
    h.index.index.resolve_left fun hnone => hst.ne hnone.2.1
  have hfront : (st.prod.prBlockIndexFront - 1#e.bits) &&& (st.prod.prBlockIndexSize - 1#e.bits) =
      BitVec.ofNat e.bits ((v.c + (v.t - 1)) % 2 ^ v.k) := by
    rw [hindex.front, hindex.size, show v.c + v.t = v.c + (v.t - 1) + 1 by omega]
    exact slot_sub hindex.klt.le
  let hdr' := { hdr with
    front := (st.prod.prBlockIndexFront - 1#e.bits) &&& (st.prod.prBlockIndexSize - 1#e.bits) }
  refine ⟨{ st.prod with blockIndex := some hdr' }, ?_, { h with index := ?_ }, hdr', rfl, hfront⟩
  · simp only [Explicit.exposeLast, exposeFront, hindex.header, if_true, bind_eq_bind,
      bind_some]
    rfl
  · exact ⟨h.index.slots, h.index.size, h.index.klt, h.index.le, h.index.room, le_rfl,
      .inr ⟨hdr', ⟨rfl, hindex.klt, hindex.hsize, hindex.size, hindex.front, hindex.entries⟩⟩⟩

/-- Filling the blocks with the elements up to the first whose constructor throws. -/
theorem Ready.fill (h : Ready e st v l) {xs : List α} {ctor : Ctor} {m : Nat}
    (hlt : v.tail < v.t * e.BLOCK_SIZE)
    (hge : (v.t - 1) * e.BLOCK_SIZE ≤ v.tail + xs.length)
    (hle : v.tail + xs.length ≤ v.t * e.BLOCK_SIZE) (hm : m ≤ xs.length)
    (hquiet : ∀ j < m, ctor.throws j = false) (hstop : m = xs.length ∨ ctor.throws m = true) :
    ∃ mem', fillBlocks e ctor (BitVec.ofNat e.bits (v.tail + xs.length)) st.prod.tailBlock
        (2 ^ e.bits) (some (v.β (v.tail / e.BLOCK_SIZE))) st.prod.tailIndex 0 xs st.mem =
        some (BitVec.ofNat e.bits (v.tail + m),
          some (v.β (if m < xs.length then (v.tail + m) / e.BLOCK_SIZE else v.t - 1)), mem',
          decide (m < xs.length)) ∧
      Ring e mem' v.β v.s v.t (slotAt v.head (l ++ xs.take m)) (marked e.BLOCK_SIZE v.head) := by
  have hlen := h.len
  have hold := h.oldest
  have hbound := h.bound
  have hhalf := e.two_pow_bits
  have hspan : v.t - v.s ≤ (v.t - v.s) * e.BLOCK_SIZE :=
    Nat.le_mul_of_pos_right _ e.BLOCK_SIZE_pos
  have hq : v.tail / e.BLOCK_SIZE < v.t := Nat.div_lt_of_lt_mul (by rwa [Nat.mul_comm])
  have hs : v.s ≤ v.tail / e.BLOCK_SIZE :=
    (Nat.le_div_iff_mul_le e.BLOCK_SIZE_pos).mpr (by omega)
  have hst : v.s < v.t := by omega
  rw [h.tailBlock, if_pos hst, h.tailIndex]
  refine h.ring.fillBlocks (k := 0) (h.small hst) h.bound hge hle (2 ^ e.bits)
    (fun r _ hr => by rw [ringNext, if_pos hr]) hlen hs hq rfl rfl hm (fun j hj => ?_) ?_ (by omega)
  · rw [Nat.zero_add]
    exact hquiet j hj
  · rwa [Nat.zero_add]

/-- Undoing that. -/
theorem Ready.undo (h : Ready e st v l) (xs : List α) {mem : Mem α}
    (hle : v.tail + xs.length < v.t * e.BLOCK_SIZE)
    (hring : Ring e mem v.β v.s v.t (slotAt v.head (l ++ xs)) (marked e.BLOCK_SIZE v.head)) :
    ∃ mem', undoBlocks e (BitVec.ofNat e.bits (v.tail + xs.length))
        (some (v.β ((v.tail + xs.length) / e.BLOCK_SIZE))) (2 ^ e.bits) st.prod.tailIndex
        (some (v.β (v.tail / e.BLOCK_SIZE))) mem = some mem' ∧
      Ring e mem' v.β v.s v.t (slotAt v.head l) (marked e.BLOCK_SIZE v.head) := by
  have hlen := h.len
  have hold := h.oldest
  have hbound := h.bound
  have hhalf := e.two_pow_bits
  have hspan : v.t - v.s ≤ (v.t - v.s) * e.BLOCK_SIZE :=
    Nat.le_mul_of_pos_right _ e.BLOCK_SIZE_pos
  have hq : (v.tail + xs.length) / e.BLOCK_SIZE < v.t :=
    Nat.div_lt_of_lt_mul (by rwa [Nat.mul_comm])
  have hqs : v.tail / e.BLOCK_SIZE ≤ (v.tail + xs.length) / e.BLOCK_SIZE :=
    Nat.div_le_div_right (Nat.le_add_right ..)
  have hs : v.s ≤ v.tail / e.BLOCK_SIZE :=
    (Nat.le_div_iff_mul_le e.BLOCK_SIZE_pos).mpr (by omega)
  rw [h.tailIndex, ← cleared_slotAt_append v.head l xs, hlen]
  refine hring.undoBlocks (h.small (by omega)) h.bound hq (2 ^ e.bits)
    (fun r _ hr => by rw [ringNext, if_pos hr]) hs rfl rfl (fun j hj => ?_) (by omega)
  rw [slotAt, if_pos (by omega), List.getElem?_append_right (by omega)]
  congr 1
  omega

theorem Ready.inv (h : Ready e st v l) (hexp : Exposed e st.prod v.t v.c v.k)
    (hnew : v.t * e.BLOCK_SIZE < v.tail + e.BLOCK_SIZE) : Inv e st v l :=
  { h with exposed := fun _ => hexp, newest := ⟨h.tail_le, hnew⟩ }

/-- Publishing the entry and publishing the tail do not interfere. -/
theorem exposeLast_setTailIndex (cond : Bool) (i : BitVec e.bits) :
    exposeLast e cond (setTailIndex e i st) = (exposeLast e cond st).map (setTailIndex e i) := by
  unfold Explicit.exposeLast exposeFront
  cases cond with
  | false => rfl
  | true =>
      obtain ⟨mem, p⟩ := st
      cases hidx : p.blockIndex <;> simp [setTailIndex, hidx]

/-- The part after the allocations: the elements are appended, or a constructor
throws and what was constructed is destroyed again. -/
theorem Ready.constructAll (h : Ready e st v l) {xs : List α} (ctor : Ctor)
    {saved : Saved e.bits} {first : Option Nat}
    (hassert : ¬ (st.prod.tailIndex &&& e.blockMask = 0 ∧ first = none))
    (hstart : (if st.prod.tailIndex &&& e.blockMask = 0 then first else saved.startBlock) =
      some (v.β (v.tail / e.BLOCK_SIZE)))
    (hlt : v.tail < v.t * e.BLOCK_SIZE) (hge : (v.t - 1) * e.BLOCK_SIZE < v.tail + xs.length)
    (hle : v.tail + xs.length ≤ v.t * e.BLOCK_SIZE)
    (hexp : (!ctor.isNoexcept && first.isSome) = false → Exposed e st.prod v.t v.c v.k) :
    (∃ st' v', constructAll e ctor xs saved first st = some (st', .returned true) ∧
      Inv e st' v' (l ++ xs) ∧ v'.head = v.head ∧ v'.means e st' = v.means e st) ∨
    (∃ mem' j, constructAll e ctor xs saved first st =
        some (rollback e saved first { st with mem := mem' }, .threw) ∧
      j < xs.length ∧ ctor.throws j = true ∧
      Ring e mem' v.β v.s v.t (slotAt v.head l) (marked e.BLOCK_SIZE v.head)) := by
  have hlen := h.len
  have hold := h.oldest
  have hst : v.s < v.t := Nat.lt_of_mul_lt_mul_right (a := e.BLOCK_SIZE) (by omega)
  have hnew : v.t * e.BLOCK_SIZE < v.tail + xs.length + e.BLOCK_SIZE := by
    have : (v.t - 1) * e.BLOCK_SIZE + e.BLOCK_SIZE = v.t * e.BLOCK_SIZE := by
      rw [← Nat.succ_mul, Nat.succ_eq_add_one, Nat.sub_add_cancel (by omega)]
    omega
  obtain ⟨m, hm, hquiet, hstop⟩ := ctor.exists_stop xs.length
  obtain ⟨mem₁, hfill, hring⟩ := h.fill hlt hge.le hle hm hquiet hstop
  have hindex : st.prod.tailIndex + BitVec.ofNat e.bits xs.length =
      BitVec.ofNat e.bits (v.tail + xs.length) := by
    rw [h.tailIndex, BitVec.ofNat_add_ofNat]
  have hassert' : ¬ (st.prod.tailIndex &&& e.blockMask = 0 ∧ first = none ∧ xs.length ≠ 0) :=
    fun hc => hassert ⟨hc.1, hc.2.1⟩
  have hstart' : (if st.prod.tailIndex &&& e.blockMask = 0 ∧ first ≠ none then first
      else saved.startBlock) = some (v.β (v.tail / e.BLOCK_SIZE)) := by
    rw [← hstart]
    refine if_congr ⟨fun hc => hc.1, fun hc => ⟨hc, fun hnone => hassert ⟨hc, hnone⟩⟩⟩ rfl rfl
  simp only [Explicit.constructAll, if_neg hassert', hstart', hindex, hfill, bind_eq_bind,
    bind_some, decide_eq_true_eq, hstart]
  by_cases hmlen : m < xs.length
  · -- the element number `m` could not be constructed
    have htake : (xs.take m).length = m := by
      rw [List.length_take]
      omega
    obtain ⟨mem', hundo, hring'⟩ := h.undo (xs.take m) (by omega) hring
    rw [htake] at hundo
    refine .inr ⟨mem', m, ?_, hmlen, hstop.resolve_left (by omega), hring'⟩
    simp only [if_pos hmlen, rollback, hundo, bind_some]
  · obtain rfl : m = xs.length := by omega
    rw [List.take_length] at hring
    have hready : Ready e (setTailIndex e (BitVec.ofNat e.bits (v.tail + xs.length))
        { st with mem := mem₁ }) { v with tail := v.tail + xs.length } (l ++ xs) :=
      { h with
        ring := hring
        index := h.index.congr rfl rfl rfl rfl
        tailIndex := rfl
        len := by simp; omega
        tail_le := hle
        pos := Nat.lt_of_lt_of_le h.pos (Nat.le_add_right ..) }
    have htail := h.tailBlock
    rw [if_pos hst] at htail
    left
    simp only [if_neg hmlen, ← htail]
    cases hcond : (!ctor.isNoexcept && first.isSome) with
    | false =>
        exact ⟨_, _, rfl, hready.inv (hexp hcond) hnew, rfl,
          View.means_eq rfl rfl rfl rfl (.fillBlocks hfill)⟩
    | true =>
        obtain ⟨p, hlast, hready', hexposed⟩ := hready.exposeLast hst
        rw [exposeLast_setTailIndex] at hlast
        obtain ⟨st', hst', heq⟩ := Option.map_eq_some_iff.mp hlast
        have hsome : p.blockIndex.isSome = true := by
          obtain ⟨hdr, hhdr, -⟩ := hexposed
          rw [hhdr]
          rfl
        refine ⟨_, _, ?_, hready'.inv hexposed hnew, rfl, View.means_eq rfl rfl rfl
          (hsome.trans (h.indexed hst).symm) (.fillBlocks hfill)⟩
        rw [← heq]
        exact congrArg (Option.bind · fun s => some (setTailIndex e _ s, _)) hst'

/-! ### Failing -/

/-- How many blocks a call takes that enqueues `n` elements. -/
def blocksNeeded (e : Env) (st : State e.bits α) (n : Nat) : Nat :=
  (e.offset (st.prod.tailIndex - 1#e.bits) + n) / e.BLOCK_SIZE

/-- A new block with base `currentTailIndex` can be inserted. -/
def canInsert (e : Env) (mode : AllocationMode) (currentTailIndex : BitVec e.bits)
    (st : State e.bits α) : Bool :=
  !full e st.prod.headIndex currentTailIndex &&
    if indexFull e st then
      mode == .canAlloc && e.mallocOk st.mem.mallocs &&
        st.mem.blockAvailable e mode (st.mem.mallocs + 1)
    else st.mem.blockAvailable e mode st.mem.mallocs

/-- A bulk call that fails in this state does so at the first block it would
insert, after it has taken `r` blocks from ahead, and there is room on the index
for these `r` blocks besides those that were there. -/
def FailsClean (e : Env) (mode : AllocationMode) (n : Nat) (st : State e.bits α) : Prop :=
  let r := emptyAhead e st.mem (blocksNeeded e st n) st.prod.tailBlock none
  canInsert e mode (e.blockBase (st.prod.tailIndex - 1#e.bits) +
      BitVec.ofNat e.bits ((r + 1) * e.BLOCK_SIZE)) st = false ∧
    (r = 0 ∨ st.prod.prBlockIndexSlotsUsed.toNat + r ≤ st.prod.prBlockIndexSize.toNat)

instance (mode : AllocationMode) (n : Nat) : Decidable (FailsClean e mode n st) :=
  inferInstanceAs (Decidable (_ ∧ _))

/-- What a bulk call saves at its start. -/
def savedOf (e : Env) (st : State e.bits α) : Saved e.bits :=
  ⟨st.prod.tailBlock, st.prod.prBlockIndexFront, st.prod.prBlockIndexSlotsUsed⟩

theorem rollback_savedOf {mem : Mem α} :
    rollback e (savedOf e st) none { st with mem := mem } = { st with mem := mem } := by
  obtain ⟨-, ⟨_, _, _, _, tailBlock, _, _, _, _⟩⟩ := st
  cases tailBlock <;> rfl

/-- Without blocks taken, making room on the index is as in `enqueue`. -/
theorem Inv.ensureRoomBulk (h : Inv e st v l) (mode : AllocationMode)
    (hspan : (v.t + 1 - v.s) * e.BLOCK_SIZE ≤ 2 ^ (e.bits - 1)) :
    Explicit.ensureRoomBulk e mode false (savedOf e st) st =
      (Explicit.ensureRoom e mode st).map fun r => (r.1, savedOf e r.1, r.2) := by
  obtain ⟨mem, p⟩ := st
  unfold Explicit.ensureRoomBulk Explicit.ensureRoom
  rw [Bool.or_false]
  cases hfull : indexFull e (⟨mem, p⟩ : State e.bits α) with
  | false => rfl
  | true =>
      cases mode with
      | cannotAlloc => rfl
      | canAlloc =>
          have hk := h.index.double hfull hspan
          rcases newBlockIndex_spec h.index hk mem p.prBlockIndexSlotsUsed with
            ⟨-, h', -, hnew, -⟩ | ⟨-, hnew⟩
          · simp only [if_true, Bool.false_eq_true, if_false, savedOf, hnew, bind_eq_bind,
              bind_some, map_some, ← h.index.slots]
          · simp only [if_true, Bool.false_eq_true, if_false, savedOf, hnew, bind_eq_bind,
              bind_some, map_some]

theorem requisitionBlock_of_not_available {mem : Mem α} {mode : AllocationMode}
    (h : mem.blockAvailable e mode mem.mallocs = false) :
    ∃ n, mem.requisitionBlock e mode = (none, { mem with mallocs := n }) := by
  rw [← Mem.isSome_requisitionBlock] at h
  cases hreq : mem.requisitionBlock e mode with
  | mk b mem' =>
      rw [hreq] at h
      cases b with
      | some b => cases h
      | none =>
          obtain ⟨n, rfl⟩ := Mem.requisitionBlock_none hreq
          exact ⟨n, rfl⟩

theorem ensureRoomBulk_full (mode : AllocationMode) (saved : Saved e.bits) :
    ensureRoomBulk e mode true saved st = some (st, saved, false) := by
  unfold ensureRoomBulk
  rw [Bool.or_true, if_pos rfl]
  cases mode <;> rfl

/-- When there is room on the index, what is missing is a block. -/
theorem not_available_of_ensureRoom {st' : State e.bits α} {mode : AllocationMode}
    {i : BitVec e.bits} (hfull : full e st.prod.headIndex i = false)
    (hno : canInsert e mode i st = false) (hroom : ensureRoom e mode st = some (st', true)) :
    st'.mem.blockAvailable e mode st'.mem.mallocs = false := by
  unfold ensureRoom at hroom
  simp only [canInsert, hfull, Bool.not_false, Bool.true_and] at hno
  split at hroom
  case isFalse hidx =>
      cases hroom
      rwa [if_neg hidx] at hno
  case isTrue hidx =>
      rw [if_pos hidx] at hno
      cases mode with
      | cannotAlloc => cases (Prod.mk.inj (Option.some.inj hroom)).2
      | canAlloc =>
          cases hok : e.mallocOk st.mem.mallocs with
          | false =>
              simp only [newBlockIndex, Mem.malloc, hok] at hroom
              cases (Prod.mk.inj (Option.some.inj hroom)).2
          | true =>
              simp only [newBlockIndex, Mem.malloc, hok, bind_eq_bind] at hroom
              obtain ⟨new, -, hnew⟩ := bind_eq_some_iff.mp hroom
              cases hnew
              rw [hok] at hno
              exact hno

/-- Failing with no block taken: at most a new index stays. -/
theorem Inv.failsFirst (h : Inv e st v l) {n : Nat} {mode : AllocationMode}
    (hhead : v.head < v.s * e.BLOCK_SIZE + e.BLOCK_SIZE)
    (hno : canInsert e mode (BitVec.ofNat e.bits (v.t * e.BLOCK_SIZE)) st = false) :
    ∃ st' v', allocateBlocks e mode (n + 1) (savedOf e st) (v.taken e v.t) st =
      some (st', none) ∧ Inv e st' v' l := by
  have htaking := h.taking
  have hassert : circularLessThan (BitVec.ofNat e.bits (v.t * e.BLOCK_SIZE))
      st.prod.headIndex = false := by
    rw [h.headIndex]
    exact circularLessThan_ofNat_of_le e.bits_pos h.head_le h.window
  have hfirst : (v.taken e v.t).firstAllocatedBlock = none := if_neg (lt_irrefl _)
  simp only [allocateBlocks, htaking.nextBase, hassert, hfirst, Bool.false_eq_true, if_false]
  cases hfull : full e st.prod.headIndex (BitVec.ofNat e.bits (v.t * e.BLOCK_SIZE)) with
  | true =>
      refine ⟨st, v, ?_, h⟩
      simp only [ensureRoomBulk_full, bind_eq_bind, bind_some, Bool.not_false,
        if_true, Option.some.injEq, Prod.mk.injEq, and_true]
      exact rollback_savedOf
  | false =>
      have hspan := (htaking.span hhead hfull).1
      obtain ⟨st₁, ok, c', k', hroom, h₁, -⟩ := h.ensureRoom mode hspan
      simp only [h.ensureRoomBulk mode hspan, hroom, map_some, bind_eq_bind,
        bind_some]
      cases ok with
      | false =>
          have hback : rollback e (savedOf e st₁) none st₁ = st₁ := rollback_savedOf
          refine ⟨st₁, _, ?_, h₁⟩
          rw [Bool.not_false, if_pos rfl, hback]
      | true =>
          obtain ⟨i, hreq⟩ :=
            requisitionBlock_of_not_available (not_available_of_ensureRoom hfull hno hroom)
          simp only [Bool.not_true, Bool.false_eq_true, if_false, hreq]
          refine ⟨_, { v with c := c', k := k' }, rfl, ?_⟩
          rw [rollback_savedOf]
          exact h₁.setMallocs i

/-- Going back after blocks from ahead have been taken, none of whose entries
overwrote one of the index. -/
theorem Inv.rollback (h : Inv e st v l) {r : Nat} {β' : Nat → Nat} {st' : State e.bits α}
    (h' : Taking e v.s v.t st' (v.ahead r β') l) (hahead : Ahead st st') (hr : 0 < r)
    (hβ : ∀ q < v.t, β' q = v.β q) (hroom : v.t + r ≤ v.s + 2 ^ v.k) (first : Option Nat)
    (n : Nat) :
    Inv e (rollback e (savedOf e st) first
      { st' with mem := { st'.mem with mallocs := n } }) v l := by
  have hstart : v.s + r ≤ v.t := h'.start
  have hst : v.s < v.t := by omega
  have htail := h.tailBlock
  rw [if_pos hst] at htail
  obtain ⟨hdr, hindex⟩ := h'.exists_index (show v.s + r < v.t + r by omega)
  have hindex₀ := h.index
  obtain ⟨hdr₀, hheader₀, hfront₀⟩ := h.exposed hst
  have hp : (Explicit.rollback e (savedOf e st) first
      { st' with mem := { st'.mem with mallocs := n } }).prod =
        { st.prod with blockIndex := some hdr } := by
    have hprod := hahead.prod
    rw [hindex.header] at hprod
    simp only [Explicit.rollback, savedOf, htail]
    rw [hprod]
    simp
  have hfront : hdr.front = hdr₀.front := by
    have := hahead.header
    rw [hindex.header, hheader₀] at this
    exact Option.some.inj this
  obtain ⟨hdr₁, hindex₁⟩ := hindex₀.index.resolve_left fun hnone => hst.ne hnone.2.1
  refine ⟨?_, ⟨?_, ?_, hindex₀.klt, hindex₀.le, hindex₀.room, le_rfl, .inr ⟨hdr, ?_⟩⟩,
    fun _ => ⟨hdr, ?_, hfront.trans hfront₀⟩, ?_, ?_, ?_, ?_, h.len, h.oldest, h.newest, h.bound,
    h.small, h.pos⟩
  · show Ring e { st'.mem with mallocs := n } _ _ _ _ _
    rw [hahead.mem]
    exact h.ring.setMallocs n
  · rw [hp]
    exact hindex₀.slots
  · rw [hp]
    exact hindex₀.size
  · rw [hp]
    refine ⟨rfl, hindex₀.klt, hindex.hsize, hindex₀.size, hindex₁.front, fun q hsq hqt hlap => ?_⟩
    rw [← hβ q hqt]
    exact hindex.entries q hsq (show q < v.t + r by omega) (show v.t + r ≤ q + 2 ^ v.k by omega)
  · rw [hp]
  · rw [hp]
    exact h.tailIndex
  · rw [hp]
    exact h.headIndex
  · rw [hp]
    exact h.optimistic
  · rw [hp]
    exact h.tailBlock

/-- Failing at the first block to be inserted, after blocks from ahead. -/
theorem Inv.failsReused (h : Inv e st v l) {r n : Nat} {β' : Nat → Nat} {st' : State e.bits α}
    {mode : AllocationMode} (h' : Taking e v.s v.t st' (v.ahead r β') l) (hahead : Ahead st st')
    (hr : 0 < r) (hβ : ∀ q < v.t, β' q = v.β q) (hroom : v.t + r ≤ v.s + 2 ^ v.k)
    (hno : canInsert e mode (BitVec.ofNat e.bits ((v.t + r) * e.BLOCK_SIZE)) st = false) :
    ∃ st'', allocateBlocks e mode (n + 1) (savedOf e st) ((v.ahead r β').taken e v.t) st' =
      some (st'', none) ∧ Inv e st'' v l := by
  have hstart : v.s + r ≤ v.t := h'.start
  have hst : v.s < v.t := by omega
  have hp := hahead.prod
  have hhead : st'.prod.headIndex = st.prod.headIndex := by rw [hp]
  have hassert : circularLessThan (BitVec.ofNat e.bits ((v.t + r) * e.BLOCK_SIZE))
      st'.prod.headIndex = false := by
    rw [h'.headIndex]
    refine circularLessThan_ofNat_of_le e.bits_pos ?_ h'.window
    have hlen := h'.len
    have htail := h'.tail_le
    dsimp only [View.ahead] at hlen htail ⊢
    omega
  -- some entry of the index is free
  have hnotfull : ∀ x : State e.bits α, x.prod.blockIndex.isNone = st.prod.blockIndex.isNone →
      x.prod.prBlockIndexSlotsUsed = st.prod.prBlockIndexSlotsUsed →
      x.prod.prBlockIndexSize = st.prod.prBlockIndexSize → indexFull e x = false := by
    intro x hx hused hsize
    obtain ⟨hdr, hheader, -⟩ := h.exposed hst
    have hlt : 2 ^ v.k < 2 ^ e.bits := Nat.pow_lt_pow_right (by omega) h.index.klt
    rw [indexFull, hx, hused, hsize, hheader, h.index.slots, h.index.size]
    simp only [Option.isNone_some, Bool.false_or, beq_eq_false_iff_ne, ne_eq]
    rw [ofNat_inj (by omega) (by omega)]
    omega
  have hfullst : indexFull e st = false := hnotfull st rfl rfl rfl
  have hfullst' : indexFull e st' = false := by
    refine hnotfull st' ?_ (by rw [hp]) (by rw [hp])
    rw [← Option.isNone_map (f := (·.front)), hahead.header, Option.isNone_map]
  simp only [canInsert, hfullst, Bool.false_eq_true, if_false, ← hhead] at hno
  have hnext : ((v.ahead r β').taken e v.t).currentTailIndex + e.blockSize =
      BitVec.ofNat e.bits ((v.t + r) * e.BLOCK_SIZE) := h'.nextBase
  simp only [allocateBlocks, hnext, hassert, Bool.false_eq_true, if_false]
  have hundo := fun n => h.rollback h' hahead hr hβ hroom ((v.ahead r β').taken e v.t).2 n
  cases hfull : full e st'.prod.headIndex (BitVec.ofNat e.bits ((v.t + r) * e.BLOCK_SIZE)) with
  | true =>
      simp only [ensureRoomBulk_full, bind_eq_bind, bind_some, Bool.not_false,
        if_true]
      exact ⟨_, rfl, hundo st'.mem.mallocs⟩
  | false =>
      rw [hfull, Bool.not_false, Bool.true_and, ← hahead.mem] at hno
      obtain ⟨i, hreq⟩ := requisitionBlock_of_not_available hno
      simp only [Explicit.ensureRoomBulk, hfullst', Bool.or_false, Bool.false_eq_true, if_false,
        bind_eq_bind, bind_some, Bool.not_true, hreq]
      exact ⟨_, rfl, hundo i⟩

/-! ### The call -/

/-- The offset of the last index before the tail. -/
theorem Inv.tail_sub_one (h : Inv e st v l) :
    st.prod.tailIndex - 1#e.bits = BitVec.ofNat e.bits (v.tail - 1) ∧
      v.tail - 1 = (v.t - 1) * e.BLOCK_SIZE + e.offset (st.prod.tailIndex - 1#e.bits) := by
  have hpos := h.pos
  obtain ⟨h1, h2⟩ := h.newest
  have hsub : st.prod.tailIndex - 1#e.bits = BitVec.ofNat e.bits (v.tail - 1) := by
    rw [h.tailIndex, ofNat_sub hpos]
  have ht : 0 < v.t := Nat.pos_of_ne_zero fun h0 => by
    rw [h0, Nat.zero_mul] at h1
    omega
  have hmul : (v.t - 1) * e.BLOCK_SIZE + e.BLOCK_SIZE = v.t * e.BLOCK_SIZE := by
    rw [← Nat.succ_mul, Nat.succ_eq_add_one, Nat.sub_add_cancel ht]
  obtain ⟨d, hd⟩ : ∃ d, v.tail - 1 = (v.t - 1) * e.BLOCK_SIZE + d :=
    Nat.exists_eq_add_of_le (by omega)
  refine ⟨hsub, ?_⟩
  rw [hsub, Traits.offset_ofNat, hd, block_mod (by omega)]

/-- Where the blocks of the call start, and how many there are. -/
theorem Inv.blockBaseDiff (h : Inv e st v l) {n : Nat} (hn : Fits e st.prod.tailIndex n) :
    e.blockBase (st.prod.tailIndex - 1#e.bits) =
        BitVec.ofNat e.bits ((v.t - 1) * e.BLOCK_SIZE) ∧
      e.blockBase (st.prod.tailIndex + BitVec.ofNat e.bits n - 1#e.bits) -
          e.blockBase (st.prod.tailIndex - 1#e.bits) =
        BitVec.ofNat e.bits (blocksNeeded e st n * e.BLOCK_SIZE) ∧
      blocksNeeded e st n * e.BLOCK_SIZE < 2 ^ e.bits := by
  obtain ⟨hsub, hdecomp⟩ := h.tail_sub_one
  have hB := e.BLOCK_SIZE_pos
  have hmod : e.offset (st.prod.tailIndex - 1#e.bits) < e.BLOCK_SIZE := by
    rw [hsub, Traits.offset_ofNat]
    exact Nat.mod_lt _ hB
  have hbase : e.blockBase (st.prod.tailIndex - 1#e.bits) =
      BitVec.ofNat e.bits ((v.t - 1) * e.BLOCK_SIZE) := by
    rw [hsub, Traits.blockBase_ofNat, hdecomp, block_div hmod]
  refine ⟨hbase, ?_, (Nat.div_mul_le_self _ _).trans_lt hn⟩
  have hend : st.prod.tailIndex + BitVec.ofNat e.bits n - 1#e.bits =
      BitVec.ofNat e.bits ((v.t - 1) * e.BLOCK_SIZE +
        (e.offset (st.prod.tailIndex - 1#e.bits) + n)) := by
    have hpos := h.pos
    have hsum : v.tail + n - 1 = (v.t - 1) * e.BLOCK_SIZE +
        (e.offset (st.prod.tailIndex - 1#e.bits) + n) := by omega
    rw [← hsum, h.tailIndex, BitVec.ofNat_add_ofNat, ofNat_sub (by omega)]
  rw [hbase, hend, Traits.blockBase_ofNat, ofNat_sub]
  · congr 1
    rw [Nat.mul_comm (v.t - 1), Nat.mul_add_div hB, Nat.add_mul, Nat.mul_comm e.BLOCK_SIZE,
      Nat.add_sub_cancel_left]
    rfl
  · exact Nat.mul_le_mul_right _ ((Nat.le_div_iff_mul_le hB).mpr (Nat.le_add_right ..))

/-- The blocks of the call end where they should. -/
theorem Inv.blocksNeeded (h : Inv e st v l) (n : Nat) :
    (v.t - 1 + blocksNeeded e st n) * e.BLOCK_SIZE < v.tail + n ∧
      v.tail + n ≤ (v.t + blocksNeeded e st n) * e.BLOCK_SIZE := by
  obtain ⟨-, hdecomp⟩ := h.tail_sub_one
  have hpos := h.pos
  have hadd := block_add e.BLOCK_SIZE (e.offset (st.prod.tailIndex - 1#e.bits) + n)
  have hmod := Nat.mod_lt (e.offset (st.prod.tailIndex - 1#e.bits) + n) e.BLOCK_SIZE_pos
  have ht : 0 < v.t := Nat.pos_of_ne_zero fun h0 => by
    have h1 := h.newest.1
    rw [h0, Nat.zero_mul] at h1
    omega
  have hmul : v.t * e.BLOCK_SIZE = (v.t - 1) * e.BLOCK_SIZE + e.BLOCK_SIZE := by
    rw [← Nat.succ_mul, Nat.succ_eq_add_one, Nat.sub_add_cancel ht]
  rw [Explicit.blocksNeeded, Nat.add_mul, Nat.add_mul, hmul]
  omega

theorem Inv.blocksNeeded_eq (h : Inv e st v l) (n : Nat) :
    Explicit.blocksNeeded e st n = v.needed e n := by
  obtain ⟨hge, hle⟩ := h.blocksNeeded n
  have hpos := h.taking.t_pos
  rw [show v.t + Explicit.blocksNeeded e st n = v.t - 1 + Explicit.blocksNeeded e st n + 1 by
    omega] at hle
  have hdiv : (v.tail + n - 1) / e.BLOCK_SIZE = v.t - 1 + Explicit.blocksNeeded e st n :=
    Nat.div_eq_of_lt_le (by omega) (by omega)
  rw [View.needed, hdiv]
  omega

/-- An empty call changes nothing. -/
theorem Inv.constructAll_nil (h : Inv e st v l) (hB : e.BLOCK_SIZE < 2 ^ (e.bits - 1))
    (ctor : Ctor) :
    constructAll e ctor [] (savedOf e st) none st = some (st, .returned true) := by
  have hzero : st.prod.tailIndex + 0#e.bits = st.prod.tailIndex := BitVec.add_zero _
  have hadd := block_add e.BLOCK_SIZE v.tail
  have hstop : stopIndex e st.prod.tailIndex st.prod.tailIndex = st.prod.tailIndex := by
    rw [h.tailIndex, stopIndex_ofNat hB rfl le_rfl (by
      have := Nat.mod_lt v.tail e.BLOCK_SIZE_pos
      omega), Nat.min_eq_left]
    have := Nat.mod_lt v.tail e.BLOCK_SIZE_pos
    omega
  obtain ⟨fuel, hfuel⟩ : ∃ fuel, 2 ^ e.bits = fuel + 1 :=
    ⟨2 ^ e.bits - 1, by have := Nat.two_pow_pos e.bits; omega⟩
  have hfill : fillBlocks e ctor st.prod.tailIndex st.prod.tailBlock (2 ^ e.bits)
      st.prod.tailBlock st.prod.tailIndex 0 [] st.mem =
        some (st.prod.tailIndex, st.prod.tailBlock, st.mem, false) := by
    rw [hfuel, fillBlocks, hstop, BitVec.sub_self]
    simp [fillBlock]
  simp only [constructAll, savedOf, List.length_nil, hzero, ne_eq, not_true_eq_false, and_false,
    if_false, hfill, bind_eq_bind, bind_some, Bool.false_eq_true, Option.isSome_none,
    exposeLast, Bool.and_false]
  rfl

/-- A call that takes no block and throws touches elements of the tail block only. -/
theorem constructAll_onlyElements {ctor : Ctor} {xs : List α} {saved : Saved e.bits} {b : Nat}
    {st' : State e.bits α} (hal : st.prod.tailIndex &&& e.blockMask ≠ 0)
    (hstart : saved.startBlock = some b) (htail : st.prod.tailBlock = some b)
    (h : constructAll e ctor xs saved none st = some (st', .threw)) :
    OnlyElements e b st.mem st'.mem := by
  unfold constructAll at h
  simp only [hal, hstart, htail, false_and, if_false, bind_eq_bind,
    bind_eq_some_iff] at h
  obtain ⟨⟨i, tailBlock, mem₁, threw⟩, hfill, h⟩ := h
  obtain ⟨rfl, hmem₁⟩ := OnlyElements.fillBlocks hfill
  cases threw with
  | false => simp [bind_eq_some_iff] at h
  | true =>
      rw [if_pos rfl, bind_eq_some_iff] at h
      obtain ⟨mem', hundo, h⟩ := h
      cases h
      exact hmem₁.trans (OnlyElements.undoBlocks hundo)

theorem Inv.enqueueBulk_noBlock (h : Inv e st v l) (ctor : Ctor) (xs : List α)
    (hcorner : xs = [] → e.BLOCK_SIZE < 2 ^ (e.bits - 1))
    (hneed : Explicit.blocksNeeded e st xs.length = 0) :
    (∃ st' v', constructAll e ctor xs (savedOf e st) none st = some (st', .returned true) ∧
      Inv e st' v' (l ++ xs) ∧ v'.head = v.head ∧ v'.means e st' = v.means e st) ∨
    (constructAll e ctor xs (savedOf e st) none st = some (st, .threw) ∧
      ∃ j < xs.length, ctor.throws j = true) := by
  by_cases hxs : xs = []
  · subst hxs
    exact .inl ⟨st, v, h.constructAll_nil (hcorner rfl) ctor, by simpa using h, rfl, rfl⟩
  · have hlen : 0 < xs.length := List.length_pos_iff.mpr hxs
    obtain ⟨hge, hle⟩ := h.blocksNeeded xs.length
    rw [hneed, Nat.add_zero] at hge hle
    have hne : v.tail ≠ v.t * e.BLOCK_SIZE := by omega
    obtain ⟨hst, hdiv⟩ := h.tail_div hne
    have hmask : ¬ st.prod.tailIndex &&& e.blockMask = 0 := fun hc => hne (h.and_blockMask.mp hc)
    have hready : Ready e st v l := { h with tail_le := h.newest.1 }
    have hstart : (if st.prod.tailIndex &&& e.blockMask = 0 then none
        else (savedOf e st).startBlock) = some (v.β (v.tail / e.BLOCK_SIZE)) := by
      rw [if_neg hmask, hdiv, savedOf, h.tailBlock, if_pos hst]
    rcases hready.constructAll ctor (fun hc => hmask hc.1) hstart (by omega) hge hle
      (fun _ => h.exposed hst) with hok | ⟨mem', j, hthrew, hj, hthrow, hring⟩
    · exact .inl hok
    · rw [rollback_savedOf] at hthrew
      have htail := h.tailBlock
      rw [if_pos hst] at htail
      have hsame : mem' = st.mem := (constructAll_onlyElements hmask htail htail hthrew).eq
        fun i hi => by
          have hnew := hring.slot (v.t - 1) i (by omega) (by omega) hi
          rw [hnew, h.ring.slot (v.t - 1) i (by omega) (by omega) hi]
      rw [hsame] at hthrew
      exact .inr ⟨hthrew, j, hj, hthrow⟩

/-- The blocks taken are filled. -/
theorem Taking.finish (h : Taking e a t₀ st v l) {xs : List α} (ctor : Ctor)
    {saved : Saved e.bits} (hlt : t₀ < v.t)
    (hstart : v.tail ≠ t₀ * e.BLOCK_SIZE → saved.startBlock = some (v.β (t₀ - 1)))
    (hge : (v.t - 1) * e.BLOCK_SIZE < v.tail + xs.length)
    (hle : v.tail + xs.length ≤ v.t * e.BLOCK_SIZE) :
    ∃ st₁ st₂, resetTaken e (2 ^ e.bits) (v.β t₀) st = some st₁ ∧
      exposeLast e ctor.isNoexcept st₁ = some st₂ ∧
      ((∃ st' v', constructAll e ctor xs saved (v.first t₀) st₂ = some (st', .returned true) ∧
        Inv e st' v' (l ++ xs) ∧ v'.head = v.head ∧ v'.means e st' = v.means e st) ∨
      (∃ st' j, constructAll e ctor xs saved (v.first t₀) st₂ = some (st', .threw) ∧
        j < xs.length ∧ ctor.throws j = true)) := by
  have hst : v.s < v.t := lt_of_le_of_lt h.start hlt
  obtain ⟨mem₁, hreset, hready₁⟩ := h.ready hlt
  obtain ⟨st₂, hlast, hready, hexp, hmem₂⟩ : ∃ st₂,
      exposeLast e ctor.isNoexcept { st with mem := mem₁ } = some st₂ ∧ Ready e st₂ v l ∧
        (ctor.isNoexcept = true → Exposed e st₂.prod v.t v.c v.k) ∧ st₂.mem = mem₁ := by
    cases ctor.isNoexcept with
    | false => exact ⟨_, rfl, hready₁, nofun, rfl⟩
    | true =>
        obtain ⟨p, hlast, hready, hexposed⟩ := hready₁.exposeLast hst
        exact ⟨_, hlast, hready, fun _ => hexposed, rfl⟩
  have hfirst : v.first t₀ = some (v.β t₀) := if_pos hlt
  have hnew := h.newest
  have hB := e.BLOCK_SIZE_pos
  have hmask : st₂.prod.tailIndex &&& e.blockMask = 0 ↔ v.tail = t₀ * e.BLOCK_SIZE := by
    rw [hready.tailIndex, e.and_blockMask_eq_zero]
    exact mod_eq_zero_iff hnew.1 hnew.2
  refine ⟨_, st₂, hreset, hlast, ?_⟩
  have hblock : (if st₂.prod.tailIndex &&& e.blockMask = 0 then v.first t₀
      else saved.startBlock) = some (v.β (v.tail / e.BLOCK_SIZE)) := by
    by_cases hal : v.tail = t₀ * e.BLOCK_SIZE
    · rw [if_pos (hmask.mpr hal), hfirst, hal, Nat.mul_div_cancel _ hB]
    · rw [if_neg (mt hmask.mp hal), hstart hal, div_eq_sub_one (by omega) hnew.2]
  rcases hready.constructAll ctor (fun hc => by rw [hfirst] at hc; cases hc.2) hblock
    (lt_of_le_of_lt hnew.1 (Nat.mul_lt_mul_of_pos_right hlt hB)) hge hle
    (fun hcond => hexp (by simpa [hfirst] using hcond)) with hok | ⟨mem', j, hthrew, hj, hthrow, -⟩
  · obtain ⟨st', v', hok, hinv, hhead, hmeans⟩ := hok
    refine .inl ⟨st', v', hok, hinv, hhead, hmeans.trans (View.means_eq rfl rfl rfl ?_ ?_)⟩
    · obtain ⟨hdr, hindex⟩ := h.exists_index hst
      rw [hready.indexed hst, hindex.header]
      rfl
    · rw [hmem₂]
      exact resetTaken_onlyContents hreset
  · exact .inr ⟨_, j, hthrew, hj, hthrow⟩

/-- **Bulk enqueue**: the elements are appended, or the queue is as before,
provided that a failure is clean and that a call that throws takes no block. -/
theorem Inv.enqueueBulk (h : Inv e st v l) (mode : AllocationMode) (ctor : Ctor) (xs : List α)
    (hfits : Fits e st.prod.tailIndex xs.length)
    (hcorner : xs = [] → e.BLOCK_SIZE < 2 ^ (e.bits - 1)) :
    ∃ st' r, enqueueBulk e mode ctor xs st = some (st', r) ∧
      (r = .returned true → ∃ v', Inv e st' v' (l ++ xs) ∧ v'.head = v.head ∧
        (v.means e st).takeMany e mode v.head (v.needed e xs.length) = some (v'.means e st')) ∧
      (r = .returned false → (FailsClean e mode xs.length st → ∃ v', Inv e st' v' l) ∧
        (v.means e st).takeMany e mode v.head (v.needed e xs.length) = none) ∧
      (r = .threw → (∃ j < xs.length, ctor.throws j = true) ∧
        (Explicit.blocksNeeded e st xs.length = 0 → st' = st)) := by
  obtain ⟨hbase, hdiff, hlt⟩ := h.blockBaseDiff hfits
  rw [← h.blocksNeeded_eq]
  simp only [Explicit.enqueueBulk, hdiff]
  by_cases hneed : Explicit.blocksNeeded e st xs.length = 0
  · rw [hneed, Nat.zero_mul, if_pos rfl]
    rcases h.enqueueBulk_noBlock ctor xs hcorner hneed with ⟨st', v', hok, hinv, hhead, hmeans⟩ |
      ⟨hthrew, hthrow⟩
    · exact ⟨st', _, hok, fun _ => ⟨v', hinv, hhead, by rw [hmeans]; rfl⟩, nofun, nofun⟩
    · exact ⟨_, _, hthrew, nofun, nofun, fun _ => ⟨hthrow, fun _ => rfl⟩⟩
  · have hB := e.BLOCK_SIZE_pos
    have htoNat : (BitVec.ofNat e.bits (Explicit.blocksNeeded e st xs.length *
        e.BLOCK_SIZE)).toNat = Explicit.blocksNeeded e st xs.length * e.BLOCK_SIZE := by
      rw [BitVec.toNat_ofNat, Nat.mod_eq_of_lt hlt]
    have hne : BitVec.ofNat e.bits (Explicit.blocksNeeded e st xs.length * e.BLOCK_SIZE) ≠
        0#e.bits := fun hzero => by
      rw [hzero] at htoNat
      have := Nat.mul_pos (Nat.pos_of_ne_zero hneed) hB
      simp at htoNat
      omega
    rw [if_neg hne, htoNat, Nat.mul_div_cancel _ hB, hbase]
    have hfirst : v.first v.t = none := if_neg (lt_irrefl _)
    obtain ⟨n', r, st₁, β₁, hreuse, hn, hr, h₁, hahead, hsame, hβ₁, hend, htaken⟩ :=
      h.taking.reuseAhead (Explicit.blocksNeeded e st xs.length)
    rw [View.taken, hfirst] at hreuse
    obtain ⟨st₂, res, halloc, hnone, hres⟩ := h₁.allocateBlocks hend mode (savedOf e st)
    simp only [hreuse, bind_eq_bind, bind_some]
    have halloc' := halloc
    rw [savedOf] at halloc'
    simp only [halloc', bind_some]
    cases res with
    | none =>
        refine ⟨st₂, _, rfl, nofun, fun _ => ⟨fun hclean => ?_, (htaken mode).trans (hnone rfl)⟩,
          nofun⟩
        rw [FailsClean, ← hfirst, ← hr, hbase, BitVec.ofNat_add_ofNat, ← Nat.add_mul,
          show v.t - 1 + (r + 1) = v.t + r by have := h.taking.t_pos; omega] at hclean
        obtain ⟨hno, hroom⟩ := hclean
        cases n' with
        | zero => cases (Prod.mk.inj (Option.some.inj halloc)).2
        | succ n' =>
            rcases Nat.eq_zero_or_pos r with rfl | hpos
            · obtain rfl := hsame rfl
              have hstart : (v.ahead 0 β₁).taken e v.t = v.taken e v.t := by
                simp [View.taken, View.ahead, View.first]
              obtain ⟨st', v', hfail, hinv⟩ :=
                h.failsFirst (n := n') (hend.resolve_left (Nat.succ_ne_zero n')) hno
              rw [hstart, hfail] at halloc
              cases halloc
              exact ⟨v', hinv⟩
            · have hroom : v.t + r ≤ v.s + 2 ^ v.k := by
                have hle := h.index.room
                have hlt : 2 ^ v.k < 2 ^ e.bits := Nat.pow_lt_pow_right (by omega) h.index.klt
                have := hroom.resolve_left (by omega)
                rw [h.index.slots, h.index.size, BitVec.toNat_ofNat, BitVec.toNat_ofNat,
                  Nat.mod_eq_of_lt (by omega), Nat.mod_eq_of_lt hlt] at this
                omega
              obtain ⟨st', hfail, hinv⟩ := h.failsReused (n := n') h₁ hahead hpos hβ₁ hroom hno
              rw [hfail] at halloc
              cases halloc
              exact ⟨v, hinv⟩
    | some res =>
        obtain ⟨saved', taken'⟩ := res
        obtain ⟨β₂, c₂, k₂, hstart, rfl, h₂, hβ₂, htook⟩ := hres saved' taken' rfl
        obtain ⟨hge, hle⟩ := h.blocksNeeded xs.length
        have hcount : v.t + r + n' = v.t + Explicit.blocksNeeded e st xs.length := by omega
        have hpos := h.taking.t_pos
        have hlt : v.t < v.t + r + n' := by omega
        have hstart' : v.tail ≠ v.t * e.BLOCK_SIZE → saved'.startBlock = some (β₂ (v.t - 1)) := by
          intro hne
          obtain ⟨hst, -⟩ := h.tail_div hne
          rw [hβ₂ (v.t - 1) (show v.t - 1 < v.t + r by omega)]
          show _ = some (β₁ (v.t - 1))
          rw [hβ₁ (v.t - 1) (by omega), hstart, savedOf, h.tailBlock, if_pos hst]
        have hge' : (v.t + r + n' - 1) * e.BLOCK_SIZE < v.tail + xs.length := by
          rwa [show v.t + r + n' - 1 = v.t - 1 + Explicit.blocksNeeded e st xs.length by omega]
        obtain ⟨st₃, st₄, hreset, hlast, hfinish⟩ := h₂.finish ctor hlt hstart' hge'
          (show v.tail + xs.length ≤ (v.t + r + n') * e.BLOCK_SIZE by rwa [hcount])
        have hsome : View.first ⟨β₂, v.s + r, v.t + r + n', c₂, k₂, v.tail, v.head⟩ v.t =
            some (β₂ v.t) := if_pos hlt
        simp only [View.taken, View.ahead, hsome, bind_some, hreset, hlast] at hfinish ⊢
        rcases hfinish with ⟨st', v', hok, hinv, hhead, hmeans⟩ | ⟨st', j, hthrew, hj, hthrow⟩
        · refine ⟨st', _, hok, fun _ => ⟨v', hinv, hhead, ?_⟩, nofun, nofun⟩
          rw [htaken mode, hmeans]
          exact htook
        · exact ⟨st', _, hthrew, nofun, nofun, fun _ =>
            ⟨⟨j, hj, hthrow⟩, fun hzero => absurd hzero hneed⟩⟩

end ConcurrentQueue.Explicit
