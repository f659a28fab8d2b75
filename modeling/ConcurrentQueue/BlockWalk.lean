import ConcurrentQueue.Elements

/-!
# ConcurrentQueue.BlockWalk

**The loops of a bulk dequeue**, for both kinds of producers: a claimed range is gone through
block by block. The elements of a block are moved out, their slots are marked, and the index
says which block is next. If an assignment throws, the catch block goes on where the loop
stopped: what the loop would still have moved out it destroys, and then it marks and gives
back blocks as the loop would have. So **a loop that throws ends in the state of one that does
not**, whichever assignment throws; only the values after that one are lost.
-/

namespace ConcurrentQueue

open Option (bind_eq_bind bind_eq_some_iff bind_some)

variable {α σ : Type} {e : Env}

/-! ### In one block -/

/-- Moving out without a throw is destroying. -/
theorem moveOut_none (b n : Nat) (i : BitVec e.bits) (k : Nat) (mem : Mem α) :
    moveOut e none b n i k mem = (destroyRange e b n i mem).map fun (xs, mem') =>
      (i + BitVec.ofNat e.bits n, xs, mem', false) := by
  induction n generalizing i k mem with
  | zero => simp [moveOut, destroyRange]
  | succ n ih =>
      have hnext : i + 1#e.bits + BitVec.ofNat e.bits n = i + BitVec.ofNat e.bits (n + 1) := by
        rw [BitVec.add_assoc, BitVec.ofNat_add_ofNat, Nat.add_comm 1 n]
      rw [moveOut, destroyRange, if_neg (Option.some_ne_none k).symm]
      simp only [ih, hnext, bind_eq_bind, Option.map_bind, Option.bind_map, Function.comp_def,
        Option.map_some]

theorem length_destroyRange {b n : Nat} {i : BitVec e.bits} {xs : List α} {mem mem' : Mem α}
    (h : destroyRange e b n i mem = some (xs, mem')) : xs.length = n := by
  induction n generalizing i xs mem with
  | zero =>
      obtain ⟨rfl, -⟩ := by simpa [destroyRange] using h
      rfl
  | succ n ih =>
      simp only [destroyRange, bind_eq_bind, bind_eq_some_iff] at h
      obtain ⟨⟨x, b'⟩, -, ⟨ys, mem₁⟩, hrest, h⟩ := h
      obtain ⟨rfl, rfl⟩ := by simpa using h
      rw [List.length_cons, ih hrest]

/-- A throw at element `r`, and the rest of the block destroyed. -/
theorem moveOut_throw {b n : Nat} {i : BitVec e.bits} {k r : Nat} {xs : List α}
    {mem mem' : Mem α} (h : destroyRange e b n i mem = some (xs, mem')) (hr : r < n) :
    ∃ mem₁, moveOut e (some (k + r)) b n i k mem =
        some (i + BitVec.ofNat e.bits r, xs.take r, mem₁, true) ∧
      destroyRange e b (n - r) (i + BitVec.ofNat e.bits r) mem₁ = some (xs.drop r, mem') := by
  induction n generalizing i k r xs mem with
  | zero => omega
  | succ n ih =>
      have hall := h
      simp only [destroyRange, bind_eq_bind, bind_eq_some_iff] at h
      obtain ⟨⟨x, b'⟩, hdestroy, ⟨ys, mem₁⟩, hrest, h⟩ := h
      obtain ⟨rfl, rfl⟩ := by simpa using h
      cases r with
      | zero =>
          refine ⟨mem, ?_, by simpa using hall⟩
          have hlive : ∃ y, (mem.blocks b).elements (e.offset i) = some y := by
            unfold Block.destroyAt at hdestroy
            split at hdestroy
            · exact ⟨_, ‹_›⟩
            · cases hdestroy
          obtain ⟨y, hy⟩ := hlive
          rw [moveOut, if_pos (by simp), hy]
          simp
      | succ r =>
          obtain ⟨mem₂, hmove, hrange⟩ := ih (k := k + 1) hrest (r := r) (by omega)
          have hnext : i + BitVec.ofNat e.bits (r + 1) =
              i + 1#e.bits + BitVec.ofNat e.bits r := by
            rw [BitVec.add_assoc, BitVec.ofNat_add_ofNat, Nat.add_comm 1 r]
          rw [hnext, Nat.add_sub_add_right]
          refine ⟨mem₂, ?_, hrange⟩
          rw [show k + (r + 1) = k + 1 + r by omega, moveOut,
            if_neg (by simp only [Option.some.injEq]; omega)]
          simp only [hdestroy, hmove, bind_eq_bind, bind_some, List.take_succ_cons]

/-- A throw that comes later. -/
theorem moveOut_quiet {throwsAt : Option Nat} {b n : Nat} {i : BitVec e.bits} {k : Nat}
    {mem : Mem α} (h : ∀ j < n, throwsAt ≠ some (k + j)) :
    moveOut e throwsAt b n i k mem = moveOut e none b n i k mem := by
  induction n generalizing i k mem with
  | zero => rfl
  | succ n ih =>
      have hfirst : throwsAt ≠ some k := h 0 (Nat.succ_pos n)
      rw [moveOut, moveOut, if_neg hfirst, if_neg (Option.some_ne_none k).symm]
      refine Option.bind_congr fun r _ => ?_
      dsimp only
      rw [ih fun j hj => by rw [Nat.add_assoc, Nat.add_comm 1 j]; exact h (j + 1) (by omega)]

/-- What is left of a range after `r` of its elements. -/
theorem toNat_sub_ofNat {w r : Nat} {i stop : BitVec w} (hr : r ≤ (stop - i).toNat) :
    (stop - (i + BitVec.ofNat w r)).toNat = (stop - i).toNat - r := by
  have hlt := (stop - i).isLt
  have hsub : stop - (i + BitVec.ofNat w r) = stop - i - BitVec.ofNat w r := by
    simp only [BitVec.sub_eq_add_neg, BitVec.neg_add, BitVec.add_assoc]
  have hval : (BitVec.ofNat w r).toNat = r := by
    rw [BitVec.toNat_ofNat, Nat.mod_eq_of_lt (by omega)]
  rw [hsub, BitVec.toNat_sub_of_le (by rw [BitVec.le_def, hval]; exact hr), hval]

/-! ### Block by block -/

/-- What the loops need from a producer, on states `σ`: the block that a slot of the index
stands for, how slots of a block are marked empty, and the slot that comes next. -/
structure Walk (e : Env) (α σ : Type) where
  mem : σ → Mem α
  setMem : Mem α → σ → σ
  block : BitVec e.bits → σ → Option Nat
  markMany : BitVec e.bits → Nat → BitVec e.bits → BitVec e.bits → σ → Option σ
  nextSlot : BitVec e.bits → σ → Option (BitVec e.bits)
  mem_setMem : ∀ m s, mem (setMem m s) = m
  setMem_setMem : ∀ m m' s, setMem m (setMem m' s) = setMem m s
  block_setMem : ∀ slot m s, block slot (setMem m s) = block slot s

namespace Walk

section Loops

variable (W : Walk e α σ)

/-- The catch block's loop: destroy what is left of the claimed range and mark it
empty, until the index is one that `ends` the loop. -/
def dropBlocksUntil (ends : BitVec e.bits → Bool) (last : BitVec e.bits) :
    Nat → BitVec e.bits → BitVec e.bits → BitVec e.bits → BitVec e.bits → σ → Option σ
  | 0, _, _, _, _, _ => none
  | fuel + 1, slot, blockStartIndex, index, endIndex, s => do
      let block ← W.block slot s
      let (_, mem) ← destroyRange e block (endIndex - index).toNat index (W.mem s)
      let s ← W.markMany slot block blockStartIndex endIndex (W.setMem mem s)
      if ends endIndex then some s
      else do
        let slot ← W.nextSlot slot s
        dropBlocksUntil ends last fuel slot endIndex endIndex (stopIndex e endIndex last) s

/-- Iterate the blocks and dequeue, up to the index `last`; the loop is left at an index that
`ends` it. The catch block's loop has fuel of its own. -/
def drainBlocksUntil (ends : BitVec e.bits → Bool) (dropFuel : Nat) (throwsAt : Option Nat)
    (last : BitVec e.bits) :
    Nat → BitVec e.bits → BitVec e.bits → Nat → σ → Option (List α × σ × Bool)
  | 0, _, _, _, _ => none
  | fuel + 1, slot, index, k, s => do
      let endIndex := stopIndex e index last
      let block ← W.block slot s
      let (i, xs, mem, threw) ← moveOut e throwsAt block (endIndex - index).toNat index k (W.mem s)
      if threw then do
        let s ← W.dropBlocksUntil ends last dropFuel slot index i endIndex (W.setMem mem s)
        some (xs, s, true)
      else do
        let s ← W.markMany slot block index endIndex (W.setMem mem s)
        if ends endIndex then some (xs, s, false)
        else do
          let slot ← W.nextSlot slot s
          let (ys, s, threw) ← drainBlocksUntil ends dropFuel throwsAt last fuel slot endIndex
            (k + xs.length) s
          some (xs ++ ys, s, threw)

/-- The loop where all sums wrap as an `index_t` does. -/
def drainBlocks (throwsAt : Option Nat) (last : BitVec e.bits) :
    Nat → BitVec e.bits → BitVec e.bits → Nat → σ → Option (List α × σ × Bool) :=
  W.drainBlocksUntil (fun index => decide (index = last)) (2 ^ e.bits) throwsAt last

end Loops

variable {W : Walk e α σ} {ends : BitVec e.bits → Bool} {throwsAt : Option Nat}
  {last slot start i stop : BitVec e.bits} {fuel dropFuel k : Nat} {xs ys : List α} {s s' : σ}
  {threw : Bool}

/-! ### Where the loops end -/

/-- The loop ends where it should if an index can be equal to the sum. -/
theorem drainBlocksUntil_eq {intBits : Nat} {firstIndex actualCount : BitVec e.bits}
    (hends : RangeEnds intBits firstIndex actualCount) :
    W.drainBlocksUntil (atRangeEnd intBits firstIndex actualCount) (2 ^ e.bits) throwsAt
        (firstIndex + actualCount) =
      W.drainBlocks throwsAt (firstIndex + actualCount) := by
  rw [drainBlocks, show atRangeEnd intBits firstIndex actualCount = _ from
    funext hends.atRangeEnd_eq]

theorem drainBlocksUntil_wraps {firstIndex actualCount : BitVec e.bits} :
    W.drainBlocksUntil (atRangeEnd 0 firstIndex actualCount) (2 ^ e.bits) throwsAt
        (firstIndex + actualCount) =
      W.drainBlocks throwsAt (firstIndex + actualCount) :=
  drainBlocksUntil_eq (.of_le (Nat.zero_le _))

theorem dropBlocksUntil_none (h : ∀ index, ends index = false) :
    W.dropBlocksUntil ends last fuel slot start i stop s = none := by
  induction fuel generalizing slot start i stop s with
  | zero => rfl
  | succ fuel ih =>
      simp only [dropBlocksUntil, h, Bool.false_eq_true, if_false, ih, bind_eq_bind,
        Option.bind_fun_none]

theorem drainBlocksUntil_none (h : ∀ index, ends index = false) :
    W.drainBlocksUntil ends dropFuel throwsAt last fuel slot i k s = none := by
  induction fuel generalizing slot i k s with
  | zero => rfl
  | succ fuel ih =>
      simp only [drainBlocksUntil, h, Bool.false_eq_true, if_false, ih, dropBlocksUntil_none h,
        bind_eq_bind, Option.bind_none, Option.bind_fun_none, ite_self]

/-! ### What the loops keep -/

section Keeps

variable {R : σ → σ → Prop} (htrans : ∀ {s₁ s₂ s₃}, R s₁ s₂ → R s₂ s₃ → R s₁ s₃)
  (helements : ∀ {slot b s mem}, W.block slot s = some b → OnlyElements e b (W.mem s) mem →
    R s (W.setMem mem s))
  (hmarks : ∀ {slot b start stop s s'}, W.block slot s = some b →
    W.markMany slot b start stop s = some s' → R s s')
include htrans helements hmarks

/-- A relation that every change of elements and every marking respects. -/
theorem dropBlocksUntil_keeps
    (h : W.dropBlocksUntil ends last fuel slot start i stop s = some s') : R s s' := by
  induction fuel generalizing slot start i stop s with
  | zero => cases h
  | succ fuel ih =>
      simp only [dropBlocksUntil, bind_eq_bind, bind_eq_some_iff] at h
      obtain ⟨b, hb, ⟨xs, mem⟩, hdestroy, s₁, hmark, h⟩ := h
      have hround := htrans (helements hb (.destroyRange hdestroy))
        (hmarks ((W.block_setMem ..).trans hb) hmark)
      split at h
      · obtain rfl := Option.some.inj h
        exact hround
      · obtain ⟨slot', -, h⟩ := bind_eq_some_iff.mp h
        exact htrans hround (ih h)

theorem drainBlocksUntil_keeps
    (h : W.drainBlocksUntil ends dropFuel throwsAt last fuel slot i k s = some (xs, s', threw)) :
    R s s' := by
  induction fuel generalizing slot i k xs s threw with
  | zero => cases h
  | succ fuel ih =>
      simp only [drainBlocksUntil, bind_eq_bind, bind_eq_some_iff] at h
      obtain ⟨b, hb, ⟨j, ys, mem, threw₁⟩, hmove, h⟩ := h
      have hmoved := helements hb (.moveOut hmove)
      cases threw₁ with
      | true =>
          simp only [if_true, bind_eq_some_iff, Option.some.injEq, Prod.mk.injEq] at h
          obtain ⟨s₁, hdrop, -, rfl, -⟩ := h
          exact htrans hmoved (dropBlocksUntil_keeps htrans helements hmarks hdrop)
      | false =>
          simp only [Bool.false_eq_true, if_false, bind_eq_some_iff] at h
          obtain ⟨s₁, hmark, h⟩ := h
          have hround := htrans hmoved (hmarks ((W.block_setMem ..).trans hb) hmark)
          split at h
          · obtain ⟨-, rfl, -⟩ := by simpa using h
            exact hround
          · simp only [bind_eq_some_iff, Option.some.injEq, Prod.mk.injEq] at h
            obtain ⟨slot', -, ⟨zs, s₂, threw₂⟩, hrest, -, rfl, -⟩ := h
            exact htrans hround (ih hrest)

end Keeps

/-! ### A round -/

theorem drainBlocks_succ {b : Nat} {mem : Mem α} {s₁ : σ} (hblock : W.block slot s = some b)
    (hdestroy : destroyRange e b (stopIndex e i last - i).toNat i (W.mem s) = some (xs, mem))
    (hmark : W.markMany slot b i (stopIndex e i last) (W.setMem mem s) = some s₁) :
    W.drainBlocks none last (fuel + 1) slot i k s =
      if stopIndex e i last = last then some (xs, s₁, false)
      else (W.nextSlot slot s₁).bind fun slot' =>
        (W.drainBlocks none last fuel slot' (stopIndex e i last) (k + xs.length) s₁).map
          fun (ys, s', threw) => (xs ++ ys, s', threw) := by
  simp only [drainBlocks, drainBlocksUntil, hblock, moveOut_none, hdestroy, hmark, bind_eq_bind,
    bind_some, Bool.false_eq_true, if_false, decide_eq_true_eq,
    Option.map_eq_bind, Function.comp_def]

/-! ### A throw -/

/-- What a loop that comes back has done in its first round. -/
theorem drainBlocksUntil_succ
    (h : W.drainBlocksUntil ends dropFuel none last (fuel + 1) slot i k s =
      some (ys, s', threw)) :
    ∃ b xs mem s₁, W.block slot s = some b ∧
      destroyRange e b (stopIndex e i last - i).toNat i (W.mem s) = some (xs, mem) ∧
      W.markMany slot b i (stopIndex e i last) (W.setMem mem s) = some s₁ ∧
      ((ends (stopIndex e i last) = true ∧ ys = xs ∧ s' = s₁ ∧ threw = false) ∨
        (ends (stopIndex e i last) = false ∧ ∃ slot' zs, W.nextSlot slot s₁ = some slot' ∧
          ys = xs ++ zs ∧ W.drainBlocksUntil ends dropFuel none last fuel slot'
            (stopIndex e i last) (k + xs.length) s₁ = some (zs, s', threw))) := by
  simp only [drainBlocksUntil, moveOut_none, bind_eq_bind, bind_eq_some_iff,
    Option.map_eq_some_iff] at h
  obtain ⟨b, hb, -, ⟨⟨xs, mem⟩, hdestroy, rfl⟩, h⟩ := h
  simp only [Bool.false_eq_true, if_false, bind_eq_some_iff] at h
  obtain ⟨s₁, hmark, h⟩ := h
  refine ⟨b, xs, mem, s₁, hb, hdestroy, hmark, ?_⟩
  split at h
  case isTrue hlast =>
      obtain ⟨rfl, rfl, rfl⟩ := by simpa using h
      exact .inl ⟨hlast, rfl, rfl, rfl⟩
  case isFalse hmore =>
      obtain ⟨slot', hslot, h⟩ := bind_eq_some_iff.mp h
      obtain ⟨⟨zs, s₂, threw₂⟩, hloop, h⟩ := bind_eq_some_iff.mp h
      obtain ⟨rfl, rfl, rfl⟩ := by simpa using h
      exact .inr ⟨Bool.not_eq_true _ ▸ hmore, slot', zs, hslot, rfl, hloop⟩

/-- The catch block does to a range what the loop does that starts there. -/
theorem dropBlocksUntil_of_drain {fuel' : Nat}
    (h : W.drainBlocksUntil ends dropFuel none last fuel slot i k s = some (ys, s', threw))
    (hfuel : fuel ≤ fuel') :
    W.dropBlocksUntil ends last fuel' slot i i (stopIndex e i last) s = some s' := by
  induction fuel generalizing fuel' slot i k s ys threw with
  | zero => cases h
  | succ fuel ih =>
      obtain ⟨fuel', rfl⟩ := Nat.exists_eq_add_one_of_ne_zero (by omega : fuel' ≠ 0)
      obtain ⟨b, xs, mem, s₁, hb, hdestroy, hmark, hrest⟩ := drainBlocksUntil_succ h
      simp only [dropBlocksUntil, hb, hdestroy, hmark, bind_eq_bind, bind_some]
      rcases hrest with ⟨hlast, -, rfl, -⟩ | ⟨hmore, slot', zs, hslot, -, hloop⟩
      · rw [if_pos hlast]
      · rw [hmore, if_neg Bool.false_ne_true, hslot, bind_some]
        exact ih hloop (by omega)

/-- **A throw at element `j` of the range**, or none: the values before it are delivered, and
the state is that of the loop without a throw. -/
theorem drainBlocksUntil_throw
    (h : W.drainBlocksUntil ends dropFuel none last fuel slot i k s = some (ys, s', threw))
    (hfuel : fuel ≤ dropFuel) {j : Nat} (hj : j ≤ ys.length)
    (hquiet : ∀ r < j, throwsAt ≠ some (k + r))
    (hstop : j = ys.length ∨ throwsAt = some (k + j)) :
    W.drainBlocksUntil ends dropFuel throwsAt last fuel slot i k s =
      some (ys.take j, s', decide (j < ys.length)) := by
  induction fuel generalizing slot i k s ys threw j with
  | zero => cases h
  | succ fuel ih =>
      obtain ⟨b, xs, mem, s₁, hb, hdestroy, hmark, hrest⟩ := drainBlocksUntil_succ h
      have hlen := length_destroyRange hdestroy
      rcases Nat.lt_or_ge j xs.length with hin | hout
      · -- the catch block finishes this block and goes on with the others
        have hle : xs.length ≤ ys.length := by
          rcases hrest with ⟨-, rfl, -⟩ | ⟨-, slot', zs, -, rfl, -⟩
          · rfl
          · exact List.length_append ▸ Nat.le_add_right ..
        have htake : ys.take j = xs.take j := by
          rcases hrest with ⟨-, rfl, -⟩ | ⟨-, slot', zs, -, rfl, -⟩
          · rfl
          · rw [List.take_append_of_le_length hin.le]
        obtain ⟨mem₁, hthrow, hrange⟩ := moveOut_throw (k := k) hdestroy (hlen ▸ hin)
        rw [← hstop.resolve_left (by omega)] at hthrow
        obtain ⟨fuel', rfl⟩ := Nat.exists_eq_add_one_of_ne_zero (by omega : dropFuel ≠ 0)
        have hdrop : W.dropBlocksUntil ends last (fuel' + 1) slot i (i + BitVec.ofNat e.bits j)
            (stopIndex e i last) (W.setMem mem₁ s) = some s' := by
          simp only [dropBlocksUntil, W.block_setMem, hb, W.mem_setMem,
            toNat_sub_ofNat (hlen ▸ hin.le), hrange, W.setMem_setMem, hmark, bind_eq_bind,
            bind_some]
          rcases hrest with ⟨hlast, -, rfl, -⟩ | ⟨hmore, slot', zs, hslot, -, hloop⟩
          · rw [if_pos hlast]
          · rw [hmore, if_neg Bool.false_ne_true, hslot, bind_some]
            exact dropBlocksUntil_of_drain hloop (by omega)
        simp only [drainBlocksUntil, hb, hthrow, hdrop, htake, bind_eq_bind, bind_some, if_true,
          decide_eq_true (show j < ys.length by omega)]
      · have hmove : moveOut e throwsAt b (stopIndex e i last - i).toNat i k (W.mem s) =
            some (i + BitVec.ofNat e.bits xs.length, xs, mem, false) := by
          rw [moveOut_quiet fun r hr => hquiet r (by omega), moveOut_none, hdestroy, hlen]
          rfl
        simp only [drainBlocksUntil, hb, hmove, hmark, bind_eq_bind, bind_some,
          Bool.false_eq_true, if_false]
        rcases hrest with ⟨hlast, rfl, rfl, -⟩ | ⟨hmore, slot', zs, hslot, rfl, hloop⟩
        · rw [if_pos hlast, List.take_of_length_le hout, decide_eq_false (by omega)]
        · obtain ⟨d, rfl⟩ := Nat.exists_eq_add_of_le hout
          rw [List.length_append] at hj hstop ⊢
          have hrec := ih hloop (by omega) (j := d) (by omega)
            (fun r hr => by
              rw [Nat.add_assoc]
              exact hquiet (xs.length + r) (by omega))
            (hstop.imp (by omega) fun hthrow => by rwa [Nat.add_assoc])
          rw [hmore, if_neg Bool.false_ne_true, hslot, bind_some, hrec]
          simp only [bind_some, List.take_length_add_append, Nat.add_lt_add_iff_left]

end Walk

end ConcurrentQueue
