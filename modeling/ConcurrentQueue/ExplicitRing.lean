import ConcurrentQueue.Explicit
import ConcurrentQueue.Held

/-!
# ConcurrentQueue.ExplicitRing

**The ring of blocks.** The blocks an explicit producer holds are linked in the
order of their numbers, and the newest one to the oldest. Taking the block ahead
of the tail gives the oldest block the number `t` and so moves the window
without a change in memory; inserting a block makes the window longer.
-/

namespace ConcurrentQueue.Explicit

open Function Wrap

variable {α : Type}

/-- The link of block number `q` in the ring of the blocks `s ≤ q < t`. -/
def ringNext (β : Nat → Nat) (s t q : Nat) : Option Nat :=
  some (if q + 1 < t then β (q + 1) else β s)

abbrev Ring (e : Env) (mem : Mem α) (β : Nat → Nat) (s t : Nat) (f : Nat → Option α)
    (g : Nat → Nat) : Prop :=
  Held e .explicitContext mem β s t (ringNext β s t) f g

variable {e : Env} {mem : Mem α} {β : Nat → Nat} {s t : Nat} {f : Nat → Option α} {g : Nat → Nat}

namespace Ring

theorem next (h : Ring e mem β s t f g) {q : Nat} (hs : s ≤ q) (ht : q + 1 < t) :
    (mem.blocks (β q)).next = some (β (q + 1)) := by
  rw [h.link q hs (by omega), ringNext, if_pos ht]

theorem wrap (h : Ring e mem β s t f g) (hst : s < t) :
    (mem.blocks (β (t - 1))).next = some (β s) := by
  rw [h.link (t - 1) (by omega) (by omega), ringNext, if_neg (by omega)]

/-- Taking the block ahead of the tail gives the oldest block the next number.
Memory does not change. -/
theorem rotate (h : Ring e mem β s t f g) (hst : s < t)
    (hold : ∀ i < e.BLOCK_SIZE, f (s * e.BLOCK_SIZE + i) = none)
    (hnew : ∀ i < e.BLOCK_SIZE, f (t * e.BLOCK_SIZE + i) = none) :
    Ring e mem (update β t (β s)) (s + 1) (t + 1) f (update g t (g s)) := by
  have hβ : ∀ q, q < t → update β t (β s) q = β q := fun q hq =>
    update_of_ne (by omega) ..
  have hβt : update β t (β s) t = β s := update_self ..
  refine ⟨h.wellFormed, ?_, ?_, ?_, ?_, ?_⟩
  · intro q q' hsq hqt hsq' hqt' heq
    rcases Nat.lt_succ_iff_lt_or_eq.mp hqt with hq | rfl <;>
      rcases Nat.lt_succ_iff_lt_or_eq.mp hqt' with hq' | rfl
    · rw [hβ q hq, hβ q' hq'] at heq
      exact h.inj q q' (by omega) hq (by omega) hq' heq
    · rw [hβ q hq, hβt] at heq
      have := h.inj q s (by omega) hq le_rfl hst heq
      omega
    · rw [hβ q' hq', hβt] at heq
      have := h.inj s q' le_rfl hst (by omega) hq' heq
      omega
    · rfl
  · intro q hsq hqt
    rcases Nat.lt_succ_iff_lt_or_eq.mp hqt with hq | rfl
    · rw [hβ q hq]
      exact h.used q (by omega) hq
    · rw [hβt]
      exact h.used s le_rfl hst
  · intro q hsq hqt
    rcases Nat.lt_succ_iff_lt_or_eq.mp hqt with hq | rfl
    · rw [hβ q hq, ringNext, if_pos (by omega)]
      rcases (show q + 1 ≤ t from hq).lt_or_eq with hlt | heq
      · rw [hβ (q + 1) hlt, h.next (by omega) hlt]
      · rw [heq, hβt, ← h.wrap hst, ← heq, Nat.add_sub_cancel]
    · rw [hβt, ringNext, if_neg (by omega)]
      by_cases hone : s + 1 < q
      · rw [hβ (s + 1) hone, h.next le_rfl hone]
      · -- a ring of one block
        have hts : q = s + 1 := by omega
        have hwrap := h.wrap hst
        rw [hts, Nat.add_sub_cancel] at hwrap
        rw [← hts, hβt, hwrap]
  · intro q i hsq hqt hi
    rcases Nat.lt_succ_iff_lt_or_eq.mp hqt with hq | rfl
    · rw [hβ q hq]
      exact h.slot q i (by omega) hq hi
    · rw [hβt, h.slot s i le_rfl hst hi, hold i hi, hnew i hi]
  · intro q hsq hqt
    rcases Nat.lt_succ_iff_lt_or_eq.mp hqt with hq | rfl
    · rw [hβ q hq, update_of_ne (by omega)]
      exact h.mark q (by omega) hq
    · rw [hβt, update_self]
      exact h.mark s le_rfl hst

/-- The links after block `b` has got number `t`. -/
theorem ringNext_update {b q : Nat} (hs : s ≤ q) (hq : q ≤ t) :
    ringNext (update β t b) s (t + 1) q =
      if q + 1 < t then some (β (q + 1)) else if q < t then some b
      else some (if s < t then β s else b) := by
  unfold ringNext
  by_cases hlt : q + 1 < t
  · rw [if_pos (by omega), if_pos hlt, update_of_ne (by omega)]
  · by_cases heq : q < t
    · rw [if_pos (by omega), if_neg hlt, if_pos heq, show q + 1 = t by omega,
        update_self]
    · rw [if_neg (by omega), if_neg hlt, if_neg heq]
      by_cases hst : s < t
      · rw [if_pos hst, update_of_ne (by omega)]
      · rw [if_neg hst, show s = t by omega, update_self]

/-- Inserting a requisitioned block with `linkBlock`. -/
theorem insert (h : Ring e mem β s t f g) {mem' : Mem α} {b m : Nat}
    (hr : Mem.Requisitioned e mem mem' b) {F : Block α → Block α}
    (hF : ∀ x, (F x).elements = x.elements)
    (hmark : ∀ x, Block.Marked e.toTraits .explicitContext (F x) m)
    (hnew : ∀ i < e.BLOCK_SIZE, f (t * e.BLOCK_SIZE + i) = none) (hle : s ≤ t)
    {p : ExplicitProducer e.bits}
    (hp : p.tailBlock = if s < t then some (β (t - 1)) else none) :
    Ring e (linkBlock e b ⟨mem'.modify b F, p⟩).mem (update β t b) s (t + 1) f
      (update g t m) := by
  obtain ⟨h', hne⟩ := h.requisitioned hr
  have hbused : ¬ mem'.Free e b := fun hfree => ((hr.taken b).mp hfree).2 rfl
  have hwf : ∀ x : Block α, (mem'.setBlock b x).WellFormed e := hr.wellFormed.setBlock hbused
  have hlinkt := ringNext_update (β := β) (b := b) hle le_rfl
  rw [if_neg (by omega), if_neg (by omega)] at hlinkt
  by_cases hst : s < t
  · rw [if_pos hst] at hp hlinkt
    have htb : β (t - 1) ≠ b := hne (t - 1) (by omega) (by omega)
    simp only [linkBlock, hp, Mem.modify, Mem.blocks_setBlock, Mem.setBlock_setBlock,
      update_self, update_of_ne htb]
    have hnewb : ∀ (x y : Block α),
        update (update mem'.blocks b x) (β (t - 1)) y b = x := fun x y => by
      rw [update_of_ne htb.symm, update_self]
    refine h'.push hne ((hwf _).setBlock (h'.used (t - 1) (by omega) (by omega)) _) h'.used
      hbused hnew (fun i => ?_) ?_ (fun q hsq hqt => ?_) ?_
    · rw [Mem.blocks_setBlock, Mem.blocks_setBlock, hnewb, hF, hr.vacant]
    · rw [Mem.blocks_setBlock, Mem.blocks_setBlock, hnewb]
      exact (hmark (mem'.blocks b)).congr rfl rfl
    · rw [Mem.blocks_setBlock, Mem.blocks_setBlock, ringNext_update hsq hqt.le]
      by_cases hq : q + 1 < t
      · have hqtb : β q ≠ β (t - 1) := fun heq => by
          have := h.inj q (t - 1) hsq (by omega) (by omega) (by omega) heq
          omega
        rw [update_of_ne hqtb, update_of_ne (hne q hsq (by omega)), if_pos hq,
          ← Ring.next h' hsq hq]
      · obtain rfl : q = t - 1 := by omega
        rw [update_self, if_neg hq, if_pos hqt]
    · rw [Mem.blocks_setBlock, Mem.blocks_setBlock, hnewb, hlinkt]
      exact Ring.wrap h' hst
  · rw [if_neg hst] at hp hlinkt
    simp only [linkBlock, hp, Mem.modify, Mem.blocks_setBlock, Mem.setBlock_setBlock,
      update_self]
    refine h'.push hne (hwf _) h'.used hbused hnew (fun i => ?_) ?_
      (fun q hsq hqt => absurd hqt (by omega)) ?_
    · rw [Mem.blocks_setBlock, update_self, hF, hr.vacant]
    · rw [Mem.blocks_setBlock, update_self]
      exact (hmark (mem'.blocks b)).congr rfl rfl
    · rw [Mem.blocks_setBlock, update_self]
      exact hlinkt.symm

end Ring

end ConcurrentQueue.Explicit
