import ConcurrentQueue.ImplicitRaceSound

/-!
# ConcurrentQueue.ImplicitRaceRecycling

**Blocks go round between implicit producers.** A block that is released may be acquired by any
producer, while consumers with outdated headers are still looking for elements of the producer
that had it before. It is released by the consumer that has marked the last of its slots, or by
the call that acquired it and fails: both are statements about the past of a run (`Since`). Until
every claimed index of it is finished it stays on the index, where whoever claimed one of them
finds it.
-/

namespace ConcurrentQueue.ImplicitRace

open Function Interleaving Outstanding Circular

variable {ι α : Type}

/-! ### The past of a call -/

/-- Thread `i` acquired block `b`. -/
def Acquires (i : ι) (b : ℕ) (ev : Event ι (State ι α) (PC ι α)) : Prop :=
  ev.thread = i ∧ ev.after.shared.mem.acquired b = ev.before.shared.mem.acquired b + 1

variable [DecidableEq ι]

variable {e : Env} {c : Conf ι (State ι α) (PC ι α)}
  {past : List (Event ι (State ι α) (PC ι α))}

variable [Fintype ι]

theorem Inv.claimed (h : Inv e c) (hle : Claimed c) {i j : ι} {n : ℕ}
    (hn : n ∈ ((c.locals i).deq j).owed) :
    ∃ b v, (c.shared.producers j).constructed[n]? = some (b, v) ∧
      LiesAt e c b (.slot j (n / e.BLOCK_SIZE)) := by
  obtain ⟨place, hc, hsub⟩ := h
  obtain ⟨o, low, top, hj⟩ := hsub j
  obtain ⟨b, v, hv, hb⟩ := hj.home (hle j) (i := i) hn
  exact ⟨b, v, hv, (liesAt_iff hc hsub b _).mpr hb⟩

theorem Inv.counted (h : Inv e c) {j : ι} {k b : ℕ} (hb : LiesAt e c b (.slot j k)) :
    c.shared.mem.elementsCompletelyDequeued b =
      ((marked (fun i => (c.locals i).deq j)
        (c.shared.producers j).counters.headIndex).filter (· / e.BLOCK_SIZE = k)).card := by
  obtain ⟨place, hc, hsub⟩ := h
  obtain ⟨o, low, top, hj⟩ := hsub j
  exact hj.stock.marks b k ((liesAt_iff hc hsub b _).mp hb)

/-- A block that a thread has in its hands is not that of a claimed index. -/
theorem Inv.unclaimed (h : Inv e c) (hle : Claimed c) {i : ι} {b : ℕ}
    (hb : LiesAt e c b (.hand i)) {i' j : ι} {n : ℕ} (hn : n ∈ ((c.locals i').deq j).owed)
    (v : α) : (c.shared.producers j).constructed[n]? ≠ some (b, v) := by
  intro hv
  obtain ⟨b', v', hv', hslot⟩ := h.claimed hle hn
  cases hv.symm.trans hv'
  obtain ⟨y, -, hunique, -⟩ := h.one_place b
  cases (hunique _ hb).trans (hunique _ hslot).symm

end ConcurrentQueue.ImplicitRace
