import ConcurrentQueue.Semaphore

/-!
# ConcurrentQueue.SemaphoreSound

**Permits are conserved and no wake-up is lost.** Two equations carry the
argument, both preserved by every atomic step:

* *sleepers*: the calls that decremented `m_count` without finding a permit are
  covered one by one, by a post already in the OS semaphore, by a post some
  signaller still owes, or by the negative part of `m_count`;
* *permits*: `m_count`, plus what has been acquired, plus the decrements not
  yet settled, is what the semaphore started with plus what was signalled.

`exec_keeps` proves them for one step, as statements about the moving thread
only; the sums over all threads follow by `sum_update_add`.
-/

namespace ConcurrentQueue.Semaphore

open Function Interleaving

/-! ### What a thread contributes to the two equations -/

namespace PC

/-- The call decremented `m_count`, found no permit and has not settled. -/
def waiting : PC → Nat
  | semaWait _ | undoLoad _ | undoTryWait _ | undoCas _ _ => 1
  | _ => 0

/-- Posts the thread still owes the OS semaphore. -/
def posting : PC → Nat
  | post _ left => left
  | _ => 0

/-- The call holds a permit and has not returned yet. -/
def inHand : PC → Nat
  | moreLoad _ | moreCas _ _ => 1
  | _ => 0

theorem waiting_le_one (l : PC) : l.waiting ≤ 1 := by
  cases l <;> simp [waiting]

@[simp] theorem waiting_idle : idle.waiting = 0 := rfl
@[simp] theorem posting_idle : idle.posting = 0 := rfl
@[simp] theorem inHand_idle : idle.inHand = 0 := rfl

end PC

/-- Permits acquired by the calls that have returned. -/
def State.acquired (s : State) : Int := (s.returned.map Prod.snd).sum

/-- A call other than `signal`. -/
def Call.Acquires : Call → Prop
  | signal _ => False
  | _ => True

theorem Call.acquires_of_spins {c : Call} (h : c.spins = true) : c.Acquires := by
  cases c <;> simp_all [spins, Acquires]

theorem Call.max_pos_of_spins {c : Call} (h : c.spins = true) : 1 ≤ c.max := by
  cases c <;> simp_all [spins, max]; omega

/-- A compare-exchange takes out between nothing and `max`. -/
theorem Call.newCount_bounds {c : Call} {old : Int} (hc : c.Acquires) (hold : 0 < old) :
    0 ≤ c.newCount old ∧ c.newCount old ≤ old ∧ old - c.newCount old ≤ c.max := by
  cases c with
  | signal n => exact absurd hc (by simp [Acquires])
  | tryWait => simp only [newCount, max]; omega
  | wait t => simp only [newCount, max]; omega
  | tryWaitMany m => simp only [newCount, max]; split <;> omega
  | waitMany m t => simp only [newCount, max]; split <;> omega

/-- What the local variables of a thread satisfy at each of its steps. -/
def LocalOk : PC → Prop
  | .tryLoad c => c.Acquires
  | .tryCas c old => c.Acquires ∧ 0 < old
  | .spinLoad c _ | .fetchSub c | .semaWait c | .undoLoad c | .undoTryWait c => c.spins = true
  | .spinCas c _ old => c.spins = true ∧ 0 < old
  | .undoCas c old => c.spins = true ∧ old < 0
  | .moreLoad c => ∃ m t, c = .waitMany m t ∧ 1 < m
  | .moreCas c old => (∃ m t, c = .waitMany m t ∧ 1 < m) ∧ 0 < old
  | _ => True

/-- Every returned call acquired between zero and its `max`. -/
def ReturnedOk (s : State) : Prop := ∀ r ∈ s.returned, 0 ≤ r.2 ∧ r.2 ≤ r.1.max

/-- The effect of one step on the two equations. -/
structure Keeps (s s' : State) (l l' : PC) : Prop where
  sleepers : s'.sema + l'.posting + (-s'.mCount).toNat + l.waiting =
    s.sema + l.posting + (-s.mCount).toNat + l'.waiting
  permits : s'.mCount + s'.acquired + l'.waiting + l'.inHand + s.signalled =
    s.mCount + s.acquired + l.waiting + l.inHand + s'.signalled
  localOk : LocalOk l'
  returnedOk : ReturnedOk s → ReturnedOk s'

/-! ### The helpers of the code -/

@[simp] theorem acquired_ret (s : State) (c : Call) (r : Int) :
    (s.ret c r).1.acquired = r + s.acquired := by
  simp [State.acquired, State.ret]

theorem returnedOk_ret {s : State} {c : Call} {r : Int} (h0 : 0 ≤ r) (h1 : r ≤ c.max)
    (hs : ReturnedOk s) : ReturnedOk (s.ret c r).1 := by
  intro x hx
  simp only [State.ret, List.mem_cons] at hx
  rcases hx with rfl | hx
  · exact ⟨h0, h1⟩
  · exact hs x hx

/-- A step that only moves the program counter. -/
theorem keeps_silent {s : State} {l l' : PC} (hl' : LocalOk l')
    (hw : l'.waiting = l.waiting) (hp : l'.posting = l.posting) (hi : l'.inHand = l.inHand) :
    Keeps s s l l' :=
  ⟨by omega, by omega, hl', id⟩

/-- Settling a call by returning `r` permits taken out of `m_count`. -/
theorem keeps_ret {s : State} {l : PC} {c : Call} {m : Int} {r : Int} {sema : Nat}
    (h0 : 0 ≤ r) (h1 : r ≤ c.max)
    (hsleep : sema + (-m).toNat + l.waiting = s.sema + l.posting + (-s.mCount).toNat)
    (hperm : m + r = s.mCount + l.waiting + l.inHand) :
    Keeps s ({ s with mCount := m, sema := sema }.ret c r).1 l
      ({ s with mCount := m, sema := sema }.ret c r).2 where
  sleepers := by simpa [State.ret] using hsleep
  permits := by
    rw [acquired_ret]
    simp only [State.ret, PC.waiting_idle, PC.inHand_idle, State.acquired]
    omega
  localOk := trivial
  returnedOk := fun hs => returnedOk_ret h0 h1 hs

/-- The first attempt failed: nothing has changed hands. -/
theorem keeps_afterTry {s : State} {l : PC} {c : Call} {maxSpins : Nat}
    (hl : l.waiting = 0 ∧ l.posting = 0 ∧ l.inHand = 0) :
    Keeps s (afterTry maxSpins c s).1 l (afterTry maxSpins c s).2 := by
  obtain ⟨hw, hp, hi⟩ := hl
  unfold afterTry
  split
  case isTrue hc => exact keeps_silent hc hw.symm hp.symm hi.symm
  case isFalse =>
    exact keeps_ret le_rfl (by omega) (by omega) (by omega)

/-- A permit is in hand, from `m_count` or from the OS semaphore. -/
theorem keeps_gotOne {s : State} {l : PC} {c : Call} {m : Int} {sema : Nat}
    (hc : c.spins = true)
    (hsleep : sema + (-m).toNat + l.waiting = s.sema + l.posting + (-s.mCount).toNat)
    (hperm : m + 1 = s.mCount + l.waiting + l.inHand) :
    Keeps s (gotOne c { s with mCount := m, sema := sema }).1 l
      (gotOne c { s with mCount := m, sema := sema }).2 := by
  have hmax := Call.max_pos_of_spins hc
  have hret : Keeps s ({ s with mCount := m, sema := sema }.ret c 1).1 l
      ({ s with mCount := m, sema := sema }.ret c 1).2 :=
    keeps_ret (by omega) (by omega) hsleep hperm
  cases c with
  | waitMany k t =>
      simp only [gotOne]
      split
      case isTrue hk =>
        refine ⟨hsleep, ?_, ⟨k, t, rfl, hk⟩, id⟩
        change m + s.acquired + (0 : Nat) + (1 : Nat) + s.signalled =
          s.mCount + s.acquired + l.waiting + l.inHand + s.signalled
        omega
      case isFalse => exact hret
  | _ => exact hret

/-! ### Integers that fit -/

theorem bmod_of_fits {bits : Nat} (hb : 0 < bits) {x : Int} (hlo : -2 ^ (bits - 1) ≤ x)
    (hhi : x < 2 ^ (bits - 1)) : x.bmod (2 ^ bits) = x := by
  obtain ⟨n, rfl⟩ : ∃ n, bits = n + 1 := ⟨bits - 1, by omega⟩
  simp only [Nat.add_sub_cancel] at hlo hhi
  have hpow : (2 : Int) ^ (n + 1) = 2 * 2 ^ n := by ring
  refine Int.bmod_eq_of_le ?_ ?_
  · push_cast
    omega
  · push_cast
    omega

theorem Platform.half_int_le (p : Platform) :
    (2 : Int) ^ (p.intBits - 1) ≤ 2 ^ (p.ssizeBits - 1) :=
  pow_le_pow_right₀ (by norm_num) (by have := p.int_le_ssize; omega)

theorem Platform.ssize_of_fits (p : Platform) {x : Int} (hlo : -2 ^ (p.ssizeBits - 1) ≤ x)
    (hhi : x < 2 ^ (p.ssizeBits - 1)) : p.ssize x = x :=
  bmod_of_fits (by have := p.intBits_pos; have := p.int_le_ssize; omega) hlo hhi

/-- The number of posts is the number of sleepers the new permits are for. -/
theorem posts_eq (p : Platform) {old : Int} {n : Nat} (hlo : -old < 2 ^ (p.intBits - 1))
    (hhi : old < 2 ^ (p.ssizeBits - 1)) : posts p old n = min (-old).toNat n := by
  have hle := p.half_int_le
  have hneg : p.ssize (-old) = -old := p.ssize_of_fits (by omega) (by omega)
  have hrel : toRelease p old n = min (-old) n := by
    unfold toRelease
    rw [hneg]
    split <;> omega
  unfold posts
  rw [hrel]
  split
  case isTrue hpos =>
    have hint : p.int (min (-old) n) = min (-old) n :=
      bmod_of_fits p.intBits_pos (by omega) (by omega)
    rw [hint]
    omega
  case isFalse hpos => omega

/-! ### One step -/

/-- The side conditions of a step: `m_count` has room below it (for one more
sleeper, unless the moving thread is one already) and room above it for what
the step signals. -/
structure Room (p : Platform) (s s' : State) (l : PC) : Prop where
  below : 1 - s.mCount ≤ 2 ^ (p.intBits - 1) + l.waiting
  above : s.mCount < 2 ^ (p.ssizeBits - 1)
  adds : s.mCount + (s'.signalled - s.signalled) < 2 ^ (p.ssizeBits - 1)

theorem exec_keeps {ι : Type*} {p : Platform} {maxSpins : Nat} {i : ι} {a : Act}
    {s : State} {l : PC} {r : State × PC} (h : exec p maxSpins i a s l = some r)
    (hl : LocalOk l) (hroom : Room p s r.1 l) : Keeps s r.1 l r.2 := by
  have hle := p.half_int_le
  obtain ⟨hbelow, habove, hadds⟩ := hroom
  cases l with
  | idle =>
      cases a <;> simp only [exec, reduceCtorEq] at h
      cases h
      rename_i c
      cases c <;> exact keeps_silent (by simp [Call.start, LocalOk, Call.Acquires]) rfl rfl rfl
  | tryLoad c =>
      cases a <;> simp only [exec, reduceCtorEq] at h
      split at h <;> cases h
      · exact keeps_silent ⟨hl, by assumption⟩ rfl rfl rfl
      · exact keeps_afterTry ⟨rfl, rfl, rfl⟩
  | tryCas c old =>
      obtain ⟨hc, hold⟩ := hl
      have hnew := Call.newCount_bounds hc hold
      cases a <;> simp only [exec, reduceCtorEq] at h
      · split at h
        case isTrue heq =>
          cases h
          exact keeps_ret (by omega) hnew.2.2 (by simp [PC.waiting, PC.posting]; omega)
            (by simp [PC.waiting, PC.inHand]; omega)
        case isFalse =>
          split at h <;> cases h
          · exact keeps_silent ⟨hc, by assumption⟩ rfl rfl rfl
          · exact keeps_afterTry ⟨rfl, rfl, rfl⟩
      · split at h <;> cases h
        · exact keeps_silent ⟨hc, by assumption⟩ rfl rfl rfl
        · exact keeps_afterTry ⟨rfl, rfl, rfl⟩
  | spinLoad c n =>
      cases n <;> cases a <;> simp only [exec, reduceCtorEq] at h
      · cases h
        exact keeps_silent hl rfl rfl rfl
      · split at h <;> cases h
        · exact keeps_silent ⟨hl, by assumption⟩ rfl rfl rfl
        · exact keeps_silent hl rfl rfl rfl
  | spinCas c n old =>
      obtain ⟨hc, hold⟩ := hl
      have hnew := Call.newCount_bounds (Call.acquires_of_spins hc) hold
      cases a <;> simp only [exec, reduceCtorEq] at h
      split at h <;> cases h
      · exact keeps_ret (by omega) hnew.2.2 (by simp [PC.waiting, PC.posting]; omega)
          (by simp [PC.waiting, PC.inHand]; omega)
      · exact keeps_silent hc rfl rfl rfl
  | fetchSub c =>
      simp only [PC.waiting] at hbelow
      cases a <;> simp only [exec, reduceCtorEq] at h
      have hfit : p.ssize (s.mCount - 1) = s.mCount - 1 :=
        p.ssize_of_fits (by omega) (by omega)
      rw [hfit] at h
      split at h <;> cases h
      · exact keeps_gotOne hl (by simp [PC.waiting, PC.posting]; omega)
          (by simp [PC.waiting, PC.inHand])
      · unfold afterFetchSub
        -- the decrement adds a sleeper, and one to the negative part of the count
        split <;> refine ⟨?_, ?_, hl, id⟩ <;>
          simp only [PC.waiting, PC.posting, PC.inHand, State.acquired] <;> omega
  | semaWait c =>
      cases a <;> simp only [exec, reduceCtorEq] at h
      · split at h <;> cases h
        exact keeps_gotOne hl (by simp [PC.waiting, PC.posting]; omega)
          (by simp [PC.waiting, PC.inHand])
      · cases h
        exact keeps_silent hl rfl rfl rfl
  | undoLoad c =>
      cases a <;> simp only [exec, reduceCtorEq] at h
      split at h <;> cases h
      · exact keeps_silent hl rfl rfl rfl
      · exact keeps_silent ⟨hl, by omega⟩ rfl rfl rfl
  | undoTryWait c =>
      cases a <;> simp only [exec, reduceCtorEq] at h
      · split at h <;> cases h
        · exact keeps_gotOne hl (by simp [PC.waiting, PC.posting]; omega)
            (by simp [PC.waiting, PC.inHand])
        · exact keeps_silent hl rfl rfl rfl
      · cases h
        exact keeps_silent hl rfl rfl rfl
  | undoCas c old =>
      obtain ⟨hc, hold⟩ := hl
      cases a <;> simp only [exec, reduceCtorEq] at h
      simp only [PC.waiting] at hbelow
      split at h <;> cases h
      · have hfit : p.ssize (old + 1) = old + 1 := p.ssize_of_fits (by omega) (by omega)
        rw [hfit]
        exact keeps_ret le_rfl (by omega) (by simp [PC.waiting, PC.posting]; omega)
          (by simp [PC.waiting, PC.inHand]; omega)
      · exact keeps_silent hc rfl rfl rfl
  | moreLoad c =>
      obtain ⟨m, t, rfl, hm⟩ := hl
      cases a <;> simp only [exec, reduceCtorEq] at h
      split at h <;> cases h
      · exact keeps_silent ⟨⟨m, t, rfl, hm⟩, by assumption⟩ rfl rfl rfl
      · exact keeps_ret (by omega) (by simp [Call.max]; omega) (by simp [PC.waiting, PC.posting])
          (by simp [PC.waiting, PC.inHand])
  | moreCas c old =>
      obtain ⟨⟨m, t, rfl, hm⟩, hold⟩ := hl
      have hnew := Call.newCount_bounds (c := Call.more (.waitMany m t)) trivial hold
      have hmax : (Call.more (.waitMany m t)).max + 1 = m := by simp [Call.more, Call.max]; omega
      have hagain : ∀ s : State, s.mCount > 0 →
          Keeps s s (.moreCas (.waitMany m t) old) (.moreCas (.waitMany m t) s.mCount) :=
        fun _ hpos => keeps_silent ⟨⟨m, t, rfl, hm⟩, hpos⟩ rfl rfl rfl
      have hdone : ∀ s : State, Keeps s (s.ret (.waitMany m t) 1).1 (.moreCas (.waitMany m t) old)
          (s.ret (.waitMany m t) 1).2 := fun s =>
        keeps_ret (by omega) (by simp [Call.max]; omega) (by simp [PC.waiting, PC.posting])
          (by simp [PC.waiting, PC.inHand])
      cases a <;> simp only [exec, reduceCtorEq] at h
      · split at h
        case isTrue heq =>
          cases h
          exact keeps_ret (by omega) (by simp only [Call.max]; omega)
            (by simp [PC.waiting, PC.posting]; omega) (by simp [PC.waiting, PC.inHand]; omega)
        case isFalse =>
          split at h <;> cases h
          · exact hagain s (by assumption)
          · exact hdone s
      · split at h <;> cases h
        · exact hagain s (by assumption)
        · exact hdone s
  | fetchAdd n =>
      simp only [PC.waiting] at hbelow
      cases a <;> simp only [exec, reduceCtorEq] at h
      cases h
      simp only [Nat.cast_add, add_sub_cancel_left] at hadds
      have hfit : p.ssize (s.mCount + n) = s.mCount + n :=
        p.ssize_of_fits (by omega) (by omega)
      refine ⟨?_, ?_, trivial, id⟩
      · simp only [PC.waiting, PC.posting, hfit, posts_eq p (by omega) habove]
        omega
      · simp only [PC.waiting, PC.inHand, State.acquired, hfit]
        push_cast
        omega
  | post n left =>
      cases left <;> cases a <;> simp only [exec, reduceCtorEq] at h <;> cases h
      · exact keeps_ret le_rfl (by omega) (by simp [PC.waiting, PC.posting])
          (by simp [PC.waiting, PC.inHand])
      · refine ⟨?_, ?_, trivial, id⟩
        · simp only [PC.waiting, PC.posting]
          omega
        · simp [PC.waiting, PC.inHand, State.acquired]

/-! ### Every reachable configuration -/

variable {ι : Type*} [Fintype ι]

/-- The invariant: the two equations summed over the threads. -/
structure Inv (initialCount : Nat) (c : Conf ι State PC) : Prop where
  sleepers : c.shared.sema + (∑ i, (c.locals i).posting) + (-c.shared.mCount).toNat =
    ∑ i, (c.locals i).waiting
  permits : c.shared.mCount + c.shared.acquired + (∑ i, (c.locals i).waiting : Nat) +
    (∑ i, (c.locals i).inHand : Nat) = initialCount + c.shared.signalled
  localOk : ∀ i, LocalOk (c.locals i)
  returnedOk : ReturnedOk c.shared

theorem State.acquired_nonneg {s : State} (h : ReturnedOk s) : 0 ≤ s.acquired := by
  refine List.sum_nonneg ?_
  intro x hx
  obtain ⟨r, hr, rfl⟩ := List.mem_map.mp hx
  exact (h r hr).1

theorem inv_init {initialCount : Nat} {c : Conf ι State PC} (h : Init initialCount c) :
    Inv initialCount c := by
  obtain ⟨hs, hl⟩ := h
  refine ⟨?_, ?_, ?_, ?_⟩
  · simp [hs, hl]
  · simp [hs, hl, State.acquired]
  · intro i
    rw [hl i]
    trivial
  · simp [ReturnedOk, hs]

omit [Fintype ι] in
/-- Signals only accumulate. -/
theorem exec_signalled_le {p : Platform} {maxSpins : Nat} {i : ι} {a : Act} {s : State} {l : PC}
    {r : State × PC} (h : exec p maxSpins i a s l = some r) : s.signalled ≤ r.1.signalled := by
  have htry : ∀ c, (afterTry maxSpins c s).1.signalled = s.signalled := fun c => by
    unfold afterTry; split <;> rfl
  have hgot : ∀ c (s : State), (gotOne c s).1.signalled = s.signalled := fun c s => by
    unfold gotOne; split <;> (try split) <;> rfl
  have hsub : ∀ c (s : State), (afterFetchSub c s).1.signalled = s.signalled := fun c s => by
    unfold afterFetchSub; split <;> rfl
  unfold exec at h
  split at h <;> (try split at h) <;> (try split at h) <;> cases h <;>
    simp [htry, hgot, hsub, State.ret]

theorem inv_step [DecidableEq ι] {p : Platform} {maxSpins initialCount : Nat} {c : Conf ι State PC}
    {i : ι}
    {a : Act} {s : State} {l : PC}
    (hthreads : Fintype.card ι ≤ 2 ^ (p.intBits - 1))
    (hinv : Inv initialCount c)
    (hx : exec p maxSpins i a c.shared (c.locals i) = some (s, l))
    (hfit : initialCount + s.signalled < 2 ^ (p.ssizeBits - 1)) :
    Inv initialCount ⟨s, update c.locals i l⟩ := by
  have hacq := State.acquired_nonneg hinv.returnedOk
  have hmono : c.shared.signalled ≤ s.signalled := exec_signalled_le hx
  -- every sleeper is a thread, and a thread that is awake is not one of them
  have hcard : (∑ j, (c.locals j).waiting) + 1 ≤ Fintype.card ι + (c.locals i).waiting := by
    rw [← Finset.add_sum_erase _ _ (Finset.mem_univ i)]
    have hrest : (∑ j ∈ Finset.univ.erase i, (c.locals j).waiting) ≤ Fintype.card ι - 1 := by
      calc (∑ j ∈ Finset.univ.erase i, (c.locals j).waiting)
          ≤ ∑ _j ∈ Finset.univ.erase i, 1 :=
            Finset.sum_le_sum fun j _ => PC.waiting_le_one _
        _ = Fintype.card ι - 1 := by simp [Finset.card_erase_of_mem]
    have hpos : 0 < Fintype.card ι := Fintype.card_pos_iff.mpr ⟨i⟩
    omega
  have hsleep := hinv.sleepers
  have hperm := hinv.permits
  have hroom : Room p c.shared s (c.locals i) := by
    have hpow : ((2 ^ (p.intBits - 1) : Nat) : Int) = 2 ^ (p.intBits - 1) := by push_cast; rfl
    have hpow' : ((2 ^ (p.ssizeBits - 1) : Nat) : Int) = 2 ^ (p.ssizeBits - 1) := by
      push_cast; rfl
    refine ⟨?_, ?_, ?_⟩ <;> omega
  have hkeep := exec_keeps hx (hinv.localOk i) hroom
  have hw := sum_update_add PC.waiting c.locals i l
  have hp := sum_update_add PC.posting c.locals i l
  have hh := sum_update_add PC.inHand c.locals i l
  refine ⟨?_, ?_, ?_, hkeep.returnedOk hinv.returnedOk⟩
  · have := hkeep.sleepers
    simp only at this ⊢
    omega
  · have := hkeep.permits
    simp only at this ⊢
    omega
  · intro j
    by_cases hj : j = i
    · subst hj
      simpa using hkeep.localOk
    · simpa [update_of_ne hj] using hinv.localOk j

theorem inv_reachable [DecidableEq ι] {p : Platform} {maxSpins initialCount : Nat}
    {c : Conf ι State PC} (hthreads : Fintype.card ι ≤ 2 ^ (p.intBits - 1))
    (hreach : (exec p maxSpins).Reachable (Init initialCount) c)
    (hfit : initialCount + c.shared.signalled < 2 ^ (p.ssizeBits - 1)) :
    Inv initialCount c := by
  refine Exec.Reachable.invariant
    (I := fun c => initialCount + c.shared.signalled < 2 ^ (p.ssizeBits - 1) →
      Inv initialCount c) (fun c h _ => inv_init h) ?_ hreach hfit
  intro c i a s l ih hx hfit
  -- the signals only grow, so what fits after the step fitted before it
  have hmono : c.shared.signalled ≤ s.signalled := exec_signalled_le hx
  exact inv_step hthreads (ih (lt_of_le_of_lt (Nat.add_le_add_left hmono _) hfit)) hx hfit

/-! ### Conservation of permits and of wake-ups -/

/-- The number of calls in flight. -/
def inFlight (c : Conf ι State PC) : Nat := (Finset.univ.filter fun i => c.locals i ≠ .idle).card

/-- What a configuration owes its users. -/
structure Conserves (initialCount : Nat) (c : Conf ι State PC) : Prop where
  /-- No permit is handed out that was not there. -/
  bounded : c.shared.acquired ≤ initialCount + c.shared.signalled
  /-- Each call acquires between nothing and its maximum. -/
  within : ∀ r ∈ c.shared.returned, 0 ≤ r.2 ∧ r.2 ≤ r.1.max
  /-- With no call in flight the count is exact and the OS semaphore is spent. -/
  quiescent : (∀ i, c.locals i = .idle) →
    c.shared.mCount = initialCount + c.shared.signalled - c.shared.acquired ∧
      0 ≤ c.shared.mCount ∧ c.shared.sema = 0
  /-- If everybody is asleep, no permit is left over. -/
  asleep : (∃ i, c.locals i ≠ .idle) →
    (∀ i, c.locals i ≠ .idle → ∃ call, c.locals i = .semaWait call) → c.shared.sema = 0 →
      c.shared.mCount = -(inFlight c : Int)

theorem Inv.conserves {initialCount : Nat} {c : Conf ι State PC} (h : Inv initialCount c) :
    Conserves initialCount c where
  bounded := by
    have := h.sleepers
    have := h.permits
    omega
  within := h.returnedOk
  quiescent := by
    intro hidle
    have hsleep := h.sleepers
    have hperm := h.permits
    simp only [hidle, PC.waiting_idle, PC.posting_idle, PC.inHand_idle, Finset.sum_const_zero]
      at hsleep hperm
    omega
  asleep := by
    intro ⟨j, hj⟩ hwait hsema
    have hsleep := h.sleepers
    have hpost : (∑ i, (c.locals i).posting) = 0 := by
      refine Finset.sum_eq_zero fun i _ => ?_
      by_cases hi : c.locals i = .idle
      · rw [hi]; rfl
      · obtain ⟨call, hcall⟩ := hwait i hi
        rw [hcall]; rfl
    have hcount : (∑ i, (c.locals i).waiting) = inFlight c := by
      rw [inFlight, Finset.card_filter]
      refine Finset.sum_congr rfl fun i _ => ?_
      by_cases hi : c.locals i = .idle
      · simp [hi]
      · obtain ⟨call, hcall⟩ := hwait i hi
        simp [hcall, PC.waiting]
    have hpos : 0 < inFlight c := Finset.card_pos.mpr ⟨j, by simpa using hj⟩
    omega

/-- **Conservation.** With at most `2^(intBits-1)` threads, as long as the
initial count plus what was signalled fits an `ssize_t`, every interleaving
conserves permits and loses no wake-up. -/
theorem reachable_conserves [DecidableEq ι] {p : Platform} {maxSpins initialCount : Nat}
    {c : Conf ι State PC} (hthreads : Fintype.card ι ≤ 2 ^ (p.intBits - 1))
    (hreach : (exec p maxSpins).Reachable (Init initialCount) c)
    (hfit : initialCount + c.shared.signalled < 2 ^ (p.ssizeBits - 1)) :
    Conserves initialCount c :=
  (inv_reachable hthreads hreach hfit).conserves

/-! ### A run, and the two limits -/

/-- A fresh semaphore and its threads. -/
def fresh (ι : Type*) (initialCount : Nat) : Conf ι State PC :=
  ⟨⟨initialCount, 0, 0, []⟩, fun _ => .idle⟩

theorem fresh_reachable {ι : Type*} [DecidableEq ι] (p : Platform) (maxSpins initialCount : Nat) :
    (exec p maxSpins).Reachable (Init initialCount) (fresh ι initialCount) :=
  .start ⟨rfl, fun _ => rfl⟩

/-- One thread asks for two permits, falls asleep, times out after another has
signalled three, and takes the post that was meant for it and one more. -/
theorem timeout_run_conserves :
    ∃ c : Conf (Fin 2) State PC, c.shared = ⟨1, 0, 3, [(.waitMany 2 5, 2), (.signal 3, 0)]⟩ ∧
      Conserves 0 c := by
  have hreach := (fresh_reachable (ι := Fin 2) Platform.lp64 0 0).run
    (d := (⟨⟨1, 0, 3, [(.waitMany 2 5, 2), (.signal 3, 0)]⟩, _⟩ : Conf (Fin 2) State PC))
    [(0, .call (.waitMany 2 5)), (0, .run), (0, .run), (0, .run), (0, .fail),
      (1, .call (.signal 3)), (1, .run), (0, .run), (0, .run), (1, .run), (1, .run), (0, .run),
      (0, .run), (0, .run), (0, .run)] rfl
  exact ⟨_, rfl, reachable_conserves (by decide) hreach (by decide)⟩

/-- The first `k` of `n` threads are asleep in `m_sema.wait()`. -/
def sleeping (n k : Nat) : Conf (Fin n) State PC :=
  ⟨⟨-k, 0, 0, []⟩, fun i => if i.val < k then .semaWait (.wait (-1)) else .idle⟩

/-- One more thread calls `wait()` and falls asleep. -/
theorem sleeping_succ {n k : Nat} (hk : k < n) (hn : n ≤ 2 ^ 31 + 1) :
    (exec Platform.lp64 0).run ([.call (.wait (-1)), .run, .run, .run].map fun a => (⟨k, hk⟩, a))
      (sleeping n k) = some (sleeping n (k + 1)) := by
  have hidle : (sleeping n k).locals ⟨k, hk⟩ = .idle := by simp [sleeping]
  have hfit : Platform.lp64.ssize (-(k : Int) - 1) = -((k + 1 : Nat) : Int) := by
    have hpow : (2 : Int) ^ (Platform.lp64.ssizeBits - 1) = 2 ^ 63 := rfl
    rw [Platform.lp64.ssize_of_fits (by omega) (by omega)]
    omega
  have hsolo : (exec Platform.lp64 0).solo (⟨k, hk⟩ : Fin n)
      [.call (.wait (-1)), .run, .run, .run] ⟨-k, 0, 0, []⟩ .idle =
      some (⟨-((k + 1 : Nat) : Int), 0, 0, []⟩, .semaWait (.wait (-1))) := by
    have hnpos : ¬ (-(k : Int) > 0) := by omega
    have hload : exec Platform.lp64 0 (⟨k, hk⟩ : Fin n) .run ⟨-k, 0, 0, []⟩
        (.tryLoad (.wait (-1))) = some (⟨-k, 0, 0, []⟩, .spinLoad (.wait (-1)) 0) := by
      simp only [exec, if_neg hnpos]
      rfl
    have hsub : exec Platform.lp64 0 (⟨k, hk⟩ : Fin n) .run ⟨-k, 0, 0, []⟩
        (.fetchSub (.wait (-1))) =
          some (⟨-((k + 1 : Nat) : Int), 0, 0, []⟩, .semaWait (.wait (-1))) := by
      simp only [exec, if_neg hnpos, hfit]
      rfl
    have hstart : Call.start (.wait (-1)) = .tryLoad (.wait (-1)) := rfl
    rw [Exec.solo, exec, Option.bind_some, Exec.solo, hstart, hload, Option.bind_some,
      Exec.solo, exec, Option.bind_some, Exec.solo, hsub, Option.bind_some, Exec.solo]
  rw [Exec.run_solo, hidle]
  simp only [sleeping] at hsolo ⊢
  rw [hsolo]
  simp only [Option.map_some, Option.some.injEq, Conf.mk.injEq, true_and]
  funext i
  by_cases hi : i = ⟨k, hk⟩
  · subst hi
    simp
  · have hne : i.val ≠ k := fun h => hi (Fin.ext h)
    rw [update_of_ne hi]
    simp only [show i.val < k + 1 ↔ i.val < k by omega]

theorem sleeping_reachable {n k : Nat} (hk : k ≤ n) (hn : n ≤ 2 ^ 31 + 1) :
    (exec Platform.lp64 0).Reachable (Init 0) (sleeping n k) := by
  induction k with
  | zero => exact .start ⟨rfl, fun i => rfl⟩
  | succ k ih => exact (ih (by omega)).run _ (sleeping_succ (by omega) hn)

/-- `2^31` sleepers and one thread more, which signals them all: the cast to
`int` makes the number of posts negative, and nobody is woken. -/
theorem signal_posts_nothing :
    ∃ c : Conf (Fin (2 ^ 31 + 1)) State PC, (exec Platform.lp64 0).Reachable (Init 0) c ∧
      c.shared.signalled = 2 ^ 31 ∧ ¬ Conserves 0 c := by
  let last : Fin (2 ^ 31 + 1) := ⟨2 ^ 31, by omega⟩
  have hidle : (sleeping (2 ^ 31 + 1) (2 ^ 31)).locals last = .idle := by simp [sleeping, last]
  have hsolo : (exec Platform.lp64 0).solo last [.call (.signal (2 ^ 31)), .run, .run]
      ⟨-((2 ^ 31 : Nat) : Int), 0, 0, []⟩ .idle =
      some (⟨0, 0, 2 ^ 31, [(.signal (2 ^ 31), 0)]⟩, .idle) := by rfl
  have hrun := Exec.run_solo (x := exec Platform.lp64 0) last
    [.call (.signal (2 ^ 31)), .run, .run] (sleeping (2 ^ 31 + 1) (2 ^ 31))
  rw [hidle] at hrun
  simp only [sleeping] at hsolo hrun
  rw [hsolo, Option.map_some] at hrun
  refine ⟨_, (sleeping_reachable (by omega) le_rfl).run _ hrun, rfl, fun hcons => ?_⟩
  have hfirst : (⟨0, by omega⟩ : Fin (2 ^ 31 + 1)) ≠ last := by simp [last]
  have hawake : ∃ i, update (sleeping (2 ^ 31 + 1) (2 ^ 31)).locals last .idle i ≠
      .idle := ⟨⟨0, by omega⟩, by rw [update_of_ne hfirst]; simp [sleeping]⟩
  have hcount := hcons.asleep hawake ?_ rfl
  · -- the count says that nobody waits
    have hpos : 0 < inFlight (⟨⟨0, 0, 2 ^ 31, [(.signal (2 ^ 31), 0)]⟩,
        update (sleeping (2 ^ 31 + 1) (2 ^ 31)).locals last .idle⟩ :
          Conf (Fin (2 ^ 31 + 1)) State PC) := by
      obtain ⟨i, hi⟩ := hawake
      exact Finset.card_pos.mpr ⟨i, by simpa using hi⟩
    change (0 : Int) = -_ at hcount
    simp only [sleeping] at hpos hcount
    omega
  · intro i hi
    by_cases hlast : i = last
    · subst hlast
      simp at hi
    · simp only [update_of_ne hlast] at hi ⊢
      split at hi
      case isTrue hlt => exact ⟨_, if_pos hlt⟩
      case isFalse => exact absurd rfl hi

/-- Both limits are needed: two signals overflow the count, and with more than
`2^31` threads the number of posts does not fit an `int`. -/
theorem conservation_needs_limits :
    (∃ c : Conf (Fin 1) State PC, (exec Platform.lp64 0).Reachable (Init 0) c ∧
      ¬ Conserves 0 c) ∧
    ∃ c : Conf (Fin (2 ^ 31 + 1)) State PC, (exec Platform.lp64 0).Reachable (Init 0) c ∧
      c.shared.signalled < 2 ^ 63 ∧ ¬ Conserves 0 c := by
  refine ⟨?_, ?_⟩
  · have hreach := (fresh_reachable (ι := Fin 1) Platform.lp64 0 0).run
      (d := (⟨⟨-2 ^ 63, 0, 2 ^ 63, [(.signal 1, 0), (.signal (2 ^ 63 - 1), 0)]⟩, _⟩ :
        Conf (Fin 1) State PC))
      ([.call (.signal (2 ^ 63 - 1)), .run, .run, .call (.signal 1), .run, .run].map
        fun a => (0, a)) rfl
    refine ⟨_, hreach, fun hcons => ?_⟩
    have := (hcons.quiescent (by decide)).2.1
    exact absurd this (by decide)
  · obtain ⟨c, hreach, hsig, hbad⟩ := signal_posts_nothing
    exact ⟨c, hreach, by omega, hbad⟩

end ConcurrentQueue.Semaphore
