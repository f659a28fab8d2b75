import ConcurrentQueue.ImplicitHashKeys

/-!
# ConcurrentQueue.ImplicitHashSound

**Every filled slot has a unit of the counter.** A unit is granted by `fetch_add`
and becomes the unit of the slot that the thread then fills; the copies of that
entry in newer tables have the same unit, and so has the slot when another thread
takes it over. In one table no two slots have the same unit. A table of capacity `c`
is filled by units that were granted below `3c/4`, so it never fills up.

This breaks where a thread takes over a slot of an old table, since its copy to the
current table may then meet a slot with the same unit there.
-/

namespace ConcurrentQueue.ImplicitHash

open Function Interleaving Probing

variable {ι : Type*}

/-! ### The account -/

/-- What the units of the counter stand for. -/
structure Account (ι : Type*) where
  /-- The units that are out, the latest first. -/
  units : List Nat
  /-- The value of the counter when the unit was granted. -/
  rank : Nat → Nat
  /-- The table in which the unit was used first. -/
  home : Nat → Option Nat
  /-- The unit of a filled slot. -/
  unit : Nat → Nat → Nat
  /-- The unit a thread was granted for the insertion it is at. -/
  granted : ι → Nat
  /-- Where the thread is registered: the table it was inserted in and the unit it has. -/
  own : ι → Option (Nat × Nat)

namespace Account

variable [DecidableEq ι]

/-- Thread `i` is granted unit `u`, by the value `n` of the counter. -/
def grant (g : Account ι) (i : ι) (u n : Nat) : Account ι :=
  { g with
    units := u :: g.units
    rank := update g.rank u n
    home := update g.home u none
    granted := update g.granted i u }

/-- Thread `i` gives its unit back. -/
def giveBack (g : Account ι) (i : ι) : Account ι :=
  { g with units := g.units.erase (g.granted i) }

def register (g : Account ι) (i : ι) (r : Option (Nat × Nat)) : Account ι :=
  { g with own := update g.own i r }

/-- A free slot is filled under unit `u`. -/
def setUnit (g : Account ι) (h k u : Nat) : Account ι :=
  { g with unit := update g.unit h (update (g.unit h) k u) }

def setHome (g : Account ι) (u h : Nat) : Account ι :=
  { g with home := update g.home u (some h) }

omit [DecidableEq ι] in
theorem unit_setUnit_self (g : Account ι) (h k u : Nat) : (g.setUnit h k u).unit h k = u := by
  simp [setUnit]

omit [DecidableEq ι] in
theorem unit_setUnit_of_ne (g : Account ι) {h k h' k' : Nat} (u : Nat) (hne : h' ≠ h ∨ k' ≠ k) :
    (g.setUnit h k u).unit h' k' = g.unit h' k' := by
  rcases eq_or_ne h' h with rfl | hh
  · simp [setUnit, update_of_ne (hne.resolve_left (fun h => h rfl))]
  · simp [setUnit, update_of_ne hh]

end Account

namespace PC

/-- A thread that has been granted a unit and has not used it or given it back. -/
def pending : PC → Option Nat
  | testAndSet _ n | loadLocked n | allocate _ n | allocateSub n | publish _ n _ | clear _ n
  | recycle _ n | recycleSub n | insertReusable _ n _ _ | insertEmpty _ n _ _ | refund _ n _ _
  | reload n => some n
  | _ => none

def exiting : PC → Bool
  | exitScan .. | release _ => true
  | _ => false

end PC

/-- The units of the slots of each table. -/
structure Reserved (s : State ι) (g : Account ι) : Prop where
  home : ∀ u h, u ∈ g.units → g.home u = some h → h ≤ s.implicitProducerHash ∧
    g.rank u < s.capacity h / 2 + s.capacity h / 4
  slot : ∀ h k, s.key h k ≠ .invalidThreadId →
    g.unit h k ∈ g.units ∧ ∃ h', h' ≤ h ∧ g.home (g.unit h k) = some h'
  unique : ∀ h k k', s.key h k ≠ .invalidThreadId → s.key h k' ≠ .invalidThreadId →
    g.unit h k = g.unit h k' → k = k'

/-- Thread `i` was inserted in table `h` and has unit `u`, for itself alone in the later
tables. -/
structure Owner (s : State ι) (g : Account ι) (i : ι) (h u : Nat) : Prop where
  first : ∀ h' k, s.key h' k = .id i → h ≤ h'
  slot : ∃ k, s.key h k = .id i ∧ g.unit h k = u
  later : ∀ h' k, h < h' → s.key h' k ≠ .invalidThreadId → g.unit h' k = u → s.key h' k = .id i

/-- What the account says about thread `i`, at step `pc` of its program. -/
structure Ledger (s : State ι) (g : Account ι) (i : ι) (pc : PC) : Prop where
  pending : ∀ n, pc.pending = some n →
    g.granted i ∈ g.units ∧ g.home (g.granted i) = none ∧ g.rank (g.granted i) = n
  unregistered : pc.exiting = false → g.own i = none → AbsentFrom s i 0
  exiting : pc.exiting = true → g.own i = none
  owner : ∀ h u, g.own i = some (h, u) → Owner s g i h u

structure Accounted (s : State ι) (locals : ι → PC) (g : Account ι) : Prop where
  count : s.implicitProducerHashCount = g.units.length
  nodup : g.units.Nodup
  ranked : Ranked g.rank g.units
  reserved : Reserved s g
  ledger : ∀ i, Ledger s g i (locals i)
  granted_inj : ∀ i j, (locals i).pending ≠ none → (locals j).pending ≠ none →
    g.granted i = g.granted j → i = j
  own_inj : ∀ i j h h' u, g.own i = some (h, u) → g.own j = some (h', u) → i = j

section Steps

variable {hashThreadId : ι → Nat} {s s' : State ι} {g g' : Account ι} {locals : ι → PC} {i j : ι}
  {l pc : PC} {h k u : Nat} {x : Key ι}

/-- The unit of a registered thread is the unit of a slot. -/
theorem Owner.home (ho : Owner s g i h u) (hr : Reserved s g) :
    u ∈ g.units ∧ ∃ h', h' ≤ h ∧ g.home u = some h' := by
  obtain ⟨k, hkey, rfl⟩ := ho.slot
  exact hr.slot h k (by rw [hkey]; exact nofun)

/-- The rows of a table have different units, which were granted below three quarters of
its capacity. -/
theorem Accounted.card_occupied_le [DecidableEq ι] (ha : Accounted s locals g)
    (ht : Tables hashThreadId s) (hh : h ≤ s.implicitProducerHash) :
    (occupied (s.capacity h) (s.key h) .invalidThreadId).card ≤
      s.capacity h / 2 + s.capacity h / 4 - 1 := by
  let q : Nat → Bool := fun u => (g.home u).any fun h' => decide (h' ≤ h)
  have hfilter : (g.units.filter q).length ≤ s.capacity h / 2 + s.capacity h / 4 - 1 := by
    refine ha.ranked.filter_length_le fun u hu hq => ?_
    obtain ⟨h', hhome, hle⟩ := Option.any_eq_true .. |>.mp hq
    obtain ⟨-, hlt⟩ := ha.reserved.home u h' hu hhome
    have hcap := ht.capacity_mono (of_decide_eq_true hle) hh
    omega
  refine le_trans ?_ hfilter
  rw [← List.toFinset_card_of_nodup (ha.nodup.filter _)]
  refine Finset.card_le_card_of_injOn (g.unit h) ?_ ?_
  · intro k hk
    obtain ⟨hmem, h', hle, hhome⟩ := ha.reserved.slot h k (mem_occupied.mp hk).2
    simp [q, hmem, hhome, hle]
  · intro k hk k' hk' heq
    exact ha.reserved.unique h k k' (mem_occupied.mp hk).2 (mem_occupied.mp hk').2 heq

theorem Accounted.exists_free [DecidableEq ι] (ha : Accounted s locals g)
    (ht : Tables hashThreadId s) (hh : h ≤ s.implicitProducerHash) :
    ∃ k < s.capacity h, s.key h k = .invalidThreadId := by
  have hle := ha.card_occupied_le ht hh
  have hpos := ht.capacity_pos hh
  exact exists_empty (by omega)

/-! ### Steps -/

theorem tryInsert_pending {mainHash n : Nat} : (s.tryInsert mainHash n).pending = some n ∧
    (s.tryInsert mainHash n).exiting = false := by
  unfold State.tryInsert
  split <;> exact ⟨rfl, rfl⟩

theorem insertLoop_pending {mainHash n : Nat} : (s.insertLoop mainHash n).pending = some n ∧
    (s.insertLoop mainHash n).exiting = false := by
  unfold State.insertLoop
  split
  case isTrue => exact ⟨rfl, rfl⟩
  case isFalse => exact tryInsert_pending

theorem nextLookup_pending {mainHash hash hashedId : Nat} :
    (s.nextLookup mainHash hash hashedId).pending = none ∧
      (s.nextLookup mainHash hash hashedId).exiting = false := by
  unfold State.nextLookup
  split <;> exact ⟨rfl, rfl⟩

theorem nextExit_pending {hash hashedId producer : Nat} :
    (s.nextExit hash hashedId producer).pending = none ∧
      (s.nextExit hash hashedId producer).exiting = true := by
  unfold State.nextExit
  split <;> exact ⟨rfl, rfl⟩

theorem Owner.same (ho : Owner s g i h u) (hs : Extends s s') : Owner s' g i h u := by
  obtain ⟨hfirst, hslot, hlater⟩ := ho
  refine ⟨?_, ?_, ?_⟩ <;> rw [hs.key] <;> assumption

theorem Ledger.same {pc : PC} (hl : Ledger s g i pc) (hs : Extends s s') : Ledger s' g i pc := by
  refine ⟨hl.pending, fun hexit hown => ?_, hl.exiting, fun h u hown => (hl.owner h u hown).same hs⟩
  exact (hs.unnoticed i).absentFrom (hl.unregistered hexit hown)

theorem Reserved.same (hr : Reserved s g) (hs : Extends s s') : Reserved s' g := by
  obtain ⟨hhome, hslot, hunique⟩ := hr
  refine ⟨?_, ?_, ?_⟩
  · intro u h hu hsome
    obtain ⟨hle, hlt⟩ := hhome u h hu hsome
    rw [hs.capacity h hle]
    exact ⟨hle.trans hs.main, hlt⟩
  · rw [hs.key]
    exact hslot
  · rw [hs.key]
    exact hunique

/-- A thread whose own entry in the account does not change. -/
theorem Ledger.transfer {pc : PC} (hl : Ledger s g j pc) (hu : Unnoticed s s' j)
    (hown : g'.own j = g.own j) (hgranted : g'.granted j = g.granted j)
    (hpending : pc.pending ≠ none → g.granted j ∈ g.units → g.home (g.granted j) = none →
      g.granted j ∈ g'.units ∧ g'.home (g.granted j) = none ∧
        g'.rank (g.granted j) = g.rank (g.granted j))
    (howner : ∀ h u, g.own j = some (h, u) → Owner s g j h u → Owner s' g' j h u) :
    Ledger s' g' j pc := by
  refine ⟨?_, ?_, ?_, ?_⟩
  · intro n hn
    obtain ⟨hmem, hhome, hrank⟩ := hl.pending n hn
    rw [hgranted, ← hrank]
    exact hpending (by rw [hn]; exact nofun) hmem hhome
  · intro hexit hnone
    exact hu.absentFrom (hl.unregistered hexit (hown ▸ hnone))
  · intro hexit
    exact hown.trans (hl.exiting hexit)
  · intro h u hsome
    rw [hown] at hsome
    exact howner h u hsome (hl.owner h u hsome)

/-- The slots when one that was filled already gets another key. -/
theorem Reserved.reuse (hr : Reserved s g) (hset : SetsKey s s' h k x)
    (hfilled : s.key h k ≠ .invalidThreadId) : Reserved s' g := by
  have hwas : ∀ h' k', s'.key h' k' ≠ .invalidThreadId → s.key h' k' ≠ .invalidThreadId := by
    intro h' k' hk
    rcases hset.cases h' k' with ⟨rfl, rfl, -⟩ | ⟨-, heq⟩
    · exact hfilled
    · exact heq ▸ hk
  refine ⟨?_, fun h' k' hk => hr.slot h' k' (hwas h' k' hk),
    fun h' k₁ k₂ hk₁ hk₂ => hr.unique h' k₁ k₂ (hwas h' k₁ hk₁) (hwas h' k₂ hk₂)⟩
  rw [hset.main, hset.capacity]
  exact hr.home

/-- The slots when a free one is filled. -/
theorem Reserved.fresh (hr : Reserved s g) (hset : SetsKey s s' h k x) (hu : u ∈ g.units)
    (hhome : ∃ h', h' ≤ h ∧ g.home u = some h')
    (hnew : ∀ k', s.key h k' ≠ .invalidThreadId → g.unit h k' ≠ u) :
    Reserved s' (g.setUnit h k u) := by
  have hunit : ∀ h' k', s'.key h' k' ≠ .invalidThreadId →
      (h' = h ∧ k' = k ∧ (g.setUnit h k u).unit h' k' = u) ∨
        (s.key h' k' ≠ .invalidThreadId ∧ (g.setUnit h k u).unit h' k' = g.unit h' k') := by
    intro h' k' hk
    rcases hset.cases h' k' with ⟨rfl, rfl, -⟩ | ⟨hne, heq⟩
    · exact .inl ⟨rfl, rfl, g.unit_setUnit_self ..⟩
    · exact .inr ⟨heq ▸ hk, g.unit_setUnit_of_ne u hne⟩
  refine ⟨?_, ?_, ?_⟩
  · rw [hset.main, hset.capacity]
    exact hr.home
  · intro h' k' hk
    rcases hunit h' k' hk with ⟨rfl, rfl, heq⟩ | ⟨hwas, heq⟩ <;> rw [heq]
    · exact ⟨hu, hhome⟩
    · exact hr.slot h' k' hwas
  · intro h' k₁ k₂ hk₁ hk₂ heq
    rcases hunit h' k₁ hk₁ with ⟨hh, rfl, heq₁⟩ | ⟨hwas₁, heq₁⟩ <;>
      rcases hunit h' k₂ hk₂ with ⟨hh', rfl, heq₂⟩ | ⟨hwas₂, heq₂⟩
    · rfl
    · subst hh
      exact absurd (heq₂.symm.trans (heq.symm.trans heq₁)) (hnew k₂ hwas₂)
    · subst hh'
      exact absurd (heq₁.symm.trans (heq.trans heq₂)) (hnew k₁ hwas₁)
    · exact hr.unique h' k₁ k₂ hwas₁ hwas₂ (heq₁.symm.trans (heq.trans heq₂))

/-- The registration of a thread when another one's step sets a key. -/
theorem Owner.other {h₀ u₀ : Nat} (ho : Owner s g j h₀ u₀) (hset : SetsKey s s' h k x)
    (hold : s.key h k ≠ .id j) (hx : x ≠ .id j)
    (hunit : ∀ h' k', h' ≠ h ∨ k' ≠ k → g'.unit h' k' = g.unit h' k')
    (hnew : h₀ < h → g'.unit h k ≠ u₀) : Owner s' g' j h₀ u₀ := by
  have hkeep : ∀ h' k', s'.key h' k' = .id j → s.key h' k' = .id j := by
    intro h' k' hk
    rcases hset.cases h' k' with ⟨-, -, heq⟩ | ⟨-, heq⟩
    · exact absurd (heq.symm.trans hk) hx
    · exact heq.symm.trans hk
  have hne : ∀ h' k', s.key h' k' = .id j → h' ≠ h ∨ k' ≠ k := by
    intro h' k' hk
    by_contra hsame
    push Not at hsame
    exact hold (hsame.1 ▸ hsame.2 ▸ hk)
  refine ⟨fun h' k' hk => ho.first h' k' (hkeep h' k' hk), ?_, ?_⟩
  · obtain ⟨k₀, hkey, hu⟩ := ho.slot
    have hne' := hne h₀ k₀ hkey
    exact ⟨k₀, (hset.other _ _ hne').trans hkey, (hunit _ _ hne').trans hu⟩
  · intro h' k' hlt hk hu
    rcases hset.cases h' k' with ⟨rfl, rfl, -⟩ | ⟨hne', heq⟩
    · exact absurd hu (hnew hlt)
    · rw [heq] at hk ⊢
      exact ho.later h' k' hlt hk ((hunit h' k' hne').symm.trans hu)

/-- The registration of a thread that copies its entry to a later table. -/
theorem Owner.copied {h₀ u₀ : Nat} (ho : Owner s g i h₀ u₀) (hset : SetsKey s s' h k (.id i))
    (hold : s.key h k ≠ .id i) (hle : h₀ ≤ h)
    (hunit : ∀ h' k', h' ≠ h ∨ k' ≠ k → g'.unit h' k' = g.unit h' k') : Owner s' g' i h₀ u₀ := by
  refine ⟨?_, ?_, ?_⟩
  · intro h' k' hk
    rcases hset.cases h' k' with ⟨rfl, -, -⟩ | ⟨-, heq⟩
    · exact hle
    · exact ho.first h' k' (heq.symm.trans hk)
  · obtain ⟨k₀, hkey, hu⟩ := ho.slot
    have hne : h₀ ≠ h ∨ k₀ ≠ k := by
      by_contra hsame
      push Not at hsame
      exact hold (hsame.1 ▸ hsame.2 ▸ hkey)
    exact ⟨k₀, (hset.other _ _ hne).trans hkey, (hunit _ _ hne).trans hu⟩
  · intro h' k' hlt hk hu
    rcases hset.cases h' k' with ⟨-, -, heq⟩ | ⟨hne, heq⟩
    · exact heq
    · rw [heq] at hk ⊢
      exact ho.later h' k' hlt hk ((hunit h' k' hne).symm.trans hu)

variable [DecidableEq ι]

theorem Ledger.update_same (hself : Ledger s' g' i l)
    (hothers : ∀ j, j ≠ i → Ledger s' g' j (locals j)) (j : ι) :
    Ledger s' g' j (update locals i l j) := by
  rcases eq_or_ne i j with rfl | hij
  · rwa [update_self]
  · rw [update_of_ne hij.symm]
    exact hothers j hij.symm

namespace Accounted

omit [DecidableEq ι] in
theorem same (ha : Accounted s locals g) (hs : Extends s s')
    (hcount : s'.implicitProducerHashCount = s.implicitProducerHashCount) :
    Accounted s' locals g :=
  ⟨hcount.trans ha.count, ha.nodup, ha.ranked, ha.reserved.same hs, fun i => (ha.ledger i).same hs,
    ha.granted_inj, ha.own_inj⟩

theorem granted_inj_update (ha : Accounted s locals g)
    (hl : l.pending ≠ none → (locals i).pending ≠ none) (j₁ j₂ : ι)
    (h₁ : (update locals i l j₁).pending ≠ none)
    (h₂ : (update locals i l j₂).pending ≠ none) (heq : g.granted j₁ = g.granted j₂) :
    j₁ = j₂ := by
  have hwas : ∀ j, (update locals i l j).pending ≠ none → (locals j).pending ≠ none := by
    intro j hj
    rcases eq_or_ne i j with rfl | hij
    · rw [update_self] at hj
      exact hl hj
    · rwa [update_of_ne hij.symm] at hj
  exact ha.granted_inj j₁ j₂ (hwas j₁ h₁) (hwas j₂ h₂) heq

/-- A step that does not concern the account. -/
theorem move (ha : Accounted s locals g) (hs : Extends s s')
    (hcount : s'.implicitProducerHashCount = s.implicitProducerHashCount)
    (hpending : l.pending = (locals i).pending) (hexiting : l.exiting = (locals i).exiting) :
    Accounted s' (update locals i l) g := by
  have ha' := ha.same hs hcount
  have hi := ha'.ledger i
  refine { ha' with
    ledger := Ledger.update_same ⟨?_, ?_, ?_, hi.owner⟩ fun j _ => ha'.ledger j
    granted_inj := ha'.granted_inj_update fun h => hpending ▸ h }
  · rw [hpending]
    exact hi.pending
  · rw [hexiting]
    exact hi.unregistered
  · rw [hexiting]
    exact hi.exiting

/-- Thread `i` is registered in another way. -/
theorem own_inj_update (ha : Accounted s locals g) {r : Option (Nat × Nat)}
    (hr : ∀ h u, r = some (h, u) → ∀ j, j ≠ i → ∀ h', g.own j ≠ some (h', u)) (j₁ j₂ : ι)
    (h h' u : Nat) (h₁ : update g.own i r j₁ = some (h, u))
    (h₂ : update g.own i r j₂ = some (h', u)) : j₁ = j₂ := by
  rcases eq_or_ne i j₁ with rfl | hne₁ <;> rcases eq_or_ne i j₂ with rfl | hne₂
  · rfl
  · rw [update_self] at h₁
    rw [update_of_ne hne₂.symm] at h₂
    exact absurd h₂ (hr h u h₁ j₂ hne₂.symm h')
  · rw [update_self] at h₂
    rw [update_of_ne hne₁.symm] at h₁
    exact absurd h₁ (hr h' u h₂ j₁ hne₁.symm h)
  · rw [update_of_ne hne₁.symm] at h₁
    rw [update_of_ne hne₂.symm] at h₂
    exact ha.own_inj j₁ j₂ h h' u h₁ h₂

/-- The exit of a thread begins or ends. -/
theorem unregister (ha : Accounted s locals g) (hs : Extends s s')
    (hcount : s'.implicitProducerHashCount = s.implicitProducerHashCount)
    (hpending : l.pending = none) (habsent : l.exiting = false → AbsentFrom s i 0) :
    Accounted s' (update locals i l) (g.register i none) := by
  have hi : update g.own i none i = none := update_self ..
  refine ⟨hcount.trans ha.count, ha.nodup, ha.ranked, ?_, Ledger.update_same ⟨?_, ?_, ?_, ?_⟩ ?_,
    ha.granted_inj_update fun h => absurd hpending h, ha.own_inj_update nofun⟩
  · obtain ⟨hhome, hslot, hunique⟩ := ha.reserved.same hs
    exact ⟨hhome, hslot, hunique⟩
  · rw [hpending]
    exact nofun
  · intro hexit _
    exact (hs.unnoticed i).absentFrom (habsent hexit)
  · exact fun _ => hi
  · intro h u hown
    exact absurd (hi.symm.trans hown) nofun
  · intro j hj
    refine (ha.ledger j).transfer (hs.unnoticed j) (update_of_ne hj ..) rfl
      (fun _ hmem hhome => ⟨hmem, hhome, rfl⟩) fun h u _ ho => ?_
    obtain ⟨hfirst, hslot, hlater⟩ := ho.same hs
    exact ⟨hfirst, hslot, hlater⟩

/-- A unit is granted. -/
theorem grant (ha : Accounted s locals g) (hs : Extends s s')
    (hcount : s'.implicitProducerHashCount = s.implicitProducerHashCount + 1)
    (hl : l.pending = some (1 + s.implicitProducerHashCount))
    (hexiting : l.exiting = (locals i).exiting) :
    ∃ g', Accounted s' (update locals i l) g' := by
  obtain ⟨u, hu⟩ := Infinite.exists_notMem_finset g.units.toFinset
  rw [List.mem_toFinset] at hu
  let g' := g.grant i u (1 + s.implicitProducerHashCount)
  have hne : ∀ v ∈ g.units, v ≠ u := fun v hv heq => hu (heq ▸ hv)
  have hrank : ∀ v ∈ g.units, g'.rank v = g.rank v :=
    fun v hv => update_of_ne (hne v hv) ..
  have hhome : ∀ v ∈ g.units, g'.home v = g.home v :=
    fun v hv => update_of_ne (hne v hv) ..
  have hself : g'.rank u = 1 + s.implicitProducerHashCount ∧ g'.home u = none ∧
      g'.granted i = u :=
    ⟨update_self .., update_self .., update_self ..⟩
  have hothers : ∀ j, j ≠ i → g'.granted j = g.granted j := fun j hj => update_of_ne hj ..
  have hr := ha.reserved.same hs
  have howner : ∀ j h v, Owner s' g j h v → Owner s' g' j h v :=
    fun _ _ _ ho => ⟨ho.first, ho.slot, ho.later⟩
  refine ⟨g', ?_, ?_, ?_, ⟨?_, ?_, hr.unique⟩, Ledger.update_same ⟨?_, ?_, ?_, ?_⟩ ?_, ?_,
    ha.own_inj⟩
  · rw [hcount, ha.count]
    rfl
  · exact List.nodup_cons.mpr ⟨hu, ha.nodup⟩
  · refine ⟨?_, ha.ranked.congr hrank⟩
    rw [hself.1, ha.count]
    omega
  · intro v h hv hsome
    rcases List.mem_cons.mp hv with rfl | hv
    · exact absurd (hself.2.1.symm.trans hsome) nofun
    · rw [hrank v hv]
      exact hr.home v h hv ((hhome v hv).symm.trans hsome)
  · intro h k hk
    obtain ⟨hmem, h', hle, hsome⟩ := hr.slot h k hk
    exact ⟨List.mem_cons_of_mem _ hmem, h', hle, (hhome _ hmem).trans hsome⟩
  · intro n hn
    rw [hself.2.2, hself.1, hself.2.1]
    exact ⟨List.mem_cons_self, rfl, Option.some.inj (hl.symm.trans hn)⟩
  · intro hexit hnone
    exact (hs.unnoticed i).absentFrom ((ha.ledger i).unregistered (hexiting ▸ hexit) hnone)
  · intro hexit
    exact (ha.ledger i).exiting (hexiting ▸ hexit)
  · intro h v hown
    exact howner i h v (((ha.ledger i).owner h v hown).same hs)
  · intro j hj
    refine (ha.ledger j).transfer (hs.unnoticed j) rfl (hothers j hj) ?_
      fun h v _ ho => howner j h v (ho.same hs)
    intro _ hmem hnone
    exact ⟨List.mem_cons_of_mem _ hmem, (hhome _ hmem).trans hnone, hrank _ hmem⟩
  · have hpend : ∀ j, j ≠ i → (update locals i l j).pending ≠ none →
        (locals j).pending ≠ none ∧ g.granted j ∈ g.units := by
      intro j hj hp
      rw [update_of_ne hj] at hp
      obtain ⟨n, hn⟩ := Option.ne_none_iff_exists'.mp hp
      exact ⟨hp, ((ha.ledger j).pending n hn).1⟩
    intro j₁ j₂ h₁ h₂ heq
    rcases eq_or_ne i j₁ with rfl | hne₁ <;> rcases eq_or_ne i j₂ with rfl | hne₂
    · rfl
    · rw [hself.2.2, hothers j₂ hne₂.symm] at heq
      exact absurd (heq ▸ (hpend j₂ hne₂.symm h₂).2) hu
    · rw [hself.2.2, hothers j₁ hne₁.symm] at heq
      exact absurd (heq ▸ (hpend j₁ hne₁.symm h₁).2) hu
    · rw [hothers j₁ hne₁.symm, hothers j₂ hne₂.symm] at heq
      exact ha.granted_inj j₁ j₂ (hpend j₁ hne₁.symm h₁).1 (hpend j₂ hne₂.symm h₂).1 heq

/-- A unit is given back. -/
theorem giveBack (ha : Accounted s locals g) (hs : Extends s s')
    (hcount : s'.implicitProducerHashCount = s.implicitProducerHashCount - 1)
    (hi : (locals i).pending ≠ none) (hl : l.pending = none)
    (hexiting : l.exiting = (locals i).exiting) :
    Accounted s' (update locals i l) (g.giveBack i) := by
  obtain ⟨n, hn⟩ := Option.ne_none_iff_exists'.mp hi
  obtain ⟨hmem, hnone, -⟩ := (ha.ledger i).pending n hn
  have hr := ha.reserved.same hs
  have hsub : ∀ v, v ∈ (g.giveBack i).units → v ∈ g.units := fun v => List.mem_of_mem_erase
  have hkeep : ∀ v, v ∈ g.units → v ≠ g.granted i → v ∈ (g.giveBack i).units :=
    fun v hv hne => (List.mem_erase_of_ne hne).mpr hv
  have howner : ∀ j h v, Owner s' g j h v → Owner s' (g.giveBack i) j h v :=
    fun _ _ _ ho => ⟨ho.first, ho.slot, ho.later⟩
  refine ⟨?_, ha.nodup.erase _, ha.ranked.sublist List.erase_sublist, ⟨?_, ?_, hr.unique⟩,
    Ledger.update_same ⟨?_, ?_, ?_, ?_⟩ ?_, ha.granted_inj_update fun h => absurd hl h, ha.own_inj⟩
  · rw [hcount, ha.count]
    exact (List.length_erase_of_mem hmem).symm
  · intro v h hv
    exact hr.home v h (hsub v hv)
  · intro h k hk
    obtain ⟨hv, h', hle, hsome⟩ := hr.slot h k hk
    -- the unit of a slot has been used, the one given back has not
    have hne : g.unit h k ≠ g.granted i := by
      intro heq
      rw [heq, hnone] at hsome
      cases hsome
    exact ⟨hkeep _ hv hne, h', hle, hsome⟩
  · rw [hl]
    exact nofun
  · intro hexit hown
    exact (hs.unnoticed i).absentFrom ((ha.ledger i).unregistered (hexiting ▸ hexit) hown)
  · intro hexit
    exact (ha.ledger i).exiting (hexiting ▸ hexit)
  · intro h v hown
    exact howner i h v (((ha.ledger i).owner h v hown).same hs)
  · intro j hj
    refine (ha.ledger j).transfer (hs.unnoticed j) rfl rfl ?_
      fun h v _ ho => howner j h v (ho.same hs)
    intro hp hv hfree
    exact ⟨hkeep _ hv fun heq => hj (ha.granted_inj j i hp hi heq), hfree, rfl⟩

/-- The thread takes over a slot of the current table. -/
theorem insertReusable (ha : Accounted s locals g) (ht : Tables hashThreadId s)
    (hset : SetsKey s s' h k (.id i))
    (hcount : s'.implicitProducerHashCount = s.implicitProducerHashCount)
    (hmain : h = s.implicitProducerHash) (hold : s.key h k = .invalidThreadId2)
    (habsent : AbsentFrom s i 0) (hpending : l.pending = (locals i).pending)
    (hexiting : l.exiting = false) :
    Accounted s' (update locals i l) (g.register i (some (h, g.unit h k))) := by
  have hfilled : s.key h k ≠ .invalidThreadId := by
    rw [hold]
    exact nofun
  have hself : (g.register i (some (h, g.unit h k))).own i = some (h, g.unit h k) :=
    update_self ..
  have hothers : ∀ j, j ≠ i → ∀ h' u, g.own j = some (h', u) → g.unit h k ≠ u := by
    intro j hj h' u hown heq
    have ho := (ha.ledger j).owner h' u hown
    obtain ⟨k', hkey, hu⟩ := ho.slot
    have hle : h' ≤ h := hmain ▸ (ht.bound h' k' (by rw [hkey]; exact nofun)).1
    -- in its own table the unit would be that of two slots, in a later one the slot
    -- would not be free for reuse
    rcases eq_or_lt_of_le hle with rfl | hlt
    · obtain rfl := ha.reserved.unique h' k' k (by rw [hkey]; exact nofun) hfilled
        (hu.trans heq.symm)
      exact absurd (hkey.symm.trans hold) nofun
    · exact absurd ((ho.later h k hlt hfilled heq).symm.trans hold) nofun
  have hr := ha.reserved.reuse hset hfilled
  refine ⟨hcount.trans ha.count, ha.nodup, ha.ranked, ⟨hr.home, hr.slot, hr.unique⟩,
    Ledger.update_same ⟨?_, ?_, ?_, ?_⟩ ?_, ha.granted_inj_update fun h => hpending ▸ h,
    ha.own_inj_update ?_⟩
  · rw [hpending]
    exact (ha.ledger i).pending
  · intro _ hnone
    exact absurd (hself.symm.trans hnone) nofun
  · rw [hexiting]
    exact nofun
  · intro h' u hown
    obtain ⟨rfl, rfl⟩ := Prod.mk.inj (Option.some.inj (hself.symm.trans hown))
    refine ⟨?_, ⟨k, hset.self, rfl⟩, ?_⟩
    · intro h' k' hk
      rcases hset.cases h' k' with ⟨rfl, -, -⟩ | ⟨-, heq⟩
      · exact le_rfl
      · exact absurd (heq.symm.trans hk) (habsent h' k' (Nat.zero_le h'))
    · intro h' k' hlt hk _
      rcases hset.cases h' k' with ⟨rfl, -, -⟩ | ⟨-, heq⟩
      · exact absurd hlt (lt_irrefl _)
      · have hle := (ht.bound h' k' (heq ▸ hk)).1
        omega
  · intro j hj
    have hne : s.key h k ≠ .id j := by
      rw [hold]
      exact nofun
    have hx : (Key.id i : Key ι) ≠ .id j := fun heq => hj (Key.id.inj heq).symm
    exact (ha.ledger j).transfer (hset.unnoticed nofun hne hx) (update_of_ne hj ..) rfl
      (fun _ hmem hhome => ⟨hmem, hhome, rfl⟩)
      fun h' u hown ho => ho.other hset hne hx (fun _ _ _ => rfl) fun _ => hothers j hj h' u hown
  · rintro h' u hsome j hj h'' hown
    cases hsome
    exact hothers j hj h'' _ hown rfl

/-- The thread fills a free slot. -/
theorem insertEmpty (ha : Accounted s locals g) {n : Nat} (hset : SetsKey s s' h k (.id i))
    (hcount : s'.implicitProducerHashCount = s.implicitProducerHashCount)
    (hle : h ≤ s.implicitProducerHash) (hold : s.key h k = .invalidThreadId)
    (habsent : AbsentFrom s i 0) (hi : (locals i).pending = some n)
    (hn : n < s.capacity h / 2 + s.capacity h / 4) (hl : l.pending = none)
    (hexiting : l.exiting = false) :
    ∃ g', Accounted s' (update locals i l) g' := by
  obtain ⟨hmem, hnone, hrank⟩ := (ha.ledger i).pending n hi
  let u := g.granted i
  let g₁ := g.setHome u h
  let g' := (g₁.setUnit h k u).register i (some (h, u))
  have hhome : g₁.home u = some h := update_self ..
  have hhome' : ∀ v, v ≠ u → g₁.home v = g.home v := fun v hv => update_of_ne hv ..
  have hself : g'.own i = some (h, u) := update_self ..
  -- the unit is new: no slot has it yet, and no thread
  have hslots : ∀ h' k', s.key h' k' ≠ .invalidThreadId → g.unit h' k' ≠ u := by
    intro h' k' hk heq
    obtain ⟨-, h'', -, hsome⟩ := ha.reserved.slot h' k' hk
    rw [heq, hnone] at hsome
    cases hsome
  have howners : ∀ j h' v, g.own j = some (h', v) → v ≠ u := by
    rintro j h' v hown rfl
    obtain ⟨-, h'', -, hsome⟩ := ((ha.ledger j).owner h' u hown).home ha.reserved
    exact absurd (hnone.symm.trans hsome) nofun
  have hr₁ : Reserved s g₁ := by
    refine ⟨?_, ?_, ha.reserved.unique⟩
    · intro v h' hv hsome
      rcases eq_or_ne v u with rfl | hne
      · obtain rfl := Option.some.inj (hhome.symm.trans hsome)
        exact ⟨hle, hrank ▸ hn⟩
      · exact ha.reserved.home v h' hv ((hhome' v hne).symm.trans hsome)
    · intro h' k' hk
      obtain ⟨hv, h'', hle', hsome⟩ := ha.reserved.slot h' k' hk
      exact ⟨hv, h'', hle', (hhome' _ (hslots h' k' hk)).trans hsome⟩
  have hr := hr₁.fresh hset hmem ⟨h, le_rfl, hhome⟩ (hslots h)
  have hunit : ∀ h' k', h' ≠ h ∨ k' ≠ k → g'.unit h' k' = g.unit h' k' :=
    fun _ _ hne => g₁.unit_setUnit_of_ne u hne
  have hunit' : g'.unit h k = u := g₁.unit_setUnit_self ..
  refine ⟨g', hcount.trans ha.count, ha.nodup, ha.ranked, ⟨hr.home, hr.slot, hr.unique⟩,
    Ledger.update_same ⟨?_, ?_, ?_, ?_⟩ ?_, ha.granted_inj_update fun h => absurd hl h,
    ha.own_inj_update ?_⟩
  · rw [hl]
    exact nofun
  · intro _ hown
    exact absurd (hself.symm.trans hown) nofun
  · rw [hexiting]
    exact nofun
  · intro h' v hown
    obtain ⟨rfl, rfl⟩ := Prod.mk.inj (Option.some.inj (hself.symm.trans hown))
    refine ⟨?_, ⟨k, hset.self, hunit'⟩, ?_⟩
    · intro h' k' hk
      rcases hset.cases h' k' with ⟨rfl, -, -⟩ | ⟨-, heq⟩
      · exact le_rfl
      · exact absurd (heq.symm.trans hk) (habsent h' k' (Nat.zero_le h'))
    · intro h' k' _ hk heq
      rcases hset.cases h' k' with ⟨-, -, hkey⟩ | ⟨hne, hkey⟩
      · exact hkey
      · exact absurd ((hunit h' k' hne).symm.trans heq) (hslots h' k' (hkey ▸ hk))
  · intro j hj
    have hne : s.key h k ≠ .id j := by
      rw [hold]
      exact nofun
    have hx : (Key.id i : Key ι) ≠ .id j := fun heq => hj (Key.id.inj heq).symm
    refine (ha.ledger j).transfer (hset.unnoticed nofun hne hx) (update_of_ne hj ..) rfl ?_
      fun h' v hown ho => ho.other hset hne hx hunit fun _ heq =>
        howners j h' v hown (heq.symm.trans hunit')
    intro hp hv hfree
    have hne' : g.granted j ≠ u :=
      fun heq => hj (ha.granted_inj j i hp (by rw [hi]; exact nofun) heq)
    exact ⟨hv, (hhome' _ hne').trans hfree, rfl⟩
  · rintro h' v hsome j hj h'' hown
    cases hsome
    exact howners j h'' u hown rfl

/-- The thread copies its entry to a newer table. -/
theorem copy (ha : Accounted s locals g) (hset : SetsKey s s' h k (.id i))
    (hcount : s'.implicitProducerHashCount = s.implicitProducerHashCount)
    (hold : s.key h k = .invalidThreadId ∨ s.key h k = .invalidThreadId2)
    (habsent : AbsentFrom s i h) (hfound : ∃ h' k', h' < h ∧ s.key h' k' = .id i)
    (hi : (locals i).exiting = false) (hl : l.pending = none) (hexiting : l.exiting = false) :
    ∃ g', Accounted s' (update locals i l) g' := by
  obtain ⟨h', k', hlt, hkey⟩ := hfound
  obtain ⟨⟨h₀, u₀⟩, hown⟩ : ∃ r, g.own i = some r := by
    refine Option.ne_none_iff_exists'.mp fun hnone => ?_
    exact (ha.ledger i).unregistered hi hnone h' k' (Nat.zero_le h') hkey
  have ho := (ha.ledger i).owner h₀ u₀ hown
  have hh₀ : h₀ < h := lt_of_le_of_lt (ho.first h' k' hkey) hlt
  have hne : ∀ j, s.key h k ≠ .id j := by
    intro j
    rcases hold with hold | hold <;> rw [hold] <;> exact nofun
  -- the same account, but that a free slot gets the thread's unit
  obtain ⟨g', hg', hr, hunit, hnew⟩ : ∃ g' : Account ι,
      (g'.units = g.units ∧ g'.rank = g.rank ∧ g'.home = g.home ∧ g'.granted = g.granted ∧
        g'.own = g.own) ∧ Reserved s' g' ∧
      (∀ h' k', h' ≠ h ∨ k' ≠ k → g'.unit h' k' = g.unit h' k') ∧
      ∀ j, j ≠ i → ∀ h' u, g.own j = some (h', u) → h' < h → g'.unit h k ≠ u := by
    rcases hold with hold | hold
    · refine ⟨g.setUnit h k u₀, ⟨rfl, rfl, rfl, rfl, rfl⟩, ?_,
        fun _ _ hne => g.unit_setUnit_of_ne u₀ hne, ?_⟩
      · obtain ⟨hu, h₁, hle, hhome⟩ := ho.home ha.reserved
        refine ha.reserved.fresh hset hu ⟨h₁, hle.trans hh₀.le, hhome⟩ ?_
        intro k₁ hk₁ heq
        exact habsent h k₁ le_rfl (ho.later h k₁ hh₀ hk₁ heq)
      · intro j hj h' u hown' _ heq
        rw [g.unit_setUnit_self] at heq
        exact hj (ha.own_inj j i h' h₀ u hown' (heq ▸ hown))
    · have hfilled : s.key h k ≠ .invalidThreadId := by
        rw [hold]
        exact nofun
      refine ⟨g, ⟨rfl, rfl, rfl, rfl, rfl⟩, ha.reserved.reuse hset hfilled, fun _ _ _ => rfl, ?_⟩
      intro j _ h' u hown' hlt' heq
      exact hne j (((ha.ledger j).owner h' u hown').later h k hlt' hfilled heq)
  obtain ⟨hunits, hrank, hhome, hgranted, hown'⟩ := hg'
  refine ⟨g', ?_, ?_, ?_, hr, Ledger.update_same ⟨?_, ?_, ?_, ?_⟩ ?_, ?_, ?_⟩
  · rw [hcount, hunits, ha.count]
  · rw [hunits]
    exact ha.nodup
  · rw [hunits, hrank]
    exact ha.ranked
  · rw [hl]
    exact nofun
  · rw [hown', hown]
    exact fun _ => nofun
  · rw [hexiting]
    exact nofun
  · intro h₁ u₁ hsome
    rw [hown', hown] at hsome
    cases hsome
    exact ho.copied hset (hne i) hh₀.le hunit
  · intro j hj
    have hx : (Key.id i : Key ι) ≠ .id j := fun heq => hj (Key.id.inj heq).symm
    refine (ha.ledger j).transfer (hset.unnoticed nofun (hne j) hx) (by rw [hown'])
      (by rw [hgranted]) ?_ fun h' u hsome hoj => hoj.other hset (hne j) hx hunit
        (hnew j hj h' u hsome)
    rw [hunits, hhome, hrank]
    exact fun _ hmem hfree => ⟨hmem, hfree, rfl⟩
  · rw [hgranted]
    exact ha.granted_inj_update fun h => absurd hl h
  · rw [hown']
    exact ha.own_inj

/-- An exiting thread leaves a slot. -/
theorem leave (ha : Accounted s locals g) (hset : SetsKey s s' h k .invalidThreadId2)
    (hcount : s'.implicitProducerHashCount = s.implicitProducerHashCount)
    (hold : s.key h k = .id i) (hi : (locals i).exiting = true) (hl : l.pending = none)
    (hexiting : l.exiting = true) : Accounted s' (update locals i l) g := by
  have hfilled : s.key h k ≠ .invalidThreadId := by
    rw [hold]
    exact nofun
  have hnone := (ha.ledger i).exiting hi
  refine ⟨hcount.trans ha.count, ha.nodup, ha.ranked, ha.reserved.reuse hset hfilled,
    Ledger.update_same ⟨?_, ?_, ?_, ?_⟩ ?_, ha.granted_inj_update fun h => absurd hl h, ha.own_inj⟩
  · rw [hl]
    exact nofun
  · rw [hexiting]
    exact nofun
  · exact fun _ => hnone
  · rw [hnone]
    exact nofun
  · intro j hj
    have hne : s.key h k ≠ .id j := by
      rw [hold]
      exact fun heq => hj (Key.id.inj heq).symm
    exact (ha.ledger j).transfer (hset.unnoticed nofun hne nofun) rfl rfl
      (fun _ hmem hhome => ⟨hmem, hhome, rfl⟩) fun h' u hown ho =>
        ho.other hset hne nofun (fun _ _ _ => rfl) fun hlt heq => hne (ho.later h k hlt hfilled heq)

/-- A step that changes neither the state nor what the account says. -/
theorem pass (ha : Accounted s locals g) (hi : locals i = pc) (hpending : l.pending = pc.pending)
    (hexiting : l.exiting = pc.exiting) : ∃ g', Accounted s (update locals i l) g' :=
  ⟨g, ha.move (SameKeys.refl s).extends rfl (hi ▸ hpending) (hi ▸ hexiting)⟩

theorem step (ha : Accounted s locals g) (hs : Keys hashThreadId s locals) {a : Act}
    (hok : (locals i).ReusesCurrent s)
    (hx : exec hashThreadId i a s (locals i) = some (s', l)) :
    ∃ g', Accounted s' (update locals i l) g' := by
  have ht := hs.tables
  have hknown := hs.known i
  cases hi : locals i <;> rw [hi] at hx hknown hok <;> cases a <;>
    simp only [exec, reduceCtorEq] at hx
  case idle.call =>
    cases hx
    exact ha.pass hi rfl rfl
  case idle.exit =>
    split at hx
    case h_1 =>
      cases hx
      exact ⟨_, ha.unregister (SameKeys.refl s).extends rfl rfl
        fun hexiting => absurd hexiting.symm Bool.false_ne_true⟩
    case h_2 => cases hx
  case lookup.run mainHash hash index =>
    split at hx
    case h_1 =>
      split at hx
      case isTrue =>
        split at hx
        all_goals
          cases hx
          exact ha.pass hi rfl rfl
      case isFalse =>
        cases hx
        exact ha.pass hi rfl rfl
    case h_2 =>
      cases hx
      exact ha.pass hi rfl rfl
    case h_3 =>
      cases hx
      exact ha.pass hi nextLookup_pending.1 nextLookup_pending.2
  case copyEmpty.run mainHash index value =>
    obtain ⟨hle, habsent, hfound, -⟩ := hknown
    split at hx
    case isTrue hkey =>
      cases hx
      exact ha.copy (setsKey_setEntry ..) rfl (.inl hkey) habsent hfound
        (by rw [hi]; rfl) rfl rfl
    case isFalse =>
      cases hx
      exact ha.pass hi rfl rfl
  case copyReusable.run mainHash index value =>
    obtain ⟨hle, habsent, hfound, -⟩ := hknown
    split at hx
    case isTrue hkey =>
      cases hx
      exact ha.copy (setsKey_setEntry ..) rfl (.inr hkey) habsent hfound
        (by rw [hi]; rfl) rfl rfl
    case isFalse =>
      cases hx
      exact ha.pass hi rfl rfl
  case fetchAdd.run mainHash =>
    cases hx
    exact ha.grant ⟨rfl, fun _ _ => rfl, le_rfl⟩ rfl insertLoop_pending.1
      (by rw [hi]; exact insertLoop_pending.2)
  case testAndSet.run mainHash newCount =>
    split at hx
    case isTrue =>
      cases hx
      exact ha.pass hi tryInsert_pending.1 tryInsert_pending.2
    case isFalse =>
      cases hx
      exact ⟨g, ha.move ⟨rfl, fun _ _ => rfl, le_rfl⟩ rfl (by rw [hi]; rfl)
        (by rw [hi]; rfl)⟩
  case loadLocked.run newCount =>
    split at hx
    all_goals
      cases hx
      exact ha.pass hi rfl rfl
  case allocate.malloc mainHash newCount success =>
    split at hx
    all_goals
      cases hx
      exact ha.pass hi rfl rfl
  case allocateSub.run newCount =>
    cases hx
    exact ⟨_, ha.giveBack ⟨rfl, fun _ _ => rfl, le_rfl⟩ rfl
      (by rw [hi]; exact Option.some_ne_none _) rfl (by rw [hi]; rfl)⟩
  case allocateClear.run =>
    cases hx
    exact ⟨g, ha.move ⟨rfl, fun _ _ => rfl, le_rfl⟩ rfl (by rw [hi]; rfl) (by rw [hi]; rfl)⟩
  case publish.run mainHash newCount capacity =>
    cases hx
    exact ⟨g, ha.move (ht.extends_publish ..) rfl (by rw [hi]; rfl) (by rw [hi]; rfl)⟩
  case clear.run mainHash newCount =>
    cases hx
    exact ⟨g, ha.move ⟨rfl, fun _ _ => rfl, le_rfl⟩ rfl
      (by rw [hi]; exact tryInsert_pending.1)
      (by rw [hi]; exact tryInsert_pending.2)⟩
  case recycle.producer mainHash newCount result =>
    cases result with
    | some producer =>
        cases hx
        exact ⟨g, ha.move ⟨rfl, fun _ _ => rfl, le_rfl⟩ rfl (by rw [hi]; rfl)
          (by rw [hi]; rfl)⟩
    | none =>
        cases hx
        exact ha.pass hi rfl rfl
  case recycleSub.run newCount =>
    cases hx
    exact ⟨_, ha.giveBack ⟨rfl, fun _ _ => rfl, le_rfl⟩ rfl
      (by rw [hi]; exact Option.some_ne_none _) rfl (by rw [hi]; rfl)⟩
  case insertReusable.run mainHash newCount index producer =>
    obtain ⟨hle, habsent, -⟩ := hknown
    split at hx
    case isTrue hkey =>
      cases hx
      exact ⟨_, ha.insertReusable ht (setsKey_setKey ..) rfl (hok hkey) hkey habsent
        (by rw [hi]; rfl) rfl⟩
    case isFalse =>
      cases hx
      exact ha.pass hi rfl rfl
  case insertEmpty.run mainHash newCount index producer =>
    obtain ⟨hle, habsent, hlt, -⟩ := hknown
    split at hx
    case isTrue hkey =>
      cases hx
      exact ha.insertEmpty (setsKey_setEntry ..) rfl hle hkey habsent
        (by rw [hi]; rfl) hlt rfl rfl
    case isFalse =>
      cases hx
      exact ha.pass hi rfl rfl
  case refund.run mainHash newCount k producer =>
    cases hx
    obtain ⟨hkey, hcap, -, -, hmain⟩ := sameKeys_setValue s.subCount mainHash k
      (some producer)
    exact ⟨_, ha.giveBack ⟨hkey, fun h _ => congrFun hcap h, hmain.ge⟩ rfl
      (by rw [hi]; exact Option.some_ne_none _) rfl (by rw [hi]; rfl)⟩
  case reload.run newCount =>
    cases hx
    exact ha.pass hi insertLoop_pending.1 insertLoop_pending.2
  case exitScan.run hash index producer =>
    split at hx
    case isTrue hkey =>
      cases hx
      exact ⟨g, ha.leave (setsKey_setKey ..) rfl hkey (by rw [hi]; rfl) nextExit_pending.1
        nextExit_pending.2⟩
    case isFalse =>
      split at hx
      case isTrue =>
        cases hx
        exact ha.pass hi nextExit_pending.1 nextExit_pending.2
      case isFalse =>
        cases hx
        exact ha.pass hi rfl rfl
  case release.run producer =>
    cases hx
    exact ⟨_, ha.unregister ⟨rfl, fun _ _ => rfl, le_rfl⟩ rfl rfl fun _ => hknown⟩

end Accounted

end Steps

/-! ### Every interleaving -/

section Reachable

variable {hashThreadId : ι → Nat} {c : Conf ι (State ι) PC}

theorem accounted_init (hinit : Init c) : ∃ g, Accounted c.shared c.locals g := by
  obtain ⟨-, -, -, hcount, -, hkey, -, hidle⟩ := hinit
  refine ⟨⟨[], fun _ => 0, fun _ => none, fun _ _ => 0, fun _ => 0, fun _ => none⟩, hcount,
    List.nodup_nil, trivial, ⟨nofun, ?_, ?_⟩, ?_, ?_, nofun⟩
  · intro h k hk
    exact absurd (hkey h k) hk
  · intro h k k' hk
    exact absurd (hkey h k) hk
  · intro i
    rw [hidle]
    exact ⟨nofun, fun _ _ h k _ hk => absurd ((hkey h k).symm.trans hk) nofun, nofun, nofun⟩
  · intro i j hi
    rw [hidle] at hi
    exact absurd rfl hi

/-- **In every run in which insertions take over slots only in the table that is
current then**, every table that is searched has a free slot. -/
theorem probing_ends [DecidableEq ι] (h : (exec hashThreadId).ReachableWhen ReusesCurrent Init c)
    (hash : Nat) (hc : InChain c.shared hash) :
    ∃ k < c.shared.capacity hash, c.shared.key hash k = .invalidThreadId := by
  obtain ⟨hkeys, g, ha⟩ := h.invariant
    (I := fun c => Keys hashThreadId c.shared c.locals ∧ ∃ g, Accounted c.shared c.locals g)
    (fun _ hinit => ⟨keys_init hinit, accounted_init hinit⟩)
    fun _ _ _ _ _ ⟨hkeys, g, ha⟩ hok hx => ⟨hkeys.step hx, ha.step hkeys hok hx⟩
  exact ha.exists_free hkeys.tables (hc.le hkeys.tables)

end Reachable

/-! ### Runs -/

section Runs

/-- A table of eight slots. -/
def start : Conf Nat (State Nat) PC where
  shared :=
    { table := fun _ => .empty 8 none, created := 1, implicitProducerHash := 0
      implicitProducerHashCount := 0, resizeInProgress := false, listener := fun _ => none }
  locals := fun _ => .idle

theorem start_init : Init start :=
  ⟨⟨3, rfl⟩, rfl, rfl, rfl, rfl, fun _ _ => rfl, fun _ => rfl, fun _ => rfl⟩

/-- Thread 1 takes over the slot of thread 0. -/
theorem probing_ends_visits :
    ∃ c, (exec fun _ => 0).ReachableWhen ReusesCurrent Init c ∧ c.shared.key 0 0 = .id 1 ∧
      ∃ k < c.shared.capacity 0, c.shared.key 0 k = .invalidThreadId := by
  obtain ⟨c, hrun, hmain, hkey⟩ : ∃ c, (exec fun _ => 0).runWhen ReusesCurrent
      ([.call, .run, .run, .producer (some 0), .run, .run, .exit, .run, .run].map ((0, ·)) ++
        [.call, .run, .run, .run, .producer (some 0), .run, .run].map ((1, ·))) start = some c ∧
      c.shared.implicitProducerHash = 0 ∧ c.shared.key 0 0 = .id 1 := ⟨_, rfl, rfl, rfl⟩
  have hstart : (exec fun _ => 0).ReachableWhen ReusesCurrent Init start := .start start_init
  have hreach := hstart.run _ hrun
  exact ⟨c, hreach, hkey, probing_ends hreach 0 (hmain ▸ .main)⟩

/-! The run in which the second table fills up. Threads 0, 1 and 2 leave slots 0, 2 and
4 of the first table for reuse. Threads 4 to 19 have looked up the first table
when thread 3 makes the second one and stops, with the resize lock. Each of them in
turn takes over a slot of the first table, is copied to the second one and exits;
its slot there is taken over by one of the threads 20 to 34, which stays. -/

/-- The slot of the second table from which late thread `i` looks. -/
def lateHash (i : Nat) : Nat := 8 * (i / 8) + if i % 8 < 4 then 2 * (i % 8 / 2) else 4

def exampleHash (i : Nat) : Nat :=
  if i < 3 then 2 * i else if i = 3 then 7 else if i < 20 then lateHash (i - 4) else i - 20

def runs (n : Nat) : List Act := List.replicate n .run

/-- A producer that is inactive then, or a new one. -/
def exampleProducer (i : Nat) : Nat := if i < 3 then 2 - i else i

def visit (i : Nat) : List (Nat × List Act) :=
  [(i, [.call, .run, .run, .producer (some i), .run, .run]), (i, [.exit, .run, .run])]

def grow : List (Nat × List Act) := [(3, .call :: runs 4 ++ [.malloc true, .run])]

/-- The late thread takes over a slot of the first table, without the lock, and at its
second call is copied to the second one. -/
def enter (i : Nat) : List (Nat × List Act) :=
  [(4 + i, runs 4 ++ [.producer (some (exampleProducer i))] ++ runs 2),
    (4 + i, .call :: runs (3 * (i - lateHash i) + 3))]

/-- It exits, and another thread takes over its slot of the second table. -/
def replaced (i : Nat) : List (Nat × List Act) :=
  [(4 + i, .exit :: runs (i - lateHash i + 3)),
    (20 + i, .call :: runs (if i % 8 < 6 ∧ i % 2 = 0 then 5 else 4) ++
      [.producer (some (exampleProducer i))] ++ runs 2)]

def overfull : List (Nat × List Act) :=
  (List.range 3).flatMap visit ++ (List.range 16).map (fun i => (4 + i, [.call])) ++ grow ++
    (List.range 15).flatMap (fun i => enter i ++ replaced i) ++ enter 15

def full (c : Conf Nat (State Nat) PC) : Bool :=
  c.shared.implicitProducerHash = 1 && c.shared.capacity 1 = 16 &&
    (List.range 16).all fun k => c.shared.key 1 k ≠ .invalidThreadId

/-- **The current table fills up**, with the counter at 4. -/
theorem table_fills_up :
    ∃ c, (exec exampleHash).Reachable Init c ∧ InChain c.shared 1 ∧
      ∀ k < c.shared.capacity 1, c.shared.key 1 k ≠ .invalidThreadId := by
  have hfull : ((exec exampleHash).turns overfull start).any full = true := by decide +kernel
  obtain ⟨c, hturns, hc⟩ := Option.any_eq_true .. |>.mp hfull
  simp only [full, Bool.and_eq_true, decide_eq_true_eq, List.all_eq_true, List.mem_range] at hc
  obtain ⟨⟨hmain, hcap⟩, hkeys⟩ := hc
  refine ⟨c, (Exec.Reachable.start start_init).turns _ hturns, hmain ▸ .main, ?_⟩
  rw [hcap]
  exact hkeys

end Runs

end ConcurrentQueue.ImplicitHash
