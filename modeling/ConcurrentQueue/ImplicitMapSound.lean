import ConcurrentQueue.ImplicitMap
import ConcurrentQueue.ImplicitHashKeys
import ConcurrentQueue.Lib.Fuel

/-!
# ConcurrentQueue.ImplicitMapSound

Calls that do not overlap: **the tables are a map from threads to producers.** The
abstract state is that map; a call returns what it has for the thread, or adds a
producer that nobody has, and an exit removes the thread.

The tables stay less than half full because of the counter: it is at least the
number of filled slots of the current table plus the number of registered threads
that are not in it yet.

A capacity is at most `2^(w - 1)`, so a table with more than `2^(w - 2)` slots to fill
cannot be had, and **the loop that looks for its capacity goes on for ever**: every call
comes back but for the insertion that would count that many.
-/

namespace ConcurrentQueue.ImplicitHash

open Function Probing Fuel

variable {ι : Type*} {hashThreadId : ι → Nat} {s s' : State ι} {h k index hash : Nat} {i j : ι}

/-! ### Loops that come to an end -/

section Probe

variable {stop : Key ι → Bool} {fuel : Nat}

/-- What the loop has found. -/
theorem probe_spec (ht : Tables hashThreadId s) (hh : h ≤ s.implicitProducerHash)
    (hw : Searching hashThreadId s i (stop · = false) h index)
    (hp : (s.table h).probe stop fuel index = some k) :
    k < s.capacity h ∧ stop (s.key h k) = true ∧
      Searching hashThreadId s i (stop · = false) h k := by
  induction fuel generalizing index with
  | zero => cases hp
  | succ fuel ih =>
      unfold ImplicitProducerHash.probe at hp
      rw [ht.slot_eq hh] at hp
      split at hp
      case isTrue hstop =>
          obtain rfl := Option.some.inj hp
          exact ⟨Nat.mod_lt _ (ht.capacity_pos hh), hstop, Walk.congr_mod hw (Nat.mod_mod ..)⟩
      case isFalse hstop => exact ih (Walk.next hw (Bool.not_eq_true _ ▸ hstop)) hp

theorem probe_isSome (ht : Tables hashThreadId s) (hh : h ≤ s.implicitProducerHash) (fuel : Nat)
    {start m n : Nat}
    (hindex : index % s.capacity h = (start + m) % s.capacity h) (hm : m ≤ n) (hn : n < m + fuel)
    (hstop : stop (s.key h ((start + n) % s.capacity h)) = true) :
    ∃ k, (s.table h).probe stop fuel index = some k := by
  induction fuel generalizing index m with
  | zero => omega
  | succ fuel ih =>
      unfold ImplicitProducerHash.probe
      rw [ht.slot_eq hh]
      split
      case isTrue => exact ⟨_, rfl⟩
      case isFalse hgo =>
          have hne : m ≠ n := by
            rintro rfl
            rw [← hindex] at hstop
            exact hgo hstop
          refine ih (m := m + 1) ?_ (by omega) (by omega)
          rw [hindex, Nat.mod_add_mod, Nat.add_assoc]

/-- A loop that has somewhere to stop comes back. -/
theorem probe_returns (ht : Tables hashThreadId s) (hh : h ≤ s.implicitProducerHash)
    (stop : Key ι → Bool) (start : Nat)
    (hstop : ∃ x < s.capacity h, stop (s.key h x) = true) :
    ∃ k, ∀ fuel, s.capacity h ≤ fuel → (s.table h).probe stop fuel start = some k := by
  obtain ⟨x, hx, hstop⟩ := hstop
  obtain ⟨n, hn, rfl⟩ := exists_offset start hx
  obtain ⟨k, hk⟩ := probe_isSome ht hh (s.capacity h) (m := 0) rfl (Nat.zero_le n) (by omega) hstop
  exact ⟨k, fun fuel hle => probe_mono hk hle⟩

end Probe

/-! ### The search through the tables -/

section Lookup

variable [DecidableEq ι]

/-- Every table that is searched from `hash` on has a free slot. -/
def Free (s : State ι) (hash : Nat) : Prop :=
  ∀ h ≤ hash, ∃ k < s.capacity h, s.key h k = .invalidThreadId

/-- The loop over one table, for a thread's id. -/
theorem probe_id (ht : Tables hashThreadId s) (hh : h ≤ s.implicitProducerHash)
    (hfree : ∃ k < s.capacity h, s.key h k = .invalidThreadId) (i : ι) :
    ∃ k, (∀ fuel, s.capacity h ≤ fuel →
      (s.table h).probe (stopsAt i) fuel (hashThreadId i) = some k) ∧
      (s.key h k = .id i ∨ ∀ k', s.key h k' ≠ .id i) := by
  obtain ⟨x, hx, hempty⟩ := hfree
  obtain ⟨k, hk⟩ := probe_returns ht hh (stopsAt i) (hashThreadId i)
    ⟨x, hx, by simp [stopsAt, hempty]⟩
  refine ⟨k, hk, ?_⟩
  obtain ⟨hlt, hstop, hw⟩ := probe_spec ht hh (i := i) Walk.start (hk _ le_rfl)
  simp only [stopsAt, Bool.or_eq_true, decide_eq_true_eq] at hstop
  refine hstop.imp_right fun hnone k' hkey => ?_
  -- the search has not passed the id, and it stands where a search finds it
  have hw' : Searching hashThreadId s i (· ≠ .id i) h k := by
    refine Walk.imp hw fun m hm heq => ?_
    simp [stopsAt, heq] at hm
  have hempty' : s.key h (k % s.capacity h) = .invalidThreadId := by rwa [Nat.mod_eq_of_lt hlt]
  exact Walk.not_found hw' hempty' nofun (ht.placed h k' i hkey)
    (ht.bound h k' (by rw [hkey]; exact nofun)).2 hkey

/-- What a search says about the tables up to `hash`. -/
def Located (s : State ι) (i : ι) (hash : Nat) : Option (Nat × Nat) → Prop
  | some (h, k) => h ≤ hash ∧ s.key h k = .id i ∧ ∀ h' k', h < h' → h' ≤ hash → s.key h' k' ≠ .id i
  | none => ∀ h k, h ≤ hash → s.key h k ≠ .id i

theorem lookup_returns (ht : Tables hashThreadId s) (hh : hash ≤ s.implicitProducerHash)
    (hfree : Free s hash) (i : ι) :
    ∃ r, Located s i hash r ∧ ∀ fuel n, s.capacity hash ≤ fuel → hash < n →
      s.lookup hashThreadId i fuel n hash = some r := by
  -- down the chain of the tables, which are numbered along it
  induction hash with
  | zero =>
      obtain ⟨k, hk, hor⟩ := probe_id ht hh (hfree 0 le_rfl) i
      refine ⟨if s.key 0 k = .id i then some (0, k) else none, ?_, ?_⟩
      · split
        case isTrue hkey => exact ⟨le_rfl, hkey, fun h' _ hlt hle => by omega⟩
        case isFalse hkey =>
            intro h k' hle
            obtain rfl : h = 0 := by omega
            exact hor.resolve_left hkey k'
      · intro fuel n hfuel hn
        obtain ⟨n, rfl⟩ := Nat.exists_eq_succ_of_ne_zero (by omega : n ≠ 0)
        simp only [State.lookup, hk fuel hfuel, ht.prev_zero]
        split <;> rfl
  | succ hash ih =>
      obtain ⟨r, hr, hlookup⟩ := ih (by omega) fun h hle => hfree h (by omega)
      obtain ⟨k, hk, hor⟩ := probe_id ht hh (hfree (hash + 1) le_rfl) i
      have hcap := ht.capacity_mono (Nat.le_succ hash) hh
      refine ⟨if s.key (hash + 1) k = .id i then some (hash + 1, k) else r, ?_, ?_⟩
      · split
        case isTrue hkey => exact ⟨le_rfl, hkey, fun h' _ hlt hle => by omega⟩
        case isFalse hkey =>
            have habsent := hor.resolve_left hkey
            cases r with
            | some p =>
                obtain ⟨hle, hkey', hlater⟩ := hr
                refine ⟨by omega, hkey', fun h' k' hlt hle' => ?_⟩
                rcases eq_or_ne h' (hash + 1) with rfl | hne
                · exact habsent k'
                · exact hlater h' k' hlt (by omega)
            | none =>
                intro h' k' hle'
                rcases eq_or_ne h' (hash + 1) with rfl | hne
                · exact habsent k'
                · exact hr h' k' (by omega)
      · intro fuel n hfuel hn
        obtain ⟨n, rfl⟩ := Nat.exists_eq_succ_of_ne_zero (by omega : n ≠ 0)
        simp only [State.lookup, hk fuel hfuel, ht.prev_succ hash (by omega)]
        split
        case isTrue => rfl
        case isFalse =>
            exact hlookup fuel n (by simp only [Nat.succ_eq_add_one] at hcap; omega) (by omega)

/-- The loop of the copy and of the insertion. -/
theorem probe_available (ht : Tables hashThreadId s) (hh : h ≤ s.implicitProducerHash)
    (hfree : ∃ k < s.capacity h, s.key h k = .invalidThreadId) (i : ι) :
    ∃ k, (∀ fuel, s.capacity h ≤ fuel →
      (s.table h).probe available fuel (hashThreadId i) = some k) ∧
      (s.key h k = .invalidThreadId ∨ s.key h k = .invalidThreadId2) ∧ k < s.capacity h ∧
        Searching hashThreadId s i (· ≠ .invalidThreadId) h k := by
  obtain ⟨x, hx, hempty⟩ := hfree
  obtain ⟨k, hk⟩ := probe_returns ht hh available (hashThreadId i)
    ⟨x, hx, by simp [available, hempty]⟩
  obtain ⟨hlt, hstop, hw⟩ := probe_spec ht hh (i := i) Walk.start (hk _ le_rfl)
  simp only [available, Bool.or_eq_true, decide_eq_true_eq] at hstop
  refine ⟨k, hk, hstop, hlt, Walk.imp hw fun m hm heq => ?_⟩
  simp [available, heq] at hm

end Lookup

/-! ### The map -/

section Map

variable {m : ι → Option Nat} {x : Key ι} {c : Nat}

/-- The entries of the tables are those of the map. -/
structure Entries (s : State ι) (m : ι → Option Nat) : Prop where
  value : ∀ h k i, s.key h k = .id i → m i ≠ none ∧ (s.table h).value k = m i
  present : ∀ i, m i ≠ none → ∃ h k, s.key h k = .id i

theorem Entries.congr (he : Entries s m) (ht : s'.table = s.table) : Entries s' m := by
  have hkey : ∀ h k, s'.key h k = s.key h k := fun h k => by rw [State.key, ht]; rfl
  refine ⟨fun h k i hk => ?_, fun i hi => ?_⟩
  · rw [ht]
    exact he.value h k i ((hkey h k).symm.trans hk)
  · obtain ⟨h, k, hk⟩ := he.present i hi
    exact ⟨h, k, (hkey h k).trans hk⟩

theorem Entries.eq_none (he : Entries s m) : m i = none ↔ AbsentFrom s i 0 := by
  refine ⟨fun hnone h k _ hk => (he.value h k i hk).1 hnone, fun habsent => ?_⟩
  by_contra hne
  obtain ⟨h, k, hk⟩ := he.present i hne
  exact habsent h k (Nat.zero_le h) hk

theorem Entries.publish (he : Entries s m) (ht : Tables hashThreadId s) (mainHash capacity : Nat) :
    Entries (s.publish mainHash capacity) m := by
  have hkey := ht.key_publish mainHash capacity
  refine ⟨fun h k i hk => ?_, fun i hi => ?_⟩
  · rw [hkey] at hk
    have hle := (ht.bound h k (by rw [hk]; exact nofun)).1
    have hcreated := ht.created
    rw [table_publish_of_ne (by omega)]
    exact he.value h k i hk
  · obtain ⟨h, k, hk⟩ := he.present i hi
    exact ⟨h, k, (hkey h k).trans hk⟩

theorem value_setEntry_self (s : State ι) (h k : Nat) (x : Key ι) (v : Option Nat) :
    ((s.setEntry h k x v).table h).value k = v := by
  simp [State.setEntry, ImplicitProducerHash.setEntry, ImplicitProducerHash.setValue]

theorem value_setEntry_of_ne (x : Key ι) (v : Option Nat) {h' k' : Nat} (hne : h' ≠ h ∨ k' ≠ k) :
    ((s.setEntry h k x v).table h').value k' = (s.table h').value k' := by
  rcases eq_or_ne h' h with rfl | hh
  · have hk : k' ≠ k := hne.resolve_left fun h => h rfl
    simp [State.setEntry, ImplicitProducerHash.setEntry, ImplicitProducerHash.setValue,
      ImplicitProducerHash.setKey, update_of_ne hk]
  · simp [State.setEntry, update_of_ne hh]

/-- A slot gets the entry of a thread. -/
theorem Entries.setEntry [DecidableEq ι] (he : Entries s m) {p : Nat}
    (hold : ∀ j, s.key h k ≠ .id j) (hm : m i = none ∨ m i = some p) :
    Entries (s.setEntry h k (.id i) (some p)) (update m i (some p)) := by
  have hset := setsKey_setEntry s h k (.id i) (some p)
  refine ⟨fun h' k' j hk => ?_, fun j hj => ?_⟩
  · rcases hset.cases h' k' with ⟨rfl, rfl, heq⟩ | ⟨hne, heq⟩
    · obtain rfl := Key.id.inj (heq.symm.trans hk)
      rw [update_self, value_setEntry_self]
      exact ⟨nofun, rfl⟩
    · obtain ⟨hsome, hvalue⟩ := he.value h' k' j (heq.symm.trans hk)
      rw [value_setEntry_of_ne _ _ hne, hvalue]
      rcases eq_or_ne i j with rfl | hij
      · rw [update_self, hm.resolve_left hsome]
        exact ⟨nofun, rfl⟩
      · rw [update_of_ne hij.symm]
        exact ⟨hsome, rfl⟩
  · rcases eq_or_ne i j with rfl | hij
    · exact ⟨h, k, hset.self⟩
    · rw [update_of_ne hij.symm] at hj
      obtain ⟨h', k', hk⟩ := he.present j hj
      refine ⟨h', k', (hset.other h' k' ?_).trans hk⟩
      by_contra hsame
      push Not at hsame
      exact hold j (hsame.1 ▸ hsame.2 ▸ hk)

end Map

/-! ### The exit -/

/-- The id of thread `i` has been replaced in the tables from `h₀` on. -/
structure Left (s s' : State ι) (i : ι) (h₀ : Nat) : Prop where
  reusable : ∀ h k, h₀ ≤ h → s.key h k = .id i → s'.key h k = .invalidThreadId2
  below : ∀ h k, h < h₀ → s'.key h k = s.key h k
  other : ∀ h k, s.key h k ≠ .id i → s'.key h k = s.key h k
  value : ∀ h k, (s'.table h).value k = (s.table h).value k
  capacity : s'.capacity = s.capacity
  prev : ∀ h, (s'.table h).prev = (s.table h).prev
  main : s'.implicitProducerHash = s.implicitProducerHash
  count : s'.implicitProducerHashCount = s.implicitProducerHashCount
  resize : s'.resizeInProgress = s.resizeInProgress
  listener : s'.listener = s.listener

theorem Left.trans {s₁ : State ι} {h₀ h₁ : Nat} (hl : Left s s₁ i h₁) (hl' : Left s₁ s' i h₀)
    (hle : h₀ ≤ h₁) : Left s s' i h₀ := by
  refine ⟨?_, ?_, ?_, fun h k => (hl'.value h k).trans (hl.value h k),
    hl'.capacity.trans hl.capacity,
    fun h => (hl'.prev h).trans (hl.prev h), hl'.main.trans hl.main, hl'.count.trans hl.count,
    hl'.resize.trans hl.resize, hl'.listener.trans hl.listener⟩
  · intro h k hh hk
    rcases Nat.lt_or_ge h h₁ with hlt | hge
    · exact hl'.reusable h k hh ((hl.below h k hlt).trans hk)
    · have hgone := hl.reusable h k hge hk
      rw [hl'.other h k (by rw [hgone]; exact nofun), hgone]
  · intro h k hh
    rw [hl'.below h k hh, hl.below h k (by omega)]
  · intro h k hk
    have hsame := hl.other h k hk
    rw [hl'.other h k (by rwa [hsame]), hsame]

theorem value_setKey (s : State ι) (h k : Nat) (x : Key ι) (h' k' : Nat) :
    ((s.setKey h k x).table h').value k' = (s.table h').value k' := by
  rcases eq_or_ne h' h with rfl | hh
  · simp [State.setKey, ImplicitProducerHash.setKey]
  · simp [State.setKey, update_of_ne hh]

section Exit

variable [DecidableEq ι]

/-- The loop over one table. -/
theorem leave_table (ht : Tables hashThreadId s) (hh : hash ≤ s.implicitProducerHash)
    (hfree : ∃ k < s.capacity hash, s.key hash k = .invalidThreadId)
    (habsent : AbsentFrom s i (hash + 1)) :
    ∃ k s', (∀ fuel, s.capacity hash ≤ fuel →
      (s.table hash).probe (stopsAt i) fuel (hashThreadId i) = some k) ∧
      (if s.key hash k = .id i then s.setKey hash k .invalidThreadId2 else s) = s' ∧
      Tables hashThreadId s' ∧ Left s s' i hash := by
  obtain ⟨k, hk, hor⟩ := probe_id ht hh hfree i
  refine ⟨k, _, hk, rfl, ?_⟩
  split
  case isTrue hkey =>
      have hset := setsKey_setKey s hash k .invalidThreadId2
      have hlt := (ht.bound hash k (by rw [hkey]; exact nofun)).2
      refine ⟨ht.sets hset nofun hh hlt nofun nofun, ?_, ?_, ?_, value_setKey s hash k _,
        hset.capacity, hset.prev, rfl, rfl, rfl, rfl⟩
      · intro h k' hle hk'
        rcases eq_or_lt_of_le hle with rfl | hlt'
        · rw [ht.unique _ k' k i hk' hkey]
          exact hset.self
        · exact absurd hk' (habsent h k' hlt')
      · intro h k' hh'
        exact hset.other h k' (.inl hh'.ne)
      · intro h k' hk'
        refine hset.other h k' ?_
        by_contra hsame
        push Not at hsame
        exact hk' (hsame.1 ▸ hsame.2 ▸ hkey)
  case isFalse hkey =>
      refine ⟨ht, ?_, fun _ _ _ => rfl, fun _ _ _ => rfl, fun _ _ => rfl, rfl, fun _ => rfl, rfl,
        rfl, rfl, rfl⟩
      intro h k' hle hk'
      rcases eq_or_lt_of_le hle with rfl | hlt'
      · exact absurd hk' (hor.resolve_left hkey k')
      · exact absurd hk' (habsent h k' hlt')

/-- The loop over the tables from `hash` on, if the later ones do not have the id. -/
theorem leave_returns (ht : Tables hashThreadId s) (hh : hash ≤ s.implicitProducerHash)
    (hfree : Free s hash) (habsent : AbsentFrom s i (hash + 1)) :
    ∃ s', Tables hashThreadId s' ∧ Left s s' i 0 ∧ ∀ fuel n, s.capacity hash ≤ fuel → hash < n →
      State.leave hashThreadId i fuel n hash s = some s' := by
  induction hash generalizing s with
  | zero =>
      obtain ⟨k, s', hk, hs', ht', hl⟩ := leave_table ht hh (hfree 0 le_rfl) habsent
      refine ⟨s', ht', hl, fun fuel n hfuel hn => ?_⟩
      obtain ⟨n, rfl⟩ := Nat.exists_eq_succ_of_ne_zero (by omega : n ≠ 0)
      simp only [State.leave, hk fuel hfuel, hs', ht'.prev_zero]
  | succ hash ih =>
      obtain ⟨k, s₁, hk, hs₁, ht₁, hl₁⟩ := leave_table ht hh (hfree (hash + 1) le_rfl) habsent
      have hfree₁ : Free s₁ hash := by
        intro h hle
        obtain ⟨k', hk', hempty⟩ := hfree h (by omega)
        refine ⟨k', hl₁.capacity ▸ hk', ?_⟩
        rw [hl₁.below h k' (by omega), hempty]
      have habsent₁ : AbsentFrom s₁ i (hash + 1) := by
        intro h k' hle hk'
        by_cases hkey : s.key h k' = .id i
        · rw [hl₁.reusable h k' hle hkey] at hk'
          cases hk'
        · exact hkey ((hl₁.other h k' hkey).symm.trans hk')
      have hh₁ : hash ≤ s₁.implicitProducerHash := by
        rw [hl₁.main]
        omega
      obtain ⟨s', ht', hl', hleave⟩ := ih ht₁ hh₁ hfree₁ habsent₁
      refine ⟨s', ht', hl₁.trans hl' (Nat.zero_le _), fun fuel n hfuel hn => ?_⟩
      obtain ⟨n, rfl⟩ := Nat.exists_eq_succ_of_ne_zero (by omega : n ≠ 0)
      have hcap := ht.capacity_mono (Nat.le_succ hash) hh
      simp only [State.leave, hk fuel hfuel, hs₁, hl₁.prev, ht.prev_succ hash (by omega)]
      refine hleave fuel n ?_ (by omega)
      rw [hl₁.capacity]
      exact hcap.trans hfuel

theorem Entries.leave {m : ι → Option Nat} (he : Entries s m) (hl : Left s s' i 0) :
    Entries s' (update m i none) := by
  have hkeep : ∀ h k j, s'.key h k = .id j → j ≠ i ∧ s.key h k = .id j := by
    intro h k j hk
    by_cases hkey : s.key h k = .id i
    · rw [hl.reusable h k (Nat.zero_le h) hkey] at hk
      cases hk
    · rw [hl.other h k hkey] at hk
      refine ⟨?_, hk⟩
      rintro rfl
      exact hkey hk
  refine ⟨fun h k j hk => ?_, fun j hj => ?_⟩
  · obtain ⟨hji, hkey⟩ := hkeep h k j hk
    rw [update_of_ne hji, hl.value]
    exact he.value h k j hkey
  · rcases eq_or_ne j i with rfl | hji
    · rw [update_self] at hj
      exact absurd rfl hj
    · rw [update_of_ne hji] at hj
      obtain ⟨h, k, hk⟩ := he.present j hj
      refine ⟨h, k, (hl.other h k ?_).trans hk⟩
      rw [hk]
      exact fun heq => hji (Key.id.inj heq)

end Exit

/-! ### The load -/

section Load

variable [DecidableEq ι] {m : ι → Option Nat} {x : Key ι} {c c' : Nat}

/-- The slots of a table that are not free. -/
def State.occupied (s : State ι) (h : Nat) : Finset Nat :=
  Probing.occupied (s.capacity h) (s.key h) .invalidThreadId

open Classical in
/-- The registered threads that are not in the current table. -/
noncomputable def State.missing (s : State ι) (registered : Finset ι) : Finset ι :=
  registered.filter fun i => ∀ k, s.key s.implicitProducerHash k ≠ .id i

omit [DecidableEq ι] in
theorem mem_missing {registered : Finset ι} : i ∈ s.missing registered ↔
    i ∈ registered ∧ ∀ k, s.key s.implicitProducerHash k ≠ .id i := by
  simp [State.missing]

omit [DecidableEq ι] in
theorem missing_subset (s : State ι) (registered : Finset ι) : s.missing registered ⊆ registered :=
  fun _ hi => (mem_missing.mp hi).1

/-- The counter `c` has a unit for each slot of the current table that is not free, and
for each thread that will be copied there. -/
structure Loaded (s : State ι) (m : ι → Option Nat) (c : Nat) : Prop where
  reserved : ∃ registered : Finset ι, (∀ i, i ∈ registered ↔ m i ≠ none) ∧
    (s.occupied s.implicitProducerHash).card + (s.missing registered).card ≤ c
  limit : c < max 1 (s.capacity s.implicitProducerHash / 2)
  half : ∀ h, h < s.implicitProducerHash → (s.occupied h).card < max 1 (s.capacity h / 2)

theorem SetsKey.occupied_of_ne (hset : SetsKey s s' h k x) {h' : Nat} (hne : h' ≠ h) :
    s'.occupied h' = s.occupied h' := by
  have hkey : s'.key h' = s.key h' := funext fun k' => hset.other h' k' (.inl hne)
  rw [State.occupied, State.occupied, hkey, hset.capacity]

theorem SetsKey.card_occupied_le (hset : SetsKey s s' h k x) :
    (s'.occupied h).card ≤ (s.occupied h).card + 1 := by
  refine le_trans (Finset.card_le_card (t := insert k (s.occupied h)) fun k' hk' => ?_)
    (Finset.card_insert_le _ _)
  rw [State.occupied, mem_occupied, hset.capacity] at hk'
  rcases eq_or_ne k' k with rfl | hne
  · exact Finset.mem_insert_self ..
  · rw [hset.other h k' (.inr hne)] at hk'
    exact Finset.mem_insert_of_mem (mem_occupied.mpr hk')

theorem SetsKey.occupied_of_filled (hset : SetsKey s s' h k x)
    (hfilled : s.key h k ≠ .invalidThreadId) (hx : x ≠ .invalidThreadId) (h' : Nat) :
    s'.occupied h' = s.occupied h' := by
  ext k'
  rw [State.occupied, State.occupied, mem_occupied, mem_occupied, hset.capacity]
  rcases hset.cases h' k' with ⟨rfl, rfl, heq⟩ | ⟨-, heq⟩ <;> rw [heq]
  simp [hx, hfilled]

namespace Loaded

/-- All tables are less than half full. -/
theorem lt_half (hl : Loaded s m c) (hh : h ≤ s.implicitProducerHash) :
    (s.occupied h).card < max 1 (s.capacity h / 2) := by
  rcases eq_or_lt_of_le hh with rfl | hlt
  · obtain ⟨registered, -, hle⟩ := hl.reserved
    exact lt_of_le_of_lt (by omega) hl.limit
  · exact hl.half h hlt

theorem free (hl : Loaded s m c) (ht : Tables hashThreadId s) : Free s s.implicitProducerHash := by
  intro h hh
  have hlt := hl.lt_half hh
  have hpos := ht.capacity_pos hh
  exact exists_empty (lt_of_lt_of_le hlt (by omega))

theorem same (hl : Loaded s m c) (hs : SameKeys s s') : Loaded s' m c := by
  have hocc : ∀ h, s'.occupied h = s.occupied h := fun h => by
    rw [State.occupied, State.occupied, hs.key, hs.capacity]
  refine ⟨?_, ?_, ?_⟩
  · obtain ⟨registered, hmem, hle⟩ := hl.reserved
    refine ⟨registered, hmem, ?_⟩
    rwa [hocc, State.missing, hs.main, hs.key]
  · rw [hs.main, hs.capacity]
    exact hl.limit
  · intro h hh
    rw [hocc, hs.capacity]
    exact hl.half h (hs.main ▸ hh)

/-- There are at least as many units as registered threads. -/
theorem card_registered_le (ht : Tables hashThreadId s) (registered : Finset ι) :
    registered.card ≤
      (s.occupied s.implicitProducerHash).card + (s.missing registered).card := by
  classical
  let slotOf : ι → Nat := fun i =>
    if hi : ∃ k, s.key s.implicitProducerHash k = .id i then hi.choose else 0
  have hslot : ∀ i, i ∉ s.missing registered → i ∈ registered →
      s.key s.implicitProducerHash (slotOf i) = .id i := by
    intro i hmissing hi
    rw [mem_missing, not_and] at hmissing
    have hin := hmissing hi
    push Not at hin
    simp only [slotOf, dif_pos hin]
    exact hin.choose_spec
  have hcard : (registered \ s.missing registered).card ≤
      (s.occupied s.implicitProducerHash).card := by
    refine Finset.card_le_card_of_injOn slotOf ?_ ?_
    · intro i hi
      obtain ⟨hi, hmissing⟩ := Finset.mem_sdiff.mp hi
      have hkey := hslot i hmissing hi
      have hne : s.key s.implicitProducerHash (slotOf i) ≠ .invalidThreadId := by
        rw [hkey]
        exact nofun
      exact mem_occupied.mpr ⟨(ht.bound _ _ hne).2, hne⟩
    · intro i hi j hj heq
      obtain ⟨hi, hmissing⟩ := Finset.mem_sdiff.mp hi
      obtain ⟨hj, hmissing'⟩ := Finset.mem_sdiff.mp hj
      have hkey := hslot i hmissing hi
      rw [heq, hslot j hmissing' hj] at hkey
      exact (Key.id.inj hkey).symm
  rw [Finset.card_sdiff_of_subset (missing_subset s registered)] at hcard
  omega

/-- A larger table, in which all registered threads are missing. -/
theorem publish (hl : Loaded s m c) (ht : Tables hashThreadId s) {capacity : Nat}
    (hcapacity : c < capacity / 2) : Loaded (s.publish s.implicitProducerHash capacity) m c := by
  have hcreated := ht.created
  have hmain : (s.publish s.implicitProducerHash capacity).implicitProducerHash = s.created := rfl
  have hkey : (s.publish s.implicitProducerHash capacity).key = s.key :=
    funext fun h => funext fun k => ht.key_publish _ _ h k
  have hempty : ∀ k, s.key s.created k = .invalidThreadId := by
    intro k
    by_contra hk
    have := (ht.bound s.created k hk).1
    omega
  have hnew : (s.publish s.implicitProducerHash capacity).capacity s.created = capacity := by
    rw [State.capacity, table_publish_self]
    rfl
  refine ⟨?_, ?_, ?_⟩
  · obtain ⟨registered, hmem, hle⟩ := hl.reserved
    refine ⟨registered, hmem, ?_⟩
    have hocc : (s.publish s.implicitProducerHash capacity).occupied s.created = ∅ := by
      refine Finset.filter_eq_empty_iff.mpr fun k _ hk => hk ?_
      rw [hkey, hempty]
    have hsub := Finset.card_le_card
      (missing_subset (s.publish s.implicitProducerHash capacity) registered)
    have hregistered := card_registered_le ht registered
    rw [hmain, hocc, Finset.card_empty]
    omega
  · rw [hmain, hnew]
    omega
  · intro h hh
    rw [hmain] at hh
    rw [State.occupied, ht.capacity_publish (by omega), hkey]
    exact hl.lt_half (by omega)

/-- The entry of a registered thread is copied to the current table. -/
theorem copy (hl : Loaded s m c) (hset : SetsKey s s' s.implicitProducerHash k (.id i))
    (hold : s.key s.implicitProducerHash k = .invalidThreadId ∨
      s.key s.implicitProducerHash k = .invalidThreadId2)
    (hm : m i ≠ none) (habsent : ∀ k, s.key s.implicitProducerHash k ≠ .id i) :
    Loaded s' m c := by
  obtain ⟨registered, hmem, hle⟩ := hl.reserved
  refine ⟨⟨registered, hmem, ?_⟩, ?_, ?_⟩
  · rw [hset.main]
    have hi : i ∈ s.missing registered := mem_missing.mpr ⟨(hmem i).mpr hm, habsent⟩
    have hmissing : s'.missing registered ⊆ (s.missing registered).erase i := by
      intro j hj
      obtain ⟨hreg, hnot⟩ := mem_missing.mp hj
      rw [hset.main] at hnot
      refine Finset.mem_erase.mpr ⟨?_, mem_missing.mpr ⟨hreg, fun k' hk' => ?_⟩⟩
      · rintro rfl
        exact hnot k hset.self
      · refine hnot k' ((hset.other _ k' (.inr ?_)).trans hk')
        rintro rfl
        rcases hold with hold | hold <;> rw [hold] at hk' <;> cases hk'
    have hcard := Finset.card_le_card hmissing
    rw [Finset.card_erase_of_mem hi] at hcard
    have hpos : 0 < (s.missing registered).card := Finset.card_pos.mpr ⟨i, hi⟩
    have hocc := hset.card_occupied_le
    omega
  · rw [hset.main, hset.capacity]
    exact hl.limit
  · intro h hh
    rw [hset.main] at hh
    rw [hset.occupied_of_ne (by omega), hset.capacity]
    exact hl.half h hh

/-- A thread is inserted: in a free slot, for one more unit, or in one it takes over. -/
theorem register (hl : Loaded s m c) (hset : SetsKey s s' s.implicitProducerHash k (.id i))
    (hold : s.key s.implicitProducerHash k = .invalidThreadId ∧ c' = c + 1 ∨
      s.key s.implicitProducerHash k = .invalidThreadId2 ∧ c' = c)
    (hlimit : c + 1 < s.capacity s.implicitProducerHash / 2) (p : Nat) :
    Loaded s' (update m i (some p)) c' := by
  obtain ⟨registered, hmem, hle⟩ := hl.reserved
  refine ⟨⟨insert i registered, ?_, ?_⟩, ?_, ?_⟩
  · intro j
    rw [Finset.mem_insert, hmem]
    rcases eq_or_ne j i with rfl | hj
    · simp
    · simp [hj]
  · rw [hset.main]
    have hmissing : s'.missing (insert i registered) ⊆ s.missing registered := by
      intro j hj
      obtain ⟨hreg, hnot⟩ := mem_missing.mp hj
      rw [hset.main] at hnot
      have hji : j ≠ i := by
        rintro rfl
        exact hnot k hset.self
      refine mem_missing.mpr ⟨(Finset.mem_insert.mp hreg).resolve_left hji, fun k' hk' => ?_⟩
      refine hnot k' ((hset.other _ k' (.inr ?_)).trans hk')
      rintro rfl
      rcases hold with ⟨hold, -⟩ | ⟨hold, -⟩ <;> rw [hold] at hk' <;> cases hk'
    have hcard := Finset.card_le_card hmissing
    rcases hold with ⟨-, rfl⟩ | ⟨hold, rfl⟩
    · have hocc := hset.card_occupied_le
      omega
    · rw [hset.occupied_of_filled (by rw [hold]; exact nofun) nofun]
      omega
  · rw [hset.main, hset.capacity]
    have hc : c' ≤ c + 1 := by
      rcases hold with ⟨-, rfl⟩ | ⟨-, rfl⟩ <;> omega
    omega
  · intro h hh
    rw [hset.main] at hh
    rw [hset.occupied_of_ne (by omega), hset.capacity]
    exact hl.half h hh

/-- The entries of an exiting thread have been given free for reuse. -/
theorem leave (hl : Loaded s m c) (hleft : Left s s' i 0) :
    Loaded s' (update m i none) c := by
  obtain ⟨registered, hmem, hle⟩ := hl.reserved
  have hocc : ∀ h, s'.occupied h = s.occupied h := by
    intro h
    ext k
    rw [State.occupied, State.occupied, mem_occupied, mem_occupied, hleft.capacity]
    by_cases hk : s.key h k = .id i
    · rw [hleft.reusable h k (Nat.zero_le h) hk, hk]
      simp
    · rw [hleft.other h k hk]
  refine ⟨⟨registered.erase i, ?_, ?_⟩, ?_, ?_⟩
  · intro j
    rw [Finset.mem_erase, hmem]
    rcases eq_or_ne j i with rfl | hj
    · simp
    · simp [hj]
  · have hmissing : s'.missing (registered.erase i) ⊆ s.missing registered := by
      intro j hj
      obtain ⟨hreg, hnot⟩ := mem_missing.mp hj
      obtain ⟨hji, hreg⟩ := Finset.mem_erase.mp hreg
      rw [hleft.main] at hnot
      refine mem_missing.mpr ⟨hreg, fun k hk => hnot k ((hleft.other _ k ?_).trans hk)⟩
      rw [hk]
      exact fun heq => hji (Key.id.inj heq)
    have hcard := Finset.card_le_card hmissing
    rw [hleft.main, hocc]
    omega
  · rw [hleft.main, hleft.capacity]
    exact hl.limit
  · intro h hh
    rw [hocc, hleft.capacity]
    exact hl.half h (hleft.main ▸ hh)

end Loaded

end Load

/-! ### The calls -/

section Calls

variable [DecidableEq ι] {m : ι → Option Nat} {q : Queue ι} {c w intBits : Nat}

/-- A capacity that is left behind half full fits twice. -/
theorem succ_lt_of_half_le {e newCount : Nat} (hhalf : 2 ^ e / 2 ≤ newCount)
    (hfits : newCount < 2 ^ (w - 2)) (hw : 2 ≤ w) : e + 1 < w := by
  rcases Nat.eq_zero_or_pos e with rfl | hpos
  · omega
  · obtain ⟨e, rfl⟩ := Nat.exists_eq_add_one_of_ne_zero hpos.ne'
    rw [pow_succ, Nat.mul_div_cancel _ two_pos] at hhalf
    have hlt := (Nat.pow_lt_pow_iff_right (by decide)).mp (hhalf.trans_lt hfits)
    omega

theorem largerCapacity_returns {newCount e : Nat} (fuel : Nat) (hw : 2 ≤ w) (he : e < w)
    (hfits : newCount < 2 ^ (w - 2)) (hfuel : w ≤ e + fuel) :
    ∃ k, e ≤ k ∧ k < w ∧ newCount < 2 ^ k / 2 ∧
      ∀ fuel', fuel ≤ fuel' → largerCapacity w newCount fuel' (2 ^ e) = some (2 ^ k) := by
  induction fuel generalizing e with
  | zero => omega
  | succ fuel ih =>
      by_cases hhalf : 2 ^ e / 2 ≤ newCount
      · have he' := succ_lt_of_half_le hhalf hfits hw
        obtain ⟨k, hle, hlt, hroom, hreturns⟩ := ih he' (by omega)
        refine ⟨k, by omega, hlt, hroom, fun fuel' hfuel' => ?_⟩
        obtain ⟨fuel', rfl⟩ := Nat.exists_eq_add_one_of_ne_zero (by omega : fuel' ≠ 0)
        rw [largerCapacity, if_pos hhalf, ← pow_succ,
          Nat.mod_eq_of_lt (Nat.pow_lt_pow_right (by decide) he')]
        exact hreturns fuel' (by omega)
      · refine ⟨e, le_rfl, he, by omega, fun fuel' hfuel' => ?_⟩
        obtain ⟨fuel', rfl⟩ := Nat.exists_eq_add_one_of_ne_zero (by omega : fuel' ≠ 0)
        rw [largerCapacity, if_neg hhalf]

/-- No power of two below `2^w` is enough, and then the capacity is zero. -/
theorem largerCapacity_none {newCount fuel capacity : Nat} (hw : 2 ≤ w)
    (hfull : 2 ^ (w - 2) ≤ newCount) (hcapacity : capacity = 0 ∨ ∃ e < w, capacity = 2 ^ e) :
    largerCapacity w newCount fuel capacity = none := by
  induction fuel generalizing capacity with
  | zero => rfl
  | succ fuel ih =>
      have hhalf : capacity / 2 ≤ newCount := by
        rcases hcapacity with rfl | ⟨e, he, rfl⟩
        · exact Nat.zero_le _
        · have hle : 2 ^ e ≤ 2 ^ (w - 2) * 2 := by
            rw [← pow_succ]
            exact Nat.pow_le_pow_right (by decide) (by omega)
          omega
      rw [largerCapacity, if_pos hhalf]
      refine ih ?_
      rcases hcapacity with rfl | ⟨e, he, rfl⟩
      · exact .inl (Nat.zero_mod _)
      · rw [← pow_succ]
        rcases Nat.lt_or_ge (e + 1) w with hlt | hge
        · exact .inr ⟨e + 1, hlt, Nat.mod_eq_of_lt (Nat.pow_lt_pow_right (by decide) hlt)⟩
        · obtain rfl : e + 1 = w := by omega
          exact .inl (Nat.mod_self _)

omit [DecidableEq ι] in
theorem fetchAdd_eq (h : s.implicitProducerHashCount + 1 < 2 ^ w) : s.fetchAdd w = s.addCount := by
  rw [State.fetchAdd, Nat.mod_eq_of_lt h]
  rfl

omit [DecidableEq ι] in
theorem fetchSub_eq (hpos : 0 < s.implicitProducerHashCount)
    (h : s.implicitProducerHashCount < 2 ^ w) : s.fetchSub w = s.subCount := by
  have hwrap : s.implicitProducerHashCount + (2 ^ w - 1) =
      s.implicitProducerHashCount - 1 + 2 ^ w := by omega
  rw [State.fetchSub, hwrap, Nat.add_mod_right, Nat.mod_eq_of_lt (by omega)]
  rfl

omit [DecidableEq ι] in
theorem newCount_eq (h : s.implicitProducerHashCount + 1 < 2 ^ w) :
    s.newCount w intBits = 1 + s.implicitProducerHashCount := by
  rw [State.newCount]
  split
  · rfl
  · exact Nat.mod_eq_of_lt (by omega)

/-- The parts of the state that a call of a thread keeps. -/
structure Kept (s s' : State ι) : Prop where
  count : s'.implicitProducerHashCount = s.implicitProducerHashCount
  resize : s'.resizeInProgress = s.resizeInProgress
  listener : s'.listener = s.listener

/-- The tables are a map, with `c` units of the counter. -/
structure Mapped (hashThreadId : ι → Nat) (s : State ι) (m : ι → Option Nat) (c : Nat) : Prop where
  tables : Tables hashThreadId s
  entries : Entries s m
  loaded : Loaded s m c

theorem Mapped.congr (hm : Mapped hashThreadId s m c) (ht : s'.table = s.table)
    (hcreated : s'.created = s.created) (hmain : s'.implicitProducerHash = s.implicitProducerHash) :
    Mapped hashThreadId s' m c := by
  have hs : SameKeys s s' := by
    refine ⟨?_, ?_, fun h => by rw [ht], hcreated, hmain⟩
    · funext h k
      rw [State.key, ht]
      rfl
    · funext h
      rw [State.capacity, ht]
      rfl
  exact ⟨hm.tables.same hs, hm.entries.congr ht, hm.loaded.same hs⟩

/-- A thread that is in the map is found and, where it is not in the current table,
copied there. -/
theorem Mapped.found (hm : Mapped hashThreadId s m c) {p : Nat} (hp : m i = some p)
    (hlocated : Located s i s.implicitProducerHash (some (h, k))) :
    ∃ s', Mapped hashThreadId s' m c ∧ Kept s s' ∧
      s'.capacity s'.implicitProducerHash = s.capacity s.implicitProducerHash ∧
      ∀ fuel, s.capacity s.implicitProducerHash ≤ fuel →
        s.found hashThreadId i fuel h k = some (s', some p) := by
  obtain ⟨hle, hkey, hlater⟩ := hlocated
  have ht := hm.tables
  have hvalue : (s.table h).value k = some p := (hm.entries.value h k i hkey).2.trans hp
  by_cases hmain : h = s.implicitProducerHash
  · refine ⟨s, hm, ⟨rfl, rfl, rfl⟩, rfl, fun fuel _ => ?_⟩
    rw [State.found, if_pos hmain, hvalue]
  · obtain ⟨k', hk', hold, hlt, hw⟩ := probe_available ht le_rfl (hm.loaded.free ht _ le_rfl) i
    have hset := setsKey_setEntry s s.implicitProducerHash k' (.id i) (some p)
    have habsent : ∀ k, s.key s.implicitProducerHash k ≠ .id i :=
      fun k => hlater _ k (lt_of_le_of_ne hle hmain) le_rfl
    have hne : ∀ j, s.key s.implicitProducerHash k' ≠ .id j := by
      intro j
      rcases hold with hold | hold <;> rw [hold] <;> exact nofun
    refine ⟨s.setEntry s.implicitProducerHash k' (.id i) (some p), ⟨?_, ?_, ?_⟩, ⟨rfl, rfl, rfl⟩,
      congrFun hset.capacity _, fun fuel hfuel => ?_⟩
    · refine ht.sets hset nofun le_rfl hlt ?_ ?_
      · rintro j k hj
        exact Key.id.inj hj ▸ habsent k
      · rintro j hj
        exact Key.id.inj hj ▸ hw
    · have he := hm.entries.setEntry hne (.inr hp)
      rwa [update_eq_self_iff.mpr hp.symm] at he
    · exact hm.loaded.copy hset hold (by rw [hp]; exact nofun) habsent
    · simp only [State.found, if_neg hmain, hk' fuel hfuel, hvalue]

/-- The capacity of the current table is a `size_t`. -/
abbrev Sized (w : Nat) (s : State ι) : Prop := s.capacity s.implicitProducerHash < 2 ^ w

/-- The counter stays far below the range of `size_t`. -/
theorem Mapped.count_lt (hm : Mapped hashThreadId s m c) (hw : 2 ≤ w) (hsized : Sized w s) :
    c + 1 < 2 ^ w := by
  have hlimit := hm.loaded.limit
  have hpow : 2 ^ 2 ≤ 2 ^ w := Nat.pow_le_pow_right (by decide) hw
  omega

/-- The table that a thread is inserted in has room for it, if there is a capacity for it. -/
theorem Mapped.resize (hm : Mapped hashThreadId s m c) (hw : 2 ≤ w) (hsized : Sized w s)
    (hresize : s.resizeInProgress = false) (hcount : s.implicitProducerHashCount = c + 1)
    (hfits : 1 + c < 2 ^ (w - 2)) (malloc : Bool) :
    (∀ fuel, w ≤ fuel →
      s.resize w malloc fuel s.implicitProducerHash (1 + c) = some (s.subCount, none)) ∨
    ∃ s', (∀ fuel, w ≤ fuel → s.resize w malloc fuel s.implicitProducerHash (1 + c) =
        some (s', some s'.implicitProducerHash)) ∧
      Mapped hashThreadId s' m c ∧ Kept s s' ∧ Sized w s' ∧
      1 + c < s'.capacity s'.implicitProducerHash / 2 := by
  have ht := hm.tables
  unfold State.resize
  by_cases hge : s.capacity s.implicitProducerHash / 2 ≤ 1 + c
  · obtain ⟨e, he⟩ := ht.pow _ (le_refl s.implicitProducerHash)
    have he' : e + 1 < w := succ_lt_of_half_le (he ▸ hge) hfits hw
    have hdouble : s.capacity s.implicitProducerHash * 2 % 2 ^ w = 2 ^ (e + 1) := by
      rw [he, ← pow_succ, Nat.mod_eq_of_lt (Nat.pow_lt_pow_right (by decide) he')]
    obtain ⟨k, hle, hk, hroom, hlarger⟩ :=
      largerCapacity_returns w hw he' hfits (by omega)
    simp only [hge, hresize, and_self, if_true, hdouble]
    cases malloc with
    | false =>
        refine .inl fun fuel hfuel => ?_
        have hlt := hm.count_lt hw hsized
        simp only [hlarger fuel hfuel, Bool.false_eq_true, if_false,
          fetchSub_eq (s := s) (w := w) (by omega) (by omega)]
    | true =>
        have hgrows : s.capacity s.implicitProducerHash * 2 ≤ 2 ^ k := by
          rw [he, ← pow_succ]
          exact Nat.pow_le_pow_right (by decide) hle
        have hnew : (s.publish s.implicitProducerHash (2 ^ k)).capacity
            (s.publish s.implicitProducerHash (2 ^ k)).implicitProducerHash = 2 ^ k := by
          show ((s.publish _ _).table s.created).capacity = _
          rw [table_publish_self]
          rfl
        refine .inr ⟨s.publish s.implicitProducerHash (2 ^ k), fun fuel hfuel => ?_,
          ⟨ht.publish ⟨k, rfl⟩ hgrows, hm.entries.publish ht _ _, hm.loaded.publish ht (by omega)⟩,
          ⟨rfl, rfl, rfl⟩, ?_, ?_⟩
        · simp only [hlarger fuel hfuel, if_true]
          rfl
        · rw [Sized, hnew]
          exact Nat.pow_lt_pow_right (by decide) hk
        · rw [hnew]
          exact hroom
  · simp only [hge, false_and, if_false]
    exact .inr ⟨s, fun _ _ => rfl, hm, ⟨rfl, rfl, rfl⟩, hsized, by omega⟩

/-- Where there is no capacity for it, the search for one does not end. -/
theorem Mapped.resize_none (hm : Mapped hashThreadId s m c) (hw : 2 ≤ w) (hsized : Sized w s)
    (hresize : s.resizeInProgress = false) (hfull : 2 ^ (w - 2) ≤ 1 + c) (malloc : Bool)
    (fuel : Nat) : s.resize w malloc fuel s.implicitProducerHash (1 + c) = none := by
  obtain ⟨e, he⟩ := hm.tables.pow _ (le_refl s.implicitProducerHash)
  have he' : e < w := by
    rw [Sized, he] at hsized
    exact (Nat.pow_lt_pow_iff_right (by decide)).mp hsized
  have hge : s.capacity s.implicitProducerHash / 2 ≤ 1 + c := by
    have hle : 2 ^ e ≤ 2 ^ (w - 2) * 2 := by
      rw [← pow_succ]
      exact Nat.pow_le_pow_right (by decide) (by omega)
    rw [he]
    omega
  have hdouble : s.capacity s.implicitProducerHash * 2 % 2 ^ w = 0 ∨
      ∃ k < w, s.capacity s.implicitProducerHash * 2 % 2 ^ w = 2 ^ k := by
    rw [he, ← pow_succ]
    rcases Nat.lt_or_ge (e + 1) w with hlt | hge
    · exact .inr ⟨e + 1, hlt, Nat.mod_eq_of_lt (Nat.pow_lt_pow_right (by decide) hlt)⟩
    · obtain rfl : e + 1 = w := by omega
      exact .inl (Nat.mod_self _)
  unfold State.resize
  simp only [hge, hresize, and_self, if_true, largerCapacity_none hw hfull hdouble]

/-- A thread that is not in the map is added. -/
theorem Mapped.insert (hm : Mapped hashThreadId s m c) (hi : m i = none)
    (hcount : s.implicitProducerHashCount = c + 1) (hsized : Sized w s)
    (hlimit : 1 + c < s.capacity s.implicitProducerHash / 2) (p : Nat) :
    ∃ s', Mapped hashThreadId s' (update m i (some p)) s'.implicitProducerHashCount ∧
      s'.resizeInProgress = s.resizeInProgress ∧ s'.listener = s.listener ∧ Sized w s' ∧
        ∀ fuel, s.capacity s.implicitProducerHash ≤ fuel →
          s.insert hashThreadId w i fuel s.implicitProducerHash p = some s' := by
  have ht := hm.tables
  have habsent := hm.entries.eq_none.mp hi
  have hsub : s.fetchSub w = s.subCount := fetchSub_eq (by omega) (by omega)
  obtain ⟨k, hk, hold, hlt, hw⟩ := probe_available ht le_rfl (hm.loaded.free ht _ le_rfl) i
  have hne : ∀ j, s.key s.implicitProducerHash k ≠ .id j := by
    intro j
    rcases hold with hold | hold <;> rw [hold] <;> exact nofun
  have htables : ∀ s', SetsKey s s' s.implicitProducerHash k (.id i) → Tables hashThreadId s' := by
    intro s' hset
    refine ht.sets hset nofun le_rfl hlt ?_ ?_
    · rintro j k hj
      exact Key.id.inj hj ▸ habsent _ k (Nat.zero_le _)
    · rintro j hj
      exact Key.id.inj hj ▸ hw
  rcases hold with hold | hold
  · have hset := setsKey_setEntry s s.implicitProducerHash k (.id i) (some p)
    refine ⟨s.setEntry s.implicitProducerHash k (.id i) (some p), ⟨htables _ hset,
      hm.entries.setEntry hne (.inl hi), ?_⟩, rfl, rfl, ?_, fun fuel hfuel => ?_⟩
    · exact hm.loaded.register hset (.inl ⟨hold, hcount⟩) (by omega) p
    · rw [Sized, hset.main, hset.capacity]
      exact hsized
    · simp [State.insert, hk fuel hfuel, hold]
  · have hset : SetsKey s (s.subCount.setEntry s.implicitProducerHash k (.id i) (some p))
        s.implicitProducerHash k (.id i) := by
      obtain ⟨hself, hother, hcap, hprev, hcreated, hmain⟩ :=
        setsKey_setEntry s.subCount s.implicitProducerHash k (.id i) (some p)
      exact ⟨hself, hother, hcap, hprev, hcreated, hmain⟩
    refine ⟨_, ⟨htables _ hset, ?_, ?_⟩, rfl, rfl, ?_, fun fuel hfuel => ?_⟩
    · have he : Entries s.subCount m := hm.entries.congr rfl
      exact he.setEntry hne (.inl hi)
    · refine hm.loaded.register hset (.inr ⟨hold, ?_⟩) (by omega) p
      show s.implicitProducerHashCount - 1 = c
      omega
    · rw [Sized, hset.main, hset.capacity]
      exact hsized
    · simp [State.insert, hk fuel hfuel, hold, hsub]

/-- The queue represents the map: each registered thread has a producer that is active,
for itself alone. -/
structure Rep (hashThreadId : ι → Nat) (w : Nat) (q : Queue ι) (m : ι → Option Nat) : Prop where
  mapped : Mapped hashThreadId q.toState m q.implicitProducerHashCount
  sized : Sized w q.toState
  resize : q.resizeInProgress = false
  listener : q.listener = m
  active : ∀ i p, m i = some p → p < q.producerCount ∧ (q.producer p).inactive = false
  inj : ∀ i j p, m i = some p → m j = some p → i = j

theorem recycle_spec {producer : Nat → ProducerBase} {n p : Nat}
    (hr : recycle producer n = some p) :
    p < n ∧ (producer p).inactive = true := by
  induction n with
  | zero => cases hr
  | succ n ih =>
      unfold recycle at hr
      split at hr
      case isTrue hinactive =>
          obtain rfl := Option.some.inj hr
          exact ⟨Nat.lt_succ_self n, (Bool.and_eq_true _ _ ▸ hinactive).1⟩
      case isFalse =>
          obtain ⟨hlt, hinactive⟩ := ih hr
          exact ⟨by omega, hinactive⟩

/-- The producer that a thread gets is nobody's. -/
theorem Rep.recycleOrCreateProducer (hq : Rep hashThreadId w q m) {q' : Queue ι} {s₁ : State ι}
    {create : Bool} {p : Nat}
    (hr : Queue.recycleOrCreateProducer { q with toState := s₁ } create = some (q', p)) (i : ι) :
    q'.toState = s₁ ∧ (∀ j, m j ≠ some p) ∧ ∀ j p', update m i (some p) j = some p' →
      p' < q'.producerCount ∧ (q'.producer p').inactive = false := by
  unfold Queue.recycleOrCreateProducer at hr
  split at hr
  case h_1 r hrecycle =>
      obtain ⟨rfl, rfl⟩ := Prod.mk.inj (Option.some.inj hr)
      obtain ⟨hlt, hinactive⟩ := recycle_spec hrecycle
      have hnobody : ∀ j, m j ≠ some r := by
        intro j hj
        exact absurd ((hq.active j r hj).2.symm.trans hinactive) nofun
      refine ⟨rfl, hnobody, fun j p' hj => ?_⟩
      rcases eq_or_ne i j with rfl | hij
      · rw [update_self] at hj
        obtain rfl := Option.some.inj hj
        exact ⟨hlt, by simp⟩
      · rw [update_of_ne hij.symm] at hj
        have hne : p' ≠ r := fun heq => hnobody j (heq ▸ hj)
        refine ⟨(hq.active j p' hj).1, ?_⟩
        simp only [update_of_ne hne]
        exact (hq.active j p' hj).2
  case h_2 =>
      split at hr
      case isTrue =>
          cases hr
          refine ⟨rfl, fun j hj => (hq.active j _ hj).1.false, fun j p' hj => ?_⟩
          rcases eq_or_ne i j with rfl | hij
          · rw [update_self] at hj
            obtain rfl := Option.some.inj hj
            exact ⟨Nat.lt_succ_self _, by simp⟩
          · rw [update_of_ne hij.symm] at hj
            obtain ⟨hlt, hactive⟩ := hq.active j p' hj
            refine ⟨Nat.lt_succ_of_lt hlt, ?_⟩
            simp only [update_of_ne hlt.ne]
            exact hactive
      case isFalse => cases hr

/-- A call of a registered thread. -/
theorem Rep.get_known (hq : Rep hashThreadId w q m) {p : Nat} (hp : m i = some p)
    (malloc create : Bool) :
    ∃ q', Rep hashThreadId w q' m ∧ q'.implicitProducerHashCount = q.implicitProducerHashCount ∧
      Returns (q.getOrAddImplicitProducer hashThreadId w intBits i malloc create) (q', some p) := by
  have ht := hq.mapped.tables
  obtain ⟨r, hlocated, hlookup⟩ := lookup_returns ht le_rfl (hq.mapped.loaded.free ht) i
  cases r with
  | none =>
      obtain ⟨h, k, hk⟩ := hq.mapped.entries.present i (by rw [hp]; exact nofun)
      exact absurd hk (hlocated h k (ht.bound h k (by rw [hk]; exact nofun)).1)
  | some r =>
      obtain ⟨h, k⟩ := r
      obtain ⟨s', hm, hkept, hcap, hfound⟩ := hq.mapped.found hp hlocated
      refine ⟨{ q with toState := s' }, ⟨?_, ?_, hkept.resize.trans hq.resize,
        hkept.listener.trans hq.listener, hq.active, hq.inj⟩, hkept.count,
        max (q.toState.capacity q.implicitProducerHash) (q.implicitProducerHash + 1),
        fun fuel hfuel => ?_⟩
      · show Mapped hashThreadId s' m s'.implicitProducerHashCount
        rw [hkept.count]
        exact hm
      · exact hcap.trans_lt hq.sized
      · have hfuel' := max_le_iff.mp hfuel
        rw [Queue.getOrAddImplicitProducer, hlookup fuel fuel hfuel'.1 hfuel'.2]
        simp only [hfound fuel hfuel'.1, Option.map_some]

/-- The outcome of a call of a thread that is not registered. -/
def Added (hashThreadId : ι → Nat) (w : Nat) (q : Queue ι) (m : ι → Option Nat)
    (i : ι) (q' : Queue ι) :
    Option Nat → Prop
  | none => Rep hashThreadId w q' m ∧ q'.implicitProducerHashCount = q.implicitProducerHashCount
  | some p => (∀ j, m j ≠ some p) ∧ Rep hashThreadId w q' (update m i (some p))

/-- An allocation has failed, and the counter is set back. -/
theorem Rep.failed (hq : Rep hashThreadId w q m) {s₁ : State ι}
    (hm : Mapped hashThreadId s₁ m q.implicitProducerHashCount) (hsized : Sized w s₁)
    (hkept : Kept q.toState.addCount s₁) :
    Added hashThreadId w q m i { q with toState := s₁.subCount } none := by
  have hcount : s₁.subCount.implicitProducerHashCount = q.implicitProducerHashCount := by
    show s₁.implicitProducerHashCount - 1 = _
    rw [hkept.count]
    rfl
  refine ⟨⟨?_, hsized, hkept.resize.trans hq.resize, hkept.listener.trans hq.listener, hq.active,
    hq.inj⟩, hcount⟩
  show Mapped hashThreadId s₁.subCount m s₁.subCount.implicitProducerHashCount
  rw [hcount]
  exact hm.congr rfl rfl rfl

theorem Rep.insertLoop (hq : Rep hashThreadId w q m) (hw : 2 ≤ w) (hi : m i = none)
    (hfits : 1 + q.implicitProducerHashCount < 2 ^ (w - 2)) (malloc create : Bool) :
    ∃ q' r bound, Added hashThreadId w q m i q' r ∧ ∀ fuel n, bound ≤ fuel →
      Queue.insertLoop hashThreadId w { q with toState := q.toState.addCount } i malloc create
        (1 + q.implicitProducerHashCount) fuel (n + 1) q.implicitProducerHash = some (q', r) := by
  have hm : Mapped hashThreadId q.toState.addCount m q.implicitProducerHashCount :=
    hq.mapped.congr rfl rfl rfl
  rcases hm.resize hw hq.sized hq.resize rfl hfits malloc with
    hfail | ⟨s₁, hresize, hm₁, hkept, hsized₁, hlimit⟩
  · refine ⟨_, none, w, hq.failed hm hq.sized ⟨rfl, rfl, rfl⟩, fun fuel n hfuel => ?_⟩
    have hfail' : q.toState.addCount.resize w malloc fuel q.implicitProducerHash
        (1 + q.implicitProducerHashCount) = some (q.toState.addCount.subCount, none) :=
      hfail fuel hfuel
    simp only [Queue.insertLoop, hfail']
  · have hresize' : ∀ fuel, w ≤ fuel → q.toState.addCount.resize w malloc fuel
        q.implicitProducerHash (1 + q.implicitProducerHashCount) =
          some (s₁, some s₁.implicitProducerHash) := hresize
    have hroom : 1 + q.implicitProducerHashCount < s₁.capacity s₁.implicitProducerHash / 2 +
        s₁.capacity s₁.implicitProducerHash / 4 := by omega
    have hcount₁ : s₁.implicitProducerHashCount = q.implicitProducerHashCount + 1 := hkept.count
    cases hr : Queue.recycleOrCreateProducer { q with toState := s₁ } create with
    | none =>
        refine ⟨_, none, w, hq.failed hm₁ hsized₁ hkept, fun fuel n hfuel => ?_⟩
        have hlt := hm₁.count_lt hw hsized₁
        simp only [Queue.insertLoop, hresize' fuel hfuel, if_pos hroom, hr,
          fetchSub_eq (s := s₁) (w := w) (by omega) (by omega)]
    | some r =>
        obtain ⟨q₂, p⟩ := r
        obtain ⟨hstate, hnobody, hactive⟩ := hq.recycleOrCreateProducer hr i
        have hm₂ : Mapped hashThreadId (q₂.toState.setListener i p) m
            q.implicitProducerHashCount := by
          rw [hstate]
          exact hm₁.congr rfl rfl rfl
        have hcount : (q₂.toState.setListener i p).implicitProducerHashCount =
            q.implicitProducerHashCount + 1 := by
          rw [hstate]
          exact hcount₁
        have hsized₂ : Sized w (q₂.toState.setListener i p) := by
          rw [hstate]
          exact hsized₁
        obtain ⟨s₃, hm₃, hresize₃, hlistener₃, hsized₃, hinsert⟩ :=
          hm₂.insert hi hcount hsized₂ (by rw [hstate]; exact hlimit) p
        refine ⟨{ q₂ with toState := s₃ }, some p,
          max w (s₁.capacity s₁.implicitProducerHash),
          ⟨hnobody, hm₃, hsized₃, ?_, ?_, hactive, ?_⟩, fun fuel n hfuel => ?_⟩
        · refine hresize₃.trans ?_
          rw [hstate]
          exact hkept.resize.trans hq.resize
        · refine hlistener₃.trans ?_
          rw [hstate]
          show update s₁.listener i (some p) = _
          rw [hkept.listener.trans hq.listener]
        · -- nobody else has the producer
          intro j₁ j₂ p' h₁ h₂
          rcases eq_or_ne i j₁ with rfl | hne₁ <;> rcases eq_or_ne i j₂ with rfl | hne₂
          · rfl
          · rw [update_self] at h₁
            rw [update_of_ne hne₂.symm, ← h₁] at h₂
            exact absurd h₂ (hnobody j₂)
          · rw [update_self] at h₂
            rw [update_of_ne hne₁.symm, ← h₂] at h₁
            exact absurd h₁ (hnobody j₁)
          · rw [update_of_ne hne₁.symm] at h₁
            rw [update_of_ne hne₂.symm] at h₂
            exact hq.inj j₁ j₂ p' h₁ h₂
        · obtain ⟨hfuel, hcap⟩ := max_le_iff.mp hfuel
          have hinsert' : (q₂.toState.setListener i p).insert hashThreadId w i fuel
              s₁.implicitProducerHash p = some s₃ := by
            rw [hstate] at hinsert ⊢
            exact hinsert fuel hcap
          simp only [Queue.insertLoop, hresize' fuel hfuel, if_pos hroom, hr, hinsert']

/-- No capacity for the table that is needed: the loop does not end. -/
theorem Rep.insertLoop_none (hq : Rep hashThreadId w q m) (hw : 2 ≤ w)
    (hfull : 2 ^ (w - 2) ≤ 1 + q.implicitProducerHashCount) (malloc create : Bool) (fuel n : Nat) :
    Queue.insertLoop hashThreadId w { q with toState := q.toState.addCount } i malloc create
      (1 + q.implicitProducerHashCount) fuel n q.implicitProducerHash = none := by
  have hm : Mapped hashThreadId q.toState.addCount m q.implicitProducerHashCount :=
    hq.mapped.congr rfl rfl rfl
  have hnone : q.toState.addCount.resize w malloc fuel q.implicitProducerHash
      (1 + q.implicitProducerHashCount) = none :=
    hm.resize_none hw hq.sized hq.resize hfull malloc fuel
  cases n with
  | zero => rfl
  | succ n => simp only [Queue.insertLoop, hnone]

/-- A call of a thread that is not registered comes back if there is a capacity for its
table. -/
theorem Rep.get_new (hq : Rep hashThreadId w q m) (hw : 2 ≤ w) (hi : m i = none)
    (malloc create : Bool) :
    ReturnsIff (1 + q.implicitProducerHashCount < 2 ^ (w - 2))
      (q.getOrAddImplicitProducer hashThreadId w intBits i malloc create)
      fun r => Added hashThreadId w q m i r.1 r.2 := by
  have ht := hq.mapped.tables
  have hempty := hq.mapped.entries.eq_none.mp hi
  have hlt := hq.mapped.count_lt hw hq.sized
  obtain ⟨r, hlocated, hlookup⟩ := lookup_returns ht le_rfl (hq.mapped.loaded.free ht) i
  obtain rfl : r = none := by
    cases r with
    | none => rfl
    | some r => exact absurd hlocated.2.1 (hempty r.1 r.2 (Nat.zero_le _))
  by_cases hfits : 1 + q.implicitProducerHashCount < 2 ^ (w - 2)
  · obtain ⟨q', r, bound, hadded, hloop⟩ := hq.insertLoop hw hi hfits malloc create
    refine .comes (a := (q', r)) hfits hadded ⟨max (q.toState.capacity q.implicitProducerHash)
      (max (q.implicitProducerHash + 1) bound), fun fuel hfuel => ?_⟩
    obtain ⟨hcap, hfuel⟩ := max_le_iff.mp hfuel
    obtain ⟨hmain, hbound⟩ := max_le_iff.mp hfuel
    obtain ⟨n, rfl⟩ := Nat.exists_eq_succ_of_ne_zero (by omega : fuel ≠ 0)
    rw [Queue.getOrAddImplicitProducer, hlookup _ _ hcap hmain]
    simp only [fetchAdd_eq hlt, newCount_eq hlt]
    exact hloop _ n hbound
  · refine .never hfits fun fuel => ?_
    have hloop := hq.insertLoop_none (i := i) hw (Nat.not_lt.mp hfits) malloc create fuel fuel
    rw [Queue.getOrAddImplicitProducer]
    split
    case h_1 => rfl
    case h_2 hash k hfound =>
        -- the search does not find the thread
        have hmore := lookup_mono hfound
          (Nat.le_add_right fuel (q.toState.capacity q.implicitProducerHash))
          (Nat.le_add_right fuel (q.implicitProducerHash + 1))
        rw [hlookup _ _ (by omega) (by omega)] at hmore
        cases hmore
    case h_3 =>
        simp only [fetchAdd_eq hlt, newCount_eq hlt]
        exact hloop

/-- The exit of a thread. -/
theorem Rep.exit (hq : Rep hashThreadId w q m) (i : ι) :
    ∃ q', Rep hashThreadId w q' (update m i none) ∧
      Returns (q.implicitProducerThreadExited hashThreadId i) q' := by
  have ht := hq.mapped.tables
  unfold Queue.implicitProducerThreadExited
  have hlistener : q.listener i = m i := by rw [hq.listener]
  cases hp : m i with
  | none =>
      rw [hp] at hlistener
      refine ⟨q, ?_, 0, fun fuel _ => by simp only [hlistener]⟩
      rwa [update_eq_self_iff.mpr hp.symm]
  | some p =>
      rw [hp] at hlistener
      have habsent : AbsentFrom q.toState i (q.implicitProducerHash + 1) := by
        intro h k hle hk
        have := (ht.bound h k (by rw [hk]; exact nofun)).1
        omega
      obtain ⟨s', ht', hleft, hleave⟩ :=
        leave_returns ht le_rfl (hq.mapped.loaded.free ht) habsent
      have hm : Mapped hashThreadId s' (update m i none) q.implicitProducerHashCount :=
        ⟨ht', hq.mapped.entries.leave hleft, hq.mapped.loaded.leave hleft⟩
      refine ⟨{ q with
        toState := s'.setListener i none
        producer := update q.producer p { q.producer p with inactive := true } },
        ⟨?_, ?_, hleft.resize.trans hq.resize, ?_, ?_, ?_⟩,
        max (q.toState.capacity q.implicitProducerHash) (q.implicitProducerHash + 1),
        fun fuel hfuel => ?_⟩
      · show Mapped hashThreadId (s'.setListener i none) _ s'.implicitProducerHashCount
        rw [hleft.count]
        exact hm.congr rfl rfl rfl
      · show s'.capacity s'.implicitProducerHash < 2 ^ w
        rw [hleft.main, hleft.capacity]
        exact hq.sized
      · show update s'.listener i none = _
        rw [hleft.listener, hq.listener]
      · intro j p' hj
        have hji : j ≠ i := by
          rintro rfl
          rw [update_self] at hj
          cases hj
        rw [update_of_ne hji] at hj
        have hne : p' ≠ p := fun heq => hji (hq.inj j i p (heq ▸ hj) hp)
        obtain ⟨hlt, hactive⟩ := hq.active j p' hj
        refine ⟨hlt, ?_⟩
        simp only [update_of_ne hne]
        exact hactive
      · intro j₁ j₂ p' h₁ h₂
        have hback : ∀ j, update m i none j = some p' → m j = some p' := by
          intro j hj
          rcases eq_or_ne i j with rfl | hij
          · rw [update_self] at hj
            cases hj
          · rwa [update_of_ne hij.symm] at hj
        exact hq.inj j₁ j₂ p' (hback j₁ h₁) (hback j₂ h₂)
      · obtain ⟨hcap, hmain⟩ := max_le_iff.mp hfuel
        simp only [hlistener, hleave fuel fuel hcap hmain, Option.map_some]

end Calls

/-! ### Histories -/

section Histories

variable [DecidableEq ι] {m : ι → Option Nat} {q : Queue ι} {w intBits : Nat}

/-- The producers that the threads have got, by the results of the calls: that of the
last successful one since the thread's last exit. -/
def after (m : ι → Option Nat) : Op ι → Option Nat → ι → Option Nat
  | .get i _ _, some p => update m i (some p)
  | .get .., none => m
  | .exit i, _ => update m i none

/-- The states after any sequence of complete calls and exits. -/
inductive History (hashThreadId : ι → Nat) (w intBits : Nat) : Queue ι → (ι → Option Nat) → Prop
  | start {q : Queue ι} : q.Init w → History hashThreadId w intBits q fun _ => none
  | step {q q' : Queue ι} {m : ι → Option Nat} {op : Op ι} {r : Option Nat} :
      History hashThreadId w intBits q m →
        Returns (q.perform hashThreadId w intBits op) (q', r) →
          History hashThreadId w intBits q' (after m op r)

/-- A thread that is not registered yet is counted, and half of a table has more slots than
are counted. -/
def Fits (w : Nat) (q : Queue ι) (m : ι → Option Nat) : Op ι → Prop
  | .get i _ _ => m i = none → 1 + q.implicitProducerHashCount < 2 ^ (w - 2)
  | .exit _ => True

/-- How the queue behaves when the threads have got the producers `m`. -/
structure Behaves (hashThreadId : ι → Nat) (w intBits : Nat) (q : Queue ι)
    (m : ι → Option Nat) : Prop where
  /-- A call comes back if and only if there is a table for it. -/
  returns : ∀ op,
    ReturnsIff (Fits w q m op) (q.perform hashThreadId w intBits op) fun _ => True
  /-- A registered thread gets its producer again. -/
  same : ∀ i malloc create q' r p, m i = some p →
    Returns (q.perform hashThreadId w intBits (.get i malloc create)) (q', r) → r = some p
  /-- A thread that is not registered gets a producer nobody has. -/
  fresh : ∀ i malloc create q' p, m i = none →
    Returns (q.perform hashThreadId w intBits (.get i malloc create)) (q', some p) →
      ∀ j, m j ≠ some p
  exclusive : ∀ i j p, m i = some p → m j = some p → i = j
  /-- A call that fails sets the counter back. -/
  failed : ∀ i malloc create q',
    Returns (q.perform hashThreadId w intBits (.get i malloc create)) (q', none) →
      q'.implicitProducerHashCount = q.implicitProducerHashCount
  /-- The tables have the producers `m`, so a call that fails leaves them as they were. -/
  contents : ∀ i, Returns (q.toState.registered hashThreadId i) (m i)
  half : ∀ h, InChain q.toState h → 2 ≤ q.toState.capacity h →
    2 * (q.toState.occupied h).card < q.toState.capacity h

theorem rep_init (hq : q.Init w) : Rep hashThreadId w q fun _ => none := by
  obtain ⟨⟨e, he, htable⟩, hcreated, hmain, hcount, hresize, hkeys, hlistener⟩ := hq
  refine ⟨⟨tables_init ⟨e, htable⟩ hcreated hmain hkeys, ⟨?_, fun i hi => absurd rfl hi⟩,
    ⟨⟨∅, ?_, ?_⟩, ?_, ?_⟩⟩, ?_, hresize, funext hlistener, nofun, nofun⟩
  · intro h k i hk
    exact absurd ((hkeys h k).symm.trans hk) nofun
  · simp
  · have hmissing : q.toState.missing ∅ = ∅ := Finset.subset_empty.mp (missing_subset ..)
    have hocc : q.toState.occupied q.implicitProducerHash = ∅ :=
      Finset.filter_eq_empty_iff.mpr fun k _ hk => hk (hkeys _ k)
    rw [hmissing, hocc]
    exact Nat.zero_le _
  · rw [hcount]
    omega
  · intro h hh
    rw [hmain] at hh
    omega
  · rw [Sized, hmain, State.capacity, htable]
    exact Nat.pow_lt_pow_right (by decide) he

theorem Rep.perform (hq : Rep hashThreadId w q m) (hw : 2 ≤ w) (op : Op ι) :
    ReturnsIff (Fits w q m op) (q.perform hashThreadId w intBits op)
      fun r => Rep hashThreadId w r.1 (after m op r.2) := by
  cases op with
  | get i malloc create =>
      cases hi : m i with
      | none =>
          refine (hq.get_new hw hi malloc create).congr
            ⟨fun hfits => hfits hi, fun hfits _ => hfits⟩ ?_ fun _ => rfl
          rintro ⟨q', r⟩ hadded
          cases r with
          | none => exact hadded.1
          | some p => exact hadded.2
      | some p =>
          obtain ⟨q', hq', -, hreturns⟩ := hq.get_known hi malloc create
          refine .comes (a := (q', some p)) (fun hnone => ?_) ?_ hreturns
          · exact absurd (hi.symm.trans hnone) nofun
          · show Rep _ _ q' (update m i (some p))
            rwa [update_eq_self_iff.mpr hi.symm]
  | exit i =>
      obtain ⟨q', hq', hreturns⟩ := hq.exit i
      exact .comes (a := (q', none)) trivial hq'
        (hreturns.imp fun fuel hfuel => by simp only [Queue.perform, hfuel, Option.map_some])

theorem History.rep (hh : History hashThreadId w intBits q m) (hw : 2 ≤ w) :
    Rep hashThreadId w q m := by
  induction hh with
  | start hinit => exact rep_init hinit
  | step _ hreturns ih => exact (ih.perform hw _).of_returns hreturns

theorem Rep.contents (hq : Rep hashThreadId w q m) (i : ι) :
    Returns (q.toState.registered hashThreadId i) (m i) := by
  have ht := hq.mapped.tables
  obtain ⟨r, hlocated, hlookup⟩ := lookup_returns ht le_rfl (hq.mapped.loaded.free ht) i
  refine ⟨max (q.toState.capacity q.implicitProducerHash) (q.implicitProducerHash + 1),
    fun fuel hfuel => ?_⟩
  obtain ⟨hcap, hmain⟩ := max_le_iff.mp hfuel
  rw [State.registered, hlookup fuel fuel hcap hmain, Option.map_some]
  cases r with
  | none =>
      refine congrArg some (hq.mapped.entries.eq_none.mpr fun h k _ hk => ?_).symm
      exact hlocated h k (ht.bound h k (by rw [hk]; exact nofun)).1 hk
  | some p => exact congrArg some (hq.mapped.entries.value p.1 p.2 i hlocated.2.1).2

/-- **The tables are a map from the threads to their producers**, over every sequence of
calls, exits and failed allocations; a call comes back unless it counts a thread that no
table has room for. -/
theorem history_behaves (hw : 2 ≤ w) (hh : History hashThreadId w intBits q m) :
    Behaves hashThreadId w intBits q m := by
  have hq := hh.rep hw
  have ht := hq.mapped.tables
  refine ⟨fun op => (hq.perform hw op).imp fun _ _ => trivial, ?_, ?_, hq.inj, ?_, hq.contents, ?_⟩
  · intro i malloc create q' r p hi hreturns
    obtain ⟨q₁, -, -, hknown⟩ := hq.get_known hi malloc create
    exact (Prod.mk.inj (hreturns.unique hknown)).2
  · intro i malloc create q' p hi hreturns
    exact ((hq.get_new hw hi malloc create).of_returns hreturns).1
  · intro i malloc create q' hreturns
    cases hi : m i with
    | none => exact ((hq.get_new hw hi malloc create).of_returns hreturns).2
    | some p =>
        obtain ⟨q₁, -, hcount, hknown⟩ := hq.get_known hi malloc create
        obtain ⟨rfl, -⟩ := Prod.mk.inj (hreturns.unique hknown)
        exact hcount
  · intro h hchain hcap
    have hlt := hq.mapped.loaded.lt_half (hchain.le ht)
    omega

/-! ### Examples -/

/-- The calls one after the other, each with the same fuel. -/
def Queue.performAll (hashThreadId : ι → Nat) (w intBits fuel : Nat) :
    List (Op ι) → Queue ι × (ι → Option Nat) → Option (Queue ι × (ι → Option Nat))
  | [], qm => some qm
  | op :: ops, (q, m) =>
      match q.perform hashThreadId w intBits op fuel with
      | none => none
      | some (q', r) => performAll hashThreadId w intBits fuel ops (q', after m op r)

theorem History.performAll {fuel : Nat} {ops : List (Op ι)} {q' : Queue ι} {m' : ι → Option Nat}
    (hh : History hashThreadId w intBits q m)
    (hops : Queue.performAll hashThreadId w intBits fuel ops (q, m) = some (q', m')) :
    History hashThreadId w intBits q' m' := by
  induction ops generalizing q m with
  | nil =>
      cases hops
      exact hh
  | cons op ops ih =>
      rw [Queue.performAll] at hops
      match hop : q.perform hashThreadId w intBits op fuel with
      | none => simp only [hop, reduceCtorEq] at hops
      | some (q₁, r) =>
          simp only [hop] at hops
          exact ih (hh.step ⟨fuel, fun _ hle => perform_mono hop hle⟩) hops

/-- A history that has been run; `f` is what is seen of its end. -/
theorem exists_history {κ : Type*} (hashThreadId : ι → Nat) (w intBits fuel : Nat)
    (ops : List (Op ι)) (f : Queue ι × (ι → Option Nat) → κ) {y : κ} (hq : q.Init w)
    (hops : (Queue.performAll hashThreadId w intBits fuel ops (q, fun _ => none)).map f =
      some y) : ∃ q' m', History hashThreadId w intBits q' m' ∧ f (q', m') = y := by
  obtain ⟨⟨q', m'⟩, hrun, hy⟩ := Option.map_eq_some_iff.mp hops
  exact ⟨q', m', (History.start hq).performAll hrun, hy⟩

/-- A queue with an initial table of `2^e` slots. -/
def small (e : Nat) : Queue Nat where
  table _ := .empty (2 ^ e) none
  created := 1
  implicitProducerHash := 0
  implicitProducerHashCount := 0
  resizeInProgress := false
  listener _ := none
  producer _ := ⟨false, false⟩
  producerCount := 0

theorem small_init {e : Nat} (he : e < w) : (small e).Init w :=
  ⟨⟨e, he, rfl⟩, rfl, rfl, rfl, rfl, fun _ _ => rfl, fun _ => rfl⟩

/-- Four threads, of which the last needs a second table, and gets it at the second
attempt. Thread 0 is copied to it; thread 3 leaves, and thread 19 gets its slot and its
producer. -/
theorem small_behaves : ∃ q m, History (fun i : Nat => i) 8 32 q m ∧
    ([0, 1, 2, 3, 19].map m = [some 0, some 1, some 2, none, some 3] ∧
      [0, 3].map (q.toState.key 1) = [.id 0, .id 19] ∧ q.implicitProducerHashCount = 4) ∧
    Behaves (fun i : Nat => i) 8 32 q m := by
  obtain ⟨q, m, hh, hend⟩ := exists_history (fun i => i) 8 32 20
    [.get 0 true true, .get 1 true true, .get 2 true true, .get 3 false true,
      .get 3 true true, .get 0 true true, .exit 3, .get 19 true true]
    (fun r => ([0, 1, 2, 3, 19].map r.2, [0, 3].map (r.1.toState.key 1),
      r.1.implicitProducerHashCount))
    (y := ([some 0, some 1, some 2, none, some 3], [.id 0, .id 19], 4))
    (small_init (e := 3) (by decide)) (by decide +kernel)
  obtain ⟨hm, hend⟩ := Prod.mk.inj hend
  obtain ⟨hkey, hcount⟩ := Prod.mk.inj hend
  exact ⟨q, m, hh, ⟨hm, hkey, hcount⟩, history_behaves (by decide) hh⟩

/-- A `size_t` of 8 bits and 63 threads: the call of the next one does not come back. -/
theorem registration_loops_forever : ∃ q m, History (fun i : Nat => i) 8 32 q m ∧
    q.implicitProducerHashCount = 63 ∧
    ∀ malloc create fuel,
      q.perform (fun i : Nat => i) 8 32 (.get 63 malloc create) fuel = none := by
  obtain ⟨q, m, hh, hend⟩ := exists_history (fun i => i) 8 32 140
    ((List.range 63).map fun i => .get i true true)
    (fun r => (r.1.implicitProducerHashCount, r.2 63)) (y := (63, none))
    (small_init (e := 5) (by decide)) (by decide +kernel)
  obtain ⟨hcount, hm⟩ := Prod.mk.inj hend
  refine ⟨q, m, hh, hcount, fun malloc create fuel => ?_⟩
  refine ((hh.rep (by decide)).perform (by decide) _).eq_none (fun hfits => ?_) fuel
  have hlt := hfits hm
  rw [show q.implicitProducerHashCount = 63 from hcount] at hlt
  exact absurd hlt (by decide)

end Histories

end ConcurrentQueue.ImplicitHash
