import ConcurrentQueue.ImplicitHash

/-!
# ConcurrentQueue.ImplicitHashKeys

What holds of the keys in the tables in every interleaving, whether or not they
fill up: **a thread's id stands at most once in each table, where a search for it
finds it**, and a thread that is looking, inserting or exiting knows in which tables
its own id does not stand. Only a thread itself writes and removes its id.
-/

namespace ConcurrentQueue.ImplicitHash

open Interleaving Probing

variable {ι : Type*}

/-! ### The tables -/

section Tables

variable (hashThreadId : ι → Nat)

structure Tables (s : State ι) : Prop where
  created : s.created = s.implicitProducerHash + 1
  prev_zero : (s.table 0).prev = none
  prev_succ : ∀ h, h < s.implicitProducerHash → (s.table (h + 1)).prev = some h
  pow : ∀ h, h ≤ s.implicitProducerHash → ∃ e, s.capacity h = 2 ^ e
  mono : ∀ h, h < s.implicitProducerHash → s.capacity h * 2 ≤ s.capacity (h + 1)
  bound : ∀ h k, s.key h k ≠ .invalidThreadId → h ≤ s.implicitProducerHash ∧ k < s.capacity h
  placed : ∀ h k i, s.key h k = .id i →
    Walk (s.capacity h) (s.key h) (hashThreadId i) (· ≠ .invalidThreadId) k
  unique : ∀ h k k' i, s.key h k = .id i → s.key h k' = .id i → k = k'

/-- Two states with the same tables, but for the values. -/
structure SameKeys (s s' : State ι) : Prop where
  key : s'.key = s.key
  capacity : s'.capacity = s.capacity
  prev : ∀ h, (s'.table h).prev = (s.table h).prev
  created : s'.created = s.created
  main : s'.implicitProducerHash = s.implicitProducerHash

/-- The key of one slot is set. -/
structure SetsKey (s s' : State ι) (h k : Nat) (x : Key ι) : Prop where
  self : s'.key h k = x
  other : ∀ h' k', h' ≠ h ∨ k' ≠ k → s'.key h' k' = s.key h' k'
  capacity : s'.capacity = s.capacity
  prev : ∀ h, (s'.table h).prev = (s.table h).prev
  created : s'.created = s.created
  main : s'.implicitProducerHash = s.implicitProducerHash

variable {hashThreadId} {s s' : State ι} {h h' k index hash : Nat} {x : Key ι} {i j : ι}

theorem SameKeys.refl (s : State ι) : SameKeys s s :=
  ⟨rfl, rfl, fun _ => rfl, rfl, rfl⟩

theorem sameKeys_setValue (s : State ι) (h k : Nat) (value : Option Nat) :
    SameKeys s (s.setValue h k value) := by
  refine ⟨funext fun h' => funext fun k' => ?_, funext fun h' => ?_, fun h' => ?_, rfl, rfl⟩
  all_goals
    simp only [State.key, State.capacity, State.setValue, Function.update_apply]
    split <;> simp_all [ImplicitProducerHash.setValue]

theorem setsKey_setKey (s : State ι) (h k : Nat) (x : Key ι) :
    SetsKey s (s.setKey h k x) h k x := by
  refine ⟨?_, fun h' k' hne => ?_, funext fun h' => ?_, fun h' => ?_, rfl, rfl⟩
  · simp [State.key, State.setKey, ImplicitProducerHash.setKey]
  · simp only [State.key, State.setKey, Function.update_apply]
    split
    case isTrue heq =>
        subst heq
        exact Function.update_of_ne (hne.resolve_left (fun hne => hne rfl)) ..
    case isFalse => rfl
  · simp only [State.capacity, State.setKey, Function.update_apply]
    split <;> simp_all [ImplicitProducerHash.setKey]
  · simp only [State.setKey, Function.update_apply]
    split <;> simp_all [ImplicitProducerHash.setKey]

theorem setsKey_setEntry (s : State ι) (h k : Nat) (x : Key ι) (value : Option Nat) :
    SetsKey s (s.setEntry h k x value) h k x := by
  have heq : s.setEntry h k x value = (s.setKey h k x).setValue h k value := by
    simp [State.setEntry, State.setKey, State.setValue, ImplicitProducerHash.setEntry]
  have hset := setsKey_setKey s h k x
  have hsame := sameKeys_setValue (s.setKey h k x) h k value
  rw [heq]
  refine ⟨?_, ?_, ?_, ?_, rfl, rfl⟩
  · rw [hsame.key, hset.self]
  · intro h' k' hne
    rw [hsame.key, hset.other h' k' hne]
  · rw [hsame.capacity, hset.capacity]
  · intro h'
    rw [hsame.prev, hset.prev]

/-- Where the key of a slot was set, and where it was not. -/
theorem SetsKey.cases (hs : SetsKey s s' h k x) (h' k' : Nat) :
    (h' = h ∧ k' = k ∧ s'.key h' k' = x) ∨ ((h' ≠ h ∨ k' ≠ k) ∧ s'.key h' k' = s.key h' k') := by
  by_cases heq : h' = h ∧ k' = k
  · obtain ⟨rfl, rfl⟩ := heq
    exact .inl ⟨rfl, rfl, hs.self⟩
  · have hne : h' ≠ h ∨ k' ≠ k := by
      rw [not_and_or] at heq
      exact heq
    exact .inr ⟨hne, hs.other h' k' hne⟩

/-- Slots stay filled. -/
theorem SetsKey.filled (hs : SetsKey s s' h k x) (hx : x ≠ .invalidThreadId) {h' k' : Nat}
    (hfilled : s.key h' k' ≠ .invalidThreadId) : s'.key h' k' ≠ .invalidThreadId := by
  rcases hs.cases h' k' with ⟨-, -, heq⟩ | ⟨-, heq⟩ <;> rw [heq]
  · exact hx
  · exact hfilled

theorem table_publish_self (s : State ι) (mainHash capacity : Nat) :
    (s.publish mainHash capacity).table s.created = .empty capacity (some mainHash) :=
  Function.update_self ..

theorem table_publish_of_ne {mainHash capacity : Nat} (hh : h ≠ s.created) :
    (s.publish mainHash capacity).table h = s.table h := Function.update_of_ne hh ..

namespace Tables

theorem capacity_pos (ht : Tables hashThreadId s) (hh : h ≤ s.implicitProducerHash) :
    0 < s.capacity h := by
  obtain ⟨e, he⟩ := ht.pow h hh
  rw [he]
  exact Nat.two_pow_pos e

theorem slot_eq (ht : Tables hashThreadId s) (hh : h ≤ s.implicitProducerHash) (index : Nat) :
    (s.table h).slot index = index % s.capacity h := by
  obtain ⟨e, he⟩ := ht.pow h hh
  have hcap : (s.table h).capacity = 2 ^ e := he
  rw [he, ImplicitProducerHash.slot, hcap, Nat.and_two_pow_sub_one_eq_mod]

theorem capacity_mono (ht : Tables hashThreadId s) (hle : h ≤ h')
    (hh : h' ≤ s.implicitProducerHash) : s.capacity h ≤ s.capacity h' := by
  induction hle with
  | refl => exact le_rfl
  | step _ ih =>
      have hstep := ht.mono _ (Nat.lt_of_succ_le hh)
      have hle := ih (Nat.le_of_succ_le hh)
      simp only [Nat.succ_eq_add_one]
      omega

theorem same (ht : Tables hashThreadId s) (hs : SameKeys s s') : Tables hashThreadId s' := by
  obtain ⟨hkey, hcapacity, hprev, hcreated, hmain⟩ := hs
  refine ⟨?_, ?_, ?_, ?_, ?_, ?_, ?_, ?_⟩
  · rw [hcreated, hmain, ht.created]
  · rw [hprev, ht.prev_zero]
  · intro h hh
    rw [hprev]
    exact ht.prev_succ h (hmain ▸ hh)
  · rw [hmain, hcapacity]
    exact ht.pow
  · rw [hmain, hcapacity]
    exact ht.mono
  · rw [hkey, hmain, hcapacity]
    exact ht.bound
  · rw [hkey, hcapacity]
    exact ht.placed
  · rw [hkey]
    exact ht.unique

/-- The key of a slot is set; an id only where it is not in the table yet and a search
has led. -/
theorem sets (ht : Tables hashThreadId s) (hs : SetsKey s s' h k x) (hx : x ≠ .invalidThreadId)
    (hh : h ≤ s.implicitProducerHash) (hk : k < s.capacity h)
    (habsent : ∀ i k', x = .id i → s.key h k' ≠ .id i)
    (hplaced : ∀ i, x = .id i →
      Walk (s.capacity h) (s.key h) (hashThreadId i) (· ≠ .invalidThreadId) k) :
    Tables hashThreadId s' := by
  refine ⟨?_, ?_, ?_, ?_, ?_, ?_, ?_, ?_⟩
  · rw [hs.created, hs.main, ht.created]
  · rw [hs.prev, ht.prev_zero]
  · intro h' hh'
    rw [hs.prev]
    exact ht.prev_succ h' (hs.main ▸ hh')
  · rw [hs.main, hs.capacity]
    exact ht.pow
  · rw [hs.main, hs.capacity]
    exact ht.mono
  · intro h' k' hkey
    rw [hs.main, hs.capacity]
    rcases hs.cases h' k' with ⟨rfl, rfl, -⟩ | ⟨-, heq⟩
    · exact ⟨hh, hk⟩
    · exact ht.bound h' k' (heq ▸ hkey)
  · intro h' k' j hkey
    rw [hs.capacity]
    -- filled slots stay filled, so every search that led to a key still does
    have hwalk : Walk (s.capacity h') (s.key h') (hashThreadId j) (· ≠ .invalidThreadId) k' := by
      rcases hs.cases h' k' with ⟨rfl, rfl, heq⟩ | ⟨-, heq⟩
      · exact hplaced j (heq.symm.trans hkey)
      · exact ht.placed h' k' j (heq.symm.trans hkey)
    exact hwalk.imp fun m => hs.filled hx
  · intro h' k₁ k₂ j hkey₁ hkey₂
    rcases hs.cases h' k₁ with ⟨rfl, rfl, heq₁⟩ | ⟨-, heq₁⟩ <;>
      rcases hs.cases h' k₂ with ⟨hh₂, rfl, heq₂⟩ | ⟨-, heq₂⟩
    · rfl
    · exact absurd (heq₂.symm.trans hkey₂) (habsent j k₂ (heq₁.symm.trans hkey₁))
    · subst hh₂
      exact absurd (heq₁.symm.trans hkey₁) (habsent j k₁ (heq₂.symm.trans hkey₂))
    · exact ht.unique h' k₁ k₂ j (heq₁.symm.trans hkey₁) (heq₂.symm.trans hkey₂)

/-- The new table is beyond all tables that have keys. -/
theorem key_publish (ht : Tables hashThreadId s) (mainHash capacity h k : Nat) :
    (s.publish mainHash capacity).key h k = s.key h k := by
  rcases eq_or_ne h s.created with rfl | hh
  · rw [State.key, table_publish_self]
    by_contra hne
    have := (ht.bound s.created k (Ne.symm hne)).1
    have := ht.created
    omega
  · rw [State.key, table_publish_of_ne hh]
    rfl

theorem capacity_publish (ht : Tables hashThreadId s) {mainHash capacity : Nat}
    (hh : h ≤ s.implicitProducerHash) :
    (s.publish mainHash capacity).capacity h = s.capacity h := by
  have hne : h ≠ s.created := by
    have := ht.created
    omega
  rw [State.capacity, table_publish_of_ne hne]
  rfl

theorem publish (ht : Tables hashThreadId s) {capacity : Nat} (hpow : ∃ e, capacity = 2 ^ e)
    (hcap : s.capacity s.implicitProducerHash * 2 ≤ capacity) :
    Tables hashThreadId (s.publish s.implicitProducerHash capacity) := by
  have hcreated := ht.created
  have hmain : (s.publish s.implicitProducerHash capacity).implicitProducerHash =
      s.implicitProducerHash + 1 := hcreated
  have hnew : (s.publish s.implicitProducerHash capacity).capacity (s.implicitProducerHash + 1) =
      capacity := by
    rw [State.capacity, ← hcreated, table_publish_self]
    rfl
  have hold : ∀ h, h ≤ s.implicitProducerHash →
      (s.publish s.implicitProducerHash capacity).capacity h = s.capacity h :=
    fun h => ht.capacity_publish
  have hkey : (s.publish s.implicitProducerHash capacity).key = s.key :=
    funext fun h => funext fun k => ht.key_publish _ _ h k
  refine ⟨?_, ?_, ?_, ?_, ?_, ?_, ?_, ?_⟩
  · rw [hmain, ← hcreated]
    rfl
  · rw [table_publish_of_ne (by omega), ht.prev_zero]
  · intro h hh
    rw [hmain] at hh
    rcases eq_or_ne h s.implicitProducerHash with rfl | hne
    · rw [← hcreated, table_publish_self]
      rfl
    · rw [table_publish_of_ne (by omega), ht.prev_succ h (by omega)]
  · intro h hh
    rw [hmain] at hh
    rcases eq_or_ne h (s.implicitProducerHash + 1) with rfl | hne
    · rwa [hnew]
    · rw [hold h (by omega)]
      exact ht.pow h (by omega)
  · intro h hh
    rw [hmain] at hh
    rw [hold h (by omega)]
    rcases eq_or_ne h s.implicitProducerHash with rfl | hne
    · rwa [hnew]
    · rw [hold _ (by omega)]
      exact ht.mono h (by omega)
  · rw [hkey]
    intro h k hk
    obtain ⟨hle, hlt⟩ := ht.bound h k hk
    rw [hmain, hold h hle]
    exact ⟨by omega, hlt⟩
  · rw [hkey]
    intro h k j hk
    obtain ⟨hle, -⟩ := ht.bound h k (by rw [hk]; exact nofun)
    rw [hold h hle]
    exact ht.placed h k j hk
  · rw [hkey]
    exact ht.unique

end Tables

/-- The tables that searches come to have a number up to that of the current one. -/
theorem InChain.le (hc : InChain s hash) (ht : Tables hashThreadId s) :
    hash ≤ s.implicitProducerHash := by
  induction hc with
  | main => exact le_rfl
  | @prev hash p _ hprev ih =>
      cases hash with
      | zero => exact absurd (ht.prev_zero.symm.trans hprev) nofun
      | succ h =>
          rw [ht.prev_succ h ih] at hprev
          have : h = p := Option.some.inj hprev
          omega

end Tables

/-! ### What the threads know -/

namespace PC

/-- The thread has `implicitProducerHashResizeInProgress`. -/
def resizing : PC → Bool
  | loadLocked _ | allocate .. | allocateSub _ | allocateClear | publish .. | clear .. => true
  | _ => false

/-- The thread is about to make a new table of the current one. -/
def growing : PC → Bool
  | allocate .. | publish .. => true
  | _ => false

theorem resizing_of_growing {pc : PC} (h : pc.growing = true) : pc.resizing = true := by
  cases pc <;> first | rfl | cases h

end PC

section Known

variable (hashThreadId : ι → Nat) (s : State ι) (i : ι)

/-- A search for thread `i` in table `h` has passed keys that satisfy `P`. -/
def Searching (P : Key ι → Prop) (h index : Nat) : Prop :=
  Walk (s.capacity h) (s.key h) (hashThreadId i) P index

/-- The id of thread `i` is in no table from `h` on. -/
def AbsentFrom (h : Nat) : Prop := ∀ h' k, h ≤ h' → s.key h' k ≠ .id i

/-- What thread `i` knows at each step of its program. -/
def PC.Known : PC → Prop
  | .idle | .refund .. => True
  | .lookup mainHash hash index =>
      (mainHash ≤ s.implicitProducerHash ∧ hash ≤ mainHash) ∧ AbsentFrom s i (hash + 1) ∧
        Searching hashThreadId s i (· ≠ .id i) hash index
  | .copyEmpty mainHash index _ =>
      mainHash ≤ s.implicitProducerHash ∧ AbsentFrom s i mainHash ∧
        (∃ h k, h < mainHash ∧ s.key h k = .id i) ∧
          Searching hashThreadId s i (· ≠ .invalidThreadId) mainHash index
  | .copyReusable mainHash index _ =>
      mainHash ≤ s.implicitProducerHash ∧ AbsentFrom s i mainHash ∧
        (∃ h k, h < mainHash ∧ s.key h k = .id i) ∧
          Searching hashThreadId s i (· ≠ .invalidThreadId) mainHash index ∧
            s.key mainHash (index % s.capacity mainHash) ≠ .invalidThreadId
  | .fetchAdd mainHash | .testAndSet mainHash _ | .clear mainHash _ =>
      mainHash ≤ s.implicitProducerHash ∧ AbsentFrom s i 0
  | .loadLocked _ | .allocateSub _ | .allocateClear | .recycleSub _ | .reload _ | .release _ =>
      AbsentFrom s i 0
  | .allocate mainHash _ => mainHash = s.implicitProducerHash ∧ AbsentFrom s i 0
  | .publish mainHash _ capacity =>
      mainHash = s.implicitProducerHash ∧ AbsentFrom s i 0 ∧ (∃ e, capacity = 2 ^ e) ∧
        s.capacity mainHash * 2 ≤ capacity
  | .recycle mainHash newCount =>
      mainHash ≤ s.implicitProducerHash ∧ AbsentFrom s i 0 ∧
        newCount < s.capacity mainHash / 2 + s.capacity mainHash / 4
  | .insertReusable mainHash newCount index _ | .insertEmpty mainHash newCount index _ =>
      mainHash ≤ s.implicitProducerHash ∧ AbsentFrom s i 0 ∧
        newCount < s.capacity mainHash / 2 + s.capacity mainHash / 4 ∧
          Searching hashThreadId s i (· ≠ .invalidThreadId) mainHash index
  | .exitScan hash index _ =>
      hash ≤ s.implicitProducerHash ∧ AbsentFrom s i (hash + 1) ∧
        Searching hashThreadId s i (· ≠ .id i) hash index

end Known

/-- A step that thread `j` may not notice: it leaves the id of `j` alone and empties no
slot. -/
structure Unnoticed (s s' : State ι) (j : ι) : Prop where
  id_iff : ∀ h k, s'.key h k = .id j ↔ s.key h k = .id j
  filled : ∀ h k, s.key h k ≠ .invalidThreadId → s'.key h k ≠ .invalidThreadId
  capacity : ∀ h, h ≤ s.implicitProducerHash → s'.capacity h = s.capacity h
  main : s.implicitProducerHash ≤ s'.implicitProducerHash

section Unnoticed

variable {hashThreadId : ι → Nat} {s s' : State ι} {i j : ι} {h k index : Nat} {x : Key ι} {pc : PC}

/-- The keys are the same; there may be a new table. -/
structure Extends (s s' : State ι) : Prop where
  key : s'.key = s.key
  capacity : ∀ h, h ≤ s.implicitProducerHash → s'.capacity h = s.capacity h
  main : s.implicitProducerHash ≤ s'.implicitProducerHash

theorem SameKeys.extends (hs : SameKeys s s') : Extends s s' :=
  ⟨hs.key, fun _ _ => by rw [hs.capacity], hs.main.ge⟩

theorem Extends.unnoticed (he : Extends s s') (j : ι) : Unnoticed s s' j :=
  ⟨fun _ _ => by rw [he.key], fun _ _ => by rw [he.key]; exact id, he.capacity, he.main⟩

theorem SetsKey.unnoticed (hs : SetsKey s s' h k x) (hx : x ≠ .invalidThreadId)
    (hold : s.key h k ≠ .id j) (hnew : x ≠ .id j) : Unnoticed s s' j := by
  refine ⟨fun h' k' => ?_, fun h' k' => hs.filled hx, fun h' _ => by rw [hs.capacity], hs.main.ge⟩
  rcases hs.cases h' k' with ⟨rfl, rfl, heq⟩ | ⟨-, heq⟩ <;> rw [heq]
  exact ⟨fun h => absurd h hnew, fun h => absurd h hold⟩

theorem Tables.extends_publish (ht : Tables hashThreadId s) (mainHash capacity : Nat) :
    Extends s (s.publish mainHash capacity) := by
  refine ⟨funext fun h => funext fun k => ht.key_publish _ _ h k, fun h => ht.capacity_publish, ?_⟩
  have := ht.created
  show s.implicitProducerHash ≤ s.created
  omega

namespace Unnoticed

theorem absentFrom (hu : Unnoticed s s' j) (ha : AbsentFrom s j h) : AbsentFrom s' j h :=
  fun h' k hle hk => ha h' k hle ((hu.id_iff h' k).mp hk)

theorem searching_id (hu : Unnoticed s s' j) (hh : h ≤ s.implicitProducerHash)
    (hw : Searching hashThreadId s j (· ≠ .id j) h index) :
    Searching hashThreadId s' j (· ≠ .id j) h index := by
  rw [Searching, hu.capacity h hh]
  exact Walk.imp hw fun k hk heq => hk ((hu.id_iff h k).mp heq)

theorem searching_filled (hu : Unnoticed s s' j) (hh : h ≤ s.implicitProducerHash)
    (hw : Searching hashThreadId s j (· ≠ .invalidThreadId) h index) :
    Searching hashThreadId s' j (· ≠ .invalidThreadId) h index := by
  rw [Searching, hu.capacity h hh]
  exact Walk.imp hw fun k => hu.filled h k

/-- A thread that is not about to make a new table knows what it knew. -/
theorem known (hu : Unnoticed s s' j) (hk : pc.Known hashThreadId s j)
    (hgrow : pc.growing = true → s'.implicitProducerHash = s.implicitProducerHash) :
    pc.Known hashThreadId s' j := by
  have hmain := hu.main
  cases pc with
  | idle | refund => trivial
  | lookup mainHash hash index =>
      obtain ⟨⟨hle, hhash⟩, ha, hw⟩ := hk
      exact ⟨⟨hle.trans hmain, hhash⟩, hu.absentFrom ha, hu.searching_id (hhash.trans hle) hw⟩
  | copyEmpty mainHash index value =>
      obtain ⟨hle, ha, ⟨h, k, hlt, hkey⟩, hw⟩ := hk
      exact ⟨hle.trans hmain, hu.absentFrom ha, ⟨h, k, hlt, (hu.id_iff h k).mpr hkey⟩,
        hu.searching_filled hle hw⟩
  | copyReusable mainHash index value =>
      obtain ⟨hle, ha, ⟨h, k, hlt, hkey⟩, hw, hfilled⟩ := hk
      refine ⟨hle.trans hmain, hu.absentFrom ha, ⟨h, k, hlt, (hu.id_iff h k).mpr hkey⟩,
        hu.searching_filled hle hw, ?_⟩
      rw [hu.capacity _ hle]
      exact hu.filled _ _ hfilled
  | fetchAdd mainHash | testAndSet mainHash _ | clear mainHash _ =>
      exact ⟨hk.1.trans hmain, hu.absentFrom hk.2⟩
  | loadLocked | allocateSub | allocateClear | recycleSub | reload | release =>
      exact hu.absentFrom hk
  | allocate mainHash newCount => exact ⟨hk.1.trans (hgrow rfl).symm, hu.absentFrom hk.2⟩
  | publish mainHash newCount capacity =>
      obtain ⟨hm, ha, hpow, hcap⟩ := hk
      refine ⟨hm.trans (hgrow rfl).symm, hu.absentFrom ha, hpow, ?_⟩
      rwa [hu.capacity _ hm.le]
  | recycle mainHash newCount =>
      obtain ⟨hle, ha, hlt⟩ := hk
      refine ⟨hle.trans hmain, hu.absentFrom ha, ?_⟩
      rwa [hu.capacity _ hle]
  | insertReusable mainHash newCount index _ | insertEmpty mainHash newCount index _ =>
      obtain ⟨hle, ha, hlt, hw⟩ := hk
      refine ⟨hle.trans hmain, hu.absentFrom ha, ?_, hu.searching_filled hle hw⟩
      rwa [hu.capacity _ hle]
  | exitScan hash index _ =>
      obtain ⟨hle, ha, hw⟩ := hk
      exact ⟨hle.trans hmain, hu.absentFrom ha, hu.searching_id hle hw⟩

end Unnoticed

end Unnoticed

/-! ### Every interleaving -/

/-- What holds of the keys in every reachable configuration. -/
structure Keys (hashThreadId : ι → Nat) (s : State ι) (locals : ι → PC) : Prop where
  tables : Tables hashThreadId s
  lock : ∃ owner, Guarded PC.resizing locals owner ∧ s.resizeInProgress = owner.isSome
  known : ∀ i, (locals i).Known hashThreadId s i

section Steps

variable {hashThreadId : ι → Nat} {s s' : State ι} {locals : ι → PC} {i j : ι} {l : PC}
  {h k index mainHash hash newCount : Nat} {x : Key ι}

theorem newCapacity_pow (newCount fuel : Nat) {capacity : Nat} (hpow : ∃ e, capacity = 2 ^ e) :
    ∃ e, newCapacity newCount fuel capacity = 2 ^ e := by
  induction fuel generalizing capacity with
  | zero => exact hpow
  | succ fuel ih =>
      unfold newCapacity
      split
      case isTrue =>
          obtain ⟨e, rfl⟩ := hpow
          exact ih ⟨e + 1, (pow_succ 2 e).symm⟩
      case isFalse => exact hpow

theorem le_newCapacity (newCount fuel capacity : Nat) :
    capacity ≤ newCapacity newCount fuel capacity := by
  induction fuel generalizing capacity with
  | zero => exact le_rfl
  | succ fuel ih =>
      unfold newCapacity
      split
      case isTrue => exact le_trans (Nat.le_mul_of_pos_right _ (by decide)) (ih _)
      case isFalse => exact le_rfl

/-! What the control leads to. -/

theorem known_tryInsert (hle : mainHash ≤ s.implicitProducerHash) (ha : AbsentFrom s i 0) :
    (s.tryInsert mainHash newCount).Known hashThreadId s i := by
  unfold State.tryInsert
  split
  case isTrue hlt => exact ⟨hle, ha, hlt⟩
  case isFalse => exact ha

theorem resizing_tryInsert : (s.tryInsert mainHash newCount).resizing = false := by
  unfold State.tryInsert
  split <;> rfl

theorem known_insertLoop (hle : mainHash ≤ s.implicitProducerHash) (ha : AbsentFrom s i 0) :
    (s.insertLoop mainHash newCount).Known hashThreadId s i := by
  unfold State.insertLoop
  split
  case isTrue => exact ⟨hle, ha⟩
  case isFalse => exact known_tryInsert hle ha

theorem resizing_insertLoop : (s.insertLoop mainHash newCount).resizing = false := by
  unfold State.insertLoop
  split
  case isTrue => rfl
  case isFalse => exact resizing_tryInsert

theorem known_nextLookup (ht : Tables hashThreadId s) (hle : mainHash ≤ s.implicitProducerHash)
    (hhash : hash ≤ mainHash) (ha : AbsentFrom s i hash) :
    (s.nextLookup mainHash hash (hashThreadId i)).Known hashThreadId s i := by
  unfold State.nextLookup
  cases hash with
  | zero =>
      rw [ht.prev_zero]
      exact ⟨hle, ha⟩
  | succ h =>
      rw [ht.prev_succ h (by omega)]
      exact ⟨⟨hle, by omega⟩, ha, Walk.start⟩

theorem resizing_nextLookup {hashedId : Nat} :
    (s.nextLookup mainHash hash hashedId).resizing = false := by
  unfold State.nextLookup
  split <;> rfl

theorem known_nextExit (ht : Tables hashThreadId s) {producer : Nat}
    (hhash : hash ≤ s.implicitProducerHash) (ha : AbsentFrom s i hash) :
    (s.nextExit hash (hashThreadId i) producer).Known hashThreadId s i := by
  unfold State.nextExit
  cases hash with
  | zero =>
      rw [ht.prev_zero]
      exact ha
  | succ h =>
      rw [ht.prev_succ h (by omega)]
      exact ⟨by omega, ha, Walk.start⟩

theorem resizing_nextExit {hashedId producer : Nat} :
    (s.nextExit hash hashedId producer).resizing = false := by
  unfold State.nextExit
  split <;> rfl

/-- A search that meets a free slot: the id is not in this table either. -/
theorem Tables.absentFrom_of_empty (ht : Tables hashThreadId s) (ha : AbsentFrom s i (hash + 1))
    (hw : Searching hashThreadId s i (· ≠ .id i) hash index)
    (hempty : s.key hash (index % s.capacity hash) = .invalidThreadId) : AbsentFrom s i hash := by
  intro h k hle hk
  rcases eq_or_lt_of_le hle with rfl | hlt
  · exact Walk.not_found hw hempty nofun (ht.placed _ k i hk)
      (ht.bound _ k (by rw [hk]; exact nofun)).2 hk
  · exact ha h k hlt hk

variable [DecidableEq ι]

namespace Keys

theorem update (hs : Keys hashThreadId s locals) (ht : Tables hashThreadId s')
    (hlock : ∃ owner, Guarded PC.resizing (Function.update locals i l) owner ∧
      s'.resizeInProgress = owner.isSome)
    (hself : l.Known hashThreadId s' i) (hothers : ∀ j, j ≠ i → Unnoticed s s' j)
    (hgrow : ∀ j, j ≠ i → (locals j).growing = true →
      s'.implicitProducerHash = s.implicitProducerHash) :
    Keys hashThreadId s' (Function.update locals i l) := by
  refine ⟨ht, hlock, fun j => ?_⟩
  rcases eq_or_ne i j with rfl | hij
  · rwa [Function.update_self]
  · rw [Function.update_of_ne hij.symm]
    exact (hothers j hij.symm).known (hs.known j) (hgrow j hij.symm)

theorem keepLock (hs : Keys hashThreadId s locals) (hl : l.resizing = (locals i).resizing) :
    ∃ owner, Guarded PC.resizing (Function.update locals i l) owner ∧
      s.resizeInProgress = owner.isSome := by
  obtain ⟨owner, hguard, hsome⟩ := hs.lock
  exact ⟨owner, hguard.keep hl, hsome⟩

theorem unlock (hs : Keys hashThreadId s locals) (hi : (locals i).resizing = true)
    (hl : l.resizing = false) :
    ∃ owner, Guarded PC.resizing (Function.update locals i l) owner ∧ false = owner.isSome := by
  obtain ⟨owner, hguard, -⟩ := hs.lock
  exact ⟨none, hguard.unlock hi hl, rfl⟩

/-- A step that changes no key and no table. -/
theorem quiet (hs : Keys hashThreadId s locals) (hsame : SameKeys s s')
    (hlock : ∃ owner, Guarded PC.resizing (Function.update locals i l) owner ∧
      s'.resizeInProgress = owner.isSome)
    (hself : l.Known hashThreadId s i) : Keys hashThreadId s' (Function.update locals i l) :=
  hs.update (hs.tables.same hsame) hlock
    ((hsame.extends.unnoticed i).known hself fun _ => hsame.main)
    (fun j _ => hsame.extends.unnoticed j)
    fun _ _ _ => hsame.main

/-- The thread writes its id. -/
theorem setsId (hs : Keys hashThreadId s locals) (hset : SetsKey s s' h k (.id i))
    (hresize : s'.resizeInProgress = s.resizeInProgress)
    (hle : h ≤ s.implicitProducerHash) (ha : AbsentFrom s i h)
    (hw : Searching hashThreadId s i (· ≠ .invalidThreadId) h index)
    (hk : k = index % s.capacity h) (hold : ∀ j, s.key h k ≠ .id j)
    (hl : l.resizing = (locals i).resizing) (hself : l.Known hashThreadId s' i) :
    Keys hashThreadId s' (Function.update locals i l) := by
  refine hs.update ?_ (hresize ▸ hs.keepLock hl) hself ?_ fun _ _ _ => hset.main
  · refine hs.tables.sets hset nofun hle ?_ ?_ ?_
    · rw [hk]
      exact Nat.mod_lt _ (hs.tables.capacity_pos hle)
    · rintro j k' hj
      obtain rfl := Key.id.inj hj
      exact ha h k' le_rfl
    · rintro j hj
      obtain rfl := Key.id.inj hj
      exact Walk.congr_mod hw (by rw [hk, Nat.mod_mod])
  · intro j hj
    exact hset.unnoticed nofun (hold j) fun heq => hj (Key.id.inj heq).symm

/-- An exiting thread gives its slot free for reuse. -/
theorem leaves (hs : Keys hashThreadId s locals) {producer : Nat}
    (hle : hash ≤ s.implicitProducerHash) (ha : AbsentFrom s i (hash + 1))
    (hkey : s.key hash k = .id i) (hi : (locals i).resizing = false) :
    Keys hashThreadId (s.setKey hash k .invalidThreadId2)
      (Function.update locals i (s.nextExit hash (hashThreadId i) producer)) := by
  have ht := hs.tables
  have hset := setsKey_setKey s hash k .invalidThreadId2
  have ht' : Tables hashThreadId (s.setKey hash k .invalidThreadId2) :=
    ht.sets hset nofun hle (ht.bound hash k (by rw [hkey]; exact nofun)).2 nofun nofun
  have hgone : AbsentFrom (s.setKey hash k .invalidThreadId2) i hash := by
    intro h k' hh hk'
    rcases hset.cases h k' with ⟨-, -, heq⟩ | ⟨hne, heq⟩
    · exact absurd (heq.symm.trans hk') nofun
    · rcases eq_or_lt_of_le hh with rfl | hlt
      · -- its id stood only once in this table
        exact hne.elim (· rfl) fun hne => hne (ht.unique _ k' k i (heq.symm.trans hk') hkey)
      · exact ha h k' hlt (heq.symm.trans hk')
  have hnext : (s.setKey hash k .invalidThreadId2).nextExit hash (hashThreadId i) producer =
      s.nextExit hash (hashThreadId i) producer := by
    rw [State.nextExit, hset.prev]
    rfl
  refine hs.update ht' (hs.keepLock (s := s) (by rw [hi, resizing_nextExit])) ?_ ?_
    fun _ _ _ => hset.main
  · rw [← hnext]
    exact known_nextExit ht' hle hgone
  · intro j hj
    refine hset.unnoticed nofun ?_ nofun
    rw [hkey]
    exact fun heq => hj (Key.id.inj heq).symm

theorem step (hs : Keys hashThreadId s locals) {a : Act}
    (hx : exec hashThreadId i a s (locals i) = some (s', l)) :
    Keys hashThreadId s' (Function.update locals i l) := by
  have ht := hs.tables
  have hknown := hs.known i
  have habsent : AbsentFrom s i (s.implicitProducerHash + 1) := by
    intro h k hlt hk
    have := (ht.bound h k (by rw [hk]; exact nofun)).1
    omega
  cases hi : locals i <;> rw [hi] at hx hknown <;> cases a <;> simp only [exec, reduceCtorEq] at hx
  case idle.call =>
    cases hx
    exact hs.quiet (.refl s) (hs.keepLock (by rw [hi]; rfl))
      ⟨⟨le_rfl, le_rfl⟩, habsent, Walk.start⟩
  case idle.exit =>
    split at hx
    case h_1 =>
      cases hx
      exact hs.quiet (.refl s) (hs.keepLock (by rw [hi]; rfl)) ⟨le_rfl, habsent, Walk.start⟩
    case h_2 => cases hx
  case lookup.run mainHash hash index =>
    obtain ⟨⟨hle, hhash⟩, ha, hw⟩ := hknown
    have hslot := ht.slot_eq (hhash.trans hle) index
    rw [hslot] at hx
    split at hx
    case h_1 j hkey =>
      split at hx
      case isTrue hji =>
        subst hji
        split at hx
        case isTrue =>
          cases hx
          exact hs.quiet (.refl s) (hs.keepLock (by rw [hi]; rfl)) trivial
        case isFalse hne =>
          cases hx
          have hlt : hash < mainHash := lt_of_le_of_ne hhash hne
          exact hs.quiet (.refl s) (hs.keepLock (by rw [hi]; rfl))
            ⟨hle, fun h k hh => ha h k (by omega), ⟨_, _, hlt, hkey⟩, Walk.start⟩
      case isFalse hji =>
        cases hx
        refine hs.quiet (.refl s) (hs.keepLock (by rw [hi]; rfl))
          ⟨⟨hle, hhash⟩, ha, Walk.next hw ?_⟩
        rw [hkey]
        exact fun heq => hji (Key.id.inj heq)
    case h_2 hkey =>
      cases hx
      refine hs.quiet (.refl s) (hs.keepLock (by rw [hi]; rfl))
        ⟨⟨hle, hhash⟩, ha, Walk.next hw ?_⟩
      rw [hkey]
      exact nofun
    case h_3 hkey =>
      cases hx
      refine hs.quiet (.refl s) (hs.keepLock ?_)
        (known_nextLookup ht hle hhash (ht.absentFrom_of_empty ha hw hkey))
      rw [hi, resizing_nextLookup]
      rfl
  case copyEmpty.run mainHash index value =>
    obtain ⟨hle, ha, hfound, hw⟩ := hknown
    have hslot := ht.slot_eq hle index
    rw [hslot] at hx
    split at hx
    case isTrue hkey =>
      cases hx
      exact hs.setsId (setsKey_setEntry ..) rfl hle ha hw rfl (by simp [hkey])
        (by rw [hi]; rfl) trivial
    case isFalse hkey =>
      cases hx
      exact hs.quiet (.refl s) (hs.keepLock (by rw [hi]; rfl)) ⟨hle, ha, hfound, hw, hkey⟩
  case copyReusable.run mainHash index value =>
    obtain ⟨hle, ha, hfound, hw, hfilled⟩ := hknown
    have hslot := ht.slot_eq hle index
    rw [hslot] at hx
    split at hx
    case isTrue hkey =>
      cases hx
      exact hs.setsId (setsKey_setEntry ..) rfl hle ha hw rfl (by simp [hkey])
        (by rw [hi]; rfl) trivial
    case isFalse hkey =>
      cases hx
      exact hs.quiet (.refl s) (hs.keepLock (by rw [hi]; rfl))
        ⟨hle, ha, hfound, Walk.next hw hfilled⟩
  case fetchAdd.run mainHash =>
    cases hx
    exact hs.quiet ⟨rfl, rfl, fun _ => rfl, rfl, rfl⟩
      (hs.keepLock (by rw [hi, resizing_insertLoop]; rfl))
        (known_insertLoop hknown.1 hknown.2)
  case testAndSet.run mainHash newCount =>
    split at hx
    case isTrue =>
      cases hx
      exact hs.quiet (.refl s) (hs.keepLock (by rw [hi, resizing_tryInsert]; rfl))
        (known_tryInsert hknown.1 hknown.2)
    case isFalse hfree =>
      cases hx
      refine hs.quiet ⟨rfl, rfl, fun _ => rfl, rfl, rfl⟩ ?_ hknown.2
      obtain ⟨owner, hguard, howner⟩ := hs.lock
      rw [Bool.not_eq_true, howner, Option.isSome_eq_false_iff,
        Option.isNone_iff_eq_none] at hfree
      exact ⟨some i, (hfree ▸ hguard).lock rfl, rfl⟩
  case loadLocked.run newCount =>
    split at hx
    all_goals
      cases hx
    · exact hs.quiet (.refl s) (hs.keepLock (by rw [hi]; rfl)) ⟨rfl, hknown⟩
    · exact hs.quiet (.refl s) (hs.keepLock (by rw [hi]; rfl)) ⟨le_rfl, hknown⟩
  case allocate.malloc mainHash newCount success =>
    obtain ⟨hmain, ha⟩ := hknown
    split at hx
    case isTrue =>
      cases hx
      refine hs.quiet (.refl s) (hs.keepLock (by rw [hi]; rfl))
        ⟨hmain, ha, ?_, le_newCapacity ..⟩
      obtain ⟨e, he⟩ := ht.pow mainHash hmain.le
      exact newCapacity_pow _ _ ⟨e + 1, by rw [he, pow_succ]⟩
    case isFalse =>
      cases hx
      exact hs.quiet (.refl s) (hs.keepLock (by rw [hi]; rfl)) ha
  case allocateSub.run newCount =>
    cases hx
    exact hs.quiet ⟨rfl, rfl, fun _ => rfl, rfl, rfl⟩ (hs.keepLock (by rw [hi]; rfl)) hknown
  case allocateClear.run =>
    cases hx
    exact hs.quiet ⟨rfl, rfl, fun _ => rfl, rfl, rfl⟩
      (hs.unlock (by rw [hi]; rfl) rfl) trivial
  case publish.run mainHash newCount capacity =>
    obtain ⟨rfl, ha, hpow, hcap⟩ := hknown
    cases hx
    have hu := (ht.extends_publish s.implicitProducerHash capacity).unnoticed
    refine hs.update (ht.publish hpow hcap) (hs.keepLock (s := s) (by rw [hi]; rfl))
      ⟨le_rfl, (hu i).absentFrom ha⟩ (fun j _ => hu j) ?_
    -- the other threads are not about to do the same
    intro j hj hgrow
    obtain ⟨owner, hguard, -⟩ := hs.lock
    exact absurd (hguard.unique (PC.resizing_of_growing hgrow) (by rw [hi]; rfl)) hj
  case clear.run mainHash newCount =>
    cases hx
    exact hs.quiet ⟨rfl, rfl, fun _ => rfl, rfl, rfl⟩
      (hs.unlock (by rw [hi]; rfl) resizing_tryInsert) (known_tryInsert hknown.1 hknown.2)
  case recycle.producer mainHash newCount result =>
    obtain ⟨hle, ha, hlt⟩ := hknown
    cases result with
    | some producer =>
        cases hx
        exact hs.quiet ⟨rfl, rfl, fun _ => rfl, rfl, rfl⟩ (hs.keepLock (by rw [hi]; rfl))
          ⟨hle, ha, hlt, Walk.start⟩
    | none =>
        cases hx
        exact hs.quiet (.refl s) (hs.keepLock (by rw [hi]; rfl)) ha
  case recycleSub.run newCount =>
    cases hx
    exact hs.quiet ⟨rfl, rfl, fun _ => rfl, rfl, rfl⟩ (hs.keepLock (by rw [hi]; rfl)) trivial
  case insertReusable.run mainHash newCount index producer =>
    obtain ⟨hle, ha, hlt, hw⟩ := hknown
    have hslot := ht.slot_eq hle index
    rw [hslot] at hx
    split at hx
    case isTrue hkey =>
      cases hx
      exact hs.setsId (setsKey_setKey ..) rfl hle
        (fun h k _ => ha h k (Nat.zero_le h)) hw rfl
        (by simp [hkey]) (by rw [hi]; rfl) trivial
    case isFalse =>
      cases hx
      exact hs.quiet (.refl s) (hs.keepLock (by rw [hi]; rfl)) ⟨hle, ha, hlt, hw⟩
  case insertEmpty.run mainHash newCount index producer =>
    obtain ⟨hle, ha, hlt, hw⟩ := hknown
    have hslot := ht.slot_eq hle index
    rw [hslot] at hx
    split at hx
    case isTrue hkey =>
      cases hx
      exact hs.setsId (setsKey_setEntry ..) rfl hle
        (fun h k _ => ha h k (Nat.zero_le h)) hw rfl
        (by simp [hkey]) (by rw [hi]; rfl) trivial
    case isFalse hkey =>
      cases hx
      exact hs.quiet (.refl s) (hs.keepLock (by rw [hi]; rfl))
        ⟨hle, ha, hlt, Walk.next hw hkey⟩
  case refund.run mainHash newCount k producer =>
    cases hx
    obtain ⟨hkey, hcap, hprev, hcreated, hmain⟩ :=
      sameKeys_setValue s.subCount mainHash k (some producer)
    exact hs.quiet ⟨hkey, hcap, hprev, hcreated, hmain⟩
      (hs.keepLock (by rw [hi]; rfl)) trivial
  case reload.run newCount =>
    cases hx
    exact hs.quiet (.refl s) (hs.keepLock (by rw [hi, resizing_insertLoop]; rfl))
      (known_insertLoop le_rfl hknown)
  case exitScan.run hash index producer =>
    obtain ⟨hle, ha, hw⟩ := hknown
    have hslot := ht.slot_eq hle index
    rw [hslot] at hx
    split at hx
    case isTrue hkey =>
      cases hx
      exact hs.leaves hle ha hkey (by rw [hi]; rfl)
    case isFalse hne =>
      split at hx
      case isTrue hkey =>
        cases hx
        exact hs.quiet (.refl s) (hs.keepLock (by rw [hi, resizing_nextExit]; rfl))
          (known_nextExit ht hle (ht.absentFrom_of_empty ha hw hkey))
      case isFalse =>
        cases hx
        exact hs.quiet (.refl s) (hs.keepLock (by rw [hi]; rfl))
          ⟨hle, ha, Walk.next hw hne⟩
  case release.run producer =>
    cases hx
    exact hs.quiet ⟨rfl, rfl, fun _ => rfl, rfl, rfl⟩ (hs.keepLock (by rw [hi]; rfl)) trivial

end Keys

omit [DecidableEq ι] in
/-- The initial table alone. -/
theorem tables_init (htable : ∃ e, s.table 0 = .empty (2 ^ e) none) (hcreated : s.created = 1)
    (hmain : s.implicitProducerHash = 0) (hkey : ∀ h k, s.key h k = .invalidThreadId) :
    Tables hashThreadId s := by
  obtain ⟨e, htable⟩ := htable
  refine ⟨?_, ?_, ?_, ?_, ?_, ?_, ?_, ?_⟩
  · rw [hcreated, hmain]
  · rw [htable]
    rfl
  · intro h hh
    omega
  · intro h hh
    obtain rfl : h = 0 := by omega
    exact ⟨e, by rw [State.capacity, htable]; rfl⟩
  · intro h hh
    omega
  · intro h k hk
    exact absurd (hkey h k) hk
  · intro h k i hk
    exact absurd ((hkey h k).symm.trans hk) nofun
  · intro h k k' i hk
    exact absurd ((hkey h k).symm.trans hk) nofun

omit [DecidableEq ι] in
theorem keys_init {c : Conf ι (State ι) PC} (hinit : Init c) :
    Keys hashThreadId c.shared c.locals := by
  obtain ⟨htable, hcreated, hmain, -, hresize, hkeys, -, hidle⟩ := hinit
  refine ⟨tables_init htable hcreated hmain hkeys, ⟨none, ?_, hresize⟩, ?_⟩
  · intro i
    rw [hidle]
    exact ⟨nofun, nofun⟩
  · intro i
    rw [hidle]
    trivial

end Steps

end ConcurrentQueue.ImplicitHash
