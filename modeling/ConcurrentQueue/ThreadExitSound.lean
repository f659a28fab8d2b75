import ConcurrentQueue.ThreadExit

/-!
# ConcurrentQueue.ThreadExitSound

A listener goes through the stages of `Mode`, which determine all its fields. The
invariant says where the threads are while a listener is in the middle of a
change, and that each thread's list, from the place its exit has got to, holds
exactly the listeners that are subscribed to it.
-/

namespace ConcurrentQueue.ThreadExit

open Function Interleaving Linked

variable {ι ν : Type*}

/-! ### The stages of a listener -/

inductive Mode (ι : Type*)
  | fresh
  /-- A call of thread `i` has the producer. -/
  | acquired (i : ι)
  | subscribed (t : ι)
  /-- The exit of thread `t` has cleared `chain` and runs the callback. -/
  | notified (t : ι)
  | inactive
  /-- The destructor has cleared `chain` and looks for the listener on the list. -/
  | unlinking (t : ι)
  | detached

namespace Mode

def created : Mode ι → Bool
  | fresh => false
  | _ => true

def isInactive : Mode ι → Bool
  | inactive => true
  | _ => false

def chain : Mode ι → Option ι
  | subscribed t => some t
  | _ => none

def inUse : Mode ι → Bool
  | acquired _ => true
  | _ => false

/-- Off every list for good, unless the producer is used again. -/
def Off (m : Mode ι) : Prop := m = inactive ∨ m = detached

/-- The exit of thread `t` has to run the callback. -/
def Pending (t : ι) (m : Mode ι) : Prop := m = subscribed t ∨ m = notified t

theorem chain_eq_some {m : Mode ι} {t : ι} (h : m.chain = some t) : m = subscribed t := by
  cases m with
  | subscribed t' => rw [Option.some.inj h]
  | fresh | acquired | notified | inactive | unlinking | detached => cases h

end Mode

namespace PC

/-- The thread has the mutex. -/
def critical : PC ι ν → Bool
  | subscribe _ | walk _ | walkCallback _ | walkNext _ | unsubscribe _ | unlink .. => true
  | _ => false

/-- The exit of the thread has begun, or is over. -/
def exiting : PC ι ν → Bool
  | walk _ | walkCallback _ | walkNext _ | gone => true
  | _ => false

/-- The producer whose destructor the thread runs. -/
def destroys : PC ι ν → Option ν
  | loadInactive n | unsubscribeLock n | unsubscribe n | unlink n _ _ _ | free n => some n
  | _ => none

/-- Where the rest of thread `t`'s list begins. -/
def cursor (s : State ι ν) (t : ι) : PC ι ν → Option ν
  | walk ptr => ptr
  | walkCallback ptr | walkNext ptr => s.next ptr
  | gone => none
  | _ => s.tail t

/-- What thread `i` knows at each of its steps. -/
def Ok (s : State ι ν) (mode : ν → Mode ι) (live : ι → List ν) (i : ι) : PC ι ν → Prop
  | subscribeLock n | subscribe n => mode n = .acquired i
  | walkCallback n => mode n = .notified i
  | unlink n t prev ptr => mode n = .unlinking t ∧
      ∃ front back, live t = front ++ back ∧ prev = front.getLast? ∧ n ∈ back ∧
        IsList s.next ptr back
  | free n => (mode n).Off
  | _ => True

end PC

/-- What holds for thread `i`, at step `pc` of its program. -/
structure Thread (s : State ι ν) (mode : ν → Mode ι) (live : ι → List ν) (i : ι) (pc : PC ι ν) :
    Prop where
  ok : pc.Ok s mode live i
  destroys : ∀ n, pc.destroys = some n → s.doomed n = true
  list : IsList s.next (pc.cursor s i) (live i)
  atExit : ∀ n, pc.exiting = true → (mode n).Pending i → s.atExit i n = true
  called_eq_one : ∀ n, pc.exiting = true → s.atExit i n = true → ¬ (mode n).Pending i →
    s.called i n = 1
  called_eq_zero : ∀ n, pc.exiting = false ∨ s.atExit i n = false ∨ (mode n).Pending i →
    s.called i n = 0

structure Inv (s : State ι ν) (locals : ι → PC ι ν) (mode : ν → Mode ι) (live : ι → List ν) :
    Prop where
  mutex : Guarded PC.critical locals s.mutex
  created : ∀ n, s.created n = (mode n).created
  inactive : ∀ n, s.inactive n = (mode n).isInactive
  chain : ∀ n, s.chain n = (mode n).chain
  inUse : ∀ n, s.inUse n = (mode n).inUse
  doomed : ∀ n, s.doomed n = true → (mode n).created = true ∧ (mode n).inUse = false
  freed : ∀ n, s.freed n = true → s.doomed n = true ∧ (mode n).Off
  mem : ∀ t n, n ∈ live t ↔ mode n = .subscribed t ∨ mode n = .unlinking t
  threads : ∀ i, Thread s mode live i (locals i)
  notified : ∀ n t, mode n = .notified t → locals t = .walkCallback n
  unlinking : ∀ n t, mode n = .unlinking t → ∃ j prev ptr, locals j = .unlink n t prev ptr
  apart : ∀ t n, locals t = .walkNext n → s.freed n = false ∧ ∀ j, locals j ≠ .free n

/-! ### Steps -/

section Steps

variable [DecidableEq ι] [DecidableEq ν] {s s' : State ι ν} {locals : ι → PC ι ν}
  {mode : ν → Mode ι} {live live' : ι → List ν} {i j : ι} {l pc : PC ι ν} {n : ν} {m : Mode ι}

omit [DecidableEq ι] in
/-- A field that goes with the stage of a listener, when both change. -/
theorem field_update {β : Type*} {f : ν → β} {g : Mode ι → β} (h : ∀ n, f n = g (mode n))
    {x : β} (hx : x = g m) (k : ν) : update f n x k = g (update mode n m k) := by
  rcases eq_or_ne k n with rfl | hk
  · rw [update_self, update_self, hx]
  · rw [update_of_ne hk, update_of_ne hk]
    exact h k

omit [DecidableEq ι] in
/-- The same when the field stays. -/
theorem field_keep {β : Type*} {f : ν → β} {g : Mode ι → β} (h : ∀ n, f n = g (mode n))
    (hm : g m = g (mode n)) (k : ν) : f k = g (update mode n m k) := by
  rcases eq_or_ne k n with rfl | hk
  · rw [update_self, hm]
    exact h k
  · rw [update_of_ne hk]
    exact h k

omit [DecidableEq ι] in
/-- Another listener's stage changes under the eyes of thread `j`. -/
theorem PC.Ok.change (h : pc.Ok s mode live j) (hacquired : mode n ≠ .acquired j)
    (hnotified : mode n ≠ .notified j)
    (hunlinking : ∀ t, mode n = .unlinking t → ∀ prev ptr, pc ≠ .unlink n t prev ptr)
    (hoff : pc = .free n → m.Off)
    (hlist : (∀ k t prev ptr, pc ≠ .unlink k t prev ptr) ∨ s'.next = s.next ∧ live' = live) :
    pc.Ok s' (update mode n m) live' j := by
  cases pc with
  | subscribeLock k | subscribe k =>
      have hk : k ≠ n := fun hk => hacquired (hk ▸ h)
      exact (update_of_ne hk ..).trans h
  | walkCallback k =>
      have hk : k ≠ n := fun hk => hnotified (hk ▸ h)
      exact (update_of_ne hk ..).trans h
  | unlink k t prev ptr =>
      obtain ⟨hmode, hsplit⟩ := h
      have hk : k ≠ n := fun hk => hunlinking t (hk ▸ hmode) prev ptr (hk ▸ rfl)
      obtain ⟨hnext, hlive⟩ := hlist.resolve_left fun hno => hno k t prev ptr rfl
      refine ⟨(update_of_ne hk ..).trans hmode, ?_⟩
      rwa [hnext, hlive]
  | free k =>
      show (update mode n m k).Off
      rcases eq_or_ne k n with rfl | hk
      · rw [update_self]
        exact hoff rfl
      · rw [update_of_ne hk]
        exact h
  | idle | exitLock | walk | walkNext | gone | loadInactive | unsubscribeLock | unsubscribe =>
      trivial

omit [DecidableEq ι] in
/-- Thread `j` goes on while a listener changes its stage, which neither begins nor
ends the duty to run its callback. -/
theorem Thread.step {pc' : PC ι ν} (h : Thread s mode live j pc) (hexit : pc'.exiting = pc.exiting)
    (hok : pc'.Ok s' (update mode n m) live' j)
    (hdestroys : ∀ k, pc'.destroys = some k → s'.doomed k = true)
    (hlist : IsList s'.next (pc'.cursor s' j) (live' j))
    (hcalled : s'.called j = s.called j) (hatExit : s'.atExit j = s.atExit j)
    (hpending : m.Pending j ↔ (mode n).Pending j) :
    Thread s' (update mode n m) live' j pc' := by
  have hsame : ∀ k, (update mode n m k).Pending j ↔ (mode k).Pending j := by
    intro k
    rcases eq_or_ne k n with rfl | hk
    · rw [update_self]
      exact hpending
    · rw [update_of_ne hk]
  refine ⟨hok, hdestroys, hlist, ?_, ?_, ?_⟩
  · intro k hx hk
    rw [hatExit]
    exact h.atExit k (hexit ▸ hx) ((hsame k).mp hk)
  · intro k hx hk hno
    rw [hatExit] at hk
    rw [hcalled]
    exact h.called_eq_one k (hexit ▸ hx) hk (mt (hsame k).mpr hno)
  · intro k hk
    rw [hexit, hatExit, hsame] at hk
    rw [hcalled]
    exact h.called_eq_zero k hk

omit [DecidableEq ι] in
theorem Thread.change (h : Thread s mode live j pc)
    (hok : pc.Ok s' (update mode n m) live' j)
    (hlist : IsList s'.next (pc.cursor s' j) (live' j))
    (hdoomed : ∀ k, s.doomed k = true → s'.doomed k = true)
    (hcalled : s'.called j = s.called j) (hatExit : s'.atExit j = s.atExit j)
    (hpending : m.Pending j ↔ (mode n).Pending j) :
    Thread s' (update mode n m) live' j pc :=
  h.step rfl hok (fun k hk => hdoomed k (h.destroys k hk)) hlist hcalled hatExit hpending

omit [DecidableEq ι] [DecidableEq ν] in
/-- The mutex and other threads' exits do not matter to a thread. -/
theorem Thread.congr (h : Thread s mode live j pc) (x : Option ι) {a : ι → ν → Bool}
    (ha : a j = s.atExit j) : Thread { s with mutex := x, atExit := a } mode live j pc := by
  refine ⟨?_, h.destroys, ?_, ?_, ?_, ?_⟩
  · cases pc <;> exact h.ok
  · cases pc <;> exact h.list
  · intro k hexit hk
    exact (congrFun ha k).trans (h.atExit k hexit hk)
  · intro k hexit hk
    exact h.called_eq_one k hexit ((congrFun ha k).symm.trans hk)
  · intro k hk
    exact h.called_eq_zero k (hk.imp_right (Or.imp_left (congrFun ha k).symm.trans))

omit [DecidableEq ι] [DecidableEq ν] in
/-- A thread whose exit has not begun. -/
theorem Thread.of_not_exiting (hexit : pc.exiting = false) (hok : pc.Ok s mode live i)
    (hdestroys : ∀ n, pc.destroys = some n → s.doomed n = true)
    (hlist : IsList s.next (pc.cursor s i) (live i)) (hcalled : ∀ n, s.called i n = 0) :
    Thread s mode live i pc :=
  ⟨hok, hdestroys, hlist, fun _ h => absurd (h.symm.trans hexit) nofun,
    fun _ h => absurd (h.symm.trans hexit) nofun, fun n _ => hcalled n⟩

namespace Inv

omit [DecidableEq ν] in
theorem notified_update (h : Inv s locals mode live) (hi : ∀ k, locals i ≠ .walkCallback k) (k : ν)
    (t : ι) (hk : mode k = .notified t) : update locals i l t = .walkCallback k := by
  have ht := h.notified k t hk
  rcases eq_or_ne i t with rfl | hit
  · exact absurd ht (hi k)
  · rwa [update_of_ne hit.symm]

omit [DecidableEq ν] in
theorem unlinking_update (h : Inv s locals mode live)
    (hi : ∀ k t prev ptr, locals i = .unlink k t prev ptr → ∃ prev ptr, l = .unlink k t prev ptr)
    (k : ν) (t : ι) (hk : mode k = .unlinking t) :
    ∃ j prev ptr, update locals i l j = .unlink k t prev ptr := by
  obtain ⟨j, prev, ptr, hj⟩ := h.unlinking k t hk
  rcases eq_or_ne i j with rfl | hij
  · obtain ⟨prev', ptr', hl⟩ := hi k t prev ptr hj
    exact ⟨i, prev', ptr', by rw [update_self, hl]⟩
  · exact ⟨j, prev, ptr, by rwa [update_of_ne hij.symm]⟩

omit [DecidableEq ν] in
/-- A step that changes no listener: it takes or releases the mutex, or notes what is
on the list when an exit begins. -/
theorem move (h : Inv s locals mode live) {x : Option ι} {a : ι → ν → Bool}
    (hmutex : Guarded PC.critical (update locals i l) x)
    (ha : ∀ j, j ≠ i → a j = s.atExit j)
    (hself : Thread { s with mutex := x, atExit := a } mode live i l)
    (hnotified : ∀ k, locals i ≠ .walkCallback k)
    (hunlinking : ∀ k t prev ptr, locals i = .unlink k t prev ptr → ∃ prev ptr,
      l = .unlink k t prev ptr)
    (hnext : ∀ k, l ≠ .walkNext k) (hfree : ∀ k, l = .free k → ∀ t, locals t ≠ .walkNext k) :
    Inv { s with mutex := x, atExit := a } (update locals i l) mode live := by
  refine ⟨hmutex, h.created, h.inactive, h.chain, h.inUse, h.doomed, h.freed, h.mem, ?_,
    h.notified_update hnotified, h.unlinking_update hunlinking, ?_⟩
  · intro j
    rcases eq_or_ne i j with rfl | hij
    · rw [update_self]
      exact hself
    · rw [update_of_ne hij.symm]
      exact (h.threads j).congr x (ha j hij.symm)
  · intro t k ht
    rcases eq_or_ne i t with rfl | hit
    · rw [update_self] at ht
      exact absurd ht (hnext k)
    · rw [update_of_ne hit.symm] at ht
      obtain ⟨hfreed, hnone⟩ := h.apart t k ht
      refine ⟨hfreed, fun j => ?_⟩
      rcases eq_or_ne i j with rfl | hij
      · rw [update_self]
        exact fun hl => hfree k hl t ht
      · rw [update_of_ne hij.symm]
        exact hnone j

/-- A step that takes listener `n` to stage `m`. -/
theorem change (h : Inv s locals mode live)
    (hmutex : Guarded PC.critical (update locals i l) s'.mutex)
    (hcreated : ∀ k, s'.created k = (update mode n m k).created)
    (hinactive : ∀ k, s'.inactive k = (update mode n m k).isInactive)
    (hchain : ∀ k, s'.chain k = (update mode n m k).chain)
    (hinUse : ∀ k, s'.inUse k = (update mode n m k).inUse)
    (hdoomed : s'.doomed = s.doomed) (hfreed : s'.freed = s.freed)
    (hdoom : s.doomed n = true → m.created = true ∧ m.inUse = false ∧ ((mode n).Off → m.Off))
    (hmem : ∀ t k, k ∈ live' t ↔ update mode n m k = .subscribed t ∨
      update mode n m k = .unlinking t)
    (hself : Thread s' (update mode n m) live' i l)
    (hothers : ∀ j, j ≠ i → Thread s' (update mode n m) live' j (locals j))
    (hwas : ∀ k, (locals i = .walkCallback k ∨ ∃ t prev ptr, locals i = .unlink k t prev ptr) →
      k = n)
    (hnotified : ∀ t, m = .notified t → t = i ∧ l = .walkCallback n)
    (hunlinking : ∀ t, m = .unlinking t → ∃ prev ptr, l = .unlink n t prev ptr)
    (hnext : ∀ k, l = .walkNext k → s.freed k = false ∧ ∀ j, locals j ≠ .free k)
    (hfree : ∀ k, l = .free k → ∀ t, t ≠ i → locals t ≠ .walkNext k) :
    Inv s' (update locals i l) (update mode n m) live' := by
  refine ⟨hmutex, hcreated, hinactive, hchain, hinUse, ?_, ?_, hmem, ?_, ?_, ?_, ?_⟩
  · intro k hk
    rw [hdoomed] at hk
    rcases eq_or_ne k n with rfl | hkn
    · rw [update_self]
      exact ⟨(hdoom hk).1, (hdoom hk).2.1⟩
    · rw [update_of_ne hkn]
      exact h.doomed k hk
  · intro k hk
    rw [hfreed] at hk
    obtain ⟨hd, hoff⟩ := h.freed k hk
    refine ⟨hdoomed ▸ hd, ?_⟩
    rcases eq_or_ne k n with rfl | hkn
    · rw [update_self]
      exact (hdoom hd).2.2 hoff
    · rwa [update_of_ne hkn]
  · intro j
    rcases eq_or_ne i j with rfl | hij
    · rw [update_self]
      exact hself
    · rw [update_of_ne hij.symm]
      exact hothers j hij.symm
  · intro k t hk
    rcases eq_or_ne k n with rfl | hkn
    · rw [update_self] at hk
      obtain ⟨rfl, hl⟩ := hnotified t hk
      rw [update_self, hl]
    · rw [update_of_ne hkn] at hk
      have ht := h.notified k t hk
      have hti : t ≠ i := fun hti => hkn (hwas k (.inl (hti ▸ ht)))
      rwa [update_of_ne hti]
  · intro k t hk
    rcases eq_or_ne k n with rfl | hkn
    · rw [update_self] at hk
      obtain ⟨prev, ptr, hl⟩ := hunlinking t hk
      exact ⟨i, prev, ptr, by rw [update_self, hl]⟩
    · rw [update_of_ne hkn] at hk
      obtain ⟨j, prev, ptr, hj⟩ := h.unlinking k t hk
      have hji : j ≠ i := fun hji => hkn (hwas k (.inr ⟨t, prev, ptr, hji ▸ hj⟩))
      exact ⟨j, prev, ptr, by rwa [update_of_ne hji]⟩
  · intro t k ht
    rw [hfreed]
    rcases eq_or_ne i t with rfl | hit
    · rw [update_self] at ht
      obtain ⟨hf, hnone⟩ := hnext k ht
      refine ⟨hf, fun j => ?_⟩
      rcases eq_or_ne i j with rfl | hij
      · rw [update_self, ht]
        exact nofun
      · rw [update_of_ne hij.symm]
        exact hnone j
    · rw [update_of_ne hit.symm] at ht
      obtain ⟨hf, hnone⟩ := h.apart t k ht
      refine ⟨hf, fun j => ?_⟩
      rcases eq_or_ne i j with rfl | hij
      · rw [update_self]
        exact fun hl => hfree k hl t hit.symm ht
      · rw [update_of_ne hij.symm]
        exact hnone j

omit [DecidableEq ι] [DecidableEq ν] in
/-- The thread that has the mutex is the only one in a critical section. -/
theorem not_critical (h : Inv s locals mode live) (hi : (locals i).critical = true) (hj : j ≠ i) :
    (locals j).critical = false :=
  Bool.eq_false_iff.mpr fun hc => hj (h.mutex.unique hc hi)

omit [DecidableEq ι] [DecidableEq ν] in
theorem called_eq_zero (h : Inv s locals mode live) (hi : (locals i).exiting = false) (k : ν) :
    s.called i k = 0 := (h.threads i).called_eq_zero k (.inl hi)

theorem acquire (h : Inv s locals mode live) (hi : locals i = .idle) (hdoomed : s.doomed n = false)
    (hmode : mode n = .fresh ∨ mode n = .inactive) :
    Inv (s.acquire n) (update locals i (.subscribeLock n))
      (update mode n (.acquired i)) live := by
  have hfree : ∀ j, locals j ≠ .free n := by
    intro j hj
    have := (h.threads j).destroys n (by rw [hj]; rfl)
    rw [hdoomed] at this
    cases this
  refine h.change (n := n) (m := .acquired i) (h.mutex.keep (by rw [hi]; rfl))
    (field_update h.created rfl) (field_update h.inactive rfl)
    (field_keep h.chain (by rcases hmode with hm | hm <;> rw [hm] <;> rfl))
    (field_update h.inUse rfl) rfl rfl (fun hd => absurd (hdoomed.symm.trans hd) nofun) ?_
    (.of_not_exiting rfl (update_self ..) nofun ?_ ?_) ?_
    (by rw [hi]; rintro k (h | ⟨_, _, _, h⟩) <;> cases h) nofun nofun nofun nofun
  · intro t k
    rw [h.mem]
    rcases eq_or_ne k n with rfl | hk
    · rw [update_self]
      rcases hmode with hm | hm <;> rw [hm] <;> simp
    · rw [update_of_ne hk]
  · have := (h.threads i).list
    rwa [hi] at this
  · exact h.called_eq_zero (by rw [hi]; rfl)
  · intro j hj
    refine (h.threads j).change ((h.threads j).ok.change ?_ ?_ ?_ (fun hpc => absurd hpc (hfree j))
      (.inr ⟨rfl, rfl⟩)) ?_ (fun _ hk => hk) rfl rfl ?_
    · rcases hmode with hm | hm <;> rw [hm] <;> exact nofun
    · rcases hmode with hm | hm <;> rw [hm] <;> exact nofun
    · rcases hmode with hm | hm <;> rw [hm] <;> exact nofun
    · have := (h.threads j).list
      cases hpc : locals j <;> rw [hpc] at this <;> exact this
    · rcases hmode with hm | hm <;> rw [hm] <;> simp [Mode.Pending]

theorem subscribe (h : Inv s locals mode live) (hi : locals i = .subscribe n) :
    Inv (s.subscribe i n) (update locals i .idle)
      (update mode n (.subscribed i)) (update live i (n :: live i)) := by
  have hcrit : (locals i).critical = true := by rw [hi]; rfl
  have hmode : mode n = .acquired i := by
    have := (h.threads i).ok
    rwa [hi] at this
  have hout : ∀ t, n ∉ live t := by
    intro t hmem
    rw [h.mem, hmode] at hmem
    rcases hmem with hm | hm <;> cases hm
  refine h.change (n := n) (m := .subscribed i) (h.mutex.unlock hcrit rfl)
    (field_keep h.created (by rw [hmode]; rfl)) (field_keep h.inactive (by rw [hmode]; rfl))
    (field_update h.chain rfl) (field_update h.inUse rfl) rfl rfl ?_ ?_
    (.of_not_exiting rfl trivial nofun ?_ ?_) ?_
    (by rw [hi]; rintro k (h | ⟨_, _, _, h⟩) <;> cases h)
    nofun nofun nofun nofun
  · intro hd
    have := (h.doomed n hd).2
    rw [hmode] at this
    cases this
  · intro t k
    rcases eq_or_ne k n with rfl | hk
    · rw [update_self]
      rcases eq_or_ne i t with rfl | hit
      · simp
      · rw [update_of_ne hit.symm]
        simp [hout t, hit]
    · rw [update_of_ne hk, ← h.mem]
      rcases eq_or_ne i t with rfl | hit
      · simp [hk]
      · rw [update_of_ne hit.symm]
  · -- the new listener comes first
    have hlist : IsList s.next (s.tail i) (live i) := by
      have := (h.threads i).list
      rwa [hi] at this
    show IsList (update s.next n (s.tail i)) (update s.tail i (some n) i) _
    rw [update_self, update_self, isList_cons, update_self]
    exact ⟨rfl, hlist.update (hout i) _⟩
  · exact h.called_eq_zero (by rw [hi]; rfl)
  · intro j hj
    have hnc := h.not_critical hcrit hj
    refine (h.threads j).change ((h.threads j).ok.change ?_ ?_ ?_ ?_ (.inl ?_)) ?_ (fun _ hk => hk)
      rfl rfl ?_
    · rw [hmode]
      exact fun heq => hj (Mode.acquired.inj heq).symm
    · rw [hmode]
      exact nofun
    · rw [hmode]
      exact nofun
    · intro hpc
      have := (h.threads j).ok
      rw [hpc] at this
      rcases this with hm | hm <;> rw [hmode] at hm <;> cases hm
    · rintro k t prev ptr hpc
      rw [hpc] at hnc
      cases hnc
    · rw [update_of_ne hj]
      have hlist := (h.threads j).list.update (hout j) (s.tail i)
      cases hpc : locals j <;> rw [hpc] at hlist hnc
      case walk | walkCallback | walkNext | subscribe | unsubscribe | unlink => cases hnc
      case gone => exact hlist
      all_goals
        simp only [PC.cursor] at hlist ⊢
        simpa only [State.subscribe, update_of_ne hj] using hlist
    · rw [hmode]
      simp [Mode.Pending, hj.symm]

theorem notify (h : Inv s locals mode live) (hi : locals i = .walk (some n)) :
    ∃ live', Inv (s.clearChain n) (update locals i (.walkCallback n))
      (update mode n (.notified i)) live' := by
  have hcrit : (locals i).critical = true := by rw [hi]; rfl
  have hlist : IsList s.next (some n) (live i) := by
    have := (h.threads i).list
    rwa [hi] at this
  obtain ⟨rest, hlive⟩ : ∃ rest, live i = n :: rest := by
    cases hl : live i with
    | nil =>
        rw [hl] at hlist
        simp at hlist
    | cons k rest =>
        rw [hl, isList_cons] at hlist
        exact ⟨rest, by rw [Option.some.inj hlist.1]⟩
  have hmode : mode n = .subscribed i := by
    rcases (h.mem i n).mp (by rw [hlive]; exact List.mem_cons_self) with hm | hm
    · exact hm
    · -- nobody else unlinks while this thread has the mutex
      obtain ⟨j, prev, ptr, hj⟩ := h.unlinking n i hm
      have hji : j = i := h.mutex.unique (by rw [hj]; rfl) hcrit
      rw [hji, hi] at hj
      cases hj
  have hnodup := hlist.nodup
  rw [hlive] at hlist hnodup
  refine ⟨update live i rest, h.change (n := n) (m := .notified i) (h.mutex.keep
    (by rw [hi]; rfl)) (field_keep h.created (by rw [hmode]; rfl))
    (field_keep h.inactive (by rw [hmode]; rfl)) (field_update h.chain rfl)
    (field_keep h.inUse (by rw [hmode]; rfl)) rfl rfl ?_ ?_ ?_ ?_
    (by rw [hi]; rintro k (h | ⟨_, _, _, h⟩) <;> cases h) ?_ nofun nofun nofun⟩
  · intro _
    refine ⟨rfl, rfl, ?_⟩
    rw [hmode]
    rintro (hm | hm) <;> cases hm
  · intro t k
    rcases eq_or_ne k n with rfl | hk
    · rw [update_self]
      rcases eq_or_ne i t with rfl | hit
      · simp [(List.nodup_cons.mp hnodup).1]
      · rw [update_of_ne hit.symm, h.mem, hmode]
        simp [hit]
    · rw [update_of_ne hk, ← h.mem]
      rcases eq_or_ne i t with rfl | hit
      · rw [update_self, hlive]
        simp [hk]
      · rw [update_of_ne hit.symm]
  · refine (h.threads i).step (by rw [hi]; rfl) (update_self ..) nofun ?_ rfl rfl ?_
    · rw [update_self]
      exact (isList_cons.mp hlist).2
    · rw [hmode]
      simp [Mode.Pending]
  · intro j hj
    have hnc := h.not_critical hcrit hj
    refine (h.threads j).change ((h.threads j).ok.change ?_ ?_ ?_ ?_ (.inl ?_)) ?_ (fun _ hk => hk)
      rfl rfl ?_
    · rw [hmode]
      exact nofun
    · rw [hmode]
      exact nofun
    · rw [hmode]
      exact nofun
    · intro hpc
      have := (h.threads j).ok
      rw [hpc] at this
      rcases this with hm | hm <;> rw [hmode] at hm <;> cases hm
    · rintro k t prev ptr hpc
      rw [hpc] at hnc
      cases hnc
    · rw [update_of_ne hj]
      have := (h.threads j).list
      cases hpc : locals j <;> rw [hpc] at this <;> exact this
    · rw [hmode]
      simp [Mode.Pending, hj.symm]
  · rintro t ht
    obtain rfl := Mode.notified.inj ht
    exact ⟨rfl, rfl⟩

theorem callback (h : Inv s locals mode live) (hi : locals i = .walkCallback n) :
    Inv (s.callback i n) (update locals i (.walkNext n))
      (update mode n .inactive) live := by
  have hmode : mode n = .notified i := by
    have := (h.threads i).ok
    rwa [hi] at this
  have hexit : (locals i).exiting = true := by rw [hi]; rfl
  have hpending : (mode n).Pending i := .inr hmode
  refine h.change (n := n) (m := .inactive) (h.mutex.keep (by rw [hi]; rfl))
    (field_keep h.created (by rw [hmode]; rfl)) (field_update h.inactive rfl)
    (field_keep h.chain (by rw [hmode]; rfl)) (field_keep h.inUse (by rw [hmode]; rfl)) rfl rfl
    (fun _ => ⟨rfl, rfl, fun _ => .inl rfl⟩) ?_ ⟨trivial, nofun, ?_, ?_, ?_, ?_⟩ ?_ ?_ nofun nofun
    ?_ nofun
  · intro t k
    rw [h.mem]
    rcases eq_or_ne k n with rfl | hk
    · rw [update_self, hmode]
      simp
    · rw [update_of_ne hk]
  · have := (h.threads i).list
    rwa [hi] at this
  · intro k _ hk
    rcases eq_or_ne k n with rfl | hkn
    · exact (h.threads i).atExit k hexit hpending
    · rw [update_of_ne hkn] at hk
      exact (h.threads i).atExit k hexit hk
  · intro k _ hk hno
    show update s.called i (update (s.called i) n (s.called i n + 1)) i k = 1
    rw [update_self]
    rcases eq_or_ne k n with rfl | hkn
    · rw [update_self, (h.threads i).called_eq_zero k (.inr (.inr hpending))]
    · rw [update_of_ne hkn] at hno
      rw [update_of_ne hkn]
      exact (h.threads i).called_eq_one k hexit hk hno
  · intro k hk
    show update s.called i (update (s.called i) n (s.called i n + 1)) i k = 0
    rw [update_self]
    rcases eq_or_ne k n with rfl | hkn
    · rw [update_self] at hk
      have hat := (h.threads i).atExit k hexit hpending
      rcases hk with hk | hk | hk
      · cases hk
      · exact absurd (hat.symm.trans hk) nofun
      · rcases hk with hk | hk <;> cases hk
    · rw [update_of_ne hkn] at hk ⊢
      exact (h.threads i).called_eq_zero k (hk.imp_left nofun)
  · intro j hj
    refine (h.threads j).change ((h.threads j).ok.change ?_ ?_ ?_ (fun _ => .inl rfl)
      (.inr ⟨rfl, rfl⟩)) ?_ (fun _ hk => hk) (update_of_ne hj ..) rfl ?_
    · rw [hmode]
      exact nofun
    · rw [hmode]
      exact fun heq => hj (Mode.notified.inj heq).symm
    · rw [hmode]
      exact nofun
    · have := (h.threads j).list
      cases hpc : locals j <;> rw [hpc] at this <;> exact this
    · rw [hmode]
      simp [Mode.Pending, hj.symm]
  · rw [hi]
    rintro k (hk | ⟨_, _, _, hk⟩)
    · exact (PC.walkCallback.inj hk).symm
    · cases hk
  · intro k hk
    obtain rfl := PC.walkNext.inj hk
    have hon : ¬ (mode n).Off := by
      rw [hmode]
      rintro (hm | hm) <;> cases hm
    refine ⟨Bool.eq_false_iff.mpr fun hf => hon (h.freed n hf).2, fun j hj => hon ?_⟩
    have := (h.threads j).ok
    rwa [hj] at this

omit [DecidableEq ι] [DecidableEq ν] in
/-- A thread with a subscriber that is not in a critical section has not begun its
exit. -/
theorem cursor_of_subscribed (h : Inv s locals mode live) {t : ι} (hmem : n ∈ live t)
    (hcrit : (locals t).exiting = true → (locals t).critical = false) :
    (locals t).exiting = false ∧ (locals t).cursor s t = s.tail t := by
  have hlist := (h.threads t).list
  cases hpc : locals t <;> rw [hpc] at hlist hcrit
  case walk | walkCallback | walkNext => exact absurd (hcrit rfl) nofun
  case gone =>
    cases hl : live t with
    | nil => simp [hl] at hmem
    | cons k rest => simp [hl, PC.cursor] at hlist
  all_goals exact ⟨rfl, rfl⟩

theorem unsubscribe (h : Inv s locals mode live) (hi : locals i = .unsubscribe n) {t : ι}
    (hchain : s.chain n = some t) :
    Inv (s.clearChain n) (update locals i (.unlink n t none (s.tail t)))
      (update mode n (.unlinking t)) live := by
  have hcrit : (locals i).critical = true := by rw [hi]; rfl
  have hmode : mode n = .subscribed t := Mode.chain_eq_some ((h.chain n).symm.trans hchain)
  have hmem : n ∈ live t := (h.mem t n).mpr (.inl hmode)
  have hdoomed : s.doomed n = true := (h.threads i).destroys n (by rw [hi]; rfl)
  obtain ⟨hexit, hcursor⟩ := h.cursor_of_subscribed hmem fun hexit => by
    rcases eq_or_ne i t with rfl | hit
    · rw [hi] at hexit
      cases hexit
    · exact h.not_critical hcrit hit.symm
  refine h.change (n := n) (m := .unlinking t) (h.mutex.keep (by rw [hi]; rfl))
    (field_keep h.created (by rw [hmode]; rfl)) (field_keep h.inactive (by rw [hmode]; rfl))
    (field_update h.chain rfl) (field_keep h.inUse (by rw [hmode]; rfl)) rfl rfl ?_ ?_
    (.of_not_exiting rfl ⟨update_self .., [], live t, rfl, rfl, hmem, ?_⟩ ?_ ?_ ?_) ?_
    (by rw [hi]; rintro k (h | ⟨_, _, _, h⟩) <;> cases h) nofun ?_ nofun nofun
  · intro _
    refine ⟨rfl, rfl, ?_⟩
    rw [hmode]
    rintro (hm | hm) <;> cases hm
  · intro t' k
    rw [h.mem]
    rcases eq_or_ne k n with rfl | hk
    · rw [update_self, hmode]
      simp
    · rw [update_of_ne hk]
  · exact hcursor ▸ (h.threads t).list
  · rintro k hk
    obtain rfl := Option.some.inj hk
    exact hdoomed
  · have := (h.threads i).list
    rwa [hi] at this
  · exact h.called_eq_zero (by rw [hi]; rfl)
  · intro j hj
    have hnc := h.not_critical hcrit hj
    have hok : (locals j).Ok (s.clearChain n) (update mode n (.unlinking t)) live j := by
      refine (h.threads j).ok.change ?_ ?_ ?_ ?_ (.inl ?_)
      · rw [hmode]
        exact nofun
      · rw [hmode]
        exact nofun
      · rw [hmode]
        exact nofun
      · intro hpc
        have := (h.threads j).ok
        rw [hpc] at this
        rcases this with hm | hm <;> rw [hmode] at hm <;> cases hm
      · rintro k t' prev ptr hpc
        rw [hpc] at hnc
        cases hnc
    have hlist : IsList (s.clearChain n).next ((locals j).cursor (s.clearChain n) j) (live j) := by
      have := (h.threads j).list
      cases hpc : locals j <;> rw [hpc] at this <;> exact this
    -- only thread `t` would have had to run the callback, and its exit has not begun
    rcases eq_or_ne j t with rfl | hjt
    · exact .of_not_exiting hexit hok (h.threads j).destroys hlist (h.called_eq_zero hexit)
    · refine (h.threads j).change hok hlist (fun _ hk => hk) rfl rfl ?_
      rw [hmode]
      simp [Mode.Pending, hjt.symm]
  · rintro t' ht
    obtain rfl := Mode.unlinking.inj ht
    exact ⟨none, _, rfl⟩

theorem unlink_lists {t : ι} {prev : Option ν} {front rest : List ν}
    (h : IsList s.next (s.tail t) (front ++ n :: rest)) (hprev : prev = front.getLast?) :
    IsList (s.unlink t prev n).next ((s.unlink t prev n).tail t) (front ++ rest) ∧
      ∀ x l, IsList s.next x l → (∀ k ∈ front, k ∉ l) → IsList (s.unlink t prev n).next x l := by
  cases prev with
  | none =>
      obtain rfl : front = [] := List.getLast?_eq_none_iff.mp hprev.symm
      refine ⟨?_, fun _ _ hl _ => hl⟩
      show IsList s.next (update s.tail t (s.next n) t) rest
      rw [update_self]
      exact (isList_cons.mp h).2
  | some k =>
      obtain ⟨front, rfl⟩ := List.getLast?_eq_some_iff.mp hprev.symm
      refine ⟨?_, fun x l hl hk => hl.update (hk k (by simp)) _⟩
      rw [List.append_assoc] at h ⊢
      exact h.remove

/-- The listener is found and taken off the list. -/
theorem unlink (h : Inv s locals mode live) {t : ι} {prev : Option ν}
    (hi : locals i = .unlink n t prev (some n)) :
    ∃ live', Inv (s.unlink t prev n) (update locals i (.free n))
      (update mode n .detached) live' := by
  have hcrit : (locals i).critical = true := by rw [hi]; rfl
  have hexit : (locals i).exiting = false := by rw [hi]; rfl
  obtain ⟨hmode, front, back, hlive, hprev, -, hback⟩ :
      (PC.unlink n t prev (some n)).Ok s mode live i := hi ▸ (h.threads i).ok
  obtain ⟨rest, rfl⟩ : ∃ rest, back = n :: rest := by
    cases back with
    | nil => simp at hback
    | cons k rest =>
        rw [isList_cons] at hback
        exact ⟨rest, by rw [Option.some.inj hback.1]⟩
  have hmem : n ∈ live t := (h.mem t n).mpr (.inr hmode)
  obtain ⟨hexit', hcursor⟩ := h.cursor_of_subscribed hmem fun hexit => by
    rcases eq_or_ne i t with rfl | hit
    · rw [hi] at hexit
      cases hexit
    · exact h.not_critical hcrit hit.symm
  have hwhole : IsList s.next (s.tail t) (front ++ n :: rest) := by
    rw [← hlive, ← hcursor]
    exact (h.threads t).list
  have hnodup : (front ++ n :: rest).Nodup := hwhole.nodup
  have hgone : n ∉ front ++ rest := by
    intro hmem
    have hperm : (front ++ n :: rest).Perm (n :: (front ++ rest)) := List.perm_middle
    exact (List.nodup_cons.mp (hperm.nodup_iff.mp hnodup)).1 hmem
  obtain ⟨hnew, hold⟩ := unlink_lists hwhole hprev
  have hother : ∀ j, j ≠ t → (s.unlink t prev n).tail j = s.tail j ∧
      ∀ x, IsList s.next x (live j) → IsList (s.unlink t prev n).next x (live j) := by
    intro j hj
    refine ⟨by cases prev <;> simp [State.unlink, hj], fun x hx => hold x _ hx ?_⟩
    intro k hk hk'
    have hkt := (h.mem t k).mp (by rw [hlive]; exact List.mem_append_left _ hk)
    rcases (h.mem j k).mp hk' with hm | hm <;> rw [hm] at hkt <;> simp [hj] at hkt
  refine ⟨update live t (front ++ rest), h.change (n := n) (m := .detached) ?_ ?_ ?_ ?_ ?_
    ?_ ?_ (fun _ => ⟨rfl, rfl, fun _ => .inr rfl⟩) ?_ (.of_not_exiting rfl ?_ ?_ ?_ ?_) ?_ ?_
    nofun nofun nofun ?_⟩
  · rw [show (s.unlink t prev n).mutex = none by cases prev <;> rfl]
    exact h.mutex.unlock hcrit rfl
  · rw [show (s.unlink t prev n).created = s.created by cases prev <;> rfl]
    exact field_keep h.created (by rw [hmode]; rfl)
  · rw [show (s.unlink t prev n).inactive = s.inactive by cases prev <;> rfl]
    exact field_keep h.inactive (by rw [hmode]; rfl)
  · rw [show (s.unlink t prev n).chain = s.chain by cases prev <;> rfl]
    exact field_keep h.chain (by rw [hmode]; rfl)
  · rw [show (s.unlink t prev n).inUse = s.inUse by cases prev <;> rfl]
    exact field_keep h.inUse (by rw [hmode]; rfl)
  · cases prev <;> rfl
  · cases prev <;> rfl
  · intro t' k
    rcases eq_or_ne k n with rfl | hk
    · rw [update_self]
      rcases eq_or_ne t t' with rfl | htt
      · simpa using hgone
      · rw [update_of_ne htt.symm, h.mem, hmode]
        simp [htt]
    · rw [update_of_ne hk, ← h.mem]
      rcases eq_or_ne t t' with rfl | htt
      · rw [update_self, hlive]
        simp [hk]
      · rw [update_of_ne htt.symm]
  · show (update mode n .detached n).Off
    rw [update_self]
    exact .inr rfl
  · rintro k hk
    obtain rfl := Option.some.inj hk
    have := (h.threads i).destroys n (by rw [hi]; rfl)
    cases prev <;> exact this
  · have hlist : IsList s.next (s.tail i) (live i) := by
      have := (h.threads i).list
      rwa [hi] at this
    show IsList _ ((s.unlink t prev n).tail i) _
    rcases eq_or_ne i t with rfl | hit
    · rw [update_self]
      exact hnew
    · rw [update_of_ne hit, (hother i hit).1]
      exact (hother i hit).2 _ hlist
  · intro k
    rw [show (s.unlink t prev n).called = s.called by cases prev <;> rfl]
    exact h.called_eq_zero hexit k
  · intro j hj
    have hnc := h.not_critical hcrit hj
    have hlist : IsList (s.unlink t prev n).next ((locals j).cursor (s.unlink t prev n) j)
        (update live t (front ++ rest) j) := by
      have hlist := (h.threads j).list
      rcases eq_or_ne j t with rfl | hjt
      · rw [update_self]
        cases hpc : locals j <;> rw [hpc] at hnc hexit'
        case walk | walkCallback | walkNext | subscribe | unsubscribe | unlink => cases hnc
        case gone => cases hexit'
        all_goals exact hnew
      · rw [update_of_ne hjt]
        cases hpc : locals j <;> rw [hpc] at hnc hlist
        case walk | walkCallback | walkNext | subscribe | unsubscribe | unlink => cases hnc
        case gone => exact (hother j hjt).2 _ hlist
        all_goals
          simp only [PC.cursor] at hlist ⊢
          rw [(hother j hjt).1]
          exact (hother j hjt).2 _ hlist
    refine (h.threads j).change ((h.threads j).ok.change ?_ ?_ ?_
      (fun _ => .inr rfl) (.inl ?_)) hlist
      ?_ (by cases prev <;> rfl) (by cases prev <;> rfl) ?_
    · rw [hmode]
      exact nofun
    · rw [hmode]
      exact nofun
    · rintro t' - prev' ptr hpc
      rw [hpc] at hnc
      cases hnc
    · rintro k t' prev' ptr hpc
      rw [hpc] at hnc
      cases hnc
    · intro k hk
      cases prev <;> exact hk
    · rw [hmode]
      simp [Mode.Pending]
  · rw [hi]
    rintro k (hk | ⟨_, _, _, hk⟩)
    · cases hk
    · exact (PC.unlink.inj hk).1.symm
  · rintro k - t' ht' hpc
    have hnc := h.not_critical hcrit ht'
    rw [hpc] at hnc
    cases hnc

/-- The destruction of a producer's queue begins. -/
theorem doom (h : Inv s locals mode live) (hi : locals i = .idle) (hcreated : s.created n = true)
    (hinUse : s.inUse n = false) :
    Inv { s with doomed := update s.doomed n true }
      (update locals i (.loadInactive n)) mode live := by
  have hmono : ∀ k, s.doomed k = true → update s.doomed n true k = true := by
    intro k hk
    rcases eq_or_ne k n with rfl | hkn
    · exact update_self ..
    · rwa [update_of_ne hkn]
  refine ⟨h.mutex.keep (by rw [hi]; rfl), h.created, h.inactive, h.chain, h.inUse, ?_,
    fun k hk => ⟨hmono k (h.freed k hk).1, (h.freed k hk).2⟩, h.mem, ?_, ?_, ?_, ?_⟩
  · intro k hk
    rcases eq_or_ne k n with rfl | hkn
    · exact ⟨(h.created k).symm.trans hcreated, (h.inUse k).symm.trans hinUse⟩
    · exact h.doomed k ((update_of_ne hkn ..).symm.trans hk)
  · intro j
    rcases eq_or_ne i j with rfl | hij
    · rw [update_self]
      refine .of_not_exiting rfl trivial ?_ ?_ (h.called_eq_zero (by rw [hi]; rfl))
      · rintro k hk
        obtain rfl := Option.some.inj hk
        exact update_self ..
      · have := (h.threads i).list
        rwa [hi] at this
    · rw [update_of_ne hij.symm]
      obtain ⟨hok, hdestroys, hlist, hat, hone, hzero⟩ := h.threads j
      exact ⟨by cases hpc : locals j <;> rw [hpc] at hok <;> exact hok,
        fun k hk => hmono k (hdestroys k hk),
        by cases hpc : locals j <;> rw [hpc] at hlist <;> exact hlist, hat, hone, hzero⟩
  · exact h.notified_update (by rw [hi]; exact nofun)
  · exact h.unlinking_update (by rw [hi]; exact nofun)
  · intro t k ht
    rcases eq_or_ne i t with rfl | hit
    · rw [update_self] at ht
      cases ht
    · rw [update_of_ne hit.symm] at ht
      refine ⟨(h.apart t k ht).1, fun j => ?_⟩
      rcases eq_or_ne i j with rfl | hij
      · rw [update_self]
        exact nofun
      · rw [update_of_ne hij.symm]
        exact (h.apart t k ht).2 j

/-- A producer is freed; no exit stands at its listener. -/
theorem free (h : Inv s locals mode live) (hi : locals i = .free n) :
    Inv { s with freed := update s.freed n true } (update locals i .idle)
      mode live := by
  have hoff : (mode n).Off := by
    have := (h.threads i).ok
    rwa [hi] at this
  refine ⟨h.mutex.keep (by rw [hi]; rfl), h.created, h.inactive, h.chain, h.inUse, h.doomed, ?_,
    h.mem, ?_, ?_, ?_, ?_⟩
  · intro k hk
    rcases eq_or_ne k n with rfl | hkn
    · exact ⟨(h.threads i).destroys k (by rw [hi]; rfl), hoff⟩
    · exact h.freed k ((update_of_ne hkn ..).symm.trans hk)
  · intro j
    rcases eq_or_ne i j with rfl | hij
    · rw [update_self]
      refine .of_not_exiting rfl trivial nofun ?_ (h.called_eq_zero (by rw [hi]; rfl))
      have := (h.threads i).list
      rwa [hi] at this
    · rw [update_of_ne hij.symm]
      obtain ⟨hok, hdestroys, hlist, hat, hone, hzero⟩ := h.threads j
      exact ⟨by cases hpc : locals j <;> rw [hpc] at hok <;> exact hok, hdestroys,
        by cases hpc : locals j <;> rw [hpc] at hlist <;> exact hlist, hat, hone, hzero⟩
  · exact h.notified_update (by rw [hi]; exact nofun)
  · exact h.unlinking_update (by rw [hi]; exact nofun)
  · intro t k ht
    rcases eq_or_ne i t with rfl | hit
    · rw [update_self] at ht
      cases ht
    · rw [update_of_ne hit.symm] at ht
      obtain ⟨hfreed, hnone⟩ := h.apart t k ht
      have hkn : k ≠ n := fun hkn => hnone i (hkn ▸ hi)
      refine ⟨(update_of_ne hkn ..).trans hfreed, fun j => ?_⟩
      rcases eq_or_ne i j with rfl | hij
      · rw [update_self]
        exact nofun
      · rw [update_of_ne hij.symm]
        exact hnone j

omit [DecidableEq ν] in
/-- A step of the control only, but for the mutex. -/
theorem go (h : Inv s locals mode live) (hi : locals i = pc) {x : Option ι}
    (hmutex : Guarded PC.critical (update locals i l) x)
    (hexit : l.exiting = pc.exiting) (hcursor : l.cursor s i = pc.cursor s i)
    (hnotified : ∀ k, pc ≠ .walkCallback k)
    (hunlinking : ∀ k t prev ptr, pc = .unlink k t prev ptr → ∃ prev ptr, l = .unlink k t prev ptr)
    (hnext : ∀ k, l ≠ .walkNext k) (hok : l.Ok s mode live i)
    (hdestroys : ∀ k, l.destroys = some k → s.doomed k = true)
    (hfree : ∀ k, l = .free k → ∀ t, locals t ≠ .walkNext k) :
    Inv { s with mutex := x } (update locals i l) mode live := by
  subst hi
  refine h.move (a := s.atExit) hmutex (fun _ _ => rfl) (Thread.congr ?_ x rfl) hnotified
    hunlinking hnext hfree
  have hself := h.threads i
  refine ⟨hok, hdestroys, hcursor ▸ hself.list, ?_, ?_, ?_⟩
  · intro k hx
    exact hself.atExit k (hexit ▸ hx)
  · intro k hx
    exact hself.called_eq_one k (hexit ▸ hx)
  · intro k hk
    exact hself.called_eq_zero k (hexit ▸ hk)

omit [DecidableEq ν] in
theorem beginExit (h : Inv s locals mode live) (hi : locals i = .exitLock)
    (hnone : s.mutex = none) :
    Inv (s.beginExit i) (update locals i (.walk (s.tail i))) mode live := by
  refine h.move (.lock (hnone ▸ h.mutex) rfl) (fun j hj => update_of_ne hj ..) ?_
    (by rw [hi]; exact nofun) (by rw [hi]; exact nofun) nofun nofun
  have hself := h.threads i
  rw [hi] at hself
  have hatExit : ∀ k, (s.beginExit i).atExit i k = true ↔ s.chain k = some i := by
    intro k
    simp [State.beginExit]
  refine ⟨trivial, nofun, hself.list, ?_, ?_, ?_⟩
  · intro k _ hk
    refine (hatExit k).mpr ?_
    rw [h.chain]
    rcases hk with hk | hk
    · rw [hk]
      rfl
    · -- no callback of this thread is running yet
      exact absurd (hi.symm.trans (h.notified k i hk)) nofun
  · intro k _ hk hno
    have hchain := (h.chain k).symm.trans ((hatExit k).mp hk)
    exact absurd (.inl (Mode.chain_eq_some hchain)) hno
  · intro k _
    exact hself.called_eq_zero k (.inl rfl)

omit [DecidableEq ι] [DecidableEq ν] in
/-- Under the mutex, a destructor that finds no `chain` is done. -/
theorem off_of_unsubscribe (h : Inv s locals mode live) (hi : locals i = .unsubscribe n)
    (hchain : s.chain n = none) : (mode n).Off := by
  have hcritical : (locals i).critical = true := by rw [hi]; rfl
  obtain ⟨hcreated, hinUse⟩ := h.doomed n ((h.threads i).destroys n (by rw [hi]; rfl))
  rw [h.chain] at hchain
  cases hm : mode n with
  | inactive => exact .inl rfl
  | detached => exact .inr rfl
  | notified t =>
      have ht := h.notified n t hm
      have hti : t = i := h.mutex.unique (by rw [ht]; rfl) hcritical
      rw [hti, hi] at ht
      cases ht
  | unlinking t =>
      obtain ⟨j, prev, ptr, hj⟩ := h.unlinking n t hm
      have hji : j = i := h.mutex.unique (by rw [hj]; rfl) hcritical
      rw [hji, hi] at hj
      cases hj
  | fresh => rw [hm] at hcreated; cases hcreated
  | acquired j => rw [hm] at hinUse; cases hinUse
  | subscribed t => rw [hm] at hchain; cases hchain

end Inv

/-- Every step, if no destructor reads `inactive` between a callback and the read of
the same listener's `next`. -/
theorem inv_step {a : Act ν} (hinv : ∃ mode live, Inv s locals mode live)
    (hapart : ∀ k, locals i = .loadInactive k → ∀ t, locals t ≠ .walkNext k)
    (hx : exec i a s (locals i) = some (s', l)) :
    ∃ mode live, Inv s' (update locals i l) mode live := by
  obtain ⟨mode, live, h⟩ := hinv
  have hself := h.threads i
  cases hi : locals i <;> rw [hi] at hx hself <;> cases a <;>
    try simp only [exec, Option.ite_none_right_eq_some, reduceCtorEq] at hx
  case idle.acquire n =>
    obtain ⟨⟨hdoomed, hn⟩, hx⟩ := hx
    cases hx
    refine ⟨_, _, h.acquire hi hdoomed ?_⟩
    rw [h.created, h.inactive] at hn
    cases hm : mode n <;> rw [hm] at hn <;> simp [Mode.created, Mode.isInactive] at hn ⊢
  case idle.exit =>
    cases hx
    exact ⟨mode, live, h.go hi (x := s.mutex) (h.mutex.keep (by rw [hi]; rfl)) rfl rfl nofun
      nofun nofun trivial nofun nofun⟩
  case idle.destroy n =>
    obtain ⟨⟨hcreated, -, hinUse⟩, hx⟩ := hx
    cases hx
    exact ⟨mode, live, h.doom hi hcreated hinUse⟩
  case subscribeLock.run n =>
    obtain ⟨hnone, hx⟩ := hx
    cases hx
    exact ⟨mode, live, h.go hi (.lock (hnone ▸ h.mutex) rfl) rfl rfl nofun nofun nofun
      hself.ok nofun nofun⟩
  case subscribe.run n =>
    cases hx
    exact ⟨_, _, h.subscribe hi⟩
  case exitLock.run =>
    obtain ⟨hnone, hx⟩ := hx
    cases hx
    exact ⟨mode, live, h.beginExit hi hnone⟩
  case walk.run ptr =>
    cases ptr with
    | none =>
        cases hx
        exact ⟨mode, live, h.go hi (h.mutex.unlock (by rw [hi]; rfl) rfl) rfl rfl nofun nofun
          nofun trivial nofun nofun⟩
    | some n =>
        cases hx
        exact ⟨_, h.notify hi⟩
  case walkCallback.run n =>
    cases hx
    exact ⟨_, _, h.callback hi⟩
  case walkNext.run n =>
    cases hx
    exact ⟨mode, live, h.go hi (x := s.mutex) (h.mutex.keep (by rw [hi]; rfl)) rfl rfl nofun
      nofun nofun trivial nofun nofun⟩
  case loadInactive.run n =>
    split at hx
    case isTrue hinactive =>
      cases hx
      refine ⟨mode, live, h.go hi (x := s.mutex) (h.mutex.keep (by rw [hi]; rfl)) rfl rfl
        nofun nofun nofun ?_ hself.destroys ?_⟩
      · rw [h.inactive] at hinactive
        cases hm : mode n <;> rw [hm] at hinactive <;>
          first | exact .inl hm | cases hinactive
      · rintro k hk t
        exact PC.free.inj hk ▸ hapart n hi t
    case isFalse hactive =>
      cases hx
      exact ⟨mode, live, h.go hi (x := s.mutex) (h.mutex.keep (by rw [hi]; rfl)) rfl rfl
        nofun nofun nofun trivial hself.destroys nofun⟩
  case unsubscribeLock.run n =>
    obtain ⟨hnone, hx⟩ := hx
    cases hx
    exact ⟨mode, live, h.go hi (.lock (hnone ▸ h.mutex) rfl) rfl rfl nofun nofun nofun trivial
      hself.destroys nofun⟩
  case unsubscribe.run n =>
    split at hx
    case h_1 hchain =>
      cases hx
      refine ⟨mode, live, h.go hi (h.mutex.unlock (by rw [hi]; rfl) rfl) rfl rfl nofun nofun
        nofun (h.off_of_unsubscribe hi hchain) hself.destroys ?_⟩
      -- the walks have no part in this: they hold the mutex too
      intro k _ t ht
      have hti : t = i := h.mutex.unique (by rw [ht]; rfl) (by rw [hi]; rfl)
      rw [hti, hi] at ht
      cases ht
    case h_2 t hchain =>
      cases hx
      exact ⟨_, _, h.unsubscribe hi hchain⟩
  case unlink.run n t prev ptr =>
    obtain ⟨hmode, front, back, hlive, hprev, hmem, hlist⟩ := hself.ok
    cases back with
    | nil => cases hmem
    | cons k rest =>
        obtain ⟨rfl, hrest⟩ := isList_cons.mp hlist
        dsimp only at hx
        split at hx
        case isTrue hk =>
          cases hx
          subst hk
          exact ⟨_, h.unlink hi⟩
        case isFalse hk =>
          cases hx
          refine ⟨mode, live, h.go hi (x := s.mutex)
            (h.mutex.keep (by rw [hi]; rfl)) rfl rfl
            nofun ?_ nofun ?_ hself.destroys nofun⟩
          · rintro _ _ _ _ hpc
            obtain ⟨rfl, rfl, -, -⟩ := PC.unlink.inj hpc
            exact ⟨_, _, rfl⟩
          · refine ⟨hmode, front ++ [k], rest, ?_, ?_, ?_, hrest⟩
            · rw [hlive, List.append_assoc]
              rfl
            · rw [List.getLast?_concat]
            · exact (List.mem_cons.mp hmem).resolve_left (Ne.symm hk)
  case free.run n =>
    cases hx
    exact ⟨_, _, h.free hi⟩

omit [DecidableEq ι] [DecidableEq ν] in
theorem inv_init {c : Conf ι (State ι ν) (PC ι ν)} (h : Init c) :
    Inv c.shared c.locals (fun _ => .fresh) fun _ => [] := by
  obtain ⟨hmutex, htail, hchain, hcreated, hinactive, hdoomed, hinUse, hfreed, hcalled, hidle⟩ := h
  refine ⟨?_, hcreated, hinactive, hchain, hinUse, ?_, ?_, ?_, ?_, nofun, nofun, ?_⟩
  · intro j
    rw [hmutex, hidle]
    exact ⟨nofun, nofun⟩
  · intro n hn
    rw [hdoomed] at hn
    cases hn
  · intro n hn
    rw [hfreed] at hn
    cases hn
  · simp
  · intro j
    rw [hidle]
    exact .of_not_exiting rfl trivial nofun (isList_nil.mpr (htail j)) (hcalled j)
  · intro t n ht
    rw [hidle] at ht
    cases ht

end Steps

/-! ### The walk -/

section Walk

variable [DecidableEq ι] [DecidableEq ν]

/-- The listener whose fields the next step of an exit reads. -/
def PC.reads : PC ι ν → Option ν
  | .walk ptr => ptr
  | .walkCallback ptr | .walkNext ptr => some ptr
  | _ => none

/-- What the exits of the threads do. -/
structure Sound (c : Conf ι (State ι ν) (PC ι ν)) : Prop where
  /-- The walk reads no destroyed listener. -/
  alive : ∀ t n, (c.locals t).reads = some n → c.shared.freed n = false
  /-- An exit that is over has run the callback of every listener that was on the list
  when it began, once, and no other. -/
  once : ∀ t, c.locals t = .gone → ∀ n, c.shared.called t n = if c.shared.atExit t n then 1 else 0
  /-- An exit that has begun gets there by its own steps. -/
  finishes : ∀ t, (c.locals t).exiting = true → ∃ k s',
    exec.solo t (List.replicate k .run) c.shared (c.locals t) = some (s', .gone)

/-- The walk goes down the list and ends. -/
theorem walk_finishes {s : State ι ν} {ptr : Option ν} {l : List ν} (t : ι)
    (h : IsList s.next ptr l) :
    ∃ k s', exec.solo t (List.replicate k .run) s (.walk ptr) = some (s', .gone) := by
  induction l generalizing s ptr with
  | nil =>
      obtain rfl := isList_nil.mp h
      exact ⟨1, _, rfl⟩
  | cons n rest ih =>
      obtain ⟨rfl, hrest⟩ := isList_cons.mp h
      -- neither clearing `chain` nor the callback touches `next`
      obtain ⟨k, s', hk⟩ := ih (s := (s.clearChain n).callback t n) hrest
      exact ⟨k + 3, s', hk⟩

theorem Inv.finishes {s : State ι ν} {locals : ι → PC ι ν} {mode : ν → Mode ι}
    {live : ι → List ν} (h : Inv s locals mode live) {t : ι} (ht : (locals t).exiting = true) :
    ∃ k s', exec.solo t (List.replicate k .run) s (locals t) = some (s', .gone) := by
  have hlist := (h.threads t).list
  cases hpc : locals t <;> rw [hpc] at ht hlist
  case walk ptr => exact walk_finishes t hlist
  case walkCallback n =>
    obtain ⟨k, s', hk⟩ := walk_finishes (s := s.callback t n) t hlist
    exact ⟨k + 2, s', hk⟩
  case walkNext n =>
    obtain ⟨k, s', hk⟩ := walk_finishes t hlist
    exact ⟨k + 1, s', hk⟩
  case gone => exact ⟨0, s, rfl⟩
  all_goals cases ht

omit [DecidableEq ι] [DecidableEq ν] in
theorem Inv.alive {s : State ι ν} {locals : ι → PC ι ν} {mode : ν → Mode ι} {live : ι → List ν}
    (h : Inv s locals mode live) {t : ι} {n : ν} (ht : (locals t).reads = some n) :
    s.freed n = false := by
  have hself := h.threads t
  refine Bool.eq_false_iff.mpr fun hfreed => ?_
  obtain ⟨-, hoff⟩ := h.freed n hfreed
  cases hpc : locals t <;> rw [hpc] at ht hself
  case walk ptr =>
    -- what is still on the list is subscribed
    have hlist := hself.list
    cases hl : live t with
    | nil =>
        rw [hl] at hlist
        exact absurd (ht.symm.trans (isList_nil.mp hlist)) nofun
    | cons k rest =>
        rw [hl] at hlist
        obtain rfl := Option.some.inj (ht.symm.trans (isList_cons.mp hlist).1)
        have hmode := (h.mem t n).mp (by rw [hl]; exact List.mem_cons_self)
        rcases hmode with hm | hm <;> rw [hm] at hoff <;>
          rcases hoff with hoff | hoff <;> cases hoff
  case walkCallback k =>
    obtain rfl := Option.some.inj ht
    have hmode : mode k = .notified t := hself.ok
    rw [hmode] at hoff
    rcases hoff with hoff | hoff <;> cases hoff
  case walkNext k =>
    obtain rfl := Option.some.inj ht
    exact absurd (hfreed.symm.trans (h.apart t k hpc).1) nofun
  all_goals cases ht

omit [DecidableEq ι] [DecidableEq ν] in
theorem Inv.once {s : State ι ν} {locals : ι → PC ι ν} {mode : ν → Mode ι} {live : ι → List ν}
    (h : Inv s locals mode live) {t : ι} (ht : locals t = .gone) (n : ν) :
    s.called t n = if s.atExit t n then 1 else 0 := by
  have hself := h.threads t
  rw [ht] at hself
  have hempty : live t = [] := by
    cases hl : live t with
    | nil => rfl
    | cons k rest =>
        have hlist := hself.list
        rw [hl, isList_cons] at hlist
        cases hlist.1
  have hdone : ¬ (mode n).Pending t := by
    rintro (hm | hm)
    · have hmem := (h.mem t n).mpr (.inl hm)
      rw [hempty] at hmem
      cases hmem
    · exact absurd (ht.symm.trans (h.notified n t hm)) nofun
  split
  case isTrue hat => exact hself.called_eq_one n rfl hat hdone
  case isFalse hat => exact hself.called_eq_zero n (.inr (.inl (Bool.eq_false_iff.mpr hat)))

/-- **In every run in which no destructor reads `inactive` between the callback of its
listener and the read of `next`**, the walks touch no destroyed listener and run
every callback once. -/
theorem exits_sound {c : Conf ι (State ι ν) (PC ι ν)} (h : exec.ReachableWhen Apart Init c) :
    Sound c := by
  obtain ⟨mode, live, hinv⟩ :=
    h.invariant (I := fun c => ∃ mode live, Inv c.shared c.locals mode live)
      (fun _ h0 => ⟨_, _, inv_init h0⟩) fun _ _ _ _ _ ih hok hx => inv_step ih hok hx
  exact ⟨fun _ _ => hinv.alive, fun _ => hinv.once, fun _ => hinv.finishes⟩

end Walk

/-! ### A run of two threads -/

section Example

/-- Nothing has happened yet. -/
def start : Conf (Fin 2) (State (Fin 2) (Fin 1)) (PC (Fin 2) (Fin 1)) where
  shared :=
    { mutex := none, tail := fun _ => none, next := fun _ => none, chain := fun _ => none
      inactive := fun _ => false, created := fun _ => false, doomed := fun _ => false
      inUse := fun _ => false, freed := fun _ => false, atExit := fun _ _ => false
      called := fun _ _ => 0 }
  locals := fun _ => .idle

theorem start_init : Init start :=
  ⟨rfl, fun _ => rfl, fun _ => rfl, fun _ => rfl, fun _ => rfl, fun _ => rfl, fun _ => rfl,
    fun _ => rfl, fun _ _ => rfl, fun _ => rfl⟩

instance {ι ν : Type*} [Fintype ι] [Fintype ν] [DecidableEq ι] [DecidableEq ν]
    (c : Conf ι (State ι ν) (PC ι ν)) (i : ι) (a : Act ν) : Decidable (Apart c i a) :=
  inferInstanceAs (Decidable (∀ n, c.locals i = .loadInactive n → ∀ t, c.locals t ≠ .walkNext n))

/-- Thread 0 enqueues and exits as far as the callback. -/
def upToCallback : List (Fin 2 × Act (Fin 1)) :=
  [(0, .acquire 0), (0, .run), (0, .run), (0, .exit), (0, .run), (0, .run), (0, .run)]

/-- The queue is destroyed after the walk is over. -/
theorem exits_sound_after : ∃ c : Conf (Fin 2) (State (Fin 2) (Fin 1)) (PC (Fin 2) (Fin 1)),
    exec.ReachableWhen Apart Init c ∧ c.shared.freed 0 = true ∧ c.locals 0 = .gone ∧ Sound c := by
  obtain ⟨c, hrun, hfreed, hgone⟩ : ∃ c, exec.runWhen Apart
      (upToCallback ++ [(0, .run), (0, .run), (1, .destroy 0), (1, .run), (1, .run)]) start =
        some c ∧ c.shared.freed 0 = true ∧ c.locals 0 = .gone := ⟨_, rfl, rfl, rfl⟩
  have hstart : exec.ReachableWhen Apart Init start := .start start_init
  have hreach := hstart.run _ hrun
  exact ⟨c, hreach, hfreed, hgone, exits_sound hreach⟩

/-- The queue is destroyed between the callback and the read of `next`: the
destructor sees `inactive`, does not wait for the mutex and frees the listener the
walk is about to read. -/
theorem walk_reads_freed : ∃ c : Conf (Fin 2) (State (Fin 2) (Fin 1)) (PC (Fin 2) (Fin 1)),
    exec.Reachable Init c ∧ c.locals 0 = .walkNext 0 ∧ c.shared.freed 0 = true := by
  obtain ⟨c, hrun, hpc, hfreed⟩ : ∃ c, exec.run
      (upToCallback ++ [(1, .destroy 0), (1, .run), (1, .run)]) start = some c ∧
        c.locals 0 = .walkNext 0 ∧ c.shared.freed 0 = true := ⟨_, rfl, rfl, rfl⟩
  exact ⟨c, (Exec.Reachable.start start_init).run _ hrun, hpc, hfreed⟩

end Example

end ConcurrentQueue.ThreadExit
