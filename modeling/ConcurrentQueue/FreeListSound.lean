import Mathlib.Data.Nat.Bitwise
import ConcurrentQueue.FreeList

/-!
# ConcurrentQueue.FreeListSound

**The free list hands out each node to one thread at a time and loses none.**
At every moment a node is in one *mode*: at the disposal of a thread, on the
list, in the hands of a thread that is putting it on the list or has just taken
it off, or pending, that is: it should be on the list but some thread still
holds a reference to it, and the last of these will put it back.

The mode and the number of references determine the word `freeListRefs`
(`Mode.refs`), and a node has a mode of its own for each thread that may write
its `freeListNext`. The modes exist only in the invariant.
-/

namespace ConcurrentQueue.FreeList

open Function Interleaving Linked

variable {ν ι : Type*}

/-! ### Modes -/

/-- What a thread that is responsible for a node is doing with it. -/
inductive Kind
  /-- About to raise the flag in `add`. -/
  | entering
  /-- In `add_knowing_refcount_is_zero`, before the count is set to one. -/
  | early
  /-- In `add_knowing_refcount_is_zero`, after that. -/
  | late
  /-- Took the node off the list and has not dropped its two references. -/
  | taken
  deriving DecidableEq

inductive Mode (ι : Type*)
  | owned (i : ι)
  | listed
  | pending
  | busy (k : Kind) (i : ι)
  deriving DecidableEq

/-- The word of a node in each mode, when `holders` threads hold a reference. -/
def Mode.refs (holders : Nat) : Mode ι → Nat
  | owned _ => holders
  | listed => 1 + holders
  | pending => SHOULD_BE_ON_FREELIST + holders
  | busy .entering _ => holders
  | busy .early _ => SHOULD_BE_ON_FREELIST + holders
  | busy .late _ => 1 + holders
  | busy .taken _ => 2 + holders

namespace PC

/-- The node a thread is responsible for, and in which way. -/
def busy : PC ν → Option (Kind × ν)
  | addFlag n => some (.entering, n)
  | zeroLoadHead n _ => some (.early, n)
  | zeroStoreNext n _ _ => some (.early, n)
  | zeroStoreRefs n _ _ => some (.early, n)
  | zeroCas n _ _ => some (.late, n)
  | zeroFetchAdd n _ _ => some (.late, n)
  | getAssert n => some (.taken, n)
  | getSubTwo n => some (.taken, n)
  | _ => none

/-- The node a thread holds a reference to. -/
def held : PC ν → Option ν
  | getLoadNext n => some n
  | getCasHead n _ => some n
  | getSubOne n _ => some n
  | _ => none

/-- References the thread holds to `n`. -/
def holds [DecidableEq ν] (n : ν) (l : PC ν) : Nat := if l.held = some n then 1 else 0

/-- A thread holds no reference to the node it is responsible for. -/
theorem held_of_busy {l : PC ν} {k : Kind} {n : ν} (h : l.busy = some (k, n)) : l.held = none := by
  cases l <;> simp_all [busy, held]

@[simp] theorem busy_getLoop (h : Option ν) : (getLoop h).busy = none := by
  cases h <;> rfl

@[simp] theorem held_getLoop (h : Option ν) : (getLoop h).held = none := by
  cases h <;> rfl

@[simp] theorem busy_cont (k : Cont ν) : k.pc.busy = none := by
  cases k
  · rfl
  · exact busy_getLoop _

@[simp] theorem held_cont (k : Cont ν) : k.pc.held = none := by
  cases k
  · rfl
  · exact held_getLoop _

end PC

/-- The `next` values a thread remembers are still current, and it does not try
to take a reference to a node it saw without any. -/
def LinkOk (next : ν → Option ν) : PC ν → Prop
  | .zeroStoreRefs n head _ => next n = head
  | .zeroCas n head _ => next n = head
  | .getCasRefs _ refs => refs % SHOULD_BE_ON_FREELIST ≠ 0
  | .getCasHead n nx => nx = next n
  | _ => True

theorem linkOk_cont (next : ν → Option ν) (k : Cont ν) : LinkOk next k.pc := by
  rcases k with _ | (_ | _) <;> trivial

theorem linkOk_getLoop (next : ν → Option ν) (h : Option ν) : LinkOk next (getLoop h) := by
  cases h <;> trivial

/-! ### The invariant -/

variable [DecidableEq ν] [Fintype ι]

/-- Threads that hold a reference to `n`. -/
def holders (locals : ι → PC ν) (n : ν) : Nat := ∑ i, (locals i).holds n

structure Inv (c : Conf ι (State ν ι) (PC ν)) (mode : ν → Mode ι) (l : List ν) : Prop where
  refs : ∀ n, c.shared.freeListRefs n = (mode n).refs (holders c.locals n)
  owner : ∀ n i, c.shared.owner n = some i ↔ mode n = .owned i
  busy : ∀ i k n, (c.locals i).busy = some (k, n) ↔ mode n = .busy k i
  early : ∀ n i, mode n = .busy .early i → holders c.locals n = 0
  pending : ∀ n, mode n = .pending → 0 < holders c.locals n
  list : IsList c.shared.freeListNext c.shared.freeListHead l
  listed : ∀ n, n ∈ l ↔ mode n = .listed
  links : ∀ i, LinkOk c.shared.freeListNext (c.locals i)

variable [DecidableEq ι]

theorem holders_update (locals : ι → PC ν) (i : ι) (l' : PC ν) (n : ν) :
    holders (update locals i l') n + (locals i).holds n = holders locals n + l'.holds n :=
  sum_update_add (PC.holds n) locals i l'

variable {c : Conf ι (State ν ι) (PC ν)} {mode : ν → Mode ι} {l : List ν} {i : ι}

omit [DecidableEq ι] in
theorem holders_le (locals : ι → PC ν) (n : ν) : holders locals n ≤ Fintype.card ι := by
  calc holders locals n ≤ ∑ _i : ι, 1 := Finset.sum_le_sum fun j _ => by
        unfold PC.holds
        split <;> omega
    _ = Fintype.card ι := by simp

/-- A step that concerns one node `n`: it may change the word and the mode of
`n` and put it on or off the list, and leaves all other nodes alone. -/
theorem Inv.touch (h : Inv c mode l) {s : State ν ι} {l' : PC ν} {n : ν} {μ : Mode ι}
    {list' : List ν}
    (hheld : ∀ m, m ≠ n → l'.holds m = (c.locals i).holds m)
    (hrefs : ∀ m, m ≠ n → s.freeListRefs m = c.shared.freeListRefs m)
    (hrefs' : s.freeListRefs n = μ.refs (holders (update c.locals i l') n))
    (howner : ∀ m, m ≠ n → s.owner m = c.shared.owner m)
    (howner' : ∀ j, s.owner n = some j ↔ μ = .owned j)
    (hold : ∀ k m, (c.locals i).busy = some (k, m) → m = n)
    (hbusy : ∀ k m, l'.busy = some (k, m) ↔ m = n ∧ μ = .busy k i)
    (hbusy' : ∀ j, j ≠ i → ∀ k, mode n = .busy k j ↔ μ = .busy k j)
    (hearly : ∀ j, μ = .busy .early j → holders (update c.locals i l') n = 0)
    (hpending : μ = .pending → 0 < holders (update c.locals i l') n)
    (hlist : IsList s.freeListNext s.freeListHead list')
    (hlisted : ∀ m, m ≠ n → (m ∈ list' ↔ m ∈ l)) (hlisted' : n ∈ list' ↔ μ = .listed)
    (hlink : LinkOk s.freeListNext l')
    (hlinks : ∀ j, j ≠ i → LinkOk s.freeListNext (c.locals j)) :
    Inv ⟨s, update c.locals i l'⟩ (update mode n μ) list' := by
  have hother : ∀ m, m ≠ n → holders (update c.locals i l') m = holders c.locals m := by
    intro m hm
    have := holders_update c.locals i l' m
    rw [hheld m hm] at this
    omega
  refine ⟨?_, ?_, ?_, ?_, ?_, hlist, ?_, ?_⟩
  · intro m
    by_cases hm : m = n
    · subst hm
      simpa using hrefs'
    · rw [update_of_ne hm, hother m hm]
      exact (hrefs m hm).trans (h.refs m)
  · intro m j
    by_cases hm : m = n
    · subst hm
      simpa using howner' j
    · rw [update_of_ne hm, ← h.owner m j]
      exact iff_of_eq (congrArg (· = some j) (howner m hm))
  · intro j k m
    by_cases hj : j = i
    · subst hj
      simp only [update_self]
      rw [hbusy]
      by_cases hm : m = n
      · simp [hm]
      · rw [update_of_ne hm, ← h.busy]
        exact ⟨fun ⟨hmn, _⟩ => absurd hmn hm, fun hb => absurd (hold k m hb) hm⟩
    · simp only [update_of_ne hj]
      rw [h.busy j k m]
      by_cases hm : m = n
      · subst hm
        simpa using hbusy' j hj k
      · rw [update_of_ne hm]
  · intro m j hmode
    by_cases hm : m = n
    · subst hm
      exact hearly j (by simpa using hmode)
    · rw [update_of_ne hm] at hmode
      exact (hother m hm).trans (h.early m j hmode)
  · intro m hmode
    by_cases hm : m = n
    · subst hm
      exact hpending (by simpa using hmode)
    · rw [update_of_ne hm] at hmode
      rw [hother m hm]
      exact h.pending m hmode
  · intro m
    by_cases hm : m = n
    · subst hm
      simpa using hlisted'
    · rw [update_of_ne hm, hlisted m hm]
      exact h.listed m
  · intro j
    by_cases hj : j = i
    · subst hj
      simpa using hlink
    · simpa [update_of_ne hj] using hlinks j hj

/-- A step that only moves a thread, with its responsibilities unchanged. -/
theorem Inv.silent (h : Inv c mode l) {l' : PC ν} (hbusy : l'.busy = (c.locals i).busy)
    (hheld : l'.held = (c.locals i).held) (hlink : LinkOk c.shared.freeListNext l') :
    Inv ⟨c.shared, update c.locals i l'⟩ mode l := by
  have hsame : ∀ n, holders (update c.locals i l') n = holders c.locals n := by
    intro n
    have := holders_update c.locals i l' n
    unfold PC.holds at this
    rw [hheld] at this
    omega
  refine ⟨fun n => ?_, h.owner, fun j k n => ?_, fun n j hm => ?_, fun n hm => ?_, h.list,
    h.listed, forall_update hlink h.links⟩
  · rw [hsame]
    exact h.refs n
  · by_cases hj : j = i
    · subst hj
      simpa [hbusy] using h.busy j k n
    · simpa [update_of_ne hj] using h.busy j k n
  · rw [hsame]
    exact h.early n j hm
  · rw [hsame]
    exact h.pending n hm

/-! ### Facts about the moving thread -/

section Mover

omit [DecidableEq ι]

theorem Inv.mode_busy (h : Inv c mode l) {k : Kind} {n : ν} {q : PC ν} (hq : c.locals i = q)
    (hb : q.busy = some (k, n)) : mode n = .busy k i := by
  rw [← h.busy i k n, hq, hb]

/-- A thread that is responsible for `n` holds no reference to it, so that not
all threads do. -/
theorem Inv.holders_lt (h : Inv c mode l) {k : Kind} {n : ν} (hm : mode n = .busy k i) :
    holders c.locals n < Fintype.card ι := by
  have hb := (h.busy i k n).mpr hm
  calc holders c.locals n < ∑ _i : ι, 1 := Finset.sum_lt_sum (fun j _ => by
        unfold PC.holds
        split <;> omega) ⟨i, Finset.mem_univ i, by simp [PC.holds, PC.held_of_busy hb]⟩
    _ = Fintype.card ι := by simp

theorem holders_pos {n : ν} (hi : (c.locals i).held = some n) : 0 < holders c.locals n :=
  lt_of_lt_of_le (by simp [PC.holds, hi])
    (Finset.single_le_sum (f := fun j => (c.locals j).holds n) (fun j _ => Nat.zero_le _)
      (Finset.mem_univ i))

end Mover

omit [Fintype ι] [DecidableEq ι] in
/-- Writing `freeListNext` of a node that a thread neither holds nor is
responsible for leaves what the thread remembers current. -/
theorem LinkOk.update {next : ν → Option ν} {q : PC ν} (hq : LinkOk next q) {n : ν}
    (hbusy : ∀ k, q.busy ≠ some (k, n)) (hheld : q.held ≠ some n) (x : Option ν) :
    LinkOk (update next n x) q := by
  cases q with
  | zeroStoreRefs m head k =>
      have hm : m ≠ n := fun e => hbusy .early (by rw [e]; rfl)
      simpa [LinkOk, update_of_ne hm] using hq
  | zeroCas m head k =>
      have hm : m ≠ n := fun e => hbusy .late (by rw [e]; rfl)
      simpa [LinkOk, update_of_ne hm] using hq
  | getCasHead m nx =>
      have hm : m ≠ n := fun e => hheld (by rw [e]; rfl)
      simpa [LinkOk, update_of_ne hm] using hq
  | getCasRefs m refs => exact hq
  | _ => trivial

/-! ### Steps that change only words and responsibilities

All steps but three leave the list and the owners as they are. For these, what
is left to check is the word of the one node the step is about. -/

/-- `Inv.touch` for a step that stores `r` in the word of `n`. -/
theorem Inv.recount (h : Inv c mode l) {q l' : PC ν} (hi : c.locals i = q) {n : ν} {r : Nat}
    {μ : Mode ι}
    (hq : q.held = none ∨ q.held = some n) (hl' : l'.held = none ∨ l'.held = some n)
    (hword : ∀ count, count + q.holds n = holders c.locals n + l'.holds n →
      u32 r = μ.refs count ∧ (∀ j, μ = .busy .early j → count = 0) ∧ (μ = .pending → 0 < count))
    (howned : ∀ j, mode n = .owned j ↔ μ = .owned j)
    (hold : ∀ k m, q.busy = some (k, m) → m = n)
    (hbusy : ∀ k m, l'.busy = some (k, m) ↔ m = n ∧ μ = .busy k i)
    (hbusy' : ∀ j, j ≠ i → ∀ k, mode n = .busy k j ↔ μ = .busy k j)
    (hlisted : mode n = .listed ↔ μ = .listed)
    (hlink : LinkOk c.shared.freeListNext l') :
    Inv ⟨c.shared.setRefs n r, update c.locals i l'⟩ (update mode n μ) l := by
  subst hi
  obtain ⟨hrefs, hearly, hpending⟩ := hword _ (holders_update c.locals i l' n)
  refine h.touch (fun m hm => ?_) (fun m hm => ?_) ?_ (fun _ _ => rfl) (fun j => ?_) hold hbusy
    hbusy' hearly hpending h.list (fun _ _ => Iff.rfl) ?_ hlink fun j _ => h.links j
  · have hne : ∀ p : PC ν, p.held = none ∨ p.held = some n → p.holds m = 0 := by
      rintro p (hp | hp) <;> simp [PC.holds, hp, hm.symm]
    rw [hne _ hl', hne _ hq]
  · simp [State.setRefs, update_of_ne hm]
  · rw [← hrefs]
    simp [State.setRefs]
  · rw [← howned, ← h.owner]
    rfl
  · rw [h.listed, hlisted]

theorem Inv.addFlag (h : Inv c mode l) (hcard : Fintype.card ι + 1 < 2 ^ 31) {n : ν}
    (hi : c.locals i = .addFlag n) {l' : PC ν}
    (hl' : l' = if c.shared.freeListRefs n = 0 then .zeroLoadHead n .ret else .idle) :
    ∃ μ, Inv ⟨c.shared.setRefs n (c.shared.freeListRefs n + SHOULD_BE_ON_FREELIST),
      update c.locals i l'⟩ (update mode n μ) l := by
  have hm := h.mode_busy hi rfl
  have hlt := h.holders_lt hm
  have hr := h.refs n
  rw [hm] at hr
  change _ = holders c.locals n at hr
  by_cases h0 : holders c.locals n = 0
  · rw [hr, if_pos h0] at hl'
    subst hl'
    refine ⟨.busy .early i, h.recount hi (.inl rfl) (.inl rfl) (fun count hc => ?_)
      (by simp [hm]) (by simp [PC.busy]) (by simp [PC.busy, eq_comm, and_comm])
      (fun j hj k => by simp [hm, hj.symm]) (by simp [hm]) trivial⟩
    change count + 0 = holders c.locals n + 0 at hc
    simp only [u32, Mode.refs, SHOULD_BE_ON_FREELIST, hr]
    refine ⟨by omega, fun _ _ => by omega, fun e => nomatch e⟩
  · rw [hr, if_neg h0] at hl'
    subst hl'
    refine ⟨.pending, h.recount hi (.inl rfl) (.inl rfl) (fun count hc => ?_)
      (by simp [hm]) (by simp [PC.busy]) (by simp [PC.busy])
      (fun j hj k => by simp [hm, hj.symm]) (by simp [hm]) trivial⟩
    change count + 0 = holders c.locals n + 0 at hc
    simp only [u32, Mode.refs, SHOULD_BE_ON_FREELIST, hr]
    refine ⟨by omega, (fun _ e => nomatch e), fun _ => by omega⟩

theorem Inv.zeroStoreRefs (h : Inv c mode l) {n : ν} {head : Option ν} {k : Cont ν}
    (hi : c.locals i = .zeroStoreRefs n head k) :
    ∃ μ, Inv ⟨c.shared.setRefs n 1, update c.locals i (.zeroCas n head k)⟩
      (update mode n μ) l := by
  have hm := h.mode_busy hi rfl
  have h0 := h.early n i hm
  have hlink : c.shared.freeListNext n = head := by
    have := h.links i
    rwa [hi] at this
  refine ⟨.busy .late i, h.recount hi (.inl rfl) (.inl rfl) (fun count hc => ?_)
    (by simp [hm]) (by simp [PC.busy]) (by simp [PC.busy, eq_comm, and_comm])
    (fun j hj k => by simp [hm, hj.symm]) (by simp [hm]) hlink⟩
  change count + 0 = holders c.locals n + 0 at hc
  simp only [u32, Mode.refs]
  refine ⟨by omega, (fun _ e => nomatch e), fun e => nomatch e⟩

theorem Inv.zeroFetchAdd (h : Inv c mode l) (hcard : Fintype.card ι + 1 < 2 ^ 31) {n : ν}
    {head : Option ν} {k : Cont ν} (hi : c.locals i = .zeroFetchAdd n head k) {l' : PC ν}
    (hl' : l' = if c.shared.freeListRefs n = 1 then .zeroStoreNext n head k else k.pc) :
    ∃ μ, Inv ⟨c.shared.setRefs n (c.shared.freeListRefs n + (SHOULD_BE_ON_FREELIST - 1)),
      update c.locals i l'⟩ (update mode n μ) l := by
  have hm := h.mode_busy hi rfl
  have hlt := h.holders_lt hm
  have hr := h.refs n
  rw [hm] at hr
  change _ = 1 + holders c.locals n at hr
  by_cases h0 : c.shared.freeListRefs n = 1
  · rw [if_pos h0] at hl'
    subst hl'
    refine ⟨.busy .early i, h.recount hi (.inl rfl) (.inl rfl) (fun count hc => ?_)
      (by simp [hm]) (by simp [PC.busy]) (by simp [PC.busy, eq_comm, and_comm])
      (fun j hj k => by simp [hm, hj.symm]) (by simp [hm]) trivial⟩
    change count + 0 = holders c.locals n + 0 at hc
    simp only [u32, Mode.refs, SHOULD_BE_ON_FREELIST]
    refine ⟨by omega, fun _ _ => by omega, fun e => nomatch e⟩
  · rw [if_neg h0] at hl'
    subst hl'
    refine ⟨.pending, h.recount hi (.inl rfl) (.inl (PC.held_cont k)) (fun count hc => ?_)
      (by simp [hm]) (by simp [PC.busy]) (by simp) (fun j hj k => by simp [hm, hj.symm])
      (by simp [hm]) (linkOk_cont _ k)⟩
    rw [PC.holds, PC.holds, PC.held_cont] at hc
    change count + 0 = holders c.locals n + 0 at hc
    simp only [u32, Mode.refs, SHOULD_BE_ON_FREELIST]
    refine ⟨by omega, (fun _ e => nomatch e), fun _ => by omega⟩

/-- Taking a reference. A node that shows a reference to the CAS is not one
that is being put on the list, where the word holds the bare flag. -/
theorem Inv.getCasRefs (h : Inv c mode l) (hcard : Fintype.card ι + 1 < 2 ^ 31) {n : ν}
    (hi : c.locals i = .getCasRefs n (c.shared.freeListRefs n)) :
    Inv ⟨c.shared.setRefs n (c.shared.freeListRefs n + 1),
      update c.locals i (.getLoadNext n)⟩ mode l := by
  have hmask : c.shared.freeListRefs n % SHOULD_BE_ON_FREELIST ≠ 0 := by
    have := h.links i
    rwa [hi] at this
  have hle := holders_le c.locals n
  have hr := h.refs n
  rw [← update_eq_self n mode]
  refine h.recount hi (.inl rfl) (.inr rfl) (fun count hc => ?_) (fun _ => Iff.rfl)
    (by simp [PC.busy]) (fun k m => ?_) (fun _ _ _ => Iff.rfl) Iff.rfl trivial
  · simp only [PC.holds, PC.held, reduceCtorEq, if_false, if_true] at hc
    have hnot : ∀ j, mode n ≠ .busy .early j := fun j e => by
      rw [hr, e, h.early n j e] at hmask
      exact hmask (by simp [Mode.refs])
    refine ⟨?_, fun j e => absurd e (hnot j), fun _ => by omega⟩
    cases hm : mode n with
    | busy k j =>
        cases k <;> simp only [hm, Mode.refs, u32, SHOULD_BE_ON_FREELIST] at hr ⊢ <;> omega
    | _ => all_goals (simp only [hm, Mode.refs, u32, SHOULD_BE_ON_FREELIST] at hr ⊢; omega)
  · have hnone : ∀ k, mode n ≠ .busy k i := fun k e => by
      have := (h.busy i k n).mpr e
      rw [hi] at this
      exact nomatch this
    simp [PC.busy, hnone]

/-- Dropping a reference. The last holder of a pending node takes over the duty
to put it on the list. -/
theorem Inv.getSubOne (h : Inv c mode l) (hcard : Fintype.card ι + 1 < 2 ^ 31) {n : ν}
    {head : Option ν} (hi : c.locals i = .getSubOne n head) {l' : PC ν}
    (hl' : l' = if c.shared.freeListRefs n = SHOULD_BE_ON_FREELIST + 1 then
      .zeroLoadHead n (.resume head) else getLoop head) :
    ∃ μ, Inv ⟨c.shared.setRefs n (c.shared.freeListRefs n + 2 ^ 32 - 1),
      update c.locals i l'⟩ (update mode n μ) l := by
  have hle := holders_le c.locals n
  have hpos := holders_pos (c := c) (i := i) (n := n) (by rw [hi]; rfl)
  have hr := h.refs n
  have hnot : ∀ j, mode n ≠ .busy .early j := fun j e => by
    have := h.early n j e
    omega
  have hnone : ∀ k, mode n ≠ .busy k i := fun k e => by
    have := (h.busy i k n).mpr e
    rw [hi] at this
    exact nomatch this
  by_cases h1 : c.shared.freeListRefs n = SHOULD_BE_ON_FREELIST + 1
  · rw [if_pos h1] at hl'
    subst hl'
    have hm : mode n = .pending ∧ holders c.locals n = 1 := by
      rw [h1] at hr
      cases hm : mode n with
      | busy k j =>
          cases k with
          | early => exact absurd hm (hnot j)
          | _ => all_goals (simp only [hm, Mode.refs, SHOULD_BE_ON_FREELIST] at hr; omega)
      | pending =>
          simp only [hm, Mode.refs] at hr
          exact ⟨rfl, by omega⟩
      | _ => all_goals (simp only [hm, Mode.refs, SHOULD_BE_ON_FREELIST] at hr; omega)
    refine ⟨.busy .early i, h.recount hi (.inr rfl) (.inl rfl) (fun count hc => ?_)
      (by simp [hm.1]) (by simp [PC.busy]) (by simp [PC.busy, eq_comm, and_comm])
      (fun j hj k => by simp [hm.1, hj.symm]) (by simp [hm.1]) trivial⟩
    simp only [PC.holds, PC.held, reduceCtorEq, if_false, if_true] at hc
    simp only [u32, Mode.refs, h1, SHOULD_BE_ON_FREELIST]
    exact ⟨by omega, fun _ _ => by omega, fun e => nomatch e⟩
  · rw [if_neg h1] at hl'
    subst hl'
    refine ⟨mode n, h.recount hi (.inr rfl) (.inl (PC.held_getLoop head)) (fun count hc => ?_)
      (fun _ => Iff.rfl) (by simp [PC.busy]) (by simp [hnone]) (fun _ _ _ => Iff.rfl) Iff.rfl
      (linkOk_getLoop _ head)⟩
    rw [PC.holds, PC.holds, PC.held_getLoop] at hc
    simp only [PC.held, reduceCtorEq, if_false, if_true] at hc
    refine ⟨?_, fun j e => absurd e (hnot j), fun e => ?_⟩
    · cases hm : mode n with
      | busy k j =>
          cases k <;> simp only [hm, Mode.refs, u32, SHOULD_BE_ON_FREELIST] at hr ⊢ <;> omega
      | _ => all_goals (simp only [hm, Mode.refs, u32, SHOULD_BE_ON_FREELIST] at hr ⊢; omega)
    · rw [hr, e] at h1
      simp only [Mode.refs] at h1
      omega

/-! ### Steps that write links, the head or the owner -/

/-- Only the thread that is putting a node on the list writes its
`freeListNext`, and nobody else is looking at it. -/
theorem Inv.zeroStoreNext (h : Inv c mode l) {n : ν} {head : Option ν} {k : Cont ν}
    (hi : c.locals i = .zeroStoreNext n head k) :
    Inv ⟨{ c.shared with freeListNext := update c.shared.freeListNext n head },
      update c.locals i (.zeroStoreRefs n head k)⟩ mode l := by
  have hm := h.mode_busy hi rfl
  have h0 := h.early n i hm
  have hmem : n ∉ l := fun hn => by
    rw [h.listed, hm] at hn
    exact nomatch hn
  have hcount := holders_update c.locals i (.zeroStoreRefs n head k) n
  rw [hi] at hcount
  change _ + 0 = _ + 0 at hcount
  rw [← update_eq_self n mode, hm]
  refine h.touch (fun m _ => by rw [hi]; rfl) (fun _ _ => rfl) ?_
    (fun _ _ => rfl) (fun j => ?_) ?_ (by simp [PC.busy, eq_comm, and_comm])
    (fun j hj k => by simp [hm]) (fun _ _ => by omega) (by simp) (h.list.update hmem head)
    (fun _ _ => Iff.rfl) (by simp [hmem]) (by simp [LinkOk]) fun j hj => ?_
  · have hr := h.refs n
    rw [hm] at hr
    simp only [Mode.refs] at hr ⊢
    omega
  · rw [h.owner n j, hm]
  · rw [hi]
    simp [PC.busy]
  · refine (h.links j).update (fun k' e => ?_) (fun e => ?_) head
    · rw [h.busy, hm] at e
      exact hj (Mode.busy.inj e).2.symm
    · have := holders_pos e
      omega

theorem Inv.zeroCas (h : Inv c mode l) {n : ν} {k : Cont ν}
    (hi : c.locals i = .zeroCas n c.shared.freeListHead k) :
    Inv ⟨{ c.shared with freeListHead := some n }, update c.locals i k.pc⟩
      (update mode n .listed) (n :: l) := by
  have hm := h.mode_busy hi rfl
  have hlink : c.shared.freeListNext n = c.shared.freeListHead := by
    have := h.links i
    rwa [hi] at this
  have hmem : n ∉ l := fun hn => by
    rw [h.listed, hm] at hn
    exact nomatch hn
  have hheld : ∀ m, k.pc.holds m = (c.locals i).holds m := fun m => by
    rw [hi, PC.holds, PC.holds, PC.held_cont]
    rfl
  have hcount := holders_update c.locals i k.pc n
  rw [hheld] at hcount
  refine h.touch (fun m _ => hheld m) (fun _ _ => rfl) ?_ (fun _ _ => rfl) (fun j => ?_) ?_
    (by simp) (fun j hj k => by simp [hm, hj.symm]) (by simp) (by simp) ?_ (fun m hne => ?_)
    (by simp) (linkOk_cont _ k) fun j _ => h.links j
  · have hr := h.refs n
    rw [hm] at hr
    simp only [Mode.refs] at hr ⊢
    omega
  · rw [h.owner n j, hm]
    simp
  · rw [hi]
    simp [PC.busy]
  · rw [isList_cons]
    exact ⟨rfl, hlink ▸ h.list⟩
  · simp [hne]

theorem Inv.getCasHead (h : Inv c mode l) {n : ν} {next : Option ν}
    (hi : c.locals i = .getCasHead n next) (hhead : c.shared.freeListHead = some n) :
    ∃ l', Inv ⟨{ c.shared with freeListHead := next }, update c.locals i (.getAssert n)⟩
      (update mode n (.busy .taken i)) l' := by
  have hlink : next = c.shared.freeListNext n := by
    have := h.links i
    rwa [hi] at this
  have hpos := holders_pos (c := c) (i := i) (n := n) (by rw [hi]; rfl)
  obtain ⟨m, rest, rfl⟩ : ∃ m rest, l = m :: rest := by
    cases l with
    | nil =>
        have := isList_nil.mp h.list
        simp [hhead] at this
    | cons m rest => exact ⟨m, rest, rfl⟩
  have hlist := isList_cons.mp h.list
  obtain rfl : m = n := by
    rw [hhead] at hlist
    exact (Option.some.inj hlist.1).symm
  have hnodup := List.nodup_cons.mp h.list.nodup
  have hm : mode m = .listed := (h.listed m).mp (by simp)
  have hcount := holders_update c.locals i (.getAssert m) m
  rw [hi] at hcount
  simp only [PC.holds, PC.held, reduceCtorEq, if_false, if_true] at hcount
  refine ⟨rest, h.touch (fun p hp => ?_) (fun _ _ => rfl) ?_ (fun _ _ => rfl) (fun j => ?_) ?_
    (by simp [PC.busy, eq_comm, and_comm]) (fun j hj k => by simp [hm, hj.symm]) (by simp)
    (by simp) ?_ (fun p hp => ?_) (by simp [hnodup.1]) trivial fun j _ => h.links j⟩
  · rw [hi]
    simp [PC.holds, PC.held, hp.symm]
  · have hr := h.refs m
    rw [hm] at hr
    simp only [Mode.refs] at hr ⊢
    omega
  · rw [h.owner m j, hm]
    simp
  · rw [hi]
    simp [PC.busy]
  · rw [hlink]
    exact hlist.2
  · simp [hp]

theorem Inv.getSubTwo (h : Inv c mode l) (hcard : Fintype.card ι + 1 < 2 ^ 31) {n : ν}
    (hi : c.locals i = .getSubTwo n) :
    Inv ⟨{ c.shared.setRefs n (c.shared.freeListRefs n + 2 ^ 32 - 2) with
        owner := update c.shared.owner n (some i) }, update c.locals i .idle⟩
      (update mode n (.owned i)) l := by
  have hm := h.mode_busy hi rfl
  have hlt := h.holders_lt hm
  have hmem : n ∉ l := fun hn => by
    rw [h.listed, hm] at hn
    exact nomatch hn
  have hcount := holders_update c.locals i .idle n
  rw [hi] at hcount
  refine h.touch (fun p hp => ?_) (fun m hm => ?_) ?_ (fun m hm => ?_) (by simp) ?_
    (by simp [PC.busy]) (fun j hj k => by simp [hm, hj.symm]) (by simp) (by simp) h.list
    (fun _ _ => Iff.rfl) (by simp [hmem]) trivial fun j _ => h.links j
  · rw [hi]
    rfl
  · simp [State.setRefs, update_of_ne hm]
  · have hr := h.refs n
    rw [hm] at hr
    change _ + 0 = _ + 0 at hcount
    simp only [Mode.refs, State.setRefs, update_self, u32] at hr hcount ⊢
    omega
  · simp [update_of_ne hm]
  · rw [hi]
    simp [PC.busy]

theorem Inv.add (h : Inv c mode l) {n : ν} (hi : c.locals i = .idle)
    (how : c.shared.owner n = some i) :
    Inv ⟨{ c.shared with owner := update c.shared.owner n none },
      update c.locals i (.addFlag n)⟩ (update mode n (.busy .entering i)) l := by
  have hm := (h.owner n i).mp how
  have hmem : n ∉ l := fun hn => by
    rw [h.listed, hm] at hn
    exact nomatch hn
  have hcount := holders_update c.locals i (.addFlag n) n
  rw [hi] at hcount
  refine h.touch (fun p hp => ?_) (fun m hm => rfl) ?_ (fun m hm => ?_) (by simp) ?_
    (by simp [PC.busy, eq_comm, and_comm]) (fun j hj k => by simp [hm, hj.symm]) (by simp)
    (by simp) h.list (fun _ _ => Iff.rfl) (by simp [hmem]) trivial fun j _ => h.links j
  · rw [hi]
    rfl
  · have hr := h.refs n
    rw [hm] at hr
    change _ + 0 = _ + 0 at hcount
    simp only [Mode.refs] at hr ⊢
    omega
  · simp [update_of_ne hm]
  · rw [hi]
    simp [PC.busy]

/-! ### All steps, and all runs -/

omit [DecidableEq ι] in
theorem inv_init (hinit : Init c) : ∃ mode l, Inv c mode l := by
  obtain ⟨hhead, hrefs, hnext, howner, hidle⟩ := hinit
  choose o ho using fun n => Option.isSome_iff_exists.mp (howner n)
  have hzero : ∀ n, holders c.locals n = 0 := fun n =>
    Finset.sum_eq_zero fun i _ => by simp [hidle i, PC.holds, PC.held]
  refine ⟨fun n => .owned (o n), [], ⟨fun n => ?_, fun n i => ?_, fun i k n => ?_, by simp, by simp,
    by simpa using hhead, by simp, fun i => ?_⟩⟩
  · rw [hrefs, hzero]
    rfl
  · simp [ho]
  · simp [hidle, PC.busy]
  · rw [hidle]
    trivial

theorem and_refs_mask (r : Nat) : r &&& REFS_MASK = r % SHOULD_BE_ON_FREELIST :=
  Nat.and_two_pow_sub_one_eq_mod r 31

theorem Inv.step (h : Inv c mode l) (hcard : Fintype.card ι + 1 < 2 ^ 31) {a : Act ν}
    {s : State ν ι} {l' : PC ν} (hx : exec i a c.shared (c.locals i) = some (s, l')) :
    ∃ mode l, Inv ⟨s, update c.locals i l'⟩ mode l := by
  generalize hi : c.locals i = q at hx
  -- a step that changes no node keeps the invariant as it is
  have move : s = c.shared → l'.busy = q.busy → l'.held = q.held →
      LinkOk c.shared.freeListNext l' →
      ∃ mode l, Inv ⟨s, update c.locals i l'⟩ mode l := by
    intro hs hb hh hlink
    subst hs hi
    exact ⟨mode, l, h.silent hb hh hlink⟩
  cases q with
  | idle =>
      cases a with
      | add n =>
          simp only [exec] at hx
          split at hx
          case isTrue how =>
              cases hx
              exact ⟨_, _, h.add hi how⟩
          case isFalse => cases hx
      | tryGet =>
          cases hx
          exact move rfl rfl rfl trivial
      | run => cases hx
  | addFlag n =>
      cases a <;> try contradiction
      simp only [exec] at hx
      split at hx
      case isTrue hr =>
          cases hx
          obtain ⟨μ, hμ⟩ := h.addFlag hcard hi (if_pos hr).symm
          exact ⟨_, _, hμ⟩
      case isFalse hr =>
          cases hx
          obtain ⟨μ, hμ⟩ := h.addFlag hcard hi (if_neg hr).symm
          exact ⟨_, _, hμ⟩
  | zeroLoadHead n k =>
      cases a <;> cases hx
      exact move rfl rfl rfl trivial
  | zeroStoreNext n head k =>
      cases a <;> cases hx
      exact ⟨_, _, h.zeroStoreNext hi⟩
  | zeroStoreRefs n head k =>
      cases a <;> cases hx
      obtain ⟨μ, hμ⟩ := h.zeroStoreRefs hi
      exact ⟨_, _, hμ⟩
  | zeroCas n head k =>
      cases a <;> try cases hx
      simp only [exec] at hx
      split at hx
      case isTrue hhead =>
          cases hx
          subst hhead
          exact ⟨_, _, h.zeroCas hi⟩
      case isFalse =>
          cases hx
          exact move rfl rfl rfl trivial
  | zeroFetchAdd n head k =>
      cases a <;> try contradiction
      simp only [exec] at hx
      split at hx
      case isTrue hr =>
          cases hx
          obtain ⟨μ, hμ⟩ := h.zeroFetchAdd hcard hi (if_pos hr).symm
          exact ⟨_, _, hμ⟩
      case isFalse hr =>
          cases hx
          obtain ⟨μ, hμ⟩ := h.zeroFetchAdd hcard hi (if_neg hr).symm
          exact ⟨_, _, hμ⟩
  | getLoadHead =>
      cases a <;> cases hx
      exact move rfl (PC.busy_getLoop _) (PC.held_getLoop _) (linkOk_getLoop _ _)
  | getLoadRefs n =>
      cases a <;> try cases hx
      simp only [exec] at hx
      split at hx
      case isTrue =>
          cases hx
          exact move rfl rfl rfl trivial
      case isFalse hmask =>
          cases hx
          rw [and_refs_mask] at hmask
          exact move rfl rfl rfl hmask
  | getCasRefs n refs =>
      cases a <;> try cases hx
      simp only [exec] at hx
      split at hx
      case isTrue hrefs =>
          cases hx
          subst hrefs
          exact ⟨_, _, h.getCasRefs hcard hi⟩
      case isFalse =>
          cases hx
          exact move rfl rfl rfl trivial
  | getLoadNext n =>
      cases a <;> cases hx
      exact move rfl rfl rfl rfl
  | getCasHead n next =>
      cases a <;> try cases hx
      simp only [exec] at hx
      split at hx
      case isTrue hhead =>
          cases hx
          obtain ⟨l', hl'⟩ := h.getCasHead hi hhead
          exact ⟨_, _, hl'⟩
      case isFalse =>
          cases hx
          exact move rfl rfl rfl trivial
  | getAssert n =>
      cases a <;> cases hx
      exact move rfl rfl rfl trivial
  | getSubTwo n =>
      cases a <;> try contradiction
      simp only [exec] at hx
      cases hx
      exact ⟨_, _, h.getSubTwo hcard hi⟩
  | getSubOne n head =>
      cases a <;> try contradiction
      simp only [exec] at hx
      split at hx
      case isTrue hr =>
          cases hx
          obtain ⟨μ, hμ⟩ := h.getSubOne hcard hi (if_pos hr).symm
          exact ⟨_, _, hμ⟩
      case isFalse hr =>
          cases hx
          obtain ⟨μ, hμ⟩ := h.getSubOne hcard hi (if_neg hr).symm
          exact ⟨_, _, hμ⟩

/-! ### What the invariant says to a caller -/

section Caller

omit [Fintype ι] [DecidableEq ι] [DecidableEq ν]

/-- The node `n` is in the hands of thread `i` alone: on no list, and no other
thread owns it, adds it or is about to return it. -/
def Exclusive (c : Conf ι (State ν ι) (PC ν)) (l : List ν) (i : ι) (n : ν) : Prop :=
  n ∉ l ∧ (∀ j, c.shared.owner n = some j → j = i) ∧
    ∀ j k, (c.locals j).busy = some (k, n) → j = i

/-- What the free list promises in a configuration whose list is `l`. -/
structure Sound (c : Conf ι (State ν ι) (PC ν)) (l : List ν) : Prop where
  /-- Following `freeListNext` from the head ends, and meets no node twice. -/
  list : IsList c.shared.freeListNext c.shared.freeListHead l
  nodup : l.Nodup
  /-- What `try_get` is about to return belongs to nobody yet. -/
  returned : ∀ i n, c.locals i = .getSubTwo n → c.shared.owner n = none ∧ Exclusive c l i n
  owned : ∀ i n, c.shared.owner n = some i →
    n ∉ l ∧ (∀ j k, (c.locals j).busy ≠ some (k, n))
  /-- The assertion after the successful CAS of the head. -/
  asserted : ∀ i n, c.locals i = .getAssert n →
    c.shared.freeListRefs n &&& SHOULD_BE_ON_FREELIST = 0
  /-- No link of a node on the list is about to be written. -/
  written : ∀ i n head k, c.locals i = .zeroStoreNext n head k → n ∉ l
  /-- With nothing in flight, the list holds what was added and not returned. -/
  quiescent : (∀ i, c.locals i = .idle) → ∀ n,
    (n ∈ l ↔ c.shared.owner n = none) ∧ (n ∈ l → c.shared.freeListRefs n = 1) ∧
      (n ∉ l → c.shared.freeListRefs n = 0)

theorem and_flag_eq_zero {r : Nat} (hr : r < 2 ^ 31) : r &&& SHOULD_BE_ON_FREELIST = 0 := by
  have h := Nat.and_two_pow r 31
  rw [Nat.testBit_lt_two_pow hr] at h
  simpa [SHOULD_BE_ON_FREELIST] using h

end Caller

omit [DecidableEq ι] in
/-- A node in a busy mode is exclusive to the busy thread. -/
theorem Inv.exclusive (h : Inv c mode l) {k : Kind} {n : ν} (hm : mode n = .busy k i) :
    c.shared.owner n = none ∧ Exclusive c l i n := by
  have hnone : ∀ j, c.shared.owner n ≠ some j := fun j e => by
    rw [h.owner, hm] at e
    exact nomatch e
  refine ⟨Option.eq_none_iff_forall_ne_some.mpr hnone, fun hmem => ?_,
    fun j e => absurd e (hnone j), fun j k' e => ?_⟩
  · rw [h.listed, hm] at hmem
    exact nomatch hmem
  · rw [h.busy, hm] at e
    exact (Mode.busy.inj e).2.symm

omit [DecidableEq ι] in
theorem Inv.quiescent (h : Inv c mode l) (hidle : ∀ i, c.locals i = .idle) (n : ν) :
    (n ∈ l ↔ c.shared.owner n = none) ∧ (n ∈ l → c.shared.freeListRefs n = 1) ∧
      (n ∉ l → c.shared.freeListRefs n = 0) := by
  have hzero : holders c.locals n = 0 :=
    Finset.sum_eq_zero fun i _ => by simp [hidle i, PC.holds, PC.held]
  have hr := h.refs n
  rw [hzero] at hr
  rw [h.listed]
  have howner : ∀ j, c.shared.owner n = some j ↔ mode n = .owned j := h.owner n
  -- with nothing in flight only the modes `owned` and `listed` remain
  cases hm : mode n with
  | owned i =>
      rw [hm] at hr
      simp [(howner i).mpr hm, hr, Mode.refs]
  | listed =>
      rw [hm] at hr
      have hnone : c.shared.owner n = none := by
        refine Option.eq_none_iff_forall_ne_some.mpr fun j e => ?_
        rw [howner, hm] at e
        exact nomatch e
      simp [hnone, hr, Mode.refs]
  | pending =>
      have := h.pending n hm
      omega
  | busy k i =>
      have := (h.busy i k n).mpr hm
      rw [hidle] at this
      exact nomatch this

omit [DecidableEq ι] in
theorem Inv.sound (h : Inv c mode l) (hcard : Fintype.card ι + 1 < 2 ^ 31) : Sound c l where
  list := h.list
  nodup := h.list.nodup
  returned i n hi := h.exclusive (h.mode_busy hi rfl)
  owned i n ho := by
    have hm := (h.owner n i).mp ho
    refine ⟨fun hmem => ?_, fun j k e => ?_⟩
    · rw [h.listed, hm] at hmem
      exact nomatch hmem
    · rw [h.busy, hm] at e
      exact nomatch e
  asserted i n hi := by
    have hm := h.mode_busy hi rfl
    have hlt := h.holders_lt hm
    have hr := h.refs n
    rw [hm] at hr
    simp only [Mode.refs] at hr
    exact and_flag_eq_zero (by omega)
  written i n head k hi := (h.exclusive (h.mode_busy hi rfl)).2.1
  quiescent := h.quiescent

/-- **The free list hands out each node to one thread at a time and loses
none**, for fewer than `2^31 - 1` threads, in every reachable configuration. -/
theorem reachable_sound_list (hcard : Fintype.card ι < 2 ^ 31 - 1)
    (hreach : (exec (ν := ν) (ι := ι)).Reachable Init c) : ∃ l, Sound c l := by
  have hinv : ∃ mode l, Inv c mode l := by
    refine hreach.invariant (I := fun c => ∃ mode l, Inv c mode l) (fun c h => inv_init h) ?_
    rintro c i a s l' ⟨mode, l, h⟩ hx
    exact h.step (by omega) hx
  obtain ⟨mode, l, h⟩ := hinv
  exact ⟨l, h.sound (by omega)⟩

/-! ### The limit on the number of threads -/

section Limit

/-- A node is on the list and the threads below `k` hold a reference to it. -/
def crowd (n k : Nat) : Conf (Fin n) (State Unit (Fin n)) (PC Unit) :=
  ⟨⟨some (), fun _ => 1 + k, fun _ => none, fun _ => none⟩,
    fun i => if i.val < k then .getLoadNext () else .idle⟩

theorem update_unit {β : Type*} (f : Unit → β) (x : β) : update f () x = fun _ => x :=
  funext fun _ => rfl

/-- The owner of the only node adds it to the empty list. -/
theorem crowd_zero {n : Nat} (hn : 0 < n) :
    (exec (ν := Unit) (ι := Fin n)).Reachable Init (crowd n 0) := by
  let fresh : State Unit (Fin n) := ⟨none, fun _ => 0, fun _ => none, fun _ => some ⟨0, hn⟩⟩
  let given : State Unit (Fin n) := { fresh with owner := fun _ => none }
  let flagged : State Unit (Fin n) := given.setRefs () (0 + SHOULD_BE_ON_FREELIST)
  have hstart : (exec (ν := Unit) (ι := Fin n)).Reachable Init ⟨fresh, fun _ => .idle⟩ :=
    .start ⟨rfl, fun _ => rfl, fun _ => rfl, fun _ => rfl, fun _ => rfl⟩
  have hsolo : (exec (ν := Unit) (ι := Fin n)).solo ⟨0, hn⟩ [.add (), .run, .run, .run, .run, .run]
      fresh .idle = some ((crowd n 0).shared, .idle) := by
    rw [Exec.solo_cons (r := (given, .addFlag ())) (by simp [exec, fresh, given, update_unit]),
      Exec.solo_cons (r := (flagged, .zeroLoadHead () .ret))
        (by simp only [exec, given, fresh, flagged, if_true]),
      Exec.solo_cons (r := (flagged, .zeroStoreNext () none .ret)) rfl,
      Exec.solo_cons (r := (flagged, .zeroStoreRefs () none .ret))
        (by simp [exec, flagged, given, fresh, State.setRefs, update_unit]),
      Exec.solo_cons (r := (given.setRefs () 1, .zeroCas () none .ret))
        (by simp [exec, flagged, State.setRefs]),
      Exec.solo_cons (r := ((crowd n 0).shared, .idle))
        (by simp [exec, given, fresh, State.setRefs, crowd, u32, Cont.pc, update_unit])]
    rfl
  refine hstart.run ([.add (), .run, .run, .run, .run, .run].map fun a => (⟨0, hn⟩, a)) ?_
  rw [Exec.run_solo, hsolo]
  simp [crowd]

/-- One more thread takes a reference. -/
theorem crowd_succ {n k : Nat} (hk : k < n) (hn : n < 2 ^ 31) :
    (exec (ν := Unit) (ι := Fin n)).run
      ([.tryGet, .run, .run, .run].map fun a => (⟨k, hk⟩, a)) (crowd n k) =
        some (crowd n (k + 1)) := by
  have hidle : (crowd n k).locals ⟨k, hk⟩ = .idle := by simp [crowd]
  have hmask : ¬ (1 + k) &&& REFS_MASK = 0 := by
    rw [and_refs_mask, SHOULD_BE_ON_FREELIST]
    omega
  have hfit : u32 (1 + k + 1) = 1 + (k + 1) := by
    unfold u32
    omega
  have hsolo : (exec (ν := Unit) (ι := Fin n)).solo ⟨k, hk⟩ [.tryGet, .run, .run, .run]
      (crowd n k).shared .idle = some ((crowd n (k + 1)).shared, .getLoadNext ()) := by
    rw [Exec.solo_cons (r := ((crowd n k).shared, .getLoadHead)) rfl,
      Exec.solo_cons (r := ((crowd n k).shared, .getLoadRefs ())) rfl,
      Exec.solo_cons (r := ((crowd n k).shared, .getCasRefs () (1 + k))) (if_neg hmask),
      Exec.solo_cons (r := ((crowd n (k + 1)).shared, .getLoadNext ())) ?_]
    · rfl
    · simp only [exec, crowd, if_true, State.setRefs, hfit, update_unit]
  rw [Exec.run_solo, hidle, hsolo]
  simp only [Option.map_some, Option.some.injEq]
  refine congrArg (Conf.mk _) (funext fun i => ?_)
  by_cases hi : i = ⟨k, hk⟩
  · subst hi
    simp [crowd]
  · have hne : i.val ≠ k := fun h => hi (Fin.ext h)
    rw [update_of_ne hi]
    simp only [crowd, show i.val < k + 1 ↔ i.val < k by omega]

theorem crowd_reachable {n k : Nat} (hn : 0 < n) (hk : k ≤ n) (hlt : n < 2 ^ 31) :
    (exec (ν := Unit) (ι := Fin n)).Reachable Init (crowd n k) := by
  induction k with
  | zero => exact crowd_zero hn
  | succ k ih => exact (ih (by omega)).run _ (crowd_succ (by omega) hlt)

/-- Two threads hold references to the one node on the list. -/
theorem crowd_two_sound : ∃ l, Sound (crowd 2 2) l :=
  reachable_sound_list (by simp) (crowd_reachable (by omega) le_rfl (by omega))

/-- With `2^31 - 1` threads the count can reach the flag: all of them hold a
reference to the one node on the list, and the assertion fails for the one
that takes it off. -/
theorem flag_reached_by_count :
    ∃ c : Conf (Fin (2 ^ 31 - 1)) (State Unit (Fin (2 ^ 31 - 1))) (PC Unit),
      exec.Reachable Init c ∧ ∃ i n, c.locals i = .getAssert n ∧
        c.shared.freeListRefs n &&& SHOULD_BE_ON_FREELIST ≠ 0 := by
  have hcrowd := crowd_reachable (n := 2 ^ 31 - 1) (k := 2 ^ 31 - 1) (by omega) le_rfl (by omega)
  let first : Fin (2 ^ 31 - 1) := ⟨0, by omega⟩
  have hfirst : (crowd (2 ^ 31 - 1) (2 ^ 31 - 1)).locals first = .getLoadNext () := by
    simp [crowd, first]
  have hrun := Exec.run_solo (x := exec (ν := Unit)) first [.run, .run]
    (crowd (2 ^ 31 - 1) (2 ^ 31 - 1))
  have hsolo : (exec (ν := Unit)).solo first [.run, .run]
      (crowd (2 ^ 31 - 1) (2 ^ 31 - 1)).shared (.getLoadNext ()) =
      some ({ (crowd (2 ^ 31 - 1) (2 ^ 31 - 1)).shared with freeListHead := none },
        .getAssert ()) := by
    rw [Exec.solo_cons (r := (_, .getCasHead () none)) rfl]
    simp [Exec.solo, exec, crowd]
  rw [hfirst, hsolo, Option.map_some] at hrun
  exact ⟨_, hcrowd.run _ hrun, first, (), by simp, by simp [crowd, SHOULD_BE_ON_FREELIST]⟩

end Limit

end ConcurrentQueue.FreeList
