import ConcurrentQueue.BulkCount

/-!
# ConcurrentQueue.BulkSingles

**A bulk enqueue succeeds exactly when the single enqueues would.** What the elements of
a call cost is computed from the budget of the producer (`Means.takeMany` for the
explicit producer, `Budget.acquireMany` for the implicit one), and the cost of several
elements is that of the first followed by that of the others. So the calls for the
elements one by one and the bulk call end with the same budget, or both fail.
-/

namespace ConcurrentQueue

open Wrap

variable {α : Type} {e : Env}

/-- Enqueue one element after the other, as long as that succeeds; whether all of the
calls did. -/
def enqueueEach {σ : Type} (enqueue : α → σ → Option (σ × Pushed)) :
    List α → σ → Option (σ × Bool)
  | [], s => some (s, true)
  | x :: xs, s => do
      let (s, r) ← enqueue x s
      if r = .returned true then enqueueEach enqueue xs s else some (s, false)

/-- The blocks that some elements need are those of the first and those of the others. -/
theorem needed_succ {B tail t t' : Nat} (ht : t = (tail - 1) / B + 1)
    (ht' : t' = (tail + 1 - 1) / B + 1) (n : Nat) :
    (tail + (n + 1) - 1) / B + 1 - t =
      (tail + 1 - 1) / B + 1 - t + ((tail + 1 + n - 1) / B + 1 - t') := by
  have hfirst : (tail - 1) / B ≤ (tail + 1 - 1) / B := Nat.div_le_div_right (by omega)
  have hrest : (tail + 1 - 1) / B ≤ (tail + (n + 1) - 1) / B := Nat.div_le_div_right (by omega)
  rw [show tail + 1 + n - 1 = tail + (n + 1) - 1 by omega]
  omega

section Face

variable {σ : Type} (f : Face e.bits α σ)

/-- Another state of the block pool, which is `ok`, and in which the blocks that the producer's
index refers to are `held` and as they were. -/
structure Repooled (ok : Mem α → Prop) (held : Mem α → Nat → Prop) (s : σ) (mem' : Mem α) :
    Prop where
  ok : ok mem'
  kept : ∀ i b, f.lookup s i = some b → held mem' b ∧ mem'.blocks b = (f.mem s).blocks b

/-- The bulk call and the single calls for `xs` on a queue of the elements `l` have the
same result; if they succeed they leave the same queue and have taken equally many blocks. -/
def LikeSingles (enqueueBulk : σ → Option (σ × Pushed)) (enqueueEach : σ → Option (σ × Bool))
    (xs l : List α) (s : σ) : Prop :=
  ∃ s₁ s₂ ok, enqueueBulk s = some (s₁, .returned ok) ∧ enqueueEach s = some (s₂, ok) ∧
    (ok = true → f.headIndex s₁ = f.headIndex s₂ ∧ f.tailIndex s₁ = f.tailIndex s₂ ∧
      f.Holds s₁ (l ++ xs) ∧ f.Holds s₂ (l ++ xs) ∧
      (f.mem s₁).freeBlocks e = (f.mem s₂).freeBlocks e ∧
      (f.mem s₁).created = (f.mem s₂).created)

variable {f} {enqueueBulk : σ → Option (σ × Pushed)} {enqueueEach : σ → Option (σ × Bool)}
  {xs l : List α} {s s₁ s₂ : σ}

/-- Both have succeeded at the same cost. -/
theorem likeSingles_of_shows {head k₁ k₂ : Nat} (h₁ : f.Shows s₁ head (l ++ xs))
    (h₂ : f.Shows s₂ head (l ++ xs)) (hbudget : budget e (f.mem s₁) k₁ = budget e (f.mem s₂) k₂)
    (hbulk : enqueueBulk s = some (s₁, .returned true)) (heach : enqueueEach s = some (s₂, true)) :
    LikeSingles f enqueueBulk enqueueEach xs l s :=
  ⟨s₁, s₂, true, hbulk, heach, fun _ => ⟨h₁.headIndex.trans h₂.headIndex.symm,
    h₁.tailIndex.trans h₂.tailIndex.symm, h₁.holds, h₂.holds, congrArg Budget.free hbudget,
    congrArg Budget.created hbudget⟩⟩

end Face

/-! ### The explicit producer -/

namespace Explicit

variable {st : State e.bits α} {v : View} {l : List α}

theorem Means.takeMany_add (mode : AllocationMode) (head m n : Nat) (μ : Means) :
    μ.takeMany e mode head (m + n) =
      (μ.takeMany e mode head m).bind (Means.takeMany e mode head n) := by
  induction m generalizing μ with
  | zero => rw [Nat.zero_add, Means.takeMany, Option.bind_some]
  | succ m ih =>
      rw [Nat.succ_add, Means.takeMany, Means.takeMany, Option.bind_assoc]
      exact Option.bind_congr fun μ' _ => ih μ'

theorem Inv.t_eq (h : Inv e st v l) : v.t = (v.tail - 1) / e.BLOCK_SIZE + 1 := by
  obtain ⟨-, hdecomp⟩ := h.tail_sub_one
  have hoff := e.offset_lt (st.prod.tailIndex - 1#e.bits)
  have hpos := h.taking.t_pos
  rw [hdecomp, block_div hoff]
  omega

/-- **Enqueuing one by one**: the calls succeed if the blocks for all the elements can be
had. -/
theorem Inv.enqueueEach (h : Inv e st v l) (mode : AllocationMode) {ctor : Ctor}
    (hquiet : ctor.throws 0 = false) (xs : List α) :
    ∃ st' ok, ConcurrentQueue.enqueueEach (Explicit.enqueue e mode ctor) xs st = some (st', ok) ∧
      (ok = true → ∃ v', Inv e st' v' (l ++ xs) ∧ v'.head = v.head ∧
        (v.means e st).takeMany e mode v.head (v.needed e xs.length) = some (v'.means e st')) ∧
      (ok = false →
        (v.means e st).takeMany e mode v.head (v.needed e xs.length) = none) := by
  induction xs generalizing st v l with
  | nil =>
      have hzero : v.needed e 0 = 0 := by
        rw [View.needed, h.t_eq]
        exact Nat.sub_self _
      refine ⟨st, true, rfl, fun _ => ⟨v, by rwa [List.append_nil], rfl, ?_⟩,
        fun hfalse => absurd hfalse.symm Bool.false_ne_true⟩
      rw [List.length_nil, hzero]
      rfl
  | cons x xs ih =>
      obtain ⟨st₁, r, hcall, htrue, hfalse, hthrew⟩ := h.enqueue mode ctor x
      simp only [ConcurrentQueue.enqueueEach, hcall, Option.bind_eq_bind, Option.bind_some]
      cases r with
      | threw => exact absurd ((hthrew rfl).1.symm.trans hquiet) (Ne.symm Bool.false_ne_true)
      | returned ok =>
          cases ok with
          | false =>
              refine ⟨st₁, false, if_neg (by simp), (absurd · Bool.false_ne_true), fun _ => ?_⟩
              have hle : v.needed e 1 ≤ v.needed e (x :: xs).length := by
                have : (v.tail + 1 - 1) / e.BLOCK_SIZE ≤
                    (v.tail + (x :: xs).length - 1) / e.BLOCK_SIZE :=
                  Nat.div_le_div_right (by rw [List.length_cons]; omega)
                rw [View.needed, View.needed]
                omega
              rw [← Nat.add_sub_cancel' hle, Means.takeMany_add, (hfalse rfl).2, Option.bind_none]
          | true =>
              obtain ⟨v₁, h₁, hhead₁, hcost₁⟩ := htrue rfl
              obtain ⟨st', ok, heach, hall, hsome⟩ := ih h₁
              have htail : v₁.tail = v.tail + 1 := by
                have hlen := h.len
                have hlen₁ := h₁.len
                rw [List.length_append, List.length_singleton] at hlen₁
                omega
              have hneed : v.needed e (x :: xs).length =
                  v.needed e 1 + v₁.needed e xs.length := by
                rw [View.needed, View.needed, View.needed, htail]
                exact needed_succ h.t_eq (by rw [h₁.t_eq, htail]) xs.length
              rw [hneed, Means.takeMany_add, hcost₁, Option.bind_some, ← hhead₁]
              refine ⟨st', ok, by rw [if_pos rfl]; exact heach, fun hok => ?_, hsome⟩
              obtain ⟨v', hinv, hhead, hcost⟩ := hall hok
              exact ⟨v', by simpa using hinv, hhead, hcost⟩

def Repooled (e : Env) : State e.bits α → Mem α → Prop :=
  ConcurrentQueue.Repooled (face e) (·.WellFormed e) (¬ ·.Free e ·)

theorem Inv.repool (h : Inv e st v l) {mem' : Mem α} (hpool : Repooled e st mem') :
    Inv e ⟨mem', st.prod⟩ v l := by
  have hkept : ∀ q, v.s ≤ q → q < v.t →
      ¬ mem'.Free e (v.β q) ∧ mem'.blocks (v.β q) = st.mem.blocks (v.β q) := by
    intro q hs ht
    have hdiv : q * e.BLOCK_SIZE / e.BLOCK_SIZE = q := Nat.mul_div_cancel _ e.BLOCK_SIZE_pos
    have hfound := h.lookup (n := q * e.BLOCK_SIZE) (by rwa [hdiv]) (by rwa [hdiv])
    rw [hdiv] at hfound
    exact hpool.kept _ _ hfound
  exact { h with
    ring := h.ring.frame hpool.ok (fun q hs ht => (hkept q hs ht).1)
      fun q hs ht => (hkept q hs ht).2 }

def LikeSingles (e : Env) (mode : AllocationMode) (ctor ctor' : Ctor) (xs l : List α) :
    State e.bits α → Prop :=
  ConcurrentQueue.LikeSingles (face e) (enqueueBulk e mode ctor xs)
    (enqueueEach (enqueue e mode ctor') xs) xs l

theorem Inv.likeSingles (h : Inv e st v l) (mode : AllocationMode) {ctor ctor' : Ctor}
    {xs : List α} (hquiet : ∀ j < xs.length, ctor.throws j = false)
    (hquiet' : ctor'.throws 0 = false) (hfits : Fits e st.prod.tailIndex xs.length)
    (hcorner : xs = [] → e.BLOCK_SIZE < 2 ^ (e.bits - 1)) :
    LikeSingles e mode ctor ctor' xs l st := by
  obtain ⟨st₁, r, hbulk, htrue, hfalse, hthrew⟩ := h.enqueueBulk mode ctor xs hfits hcorner
  obtain ⟨st₂, ok, heach, hall, hsome⟩ := h.enqueueEach mode hquiet' xs
  cases r with
  | threw =>
      obtain ⟨⟨j, hj, hthrow⟩, -⟩ := hthrew rfl
      exact absurd (hthrow.symm.trans (hquiet j hj)) nofun
  | returned ok' =>
      -- both results are told by the same cost
      have hok : ok' = ok := by
        cases ok' with
        | true =>
            obtain ⟨v₁, -, -, hcost⟩ := htrue rfl
            cases ok with
            | true => rfl
            | false => exact absurd ((hsome rfl).symm.trans hcost) nofun
        | false =>
            cases ok with
            | false => rfl
            | true =>
                obtain ⟨v₂, -, -, hcost⟩ := hall rfl
                exact absurd ((hfalse rfl).2.symm.trans hcost) nofun
      subst hok
      cases ok' with
      | false => exact ⟨st₁, st₂, false, hbulk, heach, nofun⟩
      | true =>
          obtain ⟨v₁, h₁, hhead₁, hcost₁⟩ := htrue rfl
          obtain ⟨v₂, h₂, hhead₂, hcost₂⟩ := hall rfl
          have hmeans := Option.some.inj (hcost₁.symm.trans hcost₂)
          exact likeSingles_of_shows (hhead₁ ▸ h₁.shows) (hhead₂ ▸ h₂.shows)
            (congrArg Means.budget hmeans) hbulk heach

end Explicit

/-! ### The implicit producer -/

namespace Implicit

variable {st : State e.bits α} {v : View} {l : List α}

theorem acquireMany_add (mode : AllocationMode) (head s m n t : Nat) (b : Budget) :
    b.acquireMany e mode head s (m + n) t =
      (b.acquireMany e mode head s m t).bind (Budget.acquireMany e mode head s n (t + m)) := by
  induction m generalizing t b with
  | zero => rw [Nat.zero_add, Nat.add_zero, Budget.acquireMany, Option.bind_some]
  | succ m ih =>
      rw [Nat.succ_add, Budget.acquireMany, Budget.acquireMany]
      split
      · rfl
      · rw [Option.bind_assoc]
        refine Option.bind_congr fun b' _ => ?_
        rw [ih, Nat.add_assoc, Nat.add_comm 1 m]

/-- A single element needs a block if it is the first of one. -/
theorem Inv.needed_one (h : Inv e st v l) :
    needed e v 1 = if v.tail % e.BLOCK_SIZE = 0 then 1 else 0 := by
  have hB := e.BLOCK_SIZE_pos
  rw [needed, Nat.add_sub_cancel]
  split
  case isTrue hal =>
      rw [h.aligned_iff.mp hal, Nat.mul_div_cancel _ hB]
      omega
  case isFalse hne =>
      have hdiv := (h.tail_block hne).2
      have hpos := h.stock.pos
      rw [hdiv]
      omega

/-- Room for one element. -/
theorem Inv.hasRoom_eq (h : Inv e st v l) (mode : AllocationMode) :
    hasRoom e mode st v = hasRoomFor e mode st v 1 := by
  rw [hasRoom, hasRoomFor, h.needed_one]
  by_cases hal : v.tail % e.BLOCK_SIZE = 0
  · rw [if_pos hal]
    have htail := h.aligned_iff.mp hal
    rw [h.headIndex, h.tailIndex, htail, Budget.acquireMany]
    cases full e (BitVec.ofNat e.bits v.head) (BitVec.ofNat e.bits (v.t * e.BLOCK_SIZE)) with
    | true => simp
    | false =>
        have hlast : ∀ b : Budget, Budget.acquireMany e mode v.head v.s 0 (v.t + 1) b = some b :=
          fun b => rfl
        simp only [hlast, Option.bind_fun_some, Nat.mul_mod_left, ne_eq, not_true_eq_false,
          decide_false, Bool.false_or, Bool.not_false, Bool.true_and, Bool.false_eq_true, if_false,
          Nat.one_ne_zero]
  · rw [if_neg hal]
    simp [hal]

/-- With an index, what counts is the cost. -/
theorem hasRoomFor_eq (mode : AllocationMode) (n : Nat)
    (hindex : st.prod.blockIndex.isSome = true) :
    hasRoomFor e mode st v n = ((budget e st.mem v.k).acquireMany e mode v.head v.s
      (needed e v n) v.t).isSome := by
  rw [hasRoomFor, hindex, Bool.true_and]
  by_cases hzero : needed e v n = 0
  · rw [hzero]
    rfl
  · rw [decide_eq_false hzero, Bool.false_or]

theorem Inv.indexed (h : Inv e st v l) (hst : v.s < v.t) :
    st.prod.blockIndex.isSome = true := by
  obtain ⟨hdr, hhdr, -⟩ := h.stock.exists_index hst
  rw [hhdr]
  rfl

/-- Where one element finds no room, several do not. -/
theorem Inv.hasRoomFor_of_not_hasRoom (h : Inv e st v l) {mode : AllocationMode}
    (hroom : hasRoom e mode st v = false) (n : Nat) :
    hasRoomFor e mode st v (n + 1) = false := by
  rw [h.hasRoom_eq, hasRoomFor, Bool.or_eq_false_iff, decide_eq_false_iff_not] at hroom
  have hle : needed e v 1 ≤ needed e v (n + 1) := by
    have : (v.tail + 1 - 1) / e.BLOCK_SIZE ≤ (v.tail + (n + 1) - 1) / e.BLOCK_SIZE :=
      Nat.div_le_div_right (by omega)
    rw [needed, needed]
    omega
  rw [hasRoomFor, Bool.or_eq_false_iff, decide_eq_false_iff_not]
  refine ⟨by omega, ?_⟩
  cases hindex : st.prod.blockIndex.isSome with
  | false => rfl
  | true =>
      rw [hindex, Bool.true_and, Option.isSome_eq_false_iff, Option.isNone_iff_eq_none] at hroom
      rw [Bool.true_and, ← Nat.add_sub_cancel' hle, acquireMany_add, hroom.2, Option.bind_none]
      rfl

/-- **Enqueuing one by one**: the calls succeed if the blocks for all the elements can be
had. -/
theorem Inv.enqueueEach (h : Inv e st v l) (mode : AllocationMode) {ctor : Ctor}
    (hquiet : ctor.throws 0 = false) (xs : List α) :
    ∃ st', ConcurrentQueue.enqueueEach (Implicit.enqueue e mode ctor) xs st =
        some (st', hasRoomFor e mode st v xs.length) ∧
      (hasRoomFor e mode st v xs.length = true → ∃ v', Inv e st' v' (l ++ xs) ∧
        v'.head = v.head ∧ (budget e st.mem v.k).acquireMany e mode v.head v.s
          (needed e v xs.length) v.t = some (budget e st'.mem v'.k)) := by
  induction xs generalizing st v l with
  | nil =>
      have hzero : needed e v 0 = 0 := needed_zero h
      refine ⟨st, by simp [ConcurrentQueue.enqueueEach, hasRoomFor, hzero], fun _ =>
        ⟨v, by rwa [List.append_nil], rfl, ?_⟩⟩
      rw [List.length_nil, hzero]
      rfl
  | cons x xs ih =>
      obtain ⟨st₁, v₁, hcall, h₁, hgrows, hcost⟩ := h.enqueue mode ctor x
      cases hroom : hasRoom e mode st v with
      | false =>
          rw [hroom] at hcall
          have hnone : hasRoomFor e mode st v (x :: xs).length = false :=
            h.hasRoomFor_of_not_hasRoom hroom xs.length
          refine ⟨st₁, ?_, fun hall => absurd (hnone.symm.trans hall) Bool.false_ne_true⟩
          rw [hnone]
          simp only [ConcurrentQueue.enqueueEach, hcall, Option.bind_eq_bind, Option.bind_some]
          rfl
      | true =>
          rw [hroom, hquiet] at hcall h₁
          have hcost := hcost hroom hquiet
          have h₁ : Inv e st₁ v₁ (l ++ [x]) := h₁
          obtain ⟨st', heach, hall⟩ := ih h₁
          have htail : v₁.tail = v.tail + 1 := by
            have hlen := h.len
            have hlen₁ := h₁.len
            rw [List.length_append, List.length_singleton, hgrows.head_eq] at hlen₁
            omega
          have ht₁ : v₁.t = v.t + needed e v 1 := by
            have hle : (v.tail - 1) / e.BLOCK_SIZE ≤ v.tail / e.BLOCK_SIZE :=
              Nat.div_le_div_right (by omega)
            rw [needed, h₁.t_eq, htail, h.t_eq, Nat.add_sub_cancel]
            omega
          have hneed : needed e v (x :: xs).length = needed e v 1 + needed e v₁ xs.length := by
            rw [needed, needed, needed, htail]
            exact needed_succ h.t_eq (by rw [h₁.t_eq, htail]) xs.length
          have hindex₁ : st₁.prod.blockIndex.isSome = true := by
            refine h₁.indexed (h₁.stock.le.lt_of_ne fun hst => ?_)
            exact absurd (h₁.of_no_block hst).1 (by simp)
          have hindex : st.prod.blockIndex.isSome = true := by
            rw [hasRoom, Bool.or_eq_true] at hroom
            rcases hroom with hin | hnew
            · exact h.indexed (h.tail_block (of_decide_eq_true hin)).1
            · simp only [Bool.and_eq_true] at hnew
              exact hnew.1.2
          -- the first element is paid for, and the others cost what they cost afterwards
          have hrest : (budget e st.mem v.k).acquireMany e mode v.head v.s
              (needed e v (x :: xs).length) v.t = (budget e st₁.mem v₁.k).acquireMany e mode
                v₁.head v₁.s (needed e v₁ xs.length) v₁.t := by
            rw [hneed, acquireMany_add, hcost, Option.bind_some, hgrows.head_eq, hgrows.s_eq, ht₁]
          have hsame : hasRoomFor e mode st v (x :: xs).length =
              hasRoomFor e mode st₁ v₁ xs.length := by
            rw [hasRoomFor_eq mode _ hindex, hasRoomFor_eq mode _ hindex₁, hrest]
          rw [hsame, hrest]
          refine ⟨st', ?_, fun hok => ?_⟩
          · simp only [ConcurrentQueue.enqueueEach, hcall, Option.bind_eq_bind, Option.bind_some]
            exact heach
          · obtain ⟨v', hinv, hhead, hpaid⟩ := hall hok
            exact ⟨v', by simpa using hinv, hhead.trans hgrows.head_eq, hpaid⟩

def Repooled (e : Env) : State e.bits α → Mem α → Prop :=
  ConcurrentQueue.Repooled (face e) (·.Accounted e) fun m b => b ∈ m.InUse e

theorem Inv.repool (h : Inv e st v l) {mem' : Mem α} (hpool : Repooled e st mem') :
    Inv e ⟨mem', st.prod⟩ v l := by
  have hkept : ∀ q, v.s ≤ q → q < v.t →
      v.β q ∈ mem'.InUse e ∧ mem'.blocks (v.β q) = st.mem.blocks (v.β q) := by
    intro q hs ht
    have hdiv : q * e.BLOCK_SIZE / e.BLOCK_SIZE = q := Nat.mul_div_cancel _ e.BLOCK_SIZE_pos
    obtain ⟨hdr, hhdr, -, hindex⟩ := h.stock.exists_index (by omega)
    have hslot := h.lookup (n := q * e.BLOCK_SIZE) (by rwa [hdiv]) (by rwa [hdiv])
    rw [hdiv] at hslot
    refine hpool.kept (BitVec.ofNat e.bits (q * e.BLOCK_SIZE)) _ ?_
    show Implicit.lookup e st _ = _
    rw [Implicit.lookup, hslot, Option.bind_some]
    exact hindex.loadValue hhdr hs ht rfl
  have hhas : Has e (window v.β v.s v.t) mem' := by
    refine ⟨hpool.ok, ?_⟩
    rintro b ⟨q, hs, ht, rfl⟩
    exact (hkept q hs ht).1
  exact { h with
    stock := { h.stock with
      has := hhas
      held := h.stock.held.frame hpool.ok.wellFormed (fun q hs ht => (hkept q hs ht).1.1)
        fun q hs ht => (hkept q hs ht).2 } }

def LikeSingles (e : Env) (mode : AllocationMode) (ctor ctor' : Ctor) (xs l : List α) :
    State e.bits α → Prop :=
  ConcurrentQueue.LikeSingles (face e) (enqueueBulk e mode ctor xs)
    (enqueueEach (enqueue e mode ctor') xs) xs l

theorem Inv.likeSingles (h : Inv e st v l) (mode : AllocationMode) {ctor ctor' : Ctor}
    {xs : List α} (hquiet : ∀ j < xs.length, ctor.throws j = false)
    (hquiet' : ctor'.throws 0 = false) (hfits : Fits e st.prod.tailIndex xs.length)
    (hcorner : xs = [] → e.BLOCK_SIZE < 2 ^ (e.bits - 1)) :
    LikeSingles e mode ctor ctor' xs l st := by
  obtain ⟨st₁, v₁, r, hbulk, hfalse, hthrew, h₁, hgrows, hcost₁⟩ :=
    h.enqueueBulk mode ctor xs (h.fits hfits) hcorner
  obtain ⟨st₂, heach, hall⟩ := h.enqueueEach mode hquiet' xs
  have hnot : r ≠ .threw := fun hr => by
    obtain ⟨-, j, hj, hthrow⟩ := hthrew.mp hr
    exact absurd (hthrow.symm.trans (hquiet j hj)) nofun
  cases hroom : hasRoomFor e mode st v xs.length with
  | false =>
      rw [hroom] at heach
      rw [hfalse.mpr hroom] at hbulk
      exact ⟨st₁, st₂, false, hbulk, heach, nofun⟩
  | true =>
      rw [hroom] at heach
      obtain rfl : r = .returned true := by
        cases r with
        | threw => exact absurd rfl hnot
        | returned ok =>
            cases ok with
            | true => rfl
            | false => exact absurd ((hfalse.mp rfl).symm.trans hroom) nofun
      obtain ⟨v₂, h₂, hhead₂, hcost₂⟩ := hall hroom
      rw [if_pos rfl] at h₁
      have hshows := h₁.shows
      rw [hgrows.head_eq] at hshows
      exact likeSingles_of_shows hshows (hhead₂ ▸ h₂.shows)
        (Option.some.inj ((hcost₁ rfl).symm.trans hcost₂)) hbulk heach

end Implicit

/-! ### Runs -/

open Explicit (tiny unused safe)
open Implicit (corner)

/-- **A bulk enqueue is as good as single enqueues**, in every state that calls whose
enqueues succeed lead to, and whatever the block pool looks like then. -/
theorem bulk_like_singles (mode : AllocationMode) {ctor ctor' : Ctor} {xs : List α}
    (hquiet : ∀ j < xs.length, ctor.throws j = false) (hquiet' : ctor'.throws 0 = false)
    (hlen : xs.length < 2 ^ (e.bits - 1))
    (hcorner : xs = [] → e.BLOCK_SIZE < 2 ^ (e.bits - 1)) :
    (∀ st tr mem', Run (Explicit.step e) (Explicit.Fresh e) (fun _ _ c o => c.Accepted o) st tr →
      Explicit.Repooled e st mem' →
      Explicit.LikeSingles e mode ctor ctor' xs tr.content ⟨mem', st.prod⟩) ∧
    ∀ st tr mem', Run (Implicit.step e) (Implicit.Fresh e) (fun _ _ c o => c.Accepted o) st tr →
      Implicit.Repooled e st mem' →
      Implicit.LikeSingles e mode ctor ctor' xs tr.content ⟨mem', st.prod⟩ := by
  have hfits : ∀ i : BitVec e.bits, e.offset i + xs.length < 2 ^ e.bits := fun i => by
    have hoff := e.offset_lt i
    have hB := e.BLOCK_SIZE_le
    have hhalf := e.two_pow_bits
    omega
  refine ⟨fun st tr mem' hrun hpool => ?_, fun st tr mem' hrun hpool => ?_⟩
  · obtain ⟨⟨v, hinv⟩, -⟩ :=
      Explicit.inv_of_run (fun _ _ _ _ _ _ hinv hstep hok => hinv.clean hstep hok) hrun
    exact (hinv.repool hpool).likeSingles mode hquiet hquiet' (hfits _) hcorner
  · obtain ⟨⟨v, hinv⟩, -⟩ :=
      Implicit.inv_of_run (fun _ _ _ _ _ _ hinv hstep hok => hinv.sized hstep hok) hrun
    exact (hinv.repool hpool).likeSingles mode hquiet hquiet' (hfits _) hcorner

instance (e : Env) (m : Mem α) (b : Nat) : Decidable (m.Free e b) :=
  inferInstanceAs (Decidable (_ ∨ _))

/-- Two elements behind one that is left over, the pool being as the producer left it. -/
theorem bulk_like_singles_tiny :
    (∃ st tr, Run (Explicit.step (tiny [])) (Explicit.Fresh (tiny []))
        (fun _ _ c o => c.Accepted o) st tr ∧ tr.content = [3] ∧
      Explicit.LikeSingles (tiny []) .canAlloc safe safe [4, 5] tr.content st) ∧
    ∃ st tr, Run (Implicit.step (tiny [])) (Implicit.Fresh (tiny []))
        (fun _ _ c o => c.Accepted o) st tr ∧ tr.content = [3] ∧
      Implicit.LikeSingles (tiny []) .canAlloc safe safe [4, 5] tr.content st := by
  have hquiet : ∀ j < [4, 5].length, safe.throws j = false := by decide
  have hquiet' : safe.throws 0 = false := by decide
  have hlike := bulk_like_singles (e := tiny []) .canAlloc hquiet hquiet' (by decide) nofun
  have hback : ∀ i : BitVec (tiny []).bits, BitVec.ofNat (tiny []).bits i.toNat = i := fun i => by
    rw [BitVec.ofNat_toNat, BitVec.setWidth_eq]
  constructor
  · obtain ⟨st, tr, hrun, hout⟩ := Explicit.exists_run (tiny []) (fun _ _ c o => c.Accepted o)
      [.enqueueBulk .canAlloc safe [1, 2, 3], .dequeueBulk 2#8 none]
      (fun r => (r.2.content, (List.range 256).all fun i =>
        (Explicit.lookup (tiny []) r.1.prod (BitVec.ofNat _ i)).all fun b =>
          decide (¬ r.1.mem.Free (tiny []) b))) (y := ([3], true)) (by decide +kernel)
    obtain ⟨hcontent, hkept⟩ := Prod.mk.inj hout
    obtain ⟨⟨v, hinv⟩, -⟩ :=
      Explicit.inv_of_run (fun _ _ _ _ _ _ hinv hstep hok => hinv.clean hstep hok) hrun
    refine ⟨st, tr, hrun, hcontent, hlike.1 st tr st.mem hrun ⟨hinv.ring.wellFormed, ?_⟩⟩
    intro i b hb
    have hi := List.all_eq_true.mp hkept i.toNat (List.mem_range.mpr i.isLt)
    rw [hback, show Explicit.lookup _ st.prod i = some b from hb] at hi
    exact ⟨of_decide_eq_true hi, rfl⟩
  · obtain ⟨st, tr, hrun, hout⟩ := Implicit.exists_run (tiny []) (fun _ _ c o => c.Accepted o)
      [.enqueueBulk .canAlloc safe [1, 2, 3], .dequeueBulk 2#8 none]
      (fun r => (r.2.content, (List.range 256).all fun i =>
        (Implicit.lookup (tiny []) r.1 (BitVec.ofNat _ i)).all fun b =>
          decide (¬ r.1.mem.Free (tiny []) b ∧ b ∉ r.1.mem.destroyed))) (y := ([3], true))
      (by decide +kernel)
    obtain ⟨hcontent, hkept⟩ := Prod.mk.inj hout
    obtain ⟨⟨v, hinv⟩, -⟩ :=
      Implicit.inv_of_run (fun _ _ _ _ _ _ hinv hstep hok => hinv.sized hstep hok) hrun
    refine ⟨st, tr, hrun, hcontent, hlike.2 st tr st.mem hrun ⟨hinv.stock.has.accounted, ?_⟩⟩
    intro i b hb
    have hi := List.all_eq_true.mp hkept i.toNat (List.mem_range.mpr i.isLt)
    rw [hback, show Implicit.lookup _ st i = some b from hb] at hi
    exact ⟨(decide_eq_true_iff.mp hi : _ ∧ _), rfl⟩

/-- Where one block takes half the index range, the bulk call of nothing faults and the
absence of single calls does not. -/
theorem empty_bulk_unlike_singles : ([] : List Nat).length < 2 ^ (corner.bits - 1) ∧
    (∃ st : Explicit.State corner.bits Nat, Explicit.Fresh corner st ∧
      Explicit.enqueueBulk corner .canAlloc safe [] st = none ∧
      enqueueEach (Explicit.enqueue corner .canAlloc safe) [] st = some (st, true)) ∧
    ∃ st : Implicit.State corner.bits Nat, Implicit.Fresh corner st ∧
      Implicit.enqueueBulk corner .canAlloc safe [] st = none ∧
      enqueueEach (Implicit.enqueue corner .canAlloc safe) [] st = some (st, true) := by
  refine ⟨by decide, ?_, ?_⟩
  · have h : ((Explicit.create corner unused).map fun st =>
        (Explicit.enqueueBulk corner .canAlloc safe [] st).isNone) = some true := by
      decide +kernel
    obtain ⟨st, hst, hnone⟩ := Option.map_eq_some_iff.mp h
    exact ⟨st, ⟨unused, Explicit.unused_wellFormed _, hst⟩, Option.isNone_iff_eq_none.mp hnone, rfl⟩
  · have h : ((Implicit.create corner unused).map fun st =>
        (Implicit.enqueueBulk corner .canAlloc safe [] st).isNone) = some true := by
      decide +kernel
    obtain ⟨st, hst, hnone⟩ := Option.map_eq_some_iff.mp h
    exact ⟨st, ⟨unused, Implicit.unused_accounted _, hst⟩, Option.isNone_iff_eq_none.mp hnone, rfl⟩

end ConcurrentQueue
