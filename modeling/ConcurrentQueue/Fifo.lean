import ConcurrentQueue.BlockWalk

/-!
# ConcurrentQueue.Fifo

**What a producer is for**: a list, to which enqueuing appends and from which
dequeuing takes. `Call.after` is the list after a call, `Call.Delivers` says
which outcome a call on a list may have, and `Run` has the runs of a producer,
one call after the other, with the list that belongs to each state.
-/

namespace ConcurrentQueue

variable {α : Type} {w : Nat}

/-- What comes of taking `n` elements from the front when the assignment of
element `throwsAt` throws, if it is among them. -/
def Popped.ofList (throwsAt : Option Nat) (n : Nat) (l : List α) : Popped α :=
  match throwsAt with
  | some j => if j < n then .threw (l.take j) else .returned n (l.take n)
  | none => .returned n (l.take n)

theorem Popped.ofList_quiet {throwsAt : Option Nat} {n : Nat} {l : List α}
    (h : ∀ j < n, throwsAt ≠ some j) : ofList throwsAt n l = .returned n (l.take n) := by
  cases throwsAt with
  | none => rfl
  | some j => exact if_neg fun hj => h j hj rfl

theorem Popped.ofList_take (throwsAt : Option Nat) (n : Nat) (l : List α) :
    ofList throwsAt n (l.take n) = ofList throwsAt n l := by
  cases throwsAt with
  | none => rw [ofList, ofList, List.take_take, Nat.min_self]
  | some j =>
      rw [ofList, ofList]
      split
      · rename_i hj
        rw [List.take_take, Nat.min_eq_left hj.le]
      · rw [List.take_take, Nat.min_self]

/-- A throw, or the first `n` elements. -/
theorem Popped.ofList_cases (throwsAt : Option Nat) (n : Nat) (l : List α) :
    (∃ j < n, throwsAt = some j ∧ ofList throwsAt n l = .threw (l.take j)) ∨
      (∀ j < n, throwsAt ≠ some j) ∧ ofList throwsAt n l = .returned n (l.take n) := by
  by_cases h : ∃ j < n, throwsAt = some j
  · obtain ⟨j, hj, rfl⟩ := h
    exact .inl ⟨j, hj, rfl, if_pos hj⟩
  · have hquiet : ∀ j < n, throwsAt ≠ some j := fun j hj hthrow => h ⟨j, hj, hthrow⟩
    exact .inr ⟨hquiet, ofList_quiet hquiet⟩

/-- A bulk dequeue ends in the same state whichever of its assignments throws. -/
theorem Walk.drainBlocks_popped {e : Env} {σ : Type} {W : Walk e α σ} {last slot i : BitVec e.bits}
    {xs : List α} {s s' : σ} {threw : Bool}
    (h : W.drainBlocks none last (2 ^ e.bits) slot i 0 s = some (xs, s', threw))
    (throwsAt : Option Nat) :
    ∃ ys threw, W.drainBlocks throwsAt last (2 ^ e.bits) slot i 0 s = some (ys, s', threw) ∧
      Popped.ofList throwsAt xs.length xs =
        if threw then .threw ys else .returned xs.length ys := by
  rcases Popped.ofList_cases throwsAt xs.length xs with ⟨j, hj, rfl, hout⟩ | ⟨hquiet, hout⟩
  · refine ⟨_, _, drainBlocksUntil_throw h le_rfl hj.le (fun r hr heq => ?_)
      (.inr (by rw [Nat.zero_add])), ?_⟩
    · rw [Nat.zero_add] at heq
      exact hr.ne' (Option.some.inj heq)
    · rw [hout, decide_eq_true hj, if_pos rfl]
  · refine ⟨_, _, drainBlocksUntil_throw h le_rfl le_rfl
      (fun r hr => by rw [Nat.zero_add]; exact hquiet r hr) (.inl rfl), ?_⟩
    rw [hout, decide_eq_false (lt_irrefl _), if_neg Bool.false_ne_true]

/-- How many elements a call takes that asks for `max` of them. A queue with half
the index range or more looks empty. -/
def takes (w max : Nat) (l : List α) : Nat :=
  if l.length < 2 ^ (w - 1) then min max l.length else 0

theorem takes_le (max : Nat) (l : List α) : takes w max l ≤ l.length := by
  unfold takes
  split
  · exact Nat.min_le_right ..
  · exact Nat.zero_le _

theorem takes_of_lt {max : Nat} {l : List α} (h : l.length < 2 ^ (w - 1)) :
    takes w max l = min max l.length := if_pos h

/-! ### Counts -/

section Counts

variable {e : Env}

theorem positive_iff {n : Nat} (hn : n ≤ 2 ^ (e.bits - 1)) :
    circularLessThan 0#e.bits (BitVec.ofNat e.bits n) = true ↔ 0 < n ∧ n < 2 ^ (e.bits - 1) := by
  have hhalf := e.two_pow_bits
  have hpos := Nat.two_pow_pos (e.bits - 1)
  have := circularLessThan_ofNat e.bits_pos (Nat.zero_le n) (show n - 0 < 2 ^ e.bits by omega)
  simpa using this

/-- The smaller of two counts. -/
theorem min_ofNat {n : Nat} (hn : n < 2 ^ e.bits) (max : BitVec e.bits) :
    (if BitVec.ofNat e.bits n < max then BitVec.ofNat e.bits n else max) =
      BitVec.ofNat e.bits (min max.toNat n) := by
  apply BitVec.eq_of_toNat_eq
  have hmin : min max.toNat n < 2 ^ e.bits := by omega
  have hval : (BitVec.ofNat e.bits n).toNat = n := by rw [BitVec.toNat_ofNat, Nat.mod_eq_of_lt hn]
  rw [BitVec.toNat_ofNat, Nat.mod_eq_of_lt hmin]
  split
  case isTrue hlt =>
      rw [BitVec.lt_def, hval] at hlt
      rw [hval]
      omega
  case isFalse hge =>
      rw [BitVec.lt_def, hval] at hge
      omega

end Counts

namespace Call

/-- The values a call hands to the queue. -/
def values : Call w α → List α
  | .enqueue _ _ x => [x]
  | .enqueueBulk _ _ xs => xs
  | .dequeue _ | .dequeueBulk .. => []

/-- How many elements a call asks for. -/
def max : Call w α → Nat
  | .enqueue .. | .enqueueBulk .. => 0
  | .dequeue _ => 1
  | .dequeueBulk max _ => max.toNat

/-- The element whose assignment throws. -/
def throwsAt : Call w α → Option Nat
  | .enqueue .. | .enqueueBulk .. => none
  | .dequeue throws => if throws then some 0 else none
  | .dequeueBulk _ throwsAt => throwsAt

def isEnqueue : Call w α → Bool
  | .enqueue .. | .enqueueBulk .. => true
  | .dequeue _ | .dequeueBulk .. => false

/-- The constructors of a call behave like this. -/
def ctor : Call w α → Ctor
  | .enqueue _ c _ | .enqueueBulk _ c _ => c
  | .dequeue _ | .dequeueBulk .. => ⟨true, none⟩

/-- The list after a call with the given outcome. -/
def after (c : Call w α) (o : Outcome α) (l : List α) : List α :=
  if c.isEnqueue then
    match o with
    | .pushed (.returned true) => l ++ c.values
    | _ => l
  else l.drop (takes w c.max l)

theorem after_failed {c : Call w α} {o : Outcome α} {l : List α} (henq : c.isEnqueue = true)
    (hfail : o ≠ .pushed (.returned true)) : c.after o l = l := by
  unfold after
  rw [if_pos henq]
  split
  · exact absurd rfl hfail
  · rfl

/-- The outcomes a call on the list `l` may have. -/
def Delivers (c : Call w α) (l : List α) (o : Outcome α) : Prop :=
  if c.isEnqueue then ∃ r, o = .pushed r
  else o = .popped (.ofList c.throwsAt (takes w c.max l) l)

/-- No constructor and no assignment of the call throws. -/
def Quiet (c : Call w α) : Prop :=
  (∀ j < c.values.length, c.ctor.throws j = false) ∧ c.throwsAt = none

instance (c : Call w α) : Decidable c.Quiet := inferInstanceAs (Decidable (_ ∧ _))

/-- An enqueue succeeds, and its count is a `size_t`. -/
def Accepted (c : Call w α) (o : Outcome α) : Prop :=
  (c.isEnqueue = true → o = .pushed (.returned true)) ∧
    (∀ j < c.values.length, c.ctor.throws j = false) ∧ c.values.length < 2 ^ w

instance (c : Call w α) (o : Outcome α) [DecidableEq α] : Decidable (c.Accepted o) :=
  inferInstanceAs (Decidable (_ ∧ _))

end Call

/-! ### Runs -/

/-- The values a call has enqueued. -/
def Call.pushed (c : Call w α) : Outcome α → List α
  | .pushed (.returned true) => c.values
  | _ => []

/-- The values a call has delivered. -/
def Outcome.delivered : Outcome α → List α
  | .pushed _ => []
  | .popped (.returned _ xs) | .popped (.threw xs) => xs

/-- The calls made so far with their outcomes. -/
abbrev Trace (w : Nat) (α : Type) := List (Call w α × Outcome α)

namespace Trace

/-- Everything that has been enqueued. -/
def sent (tr : Trace w α) : List α := tr.flatMap fun ev => ev.1.pushed ev.2

/-- Everything that has been delivered. -/
def got (tr : Trace w α) : List α := tr.flatMap fun ev => ev.2.delivered

/-- The list the queue stands for. -/
def content (tr : Trace w α) : List α := tr.foldl (fun l ev => ev.1.after ev.2 l) []

theorem content_append (tr : Trace w α) (c : Call w α) (o : Outcome α) :
    content (tr ++ [(c, o)]) = c.after o (content tr) := by
  simp [content]

theorem sent_append (tr : Trace w α) (c : Call w α) (o : Outcome α) :
    sent (tr ++ [(c, o)]) = sent tr ++ c.pushed o := by
  simp [sent]

theorem got_append (tr : Trace w α) (c : Call w α) (o : Outcome α) :
    got (tr ++ [(c, o)]) = got tr ++ o.delivered := by
  simp [got]

end Trace

section Run

variable {σ : Type} (step : Call w α → σ → Option (σ × Outcome α)) (init : σ → Prop)
  (ok : List α → σ → Call w α → Outcome α → Prop)

/-- The runs from an initial state in which every call meets `ok`, a condition on
the list and the state before the call. -/
inductive Run : σ → Trace w α → Prop
  | start {s : σ} : init s → Run s []
  | call {s s' : σ} {tr : Trace w α} {c : Call w α} {o : Outcome α} : Run s tr →
      step c s = some (s', o) → ok tr.content s c o → Run s' (tr ++ [(c, o)])

variable {step init ok}

/-- The rule of runs: what holds at the start and is kept by each call. -/
theorem Run.invariant {P : σ → List α → Prop} (hstart : ∀ s, init s → P s [])
    (hcall : ∀ s s' l c o, P s l → step c s = some (s', o) → ok l s c o → P s' (c.after o l))
    {s : σ} {tr : Trace w α} (h : Run step init ok s tr) : P s tr.content := by
  induction h with
  | start hinit => exact hstart _ hinit
  | call _ hstep hok ih =>
      rw [Trace.content_append]
      exact hcall _ _ _ _ _ ih hstep hok

/-- A run of calls each of which is one of another kind. -/
theorem Run.of_step {step' : Call w α → σ → Option (σ × Outcome α)}
    (hstep : ∀ {c s s' o}, step c s = some (s', o) → step' c s = some (s', o)) {s : σ}
    {tr : Trace w α} (h : Run step init ok s tr) : Run step' init ok s tr := by
  induction h with
  | start hinit => exact .start hinit
  | call _ hcall hok ih => exact .call ih (hstep hcall) hok

/-- Calls of a run meet any condition that follows from an invariant. -/
theorem Run.imp {P : σ → List α → Prop} {ok' : List α → σ → Call w α → Outcome α → Prop}
    (hstart : ∀ s, init s → P s [])
    (hcall : ∀ s s' l c o, P s l → step c s = some (s', o) → ok l s c o → P s' (c.after o l))
    (himp : ∀ s s' l c o, P s l → step c s = some (s', o) → ok l s c o → ok' l s c o)
    {s : σ} {tr : Trace w α} (h : Run step init ok s tr) : Run step init ok' s tr := by
  induction h with
  | start hinit => exact .start hinit
  | call hrun hstep hok ih =>
      exact .call ih hstep (himp _ _ _ _ _ (hrun.invariant hstart hcall) hstep hok)

theorem Run.forall_mem {P : Call w α → Outcome α → Prop} (hok : ∀ l s c o, ok l s c o → P c o)
    {s : σ} {tr : Trace w α} (h : Run step init ok s tr) : ∀ ev ∈ tr, P ev.1 ev.2 := by
  induction h with
  | start _ => exact nofun
  | call _ _ hmeets ih =>
      intro ev hev
      rcases List.mem_append.mp hev with hold | hnew
      · exact ih ev hold
      · obtain rfl := List.mem_singleton.mp hnew
        exact hok _ _ _ _ hmeets

/-- Where each call delivers what the list has to offer, and no assignment throws,
the values delivered and the list together are the values enqueued. -/
theorem Run.sent_eq (hok : ∀ l s c o, ok l s c o → c.Delivers l o) {s : σ} {tr : Trace w α}
    (h : Run step init ok s tr) (hquiet : ∀ ev ∈ tr, ev.1.throwsAt = none) :
    tr.sent = tr.got ++ tr.content := by
  induction h with
  | start _ => rfl
  | @call s s' tr c o _ _ hmeets ih =>
      have hdel := hok _ _ _ _ hmeets
      rw [Trace.sent_append, Trace.got_append, Trace.content_append,
        ih fun ev hev => hquiet ev (List.mem_append_left _ hev)]
      unfold Call.Delivers at hdel
      unfold Call.after
      cases hc : c.isEnqueue with
      | true =>
          rw [hc, if_pos rfl] at hdel
          obtain ⟨r, rfl⟩ := hdel
          cases r with
          | threw => simp [Call.pushed, Outcome.delivered]
          | returned ok => cases ok <;> simp [Call.pushed, Outcome.delivered]
      | false =>
          rw [hc] at hdel
          simp only [Bool.false_eq_true, if_false] at hdel
          rw [hdel, hquiet (c, o) (List.mem_append_right _ (List.mem_singleton_self _))]
          simp [Call.pushed, Outcome.delivered, Popped.ofList]

/-! ### Carrying calls out -/

variable [∀ l s c o, Decidable (ok l s c o)]

variable (step ok) in
/-- Make the calls one after the other, as long as each meets `ok`. -/
def exec : List (Call w α) → σ → Trace w α → Option (σ × Trace w α)
  | [], s, tr => some (s, tr)
  | c :: calls, s, tr => do
      let (s', o) ← step c s
      if ok tr.content s c o then exec calls s' (tr ++ [(c, o)]) else none

theorem Run.exec {calls : List (Call w α)} {s s' : σ} {tr tr' : Trace w α}
    (h : Run step init ok s tr) (hexec : exec step ok calls s tr = some (s', tr')) :
    Run step init ok s' tr' := by
  induction calls generalizing s tr with
  | nil =>
      cases hexec
      exact h
  | cons c calls ih =>
      rw [ConcurrentQueue.exec, Option.bind_eq_bind, Option.bind_eq_some_iff] at hexec
      obtain ⟨⟨s₁, o⟩, hstep, hrest⟩ := hexec
      simp only [Option.ite_none_right_eq_some] at hrest
      exact ih (h.call hstep hrest.1) hrest.2

end Run

end ConcurrentQueue
