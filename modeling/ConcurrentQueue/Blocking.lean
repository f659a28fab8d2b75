import Mathlib.Data.Multiset.AddSub
import ConcurrentQueue.Lib.Interleaving

/-!
# ConcurrentQueue.Blocking

The **blocking queue** (`blockingconcurrentqueue.h`): an inner queue and a
semaphore whose permits stand for elements. Every public method pairs one inner
operation with one semaphore operation, elements first when enqueuing and
permits first when dequeuing.

At this level the inner queue is a multiset. Its dequeues may find nothing even
when it is not empty, and its bulk dequeues may return fewer elements than
asked for. The semaphore is an atomic counter that a waiting call may also
leave empty-handed. The token overloads run the same code as the plain ones and
differ only in which inner overload they call, so they are the same `Call`.

**A permit always has an element behind it**: `Inv.balance` counts the elements
of the inner queue exactly, as the free permits, plus the elements enqueued but
not yet signalled, plus what the dequeues in flight are still owed.
-/

namespace ConcurrentQueue.Blocking

open Interleaving

variable {α : Type*}

/-! ### The methods -/

/-- A public method with its arguments. `w` below is the width of `size_t`. -/
inductive Call (α : Type*)
  | enqueue (item : α)
  | tryEnqueue (item : α)
  | enqueueBulk (items : List α)
  | tryEnqueueBulk (items : List α)
  | tryDequeue
  | waitDequeue
  | waitDequeueTimed
  | tryDequeueBulk (max : Nat)
  | waitDequeueBulk (max : Nat)
  | waitDequeueBulkTimed (max : Nat)
  deriving DecidableEq, Repr

namespace Call

/-- What an enqueue method hands to the inner queue. -/
def items : Call α → List α
  | enqueue x | tryEnqueue x => [x]
  | enqueueBulk xs | tryEnqueueBulk xs => xs
  | _ => []

/-- How many permits a dequeue method asks for. -/
def max : Call α → Nat
  | tryDequeue | waitDequeue | waitDequeueTimed => 1
  | tryDequeueBulk m | waitDequeueBulk m | waitDequeueBulkTimed m => m
  | _ => 0

/-- `while (!sema->wait()) continue;` -/
def retries : Call α → Bool
  | waitDequeue => true
  | _ => false

/-- The assertions `static_cast<ssize_t>(count) >= 0` of the bulk methods. -/
def Asserted (w : Nat) (c : Call α) : Prop :=
  c.items.length < 2 ^ (w - 1) ∧ c.max < 2 ^ (w - 1)

instance (w : Nat) (c : Call α) : Decidable (c.Asserted w) := by
  unfold Asserted
  infer_instance

end Call

inductive PC (α : Type*)
  | idle
  /-- Before the inner enqueue. -/
  | inner (c : Call α)
  /-- The inner enqueue succeeded; `sema->signal(n)` is next. -/
  | signal (n : Nat)
  /-- Before the semaphore operation of a dequeue method. -/
  | acquire (c : Call α)
  /-- The spin loop of a dequeue method: `max` permits, `out` delivered so far. -/
  | deliver (c : Call α) (max : Nat) (out : List α)
  deriving DecidableEq, Repr

def Call.start : Call α → PC α
  | c@(enqueue _) | c@(tryEnqueue _) | c@(enqueueBulk _) | c@(tryEnqueueBulk _) => .inner c
  | c => .acquire c

/-- A dequeue method that has returned: the permits it took and what it
delivered. -/
structure Returned (α : Type*) where
  call : Call α
  permits : Nat
  delivered : List α
  deriving DecidableEq, Repr

structure State (α : Type*) where
  inner : Multiset α
  count : Nat
  returned : List (Returned α)

/-- `size_approx()`: the available permits, cast to `size_t`. -/
def State.sizeApprox (w : Nat) (s : State α) : Nat := s.count % 2 ^ w

/-- What the environment decides: the call, whether the inner enqueue succeeds,
how many permits the semaphore grants, which elements the inner queue finds. -/
inductive Act (α : Type*)
  | call (c : Call α)
  | run
  | fail
  | take (k : Nat)
  | give (xs : List α)
  deriving DecidableEq, Repr

/-- One atomic step. -/
def exec {ι : Type*} [DecidableEq α] (w : Nat) : Exec ι (Act α) (State α) (PC α)
  | _, .call c, s, .idle => if c.Asserted w then some (s, c.start) else none
  | _, .run, s, .inner c =>
      some ({ s with inner := s.inner + c.items }, .signal c.items.length)
  | _, .fail, s, .inner _ => some (s, .idle)
  | _, .run, s, .signal n => some ({ s with count := s.count + n }, .idle)
  | _, .take k, s, .acquire c =>
      if k ≤ c.max ∧ k ≤ s.count then
        if k = 0 ∧ c.retries then some (s, .acquire c)
        else some ({ s with count := s.count - k }, .deliver c k [])
      else none
  | _, .give xs, s, .deliver c max out =>
      if out.length ≠ max ∧ xs.length ≤ max - out.length ∧ (xs : Multiset α) ≤ s.inner then
        some ({ s with inner := s.inner - xs }, .deliver c max (out ++ xs))
      else none
  | _, .run, s, .deliver c max out =>
      if out.length = max then
        some ({ s with returned := ⟨c, max, out⟩ :: s.returned }, .idle)
      else none
  | _, _, _, _ => none

/-- A new queue: no element, no permit, nobody calling. -/
def Init {ι : Type*} (c : Conf ι (State α) (PC α)) : Prop :=
  c.shared = ⟨0, 0, []⟩ ∧ ∀ i, c.locals i = .idle

/-! ### The balance -/

namespace PC

/-- Elements in the inner queue that have not been signalled yet. -/
def unsignalled : PC α → Nat
  | signal n => n
  | _ => 0

/-- Permits taken and not yet matched by an element. -/
def owed : PC α → Nat
  | deliver _ max out => max - out.length
  | _ => 0

@[simp] theorem unsignalled_idle : (idle : PC α).unsignalled = 0 := rfl
@[simp] theorem owed_idle : (idle : PC α).owed = 0 := rfl

end PC

/-- A dequeue never delivers more than its permits. -/
def LocalOk : PC α → Prop
  | .deliver _ max out => out.length ≤ max
  | _ => True

/-- Every dequeue that returned delivered one element for each permit. -/
def ReturnedOk (s : State α) : Prop := ∀ r ∈ s.returned, r.delivered.length = r.permits

/-- One step keeps the balance, as far as the moving thread is concerned. -/
theorem exec_balance {ι : Type*} [DecidableEq α] {w : Nat} {i : ι} {a : Act α} {s : State α}
    {l : PC α} {r : State α × PC α} (h : exec w i a s l = some r) (hl : LocalOk l)
    (hs : ReturnedOk s) :
    r.1.inner.card + s.count + l.unsignalled + l.owed =
      s.inner.card + r.1.count + r.2.unsignalled + r.2.owed ∧
      LocalOk r.2 ∧ ReturnedOk r.1 := by
  cases l with
  | idle =>
      cases a <;> simp only [exec, reduceCtorEq] at h
      split at h <;> cases h
      rename_i c _
      cases c <;> exact ⟨rfl, trivial, hs⟩
  | inner c =>
      cases a <;> simp only [exec, reduceCtorEq] at h <;> cases h
      · refine ⟨?_, trivial, hs⟩
        simp only [PC.unsignalled, PC.owed, Multiset.card_add, Multiset.coe_card]
        omega
      · exact ⟨rfl, trivial, hs⟩
  | signal n =>
      cases a <;> simp only [exec, reduceCtorEq] at h
      cases h
      refine ⟨?_, trivial, hs⟩
      simp only [PC.unsignalled, PC.owed]
      omega
  | acquire c =>
      cases a <;> simp only [exec, reduceCtorEq] at h
      split at h
      case isTrue hk =>
        split at h <;> cases h
        · exact ⟨rfl, trivial, hs⟩
        · refine ⟨?_, by simp [LocalOk], hs⟩
          simp only [PC.unsignalled, PC.owed, List.length_nil]
          omega
      case isFalse => cases h
  | deliver c max out =>
      simp only [LocalOk] at hl
      cases a <;> simp only [exec, reduceCtorEq] at h
      · split at h <;> cases h
        rename_i hlen
        refine ⟨?_, trivial, ?_⟩
        · simp only [PC.unsignalled, PC.owed]
          omega
        · intro x hx
          simp only [List.mem_cons] at hx
          rcases hx with rfl | hx
          · exact hlen
          · exact hs x hx
      · split at h <;> cases h
        rename_i xs hxs
        obtain ⟨-, hlen, hle⟩ := hxs
        -- the inner queue loses exactly the elements the dequeue delivers
        have hcard := Multiset.card_le_card hle
        have hsub := Multiset.card_sub hle
        simp only [Multiset.coe_card] at hcard hsub
        refine ⟨?_, ?_, hs⟩
        · simp only [PC.unsignalled, PC.owed, List.length_append]
          omega
        · simp only [LocalOk, List.length_append]
          omega

variable {ι : Type*} [Fintype ι]

structure Inv (c : Conf ι (State α) (PC α)) : Prop where
  balance : c.shared.inner.card =
    c.shared.count + (∑ i, (c.locals i).unsignalled) + ∑ i, (c.locals i).owed
  localOk : ∀ i, LocalOk (c.locals i)
  returnedOk : ReturnedOk c.shared

theorem inv_reachable [DecidableEq ι] [DecidableEq α] {w : Nat} {c : Conf ι (State α) (PC α)}
    (h : (exec w).Reachable Init c) : Inv c := by
  refine h.invariant ?_ ?_
  · rintro c ⟨hs, hl⟩
    refine ⟨by simp [hs, hl], fun i => ?_, by simp [ReturnedOk, hs]⟩
    rw [hl i]
    trivial
  · intro c i a s l hinv hx
    obtain ⟨hbal, hlocal, hret⟩ := exec_balance hx (hinv.localOk i) hinv.returnedOk
    have hun := sum_update_add PC.unsignalled c.locals i l
    have how := sum_update_add PC.owed c.locals i l
    have hold := hinv.balance
    refine ⟨?_, ?_, hret⟩
    · simp only at hbal ⊢
      omega
    · intro j
      by_cases hj : j = i
      · subst hj
        simpa using hlocal
      · simpa [Function.update_of_ne hj] using hinv.localOk j

/-! ### A permit always has an element behind it -/

/-- What the balance gives the users of the queue. -/
structure Backed (w : Nat) (c : Conf ι (State α) (PC α)) : Prop where
  /-- Free permits and permits still owed an element are covered. -/
  covered : c.shared.count + (∑ i, (c.locals i).owed) ≤ c.shared.inner.card
  /-- No spin loop runs on an empty inner queue. -/
  spin : ∀ i call max out, c.locals i = .deliver call max out → out.length ≠ max →
    c.shared.inner ≠ 0
  /-- A dequeue delivers as many elements as it acquired permits. -/
  exact : ∀ r ∈ c.shared.returned, r.delivered.length = r.permits
  /-- With no call in flight, `size_approx()` is the number of elements. -/
  quiescent : (∀ i, c.locals i = .idle) →
    c.shared.sizeApprox w = c.shared.inner.card % 2 ^ w

/-- **Every permit is backed by an element**, in every interleaving. -/
theorem reachable_backed [DecidableEq ι] [DecidableEq α] {w : Nat} {c : Conf ι (State α) (PC α)}
    (h : (exec w).Reachable Init c) : Backed w c := by
  have hinv := inv_reachable h
  have hbal := hinv.balance
  refine ⟨by omega, ?_, hinv.returnedOk, ?_⟩
  · intro i call max out hpc hne hempty
    have hlen : out.length ≤ max := by simpa [hpc, LocalOk] using hinv.localOk i
    have hone : (c.locals i).owed ≤ ∑ j, (c.locals j).owed :=
      Finset.single_le_sum (f := fun j => (c.locals j).owed) (fun _ _ => Nat.zero_le _)
        (Finset.mem_univ i)
    have howed : (c.locals i).owed = max - out.length := by rw [hpc]; rfl
    rw [hempty, Multiset.card_zero] at hbal
    omega
  · intro hidle
    simp only [hidle, PC.unsignalled_idle, PC.owed_idle, Finset.sum_const_zero, add_zero] at hbal
    rw [hbal, State.sizeApprox]

/-- A new queue and its threads. -/
def fresh (ι α : Type*) : Conf ι (State α) (PC α) := ⟨⟨0, 0, []⟩, fun _ => .idle⟩

omit [Fintype ι] in
theorem fresh_reachable [DecidableEq ι] [DecidableEq α] (w : Nat) :
    (exec w).Reachable Init (fresh ι α) :=
  .start ⟨rfl, fun _ => rfl⟩

/-- A thread dequeues two of the three elements another one has enqueued, in
two rounds of its spin loop with a miss in between. -/
theorem bulk_run_backed :
    ∃ c : Conf (Fin 2) (State Nat) (PC Nat),
      c.shared.returned = [⟨.waitDequeueBulk 2, 2, [8, 7]⟩] ∧ c.shared.inner = {9} ∧
        Backed 64 c := by
  have hreach := (fresh_reachable (ι := Fin 2) (α := Nat) 64).run
    (d := ⟨⟨{9}, 1, [⟨.waitDequeueBulk 2, 2, [8, 7]⟩]⟩, _⟩)
    [(0, .call (.enqueueBulk [7, 8, 9])), (0, .run), (0, .run), (1, .call (.waitDequeueBulk 2)),
      (1, .take 2), (1, .give [8]), (1, .give []), (1, .give [7]), (1, .run)] rfl
  exact ⟨_, rfl, rfl, reachable_backed hreach⟩

/-- With an 8-bit `size_t`, three producers of 96 elements each: nothing is in
flight, and `size_approx()` is off by a multiple of 256. -/
theorem sizeApprox_truncates :
    ∃ c : Conf (Fin 3) (State Unit) (PC Unit), (exec 8).Reachable Init c ∧
      (∀ i, c.locals i = .idle) ∧ c.shared.sizeApprox 8 ≠ c.shared.inner.card := by
  have hreach := (fresh_reachable (ι := Fin 3) (α := Unit) 8).run
    (d := ⟨⟨((List.replicate 96 () ++ List.replicate 96 () ++ List.replicate 96 () :
      List Unit) : Multiset Unit), 288, []⟩, _⟩)
    [(0, .call (.enqueueBulk (List.replicate 96 ()))), (0, .run), (0, .run),
      (1, .call (.enqueueBulk (List.replicate 96 ()))), (1, .run), (1, .run),
      (2, .call (.enqueueBulk (List.replicate 96 ()))), (2, .run), (2, .run)] rfl
  refine ⟨_, hreach, by decide, ?_⟩
  simp only [Multiset.coe_card, List.length_append, List.length_replicate, State.sizeApprox]
  decide

end ConcurrentQueue.Blocking
