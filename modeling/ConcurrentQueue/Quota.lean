import ConcurrentQueue.Rotation
import ConcurrentQueue.SearchBulk

/-!
# ConcurrentQueue.Quota

**When a consumer makes the others rotate.** A token counts what it has taken from its
current producer, and once it has taken its quota there should be a rotation for it to
follow. The count passes the quota without one when a bulk call does not get all of its
elements from the producer it starts with: what it takes there, and what it takes from
the next one, is added to the count or becomes the count, and neither is compared with
the quota. `Modest` says which calls cannot do this.
-/

namespace ConcurrentQueue.Search

open Function

variable {α ι : Type} {w intBits : Nat} {q q' : Queue w α} {token token' : ConsumerToken}

/-! ### What the methods do to a token -/

namespace Queue

theorem dequeueFrom_offset {p : Nat} {throws : Bool} {r : Popped α}
    (h : q.dequeueFrom p throws = some (q', r)) :
    q'.globalExplicitConsumerOffset = q.globalExplicitConsumerOffset := by
  obtain ⟨⟨s, r'⟩, -, h⟩ := Option.bind_eq_some_iff.mp h
  cases h
  rfl

theorem dequeueBulkFrom_offset {p : Nat} {max : BitVec w} {throwsAt : Option Nat} {r : Popped α}
    (h : q.dequeueBulkFrom intBits p max throwsAt = some (q', r)) :
    q'.globalExplicitConsumerOffset = q.globalExplicitConsumerOffset := by
  obtain ⟨⟨s, r'⟩, -, h⟩ := Option.bind_eq_some_iff.mp h
  cases h
  rfl

end Queue

/-- No more is taken than was asked for. -/
theorem SubQueue.dequeueBulk_le {s s' : SubQueue w α} {max : BitVec w} {throwsAt : Option Nat}
    {n : Nat} {xs : List α} (h : s.dequeueBulk intBits max throwsAt = some (s', .returned n xs)) :
    n ≤ max.toNat := by
  unfold dequeueBulk at h
  dsimp only at h
  split at h
  case isFalse =>
      simp only [Option.some.injEq, Prod.mk.injEq, Popped.returned.injEq] at h
      omega
  case isTrue =>
      obtain ⟨⟨s₁, ys⟩, -, h⟩ := Option.bind_eq_some_iff.mp h
      simp only [Option.some.injEq, Prod.mk.injEq] at h
      obtain ⟨-, h⟩ := h
      rcases Popped.ofList_cases throwsAt _ ys with ⟨j, -, -, hout⟩ | ⟨-, hout⟩
      · rw [hout] at h
        cases h
      · rw [hout, Popped.returned.injEq] at h
        obtain ⟨rfl, -⟩ := h
        rw [toNat_smaller, toNat_smaller]
        omega

namespace Queue

theorem dequeueBulkFrom_le {p n : Nat} {max : BitVec w} {throwsAt : Option Nat} {xs : List α}
    (h : q.dequeueBulkFrom intBits p max throwsAt = some (q', .returned n xs)) :
    n ≤ max.toNat := by
  obtain ⟨⟨s, r⟩, hdequeue, h⟩ := Option.bind_eq_some_iff.mp h
  cases h
  exact SubQueue.dequeueBulk_le hdequeue

/-- After the beginning of a method the token has followed the last rotation. -/
theorem prepare_spec (h : q.prepare token = some (some token')) :
    token'.lastKnownGlobalOffset = q.globalExplicitConsumerOffset ∧
      token'.itemsConsumedFromCurrent =
        if q.Rotates token then 0 else token.itemsConsumedFromCurrent := by
  unfold prepare at h
  split at h
  case isTrue hrotates =>
      rw [if_pos hrotates]
      unfold updateCurrentProducerAfterRotation at h
      split at h
      · simp at h
      · simp only [Option.bind_eq_bind, Option.bind_eq_some_iff] at h
        obtain ⟨desired, -, delta, -, desired', -, h⟩ := h
        obtain rfl := Option.some.inj (Option.some.inj h)
        exact ⟨rfl, rfl⟩
  case isFalse hstay =>
      obtain rfl := Option.some.inj (Option.some.inj h)
      rw [if_neg hstay]
      exact ⟨not_not.mp fun hne => hstay (.inr hne), rfl⟩

/-- A walk finds nothing, or starts to count. -/
theorem circle_spec {throws : Bool} {fuel : Nat} {ptr : Option Nat} {r : Popped α}
    (h : circle throws token fuel ptr q = some (q', token', r)) :
    q'.globalExplicitConsumerOffset = q.globalExplicitConsumerOffset ∧
      token'.lastKnownGlobalOffset = token.lastKnownGlobalOffset ∧
      (token'.itemsConsumedFromCurrent = token.itemsConsumedFromCurrent ∨
        token'.itemsConsumedFromCurrent = 1) := by
  induction fuel generalizing ptr q with
  | zero => cases h
  | succ fuel ih =>
      unfold circle at h
      split at h
      case isTrue =>
          simp only [Option.some.injEq, Prod.mk.injEq] at h
          obtain ⟨rfl, rfl, -⟩ := h
          exact ⟨rfl, rfl, .inl rfl⟩
      case isFalse =>
          split at h
          · cases h
          · split at h
            · cases h
            · rename_i hdequeue
              obtain ⟨hoffset, hrest⟩ := ih h
              exact ⟨hoffset.trans (dequeueFrom_offset hdequeue), hrest⟩
            · rename_i hdequeue
              simp only [Option.some.injEq, Prod.mk.injEq] at h
              obtain ⟨rfl, rfl, -⟩ := h
              exact ⟨dequeueFrom_offset hdequeue, rfl, .inl rfl⟩
            · rename_i hdequeue
              simp only [Option.some.injEq, Prod.mk.injEq] at h
              obtain ⟨rfl, rfl, -⟩ := h
              exact ⟨dequeueFrom_offset hdequeue, rfl, .inr rfl⟩

end Queue

theorem ConsumerToken.gave_spec (token : ConsumerToken) (p : Nat) (dequeued : BitVec w) :
    (token.gave p dequeued).lastKnownGlobalOffset = token.lastKnownGlobalOffset ∧
      ((token.gave p dequeued).itemsConsumedFromCurrent = token.itemsConsumedFromCurrent ∨
        (token.gave p dequeued).itemsConsumedFromCurrent = dequeued.setWidth 32) := by
  unfold gave
  split
  · exact ⟨rfl, .inr rfl⟩
  · exact ⟨rfl, .inl rfl⟩

namespace Queue

/-- A bulk walk for fewer elements than a bound keeps the count below the bound. -/
theorem circleBulk_spec {fuel b : Nat} {ptr : Option Nat} {max count : BitVec w} {out : List α}
    {throwsAt : Option Nat} {r : Popped α}
    (h : circleBulk intBits fuel ptr token max count out throwsAt q = some (q', token', r))
    (hmax : max.toNat < b) (hitems : token.itemsConsumedFromCurrent.toNat < b) :
    q'.globalExplicitConsumerOffset = q.globalExplicitConsumerOffset ∧
      token'.lastKnownGlobalOffset = token.lastKnownGlobalOffset ∧
      token'.itemsConsumedFromCurrent.toNat < b := by
  induction fuel generalizing ptr token max count out throwsAt q with
  | zero => cases h
  | succ fuel ih =>
      unfold circleBulk at h
      split at h
      case isTrue =>
          simp only [Option.some.injEq, Prod.mk.injEq] at h
          obtain ⟨rfl, rfl, -⟩ := h
          exact ⟨rfl, rfl, hitems⟩
      case isFalse =>
          split at h
          · cases h
          · rename_i p _
            split at h
            · cases h
            · rename_i hdequeue
              simp only [Option.some.injEq, Prod.mk.injEq] at h
              obtain ⟨rfl, rfl, -⟩ := h
              exact ⟨dequeueBulkFrom_offset hdequeue, rfl, hitems⟩
            · rename_i q₁ n xs hdequeue
              have hoffset := dequeueBulkFrom_offset hdequeue
              have hn := dequeueBulkFrom_le hdequeue
              have hnat : (BitVec.ofNat w n).toNat = n := by
                rw [BitVec.toNat_ofNat, Nat.mod_eq_of_lt (hn.trans_lt max.isLt)]
              obtain ⟨hlast, hgave⟩ := token.gave_spec p (BitVec.ofNat w n)
              have hitems' :
                  (token.gave p (BitVec.ofNat w n)).itemsConsumedFromCurrent.toNat < b := by
                rcases hgave with hkept | hset
                · rw [hkept]
                  exact hitems
                · rw [hset, BitVec.toNat_setWidth, hnat]
                  exact (Nat.mod_le ..).trans_lt (by omega)
              dsimp only at h
              split at h
              · simp only [Option.some.injEq, Prod.mk.injEq] at h
                obtain ⟨rfl, rfl, -⟩ := h
                exact ⟨hoffset, hlast, hitems'⟩
              · have hless : (max - BitVec.ofNat w n).toNat < b := by
                  rw [BitVec.toNat_sub_of_le (by rw [BitVec.le_def, hnat]; exact hn)]
                  omega
                obtain ⟨hoffset', hlast', hrest⟩ := ih h hless hitems'
                exact ⟨hoffset'.trans hoffset, hlast'.trans hlast, hrest⟩

end Queue

/-! ### Calls -/

/-- A call of a method with a token. -/
inductive TokenCall (w : Nat)
  | single (throws : Bool)
  | bulk (max : BitVec w) (throwsAt : Option Nat)

def TokenCall.run (intBits : Nat) (quota : BitVec 32) (fuel : Nat) (q : Queue w α)
    (token : ConsumerToken) : TokenCall w → Option (Queue w α × ConsumerToken × Popped α)
  | .single throws => q.tryDequeueToken quota token throws fuel
  | .bulk max throwsAt => q.tryDequeueBulkToken intBits quota token max throwsAt fuel

/-- A bulk call asks for less than what is left of the quota, or for no more than is held
by the producer it starts with: that of the token, after the rotation if there is one to
follow. -/
def Modest (quota : BitVec 32) (q : Queue w α) (token : ConsumerToken) : TokenCall w → Prop
  | .single _ => True
  | .bulk max _ =>
      (if q.Rotates token then 0 else token.itemsConsumedFromCurrent.toNat) + max.toNat <
          quota.toNat ∨
        ∀ token' p, q.prepare token = some (some token') → token'.currentProducer = some p →
          ∃ xs, (q.producer p).Quiescent xs ∧ max.toNat ≤ xs.length

/-- The token has not taken its quota, or has not followed the last of `g` rotations. -/
def Counted (quota : BitVec 32) (g : Nat) (token : ConsumerToken) : Prop :=
  token.itemsConsumedFromCurrent.toNat < quota.toNat ∨
    ∃ u < g, token.lastKnownGlobalOffset = BitVec.ofNat 32 u

section Step

variable {quota : BitVec 32} {g : Nat}

theorem Counted.mono (h : Counted quota g token) {g' : Nat} (hg : g ≤ g') :
    Counted quota g' token :=
  h.imp_right fun ⟨u, hu, hlast⟩ => ⟨u, hu.trans_le hg, hlast⟩

theorem Counted.not_last (h : Counted quota g token) (hg : g < 2 ^ 32)
    (hquota : quota ≤ token.itemsConsumedFromCurrent) :
    token.lastKnownGlobalOffset ≠ BitVec.ofNat 32 g := by
  obtain ⟨u, hu, hlast⟩ := h.resolve_left (Nat.not_lt.mpr hquota)
  intro heq
  have hnat := congrArg BitVec.toNat (hlast.symm.trans heq)
  rw [BitVec.toNat_ofNat, BitVec.toNat_ofNat, Nat.mod_eq_of_lt (by omega),
    Nat.mod_eq_of_lt hg] at hnat
  omega

variable (hquota : 2 ≤ quota.toNat) (hg : g < 2 ^ 32)
  (hoffset : q.globalExplicitConsumerOffset = BitVec.ofNat 32 g) (ht : Counted quota g token)
include hquota hg hoffset ht

/-- A call begins with less than the quota on the count. -/
theorem Counted.prepare (h : q.prepare token = some (some token')) :
    token'.itemsConsumedFromCurrent.toNat < quota.toNat := by
  obtain ⟨-, hitems⟩ := Queue.prepare_spec h
  rw [hitems]
  split
  case isTrue => exact Nat.lt_of_lt_of_le Nat.two_pos hquota
  case isFalse hstay =>
      refine Nat.lt_of_not_le fun hle => ht.not_last hg hle ?_
      rw [← hoffset]
      exact not_not.mp fun hne => hstay (.inr hne)

/-- The count grows by one, and there is a rotation when it reaches the quota. -/
theorem Counted.single {throws : Bool} {fuel : Nat} {r : Popped α}
    (h : q.tryDequeueToken quota token throws fuel = some (q', token', r)) :
    (q'.globalExplicitConsumerOffset = q.globalExplicitConsumerOffset ∧ Counted quota g token') ∨
      (q'.globalExplicitConsumerOffset = q.globalExplicitConsumerOffset + 1 ∧
        Counted quota (g + 1) token') := by
  unfold Queue.tryDequeueToken at h
  split at h
  · cases h
  · simp only [Option.some.injEq, Prod.mk.injEq] at h
    obtain ⟨rfl, rfl, -⟩ := h
    exact .inl ⟨rfl, ht⟩
  · rename_i token₁ hprepare
    have hless := ht.prepare hquota hg hoffset hprepare
    have hlast := (Queue.prepare_spec hprepare).1.trans hoffset
    split at h
    · cases h
    · split at h
      · cases h
      · rename_i hdequeue
        obtain ⟨hoffset', -, hitems⟩ := Queue.circle_spec h
        refine .inl ⟨hoffset'.trans (Queue.dequeueFrom_offset hdequeue), .inl ?_⟩
        rcases hitems with hsame | hone
        · rwa [hsame]
        · rw [hone]
          exact hquota
      · rename_i hdequeue
        simp only [Option.some.injEq, Prod.mk.injEq] at h
        obtain ⟨rfl, rfl, -⟩ := h
        exact .inl ⟨Queue.dequeueFrom_offset hdequeue, .inl hless⟩
      · rename_i q₁ _ _ _ hdequeue
        have hoffset' := Queue.dequeueFrom_offset hdequeue
        simp only [Option.some.injEq, Prod.mk.injEq] at h
        obtain ⟨rfl, rfl, -⟩ := h
        by_cases hfull : token₁.itemsConsumedFromCurrent + 1 = quota
        · rw [if_pos hfull]
          refine .inr ⟨by rw [Queue.rotateAll, hoffset'], .inr ⟨g, Nat.lt_succ_self g, hlast⟩⟩
        · rw [if_neg hfull]
          refine .inl ⟨hoffset', .inl ?_⟩
          have hne : (token₁.itemsConsumedFromCurrent + 1).toNat ≠ quota.toNat := fun heq =>
            hfull (BitVec.eq_of_toNat_eq heq)
          have hlt := quota.isLt
          have hone : (token₁.itemsConsumedFromCurrent + 1).toNat =
              token₁.itemsConsumedFromCurrent.toNat + 1 := by
            rw [BitVec.toNat_add]
            exact Nat.mod_eq_of_lt (by show _ + 1 < _; omega)
          dsimp only
          omega

/-- A bulk call that gets all it asks for from the producer it starts with compares the
count with the quota; another keeps the count below the quota if it asks for little. -/
theorem Counted.bulk (hw : 0 < w) {max : BitVec w} {throwsAt : Option Nat}
    (hmodest : Modest quota q token (.bulk max throwsAt)) {fuel : Nat} {r : Popped α}
    (h : q.tryDequeueBulkToken intBits quota token max throwsAt fuel = some (q', token', r)) :
    (q'.globalExplicitConsumerOffset = q.globalExplicitConsumerOffset ∧ Counted quota g token') ∨
      (q'.globalExplicitConsumerOffset = q.globalExplicitConsumerOffset + 1 ∧
        Counted quota (g + 1) token') := by
  unfold Queue.tryDequeueBulkToken at h
  split at h
  · cases h
  · simp only [Option.some.injEq, Prod.mk.injEq] at h
    obtain ⟨rfl, rfl, -⟩ := h
    exact .inl ⟨rfl, ht⟩
  · rename_i token₁ hprepare
    have hless := ht.prepare hquota hg hoffset hprepare
    obtain ⟨hlast, hitems⟩ := Queue.prepare_spec hprepare
    rw [hoffset] at hlast
    split at h
    · cases h
    · rename_i current hcurrent
      split at h
      · cases h
      · rename_i hdequeue
        simp only [Option.some.injEq, Prod.mk.injEq] at h
        obtain ⟨rfl, rfl, -⟩ := h
        exact .inl ⟨Queue.dequeueBulkFrom_offset hdequeue, .inl hless⟩
      · rename_i q₁ n xs hdequeue
        have hoffset' := Queue.dequeueBulkFrom_offset hdequeue
        dsimp only at h
        split at h
        · simp only [Option.some.injEq, Prod.mk.injEq] at h
          obtain ⟨rfl, rfl, -⟩ := h
          by_cases hfull : quota ≤ token₁.itemsConsumedFromCurrent + max.setWidth 32
          · rw [if_pos hfull]
            exact .inr ⟨by rw [Queue.rotateAll, hoffset'], .inr ⟨g, Nat.lt_succ_self g, hlast⟩⟩
          · rw [if_neg hfull]
            exact .inl ⟨hoffset', .inl (Nat.lt_of_not_le hfull)⟩
        · rename_i hpart
          have hn := Queue.dequeueBulkFrom_le hdequeue
          have hnat : (BitVec.ofNat w n).toNat = n := by
            rw [BitVec.toNat_ofNat, Nat.mod_eq_of_lt (hn.trans_lt max.isLt)]
          -- there was not enough at the first producer, so the call asks for little
          have hlittle : token₁.itemsConsumedFromCurrent.toNat + max.toNat < quota.toNat := by
            rcases hmodest with hleft | hheld
            · rw [hitems]
              split at hleft
              case isTrue hrotates =>
                  rw [if_pos hrotates]
                  exact hleft
              case isFalse hstay =>
                  rw [if_neg hstay]
                  exact hleft
            · obtain ⟨ys, hquiescent, hmany⟩ := hheld token₁ current hprepare hcurrent
              obtain ⟨⟨s, r'⟩, hfrom, heq⟩ := Option.bind_eq_some_iff.mp hdequeue
              cases heq
              have hask := hquiescent.dequeueBulk hw intBits max throwsAt
              rw [hfrom, Nat.min_eq_left hmany] at hask
              obtain ⟨-, s', hout, -⟩ :=
                hask.resolve_right fun hnone => Option.some_ne_none _ hnone.2
              have heq : n = max.toNat := by
                rcases Popped.ofList_cases throwsAt max.toNat ys with
                  ⟨j, -, -, hthrew⟩ | ⟨-, hreturned⟩
                · rw [hthrew] at hout
                  simp at hout
                · rw [hreturned] at hout
                  simp only [Option.some.injEq, Prod.mk.injEq, Popped.returned.injEq] at hout
                  exact hout.2.1
              exact absurd (BitVec.eq_of_toNat_eq (hnat.trans heq)) hpart
          have hlt := quota.isLt
          have hsum : (token₁.itemsConsumedFromCurrent + (BitVec.ofNat w n).setWidth 32).toNat =
              token₁.itemsConsumedFromCurrent.toNat + n := by
            rw [BitVec.toNat_add, BitVec.toNat_setWidth, hnat, Nat.mod_eq_of_lt (by omega : n < _),
              Nat.mod_eq_of_lt (by omega)]
          obtain ⟨hoffset'', -, hitems'⟩ := Queue.circleBulk_spec (b := quota.toNat) h
            (by
              rw [BitVec.toNat_sub_of_le (by rw [BitVec.le_def, hnat]; exact hn)]
              omega)
            (by
              rw [hsum]
              omega)
          exact .inl ⟨hoffset''.trans hoffset', .inl hitems'⟩

end Step

/-! ### Runs -/

/-- Calls with tokens, one after the other, each meeting `ok`; there have been `g` rotations.
In between producers may come and enqueue. -/
inductive Consumption (intBits : Nat) (quota : BitVec 32)
    (ok : Queue w α → ConsumerToken → TokenCall w → Prop) [DecidableEq ι] :
    Nat → Queue w α → (ι → ConsumerToken) → Prop
  | start {q : Queue w α} (a : ι → BitVec 32) : q.globalExplicitConsumerOffset = 0 →
      Consumption intBits quota ok 0 q fun i => .create (a i)
  | call {g fuel : Nat} {q q' : Queue w α} {tokens : ι → ConsumerToken} {i : ι} {c : TokenCall w}
      {token' : ConsumerToken} {r : Popped α} : Consumption intBits quota ok g q tokens →
      ok q (tokens i) c → c.run intBits quota fuel q (tokens i) = some (q', token', r) →
      Consumption intBits quota ok (g + if q'.globalExplicitConsumerOffset =
        q.globalExplicitConsumerOffset then 0 else 1) q' (update tokens i token')
  | produce {g : Nat} {q q' : Queue w α} {tokens : ι → ConsumerToken} :
      Consumption intBits quota ok g q tokens →
      q'.globalExplicitConsumerOffset = q.globalExplicitConsumerOffset →
      Consumption intBits quota ok g q' tokens

variable [DecidableEq ι] {quota : BitVec 32} {g : Nat} {tokens : ι → ConsumerToken}

theorem Consumption.counted (hw : 0 < w) (hquota : 2 ≤ quota.toNat)
    (h : Consumption intBits quota (Modest quota) g q tokens) (hg : g < 2 ^ 32) :
    q.globalExplicitConsumerOffset = BitVec.ofNat 32 g ∧ ∀ i, Counted quota g (tokens i) := by
  induction h with
  | start a hzero => exact ⟨hzero, fun i => .inl (Nat.lt_of_lt_of_le Nat.two_pos hquota)⟩
  | @call g fuel q q' tokens i c token' r _ hmodest hrun ih =>
      obtain ⟨hoffset, ht⟩ := ih (by omega)
      have hstep : (q'.globalExplicitConsumerOffset = q.globalExplicitConsumerOffset ∧
            Counted quota g token') ∨
          (q'.globalExplicitConsumerOffset = q.globalExplicitConsumerOffset + 1 ∧
            Counted quota (g + 1) token') := by
        cases c with
        | single throws => exact (ht i).single hquota (by omega) hoffset hrun
        | bulk max throwsAt => exact (ht i).bulk hquota (by omega) hoffset hw hmodest hrun
      rcases hstep with ⟨hsame, hcounted⟩ | ⟨hnext, hcounted⟩
      · rw [if_pos hsame, Nat.add_zero]
        refine ⟨hsame.trans hoffset, fun j => ?_⟩
        by_cases hij : j = i
        · rw [hij, update_self]
          exact hcounted
        · rw [update_of_ne hij]
          exact ht j
      · have hne : q'.globalExplicitConsumerOffset ≠ q.globalExplicitConsumerOffset := by
          rw [hnext]
          exact fun heq => by simp at heq
        rw [if_neg hne]
        refine ⟨by rw [hnext, hoffset]; exact BitVec.ofNat_add_ofNat .., fun j => ?_⟩
        by_cases hij : j = i
        · rw [hij, update_self]
          exact hcounted
        · rw [update_of_ne hij]
          exact (ht j).mono (Nat.le_succ g)
  | produce _ hsame ih =>
      obtain ⟨hoffset, ht⟩ := ih hg
      exact ⟨hsame.trans hoffset, ht⟩

/-- **A consumer that has taken its quota has a rotation to follow**, as long as no bulk call
asks for more than it can take from one producer within the quota. -/
theorem quota_rotates (hw : 0 < w) (hquota : 2 ≤ quota.toNat)
    (h : Consumption intBits quota (Modest quota) g q tokens) (hg : g < 2 ^ 32) (i : ι)
    (hitems : quota ≤ (tokens i).itemsConsumedFromCurrent) :
    q.globalExplicitConsumerOffset ≠ (tokens i).lastKnownGlobalOffset := by
  obtain ⟨hoffset, ht⟩ := h.counted hw hquota hg
  rw [hoffset]
  exact ((ht i).not_last hg hitems).symm

/-- A sub-queue with `n` elements. -/
def holding (n : Nat) : SubQueue 64 Unit := ⟨0, BitVec.ofNat 64 n, 0, 0, List.replicate n ()⟩

/-- Two producers, of which the one at the tail holds `n` elements and the other `m`. -/
def pair (n m : Nat) : Queue 64 Unit where
  producer p := if p = 1 then holding n else holding m
  next p := if p = 1 then some 0 else none
  producerListTail := some 1
  producerCount := 2
  globalExplicitConsumerOffset := 0

theorem holding_quiescent {n : Nat} (hn : n < 2 ^ 63) :
    (holding n).Quiescent (List.replicate n ()) where
  elements := rfl
  tail := by simp [holding]
  count := rfl
  short := by simpa using hn

/-- A token takes the quota from the producer it starts with, although the other one is
empty. -/
theorem quota_rotates_pair : ∃ (g : Nat) (q : Queue 64 Unit) (tokens : Unit → ConsumerToken),
    Consumption 32 256 (Modest 256) g q tokens ∧ (tokens ()).itemsConsumedFromCurrent = 256 ∧
    q.globalExplicitConsumerOffset ≠ (tokens ()).lastKnownGlobalOffset := by
  have hstart : Consumption (ι := Unit) 32 256 (Modest 256) 0 (pair 256 0) _ :=
    .start (fun _ => 0) rfl
  have hrun : ((TokenCall.bulk 256#64 none).run 32 256 3 (pair 256 0) (.create 0)).map
      (fun x => (x.2.1.itemsConsumedFromCurrent, x.1.globalExplicitConsumerOffset)) =
        some (256, 1) := by decide +kernel
  obtain ⟨⟨q, token, r⟩, hrun, hout⟩ := Option.map_eq_some_iff.mp hrun
  obtain ⟨hitems, hoffset⟩ := Prod.mk.inj hout
  have hfirst : ((pair 256 0).prepare (.create 0)).map
      (·.map ConsumerToken.currentProducer) = some (some (some 1)) := by decide +kernel
  have hmodest : Modest 256 (pair 256 0) (.create 0) (.bulk 256#64 none) := by
    refine .inr fun token' p hprepare hcurrent => ?_
    rw [hprepare, Option.map_some, Option.map_some, hcurrent] at hfirst
    obtain rfl : p = 1 := by simpa using hfirst
    exact ⟨_, holding_quiescent (by decide), by rw [List.length_replicate]; decide⟩
  have hnext := hstart.call (i := ()) hmodest hrun
  have hquota : (256 : BitVec 32) ≤ token.itemsConsumedFromCurrent := by
    rw [hitems]
    exact BitVec.le_refl _
  refine ⟨_, q, _, hnext, hitems, quota_rotates (by decide) (by decide) hnext ?_ () hquota⟩
  split <;> decide

/-- The producer that the token starts with is empty, and it takes the whole quota from the
other one. There is no rotation. -/
theorem quota_passed : ∃ (q : Queue 64 Unit) (token : ConsumerToken) (xs : List Unit),
    (TokenCall.bulk 256#64 none).run 32 256 3 (pair 0 256) (.create 0) =
      some (q, token, .returned 256 xs) ∧
    Consumption (ι := Unit) 32 256 (fun _ _ _ => True) 0 q (fun _ => token) ∧
    token.itemsConsumedFromCurrent = 256 ∧
    q.globalExplicitConsumerOffset = token.lastKnownGlobalOffset := by
  have hrun : ((TokenCall.bulk 256#64 none).run 32 256 3 (pair 0 256) (.create 0)).map
      (fun x => (x.1.globalExplicitConsumerOffset, x.2.1.lastKnownGlobalOffset,
        x.2.1.itemsConsumedFromCurrent, x.2.2)) =
        some (0, 0, 256, .returned 256 (List.replicate 256 ())) := by decide +kernel
  obtain ⟨⟨q, token, r⟩, hrun, hout⟩ := Option.map_eq_some_iff.mp hrun
  simp only [Prod.mk.injEq] at hout
  obtain ⟨hoffset, hlast, hitems, rfl⟩ := hout
  have hstart : Consumption (ι := Unit) 32 256 (fun _ _ _ => True) 0 (pair 0 256) _ :=
    .start (fun _ => 0) rfl
  have hnext := hstart.call (i := ()) trivial hrun
  have hsame : q.globalExplicitConsumerOffset = (pair 0 256).globalExplicitConsumerOffset :=
    hoffset
  rw [if_pos hsame] at hnext
  have htokens : update (fun _ => ConsumerToken.create 0) () token = fun _ => token :=
    funext fun _ => rfl
  rw [htokens] at hnext
  exact ⟨q, token, _, hrun, hnext, hitems, hoffset.trans hlast.symm⟩

end ConcurrentQueue.Search
