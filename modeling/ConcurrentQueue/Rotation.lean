import ConcurrentQueue.SearchSound

/-!
# ConcurrentQueue.Rotation

**Where a consumer belongs after a rotation.** A token that has the number `a` and
follows the rotation with the number `g` desires the producer that is `g - a` places
from the tail of the list of producers, counted around its end. This does not depend
on the rotations that the token has followed before (`History` has all ways to follow
some of them and not others), so two tokens that have followed the same rotation are
at the same producer only if their numbers agree.
-/

namespace ConcurrentQueue.Search

open Linked

variable {α ι : Type} {w : Nat}

/-- The constructor of `ConsumerToken`, for the number that it takes from the queue. -/
def ConsumerToken.create (id : BitVec 32) : ConsumerToken := ⟨id, -1, 0, none, none⟩

/-! ### Places -/

/-- `g - a` places around a list of length `n`. -/
def distance (n g a : Nat) : Nat := (((g : ℤ) - a) % n).toNat

section Distance

variable {n : Nat} (hn : 0 < n)
include hn

theorem distance_lt (g a : Nat) : distance n g a < n := by
  have := Int.emod_lt_of_pos ((g : ℤ) - a) (by omega : (0 : ℤ) < n)
  rw [distance]
  omega

theorem cast_distance (g a : Nat) : (distance n g a : ℤ) = ((g : ℤ) - a) % n :=
  Int.toNat_of_nonneg (Int.emod_nonneg _ (by omega))

/-- Places are determined by their residues. -/
theorem eq_distance {g a d : Nat} (hd : d < n) (h : (d : ZMod n) = g - a) :
    d = distance n g a := by
  have hmod : (d : ℤ) ≡ g - a [ZMOD n] := by
    rw [← ZMod.intCast_eq_intCast_iff]
    push_cast
    exact h
  rw [Int.ModEq, Int.emod_eq_of_lt (by omega) (by omega), ← cast_distance hn] at hmod
  exact_mod_cast hmod

theorem distance_residue (g a : Nat) : (distance n g a : ZMod n) = g - a := by
  have hcast := congrArg (Int.cast (R := ZMod n)) (cast_distance hn g a)
  rw [ZMod.intCast_mod] at hcast
  exact_mod_cast hcast

/-- The first place is counted from the end of the list. -/
theorem distance_first (g a : Nat) :
    (n - 1 - a % n + (g + 1) % n) % n = distance n g a := by
  refine eq_distance hn (Nat.mod_lt _ hn) ?_
  have hlt := Nat.mod_lt a hn
  rw [ZMod.natCast_mod, Nat.cast_add, ZMod.natCast_mod, Nat.sub_sub, Nat.cast_sub (by omega),
    Nat.cast_add, ZMod.natCast_self, ZMod.natCast_mod]
  push_cast
  ring

/-- Moving on by the rotations that have been missed. -/
theorem distance_next {u g : Nat} (hug : u ≤ g) (a : Nat) :
    (distance n u a + (g - u) % n) % n = distance n g a := by
  refine eq_distance hn (Nat.mod_lt _ hn) ?_
  rw [ZMod.natCast_mod, Nat.cast_add, ZMod.natCast_mod, Nat.cast_sub hug, distance_residue hn]
  ring

/-- The places of two numbers are the same if the numbers are. -/
theorem distance_eq_iff {g a a' : Nat} : distance n g a = distance n g a' ↔ a % n = a' % n := by
  rw [← Nat.ModEq, ← ZMod.natCast_eq_natCast_iff]
  constructor
  · intro heq
    have hcast := congrArg (Nat.cast (R := ZMod n)) heq
    rw [distance_residue hn, distance_residue hn] at hcast
    exact sub_right_injective hcast
  · intro heq
    refine eq_distance hn (distance_lt hn ..) ?_
    rw [distance_residue hn, heq]

end Distance

/-! ### Following a rotation -/

namespace Queue

variable {q : Queue w α} {l : List Nat}

/-- The producers of the queue are the list `l`. -/
structure Lists (q : Queue w α) (l : List Nat) : Prop where
  list : IsList q.next q.producerListTail l
  count : q.producerCount = BitVec.ofNat 32 l.length
  nonempty : l ≠ []
  short : l.length < 2 ^ 32

namespace Lists

theorem pos (h : q.Lists l) : 0 < l.length := List.length_pos_iff.mpr h.nonempty

theorem toNat_count (h : q.Lists l) : q.producerCount.toNat = l.length := by
  rw [h.count, BitVec.toNat_ofNat, Nat.mod_eq_of_lt h.short]

theorem count_ne (h : q.Lists l) : q.producerCount ≠ 0 := by
  intro hzero
  have := h.toNat_count
  rw [hzero] at this
  exact h.pos.ne this

theorem rotate (h : q.Lists l) {i : Nat} (hi : i < l.length) (k : Nat) :
    q.rotate k l[i]? = some l[(i + k) % l.length]? := by
  induction k generalizing i with
  | zero => rw [Queue.rotate, Nat.add_zero, Nat.mod_eq_of_lt hi]
  | succ k ih =>
      have hnext : q.nextOrTail l[i] = l[(i + 1) % l.length]? :=
        h.list.around_eq (List.getElem?_eq_getElem hi)
      rw [List.getElem?_eq_getElem hi, Queue.rotate, hnext, ih (Nat.mod_lt _ h.pos),
        Nat.mod_add_mod, Nat.add_right_comm, Nat.add_assoc]

theorem rotation (h : q.Lists l) (token : ConsumerToken) :
    ∃ delta, q.rotation token = some delta ∧ delta.toNat =
      (q.globalExplicitConsumerOffset - token.lastKnownGlobalOffset).toNat % l.length := by
  unfold Queue.rotation
  dsimp only
  split
  case isTrue =>
      refine ⟨_, remainder_eq h.count_ne, ?_⟩
      rw [BitVec.toNat_umod, h.toNat_count]
  case isFalse hlt =>
      refine ⟨_, rfl, ?_⟩
      rw [BitVec.le_def, h.toNat_count] at hlt
      rw [Nat.mod_eq_of_lt (by omega)]

/-- The first place of a token. -/
theorem place_first (h : q.Lists l) {token : ConsumerToken} (hnone : token.desiredProducer = none) :
    q.place token = some l[l.length - 1 - token.initialOffset.toNat % l.length]? := by
  have hpos := h.pos
  have hmod := Nat.mod_lt token.initialOffset.toNat hpos
  have hshort := h.short
  have hrem : (token.initialOffset % q.producerCount).toNat =
      token.initialOffset.toNat % l.length := by rw [BitVec.toNat_umod, h.toNat_count]
  have hone : (q.producerCount - 1).toNat = l.length - 1 := by
    rw [BitVec.toNat_sub_of_le, h.toNat_count]
    · rfl
    · rw [BitVec.le_def, h.toNat_count]
      exact hpos
  have hoffset : (q.producerCount - 1 - token.initialOffset % q.producerCount).toNat =
      l.length - 1 - token.initialOffset.toNat % l.length := by
    rw [BitVec.toNat_sub_of_le, hone, hrem]
    rw [BitVec.le_def, hone, hrem]
    omega
  have hrotate := h.rotate hpos (l.length - 1 - token.initialOffset.toNat % l.length)
  rw [Nat.zero_add, Nat.mod_eq_of_lt (show l.length - 1 - _ < l.length by omega),
    ← h.list.head_eq] at hrotate
  rw [place, if_pos hnone, remainder_eq h.count_ne]
  simp only [Option.bind_eq_bind, Option.bind_some]
  rw [hoffset, hrotate]

/-- Taking a place, and moving on from there. -/
theorem update (h : q.Lists l) {token : ConsumerToken} {i : Nat} (hi : i < l.length)
    (hplace : q.place token = some l[i]?) :
    q.updateCurrentProducerAfterRotation token = some (some { token with
      desiredProducer := l[(i + (q.globalExplicitConsumerOffset -
        token.lastKnownGlobalOffset).toNat % l.length) % l.length]?
      lastKnownGlobalOffset := q.globalExplicitConsumerOffset
      currentProducer := l[(i + (q.globalExplicitConsumerOffset -
        token.lastKnownGlobalOffset).toNat % l.length) % l.length]?
      itemsConsumedFromCurrent := 0 }) := by
  obtain ⟨delta, hdelta, hnat⟩ := h.rotation token
  have htail : q.producerListTail ≠ none := by
    rw [h.list.head_eq, List.getElem?_eq_getElem h.pos]
    exact Option.some_ne_none _
  rw [updateCurrentProducerAfterRotation, if_neg fun hno => htail hno.2, hplace, hdelta, ← hnat]
  simp only [Option.bind_eq_bind, Option.bind_some, h.rotate hi]

end Lists

end Queue

/-! ### Histories -/

/-- The rotations, `g` so far, and the tokens with the numbers `a`. Between two rotations
any tokens may follow the last one, and what else the consumers do changes the sub-queues,
the current producers and the counts of what was consumed from them. -/
inductive History (q₀ : Queue w α) (a : ι → BitVec 32) [DecidableEq ι] :
    Nat → Queue w α → (ι → ConsumerToken) → Prop
  | start : q₀.globalExplicitConsumerOffset = 0 → History q₀ a 0 q₀ fun i => .create (a i)
  | rotateAll {g : Nat} {q : Queue w α} {tokens : ι → ConsumerToken} :
      History q₀ a g q tokens → History q₀ a (g + 1) q.rotateAll tokens
  | update {g : Nat} {q : Queue w α} {tokens : ι → ConsumerToken} {i : ι} {token : ConsumerToken} :
      History q₀ a g q tokens →
      q.updateCurrentProducerAfterRotation (tokens i) = some (some token) →
      History q₀ a g q (Function.update tokens i token)
  | consume {g : Nat} {q : Queue w α} {tokens : ι → ConsumerToken} (i : ι)
      (producer : Nat → SubQueue w α) (current : Option Nat) (items : BitVec 32) :
      History q₀ a g q tokens →
      History q₀ a g { q with producer := producer } (Function.update tokens i { tokens i with
        currentProducer := current
        itemsConsumedFromCurrent := items })

/-- A token with the number `a` that has followed no rotation yet, or one of the first `g`. -/
structure Follows (l : List Nat) (a : BitVec 32) (g : Nat) (token : ConsumerToken) : Prop where
  initialOffset : token.initialOffset = a
  place : (token.desiredProducer = none ∧ token.lastKnownGlobalOffset = -1) ∨
    ∃ u ≤ g, token.lastKnownGlobalOffset = BitVec.ofNat 32 u ∧
      token.desiredProducer = l[distance l.length u a.toNat]?

section Follows

variable {q : Queue w α} {l : List Nat} {a : BitVec 32} {g : Nat} {token : ConsumerToken}

theorem Follows.create (l : List Nat) (a : BitVec 32) : Follows l a 0 (.create a) :=
  ⟨rfl, .inl ⟨rfl, rfl⟩⟩

theorem Follows.mono (h : Follows l a g token) {g' : Nat} (hg : g ≤ g') : Follows l a g' token :=
  { h with
    place := h.place.imp_right fun ⟨u, hu, hrest⟩ => ⟨u, hu.trans hg, hrest⟩ }

/-- **A token that follows the rotation `g` comes to its place**, wherever it was before. -/
theorem Follows.update (h : Follows l a g token) (hq : q.Lists l) (hg : g < 2 ^ 32 - 1)
    (hoffset : q.globalExplicitConsumerOffset = BitVec.ofNat 32 g) :
    ∃ token', q.updateCurrentProducerAfterRotation token = some (some token') ∧
      token'.initialOffset = a ∧ token'.lastKnownGlobalOffset = BitVec.ofNat 32 g ∧
      token'.desiredProducer = l[distance l.length g a.toNat]? := by
  have hpos := hq.pos
  rcases h.place with ⟨hnone, hlast⟩ | ⟨u, hu, hlast, hdesired⟩
  · have hdelta : (q.globalExplicitConsumerOffset - token.lastKnownGlobalOffset).toNat = g + 1 := by
      rw [hoffset, hlast, BitVec.sub_neg, BitVec.toNat_add, BitVec.toNat_ofNat]
      show (g % 2 ^ 32 + 1) % 2 ^ 32 = g + 1
      omega
    have hplace := hq.place_first hnone
    refine ⟨_, hq.update (by omega) hplace, h.initialOffset, hoffset, ?_⟩
    dsimp only
    rw [hdelta, h.initialOffset, distance_first hpos]
  · have hlt := distance_lt hpos u a.toNat
    have hdelta : (q.globalExplicitConsumerOffset - token.lastKnownGlobalOffset).toNat = g - u := by
      rw [hoffset, hlast, Wrap.toNat_ofNat_sub hu (by omega)]
    have hplace : q.place token = some l[distance l.length u a.toNat]? := by
      rw [Queue.place, if_neg, hdesired]
      rw [hdesired, List.getElem?_eq_getElem hlt]
      exact Option.some_ne_none _
    refine ⟨_, hq.update hlt hplace, h.initialOffset, hoffset, ?_⟩
    dsimp only
    rw [hdelta, distance_next hpos hu]

end Follows

variable [DecidableEq ι] {q₀ q : Queue w α} {l : List Nat} {a : ι → BitVec 32} {g : Nat}
  {tokens : ι → ConsumerToken}

theorem History.lists (h : History q₀ a g q tokens) (hl : q₀.Lists l) :
    q.Lists l ∧ q.globalExplicitConsumerOffset = BitVec.ofNat 32 g := by
  induction h with
  | start hzero => exact ⟨hl, hzero⟩
  | rotateAll _ ih =>
      obtain ⟨hq, hoffset⟩ := ih
      refine ⟨⟨hq.list, hq.count, hq.nonempty, hq.short⟩, ?_⟩
      rw [Queue.rotateAll, hoffset]
      exact BitVec.ofNat_add_ofNat ..
  | update _ _ ih => exact ih
  | consume i producer current items _ ih =>
      obtain ⟨hq, hoffset⟩ := ih
      exact ⟨⟨hq.list, hq.count, hq.nonempty, hq.short⟩, hoffset⟩

/-- Every token follows rotations of the past, each at its own pace. -/
theorem History.follows (h : History q₀ a g q tokens) (hl : q₀.Lists l) (hg : g < 2 ^ 32 - 1)
    (i : ι) : Follows l (a i) g (tokens i) := by
  induction h generalizing i with
  | start _ => exact .create l (a i)
  | rotateAll _ ih => exact (ih (by omega) i).mono (Nat.le_succ _)
  | @update g q tokens j token hist hupdate ih =>
      obtain ⟨hq, hoffset⟩ := hist.lists hl
      by_cases hij : i = j
      · subst hij
        obtain ⟨token', hupdate', hinit, hlast, hdesired⟩ := (ih hg i).update hq hg hoffset
        rw [hupdate, Option.some.injEq, Option.some.injEq] at hupdate'
        rw [Function.update_self, hupdate']
        exact ⟨hinit, .inr ⟨g, le_rfl, hlast, hdesired⟩⟩
      · rw [Function.update_of_ne hij]
        exact ih hg i
  | consume j producer current items _ ih =>
      by_cases hij : i = j
      · subst hij
        rw [Function.update_self]
        exact ⟨(ih hg i).initialOffset, (ih hg i).place⟩
      · rw [Function.update_of_ne hij]
        exact ih hg i

/-- **Rotation keeps the consumers spread over the producers.** A token that follows the
rotation `g` desires the producer at the distance `g - a` from the tail, whatever it has
seen before, and two tokens that do so desire the same producer exactly when their numbers
agree. -/
theorem rotation_spreads (hl : q₀.Lists l) (h : History q₀ a g q tokens) (hg : g < 2 ^ 32 - 1) :
    (∀ i, ∃ token, q.updateCurrentProducerAfterRotation (tokens i) = some (some token) ∧
      distance l.length g (a i).toNat < l.length ∧
      token.desiredProducer = l[distance l.length g (a i).toNat]?) ∧
    ∀ i j token token', q.updateCurrentProducerAfterRotation (tokens i) = some (some token) →
      q.updateCurrentProducerAfterRotation (tokens j) = some (some token') →
      (token.desiredProducer = token'.desiredProducer ↔
        (a i).toNat % l.length = (a j).toNat % l.length) := by
  obtain ⟨hq, hoffset⟩ := h.lists hl
  have hpos := hq.pos
  have hplace : ∀ i, ∃ token, q.updateCurrentProducerAfterRotation (tokens i) = some (some token) ∧
      distance l.length g (a i).toNat < l.length ∧
      token.desiredProducer = l[distance l.length g (a i).toNat]? := fun i => by
    obtain ⟨token, hupdate, -, -, hdesired⟩ := (h.follows hl hg i).update hq hg hoffset
    exact ⟨token, hupdate, distance_lt hpos .., hdesired⟩
  refine ⟨hplace, fun i j token token' hi hj => ?_⟩
  obtain ⟨_, hi', hlti, hdesiredi⟩ := hplace i
  obtain ⟨_, hj', hltj, hdesiredj⟩ := hplace j
  obtain rfl := Option.some.inj (Option.some.inj (hi.symm.trans hi'))
  obtain rfl := Option.some.inj (Option.some.inj (hj.symm.trans hj'))
  rw [hdesiredi, hdesiredj, ← distance_eq_iff hpos (g := g)]
  -- no producer is twice on the list
  exact ⟨fun heq => (List.getElem?_inj hlti hq.list.nodup).mp heq, fun heq => by rw [heq]⟩

/-- Three producers, the last of them at the tail. -/
def trio : Queue 8 Nat where
  producer _ := ⟨0, 0, 0, 0, []⟩
  next p := if p = 0 then none else some (p - 1)
  producerListTail := some 2
  producerCount := 3
  globalExplicitConsumerOffset := 0

theorem trio_lists : trio.Lists [2, 1, 0] :=
  ⟨by simp [trio], rfl, by simp, by simp⟩

/-- The token with the number 1 follows the first rotation and the fourth, the one with the
number 4 only the fourth. -/
theorem rotation_spreads_trio : ∃ (q : Queue 8 Nat) (tokens : Bool → ConsumerToken),
    History trio (fun i => if i then 1 else 4) 4 q tokens ∧
    (tokens true).lastKnownGlobalOffset = 1 ∧ (tokens false).lastKnownGlobalOffset = -1 ∧
    ∀ i, ∃ token, q.updateCurrentProducerAfterRotation (tokens i) = some (some token) ∧
      token.desiredProducer = some 2 := by
  have hone : History trio (fun i : Bool => if i then 1 else 4) 1 trio.rotateAll _ :=
    (History.start rfl).rotateAll
  have hupdate : trio.rotateAll.updateCurrentProducerAfterRotation (.create 1) =
      some (some ⟨1, 1, 0, some 2, some 2⟩) := by decide +kernel
  have hfour := (hone.update (i := true) hupdate).rotateAll.rotateAll.rotateAll
  refine ⟨_, _, hfour, rfl, rfl, fun i => ?_⟩
  obtain ⟨token', hupdate', -, hdesired⟩ := (rotation_spreads trio_lists hfour (by decide)).1 i
  refine ⟨token', hupdate', hdesired.trans ?_⟩
  cases i <;> decide

end ConcurrentQueue.Search
