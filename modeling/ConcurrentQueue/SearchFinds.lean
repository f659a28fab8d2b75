import ConcurrentQueue.SearchBulk

/-!
# ConcurrentQueue.SearchFinds

**On a quiescent queue the dequeue methods find every element**: `search_finds` puts the
methods side by side. The methods with a token reduce its offset modulo
`producerCount`, a 32-bit counter, so they ask that the counter is not zero when
there are producers. The bulk methods come back only if the loop over each producer's
elements does: with an `index_t` narrower than `int` it does not end when the range of
elements goes around the end of the type.
-/

namespace ConcurrentQueue.Search

open Function Linked Fuel

variable {α : Type} {w : Nat} {q : Queue w α} {l : List Nat} {c : Nat → List α}

/-- The number of elements of the producers `l`. -/
def total (l : List Nat) (c : Nat → List α) : Nat := (l.map fun p => (c p).length).sum

@[simp] theorem total_nil : total [] c = 0 := rfl

@[simp] theorem total_cons {p : Nat} : total (p :: l) c = (c p).length + total l c := rfl

theorem total_update {p : Nat} {xs : List α} (hp : p ∉ l) :
    total l (update c p xs) = total l c := by
  refine congrArg List.sum (List.map_congr_left fun p' hp' => ?_)
  rw [update_of_ne (ne_of_mem_of_not_mem hp' hp)]

theorem total_perm {l' : List Nat} (h : l.Perm l') : total l c = total l' c :=
  (h.map fun p => (c p).length).sum_eq

theorem total_update_add (c : Nat → List α) {p : Nat} (xs : List α) (hp : p ∈ l) (hl : l.Nodup) :
    total l (update c p xs) + (c p).length = total l c + xs.length := by
  obtain ⟨before, behind, rfl⟩ := List.append_of_mem hp
  have hnodup := List.nodup_cons.mp (List.nodup_middle.mp hl)
  have hmove : (before ++ p :: behind).Perm (p :: (before ++ behind)) := List.perm_middle
  rw [total_perm hmove, total_perm hmove, total_cons, total_cons, update_self,
    total_update hnodup.1]
  omega

/-! ### Gathering without an exception -/

/-- Each producer gives its first elements, in order. -/
theorem gather_none {order : List Nat} (hnodup : order.Nodup) (max : Nat) (c : Nat → List α) :
    ∃ given : Nat → List α,
      (gather order max none c).2 =
        .returned (min max (total order c)) (order.flatMap given) ∧
      (order.flatMap given).length = min max (total order c) ∧
      (∀ p, c p = given p ++ (gather order max none c).1 p) ∧ ∀ p ∉ order, given p = [] := by
  induction order generalizing max c with
  | nil => exact ⟨fun _ => [], by simp [gather], by simp, fun p => rfl, fun p _ => rfl⟩
  | cons p rest ih =>
      obtain ⟨hp, hrest⟩ := List.nodup_cons.mp hnodup
      generalize hn : min max (c p).length = n
      have hgather : gather (p :: rest) max none c = _ := gather_returned hn rfl
      obtain ⟨given, houtcome, hlen, hsplit, hoff⟩ :=
        ih hrest (max - n) (update c p ((c p).drop n))
      rw [total_update hp] at houtcome hlen
      rw [Option.map_none] at hgather
      have hgiven : (p :: rest).flatMap (update given p ((c p).take n)) =
          (c p).take n ++ rest.flatMap given := by
        rw [List.flatMap_cons, update_self, List.flatMap_congr fun p' hp' =>
          update_of_ne (ne_of_mem_of_not_mem hp' hp) ..]
      have hcount : min n (c p).length + min (max - n) (total rest c) =
          min max ((c p).length + total rest c) := by omega
      refine ⟨update given p ((c p).take n), ?_, ?_, fun p' => ?_, fun p' hp' => ?_⟩
      · rw [hgather, houtcome, Popped.after, hgiven, List.length_take, total_cons, hcount]
      · rw [hgiven, List.length_append, List.length_take, hlen, total_cons, hcount]
      · rw [hgather]
        rcases eq_or_ne p' p with rfl | hne
        · have htail := hsplit p'
          rw [update_self, hoff p' hp, List.nil_append] at htail
          rw [update_self, ← htail, List.take_append_drop]
        · have hsame := hsplit p'
          rw [update_of_ne hne] at hsame ⊢
          exact hsame
      · rw [List.mem_cons, not_or] at hp'
        rw [update_of_ne hp'.1]
        exact hoff p' hp'.2

/-- What a bulk method may do: each producer gives its first elements, and together
they give `max`, or all they have; the count that is returned is the number of elements
that were given. -/
def Gathered (l : List Nat) (c : Nat → List α) (max : Nat) (q' : Queue w α) (r : Popped α) :
    Prop :=
  ∃ (order : List Nat) (given c' : Nat → List α), order.Perm l ∧ Valid q' l c' ∧
    (∀ p ∈ l, c p = given p ++ c' p) ∧
    (order.flatMap given).length = min max (total l c) ∧
    r = .returned (min max (total l c)) (order.flatMap given)

theorem Gathered.of_gather {order : List Nat} (hperm : order.Perm l) (hl : l.Nodup) {max : Nat}
    {q' : Queue w α} (h : Valid q' l (gather order max none c).1) :
    Gathered l c max q' (gather order max none c).2 := by
  obtain ⟨given, houtcome, hlen, hsplit, -⟩ := gather_none (hperm.nodup_iff.mpr hl) max c
  rw [total_perm hperm] at houtcome hlen
  exact ⟨order, given, _, hperm, h, fun p _ => hsplit p, hlen, houtcome⟩

/-! ### The size -/

theorem Valid.sizeFrom (hw : 0 < w) (h : Valid q l c) {rest : List Nat} {ptr : Option Nat}
    (hwalk : IsList q.next ptr rest) (hsub : rest ⊆ l) (size : BitVec w) :
    Returns (fun fuel => q.sizeFrom fuel ptr size) (size + BitVec.ofNat w (total rest c)) := by
  induction rest generalizing ptr size with
  | nil =>
      rw [isList_nil.mp hwalk]
      exact .of_succ fun fuel => congrArg some (BitVec.add_zero size).symm
  | cons p rest ih =>
      obtain ⟨rfl, hrest⟩ := isList_cons.mp hwalk
      have hsize := (h.quiescent p (hsub List.mem_cons_self)).sizeApprox hw
      have hreturns := ih hrest (fun p' hp' => hsub (List.mem_cons_of_mem p hp'))
        (size + BitVec.ofNat w (c p).length)
      rw [BitVec.add_assoc, ← BitVec.ofNat_add] at hreturns
      exact hreturns.step fun fuel => by rw [Queue.sizeFrom, hsize]

/-! ### All methods -/

theorem Valid.producerCount_ne (h : Valid q l c) (hmany : l = [] ∨ l.length % 2 ^ 32 ≠ 0) :
    l = [] ∨ q.producerCount ≠ 0 := by
  refine hmany.imp_right fun hne hzero => hne ?_
  have hnat := congrArg BitVec.toNat (h.count.symm.trans hzero)
  rwa [BitVec.toNat_ofNat] at hnat

/-- **The dequeue methods find every element.** On a quiescent queue those that take one
element come back, and fail only where all producers are empty. The bulk methods come
back if and only if the loops over the producers' elements do, and then they have taken
as many elements as they were asked for, or all. The size is the number of elements. A
token that has to find its place needs a number of producers that is not a multiple of
`2^32`. -/
theorem search_finds (hw : 0 < w) (h : Valid q l c) (htotal : total l c < 2 ^ w)
    {token : ConsumerToken} (ht : TokenOf l token)
    (hmany : q.Rotates token → l = [] ∨ l.length % 2 ^ 32 ≠ 0) (quota : BitVec 32)
    (intBits : Nat) (max : BitVec w) :
    (∃ q' r, Returns (q.tryDequeue false) (q', r) ∧ Found false q l c q' r) ∧
    (∃ q' r, Returns (q.tryDequeueNonInterleaved false) (q', r) ∧ Found false q l c q' r) ∧
    (∃ q' token' r, Returns (q.tryDequeueToken quota token false) (q', token', r) ∧
      Found false q l c q' r ∧ TokenOf l token') ∧
    ReturnsIff (LoopsEnd intBits q c l max.toNat none) (q.tryDequeueBulk intBits max none)
      (fun r => Gathered l c max.toNat r.1 r.2) ∧
    (∃ order, AskedBy q l token order ∧
      ReturnsIff (LoopsEnd intBits q c order max.toNat none)
        (q.tryDequeueBulkToken intBits quota token max none)
        fun r => Gathered l c max.toNat r.1 r.2.2 ∧ TokenOf l r.2.1) ∧
    ∃ size, Returns q.sizeApprox size ∧ size.toNat = total l c := by
  have hcount : q.Rotates token → l = [] ∨ q.producerCount ≠ 0 := fun hrotates =>
    h.producerCount_ne (hmany hrotates)
  refine ⟨?_, ?_, ?_, ?_, ?_, ?_⟩
  · obtain ⟨q', r, hfound, hreturns⟩ := h.tryDequeue false hw
    exact ⟨q', r, hreturns, hfound⟩
  · obtain ⟨q', r, hfound, hreturns⟩ := h.tryDequeueNonInterleaved false hw
    exact ⟨q', r, hreturns, hfound⟩
  · obtain ⟨q', token', r, hfound, ht', hreturns⟩ := h.tryDequeueToken false hw ht hcount quota
    exact ⟨q', token', r, hreturns, hfound, ht'⟩
  · refine (h.tryDequeueBulk hw intBits max none).imp ?_
    rintro ⟨q', r⟩ ⟨hvalid, hr⟩
    exact hr ▸ .of_gather (List.Perm.refl l) h.list.nodup hvalid
  · obtain ⟨order, hasked, hreturns⟩ := h.tryDequeueBulkToken hw ht hcount intBits quota max none
    refine ⟨order, hasked, hreturns.imp ?_⟩
    rintro ⟨q', token', r⟩ ⟨hvalid, ht', hr⟩
    exact ⟨hr ▸ .of_gather hasked.perm h.list.nodup hvalid, ht'⟩
  · have hreturns := h.sizeFrom hw h.list (List.Subset.refl l) 0
    refine ⟨_, hreturns, ?_⟩
    show (0#w + BitVec.ofNat w (total l c)).toNat = total l c
    rw [BitVec.zero_add, BitVec.toNat_ofNat, Nat.mod_eq_of_lt htotal]

/-- A queue with `n` producers, of which the newest holds one element. -/
def crowd (n : Nat) : Queue 8 Nat where
  producer p := if p = 0 then ⟨0, 1, 0, 0, [5]⟩ else ⟨0, 0, 0, 0, []⟩
  next p := if p + 1 < n then some (p + 1) else none
  producerListTail := if 0 < n then some 0 else none
  producerCount := BitVec.ofNat 32 n
  globalExplicitConsumerOffset := 0

def crowdElements (p : Nat) : List Nat := if p = 0 then [5] else []

/-- A token as its constructor leaves it. -/
def freshToken : ConsumerToken := ⟨0, -1, 0, none, none⟩

theorem crowd_valid (n : Nat) : Valid (crowd n) (List.range n) crowdElements where
  list := by
    have hfrom : ∀ m k, k + m = n →
        IsList (crowd n).next (if k < n then some k else none) (List.range' k m) := by
      intro m
      induction m with
      | zero =>
          intro k hk
          rw [if_neg (by omega)]
          exact isList_nil.mpr rfl
      | succ m ih =>
          intro k hk
          rw [if_pos (by omega), List.range'_succ]
          exact isList_cons.mpr ⟨rfl, ih (k + 1) (by omega)⟩
    rw [List.range_eq_range']
    exact hfrom n 0 (Nat.zero_add n)
  quiescent := by
    intro p _
    show SubQueue.Quiescent (if p = 0 then _ else _) (if p = 0 then _ else _)
    split
    · exact ⟨rfl, rfl, rfl, by decide⟩
    · exact ⟨rfl, rfl, rfl, by decide⟩
  count := by rw [List.length_range]; rfl

theorem crowd_total {n : Nat} (hn : 0 < n) : total (List.range n) crowdElements = 1 := by
  obtain ⟨n, rfl⟩ := Nat.exists_eq_add_of_lt hn
  rw [Nat.zero_add]
  have hrest : total (List.map Nat.succ (List.range n)) crowdElements = 0 := by
    rw [total, List.map_map]
    exact List.sum_eq_zero fun x hx => by
      obtain ⟨p, -, rfl⟩ := List.mem_map.mp hx
      rfl
  rw [List.range_succ_eq_map, total_cons, hrest]
  rfl

theorem search_finds_crowd :
    Valid (crowd 3) (List.range 3) crowdElements ∧ TokenOf (List.range 3) freshToken ∧
      (∃ q' token' r, Returns ((crowd 3).tryDequeueToken 256 freshToken false) (q', token', r) ∧
        Found false (crowd 3) (List.range 3) crowdElements q' r ∧
        TokenOf (List.range 3) token') ∧
      ∃ r, Gathered (List.range 3) crowdElements 2 r.1 r.2 ∧
        Returns ((crowd 3).tryDequeueBulk 32 2 none) r := by
  obtain ⟨-, -, hsingle, hbulk, -⟩ := search_finds (by decide) (crowd_valid 3)
    (by rw [crowd_total (by decide)]; decide) (show TokenOf _ freshToken from .inl rfl)
    (fun _ => .inr (by decide)) 256 32 2
  exact ⟨crowd_valid 3, .inl rfl, hsingle, hbulk.returns
    ⟨.inr (by decide), .inr ⟨.inr (by decide), .inr ⟨.inr (by decide), .inr trivial⟩⟩⟩⟩

/-! ### Around the end of the type -/

/-- A queue with one producer, whose ten elements go around the end of an `index_t` of
eight bits. -/
def wrapping : Queue 8 Nat where
  producer _ := ⟨250, 4, 250, 0, List.range 10⟩
  next _ := none
  producerListTail := some 0
  producerCount := 1
  globalExplicitConsumerOffset := 0

theorem wrapping_valid : Valid wrapping [0] fun _ => List.range 10 where
  list := ⟨rfl, trivial⟩
  quiescent _ _ := ⟨rfl, show 4#8 = 250#8 + BitVec.ofNat 8 (List.range 10).length by decide,
    show 250#8 = 250#8 + 0#8 by decide, by decide⟩
  count := rfl

/-- The sum of the first index and the count is 260, an `int`, and no index of eight bits is
equal to it: the loop runs on, and a bulk call for the ten elements does not come back. -/
theorem search_loops_forever :
    Valid wrapping [0] (fun _ => List.range 10) ∧ total [0] (fun _ => List.range 10) = 10 ∧
      ∀ fuel, wrapping.tryDequeueBulk 32 10 none fuel = none := by
  refine ⟨wrapping_valid, rfl, fun fuel => ?_⟩
  refine (wrapping_valid.tryDequeueBulk (by decide) 32 10 none).eq_none ?_ fuel
  exact fun hloops => absurd hloops.1 (by decide)

/-! ### Too many producers -/

theorem crowd_faults {n : Nat} (hn : 0 < n) (hzero : BitVec.ofNat 32 n = 0) (fuel : Nat) :
    (crowd n).tryDequeueToken 256 freshToken false fuel = none := by
  have hplace : (crowd n).place freshToken = none := by
    have hcount : (crowd n).producerCount = 0 := hzero
    rw [Queue.place, hcount]
    rfl
  have htail : (crowd n).producerListTail ≠ none := by
    show (if 0 < n then some 0 else none) ≠ none
    rw [if_pos hn]
    exact Option.some_ne_none 0
  have hprepare : (crowd n).prepare freshToken = none := by
    rw [Queue.prepare, if_pos (.inl rfl), Queue.updateCurrentProducerAfterRotation,
      if_neg fun hnone => htail hnone.2, hplace]
    rfl
  rw [Queue.tryDequeueToken, hprepare]

/-- With `2^32` producers their counter is zero, and a fresh token divides by it
although there is an element. -/
theorem search_divides_by_zero :
    Valid (crowd (2 ^ 32)) (List.range (2 ^ 32)) crowdElements ∧
      total (List.range (2 ^ 32)) crowdElements = 1 ∧
      TokenOf (List.range (2 ^ 32)) freshToken ∧
      ∀ fuel, (crowd (2 ^ 32)).tryDequeueToken 256 freshToken false fuel = none :=
  have hpos : 0 < 2 ^ 32 := by decide
  ⟨crowd_valid _, crowd_total hpos, .inl rfl, crowd_faults hpos (by decide)⟩

end ConcurrentQueue.Search
