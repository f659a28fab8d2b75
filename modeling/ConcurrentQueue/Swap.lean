import ConcurrentQueue.Lib.Fuel
import ConcurrentQueue.Lib.Pointers
import ConcurrentQueue.Objects

/-!
# ConcurrentQueue.Swap

**Swapping two queues exchanges what they hold.** Each queue has a chain of tables that
ends in the table inside the queue (`Chain`), and a list of producers that know it as
their parent (`Lists`). Of the chains everything is exchanged by pointer but the last
table, whose entries are exchanged by value; the one pointer that refers to it is the
head of the chain or the link of the table before.
-/

namespace ConcurrentQueue.Objects

open Function Linked Fuel Pointers
open Option (bind_eq_bind bind_some map_eq_some_iff)

variable {κ ι τ : Type}

namespace World

/-! ### Chains and lists -/

def prev (w : World κ ι τ) (p : Place κ) : Option (Place κ) := (w.hash p).prev

def next (w : World κ ι τ) (p : Nat) : Option Nat := (w.producer p).bind (·.next)

/-- The tables `ts` on the heap and the one in the queue `q`. -/
def chainOf (ts : List Nat) (q : κ) : List (Place κ) := ts.map .heap ++ [.within q]

/-- The chain of a queue, the table in the queue being the last. -/
structure Chain (size : Nat) (w : World κ ι τ) (q : κ) (head : Place κ) (ts : List Nat) : Prop where
  chain : IsList w.prev (some head) (chainOf ts q)
  first : w.hash (.within q) = ⟨size, .within q, none⟩
  tables : ∀ n ∈ ts, ∃ k, (w.hash (.heap n)).entries = .heap k

/-- The producers of a queue, which is their parent. -/
structure Lists (w : World κ ι τ) (q : κ) (ptr : Option Nat) (ps : List Nat) : Prop where
  list : IsList w.next ptr ps
  parent : ∀ p ∈ ps, ∃ x, w.producer p = some x ∧ x.parent = q

/-- The lists of two queues have no producer in common, since their parents differ. -/
theorem Lists.disjoint {w : World κ ι τ} {a b : κ} {ptr ptr' : Option Nat} {ps ps' : List Nat}
    (hab : a ≠ b) (ha : Lists w a ptr ps) (hb : Lists w b ptr' ps') : ∀ p ∈ ps, p ∉ ps' := by
  intro p hp hp'
  obtain ⟨x, hx, rfl⟩ := ha.parent p hp
  obtain ⟨y, hy, rfl⟩ := hb.parent p hp'
  rw [hx, Option.some.injEq] at hy
  exact hab (by rw [hy])

/-! ### Redirecting a chain -/

/-- The head of a chain. -/
def headOf (ts : List Nat) (q : κ) : Place κ :=
  match ts with
  | [] => .within q
  | n :: _ => .heap n

theorem chain_head {prev : Place κ → Option (Place κ)} {head : Place κ} {ts : List Nat} {q : κ}
    (h : IsList prev (some head) (chainOf ts q)) : head = headOf ts q := by
  cases ts with
  | nil => exact Option.some.inj (isList_cons.mp h).1
  | cons n ts => exact Option.some.inj (isList_cons.mp h).1

variable [DecidableEq κ]

/-- The loop finds the table before the last one. -/
theorem findBefore_returns {w : World κ ι τ} {q : κ} {n : Nat} {ts : List Nat}
    {h : Option (Place κ)}
    (hl : IsList w.prev h (chainOf (n :: ts) q)) :
    Returns (fun fuel => findBefore (.within q) w fuel (.heap n))
      (.heap ((n :: ts).getLast (List.cons_ne_nil n ts))) := by
  induction ts generalizing n h with
  | nil =>
      refine .of_succ fun fuel => ?_
      have hprev : (w.hash (.heap n)).prev = some (.within q) :=
        (isList_cons.mp (isList_cons.mp hl).2).1
      rw [findBefore, hprev]
      exact if_pos rfl
  | cons m ts ih =>
      have hrest := (isList_cons.mp hl).2
      have hprev : (w.hash (.heap n)).prev = some (.heap m) := (isList_cons.mp hrest).1
      rw [List.getLast_cons (List.cons_ne_nil m ts)]
      refine (ih hrest).step fun fuel => ?_
      rw [findBefore, hprev]
      exact if_neg nofun

/-- The tables after the redirection of a chain with the tables `ts`: the last of these is
linked to the one in `q`. -/
def relinked (hash : Place κ → ImplicitProducerHash κ) (ts : List Nat) (q : κ) (p : Place κ) :
    ImplicitProducerHash κ :=
  if ts.getLast?.map .heap = some p then { hash p with prev := some (.within q) } else hash p

/-- The chain of `this` ends in the table of `other` when the redirection begins. -/
theorem redirect_returns {w : World κ ι τ} {this other : κ} {m : Members κ} {ts : List Nat}
    (hm : w.queue this = some m)
    (hl : IsList w.prev (some m.implicitProducerHash) (chainOf ts other)) :
    Returns (fun fuel => w.redirect fuel this other)
      { w with
        queue := update w.queue this (some { m with
          implicitProducerHash := headOf ts this })
        hash := relinked w.hash ts this } := by
  have hhead := chain_head hl
  cases ts with
  | nil =>
      refine .of_forall fun fuel => ?_
      simp only [redirect, hm, bind_eq_bind, bind_some, hhead]
      exact if_pos rfl
  | cons n ts =>
      have hfind := findBefore_returns hl
      have hsame : update w.queue this (some { m with
          implicitProducerHash := headOf (n :: ts) this }) = w.queue := by
        rw [show headOf (n :: ts) this = m.implicitProducerHash from hhead.symm, ← hm,
          update_eq_self]
      refine hfind.imp fun fuel hfuel => ?_
      simp only [redirect, hm, bind_eq_bind, bind_some, hhead]
      rw [if_neg (by simp [headOf]), hsame]
      simp only [headOf, hfuel, bind_some, setHash]
      congr 2
      funext p
      rw [relinked, List.getLast?_eq_some_getLast (List.cons_ne_nil n ts), Option.map_some]
      by_cases hp : p = .heap ((n :: ts).getLast (List.cons_ne_nil n ts))
      · rw [hp, update_self, if_pos rfl]
      · rw [update_of_ne hp, if_neg fun heq => hp (Option.some.inj heq).symm]

section Relinked

variable (hash : Place κ → ImplicitProducerHash κ) (ts : List Nat) (q : κ)

/-- Tables keep what they hold. -/
theorem relinked_content (p : Place κ) :
    (relinked hash ts q p).capacity = (hash p).capacity ∧
      (relinked hash ts q p).entries = (hash p).entries := by
  unfold relinked
  split <;> exact ⟨rfl, rfl⟩

/-- A table inside a queue is not linked anew. -/
theorem relinked_within (q' : κ) : relinked hash ts q (.within q') = hash (.within q') := by
  refine if_neg fun heq => ?_
  obtain ⟨n, -, hn⟩ := map_eq_some_iff.mp heq
  cases hn

theorem relinked_of_not_mem {p : Place κ} (hp : ∀ n ∈ ts, p ≠ .heap n) :
    relinked hash ts q p = hash p := by
  refine if_neg fun heq => ?_
  obtain ⟨n, hn, hnp⟩ := map_eq_some_iff.mp heq
  exact hp n (List.mem_of_getLast? hn) hnp.symm

theorem relinked_relinked (q' : κ) :
    relinked (relinked hash ts q) ts q' = relinked hash ts q' := by
  funext p
  unfold relinked
  split <;> rfl

/-- Tables of two chains are linked anew independently. -/
theorem relinked_comm {ts' : List Nat} (hdisjoint : ∀ n ∈ ts, n ∉ ts') (q' : κ) :
    relinked (relinked hash ts q) ts' q' = relinked (relinked hash ts' q') ts q := by
  funext p
  by_cases hp : ts.getLast?.map .heap = some p
  · have hp' : ts'.getLast?.map .heap ≠ some p := fun hp' => by
      obtain ⟨n, hn, rfl⟩ := map_eq_some_iff.mp hp
      obtain ⟨n', hn', heq⟩ := map_eq_some_iff.mp hp'
      obtain rfl := Place.heap.inj heq
      exact hdisjoint n' (List.mem_of_getLast? hn) (List.mem_of_getLast? hn')
    simp only [relinked, if_pos hp, if_neg hp']
  · simp only [relinked, if_neg hp]

variable {hash ts q} in
/-- A chain that ends in the right table stays as it is. -/
theorem relinked_self {head : Option (Place κ)}
    (hl : IsList (fun p => (hash p).prev) head (chainOf ts q)) : relinked hash ts q = hash := by
  funext p
  unfold relinked
  split
  case isFalse => rfl
  case isTrue hp =>
      obtain ⟨n, hn, rfl⟩ := map_eq_some_iff.mp hp
      obtain ⟨ts', rfl⟩ : ∃ ts', ts = ts' ++ [n] :=
        ⟨ts.dropLast, (List.dropLast_append_getLast? n hn).symm⟩
      rw [chainOf, List.map_append, List.append_assoc] at hl
      have hprev : (hash (.heap n)).prev = some (.within q) :=
        (isList_cons.mp hl.of_append).1
      rw [← hprev]

end Relinked

/-- After the redirection the chain ends in the table of `this`. -/
theorem chain_relinked {hash : Place κ → ImplicitProducerHash κ} {this other : κ} {ts : List Nat}
    {head : Place κ} (hl : IsList (fun p => (hash p).prev) (some head) (chainOf ts other))
    (hthis : (hash (.within this)).prev = none) :
    IsList (fun p => (relinked hash ts this p).prev) (some (headOf ts this))
      (chainOf ts this) := by
  rcases List.eq_nil_or_concat ts with rfl | ⟨ts, n, rfl⟩
  · exact isList_cons.mpr ⟨rfl, isList_nil.mpr hthis⟩
  · have hprev : (fun p => (relinked hash (ts ++ [n]) this p).prev) =
        update (fun p => (hash p).prev) (.heap n) (some (.within this)) := by
      funext p
      rw [relinked, List.getLast?_concat, Option.map_some]
      by_cases hp : p = .heap n
      · rw [hp, update_self, if_pos rfl]
      · rw [update_of_ne hp, if_neg fun heq => hp (Option.some.inj heq).symm]
    have hhead : head = headOf (ts ++ [n]) this := by
      rw [chain_head hl]
      cases ts <;> rfl
    have hsplit : ∀ q : κ, chainOf (ts ++ [n]) q = ts.map .heap ++ [.heap n, .within q] :=
      fun q => by
      simp [chainOf]
    rw [List.concat_eq_append, hsplit] at hl
    rw [List.concat_eq_append, hprev, ← hhead, hsplit]
    exact hl.relink hthis nofun

omit [DecidableEq κ] in
/-- The chains of two queues have no table in common, since they end differently. -/
theorem chain_disjoint {prev : Place κ → Option (Place κ)} {head head' : Option (Place κ)}
    {ts ts' : List Nat} {a b : κ} (hab : a ≠ b) (hl : IsList prev head (chainOf ts a))
    (hl' : IsList prev head' (chainOf ts' b)) {n : Nat} (hn : n ∈ ts) : n ∉ ts' := by
  intro hn'
  obtain ⟨p, q, rfl⟩ := List.append_of_mem hn
  obtain ⟨p', q', rfl⟩ := List.append_of_mem hn'
  simp only [chainOf, List.map_append, List.map_cons, List.append_assoc, List.cons_append] at hl hl'
  have hlast := congrArg List.getLast? (hl.append_eq hl')
  simp only [List.getLast?_concat, Option.some.injEq, Place.within.injEq] at hlast
  exact hab hlast

/-- Linking other tables anew does not change a chain. -/
theorem chain_kept {hash : Place κ → ImplicitProducerHash κ} {head : Option (Place κ)}
    {ts ts' : List Nat} {a q : κ} (hl : IsList (fun p => (hash p).prev) head (chainOf ts a))
    (hdisjoint : ∀ n ∈ ts, n ∉ ts') :
    IsList (fun p => (relinked hash ts' q p).prev) head (chainOf ts a) := by
  refine hl.congr fun p hp => ?_
  rw [relinked_of_not_mem]
  rintro n hn rfl
  rcases List.mem_append.mp hp with hp | hp
  · obtain ⟨n', hn', heq⟩ := List.mem_map.mp hp
    obtain rfl := Place.heap.inj heq
    exact hdisjoint n' hn' hn
  · exact absurd (List.mem_singleton.mp hp) nofun

/-! ### The chains exchanged -/

section Exchange

variable {w : World κ ι τ} {size : Nat} {a b : κ} {m o : Members κ} {ts ts' : List Nat}

/-- The world after `swap_implicit_producer_hashes`. -/
def withHashesSwapped (w : World κ ι τ) (a b : κ) (m o : Members κ) (ts ts' : List Nat) :
    World κ ι τ :=
  { w with
    queue := update (update w.queue a (some { m with
        implicitProducerHash := headOf ts' a
        implicitProducerHashCount := o.implicitProducerHashCount }))
      b (some { o with
        implicitProducerHash := headOf ts b
        implicitProducerHashCount := m.implicitProducerHashCount })
    hash := relinked (relinked w.hash ts' a) ts b
    entries := update (update w.entries (.within a) (w.entries (.within b)))
      (.within b) (w.entries (.within a)) }

theorem swapImplicitProducerHashes_returns (hsize : size ≠ 0) (hab : a ≠ b)
    (hm : w.queue a = some m) (ho : w.queue b = some o)
    (ha : Chain size w a m.implicitProducerHash ts)
    (hb : Chain size w b o.implicitProducerHash ts') :
    Returns (fun fuel => swapImplicitProducerHashes size fuel a b w)
      (w.withHashesSwapped a b m o ts ts') := by
  -- the tables inside the queues refer to their own entries already
  have hkeep : ∀ q : κ, w.hash (.within q) = ⟨size, .within q, none⟩ →
      update w.hash (.within q) { w.hash (.within q) with entries := .within q } =
        w.hash := fun q hq => by
    conv_rhs => rw [← update_eq_self (.within q) w.hash]
    rw [hq]
  have hmiddle := chain_kept (q := a) ha.chain fun n => chain_disjoint hab ha.chain hb.chain
  -- the two redirections, one after the other
  let m₁ : Members κ := { m with
    implicitProducerHashCount := o.implicitProducerHashCount
    implicitProducerHash := o.implicitProducerHash }
  let o₁ : Members κ := { o with
    implicitProducerHashCount := m.implicitProducerHashCount
    implicitProducerHash := m.implicitProducerHash }
  let w₁ : World κ ι τ := { w with
    queue := update (update w.queue a (some m₁)) b (some o₁)
    entries := update (update w.entries (.within a) (w.entries (.within b)))
      (.within b) (w.entries (.within a)) }
  let w₂ : World κ ι τ := { w₁ with
    queue := update w₁.queue a (some { m₁ with implicitProducerHash := headOf ts' a })
    hash := relinked w.hash ts' a }
  have hfirst : Returns (fun fuel => w₁.redirect fuel a b) w₂ :=
    redirect_returns ((update_of_ne hab _ _).trans (update_self ..)) hb.chain
  have hob : w₂.queue b = some o₁ :=
    (update_of_ne hab.symm _ _).trans (update_self ..)
  have hsecond := redirect_returns hob (hmiddle : IsList w₂.prev _ _)
  refine (hfirst.bind (g := fun w fuel => w.redirect fuel b a) hsecond).imp fun fuel hfuel => ?_
  have hstart : swapImplicitProducerHashes size fuel a b w =
      (w₁.redirect fuel a b).bind fun w => w.redirect fuel b a := by
    rw [swapImplicitProducerHashes, if_neg hsize]
    simp only [setEntries, setHash, setQueue, hkeep a ha.first, hkeep b hb.first, hm, ho,
      bind_eq_bind, bind_some]
    rfl
  have hqueue : update w₂.queue b (some { o₁ with implicitProducerHash := headOf ts b }) =
      (w.withHashesSwapped a b m o ts ts').queue :=
    update_pair hab
  rw [hstart, hfuel, hqueue]
  rfl

end Exchange

/-! ### The producers and their parents -/

omit [DecidableEq κ] in
/-- The producers after `reown_producers` of the queue `q`. -/
def reowned (producer : Nat → Option (Producer κ τ)) (ps : List Nat) (q : κ) (p : Nat) :
    Option (Producer κ τ) :=
  if p ∈ ps then (producer p).map fun x => { x with parent := q } else producer p

omit [DecidableEq κ] in
theorem reowned_next (producer : Nat → Option (Producer κ τ)) (ps : List Nat) (q : κ) (p : Nat) :
    (reowned producer ps q p).bind (·.next) = (producer p).bind (·.next) := by
  unfold reowned
  split
  · cases producer p <;> rfl
  · rfl

section Reowned

omit [DecidableEq κ]

variable (producer : Nat → Option (Producer κ τ)) (ps : List Nat) (q : κ)

theorem reowned_reowned (q' : κ) :
    reowned (reowned producer ps q) ps q' = reowned producer ps q' := by
  funext p
  unfold reowned
  split
  · rw [Option.map_map]
    rfl
  · rfl

theorem reowned_comm {ps' : List Nat} (hdisjoint : ∀ p ∈ ps, p ∉ ps') (q' : κ) :
    reowned (reowned producer ps q) ps' q' = reowned (reowned producer ps' q') ps q := by
  funext p
  by_cases hp : p ∈ ps
  · simp only [reowned, if_pos hp, if_neg (hdisjoint p hp)]
  · simp only [reowned, if_neg hp]

variable {producer ps q} in
theorem reowned_self (h : ∀ p ∈ ps, ∃ x, producer p = some x ∧ x.parent = q) :
    reowned producer ps q = producer := by
  funext p
  unfold reowned
  split
  case isFalse => rfl
  case isTrue hp =>
      obtain ⟨x, hx, rfl⟩ := h p hp
      rw [hx]
      rfl

end Reowned

omit [DecidableEq κ] in
theorem reownFrom_returns {w : World κ ι τ} {q : κ} {ptr : Option Nat} {ps : List Nat}
    (hl : IsList w.next ptr ps) (halive : ∀ p ∈ ps, ∃ x, w.producer p = some x) :
    Returns (fun fuel => reownFrom q fuel ptr w)
      { w with producer := reowned w.producer ps q } := by
  induction ps generalizing ptr w with
  | nil =>
      rw [isList_nil.mp hl]
      exact .of_succ fun _ => rfl
  | cons p ps ih =>
      obtain ⟨rfl, hrest⟩ := isList_cons.mp hl
      obtain ⟨x, hx⟩ := halive p List.mem_cons_self
      have hp : p ∉ ps := (List.nodup_cons.mp hl.nodup).1
      let w₁ : World κ ι τ := w.setProducer p (some { x with parent := q })
      have hother : ∀ p' ≠ p, w₁.producer p' = w.producer p' := fun p' hp' =>
        update_of_ne hp' _ _
      have hself : w₁.producer p = some { x with parent := q } := update_self ..
      have hnext : w.next p = x.next := by rw [next, hx, bind_some]
      rw [hnext] at hrest
      have hrest₁ : IsList w₁.next x.next ps := hrest.congr fun p' hp' => by
        rw [next, next, hother p' fun heq => hp (heq ▸ hp')]
      have halive₁ : ∀ p' ∈ ps, ∃ x, w₁.producer p' = some x := fun p' hp' => by
        rw [hother p' fun heq => hp (heq ▸ hp')]
        exact halive p' (List.mem_cons_of_mem p hp')
      have hproducer : reowned w₁.producer ps q = reowned w.producer (p :: ps) q := by
        funext p'
        unfold reowned
        by_cases hpp : p' = p
        · subst hpp
          rw [if_neg hp, if_pos List.mem_cons_self, hself, hx]
          rfl
        · simp only [hother p' hpp, List.mem_cons, hpp, false_or]
      have hreturns := ih hrest₁ halive₁
      rw [hproducer] at hreturns
      refine hreturns.step fun fuel => ?_
      rw [reownFrom, hx]
      rfl

omit [DecidableEq κ] in
theorem reowned_alive {producer : Nat → Option (Producer κ τ)} {ps : List Nat} {q : κ} {p : Nat}
    (h : ∃ x, producer p = some x) : ∃ x, reowned producer ps q p = some x := by
  obtain ⟨x, hx⟩ := h
  unfold reowned
  split
  · exact ⟨_, by rw [hx]; rfl⟩
  · exact ⟨x, hx⟩

omit [DecidableEq κ] in
theorem Lists.alive {w : World κ ι τ} {q : κ} {ptr : Option Nat} {ps : List Nat}
    (h : Lists w q ptr ps) : ∀ p ∈ ps, ∃ x, w.producer p = some x := fun p hp => by
  obtain ⟨x, hx, -⟩ := h.parent p hp
  exact ⟨x, hx⟩

omit [DecidableEq κ] in
theorem reownProducers_returns {w : World κ ι τ} {q : κ} {m : Members κ} {ps : List Nat}
    (hm : w.queue q = some m) (hl : IsList w.next m.producerListTail ps)
    (halive : ∀ p ∈ ps, ∃ x, w.producer p = some x) :
    Returns (fun fuel => w.reownProducers fuel q)
      { w with producer := reowned w.producer ps q } :=
  (reownFrom_returns hl halive).imp fun fuel hfuel => by
    rw [reownProducers, hm]
    exact hfuel

/-! ### Searching -/

omit [DecidableEq κ] in
/-- What a search sees of a table. -/
def content (w : World κ ι τ) (p : Place κ) : Nat × List (ImplicitProducerKVP ι) :=
  ((w.hash p).capacity, w.entries (w.hash p).entries)

omit [DecidableEq κ] in
theorem Chain.content_first {size : Nat} {w : World κ ι τ} {q : κ} {head : Place κ} {ts : List Nat}
    (h : Chain size w q head ts) : w.content (.within q) = (size, w.entries (.within q)) := by
  rw [content, h.first]

omit [DecidableEq κ] in
/-- Searches through chains of tables with the same contents find the same. -/
theorem search_congr [DecidableEq ι] {w w' : World κ ι τ} {l l' : List (Place κ)}
    {h h' : Option (Place κ)} (hl : IsList w.prev h l) (hl' : IsList w'.prev h' l')
    (hsame : List.Forall₂ (fun p p' => w'.content p' = w.content p) l l') (hashedId : Nat) (id : ι)
    (fuel : Nat) : search hashedId id w' fuel h' = search hashedId id w fuel h := by
  induction hsame generalizing h h' fuel with
  | nil =>
      rw [isList_nil.mp hl, isList_nil.mp hl']
      cases fuel <;> rfl
  | @cons p p' l l' hp _ ih =>
      obtain ⟨rfl, hrest⟩ := isList_cons.mp hl
      obtain ⟨rfl, hrest'⟩ := isList_cons.mp hl'
      cases fuel with
      | zero => rfl
      | succ fuel =>
          obtain ⟨hcapacity, hentries⟩ := Prod.mk.inj hp
          rw [search, search, hcapacity, hentries]
          congr 1
          funext found
          cases found with
          | some value => rfl
          | none => exact ih hrest hrest' fuel

omit [DecidableEq κ] in
theorem chainOf_forall₂ {R : Place κ → Place κ → Prop} {ts : List Nat} {q q' : κ}
    (hheap : ∀ n ∈ ts, R (.heap n) (.heap n)) (hlast : R (.within q) (.within q')) :
    List.Forall₂ R (chainOf ts q) (chainOf ts q') := by
  induction ts with
  | nil => exact .cons hlast .nil
  | cons n ts ih =>
      exact .cons (hheap n List.mem_cons_self) (ih fun k hk => hheap k (List.mem_cons_of_mem n hk))

/-! ### Swapping -/

section Swap

variable {w : World κ ι τ} {size : Nat} {a b : κ} {m o : Members κ} {ts ts' ps ps' : List Nat}

/-- What the queue `q` holds: its members `m`, the tables `ts` and the one inside, and the
producers `ps`. -/
structure Holds (size : Nat) (w : World κ ι τ) (q : κ) (m : Members κ) (ts ps : List Nat) :
    Prop where
  queue : w.queue q = some m
  chain : Chain size w q m.implicitProducerHash ts
  lists : Lists w q m.producerListTail ps

/-- The world after a swap. -/
def exchanged (w : World κ ι τ) (a b : κ) (m o : Members κ) (ts ts' ps ps' : List Nat) :
    World κ ι τ :=
  { w with
    queue := update (update w.queue a (some { o with
        implicitProducerHash := headOf ts' a
        implicitProducerHashResizeInProgress := m.implicitProducerHashResizeInProgress }))
      b (some { m with
        implicitProducerHash := headOf ts b
        implicitProducerHashResizeInProgress := o.implicitProducerHashResizeInProgress })
    hash := relinked (relinked w.hash ts' a) ts b
    entries := update (update w.entries (.within a) (w.entries (.within b)))
      (.within b) (w.entries (.within a))
    producer := reowned (reowned w.producer ps' a) ps b }

theorem swapInternal_returns (hsize : size ≠ 0) (hab : a ≠ b) (ha : Holds size w a m ts ps)
    (hb : Holds size w b o ts' ps') :
    Returns (fun fuel => w.swapInternal size fuel a b) (w.exchanged a b m o ts ts' ps ps') := by
  let m₁ : Members κ := { o with
    implicitProducerHash := m.implicitProducerHash
    implicitProducerHashCount := m.implicitProducerHashCount
    implicitProducerHashResizeInProgress := m.implicitProducerHashResizeInProgress }
  let o₁ : Members κ := { m with
    implicitProducerHash := o.implicitProducerHash
    implicitProducerHashCount := o.implicitProducerHashCount
    implicitProducerHashResizeInProgress := o.implicitProducerHashResizeInProgress }
  let w₁ : World κ ι τ := { w with
    queue := update (update w.queue a (some m₁)) b (some o₁) }
  have hqa : w₁.queue a = some m₁ := (update_of_ne hab _ _).trans (update_self ..)
  have hqb : w₁.queue b = some o₁ := update_self ..
  have hhashes := swapImplicitProducerHashes_returns (m := m₁) (o := o₁) hsize hab hqa hqb
    ⟨ha.chain.chain, ha.chain.first, ha.chain.tables⟩
    ⟨hb.chain.chain, hb.chain.first, hb.chain.tables⟩
  let w₂ : World κ ι τ := w₁.withHashesSwapped a b m₁ o₁ ts ts'
  have hqa₂ : w₂.queue a = some { m₁ with
      implicitProducerHash := headOf ts' a
      implicitProducerHashCount := o₁.implicitProducerHashCount } :=
    (update_of_ne hab _ _).trans (update_self ..)
  have hqb₂ : w₂.queue b = some { o₁ with
      implicitProducerHash := headOf ts b
      implicitProducerHashCount := m₁.implicitProducerHashCount } := update_self ..
  -- the producers are on the other queue now
  have hreowna := reownProducers_returns hqa₂ (hb.lists.list : IsList w₂.next _ _) hb.lists.alive
  let w₃ : World κ ι τ := { w₂ with producer := reowned w.producer ps' a }
  have hnext₃ : IsList w₃.next m.producerListTail ps :=
    ha.lists.list.congr fun p _ => reowned_next ..
  have hreownb := reownProducers_returns (w := w₃) hqb₂ hnext₃
    fun p hp => reowned_alive (ha.lists.alive p hp)
  have hqueue : w₂.queue = (w.exchanged a b m o ts ts' ps ps').queue := update_pair hab
  refine (hhashes.bind (g := fun w fuel => (w.reownProducers fuel a).bind
    fun w => w.reownProducers fuel b) (hreowna.bind (g := fun w fuel => w.reownProducers fuel b)
      hreownb)).imp fun fuel hfuel => ?_
  have hstart : w.swapInternal size fuel a b = (swapImplicitProducerHashes size fuel a b w₁).bind
      fun w => (w.reownProducers fuel a).bind fun w => w.reownProducers fuel b := by
    rw [swapInternal, if_neg hab, ha.queue, hb.queue]
    rfl
  rw [hstart, hfuel]
  show some { w₂ with producer := _ } = _
  rw [hqueue]
  rfl

variable (hab : a ≠ b) (ha : Holds size w a m ts ps) (hb : Holds size w b o ts' ps')
include hab ha hb

theorem Holds.exchanged_left :
    Holds size (w.exchanged a b m o ts ts' ps ps') a { o with
      implicitProducerHash := headOf ts' a
      implicitProducerHashResizeInProgress := m.implicitProducerHashResizeInProgress } ts' ps' where
  queue := (update_of_ne hab _ _).trans (update_self ..)
  chain :=
    { chain := chain_kept
        (chain_relinked hb.chain.chain (by rw [ha.chain.first]))
        fun n hn hn' => chain_disjoint hab ha.chain.chain hb.chain.chain hn' hn
      first := by
        show relinked (relinked w.hash ts' a) ts b (.within a) = _
        rw [relinked_within, relinked_within, ha.chain.first]
      tables := fun n hn => by
        show ∃ k, (relinked (relinked w.hash ts' a) ts b (.heap n)).entries = _
        rw [(relinked_content ..).2, (relinked_content ..).2]
        exact hb.chain.tables n hn }
  lists :=
    { list := hb.lists.list.congr fun p _ => (reowned_next ..).trans (reowned_next ..)
      parent := fun p hp => by
        obtain ⟨x, hx, -⟩ := hb.lists.parent p hp
        refine ⟨{ x with parent := a }, ?_, rfl⟩
        show reowned (reowned w.producer ps' a) ps b p = _
        rw [reowned, if_neg fun hp' => ha.lists.disjoint hab hb.lists p hp' hp, reowned, if_pos hp,
          hx]
        rfl }

theorem Holds.exchanged_right :
    Holds size (w.exchanged a b m o ts ts' ps ps') b { m with
      implicitProducerHash := headOf ts b
      implicitProducerHashResizeInProgress := o.implicitProducerHashResizeInProgress } ts ps where
  queue := update_self ..
  chain :=
    { chain := chain_relinked
        (chain_kept ha.chain.chain fun n => chain_disjoint hab ha.chain.chain hb.chain.chain)
        (by rw [relinked_within, hb.chain.first])
      first := by
        show relinked (relinked w.hash ts' a) ts b (.within b) = _
        rw [relinked_within, relinked_within, hb.chain.first]
      tables := fun n hn => by
        show ∃ k, (relinked (relinked w.hash ts' a) ts b (.heap n)).entries = _
        rw [(relinked_content ..).2, (relinked_content ..).2]
        exact ha.chain.tables n hn }
  lists :=
    { list := ha.lists.list.congr fun p _ => (reowned_next ..).trans (reowned_next ..)
      parent := fun p hp => by
        obtain ⟨x, hx, -⟩ := ha.lists.parent p hp
        refine ⟨{ x with parent := b }, ?_, rfl⟩
        show reowned (reowned w.producer ps' a) ps b p = _
        rw [reowned, if_pos hp, reowned, if_neg (ha.lists.disjoint hab hb.lists p hp), hx]
        rfl }

omit hab ha hb in
/-- Tables on the heap keep their contents. -/
theorem exchanged_content {n : Nat} (hn : ∃ k, (w.hash (.heap n)).entries = .heap k) :
    (w.exchanged a b m o ts ts' ps ps').content (.heap n) = w.content (.heap n) := by
  obtain ⟨k, hk⟩ := hn
  have hcontent : ∀ hash : Place κ → ImplicitProducerHash κ, ∀ ts q,
      (relinked hash ts q (.heap n)).capacity = (hash (.heap n)).capacity ∧
        (relinked hash ts q (.heap n)).entries = (hash (.heap n)).entries := fun hash ts q =>
    relinked_content hash ts q _
  show ((relinked (relinked w.hash ts' a) ts b (.heap n)).capacity, update
    (update w.entries (.within a) (w.entries (.within b))) (.within b)
      (w.entries (.within a)) (relinked (relinked w.hash ts' a) ts b (.heap n)).entries) = _
  rw [(hcontent _ ts b).1, (hcontent _ ts' a).1, (hcontent _ ts b).2, (hcontent _ ts' a).2, hk,
    update_of_ne (by simp), update_of_ne (by simp), content, hk]

omit ha hb in
theorem exchanged_entries :
    (w.exchanged a b m o ts ts' ps ps').entries (.within a) = w.entries (.within b) ∧
      (w.exchanged a b m o ts ts' ps ps').entries (.within b) = w.entries (.within a) := by
  have hplaces : (Place.within a : Place κ) ≠ .within b := by simpa using hab
  exact ⟨(update_of_ne hplaces _ _).trans (update_self ..),
    update_self ..⟩

/-- **Every lookup finds in the one queue what it found in the other.** -/
theorem Holds.exchanged_lookup [DecidableEq ι] (fuel hashedId : Nat) (id : ι) :
    lookup fuel a hashedId id (w.exchanged a b m o ts ts' ps ps') = lookup fuel b hashedId id w ∧
      lookup fuel b hashedId id (w.exchanged a b m o ts ts' ps ps') =
        lookup fuel a hashedId id w := by
  have hleft := ha.exchanged_left hab hb
  have hright := ha.exchanged_right hab hb
  obtain ⟨hentriesa, hentriesb⟩ := exchanged_entries (w := w) hab
  constructor
  · rw [lookup, lookup, hleft.queue, hb.queue]
    refine search_congr hb.chain.chain hleft.chain.chain (chainOf_forall₂ (fun n hn =>
      exchanged_content (hb.chain.tables n hn)) ?_) ..
    rw [hleft.chain.content_first, hb.chain.content_first, hentriesa]
  · rw [lookup, lookup, hright.queue, ha.queue]
    refine search_congr ha.chain.chain hright.chain.chain (chainOf_forall₂ (fun n hn =>
      exchanged_content (ha.chain.tables n hn)) ?_) ..
    rw [hright.chain.content_first, ha.chain.content_first, hentriesb]

/-- Swapped twice, everything is as it was. -/
theorem Holds.exchanged_exchanged :
    (w.exchanged a b m o ts ts' ps ps').exchanged a b
      { o with
        implicitProducerHash := headOf ts' a
        implicitProducerHashResizeInProgress := m.implicitProducerHashResizeInProgress }
      { m with
        implicitProducerHash := headOf ts b
        implicitProducerHashResizeInProgress := o.implicitProducerHashResizeInProgress }
      ts' ts ps' ps = w := by
  have hts : ∀ n ∈ ts', n ∉ ts := fun n hn hn' =>
    chain_disjoint hab ha.chain.chain hb.chain.chain hn' hn
  have hps : ∀ p ∈ ps', p ∉ ps := fun p hp hp' => ha.lists.disjoint hab hb.lists p hp' hp
  have hhash : relinked (relinked (relinked (relinked w.hash ts' a) ts b) ts a) ts' b = w.hash := by
    rw [relinked_relinked, relinked_comm _ _ _ hts, relinked_relinked,
      relinked_self ha.chain.chain, relinked_self hb.chain.chain]
  have hproducer :
      reowned (reowned (reowned (reowned w.producer ps' a) ps b) ps a) ps' b = w.producer := by
    rw [reowned_reowned, reowned_comm _ _ _ hps, reowned_reowned, reowned_self ha.lists.parent,
      reowned_self hb.lists.parent]
  have hplaces : (Place.within a : Place κ) ≠ .within b := by simpa using hab
  have hentries : update (update (w.exchanged a b m o ts ts' ps ps').entries
      (.within a) ((w.exchanged a b m o ts ts' ps ps').entries (.within b))) (.within b)
        ((w.exchanged a b m o ts ts' ps ps').entries (.within a)) = w.entries := by
    refine (update_pair hplaces).trans ?_
    obtain ⟨hentriesa, hentriesb⟩ := exchanged_entries (w := w) hab
    rw [hentriesa, hentriesb, update_eq_self, update_eq_self]
  refine World.ext ?_ hhash hentries hproducer rfl rfl
  refine (update_pair hab).trans ?_
  rw [← chain_head ha.chain.chain, ← chain_head hb.chain.chain, ← ha.queue, ← hb.queue,
    update_eq_self, update_eq_self]

end Swap

/-! ### Moving -/

section Move

variable {w : World κ ι τ} {size : Nat} {a c : κ} {m : Members κ} {ts ps : List Nat}

omit [DecidableEq κ] in
/-- The members of a queue that holds nothing. -/
def emptyMembers (q : κ) : Members κ where
  producerListTail := none
  producerCount := 0
  initialBlockPoolIndex := 0
  initialBlockPool := none
  initialBlockPoolSize := 0
  freeListHead := none
  implicitProducerHash := .within q
  implicitProducerHashCount := 0
  implicitProducerHashResizeInProgress := false
  nextExplicitConsumerId := 0
  globalExplicitConsumerOffset := 0

theorem construct_eq (hsize : size ≠ 0) (w : World κ ι τ) (q : κ) :
    w.construct size q 0 none = some { w with
      queue := update w.queue q (some (emptyMembers q))
      hash := update w.hash (.within q) ⟨size, .within q, none⟩
      entries := update w.entries (.within q) (freshEntries size) } := by
  rw [construct, populateInitialImplicitProducerHash, if_neg hsize]
  simp only [setEntries, setQueue, update_self, bind_eq_bind, bind_some,
    setHash, update_idem, freshEntries, List.map_replicate]
  rfl

/-- The world after `c` has been constructed from `a`. -/
def moved (size : Nat) (w : World κ ι τ) (c a : κ) (m : Members κ) (ts ps : List Nat) :
    World κ ι τ :=
  { w with
    queue := update (update w.queue c (some { m with
        implicitProducerHash := headOf ts c
        implicitProducerHashResizeInProgress := false }))
      a (some { emptyMembers a with
        implicitProducerHashResizeInProgress := m.implicitProducerHashResizeInProgress })
    hash := relinked (update w.hash (.within c) ⟨size, .within c, none⟩) ts c
    entries := update (update w.entries (.within c) (w.entries (.within a)))
      (.within a) (freshEntries size)
    producer := reowned w.producer ps c }

theorem moveConstruct_returns (hsize : size ≠ 0) (hca : c ≠ a) (ha : Holds size w a m ts ps) :
    Returns (fun fuel => w.moveConstruct size fuel c a) (moved size w c a m ts ps) := by
  have hplaces : (Place.within c : Place κ) ≠ .within a := by simpa using hca
  let mc : Members κ := { m with
    implicitProducerHash := .within c
    implicitProducerHashCount := 0
    implicitProducerHashResizeInProgress := false }
  let ma : Members κ := { m with freeListHead := none }
  let w₁ : World κ ι τ := { w with
    queue := update (update w.queue c (some mc)) a (some ma)
    hash := update w.hash (.within c) ⟨size, .within c, none⟩
    entries := update w.entries (.within c) (freshEntries size) }
  have hqc : w₁.queue c = some mc := (update_of_ne hca _ _).trans (update_self ..)
  have hqa : w₁.queue a = some ma := update_self ..
  have hhash : ∀ p ≠ .within c, w₁.hash p = w.hash p := fun p hp => update_of_ne hp _ _
  have hchainc : Chain size w₁ c mc.implicitProducerHash [] :=
    { chain := isList_cons.mpr ⟨rfl, isList_nil.mpr (by
        show (w₁.hash (.within c)).prev = none
        rw [show w₁.hash (.within c) = _ from update_self ..])⟩
      first := update_self ..
      tables := nofun }
  have hchaina : Chain size w₁ a ma.implicitProducerHash ts :=
    { chain := ha.chain.chain.congr fun p hp => by
        rw [prev, prev, hhash p]
        rintro rfl
        simp [chainOf, hca] at hp
      first := by
        rw [hhash _ hplaces.symm]
        exact ha.chain.first
      tables := fun n hn => by
        rw [hhash _ (by simp)]
        exact ha.chain.tables n hn }
  have hhashes := swapImplicitProducerHashes_returns hsize hca hqc hqa hchainc hchaina
  let w₂ : World κ ι τ := w₁.withHashesSwapped c a mc ma [] ts
  have hqc₂ : w₂.queue c = some { m with
      implicitProducerHash := headOf ts c
      implicitProducerHashResizeInProgress := false } :=
    (update_of_ne hca _ _).trans (update_self ..)
  have hqa₂ : w₂.queue a = some { ma with
      implicitProducerHash := .within a
      implicitProducerHashCount := 0 } := update_self ..
  let w₃ : World κ ι τ := w₂.setQueue a (some { emptyMembers a with
    implicitProducerHashResizeInProgress := m.implicitProducerHashResizeInProgress })
  have hqc₃ : w₃.queue c = some { m with
      implicitProducerHash := headOf ts c
      implicitProducerHashResizeInProgress := false } :=
    (update_of_ne hca _ _).trans hqc₂
  have hreown := reownProducers_returns hqc₃ (ha.lists.list : IsList w₃.next _ _) ha.lists.alive
  -- the constructor sets up its own table before it swaps
  let w₀ : World κ ι τ := { w₁ with hash := w.hash }
  have hpopulate : populateInitialImplicitProducerHash size c w₀ = some w₁ := by
    rw [populateInitialImplicitProducerHash, if_neg hsize, show w₀.queue c = some mc from hqc]
    refine congrArg some (World.ext ?_ rfl ?_ rfl rfl rfl)
    · show update w₁.queue c (some mc) = w₁.queue
      rw [← hqc, update_eq_self]
    · show update w₁.entries (.within c) ((w₁.entries (.within c)).map _) = w₁.entries
      rw [show w₁.entries (.within c) = freshEntries size from update_self ..,
        freshEntries, List.map_replicate]
      exact update_idem ..
  obtain ⟨n, hn⟩ := hhashes
  obtain ⟨k, hk⟩ := hreown
  refine ⟨max n k, fun fuel hfuel => ?_⟩
  have hstart : w.moveConstruct size fuel c a =
    ((populateInitialImplicitProducerHash size c w₀).bind
      fun w => swapImplicitProducerHashes size fuel c a w).bind fun w => (w.queue a).bind fun o =>
        (w.setQueue a (some { o with
          producerListTail := none
          producerCount := 0
          nextExplicitConsumerId := 0
          globalExplicitConsumerOffset := 0
          initialBlockPoolIndex := 0
          initialBlockPoolSize := 0
          initialBlockPool := none })).reownProducers fuel c := by
    simp only [moveConstruct, ha.queue, bind_eq_bind, bind_some]
    rw [Option.bind_assoc]
    rfl
  have hswap : swapImplicitProducerHashes size fuel c a w₁ = some w₂ :=
    hn fuel (le_of_max_le_left hfuel)
  dsimp only
  rw [hstart, hpopulate, bind_some, hswap, bind_some, hqa₂, bind_some]
  refine (hk fuel (le_of_max_le_right hfuel)).trans
    (congrArg some (World.ext ?_ rfl ?_ rfl rfl rfl))
  · show update w₂.queue a _ = _
    rw [show w₂.queue = _ from update_pair hca, update_idem]
    rfl
  · show update (update (update w.entries (.within c) _) (.within c)
      (w₁.entries (.within a))) (.within a) (w₁.entries (.within c)) = _
    rw [update_idem, show w₁.entries (.within c) = freshEntries size from
      update_self .., show w₁.entries (.within a) = w.entries (.within a) from
      update_of_ne hplaces.symm _ _]
    rfl

variable (hca : c ≠ a) (ha : Holds size w a m ts ps)
include hca ha

theorem Holds.moved_target :
    Holds size (moved size w c a m ts ps) c { m with
      implicitProducerHash := headOf ts c
      implicitProducerHashResizeInProgress := false } ts ps where
  queue := (update_of_ne hca _ _).trans (update_self ..)
  chain :=
    { chain := chain_relinked (ha.chain.chain.congr fun p hp => by
          rw [prev, update_of_ne]
          rintro rfl
          simp [chainOf, hca] at hp) (by rw [update_self])
      first := (relinked_within ..).trans (update_self ..)
      tables := fun n hn => by
        show ∃ k, (relinked _ ts c (.heap n)).entries = _
        rw [(relinked_content ..).2, update_of_ne (by simp)]
        exact ha.chain.tables n hn }
  lists :=
    { list := ha.lists.list.congr fun p _ => reowned_next ..
      parent := fun p hp => by
        obtain ⟨x, hx, -⟩ := ha.lists.parent p hp
        refine ⟨{ x with parent := c }, ?_, rfl⟩
        show reowned w.producer ps c p = _
        rw [reowned, if_pos hp, hx]
        rfl }

theorem Holds.moved_lookup [DecidableEq ι] (fuel hashedId : Nat) (id : ι) :
    lookup fuel c hashedId id (moved size w c a m ts ps) = lookup fuel a hashedId id w := by
  have hplaces : (Place.within c : Place κ) ≠ .within a := by simpa using hca
  have htarget := ha.moved_target hca
  rw [lookup, lookup, htarget.queue, ha.queue]
  refine search_congr ha.chain.chain htarget.chain.chain (chainOf_forall₂ (fun n hn => ?_) ?_) ..
  · obtain ⟨k, hk⟩ := ha.chain.tables n hn
    have hcontent := relinked_content
      (update w.hash (.within c) ⟨size, .within c, none⟩) ts c (.heap n)
    rw [update_of_ne (by simp)] at hcontent
    show ((relinked _ ts c (.heap n)).capacity, update (update w.entries
      (.within c) _) (.within a) _ (relinked _ ts c (.heap n)).entries) = _
    rw [hcontent.1, hcontent.2, hk, update_of_ne (by simp),
      update_of_ne (by simp), content, hk]
  · rw [htarget.chain.content_first, ha.chain.content_first]
    exact congrArg _ ((update_of_ne hplaces _ _).trans (update_self ..))

end Move

end World

open World

/-- All members but the head of the chain of tables, which a queue that has grown no table
keeps inside, and the flag that belongs to the queue object. -/
def Members.Same (m m' : Members κ) : Prop :=
  m' = { m with
    implicitProducerHash := m'.implicitProducerHash
    implicitProducerHashResizeInProgress := m'.implicitProducerHashResizeInProgress }

/-- **Swapping two queues exchanges what they hold, and moving hands it over.** The chains
end in the table inside their queue again, lookups find what they found in the other queue,
and all producers know their parents. Swapping once more restores everything. A queue that
has been moved from is like one newly constructed without blocks. -/
theorem swap_and_move [DecidableEq κ] [DecidableEq ι] {size : Nat} {w : World κ ι τ} {a b : κ}
    {m o : Members κ} {ts ts' ps ps' : List Nat} (hsize : size ≠ 0) (hab : a ≠ b)
    (ha : Holds size w a m ts ps) (hb : Holds size w b o ts' ps') :
    (∃ w', Returns (fun fuel => w.swapInternal size fuel a b) w' ∧
      (∃ o', Holds size w' a o' ts' ps' ∧ o.Same o') ∧
        (∃ m', Holds size w' b m' ts ps ∧ m.Same m') ∧
      (∀ fuel hashedId id,
        lookup fuel a hashedId id w' = lookup fuel b hashedId id w ∧
        lookup fuel b hashedId id w' = lookup fuel a hashedId id w) ∧
      (∀ q, q ≠ a → q ≠ b → w'.queue q = w.queue q) ∧
      Returns (fun fuel => w'.swapInternal size fuel a b) w) ∧
    ∀ c, w.queue c = none → ∃ w', Returns (fun fuel => w.moveConstruct size fuel c a) w' ∧
      (∃ m', Holds size w' c m' ts ps ∧ m.Same m') ∧
      (∀ fuel hashedId id, lookup fuel c hashedId id w' = lookup fuel a hashedId id w) ∧
      ∃ w₀ e, w.construct size a 0 none = some w₀ ∧ w₀.queue a = some e ∧
        w'.queue a = some { e with
          implicitProducerHashResizeInProgress := m.implicitProducerHashResizeInProgress } ∧
        w'.hash (.within a) = w₀.hash (.within a) ∧
        w'.entries (.within a) = w₀.entries (.within a) := by
  refine ⟨⟨_, swapInternal_returns hsize hab ha hb, ⟨_, ha.exchanged_left hab hb, rfl⟩,
    ⟨_, ha.exchanged_right hab hb, rfl⟩, ha.exchanged_lookup hab hb, fun q hqa hqb => ?_, ?_⟩,
    fun c hc => ?_⟩
  · exact (update_of_ne hqb _ _).trans (update_of_ne hqa _ _)
  · have hback := swapInternal_returns hsize hab (ha.exchanged_left hab hb)
      (ha.exchanged_right hab hb)
    rwa [ha.exchanged_exchanged hab hb] at hback
  · have hca : c ≠ a := by
      rintro rfl
      rw [ha.queue] at hc
      cases hc
    refine ⟨_, moveConstruct_returns hsize hca ha, ⟨_, ha.moved_target hca, rfl⟩,
      ha.moved_lookup hca, _, emptyMembers a, construct_eq hsize w a, update_self ..,
      update_self .., ?_, ?_⟩
    · dsimp only
      rw [update_self]
      refine Eq.trans (relinked_within ..) ?_
      rw [update_of_ne (by simpa using hca.symm), ha.chain.first]
    · dsimp only
      rw [update_self]
      exact update_self ..

/-- A queue that has grown a table, with one explicit producer, and a queue with one implicit
producer that a thread is mapped to. -/
def twoQueues : World (Fin 3) Unit Unit where
  queue q :=
    if q = 0 then some { emptyMembers 0 with
      producerListTail := some 0
      producerCount := 1
      implicitProducerHash := .heap 7 }
    else if q = 1 then some { emptyMembers 1 with
      producerListTail := some 1
      producerCount := 1
      implicitProducerHashCount := 1 }
    else none
  hash p :=
    match p with
    | .within q => ⟨1, .within q, none⟩
    | .heap n => ⟨2, .heap n, some (.within 0)⟩
  entries p := if p = .within 1 then [⟨.id (), some 1⟩] else [⟨.invalidThreadId, none⟩]
  producer p :=
    if p = 0 then some ⟨none, false, none, true, 0⟩
    else if p = 1 then some ⟨none, false, none, false, 1⟩
    else none
  token _ := none
  created := 2

theorem swap_and_move_twoQueues :
    (∃ w', Returns (fun fuel => twoQueues.swapInternal 1 fuel 0 1) w' ∧
      lookup 3 0 0 () w' = some (some (some 1)) ∧ lookup 3 1 0 () w' = some none ∧
      Returns (fun fuel => w'.swapInternal 1 fuel 0 1) twoQueues) ∧
    ∃ w', Returns (fun fuel => twoQueues.moveConstruct 1 fuel 2 0) w' ∧
      lookup 3 2 0 () w' = some none := by
  have hfirst : Holds 1 twoQueues 0 _ [7] [0] :=
    { queue := rfl
      chain := ⟨by simp [chainOf, prev, twoQueues], rfl, fun n _ => ⟨n, rfl⟩⟩
      lists := ⟨by simp [next, twoQueues], by simp [twoQueues]⟩ }
  have hsecond : Holds 1 twoQueues 1 _ [] [1] :=
    { queue := rfl
      chain := ⟨by simp [chainOf, prev, twoQueues, emptyMembers], rfl, nofun⟩
      lists := ⟨by simp [next, twoQueues], by simp [twoQueues]⟩ }
  obtain ⟨⟨w', hswap, -, -, hlookup, -, hback⟩, hmove⟩ :=
    swap_and_move (by decide) (by decide) hfirst hsecond
  obtain ⟨w'', hmove, -, hlookup', -⟩ := hmove 2 rfl
  refine ⟨⟨w', hswap, ?_, ?_, hback⟩, w'', hmove, ?_⟩
  · rw [(hlookup 3 0 ()).1]
    decide
  · rw [(hlookup 3 0 ()).2]
    decide
  · rw [hlookup' 3 0 ()]
    decide

end ConcurrentQueue.Objects
