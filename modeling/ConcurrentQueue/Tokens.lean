import ConcurrentQueue.Swap

/-!
# ConcurrentQueue.Tokens

**Producer tokens and explicit producers stay in one-to-one correspondence**, whatever
is constructed, moved, swapped and destroyed.

A producer that a token points to points back, is explicit and not inactive. Producers
are on the list of their parent, and no two queues have one in common (`Arranged`), so
that the destructor of a queue reaches exactly the tokens it has to reach. Both parts
together also show that no operation on objects that exist follows a dangling pointer.
-/

namespace ConcurrentQueue.Objects

open Function (comp_update update update_eq_self update_idem update_of_ne update_self)
open Option (bind_eq_bind bind_eq_some_iff bind_some map_eq_some_iff map_some)
open Linked Fuel Pointers

variable {κ ι τ : Type}

/-- An explicit producer is inactive if and only if no token has it. Only explicit ones
have tokens. -/
structure Producer.Proper (x : Producer κ τ) : Prop where
  inactive : x.isExplicit = true → x.inactive = x.token.isNone
  token : x.isExplicit = false → x.token = none

namespace World

/-- The producer a token points to. -/
def holder (w : World κ ι τ) (t : τ) : Option Nat := (w.token t).join

/-- The token a producer points back to. -/
def back (w : World κ ι τ) (p : Nat) : Option τ := (w.producer p).bind (·.token)

/-- What the queues have: the producers `on q` on the list of `q`, and a chain of tables. -/
structure Arranged (size : Nat) (w : World κ ι τ) (on : κ → List Nat) : Prop where
  lists : ∀ q m, w.queue q = some m → Lists w q m.producerListTail (on q)
  dead : ∀ q, w.queue q = none → on q = []
  chain : size ≠ 0 → ∀ q m, w.queue q = some m → ∃ ts, Chain size w q m.implicitProducerHash ts
  placed : ∀ p x, w.producer p = some x → p ∈ on x.parent
  fresh : ∀ p x, w.producer p = some x → p < w.created

structure Paired (w : World κ ι τ) : Prop where
  matched : Matched w.holder w.back
  proper : ∀ p x, w.producer p = some x → x.Proper

structure Sound (size : Nat) (w : World κ ι τ) (on : κ → List Nat) : Prop where
  arranged : Arranged size w on
  paired : Paired w

variable {size : Nat} {w w' : World κ ι τ} {on : κ → List Nat}

/-! ### Frames -/

theorem Chain.congr {q : κ} {head : Place κ} {ts : List Nat} (h : Chain size w q head ts)
    (hhash : ∀ p ∈ chainOf ts q, w'.hash p = w.hash p) : Chain size w' q head ts where
  chain := h.chain.congr fun p hp => by rw [prev, prev, hhash p hp]
  first := by rw [hhash _ (by simp [chainOf]), h.first]
  tables := fun n hn => by
    rw [hhash _ (by simp [chainOf, hn])]
    exact h.tables n hn

/-- The links of the producers are the same. -/
def SameLinks (w w' : World κ ι τ) : Prop :=
  ∀ p, (w'.producer p).map (fun x => (x.next, x.parent)) =
    (w.producer p).map fun x => (x.next, x.parent)

theorem SameLinks.next_eq (h : SameLinks w w') (p : Nat) : w'.next p = w.next p := by
  have hp := h p
  rw [next, next]
  cases hx : w.producer p with
  | none =>
      rw [hx, Option.map_none, Option.map_eq_none_iff] at hp
      rw [hp]
  | some x =>
      rw [hx, map_some, map_eq_some_iff] at hp
      obtain ⟨y, hy, hxy⟩ := hp
      rw [hy]
      exact (Prod.mk.inj hxy).1

theorem SameLinks.exists_iff (h : SameLinks w w') {p : Nat} {q : κ} :
    (∃ x, w'.producer p = some x ∧ x.parent = q) ↔ ∃ x, w.producer p = some x ∧ x.parent = q := by
  have hp := congrArg (Option.map Prod.snd) (h p)
  rw [Option.map_map, Option.map_map] at hp
  constructor
  · rintro ⟨x, hx, rfl⟩
    rw [hx, map_some] at hp
    exact map_eq_some_iff.mp hp.symm
  · rintro ⟨x, hx, rfl⟩
    rw [hx, map_some] at hp
    exact map_eq_some_iff.mp hp

/-- Tokens, and what producers know of them, do not matter. -/
theorem Arranged.frame (h : Arranged size w on) (hqueue : w'.queue = w.queue)
    (hhash : w'.hash = w.hash) (hcreated : w'.created = w.created) (hlinks : SameLinks w w') :
    Arranged size w' on where
  lists q m hm := by
    have hq := h.lists q m (hqueue ▸ hm)
    exact ⟨hq.list.congr fun p _ => hlinks.next_eq p,
      fun p hp => hlinks.exists_iff.mpr (hq.parent p hp)⟩
  dead q hq := h.dead q (hqueue ▸ hq)
  chain hsize q m hm := by
    obtain ⟨ts, hts⟩ := h.chain hsize q m (hqueue ▸ hm)
    exact ⟨ts, hts.congr fun p _ => by rw [hhash]⟩
  placed p x hx := by
    obtain ⟨y, hy, hparent⟩ := hlinks.exists_iff.mp ⟨x, hx, rfl⟩
    exact hparent ▸ h.placed p y hy
  fresh p x hx := by
    obtain ⟨y, hy, -⟩ := hlinks.exists_iff.mp ⟨x, hx, rfl⟩
    exact hcreated ▸ h.fresh p y hy

/-- What tokens and producers know of each other is the same. -/
structure SameTokens (w w' : World κ ι τ) : Prop where
  token : w'.token = w.token
  producer : ∀ p, (w'.producer p).map (fun x => (x.token, x.isExplicit, x.inactive)) =
    (w.producer p).map fun x => (x.token, x.isExplicit, x.inactive)

theorem Paired.frame (h : Paired w) (hsame : SameTokens w w') : Paired w' := by
  have hback : w'.back = w.back := by
    funext p
    have hp := congrArg (Option.bind · Prod.fst) (hsame.producer p)
    simp only [Option.bind_map] at hp
    exact hp
  refine ⟨?_, fun p x hx => ?_⟩
  · have hmatched := h.matched
    rwa [← hback, show w.holder = w'.holder from by
      funext t
      rw [holder, holder, hsame.token]] at hmatched
  · have hp := hsame.producer p
    rw [hx, map_some, eq_comm, map_eq_some_iff] at hp
    obtain ⟨y, hy, hxy⟩ := hp
    obtain ⟨htoken, hrest⟩ := Prod.mk.inj hxy
    obtain ⟨hexplicit, hinactive⟩ := Prod.mk.inj hrest
    have hproper := h.proper p y hy
    constructor
    · intro hx
      rw [← hinactive, ← htoken]
      exact hproper.inactive (hexplicit.trans hx)
    · intro hx
      rw [← htoken]
      exact hproper.token (hexplicit.trans hx)

theorem sameLinks_setProducer {p : Nat} {x y : Producer κ τ} (hx : w.producer p = some x)
    (hnext : y.next = x.next) (hparent : y.parent = x.parent) :
    SameLinks w (w.setProducer p (some y)) := by
  intro p'
  rcases eq_or_ne p' p with rfl | hp
  · rw [show (w.setProducer p' (some y)).producer p' = some y from update_self .., hx,
      map_some, map_some, hnext, hparent]
  · rw [show (w.setProducer p (some y)).producer p' = w.producer p' from
      update_of_ne hp _ _]

/-! ### Queues -/

section Queues

variable [DecidableEq κ] {a b : κ}

/-- The lists after `a` and `b` have exchanged theirs. -/
def exchangedLists (on : κ → List Nat) (a b : κ) : κ → List Nat :=
  update (update on a (on b)) b (on a)

/-- The producers of two queues have changed places. -/
theorem Arranged.exchange (h : Arranged size w on) (hab : a ≠ b) {ta tb : Option Nat}
    (ha : Lists w a ta (on a)) (hb : Lists w b tb (on b)) {m o : Members κ}
    (hqa : w'.queue a = some m) (hm : m.producerListTail = tb)
    (hqb : w'.queue b = some o) (ho : o.producerListTail = ta)
    (hother : ∀ q, q ≠ a → q ≠ b → w'.queue q = w.queue q)
    (hproducer : w'.producer = reowned (reowned w.producer (on b) a) (on a) b)
    (hcreated : w'.created = w.created)
    (hchain : size ≠ 0 → ∀ q m, w'.queue q = some m →
      ∃ ts, Chain size w' q m.implicitProducerHash ts) :
    Arranged size w' (exchangedLists on a b) := by
  have hdisjoint := ha.disjoint hab hb
  have hnext : ∀ p, w'.next p = w.next p := fun p => by
    rw [next, hproducer]
    exact (reowned_next ..).trans (reowned_next ..)
  have hona : exchangedLists on a b a = on b :=
    (update_of_ne hab _ _).trans (update_self ..)
  have honb : exchangedLists on a b b = on a := update_self ..
  have hon : ∀ q, q ≠ a → q ≠ b → exchangedLists on a b q = on q := fun q hqa hqb =>
    (update_of_ne hqb _ _).trans (update_of_ne hqa _ _)
  have hpa : ∀ p ∈ on b, w'.producer p = (w.producer p).map fun x => { x with parent := a } :=
    fun p hp => by
      rw [hproducer, reowned, if_neg fun hp' => hdisjoint p hp' hp, reowned, if_pos hp]
  have hpb : ∀ p ∈ on a, w'.producer p = (w.producer p).map fun x => { x with parent := b } :=
    fun p hp => by
      rw [hproducer, reowned, if_pos hp, reowned, if_neg (hdisjoint p hp)]
  have hp : ∀ p, p ∉ on a → p ∉ on b → w'.producer p = w.producer p := fun p hpa hpb => by
    rw [hproducer, reowned, if_neg hpa, reowned, if_neg hpb]
  -- where a producer of `w'` comes from
  have hsource : ∀ p x, w'.producer p = some x → ∃ y, w.producer p = some y ∧
      (p ∈ on a ∧ x.parent = b ∨ p ∈ on b ∧ x.parent = a ∨
        x = y ∧ p ∉ on a ∧ p ∉ on b) := fun p x hx => by
    by_cases hmema : p ∈ on a
    · rw [hpb p hmema, map_eq_some_iff] at hx
      obtain ⟨y, hy, rfl⟩ := hx
      exact ⟨y, hy, .inl ⟨hmema, rfl⟩⟩
    · by_cases hmemb : p ∈ on b
      · rw [hpa p hmemb, map_eq_some_iff] at hx
        obtain ⟨y, hy, rfl⟩ := hx
        exact ⟨y, hy, .inr (.inl ⟨hmemb, rfl⟩)⟩
      · rw [hp p hmema hmemb] at hx
        exact ⟨x, hx, .inr (.inr ⟨rfl, hmema, hmemb⟩)⟩
  refine ⟨fun q m' hq => ?_, fun q hq => ?_, hchain, fun p x hx => ?_, fun p x hx => ?_⟩
  · rcases eq_or_ne q a with rfl | hqa'
    · rw [hqa, Option.some.injEq] at hq
      subst hq
      rw [hona, hm]
      refine ⟨hb.list.congr fun p _ => hnext p, fun p hpon => ?_⟩
      obtain ⟨x, hx, -⟩ := hb.parent p hpon
      exact ⟨_, by rw [hpa p hpon, hx]; rfl, rfl⟩
    rcases eq_or_ne q b with rfl | hqb'
    · rw [hqb, Option.some.injEq] at hq
      subst hq
      rw [honb, ho]
      refine ⟨ha.list.congr fun p _ => hnext p, fun p hpon => ?_⟩
      obtain ⟨x, hx, -⟩ := ha.parent p hpon
      exact ⟨_, by rw [hpb p hpon, hx]; rfl, rfl⟩
    · have hlists := h.lists q m' (hother q hqa' hqb' ▸ hq)
      rw [hon q hqa' hqb']
      refine ⟨hlists.list.congr fun p _ => hnext p, fun p hpon => ?_⟩
      rw [hp p (hlists.disjoint hqa' ha p hpon) (hlists.disjoint hqb' hb p hpon)]
      exact hlists.parent p hpon
  · have hqa' : q ≠ a := by
      rintro rfl
      rw [hqa] at hq
      cases hq
    have hqb' : q ≠ b := by
      rintro rfl
      rw [hqb] at hq
      cases hq
    rw [hon q hqa' hqb', h.dead q (hother q hqa' hqb' ▸ hq)]
  · obtain ⟨y, hy, ⟨hmem, hparent⟩ | ⟨hmem, hparent⟩ | ⟨rfl, hnota, hnotb⟩⟩ := hsource p x hx
    · rwa [hparent, honb]
    · rwa [hparent, hona]
    · have hmem := h.placed p x hy
      rwa [hon x.parent (fun heq => hnota (heq ▸ hmem)) (fun heq => hnotb (heq ▸ hmem))]
  · obtain ⟨y, hy, -⟩ := hsource p x hx
    exact hcreated ▸ h.fresh p y hy

omit [DecidableEq κ] in
theorem sameTokens_reowned {ps ps' : List Nat} (htoken : w'.token = w.token)
    (hproducer : w'.producer = reowned (reowned w.producer ps a) ps' b) : SameTokens w w' := by
  have hmap : ∀ (f : Nat → Option (Producer κ τ)) ps q p,
      (reowned f ps q p).map (fun x => (x.token, x.isExplicit, x.inactive)) =
        (f p).map fun x => (x.token, x.isExplicit, x.inactive) := fun f ps q p => by
    unfold reowned
    split
    · rw [Option.map_map]
      rfl
    · rfl
  exact ⟨htoken, fun p => by rw [hproducer, hmap, hmap]⟩

/-- Without tables, a swap exchanges the members and the parents. -/
theorem swapInternal_zero_returns {m o : Members κ} {ps ps' : List Nat} (hab : a ≠ b)
    (hm : w.queue a = some m) (ho : w.queue b = some o)
    (ha : Lists w a m.producerListTail ps) (hb : Lists w b o.producerListTail ps') :
    Returns (fun fuel => w.swapInternal 0 fuel a b)
      { w with
        queue := update (update w.queue a (some { o with
            implicitProducerHash := m.implicitProducerHash
            implicitProducerHashCount := m.implicitProducerHashCount
            implicitProducerHashResizeInProgress := m.implicitProducerHashResizeInProgress }))
          b (some { m with
            implicitProducerHash := o.implicitProducerHash
            implicitProducerHashCount := o.implicitProducerHashCount
            implicitProducerHashResizeInProgress := o.implicitProducerHashResizeInProgress })
        producer := reowned (reowned w.producer ps' a) ps b } := by
  let w₁ : World κ ι τ := { w with
    queue := update (update w.queue a (some { o with
        implicitProducerHash := m.implicitProducerHash
        implicitProducerHashCount := m.implicitProducerHashCount
        implicitProducerHashResizeInProgress := m.implicitProducerHashResizeInProgress }))
      b (some { m with
        implicitProducerHash := o.implicitProducerHash
        implicitProducerHashCount := o.implicitProducerHashCount
        implicitProducerHashResizeInProgress := o.implicitProducerHashResizeInProgress }) }
  have hfirst := reownProducers_returns (w := w₁) (q := a)
    ((update_of_ne hab _ _).trans (update_self ..)) hb.list hb.alive
  let w₂ : World κ ι τ := { w₁ with producer := reowned w.producer ps' a }
  have hlist : IsList w₂.next m.producerListTail ps := ha.list.congr fun p _ => reowned_next ..
  have hsecond := reownProducers_returns (w := w₂) (q := b) (update_self ..) hlist
    fun p hp => reowned_alive (ha.alive p hp)
  refine (hfirst.bind (g := fun w fuel => w.reownProducers fuel b) hsecond).imp
    fun fuel hfuel => ?_
  have hstart : w.swapInternal 0 fuel a b =
      (w₁.reownProducers fuel a).bind fun w => w.reownProducers fuel b := by
    rw [swapInternal, if_neg hab, hm, ho]
    rfl
  rw [hstart, hfuel]

/-- Linking tables of another queue anew does not touch the chain. -/
theorem Chain.relinked_other {c d : κ} {us vs : List Nat} {head head' : Place κ}
    (hus : Chain size w a head us) (hac : a ≠ c) (hvs : Chain size w c head' vs) {p : Place κ}
    (hp : p ∈ chainOf us a) (hash : Place κ → ImplicitProducerHash κ) :
    relinked hash vs d p = hash p := by
  refine relinked_of_not_mem _ _ _ fun n hn hpn => ?_
  rw [hpn, chainOf, List.mem_append, List.mem_singleton] at hp
  rcases hp with hp | hp
  · obtain ⟨k, hk, heq⟩ := List.mem_map.mp hp
    obtain rfl := Place.heap.inj heq
    exact chain_disjoint hac hus.chain hvs.chain hk hn
  · cases hp

/-- **A swap keeps everything in order.** -/
theorem Sound.swap (h : Sound size w on) {m o : Members κ} (hm : w.queue a = some m)
    (ho : w.queue b = some o) : ∃ w' on',
      Returns (fun fuel => w.swapInternal size fuel a b) w' ∧ Sound size w' on' := by
  have ha := h.arranged.lists a m hm
  have hb := h.arranged.lists b o ho
  rcases eq_or_ne a b with rfl | hab
  · exact ⟨w, on, .of_forall fun fuel => if_pos rfl, h⟩
  rcases eq_or_ne size 0 with rfl | hsize
  · refine ⟨_, exchangedLists on a b, swapInternal_zero_returns hab hm ho ha hb, ?_, ?_⟩
    · exact h.arranged.exchange hab ha hb
        ((update_of_ne hab _ _).trans (update_self ..)) rfl
        (update_self ..) rfl
        (fun q hqa hqb => (update_of_ne hqb _ _).trans (update_of_ne hqa _ _))
        rfl rfl fun hne => absurd rfl hne
    · exact h.paired.frame (sameTokens_reowned rfl rfl)
  · obtain ⟨ts, hts⟩ := h.arranged.chain hsize a m hm
    obtain ⟨ts', hts'⟩ := h.arranged.chain hsize b o ho
    have hha : Holds size w a m ts (on a) := ⟨hm, hts, ha⟩
    have hhb : Holds size w b o ts' (on b) := ⟨ho, hts', hb⟩
    have hleft := hha.exchanged_left hab hhb
    have hright := hha.exchanged_right hab hhb
    refine ⟨_, exchangedLists on a b, swapInternal_returns hsize hab hha hhb, ?_, ?_⟩
    · refine h.arranged.exchange hab ha hb hleft.queue rfl hright.queue rfl
        (fun q hqa hqb => (update_of_ne hqb _ _).trans (update_of_ne hqa _ _))
        rfl rfl fun _ q m' hm' => ?_
      rcases eq_or_ne q a with rfl | hqa
      · rw [hleft.queue, Option.some.injEq] at hm'
        exact hm' ▸ ⟨_, hleft.chain⟩
      rcases eq_or_ne q b with rfl | hqb
      · rw [hright.queue, Option.some.injEq] at hm'
        exact hm' ▸ ⟨_, hright.chain⟩
      -- the tables of other queues are not touched
      · obtain ⟨us, hus⟩ := h.arranged.chain hsize q m' (((update_of_ne hqb _ _).trans
          (update_of_ne hqa _ _)).symm.trans hm')
        refine ⟨us, hus.congr fun p hp => ?_⟩
        exact (hus.relinked_other hqa hts hp ..).trans (hus.relinked_other hqb hts' hp ..)
    · exact h.paired.frame (sameTokens_reowned rfl rfl)

/-- Without tables, the members are moved and the producers learn their new parent. -/
theorem moveConstruct_zero_returns {c : κ} {m : Members κ} {ps : List Nat} (hca : c ≠ a)
    (hm : w.queue a = some m) (ha : Lists w a m.producerListTail ps) :
    Returns (fun fuel => w.moveConstruct 0 fuel c a)
      { w with
        queue := update (update w.queue c (some { m with
            implicitProducerHash := .within c
            implicitProducerHashCount := 0
            implicitProducerHashResizeInProgress := false }))
          a (some { m with
            freeListHead := none
            producerListTail := none
            producerCount := 0
            nextExplicitConsumerId := 0
            globalExplicitConsumerOffset := 0
            initialBlockPoolIndex := 0
            initialBlockPoolSize := 0
            initialBlockPool := none })
        entries := update w.entries (.within c) []
        producer := reowned w.producer ps c } := by
  let w₁ : World κ ι τ := { w with
    queue := update (update w.queue c (some { m with
        implicitProducerHash := .within c
        implicitProducerHashCount := 0
        implicitProducerHashResizeInProgress := false }))
      a (some { m with
        freeListHead := none
        producerListTail := none
        producerCount := 0
        nextExplicitConsumerId := 0
        globalExplicitConsumerOffset := 0
        initialBlockPoolIndex := 0
        initialBlockPoolSize := 0
        initialBlockPool := none })
    entries := update w.entries (.within c) [] }
  have hreown := reownProducers_returns (w := w₁) (q := c)
    ((update_of_ne hca _ _).trans (update_self ..)) ha.list ha.alive
  refine hreown.imp fun fuel hfuel => ?_
  have hstart : w.moveConstruct 0 fuel c a = w₁.reownProducers fuel c := by
    simp only [World.moveConstruct, hm, bind_eq_bind, bind_some, setQueue,
      setEntries, populateInitialImplicitProducerHash, swapImplicitProducerHashes, if_true,
      update_self, update_idem]
    rfl
  rw [hstart, hfuel]

/-- **A move construction keeps everything in order.** -/
theorem Sound.moveConstruct (h : Sound size w on) {c : κ} {m : Members κ} (hc : w.queue c = none)
    (hm : w.queue a = some m) : ∃ w' on',
      Returns (fun fuel => w.moveConstruct size fuel c a) w' ∧ Sound size w' on' := by
  have hca : c ≠ a := by
    rintro rfl
    rw [hc] at hm
    cases hm
  have ha := h.arranged.lists a m hm
  have hempty := h.arranged.dead c hc
  have hlists : Lists w c none (on c) := by
    rw [hempty]
    exact ⟨isList_nil.mpr rfl, nofun⟩
  have hproducer : reowned w.producer (on a) c =
      reowned (reowned w.producer (on a) c) (on c) a := by
    rw [hempty]
    rfl
  rcases eq_or_ne size 0 with rfl | hsize
  · refine ⟨_, exchangedLists on c a, moveConstruct_zero_returns hca hm ha, ?_, ?_⟩
    · exact h.arranged.exchange hca hlists ha
        ((update_of_ne hca _ _).trans (update_self ..)) rfl
        (update_self ..) rfl
        (fun q hqc hqa => (update_of_ne hqa _ _).trans (update_of_ne hqc _ _))
        hproducer rfl fun hne => absurd rfl hne
    · exact h.paired.frame (sameTokens_reowned rfl hproducer)
  · obtain ⟨ts, hts⟩ := h.arranged.chain hsize a m hm
    have hha : Holds size w a m ts (on a) := ⟨hm, hts, ha⟩
    have htarget := hha.moved_target hca
    have hfirst : ∀ q ≠ c, (moved size w c a m ts (on a)).hash (.within q) =
        w.hash (.within q) := fun q hq =>
      (relinked_within ..).trans (update_of_ne (by simpa using hq) _ _)
    refine ⟨_, exchangedLists on c a, moveConstruct_returns hsize hca hha, ?_, ?_⟩
    · refine h.arranged.exchange hca hlists ha htarget.queue rfl (update_self ..) rfl
        (fun q hqc hqa => (update_of_ne hqa _ _).trans (update_of_ne hqc _ _))
        hproducer rfl fun _ q m' hm' => ?_
      rcases eq_or_ne q c with rfl | hqc
      · rw [htarget.queue, Option.some.injEq] at hm'
        exact hm' ▸ ⟨_, htarget.chain⟩
      rcases eq_or_ne q a with rfl | hqa
      · rw [show (moved size w c q m ts (on q)).queue q = _ from update_self ..,
          Option.some.injEq] at hm'
        subst hm'
        refine ⟨[], isList_cons.mpr ⟨rfl, isList_nil.mpr ?_⟩, ?_, nofun⟩
        · rw [prev, hfirst q hqc, hts.first]
        · rw [hfirst q hqc, hts.first]
      · obtain ⟨us, hus⟩ := h.arranged.chain hsize q m' (((update_of_ne hqa _ _).trans
          (update_of_ne hqc _ _)).symm.trans hm')
        refine ⟨us, hus.congr fun p hp => (hus.relinked_other hqa hts hp ..).trans ?_⟩
        refine update_of_ne ?_ _ _
        rintro rfl
        simp [chainOf, Ne.symm hqc] at hp
    · exact h.paired.frame (sameTokens_reowned rfl hproducer)

/-- **The construction of a queue keeps everything in order.** -/
theorem Sound.construct (h : Sound size w on) (ha : w.queue a = none) (blockCount : Nat)
    (pool : Option Nat) : ∃ w', w.construct size a blockCount pool = some w' ∧
      Sound size w' on := by
  have hspec : ∃ w' m, w.construct size a blockCount pool = some w' ∧
      w'.queue = update w.queue a (some m) ∧ m.producerListTail = none ∧
      m.implicitProducerHash = .within a ∧ w'.producer = w.producer ∧ w'.token = w.token ∧
      w'.created = w.created ∧ (∀ p ≠ .within a, w'.hash p = w.hash p) ∧
      (size ≠ 0 → w'.hash (.within a) = ⟨size, .within a, none⟩) := by
    rw [World.construct, populateInitialImplicitProducerHash]
    rcases eq_or_ne size 0 with rfl | hsize
    · exact ⟨_, _, if_pos rfl, rfl, rfl, rfl, rfl, rfl, rfl, fun _ _ => rfl,
        absurd rfl⟩
    · rw [if_neg hsize]
      simp only [setEntries, setQueue, setHash, update_self, bind_eq_bind,
        bind_some, update_idem]
      exact ⟨_, _, rfl, rfl, rfl, rfl, rfl, rfl, rfl,
        fun p hp => update_of_ne hp _ _, fun _ => update_self ..⟩
  obtain ⟨w', m, hrun, hqueue, htail, hhead, hproducer, htoken, hcreated, hhash, hfirst⟩ := hspec
  have hself : w'.queue a = some m := by rw [hqueue, update_self]
  have hother : ∀ q ≠ a, w'.queue q = w.queue q := fun q hq => by
    rw [hqueue, update_of_ne hq]
  have hnext : ∀ p, w'.next p = w.next p := fun p => by rw [next, next, hproducer]
  refine ⟨w', hrun, ⟨fun q m' hq => ?_, fun q hq => ?_, fun hsize q m' hq => ?_,
    fun p x hx => ?_, fun p x hx => ?_⟩, h.paired.frame ⟨htoken, fun p => by rw [hproducer]⟩⟩
  · rcases eq_or_ne q a with rfl | hqa
    · rw [hself, Option.some.injEq] at hq
      rw [h.arranged.dead q ha, ← hq, htail]
      exact ⟨isList_nil.mpr rfl, fun _ hp => absurd hp List.not_mem_nil⟩
    · have hlists := h.arranged.lists q m' (hother q hqa ▸ hq)
      exact ⟨hlists.list.congr fun p _ => hnext p, fun p hp => hproducer ▸ hlists.parent p hp⟩
  · rcases eq_or_ne q a with rfl | hqa
    · exact h.arranged.dead q ha
    · exact h.arranged.dead q (hother q hqa ▸ hq)
  · rcases eq_or_ne q a with rfl | hqa
    · rw [hself, Option.some.injEq] at hq
      subst hq
      refine ⟨[], isList_cons.mpr ⟨by rw [hhead], isList_nil.mpr ?_⟩, hfirst hsize,
        fun _ hk => absurd hk List.not_mem_nil⟩
      rw [prev, hfirst hsize]
    · obtain ⟨ts, hts⟩ := h.arranged.chain hsize q m' (hother q hqa ▸ hq)
      refine ⟨ts, hts.congr fun p hp => hhash p ?_⟩
      rintro rfl
      simp [chainOf, Ne.symm hqa] at hp
  · exact h.arranged.placed p x (hproducer ▸ hx)
  · exact hcreated ▸ h.arranged.fresh p x (hproducer ▸ hx)

end Queues

/-! ### The destruction of a queue -/

/-- The tokens after the producers `ps` have been destroyed. -/
def released (w : World κ ι τ) (ps : List Nat) (t : τ) : Option (Option Nat) :=
  (w.token t).map fun o => o.filter fun p => p ∉ ps

/-- The world after the producers `ps` have been destroyed. -/
def without (w : World κ ι τ) (ps : List Nat) : World κ ι τ :=
  { w with
    producer := fun p => if p ∈ ps then none else w.producer p
    token := w.released ps }

theorem holder_eq_some {t : τ} {p : Nat} : w.holder t = some p ↔ w.token t = some (some p) := by
  rw [holder, Option.join_eq_some_iff]

theorem holder_without (w : World κ ι τ) (ps : List Nat) (t : τ) :
    (w.without ps).holder t = (w.holder t).filter fun p => p ∉ ps := by
  show (w.released ps t).join = _
  rw [released, holder]
  cases w.token t with
  | none => rfl
  | some o => rfl

theorem back_without (w : World κ ι τ) (ps : List Nat) (p : Nat) :
    (w.without ps).back p = if p ∈ ps then none else w.back p := by
  show ((if p ∈ ps then none else w.producer p) : Option (Producer κ τ)).bind _ = _
  split <;> rfl

theorem Paired.without (h : Paired w) (ps : List Nat) : Paired (w.without ps) where
  matched t p := by
    rw [holder_without, back_without, Option.filter_eq_some_iff, h.matched t p]
    by_cases hp : p ∈ ps
    · simp [hp]
    · simp [hp]
  proper p x hx := by
    have hx' : (if p ∈ ps then none else w.producer p) = some x := hx
    split at hx'
    · cases hx'
    · exact h.proper p x hx'

theorem without_nil (w : World κ ι τ) : w.without [] = w := by
  refine World.ext rfl rfl rfl rfl (funext fun t => ?_) rfl
  show (w.token t).map _ = _
  cases w.token t with
  | none => rfl
  | some o => cases o <;> rfl

theorem without_cons (w : World κ ι τ) (p : Nat) (ps : List Nat) :
    (w.without [p]).without ps = w.without (p :: ps) := by
  refine World.ext rfl rfl rfl (funext fun p' => ?_) (funext fun t => ?_) rfl
  · show (if p' ∈ ps then none else if p' ∈ [p] then none else w.producer p') =
      if p' ∈ p :: ps then none else w.producer p'
    by_cases hp : p' = p
    · simp [hp]
    · simp [hp]
  · show ((w.token t).map _).map _ = (w.token t).map _
    rw [Option.map_map]
    congr 1
    funext o
    cases o with
    | none => rfl
    | some p' =>
        by_cases hp : p' = p
        · simp [hp]
        · simp

/-- A producer is destroyed and its token, if it has one, is told. -/
theorem without_single [DecidableEq τ] (h : Paired w) {p : Nat} {x : Producer κ τ}
    (hx : w.producer p = some x) :
    w.without [p] = (match x.token with
      | none => w.setProducer p none
      | some t => (w.setToken t (some none)).setProducer p none) := by
  have hback : w.back p = x.token := by rw [back, hx, bind_some]
  have hproducer : (w.without [p]).producer = update w.producer p none := by
    funext p'
    show (if p' ∈ [p] then none else w.producer p') = _
    rcases eq_or_ne p' p with rfl | hp
    · simp
    · rw [update_of_ne hp, if_neg (by simpa using hp)]
  have hkeep : ∀ t, w.back p ≠ some t → w.released [p] t = w.token t := fun t ht => by
    rw [released]
    cases htok : w.token t with
    | none => rfl
    | some o =>
        cases o with
        | none => rfl
        | some p' =>
            have hp : p' ≠ p := by
              rintro rfl
              exact ht ((h.matched t p').mp (holder_eq_some.mpr htok))
            simp [hp]
  cases ht : x.token with
  | none =>
      refine World.ext rfl rfl rfl hproducer (funext fun t => hkeep t ?_) rfl
      rw [hback, ht]
      nofun
  | some t =>
      refine World.ext rfl rfl rfl hproducer (funext fun t' => ?_) rfl
      show w.released [p] t' = update w.token t (some none) t'
      rcases eq_or_ne t' t with rfl | htt
      · have htok := holder_eq_some.mp ((h.matched t' p).mpr (hback.trans ht))
        rw [update_self, released, htok]
        simp
      · rw [update_of_ne htt]
        refine hkeep t' ?_
        rw [hback, ht]
        exact fun heq => htt (Option.some.inj heq).symm

/-- **The destructor's loop** destroys the producers on its list, and clears the pointers of
their tokens. -/
theorem destroyFrom_returns [DecidableEq τ] {ptr : Option Nat} {ps : List Nat} (h : Paired w)
    (hl : IsList w.next ptr ps) (halive : ∀ p ∈ ps, ∃ x, w.producer p = some x) :
    Returns (fun fuel => destroyFrom fuel ptr w) (w.without ps) := by
  induction ps generalizing ptr w with
  | nil =>
      rw [isList_nil.mp hl, without_nil]
      exact .of_succ fun _ => rfl
  | cons p ps ih =>
      obtain ⟨rfl, hrest⟩ := isList_cons.mp hl
      obtain ⟨x, hx⟩ := halive p List.mem_cons_self
      have hp : p ∉ ps := (List.nodup_cons.mp hl.nodup).1
      have hother : ∀ p' ∈ ps, (w.without [p]).producer p' = w.producer p' := fun p' hp' =>
        if_neg fun hmem : p' ∈ [p] => hp (List.mem_singleton.mp hmem ▸ hp')
      have hnext : w.next p = x.next := by rw [next, hx, bind_some]
      rw [hnext] at hrest
      have hreturns := ih (h.without [p])
        (hrest.congr fun p' hp' => by rw [next, next, hother p' hp'])
        fun p' hp' => by
          rw [hother p' hp']
          exact halive p' (List.mem_cons_of_mem p hp')
      rw [without_cons] at hreturns
      refine hreturns.step fun fuel => ?_
      rw [without_single h hx, destroyFrom, hx]
      cases ht : x.token with
      | none => simp only [bind_eq_bind, bind_some, ht]
      | some t =>
          have htok := holder_eq_some.mp ((h.matched t p).mpr (by rw [back, hx]; exact ht))
          simp only [bind_eq_bind, bind_some, ht, htok]

/-- **The destruction of a queue keeps everything else in order.** -/
theorem Sound.destroy [DecidableEq κ] [DecidableEq τ] (h : Sound size w on) {q : κ} {m : Members κ}
    (hm : w.queue q = some m) :
    Returns (fun fuel => w.destroy fuel q) ((w.without (on q)).setQueue q none) ∧
      Sound size ((w.without (on q)).setQueue q none) (update on q []) := by
  have hq := h.arranged.lists q m hm
  have hqueue : ∀ q' ≠ q, ((w.without (on q)).setQueue q none).queue q' = w.queue q' :=
    fun q' hq' => update_of_ne hq' _ _
  have hkeep : ∀ p, p ∉ on q → ((w.without (on q)).setQueue q none).producer p = w.producer p :=
    fun p hp => if_neg hp
  have hsource : ∀ p x, ((w.without (on q)).setQueue q none).producer p = some x →
      p ∉ on q ∧ w.producer p = some x := fun p x hx => by
    by_cases hp : p ∈ on q
    · have hnone : ((w.without (on q)).setQueue q none).producer p = none := if_pos hp
      rw [hnone] at hx
      cases hx
    · exact ⟨hp, hkeep p hp ▸ hx⟩
  refine ⟨?_, ⟨fun q' m' hq' => ?_, fun q' hq' => ?_, fun hsize q' m' hq' => ?_,
    fun p x hx => ?_, fun p x hx => ?_⟩, ?_⟩
  · refine (destroyFrom_returns h.paired hq.list hq.alive).imp fun fuel hfuel => ?_
    rw [World.destroy, hm]
    show (destroyFrom fuel m.producerListTail w).bind _ = _
    rw [hfuel]
    rfl
  · have hne : q' ≠ q := by
      rintro rfl
      rw [show ((w.without (on q')).setQueue q' none).queue q' = none from
        update_self ..] at hq'
      cases hq'
    have hlists := h.arranged.lists q' m' (hqueue q' hne ▸ hq')
    rw [update_of_ne hne]
    refine ⟨hlists.list.congr fun p hp => ?_, fun p hp => ?_⟩
    · rw [next, next, hkeep p (hlists.disjoint hne hq p hp)]
    · rw [hkeep p (hlists.disjoint hne hq p hp)]
      exact hlists.parent p hp
  · rcases eq_or_ne q' q with rfl | hne
    · exact update_self ..
    · rw [update_of_ne hne]
      exact h.arranged.dead q' (hqueue q' hne ▸ hq')
  · have hne : q' ≠ q := by
      rintro rfl
      rw [show ((w.without (on q')).setQueue q' none).queue q' = none from
        update_self ..] at hq'
      cases hq'
    obtain ⟨ts, hts⟩ := h.arranged.chain hsize q' m' (hqueue q' hne ▸ hq')
    exact ⟨ts, hts.congr fun _ _ => rfl⟩
  · obtain ⟨hnot, hx'⟩ := hsource p x hx
    have hmem := h.arranged.placed p x hx'
    rwa [update_of_ne fun heq : x.parent = q => hnot (heq ▸ hmem)]
  · obtain ⟨-, hx'⟩ := hsource p x hx
    exact h.arranged.fresh p x hx'
  · exact (h.paired.without (on q)).frame ⟨rfl, fun _ => rfl⟩

/-! ### Tokens -/

/-- An explicit producer that is in use. -/
def Active (w : World κ ι τ) (p : Nat) : Prop :=
  ∃ x, w.producer p = some x ∧ x.isExplicit = true ∧ x.inactive = false

theorem Paired.active (h : Paired w) {t : τ} {p : Nat} (ht : w.holder t = some p) :
    Active w p := by
  obtain ⟨x, hx, hback⟩ := bind_eq_some_iff.mp ((h.matched t p).mp ht)
  have hproper := h.proper p x hx
  have hexplicit : x.isExplicit = true := by
    cases hex : x.isExplicit with
    | true => rfl
    | false =>
        rw [hproper.token hex] at hback
        cases hback
  exact ⟨x, hx, hexplicit, by rw [hproper.inactive hexplicit, hback]; rfl⟩

section Tokens

variable [DecidableEq τ]

theorem holder_setToken (w : World κ ι τ) (t : τ) (x : Option (Option Nat)) :
    (w.setToken t x).holder = update w.holder t x.join :=
  comp_update Option.join w.token t x

omit [DecidableEq τ] in
theorem back_setProducer (w : World κ ι τ) (p : Nat) (x : Option (Producer κ τ)) :
    (w.setProducer p x).back = update w.back p (x.bind (·.token)) :=
  comp_update (Option.bind · Producer.token) w.producer p x

/-- The producer `o`, if any, points back to `t`. -/
structure PointsBack (t : τ) (o : Option Nat) (w w' : World κ ι τ) : Prop where
  queue : w'.queue = w.queue
  hash : w'.hash = w.hash
  created : w'.created = w.created
  token : w'.token = w.token
  links : SameLinks w w'
  back : w'.back = point w.back t o
  proper : (∀ p x, o ≠ some p → w.producer p = some x → x.Proper) →
    ∀ p x, w'.producer p = some x → x.Proper
  active : ∀ p, Active w p → Active w' p

omit [DecidableEq τ] in
theorem pointBack_spec {t : τ} {o : Option Nat} (ht : w.token t = some o)
    (ho : ∀ p, o = some p → Active w p) : ∃ w', w.pointBack t = some w' ∧ PointsBack t o w w' := by
  cases o with
  | none =>
      refine ⟨w, ?_, rfl, rfl, rfl, rfl, fun _ => rfl, rfl, fun h p x => h p x nofun, fun _ => id⟩
      rw [pointBack, ht]
      rfl
  | some p =>
      obtain ⟨x, hx, hexplicit, hinactive⟩ := ho p rfl
      refine ⟨w.setProducer p (some { x with token := some t }), ?_, rfl, rfl, rfl, rfl,
        sameLinks_setProducer hx rfl rfl, back_setProducer .., fun hproper p' y hy => ?_,
        fun p' hp' => ?_⟩
      · rw [pointBack, ht]
        simp only [bind_eq_bind, bind_some, hx]
      · rcases eq_or_ne p' p with rfl | hp
        · obtain rfl : { x with token := some t } = y :=
            Option.some.inj ((update_self p' _ w.producer).symm.trans hy)
          exact ⟨fun _ => hinactive, fun hfalse => absurd (hexplicit.symm.trans hfalse) nofun⟩
        · exact hproper p' y (fun heq => hp (Option.some.inj heq).symm)
            ((update_of_ne hp _ _).symm.trans hy)
      · rcases eq_or_ne p' p with rfl | hp
        · exact ⟨_, update_self .., hexplicit, hinactive⟩
        · obtain ⟨y, hy, hyes⟩ := hp'
          exact ⟨y, (update_of_ne hp _ _).trans hy, hyes⟩

/-- **The move construction of a token keeps everything in order.** -/
theorem Sound.moveConstructToken (h : Sound size w on) {this other : τ} {o : Option Nat}
    (hthis : w.token this = none) (hother : w.token other = some o) :
    ∃ w', w.moveConstructToken this other = some w' ∧ Sound size w' on := by
  have hne : this ≠ other := by
    rintro rfl
    rw [hthis] at hother
    cases hother
  let w₁ := (w.setToken this (some o)).setToken other (some none)
  have htoken : w₁.token this = some o :=
    (update_of_ne hne _ _).trans (update_self ..)
  have hholder : w.holder other = o := by rw [holder, hother]; rfl
  obtain ⟨w', hpoint, hspec⟩ := pointBack_spec htoken fun p hp =>
    (h.paired.active (hholder.trans hp) : Active w₁ p)
  refine ⟨w', ?_, h.arranged.frame hspec.queue hspec.hash hspec.created hspec.links, ?_,
    hspec.proper fun p x _ => h.paired.proper p x⟩
  · rw [World.moveConstructToken, hother]
    exact hpoint
  · have hmove := h.paired.matched.move (a := other) (c := this) (by rw [holder, hthis]; rfl)
    have hw' : w'.holder = w₁.holder := by
      funext t
      rw [holder, holder, hspec.token]
    rw [hspec.back, hw', holder_setToken, holder_setToken]
    rw [hholder] at hmove
    exact hmove

/-- **Exchanging tokens keeps everything in order.** -/
theorem Sound.swapToken (h : Sound size w on) {this other : τ} {o o' : Option Nat}
    (hthis : w.token this = some o) (hother : w.token other = some o') :
    ∃ w', w.swapToken this other = some w' ∧ Sound size w' on := by
  let w₁ := (w.setToken this (some o')).setToken other (some o)
  have hotherToken : w₁.token other = some o := update_self ..
  have hthisToken : w₁.token this = some o' := by
    rcases eq_or_ne this other with rfl | hne
    · rw [hotherToken, ← hthis, hother]
    · exact (update_of_ne hne _ _).trans (update_self ..)
  have hholder : w.holder this = o := by rw [holder, hthis]; rfl
  have hholder' : w.holder other = o' := by rw [holder, hother]; rfl
  obtain ⟨w₂, hpoint, hspec⟩ := pointBack_spec hthisToken fun p hp =>
    (h.paired.active (hholder'.trans hp) : Active w₁ p)
  obtain ⟨w', hpoint', hspec'⟩ := pointBack_spec (hspec.token ▸ hotherToken) fun p hp =>
    hspec.active p (h.paired.active (hholder.trans hp) : Active w₁ p)
  refine ⟨w', ?_, (h.arranged.frame hspec.queue hspec.hash hspec.created hspec.links).frame
    hspec'.queue hspec'.hash hspec'.created hspec'.links, ?_,
    hspec'.proper fun p x _ => hspec.proper (fun p x _ => h.paired.proper p x) p x⟩
  · rw [World.swapToken, hthis, hother]
    show (w₁.pointBack this).bind (fun w => w.pointBack other) = _
    rw [hpoint, bind_some, hpoint']
  · have hswap := h.paired.matched.swap (a := this) (c := other)
    have hw' : w'.holder = w₁.holder := by
      funext t
      rw [holder, holder, hspec'.token, hspec.token]
    rw [hspec'.back, hspec.back, hw', holder_setToken, holder_setToken]
    rw [hholder, hholder'] at hswap
    exact hswap

/-- **The destruction of a token keeps everything in order.** -/
theorem Sound.destroyToken (h : Sound size w on) {t : τ} {o : Option Nat}
    (ht : w.token t = some o) : ∃ w', w.destroyToken t = some w' ∧ Sound size w' on := by
  have hholder : w.holder t = o := by rw [holder, ht]; rfl
  cases o with
  | none =>
      refine ⟨w.setToken t none, ?_, h.arranged.frame rfl rfl rfl fun _ => rfl, ?_,
        h.paired.proper⟩
      · rw [World.destroyToken, ht]
        rfl
      · rw [holder_setToken, Option.join_none, ← hholder, update_eq_self]
        exact h.paired.matched
  | some p =>
      obtain ⟨x, hx, hexplicit, -⟩ := h.paired.active hholder
      refine ⟨(w.setToken t none).setProducer p (some { x with token := none, inactive := true }),
        ?_, h.arranged.frame rfl rfl rfl (sameLinks_setProducer hx rfl rfl), ?_,
        fun p' y hy => ?_⟩
      · rw [World.destroyToken, ht]
        show (w.producer p).bind _ = _
        rw [hx]
        rfl
      · rw [back_setProducer]
        have hunlink := h.paired.matched.unlink hholder
        rw [← Option.join_none, ← holder_setToken] at hunlink
        exact hunlink
      · rcases eq_or_ne p' p with rfl | hp
        · obtain rfl : { x with token := none, inactive := true } = y :=
            Option.some.inj ((update_self p' _ w.producer).symm.trans hy)
          exact ⟨fun _ => rfl, fun _ => rfl⟩
        · exact h.paired.proper p' y ((update_of_ne hp _ _).symm.trans hy)

end Tokens

/-! ### Producers -/

/-- Whether a producer can be recycled. -/
def available (isExplicit : Bool) (w : World κ ι τ) (p : Nat) : Bool :=
  (w.producer p).any fun x => x.inactive && x.isExplicit == isExplicit

theorem findInactive_returns {isExplicit : Bool} {ptr : Option Nat} {ps : List Nat}
    (hl : IsList w.next ptr ps) (halive : ∀ p ∈ ps, ∃ x, w.producer p = some x) :
    Returns (fun fuel => findInactive isExplicit w fuel ptr)
      (ps.find? (w.available isExplicit)) := by
  induction ps generalizing ptr with
  | nil =>
      rw [isList_nil.mp hl]
      exact .of_succ fun _ => rfl
  | cons p ps ih =>
      obtain ⟨rfl, hrest⟩ := isList_cons.mp hl
      obtain ⟨x, hx⟩ := halive p List.mem_cons_self
      have hnext : w.next p = x.next := by rw [next, hx, bind_some]
      have havail : w.available isExplicit p = (x.inactive && x.isExplicit == isExplicit) := by
        rw [available, hx]
        rfl
      rw [hnext] at hrest
      rw [List.find?_cons, havail]
      cases hfound : x.inactive && x.isExplicit == isExplicit with
      | true =>
          refine .of_succ fun fuel => ?_
          rw [findInactive, hx]
          simp only [bind_eq_bind, bind_some, hfound, if_true]
      | false =>
          refine (ih hrest fun p' hp' => halive p' (List.mem_cons_of_mem p hp')).step fun fuel => ?_
          rw [findInactive, hx]
          simp only [bind_eq_bind, bind_some, hfound, Bool.false_eq_true, if_false]

/-- A producer `p` that no token has is in use from now on. -/
structure Acquired (isExplicit : Bool) (p : Nat) (w w' : World κ ι τ) : Prop where
  token : w'.token = w.token
  free : w.back p = none
  producer : ∃ y, w'.producer = update w.producer p (some y) ∧
    y.isExplicit = isExplicit ∧ y.inactive = false ∧ y.token = none

theorem Acquired.back {isExplicit : Bool} {p : Nat} (h : Acquired isExplicit p w w') :
    w'.back = w.back := by
  obtain ⟨y, hy, -, -, htoken⟩ := h.producer
  have hback : w'.back = update w.back p y.token := by
    have hset := back_setProducer w p (some y)
    rw [bind_some] at hset
    rw [← hset]
    funext p'
    rw [World.back, World.back, hy]
    rfl
  rw [hback, htoken, ← h.free, update_eq_self]

/-- A new producer at the head of the list of `q`. -/
theorem Arranged.add [DecidableEq κ] (h : Arranged size w on) {q : κ} {m : Members κ}
    (hm : w.queue q = some m) (isExplicit : Bool) : ∃ w', w.addProducer isExplicit q = some w' ∧
      Arranged size w' (update on q (w.created :: on q)) ∧ w'.token = w.token ∧
      w'.producer = update w.producer w.created
        (some ⟨m.producerListTail, false, none, isExplicit, q⟩) := by
  have hq := h.lists q m hm
  let w' : World κ ι τ := { w with
    queue := update w.queue q (some { m with
      producerCount := m.producerCount + 1
      producerListTail := some w.created })
    producer := update w.producer w.created
      (some ⟨m.producerListTail, false, none, isExplicit, q⟩)
    created := w.created + 1 }
  have hrun : w.addProducer isExplicit q = some w' := by
    rw [addProducer, hm]
    rfl
  have hself : w'.producer w.created = some ⟨m.producerListTail, false, none, isExplicit, q⟩ :=
    update_self ..
  have hold : ∀ p ≠ w.created, w'.producer p = w.producer p := fun p hp =>
    update_of_ne hp _ _
  have hlt : ∀ p q', p ∈ on q' → ∀ ptr, Lists w q' ptr (on q') → p ≠ w.created :=
    fun p q' hp ptr hq' heq => by
      obtain ⟨x, hx, -⟩ := hq'.parent p hp
      have := h.fresh p x hx
      omega
  refine ⟨w', hrun, ⟨fun q' m' hq' => ?_, fun q' hq' => ?_, fun hsize q' m' hq' => ?_,
    fun p x hx => ?_, fun p x hx => ?_⟩, rfl, rfl⟩
  · rcases eq_or_ne q' q with rfl | hne
    · obtain rfl := Option.some.inj ((update_self q' _ w.queue).symm.trans hq')
      rw [update_self]
      refine ⟨isList_cons.mpr ⟨rfl, ?_⟩, fun p hp => ?_⟩
      · rw [next, hself, bind_some]
        refine hq.list.congr fun p hp => ?_
        rw [next, next, hold p (hlt p q' hp _ hq)]
      · rcases List.mem_cons.mp hp with rfl | hp
        · exact ⟨_, hself, rfl⟩
        · rw [hold p (hlt p q' hp _ hq)]
          exact hq.parent p hp
    · have hlists := h.lists q' m' ((update_of_ne hne _ _).symm.trans hq')
      rw [update_of_ne hne]
      refine ⟨hlists.list.congr fun p hp => ?_, fun p hp => ?_⟩
      · rw [next, next, hold p (hlt p q' hp _ hlists)]
      · rw [hold p (hlt p q' hp _ hlists)]
        exact hlists.parent p hp
  · have hne : q' ≠ q := by
      rintro rfl
      exact absurd ((update_self q' _ w.queue).symm.trans hq') (Option.some_ne_none _)
    rw [update_of_ne hne]
    exact h.dead q' ((update_of_ne hne _ _).symm.trans hq')
  · rcases eq_or_ne q' q with rfl | hne
    · obtain rfl := Option.some.inj ((update_self q' _ w.queue).symm.trans hq')
      obtain ⟨ts, hts⟩ := h.chain hsize q' m hm
      exact ⟨ts, hts.congr fun _ _ => rfl⟩
    · obtain ⟨ts, hts⟩ := h.chain hsize q' m' ((update_of_ne hne _ _).symm.trans hq')
      exact ⟨ts, hts.congr fun _ _ => rfl⟩
  · rcases eq_or_ne p w.created with rfl | hp
    · obtain rfl := Option.some.inj (hself.symm.trans hx)
      rw [update_self]
      exact List.mem_cons_self
    · have hmem := h.placed p x ((hold p hp).symm.trans hx)
      rcases eq_or_ne x.parent q with hparent | hparent
      · rw [hparent] at hmem ⊢
        rw [update_self]
        exact List.mem_cons_of_mem _ hmem
      · rwa [update_of_ne hparent]
  · rcases eq_or_ne p w.created with rfl | hp
    · exact Nat.lt_succ_self _
    · exact Nat.lt_succ_of_lt (h.fresh p x ((hold p hp).symm.trans hx))

/-- **A producer is recycled or created**, or there is no memory for one. -/
theorem Sound.recycleOrCreateProducer [DecidableEq κ] (h : Sound size w on) {q : κ} {m : Members κ}
    (hm : w.queue q = some m) (isExplicit allocates : Bool) : ∃ w' o on',
      Returns (fun fuel => w.recycleOrCreateProducer fuel isExplicit allocates q) (w', o) ∧
      Arranged size w' on' ∧ ((o = none ∧ w' = w) ∨
        ∃ p, o = some p ∧ Acquired isExplicit p w w') := by
  have hq := h.arranged.lists q m hm
  have hfind : Returns (fun fuel => findInactive isExplicit w fuel m.producerListTail)
      ((on q).find? (w.available isExplicit)) := findInactive_returns hq.list hq.alive
  cases hfound : (on q).find? (w.available isExplicit) with
  | some p =>
      rw [hfound] at hfind
      obtain ⟨x, hx⟩ := hq.alive p (List.mem_of_find?_eq_some hfound)
      have havail := List.find?_some hfound
      rw [available, hx, Option.any_some, Bool.and_eq_true, beq_iff_eq] at havail
      obtain ⟨hinactive, hexplicit⟩ := havail
      have htoken : x.token = none := by
        have hproper := h.paired.proper p x hx
        cases hx : x.isExplicit with
        | true => exact Option.isNone_iff_eq_none.mp ((hproper.inactive hx).symm.trans hinactive)
        | false => exact hproper.token hx
      refine ⟨w.setProducer p (some { x with inactive := false }), some p, on,
        hfind.imp fun fuel hfuel => ?_,
        h.arranged.frame rfl rfl rfl (sameLinks_setProducer hx rfl rfl),
        .inr ⟨p, rfl, rfl, by rw [World.back, hx, bind_some, htoken], _, rfl, hexplicit,
          rfl, htoken⟩⟩
      rw [World.recycleOrCreateProducer, hm]
      simp only [bind_eq_bind, bind_some, hfuel, hx]
  | none =>
      rw [hfound] at hfind
      cases allocates with
      | false =>
          refine ⟨w, none, on, hfind.imp fun fuel hfuel => ?_, h.arranged, .inl ⟨rfl, rfl⟩⟩
          rw [World.recycleOrCreateProducer, hm]
          simp only [bind_eq_bind, bind_some, hfuel, Bool.false_eq_true, if_false]
      | true =>
          obtain ⟨w', hadd, harranged, htoken, hproducer⟩ := h.arranged.add hm isExplicit
          refine ⟨w', some w.created, _, hfind.imp fun fuel hfuel => ?_, harranged,
            .inr ⟨_, rfl, htoken, ?_, _, hproducer, rfl, rfl, rfl⟩⟩
          · rw [World.recycleOrCreateProducer, hm]
            simp only [bind_eq_bind, bind_some, hfuel, if_true, hadd]
          · cases hp : w.producer w.created with
            | none => rw [World.back, hp, Option.bind_none]
            | some x => exact absurd (h.arranged.fresh _ x hp) (lt_irrefl _)

/-- **A thread gets its implicit producer.** -/
theorem Sound.acquireImplicit [DecidableEq κ] (h : Sound size w on) {q : κ} {m : Members κ}
    (hm : w.queue q = some m) (allocates : Bool) : ∃ w' on', Returns (fun fuel =>
      (w.recycleOrCreateProducer fuel false allocates q).map (·.1)) w' ∧ Sound size w' on' := by
  obtain ⟨w', o, on', hreturns, harranged, hcases⟩ :=
    h.recycleOrCreateProducer hm false allocates
  refine ⟨w', on', hreturns.imp fun fuel hfuel => by rw [hfuel]; rfl, harranged, ?_⟩
  rcases hcases with ⟨-, rfl⟩ | ⟨p, -, hacquired⟩
  · exact h.paired
  · refine ⟨?_, fun p' x hx => ?_⟩
    · have hholder : w'.holder = w.holder := by
        funext t
        rw [holder, holder, hacquired.token]
      rw [hacquired.back, hholder]
      exact h.paired.matched
    · obtain ⟨y, hy, hexplicit, -, htoken⟩ := hacquired.producer
      rw [hy] at hx
      rcases eq_or_ne p' p with rfl | hp
      · obtain rfl := Option.some.inj ((update_self p' _ w.producer).symm.trans hx)
        exact ⟨fun htrue => absurd (hexplicit.symm.trans htrue) nofun, fun _ => htoken⟩
      · exact h.paired.proper p' x ((update_of_ne hp _ _).symm.trans hx)

/-- **The construction of a token keeps everything in order.** -/
theorem Sound.constructToken [DecidableEq κ] [DecidableEq τ] (h : Sound size w on) {t : τ} {q : κ}
    {m : Members κ} (ht : w.token t = none) (hm : w.queue q = some m) (allocates : Bool) :
    ∃ w' on', Returns (fun fuel => w.constructToken fuel t allocates q) w' ∧ Sound size w' on' := by
  obtain ⟨w₁, o, on', hreturns, harranged, hcases⟩ :=
    h.recycleOrCreateProducer hm true allocates
  let w₂ := w₁.setToken t (some o)
  have htoken₁ : w₁.token = w.token := by
    rcases hcases with ⟨-, rfl⟩ | ⟨p, -, hacquired⟩
    · rfl
    · exact hacquired.token
  have hactive : ∀ p, o = some p → Active w₂ p := fun p hp => by
    rcases hcases with ⟨ho, -⟩ | ⟨p', ho, hacquired⟩
    · exact absurd (ho.symm.trans hp) nofun
    · obtain rfl := Option.some.inj (ho.symm.trans hp)
      obtain ⟨y, hy, hexplicit, hinactive, -⟩ := hacquired.producer
      exact ⟨y, (congrFun hy p').trans (update_self ..), hexplicit, hinactive⟩
  obtain ⟨w', hpoint, hspec⟩ := pointBack_spec (update_self t (some o) w₁.token) hactive
  have hreturns' : Returns (fun fuel => w.constructToken fuel t allocates q) w' :=
    hreturns.imp fun fuel hfuel => by
      rw [World.constructToken, hfuel]
      exact hpoint
  refine ⟨w', on', hreturns', harranged.frame hspec.queue hspec.hash hspec.created hspec.links,
    ?_, hspec.proper fun p x hpo hx => ?_⟩
  · have hholder : w'.holder = update w.holder t o := by
      have hw' : w'.holder = w₂.holder := by
        funext t'
        rw [holder, holder, hspec.token]
      have hw₁ : w₁.holder = w.holder := by
        funext t'
        rw [holder, holder, htoken₁]
      rw [hw', holder_setToken, hw₁]
      rfl
    have hfree : w.holder t = none := by rw [holder, ht]; rfl
    rw [hholder, hspec.back]
    rcases hcases with ⟨rfl, rfl⟩ | ⟨p, rfl, hacquired⟩
    · rw [← hfree, update_eq_self]
      rw [hfree]
      exact h.paired.matched
    · have hback : w₂.back = w.back := hacquired.back
      rw [hback]
      exact h.paired.matched.link hfree hacquired.free
  · rcases hcases with ⟨-, rfl⟩ | ⟨p', rfl, hacquired⟩
    · exact h.paired.proper p x hx
    · obtain ⟨y, hy, -⟩ := hacquired.producer
      have hne : p ≠ p' := fun heq => hpo (by rw [heq])
      exact h.paired.proper p x ((update_of_ne hne _ _).symm.trans
        ((congrFun hy p).symm.trans hx))

/-- A thread ends, and with it the use of its implicit producer. -/
theorem Sound.releaseImplicit (h : Sound size w on) {p : Nat} {x : Producer κ τ}
    (hx : w.producer p = some x) (himplicit : x.isExplicit = false) :
    Sound size (w.setProducer p (some { x with inactive := true })) on := by
  refine ⟨h.arranged.frame rfl rfl rfl (sameLinks_setProducer hx rfl rfl), ?_, fun p' y hy => ?_⟩
  · rw [back_setProducer, bind_some, show x.token = w.back p by rw [back, hx]; rfl,
      update_eq_self]
    exact h.paired.matched
  · rcases eq_or_ne p' p with rfl | hp
    · obtain rfl := Option.some.inj ((update_self p' _ w.producer).symm.trans hy)
      exact ⟨fun htrue => absurd (himplicit.symm.trans htrue) nofun,
        (h.paired.proper p' x hx).token⟩
    · exact h.paired.proper p' y ((update_of_ne hp _ _).symm.trans hy)

end World

/-! ### Every sequence of operations -/

section Run

open World

variable [DecidableEq κ] [DecidableEq τ] {size : Nat} {w w' : World κ ι τ}

/-- The objects that an operation is about exist, and those it constructs do not. -/
def Op.Legal (w : World κ ι τ) : Op κ τ → Prop
  | construct q _ _ => w.queue q = none
  | moveConstruct this other => w.queue this = none ∧ (w.queue other).isSome
  | swap this other => (w.queue this).isSome ∧ (w.queue other).isSome
  | destroy q => (w.queue q).isSome
  | constructToken t _ q => w.token t = none ∧ (w.queue q).isSome
  | moveConstructToken this other => w.token this = none ∧ (w.token other).isSome
  | swapToken this other => (w.token this).isSome ∧ (w.token other).isSome
  | destroyToken t => (w.token t).isSome
  | acquireImplicit _ q => (w.queue q).isSome
  | releaseImplicit p => ∃ x, w.producer p = some x ∧ x.isExplicit = false

/-- What a sequence of operations leads to, from no objects at all. -/
inductive Reached (size : Nat) : World κ ι τ → Prop
  | start {w : World κ ι τ} (hqueue : ∀ q, w.queue q = none) (htoken : ∀ t, w.token t = none)
      (hproducer : ∀ p, w.producer p = none) : Reached size w
  | step {w w' : World κ ι τ} (op : Op κ τ) (h : Reached size w)
      (hrun : Returns (fun fuel => op.run size fuel w) w') : Reached size w'

/-- **Each operation on objects that exist comes back**, and keeps everything in order. -/
theorem Op.sound {on : κ → List Nat} (h : Sound size w on) {op : Op κ τ} (hlegal : op.Legal w) :
    ∃ w' on', Returns (fun fuel => op.run size fuel w) w' ∧ Sound size w' on' := by
  cases op with
  | construct q blockCount pool =>
      obtain ⟨w', hrun, hsound⟩ := h.construct hlegal blockCount pool
      refine ⟨w', on, .of_forall fun fuel => ?_, hsound⟩
      rw [run, hlegal, if_neg nofun, hrun]
  | moveConstruct this other =>
      obtain ⟨hthis, hother⟩ := hlegal
      obtain ⟨m, hm⟩ := Option.isSome_iff_exists.mp hother
      obtain ⟨w', on', hreturns, hsound⟩ := h.moveConstruct hthis hm
      refine ⟨w', on', hreturns.imp fun fuel hfuel => ?_, hsound⟩
      rw [run, hthis, if_neg nofun, hfuel]
  | swap this other =>
      obtain ⟨hthis, hother⟩ := hlegal
      obtain ⟨m, hm⟩ := Option.isSome_iff_exists.mp hthis
      obtain ⟨o, ho⟩ := Option.isSome_iff_exists.mp hother
      obtain ⟨w', on', hreturns, hsound⟩ := h.swap hm ho
      refine ⟨w', on', hreturns.imp fun fuel hfuel => ?_, hsound⟩
      rw [run, hm, ho]
      exact hfuel
  | destroy q =>
      obtain ⟨m, hm⟩ := Option.isSome_iff_exists.mp hlegal
      exact ⟨_, _, h.destroy hm⟩
  | constructToken t allocates q =>
      obtain ⟨ht, hq⟩ := hlegal
      obtain ⟨m, hm⟩ := Option.isSome_iff_exists.mp hq
      obtain ⟨w', on', hreturns, hsound⟩ := h.constructToken ht hm allocates
      refine ⟨w', on', hreturns.imp fun fuel hfuel => ?_, hsound⟩
      rw [run, ht, if_neg nofun, hfuel]
  | moveConstructToken this other =>
      obtain ⟨hthis, hother⟩ := hlegal
      obtain ⟨o, ho⟩ := Option.isSome_iff_exists.mp hother
      obtain ⟨w', hrun, hsound⟩ := h.moveConstructToken hthis ho
      refine ⟨w', on, .of_forall fun fuel => ?_, hsound⟩
      rw [run, hthis, if_neg nofun, hrun]
  | swapToken this other =>
      obtain ⟨hthis, hother⟩ := hlegal
      obtain ⟨o, ho⟩ := Option.isSome_iff_exists.mp hthis
      obtain ⟨o', ho'⟩ := Option.isSome_iff_exists.mp hother
      obtain ⟨w', hrun, hsound⟩ := h.swapToken ho ho'
      exact ⟨w', on, .of_forall fun _ => hrun, hsound⟩
  | destroyToken t =>
      obtain ⟨o, ho⟩ := Option.isSome_iff_exists.mp hlegal
      obtain ⟨w', hrun, hsound⟩ := h.destroyToken ho
      exact ⟨w', on, .of_forall fun _ => hrun, hsound⟩
  | acquireImplicit allocates q =>
      obtain ⟨m, hm⟩ := Option.isSome_iff_exists.mp hlegal
      exact h.acquireImplicit hm allocates
  | releaseImplicit p =>
      obtain ⟨x, hx, himplicit⟩ := hlegal
      refine ⟨_, on, .of_forall fun fuel => ?_, h.releaseImplicit hx himplicit⟩
      rw [run, hx]
      simp only [bind_eq_bind, bind_some, himplicit, Bool.false_eq_true, if_false]

/-- An operation on objects that do not exist has no result. -/
theorem Op.legal_of_run {fuel : Nat} {op : Op κ τ} (h : op.run size fuel w = some w') :
    op.Legal w := by
  have hsome : ∀ {β γ : Type} {o : Option β} {f : β → Option γ} {c : γ},
      o.bind f = some c → o.isSome := fun h => by
    obtain ⟨b, hb, -⟩ := bind_eq_some_iff.mp h
    rw [hb]
    rfl
  have hnone : ∀ {β γ : Type} {o : Option β} {r : Option γ} {c : γ},
      (if o.isSome then none else r) = some c → o = none ∧ r = some c := fun {_ _ o _ _} h => by
    cases o with
    | none => exact ⟨rfl, h⟩
    | some b => cases h
  cases op with
  | construct q blockCount pool => exact (hnone h).1
  | moveConstruct this other => exact ⟨(hnone h).1, hsome (hnone h).2⟩
  | swap this other =>
      obtain ⟨m, hm, hrest⟩ := bind_eq_some_iff.mp h
      exact ⟨by rw [hm]; rfl, hsome hrest⟩
  | destroy q => exact hsome h
  | constructToken t allocates q =>
      refine ⟨(hnone h).1, ?_⟩
      obtain ⟨r, hr, -⟩ := bind_eq_some_iff.mp (hnone h).2
      exact hsome hr
  | moveConstructToken this other => exact ⟨(hnone h).1, hsome (hnone h).2⟩
  | swapToken this other =>
      obtain ⟨o, ho, hrest⟩ := bind_eq_some_iff.mp h
      exact ⟨by rw [ho]; rfl, hsome hrest⟩
  | destroyToken t => exact hsome h
  | acquireImplicit allocates q =>
      obtain ⟨r, hr, -⟩ := map_eq_some_iff.mp h
      exact hsome hr
  | releaseImplicit p =>
      obtain ⟨x, hx, hrest⟩ := bind_eq_some_iff.mp h
      refine ⟨x, hx, ?_⟩
      cases himplicit : x.isExplicit with
      | false => rfl
      | true =>
          rw [himplicit] at hrest
          cases hrest

theorem Reached.sound (h : Reached size w) : ∃ on, Sound size w on := by
  induction h with
  | start hqueue htoken hproducer =>
      refine ⟨fun _ => [], ⟨fun q m hm => ?_, fun _ _ => rfl, fun _ q m hm => ?_, fun p x hx => ?_,
        fun p x hx => ?_⟩, fun t p => ?_, fun p x hx => ?_⟩
      · exact absurd ((hqueue q).symm.trans hm) nofun
      · exact absurd ((hqueue q).symm.trans hm) nofun
      · exact absurd ((hproducer p).symm.trans hx) nofun
      · exact absurd ((hproducer p).symm.trans hx) nofun
      · rw [holder, htoken t, back, hproducer p]
        exact ⟨nofun, nofun⟩
      · exact absurd ((hproducer p).symm.trans hx) nofun
  | step op _ hrun ih =>
      obtain ⟨on, hsound⟩ := ih
      obtain ⟨n, hn⟩ := hrun
      obtain ⟨w', on', hreturns, hsound'⟩ := Op.sound hsound (Op.legal_of_run (hn n le_rfl))
      obtain rfl := hreturns.unique ⟨n, hn⟩
      exact ⟨on', hsound'⟩

/-- The producer `p` is on the list of the queue `q`. -/
def World.On (w : World κ ι τ) (q : κ) (p : Nat) : Prop :=
  ∃ m ps, w.queue q = some m ∧ IsList w.next m.producerListTail ps ∧ p ∈ ps

/-- **Producer tokens and explicit producers correspond**, after every sequence of
operations. Every operation on objects that exist comes back, and the destruction of a
queue invalidates the tokens of its producers and no others. -/
theorem tokens_correspond (h : Reached size w) :
    (∀ t p, w.token t = some (some p) ↔ ∃ x, w.producer p = some x ∧ x.token = some t) ∧
    (∀ t t' p, w.token t = some (some p) → w.token t' = some (some p) → t = t') ∧
    (∀ t p x, w.token t = some (some p) → w.producer p = some x → x.inactive = false) ∧
    (∀ p x, w.producer p = some x → x.isExplicit = true → (∀ t, w.token t ≠ some (some p)) →
      x.token = none ∧ x.inactive = true) ∧
    (∀ op : Op κ τ, op.Legal w → ∃ w', Returns (fun fuel => op.run size fuel w) w') ∧
    ∀ q w', Returns (fun fuel => (Op.destroy q).run size fuel w) w' → ∀ t,
      (∀ p, w.token t = some (some p) → w.On q p → w'.token t = some none) ∧
      ((∀ p, w.token t = some (some p) → ¬ w.On q p) → w'.token t = w.token t) := by
  obtain ⟨on, hsound⟩ := h.sound
  have hmatched := hsound.paired.matched
  refine ⟨fun t p => ?_, fun t t' p ht ht' => ?_, fun t p x ht hx => ?_, fun p x hx hex hfree => ?_,
    fun op hlegal => ?_, fun q w' hrun t => ?_⟩
  · rw [← holder_eq_some, hmatched t p, back, bind_eq_some_iff]
  · exact hmatched.unique (holder_eq_some.mpr ht) (holder_eq_some.mpr ht')
  · obtain ⟨y, hy, -, hinactive⟩ := hsound.paired.active (holder_eq_some.mpr ht)
    rw [hx, Option.some.injEq] at hy
    rw [hy, hinactive]
  · have htoken : x.token = none := by
      cases ht : x.token with
      | none => rfl
      | some t =>
          refine absurd (holder_eq_some.mp ((hmatched t p).mpr ?_)) (hfree t)
          rw [back, hx, bind_some, ht]
    exact ⟨htoken, by rw [(hsound.paired.proper p x hx).inactive hex, htoken]; rfl⟩
  · obtain ⟨w', -, hreturns, -⟩ := Op.sound hsound hlegal
    exact ⟨w', hreturns⟩
  · obtain ⟨n, hn⟩ := hrun
    obtain ⟨m, hm⟩ := Option.isSome_iff_exists.mp (Op.legal_of_run (hn n le_rfl))
    obtain ⟨hreturns, -⟩ := hsound.destroy hm
    obtain rfl := hreturns.unique ⟨n, hn⟩
    have hlist := (hsound.arranged.lists q m hm).list
    have hon : ∀ p, w.On q p ↔ p ∈ on q := fun p => by
      constructor
      · rintro ⟨m', ps, hm', hps, hp⟩
        obtain rfl := Option.some.inj (hm'.symm.trans hm)
        rwa [hlist.unique hps]
      · exact fun hp => ⟨m, on q, hm, hlist, hp⟩
    have htoken : ((w.without (on q)).setQueue q none).token t =
        (w.token t).map fun o => o.filter fun p => p ∉ on q := rfl
    rw [htoken]
    refine ⟨fun p ht hp => ?_, fun hnot => ?_⟩
    · rw [ht]
      simp [(hon p).mp hp]
    · cases ht : w.token t with
      | none => rfl
      | some o =>
          cases o with
          | none => rfl
          | some p =>
              have hp : p ∉ on q := fun hp => hnot p ht ((hon p).mpr hp)
              simp [hp]

end Run

/-- No objects. -/
def nothing : World (Fin 1) Unit (Fin 2) where
  queue _ := none
  hash p := ⟨0, p, none⟩
  entries _ := []
  producer _ := none
  token _ := none
  created := 0

/-- A token is constructed and moved, and then its queue is destroyed. -/
theorem tokens_correspond_moved : ∃ w : World (Fin 1) Unit (Fin 2), Reached 1 w ∧
    w.token 0 = some none ∧ w.token 1 = some (some 0) ∧
    ∃ w', Returns (fun fuel => (Op.destroy 0).run 1 fuel w) w' ∧ w'.token 1 = some none := by
  have hstart : Reached 1 nothing := .start (fun _ => rfl) (fun _ => rfl) (fun _ => rfl)
  have hreached := ((hstart.step (.construct 0 0 none) (.of_forall fun _ => rfl)).step
    (.constructToken 0 true 0) (.of_succ fun _ => rfl)).step
      (.moveConstructToken 1 0) (.of_forall fun _ => rfl)
  refine ⟨_, hreached, rfl, rfl, ?_⟩
  obtain ⟨-, -, -, -, hprogress, hdestroy⟩ := tokens_correspond hreached
  obtain ⟨w', hw'⟩ := hprogress (.destroy 0) rfl
  refine ⟨w', hw', (hdestroy 0 w' hw' 1).1 0 rfl ?_⟩
  exact ⟨_, [0], rfl, isList_cons.mpr ⟨rfl, isList_nil.mpr rfl⟩, List.mem_cons_self⟩

end ConcurrentQueue.Objects
