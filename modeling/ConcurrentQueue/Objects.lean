import ConcurrentQueue.ImplicitHash
import ConcurrentQueue.Lib.Linked

/-!
# ConcurrentQueue.Objects

**Queues and producer tokens as objects in memory**: how they are constructed, moved,
swapped and destroyed, one operation at a time.

A queue refers to its producers and to the tables of its implicit producers, a producer
to its queue and to its token, and a token to its producer. The first table and its
entries are part of the queue itself, so their addresses do not move with what they
hold. `none` as the result of an operation stands for an access to an object that does
not exist, and for a loop that has run out of fuel.
-/

namespace ConcurrentQueue.Objects

open Function

open ImplicitHash (Key)

/-! ### Memory -/

/-- The address of a table or of its entries: inside the queue `q`, or on the heap. -/
inductive Place (κ : Type)
  | within (q : κ)
  | heap (n : Nat)
  deriving DecidableEq

structure ImplicitProducerKVP (ι : Type) where
  key : Key ι
  value : Option Nat

structure ImplicitProducerHash (κ : Type) where
  capacity : Nat
  /-- The address of the entries. -/
  entries : Place κ
  prev : Option (Place κ)

/-- The members of a queue, but for its first table and the entries of that. -/
structure Members (κ : Type) where
  producerListTail : Option Nat
  producerCount : BitVec 32
  initialBlockPoolIndex : Nat
  initialBlockPool : Option Nat
  initialBlockPoolSize : Nat
  freeListHead : Option Nat
  implicitProducerHash : Place κ
  implicitProducerHashCount : Nat
  implicitProducerHashResizeInProgress : Bool
  nextExplicitConsumerId : BitVec 32
  globalExplicitConsumerOffset : BitVec 32

structure Producer (κ τ : Type) where
  next : Option Nat
  inactive : Bool
  token : Option τ
  isExplicit : Bool
  parent : κ

/-- The queues `κ` with the tables for threads `ι`, the producers by number, and the
tokens `τ`, each with the producer it points to. -/
@[ext] structure World (κ ι τ : Type) where
  queue : κ → Option (Members κ)
  hash : Place κ → ImplicitProducerHash κ
  entries : Place κ → List (ImplicitProducerKVP ι)
  producer : Nat → Option (Producer κ τ)
  token : τ → Option (Option Nat)
  /-- Producers allocated so far. -/
  created : Nat

namespace World

variable {κ ι τ : Type} [DecidableEq κ] [DecidableEq τ]

def setQueue (q : κ) (m : Option (Members κ)) (w : World κ ι τ) : World κ ι τ :=
  { w with queue := update w.queue q m }

def setHash (p : Place κ) (h : ImplicitProducerHash κ) (w : World κ ι τ) : World κ ι τ :=
  { w with hash := update w.hash p h }

def setEntries (p : Place κ) (l : List (ImplicitProducerKVP ι)) (w : World κ ι τ) : World κ ι τ :=
  { w with entries := update w.entries p l }

def setProducer (p : Nat) (x : Option (Producer κ τ)) (w : World κ ι τ) : World κ ι τ :=
  { w with producer := update w.producer p x }

def setToken (t : τ) (x : Option (Option Nat)) (w : World κ ι τ) : World κ ι τ :=
  { w with token := update w.token t x }

/-! ### The tables of the implicit producers -/

/-- The probes for a thread in one table. -/
def probe [DecidableEq ι] (entries : List (ImplicitProducerKVP ι)) (capacity : Nat) (id : ι) :
    (fuel index : Nat) → Option (Option (Option Nat))
  | 0, _ => none
  | fuel + 1, index => do
      let index := index &&& (capacity - 1)
      let x ← entries[index]?
      if x.key = .id id then some (some x.value)
      else if x.key = .invalidThreadId then some none
      else probe entries capacity id fuel (index + 1)

/-- The search through the tables from `hash` on. -/
def search [DecidableEq ι] (hashedId : Nat) (id : ι) (w : World κ ι τ) :
    (fuel : Nat) → (hash : Option (Place κ)) → Option (Option (Option Nat))
  | 0, _ => none
  | _ + 1, none => some none
  | fuel + 1, some hash => do
      let found ← probe (w.entries (w.hash hash).entries) (w.hash hash).capacity id fuel hashedId
      match found with
      | some value => some (some value)
      | none => search hashedId id w fuel (w.hash hash).prev

/-- What `get_or_add_implicit_producer` finds for a thread before it adds anything. -/
def lookup [DecidableEq ι] (fuel : Nat) (q : κ) (hashedId : Nat) (id : ι) (w : World κ ι τ) :
    Option (Option (Option Nat)) := do
  let m ← w.queue q
  search hashedId id w fuel (some m.implicitProducerHash)

/-- `size` is `INITIAL_IMPLICIT_PRODUCER_HASH_SIZE`. -/
def populateInitialImplicitProducerHash (size : Nat) (q : κ) (w : World κ ι τ) :
    Option (World κ ι τ) :=
  if size = 0 then some w
  else do
    let m ← w.queue q
    let w := w.setQueue q (some { m with
      implicitProducerHashCount := 0
      implicitProducerHash := .within q })
    let w := w.setHash (.within q) ⟨size, .within q, none⟩
    some (w.setEntries (.within q)
      ((w.entries (.within q)).map fun x => { x with key := .invalidThreadId }))

/-- The loop that looks for the table before `target`. -/
def findBefore (target : Place κ) (w : World κ ι τ) : (fuel : Nat) → (hash : Place κ) →
    Option (Place κ)
  | 0, _ => none
  | fuel + 1, hash =>
      match (w.hash hash).prev with
      | none => none
      | some prev => if prev = target then some hash else findBefore target w fuel prev

/-- The one pointer that refers to the first table of `other` is to refer to that of
`this`. -/
def redirect (fuel : Nat) (this other : κ) (w : World κ ι τ) : Option (World κ ι τ) := do
  let m ← w.queue this
  if m.implicitProducerHash = .within other then
    some (w.setQueue this (some { m with implicitProducerHash := .within this }))
  else do
    let hash ← findBefore (.within other) w fuel m.implicitProducerHash
    some (w.setHash hash { w.hash hash with prev := some (.within this) })

def swapImplicitProducerHashes (size fuel : Nat) (this other : κ) (w : World κ ι τ) :
    Option (World κ ι τ) :=
  if size = 0 then some w
  else do
    let w := (w.setEntries (.within this) (w.entries (.within other))).setEntries
      (.within other) (w.entries (.within this))
    let w := w.setHash (.within this) { w.hash (.within this) with entries := .within this }
    let w := w.setHash (.within other) { w.hash (.within other) with entries := .within other }
    let m ← w.queue this
    let o ← w.queue other
    let w := w.setQueue this (some { m with
      implicitProducerHashCount := o.implicitProducerHashCount
      implicitProducerHash := o.implicitProducerHash })
    let w := w.setQueue other (some { o with
      implicitProducerHashCount := m.implicitProducerHashCount
      implicitProducerHash := m.implicitProducerHash })
    let w ← w.redirect fuel this other
    w.redirect fuel other this

/-! ### Construction, moves and swaps of queues -/

/-- The loop of `reown_producers` from `ptr` on. -/
def reownFrom (q : κ) : (fuel : Nat) → (ptr : Option Nat) → World κ ι τ → Option (World κ ι τ)
  | 0, _, _ => none
  | _ + 1, none, w => some w
  | fuel + 1, some p, w => do
      let x ← w.producer p
      reownFrom q fuel x.next (w.setProducer p (some { x with parent := q }))

def reownProducers (fuel : Nat) (q : κ) (w : World κ ι τ) : Option (World κ ι τ) := do
  let m ← w.queue q
  reownFrom q fuel m.producerListTail w

/-- Entries as their constructor leaves them, their keys set. -/
def freshEntries (size : Nat) : List (ImplicitProducerKVP ι) :=
  List.replicate size ⟨.invalidThreadId, none⟩

/-- `populate_initial_block_list` with `blockCount` blocks, for which `create_array` gives
`pool`: the pool and its size. -/
def initialBlockList (blockCount : Nat) (pool : Option Nat) : Option Nat × Nat :=
  if blockCount = 0 then (none, 0)
  else
    match pool with
    | none => (none, 0)
    | some pool => (some pool, blockCount)

def construct (size : Nat) (q : κ) (blockCount : Nat) (pool : Option Nat) (w : World κ ι τ) :
    Option (World κ ι τ) :=
  let w := w.setQueue q (some
    { producerListTail := none
      producerCount := 0
      initialBlockPoolIndex := 0
      initialBlockPool := (initialBlockList blockCount pool).1
      initialBlockPoolSize := (initialBlockList blockCount pool).2
      freeListHead := none
      implicitProducerHash := .within q
      implicitProducerHashCount := 0
      implicitProducerHashResizeInProgress := false
      nextExplicitConsumerId := 0
      globalExplicitConsumerOffset := 0 })
  populateInitialImplicitProducerHash size q (w.setEntries (.within q) (freshEntries size))

/-- The move constructor: `other` is left as an empty queue. -/
def moveConstruct (size fuel : Nat) (this other : κ) (w : World κ ι τ) : Option (World κ ι τ) := do
  let o ← w.queue other
  let w := w.setQueue this (some
    { o with
      implicitProducerHash := .within this
      implicitProducerHashCount := 0
      implicitProducerHashResizeInProgress := false })
  let w := w.setEntries (.within this) (freshEntries size)
  let w := w.setQueue other (some { o with freeListHead := none })
  let w ← populateInitialImplicitProducerHash size this w
  let w ← swapImplicitProducerHashes size fuel this other w
  let o ← w.queue other
  let w := w.setQueue other (some { o with
    producerListTail := none
    producerCount := 0
    nextExplicitConsumerId := 0
    globalExplicitConsumerOffset := 0
    initialBlockPoolIndex := 0
    initialBlockPoolSize := 0
    initialBlockPool := none })
  reownProducers fuel this w

/-- Move assignment is a swap, too. -/
def swapInternal (size fuel : Nat) (this other : κ) (w : World κ ι τ) : Option (World κ ι τ) :=
  if this = other then some w
  else do
    let m ← w.queue this
    let o ← w.queue other
    let w := w.setQueue this (some { o with
      implicitProducerHash := m.implicitProducerHash
      implicitProducerHashCount := m.implicitProducerHashCount
      implicitProducerHashResizeInProgress := m.implicitProducerHashResizeInProgress })
    let w := w.setQueue other (some { m with
      implicitProducerHash := o.implicitProducerHash
      implicitProducerHashCount := o.implicitProducerHashCount
      implicitProducerHashResizeInProgress := o.implicitProducerHashResizeInProgress })
    let w ← swapImplicitProducerHashes size fuel this other w
    let w ← reownProducers fuel this w
    reownProducers fuel other w

/-! ### Producers -/

/-- The loop that looks for a producer to recycle. -/
def findInactive (isExplicit : Bool) (w : World κ ι τ) : (fuel : Nat) → (ptr : Option Nat) →
    Option (Option Nat)
  | 0, _ => none
  | _ + 1, none => some none
  | fuel + 1, some p => do
      let x ← w.producer p
      if x.inactive && x.isExplicit == isExplicit then some (some p)
      else findInactive isExplicit w fuel x.next

/-- `add_producer` with a new producer of the queue `q`. -/
def addProducer (isExplicit : Bool) (q : κ) (w : World κ ι τ) : Option (World κ ι τ) := do
  let m ← w.queue q
  let w := w.setProducer w.created (some ⟨m.producerListTail, false, none, isExplicit, q⟩)
  let w := w.setQueue q (some { m with
    producerCount := m.producerCount + 1
    producerListTail := some w.created })
  some { w with created := w.created + 1 }

/-- `allocates` says whether there is memory for a new producer. -/
def recycleOrCreateProducer (fuel : Nat) (isExplicit allocates : Bool) (q : κ) (w : World κ ι τ) :
    Option (World κ ι τ × Option Nat) := do
  let m ← w.queue q
  let found ← findInactive isExplicit w fuel m.producerListTail
  match found with
  | some p => do
      let x ← w.producer p
      some (w.setProducer p (some { x with inactive := false }), some p)
  | none =>
      if allocates then do
        let w' ← w.addProducer isExplicit q
        some (w', some w.created)
      else some (w, none)

/-! ### Tokens -/

/-- `if (producer != nullptr) { producer->token = this; }` -/
def pointBack (t : τ) (w : World κ ι τ) : Option (World κ ι τ) := do
  let producer ← w.token t
  match producer with
  | none => some w
  | some p => do
      let x ← w.producer p
      some (w.setProducer p (some { x with token := some t }))

def constructToken (fuel : Nat) (t : τ) (allocates : Bool) (q : κ) (w : World κ ι τ) :
    Option (World κ ι τ) := do
  let (w, producer) ← w.recycleOrCreateProducer fuel true allocates q
  (w.setToken t (some producer)).pointBack t

def moveConstructToken (this other : τ) (w : World κ ι τ) : Option (World κ ι τ) := do
  let producer ← w.token other
  ((w.setToken this (some producer)).setToken other (some none)).pointBack this

/-- Move assignment is a swap, too. -/
def swapToken (this other : τ) (w : World κ ι τ) : Option (World κ ι τ) := do
  let producer ← w.token this
  let producer' ← w.token other
  let w := (w.setToken this (some producer')).setToken other (some producer)
  let w ← w.pointBack this
  w.pointBack other

def destroyToken (t : τ) (w : World κ ι τ) : Option (World κ ι τ) := do
  let producer ← w.token t
  let w := w.setToken t none
  match producer with
  | none => some w
  | some p => do
      let x ← w.producer p
      some (w.setProducer p (some { x with token := none, inactive := true }))

/-! ### Destruction of queues -/

/-- The destructor's loop over the producers. -/
def destroyFrom : (fuel : Nat) → (ptr : Option Nat) → World κ ι τ → Option (World κ ι τ)
  | 0, _, _ => none
  | _ + 1, none, w => some w
  | fuel + 1, some p, w => do
      let x ← w.producer p
      match x.token with
      | none => destroyFrom fuel x.next (w.setProducer p none)
      | some t => do
          let _ ← w.token t
          destroyFrom fuel x.next ((w.setToken t (some none)).setProducer p none)

def destroy (fuel : Nat) (q : κ) (w : World κ ι τ) : Option (World κ ι τ) := do
  let m ← w.queue q
  let w ← destroyFrom fuel m.producerListTail w
  some (w.setQueue q none)

end World

/-! ### Operations -/

inductive Op (κ τ : Type)
  | construct (q : κ) (blockCount : Nat) (pool : Option Nat)
  | moveConstruct (this other : κ)
  /-- Also move assignment. -/
  | swap (this other : κ)
  | destroy (q : κ)
  | constructToken (t : τ) (allocates : Bool) (q : κ)
  | moveConstructToken (this other : τ)
  /-- Also move assignment. -/
  | swapToken (this other : τ)
  | destroyToken (t : τ)
  /-- A thread enqueues for the first time, or ends. -/
  | acquireImplicit (allocates : Bool) (q : κ)
  | releaseImplicit (p : Nat)

namespace Op

variable {κ ι τ : Type} [DecidableEq κ] [DecidableEq τ]

/-- An object is constructed only where there is none. -/
def run (size fuel : Nat) (w : World κ ι τ) : Op κ τ → Option (World κ ι τ)
  | construct q blockCount pool =>
      if (w.queue q).isSome then none else w.construct size q blockCount pool
  | moveConstruct this other =>
      if (w.queue this).isSome then none else w.moveConstruct size fuel this other
  | swap this other => do
      let _ ← w.queue this
      let _ ← w.queue other
      w.swapInternal size fuel this other
  | destroy q => w.destroy fuel q
  | constructToken t allocates q =>
      if (w.token t).isSome then none else w.constructToken fuel t allocates q
  | moveConstructToken this other =>
      if (w.token this).isSome then none else w.moveConstructToken this other
  | swapToken this other => w.swapToken this other
  | destroyToken t => w.destroyToken t
  | acquireImplicit allocates q => (w.recycleOrCreateProducer fuel false allocates q).map (·.1)
  | releaseImplicit p => do
      let x ← w.producer p
      if x.isExplicit then none else some (w.setProducer p (some { x with inactive := true }))

end Op

end ConcurrentQueue.Objects
