import ConcurrentQueue.ImplicitSound
import ConcurrentQueue.ExplicitCustody

/-!
# ConcurrentQueue.Queue

**A queue with all of its producers**, one complete operation at a time: the producers share
the block memory. A producer is never removed from the list; the destructor of a token, or a
thread that exits, marks it inactive, and the next that asks for a producer of its kind gets
it back. A dequeue from the queue is a sequence of calls on producers of the list.
-/

namespace ConcurrentQueue.Whole

variable {α : Type}

inductive Producer (w : Nat)
  | explicit (p : Explicit.ExplicitProducer w)
  | implicit (p : Implicit.ImplicitProducer w)

def Producer.isExplicit {w : Nat} : Producer w → Bool
  | .explicit _ => true
  | .implicit _ => false

/-- A producer on the list. -/
structure Listed (w : Nat) where
  producer : Producer w
  inactive : Bool

structure Queue (w : Nat) (α : Type) where
  mem : Mem α
  /-- The oldest first: `producerListTail` is the last of them. -/
  producers : List (Listed w)

inductive Op (w : Nat) (α : Type)
  /-- A token is made, or a thread enqueues for the first time. -/
  | acquire (isExplicit : Bool)
  /-- A token is destroyed, or a thread exits. -/
  | release (i : Nat)
  | call (i : Nat) (c : Call w α)

inductive Reply (α : Type)
  | producer (i : Option Nat)
  | released
  | outcome (o : Outcome α)

namespace Queue

variable (e : Env)

/-- The newest of the first `n` producers that is inactive and of the right kind. -/
def findInactive {w : Nat} (isExplicit : Bool) (producers : List (Listed w)) : Nat → Option Nat
  | 0 => none
  | n + 1 =>
      match producers[n]? with
      | some x =>
          if x.inactive && x.producer.isExplicit == isExplicit then some n
          else findInactive isExplicit producers n
      | none => findInactive isExplicit producers n

/-- `create<ExplicitProducer>` or `create<ImplicitProducer>`. -/
def createProducer (isExplicit : Bool) (mem : Mem α) :
    Option (Option (Producer e.bits) × Mem α) :=
  match mem.malloc e with
  | (false, mem) => some (none, mem)
  | (true, mem) =>
      if isExplicit then
        (Explicit.create e mem).map fun st => (some (.explicit st.prod), st.mem)
      else (Implicit.create e mem).map fun st => (some (.implicit st.prod), st.mem)

def setInactive {w : Nat} (i : Nat) (b : Bool) (q : Queue w α) : Queue w α :=
  { q with producers := q.producers.modify i fun x => { x with inactive := b } }

def recycleOrCreateProducer (isExplicit : Bool) (q : Queue e.bits α) :
    Option (Queue e.bits α × Option Nat) :=
  match findInactive isExplicit q.producers q.producers.length with
  | some i => some (q.setInactive i false, some i)
  | none => do
      let (p, mem) ← createProducer e isExplicit q.mem
      match p with
      | none => some ({ q with mem := mem }, none)
      | some p => some (⟨mem, q.producers ++ [⟨p, false⟩]⟩, some q.producers.length)

def callProducer (c : Call e.bits α) (p : Producer e.bits) (mem : Mem α) :
    Option (Producer e.bits × Mem α × Outcome α) :=
  match p with
  | .explicit p => (Explicit.step e c ⟨mem, p⟩).map fun (st, o) => (.explicit st.prod, st.mem, o)
  | .implicit p => (Implicit.step e c ⟨mem, p⟩).map fun (st, o) => (.implicit st.prod, st.mem, o)

def call (i : Nat) (c : Call e.bits α) (q : Queue e.bits α) :
    Option (Queue e.bits α × Outcome α) := do
  let x ← q.producers[i]?
  let (p, mem, o) ← callProducer e c x.producer q.mem
  some (⟨mem, q.producers.set i { x with producer := p }⟩, o)

def step : Op e.bits α → Queue e.bits α → Option (Queue e.bits α × Reply α)
  | .acquire isExplicit, q =>
      (recycleOrCreateProducer e isExplicit q).map fun (q, i) => (q, .producer i)
  | .release i, q => some (q.setInactive i true, .released)
  | .call i c, q => (q.call e i c).map fun (q, o) => (q, .outcome o)

/-! ### Destruction -/

def destroyProducer (p : Producer e.bits) (mem : Mem α) : Option (List α × Mem α) :=
  match p with
  | .explicit p => Explicit.destroy e ⟨mem, p⟩
  | .implicit p => Implicit.destroy e ⟨mem, p⟩

def destroyProducers : List (Producer e.bits) → Mem α → Option (Mem α)
  | [], mem => some mem
  | p :: producers, mem => do
      let (_, mem) ← destroyProducer e p mem
      destroyProducers producers mem

/-- The destructor: the blocks destroyed in the whole life of the queue, and the memory at
the end. -/
def destroy (q : Queue e.bits α) : Option (List Nat × Mem α) := do
  let mem ← destroyProducers e (q.producers.reverse.map (·.producer)) q.mem
  some (mem.destroyed ++ mem.freeList.filter (fun b => (mem.blocks b).dynamicallyAllocated) ++
    List.range e.initialBlockPoolSize, mem)

/-! ### Runs -/

/-- The memory that the constructor leaves. -/
structure Blank (mem : Mem α) : Prop where
  initialBlockPoolIndex : mem.initialBlockPoolIndex = 0
  freeList : mem.freeList = []
  created : mem.created = 0
  destroyed : mem.destroyed = []
  vacant : ∀ b i, (mem.blocks b).elements i = none
  pooled : ∀ b < e.initialBlockPoolSize, (mem.blocks b).dynamicallyAllocated = false

/-- A queue after complete operations, each of which meets `ok`. -/
inductive Reached (ok : Queue e.bits α → Op e.bits α → Reply α → Prop) :
    Queue e.bits α → Prop
  | create {mem : Mem α} : Blank e mem → Reached ok ⟨mem, []⟩
  | step {q q' : Queue e.bits α} {op : Op e.bits α} {r : Reply α} :
      Reached ok q → step e op q = some (q', r) → ok q op r → Reached ok q'

end Queue

end ConcurrentQueue.Whole
