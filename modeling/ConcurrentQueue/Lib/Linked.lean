import Mathlib.Data.List.Nodup
import Mathlib.Tactic

/-!
# ConcurrentQueue.Lib.Linked

**Null-terminated linked lists** in a heap of `next` pointers. `Linked next h l`
says that following `next` from `h` visits exactly the nodes `l`, in order, and
then meets null. Such a list is determined by its head and has no repetition,
so being linked already says that the structure is acyclic.
-/

namespace Linked

variable {ν : Type*} {next : ν → Option ν} {h : Option ν} {l : List ν}

/-- Following `next` from `h` visits `l` and ends. -/
def IsList (next : ν → Option ν) : Option ν → List ν → Prop
  | none, [] => True
  | some n, m :: rest => n = m ∧ IsList next (next n) rest
  | _, _ => False

@[simp] theorem isList_nil : IsList next h [] ↔ h = none := by
  cases h <;> simp [IsList]

@[simp] theorem isList_cons {n : ν} :
    IsList next h (n :: l) ↔ h = some n ∧ IsList next (next n) l := by
  cases h with
  | none => simp [IsList]
  | some m =>
      simp only [IsList, Option.some.injEq]
      constructor
      · rintro ⟨rfl, hl⟩
        exact ⟨rfl, hl⟩
      · rintro ⟨rfl, hl⟩
        exact ⟨rfl, hl⟩

theorem IsList.unique {l' : List ν} (hl : IsList next h l) (hl' : IsList next h l') :
    l = l' := by
  induction l generalizing h l' with
  | nil =>
      rw [isList_nil] at hl
      subst hl
      cases l' with
      | nil => rfl
      | cons n rest => simp at hl'
  | cons n rest ih =>
      rw [isList_cons] at hl
      obtain ⟨rfl, hrest⟩ := hl
      cases l' with
      | nil => simp at hl'
      | cons m rest' =>
          rw [isList_cons] at hl'
          obtain ⟨hnm, hrest'⟩ := hl'
          cases hnm
          rw [ih hrest hrest']

/-- From any node of the list, the rest of the list is linked. -/
theorem IsList.of_append {p : List ν} {n : ν} {q : List ν}
    (hl : IsList next h (p ++ n :: q)) : IsList next (next n) q := by
  induction p generalizing h with
  | nil => exact (isList_cons.1 hl).2
  | cons m rest ih => exact ih (isList_cons.1 hl).2

/-- A node met twice would have to be followed by two lists of different
length. -/
theorem IsList.nodup (hl : IsList next h l) : l.Nodup := by
  induction l generalizing h with
  | nil => exact List.nodup_nil
  | cons n rest ih =>
      have hrest := (isList_cons.1 hl).2
      refine List.nodup_cons.mpr ⟨fun hmem => ?_, ih hrest⟩
      obtain ⟨p, q, rfl⟩ := List.append_of_mem hmem
      have hlen := congrArg List.length (hrest.unique hrest.of_append)
      simp at hlen
      omega

/-- Only the links of the nodes on the list matter. -/
theorem IsList.congr {next' : ν → Option ν} (hl : IsList next h l)
    (hnext : ∀ n ∈ l, next' n = next n) : IsList next' h l := by
  induction l generalizing h with
  | nil => simpa using hl
  | cons m rest ih =>
      rw [isList_cons] at hl ⊢
      rw [hnext m List.mem_cons_self]
      exact ⟨hl.1, ih hl.2 fun n hn => hnext n (List.mem_cons_of_mem m hn)⟩

/-- Writing the `next` field of a node off the list does not change the list. -/
theorem IsList.update [DecidableEq ν] (hl : IsList next h l) {n : ν} (hn : n ∉ l)
    (x : Option ν) : IsList (Function.update next n x) h l := by
  induction l generalizing h with
  | nil => simpa using hl
  | cons m rest ih =>
      rw [isList_cons] at hl ⊢
      have hmn : m ≠ n := fun hmn => hn (by simp [hmn])
      refine ⟨hl.1, ?_⟩
      rw [Function.update_of_ne hmn]
      exact ih hl.2 fun hmem => hn (List.mem_cons_of_mem _ hmem)

/-- Linking a node to the one after the next takes the next one off the list. -/
theorem IsList.remove [DecidableEq ν] {p : List ν} {m n : ν} {q : List ν}
    (hl : IsList next h (p ++ m :: n :: q)) :
    IsList (Function.update next m (next n)) h (p ++ m :: q) := by
  have hnodup := hl.nodup
  induction p generalizing h with
  | nil =>
      obtain ⟨hh, hrest⟩ := isList_cons.1 hl
      obtain ⟨-, hq⟩ := isList_cons.1 hrest
      have hm : m ∉ q := fun hmem =>
        (List.nodup_cons.mp hnodup).1 (List.mem_cons_of_mem _ hmem)
      refine isList_cons.2 ⟨hh, ?_⟩
      rw [Function.update_self]
      exact hq.update hm _
  | cons a p ih =>
      rw [List.cons_append, isList_cons] at hl ⊢
      rw [List.cons_append, List.nodup_cons] at hnodup
      have ham : a ≠ m := fun ham => hnodup.1 (ham ▸ by simp)
      rw [Function.update_of_ne ham]
      exact ⟨hl.1, ih hl.2 hnodup.2⟩

/-- Linking the last node but one to another last node. -/
theorem IsList.relink [DecidableEq ν] {p : List ν} {m x y : ν} (hl : IsList next h (p ++ [m, x]))
    (hy : next y = none) (hym : y ≠ m) :
    IsList (Function.update next m (some y)) h (p ++ [m, y]) := by
  have hnodup := hl.nodup
  induction p generalizing h with
  | nil =>
      refine isList_cons.2 ⟨(isList_cons.1 hl).1, ?_⟩
      rw [Function.update_self, isList_cons, Function.update_of_ne hym, hy]
      exact ⟨rfl, isList_nil.2 rfl⟩
  | cons a p ih =>
      rw [List.cons_append, isList_cons] at hl ⊢
      rw [List.cons_append, List.nodup_cons] at hnodup
      have ham : a ≠ m := fun ham => hnodup.1 (ham ▸ by simp)
      rw [Function.update_of_ne ham]
      exact ⟨hl.1, ih hl.2 hnodup.2⟩

/-- Lists that have a node in common end alike. -/
theorem IsList.append_eq {h' : Option ν} {p p' q q' : List ν} {n : ν}
    (hl : IsList next h (p ++ n :: q)) (hl' : IsList next h' (p' ++ n :: q')) : q = q' :=
  hl.of_append.unique hl'.of_append

/-! ### Around the end of a list -/

/-- Following `step` from `h` visits `l` and then meets `stop`. -/
def IsSegment (step : ν → Option ν) (stop : ν) : Option ν → List ν → Prop
  | h, [] => h = some stop
  | h, n :: rest => h = some n ∧ IsSegment step stop (step n) rest

/-- The node after `n`, or the head of the list after its last node. -/
def around (next : ν → Option ν) (h : Option ν) (n : ν) : Option ν := (next n).or h

theorem IsList.isSegment_before {step : ν → Option ν} {p q : List ν} {n : ν}
    (hstep : ∀ m k, next m = some k → step m = some k)
    (hl : IsList next h (p ++ n :: q)) : IsSegment step n h p := by
  induction p generalizing h with
  | nil => exact (isList_cons.1 hl).1
  | cons m rest ih =>
      obtain ⟨hm, hrest⟩ := isList_cons.1 hl
      refine ⟨hm, ?_⟩
      -- The list goes on after `m`, if only to `n`, so `step` follows it.
      have hnext : step m = next m := by
        cases hk : next m with
        | none => rw [hk] at hrest; cases rest <;> simp at hrest
        | some k => exact hstep m k hk
      rw [hnext]
      exact ih hrest

/-- Going around from a node visits what is behind it, what is before it, and
comes back to it. -/
theorem IsList.isSegment_around {p q : List ν} {n : ν} (hl : IsList next h (p ++ n :: q)) :
    IsSegment (around next h) n (around next h n) (q ++ p) := by
  have hbefore : IsSegment (around next h) n h p :=
    hl.isSegment_before fun m k hk => by rw [around, hk, Option.some_or]
  have hbehind : IsList next (next n) q := hl.of_append
  generalize hm : next n = after at hbehind
  rw [around, hm]
  clear hm hl
  induction q generalizing after with
  | nil =>
      rw [isList_nil.1 hbehind, Option.none_or]
      exact hbefore
  | cons m rest ih =>
      obtain ⟨rfl, hrest⟩ := isList_cons.1 hbehind
      exact ⟨rfl, ih _ hrest⟩

/-- Two walks from one node go the same way until the first of them stops. -/
theorem IsSegment.exists_append {step : ν → Option ν} {stop stop' : ν} {l' : List ν}
    (hl : IsSegment step stop h l) (hl' : IsSegment step stop' h l') (hstop : stop ∉ l') :
    ∃ rest, l = l' ++ rest := by
  induction l' generalizing h l with
  | nil => exact ⟨l, rfl⟩
  | cons m l' ih =>
      obtain ⟨rfl, hrest'⟩ := hl'
      rw [List.mem_cons, not_or] at hstop
      cases l with
      | nil => exact absurd (Option.some.inj hl).symm hstop.1
      | cons n l =>
          obtain ⟨hn, hrest⟩ := hl
          cases hn
          obtain ⟨rest, rfl⟩ := ih hrest hrest' hstop.2
          exact ⟨rest, rfl⟩

theorem IsList.head_eq (hl : IsList next h l) : h = l[0]? := by
  cases l with
  | nil => exact isList_nil.1 hl
  | cons n rest => exact (isList_cons.1 hl).1

theorem IsList.next_eq (hl : IsList next h l) {i : Nat} {n : ν} (hn : l[i]? = some n) :
    next n = l[i + 1]? := by
  induction l generalizing h i with
  | nil => simp at hn
  | cons m rest ih =>
      obtain ⟨-, hrest⟩ := isList_cons.1 hl
      cases i with
      | zero =>
          obtain rfl : m = n := by simpa using hn
          exact hrest.head_eq
      | succ i => exact ih hrest (by simpa using hn)

/-- Positions are counted around the end of the list. -/
theorem IsList.around_eq (hl : IsList next h l) {i : Nat} {n : ν} (hn : l[i]? = some n) :
    around next h n = l[(i + 1) % l.length]? := by
  have hi : i < l.length := (List.getElem?_eq_some_iff.mp hn).1
  rw [around, hl.next_eq hn]
  rcases Nat.lt_or_ge (i + 1) l.length with hlt | hge
  · rw [Nat.mod_eq_of_lt hlt, List.getElem?_eq_getElem hlt, Option.some_or]
  · rw [List.getElem?_eq_none hge, Option.none_or, show i + 1 = l.length by omega, Nat.mod_self]
    exact hl.head_eq

theorem IsList.around_mem (hl : IsList next h l) {n : ν} (hn : n ∈ l) :
    ∃ m ∈ l, around next h n = some m := by
  obtain ⟨p, q, rfl⟩ := List.append_of_mem hn
  have hseg := hl.isSegment_around
  cases hqp : q ++ p with
  | nil =>
      rw [hqp] at hseg
      exact ⟨n, hn, hseg⟩
  | cons m rest =>
      rw [hqp] at hseg
      have hm : m ∈ q ++ p := hqp ▸ List.mem_cons_self
      exact ⟨m, by simp only [List.mem_append, List.mem_cons] at hm ⊢; tauto, hseg.1⟩

end Linked
