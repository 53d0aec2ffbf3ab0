import Mathlib

/-!
# Write generations of the query cache

The query cache keeps one counter per table it has seen written
(`table_generations`) and one counter for writes of unknown scope
(`global_generation`).  A result carries the sum of the counters of its tables
from before it was fetched, and is served only while that sum is unchanged.
The counters are 64-bit and the sum wraps.
-/

namespace HeliosProxy.Cache

/-- `u64` arithmetic wraps here. -/
def word : Nat := 2 ^ 64

/-- `global_generation` and `table_generations`; a table never written has no
entry. -/
structure Generations (T : Type) where
  globalGeneration : Nat
  tableGenerations : T → Option Nat

/-- A cached result: the rows, the tables they were read from and the
generation of these tables. -/
structure CachedResult (T D : Type) where
  data : D
  tables : List T
  generation : Nat
deriving DecidableEq

namespace Generations

variable {T D : Type}

def init : Generations T := ⟨0, fun _ => none⟩

def counter (g : Generations T) : Option T → Nat
  | none => g.globalGeneration
  | some t => (g.tableGenerations t).getD 0

def bump [DecidableEq T] (g : Generations T) (t : T) : Generations T :=
  { g with tableGenerations :=
      Function.update g.tableGenerations t (some ((g.tableGenerations t).getD 0 + 1)) }

/-- `QueryCache::mark_written`, with nothing else running. -/
def markWritten [DecidableEq T] (g : Generations T) (tables : List T) : Generations T :=
  tables.foldl bump g

def invalidateAll (g : Generations T) : Generations T :=
  { g with globalGeneration := g.globalGeneration + 1 }

/-- A write, by what `write_tables` says of it: an unknown scope invalidates
everything. -/
def noteWrite [DecidableEq T] (g : Generations T) : Option (List T) → Generations T
  | none => g.invalidateAll
  | some tables => g.markWritten tables

/-- `QueryCache::generation_of`, with nothing else running. -/
def generationOf (g : Generations T) (tables : List T) : Nat :=
  tables.foldl (fun sum t => (sum + g.counter (some t)) % word) (g.globalGeneration % word)

/-- `QueryCache::is_current`, with nothing else running. -/
def isCurrent (g : Generations T) (r : CachedResult T D) : Bool :=
  r.generation == g.generationOf r.tables

@[simp] theorem counter_init (k : Option T) : (init : Generations T).counter k = 0 := by
  cases k <;> rfl

variable (g : Generations T)

@[simp] theorem counter_bump [DecidableEq T] (t : T) (k : Option T) :
    (g.bump t).counter k = if some t = k then g.counter k + 1 else g.counter k := by
  cases k with
  | none => rfl
  | some u =>
    by_cases h : t = u
    · subst h
      simp [counter, bump]
    · simp [counter, bump, h, Function.update_of_ne (Ne.symm h)]

@[simp] theorem counter_invalidateAll (k : Option T) :
    g.invalidateAll.counter k = if none = k then g.counter k + 1 else g.counter k := by
  cases k <;> rfl

variable (tables : List T)

theorem counter_markWritten [DecidableEq T] (t : T) :
    (g.markWritten tables).counter (some t) = g.counter (some t) + tables.count t := by
  unfold markWritten
  induction tables generalizing g with
  | nil => rfl
  | cons u tables ih =>
    rw [List.foldl_cons, ih, counter_bump, List.count_cons]
    by_cases h : u = t
    · simp only [h, if_true, beq_self_eq_true]
      omega
    · simp [h]

@[simp] theorem globalGeneration_markWritten [DecidableEq T] :
    (g.markWritten tables).globalGeneration = g.globalGeneration := by
  unfold markWritten
  induction tables generalizing g with
  | nil => rfl
  | cons u tables ih => exact ih (g.bump u)

theorem generationOf_eq : g.generationOf tables =
      (g.globalGeneration + (tables.map fun t => g.counter (some t)).sum) % word := by
  suffices h : ∀ sum, tables.foldl (fun sum t => (sum + g.counter (some t)) % word) (sum % word) =
      (sum + (tables.map fun t => g.counter (some t)).sum) % word from h _
  induction tables with
  | nil => intro sum; simp
  | cons t tables ih =>
    intro sum
    have hstep : (sum % word + g.counter (some t)) % word = (sum + g.counter (some t)) % word := by
      rw [Nat.mod_add_mod]
    rw [List.foldl_cons, hstep, ih, List.map_cons, List.sum_cons, Nat.add_assoc]

end Generations

end HeliosProxy.Cache
