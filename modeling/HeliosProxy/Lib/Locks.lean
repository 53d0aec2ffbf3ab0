import Mathlib

/-!
# Threads with reader-writer locks

A thread is what it holds and what it does next.  It waits for another one that holds
its next lock in a conflicting mode.  A deadlock is a set of threads each of which
waits for another one of the set.
-/

namespace HeliosProxy.Locks

inductive Mode
  | shared
  | exclusive
deriving DecidableEq

def Mode.conflicts : Mode → Mode → Bool
  | .shared, .shared => false
  | _, _ => true

inductive Op (L : Type*)
  | acquire (l : L) (m : Mode)
  | release (l : L)
deriving DecidableEq

structure Thread (L : Type*) where
  held : List (L × Mode)
  todo : List (Op L)

variable {L : Type*}

namespace Thread

def Blocks (t : Thread L) (l : L) (m : Mode) : Prop :=
  ∃ p ∈ t.held, p.1 = l ∧ m.conflicts p.2 = true

instance [DecidableEq L] (t : Thread L) (l : L) (m : Mode) : Decidable (t.Blocks l m) :=
  inferInstanceAs (Decidable (∃ p ∈ t.held, p.1 = l ∧ m.conflicts p.2 = true))

/-- The next lock of `t` is held by `u`. -/
def WaitsFor (t u : Thread L) : Prop := ∃ l m todo, t.todo = .acquire l m :: todo ∧ u.Blocks l m

end Thread

def Op.after [DecidableEq L] (held : List (L × Mode)) : Op L → List (L × Mode)
  | .acquire l m => (l, m) :: held
  | .release l => held.eraseP (·.1 = l)

/-- The `i`th thread does what it does next, if no thread blocks it. -/
def advance [DecidableEq L] (ts : List (Thread L)) (i : Nat) : Option (List (Thread L)) :=
  match ts[i]? with
  | some ⟨held, .acquire l m :: todo⟩ =>
    if ∀ t ∈ ts, ¬ t.Blocks l m then some (ts.set i ⟨(l, m) :: held, todo⟩) else none
  | some ⟨held, .release l :: todo⟩ => some (ts.set i ⟨held.eraseP (·.1 = l), todo⟩)
  | _ => none

def Deadlocked (ts : List (Thread L)) : Prop :=
  ∃ D : Set Nat, D.Nonempty ∧ ∀ i ∈ D, ∃ j ∈ D, j ≠ i ∧
    ∃ t u, ts[i]? = some t ∧ ts[j]? = some u ∧ t.WaitsFor u

theorem advance_eq_some [DecidableEq L] {ts ts' : List (Thread L)} {i : Nat}
    (h : advance ts i = some ts') :
    (∃ held l m todo, ts[i]? = some ⟨held, .acquire l m :: todo⟩ ∧ (∀ t ∈ ts, ¬ t.Blocks l m) ∧
        ts' = ts.set i ⟨(l, m) :: held, todo⟩) ∨
      ∃ held l todo, ts[i]? = some ⟨held, .release l :: todo⟩ ∧
        ts' = ts.set i ⟨held.eraseP (·.1 = l), todo⟩ := by
  unfold advance at h
  split at h
  next held l m todo hi =>
    obtain ⟨hfree, ⟨⟩⟩ := Option.ite_none_right_eq_some.mp h
    exact .inl ⟨held, l, m, todo, hi, hfree, rfl⟩
  next held l todo hi =>
    cases h
    exact .inr ⟨held, l, todo, hi, rfl⟩
  next => cases h

theorem deadlocked_of_pair {ts : List (Thread L)} {i j : Nat} {t u : Thread L} (hne : i ≠ j)
    (hi : ts[i]? = some t) (hj : ts[j]? = some u) (htu : t.WaitsFor u) (hut : u.WaitsFor t) :
    Deadlocked ts := by
  refine ⟨{i, j}, ⟨i, .inl rfl⟩, ?_⟩
  rintro k (rfl | rfl)
  · exact ⟨j, .inr rfl, hne.symm, t, u, hi, hj, htu⟩
  · exact ⟨i, .inl rfl, hne, u, t, hj, hi, hut⟩

end HeliosProxy.Locks
