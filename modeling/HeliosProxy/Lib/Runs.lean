import Mathlib

/-!
# Runs of a partial step function

A system is given by a step function that may refuse an action.  A run is a
list of actions taken one after another.  The rules of this file carry a
property of single steps to whole runs, so that a proof about a system never
does that induction itself.

A system of parties is a function from their names to their states, and one of them
moves at a time.  An amount that each party holds is summed over all of them; a move of
one party changes the total by what it changes of its own amount.
-/

namespace HeliosProxy.Runs

variable {σ ι : Type*} {step : σ → ι → Option σ}

def run (step : σ → ι → Option σ) : σ → List ι → Option σ
  | s, [] => some s
  | s, a :: as => (step s a).bind fun s' => run step s' as

@[simp] theorem run_nil (s : σ) : run step s [] = some s := rfl

theorem run_cons (s : σ) (a : ι) (as : List ι) :
    run step s (a :: as) = (step s a).bind fun s' => run step s' as := rfl

variable {s s' : σ} {as : List ι}

theorem run_cons_eq_some {a : ι} :
    run step s (a :: as) = some s' ↔ ∃ m, step s a = some m ∧ run step m as = some s' := by
  rw [run_cons, Option.bind_eq_some_iff]

variable {P : σ → Prop}

theorem run_invariant (hp : ∀ s a s', P s → step s a = some s' → P s')
    (hs : P s) (hr : run step s as = some s') : P s' := by
  induction as generalizing s with
  | nil =>
    cases hr
    exact hs
  | cons a as ih =>
    obtain ⟨m, hstep, hrun⟩ := run_cons_eq_some.mp hr
    exact ih (hp s a m hs hstep) hrun

/-- Every action of the run meets `C` in the state it is taken in. -/
def Along (step : σ → ι → Option σ) (C : σ → ι → Prop) : σ → List ι → Prop
  | _, [] => True
  | s, a :: as => C s a ∧ ∀ s', step s a = some s' → Along step C s' as

theorem Along.cons {a : ι} (hc : C s a) (hs : step s a = some s') (ha : Along step C s' as) :
    Along step C s (a :: as) := by
  refine ⟨hc, fun m hm => ?_⟩
  cases hs.symm.trans hm
  exact ha

instance Along.decidable {C : σ → ι → Prop} [∀ s a, Decidable (C s a)] :
    ∀ s as, Decidable (Along step C s as)
  | _, [] => isTrue trivial
  | s, a :: as =>
    match h : step s a with
    | none => decidable_of_iff (C s a) ⟨fun hc => ⟨hc, fun _ hs => by simp [h] at hs⟩, And.left⟩
    | some m =>
      have := Along.decidable (C := C) m as
      decidable_of_iff (C s a ∧ Along step C m as)
        ⟨fun ⟨hc, hm⟩ => ⟨hc, fun _ hs => by cases h.symm.trans hs; exact hm⟩,
          fun ⟨hc, hm⟩ => ⟨hc, hm m h⟩⟩

variable {C : σ → ι → Prop}

theorem along_of_invariant {I : σ → Prop}
    (hp : ∀ s a s', I s → step s a = some s' → I s') (hi : ∀ s a, I s → C s a)
    (hs : I s) (as : List ι) : Along step C s as := by
  induction as generalizing s with
  | nil => trivial
  | cons a as ih => exact ⟨hi s a hs, fun s' hs' => ih (hp s a s' hs hs')⟩

theorem along_append_right {m : σ} {bs : List ι}
    (h : Along step C s (as ++ bs)) (hr : run step s as = some m) : Along step C m bs := by
  induction as generalizing s with
  | nil =>
    cases hr
    exact h
  | cons a as ih =>
    obtain ⟨s', hstep, hrun⟩ := run_cons_eq_some.mp hr
    exact ih (h.2 s' hstep) hrun

theorem run_append {m : σ} {bs : List ι} (hr : run step s as = some m) :
    run step s (as ++ bs) = run step m bs := by
  induction as generalizing s with
  | nil =>
    cases hr
    rfl
  | cons a as ih =>
    obtain ⟨s', hstep, hrun⟩ := run_cons_eq_some.mp hr
    rw [List.cons_append, run_cons, hstep, Option.bind_some, ih hrun]

theorem run_invariant_along (hp : ∀ s a s', P s → C s a → step s a = some s' → P s')
    (hs : P s) (ha : Along step C s as) (hr : run step s as = some s') : P s' := by
  induction as generalizing s with
  | nil =>
    cases hr
    exact hs
  | cons a as ih =>
    obtain ⟨m, hstep, hrun⟩ := run_cons_eq_some.mp hr
    exact ih (hp s a m hs ha.1 hstep) (ha.2 m hstep) hrun

/-- Where one step keeps `P` exactly if it meets `C`, a run keeps `P` all the way
exactly if all its steps meet `C`. -/
theorem forall_take_iff_along {I : σ → Prop} (hp : ∀ s a s', I s → step s a = some s' → I s')
    (he : ∀ s a s', I s → P s → step s a = some s' → (P s' ↔ C s a)) {e : σ}
    (hi : I s) (hs : P s) (hr : run step s as = some e) :
    (∀ k s', run step s (as.take k) = some s' → P s') ↔ Along step C s as := by
  induction as generalizing s with
  | nil =>
    refine ⟨fun _ => trivial, fun _ k s' hrun => ?_⟩
    rw [List.take_nil] at hrun
    cases hrun
    exact hs
  | cons a as ih =>
    obtain ⟨m, hstep, hrun⟩ := run_cons_eq_some.mp hr
    have hfirst := he s a m hi hs hstep
    have htail := fun hm => ih (hp s a m hi hstep) hm hrun
    constructor
    · intro hall
      have hm : P m := hall 1 m (run_cons_eq_some.mpr ⟨m, hstep, rfl⟩)
      refine ⟨hfirst.mp hm, fun s' hs' => ?_⟩
      cases hstep.symm.trans hs'
      exact (htail hm).mp fun k s' hk => hall (k + 1) s' (run_cons_eq_some.mpr ⟨m, hstep, hk⟩)
    · rintro ⟨hc, hrest⟩ k s' hk
      have hm := hfirst.mpr hc
      cases k with
      | zero =>
        cases hk
        exact hs
      | succ k =>
        obtain ⟨m', hstep', hk⟩ := run_cons_eq_some.mp hk
        cases hstep.symm.trans hstep'
        exact (htail hm).mpr (hrest m hstep) k s' hk

end HeliosProxy.Runs

namespace HeliosProxy.Parties

open Function

variable {ι σ : Type*} [Fintype ι]

def total (held : σ → Nat) (p : ι → σ) : Nat := ∑ i, held (p i)

variable (held : σ → Nat) (p : ι → σ)

theorem held_le_total (i : ι) : held (p i) ≤ total held p :=
  Finset.single_le_sum (f := fun i => held (p i)) (fun _ _ => Nat.zero_le _) (Finset.mem_univ i)

theorem add_held_le_total {i j : ι} (hd : i ≠ j) : held (p i) + held (p j) ≤ total held p :=
  Finset.add_le_sum (f := fun i => held (p i)) (fun _ _ => Nat.zero_le _) (Finset.mem_univ i)
    (Finset.mem_univ j) hd

theorem total_update [DecidableEq ι] (i : ι) (x : σ) :
    total held (update p i x) + held (p i) = total held p + held x := by
  have hm : (fun j => held (update p i x j)) =
      update (fun j => held (p j)) i (held x) := by
    funext j
    by_cases hs : j = i
    · subst hs
      simp
    · simp [hs]
  have hr := Finset.add_sum_erase Finset.univ (fun j => held (p j)) (Finset.mem_univ i)
  unfold total
  rw [hm, Finset.sum_update_of_mem (Finset.mem_univ i), Finset.sdiff_singleton_eq_erase]
  omega

theorem total_le_total {held held' : σ → Nat} (hle : ∀ x, held x ≤ held' x) :
    total held p ≤ total held' p :=
  Finset.sum_le_sum fun i _ => hle (p i)

theorem total_eq_zero {held : σ → Nat} {p : ι → σ} (hn : ∀ i, held (p i) = 0) : total held p = 0 :=
  Finset.sum_eq_zero fun i _ => hn i

end HeliosProxy.Parties
