import Mathlib

/-!
# The extended query protocol

What a backend holds for a session: its prepared statements and its portals.
A batch is answered message by message up to the first one that is rejected;
the rest is skipped up to the `Sync`.
-/

namespace HeliosProxy.Postgres

open Function

/-- The messages of a batch, with definitions `D` and bound values `B`. -/
inductive Message (N D B : Type)
  | parse (name : N) (definition : D)
  | bind (portal name : N) (values : B)
  | execute (portal : N)
  | describe (name : N)
  | describePortal (portal : N)
  | closeStatement (name : N)
  | closePortal (portal : N)

/-- What a message does to the statement of a name, if anything.  Only the unnamed
statement is touched by a `Parse` that fails, which destroys it. -/
def Message.touch {N D B : Type} [DecidableEq N] (unnamed name : N) :
    Message N D B → Bool → Option (Option D)
  | .parse n d, true => if n = name then some (some d) else none
  | .parse n _, false => if n = name ∧ name = unnamed then some none else none
  | .closeStatement n, true => if n = name then some none else none
  | _, _ => none

/-- A portal keeps the definition that was current at its `Bind`. -/
structure BoundPortal (D : Type) where
  definition : D
  ran : Bool

structure Backend (N D : Type) where
  statements : N → Option D
  portals : N → Option (BoundPortal D)

namespace Backend

variable {N D B : Type}

def empty : Backend N D := ⟨fun _ => none, fun _ => none⟩

def lose (b : Backend N D) (lost : N → Bool) : Backend N D :=
  { b with portals := fun p => if lost p then none else b.portals p }

/-- `b` holds nothing that `c` does not hold. -/
structure Within (b c : Backend N D) : Prop where
  statements : ∀ n d, b.statements n = some d → c.statements n = some d
  portals : ∀ p q, b.portals p = some q → c.portals p = some q

variable {b c : Backend N D} {m : Message N D B}

theorem Within.refl (b : Backend N D) : b.Within b := ⟨fun _ _ h => h, fun _ _ h => h⟩

theorem Within.trans {d : Backend N D} (h : b.Within c) (h' : c.Within d) : b.Within d :=
  ⟨fun n x hx => h'.statements n x (h.statements n x hx),
    fun p q hq => h'.portals p q (h.portals p q hq)⟩

theorem lose_within (b : Backend N D) (lost : N → Bool) : (b.lose lost).Within b := by
  refine ⟨fun _ _ h => h, fun p q h => ?_⟩
  simp only [lose] at h
  split at h
  · cases h
  · exact h

variable [DecidableEq N] (unnamed : N)

/-- The effect of a message that is accepted, if it can be: a name in use takes
no second `Parse`, and what a message names must exist. -/
def accept (b : Backend N D) : Message N D B → Option (Backend N D)
  | .parse name d =>
    if name ≠ unnamed ∧ (b.statements name).isSome then none
    else some { b with statements := update b.statements name (some d) }
  | .bind portal name _ =>
    (b.statements name).map fun d =>
      { b with portals := update b.portals portal (some ⟨d, false⟩) }
  | .execute portal =>
    (b.portals portal).map fun p =>
      { b with portals := update b.portals portal (some { p with ran := true }) }
  | .describe name => (b.statements name).map fun _ => b
  | .describePortal portal => (b.portals portal).map fun _ => b
  | .closeStatement name => some { b with statements := update b.statements name none }
  | .closePortal portal => some { b with portals := update b.portals portal none }

/-- The effect of one that is rejected: an unnamed `Parse` has destroyed the
unnamed statement by then.  A `Close` is never rejected. -/
def reject (b : Backend N D) : Message N D B → Option (Backend N D)
  | .parse name _ =>
    some (if name = unnamed then
      { b with statements := update b.statements unnamed none } else b)
  | .closeStatement _ | .closePortal _ => none
  | .bind .. | .execute _ | .describe _ | .describePortal _ => some b

theorem reject_within (h : b.reject unnamed m = some c) : c.Within b := by
  cases m with
  | parse name d =>
    cases h
    split
    · refine ⟨fun n d hd => ?_, fun _ _ h => h⟩
      by_cases hn : n = unnamed
      · simp [hn] at hd
      · simpa [hn] using hd
    · exact .refl b
  | bind _ _ _ | execute _ | describe _ | describePortal _ =>
    cases h
    exact .refl b
  | closeStatement _ | closePortal _ => cases h

theorem accept_statements (h : b.accept unnamed m = some c) (n : N) :
    c.statements n = (m.touch unnamed n true).getD (b.statements n) := by
  cases m with
  | parse name d =>
    obtain ⟨-, ⟨⟩⟩ := Option.ite_none_left_eq_some.mp h
    by_cases hn : name = n
    · simp [Message.touch, hn]
    · simp [Message.touch, hn, Ne.symm hn]
  | bind _ name _ | execute name | describe name | describePortal name =>
    obtain ⟨d, -, rfl⟩ := Option.map_eq_some_iff.mp h
    rfl
  | closeStatement name =>
    cases h
    by_cases hn : name = n
    · simp [Message.touch, hn]
    · simp [Message.touch, hn, Ne.symm hn]
  | closePortal portal =>
    cases h
    rfl

theorem reject_statements (h : b.reject unnamed m = some c) (n : N) :
    c.statements n = (m.touch unnamed n false).getD (b.statements n) := by
  cases m with
  | parse name d =>
    cases h
    by_cases hname : name = unnamed
    · by_cases hn : n = unnamed
      · simp [Message.touch, hname, hn]
      · simp [Message.touch, hname, hn]
    · have : ¬ (name = n ∧ n = unnamed) := fun h => hname (h.1.trans h.2)
      simp [Message.touch, hname, this]
  | bind _ _ _ | execute _ | describe _ | describePortal _ =>
    cases h
    rfl
  | closeStatement _ | closePortal _ => cases h

/-- Only an `Execute` makes a portal run. -/
theorem accept_ran (h : b.accept unnamed m = some c) (hexec : ∀ portal, m ≠ .execute portal) {p : N}
    {q : BoundPortal D} (hq : c.portals p = some q) (hran : q.ran) : b.portals p = some q := by
  cases m with
  | parse name d =>
    obtain ⟨-, ⟨⟩⟩ := Option.ite_none_left_eq_some.mp h
    exact hq
  | bind portal name values =>
    obtain ⟨d, -, rfl⟩ := Option.map_eq_some_iff.mp h
    by_cases hp : p = portal
    · simp only [hp, update_self, Option.some.injEq] at hq
      rw [← hq] at hran
      cases hran
    · simpa [hp] using hq
  | execute portal => exact absurd rfl (hexec portal)
  | describe name | describePortal name =>
    obtain ⟨d, -, rfl⟩ := Option.map_eq_some_iff.mp h
    exact hq
  | closeStatement name =>
    cases h
    exact hq
  | closePortal portal =>
    cases h
    by_cases hp : p = portal
    · simp [hp] at hq
    · simpa [hp] using hq

end Backend

end HeliosProxy.Postgres
