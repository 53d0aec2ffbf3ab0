import HeliosProxy.Text.Chars

/-!
# The settings of a cycle

The statements of an extended-protocol cycle are read in order, the way PostgreSQL runs
them.  Where the cycle failed, the place of the error is not seen: every place that fits
the response is a scenario, and the scenarios are merged into what they begin with alike
and one operation that stands for the rest.
-/

namespace HeliosProxy.ExtSet

open Text List

inductive TxVerb
  | begin
  | commit
  | rollback
  | commitChain
  | rollbackChain
  | prepare
  | savepoint
  | release
  | rollbackTo
  | unlexable
deriving DecidableEq

inductive Step
  | set (sql : Str)
  | discardAll (sql : Str)
  | tx (verb : TxVerb) (sql : Str)
  | commitPoint
  | untracked
  /-- This many consecutive other statements. -/
  | other (count : Nat)
deriving DecidableEq

inductive SettingsOp
  | apply (sql : Str)
  | defer (sql : Str)
  | savepoint (sql : Str)
  | ended (committed : Option Bool)
  | taint (settings savepoints : Bool)
  | unknown
deriving DecidableEq

/-- What `run` and `agree` read of a boundary; the statuses are `I`, `T` and `E`. -/
structure ExtSetBoundary where
  before : Char
  after : Char
  simple : Bool

/-- What `run` and `agree` read of a cycle. -/
structure ExtSetCycle where
  steps : List Step

/-- Before step `at` ran, or while it ran. -/
structure Failure where
  position : Nat
  ran : Bool
deriving DecidableEq

/-! ## One scenario -/

/-- The variables of `run`. -/
structure RunState where
  isOpen : Bool
  aborted : Bool
  implicit : List Str
  fresh : Bool
  openedAt : Option Nat
  ops : List SettingsOp

namespace RunState

def endBlock (s : RunState) (committed : Bool) : RunState :=
  match s.openedAt, committed with
  | some start, false =>
    { s with
      openedAt := none
      ops := s.ops.take start ++ (s.ops.drop start).filter (· = .unknown) }
  | _, _ => { s with openedAt := none, ops := s.ops ++ [.ended (some committed)] }

/-- A statement that runs, or `none` where it cannot have. -/
def perform (b : ExtSetBoundary) (count : Nat) (s : RunState) : Step → Option RunState
  | .other _ | .commitPoint => some { s with fresh := s.fresh && s.isOpen }
  | .untracked => some { s with ops := s.ops ++ [.unknown], fresh := s.fresh && s.isOpen }
  | .set sql =>
    if s.isOpen then some { s with ops := s.ops ++ [.defer sql] }
    else some { s with implicit := s.implicit ++ [sql], fresh := false }
  | .discardAll sql =>
    if s.isOpen || !s.fresh || (b.simple && 1 < count) then none
    else some { s with ops := s.ops ++ [.apply sql] }
  | .tx verb sql =>
    match verb, s.isOpen with
    | .begin, true => some s
    | .begin, false =>
      some { s with
        isOpen := true
        openedAt := some s.ops.length
        ops := s.ops ++ s.implicit.map .defer
        implicit := [] }
    | .commit, true | .prepare, true =>
      some { s.endBlock (!s.aborted) with isOpen := false, aborted := false, fresh := true }
    | .rollback, true => some { s.endBlock false with isOpen := false, aborted := false, fresh := true }
    | .commit, false | .prepare, false =>
      some { s with ops := s.ops ++ s.implicit.map .apply, implicit := [], fresh := true }
    | .rollback, false => some { s with implicit := [], fresh := true }
    | .commitChain, true =>
      let s := s.endBlock (!s.aborted)
      some { s with openedAt := some s.ops.length, aborted := false }
    | .rollbackChain, true =>
      let s := s.endBlock false
      some { s with openedAt := some s.ops.length, aborted := false }
    | .savepoint, true | .release, true | .rollbackTo, true =>
      some { s with ops := s.ops ++ [.savepoint sql], aborted := false }
    | _, _ => none

end RunState

def Step.runsWhenAborted : Step → Bool
  | .tx .commit _ | .tx .rollback _ | .tx .commitChain _ | .tx .rollbackChain _ | .tx .prepare _
  | .tx .rollbackTo _ => true
  | _ => false

/-- The loop of `run` from step `i`; with the state it is left in, whether it stopped. -/
def runSteps (b : ExtSetBoundary) (fail : Option Failure) (count : Nat) :
    Nat → List Step → RunState → Option (RunState × Bool)
  | _, [], s => some (s, false)
  | i, step :: steps, s =>
    if fail = some ⟨i, false⟩ then some (s, true)
    else
      let failing := decide (fail = some ⟨i, true⟩)
      if s.aborted && !step.runsWhenAborted && !failing then none
      else
        let s := if step = .commitPoint ∧ s.isOpen = false ∧ s.implicit ≠ []
          then { s with implicit := [], ops := s.ops ++ [.unknown] } else s
        if failing then
          match step with
          | .tx .commitChain _ => none
          | .tx .commit _ | .tx .prepare _ =>
            if s.isOpen && !s.aborted then some ({ s.endBlock false with isOpen := false }, false)
            else some (s, true)
          | _ => some (s, true)
        else
          match s.perform b count step with
          | none => none
          | some s => runSteps b fail count (i + 1) steps s

/-- What stands behind the loop of `run`. -/
def settleRun (s : RunState) (stopped : Bool) : RunState :=
  let s := if stopped then (if s.isOpen then { s with aborted := true } else { s with implicit := [] }) else s
  if !s.isOpen then { s with ops := s.ops ++ s.implicit.map .apply, implicit := [] }
  else if s.aborted then
    { s with ops := (s.ops.reverse.dropWhile fun op => match op with | .defer _ => true | _ => false).reverse }
  else s

def RunState.status (s : RunState) : Char := if !s.isOpen then 'I' else if !s.aborted then 'T' else 'E'

namespace ExtSetCycle

def run (c : ExtSetCycle) (b : ExtSetBoundary) (fail : Option Failure) : Option (List SettingsOp) := do
  let isOpen := b.before != 'I'
  let (s, stopped) ← runSteps b fail c.steps.length 0 c.steps ⟨isOpen, b.before == 'E', [], !isOpen, none, []⟩
  let s := settleRun s (stopped || fail == some ⟨c.steps.length, false⟩)
  if s.status = b.after then some s.ops else none

end ExtSetCycle

/-! ## Merging scenarios -/

def SettingsOp.isEnded : SettingsOp → Bool
  | .ended _ => true
  | _ => false

def SettingsOp.escapesTaint : SettingsOp → Bool
  | .ended _ | .apply _ | .unknown => true
  | _ => false

def SettingsOp.touchesSettings : SettingsOp → Bool
  | .defer _ | .taint true _ => true
  | _ => false

def SettingsOp.touchesSavepoints : SettingsOp → Bool
  | .savepoint _ | .taint _ true => true
  | _ => false

def alikeAt (first : List SettingsOp) (outcomes : List (List SettingsOp)) (i : Nat) : Bool :=
  outcomes.all fun o => o[i]? == first[i]?

def commonLength (first : List SettingsOp) (outcomes : List (List SettingsOp)) : Nat :=
  ((List.range first.length).takeWhile (alikeAt first outcomes)).length

def summary (after : Char) (tails : List SettingsOp) : SettingsOp :=
  if tails.all (·.isEnded) then .ended none
  else if after == 'I' || tails.any (·.escapesTaint) then .unknown
  else .taint (tails.any (·.touchesSettings)) (tails.any (·.touchesSavepoints))

def ExtSetCycle.outcomes (c : ExtSetCycle) (b : ExtSetBoundary) (scenarios : List (Option Failure)) :
    List (List SettingsOp) :=
  scenarios.foldl (fun outcomes fail =>
    match c.run b fail with
    | some ops => if ops ∈ outcomes then outcomes else outcomes ++ [ops]
    | none => outcomes) []

def ExtSetCycle.agree (c : ExtSetCycle) (b : ExtSetBoundary) (scenarios : List (Option Failure)) :
    Option (List SettingsOp) :=
  match c.outcomes b scenarios with
  | [] => none
  | [only] => some only
  | first :: rest =>
    let common := commonLength first (first :: rest)
    some (first.take common ++ [summary b.after ((first :: rest).flatMap (·.drop common))])

/-! ## What the merge stands for -/

def SettingsOp.StandsFor (last : SettingsOp) (tail : List SettingsOp) : Prop :=
  last = .unknown ∨
  (last = .ended none ∧ ∀ op ∈ tail, op.isEnded = true) ∨
  ∃ settings savepoints, last = .taint settings savepoints ∧
    (∀ op ∈ tail, op.escapesTaint = false) ∧
    ((∃ op ∈ tail, op.touchesSettings = true) → settings = true) ∧
    ((∃ op ∈ tail, op.touchesSavepoints = true) → savepoints = true)

/-- Nothing of `ops` is lost in `r`. -/
def Covers (r ops : List SettingsOp) : Prop :=
  r = ops ∨ ∃ p last, r = p ++ [last] ∧ p <+: ops ∧ last.StandsFor (ops.drop p.length)

variable {c : ExtSetCycle} {b : ExtSetBoundary} {ops : List SettingsOp}

theorem mem_outcomes_foldl
    (scenarios : List (Option Failure)) (outcomes : List (List SettingsOp)) :
    ops ∈ outcomes ∨ (∃ fail ∈ scenarios, c.run b fail = some ops) →
    ops ∈ scenarios.foldl (fun outcomes fail =>
      match c.run b fail with
      | some ops => if ops ∈ outcomes then outcomes else outcomes ++ [ops]
      | none => outcomes) outcomes := by
  induction scenarios generalizing outcomes with
  | nil =>
    rintro (hm | ⟨_, ⟨⟩, _⟩)
    exact hm
  | cons fail scenarios ih =>
    intro hf
    refine ih _ ?_
    rcases hf with hm | ⟨fail', hm', hr⟩
    · refine .inl ?_
      dsimp only
      split
      · split
        · exact hm
        · exact mem_append_left _ hm
      · exact hm
    · rcases mem_cons.mp hm' with rfl | hm'
      · refine .inl ?_
        dsimp only
        rw [hr]
        dsimp only
        split
        · assumption
        · exact mem_append_right _ (mem_singleton.mpr rfl)
      · exact .inr ⟨fail', hm', hr⟩

theorem mem_outcomes {scenarios : List (Option Failure)} {fail : Option Failure}
    (hm : fail ∈ scenarios) (hr : c.run b fail = some ops) : ops ∈ c.outcomes b scenarios :=
  mem_outcomes_foldl scenarios [] (.inr ⟨fail, hm, hr⟩)

theorem commonLength_le (first : List SettingsOp) (outcomes : List (List SettingsOp)) :
    commonLength first outcomes ≤ first.length := by
  have hs := (takeWhile_sublist (l := List.range first.length) (alikeAt first outcomes)).length_le
  rwa [length_range] at hs

variable {outcomes : List (List SettingsOp)}

theorem getElem?_common {first o : List SettingsOp} (hm : o ∈ outcomes) {i : Nat}
    (hb : i < commonLength first outcomes) : o[i]? = first[i]? := by
  have ht : (List.range first.length).takeWhile (alikeAt first outcomes) =
      (List.range first.length).take (commonLength first outcomes) :=
    prefix_iff_eq_take.mp <| takeWhile_prefix _
  have hh : i ∈ (List.range first.length).takeWhile (alikeAt first outcomes) := by
    have hle := commonLength_le first outcomes
    rw [ht, take_range, mem_range]
    omega
  have ha : alikeAt first outcomes i := mem_takeWhile_imp hh
  exact beq_iff_eq.mp (List.all_eq_true.mp ha o hm)

theorem take_common_prefix {first o : List SettingsOp} (hm : o ∈ outcomes) :
    first.take (commonLength first outcomes) <+: o := by
  have hs : first.take (commonLength first outcomes) = o.take (commonLength first outcomes) := by
    refine ext_getElem? fun i => ?_
    rw [getElem?_take, getElem?_take]
    split
    · next hb => rw [getElem?_common hm hb]
    · rfl
  rw [hs]
  exact take_prefix _ _

theorem summary_standsFor {after : Char} {tails tail : List SettingsOp} (hsub : tail ⊆ tails) :
    (summary after tails).StandsFor tail := by
  unfold summary
  split
  · next he => exact .inr (.inl ⟨rfl, fun op hm => List.all_eq_true.mp he op (hsub hm)⟩)
  · split
    · exact .inl rfl
    · next hta =>
      rw [Bool.or_eq_true, not_or] at hta
      refine .inr (.inr ⟨_, _, rfl, fun op hm => ?_, fun ⟨op, hm, ht⟩ => ?_, fun ⟨op, hm, ht⟩ => ?_⟩)
      · have hc := hta.2
        rw [Bool.not_eq_true, List.any_eq_false] at hc
        exact Bool.eq_false_iff.mpr (hc op (hsub hm))
      · exact List.any_eq_true.mpr ⟨op, hsub hm, ht⟩
      · exact List.any_eq_true.mpr ⟨op, hsub hm, ht⟩

/-- Merging scenarios loses nothing of any of them. -/
theorem agree_covers (c : ExtSetCycle) (b : ExtSetBoundary) (scenarios : List (Option Failure))
    {r : List SettingsOp} (hagreed : c.agree b scenarios = some r) {fail : Option Failure} (hmem : fail ∈ scenarios)
    {ops : List SettingsOp} (hran : c.run b fail = some ops) : Covers r ops := by
  have hfound := mem_outcomes hmem hran
  unfold ExtSetCycle.agree at hagreed
  split at hagreed
  case h_1 => cases hagreed
  case h_2 only hone =>
    cases hagreed
    rw [hone] at hfound
    exact .inl (mem_singleton.mp hfound).symm
  case h_3 first rest _ hmany =>
    rw [hmany] at hfound
    cases hagreed
    have hle := commonLength_le first (first :: rest)
    refine .inr ⟨_, _, rfl, take_common_prefix hfound, summary_standsFor fun op htail => ?_⟩
    rw [length_take, Nat.min_eq_left hle] at htail
    exact mem_flatMap.mpr ⟨ops, hfound, htail⟩

/-- `SET a; SAVEPOINT s; SET b` in an open block. -/
def savepointCycle : ExtSetCycle :=
  ⟨[.set "SET a", .tx .savepoint "SAVEPOINT s", .set "SET b"]⟩

/-- Whether it failed in front of the savepoint or behind it does not show. -/
theorem agree_covers_savepoint :
    savepointCycle.agree ⟨'T', 'E', false⟩ [some ⟨1, true⟩, some ⟨2, true⟩] =
        some [.taint true true] ∧
      Covers [.taint true true] [.defer "SET a", .savepoint "SAVEPOINT s"] := by
  have hagreed : savepointCycle.agree ⟨'T', 'E', false⟩
      [some ⟨1, true⟩, some ⟨2, true⟩] = some [.taint true true] := by decide
  exact ⟨hagreed, agree_covers _ _ _ hagreed (mem_cons_of_mem _ mem_cons_self) (by decide)⟩

end HeliosProxy.ExtSet
