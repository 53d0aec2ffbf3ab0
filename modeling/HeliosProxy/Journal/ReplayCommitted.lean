import HeliosProxy.Journal.TransactionJournal
import HeliosProxy.Lib.Lists
import HeliosProxy.Lib.Runs

/-!
# Replay of committed history

`replay_committed` applies the transactions of a window to a target, each between a
`BEGIN` and a `COMMIT` of its own, and stops at the first failure.  A later run goes on
behind the last commit the run before reported.

A run that commits nothing reports 0, whatever the target holds, so that the next one
starts over.  The target stays in step with what is reported exactly as long as each
run either starts at 0 or commits its first transaction.
-/

namespace HeliosProxy.Journal

open Text List Option

abbrev DateTime := Nat

structure CommittedTx extends TransactionJournalEntry where
  committedAt : Option DateTime
deriving DecidableEq

namespace CommittedTx

def seq (tx : CommittedTx) : Nat := tx.commitSeq.getD 0

end CommittedTx

def committedInWindow (txs : List CommittedTx) (start stop : DateTime) : List CommittedTx :=
  txs.filter fun t => t.committedAt.any fun c => start ≤ c && c ≤ stop

structure CommittedHistoryRequest where
  start : DateTime
  stop : DateTime
  afterCommitSeq : Nat
  targetHost : Str
  targetPort : UInt16
deriving DecidableEq

structure ReplayStop where
  txId : Nat
  commitSeq : Nat
  sequence : Nat
  error : Str
deriving DecidableEq

/-- `CommittedReplaySummary`, without the time it took. -/
structure CommittedReplaySummary where
  transactionsReplayed : Nat
  statementsReplayed : Nat
  transactionsSelected : Nat
  lastCommitSeq : Nat
  isPartial : Bool
  deadlineExceeded : Bool
  stoppedAt : Option ReplayStop
  start : DateTime
  stop : DateTime
deriving DecidableEq

/-- The answer to a step: what it brings, an error, or the deadline. -/
inductive StepAnswer (α : Type)
  | ok (a : α)
  | failed (error : Str)
  | spent

/-- The text of `ProxyError::ReplayFailed`. -/
def replayFailed (reason : Str) : Str := "Transaction replay failed: " ++ reason

def StepAnswer.bounded {α : Type} : StepAnswer α → Except Str α
  | .ok a => .ok a
  | .failed error => .error (replayFailed error)
  | .spent => .error (replayFailed "replay deadline exceeded")

/-- The answers in the course of one transaction.  `spent` is the deadline in front of
its `BEGIN`; the answer to `COMMIT` is a command tag. -/
structure TxAnswers where
  spent : Bool
  begins : StepAnswer Unit
  executes : Nat → StepAnswer Unit
  commits : StepAnswer Str

inductive Connect
  | spentBefore
  | spentWhile
  | refused (error : Str)
  | connected

/-- What one run meets: the connect, and the answers for each selected transaction. -/
structure RunAnswers where
  connect : Connect
  answers : Nat → TxAnswers

/-- What the target has committed, and the transaction open on the connection. -/
structure Target where
  committed : List (List JournalEntry)
  inTx : Option (List JournalEntry)
deriving DecidableEq

namespace Target

def begin (t : Target) : Target := { t with inTx := some [] }

def execute (t : Target) (e : JournalEntry) : Target := { t with inTx := t.inTx.map (· ++ [e]) }

def commit (t : Target) : Target := ⟨t.committed ++ t.inTx.toList, none⟩

def rollback (t : Target) : Target := { t with inTx := none }

end Target

namespace CommittedReplaySummary

def halt (s : CommittedReplaySummary) (tx : CommittedTx) (sequence : Nat) (error : Str) :
    CommittedReplaySummary :=
  { s with isPartial := true, stoppedAt := some ⟨tx.txId, tx.seq, sequence, error⟩ }

def spend (s : CommittedReplaySummary) : CommittedReplaySummary :=
  { s with deadlineExceeded := true }

def spendIf (s : CommittedReplaySummary) (error : Str) : CommittedReplaySummary :=
  { s with deadlineExceeded := s.deadlineExceeded || containsSub "replay deadline" error }

end CommittedReplaySummary

/-- The statements of a transaction; `false` where one fails. -/
def replayEntries (tx : CommittedTx) (executes : Nat → StepAnswer Unit) :
    Nat → List JournalEntry → CommittedReplaySummary → Target →
      Bool × CommittedReplaySummary × Target
  | _, [], s, t => (true, s, t)
  | k, e :: es, s, t =>
    match (executes k).bounded with
    | .ok () =>
      replayEntries tx executes (k + 1) es { s with statementsReplayed := s.statementsReplayed + 1 }
        (t.execute e)
    | .error error => (false, (s.spendIf error).halt tx e.sequence error, t.rollback)

/-- One transaction; `false` where the run stops. -/
def replayTx (tx : CommittedTx) (a : TxAnswers) (s : CommittedReplaySummary) (t : Target) :
    Bool × CommittedReplaySummary × Target :=
  match tx.incompleteReason with
  | some reason =>
    (false, s.halt tx 0 ("transaction was not fully captured (" ++ reason ++
      "); refusing to apply it partially"), t)
  | none =>
    if a.spent then (false, s.spend.halt tx 0 "replay deadline exceeded", t)
    else
      match a.begins.bounded with
      | .error error => (false, s.halt tx 0 ("BEGIN: " ++ error), t)
      | .ok () =>
        match replayEntries tx a.executes 0 tx.entries s t.begin with
        | (false, s, t) => (false, s, t)
        | (true, s, t) =>
          match a.commits.bounded with
          | .ok tag =>
            if eqIgnoreCase tag "COMMIT" then
              (true, { s with transactionsReplayed := s.transactionsReplayed + 1, lastCommitSeq := tx.seq },
                t.commit)
            else
              -- the debug form of a tag, which has nothing to escape
              (false, s.halt tx tx.currentSequence
              ("COMMIT answered \"" ++ tag ++ "\""), t.rollback)
          | .error error =>
            (false, (s.spendIf error).halt tx tx.currentSequence ("COMMIT: " ++ error), t.rollback)

/-- The loop over the selected transactions, of which the first is the `i`th. -/
def replayTxs (answers : Nat → TxAnswers) :
    Nat → List CommittedTx → CommittedReplaySummary → Target → CommittedReplaySummary × Target
  | _, [], s, t => (s, t)
  | i, tx :: txs, s, t =>
    match replayTx tx (answers i) s t with
    | (true, s, t) => replayTxs answers (i + 1) txs s t
    | (false, s, t) => (s, t)

def CommittedHistoryRequest.selected (req : CommittedHistoryRequest) (txs : List CommittedTx) :
    List CommittedTx :=
  (committedInWindow txs req.start req.stop).filter fun t => req.afterCommitSeq < t.seq

def CommittedHistoryRequest.summary (req : CommittedHistoryRequest) (selected : List CommittedTx) :
    CommittedReplaySummary where
  transactionsReplayed := 0
  statementsReplayed := 0
  transactionsSelected := selected.length
  lastCommitSeq := 0
  isPartial := false
  deadlineExceeded := false
  stoppedAt := none
  start := req.start
  stop := req.stop

def CommittedHistoryRequest.refusal (req : CommittedHistoryRequest) : Option Str :=
  if req.stop < req.start then some "Internal error: replay window: from > to"
  else if (trim req.targetHost).isEmpty || req.targetPort == 0 then
    some (replayFailed "target host and port are required for an operator replay")
  else none

def replayCommitted (txs : List CommittedTx) (req : CommittedHistoryRequest) (r : RunAnswers)
    (t : Target) : Except Str CommittedReplaySummary × Target :=
  match req.refusal with
  | some error => (.error error, t)
  | none =>
    let selected := req.selected txs
    let summary := req.summary selected
    match selected with
    | [] => (.ok summary, t)
    | first :: _ =>
      match r.connect with
      | .spentBefore =>
        (.ok (summary.spend.halt first 0 "replay deadline exceeded before connecting"), t)
      | .spentWhile =>
        (.ok (summary.spend.halt first 0 "replay deadline exceeded while connecting"), t)
      | .refused error => (.error (replayFailed ("connect to target: " ++ error)), t)
      | .connected =>
        let (summary, t) := replayTxs r.answers 0 selected summary t
        (.ok summary, t)

/-! ## One run -/

def StepAnswer.isOk {α : Type} : StepAnswer α → Bool
  | .ok _ => true
  | _ => false

def TxAnswers.applies (a : TxAnswers) (tx : CommittedTx) : Bool :=
  tx.incompleteReason.isNone && !a.spent && a.begins.isOk &&
    (List.range' 0 tx.entries.length).all (fun k => (a.executes k).isOk) &&
      match a.commits with
      | .ok tag => eqIgnoreCase tag "COMMIT"
      | _ => false

variable {a : StepAnswer Unit}

theorem StepAnswer.bounded_eq_ok (h : a.isOk) : a.bounded = .ok () := by
  cases a with
  | ok u => rfl
  | failed error | spent => cases h

theorem StepAnswer.bounded_eq_error (h : a.isOk = false) : ∃ error, a.bounded = .error error := by
  cases a with
  | ok u => cases h
  | failed error | spent => exact ⟨_, rfl⟩

section specs

variable (tx : CommittedTx) {executes : Nat → StepAnswer Unit} {k : Nat} {es : List JournalEntry}

theorem replayEntries_of_ok
    (h : (List.range' k es.length).all (fun j => (executes j).isOk)) (s : CommittedReplaySummary)
    (t : Target) :
    replayEntries tx executes k es s t =
      (true, { s with statementsReplayed := s.statementsReplayed + es.length },
        { t with inTx := t.inTx.map (· ++ es) }) := by
  induction es generalizing k s t with
  | nil => simp [replayEntries]
  | cons e es ih =>
    rw [length_cons, range'_succ, all_cons, Bool.and_eq_true] at h
    rw [replayEntries, StepAnswer.bounded_eq_ok h.1]
    simp only [ih h.2, Target.execute, length_cons, Option.map_map]
    congr 3
    · omega
    · congr 1
      funext l
      simp

structure Stops (s : CommittedReplaySummary) (t : Target)
    (r : Bool × CommittedReplaySummary × Target) :
    Prop where
  stops : r.1 = false
  last : r.2.1.lastCommitSeq = s.lastCommitSeq
  target : r.2.2 = t

theorem replayEntries_of_not_ok
    (h : (List.range' k es.length).all (fun j => (executes j).isOk) = false)
    (s : CommittedReplaySummary)
    (t : Target) : Stops s t.rollback (replayEntries tx executes k es s t) := by
  induction es generalizing k s t with
  | nil => cases h
  | cons e es ih =>
    rw [replayEntries]
    cases hk : (executes k).isOk with
    | false =>
      obtain ⟨error, herror⟩ := StepAnswer.bounded_eq_error hk
      rw [herror]
      exact ⟨rfl, rfl, rfl⟩
    | true =>
      rw [length_cons, range'_succ, all_cons, hk] at h
      rw [StepAnswer.bounded_eq_ok hk]
      exact ⟨(ih h _ _).stops, (ih h _ _).last, (ih h _ _).target⟩

variable {a : TxAnswers}

theorem replayTx_of_applies (h : a.applies tx) (s : CommittedReplaySummary)
    (t : Target) :
    replayTx tx a s t =
      (true,
        { s with
          statementsReplayed := s.statementsReplayed + tx.entries.length
          transactionsReplayed := s.transactionsReplayed + 1
          lastCommitSeq := tx.seq },
        ⟨t.committed ++ [tx.entries], none⟩) := by
  simp only [TxAnswers.applies, Bool.and_eq_true, isNone_iff_eq_none, Bool.not_eq_true'] at h
  obtain ⟨⟨⟨⟨hcomplete, hspent⟩, hbegins⟩, hexecutes⟩, hcommits⟩ := h
  cases hc : a.commits with
  | failed error | spent => simp [hc] at hcommits
  | ok tag =>
    rw [hc] at hcommits
    rw [replayTx, hcomplete, hspent, StepAnswer.bounded_eq_ok hbegins]
    simp only [Bool.false_eq_true, if_false, replayEntries_of_ok tx hexecutes, hc,
      StepAnswer.bounded, hcommits, if_true]
    rfl

theorem replayTx_of_not_applies (h : a.applies tx = false) (s : CommittedReplaySummary)
    {t : Target} (ht : t.inTx = none) : Stops s t (replayTx tx a s t) := by
  have hrollback : t.begin.rollback = t := by
    obtain ⟨committed, inTx⟩ := t
    cases ht
    rfl
  rw [replayTx]
  cases hcomplete : tx.incompleteReason with
  | some reason => exact ⟨rfl, rfl, rfl⟩
  | none =>
    cases hspent : a.spent with
    | true => exact ⟨rfl, rfl, rfl⟩
    | false =>
      cases hbegins : a.begins.isOk with
      | false =>
        obtain ⟨error, herror⟩ := StepAnswer.bounded_eq_error hbegins
        rw [herror]
        exact ⟨rfl, rfl, rfl⟩
      | true =>
        rw [StepAnswer.bounded_eq_ok hbegins]
        cases hexecutes : (List.range' 0 tx.entries.length).all fun k => (a.executes k).isOk with
        | false =>
          obtain ⟨hstops, hlast, htarget⟩ := replayEntries_of_not_ok tx hexecutes s t.begin
          rw [hrollback] at htarget
          generalize replayEntries tx a.executes 0 tx.entries s t.begin = r at hstops hlast htarget
          obtain ⟨through, s', t'⟩ := r
          cases hstops
          exact ⟨rfl, hlast, htarget⟩
        | true =>
          have hcommits : (match a.commits with
              | .ok tag => eqIgnoreCase tag "COMMIT"
              | _ => false) = false := by
            simpa [TxAnswers.applies, hcomplete, hspent, hbegins, hexecutes] using h
          simp only [replayEntries_of_ok tx hexecutes]
          cases hc : a.commits with
          | ok tag =>
            rw [hc] at hcommits
            simp only [StepAnswer.bounded, hcommits]
            exact ⟨rfl, rfl, hrollback⟩
          | failed error | spent => exact ⟨rfl, rfl, hrollback⟩

end specs

theorem replayTxs_spec (answers : Nat → TxAnswers) (i : Nat) (txs : List CommittedTx)
    (s : CommittedReplaySummary) {t : Target} (ht : t.inTx = none) :
    ∃ done rest, txs = done ++ rest ∧
      (replayTxs answers i txs s t).2 = ⟨t.committed ++ done.map (·.entries), none⟩ ∧
      (replayTxs answers i txs s t).1.lastCommitSeq =
        (done.getLast?.map CommittedTx.seq).getD s.lastCommitSeq ∧
      (done ≠ [] ↔ ∃ tx ∈ txs.head?, (answers i).applies tx) := by
  induction txs generalizing i s t with
  | nil =>
    refine ⟨[], [], rfl, ?_, rfl, by simp⟩
    rw [replayTxs, map_nil, List.append_nil, ← ht]
  | cons tx txs ih =>
    rw [replayTxs]
    cases happlies : (answers i).applies tx with
    | true =>
      rw [replayTx_of_applies tx happlies]
      obtain ⟨done, rest, rfl, htarget, hlast, -⟩ := ih (i + 1)
        { s with
          statementsReplayed := s.statementsReplayed + tx.entries.length
          transactionsReplayed := s.transactionsReplayed + 1
          lastCommitSeq := tx.seq } (t := ⟨t.committed ++ [tx.entries], none⟩) rfl
      refine ⟨tx :: done, rest, rfl, ?_, ?_, by simp [happlies]⟩
      · rw [htarget]
        simp
      · rw [hlast, getLast?_cons]
        cases done.getLast? <;> rfl
    | false =>
      obtain ⟨hstops, hlast, htarget⟩ := replayTx_of_not_applies tx happlies s ht
      generalize replayTx tx (answers i) s t = r at hstops hlast htarget
      obtain ⟨through, s', t'⟩ := r
      cases hstops
      refine ⟨[], tx :: txs, rfl, ?_, hlast, by simp [happlies]⟩
      rw [map_nil, List.append_nil, ← ht]
      exact htarget

/-! ## Runs one after another -/

/-- The committed store, of which nothing is evicted: the journal numbers its commits
from 1. -/
structure CommittedHistory where
  txs : List CommittedTx
  numbered : ∀ tx ∈ txs, 0 < tx.seq
  increasing : txs.Pairwise fun a b => a.seq < b.seq

structure Replays where
  target : Target
  resume : Nat
deriving DecidableEq

namespace Replays

def init : Replays := ⟨⟨[], none⟩, 0⟩

/-- One run of the window; only a run that returns a summary moves the resume point. -/
def step (h : CommittedHistory) (req : CommittedHistoryRequest) (s : Replays) (r : RunAnswers) :
    Option Replays :=
  let (result, target) := replayCommitted h.txs { req with afterCommitSeq := s.resume } r s.target
  match result with
  | .ok summary => some ⟨target, summary.lastCommitSeq⟩
  | .error _ => some ⟨target, s.resume⟩

def window (h : CommittedHistory) (req : CommittedHistoryRequest) : List CommittedTx :=
  committedInWindow h.txs req.start req.stop

/-- The target holds the window's transactions up to the last commit reported, each once
and in commit order, and nothing besides. -/
def UpToDate (h : CommittedHistory) (req : CommittedHistoryRequest) (s : Replays) : Prop :=
  s.target = ⟨((window h req).filter fun tx => tx.seq ≤ s.resume).map (·.entries), none⟩

/-- The run starts at 0, or ends with an error, or finds a transaction to start with and
applies it. -/
def GoesOn (h : CommittedHistory) (req : CommittedHistoryRequest) (s : Replays) (r : RunAnswers) :
    Prop :=
  s.resume = 0 ∨ req.refusal.isSome = true ∨
    ∃ tx ∈ ((window h req).filter fun tx => s.resume < tx.seq).head?,
      match r.connect with
      | .refused _ => True
      | .connected => (r.answers 0).applies tx = true
      | .spentBefore | .spentWhile => False

variable {h : CommittedHistory} {req : CommittedHistoryRequest}

theorem window_increasing : (window h req).Pairwise fun a b => a.seq < b.seq :=
  h.increasing.sublist filter_sublist

theorem window_numbered {tx : CommittedTx} (htx : tx ∈ window h req) : 0 < tx.seq :=
  h.numbered tx (mem_of_mem_filter htx)

theorem window_split (n : Nat) :
    ((window h req).filter fun tx => tx.seq ≤ n) ++ ((window h req).filter fun tx => n < tx.seq) =
      window h req := by
  have hcut := Lists.filter_append_filter_not (p := fun tx : CommittedTx => decide (tx.seq ≤ n))
    ((@window_increasing h req).imp fun hab hb => by simp at hb ⊢; omega)
  have hbehind :
    (fun tx : CommittedTx => !decide (tx.seq ≤ n)) = fun tx => decide (n < tx.seq) := by
    funext tx
    rw [← decide_not, decide_eq_decide, not_le]
  rwa [hbehind] at hcut

/-- The transactions up to the last one of a part that follows `n`. -/
theorem filter_upTo {n : Nat} {done rest : List CommittedTx} {last : CommittedTx}
    (hdone : ((window h req).filter fun tx => n < tx.seq) = done ++ rest)
    (hlast : done.getLast? = some last) : ((window h req).filter fun tx => tx.seq ≤ last.seq) =
      ((window h req).filter fun tx => tx.seq ≤ n) ++ done := by
  obtain ⟨front, rfl⟩ := getLast?_eq_some_iff.mp hlast
  have hbehind : ∀ tx ∈ front ++ [last] ++ rest, n < tx.seq := by
    intro tx htx
    rw [← hdone] at htx
    simpa using (mem_filter.mp htx).2
  have hpairwise : (front ++ [last] ++ rest).Pairwise fun a b => a.seq < b.seq :=
    hdone ▸ window_increasing.sublist filter_sublist
  obtain ⟨hfront, -, hrest⟩ := pairwise_append.mp hpairwise
  obtain ⟨-, -, hbefore⟩ := pairwise_append.mp hfront
  have hn : n < last.seq := hbehind last (by simp)
  conv_lhs => rw [← window_split n, hdone]
  rw [filter_append, filter_append]
  have hh : (((window h req).filter fun tx => tx.seq ≤ n).filter fun tx => tx.seq ≤ last.seq) =
      (window h req).filter fun tx => tx.seq ≤ n := by
    refine filter_eq_self.mpr fun tx htx => decide_eq_true ?_
    have hle : tx.seq ≤ n := of_decide_eq_true (mem_filter.mp htx).2
    omega
  have hdone' : ((front ++ [last]).filter fun tx => tx.seq ≤ last.seq) = front ++ [last] := by
    refine filter_eq_self.mpr fun tx htx => decide_eq_true ?_
    rcases mem_append.mp htx with htx | htx
    · exact le_of_lt (hbefore tx htx last (by simp))
    · rw [mem_singleton.mp htx]
  have hrest' : (rest.filter fun tx => tx.seq ≤ last.seq) = [] := by
    refine filter_eq_nil_iff.mpr fun tx htx => ?_
    rw [decide_eq_true_eq, not_le]
    exact hrest last (by simp) tx htx
  rw [hh, hdone', hrest', List.append_nil]

variable {s : Replays}

/-- What a run does: it ends with an error, or commits the first of the transactions
behind the resume point and reports the last of them. -/
theorem step_cases (hs : s.target.inTx = none) (r : RunAnswers) :
    (step h req s r = some s ∧ GoesOn h req s r) ∨
      ∃ done rest, ((window h req).filter fun tx => s.resume < tx.seq) = done ++ rest ∧
        step h req s r = some ⟨⟨s.target.committed ++ done.map (·.entries), none⟩,
          (done.getLast?.map CommittedTx.seq).getD 0⟩ ∧
        (GoesOn h req s r ↔ s.resume = 0 ∨ done ≠ []) := by
  have hnothing : (⟨s.target, 0⟩ : Replays) =
      ⟨⟨s.target.committed ++ List.map (·.entries) ([] : List CommittedTx), none⟩, 0⟩ := by
    rw [map_nil, List.append_nil, ← hs]
  have hselected : { req with afterCommitSeq := s.resume }.selected h.txs =
      (window h req).filter fun tx => s.resume < tx.seq := rfl
  have hrefusal : { req with afterCommitSeq := s.resume }.refusal = req.refusal := rfl
  simp only [step, replayCommitted, hselected, hrefusal, GoesOn]
  cases req.refusal with
  | some error => exact .inl ⟨rfl, .inr (.inl rfl)⟩
  | none =>
    cases hsel : (window h req).filter fun tx => decide (s.resume < tx.seq) with
    | nil =>
      exact .inr ⟨[], [], rfl, congrArg some hnothing, by simp⟩
    | cons first txs =>
      cases r.connect with
      | spentBefore | spentWhile =>
        exact .inr ⟨[], first :: txs, rfl, congrArg some hnothing, by simp⟩
      | refused error => exact .inl ⟨rfl, .inr (.inr ⟨first, rfl, trivial⟩)⟩
      | connected =>
        obtain ⟨done, rest, hdone, htarget, hlast, happlies⟩ :=
          replayTxs_spec r.answers 0 (first :: txs)
            ({ req with afterCommitSeq := s.resume }.summary (first :: txs)) hs
        refine .inr ⟨done, rest, hdone, ?_, ?_⟩
        · simp only [htarget, hlast]
          rfl
        · rw [happlies]
          simp

/-- What a run leaves in any case: no transaction open, and a commit of the window as the
resume point. -/
structure Resumable (h : CommittedHistory) (req : CommittedHistoryRequest) (s : Replays) :
    Prop where
  closed : s.target.inTx = none
  resumes : s.resume = 0 ∨ ∃ tx ∈ window h req, tx.seq = s.resume

variable {r : RunAnswers}

theorem Resumable.step {s' : Replays} (hs : s.Resumable h req)
    (hstep : Replays.step h req s r = some s') : s'.Resumable h req := by
  rcases step_cases hs.closed r with ⟨hsame, -⟩ | ⟨done, rest, hdone, hnew, -⟩
  · cases hsame.symm.trans hstep
    exact hs
  · cases hnew.symm.trans hstep
    refine ⟨rfl, ?_⟩
    cases hlast : done.getLast? with
    | none => exact .inl rfl
    | some last =>
      have hmem : last ∈ (window h req).filter fun tx => s.resume < tx.seq :=
        hdone ▸ mem_append_left _ (mem_of_getLast? hlast)
      exact .inr ⟨last, mem_of_mem_filter hmem, rfl⟩

theorem filter_upTo_zero : ((window h req).filter fun tx => tx.seq ≤ 0) = [] :=
  filter_eq_nil_iff.mpr fun tx htx => by
    have := window_numbered htx
    rw [decide_eq_true_eq]
    omega

theorem upToDate_init : init.UpToDate h req := by
  rw [UpToDate, init, filter_upTo_zero]
  rfl

theorem upToDate_iff_goesOn {s' : Replays} (hs : s.Resumable h req)
    (hup : s.UpToDate h req) (hstep : step h req s r = some s') :
    s'.UpToDate h req ↔ GoesOn h req s r := by
  rcases step_cases hs.closed r with ⟨hsame, hgoes⟩ | ⟨done, rest, hdone, hnew, hgoes⟩
  · cases hsame.symm.trans hstep
    exact iff_of_true hup hgoes
  · cases hnew.symm.trans hstep
    have hcommitted : s.target.committed =
        ((window h req).filter fun tx => tx.seq ≤ s.resume).map (·.entries) := by rw [hup]
    rw [hgoes]
    cases hlast : done.getLast? with
    | none =>
      obtain rfl := getLast?_eq_none_iff.mp hlast
      constructor
      · intro hup'
        refine or_iff_not_imp_left.mpr fun hresume => ?_
        obtain ⟨tx, htx, hseq⟩ := hs.resumes.resolve_left hresume
        have hnil : s.target.committed = [] := by
          have hzero : s.target.committed ++ [] =
              ((window h req).filter fun tx => tx.seq ≤ 0).map (·.entries) :=
            congrArg Target.committed hup'
          rwa [filter_upTo_zero, List.append_nil] at hzero
        rw [hcommitted, map_eq_nil_iff, filter_eq_nil_iff] at hnil
        exact absurd (decide_eq_true hseq.le) (hnil tx htx)
      · intro hresume
        have hresume : s.resume = 0 := hresume.resolve_right fun hne => hne rfl
        rw [hresume] at hcommitted
        rw [UpToDate, hcommitted]
        simp
    | some last =>
      have hne : done ≠ [] := by
        rintro rfl
        cases hlast
      refine iff_of_true ?_ (.inr hne)
      rw [UpToDate, map_some, getD_some, filter_upTo hdone hlast, hcommitted, map_append]

end Replays

/-- Every run leaves on the target exactly what it reports, each transaction once and in
commit order, if and only if every run goes on. -/
theorem replayCommitted_upToDate_iff (h : CommittedHistory) (req : CommittedHistoryRequest)
    (runs : List RunAnswers) :
    (∀ k s, Runs.run (Replays.step h req) .init (runs.take k) = some s → s.UpToDate h req) ↔
      Runs.Along (Replays.step h req) (Replays.GoesOn h req) .init runs := by
  have htotal : ∀ s runs, ∃ e, Runs.run (Replays.step h req) s runs = some e := by
    intro s runs
    induction runs generalizing s with
    | nil => exact ⟨s, rfl⟩
    | cons r runs ih =>
      obtain ⟨s', hs'⟩ : ∃ s', Replays.step h req s r = some s' := by
        simp only [Replays.step]
        cases (replayCommitted h.txs { req with afterCommitSeq := s.resume } r s.target).1 with
        | ok summary | error e => exact ⟨_, rfl⟩
      obtain ⟨e, he⟩ := ih s'
      exact ⟨e, Runs.run_cons_eq_some.mpr ⟨s', hs', he⟩⟩
  obtain ⟨e, he⟩ := htotal .init runs
  have hinit : Replays.init.Resumable h req := ⟨rfl, .inl rfl⟩
  exact Runs.forall_take_iff_along (fun _ _ _ hs hstep => hs.step hstep)
    (fun _ _ _ hs hup hstep =>
      Replays.upToDate_iff_goesOn hs hup hstep) hinit Replays.upToDate_init he

def insertValue (value : String) : JournalEntry :=
  ⟨1, "INSERT INTO t VALUES (" ++ value.toList ++ ")", [], [], "INSERT 0 1", .simple⟩

def commitOf (seq : Nat) (e : JournalEntry) : CommittedTx :=
  ⟨⟨seq, [e], 1, [], some seq, some "COMMIT", none⟩, some seq⟩

def twoCommits : CommittedHistory where
  txs := [commitOf 1 (insertValue "1"), commitOf 2 (insertValue "2")]
  numbered := by decide
  increasing := by decide

def wholeWindow : CommittedHistoryRequest := ⟨0, 10, 0, "target", 5432⟩

def applied : TxAnswers := ⟨false, .ok (), fun _ => .ok (), .ok "COMMIT"⟩

/-- The first run stops at the second transaction and the next one before it connects;
the one after that starts over. -/
def stopAndResume : List RunAnswers :=
  [⟨.connected, fun i => if i = 0 then applied else { applied with begins := .failed "closed" }⟩,
    ⟨.spentBefore, fun _ => applied⟩, ⟨.connected, fun _ => applied⟩]

theorem not_replayCommitted_upToDate :
    ∃ s, Runs.run (Replays.step twoCommits wholeWindow) .init stopAndResume = some s ∧
      s = ⟨⟨[[insertValue "1"], [insertValue "1"], [insertValue "2"]], none⟩, 2⟩ ∧
      ¬ s.UpToDate twoCommits wholeWindow := by
  refine ⟨_, rfl, rfl, fun hup => ?_⟩
  have hlength := congrArg (fun t => t.committed.length) hup
  revert hlength
  decide

end HeliosProxy.Journal
