import HeliosProxy.Journal.Classify

/-!
# Capture of a session's transactions

`SessionCapture` (`journal_capture.rs`) registers what a session is about to
send, a simple-query string or the messages of an extended batch, and
reconciles it with the backend's answer into journal operations.
-/

namespace HeliosProxy.Journal

open Text Function

inductive WireProtocol
  | simple
  | extended
deriving DecidableEq

inductive JournalValue
  | null
  | text (s : Str)
  | textRaw (bytes : List UInt8)
  | binary (bytes : List UInt8)
deriving DecidableEq

/-- A completed statement, with the tag the backend completed it with. -/
structure NewEntry where
  statement : Str
  parameters : List JournalValue
  paramTypes : List UInt32
  tag : Str
  protocol : WireProtocol
deriving DecidableEq

inductive Completion
  | tag (t : Str)
  | suspended
  | empty
deriving DecidableEq

/-- The status byte of a `ReadyForQuery`: `I`, `T` or `E`. -/
inductive TxStatus
  | idle
  | inBlock
  | failed
deriving DecidableEq

structure ResponseOutcome where
  status : TxStatus
  completions : List Completion
  /-- The SQLSTATE and the message of the first `ErrorResponse`. -/
  error : Option (Str × Str)

def ResponseOutcome.lastTag (o : ResponseOutcome) : Option Str :=
  o.completions.reverse.findSome? fun
    | .tag t => some t
    | _ => none

/-- A prepared statement the session parsed; a read keeps no text. -/
structure Prepared where
  sql : Option Str
  kind : StmtKind
  multi : Bool
  paramTypes : List UInt32
deriving DecidableEq

structure Portal where
  prepared : Prepared
  params : List JournalValue
  executed : Bool
deriving DecidableEq

structure Pending where
  sql : Str
  kind : StmtKind
  multi : Bool
  params : List JournalValue
  paramTypes : List UInt32
  protocol : WireProtocol
  execIndex : Nat
  oversize : Bool
deriving DecidableEq

structure OpenTx where
  txId : Nat
  aborted : Bool
deriving DecidableEq

inductive JournalOp
  | begin (txId : Nat)
  | log (txId : Nat) (entry : NewEntry)
  | savepoint (txId : Nat) (name : Str)
  | rollbackTo (txId : Nat) (name : Str)
  | incomplete (txId : Nat) (reason : Str)
  | commit (txId : Nat) (tag : Str)
  | rollback (txId : Nat)
  | preparedCommitted
  | autoCommit (entries : List NewEntry) (tag : Str) (incomplete : Option Str)
deriving DecidableEq

/-- The capture of one session.  `nextTxId` is what `next_auto_commit_tx_id`
hands out next. -/
structure SessionCapture where
  openTx : Option OpenTx
  prepared : Str → Option Prepared
  unnamed : Option Prepared
  portals : Str → Option Portal
  pending : List Pending
  execs : Nat
  maxStatementBytes : Nat
  deferred : List JournalOp
  nextTxId : Nat

namespace SessionCapture

def new (maxStatementBytes : Nat) : SessionCapture where
  openTx := none
  prepared := fun _ => none
  unnamed := none
  portals := fun _ => none
  pending := []
  execs := 0
  maxStatementBytes := max maxStatementBytes 1
  deferred := []
  nextTxId := 0

def inTransaction (cap : SessionCapture) : Bool := cap.openTx.isSome

def armed (cap : SessionCapture) : Bool := !cap.pending.isEmpty

/-- `register_simple`; the outcome is observed when it returns `true`. -/
def registerSimple (U : UnicodeTables) (cap : SessionCapture) (sql : Str) : SessionCapture × Bool :=
  let (kind, multi) := classify U sql
  if kind == .read then (cap, false)
  else
    let oversize := cap.maxStatementBytes < byteLen sql
    let p : Pending :=
      { sql := if oversize then [] else sql, kind, multi, params := [], paramTypes := [],
        protocol := .simple, execIndex := 0, oversize }
    ({ cap with pending := cap.pending ++ [p] }, true)

def noteParse (U : UnicodeTables) (cap : SessionCapture) (name sql : Str)
    (paramTypes : List UInt32) :
    SessionCapture :=
  let (kind, multi) := classify U sql
  let text : Option Str :=
    if kind == .read then none else if cap.maxStatementBytes < byteLen sql then some []
      else some sql
  let prepared : Prepared := { sql := text, kind, multi, paramTypes }
  if name.isEmpty then { cap with unnamed := some prepared }
  else { cap with prepared := update cap.prepared name (some prepared) }

def statement? (cap : SessionCapture) (name : Str) : Option Prepared :=
  if name.isEmpty then cap.unnamed else cap.prepared name

/-- `note_bind`; `params` is what `bind_params` reads. -/
def noteBind (cap : SessionCapture) (portal stmt : WireStr) (params : List JournalValue) :
    SessionCapture :=
  match portal.utf8?, stmt.utf8? with
  | some portal, some stmt =>
    match cap.statement? stmt with
    | none => { cap with portals := update cap.portals portal none }
    | some prepared =>
      if !prepared.kind.isJournaled && !prepared.kind.isControl then
        { cap with portals := update cap.portals portal none }
      else
        { cap with portals := update cap.portals portal (some ⟨prepared, params, false⟩) }
  | _, _ => cap

/-- `note_execute`; the second execution of a portal continues the first. -/
def noteExecute (cap : SessionCapture) (portal : WireStr) : SessionCapture :=
  let portal := portal.utf8?.getD []
  let execIndex := cap.execs
  let cap := { cap with execs := cap.execs + 1 }
  match cap.portals portal with
  | none => cap
  | some p =>
    if p.executed then cap
    else
      let pending : Pending :=
        { sql := p.prepared.sql.getD [], kind := p.prepared.kind, multi := p.prepared.multi,
          params := p.params, paramTypes := p.prepared.paramTypes, protocol := .extended, execIndex,
          oversize := p.prepared.sql == some [] && p.prepared.kind.isJournaled }
      { cap with
        pending := cap.pending ++ [pending],
        portals := update cap.portals portal
          (some { p with executed := true, params := [] }) }

/-- `note_close` of a statement (`S`) or a portal (`P`). -/
def noteClose (cap : SessionCapture) (kind : Char) (name : WireStr) : SessionCapture :=
  let name := name.utf8?.getD []
  if kind == 'S' then
    if name.isEmpty then { cap with unnamed := none }
    else { cap with prepared := update cap.prepared name none }
  else if kind == 'P' then { cap with portals := update cap.portals name none }
  else cap

end SessionCapture

/-! ## Observing the answer -/

inductive Resolved
  | ok (tag : Str)
  | failed (code msg : Str)
  | unresolved

def Pending.resolve (p : Pending) (outcome : ResponseOutcome) : Resolved :=
  match p.protocol with
  | .simple =>
    match outcome.error with
    | some (code, msg) => .failed code msg
    | none => .ok (outcome.lastTag.getD [])
  | .extended =>
    match outcome.completions[p.execIndex]? with
    | some (.tag t) => .ok t
    | some .suspended => .ok "SUSPENDED"
    | some .empty => .unresolved
    | none =>
      match outcome.error with
      | some (code, msg) =>
        if p.execIndex = outcome.completions.length then .failed code msg else .unresolved
      | none => .unresolved

/-- `NewEntry::from_pending`. -/
def Pending.entry (p : Pending) (tag : Str) : NewEntry where
  statement := if p.oversize then [] else p.sql
  parameters := p.params
  paramTypes := p.paramTypes
  tag := tag
  protocol := p.protocol

def Pending.reason (p : Pending) : Option Str :=
  if p.oversize then some "statement text exceeds journal.max_statement_bytes"
  else p.kind.incompleteReason

/-- The loop variables of `observe`. -/
structure Observation where
  openTx : Option OpenTx
  nextTxId : Nat
  ops : List JournalOp
  /-- Statements outside a transaction block. -/
  implicit : List NewEntry
  implicitIncomplete : Option Str

namespace Observation

def push (o : Observation) (ops : List JournalOp) : Observation := { o with ops := o.ops ++ ops }

def openFresh (o : Observation) (aborted : Bool) : Observation :=
  { o with openTx := some ⟨o.nextTxId, aborted⟩, nextTxId := o.nextTxId + 1 }.push
    [.begin o.nextTxId]

/-- Move the implicit statements into the transaction `txId`. -/
def drainImplicit (o : Observation) (txId : Nat) : Observation :=
  { o with implicit := [] }.push (o.implicit.map (.log txId))

def applyControl (o : Observation) (c : Control) (tag : Str) : Observation :=
  match c, o.openTx with
  | .begin, none => (o.openFresh false).drainImplicit o.nextTxId
  | .begin, some _ => o
  | .commit, some t =>
    { o with openTx := none }.push
      [if eqIgnoreCase tag "COMMIT" && !t.aborted then .commit t.txId tag else .rollback t.txId]
  | .rollback, some t | .prepareTransaction, some t =>
    { o with openTx := none }.push [.rollback t.txId]
  | .savepoint name, some t => o.push [.savepoint t.txId name]
  | .rollbackTo name, some t =>
    { o with openTx := some { t with aborted := false } }.push [.rollbackTo t.txId name]
  | _, _ => o

def noteFailure (o : Observation) (p : Pending) (outcome : ResponseOutcome) (code msg : Str) :
    Observation :=
  match o.openTx with
  | none => o
  | some t =>
    let o := { o with openTx := some { t with aborted := true } }
    if p.multi && !outcome.completions.isEmpty then
      o.push [.incomplete t.txId ("multi-statement string failed after " ++
        (toString outcome.completions.length).toList ++ " sub-statement(s) (" ++ code ++
        ": " ++ msg ++ ")")]
    else o

def noteWrite (o : Observation) (p : Pending) (tag : Str) : Observation :=
  match o.openTx with
  | some t =>
    o.push (.log t.txId (p.entry tag) :: (p.reason.map (.incomplete t.txId)).toList)
  | none =>
    { o with
      implicit := o.implicit ++ [p.entry tag],
      implicitIncomplete := o.implicitIncomplete.or p.reason }

def notePending (outcome : ResponseOutcome) (o : Observation) (p : Pending) : Observation :=
  match p.resolve outcome with
  | .unresolved => o
  | .failed code msg => o.noteFailure p outcome code msg
  | .ok tag =>
    match p.kind with
    | .read => o
    | .control c => o.applyControl c tag
    | .write | .copy | .opaqueStmt => o.noteWrite p tag

def reconcile (outcome : ResponseOutcome) (o : Observation) : Observation :=
  match outcome.status with
  | .idle =>
    let committed := outcome.error.isNone &&
      (outcome.lastTag.any fun t => eqIgnoreCase t "COMMIT")
    let ended := match o.openTx with
      | none => o
      | some t =>
        { o with openTx := none }.push
          [if committed then .commit t.txId "COMMIT" else .rollback t.txId]
    if !o.implicit.isEmpty && outcome.error.isNone then
      ended.push [.autoCommit o.implicit (outcome.lastTag.getD []) o.implicitIncomplete]
    else ended
  | .inBlock =>
    match o.openTx with
    | none =>
      ((o.openFresh false).drainImplicit o.nextTxId).push
        (o.implicitIncomplete.map (.incomplete o.nextTxId)).toList
    | some t => o.drainImplicit t.txId
  | .failed =>
    match o.openTx with
    | some t => { o with openTx := some { t with aborted := true } }
    | none => o.openFresh true

end Observation

/-- Whether some completion is a `COMMIT PREPARED`. -/
def ResponseOutcome.preparedCommitted (outcome : ResponseOutcome) : Bool :=
  outcome.completions.any fun
    | .tag t => eqIgnoreCase t "COMMIT PREPARED"
    | _ => false

/-- The loop variables at the end of `observe`. -/
def SessionCapture.observation (cap : SessionCapture) (outcome : ResponseOutcome) : Observation :=
  .reconcile outcome (cap.pending.foldl (.notePending outcome)
    { openTx := cap.openTx, nextTxId := cap.nextTxId,
      ops := cap.deferred ++ if outcome.preparedCommitted then [.preparedCommitted] else [],
      implicit := [], implicitIncomplete := none })

/-- `observe`: the operations of the cycle, and the capture after it. -/
def SessionCapture.observe (cap : SessionCapture) (outcome : ResponseOutcome) :
    SessionCapture × List JournalOp :=
  let o := cap.observation outcome
  ({ cap with
      openTx := o.openTx, nextTxId := o.nextTxId, pending := [], execs := 0, deferred := [],
      portals := if outcome.status = .idle then fun _ => none else cap.portals },
    o.ops)

end HeliosProxy.Journal
