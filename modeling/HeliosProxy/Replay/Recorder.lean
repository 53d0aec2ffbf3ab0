import HeliosProxy.Postgres.Blocks
import HeliosProxy.Replay.Cycle

/-!
# Recording a transaction for its replay

After every response of a session in a recording mode the proxy adds what the
client sent to the history of the open transaction, or gives the history up.  A
cycle that was sent in several chunks is one entry of it, made at its `Sync`.

What other parts of the proxy decide arrives with the response: whether the text
was rewritten on its way, whether the tenant's budget takes the entry, and the
settings the session has made.
-/

namespace HeliosProxy.Replay

open Text Postgres

inductive TrMode
  | none
  | session
  | select
  | transaction
deriving DecidableEq

structure ExtendedBatchLog where
  frames : List Frame
  unnamedParse : Option Frame
  defines : List Str
  refs : List Str
  outside : List (Str × Frame)

structure StatementLog where
  sql : Str
  resultChecksum : Option Nat
  extended : Option ExtendedBatchLog

/-- `TransactionState`, as far as the recording is concerned. -/
structure TransactionState where
  inTransaction : Bool
  statements : List StatementLog
  readOnly : Bool
  replayBytes : Nat
  hasWrites : Bool
  nonReplayable : Bool
  replayCapExceeded : Bool

namespace TransactionState

def default : TransactionState := ⟨false, [], false, 0, false, false, false⟩

def opened : TransactionState := { default with inTransaction := true, readOnly := true }

def giveUp (ts : TransactionState) : TransactionState :=
  { ts with nonReplayable := true, statements := [], replayBytes := 0 }

def giveUpAtCap (ts : TransactionState) : TransactionState :=
  { ts.giveUp with replayCapExceeded := true }

/-- A statement of the kind `k` ran. -/
def noteKind (ts : TransactionState) (k : StmtKind) : TransactionState :=
  if k = .read ∨ k = .control then ts else { ts with hasWrites := true, readOnly := false }

variable (ts : TransactionState)

@[simp] theorem noteKind_statements (k : StmtKind) :
    (ts.noteKind k).statements = ts.statements := by
  rw [noteKind]
  split <;> rfl

@[simp] theorem noteKind_replayBytes (k : StmtKind) :
    (ts.noteKind k).replayBytes = ts.replayBytes := by
  rw [noteKind]
  split <;> rfl

@[simp] theorem noteKind_nonReplayable (k : StmtKind) :
    (ts.noteKind k).nonReplayable = ts.nonReplayable := by
  rw [noteKind]
  split <;> rfl

end TransactionState

structure TrExtCycle where
  frames : List Frame
  unnamedParse : Option Frame
  defines : List Str
  refs : List Str
  routeSql : Option Str
  mayWrite : Bool

/-- `TrSession` and what `ClientSession` keeps of the last response. -/
structure Session where
  mode : TrMode
  gucs : List Str
  prevStatus : BlockStatus
  extCycle : Option TrExtCycle
  extCycleDropped : Bool
  acked : Table Str AckedStmt
  txPortals : Table Str StmtKind
  inTransaction : Bool
  lastRfqStatus : BlockStatus
  lastResponseError : Bool
  lastResponseDigest : Nat
  lastResponseUnverifiable : Bool
  trReplayTainted : Bool
  copyInProgress : Bool
  ts : TransactionState

structure Response where
  status : BlockStatus
  hadError : Bool
  digest : Nat
  unverifiable : Bool
  /-- The text was rewritten on its way. -/
  transformed : Bool
  /-- `tenant_replay_reserve`. -/
  reserves : Bool
  /-- The tracked settings behind it. -/
  gucs : List Str

namespace Session

def new (mode : TrMode) : Session where
  mode := mode
  gucs := []
  prevStatus := .idle
  extCycle := .none
  extCycleDropped := false
  acked := []
  txPortals := []
  inTransaction := false
  lastRfqStatus := .idle
  lastResponseError := false
  lastResponseDigest := 0
  lastResponseUnverifiable := false
  trReplayTainted := false
  copyInProgress := false
  ts := .default

def recordTx (s : Session) : Bool := s.mode = .select || s.mode = .transaction

def trackGucs (s : Session) : Bool := s.mode ≠ .none

/-- `note_ready_for_query` and `note_observation`, behind the forwarding. -/
def answered (s : Session) (r : Response) : Session :=
  { s with
    inTransaction := r.status ≠ .idle
    lastRfqStatus := r.status
    lastResponseError := r.hadError
    lastResponseDigest := r.digest
    lastResponseUnverifiable := r.unverifiable
    trReplayTainted := s.trReplayTainted || r.transformed }

def answeredCycle (s : Session) (r : Response) : Session := { s.answered r with gucs := r.gucs }

end Session

section Recorder

variable (cfg : Settings)

/-- The block `'record` of `tr_after_response`, inside a transaction with the state
`ts`. -/
def record (r : Response) (prev : BlockStatus) (sql : Str) (k : StmtKind) (entry : StatementLog)
    (entryBytes : Nat) (s : Session) (ts : TransactionState) : Session :=
  let ts := ts.noteKind k
  let spoilt := s.lastRfqStatus = .failed ∨ s.trReplayTainted ∨ k = .commit
  let ts := { ts with nonReplayable := ts.nonReplayable || spoilt }
  let s := { s with trReplayTainted := false }
  if ts.nonReplayable then
    { s with ts := if ts.statements.isEmpty then ts else { ts with statements := [], replayBytes := 0 } }
  else if cfg.maxReplayStatements ≤ ts.statements.length ∨
      cfg.maxReplayBytes < ts.replayBytes + entryBytes ∨ r.reserves = false then
    { s with ts := ts.giveUpAtCap }
  else if prev = .inBlock ∧ s.lastResponseUnverifiable then
    { s with lastResponseUnverifiable := false, ts := ts.giveUp }
  else
    -- a statement inside the transaction carries what its response looked like
    let observed := prev = .inBlock
    let checksum := if s.lastResponseDigest = 0 then none else some s.lastResponseDigest
    let entry := { entry with resultChecksum := if observed then checksum else entry.resultChecksum }
    let s :=
      { s with
        lastResponseUnverifiable := !observed && s.lastResponseUnverifiable
        lastResponseDigest := if observed then 0 else s.lastResponseDigest }
    if sql ≠ [] ∧ trSnapshotSensitive sql s.gucs then { s with ts := ts.giveUp }
    else
      { s with
        ts := { ts with
          statements := ts.statements ++ [entry]
          replayBytes := ts.replayBytes + entryBytes } }

/-- What `tr_after_response` does in front of the recording. -/
def settle (r : Response) (gucsTracked : Bool) (s : Session) : Session :=
  let status := s.lastRfqStatus
  { s with
    prevStatus := status
    gucs := if s.trackGucs && gucsTracked then r.gucs else s.gucs
    trReplayTainted := if status = .idle then false else s.trReplayTainted
    txPortals := if status = .idle ∨ s.prevStatus = .idle then [] else s.txPortals }

/-- `tr_after_response`.  A `COPY` that waits for the client's data is not recorded. -/
def trAfterResponse (r : Response) (sql : Option Str) (extendedKind : Option StmtKind)
    (entry : StatementLog) (entryBytes : Nat) (s : Session) : Session :=
  if !s.recordTx && !s.trackGucs then s
  else if s.copyInProgress then
    if s.recordTx ∧ (s.prevStatus ≠ .idle ∨ s.ts.inTransaction) then { s with ts := s.ts.giveUp } else s
  else
    let prev := s.prevStatus
    let s := settle r (extendedKind.isNone && sql.isSome) s
    if !s.recordTx ∨ (s.lastRfqStatus = .idle ∧ prev = .idle) then s
    else if s.lastRfqStatus = .idle then { s with ts := .default }
    else
      let k := extendedKind.getD (trClassify cfg.allowsCall (sql.getD []))
      record cfg r prev (sql.getD []) k entry entryBytes s (if prev = .idle then .opened else s.ts)

/-- A query behind a `Flush` cannot stand for the cycle it interrupts. -/
def Session.interrupt (s : Session) : Session :=
  { s with
    extCycle := none
    extCycleDropped := false
    trReplayTainted := s.trReplayTainted || s.extCycleDropped || s.extCycle.isSome }

def trAfterSimple (r : Response) (query : WireStr) (s : Session) : Session :=
  let sql := query.utf8?
  let s := { s.interrupt with acked := if sql.all trTouchesStatements then [] else s.acked }
  let s := trAfterResponse cfg r sql none ⟨sql.getD [], none, none⟩ ((sql.map byteLen).getD 0) s
  if sql.isNone && s.trackGucs && !s.copyInProgress then { s with gucs := r.gucs } else s

/-! ## Extended batches -/

/-- `ExtBatch`, with the statements it refers to and the registry of the session. -/
structure ExtBatch where
  batch : List Frame
  routeSql : Option Str
  defines : List Str
  /-- The held `Parse` of the unnamed statement. -/
  unnamed : Option Frame
  refs : List Str
  registry : Table Str Frame

def ExtBatch.wire (ext : ExtBatch) : List Frame := ext.unnamed.toList ++ ext.batch

/-- The kind of the open cycle with one batch more, by the statements and portals of
the cycles before it. -/
def trCycleKind (s : Session) (ext : ExtBatch) : StmtKind × CycleScan :=
  match s.extCycle with
  | some c => trExtendedCycleScan cfg s.acked s.txPortals c.unnamedParse (c.frames ++ ext.wire)
  | none => trExtendedCycleScan cfg s.acked s.txPortals ext.unnamed ext.batch

def trExtendedSql (routeSql : Option Str) (refs : List Str) (registry : Table Str Frame) : Option Str :=
  routeSql.or (refs.findSome? fun n => (registry.get n).bind parseMsgSql)

def TrExtCycle.extend (cycle : Option TrExtCycle) (ext : ExtBatch) (cycleWrites : Bool) : TrExtCycle :=
  match cycle with
  | none =>
    { frames := ext.batch
      unnamedParse := ext.unnamed
      defines := ext.defines
      refs := ext.refs
      routeSql := ext.routeSql
      mayWrite := cycleWrites }
  | some c =>
    { frames := c.frames ++ ext.wire
      unnamedParse := c.unnamedParse
      defines := c.defines ++ ext.defines
      refs := c.refs ++ ext.refs
      routeSql := c.routeSql.or ext.routeSql
      mayWrite := c.mayWrite || cycleWrites }

def cycleMayWrite (s : Session) (ext : ExtBatch) : Bool :=
  s.extCycle.any TrExtCycle.mayWrite ||
    !((trCycleKind cfg s ext).1 = .read || (trCycleKind cfg s ext).1 = .control)

/-- The branch of `tr_after_extended` for a chunk that a `Flush` ends; `room` is
whether the tenant's budget has room for it. -/
def trAfterFlush (room : Bool) (ext : ExtBatch) (s : Session) : Session :=
  let inTxContext := s.prevStatus ≠ .idle ∨ s.inTransaction
  let retained := s.extCycle.elim 0 fun c => framesLen c.frames + c.unnamedParse.elim 0 Frame.len
  let projected := s.ts.replayBytes + retained + framesLen ext.batch + ext.unnamed.elim 0 Frame.len
  let overSession :=
    cfg.maxReplayBytes < projected ∨ cfg.maxReplayStatements ≤ s.ts.statements.length
  -- the chunk is read only where the budget has no room and a write would be free
  let asked := !s.ts.nonReplayable && !overSession && inTxContext && !room &&
    (s.mode = .select && !s.ts.hasWrites)
  let cycleWrites := asked && cycleMayWrite cfg s ext
  let tenantOver := !overSession && inTxContext && !(room || cycleWrites)
  let s :=
    if s.ts.nonReplayable = false ∧ (overSession ∨ tenantOver) then { s with ts := s.ts.giveUpAtCap }
    else s
  if s.ts.nonReplayable then { s with extCycle := none, extCycleDropped := true }
  else { s with extCycle := some (.extend s.extCycle ext cycleWrites) }

/-- The entry of a cycle that its `Sync` has ended. -/
def cycleEntry (cycle : Option TrExtCycle) (ext : ExtBatch) (sql : Option Str)
    (outside : List (Str × Frame)) : StatementLog where
  sql := sql.getD []
  resultChecksum := none
  extended := some <|
    let c := TrExtCycle.extend cycle ext false
    ⟨c.frames, c.unnamedParse, c.defines, c.refs, outside⟩

def outsideLen (outside : List (Str × Frame)) : Nat :=
  (outside.map fun (n, p) => byteLen n + p.len).sum

def updatePortals (portals : Table Str StmtKind) (updates : List (Str × Option StmtKind)) :
    Table Str StmtKind :=
  updates.foldl
    (fun portals (name, bound) =>
      match bound with
      | some k =>
        if portals.length < cfg.maxPreparedStatements ∨ (portals.get name).isSome then
          portals.insert name k
        else portals
      | none => portals.remove name)
    portals

def ackedBehind (uncertain : Bool) (ext : ExtBatch) (s : Session) : Table Str AckedStmt :=
  trNoteDefinitions cfg ext.registry uncertain s.acked
    (s.extCycle.elim [] TrExtCycle.frames ++ ext.wire)

/-- A `Sync` outside a transaction: there is nothing to record. -/
def forgetCycle (uncertain : Bool) (ext : ExtBatch) (s : Session) : Session :=
  let defines := ext.defines ++ s.extCycle.elim [] TrExtCycle.defines
  { s with
    acked := if s.acked.isEmpty && defines.isEmpty then s.acked else ackedBehind cfg uncertain ext s
    extCycle := none
    extCycleDropped := false
    ts := if s.extCycleDropped then .default else s.ts }

def cycleBytes (cycle : Option TrExtCycle) (ext : ExtBatch) (outside : List (Str × Frame)) : Nat :=
  let unnamedLen :=
    (cycle.bind TrExtCycle.unnamedParse).elim 0 Frame.len + ext.unnamed.elim 0 Frame.len
  framesLen ext.batch + framesLen (cycle.elim [] TrExtCycle.frames) + unnamedLen + outsideLen outside

/-- A `Sync` inside a transaction: the cycle is recorded as one entry. -/
def recordCycle (r : Response) (uncertain : Bool) (ext : ExtBatch) (s : Session) : Session :=
  let route := ext.routeSql.or (s.extCycle.bind TrExtCycle.routeSql)
  let resolved := trExtendedSql route ext.refs ext.registry
  let scanned := if s.extCycleDropped then (StmtKind.commit, ⟨[], []⟩) else trCycleKind cfg s ext
  let outside := scanned.2.outside.filterMap fun name =>
    (s.acked.get name).map fun a => (name, a.parse)
  let s' := trAfterResponse cfg r resolved (some scanned.1) (cycleEntry s.extCycle ext resolved outside)
    (cycleBytes s.extCycle ext outside)
    { s with extCycle := none, extCycleDropped := false, acked := ackedBehind cfg uncertain ext s }
  let learns := !uncertain && s'.lastRfqStatus = .inBlock
  { s' with
    txPortals :=
      if learns then updatePortals cfg s'.txPortals scanned.2.portalUpdates else s'.txPortals }

/-- The branch of `tr_after_extended` for a batch that a `Sync` ends. -/
def trAfterSync (r : Response) (ext : ExtBatch) (s : Session) : Session :=
  let uncertain := s.lastResponseError || s.extCycle.isSome || s.copyInProgress
  let s := { s with acked := if s.extCycleDropped then [] else s.acked }
  if s.prevStatus ≠ .idle ∨ s.inTransaction then recordCycle cfg r uncertain ext s
  else forgetCycle cfg uncertain ext s

/-- `tr_after_extended` behind a batch that waits for `ReadyForQuery`. -/
def trAfterExtended (r : Response) (ext : ExtBatch) (s : Session) : Session :=
  if s.recordTx then trAfterSync cfg r ext s else s

/-- `tr_after_extended` behind one that does not. -/
def trAfterExtendedFlush (room : Bool) (ext : ExtBatch) (s : Session) : Session :=
  if s.recordTx then trAfterFlush cfg room ext s else s

end Recorder

end HeliosProxy.Replay
