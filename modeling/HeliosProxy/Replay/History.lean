import HeliosProxy.Lib.Runs
import HeliosProxy.Replay.Recorder

/-!
# A recorded history is the transaction

What a backend executes of a session is followed next to what the proxy records
of it.  While the open transaction can be replayed, its history is what the
backend has executed since the transaction was opened, if two things hold of
every message: a query is text, and one that ends the transaction it was sent in
and leaves another one open is taken for a commit.
-/

namespace HeliosProxy.Replay

open Text Postgres Runs List Option

/-! ## What the backend executed -/

/-- A message, or the messages of one cycle, as the backend executed it. -/
inductive Item
  | query (q : WireStr)
  | cycle (frames : List Frame)
deriving DecidableEq

structure Backend where
  /-- The block behind the open cycle, or behind the last response. -/
  block : Block
  /-- The status last reported. -/
  ready : BlockStatus
  /-- What was executed since the open transaction was opened, up to the last
  response. -/
  log : List Item
  /-- The frames of the open cycle. -/
  cycle : Option (List Frame)

namespace Backend

def new : Backend := ⟨⟨.idle, false⟩, .idle, [], none⟩

/-- A message that ends with `ReadyForQuery`: `item` was executed behind `before`. -/
def respond (block : Block) (before : List Item) (item : Item) : Backend where
  block := { block with opened := false }
  ready := block.status
  log := if block.status = .idle then [] else if block.opened then [item] else before ++ [item]
  cycle := none

def before (b : Backend) : List Item :=
  match b.cycle with
  | none => b.log
  | some fs => (if b.block.opened then [] else b.log) ++ [.cycle fs]

def queried (b : Backend) (stmts : List BlockStmt) : Block :=
  { b.block with opened := false }.run stmts

def simple (b : Backend) (q : WireStr) (stmts : List BlockStmt) : Backend :=
  respond (b.queried stmts) b.before (.query q)

def sync (b : Backend) (frames : List Frame) (stmts : List BlockStmt) : Backend :=
  respond (b.block.run stmts) b.log (.cycle (b.cycle.getD [] ++ frames))

def flush (b : Backend) (frames : List Frame) (stmts : List BlockStmt) : Backend :=
  { b with block := b.block.run stmts, cycle := some (b.cycle.getD [] ++ frames) }

end Backend

/-! ## Runs -/

/-- A message of the session, with what its statements do to the transaction block. -/
inductive Event
  | simple (q : WireStr) (stmts : List BlockStmt) (r : Response)
  | sync (ext : ExtBatch) (stmts : List BlockStmt) (r : Response)
  | flush (ext : ExtBatch) (stmts : List BlockStmt) (room : Bool)

structure World where
  session : Session
  backend : Backend

def World.new (mode : TrMode) : World := ⟨.new mode, .new⟩

/-- The backend executes a message and the proxy records it.  A status that does not
follow from the statements is not reported. -/
def step (cfg : Settings) (w : World) : Event → Option World
  | .simple q stmts r =>
    let b := w.backend.simple q stmts
    if r.status = b.ready then some ⟨trAfterSimple cfg r q (w.session.answered r), b⟩ else none
  | .sync ext stmts r =>
    let b := w.backend.sync ext.wire stmts
    if r.status = b.ready then some ⟨trAfterExtended cfg r ext (w.session.answeredCycle r), b⟩ else none
  | .flush ext stmts room =>
    some ⟨trAfterExtendedFlush cfg room ext w.session, w.backend.flush ext.wire stmts⟩

/-! ## The history of the open transaction -/

def StatementLog.item (e : StatementLog) : Item :=
  match e.extended with
  | none => .query (.text e.sql)
  | some x => .cycle (x.unnamedParse.toList ++ x.frames)

def StatementLog.size (e : StatementLog) : Nat :=
  match e.extended with
  | none => byteLen e.sql
  | some x => framesLen x.frames + x.unnamedParse.elim 0 Frame.len + outsideLen x.outside

/-- The history is `log`, and within the limits. -/
structure Records (cfg : Settings) (ts : TransactionState) (log : List Item) : Prop where
  complete : ts.statements.map StatementLog.item = log
  bytes : ts.replayBytes = (ts.statements.map StatementLog.size).sum
  bytes_le : ts.replayBytes ≤ cfg.maxReplayBytes
  count_le : ts.statements.length ≤ cfg.maxReplayStatements

/-- In a transaction that can be replayed, with no cycle open, the history is what the
backend has executed. -/
def HistoryComplete (cfg : Settings) (w : World) : Prop :=
  w.session.inTransaction = true → w.session.ts.nonReplayable = false → w.backend.cycle = none →
    Records cfg w.session.ts w.backend.log

/-- A message that ends the transaction it was sent in, or in a cycle with, and leaves
another one open. -/
def Restarts (b : Backend) (after : Block) : Prop :=
  b.ready = .inBlock ∧ after.status = .inBlock ∧ after.opened = true

instance (b : Backend) (after : Block) : Decidable (Restarts b after) :=
  inferInstanceAs (Decidable (_ ∧ _ ∧ _))

/-- A query is text, and a message that restarts the transaction is taken for a
commit. -/
def Traceable (cfg : Settings) (w : World) : Event → Prop
  | .simple (.raw _) _ _ => False
  | .simple (.text sql) stmts _ =>
    Restarts w.backend (w.backend.queried stmts) → trClassify cfg.allowsCall sql = .commit
  | .sync ext stmts _ =>
    Restarts w.backend (w.backend.block.run stmts) → (trCycleKind cfg w.session ext).1 = .commit
  | .flush _ _ _ => True

instance (cfg : Settings) (w : World) (e : Event) : Decidable (Traceable cfg w e) := by
  rcases e with ⟨_ | _, _, _⟩ | _ | _ <;> unfold Traceable <;> infer_instance

/-! ## One entry -/

/-- `ts'` is `ts` with one entry more. -/
structure Appended (cfg : Settings) (ts : TransactionState) (entry : StatementLog) (entryBytes : Nat)
    (ts' : TransactionState) : Prop where
  replayable : ts.nonReplayable = false
  statements : ∃ sum, ts'.statements = ts.statements ++ [{ entry with resultChecksum := sum }]
  bytes : ts'.replayBytes = ts.replayBytes + entryBytes
  bytes_le : ts'.replayBytes ≤ cfg.maxReplayBytes
  count_le : ts'.statements.length ≤ cfg.maxReplayStatements

theorem Records.opened (cfg : Settings) : Records cfg .opened [] :=
  ⟨rfl, rfl, Nat.zero_le _, Nat.zero_le _⟩

theorem Records.append {cfg : Settings} {ts ts' : TransactionState} {log : List Item}
    {entry : StatementLog} (h : Records cfg ts log) (happ : Appended cfg ts entry entry.size ts') :
    Records cfg ts' (log ++ [entry.item]) := by
  obtain ⟨sum, hstatements⟩ := happ.statements
  refine ⟨?_, ?_, happ.bytes_le, happ.count_le⟩
  · rw [hstatements, map_append, h.complete]
    rfl
  · rw [happ.bytes, h.bytes, hstatements, map_append, sum_append, map_singleton,
      sum_singleton]
    rfl

structure Kept (s s' : Session) : Prop where
  mode : s'.mode = s.mode
  extCycle : s'.extCycle = s.extCycle
  extCycleDropped : s'.extCycleDropped = s.extCycleDropped
  inTransaction : s'.inTransaction = s.inTransaction
  copyInProgress : s'.copyInProgress = s.copyInProgress

section Record

variable {cfg : Settings} {r : Response} {prev : BlockStatus} {sql : Str} {k : StmtKind}
  {entry : StatementLog} {n : Nat} {s : Session} {ts : TransactionState}

/-- What `record` may do: give the history up, or append the entry. -/
inductive Recorded (cfg : Settings) (s : Session) (k : StmtKind) (entry : StatementLog) (n : Nat)
    (ts : TransactionState) (s' : Session) : Prop
  | gaveUp (hk : Kept s s') (hp : s'.prevStatus = s.prevStatus) (hu : s'.ts.nonReplayable = true)
  | appended (hk : Kept s s') (hp : s'.prevStatus = s.prevStatus)
      (hc : s.trReplayTainted = false) (hki : k ≠ .commit) (hs : s.lastRfqStatus ≠ .failed)
      (he : Appended cfg ts entry n s'.ts)

theorem record_recorded : Recorded cfg s k entry n ts (record cfg r prev sql k entry n s ts) := by
  rw [record]
  dsimp only
  split
  · next hup =>
    refine .gaveUp ⟨rfl, rfl, rfl, rfl, rfl⟩ rfl ?_
    split
    · exact hup
    · exact hup
  · next hdown =>
    simp only [TransactionState.noteKind_nonReplayable, Bool.or_eq_true, decide_eq_true_eq, not_or] at hdown
    obtain ⟨hreplayable, hstatus, htaint, hkind⟩ := hdown
    split
    · exact .gaveUp ⟨rfl, rfl, rfl, rfl, rfl⟩ rfl rfl
    · next hlimits =>
      simp only [not_or, not_le, not_lt, TransactionState.noteKind_statements,
        TransactionState.noteKind_replayBytes] at hlimits
      obtain ⟨hcount, hbytes, -⟩ := hlimits
      split
      · exact .gaveUp ⟨rfl, rfl, rfl, rfl, rfl⟩ rfl rfl
      · split
        · exact .gaveUp ⟨rfl, rfl, rfl, rfl, rfl⟩ rfl rfl
        · refine .appended ⟨rfl, rfl, rfl, rfl, rfl⟩ rfl (Bool.eq_false_iff.2 htaint) hkind hstatus ?_
          refine ⟨Bool.eq_false_iff.2 hreplayable,
            ⟨_, congrArg (· ++ [_]) (TransactionState.noteKind_statements ts k)⟩, ?_, ?_, ?_⟩
          · rw [TransactionState.noteKind_replayBytes]
          · rw [TransactionState.noteKind_replayBytes]
            exact hbytes
          · rw [TransactionState.noteKind_statements, length_append]
            exact hcount

/-- What `tr_after_response` does to a session in a recording mode: inside a
transaction it gives the history up, or appends the entry. -/
structure Responded (cfg : Settings) (s : Session) (k : StmtKind) (entry : StatementLog) (n : Nat)
    (s' : Session) : Prop where
  kept : Kept s s'
  prev : s'.prevStatus = s.lastRfqStatus
  failed : s.lastRfqStatus = .failed → s'.ts.nonReplayable = true
  entries : s.lastRfqStatus ≠ .idle → s'.ts.nonReplayable = false →
    s.trReplayTainted = false ∧ k ≠ .commit ∧
      Appended cfg (if s.prevStatus = .idle then .opened else s.ts) entry n s'.ts

theorem settle_kept (tracked : Bool) : Kept s (settle r tracked s) := ⟨rfl, rfl, rfl, rfl, rfl⟩

theorem Kept.trans {s s' s'' : Session} (h : Kept s s') (h' : Kept s' s'') : Kept s s'' :=
  ⟨h'.mode.trans h.mode, h'.extCycle.trans h.extCycle, h'.extCycleDropped.trans h.extCycleDropped,
    h'.inTransaction.trans h.inTransaction, h'.copyInProgress.trans h.copyInProgress⟩

theorem trAfterResponse_responded {sql : Option Str} {extendedKind : Option StmtKind}
    (hrecord : s.recordTx) (hcopy : s.copyInProgress = false) :
    Responded cfg s (extendedKind.getD (trClassify cfg.allowsCall (sql.getD []))) entry n
      (trAfterResponse cfg r sql extendedKind entry n s) := by
  rw [trAfterResponse, hrecord, Bool.not_true, Bool.false_and, if_neg Bool.false_ne_true,
    if_neg (by simp [hcopy])]
  dsimp only
  generalize (extendedKind.isNone && sql.isSome) = tracked
  have hstatus : (settle r tracked s).lastRfqStatus = s.lastRfqStatus := rfl
  have hsettled : (settle r tracked s).recordTx := hrecord
  rw [hsettled, hstatus]
  by_cases hidle : s.lastRfqStatus = .idle
  · have hleft : ∀ s' : Session, Kept s s' → s'.prevStatus = s.lastRfqStatus →
        Responded cfg s (extendedKind.getD (trClassify cfg.allowsCall (sql.getD []))) entry n s' :=
      fun s' hkept hprev => ⟨hkept, hprev, by simp [hidle], fun hne => absurd hidle hne⟩
    split
    · exact hleft _ (settle_kept tracked) rfl
    · exact hleft _ ⟨rfl, rfl, rfl, rfl, rfl⟩ rfl
  · rw [if_neg (by simp [hidle]), if_neg hidle]
    have htaint : (settle r tracked s).trReplayTainted = s.trReplayTainted := if_neg hidle
    have hts : (settle r tracked s).ts = s.ts := rfl
    rw [hts]
    cases @record_recorded cfg r s.prevStatus (sql.getD [])
      (extendedKind.getD (trClassify cfg.allowsCall (sql.getD []))) entry n (settle r tracked s)
      (if s.prevStatus = .idle then .opened else s.ts) with
    | gaveUp hkept hprev hup =>
      refine ⟨(settle_kept tracked).trans hkept, hprev, fun _ => hup, fun _ hdown => ?_⟩
      rw [hup] at hdown
      cases hdown
    | appended hkept hprev hclean hkind hnotFailed happended =>
      refine ⟨(settle_kept tracked).trans hkept, hprev, fun hfailed => absurd hfailed hnotFailed,
        fun _ _ => ⟨htaint ▸ hclean, hkind, happended⟩⟩

end Record

/-! ## One step -/

def TrExtCycle.wire (c : TrExtCycle) : List Frame := c.unnamedParse.toList ++ c.frames

/-- The recorder follows the backend.  Between responses it holds the open cycle,
unless it dropped it. -/
structure Follows (cfg : Settings) (w : World) : Prop where
  recording : w.session.recordTx = true
  copying : w.session.copyInProgress = false
  prev : w.session.prevStatus = w.backend.ready
  inTransaction : w.session.inTransaction = decide (w.backend.ready ≠ .idle)
  settled : w.backend.cycle = none → w.backend.block = ⟨w.backend.ready, false⟩
  opened : w.backend.ready = .idle → w.backend.block.OpenedHere
  cycle : w.session.extCycleDropped = false → w.session.extCycle.map TrExtCycle.wire = w.backend.cycle
  failed : w.backend.ready = .failed → w.session.ts.nonReplayable = true
  history : w.backend.ready ≠ .idle → w.session.ts.nonReplayable = false →
    Records cfg w.session.ts w.backend.log

theorem follows_new (cfg : Settings) {mode : TrMode} (h : mode = .select ∨ mode = .transaction) :
    Follows cfg (.new mode) where
  recording := by rcases h with rfl | rfl <;> rfl
  copying := rfl
  prev := rfl
  inTransaction := rfl
  settled _ := rfl
  opened _ hidle := absurd rfl hidle
  cycle _ := rfl
  failed h := by cases h
  history hidle := absurd rfl hidle

section Step

variable {cfg : Settings} {w : World} {r : Response} {k : StmtKind} {entry : StatementLog}
  {n : Nat} {s s' : Session} {after : Block} {before : List Item} {item : Item}

/-- The session a response is recorded in, behind what it was in front of it. -/
structure Awaits (w : World) (after : Block) (s : Session) : Prop where
  recording : s.recordTx = true
  copying : s.copyInProgress = false
  prev : s.prevStatus = w.session.prevStatus
  ts : s.ts = w.session.ts
  status : s.lastRfqStatus = after.status
  inTransaction : s.inTransaction = decide (after.status ≠ .idle)
  extCycle : s.extCycle = none
  extCycleDropped : s.extCycleDropped = false

theorem records_respond (h : Follows cfg w) (hopened : w.backend.ready = .idle → after.OpenedHere)
    (hrestart : ¬ Restarts w.backend after) (hbefore : before = w.backend.log)
    (hstatus : after.status = .inBlock)
    (happended : Appended cfg (if w.backend.ready = .idle then .opened else w.session.ts) entry
      entry.size s'.ts) :
    Records cfg s'.ts (Backend.respond after before entry.item).log := by
  have hne : after.status ≠ .idle := by rw [hstatus]; decide
  rw [Backend.respond, hbefore]
  rw [if_neg hne]
  by_cases hidle : w.backend.ready = .idle
  · rw [if_pos (hopened hidle hne)]
    rw [if_pos hidle] at happended
    exact (Records.opened cfg).append happended
  · rw [if_neg hidle] at happended
    have hready : w.backend.ready = .inBlock := by
      cases hr : w.backend.ready with
      | idle => exact absurd hr hidle
      | inBlock => rfl
      | failed => exact absurd (h.failed hr) (by rw [happended.replayable]; decide)
    rw [if_neg fun hopen => hrestart ⟨hready, hstatus, hopen⟩]
    exact (h.history hidle happended.replayable).append happended

theorem follows_respond (h : Follows cfg w) (ha : Awaits w after s)
    (hrestart : Restarts w.backend after → k = .commit)
    (hentry : s.trReplayTainted = false → k ≠ .commit →
      entry.item = item ∧ before = w.backend.log ∧ (w.backend.ready = .idle → after.OpenedHere))
    (hsize : entry.size = n) (hr : Responded cfg s k entry n s') :
    Follows cfg ⟨s', Backend.respond after before item⟩ where
  recording := by
    have hmode := hr.kept.mode
    have hrecording := ha.recording
    rw [Session.recordTx] at hrecording ⊢
    rwa [hmode]
  copying := hr.kept.copyInProgress.trans ha.copying
  prev := hr.prev.trans ha.status
  inTransaction := hr.kept.inTransaction.trans ha.inTransaction
  settled _ := rfl
  opened hidle hne := absurd hidle hne
  cycle _ := by
    rw [hr.kept.extCycle, ha.extCycle]
    rfl
  failed hfailed := hr.failed (ha.status.trans hfailed)
  history hidle hreplayable := by
    have hstatus : s.lastRfqStatus ≠ .idle := by rw [ha.status]; exact hidle
    obtain ⟨hclean, hkind, happended⟩ := hr.entries hstatus hreplayable
    obtain ⟨rfl, hbefore, hopened⟩ := hentry hclean hkind
    have hblock : after.status = .inBlock := by
      cases hs : after.status with
      | idle => exact absurd hs hidle
      | inBlock => rfl
      | failed => exact absurd (hr.failed (ha.status.trans hs)) (by rw [hreplayable]; decide)
    rw [ha.prev, h.prev, ha.ts, ← hsize] at happended
    exact records_respond h hopened (fun hre => hkind (hrestart hre)) hbefore hblock happended

variable {stmts : List BlockStmt}

theorem Follows.simple (h : Follows cfg w) {sql : Str}
    (hrestart : Restarts w.backend (w.backend.queried stmts) → trClassify cfg.allowsCall sql = .commit)
    (hstatus : r.status = (w.backend.simple (.text sql) stmts).ready) :
    Follows cfg ⟨trAfterSimple cfg r (.text sql) (w.session.answered r),
      w.backend.simple (.text sql) stmts⟩ := by
  let waiting : Session :=
    { (w.session.answered r).interrupt with
      acked := if trTouchesStatements sql then [] else w.session.acked }
  have ha : Awaits w (w.backend.queried stmts) waiting :=
    ⟨h.recording, h.copying, rfl, rfl, hstatus,
      congrArg (fun st => decide (st ≠ BlockStatus.idle)) hstatus, rfl, rfl⟩
  have hresponded := @trAfterResponse_responded cfg r ⟨sql, none, none⟩ (byteLen sql) waiting (some sql)
    none ha.recording ha.copying
  refine follows_respond h ha hrestart (fun hclean _ => ?_) rfl hresponded
  have htaint : (w.session.trReplayTainted || r.transformed || w.session.extCycleDropped ||
    w.session.extCycle.isSome) = false := hclean
  simp only [Bool.or_eq_false_iff] at htaint
  obtain ⟨⟨-, hdropped⟩, hopen⟩ := htaint
  have hcycle : w.backend.cycle = none := by
    rw [← h.cycle hdropped, not_isSome_iff_eq_none.1 (Bool.eq_false_iff.1 hopen)]
    rfl
  have hblock := h.settled hcycle
  refine ⟨rfl, by rw [Backend.before, hcycle], fun hidle => ?_⟩
  have hfirst : { w.backend.block with opened := false } = w.backend.block := by rw [hblock]
  rw [Backend.queried, hfirst]
  exact (h.opened hidle).run stmts

theorem extend_wire (cycle : Option TrExtCycle) (ext : ExtBatch) (writes : Bool) :
    (TrExtCycle.extend cycle ext writes).wire = (cycle.map TrExtCycle.wire).getD [] ++ ext.wire := by
  cases cycle with
  | none => rfl
  | some c => exact (append_assoc _ _ _).symm

theorem cycleEntry_size (cycle : Option TrExtCycle) (ext : ExtBatch) (sql : Option Str)
    (outside : List (Str × Frame)) :
    (cycleEntry cycle ext sql outside).size = cycleBytes cycle ext outside := by
  cases cycle with
  | none =>
    simp only [cycleEntry, StatementLog.size, TrExtCycle.extend, cycleBytes, bind_none,
      elim_none, framesLen, map_nil, sum_nil]
    omega
  | some c =>
    simp only [cycleEntry, StatementLog.size, TrExtCycle.extend, cycleBytes, bind_some,
      elim_some, ExtBatch.wire, framesLen_append, framesLen_toList]
    omega

theorem Responded.portals (h : Responded cfg s k entry n s') (portals : Table Str StmtKind) :
    Responded cfg s k entry n { s' with txPortals := portals } :=
  ⟨⟨h.kept.mode, h.kept.extCycle, h.kept.extCycleDropped, h.kept.inTransaction, h.kept.copyInProgress⟩,
    h.prev, h.failed, h.entries⟩

variable {ext : ExtBatch}

/-- A `Sync` inside a transaction, where `s` is the session it was answered in. -/
theorem Follows.recordCycle (h : Follows cfg w)
    {uncertain : Bool}
    (ha : Awaits w (w.backend.block.run stmts) { s with extCycle := none, extCycleDropped := false })
    (hcycle : s.extCycle = w.session.extCycle) (hdropped : s.extCycleDropped = w.session.extCycleDropped)
    (hrestart : s.extCycleDropped = false → Restarts w.backend (w.backend.block.run stmts) →
      (trCycleKind cfg s ext).1 = .commit) :
    Follows cfg ⟨recordCycle cfg r uncertain ext s, w.backend.sync ext.wire stmts⟩ := by
  rw [Replay.recordCycle]
  generalize hscanned : (if s.extCycleDropped then (StmtKind.commit, ⟨[], []⟩) else trCycleKind cfg s ext)
    = scanned
  have hkind : s.extCycleDropped = false → scanned.1 = (trCycleKind cfg s ext).1 := by
    intro hkept
    rw [← hscanned, if_neg (by simp [hkept])]
  have hlost : scanned.1 ≠ .commit → s.extCycleDropped = false := by
    intro hne
    by_contra hdrop
    rw [← hscanned, if_pos (by simpa using hdrop)] at hne
    exact hne rfl
  have hwaits : Awaits w (w.backend.block.run stmts)
      { s with extCycle := none, extCycleDropped := false, acked := ackedBehind cfg uncertain ext s } :=
    ⟨ha.recording, ha.copying, ha.prev, ha.ts, ha.status, ha.inTransaction, rfl, rfl⟩
  have hresponded := fun sql outside => @trAfterResponse_responded cfg r
    (cycleEntry s.extCycle ext sql outside) (cycleBytes s.extCycle ext outside) _ sql (some scanned.1)
    hwaits.recording hwaits.copying
  refine follows_respond h hwaits ?_ ?_ (cycleEntry_size _ _ _ _) ((hresponded _ _).portals _)
  · intro hre
    by_contra hne
    exact hne ((hkind (hlost hne)).trans (hrestart (hlost hne) hre))
  · intro _ hne
    refine ⟨congrArg Item.cycle ?_, rfl, fun hidle => (h.opened hidle).run stmts⟩
    have hwire := extend_wire s.extCycle ext false
    rwa [hcycle, h.cycle (hdropped ▸ hlost hne), ← hcycle] at hwire

theorem Follows.sync (h : Follows cfg w)
    (hrestart : Restarts w.backend (w.backend.block.run stmts) →
      (trCycleKind cfg w.session ext).1 = .commit)
    (hstatus : r.status = (w.backend.sync ext.wire stmts).ready) :
    Follows cfg ⟨trAfterExtended cfg r ext (w.session.answeredCycle r), w.backend.sync ext.wire stmts⟩ := by
  have hin := congrArg (fun st => decide (st ≠ BlockStatus.idle)) hstatus
  have hrecording : (w.session.answeredCycle r).recordTx := h.recording
  rw [trAfterExtended, if_pos hrecording, trAfterSync]
  dsimp only
  split
  · refine h.recordCycle ⟨h.recording, h.copying, rfl, rfl, hstatus, hin, rfl, rfl⟩ rfl rfl ?_
    intro hkept hre
    have hkind := hrestart hre
    rwa [hkept]
  · next hout =>
    rw [not_or] at hout
    have hprev : w.session.prevStatus = .idle := by
      by_contra hne
      exact hout.1 hne
    have hidle : (w.backend.sync ext.wire stmts).ready = .idle := by
      by_contra hne
      exact hout.2 (hin.trans (decide_eq_true hne))
    exact
      { recording := h.recording
        copying := h.copying
        prev := hprev.trans hidle.symm
        inTransaction := hin
        settled := fun _ => rfl
        opened := fun _ hne => absurd hidle hne
        cycle := fun _ => rfl
        failed := fun hfailed => by rw [hidle] at hfailed; cases hfailed
        history := fun hne => absurd hidle hne }

theorem trAfterFlush_cases (room : Bool) (ext : ExtBatch) (s : Session) :
    (∃ ts, ts.nonReplayable ∧
      trAfterFlush cfg room ext s = { s with ts, extCycle := none, extCycleDropped := true }) ∨
    ∃ writes,
      trAfterFlush cfg room ext s = { s with extCycle := some (.extend s.extCycle ext writes) } := by
  rw [trAfterFlush]
  split
  · exact .inl ⟨_, rfl, rfl⟩
  · split
    · next hup => exact .inl ⟨_, hup, rfl⟩
    · exact .inr ⟨_, rfl⟩

theorem Follows.flush (h : Follows cfg w) (ext : ExtBatch) (stmts : List BlockStmt) (room : Bool) :
    Follows cfg ⟨trAfterExtendedFlush cfg room ext w.session, w.backend.flush ext.wire stmts⟩ := by
  rw [trAfterExtendedFlush, if_pos h.recording]
  obtain ⟨ts, hup, heq⟩ | ⟨writes, heq⟩ := trAfterFlush_cases room ext w.session
  · rw [heq]
    exact
      { recording := h.recording
        copying := h.copying
        prev := h.prev
        inTransaction := h.inTransaction
        settled := fun hnone => nomatch hnone
        opened := fun hidle => (h.opened hidle).run stmts
        cycle := fun hkept => nomatch hkept
        failed := fun _ => hup
        history := fun _ hdown => by rw [hup] at hdown; cases hdown }
  · rw [heq]
    exact
      { recording := h.recording
        copying := h.copying
        prev := h.prev
        inTransaction := h.inTransaction
        settled := fun hnone => nomatch hnone
        opened := fun hidle => (h.opened hidle).run stmts
        cycle := fun hkept => by
          rw [map_some, extend_wire, h.cycle hkept]
          rfl
        failed := h.failed
        history := h.history }

theorem Follows.step (h : Follows cfg w) {e : Event} {w' : World} (ht : Traceable cfg w e)
    (hstep : Replay.step cfg w e = some w') : Follows cfg w' := by
  cases e with
  | simple q stmts r =>
    cases q with
    | raw bytes => cases ht
    | text sql =>
      simp only [Replay.step, ite_none_right_eq_some, Option.some.injEq] at hstep
      obtain ⟨hstatus, rfl⟩ := hstep
      exact h.simple ht hstatus
  | sync ext stmts r =>
    simp only [Replay.step, ite_none_right_eq_some, Option.some.injEq] at hstep
    obtain ⟨hstatus, rfl⟩ := hstep
    exact h.sync ht hstatus
  | flush ext stmts room =>
    cases hstep
    exact h.flush ext stmts room

end Step

/-! ## Whole runs -/

/-- In every run of traceable messages, the history of a transaction that can be
replayed is what the backend has executed of it. -/
theorem history_complete (cfg : Settings) {mode : TrMode} {events : List Event} {w : World}
    (hmode : mode = .select ∨ mode = .transaction)
    (htraceable : Along (step cfg) (Traceable cfg) (.new mode) events)
    (hrun : run (step cfg) (.new mode) events = some w) : HistoryComplete cfg w := by
  have h : Follows cfg w := run_invariant_along (fun _ _ _ h ht hs => h.step ht hs)
    (follows_new cfg hmode) htraceable hrun
  intro hin hreplayable _
  have hready : w.backend.ready ≠ .idle := of_decide_eq_true (h.inTransaction.symm.trans hin)
  exact h.history hready hreplayable

/-! ## Single runs -/

def sampleSettings : Settings where
  maxPreparedStatements := 100
  maxReplayStatements := 100
  maxReplayBytes := 10000
  allowsCall _ := false
  lossy _ := []

def inBlockResponse : Response := ⟨.inBlock, false, 7, false, false, true, []⟩

def sampleBegin : Event := .simple (.text "BEGIN") [.begin] inBlockResponse

/-- `UPDATE t SET x = 1` as the frames of a cycle, the first two sent ahead. -/
def sampleParse : Frame := ⟨List.replicate 27 0, .parse unnamed (.text "UPDATE t SET x = 1")⟩

def sampleBind : Frame := ⟨List.replicate 13 0, .bind unnamed unnamed⟩

def sampleChunk : ExtBatch := ⟨[sampleParse, sampleBind, ⟨List.replicate 5 0, .flush⟩], none, [], none, [], []⟩

def sampleRest : ExtBatch :=
  ⟨[⟨List.replicate 10 0, .execute unnamed⟩, ⟨List.replicate 5 0, .sync⟩], none, [], none, [], []⟩

def sampleEvents : List Event :=
  [sampleBegin, .flush sampleChunk [] true, .sync sampleRest [.other] inBlockResponse]

structure View where
  inTransaction : Bool
  nonReplayable : Bool
  cycleOpen : Bool
  history : List Item
  log : List Item
deriving DecidableEq

def World.view (w : World) : View where
  inTransaction := w.session.inTransaction
  nonReplayable := w.session.ts.nonReplayable
  cycleOpen := w.backend.cycle.isSome
  history := w.session.ts.statements.map StatementLog.item
  log := w.backend.log

theorem history_complete_of_cycle :
    ∃ w, run (step sampleSettings) (.new .transaction) sampleEvents = some w ∧
      w.view.inTransaction = true ∧ w.view.nonReplayable = false ∧ w.view.history.length = 2 ∧
      HistoryComplete sampleSettings w := by
  have hview : ((run (step sampleSettings) (.new .transaction) sampleEvents).map fun w =>
      (w.view.inTransaction, w.view.nonReplayable, w.view.history.length)) = some (true, false, 2) := by
    decide
  obtain ⟨w, hrun, hw⟩ := map_eq_some_iff.1 hview
  simp only [Prod.mk.injEq] at hw
  have htraceable : Along (step sampleSettings) (Traceable sampleSettings) (.new .transaction) sampleEvents := by
    decide
  exact ⟨w, hrun, hw.1, hw.2.1, hw.2.2, history_complete _ (.inr rfl) htraceable hrun⟩

def latinInsert : WireStr :=
  .raw ("INSERT INTO t VALUES ('é')".toList.map fun c => UInt8.ofNat c.toNat)

/-- A query that is not UTF-8 is recorded as an empty one. -/
theorem not_history_complete :
    ∃ w, run (step sampleSettings) (.new .transaction)
        [sampleBegin, .simple latinInsert [.other] inBlockResponse] = some w ∧
      ¬ HistoryComplete sampleSettings w := by
  have hview : (run (step sampleSettings) (.new .transaction)
      [sampleBegin, .simple latinInsert [.other] inBlockResponse]).map World.view =
        some ⟨true, false, false, [.query (.text "BEGIN"), .query (.text [])],
          [.query (.text "BEGIN"), .query latinInsert]⟩ := by
    decide
  obtain ⟨w, hrun, hw⟩ := map_eq_some_iff.1 hview
  simp only [World.view, View.mk.injEq, isSome_eq_false_iff, isNone_iff_eq_none] at hw
  obtain ⟨hin, hreplayable, hcycle, hstatements, hlog⟩ := hw
  refine ⟨w, hrun, fun hcomplete => ?_⟩
  have hsame := (hcomplete hin hreplayable hcycle).complete
  rw [hstatements, hlog] at hsame
  exact absurd hsame (by decide)

/-- `ROLLBACK AND CHAIN` is no commit: the history goes on behind it with what it
rolled back. -/
example :
    (run (step sampleSettings) (.new .transaction)
        [sampleBegin, .simple (.text "DELETE FROM t") [.other] inBlockResponse,
          .simple (.text "ROLLBACK AND CHAIN") [.rollback true] inBlockResponse]).map World.view =
      some ⟨true, false, false,
        [.query (.text "BEGIN"), .query (.text "DELETE FROM t"),
          .query (.text "ROLLBACK AND CHAIN")],
        [.query (.text "ROLLBACK AND CHAIN")]⟩ := by
  decide

end HeliosProxy.Replay
