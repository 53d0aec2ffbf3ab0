import HeliosProxy.Journal.Capture

/-!
# The transaction journal

An explicit transaction is built in the session's own slot and reaches the
committed store when the backend reports its commit; an auto-commit statement
goes there directly (`transaction_journal.rs` and `apply_ops`).
-/

namespace HeliosProxy.Journal

open Text

structure JournalEntry where
  sequence : Nat
  statement : Str
  parameters : List JournalValue
  paramTypes : List UInt32
  tag : Str
  protocol : WireProtocol
deriving DecidableEq

structure Savepoint where
  name : Str
  sequence : Nat
deriving DecidableEq

structure TransactionJournalEntry where
  txId : Nat
  entries : List JournalEntry
  currentSequence : Nat
  savepoints : List Savepoint
  commitSeq : Option Nat
  commitTag : Option Str
  incompleteReason : Option Str
deriving DecidableEq

def NewEntry.intoJournalEntry (e : NewEntry) (sequence : Nat) : JournalEntry where
  sequence := sequence
  statement := e.statement
  parameters := e.parameters
  paramTypes := e.paramTypes
  tag := e.tag
  protocol := e.protocol

/-- The bytes `estimate_params_size` counts for a value. -/
def JournalValue.size : JournalValue → Nat
  | .null => 1
  | .text s => byteLen s
  | .textRaw b | .binary b => b.length

namespace TransactionJournalEntry

def new (txId : Nat) : TransactionJournalEntry where
  txId := txId
  entries := []
  currentSequence := 0
  savepoints := []
  commitSeq := none
  commitTag := none
  incompleteReason := none

def markIncomplete (tx : TransactionJournalEntry) (reason : Str) : TransactionJournalEntry :=
  { tx with incompleteReason := tx.incompleteReason.or (some reason) }

def addEntry (tx : TransactionJournalEntry) (entry : JournalEntry) : TransactionJournalEntry :=
  { tx with currentSequence := entry.sequence, entries := tx.entries ++ [entry] }

def createSavepoint (tx : TransactionJournalEntry) (name : Str) : TransactionJournalEntry :=
  { tx with savepoints := tx.savepoints ++ [⟨name, tx.currentSequence⟩] }

/-- `rollback_to_savepoint`: the first mark of that name, or nothing. -/
def rollbackToSavepoint (tx : TransactionJournalEntry) (name : Str) :
    Option TransactionJournalEntry :=
  match tx.savepoints.findIdx? fun s => s.name == name with
  | none => none
  | some idx =>
    let sequence := (tx.savepoints[idx]?.map (·.sequence)).getD 0
    some { tx with
      entries := tx.entries.filter fun e => e.sequence ≤ sequence,
      savepoints := tx.savepoints.take (idx + 1) }

def totalSize (tx : TransactionJournalEntry) : Nat :=
  (tx.entries.map fun e => byteLen e.statement + (e.parameters.map JournalValue.size).sum).sum

end TransactionJournalEntry

structure CommittedStore where
  txs : List (TransactionJournalEntry × Nat)
  bytes : Nat
deriving DecidableEq

def CommittedStore.evict (maxCount maxBytes : Nat) : Nat → CommittedStore → CommittedStore
  | 0, store => store
  | fuel + 1, store =>
    if max maxCount 1 < store.txs.length ∨ maxBytes < store.bytes ∧ 1 < store.txs.length then
      match store.txs with
      | [] => store
      | (_, size) :: txs => evict maxCount maxBytes fuel ⟨txs, store.bytes - size⟩
    else store

def CommittedStore.push (store : CommittedStore) (tx : TransactionJournalEntry)
    (maxCount maxBytes : Nat) : CommittedStore :=
  CommittedStore.evict maxCount maxBytes (store.txs.length + 1)
    ⟨store.txs ++ [(tx, tx.totalSize)], store.bytes + tx.totalSize⟩

/-- `autoTxIds` numbers the auto-commit transactions; their ids are compared
with nothing. -/
structure TransactionJournal where
  committed : CommittedStore
  maxEntries : Nat
  maxSize : Nat
  enabled : Bool
  maxCommitted : Nat
  maxCommittedBytes : Nat
  nextCommitSeq : Nat
  autoTxIds : Nat
deriving DecidableEq

namespace TransactionJournal

def new (maxEntries maxSize maxCommitted maxCommittedBytes : Nat) : TransactionJournal :=
  ⟨⟨[], 0⟩, maxEntries, maxSize, true, maxCommitted, maxCommittedBytes, 1, 0⟩

/-- `push_entry`: the statement, or the text of the error. -/
def appendEntry (j : TransactionJournal) (tx : TransactionJournalEntry) (e : NewEntry) :
    Except Str TransactionJournalEntry :=
  if j.maxEntries ≤ tx.entries.length then
    .error "Internal error: Transaction journal entries limit exceeded"
  else if j.maxSize ≤ tx.totalSize then
    .error "Internal error: Transaction journal size limit exceeded"
  else .ok (tx.addEntry (e.intoJournalEntry (tx.currentSequence + 1)))

def pushCommitted (j : TransactionJournal) (tx : TransactionJournalEntry) (tag : Str) :
    TransactionJournal :=
  let tx := { tx with commitTag := some tag, commitSeq := some j.nextCommitSeq }
  { j with
    nextCommitSeq := j.nextCommitSeq + 1,
    committed := j.committed.push tx j.maxCommitted j.maxCommittedBytes }

/-- `record_committed_sync`: an empty transaction is dropped. -/
def recordCommittedSync (j : TransactionJournal) (tx : TransactionJournalEntry) (tag : Str) :
    TransactionJournal :=
  if !j.enabled || tx.entries.isEmpty then j else j.pushCommitted tx tag

end TransactionJournal

abbrev JournalState := TransactionJournal × Option TransactionJournalEntry

/-- Change the session's transaction if it has the id `txId`. -/
def modifyTx (slot : Option TransactionJournalEntry) (txId : Nat)
    (f : TransactionJournalEntry → TransactionJournalEntry) : Option TransactionJournalEntry :=
  slot.map fun tx => if tx.txId = txId then f tx else tx

def autoCommitTx (txId : Nat) (entries : List NewEntry) (incomplete : Option Str) :
    TransactionJournalEntry :=
  let tx := entries.foldl (fun (tx : TransactionJournalEntry) e =>
    tx.addEntry (e.intoJournalEntry (tx.currentSequence + 1))) (.new txId)
  match incomplete with
  | none => tx
  | some r => tx.markIncomplete r

/-- One turn of `apply_ops`. -/
def applyOp : JournalState → JournalOp → JournalState
  | (j, _), .begin txId => (j, some (.new txId))
  | (j, slot), .log txId entry =>
    (j, modifyTx slot txId fun tx =>
      match j.appendEntry tx entry with
      | .ok tx => tx
      | .error e => tx.markIncomplete ("journal cap: " ++ e))
  | (j, slot), .savepoint txId name => (j, modifyTx slot txId fun tx => tx.createSavepoint name)
  | (j, slot), .rollbackTo txId name =>
    (j, modifyTx slot txId fun tx =>
      match tx.rollbackToSavepoint name with
      | some tx => tx
      | none => tx.markIncomplete ("ROLLBACK TO unknown journal savepoint \"" ++ name ++ ['"']))
  | (j, slot), .incomplete txId reason => (j, modifyTx slot txId fun tx => tx.markIncomplete reason)
  | (j, slot), .commit txId tag =>
    match slot with
    | some tx => if tx.txId = txId then (j.recordCommittedSync tx tag, none) else (j, slot)
    | none => (j, slot)
  | (j, slot), .rollback txId => (j, slot.filter fun tx => tx.txId ≠ txId)
  | (j, slot), .preparedCommitted => (j, slot)
  | (j, slot), .autoCommit entries tag incomplete =>
    ({ j with autoTxIds := j.autoTxIds + 1 }.recordCommittedSync
      (autoCommitTx j.autoTxIds entries incomplete) tag, slot)

def applyOps (s : JournalState) (ops : List JournalOp) : JournalState := ops.foldl applyOp s

end HeliosProxy.Journal
