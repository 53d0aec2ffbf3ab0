import HeliosProxy.Journal.SimpleCycle
import HeliosProxy.Journal.TransactionJournal
import HeliosProxy.Lib.Runs

/-!
# The committed history of a session

The committed store is meant to hold, in commit order, the strings whose
inserts became durable.  Which transaction a string belongs to, and whether it
committed, is what the capture infers from the last tag and the status.
-/

namespace HeliosProxy.Journal

open Text Postgres HeliosProxy.Lists List Option

/-! ## Inserts -/

/-- `INSERT INTO table VALUES (value)`. -/
structure Insert where
  table : Str
  value : Str
  plain : PlainName table
  digits : value.all Char.isDigit = true

instance : DecidableEq Insert := fun a b =>
  decidable_of_iff (a.table = b.table ∧ a.value = b.value) <| by
    cases a
    cases b
    simp

def Insert.text (i : Insert) : Str :=
  "INSERT INTO " ++ (i.table ++ (" VALUES (" ++ (i.value ++ ")")))

theorem Insert.partText (i : Insert) : PartText i.text where
  nonempty h := by cases h
  trimmed := by
    refine trim_of_ends rfl ?_
    unfold Insert.text
    rw [← append_assoc, ← append_assoc, ← append_assoc, getLast?_append]
    rfl
  free c hc := by
    have hfixed : ∀ c ∈ "INSERT INTO ".toList ++ " VALUES (".toList ++ ")".toList,
        c ∉ ";'\"-/$".toList :=
      all_iff_forall_prop.1 (by decide)
    have hplain : ∀ c, plainChar c → c ∉ ";'\"-/$".toList := fun c =>
      plainChar_forall (fun c => c ∉ ";'\"-/$".toList) (by decide)
    unfold Insert.text at hc
    simp only [mem_append] at hc hfixed
    rcases hc with hc | hc | hc | hc | hc
    · exact hfixed c (.inl (.inl hc))
    · exact hplain c (List.all_eq_true.mp i.plain.chars c hc)
    · exact hfixed c (.inl (.inr hc))
    · exact hplain c (by simp [plainChar, List.all_eq_true.mp i.digits c hc])
    · exact hfixed c (.inr hc)

theorem Insert.classifySingle_text (U : UnicodeTables) (i : Insert) :
    classifySingle U i.text = .write := by
  have hlead : leadingRest i.text = false := rfl
  rw [classifySingle, statementBody_eq rfl rfl]
  rfl

def insertForm (U : UnicodeTables) : WriteForm U Insert where
  text := Insert.text
  tag _ := "INSERT 0 1"
  part := Insert.partText
  kind := Insert.classifySingle_text U
  notCommit _ := rfl
  notPrepared _ := rfl

/-! ## The journal without its caps -/

def TransactionJournal.hasRoom (j : TransactionJournal) (tx : TransactionJournalEntry) : Bool :=
  j.committed.txs.length + 1 ≤ max j.maxCommitted 1 &&
    (j.committed.bytes + tx.totalSize ≤ j.maxCommittedBytes || j.committed.txs.isEmpty)

def opFits : JournalState → JournalOp → Bool
  | (j, slot), .log txId _ =>
    slot.all fun tx => tx.txId != txId || tx.entries.length < j.maxEntries &&
      tx.totalSize < j.maxSize
  | (j, slot), .commit txId _ =>
    slot.all fun tx => tx.txId != txId || tx.entries.isEmpty || j.hasRoom tx
  | (j, _), .autoCommit entries _ incomplete =>
    j.hasRoom (autoCommitTx j.autoTxIds entries incomplete)
  | _, _ => true

def opsFit : JournalState → List JournalOp → Bool
  | _, [] => true
  | s, op :: ops => opFits s op && opsFit (applyOp s op) ops

def TransactionJournalEntry.statements (tx : TransactionJournalEntry) : List Str :=
  tx.entries.map (·.statement)

def TransactionJournal.statements (j : TransactionJournal) : List Str :=
  j.committed.txs.flatMap fun p => p.1.statements

def TransactionJournal.completeStatements (j : TransactionJournal) : List Str :=
  (j.committed.txs.filter fun p => p.1.incompleteReason.isNone).flatMap fun p => p.1.statements

/-! ## Sessions -/

/-- A string as it was sent: the number of its cycle and its text. -/
structure Sent where
  cycle : Nat
  text : Str
deriving DecidableEq

structure JournaledSession where
  block : Option (List Sent)
  /-- The strings with a durable insert, in commit order. -/
  durable : List Sent
  cycles : Nat
  capturing : Capturing
  journal : TransactionJournal
  slot : Option TransactionJournalEntry

namespace JournaledSession

variable (U : UnicodeTables)

def init (maxStatementBytes : Nat) (j : TransactionJournal) : JournaledSession where
  block := none
  durable := []
  cycles := 0
  capturing := ⟨.new maxStatementBytes, false⟩
  journal := j
  slot := none

def sent (s : JournaledSession) (c : Cycle Insert) : Sent := ⟨s.cycles, (insertForm U).sql c.stmts⟩

def executed (s : JournaledSession) (c : Cycle Insert) : Exec Sent :=
  exec s.block (c.stmts.map (Stmt.map fun _ => s.sent U c))

def observed (s : JournaledSession) (c : Cycle Insert) : Capturing × List JournalOp :=
  s.capturing.simpleCycle U ((insertForm U).sql c.stmts) (c.stmts.map (insertForm U).stmtTag)
    (statusOf (s.executed U c).block)

def step (s : JournaledSession) (c : Cycle Insert) : Option JournaledSession :=
  if byteLen ((insertForm U).sql c.stmts) ≤ s.capturing.cap.maxStatementBytes ∧
      opsFit (s.journal, s.slot) (s.observed U c).2 then
    some
      { block := (s.executed U c).block,
        durable := (s.executed U c).durable.foldl addNew s.durable,
        cycles := s.cycles + 1,
        capturing := (s.observed U c).1,
        journal := (applyOps (s.journal, s.slot) (s.observed U c).2).1,
        slot := (applyOps (s.journal, s.slot) (s.observed U c).2).2 }
  else none

end JournaledSession

/-- The store holds every string with a durable insert, in commit order, and no
string whose inserts were all rolled back. -/
@[mk_iff]
structure HistoryFaithful (s : JournaledSession) : Prop where
  committed : (s.durable.map Sent.text).Sublist s.journal.statements
  nothingElse : s.journal.completeStatements.Sublist
    (((s.block.getD []).foldl addNew s.durable).map Sent.text)

instance (s : JournaledSession) : Decidable (HistoryFaithful s) :=
  decidable_of_iff' _ (historyFaithful_iff s)

/-- What the capture takes a cycle for is what PostgreSQL does with it:

* outside a block before and after, a string with an insert commits one;
* with a block open after, no insert is committed or rolled back;
* where a block ends, its inserts and the string's are committed if the string
  ends with a `COMMIT` the capture sees, and nothing is committed otherwise. -/
def CycleSettled (U : UnicodeTables) (s : JournaledSession) (c : Cycle Insert) : Prop :=
  match s.block, (s.executed U c).block with
  | none, none => hasWrite c.stmts = true → s.sent U c ∈ (s.executed U c).durable
  | _, some _ => (s.executed U c).durable = [] ∧ (s.executed U c).undone = []
  | some old, none =>
    if commitSeen c.stmts then
      (∀ p ∈ old, p ∈ (s.executed U c).durable) ∧
        (hasWrite c.stmts = true → s.sent U c ∈ (s.executed U c).durable)
    else (s.executed U c).durable = []

instance (U : UnicodeTables) (s : JournaledSession) (c : Cycle Insert) :
    Decidable (CycleSettled U s c) := by
  unfold CycleSettled
  split <;> infer_instance

/-! ## The journal's operations, while nothing is dropped -/

/-- The journal records, and its store holds the statements `texts`, all in
complete transactions. -/
structure TransactionJournal.Holds (j : TransactionJournal) (texts : List Str) : Prop where
  enabled : j.enabled = true
  statements : j.statements = texts
  complete : ∀ p ∈ j.committed.txs, p.1.incompleteReason = none

/-- The session's slot holds the complete transaction `txId` of the statements
`texts`, or nothing. -/
def SlotHolds (slot : Option TransactionJournalEntry) (txId : Option Nat) (texts : List Str) :
    Prop :=
  match txId with
  | none => slot = none
  | some id => ∃ tx, slot = some tx ∧ tx.txId = id ∧ tx.statements = texts ∧
      tx.incompleteReason = none

section Ops

variable {j : TransactionJournal} {texts more : List Str}

theorem TransactionJournal.Holds.completeStatements (h : j.Holds texts) :
    j.completeStatements = texts := by
  rw [TransactionJournal.completeStatements, filter_eq_self.mpr, ← h.statements]
  · rfl
  · intro p hp
    rw [h.complete p hp]
    rfl

theorem evict_of_room {maxCount maxBytes : Nat} {store : CommittedStore}
    (hcount : store.txs.length ≤ max maxCount 1)
    (hbytes : store.bytes ≤ maxBytes ∨ store.txs.length ≤ 1) (fuel : Nat) :
    CommittedStore.evict maxCount maxBytes fuel store = store := by
  cases fuel with
  | zero => rfl
  | succ fuel =>
    rw [CommittedStore.evict, if_neg]
    omega

theorem TransactionJournal.Holds.recordCommittedSync (h : j.Holds texts)
    {tx : TransactionJournalEntry} (hstatements : tx.statements = more)
    (hcomplete : tx.incompleteReason = none)
    (hroom : (tx.entries.isEmpty || j.hasRoom tx)) (tag : Str) :
    (j.recordCommittedSync tx tag).Holds (texts ++ more) := by
  unfold TransactionJournal.recordCommittedSync
  by_cases hempty : tx.entries.isEmpty
  · have hnil : more = [] := by
      rw [← hstatements, TransactionJournalEntry.statements, List.isEmpty_iff.mp hempty]
      rfl
    rw [hempty, Bool.or_true, hnil, List.append_nil]
    exact h
  · rw [Bool.not_eq_true] at hempty
    rw [hempty, Bool.false_or, TransactionJournal.hasRoom, Bool.and_eq_true, decide_eq_true_eq,
      Bool.or_eq_true, decide_eq_true_eq, List.isEmpty_iff] at hroom
    obtain ⟨hcount, hbytes⟩ := hroom
    rw [hempty, h.enabled]
    let tx' : TransactionJournalEntry :=
      { tx with commitTag := some tag, commitSeq := some j.nextCommitSeq }
    have hpush : j.committed.push tx' j.maxCommitted j.maxCommittedBytes =
        ⟨j.committed.txs ++ [(tx', tx'.totalSize)], j.committed.bytes + tx'.totalSize⟩ := by
      refine evict_of_room (by simpa using hcount) ?_ _
      refine hbytes.imp (fun hb => hb) fun hnil => ?_
      simp [hnil]
    change (j.pushCommitted tx tag).Holds (texts ++ more)
    have htxs : (j.pushCommitted tx tag).committed.txs =
      j.committed.txs ++ [(tx', tx'.totalSize)] := by
      exact congrArg CommittedStore.txs hpush
    refine ⟨h.enabled, ?_, ?_⟩
    · rw [TransactionJournal.statements, htxs, ← hstatements, ← h.statements]
      simp [TransactionJournal.statements, TransactionJournalEntry.statements, tx']
    · intro p hp
      rw [htxs] at hp
      rcases mem_append.mp hp with hp | hp
      · exact h.complete p hp
      · rw [mem_singleton.mp hp]
        exact hcomplete

theorem applyOps_append (s : JournalState) (ops ops' : List JournalOp) :
    applyOps s (ops ++ ops') = applyOps (applyOps s ops) ops' := foldl_append

theorem opsFit_append (s : JournalState) (ops ops' : List JournalOp) :
    opsFit s (ops ++ ops') = (opsFit s ops && opsFit (applyOps s ops) ops') := by
  induction ops generalizing s with
  | nil => rfl
  | cons op ops ih =>
    rw [cons_append, opsFit, ih, ← Bool.and_assoc]
    rfl

variable {slot : Option TransactionJournalEntry} {id : Nat}

theorem applyOps_logOps
    (hslot : SlotHolds slot (some id) texts) (entry : Option NewEntry)
    (hfit : opsFit (j, slot) (logOps id (entry.map (·, none)))) :
    ∃ slot', applyOps (j, slot) (logOps id (entry.map (·, none))) = (j, slot') ∧
      SlotHolds slot' (some id) (texts ++ (entry.map (·.statement)).toList) := by
  cases entry with
  | none => exact ⟨slot, rfl, by rwa [map_none, toList_none, List.append_nil]⟩
  | some e =>
    obtain ⟨tx, rfl, hid, hstatements, hcomplete⟩ := hslot
    have hroom : tx.entries.length < j.maxEntries ∧ tx.totalSize < j.maxSize := by
      change ((tx.txId != id || tx.entries.length < j.maxEntries && tx.totalSize < j.maxSize) &&
        true) at hfit
      simpa [hid] using hfit
    have happend :
      j.appendEntry tx e = .ok (tx.addEntry (e.intoJournalEntry (tx.currentSequence + 1))) := by
      rw [TransactionJournal.appendEntry, if_neg (by omega), if_neg (by omega)]
    refine ⟨some (tx.addEntry (e.intoJournalEntry (tx.currentSequence + 1))), ?_, _, rfl, hid, ?_,
      hcomplete⟩
    · change (j, modifyTx (some tx) id _) = _
      rw [modifyTx, map_some, if_pos hid, happend]
    · simp [TransactionJournalEntry.statements, TransactionJournalEntry.addEntry,
        NewEntry.intoJournalEntry, ← hstatements]

theorem applyOp_end (h : j.Holds texts)
    (hslot : SlotHolds slot (some id) more) (seen : Bool) (tag : Str)
    (hfit : opFits (j, slot) (if seen then .commit id tag else .rollback id)) :
    ∃ j', applyOp (j, slot) (if seen then .commit id tag else .rollback id) = (j', none) ∧
      j'.Holds (texts ++ if seen then more else []) := by
  obtain ⟨tx, rfl, hid, hstatements, hcomplete⟩ := hslot
  cases seen with
  | false =>
    refine ⟨j, ?_, by rwa [if_neg (by simp), List.append_nil]⟩
    change (j, (some tx).filter fun tx => tx.txId ≠ id) = (j, none)
    simp [hid]
  | true =>
    have hroom : (tx.entries.isEmpty || j.hasRoom tx) := by
      change (tx.txId != id || tx.entries.isEmpty || j.hasRoom tx) at hfit
      rwa [hid, bne_self_eq_false] at hfit
    refine ⟨_, ?_, h.recordCommittedSync hstatements hcomplete hroom tag⟩
    change (if tx.txId = id then (j.recordCommittedSync tx tag, none) else (j, some tx)) = _
    rw [if_pos hid]

theorem applyOp_autoCommit (h : j.Holds texts) (slot : Option TransactionJournalEntry)
    (e : NewEntry) (tag : Str) (hfit : opFits (j, slot) (.autoCommit [e] tag none)) :
    ∃ j', applyOp (j, slot) (.autoCommit [e] tag none) = (j', slot) ∧
      j'.Holds (texts ++ [e.statement]) := by
  refine ⟨_, rfl, TransactionJournal.Holds.recordCommittedSync ?_ rfl rfl ?_ tag⟩
  · exact ⟨h.enabled, h.statements, h.complete⟩
  · exact hfit

variable {slot : Option TransactionJournalEntry} {txId : Option Nat} {fresh : Nat} {seen : Bool}
  (entry : Option NewEntry)

theorem applyOps_open (hslot : SlotHolds slot txId more) (hmore : txId = none → more = [])
    (hfit : opsFit (j, slot) (cycleOps txId true fresh (entry.map (·, none)) seen)) :
    ∃ slot', applyOps (j, slot) (cycleOps txId true fresh (entry.map (·, none)) seen) = (j, slot') ∧
      SlotHolds slot' (txAfter txId true fresh) (more ++ (entry.map (·.statement)).toList) := by
  cases txId with
  | some id => exact applyOps_logOps hslot entry hfit
  | none =>
    rw [hmore rfl]
    have hnew : SlotHolds (some (.new fresh)) (some fresh) [] := ⟨_, rfl, rfl, rfl, rfl⟩
    exact applyOps_logOps hnew entry hfit

/-- A cycle that ends a transaction commits it with its statement, or drops
both. -/
theorem applyOps_close (h : j.Holds texts) (hslot : SlotHolds slot (some id) more)
    (hfit : opsFit (j, slot) (cycleOps (some id) false fresh (entry.map (·, none)) seen)) :
    ∃ j', applyOps (j, slot)
      (cycleOps (some id) false fresh (entry.map (·, none)) seen) = (j', none) ∧
      j'.Holds (texts ++ if seen then more ++ (entry.map (·.statement)).toList else []) := by
  rw [cycleOps, opsFit_append, Bool.and_eq_true] at hfit
  obtain ⟨slot', happly, hslot'⟩ := applyOps_logOps hslot entry hfit.1
  rw [happly] at hfit
  have hend : opFits (j, slot') (if seen then .commit id "COMMIT" else .rollback id) :=
    (Bool.and_eq_true_iff.mp hfit.2).1
  obtain ⟨j', happly', hj'⟩ := applyOp_end h hslot' seen "COMMIT" hend
  refine ⟨j', ?_, hj'⟩
  rw [cycleOps, applyOps_append, happly]
  exact happly'

theorem applyOps_auto (h : j.Holds texts)
    (hfit : opsFit (j, slot) (cycleOps none false fresh (entry.map (·, none)) seen)) :
    ∃ j', applyOps (j, slot) (cycleOps none false fresh (entry.map (·, none)) seen) = (j', slot) ∧
      j'.Holds (texts ++ (entry.map (·.statement)).toList) := by
  cases entry with
  | none => exact ⟨j, rfl, by rwa [map_none, toList_none, List.append_nil]⟩
  | some e => exact applyOp_autoCommit h slot e e.tag (Bool.and_eq_true_iff.mp hfit).1

end Ops

/-! ## Every settled run -/

section Run

variable {U : UnicodeTables}

/-- The capture follows PostgreSQL's block; the store holds the durable strings
and the slot those of the block. -/
structure JournaledSession.Inv (s : JournaledSession) (txId : Option Nat) : Prop where
  tracks : s.capturing.Tracks txId
  block : txId.isSome = s.block.isSome
  store : s.journal.Holds (s.durable.map Sent.text)
  slot : SlotHolds s.slot txId ((s.block.getD []).map Sent.text)
  nodup : (s.block.getD []).Nodup
  fresh : ∀ p, p ∈ s.durable ∨ p ∈ s.block.getD [] → p.cycle < s.cycles
  disjoint : ∀ p ∈ s.block.getD [], p ∉ s.durable

theorem JournaledSession.inv_init (maxStatementBytes maxEntries maxSize maxCommitted
    maxCommittedBytes : Nat) :
    (init maxStatementBytes (.new maxEntries maxSize maxCommitted maxCommittedBytes)).Inv none where
  tracks := ⟨rfl, rfl, rfl, rfl⟩
  block := rfl
  store := ⟨rfl, rfl, by simp [init, TransactionJournal.new]⟩
  slot := rfl
  nodup := nodup_nil
  fresh := by simp [init]
  disjoint := by simp [init]

theorem JournaledSession.Inv.faithful {s : JournaledSession} {txId : Option Nat} (h : s.Inv txId) :
    HistoryFaithful s where
  committed := by
    rw [h.store.statements]
  nothingElse := by
    rw [h.store.completeStatements]
    exact (sublist_foldl_addNew s.durable (s.block.getD [])).map Sent.text

variable {s s' : JournaledSession} {txId : Option Nat} {c : Cycle Insert}

theorem JournaledSession.Inv.block_eq_none (h : s.Inv txId) (hnone : txId = none) :
    s.block = none := by
  have hblock := h.block
  rw [hnone] at hblock
  exact isSome_eq_false_iff.mp hblock.symm |> isNone_iff_eq_none.mp

theorem JournaledSession.Inv.sent_new (h : s.Inv txId) (c : Cycle Insert) :
    s.sent U c ∉ s.durable ∧ s.sent U c ∉ s.block.getD [] := by
  constructor
  · intro hmem
    exact absurd (h.fresh _ (.inl hmem)) (lt_irrefl _)
  · intro hmem
    exact absurd (h.fresh _ (.inr hmem)) (lt_irrefl _)

theorem step_eq_some (h : s.step U c = some s') :
    byteLen ((insertForm U).sql c.stmts) ≤ s.capturing.cap.maxStatementBytes ∧
      opsFit (s.journal, s.slot) (s.observed U c).2 ∧
      s' = ⟨(s.executed U c).block, (s.executed U c).durable.foldl addNew s.durable, s.cycles + 1,
        (s.observed U c).1, (applyOps (s.journal, s.slot) (s.observed U c).2).1,
        (applyOps (s.journal, s.slot) (s.observed U c).2).2⟩ := by
  unfold JournaledSession.step at h
  split at h
  next hfit =>
    cases h
    exact ⟨hfit.1, hfit.2, rfl⟩
  next => cases h

def stringEntry (U : UnicodeTables) (c : Cycle Insert) : Option NewEntry :=
  if hasWrite c.stmts then
    some ⟨(insertForm U).sql c.stmts, [], [], (c.stmts.getLast?.map (insertForm U).stmtTag).getD [],
      .simple⟩
  else none

theorem logged_eq {maxBytes : Nat} (h : byteLen ((insertForm U).sql c.stmts) ≤ maxBytes) :
    (insertForm U).logged maxBytes c.stmts = (stringEntry U c).map (·, none) := by
  have hsmall : ¬ maxBytes < byteLen ((insertForm U).sql c.stmts) := not_lt.mpr h
  simp only [WriteForm.logged, stringEntry, loggedEntry, loggedReason]
  split <;> rfl

theorem statement_stringEntry (s : JournaledSession) :
    ((stringEntry U c).map (·.statement)).toList =
      (if hasWrite c.stmts then [s.sent U c] else []).map Sent.text := by
  unfold stringEntry
  split <;> rfl

theorem writes_eq_sent (s : JournaledSession) (v : Sent)
    (h : .write v ∈ c.stmts.map (Stmt.map fun _ => s.sent U c)) : v = s.sent U c := by
  obtain ⟨t, _, ht⟩ := List.mem_map.mp h
  cases t with
  | write i => exact (Stmt.write.inj ht).symm
  | read | begin | commit | rollback => cases ht

section

variable (h : s.Inv txId)
include h

theorem durable_eq_parts (hblock : ∀ p ∈ s.block.getD [], p ∈ (s.executed U c).durable)
    (hstring : hasWrite c.stmts → s.sent U c ∈ (s.executed U c).durable) :
    (s.executed U c).durable = s.block.getD
      [] ++ if hasWrite c.stmts then [s.sent U c] else [] := by
  obtain ⟨hnew, hnew'⟩ := h.sent_new c
  obtain ⟨block, string, hparts⟩ := exec_durable h.nodup hnew' (writes_eq_sent s)
  change (s.executed U c).durable = _ at hparts
  have hh : (if block then s.block.getD [] else []) = s.block.getD [] := by
    cases block with
    | true => rfl
    | false =>
      refine (eq_nil_iff_forall_not_mem.mpr fun p hp => ?_).symm
      have hmem := hblock p hp
      rw [hparts] at hmem
      cases string with
      | false => cases hmem
      | true => exact hnew' (mem_singleton.mp hmem ▸ hp)
  have hlast : string = hasWrite c.stmts := by
    cases hw : hasWrite c.stmts with
    | true =>
      have hmem := hstring hw
      rw [hparts, parts, hh] at hmem
      cases string with
      | true => rfl
      | false => exact absurd (by simpa using hmem) hnew'
    | false =>
      have hholds : (s.executed U c).Holds (· ∈ s.block.getD []) :=
        exec_holds (fun _ hp => hp) fun v hv => by
          have hany : hasWrite (c.stmts.map (Stmt.map fun _ => s.sent U c)) :=
            List.any_eq_true.mpr ⟨_, hv, rfl⟩
          rw [hasWrite_map, hw] at hany
          cases hany
      cases string with
      | false => rfl
      | true => exact absurd (hholds.durable _ (by rw [hparts]; simp [parts])) hnew'
  rw [hparts, parts, hh, hlast]

theorem foldl_durable (written : Bool) :
    (s.block.getD [] ++ if written then [s.sent U c] else []).foldl addNew s.durable =
      s.durable ++ (s.block.getD [] ++ if written then [s.sent U c] else []) := by
  obtain ⟨hnew, hnew'⟩ := h.sent_new c
  refine foldl_addNew_of_disjoint (nodup_parts h.nodup hnew' true written) fun p hp => ?_
  rcases mem_append.mp hp with hp | hp
  · exact h.disjoint p hp
  · cases written with
    | true => rwa [mem_singleton.mp hp]
    | false => cases hp

theorem JournaledSession.Inv.cycleSpec : CycleSpec s.capturing txId (s.executed U c).block.isSome
      ((insertForm U).logged s.capturing.cap.maxStatementBytes c.stmts) (commitSeen c.stmts)
      (s.observed U c) :=
  simpleCycle_spec (insertForm U) (fun _ => s.sent U c) h.tracks s.block c.first c.rest

theorem JournaledSession.Inv.applied (hc : CycleSettled U s c)
    (hbytes : byteLen ((insertForm U).sql c.stmts) ≤ s.capturing.cap.maxStatementBytes)
    (hfit : opsFit (s.journal, s.slot) (s.observed U c).2) :
    let r := applyOps (s.journal, s.slot) (s.observed U c).2
    r.1.Holds (((s.executed U c).durable.foldl addNew s.durable).map Sent.text) ∧
      SlotHolds r.2 (txAfter txId (s.executed U c).block.isSome s.capturing.cap.nextTxId)
        (((s.executed U c).block.getD []).map Sent.text) ∧
      ((s.executed U c).block.getD []).Nodup ∧
      ∀ p ∈ (s.executed U c).block.getD [], p ∉
        (s.executed U c).durable.foldl addNew s.durable := by
  obtain ⟨hnew, hnew'⟩ := h.sent_new c
  have hops := (h.cycleSpec (U := U) (c := c)).ops
  rw [logged_eq hbytes] at hops
  rw [hops] at hfit ⊢
  have hentry := statement_stringEntry (U := U) (c := c) s
  cases hafter : (s.executed U c).block with
  | some pending =>
    obtain ⟨hdurable, hundone⟩ : (s.executed U c).durable = [] ∧ (s.executed U c).undone = [] := by
      unfold CycleSettled at hc
      rw [hafter] at hc
      cases hb : s.block <;> rw [hb] at hc <;> exact hc
    have hopen : (s.executed U c).inBlock := by
      by_contra hnot
      rw [Exec.block, if_neg hnot] at hafter
      cases hafter
    have hpending : pending = s.block.getD [] ++ if hasWrite c.stmts then [s.sent U c] else [] := by
      have := exec_pending hnew' (writes_eq_sent s) hopen hdurable hundone
      rw [hasWrite_map] at this
      rw [Exec.block, if_pos hopen] at hafter
      exact (Option.some.inj hafter).symm.trans this
    rw [hafter] at hfit
    obtain ⟨slot', happly, hslot'⟩ := applyOps_open (stringEntry U c) h.slot
      (fun hnone => by rw [h.block_eq_none hnone]; rfl) hfit
    rw [isSome_some, happly, hdurable]
    refine ⟨h.store, ?_, ?_, ?_⟩
    · rw [hentry, ← map_append, ← hpending] at hslot'
      exact hslot'
    · change pending.Nodup
      rw [hpending]
      exact nodup_parts h.nodup hnew' true _
    · intro p hp
      rw [hpending] at hp
      rcases mem_append.mp hp with hp | hp
      · exact h.disjoint p hp
      · split at hp
        · rwa [mem_singleton.mp hp]
        · cases hp
  | none =>
    rw [hafter] at hfit
    unfold CycleSettled at hc
    rw [hafter] at hc
    have hwhole : ∀ durable : List Sent,
        durable = s.block.getD [] ++ (if hasWrite c.stmts then [s.sent U c] else []) →
        (durable.foldl addNew s.durable).map Sent.text =
          s.durable.map Sent.text ++ ((s.block.getD []).map Sent.text ++
            ((stringEntry U c).map (·.statement)).toList) := by
      rintro _ rfl
      rw [foldl_durable h, map_append, map_append, hentry]
    cases htx : txId with
    | none =>
      have hblock := h.block_eq_none htx
      have hslot : s.slot = none := by simpa [SlotHolds, htx] using h.slot
      have hdurable := durable_eq_parts h (by rw [hblock]; simp)
        (by rw [hblock] at hc; exact hc)
      rw [htx] at hfit
      obtain ⟨j', happly, hj'⟩ := applyOps_auto (stringEntry U c) h.store hfit
      rw [isSome_none, happly]
      refine ⟨?_, hslot, nodup_nil, by simp⟩
      rw [hwhole _ hdurable, hblock]
      exact hj'
    | some id =>
      obtain ⟨old, hblock⟩ : ∃ old, s.block = some old := by
        have := h.block
        rw [htx] at this
        exact isSome_iff_exists.mp this.symm
      have hslot := h.slot
      rw [htx] at hfit hslot
      obtain ⟨j', happly, hj'⟩ := applyOps_close (stringEntry U c) h.store hslot hfit
      rw [isSome_none, happly]
      refine ⟨?_, rfl, nodup_nil, by simp⟩
      rw [hblock] at hc
      cases hseen : commitSeen c.stmts with
      | true =>
        simp only [hseen] at hc
        have hdurable := durable_eq_parts h (by rw [hblock]; exact hc.1) hc.2
        rw [hwhole _ hdurable]
        rwa [hseen] at hj'
      | false =>
        simp only [hseen] at hc
        rw [hseen, if_neg (by simp), List.append_nil] at hj'
        rw [hc]
        exact hj'

theorem JournaledSession.Inv.step (hc : CycleSettled U s c)
    (hstep : s.step U c = some s') : ∃ txId', s'.Inv txId' := by
  obtain ⟨hbytes, hfit, rfl⟩ := step_eq_some hstep
  obtain ⟨hstore, hslot, hnodup, hdisjoint⟩ := h.applied hc hbytes hfit
  refine ⟨_, (h.cycleSpec).tracks, ?_, hstore, hslot, hnodup, ?_, hdisjoint⟩
  · change Option.isSome (txAfter _ _ _) = (s.executed U c).block.isSome
    cases (s.executed U c).block.isSome <;> cases txId <;> rfl
  · have hholds : (s.executed U c).Holds fun p => p.cycle < s.cycles + 1 :=
      exec_holds (fun p hp => Nat.lt_succ_of_lt (h.fresh p (.inr hp))) fun v hv => by
        rw [writes_eq_sent s v hv]
        exact Nat.lt_succ_self _
    intro p hp
    rcases hp with hp | hp
    · rcases mem_foldl_addNew.mp hp with hp | hp
      · exact Nat.lt_succ_of_lt (h.fresh p (.inl hp))
      · exact hholds.durable p hp
    · change p ∈ (s.executed U c).block.getD [] at hp
      unfold Exec.block at hp
      split at hp
      · exact hholds.pending p hp
      · cases hp

end

end Run

/-- In every run whose cycles are all settled, the committed history is
faithful. -/
theorem history_faithful (U : UnicodeTables)
    (maxStatementBytes maxEntries maxSize maxCommitted maxCommittedBytes : Nat)
    (cycles : List (Cycle Insert)) (s : JournaledSession)
    (hrun : Runs.run (JournaledSession.step U) (.init maxStatementBytes
      (.new maxEntries maxSize maxCommitted maxCommittedBytes)) cycles = some s)
    (hsettled : Runs.Along (JournaledSession.step U) (CycleSettled U) (.init maxStatementBytes
      (.new maxEntries maxSize maxCommitted maxCommittedBytes)) cycles) :
    HistoryFaithful s := by
  obtain ⟨txId, h⟩ : ∃ txId, s.Inv txId :=
    Runs.run_invariant_along (P := fun s : JournaledSession => ∃ txId, s.Inv txId)
      (fun s c s' ⟨_, h⟩ hc hstep => h.step hc hstep)
      ⟨none, JournaledSession.inv_init _ _ _ _ _⟩ hsettled hrun
  exact h.faithful

def insertIntoT : Insert := ⟨"t", "1", plainName_t, by decide⟩

def JournaledSession.fresh : JournaledSession :=
  .init 1048576 (.new 10000 67108864 50000 268435456)

/-- A transaction with two inserts, of which the second commits it in the same
string, and an insert of its own. -/
theorem history_faithful_transaction :
    let cycles : List (Cycle Insert) :=
      [⟨.begin, []⟩, ⟨.write insertIntoT, []⟩, ⟨.write insertIntoT, [.read, .commit]⟩,
        ⟨.write insertIntoT, []⟩]
    ∃ s, Runs.run (JournaledSession.step .ascii) .fresh cycles = some s ∧
      s.journal.statements = ["INSERT INTO t VALUES (1)".toList,
        "INSERT INTO t VALUES (1); SELECT 1; COMMIT".toList, "INSERT INTO t VALUES (1)".toList] ∧
      HistoryFaithful s := by
  intro cycles
  refine ⟨_, rfl, by decide, ?_⟩
  exact history_faithful .ascii 1048576 10000 67108864 50000 268435456 cycles _ rfl (by decide)

/-- A commit behind a read in one string loses the transaction; an insert that
its own string rolls back is recorded. -/
theorem not_historyFaithful :
    (∃ s, Runs.run (JournaledSession.step .ascii) .fresh [⟨.begin, []⟩, ⟨.write insertIntoT, []⟩,
        ⟨.read, [.commit]⟩] = some s ∧
      s.durable.map Sent.text = ["INSERT INTO t VALUES (1)".toList] ∧ s.journal.statements = [] ∧
      ¬ HistoryFaithful s) ∧
    ∃ s, Runs.run (JournaledSession.step .ascii) .fresh
      [⟨.begin, [.write insertIntoT, .rollback]⟩] =
        some s ∧
      s.durable = [] ∧ s.journal.completeStatements =
        ["BEGIN; INSERT INTO t VALUES (1); ROLLBACK".toList] ∧
      ¬ HistoryFaithful s :=
  ⟨⟨_, rfl, by decide⟩, ⟨_, rfl, by decide⟩⟩

end HeliosProxy.Journal
