import HeliosProxy.Journal.SimpleCycle
import HeliosProxy.Journal.TransactionJournal
import HeliosProxy.Lib.Runs
import HeliosProxy.Postgres.Savepoints

/-!
# Savepoints in the journal

The journal keeps a list of marks, each with the number of the last statement
before it, and takes a name for the first mark of exactly that spelling.
`RELEASE` leaves the marks alone.
-/

namespace HeliosProxy.Journal

open Text Postgres HeliosProxy.Lists List Option

/-! ## The texts of the savepoint statements -/

theorem splitPieces_of_no_semicolon {s : Str} (h : ∀ c ∈ s, c ≠ ';') {fuel : Nat}
    (hfuel : s.length < fuel) (prev : Option Char) (piece : Str) :
    splitPieces fuel prev piece s = [piece ++ s] := by
  induction fuel generalizing s prev piece with
  | zero => omega
  | succ fuel ih =>
    cases s with
    | nil => rw [splitPieces, List.append_nil]
    | cons c s =>
      have hpos := skipLength_pos prev c s
      have hlen : ((c :: s).drop (skipLength prev (c :: s))).length < fuel := by
        rw [length_drop, length_cons]
        rw [length_cons] at hfuel
        omega
      rw [splitPieces, if_neg (by simpa using h c mem_cons_self)]
      rw [ih (fun d hd => h d (mem_of_mem_drop hd)) hlen, append_assoc,
        take_append_drop]

theorem classify_of_no_semicolon (U : UnicodeTables) {sql : Str} (h : ∀ c ∈ sql, c ≠ ';') :
    classify U sql = (classifySingle U (trim sql), false) := by
  have hsplit : splitStatements sql = [trim sql] := by
    rw [splitStatements, splitPieces_of_no_semicolon h (Nat.lt_succ_self _)]
    cases hempty : (trim sql).isEmpty <;> simp [hempty]
  rw [classify, hsplit]

def nameText (n : Identifier) : Str := trimEnd (' ' :: n.text)

def markName (n : Identifier) : Str := savepointName (nameText n)

theorem nameText_cases (n : Identifier) : nameText n = [] ∨ ∃ s, nameText n = ' ' :: s := by
  unfold nameText trimEnd
  rw [reverse_cons, dropWhile_append]
  split
  · exact .inl (by simp [isWhitespace])
  · exact .inr ⟨_, by rw [reverse_append]; rfl⟩

theorem trim_keyword (n : Identifier) {kw : Str} (hfirst : kw.head?.any isWhitespace = false)
    (hlast : kw.getLast?.any isWhitespace = false) (hne : kw ≠ []) :
    trim (kw ++ ' ' :: n.text) = kw ++ nameText n := by
  obtain ⟨c, cs, rfl⟩ := exists_cons_of_ne_nil hne
  have hstart : trimStart (c :: cs ++ ' ' :: n.text) = c :: cs ++ ' ' :: n.text := by
    rw [trimStart, cons_append, dropWhile_cons_of_neg (by simpa using hfirst)]
  obtain ⟨init, d, hd⟩ := eq_nil_or_concat (c :: cs) |>.resolve_left hne
  rw [hd] at hlast
  rw [trim, hstart, hd, nameText, concat_eq_append]
  unfold trimEnd
  rw [reverse_append, dropWhile_append]
  split
  · next hempty =>
    rw [reverse_append, reverse_singleton, singleton_append,
      dropWhile_cons_of_neg (by simpa using hlast), List.isEmpty_iff.mp hempty]
    simp
  · rw [reverse_append, reverse_reverse]

theorem no_semicolon (n : Identifier) {kw : Str} (h : ∀ c ∈ kw, c ≠ ';') :
    ∀ c ∈ kw ++ ' ' :: n.text, c ≠ ';' := by
  intro c hc
  rcases mem_append.mp hc with hc | hc
  · exact h c hc
  rcases mem_cons.mp hc with rfl | hc
  · decide
  · rintro rfl
    exact absurd (List.all_eq_true.mp n.cont _ hc) (by decide)

theorem classify_keyword (U : UnicodeTables) (n : Identifier) {kw : Str} (hfree : ∀ c ∈ kw, c ≠ ';')
    (hfirst : kw.head?.any isWhitespace = false) (hlast : kw.getLast?.any isWhitespace = false)
    (hne : kw ≠ []) :
    classify U (kw ++ ' ' :: n.text) = (classifySingle U (kw ++ nameText n), false) := by
  rw [classify_of_no_semicolon U (no_semicolon n hfree), trim_keyword n hfirst hlast hne]

def savepointText (n : Identifier) : Str := "SAVEPOINT" ++ ' ' :: n.text

def releaseText (n : Identifier) : Str := "RELEASE SAVEPOINT" ++ ' ' :: n.text

def rollbackToText (n : Identifier) : Str := "ROLLBACK TO SAVEPOINT" ++ ' ' :: n.text

section Texts

variable (U : UnicodeTables)

theorem classifySingle_savepoint (s : Str) :
    classifySingle U ("SAVEPOINT" ++ ' ' :: s) = .control
      (.savepoint (savepointName (' ' :: s))) := by
  rw [classifySingle, statementBody_eq rfl rfl]
  rfl

theorem classifySingle_release (s : Str) :
    classifySingle U ("RELEASE SAVEPOINT" ++ ' ' :: s) =
      .control (.release (savepointName (' ' :: s))) := by
  rw [classifySingle, statementBody_eq rfl rfl]
  rfl

theorem classifySingle_rollbackTo (s : Str) :
    classifySingle U ("ROLLBACK TO SAVEPOINT" ++ ' ' :: s) =
      .control (.rollbackTo (savepointName (' ' :: s))) := by
  rw [classifySingle, statementBody_eq rfl rfl]
  rfl

theorem classify_named (n : Identifier) {kw : Str} (hfree : ∀ c ∈ kw, c ≠ ';')
    (hfirst : kw.head?.any isWhitespace = false) (hlast : kw.getLast?.any isWhitespace = false)
    (hne : kw ≠ []) {ctl : Str → Control}
    (hnone : classifySingle U (kw ++ []) = .control (ctl (savepointName [])))
    (hname : ∀ s, classifySingle U (kw ++ ' ' :: s) = .control (ctl (savepointName (' ' :: s)))) :
    classify U (kw ++ ' ' :: n.text) = (.control (ctl (markName n)), false) := by
  rw [classify_keyword U n hfree hfirst hlast hne, markName]
  rcases nameText_cases n with h | ⟨s, h⟩ <;> rw [h]
  · rw [hnone]
  · rw [hname]

variable (n : Identifier)

theorem classify_savepoint :
    classify U (savepointText n) = (.control (.savepoint (markName n)), false) :=
  classify_named U n (all_iff_forall_prop.1 (by decide)) (by decide) (by decide) (by decide) rfl
    (classifySingle_savepoint U)

theorem classify_release : classify U (releaseText n) = (.control (.release (markName n)), false) :=
  classify_named U n (all_iff_forall_prop.1 (by decide)) (by decide) (by decide) (by decide) rfl
    (classifySingle_release U)

theorem classify_rollbackTo :
    classify U (rollbackToText n) = (.control (.rollbackTo (markName n)), false) :=
  classify_named U n (all_iff_forall_prop.1 (by decide)) (by decide) (by decide) (by decide) rfl
    (classifySingle_rollbackTo U)

end Texts

/-! ## A transaction of single-statement cycles -/

/-- A statement the journal records, with the tag that answers it. -/
structure JournaledWrite (U : UnicodeTables) where
  text : Str
  tag : Str
  kind : StmtKind
  classified : classify U text = (kind, false)
  journaled : kind.isJournaled = true
  notPrepared : eqIgnoreCase tag "COMMIT PREPARED" = false

def cycleOf {U : UnicodeTables} : TxStmt (JournaledWrite U) → Str × Str
  | .write w => (w.text, w.tag)
  | .savepoint n => (savepointText n, "SAVEPOINT")
  | .release n => (releaseText n, "RELEASE")
  | .rollbackTo n => (rollbackToText n, "ROLLBACK")

structure BlockSession (U : UnicodeTables) where
  pg : Transaction (JournaledWrite U)
  capturing : Capturing
  journal : TransactionJournal
  slot : Option TransactionJournalEntry

namespace BlockSession

variable {U : UnicodeTables}

def observed (s : BlockSession U) (sql tag : Str) (status : TxStatus) : BlockSession U :=
  let r := s.capturing.simpleCycle U sql [tag] status
  let js := applyOps (s.journal, s.slot) r.2
  { s with capturing := r.1, journal := js.1, slot := js.2 }

/-- The session after `BEGIN`. -/
def begun (U : UnicodeTables) (c : Capturing) (j : TransactionJournal)
    (slot : Option TransactionJournalEntry) : BlockSession U :=
  (⟨⟨[], []⟩, c, j, slot⟩ : BlockSession U).observed "BEGIN" "BEGIN" .inBlock

def step (s : BlockSession U) (stmt : TxStmt (JournaledWrite U)) : Option (BlockSession U) :=
  (s.pg.step stmt).map fun pg =>
    { s.observed (cycleOf stmt).1 (cycleOf stmt).2 .inBlock with pg }

/-- The session after `COMMIT`. -/
def committed (s : BlockSession U) : BlockSession U :=
  s.observed "COMMIT" "COMMIT" .idle

end BlockSession

/-- The entries are the writes, in order. -/
def SameWrites {U : UnicodeTables} (tx : TransactionJournalEntry)
    (writes : List (JournaledWrite U)) : Prop :=
  tx.entries.map (fun e => (e.statement, e.tag)) = writes.map (fun w => (w.text, w.tag))

/-- What the store gets at a `COMMIT` is a transaction with exactly the writes that survive, or
one marked incomplete, or nothing where no write survives.  A transaction without entries is
not stored, whatever its mark. -/
def CommitRefines {U : UnicodeTables} (s : BlockSession U) : Prop :=
  ∃ tx, s.slot = some tx ∧
    if tx.entries = [] then s.committed.journal = s.journal ∧ s.pg.writes = []
    else s.committed.journal = s.journal.pushCommitted tx "COMMIT" ∧
      (SameWrites tx s.pg.writes ∨ tx.incompleteReason.isSome = true)

def TransactionJournalEntry.position? (tx : TransactionJournalEntry) (name : Str) : Option Nat :=
  (tx.savepoints.find? fun m => m.name == name).map fun m =>
    (tx.entries.filter fun e => e.sequence ≤ m.sequence).length

/-! ## What a statement does to the transaction of the journal -/

def JournaledWrite.pending {U : UnicodeTables} (w : JournaledWrite U) (maxBytes : Nat) : Pending :=
  sentPending maxBytes w.text w.kind false

/-- The first write of a transaction fits into the journal.  Going back, no write that survives
lies between the mark the journal goes back to and the savepoint PostgreSQL does, unless there
is no such mark, or the transaction is incomplete and keeps an entry. -/
def Follows {U : UnicodeTables} (j : TransactionJournal) (maxBytes : Nat)
    (tx : TransactionJournalEntry)
    (pg : Transaction (JournaledWrite U)) : TxStmt (JournaledWrite U) → Prop
  | .write w => tx.entries = [] → (j.appendEntry tx ((w.pending maxBytes).entry w.tag)).isOk = true
  | .rollbackTo n => ∀ k ∈ tx.position? (markName n),
    pg.position? n = some k ∨ tx.incompleteReason.isSome = true ∧ k ≠ 0
  | _ => True

def BlockSession.Follows {U : UnicodeTables} (s : BlockSession U)
    (stmt : TxStmt (JournaledWrite U)) : Prop :=
  ∀ tx ∈ s.slot, Journal.Follows s.journal s.capturing.cap.maxStatementBytes tx s.pg stmt

instance {U : UnicodeTables} (s : BlockSession U) (stmt : TxStmt (JournaledWrite U)) :
    Decidable (s.Follows stmt) := by
  unfold BlockSession.Follows Journal.Follows
  cases stmt <;> infer_instance

/-- The operations of a statement in the transaction `id`. -/
def blockOps {U : UnicodeTables} (id maxBytes : Nat) : TxStmt (JournaledWrite U) → List JournalOp
  | .write w =>
    .log id ((w.pending maxBytes).entry w.tag) ::
      ((w.pending maxBytes).reason.map (.incomplete id)).toList
  | .savepoint n => [.savepoint id (markName n)]
  | .release _ => []
  | .rollbackTo n => [.rollbackTo id (markName n)]

section Cycles

variable {U : UnicodeTables} {c : Capturing} {id : Nat}

/-- A statement that leaves the block open, given what the capture makes of
it. -/
theorem simpleCycle_inBlock (h : c.Tracks (some id)) {sql tag : Str} {kind : StmtKind}
    (hkind : classify U sql = (kind, false)) (hne : kind ≠ .read)
    (hprepared : eqIgnoreCase tag "COMMIT PREPARED" = false) {ops : List JournalOp}
    (hnoted : Observation.notePending ⟨.inBlock, [.tag tag], none⟩
        ⟨some ⟨id, false⟩, c.cap.nextTxId, [], [], none⟩
        (sentPending c.cap.maxStatementBytes sql kind false) =
      ⟨some ⟨id, false⟩, c.cap.nextTxId, ops, [], none⟩) :
    (c.simpleCycle U sql [tag] .inBlock).2 = ops ∧
      (c.simpleCycle U sql [tag] .inBlock).1.Tracks (some id) := by
  have hobserved : SessionCapture.observation
      { c.cap with pending := [sentPending c.cap.maxStatementBytes sql kind false] }
      ⟨.inBlock, [.tag tag], none⟩ = ⟨some ⟨id, false⟩, c.cap.nextTxId, ops ++ [], [], none⟩ := by
    have hany : ResponseOutcome.preparedCommitted ⟨.inBlock, [.tag tag], none⟩ = false := by
      simpa [ResponseOutcome.preparedCommitted] using hprepared
    refine (observation_pending { c.cap with
      pending := [sentPending c.cap.maxStatementBytes sql kind false] } rfl h.deferred hany).trans
        ?_
    rw [h.openTx, map_some, hnoted]
    rfl
  rw [List.append_nil] at hobserved
  rw [simpleCycle_armed h.pending hkind hne]
  refine ⟨congrArg Observation.ops hobserved, rfl, rfl, ?_, congrArg Observation.openTx hobserved⟩
  exact congrArg (fun o : Observation => o.openTx.isSome) hobserved

theorem simpleCycle_block (h : c.Tracks (some id)) (stmt : TxStmt (JournaledWrite U)) :
    let r := c.simpleCycle U (cycleOf stmt).1 [(cycleOf stmt).2] .inBlock
    r.2 = blockOps id c.cap.maxStatementBytes stmt ∧ r.1.Tracks (some id) := by
  cases stmt with
  | write w =>
    have hkind := w.journaled
    refine simpleCycle_inBlock h w.classified ?_ w.notPrepared ?_
    · rintro hread
      rw [hread] at hkind
      cases hkind
    · rw [blockOps, JournaledWrite.pending]
      cases hw : w.kind with
      | read | control => simp [hw, StmtKind.isJournaled] at hkind
      | write | copy | opaqueStmt => rfl
  | savepoint n => exact simpleCycle_inBlock h (classify_savepoint U n) (by simp) rfl rfl
  | release n => exact simpleCycle_inBlock h (classify_release U n) (by simp) rfl rfl
  | rollbackTo n => exact simpleCycle_inBlock h (classify_rollbackTo U n) (by simp) rfl rfl

end Cycles

namespace TransactionJournalEntry

variable {tx : TransactionJournalEntry} {j : TransactionJournal} {name : Str}

structure Numbered (tx : TransactionJournalEntry) : Prop where
  increasing : tx.entries.Pairwise fun a b => a.sequence < b.sequence
  current : ∀ e ∈ tx.entries, e.sequence ≤ tx.currentSequence

theorem numbered_new (id : Nat) : (TransactionJournalEntry.new id).Numbered := ⟨.nil, by simp [new]⟩

theorem Numbered.addEntry (h : tx.Numbered) (e : NewEntry) :
    (tx.addEntry (e.intoJournalEntry (tx.currentSequence + 1))).Numbered where
  increasing := by
    refine pairwise_append.mpr ⟨h.increasing, pairwise_singleton _ _, ?_⟩
    intro a ha b hb
    rw [mem_singleton.mp hb]
    exact Nat.lt_succ_of_le (h.current a ha)
  current := by
    intro a ha
    rcases mem_append.mp ha with ha | ha
    · exact Nat.le_succ_of_le (h.current a ha)
    · rw [mem_singleton.mp ha]
      exact Nat.le_refl _

/-- `rollback_to_savepoint` keeps as many statements as stand in front of the
first mark of the name. -/
theorem rollbackToSavepoint_spec (h : tx.Numbered) (name : Str) :
    match tx.position? name with
    | none => tx.rollbackToSavepoint name = none
    | some k => k ≤ tx.entries.length ∧ ∃ marks, tx.rollbackToSavepoint name =
        some { tx with entries := tx.entries.take k, savepoints := marks } := by
  unfold position? rollbackToSavepoint
  cases hidx : tx.savepoints.findIdx? fun s => s.name == name with
  | none =>
    have hnone : tx.savepoints.find? (fun s => s.name == name) = none :=
      find?_eq_none.mpr fun s hs => by simpa using findIdx?_eq_none_iff.mp hidx s hs
    rw [hnone]
    rfl
  | some idx =>
    obtain ⟨hlt, hmark, hfirst⟩ := findIdx?_eq_some_iff_getElem.mp hidx
    have hfind : tx.savepoints.find? (fun s => s.name == name) = some tx.savepoints[idx] :=
      find?_eq_some_iff_getElem.mpr ⟨hmark, idx, hlt, rfl, by simpa using hfirst⟩
    rw [hfind]
    refine ⟨length_filter_le _ _, tx.savepoints.take (idx + 1), ?_⟩
    have htake :=
      filter_eq_take (p := fun e : JournalEntry => e.sequence ≤ tx.savepoints[idx].sequence)
      (h.increasing.imp fun hab hb => by simp only [decide_eq_true_eq] at hb ⊢; omega)
    have hseq : (tx.savepoints[idx]?.map (·.sequence)).getD 0 = tx.savepoints[idx].sequence := by
      rw [getElem?_eq_getElem hlt]
      rfl
    simp only [hseq]
    rw [← htake]

end TransactionJournalEntry

/-- The journal's transaction after the entry `e`, and after a reason. -/
def logged (j : TransactionJournal) (tx : TransactionJournalEntry) (e : NewEntry) :
    TransactionJournalEntry :=
  match j.appendEntry tx e with
  | .ok tx => tx
  | .error e => tx.markIncomplete ("journal cap: " ++ e)

def marked (tx : TransactionJournalEntry) : Option Str → TransactionJournalEntry
  | none => tx
  | some r => tx.markIncomplete r

def recorded {U : UnicodeTables} (j : TransactionJournal) (maxBytes : Nat)
    (tx : TransactionJournalEntry) : TxStmt (JournaledWrite U) → TransactionJournalEntry
  | .write w => marked (logged j tx ((w.pending maxBytes).entry w.tag)) (w.pending maxBytes).reason
  | .savepoint n => tx.createSavepoint (markName n)
  | .release _ => tx
  | .rollbackTo n =>
    match tx.rollbackToSavepoint (markName n) with
    | some tx => tx
    | none => tx.markIncomplete
        ("ROLLBACK TO unknown journal savepoint \"" ++ markName n ++ ['"'])

section Recorded

variable {U : UnicodeTables} {j : TransactionJournal} {maxBytes : Nat}
  {tx : TransactionJournalEntry}

theorem appendEntry_eq_ok {e : NewEntry} {tx' : TransactionJournalEntry}
    (h : j.appendEntry tx e = .ok tx') :
    tx' = tx.addEntry (e.intoJournalEntry (tx.currentSequence + 1)) := by
  unfold TransactionJournal.appendEntry at h
  split at h
  · cases h
  split at h
  · cases h
  · cases h
    rfl

variable (j : TransactionJournal)

theorem logged_cases (tx : TransactionJournalEntry) (e : NewEntry) :
    ((j.appendEntry tx e).isOk = false ∧ ∃ r, logged j tx e = tx.markIncomplete r) ∨
      (j.appendEntry tx e).isOk ∧ logged j tx e = tx.addEntry
        (e.intoJournalEntry (tx.currentSequence + 1)) := by
  unfold logged
  split
  · next happend => exact .inr ⟨by rw [happend]; rfl, appendEntry_eq_ok happend⟩
  · next happend => exact .inl ⟨by rw [happend]; rfl, _, rfl⟩

theorem txId_logged (tx : TransactionJournalEntry) (e : NewEntry) :
    (logged j tx e).txId = tx.txId := by
  rcases logged_cases j tx e with ⟨-, r, h⟩ | ⟨-, h⟩ <;> rw [h] <;> rfl

variable (maxBytes : Nat)

theorem applyOps_blockOps (tx : TransactionJournalEntry) (stmt : TxStmt (JournaledWrite U)) :
    applyOps (j, some tx)
      (blockOps tx.txId maxBytes stmt) = (j, some (recorded j maxBytes tx stmt)) := by
  cases stmt with
  | write w =>
    have hlog : applyOp (j, some tx) (.log tx.txId ((w.pending maxBytes).entry w.tag)) =
        (j, some (logged j tx ((w.pending maxBytes).entry w.tag))) :=
      congrArg (fun tx => (j, some tx)) (if_pos rfl)
    rw [blockOps, applyOps, List.foldl_cons, hlog, recorded]
    cases (w.pending maxBytes).reason with
    | none => rfl
    | some r => exact congrArg (fun tx => (j, some tx)) (if_pos (txId_logged _ _ _))
  | savepoint n | rollbackTo n => exact congrArg (fun tx => (j, some tx)) (if_pos rfl)
  | release n => rfl

theorem markIncomplete_isSome (tx : TransactionJournalEntry) (r : Str) :
    (tx.markIncomplete r).incompleteReason.isSome := by
  simp [TransactionJournalEntry.markIncomplete]

/-- A write that does not fit leaves the entries and a mark; one that fits leaves its own
entry, and a mark where its text is too long. -/
theorem recorded_write (tx : TransactionJournalEntry) (w : JournaledWrite U) :
    let tx' := recorded j maxBytes tx (.write w)
    let fits := (j.appendEntry tx ((w.pending maxBytes).entry w.tag)).isOk
    tx'.txId = tx.txId ∧ (tx.Numbered → tx'.Numbered) ∧
      (fits = false ∧ tx'.entries = tx.entries ∧ tx'.incompleteReason.isSome ∨
        fits ∧ tx'.entries ≠ [] ∧
          (tx'.incompleteReason.isSome ∨ tx'.incompleteReason = tx.incompleteReason ∧
          tx'.entries.map (fun e => (e.statement, e.tag)) =
            tx.entries.map (fun e => (e.statement, e.tag)) ++ [(w.text, w.tag)])) := by
  have hnumbered : ∀ (tx : TransactionJournalEntry) (r : Str), tx.Numbered →
    (tx.markIncomplete r).Numbered :=
    fun _ _ h => ⟨h.increasing, h.current⟩
  rw [recorded]
  rcases logged_cases j tx ((w.pending maxBytes).entry w.tag) with ⟨hfits, r, hlogged⟩ |
    ⟨hfits, hlogged⟩ <;>
    rw [hlogged] <;> cases hreason : (w.pending maxBytes).reason
  · exact ⟨rfl, hnumbered _ _, .inl ⟨hfits, rfl, markIncomplete_isSome _ _⟩⟩
  · exact ⟨rfl, fun h => hnumbered _ _ (hnumbered _ _ h),
      .inl ⟨hfits, rfl, markIncomplete_isSome _ _⟩⟩
  · have hsmall : ¬ maxBytes < byteLen w.text := by
      intro hbig
      simp [JournaledWrite.pending, sentPending, Pending.reason, hbig] at hreason
    refine ⟨rfl, fun h => h.addEntry _, .inr ⟨hfits, concat_ne_nil _ _, .inr ⟨rfl, ?_⟩⟩⟩
    simp [marked, TransactionJournalEntry.addEntry, NewEntry.intoJournalEntry, Pending.entry,
      JournaledWrite.pending, sentPending, hsmall]
  · exact ⟨rfl, fun h => hnumbered _ _ (h.addEntry _),
      .inr ⟨hfits, concat_ne_nil _ _, .inl (markIncomplete_isSome _ _)⟩⟩

theorem recorded_rollbackTo (h : tx.Numbered) (n : Identifier) :
    let tx' := recorded (U := U) j maxBytes tx (.rollbackTo n)
    (tx.position? (markName n) = none ∧ ∃ r, tx' = tx.markIncomplete r) ∨
      ∃ k marks, tx.position? (markName n) = some k ∧ k ≤ tx.entries.length ∧
        tx' = { tx with entries := tx.entries.take k, savepoints := marks } := by
  have hspec := TransactionJournalEntry.rollbackToSavepoint_spec h (markName n)
  rw [recorded]
  cases hpos : tx.position? (markName n) with
  | none =>
    rw [hpos] at hspec
    rw [hspec]
    exact .inl ⟨rfl, _, rfl⟩
  | some k =>
    rw [hpos] at hspec
    obtain ⟨hk, marks, hback⟩ := hspec
    rw [hback]
    exact .inr ⟨k, marks, rfl, hk, rfl⟩

theorem recorded_numbered (stmt : TxStmt (JournaledWrite U)) (h : tx.Numbered) :
    (recorded j maxBytes tx stmt).txId = tx.txId ∧ (recorded j maxBytes tx stmt).Numbered := by
  cases stmt with
  | write w =>
    obtain ⟨hid, hnumbered, -⟩ := recorded_write j maxBytes tx w
    exact ⟨hid, hnumbered h⟩
  | savepoint n => exact ⟨rfl, h.increasing, h.current⟩
  | release n => exact ⟨rfl, h⟩
  | rollbackTo n =>
    rcases recorded_rollbackTo j maxBytes h n with ⟨-, r, hback⟩ | ⟨k, marks, -, -, hback⟩ <;>
      rw [hback]
    · exact ⟨rfl, h.increasing, h.current⟩
    · exact ⟨rfl, h.increasing.sublist (List.take_sublist _ _),
        fun e he => h.current e (List.mem_of_mem_take he)⟩

end Recorded

/-! ## The journal against PostgreSQL -/

/-- The entries are the writes, or an entry is left and the transaction is incomplete. -/
def Matches {U : UnicodeTables} (tx : TransactionJournalEntry) (writes : List (JournaledWrite U)) :
    Prop :=
  SameWrites tx writes ∨ tx.entries ≠ [] ∧ tx.incompleteReason.isSome = true

section Agreement

variable {U : UnicodeTables} {j : TransactionJournal} {maxBytes : Nat}
  {tx : TransactionJournalEntry}
  {pg pg' : Transaction (JournaledWrite U)} {stmt : TxStmt (JournaledWrite U)}

/-- A transaction without entries matches where there are no writes. -/
theorem matches_of_nil {writes : List (JournaledWrite U)} (h : tx.entries = []) :
    Matches tx writes ↔ writes = [] := by
  rw [Matches, SameWrites, h, List.map_nil, eq_comm, List.map_eq_nil_iff]
  exact or_iff_left fun hne => hne.1 rfl

/-- Going back keeps the agreement exactly if both sides go back to the same
place. -/
theorem matches_rollbackTo (hn : tx.Numbered) (ho : pg.Ordered) (hm : Matches tx pg.writes)
    {n : Identifier} (hstep : pg.step (.rollbackTo n) = some pg') :
    Matches (recorded (U := U) j maxBytes tx (.rollbackTo n)) pg'.writes ↔
      Follows j maxBytes tx pg (.rollbackTo n) := by
  obtain ⟨k, hk, hkle, hwrites⟩ := ho.rollbackTo hstep
  rw [Follows, hk, hwrites]
  rcases recorded_rollbackTo j maxBytes hn n with
    ⟨hnone, r, hback⟩ | ⟨m, marks, hmark, hmle, hback⟩ <;> rw [hback]
  · rw [hnone]
    refine iff_of_true ?_ nofun
    by_cases hnil : tx.entries = []
    · rw [(matches_of_nil hnil).mp hm, take_nil]
      exact (@matches_of_nil U (tx.markIncomplete r) [] hnil).mpr rfl
    · exact .inr ⟨hnil, markIncomplete_isSome _ _⟩
  simp only [hmark, Option.mem_some_iff, forall_eq', Option.some.injEq]
  cases hreason : tx.incompleteReason with
  | none =>
    have hsame : SameWrites tx pg.writes := hm.resolve_right (by simp [hreason])
    simp only [Matches, SameWrites, isSome_none, Bool.false_eq_true, and_false, or_false, false_and]
    constructor
    · intro htake
      have hcount := congrArg List.length htake
      simp only [List.length_map, List.length_take] at hcount
      omega
    · rintro rfl
      rw [List.map_take, List.map_take, hsame]
  | some r =>
    simp only [isSome_some, true_and]
    by_cases hzero : m = 0
    · -- nothing is left to be stored with the mark
      subst hzero
      rw [matches_of_nil (@take_zero _ tx.entries), take_eq_nil_iff,
        or_iff_left (not_not_intro rfl)]
      refine or_iff_left_of_imp fun hnil => ?_
      simpa [hnil] using hkle
    · refine iff_of_true (.inr ⟨?_, rfl⟩) (.inr hzero)
      rw [Ne, take_eq_nil_iff]
      rintro (h | h)
      · exact hzero h
      · rw [h] at hmle
        exact hzero (Nat.le_zero.mp hmle)

theorem matches_recorded (hn : tx.Numbered) (ho : pg.Ordered) (hm : Matches tx pg.writes)
    (hstep : pg.step stmt = some pg') :
    Matches (recorded j maxBytes tx stmt) pg'.writes ↔ Follows j maxBytes tx pg stmt := by
  cases stmt with
  | write w =>
    cases hstep
    obtain ⟨-, -, ⟨hfits, hentries, hreason⟩ | ⟨hfits, hne, hrecorded⟩⟩ :=
      recorded_write j maxBytes tx w
    · rw [Follows, hfits]
      by_cases hnil : tx.entries = []
      · exact iff_of_false (by rw [matches_of_nil (hentries.trans hnil)]; simp) fun h =>
          Bool.false_ne_true (h hnil)
      · exact iff_of_true (.inr ⟨hentries ▸ hnil, hreason⟩) fun h => absurd h hnil
    · refine iff_of_true ?_ fun _ => hfits
      rcases hrecorded with hreason | ⟨hreason, hentries⟩
      · exact .inr ⟨hne, hreason⟩
      · rcases hm with hm | ⟨-, hm⟩
        · left
          rw [SameWrites, hentries, hm, List.map_append]
          rfl
        · exact .inr ⟨hne, hreason ▸ hm⟩
  | savepoint n =>
    cases hstep
    exact iff_true_intro hm
  | release n =>
    rw [Transaction.step] at hstep
    split at hstep
    · cases hstep
    · cases hstep
      exact iff_true_intro hm
  | rollbackTo n => exact matches_rollbackTo hn ho hm hstep

end Agreement

structure BlockSession.Inv {U : UnicodeTables} (s : BlockSession U) (tx : TransactionJournalEntry) :
    Prop where
  tracks : s.capturing.Tracks (some tx.txId)
  slot : s.slot = some tx
  numbered : tx.Numbered
  ordered : s.pg.Ordered
  enabled : s.journal.enabled = true

section Block

variable {U : UnicodeTables} {s s' : BlockSession U} {tx : TransactionJournalEntry}
  {stmt : TxStmt (JournaledWrite U)}

theorem BlockSession.inv_begun {c : Capturing} (h : c.Tracks none) {j : TransactionJournal}
    (henabled : j.enabled) (slot : Option TransactionJournalEntry) :
    (BlockSession.begun U c j slot).Inv (.new c.cap.nextTxId) := by
  have hkind : classify U "BEGIN" = (.control .begin, false) := rfl
  have hspec := simpleCycle_begin h rfl (by decide : ∀ t ∈ ["BEGIN".toList], _) hkind
  have happly : applyOps (j, slot) (c.simpleCycle U "BEGIN" ["BEGIN"] .inBlock).2 =
      (j, some (.new c.cap.nextTxId)) := by
    rw [hspec.ops]
    rfl
  refine ⟨hspec.tracks, congrArg Prod.snd happly, TransactionJournalEntry.numbered_new _,
    Transaction.ordered_nil _, ?_⟩
  rw [show (BlockSession.begun U c j slot).journal = j from congrArg Prod.fst happly]
  exact henabled

theorem BlockSession.Inv.step (h : s.Inv tx) (hstep : s.step stmt = some s') :
    s.pg.step stmt = some s'.pg ∧
      s'.Inv (recorded s.journal s.capturing.cap.maxStatementBytes tx stmt) := by
  obtain ⟨pg, hpg, rfl⟩ := Option.map_eq_some_iff.mp hstep
  obtain ⟨hops, htracks⟩ := simpleCycle_block h.tracks stmt
  obtain ⟨hid, hnumbered⟩ :=
    recorded_numbered s.journal s.capturing.cap.maxStatementBytes stmt h.numbered
  have happly := applyOps_blockOps s.journal s.capturing.cap.maxStatementBytes tx stmt
  rw [← hops, ← h.slot] at happly
  refine ⟨hpg, ?_, congrArg Prod.snd happly, hnumbered, h.ordered.step hpg, ?_⟩
  · rw [hid]
    exact htracks
  · exact (congrArg (fun js : JournalState => js.1.enabled) happly).trans h.enabled

/-- `COMMIT` records the transaction of the slot. -/
theorem BlockSession.Inv.committed (h : s.Inv tx) :
    s.committed.journal = s.journal.recordCommittedSync tx "COMMIT" := by
  have hkind : classify U "COMMIT" = (.control .commit, false) := rfl
  have hspec := simpleCycle_end h.tracks rfl (by decide : ∀ t ∈ ["COMMIT".toList], _) hkind
    (.inl ⟨rfl, rfl⟩)
  change (applyOps (s.journal, s.slot) (s.capturing.simpleCycle U _ _ _).2).1 = _
  rw [hspec.ops, h.slot]
  exact congrArg Prod.fst (if_pos rfl)

theorem BlockSession.Inv.commitRefines_iff_matches (h : s.Inv tx) :
    CommitRefines s ↔ Matches tx s.pg.writes := by
  have hstored : CommitRefines s ↔
      if tx.entries = [] then s.committed.journal = s.journal ∧ s.pg.writes = []
      else s.committed.journal = s.journal.pushCommitted tx "COMMIT" ∧
        (SameWrites tx s.pg.writes ∨ tx.incompleteReason.isSome = true) := by
    simp only [CommitRefines, h.slot, Option.some.injEq, exists_eq_left']
  rw [hstored, h.committed, TransactionJournal.recordCommittedSync, h.enabled]
  by_cases hnil : tx.entries = []
  · rw [matches_of_nil hnil]
    simp [hnil]
  · simp [hnil, Matches]

theorem BlockSession.Inv.follows_iff (h : s.Inv tx) :
    s.Follows stmt ↔ Journal.Follows s.journal s.capturing.cap.maxStatementBytes tx s.pg stmt := by
  simp [BlockSession.Follows, h.slot]

end Block

/-- A transaction can be committed as PostgreSQL has it after each of its statements exactly if
its first write fits into the journal and every `ROLLBACK TO` finds its mark in the right
place. -/
theorem commitRefines_iff (U : UnicodeTables) (c : Capturing) (j : TransactionJournal)
    (slot : Option TransactionJournalEntry) (hidle : c.Tracks none) (henabled : j.enabled = true)
    (stmts : List (TxStmt (JournaledWrite U))) (s : BlockSession U)
    (hrun : Runs.run BlockSession.step (.begun U c j slot) stmts = some s) :
    (∀ k s', Runs.run BlockSession.step (.begun U c j slot) (stmts.take k) = some s' →
        CommitRefines s') ↔
      Runs.Along BlockSession.step BlockSession.Follows (.begun U c j slot) stmts := by
  have hbegun := BlockSession.inv_begun (U := U) hidle henabled slot
  refine Runs.forall_take_iff_along (I := fun s : BlockSession U => ∃ tx, s.Inv tx) ?_ ?_
    ⟨_, hbegun⟩ (hbegun.commitRefines_iff_matches.mpr (.inl rfl)) hrun
  · rintro s stmt s' ⟨tx, h⟩ hstep
    exact ⟨_, (h.step hstep).2⟩
  · rintro s stmt s' ⟨tx, h⟩ hrefines hstep
    obtain ⟨hpg, h'⟩ := h.step hstep
    rw [h'.commitRefines_iff_matches, h.follows_iff]
    exact matches_recorded h.numbered h.ordered (h.commitRefines_iff_matches.mp hrefines) hpg

def insertOne : JournaledWrite .ascii :=
  ⟨"INSERT INTO t VALUES (1)", "INSERT 0 1", .write, by decide, by decide, by decide⟩

def insertTwo : JournaledWrite .ascii :=
  ⟨"INSERT INTO t VALUES (2)", "INSERT 0 1", .write, by decide, by decide, by decide⟩

def identS : Identifier := ⟨"s", by decide, by decide⟩

def identT : Identifier := ⟨"t", by decide, by decide⟩

def BlockSession.fresh : BlockSession .ascii :=
  .begun .ascii ⟨.new 1048576, false⟩ (.new 10000 67108864 50000 268435456) none

/-- Nested savepoints of two names. -/
theorem commitRefines_nested :
    let stmts : List (TxStmt (JournaledWrite .ascii)) :=
      [.savepoint identS, .write insertOne, .savepoint identT, .write insertTwo, .rollbackTo identT,
        .release identT, .write insertTwo, .rollbackTo identS, .write insertOne]
    (Runs.run BlockSession.step .fresh stmts).isSome ∧
      ∀ k s', Runs.run BlockSession.step .fresh (stmts.take k) = some s' → CommitRefines s' := by
  intro stmts
  have hran : (Runs.run BlockSession.step .fresh stmts).isSome = true := by decide
  exact ⟨hran,
    (commitRefines_iff .ascii ⟨.new 1048576, false⟩ (.new 10000 67108864 50000 268435456) none
    ⟨rfl, rfl, rfl, rfl⟩ rfl stmts _ (Option.some_get hran).symm).mpr (by decide)⟩

/-- With a name used twice the journal goes back to the outer savepoint, and
loses the insert between the two. -/
theorem not_commitRefines_shadowed :
    ∃ s, Runs.run BlockSession.step .fresh [.savepoint identS, .write insertOne, .savepoint identS,
        .write insertTwo, .rollbackTo identS] = some s ∧
      s.pg.writes.map (·.text) = ["INSERT INTO t VALUES (1)".toList] ∧
      s.committed.journal.committed.txs = [] ∧ ¬ CommitRefines s := by
  refine ⟨_, rfl, by decide, by decide, ?_⟩
  rintro ⟨tx, hslot, hstored⟩
  cases hslot
  exact absurd hstored.2 (by decide)

end HeliosProxy.Journal
