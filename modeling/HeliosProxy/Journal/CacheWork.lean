import HeliosProxy.Cache.Attribution
import HeliosProxy.Journal.SimpleCycle

/-!
# Cache invalidation from the capture

The query cache is invalidated from the journal operations of each cycle
(`cache_work_from_ops`): an auto-commit at once, the writes of a transaction
when the capture sees its commit.  The capture infers the commit from the last
tag of the string and the status after it.
-/

namespace HeliosProxy.Journal

open Text Postgres HeliosProxy.Lists List Option

structure TxCacheStage where
  tables : List Str
  unknown : Bool
deriving DecidableEq

structure CacheWork where
  tables : List Str
  all : Bool
deriving DecidableEq

def CacheWork.addEntry (U : UnicodeTables) (work : CacheWork) (e : NewEntry) : CacheWork :=
  match writeTables U e.statement with
  | some t => { work with tables := t.foldl addNew work.tables }
  | none => { work with all := true }

/-- One turn of `cache_work_from_ops`. -/
def cacheWorkOp (U : UnicodeTables) : TxCacheStage × CacheWork → JournalOp →
    TxCacheStage × CacheWork
  | (stage, work), .log _ entry =>
    match writeTables U entry.statement with
    | some t => ({ stage with tables := t.foldl addNew stage.tables }, work)
    | none => ({ stage with unknown := true }, work)
  | (stage, work), .incomplete _ _ => ({ stage with unknown := true }, work)
  | (stage, work), .autoCommit entries _ incomplete =>
    (stage, entries.foldl (CacheWork.addEntry U) { work with all := work.all || incomplete.isSome })
  | (stage, work), .commit _ _ =>
    (⟨[], false⟩, ⟨stage.tables.foldl addNew work.tables, work.all || stage.unknown⟩)
  | (_, work), .rollback _ => (⟨[], false⟩, work)
  | (stage, work), .preparedCommitted => (stage, { work with all := true })
  | (stage, work), .begin _ | (stage, work), .savepoint _ _ | (stage, work), .rollbackTo _ _ =>
    (stage, work)

def cacheWorkFromOps (U : UnicodeTables) (ops : List JournalOp) (stage : TxCacheStage) :
    TxCacheStage × CacheWork :=
  ops.foldl (cacheWorkOp U) (stage, ⟨[], false⟩)

/-! ## Updates -/

/-- `UPDATE table SET x = 1`, and how many rows it changes.  `ONLY` is a
reserved word of PostgreSQL. -/
structure Update where
  table : Str
  rows : Nat
  plain : PlainName table
  notOnly : table ≠ "only"
deriving DecidableEq

theorem partText_updateOf {t : Str} (ht : PlainName t) : PartText (updateOf t) where
  nonempty h := by cases h
  trimmed := by
    refine trim_of_ends rfl ?_
    unfold updateOf
    rw [← append_assoc, getLast?_append]
    rfl
  free c hc := by
    have hends : ∀ c ∈ "UPDATE ".toList ++ " SET x = 1".toList, c ∉ ";'\"-/$".toList :=
      all_iff_forall_prop.1 (by decide)
    rcases mem_append.mp hc with hc | hc
    · exact hends c (mem_append_left _ hc)
    rcases mem_append.mp hc with hc | hc
    · exact plainChar_forall (fun c => c ∉ ";'\"-/$".toList) (by decide)
        (List.all_eq_true.mp ht.chars c hc)
    · exact hends c (mem_append_right _ hc)

theorem classifySingle_updateOf (U : UnicodeTables) (t : Str) :
    classifySingle U (updateOf t) = .write := by
  have hlead : leadingRest (updateOf t) = false := rfl
  rw [classifySingle, statementBody_eq rfl rfl]
  rfl

def updateForm (U : UnicodeTables) : WriteForm U Update where
  text u := updateOf u.table
  tag u := "UPDATE " ++ Nat.toDigits 10 u.rows
  part u := partText_updateOf u.plain
  kind u := classifySingle_updateOf U u.table
  notCommit _ := rfl
  notPrepared _ := rfl

/-! ## The tables of a string -/

section Tables

variable {U : UnicodeTables}

theorem writeTables_update (u : Update) :
    writeTables U (updateOf u.table) = none ∨
      ∃ ts, writeTables U (updateOf u.table) = some ts ∧ u.table ∈ ts := by
  by_cases hw : Cache.notPatternWord u.table
  · obtain ⟨ts, hts, _, hmem⟩ := Cache.writeTables_updateOf u.plain hw
    exact .inr ⟨ts, hts, hmem⟩
  · -- The name is one of the words read before the target.
    have hskip : skippedTarget "UPDATE" u.table := by
      have hany : patternWords.any (eqIgnoreCase u.table) := by
        simpa [Cache.notPatternWord] using hw
      rw [skippedTarget, hany, Bool.true_or]
    obtain ⟨ms, hms, _⟩ := tableMatches_updateOf (.inl rfl) U u.plain (u.plain.nameText u.notOnly)
    have hnone : writtenTables U (tablePattern cacheKeywords) (updateOf u.table) = none := by
      rw [writtenTables, hms, foldlM_cons, hskip]
      rfl
    rw [writeTables, singleStatement_updateOf u.plain]
    simp [hnone]

def startsStatement : Piece → Bool
  | .text _ | .rest _ => true
  | _ => false

theorem foldlM_scanPiece_ended {sql : Str} {sc : Scan} (hended : sc.ended) {p : Piece}
    (hp : startsStatement p) (ps : List Piece) :
    (p :: ps).foldlM (scanPiece U sql) sc = none := by
  rw [foldlM_cons]
  cases p with
  | text t => rw [scanPiece, hended]; rfl
  | rest t => rfl
  | space _ | comment _ | ident _ | str _ | dollar _ _ | number _ => cases hp

theorem singleStatement_of_two {sql : Str} {ps qs : List Piece} {sp : Str} {p : Piece}
    (h : pieces sql = ps ++ .text [';'] :: .space sp :: p :: qs)
    (hp : startsStatement p) : singleStatement U sql = none := by
  have hscan : (pieces sql).foldlM (scanPiece U sql) Scan.init = none := by
    rw [h, foldlM_append]
    cases ps.foldlM (scanPiece U sql) Scan.init with
    | none => rfl
    | some sc =>
      simp only [bind_eq_bind, bind_some, foldlM_cons]
      by_cases hended : sc.ended
      · rw [scanPiece, hended]
        rfl
      · have hsemi : scanPiece U sql sc (.text [';']) =
            some { sc.skip (.text [';']) with ended := true } := by
          rw [scanPiece, if_neg hended]
          rfl
        rw [hsemi]
        exact foldlM_scanPiece_ended rfl hp qs
  rw [singleStatement, hscan]
  rfl

theorem piecesFuel_stmtText (s : Stmt Update) :
    ∃ ps, ps.length ≤ ((updateForm U).stmtText s).length ∧ ∀ n tail,
      piecesFuel (n + ps.length) ((updateForm U).stmtText s ++ ';' :: tail) =
        ps ++ piecesFuel n (';' :: tail) := by
  cases s with
  | write u =>
    refine ⟨pieces (updateOf u.table), ?_, fun n tail => ?_⟩ <;> rw [pieces_updateOf u.plain]
    · change 11 ≤ (updateOf u.table).length
      rw [length_updateOf]
      omega
    · exact piecesFuel_updateOf u.plain (.inr ⟨tail, rfl⟩) n
  | read =>
    refine ⟨[.text "SELECT", .space [' '], .number ['1']], Nat.le_of_ble_eq_true rfl,
      fun n tail => ?_⟩
    have hfront : piecesFuel (n + 3) ("SELECT 1" ++ ';' :: tail) =
        [.text "SELECT", .space [' ']] ++ (nextPiece '1' (';' :: tail)).1 ::
          piecesFuel n (nextPiece '1' (';' :: tail)).2 := rfl
    rw [nextPiece_one (.inr ⟨tail, rfl⟩)] at hfront
    exact hfront
  | begin => exact ⟨[.text "BEGIN"], Nat.le_of_ble_eq_true rfl, fun _ _ => rfl⟩
  | commit => exact ⟨[.text "COMMIT"], Nat.le_of_ble_eq_true rfl, fun _ _ => rfl⟩
  | rollback => exact ⟨[.text "ROLLBACK"], Nat.le_of_ble_eq_true rfl, fun _ _ => rfl⟩

theorem writeTables_sql_of_two (s t : Stmt Update) (rest : List (Stmt Update)) :
    writeTables U ((updateForm U).sql (s :: t :: rest)) = none := by
  obtain ⟨c, r, hsecond, hspace, hword⟩ : ∃ c r, (updateForm U).sql (t :: rest) = c :: r ∧
      isSpace c = false ∧ ∀ r, nextPiece c r = wordPiece (c :: r.takeWhile identCont)
        (r.dropWhile identCont) := by
    have hhead : ∀ ss : List Str, ∃ tail, joined ((updateForm U).stmtText t :: ss) =
        (updateForm U).stmtText t ++ tail := by
      intro ss
      cases ss with
      | nil => exact ⟨[], (List.append_nil _).symm⟩
      | cons u ss => exact ⟨_, rfl⟩
    obtain ⟨tail, htail⟩ := hhead (rest.map (updateForm U).stmtText)
    cases t <;> exact ⟨_, _, htail, rfl, fun _ => rfl⟩
  obtain ⟨ps, hlen, hps⟩ := piecesFuel_stmtText (U := U) s
  have hsql : (updateForm U).sql (s :: t :: rest) =
      (updateForm U).stmtText s ++ ';' :: ' ' :: (c :: r) := by
    rw [← hsecond]
    rfl
  obtain ⟨n, hn⟩ : ∃ n, ((updateForm U).stmtText s ++ ';' :: ' ' :: (c :: r)).length =
      (n + 3) + ps.length := by
    refine ⟨((updateForm U).stmtText s).length - ps.length + r.length, ?_⟩
    rw [length_append]
    simp only [length_cons]
    omega
  have hgap : nextPiece ' ' (c :: r) = (.space [' '], c :: r) := by
    rw [nextPiece, takeWhile_cons, dropWhile_cons, hspace]
    rfl
  have hpieces : pieces ((updateForm U).sql (s :: t :: rest)) =
      ps ++ .text [';'] :: .space [' '] :: (nextPiece c r).1 :: piecesFuel n (nextPiece c r).2 := by
    rw [hsql, pieces, hn, hps]
    change ps ++ .text [';'] :: (nextPiece ' ' (c :: r)).1 ::
      piecesFuel (n + 1) (nextPiece ' ' (c :: r)).2 = _
    rw [hgap]
    rfl
  have hstarts : startsStatement (nextPiece c r).1 := by
    rw [hword, wordPiece]
    split <;> rfl
  rw [writeTables, singleStatement_of_two hpieces hstarts]
  rfl

theorem writeTables_loggedEntry (maxBytes : Nat) (c : Cycle Update) (tag : Str) :
    let sql := (loggedEntry maxBytes ((updateForm U).sql c.stmts) tag).statement
    writeTables U sql = none ∨
      ∃ ts, writeTables U sql = some ts ∧ ∀ u, .write u ∈ c.stmts → u.table ∈ ts := by
  by_cases hbig : maxBytes < byteLen ((updateForm U).sql c.stmts)
  · left
    simp only [loggedEntry, if_pos hbig]
    rfl
  · simp only [loggedEntry, if_neg hbig]
    obtain ⟨s, rest⟩ := c
    cases rest with
    | cons t rest => exact .inl (writeTables_sql_of_two s t rest)
    | nil =>
      cases s with
      | write u =>
        rcases writeTables_update u with hnone | ⟨ts, hts, hmem⟩
        · exact .inl hnone
        · refine .inr ⟨ts, hts, fun v hv => ?_⟩
          cases mem_singleton.mp hv
          exact hmem
      | read | begin | commit | rollback =>
        left
        rfl

end Tables

/-! ## Sessions -/

structure CachedSession where
  block : Option (List Update)
  capturing : Capturing
  stage : TxCacheStage

namespace CachedSession

def init (maxStatementBytes : Nat) : CachedSession where
  block := none
  capturing := ⟨.new maxStatementBytes, false⟩
  stage := ⟨[], false⟩

def observed (U : UnicodeTables) (s : CachedSession) (c : Cycle Update) :
    Capturing × List JournalOp :=
  s.capturing.simpleCycle U ((updateForm U).sql c.stmts) (c.stmts.map (updateForm U).stmtTag)
    (statusOf (exec s.block c.stmts).block)

def cycle (U : UnicodeTables) (s : CachedSession) (c : Cycle Update) : CachedSession × CacheWork :=
  let work := cacheWorkFromOps U (s.observed U c).2 s.stage
  (⟨(exec s.block c.stmts).block, (s.observed U c).1, work.1⟩, work.2)

def after (U : UnicodeTables) (maxStatementBytes : Nat) (cycles : List (Cycle Update)) :
    CachedSession :=
  cycles.foldl (fun s c => (s.cycle U c).1) (init maxStatementBytes)

end CachedSession

def Covers (tables : List Str) (all : Bool) (u : Update) : Prop := u.table ∈ tables ∨ all = true

instance (tables : List Str) (all : Bool) (u : Update) : Decidable (Covers tables all u) :=
  inferInstanceAs (Decidable (_ ∨ _))

def UpdatesNoticed (U : UnicodeTables) (s : CachedSession) (c : Cycle Update) : Prop :=
  ∀ u ∈ (exec s.block c.stmts).durable, Covers (s.cycle U c).2.tables (s.cycle U c).2.all u

instance (U : UnicodeTables) (s : CachedSession) (c : Cycle Update) :
    Decidable (UpdatesNoticed U s c) := inferInstanceAs (Decidable (∀ u ∈ _, _))

/-- The cycle makes no update durable, or it leaves no block open and ends a
block it found open with a `COMMIT` the capture sees. -/
def CommitObserved (b : Option (List Update)) (c : Cycle Update) : Prop :=
  (exec b c.stmts).durable = [] ∨
    (exec b c.stmts).block = none ∧ (b.isSome = true → commitSeen c.stmts = true)

/-! ## What the capture stages -/

section Stage

variable {U : UnicodeTables} (stage : TxCacheStage) (work : CacheWork)

theorem Covers.foldl_addNew {tables ts : List Str} {all : Bool} {u : Update}
    (h : Covers tables all u) : Covers (ts.foldl addNew tables) all u :=
  h.imp (fun hmem => mem_foldl_addNew.mpr (.inl hmem)) id

/-- The stage after the string is logged keeps what it covered, and covers the
string's updates. -/
theorem cacheWork_logOps (maxBytes txId : Nat) (c : Cycle Update) :
    ∃ stage', (logOps txId ((updateForm U).logged maxBytes c.stmts)).foldl (cacheWorkOp U)
      (stage, work) =
        (stage', work) ∧
      (∀ u, Covers stage.tables stage.unknown u → Covers stage'.tables stage'.unknown u) ∧
      ∀ u, .write u ∈ c.stmts → Covers stage'.tables stage'.unknown u := by
  unfold WriteForm.logged
  by_cases hw : hasWrite c.stmts
  · rw [if_pos hw, logOps, foldl_cons]
    have hreason : ∀ (stage : TxCacheStage) (reason : Option Str),
        ∃ stage', (reason.map (JournalOp.incomplete txId)).toList.foldl (cacheWorkOp U)
        (stage, work) =
            (stage', work) ∧
          ∀ u, Covers stage.tables stage.unknown u → Covers stage'.tables stage'.unknown u := by
      intro stage reason
      cases reason with
      | none => exact ⟨stage, rfl, fun _ h => h⟩
      | some r => exact ⟨_, rfl, fun _ _ => .inr rfl⟩
    rcases writeTables_loggedEntry maxBytes c
      ((c.stmts.getLast?.map (updateForm U).stmtTag).getD []) with hnone | ⟨ts, hts, hmem⟩
    · obtain ⟨stage', hfold, hkeep⟩ := hreason { stage with unknown := true }
        (loggedReason maxBytes ((updateForm U).sql c.stmts))
      refine ⟨stage', ?_, fun u _ => hkeep u (.inr rfl), fun u _ => hkeep u (.inr rfl)⟩
      rw [cacheWorkOp, hnone]
      exact hfold
    · obtain ⟨stage', hfold, hkeep⟩ := hreason { stage with tables := ts.foldl addNew stage.tables }
        (loggedReason maxBytes ((updateForm U).sql c.stmts))
      refine ⟨stage', ?_, fun u hu => hkeep u hu.foldl_addNew, fun u hu => hkeep u (.inl ?_)⟩
      · rw [cacheWorkOp, hts]
        exact hfold
      · exact mem_foldl_addNew.mpr (.inr (hmem u hu))
  · rw [if_neg hw]
    refine ⟨stage, rfl, fun _ h => h, fun u hu => absurd ?_ hw⟩
    exact List.any_eq_true.mpr ⟨.write u, hu, rfl⟩

theorem cacheWork_autoCommit (maxBytes : Nat) (c : Cycle Update) (tag t : Str)
    (reason : Option Str) :
    let work := (cacheWorkOp U (stage, ⟨[], false⟩) (.autoCommit
      [loggedEntry maxBytes ((updateForm U).sql c.stmts) tag] t reason)).2
    ∀ u, .write u ∈ c.stmts → Covers work.tables work.all u := by
  intro work u hu
  simp only [work, cacheWorkOp, foldl_cons, CacheWork.addEntry]
  rcases writeTables_loggedEntry maxBytes c tag with hnone | ⟨ts, hts, hmem⟩
  · rw [hnone]
    exact .inr rfl
  · rw [hts]
    exact .inl (mem_foldl_addNew.mpr (.inr (hmem u hu)))

/-- A cycle that leaves a transaction open owes nothing and stages its
updates. -/
theorem cacheWork_open (maxBytes : Nat) (c : Cycle Update) (before : Option Nat) (fresh : Nat)
    (seen : Bool) :
    let r := cacheWorkFromOps U
      (cycleOps before true fresh ((updateForm U).logged maxBytes c.stmts) seen) stage
    r.2 = ⟨[], false⟩ ∧ ∀ u, Covers stage.tables stage.unknown u ∨ .write u ∈ c.stmts →
      Covers r.1.tables r.1.unknown u := by
  obtain ⟨txId, hops⟩ : ∃ txId, (cycleOps before true fresh ((updateForm U).logged maxBytes c.stmts)
        seen).foldl (cacheWorkOp U) (stage, ⟨[], false⟩) =
      (logOps txId ((updateForm U).logged maxBytes c.stmts)).foldl (cacheWorkOp U)
        (stage, ⟨[], false⟩) := by
    cases before with
    | none => exact ⟨fresh, rfl⟩
    | some id => exact ⟨id, rfl⟩
  obtain ⟨stage', hfold, hkeep, hnew⟩ := cacheWork_logOps stage ⟨[], false⟩ maxBytes
    txId c
  rw [cacheWorkFromOps, hops, hfold]
  exact ⟨rfl, fun u hu => hu.elim (hkeep u) (hnew u)⟩

/-- A cycle that ends a transaction owes what was staged and its own updates,
if the capture sees the commit. -/
theorem cacheWork_close (maxBytes : Nat) (c : Cycle Update) (id fresh : Nat) (seen : Bool) :
    let r := cacheWorkFromOps U
      (cycleOps (some id) false fresh ((updateForm U).logged maxBytes c.stmts) seen) stage
    if seen then ∀ u, Covers stage.tables stage.unknown u ∨ .write u ∈ c.stmts →
      Covers r.2.tables r.2.all u
    else r.2 = ⟨[], false⟩ := by
  obtain ⟨stage', hfold, hkeep, hnew⟩ := cacheWork_logOps stage ⟨[], false⟩ maxBytes
    id c
  rw [cacheWorkFromOps, cycleOps, foldl_append, hfold]
  cases seen with
  | false => rfl
  | true =>
    rw [if_pos rfl]
    intro u hu
    have hstaged : Covers stage'.tables stage'.unknown u := hu.elim (hkeep u) (hnew u)
    exact hstaged.imp (fun hmem => mem_foldl_addNew.mpr (.inr hmem)) fun hall => hall

theorem cacheWork_auto (maxBytes : Nat) (c : Cycle Update) (fresh : Nat) (seen : Bool) :
    let r := cacheWorkFromOps U
      (cycleOps none false fresh ((updateForm U).logged maxBytes c.stmts) seen) stage
    ∀ u, .write u ∈ c.stmts → Covers r.2.tables r.2.all u := by
  intro r u hu
  have hw : hasWrite c.stmts := List.any_eq_true.mpr ⟨.write u, hu, rfl⟩
  simp only [r, cacheWorkFromOps, WriteForm.logged, if_pos hw, cycleOps, foldl_cons]
  exact cacheWork_autoCommit stage maxBytes c _ _ _ u hu

end Stage

/-! ## Every run of a session -/

section Run

variable {U : UnicodeTables}

/-- The capture follows PostgreSQL's block, and the stage covers its updates. -/
structure CachedSession.Inv (s : CachedSession) (txId : Option Nat) : Prop where
  tracks : s.capturing.Tracks txId
  block : txId.isSome = s.block.isSome
  staged : ∀ u ∈ s.block.getD [], Covers s.stage.tables s.stage.unknown u

theorem CachedSession.inv_init (maxStatementBytes : Nat) : (init maxStatementBytes).Inv none :=
  ⟨⟨rfl, rfl, rfl, rfl⟩, rfl, by simp [init]⟩

theorem updatesNoticed_of_no_work {s : CachedSession} {c : Cycle Update}
    (hwork : (s.cycle U c).2 = ⟨[], false⟩) :
    UpdatesNoticed U s c ↔ (exec s.block c.stmts).durable = [] := by
  unfold UpdatesNoticed
  rw [hwork, eq_nil_iff_forall_not_mem]
  simp [Covers]

variable {s : CachedSession} {txId : Option Nat} (h : s.Inv txId) (c : Cycle Update)
include h

theorem CachedSession.Inv.cycleSpec :
    CycleSpec s.capturing txId (exec s.block c.stmts).block.isSome
      ((updateForm U).logged s.capturing.cap.maxStatementBytes c.stmts) (commitSeen c.stmts)
      (s.observed U c) := by
  have hspec := simpleCycle_spec (updateForm U) id h.tracks s.block c.first c.rest
  have hid : (c.first :: c.rest).map (Stmt.map id) = c.first :: c.rest := by
    have : (Stmt.map id : Stmt Update → Stmt Update) = id := by
      funext s
      cases s <;> rfl
    rw [this, List.map_id]
  rw [hid] at hspec
  exact hspec

theorem CachedSession.Inv.cycle : ∃ txId', (s.cycle U c).1.Inv txId' := by
  have hspec := h.cycleSpec (U := U) c
  have hknown : (exec s.block c.stmts).Holds fun u =>
      Covers s.stage.tables s.stage.unknown u ∨ .write u ∈ c.stmts :=
    exec_holds (fun u hu => .inl (h.staged u hu)) fun u hu => .inr hu
  refine ⟨_, hspec.tracks, ?_, ?_⟩
  · change Option.isSome (txAfter _ _ _) = (exec s.block c.stmts).block.isSome
    cases (exec s.block c.stmts).block.isSome <;> cases txId <;> rfl
  · intro u hu
    change u ∈ (exec s.block c.stmts).block.getD [] at hu
    cases hblock : (exec s.block c.stmts).inBlock with
    | false =>
      rw [Exec.block, hblock] at hu
      cases hu
    | true =>
      have hsome : (exec s.block c.stmts).block.isSome := by rw [Exec.block, hblock]; rfl
      rw [Exec.block, hblock] at hu
      have hwork := (cacheWork_open (U := U) s.stage s.capturing.cap.maxStatementBytes c
        txId s.capturing.cap.nextTxId (commitSeen c.stmts)).2 u (hknown.pending u hu)
      change Covers (cacheWorkFromOps U (s.observed U c).2 s.stage).1.tables
        (cacheWorkFromOps U (s.observed U c).2 s.stage).1.unknown u
      rw [hspec.ops, hsome]
      exact hwork

theorem CachedSession.Inv.updatesNoticed_iff_commitObserved :
    UpdatesNoticed U s c ↔ CommitObserved s.block c := by
  have hspec := h.cycleSpec (U := U) c
  have hwork : (s.cycle U c).2 = (cacheWorkFromOps U (s.observed U c).2 s.stage).2 := rfl
  have hknown : (exec s.block c.stmts).Holds fun u =>
      Covers s.stage.tables s.stage.unknown u ∨ .write u ∈ c.stmts :=
    exec_holds (fun u hu => .inl (h.staged u hu)) fun u hu => .inr hu
  rw [hspec.ops] at hwork
  unfold CommitObserved
  cases hafter : (exec s.block c.stmts).block with
  | some pending =>
    rw [hafter] at hwork
    rw [updatesNoticed_of_no_work (hwork.trans (cacheWork_open _ _ c txId _ _).1)]
    simp
  | none =>
    rw [hafter] at hwork
    cases htx : txId with
    | none =>
      have hblock : s.block = none := by simpa [htx] using h.block
      have hauto : UpdatesNoticed U s c := by
        intro u hu
        have hmem : .write u ∈ c.stmts := by
          have hstring : (exec s.block c.stmts).Holds fun u => .write u ∈ c.stmts :=
            exec_holds (by simp [hblock]) fun _ hu => hu
          exact hstring.durable u hu
        rw [htx] at hwork
        rw [hwork]
        exact cacheWork_auto _ _ c _ _ u hmem
      simp [hauto, hblock]
    | some id =>
      have hblock : s.block.isSome := by simpa [htx] using h.block.symm
      have hclose := cacheWork_close (U := U) s.stage s.capturing.cap.maxStatementBytes c id
        s.capturing.cap.nextTxId (commitSeen c.stmts)
      rw [htx] at hwork
      rw [hblock]
      cases hseen : commitSeen c.stmts with
      | false =>
        rw [hseen] at hclose hwork
        rw [updatesNoticed_of_no_work (hwork.trans hclose)]
        simp
      | true =>
        rw [hseen] at hclose hwork
        have hnoticed : UpdatesNoticed U s c := by
          intro u hu
          rw [hwork]
          exact hclose u (hknown.durable u hu)
        simp [hnoticed]

end Run

theorem CachedSession.inv_after (U : UnicodeTables) (maxStatementBytes : Nat)
    (cycles : List (Cycle Update)) : ∃ txId, (after U maxStatementBytes cycles).Inv txId := by
  suffices hrun : ∀ s : CachedSession, (∃ txId, s.Inv txId) →
      ∃ txId, (cycles.foldl (fun s c => (s.cycle U c).1) s).Inv txId from
    hrun _ ⟨none, inv_init maxStatementBytes⟩
  induction cycles with
  | nil => exact fun _ h => h
  | cons c cycles ih =>
    rintro s ⟨txId, h⟩
    exact ih _ (h.cycle c)

/-- After any cycles, the updates that become durable in the next one are
noticed exactly when its commit is observed. -/
theorem updatesNoticed_iff (U : UnicodeTables) (maxStatementBytes : Nat)
    (cycles : List (Cycle Update)) (c : Cycle Update) :
    UpdatesNoticed U (.after U maxStatementBytes cycles) c ↔
      CommitObserved (CachedSession.after U maxStatementBytes cycles).block c := by
  obtain ⟨txId, h⟩ := CachedSession.inv_after U maxStatementBytes cycles
  exact h.updatesNoticed_iff_commitObserved c

def updateOfT : Update := ⟨"t", 1, plainName_t, by decide⟩

/-- A commit behind a read in one string is taken for a rollback. -/
theorem not_updatesNoticed_read_commit :
    let s := CachedSession.after .ascii 1024 [⟨.begin, []⟩, ⟨.write updateOfT, []⟩]
    let c : Cycle Update := ⟨.read, [.commit]⟩
    (updateForm .ascii).sql c.stmts = "SELECT 1; COMMIT" ∧
      (exec s.block c.stmts).durable = [updateOfT] ∧ (s.cycle .ascii c).2 = ⟨[], false⟩ ∧
      ¬ UpdatesNoticed .ascii s c := by
  decide

end HeliosProxy.Journal
