import HeliosProxy.Journal.Capture
import HeliosProxy.Postgres.SimpleQuery
import HeliosProxy.Text.PlainNames

/-!
# Simple-query cycles

A session sends a string of statements, and the capture observes the tags and
the status PostgreSQL answers with.  What the capture makes of it depends on
four things only: whether a block was open before and is open after, whether
the string holds a write, and whether its last statement is a `COMMIT` whose
tag the capture looks at.
-/

namespace HeliosProxy.Journal

open Text Postgres

/-! ## Splitting a joined string -/

/-- A text that `split_statements` reads as one statement. -/
structure PartText (s : Str) : Prop where
  nonempty : s ≠ []
  trimmed : trim s = s
  free : ∀ c ∈ s, c ∉ ";'\"-/$".toList

def joined : List Str → Str
  | [] => []
  | [s] => s
  | s :: t :: ss => s ++ ';' :: ' ' :: joined (t :: ss)

variable {parts : List Str} {c : Char}

theorem mem_joined (h : c ∈ joined parts) :
    c = ';' ∨ c = ' ' ∨ ∃ s ∈ parts, c ∈ s := by
  induction parts with
  | nil => cases h
  | cons s parts ih =>
    cases parts with
    | nil => exact .inr (.inr ⟨s, List.mem_cons_self, h⟩)
    | cons t ss =>
      rcases List.mem_append.mp h with h | h
      · exact .inr (.inr ⟨s, List.mem_cons_self, h⟩)
      rcases List.mem_cons.mp h with rfl | h
      · exact .inl rfl
      rcases List.mem_cons.mp h with rfl | h
      · exact .inr (.inl rfl)
      rcases ih h with h | h | ⟨u, hu, hc⟩
      · exact .inl h
      · exact .inr (.inl h)
      · exact .inr (.inr ⟨u, List.mem_cons_of_mem _ hu, hc⟩)

variable {s : Str}

/-- Without quotes, comments and dollar quotes the split is at every
semicolon. -/
theorem splitPieces_of_free (h : ∀ c ∈ s, c ∉ "'\"-/$".toList) {fuel : Nat}
    (hfuel : s.length < fuel) (prev : Option Char) (piece : Str) :
    ∃ p ps, splitOn (· == ';') s = p :: ps ∧
      splitPieces fuel prev piece s = (piece ++ p) :: ps := by
  induction s generalizing fuel prev piece with
  | nil =>
    obtain ⟨fuel, rfl⟩ : ∃ n, fuel = n + 1 := ⟨fuel - 1, by simp at hfuel; omega⟩
    exact ⟨[], [], rfl, by rw [splitPieces, List.append_nil]⟩
  | cons c s ih =>
    obtain ⟨fuel, rfl⟩ : ∃ n, fuel = n + 1 := ⟨fuel - 1, by simp at hfuel; omega⟩
    have hlen : s.length < fuel := by simpa using hfuel
    have hs := fun d hd => h d (List.mem_cons_of_mem _ hd)
    by_cases hc : c = ';'
    · subst hc
      obtain ⟨p, ps, hsplit, hpieces⟩ := ih hs hlen (some ';') []
      refine ⟨[], p :: ps, by rw [splitOn, hsplit]; rfl, ?_⟩
      rw [splitPieces, if_pos (beq_self_eq_true _), hpieces, List.append_nil, List.nil_append]
    · have hne : (c == ';') = false := beq_eq_false_iff_ne.mpr hc
      have hskip := skipLength_of_free (h c List.mem_cons_self) prev s
      obtain ⟨p, ps, hsplit, hpieces⟩ := ih hs hlen (some c) (piece ++ [c])
      refine ⟨c :: p, ps, by rw [splitOn, hne, hsplit]; rfl, ?_⟩
      rw [splitPieces, hne]
      simp only [hskip, Bool.false_eq_true, if_false, List.take_succ_cons, List.take_zero,
        List.drop_succ_cons, List.drop_zero]
      rw [show ([c] : Str).getLast? = some c from rfl, hpieces, List.append_assoc]
      rfl

theorem splitOn_append_cons {sep : Char → Bool} (h : ∀ c ∈ s, sep c = false)
    (hc : sep c) (t : Str) : splitOn sep (s ++ c :: t) = s :: splitOn sep t := by
  induction s with
  | nil => rw [List.nil_append, splitOn, hc]; rfl
  | cons d s ih =>
    rw [List.cons_append, splitOn, h d List.mem_cons_self,
      ih fun e he => h e (List.mem_cons_of_mem _ he)]
    rfl

theorem splitOn_ne_nil (sep : Char → Bool) (s : Str) : splitOn sep s ≠ [] := by
  cases s with
  | nil => simp [splitOn]
  | cons c s =>
    rw [splitOn]
    split
    · simp
    · split <;> simp

theorem trim_space (s : Str) : trim (' ' :: s) = trim s := rfl

theorem map_trim_splitOn_joined (hne : parts ≠ [])
    (h : ∀ s ∈ parts, PartText s) : (splitOn (· == ';') (joined parts)).map trim = parts := by
  have hfree : ∀ s ∈ parts, ∀ c ∈ s, (c == ';') = false := fun s hs c hc =>
    beq_eq_false_iff_ne.mpr fun hsemi => (h s hs).free c hc (hsemi ▸ by decide)
  induction parts with
  | nil => exact absurd rfl hne
  | cons s parts ih =>
    cases parts with
    | nil =>
      rw [joined, splitOn_of_forall (hfree s List.mem_cons_self), List.map_cons,
        (h s List.mem_cons_self).trimmed]
      rfl
    | cons t ss =>
      have hrest := ih (by simp) (fun u hu => h u (List.mem_cons_of_mem _ hu))
        fun u hu => hfree u (List.mem_cons_of_mem _ hu)
      obtain ⟨p, ps, hsplit⟩ := List.exists_cons_of_ne_nil
        (splitOn_ne_nil (· == ';') (joined (t :: ss)))
      rw [hsplit, List.map_cons] at hrest
      have hspace : splitOn (· == ';') (' ' :: joined (t :: ss)) = (' ' :: p) :: ps := by
        rw [splitOn, hsplit]
        rfl
      rw [joined, splitOn_append_cons (hfree s List.mem_cons_self) rfl, List.map_cons,
        (h s List.mem_cons_self).trimmed, hspace, List.map_cons, trim_space, hrest]

/-- `split_statements` of a joined string. -/
theorem splitStatements_joined (hne : parts ≠ []) (h : ∀ s ∈ parts, PartText s) :
    splitStatements (joined parts) = parts := by
  have hfree : ∀ c ∈ joined parts, c ∉ "'\"-/$".toList := by
    intro c hc hmem
    rcases mem_joined hc with rfl | rfl | ⟨s, hs, hcs⟩
    · exact absurd hmem (by decide)
    · exact absurd hmem (by decide)
    · exact (h s hs).free c hcs (List.mem_cons_of_mem _ hmem)
  obtain ⟨p, ps, hsplit, hpieces⟩ := splitPieces_of_free hfree (Nat.lt_succ_self _) none []
  rw [List.nil_append, ← hsplit] at hpieces
  have hkeep : parts.filter (fun p => !p.isEmpty) = parts :=
    List.filter_eq_self.mpr fun s hs => by simpa using (h s hs).nonempty
  rw [splitStatements, hpieces, map_trim_splitOn_joined hne h, hkeep]
  simp [hne]

/-! ## Statements and their texts -/

theorem trim_of_ends (hstart : s.head?.all (!isWhitespace ·))
    (hend : s.getLast?.all (!isWhitespace ·)) : trim s = s := by
  have hdrop : ∀ s : Str, s.head?.all (!isWhitespace ·) →
      s.dropWhile isWhitespace = s := by
    intro s hs
    cases s with
    | nil => rfl
    | cons c s =>
      have hc : isWhitespace c = false := by simpa using hs
      rw [List.dropWhile_cons, hc]
      rfl
  rw [List.getLast?_eq_head?_reverse] at hend
  rw [trim, trimStart, hdrop s hstart, trimEnd, hdrop _ hend, List.reverse_reverse]

theorem statementBody_eq (hcomment : skipLeadingComments s = s) (hspace : trimStart s = s) :
    statementBody s = s := by
  rw [statementBody, hcomment, statementBodyFuel, if_pos (by rw [hspace])]

structure WriteForm (U : UnicodeTables) (W : Type) where
  text : W → Str
  tag : W → Str
  part : ∀ w, PartText (text w)
  kind : ∀ w, classifySingle U (text w) = .write
  notCommit : ∀ w, eqIgnoreCase (tag w) "COMMIT" = false
  notPrepared : ∀ w, eqIgnoreCase (tag w) "COMMIT PREPARED" = false

section Form

variable {U : UnicodeTables} {W : Type} (F : WriteForm U W)

namespace WriteForm

def stmtText : Stmt W → Str
  | .write w => F.text w
  | .read => "SELECT 1"
  | .begin => "BEGIN"
  | .commit => "COMMIT"
  | .rollback => "ROLLBACK"

def stmtTag : Stmt W → Str
  | .write w => F.tag w
  | .read => "SELECT 1"
  | .begin => "BEGIN"
  | .commit => "COMMIT"
  | .rollback => "ROLLBACK"

def sql (stmts : List (Stmt W)) : Str := joined (stmts.map F.stmtText)

theorem part_stmtText (s : Stmt W) : PartText (F.stmtText s) := by
  have hfixed : ∀ t ∈ ["SELECT 1".toList, "BEGIN".toList, "COMMIT".toList, "ROLLBACK".toList],
      t ≠ [] ∧ trim t = t ∧ (t.all fun c => decide (c ∉ ";'\"-/$".toList)) := by decide
  have hpart : ∀ t ∈ ["SELECT 1".toList, "BEGIN".toList, "COMMIT".toList, "ROLLBACK".toList],
      PartText t := fun t ht =>
      ⟨(hfixed t ht).1, (hfixed t ht).2.1, List.all_iff_forall_prop.1 (hfixed t ht).2.2⟩
  cases s with
  | write w => exact F.part w
  | read => exact hpart _ (.head _)
  | begin => exact hpart _ (.tail _ (.head _))
  | commit => exact hpart _ (.tail _ (.tail _ (.head _)))
  | rollback => exact hpart _ (.tail _ (.tail _ (.tail _ (.head _))))

theorem eqIgnoreCase_stmtTag (s : Stmt W) :
    eqIgnoreCase (F.stmtTag s) "COMMIT" = (s matches .commit) := by
  cases s with
  | write w => exact F.notCommit w
  | read | begin | commit | rollback => rfl

theorem notPrepared_stmtTag (s : Stmt W) :
    eqIgnoreCase (F.stmtTag s) "COMMIT PREPARED" = false := by
  cases s with
  | write w => exact F.notPrepared w
  | read | begin | commit | rollback => rfl

end WriteForm

def stmtKind : Stmt W → StmtKind
  | .write _ => .write
  | .read => .read
  | .begin => .control .begin
  | .commit => .control .commit
  | .rollback => .control .rollback

theorem classifySingle_stmtText (s : Stmt W) : classifySingle U (F.stmtText s) = stmtKind s := by
  cases s with
  | write w => exact F.kind w
  | read | begin | commit | rollback => rfl

/-- The kinds of such a string: a write if there is one, control or nothing
else. -/
theorem foldl_strongest (stmts : List (Stmt W)) (kind : StmtKind)
    (hkind : kind = .read ∨ kind = .write ∨ ∃ c, kind = .control c) :
    let last := stmts.foldl (fun kind s => StmtKind.strongest kind (stmtKind s)) kind
    if kind = .write ∨ hasWrite stmts then last = .write
    else last = .read ∨ ∃ c, last = .control c := by
  induction stmts generalizing kind with
  | nil =>
    rcases hkind with rfl | rfl | ⟨c, rfl⟩ <;> simp [hasWrite]
  | cons s stmts ih =>
    have hstep : ∃ next, StmtKind.strongest kind (stmtKind s) = next ∧
        (next = .read ∨ next = .write ∨ ∃ c, next = .control c) ∧
        (next = .write ↔ kind = .write ∨ s.isWrite) := by
      rcases hkind with rfl | rfl | ⟨c, rfl⟩ <;> cases s <;>
        simp [StmtKind.strongest, stmtKind, Stmt.isWrite]
    obtain ⟨next, hnext, hkinds, hwrite⟩ := hstep
    have hany : hasWrite (s :: stmts) = (s.isWrite || hasWrite stmts) := rfl
    have hlast := ih next hkinds
    simp only [List.foldl_cons, hnext, hany, Bool.or_eq_true, ← or_assoc, ← hwrite] at hlast ⊢
    exact hlast

/-- `classify` of a cycle's string. -/
theorem classify_sql (s : Stmt W) (rest : List (Stmt W)) :
    classify U (F.sql (s :: rest)) =
      if rest.isEmpty then (stmtKind s, false)
      else (if hasWrite (s :: rest) then .write else .read, true) := by
  have hparts : splitStatements (F.sql (s :: rest)) = (s :: rest).map F.stmtText := by
    refine splitStatements_joined (by simp) fun t ht => ?_
    obtain ⟨u, _, rfl⟩ := List.mem_map.mp ht
    exact F.part_stmtText u
  cases rest with
  | nil =>
    simp only [classify, hparts, List.map_cons, List.map_nil, classifySingle_stmtText]
    rfl
  | cons t rest =>
    have hfold := foldl_strongest (s :: t :: rest) .read (.inl rfl)
    have hkinds :
      (s :: t :: rest).foldl (fun kind s => StmtKind.strongest kind (stmtKind s)) .read =
        ((s :: t :: rest).map F.stmtText).foldl
          (fun kind p => StmtKind.strongest kind (classifySingle U p)) .read := by
      rw [List.foldl_map]
      simp only [classifySingle_stmtText]
    simp only [reduceCtorEq, false_or] at hfold
    simp only [classify, hparts, List.map_cons]
    rw [hkinds, List.map_cons, List.map_cons] at hfold
    by_cases hwrite : hasWrite (s :: t :: rest)
    · rw [if_pos hwrite] at hfold
      rw [hfold, hwrite]
      rfl
    · rw [if_neg hwrite] at hfold
      rw [Bool.not_eq_true] at hwrite
      rcases hfold with hfold | ⟨c, hfold⟩ <;> rw [hfold, hwrite] <;> rfl

end Form

/-! ## Observing a cycle -/

/-- The capture of a session, with the flag `journal_open` the relay reads. -/
structure Capturing where
  cap : SessionCapture
  journalOpen : Bool

/-- One cycle: `journal_register_simple`, and `journal_observe_sync` with the
tags collected when the cycle is armed. -/
def Capturing.simpleCycle (U : UnicodeTables) (c : Capturing) (sql : Str) (tags : List Str)
    (status : TxStatus) : Capturing × List JournalOp :=
  let (cap, armed) := c.cap.registerSimple U sql
  if !armed && status == .idle && !c.journalOpen then ({ c with cap }, [])
  else
    let (cap, ops) := cap.observe ⟨status, if armed then tags.map .tag else [], none⟩
    (⟨cap, cap.inTransaction⟩, ops)

/-- The status after a string that leaves the block `b` open. -/
def statusOf {W : Type} (b : Option (List W)) : TxStatus := if b.isSome then .inBlock else .idle

/-- The capture has the transaction `txId` open, and nothing left over. -/
structure Capturing.Tracks (c : Capturing) (txId : Option Nat) : Prop where
  pending : c.cap.pending = []
  deferred : c.cap.deferred = []
  journalOpen : c.journalOpen = txId.isSome
  openTx : c.cap.openTx = txId.map fun id => ⟨id, false⟩

def loggedEntry (maxBytes : Nat) (sql tag : Str) : NewEntry :=
  ⟨if maxBytes < byteLen sql then [] else sql, [], [], tag, .simple⟩

def loggedReason (maxBytes : Nat) (sql : Str) : Option Str :=
  if maxBytes < byteLen sql then some "statement text exceeds journal.max_statement_bytes"
  else none

def logOps (txId : Nat) : Option (NewEntry × Option Str) → List JournalOp
  | none => []
  | some (entry, reason) => .log txId entry :: (reason.map (.incomplete txId)).toList

/-- What a cycle can be for the journal: the transaction open before, whether
one is open after, the string's entry if it holds a write, and whether the
capture sees that it ends with a `COMMIT`. -/
def cycleOps (before : Option Nat) (after : Bool) (fresh : Nat)
    (logged : Option (NewEntry × Option Str)) (seen : Bool) : List JournalOp :=
  match before, after with
  | none, false => match logged with
    | none => []
    | some (entry, reason) => [.autoCommit [entry] entry.tag reason]
  | none, true => .begin fresh :: logOps fresh logged
  | some id, true => logOps id logged
  | some id, false => logOps id logged ++ [if seen then .commit id "COMMIT" else .rollback id]

def txAfter (before : Option Nat) (after : Bool) (fresh : Nat) : Option Nat :=
  if after then before.or (some fresh) else none

section Observe

variable {U : UnicodeTables} {c : Capturing} {txId : Option Nat} {sql : Str} {tags : List Str}
  {multi : Bool}

structure CycleSpec (c : Capturing) (txId : Option Nat) (after : Bool)
    (logged : Option (NewEntry × Option Str)) (seen : Bool) (r : Capturing × List JournalOp) :
    Prop where
  ops : r.2 = cycleOps txId after c.cap.nextTxId logged seen
  tracks : r.1.Tracks (txAfter txId after c.cap.nextTxId)
  maxBytes : r.1.cap.maxStatementBytes = c.cap.maxStatementBytes

def afterStatus (after : Bool) : TxStatus := if after then .inBlock else .idle

variable {outcome : ResponseOutcome} {cap : SessionCapture}

theorem CycleSpec.of_observation {after : Bool}
    {logged : Option (NewEntry × Option Str)} {seen : Bool} {o : Observation}
    (ho : cap.observation outcome = o)
    (hops : o.ops = cycleOps txId after c.cap.nextTxId logged seen)
    (hopen : o.openTx = (txAfter txId after c.cap.nextTxId).map fun id => ⟨id, false⟩)
    (hmax : cap.maxStatementBytes = c.cap.maxStatementBytes) :
    CycleSpec c txId after logged seen
      (⟨(cap.observe outcome).1, (cap.observe outcome).1.inTransaction⟩,
        (cap.observe outcome).2) := by
  subst ho
  refine ⟨hops, ⟨rfl, rfl, ?_, hopen⟩, hmax⟩
  change (cap.observation outcome).openTx.isSome = _
  rw [hopen, Option.isSome_map]

theorem simpleCycle_read (h : c.Tracks txId) (hkind : classify U sql = (.read, multi))
    (after : Bool) :
    CycleSpec c txId after none false (c.simpleCycle U sql tags (afterStatus after)) := by
  have hreg : c.cap.registerSimple U sql = (c.cap, false) := by
    rw [SessionCapture.registerSimple, hkind]
    rfl
  rw [Capturing.simpleCycle, hreg]
  obtain ⟨⟨openTx, _, _, _, pending, _, _, deferred, _⟩, flag⟩ := c
  obtain ⟨rfl, rfl, rfl, rfl⟩ := h
  cases txId <;> cases after <;> exact ⟨rfl, ⟨rfl, rfl, rfl, rfl⟩, rfl⟩

theorem lastTag_map (status : TxStatus) (tags : List Str) :
    ResponseOutcome.lastTag ⟨status, tags.map .tag, none⟩ = tags.getLast? := by
  rw [ResponseOutcome.lastTag, List.getLast?_eq_head?_reverse, ← List.map_reverse]
  cases tags.reverse <;> rfl

variable {p : Pending}

theorem observation_pending (cap : SessionCapture) (hpending : cap.pending = [p])
    (hdeferred : cap.deferred = [])
    (hprepared : outcome.preparedCommitted = false) :
    cap.observation outcome =
      .reconcile outcome (.notePending outcome ⟨cap.openTx, cap.nextTxId, [], [], none⟩ p) := by
  rw [SessionCapture.observation, hpending, hdeferred, hprepared]
  rfl

variable {t : Str}

theorem observation_single (hp : p.protocol = .simple)
    (hpending : cap.pending = [p]) (hdeferred : cap.deferred = [])
    (hlast : tags.getLast? = some t)
    (hprepared : ∀ t ∈ tags, eqIgnoreCase t "COMMIT PREPARED" = false) (status : TxStatus) :
    cap.observation ⟨status, tags.map .tag, none⟩ =
      .reconcile ⟨status, tags.map .tag, none⟩
        (match p.kind with
          | .read => ⟨cap.openTx, cap.nextTxId, [], [], none⟩
          | .control c => Observation.applyControl ⟨cap.openTx, cap.nextTxId, [], [], none⟩ c t
          | .write | .copy | .opaqueStmt =>
            Observation.noteWrite ⟨cap.openTx, cap.nextTxId, [], [], none⟩ p t) := by
  have hany : ResponseOutcome.preparedCommitted ⟨status, tags.map .tag, none⟩ = false := by
    rw [ResponseOutcome.preparedCommitted, List.any_map, List.any_eq_false]
    exact fun t ht => Bool.eq_false_iff.mp (hprepared t ht)
  have hresolve : p.resolve ⟨status, tags.map .tag, none⟩ = .ok t := by
    rw [Pending.resolve, hp, lastTag_map, hlast]
    rfl
  rewrite [observation_pending cap hpending hdeferred hany, Observation.notePending, hresolve]
  rfl

theorem reconcile_idle (hlast : tags.getLast? = some t) (o : Observation) :
    o.reconcile ⟨.idle, tags.map .tag, none⟩ =
      let ended := match o.openTx with
        | none => o
        | some x =>
          { o with openTx := none }.push
            [if eqIgnoreCase t "COMMIT" then .commit x.txId "COMMIT"
              else .rollback x.txId]
      if !o.implicit.isEmpty then ended.push [.autoCommit o.implicit t o.implicitIncomplete]
      else ended := by
  generalize hended : o.reconcile ⟨.idle, tags.map .tag, none⟩ = ended
  simp only [Observation.reconcile, lastTag_map, hlast, Option.isNone_none, Bool.true_and,
    Bool.and_true, Option.any_some, Option.getD_some] at hended
  exact hended.symm

/-- What `register_simple` registers. -/
def sentPending (maxBytes : Nat) (sql : Str) (kind : StmtKind) (multi : Bool) : Pending :=
  ⟨if maxBytes < byteLen sql then [] else sql, kind, multi, [], [], .simple, 0,
    maxBytes < byteLen sql⟩

theorem simpleCycle_armed {kind : StmtKind} (hpending : c.cap.pending = [])
    (hkind : classify U sql = (kind, multi)) (hne : kind ≠ .read) (status : TxStatus) :
    c.simpleCycle U sql tags status =
      let cap := { c.cap with
        pending := [sentPending c.cap.maxStatementBytes sql kind multi] }
      let r := cap.observe ⟨status, tags.map .tag, none⟩
      (⟨r.1, r.1.inTransaction⟩, r.2) := by
  have hreg : c.cap.registerSimple U sql =
      ({ c.cap with
          pending := [sentPending c.cap.maxStatementBytes sql kind multi] }, true) := by
    rw [SessionCapture.registerSimple, hkind, hpending]
    simp only [beq_eq_false_iff_ne.mpr hne]
    rfl
  rw [Capturing.simpleCycle, hreg]
  rfl

section Armed

variable {t : Str} (h : c.Tracks txId) (hlast : tags.getLast? = some t)
  (hprepared : ∀ t ∈ tags, eqIgnoreCase t "COMMIT PREPARED" = false)
include h hlast hprepared

theorem simpleCycle_write (hkind : classify U sql = (.write, multi)) (after : Bool) :
    CycleSpec c txId after
      (some (loggedEntry c.cap.maxStatementBytes sql t, loggedReason c.cap.maxStatementBytes sql))
      (eqIgnoreCase t "COMMIT") (c.simpleCycle U sql tags (afterStatus after)) := by
  rw [simpleCycle_armed h.pending hkind (by simp)]
  have hentry : (sentPending c.cap.maxStatementBytes sql .write multi).entry t =
      loggedEntry c.cap.maxStatementBytes sql t := by
    by_cases hbig : c.cap.maxStatementBytes < byteLen sql <;>
      simp [sentPending, Pending.entry, loggedEntry, hbig]
  have hreason : (sentPending c.cap.maxStatementBytes sql .write multi).reason =
      loggedReason c.cap.maxStatementBytes sql := by
    by_cases hbig : c.cap.maxStatementBytes < byteLen sql <;>
      simp [sentPending, Pending.reason, loggedReason, hbig, StmtKind.incompleteReason]
  rw [← hentry, ← hreason]
  obtain ⟨⟨openTx, _, _, _, pending, _, _, deferred, _⟩, flag⟩ := c
  obtain ⟨rfl, rfl, rfl, rfl⟩ := h
  refine CycleSpec.of_observation (observation_single rfl rfl rfl hlast hprepared _) ?_ ?_ rfl
  · cases after with
    | false =>
      rw [show afterStatus false = .idle from rfl, reconcile_idle hlast]
      cases txId <;> rfl
    | true =>
      cases txId with
      | none => rfl
      | some id => exact List.append_nil _
  · cases after with
    | false =>
      cases txId <;> rfl
    | true => cases txId <;> rfl

/-- A single `BEGIN`. -/
theorem simpleCycle_begin (hkind : classify U sql = (.control .begin, multi)) :
    CycleSpec c txId true none false (c.simpleCycle U sql tags .inBlock) := by
  rw [simpleCycle_armed h.pending hkind (by simp)]
  obtain ⟨⟨openTx, _, _, _, pending, _, _, deferred, _⟩, flag⟩ := c
  obtain ⟨rfl, rfl, rfl, rfl⟩ := h
  refine CycleSpec.of_observation (observation_single rfl rfl rfl hlast hprepared _) ?_ ?_ rfl <;>
    cases txId <;> rfl

/-- A single `COMMIT` or `ROLLBACK`, with its own tag. -/
theorem simpleCycle_end {ctl : Control} (hkind : classify U sql = (.control ctl, multi))
    (hctl : ctl = .commit ∧ t = "COMMIT" ∨ ctl = .rollback ∧ t = "ROLLBACK") :
    CycleSpec c txId false none (eqIgnoreCase t "COMMIT") (c.simpleCycle U sql tags .idle) := by
  rw [simpleCycle_armed h.pending hkind (by simp)]
  obtain ⟨⟨openTx, _, _, _, pending, _, _, deferred, _⟩, flag⟩ := c
  obtain ⟨rfl, rfl, rfl, rfl⟩ := h
  refine CycleSpec.of_observation (observation_single rfl rfl rfl hlast hprepared _) ?_ ?_ rfl <;>
    obtain ⟨rfl, rfl⟩ | ⟨rfl, rfl⟩ := hctl <;> cases txId <;> rfl

end Armed

end Observe

/-! ## A cycle of the session -/

structure Cycle (W : Type) where
  first : Stmt W
  rest : List (Stmt W)

def Cycle.stmts {W : Type} (c : Cycle W) : List (Stmt W) := c.first :: c.rest

/-- Whether the capture sees that the string ends with a `COMMIT`: the tags of
a string of control statements and reads are not collected. -/
def commitSeen {W : Type} (stmts : List (Stmt W)) : Bool :=
  (stmts.getLast? matches some .commit) && (stmts.length == 1 || hasWrite stmts)

section Session

variable {U : UnicodeTables} {W V : Type} [DecidableEq V] (F : WriteForm U W) (f : W → V)

def WriteForm.logged (maxBytes : Nat) (stmts : List (Stmt W)) : Option (NewEntry × Option Str) :=
  if hasWrite stmts then
    some (loggedEntry maxBytes (F.sql stmts) ((stmts.getLast?.map F.stmtTag).getD []),
      loggedReason maxBytes (F.sql stmts))
  else none

/-- What the capture makes of a cycle of a session with the block `b` open. -/
theorem simpleCycle_spec {c : Capturing} {txId : Option Nat} (h : c.Tracks txId)
    (b : Option (List V)) (s : Stmt W) (rest : List (Stmt W)) :
    CycleSpec c txId (exec b ((s :: rest).map (Stmt.map f))).block.isSome
      (F.logged c.cap.maxStatementBytes (s :: rest)) (commitSeen (s :: rest))
      (c.simpleCycle U (F.sql (s :: rest)) ((s :: rest).map F.stmtTag)
        (statusOf (exec b ((s :: rest).map (Stmt.map f))).block)) := by
  obtain ⟨u, hu⟩ : ∃ u, (s :: rest).getLast? = some u :=
    ⟨_, List.getLast?_eq_some_getLast (List.cons_ne_nil s rest)⟩
  have hlast : ((s :: rest).map F.stmtTag).getLast? = some (F.stmtTag u) := by
    rw [List.getLast?_map, hu]
    rfl
  have hprepared : ∀ t ∈ (s :: rest).map F.stmtTag,
      eqIgnoreCase t "COMMIT PREPARED" = false := by
    intro t ht
    obtain ⟨v, _, rfl⟩ := List.mem_map.mp ht
    exact F.notPrepared_stmtTag v
  have hkind := classify_sql F s rest
  have hseen : hasWrite (s :: rest) →
      commitSeen (s :: rest) = eqIgnoreCase (F.stmtTag u) "COMMIT" := by
    intro hw
    rw [commitSeen, hw, hu, F.eqIgnoreCase_stmtTag, Bool.or_true]
    cases u <;> rfl
  by_cases hw : hasWrite (s :: rest)
  · have hwrite : ∃ multi, classify U (F.sql (s :: rest)) = (.write, multi) := by
      cases rest with
      | nil =>
        cases s with
        | write w => exact ⟨false, hkind⟩
        | read | begin | commit | rollback => cases hw
      | cons t rest => exact ⟨true, by rw [hkind, hw]; rfl⟩
    obtain ⟨multi, hwrite⟩ := hwrite
    rw [hseen hw, WriteForm.logged, if_pos hw, hu]
    exact simpleCycle_write h hlast hprepared hwrite _
  · rw [Bool.not_eq_true] at hw
    rw [WriteForm.logged, hw]
    cases rest with
    | nil =>
      obtain rfl : s = u := Option.some.inj hu
      cases s with
      | write w => cases hw
      | read => exact simpleCycle_read h hkind _
      | begin => exact simpleCycle_begin h hlast hprepared hkind
      | commit => exact simpleCycle_end h hlast hprepared hkind (.inl ⟨rfl, rfl⟩)
      | rollback => exact simpleCycle_end h hlast hprepared hkind (.inr ⟨rfl, rfl⟩)
    | cons t rest =>
      have hunseen : commitSeen (s :: t :: rest) = false := by
        rw [commitSeen, hw]
        exact Bool.and_false _
      rw [hunseen]
      exact simpleCycle_read h (by rw [hkind, hw]; rfl) _

end Session

end HeliosProxy.Journal
