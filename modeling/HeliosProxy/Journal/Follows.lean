import HeliosProxy.Journal.Extended
import HeliosProxy.Lib.Runs

/-!
# The entries of extended-protocol cycles

The capture is meant to record the journaled texts that ran.  It pairs the
statements it registered with the completions by counting `Execute`s, and keeps
what ran outside a transaction apart until the answer says what became of it.
-/

namespace HeliosProxy.Journal

open Text Postgres List Option

/-! ## A session -/

def JournalOp.entries : JournalOp → List NewEntry
  | .log _ e => [e]
  | .autoCommit es _ _ => es
  | _ => []

def JournalOp.marks : JournalOp → Bool
  | .incomplete .. => true
  | .autoCommit _ _ reason => reason.isSome
  | _ => false

structure ExtCycle where
  turns : List Turn
  status : TxStatus

/-- The backend and the capture, with everything that ran so far, and the
entries of all cycles.  `unmarked` are the texts of the cycles that marked no
transaction incomplete. -/
structure ExtendedSession where
  backend : ExtBackend
  capturing : Capturing
  ran : List Str
  finished : List Str
  unmarked : List Str
  entries : List NewEntry

namespace ExtendedSession

variable (U : UnicodeTables) (P : PgText)

def init (maxStatementBytes : Nat) : ExtendedSession :=
  ⟨.empty, ⟨.new maxStatementBytes, false⟩, [], [], [], []⟩

def observed (s : ExtendedSession) (c : ExtCycle) (x : Exchange) : Capturing × List JournalOp :=
  s.capturing.extendedCycle U (c.turns.map (·.message)) ⟨c.status, x.completions, x.error⟩

def step (s : ExtendedSession) (c : ExtCycle) : Option ExtendedSession :=
  (Exchange.turns P s.backend c.turns).map fun x =>
    { backend := x.synced c.status,
      capturing := (s.observed U c x).1,
      ran := s.ran ++ x.ran,
      finished := s.finished ++ x.finished,
      unmarked := if (s.observed U c x).2.any JournalOp.marks then s.unmarked
      else s.unmarked ++ x.ran,
      entries := s.entries ++ (s.observed U c x).2.flatMap JournalOp.entries }

end ExtendedSession

def recordedText (maxBytes : Nat) (text : Str) : Str := if maxBytes < byteLen text then [] else text

/-- The entries are the journaled texts that ran, in order and one for each, an
oversized one without its text but in a cycle that marks a transaction
incomplete. -/
structure CaptureFollows (U : UnicodeTables) (s : ExtendedSession) : Prop where
  entries : s.entries.map (·.statement) =
    (s.ran.filter (journaledText U)).map (recordedText s.capturing.cap.maxStatementBytes)
  marked : ∀ t ∈ s.unmarked, journaledText U t = true →
    byteLen t ≤ s.capturing.cap.maxStatementBytes
  finished : ∀ t ∈ s.finished, t ∈ s.ran

/-! ## When the capture follows -/

instance (b : ExtBackend) (m : ExtMessage) : Decidable (Harmless b m) := by
  cases m <;> unfold Harmless <;> infer_instance

/-- The implicit transaction of a batch: the journaled texts it holds, and those
that a `BEGIN` took into its block. -/
structure Implicit where
  inBlock : Bool
  left : List Str
  joined : List Str

def Implicit.note (U : UnicodeTables) (i : Implicit) (text : Str) : Implicit :=
  match (classify U text).1 with
  | .control .begin => if i.inBlock then i else ⟨true, [], i.joined ++ i.left⟩
  | .control .commit | .control .rollback | .control .prepareTransaction =>
    { i with inBlock := false }
  | .write | .copy | .opaqueStmt => if i.inBlock then i else { i with left := i.left ++ [text] }
  | _ => i

/-- The implicit transaction at the end of a batch that ran the texts `ran`. -/
def implicitAfter (U : UnicodeTables) (inBlock : Bool) (ran : List Str) : Implicit :=
  ran.foldl (Implicit.note U) ⟨inBlock, [], []⟩

/-- What keeps the capture in step with the backend in a cycle:

* no `Execute` of an earlier cycle is still counted, unless nothing is captured;
* the messages are UTF-8;
* those that failed or were skipped concern nothing the backend holds;
* the error of a batch rolls back no journaled text with the implicit
  transaction;
* a `BEGIN` takes no oversized text into its block. -/
@[mk_iff]
structure InStep (U : UnicodeTables) (s : ExtendedSession) (c : ExtCycle) (x : Exchange) :
    Prop where
  counted : s.capturing.cap.execs = 0 ∨
    (s.capturing.cap.registerBatch U (c.turns.map (·.message))).armed = false
  utf8 : ∀ t ∈ c.turns, utf8Message t.message = true
  harmless : ∀ t ∈ c.turns.dropWhile (fun t => !t.answer.isError),
    Harmless (x.synced c.status) t.message
  kept : c.status = .failed ∨ c.status = .idle ∧ x.error.isSome = true →
    (implicitAfter U s.capturing.cap.openTx.isSome x.ran).left = []
  small : ∀ t ∈ (implicitAfter U s.capturing.cap.openTx.isSome x.ran).joined,
    byteLen t ≤ s.capturing.cap.maxStatementBytes

instance (U : UnicodeTables) (s : ExtendedSession) (c : ExtCycle) (x : Exchange) :
    Decidable (InStep U s c x) :=
  decidable_of_iff' _ (inStep_iff U s c x)

/-! ## Pairing with the completions -/

structure PendingOf (U : UnicodeTables) (maxBytes : Nat) (text : Str) (p : Pending) : Prop where
  kind : p.kind = (classify U text).1
  statement : journaledText U text = true →
    ∀ tag, (p.entry tag).statement = recordedText maxBytes text
  reason : journaledText U text = true → maxBytes < byteLen text → p.reason.isSome = true

/-- The registered statements that the answer resolves are those of `texts`. -/
inductive Aligned (U : UnicodeTables) (maxBytes : Nat) (outcome : ResponseOutcome) :
    List Pending → List Str → Prop
  | nil : Aligned U maxBytes outcome [] []
  | ok {p : Pending} {text tag : Str} {ps : List Pending} {texts : List Str}
      (hreg : PendingOf U maxBytes text p) (hr : p.resolve outcome = .ok tag)
      (hre : Aligned U maxBytes outcome ps texts) :
        Aligned U maxBytes outcome (p :: ps) (text :: texts)
  | other {p : Pending} {ps : List Pending} {texts : List Str}
      (hr : ∀ tag, p.resolve outcome ≠ .ok tag)
      (hre : Aligned U maxBytes outcome ps texts) : Aligned U maxBytes outcome (p :: ps) texts

section Pairing

variable {U : UnicodeTables} {maxBytes : Nat} {outcome : ResponseOutcome} {ps ps' : List Pending}
  {texts texts' : List Str}

theorem Aligned.append (h : Aligned U maxBytes outcome ps texts)
    (h' : Aligned U maxBytes outcome ps' texts') :
    Aligned U maxBytes outcome (ps ++ ps') (texts ++ texts') := by
  induction h with
  | nil => exact h'
  | ok hre hr _ ih => exact .ok hre hr ih
  | other hr _ ih => exact .other hr ih

theorem Aligned.append_other (h : Aligned U maxBytes outcome ps texts) {p : Pending}
    (hr : ∀ tag, p.resolve outcome ≠ .ok tag) : Aligned U maxBytes outcome (ps ++ [p]) texts := by
  have := h.append (.other hr .nil)
  rwa [List.append_nil] at this

theorem pendingOf_executePending {p : Portal} {text : Str} {types : List UInt32}
    (hp : p.prepared = preparedOf U maxBytes text types) (i : Nat) :
    PendingOf U maxBytes text (executePending p i) := by
  have hsql : journaledText U text →
      p.prepared.sql = some (recordedText maxBytes text) := by
    intro hj
    have hread : ((classify U text).1 == .read) = false := by
      rw [beq_eq_false_iff_ne]
      intro hread
      rw [journaledText, hread] at hj
      cases hj
    rw [hp, preparedOf, recordedText]
    simp only [hread, Bool.false_eq_true, if_false]
    split <;> rfl
  have hempty :
    journaledText U text → (recordedText maxBytes text = [] ↔ maxBytes < byteLen text) := by
    intro hj
    unfold recordedText
    split
    · next hbig => simp [hbig]
    · next hbig =>
      refine iff_of_false ?_ hbig
      rintro rfl
      cases hj
  have hoversize : journaledText U text →
      (executePending p i).oversize = decide (maxBytes < byteLen text) := by
    intro hj
    have hkind : p.prepared.kind.isJournaled := by rw [hp]; exact hj
    rw [executePending, hkind, hsql hj]
    rw [Bool.eq_iff_iff]
    simpa using hempty hj
  refine ⟨by rw [executePending, hp]; rfl, fun hj tag => ?_, fun hj hbig => ?_⟩
  · rw [Pending.entry, hoversize hj]
    by_cases hbig : maxBytes < byteLen text
    · simp [hbig, recordedText]
    · simp [hbig, executePending, hsql hj]
  · rw [Pending.reason, hoversize hj, decide_eq_true hbig]
    rfl

/-- The completion of its own `Execute` resolves a registered statement. -/
theorem resolve_executePending (p : Portal) {i : Nat} {c : Completion} (hc : c ≠ .empty)
    (hi : outcome.completions[i]? = some c) :
    ∃ tag, (executePending p i).resolve outcome = .ok tag := by
  cases c with
  | tag t => exact ⟨t, by simp [Pending.resolve, executePending, hi]⟩
  | suspended => exact ⟨"SUSPENDED", by simp [Pending.resolve, executePending, hi]⟩
  | empty => exact absurd rfl hc

theorem resolve_executePending_ne (p : Portal) {i : Nat}
    (hi : ∀ c ∈ outcome.completions[i]?, c = .empty) (tag : Str) :
    (executePending p i).resolve outcome ≠ .ok tag := by
  simp only [Pending.resolve, executePending]
  cases hc : outcome.completions[i]? with
  | none =>
    cases outcome.error with
    | none => simp
    | some e =>
      by_cases hlast : i = outcome.completions.length <;> simp [hlast]
  | some c =>
    obtain rfl := hi c hc
    simp

end Pairing

/-! ## A batch, message by message -/

/-- The capture after the messages that the backend answered so far, in a batch
that started with the count `start`. -/
structure Noted (U : UnicodeTables) (start : Nat) (x : Exchange) (cap : SessionCapture) : Prop where
  agrees : Agrees U x.backend cap
  execs : cap.execs = start + x.completions.length
  captured : cap.pending = [] → x.ran.filter (capturedText U) = []
  aligned : start = 0 → ∀ more status error, Aligned U cap.maxStatementBytes
    ⟨status, x.completions ++ more, error⟩ cap.pending (x.ran.filter (capturedText U))

section Batch

variable {U : UnicodeTables} {P : PgText} {start : Nat} {x x' : Exchange} {cap : SessionCapture}
  {portal : WireStr} {c : Completion}

/-- An `Execute` and its completion. -/
theorem Noted.execute (h : Noted U start x cap) (hexec : x.execute P portal c = some x') :
    Noted U start x' (cap.noteMessage U (.execute portal)) := by
  obtain ⟨q, hq, hempty, rfl⟩ := Exchange.execute_eq_some hexec
  obtain ⟨text, htext, hagrees, hexecs, hpending⟩ := h.agrees.execute hq
  have hpg : P.text q.definition.1 = text := by rw [htext]; rfl
  have hmax := (noteMessage_keeps (U := U) cap (.execute portal)).1.maxStatementBytes
  rw [Exchange.runs, hpg]
  rw [hpg] at hempty
  have hcount : (cap.noteMessage U (.execute portal)).execs =
      start + (x.completions ++ [c]).length := by
    rw [hexecs, h.execs, length_append]
    rfl
  have holder : start = 0 → ∀ more status error, Aligned U cap.maxStatementBytes
      ⟨status, x.completions ++ [c] ++ more, error⟩ cap.pending
        (x.ran.filter (capturedText U)) := by
    intro hstart more status error
    rw [append_assoc]
    exact h.aligned hstart ([c] ++ more) status error
  cases hnew : capturedText U text && !q.ran with
  | false =>
    rw [hnew] at hpending
    have hran : (if q.ran || P.emptyQuery text then x.ran else x.ran ++ [text]).filter
        (capturedText U) = x.ran.filter (capturedText U) := by
      split
      · rfl
      · next hfirst =>
        have hcaptured : capturedText U text = false := by simp_all
        simp [hcaptured]
    have hsame : (cap.noteMessage U (.execute portal)).pending = cap.pending := hpending
    refine ⟨hagrees, hcount, ?_, ?_⟩
    · rw [hsame, hran]
      exact h.captured
    · rw [hsame, hran, hmax]
      exact holder
  | true =>
    rw [hnew] at hpending
    obtain ⟨p, ⟨types, hp⟩, hpending⟩ := hpending
    obtain ⟨hcaptured, hfirst⟩ := Bool.and_eq_true_iff.mp hnew
    rw [Bool.not_eq_true'] at hfirst
    refine ⟨hagrees, hcount, fun hnone => by simp [hpending] at hnone,
      fun hstart more status error => ?_⟩
    have hindex : (x.completions ++ [c] ++ more)[cap.execs]? = some c := by
      rw [h.execs, hstart]
      simp
    rw [hpending, hmax, hfirst]
    cases hquery : P.emptyQuery text with
    | true =>
      rw [hquery] at hempty
      exact (holder hstart more status error).append_other
        (resolve_executePending_ne p fun c' hc' => by
          obtain rfl := Option.some.inj (hindex.symm.trans hc')
          simpa using hempty.symm)
    | false =>
      rw [hquery] at hempty
      have hindex' : (ResponseOutcome.completions
          ⟨status, x.completions ++ [c] ++ more, error⟩)[cap.execs]? = some c := hindex
      obtain ⟨tag, htag⟩ := resolve_executePending p (by simpa using hempty.symm) hindex'
      have hone := (Aligned.nil).ok (pendingOf_executePending hp cap.execs) htag
      simpa [hcaptured] using (holder hstart more status error).append hone

theorem Noted.lose (h : Noted U start x cap) (lost : WireStr → Bool) :
    Noted U start { x with backend := x.backend.lose lost } cap :=
  ⟨h.agrees.mono (Backend.lose_within _ _), h.execs, h.captured, h.aligned⟩

theorem Noted.turn (h : Noted U start x cap) {t : Turn} (hutf8 : utf8Message t.message)
    (herror : x.error = none) (hanswer : t.answer.isError = false) (hturn : x.turn P t = some x') :
    Noted U start x' (cap.noteMessage U t.message) ∧ x'.error = none := by
  rw [Exchange.turn, herror] at hturn
  obtain ⟨y, hy, rfl⟩ := map_eq_some_iff.mp hturn
  obtain ⟨m, answer, lost⟩ := t
  have hok : ∀ b', (∀ portal, m ≠ .execute portal) → x.backend.accept unnamed m = some b' →
      Noted U start { x with backend := b' } (cap.noteMessage U m) := by
    intro b' hexec haccept
    obtain ⟨hexecs, hpending⟩ := (noteMessage_keeps cap m).2 hexec
    have hmax := (noteMessage_keeps (U := U) cap m).1.maxStatementBytes
    refine ⟨h.agrees.accept hutf8 haccept hexec, hexecs.trans h.execs, ?_, ?_⟩
    · rw [hpending]
      exact h.captured
    · rw [hpending, hmax]
      exact h.aligned
  suffices hnoted : Noted U start y (cap.noteMessage U m) ∧ y.error = none from
    ⟨hnoted.1.lose lost, hnoted.2⟩
  rcases Exchange.answered_cases hy hanswer with ⟨portal, c, rfl, hexec⟩ | ⟨hexec, b', hb', rfl⟩
  · refine ⟨h.execute hexec, ?_⟩
    obtain ⟨q, -, -, rfl⟩ := Exchange.execute_eq_some hexec
    exact herror
  · exact ⟨hok b' hexec hb', herror⟩

/-- The capture after a batch, against the backend `b` that it leaves. -/
structure Registered (U : UnicodeTables) (start : Nat) (x : Exchange) (b : ExtBackend)
    (cap : SessionCapture) : Prop where
  agrees : Agrees U b cap
  execs : start = 0 → x.completions.length ≤ cap.execs
  captured : cap.pending = [] → x.ran.filter (capturedText U) = []
  aligned : start = 0 → ∀ status, Aligned U cap.maxStatementBytes ⟨status, x.completions, x.error⟩
    cap.pending (x.ran.filter (capturedText U))

variable {b : ExtBackend}

theorem Noted.registered (h : Noted U start x cap) (y : Exchange)
    (hle : b.Within x.backend) (hcompletions : y.completions = x.completions)
    (hran : y.ran = x.ran) :
    Registered U start y b cap := by
  refine ⟨h.agrees.mono hle, fun hstart => ?_, ?_, fun hstart status => ?_⟩
  · rw [hcompletions, h.execs]
    exact Nat.le_add_left _ _
  · rw [hran]
    exact h.captured
  · have := h.aligned hstart [] status y.error
    rwa [List.append_nil, ← hcompletions, ← hran] at this

theorem Registered.skip (h : Registered U start x b cap) {m : ExtMessage}
    (hutf8 : utf8Message m) (hm : Harmless b m) :
    Registered U start x b (cap.noteMessage U m) := by
  have hagrees := h.agrees.harmless hutf8 hm
  have hmax := (noteMessage_keeps (U := U) cap m).1.maxStatementBytes
  by_cases hexec : ∃ portal, m = .execute portal
  · obtain ⟨portal, rfl⟩ := hexec
    obtain ⟨portal, rfl⟩ := utf8?_isSome hutf8
    have hnote : cap.noteMessage U (.execute (.text portal)) = cap.noteExecute (.text portal) := rfl
    rw [hnote] at hagrees hmax ⊢
    rcases noteExecute_cases cap portal with ⟨-, hcase⟩ | ⟨p, -, -, hcase⟩
    · rw [hcase] at hagrees ⊢
      exact ⟨hagrees, fun hstart => Nat.le_succ_of_le (h.execs hstart), h.captured, h.aligned⟩
    · rw [hcase] at hagrees ⊢
      refine ⟨hagrees, fun hstart => Nat.le_succ_of_le (h.execs hstart), by simp,
        fun hstart status => ?_⟩
      refine (h.aligned hstart status).append_other (resolve_executePending_ne p ?_)
      have hnone : x.completions[cap.execs]? = none := getElem?_eq_none (h.execs hstart)
      simp [hnone]
  · have hexec' : ∀ portal, m ≠ .execute portal := fun portal he => hexec ⟨portal, he⟩
    obtain ⟨hexecs, hpending⟩ := (noteMessage_keeps cap m).2 hexec'
    refine ⟨hagrees, ?_, ?_, ?_⟩
    · rw [hexecs]
      exact h.execs
    · rw [hpending]
      exact h.captured
    · rw [hpending, hmax]
      exact h.aligned

theorem Registered.skips (h : Registered U start x b cap) {ms : List ExtMessage}
    (hutf8 : ∀ m ∈ ms, utf8Message m) (hms : ∀ m ∈ ms, Harmless b m) :
    Registered U start x b (cap.registerBatch U ms) := by
  induction ms generalizing cap with
  | nil => exact h
  | cons m ms ih =>
    exact ih (h.skip (hutf8 m mem_cons_self) (hms m mem_cons_self))
      (fun m' hm' => hutf8 m' (mem_cons_of_mem _ hm'))
      (fun m' hm' => hms m' (mem_cons_of_mem _ hm'))

theorem foldlM_turn_of_error (herror : x.error.isSome) (ts : List Turn) :
    ts.foldlM (Exchange.turn P) x = some x := by
  induction ts with
  | nil => rfl
  | cons t ts ih =>
    rw [foldlM_cons, Exchange.turn, if_pos herror]
    exact ih

theorem synced_within (x : Exchange) (status : TxStatus) : (x.synced status).Within x.backend := by
  unfold Exchange.synced
  split
  · exact Backend.lose_within _ _
  · exact .refl _

theorem Noted.turns (h : Noted U start x cap) (herror : x.error = none) {ts : List Turn}
    {status : TxStatus} (hturns : ts.foldlM (Exchange.turn P) x = some x')
    (hutf8 : ∀ t ∈ ts, utf8Message t.message)
    (hharmless : ∀ t ∈ ts.dropWhile (fun t => !t.answer.isError),
      Harmless (x'.synced status) t.message) :
    Registered U start x' (x'.synced status) (cap.registerBatch U (ts.map (·.message))) := by
  induction ts generalizing x cap with
  | nil =>
    obtain rfl := Option.some.inj hturns
    exact h.registered x (synced_within _ _) rfl rfl
  | cons t ts ih =>
    obtain ⟨y, hy, hturns⟩ := bind_eq_some_iff.mp hturns
    have hutf8' := fun t' ht' => hutf8 t' (mem_cons_of_mem _ ht')
    cases hanswer : t.answer.isError with
    | false =>
      obtain ⟨hnoted, hy'⟩ := h.turn (hutf8 t mem_cons_self) herror hanswer hy
      rw [dropWhile_cons_of_pos (by simp [hanswer])] at hharmless
      exact ih hnoted hy' hturns hutf8' hharmless
    | true =>
      obtain ⟨m, answer, lost⟩ := t
      cases answer with
      | ok | done c => cases hanswer
      | error code msg =>
        rw [Exchange.turn, herror] at hy
        obtain ⟨z, hz, rfl⟩ := map_eq_some_iff.mp hy
        obtain ⟨b, hb, rfl⟩ := map_eq_some_iff.mp hz
        rw [foldlM_turn_of_error rfl] at hturns
        cases hturns
        rw [dropWhile_cons_of_neg (by simp [hanswer])] at hharmless
        let y : Exchange := { x with backend := b.lose lost, error := some (code, msg) }
        have hle : (y.synced status).Within x.backend := (synced_within y status).trans
          ((Backend.lose_within b lost).trans (Backend.reject_within unnamed hb))
        refine (h.registered y hle rfl rfl).skips ?_ ?_
        · simpa using hutf8
        · simpa using hharmless

end Batch

/-! ## The observation -/

/-- The loop of `observe` behind the texts `ts`, against the implicit
transaction. -/
structure Observed (U : UnicodeTables) (maxBytes : Nat) (ts : List Str) (i : Implicit)
    (o : Observation) : Prop where
  inBlock : o.openTx.isSome = i.inBlock
  implicit : o.implicit.map (·.statement) = i.left.map (recordedText maxBytes)
  empty : i.inBlock = true → i.left = []
  entries : (o.ops.flatMap JournalOp.entries ++ o.implicit).map (·.statement) =
    (ts.filter (journaledText U)).map (recordedText maxBytes)
  marked : ∀ t ∈ ts, journaledText U t = true → maxBytes < byteLen t →
    o.ops.any JournalOp.marks = true ∨ t ∈ i.joined ∨ t ∈ i.left ∧
    o.implicitIncomplete.isSome = true

section Observe

variable {U : UnicodeTables} {maxBytes : Nat} {ts : List Str} {i i' : Implicit} {o o' : Observation}
  {outcome : ResponseOutcome} {p : Pending} {text tag : Str}

variable {ops : List JournalOp}

section

variable (h : Observed U maxBytes ts i o)
include h

theorem Observed.quiet (himplicit : o'.implicit = o.implicit)
    (hincomplete : o'.implicitIncomplete = o.implicitIncomplete)
    (hops : o'.ops = o.ops ++ ops) (hnone : ops.flatMap JournalOp.entries = [])
    (hblock : o'.openTx.isSome = i'.inBlock) (hleft : i'.left = i.left)
    (hjoined : i'.joined = i.joined)
    (hempty : i'.inBlock → i'.left = []) : Observed U maxBytes ts i' o' where
  inBlock := hblock
  implicit := by rw [himplicit, hleft, h.implicit]
  empty := hempty
  entries := by rw [himplicit, hops, flatMap_append, hnone, List.append_nil, h.entries]
  marked t ht hj hbig := by
    rw [hops, any_append, hjoined, hleft, hincomplete, Bool.or_eq_true]
    exact (h.marked t ht hj hbig).imp_left .inl

theorem Observed.skip (hj : journaledText U text = false) :
    Observed U maxBytes (ts ++ [text]) i o where
  inBlock := h.inBlock
  implicit := h.implicit
  empty := h.empty
  entries := by
    rw [filter_append, filter_singleton, hj]
    simpa using h.entries
  marked t ht hjt hbig := by
    rcases mem_append.mp ht with ht | ht
    · exact h.marked t ht hjt hbig
    · rw [mem_singleton.mp ht, hj] at hjt
      cases hjt

theorem Observed.unresolved
    (hresolve : ∀ tag, p.resolve outcome ≠ .ok tag) :
    Observed U maxBytes ts i (o.notePending outcome p) := by
  unfold Observation.notePending
  cases hp : p.resolve outcome with
  | ok tag => exact absurd hp (hresolve tag)
  | unresolved => exact h
  | failed code msg =>
    dsimp only [Observation.noteFailure]
    cases hopen : o.openTx with
    | none => exact h
    | some t =>
      have hblock := h.inBlock
      rw [hopen] at hblock
      dsimp only
      split
      · exact h.quiet rfl rfl rfl rfl hblock rfl rfl h.empty
      · exact h.quiet rfl rfl (List.append_nil _).symm rfl hblock rfl rfl h.empty

end

theorem flatMap_log (txId : Nat) (es : List NewEntry) :
    (es.map (JournalOp.log txId)).flatMap JournalOp.entries = es := by
  induction es with
  | nil => rfl
  | cons e es ih => exact congrArg (e :: ·) ih

section

variable (h : Observed U maxBytes ts i o)
include h

theorem Observed.entries_drained (txId : Nat) :
    ((o.ops ++ [JournalOp.begin txId] ++ o.implicit.map (JournalOp.log txId)).flatMap
        JournalOp.entries).map (·.statement) =
      (ts.filter (journaledText U)).map (recordedText maxBytes) := by
  rw [flatMap_append, flatMap_log, ← h.entries]
  simp [JournalOp.entries]

/-- A `BEGIN` outside a block takes the implicit transaction into its block. -/
theorem Observed.begin : Observed U maxBytes ts ⟨true, [], i.joined ++ i.left⟩
      ((o.openFresh false).drainImplicit o.nextTxId) where
  inBlock := rfl
  implicit := rfl
  empty _ := rfl
  entries := by
    rw [show ((o.openFresh false).drainImplicit o.nextTxId).implicit = [] from rfl, List.append_nil]
    exact h.entries_drained o.nextTxId
  marked t ht hj hbig := by
    rcases h.marked t ht hj hbig with hmark | hjoined | ⟨hleft, -⟩
    · left
      change (o.ops ++ [JournalOp.begin o.nextTxId] ++
        o.implicit.map (JournalOp.log o.nextTxId)).any _
      simp [hmark]
    · exact .inr (.inl (mem_append.mpr (.inl hjoined)))
    · exact .inr (.inl (mem_append.mpr (.inr hleft)))

theorem Observed.ended (op : OpenTx → JournalOp) (hop : ∀ t, (op t).entries = []) :
    Observed U maxBytes ts { i with inBlock := false }
      (match o.openTx with
        | some t => { o with openTx := none }.push [op t]
        | none => o) := by
  cases hopen : o.openTx with
  | none =>
    refine h.quiet rfl rfl (List.append_nil _).symm rfl ?_ rfl rfl (by simp)
    rw [hopen]
    rfl
  | some t => exact h.quiet rfl rfl rfl (by simp [hop]) rfl rfl rfl (by simp)

theorem Observed.inside (op : OpenTx → JournalOp)
    (hop : ∀ t, (op t).entries = []) (f : OpenTx → OpenTx) :
    Observed U maxBytes ts i
      (match o.openTx with
        | some t => { o with openTx := some (f t) }.push [op t]
        | none => o) := by
  have hblock := h.inBlock
  cases hopen : o.openTx with
  | none => exact h
  | some t =>
    rw [hopen] at hblock
    exact h.quiet rfl rfl rfl (by simp [hop]) hblock rfl rfl h.empty

theorem Observed.control {c : Control} (hkind : (classify U text).1 = .control c) (tag : Str) :
    Observed U maxBytes ts (i.note U text) (o.applyControl c tag) := by
  have hblock := h.inBlock
  unfold Implicit.note
  rw [hkind]
  cases c with
  | begin =>
    cases hopen : o.openTx with
    | none =>
      simp only [Observation.applyControl, hopen, ← hblock, isSome_none, Bool.false_eq_true,
        if_false]
      exact h.begin
    | some t =>
      simp only [Observation.applyControl, hopen, ← hblock]
      exact h
  | commit =>
    have hended := h.ended (fun t => if eqIgnoreCase tag "COMMIT" && !t.aborted then
      .commit t.txId tag else .rollback t.txId) (by intro t; split <;> rfl)
    unfold Observation.applyControl
    cases hopen : o.openTx <;> rw [hopen] at hended <;> exact hended
  | rollback | prepareTransaction =>
    have hended := h.ended (fun t => .rollback t.txId) (fun _ => rfl)
    unfold Observation.applyControl
    cases hopen : o.openTx <;> rw [hopen] at hended <;> exact hended
  | savepoint name =>
    have hinside := h.inside (fun t => .savepoint t.txId name) (fun _ => rfl) id
    unfold Observation.applyControl
    cases hopen : o.openTx with
    | none => exact h
    | some t =>
      rw [hopen] at hinside
      simp only [id, ← hopen] at hinside
      exact hinside
  | rollbackTo name =>
    have hinside := h.inside (fun t => .rollbackTo t.txId name) (fun _ => rfl)
      fun t => { t with aborted := false }
    unfold Observation.applyControl
    cases hopen : o.openTx <;> rw [hopen] at hinside <;> exact hinside
  | release name | passive => exact h

theorem Observed.write (hj : journaledText U text) (hp : PendingOf U maxBytes text p) (tag : Str) :
    Observed U maxBytes (ts ++ [text])
      (if i.inBlock then i else { i with left := i.left ++ [text] }) (o.noteWrite p tag) := by
  have hblock := h.inBlock
  have hfilter : ((ts ++ [text]).filter (journaledText U)).map (recordedText maxBytes) =
      (ts.filter (journaledText U)).map
      (recordedText maxBytes) ++ [recordedText maxBytes text] := by
    simp [hj]
  unfold Observation.noteWrite
  cases hopen : o.openTx with
  | some t =>
    have hin : i.inBlock := by rw [← hblock, hopen]; rfl
    have himplicit : o.implicit = [] := by simpa [h.empty hin] using h.implicit
    have hentries := h.entries
    rw [himplicit, List.append_nil] at hentries
    rw [if_pos hin]
    refine ⟨by rw [hin]; exact congrArg Option.isSome hopen, h.implicit, h.empty, ?_, ?_⟩
    · have hreason :
        (p.reason.map (JournalOp.incomplete t.txId)).toList.flatMap JournalOp.entries = [] := by
        cases p.reason <;> rfl
      change ((o.ops ++ (JournalOp.log t.txId (p.entry tag) :: _)).flatMap JournalOp.entries ++
        o.implicit).map _ = _
      rw [himplicit, List.append_nil, flatMap_append, flatMap_cons, hreason, List.append_nil,
        map_append, hentries, hfilter, ← hp.statement hj tag]
      rfl
    · intro t' ht' hj' hbig
      change (o.ops ++ (JournalOp.log t.txId (p.entry tag) :: _)).any _ ∨ _
      rw [any_append, Bool.or_eq_true]
      rcases mem_append.mp ht' with ht' | ht'
      · exact (h.marked t' ht' hj' hbig).imp_left .inl
      · obtain rfl := mem_singleton.mp ht'
        obtain ⟨r, hr⟩ := isSome_iff_exists.mp (hp.reason hj hbig)
        exact .inl (.inr (by simp [hr, JournalOp.marks]))
  | none =>
    have hin : i.inBlock = false := by rw [← hblock, hopen]; rfl
    rw [if_neg (by simp [hin])]
    refine ⟨hin.symm, ?_, by simp [hin], ?_, ?_⟩
    · change (o.implicit ++ [p.entry tag]).map _ = (i.left ++ [text]).map _
      rw [map_append, map_append, h.implicit]
      exact congrArg (_ ++ [·]) (hp.statement hj tag)
    · change (_ ++ (o.implicit ++ [p.entry tag])).map _ = _
      rw [← append_assoc, map_append, h.entries, hfilter, ← hp.statement hj tag]
      rfl
    · intro t' ht' hj' hbig
      rcases mem_append.mp ht' with ht' | ht'
      · rcases h.marked t' ht' hj' hbig with hmark | hjoined | ⟨hleft, hreason⟩
        · exact .inl hmark
        · exact .inr (.inl hjoined)
        · exact .inr (.inr ⟨mem_append.mpr (.inl hleft), by simp [hreason]⟩)
      · obtain rfl := mem_singleton.mp ht'
        exact .inr (.inr ⟨by simp, by simp [hp.reason hj hbig]⟩)

theorem Observed.ok (hp : PendingOf U maxBytes text p) (hresolve : p.resolve outcome = .ok tag) :
    Observed U maxBytes (ts ++ [text]) (i.note U text) (o.notePending outcome p) := by
  unfold Observation.notePending
  rw [hresolve]
  have hkind := hp.kind
  cases hk : (classify U text).1 with
  | read =>
    simp only [hkind, Implicit.note, hk]
    exact h.skip (by simp [journaledText, hk, StmtKind.isJournaled])
  | control c =>
    rw [hk] at hkind
    simp only [hkind]
    exact (h.control hk tag).skip (by simp [journaledText, hk, StmtKind.isJournaled])
  | write | copy | opaqueStmt =>
    simp only [hkind, Implicit.note, hk]
    exact h.write (by simp [journaledText, hk, StmtKind.isJournaled]) hp tag

theorem Observed.foldl {ps : List Pending} {texts : List Str}
    (hps : Aligned U maxBytes outcome ps texts) :
    Observed U maxBytes (ts ++ texts) (texts.foldl (Implicit.note U) i)
      (ps.foldl (.notePending outcome) o) := by
  induction hps generalizing ts i o with
  | nil => simpa using h
  | ok hre hr _ ih =>
    have := ih (h.ok hre hr)
    rwa [append_assoc] at this
  | other hr _ ih => exact ih (h.unresolved hr)

end

/-- The operations of a cycle that ran the texts `ts`. -/
structure OpsFor (U : UnicodeTables) (maxBytes : Nat) (ts : List Str) (ops : List JournalOp) :
    Prop where
  entries : (ops.flatMap JournalOp.entries).map (·.statement) =
    (ts.filter (journaledText U)).map (recordedText maxBytes)
  marked : ∀ t ∈ ts, journaledText U t = true → maxBytes < byteLen t →
    ops.any JournalOp.marks = true

theorem Observed.opsFor_flush (h : Observed U maxBytes ts i o)
    (hsmall : ∀ t ∈ i.joined, byteLen t ≤ maxBytes)
    (hflush : ops.flatMap JournalOp.entries = o.implicit)
    (hmarks : i.left ≠ [] → o.implicitIncomplete.isSome → ops.any JournalOp.marks) :
    OpsFor U maxBytes ts (o.ops ++ ops) where
  entries := by rw [flatMap_append, hflush, h.entries]
  marked t ht hj hbig := by
    rw [any_append, Bool.or_eq_true]
    rcases h.marked t ht hj hbig with hmark | hjoined | ⟨hleft, hreason⟩
    · exact .inl hmark
    · exact absurd hbig (not_lt.mpr (hsmall t hjoined))
    · exact .inr (hmarks (ne_nil_of_mem hleft) hreason)

theorem Observed.opsFor (h : Observed U maxBytes ts i o) (hleft : i.left = [])
    (hsmall : ∀ t ∈ i.joined, byteLen t ≤ maxBytes)
    (hnone : ops.flatMap JournalOp.entries = []) : OpsFor U maxBytes ts (o.ops ++ ops) :=
  h.opsFor_flush hsmall (by simpa [hleft, hnone] using h.implicit.symm) fun hne => absurd hleft hne

/-- A session that is idle again: a transaction ends, and what is implicit is
auto-committed. -/
theorem ops_reconcile_idle (o : Observation) (hstatus : outcome.status = .idle) :
    ∃ ops, ops.flatMap JournalOp.entries = [] ∧ (o.reconcile outcome).ops = o.ops ++ (ops ++
      if !o.implicit.isEmpty && outcome.error.isNone then
        [.autoCommit o.implicit (outcome.lastTag.getD []) o.implicitIncomplete] else []) := by
  obtain ⟨openTx, next, ops, implicit, incomplete⟩ := o
  rw [Observation.reconcile, hstatus]
  cases openTx with
  | none =>
    refine ⟨[], rfl, ?_⟩
    dsimp only
    split
    · rfl
    · exact (List.append_nil _).symm
  | some t =>
    refine ⟨[if (outcome.error.isNone && outcome.lastTag.any fun t => eqIgnoreCase t "COMMIT")
      then .commit t.txId "COMMIT" else .rollback t.txId], ?_, ?_⟩
    · rw [flatMap_singleton]
      split <;> rfl
    · dsimp only
      split
      · exact append_assoc _ _ _
      · rw [List.append_nil]
        rfl

theorem Observed.reconcile (h : Observed U maxBytes ts i o)
    (hkept : outcome.status = .failed ∨ outcome.status = .idle ∧ outcome.error.isSome → i.left = [])
    (hsmall : ∀ t ∈ i.joined, byteLen t ≤ maxBytes) :
    OpsFor U maxBytes ts (o.reconcile outcome).ops := by
  rw [Observation.reconcile]
  cases hstatus : outcome.status with
  | failed =>
    have hleft := hkept (.inl hstatus)
    cases hopen : o.openTx with
    | some t =>
      have hops : OpsFor U maxBytes ts (o.ops ++ []) := h.opsFor hleft hsmall rfl
      rwa [List.append_nil] at hops
    | none => exact h.opsFor hleft hsmall rfl
  | inBlock =>
    cases hopen : o.openTx with
    | some t =>
      have hleft := h.empty (by rw [← h.inBlock, hopen]; rfl)
      have himplicit : o.implicit = [] := by simpa [hleft] using h.implicit
      refine h.opsFor hleft hsmall ?_
      rw [himplicit]
      rfl
    | none =>
      have hops : (((o.openFresh false).drainImplicit o.nextTxId).push
          (o.implicitIncomplete.map (.incomplete o.nextTxId)).toList).ops =
          o.ops ++ ([JournalOp.begin o.nextTxId] ++ o.implicit.map (JournalOp.log o.nextTxId) ++
            (o.implicitIncomplete.map (.incomplete o.nextTxId)).toList) := by
        rw [← append_assoc, ← append_assoc]
        rfl
      rw [hops]
      refine h.opsFor_flush hsmall ?_ ?_
      · have hreason : (o.implicitIncomplete.map (JournalOp.incomplete o.nextTxId)).toList.flatMap
            JournalOp.entries = [] := by
          cases o.implicitIncomplete <;> rfl
        rw [flatMap_append, flatMap_append, flatMap_log, hreason, List.append_nil]
        rfl
      · intro _ hreason
        obtain ⟨r, hr⟩ := isSome_iff_exists.mp hreason
        simp [hr, JournalOp.marks]
  | idle =>
    obtain ⟨ops, hnone, hops⟩ := ops_reconcile_idle o hstatus
    rw [Observation.reconcile, hstatus] at hops
    rw [hops]
    cases himplicit : o.implicit with
    | nil =>
      have hleft : i.left = [] := by simpa [himplicit] using h.implicit.symm
      exact h.opsFor hleft hsmall (by simpa using hnone)
    | cons e es =>
      have herror : outcome.error.isNone := by
        rw [← not_isSome, Bool.not_eq_true']
        refine Bool.eq_false_iff.mpr fun herror => ?_
        have himplicit' := h.implicit
        rw [hkept (.inr ⟨hstatus, herror⟩), himplicit] at himplicit'
        cases himplicit'
      rw [if_pos (by simp [herror]), ← himplicit]
      refine h.opsFor_flush hsmall ?_ fun _ hreason => ?_
      · rw [flatMap_append, hnone]
        exact List.append_nil _
      · simp [JournalOp.marks, hreason]

end Observe

/-! ## A cycle -/

section Cycle

variable {U : UnicodeTables} {P : PgText} {cap : SessionCapture} {ts : List Str}

theorem journaled_of_filter_captured (ts : List Str) :
    (ts.filter (capturedText U)).filter (journaledText U) = ts.filter (journaledText U) := by
  rw [List.filter_filter]
  refine filter_congr fun t _ => ?_
  cases hj : journaledText U t with
  | false => rfl
  | true => simp [capturedText, hj]

theorem implicitAfter_filter (inBlock : Bool) (ts : List Str) :
    (ts.filter (capturedText U)).foldl (Implicit.note U) ⟨inBlock, [], []⟩ =
      implicitAfter U inBlock ts := by
  unfold implicitAfter
  generalize (⟨inBlock, [], []⟩ : Implicit) = i
  induction ts generalizing i with
  | nil => rfl
  | cons t ts ih =>
    cases ht : capturedText U t with
    | true =>
      rw [filter_cons_of_pos ht, foldl_cons, foldl_cons, ih]
    | false =>
      have hnote : i.note U t = i := by
        rw [capturedText, journaledText] at ht
        unfold Implicit.note
        cases hk : (classify U t).1 with
        | read => rfl
        | control c => simp [hk, StmtKind.isControl] at ht
        | write | copy | opaqueStmt => simp [hk, StmtKind.isJournaled] at ht
      rw [filter_cons_of_neg (by simp [ht]), foldl_cons, hnote, ih]

theorem opsFor_observe {outcome : ResponseOutcome} (hdeferred : cap.deferred = [])
    (haligned : Aligned U cap.maxStatementBytes outcome cap.pending (ts.filter (capturedText U)))
    (hkept : outcome.status = .failed ∨ outcome.status = .idle ∧ outcome.error.isSome →
      (implicitAfter U cap.openTx.isSome ts).left = [])
    (hsmall : ∀ t ∈ (implicitAfter U cap.openTx.isSome ts).joined,
      byteLen t ≤ cap.maxStatementBytes) :
    OpsFor U cap.maxStatementBytes ts (cap.observe outcome).2 := by
  let o : Observation := ⟨cap.openTx, cap.nextTxId,
    cap.deferred ++ if outcome.preparedCommitted then [.preparedCommitted] else [], [], none⟩
  have hstart : Observed U cap.maxStatementBytes [] ⟨cap.openTx.isSome, [], []⟩ o := by
    refine ⟨rfl, rfl, fun _ => rfl, ?_, by simp⟩
    change ((cap.deferred ++ _).flatMap JournalOp.entries ++ []).map _ = []
    rw [hdeferred]
    split <;> rfl
  have hend := hstart.foldl haligned
  rw [implicitAfter_filter] at hend
  have hops := hend.reconcile hkept hsmall
  refine ⟨?_, fun t ht hj => hops.marked t ?_ hj⟩
  · rw [← journaled_of_filter_captured]
    exact hops.entries
  · exact mem_filter.mpr ⟨ht, by simp [capturedText, hj]⟩

theorem registerBatch_same (cap : SessionCapture) (ms : List ExtMessage) :
    SameSession cap (cap.registerBatch U ms) := by
  induction ms generalizing cap with
  | nil => exact ⟨rfl, rfl, rfl, rfl⟩
  | cons m ms ih =>
    have hm := (noteMessage_keeps (U := U) cap m).1
    have hms := ih (cap.noteMessage U m)
    exact ⟨hms.maxStatementBytes.trans hm.maxStatementBytes, hms.openTx.trans hm.openTx,
      hms.nextTxId.trans hm.nextTxId, hms.deferred.trans hm.deferred⟩

theorem Agrees.observe {x : Exchange} (outcome : ResponseOutcome)
    (h : Agrees U (x.synced outcome.status) cap) :
    Agrees U (x.synced outcome.status) (cap.observe outcome).1 := by
  refine ⟨h.statements, fun n q hq => ?_⟩
  unfold Exchange.synced at h hq
  by_cases hidle : outcome.status = .idle
  · simp [hidle, Backend.lose] at hq
  · rw [if_neg hidle] at h hq
    obtain ⟨name, text, hn, htext, hfor⟩ := h.portals n q hq
    exact ⟨name, text, hn, htext, by simpa [SessionCapture.observe, hidle] using hfor⟩

structure ExtendedSession.Inv (U : UnicodeTables) (s : ExtendedSession) : Prop where
  agrees : Agrees U s.backend s.capturing.cap
  pending : s.capturing.cap.pending = []
  deferred : s.capturing.cap.deferred = []

variable {s : ExtendedSession} {c : ExtCycle} {x : Exchange}

theorem ExtendedSession.Inv.cycle (h : s.Inv U) (hx : Exchange.turns P s.backend c.turns = some x)
    (hstep : InStep U s c x) :
    OpsFor U s.capturing.cap.maxStatementBytes x.ran (s.observed U c x).2 ∧
      Agrees U (x.synced c.status) (s.observed U c x).1.cap ∧
      (s.observed U c x).1.cap.pending = [] ∧ (s.observed U c x).1.cap.deferred = [] ∧
      (s.observed U c x).1.cap.maxStatementBytes = s.capturing.cap.maxStatementBytes := by
  have hnoted : Noted U s.capturing.cap.execs (.start s.backend) s.capturing.cap := by
    refine ⟨h.agrees, rfl, fun _ => rfl, fun _ _ _ _ => ?_⟩
    rw [h.pending]
    exact .nil
  have hreg := hnoted.turns rfl hx hstep.utf8 hstep.harmless
  have hsame := registerBatch_same (U := U) s.capturing.cap (c.turns.map (·.message))
  have hcounted := hstep.counted
  have hdeferred := hsame.deferred.trans h.deferred
  have hkept := hstep.kept
  have hsmall := hstep.small
  rw [← hsame.openTx] at hkept hsmall
  rw [← hsame.maxStatementBytes] at hsmall ⊢
  unfold ExtendedSession.observed Capturing.extendedCycle
  generalize s.capturing.cap.registerBatch U (c.turns.map (·.message)) = cap at *
  dsimp only
  cases harmed : cap.armed with
  | true =>
    have hstart : s.capturing.cap.execs = 0 := hcounted.resolve_right (by simp [harmed])
    exact ⟨opsFor_observe hdeferred (hreg.aligned hstart c.status) hkept hsmall,
      .observe ⟨c.status, x.completions, x.error⟩ hreg.agrees, rfl, rfl, rfl⟩
  | false =>
    have hpending : cap.pending = [] := by simpa [SessionCapture.armed] using harmed
    have hnone := hreg.captured hpending
    have himplicit := implicitAfter_filter (U := U) cap.openTx.isSome x.ran
    rw [hnone] at himplicit
    by_cases hfast : (!false && c.status == .idle && !s.capturing.journalOpen)
    · rw [if_pos hfast]
      refine ⟨⟨?_, fun t ht hj => ?_⟩, hreg.agrees, hpending, hdeferred, rfl⟩
      · rw [← journaled_of_filter_captured, hnone]
        rfl
      · have hmem := mem_filter.mpr ⟨ht, (by simp [capturedText, hj] : capturedText U t)⟩
        rw [hnone] at hmem
        cases hmem
    · rw [if_neg hfast]
      refine ⟨opsFor_observe hdeferred ?_ (fun _ => by rw [← himplicit]; rfl) hsmall,
        .observe ⟨c.status, [], none⟩ hreg.agrees, rfl, rfl, rfl⟩
      rw [hpending, hnone]
      exact .nil

end Cycle

/-! ## What ran -/

def RanKnown (P : PgText) (b : ExtBackend) (ran : List Str) : Prop :=
  ∀ n q, b.portals n = some q → q.ran = true → P.emptyQuery (P.text q.definition.1) = false →
    P.text q.definition.1 ∈ ran

/-- A batch behind the texts `before`. -/
structure Finishes (P : PgText) (before : List Str) (x : Exchange) : Prop where
  known : RanKnown P x.backend (before ++ x.ran)
  finished : ∀ t ∈ x.finished, t ∈ before ++ x.ran

section Ran

variable {P : PgText} {before : List Str} {x x' : Exchange} {b b' : ExtBackend} {ran : List Str}

theorem RanKnown.mono (h : RanKnown P b ran) (hle : b'.Within b) : RanKnown P b' ran :=
  fun n q hq => h n q (hle.portals n q hq)

theorem Finishes.runs (h : Finishes P before x) {portal : WireStr} {q : BoundPortal Definition}
    {c : Completion} (hq : x.backend.portals portal = some q)
    (hempty : P.emptyQuery (P.text q.definition.1) = (c == .empty)) :
    Finishes P before (x.runs P portal q c) := by
  have hmore : ∀ t ∈ before ++ x.ran, t ∈ before ++ (x.runs P portal q c).ran := by
    intro t ht
    rcases mem_append.mp ht with ht | ht
    · exact mem_append.mpr (.inl ht)
    · refine mem_append.mpr (.inr ?_)
      unfold Exchange.runs
      dsimp only
      split
      · exact ht
      · exact mem_append.mpr (.inl ht)
  have htext : P.emptyQuery (P.text q.definition.1) = false →
      P.text q.definition.1 ∈ before ++ (x.runs P portal q c).ran := by
    intro hquery
    cases hran : q.ran with
    | true => exact hmore _ (h.known portal q hq hran hquery)
    | false => simp [Exchange.runs, hran, hquery]
  refine ⟨fun n q' hq' hran hquery => ?_, fun t ht => ?_⟩
  · by_cases hn : n = portal
    · subst hn
      simp only [Exchange.runs, Function.update_self, Option.some.injEq] at hq'
      rw [← hq'] at hquery ⊢
      exact htext hquery
    · simp only [Exchange.runs, Function.update_of_ne hn] at hq'
      exact hmore _ (h.known n q' hq' hran hquery)
  · simp only [Exchange.runs] at ht
    split at ht
    · next htag =>
      rcases mem_append.mp ht with ht | ht
      · exact hmore t (h.finished t ht)
      · rw [mem_singleton.mp ht]
        refine htext (hempty.trans ?_)
        cases c with
        | tag t => rfl
        | suspended | empty => cases htag
    · exact hmore t (h.finished t ht)

theorem Finishes.turn (h : Finishes P before x) {t : Turn} (hturn : x.turn P t = some x') :
    Finishes P before x' := by
  rw [Exchange.turn] at hturn
  split at hturn
  · cases hturn
    exact h
  obtain ⟨y, hy, rfl⟩ := map_eq_some_iff.mp hturn
  suffices hfin :
    Finishes P before y from ⟨hfin.known.mono (Backend.lose_within _ _), hfin.finished⟩
  cases ha : t.answer.isError with
  | true =>
    obtain ⟨m, answer, lost⟩ := t
    cases answer with
    | ok | done c => cases ha
    | error code msg =>
      obtain ⟨b, hb, rfl⟩ := map_eq_some_iff.mp hy
      exact ⟨h.known.mono (Backend.reject_within unnamed hb), h.finished⟩
  | false =>
    rcases Exchange.answered_cases hy ha with ⟨portal, c, -, hexec⟩ | ⟨hexec, b, hb, rfl⟩
    · obtain ⟨q, hq, hempty, rfl⟩ := Exchange.execute_eq_some hexec
      exact h.runs hq hempty
    · exact ⟨fun n q hq hran => h.known n q (Backend.accept_ran unnamed hb hexec hq hran) hran,
        h.finished⟩

theorem Finishes.turns (h : Finishes P before x) {ts : List Turn}
    (hturns : ts.foldlM (Exchange.turn P) x = some x') : Finishes P before x' := by
  induction ts generalizing x with
  | nil =>
    cases hturns
    exact h
  | cons t ts ih =>
    obtain ⟨y, hy, hturns⟩ := bind_eq_some_iff.mp hturns
    exact ih (h.turn hy) hturns

end Ran

/-! ## Runs -/

def CycleInStep (U : UnicodeTables) (P : PgText) (s : ExtendedSession) (c : ExtCycle) : Prop :=
  ∀ x ∈ Exchange.turns P s.backend c.turns, InStep U s c x

structure ExtendedSession.Following (U : UnicodeTables) (P : PgText) (s : ExtendedSession) :
    Prop where
  inv : s.Inv U
  known : RanKnown P s.backend s.ran
  follows : CaptureFollows U s

theorem ExtendedSession.following_init (U : UnicodeTables) (P : PgText) (maxStatementBytes : Nat) :
    (ExtendedSession.init maxStatementBytes).Following U P where
  inv := ⟨⟨fun _ _ h => (by cases h), fun _ _ h => (by cases h)⟩, rfl, rfl⟩
  known _ _ h := by cases h
  follows := ⟨rfl, fun _ h => (by cases h), fun _ h => (by cases h)⟩

theorem ExtendedSession.Following.step {U : UnicodeTables} {P : PgText} {s s' : ExtendedSession}
    {c : ExtCycle} (h : s.Following U P) (hc : CycleInStep U P s c)
    (hstep : s.step U P c = some s') :
    s'.Following U P := by
  obtain ⟨x, hx, rfl⟩ := map_eq_some_iff.mp hstep
  obtain ⟨hops, hagrees, hpending, hdeferred, hmax⟩ := h.inv.cycle hx (hc x hx)
  have hfin : Finishes P s.ran x := by
    refine Finishes.turns ⟨?_, fun _ h => by cases h⟩ hx
    simpa [Exchange.start] using h.known
  refine ⟨⟨hagrees, hpending, hdeferred⟩, hfin.known.mono (synced_within x c.status), ?_, ?_, ?_⟩
  · rw [hmax, map_append, h.follows.entries, hops.entries, ← map_append, ← filter_append]
  · rw [hmax]
    split
    · exact h.follows.marked
    · next hunmarked =>
      intro t ht hj
      rcases mem_append.mp ht with ht | ht
      · exact h.follows.marked t ht hj
      · exact not_lt.mp fun hbig => hunmarked (hops.marked t ht hj hbig)
  · intro t ht
    rcases mem_append.mp ht with ht | ht
    · exact mem_append.mpr (.inl (h.follows.finished t ht))
    · exact hfin.finished t ht

/-- In every run whose cycles are in step with the backend, the entries are the
journaled texts that ran. -/
theorem capture_follows (U : UnicodeTables) (P : PgText) (maxStatementBytes : Nat)
    (cycles : List ExtCycle) (s : ExtendedSession)
    (hrun : Runs.run (ExtendedSession.step U P) (.init maxStatementBytes) cycles = some s)
    (hinStep : Runs.Along (ExtendedSession.step U P) (CycleInStep U P)
      (.init maxStatementBytes) cycles) :
    CaptureFollows U s :=
  (Runs.run_invariant_along (P := ExtendedSession.Following U P)
    (fun _ _ _ h hc hstep => h.step hc hstep)
    (ExtendedSession.following_init U P maxStatementBytes) hinStep hrun).follows

instance (U : UnicodeTables) (P : PgText) (s : ExtendedSession) (c : ExtCycle) :
    Decidable (CycleInStep U P s c) := by
  unfold CycleInStep
  infer_instance

def utf8Text : PgText := ⟨fun _ => [], List.isEmpty⟩

def answer (m : ExtMessage) (a : Answer) : Turn := ⟨m, a, fun _ => false⟩

def parsed (name text : String) : Turn :=
  answer (.parse (.text name.toList) (.text text.toList, [])) .ok

def bound (name : String) : Turn := answer (.bind unnamed (.text name.toList) []) .ok

def executed (tag : String) : Turn := answer (.execute unnamed) (.done (.tag tag.toList))

/-- A statement in one batch, and a named one run twice. -/
theorem capture_follows_named :
    let cycles : List ExtCycle :=
      [⟨[parsed "" "INSERT INTO t VALUES (1)", bound "", executed "INSERT 0 1"], .idle⟩,
        ⟨[parsed "s" "DELETE FROM t", bound "s", executed "DELETE 1", bound "s",
        executed "DELETE 0"], .idle⟩]
    ∃ s, Runs.run (ExtendedSession.step .ascii utf8Text) (.init 1048576) cycles = some s ∧
      s.entries.map (·.statement) =
        ["INSERT INTO t VALUES (1)".toList, "DELETE FROM t".toList, "DELETE FROM t".toList] ∧
      CaptureFollows .ascii s := by
  intro cycles
  refine ⟨_, rfl, by decide, ?_⟩
  exact capture_follows .ascii utf8Text 1048576 cycles _ rfl (by decide)

/-- A read in a batch of its own is still counted in the next batch, whose write
then goes unrecorded.  A `Parse` that the backend rejects replaces the statement
in the capture, which records a text that never ran. -/
theorem not_captureFollows :
    (∃ s, Runs.run (ExtendedSession.step .ascii utf8Text) (.init 1048576)
        [⟨[parsed "" "SELECT 1", bound "", executed "SELECT 1"], .idle⟩,
          ⟨[parsed "" "INSERT INTO t VALUES (1)", bound "", executed "INSERT 0 1"], .idle⟩] =
            some s ∧
      "INSERT INTO t VALUES (1)".toList ∈ s.finished ∧ s.entries = [] ∧ ¬ CaptureFollows .ascii s) ∧
    ∃ s, Runs.run (ExtendedSession.step .ascii utf8Text) (.init 1048576)
        [⟨[parsed "s" "INSERT INTO t VALUES (1)"], .idle⟩,
          ⟨[answer (.parse (.text "s") (.text "DELETE FROM t", []))
            (.error "42P05" "prepared statement \"s\" already exists")], .idle⟩,
          ⟨[bound "s", executed "INSERT 0 1"], .idle⟩] = some s ∧
      s.ran = ["INSERT INTO t VALUES (1)".toList] ∧
      s.entries.map (·.statement) = ["DELETE FROM t".toList] ∧ ¬ CaptureFollows .ascii s := by
  refine ⟨⟨_, rfl, by decide, by decide, fun h => ?_⟩, ⟨_, rfl, by decide, by decide, fun h => ?_⟩⟩
  all_goals
    have hentries := h.entries
    revert hentries
    decide

end HeliosProxy.Journal
