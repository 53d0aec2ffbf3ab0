import HeliosProxy.Journal.SimpleCycle
import HeliosProxy.Postgres.Extended

/-!
# Extended-protocol cycles

The capture notes the messages of a batch as they are sent, and counts its
`Execute`s to pair them with the completions of the answer.  The backend may
have rejected a message, or skipped it, and holds what it held before.
-/

namespace HeliosProxy.Journal

open Text Postgres Function

/-! ## The backend's side -/

/-- How PostgreSQL reads statement texts: what a text that is no UTF-8 says in
its encoding, and which texts hold no statement. -/
structure PgText where
  decode : List UInt8 → Str
  emptyQuery : Str → Bool

def PgText.text (P : PgText) : WireStr → Str
  | .text s => s
  | .raw bytes => P.decode bytes

/-- The text and the parameter types of a `Parse`. -/
abbrev Definition := WireStr × List UInt32

abbrev ExtMessage := Message WireStr Definition (List JournalValue)

abbrev ExtBackend := Backend WireStr Definition

inductive Answer
  | ok
  | done (completion : Completion)
  | error (code msg : Str)

def Answer.isError : Answer → Bool
  | .error .. => true
  | _ => false

/-- A message with the backend's answer, unless it is skipped, and the portals
that end with it. -/
structure Turn where
  message : ExtMessage
  answer : Answer
  lost : WireStr → Bool

/-- A batch up to some message: the texts that ran, those that ran to their
end, and the first error. -/
structure Exchange where
  backend : ExtBackend
  completions : List Completion
  ran : List Str
  finished : List Str
  error : Option (Str × Str)

def Exchange.start (b : ExtBackend) : Exchange := ⟨b, [], [], [], none⟩

def Completion.isTag : Completion → Bool
  | .tag _ => true
  | _ => false

/-- The portal `q` runs; the second time it fetches what is left of the first. -/
def Exchange.runs (P : PgText) (x : Exchange) (portal : WireStr) (q : BoundPortal Definition)
    (c : Completion) : Exchange :=
  let text := P.text q.definition.1
  { x with
    backend := { x.backend with
      portals := update x.backend.portals portal (some { q with ran := true }) },
    completions := x.completions ++ [c],
    ran := if q.ran || P.emptyQuery text then x.ran else x.ran ++ [text],
    finished := if c.isTag then x.finished ++ [text] else x.finished }

def Exchange.execute (P : PgText) (x : Exchange) (portal : WireStr) (c : Completion) :
    Option Exchange :=
  match x.backend.portals portal with
  | none => none
  | some q =>
    if P.emptyQuery (P.text q.definition.1) = (c == .empty) then
      some (x.runs P portal q c) else none

def Exchange.answered (P : PgText) (x : Exchange) : Answer → ExtMessage → Option Exchange
  | .error code msg, m =>
    (x.backend.reject unnamed m).map fun b => { x with backend := b, error := some (code, msg) }
  | .done c, .execute portal => x.execute P portal c
  | .done _, _ | .ok, .execute _ => none
  | .ok, m => (x.backend.accept unnamed m).map fun b => { x with backend := b }

def Exchange.turn (P : PgText) (x : Exchange) (t : Turn) : Option Exchange :=
  if x.error.isSome then some x
  else (x.answered P t.answer t.message).map fun x => { x with backend := x.backend.lose t.lost }

def Exchange.turns (P : PgText) (b : ExtBackend) (ts : List Turn) : Option Exchange :=
  ts.foldlM (Exchange.turn P) (.start b)

/-- The backend after the `Sync`: no portal outlives its transaction. -/
def Exchange.synced (x : Exchange) (status : TxStatus) : ExtBackend :=
  if status = .idle then x.backend.lose fun _ => true else x.backend

variable {P : PgText}

theorem Exchange.answered_cases {x y : Exchange} {a : Answer} {m : ExtMessage}
    (h : x.answered P a m = some y) (ha : a.isError = false) :
    (∃ portal c, m = .execute portal ∧ x.execute P portal c = some y) ∨
      (∀ portal, m ≠ .execute portal) ∧
        ∃ b, x.backend.accept unnamed m = some b ∧ y = { x with backend := b } := by
  cases a with
  | error code msg => cases ha
  | done c =>
    cases m with
    | execute portal => exact .inl ⟨portal, c, rfl, h⟩
    | parse _ _ | bind _ _ _ | describe _ | describePortal _ | closeStatement _ | closePortal _ =>
      cases h
  | ok =>
    have haccept : (∀ portal, m ≠ .execute portal) →
        x.answered P .ok m = (x.backend.accept unnamed m).map fun b => { x with backend := b } := by
      intro hexec
      cases m with
      | execute portal => exact absurd rfl (hexec portal)
      | parse _ _ | bind _ _ _ | describe _ | describePortal _ | closeStatement _ | closePortal _ =>
        rfl
    cases hm : m with
    | execute portal => rw [hm] at h; cases h
    | parse _ _ | bind _ _ _ | describe _ | describePortal _ | closeStatement _ | closePortal _ =>
      have hexec : ∀ portal, m ≠ .execute portal := by simp [hm]
      rw [haccept hexec] at h
      obtain ⟨b, hb, rfl⟩ := Option.map_eq_some_iff.mp h
      exact .inr ⟨hm ▸ hexec, b, hm ▸ hb, rfl⟩

variable {portal : WireStr}

theorem Exchange.execute_eq_some {x y : Exchange} {c : Completion}
    (h : x.execute P portal c = some y) :
    ∃ q, x.backend.portals portal = some q ∧ P.emptyQuery (P.text q.definition.1) = (c == .empty) ∧
      y = x.runs P portal q c := by
  unfold Exchange.execute at h
  cases hq : x.backend.portals portal with
  | none => simp [hq] at h
  | some q =>
    simp only [hq] at h
    split at h
    · next hempty => exact ⟨q, rfl, hempty, (Option.some.inj h).symm⟩
    · cases h

/-! ## The capture's side -/

/-- One message of `journal_register_batch`. -/
def SessionCapture.noteMessage (U : UnicodeTables) (cap : SessionCapture) :
    ExtMessage → SessionCapture
  | .parse name (sql, types) =>
    match sql.utf8? with
    | none => cap
    | some sql => cap.noteParse U (name.utf8?.getD []) sql types
  | .bind portal stmt params => cap.noteBind portal stmt params
  | .execute portal => cap.noteExecute portal
  | .describe _ | .describePortal _ => cap
  | .closeStatement name => cap.noteClose 'S' name
  | .closePortal name => cap.noteClose 'P' name

/-- `journal_register_batch`. -/
def SessionCapture.registerBatch (U : UnicodeTables) (cap : SessionCapture) (ms : List ExtMessage) :
    SessionCapture :=
  ms.foldl (noteMessage U) cap

/-- One cycle: `journal_register_batch`, and `journal_observe_sync` with what is
collected when the cycle is armed. -/
def Capturing.extendedCycle (U : UnicodeTables) (c : Capturing) (ms : List ExtMessage)
    (outcome : ResponseOutcome) : Capturing × List JournalOp :=
  let cap := c.cap.registerBatch U ms
  if !cap.armed && outcome.status == .idle && !c.journalOpen then ({ c with cap }, [])
  else
    let r := cap.observe (if cap.armed then outcome else ⟨outcome.status, [], none⟩)
    (⟨r.1, r.1.inTransaction⟩, r.2)

/-! ## Statements and portals -/

/-- `classify` calls the text a write, a copy or opaque. -/
def journaledText (U : UnicodeTables) (text : Str) : Bool := (classify U text).1.isJournaled

def utf8Message : ExtMessage → Bool
  | .parse name (sql, _) => name.utf8?.isSome && sql.utf8?.isSome
  | .bind portal name _ => portal.utf8?.isSome && name.utf8?.isSome
  | .execute name | .describe name | .describePortal name | .closeStatement name
  | .closePortal name => name.utf8?.isSome

/-- A message that the backend `b` has not carried out, and that names nothing
it holds, or says again what it holds. -/
def Harmless (b : ExtBackend) : ExtMessage → Prop
  | .parse name d => ∀ d' ∈ b.statements name, d'.1 = d.1
  | .closeStatement name => b.statements name = none
  | .bind portal _ _ | .execute portal | .closePortal portal => b.portals portal = none
  | .describe _ | .describePortal _ => True

def preparedOf (U : UnicodeTables) (maxBytes : Nat) (text : Str) (types : List UInt32) :
    Prepared where
  sql :=
    if (classify U text).1 == .read then none
    else if maxBytes < byteLen text then some [] else some text
  kind := (classify U text).1
  multi := (classify U text).2
  paramTypes := types

def capturedText (U : UnicodeTables) (text : Str) : Bool :=
  journaledText U text || (classify U text).1.isControl

def PortalFor (U : UnicodeTables) (maxBytes : Nat) (text : Str) (ran : Bool) : Option Portal → Prop
  | some p => capturedText U text = true ∧
      (∃ types, p.prepared = preparedOf U maxBytes text types) ∧
      p.executed = ran
  | none => capturedText U text = false

structure Agrees (U : UnicodeTables) (b : ExtBackend) (cap : SessionCapture) : Prop where
  statements : ∀ n d, b.statements n = some d → ∃ name text types, n = .text name ∧
    d.1 = .text text ∧
    cap.statement? name = some (preparedOf U cap.maxStatementBytes text types)
  portals : ∀ n q, b.portals n = some q → ∃ name text, n = .text name ∧
    q.definition.1 = .text text ∧
    PortalFor U cap.maxStatementBytes text q.ran (cap.portals name)

section Notes

variable {U : UnicodeTables} {b b' : ExtBackend} {cap : SessionCapture} {m : ExtMessage}

theorem Agrees.mono (h : Agrees U b cap) (hle : b'.Within b) : Agrees U b' cap :=
  ⟨fun n d hd => h.statements n d (hle.statements n d hd),
    fun n q hq => h.portals n q (hle.portals n q hq)⟩

theorem statement?_noteParse (cap : SessionCapture) (name sql : Str)
    (types : List UInt32) (n : Str) : (cap.noteParse U name sql types).statement? n =
      if n = name then some
        (preparedOf U cap.maxStatementBytes sql types) else cap.statement? n := by
  unfold SessionCapture.noteParse SessionCapture.statement?
  cases name with
  | nil =>
    cases n with
    | nil | cons c n => rfl
  | cons d name =>
    cases n with
    | nil => rfl
    | cons c n =>
      by_cases hn : c :: n = d :: name
      · simp only [hn, List.isEmpty_cons, Bool.false_eq_true, if_false, update_self]
        rfl
      · simp [hn]

theorem statement?_noteClose (cap : SessionCapture) (name n : Str) :
    (cap.noteClose 'S' (.text name)).statement? n = if n = name then none
      else cap.statement? n := by
  unfold SessionCapture.noteClose SessionCapture.statement?
  cases name with
  | nil => cases n <;> rfl
  | cons d name =>
    cases n with
    | nil => rfl
    | cons c n =>
      by_cases hn : c :: n = d :: name
      · simp [WireStr.utf8?, hn]
      · simp [WireStr.utf8?, hn]

/-- The portal that a `Bind` of the statement leaves. -/
def boundPortal (params : List JournalValue) (prepared : Prepared) : Option Portal :=
  if !prepared.kind.isJournaled && !prepared.kind.isControl then none
  else some ⟨prepared, params, false⟩

theorem noteBind_eq (cap : SessionCapture) (portal stmt : Str) (params : List JournalValue) :
    cap.noteBind (.text portal) (.text stmt) params =
      { cap with
        portals := update cap.portals portal
          ((cap.statement? stmt).bind (boundPortal params)) } := by
  rw [SessionCapture.noteBind]
  simp only [WireStr.utf8?]
  cases cap.statement? stmt with
  | none => rfl
  | some prepared =>
    simp only [Option.bind_some, boundPortal]
    split <;> rfl

theorem portalFor_boundPortal (maxBytes : Nat) (text : Str) (types : List UInt32)
    (params : List JournalValue) :
    PortalFor U maxBytes text false (boundPortal params (preparedOf U maxBytes text types)) := by
  have hcaptured : capturedText U text =
      ((preparedOf U maxBytes text types).kind.isJournaled ||
        (preparedOf U maxBytes text types).kind.isControl) := rfl
  unfold boundPortal
  by_cases hkind : capturedText U text
  · rw [if_neg (by rw [← Bool.not_or, ← hcaptured, hkind]; simp)]
    exact ⟨hkind, ⟨types, rfl⟩, rfl⟩
  · rw [Bool.not_eq_true] at hkind
    rw [if_pos (by rw [← Bool.not_or, ← hcaptured, hkind]; rfl)]
    exact hkind

structure SameSession (cap cap' : SessionCapture) : Prop where
  maxStatementBytes : cap'.maxStatementBytes = cap.maxStatementBytes
  openTx : cap'.openTx = cap.openTx
  nextTxId : cap'.nextTxId = cap.nextTxId
  deferred : cap'.deferred = cap.deferred

/-- Only an `Execute` is counted and registered. -/
theorem noteMessage_keeps (cap : SessionCapture) (m : ExtMessage) :
    SameSession cap (cap.noteMessage U m) ∧ ((∀ portal, m ≠ .execute portal) →
      (cap.noteMessage U m).execs = cap.execs ∧ (cap.noteMessage U m).pending = cap.pending) := by
  cases m with
  | execute portal =>
    refine ⟨?_, fun hexec => absurd rfl (hexec portal)⟩
    rw [SessionCapture.noteMessage, SessionCapture.noteExecute]
    split
    · exact ⟨rfl, rfl, rfl, rfl⟩
    · split <;> exact ⟨rfl, rfl, rfl, rfl⟩
  | parse name d =>
    rw [SessionCapture.noteMessage]
    split
    · exact ⟨⟨rfl, rfl, rfl, rfl⟩, fun _ => ⟨rfl, rfl⟩⟩
    · unfold SessionCapture.noteParse
      dsimp only
      split <;> exact ⟨⟨rfl, rfl, rfl, rfl⟩, fun _ => ⟨rfl, rfl⟩⟩
  | bind portal stmt params =>
    rw [SessionCapture.noteMessage, SessionCapture.noteBind]
    repeat' split
    all_goals exact ⟨⟨rfl, rfl, rfl, rfl⟩, fun _ => ⟨rfl, rfl⟩⟩
  | describe name | describePortal name | closePortal name =>
    exact ⟨⟨rfl, rfl, rfl, rfl⟩, fun _ => ⟨rfl, rfl⟩⟩
  | closeStatement name =>
    rw [SessionCapture.noteMessage, SessionCapture.noteClose, if_pos (beq_self_eq_true _)]
    split <;> exact ⟨⟨rfl, rfl, rfl, rfl⟩, fun _ => ⟨rfl, rfl⟩⟩

theorem portals_noteParse (cap : SessionCapture) (name sql : Str) (types : List UInt32) :
    (cap.noteParse U name sql types).portals = cap.portals := by
  unfold SessionCapture.noteParse
  dsimp only
  split <;> rfl

theorem portals_noteClose_statement (cap : SessionCapture) (name : Str) :
    (cap.noteClose 'S' (.text name)).portals = cap.portals := by
  rw [SessionCapture.noteClose, if_pos (beq_self_eq_true _)]
  split <;> rfl

variable {cap' : SessionCapture} {p : Option Prepared} {name : Str}

theorem Agrees.setStatement (h : Agrees U b cap)
    {d : Option Definition}
    (hmax : cap'.maxStatementBytes = cap.maxStatementBytes) (hportals : cap'.portals = cap.portals)
    (hstatement : ∀ n, cap'.statement? n = if n = name then p else cap.statement? n)
    (hp : ∀ d' ∈ d, ∃ text types, d'.1 = .text text ∧
      p = some (preparedOf U cap.maxStatementBytes text types)) :
    Agrees U { b with statements := update b.statements (.text name) d } cap' where
  statements := by
    intro n d' hd'
    by_cases hn : n = .text name
    · subst hn
      simp only [update_self] at hd'
      obtain ⟨text, types, htext, hp⟩ := hp d' hd'
      exact ⟨name, text, types, rfl, htext, by rw [hmax, hstatement, if_pos rfl, hp]⟩
    · simp only [update_of_ne hn] at hd'
      obtain ⟨name', text, types, rfl, htext, hknown⟩ := h.statements n d' hd'
      refine ⟨name', text, types, rfl, htext, ?_⟩
      have hne : name' ≠ name := fun he => hn (congrArg WireStr.text he)
      rw [hmax, hstatement, if_neg hne, hknown]
  portals := by
    rw [hmax, hportals]
    exact h.portals

theorem Agrees.setPortal (h : Agrees U b cap) {portal : Str}
    {q : Option (BoundPortal Definition)} {p : Option Portal}
    (hmax : cap'.maxStatementBytes = cap.maxStatementBytes)
    (hstatement : ∀ n, cap'.statement? n = cap.statement? n)
    (hportals : cap'.portals = update cap.portals portal p)
    (hp : ∀ q' ∈ q, ∃ text, q'.definition.1 = .text text ∧
      PortalFor U cap.maxStatementBytes text q'.ran p) :
    Agrees U { b with portals := update b.portals (.text portal) q } cap' where
  statements := by
    intro n d hd
    obtain ⟨name, text, types, hn, htext, hknown⟩ := h.statements n d hd
    exact ⟨name, text, types, hn, htext, by rw [hmax, hstatement, hknown]⟩
  portals := by
    intro n q' hq'
    rw [hmax, hportals]
    by_cases hn : n = .text portal
    · subst hn
      simp only [update_self] at hq'
      obtain ⟨text, htext, hp⟩ := hp q' hq'
      exact ⟨portal, text, rfl, htext, by rwa [update_self]⟩
    · simp only [update_of_ne hn] at hq'
      obtain ⟨name, text, rfl, htext, hknown⟩ := h.portals n q' hq'
      have hne : name ≠ portal := fun he => hn (congrArg WireStr.text he)
      exact ⟨name, text, rfl, htext, by rwa [update_of_ne hne]⟩

theorem Agrees.accept (h : Agrees U b cap) (hutf8 : utf8Message m)
    (haccept : b.accept unnamed m = some b') (hexec : ∀ portal, m ≠ .execute portal) :
    Agrees U b' (cap.noteMessage U m) := by
  have hsame := (noteMessage_keeps (U := U) cap m).1.maxStatementBytes
  cases m with
  | parse name d =>
    obtain ⟨sql, types⟩ := d
    obtain ⟨hname, hsql⟩ := Bool.and_eq_true_iff.mp hutf8
    obtain ⟨name, rfl⟩ := utf8?_isSome hname
    obtain ⟨sql, rfl⟩ := utf8?_isSome hsql
    rw [Backend.accept] at haccept
    split at haccept
    · cases haccept
    cases haccept
    refine h.setStatement hsame (portals_noteParse _ _ _ _)
      (statement?_noteParse cap name sql types) ?_
    rintro _ ⟨⟩
    exact ⟨sql, types, rfl, rfl⟩
  | bind portal name params =>
    obtain ⟨hportal, hname⟩ := Bool.and_eq_true_iff.mp hutf8
    obtain ⟨portal, rfl⟩ := utf8?_isSome hportal
    obtain ⟨name, rfl⟩ := utf8?_isSome hname
    obtain ⟨d, hd, rfl⟩ := Option.map_eq_some_iff.mp haccept
    obtain ⟨name', text, types, hn, htext, hknown⟩ := h.statements _ d hd
    obtain rfl : name = name' := by simpa using hn
    have hnote : cap.noteMessage U (.bind (.text portal) (.text name) params) = _ :=
      noteBind_eq cap portal name params
    rw [hnote] at hsame ⊢
    refine h.setPortal hsame (fun _ => rfl) rfl ?_
    rintro _ ⟨⟩
    rw [hknown]
    exact ⟨text, htext, portalFor_boundPortal _ _ _ _⟩
  | execute portal => exact absurd rfl (hexec portal)
  | describe name | describePortal name =>
    obtain ⟨d, -, rfl⟩ := Option.map_eq_some_iff.mp haccept
    exact h
  | closeStatement name =>
    obtain ⟨name, rfl⟩ := utf8?_isSome hutf8
    cases haccept
    exact h.setStatement hsame (portals_noteClose_statement _ _)
      (statement?_noteClose cap name) (by simp)
  | closePortal portal =>
    obtain ⟨portal, rfl⟩ := utf8?_isSome hutf8
    cases haccept
    exact h.setPortal hsame (fun _ => rfl) rfl (by simp)

/-- What the capture registers for the first `Execute` of a portal. -/
def executePending (p : Portal) (execIndex : Nat) : Pending where
  sql := p.prepared.sql.getD []
  kind := p.prepared.kind
  multi := p.prepared.multi
  params := p.params
  paramTypes := p.prepared.paramTypes
  protocol := .extended
  execIndex := execIndex
  oversize := p.prepared.sql == some [] && p.prepared.kind.isJournaled

/-- An `Execute` is counted; the first one of a known portal is registered. -/
theorem noteExecute_cases (cap : SessionCapture) (portal : Str) :
    ((∀ p ∈ cap.portals portal, p.executed) ∧
      cap.noteExecute (.text portal) = { cap with execs := cap.execs + 1 }) ∨
    ∃ p, cap.portals portal = some p ∧ p.executed = false ∧
      cap.noteExecute (.text portal) = { cap with
        execs := cap.execs + 1,
        pending := cap.pending ++ [executePending p cap.execs],
        portals := update cap.portals portal
          (some { p with executed := true, params := [] }) } := by
  rw [SessionCapture.noteExecute]
  simp only [WireStr.utf8?, Option.getD_some]
  cases hportal : cap.portals portal with
  | none => exact .inl ⟨by simp, rfl⟩
  | some p =>
    cases hran : p.executed with
    | true => exact .inl ⟨by simp [hran], by simp [hran]⟩
    | false => exact .inr ⟨p, rfl, hran, by simp only [hran]; rfl⟩

section

variable (h : Agrees U b cap)
include h

theorem Agrees.keepStatement (hmax : cap'.maxStatementBytes = cap.maxStatementBytes)
    (hportals : cap'.portals = cap.portals)
    (hstatement : ∀ n, cap'.statement? n = if n = name then p else cap.statement? n)
    (hp : ∀ d ∈ b.statements (.text name), ∃ text types, d.1 = .text text ∧
      p = some (preparedOf U cap.maxStatementBytes text types)) : Agrees U b cap' := by
  have hset := h.setStatement hmax hportals hstatement hp
  rwa [update_eq_self] at hset

theorem Agrees.keepPortal {portal : Str}
    {p : Option Portal} (hmax : cap'.maxStatementBytes = cap.maxStatementBytes)
    (hstatement : ∀ n, cap'.statement? n = cap.statement? n)
    (hportals : cap'.portals = update cap.portals portal p)
    (hnone : b.portals (.text portal) = none) : Agrees U b cap' := by
  have hset :=
    h.setPortal (q := b.portals (.text portal)) hmax hstatement hportals (by simp [hnone])
  rwa [update_eq_self] at hset

theorem Agrees.of_same (hmax : cap'.maxStatementBytes = cap.maxStatementBytes)
    (hstatement : ∀ n, cap'.statement? n = cap.statement? n)
    (hportals : cap'.portals = cap.portals) :
    Agrees U b cap' := by
  refine ⟨fun n d hd => ?_, by rw [hmax, hportals]; exact h.portals⟩
  obtain ⟨name, text, types, hn, htext, hknown⟩ := h.statements n d hd
  exact ⟨name, text, types, hn, htext, by rw [hmax, hstatement, hknown]⟩

/-- A message that the backend has not carried out is harmless to the
agreement. -/
theorem Agrees.harmless (hutf8 : utf8Message m) (hm : Harmless b m) :
    Agrees U b (cap.noteMessage U m) := by
  have hsame := (noteMessage_keeps (U := U) cap m).1.maxStatementBytes
  cases m with
  | parse name d =>
    obtain ⟨sql, types⟩ := d
    obtain ⟨hname, hsql⟩ := Bool.and_eq_true_iff.mp hutf8
    obtain ⟨name, rfl⟩ := utf8?_isSome hname
    obtain ⟨sql, rfl⟩ := utf8?_isSome hsql
    exact h.keepStatement hsame (portals_noteParse _ _ _ _)
      (statement?_noteParse cap name sql types)
      fun d' hd' => ⟨sql, types, hm d' hd', rfl⟩
  | bind portal name params =>
    obtain ⟨hportal, hname⟩ := Bool.and_eq_true_iff.mp hutf8
    obtain ⟨portal, rfl⟩ := utf8?_isSome hportal
    obtain ⟨name, rfl⟩ := utf8?_isSome hname
    have hnote : cap.noteMessage U (.bind (.text portal) (.text name) params) = _ :=
      noteBind_eq cap portal name params
    rw [hnote] at hsame ⊢
    exact h.keepPortal hsame (fun _ => rfl) rfl hm
  | execute portal =>
    obtain ⟨portal, rfl⟩ := utf8?_isSome hutf8
    change Agrees U b (cap.noteExecute (.text portal))
    rcases noteExecute_cases cap portal with ⟨-, hnote⟩ | ⟨p, -, -, hnote⟩ <;> rw [hnote]
    · exact h.of_same rfl (fun _ => rfl) rfl
    · exact h.keepPortal rfl (fun _ => rfl) rfl hm
  | describe name | describePortal name => exact h
  | closeStatement name =>
    obtain ⟨name, rfl⟩ := utf8?_isSome hutf8
    refine h.keepStatement hsame (portals_noteClose_statement _ _)
      (statement?_noteClose cap name) ?_
    rw [show b.statements (.text name) = none from hm]
    simp
  | closePortal portal =>
    obtain ⟨portal, rfl⟩ := utf8?_isSome hutf8
    exact h.keepPortal hsame (fun _ => rfl) rfl hm

/-- An `Execute` the backend carries out. -/
theorem Agrees.execute {q : BoundPortal Definition} (hq : b.portals portal = some q) :
    ∃ text, q.definition.1 = .text text ∧
      Agrees U { b with portals := update b.portals portal (some { q with ran := true }) }
        (cap.noteMessage U (.execute portal)) ∧
      (cap.noteMessage U (.execute portal)).execs = cap.execs + 1 ∧
      if capturedText U text && !q.ran then
        ∃ p, (∃ types, p.prepared = preparedOf U cap.maxStatementBytes text types) ∧
          (cap.noteMessage U (.execute portal)).pending =
            cap.pending ++ [executePending p cap.execs]
      else (cap.noteMessage U (.execute portal)).pending = cap.pending := by
  obtain ⟨portal, text, rfl, htext, hfor⟩ := h.portals portal q hq
  refine ⟨text, htext, ?_⟩
  rw [show cap.noteMessage U (.execute (.text portal)) = cap.noteExecute (.text portal) from rfl]
  rcases noteExecute_cases cap portal with ⟨hran, hnote⟩ | ⟨p, hp, hran, hnote⟩ <;> rw [hnote]
  · have hfor' : PortalFor U cap.maxStatementBytes text true (cap.portals portal) := by
      cases hp : cap.portals portal with
      | none => rwa [hp] at hfor
      | some p =>
        rw [hp] at hfor
        exact ⟨hfor.1, hfor.2.1, hran p hp⟩
    refine ⟨?_, rfl, ?_⟩
    · refine h.setPortal rfl (fun _ => rfl) (update_eq_self _ _).symm ?_
      rintro _ ⟨⟩
      exact ⟨text, htext, hfor'⟩
    · rw [if_neg]
      cases hp : cap.portals portal with
      | none =>
        rw [hp] at hfor
        simp [show capturedText U text = false from hfor]
      | some p =>
        rw [hp] at hfor
        simp [← hfor.2.2, hran p hp]
  · rw [hp] at hfor
    obtain ⟨hcaptured, hprepared, hexecuted⟩ := hfor
    refine ⟨?_, rfl, ?_⟩
    · refine h.setPortal rfl (fun _ => rfl) rfl ?_
      rintro _ ⟨⟩
      exact ⟨text, htext, hcaptured, hprepared, rfl⟩
    · rw [if_pos (by simp [hcaptured, ← hexecuted, hran])]
      exact ⟨p, hprepared, rfl⟩

end

end Notes

end HeliosProxy.Journal
