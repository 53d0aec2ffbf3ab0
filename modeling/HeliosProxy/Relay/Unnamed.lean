import HeliosProxy.Lib.Lists
import HeliosProxy.Lib.Runs
import HeliosProxy.Postgres.Extended
import HeliosProxy.Text.Chars

/-!
# Promotion of the unnamed `Parse`

An unnamed `Parse` that leads a batch is held back.  When its text and types
are the signature recorded for the backend connection it is not sent at all, and
the proxy answers `ParseComplete` itself.  The signature is recorded when such a
`Parse` was sent, whatever the backend answered, and forgotten at a simple
`Query`; other messages change the unnamed statement behind its back.
-/

namespace HeliosProxy.Relay

open Text Postgres

variable {D B : Type}

/-! ## Holding a Parse back -/

/-- `parse_stmt_name` reads a name that is no UTF-8 as the empty one. -/
def parseStmtName (name : WireStr) : Str := name.utf8?.getD []

structure HeldParse (D : Type) where
  name : WireStr
  definition : D

/-- The payload behind its first byte: what is left of a name that was not
empty, and the definition. -/
structure Signature (D : Type) where
  restOfName : Option (List UInt8)
  definition : D
deriving DecidableEq

def HeldParse.signature (h : HeldParse D) : Signature D :=
  match h.name with
  | .text _ => ⟨none, h.definition⟩
  | .raw bytes => ⟨some bytes.tail, h.definition⟩

@[simp] theorem HeldParse.signature_definition (h : HeldParse D) :
    h.signature.definition = h.definition := by
  obtain ⟨name, d⟩ := h
  cases name <;> rfl

/-- Every signature is one that a held `Parse` can have. -/
theorem exists_held (sig : Signature D) :
    ∃ h : HeldParse D, h.signature = sig ∧ (parseStmtName h.name).isEmpty := by
  obtain ⟨rest, d⟩ := sig
  cases rest with
  | none => exact ⟨⟨Text.unnamed, d⟩, rfl, rfl⟩
  | some bytes => exact ⟨⟨.raw (255 :: bytes), d⟩, rfl, rfl⟩

variable {h : HeldParse D}

theorem parseStmtName_signature (hheld : (parseStmtName h.name).isEmpty) :
    h.signature.restOfName = none ↔ h.name = Text.unnamed := by
  obtain ⟨name, d⟩ := h
  cases name with
  | text s => simpa [HeldParse.signature, Text.unnamed, parseStmtName, WireStr.utf8?] using hheld
  | raw bytes => simp [HeldParse.signature, Text.unnamed]

/-- The batch being collected: the `Parse` held aside, and what is pending. -/
structure Collected (D B : Type) where
  held : Option (HeldParse D)
  pending : List (Message WireStr D B)

/-- One message of the batch.  A second `Parse` puts the held one back in its
place before the others. -/
def Collected.push (promoteUnnamed : Bool) (c : Collected D B) :
    Message WireStr D B → Collected D B
  | .parse name d =>
    if promoteUnnamed && (parseStmtName name).isEmpty && c.pending.isEmpty && c.held.isNone then
      { c with held := some ⟨name, d⟩ }
    else
      match c.held with
      | some h => ⟨none, .parse h.name h.definition :: c.pending ++ [.parse name d]⟩
      | none => { c with pending := c.pending ++ [.parse name d] }
  | m => { c with pending := c.pending ++ [m] }

def collect (promoteUnnamed : Bool) (batch : List (Message WireStr D B)) : Collected D B :=
  batch.foldl (Collected.push promoteUnnamed) ⟨none, []⟩

theorem held_collect_off (messages : List (Message WireStr D B)) :
    (collect false messages).held = none := by
  refine List.foldlRecOn (motive := fun c : Collected D B => c.held = none) messages _ rfl ?_
  intro c hc m _
  cases m <;> simp [Collected.push, hc]

/-- Only a `Parse` that the client's side takes for unnamed is held. -/
theorem held_collect_empty {promoteUnnamed : Bool} {messages : List (Message WireStr D B)}
    (hheld : (collect promoteUnnamed messages).held = some h) :
    (parseStmtName h.name).isEmpty := by
  revert h
  refine List.foldlRecOn (motive := fun c : Collected D B => ∀ {h}, c.held = some h →
    (parseStmtName h.name).isEmpty) messages _ (fun hh => by cases hh) ?_
  intro c hc m _ h hheld
  cases m with
  | parse name d =>
    rw [Collected.push] at hheld
    split at hheld
    · rename_i hcond
      cases hheld
      simp only [Bool.and_eq_true] at hcond
      exact hcond.1.1.2
    · split at hheld
      · cases hheld
      · exact hc hheld
  | bind _ _ _ | execute _ | describe _ | describePortal _ | closeStatement _ | closePortal _ =>
    exact hc hheld

theorem collect_lead (hname : (parseStmtName h.name).isEmpty) :
    collect (B := B) true [.parse h.name h.definition] = ⟨some h, []⟩ := by
  simp [collect, Collected.push, hname]

/-! ## Unnamed objects the session no longer has -/

structure UnnamedStale where
  statement : Bool
  portal : Bool
deriving DecidableEq

namespace UnnamedStale

def default : UnnamedStale := ⟨false, false⟩

def any (s : UnnamedStale) : Bool := s.statement || s.portal

def usedBy (s : UnnamedStale) : Message WireStr D B → Bool
  | .parse name _ => name = unnamed && s.statement
  | .bind portal name _ =>
    -- `bind_stmt_ref` is `None` for a name that is no UTF-8 as well
    (portal = unnamed && s.portal) || (s.statement && (parseStmtName name).isEmpty)
  | .execute portal => portal = unnamed && s.portal
  | .describe name | .closeStatement name => name = unnamed && s.statement
  | .describePortal portal | .closePortal portal => portal = unnamed && s.portal

/-- The loop of `unnamed_stale_after`: an unnamed `Parse` that leads the batch
replaces the statement. -/
def afterMessages : Bool → UnnamedStale → List (Message WireStr D B) →
    Except UnnamedStale UnnamedStale
  | _, s, [] => .ok s
  | lead, s, m :: ms =>
    match lead, m with
    | true, .parse (.text []) _ => afterMessages false { s with statement := false } ms
    | _, _ => if s.usedBy m then .error s else afterMessages false s ms

end UnnamedStale

def unnamedStaleAfter (batch : List (Message WireStr D B)) (heldParse waitReady : Bool)
    (stale : UnnamedStale) : Except UnnamedStale UnnamedStale := do
  let stale := if heldParse then { stale with statement := false } else stale
  let stale ← UnnamedStale.afterMessages (!heldParse) stale batch
  if !waitReady && stale.any then .error stale else .ok stale

/-! ## One backend connection -/

/-- A connection with the backend behind it: the unnamed statement it holds, and
whether a cycle that a `Flush` left open is being skipped up to its `Sync`. -/
structure Conn (D : Type) where
  unnamed : Option D
  cycle : Option Bool
  unnamedSig : Option (Signature D)
  unnamedStale : UnnamedStale

namespace Conn

def fresh : Conn D := ⟨none, none, none, .default⟩

/-- A simple `Query`.  A backend that skips to the `Sync` does not read it. -/
def unnamedDestroyed (c : Conn D) : Conn D :=
  { c with
    unnamed := if c.cycle = some true then c.unnamed else none
    unnamedSig := none
    unnamedStale := .default }

def orphanUnnamed (c : Conn D) (which : UnnamedStale) : Conn D :=
  { c with
    unnamedStale := ⟨c.unnamedStale.statement || which.statement,
      c.unnamedStale.portal || which.portal⟩ }

/-- Stale objects are closed out of band before a batch that opens a cycle and
could use them. -/
def clearStale (c : Conn D) (heldParse : Bool) (batch : List (Message WireStr D B))
    (waitReady : Bool) : Conn D :=
  if c.cycle.isNone && c.unnamedStale.any then
    match unnamedStaleAfter batch heldParse waitReady c.unnamedStale with
    | .ok left => { c with unnamedStale := left }
    | .error stale =>
      { c with
        unnamed := if stale.statement then none else c.unnamed
        unnamedStale := .default
        unnamedSig := if stale.statement then none else c.unnamedSig }
  else c

def SignatureTrue (c : Conn D) : Prop :=
  ∀ sig ∈ c.unnamedSig, sig.restOfName = none ∧ c.unnamed = some sig.definition

variable {c : Conn D}

theorem SignatureTrue.clearStale (hc : c.SignatureTrue) (heldParse : Bool)
    (batch : List (Message WireStr D B)) (waitReady : Bool) :
    (c.clearStale heldParse batch waitReady).SignatureTrue := by
  rw [Conn.clearStale]
  split
  · split
    · exact hc
    · rename_i stale _
      cases hstale : stale.statement with
      | true => simp [SignatureTrue]
      | false => simpa [SignatureTrue] using hc
  · exact hc

theorem unnamedSig_clearStale (hc : c.unnamedSig = none) (heldParse : Bool)
    (batch : List (Message WireStr D B)) (waitReady : Bool) :
    (c.clearStale heldParse batch waitReady).unnamedSig = none := by
  rw [Conn.clearStale]
  split
  · split
    · exact hc
    · simp [hc]
  · exact hc

theorem clearStale_lead (c : Conn D) :
    (c.clearStale true ([] : List (Message WireStr D B)) true).unnamed = c.unnamed ∧
      (c.clearStale true ([] : List (Message WireStr D B)) true).unnamedSig = c.unnamedSig := by
  rw [Conn.clearStale]
  split
  · exact ⟨rfl, rfl⟩
  · exact ⟨rfl, rfl⟩

variable [DecidableEq D]

/-- The held `Parse`, unless the signature says that the backend has it. -/
def toForward (c : Conn D) (held : Option (HeldParse D)) : Option (HeldParse D) :=
  held.filter fun h => c.unnamedSig ≠ some h.signature

end Conn

/-- The messages a backend carries out, each with its answer: all up to the first
that is rejected.  `none` when the answers do not fit: a `Close` is accepted. -/
def answered : List (Message WireStr D B) → List Bool →
    Option (List (Message WireStr D B × Bool))
  | [], _ => some []
  | _ :: _, [] => none
  | m :: ms, true :: as => (answered ms as).map ((m, true) :: ·)
  | .closeStatement _ :: _, false :: _ | .closePortal _ :: _, false :: _ => none
  | m :: _, false :: _ => some [(m, false)]

def lastTouch (done : List (Message WireStr D B × Bool)) : Option (Option D) :=
  done.reverse.findSome? fun x => x.1.touch Text.unnamed Text.unnamed x.2

namespace Conn

/-- What the backend reads of the batch: nothing while it skips to the `Sync`. -/
def reads (c : Conn D) (wire : List (Message WireStr D B)) (answers : List Bool) :
    Option (List (Message WireStr D B × Bool)) :=
  if c.cycle = some true then some [] else answered wire answers

variable [DecidableEq D]

/-- What goes out to the backend, the held `Parse` first. -/
def wire (c : Conn D) (held : Option (HeldParse D)) (batch : List (Message WireStr D B)) :
    List (Message WireStr D B) :=
  ((c.toForward held).map fun h => .parse h.name h.definition).toList ++ batch

/-- `forward_extended_batch`, up to a response that arrives whole. -/
def forwardExtendedBatch (c : Conn D) (held : Option (HeldParse D))
    (batch : List (Message WireStr D B)) (waitReady : Bool) (answers : List Bool) :
    Option (Conn D) :=
  let c := c.clearStale held.isSome batch waitReady
  (c.reads (c.wire held batch) answers).map fun done =>
    { c with
      unnamed := done.foldl (fun u x => (x.1.touch Text.unnamed Text.unnamed x.2).getD u) c.unnamed
      cycle := if waitReady then none else some (c.cycle = some true || done.any fun x => !x.2)
      -- recorded whatever the backend answered
      unnamedSig := ((c.toForward held).map HeldParse.signature).or c.unnamedSig }

end Conn

/-- What reaches a connection.  The answers are the backend's, to the messages it
carries out; `flush` ends a batch that leaves its cycle open. -/
inductive Request (D B : Type)
  | batch (messages : List (Message WireStr D B)) (flush : Bool) (answers : List Bool)
  | query
  | orphan (which : UnnamedStale)

variable [DecidableEq D]

def Conn.step (promoteUnnamed : Bool) (c : Conn D) : Request D B → Option (Conn D)
  | .batch messages flush answers =>
    let batch := collect promoteUnnamed messages
    c.forwardExtendedBatch batch.held batch.pending (!flush) answers
  | .query => some c.unnamedDestroyed
  | .orphan which => some (c.orphanUnnamed which)

/-! ## When a Parse may be left out -/

/-- Whatever batch comes next: a held `Parse` that is not sent is unnamed, and
what the backend holds is what it would define. -/
def Conn.SkipsRight (B : Type) (promoteUnnamed : Bool) (c : Conn D) : Prop :=
  ∀ (messages : List (Message WireStr D B)) (flush : Bool) (h : HeldParse D),
    let batch := collect promoteUnnamed messages
    let c := c.clearStale batch.held.isSome batch.pending (!flush)
    batch.held = some h → c.toForward batch.held = none →
      h.name = Text.unnamed ∧ c.unnamed = some h.definition

/-- The request leaves the recorded signature true: what the batch last does to
the unnamed statement is to define it as recorded.  Where it does nothing to it, no
held `Parse` was sent, or the backend that skipped it holds its definition. -/
def Conn.KeepsSignature (promoteUnnamed : Bool) (c : Conn D) : Request D B → Prop
  | .batch messages flush answers =>
    let batch := collect promoteUnnamed messages
    let c := c.clearStale batch.held.isSome batch.pending (!flush)
    let sent := c.toForward batch.held
    ∀ sig ∈ (sent.map HeldParse.signature).or c.unnamedSig,
      ∀ done ∈ c.reads (c.wire batch.held batch.pending) answers,
        sig.restOfName = none ∧ (∀ touched ∈ lastTouch done, touched = some sig.definition) ∧
          (lastTouch done = none → sent = none ∨ c.unnamed = some sig.definition)
  | .query | .orphan _ => True

instance (promoteUnnamed : Bool) (c : Conn D) :
    ∀ r : Request D B, Decidable (c.KeepsSignature promoteUnnamed r)
  | .batch .. => by
    unfold Conn.KeepsSignature
    infer_instance
  | .query | .orphan _ => isTrue trivial

namespace Conn

variable {c c' : Conn D} {promoteUnnamed : Bool}

theorem toForward_eq_none {h : HeldParse D} :
    c.toForward (some h) = none ↔ c.unnamedSig = some h.signature := by
  simp [toForward]

/-- A `Parse` is only left out wrongly where the signature is wrong; nothing is
recorded with the promotion off. -/
theorem skipsRight_iff (hoff : promoteUnnamed = false → c.unnamedSig = none) :
    c.SkipsRight B promoteUnnamed ↔ c.SignatureTrue := by
  constructor
  · intro hskips sig hsig
    cases promoteUnnamed with
    | false => simp [hoff rfl] at hsig
    | true =>
      obtain ⟨h, rfl, hname⟩ := exists_held sig
      have hbatch := hskips [.parse h.name h.definition] false h
      simp only [collect_lead hname, Option.isSome_some, Bool.not_false, toForward_eq_none,
        clearStale_lead] at hbatch
      rw [parseStmtName_signature hname, h.signature_definition]
      exact hbatch trivial hsig
  · intro htrue messages flush h batch c₁ hheld hskip
    have hname := held_collect_empty hheld
    rw [hheld, toForward_eq_none] at hskip
    have hsig := (htrue.clearStale batch.held.isSome batch.pending (!flush)) _ hskip
    exact ⟨(parseStmtName_signature hname).mp hsig.1, h.signature_definition ▸ hsig.2⟩

theorem step_off (hoff : promoteUnnamed = false → c.unnamedSig = none) (r : Request D B)
    (hstep : c.step promoteUnnamed r = some c') : promoteUnnamed = false → c'.unnamedSig = none := by
  rintro rfl
  cases r with
  | batch messages flush answers =>
    obtain ⟨done, -, rfl⟩ := Option.map_eq_some_iff.mp hstep
    simp [held_collect_off, toForward, unnamedSig_clearStale (hoff rfl)]
  | query =>
    cases hstep
    rfl
  | orphan which =>
    cases hstep
    exact hoff rfl

theorem step_signatureTrue (hc : c.SignatureTrue) {r : Request D B}
    (hstep : c.step promoteUnnamed r = some c') :
    c'.SignatureTrue ↔ c.KeepsSignature promoteUnnamed r := by
  cases r with
  | batch messages flush answers =>
    obtain ⟨done, hdone, rfl⟩ := Option.map_eq_some_iff.mp hstep
    have htrue := hc.clearStale (collect promoteUnnamed messages).held.isSome
      (collect promoteUnnamed messages).pending (!flush)
    simp only [SignatureTrue, KeepsSignature, Lists.foldl_getD_eq, hdone, Option.mem_def,
      Option.some.injEq, forall_eq']
    rw [← lastTouch]
    refine forall₂_congr fun sig hsig => and_congr_right fun _ => ?_
    cases hlast : lastTouch done with
    | some touched => simp
    | none =>
      refine ⟨fun h => ⟨fun touched ht => ?_, fun _ => .inr h⟩,
        fun h => (h.2 rfl).elim (fun hsent => ?_) id⟩
      · cases ht
      rw [hsent] at hsig
      exact (htrue sig hsig).2
  | query =>
    cases hstep
    simp [SignatureTrue, KeepsSignature, unnamedDestroyed]
  | orphan which =>
    cases hstep
    exact ⟨fun _ => trivial, fun _ => hc⟩

end Conn

/-- Along a run the promotion is transparent exactly if every request keeps the
signature true. -/
theorem promotion_transparent_iff (promoteUnnamed : Bool) (requests : List (Request D B))
    {c : Conn D} (hran : Runs.run (Conn.step promoteUnnamed) .fresh requests = some c) :
    (∀ k c', Runs.run (Conn.step promoteUnnamed) .fresh (requests.take k) = some c' →
        c'.SkipsRight B promoteUnnamed) ↔
      Runs.Along (Conn.step promoteUnnamed) (Conn.KeepsSignature promoteUnnamed) .fresh
        requests := by
  refine Runs.forall_take_iff_along
    (fun _ r _ hoff hstep => Conn.step_off hoff r hstep) (fun c r c' hoff hskips hstep => ?_)
    (fun _ => rfl) ?_ hran
  · rw [Conn.skipsRight_iff (Conn.step_off hoff r hstep)]
    exact Conn.step_signatureTrue ((Conn.skipsRight_iff hoff).mp hskips) hstep
  · rw [Conn.skipsRight_iff fun _ => rfl]
    exact fun _ h => nomatch h

/-- The same query three times: sent, left out, and sent again after a `Query`. -/
theorem promotion_transparent_repeated :
    let one : List (Message WireStr (Str × List UInt32) Unit) :=
      [.parse unnamed ("SELECT $1", [23]), .bind unnamed unnamed (), .execute unnamed]
    let requests : List (Request (Str × List UInt32) Unit) :=
      [.batch one false [true, true, true], .batch one false [true, true], .query,
        .batch one false [true, true, true]]
    (∃ c, Runs.run (Conn.step true) .fresh requests = some c) ∧
      ∀ k c', Runs.run (Conn.step true) .fresh (requests.take k) = some c' →
        c'.SkipsRight Unit true :=
  ⟨⟨_, rfl⟩, (promotion_transparent_iff true _ rfl).mpr (by decide)⟩

/-- A batch that starts with another `Parse` defines the unnamed statement anew, and
the `Parse` of the recorded text is then left out. -/
theorem not_promotion_transparent :
    ¬ ∀ (requests : List (Request (Str × List UInt32) Unit)) (c : Conn (Str × List UInt32)),
      Runs.run (Conn.step true) .fresh requests = some c → c.SkipsRight Unit true := by
  intro htransparent
  have hskips := htransparent
    [.batch [.parse unnamed ("SELECT 1", [])] false [true],
      .batch [.parse (.text "s") ("SELECT 3", []),
        .parse unnamed ("SELECT 2", [])] false [true, true]] _ rfl
  have hwrong := hskips [.parse unnamed ("SELECT 1", [])] false
    ⟨unnamed, "SELECT 1", []⟩ rfl (by decide)
  exact absurd hwrong.2 (by decide)

/-! ## What a backend reads of another client's objects -/

namespace UnnamedStale

omit [DecidableEq D]

def readBy (s : UnnamedStale) : Message WireStr D B → Bool
  | .bind _ name _ | .describe name => name = unnamed && s.statement
  | .execute portal | .describePortal portal => portal = unnamed && s.portal
  | .parse _ _ | .closeStatement _ | .closePortal _ => false

/-- What is left over once the backend has carried out the message, and accepted it or not.
A `Bind` that fails may have dropped the unnamed portal. -/
def afterMessage (s : UnnamedStale) (accepted dropped : Bool) : Message WireStr D B → UnnamedStale
  | .parse name _ => { s with statement := s.statement && name ≠ unnamed }
  | .bind portal _ _ => { s with portal := s.portal && (portal ≠ unnamed || !(accepted || dropped)) }
  | .closeStatement name => { s with statement := s.statement && (name ≠ unnamed || !accepted) }
  | .closePortal portal => { s with portal := s.portal && (portal ≠ unnamed || !accepted) }
  | .execute _ | .describe _ | .describePortal _ => s

/-- The messages are carried out up to the first that fails; the rest is skipped. -/
def CarriedOut : List (Message WireStr D B) → List (Message WireStr D B × Bool × Bool) → Prop
  | [], [] => True
  | m :: messages, (m', accepted, _) :: done => m = m' ∧ if accepted then CarriedOut messages done else done = []
  | _, _ => False

/-- No message that is carried out reads a left-over object, and what stays left over is
among `left`. -/
def Unread (left : UnnamedStale) : UnnamedStale → List (Message WireStr D B × Bool × Bool) → Prop
  | s, [] => (s.statement → left.statement) ∧ (s.portal → left.portal)
  | s, (m, accepted, dropped) :: done => s.readBy m = false ∧ Unread left (s.afterMessage accepted dropped m) done

variable {s b left : UnnamedStale} {m : Message WireStr D B}

theorem afterMessage_le (b : UnnamedStale) (accepted dropped : Bool) (m : Message WireStr D B) :
    ((b.afterMessage accepted dropped m).statement → b.statement) ∧
      ((b.afterMessage accepted dropped m).portal → b.portal) := by
  cases m <;> simp only [afterMessage] <;> grind

theorem readBy_eq_false (hs : b.statement → s.statement) (hp : b.portal → s.portal)
    (hu : s.usedBy m = false) : b.readBy m = false := by
  cases m <;> simp only [usedBy, readBy] at hu ⊢ <;> grind [parseStmtName, WireStr.utf8?, unnamed]

variable {messages : List (Message WireStr D B)}

theorem afterMessages_behind
    (hs : afterMessages false s messages = .ok left) : left = s ∧ ∀ m ∈ messages, s.usedBy m = false := by
  induction messages with
  | nil =>
    cases hs
    exact ⟨rfl, by rintro _ ⟨⟩⟩
  | cons m messages ih =>
    simp only [afterMessages] at hs
    split at hs
    · cases hs
    · next hu =>
      obtain ⟨hsa, hr⟩ := ih hs
      exact ⟨hsa, List.forall_mem_cons.mpr ⟨Bool.eq_false_iff.mpr hu, hr⟩⟩

variable {done : List (Message WireStr D B × Bool × Bool)}

theorem unread_of_unused (hu : ∀ m ∈ messages, s.usedBy m = false)
    (hs : b.statement → s.statement) (hp : b.portal → s.portal)
    (hc : CarriedOut messages done) : Unread s b done := by
  induction messages generalizing b done with
  | nil =>
    cases done with
    | nil => exact ⟨hs, hp⟩
    | cons e done => exact hc.elim
  | cons m messages ih =>
    cases done with
    | nil => exact hc.elim
    | cons e done =>
      obtain ⟨m', accepted, dropped⟩ := e
      obtain ⟨rfl, hr⟩ := hc
      obtain ⟨hf, hl⟩ := List.forall_mem_cons.mp hu
      have hle := afterMessage_le b accepted dropped m
      refine ⟨readBy_eq_false hs hp hf, ?_⟩
      cases accepted with
      | true => exact ih hl (fun h => hs (hle.1 h)) (fun h => hp (hle.2 h)) hr
      | false =>
        cases hr
        exact ⟨fun h => hs (hle.1 h), fun h => hp (hle.2 h)⟩

/-- An unnamed `Parse` in front takes the statement away, accepted or not. -/
theorem unread_lead {d : D}
    (hu : ∀ m ∈ messages, usedBy { s with statement := false } m = false)
    (hc : CarriedOut (.parse unnamed d :: messages) done) :
    Unread { s with statement := false } s done := by
  cases done with
  | nil => exact hc.elim
  | cons e done =>
    obtain ⟨m, accepted, dropped⟩ := e
    obtain ⟨rfl, hr⟩ := hc
    have hg : s.afterMessage accepted dropped (.parse unnamed d : Message WireStr D B) =
        { s with statement := false } := by
      simp [afterMessage]
    refine ⟨rfl, ?_⟩
    rw [hg]
    cases accepted with
    | true => exact unread_of_unused hu id id hr
    | false =>
      cases hr
      exact ⟨id, id⟩

/-- Where the scan finds no use, nothing that the backend carries out reads an object left
over from another client, and what stays of them is marked. -/
theorem unnamedStaleAfter_sufficient {batch : List (Message WireStr D B)} {heldParse waitReady : Bool}
    (hscanned : unnamedStaleAfter batch heldParse waitReady s = .ok left) (held : D)
    {done : List (Message WireStr D B × Bool × Bool)}
    (hcarried : CarriedOut ((if heldParse then [.parse unnamed held] else []) ++ batch) done) : Unread left s done := by
  have hloop : afterMessages (!heldParse) (if heldParse then { s with statement := false } else s) batch = .ok left := by
    unfold unnamedStaleAfter at hscanned
    dsimp only [Bind.bind, Except.bind] at hscanned
    split at hscanned
    · cases hscanned
    · next stale hran =>
      split at hscanned
      · cases hscanned
      · cases hscanned
        exact hran
  cases heldParse with
  | true =>
    obtain ⟨rfl, hunused⟩ := afterMessages_behind hloop
    exact unread_lead hunused hcarried
  | false =>
    simp only [Bool.false_eq_true, if_false] at hloop hcarried
    cases batch with
    | nil =>
      cases hloop
      exact unread_of_unused (by rintro _ ⟨⟩) id id hcarried
    | cons m batch =>
      unfold afterMessages at hloop
      split at hloop
      · next d _ =>
        obtain ⟨rfl, hunused⟩ := afterMessages_behind hloop
        exact unread_lead hunused hcarried
      · split at hloop
        · cases hloop
        · next hfree =>
          obtain ⟨rfl, hunused⟩ := afterMessages_behind hloop
          exact unread_of_unused (List.forall_mem_cons.mpr ⟨Bool.eq_false_iff.mpr hfree, hunused⟩) id id hcarried

/-- A batch that starts with its own `Parse`.  Its messages are carried out up to the `Execute`,
which fails; the portal of another client stays. -/
theorem unnamedStaleAfter_sufficient_parse :
    let p : WireStr := .text "p"
    let done : List (Message WireStr Unit Unit × Bool × Bool) :=
      [(.parse unnamed (), true, false), (.describe unnamed, true, false),
        (.bind p unnamed (), true, false), (.execute p, false, false)]
    let batch := done.map Prod.fst ++ [.closePortal p]
    unnamedStaleAfter batch false true ⟨true, true⟩ = .ok ⟨false, true⟩ ∧
      Unread ⟨false, true⟩ ⟨true, true⟩ done := by
  intro p done batch
  have hscanned : unnamedStaleAfter batch false true ⟨true, true⟩ = .ok ⟨false, true⟩ := rfl
  have hcarried : CarriedOut batch done := ⟨rfl, rfl, rfl, rfl, rfl⟩
  exact ⟨hscanned, unnamedStaleAfter_sufficient hscanned () hcarried⟩

end UnnamedStale

end HeliosProxy.Relay
