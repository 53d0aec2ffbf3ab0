import HeliosProxy.Text.Chars

/-!
# Read-only transactions of a PostgreSQL session

A transaction takes its access mode from `default_transaction_read_only` when it
starts, unless `BEGIN` or `START TRANSACTION` gives one; `SET TRANSACTION` changes it
later.  In a read-only transaction a statement that changes data fails.  A transaction
stays open until it is ended, and a setting changed inside it is taken back when it is
rolled back.
-/

namespace HeliosProxy.Postgres

open Text

inductive AccessMode
  | readOnly
  | readWrite
deriving DecidableEq

inductive AccessStmt
  /-- `BEGIN` and `START TRANSACTION`. -/
  | begin (mode : Option AccessMode)
  | setTransaction (mode : Option AccessMode)
  /-- A new value of `default_transaction_read_only`. -/
  | setDefault (mode : AccessMode)
  | commit (chain : Bool)
  | rollback (chain : Bool)
  | prepareTransaction
  /-- A statement that changes data when it is executed. -/
  | write
  /-- What it does is not read off its text: a `DO` block, a `CALL`, and the setting of a
  name in Unicode escapes. -/
  | hidden
  | other
deriving DecidableEq

/-- Whether a statement may make the transaction it is in, or one it starts, a writing one. -/
def AccessStmt.mayWrite : AccessStmt → Bool
  | .begin (some .readWrite) | .setTransaction (some .readWrite) | .hidden => true
  | _ => false

/-! ## Reading a text -/

/-- Where in a text the scanner stands. -/
inductive Inside
  | code
  | lineComment
  /-- A block comment with `depth` more of them around it. -/
  | blockComment (depth : Nat)
  /-- Inside the quotes `q`; whether a backslash hides the character behind it. -/
  | quoted (q : Char) (escapes : Bool)
  /-- Behind a backslash or the first of two quotes. -/
  | hiding (q : Char) (escapes : Bool)
  | dollar (tag : Str)
  /-- The next `n + 1` characters of a dollar quote's mark; `tag` is the mark it opens with. -/
  | mark (n : Nat) (tag : Option Str)

/-- The mark of the dollar quote that opens behind this `$`. -/
def dollarMark (s : Str) : Option Str :=
  let name := s.takeWhile (· != '$')
  if (s.dropWhile (· != '$')).isEmpty || name.head?.any Char.isDigit || !name.all identCont then none
  else some ('$' :: name ++ ['$'])

def finished (w : Str) : List Str := if w.isEmpty then [] else [w]

/-- The tokens of a text, in lower case; `w` is the token being read.  A literal or a
quoted name keeps its opening quote.  Whether a backslash hides the next character in a
literal, `escapes` says of the text behind its opening quote: PostgreSQL goes by the letter
in front, by the literal that it continues and by `standard_conforming_strings`, which the
session may have changed. -/
def tokensFrom (escapes : Str → Bool) : Inside → Str → Str → List Str
  | .blockComment depth, w, '/' :: '*' :: s => tokensFrom escapes (.blockComment (depth + 1)) w s
  | .blockComment 0, w, '*' :: '/' :: s => tokensFrom escapes .code w s
  | .blockComment (depth + 1), w, '*' :: '/' :: s => tokensFrom escapes (.blockComment depth) w s
  | .blockComment depth, w, _ :: s => tokensFrom escapes (.blockComment depth) w s
  | .lineComment, w, c :: s =>
    tokensFrom escapes (if isLineEnd c then .code else .lineComment) w s
  | .quoted q e, w, c :: s =>
    if (e && c == '\\') || (c == q && s.head? == some q) then tokensFrom escapes (.hiding q e) w s
    else if c == q then w :: tokensFrom escapes .code [] s
    else tokensFrom escapes (.quoted q e) (w ++ [c.toLower]) s
  | .hiding q e, w, c :: s => tokensFrom escapes (.quoted q e) (w ++ [c.toLower]) s
  | .dollar tag, w, c :: s =>
    if tag.isPrefixOf (c :: s) then w :: tokensFrom escapes (.mark (tag.length - 2) none) [] s
    else tokensFrom escapes (.dollar tag) w s
  | .mark 0 tag, w, _ :: s => tokensFrom escapes (tag.elim .code .dollar) w s
  | .mark (n + 1) tag, w, _ :: s => tokensFrom escapes (.mark n tag) w s
  | .code, w, '-' :: '-' :: s => finished w ++ tokensFrom escapes .lineComment [] s
  | .code, w, '/' :: '*' :: s => finished w ++ tokensFrom escapes (.blockComment 0) [] s
  | .code, w, c :: s =>
    if c == '$' && w.isEmpty && (dollarMark s).isSome then
      tokensFrom escapes (.mark ((dollarMark s).elim 0 (·.length - 2)) (dollarMark s)) [c] s
    else if identCont c then tokensFrom escapes .code (w ++ [c.toLower]) s
    else if isSpace c then finished w ++ tokensFrom escapes .code [] s
    else if c == '\'' then finished w ++ tokensFrom escapes (.quoted c (escapes s)) [c] s
    else if c == '"' then finished w ++ tokensFrom escapes (.quoted c false) [c] s
    else finished w ++ [c] :: tokensFrom escapes .code [] s
  | _, w, [] => finished w

/-- The statements PostgreSQL reads a text as, each by its tokens. -/
def statements (escapes : Str → Bool) (sql : Str) : List (List Str) :=
  ((tokensFrom escapes .code [] sql).splitOn ";".toList).filter (!·.isEmpty)

def accessMode : List Str → Option AccessMode
  | t :: u :: ts =>
    match accessMode (u :: ts) with
    | some m => some m
    | none =>
      if t = "read" then
        if u = "only" then some .readOnly
        else if u = "write" then some .readWrite
        else none
      else none
  | _ => none

/-- The name that stands in quotes or not. -/
def unquoted (t : Str) : Str := if t.head? = some '"' then t.tail else t

/-- The mode a value of a read-only setting asks for.  PostgreSQL reads the beginnings of
`true` and `yes` like the whole words; what is no spelling of `on` is taken for `off`. -/
def settingMode (t : Str) : AccessMode :=
  let value := if t.head? = some '\'' then t.tail else t
  if value = "on" ∨ value = "1" ∨
      (value ≠ [] ∧ (value <+: "true" ∨ value <+: "yes")) then .readOnly
  else .readWrite

/-- What `SET` sets. -/
def readSet : List Str → AccessStmt
  | name :: eq :: value :: rest =>
    if name = "session" ∧ eq = "characteristics" then
      match accessMode rest with
      | some m => .setDefault m
      | none => .other
    else if name = "transaction" then .setTransaction (accessMode (eq :: value :: rest))
    else if unquoted name = "default_transaction_read_only" then
      .setDefault (settingMode value)
    else if unquoted name = "transaction_read_only" then
      .setTransaction (some (settingMode value))
    else if eq = "&" then .hidden
    else .other
  | _ => .other

/-- What `RESET` and `DISCARD` set back. -/
def readReset : List Str → AccessStmt
  | name :: rest =>
    if name = "all" ∨ unquoted name = "default_transaction_read_only" then
      .setDefault .readWrite
    else if unquoted name = "transaction_read_only" then .setTransaction (some .readWrite)
    else if rest.head? = some "&".toList then .hidden
    else .other
  | [] => .other

def dmlVerbs : List Str := ["insert", "update", "delete", "merge"]

/-- Whether a verb that changes data stands behind a parenthesis: first in a common
table expression, or as the statement behind the last one. -/
def writesInParts : List Str → Bool
  | t :: u :: ts => (t ∈ ["(".toList, ")".toList] && u ∈ dmlVerbs) || writesInParts (u :: ts)
  | _ => false

/-- Whether a statement that `EXPLAIN` may have in front changes data. -/
def writesData : List Str → Bool
  | t :: ts => t ∈ dmlVerbs || (t = "with" && writesInParts ts)
  | [] => false

/-- Whether an `EXPLAIN` runs what it explains, and the statement it explains. -/
def explained : List Str → Bool × List Str
  | t :: ts =>
    if t = "(" then
      let options := ts.takeWhile (· ≠ ")".toList)
      let values := (options.dropWhile fun o => o ∉ ["analyze".toList, "analyse".toList]).drop 1
      (options.any (· ∈ ["analyze".toList, "analyse".toList]) &&
          !values.head?.any (· ∈ ["false".toList, "off".toList, "0".toList]),
        (ts.dropWhile (· ≠ ")".toList)).drop 1)
    else if t ∈ ["analyze".toList, "analyse".toList] then
      (true, ts.dropWhile (· = "verbose"))
    else (false, ts)
  | [] => (false, [])

/-- Whether the transaction command ends with `AND CHAIN`. -/
def chains : List Str → Bool
  | t :: u :: ts => (t = "and" && u = "chain") || chains (u :: ts)
  | _ => false

/-- What a statement is to the access modes, by its tokens. -/
def readStatement : List Str → AccessStmt
  | t :: ts =>
    if t = "begin" then .begin (accessMode ts)
    else if t = "start" then
      if ts.head? = some "transaction".toList then .begin (accessMode ts) else .other
    else if t = "set" then
      readSet (if ts.head? = some "local".toList ∨
        (ts.head? = some "session".toList ∧ ts.tail.head? ≠ some "characteristics".toList)
        then ts.tail else ts)
    else if t = "reset" ∨ t = "discard" then readReset ts
    else if t = "do" ∨ t = "call" then .hidden
    else if t = "commit" ∨ t = "end" then
      if ts.head? = some "prepared".toList then .other else .commit (chains ts)
    else if t = "rollback" ∨ t = "abort" then
      if ts.any (· ∈ ["prepared".toList, "to".toList]) then .other else .rollback (chains ts)
    else if t = "prepare" ∧ ts.head? = some "transaction".toList then .prepareTransaction
    else if t = "explain" then
      if (explained ts).1 && writesData (explained ts).2 then .write else .other
    else if writesData (t :: ts) then .write
    else .other
  | [] => .other

example (escapes : Str → Bool) :
    (statements escapes "/* a /* b */ */ Start -- x\rTransaction READ WRITE; COMMIT".toList).map
      readStatement = [.begin (some .readWrite), .commit false] := rfl

/-! ## A session -/

structure OpenTransaction where
  mode : AccessMode
  /-- The statements that changed data in it. -/
  writes : List (List Str)
  /-- The default it goes back to when it is rolled back. -/
  defaultBefore : AccessMode
  /-- It was started by a text of several statements and ends with the text. -/
  implicit : Bool
deriving DecidableEq

structure Session where
  default : AccessMode
  transaction : Option OpenTransaction
deriving DecidableEq

def Session.fresh : Session := { default := .readWrite, transaction := none }

/-- The session behind a statement or a text, unless it fails, and the statements whose
changes were committed. -/
abbrev Outcome := Option Session × List (List Str)

namespace Session

def opened (s : Session) (mode : AccessMode) (implicit : Bool) : Session :=
  { s with transaction := some { mode, writes := [], defaultBefore := s.default, implicit } }

def withMode (s : Session) (t : OpenTransaction) (mode : Option AccessMode) : Session :=
  { s with transaction := some { t with mode := mode.getD t.mode } }

/-- The session behind the end of `t`. -/
def behind (s : Session) (t : OpenTransaction) (chain : Bool) : Session :=
  if chain then s.opened t.mode false else { s with transaction := none }

/-- One statement; `hidden` is what the backend does with one whose text does not show it.
A `BEGIN` inside a transaction sets its mode, and makes it last beyond the text. -/
def execute (hidden : Session → Outcome) (s : Session) (stmt : List Str) : Outcome :=
  match readStatement stmt, s.transaction with
  | .begin mode, none => (some (s.opened (mode.getD s.default) false), [])
  | .begin mode, some t => (some (s.withMode { t with implicit := false } mode), [])
  | .setTransaction mode, some t => (some (s.withMode t mode), [])
  | .setDefault mode, _ => (some { s with default := mode }, [])
  | .commit chain, some t =>
    if chain && t.implicit then (none, []) else (some (s.behind t chain), t.writes)
  | .rollback chain, some t =>
    if chain && t.implicit then (none, [])
    else (some (behind { s with default := t.defaultBefore } t chain), [])
  -- what is prepared may be committed by any session
  | .prepareTransaction, some t => (some (s.behind t false), t.writes)
  | .write, some t =>
    if t.mode = .readOnly then (none, [])
    else (some { s with transaction := some { t with writes := t.writes ++ [stmt] } }, [])
  | .write, none => if s.default = .readOnly then (none, []) else (some s, [stmt])
  | .hidden, _ => hidden s
  | .setTransaction _, none | .commit _, none | .rollback _, none | .prepareTransaction, none
  | .other, _ => (some s, [])

/-- A statement among several runs in a transaction of the text where none is open. -/
def entered (s : Session) : Session :=
  if s.transaction.isSome then s else s.opened s.default true

/-- The end of a text of several statements commits the transaction of the text. -/
def settled (s : Session) : Session × List (List Str) :=
  match s.transaction with
  | some t => if t.implicit then ({ s with transaction := none }, t.writes) else (s, [])
  | none => (s, [])

/-- The statements of a text of several; the first that fails ends it. -/
def executeEach (hidden : Session → Outcome) : List (List Str) → Session → Outcome
  | [], s => (some s.settled.1, s.settled.2)
  | stmt :: rest, s =>
    match s.entered.execute hidden stmt with
    | (none, changes) => (none, changes)
    | (some s', changes) =>
      let (behind, more) := executeEach hidden rest s'
      (behind, changes ++ more)

/-- A simple query. -/
def query (escapes : Str → Bool) (hidden : Session → Outcome) (s : Session) (sql : Str) : Outcome :=
  match statements escapes sql with
  | [] => (some s, [])
  | [stmt] => s.execute hidden stmt
  | stmts => executeEach hidden stmts s

end Session

def Session.Unwritten (s : Session) : Prop :=
  ∀ t ∈ s.transaction, t.mode = .readOnly ∧ t.writes = [] ∧ t.defaultBefore = .readOnly

theorem Session.unwritten_fresh : Session.fresh.Unwritten := by
  intro t ht
  cases ht

namespace Session

variable {s : Session}

theorem unwritten_none {d : AccessMode} : Unwritten { default := d, transaction := none } := by
  intro t ht
  cases ht

theorem unwritten_opened (hs : s.default = .readOnly) (implicit : Bool) :
    (s.opened .readOnly implicit).Unwritten := by
  intro t ht
  cases ht
  exact ⟨rfl, rfl, hs⟩

theorem unwritten_withMode {t : OpenTransaction} {mode : Option AccessMode}
    (ht : t.mode = .readOnly ∧ t.writes = [] ∧ t.defaultBefore = .readOnly)
    (hmode : mode ≠ some .readWrite) : (s.withMode t mode).Unwritten := by
  intro u hu
  cases hu
  refine ⟨?_, ht.2⟩
  cases mode with
  | none => exact ht.1
  | some m =>
    cases m with
    | readOnly => rfl
    | readWrite => exact absurd rfl hmode

theorem unwritten_behind {t : OpenTransaction} (ht : t.mode = .readOnly)
    (hs : s.default = .readOnly) (chain : Bool) : (s.behind t chain).Unwritten := by
  cases chain with
  | true =>
    rw [behind, ht]
    exact unwritten_opened hs false
  | false => exact unwritten_none

/-- Nothing was committed, and the session can commit nothing. -/
def Harmless (o : Outcome) : Prop := (∀ s ∈ o.1, s.Unwritten) ∧ o.2 = []

theorem harmless_some (hs : s.Unwritten) : Harmless (some s, []) := by
  refine ⟨?_, rfl⟩
  intro u hu
  cases hu
  exact hs

theorem harmless_none : Harmless (none, []) := ⟨fun _ hu => (nomatch hu), rfl⟩

variable {hidden : Session → Outcome}

/-- Where new transactions are read-only, a statement that does not ask for another
mode changes nothing, whether a transaction is open or not. -/
theorem harmless_execute {stmt : List Str} (hdefault : s.default = .readOnly)
    (hs : s.Unwritten) (hstmt : (readStatement stmt).mayWrite = false) :
    Harmless (s.execute hidden stmt) := by
  unfold execute
  cases htx : s.transaction with
  | none =>
    cases hread : readStatement stmt with
    | begin mode =>
      refine harmless_some ?_
      cases mode with
      | none =>
        rw [hdefault]
        exact unwritten_opened hdefault false
      | some m =>
        cases m with
        | readOnly => exact unwritten_opened hdefault false
        | readWrite => rw [hread] at hstmt; cases hstmt
    | setDefault mode => exact harmless_some unwritten_none
    | write => simpa only [hdefault, ↓reduceIte] using harmless_none
    | hidden => rw [hread] at hstmt; cases hstmt
    | setTransaction mode | commit chain | rollback chain | prepareTransaction | other =>
      exact harmless_some hs
  | some t =>
    have ht := hs t htx
    cases hread : readStatement stmt with
    | begin mode | setTransaction mode =>
      refine harmless_some (unwritten_withMode ht ?_)
      rintro rfl
      rw [hread] at hstmt
      cases hstmt
    | setDefault mode => exact harmless_some fun u hu => hs u (htx ▸ hu)
    | commit chain =>
      dsimp only
      split
      · exact harmless_none
      · rw [ht.2.1]
        exact harmless_some (unwritten_behind ht.1 hdefault chain)
    | rollback chain =>
      dsimp only
      split
      · exact harmless_none
      · exact harmless_some (unwritten_behind ht.1 ht.2.2 chain)
    | prepareTransaction =>
      dsimp only
      rw [ht.2.1]
      exact harmless_some unwritten_none
    | write => simpa only [ht.1, ↓reduceIte] using harmless_none
    | hidden => rw [hread] at hstmt; cases hstmt
    | other => exact harmless_some hs

/-- The same of a text that holds no more than one statement. -/
theorem harmless_query {escapes : Str → Bool} {sql : Str} (hdefault : s.default = .readOnly)
    (hs : s.Unwritten) (hone : (statements escapes sql).length ≤ 1)
    (hstmt : ∀ stmt ∈ statements escapes sql, (readStatement stmt).mayWrite = false) :
    Harmless (s.query escapes hidden sql) := by
  unfold query
  split
  next => exact harmless_some hs
  next stmt heq => exact harmless_execute hdefault hs (hstmt stmt (heq ▸ List.mem_singleton_self stmt))
  next stmts hnil hsingle =>
    match hstmts : statements escapes sql, hone with
    | [], _ => exact absurd hstmts hnil
    | [stmt], _ => exact absurd hstmts (hsingle stmt)

end Session

end HeliosProxy.Postgres
