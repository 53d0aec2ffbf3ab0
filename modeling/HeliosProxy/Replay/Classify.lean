import HeliosProxy.Journal.Classify
import HeliosProxy.Text.Chars

/-!
# What a statement is to a replay

`replay_sql` finds the commit boundaries of a query without parsing it, and
`tr_classify` reads from them whether a statement may be sent again to another
backend.  A backslash in a literal means one thing or another by a setting the
proxy does not know, so that the text is read both ways.
-/

namespace HeliosProxy.Replay

open Text Journal

/-- `u8::is_ascii_whitespace`, which leaves out the vertical tab. -/
def isAsciiWhitespace (c : Char) : Bool :=
  c == ' ' || c == '\t' || c == '\n' || c == '\r' || c == '\x0c'

inductive Token
  | space
  | semicolon
  | word (w : Str)
  | quoted (q : Char) (backslash : Bool)
  | dollar
  | other

/-- Past the end of what the quote `q` opened, and whether a backslash stood in
the literal. -/
def closeQuote (escapes : Bool) (q : Char) : Str → Option (Bool × Str)
  | [] => none
  | [c] => if c = q then some (false, []) else none
  | c :: d :: s =>
    if c = '\x00' then none
    else if c = '\\' ∧ q = '\'' then
      if escapes then (closeQuote escapes q s).map fun (_, after) => (true, after)
      else (closeQuote escapes q (d :: s)).map fun (_, after) => (true, after)
    else if c = q then
      if d = q then closeQuote escapes q s else some (false, d :: s)
    else closeQuote escapes q (d :: s)

/-- The token `c :: s` starts with; a comment is space.  `none` where the text
does not lex. -/
def readToken (escapes : Bool) (c : Char) (s : Str) : Option (Token × Str) :=
  if isAsciiWhitespace c then some (.space, s)
  else
    match c, s with
    | '-', '-' :: rest => some (.space, rest.dropWhile fun c => c != '\n' && c != '\r')
    | '/', '*' :: rest => (skipNested 1 rest).map (.space, ·)
    | ';', _ => some (.semicolon, s)
    | '\x00', _ => none
    | _, _ =>
      if identStart c then some (.word (c :: s.takeWhile identCont), s.dropWhile identCont)
      else if c = '\'' ∨ c = '"' then
        (closeQuote escapes c s).map fun (backslash, after) => (.quoted c backslash, after)
      else if c = '$' then
        match dollarTag (c :: s) with
        | some tag =>
          (findSub tag ((c :: s).drop tag.length)).map fun (_, closed) =>
            (.dollar, closed.drop tag.length)
        | none => some (.other, s)
      else some (.other, s)

structure Scan where
  /-- The text from the first statement on. -/
  head : Option Str
  statements : Nat
  atStart : Bool
  mayCommit : Bool
  endsTx : Bool
  first : Str
  second : Bool
  sawQuotedBackslash : Bool

namespace Scan

def start : Scan := ⟨none, 0, true, false, false, [], false, false⟩

/-- A token at `here` that is neither space nor a semicolon; `word` is empty
unless it is one. -/
def note (sc : Scan) (here word : Str) : Scan :=
  if sc.atStart then
    { sc with
      head := sc.head.or (some here)
      statements := sc.statements + 1
      first := word
      second := false
      mayCommit :=
        sc.mayCommit || eqIgnoreCase word "COMMIT" || eqIgnoreCase word "END"
      endsTx := sc.endsTx || eqIgnoreCase word "ROLLBACK" || eqIgnoreCase word "ABORT"
      atStart := false }
  else if sc.second then sc
  else
    { sc with
      mayCommit := sc.mayCommit ||
        (eqIgnoreCase sc.first "PREPARE" && eqIgnoreCase word "TRANSACTION")
      second := true }

def token (sc : Scan) (here : Str) : Token → Scan
  | .space => sc
  | .semicolon => { sc with atStart := true }
  | .word w => sc.note here w
  | .quoted _ backslash =>
    { sc.note here [] with sawQuotedBackslash := sc.sawQuotedBackslash || backslash }
  | .dollar | .other => sc.note here []

end Scan

/-- The loop of `scan`, with fuel for one token per character. -/
def scanFuel (escapes : Bool) : Nat → Scan → Str → Option Scan
  | 0, _, _ => none
  | _ + 1, sc, [] => some sc
  | fuel + 1, sc, c :: s => do
    let (t, after) ← readToken escapes c s
    scanFuel escapes fuel (sc.token (c :: s) t) after

/-- `scan`.  A `ROLLBACK` with statements behind it may commit those. -/
def scan (escapes : Bool) (sql : Str) : Option Scan :=
  (scanFuel escapes (sql.length + 1) .start sql).map fun sc =>
    { sc with mayCommit := sc.mayCommit || (sc.endsTx && 1 < sc.statements) }

structure Boundaries where
  head : Str
  mayCommit : Bool

/-- `boundaries`: both readings of a backslash, and the worse of them. -/
def boundaries (sql : Str) : Option Boundaries := do
  let plain ← scan false sql
  if !plain.sawQuotedBackslash then
    return ⟨plain.head.getD [], plain.mayCommit⟩
  let escaped ← scan true sql
  return ⟨plain.head.getD [], plain.mayCommit || escaped.mayCommit⟩

/-! ## Words -/

structure Word where
  text : Str
  /-- A parenthesis follows. -/
  call : Bool
  quoted : Bool
  /-- The text from the word on. -/
  here : Str

/-- What `words` reports of a token. -/
def wordOf (here : Str) (t : Token) (after : Str) : Option Word :=
  let call := (after.dropWhile isAsciiWhitespace).head? == some '('
  match t with
  | .word w => some ⟨w, call, false, here⟩
  | .quoted '"' _ => some ⟨here.take (here.length - after.length), call, true, here⟩
  | _ => none

/-- The words of a text up to where it does not lex, and whether it lexes to its
end. -/
def wordsFuel : Nat → Str → List Word × Bool
  | 0, _ => ([], false)
  | _ + 1, [] => ([], true)
  | fuel + 1, c :: s =>
    match readToken false c s with
    | none => ([], false)
    | some (t, after) =>
      let (ws, lexes) := wordsFuel fuel after
      ((wordOf (c :: s) t after).toList ++ ws, lexes)

def words (sql : Str) : List Word × Bool := wordsFuel (sql.length + 1) sql

/-- `tr_lead_words`: the first `n` words, if the text lexes up to them. -/
def trLeadWords (sql : Str) (n : Nat) : Option (List Word) :=
  let (ws, lexes) := words sql
  if n ≤ ws.length || lexes then some (ws.take n) else none

def trWordIs (ws : List Word) (i : Nat) (k : Str) : Bool :=
  (ws.drop i).head?.any fun w => !w.quoted && eqIgnoreCase w.text k

/-- Whether a name as `tr_guc_name` reads it ends in front of `s`. -/
def endsName : Str → Bool
  | '/' :: '*' :: _ | '-' :: '-' :: _ => true
  | c :: _ => isWhitespace c || c == '=' || c == ';' || c == '\''
  | [] => true

def nameAsWritten : Str → Str
  | [] => []
  | c :: s => if endsName (c :: s) then [] else c :: nameAsWritten s

def trimMatches (q : Char) (s : Str) : Str :=
  ((s.dropWhile (· == q)).reverse.dropWhile (· == q)).reverse

/-- `tr_guc_name`: the setting a `SET` or `RESET` is about. -/
def trGucName (sql : Str) : Option Str := do
  let w ← trLeadWords sql 4
  let kw := trWordIs w
  if !(kw 0 "SET" || kw 0 "RESET") then failure
  if kw 1 "SESSION" && kw 2 "AUTHORIZATION" then
    return "session_authorization"
  if kw 1 "SESSION" && kw 2 "CHARACTERISTICS" then
    return "session characteristics"
  let i := if kw 1 "SESSION" then 2 else 1
  if kw i "TIME" && kw (i + 1) "ZONE" then return "timezone"
  if kw i "SCHEMA" then return "search_path"
  if kw i "NAMES" then return "client_encoding"
  if kw i "SEED" then return "seed"
  if kw i "ROLE" then return "role"
  let word ← (w.drop i).head?
  let name := trimMatches '"' ((nameAsWritten word.here).map Char.toLower)
  if name.isEmpty || name == "all" then failure
  return name

def trSetsDefaultIsolation (sql : Str) : Bool :=
  trGucName sql == some "default_transaction_isolation".toList ||
    trGucName sql == some "session characteristics".toList

/-- `tr_snapshot_sensitive`: a transaction that pins a snapshot, by its own words or
by a tracked default. -/
def trSnapshotSensitive (sql : Str) (gucs : List Str) : Bool :=
  let pins := fun t =>
    containsWordCi t "serializable" || containsWordCi t "repeatable"
  let strict := fun t => containsWordCi t "isolation" && pins t
  let head := skipLeadingComments sql
  let opens := startsWithCi head "BEGIN" || startsWithCi head "START"
  if opens && strict sql then true
  else if startsWithCi head "SET" && containsWordCi sql "transaction" &&
      (strict sql || containsWordCi sql "snapshot") then true
  else if opens && !containsWordCi sql "isolation" then
    gucs.any fun g => trSetsDefaultIsolation g && pins g
  else false

/-! ## Kinds -/

inductive StmtKind
  | read
  | write
  /-- It may make the transaction durable. -/
  | commit
  | control
  | other
deriving DecidableEq

/-- `tr_read_eligible`, under a policy that allows the calls `allowsCall` holds of. -/
def trReadEligible (allowsCall : Str → Bool) (core : Str) : Bool :=
  let (ws, lexes) := words core
  !containsWordCi core "into" && lexes &&
    ws.all fun w => !(w.call && (w.quoted || !allowsCall w.text))

def trClassify (allowsCall : Str → Bool) (sql : Str) : StmtKind :=
  match boundaries sql with
  | none => .commit
  | some ⟨_, true⟩ => .commit
  | some ⟨_, false⟩ =>
    let core := statementCore sql
    let kw := fun w : String => startsWithWordCi core w.toList
    let has := fun w : String => containsWordCi core w.toList
    let reads := if trReadEligible allowsCall core then StmtKind.read else .other
    if core.isEmpty then .control
    else if core.contains ';' then
      if has "commit" || has "end" || has "prepare" then .commit else .write
    else if kw "COMMIT" || kw "END" || kw "PREPARE TRANSACTION" then .commit
    else if ["BEGIN", "START", "SAVEPOINT", "RELEASE", "ROLLBACK", "ABORT", "SET", "RESET",
        "DISCARD"].any kw then .control
    else if kw "SELECT" || kw "VALUES" || kw "TABLE" then reads
    else if kw "SHOW" then .read
    else if kw "WITH" then
      if has "insert" || has "update" || has "delete" || has "merge" then .write else reads
    else if kw "COPY" then if has "from" then .write else .read
    else if kw "EXPLAIN" then if has "analyze" || has "analyse" then .other else .read
    else if ["INSERT", "UPDATE", "DELETE", "MERGE", "CREATE", "DROP", "ALTER", "TRUNCATE", "GRANT",
        "REVOKE", "VACUUM", "REINDEX", "CLUSTER", "CALL", "DO", "EXECUTE", "REFRESH", "IMPORT",
        "COMMENT", "SECURITY", "ANALYZE"].any kw then .write
    else .other

/-- `tr_parse_kind`: in a cycle, a `ROLLBACK` leaves what follows it to commit by
itself. -/
def trParseKind (allowsCall : Str → Bool) (sql : Str) : StmtKind :=
  let kind := trClassify allowsCall sql
  if kind = .control ∨ kind = .other then
    match boundaries sql with
    | some b =>
      if startsWithWordCi b.head "ROLLBACK" || startsWithWordCi b.head "ABORT" then
        .commit
      else kind
    | none => kind
  else kind

def trTouchesStatements (sql : Str) : Bool :=
  containsWordCi sql "deallocate" || containsWordCi sql "discard" ||
    containsWordCi sql "prepare"

end HeliosProxy.Replay
