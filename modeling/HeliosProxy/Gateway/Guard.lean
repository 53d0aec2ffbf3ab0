import HeliosProxy.Text.Chars

/-!
# The lexical guard of the MCP gateway

`check_policy` refuses a tool call that holds several statements and, in read-only
mode, one whose first word or whose common table expressions write.  The scanners of
`mcp.rs` walk over a text and step over its literals, quoted names and comments; what
may open where depends on the character before, which the scan keeps.
-/

namespace HeliosProxy.Gateway

open Text

/-! ## Stepping over literals and comments -/

def isWordByte (c : Char) : Bool := c.isAlphanum || c == '_'

def isIdentCont (c : Char) : Bool := isWordByte c || c == '$' || !isAscii c

/-- The text behind the closing quote of a literal (`skip_single_quoted`); in an escape
string a backslash hides the next character. -/
def skipSingleQuoted : Bool → Str → Str
  | true, '\\' :: _ :: s => skipSingleQuoted true s
  | escape, '\'' :: '\'' :: s => skipSingleQuoted escape s
  | _, '\'' :: s => s
  | escape, _ :: s => skipSingleQuoted escape s
  | _, [] => []

/-- Whether a quote behind `before` opens an escape string. -/
def opensEscapeString : Str → Bool
  | e :: c :: _ => (e == 'E' || e == 'e') && isAscii c && !isWordByte c
  | [e] => e == 'E' || e == 'e'
  | [] => false

def skipDoubleQuoted : Str → Str
  | '"' :: '"' :: s => skipDoubleQuoted s
  | '"' :: s => s
  | _ :: s => skipDoubleQuoted s
  | [] => []

def skipLineComment (s : Str) : Str := s.dropWhile (· != '\n')

/-- `skip_block_comment`, inside `depth` comments. -/
def skipBlockComment : Nat → Str → Str
  | depth, '/' :: '*' :: s => skipBlockComment (depth + 1) s
  | depth, '*' :: '/' :: s => if depth ≤ 1 then s else skipBlockComment (depth - 1) s
  | depth, _ :: s => skipBlockComment depth s
  | _, [] => []

/-- `skip_dollar_quoted`, behind the first `$`: the text behind the literal that opens
there, if one does. -/
def skipDollarQuoted (s : Str) : Option Str :=
  let name := s.takeWhile (· != '$')
  if name.head?.all (fun c => c.isAlpha || c == '_') && name.all isWordByte then
    match s.dropWhile (· != '$') with
    | [] => none
    | _ :: body =>
      let tag := '$' :: name ++ ['$']
      match findSub tag body with
      | some (_, closed) => some (closed.drop tag.length)
      | none => some []
  else none

/-- The text behind the literal, quoted name or comment that opens here, if one does.
`before` is the text in front, its last character first. -/
def skipToken (before : Str) : Str → Option Str
  | '\'' :: s => some (skipSingleQuoted (opensEscapeString before) s)
  | '"' :: s => some (skipDoubleQuoted s)
  | '-' :: '-' :: s => some (skipLineComment s)
  | '/' :: '*' :: s => some (skipBlockComment 1 s)
  | '$' :: s => if before.head?.any isIdentCont then none else skipDollarQuoted s
  | _ => none

/-- The text in front of `after`, where the scan goes on, its last character first. -/
def passed (before s after : Str) : Str := (s.take (s.length - after.length)).reverse ++ before

/-! ## Statements -/

/-- The loop of `split_statements` with fuel for one turn per character; `seg` is the
statement being read. -/
def splitStatementsFuel : Nat → Str → Str → Str → List Str
  | 0, _, seg, s => [seg ++ s]
  | _, _, seg, [] => [seg]
  | fuel + 1, before, seg, c :: s =>
    match skipToken before (c :: s) with
    | some after =>
      splitStatementsFuel fuel (passed before (c :: s) after)
        (seg ++ (c :: s).take ((c :: s).length - after.length)) after
    | none =>
      if c == ';' then seg :: splitStatementsFuel fuel (c :: before) [] s
      else splitStatementsFuel fuel (c :: before) (seg ++ [c]) s

def splitStatements (sql : Str) : List Str :=
  ((splitStatementsFuel (sql.length + 1) [] [] sql).map trim).filter fun seg => !seg.isEmpty

def matchesKeyword (s kw : Str) : Bool :=
  kw.length ≤ s.length && startsWithCi s kw && !(s.drop kw.length).head?.any isWordByte

/-- The loop of `has_data_modifying_cte`. -/
def writesInCteFuel : Nat → Str → Str → Bool
  | 0, _, _ => false
  | _, _, [] => false
  | fuel + 1, before, c :: s =>
    match skipToken before (c :: s) with
    | some after => writesInCteFuel fuel (passed before (c :: s) after) after
    | none =>
      (c.isAlpha && !before.head?.any isWordByte &&
          ["INSERT".toList, "UPDATE".toList, "DELETE".toList, "MERGE".toList].any
            (matchesKeyword (c :: s))) ||
        writesInCteFuel fuel (c :: before) s

def hasDataModifyingCte (stmt : Str) : Bool :=
  startsWithCi (trimStart stmt) "WITH" && writesInCteFuel (stmt.length + 1) [] stmt

/-- The words `is_write_sql` looks for. -/
def writeWords : List Str :=
  ["INSERT", "UPDATE", "DELETE", "CREATE", "DROP",
    "ALTER", "TRUNCATE", "GRANT", "REVOKE", "COPY",
    "MERGE", "CALL", "DO", "VACUUM", "REINDEX",
    "CLUSTER", "LOCK", "COMMENT", "SET", "RESET"]

def isWriteSql (sql : Str) : Bool := writeWords.any (startsWithCi (trimStart sql))

/-! ## The policy -/

/-- An agent's contract: whether it is read-only, and what `agent_contract::validate`
says of a statement, which is a violation's hint or nothing. -/
structure Contract where
  readOnly : Bool
  validate : Str → Option Str

def effectiveReadOnly (readOnly : Bool) (contract : Option Contract) : Bool :=
  readOnly || contract.any Contract.readOnly

def severalStatements : Str :=
  "multiple SQL statements are not permitted over the MCP " ++
    "gateway; send one statement per call"

def writingCte : Str :=
  "write via data-modifying CTE refused: this agent contract is read-only"

def writeRefused : Str := "write/DDL refused: the MCP gateway is read-only"

/-- `check_policy`: the hint for the agent where the statement is refused. -/
def checkPolicy (readOnly : Bool) (contract : Option Contract) (sql : Str) : Option Str :=
  let stmts := splitStatements sql
  if 1 < stmts.length then some severalStatements
  else
    let stmt := trim (stmts.head?.getD sql)
    match contract with
    | some c =>
      match c.validate stmt with
      | some hint => some hint
      | none => if c.readOnly && hasDataModifyingCte stmt then some writingCte else none
    | none =>
      if readOnly && (isWriteSql stmt || hasDataModifyingCte stmt) then some writeRefused else none

example : checkPolicy true none "SELECT ';' AS a$$b$$ ; DROP TABLE t" = some severalStatements := by
  decide

end HeliosProxy.Gateway
