import HeliosProxy.Text.Statement

/-!
# What a statement means to the journal

`journal_capture.rs` reads a statement's first words to tell reads, writes and
transaction control apart.  A simple-query string is split at its semicolons;
one that holds several statements counts as the strongest of them, and its
control statements are not told apart.
-/

namespace HeliosProxy.Journal

open Text List

inductive Control
  | begin
  | commit
  | rollback
  | savepoint (name : Str)
  | release (name : Str)
  | rollbackTo (name : Str)
  | prepareTransaction
  /-- `COMMIT PREPARED` and `ROLLBACK PREPARED`. -/
  | passive
deriving DecidableEq

inductive StmtKind
  | read
  | write
  | control (c : Control)
  | copy
  /-- What the statement does depends on the session or on the backend. -/
  | opaqueStmt
deriving DecidableEq

def StmtKind.isJournaled : StmtKind → Bool
  | .write | .copy | .opaqueStmt => true
  | _ => false

def StmtKind.isControl : StmtKind → Bool
  | .control _ => true
  | _ => false

def StmtKind.incompleteReason : StmtKind → Option Str
  | .copy => some "COPY ... FROM data is not captured by the journal"
  | .opaqueStmt => some ("EXECUTE of a session-scoped prepared statement, or a statement the " ++
      "backends read differently, cannot be reproduced")
  | _ => none

/-! ## Words -/

def isWordChar (c : Char) : Bool := c.isAlphanum || c == '_'

def firstWord (s : Str) : Str × Str := (s.takeWhile isWordChar, s.dropWhile isWordChar)

def wordEq (word kw : Str) : Bool := word.length == kw.length && eqIgnoreCase word kw

def firstWordNotAscii (s : Str) : Bool :=
  (firstWord s).2.head?.any fun c => !isAscii c && !isWhitespace c

def savepointName (rest : Str) : Str :=
  match trimStart rest with
  | '"' :: q => q.takeWhile (· != '"')
  | rest => (firstWord rest).1

/-- The text after the end of the comments open at `depth`. -/
def skipNested : Nat → Str → Option Str
  | depth, '/' :: '*' :: s => skipNested (depth + 1) s
  | depth, '*' :: '/' :: s => if depth ≤ 1 then some s else skipNested (depth - 1) s
  | depth, _ :: s => skipNested depth s
  | _, [] => none

theorem skipNested_suffix {depth : Nat} {s after : Str} (h : skipNested depth s = some after) :
    after <:+ s := by
  fun_induction skipNested depth s with
  | case1 depth s ih | case3 depth s hdepth ih =>
    exact ((ih h).trans (suffix_cons _ _)).trans (suffix_cons _ _)
  | case2 depth s hdepth =>
    cases h
    exact (suffix_cons _ _).trans (suffix_cons _ _)
  | case4 depth c s hopen hclose ih => exact (ih h).trans (suffix_cons _ _)
  | case5 => cases h

/-- `protocol::skip_leading_comments`, with fuel for one turn per character. -/
def skipLeadingCommentsFuel : Nat → Str → Str
  | 0, s => s
  | fuel + 1, s =>
    match s.dropWhile isSpace with
    | '-' :: '-' :: rest =>
      skipLeadingCommentsFuel fuel ((rest.dropWhile fun c => c != '\n' && c != '\r').drop 1)
    | '/' :: '*' :: rest =>
      match skipNested 1 rest with
      | some after => skipLeadingCommentsFuel fuel after
      | none => []
    | rest => rest

def skipLeadingComments (s : Str) : Str := skipLeadingCommentsFuel (s.length + 1) s

/-- The loop of `statement_body`. -/
def statementBodyFuel : Nat → Str → Str
  | 0, s => s
  | fuel + 1, s =>
    if (trimStart s).length = s.length then s
    else statementBodyFuel fuel (skipLeadingComments (trimStart s))

/-- `statement_body`: past whitespace and comments. -/
def statementBody (sql : Str) : Str := statementBodyFuel (sql.length + 1) (skipLeadingComments sql)

def containsCi (s needle : Str) : Bool := s.tails.any fun t => startsWithCi t needle

/-! ## One statement -/

/-- `WRITES`. -/
def writeVerbs : List Str :=
  ["INSERT", "UPDATE", "DELETE", "MERGE", "CREATE", "DROP",
    "ALTER", "TRUNCATE", "GRANT", "REVOKE", "REFRESH",
    "COMMENT", "SECURITY", "IMPORT", "CALL", "DO",
    "REASSIGN"]

/-- What follows `ROLLBACK`: the whole transaction, or a savepoint. -/
def rollbackControl (rest : Str) : Control :=
  let (w2, rest2) := firstWord (trimStart rest)
  let (w2, rest2) :=
    if wordEq w2 "WORK" || wordEq w2 "TRANSACTION" then firstWord (trimStart rest2)
    else (w2, rest2)
  if wordEq w2 "TO" then
    let (w3, rest3) := firstWord (trimStart rest2)
    .rollbackTo (savepointName (if wordEq w3 "SAVEPOINT" then rest3 else trimStart rest2))
  else .rollback

def classifySingle (U : UnicodeTables) (sql : Str) : StmtKind :=
  if leadingRest sql then .opaqueStmt
  else
    let s := statementBody sql
    if firstWordNotAscii s then .opaqueStmt
    else
      let (w, rest) := firstWord s
      let (w2, rest2) := firstWord (trimStart rest)
      let upper (kw : String) : Bool := wordEq w kw.toList
      if upper "BEGIN" || upper "START" then .control .begin
      else if upper "COMMIT" || upper "END" then
        .control (if wordEq w2 "PREPARED".toList then .passive else .commit)
      else if upper "ROLLBACK" || upper "ABORT" then
        .control (if wordEq w2 "PREPARED".toList then .passive else rollbackControl rest)
      else if upper "SAVEPOINT" then .control (.savepoint (savepointName rest))
      else if upper "RELEASE" then
        .control (.release (savepointName (if wordEq w2 "SAVEPOINT".toList then rest2 else rest)))
      else if upper "PREPARE" then
        if wordEq w2 "TRANSACTION".toList then .control .prepareTransaction else .read
      else if upper "EXECUTE" then .opaqueStmt
      else if upper "COPY" then
        if containsCi s " FROM ".toList || containsCi s " FROM\n".toList ||
            containsCi s " FROM\t".toList then .copy
        else .read
      else if upper "WITH" then
        let text := if s.all isAscii then s else s.flatMap U.toUppercase
        if ["INSERT".toList, "UPDATE".toList, "DELETE".toList, "MERGE".toList].any
            (containsCi text) then .write
        else .read
      else if writeVerbs.any (wordEq w) then .write
      else .read

/-! ## A string of statements -/

/-- The characters that end the quoted text in front of the closing quote
`q`, that quote included. -/
def quotedLength (q : Char) : Str → Nat
  | [] => 0
  | [_] => 1
  | c :: d :: s =>
    if c == q then if d == q then quotedLength q s + 2 else 1
    else quotedLength q (d :: s) + 1

/-- The dollar-quoted text in front of `s`, which starts with `$`: nothing
when its tag is none. -/
def dollarLength (s : Str) : Nat :=
  let inner := (s.drop 1).takeWhile (· != '$')
  if (s.drop (1 + inner.length)).isEmpty then 1
  else if inner.head?.all identStart && inner.all fun c => identStart c || c.isDigit then
    let tag := s.take (inner.length + 2)
    match findSub tag (s.drop tag.length) with
    | some (body, _) => tag.length + body.length + tag.length
    | none => s.length
  else 1

/-- How many characters `split_statements` skips at once at the front of `s`,
a text that does not start with a semicolon, after the character `prev`. -/
def skipLength (prev : Option Char) : Str → Nat
  | [] => 0
  | c :: s =>
    if c == '\'' || c == '"' then quotedLength c s + 1
    else if c == '-' && s.head? == some '-' then
      (s.takeWhile fun c => c != '\n' && c != '\r').length + 2
    else if c == '/' && s.head? == some '*' then
      match findSub "*/" (s.drop 1) with
      | some (body, _) => body.length + 4
      | none => s.length + 1
    else if c == '$' && !prev.any identCont then dollarLength (c :: s)
    else 1

theorem dollarLength_pos {s : Str} (h : s ≠ []) : 0 < dollarLength s := by
  have hs : 0 < s.length := length_pos_iff.mpr h
  unfold dollarLength
  dsimp only
  split
  · exact one_pos
  split
  · split
    · rw [length_take]
      omega
    · exact hs
  · exact one_pos

theorem skipLength_pos (prev : Option Char) (c : Char) (s : Str) :
    0 < skipLength prev (c :: s) := by
  rw [skipLength]
  split
  · exact Nat.succ_pos _
  split
  · exact Nat.succ_pos _
  split
  · split
    · exact Nat.succ_pos _
    · exact Nat.succ_pos _
  split
  · exact dollarLength_pos (cons_ne_nil c s)
  · exact one_pos

theorem skipLength_of_free {c : Char} (h : c ∉ "'\"-/$".toList) (prev : Option Char) (s : Str) :
    skipLength prev (c :: s) = 1 := by
  simp only [String.reduceToList, mem_cons, not_or] at h
  obtain ⟨h1, h2, h3, h4, h5⟩ := h
  simp [skipLength, h1, h2, h3, h4, h5]

/-- The texts between the semicolons of `s`, with the text `piece` read
before. -/
def splitPieces : Nat → Option Char → Str → Str → List Str
  | 0, _, piece, _ => [piece]
  | _ + 1, _, piece, [] => [piece]
  | fuel + 1, prev, piece, c :: s =>
    if c == ';' then piece :: splitPieces fuel (some c) [] s
    else
      let n := skipLength prev (c :: s)
      splitPieces fuel ((c :: s).take n).getLast? (piece ++ (c :: s).take n) ((c :: s).drop n)

def splitStatements (sql : Str) : List Str :=
  let parts := ((splitPieces (sql.length + 1) none [] sql).map trim).filter fun p => !p.isEmpty
  if parts.isEmpty then [trim sql] else parts

def StmtKind.strongest : StmtKind → StmtKind → StmtKind
  | .copy, _ | _, .copy => .copy
  | .opaqueStmt, _ | _, .opaqueStmt => .opaqueStmt
  | .write, _ | _, .write => .write
  | .control c, _ | _, .control c => .control c
  | .read, .read => .read

/-- `classify`: the kind, and whether the string holds several statements. -/
def classify (U : UnicodeTables) (sql : Str) : StmtKind × Bool :=
  match splitStatements sql with
  | [] => (classifySingle U sql, false)
  | [part] => (classifySingle U part, false)
  | parts =>
    match parts.foldl (fun kind p => StmtKind.strongest kind (classifySingle U p)) .read with
    | .control _ => (.read, true)
    | kind => (kind, true)

end HeliosProxy.Journal
