import HeliosProxy.Text.Keywords
import HeliosProxy.Text.Lexer

/-!
# One statement, and where it names tables

`single_statement` reads a write for the cache invalidation: it refuses text
that is ambiguous between the backends, that holds more than one statement, or
that names a table where the table extraction could not read the name whole.
Where a name is read is tracked by `TableSpot`, one word at a time.
-/

namespace HeliosProxy.Text

inductive Role
  | target
  | source
  | predicate
deriving DecidableEq

inductive TableSpot
  | elsewhere
  /-- After `IS` or `IS NOT`. -/
  | is
  | isDistinct
  | name (role : Role)
  | afterName (role : Role)
  | part (role : Role)
deriving DecidableEq

/-- `TABLE_KEYWORDS`. -/
def tableKeywords : List Str :=
  ["FROM", "JOIN", "INTO", "UPDATE", "TABLE", "COPY",
    "INSERT", "ONLY"]

def numberRunsIntoWord : Str → Bool
  | '.' :: d :: _ => d.isDigit
  | c :: _ => c.isDigit
  | [] => false

/-- `unreadable_name`: a name the extraction cannot read whole. -/
def unreadableName (t : Str) : Bool :=
  t.head? != some '$' && (t.contains '$' || t.any fun c => !isAscii c && !isWhitespace c)

def continuesIdentifierEverywhere (U : UnicodeTables) (c : Char) : Bool :=
  U.isAlphabetic c || c.isDigit || c == '_' || c == '$'

/-- `may_read_as_keyword`: a word HeliosDB-Lite may read as a keyword where
the others read a name. -/
def mayReadAsKeyword (U : UnicodeTables) (w : Str) : Bool :=
  !w.all isAscii &&
    ((splitOn (fun c => !continuesIdentifierEverywhere U c) w).filter fun r => !r.all isAscii).any
      fun r =>
        let upper := r.flatMap U.toUppercase
        upper.all isAscii &&
          (r.head?.any Char.isDigit || sqlparserKeywords.contains (String.ofList upper))

def spacedWords (t : Str) : List Str := (splitOn isWhitespace t).filter fun w => !w.isEmpty

namespace TableSpot

def namesTable : TableSpot → Bool
  | .name r | .part r => r != .predicate
  | _ => false

/-- Whether a write may name a table it changes here, given whether a `DELETE`
came before. -/
def namesWrittenTable (deleteBefore : Bool) : TableSpot → Bool
  | .name .target | .part .target => true
  | .name .source | .part .source => deleteBefore
  | _ => false

def afterWord (spot : TableSpot) (w : Str) : TableSpot :=
  if !w.head?.any identStart then
    match spot with
    | .name r => if w == ['('] then .name r else if numberRunsIntoWord w then .name .target else .elsewhere
    | .afterName r => if w == ['.'] then .part r else if numberRunsIntoWord w then .name .target else .elsewhere
    | _ => if numberRunsIntoWord w then .name .target else .elsewhere
  else if eqIgnoreCase w "FROM" then
    .name (if spot == .isDistinct then .predicate else .source)
  else if tableKeywords.any (eqIgnoreCase w) then .name .target
  else
    match spot with
    | .name r | .part r => .afterName r
    | _ =>
      if eqIgnoreCase w "IS" then .is
      else if spot == .is && eqIgnoreCase w "NOT" then .is
      else if spot == .is && eqIgnoreCase w "DISTINCT" then .isDistinct
      else .elsewhere

def after (spot : TableSpot) : Piece → TableSpot
  | .space _ | .comment _ => spot
  | .text t => if t.all isAscii then spot.afterWord t else (spacedWords t).foldl afterWord spot
  | _ => .elsewhere

/-- The spot after a text of a write, or nothing when one of its words cannot
be read. -/
def afterWriteText (U : UnicodeTables) (spot : TableSpot) (t : Str) : Option TableSpot :=
  if t.all isAscii then
    if spot.namesTable && unreadableName t then none else some (spot.afterWord t)
  else
    (spacedWords t).foldlM (fun (spot : TableSpot) w =>
      if (spot.namesTable && unreadableName w) || mayReadAsKeyword U w then none
      else some (spot.afterWord w)) spot

end TableSpot

/-! ## The first word -/

inductive Lead
  | start (s : Str)
  | rest
  | nothing
deriving DecidableEq

/-- What the text `s` of the pieces starts with, past whitespace and comments. -/
def leadOf (s : Str) : List Piece → Lead
  | [] => .nothing
  | .space t :: ps => leadOf (s.drop t.length) ps
  | .comment t :: ps => leadOf (s.drop t.length) ps
  | .rest _ :: _ => .rest
  | .text t :: ps =>
    let w := trimStart t
    if w.isEmpty then leadOf (s.drop t.length) ps else .start (s.drop (t.length - w.length))
  | _ :: _ => .start s

def lead (sql : Str) : Lead := leadOf sql (pieces sql)

def statementStart (sql : Str) : Option Str :=
  match lead sql with
  | .start s => some s
  | _ => none

def leadingRest (sql : Str) : Bool := lead sql == .rest

def startsWithKeyword (U : UnicodeTables) (t w : Str) : Bool :=
  startsWithCi t w && !(t.drop w.length).head?.any (continuesIdentifierEverywhere U)

def afterKeyword (U : UnicodeTables) (t w : Str) : Option Str :=
  (statementStart t).bind fun s => if startsWithKeyword U s w then some (s.drop w.length) else none

def mergeWithoutInto (U : UnicodeTables) (sql : Str) : Bool :=
  startsWithKeyword U sql "MERGE" &&
    !(statementStart (sql.drop 5)).any fun r => startsWithKeyword U r "INTO"

/-- `INSERT_CONFLICT_WORDS`. -/
def insertConflictWords : List Str :=
  ["REPLACE", "ROLLBACK", "ABORT", "FAIL", "IGNORE"]

def insertWithoutInto (U : UnicodeTables) (sql : Str) : Bool :=
  match afterKeyword U sql "INSERT" with
  | none => false
  | some r =>
    let past : Option Str :=
      match afterKeyword U r "OR" with
      | some conflict => insertConflictWords.findSome? (afterKeyword U conflict)
      | none => some ((afterKeyword U r "REPLACE").getD r)
    match past with
    | none => true
    | some r =>
      let r := (afterKeyword U r "OVERWRITE").getD r
      (afterKeyword U r "INTO").isNone

/-! ## One statement -/

/-- The loop variables of `single_statement`; positions count characters. -/
structure Scan where
  offset : Nat
  first : Option Nat
  ended : Bool
  spot : TableSpot
  searched : Nat
  deleteFound : Bool

def Scan.init : Scan := ⟨0, none, false, .elsewhere, 0, false⟩

/-- Whether a text of the pieces of `sql` holds the word `DELETE`. -/
def holdsDelete (U : UnicodeTables) (sql : Str) : Bool :=
  (pieces sql).any fun
    | .text t => (splitOn (fun c => !continuesIdentifierEverywhere U c) t).any fun w =>
        eqIgnoreCase w "DELETE"
    | _ => false

/-- `DeleteBefore::found` at the current piece, asked only after a `FROM`. -/
def Scan.searchDelete (U : UnicodeTables) (sql : Str) (sc : Scan) : Scan :=
  match sc.spot with
  | .name .source | .part .source =>
    if sc.deleteFound then sc
    else { sc with
      deleteFound := holdsDelete U ((sql.drop sc.searched).take (sc.offset - sc.searched)),
      searched := sc.offset }
  | _ => sc

/-- Past the piece `p`, with the first one kept. -/
def Scan.past (sc : Scan) (p : Piece) (spot : TableSpot) : Scan :=
  { sc with offset := sc.offset + p.source.length, spot := spot, first := sc.first.or (some sc.offset) }

def Scan.skip (sc : Scan) (p : Piece) : Scan :=
  { sc with offset := sc.offset + p.source.length, spot := sc.spot.after p }

def scanPiece (U : UnicodeTables) (sql : Str) (sc : Scan) (p : Piece) : Option Scan :=
  match p with
  | .space _ | .comment _ => some (sc.skip p)
  | .rest _ => none
  | .text t =>
    if sc.ended then none
    else if t == [';'] then some { sc.skip p with ended := true }
    else (sc.spot.afterWriteText U t).map (sc.past p)
  | .ident _ =>
    if sc.ended || sc.spot.namesTable || (0 < sc.offset && sql[sc.offset - 1]? == some '&') then none
    else some (sc.past p (sc.spot.after p))
  | .str _ | .dollar _ _ =>
    let sc := sc.searchDelete U sql
    if sc.ended || sc.spot.namesWrittenTable sc.deleteFound then none
    else some (sc.past p (sc.spot.after p))
  | .number _ => if sc.ended then none else some (sc.past p (sc.spot.after p))

/-- `single_statement`: the statement from its first word, and its text
without comments. -/
def singleStatement (U : UnicodeTables) (sql : Str) : Option (Str × Str) := do
  let sc ← (pieces sql).foldlM (scanPiece U sql) Scan.init
  let first ← sc.first
  let start ← statementStart (sql.drop first)
  return (start, stripped sql (pieces sql))

end HeliosProxy.Text
