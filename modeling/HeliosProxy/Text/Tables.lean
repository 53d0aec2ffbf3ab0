import HeliosProxy.Lib.Lists
import HeliosProxy.Lib.Regex
import HeliosProxy.Text.Statement

/-!
# The tables a statement names

The query cache (`cache/normalizer.rs`) and the edge cache
(`edge/fingerprint.rs`) read the tables of a statement with the same regular
expression, up to the keyword `COPY`, and the same loop over its matches.
-/

namespace HeliosProxy.Text

open Regex (word plus upTo)

/-- The representative of the characters `(?i)` identifies, as far as ASCII is
concerned: the long s and the Kelvin sign fold to letters. -/
def caseFold (c : Char) : Char :=
  if c == 'ſ' then 's' else if c == 'K' then 'k' else c.toLower

/-- A letter of the pattern under `(?i)`. -/
def sameLetter (a c : Char) : Bool := caseFold a == caseFold c

/-- `[a-zA-Z_]` under `(?i)`. -/
def nameStart (c : Char) : Bool := (caseFold c).isLower || c == '_'

/-- `[a-zA-Z0-9_]` under `(?i)`. -/
def nameChar (c : Char) : Bool := nameStart c || c.isDigit

/-- `[\s(]`. -/
def gapChar (c : Char) : Bool := isWhitespace c || c == '('

def keyword (w : String) : Regex Char := word (w.toList.map sameLetter)

/-- The optional words of an `INSERT`: `OR` and a conflict word or `REPLACE`,
`OVERWRITE`, `INTO` and `TABLE`. -/
def insertWords : Regex Char :=
  .seq (.opt (.alt (.seq (plus isWhitespace) (.seq (keyword "OR")
      (.seq (plus isWhitespace) (plus nameStart))))
    (.seq (plus isWhitespace) (keyword "REPLACE"))))
  (.seq (.opt (.seq (plus isWhitespace) (keyword "OVERWRITE")))
  (.seq (.opt (.seq (plus isWhitespace) (keyword "INTO")))
    (.opt (.seq (plus isWhitespace) (keyword "TABLE")))))

def insertKeyword : Regex Char := .seq (keyword "INSERT") insertWords

def alternatives : List String → Regex Char
  | [] => insertKeyword
  | w :: ws => .alt (keyword w) (alternatives ws)

/-- `ONLY` before the table, with the whitespace or the parenthesis after it. -/
def onlyWord : Regex Char :=
  .seq (keyword "ONLY") (.alt (plus isWhitespace)
    (.seq (.star isWhitespace) (.seq (.cls fun c => c == '(') (.star isWhitespace))))

def namePart : Regex Char := .seq (.cls nameStart) (.star nameChar)

def dottedName : Regex Char :=
  .seq namePart (upTo (.seq (.star isWhitespace) (.seq (.cls fun c => c == '.')
    (.seq (.star isWhitespace) namePart))) 2)

def targetPattern : Regex Char :=
  .seq (plus gapChar) (.seq (.opt onlyWord) (.group 2 dottedName))

def tablePattern (keywords : List String) : Regex Char :=
  .seq (.group 1 (alternatives keywords)) targetPattern

/-- The keywords of the query cache's `TABLE_PATTERN` before `INSERT`. -/
def cacheKeywords : List String := ["FROM", "JOIN", "INTO", "UPDATE", "TABLE"]

def edgeKeywords : List String := ["FROM", "JOIN", "INTO", "UPDATE", "TABLE", "COPY"]

def slice (s : Str) (i j : Nat) : Str := (s.drop i).take (j - i)

/-- `SUBQUERY_WORDS`. -/
def subqueryWords : List Str :=
  ["select", "values", "with", "table"]

/-- Whether the character before position `i` makes a keyword there the end of
an identifier. -/
def endsIdentifier (U : UnicodeTables) (text : Str) (i : Nat) : Bool :=
  (if i = 0 then none else text[i - 1]?).any fun c => U.isAlphabetic c || c == '_'

/-- `table_matches` from position `i` on: each keyword and the table it names.
The search goes on after the keyword, or inside one that ends an identifier,
so `fuel` of one per character is enough. -/
def tableMatchesFrom (U : UnicodeTables) (pattern : Regex Char) (text : Str) :
    Nat → Nat → List (Str × Str)
  | 0, _ => []
  | fuel + 1, i =>
    match pattern.find i (text.drop i) with
    | none => []
    | some c =>
      match c.extent 1, c.extent 2 with
      | some (ks, ke), some (ts, te) =>
        if endsIdentifier U text ks then tableMatchesFrom U pattern text fuel (ks + 1)
        else
          let table := slice text ts te
          if (slice text ke ts).contains '(' && subqueryWords.any (eqIgnoreCase table) then
            tableMatchesFrom U pattern text fuel ke
          else (slice text ks ke, table) :: tableMatchesFrom U pattern text fuel ke
      | _, _ => []

def tableMatches (U : UnicodeTables) (pattern : Regex Char) (text : Str) : List (Str × Str) :=
  tableMatchesFrom U pattern text (text.length + 1) 0

/-- `truncated_identifier`: at most 63 bytes, cut at a character. -/
def truncatedIdentifier (name : Str) : Str :=
  if byteLen name ≤ 63 then name
  else (name.inits.filter fun p => byteLen p ≤ 63).getLastD []

def lastPart (table : Str) : Str := (splitOn (· == '.') table).getLastD []

def tableName (U : UnicodeTables) (table : Str) : Str :=
  U.toLowercase (truncatedIdentifier (trim (lastPart table)))

def addTable (U : UnicodeTables) (tables : List Str) (table : Str) : List Str :=
  Lists.addNew tables (tableName U table)

def tableNames (U : UnicodeTables) (pattern : Regex Char) (text : Str) : List Str :=
  (tableMatches U pattern text).foldl (fun tables m => addTable U tables m.2) []

/-- `UPDATE_CONFLICT_WORDS`. -/
def updateConflictWords : List Str := ["OR", "REPLACE"]

/-- `PATTERN_WORDS`. -/
def patternWords : List Str :=
  ["INTO", "TABLE", "OVERWRITE", "OR", "REPLACE", "ONLY"]

def skippedTarget (kw table : Str) : Bool :=
  patternWords.any (eqIgnoreCase table) ||
    if eqIgnoreCase (kw.drop (kw.length - 4)) "INTO" then eqIgnoreCase table "LOCAL"
    else eqIgnoreCase kw "UPDATE" && updateConflictWords.any (eqIgnoreCase table)

/-- The tables a write's matches name, unless one of them is a word read
before the target. -/
def writtenTables (U : UnicodeTables) (pattern : Regex Char) (text : Str) : Option (List Str) :=
  (tableMatches U pattern text).foldlM (fun tables m =>
    if skippedTarget m.1 m.2 then none else some (addTable U tables m.2)) []

def statementTables (U : UnicodeTables) (sql : Str) : List Str :=
  tableNames U (tablePattern cacheKeywords) (stripComments sql)

/-- The verbs whose written tables the text does not name, for the edge cache
(`UNKNOWN_SCOPE`). -/
def unknownScope : List Str :=
  ["CREATE", "ALTER", "DROP", "TRUNCATE", "COMMENT",
    "GRANT", "REVOKE", "EXECUTE", "CALL", "DO", "IMPORT",
    "SECURITY", "REFRESH", "REINDEX", "CLUSTER", "VACUUM",
    "LOCK"]

/-- The query cache's list (`OPAQUE`). -/
def opaqueVerbs : List Str := unknownScope ++ ["COPY".toList, "SELECT".toList]

/-- `QueryCache::write_tables`: `none` for an unknown scope. -/
def writeTables (U : UnicodeTables) (sql : Str) : Option (List Str) := do
  let (t, text) ← singleStatement U sql
  if opaqueVerbs.any (startsWithCi t) || mergeWithoutInto U t || insertWithoutInto U t then none
  else
    let tables ← writtenTables U (tablePattern cacheKeywords) text
    if tables.isEmpty then none else some tables

def tablesOnly (U : UnicodeTables) (sql : Str) : List Str :=
  tableNames U (tablePattern edgeKeywords) (stripComments sql)

/-- `edge::fingerprint::write_tables`: the empty list for an unknown scope. -/
def edgeWriteTables (U : UnicodeTables) (sql : Str) : List Str :=
  match singleStatement U sql with
  | none => []
  | some (t, text) =>
    if mergeWithoutInto U t || insertWithoutInto U t || unknownScope.any (startsWithCi t) then []
    else (writtenTables U (tablePattern edgeKeywords) text).getD []

end HeliosProxy.Text
