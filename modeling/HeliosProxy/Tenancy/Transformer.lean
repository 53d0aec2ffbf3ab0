import HeliosProxy.Text.Find

/-!
# The tenant query transformer

`multi_tenancy/transformer.rs` restricts a query to the rows of a tenant by editing
its text.  A cut at a byte position that is no character boundary of the query
panics: `none`.
-/

namespace HeliosProxy.Tenancy

open Text

inductive IsolationStrategy
  | database (databaseName : Str)
  | schema (databaseName schemaName : Str)
  | row (databaseName tenantColumn : Str)
  | branch (branchName : Str)
deriving DecidableEq

structure TransformResult where
  query : Str
  transformed : Bool
  filteredTables : List Str
  warnings : List Str
deriving DecidableEq

namespace TransformResult

def passthrough (query : Str) : TransformResult := ⟨query, false, [], []⟩

def ofTables (query : Str) (tables : List Str) : TransformResult := ⟨query, true, tables, []⟩

def withWarning (r : TransformResult) (warning : Str) : TransformResult :=
  { r with warnings := r.warnings ++ [warning] }

end TransformResult

structure TenantQueryTransformer where
  /-- The column of each table, by the table's name in lower case. -/
  tenantTables : AList fun _ : Str => Str
  excludedTables : List Str
  useParameters : Bool
  filterTemplate : Option Str

def isNameQuote (c : Char) : Bool := c == '"' || c == '`'

def isNameBracket (c : Char) : Bool := isNameQuote c || c == '[' || c == ']'

/-- `str::replace`, with fuel for one turn per character. -/
def replaceFuel (old new : Str) : Nat → Str → Str
  | 0, s => s
  | n + 1, s =>
    match findSub old s with
    | none => s
    | some (before, rest) => before ++ new ++ replaceFuel old new n (rest.drop old.length)

def replace (s old new : Str) : Str := replaceFuel old new s.length s

namespace TenantQueryTransformer

variable (U : UnicodeTables)

def new : TenantQueryTransformer := ⟨∅, [], false, none⟩

def registerTable (x : TenantQueryTransformer) (table column : Str) : TenantQueryTransformer :=
  { x with tenantTables := x.tenantTables.insert (U.toLowercase table) column }

def registerTables (x : TenantQueryTransformer) (tables : List Str) (column : Str) :
    TenantQueryTransformer :=
  tables.foldl (fun x table => x.registerTable U table column) x

variable (x : TenantQueryTransformer)

def getTenantColumn (table : Str) : Option Str := x.tenantTables.lookup (U.toLowercase table)

def requiresFiltering (table : Str) : Bool :=
  let lower := U.toLowercase table
  (x.tenantTables.lookup lower).isSome && !x.excludedTables.contains lower

/-! ## Filters -/

def buildFilter (tenant defaultColumn : Str) (tables : List Str) : Str :=
  " AND ".toList.intercalate (tables.map fun table =>
    let column := (x.getTenantColumn U table).getD defaultColumn
    if x.useParameters then table ++ '.' :: column ++ " = $1"
    else table ++ '.' :: column ++ " = '" ++ tenant ++ "'")

def buildSingleFilter (tenant column : Str) : Str :=
  if x.useParameters then column ++ " = $1"
  else
    match x.filterTemplate with
    | some template =>
      replace (replace template "\x7bcolumn\x7d" column) "\x7bvalue\x7d" tenant
    | none => column ++ " = '" ++ tenant ++ "'"

def laterClauses : List Str := ["ORDER", "GROUP", "LIMIT", "HAVING", "UNION"].map String.toList

def injectWhereClause (query filter : Str) : Option Str :=
  let upper := toUpper U query
  match findPos " WHERE " upper with
  | some wherePos => do
    let (before, after) ← splitAtByte (wherePos + 7) query
    return before ++ filter ++ " AND " ++ after
  | none =>
    match findFirst (laterClauses.map spaced) upper with
    | some pos => do
      let (before, after) ← splitAtByte pos query
      return before ++ " WHERE " ++ filter ++ after
    | none => some (trimEndMatches (· == ';') query ++ " WHERE " ++ filter)

/-- The tenant in front of the values that start at `after`. -/
def valueInFront (before tenant after : Str) : Str :=
  before ++ '\'' :: tenant ++ "'".toList ++
    (if after.head? == some ')' then [] else ", ".toList) ++ after

/-- Where the values behind `VALUES` start: behind its first parenthesis. -/
def valuesStart (query : Str) (valuesPos : Nat) : Option (Option Nat) :=
  (sliceFrom valuesPos query).map fun rest =>
    (findPos ['('] rest).map fun parenPos => valuesPos + parenPos + 1

/-- `query` with the tenant at position `pos`. -/
def insertValue (query tenant : Str) (pos : Nat) : Option Str :=
  (splitAtByte pos query).map fun (before, after) => valueInFront before tenant after

/-- The query with the column added to its column list, which ends at `colsEnd`, and
the tenant to its values: nothing when the values are not found again. -/
def injectColumn (query tenant column : Str) (colsEnd : Nat) : Option (Option Str) := do
  let (before, after) ← splitAtByte colsEnd query
  let withColumn := before ++ ", " ++ column ++ after
  match findPos " VALUES " (toUpper U withColumn) with
  | none => return none
  | some valuesPos =>
    match ← valuesStart withColumn valuesPos with
    | none => return none
    | some pos => (insertValue withColumn tenant pos).map some

def injectTenantValue (query tenant column : Str) : Option Str :=
  let upper := toUpper U query
  match findPos " VALUES " upper with
  | none => some query
  | some valuesPos => do
    match ← valuesStart query valuesPos with
    | none => return query
    | some insertPos =>
      match findPos ['('] upper with
      | some colsStart =>
        if colsStart < valuesPos then
          let listed ← sliceFrom colsStart upper
          let colsEnd := (findPos [')'] listed).getD 0 + colsStart
          match ← injectColumn U query tenant column colsEnd with
          | some injected => return injected
          | none => insertValue query tenant insertPos
        else insertValue query tenant insertPos
      | none => insertValue query tenant insertPos

/-! ## Tables -/

/-- What ends the table list behind `FROM`. -/
def endMarkers : List Str :=
  ["WHERE", "JOIN", "LEFT", "RIGHT", "INNER", "OUTER", "GROUP", "ORDER", "LIMIT", "HAVING"].map
    String.toList

def listedTables (section_ : Str) : List Str :=
  ((splitOn (· == ',') section_).filterMap fun part =>
    (spacedWords (trim part)).head?.map (trimMatches isNameBracket)).filter fun t => !t.isEmpty

/-- The word behind each `JOIN`, added to `tables` unless it is there. -/
def joinedTables (words tables : List Str) : List Str :=
  (words.zip words.tail).foldl (fun tables (word, next) =>
    let table := trimMatches isNameBracket next
    if toUpper U word == "JOIN" && !table.isEmpty && !tables.contains table then
      tables ++ [table]
    else tables) tables

/-- The text behind the first `FROM`, up to what ends its table list. -/
def fromSection (query : Str) : Option (Option Str) :=
  match findPos " FROM " (toUpper U query) with
  | none => some none
  | some fromPos => do
    let afterFrom ← sliceFrom (fromPos + 6) query
    let endPos := (findFirst (endMarkers.map spaced) (toUpper U afterFrom)).getD (byteLen afterFrom)
    return some (← sliceTo endPos afterFrom)

def extractTables (query : Str) : Option (List Str) := do
  let listed := ((← fromSection U query).map listedTables).getD []
  return joinedTables U (spacedWords query) listed

def unquotedWord (text : Str) : Option Str := (spacedWords text).head?.map (trimMatches isNameQuote)

/-- `extract_update_table`; the inner `none` is no table. -/
def extractUpdateTable (query : Str) : Option (Option Str) :=
  match findPos "UPDATE " (toUpper U query) with
  | none => some none
  | some updatePos => do
    let afterUpdate ← sliceFrom (updatePos + 7) query
    match findPos " SET " (toUpper U afterUpdate) with
    | none => return none
    | some setPos => return unquotedWord (← sliceTo setPos afterUpdate)

def extractDeleteTable (query : Str) : Option (Option Str) :=
  match findPos " FROM " (toUpper U query) with
  | none => some none
  | some fromPos => do
    let afterFrom ← sliceFrom (fromPos + 6) query
    let endPos := (findPos " WHERE " (toUpper U afterFrom)).getD (byteLen afterFrom)
    return unquotedWord (← sliceTo endPos afterFrom)

def extractInsertTable (query : Str) : Option (Option Str) :=
  match findPos " INTO " (toUpper U query) with
  | none => some none
  | some intoPos => do
    let afterInto ← sliceFrom (intoPos + 6) query
    let name := afterInto.takeWhile fun c => !(c == '(' || isWhitespace c)
    return some (trimMatches isNameQuote (trim name))

/-! ## Statements -/

def transformSelect (query tenant tenantColumn : Str) : Option TransformResult := do
  let tables ← extractTables U query
  let filteredTables := tables.filter (x.requiresFiltering U)
  if filteredTables.isEmpty then return .passthrough query
  else
    let filter := x.buildFilter U tenant tenantColumn filteredTables
    return .ofTables (← injectWhereClause U query filter) filteredTables

/-- What `transform_update` and `transform_delete` do with the table they extract. -/
def transformTarget (table : Option Str) (query tenant tenantColumn : Str) : Option TransformResult :=
  match table with
  | none => some (.passthrough query)
  | some table => do
    if x.requiresFiltering U table then
      let filter := x.buildSingleFilter tenant tenantColumn
      return .ofTables (← injectWhereClause U query filter) [table]
    else return .passthrough query

def transformUpdate (query tenant tenantColumn : Str) : Option TransformResult := do
  x.transformTarget U (← extractUpdateTable U query) query tenant tenantColumn

def transformDelete (query tenant tenantColumn : Str) : Option TransformResult := do
  x.transformTarget U (← extractDeleteTable U query) query tenant tenantColumn

def injectionWarning : Str := "Tenant column injection may require schema awareness"

def transformInsert (query tenant tenantColumn : Str) : Option TransformResult := do
  match ← extractInsertTable U query with
  | none => return .passthrough query
  | some table =>
    if x.requiresFiltering U table then
      let injected ← injectTenantValue U query tenant tenantColumn
      return (TransformResult.ofTables injected [table]).withWarning injectionWarning
    else return .passthrough query

def transform (query tenant : Str) (isolation : IsolationStrategy) : Option TransformResult :=
  match isolation with
  | .row _ tenantColumn =>
    let upper := toUpper U (trim query)
    if "SELECT".toList.isPrefixOf upper then x.transformSelect U query tenant tenantColumn
    else if "UPDATE".toList.isPrefixOf upper then x.transformUpdate U query tenant tenantColumn
    else if "DELETE".toList.isPrefixOf upper then x.transformDelete U query tenant tenantColumn
    else if "INSERT".toList.isPrefixOf upper then x.transformInsert U query tenant tenantColumn
    else some (.passthrough query)
  | _ => some (.passthrough query)

end TenantQueryTransformer

end HeliosProxy.Tenancy
