import HeliosProxy.Text.Chars

/-!
# What a statement leaves in its session

Statements by their tokens, and what PostgreSQL keeps in a session once one of them
has run outside a transaction.  `EXPLAIN ANALYZE` runs what it explains.
-/

namespace HeliosProxy.Postgres

open Text Char

/-! ## Tokens -/

inductive Tok
  /-- An identifier or keyword without quotes, in any case. -/
  | word (name : Str)
  /-- An identifier in quotes. -/
  | quoted (name : Str)
  /-- What stands between the quotes of `U&"..."`, and its escape character: a backslash,
  unless `UESCAPE` behind it gives another one. -/
  | unicode (escape : Char) (body : Str)
  | lparen
  | rparen
  | comma
  | dot
  /-- A literal, a parameter or an operator, as written. -/
  | other (text : Str)
deriving DecidableEq

def hexDigit (c : Char) : Option Nat :=
  if c.isDigit then some (c.toNat - 48)
  else if 'a' ≤ c.toLower ∧ c.toLower ≤ 'f' then some (c.toLower.toNat - 87)
  else none

/-- The character whose number the digits are. -/
def hexChar (digits : Str) : Option Char :=
  (digits.foldlM (fun n c => (hexDigit c).map (16 * n + ·)) 0).map Char.ofNat

/-- The character behind an escape character, and the length of its code: four digits, or
`+` and six. -/
def escapeCode : Str → Option (Char × Nat)
  | '+' :: s => if 6 ≤ s.length then (hexChar (s.take 6)).map (·, 7) else none
  | s => if 4 ≤ s.length then (hexChar (s.take 4)).map (·, 4) else none

/-- PostgreSQL's reading of the body of a `U&"…"`, behind its next `skip` characters; a
doubled escape character stands for itself. -/
def unescape (escape : Char) : Nat → Str → Option Str
  | _, [] => some []
  | skip + 1, _ :: s => unescape escape skip s
  | 0, c :: s =>
    if c = escape then
      if s.head? = some escape then (unescape escape 1 s).map (c :: ·)
      else (escapeCode s).bind fun (x, n) => (unescape escape n s).map (x :: ·)
    else (unescape escape 0 s).map (c :: ·)

namespace Tok

def name? : Tok → Option Str
  | .word n => some (n.map toLower)
  | .quoted n => some n
  | .unicode e b => unescape e 0 b
  | _ => none

def Written : Tok → Str → Prop
  | .word n, w => eqIgnoreCase w n = true
  | .quoted n, w => w = '"' :: n.flatMap (fun c => if c = '"' then ['"', '"'] else [c]) ++ ['"']
  | .unicode e b, w => ∃ u v, (u = 'U' ∨ u = 'u') ∧ w = u :: '&' :: '"' :: b ++ '"' :: v ∧
    (e = '\\' ∧ v = [] ∨ ∃ g k g', Gap g ∧ Gap g' ∧ eqIgnoreCase k "uescape" = true ∧
      v = g ++ (k ++ (g' ++ ['\'', e, '\''])))
  | .lparen, w => w = ['(']
  | .rparen, w => w = [')']
  | .comma, w => w = [',']
  | .dot, w => w = ['.']
  | .other t, w => w = t

/-- The keyword `k`, given in lower case. -/
def isWord (k : String) : Tok → Bool
  | .word n => n.map toLower == k.toList
  | _ => false

def apart : Tok → Tok → Bool
  | .lparen, _ | .rparen, _ | .comma, _ | _, .lparen | _, .rparen | _, .comma => true
  | .dot, .other _ | .other _, .dot => false
  | .dot, _ | _, .dot => true
  | .word _, .quoted _ | .quoted _, .word _ | .unicode _ _, .word _ => true
  | _, _ => false

end Tok

/-- The tokens with gaps behind them; a gap between two tokens is empty only where
they are read apart. -/
inductive TokensLaid : List Tok → Str → Prop
  | nil : TokensLaid [] []
  | cons {t : Tok} {ts : List Tok} {w g s : Str} (hw : t.Written w) (hg : Gap g)
      (hapart : g = [] → ts.head?.all t.apart = true) (hs : TokensLaid ts s) :
      TokensLaid (t :: ts) (w ++ (g ++ s))

inductive IsLayout (ts : List Tok) : Str → Prop
  | bare {g s : Str} (hg : Gap g) (hs : TokensLaid ts s) : IsLayout ts (g ++ s)
  | closed {g s e : Str} (hg : Gap g) (hs : TokensLaid ts s) (he : Gap e) :
      IsLayout ts (g ++ (s ++ ';' :: e))

/-! ## Statements -/

inductive QueryLead
  | select
  | with
  | insert
  | update
  | delete
  | values
  | table
deriving DecidableEq

def QueryLead.word : QueryLead → Str
  | .select => "select"
  | .with => "with"
  | .insert => "insert"
  | .update => "update"
  | .delete => "delete"
  | .values => "values"
  | .table => "table"

inductive Statement
  | query (lead : QueryLead) (body : List Tok)
  | showSetting (body : List Tok)
  | fetch (body : List Tok)
  | createTempAs (table : Tok) (body : List Tok)
  | set (body : List Tok)
  | prepare (body : List Tok)
  | declareHold (cursor : Tok) (body : List Tok)
  | listen (channel : Tok)
  | explain (analyze : Bool) (explained : Statement)

namespace Statement

def word (w : String) : Tok := .word w.toList

def tokens : Statement → List Tok
  | .query lead body => .word lead.word :: body
  | .showSetting body => word "show" :: body
  | .fetch body => word "fetch" :: body
  | .createTempAs table body =>
    word "create" :: word "temp" :: word "table" :: table :: word "as" :: body
  | .set body => word "set" :: body
  | .prepare body => word "prepare" :: body
  | .declareHold cursor body =>
    word "declare" :: cursor :: word "cursor" :: word "with" :: word "hold" :: word "for" :: body
  | .listen channel => [word "listen", channel]
  | .explain analyze explained =>
    word "explain" :: ((if analyze then [word "analyze"] else []) ++ explained.tokens)

end Statement

/-! ## What is left behind -/

inductive Leftover
  | table
  | setting
  | prepared
  | cursor
  | listening
  | lock
deriving DecidableEq

def advisoryLocks : List Str :=
  ["pg_advisory_lock", "pg_advisory_lock_shared", "pg_try_advisory_lock",
    "pg_try_advisory_lock_shared"]

def calledLeaves (name : Str) : List Leftover :=
  if name = "set_config" then [.setting] else if name ∈ advisoryLocks then [.lock] else []

def called : List Tok → List Tok
  | t :: .lparen :: ts => t :: called (.lparen :: ts)
  | _ :: ts => called ts
  | [] => []

def callsLeave (ts : List Tok) : List Leftover :=
  (called ts).flatMap fun t => t.name?.elim [] calledLeaves

/-- Whether the query has an `INTO` of its own, once its `SELECT` is read: outside
parentheses, where it is no label or column.  The `INTO` of an `INSERT` or a `MERGE` stands
in front of any `SELECT` there. -/
def hasInto (selecting : Bool) : Nat → Option Tok → List Tok → Bool
  | _, _, [] => false
  | depth, _, .lparen :: ts => hasInto selecting (depth + 1) (some .lparen) ts
  | depth, _, .rparen :: ts => hasInto selecting (depth - 1) (some .rparen) ts
  | depth, prev, t :: ts =>
    (selecting && depth = 0 && t.isWord "into" && !prev.any (fun p => p.isWord "as" || p == .dot)) ||
      hasInto (selecting || (depth = 0 && t.isWord "select")) depth (some t) ts

/-- Whether the name in front of the tokens is that of the view `pg_settings`. -/
def isSettingsView : List Tok → Bool
  | _ :: .dot :: t :: .dot :: u :: _ | t :: .dot :: u :: _ =>
    t.name? == some "pg_catalog".toList && u.name? == some "pg_settings".toList
  | t :: _ => t.name? == some "pg_settings".toList
  | [] => false

/-- Behind the `ONLY` of an `UPDATE`. -/
def updateTarget : List Tok → List Tok
  | t :: .lparen :: ts => if t.isWord "only" then ts else t :: .lparen :: ts
  | t :: ts => if t.isWord "only" then ts else t :: ts
  | [] => []

/-- Whether the `UPDATE` behind a `WITH` clause is one of `pg_settings`. -/
def updatesSettings : Nat → List Tok → Bool
  | _, [] => false
  | depth, .lparen :: ts => updatesSettings (depth + 1) ts
  | depth, .rparen :: ts => updatesSettings (depth - 1) ts
  | depth, t :: ts =>
    if depth = 0 ∧ t.isWord "select" then false
    else (depth = 0 && t.isWord "update" && isSettingsView (updateTarget ts)) ||
      updatesSettings depth ts

namespace Statement

def createsTable : Statement → Bool
  | .query .select body => hasInto true 0 none body
  | .query .with body => hasInto false 0 none body
  | .createTempAs _ _ => true
  | _ => false

/-- The rules of the view `pg_settings` turn an `UPDATE` of it into calls of `set_config`. -/
def writesSettings : Statement → Bool
  | .query .update body => isSettingsView (updateTarget body)
  | .query .with body => updatesSettings 0 body
  | _ => false

/-- What the query in a statement leaves when it is run. -/
def leavesRun (s : Statement) (body : List Tok) : List Leftover :=
  (if s.createsTable then [.table] else []) ++
    ((if s.writesSettings then [.setting] else []) ++ callsLeave body)

/-- What `EXPLAIN ANALYZE` leaves of a statement.  It takes queries, `CREATE TABLE AS`
and `DECLARE`, of which it runs the query only. -/
def leavesExplained (s : Statement) : List Leftover :=
  match s with
  | .query _ body | .createTempAs _ body => s.leavesRun body
  | .declareHold _ body => callsLeave body
  | _ => []

def leaves (s : Statement) : List Leftover :=
  match s with
  | .query _ body | .createTempAs _ body => s.leavesRun body
  | .showSetting _ | .fetch _ => []
  | .set _ => [.setting]
  | .prepare _ => [.prepared]
  | .declareHold _ body => .cursor :: callsLeave body
  | .listen _ => [.listening]
  | .explain analyze explained => if analyze then explained.leavesExplained else []

end Statement

end HeliosProxy.Postgres
