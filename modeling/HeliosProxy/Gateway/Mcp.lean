import HeliosProxy.Gateway.Guard
import HeliosProxy.Postgres.AccessMode

/-!
# Tool calls of the read-only MCP gateway

A tool call that `check_policy` lets through is run by `run_sql` on a connection of the
gateway's pool, which hands out what an earlier call put back, with the session as that
call left it.  In read-only mode `run_sql` turns `default_transaction_read_only` on
before every statement.  That setting does not reach a transaction that is already
open, so that what the gateway commits is a property of whole runs.
-/

namespace HeliosProxy.Gateway

open Text Postgres

inductive Tool
  | query (sql : Str)
  | listTables
  | explain (sql : Str)

/-- A gateway: its own mode, the agent's contract, and the rewriting of `run_sql`
(rewrite rules, then the tenant filter). -/
structure Mcp where
  readOnly : Bool
  contract : Option Contract
  rewrite : Str → Str
  maxIdlePerKey : Nat

def listTablesSql : Str :=
  "SELECT table_schema, table_name FROM information_schema.tables " ++
    "WHERE table_schema NOT IN ('pg_catalog','information_schema') " ++
    "ORDER BY table_schema, table_name"

namespace Mcp

/-- The `read_only` that `run_sql` is called with. -/
def isReadOnly (g : Mcp) : Bool := effectiveReadOnly g.readOnly g.contract

/-- The statement of `handle_tool_call` that goes to `run_sql`, if the call gets there. -/
def toolSql (g : Mcp) : Tool → Option Str
  | .query sql =>
    if (trim sql).isEmpty then none
    else if (checkPolicy g.readOnly g.contract (trim sql)).isSome then none
    else some (trim sql)
  | .listTables => some listTablesSql
  | .explain sql =>
    if (trim sql).isEmpty then none
    else if (checkPolicy g.readOnly g.contract (trim sql)).isSome then none
    else some ("EXPLAIN " ++ trim sql)

def sent (g : Mcp) (tool : Tool) : Option Str := (g.toolSql tool).map g.rewrite

end Mcp

structure Fate where
  /-- The rate limit and the circuit breaker let it through. -/
  admitted : Bool
  /-- How many idle connections are found dead. -/
  dead : Nat
  connects : Bool
  /-- The backend refuses the `SET`, or its answer is lost. -/
  setFails : Bool
  /-- The backend refuses the statement for a reason of its own. -/
  refused : Bool
  /-- The statement is executed but its answer does not arrive. -/
  lost : Bool
  /-- How the backend reads the backslashes of the statement's literals. -/
  escapes : Str → Bool
  /-- What a statement does whose text does not show it. -/
  hidden : Session → Outcome

/-- The idle connections, the one put back last first, and the statements whose changes
are committed. -/
structure World where
  idle : List Session
  committed : List (List Str)

def World.fresh : World := { idle := [], committed := [] }

/-- `acquire`: the connection, if there is one, and the idle ones that are left. -/
def acquire (fate : Fate) (idle : List Session) : Option Session × List Session :=
  match idle.drop fate.dead with
  | s :: rest => (some s, rest)
  | [] => (if fate.connects then some .fresh else none, [])

def release (g : Mcp) (idle : List Session) (s : Session) : List Session :=
  if idle.length < g.maxIdlePerKey then s :: idle else idle

def stripSemicolon (s : Str) : Str := if s.getLast? = some ';' then s.dropLast else s

def sessionStateful : List Str :=
  ["BEGIN", "START", "COMMIT", "ROLLBACK", "SET",
    "RESET", "DISCARD", "DECLARE", "LISTEN", "PREPARE"]

def statementIsSessionNeutral (sql : Str) : Bool :=
  let core := trimEnd (stripSemicolon (trim sql))
  let rest := trimStart (core.drop "CREATE".toList.length)
  !core.contains ';' && !sessionStateful.any (startsWithCi core) &&
    !(startsWithCi core "CREATE" &&
      (startsWithCi rest "TEMP" || startsWithCi rest "TEMPORARY"))

/-- What `run_sql` executes first in read-only mode. -/
def enforceReadOnly : Str := "SET default_transaction_read_only = on"

/-- The user's statement on the session `s`, with the rest of the pool idle.  A failed
statement's connection is dropped, and its open transaction with it. -/
def runStatement (g : Mcp) (w : World) (idle : List Session) (fate : Fate) (s : Session)
    (sql : Str) : World :=
  if fate.refused then { w with idle }
  else
    match s.query fate.escapes fate.hidden sql with
    | (none, changes) => { idle, committed := w.committed ++ changes }
    | (some s', changes) =>
      { idle :=
          if !fate.lost && (g.isReadOnly || statementIsSessionNeutral sql) then release g idle s'
          else idle
        committed := w.committed ++ changes }

/-- `run_sql`, with the statement as it was rewritten. -/
def runSql (g : Mcp) (w : World) (fate : Fate) (sql : Str) : World :=
  if !fate.admitted then w
  else
    match acquire fate w.idle with
    | (none, idle) => { w with idle }
    | (some s, idle) =>
      if !g.isReadOnly then runStatement g w idle fate s sql
      else if fate.setFails then { w with idle }
      else
        match s.query fate.escapes fate.hidden enforceReadOnly with
        | (none, changes) => { idle, committed := w.committed ++ changes }
        | (some s', changes) =>
          runStatement g { w with committed := w.committed ++ changes } idle fate s' sql

def toolCall (g : Mcp) (w : World) (call : Tool × Fate) : World :=
  match g.sent call.1 with
  | none => w
  | some sql => runSql g w call.2 sql

def toolCalls (g : Mcp) (w : World) (calls : List (Tool × Fate)) : World :=
  calls.foldl (toolCall g) w

/-- However the backslashes of its literals are read, the text that a call sends is one
statement to the backend, and not one that may make a transaction a writing one. -/
def KeepsReadOnly (g : Mcp) (call : Tool × Fate) : Prop :=
  ∀ sql ∈ g.sent call.1, ∀ escapes, (statements escapes sql).length ≤ 1 ∧
    ∀ stmt ∈ statements escapes sql, (readStatement stmt).mayWrite = false

/-- Nothing is committed, and no idle connection can commit anything. -/
structure World.Unchanged (w : World) : Prop where
  idle : ∀ s ∈ w.idle, s.Unwritten
  committed : w.committed = []

theorem World.unchanged_fresh : World.fresh.Unchanged where
  idle := by simp [World.fresh]
  committed := rfl

variable {g : Mcp} {w : World}

theorem acquire_unwritten {fate : Fate} {idle left : List Session} {o : Option Session}
    (hidle : ∀ s ∈ idle, s.Unwritten) (h : acquire fate idle = (o, left)) :
    (∀ s ∈ o, s.Unwritten) ∧ ∀ s ∈ left, s.Unwritten := by
  unfold acquire at h
  split at h
  next s rest hdrop =>
    have hmem : ∀ u ∈ s :: rest, u.Unwritten := fun u hu =>
      hidle u (List.mem_of_mem_drop (hdrop ▸ hu))
    cases h
    refine ⟨?_, fun u hu => hmem u (List.mem_cons_of_mem s hu)⟩
    intro u hu
    cases hu
    exact hmem s List.mem_cons_self
  next =>
    cases h
    refine ⟨?_, by simp⟩
    intro u hu
    split at hu
    · cases hu
      exact Session.unwritten_fresh
    · cases hu

theorem release_unwritten {idle : List Session} {s : Session} (hidle : ∀ u ∈ idle, u.Unwritten)
    (hs : s.Unwritten) : ∀ u ∈ release g idle s, u.Unwritten := by
  unfold release
  split
  · exact List.forall_mem_cons.2 ⟨hs, hidle⟩
  · exact hidle

theorem query_enforceReadOnly (escapes : Str → Bool) (hidden : Session → Outcome) (s : Session) :
    s.query escapes hidden enforceReadOnly = (some { s with default := .readOnly }, []) := rfl

theorem unchanged_runStatement {idle : List Session} {fate : Fate} {s : Session} {sql : Str}
    (hw : w.committed = []) (hidle : ∀ u ∈ idle, u.Unwritten)
    (hquery : Session.Harmless (s.query fate.escapes fate.hidden sql)) :
    (runStatement g w idle fate s sql).Unchanged := by
  unfold runStatement
  split
  · exact ⟨hidle, hw⟩
  split
  next changes heq =>
    rw [heq] at hquery
    obtain rfl : changes = [] := hquery.2
    exact ⟨hidle, by simp [hw]⟩
  next s' changes heq =>
    rw [heq] at hquery
    obtain rfl : changes = [] := hquery.2
    refine ⟨?_, by simp [hw]⟩
    split
    · exact release_unwritten hidle (hquery.1 s' rfl)
    · exact hidle

theorem unchanged_toolCall {call : Tool × Fate} (hg : g.isReadOnly) (hw : w.Unchanged)
    (hcall : KeepsReadOnly g call) :
    (toolCall g w call).Unchanged := by
  unfold toolCall
  split
  next => exact hw
  next sql hsent =>
    unfold runSql
    split
    · exact hw
    split
    next idle hacquire => exact ⟨(acquire_unwritten hw.idle hacquire).2, hw.committed⟩
    next s idle hacquire =>
      obtain ⟨hs, hidle⟩ := acquire_unwritten hw.idle hacquire
      rw [hg, if_neg (by decide)]
      split
      · exact ⟨hidle, hw.committed⟩
      rw [query_enforceReadOnly]
      refine unchanged_runStatement (by simp [hw.committed]) hidle ?_
      obtain ⟨hone, hstmt⟩ := hcall sql hsent call.2.escapes
      exact Session.harmless_query rfl (hs s rfl) hone hstmt

theorem unchanged_toolCalls {calls : List (Tool × Fate)} (hg : g.isReadOnly)
    (hw : w.Unchanged) (hcalls : ∀ call ∈ calls, KeepsReadOnly g call) :
    (toolCalls g w calls).Unchanged := by
  induction calls generalizing w with
  | nil => exact hw
  | cons call calls ih =>
    obtain ⟨hcall, hrest⟩ := List.forall_mem_cons.1 hcalls
    exact ih (unchanged_toolCall hg hw hcall) hrest

/-- In a run in which every call sends one statement that asks for no writing transaction,
the read-only gateway commits no change. -/
theorem toolCalls_commit_nothing {calls : List (Tool × Fate)} (hg : g.isReadOnly = true)
    (hcalls : ∀ call ∈ calls, KeepsReadOnly g call) :
    (toolCalls g .fresh calls).committed = [] :=
  (unchanged_toolCalls hg World.unchanged_fresh hcalls).committed

def readOnlyGateway : Mcp :=
  { readOnly := true, contract := none, rewrite := id, maxIdlePerKey := 4 }

def undisturbed : Fate :=
  { admitted := true, dead := 0, connects := true, setFails := false, refused := false,
    lost := false
    escapes := fun _ => false, hidden := fun s => (some s, []) }

def insertSql : Str := "EXPLAIN ANALYZE INSERT INTO t VALUES (1)"

/-- A write in a transaction of the default mode: the backend refuses it. -/
theorem toolCalls_commit_nothing_begin :
    (toolCalls readOnlyGateway .fresh
      [(.query "BEGIN".toList, undisturbed), (.query insertSql, undisturbed),
        (.query "COMMIT".toList, undisturbed)]).committed = [] := by
  refine toolCalls_commit_nothing rfl ?_
  have hall : ∀ sql ∈ ["BEGIN".toList, insertSql, "COMMIT".toList],
      readOnlyGateway.sent (.query sql) = some sql ∧ ∀ escapes, ∃ stmt,
        statements escapes sql = [stmt] ∧ (readStatement stmt).mayWrite = false := by
    simp only [List.forall_mem_cons, List.not_mem_nil, false_implies, implies_true, and_true]
    exact ⟨⟨by decide, fun _ => ⟨_, rfl, by decide⟩⟩, ⟨by decide, fun _ => ⟨_, rfl, by decide⟩⟩,
      by decide, fun _ => ⟨_, rfl, by decide⟩⟩
  intro call hcall sql hsql escapes
  obtain ⟨q, hq, rfl⟩ : ∃ q ∈ ["BEGIN".toList, insertSql, "COMMIT".toList],
      (Tool.query q, undisturbed) = call := List.mem_map.1 hcall
  obtain ⟨hsent, hread⟩ := hall q hq
  cases hsent.symm.trans hsql
  obtain ⟨stmt, hstmts, hmode⟩ := hread escapes
  rw [hstmts]
  exact ⟨Nat.le_refl 1, by simpa using hmode⟩

/-- `BEGIN READ WRITE` opens a transaction on the connection the pool hands to the next
calls, which write in it and commit it. -/
theorem toolCalls_commit_write :
    readOnlyGateway.isReadOnly ∧
      (toolCalls readOnlyGateway .fresh
        [(.query "BEGIN READ WRITE", undisturbed), (.query insertSql, undisturbed),
          (.query "COMMIT", undisturbed)]).committed =
          statements (fun _ => false) insertSql := by
  decide +kernel

theorem not_toolCalls_commit_nothing :
    ¬ ∀ (g : Mcp) (calls : List (Tool × Fate)), g.isReadOnly = true →
      (toolCalls g .fresh calls).committed = [] := by
  intro h
  obtain ⟨hreadOnly, hcommitted⟩ := toolCalls_commit_write
  cases hcommitted.symm.trans (h readOnlyGateway _ hreadOnly)

end HeliosProxy.Gateway
