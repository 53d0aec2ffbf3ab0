import HeliosProxy.Postgres.Condition
import HeliosProxy.Tenancy.Transformer

/-!
# The row filter in front of a condition

What the transformer makes of a statement on one table, and which rows the condition
it produces lets through.
-/

namespace HeliosProxy.Tenancy

open Text Postgres TenantQueryTransformer List Option

/-! ## Names -/

/-- A table name the transformer reads whole: an identifier that upper-casing keeps the
length of, and no word of the clauses it looks for. -/
structure TableName (U : UnicodeTables) (t : Str) : Prop where
  word : NameWord t
  noWhitespace : t.all (!isWhitespace ·) = true
  upperBytes : byteLen (toUpper U t) = byteLen t
  upperNoSpace : NoSpace (toUpper U t)
  notClause : toUpper U t ∉ ["WHERE", "JOIN", "ORDER", "GROUP", "LIMIT", "HAVING", "UNION"].map
    String.toList

/-! ## Statements on one table -/

inductive Form
  | select
  | update
  | delete
deriving DecidableEq

namespace Form

def verb : Form → Str
  | .select => "SELECT"
  | .update => "UPDATE"
  | .delete => "DELETE"

def words (t : Str) : Form → List Str
  | .select => ["*", "FROM", t]
  | .update => [t, "SET", "x", "=", "1"]
  | .delete => ["FROM", t]

def head (form : Form) (t : Str) : Str := form.verb ++ spacedOut (form.words t)

def path (t column : Str) : Form → List Str
  | .select => [t, column]
  | .update | .delete => [column]

example : head .select "t" = "SELECT * FROM t" := by decide

example : head .update "t" = "UPDATE t SET x = 1" := by decide

example : head .delete "t" = "DELETE FROM t" := by decide

end Form

/-- The text behind `WHERE`, and the condition it is. -/
structure WhereClause where
  text : Str
  cond : Cond Comparison
  reads : readCondition text = some cond

def clauseText (clause : Option WhereClause) : Str :=
  clause.elim [] fun c => " WHERE " ++ c.text

def statement (form : Form) (t : Str) (clause : Option WhereClause) : Str :=
  form.head t ++ clauseText clause

/-- The rows of a table: the value of every comparison, among them those of the tenant
column with a string. -/
structure Rows (R : Type) (t column : Str) where
  value : R → Comparison → Option Bool
  tenant : R → Option Str
  qualified : ∀ r x, value r (equalsComparison [t, column] x) = some true ↔ tenant r = some x
  unqualified : ∀ r x, value r (equalsComparison [column] x) = some true ↔ tenant r = some x

/-- `produced` is the statement with a condition that holds only for rows of the tenant
for which the original condition holds. -/
def Restricts {R : Type} {t column : Str} (rows : Rows R t column) (tenant : Str) (form : Form)
    (clause : Option WhereClause) (produced : Str) : Prop :=
  ∃ c : WhereClause, produced = statement form t (some c) ∧
    ∀ r, c.cond.eval (rows.value r) = some true →
      rows.tenant r = some tenant ∧ ∀ o ∈ clause, o.cond.eval (rows.value r) = some true

/-! ## The text of a statement -/

section Text

variable {U : UnicodeTables} {t : Str} (ht : TableName U t) (form : Form)

def Form.upperWords (U : UnicodeTables) (t : Str) (form : Form) : List Str :=
  (form.words t).map (toUpper U)

theorem upperWords_eq (U : UnicodeTables) (t : Str) :
    form.upperWords U t =
      match form with
      | .select => ["*", "FROM", toUpper U t]
      | .update => [toUpper U t, "SET", "X", "=", "1"]
      | .delete => ["FROM", toUpper U t] := by
  cases form <;>
    simp only [Form.upperWords, Form.words, map_cons, map_nil] <;>
    repeat rw [toUpper_ascii U (s := String.toList _) (by decide)]
  all_goals rfl

theorem toUpper_verb (U : UnicodeTables) : toUpper U form.verb = form.verb := by
  cases form <;> exact toUpper_ascii U (by decide)

theorem toUpper_head (U : UnicodeTables) (t : Str) :
    toUpper U (form.head t) = form.verb ++ spacedOut (form.upperWords U t) := by
  rw [Form.head, toUpper_append, toUpper_spacedOut, toUpper_verb]
  rfl

theorem noSpace_verb : NoSpace form.verb := by
  cases form <;> decide

include ht

theorem noSpace_upperWords : ∀ w ∈ form.upperWords U t, NoSpace w := by
  have hupper := ht.upperNoSpace
  rw [upperWords_eq]
  cases form with
  | select =>
    simp only [forall_mem_cons]
    exact ⟨by decide, by decide, hupper, by simp⟩
  | update =>
    simp only [forall_mem_cons]
    exact ⟨hupper, by decide, by decide, by decide, by decide, by simp⟩
  | delete =>
    simp only [forall_mem_cons]
    exact ⟨by decide, hupper, by simp⟩

theorem clause_notMem_upperWords {kw : Str} (hkw : kw ∈ "WHERE".toList :: laterClauses) :
    kw ∉ form.upperWords U t := by
  have hname : kw ≠ toUpper U t := by
    rintro rfl
    have hsub : "WHERE".toList :: laterClauses ⊆
        ["WHERE", "JOIN", "ORDER", "GROUP", "LIMIT", "HAVING", "UNION"].map String.toList := by decide
    exact ht.notClause (hsub hkw)
  have hother : ∀ w ∈ ["*", "FROM", "SET", "X", "=", "1"].map String.toList, kw ≠ w := by
    have hdisjoint : ∀ k ∈ "WHERE".toList :: laterClauses,
        k ∉ ["*", "FROM", "SET", "X", "=", "1"].map String.toList := by decide
    rintro w hw rfl
    exact hdisjoint kw hkw hw
  rw [upperWords_eq]
  cases form with
  | select | update | delete => simp [hname, hother]

theorem byteLen_toUpper_head : byteLen (toUpper U (form.head t)) = byteLen (form.head t) := by
  have hwords : (form.upperWords U t).map byteLen = (form.words t).map byteLen := by
    rw [upperWords_eq]
    cases form with
    | select | delete => simp [Form.words, ht.upperBytes]
    | update => simp [Form.words, ht.upperBytes, show 'X'.utf8Size = 'x'.utf8Size from rfl]
  rw [toUpper_head, Form.head, byteLen_append, byteLen_append, byteLen_spacedOut hwords]

omit ht in
theorem head_select : Form.head .select t = "SELECT * FROM " ++ t := by
  show "SELECT * FROM ".toList ++ (t ++ []) = _
  rw [List.append_nil]

omit ht in
theorem head_update : Form.head .update t = "UPDATE " ++ (t ++ " SET x = 1") := rfl

omit ht in
theorem head_delete : Form.head .delete t = "DELETE FROM " ++ t := by
  show "DELETE FROM ".toList ++ (t ++ []) = _
  rw [List.append_nil]

theorem trimEndMatches_head : trimEndMatches (· == ';') (form.head t) = form.head t := by
  have hsemi : ∀ c : Char, (c == ';') → identCont c = false := by
    intro c hc
    obtain rfl := beq_iff_eq.mp hc
    decide
  have hname := trimEndMatches_word (all_of_identCont ht.word.chars hsemi) ht.word.nonempty
  cases form with
  | select => rw [head_select, hname]
  | update =>
    have hone : ∀ u : Str, trimEndMatches (· == ';') (u ++ "1".toList) = u ++ "1".toList :=
      trimEndMatches_word (by decide) (by decide)
    have hlast : " SET x = 1".toList = " SET x = ".toList ++ "1".toList := rfl
    rw [head_update, hlast, ← append_assoc, ← append_assoc, hone]
  | delete => rw [head_delete, hname]

omit ht in
theorem where_eq : " WHERE " = spaced "WHERE" := rfl

def behindFilter (clause : Option WhereClause) : Str :=
  clause.elim [] fun c => " AND " ++ c.text

theorem injectWhereClause_statement (clause : Option WhereClause) (filter : Str) :
    injectWhereClause U (statement form t clause) filter =
      some (form.head t ++ (" WHERE ".toList ++ (filter ++ behindFilter clause))) := by
  have hwords := noSpace_upperWords ht form
  have hverb := noSpace_verb form
  have hclause : ∀ kw ∈ "WHERE".toList :: laterClauses, NoSpace kw := by decide
  cases clause with
  | none =>
    have hnone : ∀ kw ∈ "WHERE".toList :: laterClauses,
        findPos (spaced kw) (toUpper U (form.head t)) = none := by
      intro kw hkw
      rw [toUpper_head]
      exact findPos_spacedOut_end _ (hclause kw hkw) hverb hwords
        (clause_notMem_upperWords ht form hkw)
    have hlater : findFirst (laterClauses.map spaced) (toUpper U (form.head t)) = none := by
      refine findFirst_eq_none fun needle hneedle => ?_
      obtain ⟨kw, hkw, rfl⟩ := List.mem_map.mp hneedle
      exact hnone kw (mem_cons_of_mem _ hkw)
    have hwhere : findPos " WHERE ".toList (toUpper U (form.head t)) = none := by
      rw [where_eq]
      exact hnone _ mem_cons_self
    simp only [statement, clauseText, elim_none, List.append_nil, injectWhereClause, hwhere,
      hlater, trimEndMatches_head ht form, behindFilter, elim_none, append_assoc]
  | some c =>
    have hupper : toUpper U (statement form t (some c)) =
        form.verb ++ spacedOut (form.upperWords U t) ++ (spaced "WHERE".toList ++ toUpper U c.text) := by
      rw [statement, clauseText, elim_some, toUpper_append, toUpper_append, toUpper_head,
        toUpper_ascii U (s := " WHERE ".toList) (by decide)]
      rfl
    have hpos : findPos " WHERE ".toList (toUpper U (statement form t (some c))) =
        some (byteLen (form.head t)) := by
      rw [hupper, where_eq,
        findPos_spacedOut _ (by decide) hverb hwords
          (clause_notMem_upperWords ht form mem_cons_self),
        ← toUpper_head, byteLen_toUpper_head ht]
    have hsplit : splitAtByte (byteLen (form.head t) + 7) (statement form t (some c)) =
        some (form.head t ++ " WHERE ".toList, c.text) := by
      have hlen : byteLen (form.head t) + 7 = byteLen (form.head t ++ " WHERE ".toList) := by
        rw [byteLen_append]
        rfl
      rw [hlen, statement, clauseText, elim_some, ← append_assoc]
      exact splitAtByte_append _ _
    simp only [injectWhereClause, hpos, hsplit, behindFilter, elim_some, bind_eq_bind, bind_some,
      append_assoc]
    rfl

/-! ## The table of a statement -/

theorem nameEnd (kws : List Str) (hkws : ∀ k ∈ kws, NoSpace k) (hwhere : "WHERE".toList ∈ kws)
    (clause : Option WhereClause) :
    (findFirst (kws.map spaced) (toUpper U (t ++ clauseText clause))).getD
      (byteLen (t ++ clauseText clause)) = byteLen t := by
  cases clause with
  | none =>
    have hnone : findFirst (kws.map spaced) (toUpper U t) = none := by
      refine findFirst_eq_none fun needle hneedle => ?_
      obtain ⟨kw, hkw, rfl⟩ := List.mem_map.mp hneedle
      simpa [spacedOut] using
        findPos_spacedOut_end [] (hkws kw hkw) ht.upperNoSpace (by simp) (by simp)
    simp [clauseText, hnone]
  | some c =>
    have hupper : toUpper U (t ++ clauseText (some c)) =
        toUpper U t ++ (spaced "WHERE" ++ toUpper U c.text) := by
      rw [toUpper_append, clauseText, elim_some, toUpper_append,
        toUpper_ascii U (s := " WHERE ") (by decide)]
      rfl
    rw [hupper, findFirst_behind_word hkws hwhere ht.upperNoSpace, getD_some, ht.upperBytes]

omit ht in
theorem statement_select (clause : Option WhereClause) :
    statement .select t clause = "SELECT * FROM " ++ (t ++ clauseText clause) := by
  rw [statement, head_select, append_assoc]

omit ht in
theorem statement_update (clause : Option WhereClause) :
    statement .update t clause = "UPDATE " ++ (t ++ (" SET x = 1" ++ clauseText clause)) := by
  rw [statement, head_update, append_assoc, append_assoc]

omit ht in
theorem statement_delete (clause : Option WhereClause) :
    statement .delete t clause = "DELETE FROM " ++ (t ++ clauseText clause) := by
  rw [statement, head_delete, append_assoc]

theorem fromSection_select (clause : Option WhereClause) :
    fromSection U (statement .select t clause) = some (some t) := by
  have hupper : toUpper U (statement .select t clause) =
      "SELECT" ++ spacedOut ["*"] ++
        (spaced "FROM" ++ toUpper U (t ++ clauseText clause)) := by
    rw [statement_select, toUpper_append, toUpper_ascii U (s := "SELECT * FROM ") (by decide)]
    rfl
  have hpos : findPos " FROM " (toUpper U (statement .select t clause)) = some 8 := by
    rw [hupper, show " FROM " = spaced "FROM" from rfl,
      findPos_spacedOut _ (by decide) (by decide) (by decide) (by decide)]
    rfl
  have hslice : sliceFrom (8 + 6) (statement .select t clause) = some (t ++ clauseText clause) := by
    rw [statement_select]
    exact sliceFrom_append _ rfl
  have hend := nameEnd ht endMarkers (by decide) (by decide) clause
  simp only [fromSection, hpos, hslice, bind_eq_bind, bind_some, hend]
  rw [sliceTo_append _ rfl]
  rfl

theorem unquotedWord_name : unquotedWord t = some t := by
  have hquote : ∀ c : Char, isNameQuote c → identCont c = false := by
    intro c hc
    simp only [isNameQuote, Bool.or_eq_true, beq_iff_eq] at hc
    rcases hc with rfl | rfl <;> decide
  rw [unquotedWord, spacedWords_word ht.noWhitespace ht.word.nonempty]
  simp [trimMatches_of_all (all_of_identCont ht.word.chars hquote)]

theorem extractDeleteTable_statement (clause : Option WhereClause) :
    extractDeleteTable U (statement .delete t clause) = some (some t) := by
  have hupper : toUpper U (statement .delete t clause) =
      "DELETE" ++ spacedOut [] ++
        (spaced "FROM" ++ toUpper U (t ++ clauseText clause)) := by
    rw [statement_delete, toUpper_append, toUpper_ascii U (s := "DELETE FROM ") (by decide)]
    rfl
  have hpos : findPos " FROM " (toUpper U (statement .delete t clause)) = some 6 := by
    rw [hupper, show " FROM " = spaced "FROM" from rfl,
      findPos_spacedOut _ (by decide) (by decide) (by decide) (by decide)]
    rfl
  have hslice : sliceFrom (6 + 6) (statement .delete t clause) = some (t ++ clauseText clause) := by
    rw [statement_delete]
    exact sliceFrom_append _ rfl
  have hend := nameEnd ht ["WHERE"] (by decide) (by decide) clause
  rw [map_singleton, findFirst_singleton, ← where_eq] at hend
  simp only [extractDeleteTable, hpos, hslice, bind_eq_bind, bind_some, hend]
  rw [sliceTo_append _ rfl, bind_some, unquotedWord_name ht]
  rfl

theorem extractUpdateTable_statement (clause : Option WhereClause) :
    extractUpdateTable U (statement .update t clause) = some (some t) := by
  have hpos : findPos "UPDATE " (toUpper U (statement .update t clause)) = some 0 := by
    rw [statement_update, toUpper_append, toUpper_ascii U (s := "UPDATE ") (by decide),
      findPos]
    exact congrArg _ (findSub_here (n := "UPDATE ") (by decide) _)
  have hslice : sliceFrom (0 + 7) (statement .update t clause) =
      some (t ++ (" SET x = 1" ++ clauseText clause)) := by
    rw [statement_update]
    exact sliceFrom_append _ rfl
  have hset : findPos " SET " (toUpper U (t ++ (" SET x = 1" ++ clauseText clause))) =
      some (byteLen t) := by
    have hupper : toUpper U (t ++ (" SET x = 1" ++ clauseText clause)) =
        toUpper U t ++ spacedOut [] ++
          (spaced "SET" ++ ("X = 1" ++ toUpper U (clauseText clause))) := by
      rw [toUpper_append, toUpper_append, toUpper_ascii U (s := " SET x = 1") (by decide)]
      simp [spacedOut, spaced]
    rw [hupper, show " SET " = spaced "SET" from rfl,
      findPos_spacedOut _ (by decide) ht.upperNoSpace (by simp) (by simp)]
    simp [spacedOut, ht.upperBytes]
  simp only [extractUpdateTable, hpos, hslice, hset, bind_eq_bind, bind_some]
  rw [sliceTo_append _ rfl, bind_some, unquotedWord_name ht]
  rfl

theorem listedTables_name : listedTables t = [t] := by
  have hcomma : ∀ c : Char, (c == ',') → identCont c = false := by
    intro c hc
    obtain rfl := beq_iff_eq.mp hc
    decide
  have hbracket : ∀ c : Char, isNameBracket c → identCont c = false := by
    intro c hc
    simp only [isNameBracket, isNameQuote, Bool.or_eq_true, beq_iff_eq] at hc
    rcases hc with ((rfl | rfl) | rfl) | rfl <;> decide
  rw [listedTables, splitOn_word (all_of_identCont ht.word.chars hcomma)]
  simp [trim_of_all ht.noWhitespace, spacedWords_word ht.noWhitespace ht.word.nonempty,
    trimMatches_of_all (all_of_identCont ht.word.chars hbracket), ht.word.nonempty]

end Text

/-- No table behind the word `JOIN` requires filtering, except for `t`. -/
def NoOtherJoined (U : UnicodeTables) (x : TenantQueryTransformer) (t : Str) (words : List Str) :
    Prop :=
  ∀ p ∈ words.zip words.tail, toUpper U p.1 = "JOIN" →
    x.requiresFiltering U (trimMatches isNameBracket p.2) = true → trimMatches isNameBracket p.2 = t

instance (U : UnicodeTables) (x : TenantQueryTransformer) (t : Str) (words : List Str) :
    Decidable (NoOtherJoined U x t words) :=
  inferInstanceAs (Decidable (∀ p ∈ words.zip words.tail, _ → _ → _))

variable {U : UnicodeTables} {x : TenantQueryTransformer} {t : Str} {words : List Str}

theorem filter_joinedTables
    (h : NoOtherJoined U x t words) :
    (joinedTables U words [t]).filter (x.requiresFiltering U) =
      [t].filter (x.requiresFiltering U) := by
  unfold joinedTables
  -- the tables only grow, and by names that are filtered out
  refine (List.foldlRecOn (motive := fun tables => t ∈ tables ∧
    tables.filter (x.requiresFiltering U) = [t].filter (x.requiresFiltering U)) _ _
    ⟨mem_singleton_self t, rfl⟩ ?_).2
  rintro tables ⟨hmem, hfilter⟩ ⟨word, next⟩ hp
  simp only
  split
  next hadd =>
    simp only [Bool.and_eq_true, beq_iff_eq, Bool.not_eq_true', contains_eq_mem,
      decide_eq_false_iff_not] at hadd
    obtain ⟨⟨hword, -⟩, hnew⟩ := hadd
    have hnot : x.requiresFiltering U (trimMatches isNameBracket next) = false := by
      rw [Bool.eq_false_iff]
      exact fun hreq => hnew (h _ hp hword hreq ▸ hmem)
    exact ⟨mem_append_left _ hmem, by rw [filter_append, hfilter]; simp [hnot]⟩
  next => exact ⟨hmem, hfilter⟩

theorem noOtherJoined_cons {w : Str}
    (hw : toUpper U w ≠ "JOIN") (h : NoOtherJoined U x t words) :
    NoOtherJoined U x t (w :: words) := by
  cases words with
  | nil => exact fun p hp => (by simp at hp)
  | cons v words =>
    intro p hp hjoin
    simp only [tail_cons, zip_cons_cons, mem_cons] at hp
    rcases hp with rfl | hp
    · exact absurd hjoin hw
    · exact h p hp hjoin

section Transform

variable {U : UnicodeTables} {x : TenantQueryTransformer} {t column : Str} (ht : TableName U t)

theorem spacedWords_statement (clause : Option WhereClause)
    (hws : t.all (!isWhitespace ·)) (hne : t ≠ []) :
    spacedWords (statement .select t clause) =
      ["SELECT".toList, "*".toList, "FROM".toList, t] ++
        clause.elim [] fun c => "WHERE".toList :: spacedWords c.text := by
  have hhead : ∀ s, spacedWords ("SELECT * FROM " ++ s) =
      ["SELECT".toList, "*".toList, "FROM".toList] ++ spacedWords s := by
    intro s
    have h1 := spacedWords_append (w := "SELECT") (by decide) (by decide)
      ("* FROM " ++ s)
    have h2 := spacedWords_append (w := "*") (by decide) (by decide) ("FROM " ++ s)
    have h3 := spacedWords_append (w := "FROM") (by decide) (by decide) s
    exact h1.trans (congrArg _ (h2.trans (congrArg _ h3)))
  rw [statement_select, hhead]
  cases clause with
  | none => simp [clauseText, spacedWords_word hws hne]
  | some c =>
    have hname := spacedWords_append hws hne ("WHERE " ++ c.text)
    have hwhere := spacedWords_append (w := "WHERE") (by decide) (by decide) c.text
    have htext : t ++ clauseText (some c) = t ++ ' ' :: ("WHERE " ++ c.text) := rfl
    rw [htext, hname, show "WHERE " ++ c.text = "WHERE" ++ ' ' :: c.text from rfl,
      hwhere]
    rfl

include ht in
theorem filteredTables_select (clause : Option WhereClause) (hreq : x.requiresFiltering U t)
    (hjoin : ∀ c ∈ clause, NoOtherJoined U x t (spacedWords c.text)) :
    (extractTables U (statement .select t clause)).map (·.filter (x.requiresFiltering U)) =
      some [t] := by
  have hlit : ∀ k ∈ ["SELECT".toList, "*".toList, "FROM".toList, "WHERE".toList],
      toUpper U k ≠ "JOIN".toList := by
    intro k hk
    have hascii : ∀ k ∈ ["SELECT".toList, "*".toList, "FROM".toList, "WHERE".toList],
        k.all isAscii ∧ k.map Char.toUpper ≠ "JOIN".toList := by decide
    rw [toUpper_ascii U (hascii k hk).1]
    exact (hascii k hk).2
  have hname : toUpper U t ≠ "JOIN".toList := fun h => ht.notClause (h ▸ by decide)
  have hwords : NoOtherJoined U x t (spacedWords (statement .select t clause)) := by
    rw [spacedWords_statement clause ht.noWhitespace ht.word.nonempty]
    have hbehind : NoOtherJoined U x t
        (clause.elim [] fun c => "WHERE".toList :: spacedWords c.text) := by
      cases clause with
      | none => exact fun p hp => (by simp at hp)
      | some c => exact noOtherJoined_cons (hlit _ (by simp)) (hjoin c rfl)
    exact noOtherJoined_cons (hlit _ (by simp)) (noOtherJoined_cons (hlit _ (by simp))
      (noOtherJoined_cons (hlit _ (by simp)) (noOtherJoined_cons hname hbehind)))
  simp only [extractTables, fromSection_select ht, bind_eq_bind, bind_some,
    map_some, getD_some, listedTables_name ht]
  rw [Option.pure_def, map_some, filter_joinedTables hwords]
  simp [hreq]

theorem transform_eq (form : Form) (clause : Option WhereClause) (tenant db : Str) :
    x.transform U (statement form t clause) tenant (.row db column) =
      match form with
      | .select => x.transformSelect U (statement form t clause) tenant column
      | .update => x.transformUpdate U (statement form t clause) tenant column
      | .delete => x.transformDelete U (statement form t clause) tenant column := by
  obtain ⟨r, hr⟩ : ∃ r, trim (statement form t clause) = form.verb ++ r := by
    rw [statement, Form.head, append_assoc]
    refine ⟨_, trim_word_append ?_ ?_ _⟩ <;> cases form <;> decide
  simp only [transform, hr, toUpper_append, toUpper_verb]
  cases form <;> rfl

include ht

theorem transform_statement {form : Form} {clause : Option WhereClause} {tenant db : Str}
    (hparams : x.useParameters = false) (htemplate : x.filterTemplate = none)
    (hreq : x.requiresFiltering U t) (hcolumn : x.getTenantColumn U t = some column)
    (hjoin : ∀ c ∈ clause, NoOtherJoined U x t (spacedWords c.text)) :
    x.transform U (statement form t clause) tenant (.row db column) =
      some (.ofTables (form.head t ++ (" WHERE " ++
        (equalsText (form.path t column) tenant ++ behindFilter clause))) [t]) := by
  have hsingle : x.buildSingleFilter tenant column = equalsText [column] tenant := by
    simp [buildSingleFilter, hparams, htemplate, equalsText, List.intercalate]
  have htarget : ∀ form, x.transformTarget U (some t) (statement form t clause) tenant column =
      some (.ofTables (form.head t ++ (" WHERE " ++
        (equalsText [column] tenant ++ behindFilter clause))) [t]) := by
    intro form
    simp only [transformTarget, hreq, if_true, hsingle, injectWhereClause_statement ht]
    rfl
  rw [transform_eq]
  cases form with
  | select =>
    have hfilter : x.buildFilter U tenant column [t] = equalsText [t, column] tenant := by
      simp [buildFilter, hparams, hcolumn, equalsText, List.intercalate]
    obtain ⟨tables, htables, hfiltered⟩ :=
      map_eq_some_iff.mp (filteredTables_select ht clause hreq hjoin)
    simp only [transformSelect, htables, bind_eq_bind, bind_some, hfiltered, hfilter,
      injectWhereClause_statement ht]
    rfl
  | update =>
    simp only [transformUpdate, extractUpdateTable_statement ht, bind_eq_bind,
      bind_some, htarget, Form.path]
  | delete =>
    simp only [transformDelete, extractDeleteTable_statement ht, bind_eq_bind,
      bind_some, htarget, Form.path]

end Transform

theorem readCondition_filtered {path : List Str} {tenant : Str} (hpath : path ≠ [])
    (hnames : ∀ w ∈ path, NameWord w) (htenant : '\'' ∉ tenant) (clause : Option WhereClause) :
    readCondition (equalsText path tenant ++ behindFilter clause) =
      some (clause.elim (.atom (equalsComparison path tenant))
        fun c => Cond.restrict (.atom (equalsComparison path tenant)) c.cond) := by
  cases clause with
  | none =>
    rw [behindFilter, elim_none, List.append_nil]
    exact readCondition_equals hpath hnames htenant
  | some c => exact readCondition_equals_and hpath hnames htenant c.reads

theorem Rows.value_path {R : Type} {column : Str} (rows : Rows R t column) (form : Form)
    (tenant : Str) (r : R) : rows.value r (equalsComparison (form.path t column) tenant) = some true ↔
      rows.tenant r = some tenant := by
  cases form with
  | select => exact rows.qualified r tenant
  | update | delete => exact rows.unqualified r tenant

/-- The filter restricts the condition to the tenant's rows exactly if every row for
which a disjunct behind the condition's first holds is one of them. -/
theorem row_filter_restricts_iff {U : UnicodeTables} {x : TenantQueryTransformer}
    {t column tenant db : Str} {R : Type} (rows : Rows R t column) (form : Form)
    (clause : Option WhereClause) (ht : TableName U t) (hcol : NameWord column)
    (htenant : '\'' ∉ tenant) (hparams : x.useParameters = false)
    (htemplate : x.filterTemplate = none) (hreq : x.requiresFiltering U t = true)
    (hcolumn : x.getTenantColumn U t = some column)
    (hjoin : ∀ c ∈ clause, NoOtherJoined U x t (spacedWords c.text)) :
    (∃ res, x.transform U (statement form t clause) tenant (.row db column) = some res ∧
        Restricts rows tenant form clause res.query) ↔
      ∀ r, ∀ c ∈ clause, ∀ b ∈ c.cond.laterDisjuncts,
        b.eval (rows.value r) = some true → rows.tenant r = some tenant := by
  have hpath : form.path t column ≠ [] := by cases form <;> simp [Form.path]
  have hnames : ∀ w ∈ form.path t column, NameWord w := by
    cases form <;> simp [Form.path, ht.word, hcol]
  have hread := readCondition_filtered hpath hnames htenant clause
  rw [transform_statement ht hparams htemplate hreq hcolumn hjoin]
  constructor
  · rintro ⟨res, hres, c', hquery, hrows⟩ r c rfl b hb htrue
    cases hres
    have htext : c'.text = equalsText (form.path t column) tenant ++ behindFilter (some c) := by
      simpa [statement, clauseText, TransformResult.ofTables] using hquery.symm
    have hcond := c'.reads
    rw [htext, hread, Option.some.injEq, elim_some] at hcond
    have heval := (Cond.eval_of_laterDisjunct (.atom (equalsComparison (form.path t column) tenant))
      hb htrue).2
    exact (hrows r (hcond ▸ heval)).1
  · intro hlater
    refine ⟨_, rfl, ⟨_, _, hread⟩, rfl, fun r htrue => ?_⟩
    have hatom := rows.value_path form tenant r
    cases clause with
    | none => exact ⟨hatom.mp htrue, by simp⟩
    | some c =>
      rcases Cond.eval_restrict_eq_true htrue with ⟨hf, hc⟩ | ⟨b, hb, hbtrue⟩
      · refine ⟨hatom.mp hf, ?_⟩
        intro o ho
        cases ho
        exact hc
      · refine ⟨hlater r c rfl b hb hbtrue, ?_⟩
        intro o ho
        cases ho
        exact (Cond.eval_of_laterDisjunct c.cond hb hbtrue).1

section Example

/-- `b = 2`. -/
def bIsTwo : Comparison := ⟨.column [.word ['b']], ['='], .number ['2']⟩

/-- A row of no tenant for which `b = 2` and no other comparison holds. -/
def ownerless (t column : Str) : Rows Unit t column where
  value _ c := some (c == bIsTwo)
  tenant _ := none
  qualified r x := by simp [equalsComparison, bIsTwo]
  unqualified r x := by simp [equalsComparison, bIsTwo]

def usersFilter : TenantQueryTransformer :=
  TenantQueryTransformer.new.registerTables .ascii ["users"] "tenant_id"

theorem tableName_users : TableName .ascii "users" where
  word := by decide
  noWhitespace := by decide
  upperBytes := by decide
  upperNoSpace := by decide
  notClause := by decide

/-- `a = 1`. -/
def aIsOne : Comparison := ⟨.column [.word ['a']], ['='], .number ['1']⟩

def aOrB : WhereClause := ⟨"a = 1 OR b = 2", .or (.atom aIsOne) (.atom bIsTwo), by decide +kernel⟩

def aOrBGrouped : WhereClause :=
  ⟨"(a = 1 OR b = 2)", .group (.or (.atom aIsOne) (.atom bIsTwo)), by decide +kernel⟩

/-- In parentheses the disjunction is restricted as a whole. -/
theorem row_filter_restricts_grouped :
    ∃ res, usersFilter.transform .ascii
        (statement .select "users" (some aOrBGrouped)) "acme"
        (.row "public" "tenant_id") = some res ∧
      Restricts (ownerless "users" "tenant_id") "acme" .select
        (some aOrBGrouped) res.query := by
  refine (row_filter_restricts_iff _ .select (some aOrBGrouped) tableName_users (by decide)
    (by decide) rfl rfl (by decide) (by decide) ?_).mpr ?_
  · rintro c hc
    cases hc
    decide
  · rintro r c hc b hb
    cases hc
    cases hb

/-- `SELECT * FROM users WHERE a = 1 OR b = 2` for the tenant `acme`. -/
theorem not_row_filter_restricts :
    ¬ ∃ res, usersFilter.transform .ascii
        (statement .select "users".toList (some aOrB)) "acme".toList
        (.row "public".toList "tenant_id".toList) = some res ∧
      Restricts (ownerless "users".toList "tenant_id".toList) "acme".toList .select
        (some aOrB) res.query := by
  rintro ⟨res, hres, c, hquery, hrows⟩
  have hrun : (usersFilter.transform .ascii (statement .select "users".toList (some aOrB))
      "acme".toList (.row "public".toList "tenant_id".toList)).map TransformResult.query =
      some ("SELECT * FROM users".toList ++ (" WHERE ".toList ++
        "users.tenant_id = 'acme' AND a = 1 OR b = 2".toList)) := by decide +kernel
  have hread : readCondition "users.tenant_id = 'acme' AND a = 1 OR b = 2".toList =
      some (.or (.and (.atom (equalsComparison ["users".toList, "tenant_id".toList] "acme".toList))
        (.atom aIsOne)) (.atom bIsTwo)) := by decide +kernel
  rw [hres, map_some, Option.some.injEq, hquery] at hrun
  have htext : c.text = "users.tenant_id = 'acme' AND a = 1 OR b = 2".toList :=
    append_cancel_left (append_cancel_left hrun)
  have hcond := c.reads
  rw [htext, hread, Option.some.injEq] at hcond
  have htrue : c.cond.eval ((ownerless "users".toList "tenant_id".toList).value ()) = some true := by
    rw [← hcond]
    decide +kernel
  cases (hrows () htrue).1

end Example

end HeliosProxy.Tenancy
