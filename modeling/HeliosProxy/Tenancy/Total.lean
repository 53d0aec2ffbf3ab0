import HeliosProxy.Tenancy.Transformer

/-!
# Cuts of a query at positions of its upper case

The transformer finds its keywords in an upper-cased copy of the query and cuts the query at
the positions it found there.  It returns exactly where each of these positions is one between
two characters of the query too.  The characters in front of a keyword decide: they have to
have as many bytes as some characters of the query, as they do where each has an upper case of
one character of as many bytes.
-/

namespace HeliosProxy.Tenancy

open Text List Option

variable {U : UnicodeTables} {s : Str} {p : Nat}

/-- A position between two characters of the text, or at one of its ends. -/
def Boundary (p : Nat) (s : Str) : Prop := ∃ a b, s = a ++ b ∧ byteLen a = p

/-- A keyword was not found, or at a position of `s`. -/
def CutsAt (found : Option Nat) (s : Str) : Prop := ∀ p ∈ found, Boundary p s

/-- Where `keyword` stands in the upper case of `s`, `s` can be cut behind it, and the rest is
such that `P`. -/
def CutsBehind (U : UnicodeTables) (keyword s : Str) (P : Str → Prop) : Prop :=
  ∀ p ∈ findPos keyword (toUpper U s), ∃ a b, s = a ++ b ∧ byteLen a = p + byteLen keyword ∧ P b

/-- `after` is what stands behind the first `keyword` of the upper case. -/
def Behind (U : UnicodeTables) (keyword s after : Str) : Prop :=
  ∃ p before, findPos keyword (toUpper U s) = some p ∧ s = before ++ after ∧ byteLen before = p + byteLen keyword

/-- `part` is `s` up to the position `found`, or all of it. -/
def UpTo (found : Option Nat) (s part : Str) : Prop := part <+: s ∧ byteLen part = found.getD (byteLen s)

/-! ## Slices -/

theorem splitAtByte_eq_some {a b : Str} : splitAtByte p s = some (a, b) ↔ s = a ++ b ∧ byteLen a = p := by
  refine ⟨fun h => ?_, fun ⟨hs, hp⟩ => by rw [hs, ← hp, splitAtByte_append]⟩
  induction s generalizing p a with
  | nil =>
    cases p with
    | zero =>
      cases h
      exact ⟨rfl, rfl⟩
    | succ p => cases h
  | cons c s ih =>
    cases p with
    | zero =>
      cases h
      exact ⟨rfl, rfl⟩
    | succ p =>
      obtain ⟨hle, h⟩ := ite_none_right_eq_some.mp h
      obtain ⟨⟨a', b'⟩, hrest, heq⟩ := map_eq_some_iff.mp h
      cases heq
      obtain ⟨rfl, hlen⟩ := ih hrest
      exact ⟨rfl, by rw [byteLen_cons]; omega⟩

theorem splitAtByte_isSome : (splitAtByte p s).isSome ↔ Boundary p s := by
  simp only [isSome_iff_exists, Prod.exists, splitAtByte_eq_some, Boundary]

theorem sliceFrom_eq_some {b : Str} : sliceFrom p s = some b ↔ ∃ a, s = a ++ b ∧ byteLen a = p := by
  simp only [sliceFrom, map_eq_some_iff, Prod.exists, splitAtByte_eq_some]
  constructor
  · rintro ⟨a, b, h, rfl⟩
    exact ⟨a, h⟩
  · rintro ⟨a, h⟩
    exact ⟨a, b, h, rfl⟩

theorem cutsAt_some : CutsAt (some p) s ↔ Boundary p s := by
  simp only [CutsAt, Option.mem_some_iff, forall_eq']

theorem boundary_getD {found : Option Nat} : Boundary (found.getD (byteLen s)) s ↔ CutsAt found s := by
  cases found with
  | none => exact iff_of_true ⟨s, [], (append_nil s).symm, rfl⟩ nofun
  | some p => exact cutsAt_some.symm

section

variable {β : Type} (found : Option Nat) (f : Str → β)

theorem upTo_isSome :
    ((sliceTo (found.getD (byteLen s)) s).bind fun part => some (f part)).isSome ↔ CutsAt found s := by
  rw [← boundary_getD, ← splitAtByte_isSome, sliceTo]
  cases splitAtByte _ s <;> rfl

theorem upTo_eq_some {b : β} :
    ((sliceTo (found.getD (byteLen s)) s).bind fun part => some (f part)) = some b ↔
      ∃ part, UpTo found s part ∧ f part = b := by
  simp only [sliceTo, Option.bind_eq_some_iff, map_eq_some_iff, Prod.exists, splitAtByte_eq_some, Option.some.injEq,
    UpTo]
  constructor
  · rintro ⟨part, ⟨_, rest, ⟨hs, hlen⟩, rfl⟩, hf⟩
    exact ⟨_, ⟨⟨rest, hs.symm⟩, hlen⟩, hf⟩
  · rintro ⟨part, ⟨⟨rest, hs⟩, hlen⟩, hf⟩
    exact ⟨part, ⟨part, rest, ⟨hs.symm, hlen⟩, rfl⟩, hf⟩

end

section

variable {β : Type} {keyword : Str} {k : Str → Option (Option β)}

/-- A part of the transformer that does nothing without its keyword, and else cuts behind it. -/
theorem behind_isSome :
    (match findPos keyword (toUpper U s) with
      | none => some none
      | some p => (sliceFrom (p + byteLen keyword) s).bind k).isSome ↔
      CutsBehind U keyword s fun after => (k after).isSome := by
  rw [CutsBehind]
  cases findPos keyword (toUpper U s) with
  | none => exact iff_of_true rfl nofun
  | some p =>
    simp only [isSome_bind, Option.mem_some_iff, forall_eq', Option.any_eq_true, sliceFrom_eq_some]
    constructor
    · rintro ⟨b, ⟨a, hs, hlen⟩, hk⟩
      exact ⟨a, b, hs, hlen, hk⟩
    · rintro ⟨a, b, hs, hlen, hk⟩
      exact ⟨b, ⟨a, hs, hlen⟩, hk⟩

theorem behind_eq_some {b : β} :
    (match findPos keyword (toUpper U s) with
      | none => some none
      | some p => (sliceFrom (p + byteLen keyword) s).bind k) = some (some b) ↔
      ∃ after, Behind U keyword s after ∧ k after = some (some b) := by
  simp only [Behind]
  cases findPos keyword (toUpper U s) with
  | none =>
    refine iff_of_false nofun ?_
    rintro ⟨_, ⟨_, _, ⟨⟩, _⟩, _⟩
  | some p =>
    simp only [Option.bind_eq_some_iff, sliceFrom_eq_some, Option.some.injEq, exists_and_left, exists_eq_left']

end

theorem CutsBehind.congr {keyword : Str} {P Q : Str → Prop} (h : ∀ after, P after ↔ Q after) :
    CutsBehind U keyword s P ↔ CutsBehind U keyword s Q := by
  simp only [CutsBehind, h]

namespace TenantQueryTransformer

variable (U)

/-- Where the filter goes: behind the `WHERE` of the query, or in front of a later clause. -/
def CutsForWhere (query : Str) : Prop :=
  match findPos " WHERE " (toUpper U query) with
  | some p => Boundary (p + 7) query
  | none => CutsAt (findFirst (laterClauses.map spaced) (toUpper U query)) query

/-- Where the column list ends that starts at the position `start` of the upper case. -/
def colsEnd (query : Str) (start : Nat) : Nat :=
  ((sliceFrom start (toUpper U query)).bind (findPos [')'])).getD 0 + start

/-- Where the tenant and its column go. -/
def CutsForValue (query column : Str) : Prop :=
  ∀ p ∈ findPos " VALUES " (toUpper U query), ∃ a b, query = a ++ b ∧ byteLen a = p ∧
    ((findPos ['('] b).isSome → ∀ start ∈ findPos ['('] (toUpper U query), start < p →
      ∃ c d, query = c ++ d ∧ byteLen c = colsEnd U query start ∧
        CutsAt (findPos " VALUES " (toUpper U (c ++ ", " ++ column ++ d)))
          (c ++ ", " ++ column ++ d))

inductive Verb
  | select
  | update
  | delete
  | insert

def verb (query : Str) : Option Verb :=
  let upper := toUpper U (trim query)
  if "SELECT".toList.isPrefixOf upper then some .select
  else if "UPDATE".toList.isPrefixOf upper then some .update
  else if "DELETE".toList.isPrefixOf upper then some .delete
  else if "INSERT".toList.isPrefixOf upper then some .insert
  else none

/-- A part between the commas of the list behind `FROM` begins with the name. -/
def NamedInList (query t : Str) : Prop :=
  ∃ after list, Behind U " FROM " query after ∧
    UpTo (findFirst (endMarkers.map spaced) (toUpper U after)) after list ∧
    ∃ part ∈ splitOn (· == ',') list, ∃ w ∈ (spacedWords (trim part)).head?, trimMatches isNameBracket w = t

/-- The name stands behind a `JOIN`, white space between them. -/
def NamedBehindJoin (query t : Str) : Prop :=
  ∃ p ∈ (spacedWords query).zip (spacedWords query).tail, toUpper U p.1 = "JOIN" ∧
    trimMatches isNameBracket p.2 = t

/-- The transformer reads the statement as one of the table `t`. -/
def Names (query t : Str) : Prop :=
  match verb U query with
  | some .select => t ≠ [] ∧ (NamedInList U query t ∨ NamedBehindJoin U query t)
  | some .update => ∃ after part, Behind U "UPDATE " query after ∧
      (∃ p, findPos " SET " (toUpper U after) = some p ∧ UpTo (some p) after part) ∧
      ∃ w ∈ (spacedWords part).head?, trimMatches isNameQuote w = t
  | some .delete => ∃ after part, Behind U " FROM " query after ∧
      UpTo (findPos " WHERE " (toUpper U after)) after part ∧
      ∃ w ∈ (spacedWords part).head?, trimMatches isNameQuote w = t
  | some .insert => ∃ after, Behind U " INTO " query after ∧
      trimMatches isNameQuote (trim (after.takeWhile fun c => !(c == '(' || isWhitespace c))) = t
  | none => False

/-- The tables that a statement names are found at positions of its text. -/
def CutsForTables (query : Str) : Prop :=
  match verb U query with
  | some .select => CutsBehind U " FROM " query fun after =>
      CutsAt (findFirst (endMarkers.map spaced) (toUpper U after)) after
  | some .update => CutsBehind U "UPDATE " query fun after =>
      CutsAt (findPos " SET " (toUpper U after)) after
  | some .delete => CutsBehind U " FROM " query fun after =>
      CutsAt (findPos " WHERE " (toUpper U after)) after
  | some .insert => CutsBehind U " INTO " query fun _ => True
  | none => True

/-- What is put into a statement goes to positions of its text. -/
def CutsForFilter (query column : Str) : Prop :=
  match verb U query with
  | some .insert => CutsForValue U query column
  | _ => CutsForWhere U query

/-- The positions at which a statement is cut are positions of its text. -/
def Cuttable (x : TenantQueryTransformer) (query : Str) : IsolationStrategy → Prop
  | .row _ column => CutsForTables U query ∧
      ((∃ t, Names U query t ∧ x.requiresFiltering U t) → CutsForFilter U query column)
  | _ => True

variable {U}

/-! ## The tables of a statement -/

variable {t : Str}

theorem extractTables_isSome : (extractTables U s).isSome ↔ CutsBehind U " FROM " s fun after =>
    CutsAt (findFirst (endMarkers.map spaced) (toUpper U after)) after := by
  have hsection : (extractTables U s).isSome = (fromSection U s).isSome := by
    rw [extractTables]
    cases fromSection U s <;> rfl
  rw [hsection]
  exact behind_isSome.trans (CutsBehind.congr fun _ => upTo_isSome _ _)

theorem fromSection_eq_some {list : Str} : fromSection U s = some (some list) ↔
    ∃ after, Behind U " FROM " s after ∧
      UpTo (findFirst (endMarkers.map spaced) (toUpper U after)) after list := by
  refine behind_eq_some.trans (exists_congr fun after => and_congr_right fun _ => (upTo_eq_some _ _).trans ?_)
  simp only [Option.some.injEq, exists_eq_right]

theorem mem_listedTables {list : Str} : t ∈ listedTables list ↔ t ≠ [] ∧
    ∃ part ∈ splitOn (· == ',') list, ∃ w ∈ (spacedWords (trim part)).head?, trimMatches isNameBracket w = t := by
  simp only [listedTables, mem_filter, mem_filterMap, Option.map_eq_some_iff, Option.mem_def, Bool.not_eq_true',
    isEmpty_eq_false_iff, and_comm]

theorem mem_joinedTables {words tables : List Str} : t ∈ joinedTables U words tables ↔
    t ∈ tables ∨ t ≠ [] ∧ ∃ p ∈ words.zip words.tail, toUpper U p.1 = "JOIN" ∧
      trimMatches isNameBracket p.2 = t := by
  rw [joinedTables]
  generalize words.zip words.tail = pairs
  induction pairs generalizing tables with
  | nil => simp
  | cons p pairs ih =>
    rw [foldl_cons, ih]
    dsimp only
    by_cases hadd : (toUpper U p.1 == "JOIN" && !(trimMatches isNameBracket p.2).isEmpty &&
        !tables.contains (trimMatches isNameBracket p.2)) = true
    · rw [if_pos hadd]
      grind
    · rw [if_neg hadd]
      grind

theorem mem_extractTables {tables : List Str} (h : extractTables U s = some tables) :
    t ∈ tables ↔ t ≠ [] ∧ (NamedInList U s t ∨ NamedBehindJoin U s t) := by
  obtain ⟨listed, hlisted, ⟨⟩⟩ := Option.bind_eq_some_iff.mp h
  have hlist : t ∈ (listed.map listedTables).getD [] ↔ t ≠ [] ∧ NamedInList U s t := by
    cases listed with
    | none =>
      refine iff_of_false not_mem_nil ?_
      rintro ⟨-, after, list, hbehind, hupTo, -⟩
      cases hlisted.symm.trans (fromSection_eq_some.mpr ⟨after, hbehind, hupTo⟩)
    | some list =>
      refine mem_listedTables.trans (and_congr_right fun _ => ⟨fun hpart => ?_, ?_⟩)
      · obtain ⟨after, hbehind, hupTo⟩ := fromSection_eq_some.mp hlisted
        exact ⟨after, list, hbehind, hupTo, hpart⟩
      · rintro ⟨after, list', hbehind, hupTo, hpart⟩
        cases hlisted.symm.trans (fromSection_eq_some.mpr ⟨after, hbehind, hupTo⟩)
        exact hpart
  rw [mem_joinedTables, hlist, ← and_or_left]
  rfl

theorem extractUpdateTable_isSome : (extractUpdateTable U s).isSome ↔
    CutsBehind U "UPDATE " s fun after => CutsAt (findPos " SET " (toUpper U after)) after := by
  refine behind_isSome.trans (CutsBehind.congr fun after => ?_)
  cases findPos " SET " (toUpper U after) with
  | none => exact iff_of_true rfl nofun
  | some p => exact upTo_isSome (some p) unquotedWord

theorem extractUpdateTable_eq_some : extractUpdateTable U s = some (some t) ↔
    ∃ after part, Behind U "UPDATE " s after ∧
      (∃ p, findPos " SET " (toUpper U after) = some p ∧ UpTo (some p) after part) ∧
      ∃ w ∈ (spacedWords part).head?, trimMatches isNameQuote w = t := by
  refine behind_eq_some.trans (exists_congr fun after => ?_)
  rw [exists_and_left]
  refine and_congr_right fun _ => ?_
  cases findPos " SET " (toUpper U after) with
  | none => exact iff_of_false nofun (by rintro ⟨_, ⟨_, ⟨⟩, _⟩, _⟩)
  | some p =>
    refine (upTo_eq_some (some p) unquotedWord).trans (exists_congr fun part => ?_)
    simp only [Option.some.injEq, exists_eq_left', unquotedWord, Option.map_eq_some_iff, Option.mem_def]

theorem extractDeleteTable_isSome : (extractDeleteTable U s).isSome ↔
    CutsBehind U " FROM " s fun after => CutsAt (findPos " WHERE " (toUpper U after)) after :=
  behind_isSome.trans (CutsBehind.congr fun _ => upTo_isSome _ _)

theorem extractDeleteTable_eq_some : extractDeleteTable U s = some (some t) ↔
    ∃ after part, Behind U " FROM " s after ∧ UpTo (findPos " WHERE " (toUpper U after)) after part ∧
      ∃ w ∈ (spacedWords part).head?, trimMatches isNameQuote w = t := by
  refine behind_eq_some.trans (exists_congr fun after => ?_)
  rw [exists_and_left]
  refine and_congr_right fun _ => (upTo_eq_some _ _).trans (exists_congr fun part => ?_)
  simp only [unquotedWord, Option.map_eq_some_iff, Option.mem_def]

theorem extractInsertTable_isSome : (extractInsertTable U s).isSome ↔
    CutsBehind U " INTO " s fun _ => True :=
  behind_isSome.trans (CutsBehind.congr fun _ => iff_of_true rfl trivial)

theorem extractInsertTable_eq_some : extractInsertTable U s = some (some t) ↔
    ∃ after, Behind U " INTO " s after ∧
      trimMatches isNameQuote (trim (after.takeWhile fun c => !(c == '(' || isWhitespace c))) = t := by
  refine behind_eq_some.trans (exists_congr fun after => and_congr_right fun _ => ?_)
  exact Option.some_inj.trans Option.some_inj

/-- The tables of a statement, for each of its kinds. -/
def extracted (U : UnicodeTables) (query : Str) : Option (List Str) :=
  match verb U query with
  | some .select => extractTables U query
  | some .update => (extractUpdateTable U query).map Option.toList
  | some .delete => (extractDeleteTable U query).map Option.toList
  | some .insert => (extractInsertTable U query).map Option.toList
  | none => some []

theorem extracted_isSome : (extracted U s).isSome ↔ CutsForTables U s := by
  unfold extracted CutsForTables
  split
  · exact extractTables_isSome
  · rw [isSome_map, extractUpdateTable_isSome]
  · rw [isSome_map, extractDeleteTable_isSome]
  · rw [isSome_map, extractInsertTable_isSome]
  · exact iff_of_true rfl trivial

theorem mem_toList_iff {o : Option (Option Str)} {tables : List Str} (h : o.map Option.toList = some tables) :
    t ∈ tables ↔ o = some (some t) := by
  obtain ⟨table, rfl, rfl⟩ := map_eq_some_iff.mp h
  rw [mem_toList, Option.some_inj]

theorem mem_extracted {tables : List Str} (h : extracted U s = some tables) : t ∈ tables ↔ Names U s t := by
  unfold extracted at h
  unfold Names
  split at h
  · exact mem_extractTables h
  · rw [mem_toList_iff h, extractUpdateTable_eq_some]
  · rw [mem_toList_iff h, extractDeleteTable_eq_some]
  · rw [mem_toList_iff h, extractInsertTable_eq_some]
  · cases h
    exact iff_of_false not_mem_nil id

/-! ## What is put into a statement -/

theorem injectWhereClause_isSome (filter : Str) : (injectWhereClause U s filter).isSome ↔ CutsForWhere U s := by
  have hsplit {p : Nat} {f : Str × Str → Str} : ((splitAtByte p s).bind fun r => some (f r)).isSome ↔ Boundary p s := by
    rw [← splitAtByte_isSome]
    cases splitAtByte p s <;> rfl
  rw [injectWhereClause, CutsForWhere]
  cases findPos " WHERE " (toUpper U s) with
  | some p => exact hsplit
  | none =>
    cases findFirst (laterClauses.map spaced) (toUpper U s) with
    | some p => exact hsplit.trans cutsAt_some.symm
    | none => exact iff_of_true rfl nofun

theorem insertValue_isSome (tenant : Str) : (insertValue s tenant p).isSome ↔ Boundary p s := by
  rw [insertValue, isSome_map, splitAtByte_isSome]

/-- The values start at a position of the text, where it can be cut at their `VALUES`. -/
theorem valuesStart_bind_isSome {β : Type} {k : Option Nat → Option β} :
    ((valuesStart s p).bind k).isSome ↔ ∃ a b, s = a ++ b ∧ byteLen a = p ∧
      (k ((findPos ['('] b).map fun q => p + q + 1)).isSome := by
  simp only [valuesStart, isSome_iff_exists, Option.bind_eq_some_iff, map_eq_some_iff, sliceFrom_eq_some]
  constructor
  · rintro ⟨y, _, ⟨b, ⟨a, hs, hlen⟩, rfl⟩, hk⟩
    exact ⟨a, b, hs, hlen, y, hk⟩
  · rintro ⟨a, b, hs, hlen, y, hk⟩
    exact ⟨y, _, ⟨b, ⟨a, hs, hlen⟩, rfl⟩, hk⟩

theorem boundary_behind {a b : Str} {q : Nat} (hf : findPos ['('] b = some q) :
    Boundary (byteLen a + q + 1) (a ++ b) := by
  obtain ⟨⟨c, d⟩, hc, rfl⟩ := map_eq_some_iff.mp hf
  obtain ⟨rfl, d, rfl⟩ := findSub_eq_some hc
  exact ⟨a ++ c ++ ['('], d, by simp, by simp only [byteLen_append]; rfl⟩

variable {column : Str}

theorem injectColumn_isSome (tenant : Str) : (injectColumn U s tenant column p).isSome ↔
    ∃ c d, s = c ++ d ∧ byteLen c = p ∧
      CutsAt (findPos " VALUES " (toUpper U (c ++ ", " ++ column ++ d)))
        (c ++ ", " ++ column ++ d) := by
  have hsplit {k : Str × Str → Option (Option Str)} : ((splitAtByte p s).bind k).isSome ↔
      ∃ c d, s = c ++ d ∧ byteLen c = p ∧ (k (c, d)).isSome := by
    simp only [isSome_bind, Option.any_eq_true, Prod.exists, splitAtByte_eq_some, and_assoc]
  refine hsplit.trans (exists_congr fun c => exists_congr fun d => ?_)
  refine and_congr_right fun _ => and_congr_right fun _ => ?_
  dsimp only
  cases findPos " VALUES " (toUpper U (c ++ ", " ++ column ++ d)) with
  | none => exact iff_of_true rfl nofun
  | some q =>
    refine valuesStart_bind_isSome.trans (Iff.trans ?_ cutsAt_some.symm)
    refine exists_congr fun a => exists_congr fun b => ?_
    rw [← and_assoc]
    refine and_iff_left_of_imp fun ⟨hs, hlen⟩ => ?_
    cases hf : findPos ['('] b with
    | none => rfl
    | some paren =>
      have hcut := boundary_behind (a := a) hf
      rw [← hs, hlen] at hcut
      rw [Option.map_some, Option.isSome_map]
      exact (insertValue_isSome tenant).mpr hcut

theorem injectTenantValue_isSome (tenant : Str) :
    (injectTenantValue U s tenant column).isSome ↔ CutsForValue U s column := by
  rw [injectTenantValue, CutsForValue]
  cases findPos " VALUES " (toUpper U s) with
  | none => exact iff_of_true rfl nofun
  | some p =>
    simp only [Option.mem_some_iff, forall_eq']
    refine valuesStart_bind_isSome.trans (exists_congr fun a => exists_congr fun b => ?_)
    refine and_congr_right fun hs => and_congr_right fun hlen => ?_
    cases hf : findPos ['('] b with
    | none => exact iff_of_true rfl nofun
    | some paren =>
      have hcut := boundary_behind (a := a) hf
      rw [← hs, hlen] at hcut
      have hvalue := (insertValue_isSome tenant).mpr hcut
      cases hl : findPos ['('] (toUpper U s) with
      | none => exact iff_of_true hvalue nofun
      | some start =>
        obtain ⟨rest, hrest⟩ : ∃ rest, sliceFrom start (toUpper U s) = some rest := by
          obtain ⟨⟨c, d⟩, hc, rfl⟩ := map_eq_some_iff.mp hl
          exact ⟨d, sliceFrom_eq_some.mpr ⟨c, (findSub_eq_some hc).1, rfl⟩⟩
        simp only [isSome_some, Option.mem_some_iff, forall_const, forall_eq', hrest]
        by_cases hlt : start < p
        · have hend : (findPos [')'] rest).getD 0 + start = colsEnd U s start := by
            rw [colsEnd, hrest, Option.bind_some]
          simp only [hlt, forall_const, Option.bind_some, bind_eq_bind, hend]
          rw [← injectColumn_isSome tenant]
          cases injectColumn U s tenant column (colsEnd U s start) with
          | none => rfl
          | some injected =>
            cases injected with
            | none => exact iff_of_true hvalue rfl
            | some _ => rfl
        · simp only [hlt, false_imp_iff, iff_true]
          exact hvalue

/-- The statement with its filter, for each of its kinds. -/
def filtered (U : UnicodeTables) (x : TenantQueryTransformer) (query tenant column : Str) (tables : List Str) :
    Option TransformResult :=
  match verb U query with
  | some .select => (injectWhereClause U query (x.buildFilter U tenant column tables)).map (.ofTables · tables)
  | some .insert => (injectTenantValue U query tenant column).map fun injected =>
      (TransformResult.ofTables injected tables).withWarning injectionWarning
  | _ => (injectWhereClause U query (x.buildSingleFilter tenant column)).map (.ofTables · tables)

variable {x : TenantQueryTransformer} {tenant : Str}

theorem filtered_isSome {tables : List Str} :
    (filtered U x s tenant column tables).isSome ↔ CutsForFilter U s column := by
  unfold filtered CutsForFilter
  cases verb U s with
  | none => rw [isSome_map, injectWhereClause_isSome]
  | some v =>
    cases v with
    | insert => rw [isSome_map, injectTenantValue_isSome]
    | _ => rw [isSome_map, injectWhereClause_isSome]

theorem filtered_eq_some {tables : List Str} {r : TransformResult}
    (h : filtered U x s tenant column tables = some r) : r.transformed = true ∧ r.filteredTables = tables := by
  unfold filtered at h
  split at h <;> obtain ⟨_, -, rfl⟩ := map_eq_some_iff.mp h <;> exact ⟨rfl, rfl⟩

theorem transformTarget_eq {table : Option Str} :
    x.transformTarget U table s tenant column =
      if (table.toList.filter (x.requiresFiltering U)).isEmpty then some (.passthrough s)
      else (injectWhereClause U s (x.buildSingleFilter tenant column)).map
        (.ofTables · (table.toList.filter (x.requiresFiltering U))) := by
  cases table with
  | none => rfl
  | some table =>
    rw [transformTarget]
    cases hr : x.requiresFiltering U table with
    | false => simp [hr]
    | true =>
      simp only [toList_some, filter_cons, hr]
      cases injectWhereClause U s (x.buildSingleFilter tenant column) <;> rfl

/-- A statement is passed through where none of its tables is to be filtered. -/
theorem transform_row {database : Str} : x.transform U s tenant (.row database column) =
    (extracted U s).bind fun tables =>
      if (tables.filter (x.requiresFiltering U)).isEmpty then some (.passthrough s)
      else filtered U x s tenant column (tables.filter (x.requiresFiltering U)) := by
  have hverb : x.transform U s tenant (.row database column) = match verb U s with
      | some .select => x.transformSelect U s tenant column
      | some .update => x.transformUpdate U s tenant column
      | some .delete => x.transformDelete U s tenant column
      | some .insert => x.transformInsert U s tenant column
      | none => some (.passthrough s) := by
    unfold transform verb
    dsimp only
    split
    · rfl
    split
    · rfl
    split
    · rfl
    split <;> rfl
  rw [hverb]
  unfold extracted filtered
  cases verb U s with
  | none => rfl
  | some v =>
    cases v with
    | select =>
      refine congrArg ((extractTables U s).bind ·) (funext fun tables => ?_)
      dsimp only
      cases (tables.filter (x.requiresFiltering U)).isEmpty with
      | true => rfl
      | false => cases injectWhereClause U s _ <;> rfl
    | update => simp only [transformUpdate, transformTarget_eq, bind_eq_bind, bind_map, Function.comp_def]
    | delete => simp only [transformDelete, transformTarget_eq, bind_eq_bind, bind_map, Function.comp_def]
    | insert =>
      rw [transformInsert]
      cases extractInsertTable U s with
      | none => rfl
      | some table =>
        cases table with
        | none => rfl
        | some table =>
          cases hr : x.requiresFiltering U table with
          | false => simp [hr]
          | true =>
            simp only [bind_eq_bind, Option.bind_some, Option.map_some, toList_some, filter_cons, hr]
            cases injectTenantValue U s tenant column <;> rfl

/-- The transformer returns exactly where the positions it cuts at are positions of the query. -/
theorem transform_isSome (U : UnicodeTables) (x : TenantQueryTransformer) (query tenant : Str)
    (isolation : IsolationStrategy) :
    (x.transform U query tenant isolation).isSome = true ↔ x.Cuttable U query isolation := by
  cases isolation with
  | row database column =>
    rw [transform_row, Cuttable, ← extracted_isSome]
    cases hextracted : extracted U query with
    | none => exact iff_of_false Bool.false_ne_true fun h => Bool.false_ne_true h.1
    | some tables =>
      rw [Option.bind_some, isSome_some, eq_self, true_and]
      simp only [← mem_extracted hextracted, ← mem_filter]
      cases hfiltered : tables.filter (x.requiresFiltering U) with
      | nil => exact iff_of_true rfl fun ⟨_, h⟩ => absurd h not_mem_nil
      | cons t ts => exact filtered_isSome.trans ⟨fun h _ => h, fun h => h ⟨t, mem_cons_self⟩⟩
  | _ => exact iff_of_true rfl trivial

/-- The upper case of one Greek letter, of three characters and six bytes in place of two. -/
def greek : UnicodeTables :=
  { UnicodeTables.ascii with
    toUppercase := fun c => if c = '\u0390' then "\u0399\u0308\u0301" else [c.toUpper]
    toUppercase_ascii := fun c ha => if_neg (by rintro rfl; cases ha) }

theorem not_transform_isSome :
    new.transform greek "SELECT '\u0390' FROM t" "acme" (.row [] "tenant") = none := by
  decide

end TenantQueryTransformer

end HeliosProxy.Tenancy
