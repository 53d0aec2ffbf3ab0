import HeliosProxy.Cache.Generations
import HeliosProxy.Edge.Index
import HeliosProxy.Text.PlainNames

/-!
# Which tables a cached read is filed under

A read is filed under the tables the table pattern finds in its text, in the
query cache (`statement_tables`) and in the edge cache (`tables_only`).  The
pattern finds a table only behind a keyword, so that of a `FROM` list it finds
the first table; a write of another one reaches neither cache.
-/

namespace HeliosProxy.Cache

open Text Edge List Option

section Reads

variable {U : UnicodeTables} {t : Str} {ts : List Str}

theorem findSub_eq_none {c : Char} {needle s : Str} (h : c ∉ s) :
    findSub (c :: needle) s = none := by
  induction s with
  | nil => rfl
  | cons d s ih =>
    rw [mem_cons, not_or] at h
    have hpre : (c :: needle).isPrefixOf (d :: s) = false := by
      rw [List.isPrefixOf, beq_eq_false_iff_ne.mpr h.1, Bool.false_and]
    rw [findSub, hpre, ih h.2]
    rfl

theorem stripComments_readOf (h : ∀ u ∈ t :: ts, PlainName u) :
    stripComments (readOf t ts) = readOf t ts := by
  have hmarks : ∀ c ∈ "-/".toList, c ∈ ".$-/(;".toList ∧ c ∉ "SELECT * FROM ".toList ∧
      c ∉ ", ".toList :=
    all_iff_forall_prop.1 (by decide)
  have hnot : ∀ c ∈ "-/".toList, c ∉ readOf t ts := by
    intro c hc hmem
    obtain ⟨hpunct, hselect, hcomma⟩ := hmarks c hc
    have hname : ∀ u ∈ t :: ts, c ∉ u := fun u hu hcu =>
      not_punctuation_of_plain (List.all_eq_true.mp (h u hu).chars c hcu) hpunct
    rcases mem_append.mp hmem with hc' | hc'
    · exact hselect hc'
    rcases mem_append.mp hc' with hc' | hc'
    · exact hname t mem_cons_self hc'
    · obtain ⟨u, hu, hcu⟩ := mem_flatMap.mp hc'
      rcases mem_append.mp hcu with hcu | hcu
      · exact hcomma hcu
      · exact hname u (mem_cons_of_mem _ hu) hcu
  have hmarker : hasCommentMarker (readOf t ts) = false := by
    rw [hasCommentMarker, containsSub, containsSub, show "--".toList = '-' :: ['-'] from rfl,
      show "/*".toList = '/' :: ['*'] from rfl, findSub_eq_none (hnot '-' (by decide)),
      findSub_eq_none (hnot '/' (by decide))]
    rfl
  rw [stripComments, hmarker]
  rfl

def notPatternWord (u : Str) : Bool := !patternWords.any (eqIgnoreCase u)

theorem nameText_of_notPatternWord {u : Str} (h : PlainName u) (hw : notPatternWord u) :
    NameText u := by
  refine h.nameText ?_
  rintro rfl
  exact absurd hw (by decide)

theorem tableNames_readOf {ks : List String} (hks : TableKeywords ks)
    (h : ∀ u ∈ t :: ts, PlainName u) (hw : ∀ u ∈ t :: ts, notPatternWord u) :
    tableNames U (tablePattern ks) (stripComments (readOf t ts)) = [t] := by
  have hname :
    ∀ u ∈ t :: ts, NameText u := fun u hu => nameText_of_notPatternWord (h u hu) (hw u hu)
  rw [stripComments_readOf h, tableNames, tableMatches_readOf hks (hname t mem_cons_self)
    fun u hu => hname u (mem_cons_of_mem _ hu)]
  change addTable U [] t = [t]
  rw [addTable, tableName_of_plain (h t mem_cons_self)]
  rfl

end Reads

section Writes

variable {U : UnicodeTables} {t : Str}

theorem skippedTarget_update (hw : notPatternWord t) :
    skippedTarget "UPDATE" t = false := by
  have hany : patternWords.any (eqIgnoreCase t) = false := by simpa [notPatternWord] using hw
  have hconflict : updateConflictWords.any (eqIgnoreCase t) = false := by
    rw [List.any_eq_false] at hany ⊢
    intro w hmem
    refine hany w ?_
    revert w
    decide
  rw [skippedTarget, hany, hconflict]
  rfl

theorem writtenTables_updateOf {ks : List String} (hks : TableKeywords ks) (ht : PlainName t)
    (hw : notPatternWord t) :
    ∃ named, writtenTables U (tablePattern ks) (updateOf t) = some named ∧ named.Nodup ∧
      t ∈ named := by
  obtain ⟨ms, hms, hset⟩ := tableMatches_updateOf hks U ht (nameText_of_notPatternWord ht hw)
  have hskip : ∀ m ∈ ("UPDATE".toList, t) :: ms, skippedTarget m.1 m.2 = false := by
    intro m hm
    rcases mem_cons.mp hm with rfl | hm
    · exact skippedTarget_update hw
    · obtain ⟨hkw, hm2⟩ := hset m hm
      rw [hm2]
      have hlower : ∀ w ∈ lowerKeywords, skippedTarget w "SET".toList = false := by decide
      exact hlower m.1 hkw
  obtain ⟨named, hfold, hnodup, hmem⟩ := foldlM_addTable hskip nodup_nil
  refine ⟨named, ?_, hnodup, ?_⟩
  · rw [writtenTables, hms, hfold]
  · exact (hmem t).mpr (.inr ⟨_, mem_cons_self, (tableName_of_plain ht).symm⟩)

theorem update_known_scope :
    opaqueVerbs.any (startsWithCi (updateOf t)) = false ∧ mergeWithoutInto U (updateOf t) = false ∧
      insertWithoutInto U (updateOf t) = false := by
  exact ⟨rfl, rfl, rfl⟩

theorem writeTables_updateOf (ht : PlainName t) (hw : notPatternWord t) :
    ∃ named, writeTables U (updateOf t) = some named ∧ named.Nodup ∧ t ∈ named := by
  obtain ⟨hverb, hmerge, hinsert⟩ := update_known_scope (U := U) (t := t)
  obtain ⟨named, hnamed, hnodup, hmem⟩ := writtenTables_updateOf (U := U) (.inl rfl) ht hw
  refine ⟨named, ?_, hnodup, hmem⟩
  have hne : named.isEmpty = false := by
    rw [isEmpty_eq_false_iff]
    exact ne_nil_of_mem hmem
  rw [writeTables, singleStatement_updateOf ht]
  simp only [bind_eq_bind, bind_some, hverb, hmerge, hinsert, hnamed, hne, Bool.or_self,
    Bool.false_eq_true, if_false]

theorem mem_edgeWriteTables_updateOf (ht : PlainName t) (hw : notPatternWord t) :
    t ∈ edgeWriteTables U (updateOf t) := by
  obtain ⟨_, hmerge, hinsert⟩ := update_known_scope (U := U) (t := t)
  have hscope : unknownScope.any (startsWithCi (updateOf t)) = false := rfl
  obtain ⟨named, hnamed, _, hmem⟩ := writtenTables_updateOf (U := U) (.inr rfl) ht hw
  simpa [edgeWriteTables, singleStatement_updateOf ht, hmerge, hinsert, hscope, hnamed] using hmem

end Writes

/-! ## A write of a read table -/

theorem generationOf_noteWrite_ne {T : Type} [DecidableEq T] (g : Generations T) {t : T}
    {named : List T} (hnodup : named.Nodup) (ht : t ∈ named) :
    (g.noteWrite (some named)).generationOf [t] ≠ g.generationOf [t] := by
  have htable : (g.markWritten named).counter (some t) = g.counter (some t) + 1 := by
    rw [g.counter_markWritten, count_eq_one_of_mem hnodup ht]
  rw [Generations.noteWrite, Generations.generationOf_eq, Generations.generationOf_eq]
  simp only [Generations.globalGeneration_markWritten, map_cons, map_nil, sum_cons,
    sum_nil, htable, word]
  omega

/-- Every table of the read `SELECT * FROM t, ts` files its results: a write of
one is noticed by both caches. -/
structure ReadAttributed (U : UnicodeTables) (t : Str) (ts : List Str) : Prop where
  tables : ∀ u ∈ t :: ts, u ∈ statementTables U (readOf t ts)
  generation : ∀ u ∈ t :: ts, ∀ g : Generations Str,
    (g.noteWrite (writeTables U (updateOf u))).generationOf (statementTables U (readOf t ts)) ≠
      g.generationOf (statementTables U (readOf t ts))
  current : ∀ u ∈ t :: ts, ∀ (D : Type) (g : Generations Str) (r : CachedResult Str D),
    r.tables = statementTables U (readOf t ts) → g.isCurrent r = true →
      (g.noteWrite (writeTables U (updateOf u))).isCurrent r = false
  edgeTables : ∀ u ∈ t :: ts, u ∈ tablesOnly U (readOf t ts)
  edgeEntry : ∀ u ∈ t :: ts, ∀ (K : Type) [DecidableEq K] (c : EdgeCache K) (k : K) (e : CacheEntry)
    (version : Nat), c.map.Covered → c.map.peek k = some e →
      e.tables = tablesOnly U (readOf t ts) → e.version ≤ version →
      (c.invalidate version (edgeWriteTables U (updateOf u))).map.peek k = none

/-- A `FROM` list is attributed exactly when it names one table. -/
theorem readAttributed_iff (U : UnicodeTables) (t : Str) (ts : List Str)
    (hplain : ∀ u ∈ t :: ts, PlainName u) (hwords : ∀ u ∈ t :: ts, notPatternWord u = true) :
    ReadAttributed U t ts ↔ ∀ u ∈ ts, u = t := by
  have htables : statementTables U (readOf t ts) = [t] :=
    tableNames_readOf (.inl rfl) hplain hwords
  have hedge : tablesOnly U (readOf t ts) = [t] := tableNames_readOf (.inr rfl) hplain hwords
  constructor
  · intro h u hu
    have hmem := h.tables u (mem_cons_of_mem _ hu)
    rw [htables] at hmem
    exact mem_singleton.mp hmem
  · intro hsame
    have heq : ∀ u ∈ t :: ts, u = t := by
      intro u hu
      rcases mem_cons.mp hu with rfl | hu
      · rfl
      · exact hsame u hu
    have ht := hplain t mem_cons_self
    have hw := hwords t mem_cons_self
    obtain ⟨named, hnamed, hnodup, hmem⟩ := writeTables_updateOf ht hw
    refine ⟨?_, ?_, ?_, ?_, ?_⟩
    · intro u hu
      rw [htables, heq u hu]
      exact mem_singleton_self t
    · intro u hu g
      rw [htables, heq u hu, hnamed]
      exact generationOf_noteWrite_ne g hnodup hmem
    · intro u hu D g r hr hcurrent
      rw [Generations.isCurrent, hr, htables, beq_iff_eq] at hcurrent
      rw [Generations.isCurrent, hr, htables, heq u hu, hnamed, hcurrent, beq_eq_false_iff_ne]
      exact (generationOf_noteWrite_ne g hnodup hmem).symm
    · intro u hu
      rw [hedge, heq u hu]
      exact mem_singleton_self t
    · intro u hu K _ c k e version hcovered hentry hfiled hversion
      have hfound : t ∈ e.tables := by
        rw [hfiled, hedge]
        exact mem_singleton_self t
      rw [heq u hu, EdgeCache.invalidate, MapState.peek_foldl_pop, if_pos]
      exact hcovered.mem_dropKeys hentry hversion
        (.inr ⟨t, mem_edgeWriteTables_updateOf ht hw, hfound⟩)

theorem readAttributed_kv :
    PlainName "kv" ∧ notPatternWord "kv" = true ∧
      ReadAttributed .ascii "kv" ["kv"] :=
  ⟨by decide, by decide,
    (readAttributed_iff .ascii "kv" ["kv"] (by decide) (by decide)).mpr (by decide)⟩

/-- The second table of a list is missed. -/
theorem not_readAttributed_two :
    PlainName "a" ∧ PlainName "b" ∧
      statementTables .ascii "SELECT * FROM a, b" = ["a".toList] ∧
      tablesOnly .ascii "SELECT * FROM a, b" = ["a".toList] ∧
      writeTables .ascii "UPDATE b SET x = 1".toList = some ["b".toList] ∧
      ¬ ReadAttributed .ascii "a" ["b"] := by
  refine ⟨by decide, by decide, by decide, by decide, by decide, fun h => ?_⟩
  exact absurd (h.tables "b" (by decide)) (by decide)

end HeliosProxy.Cache
