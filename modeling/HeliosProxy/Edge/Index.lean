import HeliosProxy.Edge.Cache

/-!
# The table index covers the map

An invalidation finds the entries of a table through the index.  Every store and every
eviction keeps the index covering the map: an entry is listed under each of its tables.
Not the other way round, since an eviction by the byte budget leaves the keys of its
victims listed.
-/

namespace HeliosProxy.Edge

open List Function

open Text (Str)

variable {K : Type} [DecidableEq K]

/-! ## Reading and dropping -/

namespace MapState

/-- `lru.clear` and `by_table.clear`. -/
def clear (_ : MapState K) : MapState K := .empty

/-- `LruCache::get` of a live key: it becomes the most recently used one. -/
def promote (m : MapState K) (k : K) (e : CacheEntry) : MapState K :=
  { m with lru := (k, e) :: m.lru.filter (·.1 ≠ k) }

end MapState

namespace EdgeCache

/-- `get` at the time `now`; an expired entry is dropped. -/
def get (c : EdgeCache K) (k : K) (now : Nat) : Option CacheEntry × EdgeCache K :=
  match c.map.peek k with
  | none => (none, c)
  | some e =>
    if now < e.expiresAt then (some e, { c with map := c.map.promote k e })
    else (none, { c with map := c.map.pop k })

/-- The first steps of `invalidate`, in front of the lock. -/
def countInvalidation (c : EdgeCache K) : EdgeCache K :=
  { c with invalidations := c.invalidations + 1 }

def raiseHwm (c : EdgeCache K) (version : Nat) : EdgeCache K :=
  { c with invalidatedHwm := max c.invalidatedHwm version }

/-- The sweep of `invalidate`, under the lock. -/
def sweep (c : EdgeCache K) (version : Nat) (tables : List Str) : EdgeCache K :=
  { c with map := (c.map.dropKeys version tables).foldl MapState.pop c.map }

theorem invalidate_eq (c : EdgeCache K) (version : Nat) (tables : List Str) :
    c.invalidate version tables = ((c.countInvalidation).raiseHwm version).sweep version tables :=
      rfl

end EdgeCache

/-! ## The index -/

namespace MapState

variable (m : MapState K)

theorem mem_indexAdd (k k' : K) (tables : List Str) (t : Str) :
    k' ∈ (m.indexAdd k tables).byTable t ↔ k' ∈ m.byTable t ∨ k' = k ∧ t ∈ tables := by
  unfold indexAdd
  induction tables generalizing m with
  | nil => simp
  | cons u tables ih =>
    rw [foldl_cons, ih]
    by_cases hu : t = u
    · subst hu
      simp only [update_self]
      have hmem : k' ∈ (if k ∈ m.byTable t then m.byTable t else k :: m.byTable t) ↔
          k' = k ∨ k' ∈ m.byTable t := by
        split
        · next hk => exact ⟨.inr, fun h => h.elim (fun h => h ▸ hk) id⟩
        · exact mem_cons
      tauto
    · simp only [update_of_ne hu, mem_cons, hu, false_or]

theorem mem_indexRemove (k k' : K) (tables : List Str) (t : Str) :
    k' ∈ (m.indexRemove k tables).byTable t ↔ k' ∈ m.byTable t ∧ ¬ (k' = k ∧ t ∈ tables) := by
  unfold indexRemove
  induction tables generalizing m with
  | nil => simp
  | cons u tables ih =>
    rw [foldl_cons, ih]
    by_cases hu : t = u
    · subst hu
      simp only [update_self, mem_filter, decide_eq_true_eq]
      tauto
    · simp only [update_of_ne hu, mem_cons, hu, false_or]

omit [DecidableEq K] in
theorem shrink_byTable (maxTotalBytes fuel : Nat) :
    (m.shrink maxTotalBytes fuel).byTable = m.byTable := by
  induction fuel generalizing m with
  | zero => rfl
  | succ fuel ih =>
    unfold shrink
    split
    · rfl
    split
    · rfl
    · exact ih _

omit [DecidableEq K] in
theorem shrink_lru (maxTotalBytes fuel : Nat) :
    ∃ n, (m.shrink maxTotalBytes fuel).lru = m.lru.take n := by
  induction fuel generalizing m with
  | zero => exact ⟨m.lru.length, take_length.symm⟩
  | succ fuel ih =>
    unfold shrink
    split
    · exact ⟨m.lru.length, take_length.symm⟩
    split
    · exact ⟨m.lru.length, take_length.symm⟩
    · obtain ⟨n, hn⟩ := ih { m with lru := m.lru.dropLast, totalBytes := _ }
      exact ⟨min n (m.lru.length - 1), by rw [hn, dropLast_eq_take, take_take]⟩

/-! ## Coverage -/

/-- Each key has one entry, which the index lists under its tables. -/
structure Covered (m : MapState K) : Prop where
  nodup : (m.lru.map Prod.fst).Nodup
  listed : ∀ k e, m.peek k = some e → ∀ t ∈ e.tables, k ∈ m.byTable t

theorem covered_empty : (empty : MapState K).Covered :=
  ⟨nodup_nil, fun _ _ h => by cases h⟩

variable {k : K} {e : CacheEntry}

theorem mem_of_lookup {l : List (K × CacheEntry)} (h : l.lookup k = some e) :
    (k, e) ∈ l := by
  obtain ⟨l₁, l₂, rfl, -⟩ := lookup_eq_some_iff.mp h
  simp

theorem lookup_of_mem {l : List (K × CacheEntry)} (hnodup : (l.map Prod.fst).Nodup)
    (h : (k, e) ∈ l) : l.lookup k = some e := by
  obtain ⟨l₁, l₂, rfl⟩ := append_of_mem h
  refine lookup_eq_some_iff.mpr ⟨l₁, l₂, rfl, fun p hp => ?_⟩
  rw [map_append] at hnodup
  have hne : p.1 ≠ k := fun heq =>
    disjoint_of_nodup_append hnodup (List.mem_map_of_mem hp) (heq ▸ mem_cons_self)
  simpa using hne.symm

variable {m : MapState K}

theorem Covered.of_sublist {m' : MapState K} (h : m.Covered) (hlru : m'.lru.Sublist m.lru)
    (hindex : ∀ k t, k ∈ m'.lru.map Prod.fst → k ∈ m.byTable t → k ∈ m'.byTable t) :
    m'.Covered ∧ ∀ k e, m'.peek k = some e → m.peek k = some e := by
  have hpeek : ∀ k e, m'.peek k = some e → m.peek k = some e := fun k e he =>
    lookup_of_mem h.nodup (hlru.subset (mem_of_lookup he))
  refine ⟨⟨(hlru.map Prod.fst).nodup h.nodup, fun k e he t ht => ?_⟩, hpeek⟩
  exact hindex k t (List.mem_map_of_mem (mem_of_lookup he)) (h.listed k e (hpeek k e he) t ht)

theorem Covered.pop (h : m.Covered) (k : K) : (m.pop k).Covered := by
  cases hk : m.peek k with
  | none =>
    simp only [MapState.pop, hk]
    exact h
  | some e =>
    have hlru : (m.pop k).lru = m.lru.filter (·.1 ≠ k) := by
      simp only [MapState.pop, hk]
      exact indexRemove_lru _ _ _
    refine (h.of_sublist (hlru ▸ filter_sublist) fun k' t hk' hlisted => ?_).1
    have hne : k' ≠ k := by
      rw [hlru] at hk'
      obtain ⟨p, hp, rfl⟩ := List.mem_map.mp hk'
      simpa using (mem_filter.mp hp).2
    simp only [MapState.pop, hk, mem_indexRemove]
    exact ⟨hlisted, fun hc => hne hc.1⟩

theorem Covered.foldl_pop (h : m.Covered) (ks : List K) : (ks.foldl MapState.pop m).Covered := by
  induction ks generalizing m with
  | nil => exact h
  | cons k ks ih => exact ih (h.pop k)

theorem peek_promote (hk : m.peek k = some e) (k' : K) :
    (m.promote k e).peek k' = m.peek k' := by
  by_cases hkk : k' = k
  · rw [hkk, hk]
    exact lookup_cons_self
  · have hne : (k' == k) = false := by simpa using hkk
    rw [peek, promote, lookup_cons, hne, lookup_filter_ne, if_neg hkk]
    rfl

theorem notMem_filter_ne (l : List (K × CacheEntry)) (k : K) :
    k ∉ (l.filter (·.1 ≠ k)).map Prod.fst := by
  intro hmem
  obtain ⟨p, hp, hpk⟩ := List.mem_map.mp hmem
  exact absurd hpk (by simpa using (mem_filter.mp hp).2)

theorem Covered.promote (h : m.Covered) (hk : m.peek k = some e) :
    (m.promote k e).Covered := by
  refine ⟨?_, fun k' e' he' => h.listed k' e' (peek_promote hk k' ▸ he')⟩
  exact nodup_cons.mpr ⟨notMem_filter_ne m.lru k, (filter_sublist.map Prod.fst).nodup h.nodup⟩

theorem Covered.mem_dropKeys (h : m.Covered) (he : m.peek k = some e)
    {version : Nat} (hv : e.version ≤ version) {tables : List Str}
    (htables : tables = [] ∨ ∃ t ∈ tables, t ∈ e.tables) : k ∈ m.dropKeys version tables := by
  unfold dropKeys
  split
  · exact List.mem_map_of_mem (mem_filter.mpr ⟨mem_of_lookup he, by simpa using hv⟩)
  · rename_i hne
    obtain ⟨t, ht, hte⟩ := htables.resolve_left fun hnil => hne (by rw [hnil]; rfl)
    refine mem_filter.mpr ⟨mem_flatMap.mpr ⟨t, ht, h.listed k e he t hte⟩, ?_⟩
    rw [he]
    exact decide_eq_true hv

theorem Covered.store {m' : MapState K} (h : m.Covered)
    (kept : List (K × CacheEntry)) {n : Nat} (hkept : kept.Sublist m.lru)
    (hk : k ∉ kept.map Prod.fst)
    (hlru : m'.lru = ((k, e) :: kept).take n) (hnew : ∀ t ∈ e.tables, k ∈ m'.byTable t)
    (hindex : ∀ k' t, k' ∈ kept.map Prod.fst → k' ∈ m.byTable t → k' ∈ m'.byTable t) :
    m'.Covered ∧ ∀ k' e', m'.peek k' = some e' → m.peek k' = some e' ∨ k' = k ∧ e' = e := by
  have hmem : ∀ k' e', m'.peek k' = some e' →
      k' = k ∧ e' = e ∨ k' ∈ kept.map Prod.fst ∧ m.peek k' = some e' := by
    intro k' e' he'
    have hpair := mem_of_lookup he'
    rw [hlru] at hpair
    rcases mem_cons.mp (mem_of_mem_take hpair) with heq | hpair
    · cases heq
      exact .inl ⟨rfl, rfl⟩
    · exact .inr ⟨List.mem_map_of_mem hpair, lookup_of_mem h.nodup (hkept.subset hpair)⟩
  refine ⟨⟨?_, fun k' e' he' t ht => ?_⟩, fun k' e' he' => ?_⟩
  · have hnodup : (((k, e) :: kept).map Prod.fst).Nodup :=
      nodup_cons.mpr ⟨hk, (hkept.map Prod.fst).nodup h.nodup⟩
    rw [hlru]
    exact ((take_sublist n _).map Prod.fst).nodup hnodup
  · rcases hmem k' e' he' with ⟨rfl, rfl⟩ | ⟨hk', hpeek⟩
    · exact hnew t ht
    · exact hindex k' t hk' (h.listed k' e' hpeek t ht)
  · exact (hmem k' e' he').symm.imp And.right id

end MapState

namespace EdgeCache

open MapState

/-- The map of `insert_locked` with the new entry pushed, cut to the byte budget. -/
def fitted (c : EdgeCache K) (k : K) (e : CacheEntry) (kept : List (K × CacheEntry)) (total : Nat) :
    MapState K :=
  let pushed : MapState K :=
    { c.map.indexAdd k e.tables with lru := (k, e) :: kept, totalBytes := total }
  pushed.shrink c.maxTotalBytes (pushed.lru.length + 1)

theorem mem_fitted (c : EdgeCache K) (k : K) (e : CacheEntry) (kept : List (K × CacheEntry))
    (total : Nat) (k' : K) (t : Str) :
    k' ∈ (c.fitted k e kept total).byTable t ↔ k' ∈ c.map.byTable t ∨ k' = k ∧ t ∈ e.tables := by
  rw [fitted, shrink_byTable]
  exact mem_indexAdd c.map k k' e.tables t

theorem insertLocked_cases (c : EdgeCache K) (k : K) (e : CacheEntry) :
    (c.insertLocked k e).map = c.map ∨
      (∃ o total, c.map.peek k = some o ∧ (c.insertLocked k e).map =
        (c.fitted k e (c.map.lru.filter (·.1 ≠ k)) total).indexRemove k
          (o.tables.filter fun t => t ∉ e.tables)) ∨
      (∃ d total, c.map.peek k = none ∧ c.map.lru.getLast? = some d ∧ (c.insertLocked k e).map =
        (c.fitted k e c.map.lru.dropLast total).indexRemove d.1 d.2.tables) ∨
      ∃ kept total, c.map.peek k = none ∧ kept.Sublist c.map.lru ∧
        (c.insertLocked k e).map = c.fitted k e kept total := by
  unfold insertLocked
  split
  · exact .inl rfl
  cases hh : c.map.peek k with
  | some o => exact .inr (.inl ⟨o, _, rfl, rfl⟩)
  | none =>
    by_cases hfull : c.capacity ≤ c.map.lru.length
    · simp only [if_pos hfull]
      cases hlast : c.map.lru.getLast? with
      | none => exact .inr (.inr (.inr ⟨_, _, trivial, dropLast_sublist _, rfl⟩))
      | some d => exact .inr (.inr (.inl ⟨d, _, trivial, rfl, rfl⟩))
    · simp only [if_neg hfull]
      exact .inr (.inr (.inr ⟨_, _, trivial, Sublist.refl _, rfl⟩))

theorem notMem_of_peek {m : MapState K} {k : K} (h : m.peek k = none) : k ∉ m.lru.map Prod.fst := by
  intro hmem
  obtain ⟨p, hp, rfl⟩ := List.mem_map.mp hmem
  exact absurd (lookup_eq_none_iff.mp h p hp) (by simp)

theorem insertLocked_covered {c : EdgeCache K} (h : c.map.Covered) (k : K) (e : CacheEntry) :
    (c.insertLocked k e).map.Covered ∧
      ∀ k' e', (c.insertLocked k e).map.peek k' = some e' → c.map.peek k' = some e' ∨ k' = k ∧
        e' = e := by
  have hfitted : ∀ kept total, ∃ n, (c.fitted k e kept total).lru = ((k, e) :: kept).take n :=
    fun kept total => shrink_lru _ _ _
  rcases c.insertLocked_cases k e with heq | ⟨o, total, -, heq⟩ | ⟨d, total, hh, hlast, heq⟩ |
    ⟨kept, total, hh, hkept, heq⟩
  · rw [heq]
    exact ⟨h, fun k' e' he' => .inl he'⟩
  · obtain ⟨n, hn⟩ := hfitted (c.map.lru.filter (·.1 ≠ k)) total
    refine h.store _ filter_sublist (notMem_filter_ne _ k) (by rw [heq, indexRemove_lru, hn])
      (fun t ht => ?_) fun k' t hk' hlisted => ?_
    · rw [heq, mem_indexRemove, mem_fitted]
      exact ⟨.inr ⟨rfl, ht⟩, fun hstale => absurd ht (by simpa using (mem_filter.mp hstale.2).2)⟩
    · rw [heq, mem_indexRemove, mem_fitted]
      exact ⟨.inl hlisted, fun hc => notMem_filter_ne c.map.lru k (hc.1 ▸ hk')⟩
  · -- the victim is neither the new key nor one of those that are left
    have hk := notMem_of_peek hh
    have hlru : c.map.lru = c.map.lru.dropLast ++ [d] := by
      obtain ⟨l, hl⟩ := getLast?_eq_some_iff.mp hlast
      rw [hl, dropLast_concat]
    have hnodup := h.nodup
    rw [hlru, map_append] at hnodup
    have hdk : d.1 ≠ k := fun hdk => hk (by
      rw [hlru, ← hdk]
      simp)
    obtain ⟨n, hn⟩ := hfitted c.map.lru.dropLast total
    refine h.store _ (dropLast_sublist _)
      (fun hmem => hk (((dropLast_sublist _).map Prod.fst).subset hmem))
      (by rw [heq, indexRemove_lru, hn]) (fun t ht => ?_) fun k' t hk' hlisted => ?_
    · rw [heq, mem_indexRemove, mem_fitted]
      exact ⟨.inr ⟨rfl, ht⟩, fun hc => hdk hc.1.symm⟩
    · rw [heq, mem_indexRemove, mem_fitted]
      exact ⟨.inl hlisted, fun hc => disjoint_of_nodup_append hnodup (hc.1 ▸ hk') (by simp)⟩
  · have hk := notMem_of_peek hh
    obtain ⟨n, hn⟩ := hfitted kept total
    refine h.store kept hkept (fun hmem => hk ((hkept.map Prod.fst).subset hmem)) (by rw [heq, hn])
      (fun t ht => ?_) fun k' t hk' hlisted => ?_
    · rw [heq, mem_fitted]
      exact .inr ⟨rfl, ht⟩
    · rw [heq, mem_fitted]
      exact .inl hlisted

/-! ## Whole runs -/

def withBudget (maxEntries maxEntryBytes maxTotalBytes : Nat) : EdgeCache K :=
  ⟨.empty, maxEntries, maxEntryBytes, maxTotalBytes, 1, 0, 0, 0⟩

/-- One call; a `get` may read any clock. -/
inductive Call (c : EdgeCache K) : EdgeCache K → Prop
  | insert k e : Call c (c.insertLocked k e)
  | insertIfFresh k e : Call c (c.insertIfFresh k e)
  | insertIfEpoch k e epoch : Call c (c.insertIfEpoch k e epoch)
  | get k now : Call c (c.get k now).2
  | invalidate version tables : Call c (c.invalidate version tables)
  | flush : Call c { c with map := c.map.clear }
  | flushAll : Call c { c.countInvalidation with map := c.map.clear }
  | setMaxEntryBytes maxEntryBytes : Call c { c with maxEntryBytes }

theorem Call.covered {c c' : EdgeCache K} (h : c.map.Covered) (hc : c.Call c') :
    c'.map.Covered := by
  have hinsert := fun k e => (insertLocked_covered h k e).1
  cases hc with
  | insert k e => exact hinsert k e
  | insertIfFresh | insertIfEpoch =>
    simp only [EdgeCache.insertIfFresh, EdgeCache.insertIfEpoch]
    split
    · exact h
    · exact hinsert _ _
  | get k now =>
    unfold EdgeCache.get
    split
    · exact h
    next e hk =>
      split
      · exact h.promote hk
      · exact h.pop k
  | invalidate => exact h.foldl_pop _
  | flush | flushAll => exact covered_empty
  | setMaxEntryBytes => exact h

/-- After any calls, what outlives an invalidation is newer, or not of its tables. -/
theorem invalidate_complete {n b t version : Nat} {c : EdgeCache K} {k : K} {e : CacheEntry}
    {tables : List Str} (hcalls : Relation.ReflTransGen Call (withBudget n b t) c)
    (he : (c.invalidate version tables).map.peek k = some e) :
    version < e.version ∨ tables ≠ [] ∧ ∀ t ∈ tables, t ∉ e.tables := by
  have hcovered : c.map.Covered := by
    clear he
    induction hcalls with
    | refl => exact covered_empty
    | tail _ hcall ih => exact hcall.covered ih
  rw [invalidate, peek_foldl_pop] at he
  obtain ⟨hkept, he⟩ := Option.ite_none_left_eq_some.mp he
  by_contra hstale
  simp only [not_or, Nat.not_lt, not_and, not_forall, not_not] at hstale
  exact hkept (hcovered.mem_dropKeys he hstale.1 (by grind))

/-- Three entries in a cache with room for two: the first is evicted, and stays listed. -/
def overfull : EdgeCache Nat :=
  (((withBudget 3 0 256).insertLocked 0 ⟨1, [], [['a']], 0⟩).insertLocked 1
    ⟨1, [], [['b']], 0⟩).insertLocked 2
    ⟨1, [], [['a']], 0⟩

theorem invalidate_complete_other :
    overfull.map.byTable ['a'] = [2, 0] ∧ overfull.map.lru.map Prod.fst = [2, 1] ∧
      (overfull.invalidate 1 [['a']]).map.peek 1 = some ⟨1, [], [['b']], 0⟩ ∧
      (1 < 1 ∨ [['a']] ≠ [] ∧ ∀ t ∈ [['a']], t ∉ [['b']]) :=
  ⟨by decide, by decide, rfl,
    invalidate_complete (n := 3) (b := 0) (t := 256) (c := overfull) (k := 1)
    (e := ⟨1, [], [['b']], 0⟩)
      (((Relation.ReflTransGen.single (.insert 0 _)).tail (.insert 1 _)).tail (.insert 2 _)) rfl⟩

end EdgeCache

end HeliosProxy.Edge
