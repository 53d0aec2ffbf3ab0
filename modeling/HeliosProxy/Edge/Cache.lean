import HeliosProxy.Text.Chars

/-!
# The edge result cache

An LRU map from keys to versioned entries, with a reverse index from tables to
keys (`edge/cache.rs`).  A write is answered by `invalidate`, which drops the
entries up to a version whose keys the index lists under one of the written
tables; the empty table list stands for a write of unknown scope.
-/

namespace HeliosProxy.Edge

open Text (Str)

structure CacheEntry where
  version : Nat
  responseBytes : List UInt8
  tables : List Str
  expiresAt : Nat

def entryCharge (e : CacheEntry) : Nat := e.responseBytes.length + 128

/-- The map and its index, guarded by one lock.  The most recently used entry
comes first. -/
structure MapState (K : Type) where
  lru : List (K × CacheEntry)
  byTable : Str → List K
  totalBytes : Nat

structure EdgeCache (K : Type) where
  map : MapState K
  capacity : Nat
  maxEntryBytes : Nat
  maxTotalBytes : Nat
  nextVersion : Nat
  observedHome : Nat
  invalidatedHwm : Nat
  invalidations : Nat

namespace MapState

variable {K : Type} [DecidableEq K]

def empty : MapState K := ⟨[], fun _ => [], 0⟩

def peek (m : MapState K) (k : K) : Option CacheEntry := m.lru.lookup k

def indexAdd (m : MapState K) (k : K) (tables : List Str) : MapState K :=
  tables.foldl (fun m t =>
    { m with byTable := Function.update m.byTable t (if k ∈ m.byTable t then m.byTable t
        else k :: m.byTable t) }) m

def indexRemove (m : MapState K) (k : K) (tables : List Str) : MapState K :=
  tables.foldl (fun m t =>
    { m with byTable := Function.update m.byTable t ((m.byTable t).filter (· ≠ k)) }) m

/-- Pop `k` and unindex it. -/
def pop (m : MapState K) (k : K) : MapState K :=
  match m.peek k with
  | none => m
  | some e =>
    { m with lru := m.lru.filter (·.1 ≠ k), totalBytes := m.totalBytes - entryCharge e }.indexRemove
      k e.tables

/-- The keys an invalidation up to `version` drops. -/
def dropKeys (m : MapState K) (version : Nat) (tables : List Str) : List K :=
  if tables.isEmpty then (m.lru.filter fun p => p.2.version ≤ version).map (·.1)
  else (tables.flatMap m.byTable).filter fun k => (m.peek k).any fun e => e.version ≤ version

def shrink (maxTotalBytes : Nat) : Nat → MapState K → MapState K
  | 0, m => m
  | fuel + 1, m =>
    if m.totalBytes ≤ maxTotalBytes then m
    else
      match m.lru.getLast? with
      | none => m
      | some victim =>
        shrink maxTotalBytes fuel
          { m with lru := m.lru.dropLast, totalBytes := m.totalBytes - entryCharge victim.2 }

end MapState

namespace EdgeCache

variable {K : Type} [DecidableEq K]

/-- `insert_locked`: the displaced entry is the old one of the key, or the
least recently used one of a full cache. -/
def insertLocked (c : EdgeCache K) (k : K) (e : CacheEntry) : EdgeCache K :=
  if c.maxEntryBytes < e.responseBytes.length then c
  else
    let old := c.map.peek k
    let indexed := c.map.indexAdd k e.tables
    let displaced : Option (K × CacheEntry) :=
      match old with
      | some o => some (k, o)
      | none => if c.capacity ≤ c.map.lru.length then c.map.lru.getLast? else none
    let kept := match old with
      | some _ => c.map.lru.filter (·.1 ≠ k)
      | none => if c.capacity ≤ c.map.lru.length then c.map.lru.dropLast else c.map.lru
    let total := indexed.totalBytes + entryCharge e
    let total := total - (displaced.map fun d => entryCharge d.2).getD 0
    let pushed : MapState K := { indexed with lru := (k, e) :: kept, totalBytes := total }
    let fitted := pushed.shrink c.maxTotalBytes (pushed.lru.length + 1)
    let unindexed := match displaced with
      | none => fitted
      | some (dk, d) =>
        fitted.indexRemove dk
          (if old.isSome then d.tables.filter (fun t => t ∉ e.tables) else d.tables)
    { c with map := unindexed }

def insertIfFresh (c : EdgeCache K) (k : K) (e : CacheEntry) : EdgeCache K :=
  if c.maxEntryBytes < e.responseBytes.length ∨ e.version ≤ c.invalidatedHwm then c
  else c.insertLocked k e

def insertIfEpoch (c : EdgeCache K) (k : K) (e : CacheEntry) (epoch : Nat) : EdgeCache K :=
  if c.maxEntryBytes < e.responseBytes.length ∨ c.invalidations ≠ epoch then c
  else c.insertLocked k e

def invalidate (c : EdgeCache K) (version : Nat) (tables : List Str) : EdgeCache K :=
  { c with
    invalidations := c.invalidations + 1,
    invalidatedHwm := max c.invalidatedHwm version,
    map := (c.map.dropKeys version tables).foldl MapState.pop c.map }

end EdgeCache

/-! ## What an invalidation drops -/

section Invalidate

variable {K : Type} [DecidableEq K]

theorem lookup_filter_ne (l : List (K × CacheEntry)) (k k' : K) :
    (l.filter (·.1 ≠ k')).lookup k = if k = k' then none else l.lookup k := by
  induction l with
  | nil => simp
  | cons p l ih =>
    obtain ⟨a, e⟩ := p
    rw [List.lookup_cons]
    by_cases ha : a = k'
    · subst ha
      by_cases hk : k = a
      · simpa [hk] using ih
      · have hne : (k == a) = false := by simpa using hk
        simpa [hne] using ih
    · by_cases hk : k = a
      · subst hk
        simp [ha]
      · have hne : (k == a) = false := by simpa using hk
        simpa [ha, List.lookup_cons, hne] using ih

namespace MapState

theorem indexRemove_lru (m : MapState K) (k : K) (tables : List Str) :
    (m.indexRemove k tables).lru = m.lru := by
  induction tables generalizing m with
  | nil => rfl
  | cons t tables ih => exact ih _

theorem peek_pop (m : MapState K) (k k' : K) :
    (m.pop k').peek k = if k = k' then none else m.peek k := by
  cases hk' : m.peek k' with
  | none =>
    simp only [pop, hk']
    split
    next h => rw [h, hk']
    next => rfl
  | some e =>
    have hlru : (m.pop k').lru = m.lru.filter (·.1 ≠ k') := by
      simp only [pop, hk']
      exact indexRemove_lru _ _ _
    rw [peek, hlru]
    exact lookup_filter_ne m.lru k k'

theorem peek_foldl_pop (ks : List K) (m : MapState K) (k : K) :
    (ks.foldl pop m).peek k = if k ∈ ks then none else m.peek k := by
  induction ks generalizing m with
  | nil => simp
  | cons k' ks ih =>
    rw [List.foldl_cons, ih, peek_pop]
    by_cases hk : k = k' <;> by_cases hks : k ∈ ks <;> simp [hk]

end MapState

end Invalidate

end HeliosProxy.Edge
