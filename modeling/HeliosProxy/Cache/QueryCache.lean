import HeliosProxy.Lib.Runs
import HeliosProxy.Lib.Counters
import HeliosProxy.Cache.Generations

/-!
# The query cache as a system of concurrent calls

Any number of tasks call the cache: lookups (`get_with_prep_hinted`), stores
of what a missed lookup fetched (`put_prepared`), `mark_written`,
`invalidate_all` and `note_heliosdb_backend`.  Each task is a `Thread`, the
program point of its call together with its local variables, and each step of
the system is one atomic access of one task: a load or an increment of one
counter, a load or a swap of the HeliosDB flag, or one operation on the map of
one tier.  `generation_of` and `is_current` are therefore several steps.

What depends on clocks and on sizes is left open.  Whether an entry has
expired or is older than a `cache_ttl` hint, and which candidate an
approximate semantic lookup takes, is given with the step (`Choice`).  Every
tier may lose any entry at any time, which covers expiry, the least recently
used bound, shedding and purging, and any L2 entry may be spilled to the file.

The shared state also keeps a clock, the number of steps taken, and a history:
the instants of the increments, the calls of `mark_written` and
`invalidate_all` that have returned, and what was missed, stored and served.
No step of a task reads the history.
-/

namespace HeliosProxy.Cache

open Function

open Counters (Reading)

inductive CacheLevel
  | l1Hot
  | l2Warm
  | l3Semantic
deriving DecidableEq, Repr

structure CacheContext where
  database : String
  user : Option String
  branch : Option String
  connectionId : Option Nat
deriving DecidableEq

/-- What a query text and the configuration determine.  `tables` and `keyHash`
are the two parts of `normalize_with(query, verbatim)` and `CacheKey` that the
cache uses, `semanticForm` is `SemanticPrep::of`, and two forms share a bucket
slot when their shapes match. -/
structure Config (Q T F D : Type) where
  l1Enabled : Bool
  l2Enabled : Bool
  l3Enabled : Bool
  /-- `semantic_match = canonical`. -/
  canonicalMatch : Bool
  hintSkip : Q → Bool
  hintSemantic : Q → Bool
  tables : Q → Bool → List T
  /-- The normalizer lists each table once. -/
  tables_nodup : ∀ q verbatim, (tables q verbatim).Nodup
  keyHash : Q → Bool → CacheContext → Nat
  semanticForm : Q → List T → Option F
  sameShape : F → F → Bool
  sameSelect : F → F → Bool
  approximable : F → Bool
  /-- At most `max_result_size`. -/
  fits : D → Bool

structure Slot (T F D : Type) where
  form : F
  ctx : CacheContext
  result : CachedResult T D

def Slot.matches {Q T F D : Type} (cfg : Config Q T F D) (slot : Slot T F D) (c : F)
    (ctx : CacheContext) : Bool :=
  cfg.sameShape slot.form c && slot.ctx.database == ctx.database && slot.ctx.user == ctx.user &&
    slot.ctx.branch == ctx.branch

structure Op (Q : Type) where
  query : Q
  context : CacheContext
deriving DecidableEq

/-- `QueryPrep`, as a missed lookup returns it. -/
structure QueryPrep (T F : Type) where
  skip : Bool
  semanticHint : Bool
  tables : List T
  keyHash : Nat
  keyedVerbatim : Bool
  generation : Option Nat
  semantic : Option F
deriving DecidableEq

/-- A returned call of `mark_written` (with its tables) or of
`invalidate_all`, and the instants at which it began and ended. -/
structure WriteCall (T : Type) where
  tables : Option (List T)
  began : Nat
  ended : Nat

inductive Event (Q T F D : Type)
  /-- A lookup missed with `prep`, the last load of its generation snapshot
  made at `snapshotEnd`. -/
  | missed (tid : Nat) (op : Op Q) (prep : QueryPrep T F) (snapshotEnd : Nat)
  /-- A store built `result` from `prep` and is about to put it into the tiers. -/
  | stored (tid : Nat) (op : Op Q) (prep : QueryPrep T F) (result : CachedResult T D)
  /-- A lookup returned `result`, whose `is_current` check made its first load
  at `checkBegan`. -/
  | served (tid : Nat) (level : CacheLevel) (result : CachedResult T D) (checkBegan : Nat)
deriving DecidableEq

structure Shared (Q T F D : Type) where
  generations : Generations T
  heliosdbBackend : Bool
  /-- The L1 cache of each connection, by query text. -/
  l1 : Nat × Q → Option (CachedResult T D)
  /-- `memory_entries` of L2, by key hash. -/
  l2 : Nat → Option (CachedResult T D)
  /-- The file L2 spills to, by key hash. -/
  mmap : Nat → Option (CachedResult T D)
  l3 : List (Slot T F D)
  clock : Nat
  marks : List (Option T × Nat)
  calls : List (WriteCall T)
  log : List (Event Q T F D)

inductive Effect (Q T F D : Type)
  | mark (key : Option T)
  | called (call : WriteCall T)
  | setFlag
  | setL1 (key : Nat × Q) (entry : Option (CachedResult T D))
  | setL2 (hash : Nat) (entry : Option (CachedResult T D))
  | setMmap (hash : Nat) (entry : Option (CachedResult T D))
  | pushL3 (slot : Slot T F D)
  | dropL3 (index : Nat)
  | record (event : Event Q T F D)

section Shared

variable {Q T F D : Type} [DecidableEq Q] [DecidableEq T]

def Shared.init : Shared Q T F D where
  generations := .init
  heliosdbBackend := false
  l1 := fun _ => none
  l2 := fun _ => none
  mmap := fun _ => none
  l3 := []
  clock := 0
  marks := []
  calls := []
  log := []

def Shared.apply (sh : Shared Q T F D) : Effect Q T F D → Shared Q T F D
  | .mark none =>
    { sh with generations := sh.generations.invalidateAll, marks := (none, sh.clock) :: sh.marks }
  | .mark (some t) =>
    { sh with generations := sh.generations.bump t, marks := (some t, sh.clock) :: sh.marks }
  | .called call => { sh with calls := call :: sh.calls }
  | .setFlag => { sh with heliosdbBackend := true }
  | .setL1 key entry => { sh with l1 := update sh.l1 key entry }
  | .setL2 hash entry => { sh with l2 := update sh.l2 hash entry }
  | .setMmap hash entry => { sh with mmap := update sh.mmap hash entry }
  | .pushL3 slot => { sh with l3 := sh.l3 ++ [slot] }
  | .dropL3 index => { sh with l3 := sh.l3.eraseIdx index }
  | .record event => { sh with log := event :: sh.log }

def Shared.tick (sh : Shared Q T F D) : Shared Q T F D := { sh with clock := sh.clock + 1 }

/-- One load of `generation_of(tables)`: the global counter first, then the
tables in order. -/
def generationStep (sh : Shared Q T F D) (tables : List T) :
    Option (Reading (Option T)) → Reading (Option T)
  | none => .start word sh.clock (sh.generations.counter none) (tables.map some)
  | some rd =>
    match rd.todo with
    | [] => rd
    | k :: rest => rd.load word sh.clock (sh.generations.counter k) rest

def completed (rd : Option (Reading (Option T))) : Option (Reading (Option T)) :=
  rd.filter fun r => r.todo.isEmpty

end Shared

/-! ## The calls -/

structure Choice where
  /-- The entry found has not expired. -/
  unexpired : Bool
  /-- The entry found is no older than the lookup's `cache_ttl` hint. -/
  youngEnough : Bool
  /-- The candidate `score_candidates` takes. -/
  best : Option Nat

/-- The program points of `get_with_prep_hinted`.  A lookup past its key has
loaded the flag `keyed_verbatim`; a result being checked comes with the loads
its `is_current` has made so far. -/
inductive Lookup (T F D : Type)
  | l1Get
  | l1Check (r : CachedResult T D) (rd : Option (Reading (Option T)))
  | l1Remove
  | keyMode
  | l2Get (verbatim : Bool)
  | l2Mmap (verbatim : Bool)
  | l2Promote (verbatim : Bool) (r : CachedResult T D)
  | l2Check (verbatim : Bool) (r : CachedResult T D) (rd : Option (Reading (Option T)))
  | l2Remove (verbatim : Bool)
  | l1Promote (r : CachedResult T D) (checkBegan : Nat)
  | l3Mode (verbatim : Bool)
  | l3Get (verbatim : Bool) (c : F)
  | l3Scan (verbatim : Bool) (c : F) (slots : List (Slot T F D))
      (candidates : List (CachedResult T D × Nat))
  | l3Check (verbatim : Bool) (c : F) (slot : Slot T F D) (slots : List (Slot T F D))
      (candidates : List (CachedResult T D × Nat)) (rd : Option (Reading (Option T)))
  | l3Score (verbatim : Bool) (c : F) (candidates : List (CachedResult T D × Nat))
  | snapshot (verbatim : Bool) (semantic : Option F) (rd : Option (Reading (Option T)))

/-- The program points of `put_prepared`. -/
inductive Store (T F D : Type)
  | check (data : D) (rd : Option (Reading (Option T)))
  | mode (data : D) (generation : Nat)
  | l1Put (r : CachedResult T D)
  | l2Put (r : CachedResult T D)
  | l3Mode (r : CachedResult T D)
  | l3Put (c : F) (r : CachedResult T D)

inductive Thread (Q T F D : Type)
  /-- Between calls, with the preparation its last lookup missed with. -/
  | idle (prep : Option (Op Q × QueryPrep T F))
  | lookup (op : Op Q) (pc : Lookup T F D)
  | store (op : Op Q) (prep : QueryPrep T F) (pc : Store T F D)
  /-- `mark_written(tables)`: the tables to come, and whether `get_mut` has
  found no counter for the first of them. -/
  | mark (began : Nat) (tables todo : List T) (absent : Bool)
  /-- `note_heliosdb_backend` has set the flag and is about to call
  `invalidate_all`. -/
  | note

section Steps

variable {Q T F D : Type} [DecidableEq Q] [DecidableEq T]

/-- Where a lookup goes after L2: the semantic tier for a hinted read when
there is one, else the snapshot. -/
def afterL2 (cfg : Config Q T F D) (op : Op Q) (verbatim : Bool) : Lookup T F D :=
  if cfg.hintSemantic op.query && cfg.l3Enabled then .l3Mode verbatim
  else .snapshot verbatim none none

def l1Key (cfg : Config Q T F D) (op : Op Q) : Option (Nat × Q) :=
  if cfg.l1Enabled then op.context.connectionId.map fun conn => (conn, op.query) else none

/-- One step of `get_with_prep_hinted`. -/
def lookupStep (cfg : Config Q T F D) (sh : Shared Q T F D) (tid : Nat) (op : Op Q) (ch : Choice) :
    Lookup T F D → Thread Q T F D × List (Effect Q T F D)
  | .l1Get =>
    match l1Key cfg op with
    | none => (.lookup op .keyMode, [])
    | some key =>
      match sh.l1 key with
      | none => (.lookup op .keyMode, [])
      | some r =>
        if ch.unexpired then (.lookup op (.l1Check r none), [])
        else (.lookup op .keyMode, [.setL1 key none])
  | .l1Check r rd =>
    match completed rd with
    | none => (.lookup op (.l1Check r (some (generationStep sh r.tables rd))), [])
    | some rd =>
      if r.generation = rd.sum then
        if ch.youngEnough then (.idle none, [.record (.served tid .l1Hot r rd.began)])
        else (.lookup op .keyMode, [])
      else (.lookup op .l1Remove, [])
  | .l1Remove =>
    match l1Key cfg op with
    | none => (.lookup op .keyMode, [])
    | some key => (.lookup op .keyMode, [.setL1 key none])
  | .keyMode =>
    if cfg.l2Enabled then (.lookup op (.l2Get sh.heliosdbBackend), [])
    else (.lookup op (afterL2 cfg op sh.heliosdbBackend), [])
  | .l2Get v =>
    match sh.l2 (cfg.keyHash op.query v op.context) with
    | none => (.lookup op (.l2Mmap v), [])
    | some r =>
      if ch.unexpired then (.lookup op (.l2Check v r none), [])
      else (.lookup op (afterL2 cfg op v), [.setL2 (cfg.keyHash op.query v op.context) none])
  | .l2Mmap v =>
    match sh.mmap (cfg.keyHash op.query v op.context) with
    | none => (.lookup op (afterL2 cfg op v), [])
    | some r => (.lookup op (.l2Promote v r), [])
  | .l2Promote v r =>
    (.lookup op (.l2Check v r none), [.setL2 (cfg.keyHash op.query v op.context) (some r)])
  | .l2Check v r rd =>
    match completed rd with
    | none => (.lookup op (.l2Check v r (some (generationStep sh r.tables rd))), [])
    | some rd =>
      if r.generation = rd.sum then
        if ch.youngEnough then (.lookup op (.l1Promote r rd.began), [])
        else (.lookup op (afterL2 cfg op v), [])
      else (.lookup op (.l2Remove v), [])
  | .l2Remove v =>
    (.lookup op (afterL2 cfg op v), [.setL2 (cfg.keyHash op.query v op.context) none])
  | .l1Promote r began =>
    match l1Key cfg op with
    | none => (.idle none, [.record (.served tid .l2Warm r began)])
    | some key => (.idle none, [.setL1 key (some r), .record (.served tid .l2Warm r began)])
  | .l3Mode v =>
    match cfg.semanticForm op.query (cfg.tables op.query v) with
    | none => (.lookup op (.snapshot v none none), [])
    | some c =>
      if cfg.canonicalMatch && sh.heliosdbBackend then
        (.lookup op (.snapshot v (some c) none), [])
      else (.lookup op (.l3Get v c), [])
  -- The shard's read lock is held for the scan, so the slots are as they are now.
  | .l3Get v c =>
    (.lookup op (.l3Scan v c (sh.l3.filter fun slot => slot.matches cfg c op.context).reverse []),
      [])
  | .l3Scan v c [] candidates => (.lookup op (.l3Score v c candidates), [])
  | .l3Scan v c (slot :: slots) candidates =>
    if ch.unexpired then (.lookup op (.l3Check v c slot slots candidates none), [])
    else (.lookup op (.l3Scan v c slots candidates), [])
  | .l3Check v c slot slots candidates rd =>
    match completed rd with
    | none =>
      (.lookup op (.l3Check v c slot slots candidates
        (some (generationStep sh slot.result.tables rd))), [])
    | some rd =>
      if slot.result.generation = rd.sum && ch.youngEnough then
        if cfg.sameSelect slot.form c then
          (.idle none, [.record (.served tid .l3Semantic slot.result rd.began)])
        else if cfg.approximable c then
          (.lookup op (.l3Scan v c slots (candidates ++ [(slot.result, rd.began)])), [])
        else (.lookup op (.l3Scan v c slots candidates), [])
      else (.lookup op (.l3Scan v c slots candidates), [])
  | .l3Score v c candidates =>
    match ch.best.bind fun at' => candidates[at']? with
    | some (r, began) => (.idle none, [.record (.served tid .l3Semantic r began)])
    | none => (.lookup op (.snapshot v (some c) none), [])
  | .snapshot v semantic rd =>
    match completed rd with
    | none =>
      (.lookup op (.snapshot v semantic (some (generationStep sh (cfg.tables op.query v) rd))), [])
    | some rd =>
      let prep : QueryPrep T F :=
        { skip := false, semanticHint := cfg.hintSemantic op.query, tables := cfg.tables op.query v,
          keyHash := cfg.keyHash op.query v op.context, keyedVerbatim := v,
          generation := some rd.sum, semantic := semantic }
      (.idle (some (op, prep)), [.record (.missed tid op prep rd.ended)])

/-- One step of `put_prepared`. -/
def storeStep (cfg : Config Q T F D) (sh : Shared Q T F D) (tid : Nat) (op : Op Q)
    (prep : QueryPrep T F) : Store T F D → Thread Q T F D × List (Effect Q T F D)
  | .check data rd =>
    match completed rd with
    | none => (.store op prep (.check data (some (generationStep sh prep.tables rd))), [])
    | some rd =>
      if prep.generation.getD rd.sum = rd.sum then
        (.store op prep (.mode data (prep.generation.getD rd.sum)), [])
      else (.idle (some (op, prep)), [])
  | .mode data generation =>
    let r : CachedResult T D := ⟨data, prep.tables, generation⟩
    if sh.heliosdbBackend = prep.keyedVerbatim then
      (.store op prep (.l1Put r), [.record (.stored tid op prep r)])
    else (.idle (some (op, prep)), [])
  | .l1Put r =>
    match l1Key cfg op with
    | none => (.store op prep (.l2Put r), [])
    | some key => (.store op prep (.l2Put r), [.setL1 key (some r)])
  | .l2Put r =>
    if cfg.l2Enabled then (.store op prep (.l3Mode r), [.setL2 prep.keyHash (some r)])
    else (.store op prep (.l3Mode r), [])
  | .l3Mode r =>
    if prep.semanticHint && !(cfg.canonicalMatch && sh.heliosdbBackend) && cfg.l3Enabled then
      match prep.semantic with
      | some c => (.store op prep (.l3Put c r), [])
      | none => (.idle (some (op, prep)), [])
    else (.idle (some (op, prep)), [])
  | .l3Put c r => (.idle (some (op, prep)), [.pushL3 ⟨c, op.context, r⟩])

/-- One step of `mark_written`: `get_mut` increments a counter it finds, else
`entry` creates and increments it. -/
def markStep (sh : Shared Q T F D) (began : Nat) (tables : List T) :
    List T → Bool → Thread Q T F D × List (Effect Q T F D)
  | [], _ => (.idle none, [.called ⟨some tables, began, sh.clock⟩])
  | t :: todo, false =>
    match sh.generations.tableGenerations t with
    | some _ => (.mark began tables todo false, [.mark (some t)])
    | none => (.mark began tables (t :: todo) true, [])
  | t :: todo, true => (.mark began tables todo false, [.mark (some t)])

def threadStep (cfg : Config Q T F D) (sh : Shared Q T F D) (tid : Nat) (ch : Choice) :
    Thread Q T F D → Option (Thread Q T F D × List (Effect Q T F D))
  | .idle _ => none
  | .lookup op pc => some (lookupStep cfg sh tid op ch pc)
  | .store op prep pc => some (storeStep cfg sh tid op prep pc)
  | .mark began tables todo absent => some (markStep sh began tables todo absent)
  | .note => some (.idle none, [.mark none, .called ⟨none, sh.clock, sh.clock⟩])

end Steps

/-! ## The system -/

structure State (Q T F D : Type) where
  shared : Shared Q T F D
  threads : Nat → Thread Q T F D

inductive Action (Q T D : Type)
  | lookup (tid : Nat) (op : Op Q)
  | store (tid : Nat) (data : D)
  | markWritten (tid : Nat) (tables : List T)
  | noteHeliosdbBackend (tid : Nat)
  | invalidateAll
  | advance (tid : Nat) (ch : Choice)
  | evictL1 (key : Nat × Q)
  | evictL2 (hash : Nat)
  | spill (hash : Nat)
  | evictMmap (hash : Nat)
  | evictL3 (index : Nat)

section System

variable {Q T F D : Type} [DecidableEq Q] [DecidableEq T]

def State.init : State Q T F D := ⟨.init, fun _ => .idle none⟩

def State.idle? (s : State Q T F D) (tid : Nat) : Option (Option (Op Q × QueryPrep T F)) :=
  match s.threads tid with
  | .idle prep => some prep
  | _ => none

/-- The state after a step that changes thread `tid` and has `effects`. -/
def State.commit (s : State Q T F D) (tid : Nat) (th : Thread Q T F D)
    (effects : List (Effect Q T F D)) : State Q T F D where
  shared := (effects.foldl Shared.apply s.shared).tick
  threads := update s.threads tid th

def State.disturb (s : State Q T F D) (effects : List (Effect Q T F D)) : State Q T F D :=
  { s with shared := (effects.foldl Shared.apply s.shared).tick }

/-- How a lookup begins: `cache=skip` misses at once and is not storable. -/
def beginLookup (cfg : Config Q T F D) (op : Op Q) : Thread Q T F D :=
  if cfg.hintSkip op.query then
    .idle (some (op, ⟨true, cfg.hintSemantic op.query, [], 0, false, none, none⟩))
  else .lookup op .l1Get

def beginStore (cfg : Config Q T F D) (data : D) (op : Op Q) (prep : QueryPrep T F) :
    Thread Q T F D :=
  if !prep.skip && cfg.fits data then .store op prep (.check data none)
  else .idle (some (op, prep))

def step (cfg : Config Q T F D) (s : State Q T F D) : Action Q T D → Option (State Q T F D)
  | .lookup tid op => (s.idle? tid).map fun _ => s.commit tid (beginLookup cfg op) []
  | .store tid data =>
    match s.idle? tid with
    | some (some (op, prep)) => some (s.commit tid (beginStore cfg data op prep) [])
    | _ => none
  | .markWritten tid tables =>
    (s.idle? tid).map fun _ => s.commit tid (.mark s.shared.clock tables tables false) []
  | .noteHeliosdbBackend tid =>
    (s.idle? tid).map fun prep =>
      if s.shared.heliosdbBackend then s.commit tid (.idle prep) []
        else s.commit tid .note [.setFlag]
  | .invalidateAll =>
    some (s.disturb [.mark none, .called ⟨none, s.shared.clock, s.shared.clock⟩])
  | .advance tid ch =>
    (threadStep cfg s.shared tid ch (s.threads tid)).map fun next => s.commit tid next.1 next.2
  | .evictL1 key => some (s.disturb [.setL1 key none])
  | .evictL2 hash => some (s.disturb [.setL2 hash none])
  | .spill hash => some (s.disturb [.setMmap hash (s.shared.l2 hash)])
  | .evictMmap hash => some (s.disturb [.setMmap hash none])
  | .evictL3 index => some (s.disturb [.dropL3 index])

end System

end HeliosProxy.Cache
