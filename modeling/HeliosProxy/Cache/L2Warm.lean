import HeliosProxy.Lib.Bytes
import HeliosProxy.Lib.Lru

/-!
# The warm cache and its spill file

`L2WarmCache` keeps its entries under a 64-bit hash of their key, in memory and, where they
are evicted, in a file with an index in memory.  Whose result a lookup gets is decided by
the hash alone.
-/

namespace HeliosProxy.L2Warm

open Wire Lru Option

/-! ## Results and keys -/

/-- `Bytes`, of no more than `isize::MAX` bytes. -/
abbrev Buffer := { b : Bytes // b.length < 2 ^ 63 }

structure CachedResult where
  data : Buffer
  rowCount : UInt64
  cachedAt : Nat
  ttl : Nat
  tables : List String
  executionTime : Nat
  generation : UInt64
deriving DecidableEq

/-- `is_expired`; a clock that went backwards shows no age. -/
def CachedResult.isExpired (r : CachedResult) (now : Nat) : Bool := r.ttl < now - r.cachedAt

def CachedResult.size (r : CachedResult) : Nat := r.data.1.length

/-- `CacheKey`; its `cached_hash` is a function of the other fields. -/
structure CacheKey where
  queryHash : UInt64
  database : String
  user : Option String
  branch : Option String
deriving DecidableEq

structure L2Entry where
  result : CachedResult
  key : CacheKey
  lastAccess : Nat
  memorySize : Nat
deriving DecidableEq

/-- `L2Config`, with the size of the entry's structure; `spill` is the storage `Mmap` with
a path. -/
structure L2Config where
  enabled : Bool
  sizeMb : Nat
  spill : Bool
  entrySize : Nat

/-- `L2Entry::new`; a fingerprint has sixteen digits. -/
def L2Entry.new (cfg : L2Config) (key : CacheKey) (result : CachedResult) (now : Nat) : L2Entry :=
  { result, key, lastAccess := now,
    memorySize := result.size + 16 + cfg.entrySize + key.database.utf8ByteSize +
      (key.user.map String.utf8ByteSize).getD 0 + (key.branch.map String.utf8ByteSize).getD 0 }

/-! ## The spill file -/

def asSecs (duration : Nat) : Nat := duration / 10 ^ 9 % 2 ^ 64

def tableBytes (table : String) : Bytes := table.toUTF8.data.toList

def serializeTables : List String → Bytes
  | [] => []
  | table :: tables =>
    toLeBytes 4 (tableBytes table).length ++ (tableBytes table ++ serializeTables tables)

def serializeResult (r : CachedResult) : Bytes :=
  toLeBytes 8 (asSecs r.ttl) ++
    (toLeBytes 8 r.rowCount.toNat ++ (toLeBytes 8 r.data.1.length ++ (r.data.1 ++
    (toLeBytes 8 r.generation.toNat ++ (toLeBytes 4 r.tables.length ++ serializeTables r.tables)))))

def deserializeTables : Nat → Bytes → Option (List String)
  | 0, _ => some []
  | count + 1, rest => do
    let (len, rest) ← takeBytes 4 rest
    let (table, rest) ← takeBytes (fromLeBytes len) rest
    let table ← String.fromUTF8? ⟨table.toArray⟩
    let tables ← deserializeTables count rest
    some (table :: tables)

def mmapExpiredAt (cachedAt ttl now : Nat) : Bool :=
  if cachedAt ≤ now then ttl ≤ now - cachedAt else true

/-- `deserialize_result`; a slice of the buffer that is too short is a `None` of
`take_bytes`. -/
def deserializeResult (buffer : Bytes) (cachedAt ttl now : Nat) : Option CachedResult := do
  let (ttlSecs, rest) ← takeBytes 8 buffer
  let (rowCount, rest) ← takeBytes 8 rest
  let (dataLen, rest) ← takeBytes 8 rest
  if fromLeBytes ttlSecs ≠ asSecs ttl then none
  else do
    let (data, rest) ← takeBytes (fromLeBytes dataLen) rest
    let (generation, rest) ← takeBytes 8 rest
    let (count, rest) ← takeBytes 4 rest
    let tables ← deserializeTables (fromLeBytes count) rest
    if mmapExpiredAt cachedAt ttl now then none
    else if hs : data.length < 2 ^ 63 then
      some { data := ⟨data, hs⟩, rowCount := .ofNat (fromLeBytes rowCount), cachedAt, ttl, tables,
             executionTime := 0, generation := .ofNat (fromLeBytes generation) }
    else none

structure MmapEntry where
  offset : Nat
  size : Nat
  cachedAt : Nat
  ttl : Nat
deriving DecidableEq

structure MmapStorage where
  file : Bytes
  index : List (UInt64 × MmapEntry)
  fileSize : Nat
deriving DecidableEq

/-- How a write to the file ends: it cannot be opened or sought in, the write fails after
some bytes, or it succeeds. -/
inductive Write
  | refused
  | torn (written : Nat)
  | whole

namespace MmapStorage

/-- Before the first write nothing is read of the file, which that write truncates. -/
def new : MmapStorage := ⟨[], [], 0⟩

def get (s : MmapStorage) (hash : UInt64) (readable : Bool) (before after : Nat) :
    Option CachedResult := do
  let entry ← lookup hash s.index
  if mmapExpiredAt entry.cachedAt entry.ttl before then none
  else if readable && entry.offset + entry.size ≤ s.file.length then
    deserializeResult ((s.file.drop entry.offset).take entry.size) entry.cachedAt entry.ttl after
  else none

def put (s : MmapStorage) (hash : UInt64) (result : CachedResult) : Write → MmapStorage
  | .refused => s
  | .torn written => { s with file := s.file ++ (serializeResult result).take written }
  | .whole =>
    let data := serializeResult result
    { file := s.file ++ data,
      index := insert hash ⟨s.fileSize, data.length, result.cachedAt, result.ttl⟩ s.index,
      fileSize := s.fileSize + data.length }

def remove (s : MmapStorage) (hash : UInt64) : MmapStorage := { s with index := erase hash s.index }

end MmapStorage

/-! ## The cache -/

structure L2WarmCache where
  memory : List (UInt64 × L2Entry)
  spill : Option MmapStorage
  memoryUsage : Nat
  evicting : Bool

section Calls

variable (cfg : L2Config) (hashValue : CacheKey → UInt64)

namespace L2WarmCache

def new : L2WarmCache := ⟨[], if cfg.spill then some .new else none, 0, false⟩

/-- The insertion at the end of `put_evicting` and of `promote_to_memory`. -/
def insertEntry (c : L2WarmCache) (hash : UInt64) (entry : L2Entry) : L2WarmCache :=
  let replaced := ((lookup hash c.memory).map L2Entry.memorySize).getD 0
  { c with memory := insert hash entry c.memory, memoryUsage := c.memoryUsage - replaced +
    entry.memorySize }

def removeEntry (c : L2WarmCache) (hash : UInt64) : L2WarmCache :=
  match lookup hash c.memory with
  | some old =>
    { c with memory := erase hash c.memory, memoryUsage := c.memoryUsage - old.memorySize }
  | none => c

def shed (c : L2WarmCache) (hashes : List UInt64) : L2WarmCache := hashes.foldl removeEntry c

def promoteToMemory (c : L2WarmCache) (key : CacheKey) (result : CachedResult) (now : Nat) :
    L2WarmCache :=
  c.insertEntry (hashValue key) (.new cfg key result now)

/-- `get`, with what the clock and the file system give it. -/
def get (c : L2WarmCache) (key : CacheKey) (now : Nat) (readable : Bool) (before after : Nat) :
    Option CachedResult × L2WarmCache :=
  if !cfg.enabled then (none, c)
  else
    let hash := hashValue key
    match lookup hash c.memory with
    | some entry =>
      if entry.result.isExpired now then (none, c.removeEntry hash)
      else (some entry.result,
        { c with memory := insert hash { entry with lastAccess := now } c.memory })
    | none =>
      match c.spill.bind fun storage => storage.get hash readable before after with
      | some result => (some result, c.promoteToMemory cfg hashValue key result after)
      | none => (none, c)

def demoteToMmap (c : L2WarmCache) (hash : UInt64) (entry : L2Entry) (write : Write) :
    L2WarmCache :=
  { c with spill := c.spill.map fun storage => storage.put hash entry.result write }

/-- The loop of `evict_to_fit`, with fuel for one turn per entry. -/
def evictLru (target : Nat) (writes : Nat → Write) : Nat → L2WarmCache → L2WarmCache
  | 0, c => c
  | turn + 1, c =>
    if target < c.memoryUsage then
      match c.memory.argmin (·.2.lastAccess) with
      | some (hash, entry) =>
        evictLru target writes turn ((c.demoteToMmap hash entry (writes turn)).removeEntry hash)
      | none => c
    else c

def maxBytes : Nat := cfg.sizeMb * 1024 * 1024

def evictToFit (c : L2WarmCache) (required now : Nat) (writes : Nat → Write) : L2WarmCache :=
  let expired := (c.memory.filter fun e => e.2.result.isExpired now).map (·.1)
  let c := c.shed expired
  c.evictLru (maxBytes cfg - required) writes c.memory.length

/-- The eviction pass of a put.  One that is handed off goes on until `end_eviction`. -/
def evictionPass (c : L2WarmCache) (required now : Nat) (isStale : CachedResult → Bool)
    (handedOff : Bool) (writes : Nat → Write) : L2WarmCache :=
  let retired := (c.memory.filter fun e => e.2.result.isExpired now || isStale e.2.result).map (·.1)
  if retired.isEmpty then c.evictToFit cfg required now writes
  else if handedOff then { c with evicting := true }
  else c.shed retired

def putEvicting (c : L2WarmCache) (key : CacheKey) (result : CachedResult) (now : Nat)
    (isStale : CachedResult → Bool) (handedOff : Bool) (writes : Nat → Write) : L2WarmCache :=
  if !cfg.enabled then c
  else
    let entrySize := result.size + cfg.entrySize
    let hash := hashValue key
    let replacing := ((lookup hash c.memory).map L2Entry.memorySize).getD 0
    let c :=
      if maxBytes cfg < c.memoryUsage - replacing + entrySize ∧ c.evicting = false then
        c.evictionPass cfg entrySize now isStale handedOff writes
      else c
    c.insertEntry hash (.new cfg key result now)

def remove (c : L2WarmCache) (key : CacheKey) : L2WarmCache :=
  let hash := hashValue key
  { c.removeEntry hash with spill := c.spill.map fun storage => storage.remove hash }

end L2WarmCache

/-- A call, with what the clock, the file system and its caller give it. -/
inductive Call
  | get (key : CacheKey) (now : Nat) (readable : Bool) (before after : Nat)
  | putEvicting (key : CacheKey) (result : CachedResult) (now : Nat) (isStale : CachedResult → Bool)
      (handedOff : Bool) (writes : Nat → Write)
  | remove (key : CacheKey)
  | shed (hashes : List UInt64)
  | endEviction

def L2WarmCache.step (c : L2WarmCache) : Call → L2WarmCache
  | .get key now readable before after => (c.get cfg hashValue key now readable before after).2
  | .putEvicting key result now isStale handedOff writes =>
    c.putEvicting cfg hashValue key result now isStale handedOff writes
  | .remove key => c.remove hashValue key
  | .shed hashes => c.shed hashes
  | .endEviction => { c with evicting := false }

def afterCalls (calls : List Call) : L2WarmCache :=
  calls.foldl (L2WarmCache.step cfg hashValue) (.new cfg)

end Calls

/-! ## What comes back from the file -/

def TablesFit (tables : List String) : Prop :=
  tables.length < 2 ^ 32 ∧ ∀ t ∈ tables, (tableBytes t).length < 2 ^ 32

/-- The same result, but for the execution time, which the file does not keep, and for
tables that do not fit it. -/
structure Restores (r₀ r : CachedResult) : Prop where
  data : r.data = r₀.data
  rowCount : r.rowCount = r₀.rowCount
  cachedAt : r.cachedAt = r₀.cachedAt
  ttl : r.ttl = r₀.ttl
  generation : r.generation = r₀.generation
  tables : TablesFit r₀.tables → r.tables = r₀.tables

theorem Restores.refl (r : CachedResult) : Restores r r := ⟨rfl, rfl, rfl, rfl, rfl, fun _ => rfl⟩

theorem Restores.trans {r₀ r₁ r₂ : CachedResult} (hf : Restores r₀ r₁) (hs : Restores r₁ r₂) :
    Restores r₀ r₂ where
  data := hs.data.trans hf.data
  rowCount := hs.rowCount.trans hf.rowCount
  cachedAt := hs.cachedAt.trans hf.cachedAt
  ttl := hs.ttl.trans hf.ttl
  generation := hs.generation.trans hf.generation
  tables hfi := by
    have hsa := hf.tables hfi
    exact (hs.tables (hsa ▸ hfi)).trans hsa

theorem fromUTF8_tableBytes (table : String) :
    String.fromUTF8? ⟨(tableBytes table).toArray⟩ = some table := by
  exact dif_pos table.isValidUTF8

variable {tables : List String}

theorem deserializeTables_serializeTables
    (hf : ∀ t ∈ tables, (tableBytes t).length < 2 ^ 32) :
    deserializeTables tables.length (serializeTables tables) = some tables := by
  induction tables with
  | nil => rfl
  | cons table tables ih =>
    have hlen : fromLeBytes (toLeBytes 4 (tableBytes table).length) =
      (tableBytes table).length := by
      rw [fromLeBytes_toLeBytes]
      exact Nat.mod_eq_of_lt (hf table List.mem_cons_self)
    have hr := ih fun t hm => hf t (List.mem_cons_of_mem _ hm)
    simp only [List.length_cons, deserializeTables, serializeTables, takeBytes_toLeBytes,
      bind_eq_bind, bind_some, hlen, takeBytes_append rfl, fromUTF8_tableBytes, hr]

theorem fromLeBytes_u64 (n : UInt64) : UInt64.ofNat (fromLeBytes (toLeBytes 8 n.toNat)) = n := by
  have hs : n.toNat < 256 ^ 8 := n.toNat_lt
  rw [fromLeBytes_toLeBytes, Nat.mod_eq_of_lt hs, UInt64.ofNat_toNat]

theorem deserializeResult_serializeResult (r : CachedResult) (now : Nat) :
    deserializeResult (serializeResult r) r.cachedAt r.ttl now =
      (deserializeTables (fromLeBytes (toLeBytes 4 r.tables.length))
        (serializeTables r.tables)).bind fun tables =>
        if mmapExpiredAt r.cachedAt r.ttl now then none else some
          { r with tables, executionTime := 0 } := by
  have hs : fromLeBytes (toLeBytes 8 (asSecs r.ttl)) = asSecs r.ttl := by
    rw [fromLeBytes_toLeBytes]
    exact Nat.mod_eq_of_lt (Nat.mod_lt _ (by decide))
  have hlen : fromLeBytes (toLeBytes 8 r.data.1.length) = r.data.1.length := by
    rw [fromLeBytes_toLeBytes]
    exact Nat.mod_eq_of_lt (r.data.2.trans (by decide))
  rw [serializeResult, deserializeResult]
  simp only [takeBytes_toLeBytes, bind_eq_bind, bind_some, hs, ne_eq, not_true_eq_false,
    if_false, hlen, takeBytes_append rfl, dif_pos r.data.2, fromLeBytes_u64]

theorem deserializeTables_of_fit (hf : TablesFit tables) :
    deserializeTables (fromLeBytes (toLeBytes 4 tables.length))
      (serializeTables tables) = some tables := by
  have hc : fromLeBytes (toLeBytes 4 tables.length) = tables.length := by
    rw [fromLeBytes_toLeBytes]
    exact Nat.mod_eq_of_lt hf.1
  rw [hc, deserializeTables_serializeTables hf.2]

variable {r : CachedResult} {now : Nat}

theorem restores_of_deserialize {r₀ : CachedResult}
    (hr : deserializeResult (serializeResult r₀) r₀.cachedAt r₀.ttl now = some r) :
    Restores r₀ r := by
  rw [deserializeResult_serializeResult] at hr
  obtain ⟨tables, hp, hr⟩ := bind_eq_some_iff.mp hr
  obtain ⟨-, ⟨⟩⟩ := ite_none_left_eq_some.mp hr
  refine ⟨rfl, rfl, rfl, rfl, rfl, fun hf => ?_⟩
  rw [deserializeTables_of_fit hf] at hp
  exact (Option.some.inj hp).symm

/-! ## Whose result is under a hash -/

def Call.stores : Call → Option (CacheKey × CachedResult)
  | .putEvicting key result .. => some (key, result)
  | _ => none

def stored (calls : List Call) : List (CacheKey × CachedResult) := calls.filterMap Call.stores

section Owners

variable (hashValue : CacheKey → UInt64) (puts : List (CacheKey × CachedResult))

def StoredUnder (hash : UInt64) (r : CachedResult) : Prop :=
  ∃ key r₀, (key, r₀) ∈ puts ∧ hashValue key = hash ∧ Restores r₀ r

structure Holds (file : Bytes) (e : MmapEntry) (r : CachedResult) : Prop where
  within : e.offset + e.size ≤ file.length
  bytes : (file.drop e.offset).take e.size = serializeResult r
  cachedAt : e.cachedAt = r.cachedAt
  ttl : e.ttl = r.ttl

structure SpillOwned (s : MmapStorage) : Prop where
  size : s.file.length = s.fileSize
  index : ∀ e ∈ s.index, ∃ r, StoredUnder hashValue puts e.1 r ∧ Holds s.file e.2 r

structure CacheOwned (c : L2WarmCache) : Prop where
  memory : ∀ e ∈ c.memory, StoredUnder hashValue puts e.1 e.2.result
  spill : ∀ s ∈ c.spill, SpillOwned hashValue puts s

end Owners

def Write.Clean : Write → Prop
  | .torn written => written = 0
  | _ => True

section Steps

variable {cfg : L2Config} {hashValue : CacheKey → UInt64}
  {puts more : List (CacheKey × CachedResult)} {s : MmapStorage} {c : L2WarmCache}

theorem StoredUnder.mono (hsub : puts ⊆ more) {hash : UInt64} :
    StoredUnder hashValue puts hash r → StoredUnder hashValue more hash r
  | ⟨key, r₀, hm, hs, hr⟩ => ⟨key, r₀, hsub hm, hs, hr⟩

variable {r : CachedResult}

theorem Holds.append {file : Bytes} {e : MmapEntry} (hh : Holds file e r) (more : Bytes) :
    Holds (file ++ more) e r where
  within := by
    rw [List.length_append]
    exact Nat.le_add_right_of_le hh.within
  bytes := by
    have hw := hh.within
    rw [List.drop_append_of_le_length (by omega),
      List.take_append_of_le_length (by rw [List.length_drop]; omega)]
    exact hh.bytes
  cachedAt := hh.cachedAt
  ttl := hh.ttl

theorem SpillOwned.mono (hsub : puts ⊆ more) (how : SpillOwned hashValue puts s) :
    SpillOwned hashValue more s :=
  ⟨how.size, fun e hm => (how.index e hm).imp fun _ hh => ⟨hh.1.mono hsub, hh.2⟩⟩

theorem CacheOwned.mono (hsub : puts ⊆ more) (how : CacheOwned hashValue puts c) :
    CacheOwned hashValue more c :=
  ⟨fun e hm => (how.memory e hm).mono hsub, fun s hm => (how.spill s hm).mono hsub⟩

variable {hash : UInt64} {readable : Bool} {before : Nat}

section

variable (how : SpillOwned hashValue puts s)
include how

theorem SpillOwned.get {after : Nat}
    (hr : s.get hash readable before after = some r) : StoredUnder hashValue puts hash r := by
  obtain ⟨entry, hf, hr⟩ := bind_eq_some_iff.mp hr
  obtain ⟨-, hr⟩ := ite_none_left_eq_some.mp hr
  obtain ⟨-, hr⟩ := ite_none_right_eq_some.mp hr
  obtain ⟨r₁, ⟨key, r₀, hm, hs, hre⟩, hh⟩ := how.index _ (mem_of_lookup hf)
  rw [hh.bytes, hh.cachedAt, hh.ttl] at hr
  exact ⟨key, r₀, hm, hs, hre.trans (restores_of_deserialize hr)⟩

variable {write : Write}

theorem SpillOwned.put (hu : StoredUnder hashValue puts hash r) (hc : write.Clean) :
    SpillOwned hashValue puts (s.put hash r write) := by
  cases write with
  | refused => exact how
  | torn written =>
    cases hc
    rw [MmapStorage.put, List.take_zero, List.append_nil]
    exact how
  | whole =>
    have hs := how.size
    refine ⟨?_, fun e hm => ?_⟩
    · rw [MmapStorage.put, List.length_append, hs]
    · obtain rfl | ho := eq_or_mem_of_mem_insert hm
      · refine ⟨r, hu, ?_, ?_, rfl, rfl⟩
        · rw [MmapStorage.put, List.length_append, hs]
        · rw [MmapStorage.put, ← hs, List.drop_left, List.take_length]
      · obtain ⟨r₁, hu₁, hh⟩ := how.index e ho
        exact ⟨r₁, hu₁, hh.append _⟩

theorem SpillOwned.remove (hash : UInt64) : SpillOwned hashValue puts (s.remove hash) :=
  ⟨how.size, fun e hm => how.index e (mem_of_mem_erase hm)⟩

end

variable {entry : L2Entry}

section

variable (how : CacheOwned hashValue puts c)
include how

theorem CacheOwned.insertEntry (hu : StoredUnder hashValue puts hash entry.result) :
    CacheOwned hashValue puts (c.insertEntry hash entry) where
  memory e hm := by
    obtain rfl | ho := eq_or_mem_of_mem_insert hm
    · exact hu
    · exact how.memory e ho
  spill := how.spill

theorem CacheOwned.removeEntry (hash : UInt64) :
    CacheOwned hashValue puts (c.removeEntry hash) := by
  unfold L2WarmCache.removeEntry
  split
  · exact ⟨fun e hm => how.memory e (mem_of_mem_erase hm), how.spill⟩
  · exact how

theorem CacheOwned.shed (hashes : List UInt64) : CacheOwned hashValue puts (c.shed hashes) := by
  induction hashes generalizing c with
  | nil => exact how
  | cons hash hashes ih => exact ih (how.removeEntry hash)

theorem CacheOwned.demoteToMmap (hm : (hash, entry) ∈ c.memory) (hc : write.Clean) :
    CacheOwned hashValue puts (c.demoteToMmap hash entry write) := by
  refine ⟨how.memory, fun s hd => ?_⟩
  obtain ⟨s₀, hh, rfl⟩ := map_eq_some_iff.mp hd
  exact (how.spill s₀ hh).put (how.memory _ hm) hc

theorem CacheOwned.evictLru {target : Nat} {writes : Nat → Write}
    (hc : ∀ i, (writes i).Clean) (fuel : Nat) :
    CacheOwned hashValue puts (c.evictLru target writes fuel) := by
  induction fuel generalizing c with
  | zero => exact how
  | succ turn ih =>
    unfold L2WarmCache.evictLru
    split
    case isFalse => exact how
    case isTrue =>
      split
      case h_1 hash entry hl =>
        exact ih ((how.demoteToMmap (List.argmin_mem hl) (hc turn)).removeEntry hash)
      case h_2 => exact how

theorem CacheOwned.evictionPass {required : Nat}
    {isStale : CachedResult → Bool} {handedOff : Bool} {writes : Nat → Write}
    (hc : ∀ i, (writes i).Clean) :
    CacheOwned hashValue puts (c.evictionPass cfg required now isStale handedOff writes) := by
  unfold L2WarmCache.evictionPass
  dsimp only
  split
  · exact (how.shed _).evictLru hc _
  · split
    · exact ⟨how.memory, how.spill⟩
    · exact how.shed _

theorem CacheOwned.get {key : CacheKey} {after : Nat} :
    (∀ r, (c.get cfg hashValue key now readable before after).1 = some r →
      StoredUnder hashValue puts (hashValue key) r) ∧
    CacheOwned hashValue puts (c.get cfg hashValue key now readable before after).2 := by
  unfold L2WarmCache.get
  dsimp only
  split
  case isTrue => exact ⟨by rintro r ⟨⟩, how⟩
  case isFalse =>
    split
    case h_1 entry hf =>
      have hu := how.memory _ (mem_of_lookup hf)
      split
      · exact ⟨by rintro r ⟨⟩, how.removeEntry _⟩
      · refine ⟨by rintro r ⟨⟩; exact hu, fun e hm => ?_, how.spill⟩
        obtain rfl | ho := eq_or_mem_of_mem_insert hm
        · exact hu
        · exact how.memory e ho
    case h_2 =>
      split
      case h_1 result hr =>
        obtain ⟨s, hh, hr⟩ := bind_eq_some_iff.mp hr
        have hu := (how.spill s hh).get hr
        exact ⟨by rintro r ⟨⟩; exact hu, how.insertEntry hu⟩
      case h_2 => exact ⟨by rintro r ⟨⟩, how⟩

end

end Steps

/-! ## Whole runs -/

def Call.Clean : Call → Prop
  | .putEvicting _ _ _ _ _ writes => ∀ i, (writes i).Clean
  | _ => True

def Call.Over (keys : Set CacheKey) : Call → Prop
  | .get key .. => key ∈ keys
  | .putEvicting key .. => key ∈ keys
  | .remove key => key ∈ keys
  | _ => True

section Runs

variable {cfg : L2Config} {hashValue : CacheKey → UInt64} {puts : List (CacheKey × CachedResult)}
  {c : L2WarmCache}

theorem CacheOwned.step (how : CacheOwned hashValue puts c) {call : Call} (hc : call.Clean) :
    CacheOwned hashValue (puts ++ call.stores.toList) (c.step cfg hashValue call) := by
  have how := how.mono (List.subset_append_left puts call.stores.toList)
  cases call with
  | get key now readable before after => exact how.get.2
  | putEvicting key result now isStale handedOff writes =>
    have hu : StoredUnder hashValue (puts ++ [(key, result)]) (hashValue key) result :=
      ⟨key, result, List.mem_append_right _ (List.mem_singleton.mpr rfl), rfl, .refl result⟩
    show CacheOwned _ _ (c.putEvicting cfg hashValue key result now isStale handedOff writes)
    unfold L2WarmCache.putEvicting
    split
    · exact how
    · refine CacheOwned.insertEntry ?_ hu
      split
      · exact how.evictionPass hc
      · exact how
  | remove key =>
    refine ⟨(how.removeEntry (hashValue key)).memory, fun s hr => ?_⟩
    obtain ⟨s₀, hh, rfl⟩ := map_eq_some_iff.mp hr
    exact (how.spill s₀ hh).remove _
  | shed hashes => exact how.shed hashes
  | endEviction => exact ⟨how.memory, how.spill⟩

theorem cacheOwned_new : CacheOwned hashValue [] (.new cfg) := by
  refine ⟨fun e hm => absurd hm List.not_mem_nil, fun s hh => ?_⟩
  unfold L2WarmCache.new at hh
  split at hh
  · cases hh
    exact ⟨rfl, fun e hm => absurd hm List.not_mem_nil⟩
  · cases hh

theorem stored_concat (calls : List Call) (call : Call) :
    stored (calls ++ [call]) = stored calls ++ call.stores.toList := by
  rw [stored, List.filterMap_append]
  cases call <;> rfl

variable {calls : List Call} (cfg hashValue) in
theorem cacheOwned_afterCalls (hc : ∀ call ∈ calls, call.Clean) :
    CacheOwned hashValue (stored calls) (afterCalls cfg hashValue calls) := by
  induction calls using List.reverseRecOn with
  | nil => exact cacheOwned_new
  | append_singleton calls call ih =>
    rw [stored_concat, afterCalls, List.foldl_append]
    exact (ih fun x hm => hc x (List.mem_append_left _ hm)).step
      (hc call (List.mem_append_right _ (List.mem_singleton.mpr rfl)))

theorem stored_over {keys : Set CacheKey} (ho : ∀ call ∈ calls, call.Over keys)
    {key : CacheKey} (hm : (key, r) ∈ stored calls) : key ∈ keys := by
  obtain ⟨call, hc, hs⟩ := List.mem_filterMap.mp hm
  have ha := ho call hc
  cases call with
  | putEvicting =>
    cases hs
    exact ha
  | get | remove | shed | endEviction => cases hs

end Runs

/-- Every lookup that returns a result returns one that was stored under its own key. -/
def OwnResults (cfg : L2Config) (hashValue : CacheKey → UInt64) (calls : List Call) : Prop :=
  ∀ earlier later key now readable before after r,
    calls = earlier ++ .get key now readable before after :: later →
    ((afterCalls cfg hashValue earlier).get cfg hashValue key now readable before after).1 =
    some r →
    ∃ r₀, (key, r₀) ∈ stored earlier ∧ Restores r₀ r

theorem get_other_key {cfg : L2Config} (he : cfg.enabled) {hashValue : CacheKey → UInt64}
    {key other : CacheKey} (hs : hashValue key = hashValue other) (r : CachedResult) :
    ((afterCalls cfg hashValue [.putEvicting key r 0 (fun _ => false) false fun _ => .whole]).get
      cfg hashValue other
      r.cachedAt true 0 0).1 = some r := by
  have hh : ∀ c :
    L2WarmCache,
    lookup (hashValue other) (c.insertEntry (hashValue key) (.new cfg key r 0)).memory =
      some (.new cfg key r 0) := by
    simp [L2WarmCache.insertEntry, Lru.insert, lookup, hs]
  have hf : r.isExpired r.cachedAt = false := by simp [CachedResult.isExpired]
  unfold L2WarmCache.get
  rw [if_neg (by simp [he])]
  have ha : ∃ c : L2WarmCache, afterCalls cfg hashValue
      [.putEvicting key r 0 (fun _ => false) false fun _ => .whole] =
      c.insertEntry (hashValue key) (.new cfg key r 0) := ⟨_, if_neg (by simp [he])⟩
  obtain ⟨c, ha⟩ := ha
  rw [ha]
  dsimp only
  rw [hh c]
  exact congrArg Prod.fst (if_neg (by simpa [L2Entry.new] using hf))

/-- As long as no failed write leaves bytes in the spill file, the calls over some keys all
get their own results exactly if no two of the keys have one hash. -/
theorem l2Get_own_results (cfg : L2Config) (hashValue : CacheKey → UInt64) (keys : Set CacheKey) :
    (∀ calls : List Call, (∀ call ∈ calls, call.Over keys) → (∀ call ∈ calls, call.Clean) →
        OwnResults cfg hashValue calls) ↔
      (cfg.enabled = true → Set.InjOn hashValue keys) := by
  refine ⟨fun hown henabled key hmem other hmem' hsame => ?_,
    fun hinjective calls hovers hclean => ?_⟩
  · let r : CachedResult := ⟨⟨[], by decide⟩, 0, 0, 0, [], 0, 0⟩
    let put : Call := .putEvicting key r 0 (fun _ => false) false fun _ => .whole
    have hovers : ∀ call ∈ [put, .get other r.cachedAt true 0 0], call.Over keys := by
      intro call hcalled
      obtain rfl | hcalled := List.mem_cons.mp hcalled
      · exact hmem
      · cases List.mem_singleton.mp hcalled
        exact hmem'
    have hclean : ∀ call ∈ [put, .get other r.cachedAt true 0 0], call.Clean := by
      intro call hcalled
      obtain rfl | hcalled := List.mem_cons.mp hcalled
      · exact fun _ => trivial
      · cases List.mem_singleton.mp hcalled
        trivial
    obtain ⟨r₀, hown, -⟩ :=
      hown _ hovers hclean [put] [] other r.cachedAt true 0 0 r rfl (get_other_key henabled hsame r)
    exact (Prod.ext_iff.mp (List.mem_singleton.mp hown)).1.symm
  · rintro earlier later key now readable before after r rfl hhit
    have how := cacheOwned_afterCalls cfg hashValue
      fun call hmem => hclean call (List.mem_append_left _ hmem)
    have henabled : cfg.enabled = true := by
      by_contra hdisabled
      unfold L2WarmCache.get at hhit
      rw [if_pos (by simpa using hdisabled)] at hhit
      cases hhit
    obtain ⟨owner, r₀, hmem, hsame, hrestores⟩ := how.get.1 r hhit
    have hasked : key ∈ keys := hovers _ (List.mem_append_right _ List.mem_cons_self)
    have hputting :=
      stored_over (fun call hcalled => hovers call (List.mem_append_left _ hcalled)) hmem
    cases hinjective henabled hputting hasked hsame
    exact ⟨r₀, hmem, hrestores⟩

def oneByte (b : UInt8) : CachedResult :=
  ⟨⟨[b], Nat.one_lt_two_pow (by decide)⟩, 1, 0, 256 * 10 ^ 9, [], 0, 0⟩

def keyOf (queryHash : UInt64) (database : String) : CacheKey := ⟨queryHash, database, none, none⟩

def putOf (key : CacheKey) (b : UInt8) (write : Write) : Call :=
  .putEvicting key (oneByte b) 0 (fun _ => false) false fun _ => write

/-- Under a hash that is always zero, one database gets the result of another.  Without any
collision, the second of two results of one size gets the data of the first, whose write
to the spill file failed one byte before its end. -/
theorem not_l2Get_own_results :
    ¬ OwnResults ⟨true, 1, false, 0⟩ (fun _ => 0)
      [putOf (keyOf 1 "a") 7 .whole, .get (keyOf 1 "b") 1 true 1 1] ∧
    ¬ OwnResults ⟨true, 0, true, 0⟩ CacheKey.queryHash
      [putOf (keyOf 1 "a") 7 .whole, putOf (keyOf 2 "a") 8 (.torn 36), putOf (keyOf 3 "a") 9 .whole,
        .get (keyOf 2 "a") 1 true 1 1] := by
  constructor
  · intro hown
    obtain ⟨r₀, hmem, -⟩ := hown [_] [] (keyOf 1 "b") 1 true 1 1 (oneByte 7) rfl (by decide)
    have hsame : keyOf 1 "b" = keyOf 1 "a" := (Prod.ext_iff.mp (List.mem_singleton.mp hmem)).1
    exact absurd hsame (by decide)
  · intro hown
    obtain ⟨r₀, hmem, hrestores⟩ := hown [_, _, _] [] (keyOf 2 "a") 1 true 1 1
      (oneByte 7) rfl (by decide)
    have honly : ∀ e ∈
      [(keyOf 1 "a", oneByte 7), (keyOf 2 "a", oneByte 8), (keyOf 3 "a", oneByte 9)],
        e.1 = keyOf 2 "a" → e.2.data = (oneByte 8).data := by decide
    have hdata := hrestores.data.trans (honly _ hmem rfl)
    exact absurd hdata (by decide)

/-! ## Results that were overwritten -/

def latestPuts (hashValue : CacheKey → UInt64) (puts : List (CacheKey × CachedResult)) :
    List (CacheKey × CachedResult) :=
  puts.foldl (fun latest put => put :: latest.filter fun e => hashValue e.1 ≠ hashValue put.1) []

def LatestResults (cfg : L2Config) (hashValue : CacheKey → UInt64) (calls : List Call) : Prop :=
  ∀ earlier later key now readable before after r,
    calls = earlier ++ .get key now readable before after :: later →
    ((afterCalls cfg hashValue earlier).get cfg hashValue key now readable before after).1 =
    some r →
    StoredUnder hashValue (latestPuts hashValue (stored earlier)) (hashValue key) r

/-- A put finds no copy of its key in the file, and does not have to make room while there
is one in memory, which it would move there. -/
def L2WarmCache.Replaces (cfg : L2Config) (hashValue : CacheKey → UInt64) (c : L2WarmCache) :
    Call → Prop
  | .putEvicting key result .. =>
    (∀ s ∈ c.spill, lookup (hashValue key) s.index = none) ∧
      (lookup (hashValue key) c.memory = none ∨ c.evicting = true ∨
        c.memoryUsage - ((lookup (hashValue key) c.memory).map L2Entry.memorySize).getD 0 +
          (result.size + cfg.entrySize) ≤ maxBytes cfg)
  | _ => True

section Latest

variable {cfg : L2Config} {hashValue : CacheKey → UInt64} {puts : List (CacheKey × CachedResult)}
  {c : L2WarmCache}

def L2WarmCache.Lacks (c : L2WarmCache) (hash : UInt64) : Prop :=
  lookup hash c.memory = none ∧ ∀ s ∈ c.spill, lookup hash s.index = none

variable {hash : UInt64}

section

variable (hla : c.Lacks hash)
include hla

theorem lacks_removeEntry (other : UInt64) : (c.removeEntry other).Lacks hash := by
  unfold L2WarmCache.removeEntry
  split
  · exact ⟨lookup_eq_none.mpr fun e hm => lookup_eq_none.mp hla.1 e (mem_of_mem_erase hm), hla.2⟩
  · exact hla

theorem lacks_shed (hashes : List UInt64) : (c.shed hashes).Lacks hash := by
  induction hashes generalizing c with
  | nil => exact hla
  | cons other hashes ih => exact ih (lacks_removeEntry hla other)

theorem lacks_demoteToMmap {other : UInt64} (hd : hash ≠ other) (entry : L2Entry)
    (write : Write) : (c.demoteToMmap other entry write).Lacks hash := by
  refine ⟨hla.1, fun s hde => ?_⟩
  obtain ⟨s₀, hh, rfl⟩ := map_eq_some_iff.mp hde
  have hb := hla.2 s₀ hh
  cases write with
  | refused | torn => exact hb
  | whole =>
    rw [MmapStorage.put, lookup_insert_of_ne hd]
    exact hb

theorem lacks_evictLru (target : Nat) (writes : Nat → Write) (fuel : Nat) :
    (c.evictLru target writes fuel).Lacks hash := by
  induction fuel generalizing c with
  | zero => exact hla
  | succ turn ih =>
    unfold L2WarmCache.evictLru
    split
    case isFalse => exact hla
    case isTrue =>
      split
      case h_1 other entry hl =>
        have hd : hash ≠ other := fun hs =>
          lookup_eq_none.mp hla.1 _ (List.argmin_mem hl) hs.symm
        exact ih (lacks_removeEntry (lacks_demoteToMmap hla hd entry (writes turn)) other)
      case h_2 => exact hla

variable {writes : Nat → Write} {isStale : CachedResult → Bool} {handedOff : Bool}

theorem lacks_evictionPass {required : Nat} :
    (c.evictionPass cfg required now isStale handedOff writes).Lacks hash := by
  unfold L2WarmCache.evictionPass
  dsimp only
  split
  · exact lacks_evictLru (lacks_shed hla _) _ _ _
  · split
    · exact hla
    · exact lacks_shed hla _

end

variable {r : CachedResult}

theorem StoredUnder.latest (hu : StoredUnder hashValue puts hash r)
    {put : CacheKey × CachedResult} (hd : hash ≠ hashValue put.1) :
    StoredUnder hashValue (put :: puts.filter fun e => hashValue e.1 ≠ hashValue put.1) hash r := by
  obtain ⟨key, r₀, hm, hs, hr⟩ := hu
  refine ⟨key, r₀, List.mem_cons_of_mem _ (List.mem_filter.mpr ⟨hm, ?_⟩), hs, hr⟩
  simpa [hs] using hd

variable {key : CacheKey}

theorem CacheOwned.insertLatest (how : CacheOwned hashValue puts c) {entry : L2Entry}
    (hr : entry.result = r) (ha : ∀ s ∈ c.spill, lookup (hashValue key) s.index = none) :
    CacheOwned hashValue ((key, r) :: puts.filter fun e => hashValue e.1 ≠ hashValue key)
      (c.insertEntry (hashValue key) entry) where
  memory e hm := by
    rcases List.mem_cons.mp hm with rfl | hm
    · exact ⟨key, r, List.mem_cons_self, rfl, hr ▸ .refl r⟩
    · have hd : e.1 ≠ hashValue key := lookup_eq_none.mp (lookup_erase_self _ _) e hm
      exact (how.memory e (mem_of_mem_erase hm)).latest hd
  spill s hh := by
    refine ⟨(how.spill s hh).size, fun e hm => ?_⟩
    obtain ⟨r₁, hu, hho⟩ := (how.spill s hh).index e hm
    exact ⟨r₁, hu.latest (lookup_eq_none.mp (ha s hh) e hm), hho⟩

theorem CacheOwned.putLatest (how : CacheOwned hashValue puts c) (he : cfg.enabled)
    (hc : ∀ i, (writes i).Clean)
    (hr : c.Replaces cfg hashValue (.putEvicting key r now isStale handedOff writes)) :
    CacheOwned hashValue ((key, r) :: puts.filter fun e => hashValue e.1 ≠ hashValue key)
      (c.putEvicting cfg hashValue key r now isStale handedOff writes) := by
  obtain ⟨ha, hca⟩ := hr
  unfold L2WarmCache.putEvicting
  rw [if_neg (by simp [he])]
  dsimp only
  split
  · next hf =>
    have hu : lookup (hashValue key) c.memory = none := by
      rcases hca with hu | hb | hfi
      · exact hu
      · rw [hf.2] at hb
        cases hb
      · omega
    exact (how.evictionPass hc).insertLatest rfl (lacks_evictionPass ⟨hu, ha⟩).2
  · exact how.insertLatest rfl ha

theorem latestPuts_concat (puts : List (CacheKey × CachedResult)) (put : CacheKey × CachedResult) :
    latestPuts hashValue (puts ++ [put]) =
      put :: (latestPuts hashValue puts).filter fun e => hashValue e.1 ≠ hashValue put.1 := by
  rw [latestPuts, List.foldl_append]
  rfl

theorem latestOwned_afterCalls (he : cfg.enabled) {calls : List Call}
    (hc : ∀ call ∈ calls, call.Clean)
    (hr : ∀ earlier call later, calls = earlier ++ call :: later →
      (afterCalls cfg hashValue earlier).Replaces cfg hashValue call) :
    CacheOwned hashValue (latestPuts hashValue (stored calls))
      (afterCalls cfg hashValue calls) := by
  induction calls using List.reverseRecOn with
  | nil => exact cacheOwned_new
  | append_singleton calls call ih =>
    have how := ih (fun x hm => hc x (List.mem_append_left _ hm)) fun earlier x later heq =>
      hr earlier x (later ++ [call]) (by rw [heq, List.append_assoc, List.cons_append])
    have hcl := hc call (List.mem_append_right _ List.mem_cons_self)
    rw [stored_concat, afterCalls, List.foldl_append]
    cases call with
    | putEvicting key r now isStale handedOff writes =>
      rw [show (Call.putEvicting key r now isStale handedOff writes).stores.toList = [(key, r)] from
        rfl, latestPuts_concat]
      exact how.putLatest he hcl (hr calls _ [] rfl)
    | get | remove | shed | endEviction =>
      simpa [Call.stores, afterCalls] using @CacheOwned.step cfg hashValue _ _ how _ hcl

end Latest

/-- Where no put leaves an older copy of its key in the file, and no failed write leaves
bytes there, no lookup returns a result that was overwritten. -/
theorem l2Get_latest_results (cfg : L2Config) (hashValue : CacheKey → UInt64) (calls : List Call)
    (hclean : ∀ call ∈ calls, call.Clean)
    (hreplaces : ∀ earlier call later, calls = earlier ++ call :: later →
      (afterCalls cfg hashValue earlier).Replaces cfg hashValue call) :
    LatestResults cfg hashValue calls := by
  rintro earlier later key now readable before after r rfl hhit
  have henabled : cfg.enabled = true := by
    by_contra hdisabled
    unfold L2WarmCache.get at hhit
    rw [if_pos (by simpa using hdisabled)] at hhit
    cases hhit
  have how : CacheOwned hashValue (latestPuts hashValue (stored earlier))
    (afterCalls cfg hashValue earlier) :=
    latestOwned_afterCalls henabled
      (fun call hmem => hclean call (List.mem_append_left _ hmem)) fun first call rest heq =>
        hreplaces first call (rest ++ .get key now readable before after :: later) (by simp [heq])
  exact how.get.1 r hhit

/-- One key put and put again in memory, removed, put once more and looked up. -/
def putAgain : List Call :=
  [putOf (keyOf 1 "a") 7 .whole, putOf (keyOf 1 "a") 8 .whole, .remove (keyOf 1 "a"),
    putOf (keyOf 1 "a") 9 .whole, putOf (keyOf 1 "a") 6 .whole]

theorem l2Get_latest_results_again :
    (((afterCalls ⟨true, 1, true, 0⟩ CacheKey.queryHash putAgain).get ⟨true, 1, true, 0⟩
        CacheKey.queryHash (keyOf 1 "a") 1 true 1 1).1.map CachedResult.data) =
      some (oneByte 6).data ∧
      LatestResults ⟨true, 1, true, 0⟩ CacheKey.queryHash
        (putAgain ++ [.get (keyOf 1 "a") 1 true 1 1]) := by
  refine ⟨by decide, l2Get_latest_results _ _ _ ?_ fun earlier call later heq => ?_⟩
  · simp [putAgain, putOf, Call.Clean, Write.Clean]
  · rcases earlier with _ | ⟨_, _ | ⟨_, _ | ⟨_, _ | ⟨_, _ | ⟨_, _ | ⟨_, earlier⟩⟩⟩⟩⟩⟩
    · cases heq
      exact ⟨by rintro s ⟨⟩; rfl, .inl rfl⟩
    · cases heq
      exact ⟨by rintro s ⟨⟩; rfl, .inr (.inr (by decide))⟩
    · cases heq
      trivial
    · cases heq
      exact ⟨by rintro s ⟨⟩; rfl, .inl rfl⟩
    · cases heq
      exact ⟨by rintro s ⟨⟩; rfl, .inr (.inr (by decide))⟩
    · cases heq
      trivial
    · simp [putAgain] at heq

/-- A result that was moved to the file, put again and shed from memory. -/
theorem not_l2Get_latest_results :
    ¬ LatestResults ⟨true, 0, true, 0⟩ CacheKey.queryHash [putOf (keyOf 1 "a") 7 .whole,
      putOf (keyOf 2 "a") 9 .whole,
      putOf (keyOf 1 "a") 8 .whole, .shed [1], .get (keyOf 1 "a") 1 true 1 1] := by
  intro hlatest
  obtain ⟨key, r₀, hmem, hsame, hrestores⟩ :=
    hlatest [_, _, _, _] [] (keyOf 1 "a") 1 true 1 1 (oneByte 7) rfl (by decide)
  have honly : ∀ e ∈ latestPuts CacheKey.queryHash
      [(keyOf 2 "a", oneByte 9), (keyOf 1 "a", oneByte 8)],
      e.1.queryHash = 1 → e.2.data = (oneByte 8).data := by decide
  exact absurd (hrestores.data.trans (honly _ hmem hsame)) (by decide)

end HeliosProxy.L2Warm
